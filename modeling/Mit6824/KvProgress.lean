import Mit6824.KvRaft
import Mit6824.RaftServed

/-!
Every operation of a clerk can return.

The cluster below elects a leader, the clerk sends its request there, and the leader's server comes
to apply it. Until then its applier may have commands to note and snapshots to restore.
-/

namespace Mit6824.KvProgress

open Mit6824.GoData Mit6824.Labgob Mit6824.Sessions Mit6824.KvServer Mit6824.KvSystem
open Mit6824.KvSteps Mit6824.KvRaft Mit6824.Linear Mit6824.Runs Mit6824.Compose
open Mit6824.RaftState Mit6824.RaftPort Mit6824.RaftTraces Mit6824.RaftServed Function

variable {n : ℕ}

def withServer (e : Front n) (s : Fin n) (sv : KvSystem.Server) : Front n :=
  { e with toApp := e.toApp.setServer s sv }

def withStage (e : Front n) (k : ℕ) (call : KvSystem.Call n) (stage : Stage) : Front n :=
  { e with toApp := e.toApp.setStage k call stage }

/-- Nothing has happened between the clerks and the service, and no server has restarted. -/
structure Alike (e e' : Front n) : Prop where
  clerks : e'.clerks = e.clerks
  calls : e'.calls = e.calls
  history : e'.history = e.history
  epoch : ∀ s, (e'.servers s).epoch = (e.servers s).epoch

lemma Alike.refl (e : Front n) : Alike e e := ⟨rfl, rfl, rfl, fun _ => rfl⟩

lemma Alike.trans {e e₁ e₂ : Front n} (h : Alike e e₁) (h' : Alike e₁ e₂) : Alike e e₂ :=
  ⟨h'.clerks.trans h.clerks, h'.calls.trans h.calls, h'.history.trans h.history,
    fun s => (h'.epoch s).trans (h.epoch s)⟩

lemma alike_setServer {e : Front n} {s : Fin n} {sv : KvSystem.Server}
    (h : sv.epoch = (e.servers s).epoch) : Alike e (withServer e s sv) := by
  refine ⟨rfl, rfl, rfl, fun r => ?_⟩
  show (update e.servers s sv r).epoch = (e.servers r).epoch
  by_cases hr : r = s
  · rw [hr, update_self, h]
  · rw [update_of_ne hr]

section

variable [Coded (ℕ × Data × GoMap ℕ ℕ)]

def Fits (y : Service n Op) (e : Front n) : Prop :=
  ∃ history, Matches (y, e) history ∧ Inv (system (y, e) history)

variable {y y' : Service n Op} {e e' : Front n} {s : Fin n}

lemma Fits.right (h : Fits y e) {b : Act n} (hb : app e b = some (e', none)) : Fits y e' := by
  obtain ⟨history, hm, hinv⟩ := h
  obtain ⟨history', hm', hs⟩ := system_right hm hb
  exact ⟨history', hm', hinv.step hs⟩

lemma Fits.left (h : Fits y e) (hq : Quiet LogService.step y y') : Fits y' e := by
  induction hq with
  | refl => exact h
  | tail _ hd ih =>
    obtain ⟨history, hm, hinv⟩ := ih
    obtain ⟨d, hd⟩ := hd
    obtain ⟨i, hm', hs⟩ := system_left hm (LogService.steps_of_step hd)
    exact ⟨history, hm', hinv.step hs⟩

lemma Fits.both (h : Fits y e) {l : Label n Op} {d : LogService.Action (Fin n) Op Bytes} {b : Act n}
    (hd : LogService.step y d = some (y', some l)) (hb : app e b = some (e', some l)) :
    Fits y' e' := by
  obtain ⟨history, hm, hinv⟩ := h
  obtain ⟨hm', hs⟩ := system_both hm (LogService.steps_of_step hd) hb
  exact ⟨history, hm', hinv.step hs⟩

/-! ### The applier of a server -/

lemma app_quiet {b : Act n} {a : App n} (h : e.toApp.step b = some (a, .nothing)) :
    app e b = some ({ e with toApp := a }, none) :=
  app_eq_some_iff.mpr ⟨a, .nothing, h, rfl, rfl⟩

lemma app_label {b : Act n} {a : App n} {l : Label n Op}
    (h : e.toApp.step b = some (a, .log l)) : app e b = some ({ e with toApp := a }, some l) :=
  app_eq_some_iff.mpr ⟨a, .log l, h, rfl, rfl⟩

omit [Coded (ℕ × Data × GoMap ℕ ℕ)] in
lemma phase_setServer (e : Front n) (s : Fin n) (sv : KvSystem.Server) :
    ((withServer e s sv).servers s).phase = sv.phase := by
  show (update e.servers s sv s).phase = sv.phase
  rw [update_self]

/-- The applier restores the numbers of a snapshot, one client after the other. -/
lemma restored_quiet (k : ℕ) {rest : GoMap ℕ ℕ} (hk : rest.keys.card = k)
    (hph : (e.servers s).phase = .restoring rest) (h : Fits y e) :
    ∃ e', Quiet app e e' ∧ (e'.servers s).phase = .idle ∧ Fits y e' ∧ Alike e e' := by
  induction k generalizing e rest with
  | zero =>
    obtain rfl : rest = ∅ := Finmap.ext_lookup fun c => by
      rw [Finmap.lookup_empty, Finmap.lookup_eq_none, ← Finmap.mem_keys,
        Finset.card_eq_zero.mp hk]
      exact Finset.notMem_empty c
    set sv := { e.servers s with phase := .idle } with hsv
    have hb : app e (.restored s) = some (withServer e s sv, none) :=
      app_quiet (by simp [App.step, hph, hsv, guard])
    exact ⟨_, .single ⟨_, hb⟩, phase_setServer e s sv, h.right hb, alike_setServer rfl⟩
  | succ k ih =>
    obtain ⟨c, hc⟩ := Finset.card_pos.mp (hk.symm ▸ Nat.succ_pos k : 0 < rest.keys.card)
    obtain ⟨v, hv⟩ := Finmap.mem_iff.mp (Finmap.mem_keys.mp hc)
    set sv := (e.servers s).restore rest c v with hsv
    have hb : app e (.restore s c) = some (withServer e s sv, none) :=
      app_quiet (by simp [App.step, hph, hv, hsv])
    have hcard : (rest.erase c).keys.card = k := by
      rw [Finmap.keys_erase, Finset.card_erase_of_mem hc, hk, Nat.add_sub_cancel]
    obtain ⟨e', hq, hidle, hfits, halike⟩ := ih hcard (phase_setServer e s sv) (h.right hb)
    have hfirst : Alike e (withServer e s sv) := alike_setServer rfl
    exact ⟨e', hq.head ⟨_, hb⟩, hidle, hfits, hfirst.trans halike⟩

lemma idle_quiet (h : Fits y e) (s : Fin n) :
    ∃ e', Quiet app e e' ∧ (e'.servers s).phase = .idle ∧ Fits y e' ∧ Alike e e' := by
  cases hph : (e.servers s).phase with
  | idle => exact ⟨e, .refl, hph, h, .refl e⟩
  | noting op =>
    have hb : app e (.note s) = some (withServer e s ((e.servers s).note op), none) :=
      app_quiet (by simp [App.step, hph])
    exact ⟨_, .single ⟨_, hb⟩, phase_setServer e s _, h.right hb, alike_setServer rfl⟩
  | restoring rest => exact restored_quiet _ rfl hph h

lemma receptive : Receptive (app (n := n)) Fits Alike where
  refl := .refl
  trans := fun _ _ _ => Alike.trans
  quiet := fun _ _ _ h hq => h.left hq
  deliver := fun y d y' e s m h hd => by
    obtain ⟨e₁, hq, hidle, hfits, halike⟩ := idle_quiet h s
    cases m with
    | command op index =>
      have hb : app e₁ (.apply s op index) = some
          (withServer e₁ s ((e₁.servers s).apply op index), some (.command s op index)) :=
        app_label (by simp [App.step, hidle, guard])
      refine ⟨e₁, _, _, hq, hb, hfits.both hd hb, halike.trans (alike_setServer ?_)⟩
      unfold KvSystem.Server.apply
      dsimp only
      split <;> rfl
    | snapshot data term index =>
      obtain ⟨history, hm, hinv⟩ := id hfits
      -- it is one that a server has handed over
      obtain ⟨store, seqs, hdecode⟩ : ∃ store seqs, decodeSnap data index = .ok (store, seqs) := by
        cases LogService.steps_of_step hd with
        | restore hget hlt =>
          obtain ⟨-, kv, hkv, -⟩ := hinv.snap _ (List.mem_of_getElem? hget)
          exact ⟨_, _, hkv ▸ decodeSnap_snapshot kv index⟩
      have hb : app e₁ (.install s data index) = some (withServer e₁ s
          ((e₁.servers s).install index store seqs), some (.restore s data index)) :=
        app_label (by simp [App.step, hidle, hdecode, guard])
      exact ⟨e₁, _, _, hq, hb, hfits.both hd hb, halike.trans (alike_setServer rfl)⟩

lemma done_of_mem (h : Fits y e) (hidle : (e.servers s).phase = .idle) {op : Op}
    (hop : op ∈ y.log.take (y.pos s)) : (e.servers s).kv.done op.clientId op.seqNum := by
  obtain ⟨history, hm, hinv⟩ := h
  have hholds := (hinv.server s).holds hidle
  have happlied : (e.servers s).applied = y.pos s := congrFun hm.applied s
  have hmark : mark (e.servers s).kv.clientsStatus op.clientId =
      high (y.log.take (e.servers s).applied) op.clientId := hholds.2 op.clientId
  show op.seqNum ≤ mark (e.servers s).kv.clientsStatus op.clientId
  rw [hmark, happlied]
  exact le_high hop

/-! ### A call -/

/-- The clerk waits for the operation, and has this call of it at the server. -/
structure Awaited (e : Front n) (op : Op) (s : Fin n) (k : ℕ) (stage : Stage) : Prop where
  call : e.calls[k]? = some ⟨op, s, stage⟩
  isOpen : op ∈ (e.clerks op.clientId).open_

omit [Coded (ℕ × Data × GoMap ℕ ℕ)] in
lemma Awaited.alike {op : Op} {k : ℕ} {stage : Stage} (h : Awaited e op s k stage)
    (ha : Alike e e') : Awaited e' op s k stage :=
  ⟨by rw [ha.calls, h.call], by rw [ha.clerks]; exact h.isOpen⟩

omit [Coded (ℕ × Data × GoMap ℕ ℕ)] in
lemma Awaited.setStage {op : Op} {k : ℕ} {stage : Stage} (h : Awaited e op s k stage)
    (stage' : Stage) : Awaited (withStage e k ⟨op, s, stage⟩ stage') op s k stage' :=
  ⟨List.getElem?_set_self (List.getElem?_eq_some_iff.mp h.call).1, h.isOpen⟩

lemma Awaited.returns {op : Op} {k : ℕ} (h : Awaited e op s k (.granted (e.servers s).epoch)) :
    ∃ e' v, Quiet app e e' ∧ e'.history = e.history ++ [.ret (op.clientId, op.seqNum) v] := by
  obtain ⟨v, hv⟩ : ∃ v, (e.servers s).kv.reply op = ⟨.ok, v⟩ := by
    unfold KVServer.reply
    split <;> exact ⟨_, rfl⟩
  set stage := Stage.replied ⟨.ok, v⟩ (e.servers s).applied
  have hanswer : app e (.answer k) = some (withStage e k
      ⟨op, s, .granted (e.servers s).epoch⟩ stage, none) :=
    app_quiet (by simp [App.step, h.call, hv, stage, guard])
  have h₁ := h.setStage stage
  set e₁ := withStage e k ⟨op, s, .granted (e.servers s).epoch⟩ stage with he₁
  obtain ⟨a, ha⟩ : ∃ a, e₁.toApp.step (.return k) =
      some (a, .returned op v (e.servers s).applied) := by
    simp [App.step, h₁.call, stage, h₁.isOpen, guard]
  have hreturn := app_eq_some_iff.mpr ⟨a, _, ha, rfl, rfl⟩
  exact ⟨_, v, .tail (.single ⟨_, hanswer⟩) ⟨_, hreturn⟩, rfl⟩

lemma Awaited.handled {op : Op} {k : ℕ} (h : Awaited e op s k .sent) :
    ∃ e', e'.history = e.history ∧
      (app e (.handle k true) = some (e', none) ∧
          Awaited e' op s k (.granted (e'.servers s).epoch) ∨
        app e (.handle k true) = some (e', some (.start s op true)) ∧
          Awaited e' op s k (.waiting (e'.servers s).epoch)) := by
  set kv := (e.servers s).kv.getClientStatus op.clientId with hkv
  set e₁ := withServer e s { e.servers s with kv := kv } with he₁
  have halike : Alike e e₁ := alike_setServer rfl
  have h₁ : Awaited e₁ op s k .sent := h.alike halike
  have hepoch := halike.epoch s
  have hhandle : e.toApp.step (.handle k true) = some (e.toApp.handle k ⟨op, s, .sent⟩ true) := by
    simp [App.step, h.call, guard]
  by_cases hdone : kv.done op.clientId op.seqNum
  · have hop : (e.servers s).kv.operate op true = (kv, .done) := if_pos hdone
    refine ⟨withStage e₁ k ⟨op, s, .sent⟩ (.granted (e.servers s).epoch), rfl,
      Or.inl ⟨app_quiet (hhandle.trans ?_), ?_⟩⟩
    · simp only [App.handle, hop]
      rfl
    · rw [← hepoch]
      exact h₁.setStage _
  · have hop : (e.servers s).kv.operate op true = (kv, .started) :=
      (if_neg hdone).trans (if_pos rfl)
    refine ⟨withStage e₁ k ⟨op, s, .sent⟩ (.waiting (e.servers s).epoch), rfl,
      Or.inr ⟨app_label (hhandle.trans ?_), ?_⟩⟩
    · simp only [App.handle, hop]
      rfl
    · rw [← hepoch]
      exact h₁.setStage _

lemma Awaited.wakes {op : Op} {k : ℕ} (h : Awaited e op s k (.waiting (e.servers s).epoch))
    (hdone : (e.servers s).kv.done op.clientId op.seqNum) :
    ∃ e' v, Quiet app e e' ∧ e'.history = e.history ++ [.ret (op.clientId, op.seqNum) v] := by
  have hwake : app e (.wake k) = some (withStage e k ⟨op, s, .waiting (e.servers s).epoch⟩
      (.granted (e.servers s).epoch), none) :=
    app_quiet (by simp [App.step, h.call, hdone, guard])
  obtain ⟨e', v, hq, hhist⟩ := (h.setStage (.granted (e.servers s).epoch)).returns
  exact ⟨e', v, hq.head ⟨_, hwake⟩, hhist⟩

lemma exists_sent {op : Op} (hop : op ∈ (e.clerks op.clientId).open_) (s : Fin n) :
    ∃ e' k, Quiet app e e' ∧ e'.history = e.history ∧ Awaited e' op s k .sent ∧
      ∀ y : Service n Op, Fits y e → Fits y e' := by
  obtain ⟨j, hj⟩ := List.getElem?_of_mem hop
  have hb : app e (.send op.clientId j s) =
      some ({ e with calls := e.calls ++ [⟨op, s, .sent⟩] }, none) :=
    app_quiet (by simp [App.step, hj])
  refine ⟨_, e.calls.length, .single ⟨_, hb⟩, rfl, ⟨?_, hop⟩, fun y h => h.right hb⟩
  rw [List.getElem?_append_right le_rfl, Nat.sub_self]
  rfl

/-! ### Progress -/

/-- **Every operation can return.** From whatever state a run of the key/value service on its Raft
cluster has come to, with any operation that a clerk waits for, the service can go on without a
crash, a lost call or a snapshot such that this operation returns, and nothing else happens between
the clerks and the service. -/
theorem kvraft_progress [Coded (Persisted n Op)] [Inhabited Op] [Coded (List Op)] (hn : 2 ≤ n)
    (w : Port n Op × Front n) (hr : Reaches (joint raft app) (Port.init, Front.init) w) (op : Op)
    (hop : op ∈ (w.2.clerks op.clientId).open_) :
    ∃ w' v, Continues app w w' ∧
      w'.2.history = w.2.history ++ [.ret (op.clientId, op.seqNum) v] := by
  obtain ⟨x, e⟩ := w
  obtain ⟨y, history, hy, hm, hx⟩ := reaches_system (K := False) (hr.mono fun w act _ => by
    cases act with
    | left a => trivial
    | right b => exact fun h => h.elim
    | both a b => exact fun h => h.elim)
  have hfits : Fits y e := ⟨history, hm, hx.inv inv_init fun _ _ _ hi _ hs => hi.step hs⟩
  obtain ⟨c, hlink⟩ := refines_iff.mp hy
  -- a leader, and a call that it handles
  obtain ⟨x₁, c₁, i, Q, hrun₁, hlink₁, hQ, hiQ, hleads⟩ := exists_leader hn hlink app e
  obtain ⟨e₁, k, hq₁, hhist₁, hpend₁, hfits₁⟩ := exists_sent hop i
  have hrun₁ : Continues app (x, e) (x₁, e₁) := hrun₁.trans (hq₁.beside raft _ x₁)
  obtain ⟨e₂, hhist₂, ⟨hb, hpend₂⟩ | ⟨hb, hpend₂⟩⟩ := hpend₁.handled
  · obtain ⟨e', v, hq, hhist⟩ := hpend₂.returns
    exact ⟨(x₁, e'), v, hrun₁.trans ((Quiet.beside (hq.head ⟨_, hb⟩)) raft _ x₁),
      by rw [hhist, hhist₂, hhist₁]⟩
  obtain ⟨a₁, hsim₁⟩ := Linked.mirrored hlink₁
  obtain ⟨c₂, hstart, -⟩ := hsim₁.start (j := i) op
  obtain ⟨x₂, y₂, hraft, hlink₂, hans⟩ := Linked.exists_start hlink₁ hleads.role hstart
  have hrun₂ : Continues app (x, e) (x₂, e₂) := hrun₁.tail
    ⟨.both (.start i op, []) (.handle k true), trivial, joint_eq_some_iff.mpr (.both hraft hb)⟩
  have hfits₂ : Fits y₂ e₂ := by
    cases hans with
    | label hq hd => exact ((hfits₁ y hfits).left hq).both hd hb
  -- the operation comes to its applier
  obtain ⟨x₃, y₃, c₃, e₃, hrun₃, hlink₃, hfits₃, halike₃, hmem⟩ := receptive.served hn
    (Linked.mirrored hlink₁) hQ hiQ hleads hstart hlink₂ hfits₂
  obtain ⟨e₄, hq₄, hidle, hfits₄, halike₄⟩ := idle_quiet hfits₃ i
  have halike := halike₃.trans halike₄
  have hpend₄ := hpend₂.alike halike
  rw [← halike.epoch i] at hpend₄
  obtain ⟨e', v, hq, hhist⟩ := hpend₄.wakes (done_of_mem hfits₄ hidle hmem)
  refine ⟨(x₃, e'), v, hrun₂.trans (hrun₃.trans (Quiet.beside (hq₄.trans hq) raft _ x₃)), ?_⟩
  rw [hhist, halike.history, hhist₂, hhist₁]

end

theorem kvraft_progress_served : ∃ (w w' : Port 2 Op × Front 2) (op : Op) (v : GoString),
    w.2.history = [.inv (1, 1) ⟨.put, [97], [120], 1, 1⟩, .ret (1, 1) [],
      .inv (2, 1) ⟨.get, [97], [], 1, 2⟩, .ret (2, 1) [120], .inv (3, op.seqNum) op] ∧
    Continues app w w' ∧ w'.2.history = w.2.history ++ [.ret (3, op.seqNum) v] := by
  obtain ⟨⟨x, e⟩, hr, hw⟩ := exists_served
  set op := (e.clerks 3).next 3 .get [97] [] with hop
  obtain ⟨e₁, hinv⟩ : ∃ e₁, app e (.invoke 3 .get [97] []) = some (e₁, none) := ⟨_, rfl⟩
  have hstep : joint raft app (x, e) (.right (.invoke 3 .get [97] [])) = some (x, e₁) :=
    joint_eq_some_iff.mpr (.right hinv)
  cases hinv
  have hmem : op ∈ (update e.clerks 3 ⟨(e.clerks 3).seqNum + 1,
      (e.clerks 3).open_ ++ [op]⟩ op.clientId).open_ := by
    rw [show op.clientId = 3 from rfl, update_self]
    exact List.mem_append_right _ (List.mem_singleton_self op)
  obtain ⟨w', v, hc, hhist⟩ := kvraft_progress le_rfl _
    ((hr.mono fun _ _ _ => trivial).tail ⟨_, trivial, hstep⟩) op hmem
  refine ⟨_, w', op, v, ?_, hc, hhist⟩
  show e.history ++ _ = _
  rw [hw]
  rfl

end Mit6824.KvProgress
