import Mit6824.KvReplay
import Mit6824.KvSystem

/-!
What holds of the servers of a key/value service in every run.

The store of a server is the one of the prefix of the log it has applied, and no number is above
the mark of that prefix, also while the applier is between the store and the numbers. A call is
answered from a prefix that has its operation or a later one of its client.
-/

namespace Mit6824.KvSteps

open Mit6824.GoData Mit6824.Labgob Mit6824.Sessions Mit6824.KvServer Mit6824.KvReplay
open Mit6824.KvSystem Mit6824.Runs Function

variable {n : ℕ} {log : List Op}

/-- The numbers of a server in each phase of its applier. -/
def PhaseOk (log : List Op) (sv : Server) : Prop :=
  match sv.phase with
  | .idle => ∀ c, mark sv.kv.clientsStatus c = high (log.take sv.applied) c
  | .noting op => ∃ a, sv.applied = a + 1 ∧ log[a]? = some op ∧ Fresh (log.take a) op ∧
      ∀ c, mark sv.kv.clientsStatus c = high (log.take a) c
  | .restoring rest => ∀ c,
      (∀ v, rest.lookup c = some v → v = high (log.take sv.applied) c) ∧
      (c ∉ rest → mark sv.kv.clientsStatus c = high (log.take sv.applied) c)

structure ServerOk (log : List Op) (sv : Server) : Prop where
  le : sv.applied ≤ log.length
  store : sv.kv.store = storeOf (log.take sv.applied)
  mark_le : ∀ c, mark sv.kv.clientsStatus c ≤ high (log.take sv.applied) c
  phase : PhaseOk log sv

/-- A snapshot of a prefix of the log. -/
def SnapOk [Coded (ℕ × Data × GoMap ℕ ℕ)] (log : List Op) (sn : ℕ × Bytes) : Prop :=
  sn.1 ≤ log.length ∧ ∃ kv : KVServer, sn.2 = kv.snapshot sn.1 ∧ Holds (log.take sn.1) kv

/-- The value is what the operation gets after a prefix of the log that has it, or a later
operation of its client. -/
structure Answered (log : List Op) (op : Op) (value : GoString) (place : ℕ) : Prop where
  le : place ≤ log.length
  done : op.seqNum ≤ high (log.take place) op.clientId
  value : value = (KVServer.reply ⟨storeOf (log.take place), ∅⟩ op).value

def CallOk (log : List Op) (sv : Server) (call : Call n) : Prop :=
  match call.stage with
  | .sent => True
  | .waiting e => e ≤ sv.epoch
  | .granted e => e ≤ sv.epoch ∧
      (e = sv.epoch → call.op.seqNum ≤ high (log.take sv.applied) call.op.clientId)
  | .replied r place => r.err = .ok → Answered log call.op r.value place

/-! ### A longer log -/

lemma ServerOk.grow {sv : Server} (h : ServerOk log sv) (rest : List Op) :
    ServerOk (log ++ rest) sv := by
  have htake : (log ++ rest).take sv.applied = log.take sv.applied :=
    List.take_append_of_le_length h.le
  refine ⟨h.le.trans (by simp), by rw [htake]; exact h.store, by rw [htake]; exact h.mark_le, ?_⟩
  have hp := h.phase
  unfold PhaseOk at hp ⊢
  split at hp
  · rw [htake]; exact hp
  · obtain ⟨a, ha, hop, hf, hm⟩ := hp
    have hlt : a < log.length := (List.getElem?_eq_some_iff.mp hop).1
    have htake : (log ++ rest).take a = log.take a := List.take_append_of_le_length hlt.le
    rw [← htake] at hf hm
    exact ⟨a, ha, by rw [List.getElem?_append_left hlt]; exact hop, hf, hm⟩
  · rw [htake]; exact hp

lemma SnapOk.grow [Coded (ℕ × Data × GoMap ℕ ℕ)] {sn : ℕ × Bytes} (h : SnapOk log sn)
    (rest : List Op) : SnapOk (log ++ rest) sn := by
  obtain ⟨hle, kv, hsn, hkv⟩ := h
  exact ⟨hle.trans (by simp), kv, hsn, by rwa [List.take_append_of_le_length hle]⟩

lemma Answered.grow {op : Op} {value : GoString} {place : ℕ} (h : Answered log op value place)
    (rest : List Op) : Answered (log ++ rest) op value place := by
  have htake : (log ++ rest).take place = log.take place := List.take_append_of_le_length h.le
  exact ⟨h.le.trans (by simp), by rw [htake]; exact h.done, by rw [htake]; exact h.value⟩

lemma CallOk.grow {sv : Server} {call : Call n} (h : CallOk log sv call)
    (hsv : sv.applied ≤ log.length) (rest : List Op) : CallOk (log ++ rest) sv call := by
  unfold CallOk at h ⊢
  split at h
  · trivial
  · exact h
  · rwa [List.take_append_of_le_length hsv]
  · exact fun hok => (h hok).grow rest

/-! ### Servers -/

lemma serverOk_boot (log : List Op) (epoch : ℕ) : ServerOk log (.boot epoch) :=
  ⟨Nat.zero_le _, rfl, fun _ => le_rfl, fun _ => rfl⟩

lemma ServerOk.getClientStatus {sv : Server} (h : ServerOk log sv) (c : ℕ) :
    ServerOk log { sv with kv := sv.kv.getClientStatus c } := by
  have hm : ∀ c', mark (sv.kv.getClientStatus c).clientsStatus c' =
      mark sv.kv.clientsStatus c' := fun c' => mark_touch _ _ _
  refine ⟨h.le, h.store, fun c' => by rw [hm]; exact h.mark_le c', ?_⟩
  have hp := h.phase
  unfold PhaseOk at hp ⊢
  dsimp only
  split
  · next hph => rw [hph] at hp; exact fun c' => by rw [hm]; exact hp c'
  · next op hph =>
    rw [hph] at hp
    obtain ⟨a, ha, hop, hf, hmark⟩ := hp
    exact ⟨a, ha, hop, hf, fun c' => by rw [hm]; exact hmark c'⟩
  · next rest hph =>
    rw [hph] at hp
    exact fun c' => ⟨(hp c').1, fun hc => by rw [hm]; exact (hp c').2 hc⟩

lemma ServerOk.holds {sv : Server} (h : ServerOk log sv) (hidle : sv.phase = .idle) :
    Holds (log.take sv.applied) sv.kv := by
  have hp := h.phase
  unfold PhaseOk at hp
  rw [hidle] at hp
  exact ⟨h.store, hp⟩

lemma ServerOk.le_high_of_done {sv : Server} (h : ServerOk log sv) {c m : ℕ}
    (hd : sv.kv.done c m) : m ≤ high (log.take sv.applied) c := le_trans hd (h.mark_le c)

/-- The first half of `applyOp`. -/
lemma ServerOk.apply {sv : Server} (h : ServerOk log sv) (hidle : sv.phase = .idle) {op : Op}
    (hop : log[sv.applied]? = some op) : ServerOk log (sv.apply op (sv.applied + 1)) := by
  have hkv := (h.holds hidle).getClientStatus op.clientId
  have hle : sv.applied + 1 ≤ log.length := (List.getElem?_eq_some_iff.mp hop).1
  have htake := take_succ_of_getElem? hop
  unfold Server.apply
  dsimp only
  split
  · next hdone =>
    have hnext := hkv.applyOp op
    rw [← htake] at hnext
    have heq : (sv.kv.getClientStatus op.clientId).applyOp op =
        (sv.kv.getClientStatus op.clientId).getClientStatus op.clientId := by
      unfold KVServer.applyOp
      dsimp only
      rw [if_pos ((((hkv.getClientStatus _).done_iff op).trans (hkv.done_iff op).symm).mpr hdone)]
    have hm : ∀ c, mark (sv.kv.getClientStatus op.clientId).clientsStatus c =
        high (log.take (sv.applied + 1)) c := by
      intro c
      rw [← hnext.mark, heq]
      exact (mark_touch _ _ _).symm
    refine ⟨hle, ?_, fun c => (hm c).le, ?_⟩
    · rw [← hnext.store, heq]
      rfl
    · unfold PhaseOk
      dsimp only
      rw [hidle]
      exact hm
  · next hdone =>
    have hf : Fresh (log.take sv.applied) op :=
      not_not.mp fun hn => hdone ((hkv.done_iff op).mpr hn)
    refine ⟨hle, ?_, fun c => ?_, ?_⟩
    · show exec (sv.kv.getClientStatus op.clientId).store op = _
      rw [htake, storeOf_snoc, if_pos hf, hkv.store]
    · exact (hkv.mark c).le.trans (high_take_mono _ (Nat.le_succ _) c)
    · exact ⟨sv.applied, rfl, hop, hf, hkv.mark⟩

/-- The second half of `applyOp`. -/
lemma ServerOk.note {sv : Server} (h : ServerOk log sv) {op : Op} (hph : sv.phase = .noting op) :
    ServerOk log (sv.note op) := by
  have hp := h.phase
  unfold PhaseOk at hp
  rw [hph] at hp
  obtain ⟨a, ha, hop, hf, hmark⟩ := hp
  have hm : ∀ c, mark (sv.kv.updateSeqNum op.clientId op.seqNum).clientsStatus c =
      high (log.take sv.applied) c := by
    intro c
    rw [ha, take_succ_of_getElem? hop, hf.high_snoc, KVServer.updateSeqNum, mark_insert, hmark,
      client_eq, seq_eq]
  exact ⟨h.le, h.store, fun c => (hm c).le, hm⟩

/-- The store of a snapshot of a longer prefix. A client that the snapshot does not have has no
number in the prefix, and so none at the server. -/
lemma ServerOk.install {sv : Server} (h : ServerOk log sv) {index : ℕ} {kv : KVServer}
    (hlt : sv.applied < index) (hle : index ≤ log.length) (hkv : Holds (log.take index) kv) :
    ServerOk log (sv.install index kv.store kv.clientsStatus) := by
  have hmono : ∀ c, mark sv.kv.clientsStatus c ≤ high (log.take index) c :=
    fun c => (h.mark_le c).trans (high_take_mono _ hlt.le c)
  refine ⟨hle, hkv.store, hmono, fun c => ⟨fun v hv => ?_, fun hc => ?_⟩⟩
  · show v = high (log.take index) c
    rw [← hkv.mark, mark, hv]
    rfl
  · have h0 := hmono c
    rw [← hkv.mark, mark_of_notMem hc] at h0
    show mark sv.kv.clientsStatus c = high (log.take index) c
    rw [← hkv.mark, mark_of_notMem hc]
    omega

lemma ServerOk.restore {sv : Server} (h : ServerOk log sv) {rest : GoMap ℕ ℕ} {c v : ℕ}
    (hph : sv.phase = .restoring rest) (hv : rest.lookup c = some v) :
    ServerOk log (sv.restore rest c v) := by
  have hp := h.phase
  unfold PhaseOk at hp
  rw [hph] at hp
  have hcv := (hp c).1 v hv
  refine ⟨h.le, h.store, fun c' => ?_, fun c' => ⟨fun v' hv' => ?_, fun hc' => ?_⟩⟩
  · show mark (Finmap.insert c v _) c' ≤ high (log.take sv.applied) c'
    rw [mark_insert]
    split
    · next hc => rw [hc, hcv]
    · exact h.mark_le c'
  · by_cases hc : c' = c
    · subst hc
      rw [Finmap.lookup_erase] at hv'
      cases hv'
    · rw [Finmap.lookup_erase_ne hc] at hv'
      exact (hp c').1 v' hv'
  · show mark (Finmap.insert c v _) c' = high (log.take sv.applied) c'
    rw [mark_insert]
    split
    · next hc => rw [hc, hcv]
    · next hc => exact (hp c').2 fun hm => hc' (Finmap.mem_erase.mpr ⟨hc, hm⟩)

lemma ServerOk.restored {sv : Server} (h : ServerOk log sv) (hph : sv.phase = .restoring ∅) :
    ServerOk log { sv with phase := .idle } := by
  have hp := h.phase
  unfold PhaseOk at hp
  rw [hph] at hp
  exact ⟨h.le, h.store, h.mark_le, fun c => (hp c).2 Finmap.notMem_empty⟩

/-! ### Calls -/

/-- Within an epoch a server only applies more; a new epoch is higher. -/
def Advances (sv sv' : Server) : Prop :=
  sv.epoch < sv'.epoch ∨ (sv'.epoch = sv.epoch ∧ sv.applied ≤ sv'.applied)

lemma Advances.of_le {sv sv' : Server} (he : sv'.epoch = sv.epoch)
    (ha : sv.applied ≤ sv'.applied) : Advances sv sv' := Or.inr ⟨he, ha⟩

lemma CallOk.advance {sv sv' : Server} {call : Call n} (h : CallOk log sv call)
    (hsv : Advances sv sv') : CallOk log sv' call := by
  unfold CallOk at h ⊢
  split at h
  · trivial
  · rcases hsv with hlt | ⟨he, -⟩ <;> omega
  · next e _ =>
    obtain ⟨hle, hd⟩ := h
    rcases hsv with hlt | ⟨he, ha⟩
    · exact ⟨by omega, fun heq => by omega⟩
    · refine ⟨by omega, fun heq => ?_⟩
      exact (hd (by omega)).trans (high_take_mono _ ha _)
  · exact h

variable [Coded (ℕ × Data × GoMap ℕ ℕ)]

/-- What holds in every run, whatever the clerks do. -/
structure Inv (x : System n) : Prop where
  server : ∀ s, ServerOk x.log (x.servers s)
  snap : ∀ sn ∈ x.snapshots, SnapOk x.log sn
  call : ∀ call ∈ x.calls, CallOk x.log (x.servers call.server) call

lemma inv_init : Inv (System.init : System n) :=
  ⟨fun _ => serverOk_boot _ _, fun _ h => absurd h List.not_mem_nil,
    fun _ h => absurd h List.not_mem_nil⟩

variable {x : System n}

lemma Inv.setServer (h : Inv x) {s : Fin n} {sv : Server} (hsv : ServerOk x.log sv)
    (hadv : Advances (x.servers s) sv) : Inv (x.setServer s sv) := by
  refine ⟨fun i => ?_, h.snap, fun call hc => ?_⟩
  · show ServerOk x.log (update x.servers s sv i)
    by_cases hi : i = s
    · subst hi; rwa [update_self]
    · rw [update_of_ne hi]; exact h.server i
  · have hcall := h.call call hc
    show CallOk x.log (update x.servers s sv call.server) call
    by_cases hi : call.server = s
    · rw [hi, update_self]
      rw [hi] at hcall
      exact hcall.advance hadv
    · rwa [update_of_ne hi]

lemma Inv.setStage (h : Inv x) {k : ℕ} {call : Call n} {stage : Stage}
    (hcall : CallOk x.log (x.servers call.server) { call with stage := stage }) :
    Inv (x.setStage k call stage) := by
  refine ⟨h.server, h.snap, fun c hc => ?_⟩
  rcases List.mem_or_eq_of_mem_set hc with hc' | rfl
  · exact h.call c hc'
  · exact hcall

lemma Inv.of_eq {y : System n} (h : Inv x) (hlog : y.log = x.log)
    (hsnap : y.snapshots = x.snapshots) (hsv : y.servers = x.servers) (hcalls : y.calls = x.calls) :
    Inv y :=
  ⟨by rw [hlog, hsv]; exact h.server, by rw [hlog, hsnap]; exact h.snap,
    by rw [hlog, hsv, hcalls]; exact h.call⟩

lemma Inv.visit (h : Inv x) (call : Call n) : Inv { x with toApp := x.toApp.visit call } :=
  h.setServer ((h.server call.server).getClientStatus _) (.of_le rfl le_rfl)

omit [Coded (ℕ × Data × GoMap ℕ ℕ)] in
lemma epoch_visit (e : App n) (call : Call n) :
    ((e.visit call).servers call.server).epoch = (e.servers call.server).epoch := by
  show (update e.servers call.server _ call.server).epoch = _
  rw [update_self]

lemma Inv.answered (h : Inv x) {call : Call n} {value : GoString} {place : ℕ}
    (hc : call ∈ x.calls) (hst : call.stage = .replied ⟨.ok, value⟩ place) :
    Answered x.log call.op value place := by
  have hcall := h.call call hc
  unfold CallOk at hcall
  rw [hst] at hcall
  exact hcall rfl

lemma Inv.act {a : Act n} {e : App n} {seen : Sight n} (h : Inv x) (ha : App.Acts x.toApp a e seen)
    (hp : x.Provides seen) : Inv (x.after e seen) := by
  cases ha with
  | invoke c type key value => exact h.of_eq rfl rfl rfl rfl
  | send hop =>
    refine ⟨h.server, h.snap, fun call hc => ?_⟩
    rcases List.mem_append.mp hc with hc' | hc'
    · exact h.call call hc'
    · obtain rfl := List.mem_singleton.mp hc'
      trivial
  | @done k isLeader call hcall hdone =>
    have hsv := (h.visit call).server call.server
    exact (h.visit call).setStage ⟨(epoch_visit _ call).ge, fun _ => hsv.le_high_of_done hdone⟩
  | @started k call hcall =>
    have hok : CallOk x.log ((x.toApp.visit call).servers call.server)
        { call with stage := .waiting (x.servers call.server).epoch } := (epoch_visit _ call).ge
    exact ((h.visit call).setStage (k := k) hok).of_eq rfl rfl rfl rfl
  | @refused k call hcall => exact (h.visit call).setStage fun hok => by cases hok
  | @wake k call hcall hdone =>
    exact h.setStage ⟨le_rfl, fun _ => (h.server call.server).le_high_of_done hdone⟩
  | @answer k call hcall hstage =>
    have hok := h.call call (List.mem_of_getElem? hcall)
    have hsv := h.server call.server
    unfold CallOk at hok
    rw [hstage] at hok
    refine h.setStage fun _ => ⟨hsv.le, hok.2 rfl, ?_⟩
    unfold KVServer.reply
    rw [← hsv.store]
  | «return» hcall hstage hopen => exact h.of_eq rfl rfl rfl rfl
  | @apply s op index hphase =>
    obtain ⟨hop, rfl⟩ := hp
    refine h.setServer ((h.server s).apply hphase hop) ?_
    unfold Server.apply
    dsimp only
    split <;> exact .of_le rfl (Nat.le_succ _)
  | @note s op hphase => exact h.setServer ((h.server s).note hphase) (.of_le rfl le_rfl)
  | @snapshot s hphase =>
    refine ⟨h.server, fun sn hsn => ?_, h.call⟩
    rcases List.mem_append.mp hsn with hsn' | hsn'
    · exact h.snap sn hsn'
    · obtain rfl := List.mem_singleton.mp hsn'
      exact ⟨(h.server s).le, _, rfl, (h.server s).holds hphase⟩
  | @install s index bytes data map hdecode =>
    obtain ⟨hsnap, hlt⟩ := hp
    obtain ⟨hle, kv, hbytes, hkv⟩ := h.snap _ hsnap
    dsimp only at hle hbytes hkv
    rw [hbytes, decodeSnap_snapshot] at hdecode
    obtain ⟨rfl, rfl⟩ := Prod.mk.inj (Except.ok.inj hdecode)
    exact h.setServer ((h.server s).install hlt hle hkv) (.of_le rfl hlt.le)
  | @restore s c seqNum rest hphase hrest =>
    exact h.setServer ((h.server s).restore hphase hrest) (.of_le rfl le_rfl)
  | @restored s hphase => exact h.setServer ((h.server s).restored hphase) (.of_le rfl le_rfl)
  | restart s => exact h.setServer (serverOk_boot _ _) (Or.inl (Nat.lt_succ_self _))

/-- **One action.** -/
theorem Inv.step {x' : System n} {act : Action n} (h : Inv x)
    (hs : KvSystem.step x act = some x') : Inv x' := by
  cases act with
  | commit i =>
    obtain ⟨op, -, rfl⟩ := step_commit_iff.mp hs
    exact ⟨fun s => (h.server s).grow _, fun sn hsn => (h.snap sn hsn).grow _,
      fun call hc => (h.call call hc).grow (h.server _).le _⟩
  | act a =>
    obtain ⟨e, seen, ha, hp, rfl⟩ := step_act_iff.mp hs
    exact h.act (App.acts_of_step ha) hp

end Mit6824.KvSteps
