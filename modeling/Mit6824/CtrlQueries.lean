import Mit6824.CtrlReplay
import Mit6824.CtrlSystem

/-!
What the clerks of the controller are told.

A server answers a `Query` from the configurations it has by then. These are those of a prefix of
the log that has a command of the same clerk with this number or a higher one; all of its numbers
that were in the log when the `Query` was invoked are lower. So the prefix goes beyond that place.
-/

namespace Mit6824.CtrlQueries

open Mit6824.GoData Mit6824.MapOrder Mit6824.CtrlConfig Mit6824.CtrlServer Mit6824.CtrlHistory
open Mit6824.CtrlReplay Mit6824.CtrlSystem Mit6824.Sessions Mit6824.Runs Function
open Mit6824.ShardServer (NShards Shard)

/-! ### Answers -/

def Picked (num : ℤ) (h : List Config) (c : Config) : Prop :=
  if 0 ≤ num ∧ num < h.length then h[num.toNat]? = some c else h.getLast? = some c

lemma picked_of_getConfig {sc : ShardCtrler} {num : ℤ} {e : Entry}
    (h : sc.getConfig num = some e) : Picked num (configsOf sc) (sc.read e) := by
  unfold ShardCtrler.getConfig at h
  unfold Picked configsOf
  rw [List.length_map]
  split
  · next hin =>
    rw [if_pos hin] at h
    rw [List.getElem?_map, h]
    rfl
  · next hout =>
    rw [if_neg hout] at h
    rw [List.getLast?_map, h]
    rfl

def DoneBy (log : List Op) (op : Op) (place : ℕ) : Prop :=
  place ≤ log.length ∧ op.seqNum ≤ high (log.take place) op.clientId

/-- The configuration is the answer to a `Query` from the configurations of a prefix. -/
def Answers (log : List Op) (op : Op) (c : Config) (place : ℕ) : Prop :=
  DoneBy log op place ∧ ∃ num h, op.command = .query num ∧ After (log.take place) h ∧
    Picked num h c

def ReplyOk (log : List Op) (op : Op) (place : ℕ) : Reply → Prop
  | .wrongLeader => True
  | .ok => op.isChange ∧ DoneBy log op place
  | .config c => Answers log op c place

section

variable {log : List Op} {op : Op} {place : ℕ}

lemma DoneBy.grow (h : DoneBy log op place) (l : List Op) : DoneBy (log ++ l) op place := by
  refine ⟨h.1.trans (by simp), ?_⟩
  rw [List.take_append_of_le_length h.1]
  exact h.2

lemma Answers.grow {c : Config} (h : Answers log op c place) (l : List Op) :
    Answers (log ++ l) op c place := by
  refine ⟨h.1.grow l, ?_⟩
  rw [List.take_append_of_le_length h.1.1]
  exact h.2

lemma ReplyOk.grow {reply : Reply} (h : ReplyOk log op place reply) (l : List Op) :
    ReplyOk (log ++ l) op place reply := by
  cases reply with
  | wrongLeader => trivial
  | ok => exact ⟨h.1, h.2.grow l⟩
  | config c => exact Answers.grow h l

lemma ReplyOk.doneBy {reply : Reply} (h : ReplyOk log op place reply)
    (hreply : reply ≠ .wrongLeader) : DoneBy log op place := by
  cases reply with
  | wrongLeader => exact absurd rfl hreply
  | ok => exact h.2
  | config c => exact h.1

end

/-! ### Servers -/

/-- The numbers of a server are those of its commands, up to the one that is to be noted. -/
def Marked (p : List Op) (sv : Server) : Prop :=
  match sv.phase with
  | .noting op => ∃ q, p = q ++ [op] ∧ Fresh q op ∧ ∀ c, mark sv.sc.clientsStatus c = high q c
  | _ => ∀ c, mark sv.sc.clientsStatus c = high p c

/-- The server has the configurations of the commands that it has executed. -/
structure ServerOk (log : List Op) (sv : Server) : Prop where
  le : sv.applied ≤ log.length
  after : After (log.take sv.applied) (configsOf sv.sc)
  stored : Stored sv.sc
  marked : Marked (log.take sv.applied) sv

section

variable {log : List Op} {sv sv' : Server} {op : Op}

lemma serverOk_boot (log : List Op) (epoch : ℕ) : ServerOk log (.boot epoch) where
  le := Nat.zero_le _
  after := .nil
  stored := stored_boot
  marked := fun _ => rfl

lemma ServerOk.grow (h : ServerOk log sv) (l : List Op) : ServerOk (log ++ l) sv := by
  have htake : (log ++ l).take sv.applied = log.take sv.applied :=
    List.take_append_of_le_length h.le
  exact ⟨h.le.trans (by simp), htake ▸ h.after, h.stored, htake ▸ h.marked⟩

lemma ServerOk.mark_le (h : ServerOk log sv) (c : ℕ) :
    mark sv.sc.clientsStatus c ≤ high (log.take sv.applied) c := by
  have hm := h.marked
  unfold Marked at hm
  split at hm
  · obtain ⟨q, hq, -, hmark⟩ := hm
    rw [hmark, hq]
    exact high_le_append q _ c
  · exact (hm c).le

lemma ServerOk.doneBy (h : ServerOk log sv) (hdone : sv.sc.done op.clientId op.seqNum) :
    DoneBy log op sv.applied :=
  ⟨h.le, le_trans hdone (h.mark_le _)⟩

lemma ServerOk.touch (h : ServerOk log sv) (c : ℕ) :
    ServerOk log { sv with sc := sv.sc.getClientStatus c } := by
  refine ⟨h.le, h.after, h.stored.touch c, ?_⟩
  have hm := h.marked
  have hmark : ∀ c', mark (sv.sc.getClientStatus c).clientsStatus c' =
      mark sv.sc.clientsStatus c' := fun c' => mark_touch _ _ _
  unfold Marked at hm ⊢
  dsimp only
  split at hm
  · obtain ⟨q, hq, hfresh, hm⟩ := hm
    exact ⟨q, hq, hfresh, fun c' => (hmark c').trans (hm c')⟩
  · exact fun c' => (hmark c').trans (hm c')

lemma viewed_of_execute {p : List Op} {sc sc' : ShardCtrler} {passes : ℕ} {orders : ℕ → Order Gid}
    (hst : Stored sc) (hfresh : Fresh p op)
    (hexec : (sc.execute passes op).outcome orders = .ok sc') :
    Viewed p (configsOf sc) op (configsOf sc') ∧ Stored sc' ∧ sc'.clientsStatus = sc.clientsStatus ∧
      sc.maps <+: sc'.maps := by
  unfold ShardCtrler.execute at hexec
  split at hexec
  · next ch hop =>
    obtain ⟨e, he, hlast⟩ := hst.latest
    rw [applyChange_outcome he] at hexec
    cases hout : (nextConfig passes ch (sc.read e)).outcome orders with
    | error s =>
      rw [hout] at hexec
      cases hexec
    | ok c =>
      rw [hout] at hexec
      obtain rfl := Except.ok.inj hexec
      refine ⟨?_, hst.published ch e c, ?_⟩
      · rw [configsOf_published hst]
        exact .change hfresh hop hlast hout
      · obtain ⟨l, hl⟩ := published_spec sc ch e c
        rw [hl]
        exact ⟨rfl, by simp [List.append_assoc]⟩
  · next num hop =>
    obtain rfl := Except.ok.inj hexec
    exact ⟨.query hfresh hop, hst, rfl, List.prefix_rfl⟩

def Forth (sv sv' : Server) : Prop :=
  sv.epoch < sv'.epoch ∨
    (sv.epoch = sv'.epoch ∧ sv.applied ≤ sv'.applied ∧ sv.sc.maps <+: sv'.sc.maps)

lemma Forth.refl (sv : Server) : Forth sv sv := Or.inr ⟨rfl, le_rfl, List.prefix_rfl⟩

lemma ServerOk.apply {passes : ℕ} {orders : ℕ → Order Gid} (h : ServerOk log sv)
    (hphase : sv.phase = .idle) (hop : log[sv.applied]? = some op)
    (happly : sv.apply op passes orders = some sv') : ServerOk log sv' ∧ Forth sv sv' := by
  have hlt := (List.getElem?_eq_some_iff.mp hop).1
  have htake := take_succ_of_getElem? hop
  have hm := h.marked
  unfold Marked at hm
  rw [hphase] at hm
  have hmark : ∀ c, mark (sv.sc.getClientStatus op.clientId).clientsStatus c =
      high (log.take sv.applied) c := fun c => (mark_touch _ _ _).trans (hm c)
  unfold Server.apply at happly
  dsimp only at happly
  split at happly
  · next hdone =>
    have hdup := (done_iff hm op).mp hdone
    obtain rfl := Option.some.inj happly
    refine ⟨⟨hlt, ?_, h.stored.touch _, ?_⟩, Or.inr ⟨rfl, Nat.le_succ _, List.prefix_rfl⟩⟩
    · rw [htake]
      exact h.after.snoc (.dup hdup)
    · rw [htake]
      unfold Marked
      dsimp only
      rw [hphase]
      intro c
      rw [hmark, high_snoc_of_not_fresh hdup]
  · next hdone =>
    have hfresh : Fresh (log.take sv.applied) op :=
      not_not.mp fun hdup => hdone ((done_iff hm op).mpr hdup)
    split at happly
    · next sc' hexec =>
      obtain rfl := Option.some.inj happly
      obtain ⟨hv, hst, hstatus, hmaps⟩ :=
        viewed_of_execute (h.stored.touch op.clientId) hfresh hexec
      refine ⟨⟨hlt, ?_, hst, ?_⟩, Or.inr ⟨rfl, Nat.le_succ _, hmaps⟩⟩
      · rw [htake]
        exact h.after.snoc hv
      · rw [htake]
        exact ⟨_, rfl, hfresh, fun c => by rw [hstatus]; exact hmark c⟩
    · obtain rfl := Option.some.inj happly
      exact ⟨⟨h.le, h.after, h.stored.touch _, hmark⟩, Or.inr ⟨rfl, le_rfl, List.prefix_rfl⟩⟩
    · cases happly

lemma ServerOk.note (h : ServerOk log sv) (hphase : sv.phase = .noting op) :
    ServerOk log { sv with sc := sv.sc.updateSeqNum op.clientId op.seqNum, phase := .idle } := by
  refine ⟨h.le, h.after, h.stored.update _ _, fun c => ?_⟩
  have hm := h.marked
  unfold Marked at hm
  rw [hphase] at hm
  obtain ⟨q, hq, hfresh, hmark⟩ := hm
  show mark (sv.sc.updateSeqNum op.clientId op.seqNum).clientsStatus c =
    high (log.take sv.applied) c
  rw [hq]
  exact mark_updateSeqNum hmark hfresh c

end

/-! ### Calls -/

/-- What a call is sure of while its server runs. -/
def StageOk (log : List Op) (sv : Server) (op : Op) : Stage → Prop
  | .sent => True
  | .waiting _ => True
  | .granted epoch => epoch ≤ sv.epoch ∧ (epoch = sv.epoch → DoneBy log op sv.applied)
  | .holding epoch e place => epoch ≤ sv.epoch ∧ (epoch = sv.epoch →
      e.groups < sv.sc.maps.length ∧ Answers log op (sv.sc.read e) place)
  | .replied reply place => ReplyOk log op place reply

section

variable {log : List Op} {sv sv' : Server} {op : Op} {stage : Stage}

lemma StageOk.grow (h : StageOk log sv op stage) (l : List Op) :
    StageOk (log ++ l) sv op stage := by
  cases stage with
  | sent => trivial
  | waiting _ => trivial
  | granted epoch => exact ⟨h.1, fun he => (h.2 he).grow l⟩
  | holding epoch e place => exact ⟨h.1, fun he => ⟨(h.2 he).1, (h.2 he).2.grow l⟩⟩
  | replied reply place => exact ReplyOk.grow h l

/-- What a call has got, it keeps: the maps of the server stay. -/
lemma StageOk.forth (h : StageOk log sv op stage) (hf : Forth sv sv')
    (hle : sv'.applied ≤ log.length) : StageOk log sv' op stage := by
  have hep : sv.epoch ≤ sv'.epoch := by
    rcases hf with hlt | ⟨heq, -⟩
    · exact hlt.le
    · exact heq.le
  -- a call that belongs to this run of the server belonged to it before
  have hsame : ∀ epoch, epoch ≤ sv.epoch → epoch = sv'.epoch → epoch = sv.epoch ∧
      sv.applied ≤ sv'.applied ∧ sv.sc.maps <+: sv'.sc.maps := by
    intro epoch hle heq
    rcases hf with hlt | ⟨heq', hrest⟩
    · omega
    · exact ⟨by omega, hrest⟩
  cases stage with
  | sent => trivial
  | waiting _ => trivial
  | granted epoch =>
    refine ⟨h.1.trans hep, fun heq => ?_⟩
    obtain ⟨he, happlied, -⟩ := hsame epoch h.1 heq
    exact ⟨hle, (h.2 he).2.trans (high_take_mono _ happlied _)⟩
  | holding epoch e place =>
    refine ⟨h.1.trans hep, fun heq => ?_⟩
    obtain ⟨he, -, l, hl⟩ := hsame epoch h.1 heq
    obtain ⟨hlt, hans⟩ := h.2 he
    have hread : sv'.sc.read e = sv.sc.read e := by
      unfold ShardCtrler.read
      rw [← hl, List.getElem?_append_left hlt]
    refine ⟨by rw [← hl, List.length_append]; omega, hread ▸ hans⟩
  | replied reply place => exact h

end

/-! ### Runs -/

variable {n : ℕ} {x x' : System n}

/-- The operation is on its way to the log, or in it. -/
def Underway (x : System n) (op : Op) : Prop :=
  op ∈ x.log ∨ op ∈ x.started ∨ (∃ call ∈ x.calls, call.op = op) ∨ ∃ c, op ∈ (x.clerks c).open_

/-- What returned before an invocation was answered from what was in the log by then. -/
def InTime : Moment → Moment → Prop
  | .returned _ _ p, .invoked _ l => p ≤ l
  | _, _ => True

structure ServiceOk (x : System n) : Prop where
  servers : ∀ s, ServerOk x.log (x.servers s)
  stages : ∀ call ∈ x.calls, StageOk x.log (x.servers call.server) call.op call.stage

structure Traced (x : System n) : Prop where
  pending : ∀ op, Underway x op → ∃ l, .invoked op l ∈ x.history
  seq : ∀ op l, .invoked op l ∈ x.history →
    0 < op.seqNum ∧ op.seqNum ≤ (x.clerks op.clientId).seqNum
  place : ∀ op l, .invoked op l ∈ x.history → l ≤ x.log.length ∧
    ∀ op' ∈ x.log.take l, op'.clientId = op.clientId → op'.seqNum < op.seqNum
  returned : ∀ op reply p, .returned op reply p ∈ x.history →
    ReplyOk x.log op p reply ∧ reply ≠ .wrongLeader
  order : x.history.Pairwise InTime

lemma ServiceOk.setServer (h : ServiceOk x) {s : Fin n} {sv : Server} (hok : ServerOk x.log sv)
    (hf : Forth (x.servers s) sv) : ServiceOk (x.setServer s sv) := by
  have hservers : ∀ s', ServerOk x.log (update x.servers s sv s') := fun s' => by
    rw [update_apply]
    split
    · exact hok
    · exact h.servers s'
  refine ⟨hservers, fun call hc => (h.stages call hc).forth ?_ (hservers _).le⟩
  show Forth _ (update x.servers s sv call.server)
  rw [update_apply]
  split
  · next heq => exact heq ▸ hf
  · exact .refl _

lemma ServiceOk.setStage (h : ServiceOk x) {k : ℕ} {call : Call n} {stage : Stage}
    (hok : StageOk x.log (x.servers call.server) call.op stage) :
    ServiceOk (x.setStage k call stage) := by
  refine ⟨h.servers, fun call' hc => ?_⟩
  rcases List.mem_or_eq_of_mem_set hc with hc | rfl
  · exact h.stages call' hc
  · exact hok

lemma ServiceOk.start (h : ServiceOk x) (op : Op) :
    ServiceOk { x with started := x.started ++ [op] } :=
  ⟨h.servers, h.stages⟩

lemma ServiceOk.handle (h : ServiceOk x) {k : ℕ} {call : Call n} (isLeader : Bool) :
    ServiceOk (x.handle k call isLeader) := by
  have hsv := h.servers call.server
  have htouch := h.setServer (hsv.touch call.op.clientId)
    (Or.inr ⟨rfl, le_rfl, List.prefix_rfl⟩)
  unfold System.handle ShardCtrler.operate
  dsimp only
  split_ifs with hdone hleader
  · refine htouch.setStage ⟨?_, fun _ => ?_⟩
    · simp [System.setServer]
    · have hd := (hsv.touch call.op.clientId).doneBy hdone
      simpa [System.setServer] using hd
  · exact (htouch.start call.op).setStage trivial
  · exact htouch.setStage trivial

theorem ServiceOk.step {act : Action n} (h : ServiceOk x) (hs : CtrlSystem.step x act = some x') :
    ServiceOk x' := by
  cases steps_of_step hs with
  | invoke c command => exact ⟨h.servers, h.stages⟩
  | @send c i s op hop =>
    refine ⟨h.servers, fun call hc => ?_⟩
    rcases List.mem_append.mp hc with hc | hc
    · exact h.stages call hc
    · obtain rfl := List.mem_singleton.mp hc
      trivial
  | handle hcall => exact h.handle _
  | wake hcall hdone =>
    exact h.setStage ⟨le_rfl, fun _ => (h.servers _).doneBy hdone⟩
  | @answer k call stage hcall hstage hans =>
    have hcok := h.stages call (List.mem_of_getElem? hcall)
    rw [hstage] at hcok
    have hd := hcok.2 rfl
    refine h.setStage ?_
    unfold Server.answer at hans
    split at hans
    · next ch hop =>
      obtain rfl := Option.some.inj hans
      exact ⟨by simp [Op.isChange, hop], hd⟩
    · next num hop =>
      obtain ⟨e, he, rfl⟩ := Option.map_eq_some_iff.mp hans
      have hsv := h.servers call.server
      refine ⟨le_rfl, fun _ => ⟨?_, hd, num, _, hop, hsv.after, picked_of_getConfig he⟩⟩
      refine hsv.stored.maps e ?_
      unfold ShardCtrler.getConfig at he
      split at he
      · exact List.mem_of_getElem? he
      · exact List.mem_of_getLast? he
  | @encode k place call e hcall hstage =>
    have hcok := h.stages call (List.mem_of_getElem? hcall)
    rw [hstage] at hcok
    exact h.setStage (hcok.2 rfl).2
  | «return» hcall hstage hreply => exact ⟨h.servers, h.stages⟩
  | commit hop =>
    exact ⟨fun s => (h.servers s).grow _, fun call hc => (h.stages call hc).grow _⟩
  | apply hphase hop happly =>
    obtain ⟨hok, hf⟩ := (h.servers _).apply hphase hop happly
    exact h.setServer hok hf
  | note hphase =>
    exact h.setServer ((h.servers _).note hphase) (Or.inr ⟨rfl, le_rfl, List.prefix_rfl⟩)
  | restart s => exact h.setServer (serverOk_boot _ _) (Or.inl (Nat.lt_succ_self _))

lemma serviceOk_init : ServiceOk (System.init : System n) :=
  ⟨fun _ => serverOk_boot _ _, fun call hc => by cases hc⟩

/-! ### The history -/

lemma traced_init : Traced (System.init : System n) where
  pending := by rintro op (h | h | ⟨call, h, -⟩ | ⟨c, h⟩) <;> cases h
  seq := fun op l h => by cases h
  place := fun op l h => by cases h
  returned := fun op r p h => by cases h
  order := List.Pairwise.nil

lemma Traced.quiet (h : Traced x) (hlog : x'.log = x.log) (hclerks : x'.clerks = x.clerks)
    (hhist : x'.history = x.history) (hpend : ∀ op, Underway x' op → Underway x op) :
    Traced x' where
  pending := fun op hp => by rw [hhist]; exact h.pending op (hpend op hp)
  seq := by rw [hclerks, hhist]; exact h.seq
  place := by rw [hlog, hhist]; exact h.place
  returned := by rw [hlog, hhist]; exact h.returned
  order := by rw [hhist]; exact h.order

lemma underway_setStage {k : ℕ} {call : Call n} {stage : Stage} (hcall : x.calls[k]? = some call)
    {op : Op} (hp : Underway (x.setStage k call stage) op) : Underway x op := by
  rcases hp with hp | hp | ⟨call', hc, hop⟩ | hp
  · exact Or.inl hp
  · exact Or.inr (Or.inl hp)
  · rcases List.mem_or_eq_of_mem_set hc with hc | rfl
    · exact Or.inr (Or.inr (Or.inl ⟨call', hc, hop⟩))
    · exact Or.inr (Or.inr (Or.inl ⟨call, List.mem_of_getElem? hcall, hop⟩))
  · exact Or.inr (Or.inr (Or.inr hp))

lemma Traced.setStage (h : Traced x) {k : ℕ} {call : Call n} {stage : Stage}
    (hcall : x.calls[k]? = some call) : Traced (x.setStage k call stage) :=
  h.quiet rfl rfl rfl fun _ hp => underway_setStage hcall hp

lemma Traced.handle (h : Traced x) {k : ℕ} {call : Call n} (hcall : x.calls[k]? = some call)
    (isLeader : Bool) : Traced (x.handle k call isLeader) := by
  have hmem := List.mem_of_getElem? hcall
  unfold System.handle
  dsimp only
  split
  · exact h.quiet rfl rfl rfl fun _ hp => underway_setStage hcall hp
  · refine h.quiet rfl rfl rfl fun op hp => ?_
    rcases hp with hp | hp | ⟨call', hc, hop⟩ | hp
    · exact Or.inl hp
    · rcases List.mem_append.mp hp with hp | hp
      · exact Or.inr (Or.inl hp)
      · exact Or.inr (Or.inr (Or.inl ⟨call, hmem, (List.mem_singleton.mp hp).symm⟩))
    · rcases List.mem_or_eq_of_mem_set hc with hc | rfl
      · exact Or.inr (Or.inr (Or.inl ⟨call', hc, hop⟩))
      · exact Or.inr (Or.inr (Or.inl ⟨call, hmem, hop⟩))
    · exact Or.inr (Or.inr (Or.inr hp))
  · exact h.quiet rfl rfl rfl fun _ hp => underway_setStage hcall hp

lemma mem_snoc_invoked {h : List Moment} {op op' : Op} {l l' : ℕ} :
    Moment.invoked op l ∈ h ++ [.invoked op' l'] ↔ .invoked op l ∈ h ∨ (op = op' ∧ l = l') := by
  simp

lemma mem_open_invoke {clerks : ℕ → Clerk} {c c' seqNum : ℕ} {op op' : Op} :
    op' ∈ (update clerks c ⟨seqNum, (clerks c).open_ ++ [op]⟩ c').open_ ↔
      op' ∈ (clerks c').open_ ∨ (c' = c ∧ op' = op) := by
  rw [update_apply]
  split
  · next hc => simp [hc]
  · next hc => simp [hc]

lemma mem_open_of_return {clerks : ℕ → Clerk} {c c' : ℕ} {op op' : Op}
    (h : op' ∈ (update clerks c { clerks c with open_ := (clerks c).open_.erase op } c').open_) :
    op' ∈ (clerks c').open_ := by
  rw [update_apply] at h
  split at h
  · next hc => exact hc ▸ List.mem_of_mem_erase h
  · exact h

lemma Traced.invoke (h : Traced x) (c : ℕ) (command : Command) : Traced { x with
    clerks := update x.clerks c
      ⟨(x.clerks c).seqNum + 1, (x.clerks c).open_ ++ [(x.clerks c).next c command]⟩
    history := x.history ++ [.invoked ((x.clerks c).next c command) x.log.length] } := by
  set op := (x.clerks c).next c command with hop
  refine ⟨fun op' hp => ?_, fun op' l hl => ?_, fun op' l hl => ?_, fun op' r p hr => ?_, ?_⟩
  · have hold : Underway x op' → ∃ l, Moment.invoked op' l ∈
        x.history ++ [.invoked op x.log.length] := fun hp =>
      (h.pending op' hp).imp fun l hl => List.mem_append_left _ hl
    rcases hp with hp | hp | hp | ⟨c', hp⟩
    · exact hold (Or.inl hp)
    · exact hold (Or.inr (Or.inl hp))
    · exact hold (Or.inr (Or.inr (Or.inl hp)))
    · rcases mem_open_invoke.mp hp with hp | ⟨-, rfl⟩
      · exact hold (Or.inr (Or.inr (Or.inr ⟨c', hp⟩)))
      · exact ⟨_, mem_snoc_invoked.mpr (Or.inr ⟨rfl, rfl⟩)⟩
  · show 0 < op'.seqNum ∧ op'.seqNum ≤ (update x.clerks c _ op'.clientId).seqNum
    rcases mem_snoc_invoked.mp hl with hl | ⟨rfl, rfl⟩
    · obtain ⟨hpos, hle⟩ := h.seq op' l hl
      refine ⟨hpos, ?_⟩
      rw [update_apply]
      split
      · next hc =>
        rw [hc] at hle
        exact hle.trans (Nat.le_succ _)
      · exact hle
    · rw [show op.clientId = c from rfl, update_self]
      exact ⟨Nat.succ_pos _, le_rfl⟩
  · rcases mem_snoc_invoked.mp hl with hl | ⟨rfl, rfl⟩
    · exact h.place op' l hl
    · refine ⟨le_rfl, fun op' hin hc => ?_⟩
      obtain ⟨l, hl⟩ := h.pending op' (Or.inl (List.mem_of_mem_take hin))
      have hle := (h.seq op' l hl).2
      rw [hc] at hle
      exact Nat.lt_succ_of_le hle
  · exact h.returned op' r p (by simpa using hr)
  · refine List.pairwise_append.mpr ⟨h.order, List.pairwise_singleton _ _, fun m hm m' hm' => ?_⟩
    obtain rfl := List.mem_singleton.mp hm'
    cases m with
    | invoked op' l => trivial
    | returned op' r p =>
      obtain ⟨hok, hne⟩ := h.returned op' r p hm
      exact (hok.doneBy hne).1

lemma Traced.ret (h : Traced x) {op : Op} {reply : Reply} {place : ℕ}
    (hok : ReplyOk x.log op place reply) (hreply : reply ≠ .wrongLeader) : Traced { x with
    clerks := update x.clerks op.clientId { x.clerks op.clientId with
      open_ := (x.clerks op.clientId).open_.erase op }
    history := x.history ++ [.returned op reply place] } := by
  refine ⟨fun op' hp => ?_, fun op' l hl => ?_, fun op' l hl => ?_, fun op' r p hr => ?_, ?_⟩
  · have hp' : Underway x op' := by
      rcases hp with hp | hp | hp | ⟨c, hp⟩
      · exact Or.inl hp
      · exact Or.inr (Or.inl hp)
      · exact Or.inr (Or.inr (Or.inl hp))
      · exact Or.inr (Or.inr (Or.inr ⟨c, mem_open_of_return hp⟩))
    obtain ⟨l, hl⟩ := h.pending op' hp'
    exact ⟨l, List.mem_append_left _ hl⟩
  · obtain ⟨hpos, hle⟩ := h.seq op' l (by simpa using hl)
    refine ⟨hpos, ?_⟩
    show op'.seqNum ≤ (update x.clerks op.clientId _ op'.clientId).seqNum
    rw [update_apply]
    split
    · next hc => exact hc ▸ hle
    · exact hle
  · exact h.place op' l (by simpa using hl)
  · rcases List.mem_append.mp hr with hr | hr
    · exact h.returned op' r p hr
    · obtain ⟨rfl, rfl, rfl⟩ := Moment.returned.inj (List.mem_singleton.mp hr)
      exact ⟨hok, hreply⟩
  · refine List.pairwise_append.mpr ⟨h.order, List.pairwise_singleton _ _, fun m hm m' hm' => ?_⟩
    obtain rfl := List.mem_singleton.mp hm'
    cases m <;> trivial

lemma Traced.commit (h : Traced x) {i : ℕ} {op : Op} (hop : x.started[i]? = some op) :
    Traced { x with log := x.log ++ [op], started := x.started.eraseIdx i } := by
  refine ⟨fun op' hp => h.pending op' ?_, h.seq, fun op' l hl => ?_, fun op' r p hr => ?_, h.order⟩
  · rcases hp with hp | hp | hp
    · rcases List.mem_append.mp hp with hp | hp
      · exact Or.inl hp
      · exact Or.inr (Or.inl (List.mem_singleton.mp hp ▸ List.mem_of_getElem? hop))
    · exact Or.inr (Or.inl (List.mem_of_mem_eraseIdx hp))
    · exact Or.inr (Or.inr hp)
  · obtain ⟨hle, hlt⟩ := h.place op' l hl
    exact ⟨hle.trans (by simp), by rwa [List.take_append_of_le_length hle]⟩
  · obtain ⟨hok, hne⟩ := h.returned op' r p hr
    exact ⟨hok.grow _, hne⟩

theorem Traced.step {act : Action n} (h : Traced x) (hx : ServiceOk x)
    (hs : CtrlSystem.step x act = some x') : Traced x' := by
  cases steps_of_step hs with
  | invoke c command => exact h.invoke c command
  | @send c i s op hop =>
    refine h.quiet rfl rfl rfl fun op' hp => ?_
    rcases hp with hp | hp | ⟨call, hc, rfl⟩ | hp
    · exact Or.inl hp
    · exact Or.inr (Or.inl hp)
    · rcases List.mem_append.mp hc with hc | hc
      · exact Or.inr (Or.inr (Or.inl ⟨call, hc, rfl⟩))
      · obtain rfl := List.mem_singleton.mp hc
        exact Or.inr (Or.inr (Or.inr ⟨c, List.mem_of_getElem? hop⟩))
    · exact Or.inr (Or.inr (Or.inr hp))
  | handle hcall => exact h.handle hcall _
  | wake hcall _ => exact h.setStage hcall
  | answer hcall _ _ => exact h.setStage hcall
  | encode hcall _ => exact h.setStage hcall
  | @«return» k place call reply hcall hstage hreply =>
    have hcok := hx.stages call (List.mem_of_getElem? hcall)
    rw [hstage] at hcok
    exact h.ret hcok hreply
  | commit hop => exact h.commit hop
  | apply _ _ _ => exact h.quiet rfl rfl rfl fun _ hp => hp
  | note _ => exact h.quiet rfl rfl rfl fun _ hp => hp
  | restart s => exact h.quiet rfl rfl rfl fun _ hp => hp

theorem inv_of_reaches (hr : Reaches step System.init x) : ServiceOk x ∧ Traced x :=
  ReachesIf.inv (I := fun x => ServiceOk x ∧ Traced x) hr ⟨serviceOk_init, traced_init⟩
    fun _ _ _ h _ hs => ⟨h.1.step hs, h.2.step h.1 hs⟩

/-! ### The configurations of a log, and the answers of a run -/

/-- The command at a place of the log makes the configuration with this number. -/
def Creates (log : List Op) (k : ℕ) (op : Op) (num : ℕ) : Prop :=
  log[k]? = some op ∧ op.isChange ∧ Fresh (log.take k) op ∧
    ∃ sc, Replica (log.take k) sc ∧ (configsOf sc).length = num

section

variable {log : List Op} {op : Op} {h : List Config}

lemma After.take {j k : ℕ} (hh : After (log.take k) h) (hjk : j ≤ k) :
    ∃ h₀, After (log.take j) h₀ ∧ h₀ <+: h := by
  obtain ⟨d, rfl⟩ := Nat.exists_eq_add_of_le hjk
  rw [List.take_add] at hh
  exact hh.left

/-- A configuration that a call has created is there in what the call was answered from. -/
lemma Creates.lt_of_doneBy {k num place : ℕ} (hc : Creates log k op num)
    (hd : DoneBy log op place) (hh : After (log.take place) h) : num < h.length := by
  obtain ⟨hk, hch, hfresh, sc, hrep, rfl⟩ := hc
  have hlt : k < place := by
    by_contra hge
    have hle := high_take_mono log (Nat.le_of_not_lt hge) op.clientId
    exact absurd (lt_of_lt_of_le hfresh (hd.2.trans hle)) (lt_irrefl _)
  obtain ⟨h₁, hh₁, hle₁⟩ := After.take hh hlt
  rw [take_succ_of_getElem? hk] at hh₁
  obtain ⟨h₀, hh₀, hv⟩ := hh₁.snoc_inv
  obtain rfl := hh₀.unique hrep.after
  cases hv with
  | dup hdup => exact absurd hfresh hdup
  | query _ hop => simp [Op.isChange, hop] at hch
  | change _ _ _ _ =>
    have := hle₁.length_le
    rw [List.length_append, List.length_singleton] at this
    exact this

lemma Picked.exists_place {num : ℤ} {c : Config} (hp : Picked num h c) :
    ∃ m : ℕ, h[m]? = some c ∧
      ((m : ℤ) = num ∨ (¬ (0 ≤ num ∧ num < h.length) ∧ h.length = m + 1)) := by
  unfold Picked at hp
  split at hp
  · next hin => exact ⟨num.toNat, hp, Or.inl (Int.toNat_of_nonneg hin.1)⟩
  · next hout =>
    rw [List.getLast?_eq_getElem?] at hp
    have hlt := (List.getElem?_eq_some_iff.mp hp).1
    exact ⟨h.length - 1, hp, Or.inr ⟨hout, by omega⟩⟩

end

lemma Traced.place_lt (h : Traced x) {op : Op} {l place : ℕ} (hl : .invoked op l ∈ x.history)
    (hd : DoneBy x.log op place) : l < place := by
  by_contra hge
  obtain ⟨op', hop', hc, hle⟩ := exists_of_le_high (h.seq op l hl).1 hd.2
  have hin : op' ∈ x.log.take l := List.take_subset_take_left _ (Nat.le_of_not_lt hge) hop'
  exact absurd ((h.place op l hl).2 op' hin hc) (Nat.not_lt.mpr hle)

def Publishes (p : List Op) (op : Op) (sc₁ sc₂ : ShardCtrler) : Prop :=
  (∀ ch, op.command = .change ch → op.seqNum ∉ numbers p op.clientId →
    ∃ latest c, (configsOf sc₁).getLast? = some latest ∧
      (∃ passes orders, (nextConfig passes ch latest).outcome orders = .ok c) ∧
      configsOf sc₂ = configsOf sc₁ ++ [{ c with num := (configsOf sc₁).length }]) ∧
  ((∃ num, op.command = .query num) ∨ op.seqNum ∈ numbers p op.clientId →
    configsOf sc₂ = configsOf sc₁)

lemma publishes_of_viewed {p : List Op} {op : Op} {sc₁ sc₂ : ShardCtrler}
    (hrise : Rising (p ++ [op])) (hv : Viewed p (configsOf sc₁) op (configsOf sc₂)) :
    Publishes p op sc₁ sc₂ := by
  unfold Publishes
  generalize configsOf sc₂ = w at hv
  refine ⟨fun ch hop hnew => ?_, fun hno => ?_⟩
  · cases hv with
    | dup hdup => exact absurd (hrise.fresh_iff.mpr hnew) hdup
    | query _ hop' =>
      rw [hop] at hop'
      cases hop'
    | @change ch' latest c passes orders _ hop' hlast hnext =>
      obtain rfl := Command.change.inj (hop.symm.trans hop')
      exact ⟨latest, c, hlast, ⟨passes, orders, hnext⟩, rfl⟩
  · cases hv with
    | dup _ => rfl
    | query _ _ => rfl
    | change hfresh hop' _ _ =>
      rcases hno with ⟨num, hop⟩ | hold
      · rw [hop] at hop'
        cases hop'
      · exact absurd hold (hrise.fresh_iff.mp hfresh)

/-- The configuration that a `Query` returns, by its number, and how it compares with what was
published when the `Query` was invoked. -/
lemma query_answered (hr : Reaches step System.init x) {sc : ShardCtrler}
    (hrep : Replica x.log sc) {op : Op} {l : ℕ} (hinv : .invoked op l ∈ x.history) {num : ℤ}
    (hop : op.command = .query num) {reply : Reply} {p : ℕ}
    (hret : .returned op reply p ∈ x.history) :
    ∃ (c : Config) (m : ℕ) (sc' : ShardCtrler), reply = .config c ∧ (configsOf sc)[m]? = some c ∧
      Replica (x.log.take l) sc' ∧ (0 ≤ num ∧ num < (configsOf sc').length → (m : ℤ) = num) ∧
      (¬ (0 ≤ num ∧ num < (configsOf sc').length) → (configsOf sc').length ≤ m + 1) := by
  obtain ⟨-, htraced⟩ := inv_of_reaches hr
  obtain ⟨hok, hne⟩ := htraced.returned op reply p hret
  have hlp := htraced.place_lt hinv (hok.doneBy hne)
  -- the reply of a query has a configuration
  obtain ⟨c, rfl⟩ : ∃ c, reply = .config c := by
    cases reply with
    | wrongLeader => exact absurd rfl hne
    | ok => simp [ReplyOk, Op.isChange, hop] at hok
    | config c => exact ⟨c, rfl⟩
  obtain ⟨-, num', h, hop', hafter, hpick⟩ := hok
  obtain rfl := Command.query.inj (hop.symm.trans hop')
  obtain ⟨m, hm, hcases⟩ := hpick.exists_place
  -- the prefixes of the log at the end, the answer and the invocation
  have hfull := hrep.after
  rw [← List.take_append_drop p x.log] at hfull
  obtain ⟨h₁, hh₁, t, ht⟩ := hfull.left
  obtain rfl := hh₁.unique hafter
  rw [← List.take_append_drop l x.log] at hrep
  obtain ⟨sc', hrep'⟩ := hrep.left
  obtain ⟨h₂, hh₂, hle₂⟩ := After.take hafter hlp.le
  obtain rfl := hh₂.unique hrep'.after
  have hlen := hle₂.length_le
  have hmlt := (List.getElem?_eq_some_iff.mp hm).1
  refine ⟨c, m, sc', rfl, ?_, hrep', fun hin => ?_, fun hout => ?_⟩
  · rw [← ht, List.getElem?_append_left hmlt, hm]
  · rcases hcases with heq | ⟨hnot, -⟩
    · exact heq
    · exact absurd ⟨hin.1, by omega⟩ hnot
  · rcases hcases with heq | ⟨-, heq⟩
    · have : ¬ (m : ℤ) < (configsOf sc').length := fun hlt => hout ⟨by omega, by omega⟩
      omega
    · omega

/-- What a call has created before a place of the history is published at the places of the log
that belong to what comes later. -/
lemma created_before (hr : Reaches step System.init x) {k' k : ℕ} (hlt : k' < k) {op op' : Op}
    {l p' j num' : ℕ} {reply' : Reply} (hk : x.history[k]? = some (.invoked op l))
    (hk' : x.history[k']? = some (.returned op' reply' p')) (hcreate : Creates x.log j op' num')
    {sc' : ShardCtrler} (hrep' : Replica (x.log.take l) sc') : num' < (configsOf sc').length := by
  obtain ⟨-, htraced⟩ := inv_of_reaches hr
  obtain ⟨hkl, hkeq⟩ := List.getElem?_eq_some_iff.mp hk
  obtain ⟨hkl', hkeq'⟩ := List.getElem?_eq_some_iff.mp hk'
  have htime := List.pairwise_iff_getElem.mp htraced.order k' k hkl' hkl hlt
  rw [hkeq, hkeq'] at htime
  obtain ⟨hok, hne⟩ := htraced.returned op' reply' p' (List.mem_of_getElem? hk')
  obtain ⟨h, hh, hle⟩ := After.take hrep'.after (show p' ≤ l from htime)
  exact (hcreate.lt_of_doneBy (hok.doneBy hne) hh).trans_le hle.length_le

/-- **The history of the configurations.** The applier gets through every log whose commands suit
and whose first occurrences rise: it publishes one configuration for each change, where it first
occurs and made from the latest one, and none otherwise; the configurations are numbered, and stay.
In every run a `Query` for a number that was published when it was invoked is answered with that
configuration, and any other with one at least as new as all that were published by then, among
them those whose calls had returned. -/
theorem config_history (log : List Op) :
    (Rising log → Sane log →
      (∀ passes, NShards ≤ passes → ∀ orders, ∃ sc,
        (boot.applyAll passes log).outcome orders = .ok sc ∧ Replica log sc) ∧
      ∀ sc, Replica log sc →
        (configsOf sc).length = ((firsts log).filter Op.isChange).length + 1 ∧
        (∀ (i : ℕ) (c : Config), (configsOf sc)[i]? = some c → c.num = i) ∧
        ∀ p op, p ++ [op] <+: log → ∀ sc₁, Replica p sc₁ → configsOf sc₁ <+: configsOf sc ∧
          ∀ passes orders sc₂, (sc₁.applyOp passes op).outcome orders = .ok sc₂ →
            Publishes p op sc₁ sc₂) ∧
    ∀ n (x : System n), Reaches step System.init x → x.log = log → ∀ sc, Replica log sc →
      ∀ (k : ℕ) op l, x.history[k]? = some (.invoked op l) → ∀ num, op.command = .query num →
      ∀ reply p, .returned op reply p ∈ x.history →
      ∃ (c : Config) (m : ℕ) (sc' : ShardCtrler), reply = .config c ∧ (configsOf sc)[m]? = some c ∧
        Replica (log.take l) sc' ∧ (0 ≤ num ∧ num < (configsOf sc').length → (m : ℤ) = num) ∧
        (¬ (0 ≤ num ∧ num < (configsOf sc').length) → (configsOf sc').length ≤ m + 1 ∧
          ∀ k' < k, ∀ op' reply' p', x.history[k']? = some (.returned op' reply' p') →
            ∀ j num', Creates log j op' num' → num' ≤ m) := by
  refine ⟨fun hrise hsane => ⟨fun passes hpasses => ensures_applyAll hsane hpasses,
    fun sc hrep => ⟨?_, fun i c => hrep.after.num, fun p op hp sc₁ h₁ => ?_⟩⟩, ?_⟩
  · rw [hrep.after.length, hrise.fresh_eq_firsts]
  · obtain ⟨q, rfl⟩ := hp
    obtain ⟨h₀, hh₀, hle⟩ := hrep.after.left
    obtain ⟨h₂, hh₂, hle₂⟩ := hh₀.left
    obtain rfl := hh₂.unique h₁.after
    exact ⟨hle₂.trans hle, fun passes orders sc₂ happly =>
      publishes_of_viewed hrise.left (h₁.viewed happly)⟩
  · rintro n x hr rfl sc hrep k op l hk num hop reply p hret
    obtain ⟨c, m, sc', hreply, hm, hrep', hin, hout⟩ :=
      query_answered hr hrep (List.mem_of_getElem? hk) hop hret
    refine ⟨c, m, sc', hreply, hm, hrep', hin, fun hnot => ⟨hout hnot, ?_⟩⟩
    intro k' hlt op' reply' p' hk' j num' hcreate
    have := created_before hr hlt hk hk' hcreate hrep'
    have := hout hnot
    omega

/-- Clerk `1` lets a group join, clerk `2` asks for the first configuration. -/
def joinOp : Op := ⟨.change (.join (Finmap.insert 1 [[0]] ∅)), 1, 1⟩

def queryOp : Op := ⟨.query 1, 1, 2⟩

/-- A call that server `s` answers. -/
def called {n : ℕ} (s : Fin n) (clientId k : ℕ) (command : Command) : List (Action n) :=
  [.invoke clientId command, .send clientId 0 s, .handle k true, .commit 0,
    .apply s NShards fun _ => .ascending, .note s, .wake k, .answer k]

def joinedQueried {n : ℕ} (s : Fin n) : List (Action n) := List.flatten
  [called s 1 0 joinOp.command, [.return 0], called s 2 1 queryOp.command,
    [.encode 1, .return 1]]

lemma rising_joinQuery : Rising [joinOp, queryOp] := by
  intro p op q h
  match p, h with
  | [], h =>
    obtain ⟨rfl, -⟩ := List.cons.inj h
    exact Or.inr (by decide)
  | [a], h =>
    obtain ⟨rfl, rfl, -⟩ : joinOp = a ∧ queryOp = op ∧ q = [] := by simpa using h
    exact Or.inr (by decide)
  | _ :: _ :: _, h => simp at h

lemma sane_joinQuery : Sane [joinOp, queryOp] := by
  intro p op hp hfresh ch hop h c hafter hlast
  obtain ⟨q, hq⟩ := hp
  match p, hq with
  | [], hq =>
    obtain ⟨rfl, -⟩ := List.cons.inj hq
    obtain rfl := Command.change.inj hop
    obtain rfl := hafter.unique .nil
    obtain rfl := Option.some.inj hlast
    have h0 : Proper initial (.join (Finmap.insert 1 [[0]] ∅)) := by
      show (0 : Gid) ∉ (Finmap.insert 1 [[0]] ∅ : GoMap Gid (List GoString))
      decide
    exact ⟨Proper.safe valid_initial.toOwned h0, fun hf => absurd hf.2 (by decide)⟩
  | [a], hq =>
    obtain ⟨rfl, rfl, -⟩ : a = joinOp ∧ op = queryOp ∧ q = [] := by simpa using hq
    cases hop
  | _ :: _ :: _, hq => simp at hq

theorem config_history_queried :
    ∃ (x : System 3) (c : Config), Reaches step System.init x ∧ x.log = [joinOp, queryOp] ∧
      .returned queryOp (.config c) 2 ∈ x.history ∧ c.num = 1 := by
  have hrun : (run step System.init (joinedQueried 0)).map (fun x : System 3 => decide
      (x.log = [joinOp, queryOp] ∧ x.history[2]? = some (.invoked queryOp 1) ∧
        x.history.any fun m => match m with
          | .returned op _ 2 => op = queryOp
          | _ => false)) = some true := by decide +kernel
  obtain ⟨x, hx, hd⟩ := Option.map_eq_some_iff.mp hrun
  obtain ⟨hlog, hinv, hany⟩ := of_decide_eq_true hd
  obtain ⟨m, hm, hop⟩ := List.any_eq_true.mp hany
  split at hop
  · next op reply =>
    obtain rfl := of_decide_eq_true hop
    have hr := reaches_of_run hx
    obtain ⟨hall, hans⟩ := config_history [joinOp, queryOp]
    obtain ⟨hex, hview⟩ := hall rising_joinQuery sane_joinQuery
    obtain ⟨sc, -, hrep⟩ := hex NShards le_rfl fun _ => .ascending
    obtain ⟨c, m, sc', rfl, hm', hrep', hin, hout⟩ :=
      hans 3 x hr hlog sc hrep 2 queryOp 1 hinv 1 rfl reply 2 hm
    refine ⟨x, c, hr, hlog, hm, ?_⟩
    have hnum := (hview sc hrep).2.1 m c hm'
    have hlen := (hview sc hrep).1
    have hmlt := (List.getElem?_eq_some_iff.mp hm').1
    have htwo : ((firsts [joinOp, queryOp]).filter Op.isChange).length = 1 := by decide
    rw [htwo] at hlen
    have hlen' : (configsOf sc').length = 2 := by
      rw [hrep'.after.length]
      decide
    have := hin ⟨by decide, by omega⟩
    omega
  · simp at hop

/-- A shard that is not there ends the applier, and all replicas with it. -/
theorem applier_panics :
    Rising [(⟨.change (.move 10 1), 1, 1⟩ : Op)] ∧ (boot.applyAll NShards
      [⟨.change (.move 10 1), 1, 1⟩]).outcome (fun _ => .ascending) = .error .panicked := by
  refine ⟨fun p op q h => ?_, by decide +kernel⟩
  match p, h with
  | [], h =>
    obtain ⟨rfl, -⟩ := List.cons.inj h
    exact Or.inr (by decide)
  | _ :: _, h => simp at h

end Mit6824.CtrlQueries
