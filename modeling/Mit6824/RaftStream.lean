import Mit6824.RaftSafety
import Mit6824.RaftSteps

/-!
What a server delivers between two restarts.

The applier sends without the lock, so the log may be compacted or replaced between the choice
of a message and the note that it was applied. The service is the measure: it holds the commands
up to the last message sent, and the applier notes exactly that index before it chooses again.
-/

namespace Mit6824.RaftStream

open Mit6824.Labgob Mit6824.Quorum Mit6824.TermLog Mit6824.Repl
open Mit6824.RaftLog Mit6824.RaftState Mit6824.RaftElection Mit6824.RaftReplication
open Mit6824.RaftApplier Mit6824.RaftCluster Mit6824.RaftSim Mit6824.RaftSafety
open Mit6824.RaftSteps Mit6824.Runs Function

variable {n : ℕ} {C : Type}

/-! ### Streams of messages, the last one first -/

/-- The index the service has reached. -/
def reached : List (ApplyMsg C) → ℕ
  | [] => 0
  | m :: _ => m.index

/-- The message may come after those before it: a command brings the next index, a snapshot a
higher index than all. -/
def MayFollow (before : List (ApplyMsg C)) : ApplyMsg C → Prop
  | .command _ index => index = reached before + 1
  | .snapshot _ _ index => 0 < index ∧ ∀ m ∈ before, m.index < index

def Gapless : List (ApplyMsg C) → Prop
  | [] => True
  | m :: before => MayFollow before m ∧ Gapless before

lemma MayFollow.reached_lt {ms : List (ApplyMsg C)} {m : ApplyMsg C} (h : MayFollow ms m) :
    reached ms < m.index := by
  cases m with
  | command cmd i => exact h ▸ Nat.lt_succ_self _
  | snapshot data t i =>
    obtain ⟨hpos, hall⟩ := h
    cases ms with
    | nil => exact hpos
    | cons m ms => exact hall m List.mem_cons_self

lemma Gapless.index_le {ms : List (ApplyMsg C)} (h : Gapless ms) :
    ∀ m ∈ ms, m.index ≤ reached ms := by
  induction ms with
  | nil => simp
  | cons m ms ih =>
    intro m' hm'
    rcases List.mem_cons.mp hm' with rfl | hm'
    · exact le_rfl
    · exact (ih h.2 m' hm').trans h.1.reached_lt.le

lemma mayFollow_of_chosen {rf : Raft n C} {ms : List (ApplyMsg C)} {m : ApplyMsg C}
    (hch : Chosen rf m) (hms : Gapless ms) (hr : reached ms = rf.lastApplied) :
    MayFollow ms m := by
  cases m with
  | command cmd i => exact hch.1.trans (congrArg (· + 1) hr.symm)
  | snapshot data t i =>
    have hlt := hch.1
    exact ⟨by omega, fun m hm => by have := hms.index_le m hm; omega⟩

def stream (c : Cluster n C) (s : Fin n) (epoch : ℕ) : List (ApplyMsg C) :=
  (c.delivered.filter fun d => d.server = s ∧ d.epoch = epoch).map Delivery.msg

lemma stream_of_eq {c c' : Cluster n C} (h : c'.delivered = c.delivered) (s : Fin n) (e : ℕ) :
    stream c' s e = stream c s e := by rw [stream, h, stream]

lemma stream_cons {c c' : Cluster n C} {d : Delivery n C}
    (h : c'.delivered = d :: c.delivered) (s : Fin n) (e : ℕ) :
    stream c' s e =
      if d.server = s ∧ d.epoch = e then d.msg :: stream c s e else stream c s e := by
  rw [stream, h, List.filter_cons]
  split <;> simp_all [stream]

/-! ### The invariant -/

/-- Every stream is gapless, and the service has reached the end of the current one. -/
structure Streaming (c : Cluster n C) : Prop where
  gapless : ∀ s epoch, Gapless (stream c s epoch)
  service : ∀ s, reached (stream c s (c.servers s).epoch) = (c.servers s).service.length
  later : ∀ s epoch, (c.servers s).epoch < epoch → stream c s epoch = []

/-- An action that delivers nothing: a server has its service, or is restarted. -/
lemma Streaming.quiet {c c' : Cluster n C} (h : Streaming c) (hd : c'.delivered = c.delivered)
    (hs : ∀ s, ((c'.servers s).epoch = (c.servers s).epoch ∧
        (c'.servers s).service = (c.servers s).service) ∨
      ((c.servers s).epoch < (c'.servers s).epoch ∧ (c'.servers s).service = [])) :
    Streaming c' := by
  refine ⟨fun s e => ?_, fun s => ?_, fun s e he => ?_⟩
  · rw [stream_of_eq hd]
    exact h.gapless s e
  · rw [stream_of_eq hd]
    rcases hs s with ⟨hep, hsv⟩ | ⟨hlt, hsv⟩
    · rw [hep, hsv, h.service]
    · rw [hsv, h.later s _ hlt]
      rfl
  · rw [stream_of_eq hd]
    rcases hs s with ⟨hep, -⟩ | ⟨hlt, -⟩
    · exact h.later s e (hep ▸ he)
    · exact h.later s e (hlt.trans he)

lemma Streaming.deliver {c c' : Cluster n C} (h : Streaming c) {s : Fin n} {m : ApplyMsg C}
    (hd : c'.delivered = ⟨s, (c.servers s).epoch, m⟩ :: c.delivered)
    (hep : ∀ i, (c'.servers i).epoch = (c.servers i).epoch)
    (hsv : ∀ i, i ≠ s → (c'.servers i).service = (c.servers i).service)
    (hm : MayFollow (stream c s (c.servers s).epoch) m)
    (hlen : (c'.servers s).service.length = m.index) : Streaming c' := by
  refine ⟨fun i e => ?_, fun i => ?_, fun i e he => ?_⟩
  · rw [stream_cons hd]
    split
    · next heq =>
      obtain ⟨rfl, rfl⟩ := heq
      exact ⟨hm, h.gapless _ _⟩
    · exact h.gapless i e
  · rw [stream_cons hd, hep]
    by_cases his : s = i
    · subst his
      rw [if_pos ⟨rfl, rfl⟩, hlen]
      rfl
    · rw [if_neg fun hc => his hc.1, hsv i (Ne.symm his), h.service]
  · rw [hep] at he
    rw [stream_cons hd, if_neg, h.later i e he]
    rintro ⟨rfl, rfl⟩
    exact lt_irrefl _ he

variable [Coded (Persisted n C)] [Inhabited C] [Coded (List C)] {c c' : Cluster n C}

/-- **One action keeps the streams.** -/
lemma Streaming.moved {K : Prop} {a b : Abs n C} {act : Action n C} (h : Streaming c)
    (hsim : Sim K c a) (hsim' : Sim K c' b) (hm : MovesTo c act c') : Streaming c' := by
  obtain ⟨s, sv, ds, hm, hs, hd⟩ := hm
  -- everything but a delivery leaves the other servers and what was delivered alone
  have hquiet : ds = [] → (sv.epoch = (c.servers s).epoch ∧ sv.service = (c.servers s).service) ∨
      ((c.servers s).epoch < sv.epoch ∧ sv.service = []) → Streaming c' := by
    rintro rfl hsv
    refine h.quiet hd fun i => ?_
    rw [hs]
    by_cases his : i = s
    · subst his
      simpa using hsv
    · simp [his]
  cases hm with
  | worked _ => exact hquiet rfl (Or.inl ⟨rfl, rfl⟩)
  | choose _ => exact hquiet rfl (Or.inl ⟨rfl, rfl⟩)
  | record _ => exact hquiet rfl (Or.inl ⟨rfl, rfl⟩)
  | restart _ => exact hquiet rfl (Or.inr ⟨Nat.lt_succ_self _, rfl⟩)
  | @deliver m service hpc =>
    obtain ⟨hlen, hch, -⟩ := (hsim.server s).serving.sending m hpc
    have hsent : (c'.servers s).applier = .sent m := by rw [hs, update_self]
    refine h.deliver hd (fun i => ?_) (fun i his => ?_)
      (mayFollow_of_chosen hch (h.gapless _ _) ((h.service s).trans hlen))
      ((hsim'.server s).serving.sent m hsent).1
    · rw [hs]
      by_cases his : i = s
      · subst his
        simp
      · simp [his]
    · rw [hs, update_of_ne his]

lemma streaming_of_reaches (hr : Reaches advance (Cluster.init : Cluster n C) c) : Streaming c := by
  induction hr with
  | refl =>
    exact ⟨fun _ _ => trivial, fun _ => rfl, fun _ _ _ => rfl⟩
  | @tail d e hd hn ih =>
    obtain ⟨act, -, hs⟩ := hn
    obtain ⟨a, ha⟩ := exists_sim hd
    obtain ⟨b, hb⟩ := exists_sim (hd.tail ⟨act, trivial, hs⟩)
    exact ih.moved ha hb (step_movesTo ha (advance_eq_some_iff.mp hs))

/-! ### Indexes -/

/-- The server was restarted, or its indexes have not gone down. -/
def Ahead (sv sv' : Server n C) : Prop :=
  sv.epoch < sv'.epoch ∨ (sv'.epoch = sv.epoch ∧
    sv.raft.snapshotIndex ≤ sv'.raft.snapshotIndex ∧
    sv.raft.lastApplied ≤ sv'.raft.lastApplied ∧ sv.raft.commitIndex ≤ sv'.raft.commitIndex)

omit [Coded (Persisted n C)] [Inhabited C] [Coded (List C)] in
lemma Ahead.refl (sv : Server n C) : Ahead sv sv := Or.inr ⟨rfl, le_rfl, le_rfl, le_rfl⟩

omit [Coded (Persisted n C)] [Inhabited C] [Coded (List C)] in
lemma Ahead.trans {sv sv₁ sv₂ : Server n C} (h : Ahead sv sv₁) (h' : Ahead sv₁ sv₂) :
    Ahead sv sv₂ := by
  unfold Ahead at *
  omega

omit [Coded (Persisted n C)] [Inhabited C] [Coded (List C)] in
lemma recordApplied_le (rf : Raft n C) (m : ApplyMsg C) :
    (recordApplied rf m).snapshotIndex = rf.snapshotIndex ∧
      rf.lastApplied ≤ (recordApplied rf m).lastApplied ∧
      rf.commitIndex ≤ (recordApplied rf m).commitIndex := by
  cases m with
  | command cmd i =>
    rw [recordApplied]
    split
    · next h => exact ⟨rfl, (Nat.le_succ _).trans h, le_rfl⟩
    · exact ⟨rfl, le_rfl, le_rfl⟩
  | snapshot data t i =>
    rw [recordApplied]
    split
    · next h =>
      refine ⟨rfl, h.le, ?_⟩
      dsimp only
      split
      · next hc => exact hc.le
      · exact le_rfl
    · exact ⟨rfl, le_rfl, le_rfl⟩

/-- What a server has committed stays in its log: a follower that sets its commit index to the
end of its log does not take it back. -/
lemma commitIndex_le_lastIndex {K : Prop} {a b : Abs n C} (h : Sim K c a) (h' : Sim K c' b)
    (hr : Reach a b) {s : Fin n} : (c.servers s).raft.commitIndex ≤
      (c'.servers s).raft.log.lastIndex := by
  have hm := (h'.server s).mirror
  rw [hm.log.lastIndex]
  obtain ⟨l, hl, hlen, hp | hc⟩ := (h.server s).commit
  · rw [← (h.server s).mirror.term] at hl
    exact hlen ▸ (h.inv.kept hr hl hp).length_le
  · calc (c.servers s).raft.commitIndex ≤ (c.servers s).raft.snapshotIndex := hc
      _ = a.snap s := (h.server s).mirror.snap.symm
      _ ≤ b.snap s := (h.inv.ext hr).snap s
      _ = (c'.servers s).raft.log.index0 := hm.snap.trans hm.index0.symm
      _ ≤ (b.log s).length := hm.log.le

/-- **One action takes no index back.** -/
lemma ahead_of_step {act : Action n C} (hd : Reaches advance Cluster.init c)
    (hs : step c act = some (.ok c')) (s : Fin n) : Ahead (c.servers s) (c'.servers s) := by
  obtain ⟨a, h⟩ := exists_sim hd
  obtain ⟨_, he, b, hr, h'⟩ := h.step hs fun hk => hk.elim
  obtain rfl := Except.ok.inj he
  rcases (step_movesTo h hs).server s with heq | ⟨ds, hm⟩
  · rw [heq]
    exact Ahead.refl _
  have hlast := commitIndex_le_lastIndex h h' hr (s := s)
  generalize c'.servers s = sv at hm hlast
  cases hm with
  | worked hw =>
    refine Or.inr ⟨rfl, hw.snapshot, hw.applied.ge, ?_⟩
    rcases hw.commit with hle | heq
    · exact hle
    · exact heq ▸ hlast
  | choose _ => exact Ahead.refl _
  | deliver _ => exact Ahead.refl _
  | record _ =>
    obtain ⟨h1, h2, h3⟩ := recordApplied_le (c.servers s).raft _
    exact Or.inr ⟨rfl, h1.ge, h2, h3⟩
  | restart _ => exact Or.inl (Nat.lt_succ_self _)

/-- **The apply stream.** What a server delivers between two restarts has no gap and only goes
up, whatever runs while the applier is sending; and until a restart the commit index, the last
applied index and the snapshot index do not go down. -/
theorem apply_stream (hr : Reaches advance (Cluster.init : Cluster n C) c) (s : Fin n) :
    (∀ epoch, Gapless (stream c s epoch)) ∧
    ∀ c', Reaches advance c c' → (c'.servers s).epoch = (c.servers s).epoch →
      (c.servers s).raft.commitIndex ≤ (c'.servers s).raft.commitIndex ∧
      (c.servers s).raft.lastApplied ≤ (c'.servers s).raft.lastApplied ∧
      (c.servers s).raft.snapshotIndex ≤ (c'.servers s).raft.snapshotIndex := by
  refine ⟨(streaming_of_reaches hr).gapless s, fun c' hr' he => ?_⟩
  have hah : Ahead (c.servers s) (c'.servers s) :=
    ReachesIf.rel (R := fun d d' => Ahead (d.servers s) (d'.servers s)) hr' hr
      (fun _ => Ahead.refl _) (fun _ _ _ => Ahead.trans)
      fun _ _ _ hd _ hs => ahead_of_step hd (advance_eq_some_iff.mp hs) s
  rcases hah with hlt | ⟨-, h1, h2, h3⟩
  · omega
  · exact ⟨h3, h2, h1⟩

theorem apply_stream_after_snapshot :
    ∃ c c' : Cluster 3 ℕ, Reaches advance Cluster.init c ∧ Reaches advance c c' ∧
      (stream c' 2 0).map ApplyMsg.index = [2, 1] ∧ Gapless (stream c' 2 0) ∧
      (c.servers 2).raft.commitIndex ≤ (c'.servers 2).raft.commitIndex := by
  have hrun : ((run advance Cluster.init
      (election ++ replication ++ application ++ compaction)).bind
      fun c => (run advance c continuation).map fun c' =>
        ((stream c' 2 0).map ApplyMsg.index, (c.servers 2).epoch, (c'.servers 2).epoch)) =
      some ([2, 1], 0, 0) := by
    decide +kernel
  obtain ⟨c, hc, hrun⟩ := Option.bind_eq_some_iff.mp hrun
  obtain ⟨c', hc', hd⟩ := Option.map_eq_some_iff.mp hrun
  simp only [Prod.mk.injEq] at hd
  obtain ⟨hst, he, he'⟩ := hd
  have hr := reaches_of_run hc
  have hr' := reaches_of_run hc'
  exact ⟨c, c', hr, hr', hst, (apply_stream (hr.trans hr') 2).1 0,
    ((apply_stream hr 2).2 c' hr' (he'.trans he.symm)).1⟩

end Mit6824.RaftStream
