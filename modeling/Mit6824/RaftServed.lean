import Mit6824.RaftProgress
import Mit6824.RaftTraces

/-!
Services that go on because Raft does.

What the cluster of lists can do, the cluster below a service can do. If the service takes every
message that it is delivered, any command that a new leader has started comes to its service.
-/

namespace Mit6824.RaftServed

open Mit6824.Labgob Mit6824.Quorum Mit6824.Runs Mit6824.Compose Mit6824.RaftLog Mit6824.RaftState
open Mit6824.RaftApplier Mit6824.RaftSim Mit6824.RaftViews Mit6824.RaftPort Mit6824.RaftTraces
open Mit6824.RaftExchange Mit6824.RaftCampaign Mit6824.RaftProgress Function
open Mit6824.RaftCluster (Cluster Action step advance_eq_some_iff)

variable {n : ℕ} {C : Type} [Coded (Persisted n C)] [Inhabited C] [Coded (List C)]

/-! ### One action -/

section Action

variable {x : Port n C} {y : Service n C} {c c' o p : Cluster n C} {s : Fin n}

lemma Linked.mirrored (h : Linked x y c) : Mirrored c := by
  obtain ⟨p, a, -, hlog, -⟩ := h
  exact ⟨a, hlog.sim⟩

omit [Coded (Persisted n C)] [Inhabited C] [Coded (List C)] in
lemma inner_of_silent {act : Action n C} (h : Silent act) : Inner act := by
  cases act <;> first | exact h | trivial

lemma Layers.exists_step {snaps : List (ℕ × Bytes)} (h : Layers snaps o p c) {act : Action n C}
    (hin : Inner act) (hs : step c act = some (.ok c')) :
    ∃ o' p', step o act = some (.ok o') ∧ Layers snaps o' p' c' := by
  have hcode := step_view codeOf p hin
  have hbytes := step_view dataOf p hin
  rw [← h.code, step_view id c hin, hs] at hcode
  rw [← h.bytes] at hbytes
  cases hp : step p act with
  | none =>
    rw [hp] at hcode
    cases hcode
  | some r =>
    rw [hp] at hcode hbytes
    cases r with
    | error e => cases Option.some.inj hcode
    | ok p' =>
      rcases h.step hin hbytes with ⟨e, he, -⟩ | ⟨o', p'', c'', ho, hc, hlay⟩
      · cases he
      · rw [hs] at hc
        obtain rfl := Except.ok.inj (Option.some.inj hc)
        exact ⟨o', p'', hbytes.trans (congrArg some ho), hlay⟩

/-- What the servers do among themselves, the services do not see. -/
lemma Linked.silent (h : Linked x y c) {act : Action n C} (hact : Silent act)
    (hs : step c act = some (.ok c')) :
    ∃ x', raft x (act, []) = some (x', none) ∧ Linked x' y c' := by
  obtain ⟨p, a, hlay, hlog, hreach⟩ := h
  have hin := inner_of_silent hact
  obtain ⟨o', p', ho, hlay'⟩ := Layers.exists_step hlay hin hs
  obtain ⟨_, he, b, hr, hsim⟩ := hlog.sim.step hs fun hk => hk.elim
  obtain rfl := Except.ok.inj he
  have hquiet : ∀ d : Cluster n C, restarted d act = none := by
    intro d
    cases act <;> first | rfl | exact hact.elim
  have hu := servicesKept hin hs
  rw [hquiet] at hu
  refine ⟨{ x with cluster := o' }, ?_, p', b, hlay', hlog.move hsim hr hu, hreach⟩
  have hattempt : attempt x (act, []) =
      (step x.cluster act).map fun r => r.map fun d => x.move d (restarted x.cluster act) := by
    cases act <;> first | rfl | exact hact.elim
  rw [raft, hattempt, ho, hquiet]
  rfl

lemma Linked.exists_start (h : Linked x y c) (hlead : (c.servers s).raft.role = .leader) {cmd : C}
    (hs : step c (.start s cmd) = some (.ok c')) :
    ∃ x' y', raft x (.start s cmd, []) = some (x', some (.start s cmd true)) ∧ Linked x' y' c' ∧
      Answers LogService.step y (some (.start s cmd true)) y' := by
  obtain ⟨p, a, hlay, -⟩ := id h
  have hrole : (x.cluster.servers s).raft.role = .leader := by
    rw [hlay.raft_bytes s]
    rw [hlay.raft_code s] at hlead
    exact hlead
  obtain ⟨x', hstart⟩ : ∃ x', attempt x (.start s cmd, []) =
      some (.ok (x', some (.start s cmd true))) :=
    ⟨_, by simp only [attempt, RaftState.start, if_pos hrole]; rfl⟩
  obtain ⟨y', c'', hc, hl, hans⟩ := h.start hstart
  rw [hs] at hc
  obtain rfl := Except.ok.inj (Option.some.inj hc)
  exact ⟨_, y', by rw [raft, hstart], hl, hans⟩

lemma Linked.exists_deliver (h : Linked x y c) (hs : step c (.deliver s) = some (.ok c')) :
    ∃ x' y' m, raft x (.deliver s, []) = some (x', some (delivery s m)) ∧ Linked x' y' c' ∧
      Answers LogService.step y (some (delivery s m)) y' := by
  obtain ⟨p, a, hlay, -⟩ := id h
  have hcode := hlay.applier_code s
  have happ : (x.cluster.servers s).applier = mapApplier dataOf (p.servers s).applier :=
    congrArg (fun d => (d.servers s).applier) hlay.bytes
  rcases hp : (p.servers s).applier with _ | m | m
  · rw [hp] at hcode
    simp only [step, hcode, mapApplier] at hs
    cases hs
  · rw [hp] at happ
    obtain ⟨x', hdeliver⟩ : ∃ x', attempt x (.deliver s, []) =
        some (.ok (x', some (delivery s (mapMsg dataOf m)))) :=
      ⟨_, by simp only [attempt, happ, mapApplier]; rfl⟩
    obtain ⟨y', c'', hc, hl, hans⟩ := h.deliver hdeliver
    rw [hs] at hc
    obtain rfl := Except.ok.inj (Option.some.inj hc)
    exact ⟨_, y', _, by rw [raft, hdeliver], hl, hans⟩
  · rw [hp] at hcode
    simp only [step, hcode, mapApplier] at hs
    cases hs

end Action

/-! ### Runs with a service -/

variable {E B : Type*}

/-- A service, with what holds of it and the log, that can take every message. What it does for
that, it does alone, and `F` says what stays as it is. -/
structure Receptive (K : Machine E B (Label n C)) (I : Service n C → E → Prop)
    (F : E → E → Prop) : Prop where
  refl : ∀ e, F e e
  trans : ∀ e e₁ e₂, F e e₁ → F e₁ e₂ → F e e₂
  quiet : ∀ y y' e, I y e → Quiet LogService.step y y' → I y' e
  deliver : ∀ y d y' e s m, I y e → LogService.step y d = some (y', some (delivery s m)) →
    ∃ e₁ b e₂, Quiet K e e₁ ∧ K e₁ b = some (e₂, some (delivery s m)) ∧ I y' e₂ ∧ F e e₂

variable [DecidableEq C]

/-- Runs of a service on Raft that nothing disturbs. -/
abbrev Continues (K : Machine E B (Label n C)) (w w' : Port n C × E) : Prop :=
  ReachesIf (joint raft K) (OnLeft fun _ act => Undisturbed act.1) w w'

variable {K : Machine E B (Label n C)} {I : Service n C → E → Prop} {F : E → E → Prop}
variable {x : Port n C} {y : Service n C} {c c' : Cluster n C} {e : E} {i : Fin n}

lemma silent_continues (h : Linked x y c) (hgo : Goes Silent c c') (K : Machine E B (Label n C))
    (e : E) : ∃ x', Continues K (x, e) (x', e) ∧ Linked x' y c' := by
  induction hgo with
  | refl => exact ⟨x, .refl, h⟩
  | tail _ hn ih =>
    obtain ⟨x₁, hr, h₁⟩ := ih
    obtain ⟨act, hact, hs⟩ := hn
    obtain ⟨x', hraft, h'⟩ :=
      Linked.silent h₁ hact (advance_eq_some_iff.mp hs)
    exact ⟨x', hr.tail ⟨.left (act, []), undisturbed_of_steady (steady_of_silent hact),
      joint_eq_some_iff.mpr (.left hraft)⟩, h'⟩

/-- **What the cluster of lists delivers, the service is delivered.** -/
theorem Receptive.continues (hK : Receptive K I F) (h : Linked x y c) (hI : I y e)
    (hgo : Goes Steady c c') :
    ∃ x' y' e', Continues K (x, e) (x', e') ∧ Linked x' y' c' ∧ I y' e' ∧ F e e' := by
  induction hgo with
  | refl => exact ⟨x, y, e, .refl, h, hI, hK.refl e⟩
  | tail _ hn ih =>
    obtain ⟨x₁, y₁, e₁, hr, h₁, hI₁, hF₁⟩ := ih
    obtain ⟨act, hact, hs⟩ := hn
    rw [advance_eq_some_iff] at hs
    by_cases hdel : ∃ s, act = .deliver s
    · obtain ⟨s, rfl⟩ := hdel
      obtain ⟨x', y', m, hraft, h', hans⟩ := Linked.exists_deliver h₁ hs
      cases hans with
      | label hq hd =>
        -- the service gets ready and takes the message
        obtain ⟨e₂, b, e', hquiet, hb, hI', hF'⟩ :=
          hK.deliver _ _ _ _ _ _ (hK.quiet _ _ _ hI₁ hq) hd
        exact ⟨x', y', e', (hr.trans (Quiet.beside hquiet raft _ x₁)).tail
          ⟨.both (.deliver s, []) b, trivial, joint_eq_some_iff.mpr (.both hraft hb)⟩, h', hI',
          hK.trans _ _ _ hF₁ hF'⟩
    · have hsilent : Silent act := by
        cases act <;> first | exact hact | exact (hdel ⟨_, rfl⟩).elim
      obtain ⟨x', hraft, h'⟩ := Linked.silent h₁ hsilent hs
      exact ⟨x', y₁, e₁, hr.tail ⟨.left (_, []), undisturbed_of_steady hact,
        joint_eq_some_iff.mpr (.left hraft)⟩, h', hI₁, hF₁⟩

lemma exists_leader (hn : 2 ≤ n) (h : Linked x y c) (K : Machine E B (Label n C)) (e : E) :
    ∃ x' c' i Q, Continues K (x, e) (x', e) ∧ Linked x' y c' ∧ Majority Q ∧ i ∈ Q ∧
      Leads c' i Q := by
  obtain ⟨c', i, Q, hgo, hQ, hi, hleads⟩ := exists_leads hn (Linked.mirrored h)
  obtain ⟨x', hr, h'⟩ := silent_continues h hgo K e
  exact ⟨x', c', i, Q, hr, h', hQ, hi, hleads⟩

/-- A command that a new leader has started comes to its service. -/
theorem Receptive.served (hK : Receptive K I F) (hn : 2 ≤ n) {c₀ : Cluster n C} (h₀ : Mirrored c₀)
    {Q : Finset (Fin n)} (hQ : Majority Q) (hi : i ∈ Q) (hleads : Leads c₀ i Q) {cmd : C}
    (hs : step c₀ (.start i cmd) = some (.ok c)) (h : Linked x y c) (hI : I y e) :
    ∃ x' y' c' e', Continues K (x, e) (x', e') ∧ Linked x' y' c' ∧ I y' e' ∧ F e e' ∧
      cmd ∈ y'.log.take (y'.pos i) := by
  obtain ⟨c', hgo, hext⟩ := extended_goes hn h₀ hQ hi hleads hs
  obtain ⟨x', y', e', hr, h', hI', hF⟩ := hK.continues h hI hgo
  refine ⟨x', y', c', e', hr, h', hI', hF, ?_⟩
  have hgo' : Goes Undisturbed c₀ c' :=
    (goes_of_step _ trivial hs).trans (hgo.mono fun _ => undisturbed_of_steady)
  obtain ⟨l, hserv, -⟩ := hext.service h₀ .refl hgo' hleads.role hleads.term
  obtain ⟨p, a, -, hlog, -⟩ := h'
  rw [← hlog.service i, hserv]
  exact List.mem_append_right _ (List.mem_singleton_self cmd)

end Mit6824.RaftServed
