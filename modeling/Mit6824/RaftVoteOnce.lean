import Mit6824.RaftSafety
import Mit6824.RaftSteps

/-!
One vote per term.

A candidate that hears from the leader of its own term steps down by `stepDown`, which forgets
the vote it gave itself; a server that does not do that keeps its vote for the term.
-/

namespace Mit6824.RaftVoteOnce

open Mit6824.Labgob Mit6824.RaftLog Mit6824.RaftState Mit6824.RaftElection
open Mit6824.RaftReplication Mit6824.RaftApplier Mit6824.RaftCluster Mit6824.RaftSim
open Mit6824.RaftSafety Mit6824.RaftSteps Mit6824.Runs Function

variable {n : ℕ} {C : Type}

instance (c : Cluster n C) (act : Action n C) : Decidable (NoYield c act) :=
  inferInstanceAs (Decidable (∀ p ∈ hearing c act, _))

/-- The later server is in a higher term, or has the vote of the earlier one. -/
def Sticks (rf rf' : Raft n C) : Prop :=
  rf.currentTerm < rf'.currentTerm ∨ (rf'.currentTerm = rf.currentTerm ∧
    ∀ x, rf.votedFor = some x → rf'.votedFor = some x)

lemma Sticks.refl (rf : Raft n C) : Sticks rf rf := Or.inr ⟨rfl, fun _ h => h⟩

lemma Sticks.trans {rf rf₁ rf₂ : Raft n C} (h : Sticks rf rf₁) (h' : Sticks rf₁ rf₂) :
    Sticks rf rf₂ := by
  rcases h with hlt | ⟨heq, hv⟩ <;> rcases h' with hlt' | ⟨heq', hv'⟩
  · exact Or.inl (hlt.trans hlt')
  · exact Or.inl (heq'.symm ▸ hlt)
  · exact Or.inl (heq ▸ hlt')
  · exact Or.inr ⟨heq'.trans heq, fun x hx => hv' x (hv x hx)⟩

lemma sticks_of_worked {Y : Prop} {rf rf' : Raft n C} (h : Worked Y rf rf') (hY : ¬ Y) :
    Sticks rf rf' := by
  rcases h.vote with hlt | ⟨heq, hv⟩
  · exact Or.inl hlt
  · exact Or.inr ⟨heq, fun x hx => (hv x hx).resolve_right hY⟩

lemma sticks_recordApplied (rf : Raft n C) (m : ApplyMsg C) :
    Sticks rf (recordApplied rf m) := by
  refine Or.inr ?_
  cases m <;> simp only [recordApplied] <;> split <;> exact ⟨rfl, fun _ h => h⟩

variable [Coded (Persisted n C)] [Inhabited C] [Coded (List C)] {c c₁ c₂ : Cluster n C}

omit [Coded (Persisted n C)] [Coded (List C)] in
/-- An action that makes no candidate yield leaves every vote in place. A restart does, too: the
vote was saved. -/
lemma sticks_of_moved {act : Action n C} {s : Fin n} {sv : Server n C} {ds : List (Delivery n C)}
    (hN : NoYield c act) (h : Moved c act s sv ds) : Sticks (c.servers s).raft sv.raft := by
  cases h with
  | worked h => exact sticks_of_worked h (not_not.mpr hN)
  | choose _ => exact Sticks.refl _
  | deliver _ => exact Sticks.refl _
  | record _ => exact sticks_recordApplied _ _
  | restart h => exact (sticks_of_worked h (not_not.mpr hN)).trans (Or.inr ⟨rfl, fun _ h => h⟩)

lemma sticks_of_reachesIf (h₀ : Reaches advance Cluster.init c₁)
    (h : ReachesIf advance NoYield c₁ c₂)
    (s : Fin n) : Sticks (c₁.servers s).raft (c₂.servers s).raft := by
  refine h.rel (R := fun d d' => Sticks (d.servers s).raft (d'.servers s).raft) h₀
    (fun _ => Sticks.refl _) (fun _ _ _ => Sticks.trans) ?_
  intro d act d' hd hN hstep
  obtain ⟨a, ha⟩ := exists_sim hd
  rcases (step_movesTo ha (advance_eq_some_iff.mp hstep)).server s with heq | ⟨ds, hm⟩
  · rw [heq]
    exact Sticks.refl _
  · exact sticks_of_moved hN hm

/-- **One vote per term.** In a run where no candidate handles an `AppendEntries` or an
`InstallSnapshot` of its own term, a server that has voted in a term, for itself or for another,
never has its vote on a different candidate in that term. -/
theorem one_vote_per_term (h₁ : ReachesIf advance NoYield (Cluster.init : Cluster n C) c₁)
    (h₂ : ReachesIf advance NoYield c₁ c₂) (s x y : Fin n)
    (ht : (c₁.servers s).raft.currentTerm = (c₂.servers s).raft.currentTerm)
    (hx : (c₁.servers s).raft.votedFor = some x) (hy : (c₂.servers s).raft.votedFor = some y) :
    x = y := by
  rcases sticks_of_reachesIf h₁.reaches h₂ s with hlt | ⟨-, hv⟩
  · omega
  · exact Option.some.inj ((hv x hx).symm.trans hy)

/-- Server `1` votes for server `0` and later hears from it. -/
theorem one_vote_per_term_follower :
    ∃ c₁ c₂ : Cluster 3 ℕ, ReachesIf advance NoYield Cluster.init c₁ ∧
      ReachesIf advance NoYield c₁ c₂ ∧
      (c₁.servers 1).raft.votedFor = some 0 ∧
      ∃ y, (c₂.servers 1).raft.votedFor = some y ∧ 0 = y := by
  have hrun : ((runIf advance NoYield Cluster.init election).bind fun c₁ =>
      (runIf advance NoYield c₁ replication).map fun c₂ =>
        ((c₁.servers 1).raft.currentTerm, (c₁.servers 1).raft.votedFor,
          (c₂.servers 1).raft.currentTerm, (c₂.servers 1).raft.votedFor)) =
      some (1, some 0, 1, some 0) := by
    decide +kernel
  obtain ⟨c₁, hc₁, hrun⟩ := Option.bind_eq_some_iff.mp hrun
  obtain ⟨c₂, hc₂, hd⟩ := Option.map_eq_some_iff.mp hrun
  simp only [Prod.mk.injEq] at hd
  obtain ⟨ht₁, hv₁, ht₂, hv₂⟩ := hd
  have h₁ := reachesIf_of_runIf hc₁
  have h₂ := reachesIf_of_runIf hc₂
  exact ⟨c₁, c₂, h₁, h₂, hv₁, 0, hv₂,
    one_vote_per_term h₁ h₂ 1 0 0 (ht₁.trans ht₂.symm) hv₁ hv₂⟩

/-- A candidate votes for itself and then, in the same term, for the leader it has heard from. -/
theorem two_votes_in_one_term :
    ∃ c₁ c₂ : Cluster 3 ℕ, Reaches advance Cluster.init c₁ ∧ Reaches advance c₁ c₂ ∧
      (c₁.servers 0).raft.currentTerm = 1 ∧ (c₁.servers 0).raft.votedFor = some 0 ∧
      (c₂.servers 0).raft.currentTerm = 1 ∧ (c₂.servers 0).raft.votedFor = some 1 := by
  have hrun : ((run advance Cluster.init [.leaderElection 0]).bind fun c₁ =>
      (run advance c₁ overtaken).map fun c₂ =>
        ((c₁.servers 0).raft.currentTerm, (c₁.servers 0).raft.votedFor,
          (c₂.servers 0).raft.currentTerm, (c₂.servers 0).raft.votedFor)) =
      some (1, some 0, 1, some 1) := by
    decide +kernel
  obtain ⟨c₁, hc₁, hrun⟩ := Option.bind_eq_some_iff.mp hrun
  obtain ⟨c₂, hc₂, hd⟩ := Option.map_eq_some_iff.mp hrun
  simp only [Prod.mk.injEq] at hd
  exact ⟨c₁, c₂, reaches_of_run hc₁, reaches_of_run hc₂, hd⟩

end Mit6824.RaftVoteOnce
