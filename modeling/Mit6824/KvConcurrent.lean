import Mit6824.KvHistory

/-!
Concurrent operations of one clerk.

The servers keep one number for each client, so an operation that enters the log after a later
one of its client is taken for done. If what enters the log is in turn, every write that is
answered has been executed once.
-/

namespace Mit6824.KvConcurrent

open Mit6824.GoData Mit6824.Labgob Mit6824.Sessions Mit6824.KvServer Mit6824.KvReplay
open Mit6824.KvSystem Mit6824.KvSteps Mit6824.KvHistory Mit6824.Runs

/-- The applier executes the operation at an index of the log. -/
def ExecutedAt (log : List Op) (k : ℕ) (op : Op) : Prop :=
  log[k]? = some op ∧ ¬ (replay (log.take k)).done op.clientId op.seqNum

lemma executedAt_iff {log : List Op} {k : ℕ} {op : Op} :
    ExecutedAt log k op ↔ log[k]? = some op ∧ Fresh (log.take k) op := by
  unfold ExecutedAt
  rw [(holds_replay _).done_iff, not_not]

/-- **Answered writes are executed once.** In every run in which what enters the log is in turn,
with any number of open operations of a clerk, a write that is answered OK is executed at one index
of the log, among the commands that the answering server had applied, and at no other. The
store of every server is what the commands it has applied make. -/
theorem concurrent_exactly_once {n : ℕ} [Coded (ℕ × Data × GoMap ℕ ℕ)] (x : System n)
    (hr : ReachesIf step CommitsInTurn System.init x) :
    (∀ call ∈ x.calls, ∀ value place, call.stage = .replied ⟨.ok, value⟩ place →
      call.op.type ≠ .get →
      ∃ k < place, ExecutedAt x.log k call.op ∧ ∀ j, ExecutedAt x.log j call.op → j = k) ∧
    ∀ s, (x.servers s).kv.store = (replay (x.log.take (x.servers s).applied)).store := by
  obtain ⟨hi, ht, ho⟩ := inOrder_of_commitsInTurn hr
  refine ⟨fun call hc value place hst _ => ?_, fun s => ?_⟩
  · obtain ⟨l, hl⟩ := ht.pending call.op (Or.inr (Or.inr ⟨call, hc, rfl⟩))
    obtain ⟨k, hlt, hk, hf⟩ := exists_fresh_of_answered ht ho hl (hi.answered hc hst)
    refine ⟨k, hlt, executedAt_iff.mpr ⟨hk, hf⟩, fun j hj => ?_⟩
    obtain ⟨hj, hfj⟩ := executedAt_iff.mp hj
    exact fresh_unique hj hk rfl rfl hfj hf
  · rw [(hi.server s).store, (holds_replay _).store]

def appends : ℕ → Op
  | 0 => ⟨.append, [97], [120], 1, 1⟩
  | _ => ⟨.append, [97], [121], 2, 1⟩

/-- Both are open at the leader. The one is handled before the other, they enter the log in the
order in which they are started, and the leader answers the append with the lower number. -/
def twoAppends {n : ℕ} (leader : Fin n) (one other : ℕ) : List (Action n) := List.flatten
  [[.invoke 1 .append [97] [120], .invoke 1 .append [97] [121], .send 1 0 leader,
      .send 1 1 leader, .handle one true, .handle other true].map .act,
    [.commit 0, .commit 0],
    [.apply leader (appends one) 1, .note leader, .apply leader (appends other) 2, .wake 0,
      .answer 0].map .act]

theorem concurrent_exactly_once_in_turn :
    ∃ x : System 3, ReachesIf step CommitsInTurn System.init x ∧ (x.clerks 1).open_.length = 2 ∧
      ∃ call ∈ x.calls, call.op = ⟨.append, [97], [120], 1, 1⟩ ∧
        call.stage = .replied ⟨.ok, []⟩ 2 ∧
        ∃ k < 2, ExecutedAt x.log k call.op ∧ ∀ j, ExecutedAt x.log j call.op → j = k := by
  have hrun : (runIf step CommitsInTurn System.init (twoAppends (0 : Fin 3) 0 1)).map (fun x =>
      ((x.clerks 1).open_.length, (x.calls[0]?).map fun call => (call.op, call.stage))) =
      some (2, some (⟨.append, [97], [120], 1, 1⟩, .replied ⟨.ok, []⟩ 2)) := by
    decide +kernel
  obtain ⟨x, hx, hd⟩ := Option.map_eq_some_iff.mp hrun
  obtain ⟨hlen, hcall⟩ := Prod.mk.inj hd
  obtain ⟨call, hc, hcd⟩ := Option.map_eq_some_iff.mp hcall
  obtain ⟨hop, hst⟩ := Prod.mk.inj hcd
  have hr := reachesIf_of_runIf hx
  have hmem := List.mem_of_getElem? hc
  exact ⟨x, hr, hlen, call, hmem, hop, hst,
    (concurrent_exactly_once x hr).1 call hmem [] 2 hst (by rw [hop]; decide)⟩

/-- The second append is handled first, so it enters the log first: the first one is answered OK
and never executed. -/
theorem concurrent_append_lost :
    ∃ x : System 3, Reaches step System.init x ∧
      ∃ call ∈ x.calls, call.op.type = .append ∧ call.stage = .replied ⟨.ok, []⟩ 2 ∧
        (∀ k, ¬ ExecutedAt x.log k call.op) ∧
        (x.servers 0).kv.store = (∅ : Data).insert [97] [121] := by
  have hrun : (run step System.init (twoAppends (0 : Fin 3) 1 0)).map (fun x =>
      (x.log, (x.servers 0).kv.store,
        (x.calls[0]?).map fun call => (call.op, call.stage))) =
      some ([⟨.append, [97], [121], 2, 1⟩, ⟨.append, [97], [120], 1, 1⟩],
        (∅ : Data).insert [97] [121],
        some (⟨.append, [97], [120], 1, 1⟩, .replied ⟨.ok, []⟩ 2)) := by
    decide +kernel
  obtain ⟨x, hx, hd⟩ := Option.map_eq_some_iff.mp hrun
  obtain ⟨hlog, hd⟩ := Prod.mk.inj hd
  obtain ⟨hstore, hcall⟩ := Prod.mk.inj hd
  obtain ⟨call, hc, hcd⟩ := Option.map_eq_some_iff.mp hcall
  obtain ⟨hop, hst⟩ := Prod.mk.inj hcd
  refine ⟨x, reaches_of_run hx, call, List.mem_of_getElem? hc, by rw [hop], hst, ?_, hstore⟩
  intro k hk
  rw [executedAt_iff, hlog, hop] at hk
  obtain ⟨hk, hf⟩ := hk
  match k with
  | 0 => simp at hk
  | 1 => exact absurd hf (by decide)
  | k + 2 => simp at hk

end Mit6824.KvConcurrent
