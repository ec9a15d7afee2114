import Mit6824.KvServer

/-!
What a log of commands makes of a server.

The store is the effect of the fresh commands of the log and the number of a client is its
mark, whether the server applied the commands one by one or restored a snapshot on the way.
-/

namespace Mit6824.KvReplay

open Mit6824.GoData Mit6824.Labgob Mit6824.Sessions Mit6824.KvServer

def replay (log : List Op) : KVServer := log.foldl KVServer.applyOp boot

@[simp] lemma replay_snoc (log : List Op) (op : Op) :
    replay (log ++ [op]) = (replay log).applyOp op := by
  unfold replay
  rw [List.foldl_append, List.foldl_cons, List.foldl_nil]

def storeOf (log : List Op) : Data := (fresh log).foldl exec ∅

lemma storeOf_snoc (log : List Op) (op : Op) :
    storeOf (log ++ [op]) = if Fresh log op then exec (storeOf log) op else storeOf log := by
  unfold storeOf
  rw [fresh_snoc]
  split
  · rw [List.foldl_append, List.foldl_cons, List.foldl_nil]
  · rfl

structure Holds (log : List Op) (kv : KVServer) : Prop where
  store : kv.store = storeOf log
  mark : ∀ c, mark kv.clientsStatus c = high log c

lemma holds_boot : Holds [] boot := ⟨rfl, fun _ => rfl⟩

variable {log : List Op} {kv : KVServer}

lemma Holds.getClientStatus (h : Holds log kv) (c : ℕ) : Holds log (kv.getClientStatus c) :=
  ⟨h.store, fun c' => by rw [KVServer.getClientStatus, mark_touch, h.mark]⟩

lemma Holds.done_iff (h : Holds log kv) (op : Op) :
    kv.done op.clientId op.seqNum ↔ ¬ Fresh log op := by
  unfold KVServer.done Fresh
  rw [h.mark]
  exact Nat.not_lt.symm

lemma Holds.applyOp (h : Holds log kv) (op : Op) : Holds (log ++ [op]) (kv.applyOp op) := by
  have h' := h.getClientStatus op.clientId
  unfold KVServer.applyOp
  dsimp only
  split
  · next hdone =>
    have hold := (h'.done_iff op).mp hdone
    refine ⟨by rw [storeOf_snoc, if_neg hold]; exact h'.store, fun c => ?_⟩
    rw [h'.mark, high_snoc_of_not_fresh hold]
  · next hdone =>
    have hfresh : Fresh log op := not_not.mp fun hn => hdone ((h'.done_iff op).mpr hn)
    refine ⟨?_, fun c => ?_⟩
    · rw [storeOf_snoc, if_pos hfresh, ← h'.store]
      rfl
    · show GoData.mark (Finmap.insert op.clientId op.seqNum _) c = _
      rw [mark_insert, hfresh.high_snoc, client_eq, seq_eq, ← h'.mark]
      rfl

lemma holds_replay (log : List Op) : Holds log (replay log) := by
  induction log using List.reverseRecOn with
  | nil => exact holds_boot
  | append_singleton log op ih =>
    rw [replay_snoc]
    exact ih.applyOp op

lemma Holds.foldl (h : Holds log kv) (rest : List Op) :
    Holds (log ++ rest) (rest.foldl KVServer.applyOp kv) := by
  induction rest generalizing log kv with
  | nil => rwa [List.append_nil]
  | cons op rest ih =>
    rw [List.foldl_cons, List.append_cons]
    exact ih (h.applyOp op)

/-! ### Exactly once -/

/-- **Exactly once.** In a log in which the commands of each client occur first as `1, 2, 3, ...`,
whatever is repeated later and however the clients interleave, every prefix gives the store of
its first occurrences and numbers that count them. So `operate`, which answers at once or after
a wait but only when the command is done, answers only commands whose effect the store has. -/
theorem replay_exactly_once (log : List Op) (h : InOrder log) (p : List Op) (hp : p <+: log) :
    (replay p).store = (firsts p).foldl exec ∅ ∧
    (∀ c, mark (replay p).clientsStatus c = (numbers p c).card) ∧
    ∀ op : Op, 0 < op.seqNum → (replay p).done op.clientId op.seqNum →
      ∃ op' ∈ firsts p, op'.clientId = op.clientId ∧ op'.seqNum = op.seqNum := by
  obtain ⟨q, rfl⟩ := hp
  have hin := h.left
  have hh := holds_replay p
  refine ⟨?_, ?_, ?_⟩
  · rw [hh.store, storeOf, hin.fresh_eq_firsts]
  · intro c
    rw [hh.mark, hin.card_numbers]
  · intro op hpos hdone
    unfold KVServer.done at hdone
    rw [hh.mark] at hdone
    have hmem : op.seqNum ∈ numbers (firsts p) op.clientId := by
      rw [numbers_firsts, hin.numbers_eq, Finset.mem_Icc]
      exact ⟨hpos, hdone⟩
    exact mem_numbers.mp hmem

/-- Client `1` appends twice, client `2` once in between, and both first commands come again. -/
theorem replay_exactly_once_repeated :
    (replay [⟨.append, [97], [1], 1, 1⟩, ⟨.append, [97], [2], 1, 2⟩, ⟨.append, [97], [1], 1, 1⟩,
      ⟨.append, [97], [3], 2, 1⟩, ⟨.append, [97], [2], 1, 2⟩]).store =
        (∅ : Data).insert [97] [1, 2, 3] := by
  have hord : InOrder ([⟨.append, [97], [1], 1, 1⟩, ⟨.append, [97], [2], 1, 2⟩,
      ⟨.append, [97], [1], 1, 1⟩, ⟨.append, [97], [3], 2, 1⟩, ⟨.append, [97], [2], 1, 2⟩] :
        List Op) := by
    refine ((((inOrder_nil.snoc ?_).snoc ?_).snoc ?_).snoc ?_).snoc ?_ <;> decide
  rw [(replay_exactly_once _ hord _ List.prefix_rfl).1]
  decide

/-! ### Snapshots -/

section

variable [Coded (ℕ × Data × GoMap ℕ ℕ)]

/-- What a server can be after the commands of a log: its handlers make statuses of clients, and
it may have restored snapshots that other servers took on the way. -/
inductive ReplicaOf : List Op → KVServer → Prop
  | boot : ReplicaOf [] boot
  | handler {log : List Op} {kv : KVServer} (c : ℕ) :
      ReplicaOf log kv → ReplicaOf log (kv.getClientStatus c)
  | applyOp {log : List Op} {kv : KVServer} (op : Op) :
      ReplicaOf log kv → ReplicaOf (log ++ [op]) (kv.applyOp op)
  | applySnap {log rest : List Op} {kv kv' kv'' : KVServer} :
      ReplicaOf log kv → ReplicaOf (log ++ rest) kv' →
      kv.applySnap (kv'.snapshot (log ++ rest).length) (log ++ rest).length = .ok kv'' →
      ReplicaOf (log ++ rest) kv''

/-- **Restoring a snapshot**: no number of a server is above the one of a longer log, so the
numbers that the snapshot does not have are zero. -/
lemma Holds.applySnap {rest : List Op} {kv' : KVServer} (h : Holds log kv)
    (h' : Holds (log ++ rest) kv') (k : ℕ) :
    ∃ kv'', kv.applySnap (kv'.snapshot k) k = .ok kv'' ∧ Holds (log ++ rest) kv'' := by
  refine ⟨{ store := kv'.store, clientsStatus := kv'.clientsStatus ∪ kv.clientsStatus }, ?_,
    h'.store, fun c => ?_⟩
  · unfold KVServer.applySnap
    rw [decodeSnap_snapshot]
    rfl
  · rw [mark_union]
    split
    · exact h'.mark c
    · next hc =>
      have h0 : high (log ++ rest) c = 0 := by rw [← h'.mark, mark_of_notMem hc]
      have hle := high_le_append log rest c
      rw [h.mark, h0]
      omega

lemma ReplicaOf.holds (h : ReplicaOf log kv) : Holds log kv := by
  induction h with
  | boot => exact holds_boot
  | handler c _ ih => exact ih.getClientStatus c
  | applyOp op _ ih => exact ih.applyOp op
  | applySnap _ _ hs ih ih' =>
    obtain ⟨kv₁, hs₁, hh⟩ := ih.applySnap ih' _
    rw [hs] at hs₁
    obtain rfl := Except.ok.inj hs₁
    exact hh

/-- **Snapshots are transparent.** A server after `j` commands of a log that restores the
snapshot which another took after `k ≥ j` commands, and then applies the rest, has the store and
the numbers of the whole log and takes every later command for done or not as if it had applied
the whole log. -/
theorem applySnap_transparent (log : List Op) (j k : ℕ) (hjk : j ≤ k) (kv kv' : KVServer)
    (hkv : ReplicaOf (log.take j) kv) (hkv' : ReplicaOf (log.take k) kv') :
    ∃ kv'', kv.applySnap (kv'.snapshot k) k = .ok kv'' ∧
      ((log.drop k).foldl KVServer.applyOp kv'').store = (replay log).store ∧
      (∀ c, mark ((log.drop k).foldl KVServer.applyOp kv'').clientsStatus c =
        mark (replay log).clientsStatus c) ∧
      ∀ op : Op, ((log.drop k).foldl KVServer.applyOp kv'').done op.clientId op.seqNum ↔
        (replay log).done op.clientId op.seqNum := by
  have hsplit : log.take j ++ (log.drop j).take (k - j) = log.take k := by
    rw [← List.take_add, Nat.add_sub_cancel' hjk]
  obtain ⟨kv'', hs, hh⟩ := hkv.holds.applySnap (hsplit.symm ▸ hkv'.holds) k
  have hall := hh.foldl (log.drop k)
  rw [hsplit, List.take_append_drop] at hall
  have hrep := holds_replay log
  refine ⟨kv'', hs, hall.store.trans hrep.store.symm, fun c => ?_, fun op => ?_⟩
  · rw [hall.mark, hrep.mark]
  · rw [hall.done_iff, hrep.done_iff]

end

/-- A server that has restarted restores a snapshot of two commands, one of which is repeated
later. -/
theorem applySnap_transparent_restart :
    ∃ kv'' : KVServer, boot.applySnap
        ((replay [⟨.append, [97], [1], 1, 1⟩, ⟨.append, [97], [2], 2, 1⟩]).snapshot 2) 2 =
          .ok kv'' ∧
      ((kv''.applyOp ⟨.append, [97], [1], 1, 1⟩).applyOp ⟨.append, [97], [3], 3, 1⟩).store =
        (∅ : Data).insert [97] [1, 2, 3] := by
  obtain ⟨kv'', hs, hstore, -⟩ := applySnap_transparent
    [⟨.append, [97], [1], 1, 1⟩, ⟨.append, [97], [2], 2, 1⟩, ⟨.append, [97], [1], 1, 1⟩,
      ⟨.append, [97], [3], 3, 1⟩] 0 2 (by decide) boot _ .boot
    ((ReplicaOf.boot.applyOp ⟨.append, [97], [1], 1, 1⟩).applyOp ⟨.append, [97], [2], 2, 1⟩)
  exact ⟨kv'', hs, hstore.trans (by decide)⟩

end Mit6824.KvReplay
