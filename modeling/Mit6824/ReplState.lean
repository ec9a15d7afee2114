import Mathlib.Logic.Relation
import Mit6824.Quorum
import Mit6824.TermLog

/-!
A replicated log kept by elected leaders: the protocol without its messages.

Every server has a current term and a log. A candidate that collects the votes of a majority
becomes the leader of its term, and from then on the log of that term is a value of its own:
it only grows, and it outlives the leader. The other servers of the term copy prefixes of it,
drop entries that conflict with it, and acknowledge prefixes they share with it. A server may
forget the vote it gave itself once its term has a leader, and may have compacted a prefix of
its log.

What a run did is part of the state: the votes cast, the log each candidate stood with, the
leader of each term with its log and the length that log had at the election, and the longest
prefix each server acknowledged in each term.
-/

namespace Mit6824.Repl

open Mit6824.Quorum Mit6824.TermLog Function

structure State (S E : Type*) where
  /-- The current term. -/
  term : S → ℕ
  /-- The candidate a server holds its vote for. -/
  held : S → Option S
  /-- The server stands for election in its current term. -/
  cand : S → Prop
  /-- The whole log, compacted entries included. -/
  log : S → List E
  /-- How much of the log is compacted. -/
  snap : S → ℕ
  /-- The leader elected in a term. -/
  lead : ℕ → Option S
  /-- The log of the leader of a term. -/
  llog : ℕ → List E
  /-- The length of that log at the election. -/
  base : ℕ → ℕ
  /-- The length of the longest prefix acknowledged by a server in a term. -/
  ack : S → ℕ → ℕ
  /-- The votes ever cast: voter, term, candidate. -/
  vote : S → ℕ → S → Prop
  /-- The log with which a candidate stood in a term. -/
  clog : ℕ → S → List E

variable {S E : Type*}

def State.init : State S E where
  term := fun _ => 0
  held := fun _ => none
  cand := fun _ => False
  log := fun _ => []
  snap := fun _ => 0
  lead := fun _ => none
  llog := fun _ => []
  base := fun _ => 0
  ack := fun _ _ => 0
  vote := fun _ _ _ => False
  clog := fun _ _ => []

def Elected (a : State S E) (t : ℕ) : Prop := ∃ L, a.lead t = some L

/-! ### The operations -/

variable [DecidableEq S]

def bump (a : State S E) (s : S) (t : ℕ) : State S E :=
  { a with
    term := update a.term s t
    held := update a.held s none
    cand := update a.cand s False }

def yield (a : State S E) (s : S) : State S E :=
  { a with
    held := update a.held s none
    cand := update a.cand s False }

def retire (a : State S E) (s : S) : State S E :=
  { a with cand := update a.cand s False }

def campaign (a : State S E) (s : S) : State S E :=
  { a with
    term := update a.term s (a.term s + 1)
    held := update a.held s (some s)
    cand := update a.cand s True
    vote := fun v t c => a.vote v t c ∨ (v = s ∧ t = a.term s + 1 ∧ c = s)
    clog := fun t c => if t = a.term s + 1 ∧ c = s then a.log s else a.clog t c }

def grant (a : State S E) (v c : S) : State S E :=
  { a with
    held := update a.held v (some c)
    vote := fun v' t c' => a.vote v' t c' ∨ (v' = v ∧ t = a.term v ∧ c' = c) }

def elect (a : State S E) (c : S) : State S E :=
  { a with
    cand := update a.cand c False
    lead := update a.lead (a.term c) (some c)
    llog := update a.llog (a.term c) (a.log c)
    base := update a.base (a.term c) (a.log c).length
    ack := fun s t => if s = c ∧ t = a.term c then (a.log c).length else a.ack s t }

section Elect

variable {a : State S E} {c s : S} {t : ℕ}

@[simp] lemma lead_elect_self : (elect a c).lead (a.term c) = some c := update_self ..

lemma lead_elect_of_ne (ht : t ≠ a.term c) : (elect a c).lead t = a.lead t := update_of_ne ht ..

@[simp] lemma llog_elect_self : (elect a c).llog (a.term c) = a.log c := update_self ..

lemma llog_elect_of_ne (ht : t ≠ a.term c) : (elect a c).llog t = a.llog t := update_of_ne ht ..

@[simp] lemma base_elect_self : (elect a c).base (a.term c) = (a.log c).length := update_self ..

lemma base_elect_of_ne (ht : t ≠ a.term c) : (elect a c).base t = a.base t := update_of_ne ht ..

lemma ack_elect_of_ne (hst : ¬ (s = c ∧ t = a.term c)) : (elect a c).ack s t = a.ack s t :=
  if_neg hst

lemma elected_elect_iff (ht : t ≠ a.term c) : Elected (elect a c) t ↔ Elected a t := by
  simp only [Elected, lead_elect_of_ne ht]

end Elect

def propose (a : State S E) (L : S) (e : E) : State S E :=
  { a with
    log := update a.log L (a.log L ++ [e])
    llog := update a.llog (a.term L) (a.llog (a.term L) ++ [e])
    ack := fun s t => if s = L ∧ t = a.term L then (a.log L).length + 1 else a.ack s t }

section Propose

variable {a : State S E} {L s : S} {e : E} {t : ℕ}

@[simp] lemma log_propose_self : (propose a L e).log L = a.log L ++ [e] := update_self ..

lemma log_propose_of_ne (hs : s ≠ L) : (propose a L e).log s = a.log s := update_of_ne hs ..

@[simp] lemma llog_propose_self :
    (propose a L e).llog (a.term L) = a.llog (a.term L) ++ [e] := update_self ..

lemma llog_propose_of_ne (ht : t ≠ a.term L) : (propose a L e).llog t = a.llog t :=
  update_of_ne ht ..

lemma log_le_propose (s : S) : a.log s <+: (propose a L e).log s := by
  by_cases hs : s = L
  · subst hs; simp
  · rw [log_propose_of_ne hs]

lemma llog_le_propose (t : ℕ) : a.llog t <+: (propose a L e).llog t := by
  by_cases ht : t = a.term L
  · subst ht; simp
  · rw [llog_propose_of_ne ht]

@[simp] lemma ack_propose_self : (propose a L e).ack L (a.term L) = (a.log L).length + 1 :=
  if_pos ⟨rfl, rfl⟩

lemma ack_propose_of_ne (hst : ¬ (s = L ∧ t = a.term L)) :
    (propose a L e).ack s t = a.ack s t :=
  if_neg hst

end Propose

def setLog (a : State S E) (s : S) (l : List E) : State S E :=
  { a with log := update a.log s l }

@[simp] lemma log_setLog (a : State S E) (s : S) (l : List E) : (setLog a s l).log s = l :=
  update_self ..

def acknowledge (a : State S E) (s : S) (k : ℕ) : State S E :=
  { a with ack := fun s' t => if s' = s ∧ t = a.term s then max (a.ack s' t) k else a.ack s' t }

def compact (a : State S E) (s : S) (k : ℕ) : State S E :=
  { a with snap := update a.snap s k }

variable [Fintype S] [Termed E]

inductive Step (a : State S E) : State S E → Prop
  | bump (s : S) (t : ℕ) (h : a.term s < t) : Step a (bump a s t)
  | yield (s : S) (hc : a.cand s) (he : Elected a (a.term s)) : Step a (yield a s)
  | retire (s : S) : Step a (retire a s)
  | campaign (s : S) : Step a (campaign a s)
  | grant (v c : S) (hheld : a.held v = none ∨ a.held v = some c) (hv : ¬ a.cand v)
      (hc : a.vote c (a.term v) c) (hu : UpToDate (a.clog (a.term v) c) (a.log v)) :
      Step a (grant a v c)
  | elect (c : S) (Q : Finset S) (hc : a.cand c) (hQ : Majority Q)
      (hv : ∀ v ∈ Q, a.vote v (a.term c) c) : Step a (elect a c)
  | propose (L : S) (e : E) (hl : a.lead (a.term L) = some L) (he : term e = a.term L) :
      Step a (propose a L e)
  /-- The server drops entries from a conflict with the leader's log on, or from the entry
  after the conflicting one on. -/
  | cut (s : S) (p m : ℕ) (he : Elected a (a.term s)) (hs : a.lead (a.term s) ≠ some s)
      (hc : ¬ a.cand s) (hpm : p ≤ m + 1)
      (hne : termAt (a.log s) p ≠ termAt (a.llog (a.term s)) p) :
      Step a (setLog a s ((a.log s).take m))
  /-- The server replaces its log by a prefix of the leader's that keeps what they share. -/
  | adopt (s : S) (m : ℕ) (he : Elected a (a.term s)) (hs : a.lead (a.term s) ≠ some s)
      (hc : ¬ a.cand s)
      (hkeep : ∀ l, l <+: a.llog (a.term s) → l <+: a.log s → l.length ≤ m) :
      Step a (setLog a s ((a.llog (a.term s)).take m))
  | acknowledge (s : S) (l : List E) (he : Elected a (a.term s))
      (hl : l <+: a.llog (a.term s)) (hs : l <+: a.log s) : Step a (acknowledge a s l.length)
  | compact (s : S) (k : ℕ) (h : a.snap s ≤ k) : Step a (compact a s k)

def Reach : State S E → State S E → Prop := Relation.ReflTransGen Step

end Mit6824.Repl
