import Mathlib.Data.Option.Basic
import Mathlib.Logic.Function.Basic
import Mit6824.Compose

/-!
A replicated log as a service.

There is one log, and it only grows, by commands that were started and accepted. Every server is
delivered the commands of the log one after the other, or is brought further by a snapshot that
some server made of what it had been delivered. A server that restarts begins with the log again.
-/

namespace Mit6824.LogService

open Mit6824.Compose Function

variable {N C B : Type}

structure State (N C B : Type) where
  log : List C
  /-- The commands that were accepted and are not in the log. -/
  started : List C
  snapshots : List (ℕ × B)
  /-- How much of the log each server has been delivered. -/
  pos : N → ℕ

def State.init : State N C B := ⟨[], [], [], fun _ => 0⟩

/-- What the servers see of the service. -/
inductive Label (N C B : Type)
  | start (s : N) (command : C) (accepted : Bool)
  | command (s : N) (command : C) (index : ℕ)
  | restore (s : N) (data : B) (index : ℕ)
  | snapshot (s : N) (index : ℕ) (data : B)
  | restart (s : N)
  deriving DecidableEq

inductive Action (N C B : Type)
  | start (s : N) (command : C) (accepted : Bool)
  | commit (i : ℕ)
  | command (s : N)
  | restore (s : N) (i : ℕ)
  | snapshot (s : N) (index : ℕ) (data : B)
  | restart (s : N)

variable [DecidableEq N]

def step (x : State N C B) : Action N C B → Option (State N C B × Option (Label N C B))
  | .start s c accepted =>
    some ({ x with started := if accepted then x.started ++ [c] else x.started },
      some (.start s c accepted))
  | .commit i => do
    let c ← x.started[i]?
    return ({ x with log := x.log ++ [c], started := x.started.eraseIdx i }, none)
  | .command s => do
    let c ← x.log[x.pos s]?
    return ({ x with pos := update x.pos s (x.pos s + 1) }, some (.command s c (x.pos s + 1)))
  | .restore s i => do
    let (index, data) ← x.snapshots[i]?
    guard (x.pos s < index)
    return ({ x with pos := update x.pos s index }, some (.restore s data index))
  | .snapshot s index data => do
    guard (index ≤ x.pos s)
    return ({ x with snapshots := x.snapshots ++ [(index, data)] }, some (.snapshot s index data))
  | .restart s => some ({ x with pos := update x.pos s 0 }, some (.restart s))

@[grind intro]
inductive Steps (x : State N C B) : Option (Label N C B) → State N C B → Prop
  | start (s : N) (c : C) (accepted : Bool) : Steps x (some (.start s c accepted))
      { x with started := if accepted then x.started ++ [c] else x.started }
  | commit {i : ℕ} {c : C} (h : x.started[i]? = some c) : Steps x none
      { x with log := x.log ++ [c], started := x.started.eraseIdx i }
  | command {s : N} {c : C} (h : x.log[x.pos s]? = some c) :
      Steps x (some (.command s c (x.pos s + 1))) { x with pos := update x.pos s (x.pos s + 1) }
  | restore {s : N} {i index : ℕ} {data : B} (h : x.snapshots[i]? = some (index, data))
      (hlt : x.pos s < index) : Steps x (some (.restore s data index))
        { x with pos := update x.pos s index }
  | snapshot {s : N} {index : ℕ} {data : B} (h : index ≤ x.pos s) :
      Steps x (some (.snapshot s index data))
        { x with snapshots := x.snapshots ++ [(index, data)] }
  | restart (s : N) : Steps x (some (.restart s)) { x with pos := update x.pos s 0 }

lemma exists_step_iff {x y : State N C B} {l : Option (Label N C B)} :
    (∃ act, step x act = some (y, l)) ↔ Steps x l y := by
  constructor
  · rintro ⟨act, hs⟩
    cases act <;> grind [step, Option.bind_eq_bind, Option.bind_eq_some_iff,
      Option.guard_eq_some', Option.pure_def]
  · intro hs
    cases hs with
    | start s c accepted => exact ⟨.start s c accepted, rfl⟩
    | @commit i c hc => exact ⟨.commit i, by simp [step, hc]⟩
    | @command s c hc => exact ⟨.command s, by simp [step, hc]⟩
    | @restore s i index data hi hlt => exact ⟨.restore s i, by simp [step, hi, hlt, guard]⟩
    | @snapshot s index data hle => exact ⟨.snapshot s index data, by simp [step, hle, guard]⟩
    | restart s => exact ⟨.restart s, rfl⟩

lemma steps_of_step {x y : State N C B} {act : Action N C B} {l : Option (Label N C B)}
    (hs : step x act = some (y, l)) : Steps x l y := exists_step_iff.mp ⟨act, hs⟩

end Mit6824.LogService
