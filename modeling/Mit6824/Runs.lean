import Mathlib.Logic.Relation
import Mathlib.Tactic.Common

/-!
Runs of a machine given by a partial step function, the runs whose steps all meet a condition,
and the rules that carry a property along them.
-/

namespace Mit6824.Runs

variable {S A : Type*} (step : S → A → Option S)

def NextIf (P : S → A → Prop) (s s' : S) : Prop := ∃ act, P s act ∧ step s act = some s'

/-- Runs whose actions all meet a condition. -/
def ReachesIf (P : S → A → Prop) : S → S → Prop := Relation.ReflTransGen (NextIf step P)

def Reaches : S → S → Prop := ReachesIf step fun _ _ => True

/-- Takes the actions one after the other, as long as they meet a condition. -/
def runIf (P : S → A → Prop) [∀ s act, Decidable (P s act)] (s : S) : List A → Option S
  | [] => some s
  | act :: acts =>
    if P s act then
      match step s act with
      | some s' => runIf P s' acts
      | none => none
    else none

def run (s : S) (acts : List A) : Option S := runIf step (fun _ _ => True) s acts

variable {step} {P : S → A → Prop} {s s' : S}

/-- **What every step keeps, a run keeps.** -/
theorem ReachesIf.inv {I : S → Prop} (h : ReachesIf step P s s') (h₀ : I s)
    (hstep : ∀ s act s', I s → P s act → step s act = some s' → I s') : I s' := by
  induction h with
  | refl => exact h₀
  | tail _ hn ih =>
    obtain ⟨act, hP, hs⟩ := hn
    exact hstep _ act _ ih hP hs

/-- **Simulation.** If every step leaves the abstract state alone or is a step of the abstract
machine, a run is a run of the abstract machine. -/
theorem ReachesIf.sim {T E : Type*} {stepT : T → E → Option T} {R : T → E → Prop} {I : S → Prop}
    (abs : S → T) (h : ReachesIf step P s s') (h₀ : I s)
    (hstep : ∀ s act s', I s → P s act → step s act = some s' → I s' ∧
      (abs s' = abs s ∨ ∃ ev, R (abs s) ev ∧ stepT (abs s) ev = some (abs s'))) :
    I s' ∧ ReachesIf stepT R (abs s) (abs s') := by
  induction h with
  | refl => exact ⟨h₀, .refl⟩
  | tail _ hn ih =>
    obtain ⟨act, hP, hs⟩ := hn
    obtain ⟨hI, habs | ⟨ev, hR, hev⟩⟩ := hstep _ act _ ih.1 hP hs
    · exact ⟨hI, habs ▸ ih.2⟩
    · exact ⟨hI, ih.2.tail ⟨ev, hR, hev⟩⟩

lemma ReachesIf.mono {Q : S → A → Prop} (h : ReachesIf step P s s')
    (hPQ : ∀ s act, P s act → Q s act) : ReachesIf step Q s s' :=
  Relation.ReflTransGen.mono (fun _ _ ⟨act, hP, hs⟩ => ⟨act, hPQ _ act hP, hs⟩) _ _ h

lemma ReachesIf.reaches (h : ReachesIf step P s s') : Reaches step s s' :=
  h.mono fun _ _ _ => trivial

/-- **What holds across every step holds across a run**, also if the steps have to start where a
run can have come to. -/
theorem ReachesIf.rel {R : S → S → Prop} {s₀ : S} (h : ReachesIf step P s s')
    (h₀ : Reaches step s₀ s) (hrefl : ∀ s, R s s) (htrans : ∀ s t u, R s t → R t u → R s u)
    (hstep : ∀ s act s', Reaches step s₀ s → P s act → step s act = some s' → R s s') :
    R s s' := by
  induction h with
  | refl => exact hrefl s
  | tail hr hn ih =>
    obtain ⟨act, hP, hs⟩ := hn
    exact htrans _ _ _ ih (hstep _ act _ (h₀.trans (ReachesIf.reaches hr)) hP hs)

/-- **Forward simulation.** If every step from related states is answered by a run to related
states, a run is answered by a run. -/
theorem ReachesIf.forward {T E : Type*} {stepT : T → E → Option T} {Q : T → E → Prop}
    {R : S → T → Prop} {t : T} (h : ReachesIf step P s s') (h₀ : R s t)
    (hstep : ∀ s act s' t, R s t → P s act → step s act = some s' →
      ∃ t', R s' t' ∧ ReachesIf stepT Q t t') :
    ∃ t', R s' t' ∧ ReachesIf stepT Q t t' := by
  induction h with
  | refl => exact ⟨t, h₀, .refl⟩
  | tail _ hn ih =>
    obtain ⟨t₁, hR, hr⟩ := ih
    obtain ⟨act, hP, hs⟩ := hn
    obtain ⟨t', hR', hr'⟩ := hstep _ act _ _ hR hP hs
    exact ⟨t', hR', hr.trans hr'⟩

lemma reachesIf_of_runIf [∀ s act, Decidable (P s act)] {acts : List A}
    (h : runIf step P s acts = some s') : ReachesIf step P s s' := by
  induction acts generalizing s with
  | nil =>
    obtain rfl := Option.some.inj h
    exact .refl
  | cons act acts ih =>
    rw [runIf] at h
    split at h
    · next hP =>
      split at h
      · next s₁ hs => exact .head ⟨act, hP, hs⟩ (ih h)
      · simp at h
    · simp at h

lemma reaches_of_run {acts : List A} (h : run step s acts = some s') : Reaches step s s' :=
  reachesIf_of_runIf h

end Mit6824.Runs
