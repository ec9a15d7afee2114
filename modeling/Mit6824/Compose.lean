import Mit6824.Runs

/-!
Machines that take steps together.

A step of a machine has a label if the environment takes part in it. Two machines run side by
side: a step without a label is a step of one of them alone, a step with a label is one of both.
A machine that answers every step of another one, label by label, can take its place beside any
third machine.
-/

namespace Mit6824.Compose

open Mit6824.Runs

variable {S T E A D B L : Type*}

/-- A machine whose steps may have a label. -/
abbrev Machine (S A L : Type*) := S → A → Option (S × Option L)

/-- An action of one of two machines, or of both. -/
inductive Joint (A B : Type*)
  | left (a : A)
  | right (b : B)
  | both (a : A) (b : B)

def joint [DecidableEq L] (M : Machine S A L) (K : Machine E B L) (w : S × E) :
    Joint A B → Option (S × E)
  | .left a =>
    match M w.1 a with
    | some (s, none) => some (s, w.2)
    | _ => none
  | .right b =>
    match K w.2 b with
    | some (e, none) => some (w.1, e)
    | _ => none
  | .both a b =>
    match M w.1 a, K w.2 b with
    | some (s, some l), some (e, some l') => if l = l' then some (s, e) else none
    | _, _ => none

/-- What two machines do side by side. -/
inductive Steps (M : Machine S A L) (K : Machine E B L) (w : S × E) : Joint A B → S × E → Prop
  | left {a : A} {s : S} (h : M w.1 a = some (s, none)) : Steps M K w (.left a) (s, w.2)
  | right {b : B} {e : E} (h : K w.2 b = some (e, none)) : Steps M K w (.right b) (w.1, e)
  | both {a : A} {b : B} {s : S} {e : E} {l : L} (h : M w.1 a = some (s, some l))
      (h' : K w.2 b = some (e, some l)) : Steps M K w (.both a b) (s, e)

lemma joint_eq_some_iff [DecidableEq L] {M : Machine S A L} {K : Machine E B L} {w w' : S × E}
    {act : Joint A B} : joint M K w act = some w' ↔ Steps M K w act w' := by
  constructor
  · intro h
    cases act with
    | left a =>
      simp only [joint] at h
      split at h
      · next s hs =>
        obtain rfl := Option.some.inj h
        exact .left hs
      · cases h
    | right b =>
      simp only [joint] at h
      split at h
      · next e he =>
        obtain rfl := Option.some.inj h
        exact .right he
      · cases h
    | both a b =>
      simp only [joint] at h
      split at h
      · next s l e l' hs he =>
        split at h
        · next heq =>
          obtain rfl := Option.some.inj h
          exact .both hs (heq ▸ he)
        · cases h
      · cases h
  · rintro (h | h | ⟨h, h'⟩)
    · simp only [joint, h]
    · simp only [joint, h]
    · simp only [joint, h, h', if_true]

def OnRight (P : E → B → Prop) (w : S × E) : Joint A B → Prop
  | .left _ => True
  | .right b => P w.2 b
  | .both _ b => P w.2 b

instance (P : E → B → Prop) [∀ e b, Decidable (P e b)] (w : S × E) :
    ∀ act : Joint A B, Decidable (OnRight P w act)
  | .left _ => inferInstanceAs (Decidable True)
  | .right b => inferInstanceAs (Decidable (P w.2 b))
  | .both _ b => inferInstanceAs (Decidable (P w.2 b))

def OnLeft (P : S → A → Prop) (w : S × E) : Joint A B → Prop
  | .left a => P w.1 a
  | .right _ => True
  | .both a _ => P w.1 a

/-! ### Simulation -/

/-- Steps without a label. -/
def Quiet (N : Machine T D L) : T → T → Prop :=
  Relation.ReflTransGen fun t t' => ∃ d, N t d = some (t', none)

/-- Steps without a label, and then one with the label if there is one. -/
inductive Answers (N : Machine T D L) (t : T) : Option L → T → Prop
  | quiet {t' : T} (h : Quiet N t t') : Answers N t none t'
  | label {t₁ t' : T} {d : D} {l : L} (h : Quiet N t t₁) (h' : N t₁ d = some (t', some l)) :
      Answers N t (some l) t'

/-- The second machine answers every step of the first and stays related to it. -/
def Simulates (M : Machine S A L) (N : Machine T D L) (R : S → T → Prop) : Prop :=
  ∀ s t a s' l, R s t → M s a = some (s', l) → ∃ t', R s' t' ∧ Answers N t l t'

variable {M : Machine S A L} {N : Machine T D L} {K : Machine E B L} {R : S → T → Prop}
variable {P : E → B → Prop} {s s' : S} {t t' : T} {e : E}

section Joint

variable [DecidableEq L]

lemma Quiet.joint (h : Quiet N t t') (K : Machine E B L) (P : E → B → Prop) (e : E) :
    ReachesIf (joint N K) (OnRight P) (t, e) (t', e) := by
  induction h with
  | refl => exact .refl
  | tail _ hd ih =>
    obtain ⟨d, hd⟩ := hd
    exact ih.tail ⟨.left d, trivial, joint_eq_some_iff.mpr (.left hd)⟩

lemma Quiet.beside {e' : E} (h : Quiet K e e') (M : Machine S A L) (P : S → A → Prop) (s : S) :
    ReachesIf (Compose.joint M K) (OnLeft P) (s, e) (s, e') := by
  induction h with
  | refl => exact .refl
  | tail _ hd ih =>
    obtain ⟨b, hb⟩ := hd
    exact ih.tail ⟨.right b, trivial, joint_eq_some_iff.mpr (.right hb)⟩

/-- **A machine may be replaced by one that simulates it.** Whatever runs beside it goes through
the same states. -/
theorem Simulates.joint (h : Simulates M N R) {w : S × E}
    (hr : ReachesIf (joint M K) (OnRight P) (s, e) w) (hR : R s t) :
    ∃ t', R w.1 t' ∧ ReachesIf (joint N K) (OnRight P) (t, e) (t', w.2) := by
  induction hr with
  | refl => exact ⟨t, hR, .refl⟩
  | @tail u v _ hn ih =>
    obtain ⟨t₁, hR₁, hr₁⟩ := ih
    obtain ⟨act, hP, hs⟩ := hn
    rcases joint_eq_some_iff.mp hs with hM | hK | ⟨hM, hK⟩
    · obtain ⟨t', hR', ⟨hq⟩⟩ := h _ _ _ _ _ hR₁ hM
      exact ⟨t', hR', hr₁.trans (hq.joint K P _)⟩
    · exact ⟨t₁, hR₁, hr₁.tail ⟨.right _, hP, joint_eq_some_iff.mpr (.right hK)⟩⟩
    · obtain ⟨t', hR', hans⟩ := h _ _ _ _ _ hR₁ hM
      cases hans with
      | label hq hd =>
        exact ⟨t', hR', (hr₁.trans (hq.joint K P _)).tail
          ⟨.both _ _, hP, joint_eq_some_iff.mpr (.both hd hK)⟩⟩

end Joint

/-! ### Traces -/

inductive Trace (M : Machine S A L) (s : S) : List L → S → Prop
  | refl : Trace M s [] s
  | tail {ls : List L} {s₁ s₂ : S} {a : A} {l : Option L} (h : Trace M s ls s₁)
      (h' : M s₁ a = some (s₂, l)) : Trace M s (ls ++ l.toList) s₂

lemma Trace.head {ls : List L} {s₁ : S} {a : A} {l : Option L} (h : M s a = some (s₁, l))
    (h' : Trace M s₁ ls s') : Trace M s (l.toList ++ ls) s' := by
  induction h' with
  | refl => simpa using Trace.refl.tail h
  | tail _ hM ih =>
    rw [← List.append_assoc]
    exact ih.tail hM

lemma Trace.quiet {ls : List L} {t₁ : T} (h : Trace N t ls t₁) (hq : Quiet N t₁ t') :
    Trace N t ls t' := by
  induction hq with
  | refl => exact h
  | tail _ hd ih =>
    obtain ⟨d, hd⟩ := hd
    simpa using ih.tail hd

/-- **A machine that simulates another has its traces.** -/
theorem Simulates.trace (h : Simulates M N R) {ls : List L} (hr : Trace M s ls s')
    (hR : R s t) : ∃ t', R s' t' ∧ Trace N t ls t' := by
  induction hr with
  | refl => exact ⟨t, hR, .refl⟩
  | tail _ hM ih =>
    obtain ⟨t₁, hR₁, htr⟩ := ih
    obtain ⟨t', hR', hans⟩ := h _ _ _ _ _ hR₁ hM
    cases hans with
    | quiet hq => exact ⟨t', hR', by simpa using htr.quiet hq⟩
    | label hq hd => exact ⟨t', hR', (htr.quiet hq).tail hd⟩

end Mit6824.Compose
