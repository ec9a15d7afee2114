import Mathlib.Data.List.Basic
import Mathlib.Tactic.Common

/-!
The bit sets of the checker (`porcupine/bitset.go`).
-/

namespace Mit6824.PorcBitset

/-- Bits `0` to `63` are in the first word, the next ones in the second, and so on. -/
abbrev Bitset := List (BitVec 64)

def newBitset (bits : ℕ) : Bitset :=
  let extra := if bits % 64 ≠ 0 then 1 else 0
  List.replicate (bits / 64 + extra) 0

def bitsetIndex (pos : ℕ) : ℕ × ℕ := (pos / 64, pos % 64)

namespace Bitset

/-- An index past the last word panics, here as in `clear` and `get`. -/
def set (b : Bitset) (pos : ℕ) : Option Bitset := do
  let (major, minor) := bitsetIndex pos
  let w ← b[major]?
  return List.set b major (w ||| 1#64 <<< minor)

def clear (b : Bitset) (pos : ℕ) : Option Bitset := do
  let (major, minor) := bitsetIndex pos
  let w ← b[major]?
  return List.set b major (w &&& ~~~ (1#64 <<< minor))

def get (b : Bitset) (pos : ℕ) : Option Bool := do
  let (major, minor) := bitsetIndex pos
  let w ← b[major]?
  return w &&& 1#64 <<< minor != 0

def popcnt (b : Bitset) : ℕ := b.foldl (fun total v => total + v.cpop.toNat) 0

def hash (b : Bitset) : BitVec 64 := b.foldl (fun hash v => hash ^^^ v) (BitVec.ofNat 64 b.popcnt)

def equals (b b2 : Bitset) : Bool := b.length == b2.length && (b.zip b2).all fun (v, v2) => v == v2

end Bitset

def Has (b : Bitset) (pos : ℕ) : Prop := b.get pos = some true

variable {b b' : Bitset} {i j n : ℕ}

instance : Decidable (Has b i) := inferInstanceAs (Decidable (_ = _))

/-! ### Words -/

section Words

variable (w : BitVec 64) {k k' : ℕ}

lemma getLsbD_bit (hk : k < 64) : (1#64 <<< k).getLsbD k' = decide (k' = k) := by
  rw [← BitVec.twoPow_eq, BitVec.getLsbD_twoPow]
  simp [hk, eq_comm]

lemma and_bit_ne_zero (hk : k < 64) : (w &&& 1#64 <<< k != 0) = w.getLsbD k := by
  rw [← BitVec.twoPow_eq, BitVec.and_twoPow]
  cases h : w.getLsbD k with
  | false => simp
  | true =>
    have hbit : (BitVec.twoPow 64 k).getLsbD k = true := by
      rw [BitVec.getLsbD_twoPow]
      simp [hk]
    refine bne_iff_ne.mpr fun h0 => ?_
    rw [if_pos rfl] at h0
    rw [h0] at hbit
    simp at hbit

lemma getLsbD_or_bit (hk : k < 64) :
    (w ||| 1#64 <<< k).getLsbD k' = (w.getLsbD k' || decide (k' = k)) := by
  rw [BitVec.getLsbD_or, getLsbD_bit hk]

lemma or_and_not_bit (hk : k < 64) (h : w.getLsbD k = false) :
    (w ||| 1#64 <<< k) &&& ~~~ (1#64 <<< k) = w := by
  refine BitVec.eq_of_getLsbD_eq fun i hi => ?_
  rw [BitVec.getLsbD_and, BitVec.getLsbD_not, getLsbD_or_bit w hk, getLsbD_bit hk]
  by_cases hik : i = k
  · subst hik
    simp [h]
  · simp [hik, hi]

end Words

/-! ### Sets -/

lemma has_iff : Has b i ↔ ∃ w, b[i / 64]? = some w ∧ w.getLsbD (i % 64) = true := by
  simp only [Has, Bitset.get, bitsetIndex, and_bit_ne_zero _ (Nat.mod_lt i (by decide)),
    Option.bind_eq_bind, Option.bind_eq_some_iff, Option.pure_def, Option.some.injEq]

lemma set_eq_some_iff : b.set i = some b' ↔
    ∃ w, b[i / 64]? = some w ∧ List.set b (i / 64) (w ||| 1#64 <<< (i % 64)) = b' := by
  simp only [Bitset.set, bitsetIndex, Option.bind_eq_bind, Option.bind_eq_some_iff,
    Option.pure_def, Option.some.injEq]

lemma length_set (h : b.set i = some b') : b'.length = b.length := by
  obtain ⟨w, -, rfl⟩ := set_eq_some_iff.mp h
  exact List.length_set

lemma exists_set (h : i / 64 < b.length) : ∃ b', b.set i = some b' :=
  ⟨_, set_eq_some_iff.mpr ⟨_, List.getElem?_eq_getElem h, rfl⟩⟩

lemma has_set (h : b.set i = some b') : Has b' j ↔ Has b j ∨ j = i := by
  obtain ⟨w, hw, rfl⟩ := set_eq_some_iff.mp h
  obtain ⟨hlt, -⟩ := List.getElem?_eq_some_iff.mp hw
  have hmod := Nat.mod_lt i (show 0 < 64 by decide)
  simp only [has_iff, List.getElem?_set]
  by_cases hword : i / 64 = j / 64
  · have hji : j % 64 = i % 64 ↔ j = i := by omega
    rw [if_pos hword, if_pos hlt, ← hword, hw]
    simp [getLsbD_or_bit w hmod, hji]
  · have hji : j ≠ i := fun hji => hword (by rw [hji])
    simp [hword, hji]

lemma clear_of_set (h : b.set i = some b') (hi : ¬ Has b i) : b'.clear i = some b := by
  obtain ⟨w, hw, rfl⟩ := set_eq_some_iff.mp h
  obtain ⟨hlt, hget⟩ := List.getElem?_eq_some_iff.mp hw
  have hbit : w.getLsbD (i % 64) = false :=
    Bool.eq_false_iff.mpr fun hbit => hi (has_iff.mpr ⟨w, hw, hbit⟩)
  simp only [Bitset.clear, bitsetIndex, List.getElem?_set_self hlt, Option.bind_eq_bind,
    Option.bind_some, List.set_set, or_and_not_bit w (Nat.mod_lt i (by decide)) hbit]
  rw [← hget, List.set_getElem_self]
  rfl

lemma not_has_newBitset : ¬ Has (newBitset n) i := by
  rw [has_iff]
  rintro ⟨w, hw, hbit⟩
  obtain rfl := List.eq_of_mem_replicate (List.mem_of_getElem? hw)
  simp at hbit

lemma lt_length_newBitset (h : i < n) : i / 64 < (newBitset n).length := by
  rw [newBitset, List.length_replicate]
  split <;> omega

lemma equals_iff : b.equals b' = true ↔ b = b' := by
  simp only [Bitset.equals, Bool.and_eq_true, beq_iff_eq, List.all_eq_true, Prod.forall]
  constructor
  · rintro ⟨hlen, hall⟩
    refine List.ext_getElem hlen fun k hk hk' => hall _ _ ?_
    exact List.mem_iff_getElem.mpr ⟨k, by rw [List.length_zip]; omega, List.getElem_zip⟩
  · rintro rfl
    refine ⟨rfl, fun v v' hv => ?_⟩
    obtain ⟨k, hk, he⟩ := List.mem_iff_getElem.mp hv
    rw [List.getElem_zip] at he
    exact (Prod.mk.inj he).1.symm.trans (Prod.mk.inj he).2

end Mit6824.PorcBitset
