import Mathlib.Order.Lattice
import Mit6824.Balance

/-!
Owners that come and go, one after the other.

Whoever leaves gives his items away one by one, each to an owner that has the least. Whoever comes
takes items one by one, each from the first of the owners that have the most, until no one has
more. Neither makes up for what was uneven before, and the lemmas say how much of it stays: for all
that have come or gone together, by counting, and for the ties between them, by their order.
-/

namespace Mit6824.Leveling

open Mit6824.Balance Finset Function Relation

variable {ι G : Type*} [Fintype ι] [DecidableEq ι]

/-! ### Leaving -/

section

variable [DecidableEq G] {o o' : ι → G} {T : Finset G} {g : G} {q r : ℕ}

/-- An item of an outsider goes to an owner that has the least, or to another outsider. -/
def Give (T : Finset G) (o o' : ι → G) : Prop :=
  ∃ i g, o i ∉ T ∧ (g ∈ T → ∀ h ∈ T, load o g ≤ load o h) ∧ o' = update o i g

/-- What one gift does to those who stay: nothing, or one that has the least gets one more. -/
lemma Give.loads (h : Give T o o') : (∀ g ∈ T, load o' g = load o g) ∨
    ∃ x ∈ T, (∀ g ∈ T, load o x ≤ load o g) ∧ load o' x = load o x + 1 ∧
      ∀ g ∈ T, g ≠ x → load o' g = load o g := by
  obtain ⟨i, x, hi, hmin, rfl⟩ := h
  have hother : ∀ g ∈ T, g ≠ x → load (update o i x) g = load o g := fun g hg hne =>
    load_update_of_ne hne fun heq => hi (heq ▸ hg)
  by_cases hx : x ∈ T
  · exact Or.inr ⟨x, hx, hmin hx, load_update_self fun heq => hi (heq ▸ hx), hother⟩
  · exact Or.inl fun g hg => hother g hg fun heq => hx (heq ▸ hg)

lemma Give.load_le (h : Give T o o') (hg : g ∈ T) : load o g ≤ load o' g := by
  rcases h.loads with hsame | ⟨x, -, -, hx, hother⟩
  · exact (hsame g hg).ge
  · by_cases hgx : g = x
    · rw [hgx, hx]
      exact Nat.le_succ _
    · exact (hother g hg hgx).ge

lemma Give.roof (h : Give T o o') (hcard : Fintype.card ι = T.card * q + r) (hr : r < T.card)
    (hroof : Roof o T q r) : Roof o' T q r := by
  rcases h.loads with hsame | ⟨x, hxT, hmin, hx, hother⟩
  · have habove : above o' T q = above o T q := filter_congr fun g hg => by rw [hsame g hg]
    exact ⟨fun g hg => hsame g hg ▸ hroof.top g hg, habove ▸ hroof.room⟩
  -- not everyone has more than `q`
  have hle : load o x ≤ q := by
    by_contra hgt
    have hall : above o T q = T := filter_true_of_mem fun g hg => by
      have := hmin g hg
      omega
    have hroom := hroof.room
    rw [hall] at hroom
    omega
  refine ⟨fun g hg => ?_, ?_⟩
  · by_cases hgx : g = x
    · rw [hgx, hx]
      omega
    · exact hother g hg hgx ▸ hroof.top g hg
  · rcases Nat.lt_or_ge (load o x) q with hlt | hge
    · refine (card_le_card fun g hg => ?_).trans hroof.room
      obtain ⟨hgT, hgt⟩ := mem_above.mp hg
      have hgx : g ≠ x := fun heq => by
        rw [heq, hx] at hgt
        omega
      exact mem_above.mpr ⟨hgT, hother g hgT hgx ▸ hgt⟩
    · have hbase : ∀ g ∈ T, q ≤ load o' g := fun g hg =>
        (hge.trans (hmin g hg)).trans (h.load_le hg)
      have := card_above_add_le hbase
      omega

/-- **When those who stay come out balanced.** -/
theorem balanced_iff_of_give (h : ReflTransGen (Give T) o o') (hin : ∀ i, o' i ∈ T)
    (hcard : Fintype.card ι = T.card * q + r) (hr : r < T.card) :
    Balanced o' T ↔ Roof o T q r := by
  constructor
  · intro hb
    have hroof := hb.roof hcard hr
    have hle : ∀ g ∈ T, load o g ≤ load o' g := fun g hg => by
      clear hin hb hroof
      induction h with
      | refl => exact le_rfl
      | tail _ hgive ih => exact ih.trans (hgive.load_le hg)
    refine ⟨fun g hg => (hle g hg).trans (hroof.top g hg), (card_le_card fun g hg => ?_).trans
      hroof.room⟩
    obtain ⟨hgT, hgt⟩ := mem_above.mp hg
    exact mem_above.mpr ⟨hgT, hgt.trans_le (hle g hgT)⟩
  · intro hroof
    refine Roof.balanced hin hcard ?_
    clear hin
    induction h with
    | refl => exact hroof
    | tail _ hgive ih => exact hgive.roof hcard hr ih

end

/-! ### Coming -/

section

variable [LinearOrder G] {o o₀ o' : ι → G} {S : Finset G} {n g h : G} {q r N : ℕ}

/-- The first of those that have the most. -/
structure Fullest (S : Finset G) (o : ι → G) (x : G) : Prop where
  mem : x ∈ S
  most : ∀ g ∈ S, load o g ≤ load o x
  first : ∀ g ∈ S, g < x → load o g < load o x

/-- A newcomer takes an item of the fullest if he has less. -/
def Take (S : Finset G) (n : G) (o o' : ι → G) : Prop :=
  ∃ i, Fullest S o (o i) ∧ load o n < load o (o i) ∧ o' = update o i n

/-- He goes on until no one has more. -/
structure Fill (S : Finset G) (n : G) (o o' : ι → G) : Prop where
  takes : ReflTransGen (Take S n) o o'
  top : ∀ g ∈ S, load o' g ≤ load o' n

lemma Take.loads (h : Take S n o o') (hn : n ∉ S) : ∃ x, Fullest S o x ∧ load o n < load o x ∧
    load o' n = load o n + 1 ∧ load o' x + 1 = load o x ∧
      ∀ g ∈ S, g ≠ x → load o' g = load o g := by
  obtain ⟨i, hfull, hlt, rfl⟩ := h
  have hi : o i ≠ n := fun heq => hn (heq ▸ hfull.mem)
  exact ⟨o i, hfull, hlt, load_update_self hi, load_update_owner hi, fun g hg hne =>
    load_update_of_ne (fun heq => hn (heq ▸ hg)) hne⟩

lemma Take.load_le (h : Take S n o o') (hn : n ∉ S) (hg : g ∈ S) : load o' g ≤ load o g := by
  obtain ⟨x, -, -, -, hx, hother⟩ := h.loads hn
  by_cases hgx : g = x
  · rw [hgx]
    omega
  · exact (hother g hg hgx).le

lemma Take.moves (h : Take S n o o') (i : ι) : o' i = o i ∨ o' i = n := by
  obtain ⟨j, -, -, rfl⟩ := h
  by_cases hij : i = j
  · exact Or.inr (by rw [hij, update_self])
  · exact Or.inl (update_of_ne hij _ _)

lemma Fill.load_le (h : Fill S n o o') (hn : n ∉ S) (hg : g ∈ S) : load o' g ≤ load o g := by
  have ht := h.takes
  clear h
  induction ht with
  | refl => exact le_rfl
  | tail _ htake ih => exact (htake.load_le hn hg).trans ih

lemma Fill.moves (h : Fill S n o o') (i : ι) : o' i = o i ∨ o' i = n := by
  have ht := h.takes
  clear h
  induction ht with
  | refl => exact Or.inl rfl
  | tail _ htake ih =>
    rcases htake.moves i with heq | heq
    · exact heq ▸ ih
    · exact Or.inr heq

lemma Fill.mem (h : Fill S n o o') (hin : ∀ i, o i ∈ S) (i : ι) : o' i ∈ insert n S := by
  rcases h.moves i with heq | heq
  · exact heq ▸ mem_insert_of_mem (hin i)
  · exact heq ▸ mem_insert_self n S

/-- Who has been taken from has at most one less than anyone. -/
lemma Fill.cut (h : Fill S n o o') (hn : n ∉ S) (hg : g ∈ S) :
    load o' g = load o g ∨ load o' n ≤ load o' g + 1 := by
  have ht := h.takes
  clear h
  suffices hcut : load o' g = load o g ∨
      (load o' n ≤ load o' g + 1 ∧ ∀ x ∈ S, load o' x ≤ load o' g + 1) from
    hcut.imp_right And.left
  induction ht with
  | refl => exact Or.inl rfl
  | @tail o₁ o₂ _ htake ih =>
    obtain ⟨x, hfull, hlt, hself, hx, hother⟩ := htake.loads hn
    have hle : ∀ y ∈ S, load o₂ y ≤ load o₁ x := fun y hy =>
      (htake.load_le hn hy).trans (hfull.most y hy)
    by_cases hgx : g = x
    · -- the fullest has one less now
      rw [hgx]
      exact Or.inr ⟨by omega, fun y hy => by have := hle y hy; omega⟩
    · rw [hother g hg hgx]
      refine ih.imp_right fun hcut => ?_
      have := hcut.2 x hfull.mem
      exact ⟨by omega, fun y hy => by have := hle y hy; omega⟩

/-- The bound from below stays: whoever is taken from has `q` still, and he has more if the
newcomer has more than `q + 1`. -/
lemma Fill.floor (h : Fill S n o o') (hn : n ∉ S) (hin : ∀ i, o i ∈ S)
    (hcard : Fintype.card ι = N * q + r) (hN : S.card + 1 ≤ N) (hfloor : Floor o S N q r) :
    Floor o' (insert n S) N q r := by
  have hin' := h.mem hin
  have hsucc : (insert n S).card = S.card + 1 := card_insert_of_notMem hn
  have hmul : (insert n S).card * q ≤ N * q := Nat.mul_le_mul_right q (by omega)
  have htop : ∀ g ∈ insert n S, load o' g ≤ load o' n := fun g hg =>
    (mem_insert.mp hg).elim (fun heq => heq ▸ le_rfl) (h.top g)
  have hbase : ∀ g ∈ insert n S, q ≤ load o' g := by
    intro g hg
    by_contra hlt
    -- somebody has more than `q`, so the newcomer has
    obtain ⟨x, hx, hgt⟩ := exists_le_load hin' (by omega) hg (Nat.lt_of_not_le hlt)
    have hmore := hgt.trans_le (htop x hx)
    rcases mem_insert.mp hg with rfl | hgS
    · omega
    · have := hfloor.base g hgS
      rcases h.cut hn hgS with heq | hcut <;> omega
  refine ⟨hbase, ?_⟩
  rcases Nat.lt_or_ge (q + 1) (load o' n) with hgt | hle
  · have hsub : insert n (above o S q) ⊆ above o' (insert n S) q := by
      intro g hg
      rcases mem_insert.mp hg with rfl | hg
      · exact mem_above.mpr ⟨mem_insert_self g S, by omega⟩
      · obtain ⟨hgS, hgt'⟩ := mem_above.mp hg
        refine mem_above.mpr ⟨mem_insert_of_mem hgS, ?_⟩
        rcases h.cut hn hgS with heq | hcut <;> omega
    have := card_le_card hsub
    rw [card_insert_of_notMem fun hmem => hn (mem_above.mp hmem).1] at this
    have := hfloor.room
    omega
  · have := le_card_above_add hin' fun g hg => (htop g hg).trans hle
    omega

/-! ### Coming one after the other -/

/-- Newcomers, in their order. Whoever is the very first gets everything. -/
inductive Grow (S : Finset G) (o : ι → G) : List G → (ι → G) → Prop
  | nil : Grow S o [] o
  | first (n : G) (hS : S = ∅) : Grow S o [n] fun _ => n
  | snoc {l : List G} {o₁ o₂ : ι → G} {n : G} (h : Grow S o l o₁)
      (hin : ∀ i, o₁ i ∈ S ∪ l.toFinset) (hn : n ∉ S ∪ l.toFinset) (hlt : ∀ x ∈ l, x < n)
      (hf : Fill (S ∪ l.toFinset) n o₁ o₂) : Grow S o (l ++ [n]) o₂

variable {l : List G}

lemma union_snoc (S : Finset G) (l : List G) (n : G) :
    S ∪ (l ++ [n]).toFinset = insert n (S ∪ l.toFinset) := by
  ext x
  simp only [mem_union, List.mem_toFinset, List.mem_append, List.mem_singleton, mem_insert]
  tauto

lemma Grow.moves (h : Grow S o l o') (i : ι) : o' i = o i ∨ o' i ∈ l := by
  induction h with
  | nil => exact Or.inl rfl
  | first n _ => exact Or.inr (by simp)
  | snoc _ _ _ _ hf ih =>
    rcases hf.moves i with heq | heq
    · rw [heq]
      exact ih.imp_right fun hl => List.mem_append_left _ hl
    · exact Or.inr (by simp [heq])

lemma Grow.mem (h : Grow S o l o') (hin : S.Nonempty → ∀ i, o i ∈ S)
    (hne : (S ∪ l.toFinset).Nonempty) (i : ι) : o' i ∈ S ∪ l.toFinset := by
  cases h with
  | nil =>
    have hS : S ∪ ([] : List G).toFinset = S := by simp
    rw [hS] at hne ⊢
    exact hin hne i
  | first n _ => simp
  | snoc _ hin₁ _ _ hf =>
    rw [union_snoc]
    exact hf.mem hin₁ i

lemma Grow.load_le (h : Grow S o l o') (hg : g ∈ S) : load o' g ≤ load o g := by
  induction h with
  | nil => exact le_rfl
  | first n hS => exact absurd hg (hS ▸ notMem_empty g)
  | snoc _ _ hn _ hf ih => exact (hf.load_le hn (mem_union_left _ hg)).trans ih

lemma Grow.disjoint (h : Grow S o l o') : Disjoint S l.toFinset := by
  induction h with
  | nil => simp
  | first n hS => simp [hS]
  | @snoc l o₁ o₂ n _ _ hn _ _ ih =>
    rw [mem_union, not_or] at hn
    rw [List.toFinset_append, disjoint_union_right]
    exact ⟨ih, by simpa using hn.1⟩

lemma Grow.floor (h : Grow S o l o') (hcard : Fintype.card ι = N * q + r)
    (hN : (S ∪ l.toFinset).card ≤ N) (hfloor : Floor o S N q r) :
    Floor o' (S ∪ l.toFinset) N q r := by
  induction h with
  | nil => simpa using hfloor
  | first n hS =>
    subst hS
    have hone : (∅ ∪ [n].toFinset : Finset G) = {n} := by simp
    have hroom := hfloor.room
    rw [hone, card_singleton] at hN
    rw [card_empty] at hroom
    have hload : load (fun _ : ι => n) n = Fintype.card ι := load_eq_card.mpr fun _ => rfl
    have hmul : 1 * q ≤ N * q := Nat.mul_le_mul_right q hN
    rw [hone]
    refine ⟨fun g hg => ?_, ?_⟩
    · rw [mem_singleton.mp hg, hload]
      omega
    · rw [card_singleton]
      have habove : (above o ∅ q).card = 0 := by simp [above]
      by_cases hlt : q < Fintype.card ι
      · have : above (fun _ : ι => n) {n} q = {n} :=
          filter_true_of_mem fun g hg => by rw [mem_singleton.mp hg, hload]; exact hlt
        rw [this, card_singleton]
        omega
      · omega
  | snoc _ hin hn _ hf ih =>
    rw [union_snoc] at hN ⊢
    rw [card_insert_of_notMem hn] at hN
    exact hf.floor hn hin hcard hN (ih (by omega))

lemma Grow.balanced (h : Grow S o l o') (hin : S.Nonempty → ∀ i, o i ∈ S) (hb : Balanced o S) :
    Balanced o' (S ∪ l.toFinset) := by
  rcases (S ∪ l.toFinset).eq_empty_or_nonempty with hempty | hne
  · rw [hempty]
    exact fun g hg => absurd hg (notMem_empty g)
  have hcard : Fintype.card ι = (S ∪ l.toFinset).card * (Fintype.card ι / (S ∪ l.toFinset).card) +
      Fintype.card ι % (S ∪ l.toFinset).card := (Nat.div_add_mod _ _).symm
  have hr := (Nat.mod_lt (Fintype.card ι) (card_pos.mpr hne)).le
  refine (h.floor hcard le_rfl ?_).balanced (h.mem hin hne) hcard
  rcases S.eq_empty_or_nonempty with hS | hS
  · subst hS
    exact ⟨fun g hg => absurd hg (notMem_empty g), by simpa using hr.trans (by simp)⟩
  · exact hb.floor (hin hS) hcard hr (card_le_card subset_union_left)

/-- **When all come out balanced.** -/
theorem Grow.balanced_iff (h : Grow S o l o') (hin : ∀ i, o' i ∈ S ∪ l.toFinset)
    (hcard : Fintype.card ι = (S ∪ l.toFinset).card * q + r) (hr : r < (S ∪ l.toFinset).card) :
    Balanced o' (S ∪ l.toFinset) ↔ Floor o S (S ∪ l.toFinset).card q r := by
  constructor
  · intro hb
    have hfloor := hb.floor hin hcard hr.le le_rfl
    refine ⟨fun g hg => (hfloor.base g (mem_union_left _ hg)).trans (h.load_le hg), ?_⟩
    have hsub : above o' (S ∪ l.toFinset) q ⊆ above o S q ∪ l.toFinset := by
      intro g hg
      obtain ⟨hg, hgt⟩ := mem_above.mp hg
      rw [mem_union] at hg ⊢
      exact hg.imp_left fun hgS => mem_above.mpr ⟨hgS, hgt.trans_le (h.load_le hgS)⟩
    have hle := (card_le_card hsub).trans (card_union_le _ _)
    have := hfloor.room
    rw [card_union_of_disjoint h.disjoint] at this ⊢
    omega
  · exact fun hfloor => (h.floor hcard le_rfl hfloor).balanced hin hcard

/-! ### Ties -/

lemma Take.order (ht : Take S n o o') (hn : n ∉ S) (hg : g ∈ S) (hh : h ∈ S) (hlt : g < h)
    (hle : load o g ≤ load o h) : load o' g ≤ load o' h := by
  obtain ⟨x, hfull, -, -, hx, hother⟩ := ht.loads hn
  by_cases hhx : h = x
  · -- the first is not as full
    have := hfull.first g hg (hhx ▸ hlt)
    rw [hother g hg (fun heq => hlt.ne (heq.trans hhx.symm)), hhx]
    omega
  · rw [hother h hh hhx]
    exact (ht.load_le hn hg).trans hle

lemma Grow.order (hgrow : Grow S o l o') (hh : h ∈ l) (hg : g ∈ S ∪ l.toFinset) (hlt : g < h) :
    load o' g ≤ load o' h := by
  induction hgrow with
  | nil => exact absurd hh List.not_mem_nil
  | first n hS =>
    subst hS
    obtain rfl := List.mem_singleton.mp hh
    have : g = h := by simpa using hg
    exact absurd this hlt.ne
  | @snoc l o₁ o₂ n _ _ hn hasc hf ih =>
    rw [union_snoc, mem_insert] at hg
    rcases List.mem_append.mp hh with hh | hh
    · -- whoever comes before comes before the new one
      have hgS : g ∈ S ∪ l.toFinset :=
        hg.resolve_left fun heq => absurd (hasc h hh) (heq ▸ hlt).asymm
      have hhS : h ∈ S ∪ l.toFinset := mem_union_right _ (List.mem_toFinset.mpr hh)
      have hle := ih hh hgS
      have ht := hf.takes
      clear hf
      induction ht with
      | refl => exact hle
      | tail _ htake ih' => exact htake.order hn hgS hhS hlt ih'
    · obtain rfl := List.mem_singleton.mp hh
      exact hf.top g (hg.resolve_left hlt.ne)

/-- If an owner is down to `q`, so is everyone before him. -/
def Cut (S : Finset G) (q : ℕ) (o : ι → G) : Prop :=
  ∀ g ∈ S, ∀ h ∈ S, h < g → load o g ≤ q → load o h ≤ q

lemma Take.cut (ht : Take S n o o') (hn : n ∉ S) (hcut : Cut S q o) : Cut S q o' := by
  intro g hg h hh hlt hle
  obtain ⟨x, hfull, -, -, hx, hother⟩ := ht.loads hn
  have hle' := ht.load_le hn hh
  by_cases hgx : g = x
  · have := hfull.first h hh (hgx ▸ hlt)
    rw [hgx] at hle
    omega
  · rw [hother g hg hgx] at hle
    exact hle'.trans (hcut g hg h hh hlt hle)

lemma Take.cut_last {m : G} (ht : Take S n o o') (hn : n ∉ S) (hb : Balanced o S) (hm : m ∈ S)
    (htop : ∀ g ∈ S, load o g ≤ load o m)
    (hcut : ∀ g ∈ S, ∀ h ∈ S, h < g → h ≠ m → load o g ≤ q → load o h ≤ q) : Cut S q o' := by
  intro g hg h hh hlt hle
  obtain ⟨x, hfull, -, -, hx, hother⟩ := ht.loads hn
  have hle' := ht.load_le hn hh
  have hxm : load o x = load o m := le_antisymm (htop x hfull.mem) (hfull.most m hm)
  by_cases hgx : g = x
  · have := hfull.first h hh (hgx ▸ hlt)
    rw [hgx] at hle
    omega
  rw [hother g hg hgx] at hle
  by_cases hhm : h = m
  · subst hhm
    have hbound := hb h hh g hg
    by_cases hxh : x = h
    · rw [hxh] at hx
      omega
    · -- the fullest comes before the last one, so it is down to `q`
      have hxlt : x < h := lt_of_le_of_ne (le_of_not_gt fun hgt => by
        have := hfull.first h hh hgt
        omega) hxh
      have := hcut g hg x hfull.mem (hxlt.trans hlt) hxh hle
      omega
  · exact hle'.trans (hcut g hg h hh hlt hhm hle)

lemma Fill.cut_of_first (hf : Fill S n o o') (hn : n ∉ S) (hzero : load o n = 0)
    (hfirst : ∀ o₁, Take S n o o₁ → Cut S q o₁) : Cut S q o' := by
  have htop := hf.top
  rcases ReflTransGen.cases_head hf.takes with heq | ⟨o₁, htake, hrest⟩
  · -- nothing was taken, so there was nothing
    subst heq
    intro g _ h hh _ _
    have := htop h hh
    omega
  · have hcut := hfirst o₁ htake
    clear hf htop htake
    induction hrest with
    | refl => exact hcut
    | tail _ htake ih => exact htake.cut hn ih

lemma Grow.top {m : G} (hgrow : Grow S o l o') (hm : l.getLast? = some m)
    (hg : g ∈ S ∪ l.toFinset) : load o' g ≤ load o' m := by
  cases hgrow with
  | nil => cases hm
  | first n hS =>
    subst hS
    obtain rfl := Option.some.inj hm
    have : g = n := by simpa using hg
    rw [this]
    exact le_rfl
  | snoc _ _ _ _ hf =>
    rw [List.getLast?_concat] at hm
    obtain rfl := Option.some.inj hm
    rw [union_snoc, mem_insert] at hg
    rcases hg with rfl | hg
    · exact le_rfl
    · exact hf.top g hg

lemma Grow.le_last {m x : G} (hgrow : Grow S o l o') (hm : l.getLast? = some m) (hx : x ∈ l) :
    x ≤ m := by
  cases hgrow with
  | nil => cases hm
  | first n _ =>
    obtain rfl := Option.some.inj hm
    exact (List.mem_singleton.mp hx).le
  | snoc _ _ _ hasc _ =>
    rw [List.getLast?_concat] at hm
    obtain rfl := Option.some.inj hm
    rcases List.mem_append.mp hx with hx | hx
    · exact (hasc x hx).le
    · exact (List.mem_singleton.mp hx).le

/-- If everyone had more than `q`, then all that come before one who is down to `q` are, but for
the last one. -/
lemma Grow.cut (hgrow : Grow S o l o') (hS : S.Nonempty) (hin : ∀ i, o i ∈ S)
    (hb : Balanced o S) (hmore : ∀ g ∈ S, q < load o g) (hg : g ∈ S ∪ l.toFinset)
    (hh : h ∈ S ∪ l.toFinset) (hlt : h < g) (hlast : l.getLast? ≠ some h)
    (hle : load o' g ≤ q) : load o' h ≤ q := by
  induction hgrow generalizing g h with
  | nil =>
    have hgS : g ∈ S := by simpa using hg
    exact absurd hle (Nat.not_le.mpr (hmore g hgS))
  | first n hempty => exact absurd hempty hS.ne_empty
  | @snoc l o₁ o₂ n hgrow hin₁ hn hasc hf ih =>
    rw [union_snoc, mem_insert] at hg hh
    rw [List.getLast?_concat] at hlast
    have hhS := hh.resolve_left fun heq => hlast (heq ▸ rfl)
    rcases hg with rfl | hgS
    · exact (hf.top h hhS).trans hle
    have hzero : load o₁ n = 0 := load_new hin₁ (disjoint_singleton_right.mpr hn)
      (mem_singleton_self n)
    refine hf.cut_of_first hn hzero (fun o₃ htake => ?_) g hgS h hhS hlt hle
    cases hm : l.getLast? with
    | none => exact htake.cut hn fun g' hg' h' hh' hlt' => ih hg' hh' hlt' (by simp [hm])
    | some m =>
      have hmem : m ∈ S ∪ l.toFinset :=
        mem_union_right _ (List.mem_toFinset.mpr (List.mem_of_getLast? hm))
      exact htake.cut_last hn (hgrow.balanced (fun _ => hin) hb) hmem
        (fun g' hg' => hgrow.top hm hg') fun g' hg' h' hh' hlt' hne =>
          ih hg' hh' hlt' fun heq => hne (Option.some.inj (hm.symm.trans heq)).symm

/-! ### Few moves -/

/-- The newcomers that come after one who was there. -/
def later (S : Finset G) (l : List G) : Finset G := l.toFinset.filter fun x => ∃ g ∈ S, g < x

section

variable (hgrow : Grow S o l o') (hS : S.Nonempty) (hin : ∀ i, o i ∈ S) (hb : Balanced o S)
  (hcard : Fintype.card ι = (S ∪ l.toFinset).card * q + r)
include hin hb hcard

omit [DecidableEq ι] in
lemma remainder_le_above (hg : g ∈ S) (hle : load o g ≤ q) : r ≤ (above o S q).card := by
  have htop := le_card_above_add hin (q := q) fun h hh => (hb h hh g hg).trans (by omega)
  have hmul : S.card * q ≤ (S ∪ l.toFinset).card * q :=
    Nat.mul_le_mul_right q (card_le_card subset_union_left)
  omega

variable (hr : r < (S ∪ l.toFinset).card)
include hgrow hS hr

/-- The last one has more than `q`, since somebody has. -/
lemma Grow.last_mem_above {m : G} (hm : l.getLast? = some m) (hpos : 0 < r) :
    m ∈ above o' (S ∪ l.toFinset) q := by
  have hin' := hgrow.mem (fun _ => hin) (hS.mono subset_union_left)
  have habove := (hgrow.balanced (fun _ => hin) hb).card_above hin' hcard hr
  obtain ⟨x, hx⟩ := card_pos.mp (habove ▸ hpos)
  obtain ⟨hxU, hgt⟩ := mem_above.mp hx
  exact mem_above.mpr ⟨mem_union_right _ (List.mem_toFinset.mpr (List.mem_of_getLast? hm)),
    hgt.trans_le (hgrow.top hm hxU)⟩

lemma Grow.more_of_kept {m : G} (hm : l.getLast? = some m) (hpos : 0 < r)
    (hkept : ∀ g ∈ S, q < load o g → q < load o' g) (hg : g ∈ S) : q < load o g := by
  have hin' := hgrow.mem (fun _ => hin) (hS.mono subset_union_left)
  have habove := (hgrow.balanced (fun _ => hin) hb).card_above hin' hcard hr
  have hmS : m ∉ above o S q := fun hmem => disjoint_left.mp hgrow.disjoint (mem_above.mp hmem).1
    (List.mem_toFinset.mpr (List.mem_of_getLast? hm))
  have hsub : insert m (above o S q) ⊆ above o' (S ∪ l.toFinset) q := by
    refine insert_subset (hgrow.last_mem_above hS hin hb hcard hr hm hpos) fun g hg => ?_
    obtain ⟨hgS, hgt⟩ := mem_above.mp hg
    exact mem_above.mpr ⟨mem_union_left _ hgS, hkept g hgS hgt⟩
  have hlt := card_le_card hsub
  rw [card_insert_of_notMem hmS, habove] at hlt
  -- if one of them did not, the remainder would be too small for the last one
  by_contra hle
  have := remainder_le_above hin hb hcard hg (Nat.le_of_not_lt hle)
  omega

/-- Those who were there keep more than `q`, and then so do the last one and all who come later than
one of them. -/
lemma Grow.card_le_of_kept {m : G} (hm : l.getLast? = some m) (hpos : 0 < r)
    (hkept : ∀ g ∈ S, q < load o g → q < load o' g) : S.card + max 1 (later S l).card ≤ r := by
  have hin' := hgrow.mem (fun _ => hin) (hS.mono subset_union_left)
  have habove := (hgrow.balanced (fun _ => hin) hb).card_above hin' hcard hr
  have hkeep : ∀ g ∈ S, q < load o' g := fun g hg =>
    hkept g hg (hgrow.more_of_kept hS hin hb hcard hr hm hpos hkept hg)
  have hall : S ∪ insert m (later S l) ⊆ above o' (S ∪ l.toFinset) q := by
    refine union_subset (fun x hx => mem_above.mpr ⟨mem_union_left _ hx, hkeep x hx⟩)
      (insert_subset (hgrow.last_mem_above hS hin hb hcard hr hm hpos) fun x hx => ?_)
    obtain ⟨hxl, g, hgS, hlt⟩ := mem_filter.mp hx
    exact mem_above.mpr ⟨mem_union_right _ hxl, (hkeep g hgS).trans_le
      (hgrow.order (List.mem_toFinset.mp hxl) (mem_union_left _ hgS) hlt)⟩
  have hnew : insert m (later S l) ⊆ l.toFinset :=
    insert_subset (List.mem_toFinset.mpr (List.mem_of_getLast? hm)) (filter_subset _ _)
  have hle := card_le_card hall
  rw [card_union_of_disjoint (hgrow.disjoint.mono_right hnew), habove] at hle
  have hone : 1 ≤ (insert m (later S l)).card := card_pos.mpr (insert_nonempty _ _)
  have hlater := card_le_card (subset_insert m (later S l))
  omega

omit hcard hr in
/-- If one of those who were there is down to `q`, only the others, the last one and those who come
later have more. -/
lemma Grow.above_subset {m : G} (hm : l.getLast? = some m) (hmore : ∀ g ∈ S, q < load o g)
    (hg : g ∈ S) (hle : load o' g ≤ q) :
    above o' (S ∪ l.toFinset) q ⊆ S.erase g ∪ insert m (later S l) := by
  intro x hx
  obtain ⟨hxU, hgt⟩ := mem_above.mp hx
  have hxg : x ≠ g := fun heq => Nat.not_le.mpr (heq ▸ hgt) hle
  rcases mem_union.mp hxU with hxS | hxl
  · exact mem_union_left _ (mem_erase.mpr ⟨hxg, hxS⟩)
  · refine mem_union_right _ ?_
    by_cases hxm : x = m
    · exact hxm ▸ mem_insert_self _ _
    · refine mem_insert_of_mem (mem_filter.mpr ⟨hxl, g, hg, ?_⟩)
      refine lt_of_le_of_ne (le_of_not_gt fun hlt => ?_) hxg.symm
      have := hgrow.cut hS hin hb hmore (mem_union_left _ hg) hxU hlt
        (fun heq => hxm (Option.some.inj (hm.symm.trans heq)).symm) hle
      omega

omit hin hb hcard hS hr in
/-- The last one comes later if anyone does. -/
lemma Grow.card_insert_last_le {m : G} (hm : l.getLast? = some m) :
    (insert m (later S l)).card ≤ max 1 (later S l).card := by
  rcases (later S l).eq_empty_or_nonempty with hempty | ⟨x, hx⟩
  · rw [hempty]
    simp
  · obtain ⟨hxl, g, hg, hlt⟩ := mem_filter.mp hx
    have hmem : m ∈ later S l :=
      mem_filter.mpr ⟨List.mem_toFinset.mpr (List.mem_of_getLast? hm), g, hg,
        hlt.trans_le (hgrow.le_last hm (List.mem_toFinset.mp hxl))⟩
    rw [insert_eq_self.mpr hmem]
    exact le_max_right _ _

lemma Grow.kept_of_card_le {m : G} (hm : l.getLast? = some m)
    (hroom : S.card + max 1 (later S l).card ≤ r) (hg : g ∈ S) : q < load o' g := by
  have hin' := hgrow.mem (fun _ => hin) (hS.mono subset_union_left)
  have habove := (hgrow.balanced (fun _ => hin) hb).card_above hin' hcard hr
  have hmore : ∀ g ∈ S, q < load o g := by
    intro g hg
    by_contra hle
    have := remainder_le_above hin hb hcard hg (Nat.le_of_not_lt hle)
    have : (above o S q).card ≤ S.card := card_le_card (filter_subset _ _)
    omega
  by_contra hle
  have hcount := (card_le_card (hgrow.above_subset hS hin hb hm hmore hg
    (Nat.le_of_not_lt hle))).trans (card_union_le _ _)
  rw [habove, card_erase_of_mem hg] at hcount
  have hlast := hgrow.card_insert_last_le hm
  have := card_pos.mpr ⟨g, hg⟩
  omega

/-- **When those who were there keep what they can**: if there is enough for all of them, for those
who come later than one of them, and in any case for the last one. -/
lemma Grow.kept_iff {m : G} (hm : l.getLast? = some m) (hpos : 0 < r) :
    (∀ g ∈ S, q < load o g → q < load o' g) ↔ S.card + max 1 (later S l).card ≤ r :=
  ⟨hgrow.card_le_of_kept hS hin hb hcard hr hm hpos,
    fun hroom _ hg _ => hgrow.kept_of_card_le hS hin hb hcard hr hm hroom hg⟩

/-- **When as few items as possible move.** -/
theorem Grow.isLeast_iff : IsLeast (moveCounts o (S ∪ l.toFinset)) (moved o o') ↔
    l = [] ∨ r = 0 ∨ S.card + max 1 (later S l).card ≤ r := by
  have hin' := hgrow.mem (fun _ => hin) (hS.mono subset_union_left)
  have hb' := hgrow.balanced (fun _ => hin) hb
  have hmoves : ∀ i, o' i = o i ∨ o' i ∈ l.toFinset := fun i =>
    (hgrow.moves i).imp_right List.mem_toFinset.mpr
  have habove := hb'.card_above hin' hcard hr
  rw [isLeast_moved_iff hin hgrow.disjoint hcard hr hmoves hb']
  cases hm : l.getLast? with
  | none =>
    obtain rfl := List.getLast?_eq_none_iff.mp hm
    simp
  | some m =>
    have hml : m ∈ l := List.mem_of_getLast? hm
    have hne : l ≠ [] := List.ne_nil_of_mem hml
    have hnone : (∀ g ∈ l.toFinset, load o' g ≤ q) ↔ r = 0 := by
      rw [← habove, card_eq_zero, above, filter_eq_empty_iff]
      refine ⟨fun h g hg => ?_, fun h g hg => Nat.le_of_not_lt (h (mem_union_right _ hg))⟩
      exact Nat.not_lt.mpr ((hgrow.top hm hg).trans (h m (List.mem_toFinset.mpr hml)))
    rw [hnone]
    rcases Nat.eq_zero_or_pos r with hzero | hpos
    · simp [hzero]
    · rw [hgrow.kept_iff hS hin hb hcard hr hm hpos]
      simp [hne]

end

end

end Mit6824.Leveling
