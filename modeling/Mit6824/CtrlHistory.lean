import Mit6824.CtrlMoves
import Mit6824.CtrlServer
import Mit6824.Runs

/-!
The configurations that a controller publishes, one after the other.

A command makes the next configuration from the latest one, in some number of passes and some
orders of the maps. If zero does not join it always does, in one way, unless a `Move` is of a shard
that is not there, a `Join` finds no group and shards that were moved to the group that joins, or a
first `Join` has no group at all.
-/

namespace Mit6824.CtrlHistory

open Mit6824.GoData Mit6824.MapOrder Mit6824.CtrlConfig Mit6824.CtrlServer Mit6824.CtrlTable
open Mit6824.CtrlMoves Mit6824.Balance Mit6824.Leveling Mit6824.Runs Function
open Mit6824.ShardServer (NShards Shard)

def initial : Config := ⟨0, fun _ => 0, ∅⟩

/-- What the applier makes of the latest configuration. -/
def nextConfig (passes : ℕ) (ch : Change) (latest : Config) : Prog Gid Config := do
  let config ← latest.clone
  ch.exec passes config

structure Event where
  change : Change
  passes : ℕ
  orders : ℕ → Order Gid

/-- A command is applied to the latest configuration; `none` if there is no next one. -/
def produce (h : List Config) (ev : Event) : Option (List Config) :=
  match h.getLast? with
  | none => none
  | some latest =>
    match (nextConfig ev.passes ev.change latest).outcome ev.orders with
    | .ok c => some (h ++ [{ c with num := h.length }])
    | .error _ => none

/-- The commands meet a condition on the latest configuration. -/
def OnLatest (P : Config → Change → Prop) (h : List Config) (ev : Event) : Prop :=
  ∀ latest, h.getLast? = some latest → P latest ev.change

instance (P : Config → Change → Prop) [∀ c ch, Decidable (P c ch)] (h : List Config)
    (ev : Event) : Decidable (OnLatest P h ev) :=
  decidable_of_iff (∀ latest ∈ h.getLast?, P latest ev.change) Iff.rfl

/-! ### One command -/

structure Joined (c : Config) (groups : GoMap Gid (List GoString)) (c' : Config) : Prop where
  zero : 0 ∉ c'.groups
  owned : Owned c → Owned c'
  mem : ∀ g, g ∈ c'.groups ↔ g ∈ c.groups ∨ g ∈ groups
  servers : ∀ g, slice c'.groups g = slice c.groups g ++ slice groups g
  moves : ∀ s, c'.shards s = c.shards s ∨ (c'.shards s ∈ groups ∧ c'.shards s ∉ c.groups)
  valid : Valid c → Valid c'
  /-- The groups that are new come one after the other, or they are the first of all. -/
  spread : Valid c → (∃ l, (∀ g, g ∈ l ↔ g ∈ groups ∧ g ∉ c.groups) ∧
    Grow c.groups.keys c.shards l c'.shards) ∨ (c.groups = ∅ ∧ Evenly c')

def Made (c : Config) : Change → Config → Prop
  | .join groups, c' => Joined c groups c'
  | .leave gids, c' => Leaving c gids c'
  | .move shard gid, c' => ∃ s : Shard, ((s : ℕ) : ℤ) = shard ∧ c' = c.setShard s gid

/-- Zero does not join, and a shard that is there is moved to a group or to zero. -/
def Proper (c : Config) : Change → Prop
  | .join groups => 0 ∉ groups
  | .leave _ => True
  | .move shard gid => 0 ≤ shard ∧ shard < NShards ∧ (gid ∈ c.groups ∨ gid = 0)

/-- A command on which the applier does not panic, if zero is not a group: zero does not join, the
first group of a `Join` does not get stuck, and the shard of a `Move` is there. -/
def Safe (c : Config) : Change → Prop
  | .join groups => 0 ∉ groups ∧ ∀ n ∈ groups, (∀ g ∈ groups, n ≤ g) → ¬ Stuck c n
  | .leave _ => True
  | .move shard _ => 0 ≤ shard ∧ shard < NShards

def FirstEmpty (c : Config) : Change → Prop
  | .join groups => c.num = 0 ∧ groups = ∅
  | _ => False

variable {c c' : Config} {groups : GoMap Gid (List GoString)}

lemma eq_empty_iff {V : Type} {m : GoMap Gid V} : m = ∅ ↔ ∀ g, g ∉ m := by
  refine ⟨fun h g => h ▸ Finmap.notMem_empty, fun h => Finmap.ext_lookup fun g => ?_⟩
  rw [Finmap.lookup_eq_none.mpr (h g), Finmap.lookup_empty]

lemma slice_eq_nil {α : Type} {m : GoMap Gid (List α)} {g : Gid} (hg : g ∉ m) :
    slice m g = [] := by
  rw [slice, Finmap.lookup_eq_none.mpr hg]
  rfl

lemma Proper.safe (hc : Owned c) {ch : Change} (h : Proper c ch) : Safe c ch := by
  cases ch with
  | join groups =>
    refine ⟨h, fun n hn _ hstuck => ?_⟩
    exact hc.not_stuck (hstuck.1 n) (fun heq => h (heq ▸ hn)) hstuck
  | leave gids => trivial
  | move shard gid => exact ⟨h.1, h.2.1⟩

lemma joined_of_joining {p : List Gid} (hp : Ascending p groups) (h : Joining c groups p c') :
    Joined c groups c' where
  zero := h.zero
  owned := h.owned
  mem := fun g => by rw [h.mem, hp.2]
  servers := fun g => by
    rw [h.servers]
    split
    · rfl
    · next hg => rw [slice_eq_nil fun hin => hg ((hp.2 g).mpr hin)]
  moves := fun s => (h.moves s).imp_right fun hm => ⟨(hp.2 _).mp hm.1, hm.2⟩
  valid := h.valid
  spread := fun hv => by
    obtain ⟨l, hl, hgrow⟩ := h.grows hv
    exact Or.inl ⟨l, fun g => by rw [hl, hp.2], hgrow⟩

lemma joined_of_reset (h0 : 0 ∉ groups) (hgroups : c'.groups = groups)
    (hin : ∀ s, c'.shards s ∈ groups) (heven : Balanced c'.shards groups.keys) :
    Joined initial groups c' := by
  have hin' : ∀ s, c'.shards s ∈ c'.groups := by rwa [hgroups]
  have hzero : 0 ∉ c'.groups := by rwa [hgroups]
  have howned : Owned c' := ⟨hzero, fun s => Or.inl (hin' s)⟩
  exact
    { zero := hzero
      owned := fun _ => howned
      mem := fun g => by
        rw [hgroups]
        exact ⟨Or.inr, fun h => h.resolve_left Finmap.notMem_empty⟩
      servers := fun g => by rw [hgroups]; rfl
      moves := fun s => Or.inr ⟨hin s, Finmap.notMem_empty⟩
      valid := fun _ => ⟨howned, fun s => Or.inl (hin' s)⟩
      spread := fun _ => Or.inr ⟨rfl, by unfold Evenly; rwa [hgroups]⟩ }

lemma reset_cases (h0 : 0 ∉ groups) (passes : ℕ) (orders : ℕ → Order Gid) :
    (∃ c', ({ initial with groups := groups }.resetShards passes).outcome orders = .ok c' ∧
      Joined initial groups c') ∨
    (({ initial with groups := groups }.resetShards passes).outcome orders = .error .running ∧
      (NShards ≤ passes → groups = ∅)) := by
  by_cases hex : ∃ g, g ∈ groups
  · have hens : ∀ n, NShards ≤ n → ∃ c', ({ initial with groups := groups }.resetShards n).outcome
        orders = .ok c' ∧ Joined initial groups c' := by
      intro n hn
      have hex' : ∃ g, g ∈ ({ initial with groups := groups } : Config).groups := hex
      obtain ⟨c', hout, hgroups, hin, heven⟩ := ensures_resetShards hn hex' orders
      exact ⟨c', hout, joined_of_reset h0 hgroups hin heven⟩
    by_cases hrun : ({ initial with groups := groups }.resetShards passes).outcome orders =
        .error .running
    · refine Or.inr ⟨hrun, fun hn => ?_⟩
      obtain ⟨c', hout, -⟩ := hens passes hn
      rw [hrun] at hout
      cases hout
    · obtain ⟨c', hout, hj⟩ := hens (passes + NShards) (Nat.le_add_left _ _)
      rw [extends_resetShards (Nat.le_add_right _ _) _ orders orders hrun] at hout
      exact Or.inl ⟨c', hout, hj⟩
  · push Not at hex
    exact Or.inr ⟨resetShards_empty passes hex orders, fun _ => eq_empty_iff.mpr hex⟩

/-- **What a command does to a configuration**: it makes the next one, or is the first `Join`
and still in its loop. -/
lemma nextConfig_cases (hzero : 0 ∉ c.groups) (hfirst : c.num = 0 → c = initial) {ch : Change}
    (hs : Safe c ch) (passes : ℕ) (orders : ℕ → Order Gid) :
    (∃ c', (nextConfig passes ch c).outcome orders = .ok c' ∧ Made c ch c') ∨
    ((nextConfig passes ch c).outcome orders = .error .running ∧ c.num = 0 ∧
      (NShards ≤ passes → FirstEmpty c ch)) := by
  obtain ⟨c₁, hclone, rfl⟩ := ensures_clone c orders
  unfold nextConfig
  rw [Prog.outcome_bind_ok hclone]
  cases ch with
  | join groups =>
    simp only [Change.exec]
    split
    · next hnum =>
      obtain rfl := hfirst hnum
      rcases reset_cases hs.1 passes (initial.clone.left orders) with h | ⟨hout, hempty⟩
      · exact Or.inl h
      · exact Or.inr ⟨hout, rfl, fun hn => ⟨rfl, hempty hn⟩⟩
    · obtain ⟨c', hout, p, hp, hj⟩ := ensures_joinGroups hzero hs.1 (fun n hn _ => hs.2 n hn)
        (c₁.clone.left orders)
      exact Or.inl ⟨c', hout, joined_of_joining hp hj⟩
  | leave gids => exact Or.inl (ensures_removeGroups hzero gids _)
  | move shard gid =>
    obtain ⟨hge, hlt⟩ := hs
    have hcast : ((shard.toNat : ℕ) : ℤ) = shard := Int.toNat_of_nonneg hge
    have hlt' : shard.toNat < NShards := (Int.toNat_lt hge).mpr hlt
    obtain ⟨c', hout, rfl⟩ := ensures_moveShard c₁ ⟨shard.toNat, hlt'⟩ gid
      (c₁.clone.left orders)
    rw [hcast] at hout
    exact Or.inl ⟨_, hout, ⟨shard.toNat, hlt'⟩, hcast, rfl⟩

lemma Made.zero (hzero : 0 ∉ c.groups) {ch : Change} (h : Made c ch c') : 0 ∉ c'.groups := by
  cases ch with
  | join groups => exact Joined.zero h
  | leave gids => exact fun hz => hzero ((Leaving.mem h 0).mp hz).1
  | move shard gid =>
    obtain ⟨s, -, rfl⟩ := h
    exact hzero

lemma Made.owned (hc : Owned c) {ch : Change} (hp : Proper c ch) (h : Made c ch c') :
    Owned c' := by
  cases ch with
  | join groups => exact Joined.owned h hc
  | leave gids => exact Leaving.owned h hc
  | move shard gid =>
    obtain ⟨s, -, rfl⟩ := h
    refine ⟨hc.zero, fun s' => ?_⟩
    show update c.shards s gid s' ∈ c.groups ∨ update c.shards s gid s' = 0
    rw [update_apply]
    split
    · exact hp.2.2
    · exact hc.owner s'

/-! ### Histories -/

/-- Each configuration is made from the one before. -/
structure Chain (P : Config → Change → Prop) (h : List Config) : Prop where
  first : h[0]? = some initial
  num : ∀ (i : ℕ) (c : Config), h[i]? = some c → c.num = i
  owned : ∀ (i : ℕ) (c : Config), h[i]? = some c → Owned c
  made : ∀ (i : ℕ) (c c' : Config), h[i]? = some c → h[i + 1]? = some c' →
    ∃ ch c₀, P c ch ∧ Made c ch c₀ ∧ c' = { c₀ with num := i + 1 }

variable {P : Config → Change → Prop} {h : List Config}

lemma chain_initial : Chain P [initial] where
  first := rfl
  num := fun i c hi => by
    obtain ⟨rfl, rfl⟩ : i = 0 ∧ initial = c := by simpa [List.getElem?_singleton] using hi
    rfl
  owned := fun i c hi => by
    obtain ⟨rfl, rfl⟩ : i = 0 ∧ initial = c := by simpa [List.getElem?_singleton] using hi
    exact ⟨Finmap.notMem_empty, fun _ => Or.inr rfl⟩
  made := fun i c c' _ hi' => by simp at hi'

lemma Chain.eq_initial (hh : Chain P h) {i : ℕ} (hi : h[i]? = some c) (hnum : c.num = 0) :
    c = initial := by
  rw [hh.num i c hi] at hnum
  rw [hnum, hh.first] at hi
  exact (Option.some.inj hi).symm

lemma Chain.latest (hh : Chain P h) :
    ∃ n latest, h.length = n + 1 ∧ h[n]? = some latest ∧ h.getLast? = some latest := by
  have hpos : 0 < h.length := (List.getElem?_eq_some_iff.mp hh.first).1
  obtain ⟨n, hn⟩ : ∃ n, h.length = n + 1 := ⟨h.length - 1, by omega⟩
  have hlt : n < h.length := by omega
  refine ⟨n, h[n], hn, List.getElem?_eq_getElem hlt, ?_⟩
  rw [List.getLast?_eq_getElem?, hn]
  exact List.getElem?_eq_getElem hlt

lemma Chain.snoc (hh : Chain P h) (hP : ∀ c ch, P c ch → Proper c ch) {n : ℕ} {latest : Config}
    (hlen : h.length = n + 1) (hlast : h[n]? = some latest) {ch : Change} (hch : P latest ch)
    (hmade : Made latest ch c) : Chain P (h ++ [{ c with num := h.length }]) := by
  refine ⟨?_, fun i c' hi => ?_, fun i c' hi => ?_, fun i c₁ c₂ h₁ h₂ => ?_⟩
  · rw [List.getElem?_append_left (by omega), hh.first]
  · rcases getElem?_append_singleton.mp hi with hi | ⟨rfl, rfl⟩
    · exact hh.num i c' hi
    · rfl
  · rcases getElem?_append_singleton.mp hi with hi | ⟨rfl, rfl⟩
    · exact hh.owned i c' hi
    · have := hmade.owned (hh.owned n latest hlast) (hP _ _ hch)
      exact ⟨this.zero, this.owner⟩
  · rcases getElem?_append_singleton.mp h₂ with h₂ | ⟨hi, rfl⟩
    · have hlt := (List.getElem?_eq_some_iff.mp h₂).1
      rw [List.getElem?_append_left (by omega)] at h₁
      exact hh.made i c₁ c₂ h₁ h₂
    · have hin : i = n := by omega
      rw [List.getElem?_append_left (by omega), hin, hlast] at h₁
      obtain rfl := Option.some.inj h₁
      exact ⟨ch, c, hch, hmade, by rw [hi]⟩

lemma Chain.made_of_produce (hh : Chain P h) {latest : Config} (hget : h.getLast? = some latest)
    {ev : Event} (hp : Proper latest ev.change) {h' : List Config} (hs : produce h ev = some h') :
    ∃ c, Made latest ev.change c ∧ h' = h ++ [{ c with num := h.length }] := by
  obtain ⟨n, latest', -, hlast, hget'⟩ := hh.latest
  obtain rfl := Option.some.inj (hget'.symm.trans hget)
  unfold produce at hs
  rw [hget] at hs
  dsimp only at hs
  rcases nextConfig_cases (hh.owned n latest' hlast).zero (hh.eq_initial hlast)
    (hp.safe (hh.owned n latest' hlast)) ev.passes ev.orders
    with ⟨c, hout, hmade⟩ | ⟨hout, -⟩
  · rw [hout] at hs
    exact ⟨c, hmade, (Option.some.inj hs).symm⟩
  · rw [hout] at hs
    cases hs

lemma Chain.step (hh : Chain P h) (hP : ∀ c ch, P c ch → Proper c ch) {ev : Event}
    {h' : List Config} (hev : OnLatest P h ev) (hs : produce h ev = some h') : Chain P h' := by
  obtain ⟨n, latest, hlen, hlast, hget⟩ := hh.latest
  have hch := hev latest hget
  obtain ⟨c, hmade, rfl⟩ := hh.made_of_produce hget (hP _ _ hch) hs
  exact hh.snoc hP hlen hlast hch hmade

/-- **Every history is a chain.** -/
theorem chain_of_reaches (hP : ∀ c ch, P c ch → Proper c ch)
    (hr : ReachesIf produce (OnLatest P) [initial] h) : Chain P h :=
  hr.inv chain_initial fun _ _ _ hh hev hs => hh.step hP hev hs

lemma Chain.produce (hh : Chain P h) {latest : Config} (hget : h.getLast? = some latest)
    (ch : Change) (hp : Proper latest ch) (hne : ¬ FirstEmpty latest ch) {passes : ℕ}
    (hpasses : NShards ≤ passes) (orders : ℕ → Order Gid) :
    ∃ c, Made latest ch c ∧ CtrlHistory.produce h ⟨ch, passes, orders⟩ =
      some (h ++ [{ c with num := h.length }]) := by
  obtain ⟨n, latest', -, hlast, hget'⟩ := hh.latest
  obtain rfl := Option.some.inj (hget'.symm.trans hget)
  unfold CtrlHistory.produce
  rw [hget]
  dsimp only
  rcases nextConfig_cases (hh.owned n latest' hlast).zero (hh.eq_initial hlast)
    (hp.safe (hh.owned n latest' hlast)) passes orders
    with ⟨c, hout, hmade⟩ | ⟨-, -, hempty⟩
  · exact ⟨c, hmade, by rw [hout]⟩
  · exact absurd (hempty hpasses) hne

lemma Chain.outcome (hh : Chain P h) {latest : Config} (hget : h.getLast? = some latest)
    {ch : Change} (hp : Proper latest ch) (passes : ℕ) (orders : ℕ → Order Gid) :
    (∃ c, (nextConfig passes ch latest).outcome orders = .ok c) ∨
      ((nextConfig passes ch latest).outcome orders = .error .running ∧ latest.num = 0 ∧
        (NShards ≤ passes → FirstEmpty latest ch)) := by
  obtain ⟨n, latest', -, hlast, hget'⟩ := hh.latest
  obtain rfl := Option.some.inj (hget'.symm.trans hget)
  rcases nextConfig_cases (hh.owned n latest' hlast).zero (hh.eq_initial hlast)
    (hp.safe (hh.owned n latest' hlast)) passes orders
    with ⟨c, hout, -⟩ | hrun
  · exact Or.inl ⟨c, hout⟩
  · exact Or.inr hrun

lemma Chain.all (hh : Chain P h) {Q : Config → Prop} (h₀ : Q initial)
    (hstep : ∀ (i : ℕ) c c' ch, h[i]? = some c → P c ch → Q c → Made c ch c' →
      Q { c' with num := i + 1 }) {i : ℕ} (hi : h[i]? = some c) : Q c := by
  induction i generalizing c with
  | zero =>
    rw [hh.first] at hi
    exact Option.some.inj hi ▸ h₀
  | succ i ih =>
    have hlt := (List.getElem?_eq_some_iff.mp hi).1
    have hprev : h[i]? = some h[i] := List.getElem?_eq_getElem (by omega)
    obtain ⟨ch, c₀, hch, hmade, rfl⟩ := hh.made i _ c hprev hi
    exact hstep i _ c₀ ch hprev hch (ih hprev) hmade

lemma valid_initial : Valid initial where
  zero := Finmap.notMem_empty
  owner := fun _ => Or.inr rfl
  settled := fun _ => Or.inr fun _ => Finmap.notMem_empty

/-- If shards are moved to groups only, every shard is with a group as long as there is one. -/
lemma Chain.valid (hh : Chain P h) (hmove : ∀ c s g, P c (.move s g) → g ∈ c.groups) {i : ℕ}
    (hi : h[i]? = some c) : Valid c := by
  refine hh.all valid_initial (fun i c c' ch _ hch hc hmade => ?_) hi
  suffices hv : Valid c' from ⟨⟨hv.zero, hv.owner⟩, hv.settled⟩
  cases ch with
  | join groups => exact hmade.valid hc
  | leave gids => exact hmade.valid hc
  | move shard gid =>
    obtain ⟨s, -, rfl⟩ := hmade
    have hin : ∀ s', update c.shards s gid s' ∈ c.groups := fun s' => by
      have hgid := hmove c shard gid hch
      rw [update_apply]
      split
      · exact hgid
      · exact hc.mem hgid s'
    exact ⟨⟨hc.zero, fun s' => Or.inl (hin s')⟩, fun s' => Or.inl (hin s')⟩

end Mit6824.CtrlHistory
