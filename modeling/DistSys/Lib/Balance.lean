import Mathlib.Algebra.BigOperators.Group.Finset.Basic
import Mathlib.Algebra.Order.BigOperators.Group.Finset
import Mathlib.Algebra.BigOperators.Ring.Finset
import Mathlib.Logic.Relation
import Mathlib.Order.Lattice.Nat

/-!
# Balanced assignments

Items are assigned to owners, and a set of owners shares all items. An assignment is balanced if no
owner of the set has two items more than another. Two kinds of rounds lead to a balanced one: an
item of an owner outside the set is placed with an owner that has the fewest (`Place`), and, once
all items are placed, an item is shifted from an owner with the most to one with the fewest
(`Shift`).

* `sum_le_sum_of_exchange`, `card_moved_le` — an assignment whose moves all go to new owners, none
  of which ends with more than an old one, moves as few items as any balanced assignment.
* `Levelled.of_rounds` — what rounds that start from a balanced assignment of the old owners lead
  to.
* `evenly_iff_of_places` — placing alone gives an even assignment exactly if there are as many items
  to place as the owners lack.
-/

namespace DistSys

variable {α ι : Type*} [Fintype α] [DecidableEq ι]

/-- How many items an owner has. -/
def load (owner : α → ι) (g : ι) : ℕ := (Finset.univ.filter fun a => owner a = g).card

/-- The items that change their owner. -/
def moved (owner owner' : α → ι) : Finset α := Finset.univ.filter fun a => owner' a ≠ owner a

/-- No owner of the set has two items more than another. -/
def Evenly (G : Finset ι) (owner : α → ι) : Prop :=
  ∀ g ∈ G, ∀ g' ∈ G, load owner g ≤ load owner g' + 1

instance (G : Finset ι) (owner : α → ι) : Decidable (Evenly G owner) :=
  inferInstanceAs (Decidable (∀ g ∈ G, ∀ g' ∈ G, load owner g ≤ load owner g' + 1))

/-- The owners of the set share all items evenly. -/
structure Balanced (G : Finset ι) (owner : α → ι) : Prop where
  mem : ∀ a, owner a ∈ G
  evenly : Evenly G owner

variable {G : Finset ι} {owner owner' : α → ι} {a : α} {g t : ι}

/-! ## Loads -/

theorem card_mem_eq_sum_load (owner : α → ι) (N : Finset ι) :
    (Finset.univ.filter fun a => owner a ∈ N).card = ∑ g ∈ N, load owner g := by
  have hmaps : ∀ a ∈ Finset.univ.filter fun a => owner a ∈ N, owner a ∈ N := fun a ha =>
    (Finset.mem_filter.1 ha).2
  rw [Finset.card_eq_sum_card_fiberwise hmaps]
  refine Finset.sum_congr rfl fun g hg => ?_
  rw [load, Finset.filter_filter]
  congr 1
  ext a
  simp only [Finset.mem_filter, Finset.mem_univ, true_and, and_iff_right_iff_imp]
  rintro rfl
  exact hg

theorem sum_load (h : ∀ a, owner a ∈ G) : ∑ g ∈ G, load owner g = Fintype.card α := by
  rw [← card_mem_eq_sum_load, Finset.filter_true_of_mem fun a _ => h a, Finset.card_univ]

/-! ## Moving as few items as possible -/

/-- Among the even distributions of a total, one in which the owners outside `N` are ahead of those
in `N` gives `N` the least. -/
theorem sum_le_sum_of_exchange {N : Finset ι} {f f' : ι → ℕ} (hN : N ⊆ G)
    (hsum : ∑ g ∈ G, f g = ∑ g ∈ G, f' g) (hahead : ∀ h ∈ N, ∀ g ∈ G \ N, f h ≤ f g)
    (heven : ∀ g ∈ G, ∀ g' ∈ G, f' g ≤ f' g' + 1) : ∑ h ∈ N, f h ≤ ∑ h ∈ N, f' h := by
  by_contra hlt
  obtain ⟨h, hh, hfh⟩ := Finset.exists_lt_of_sum_lt (Nat.not_le.1 hlt)
  -- what `N` has less, some owner outside has more
  have hrest : ∑ g ∈ G \ N, f g < ∑ g ∈ G \ N, f' g := by
    rw [← Finset.sum_sdiff hN, ← Finset.sum_sdiff hN] at hsum
    omega
  obtain ⟨g, hg, hfg⟩ := Finset.exists_lt_of_sum_lt hrest
  have hle := hahead h hh g hg
  have hgap := heven g (Finset.mem_sdiff.1 hg).1 h (hN hh)
  omega

/-- All moves go to the owners in `N`, which had nothing and end with no more than the others: no
balanced assignment moves fewer items. -/
theorem card_moved_le {N : Finset ι} (hN : N ⊆ G) (hold : ∀ a, owner a ∉ N)
    (hmem : ∀ a, owner' a ∈ G) (hnew : ∀ a, owner' a ≠ owner a → owner' a ∈ N)
    (hahead : ∀ h ∈ N, ∀ g ∈ G \ N, load owner' h ≤ load owner' g) {other : α → ι}
    (hother : Balanced G other) : (moved owner owner').card ≤ (moved owner other).card := by
  have hle : moved owner owner' ⊆ Finset.univ.filter fun a => owner' a ∈ N := fun a ha =>
    Finset.mem_filter.2 ⟨Finset.mem_univ a, hnew a (Finset.mem_filter.1 ha).2⟩
  have hge : (Finset.univ.filter fun a => other a ∈ N) ⊆ moved owner other := fun a ha =>
    Finset.mem_filter.2 ⟨Finset.mem_univ a, fun he => hold a (he ▸ (Finset.mem_filter.1 ha).2)⟩
  calc (moved owner owner').card
      ≤ (Finset.univ.filter fun a => owner' a ∈ N).card := Finset.card_le_card hle
    _ = ∑ h ∈ N, load owner' h := card_mem_eq_sum_load owner' N
    _ ≤ ∑ h ∈ N, load other h :=
        sum_le_sum_of_exchange hN ((sum_load hmem).trans (sum_load hother.mem).symm) hahead
          hother.evenly
    _ = (Finset.univ.filter fun a => other a ∈ N).card := (card_mem_eq_sum_load other N).symm
    _ ≤ (moved owner other).card := Finset.card_le_card hge

/-- Only items are moved whose owner is not in the set: every assignment to the set moves them. -/
theorem moved_subset (h : ∀ a, owner a ∈ G → owner' a = owner a) {other : α → ι}
    (hother : ∀ a, other a ∈ G) : moved owner owner' ⊆ moved owner other := by
  intro a ha
  refine Finset.mem_filter.2 ⟨Finset.mem_univ a, fun he => (Finset.mem_filter.1 ha).2 (h a ?_)⟩
  exact he ▸ hother a

/-! ## Old and new owners -/

/-- An owner with the fewest items. -/
structure Least (G : Finset ι) (owner : α → ι) (t : ι) : Prop where
  mem : t ∈ G
  le : ∀ g ∈ G, load owner t ≤ load owner g

/-- The old owners are even among themselves, the new ones too, no new one is ahead of an old one,
and what moved is with the new ones. -/
structure Levelled (O N : Finset ι) (owner₀ owner : α → ι) : Prop where
  mem : ∀ a, owner a ∈ O ∪ N
  old : Evenly O owner
  new : Evenly N owner
  ahead : ∀ h ∈ N, ∀ g ∈ O, load owner h ≤ load owner g
  kept : ∀ a, owner a ≠ owner₀ a → owner a ∈ N

variable {O N : Finset ι} {owner₀ : α → ι}

/-- A balanced assignment of the old owners: the new ones have nothing. -/
theorem Levelled.of_balanced (h : Balanced O owner₀) (hdisj : Disjoint O N) :
    Levelled O N owner₀ owner₀ := by
  have hzero : ∀ g ∈ N, load owner₀ g = 0 := fun g hg =>
    Finset.card_eq_zero.2 (Finset.filter_eq_empty_iff.2 fun a _ he =>
      Finset.disjoint_left.1 hdisj (h.mem a) (he ▸ hg))
  exact
    { mem := fun a => Finset.mem_union_left N (h.mem a)
      old := h.evenly
      new := fun g hg g' _ => by rw [hzero g hg]; exact Nat.zero_le _
      ahead := fun g hg g' _ => by rw [hzero g hg]; exact Nat.zero_le _
      kept := fun a hne => absurd rfl hne }

/-- Where a shift takes an item from, and where to. -/
theorem Levelled.source_target (h : Levelled O N owner₀ owner) (ht : Least (O ∪ N) owner t)
    (hgap : load owner t + 2 ≤ load owner (owner a)) : owner a ∈ O ∧ t ∈ N := by
  rcases Finset.mem_union.1 (h.mem a) with hs | hs
  · refine ⟨hs, (Finset.mem_union.1 ht.mem).resolve_left fun hold => ?_⟩
    have := h.old _ hs _ hold
    omega
  · rcases Finset.mem_union.1 ht.mem with hold | hnew
    · have := h.ahead _ hs _ hold
      omega
    · have := h.new _ hs _ hnew
      omega

/-! ## Lacking items -/

/-- What the owners lack to be at most one behind the largest. -/
def deficit (G : Finset ι) (owner : α → ι) : ℕ :=
  ∑ g ∈ G, (G.sup (load owner) - 1 - load owner g)

/-- How many items are to be placed. -/
def unplaced (G : Finset ι) (owner : α → ι) : ℕ :=
  (Finset.univ.filter fun a => owner a ∉ G).card

theorem deficit_eq_zero_iff : deficit G owner = 0 ↔ Evenly G owner := by
  rw [deficit, Finset.sum_eq_zero_iff]
  constructor
  · intro h g hg g' hg'
    have hle : load owner g ≤ G.sup (load owner) := Finset.le_sup hg
    have := h g' hg'
    omega
  · intro h g hg
    have hle : G.sup (load owner) ≤ load owner g + 1 := Finset.sup_le fun g' hg' => h g' hg' g hg
    omega

/-! ## Rounds -/

variable [DecidableEq α]

/-- An item that changes its owner: one less at the old owner, one more at the new. -/
theorem load_update (owner : α → ι) (a : α) (t g : ι) :
    load (Function.update owner a t) g + (if owner a = g then 1 else 0) =
      load owner g + (if t = g then 1 else 0) := by
  have hsplit : ∀ f : α → ι, load f g =
      (if f a = g then 1 else 0) + ∑ b ∈ Finset.univ.erase a, if f b = g then 1 else 0 := by
    intro f
    rw [load, Finset.card_filter,
      Finset.add_sum_erase _ (fun b => if f b = g then 1 else 0) (Finset.mem_univ a)]
  have hrest : (∑ b ∈ Finset.univ.erase a, if Function.update owner a t b = g then 1 else 0) =
      ∑ b ∈ Finset.univ.erase a, if owner b = g then 1 else 0 := by
    refine Finset.sum_congr rfl fun b hb => ?_
    rw [Function.update_of_ne (Finset.ne_of_mem_erase hb)]
  rw [hsplit, hsplit owner, hrest, Function.update_self]
  omega

theorem load_update_target (h : owner a ≠ t) :
    load (Function.update owner a t) t = load owner t + 1 := by
  have := load_update owner a t t
  rwa [if_neg h, if_pos rfl] at this

theorem load_update_of_ne (ha : owner a ≠ g) (ht : t ≠ g) :
    load (Function.update owner a t) g = load owner g := by
  have := load_update owner a t g
  rwa [if_neg ha, if_neg ht] at this

theorem load_update_source (h : owner a ≠ t) :
    load (Function.update owner a t) (owner a) + 1 = load owner (owner a) := by
  have := load_update owner a t (owner a)
  rwa [if_pos rfl, if_neg (Ne.symm h)] at this

/-- An item of an owner outside the set goes to an owner with the fewest. -/
inductive Place (G : Finset ι) (owner : α → ι) : (α → ι) → Prop
  | mk (a : α) (t : ι) (ha : owner a ∉ G) (ht : Least G owner t) :
    Place G owner (Function.update owner a t)

/-- All items are placed, and one goes from an owner with the most to one with the fewest, which has
at least two less. -/
inductive Shift (G : Finset ι) (owner : α → ι) : (α → ι) → Prop
  | mk (a : α) (t : ι) (hall : ∀ b, owner b ∈ G) (ht : Least G owner t)
    (hmax : ∀ g ∈ G, load owner g ≤ load owner (owner a))
    (hgap : load owner t + 2 ≤ load owner (owner a)) : Shift G owner (Function.update owner a t)

inductive Round (G : Finset ι) (owner owner' : α → ι) : Prop
  | place (h : Place G owner owner')
  | shift (h : Shift G owner owner')

/-! ## Levelling -/

theorem Levelled.shift (hdisj : Disjoint O N) (h : Levelled O N owner₀ owner)
    (hshift : Shift (O ∪ N) owner owner') : Levelled O N owner₀ owner' := by
  cases hshift with
  | mk a t hall ht hmax hgap =>
    obtain ⟨hs, htN⟩ := h.source_target ht hgap
    have hne : owner a ≠ t := fun he => Finset.disjoint_left.1 hdisj hs (he ▸ htN)
    have htarget := load_update_target hne
    have hsource := load_update_source hne
    have hold : ∀ g ∈ O, g ≠ owner a → load (Function.update owner a t) g = load owner g := by
      intro g hg hga
      exact load_update_of_ne (Ne.symm hga) fun he => Finset.disjoint_left.1 hdisj hg (he ▸ htN)
    have hnew : ∀ g ∈ N, g ≠ t → load (Function.update owner a t) g = load owner g := by
      intro g hg hgt
      exact load_update_of_ne (fun he => Finset.disjoint_left.1 hdisj hs (he ▸ hg)) (Ne.symm hgt)
    refine ⟨fun b => ?_, fun g hg g' hg' => ?_, fun g hg g' hg' => ?_, fun g hg g' hg' => ?_,
      fun b hb => ?_⟩
    · by_cases hb : b = a
      · rw [hb, Function.update_self]
        exact ht.mem
      · rw [Function.update_of_ne hb]
        exact hall b
    · -- the source has the most of the old ones, and stays at most one behind
      have hg₁ := hmax g (Finset.mem_union_left N hg)
      have hg₂ := h.old _ hs g' hg'
      by_cases h₁ : g = owner a <;> by_cases h₂ : g' = owner a
      · subst h₁ h₂
        omega
      · subst h₁
        rw [hold g' hg' h₂]
        omega
      · subst h₂
        rw [hold g hg h₁]
        omega
      · rw [hold g hg h₁, hold g' hg' h₂]
        exact h.old g hg g' hg'
    · -- the target had the fewest of the new ones, and gets at most one ahead
      have hg₁ := h.new g hg t htN
      have hg₂ := ht.le g' (Finset.mem_union_right O hg')
      by_cases h₁ : g = t <;> by_cases h₂ : g' = t
      · subst h₁ h₂
        omega
      · subst h₁
        rw [hnew g' hg' h₂]
        omega
      · subst h₂
        rw [hnew g hg h₁]
        omega
      · rw [hnew g hg h₁, hnew g' hg' h₂]
        exact h.new g hg g' hg'
    · -- the gap of two is closed from both sides
      have hg₁ := h.new g hg t htN
      have hg₂ := h.old _ hs g' hg'
      by_cases h₁ : g = t <;> by_cases h₂ : g' = owner a
      · subst h₁ h₂
        omega
      · subst h₁
        rw [hold g' hg' h₂]
        omega
      · subst h₂
        rw [hnew g hg h₁]
        omega
      · rw [hnew g hg h₁, hold g' hg' h₂]
        exact h.ahead g hg g' hg'
    · by_cases hba : b = a
      · rw [hba, Function.update_self]
        exact htN
      · rw [Function.update_of_ne hba] at hb ⊢
        exact h.kept b hb

/-- Rounds that start from a balanced assignment of the old owners level the old and the new. -/
theorem Levelled.of_rounds (hdisj : Disjoint O N) (h : Balanced O owner₀)
    (hrounds : Relation.ReflTransGen (Round (O ∪ N)) owner₀ owner) : Levelled O N owner₀ owner := by
  induction hrounds with
  | refl => exact .of_balanced h hdisj
  | tail _ hround ih =>
    cases hround with
    | place hplace => cases hplace with | mk a t ha ht => exact absurd (ih.mem a) ha
    | shift hshift => exact ih.shift hdisj hshift

/-! ## Placing -/

/-- A placed item is one more with its new owner; nothing else changes in the set. -/
theorem Place.load_eq (h : Place G owner owner') : ∃ t, Least G owner t ∧
    load owner' t = load owner t + 1 ∧ ∀ g ∈ G, g ≠ t → load owner' g = load owner g := by
  cases h with
  | mk a t ha ht =>
    refine ⟨t, ht, load_update_target fun he => ha (he ▸ ht.mem), fun g hg hne => ?_⟩
    exact load_update_of_ne (fun he => ha (he ▸ hg)) (Ne.symm hne)

theorem Place.evenly (h : Place G owner owner') (he : Evenly G owner) : Evenly G owner' := by
  obtain ⟨t, ht, htarget, hrest⟩ := h.load_eq
  intro g hg g' hg'
  have hle := he g hg g' hg'
  have hmin := ht.le g' hg'
  by_cases h₁ : g = t <;> by_cases h₂ : g' = t
  · rw [h₁, h₂]
    omega
  · rw [h₁, htarget, hrest g' hg' h₂]
    omega
  · rw [h₂, htarget, hrest g hg h₁]
    rw [h₂] at hle
    omega
  · rw [hrest g hg h₁, hrest g' hg' h₂]
    exact hle

theorem evenly_of_places (h : Relation.ReflTransGen (Place G) owner owner')
    (he : Evenly G owner) : Evenly G owner' := by
  induction h with
  | refl => exact he
  | tail _ hplace ih => exact hplace.evenly ih

/-- Items that are placed stay. -/
theorem eq_of_places (h : Relation.ReflTransGen (Place G) owner owner') (ha : owner a ∈ G) :
    owner' a = owner a := by
  induction h with
  | refl => rfl
  | @tail owner₁ _ _ hplace ih =>
    cases hplace with
    | mk b t hb ht =>
      have hne : a ≠ b := fun he => hb (by rw [← he, ih]; exact ha)
      rw [Function.update_of_ne hne, ih]

/-- As long as the owners lack items, one that is placed is one less that they lack. -/
theorem Place.deficit_eq (h : Place G owner owner') (hpos : deficit G owner ≠ 0) :
    deficit G owner' + 1 = deficit G owner := by
  obtain ⟨t, ht, htarget, hrest⟩ := h.load_eq
  have hlow : load owner t + 2 ≤ G.sup (load owner) := by
    by_contra hlt
    refine hpos (deficit_eq_zero_iff.2 fun g hg g' hg' => ?_)
    have hle : load owner g ≤ G.sup (load owner) := Finset.le_sup hg
    have hmin := ht.le g' hg'
    omega
  have hsup : G.sup (load owner') = G.sup (load owner) := by
    refine le_antisymm (Finset.sup_le fun g hg => ?_) (Finset.sup_le fun g hg => ?_)
    · by_cases hgt : g = t
      · rw [hgt, htarget]
        omega
      · rw [hrest g hg hgt]
        exact Finset.le_sup hg
    · refine le_trans ?_ (Finset.le_sup (f := load owner') hg)
      by_cases hgt : g = t
      · rw [hgt, htarget]
        exact Nat.le_succ _
      · rw [hrest g hg hgt]
  have hsum : ∑ g ∈ G.erase t, (G.sup (load owner) - 1 - load owner' g) =
      ∑ g ∈ G.erase t, (G.sup (load owner) - 1 - load owner g) := by
    refine Finset.sum_congr rfl fun g hg => ?_
    rw [hrest g (Finset.mem_of_mem_erase hg) (Finset.ne_of_mem_erase hg)]
  rw [deficit, deficit, hsup, ← Finset.add_sum_erase _ _ ht.mem, ← Finset.add_sum_erase _ _ ht.mem,
    hsum, htarget]
  omega

theorem Place.unplaced_eq (h : Place G owner owner') : unplaced G owner' + 1 = unplaced G owner := by
  cases h with
  | mk a t ha ht =>
    have hmem : a ∈ Finset.univ.filter fun b => owner b ∉ G :=
      Finset.mem_filter.2 ⟨Finset.mem_univ a, ha⟩
    have herase : (Finset.univ.filter fun b => Function.update owner a t b ∉ G) =
        (Finset.univ.filter fun b => owner b ∉ G).erase a := by
      ext b
      simp only [Finset.mem_filter, Finset.mem_univ, true_and, Finset.mem_erase]
      by_cases hb : b = a
      · simp [hb, ht.mem]
      · simp [hb]
    rw [unplaced, unplaced, herase, Finset.card_erase_add_one hmem]

/-- **Placing all items** leaves the owners even exactly if there were as many as they lacked. -/
theorem evenly_iff_of_places (h : Relation.ReflTransGen (Place G) owner owner')
    (hall : ∀ a, owner' a ∈ G) : Evenly G owner' ↔ deficit G owner ≤ unplaced G owner := by
  induction h using Relation.ReflTransGen.head_induction_on with
  | refl =>
    have hzero : unplaced G owner' = 0 :=
      Finset.card_eq_zero.2 (Finset.filter_eq_empty_iff.2 fun a _ hn => hn (hall a))
    rw [hzero, Nat.le_zero, deficit_eq_zero_iff]
  | @head owner _ hplace hplaces ih =>
    have hless := hplace.unplaced_eq
    by_cases hzero : deficit G owner = 0
    · have heven := evenly_of_places hplaces (hplace.evenly (deficit_eq_zero_iff.1 hzero))
      rw [hzero]
      exact iff_of_true heven (Nat.zero_le _)
    · have hone := hplace.deficit_eq hzero
      rw [ih]
      omega

end DistSys
