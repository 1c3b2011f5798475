import DistSys.Lib.Runs
import Mathlib.Data.List.Perm.Basic
import Mathlib.Data.List.Dedup
import Mathlib.Data.List.Nodup
import Mathlib.Order.Lattice

/-!
# Linearizability

A history is a list of operations. `prec b a` says that `b` returned before `a` was called. An order
of the operations is a *linearization* if a sequential object can take them in this order, and no
operation stands after one that was called when it had returned.

An operation carries what was asked and what was answered, so the sequential object is a partial
function `step : σ → α → Option σ`, which refuses an operation with a wrong answer.

**Intervals.** When operations have times, `prec b a` is `ret b < call a`. Then an order respects
`prec` if and only if the operations take effect at points within their intervals, one after another
(`exists_points`, `pairwise_of_points`).

**Locality.** An object that consists of one object for each key (`stepAt`) is linearizable if and
only if each of them is (`linearizable_stepAt`): the points of all keys can be merged.
-/

namespace DistSys

variable {α β σ : Type*}

/-- The order `l` of the operations of `h` explains the history. -/
structure IsLinearization (step : σ → α → Option σ) (prec : α → α → Prop) (s : σ)
    (h l : List α) : Prop where
  perm : l.Perm h
  legal : ∃ t, run step s l = some t
  order : l.Pairwise fun a b => ¬ prec b a

def Linearizable (step : σ → α → Option σ) (prec : α → α → Prop) (s : σ) (h : List α) : Prop :=
  ∃ l, IsLinearization step prec s h l

/-- An order of some of the operations, with all operations that precede one of them. -/
structure IsPartialLinearization (step : σ → α → Option σ) (prec : α → α → Prop) (s : σ)
    (h l : List α) : Prop where
  subperm : l.Subperm h
  legal : ∃ t, run step s l = some t
  order : l.Pairwise fun a b => ¬ prec b a
  closed : ∀ a ∈ l, ∀ b ∈ h, prec b a → b ∈ l

/-- The order in which operations are listed does not matter. -/
theorem linearizable_perm {step : σ → α → Option σ} {prec : α → α → Prop} {s : σ} {h h' : List α}
    (hperm : h.Perm h') : Linearizable step prec s h ↔ Linearizable step prec s h' :=
  exists_congr fun _ => ⟨fun hl => ⟨hl.perm.trans hperm, hl.legal, hl.order⟩,
    fun hl => ⟨hl.perm.trans hperm.symm, hl.legal, hl.order⟩⟩

section Map

variable {step : σ → α → Option σ} {step' : σ → β → Option σ} {prec : α → α → Prop}
  {prec' : β → β → Prop} {f : β → α} {s : σ} {h : List β}

theorem run_map (hstep : ∀ b ∈ h, ∀ s, step' s b = step s (f b)) :
    run step' s h = run step s (h.map f) := by
  induction h generalizing s with
  | nil => rfl
  | cons b h ih =>
    rw [List.map_cons, run_cons, run_cons, hstep b List.mem_cons_self]
    congr 1
    funext t
    exact ih fun c hc => hstep c (List.mem_cons_of_mem b hc)

/-- Operations can be given by names. -/
theorem linearizable_map (hstep : ∀ b ∈ h, ∀ s, step' s b = step s (f b))
    (hprec : ∀ b ∈ h, ∀ c ∈ h, prec' b c ↔ prec (f b) (f c)) :
    Linearizable step' prec' s h ↔ Linearizable step prec s (h.map f) := by
  constructor
  · rintro ⟨l, hperm, ⟨t, hrun⟩, horder⟩
    refine ⟨l.map f, hperm.map f, ⟨t, ?_⟩, List.pairwise_map.2 ?_⟩
    · rw [← hrun, run_map fun b hb => hstep b (hperm.mem_iff.1 hb)]
    · refine horder.imp_of_mem fun hb hc h => ?_
      rwa [← hprec _ (hperm.mem_iff.1 hc) _ (hperm.mem_iff.1 hb)]
  · rintro ⟨l, hperm', ⟨t, hrun⟩, horder⟩
    obtain ⟨l', rfl, hperm⟩ : ∃ l' : List β, l = l'.map f ∧ l'.Perm h := by
      have := congrFun₂ (List.eq_map_comp_perm f) l h
      exact this.mpr hperm'
    refine ⟨l', hperm, ⟨t, ?_⟩, ?_⟩
    · rw [run_map fun b hb => hstep b (hperm.mem_iff.1 hb), hrun]
    · refine (List.pairwise_map.1 horder).imp_of_mem fun hb hc h => ?_
      rwa [hprec _ (hperm.mem_iff.1 hc) _ (hperm.mem_iff.1 hb)]

theorem exists_of_forall₂ {R : β → α → Prop} {l : List β} {l' : List α} (h : List.Forall₂ R l l')
    {b : β} (hb : b ∈ l) : ∃ a ∈ l', R b a := by
  induction h with
  | nil => cases hb
  | @cons c a l l' hca _ ih =>
    rcases List.mem_cons.1 hb with rfl | hb
    · exact ⟨a, List.mem_cons_self, hca⟩
    · obtain ⟨d, hd, hbd⟩ := ih hb
      exact ⟨d, List.mem_cons_of_mem a hd, hbd⟩

/-- A history is linearizable if one is that has the same operations with more of them in order. -/
theorem Linearizable.of_forall₂ {R : β → α → Prop} {h' : List α} (hR : List.Forall₂ R h h')
    (hstep : ∀ b a, R b a → ∀ s, step' s b = step s a)
    (hprec : ∀ b a c d, R b a → R c d → prec' b c → prec a d)
    (hlin : Linearizable step prec s h') : Linearizable step' prec' s h := by
  obtain ⟨l, hperm, ⟨t, hrun⟩, horder⟩ := hlin
  obtain ⟨l', hperm', hl'⟩ : ∃ l', l'.Perm h ∧ List.Forall₂ R l' l := by
    have := List.forall₂_comp_perm_eq_perm_comp_forall₂ (r := R)
    obtain ⟨l', h₁, h₂⟩ := (congrFun₂ this h l).mp ⟨h', hR, hperm.symm⟩
    exact ⟨l', h₁.symm, h₂⟩
  refine ⟨l', hperm', ⟨t, ?_⟩, ?_⟩
  · clear hperm hperm' horder
    induction hl' generalizing s with
    | nil => exact hrun
    | @cons b a l' l hba _ ih =>
      obtain ⟨s', ha, hrun⟩ := run_cons_eq_some.1 hrun
      exact run_cons_eq_some.2 ⟨s', by rw [hstep b a hba, ha], ih hrun⟩
  · clear hperm hperm' hrun
    induction hl' with
    | nil => exact .nil
    | @cons b a l' l hba hl' ih =>
      rw [List.pairwise_cons] at horder
      refine List.pairwise_cons.2 ⟨fun c hc hcb => ?_, ih horder.2⟩
      obtain ⟨d, hd, hcd⟩ := exists_of_forall₂ hl' hc
      exact horder.1 d hd (hprec c d b a hcd hba hcb)

end Map

/-! ## Points of effect -/

section Points

variable {τ : Type*} [LinearOrder τ] {call ret : α → τ}

theorem exists_points_ge {l : List α} (hl : l.Pairwise fun a b => call a ≤ ret b)
    (hle : ∀ a ∈ l, call a ≤ ret a) {t : τ} (ht : ∀ a ∈ l, t ≤ ret a) :
    ∃ p : List (τ × α), p.map Prod.snd = l ∧ p.Pairwise (fun x y => x.1 ≤ y.1) ∧
      ∀ x ∈ p, t ≤ x.1 ∧ call x.2 ≤ x.1 ∧ x.1 ≤ ret x.2 := by
  induction l generalizing t with
  | nil => exact ⟨[], rfl, .nil, by simp⟩
  | cons a l ih =>
    rw [List.pairwise_cons] at hl
    -- the operation takes effect as early as it can, after those before it
    obtain ⟨p, hp, hsorted, hin⟩ := ih (t := max t (call a)) hl.2
      (fun b hb => hle b (List.mem_cons_of_mem a hb))
      (fun b hb => max_le (ht b (List.mem_cons_of_mem a hb)) (hl.1 b hb))
    refine ⟨(max t (call a), a) :: p, by rw [List.map_cons, hp], ?_, ?_⟩
    · exact List.pairwise_cons.2 ⟨fun x hx => (hin x hx).1, hsorted⟩
    · rw [List.forall_mem_cons]
      refine ⟨⟨le_max_left _ _, le_max_right _ _, ?_⟩, fun x hx => ?_⟩
      · exact max_le (ht a List.mem_cons_self) (hle a List.mem_cons_self)
      · exact ⟨(le_max_left _ _).trans (hin x hx).1, (hin x hx).2⟩

/-- In an order that respects real time every operation can be given a point of its interval, so
that the points do not decrease. -/
theorem exists_points {l : List α} (hl : l.Pairwise fun a b => ¬ ret b < call a)
    (hle : ∀ a ∈ l, call a ≤ ret a) :
    ∃ p : List (τ × α), p.map Prod.snd = l ∧ p.Pairwise (fun x y => x.1 ≤ y.1) ∧
      ∀ x ∈ p, call x.2 ≤ x.1 ∧ x.1 ≤ ret x.2 := by
  cases l with
  | nil => exact ⟨[], rfl, .nil, by simp⟩
  | cons a l =>
    have hl' := hl.imp fun h => not_lt.1 h
    have ht : ∀ b ∈ a :: l, call a ≤ ret b :=
      List.forall_mem_cons.2 ⟨hle a List.mem_cons_self, (List.pairwise_cons.1 hl').1⟩
    obtain ⟨p, hp, hsorted, hin⟩ := exists_points_ge hl' hle ht
    exact ⟨p, hp, hsorted, fun x hx => (hin x hx).2⟩

theorem pairwise_of_points {p : List (τ × α)} (hsorted : p.Pairwise fun x y => x.1 ≤ y.1)
    (hin : ∀ x ∈ p, call x.2 ≤ x.1 ∧ x.1 ≤ ret x.2) :
    (p.map Prod.snd).Pairwise fun a b => ¬ ret b < call a := by
  refine List.pairwise_map.2 (hsorted.imp_of_mem fun {x y} hx hy hxy => not_lt.2 ?_)
  calc call x.2 ≤ x.1 := (hin x hx).1
    _ ≤ y.1 := hxy
    _ ≤ ret y.2 := (hin y hy).2

end Points

/-! ## Objects that consist of independent parts -/

section Locality

variable {κ : Type*} [DecidableEq κ] (key : α → κ) (step : σ → α → Option σ)

/-- One object for each key. -/
def stepAt (f : κ → σ) (a : α) : Option (κ → σ) :=
  (step (f (key a)) a).map (Function.update f (key a))

/-- The operations on one part of the object. -/
def onKey (k : κ) (h : List α) : List α := h.filter fun a => key a = k

variable {key step}

theorem mem_onKey {k : κ} {h : List α} {a : α} : a ∈ onKey key k h ↔ a ∈ h ∧ key a = k := by
  simp [onKey]

theorem onKey_cons_self {a : α} {h : List α} :
    onKey key (key a) (a :: h) = a :: onKey key (key a) h := by
  simp [onKey]

theorem onKey_cons_ne {k : κ} {a : α} {h : List α} (hk : key a ≠ k) :
    onKey key k (a :: h) = onKey key k h := by
  simp [onKey, hk]

/-- The parts run independently. -/
theorem run_stepAt {f g : κ → σ} {l : List α} :
    run (stepAt key step) f l = some g ↔ ∀ k, run step (f k) (onKey key k l) = some (g k) := by
  induction l generalizing f with
  | nil => simp [onKey, funext_iff]
  | cons a l ih =>
    rw [run_cons_eq_some]
    constructor
    · rintro ⟨f', hf', hrun⟩ k
      obtain ⟨t, ht, rfl⟩ := Option.map_eq_some_iff.1 hf'
      have hk := ih.1 hrun k
      by_cases h : key a = k
      · subst h
        rw [Function.update_self] at hk
        rw [onKey_cons_self]
        exact run_cons_eq_some.2 ⟨t, ht, hk⟩
      · rw [Function.update_of_ne (Ne.symm h)] at hk
        rwa [onKey_cons_ne h]
    · intro h
      have ha := h (key a)
      rw [onKey_cons_self] at ha
      obtain ⟨t, ht, hrest⟩ := run_cons_eq_some.1 ha
      refine ⟨Function.update f (key a) t, by rw [stepAt, ht, Option.map_some], ih.2 fun k => ?_⟩
      by_cases hk : key a = k
      · subst hk
        rwa [Function.update_self]
      · rw [Function.update_of_ne (Ne.symm hk), ← onKey_cons_ne hk]
        exact h k

theorem perm_of_onKey {l h : List α} (hperm : ∀ k, (onKey key k l).Perm (onKey key k h)) :
    l.Perm h := by
  classical
  rw [List.perm_iff_count]
  intro a
  have := List.perm_iff_count.1 (hperm (key a)) a
  rwa [onKey, onKey, List.count_filter (by simp), List.count_filter (by simp)] at this

/-- Lists of different keys, one after another. -/
theorem onKey_flatMap {p : κ → List α} (hp : ∀ k, ∀ a ∈ p k, key a = k) {ks : List κ}
    (hks : ks.Nodup) {k : κ} (hk : k ∈ ks) : onKey key k (ks.flatMap p) = p k := by
  have hself : onKey key k (p k) = p k :=
    List.filter_eq_self.2 fun a ha => decide_eq_true (hp k a ha)
  have hother : ∀ k', k' ≠ k → onKey key k (p k') = [] := by
    intro k' hne
    rw [onKey, List.filter_eq_nil_iff]
    intro a ha
    rw [hp k' a ha]
    simpa using hne
  induction ks with
  | nil => cases hk
  | cons k' ks ih =>
    rw [List.flatMap_cons, onKey, List.filter_append]
    change onKey key k (p k') ++ onKey key k (ks.flatMap p) = p k
    rw [List.nodup_cons] at hks
    rcases List.mem_cons.1 hk with rfl | hk
    · have hrest : onKey key k (ks.flatMap p) = [] := by
        rw [onKey, List.filter_flatMap, List.flatMap_eq_nil_iff]
        intro k' hk'
        exact hother k' fun h => hks.1 (h ▸ hk')
      rw [hself, hrest, List.append_nil]
    · rw [hother k' fun h => hks.1 (h ▸ hk), ih hks.2 hk, List.nil_append]

variable {τ : Type*} [LinearOrder τ]

/-- **Merging.** Sorted lists of different keys are the parts of one sorted list. -/
theorem exists_merge {p : κ → List (τ × α)} (hp : ∀ k, ∀ x ∈ p k, key x.2 = k)
    (hsorted : ∀ k, (p k).Pairwise fun x y => x.1 ≤ y.1) (ks : List κ)
    (hks : ∀ k, p k ≠ [] → k ∈ ks) :
    ∃ m : List (τ × α), m.Pairwise (fun x y => x.1 ≤ y.1) ∧
      ∀ k, onKey (fun x => key x.2) k m = p k := by
  let le : τ × α → τ × α → Bool := fun x y => x.1 ≤ y.1
  have htrans : ∀ x y z, le x y → le y z → le x z := by
    simp only [le, decide_eq_true_eq]
    intro x y z
    exact le_trans
  have htotal : ∀ x y, le x y || le y x := by
    simp only [le, Bool.or_eq_true, decide_eq_true_eq]
    intro x y
    exact le_total _ _
  let all := ks.dedup.flatMap p
  refine ⟨all.mergeSort le, ?_, fun k => ?_⟩
  · simpa [le] using List.pairwise_mergeSort htrans htotal all
  · by_cases hk : k ∈ ks
    · have hall : onKey (fun x => key x.2) k all = p k :=
        onKey_flatMap hp ks.nodup_dedup (List.mem_dedup.2 hk)
      have hperm : (onKey (fun x => key x.2) k (all.mergeSort le)).Perm (p k) := by
        rw [← hall]
        exact (List.mergeSort_perm all le).filter _
      -- the sort is stable, so it keeps the order of each part
      have hsub : (p k).Sublist (all.mergeSort le) := by
        refine List.sublist_mergeSort htrans htotal (by simpa [le] using hsorted k) ?_
        rw [← hall]
        exact List.filter_sublist
      have hsub' := hsub.filter fun x => decide (key x.2 = k)
      rw [List.filter_eq_self.2 fun x hx => decide_eq_true (hp k x hx)] at hsub'
      exact (hsub'.eq_of_length hperm.length_eq.symm).symm
    · have hnil : p k = [] := by
        by_contra hne
        exact hk (hks k hne)
      rw [hnil, onKey, List.filter_eq_nil_iff]
      intro x hx
      obtain ⟨k', -, hx'⟩ := List.mem_flatMap.1 ((List.mergeSort_perm all le).mem_iff.1 hx)
      rw [hp k' x hx', decide_eq_true_eq]
      rintro rfl
      rw [hnil] at hx'
      cases hx'

variable {call ret : α → τ} {f : κ → σ} {h : List α}

/-- **Locality.** A history of operations on independent parts is linearizable if and only if the
operations on each part are. -/
theorem linearizable_stepAt (hle : ∀ a ∈ h, call a ≤ ret a) :
    Linearizable (stepAt key step) (fun b a => ret b < call a) f h ↔
      ∀ k, Linearizable step (fun b a => ret b < call a) (f k) (onKey key k h) := by
  constructor
  · rintro ⟨l, hperm, ⟨g, hrun⟩, horder⟩ k
    exact ⟨onKey key k l, hperm.filter _, ⟨g k, run_stepAt.1 hrun k⟩, horder.filter _⟩
  · intro hlin
    choose l hl using hlin
    have hperm := fun k => (hl k).perm
    choose g hrun using fun k => (hl k).legal
    have hpoints : ∀ k, ∃ p : List (τ × α), p.map Prod.snd = l k ∧
        p.Pairwise (fun x y => x.1 ≤ y.1) ∧ ∀ x ∈ p, call x.2 ≤ x.1 ∧ x.1 ≤ ret x.2 := by
      intro k
      refine exists_points (hl k).order fun a ha => hle a ?_
      exact (mem_onKey.1 ((hperm k).mem_iff.1 ha)).1
    choose p hp hsorted hin using hpoints
    have hmem : ∀ k, ∀ x ∈ p k, x.2 ∈ h ∧ key x.2 = k := by
      intro k x hx
      refine mem_onKey.1 ((hperm k).mem_iff.1 ?_)
      rw [← hp k]
      exact List.mem_map_of_mem hx
    obtain ⟨m, hm, hparts⟩ := exists_merge (fun k x hx => (hmem k x hx).2) hsorted
      (h.map key) (by
        intro k hne
        obtain ⟨x, hx⟩ := List.exists_mem_of_ne_nil _ hne
        exact List.mem_map.2 ⟨x.2, hmem k x hx⟩)
    have honKey : ∀ k, onKey key k (m.map Prod.snd) = l k := by
      intro k
      rw [onKey, List.filter_map, ← hp k, ← hparts k]
      rfl
    refine ⟨m.map Prod.snd, ?_, ⟨g, run_stepAt.2 fun k => ?_⟩, ?_⟩
    · have hparts : ∀ k, (onKey key k (m.map Prod.snd)).Perm (onKey key k h) := by
        intro k
        rw [honKey k]
        exact hperm k
      exact perm_of_onKey hparts
    · rw [honKey k]
      exact hrun k
    · refine pairwise_of_points hm fun x hx => hin (key x.2) x ?_
      rw [← hparts]
      exact mem_onKey.2 ⟨hx, rfl⟩

end Locality

end DistSys
