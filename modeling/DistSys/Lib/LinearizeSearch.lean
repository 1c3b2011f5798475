import DistSys.Lib.Linearizability
import Mathlib.Tactic.Ring

/-!
# Searching for a linearization

A history is now a list of events: calls and returns, in the order in which they happened. The
search takes operations out of the list one by one. An operation may be taken if no return stands
before its call (`Reach`). What can be taken out in this way are the partial linearizations
(`reach_iff`), and the linearizations if nothing is left (`reach_nil_iff`).

**The search** (`Search`). It goes along the events that remain, from the first one. At a call that
the object accepts it takes the operation out, and begins again with what remains. At a return all
operations that may be taken have been tried, and it goes back to the choice made last. A
configuration (what remains, and the state of the object) that was met before, up to `equal`, is not
entered again: it is in the cache.

**Why it is right.** A cached configuration is either `Explored`, that is, the search has gone back
from everything that can be reached from it, or one of the current levels. A level that is met again
would have more events than are left, so only explored configurations are skipped.

* `Search.Inv.sound` — where the search ends with nothing left, its choices are a linearization.
* `Search.Inv.complete` — where it has tried everything, there is none.
* `Search.Move.weight_lt` — it comes to an end.
-/

namespace DistSys

/-- The call or the return of an operation. -/
inductive Ev (ι : Type*) where
  | call (i : ι)
  | ret (i : ι)
  deriving DecidableEq

variable {ι σ : Type*}

namespace Ev

def id : Ev ι → ι
  | call i => i
  | ret i => i

@[simp] theorem id_call (i : ι) : (call i).id = i := rfl

@[simp] theorem id_ret (i : ι) : (ret i).id = i := rfl

def IsCall : Ev ι → Prop
  | call _ => True
  | ret _ => False

/-- The operation that is called. -/
def called : Ev ι → Option ι
  | call i => some i
  | ret _ => none

end Ev

/-- The operations of a history. -/
def ids (E : List (Ev ι)) : List ι := E.filterMap Ev.called

/-- Every operation is called once and then returns once. -/
structure Complete (E : List (Ev ι)) : Prop where
  nodup : E.Nodup
  pair : ∀ e ∈ E, [Ev.call e.id, Ev.ret e.id].Sublist E

/-- The operation `b` returned before `a` was called. -/
def Precedes (E : List (Ev ι)) (b a : ι) : Prop := [Ev.ret b, Ev.call a].Sublist E

/-- What remains without an operation. -/
def remove [DecidableEq ι] (i : ι) (E : List (Ev ι)) : List (Ev ι) := E.filter fun e => e.id ≠ i

@[simp] theorem mem_ids {E : List (Ev ι)} {i : ι} : i ∈ ids E ↔ Ev.call i ∈ E := by
  simp only [ids, List.mem_filterMap]
  constructor
  · rintro ⟨e, he, hi⟩
    cases e with
    | call j =>
      rw [Ev.called, Option.some.injEq] at hi
      exact hi ▸ he
    | ret j => cases hi
  · intro h
    exact ⟨_, h, rfl⟩

/-- A return that stands before a call does so in the events before the call. -/
theorem precedes_iff {E₁ E₂ : List (Ev ι)} {a b : ι} (hnodup : (E₁ ++ Ev.call a :: E₂).Nodup) :
    Precedes (E₁ ++ .call a :: E₂) b a ↔ Ev.ret b ∈ E₁ := by
  constructor
  · intro h
    induction E₁ with
    | nil =>
      rw [List.nil_append, List.nodup_cons] at hnodup
      cases h with
      | cons _ h => exact absurd (h.subset (by simp)) hnodup.1
    | cons e E₁ ih =>
      rw [List.cons_append, List.nodup_cons] at hnodup
      cases h with
      | cons _ h => exact List.mem_cons_of_mem _ (ih hnodup.2 h)
      | cons_cons _ h => exact List.mem_cons_self
  · intro h
    have h₁ : [Ev.ret b].Sublist E₁ := List.singleton_sublist.2 h
    have h₂ : [Ev.call a].Sublist (.call a :: E₂) := List.singleton_sublist.2 List.mem_cons_self
    exact h₁.append h₂

/-- Two elements stand in one order only. -/
theorem pair_sublist_asymm {α : Type*} {l : List α} {a b : α} (hl : l.Nodup)
    (h₁ : [a, b].Sublist l) (h₂ : [b, a].Sublist l) : False := by
  induction l with
  | nil => cases h₁
  | cons x l ih =>
    rw [List.nodup_cons] at hl
    cases h₁ with
    | cons _ h₁ =>
      cases h₂ with
      | cons _ h₂ => exact ih hl.2 h₁ h₂
      | cons_cons _ h₂ => exact hl.1 (h₁.subset (by simp))
    | cons_cons _ h₁ =>
      cases h₂ with
      | cons _ h₂ => exact hl.1 (h₂.subset (by simp))
      | cons_cons _ h₂ => exact hl.1 (h₁.subset (by simp))

theorem pair_sublist_or {α : Type*} {l : List α} {a b : α} (ha : a ∈ l) (hb : b ∈ l) (hne : a ≠ b) :
    [a, b].Sublist l ∨ [b, a].Sublist l := by
  induction l with
  | nil => cases ha
  | cons x l ih =>
    rcases List.mem_cons.1 ha with rfl | ha'
    · have hb' := (List.mem_cons.1 hb).resolve_left hne.symm
      exact .inl ((List.singleton_sublist.2 hb').cons_cons a)
    · rcases List.mem_cons.1 hb with rfl | hb'
      · exact .inr ((List.singleton_sublist.2 ha').cons_cons b)
      · exact (ih ha' hb').imp (·.cons x) (·.cons x)

namespace Complete

variable {E : List (Ev ι)}

theorem call_mem (h : Complete E) {e : Ev ι} (he : e ∈ E) : Ev.call e.id ∈ E :=
  (h.pair e he).subset (by simp)

theorem nodup_ids (h : Complete E) : (ids E).Nodup := by
  refine h.nodup.filterMap fun e e' i hi hi' => ?_
  cases e <;> cases e' <;> simp_all [Ev.called]

theorem eq_nil_of_ids (h : Complete E) (hids : ids E = []) : E = [] := by
  by_contra hne
  obtain ⟨e, he⟩ := List.exists_mem_of_ne_nil E hne
  have := mem_ids.2 (h.call_mem he)
  rw [hids] at this
  cases this

theorem ret_mem (h : Complete E) {a : ι} (ha : a ∈ ids E) : Ev.ret a ∈ E :=
  (h.pair (.call a) (mem_ids.1 ha)).subset (by simp)

/-- Half of the events are calls. -/
theorem length_eq (h : Complete E) : E.length = 2 * (ids E).length := by
  have hperm : E.Perm ((ids E).flatMap fun i => [Ev.call i, Ev.ret i]) := by
    refine (List.perm_ext_iff_of_nodup h.nodup ?_).2 fun e => ?_
    · rw [List.nodup_flatMap]
      refine ⟨fun i _ => by simp, h.nodup_ids.imp fun hne x hx hx' => ?_⟩
      simp only [List.mem_cons, List.not_mem_nil, or_false] at hx hx'
      rcases hx with rfl | rfl <;> simp_all
    · rw [List.mem_flatMap]
      constructor
      · intro he
        refine ⟨e.id, mem_ids.2 (h.call_mem he), ?_⟩
        cases e <;> simp
      · rintro ⟨i, hi, he⟩
        simp only [List.mem_cons, List.not_mem_nil, or_false] at he
        rcases he with rfl | rfl
        · exact mem_ids.1 hi
        · exact h.ret_mem hi
  have := hperm.length_eq
  simpa [List.length_flatMap, Nat.mul_comm] using this

/-- No operation returns before its own call. -/
theorem not_precedes_self (h : Complete E) (a : ι) : ¬ Precedes E a a := fun hprec =>
  pair_sublist_asymm h.nodup hprec (h.pair (.call a) (hprec.subset (by simp)))

end Complete

section Rename

variable {κ : Type*} {f : ι → κ} {E : List (Ev ι)}

/-- The same event of an operation with another name. -/
def Ev.map (f : ι → κ) : Ev ι → Ev κ
  | .call i => .call (f i)
  | .ret i => .ret (f i)

theorem ids_map (f : ι → κ) (E : List (Ev ι)) : ids (E.map (Ev.map f)) = (ids E).map f := by
  rw [ids, ids, List.filterMap_map, List.map_filterMap]
  congr 1
  funext e
  cases e <;> rfl

/-- Different operations of the history get different names. -/
def Ev.InjOn (f : ι → κ) (E : List (Ev ι)) : Prop :=
  ∀ e ∈ E, ∀ e' ∈ E, f e.id = f e'.id → e.id = e'.id

theorem Ev.InjOn.eq (h : Ev.InjOn f E) {e e' : Ev ι} (he : e ∈ E) (he' : e' ∈ E)
    (hmap : e.map f = e'.map f) : e = e' := by
  cases e <;> cases e' <;> simp only [Ev.map, reduceCtorEq, Ev.call.injEq, Ev.ret.injEq] at hmap
  · rw [Ev.call.injEq]
    exact h _ he _ he' hmap
  · rw [Ev.ret.injEq]
    exact h _ he _ he' hmap

theorem Complete.map (h : Complete E) (hf : Ev.InjOn f E) : Complete (E.map (Ev.map f)) where
  nodup := (List.nodup_map_iff_inj_on h.nodup).2 fun _ he _ he' => hf.eq he he'
  pair x hx := by
    obtain ⟨e, he, rfl⟩ := List.mem_map.1 hx
    have hid : (e.map f).id = f e.id := by cases e <;> rfl
    rw [hid]
    exact (h.pair e he).map (Ev.map f)

theorem Complete.precedes_map (h : Complete E) (hf : Ev.InjOn f E) {a b : ι} (ha : a ∈ ids E)
    (hb : b ∈ ids E) : Precedes (E.map (Ev.map f)) (f b) (f a) ↔ Precedes E b a := by
  constructor
  · intro hprec
    obtain ⟨l, hl, heq⟩ := List.sublist_map_iff.1 hprec
    obtain ⟨x, l, rfl, hx, heq⟩ := List.map_eq_cons_iff.1 heq.symm
    obtain ⟨y, l, rfl, hy, heq⟩ := List.map_eq_cons_iff.1 heq
    rw [List.map_eq_nil_iff] at heq
    subst heq
    obtain rfl := hf.eq (hl.subset (by simp)) (h.ret_mem hb) hx
    obtain rfl := hf.eq (hl.subset (by simp)) (mem_ids.1 ha) hy
    exact hl
  · exact fun hprec => hprec.map (Ev.map f)

end Rename

theorem nodup_of_subperm {l l' : List ι} (h : l.Subperm l') (hl' : l'.Nodup) : l.Nodup := by
  obtain ⟨l'', hperm, hsub⟩ := h
  exact hperm.nodup_iff.1 (hl'.sublist hsub)

section Remove

variable [DecidableEq ι] {E : List (Ev ι)} {i : ι}

@[simp] theorem mem_remove {e : Ev ι} : e ∈ remove i E ↔ e ∈ E ∧ e.id ≠ i := by
  simp [remove]

theorem remove_sublist (i : ι) (E : List (Ev ι)) : (remove i E).Sublist E := List.filter_sublist

/-- A pair of events of other operations is kept. -/
theorem pair_sublist_remove {e e' : Ev ι} (he : e.id ≠ i) (he' : e'.id ≠ i) :
    [e, e'].Sublist (remove i E) ↔ [e, e'].Sublist E := by
  constructor
  · exact fun h => h.trans (remove_sublist i E)
  · intro h
    have := h.filter fun e => decide (e.id ≠ i)
    rwa [List.filter_eq_self.2 (by simp [he, he'])] at this

theorem Complete.remove (h : Complete E) (i : ι) : Complete (remove i E) where
  nodup := h.nodup.sublist (remove_sublist i E)
  pair e he := by
    obtain ⟨he, hne⟩ := mem_remove.1 he
    exact (pair_sublist_remove (by exact hne) (by exact hne)).2 (h.pair e he)

/-- The two events of an operation, and what is around them. -/
theorem Complete.split (h : Complete E) (hi : .call i ∈ E) :
    ∃ E₁ E₂ E₃, E = E₁ ++ .call i :: E₂ ++ .ret i :: E₃ ∧ DistSys.remove i E = E₁ ++ E₂ ++ E₃ := by
  obtain ⟨r₁, r₂, rfl, hcall, hret⟩ := List.cons_sublist_iff.1 (h.pair _ hi)
  obtain ⟨E₁, E₂, rfl⟩ := List.append_of_mem hcall
  obtain ⟨E₂', E₃, rfl⟩ := List.append_of_mem (List.singleton_sublist.1 hret)
  rw [Ev.id_call] at h hi hcall hret ⊢
  have hperm : (E₁ ++ .call i :: E₂ ++ (E₂' ++ .ret i :: E₃)).Perm
      (.call i :: .ret i :: (E₁ ++ (E₂ ++ E₂') ++ E₃)) := by
    rw [List.perm_iff_count]
    intro e
    simp only [List.count_append, List.count_cons]
    omega
  have hnodup := hperm.nodup_iff.1 h.nodup
  simp only [List.nodup_cons, List.mem_cons, not_or] at hnodup
  obtain ⟨⟨-, hcall⟩, hret, -⟩ := hnodup
  -- the other events belong to other operations
  have hkeep : (E₁ ++ (E₂ ++ E₂') ++ E₃).filter (fun e => e.id ≠ i) = E₁ ++ (E₂ ++ E₂') ++ E₃ := by
    refine List.filter_eq_self.2 fun e he => decide_eq_true ?_
    rintro rfl
    cases e with
    | call j => exact hcall he
    | ret j => exact hret he
  refine ⟨E₁, E₂ ++ E₂', E₃, by simp, hkeep ▸ ?_⟩
  simp [DistSys.remove]

theorem length_remove_lt {e : Ev ι} (h : e ∈ E) : (remove e.id E).length < E.length :=
  List.length_filter_lt_length_iff_exists.2 ⟨e, h, by simp⟩

end Remove

/-! ## Taking operations out -/

section Reach

variable [DecidableEq ι] (step : σ → ι → Option σ)

/-- The operations `l` can be taken out one after another. -/
inductive Reach : σ → List (Ev ι) → List ι → σ → List (Ev ι) → Prop
  | nil (s : σ) (E : List (Ev ι)) : Reach s E [] s E
  | cons {s s' t : σ} {E E₁ E₂ E' : List (Ev ι)} {i : ι} {l : List ι} (hE : E = E₁ ++ .call i :: E₂)
      (hcalls : ∀ e ∈ E₁, e.IsCall) (hstep : step s i = some s')
      (h : Reach s' (remove i E) l t E') : Reach s E (i :: l) t E'

variable {step} {s t u : σ} {E E' E'' : List (Ev ι)} {i : ι} {l l' : List ι}

theorem Reach.append (h : Reach step s E l t E') (h' : Reach step t E' l' u E'') :
    Reach step s E (l ++ l') u E'' := by
  induction h with
  | nil => exact h'
  | cons hE hcalls hstep _ ih => exact .cons hE hcalls hstep (ih h')

theorem Reach.rest (h : Reach step s E l t E') : E' = E.filter fun e => e.id ∉ l := by
  induction h with
  | nil s E => simp
  | cons hE hcalls hstep h ih =>
    rw [ih, remove, List.filter_filter]
    congr 1
    funext e
    simp only [List.mem_cons, not_or, Bool.decide_and, Bool.and_comm]

/-- The first operation of a partial linearization, and the others. -/
theorem isPartialLinearization_cons (hE : Complete E) :
    IsPartialLinearization step (Precedes E) s (ids E) (i :: l) ↔
      ∃ E₁ E₂ s', E = E₁ ++ .call i :: E₂ ∧ (∀ e ∈ E₁, e.IsCall) ∧ step s i = some s' ∧
        IsPartialLinearization step (Precedes (remove i E)) s' (ids (remove i E)) l := by
  have hprec : ∀ {a b}, a ≠ i → b ≠ i → (Precedes (remove i E) b a ↔ Precedes E b a) :=
    fun ha hb => pair_sublist_remove hb ha
  constructor
  · rintro ⟨hsub, ⟨t, hrun⟩, horder, hclosed⟩
    obtain ⟨hi, hnodup⟩ := List.nodup_cons.1 (nodup_of_subperm hsub hE.nodup_ids)
    have hne : ∀ a ∈ l, a ≠ i := fun a ha h => hi (h ▸ ha)
    have hmem : ∀ a ∈ i :: l, Ev.call a ∈ E := fun a ha => mem_ids.1 (hsub.subset ha)
    obtain ⟨s', hstep, hrun⟩ := run_cons_eq_some.1 hrun
    obtain ⟨hfirst, horder⟩ := List.pairwise_cons.1 horder
    obtain ⟨E₁, E₂, rfl⟩ := List.append_of_mem (hmem i List.mem_cons_self)
    refine ⟨E₁, E₂, s', rfl, fun e he => ?_, hstep, ?_, ⟨t, hrun⟩, ?_, ?_⟩
    · cases e with
      | call b => trivial
      | ret b =>
        have hb : Precedes (E₁ ++ .call i :: E₂) b i := (precedes_iff hE.nodup).2 he
        have hcall : Ev.call b ∈ E₁ ++ .call i :: E₂ :=
          hE.call_mem (List.mem_append_left _ he)
        rcases List.mem_cons.1 (hclosed i List.mem_cons_self b (mem_ids.2 hcall) hb) with rfl | hbl
        · exact hE.not_precedes_self b hb
        · exact hfirst b hbl hb
    · refine List.subperm_of_subset hnodup fun a ha => ?_
      exact mem_ids.2 (mem_remove.2 ⟨hmem a (List.mem_cons_of_mem i ha), hne a ha⟩)
    · refine horder.imp_of_mem fun ha hb h => ?_
      rwa [hprec (hne _ ha) (hne _ hb)]
    · intro a ha b hb h
      obtain ⟨hb, hbi⟩ := mem_remove.1 (mem_ids.1 hb)
      rw [Ev.id_call] at hbi
      rw [hprec (hne a ha) hbi] at h
      exact (List.mem_cons.1 (hclosed a (List.mem_cons_of_mem i ha) b (mem_ids.2 hb) h)).resolve_left
        hbi
  · rintro ⟨E₁, E₂, s', rfl, hcalls, hstep, hsub, ⟨t, hrun⟩, horder, hclosed⟩
    have hmem : ∀ a ∈ l, Ev.call a ∈ E₁ ++ .call i :: E₂ ∧ a ≠ i :=
      fun a ha => mem_remove.1 (mem_ids.1 (hsub.subset ha))
    have hnone : ∀ b, ¬ Precedes (E₁ ++ .call i :: E₂) b i :=
      fun b hb => hcalls _ ((precedes_iff hE.nodup).1 hb)
    refine ⟨?_, ⟨t, run_cons_eq_some.2 ⟨s', hstep, hrun⟩⟩, ?_, ?_⟩
    · refine List.subperm_of_subset (List.nodup_cons.2 ⟨fun hi => (hmem i hi).2 rfl, ?_⟩) ?_
      · exact nodup_of_subperm hsub (hE.remove i).nodup_ids
      · refine List.cons_subset.2 ⟨by simp, fun a ha => mem_ids.2 (hmem a ha).1⟩
    · refine List.pairwise_cons.2 ⟨fun b _ => hnone b, horder.imp_of_mem fun ha hb h => ?_⟩
      rwa [← hprec (hmem _ ha).2 (hmem _ hb).2]
    · intro a ha b hb h
      rcases List.mem_cons.1 ha with rfl | ha
      · exact absurd h (hnone b)
      · by_cases hbi : b = i
        · exact hbi ▸ List.mem_cons_self
        · refine List.mem_cons_of_mem i (hclosed a ha b ?_ ((hprec (hmem a ha).2 hbi).2 h))
          exact mem_ids.2 (mem_remove.2 ⟨mem_ids.1 hb, hbi⟩)

/-- **What can be taken out are the partial linearizations.** -/
theorem reach_iff (hE : Complete E) : (∃ t E', Reach step s E l t E') ↔
    IsPartialLinearization step (Precedes E) s (ids E) l := by
  induction l generalizing s E with
  | nil =>
    refine ⟨fun _ => ⟨List.nil_subperm, ⟨s, rfl⟩, .nil, nofun⟩, fun _ => ⟨s, E, .nil s E⟩⟩
  | cons i l ih =>
    rw [isPartialLinearization_cons hE]
    constructor
    · rintro ⟨t, E', h⟩
      cases h with
      | cons hE' hcalls hstep h =>
        exact ⟨_, _, _, hE', hcalls, hstep, (ih (hE.remove i)).1 ⟨t, E', h⟩⟩
    · rintro ⟨E₁, E₂, s', hE', hcalls, hstep, h⟩
      obtain ⟨t, E', h⟩ := (ih (hE.remove i)).2 h
      exact ⟨t, E', .cons hE' hcalls hstep h⟩

/-- **Nothing is left exactly after a linearization.** -/
theorem reach_nil_iff (hE : Complete E) :
    (∃ t, Reach step s E l t []) ↔ IsLinearization step (Precedes E) s (ids E) l := by
  constructor
  · rintro ⟨t, h⟩
    obtain ⟨hsub, hlegal, horder, -⟩ := (reach_iff hE).1 ⟨t, [], h⟩
    have hall : ids E ⊆ l := by
      intro a ha
      by_contra hal
      exact List.filter_eq_nil_iff.1 h.rest.symm _ (mem_ids.1 ha) (decide_eq_true hal)
    have hsub' := List.subperm_of_subset hE.nodup_ids hall
    exact ⟨hsub.antisymm hsub', hlegal, horder⟩
  · rintro ⟨hperm, hlegal, horder⟩
    obtain ⟨t, E', h⟩ := (reach_iff hE).2
      ⟨hperm.subperm, hlegal, horder, fun a _ b hb _ => hperm.mem_iff.2 hb⟩
    have hE' : E' = [] := by
      rw [h.rest, List.filter_eq_nil_iff]
      intro e he
      simpa using hperm.mem_iff.2 (mem_ids.2 (hE.call_mem he))
    exact ⟨t, hE' ▸ h⟩

end Reach

section Reach

variable [DecidableEq ι] {step : σ → ι → Option σ} {s t t' : σ} {E E' : List (Ev ι)} {i : ι}
  {l l' : List ι}

theorem Reach.mem_iff (h : Reach step s E l t E') (hE : Complete E) :
    i ∈ l ↔ .call i ∈ E ∧ .call i ∉ E' := by
  have hsub := ((reach_iff hE).1 ⟨t, E', h⟩).subperm
  rw [h.rest, List.mem_filter, not_and, decide_eq_true_eq, Ev.id_call]
  constructor
  · exact fun hi => ⟨mem_ids.1 (hsub.subset hi), fun _ hni => hni hi⟩
  · exact fun ⟨hi, hn⟩ => not_not.1 (hn hi)

/-- What remains determines the operations that are taken out. -/
theorem Reach.perm (h : Reach step s E l t E') (h' : Reach step s E l' t' E') (hE : Complete E) :
    l.Perm l' := by
  have hnodup := nodup_of_subperm ((reach_iff hE).1 ⟨t, E', h⟩).subperm hE.nodup_ids
  have hnodup' := nodup_of_subperm ((reach_iff hE).1 ⟨t', E', h'⟩).subperm hE.nodup_ids
  refine (List.perm_ext_iff_of_nodup hnodup hnodup').2 fun i => ?_
  rw [h.mem_iff hE, h'.mem_iff hE]

end Reach

/-! ## The search -/

/-- The state of the object at one level of the search, and the events that remain, split at the
position of the search. -/
structure Level (ι σ : Type*) where
  state : σ
  before : List (Ev ι)
  after : List (Ev ι)

namespace Level

def rest (v : Level ι σ) : List (Ev ι) := v.before ++ v.after

/-- The position after a call. -/
def next (v : Level ι σ) (i : ι) (after : List (Ev ι)) : Level ι σ :=
  ⟨v.state, v.before ++ [.call i], after⟩

theorem rest_next {v : Level ι σ} {i : ι} {after : List (Ev ι)} (h : v.after = .call i :: after) :
    (v.next i after).rest = v.rest := by
  simp [next, rest, h]

theorem call_mem_rest {v : Level ι σ} {i : ι} {after : List (Ev ι)}
    (h : v.after = .call i :: after) :
    .call i ∈ v.rest := by
  simp [rest, h]

end Level

structure Search (ι σ : Type*) where
  level : Level ι σ
  /-- The levels below, the last one first, each with the operation that was taken out there. -/
  stack : List (ι × Level ι σ)
  cache : List (List (Ev ι) × σ)
  /-- What remained where the search went back. -/
  left : List (List (Ev ι))

namespace Search

def init (s : σ) (E : List (Ev ι)) : Search ι σ := ⟨⟨s, [], E⟩, [], [], []⟩

/-- The current level and those below it. -/
def levels (sr : Search ι σ) : List (Level ι σ) := sr.level :: sr.stack.map Prod.snd

/-- The operations that are taken out, in order. -/
def taken (sr : Search ι σ) : List ι := (sr.stack.map Prod.fst).reverse

end Search

section Search

variable [DecidableEq ι] (step : σ → ι → Option σ) (equal : σ → σ → Bool)

/-- The cache has a configuration that counts as this one. -/
def Known (cache : List (List (Ev ι) × σ)) (s : σ) (E : List (Ev ι)) : Prop :=
  ∃ c ∈ cache, c.1 = E ∧ equal s c.2 = true

inductive Search.Move : Search ι σ → Search ι σ → Prop
  | push {sr : Search ι σ} {i : ι} {after : List (Ev ι)} {s' : σ}
      (hafter : sr.level.after = .call i :: after) (hstep : step sr.level.state i = some s')
      (hnew : ¬ Known equal sr.cache s' (remove i sr.level.rest)) :
      Search.Move sr
        { level := ⟨s', [], remove i sr.level.rest⟩
          stack := (i, sr.level.next i after) :: sr.stack
          cache := (remove i sr.level.rest, s') :: sr.cache
          left := sr.left }
  | pass {sr : Search ι σ} {i : ι} {after : List (Ev ι)} (hafter : sr.level.after = .call i :: after)
      (hold : ∀ s', step sr.level.state i = some s' →
        Known equal sr.cache s' (remove i sr.level.rest)) :
      Search.Move sr { sr with level := sr.level.next i after }
  | back {sr : Search ι σ} {i j : ι} {v : Level ι σ} {stack : List (ι × Level ι σ)}
      {after : List (Ev ι)} (hafter : sr.level.after = .ret j :: after)
      (hstack : sr.stack = (i, v) :: stack) :
      Search.Move sr { sr with level := v, stack := stack, left := sr.level.rest :: sr.left }

/-- The search has gone back from everything that can be reached. -/
def Explored (left : List (List (Ev ι))) (s : σ) (E : List (Ev ι)) : Prop :=
  ∀ l t E', Reach step s E l t E' → E' ∈ left

/-- Each level arises from the one below by taking an operation out. -/
def Levels (s₀ : σ) (E₀ : List (Ev ι)) : Level ι σ → List (ι × Level ι σ) → Prop
  | v, [] => v.state = s₀ ∧ v.rest = E₀
  | v, (i, w) :: stack => Levels s₀ E₀ w stack ∧ (∃ b, w.before = b ++ [.call i]) ∧
      step w.state i = some v.state ∧ v.rest = remove i w.rest

structure Search.Inv (s₀ : σ) (E₀ : List (Ev ι)) (sr : Search ι σ) : Prop where
  levels : Levels step s₀ E₀ sr.level sr.stack
  calls : ∀ v ∈ sr.levels, ∀ e ∈ v.before, e.IsCall
  tried : ∀ i s', .call i ∈ sr.level.before → step sr.level.state i = some s' →
    Explored step sr.left s' (remove i sr.level.rest)
  below : ∀ p ∈ sr.stack, ∀ i s', .call i ∈ p.2.before → i ≠ p.1 → step p.2.state i = some s' →
    Explored step sr.left s' (remove i p.2.rest)
  cached : ∀ c ∈ sr.cache, Explored step sr.left c.2 c.1 ∨
    ∃ v ∈ sr.levels, c = (v.rest, v.state)
  left : [] ∉ sr.left

variable {step equal} {s₀ s t : σ} {E₀ E E' : List (Ev ι)} {l : List ι} {sr sr' : Search ι σ}

theorem Explored.mono {left left' : List (List (Ev ι))} (h : Explored step left s E)
    (hsub : left ⊆ left') : Explored step left' s E :=
  fun l t E' hreach => hsub (h l t E' hreach)

/-- Equal states allow the same operations, now and later. -/
def Bisimilar (step : σ → ι → Option σ) (equal : σ → σ → Bool) : Prop :=
  ∀ s t i s', equal s t = true → step s i = some s' → ∃ t', step t i = some t' ∧ equal s' t' = true

theorem Reach.of_equal {s' : σ} (hbis : Bisimilar step equal) (h : Reach step s E l s' E')
    (hst : equal s t = true) : ∃ t', Reach step t E l t' E' := by
  induction h generalizing t with
  | nil s E => exact ⟨t, .nil t E⟩
  | cons hE hcalls hstep h ih =>
    obtain ⟨t', ht', heq⟩ := hbis _ t _ _ hst hstep
    obtain ⟨t'', hreach⟩ := ih heq
    exact ⟨t'', .cons hE hcalls ht' hreach⟩

theorem Reach.complete (h : Reach step s E l t E') (hE : Complete E) : Complete E' := by
  induction h with
  | nil => exact hE
  | cons _ _ _ _ ih => exact ih (hE.remove _)

namespace Levels

theorem reach {v : Level ι σ} {stack : List (ι × Level ι σ)} (h : Levels step s₀ E₀ v stack)
    (hcalls : ∀ w ∈ stack.map Prod.snd, ∀ e ∈ w.before, e.IsCall) :
    Reach step s₀ E₀ (stack.map Prod.fst).reverse v.state v.rest := by
  induction stack generalizing v with
  | nil =>
    obtain ⟨rfl, rfl⟩ := h
    exact .nil _ _
  | cons p stack ih =>
    obtain ⟨i, w⟩ := p
    obtain ⟨hw, ⟨b, hb⟩, hstep, hrest⟩ := h
    rw [List.map_cons, List.forall_mem_cons] at hcalls
    have hreach := ih hw hcalls.2
    rw [List.map_cons, List.reverse_cons]
    have hsplit : w.rest = b ++ .call i :: w.after := by
      simp [Level.rest, hb]
    refine hreach.append (.cons hsplit (fun e he => hcalls.1 e ?_) hstep (hrest ▸ .nil _ _))
    simp [hb, he]

theorem congr {v w : Level ι σ} {stack : List (ι × Level ι σ)} (h : Levels step s₀ E₀ v stack)
    (hstate : w.state = v.state) (hrest : w.rest = v.rest) : Levels step s₀ E₀ w stack := by
  cases stack with
  | nil => exact ⟨hstate.trans h.1, hrest.trans h.2⟩
  | cons p stack => exact ⟨h.1, h.2.1, hstate ▸ h.2.2.1, hrest.trans h.2.2.2⟩

/-- The levels below have more events. -/
theorem length_lt {v : Level ι σ} {stack : List (ι × Level ι σ)} (h : Levels step s₀ E₀ v stack) :
    ∀ w ∈ stack.map Prod.snd, v.rest.length < w.rest.length := by
  induction stack generalizing v with
  | nil => simp
  | cons p stack ih =>
    obtain ⟨i, w⟩ := p
    obtain ⟨hw, ⟨b, hb⟩, hstep, hrest⟩ := h
    have hlt : v.rest.length < w.rest.length := by
      rw [hrest]
      exact length_remove_lt (e := .call i) (by simp [Level.rest, hb])
    rw [List.map_cons, List.forall_mem_cons]
    exact ⟨hlt, fun u hu => hlt.trans (ih hw u hu)⟩

end Levels

omit [DecidableEq ι] in
/-- Only an operation that is called before the first return can be taken out. -/
theorem call_mem_before {E₁ E₂ before after : List (Ev ι)} {i j : ι}
    (h : before ++ Ev.ret j :: after = E₁ ++ .call i :: E₂) (hcalls : ∀ e ∈ E₁, e.IsCall) :
    Ev.call i ∈ before := by
  rcases List.append_eq_append_iff.1 h with ⟨m, rfl, hm⟩ | ⟨m, rfl, hm⟩
  · cases m with
    | nil => simp at hm
    | cons e m =>
      obtain ⟨rfl, -⟩ := List.cons.inj hm
      exact (hcalls (.ret j) (by simp)).elim
  · cases m with
    | nil => simp at hm
    | cons e m =>
      obtain ⟨rfl, -⟩ := List.cons.inj hm
      simp

namespace Search.Inv

theorem init (s₀ : σ) (E₀ : List (Ev ι)) : (Search.init s₀ E₀).Inv step s₀ E₀ where
  levels := ⟨rfl, rfl⟩
  calls v hv := by
    rw [Search.levels, List.mem_cons] at hv
    rcases hv with rfl | hv
    · exact nofun
    · cases hv
  tried := nofun
  below := nofun
  cached := nofun
  left := List.not_mem_nil

theorem reach (inv : sr.Inv step s₀ E₀) :
    Reach step s₀ E₀ sr.taken sr.level.state sr.level.rest :=
  inv.levels.reach fun w hw => inv.calls w (List.mem_cons_of_mem _ hw)

/-- At a return, everything beyond the current level is explored. -/
theorem mem_left (inv : sr.Inv step s₀ E₀) {j : ι} {after : List (Ev ι)}
    (hafter : sr.level.after = .ret j :: after)
    (h : Reach step sr.level.state sr.level.rest l t E') : l = [] ∨ E' ∈ sr.left := by
  cases h with
  | nil => exact .inl rfl
  | cons hE hcalls hstep h =>
    have hi := call_mem_before (by rw [← hafter]; exact hE) hcalls
    exact .inr (inv.tried _ _ hi hstep _ _ _ h)

theorem explored_level (inv : sr.Inv step s₀ E₀) {j : ι} {after : List (Ev ι)}
    (hafter : sr.level.after = .ret j :: after) :
    Explored step (sr.level.rest :: sr.left) sr.level.state sr.level.rest := by
  intro l t E' h
  rcases inv.mem_left hafter h with rfl | hE'
  · cases h
    exact List.mem_cons_self
  · exact List.mem_cons_of_mem _ hE'

/-- A configuration that is skipped has been explored. -/
theorem explored_of_known (inv : sr.Inv step s₀ E₀) (hbis : Bisimilar step equal) {i : ι}
    (hi : .call i ∈ sr.level.rest) (h : Known equal sr.cache s (remove i sr.level.rest)) :
    Explored step sr.left s (remove i sr.level.rest) := by
  obtain ⟨⟨E', s'⟩, hc, hE', heq⟩ := h
  dsimp only at hE' heq
  rcases inv.cached _ hc with hexp | ⟨v, hv, hcv⟩
  · intro l t E'' hreach
    obtain ⟨t', hreach'⟩ := hreach.of_equal hbis heq
    exact hexp l t' E'' (by rw [hE']; exact hreach')
  · -- a level that is met again would be smaller than the current one
    obtain ⟨rfl, rfl⟩ := Prod.mk.inj hcv
    have hlt : v.rest.length < sr.level.rest.length := by
      rw [hE']
      exact length_remove_lt (e := .call i) hi
    rcases List.mem_cons.1 hv with rfl | hv
    · exact absurd hlt (lt_irrefl _)
    · exact absurd hlt (inv.levels.length_lt v hv).le.not_gt

theorem calls_next (inv : sr.Inv step s₀ E₀) (i : ι) (after : List (Ev ι)) :
    ∀ v ∈ sr.level.next i after :: sr.stack.map Prod.snd, ∀ e ∈ v.before, e.IsCall := by
  have hcalls := inv.calls
  rw [Search.levels, List.forall_mem_cons] at hcalls
  rw [List.forall_mem_cons]
  refine ⟨fun e he => ?_, hcalls.2⟩
  rcases List.mem_append.1 he with he | he
  · exact hcalls.1 e he
  · rw [List.mem_singleton.1 he]
    trivial

theorem push (inv : sr.Inv step s₀ E₀) {i : ι} {after : List (Ev ι)} {s' : σ}
    (hafter : sr.level.after = .call i :: after) (hstep : step sr.level.state i = some s') :
    Search.Inv step s₀ E₀
      { level := ⟨s', [], remove i sr.level.rest⟩
        stack := (i, sr.level.next i after) :: sr.stack
        cache := (remove i sr.level.rest, s') :: sr.cache
        left := sr.left } := by
  have hrest := Level.rest_next hafter
  refine ⟨⟨inv.levels.congr rfl hrest, ⟨_, rfl⟩, hstep, ?_⟩, ?_, nofun, ?_, ?_, inv.left⟩
  · rw [hrest]
    rfl
  · rw [Search.levels, List.forall_mem_cons, List.map_cons]
    exact ⟨nofun, inv.calls_next i after⟩
  · rw [List.forall_mem_cons]
    refine ⟨fun k s'' hk hne hs'' => ?_, inv.below⟩
    rw [hrest]
    refine inv.tried k s'' ?_ hs''
    simpa [Level.next, hne] using hk
  · rw [List.forall_mem_cons]
    refine ⟨.inr ⟨_, List.mem_cons_self, rfl⟩, fun c hc => ?_⟩
    rcases inv.cached c hc with hexp | ⟨v, hv, hcv⟩
    · exact .inl hexp
    · right
      rcases List.mem_cons.1 hv with rfl | hv
      · exact ⟨_, List.mem_cons_of_mem _ List.mem_cons_self, by rw [hcv, hrest]; rfl⟩
      · exact ⟨v, List.mem_cons_of_mem _ (List.mem_cons_of_mem _ hv), hcv⟩

theorem pass (inv : sr.Inv step s₀ E₀) (hbis : Bisimilar step equal) {i : ι} {after : List (Ev ι)}
    (hafter : sr.level.after = .call i :: after)
    (hold : ∀ s', step sr.level.state i = some s' →
      Known equal sr.cache s' (remove i sr.level.rest)) :
    Search.Inv step s₀ E₀ { sr with level := sr.level.next i after } := by
  have hrest := Level.rest_next hafter
  refine ⟨inv.levels.congr rfl hrest, inv.calls_next i after, ?_, inv.below, ?_, inv.left⟩
  · intro k s' hk hs'
    rw [hrest]
    rcases List.mem_append.1 hk with hk | hk
    · exact inv.tried k s' hk hs'
    · obtain rfl : k = i := by simpa using hk
      exact inv.explored_of_known hbis (Level.call_mem_rest hafter) (hold s' hs')
  · intro c hc
    rcases inv.cached c hc with hexp | ⟨v, hv, hcv⟩
    · exact .inl hexp
    · right
      rcases List.mem_cons.1 hv with rfl | hv
      · exact ⟨_, List.mem_cons_self, by rw [hcv, hrest]; rfl⟩
      · exact ⟨v, List.mem_cons_of_mem _ hv, hcv⟩

theorem back (inv : sr.Inv step s₀ E₀) {i j : ι} {v : Level ι σ} {stack : List (ι × Level ι σ)}
    {after : List (Ev ι)} (hafter : sr.level.after = .ret j :: after)
    (hstack : sr.stack = (i, v) :: stack) :
    Search.Inv step s₀ E₀
      { sr with level := v, stack := stack, left := sr.level.rest :: sr.left } := by
  have hexp := inv.explored_level hafter
  have hmono {s E} (h : Explored step sr.left s E) :
      Explored step (sr.level.rest :: sr.left) s E := h.mono (List.subset_cons_self _ _)
  have hlevels := inv.levels
  have hcalls := inv.calls
  have hbelow := inv.below
  have hcached := inv.cached
  rw [Search.levels, hstack, List.map_cons] at hcalls hcached
  rw [hstack] at hlevels hbelow
  obtain ⟨hv, hi, hstep, hrest⟩ := hlevels
  refine ⟨hv, fun w hw => hcalls w (List.mem_cons_of_mem _ hw), ?_, ?_, ?_, ?_⟩
  · intro k s' hk hs'
    by_cases hki : k = i
    · -- the operation that was taken out here has now been tried as well
      subst hki
      rw [hstep, Option.some.injEq] at hs'
      rw [← hs', ← hrest]
      exact hexp
    · exact hmono (hbelow (i, v) List.mem_cons_self k s' hk hki hs')
  · intro p hp k s' hk hne hs'
    exact hmono (hbelow p (List.mem_cons_of_mem _ hp) k s' hk hne hs')
  · intro c hc
    rcases hcached c hc with h | ⟨w, hw, hcw⟩
    · exact .inl (hmono h)
    · rcases List.mem_cons.1 hw with rfl | hw
      · left
        rw [hcw]
        exact hexp
      · exact .inr ⟨w, hw, hcw⟩
  · rw [List.mem_cons, not_or]
    refine ⟨fun h => ?_, inv.left⟩
    simp [Level.rest, hafter] at h

theorem move (inv : sr.Inv step s₀ E₀) (hbis : Bisimilar step equal)
    (h : Search.Move step equal sr sr') :
    sr'.Inv step s₀ E₀ := by
  cases h with
  | push hafter hstep _ => exact inv.push hafter hstep
  | pass hafter hold => exact inv.pass hbis hafter hold
  | back hafter hstack => exact inv.back hafter hstack

/-- **Where nothing is left the operations that are taken out are a linearization.** -/
theorem sound (inv : sr.Inv step s₀ E₀) (hE : Complete E₀) (hrest : sr.level.rest = []) :
    IsLinearization step (Precedes E₀) s₀ (ids E₀) sr.taken :=
  (reach_nil_iff hE).1 ⟨_, hrest ▸ inv.reach⟩

/-- Where the search ends at a return, it has gone back from everything. -/
theorem mem_left_of_failed (inv : sr.Inv step s₀ E₀) {j : ι} {after : List (Ev ι)}
    (hafter : sr.level.after = .ret j :: after) (hstack : sr.stack = []) (hl : l ≠ [])
    (h : Reach step s₀ E₀ l t E') : E' ∈ sr.left := by
  have hlevels := inv.levels
  rw [hstack] at hlevels
  rw [← hlevels.1, ← hlevels.2] at h
  exact (inv.mem_left hafter h).resolve_left hl

/-- **Where the search ends at a return, there is no linearization.** -/
theorem complete (inv : sr.Inv step s₀ E₀) (hE : Complete E₀) {j : ι} {after : List (Ev ι)}
    (hafter : sr.level.after = .ret j :: after) (hstack : sr.stack = []) :
    ¬ Linearizable step (Precedes E₀) s₀ (ids E₀) := by
  rintro ⟨l, hl⟩
  obtain ⟨t, hreach⟩ := (reach_nil_iff hE).2 hl
  refine inv.left (inv.mem_left_of_failed hafter hstack ?_ hreach)
  rintro rfl
  have hnil : ids E₀ = [] := List.Perm.eq_nil hl.perm.symm
  have hrest : sr.level.rest = [] := by
    have hlevels := inv.levels
    rw [hstack] at hlevels
    rw [hlevels.2, hE.eq_nil_of_ids hnil]
  simp [Level.rest, hafter] at hrest

/-- The position is never behind the last event. -/
theorem after_ne_nil (inv : sr.Inv step s₀ E₀) (hE : Complete E₀) (hrest : sr.level.rest ≠ []) :
    sr.level.after ≠ [] := by
  intro hafter
  obtain ⟨e, he⟩ := List.exists_mem_of_ne_nil _ hrest
  have hret : Ev.ret e.id ∈ sr.level.rest :=
    ((inv.reach.complete hE).pair e he).subset (by simp)
  rw [Level.rest, hafter, List.append_nil] at hret
  exact inv.calls _ List.mem_cons_self _ hret

end Search.Inv

/-! ## The search ends -/

/-- A bound for the number of moves at a level with `m` events and above it. -/
def cost : ℕ → ℕ
  | 0 => 1
  | m + 1 => (m + 1) * (cost m + 1) + 1

theorem cost_mono : Monotone cost := by
  refine monotone_nat_of_le_succ fun m => ?_
  have h : cost m + 1 ≤ (m + 1) * (cost m + 1) := Nat.le_mul_of_pos_left _ m.succ_pos
  rw [cost]
  omega

def Level.weight (v : Level ι σ) : ℕ := v.after.length * (cost (v.rest.length - 1) + 1) + 1

def Search.weight (sr : Search ι σ) : ℕ :=
  sr.level.weight + (sr.stack.map fun p => p.2.weight).sum

omit [DecidableEq ι] in
/-- A level that begins. -/
theorem Level.weight_mk (s : σ)
    (E : List (Ev ι)) : (⟨s, [], E⟩ : Level ι σ).weight = cost E.length := by
  cases E <;> simp [Level.weight, Level.rest, cost]

omit [DecidableEq ι] in
theorem Level.weight_next {v : Level ι σ} {i : ι} {after : List (Ev ι)}
    (h : v.after = .call i :: after) :
    v.weight = (v.next i after).weight + (cost (v.rest.length - 1) + 1) := by
  rw [Level.weight, Level.weight, Level.rest_next h, h, List.length_cons]
  simp only [Level.next]
  ring

/-- **Every move makes the search smaller.** -/
theorem Search.Move.weight_lt (h : Search.Move step equal sr sr') : sr'.weight < sr.weight := by
  cases h with
  | @push i after s' hafter hstep hnew =>
    have hlt : (remove i sr.level.rest).length < sr.level.rest.length :=
      length_remove_lt (e := .call i) (Level.call_mem_rest hafter)
    have hle : cost (remove i sr.level.rest).length ≤ cost (sr.level.rest.length - 1) :=
      cost_mono (by omega)
    have hw := Level.weight_next hafter
    simp only [Search.weight, Level.weight_mk, List.map_cons, List.sum_cons]
    omega
  | @pass i after hafter hold =>
    have hw := Level.weight_next hafter
    simp only [Search.weight]
    omega
  | @back i j v stack after hafter hstack =>
    have hpos : 0 < sr.level.weight := Nat.succ_pos _
    simp only [Search.weight, hstack, List.map_cons, List.sum_cons]
    omega

omit [DecidableEq ι] in
theorem Search.weight_init (s : σ) (E : List (Ev ι)) :
    (Search.init s E : Search ι σ).weight = cost E.length := by
  simp [Search.weight, Search.init, Level.weight_mk]

end Search

end DistSys
