import Mathlib.Data.List.Basic

/-!
# Runs of a system given by a step function

A system is a function `step : σ → α → Option σ`: the action `a` takes the state `s` to
`step s a`, and `none` means that `a` cannot be taken in `s`. A run is a list of actions.

* `run` — the state a list of actions leads to.
* `Along C` — every action of the run meets the condition `C` in the state it is taken in.
* `decidableExistsEqSome` — on a given run, what holds of its last state can be checked.
* `run_induction` — an invariant of single steps is an invariant of runs.
* `run_history` — the same for what relates a state to the actions that led to it.
* `concat_eq_append_cons` — where an element of a history stands that has grown by one.
-/

namespace DistSys

variable {σ α : Type*} (step : σ → α → Option σ)

/-- The state that the actions lead to, if each can be taken in turn. -/
def run : σ → List α → Option σ
  | s, [] => some s
  | s, a :: as => (step s a).bind fun s' => run s' as

/-- Every action is taken in a state in which it meets `C`. -/
def Along (C : σ → α → Prop) : σ → List α → Prop
  | _, [] => True
  | s, a :: as => C s a ∧ ∀ s', step s a = some s' → Along C s' as

variable {step}

@[simp] theorem run_nil (s : σ) : run step s [] = some s := rfl

theorem run_cons (s : σ) (a : α) (as : List α) :
    run step s (a :: as) = (step s a).bind fun s' => run step s' as := rfl

theorem run_cons_eq_some {s t : σ} {a : α} {as : List α} :
    run step s (a :: as) = some t ↔ ∃ s', step s a = some s' ∧ run step s' as = some t := by
  rw [run_cons, Option.bind_eq_some_iff]

theorem run_append (s : σ) (as bs : List α) :
    run step s (as ++ bs) = (run step s as).bind fun s' => run step s' bs := by
  induction as generalizing s with
  | nil => rfl
  | cons a as ih =>
    rw [List.cons_append, run_cons, run_cons, Option.bind_assoc]
    congr 1
    funext s'
    exact ih s'

theorem run_append_of {s t u : σ} {as bs : List α} (h₁ : run step s as = some t)
    (h₂ : run step t bs = some u) : run step s (as ++ bs) = some u := by
  rw [run_append, h₁, Option.bind_some, h₂]

theorem Along.of_append {C : σ → α → Prop} {s t : σ} {as bs : List α}
    (h : Along step C s (as ++ bs)) (hr : run step s as = some t) :
    Along step C s as ∧ Along step C t bs := by
  induction as generalizing s with
  | nil =>
    rw [run_nil, Option.some.injEq] at hr
    subst hr
    exact ⟨trivial, h⟩
  | cons a as ih =>
    obtain ⟨s', hs, hr⟩ := run_cons_eq_some.1 hr
    obtain ⟨hC, hrest⟩ := h
    have ih' := ih (hrest s' hs) hr
    refine ⟨⟨hC, fun s'' hs'' => ?_⟩, ih'.2⟩
    rw [hs, Option.some.injEq] at hs''
    exact hs'' ▸ ih'.1

/-- What holds whenever an action is taken, and at the end, holds after the first action. -/
theorem Along.of_cons {P : σ → Prop} {s s' t : σ} {a : α} {as : List α}
    (h : Along step (fun s _ => P s) s (a :: as)) (ha : step s a = some s')
    (hr : run step s' as = some t) (ht : P t) : P s' := by
  cases as with
  | nil =>
    rw [run_nil, Option.some.injEq] at hr
    exact hr ▸ ht
  | cons b as => exact (h.2 s' ha).1

theorem Along.mono {C D : σ → α → Prop} (hCD : ∀ s a, C s a → D s a) {s : σ} {as : List α}
    (h : Along step C s as) : Along step D s as := by
  induction as generalizing s with
  | nil => trivial
  | cons a as ih => exact ⟨hCD s a h.1, fun s' hs => ih (h.2 s' hs)⟩

theorem Along.and {C D : σ → α → Prop} {s : σ} {as : List α} (hC : Along step C s as)
    (hD : Along step D s as) : Along step (fun s a => C s a ∧ D s a) s as := by
  induction as generalizing s with
  | nil => trivial
  | cons a as ih => exact ⟨⟨hC.1, hD.1⟩, fun s' hs => ih (hC.2 s' hs) (hD.2 s' hs)⟩

/-- A condition on the actions alone. -/
theorem along_of_forall {P : α → Prop} {s : σ} {as : List α} (h : ∀ a ∈ as, P a) :
    Along step (fun _ a => P a) s as := by
  induction as generalizing s with
  | nil => trivial
  | cons a as ih =>
    exact ⟨h a List.mem_cons_self, fun s' _ => ih fun b hb => h b (List.mem_cons_of_mem a hb)⟩

/-- On a given run the condition can be checked. -/
instance Along.decidable {C : σ → α → Prop} [∀ s a, Decidable (C s a)] :
    ∀ (s : σ) (as : List α), Decidable (Along step C s as)
  | _, [] => isTrue trivial
  | s, a :: as =>
    match h : step s a with
    | none => decidable_of_iff (C s a) ⟨fun hC => ⟨hC, fun s' hs => by rw [h] at hs; cases hs⟩,
        fun hC => hC.1⟩
    | some s' =>
      have : Decidable (Along step C s' as) := Along.decidable s' as
      decidable_of_iff (C s a ∧ Along step C s' as)
        ⟨fun hC => ⟨hC.1, fun s'' hs => by rw [h] at hs; cases hs; exact hC.2⟩,
          fun hC => ⟨hC.1, hC.2 s' h⟩⟩

/-- What holds of the state that a given run leads to can be checked. -/
instance decidableExistsEqSome {β : Type*} {P : β → Prop} [DecidablePred P] :
    ∀ o : Option β, Decidable (∃ b, o = some b ∧ P b)
  | none => isFalse fun ⟨_, h, _⟩ => Option.some_ne_none _ h.symm
  | some b => decidable_of_iff (P b)
      ⟨fun h => ⟨b, rfl, h⟩, fun ⟨_, hb, h⟩ => Option.some.inj hb ▸ h⟩

/-- **Invariants of steps are invariants of runs**, for runs whose steps all meet `C`. -/
theorem run_induction {P : σ → Prop} {C : σ → α → Prop}
    (hstep : ∀ s a s', P s → C s a → step s a = some s' → P s')
    {s t : σ} {as : List α} (hC : Along step C s as) (hr : run step s as = some t) (hs : P s) :
    P t := by
  induction as generalizing s with
  | nil =>
    rw [run_nil, Option.some.injEq] at hr
    exact hr ▸ hs
  | cons a as ih =>
    obtain ⟨s', ha, hr⟩ := run_cons_eq_some.1 hr
    exact ih (hC.2 s' ha) hr (hstep s a s' hs hC.1 ha)

/-- The same rule when every step preserves the invariant. -/
theorem run_invariant {P : σ → Prop} (hstep : ∀ s a s', P s → step s a = some s' → P s')
    {s t : σ} {as : List α} (hr : run step s as = some t) (hs : P s) : P t :=
  run_induction (C := fun _ _ => True) (fun s a s' h _ => hstep s a s' h)
    (along_of_forall fun _ _ => trivial) hr hs

/-- The same rule for what a state has to do with the actions that led to it. -/
theorem run_history {P : List α → σ → Prop}
    (hstep : ∀ as s a s', P as s → step s a = some s' → P (as ++ [a]) s') {s t : σ} {as bs : List α}
    (hr : run step s bs = some t) (hs : P as s) : P (as ++ bs) t := by
  induction bs generalizing as s with
  | nil =>
    rw [run_nil, Option.some.injEq] at hr
    rw [List.append_nil]
    exact hr ▸ hs
  | cons b bs ih =>
    obtain ⟨s', hb, hr⟩ := run_cons_eq_some.1 hr
    rw [← List.singleton_append, ← List.append_assoc]
    exact ih hr (hstep as s b s' hs hb)

/-- **Progress.** If every action that meets `C` can be taken and preserves the invariant, the whole
run can. -/
theorem run_total {P : σ → Prop} {C : σ → α → Prop}
    (hstep : ∀ s a, P s → C s a → ∃ s', step s a = some s' ∧ P s') {s : σ} {as : List α}
    (hC : Along step C s as) (hs : P s) : ∃ t, run step s as = some t ∧ P t := by
  induction as generalizing s with
  | nil => exact ⟨s, rfl, hs⟩
  | cons a as ih =>
    obtain ⟨s', ha, hs'⟩ := hstep s a hs hC.1
    obtain ⟨t, ht, hPt⟩ := ih (hC.2 s' ha) hs'
    exact ⟨t, run_cons_eq_some.2 ⟨s', ha, ht⟩, hPt⟩

/-! ## Lists that grow at the end -/

theorem getElem?_concat_cases {β : Type*} {l : List β} {a b : β} {p : ℕ}
    (hp : (l ++ [a])[p]? = some b) : l[p]? = some b ∨ p = l.length ∧ b = a := by
  rw [List.getElem?_append] at hp
  split at hp
  · exact .inl hp
  · rename_i hlt
    obtain ⟨hlt', he⟩ := List.getElem?_eq_some_iff.1 hp
    simp only [List.length_singleton, Nat.lt_one_iff, List.getElem_singleton] at hlt' he
    exact .inr ⟨by omega, he.symm⟩

/-- An element of the longer list is in the list, or is the new one. -/
theorem concat_eq_append_cons {β : Type*} {l l₁ l₂ : List β} {a b : β}
    (h : l ++ [a] = l₁ ++ b :: l₂) :
    (∃ l₃, l₂ = l₃ ++ [a] ∧ l = l₁ ++ b :: l₃) ∨ l₁ = l ∧ b = a ∧ l₂ = [] := by
  rcases List.eq_nil_or_concat l₂ with rfl | ⟨l₃, a', rfl⟩
  · obtain ⟨rfl, hab⟩ := List.append_inj' h rfl
    rw [List.singleton_inj] at hab
    exact .inr ⟨rfl, hab.symm, rfl⟩
  · rw [List.concat_eq_append] at h ⊢
    rw [← List.cons_append, ← List.append_assoc] at h
    obtain ⟨rfl, haa⟩ := List.append_inj' h rfl
    rw [List.singleton_inj] at haa
    exact .inl ⟨l₃, by rw [haa], rfl⟩

end DistSys
