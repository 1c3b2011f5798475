import Mathlib.Data.List.Nodup
import Mathlib.Logic.Function.Basic

/-!
# Doubly linked lists

Nodes with a pointer to the next and one to the previous node, and the two writes by which a node is
taken out of a list. The pointers of the node itself stay, and so the same two places can be found
to put it back.

`Seg L l x` says that the nodes `l` are linked one after another, and the last of them to `x`.

* `Seg.unlink` — a node is taken out, and putting it back gives the memory as it was.
-/

namespace DistSys

/-- The two pointers of each node. -/
@[ext] structure Links (A : Type*) where
  next : A → Option A
  prev : A → Option A

namespace Links

variable {A : Type*} [DecidableEq A] (L : Links A)

def setNext (a : A) (x : Option A) : Links A := { L with next := Function.update L.next a x }

def setPrev (a : A) (x : Option A) : Links A := { L with prev := Function.update L.prev a x }

/-- The write to a node behind a pointer that may be nil. -/
def setPrevOf (n : Option A) (x : Option A) : Links A := n.elim L fun n => L.setPrev n x

@[simp] theorem setNext_prev (a : A) (x : Option A) : (L.setNext a x).prev = L.prev := rfl

@[simp] theorem setPrev_next (a : A) (x : Option A) : (L.setPrev a x).next = L.next := rfl

@[simp] theorem setPrevOf_next (n x : Option A) : (L.setPrevOf n x).next = L.next := by
  cases n <;> rfl

theorem setNext_next_self (a : A) (x : Option A) : (L.setNext a x).next a = x := by
  simp [setNext]

theorem setNext_next_of_ne {a b : A} (h : b ≠ a) (x : Option A) :
    (L.setNext a x).next b = L.next b := by
  simp [setNext, h]

theorem setPrevOf_prev_of_ne {n : Option A} {b : A} (h : n ≠ some b) (x : Option A) :
    (L.setPrevOf n x).prev b = L.prev b := by
  cases n with
  | none => rfl
  | some n =>
    have hne : b ≠ n := fun hb => h (by rw [hb])
    simp [setPrevOf, setPrev, hne]

theorem setPrevOf_prev_self (a : A) (x : Option A) : (L.setPrevOf (some a) x).prev a = x := by
  simp [setPrevOf, setPrev]

/-- The neighbours of the node, the first of which is not nil, are linked to each other. -/
def unlink (a : A) : Option (Links A) := do
  let p ← L.prev a
  let L := L.setNext p (L.next a)
  return L.setPrevOf (L.next a) (L.prev a)

/-- The neighbours of the node are linked to it again. -/
def relink (a : A) : Option (Links A) := do
  let p ← L.prev a
  let L := L.setNext p (some a)
  return L.setPrevOf (L.next a) (some a)

/-- The nodes of the list are linked one after another, and the last one to `x`. -/
def Seg : List A → Option A → Prop
  | [], _ => True
  | a :: l, x => L.next a = l.head?.or x ∧ (∀ b, l.head?.or x = some b → L.prev b = some a) ∧ Seg l x

end Links

open Links

variable {A : Type*} [DecidableEq A] {L L' : Links A} {l l₁ l₂ : List A} {x : Option A} {a p : A}

namespace Links.Seg

omit [DecidableEq A] in
theorem append_iff : L.Seg (l₁ ++ l₂) x ↔ L.Seg l₁ (l₂.head?.or x) ∧ L.Seg l₂ x := by
  induction l₁ with
  | nil => simp [Seg]
  | cons a l₁ ih => simp [Seg, ih, and_assoc, Option.or_assoc]

omit [DecidableEq A] in
/-- Only the pointers of the list matter. -/
theorem congr (h : L.Seg l x) (hnext : ∀ a ∈ l, L'.next a = L.next a)
    (hprev : ∀ a ∈ l.tail, L'.prev a = L.prev a)
    (hx : ∀ a, x = some a → L'.prev a = L.prev a) : L'.Seg l x := by
  induction l with
  | nil => trivial
  | cons a l ih =>
    rw [List.forall_mem_cons] at hnext
    have hprev' : ∀ b, l.head?.or x = some b → L'.prev b = L.prev b := by
      intro b hb
      cases l with
      | nil => exact hx b hb
      | cons c l => exact hprev b (by simp_all)
    refine ⟨hnext.1.trans h.1, fun b hb => (hprev' b hb).trans (h.2.1 b hb), ?_⟩
    exact ih h.2.2 hnext.2 fun b hb => hprev b (List.mem_of_mem_tail hb)

/-- What `unlink` writes. -/
theorem unlink_eq (h : L.Seg (l₁ ++ p :: a :: l₂) x) (hpa : p ≠ a) :
    L.unlink a = some ((L.setNext p (l₂.head?.or x)).setPrevOf (l₂.head?.or x) (some p)) := by
  obtain ⟨-, -, hp, hnext, -⟩ := append_iff.1 h
  have hprev : L.prev a = some p := hp a rfl
  simp only [unlink, hprev, Option.bind_eq_bind, Option.bind_some, setNext_prev,
    L.setNext_next_of_ne hpa.symm, hnext]
  rfl

theorem seg_unlink (h : L.Seg (l₁ ++ p :: a :: l₂) none) (hnodup : (l₁ ++ p :: a :: l₂).Nodup)
    (hL' : L.unlink a = some L') : L'.Seg (l₁ ++ p :: l₂) none := by
  rw [List.nodup_append, List.nodup_cons, List.nodup_cons] at hnodup
  obtain ⟨-, ⟨hp, -, hl₂⟩, hdisj⟩ := hnodup
  rw [h.unlink_eq (by rintro rfl; simp at hp), Option.some.injEq] at hL'
  subst hL'
  obtain ⟨h₁, -, -, -, -, h₂⟩ := append_iff.1 h
  have hhead : ∀ b, l₂.head?.or none = some b → b ∈ l₂ := by
    intro b hb
    exact List.mem_of_mem_head? (by simpa using hb)
  refine append_iff.2 ⟨h₁.congr ?_ ?_ ?_, ?_, ?_, h₂.congr ?_ ?_ nofun⟩
  · intro b hb
    rw [setPrevOf_next]
    exact L.setNext_next_of_ne (hdisj b hb p (by simp)) _
  · intro b hb
    refine setPrevOf_prev_of_ne _ (fun hn => ?_) _
    exact hdisj b (List.mem_of_mem_tail hb) b (by simp [hhead b hn]) rfl
  · rintro b hb
    obtain rfl : p = b := by simpa using hb
    exact setPrevOf_prev_of_ne _ (fun hn => hp (by simp [hhead p hn])) _
  · rw [setPrevOf_next]
    exact L.setNext_next_self p _
  · intro b hb
    rw [hb]
    exact setPrevOf_prev_self _ b _
  · intro b hb
    rw [setPrevOf_next]
    exact L.setNext_next_of_ne (fun hbp => hp (by simp [← hbp, hb])) _
  · intro b hb
    refine setPrevOf_prev_of_ne _ (fun hn => ?_) _
    cases l₂ with
    | nil => cases hb
    | cons c l₂ =>
      obtain rfl : c = b := by simpa using hn
      exact (List.nodup_cons.1 hl₂).1 hb

theorem relink_unlink (h : L.Seg (l₁ ++ p :: a :: l₂) none) (hnodup : (l₁ ++ p :: a :: l₂).Nodup)
    (hL' : L.unlink a = some L') : L'.relink a = some L := by
  have hnodup' := (List.nodup_append.1 hnodup).2.1
  have hpa : p ≠ a := by
    rintro rfl
    simp at hnodup'
  rw [h.unlink_eq hpa, Option.some.injEq] at hL'
  subst hL'
  obtain ⟨-, hnextp, hp, hnext, hprevn, -⟩ := append_iff.1 h
  have hprev : L.prev a = some p := hp a rfl
  have hnea : l₂.head?.or none ≠ some a := by
    intro hn
    have := List.mem_of_mem_head? (l := l₂) (a := a) (by simpa using hn)
    simp [this] at hnodup'
  rw [relink, setPrevOf_prev_of_ne _ hnea, setNext_prev, hprev]
  generalize hn : l₂.head?.or none = n at *
  -- each of the two writes restores what was there
  have hnext' : Function.update L.next p (some a) = L.next := by
    rw [Function.update_eq_self_iff]
    exact hnextp.symm
  cases n with
  | none => simp [setNext, setPrevOf, hpa.symm, hnext, hnext']
  | some n =>
    have hprev' : Function.update L.prev n (some a) = L.prev := by
      rw [Function.update_eq_self_iff]
      exact (hprevn n rfl).symm
    simp [setNext, setPrevOf, setPrev, hpa.symm, hnext, hnext', hprev']

/-- **A node is taken out of a list,** and can be put back. -/
theorem unlink (h : L.Seg (l₁ ++ a :: l₂) none) (hnodup : (l₁ ++ a :: l₂).Nodup) (hl₁ : l₁ ≠ []) :
    ∃ L', L.unlink a = some L' ∧ L'.Seg (l₁ ++ l₂) none ∧ L'.relink a = some L := by
  obtain ⟨l, p, rfl⟩ := (List.eq_nil_or_concat l₁).resolve_left hl₁
  simp only [List.concat_eq_append, List.append_assoc, List.singleton_append] at h hnodup ⊢
  have hL' := h.unlink_eq (by rintro rfl; simp [List.nodup_append] at hnodup)
  exact ⟨_, hL', h.seg_unlink hnodup hL', h.relink_unlink hnodup hL'⟩

omit [DecidableEq A] in
/-- The pointer to the next node. -/
theorem next_eq (h : L.Seg (l₁ ++ a :: l₂) none) : L.next a = l₂.head? := by
  have := (append_iff.1 h).2.1
  simpa using this

end Links.Seg

end DistSys
