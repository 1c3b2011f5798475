import Mathlib.Data.List.Basic

/-!
# Bit sets

`porcupine/bitset.go`: the set of operations that the search has taken out, as words of 64 bits.
Bits 0-63 are in the first word, the next ones in the second, and so on.

A slice is modelled by its contents, so `clone` is nothing. An index out of range stops the program;
the functions give `none` then.

* `Bitset.set_spec`, `Bitset.clear_spec` — membership after an update.
* `Bitset.ext_has`, `Bitset.equals_iff` — bit sets of one length are compared as sets.
-/

namespace DistSys.Porcupine

structure Bitset where
  words : List (BitVec 64)
  deriving DecidableEq

namespace Bitset

def newBitset (bits : ℕ) : Bitset :=
  let extra := if bits % 64 ≠ 0 then 1 else 0
  let chunks := bits / 64 + extra
  ⟨List.replicate chunks 0⟩

def bitsetIndex (pos : ℕ) : ℕ × ℕ := (pos / 64, pos % 64)

variable (b : Bitset)

def set (pos : ℕ) : Option Bitset :=
  let (major, minor) := bitsetIndex pos
  b.words[major]?.map fun w => ⟨b.words.set major (w ||| 1#64 <<< minor)⟩

def clear (pos : ℕ) : Option Bitset :=
  let (major, minor) := bitsetIndex pos
  b.words[major]?.map fun w => ⟨b.words.set major (w &&& ~~~(1#64 <<< minor))⟩

def get (pos : ℕ) : Option Bool :=
  let (major, minor) := bitsetIndex pos
  b.words[major]?.map fun w => w &&& 1#64 <<< minor ≠ 0

/-- `bits.OnesCount64`. -/
def onesCount64 (w : BitVec 64) : ℕ := (List.range 64).countP fun i => w.getLsbD i

def popcnt : ℕ := b.words.foldl (fun total v => total + onesCount64 v) 0

def hash : BitVec 64 := b.words.foldl (· ^^^ ·) (BitVec.ofNat 64 b.popcnt)

def equals (b2 : Bitset) : Bool :=
  b.words.length = b2.words.length && (b.words.zip b2.words).all fun p => p.1 = p.2

/-- The position is in the set. -/
def has (pos : ℕ) : Bool := (b.words.getD (pos / 64) 0).getLsbD (pos % 64)

variable {b} {b2 : Bitset}

theorem equals_iff : b.equals b2 = true ↔ b = b2 := by
  obtain ⟨ws⟩ := b
  obtain ⟨ws2⟩ := b2
  simp only [equals, Bool.and_eq_true, decide_eq_true_eq, mk.injEq]
  induction ws generalizing ws2 with
  | nil => cases ws2 <;> simp
  | cons w ws ih =>
    cases ws2 with
    | nil => simp
    | cons w2 ws2 =>
      simp only [List.zip_cons_cons, List.all_cons, Bool.and_eq_true, decide_eq_true_eq,
        List.length_cons, Nat.succ_inj, List.cons.injEq, ← ih ws2]
      exact and_left_comm

/-- Bit sets of one length with the same elements are the same. -/
theorem ext_has (hlen : b.words.length = b2.words.length) (h : ∀ pos, b.has pos = b2.has pos) :
    b = b2 := by
  obtain ⟨ws⟩ := b
  obtain ⟨ws2⟩ := b2
  rw [mk.injEq]
  refine List.ext_getElem hlen fun k hk hk2 => ?_
  refine BitVec.eq_of_getLsbD_eq fun i hi => ?_
  have := h (64 * k + i)
  have hdiv : (64 * k + i) / 64 = k := by omega
  have hmod : (64 * k + i) % 64 = i := by omega
  simpa [has, hdiv, hmod, hk, hk2] using this

@[simp] theorem has_newBitset (bits pos : ℕ) : (newBitset bits).has pos = false := by
  rw [has, newBitset, List.getD_eq_getElem?_getD, List.getElem?_replicate]
  generalize bits / 64 + _ = chunks
  split <;> simp

theorem length_newBitset {bits pos : ℕ} (h : pos < bits) :
    pos / 64 < (newBitset bits).words.length := by
  simp only [newBitset, List.length_replicate]
  split <;> omega

/-- An update of one bit of a word. -/
theorem has_update {pos : ℕ} {w w' : BitVec 64} {v : Bool} (hw : b.words[pos / 64]? = some w)
    (hw' : ∀ i, i < 64 → w'.getLsbD i = if i = pos % 64 then v else w.getLsbD i) (i : ℕ) :
    (⟨b.words.set (pos / 64) w'⟩ : Bitset).has i = if i = pos then v else b.has i := by
  obtain ⟨hlt, -⟩ := List.getElem?_eq_some_iff.1 hw
  simp only [has, List.getD_eq_getElem?_getD, List.getElem?_set]
  by_cases hword : pos / 64 = i / 64
  · rw [if_pos hword, if_pos (hword ▸ hlt), Option.getD_some, hw' _ (i.mod_lt (by omega)), ← hword,
      hw, Option.getD_some]
    by_cases hpos : i = pos
    · rw [if_pos hpos, if_pos (by rw [hpos])]
    · rw [if_neg hpos, if_neg (by omega)]
  · rw [if_neg hword, if_neg (by rintro rfl; exact hword rfl)]

/-- A bit other than bit `p` is not in the mask of bit `p`. -/
theorem getLsbD_mask_of_ne {i p : ℕ} (h : i ≠ p) : (1#64 <<< p).getLsbD i = false := by
  rw [BitVec.getLsbD_shiftLeft, BitVec.getLsbD_one]
  have hor : i < p ∨ i - p ≠ 0 := by omega
  rcases hor with hlt | hne
  · simp [hlt]
  · simp [hne]

theorem getLsbD_mask {p : ℕ} (h : p < 64) : (1#64 <<< p).getLsbD p = true := by
  simp [h]

theorem set_spec {pos : ℕ} (h : pos / 64 < b.words.length) :
    ∃ b', b.set pos = some b' ∧ b'.words.length = b.words.length ∧
      ∀ i, b'.has i = if i = pos then true else b.has i := by
  have hw := List.getElem?_eq_getElem h
  refine ⟨⟨b.words.set (pos / 64) (b.words[pos / 64] ||| 1#64 <<< (pos % 64))⟩, ?_, by simp,
    has_update hw fun i hi => ?_⟩
  · simp only [set, bitsetIndex, hw, Option.map_some]
  · rw [BitVec.getLsbD_or]
    split_ifs with heq
    · rw [heq, getLsbD_mask (Nat.mod_lt _ (by decide)), Bool.or_true]
    · rw [getLsbD_mask_of_ne heq, Bool.or_false]

theorem clear_spec {pos : ℕ} (h : pos / 64 < b.words.length) :
    ∃ b', b.clear pos = some b' ∧ b'.words.length = b.words.length ∧
      ∀ i, b'.has i = if i = pos then false else b.has i := by
  have hw := List.getElem?_eq_getElem h
  refine ⟨⟨b.words.set (pos / 64) (b.words[pos / 64] &&& ~~~(1#64 <<< (pos % 64)))⟩, ?_, by simp,
    has_update hw fun i hi => ?_⟩
  · simp only [clear, bitsetIndex, hw, Option.map_some]
  · rw [BitVec.getLsbD_and, BitVec.getLsbD_not, decide_eq_true hi, Bool.true_and]
    split_ifs with heq
    · rw [heq, getLsbD_mask (Nat.mod_lt _ (by decide)), Bool.not_true, Bool.and_false]
    · rw [getLsbD_mask_of_ne heq, Bool.not_false, Bool.and_true]

end Bitset

end DistSys.Porcupine
