import DistSys.Lib.Majority
import DistSys.Lib.TermLog
import Mathlib.Logic.Function.Basic

/-!
# Log replication by elected leaders, abstractly

Members hold logs, vote in terms, and take over segments of the logs of elected leaders.
Nothing is said about messages: what a message carries is a stable fact about the state below.

**State** (`Proto`). Each member's term, log and votes; for each term with a leader, the leader
and its log (`lead`); and how far each member has acknowledged the log of each term's leader
(`acked`). A vote records what the candidate showed: the term of its last entry and the length
of its log. A *blind* member has taken over a chosen segment but shows, and compares votes with,
a last term that is too small.

**Choice.** Index `N` is `Chosen` in term `T` when a majority acknowledged the leader's log that
far and the entry there is of term `T`. It is still `Open` as long as a majority has
acknowledged it or may still do so.

**Invariant** (`Inv`). Whatever is still open in `T` is kept by every member that acknowledged it
(`kept`) and is carried by the log of every later leader (`carried`). Openness only shrinks, so
both survive every step without looking into the past.

The steps and their proofs are in `DistSys.Lib.ConsensusSteps`, what follows from the invariant in
`DistSys.Lib.ConsensusSafety`.
-/

namespace DistSys

/-- The state of the protocol, with its history. -/
structure Proto (S E : Type*) where
  /-- The term each member has reached. -/
  term : S → ℤ
  log : S → List E
  /-- A member's vote in a term: the candidate, with the last term and length it showed. -/
  ballot : S → ℤ → Option (S × ℤ × ℕ)
  /-- The leader of a term, with its log. -/
  lead : ℤ → Option (S × List E)
  /-- How much of the log of a term's leader a member has acknowledged. -/
  acked : S → ℤ → ℕ
  /-- Members whose last term is shown too small. -/
  blind : S → Prop

namespace Proto

variable {S E : Type*} [Fintype S] [Termed E]

/-- The leader of `T` has the log `L`, with an entry of its own term at index `N`. -/
def Slot (p : Proto S E) (T : ℤ) (N : ℕ) (L : List E) : Prop :=
  (∃ c, p.lead T = some (c, L)) ∧ 1 ≤ N ∧ N ≤ L.length ∧ termAt L N = T

omit [Termed E] in
/-- Index `N` may still be chosen in `T`, or is. -/
def Open (p : Proto S E) (T : ℤ) (N : ℕ) : Prop :=
  ∃ Q : Finset S, Majority Q ∧ ∀ q ∈ Q, N ≤ p.acked q T ∨ p.term q ≤ T

/-- A majority has acknowledged index `N` of the log of the leader of `T`. -/
def Chosen (p : Proto S E) (T : ℤ) (N : ℕ) (L : List E) : Prop :=
  p.Slot T N L ∧ ∃ Q : Finset S, Majority Q ∧ ∀ q ∈ Q, N ≤ p.acked q T

/-- What a candidate shows puts it past index `N` of term `T`. -/
def Shows (sh : ℤ × ℕ) (T : ℤ) (N : ℕ) : Prop := T < sh.1 ∨ sh.1 = T ∧ N ≤ sh.2

structure Inv (p : Proto S E) : Prop where
  log_term : ∀ s i, 1 ≤ i → i ≤ (p.log s).length → termAt (p.log s) i ≤ p.term s
  /-- Up to an entry of term `U`, a log is an initial segment of the log of `U`'s leader. -/
  log_lead : ∀ s i, 1 ≤ i → i ≤ (p.log s).length →
    ∃ c L, p.lead (termAt (p.log s) i) = some (c, L) ∧ (p.log s).take i <+: L
  lead_pos : ∀ T c L, p.lead T = some (c, L) → 0 < T
  lead_term : ∀ T c L, p.lead T = some (c, L) → ∀ i, 1 ≤ i → i ≤ L.length → termAt L i ≤ T
  lead_lead : ∀ T c L, p.lead T = some (c, L) → ∀ i, 1 ≤ i → i ≤ L.length →
    ∃ c' L', p.lead (termAt L i) = some (c', L') ∧ L.take i <+: L'
  /-- Leaders were elected by a majority. -/
  elected : ∀ T c L, p.lead T = some (c, L) →
    ∃ Q : Finset S, Majority Q ∧ ∀ q ∈ Q, ∃ sh, p.ballot q T = some (c, sh)
  /-- A leader still in its term has the log recorded for it. -/
  lead_own : ∀ T c L, p.lead T = some (c, L) → T ≤ p.term c ∧ p.acked c T = L.length ∧
    (p.term c = T → p.log c = L ∧ ¬ p.blind c)
  ballot_term : ∀ q T x, p.ballot q T = some x → T ≤ p.term q
  acked_le : ∀ q T, 0 < p.acked q T →
    T ≤ p.term q ∧ ∃ c L, p.lead T = some (c, L) ∧ p.acked q T ≤ L.length
  /-- What is still open is kept by those that acknowledged it. -/
  kept : ∀ q T N L, p.Slot T N L → p.Open T N → N ≤ p.acked q T → L.take N <+: p.log q
  /-- What is still open is in the log of every later leader. -/
  carried : ∀ T N L T' c' L', p.Slot T N L → p.Open T N → T < T' →
    p.lead T' = some (c', L') → L.take N <+: L'
  /-- A vote in a term that has no leader yet: the candidate showed at least what the voter
  acknowledged and is still open, or more has been chosen since. -/
  evidence : ∀ q T' c' sh T N L, p.ballot q T' = some (c', sh) → p.lead T' = none →
    p.Slot T N L → p.Open T N → T < T' → N ≤ p.acked q T →
    Shows sh T N ∨ ∃ T₃ N₃ L₃, p.Chosen T₃ N₃ L₃ ∧ T₃ < T' ∧ N < N₃
  /-- A blind member has a chosen log, longer than anything open it acknowledged. -/
  blind_log : ∀ s, p.blind s →
    ∃ T₃ N₃ L₃, p.Chosen T₃ N₃ L₃ ∧ T₃ ≤ p.term s ∧ (p.log s).length ≤ N₃ ∧ p.log s <+: L₃
  blind_acked : ∀ s, p.blind s → ∀ T N L, p.Slot T N L → p.Open T N → N ≤ p.acked s T →
    N < (p.log s).length
  bounded : ∃ B, ∀ q T, p.acked q T ≤ B

/-- All members are in term `t`, with empty logs. -/
def init (t : ℤ) : Proto S E where
  term _ := t
  log _ := []
  ballot _ _ := none
  lead _ := none
  acked _ _ := 0
  blind _ := False

theorem Inv.init (t : ℤ) : (init t : Proto S E).Inv where
  log_term _ _ hi hlen := absurd (hi.trans hlen) (Nat.not_succ_le_zero 0)
  log_lead _ _ hi hlen := absurd (hi.trans hlen) (Nat.not_succ_le_zero 0)
  lead_pos := nofun
  lead_term := nofun
  lead_lead := nofun
  elected := nofun
  lead_own := nofun
  ballot_term := nofun
  acked_le _ _ h := absurd h (lt_irrefl 0)
  kept _ _ _ _ hs := nomatch hs.1
  carried _ _ _ _ _ _ hs := nomatch hs.1
  evidence := nofun
  blind_log := nofun
  blind_acked := nofun
  bounded := ⟨0, fun _ _ => le_rfl⟩

/-- `p'` is a later state than `p`: what `p` says about the past still holds. -/
structure Le (p p' : Proto S E) : Prop where
  term : ∀ s, p.term s ≤ p'.term s
  ballot : ∀ q T x, p.ballot q T = some x → p'.ballot q T = some x
  lead : ∀ T c L, p.lead T = some (c, L) → ∃ L', p'.lead T = some (c, L') ∧ L <+: L'
  acked : ∀ q T, p.acked q T ≤ p'.acked q T

omit [Fintype S] [Termed E] in
theorem Le.refl (p : Proto S E) : p.Le p where
  term _ := le_rfl
  ballot _ _ _ h := h
  lead _ _ L h := ⟨L, h, List.prefix_rfl⟩
  acked _ _ := le_rfl

omit [Fintype S] [Termed E] in
theorem Le.trans {p q r : Proto S E} (h₁ : p.Le q) (h₂ : q.Le r) : p.Le r where
  term s := (h₁.term s).trans (h₂.term s)
  ballot s T x h := h₂.ballot s T x (h₁.ballot s T x h)
  lead T c L h := by
    obtain ⟨L', h', hp⟩ := h₁.lead T c L h
    obtain ⟨L'', h'', hp'⟩ := h₂.lead T c L' h'
    exact ⟨L'', h'', hp.trans hp'⟩
  acked s T := (h₁.acked s T).trans (h₂.acked s T)

theorem Chosen.mono {p p' : Proto S E} (hle : p.Le p') {T : ℤ} {N : ℕ} {L : List E}
    (h : p.Chosen T N L) : ∃ L', p'.Chosen T N L' ∧ L <+: L' := by
  obtain ⟨⟨⟨c, hc⟩, h1, hN, hT⟩, Q, hQ, hall⟩ := h
  obtain ⟨L', hl', hp⟩ := hle.lead T c L hc
  refine ⟨L', ⟨⟨⟨c, hl'⟩, h1, hN.trans hp.length_le, ?_⟩, Q, hQ,
    fun q hq => (hall q hq).trans (hle.acked q T)⟩, hp⟩
  rw [← termAt_of_isPrefix hp hN, hT]

/-- What a vote says about the past is not taken back. -/
theorem Le.evidence {p p' : Proto S E} (hle : p.Le p') {sh : ℤ × ℕ} {T T' : ℤ} {N : ℕ}
    (h : Shows sh T N ∨ ∃ T₃ N₃ L₃, p.Chosen T₃ N₃ L₃ ∧ T₃ < T' ∧ N < N₃) :
    Shows sh T N ∨ ∃ T₃ N₃ L₃, p'.Chosen T₃ N₃ L₃ ∧ T₃ < T' ∧ N < N₃ := by
  rcases h with hsh | ⟨T₃, N₃, L₃, hch, hrest⟩
  · exact .inl hsh
  · obtain ⟨L₄, hch₄, -⟩ := hch.mono hle
    exact .inr ⟨T₃, N₃, L₄, hch₄, hrest⟩

/-- A log within something chosen stays within it. -/
theorem Le.chosen_log {p p' : Proto S E} (hle : p.Le p') {M : List E} {t t' : ℤ} (ht : t ≤ t')
    (h : ∃ T₃ N₃ L₃, p.Chosen T₃ N₃ L₃ ∧ T₃ ≤ t ∧ M.length ≤ N₃ ∧ M <+: L₃) :
    ∃ T₃ N₃ L₃, p'.Chosen T₃ N₃ L₃ ∧ T₃ ≤ t' ∧ M.length ≤ N₃ ∧ M <+: L₃ := by
  obtain ⟨T₃, N₃, L₃, hch, hT, hlen, hp⟩ := h
  obtain ⟨L₄, hch₄, hp₄⟩ := hch.mono hle
  exact ⟨T₃, N₃, L₄, hch₄, hT.trans ht, hlen, hp.trans hp₄⟩

/-! ## Logs backed by the leaders of their terms -/

/-- Up to an entry of term `U`, `M` is an initial segment of the log of `U`'s leader. -/
def Backed (p : Proto S E) (M : List E) : Prop :=
  ∀ i, 1 ≤ i → i ≤ M.length → ∃ c L, p.lead (termAt M i) = some (c, L) ∧ M.take i <+: L

omit [Fintype S] in
theorem Backed.mono {p p' : Proto S E} (hle : p.Le p') {M : List E} (h : p.Backed M) :
    p'.Backed M := by
  intro i hi hlen
  obtain ⟨c, L, hl, hp⟩ := h i hi hlen
  obtain ⟨L', hl', hp'⟩ := hle.lead _ _ _ hl
  exact ⟨c, L', hl', hp.trans hp'⟩

omit [Fintype S] in
theorem Backed.of_isPrefix {p : Proto S E} {L M : List E} (h : p.Backed M) (hp : L <+: M) :
    p.Backed L := by
  intro i hi hlen
  rw [termAt_of_isPrefix hp hlen, take_eq_take_of_isPrefix hp hlen]
  exact h i hi (hlen.trans hp.length_le)

/-! ## First consequences -/

omit [Termed E] in
theorem Open.back {p p' : Proto S E} {T : ℤ} {N : ℕ} (ht : ∀ q, p.term q ≤ p'.term q)
    (ha : ∀ q, p'.acked q T ≤ p.acked q T ∨ p.term q ≤ T) (h : p'.Open T N) : p.Open T N := by
  obtain ⟨Q, hQ, hall⟩ := h
  refine ⟨Q, hQ, fun q hq => ?_⟩
  have htq := ht q
  rcases ha q with haq | haq
  · rcases hall q hq with h | h
    · exact Or.inl (h.trans haq)
    · exact Or.inr (htq.trans h)
  · exact Or.inr haq

theorem Chosen.toOpen {p : Proto S E} {T : ℤ} {N : ℕ} {L : List E} (h : p.Chosen T N L) :
    p.Open T N := by
  obtain ⟨-, Q, hQ, hall⟩ := h
  exact ⟨Q, hQ, fun q hq => Or.inl (hall q hq)⟩

omit [Fintype S] in
theorem Slot.log_eq {p : Proto S E} {T : ℤ} {N : ℕ} {L L' : List E} {c : S}
    (h : p.Slot T N L) (hl : p.lead T = some (c, L')) : L = L' := by
  obtain ⟨⟨c', hc'⟩, -⟩ := h
  rw [hc'] at hl
  exact congrArg Prod.snd (Option.some.inj hl)

omit [Fintype S] in
theorem Slot.length_take {p : Proto S E} {T : ℤ} {N : ℕ} {L : List E} (h : p.Slot T N L) :
    (L.take N).length = N := by
  rw [List.length_take]
  exact Nat.min_eq_left h.2.2.1

theorem Inv.lead_ordered {p : Proto S E} (h : p.Inv) {T : ℤ} {c : S} {L : List E}
    (hl : p.lead T = some (c, L)) {i j : ℕ} (hij : i ≤ j) (hj : j ≤ L.length) :
    termAt L i ≤ termAt L j := by
  rcases Nat.eq_zero_or_pos i with rfl | hi
  · rcases Nat.eq_zero_or_pos j with rfl | hj'
    · exact le_refl _
    · obtain ⟨c', L', hL', -⟩ := h.lead_lead T c L hl j hj' hj
      have := h.lead_pos _ _ _ hL'
      rw [termAt_zero]
      omega
  · obtain ⟨c', L', hL', hpre⟩ := h.lead_lead T c L hl j (by omega) hj
    have hlen : i ≤ (L.take j).length := by rw [List.length_take]; omega
    have hle := h.lead_term _ _ _ hL' i hi (hlen.trans hpre.length_le)
    rwa [← termAt_of_isPrefix hpre hlen, termAt_take hij] at hle

theorem Inv.log_ordered {p : Proto S E} (h : p.Inv) {s : S} {i j : ℕ} (hij : i ≤ j)
    (hj : j ≤ (p.log s).length) : termAt (p.log s) i ≤ termAt (p.log s) j := by
  rcases Nat.eq_zero_or_pos j with rfl | hj'
  · rw [Nat.le_zero.1 hij]
  · obtain ⟨c, L, hL, hpre⟩ := h.log_lead s j hj' hj
    have hlen : j ≤ ((p.log s).take j).length := by rw [List.length_take]; omega
    have := h.lead_ordered hL hij (hlen.trans hpre.length_le)
    rwa [← termAt_of_isPrefix hpre (hij.trans hlen), ← termAt_of_isPrefix hpre hlen, termAt_take hij,
      termAt_take le_rfl] at this

theorem Inv.le_lastTerm {p : Proto S E} (h : p.Inv) {s : S} {i : ℕ}
    (hi : i ≤ (p.log s).length) : termAt (p.log s) i ≤ lastTerm (p.log s) :=
  h.log_ordered hi le_rfl

/-- The log of a leader whose entry at `i` is of term `U` agrees with the log of `U`'s leader up to
`i`. -/
theorem Inv.take_lead_isPrefix {p : Proto S E} (h : p.Inv) {T : ℤ} {c₀ : S} {L₀ : List E}
    (hl₀ : p.lead T = some (c₀, L₀)) {i : ℕ} (hi : 1 ≤ i) (hlen : i ≤ L₀.length) {U : ℤ}
    (hU : termAt L₀ i = U) {c : S} {L : List E} (hl : p.lead U = some (c, L)) :
    L₀.take i <+: L := by
  obtain ⟨c', L', hL', hpre⟩ := h.lead_lead T c₀ L₀ hl₀ i hi hlen
  rw [hU, hl, Option.some.injEq, Prod.mk.injEq] at hL'
  exact hL'.2 ▸ hpre

/-- **Log Matching** between a member and a leader: equal terms at an index mean equal logs up to
it. -/
theorem Inv.matching {p : Proto S E} (h : p.Inv) {s : S} {T : ℤ} {c : S} {L : List E}
    (hl : p.lead T = some (c, L)) {i : ℕ} (hs : i ≤ (p.log s).length) (hL : i ≤ L.length)
    (ht : termAt (p.log s) i = termAt L i) : (p.log s).take i = L.take i := by
  rcases Nat.eq_zero_or_pos i with rfl | hi
  · rw [List.take_zero, List.take_zero]
  · obtain ⟨c', L', hL', hpre⟩ := h.log_lead s i hi hs
    have hpre' := h.take_lead_isPrefix hl hi hL ht.symm hL'
    have hlen : ((p.log s).take i).length = (L.take i).length := by
      rw [List.length_take, List.length_take]
      omega
    exact (prefix_of_le hpre hpre' hlen.le).eq_of_length hlen

theorem Inv.acked_eq_zero {p : Proto S E} (h : p.Inv) {t : ℤ} (hn : p.lead t = none) (q : S) :
    p.acked q t = 0 := by
  by_contra hne
  obtain ⟨-, c, L, hl, -⟩ := h.acked_le q t (by omega)
  rw [hn] at hl
  cases hl

theorem Inv.acked_le_length {p : Proto S E} (h : p.Inv) {t : ℤ} {c : S} {L : List E}
    (hl : p.lead t = some (c, L)) (q : S) : p.acked q t ≤ L.length := by
  rcases Nat.eq_zero_or_pos (p.acked q t) with h0 | hpos
  · omega
  · obtain ⟨-, c', L', hl', hlen⟩ := h.acked_le q t hpos
    rw [hl, Option.some.injEq, Prod.mk.injEq] at hl'
    exact hl'.2 ▸ hlen

/-- Two logs that are still open in their terms are comparable. -/
theorem Inv.open_isPrefix {p : Proto S E} (h : p.Inv) {T T₃ : ℤ} {N N₃ : ℕ} {L L₃ : List E}
    (hs : p.Slot T N L) (ho : p.Open T N) (hs₃ : p.Slot T₃ N₃ L₃) (ho₃ : p.Open T₃ N₃)
    (hN : N ≤ N₃) : L.take N <+: L₃.take N₃ := by
  obtain ⟨c, hc⟩ := hs.1
  obtain ⟨c₃, hc₃⟩ := hs₃.1
  have hlen : (L.take N).length ≤ (L₃.take N₃).length := by
    rw [hs.length_take, hs₃.length_take]
    exact hN
  rcases lt_trichotomy T T₃ with hlt | heq | hgt
  · exact prefix_of_le (h.carried _ _ _ _ _ _ hs ho hlt hc₃) (List.take_prefix _ _) hlen
  · subst heq
    obtain rfl := hs.log_eq hc₃
    exact prefix_of_le (List.take_prefix _ _) (List.take_prefix _ _) hlen
  · exact prefix_of_le (List.take_prefix _ _) (h.carried _ _ _ _ _ _ hs₃ ho₃ hgt hc) hlen

end Proto

end DistSys
