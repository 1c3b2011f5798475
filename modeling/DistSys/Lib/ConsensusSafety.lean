import DistSys.Lib.ConsensusSteps

/-!
# Committed segments

A segment is *committed* by term `t` when it lies within something chosen in a term up to `t`.
Committed segments are comparable, the logs of later leaders begin with them, and a later state of
the protocol still has them.
-/

namespace DistSys.Proto

variable {S E : Type*} [Fintype S] [Termed E]

/-- `P` lies within something chosen in a term up to `t`. -/
def Committed (p : Proto S E) (P : List E) (t : ℤ) : Prop :=
  P = [] ∨ ∃ T N L, p.Chosen T N L ∧ T ≤ t ∧ P.length ≤ N ∧ P <+: L

theorem Committed.mono {p p' : Proto S E} (hle : p.Le p') {P : List E} {t t' : ℤ}
    (ht : t ≤ t') (h : p.Committed P t) : p'.Committed P t' := by
  rcases h with rfl | ⟨T, N, L, hch, hT, hlen, hp⟩
  · exact Or.inl rfl
  · obtain ⟨L', hch', hp'⟩ := hch.mono hle
    exact Or.inr ⟨T, N, L', hch', hT.trans ht, hlen, hp.trans hp'⟩

theorem Committed.of_isPrefix {p : Proto S E} {P P' : List E} {t : ℤ} (h : p.Committed P t)
    (hp : P' <+: P) : p.Committed P' t := by
  rcases h with rfl | ⟨T, N, L, hch, hT, hlen, hpL⟩
  · exact Or.inl (List.prefix_nil.1 hp)
  · exact Or.inr ⟨T, N, L, hch, hT, hp.length_le.trans hlen, hp.trans hpL⟩

/-- **Leader completeness.** The log of a leader begins with everything committed by its term. -/
theorem Inv.prefix_lead_of_committed {p : Proto S E} (h : p.Inv) {P : List E} {t t' : ℤ}
    (hP : p.Committed P t) (ht : t ≤ t') {c : S} {L : List E} (hl : p.lead t' = some (c, L)) :
    P <+: L := by
  rcases hP with rfl | ⟨T, N, M, hch, hT, hlen, hp⟩
  · exact List.nil_prefix
  · have hPM : P <+: M.take N := prefix_of_le hp (List.take_prefix _ _) (by
      rw [hch.1.length_take]
      exact hlen)
    rcases (hT.trans ht).lt_or_eq with hlt | rfl
    · exact hPM.trans (h.carried T N M t' c L hch.1 hch.toOpen hlt hl)
    · obtain rfl := hch.1.log_eq hl
      exact hp

/-- **Committed segments are comparable.** -/
theorem Inv.committed_isPrefix {p : Proto S E} (h : p.Inv) {P P' : List E} {t t' : ℤ}
    (hP : p.Committed P t) (hP' : p.Committed P' t') (hlen : P.length ≤ P'.length) :
    P <+: P' := by
  rcases hP with rfl | ⟨T, N, L, hch, -, hN, hp⟩
  · exact List.nil_prefix
  · rcases hP' with rfl | ⟨T', N', L', hch', -, hN', hp'⟩
    · rw [List.length_nil, Nat.le_zero, List.length_eq_zero_iff] at hlen
      exact hlen ▸ List.nil_prefix
    · have hPL : P <+: L.take N := prefix_of_le hp (List.take_prefix _ _) (by
        rw [hch.1.length_take]
        exact hN)
      have hPL' : P' <+: L'.take N' := prefix_of_le hp' (List.take_prefix _ _) (by
        rw [hch'.1.length_take]
        exact hN')
      rcases Nat.le_total N N' with hle | hle
      · exact prefix_of_le (hPL.trans (h.open_isPrefix hch.1 hch.toOpen hch'.1 hch'.toOpen hle))
          hPL' hlen
      · exact prefix_of_le hPL
          (hPL'.trans (h.open_isPrefix hch'.1 hch'.toOpen hch.1 hch.toOpen hle)) hlen

/-- Entries of committed segments at one index are equal. -/
theorem Inv.committed_getElem? {p : Proto S E} (h : p.Inv) {P P' : List E} {t t' : ℤ}
    (hP : p.Committed P t) (hP' : p.Committed P' t') {i : ℕ} {e e' : E} (he : P[i]? = some e)
    (he' : P'[i]? = some e') : e = e' := by
  have hi := (List.getElem?_eq_some_iff.1 he).1
  have hi' := (List.getElem?_eq_some_iff.1 he').1
  rcases Nat.le_total P.length P'.length with hle | hle
  · obtain ⟨X, rfl⟩ := h.committed_isPrefix hP hP' hle
    rw [List.getElem?_append_left hi, he] at he'
    exact Option.some.inj he'
  · obtain ⟨X, rfl⟩ := h.committed_isPrefix hP' hP hle
    rw [List.getElem?_append_left hi', he'] at he
    exact (Option.some.inj he).symm

end DistSys.Proto
