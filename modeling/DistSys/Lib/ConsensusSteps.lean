import DistSys.Lib.Consensus

/-!
# The steps of the protocol keep its invariant

* `raise` — a member moves to a larger term.
* `cast` — a member votes. It compares what the candidate shows with its own log, unless it is
  blind.
* `elect` — a candidate with a majority of votes becomes the leader of its term. A blind
  candidate never gets there (`not_blind_of_votes`).
* `append` — a leader adds an entry to its log. For the state this is the same as `elect`: a member
  leads a term with a log that extends what it had (`record`).
* `takeOver` — a member takes over a segment of the leader's log, acknowledging it or not.

The work is in `elect`: the log of the new leader carries everything open in earlier terms. A
voter that was blind proves nothing about the candidate, but it points to something chosen that
is longer (`evidence`), so the argument moves on to that, and it can do so only finitely often.
-/

namespace DistSys.Proto

variable {S E : Type*} [Fintype S] [DecidableEq S] [Termed E]

/-! ## Moving to a larger term -/

def raise (p : Proto S E) (s : S) (t : ℤ) : Proto S E :=
  { p with term := Function.update p.term s t }

omit [Fintype S] [Termed E] in
theorem le_raise {p : Proto S E} {s : S} {t : ℤ} (ht : p.term s ≤ t) (q : S) :
    p.term q ≤ (p.raise s t).term q := by
  by_cases hq : q = s
  · subst hq
    simpa [raise] using ht
  · simp [raise, hq]

omit [Fintype S] [Termed E] in
theorem Le.raise {p : Proto S E} {s : S} {t : ℤ} (ht : p.term s ≤ t) : p.Le (p.raise s t) where
  term := le_raise ht
  ballot _ _ _ h := h
  lead _ _ L h := ⟨L, h, List.prefix_rfl⟩
  acked _ _ := le_rfl

theorem Inv.raise {p : Proto S E} (h : p.Inv) {s : S} {t : ℤ} (ht : p.term s ≤ t) :
    (p.raise s t).Inv := by
  have hle := le_raise (p := p) ht
  have hopen : ∀ {T N}, (p.raise s t).Open T N → p.Open T N :=
    fun ho => ho.back hle fun _ => Or.inl le_rfl
  exact {
    log_term := fun q i hi hlen => (h.log_term q i hi hlen).trans (hle q)
    log_lead := h.log_lead
    lead_pos := h.lead_pos
    lead_term := h.lead_term
    lead_lead := h.lead_lead
    elected := h.elected
    lead_own := fun T c L hl => by
      obtain ⟨hT, hak, hown⟩ := h.lead_own T c L hl
      refine ⟨hT.trans (hle c), hak, fun heq => hown ?_⟩
      exact le_antisymm ((hle c).trans heq.le) hT
    ballot_term := fun q T x hb => (h.ballot_term q T x hb).trans (hle q)
    acked_le := fun q T ha => ⟨(h.acked_le q T ha).1.trans (hle q), (h.acked_le q T ha).2⟩
    kept := fun q T N L hs ho => h.kept q T N L hs (hopen ho)
    carried := fun T N L T' c' L' hs ho => h.carried T N L T' c' L' hs (hopen ho)
    evidence := fun q T' c' sh T N L hb hn hs ho =>
      h.evidence q T' c' sh T N L hb hn hs (hopen ho)
    blind_log := fun q hb => by
      obtain ⟨T₃, N₃, L₃, hch, hT, hlen⟩ := h.blind_log q hb
      exact ⟨T₃, N₃, L₃, hch, hT.trans (hle q), hlen⟩
    blind_acked := fun q hb T N L hs ho => h.blind_acked q hb T N L hs (hopen ho)
    bounded := h.bounded }

/-! ## Voting -/

/-- `s` votes for `c` in term `t`. -/
def cast (p : Proto S E) (s : S) (t : ℤ) (c : S) (sh : ℤ × ℕ) : Proto S E :=
  { p with ballot := fun q T => if q = s ∧ T = t then some (c, sh) else p.ballot q T }

/-- What is shown is at least as up to date as the log `L`. -/
def UpToDate (sh : ℤ × ℕ) (L : List E) : Prop :=
  lastTerm L < sh.1 ∨ sh.1 = lastTerm L ∧ L.length ≤ sh.2

omit [Fintype S] [Termed E] in
theorem Le.cast {p : Proto S E} {s : S} {t : ℤ} (hnone : p.ballot s t = none) (c : S)
    (sh : ℤ × ℕ) : p.Le (p.cast s t c sh) where
  term _ := le_rfl
  ballot q T x hb := by
    show (if q = s ∧ T = t then some (c, sh) else p.ballot q T) = some x
    rw [if_neg, hb]
    rintro ⟨rfl, rfl⟩
    rw [hnone] at hb
    cases hb
  lead _ _ L h := ⟨L, h, List.prefix_rfl⟩
  acked _ _ := le_rfl

omit [DecidableEq S] in
/-- A candidate as up to date as the voter shows everything open that the voter acknowledged. -/
theorem Inv.shows_of_upToDate {p : Proto S E} (h : p.Inv) {s : S} {sh : ℤ × ℕ}
    (hup : UpToDate sh (p.log s)) {T : ℤ} {N : ℕ} {L : List E} (hs : p.Slot T N L)
    (ho : p.Open T N) (ha : N ≤ p.acked s T) : Shows sh T N := by
  have hpre := h.kept s T N L hs ho ha
  have hlen : N ≤ (p.log s).length := hs.length_take ▸ hpre.length_le
  have hterm : termAt (p.log s) N = T := by
    rw [← termAt_of_isPrefix hpre hs.length_take.ge, termAt_take le_rfl]
    exact hs.2.2.2
  have hlast : T ≤ lastTerm (p.log s) := hterm ▸ h.le_lastTerm hlen
  rcases hup with hlt | ⟨heq, hle⟩
  · exact Or.inl (by omega)
  · rcases hlast.lt_or_eq with hlt | hT
    · exact Or.inl (by omega)
    · exact Or.inr ⟨by omega, hlen.trans hle⟩

theorem Inv.cast {p : Proto S E} (h : p.Inv) {s : S} {t : ℤ} (hs : p.term s = t)
    (hnone : p.ballot s t = none) (c : S) {sh : ℤ × ℕ}
    (hup : p.blind s ∨ UpToDate sh (p.log s)) : (p.cast s t c sh).Inv := by
  have hle := Le.cast hnone c sh
  exact {
    log_term := h.log_term
    log_lead := h.log_lead
    lead_pos := h.lead_pos
    lead_term := h.lead_term
    lead_lead := h.lead_lead
    elected := fun T c' L hl => by
      obtain ⟨Q, hQ, hall⟩ := h.elected T c' L hl
      refine ⟨Q, hQ, fun q hq => ?_⟩
      obtain ⟨sh', hsh⟩ := hall q hq
      exact ⟨sh', hle.ballot q T _ hsh⟩
    lead_own := h.lead_own
    ballot_term := fun q T x hb => by
      by_cases hq : q = s ∧ T = t
      · rw [hq.1, hq.2, ← hs]
        exact le_rfl
      · exact h.ballot_term q T x (by simpa only [Proto.cast, if_neg hq] using hb)
    acked_le := h.acked_le
    kept := h.kept
    carried := h.carried
    evidence := fun q T' c' sh' T N L hb hn hsl ho hT ha => by
      by_cases hq : q = s ∧ T' = t
      · obtain ⟨rfl, rfl⟩ := hq
        simp only [Proto.cast, and_self, if_true, Option.some.injEq, Prod.mk.injEq] at hb
        obtain ⟨-, rfl⟩ := hb
        rcases hup with hbl | hup
        · -- a blind voter points to its own log, which is chosen and longer
          obtain ⟨T₃, N₃, L₃, hch, hT₃, hlen, -⟩ := h.blind_log q hbl
          have hlt := h.blind_acked q hbl T N L hsl ho ha
          obtain ⟨c₃, hc₃⟩ := hch.1.1
          refine Or.inr ⟨T₃, N₃, L₃, hch, lt_of_le_of_ne (hs ▸ hT₃) ?_, by omega⟩
          rintro rfl
          rw [show p.lead T₃ = none from hn] at hc₃
          cases hc₃
        · exact Or.inl (h.shows_of_upToDate hup hsl ho ha)
      · exact h.evidence q T' c' sh' T N L (by simpa only [Proto.cast, if_neg hq] using hb) hn
          hsl ho hT ha
    blind_log := h.blind_log
    blind_acked := h.blind_acked
    bounded := h.bounded }

/-! ## Winning an election -/

/-- `c` becomes the leader of `t` with the log it has. -/
def elect (p : Proto S E) (c : S) (t : ℤ) : Proto S E :=
  { p with
    lead := Function.update p.lead t (some (c, p.log c))
    acked := fun q T => if q = c ∧ T = t then (p.log c).length else p.acked q T }

/-- The members of a majority voted in `t` for `c`, which showed `sh`. -/
def Won (p : Proto S E) (c : S) (t : ℤ) (sh : ℤ × ℕ) : Prop :=
  ∃ Q : Finset S, Majority Q ∧ ∀ q ∈ Q, p.ballot q t = some (c, sh)

/-- What is open in an earlier term lies within something open in an earlier term that the
winner's showing covers. -/
theorem Inv.exists_shown {p : Proto S E} (h : p.Inv) {c : S} {t : ℤ} {sh : ℤ × ℕ}
    (hw : p.Won c t sh) (hn : p.lead t = none) {T : ℤ} {N : ℕ} {L : List E}
    (hs : p.Slot T N L) (ho : p.Open T N) (hT : T < t) :
    ∃ T₃ N₃ L₃, p.Slot T₃ N₃ L₃ ∧ p.Open T₃ N₃ ∧ T₃ < t ∧ Shows sh T₃ N₃ ∧
      L.take N <+: L₃.take N₃ := by
  obtain ⟨B, hB⟩ := h.bounded
  obtain ⟨Q', hQ', hvotes⟩ := hw
  -- Induction on how far `N` is below the bound: each detour through a blind voter raises `N`.
  induction hk : B - N using Nat.strong_induction_on generalizing T N L with
  | _ k ih =>
    obtain ⟨Q, hQ, hall⟩ := ho
    obtain ⟨q, hq, hq'⟩ := hQ.exists_common hQ'
    have hTq := h.ballot_term q t _ (hvotes q hq')
    have ha : N ≤ p.acked q T := (hall q hq).resolve_right (by omega)
    have ho : p.Open T N := ⟨Q, hQ, hall⟩
    rcases h.evidence q t c sh T N L (hvotes q hq') hn hs ho hT ha with
      hsh | ⟨T₃, N₃, L₃, hch, hT₃, hN₃⟩
    · exact ⟨T, N, L, hs, ho, hT, hsh, List.prefix_rfl⟩
    · have hN₃B : N₃ ≤ B := by
        obtain ⟨-, Q₃, hQ₃, hall₃⟩ := hch
        obtain ⟨q₃, hq₃⟩ := hQ₃.nonempty
        exact (hall₃ q₃ hq₃).trans (hB q₃ T₃)
      obtain ⟨T₄, N₄, L₄, hs₄, ho₄, hT₄, hsh₄, hpre₄⟩ :=
        ih (B - N₃) (by omega) hch.1 hch.toOpen hT₃ rfl
      exact ⟨T₄, N₄, L₄, hs₄, ho₄, hT₄, hsh₄,
        (h.open_isPrefix hs ho hch.1 hch.toOpen hN₃.le).trans hpre₄⟩

/-- **A blind member does not win.** Its showing is below the last term of its own, chosen log. -/
theorem Inv.not_blind_of_votes {p : Proto S E} (h : p.Inv) {c : S} {t : ℤ} {sh : ℤ × ℕ}
    (hw : p.Won c t sh) (hn : p.lead t = none) (hc : p.term c = t)
    (hlt : sh.1 < lastTerm (p.log c)) : ¬ p.blind c := by
  intro hb
  obtain ⟨T₃, N₃, L₃, hch, hT₃, hlen, hpre⟩ := h.blind_log c hb
  have hT₃t : T₃ < t := by
    refine lt_of_le_of_ne (hc ▸ hT₃) ?_
    rintro rfl
    obtain ⟨c₃, hc₃⟩ := hch.1.1
    rw [hn] at hc₃
    cases hc₃
  obtain ⟨T₄, N₄, L₄, hs₄, -, -, hsh, hpre₄⟩ :=
    h.exists_shown hw hn hch.1 hch.toOpen hT₃t
  -- the last entry of `c` is an entry of `L₄`, so its term is at most `T₄`
  have hpre' : p.log c <+: L₃.take N₃ := prefix_of_le hpre (List.take_prefix _ _) (by
    rw [hch.1.length_take]
    exact hlen)
  have hpre₅ := (hpre'.trans hpre₄).trans (List.take_prefix N₄ L₄)
  obtain ⟨c₄, hc₄⟩ := hs₄.1
  have hlast : lastTerm (p.log c) = termAt L₄ (p.log c).length := termAt_of_isPrefix hpre₅ le_rfl
  have hle : lastTerm (p.log c) ≤ T₄ := by
    rw [hlast, ← hs₄.2.2.2]
    refine h.lead_ordered hc₄ ?_ hs₄.2.2.1
    have := (hpre'.trans hpre₄).length_le
    rwa [hs₄.length_take] at this
  rcases hsh with hsh | ⟨hsh, -⟩ <;> omega

/-- **The log of the winner carries everything open in earlier terms.** -/
theorem Inv.prefix_log_of_votes {p : Proto S E} (h : p.Inv) {c : S} {t : ℤ}
    (hw : p.Won c t (lastTerm (p.log c), (p.log c).length)) (hn : p.lead t = none)
    {T : ℤ} {N : ℕ} {L : List E} (hs : p.Slot T N L) (ho : p.Open T N) (hT : T < t) :
    L.take N <+: p.log c := by
  obtain ⟨T₃, N₃, L₃, hs₃, ho₃, hT₃, hsh, hpre⟩ := h.exists_shown hw hn hs ho hT
  refine hpre.trans ?_
  obtain ⟨c₃, hc₃⟩ := hs₃.1
  have hpos := h.lead_pos _ _ _ hc₃
  have hlen : 1 ≤ (p.log c).length := by
    by_contra hlt
    have h0 : lastTerm (p.log c) = -1 := by rw [lastTerm, show (p.log c).length = 0 by omega]; rfl
    rcases hsh with hsh | ⟨hsh, -⟩ <;> simp only [h0] at hsh <;> omega
  obtain ⟨c₄, L₄, hc₄, hpre₄⟩ := h.log_lead c _ hlen le_rfl
  rw [List.take_length] at hpre₄
  rcases hsh with hsh | ⟨hsh, hN⟩
  · -- the last entry is of a later term, whose leader carries `L₃.take N₃`
    have hcar := h.carried _ _ _ _ _ _ hs₃ ho₃ hsh hc₄
    refine prefix_of_le hcar hpre₄ ?_
    by_contra hlt
    have hshort := prefix_of_le hpre₄ hcar (by omega)
    have hle : termAt (p.log c) (p.log c).length ≤ T₃ := by
      rw [termAt_of_isPrefix (hshort.trans (List.take_prefix _ _)) le_rfl, ← hs₃.2.2.2]
      refine h.lead_ordered hc₃ ?_ hs₃.2.2.1
      have := hshort.length_le
      rwa [hs₃.length_take] at this
    exact absurd hsh (not_lt.2 hle)
  · -- the last entry is of the same term, and the log is at least as long
    have hlast : termAt (p.log c) (p.log c).length = T₃ := hsh
    rw [hlast] at hc₄
    obtain rfl := hs₃.log_eq hc₄
    refine prefix_of_le (List.take_prefix _ _) hpre₄ ?_
    rw [hs₃.length_take]
    exact hN

/-! ## Leading a term

Winning an election and adding an entry do the same to the state: `c` leads `t` with a log that
extends what it had. -/

/-- `c` leads `t` with the log `M`. -/
def record (p : Proto S E) (c : S) (t : ℤ) (M : List E) : Proto S E :=
  { p with
    lead := Function.update p.lead t (some (c, M))
    log := Function.update p.log c M
    acked := fun q T => if q = c ∧ T = t then M.length else p.acked q T }

/-- `c` may lead `t` with the log `M`: it was elected, `M` extends its log and whatever it has led
`t` with so far, and carries what is open in earlier terms. -/
structure Leads (p : Proto S E) (c : S) (t : ℤ) (M : List E) : Prop where
  pos : 0 < t
  term : p.term c = t
  not_blind : ¬ p.blind c
  elected : ∃ Q : Finset S, Majority Q ∧ ∀ q ∈ Q, ∃ sh, p.ballot q t = some (c, sh)
  log : p.log c <+: M
  lead : ∀ c' L, p.lead t = some (c', L) → c' = c ∧ L <+: M
  within : Within M t
  /-- Entries of earlier terms are backed by the leaders of those terms. -/
  backed : ∀ i, 1 ≤ i → i ≤ M.length → termAt M i ≠ t →
    ∃ c' L, p.lead (termAt M i) = some (c', L) ∧ M.take i <+: L
  carried : ∀ T N L, p.Slot T N L → p.Open T N → T < t → L.take N <+: M

section record

variable {p : Proto S E} {c : S} {t : ℤ} {M : List E}

omit [Fintype S] [Termed E] in
theorem record_lead_self : (p.record c t M).lead t = some (c, M) := Function.update_self t _ _

omit [Fintype S] [Termed E] in
theorem record_lead_of_ne {T : ℤ} (hT : T ≠ t) : (p.record c t M).lead T = p.lead T :=
  Function.update_of_ne hT _ _

omit [Fintype S] [Termed E] in
theorem record_lead_cases {T : ℤ} {c' : S} {L : List E}
    (h : (p.record c t M).lead T = some (c', L)) :
    (T = t ∧ c' = c ∧ L = M) ∨ (T ≠ t ∧ p.lead T = some (c', L)) := by
  by_cases hT : T = t
  · subst hT
    rw [record_lead_self, Option.some.injEq, Prod.mk.injEq] at h
    exact .inl ⟨rfl, h.1.symm, h.2.symm⟩
  · rw [record_lead_of_ne hT] at h
    exact .inr ⟨hT, h⟩

omit [Fintype S] [Termed E] in
theorem record_log_self : (p.record c t M).log c = M := Function.update_self c _ _

omit [Fintype S] [Termed E] in
theorem record_log_of_ne {q : S} (hq : q ≠ c) : (p.record c t M).log q = p.log q :=
  Function.update_of_ne hq _ _

omit [Fintype S] [Termed E] in
theorem record_acked_self : (p.record c t M).acked c t = M.length := if_pos ⟨rfl, rfl⟩

omit [Fintype S] [Termed E] in
theorem record_acked_of_ne {q : S} {T : ℤ} (h : ¬ (q = c ∧ T = t)) :
    (p.record c t M).acked q T = p.acked q T := if_neg h

omit [DecidableEq S] in
theorem Leads.acked_le (hm : p.Leads c t M) (h : p.Inv) (q : S) : p.acked q t ≤ M.length := by
  rcases hl : p.lead t with _ | ⟨c', L⟩
  · rw [h.acked_eq_zero hl q]
    exact Nat.zero_le _
  · exact (h.acked_le_length hl q).trans (hm.lead c' L hl).2.length_le

theorem Le.record (h : p.Inv) (hm : p.Leads c t M) : p.Le (p.record c t M) where
  term _ := le_rfl
  ballot _ _ _ hb := hb
  lead T c' L hl := by
    by_cases hT : T = t
    · subst hT
      obtain ⟨rfl, hp⟩ := hm.lead c' L hl
      exact ⟨M, record_lead_self, hp⟩
    · exact ⟨L, (record_lead_of_ne hT).trans hl, List.prefix_rfl⟩
  acked q T := by
    by_cases hq : q = c ∧ T = t
    · rw [hq.1, hq.2, record_acked_self]
      exact hm.acked_le h c
    · exact (record_acked_of_ne hq).ge

theorem Leads.log_isPrefix (hm : p.Leads c t M) (q : S) : p.log q <+: (p.record c t M).log q := by
  by_cases hq : q = c
  · subst hq
    rw [record_log_self]
    exact hm.log
  · exact (record_log_of_ne hq).symm ▸ List.prefix_rfl

theorem Leads.backed_record (hm : p.Leads c t M) (h : p.Inv) : (p.record c t M).Backed M := by
  intro i hi hlen
  by_cases ht : termAt M i = t
  · exact ⟨c, M, ht.symm ▸ record_lead_self, List.take_prefix i M⟩
  · obtain ⟨c', L, hl, hp⟩ := hm.backed i hi hlen ht
    obtain ⟨L', hl', hp'⟩ := (Le.record h hm).lead _ _ _ hl
    exact ⟨c', L', hl', hp.trans hp'⟩

/-- A slot of the new state is beyond what anyone had acknowledged, or a slot of the old state. -/
theorem Leads.slot_of_record (hm : p.Leads c t M) (h : p.Inv) {T : ℤ} {N : ℕ} {L : List E}
    (hs : (p.record c t M).Slot T N L) :
    (T = t ∧ L = M ∧ ∀ q, p.acked q t < N) ∨ ∃ L₀, p.Slot T N L₀ ∧ L.take N = L₀.take N := by
  obtain ⟨⟨c', hc'⟩, h1, hN, hT⟩ := hs
  rcases record_lead_cases hc' with ⟨rfl, -, rfl⟩ | ⟨-, hl⟩
  · rcases hl : p.lead T with _ | ⟨c₀, L₀⟩
    · exact .inl ⟨rfl, rfl, fun q => (h.acked_eq_zero hl q).trans_lt h1⟩
    · have hp := (hm.lead c₀ L₀ hl).2
      by_cases hN₀ : N ≤ L₀.length
      · refine .inr ⟨L₀, ⟨⟨c₀, hl⟩, h1, hN₀, ?_⟩, (take_eq_take_of_isPrefix hp hN₀).symm⟩
        rw [termAt_of_isPrefix hp hN₀, hT]
      · exact .inl ⟨rfl, rfl, fun q => (h.acked_le_length hl q).trans_lt (by omega)⟩
  · exact .inr ⟨L, ⟨⟨c', hl⟩, h1, hN, hT⟩, rfl⟩

theorem Leads.open_of_record (hm : p.Leads c t M) {T : ℤ} {N : ℕ}
    (ho : (p.record c t M).Open T N) : p.Open T N := by
  refine Open.back ?_ ?_ ho
  · exact fun _ => le_rfl
  · intro q
    by_cases hq : q = c ∧ T = t
    · exact .inr (by rw [hq.1, hq.2, hm.term])
    · exact .inl (record_acked_of_ne hq).le

omit [Fintype S] [Termed E] in
/-- Beyond what anyone had acknowledged, only `c` has acknowledged anything. -/
theorem eq_of_acked_record {N : ℕ} (hnew : ∀ q, p.acked q t < N) {q : S}
    (ha : N ≤ (p.record c t M).acked q t) : q = c := by
  by_contra hq
  rw [record_acked_of_ne (fun h => hq h.1)] at ha
  exact absurd (hnew q) (not_lt.2 ha)

theorem Leads.kept_record (hm : p.Leads c t M) (h : p.Inv) {q : S} {T : ℤ} {N : ℕ} {L : List E}
    (hs : (p.record c t M).Slot T N L) (ho : (p.record c t M).Open T N)
    (ha : N ≤ (p.record c t M).acked q T) : L.take N <+: (p.record c t M).log q := by
  rcases hm.slot_of_record h hs with ⟨rfl, rfl, hnew⟩ | ⟨L₀, hs₀, hL⟩
  · obtain rfl := eq_of_acked_record hnew ha
    rw [record_log_self]
    exact List.take_prefix N L
  · rw [hL]
    by_cases hq : q = c ∧ T = t
    · obtain ⟨rfl, rfl⟩ := hq
      obtain ⟨c₀, hl₀⟩ := hs₀.1
      rw [record_log_self]
      exact (List.take_prefix N L₀).trans (hm.lead c₀ L₀ hl₀).2
    · rw [record_acked_of_ne hq] at ha
      exact (h.kept q T N L₀ hs₀ (hm.open_of_record ho) ha).trans (hm.log_isPrefix q)

theorem Leads.carried_record (hm : p.Leads c t M) (h : p.Inv) {T T' : ℤ} {N : ℕ} {L L' : List E}
    {c' : S} (hs : (p.record c t M).Slot T N L) (ho : (p.record c t M).Open T N) (hlt : T < T')
    (hl : (p.record c t M).lead T' = some (c', L')) : L.take N <+: L' := by
  rcases hm.slot_of_record h hs with ⟨rfl, rfl, hnew⟩ | ⟨L₀, hs₀, hL⟩
  · -- a later leader was elected by members that can no longer acknowledge the new entries
    exfalso
    rcases record_lead_cases hl with ⟨rfl, -⟩ | ⟨-, hl⟩
    · exact lt_irrefl _ hlt
    obtain ⟨Q', hQ', hall'⟩ := h.elected T' c' L' hl
    obtain ⟨Q, hQ, hall⟩ := ho
    obtain ⟨q, hq, hq'⟩ := hQ.exists_common hQ'
    obtain ⟨sh, hsh⟩ := hall' q hq'
    have hTq : T' ≤ p.term q := h.ballot_term q T' _ hsh
    have hqT : ¬ p.term q ≤ T := by omega
    obtain rfl := eq_of_acked_record hnew ((hall q hq).resolve_right hqT)
    exact hqT hm.term.le
  · rw [hL]
    rcases record_lead_cases hl with ⟨rfl, -, rfl⟩ | ⟨-, hl⟩
    · exact hm.carried T N L₀ hs₀ (hm.open_of_record ho) hlt
    · exact h.carried T N L₀ T' c' L' hs₀ (hm.open_of_record ho) hlt hl

theorem Leads.evidence_record (hm : p.Leads c t M) (h : p.Inv) {q c' : S} {T T' : ℤ} {sh : ℤ × ℕ}
    {N : ℕ} {L : List E} (hb : p.ballot q T' = some (c', sh))
    (hn : (p.record c t M).lead T' = none) (hs : (p.record c t M).Slot T N L)
    (ho : (p.record c t M).Open T N) (hlt : T < T') (ha : N ≤ (p.record c t M).acked q T) :
    Shows sh T N ∨ ∃ T₃ N₃ L₃, (p.record c t M).Chosen T₃ N₃ L₃ ∧ T₃ < T' ∧ N < N₃ := by
  have hT' : T' ≠ t := by
    rintro rfl
    rw [record_lead_self] at hn
    cases hn
  rw [record_lead_of_ne hT'] at hn
  -- `c` is still in term `t`, so it has not voted in a later one
  have hqT : ¬ (q = c ∧ T = t) := by
    rintro ⟨rfl, rfl⟩
    exact absurd ((h.ballot_term q T' _ hb).trans hm.term.le) (not_le.2 hlt)
  rcases hm.slot_of_record h hs with ⟨rfl, rfl, hnew⟩ | ⟨L₀, hs₀, -⟩
  · exact absurd ⟨eq_of_acked_record hnew ha, rfl⟩ hqT
  · rw [record_acked_of_ne hqT] at ha
    exact (Le.record h hm).evidence
      (h.evidence q T' c' sh T N L₀ hb hn hs₀ (hm.open_of_record ho) hlt ha)

theorem Leads.own_record (hm : p.Leads c t M) (h : p.Inv) {T : ℤ} {c' : S} {L : List E}
    (hl : (p.record c t M).lead T = some (c', L)) :
    T ≤ p.term c' ∧ (p.record c t M).acked c' T = L.length ∧
      (p.term c' = T → (p.record c t M).log c' = L ∧ ¬ p.blind c') := by
  rcases record_lead_cases hl with ⟨rfl, rfl, rfl⟩ | ⟨hT, hl⟩
  · exact ⟨hm.term.ge, record_acked_self, fun _ => ⟨record_log_self, hm.not_blind⟩⟩
  · obtain ⟨hle, hacked, hown⟩ := h.lead_own T c' L hl
    refine ⟨hle, (record_acked_of_ne fun hq => hT hq.2).trans hacked, fun heq => ?_⟩
    have hne : c' ≠ c := by
      rintro rfl
      exact hT (heq.symm.trans hm.term)
    rw [record_log_of_ne hne]
    exact hown heq

theorem Leads.acked_record (hm : p.Leads c t M) (h : p.Inv) {q : S} {T : ℤ}
    (ha : 0 < (p.record c t M).acked q T) :
    T ≤ p.term q ∧ ∃ c' L, (p.record c t M).lead T = some (c', L) ∧
      (p.record c t M).acked q T ≤ L.length := by
  by_cases hq : q = c ∧ T = t
  · obtain ⟨rfl, rfl⟩ := hq
    exact ⟨hm.term.ge, q, M, record_lead_self, record_acked_self.le⟩
  · rw [record_acked_of_ne hq] at ha ⊢
    obtain ⟨hle, c', L, hl, hlen⟩ := h.acked_le q T ha
    obtain ⟨L', hl', hp⟩ := (Le.record h hm).lead _ _ _ hl
    exact ⟨hle, c', L', hl', hlen.trans hp.length_le⟩

theorem Leads.blind_acked_record (hm : p.Leads c t M) (h : p.Inv) {q : S} (hb : p.blind q) {T : ℤ}
    {N : ℕ} {L : List E} (hs : (p.record c t M).Slot T N L) (ho : (p.record c t M).Open T N)
    (ha : N ≤ (p.record c t M).acked q T) : N < ((p.record c t M).log q).length := by
  have hne : q ≠ c := by
    rintro rfl
    exact hm.not_blind hb
  rw [record_log_of_ne hne]
  rcases hm.slot_of_record h hs with ⟨rfl, rfl, hnew⟩ | ⟨L₀, hs₀, -⟩
  · exact absurd (eq_of_acked_record hnew ha) hne
  · rw [record_acked_of_ne fun hq => hne hq.1] at ha
    exact h.blind_acked q hb T N L₀ hs₀ (hm.open_of_record ho) ha

/-- Leading a term with a longer log keeps the invariant. -/
theorem Inv.record (h : p.Inv) (hm : p.Leads c t M) : (p.record c t M).Inv where
  log_term q := by
    by_cases hq : q = c
    · subst hq
      rw [record_log_self]
      exact hm.term.symm ▸ hm.within
    · rw [record_log_of_ne hq]
      exact h.log_term q
  log_lead q := by
    by_cases hq : q = c
    · subst hq
      rw [record_log_self]
      exact hm.backed_record h
    · rw [record_log_of_ne hq]
      exact Backed.mono (Le.record h hm) (h.log_lead q)
  lead_pos T c' L hl := by
    rcases record_lead_cases hl with ⟨rfl, -⟩ | ⟨-, hl⟩
    · exact hm.pos
    · exact h.lead_pos T c' L hl
  lead_term T c' L hl := by
    rcases record_lead_cases hl with ⟨rfl, -, rfl⟩ | ⟨-, hl⟩
    · exact hm.within
    · exact h.lead_term T c' L hl
  lead_lead T c' L hl := by
    rcases record_lead_cases hl with ⟨rfl, -, rfl⟩ | ⟨-, hl⟩
    · exact hm.backed_record h
    · exact Backed.mono (Le.record h hm) (h.lead_lead T c' L hl)
  elected T c' L hl := by
    rcases record_lead_cases hl with ⟨rfl, rfl, -⟩ | ⟨-, hl⟩
    · exact hm.elected
    · exact h.elected T c' L hl
  lead_own _ _ _ hl := hm.own_record h hl
  ballot_term := h.ballot_term
  acked_le _ _ ha := hm.acked_record h ha
  kept _ _ _ _ hs ho ha := hm.kept_record h hs ho ha
  carried _ _ _ _ _ _ hs ho hlt hl := hm.carried_record h hs ho hlt hl
  evidence _ _ _ _ _ _ _ hb hn hs ho hlt ha := hm.evidence_record h hb hn hs ho hlt ha
  blind_log q hb := by
    have hne : q ≠ c := by
      rintro rfl
      exact hm.not_blind hb
    rw [record_log_of_ne hne]
    exact (Le.record h hm).chosen_log le_rfl (h.blind_log q hb)
  blind_acked _ hb _ _ _ hs ho ha := hm.blind_acked_record h hb hs ho ha
  bounded := by
    obtain ⟨B, hB⟩ := h.bounded
    refine ⟨max B M.length, fun q T => ?_⟩
    by_cases hq : q = c ∧ T = t
    · rw [hq.1, hq.2, record_acked_self]
      exact le_max_right _ _
    · rw [record_acked_of_ne hq]
      exact (hB q T).trans (le_max_left _ _)

end record

/-! ### The winner of an election -/

omit [Fintype S] [Termed E] in
theorem elect_eq_record (p : Proto S E) (c : S) (t : ℤ) : p.elect c t = p.record c t (p.log c) := by
  rw [elect, record, Function.update_eq_self]

/-- The winner of an election leads its term with the log it has. -/
theorem Inv.leads_of_won {p : Proto S E} (h : p.Inv) {c : S} {t : ℤ} (ht : 0 < t)
    (hc : p.term c = t) (hb : ¬ p.blind c) (hn : p.lead t = none)
    (hw : p.Won c t (lastTerm (p.log c), (p.log c).length)) : p.Leads c t (p.log c) where
  pos := ht
  term := hc
  not_blind := hb
  elected := by
    obtain ⟨Q, hQ, hall⟩ := hw
    exact ⟨Q, hQ, fun q hq => ⟨_, hall q hq⟩⟩
  log := List.prefix_rfl
  lead c' L hl := by
    rw [hn] at hl
    cases hl
  within := hc ▸ h.log_term c
  backed i hi hlen _ := h.log_lead c i hi hlen
  carried _ _ _ hs ho hT := h.prefix_log_of_votes hw hn hs ho hT

theorem Le.elect {p : Proto S E} (h : p.Inv) {c : S} {t : ℤ} (hm : p.Leads c t (p.log c)) :
    p.Le (p.elect c t) := by
  rw [elect_eq_record]
  exact Le.record h hm

theorem Inv.elect {p : Proto S E} (h : p.Inv) {c : S} {t : ℤ} (hm : p.Leads c t (p.log c)) :
    (p.elect c t).Inv := by
  rw [elect_eq_record]
  exact h.record hm

/-! ### Adding an entry -/

/-- The leader `c` of `t` adds `e` to its log `L`. -/
def append (p : Proto S E) (c : S) (t : ℤ) (L : List E) (e : E) : Proto S E :=
  { p with
    lead := Function.update p.lead t (some (c, L ++ [e]))
    log := Function.update p.log c (L ++ [e])
    acked := fun q T => if q = c ∧ T = t then L.length + 1 else p.acked q T }

omit [Fintype S] [Termed E] in
theorem append_eq_record (p : Proto S E) (c : S) (t : ℤ) (L : List E) (e : E) :
    p.append c t L e = p.record c t (L ++ [e]) := by
  rw [append, record, List.length_append, List.length_singleton]

omit [DecidableEq S] in
/-- A leader still in its term leads it with one more entry of that term. -/
theorem Inv.leads_concat {p : Proto S E} (h : p.Inv) {c : S} {t : ℤ} {L : List E}
    (hl : p.lead t = some (c, L)) (hc : p.term c = t) {e : E} (he : Termed.term e = t) :
    p.Leads c t (L ++ [e]) where
  pos := h.lead_pos t c L hl
  term := hc
  not_blind := ((h.lead_own t c L hl).2.2 hc).2
  elected := h.elected t c L hl
  log := ((h.lead_own t c L hl).2.2 hc).1 ▸ List.prefix_append L [e]
  lead c' L' hl' := by
    rw [hl, Option.some.injEq, Prod.mk.injEq] at hl'
    obtain ⟨rfl, rfl⟩ := hl'
    exact ⟨rfl, List.prefix_append L [e]⟩
  within := Within.concat (h.lead_term t c L hl) he.le
  backed i hi hlen hne := by
    rcases le_length_concat hlen with hle | rfl
    · rw [← termAt_of_isPrefix (List.prefix_append L [e]) hle, List.take_append_of_le_length hle]
      exact h.lead_lead t c L hl i hi hle
    · rw [termAt_append_last] at hne
      exact absurd he hne
  carried T N M hs ho hT := (h.carried T N M t c L hs ho hT hl).trans (List.prefix_append L [e])

theorem Le.append {p : Proto S E} (h : p.Inv) {c : S} {t : ℤ} {L : List E} {e : E}
    (hm : p.Leads c t (L ++ [e])) : p.Le (p.append c t L e) := by
  rw [append_eq_record]
  exact Le.record h hm

theorem Inv.append {p : Proto S E} (h : p.Inv) {c : S} {t : ℤ} {L : List E} {e : E}
    (hm : p.Leads c t (L ++ [e])) : (p.append c t L e).Inv := by
  rw [append_eq_record]
  exact h.record hm

/-! ## Taking over a segment of the leader's log -/

/-- `s` takes over the segment `P` of the log of the leader of `t`, acknowledges its first `k`
entries, and is blind afterwards if `b`. -/
noncomputable def takeOver (p : Proto S E) (s : S) (t : ℤ) (P : List E) (k : ℕ) (b : Prop) :
    Proto S E :=
  { p with
    log := Function.update p.log s (adopt (p.log s) P)
    acked := fun q T => if q = s ∧ T = t then max (p.acked s t) k else p.acked q T
    blind := Function.update p.blind s b }

section takeOver

variable {p : Proto S E} {s c : S} {t : ℤ} {L P : List E} {m k : ℕ} {b : Prop}

omit [Fintype S] [Termed E] in
theorem takeOver_log_self : (p.takeOver s t P k b).log s = adopt (p.log s) P :=
  Function.update_self s _ _

omit [Fintype S] [Termed E] in
theorem takeOver_log_of_ne {q : S} (hq : q ≠ s) : (p.takeOver s t P k b).log q = p.log q :=
  Function.update_of_ne hq _ _

omit [Fintype S] [Termed E] in
theorem takeOver_acked_self : (p.takeOver s t P k b).acked s t = max (p.acked s t) k :=
  if_pos ⟨rfl, rfl⟩

omit [Fintype S] [Termed E] in
theorem takeOver_acked_of_ne {q : S} {T : ℤ} (h : ¬ (q = s ∧ T = t)) :
    (p.takeOver s t P k b).acked q T = p.acked q T := if_neg h

omit [Fintype S] [Termed E] in
theorem takeOver_blind_self : (p.takeOver s t P k b).blind s = b := Function.update_self s _ _

omit [Fintype S] [Termed E] in
theorem takeOver_blind_of_ne {q : S} (hq : q ≠ s) : (p.takeOver s t P k b).blind q = p.blind q :=
  Function.update_of_ne hq _ _

omit [Fintype S] [Termed E] in
theorem Le.takeOver (p : Proto S E) (s : S) (t : ℤ) (P : List E) (k : ℕ) (b : Prop) :
    p.Le (p.takeOver s t P k b) where
  term _ := le_rfl
  ballot _ _ _ h := h
  lead _ _ L h := ⟨L, h, List.prefix_rfl⟩
  acked q T := by
    by_cases hq : q = s ∧ T = t
    · rw [hq.1, hq.2, takeOver_acked_self]
      exact le_max_left _ _
    · exact (takeOver_acked_of_ne hq).ge

omit [Termed E] in
theorem Open.of_takeOver (hs : p.term s = t) {T : ℤ} {N : ℕ}
    (ho : (p.takeOver s t P k b).Open T N) : p.Open T N := by
  refine Open.back ?_ ?_ ho
  · exact fun _ => le_rfl
  · intro q
    by_cases hq : q = s ∧ T = t
    · exact .inr (by rw [hq.1, hq.2, hs])
    · exact .inl (takeOver_acked_of_ne hq).le

omit [DecidableEq S] in
/-- What a member acknowledged and is still open is shared by its log and the leader's log. -/
theorem Inv.open_acked_isPrefix (h : p.Inv) (hl : p.lead t = some (c, L)) (hs : p.term s = t)
    {T : ℤ} {N : ℕ} {M : List E} (hsl : p.Slot T N M) (ho : p.Open T N) (ha : N ≤ p.acked s T) :
    M.take N <+: p.log s ∧ M.take N <+: L := by
  refine ⟨h.kept s T N M hsl ho ha, ?_⟩
  have hTt : T ≤ t := hs ▸ (h.acked_le s T (lt_of_lt_of_le hsl.2.1 ha)).1
  rcases hTt.lt_or_eq with hlt | rfl
  · exact h.carried T N M t c L hsl ho hlt hl
  · obtain rfl := hsl.log_eq hl
    exact List.take_prefix _ _

omit [DecidableEq S] in
/-- A segment of the leader's log that a member lacks is longer than anything open that the member
acknowledged. -/
theorem Inv.lt_of_not_isPrefix (h : p.Inv) (hl : p.lead t = some (c, L)) (hs : p.term s = t)
    (hm : m ≤ L.length) (hp : ¬ L.take m <+: p.log s) {T : ℤ} {N : ℕ} {M : List E}
    (hsl : p.Slot T N M) (ho : p.Open T N) (ha : N ≤ p.acked s T) : N < m := by
  obtain ⟨hlog, hlead⟩ := h.open_acked_isPrefix hl hs hsl ho ha
  by_contra hge
  refine hp ((prefix_of_le (List.take_prefix m L) hlead ?_).trans hlog)
  rw [hsl.length_take, List.length_take_of_le hm]
  omega

/-- What is open and acknowledged after taking over a segment is in the log. -/
theorem Inv.kept_takeOver (h : p.Inv) (hl : p.lead t = some (c, L)) (hs : p.term s = t)
    (hk : k ≤ m) {q : S} {T : ℤ} {N : ℕ} {M : List E} (hsl : p.Slot T N M) (ho : p.Open T N)
    (ha : N ≤ (p.takeOver s t (L.take m) k b).acked q T) :
    M.take N <+: (p.takeOver s t (L.take m) k b).log q := by
  by_cases hq : q = s
  · subst hq
    rw [takeOver_log_self]
    by_cases hold : N ≤ p.acked q T
    · obtain ⟨hlog, hlead⟩ := h.open_acked_isPrefix hl hs hsl ho hold
      exact isPrefix_adopt_of_isPrefix hlog hlead
    · -- acknowledged just now
      have hT : T = t := by
        by_contra hT
        rw [takeOver_acked_of_ne fun hq => hT hq.2] at ha
        exact hold ha
      subst hT
      rw [takeOver_acked_self] at ha
      obtain rfl := hsl.log_eq hl
      exact (List.take_prefix_take_left (by omega : N ≤ m)).trans (isPrefix_adopt _ _)
  · rw [takeOver_log_of_ne hq]
    rw [takeOver_acked_of_ne fun hq' => hq hq'.1] at ha
    exact h.kept q T N M hsl ho ha

theorem Inv.own_takeOver (h : p.Inv) (hl : p.lead t = some (c, L)) (hsc : s ≠ c)
    (hs : p.term s = t) {T : ℤ} {c' : S} {L' : List E} (hl' : p.lead T = some (c', L')) :
    T ≤ p.term c' ∧ (p.takeOver s t P k b).acked c' T = L'.length ∧
      (p.term c' = T → (p.takeOver s t P k b).log c' = L' ∧ ¬ (p.takeOver s t P k b).blind c') := by
  obtain ⟨hle, hacked, hown⟩ := h.lead_own T c' L' hl'
  by_cases hc' : c' = s
  · subst hc'
    have hT : T ≠ t := by
      rintro rfl
      rw [hl', Option.some.injEq, Prod.mk.injEq] at hl
      exact hsc hl.1
    refine ⟨hle, (takeOver_acked_of_ne fun hq => hT hq.2).trans hacked, fun heq => ?_⟩
    exact absurd (heq.symm.trans hs) hT
  · refine ⟨hle, (takeOver_acked_of_ne fun hq => hc' hq.1).trans hacked, fun heq => ?_⟩
    rw [takeOver_log_of_ne hc', takeOver_blind_of_ne hc']
    exact hown heq

theorem Inv.acked_takeOver_le (h : p.Inv) (hl : p.lead t = some (c, L)) (hk : k ≤ L.length) :
    (p.takeOver s t P k b).acked s t ≤ L.length := by
  rw [takeOver_acked_self]
  exact max_le (h.acked_le_length hl s) hk

/-- Taking over a segment of the leader's log keeps the invariant. A member may become blind when
the segment is new to it, is chosen, and nothing of it is acknowledged. -/
theorem Inv.takeOver (h : p.Inv) (hl : p.lead t = some (c, L)) (hsc : s ≠ c) (hs : p.term s = t)
    (hm : m ≤ L.length) (hk : k ≤ m)
    (hb : b → k = 0 ∧ ¬ L.take m <+: p.log s ∧
      ∃ T₃ N₃ L₃, p.Chosen T₃ N₃ L₃ ∧ T₃ ≤ t ∧ m ≤ N₃ ∧ L.take m <+: L₃) :
    (p.takeOver s t (L.take m) k b).Inv where
  log_term q := by
    by_cases hq : q = s
    · subst hq
      rw [takeOver_log_self]
      rcases adopt_cases (p.log q) (L.take m) with hA | hA <;> rw [hA]
      · exact h.log_term q
      · exact Within.of_isPrefix (hs.symm ▸ h.lead_term t c L hl) (List.take_prefix m L)
    · rw [takeOver_log_of_ne hq]
      exact h.log_term q
  log_lead q := by
    by_cases hq : q = s
    · subst hq
      rw [takeOver_log_self]
      rcases adopt_cases (p.log q) (L.take m) with hA | hA <;> rw [hA]
      · exact h.log_lead q
      · exact Backed.of_isPrefix (h.lead_lead t c L hl) (List.take_prefix m L)
    · rw [takeOver_log_of_ne hq]
      exact h.log_lead q
  lead_pos := h.lead_pos
  lead_term := h.lead_term
  lead_lead := h.lead_lead
  elected := h.elected
  lead_own _ _ _ hl' := h.own_takeOver hl hsc hs hl'
  ballot_term := h.ballot_term
  acked_le q T ha := by
    by_cases hq : q = s ∧ T = t
    · obtain ⟨rfl, rfl⟩ := hq
      exact ⟨hs.ge, c, L, hl, h.acked_takeOver_le hl (hk.trans hm)⟩
    · rw [takeOver_acked_of_ne hq] at ha ⊢
      exact h.acked_le q T ha
  kept _ _ _ _ hsl ho ha := h.kept_takeOver hl hs hk hsl (ho.of_takeOver hs) ha
  carried T N M T' c' L' hsl ho := h.carried T N M T' c' L' hsl (ho.of_takeOver hs)
  evidence q T' c' sh T N M hbal hn hsl ho hlt ha := by
    -- `s` is still in term `t`, so it has not voted in a later one
    have hqT : ¬ (q = s ∧ T = t) := by
      rintro ⟨rfl, rfl⟩
      exact absurd ((h.ballot_term q T' _ hbal).trans hs.le) (not_le.2 hlt)
    rw [takeOver_acked_of_ne hqT] at ha
    exact (Le.takeOver p s t (L.take m) k b).evidence
      (h.evidence q T' c' sh T N M hbal hn hsl (ho.of_takeOver hs) hlt ha)
  blind_log q hbl := by
    have hle := Le.takeOver p s t (L.take m) k b
    by_cases hq : q = s
    · subst hq
      rw [takeOver_blind_self] at hbl
      obtain ⟨-, hp, hch⟩ := hb hbl
      rw [takeOver_log_self, adopt_of_not_isPrefix hp]
      refine hle.chosen_log hs.ge ?_
      rwa [List.length_take_of_le hm]
    · rw [takeOver_blind_of_ne hq] at hbl
      rw [takeOver_log_of_ne hq]
      exact hle.chosen_log le_rfl (h.blind_log q hbl)
  blind_acked q hbl T N M hsl ho ha := by
    by_cases hq : q = s
    · subst hq
      rw [takeOver_blind_self] at hbl
      obtain ⟨rfl, hp, -⟩ := hb hbl
      have ha' : N ≤ p.acked q T := by
        by_cases hT : q = q ∧ T = t
        · rw [hT.2, takeOver_acked_self, Nat.max_zero] at ha
          exact hT.2 ▸ ha
        · rwa [takeOver_acked_of_ne hT] at ha
      rw [takeOver_log_self, adopt_of_not_isPrefix hp, List.length_take_of_le hm]
      exact h.lt_of_not_isPrefix hl hs hm hp hsl (ho.of_takeOver hs) ha'
    · rw [takeOver_blind_of_ne hq] at hbl
      rw [takeOver_acked_of_ne fun hq' => hq hq'.1] at ha
      rw [takeOver_log_of_ne hq]
      exact h.blind_acked q hbl T N M hsl (ho.of_takeOver hs) ha
  bounded := by
    obtain ⟨B, hB⟩ := h.bounded
    refine ⟨max B L.length, fun q T => ?_⟩
    by_cases hq : q = s ∧ T = t
    · rw [hq.1, hq.2]
      exact (h.acked_takeOver_le hl (hk.trans hm)).trans (le_max_right _ _)
    · rw [takeOver_acked_of_ne hq]
      exact (hB q T).trans (le_max_left _ _)

end takeOver

end DistSys.Proto
