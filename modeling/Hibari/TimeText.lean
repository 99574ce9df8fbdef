import Hibari.Message

/-!
# Times compared as text

The API writes a time down to the second in a fixed width and then as many
digits of the fraction as it takes. Code that orders such times by comparing
the text takes it that the order of the text is the order of the times. It is,
except where one fraction continues the other: the text that stops first has
its `Z` where the other still has a digit – or its point – and the comparison
puts letters after both. The shorter, earlier time is then the greater text
(`Timestamp.text_lt_of_continues`); in every other case the orders agree
(`Timestamp.text_lt_iff`).
-/

namespace Hibari

open List

/-- The digits of a fraction, as the part of a second that they stand for. -/
def fractionValue : List (Fin 10) → ℚ
  | [] => 0
  | d :: ds => ((d.val : ℚ) + fractionValue ds) / 10

theorem fractionValue_nonneg (ds : List (Fin 10)) : 0 ≤ fractionValue ds := by
  induction ds with
  | nil => exact le_rfl
  | cons d ds =>
    show 0 ≤ ((d.val : ℚ) + fractionValue ds) / 10
    positivity

theorem fractionValue_lt_one (ds : List (Fin 10)) : fractionValue ds < 1 := by
  induction ds with
  | nil => exact one_pos
  | cons d ds =>
    show ((d.val : ℚ) + fractionValue ds) / 10 < 1
    have hd : (d.val : ℚ) ≤ 9 := by exact_mod_cast Nat.le_of_lt_succ d.isLt
    linarith

/-- A fraction without a trailing zero is not nothing. -/
theorem fractionValue_pos {ds : List (Fin 10)} (hne : ds ≠ []) (htrim : ds.getLast? ≠ some 0) :
    0 < fractionValue ds := by
  induction ds with
  | nil => exact absurd rfl hne
  | cons d ds ih =>
    show 0 < ((d.val : ℚ) + fractionValue ds) / 10
    by_cases hds : ds = []
    · subst hds
      have hd : d ≠ 0 := fun h => htrim (by rw [h]; rfl)
      have hpos : (0 : ℚ) < d.val := by exact_mod_cast Fin.pos_iff_ne_zero.mpr hd
      have := fractionValue_nonneg []
      positivity
    · have hrest : ds.getLast? ≠ some 0 := by
        rwa [getLast?_cons_of_ne_nil hds] at htrim
      have := ih hds hrest
      positivity

/-- The digits of a fraction and the closing `Z`, by their place in the order
of the comparison: the point first, then the digits, then letters. -/
def fractionText (ds : List (Fin 10)) : List ℕ := ds.map (fun d => d.val + 1) ++ [11]

namespace Timestamp

/-- The text of a time, in the order of the comparison: the second, which is
written in a fixed width; then the point and the digits, if any, and the
`Z`. -/
def text (t : Timestamp) : List ℕ :=
  t.second :: if t.fraction = [] then [11] else 0 :: fractionText t.fraction

/-- The time that is meant. -/
def seconds (t : Timestamp) : ℚ := t.second + fractionValue t.fraction

/-- Two times of one second, the fraction of one continuing that of the
other. -/
def Continues (s t : Timestamp) : Prop :=
  s.second = t.second ∧ s.fraction ≠ t.fraction
    ∧ (s.fraction <+: t.fraction ∨ t.fraction <+: s.fraction)

instance (s t : Timestamp) : Decidable (Continues s t) := by
  unfold Continues
  infer_instance

theorem Continues.symm {s t : Timestamp} (h : Continues s t) : Continues t s :=
  ⟨h.1.symm, h.2.1.symm, h.2.2.symm⟩

end Timestamp

variable {as bs : List (Fin 10)}

/-- Of two fractions that differ at some digit, the text has the order of the
value. -/
theorem fractionText_lt_iff (hab : ¬ as <+: bs) (hba : ¬ bs <+: as) :
    fractionText as < fractionText bs ↔ fractionValue as < fractionValue bs := by
  induction as generalizing bs with
  | nil => exact absurd nil_prefix hab
  | cons a as ih =>
    cases bs with
    | nil => exact absurd nil_prefix hba
    | cons b bs =>
      show (a.val + 1) :: fractionText as < (b.val + 1) :: fractionText bs
        ↔ ((a.val : ℚ) + fractionValue as) / 10 < ((b.val : ℚ) + fractionValue bs) / 10
      rw [cons_lt_cons_iff, div_lt_div_iff_of_pos_right (by norm_num)]
      have has := fractionValue_nonneg as
      have hbs := fractionValue_nonneg bs
      have has1 := fractionValue_lt_one as
      have hbs1 := fractionValue_lt_one bs
      rcases lt_trichotomy a.val b.val with hlt | heq | hgt
      · have hq : (a.val : ℚ) + 1 ≤ b.val := by exact_mod_cast hlt
        exact iff_of_true (.inl (by omega)) (by linarith)
      · have hrest := ih (fun hc => hab (cons_prefix_cons.mpr ⟨Fin.ext heq, hc⟩))
          (fun hc => hba (cons_prefix_cons.mpr ⟨Fin.ext heq.symm, hc⟩))
        rw [heq, add_lt_add_iff_left (b.val : ℚ), ← hrest]
        simp
      · have hq : (b.val : ℚ) + 1 ≤ a.val := by exact_mod_cast hgt
        exact iff_of_false (by omega) (by linarith)

/-- Of two fractions, the one that continues the other is the greater value and
the smaller text. -/
theorem fractionText_lt_of_continues (hfirst : as <+: bs) (hne : as ≠ bs)
    (htrim : bs.getLast? ≠ some 0) :
    fractionText bs < fractionText as ∧ fractionValue as < fractionValue bs := by
  induction as generalizing bs with
  | nil =>
    refine ⟨?_, fractionValue_pos hne.symm htrim⟩
    cases bs with
    | nil => exact absurd rfl hne
    | cons b bs =>
      show (b.val + 1) :: fractionText bs < [11]
      exact cons_lt_cons_iff.mpr (.inl (by omega))
  | cons a as ih =>
    obtain ⟨cs, rfl⟩ := hfirst
    have hrest : as ≠ as ++ cs := fun hc => hne (by rw [cons_append, ← hc])
    have hnil : as ++ cs ≠ [] := by
      intro hc
      obtain ⟨has, hcs⟩ := append_eq_nil_iff.mp hc
      exact hrest (by rw [hcs, append_nil])
    rw [cons_append, getLast?_cons_of_ne_nil hnil] at htrim
    obtain ⟨htext, hvalue⟩ := ih (prefix_append as cs) hrest htrim
    constructor
    · exact cons_lt_cons_iff.mpr (.inr ⟨rfl, htext⟩)
    · show ((a.val : ℚ) + fractionValue as) / 10 < ((a.val : ℚ) + fractionValue (as ++ cs)) / 10
      linarith

namespace Timestamp

variable {s t : Timestamp}

/-- **Text has the order of time where no fraction continues the other.** -/
theorem text_lt_iff (h : ¬ Continues s t) : s.text < t.text ↔ s.seconds < t.seconds := by
  unfold text seconds
  rw [cons_lt_cons_iff]
  have hs := fractionValue_nonneg s.fraction
  have ht := fractionValue_nonneg t.fraction
  have hs1 := fractionValue_lt_one s.fraction
  have ht1 := fractionValue_lt_one t.fraction
  rcases lt_trichotomy s.second t.second with hlt | heq | hgt
  · have hq : (s.second : ℚ) + 1 ≤ t.second := by exact_mod_cast hlt
    exact iff_of_true (.inl hlt) (by linarith)
  · by_cases hfraction : s.fraction = t.fraction
    · rw [heq, hfraction]
      simp
    · have hst : ¬ s.fraction <+: t.fraction := fun hc => h ⟨heq, hfraction, .inl hc⟩
      have hts : ¬ t.fraction <+: s.fraction := fun hc => h ⟨heq, hfraction, .inr hc⟩
      have hsne : s.fraction ≠ [] := fun hc => hst (hc ▸ nil_prefix)
      have htne : t.fraction ≠ [] := fun hc => hts (hc ▸ nil_prefix)
      rw [if_neg hsne, if_neg htne, cons_lt_cons_iff, fractionText_lt_iff hst hts, heq]
      simp
  · have hq : (t.second : ℚ) + 1 ≤ s.second := by exact_mod_cast hgt
    exact iff_of_false (by omega) (by linarith)

/-- **Text has the opposite order where one fraction continues the other.** -/
theorem text_lt_of_continues (hsecond : s.second = t.second)
    (hfirst : s.fraction <+: t.fraction) (hne : s.fraction ≠ t.fraction) :
    t.text < s.text ∧ s.seconds < t.seconds := by
  obtain ⟨htext, hvalue⟩ := fractionText_lt_of_continues hfirst hne t.trimmed
  constructor
  · unfold text
    rw [cons_lt_cons_iff, hsecond]
    refine .inr ⟨rfl, ?_⟩
    by_cases hs : s.fraction = []
    · have ht : t.fraction ≠ [] := fun hc => hne (hs.trans hc.symm)
      rw [if_pos hs, if_neg ht]
      exact cons_lt_cons_iff.mpr (.inl (by omega))
    · have ht : t.fraction ≠ [] := fun hc => hs (prefix_nil.mp (hc ▸ hfirst))
      rw [if_neg hs, if_neg ht]
      exact cons_lt_cons_iff.mpr (.inr ⟨rfl, htext⟩)
  · unfold seconds
    rw [hsecond]
    linarith

/-- Times with one text are the same time. -/
theorem seconds_eq_of_text_eq (h : s.text = t.text) : s.seconds = t.seconds := by
  by_cases hc : Continues s t
  · rcases hc.2.2 with hp | hp
    · exact absurd (text_lt_of_continues hc.1 hp hc.2.1).1 (h ▸ lt_irrefl _)
    · exact absurd (text_lt_of_continues hc.1.symm hp hc.2.1.symm).1 (h ▸ lt_irrefl _)
  · have hst : ¬ s.seconds < t.seconds := fun hlt => lt_irrefl _ (h ▸ (text_lt_iff hc).mpr hlt)
    have hts : ¬ t.seconds < s.seconds := fun hlt =>
      lt_irrefl _ (h ▸ (text_lt_iff (fun hc' => hc hc'.symm)).mpr hlt)
    exact le_antisymm (not_lt.mp hts) (not_lt.mp hst)

end Timestamp

end Hibari
