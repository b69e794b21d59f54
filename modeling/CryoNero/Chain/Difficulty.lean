import CryoNero.Core.Consensus

/-!
# The difficulty of the next block

Before the second fork the difficulty is the work of a window of blocks, times the target, over the
time the window took. The timestamps of the window are sorted, its difficulties are not, and both are
cut at the ends. `Measures` says what work and what time such a window has as numbers without a
bound, and that both are read inside the window.
-/

namespace CryoNero

open Words

namespace Currency

/-! ## A cut window -/

/-- The first and the last item of a part of a list. -/
def Ends {α : Type} (l : List α) (p : ℕ × ℕ) (first last : α) : Prop :=
  l[p.1]? = some first ∧ l[p.2 - 1]? = some last

instance {α : Type} [DecidableEq α] (l : List α) (p : ℕ × ℕ) (first last : α) :
    Decidable (Ends l p first last) :=
  inferInstanceAs (Decidable (_ ∧ _))

private theorem ends_getD {α : Type} {l : List α} {p : ℕ × ℕ} (hp : p.1 + 2 ≤ p.2) (hl : p.2 ≤ l.length)
    (d : α) : Ends l p (l.getD p.1 d) (l.getD (p.2 - 1) d) := by
  constructor
  · rw [List.getD_eq_getElem l d (by omega), List.getElem?_eq_getElem]
  · rw [List.getD_eq_getElem l d (by omega), List.getElem?_eq_getElem]

private theorem Ends.rel {α : Type} {r : α → α → Prop} {l : List α} {p : ℕ × ℕ} {first last : α}
    (h : Ends l p first last) (hl : l.Pairwise r) (hp : p.1 + 2 ≤ p.2) : r first last := by
  obtain ⟨hi, rfl⟩ := List.getElem?_eq_some_iff.mp h.1
  obtain ⟨hj, rfl⟩ := List.getElem?_eq_some_iff.mp h.2
  exact List.pairwise_iff_getElem.mp hl _ _ hi hj (by omega)

/-- The work and the time of a window, which has `cut` items cut from either end when it is full. -/
structure Measures (timestamps : List Timestamp) (cumulativeDifficulties : List Difficulty)
    (window cut work span : ℕ) : Prop where
  /-- The part that is left has two items at least, and lies in the window. -/
  inside : (cutWindow timestamps.length window cut).1 + 2 ≤
      (cutWindow timestamps.length window cut).2 ∧
    (cutWindow timestamps.length window cut).2 ≤ timestamps.length
  /-- The time is that between the ends of the sorted timestamps, and one at least. -/
  time : ∃ first last, Ends (timestamps.insertionSort (· ≤ ·))
      (cutWindow timestamps.length window cut) first last ∧ first ≤ last ∧
    span = max 1 (last.toNat - first.toNat)
  work : ∃ first last, Ends cumulativeDifficulties
      (cutWindow timestamps.length window cut) first last ∧ first < last ∧
    work = last.toNat - first.toNat

private theorem cutWindow_inside {length window cut : ℕ} (hlength : 2 ≤ length)
    (hwindow : 2 * cut + 2 ≤ window) :
    (cutWindow length window cut).1 + 2 ≤ (cutWindow length window cut).2 ∧
      (cutWindow length window cut).2 ≤ length := by
  rw [cutWindow]
  split <;> constructor <;> dsimp only <;> omega

namespace Measures

variable {timestamps : List Timestamp} {cumulativeDifficulties : List Difficulty}
variable {window cut work span : ℕ}

private theorem span_pos (h : Measures timestamps cumulativeDifficulties window cut work span) :
    1 ≤ span := by
  obtain ⟨_, _, _, _, rfl⟩ := h.time
  exact le_max_left _ _

private theorem span_lt (h : Measures timestamps cumulativeDifficulties window cut work span) :
    span < 2 ^ 32 := by
  obtain ⟨first, last, _, _, rfl⟩ := h.time
  have hlast := last.toNat_lt
  omega

private theorem work_pos (h : Measures timestamps cumulativeDifficulties window cut work span) :
    1 ≤ work := by
  obtain ⟨first, last, _, hlt, rfl⟩ := h.work
  have hlt := UInt64.lt_iff_toNat_lt.mp hlt
  omega

end Measures

variable (cur : Currency)

private theorem mul128_fits_iff {a b : UInt64} {c : UInt32} :
    ((mul128 a b).1 ≠ 0 ∨ 0xFFFFFFFFFFFFFFFF - (mul128 a b).2 < c.toUInt64) ↔
      2 ^ 64 ≤ a.toNat * b.toNat + c.toNat := by
  have hwide := wide_mul128 a b
  rw [wide] at hwide
  have hlow := (mul128 a b).2.toNat_lt
  have hzero : (mul128 a b).1 = 0 ↔ (mul128 a b).1.toNat = 0 := by
    rw [← UInt64.toNat_inj]
    rfl
  have hsub : (0xFFFFFFFFFFFFFFFF - (mul128 a b).2).toNat = 2 ^ 64 - 1 - (mul128 a b).2.toNat := by
    rw [UInt64.toNat_sub_of_le _ _ (UInt64.le_iff_toNat_le.mpr (by simpa using by omega))]
    rfl
  rw [ne_eq, hzero, UInt64.lt_iff_toNat_lt, hsub, UInt32.toNat_toUInt64]
  omega

private theorem toNat_timeSpan {first last : Timestamp} (hle : first ≤ last) :
    (if last - first = 0 then (1 : Timestamp) else last - first).toNat =
      max 1 (last.toNat - first.toNat) := by
  have hsub := UInt32.toNat_sub_of_le _ _ hle
  split
  · rename_i hzero
    rw [hzero] at hsub
    rw [← hsub]
    rfl
  · rename_i hne
    have hpos : (last - first).toNat ≠ 0 := fun h ↦ hne (UInt32.toNat_inj.mp h)
    rw [hsub] at hpos ⊢
    omega

private theorem measured_eq (work : Difficulty) (span : Timestamp) (hspan : 1 ≤ span.toNat) :
    (if (mul128 work cur.difficultyTarget.toUInt64).1 ≠ 0 ∨
        0xFFFFFFFFFFFFFFFF - (mul128 work cur.difficultyTarget.toUInt64).2 < (span - 1).toUInt64
      then none
      else some ((mul128 work cur.difficultyTarget.toUInt64).2, span.toUInt64)) =
      if 2 ^ 64 ≤ work.toNat * cur.difficultyTarget.toNat + (span.toNat - 1) then none
      else some (UInt64.ofNat (work.toNat * cur.difficultyTarget.toNat),
        UInt64.ofNat span.toNat) := by
  have hpred : (span - 1).toNat = span.toNat - 1 :=
    UInt32.toNat_sub_of_le _ _ (UInt32.le_iff_toNat_le.mpr hspan)
  simp only [mul128_fits_iff, hpred, UInt32.toNat_toUInt64]
  congr 3
  exact UInt64.toNat_inj.mp (by simp)

private theorem workAndTime_eq (timestamps : List Timestamp) (cumulativeDifficulties : List Difficulty)
    (window cut : ℕ) (hlength : cumulativeDifficulties.length = timestamps.length)
    (hincreasing : cumulativeDifficulties.Pairwise (· < ·)) (htwo : 2 ≤ timestamps.length)
    (hwindow : 2 * cut + 2 ≤ window) :
    ∃ work span, Measures timestamps cumulativeDifficulties window cut work span ∧
      cur.workAndTime timestamps cumulativeDifficulties window cut =
        if 2 ^ 64 ≤ work * cur.difficultyTarget.toNat + (span - 1) then none
        else some (UInt64.ofNat (work * cur.difficultyTarget.toNat), UInt64.ofNat span) := by
  have hinside := cutWindow_inside htwo hwindow
  have htimes := ends_getD (l := timestamps.insertionSort (· ≤ ·)) hinside.1
    (by simpa using hinside.2) 0
  have hworks := ends_getD (l := cumulativeDifficulties) hinside.1 (by omega) 0
  have hle := htimes.rel (List.pairwise_insertionSort _ timestamps) hinside.1
  have hlt := hworks.rel hincreasing hinside.1
  refine ⟨_, _, ⟨hinside, ⟨_, _, htimes, hle, rfl⟩, ⟨_, _, hworks, hlt, rfl⟩⟩, ?_⟩
  have hspan := toNat_timeSpan hle
  have hwork := UInt64.toNat_sub_of_le _ _ (UInt64.le_of_lt hlt)
  rw [← hspan, ← hwork, workAndTime]
  exact cur.measured_eq _ _ ((le_max_left 1 _).trans hspan.ge)

/-! ## Before the second fork -/

private theorem difficultyWindow_cases :
    cur.difficultyWindow.toNat = 86400 ∨ cur.difficultyWindow.toNat = 1440 := by
  rw [difficultyWindow, difficultyTarget]
  split
  · exact .inl rfl
  · exact .inr rfl

theorem difficultyTarget_cases :
    cur.difficultyTarget.toNat = 1 ∨ cur.difficultyTarget.toNat = 60 := by
  rw [difficultyTarget]
  split
  · exact .inl rfl
  · exact .inr rfl

private theorem toNat_ceil {product span : ℕ} (hspan : 1 ≤ span) (hfits : product + (span - 1) < 2 ^ 64) :
    ((UInt64.ofNat product + UInt64.ofNat span - 1) / UInt64.ofNat span).toNat =
      product ⌈/⌉ span := by
  have hsum : (UInt64.ofNat product + UInt64.ofNat span - 1).toNat = product + span - 1 := by
    simp only [UInt64.toNat_sub, UInt64.toNat_add, UInt64.toNat_ofNat', UInt64.toNat_one]
    omega
  rw [UInt64.toNat_div, hsum, Nat.ceilDiv_eq_add_pred_div, UInt64.toNat_ofNat']
  rcases Nat.lt_or_ge span (2 ^ 64) with hlt | hge
  · rw [Nat.mod_eq_of_lt hlt]
  · -- only a product of zero leaves room for such a span
    have hzero : product = 0 ∧ span = 2 ^ 64 := by omega
    rw [hzero.1, hzero.2]
    rfl

private theorem toNat_floor {product span : ℕ} (hproduct : product < 2 ^ 64) (hspan : span < 2 ^ 64) :
    (max 100 (UInt64.ofNat product / UInt64.ofNat span)).toNat = max 100 (product / span) := by
  have hquotient : (UInt64.ofNat product / UInt64.ofNat span).toNat = product / span := by
    rw [UInt64.toNat_div, UInt64.toNat_ofNat_of_lt' hproduct, UInt64.toNat_ofNat_of_lt' hspan]
  rw [← hquotient]
  set quotient := UInt64.ofNat product / UInt64.ofNat span
  change (if 100 ≤ quotient then quotient else 100).toNat = max 100 quotient.toNat
  split <;> rename_i hle <;> rw [UInt64.le_iff_toNat_le] at hle
  · exact (max_eq_right hle).symm
  · exact (max_eq_left (not_le.mp hle).le).symm

theorem settled {difficulty : Difficulty} {value : ℕ} {overflow : Prop}
    (hvalue : difficulty.toNat = value) (hpos : 0 < value) (hfits : ¬overflow) :
    (difficulty = 0 ↔ overflow) ∧ (difficulty ≠ 0 → difficulty.toNat = value) := by
  have hne : difficulty ≠ 0 := by
    rintro rfl
    exact absurd hvalue hpos.ne
  exact ⟨iff_of_false hne hfits, fun _ ↦ hvalue⟩

private theorem ceilDiv_pos {a b : ℕ} (hb : 1 ≤ b) (ha : 0 < a) : 0 < a ⌈/⌉ b := by
  rw [Nat.ceilDiv_eq_add_pred_div]
  exact Nat.div_pos (by omega) hb

/-- **The difficulty before the second fork**, for timestamps in any order. The numbers are read
inside the windows, and no step wraps: the difficulty is zero just if one of the products in use
does not fit, and otherwise the quotient over numbers without a bound. -/
theorem nextDifficultyV1_eq (blockIndex : Height) (timestamps : List Timestamp)
    (cumulativeDifficulties : List Difficulty)
    (hlength : cumulativeDifficulties.length = timestamps.length)
    (hincreasing : cumulativeDifficulties.Pairwise (· < ·)) :
    (timestamps.length ≤ 1 →
      cur.nextDifficultyV1 blockIndex timestamps cumulativeDifficulties = 1) ∧
    (2 ≤ timestamps.length → ∃ work span lastWork lastSpan,
      Measures (timestamps.take cur.difficultyWindow.toNat)
        (cumulativeDifficulties.take cur.difficultyWindow.toNat) cur.difficultyWindow.toNat
        difficultyCut work span ∧
      Measures (timestamps.drop (timestamps.length - 17))
        (cumulativeDifficulties.drop (timestamps.length - 17)) 17 0 lastWork lastSpan ∧
      (cur.nextDifficultyV1 blockIndex timestamps cumulativeDifficulties = 0 ↔
        2 ^ 64 ≤ work * cur.difficultyTarget.toNat + (span - 1) ∨
          hardforkV1Height ≤ blockIndex ∧
            2 ^ 64 ≤ lastWork * cur.difficultyTarget.toNat + (lastSpan - 1)) ∧
      (cur.nextDifficultyV1 blockIndex timestamps cumulativeDifficulties ≠ 0 →
        (cur.nextDifficultyV1 blockIndex timestamps cumulativeDifficulties).toNat =
          if hardforkV1Height ≤ blockIndex then
            max 100 (lastWork * cur.difficultyTarget.toNat / lastSpan)
          else work * cur.difficultyTarget.toNat ⌈/⌉ span)) := by
  have hwindow := cur.difficultyWindow_cases
  refine ⟨fun hone ↦ ?_, fun htwo ↦ ?_⟩
  · rw [nextDifficultyV1]
    exact if_pos (by omega)
  · obtain ⟨work, span, hmeasures, hfull⟩ := cur.workAndTime_eq
      (timestamps.take cur.difficultyWindow.toNat)
      (cumulativeDifficulties.take cur.difficultyWindow.toNat)
      cur.difficultyWindow.toNat difficultyCut
      (by simp [hlength]) (hincreasing.sublist (List.take_sublist _ _))
      (by rw [List.length_take]; omega) (by rw [difficultyCut]; omega)
    obtain ⟨lastWork, lastSpan, hlastMeasures, hlast⟩ := cur.workAndTime_eq
      (timestamps.drop (timestamps.length - 17))
      (cumulativeDifficulties.drop (timestamps.length - 17)) 17 0
      (by simp [hlength]) (hincreasing.sublist (List.drop_sublist _ _)) (by rw [List.length_drop]; omega)
      (by omega)
    refine ⟨work, span, lastWork, lastSpan, hmeasures, hlastMeasures, ?_⟩
    have hsame : timestamps.length - min (min timestamps.length cur.difficultyWindow.toNat) 17 =
        timestamps.length - 17 := by omega
    rw [nextDifficultyV1]
    dsimp only
    rw [if_neg (by omega), hfull, hlength, hsame, hlast]
    by_cases hover : 2 ^ 64 ≤ work * cur.difficultyTarget.toNat + (span - 1)
    · rw [if_pos hover]
      exact ⟨iff_of_true rfl (.inl hover), fun h ↦ absurd rfl h⟩
    · rw [if_neg hover]
      dsimp only
      by_cases hfork : hardforkV1Height ≤ blockIndex
      · rw [if_pos hfork, if_pos hfork]
        by_cases hlastOver : 2 ^ 64 ≤ lastWork * cur.difficultyTarget.toNat + (lastSpan - 1)
        · rw [if_pos hlastOver]
          exact ⟨iff_of_true rfl (.inr ⟨hfork, hlastOver⟩), fun h ↦ absurd rfl h⟩
        · rw [if_neg hlastOver]
          have hlt := hlastMeasures.span_lt
          exact settled (toNat_floor (by omega) (by omega)) (by omega)
            (not_or.mpr ⟨hover, fun h ↦ hlastOver h.2⟩)
      · rw [if_neg hfork, if_neg hfork]
        have hpos : 0 < work * cur.difficultyTarget.toNat :=
          Nat.mul_pos hmeasures.work_pos (by have := cur.difficultyTarget_cases; omega)
        have hceil := toNat_ceil hmeasures.span_pos (not_le.mp hover)
        exact settled hceil (ceilDiv_pos hmeasures.span_pos hpos)
          (not_or.mpr ⟨hover, fun h ↦ hfork h.1⟩)

/-- Eighteen blocks a minute apart, of which the second did nearly all the work. -/
def sampleTimes : List Timestamp := (List.range 18).map fun i ↦ 60 * UInt32.ofNat i

def sampleWorks : List Difficulty := 0 :: (List.range 17).map fun i ↦ 2 ^ 63 + UInt64.ofNat i

private theorem increasing_sampleWorks : sampleWorks.Pairwise (· < ·) := by decide +kernel

theorem nextDifficultyV1_eq_sample :
    ∃ work span lastWork lastSpan,
      Measures (sampleTimes.take 1440) (sampleWorks.take 1440) 1440 difficultyCut work span ∧
      Measures (sampleTimes.drop 1) (sampleWorks.drop 1) 17 0 lastWork lastSpan ∧
      ((Env.lax 0).currency.nextDifficultyV1 hardforkV1Height sampleTimes sampleWorks = 0 ↔
        2 ^ 64 ≤ work * 60 + (span - 1) ∨
          hardforkV1Height ≤ hardforkV1Height ∧ 2 ^ 64 ≤ lastWork * 60 + (lastSpan - 1)) := by
  have hspec := (nextDifficultyV1_eq (Env.lax 0).currency hardforkV1Height sampleTimes sampleWorks
    rfl increasing_sampleWorks).2 (by decide)
  obtain ⟨work, span, lastWork, lastSpan, hfull, hlast, hzero, -⟩ := hspec
  exact ⟨work, span, lastWork, lastSpan, hfull, hlast, hzero⟩

/-- The product of the last blocks fits, and the difficulty is zero all the same: the window of all
blocks is looked at first. -/
theorem nextDifficultyV1_overflows_early :
    sampleWorks.length = sampleTimes.length ∧ sampleWorks.Pairwise (· < ·) ∧
    Measures (sampleTimes.drop (sampleTimes.length - 17))
      (sampleWorks.drop (sampleTimes.length - 17)) 17 0 16 960 ∧
    16 * (Env.lax 0).currency.difficultyTarget.toNat + (960 - 1) < 2 ^ 64 ∧
    (Env.lax 0).currency.nextDifficultyV1 hardforkV1Height sampleTimes sampleWorks = 0 := by
  have hlast : Measures (sampleTimes.drop 1) (sampleWorks.drop 1) 17 0 16 960 :=
    ⟨by decide, ⟨60, 1020, by decide +kernel⟩, ⟨2 ^ 63, 2 ^ 63 + 16, by decide +kernel⟩⟩
  exact ⟨rfl, increasing_sampleWorks, hlast, by decide, by decide +kernel⟩

end Currency

end CryoNero
