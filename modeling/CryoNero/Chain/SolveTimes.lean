import CryoNero.Chain.Difficulty
import CryoNero.Words.Signed

/-!
# The difficulty after the second fork

After the second fork the difficulty is the work of sixty blocks over their weighted solve times, or
a tenth more than the last difficulty if the last three blocks came too fast. Solve times may be
negative, so that the weighted sum can vanish or change its sign. `WellDefined` says that a window
gives the number the formula has over the integers, and `Settles` what a window needs for that.
-/

namespace CryoNero

open Words

namespace Currency

variable (cur : Currency) (timestamps : List Timestamp) (cumulativeDifficulties : List Difficulty)

/-! ## The formula over the integers -/

/-- The time between a block and the one before it, within the limits of what is believed. -/
def clampedTime (i : ℕ) : ℤ :=
  max (-180) (min ((timestamps.getD i 0).toNat - (timestamps.getD (i - 1) 0).toNat)
    (6 * cur.difficultyTarget.toNat))

def weightedTimes : ℤ := ((List.range' 1 difficultyWindowV2).map fun i ↦
  cur.clampedTime timestamps i * i).sum

/-- The last three blocks came too fast. -/
def Fast : Prop :=
  cur.clampedTime timestamps 58 + cur.clampedTime timestamps 59 + cur.clampedTime timestamps 60 <
    8 * cur.difficultyTarget.toNat / 10

instance : Decidable (cur.Fast timestamps) := inferInstanceAs (Decidable (_ < _))

/-- The work of the window. -/
def windowWork : ℕ :=
  (cumulativeDifficulties.getD 60 0).toNat - (cumulativeDifficulties.getD 0 0).toNat

/-- The difficulty of the last block. -/
def lastDifficulty : ℕ :=
  (cumulativeDifficulties.getD 60 0).toNat - (cumulativeDifficulties.getD 59 0).toNat

/-- The product that is divided by the weighted times. -/
def scaledWork : ℕ := windowWork cumulativeDifficulties * cur.difficultyTarget.toNat * 61 * 99

def formula : ℤ :=
  if cur.Fast timestamps then lastDifficulty cumulativeDifficulties * 110 / 100
  else cur.scaledWork cumulativeDifficulties / (200 * cur.weightedTimes timestamps)

/-- What a window must satisfy for the formula to come out right. -/
structure Settles : Prop where
  forward : 0 < cur.weightedTimes timestamps
  fits : cur.scaledWork cumulativeDifficulties < 2 ^ 64
  fast : cur.Fast timestamps → lastDifficulty cumulativeDifficulties * 110 < 2 ^ 63
  slow : ¬cur.Fast timestamps →
    200 * cur.weightedTimes timestamps ≤ cur.scaledWork cumulativeDifficulties

/-! ## Solve times -/

private theorem toInt_target :
    cur.difficultyTarget.toUInt64.toInt64.toInt = cur.difficultyTarget.toNat := by
  rw [difficultyTarget]
  split <;> rfl

theorem clampedTime_bounds (i : ℕ) :
    -180 ≤ cur.clampedTime timestamps i ∧ cur.clampedTime timestamps i ≤ 360 := by
  have htarget := cur.difficultyTarget_cases
  rw [clampedTime]
  omega

/-- Timestamps are far from the end of a signed word, so that solve times are exact. -/
theorem toInt_solveTime (i : ℕ) :
    (cur.solveTime timestamps i).toInt = cur.clampedTime timestamps i := by
  have hword (t : Timestamp) : t.toUInt64.toInt64.toInt = t.toNat := by
    have ht := t.toNat_lt
    rw [toInt_toInt64_of_lt (by rw [UInt32.toNat_toUInt64]; omega), UInt32.toNat_toUInt64]
  have hsub : ((timestamps.getD i 0).toUInt64.toInt64 -
      (timestamps.getD (i - 1) 0).toUInt64.toInt64).toInt =
      (timestamps.getD i 0).toNat - (timestamps.getD (i - 1) 0).toNat := by
    have hi := (timestamps.getD i 0).toNat_lt
    have hpred := (timestamps.getD (i - 1) 0).toNat_lt
    rw [Int64.toInt_sub, hword, hword]
    exact bmod_eq_iff.mpr (by omega)
  have hlimit : (6 * cur.difficultyTarget.toUInt64.toInt64).toInt =
      6 * cur.difficultyTarget.toNat := by
    rw [Int64.toInt_mul, cur.toInt_target, show (6 : Int64).toInt = 6 from rfl]
    exact bmod_eq_iff.mpr (by have := cur.difficultyTarget_cases; omega)
  rw [solveTime, toInt_max, toInt_min, hsub, hlimit]
  rfl

private theorem toInt_weighted {i : ℕ} (hi : i ≤ 60) :
    (cur.solveTime timestamps i * Int64.ofNat i).toInt = cur.clampedTime timestamps i * i ∧
      |cur.clampedTime timestamps i * i| ≤ (21600 : ℕ) := by
  have hbounds := cur.clampedTime_bounds timestamps i
  have hlow : -21600 ≤ cur.clampedTime timestamps i * i := by nlinarith
  have hhigh : cur.clampedTime timestamps i * i ≤ 21600 := by nlinarith
  constructor
  · rw [Int64.toInt_mul, cur.toInt_solveTime, Int64.toInt_ofNat_of_lt (by omega)]
    exact bmod_eq_iff.mpr ⟨by linarith, by linarith⟩
  · exact abs_le.mpr ⟨hlow, hhigh⟩

private theorem toInt_weightedSolveTimes :
    (cur.weightedSolveTimes timestamps).toInt = cur.weightedTimes timestamps ∧
      |cur.weightedTimes timestamps| ≤ 60 * 21600 := by
  have hterm (i : ℕ) (hi : i ∈ List.range' 1 difficultyWindowV2) :=
    cur.toInt_weighted timestamps
      (Nat.lt_succ_iff.mp (by simpa [difficultyWindowV2] using (List.mem_range'_1.mp hi).2))
  have hsum := toInt_sum 21600 (l := (List.range' 1 difficultyWindowV2).map fun i ↦
    cur.solveTime timestamps i * Int64.ofNat i) ?_ ?_
  · have heq : (cur.weightedSolveTimes timestamps).toInt = cur.weightedTimes timestamps := by
      rw [weightedSolveTimes, hsum.1, weightedTimes, List.map_map]
      congr 1
      exact List.map_congr_left fun i hi ↦ (hterm i hi).1
    refine ⟨heq, ?_⟩
    rw [← heq]
    exact hsum.2
  · intro x hx
    obtain ⟨i, hi, rfl⟩ := List.mem_map.mp hx
    rw [(hterm i hi).1]
    exact (hterm i hi).2
  · rw [List.length_map, List.length_range']
    decide

/-! ## The words of the computation -/

/-- The dividend, as the words give it. -/
def dividend : UInt64 :=
  (cumulativeDifficulties.getD difficultyWindowV2 0 - cumulativeDifficulties.getD 0 0) *
    cur.difficultyTarget.toUInt64 * 61 * 99

/-- The divisor, which is a signed word read as an unsigned one. -/
def divisor : UInt64 := (100 * 2 * cur.weightedSolveTimes timestamps).toUInt64

/-- A tenth more than the last difficulty, before it is divided. -/
def raised : Int64 :=
  (cumulativeDifficulties.getD difficultyWindowV2 0 -
    cumulativeDifficulties.getD (difficultyWindowV2 - 1) 0).toInt64 * 110

/-- No operation wraps: the words stand for the integers that the formula has in their place. -/
structure Exact : Prop where
  dividend : (cur.dividend cumulativeDifficulties).toNat = cur.scaledWork cumulativeDifficulties
  divisor : ((cur.divisor timestamps).toNat : ℤ) = 200 * cur.weightedTimes timestamps
  raised : cur.Fast timestamps →
    (raised cumulativeDifficulties).toInt = lastDifficulty cumulativeDifficulties * 110

/-- The computation does not divide by zero, nothing wraps, and the difficulty is the one of the
formula and at least one. -/
structure WellDefined : Prop where
  exact : cur.Exact timestamps cumulativeDifficulties
  returns : ∃ difficulty, cur.nextDifficultyV2 timestamps cumulativeDifficulties = .ok difficulty ∧
    1 ≤ difficulty.toNat ∧ (difficulty.toNat : ℤ) = cur.formula timestamps cumulativeDifficulties

private theorem nextDifficultyV2_eq : cur.nextDifficultyV2 timestamps cumulativeDifficulties =
    if timestamps.length ≤ difficultyWindowV2 then .ok 1000
    else if cur.weightedSolveTimes timestamps = 0 then .error .divisionByZero
    else if cur.solveTime timestamps 58 + cur.solveTime timestamps 59 + cur.solveTime timestamps 60 <
        8 * cur.difficultyTarget.toUInt64.toInt64 / 10 then
      .ok (raised cumulativeDifficulties / 100).toUInt64
    else .ok (cur.dividend cumulativeDifficulties / cur.divisor timestamps) :=
  rfl

variable {timestamps cumulativeDifficulties}

private theorem dividend_exact_iff
    (hwork : cumulativeDifficulties.getD 0 0 < cumulativeDifficulties.getD 60 0) :
    (cur.dividend cumulativeDifficulties).toNat = cur.scaledWork cumulativeDifficulties ↔
      cur.scaledWork cumulativeDifficulties < 2 ^ 64 := by
  have hresidue : (cur.dividend cumulativeDifficulties).toNat =
      cur.scaledWork cumulativeDifficulties % 2 ^ 64 := by
    rw [dividend, scaledWork, windowWork, ← UInt64.toNat_sub_of_le _ _ (UInt64.le_of_lt hwork)]
    simp [UInt64.toNat_mul, Nat.mul_mod, difficultyWindowV2]
  rw [hresidue]
  exact Nat.mod_eq_iff_lt (by norm_num)

private theorem divisor_exact_iff :
    ((cur.divisor timestamps).toNat : ℤ) = 200 * cur.weightedTimes timestamps ↔
      0 ≤ cur.weightedTimes timestamps := by
  obtain ⟨hvalue, hbound⟩ := cur.toInt_weightedSolveTimes timestamps
  rw [abs_le] at hbound
  have hproduct : (100 * 2 * cur.weightedSolveTimes timestamps).toInt =
      200 * cur.weightedTimes timestamps := by
    rw [Int64.toInt_mul, hvalue, show (100 * 2 : Int64).toInt = 200 from rfl]
    exact bmod_eq_iff.mpr (by omega)
  rw [divisor, ← hproduct, toNat_toUInt64_eq_iff, hproduct]
  omega

theorem raised_exact_iff
    (hlast : cumulativeDifficulties.getD 59 0 < cumulativeDifficulties.getD 60 0) :
    (raised cumulativeDifficulties).toInt = lastDifficulty cumulativeDifficulties * 110 ↔
      lastDifficulty cumulativeDifficulties * 110 < 2 ^ 63 := by
  have hresidue : (raised cumulativeDifficulties).toInt =
      (lastDifficulty cumulativeDifficulties * 110 : ℤ).bmod (2 ^ 64) := by
    rw [raised, lastDifficulty, ← UInt64.toNat_sub_of_le _ _ (UInt64.le_of_lt hlast),
      Int64.toInt_mul, toInt_toInt64, show (110 : Int64).toInt = 110 from rfl,
      Int.bmod_mul_bmod]
    rfl
  rw [hresidue, bmod_eq_iff]
  omega

private theorem weightedSolveTimes_eq_zero_iff :
    cur.weightedSolveTimes timestamps = 0 ↔ cur.weightedTimes timestamps = 0 := by
  rw [← Int64.toInt_inj, (cur.toInt_weightedSolveTimes timestamps).1]
  rfl

private theorem fast_iff :
    cur.solveTime timestamps 58 + cur.solveTime timestamps 59 + cur.solveTime timestamps 60 <
        8 * cur.difficultyTarget.toUInt64.toInt64 / 10 ↔ cur.Fast timestamps := by
  have hlimit : (8 * cur.difficultyTarget.toUInt64.toInt64 / 10).toInt =
      8 * cur.difficultyTarget.toNat / 10 := by
    rw [difficultyTarget]
    split <;> rfl
  have h58 := cur.clampedTime_bounds timestamps 58
  have h59 := cur.clampedTime_bounds timestamps 59
  have h60 := cur.clampedTime_bounds timestamps 60
  have htwo : (cur.solveTime timestamps 58 + cur.solveTime timestamps 59).toInt =
      cur.clampedTime timestamps 58 + cur.clampedTime timestamps 59 := by
    rw [Int64.toInt_add, cur.toInt_solveTime, cur.toInt_solveTime]
    exact bmod_eq_iff.mpr (by omega)
  have hthree : (cur.solveTime timestamps 58 + cur.solveTime timestamps 59 +
      cur.solveTime timestamps 60).toInt = cur.clampedTime timestamps 58 +
        cur.clampedTime timestamps 59 + cur.clampedTime timestamps 60 := by
    rw [Int64.toInt_add, htwo, cur.toInt_solveTime]
    exact bmod_eq_iff.mpr (by omega)
  rw [Int64.lt_iff_toInt_lt, hthree, hlimit, Fast]

/-! ## When the formula comes out right -/

private theorem toNat_raised
    (hlast : cumulativeDifficulties.getD 59 0 < cumulativeDifficulties.getD 60 0)
    (hfits : lastDifficulty cumulativeDifficulties * 110 < 2 ^ 63) :
    ((raised cumulativeDifficulties / 100).toUInt64.toNat : ℤ) =
      lastDifficulty cumulativeDifficulties * 110 / 100 := by
  have hquotient : (raised cumulativeDifficulties / 100).toInt =
      lastDifficulty cumulativeDifficulties * 110 / 100 := by
    rw [Int64.toInt_div_of_ne_right _ _ (by decide), (raised_exact_iff hlast).mpr hfits,
      show (100 : Int64).toInt = 100 from rfl]
    exact Int.tdiv_eq_ediv_of_nonneg (by positivity)
  rw [← hquotient, toNat_toUInt64_eq_iff, hquotient]
  positivity

private theorem toNat_quotient (h : cur.Exact timestamps cumulativeDifficulties) :
    ((cur.dividend cumulativeDifficulties / cur.divisor timestamps).toNat : ℤ) =
      cur.scaledWork cumulativeDifficulties / (200 * cur.weightedTimes timestamps) := by
  rw [UInt64.toNat_div, Int.natCast_div, h.dividend, h.divisor]

variable (timestamps cumulativeDifficulties)

/-- **The difficulty after the second fork** is well defined just for the windows that settle it;
nothing else about the window matters. A shorter window gives a fixed difficulty. -/
theorem nextDifficultyV2_wellDefined_iff
    (hlength : cumulativeDifficulties.length = timestamps.length)
    (hincreasing : cumulativeDifficulties.Pairwise (· < ·)) :
    (timestamps.length ≤ difficultyWindowV2 →
      cur.nextDifficultyV2 timestamps cumulativeDifficulties = .ok 1000) ∧
    (difficultyWindowV2 < timestamps.length →
      (cur.WellDefined timestamps cumulativeDifficulties ↔
        cur.Settles timestamps cumulativeDifficulties)) := by
  refine ⟨fun hshort ↦ if_pos hshort, fun hlong ↦ ?_⟩
  have hlater {i : ℕ} (hi : i < 60) :
      cumulativeDifficulties.getD i 0 < cumulativeDifficulties.getD 60 0 := by
    rw [difficultyWindowV2] at hlong
    rw [List.getD_eq_getElem _ _ (by omega), List.getD_eq_getElem _ _ (by omega)]
    exact List.pairwise_iff_getElem.mp hincreasing _ _ _ _ hi
  have hwork := hlater (i := 0) (by omega)
  have hlast := hlater (i := 59) (by omega)
  have hV2 := cur.nextDifficultyV2_eq timestamps cumulativeDifficulties
  rw [if_neg (by omega)] at hV2
  simp only [cur.weightedSolveTimes_eq_zero_iff, cur.fast_iff] at hV2
  constructor
  · rintro ⟨hexact, difficulty, hok, hone, hformula⟩
    have hnonneg := cur.divisor_exact_iff.mp hexact.divisor
    have hne : cur.weightedTimes timestamps ≠ 0 := by
      intro hzero
      rw [if_pos hzero, hok] at hV2
      cases hV2
    have hforward : 0 < cur.weightedTimes timestamps := by omega
    refine ⟨hforward, (cur.dividend_exact_iff hwork).mp hexact.dividend,
      fun hfast ↦ (raised_exact_iff hlast).mp (hexact.raised hfast), fun hslow ↦ ?_⟩
    -- a quotient of one at least
    rw [formula, if_neg hslow] at hformula
    have hquotient : (1 : ℤ) ≤
        cur.scaledWork cumulativeDifficulties / (200 * cur.weightedTimes timestamps) := by omega
    have := (Int.le_ediv_iff_mul_le (by omega)).mp hquotient
    omega
  · rintro ⟨hforward, hfits, hfast, hslow⟩
    have hexact : cur.Exact timestamps cumulativeDifficulties :=
      ⟨(cur.dividend_exact_iff hwork).mpr hfits, cur.divisor_exact_iff.mpr hforward.le,
        fun h ↦ (raised_exact_iff hlast).mpr (hfast h)⟩
    rw [if_neg hforward.ne'] at hV2
    refine ⟨hexact, ?_⟩
    by_cases h : cur.Fast timestamps
    · rw [if_pos h] at hV2
      have hvalue := toNat_raised hlast (hfast h)
      refine ⟨_, hV2, ?_, by rw [hvalue, formula, if_pos h]⟩
      have hpos : 0 < lastDifficulty cumulativeDifficulties := by
        rw [lastDifficulty]
        exact Nat.sub_pos_of_lt (UInt64.lt_iff_toNat_lt.mp hlast)
      omega
    · rw [if_neg h] at hV2
      have hvalue := cur.toNat_quotient hexact
      refine ⟨_, hV2, ?_, by rw [hvalue, formula, if_neg h]⟩
      have hquotient : (1 : ℤ) ≤
          cur.scaledWork cumulativeDifficulties / (200 * cur.weightedTimes timestamps) :=
        (Int.le_ediv_iff_mul_le (by omega)).mpr (by have := hslow h; omega)
      omega

/-! ## Windows that the rules admit -/

/-- What the rules say of the blocks of a chain: none is older than the median of the eleven before
it or further in the future than the limit, and each adds to the difficulty. -/
structure Admitted (now : Timestamp) (timestamps : List Timestamp)
    (cumulativeDifficulties : List Difficulty) : Prop where
  length : cumulativeDifficulties.length = timestamps.length
  increasing : cumulativeDifficulties.Pairwise (· < ·)
  notPast : ∀ i < timestamps.length, 11 ≤ i →
    medianValue ((timestamps.drop (i - 11)).take 11) ≤ timestamps.getD i 0
  notFuture : ∀ t ∈ timestamps, t ≤ now + getBlockFutureTimeLimit hardforkV2Height

/-- A minute between one block and the next. -/
def steadyTimes : List Timestamp := (List.range 61).map fun i ↦ 60 * UInt32.ofNat i

def steadyWorks : List Difficulty := (List.range 61).map fun i ↦ 1000 * UInt64.ofNat i

theorem nextDifficultyV2_wellDefined_iff_steady :
    (Env.lax 0).currency.WellDefined steadyTimes steadyWorks ↔
      (Env.lax 0).currency.Settles steadyTimes steadyWorks :=
  (nextDifficultyV2_wellDefined_iff (Env.lax 0).currency steadyTimes steadyWorks (by decide)
    (by decide +kernel)).2 (by decide)

/-- Seventy-two blocks with one and the same timestamp. -/
def stoppedTimes : List Timestamp := List.replicate 72 3600

def stoppedWorks : List Difficulty := (List.range 72).map fun i ↦ 1000 * UInt64.ofNat i

private theorem admitted_stopped : Admitted 3600 stoppedTimes stoppedWorks where
  length := by decide
  increasing := by decide +kernel
  notPast i hi hwindow := by
    have hi : i < 72 := hi
    have hmedian : medianValue (List.replicate 11 3600) ≤ 3600 := by decide
    rw [stoppedTimes, List.drop_replicate, List.take_replicate, min_eq_left (by omega),
      List.getD_eq_getElem _ _ (by simpa using hi), List.getElem_replicate]
    exact hmedian
  notFuture t ht := by
    rw [List.eq_of_mem_replicate ht]
    decide

/-- The rules admit blocks that take no time at all, and the last of them divide by zero. -/
theorem nextDifficultyV2_divides_by_zero :
    Admitted 3600 stoppedTimes stoppedWorks ∧
    (Env.lax 0).currency.nextDifficultyV2 (stoppedTimes.drop 11) (stoppedWorks.drop 11) =
      .error .divisionByZero ∧
    ¬(Env.lax 0).currency.WellDefined (stoppedTimes.drop 11) (stoppedWorks.drop 11) := by
  have hzero : (Env.lax 0).currency.nextDifficultyV2 (stoppedTimes.drop 11) (stoppedWorks.drop 11) =
      .error .divisionByZero := by decide +kernel
  refine ⟨admitted_stopped, hzero, ?_⟩
  rintro ⟨-, difficulty, hok, -⟩
  rw [hzero] at hok
  cases hok

end Currency

end CryoNero
