import Mathlib.Algebra.Order.Ring.Rat
import Mathlib.Tactic.Linarith

/-!
# `Jobs.Backoff` — the delay before a retry

`next_delay_seconds` shifts a one, multiplies with saturation, caps the product and adds jitter. The shift wraps at the
sign bit: at attempt 64 the power of two is `i64::MIN`, which no later step repairs. `next_delay_iff` says that this is
the only attempt at which the delay is not `min(max_seconds, base_seconds * 2^(attempt_no - 1))`.

Integers are the fixed-width ones of the code; the `f64` product of delay and jitter fraction is an exact rational.
-/

namespace Azums.Jobs

/-! ## Integer operations -/

/-- `i64::checked_shl`: a shift by less than 64 wraps. -/
def checkedShl (x : Int64) (rhs : Nat) : Option Int64 :=
  if rhs < 64 then some (Int64.ofInt (x.toInt * 2 ^ rhs)) else none

/-- `i64::saturating_mul`. -/
def saturatingMul (a b : Int64) : Int64 := Int64.ofIntClamp (a.toInt * b.toInt)

/-- `Ord::clamp`; `none` is the panic on bounds that cross. -/
def clamp (x lo hi : Int64) : Option Int64 :=
  if lo ≤ hi then some (if x < lo then lo else if hi < x then hi else x) else none

/-- `f64::round`: to the nearest integer, halves away from zero. -/
def roundHalfAway (q : ℚ) : Int := if 0 ≤ q then (q + 1 / 2).floor else -(-q + 1 / 2).floor

theorem toInt_ofIntClamp (n : Int) : (Int64.ofIntClamp n).toInt = max (-2 ^ 63) (min n (2 ^ 63 - 1)) := by
  have hmin := Int64.toInt_minValue
  have hmax := Int64.toInt_maxValue
  by_cases hlo : Int64.minValue.toInt ≤ n
  · by_cases hhi : n ≤ Int64.maxValue.toInt
    · rw [Int64.toInt_ofIntClamp hlo hhi]
      omega
    · simp only [Int64.ofIntClamp, hlo, hhi, dif_pos, dif_neg, not_false_eq_true]
      omega
  · simp only [Int64.ofIntClamp, hlo, dif_neg, not_false_eq_true]
    omega

theorem toInt_saturatingMul (a b : Int64) :
    (saturatingMul a b).toInt = max (-2 ^ 63) (min (a.toInt * b.toInt) (2 ^ 63 - 1)) := toInt_ofIntClamp _

theorem clamp_spec {x lo hi : Int64} (h : lo ≤ hi) :
    ∃ y, clamp x lo hi = some y ∧ lo.toInt ≤ y.toInt ∧ y.toInt ≤ hi.toInt := by
  refine ⟨_, if_pos h, ?_⟩
  simp only [Int64.le_iff_toInt_le, Int64.lt_iff_toInt_lt] at h ⊢
  split
  · omega
  · split <;> omega

/-! ## The delay -/

/-- `RetryConfig`. -/
structure RetryConfig where
  baseSeconds : Int64
  maxSeconds : Int64
  jitterPct : ℚ

/-- `RetryConfig::default`. -/
def RetryConfig.default : RetryConfig := { baseSeconds := 2, maxSeconds := 15 * 60, jitterPct := 1 / 5 }

/-- A random number generator: what it draws from a range lies in the range. -/
structure Rng where
  sample : ℚ → ℚ → ℚ
  sample_mem : ∀ lo hi, lo ≤ hi → lo ≤ sample lo hi ∧ sample lo hi ≤ hi

/-- `Rng::random_range(lo..=hi)`; `none` is the panic on an empty range. -/
def Rng.randomRange (rng : Rng) (lo hi : ℚ) : Option ℚ := if lo ≤ hi then some (rng.sample lo hi) else none

/-- The exponent: `attempt_no.max(1) as u32`, less one. -/
def exponent (attemptNo : Int32) : Nat := (max attemptNo.toInt 1).toNat - 1

/-- `2^exponent` as the code computes it. -/
def pow2 (attemptNo : Int32) : Int64 := (checkedShl 1 (exponent attemptNo)).getD Int64.maxValue

/-- The delay before jitter: the product, capped. -/
def cappedDelay (attemptNo : Int32) (cfg : RetryConfig) : Int64 :=
  let delay := saturatingMul cfg.baseSeconds (pow2 attemptNo)
  if cfg.maxSeconds < delay then cfg.maxSeconds else delay

/-- The bound of the jitter. -/
def jitterRange (attemptNo : Int32) (cfg : RetryConfig) : ℚ := (cappedDelay attemptNo cfg).toInt * cfg.jitterPct

/-- `next_delay_seconds`; `none` is a panic. -/
def nextDelaySeconds (attemptNo : Int32) (cfg : RetryConfig) (rng : Rng) : Option Int64 :=
  match rng.randomRange (-jitterRange attemptNo cfg) (jitterRange attemptNo cfg) with
  | none => none
  | some jitter =>
      clamp (Int64.ofIntClamp (roundHalfAway ((cappedDelay attemptNo cfg).toInt + jitter))) 0 cfg.maxSeconds

/-- What the retry policy promises of one delay. -/
structure BackoffLaw (attemptNo : Int32) (cfg : RetryConfig) (rng : Rng) : Prop where
  exact : (cappedDelay attemptNo cfg).toInt =
    min cfg.maxSeconds.toInt (cfg.baseSeconds.toInt * 2 ^ exponent attemptNo)
  nonempty : -jitterRange attemptNo cfg ≤ jitterRange attemptNo cfg
  bounded : ∃ d, nextDelaySeconds attemptNo cfg rng = some d ∧ 0 ≤ d.toInt ∧ d.toInt ≤ cfg.maxSeconds.toInt

/-! ## The power of two -/

theorem toInt_pow2_of_lt {attemptNo : Int32} (h : exponent attemptNo < 63) :
    (pow2 attemptNo).toInt = 2 ^ exponent attemptNo := by
  have hpos : (0 : Int) < 2 ^ exponent attemptNo := by positivity
  have hlt : (2 : Int) ^ exponent attemptNo < 2 ^ 63 := pow_lt_pow_right₀ (by decide) h
  rw [pow2, checkedShl, if_pos (by omega), Option.getD_some, Int64.toInt_one, one_mul,
    Int64.toInt_ofInt_of_le (by omega) hlt]

/-- At the sign bit the shift wraps. -/
theorem toInt_pow2_of_eq {attemptNo : Int32} (h : exponent attemptNo = 63) : (pow2 attemptNo).toInt = -2 ^ 63 := by
  rw [pow2, h]
  rfl

theorem toInt_pow2_of_gt {attemptNo : Int32} (h : 63 < exponent attemptNo) :
    (pow2 attemptNo).toInt = 2 ^ 63 - 1 := by
  rw [pow2, checkedShl, if_neg (by omega)]
  rfl

theorem exponent_eq_iff {attemptNo : Int32} : exponent attemptNo = 63 ↔ attemptNo = 64 := by
  have h64 : (64 : Int32).toInt = 64 := rfl
  rw [← Int32.toInt_inj, h64, exponent]
  omega

/-! ## The capped delay -/

section Law

variable {attemptNo : Int32} {cfg : RetryConfig} {rng : Rng}

theorem toInt_cappedDelay (attemptNo : Int32) (cfg : RetryConfig) :
    (cappedDelay attemptNo cfg).toInt = min cfg.maxSeconds.toInt
      (max (-2 ^ 63) (min (cfg.baseSeconds.toInt * (pow2 attemptNo).toInt) (2 ^ 63 - 1))) := by
  rw [← toInt_saturatingMul, cappedDelay]
  simp only [Int64.lt_iff_toInt_lt]
  split <;> omega

/-- Away from attempt 64, and for a base of zero everywhere, the capped delay is exact. -/
theorem cappedDelay_exact (hbase : 0 ≤ cfg.baseSeconds.toInt) (hmax : 0 ≤ cfg.maxSeconds.toInt)
    (h : exponent attemptNo ≠ 63 ∨ cfg.baseSeconds.toInt = 0) :
    (cappedDelay attemptNo cfg).toInt =
      min cfg.maxSeconds.toInt (cfg.baseSeconds.toInt * 2 ^ exponent attemptNo) := by
  have hlt := Int64.toInt_lt cfg.maxSeconds
  rw [toInt_cappedDelay]
  rcases hbase.eq_or_lt with hzero | hpos
  · rw [← hzero, zero_mul, zero_mul]
    omega
  · have hne : exponent attemptNo ≠ 63 := h.resolve_right (by omega)
    have hproduct : 0 ≤ cfg.baseSeconds.toInt * 2 ^ exponent attemptNo := by positivity
    rcases Nat.lt_or_gt_of_ne hne with hsmall | hlarge
    · rw [toInt_pow2_of_lt hsmall]
      omega
    · -- both products exceed the cap
      have hpow : (2 : Int) ^ 63 ≤ 2 ^ exponent attemptNo := pow_le_pow_right₀ (by decide) hlarge.le
      have hexact : (2 : Int) ^ 63 ≤ cfg.baseSeconds.toInt * 2 ^ exponent attemptNo := by nlinarith
      have hsat : (2 : Int) ^ 63 - 1 ≤ cfg.baseSeconds.toInt * (2 ^ 63 - 1) := by nlinarith
      rw [toInt_pow2_of_gt hlarge]
      omega

/-- At attempt 64 a positive base gives `i64::MIN`. -/
theorem cappedDelay_min (hbase : 0 < cfg.baseSeconds.toInt) (hmax : 0 ≤ cfg.maxSeconds.toInt)
    (h : exponent attemptNo = 63) : (cappedDelay attemptNo cfg).toInt = -2 ^ 63 := by
  rw [toInt_cappedDelay, toInt_pow2_of_eq h]
  have hproduct : cfg.baseSeconds.toInt * -2 ^ 63 ≤ -2 ^ 63 := by nlinarith
  omega

/-- A delay that is not negative leaves the generator a range, and the result is within the bounds. -/
theorem nextDelaySeconds_bounded (hmax : 0 ≤ cfg.maxSeconds.toInt) (hjitter : 0 ≤ cfg.jitterPct)
    (h : 0 ≤ (cappedDelay attemptNo cfg).toInt) :
    -jitterRange attemptNo cfg ≤ jitterRange attemptNo cfg ∧
      ∃ d, nextDelaySeconds attemptNo cfg rng = some d ∧ 0 ≤ d.toInt ∧ d.toInt ≤ cfg.maxSeconds.toInt := by
  have hrange : 0 ≤ jitterRange attemptNo cfg := mul_nonneg (by exact_mod_cast h) hjitter
  have hnonempty : -jitterRange attemptNo cfg ≤ jitterRange attemptNo cfg := by linarith
  refine ⟨hnonempty, ?_⟩
  simp only [nextDelaySeconds, Rng.randomRange, if_pos hnonempty]
  exact clamp_spec (Int64.le_iff_toInt_le.mpr hmax)

/-- At attempt 64 the range of the jitter is empty, whatever would be drawn. -/
theorem nextDelaySeconds_wrapped (hbase : 0 < cfg.baseSeconds.toInt) (hmax : 0 ≤ cfg.maxSeconds.toInt)
    (hjitter : 0 < cfg.jitterPct) (h : exponent attemptNo = 63) : nextDelaySeconds attemptNo cfg rng = none := by
  have hdelay : ((cappedDelay attemptNo cfg).toInt : ℚ) < 0 := by
    rw [cappedDelay_min hbase hmax h]
    norm_num
  have hrange : jitterRange attemptNo cfg < 0 := mul_neg_of_neg_of_pos hdelay hjitter
  simp only [nextDelaySeconds, Rng.randomRange]
  rw [if_neg (by linarith)]

/-- The default configuration gives a delay at every attempt but the 64th. -/
theorem nextDelaySeconds_default (h : attemptNo ≠ 64) :
    ∃ d, nextDelaySeconds attemptNo RetryConfig.default rng = some d ∧ 0 ≤ d.toInt ∧ d.toInt ≤ 900 := by
  have hne : exponent attemptNo ≠ 63 := fun heq => h (exponent_eq_iff.mp heq)
  have hexact : (cappedDelay attemptNo RetryConfig.default).toInt =
      min RetryConfig.default.maxSeconds.toInt (RetryConfig.default.baseSeconds.toInt * 2 ^ exponent attemptNo) :=
    cappedDelay_exact (by decide) (by decide) (Or.inl hne)
  have hproduct : 0 ≤ RetryConfig.default.baseSeconds.toInt * 2 ^ exponent attemptNo :=
    mul_nonneg (by decide) (by positivity)
  have hmax : RetryConfig.default.maxSeconds.toInt = 900 := by decide
  have hjitter : 0 ≤ RetryConfig.default.jitterPct := by norm_num [RetryConfig.default]
  have hnonneg : 0 ≤ (cappedDelay attemptNo RetryConfig.default).toInt := by omega
  obtain ⟨_, hbounded⟩ := @nextDelaySeconds_bounded attemptNo RetryConfig.default rng (by omega) hjitter hnonneg
  rwa [hmax] at hbounded

/-- **The retry backoff.** For every configuration without a negative field: the delay before jitter is exact, the
    range of the jitter is not empty, and the call returns a delay within `[0, max_seconds]`, if and only if the
    attempt is not the 64th or `base_seconds` is zero. -/
theorem next_delay_iff (hbase : 0 ≤ cfg.baseSeconds) (hmax : 0 ≤ cfg.maxSeconds) (hjitter : 0 ≤ cfg.jitterPct) :
    BackoffLaw attemptNo cfg rng ↔ attemptNo ≠ 64 ∨ cfg.baseSeconds = 0 := by
  rw [Int64.le_iff_toInt_le, Int64.toInt_zero] at hbase hmax
  rw [Ne, ← exponent_eq_iff, ← Int64.toInt_inj, Int64.toInt_zero]
  constructor
  · intro law
    by_contra hnot
    obtain ⟨hexp, hne⟩ := not_or.mp hnot
    have hmin := cappedDelay_min (by omega) hmax (not_not.mp hexp)
    have hproduct : 0 ≤ cfg.baseSeconds.toInt * 2 ^ exponent attemptNo := by positivity
    have hexact := law.exact
    omega
  · intro h
    have hexact := cappedDelay_exact hbase hmax h
    have hproduct : 0 ≤ cfg.baseSeconds.toInt * 2 ^ exponent attemptNo := by positivity
    have hnonneg : 0 ≤ (cappedDelay attemptNo cfg).toInt := by omega
    obtain ⟨hnonempty, hbounded⟩ := nextDelaySeconds_bounded hmax hjitter hnonneg
    exact ⟨hexact, hnonempty, hbounded⟩

end Law

/-- The generator that always draws the lower end. -/
def lowest : Rng := { sample := fun lo _ => lo, sample_mem := fun _ _ h => ⟨le_rfl, h⟩ }

/-- The default configuration at its last attempt before the wrap. -/
theorem next_delay_iff_default : BackoffLaw 63 RetryConfig.default lowest :=
  (next_delay_iff (by decide) (by decide) (by decide +kernel)).mpr (Or.inl (by decide))

/-- At attempt 64 the default configuration panics, over an empty range; without jitter it gives no delay at all. -/
theorem next_delay_wraps : (cappedDelay 64 RetryConfig.default).toInt = -9223372036854775808 ∧
    nextDelaySeconds 64 RetryConfig.default lowest = none ∧
    nextDelaySeconds 64 { RetryConfig.default with jitterPct := 0 } lowest = some 0 ∧
    ¬BackoffLaw 64 RetryConfig.default lowest := by
  have hpanic : nextDelaySeconds 64 RetryConfig.default lowest = none := by decide +kernel
  refine ⟨by decide, hpanic, by decide +kernel, ?_⟩
  intro law
  obtain ⟨d, hd, _⟩ := law.bounded
  rw [hpanic] at hd
  cases hd

end Azums.Jobs
