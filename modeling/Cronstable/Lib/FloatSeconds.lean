import Mathlib.Data.Nat.Log
import Mathlib.Data.Rat.Floor
import Mathlib.Tactic.FieldSimp
import Mathlib.Tactic.Linarith

/-!
# Microseconds told in float seconds

A number of microseconds is divided by a million to the nearest double, and a number of microseconds
is made of the double again: the whole seconds are taken as they are, their fraction is multiplied
by a million as a double and rounded to a whole number. Doubles are those below `2 ^ 53`, without a
sign.

Between two doubles of seconds that are at least `2 ^ 33` lie more than one and a half microseconds,
so the way back does not always lead to the same number. It does for whole seconds
(`ofSeconds_totalSeconds_whole`) and for every number below `2 ^ 33` seconds
(`ofSeconds_totalSeconds`).
-/

namespace FloatSeconds

/-! ## Rounding -/

/-- The whole number nearest to `n / d`, and the even one of two. -/
def divRound (n d : ℕ) : ℕ :=
  if 2 * (n % d) < d then n / d
  else if d < 2 * (n % d) then n / d + 1
  else n / d + n / d % 2

variable {n d k : ℕ}

/-- What is rounded is half a unit off at most. -/
lemma divRound_bounds (hd : 0 < d) :
    2 * (divRound n d * d) ≤ 2 * n + d ∧ 2 * n ≤ 2 * (divRound n d * d) + d := by
  have hdiv := Nat.div_add_mod' n d
  have hmod := Nat.mod_lt n hd
  unfold divRound
  split_ifs with hlow hhigh
  · omega
  · rw [Nat.add_mul]
    omega
  · rcases Nat.mod_two_eq_zero_or_one (n / d) with heven | hodd
    · rw [heven, Nat.add_zero]
      omega
    · rw [hodd, Nat.add_mul]
      omega

/-- A whole number that is less than half a unit off is the nearest one. -/
lemma divRound_eq (hlow : 2 * (k * d) < 2 * n + d) (hhigh : 2 * n < 2 * (k * d) + d) :
    divRound n d = k := by
  have hd : 0 < d := by omega
  obtain ⟨hle, hge⟩ := divRound_bounds (n := n) hd
  rcases Nat.lt_trichotomy (divRound n d) k with hlt | heq | hgt
  · have : (divRound n d + 1) * d ≤ k * d := Nat.mul_le_mul_right d hlt
    rw [Nat.add_mul] at this
    omega
  · exact heq
  · have : (k + 1) * d ≤ divRound n d * d := Nat.mul_le_mul_right d hgt
    rw [Nat.add_mul] at this
    omega

/-- A whole quotient is not rounded. -/
lemma divRound_mul (hd : 0 < d) : divRound (k * d) d = k :=
  divRound_eq (by omega) (by omega)

/-! ## Doubles -/

/-- `mantissa / 2 ^ scale`. -/
structure Double where
  mantissa : ℕ
  scale : ℕ
  deriving DecidableEq, Repr

namespace Double

/-- The double nearest to `n / d`: the scale is the largest for which the mantissa has 53 bits. -/
def nearest (n d : ℕ) : Double :=
  let scale := Nat.log2 ((2 ^ 53 * d - 1) / n)
  { mantissa := divRound (n * 2 ^ scale) d, scale }

/-- What is below a power of two has a finer scale. -/
lemma le_scale_nearest (hn : 0 < n) {e : ℕ} (he : e ≤ 53) (h : n < 2 ^ e * d) :
    53 - e ≤ (nearest n d).scale := by
  have hle : n * 2 ^ (53 - e) ≤ 2 ^ 53 * d - 1 := by
    have hlt : n * 2 ^ (53 - e) < 2 ^ e * d * 2 ^ (53 - e) :=
      Nat.mul_lt_mul_of_pos_right h (Nat.two_pow_pos _)
    have hpow : 2 ^ e * d * 2 ^ (53 - e) = 2 ^ 53 * d := by
      rw [Nat.mul_right_comm, ← Nat.pow_add, Nat.add_sub_cancel' he]
    omega
  have hquot : 2 ^ (53 - e) ≤ (2 ^ 53 * d - 1) / n :=
    (Nat.le_div_iff_mul_le hn).mpr (Nat.mul_comm n _ ▸ hle)
  exact (Nat.le_log2 (Nat.two_pow_pos _ |>.trans_le hquot).ne').mpr hquot

/-- The number a double stands for. -/
def toRat (x : Double) : ℚ := x.mantissa / 2 ^ x.scale

/-- The nearest double is half a unit of its scale off at most. -/
lemma abs_toRat_nearest_sub (hd : 0 < d) :
    |(nearest n d).toRat - n / d| ≤ 1 / 2 ^ ((nearest n d).scale + 1) := by
  obtain ⟨hle, hge⟩ := divRound_bounds (n := n * 2 ^ (nearest n d).scale) hd
  have hle : (2 * ((nearest n d).mantissa * d) : ℚ) ≤ 2 * (n * 2 ^ (nearest n d).scale) + d := by
    exact_mod_cast hle
  have hge : (2 * (n * 2 ^ (nearest n d).scale) : ℚ) ≤ 2 * ((nearest n d).mantissa * d) + d := by
    exact_mod_cast hge
  have hd : (0 : ℚ) < d := by exact_mod_cast hd
  have hpow : (0 : ℚ) < 2 ^ (nearest n d).scale := by positivity
  have hdiff : (nearest n d).toRat - n / d =
      (2 * ((nearest n d).mantissa * d) - 2 * (n * 2 ^ (nearest n d).scale)) /
        (2 * 2 ^ (nearest n d).scale * d) := by
    unfold toRat
    field_simp
  have hbound : (1 : ℚ) / 2 ^ ((nearest n d).scale + 1) =
      d / (2 * 2 ^ (nearest n d).scale * d) := by
    rw [pow_succ]
    field_simp
  have hunit : 0 < 2 * 2 ^ (nearest n d).scale * (d : ℚ) := by positivity
  rw [hdiff, hbound, abs_div, abs_of_pos hunit]
  gcongr
  rw [abs_le]
  constructor <;> linarith

/-- The smaller the number, the closer its nearest double. -/
theorem abs_toRat_nearest_sub_le (hd : 0 < d) {e : ℕ} (he : e ≤ 53) (h : n < 2 ^ e * d) :
    |(nearest n d).toRat - n / d| ≤ 1 / 2 ^ (54 - e) := by
  rcases Nat.eq_zero_or_pos n with rfl | hn
  · simp [nearest, toRat, divRound, hd]
  · refine (abs_toRat_nearest_sub hd).trans ?_
    have hscale := le_scale_nearest hn he h
    gcongr
    · norm_num
    · omega

/-- A whole number less than one half off is the one a double is rounded to. -/
lemma divRound_eq_of_abs_lt {x : Double} (h : |x.toRat - k| < 1 / 2) :
    divRound x.mantissa (2 ^ x.scale) = k := by
  have hpow : (0 : ℚ) < 2 ^ x.scale := by positivity
  have hmul : x.toRat * 2 ^ x.scale = x.mantissa := div_mul_cancel₀ _ hpow.ne'
  obtain ⟨hlow, hhigh⟩ := abs_lt.mp h
  refine divRound_eq ?_ ?_
  · have : (k : ℚ) * 2 ^ x.scale < (x.toRat + 1 / 2) * 2 ^ x.scale := by
      gcongr
      linarith
    have : 2 * ((k : ℚ) * 2 ^ x.scale) < 2 * x.mantissa + 2 ^ x.scale := by linarith
    exact_mod_cast this
  · have : (x.toRat - 1 / 2) * 2 ^ x.scale < (k : ℚ) * 2 ^ x.scale := by
      gcongr
      linarith
    have : 2 * (x.mantissa : ℚ) < 2 * (k * 2 ^ x.scale) + 2 ^ x.scale := by linarith
    exact_mod_cast this

end Double

/-! ## Seconds -/

/-- `timedelta.total_seconds`. -/
def totalSeconds (us : ℕ) : Double := .nearest us 1000000

/-- `timedelta(seconds=x)`. -/
def ofSeconds (x : Double) : ℕ :=
  -- the fraction of a second, in microseconds
  let frac := Double.nearest (x.mantissa % 2 ^ x.scale * 1000000) (2 ^ x.scale)
  x.mantissa / 2 ^ x.scale * 1000000 + divRound frac.mantissa (2 ^ frac.scale)

variable {us : ℕ}

/-- Whole seconds come back. -/
theorem ofSeconds_totalSeconds_whole (h : 1000000 ∣ us) : ofSeconds (totalSeconds us) = us := by
  obtain ⟨k, rfl⟩ := h
  have hmantissa : (totalSeconds (1000000 * k)).mantissa =
      k * 2 ^ (totalSeconds (1000000 * k)).scale := by
    change divRound (1000000 * k * _) 1000000 = _
    rw [Nat.mul_assoc, Nat.mul_comm]
    exact divRound_mul (by decide)
  have hzero : ∀ d, 0 < d → divRound 0 d = 0 := fun d hd => by simp [divRound, hd]
  have hpow := Nat.two_pow_pos (totalSeconds (1000000 * k)).scale
  unfold ofSeconds
  rw [hmantissa, Nat.mul_mod_left, Nat.zero_mul, Nat.mul_div_cancel _ hpow]
  simp [Double.nearest, hzero, Nat.mul_comm]

/-- The double is its whole seconds and their fraction. -/
lemma Double.toRat_eq_add (x : Double) : x.toRat =
    (x.mantissa / 2 ^ x.scale : ℕ) + (x.mantissa % 2 ^ x.scale : ℕ) / 2 ^ x.scale := by
  have hdiv : (x.mantissa : ℚ) = (x.mantissa / 2 ^ x.scale : ℕ) * 2 ^ x.scale +
      (x.mantissa % 2 ^ x.scale : ℕ) := by
    exact_mod_cast (Nat.div_add_mod' x.mantissa (2 ^ x.scale)).symm
  rw [Double.toRat, hdiv]
  field_simp

/-- Seconds that are not far off give the microseconds that were meant. -/
theorem ofSeconds_eq {x : Double} (h : |x.toRat - us / 1000000| ≤ 1 / 2 ^ 21) :
    ofSeconds x = us := by
  rw [x.toRat_eq_add] at h
  have hpow : 0 < 2 ^ x.scale := Nat.two_pow_pos _
  have hfrac : x.mantissa % 2 ^ x.scale * 1000000 < 2 ^ 20 * 2 ^ x.scale := by
    have := Nat.mod_lt x.mantissa hpow
    omega
  have hmicros := Double.abs_toRat_nearest_sub_le hpow (by decide : 20 ≤ 53) hfrac
  simp only [ofSeconds]
  generalize x.mantissa / 2 ^ x.scale = whole at h ⊢
  generalize x.mantissa % 2 ^ x.scale = part at h hmicros ⊢
  generalize Double.nearest (part * 1000000) (2 ^ x.scale) = frac at hmicros ⊢
  -- the two roundings together are less than half a microsecond off
  have hclose : |frac.toRat - (us - whole * 1000000)| < 1 / 2 := by
    push_cast [mul_div_right_comm] at hmicros
    obtain ⟨hlow, hhigh⟩ := abs_le.mp h
    obtain ⟨hlow', hhigh'⟩ := abs_le.mp hmicros
    norm_num at hlow hhigh hlow' hhigh'
    rw [abs_lt]
    constructor <;> linarith
  have hle : whole * 1000000 ≤ us := by
    by_contra hlt
    have hlt : (us : ℚ) + 1 ≤ whole * 1000000 := by exact_mod_cast not_le.mp hlt
    have hpos : 0 ≤ frac.toRat := by
      unfold Double.toRat
      positivity
    linarith [(abs_lt.mp hclose).2]
  rw [Double.divRound_eq_of_abs_lt (k := us - whole * 1000000) (by push_cast [hle]; exact hclose)]
  omega

/-- What is less than `2 ^ 33` seconds comes back. -/
theorem ofSeconds_totalSeconds (h : us < 2 ^ 33 * 1000000) :
    ofSeconds (totalSeconds us) = us := by
  refine ofSeconds_eq ?_
  exact_mod_cast Double.abs_toRat_nearest_sub_le (by decide) (by decide : 33 ≤ 53) h

-- from 1700-01-01T00:00:00.000001 to 2024
example : ofSeconds (totalSeconds 10224403199999999) = 10224403199999998 := by decide +kernel

end FloatSeconds
