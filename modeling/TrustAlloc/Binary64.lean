import Mathlib.Algebra.Order.Floor.Ring
import Mathlib.Data.Int.Log
import Mathlib.Data.Rat.Floor
import Mathlib.Tactic.Linarith
import Mathlib.Tactic.Positivity
import Mathlib.Tactic.FieldSimp
import Mathlib.Tactic.Ring

/-!
# Quotients of floating point numbers

Positive numbers of the binary format with 53 bits, far from its smallest and
its largest ones, as rational numbers. The result of an operation is the exact
one, rounded to the nearest number of the format, or to the even one of two.
It is off by a small part of the exact result at most.
-/

namespace TrustAlloc.Binary64

/-- The nearest integer, or the even one of two. -/
def roundHalfEven (q : ℚ) : ℤ :=
  if Int.fract q < 1/2 then ⌊q⌋
  else if 1/2 < Int.fract q then ⌊q⌋+1
  else if ⌊q⌋%2=0 then ⌊q⌋
  else ⌊q⌋+1

/-- A number is rounded by at most one half. -/
theorem abs_roundHalfEven_sub (q : ℚ) : |(roundHalfEven q : ℚ)-q|≤1/2 := by
  have hfract := Int.self_sub_floor q
  have hpos := Int.fract_nonneg q
  have hlt := Int.fract_lt_one q
  unfold roundHalfEven
  rw [abs_le]
  split_ifs with hlow hhigh heven
  · exact ⟨by linarith,by linarith⟩
  · push_cast
    exact ⟨by linarith,by linarith⟩
  · exact ⟨by linarith,by linarith⟩
  · push_cast
    exact ⟨by linarith,by linarith⟩

/-- The distance of two neighbours in the format where a number lies. -/
def spacing (q : ℚ) : ℚ := 2^(Int.log 2 q-52)

/-- It is positive. -/
theorem spacing_pos (q : ℚ) : 0 < spacing q := zpow_pos (by norm_num) _

/-- It is a small part of the number. -/
theorem spacing_le {q : ℚ} (hq : 0 < q) : spacing q≤q/2^52 := by
  have hlog : (2 : ℚ)^Int.log 2 q≤q := by
    simpa using Int.zpow_log_le_self (b:=2) (by norm_num) hq
  rw [spacing,zpow_sub₀ (by norm_num)]
  exact div_le_div_of_nonneg_right hlog (by positivity)

/-- The number of the format for an exact result. -/
def round (q : ℚ) : ℚ := roundHalfEven (q/spacing q)*spacing q

/-- Rounding is off by a small part of the exact result at most. -/
theorem abs_round_sub {q : ℚ} (hq : 0 < q) : |round q-q|≤q/2^53 := by
  have hspacing := spacing_pos q
  have hexact : q=q/spacing q*spacing q := (div_mul_cancel₀ q hspacing.ne').symm
  calc |round q-q|=|((roundHalfEven (q/spacing q) : ℚ)-q/spacing q)*spacing q| := by
        rw [round,sub_mul,←hexact]
    _=|(roundHalfEven (q/spacing q) : ℚ)-q/spacing q| *spacing q := by
        rw [abs_mul,abs_of_pos hspacing]
    _≤1/2*spacing q := mul_le_mul_of_nonneg_right (abs_roundHalfEven_sub _) hspacing.le
    _≤1/2*(q/2^52) := mul_le_mul_of_nonneg_left (spacing_le hq) (by norm_num)
    _=q/2^53 := by ring

/-- An integer is its own nearest one. -/
theorem roundHalfEven_intCast (z : ℤ) : roundHalfEven (z : ℚ)=z := by
  unfold roundHalfEven
  rw [if_pos (by rw [Int.fract_intCast]; norm_num),Int.floor_intCast]

/-- A number of the format is not rounded. -/
theorem round_eq_self {m : ℕ} (hm : m < 2^53) (t : ℤ) : round (m*2^t)=m*2^t := by
  rcases Nat.eq_zero_or_pos m with rfl | hpos
  · have hzero := roundHalfEven_intCast 0
    rw [Int.cast_zero] at hzero
    rw [Nat.cast_zero,zero_mul,round,zero_div,hzero,Int.cast_zero,zero_mul]
  · have hq : (0 : ℚ) < m*2^t := mul_pos (by exact_mod_cast hpos) (zpow_pos (by norm_num) t)
    have hm' : (m : ℚ) < 2^(53 : ℤ) := by exact_mod_cast hm
    have hlt : (m*2^t : ℚ) < ((2 : ℕ) : ℚ)^(53+t) := by
      rw [Nat.cast_ofNat,zpow_add₀ (by norm_num)]
      exact mul_lt_mul_of_pos_right hm' (zpow_pos (by norm_num) t)
    have hlog : Int.log 2 (m*2^t : ℚ) < 53+t := (Int.lt_zpow_iff_log_lt (by norm_num) hq).mp hlt
    -- the spacing divides the number, as it is a smaller power of two
    have hsteps : (m*2^t : ℚ)/spacing (m*2^t)=
        ((m*2^(t-(Int.log 2 (m*2^t : ℚ)-52)).toNat : ℤ) : ℚ) := by
      rw [spacing,mul_div_assoc,←zpow_sub₀ (by norm_num),Int.cast_mul,Int.cast_natCast,
        Int.cast_pow,Int.cast_ofNat,←zpow_natCast,Int.toNat_of_nonneg (by omega)]
    rw [round,hsteps,roundHalfEven_intCast,←hsteps,div_mul_cancel₀ _ (spacing_pos _).ne']

/-- The quotient of two numbers in the format. -/
def div (a b : ℚ) : ℚ := round (a/b)

/-- A quotient lies close to the exact one. -/
theorem div_between {a b : ℚ} (ha : 0 < a) (hb : 0 < b) :
    a/b*(1-1/2^53)≤div a b ∧ div a b≤a/b*(1+1/2^53) := by
  have habs := abs_le.mp (abs_round_sub (div_pos ha hb))
  constructor
  · calc a/b*(1-1/2^53)=a/b-a/b/2^53 := by ring
      _≤div a b := by
        rw [div]
        linarith [habs.1]
  · calc div a b≤a/b+a/b/2^53 := by
          rw [div]
          linarith [habs.2]
      _=a/b*(1+1/2^53) := by ring

/-- A quotient of positive numbers is positive. -/
theorem quotient_pos {a b : ℚ} (ha : 0 < a) (hb : 0 < b) : 0 < div a b :=
  lt_of_lt_of_le (mul_pos (div_pos ha hb) (by norm_num)) (div_between ha hb).1

/-- A lower bound of a quotient whose divisor is itself a quotient. -/
theorem le_floor_div_div {a b c : ℚ} {k : ℤ} (ha : 0 < a) (hb : 0 < b) (hc : 0 < c) (hk : 0≤k)
    (hlow : k*b*(1+1/2^53)≤a*c*(1-1/2^53)) : k≤⌊div a (div b c)⌋ := by
  have hdivisor := quotient_pos hb hc
  have hk' : (0 : ℚ)≤k := by exact_mod_cast hk
  rw [Int.le_floor]
  refine le_trans ?_ (div_between ha hdivisor).1
  rw [div_mul_eq_mul_div,le_div_iff₀ hdivisor]
  calc (k : ℚ)*div b c≤k*(b/c*(1+1/2^53)) :=
        mul_le_mul_of_nonneg_left (div_between hb hc).2 hk'
    _=k*b*(1+1/2^53)/c := by ring
    _≤a*(1-1/2^53) := by
      rw [div_le_iff₀ hc]
      linarith

/-- An upper bound of such a quotient. -/
theorem floor_div_div_lt {a b c : ℚ} {k : ℤ} (ha : 0 < a) (hb : 0 < b) (hc : 0 < c) (hk : 0≤k)
    (hhigh : a*c*(1+1/2^53) < (k+1)*b*(1-1/2^53)) : ⌊div a (div b c)⌋<k+1 := by
  have hdivisor := quotient_pos hb hc
  have hk' : (0 : ℚ)≤k := by exact_mod_cast hk
  rw [Int.floor_lt]
  push_cast
  refine lt_of_le_of_lt (div_between ha hdivisor).2 ?_
  rw [div_mul_eq_mul_div,div_lt_iff₀ hdivisor]
  calc a*(1+1/2^53) < (k+1)*b*(1-1/2^53)/c := by
        rw [lt_div_iff₀ hc]
        linarith
    _=(k+1)*(b/c*(1-1/2^53)) := by ring
    _≤(k+1)*div b c := mul_le_mul_of_nonneg_left (div_between hb hc).1 (by linarith)

/-- The integer part of such a quotient. -/
theorem floor_div_div {a b c : ℚ} {k : ℤ} (ha : 0 < a) (hb : 0 < b) (hc : 0 < c) (hk : 0≤k)
    (hlow : k*b*(1+1/2^53)≤a*c*(1-1/2^53)) (hhigh : a*c*(1+1/2^53) < (k+1)*b*(1-1/2^53)) :
    ⌊div a (div b c)⌋=k :=
  le_antisymm (Int.lt_add_one_iff.mp (floor_div_div_lt ha hb hc hk hhigh))
    (le_floor_div_div ha hb hc hk hlow)

/-- For integers that are not too large, it is that of the exact quotient, if the
latter is no integer. -/
theorem floor_div_div_of_lt {a b c k : ℕ} (hb : 0 < b) (hc : 0 < c) (hlow : k*b<a*c)
    (hhigh : a*c<(k+1)*b) (hsmall : (k+1)*b≤2^52) : ⌊div (a : ℚ) (div b c)⌋=k := by
  have ha : 0 < a := Nat.pos_of_mul_pos_right (Nat.zero_lt_of_lt hlow)
  have hlow' : (k*b+1 : ℚ)≤a*c := by exact_mod_cast hlow
  have hhigh' : (a*c+1 : ℚ)≤(k+1)*b := by exact_mod_cast hhigh
  have hsmall' : ((k+1)*b : ℚ)≤2^52 := by exact_mod_cast hsmall
  refine floor_div_div (by exact_mod_cast ha) (by exact_mod_cast hb) (by exact_mod_cast hc)
    (Int.natCast_nonneg k) ?_ ?_
  · rw [Int.cast_natCast]
    linarith
  · rw [Int.cast_natCast]
    linarith

/-- So it is if the divisor is a number of the format and the quotient an integer. -/
theorem floor_div_div_of_eq {a b c k m : ℕ} {t : ℤ} (hb : 0 < b) (hc : 0 < c)
    (hdivisor : (b : ℚ)/c=m*2^t) (hm : m < 2^53) (hk : k < 2^53) (h : a*c=k*b) :
    ⌊div (a : ℚ) (div b c)⌋=k := by
  have hb' : (b : ℚ)≠0 := by exact_mod_cast hb.ne'
  have hc' : (c : ℚ)≠0 := by exact_mod_cast hc.ne'
  have h' : (a*c : ℚ)=k*b := by exact_mod_cast h
  have hexact : div (b : ℚ) c=b/c := by rw [div,hdivisor,round_eq_self hm]
  have hquotient : (a : ℚ)/(b/c)=k*2^(0 : ℤ) := by
    rw [zpow_zero,mul_one,div_div_eq_mul_div,h',mul_div_cancel_right₀ _ hb']
  rw [hexact,div,hquotient,round_eq_self hk,zpow_zero,mul_one,Int.floor_natCast]

end TrustAlloc.Binary64
