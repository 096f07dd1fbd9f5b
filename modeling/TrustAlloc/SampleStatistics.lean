import Mathlib.Algebra.BigOperators.Ring.List
import Mathlib.Algebra.Order.BigOperators.Group.List
import Mathlib.Algebra.Order.Field.Basic
import Mathlib.Data.Nat.Cast.Order.Ring
import Mathlib.Tactic.FieldSimp
import Mathlib.Tactic.Linarith
import Mathlib.Tactic.Ring

/-!
# Mean and variance of a sample

The mean of a list of numbers, the sum of the squared deviations from it, and
the variance with one degree of freedom less than there are numbers. One more
number changes each of the three by a formula in the old mean. None of them
depends on the order of the numbers.
-/

namespace TrustAlloc.SampleStatistics

variable {K : Type} [Field K]

/-- The arithmetic mean. -/
def mean (xs : List K) : K := xs.sum/xs.length

/-- The sum of the squared deviations from the mean. -/
def deviations (xs : List K) : K := (xs.map fun x => (x-mean xs)^2).sum

/-- The variance of a sample, which is zero for a single number. -/
def sampleVariance (xs : List K) : K := if xs.length≤1 then 0 else deviations xs/(xs.length-1)

/-- The squared deviations from any number. -/
theorem sum_sq_sub (c : K) (xs : List K) :
    (xs.map fun x => (x-c)^2).sum=(xs.map (·^2)).sum-2*c*xs.sum+xs.length*c^2 := by
  induction xs with
  | nil => simp
  | cons x xs ih =>
    simp only [List.map_cons,List.sum_cons,List.length_cons,Nat.cast_succ,ih]
    ring

/-- A single number does not deviate. -/
theorem deviations_of_length_one {xs : List K} (h : xs.length=1) : deviations xs=0 := by
  obtain ⟨x,rfl⟩ := List.length_eq_one_iff.mp h
  simp [deviations,mean]

section Appending

variable [CharZero K] {xs : List K}

/-- A sample that is not empty has a size to divide by. -/
theorem length_ne_zero (h : xs≠[]) : (xs.length : K)≠0 := by
  simpa using h

/-- The squared deviations by the sums of the numbers and of their squares. -/
theorem deviations_eq (h : xs≠[]) :
    deviations xs=(xs.map (·^2)).sum-xs.sum^2/xs.length := by
  have hn := length_ne_zero h
  rw [deviations,sum_sq_sub,mean]
  field_simp
  ring

/-- The mean of one number more. -/
theorem mean_append (h : xs≠[]) (x : K) :
    mean (xs++[x])=mean xs+(x-mean xs)/(xs.length+1) := by
  have hn := length_ne_zero h
  have hsucc : (xs.length : K)+1≠0 := Nat.cast_add_one_ne_zero _
  simp only [mean,List.sum_append,List.sum_singleton,List.length_append,List.length_singleton,
    Nat.cast_add,Nat.cast_one]
  field_simp
  ring

/-- The squared deviations of one number more. -/
theorem deviations_append (h : xs≠[]) (x : K) :
    deviations (xs++[x])=deviations xs+xs.length*(x-mean xs)^2/(xs.length+1) := by
  have hn := length_ne_zero h
  have hsucc : (xs.length : K)+1≠0 := Nat.cast_add_one_ne_zero _
  rw [deviations_eq h,deviations_eq (by simp),mean]
  simp only [List.map_append,List.map_singleton,List.sum_append,List.sum_singleton,
    List.length_append,List.length_singleton,Nat.cast_add,Nat.cast_one]
  field_simp
  ring

/-- The variance of one number more. -/
theorem sampleVariance_append (h : xs≠[]) (x : K) :
    sampleVariance (xs++[x])=
      sampleVariance xs*((xs.length-1)/xs.length)+(x-mean xs)^2/(xs.length+1) := by
  have hn := length_ne_zero h
  have hpos : 0 < xs.length := List.length_pos_iff.mpr h
  have hlong : ¬(xs++[x]).length≤1 := by
    simp only [List.length_append,List.length_singleton]
    omega
  have hsize : ((xs++[x]).length : K)-1=xs.length := by simp
  have hsucc : (xs.length : K)+1≠0 := Nat.cast_add_one_ne_zero _
  rw [sampleVariance,if_neg hlong,deviations_append h,hsize,sampleVariance]
  split
  · next hone =>
    rw [deviations_of_length_one (by omega)]
    field_simp
    ring
  · next htwo =>
    have hpred : (xs.length : K)-1≠0 := by
      have hne : (xs.length : K)≠(1 : ℕ) := Nat.cast_injective.ne (by omega)
      rw [Nat.cast_one] at hne
      exact sub_ne_zero.mpr hne
    field_simp

end Appending

section Order

variable {xs ys : List K}

/-- The mean does not depend on the order. -/
theorem mean_perm (h : xs.Perm ys) : mean xs=mean ys := by
  rw [mean,mean,h.sum_eq,h.length_eq]

/-- Nor does the variance. -/
theorem sampleVariance_perm (h : xs.Perm ys) : sampleVariance xs=sampleVariance ys := by
  have hdev : deviations xs=deviations ys := by
    rw [deviations,deviations,mean_perm h]
    exact (h.map _).sum_eq
  rw [sampleVariance,sampleVariance,h.length_eq,hdev]

/-- A variance is never negative. -/
theorem sampleVariance_nonneg [LinearOrder K] [IsStrictOrderedRing K] (xs : List K) :
    0 ≤ sampleVariance xs := by
  unfold sampleVariance
  split
  · exact le_refl 0
  · next htwo =>
    have hdev : 0≤deviations xs := by
      refine List.sum_nonneg fun y hy => ?_
      obtain ⟨x,_,rfl⟩ := List.mem_map.mp hy
      exact sq_nonneg _
    have hsize : (1 : K)≤xs.length := Nat.one_le_cast.mpr (by omega)
    exact div_nonneg hdev (sub_nonneg.mpr hsize)

end Order

end TrustAlloc.SampleStatistics
