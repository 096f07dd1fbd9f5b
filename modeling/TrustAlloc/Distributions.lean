import TrustAlloc.SampleStatistics
import TrustAlloc.TrustValues

/-!
# Trackers of events and of values

The distributions of `distributions.c` over exact numbers. A beta distribution
counts good and bad events; its expected value and the combination of two of
them are right, its variance never is. A normal distribution keeps the mean
and the variance of the values it is given without keeping the values.
-/

namespace TrustAlloc.Distributions

open Calculations ReputationModel SampleStatistics TrustValues

section Beta

/-- `beta_dist_init`. -/
def betaDistInit (alpha beta : UInt32) : Calculation BetaDist := do
  assertThat (alpha > 0)
  assertThat (beta > 0)
  return ⟨alpha,beta⟩

/-- `beta_dist_variance`. -/
def betaDistVariance (dist : BetaDist) : Calculation ℚ :=
  let a : ℚ := dist.alpha.toNat
  let b : ℚ := dist.beta.toNat
  quotient (a*b) ((a+b)*(a+b)+(a+b+1))

/-- An event that is counted. -/
inductive BetaOp where
  /-- `beta_dist_add_good`. -/
  | addGood
  /-- `beta_dist_add_bad`. -/
  | addBad
  deriving DecidableEq

/-- Count an event. -/
def BetaOp.apply (dist : BetaDist) : BetaOp → BetaDist
  | .addGood => betaDistAddGood dist
  | .addBad => betaDistAddBad dist

/-- A distribution that has counted some events since `beta_dist_init(1, 1)`. -/
def betaTracker (ops : List BetaOp) : BetaDist := ops.foldl BetaOp.apply ⟨1,1⟩

/-- The distribution before any event is that of `beta_dist_init(1, 1)`. -/
theorem betaDistInit_one : betaDistInit 1 1=.ok (betaTracker []) := rfl

/-- Neither counter wraps. -/
def CountersFit (ops : List BetaOp) : Prop :=
  ops.count .addGood+1 < 2^32 ∧ ops.count .addBad+1 < 2^32

/-- The variance of a beta distribution. -/
def betaVariance (a b : ℚ) : ℚ := a*b/((a+b)^2*(a+b+1))

/-- A tracker is what the distribution of its events is: in its expected value,
in its variance, and combined with any other. -/
structure TracksBeta (ops : List BetaOp) : Prop where
  /-- The expected value. -/
  expected : betaDistExpected (betaTracker ops)=
    .ok ((ops.count .addGood+1 : ℚ)/(ops.count .addGood+ops.count .addBad+2))
  /-- The variance. -/
  variance : betaDistVariance (betaTracker ops)=
    .ok (betaVariance (ops.count .addGood+1) (ops.count .addBad+1))
  /-- The combination is the tracker of both sequences of events. -/
  combine : ∀ ops', betaDistCombine (betaTracker ops) (some (betaTracker ops'))=
    betaTracker (ops++ops')

/-- The counters after some events, which may wrap. -/
theorem foldl_apply (ops : List BetaOp) (dist : BetaDist) :
    ops.foldl BetaOp.apply dist=⟨dist.alpha+UInt32.ofNat (ops.count .addGood),
      dist.beta+UInt32.ofNat (ops.count .addBad)⟩ := by
  induction ops generalizing dist with
  | nil => simp
  | cons op ops ih =>
    rw [List.foldl_cons,ih]
    cases op with
    | addGood =>
      simp only [BetaOp.apply,betaDistAddGood,List.count_cons_self,UInt32.ofNat_add,
        List.count_cons_of_ne (show BetaOp.addGood≠.addBad by decide),BetaDist.mk.injEq,and_true]
      grind
    | addBad =>
      simp only [BetaOp.apply,betaDistAddBad,List.count_cons_self,UInt32.ofNat_add,
        List.count_cons_of_ne (show BetaOp.addBad≠.addGood by decide),BetaDist.mk.injEq,true_and]
      grind

/-- The counters of a tracker that do not wrap. -/
theorem toNat_betaTracker {ops : List BetaOp} (h : CountersFit ops) :
    (betaTracker ops).alpha.toNat=ops.count .addGood+1 ∧
      (betaTracker ops).beta.toNat=ops.count .addBad+1 := by
  obtain ⟨hgood,hbad⟩ := h
  rw [betaTracker,foldl_apply]
  simp only [UInt32.toNat_add,UInt32.toNat_ofNat',UInt32.toNat_one]
  omega

/-- The expected value of a tracker is that of its distribution. -/
theorem betaDistExpected_betaTracker {ops : List BetaOp} (h : CountersFit ops) :
    betaDistExpected (betaTracker ops)=
      .ok ((ops.count .addGood+1 : ℚ)/(ops.count .addGood+ops.count .addBad+2)) := by
  obtain ⟨halpha,hbeta⟩ := toNat_betaTracker h
  have hsum : (ops.count BetaOp.addGood+1+(ops.count BetaOp.addBad+1) : ℚ)=
      ops.count .addGood+ops.count .addBad+2 := by ring
  have hpos : (ops.count BetaOp.addGood+ops.count BetaOp.addBad+2 : ℚ)≠0 := by positivity
  simp only [betaDistExpected,quotient,halpha,hbeta,Nat.cast_add,Nat.cast_one,hsum,if_neg hpos]
  rfl

/-- What `beta_dist_variance` gives for a tracker: the sum of its two factors
stands in the denominator for their product. -/
theorem betaDistVariance_betaTracker {ops : List BetaOp} (h : CountersFit ops) :
    betaDistVariance (betaTracker ops)=
      .ok ((ops.count .addGood+1 : ℚ)*(ops.count .addBad+1)/
        ((ops.count .addGood+ops.count .addBad+2)^2+(ops.count .addGood+ops.count .addBad+3))) := by
  obtain ⟨halpha,hbeta⟩ := toNat_betaTracker h
  have hsum : ((ops.count BetaOp.addGood+1+(ops.count BetaOp.addBad+1))*
      (ops.count BetaOp.addGood+1+(ops.count BetaOp.addBad+1))+
      (ops.count BetaOp.addGood+1+(ops.count BetaOp.addBad+1)+1) : ℚ)=
      (ops.count .addGood+ops.count .addBad+2)^2+
        (ops.count .addGood+ops.count .addBad+3) := by ring
  have hpos : ((ops.count BetaOp.addGood+ops.count BetaOp.addBad+2)^2+
      (ops.count BetaOp.addGood+ops.count BetaOp.addBad+3) : ℚ)≠0 := by positivity
  simp only [betaDistVariance,quotient,halpha,hbeta,Nat.cast_add,Nat.cast_one,hsum,if_neg hpos]
  rfl

/-- Combined trackers are the tracker of both sequences of events, even if
counters wrap. -/
theorem betaDistCombine_betaTracker (ops ops' : List BetaOp) :
    betaDistCombine (betaTracker ops) (some (betaTracker ops'))=betaTracker (ops++ops') := by
  simp only [betaTracker,foldl_apply,betaDistCombine,List.count_append,UInt32.ofNat_add,
    BetaDist.mk.injEq]
  constructor <;> grind

/-- The product of the square of a number from two on and of its successor is
more than their sum. -/
theorem sum_lt_product {n : ℚ} (hn : 2≤n) : n^2+(n+1) < n^2*(n+1) := by
  nlinarith [sq_nonneg n]

/-- No tracker is what the distribution of its events is: however many events
it has counted, its variance is too large. -/
theorem tracksBeta_never {ops : List BetaOp} (h : CountersFit ops) : ¬TracksBeta ops := by
  intro htracks
  have hgood : (0 : ℚ)≤ops.count BetaOp.addGood := Nat.cast_nonneg _
  have hbad : (0 : ℚ)≤ops.count BetaOp.addBad := Nat.cast_nonneg _
  have hlt := sum_lt_product (n:=ops.count BetaOp.addGood+ops.count BetaOp.addBad+2) (by linarith)
  have hvariance := htracks.variance
  rw [betaDistVariance_betaTracker h,betaVariance,Except.ok.injEq] at hvariance
  have hden : (ops.count BetaOp.addGood+1+(ops.count BetaOp.addBad+1) : ℚ)^2*
      (ops.count BetaOp.addGood+1+(ops.count BetaOp.addBad+1)+1)=
      (ops.count BetaOp.addGood+ops.count BetaOp.addBad+2)^2*
        (ops.count BetaOp.addGood+ops.count BetaOp.addBad+2+1) := by ring
  have hnum : (0 : ℚ) < (ops.count BetaOp.addGood+1)*(ops.count BetaOp.addBad+1) := by positivity
  have hgap := div_lt_div_of_pos_left hnum (by positivity) hlt
  rw [hden] at hvariance
  have hthree : (ops.count BetaOp.addGood+ops.count BetaOp.addBad+2+1 : ℚ)=
      ops.count BetaOp.addGood+ops.count BetaOp.addBad+3 := by ring
  rw [hthree] at hgap hvariance
  linarith

/-- It is too large for a tracker of three good and two bad events. -/
theorem tracksBeta_never_sample :
    ¬TracksBeta [.addGood,.addBad,.addGood,.addGood,.addBad] :=
  tracksBeta_never ⟨by decide,by decide⟩

/-- A good and a bad event give two counters of two, whose distribution has the
variance 1/20, and the code gives 4/21. -/
theorem not_tracksBeta_of_two :
    CountersFit [.addGood,.addBad] ∧ ¬TracksBeta [.addGood,.addBad] := by
  refine ⟨⟨by decide,by decide⟩,fun h => ?_⟩
  have hcode : betaDistVariance (betaTracker [.addGood,.addBad])=.ok (4/21) := by decide +kernel
  have hmeant : betaVariance (([.addGood,.addBad] : List BetaOp).count .addGood+1)
      (([.addGood,.addBad] : List BetaOp).count .addBad+1)=1/20 := by decide +kernel
  have hvariance := h.variance
  rw [hcode,hmeant,Except.ok.injEq] at hvariance
  norm_num at hvariance

end Beta

section Gaussian

/-- `gaussian_dist_t`, for numbers of some kind. -/
structure GaussianDist (F : Type) where
  /-- Mean of the values. -/
  mean : F
  /-- Variance of the values. -/
  variance : F
  /-- Number of the values. -/
  count : UInt32
  deriving DecidableEq

/-- `gaussian_dist_init_empty`. -/
def gaussianDistInitEmpty : GaussianDist ℚ := ⟨0,0,0⟩

/-- `gaussian_dist_update`. -/
def gaussianDistUpdate (dist : GaussianDist ℚ) (value : ℚ) : GaussianDist ℚ :=
  if dist.count=0 then ⟨value,0,1⟩
  else
    let newCount := dist.count+1
    let newMean := dist.mean+(value-dist.mean)/newCount.toNat
    let newVariance := dist.variance*((newCount.toNat-2)/(newCount.toNat-1))+
      (value-dist.mean)*(value-dist.mean)/newCount.toNat
    ⟨newMean,newVariance,newCount⟩

/-- A distribution that has been given some values. -/
def gaussianTracker (values : List ℚ) : GaussianDist ℚ :=
  values.foldl gaussianDistUpdate gaussianDistInitEmpty

/-- A tracker has the size, the mean and the variance of a sample. -/
structure TracksSample (values : List ℚ) (dist : GaussianDist ℚ) : Prop where
  /-- The number of values. -/
  count : dist.count.toNat=values.length
  /-- Their mean. -/
  mean : dist.mean=mean values
  /-- Their variance. -/
  variance : dist.variance=sampleVariance values

/-- The first value. -/
theorem tracksSample_first {dist : GaussianDist ℚ} (hcount : dist.count=0) (value : ℚ) :
    TracksSample [value] (gaussianDistUpdate dist value) := by
  rw [gaussianDistUpdate,if_pos hcount]
  exact ⟨rfl,by simp [SampleStatistics.mean],by simp [sampleVariance]⟩

/-- One value more, as long as the counter does not wrap. -/
theorem TracksSample.update {values : List ℚ} {dist : GaussianDist ℚ}
    (h : TracksSample values dist) (hne : values≠[]) (hfit : values.length+1 < 2^32) (value : ℚ) :
    TracksSample (values++[value]) (gaussianDistUpdate dist value) := by
  have hpos : 0 < values.length := List.length_pos_iff.mpr hne
  have hcount : dist.count≠0 := by
    intro hzero
    have hlen := h.count
    rw [hzero,UInt32.toNat_zero] at hlen
    omega
  have hsucc : (dist.count+1).toNat=values.length+1 := by
    rw [UInt32.toNat_add,h.count,UInt32.toNat_one]
    omega
  rw [gaussianDistUpdate,if_neg hcount]
  constructor
  · dsimp only
    rw [hsucc,List.length_append,List.length_singleton]
  · dsimp only
    rw [mean_append hne,hsucc,h.mean,Nat.cast_add,Nat.cast_one]
  · have hpred : ((values.length+1 : ℕ) : ℚ)-2=values.length-1 := by
      push_cast
      ring
    have hsize : ((values.length+1 : ℕ) : ℚ)-1=values.length := by
      push_cast
      ring
    dsimp only
    rw [sampleVariance_append hne,hsucc,h.mean,h.variance,hpred,hsize,Nat.cast_add,Nat.cast_one,
      pow_two]

/-- Whatever values a tracker is given, it has their size, mean and variance. -/
theorem tracksSample_gaussianTracker {values : List ℚ} (hne : values≠[])
    (hfit : values.length < 2^32) : TracksSample values (gaussianTracker values) := by
  induction values using List.reverseRecOn with
  | nil => exact absurd rfl hne
  | append_singleton values value ih =>
    rw [List.length_append,List.length_singleton] at hfit
    rw [gaussianTracker,List.foldl_append,List.foldl_cons,List.foldl_nil]
    by_cases hempty : values=[]
    · rw [hempty]
      exact tracksSample_first rfl value
    · exact (ih hempty (by omega)).update hempty hfit value

/-- A tracker has the size, the mean and the variance of the values it was
given, in whatever order they came, and its variance is not negative. -/
theorem gaussianTracker_exact {values : List ℚ} (hne : values≠[]) (hfit : values.length < 2^32) :
    TracksSample values (gaussianTracker values) ∧ 0≤(gaussianTracker values).variance ∧
      ∀ values', values.Perm values' → gaussianTracker values'=gaussianTracker values := by
  have htracks := tracksSample_gaussianTracker hne hfit
  refine ⟨htracks,?_,fun values' hperm => ?_⟩
  · rw [htracks.variance]
    exact sampleVariance_nonneg values
  · have hne' : values'≠[] := by
      intro hnil
      rw [hnil] at hperm
      exact hne hperm.eq_nil
    have htracks' := tracksSample_gaussianTracker hne' (by rw [←hperm.length_eq]; exact hfit)
    have hcount : (gaussianTracker values').count=(gaussianTracker values).count := by
      rw [←UInt32.toNat_inj,htracks.count,htracks'.count,hperm.length_eq]
    have hmean : (gaussianTracker values').mean=(gaussianTracker values).mean := by
      rw [htracks.mean,htracks'.mean,mean_perm hperm]
    have hvariance : (gaussianTracker values').variance=(gaussianTracker values).variance := by
      rw [htracks.variance,htracks'.variance,sampleVariance_perm hperm]
    cases hleft : gaussianTracker values'
    cases hright : gaussianTracker values
    simp_all

/-- Three values have the mean 4 and the variance 7. -/
theorem gaussianTracker_exact_sample :
    TracksSample [2,3,7] (gaussianTracker [2,3,7]) ∧ 0≤(gaussianTracker [2,3,7]).variance ∧
      ∀ values', [2,3,7].Perm values' → gaussianTracker values'=gaussianTracker [2,3,7] :=
  gaussianTracker_exact (by simp) (by decide)

end Gaussian

end TrustAlloc.Distributions
