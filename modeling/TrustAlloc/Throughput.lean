import TrustAlloc.Distributions

/-!
# How good a throughput is

The throughput of an edge in both directions against the thresholds of an
application, as the model `throughput` judges it. The lesser of the two shares
is wanted. The branches compare one mean with a multiple of the other, and the
ratio of the thresholds is taken between integers; where what is cut off lies
between the two means, the greater share is returned.
-/

namespace TrustAlloc.Throughput

open Calculations TrustAlloc.Distributions ReputationModel

/-- `trust_throughput_threshold_t` without its list link. -/
structure TrustThroughputThreshold where
  /-- Name of the application. -/
  applicationName : List UInt8
  /-- Bytes per second from the edge that are enough. -/
  inThreshold : UInt32
  /-- Bytes per second to the edge that are enough. -/
  outThreshold : UInt32
  deriving DecidableEq

/-- `trust_throughput_thresholds_find`. -/
def trustThroughputThresholdsFind (l : List TrustThroughputThreshold)
    (applicationName : List UInt8) : Option TrustThroughputThreshold :=
  l.find? fun threshold => decide (threshold.applicationName=applicationName)

/-- `edge_capability_tm_t` of the model. -/
structure EdgeCapabilityTm (F : Type) where
  /-- Whether results were correct. -/
  resultQuality : BetaDist
  /-- Throughput from the edge. -/
  throughputIn : GaussianDist F
  /-- Throughput to the edge. -/
  throughputOut : GaussianDist F

/-- `goodness_of_throughput`, for a capability of the given name. -/
def goodnessOfThroughput (l : List TrustThroughputThreshold) (name : List UInt8)
    (tm : EdgeCapabilityTm ℚ) : Calculation ℚ :=
  let inDist := tm.throughputIn
  let outDist := tm.throughputOut
  match trustThroughputThresholdsFind l name with
  | none => throw .assertionFailed
  | some info =>
    let inThreshold : ℚ := info.inThreshold.toNat
    let outThreshold : ℚ := info.outThreshold.toNat
    if inDist.count=0 ∧ outDist.count=0 then return 1
    else if inDist.count=0 ∧ outDist.count > 0 then
      if outDist.mean < outThreshold then return 0 else return 1
    else if inDist.mean≥inThreshold ∧ outDist.mean≥outThreshold then return 1
    -- the quotient of the thresholds is one of integers
    else if inDist.mean < inThreshold ∧
        outDist.mean > ((info.outThreshold/info.inThreshold).toNat : ℚ)*inDist.mean then
      quotient inDist.mean inThreshold
    else quotient outDist.mean outThreshold

/-- The lesser of the two shares, and at most one. -/
def lesserShare (info : TrustThroughputThreshold) (tm : EdgeCapabilityTm ℚ) : ℚ :=
  min 1 (min (tm.throughputIn.mean/info.inThreshold.toNat)
    (tm.throughputOut.mean/info.outThreshold.toNat))

/-- Something was measured in both directions. -/
structure Measured (tm : EdgeCapabilityTm ℚ) : Prop where
  /-- From the edge. -/
  inCount : 0 < tm.throughputIn.count
  /-- To the edge. -/
  outCount : 0 < tm.throughputOut.count
  /-- From the edge. -/
  inMean : 0≤tm.throughputIn.mean
  /-- To the edge. -/
  outMean : 0≤tm.throughputOut.mean

/-- Neither mean is less. -/
structure NoSlower (tm tm' : EdgeCapabilityTm ℚ) : Prop where
  /-- From the edge. -/
  inMean : tm.throughputIn.mean≤tm'.throughputIn.mean
  /-- To the edge. -/
  outMean : tm.throughputOut.mean≤tm'.throughputOut.mean

/-- A throughput is as good as the lesser of its shares, which is a share of
one, and none that is no slower is less good. -/
structure GoodnessExact (l : List TrustThroughputThreshold) (name : List UInt8)
    (info : TrustThroughputThreshold) (tm : EdgeCapabilityTm ℚ) : Prop where
  /-- The goodness. -/
  exact : goodnessOfThroughput l name tm=.ok (lesserShare info tm)
  /-- It is a share of one. -/
  share : Share 1 (lesserShare info tm)
  /-- It does not decrease. -/
  monotone : ∀ tm', Measured tm' → NoSlower tm tm' →
    ∃ g, goodnessOfThroughput l name tm'=.ok g ∧ lesserShare info tm≤g

/-- The mean in one direction is below its threshold, and that in the other
lies between the multiples of it that the integer quotient of the thresholds
and their ratio make. -/
def InGap (info : TrustThroughputThreshold) (tm : EdgeCapabilityTm ℚ) : Prop :=
  tm.throughputIn.mean < info.inThreshold.toNat ∧
  ((info.outThreshold.toNat/info.inThreshold.toNat : ℕ) : ℚ)*tm.throughputIn.mean <
    tm.throughputOut.mean ∧
  tm.throughputOut.mean*info.inThreshold.toNat <
    info.outThreshold.toNat*tm.throughputIn.mean

/-- The gap is decided. -/
instance decidableInGap (info : TrustThroughputThreshold) (tm : EdgeCapabilityTm ℚ) :
    Decidable (InGap info tm) := inferInstanceAs (Decidable (_ ∧ _))

section Goodness

/-- What the branches give for a throughput that was measured in both directions. -/
def measuredGoodness (info : TrustThroughputThreshold) (tm : EdgeCapabilityTm ℚ) : ℚ :=
  if (info.inThreshold.toNat : ℚ)≤tm.throughputIn.mean ∧
      (info.outThreshold.toNat : ℚ)≤tm.throughputOut.mean then 1
  else if tm.throughputIn.mean < info.inThreshold.toNat ∧
      ((info.outThreshold.toNat/info.inThreshold.toNat : ℕ) : ℚ)*tm.throughputIn.mean <
        tm.throughputOut.mean then tm.throughputIn.mean/info.inThreshold.toNat
  else tm.throughputOut.mean/info.outThreshold.toNat

variable {l : List TrustThroughputThreshold} {name : List UInt8} {info : TrustThroughputThreshold}
  {tm tm' : EdgeCapabilityTm ℚ}

/-- A threshold to divide by. -/
theorem threshold_pos {threshold : UInt32} (h : 0 < threshold) : (0 : ℚ) < threshold.toNat := by
  have hnat : 0 < threshold.toNat := UInt32.lt_iff_toNat_lt.mp h
  exact_mod_cast hnat

/-- The goodness of a throughput that was measured in both directions. -/
theorem goodnessOfThroughput_measured (hinfo : trustThroughputThresholdsFind l name=some info)
    (hin : 0 < info.inThreshold) (hout : 0 < info.outThreshold) (hm : Measured tm) :
    goodnessOfThroughput l name tm=.ok (measuredGoodness info tm) := by
  have hcount : tm.throughputIn.count≠0 := by
    have hpos := UInt32.lt_iff_toNat_lt.mp hm.inCount
    intro hzero
    rw [hzero] at hpos
    omega
  have hinPos := (threshold_pos hin).ne'
  have houtPos := (threshold_pos hout).ne'
  simp only [goodnessOfThroughput,hinfo,hcount,false_and,if_false,measuredGoodness,ge_iff_le,
    gt_iff_lt,UInt32.toNat_div,quotient,if_neg hinPos,if_neg houtPos]
  split_ifs <;> rfl

/-- The multiple that the integer quotient of the thresholds makes is no more
than that of their ratio. -/
theorem quotient_mul_le (info : TrustThroughputThreshold) {x : ℚ} (hx : 0≤x) :
    ((info.outThreshold.toNat/info.inThreshold.toNat : ℕ) : ℚ)*x*info.inThreshold.toNat≤
      info.outThreshold.toNat*x := by
  have hnat := Nat.div_mul_le_self info.outThreshold.toNat info.inThreshold.toNat
  have hcast : ((info.outThreshold.toNat/info.inThreshold.toNat : ℕ) : ℚ)*info.inThreshold.toNat≤
      info.outThreshold.toNat := by exact_mod_cast hnat
  calc ((info.outThreshold.toNat/info.inThreshold.toNat : ℕ) : ℚ)*x*info.inThreshold.toNat
      =((info.outThreshold.toNat/info.inThreshold.toNat : ℕ) : ℚ)*info.inThreshold.toNat*x := by
        ring
    _ ≤ info.outThreshold.toNat*x := mul_le_mul_of_nonneg_right hcast hx

/-- The shares are compared by multiplying with the thresholds. -/
theorem outShare_lt_iff (tm : EdgeCapabilityTm ℚ) (hin : 0 < info.inThreshold)
    (hout : 0 < info.outThreshold) :
    tm.throughputOut.mean/info.outThreshold.toNat < tm.throughputIn.mean/info.inThreshold.toNat ↔
      tm.throughputOut.mean*info.inThreshold.toNat <
        info.outThreshold.toNat*tm.throughputIn.mean := by
  rw [div_lt_div_iff₀ (threshold_pos hout) (threshold_pos hin),mul_comm tm.throughputIn.mean]

/-- In the last branch the share to the edge is not above the others. -/
theorem outShare_le (hin : 0 < info.inThreshold) (hout : 0 < info.outThreshold)
    (hm : Measured tm)
    (hnot : ¬(info.inThreshold.toNat≤tm.throughputIn.mean ∧
      info.outThreshold.toNat≤tm.throughputOut.mean))
    (hfast : ¬(tm.throughputIn.mean < info.inThreshold.toNat ∧
      ((info.outThreshold.toNat/info.inThreshold.toNat : ℕ) : ℚ)*tm.throughputIn.mean <
        tm.throughputOut.mean)) :
    tm.throughputOut.mean/info.outThreshold.toNat≤1 ∧
      tm.throughputOut.mean/info.outThreshold.toNat≤
        tm.throughputIn.mean/info.inThreshold.toNat := by
  have ha := threshold_pos hin
  have hb := threshold_pos hout
  by_cases hslow : tm.throughputIn.mean < info.inThreshold.toNat
  · -- then the mean to the edge is at most the multiple with the integer quotient
    have hmultiple : tm.throughputOut.mean≤
        ((info.outThreshold.toNat/info.inThreshold.toNat : ℕ) : ℚ)*tm.throughputIn.mean :=
      not_lt.mp fun h => hfast ⟨hslow,h⟩
    have hshare : tm.throughputOut.mean/info.outThreshold.toNat≤
        tm.throughputIn.mean/info.inThreshold.toNat := by
      rw [div_le_div_iff₀ hb ha,mul_comm tm.throughputIn.mean]
      exact (mul_le_mul_of_nonneg_right hmultiple ha.le).trans (quotient_mul_le info hm.inMean)
    exact ⟨hshare.trans ((div_lt_one ha).mpr hslow).le,hshare⟩
  · have hone := (one_le_div ha).mpr (not_lt.mp hslow)
    have hbelow : tm.throughputOut.mean < info.outThreshold.toNat :=
      not_le.mp fun h => hnot ⟨not_lt.mp hslow,h⟩
    have hshare := ((div_lt_one hb).mpr hbelow).le
    exact ⟨hshare,hshare.trans hone⟩

/-- The branches give the lesser share outside of the gap, and in it more. -/
theorem measuredGoodness_cases (hin : 0 < info.inThreshold) (hout : 0 < info.outThreshold)
    (hm : Measured tm) :
    (¬InGap info tm ∧ measuredGoodness info tm=lesserShare info tm) ∨
      (InGap info tm ∧ lesserShare info tm < measuredGoodness info tm) := by
  have ha := threshold_pos hin
  have hb := threshold_pos hout
  have hlt := outShare_lt_iff tm hin hout
  unfold measuredGoodness lesserShare InGap
  split
  · next hboth =>
    -- both shares are at least one
    have hinShare := (one_le_div ha).mpr hboth.1
    have houtShare := (one_le_div hb).mpr hboth.2
    refine Or.inl ⟨fun hgap => absurd hgap.1 (not_lt.mpr hboth.1),?_⟩
    rw [min_eq_left (le_min hinShare houtShare)]
  · next hnot =>
    split
    · next hslow =>
      have hinShare := ((div_lt_one ha).mpr hslow.1).le
      by_cases hless : tm.throughputOut.mean*info.inThreshold.toNat <
          info.outThreshold.toNat*tm.throughputIn.mean
      · exact Or.inr ⟨⟨hslow.1,hslow.2,hless⟩,
          lt_of_le_of_lt ((min_le_right _ _).trans (min_le_right _ _)) (hlt.mpr hless)⟩
      · have hshare := not_lt.mp fun h => hless (hlt.mp h)
        refine Or.inl ⟨fun hgap => hless hgap.2.2,?_⟩
        rw [min_eq_left hshare,min_eq_right hinShare]
    · next hfast =>
      have hshares := outShare_le hin hout hm hnot hfast
      refine Or.inl ⟨fun hgap => hfast ⟨hgap.1,hgap.2.1⟩,?_⟩
      rw [min_eq_right hshares.2,min_eq_right hshares.1]

/-- The lesser share is a share of one. -/
theorem share_lesserShare (info : TrustThroughputThreshold) (hm : Measured tm) :
    Share 1 (lesserShare info tm) :=
  ⟨le_min zero_le_one (le_min (div_nonneg hm.inMean (Nat.cast_nonneg _))
    (div_nonneg hm.outMean (Nat.cast_nonneg _))),min_le_left _ _⟩

/-- It does not decrease. -/
theorem lesserShare_mono (info : TrustThroughputThreshold) (h : NoSlower tm tm') :
    lesserShare info tm≤lesserShare info tm' :=
  min_le_min_left 1 (min_le_min (div_le_div_of_nonneg_right h.inMean (Nat.cast_nonneg _))
    (div_le_div_of_nonneg_right h.outMean (Nat.cast_nonneg _)))

/-- A throughput is judged right exactly outside of the gap. -/
theorem goodnessExact_iff (hinfo : trustThroughputThresholdsFind l name=some info)
    (hin : 0 < info.inThreshold) (hout : 0 < info.outThreshold) (hm : Measured tm) :
    GoodnessExact l name info tm ↔ ¬InGap info tm := by
  constructor
  · intro h hgap
    have hexact := h.exact
    rw [goodnessOfThroughput_measured hinfo hin hout hm,Except.ok.injEq] at hexact
    rcases measuredGoodness_cases hin hout hm with ⟨hno,_⟩ | ⟨_,hlt⟩
    · exact hno hgap
    · exact absurd hexact hlt.ne'
  · intro hno
    have heq : measuredGoodness info tm=lesserShare info tm := by
      rcases measuredGoodness_cases hin hout hm with ⟨_,heq⟩ | ⟨hgap,_⟩
      · exact heq
      · exact absurd hgap hno
    refine ⟨?_,share_lesserShare info hm,fun tm' hm' hslower => ?_⟩
    · rw [goodnessOfThroughput_measured hinfo hin hout hm,heq]
    · have hmono := lesserShare_mono info hslower
      refine ⟨_,goodnessOfThroughput_measured hinfo hin hout hm',?_⟩
      rcases measuredGoodness_cases hin hout hm' with ⟨_,heq'⟩ | ⟨_,hlt⟩
      · rw [heq']
        exact hmono
      · exact hmono.trans hlt.le

/-- Thresholds leave no gap for any throughput exactly if the one from the edge
divides the one to it. -/
theorem no_gap_iff (hin : 0 < info.inThreshold) :
    (∀ tm : EdgeCapabilityTm ℚ, Measured tm → ¬InGap info tm) ↔
      info.inThreshold.toNat∣info.outThreshold.toNat := by
  have ha := threshold_pos hin
  constructor
  · intro h
    by_contra hdvd
    have hle := Nat.div_mul_le_self info.outThreshold.toNat info.inThreshold.toNat
    have hne : info.outThreshold.toNat/info.inThreshold.toNat*info.inThreshold.toNat≠
        info.outThreshold.toNat := fun heq => hdvd (Dvd.intro_left _ heq)
    have hlt : ((info.outThreshold.toNat/info.inThreshold.toNat : ℕ) : ℚ)*info.inThreshold.toNat <
        info.outThreshold.toNat := by exact_mod_cast lt_of_le_of_ne hle hne
    have hk : (0 : ℚ)≤((info.outThreshold.toNat/info.inThreshold.toNat : ℕ) : ℚ) :=
      Nat.cast_nonneg _
    have hone : (0 : UInt32) < 1 := by decide
    -- half of the one threshold, and half of what lies between the multiples of it
    refine h ⟨⟨1,1⟩,⟨info.inThreshold.toNat/2,0,1⟩,
      ⟨(((info.outThreshold.toNat/info.inThreshold.toNat : ℕ) : ℚ)*info.inThreshold.toNat+
        info.outThreshold.toNat)/4,0,1⟩⟩ ⟨hone,hone,by positivity,by positivity⟩ ?_
    refine ⟨by dsimp only; linarith,by dsimp only; linarith,?_⟩
    dsimp only
    nlinarith
  · intro hdvd tm _ hgap
    have heq : ((info.outThreshold.toNat/info.inThreshold.toNat : ℕ) : ℚ)*info.inThreshold.toNat=
        info.outThreshold.toNat := by exact_mod_cast Nat.div_mul_cancel hdvd
    have habove := mul_lt_mul_of_pos_right hgap.2.1 ha
    have hbelow := hgap.2.2
    rw [←heq] at hbelow
    linarith

end Goodness

section Sample

/-- The thresholds of the routing application. -/
def routingThreshold : TrustThroughputThreshold where
  applicationName := Routing.routingApplicationName
  inThreshold := 350
  outThreshold := 100

/-- A capability with a throughput in each direction. -/
def sampleTm (inMean outMean : ℚ) : EdgeCapabilityTm ℚ := ⟨⟨1,1⟩,⟨inMean,0,1⟩,⟨outMean,0,1⟩⟩

/-- A throughput of half of each threshold is judged right. -/
theorem goodnessExact_iff_sample :
    GoodnessExact [routingThreshold] routingThreshold.applicationName routingThreshold
        (sampleTm 175 50) ↔ ¬InGap routingThreshold (sampleTm 175 50) :=
  goodnessExact_iff rfl (by decide) (by decide)
    ⟨by decide,by decide,by decide +kernel,by decide +kernel⟩

/-- An edge that takes next to nothing and sends half of what is enough is
judged by the latter: 100/350 is zero between integers. -/
theorem not_goodnessExact_of_slow_out :
    ¬GoodnessExact [routingThreshold] routingThreshold.applicationName routingThreshold
      (sampleTm 175 1) := by
  intro h
  have hcode : goodnessOfThroughput [routingThreshold] routingThreshold.applicationName
      (sampleTm 175 1)=.ok (1/2) := by decide +kernel
  have hmeant : lesserShare routingThreshold (sampleTm 175 1)=1/100 := by decide +kernel
  have hexact := h.exact
  rw [hcode,hmeant,Except.ok.injEq] at hexact
  norm_num at hexact

end Sample

end TrustAlloc.Throughput
