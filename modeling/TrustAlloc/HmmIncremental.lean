import TrustAlloc.Hmm
import TrustAlloc.TrustModels

/-!
# The incremental model keeps a filter

The capability values of the incremental model are a hidden Markov model whose
initial vector is overwritten with each observation, and whether there was none
so far. After any updates that vector is the distribution of the hidden state
given the observations. The trust value weighs it as if the next observation
came from the same state, without the transition in between.
-/

namespace TrustAlloc.HmmIncremental

open Calculations HiddenMarkov Hmm TrustModels

/-- `edge_capability_tm_t` of the incremental model, for numbers of some kind. -/
structure EdgeCapabilityTm (F : Type) where
  /-- The model, filtered so far. -/
  hmm : HmmT F
  /-- Nothing was observed. -/
  first : Bool

/-- `edge_capability_tm_init`. -/
def edgeCapabilityTmInit : EdgeCapabilityTm ℚ := ⟨hmmInitDefault,true⟩

section Updates

variable (tm : EdgeCapabilityTm ℚ)

/-- `calculate_trust_value`. -/
def calculateTrustValue : ℚ := hmmOneObservationProbability tm.hmm .taskResultQualityCorrect

/-- An observation, which is not the first one afterwards. -/
def observe (ob : HmmObservation) : Calculation (EdgeCapabilityTm ℚ) := do
  let hmm ← hmmUpdate tm.hmm ob tm.first
  return ⟨hmm,false⟩

/-- `tm_update_task_submission`. -/
def tmUpdateTaskSubmission (info : TaskSubmissionInfo) : Calculation (EdgeCapabilityTm ℚ) :=
  let good := tmTaskSubmissionGood info
  if good.2=false then return tm
  else if good.1=false then observe tm .taskSubmissionAckTimedout
  else return tm

/-- `tm_update_task_result`. -/
def tmUpdateTaskResult (info : TaskResultInfo) : Calculation (EdgeCapabilityTm ℚ) :=
  if info≠.success then observe tm .taskResponseTimedout else return tm

/-- `tm_update_result_quality`. -/
def tmUpdateResultQuality (good : Bool) : Calculation (EdgeCapabilityTm ℚ) :=
  if good then observe tm .taskResultQualityCorrect
  else observe tm .taskResultQualityIncorrect

/-- `tm_update_challenge_response`, for the capability that it finds. -/
def tmUpdateChallengeResponse (info : ChallengeResponseInfo) : Calculation (EdgeCapabilityTm ℚ) :=
  let good := tmChallengeResponseGood info
  if good.2=false then return tm else tmUpdateResultQuality tm good.1

end Updates

/-- What the applications tell the model about a capability. -/
inductive TmUpdate where
  /-- Outcome of a submission. -/
  | taskSubmission (info : TaskSubmissionInfo)
  /-- Outcome of a task. -/
  | taskResult (info : TaskResultInfo)
  /-- Quality of a result. -/
  | resultQuality (good : Bool)
  /-- Outcome of a challenge. -/
  | challengeResponse (info : ChallengeResponseInfo)
  deriving DecidableEq

/-- Update the values of the capability. -/
def TmUpdate.apply (tm : EdgeCapabilityTm ℚ) : TmUpdate → Calculation (EdgeCapabilityTm ℚ)
  | .taskSubmission info => tmUpdateTaskSubmission tm info
  | .taskResult info => tmUpdateTaskResult tm info
  | .resultQuality good => tmUpdateResultQuality tm good
  | .challengeResponse info => tmUpdateChallengeResponse tm info

/-- What an update observes, if anything. A good submission and a good result
are no observations; the quality of the result is. -/
def TmUpdate.observation : TmUpdate → Option HmmObservation
  | .taskSubmission info =>
    if tmTaskSubmissionGood info=(false,true) then some .taskSubmissionAckTimedout else none
  | .taskResult info => if info≠.success then some .taskResponseTimedout else none
  | .resultQuality good =>
    some (if good then .taskResultQualityCorrect else .taskResultQualityIncorrect)
  | .challengeResponse info =>
    if (tmChallengeResponseGood info).2 then
      some (if (tmChallengeResponseGood info).1 then .taskResultQualityCorrect
        else .taskResultQualityIncorrect)
    else none

/-- The observations of a sequence of updates. -/
def observations (updates : List TmUpdate) : List HmmObservation :=
  updates.filterMap TmUpdate.observation

/-- The values after a sequence of updates. -/
def applyAll (tm : EdgeCapabilityTm ℚ) (updates : List TmUpdate) :
    Calculation (EdgeCapabilityTm ℚ) := updates.foldlM TmUpdate.apply tm

/-- An update makes its observation, or changes nothing. -/
theorem TmUpdate.apply_eq (tm : EdgeCapabilityTm ℚ) (update : TmUpdate) :
    update.apply tm=match update.observation with
      | some ob => observe tm ob
      | none => .ok tm := by
  cases update with
  | taskSubmission info =>
    simp only [apply,tmUpdateTaskSubmission,observation]
    cases tmTaskSubmissionGood info with
    | mk good shouldUpdate => cases good <;> cases shouldUpdate <;> rfl
  | taskResult info => cases info <;> rfl
  | resultQuality good => cases good <;> rfl
  | challengeResponse info =>
    simp only [apply,tmUpdateChallengeResponse,observation]
    cases tmChallengeResponseGood info with
    | mk good shouldUpdate => cases good <;> cases shouldUpdate <;> rfl

section Filter

variable {hmm : HmmT ℚ}

/-- The values filter the observations under a model: the parameters are the
model's, the vector is the distribution of the hidden state given the
observations, and whatever comes next is normalised with a positive sum. -/
structure FiltersObservations (hmm : HmmT ℚ) (obs : List HmmObservation)
    (tm : EdgeCapabilityTm ℚ) : Prop where
  /-- The transitions never change. -/
  trans : tm.hmm.trans=hmm.trans
  /-- The emissions never change. -/
  emission : tm.hmm.emission=hmm.emission
  /-- The flag tells whether anything was observed. -/
  first : tm.first=obs.isEmpty
  /-- The vector is the posterior of the hidden state. -/
  initial : ∀ s, tm.hmm.initial s=hmm.posterior obs s
  /-- It is a distribution. -/
  distribution : IsDistribution tm.hmm.initial
  /-- The next update divides by a positive number. -/
  scale : ∀ ob, 0 < hmmUpdateScale tm.hmm ob tm.first

variable {obs : List HmmObservation} {tm : EdgeCapabilityTm ℚ}

/-- The unnormalised values weigh the prediction with the emissions. -/
theorem hmmUpdateAlpha_eq (htrans : tm.hmm.trans=hmm.trans)
    (hemission : tm.hmm.emission=hmm.emission) (hfirst : tm.first=obs.isEmpty)
    (hinitial : ∀ s, tm.hmm.initial s=hmm.posterior obs s) (ob : HmmObservation) (s : HmmState) :
    hmmUpdateAlpha tm.hmm ob tm.first s=hmm.prediction obs s*hmm.emission s ob := by
  simp only [hmmUpdateAlpha,hfirst,hinitial,htrans,hemission,sumStates_eq,Model.prediction,
    Model.belief]
  cases obs <;> rfl

/-- What the next update divides by is the probability of its observation. -/
theorem hmmUpdateScale_eq (hh : hmm.Stochastic) (htrans : tm.hmm.trans=hmm.trans)
    (hemission : tm.hmm.emission=hmm.emission) (hfirst : tm.first=obs.isEmpty)
    (hinitial : ∀ s, tm.hmm.initial s=hmm.posterior obs s) (ob : HmmObservation) :
    hmmUpdateScale tm.hmm ob tm.first=hmm.nextProbability obs ob := by
  rw [hmmUpdateScale,sumStates_eq,hmm.nextProbability_eq (hh.jointProbability_pos obs).ne']
  exact Finset.sum_congr rfl fun s _ =>
    hmmUpdateAlpha_eq htrans hemission hfirst hinitial ob s

/-- The parameters, the flag and the posterior are all there is to filtering. -/
theorem filtersObservations_of_posterior (hh : hmm.Stochastic) (htrans : tm.hmm.trans=hmm.trans)
    (hemission : tm.hmm.emission=hmm.emission) (hfirst : tm.first=obs.isEmpty)
    (hinitial : ∀ s, tm.hmm.initial s=hmm.posterior obs s) : FiltersObservations hmm obs tm where
  trans := htrans
  emission := hemission
  first := hfirst
  initial := hinitial
  distribution := (funext hinitial : tm.hmm.initial=hmm.posterior obs) ▸ hh.posterior obs
  scale ob := by
    rw [hmmUpdateScale_eq hh htrans hemission hfirst hinitial]
    exact hh.nextProbability_pos obs ob

/-- One observation more is filtered. -/
theorem FiltersObservations.observe (hh : hmm.Stochastic) (h : FiltersObservations hmm obs tm)
    (ob : HmmObservation) :
    ∃ tm', observe tm ob=.ok tm' ∧ FiltersObservations hmm (obs++[ob]) tm' := by
  have hok := hmmUpdate_eq tm.hmm ob tm.first (h.scale ob).ne'
  refine ⟨_,by rw [HmmIncremental.observe,hok]; rfl,?_⟩
  refine filtersObservations_of_posterior hh h.trans h.emission (by simp) fun s => ?_
  rw [hmm.posterior_step (hh.jointProbability_pos obs).ne',
    ←hmmUpdateScale_eq hh h.trans h.emission h.first h.initial ob,
    ←hmmUpdateAlpha_eq h.trans h.emission h.first h.initial ob s]

/-- An update filters what it observes. -/
theorem FiltersObservations.apply (hh : hmm.Stochastic) (h : FiltersObservations hmm obs tm)
    (update : TmUpdate) : ∃ tm', update.apply tm=.ok tm' ∧
      FiltersObservations hmm (obs++observations [update]) tm' := by
  rw [update.apply_eq]
  cases hob : update.observation with
  | none => exact ⟨tm,rfl,by simpa [observations,hob] using h⟩
  | some ob => simpa [observations,hob] using h.observe hh ob

/-- Updates filter what they observe. -/
theorem FiltersObservations.applyAll (hh : hmm.Stochastic) (h : FiltersObservations hmm obs tm)
    (updates : List TmUpdate) : ∃ tm', applyAll tm updates=.ok tm' ∧
      FiltersObservations hmm (obs++observations updates) tm' := by
  induction updates generalizing obs tm with
  | nil => exact ⟨tm,rfl,by simpa [observations] using h⟩
  | cons update updates ih =>
    cases h.apply hh update with
    | intro tm' h' =>
      have hrest := ih h'.2
      rw [List.append_assoc,observations,observations,←List.filterMap_append] at hrest
      rw [HmmIncremental.applyAll,List.foldlM_cons,h'.1]
      exact hrest

/-- Before any update the values filter nothing. -/
theorem filtersObservations_started (hh : hmm.Stochastic) :
    FiltersObservations hmm [] ⟨hmm,true⟩ :=
  filtersObservations_of_posterior hh rfl rfl rfl fun _ => rfl

/-- Whatever the updates, none of them divides by zero or by a negative number,
and the values filter the observations under the model that was started with. -/
theorem applyAll_filters (hh : hmm.Stochastic) (updates : List TmUpdate) :
    ∃ tm, applyAll ⟨hmm,true⟩ updates=.ok tm ∧
      FiltersObservations hmm (observations updates) tm :=
  (filtersObservations_started hh).applyAll hh updates

/-- The values of a new capability filter a wrong result and a late one. -/
theorem applyAll_filters_default :
    ∃ tm, applyAll ⟨hmmInitDefault,true⟩ [.resultQuality false,.taskResult .timeout]=.ok tm ∧
      FiltersObservations hmmInitDefault
        (observations [.resultQuality false,.taskResult .timeout]) tm :=
  applyAll_filters stochastic_hmmInitDefault _

end Filter

section Prediction

variable {hmm : HmmT ℚ} {obs : List HmmObservation}

/-- After the updates the trust value is the probability that the next
observation is a right result, given the observations so far. -/
def PredictsNext (hmm : HmmT ℚ) (updates : List TmUpdate) : Prop :=
  ∃ tm, applyAll ⟨hmm,true⟩ updates=.ok tm ∧
    calculateTrustValue tm=hmm.nextProbability (observations updates) .taskResultQualityCorrect

/-- The hidden state is as likely to leave either state as to enter it, so that
a transition does not change its distribution. -/
def Balanced (hmm : HmmT ℚ) (obs : List HmmObservation) : Prop :=
  hmm.stateProbability obs .edgeTrustworthy*hmm.trans .edgeTrustworthy .edgeUntrustworthy=
    hmm.stateProbability obs .edgeUntrustworthy*hmm.trans .edgeUntrustworthy .edgeTrustworthy

/-- The trust value weighs the posterior with the emissions of a right result. -/
theorem FiltersObservations.calculateTrustValue_eq {tm : EdgeCapabilityTm ℚ}
    (h : FiltersObservations hmm obs tm) :
    calculateTrustValue tm=∑ s, hmm.posterior obs s*hmm.emission s .taskResultQualityCorrect := by
  rw [calculateTrustValue,hmmOneObservationProbability,sumStates_eq,h.emission]
  exact Finset.sum_congr rfl fun s _ => by rw [h.initial]

/-- The trust value is ahead of the probability of the next observation by what
a transition would move, times the difference that the states make. -/
theorem posterior_sub_next (hh : hmm.Stochastic) (hobs : obs≠[]) (ob : HmmObservation) :
    ∑ s, hmm.posterior obs s*hmm.emission s ob-hmm.nextProbability obs ob=
      (hmm.posterior obs .edgeTrustworthy*hmm.trans .edgeTrustworthy .edgeUntrustworthy-
        hmm.posterior obs .edgeUntrustworthy*hmm.trans .edgeUntrustworthy .edgeTrustworthy)*
      (hmm.emission .edgeTrustworthy ob-hmm.emission .edgeUntrustworthy ob) := by
  have htrustworthy := (hh.trans .edgeTrustworthy).total
  have huntrustworthy := (hh.trans .edgeUntrustworthy).total
  rw [sum_states] at htrustworthy huntrustworthy
  have hstay := eq_sub_of_add_eq htrustworthy
  have hleave := eq_sub_of_add_eq' huntrustworthy
  rw [hmm.nextProbability_eq (hh.jointProbability_pos obs).ne']
  simp only [sum_states,Model.prediction,hmm.belief_of_ne_nil hobs,Model.predict]
  rw [hstay,hleave]
  ring

/-- The flows of the posterior balance exactly when those of the joint
probabilities do. -/
theorem balanced_iff (hh : hmm.Stochastic) (hobs : obs≠[]) :
    Balanced hmm obs ↔
      hmm.posterior obs .edgeTrustworthy*hmm.trans .edgeTrustworthy .edgeUntrustworthy-
        hmm.posterior obs .edgeUntrustworthy*hmm.trans .edgeUntrustworthy .edgeTrustworthy=0 := by
  have hne := (hh.jointProbability_pos obs).ne'
  rw [hmm.posterior_of_ne_nil hobs,hmm.posterior_of_ne_nil hobs,sub_eq_zero,div_mul_eq_mul_div,
    div_mul_eq_mul_div,div_left_inj' hne]
  rfl

/-- The trust value is the probability of a right result next exactly before
any observation, where the states do not differ in how often results are right,
and where the transition that is left out would not change anything. -/
theorem predictsNext_iff (hh : hmm.Stochastic) (updates : List TmUpdate) :
    PredictsNext hmm updates ↔ observations updates=[] ∨
      hmm.emission .edgeTrustworthy .taskResultQualityCorrect=
        hmm.emission .edgeUntrustworthy .taskResultQualityCorrect ∨
      Balanced hmm (observations updates) := by
  have hfilters := (filtersObservations_started hh).applyAll hh updates
  rw [List.nil_append] at hfilters
  cases hfilters with
  | intro tm h =>
    have hvalue : PredictsNext hmm updates ↔
        ∑ s, hmm.posterior (observations updates) s*hmm.emission s .taskResultQualityCorrect=
          hmm.nextProbability (observations updates) .taskResultQualityCorrect := by
      simp only [PredictsNext,h.1,Except.ok.injEq,exists_eq_left',h.2.calculateTrustValue_eq]
    rw [hvalue]
    by_cases hobs : observations updates=[]
    · rw [hobs,hmm.nextProbability_eq (by simp)]
      exact ⟨fun _ => .inl rfl,fun _ => rfl⟩
    · rw [←sub_eq_zero,posterior_sub_next hh hobs,mul_eq_zero,←balanced_iff hh hobs,sub_eq_zero]
      simp only [hobs,false_or,or_comm]

/-- After a right and a wrong result the default parameters do not predict the
next one. -/
theorem predictsNext_iff_default :
    ¬PredictsNext hmmInitDefault [.resultQuality true,.resultQuality false] := fun h =>
  absurd ((predictsNext_iff stochastic_hmmInitDefault
    [.resultQuality true,.resultQuality false]).mp h) (by unfold Balanced; decide +kernel)

/-- After one right result the default parameters give the trust value 65/74,
and the next result is right with the probability 37/50. -/
theorem not_predictsNext_of_correct :
    hmmInitDefault.Stochastic ∧ ¬PredictsNext hmmInitDefault [.resultQuality true] := by
  refine ⟨stochastic_hmmInitDefault,fun h => ?_⟩
  have hcode : (applyAll ⟨hmmInitDefault,true⟩ [.resultQuality true]).map calculateTrustValue=
      .ok (65/74) := by decide +kernel
  have hnext : hmmInitDefault.nextProbability (observations [.resultQuality true])
      .taskResultQualityCorrect=37/50 := by decide +kernel
  cases h with
  | intro tm h =>
    rw [h.1,Except.map,h.2,hnext,Except.ok.injEq] at hcode
    norm_num at hcode

end Prediction

end TrustAlloc.HmmIncremental
