import Mathlib.Algebra.Field.Rat
import Mathlib.Algebra.Order.Ring.Rat
import Mathlib.Tactic.NormNum
import TrustAlloc.Calculations
import TrustAlloc.HiddenMarkov

/-!
# The model of an edge's behaviour

The hidden Markov model of `hmm.c` and its update after an observation. The
update keeps the filtered distribution of the hidden state in the place of the
initial one, divided by the sum that it is normalised with.
-/

namespace TrustAlloc.Hmm

open Calculations HiddenMarkov

/-- `hmm_states_t`. -/
inductive HmmState where
  /-- The edge behaves well. -/
  | edgeTrustworthy
  /-- The edge behaves badly. -/
  | edgeUntrustworthy
  deriving DecidableEq

/-- `hmm_observations_t`, with four observations. -/
inductive HmmObservation where
  /-- A task was not acknowledged in time. -/
  | taskSubmissionAckTimedout
  /-- No result arrived in time. -/
  | taskResponseTimedout
  /-- A result was wrong. -/
  | taskResultQualityIncorrect
  /-- A result was right. -/
  | taskResultQualityCorrect
  deriving DecidableEq

/-- `hmm_t`, for numbers of some kind. -/
abbrev HmmT (F : Type) := Model HmmState HmmObservation F

/-- The states in the order in which the loops visit them. -/
def hmmStates : List HmmState := [.edgeTrustworthy,.edgeUntrustworthy]

/-- The observations in the order in which the loops visit them. -/
def hmmObservations : List HmmObservation :=
  [.taskSubmissionAckTimedout,.taskResponseTimedout,.taskResultQualityIncorrect,
    .taskResultQualityCorrect]

/-- The states are what the loops visit. -/
instance fintypeHmmState : Fintype HmmState where
  elems := {.edgeTrustworthy,.edgeUntrustworthy}
  complete s := by cases s <;> simp

/-- The number of an observation. -/
def HmmObservation.number : HmmObservation → UInt8
  | .taskSubmissionAckTimedout => 0
  | .taskResponseTimedout => 1
  | .taskResultQualityIncorrect => 2
  | .taskResultQualityCorrect => 3

/-- A sum that a loop over the states accumulates. -/
def sumStates (f : HmmState → ℚ) : ℚ := hmmStates.foldl (fun c s => c+f s) 0

/-- A sum over the states has two terms. -/
theorem sum_states {K : Type} [AddCommMonoid K] (f : HmmState → K) :
    ∑ s, f s=f .edgeTrustworthy+f .edgeUntrustworthy := by
  change ∑ s∈{HmmState.edgeTrustworthy,HmmState.edgeUntrustworthy}, f s=_
  rw [Finset.sum_pair (by decide)]

/-- A loop over the states sums over all of them. -/
@[simp] theorem sumStates_eq (f : HmmState → ℚ) : sumStates f=∑ s, f s := by
  rw [sum_states]
  change 0+f .edgeTrustworthy+f .edgeUntrustworthy=_
  rw [zero_add]

/-- A loop that works out something for every state. -/
def eachState {m : Type → Type} [Monad m] {α : Type} (f : HmmState → m α) : m (HmmState → α) := do
  let trustworthy ← f .edgeTrustworthy
  let untrustworthy ← f .edgeUntrustworthy
  return fun
    | .edgeTrustworthy => trustworthy
    | .edgeUntrustworthy => untrustworthy

/-- Nothing fails when nothing fails for any state. -/
theorem eachState_ok {ε α : Type} {f : HmmState → Except ε α} {v : HmmState → α}
    (h : ∀ s, f s=.ok (v s)) : eachState f=.ok v := by
  rw [eachState,h,h]
  change Except.ok _=Except.ok v
  congr 1
  funext s
  cases s <;> rfl

/-- A failure for the first state is one of the loop. -/
theorem eachState_error {ε α : Type} {f : HmmState → Except ε α} {e : ε}
    (h : f .edgeTrustworthy=.error e) : eachState f=.error e := by
  rw [eachState,h]
  rfl

section Default

/-- `PR_GOOD_GIVEN_TRUSTWORTHY`. -/
def prGoodGivenTrustworthy : ℚ := 9/10

/-- `PR_BAD_GIVEN_UNTRUSTWORTHY`. -/
def prBadGivenUntrustworthy : ℚ := 9/10

/-- `NUM_BAD_OBSERVATIONS`. -/
def numBadObservations : ℚ := hmmObservations.length-1

/-- `hmm_init_default`. -/
def hmmInitDefault : HmmT ℚ where
  initial
    | .edgeTrustworthy => 8/10
    | .edgeUntrustworthy => 2/10
  trans
    | .edgeTrustworthy,.edgeTrustworthy => 8/10
    | .edgeTrustworthy,.edgeUntrustworthy => 2/10
    | .edgeUntrustworthy,.edgeTrustworthy => 8/10
    | .edgeUntrustworthy,.edgeUntrustworthy => 2/10
  emission i j :=
    let goodState := decide (i=.edgeTrustworthy)
    let goodObs := decide (j=.taskResultQualityCorrect)
    if goodState then
      if goodObs then prGoodGivenTrustworthy
      else (1-prGoodGivenTrustworthy)/numBadObservations
    else if goodObs then 1-prBadGivenUntrustworthy
    else prBadGivenUntrustworthy/numBadObservations

/-- The default parameters are probabilities. -/
theorem stochastic_hmmInitDefault : hmmInitDefault.Stochastic where
  initial := ⟨fun s => by cases s <;> norm_num [hmmInitDefault],by
    norm_num [sum_states,hmmInitDefault]⟩
  trans s := ⟨fun s' => by cases s <;> cases s' <;> norm_num [hmmInitDefault],by
    cases s <;> norm_num [sum_states,hmmInitDefault]⟩
  emission s o := by cases s <;> cases o <;> decide +kernel

end Default

section Update

variable (hmm : HmmT ℚ) (ob : HmmObservation) (first : Bool)

/-- `hmm_one_observation_probability`. -/
def hmmOneObservationProbability : ℚ := sumStates fun i => hmm.initial i*hmm.emission i ob

/-- The values of `alpha` in `hmm_update` before they are normalised. -/
def hmmUpdateAlpha (s1 : HmmState) : ℚ :=
  (if first then hmm.initial s1 else sumStates fun s2 => hmm.initial s2*hmm.trans s2 s1)*
    hmm.emission s1 ob

/-- The value of `c` that `hmm_update` divides by. -/
def hmmUpdateScale : ℚ := sumStates (hmmUpdateAlpha hmm ob first)

/-- `hmm_update`. -/
def hmmUpdate : Calculation (HmmT ℚ) := do
  let c := hmmUpdateScale hmm ob first
  let alpha ← eachState fun s1 => quotient (hmmUpdateAlpha hmm ob first s1) c
  return {hmm with initial := alpha}

/-- Without a division by zero the update is the quotient of the values. -/
theorem hmmUpdate_eq (hc : hmmUpdateScale hmm ob first≠0) :
    hmmUpdate hmm ob first=.ok {hmm with
      initial := fun s => hmmUpdateAlpha hmm ob first s/hmmUpdateScale hmm ob first} := by
  have halpha : ∀ s1, quotient (hmmUpdateAlpha hmm ob first s1) (hmmUpdateScale hmm ob first)=
      .ok (hmmUpdateAlpha hmm ob first s1/hmmUpdateScale hmm ob first) := by
    intro s1
    rw [quotient,if_neg hc]
    rfl
  rw [hmmUpdate,eachState_ok halpha]
  rfl

end Update

end TrustAlloc.Hmm
