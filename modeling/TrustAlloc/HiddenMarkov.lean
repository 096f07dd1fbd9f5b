import Mathlib.Algebra.BigOperators.Field
import Mathlib.Algebra.BigOperators.Ring.Finset
import Mathlib.Algebra.Order.BigOperators.Ring.Finset
import Mathlib.Data.Fintype.BigOperators
import Mathlib.Tactic.FieldSimp
import Mathlib.Tactic.Linarith
import Mathlib.Tactic.Positivity
import Mathlib.Tactic.Ring

/-!
# Hidden Markov models over a finite set of states

The probability of a sequence of observations is a sum over all sequences of
hidden states. The forward variables compute it from one observation to the
next, and divided by their sum they are the distribution of the hidden state
given the observations. A model whose emissions are positive gives every
sequence a positive probability, so that the division is always possible.
-/

namespace TrustAlloc.HiddenMarkov

/-- A model with states `S` and observations `O`. -/
structure Model (S O K : Type) where
  /-- Distribution of the first hidden state. -/
  initial : S → K
  /-- Distribution of the state that follows a state. -/
  trans : S → S → K
  /-- Distribution of what is observed in a state. -/
  emission : S → O → K

variable {S O K : Type} [Fintype S]

section Paths

variable [CommSemiring K]

/-- The sum over all sequences of states of a length. -/
def pathSum : ℕ → (List S → K) → K
  | 0,f => f []
  | n+1,f => ∑ s, pathSum n fun path => f (s::path)

/-- Factors can be taken out of a sum over paths. -/
theorem pathSum_mul_left (n : ℕ) (c : K) (f : List S → K) :
    pathSum n (fun path => c*f path)=c*pathSum n f := by
  induction n generalizing f with
  | zero => rfl
  | succ n ih =>
    simp only [pathSum,ih]
    rw [Finset.mul_sum]

namespace Model

variable (h : Model S O K)

/-- The probability of a state after another one, or as the first one. -/
def enter : Option S → S → K
  | none,s => h.initial s
  | some s',s => h.trans s' s

/-- The probability of a path and of the observations along it, after a state. -/
def pathWeight (prev : Option S) : List O → List S → K
  | o::obs,s::path => h.enter prev s*h.emission s o*pathWeight (some s) obs path
  | _,_ => 1

/-- The probability of a sequence of observations. -/
def jointProbability (obs : List O) : K := pathSum obs.length (h.pathWeight none obs)

/-- The probability of a sequence of observations at whose end the model is in
the given state. -/
def stateProbability [DecidableEq S] (obs : List O) (s : S) : K :=
  pathSum obs.length fun path =>
    h.pathWeight none obs path*if path.getLast?=some s then 1 else 0

/-- The probability of the next state, given the weights of the last one if
there was one. -/
def predict (alpha : Option (S → K)) (s : S) : K :=
  match alpha with
  | none => h.initial s
  | some a => ∑ s', a s'*h.trans s' s

/-- The forward variables after one more observation. -/
def forwardStep (alpha : Option (S → K)) (o : O) : Option (S → K) :=
  some fun s => h.predict alpha s*h.emission s o

/-- The forward variables, if anything was observed. -/
def forward (obs : List O) : Option (S → K) := obs.foldl h.forwardStep none

/-- The forward variables of one observation more. -/
theorem forward_append (obs : List O) (o : O) :
    h.forward (obs++[o])=h.forwardStep (h.forward obs) o := by
  rw [forward,List.foldl_append]
  rfl

end Model

/-- The sum of the values of a function of the last state, if there was one,
weighted. -/
def weigh (alpha : Option (S → K)) (g : Option S → K) : K :=
  match alpha with
  | none => g none
  | some a => ∑ s, a s*g (some s)

/-- A weighted sum of sums. -/
theorem weigh_sum (alpha : Option (S → K)) (g : Option S → S → K) (c : S → K) :
    weigh alpha (fun prev => ∑ s, g prev s*c s)=∑ s, weigh alpha (fun prev => g prev s)*c s := by
  cases alpha with
  | none => rfl
  | some a =>
    simp only [weigh,Finset.mul_sum,Finset.sum_mul]
    rw [Finset.sum_comm]
    exact Finset.sum_congr rfl fun s _ => Finset.sum_congr rfl fun s' _ => (mul_assoc _ _ _).symm

/-- The next state is predicted by weighing the ways to enter it. -/
theorem Model.weigh_enter (h : Model S O K) (alpha : Option (S → K)) (s : S) :
    weigh alpha (fun prev => h.enter prev s)=h.predict alpha s := by
  cases alpha <;> rfl

/-- The forward variables weigh the last states of all paths. The induction is
on the observations, for all weights in front of them. -/
theorem Model.weigh_foldl (h : Model S O K) (obs : List O) (alpha : Option (S → K))
    (g : Option S → K) :
    weigh alpha (fun prev => pathSum obs.length fun path =>
      h.pathWeight prev obs path*g (path.getLast?.or prev))=
        weigh (obs.foldl h.forwardStep alpha) g := by
  induction obs generalizing alpha with
  | nil => cases alpha <;> simp [weigh,pathSum,pathWeight]
  | cons o obs ih =>
    have hlast : ∀ (s : S) (path : List S) (prev : Option S),
        (s::path).getLast?.or prev=path.getLast?.or (some s) := by
      intro s path prev
      cases path <;> simp [List.getLast?_cons]
    have hone : ∀ (prev : Option S) (s : S),
        pathSum obs.length (fun path => h.pathWeight prev (o::obs) (s::path)*
          g ((s::path).getLast?.or prev))=
        h.enter prev s*(h.emission s o*pathSum obs.length fun path =>
          h.pathWeight (some s) obs path*g (path.getLast?.or (some s))) := by
      intro prev s
      simp only [hlast,pathWeight,mul_assoc,pathSum_mul_left]
    simp only [List.length_cons,pathSum,hone]
    rw [weigh_sum,List.foldl_cons,←ih,forwardStep,weigh]
    simp only [weigh_enter,mul_assoc]

namespace Model

variable (h : Model S O K)

/-- The probability of the observations is the sum of the forward variables. -/
theorem jointProbability_eq (obs : List O) :
    h.jointProbability obs=weigh (h.forward obs) fun _ => 1 := by
  have hall := h.weigh_foldl obs none fun _ => 1
  simpa [weigh,jointProbability,forward] using hall

/-- A forward variable is the probability of the observations and of a last state. -/
theorem stateProbability_eq [DecidableEq S] (obs : List O) (s : S) :
    h.stateProbability obs s=weigh (h.forward obs) fun last => if last=some s then 1 else 0 := by
  have hall := h.weigh_foldl obs none fun last => if last=some s then 1 else 0
  simpa [weigh,stateProbability,forward] using hall

/-- Before anything is observed the probability is one. -/
@[simp] theorem jointProbability_nil : h.jointProbability []=1 := rfl

/-- One observation more weighs the predicted state with its emission. -/
theorem jointProbability_append (obs : List O) (o : O) :
    h.jointProbability (obs++[o])=∑ s, h.predict (h.forward obs) s*h.emission s o := by
  rw [jointProbability_eq,forward_append]
  simp [forwardStep,weigh]

/-- A multiple of the forward variables predicts the multiple. -/
theorem predict_mul (c : K) (a : S → K) (s : S) :
    h.predict (some fun s => c*a s) s=c*h.predict (some a) s := by
  simp only [predict,Finset.mul_sum,mul_assoc]

end Model

end Paths

section Conditional

variable [Field K] [DecidableEq S]

namespace Model

variable (h : Model S O K)

/-- The probability of an observation given those before it. -/
def nextProbability (obs : List O) (o : O) : K :=
  h.jointProbability (obs++[o])/h.jointProbability obs

/-- The distribution of the hidden state given the observations up to it. Before
any observation it is the distribution of the first state. -/
def posterior : List O → S → K
  | [] => h.initial
  | o::obs => fun s => h.stateProbability (o::obs) s/h.jointProbability (o::obs)

/-- What is known about the state of the last observation, if there was one. -/
def belief (obs : List O) : Option (S → K) := if obs.isEmpty then none else some (h.posterior obs)

/-- The distribution of the state of the next observation. -/
def prediction (obs : List O) : S → K := h.predict (h.belief obs)

/-- Once something was observed the posterior is a quotient. -/
theorem posterior_of_ne_nil {obs : List O} (hobs : obs≠[]) (s : S) :
    h.posterior obs s=h.stateProbability obs s/h.jointProbability obs := by
  cases obs with
  | nil => exact absurd rfl hobs
  | cons o obs => rfl

/-- There is a belief once something was observed. -/
theorem belief_of_ne_nil {obs : List O} (hobs : obs≠[]) : h.belief obs=some (h.posterior obs) := by
  cases obs with
  | nil => exact absurd rfl hobs
  | cons o obs => rfl

/-- The posterior after one observation more. -/
theorem posterior_append (obs : List O) (o : O) (s : S) :
    h.posterior (obs++[o]) s=h.predict (h.forward obs) s*h.emission s o/
      h.jointProbability (obs++[o]) := by
  have hstate : h.stateProbability (obs++[o]) s=h.predict (h.forward obs) s*h.emission s o := by
    rw [stateProbability_eq,forward_append]
    simp [forwardStep,weigh]
  rw [h.posterior_of_ne_nil (by simp),hstate]

section Possible

variable {obs : List O} (hobs : h.jointProbability obs≠0)

include hobs

/-- The forward variables are the belief, scaled by the probability of what was
observed. -/
theorem predict_forward (s : S) :
    h.predict (h.forward obs) s=h.jointProbability obs*h.prediction obs s := by
  unfold prediction
  induction obs using List.reverseRecOn with
  | nil => simp [forward,belief]
  | append_singleton obs o =>
    rw [h.belief_of_ne_nil (by simp),←predict_mul,forward_append,forwardStep]
    congr 2
    funext s'
    rw [posterior_append]
    field_simp

/-- The next observation is predicted from the belief. -/
theorem nextProbability_eq (o : O) :
    h.nextProbability obs o=∑ s, h.prediction obs s*h.emission s o := by
  rw [nextProbability,jointProbability_append,div_eq_iff hobs,Finset.sum_mul]
  refine Finset.sum_congr rfl fun s _ => ?_
  rw [predict_forward _ hobs]
  ring

/-- The posterior after one more observation is the prediction, conditioned on
the observation. -/
theorem posterior_step (o : O) (s : S) :
    h.posterior (obs++[o]) s=h.prediction obs s*h.emission s o/h.nextProbability obs o := by
  rw [posterior_append,predict_forward _ hobs,nextProbability]
  field_simp

end Possible

end Model

end Conditional

section Probability

variable [Field K] [LinearOrder K] [IsStrictOrderedRing K]

/-- The values are probabilities and add up to one. -/
structure IsDistribution (p : S → K) : Prop where
  /-- No probability is negative. -/
  nonneg : ∀ s, 0≤p s
  /-- Something happens. -/
  total : ∑ s, p s=1

namespace IsDistribution

variable {p : S → K} {w : S → K} (hp : IsDistribution p) (hw : ∀ s, 0 < w s)

include hp hw

/-- Positive weights have a positive mean. -/
theorem weighted_pos : 0 < ∑ s, p s*w s := by
  have hnonneg : ∀ s∈Finset.univ, 0≤p s*w s := fun s _ => mul_nonneg (hp.nonneg s) (hw s).le
  have hsome : ∃ s, p s≠0 := by
    by_contra hnone
    have hzero : ∑ s, p s=0 := Finset.sum_eq_zero fun s _ => by
      by_contra hs
      exact hnone ⟨s,hs⟩
    rw [hp.total] at hzero
    exact one_ne_zero hzero
  cases hsome with
  | intro s hs =>
    have hpos : 0 < p s := lt_of_le_of_ne (hp.nonneg s) (Ne.symm hs)
    exact Finset.sum_pos' hnonneg ⟨s,Finset.mem_univ s,mul_pos hpos (hw s)⟩

/-- Weighting with positive weights and normalising gives a distribution. -/
theorem conditioned : IsDistribution fun s => p s*w s/∑ s', p s'*w s' where
  nonneg s := div_nonneg (mul_nonneg (hp.nonneg s) (hw s).le) (hp.weighted_pos hw).le
  total := by
    rw [←Finset.sum_div]
    exact div_self (hp.weighted_pos hw).ne'

end IsDistribution

namespace Model

/-- The parameters are distributions, and whatever can be observed can be
observed in every state. -/
structure Stochastic (h : Model S O K) : Prop where
  /-- The first state has a distribution. -/
  initial : IsDistribution h.initial
  /-- Each state has a distribution of what follows it. -/
  trans : ∀ s, IsDistribution (h.trans s)
  /-- No observation rules a state out. -/
  emission : ∀ s o, 0 < h.emission s o

namespace Stochastic

variable {h : Model S O K} (hh : h.Stochastic)

include hh

/-- What follows a distribution, or nothing, is a distribution. -/
theorem predict (alpha : Option (S → K)) (halpha : ∀ a, alpha=some a → IsDistribution a) :
    IsDistribution (h.predict alpha) := by
  cases alpha with
  | none => exact hh.initial
  | some a =>
    have ha := halpha a rfl
    constructor
    · intro s
      exact Finset.sum_nonneg fun s' _ => mul_nonneg (ha.nonneg s') ((hh.trans s').nonneg s)
    · simp only [Model.predict]
      rw [Finset.sum_comm]
      simp only [←Finset.mul_sum,(hh.trans _).total,mul_one]
      exact ha.total

variable [DecidableEq S]

/-- A posterior that is a distribution predicts a distribution. -/
theorem prediction_of_posterior {obs : List O} (hobs : IsDistribution (h.posterior obs)) :
    IsDistribution (h.prediction obs) := by
  refine hh.predict _ fun a ha => ?_
  unfold belief at ha
  split at ha
  · cases ha
  · cases ha
    exact hobs

/-- Whatever was observed had a positive probability, and the posterior is a
distribution. Both are carried through the same induction, as the posterior
divides by the probability. -/
theorem observed (obs : List O) :
    0 < h.jointProbability obs ∧ IsDistribution (h.posterior obs) := by
  induction obs using List.reverseRecOn with
  | nil => exact ⟨by simp,hh.initial⟩
  | append_singleton obs o ih =>
    have hprediction := hh.prediction_of_posterior ih.2
    have hnext := h.nextProbability_eq ih.1.ne' o
    constructor
    · have hpos := hprediction.weighted_pos fun s => hh.emission s o
      rw [←hnext,nextProbability] at hpos
      exact (div_pos_iff_of_pos_right ih.1).1 hpos
    · have hposterior := funext fun s => h.posterior_step ih.1.ne' o s
      rw [hposterior,hnext]
      exact hprediction.conditioned fun s => hh.emission s o

/-- Whatever was observed had a positive probability. -/
theorem jointProbability_pos (obs : List O) : 0 < h.jointProbability obs := (hh.observed obs).1

/-- The posterior is a distribution. -/
theorem posterior (obs : List O) : IsDistribution (h.posterior obs) := (hh.observed obs).2

/-- The prediction is a distribution. -/
theorem prediction (obs : List O) : IsDistribution (h.prediction obs) :=
  hh.prediction_of_posterior (hh.posterior obs)

/-- Every observation can come next. -/
theorem nextProbability_pos (obs : List O) (o : O) : 0 < h.nextProbability obs o := by
  rw [h.nextProbability_eq (hh.jointProbability_pos obs).ne']
  exact (hh.prediction obs).weighted_pos fun s => hh.emission s o

end Stochastic

end Model

end Probability

section Scaling

variable [Field K] [LinearOrder K]

namespace Model

/-- No parameter is negative. -/
structure Nonneg (h : Model S O K) : Prop where
  /-- No first state has a negative probability. -/
  initial : ∀ s, 0≤h.initial s
  /-- No transition has a negative probability. -/
  trans : ∀ s s', 0≤h.trans s s'
  /-- No emission has a negative probability. -/
  emission : ∀ s o, 0≤h.emission s o

/-- Probabilities are not negative. -/
theorem Stochastic.nonneg {h : Model S O K} (hh : h.Stochastic) : h.Nonneg :=
  ⟨hh.initial.nonneg,fun s => (hh.trans s).nonneg,fun s o => (hh.emission s o).le⟩

/-- Forward variables that are divided by their sum after each observation, and
the product of the sums. -/
structure Scaled (h : Model S O K) (obs : List O) (c : K) (hat : Option (S → K)) : Prop where
  /-- Before any observation the product is one. -/
  first : hat=none → c=1
  /-- Multiplied with the product they are the forward variables. -/
  forward : h.forward obs=hat.map fun a s => c*a s
  /-- None of them is negative. -/
  nonneg : ∀ a, hat=some a → ∀ s, 0≤a s
  /-- They add up to one, unless the product is zero. -/
  total : ∀ a, hat=some a → c*∑ s, a s=c

/-- Before any observation there is nothing to scale. -/
theorem scaled_nil (h : Model S O K) : Scaled h [] 1 none :=
  ⟨fun _ => rfl,rfl,fun _ ha => (nomatch ha),fun _ ha => (nomatch ha)⟩

variable {h : Model S O K} {obs : List O} {c : K} {hat : Option (S → K)}

/-- The product of the sums is the probability of the observations. -/
theorem Scaled.jointProbability_eq {a : S → K} (hs : Scaled h obs c (some a)) :
    h.jointProbability obs=c := by
  rw [h.jointProbability_eq,hs.forward]
  simp only [Option.map_some,weigh,mul_one,←Finset.mul_sum]
  exact hs.total a rfl

/-- The forward variables of one observation more, before they are divided. -/
theorem Scaled.forward_append (hs : Scaled h obs c hat) (o : O) :
    h.forward (obs++[o])=some fun s => c*(h.predict hat s*h.emission s o) := by
  rw [Model.forward_append,hs.forward,forwardStep]
  congr 1
  funext s
  rw [←mul_assoc]
  cases hat with
  | none => rw [hs.first rfl,one_mul]; rfl
  | some a => rw [←predict_mul]; rfl

variable [IsStrictOrderedRing K] (hh : h.Nonneg)

include hh

/-- What is predicted from variables that are not negative is not negative. -/
theorem Nonneg.predict (hhat : ∀ a, hat=some a → ∀ s, 0≤a s) (s : S) : 0≤h.predict hat s := by
  cases hat with
  | none => exact hh.initial s
  | some a => exact Finset.sum_nonneg fun s' _ => mul_nonneg (hhat a rfl s') (hh.trans s' s)

/-- One observation more is scaled by its own sum. If that is zero then so are
its terms. -/
theorem Scaled.step (hs : Scaled h obs c hat) (o : O) {v : S → K}
    (hv : ∀ s, v s=h.predict hat s*h.emission s o) :
    Scaled h (obs++[o]) (c*∑ s, v s)
      (some fun s => if ∑ s, v s≠0 then v s/∑ s, v s else v s) := by
  have hnonneg : ∀ s, 0≤v s := fun s => by
    rw [hv]
    exact mul_nonneg (hh.predict hs.nonneg s) (hh.emission s o)
  have hforward := hs.forward_append o
  simp only [←hv] at hforward
  by_cases hsum : ∑ s, v s=0
  · have hzero : ∀ s, v s=0 := fun s =>
      (Finset.sum_eq_zero_iff_of_nonneg fun s _ => hnonneg s).1 hsum s (Finset.mem_univ s)
    constructor <;> simp [hforward,hzero]
  · simp only [ne_eq,hsum,not_false_eq_true,if_true]
    constructor
    · intro hnone
      cases hnone
    · rw [hforward,Option.map_some]
      congr 1
      funext s
      field_simp
    · intro a ha s
      cases ha
      exact div_nonneg (hnonneg s) (Finset.sum_nonneg fun s _ => hnonneg s)
    · intro a ha
      cases ha
      rw [←Finset.sum_div,div_self hsum,mul_one]

end Model

end Scaling

end TrustAlloc.HiddenMarkov
