import TrustAlloc.ChallengeResponse
import TrustAlloc.EdgeOffers
import TrustAlloc.TrustValueRuns

/-!
# Trust and outcomes

`calculate_trust_value` of the basic model over exact numbers: a sum of weighted
expectations, of the counts of an edge together with those of its stereotype, of
the counts of a capability, and of those of the challenge-response capability of
the same edge if the node is built to use it. Counts are ordered by more good and
fewer bad events. An outcome moves the counts of one edge along this order, and
the value of every capability of the edge follows.
-/

namespace TrustAlloc.TrustMonotonicity

open Addresses Calculations ChallengeResponse EdgeInfo EdgeOffers EdgeStoreRuns Keystore
open ReputationModel Stereotypes TrustModels TrustPayload TrustValueRuns TrustValues

variable {ne nc n m : ℕ}

section Source

/-- `TRUST_METRIC_CHALLENGE_RESP`. -/
def trustMetricChallengeResp : UInt16 := 1004

/-- The capability `cr` of `calculate_trust_value`, which is looked for if the
node is built with `APPLICATION_CHALLENGE_RESPONSE` and
`TRUST_MODEL_USE_CHALLENGE_RESPONSE`. -/
def challengeCapability (useChallengeResponse : Bool) (s : Edges ne nc) (e : Fin ne) :
    Option (Fin (ne*nc)) :=
  if useChallengeResponse=true then
    edgeInfoCapabilityFind s e challengeResponseApplicationName
  else none

/-- `calculate_trust_value`. Weights that do not make up one are only logged. -/
def calculateTrustValue (useChallengeResponse : Bool) (l : List TrustWeights) (A : AddressEnv)
    (known : State n m EdgeResourceTm) (s : Edges ne nc) (e : Fin ne) (c : Fin (ne*nc)) :
    Calculation ℚ := do
  let stereotype := stereotypeOf A known (s.edge e).ep
  let tm := (s.edge e).tm
  let w := findTrustWeight l (s.cap c).name
  let sub ← betaDistExpected
    (betaDistCombine tm.taskSubmission (stereotype.map (·.taskSubmission)))
  let trust := 0+w trustMetricTaskSubmission*sub
  let res ← betaDistExpected (betaDistCombine tm.taskResult (stereotype.map (·.taskResult)))
  let trust := trust+w trustMetricTaskResult*res
  let qual ← betaDistExpected (s.cap c).tm.resultQuality
  let trust := trust+w trustMetricResultQuality*qual
  match challengeCapability useChallengeResponse s e with
  | none => return trust
  | some cr => do
    let resp ← betaDistExpected (s.cap cr).tm.resultQuality
    return trust+w trustMetricChallengeResp*resp

/-- Whether an observation counts, and then whether it is a good one. -/
def outcome : Observation → Option Bool
  | .taskSubmission info =>
    if (tmTaskSubmissionGood info).2=true then some (tmTaskSubmissionGood info).1 else none
  | .taskResult info => some (decide (info=.success))
  | .resultQuality good => some good

end Source

section Counts

/-- At least as many good events and at most as many bad ones. -/
structure Better (d d' : BetaDist) : Prop where
  /-- Good events. -/
  good : d.alpha.toNat≤d'.alpha.toNat
  /-- Bad events. -/
  bad : d'.beta.toNat≤d.beta.toNat

/-- Equal counts. -/
theorem Better.refl (d : BetaDist) : Better d d := ⟨le_refl _,le_refl _⟩

/-- What `beta_dist_expected` gives when something has been counted. -/
def expected (d : BetaDist) : ℚ := d.alpha.toNat/(d.alpha.toNat+d.beta.toNat)

/-- Something has been counted when the total is positive. -/
theorem Counted.pos {d : BetaDist} (h : Counted d) : (0 : ℚ) < d.alpha.toNat+d.beta.toNat := by
  have hnat : 0 < d.alpha.toNat+d.beta.toNat := by
    rcases h with halpha | hbeta
    · have hne : d.alpha.toNat≠0 := fun hzero => halpha (UInt32.toNat_inj.mp hzero)
      omega
    · have hne : d.beta.toNat≠0 := fun hzero => hbeta (UInt32.toNat_inj.mp hzero)
      omega
  exact_mod_cast hnat

/-- So the expectation is there. -/
theorem betaDistExpected_eq {d : BetaDist} (h : Counted d) :
    betaDistExpected d=.ok (expected d) := by
  unfold betaDistExpected quotient
  dsimp only
  rw [if_neg (Counted.pos h).ne']
  rfl

/-- Better counts have no lower expectation. -/
theorem Better.expected_le {d d' : BetaDist} (h : Better d d') (hd : Counted d)
    (hd' : Counted d') : expected d≤expected d' :=
  part_div_le (Nat.cast_nonneg _) (Nat.cast_nonneg _) (Nat.cast_le.mpr h.good)
    (Nat.cast_le.mpr h.bad) (Counted.pos hd) (Counted.pos hd')

/-- Neither sum of `beta_dist_combine` wraps. -/
def Combines (a : BetaDist) (b : Option BetaDist) : Prop :=
  ∀ b'∈b, (1≤a.alpha.toNat+b'.alpha.toNat ∧ a.alpha.toNat+b'.alpha.toNat≤2^32) ∧
    (1≤a.beta.toNat+b'.beta.toNat ∧ a.beta.toNat+b'.beta.toNat≤2^32)

/-- A sum that does not wrap is exact. -/
theorem toNat_combine {x y : UInt32} (hlow : 1≤x.toNat+y.toNat) (hhigh : x.toNat+y.toNat≤2^32) :
    (x-1+y).toNat=x.toNat+y.toNat-1 := by
  rw [UInt32.toNat_add,UInt32.toNat_sub,UInt32.toNat_one]
  have hx := x.toNat_lt
  have hy := y.toNat_lt
  omega

/-- Better counts stay better when a stereotype is added to them. -/
theorem Better.combine {a a' : BetaDist} (h : Better a a') {b : Option BetaDist}
    (ha : Combines a b) (ha' : Combines a' b) :
    Better (betaDistCombine a b) (betaDistCombine a' b) := by
  cases b with
  | none => exact h
  | some b =>
    obtain ⟨⟨hlow,hhigh⟩,hlowBad,hhighBad⟩ := ha b rfl
    obtain ⟨⟨hlow',hhigh'⟩,hlowBad',hhighBad'⟩ := ha' b rfl
    have hgood := h.good
    have hbad := h.bad
    constructor
    · rw [betaDistCombine,betaDistCombine,toNat_combine hlow hhigh,toNat_combine hlow' hhigh']
      omega
    · rw [betaDistCombine,betaDistCombine,toNat_combine hlowBad hhighBad,
        toNat_combine hlowBad' hhighBad']
      omega

/-- The counter for an event has room for one more. -/
def Room (good : Bool) (d : BetaDist) : Prop :=
  (if good=true then d.alpha else d.beta).toNat+1 < 2^32

/-- Room is decided. -/
instance decidableRoom (good : Bool) (d : BetaDist) : Decidable (Room good d) :=
  inferInstanceAs (Decidable (_ < _))

/-- A counter with room goes up by one. -/
theorem toNat_add_one {x : UInt32} (h : x.toNat+1 < 2^32) : (x+1).toNat=x.toNat+1 := by
  rw [UInt32.toNat_add,UInt32.toNat_one]
  exact Nat.mod_eq_of_lt h

/-- A good event makes counts better, and a bad one makes them worse. -/
theorem better_add {good : Bool} {d : BetaDist} (h : Room good d) :
    if good=true then Better d (betaDistAdd good d) else Better (betaDistAdd good d) d := by
  cases good with
  | true => exact ⟨(Nat.le_succ _).trans (toNat_add_one h).ge,le_refl _⟩
  | false => exact ⟨le_refl _,(Nat.le_succ _).trans (toNat_add_one h).ge⟩

end Counts

section Updates

/-- Better counts of an edge and of one of its capabilities. -/
structure BetterTm (tm tm' : EdgeResourceTm×EdgeCapabilityTm) : Prop where
  /-- Submitted tasks. -/
  taskSubmission : Better tm.1.taskSubmission tm'.1.taskSubmission
  /-- Results of tasks. -/
  taskResult : Better tm.1.taskResult tm'.1.taskResult
  /-- Quality of results. -/
  resultQuality : Better tm.2.resultQuality tm'.2.resultQuality

/-- The counter that an observation adds to has room for one more. -/
def HasRoom (tm : EdgeResourceTm×EdgeCapabilityTm) : Observation → Prop
  | .taskSubmission info => (tmTaskSubmissionGood info).2=true →
    Room (tmTaskSubmissionGood info).1 tm.1.taskSubmission
  | .taskResult info => Room (decide (info=.success)) tm.1.taskResult
  | .resultQuality good => Room good tm.2.resultQuality

variable {tm : EdgeResourceTm×EdgeCapabilityTm} {o : Observation}

/-- An outcome that does not count changes nothing. -/
theorem update_of_outcome_none (h : outcome o=none) : o.update tm=tm := by
  cases o with
  | taskSubmission info =>
    have hcounts : (tmTaskSubmissionGood info).2=false := by
      by_contra hne
      rw [outcome,if_pos (Bool.eq_true_of_not_eq_false hne)] at h
      cases h
    exact if_pos hcounts
  | taskResult info => cases h
  | resultQuality good => cases h

/-- A submission that counts adds to one counter, which has room. -/
theorem update_taskSubmission {info : TaskSubmissionInfo} {good : Bool}
    (h : outcome (.taskSubmission info)=some good) (hroom : HasRoom tm (.taskSubmission info)) :
    Room good tm.1.taskSubmission ∧ (Observation.taskSubmission info).update tm=
      ({tm.1 with taskSubmission := betaDistAdd good tm.1.taskSubmission},tm.2) := by
  rw [outcome] at h
  split_ifs at h with hcounts
  cases h
  exact ⟨hroom hcounts,if_neg (by rw [hcounts]; exact Bool.noConfusion)⟩

/-- A good outcome makes the counts better, and a bad one makes them worse. -/
theorem betterTm_of_outcome {good : Bool} (h : outcome o=some good) (hroom : HasRoom tm o) :
    if good=true then BetterTm tm (o.update tm) else BetterTm (o.update tm) tm := by
  cases o with
  | taskSubmission info =>
    obtain ⟨hroom,hupdate⟩ := update_taskSubmission h hroom
    have hbetter := better_add hroom
    rw [hupdate]
    cases good with
    | true => exact ⟨hbetter,.refl _,.refl _⟩
    | false => exact ⟨hbetter,.refl _,.refl _⟩
  | taskResult info =>
    have hgood : decide (info=.success)=good := Option.some.inj h
    rw [HasRoom,hgood] at hroom
    have hbetter := better_add hroom
    rw [Observation.update,tmUpdateTaskResult,hgood]
    cases good with
    | true => exact ⟨.refl _,hbetter,.refl _⟩
    | false => exact ⟨.refl _,hbetter,.refl _⟩
  | resultQuality good' =>
    have hgood : good'=good := Option.some.inj h
    rw [hgood] at hroom ⊢
    have hbetter := better_add hroom
    cases good with
    | true => exact ⟨.refl _,.refl _,hbetter⟩
    | false => exact ⟨.refl _,.refl _,hbetter⟩

end Updates

section Values

/-- An edge has the same address and capabilities, and better counts. -/
structure BetterEdge (s s' : Edges ne nc) (e : Fin ne) : Prop where
  /-- Address. -/
  ep : (s'.edge e).ep=(s.edge e).ep
  /-- Capabilities. -/
  capabilities : (s'.edge e).capabilities=(s.edge e).capabilities
  /-- Their names. -/
  name : ∀ c, (s'.cap c).name=(s.cap c).name
  /-- Submitted tasks. -/
  taskSubmission : Better (s.edge e).tm.taskSubmission (s'.edge e).tm.taskSubmission
  /-- Results of tasks. -/
  taskResult : Better (s.edge e).tm.taskResult (s'.edge e).tm.taskResult
  /-- Quality of results. -/
  resultQuality : ∀ c, Better (s.cap c).tm.resultQuality (s'.cap c).tm.resultQuality

/-- The sums that the values of an edge are made with do not wrap, and all their
totals are positive. -/
structure Regular (A : AddressEnv) (known : State n m EdgeResourceTm) (s : Edges ne nc)
    (e : Fin ne) : Prop where
  /-- Submitted tasks. -/
  taskSubmission : Combines (s.edge e).tm.taskSubmission
    ((stereotypeOf A known (s.edge e).ep).map (·.taskSubmission))
  /-- Results of tasks. -/
  taskResult : Combines (s.edge e).tm.taskResult
    ((stereotypeOf A known (s.edge e).ep).map (·.taskResult))
  /-- Their totals. -/
  own : OwnCounted (stereotypeOf A known (s.edge e).ep) (s.edge e).tm
  /-- Totals of the quality of results. -/
  quality : ∀ c∈(s.edge e).capabilities, Counted (s.cap c).tm.resultQuality

/-- Changing the counts of an edge and of one capability to better ones. -/
theorem betterEdge_updateTrust (s : Edges ne nc) (e : Fin ne) (c : Fin (ne*nc))
    {f g : EdgeResourceTm×EdgeCapabilityTm → EdgeResourceTm×EdgeCapabilityTm}
    (h : BetterTm (f (trustOf s e c)) (g (trustOf s e c))) :
    BetterEdge (updateTrust s e c f) (updateTrust s e c g) e := by
  have hedge : ∀ f, (updateTrust s e c f).edge e={s.edge e with tm := (f (trustOf s e c)).1} :=
    fun f => EdgeStore.setEdge_edge_same e _
  have hcap : ∀ f, (updateTrust s e c f).cap c={s.cap c with tm := (f (trustOf s e c)).2} :=
    fun f => EdgeStore.setCap_cap_same c _
  have hother : ∀ f c', c'≠c → (updateTrust s e c f).cap c'=s.cap c' :=
    fun f c' hne => EdgeStore.setCap_cap_other _ hne
  refine ⟨by rw [hedge,hedge],by rw [hedge,hedge],fun c' => ?_,?_,?_,fun c' => ?_⟩
  · by_cases hc : c'=c
    · rw [hc,hcap,hcap]
    · rw [hother g c' hc,hother f c' hc]
  · rw [hedge,hedge]
    exact h.taskSubmission
  · rw [hedge,hedge]
    exact h.taskResult
  · by_cases hc : c'=c
    · rw [hc,hcap,hcap]
      exact h.resultQuality
    · rw [hother g c' hc,hother f c' hc]
      exact .refl _

/-- The sum of `calculate_trust_value`, with expectations that are there. -/
def trustSum (w : UInt16 → ℚ) (sub res qual : BetaDist) (resp : Option BetaDist) : ℚ :=
  0+w trustMetricTaskSubmission*expected sub+w trustMetricTaskResult*expected res+
    w trustMetricResultQuality*expected qual+
    resp.elim 0 fun resp => w trustMetricChallengeResp*expected resp

variable {useChallengeResponse : Bool} {l : List TrustWeights} {A : AddressEnv}
  {known : State n m EdgeResourceTm} {s s' : Edges ne nc} {e : Fin ne} {c : Fin (ne*nc)}

/-- A capability that is found is one of the edge. -/
theorem mem_of_challengeCapability {cr : Fin (ne*nc)}
    (h : challengeCapability useChallengeResponse s e=some cr) : cr∈(s.edge e).capabilities := by
  unfold challengeCapability at h
  split_ifs at h
  exact (edgeInfoCapabilityFind_some h).1

/-- With regular counts, the value is the sum. -/
theorem calculateTrustValue_eq (h : Regular A known s e) (hc : c∈(s.edge e).capabilities) :
    calculateTrustValue useChallengeResponse l A known s e c=
      .ok (trustSum (findTrustWeight l (s.cap c).name)
        (betaDistCombine (s.edge e).tm.taskSubmission
          ((stereotypeOf A known (s.edge e).ep).map (·.taskSubmission)))
        (betaDistCombine (s.edge e).tm.taskResult
          ((stereotypeOf A known (s.edge e).ep).map (·.taskResult)))
        (s.cap c).tm.resultQuality
        ((challengeCapability useChallengeResponse s e).map fun cr =>
          (s.cap cr).tm.resultQuality)) := by
  unfold calculateTrustValue
  dsimp only
  rw [betaDistExpected_eq h.own.1,betaDistExpected_eq h.own.2,
    betaDistExpected_eq (h.quality c hc)]
  cases hcr : challengeCapability useChallengeResponse s e with
  | none =>
    refine congrArg Except.ok ?_
    rw [trustSum,Option.map_none,Option.elim_none,add_zero]
  | some cr =>
    dsimp only [bind,Except.bind]
    rw [betaDistExpected_eq (h.quality cr (mem_of_challengeCapability hcr))]
    rfl

/-- A weight that is found is one of the list, or zero. -/
theorem findTrustWeight_nonneg (hl : ∀ weights∈l, ∀ weight∈weights.weights, 0≤weight.2)
    (name : List UInt8) (id : UInt16) : 0≤findTrustWeight l name id := by
  unfold findTrustWeight
  split
  · exact le_refl 0
  · next weights hfind =>
    split
    · next weight hweight =>
      exact hl weights (List.mem_of_find?_eq_some hfind) weight
        (List.mem_of_find?_eq_some hweight)
    · exact le_refl 0

/-- The capability for challenges does not depend on any counts. -/
theorem BetterEdge.challengeCapability (h : BetterEdge s s' e) :
    challengeCapability useChallengeResponse s' e=challengeCapability useChallengeResponse s e := by
  have hname : (fun c => decide ((s'.cap c).name=challengeResponseApplicationName))=
      fun c => decide ((s.cap c).name=challengeResponseApplicationName) :=
    funext fun c => by rw [h.name c]
  unfold TrustMonotonicity.challengeCapability edgeInfoCapabilityFind
  rw [h.capabilities,hname]

/-- **Better counts, no lower value.** -/
theorem BetterEdge.value_le (h : BetterEdge s s' e)
    (hl : ∀ weights∈l, ∀ weight∈weights.weights, 0≤weight.2) (hs : Regular A known s e)
    (hs' : Regular A known s' e) (hc : c∈(s.edge e).capabilities) : ∃ v v',
      calculateTrustValue useChallengeResponse l A known s e c=.ok v ∧
      calculateTrustValue useChallengeResponse l A known s' e c=.ok v' ∧ v≤v' := by
  have hc' : c∈(s'.edge e).capabilities := h.capabilities.symm ▸ hc
  refine ⟨_,_,calculateTrustValue_eq hs hc,calculateTrustValue_eq hs' hc',?_⟩
  have hterm : ∀ id {d d' : BetaDist}, Better d d' → Counted d → Counted d' →
      findTrustWeight l (s.cap c).name id*expected d≤
        findTrustWeight l (s.cap c).name id*expected d' := fun id _ _ hd hcounted hcounted' =>
    mul_le_mul_of_nonneg_left (hd.expected_le hcounted hcounted') (findTrustWeight_nonneg hl _ _)
  have hown := hs.own
  have hown' := hs'.own
  have hsubmission := hs'.taskSubmission
  have hresult := hs'.taskResult
  rw [h.ep] at hown' hsubmission hresult
  rw [h.ep,h.name,h.challengeCapability,trustSum,trustSum]
  refine add_le_add (add_le_add (add_le_add (add_le_add (le_refl 0) ?_) ?_) ?_) ?_
  · exact hterm _ (h.taskSubmission.combine hs.taskSubmission hsubmission) hown.1 hown'.1
  · exact hterm _ (h.taskResult.combine hs.taskResult hresult) hown.2 hown'.2
  · exact hterm _ (h.resultQuality c) (hs.quality c hc) (hs'.quality c hc')
  · cases hcr : TrustMonotonicity.challengeCapability useChallengeResponse s e with
    | none => exact le_refl 0
    | some cr =>
      have hmem := mem_of_challengeCapability hcr
      exact hterm _ (h.resultQuality cr) (hs.quality cr hmem)
        (hs'.quality cr (h.capabilities.symm ▸ hmem))

/-- Trust in another edge does not depend on the counts that are changed. -/
theorem calculateTrustValue_updateTrust_other (hs : Represented s) (he : e∈s.edgeResources)
    (hc : c∈(s.edge e).capabilities)
    (update : EdgeResourceTm×EdgeCapabilityTm → EdgeResourceTm×EdgeCapabilityTm) {e' : Fin ne}
    (he' : e'∈s.edgeResources) (hne : e'≠e) {c' : Fin (ne*nc)}
    (hc' : c'∈(s.edge e').capabilities) :
    calculateTrustValue useChallengeResponse l A known (updateTrust s e c update) e' c'=
      calculateTrustValue useChallengeResponse l A known s e' c' := by
  have hedge : (updateTrust s e c update).edge e'=s.edge e' :=
    EdgeStore.setEdge_edge_other _ hne
  have hcap : ∀ cr∈(s.edge e').capabilities, (updateTrust s e c update).cap cr=s.cap cr :=
    fun cr hcr => EdgeStore.setCap_cap_other _ fun heq =>
      hne (owner_unique hs he he' hc (heq ▸ hcr))
  have hfind : challengeCapability useChallengeResponse (updateTrust s e c update) e'=
      challengeCapability useChallengeResponse s e' := by
    unfold challengeCapability edgeInfoCapabilityFind
    rw [hedge]
    split_ifs
    · exact List.find?_congr fun cr hcr => by rw [hcap cr hcr]
    · rfl
  unfold calculateTrustValue
  rw [hfind,hedge,hcap c' hc']
  cases hcr : challengeCapability useChallengeResponse s e' with
  | none => rfl
  | some cr =>
    dsimp only
    rw [hcap cr (mem_of_challengeCapability hcr)]

end Values

section Outcomes

/-- Trust follows an outcome at an edge: no value of the edge falls with a good
one, none rises with a bad one, nothing changes with one that does not count, and
other edges are never concerned. -/
structure Follows (useChallengeResponse : Bool) (l : List TrustWeights) (A : AddressEnv)
    (known : State n m EdgeResourceTm) (s s' : Edges ne nc) (e : Fin ne)
    (result : Option Bool) : Prop where
  /-- A good outcome. -/
  good : result=some true → ∀ c∈(s.edge e).capabilities, ∃ v v',
    calculateTrustValue useChallengeResponse l A known s e c=.ok v ∧
    calculateTrustValue useChallengeResponse l A known s' e c=.ok v' ∧ v≤v'
  /-- A bad outcome. -/
  bad : result=some false → ∀ c∈(s.edge e).capabilities, ∃ v v',
    calculateTrustValue useChallengeResponse l A known s e c=.ok v ∧
    calculateTrustValue useChallengeResponse l A known s' e c=.ok v' ∧ v'≤v
  /-- An outcome that does not count. -/
  ignored : result=none → ∀ e' c, calculateTrustValue useChallengeResponse l A known s' e' c=
    calculateTrustValue useChallengeResponse l A known s e' c
  /-- Other edges. -/
  others : ∀ e'∈s.edgeResources, e'≠e → ∀ c∈(s.edge e').capabilities,
    calculateTrustValue useChallengeResponse l A known s' e' c=
      calculateTrustValue useChallengeResponse l A known s e' c

/-- **Trust is monotone in outcomes.** Whatever a node observes of an edge and of
one of its capabilities, trust follows, as long as no sum wraps and all totals
are positive. -/
theorem trust_follows (useChallengeResponse : Bool) (l : List TrustWeights) (A : AddressEnv)
    (known : State n m EdgeResourceTm) (s : Edges ne nc) (e : Fin ne) (c : Fin (ne*nc))
    (o : Observation) (hl : ∀ weights∈l, ∀ weight∈weights.weights, 0≤weight.2)
    (hs : Represented s) (he : e∈s.edgeResources) (hc : c∈(s.edge e).capabilities)
    (hroom : HasRoom (trustOf s e c) o) (hbefore : Regular A known s e)
    (hafter : Regular A known (updateTrust s e c o.update) e) :
    Follows useChallengeResponse l A known s (updateTrust s e c o.update) e (outcome o) := by
  have hsame : updateTrust s e c id=s := (updateTrust_eq_iff s e c id).mpr rfl
  refine ⟨fun hgood c' hc' => ?_,fun hbad c' hc' => ?_,fun hnone e' c' => ?_,?_⟩
  · have hbetter := betterEdge_updateTrust s e c (f:=id) (betterTm_of_outcome hgood hroom)
    rw [hsame] at hbetter
    exact hbetter.value_le hl hbefore hafter hc'
  · have hbetter := betterEdge_updateTrust s e c (g:=id) (betterTm_of_outcome hbad hroom)
    rw [hsame] at hbetter
    obtain ⟨v',v,hv',hv,hle⟩ :=
      hbetter.value_le hl hafter hbefore (hbetter.capabilities ▸ hc')
    exact ⟨v,v',hv,hv',hle⟩
  · rw [(updateTrust_eq_iff s e c o.update).mpr (update_of_outcome_none hnone)]
  · intro e' he' hne c' hc'
    exact calculateTrustValue_updateTrust_other hs he hc o.update he' hne hc'

/-- Weights of the routing application, a quarter for each metric. -/
def quarterWeights : TrustWeights where
  applicationName := Routing.routingApplicationName
  weights := [(trustMetricTaskSubmission,1/4),(trustMetricTaskResult,1/4),
    (trustMetricResultQuality,1/4),(trustMetricChallengeResp,1/4)]

/-- One edge, which routes and answers challenges. -/
def sampleEdges : Edges 4 3 :=
  [EdgeStoreRuns.Op.edgeAdd (sampleAddr 1),
    .capabilityAdd sampleFirst Routing.routingApplicationName,
    .capabilityAdd sampleFirst challengeResponseApplicationName].foldl
      (EdgeStoreRuns.step sampleEdgeEnv) (edgeInfoInit 4 3 edgeResourceTmInit edgeCapabilityTmInit)

/-- No stereotypes and no certificates. -/
def sampleKnown : Stereotypes.State 5 2 EdgeResourceTm :=
  ⟨stereotypesInit 5 edgeResourceTmInit,emptyStore 2⟩

/-- The store of one edge is represented. -/
theorem represented_sampleEdges : Represented sampleEdges := by
  have hinit := represented_init 4 3 edgeResourceTmInit edgeCapabilityTmInit
  have hedge := hinit.edgeAdd sampleEdgeEnv (sampleAddr 1)
  have hrouting := hedge.capabilityAdd sampleEdgeEnv (e:=sampleFirst) (by decide)
    (show Routing.routingApplicationName.length≤edgeCapabilityNameLen by decide)
  exact hrouting.capabilityAdd sampleEdgeEnv (e:=sampleFirst) (by decide)
    (show challengeResponseApplicationName.length≤edgeCapabilityNameLen by decide)

/-- Without a stereotype nothing is added, so no sum wraps. -/
theorem regular_of_none {A : AddressEnv} {known : State n m EdgeResourceTm} {s : Edges ne nc}
    {e : Fin ne} (hnone : stereotypeOf A known (s.edge e).ep=none)
    (hown : OwnCounted none (s.edge e).tm)
    (hquality : ∀ c∈(s.edge e).capabilities, Counted (s.cap c).tm.resultQuality) :
    Regular A known s e := by
  refine ⟨?_,?_,?_,hquality⟩
  · rw [hnone]
    exact fun b hb => nomatch hb
  · rw [hnone]
    exact fun b hb => nomatch hb
  · rw [hnone]
    exact hown

/-- A submission times out, so trust in routing falls, or stays. -/
theorem trust_follows_sample : Follows true [quarterWeights] sampleAddressEnv sampleKnown
    sampleEdges (updateTrust sampleEdges sampleFirst (Fin.last 11).rev
      (Observation.taskSubmission ⟨noError,.timeout⟩).update) sampleFirst (some false) :=
  trust_follows true [quarterWeights] sampleAddressEnv sampleKnown sampleEdges sampleFirst
    (Fin.last 11).rev (.taskSubmission ⟨noError,.timeout⟩) (by decide +kernel)
    represented_sampleEdges (by decide) (by decide) (fun _ => by decide)
    (regular_of_none (by decide +kernel) (by decide) (by decide))
    (regular_of_none (by decide +kernel) (by decide) (by decide))

end Outcomes

end TrustAlloc.TrustMonotonicity
