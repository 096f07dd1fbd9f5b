import TrustAlloc.Addresses
import TrustAlloc.Calculations
import TrustAlloc.PeerViews
import TrustAlloc.Routing
import TrustAlloc.Stereotypes
import TrustAlloc.TrustDissemination
import Mathlib.Algebra.Order.Ring.Rat

/-!
# How much an edge is trusted

`calculate_trust_value` of the model with reputation over exact numbers. What
the node has counted itself is put together with a stereotype of the edge, and
mixed with the mean of what peers have reported. Each count is divided by a
sum, and what is known of a report by the weights of what is known. There is a
value exactly when none of these is zero, and then it is between zero and one.
-/

namespace TrustAlloc.TrustValues

open Addresses Calculations EdgeInfo Keystore PeerInfo PeerViews ReputationModel Stereotypes
open TrustDissemination TrustPayload

variable {np ne nc n m : ℕ} {PT : Type}

section Weights

/-- `TRUST_CONF_REPUTATION_WEIGHT`. -/
def trustConfReputationWeight : UInt16 := 1

/-- `TRUST_METRIC_TASK_SUBMISSION`. -/
def trustMetricTaskSubmission : UInt16 := 1001

/-- `TRUST_METRIC_TASK_RESULT`. -/
def trustMetricTaskResult : UInt16 := 1002

/-- `TRUST_METRIC_RESULT_QUALITY`. -/
def trustMetricResultQuality : UInt16 := 2001

/-- `trust_weights_t` without its list link, with pairs of `trust_weight_t`. -/
structure TrustWeights where
  /-- Name of the application. -/
  applicationName : List UInt8
  /-- Metrics and their weights. -/
  weights : List (UInt16×ℚ)

/-- `trust_weights_find`. -/
def trustWeightsFind (l : List TrustWeights) (applicationName : List UInt8) :
    Option TrustWeights := l.find? fun weights => decide (weights.applicationName=applicationName)

/-- `find_trust_weight`. -/
def findTrustWeight (l : List TrustWeights) (applicationName : List UInt8) (id : UInt16) : ℚ :=
  match trustWeightsFind l applicationName with
  | none => 0
  | some weights =>
    match weights.weights.find? fun weight => decide (weight.1=id) with
    | some weight => weight.2
    | none => 0

/-- The weights of an application that a trust value is made with. -/
structure ValueWeights where
  /-- Weight of submitted tasks. -/
  taskSub : ℚ
  /-- Weight of results of tasks. -/
  taskRes : ℚ
  /-- Weight of the quality of results. -/
  taskQual : ℚ
  /-- Weight of the reputation. -/
  rep : ℚ

/-- The weights that `calculate_trust_value` looks up. -/
def valueWeights (l : List TrustWeights) (name : List UInt8) : ValueWeights where
  taskSub := findTrustWeight l name trustMetricTaskSubmission
  taskRes := findTrustWeight l name trustMetricTaskResult
  taskQual := findTrustWeight l name trustMetricResultQuality
  rep := findTrustWeight l name trustConfReputationWeight

/-- Weights as they are meant: three that make up one, and a share of one. -/
structure Proper (w : ValueWeights) : Prop where
  /-- Submitted tasks may count. -/
  taskSub : 0≤w.taskSub
  /-- Results may count. -/
  taskRes : 0≤w.taskRes
  /-- Their quality may count. -/
  taskQual : 0≤w.taskQual
  /-- Nothing else does. -/
  sum : w.taskSub+w.taskRes+w.taskQual=1
  /-- Reputation has a share. -/
  rep : Share 1 w.rep

/-- Weights are decided to be proper. -/
instance decidableProper (w : ValueWeights) : Decidable (Proper w) :=
  decidable_of_iff (0≤w.taskSub ∧ 0≤w.taskRes ∧ 0≤w.taskQual ∧
      w.taskSub+w.taskRes+w.taskQual=1 ∧ 0≤w.rep ∧ w.rep≤1)
    ⟨fun ⟨h1,h2,h3,h4,h5⟩ => ⟨h1,h2,h3,h4,h5⟩,fun ⟨h1,h2,h3,h4,h5⟩ => ⟨h1,h2,h3,h4,h5⟩⟩

/-- The weights of the routing application. -/
def routingWeights : TrustWeights where
  applicationName := Routing.routingApplicationName
  weights := [(trustMetricTaskSubmission,1/3),(trustMetricTaskResult,1/3),
    (trustMetricResultQuality,1/3),(trustConfReputationWeight,1/4)]

/-- The weights of the monitoring application, "envmon". -/
def monitoringWeights : TrustWeights where
  applicationName := [0x65,0x6e,0x76,0x6d,0x6f,0x6e]
  weights := [(trustMetricTaskSubmission,1),(trustConfReputationWeight,1/4)]

end Weights

section Distributions

/-- `beta_dist_expected`. -/
def betaDistExpected (dist : BetaDist) : Calculation ℚ :=
  let a : ℚ := dist.alpha.toNat
  let b : ℚ := dist.beta.toNat
  quotient a (a+b)

/-- `beta_dist_combine`. -/
def betaDistCombine (a : BetaDist) : Option BetaDist → BetaDist
  | none => a
  | some b => ⟨a.alpha-1+b.alpha,a.beta-1+b.beta⟩

/-- Something has been counted. -/
def Counted (dist : BetaDist) : Prop := dist.alpha≠0 ∨ dist.beta≠0

/-- Counts are decided. -/
instance decidableCounted (dist : BetaDist) : Decidable (Counted dist) :=
  inferInstanceAs (Decidable (_ ∨ _))

/-- A distribution has an expected value exactly when something has been counted. -/
theorem settles_betaDistExpected (dist : BetaDist) :
    Settles (betaDistExpected dist) (Counted dist) (Share 1) := by
  have halpha : (0 : ℚ)≤dist.alpha.toNat := Nat.cast_nonneg _
  have hbeta : (0 : ℚ)≤dist.beta.toNat := Nat.cast_nonneg _
  have hshare : Share ((dist.alpha.toNat : ℚ)+dist.beta.toNat) dist.alpha.toNat :=
    ⟨halpha,le_add_of_nonneg_right hbeta⟩
  refine hshare.settles_quotient.congr ?_
  rw [ne_eq,add_eq_zero_iff_of_nonneg halpha hbeta,Nat.cast_eq_zero,Nat.cast_eq_zero,
    not_and_or,←UInt32.toNat_zero,UInt32.toNat_inj,UInt32.toNat_inj]
  rfl

end Distributions

section Values

/-- What `calculate_trust_value` takes for the stereotype of an edge. -/
def stereotypeOf (A : AddressEnv) (known : State n m EdgeResourceTm) (addr : IpAddr) :
    Option EdgeResourceTm := do
  let item ← keystoreFindAddr A known.keystore addr
  let s ← edgeStereotypeFind known.store (known.keystore.item item).cert.tags
  return (known.store.entry s).edgeTm

/-- The body of the loop over peers, for a peer with a record about the edge. -/
def peerReputation (w : ValueWeights) (p : Peers np ne nc PT) (j : Fin (np*ne))
    (c : Fin (ne*nc)) : Calculation ℚ := do
  let sub ← betaDistExpected (p.peerEdge j).tm.taskSubmission
  let res ← betaDistExpected (p.peerEdge j).tm.taskResult
  let (repEdge,wTotal) ← match peerInfoFindCapability p j c with
    | some r => do
      let qual ← betaDistExpected (p.peerCap r).tm.resultQuality
      pure (0+w.taskSub*sub+w.taskRes*res+w.taskQual*qual,0+w.taskSub+w.taskRes+w.taskQual)
    | none => pure (0+w.taskSub*sub+w.taskRes*res,0+w.taskSub+w.taskRes)
  assertThat (wTotal≥0)
  assertThat (wTotal≤1)
  quotient repEdge wTotal

/-- The body of the loop over peers. -/
def addReputation (w : ValueWeights) (p : Peers np ne nc PT) (e : Fin ne) (c : Fin (ne*nc))
    (total : ℚ×UInt32) (i : Fin np) : Calculation (ℚ×UInt32) :=
  match peerInfoFindEdge p i e with
  | none => return total
  | some j => do
    let rep ← peerReputation w p j c
    return (total.1+rep,total.2+1)

/-- The end of `calculate_trust_value`. -/
def withReputation (w : ValueWeights) (trust : ℚ) (total : ℚ×UInt32) : Calculation ℚ :=
  if total.2 > 0 then do
    let rep ← quotient total.1 (total.2.toNat : ℚ)
    return trust*(1-w.rep)+rep*w.rep
  else return trust

/-- `calculate_trust_value`. Weights that do not make up one are only logged. -/
def calculateTrustValue (l : List TrustWeights) (A : AddressEnv)
    (known : State n m EdgeResourceTm) (node : Node np ne nc PT) (e : Fin ne)
    (c : Fin (ne*nc)) : Calculation ℚ := do
  let s := stereotypeOf A known (node.edges.edge e).ep
  let w := valueWeights l (node.edges.cap c).name
  let tm := (node.edges.edge e).tm
  let sub ← betaDistExpected (betaDistCombine tm.taskSubmission (s.map (·.taskSubmission)))
  let res ← betaDistExpected (betaDistCombine tm.taskResult (s.map (·.taskResult)))
  let qual ← betaDistExpected (node.edges.cap c).tm.resultQuality
  let trust := 0+w.taskSub*sub+w.taskRes*res+w.taskQual*qual
  let total ← node.peers.peers.foldlM (addReputation w node.peers e c) (0,0)
  withReputation w trust total

end Values

section Conditions

/-- Something has been counted of an edge, also when the counts of a
stereotype are added to its own. -/
def OwnCounted (s : Option EdgeResourceTm) (tm : EdgeResourceTm) : Prop :=
  Counted (betaDistCombine tm.taskSubmission (s.map (·.taskSubmission))) ∧
    Counted (betaDistCombine tm.taskResult (s.map (·.taskResult)))

/-- Own counts are decided. -/
instance decidableOwnCounted (s : Option EdgeResourceTm) (tm : EdgeResourceTm) :
    Decidable (OwnCounted s tm) := inferInstanceAs (Decidable (_ ∧ _))

/-- A peer that has reported of an edge has counted something. When it has not
reported of the capability, something else has a weight. -/
def ReportCounted (w : ValueWeights) (edge : Option EdgeResourceTm)
    (cap : Option EdgeCapabilityTm) : Prop :=
  ∀ tm∈edge, (Counted tm.taskSubmission ∧ Counted tm.taskResult) ∧
    cap.elim (0 < w.taskSub+w.taskRes) fun cap => Counted cap.resultQuality

/-- Reports are decided by their counts. -/
instance decidableReportCounted (w : ValueWeights) (edge : Option EdgeResourceTm) :
    ∀ cap, Decidable (ReportCounted w edge cap)
  | none => inferInstanceAs (Decidable (∀ tm∈edge, _ ∧ 0 < w.taskSub+w.taskRes))
  | some cap => inferInstanceAs (Decidable (∀ tm∈edge, _ ∧ Counted cap.resultQuality))

/-- The counts that a trust value is made of. -/
structure Ready (l : List TrustWeights) (s : Option EdgeResourceTm) (node : Node np ne nc PT)
    (e : Fin ne) (c : Fin (ne*nc)) : Prop where
  /-- Those of the node about the edge. -/
  own : OwnCounted s (node.edges.edge e).tm
  /-- Those of the node about the capability. -/
  quality : Counted (node.edges.cap c).tm.resultQuality
  /-- Those of its peers. -/
  reports : ∀ i∈node.peers.peers, ReportCounted (valueWeights l (node.edges.cap c).name)
    (edgeView node.peers i e) (capView node.peers i e c)

/-- They are decided one by one. -/
instance decidableReady (l : List TrustWeights) (s : Option EdgeResourceTm)
    (node : Node np ne nc PT) (e : Fin ne) (c : Fin (ne*nc)) : Decidable (Ready l s node e c) :=
  decidable_of_iff (OwnCounted s (node.edges.edge e).tm ∧
      Counted (node.edges.cap c).tm.resultQuality ∧
      ∀ i∈node.peers.peers, ReportCounted (valueWeights l (node.edges.cap c).name)
        (edgeView node.peers i e) (capView node.peers i e c))
    ⟨fun ⟨h1,h2,h3⟩ => ⟨h1,h2,h3⟩,fun ⟨h1,h2,h3⟩ => ⟨h1,h2,h3⟩⟩

variable {w : ValueWeights} {p : Peers np ne nc PT}

/-- What a peer adds to the reputation is a share of one. It is there exactly
when the peer has counted what it reports, and some of that has a weight. -/
theorem settles_peerReputation (hw : Proper w) (j : Fin (np*ne)) (c : Fin (ne*nc)) :
    Settles (peerReputation w p j c)
      ((Counted (p.peerEdge j).tm.taskSubmission ∧ Counted (p.peerEdge j).tm.taskResult) ∧
        ((peerInfoFindCapability p j c).map fun r => (p.peerCap r).tm).elim
          (0 < w.taskSub+w.taskRes) fun cap => Counted cap.resultQuality) (Share 1) := by
  have hsub := settles_betaDistExpected (p.peerEdge j).tm.taskSubmission
  have hres := settles_betaDistExpected (p.peerEdge j).tm.taskResult
  have hsum := hw.sum
  have hqual := hw.taskQual
  unfold peerReputation
  refine Settles.congr (hsub.bind fun sub hs => hres.bind fun res hr => ?_) and_assoc.symm
  have hedge : Share (0+w.taskSub+w.taskRes) (0+w.taskSub*sub+w.taskRes*res) :=
    (share_zero.add (hs.mul hw.taskSub)).add (hr.mul hw.taskRes)
  -- the assertions hold of every share of the weights, so only the division is left
  have hrest : ∀ wTotal repEdge : ℚ, Share wTotal repEdge → wTotal≤1 →
      Settles (do assertThat (wTotal≥0); assertThat (wTotal≤1); quotient repEdge wTotal)
        (0 < wTotal) (Share 1) := by
    intro wTotal repEdge hshare hle
    have hge : 0≤wTotal := hshare.1.trans hshare.2
    refine Settles.congr ((settles_assert hge).bind fun _ _ => (settles_assert hle).bind fun _ _ =>
      hshare.settles_quotient) ?_
    rw [true_and,true_and]
    exact ⟨fun hne => lt_of_le_of_ne hge hne.symm,fun hlt => hlt.ne'⟩
  cases peerInfoFindCapability p j c with
  | none =>
    have hle : 0+w.taskSub+w.taskRes≤1 := by linarith
    exact (hrest _ _ hedge hle).congr (by rw [zero_add]; rfl)
  | some r =>
    have hone : 0+w.taskSub+w.taskRes+w.taskQual=1 := by linarith
    refine (Settles.bind (settles_betaDistExpected (p.peerCap r).tm.resultQuality)
      fun qual hq => hrest _ _ (hedge.add (hq.mul hqual)) hone.le).congr ?_
    rw [hone]
    exact and_iff_left one_pos

/-- So it is in the loop, which a peer without a record about the edge leaves
alone. The sum of the reputations is a share of their number. -/
theorem settles_addReputation (hw : Proper w) (e : Fin ne) (c : Fin (ne*nc)) (i : Fin np)
    (total : ℚ×UInt32) (hcount : total.2.toNat+1 < 2^32)
    (htotal : Share (total.2.toNat : ℚ) total.1) :
    Settles (addReputation w p e c total i) (ReportCounted w (edgeView p i e) (capView p i e c))
      fun total' => Share (total'.2.toNat : ℚ) total'.1 ∧
        total'.2.toNat≤total.2.toNat+1 := by
  unfold addReputation edgeView capView
  cases peerInfoFindEdge p i e with
  | none =>
    refine (settles_pure ⟨htotal,Nat.le_succ _⟩).congr ⟨fun _ _ h => ?_,fun _ => trivial⟩
    cases h
  | some j =>
    have hnext : (total.2+1).toNat=total.2.toNat+1 := by
      rw [UInt32.toNat_add]
      exact Nat.mod_eq_of_lt hcount
    refine ((settles_peerReputation hw j c).bind fun rep hrep => settles_pure ?_).congr ?_
    · dsimp only
      rw [hnext,Nat.cast_succ]
      exact ⟨htotal.add hrep,le_refl _⟩
    · rw [and_true]
      refine ⟨fun h tm htm => ?_,fun h => h _ rfl⟩
      cases htm
      exact h

/-- The reputation is mixed in when there is any. -/
theorem settles_withReputation (hw : Proper w) {trust : ℚ} (htrust : Share 1 trust)
    {total : ℚ×UInt32} (htotal : Share (total.2.toNat : ℚ) total.1) :
    Settles (withReputation w trust total) True (Share 1) := by
  unfold withReputation
  split
  · next hpos =>
    have hne : (total.2.toNat : ℚ)≠0 := by
      have hlt : 0 < total.2.toNat := hpos
      exact Nat.cast_ne_zero.mpr hlt.ne'
    refine (htotal.settles_quotient.bind fun rep hrep => settles_pure ?_).congr ?_
    · exact htrust.mix hrep hw.rep
    · exact iff_of_true ⟨hne,trivial⟩ trivial
  · exact settles_pure htrust

variable {l : List TrustWeights} {A : AddressEnv} {known : State n m EdgeResourceTm}
  {node : Node np ne nc PT} {e : Fin ne} {c : Fin (ne*nc)}

/-- **Trust values.** With proper weights, there is a value exactly when all the
counts that it is made of are there, and it is a share of one. -/
theorem settles_calculateTrustValue (hw : Proper (valueWeights l (node.edges.cap c).name))
    (hpeers : node.peers.peers.length < 2^32) :
    Settles (calculateTrustValue l A known node e c)
      (Ready l (stereotypeOf A known (node.edges.edge e).ep) node e c) (Share 1) := by
  unfold calculateTrustValue
  generalize stereotypeOf A known (node.edges.edge e).ep=s
  generalize hname : valueWeights l (node.edges.cap c).name=w at hw
  have hsub := settles_betaDistExpected (betaDistCombine (node.edges.edge e).tm.taskSubmission
    (s.map (·.taskSubmission)))
  have hres := settles_betaDistExpected (betaDistCombine (node.edges.edge e).tm.taskResult
    (s.map (·.taskResult)))
  have hqual := settles_betaDistExpected (node.edges.cap c).tm.resultQuality
  have hloop : Settles (node.peers.peers.foldlM (addReputation w node.peers e c) (0,0))
      (∀ i∈node.peers.peers, ReportCounted w (edgeView node.peers i e) (capView node.peers i e c))
      fun total => Share (total.2.toNat : ℚ) total.1 := by
    refine (settles_foldlM (I:=fun l total => Share (total.2.toNat : ℚ) total.1 ∧
      total.2.toNat+l.length < 2^32) (fun i l total h => ?_) ⟨share_zero,?_⟩).mono fun _ h => h.1
    · have hlen := h.2
      rw [List.length_cons] at hlen
      refine (settles_addReputation hw e c i total (by omega) h.1).mono fun total' h' => ?_
      exact ⟨h'.1,by omega⟩
    · exact (Nat.zero_add _).symm ▸ hpeers
  have htrust : ∀ sub res qual : ℚ, Share 1 sub → Share 1 res → Share 1 qual →
      Share 1 (0+w.taskSub*sub+w.taskRes*res+w.taskQual*qual) := by
    intro sub res qual hs hr hq
    have hshare := ((share_zero.add (hs.mul hw.taskSub)).add (hr.mul hw.taskRes)).add
      (hq.mul hw.taskQual)
    rwa [zero_add w.taskSub,hw.sum] at hshare
  refine Settles.congr (hsub.bind fun sub hs => hres.bind fun res hr => hqual.bind fun qual hq =>
    hloop.bind fun total ht => settles_withReputation hw (htrust sub res qual hs hr hq) ht) ?_
  constructor
  · rintro ⟨h1,h2,h3,h4,_⟩
    exact ⟨⟨h1,h2⟩,h3,hname ▸ h4⟩
  · rintro ⟨⟨h1,h2⟩,h3,h4⟩
    exact ⟨h1,h2,h3,hname ▸ h4,trivial⟩

end Conditions

end TrustAlloc.TrustValues
