import TrustAlloc.EdgeChanges
import TrustAlloc.TrustReports
import TrustAlloc.TrustValues

/-!
# Trust values over whole runs

A node counts what it observes itself, receives stereotypes and messages of
peers, and gets to know edges, capabilities and certificates. After each of
these the counts that a trust value is made of have to be there. What that
takes is a condition on the counts that a step changes or first makes use of.
Most steps need none.
-/

namespace TrustAlloc.TrustValueRuns

open Addresses Calculations CborCodec EdgeChanges EdgeInfo EdgeStoreRuns Keystore PeerInfo
open PeerViews Pools ReputationModel Runs Stereotypes TrustDissemination TrustModels TrustPayload
open TrustReports TrustRoundTrip TrustValues

variable {np ne nc n m : ℕ} {PT D : Type}

section Observations

/-- Count an event. -/
def betaDistAdd (good : Bool) (dist : BetaDist) : BetaDist :=
  if good=true then betaDistAddGood dist else betaDistAddBad dist

/-- `tm_update_task_submission`. -/
def tmUpdateTaskSubmission (info : TaskSubmissionInfo) (tm : EdgeResourceTm×EdgeCapabilityTm) :
    EdgeResourceTm×EdgeCapabilityTm :=
  let good := tmTaskSubmissionGood info
  if good.2=false then tm
  else ({tm.1 with taskSubmission := betaDistAdd good.1 tm.1.taskSubmission},tm.2)

/-- `tm_update_task_result`. -/
def tmUpdateTaskResult (info : TaskResultInfo) (tm : EdgeResourceTm×EdgeCapabilityTm) :
    EdgeResourceTm×EdgeCapabilityTm :=
  ({tm.1 with taskResult := betaDistAdd (decide (info=.success)) tm.1.taskResult},tm.2)

/-- `tm_update_result_quality`. -/
def tmUpdateResultQuality (good : Bool) (tm : EdgeResourceTm×EdgeCapabilityTm) :
    EdgeResourceTm×EdgeCapabilityTm := (tm.1,⟨betaDistAdd good tm.2.resultQuality⟩)

/-- What a node observes of an edge and a capability. An outcome of a challenge
is observed as the quality of a result. -/
inductive Observation where
  /-- A task has been submitted. -/
  | taskSubmission (info : TaskSubmissionInfo)
  /-- A result has been received, or has not. -/
  | taskResult (info : TaskResultInfo)
  /-- A result has been judged. -/
  | resultQuality (good : Bool)
  deriving DecidableEq

/-- The update that an observation leads to. -/
def Observation.update : Observation → EdgeResourceTm×EdgeCapabilityTm →
    EdgeResourceTm×EdgeCapabilityTm
  | .taskSubmission info => tmUpdateTaskSubmission info
  | .taskResult info => tmUpdateTaskResult info
  | .resultQuality good => tmUpdateResultQuality good

end Observations

section Machine

/-- What the trust values of a node depend on. -/
structure ValueEnv (np ne nc n : ℕ) (PT D : Type) where
  /-- Policy of `memb_alloc` on `edge_resources_memb`. -/
  edgeAllocator : Allocator ne
  /-- Policy of `memb_alloc` on `edge_capabilities_memb`. -/
  capabilityAllocator : Allocator (ne*nc)
  /-- Policies of the pools of peers. -/
  peers : PeerEnv np ne nc PT
  /-- Policy of `memb_alloc` on `stereotypes_memb`. -/
  stereotypeAllocator : Allocator n
  /-- The CBOR decoder. -/
  cbor : TrustDecoder D
  /-- Addresses and identities. -/
  addresses : AddressEnv
  /-- `trust_weights`. -/
  weights : List TrustWeights

/-- `TRUST_MODEL_TAG`. -/
def trustModelTag : UInt32 := 1

/-- The edge store of the model with reputation. -/
def ValueEnv.edges (env : ValueEnv np ne nc n PT D) :
    EdgeEnv ne nc EdgeResourceTm EdgeCapabilityTm :=
  ⟨env.edgeAllocator,env.capabilityAllocator,fun _ => edgeResourceTmInit,
    fun _ => edgeCapabilityTmInit⟩

/-- The stereotypes of the model with reputation. -/
def ValueEnv.stereotypes (env : ValueEnv np ne nc n PT D) : StereotypeEnv n D EdgeResourceTm where
  allocator := env.stereotypeAllocator
  cbor := env.cbor.toPublishDecoder
  trustModelTag := trustModelTag
  deserialiseTrustEdgeResource dec _ := deserialiseTrustEdgeResource env.cbor.toPublishDecoder dec

/-- What a node knows. -/
structure State (np ne nc n m : ℕ) (PT : Type) where
  /-- Edges and peers. -/
  node : Node np ne nc PT
  /-- Stereotypes and certificates. -/
  known : Stereotypes.State n m EdgeResourceTm

/-- What happens to a node, in any order. -/
inductive Op (ne nc m : ℕ) where
  /-- An operation on the edge store. -/
  | store (op : EdgeStoreRuns.Op ne nc EdgeResourceTm EdgeCapabilityTm)
  /-- The node observes something of an edge and a capability. -/
  | observe (e : Fin ne) (c : Fin (ne*nc)) (observation : Observation)
  /-- Something happens to stereotypes or certificates. -/
  | stereotype (op : Stereotypes.Op m EdgeResourceTm)
  /-- `process_received_trust`. -/
  | receive (src : IpAddr) (buffer : List UInt8)

/-- One step. -/
def step (env : ValueEnv np ne nc n PT D) (s : State np ne nc n m PT) :
    Op ne nc m → State np ne nc n m PT
  | .store op =>
    {s with node := {s.node with edges := EdgeStoreRuns.step env.edges s.node.edges op}}
  | .observe e c observation =>
    {s with node := {s.node with edges := updateTrust s.node.edges e c observation.update}}
  | .stereotype op => {s with known := Stereotypes.step env.stereotypes s.known op}
  | .receive src buffer =>
    {s with node := (processReceivedTrust env.cbor env.peers s.node src buffer).1}

/-- Operations on the edge store get what was just looked up or added. -/
def Admitted (s : State np ne nc n m PT) : Op ne nc m → Prop
  | .store op => EdgeStoreRuns.Admitted s.node.edges op ∧ KeepsTrust s.node.edges op
  | _ => True

/-- Admission is decided by the edge store. -/
instance decidableAdmitted (s : State np ne nc n m PT) : ∀ op, Decidable (Admitted s op)
  | .store _ => inferInstanceAs (Decidable (_ ∧ _))
  | .observe _ _ _ | .stereotype _ | .receive _ _ => .isTrue trivial

/-- A new node with the given certificates. -/
def start (np ne nc n : ℕ) (edge : Fin ne) (cap : Fin (ne*nc)) (et : EdgeResourceTm)
    (ct : EdgeCapabilityTm) (pt : PT) (k : Store m) : State np ne nc n m PT :=
  ⟨PeerReferences.start np ne nc edge cap et ct pt,⟨stereotypesInit n et,k⟩⟩

end Machine

section Properties

variable (env : ValueEnv np ne nc n PT D) (s : State np ne nc n m PT)

/-- The stereotype of an edge. -/
def stereotypeFor (e : Fin ne) : Option EdgeResourceTm :=
  stereotypeOf env.addresses s.known (s.node.edges.edge e).ep

/-- Trust in a capability of an edge may be asked for: the edge is listed and
has the capability, whose weights are as they are meant. -/
structure Asked (e : Fin ne) (c : Fin (ne*nc)) : Prop where
  /-- The edge. -/
  edge : e∈s.node.edges.edgeResources
  /-- The capability. -/
  cap : c∈(s.node.edges.edge e).capabilities
  /-- The weights. -/
  weights : Proper (valueWeights env.weights (s.node.edges.cap c).name)

/-- This is decided by the edge store. -/
instance decidableAsked (e : Fin ne) (c : Fin (ne*nc)) : Decidable (Asked env s e c) :=
  decidable_of_iff (e∈s.node.edges.edgeResources ∧ c∈(s.node.edges.edge e).capabilities ∧
      Proper (valueWeights env.weights (s.node.edges.cap c).name))
    ⟨fun ⟨h1,h2,h3⟩ => ⟨h1,h2,h3⟩,fun ⟨h1,h2,h3⟩ => ⟨h1,h2,h3⟩⟩

/-- Trust in some capability of an edge may be asked for. -/
def Rated (e : Fin ne) : Prop := ∃ c, Asked env s e c

/-- So is this. -/
instance decidableRated (e : Fin ne) : Decidable (Rated env s e) :=
  inferInstanceAs (Decidable (∃ _,_))

/-- Trust that may be asked for has a value between zero and one: nothing is
divided by zero, and no assertion fails. -/
def ValuesDefined : Prop := ∀ e c, Asked env s e c → ∃ trust,
  calculateTrustValue env.weights env.addresses s.known s.node e c=.ok trust ∧
    0≤trust ∧ trust≤1

/-- All counts that such a value is made of are there. -/
def CountsReady : Prop := ∀ e c, Asked env s e c →
  Ready env.weights (stereotypeFor env s e) s.node e c

/-- Counts are decided one by one. -/
instance decidableCountsReady : Decidable (CountsReady env s) :=
  inferInstanceAs (Decidable (∀ _ _, Asked env s _ _ → _))

end Properties

section Conditions

variable (env : ValueEnv np ne nc n PT D) (s : State np ne nc n m PT)

/-- A capability that is added makes use of what is known of its edge, and of
what peers have reported of whatever was in its block before. -/
def HarmlessAdd (e : Fin ne) (name : List UInt8) : Prop :=
  edgeInfoCapabilityFind s.node.edges e name=none →
    ∀ c∈(edgeInfoCapabilityAdd env.edges s.node.edges e name).2,
      Proper (valueWeights env.weights name) →
        OwnCounted (stereotypeFor env s e) (s.node.edges.edge e).tm ∧
          ∀ i∈s.node.peers.peers, ReportCounted (valueWeights env.weights name)
            (edgeView s.node.peers i e) (capView s.node.peers i e c)

/-- An observation changes counts of an edge and of a capability. -/
def HarmlessCount (e : Fin ne) (c : Fin (ne*nc)) (observation : Observation) : Prop :=
  (Rated env s e → OwnCounted (stereotypeFor env s e)
    (observation.update (trustOf s.node.edges e c)).1) ∧
  ((∃ e', Asked env s e' c) →
    Counted (observation.update (trustOf s.node.edges e c)).2.resultQuality)

/-- A stereotype that was asked for is put together with the counts of all
edges whose certificates have its tags. -/
def HarmlessResponse (r : Response EdgeResourceTm) : Prop :=
  ∀ stereotype∈acceptedStereotype env.stereotypes r,
    (∃ i∈s.known.store.stereotypesRequesting,
      (s.known.store.entry i).tags=stereotype.tags) →
    ∀ e, Rated env s e → ∀ item∈keystoreFindAddr env.addresses s.known.keystore
        (s.node.edges.edge e).ep,
      (s.known.keystore.item item).cert.tags=stereotype.tags →
        OwnCounted (some stereotype.edgeTm) (s.node.edges.edge e).tm

/-- With other certificates, edges may have other stereotypes. -/
def HarmlessKeys (k : Store m) : Prop :=
  ∀ e, Rated env s e → OwnCounted
    (stereotypeOf env.addresses {s.known with keystore := k} (s.node.edges.edge e).ep)
    (s.node.edges.edge e).tm

/-- What the sender of a message is then known to have reported. -/
def HarmlessReport (src : IpAddr) (buffer : List UInt8) : Prop :=
  ∀ e c, Asked env s e c →
    let p := (processReceivedTrust env.cbor env.peers s.node src buffer).1.peers
    ReportCounted (valueWeights env.weights (s.node.edges.cap c).name) (reportedEdge p src e)
      (reportedCap p src e c)

/-- The step leaves all counts that values are made of. -/
def Harmless : Op ne nc m → Prop
  | .store (.capabilityAdd e name) => HarmlessAdd env s e name
  | .store _ => True
  | .observe e c observation => HarmlessCount env s e c observation
  | .stereotype (.request _) => True
  | .stereotype (.response r) => HarmlessResponse env s r
  | .stereotype (.keystore k) => HarmlessKeys env s k
  | .receive src buffer => HarmlessReport env s src buffer

/-- It is decided by what the step makes use of. -/
instance decidableHarmless : ∀ op, Decidable (Harmless env s op)
  | .store (.capabilityAdd e name) => inferInstanceAs (Decidable
      (edgeInfoCapabilityFind s.node.edges e name=none → ∀ c∈_,_ → _ ∧ _))
  | .observe e c observation => inferInstanceAs (Decidable ((Rated env s e → _) ∧
      ((∃ e', Asked env s e' c) → Counted (observation.update _).2.resultQuality)))
  | .stereotype (.response r) => inferInstanceAs (Decidable (∀ st∈acceptedStereotype
      env.stereotypes r, (∃ i∈_,_=_) → ∀ e, Rated env s e → ∀ item∈_,_=_ → OwnCounted _ _))
  | .stereotype (.keystore _) =>
    inferInstanceAs (Decidable (∀ e, Rated env s e → OwnCounted _ _))
  | .receive _ _ =>
    inferInstanceAs (Decidable (∀ e c, Asked env s e c → ReportCounted _ _ _))
  | .store (.edgeAdd _) | .store (.edgeRemove _) | .store (.capabilityRemove _ _)
  | .store (.capabilityRemoveByName _ _) | .store (.capabilityClear _)
  | .store (.writeEdge _ _ _) | .store (.writeCap _ _ _) | .stereotype (.request _) =>
    .isTrue trivial

end Conditions

section Steps

variable {env : ValueEnv np ne nc n PT D} {s : State np ne nc n m PT}

/-- A capability that was there before could be asked for before. -/
theorem Asked.of_kept {edges : Edges ne nc} {e : Fin ne} {c : Fin (ne*nc)}
    (h : Asked env {s with node := {s.node with edges := edges}} e c)
    (hkept : Kept s.node.edges edges e c) : Asked env s e c :=
  ⟨hkept.edge,hkept.cap,hkept.name ▸ h.weights⟩

/-- Its counts are still there. -/
theorem ready_of_kept {edges : Edges ne nc} {e : Fin ne} {c : Fin (ne*nc)}
    (hkept : Kept s.node.edges edges e c)
    (h : Ready env.weights (stereotypeFor env s e) s.node e c) :
    Ready env.weights (stereotypeFor env {s with node := {s.node with edges := edges}} e)
      {s.node with edges := edges} e c := by
  refine ⟨?_,?_,?_⟩
  · rw [stereotypeFor,hkept.ep,hkept.edgeTm]
    exact h.own
  · rw [hkept.capTm]
    exact h.quality
  · rw [hkept.name]
    exact h.reports

/-- Without anything new, all counts stay. -/
theorem CountsReady.nothingNew (h : CountsReady env s) {edges : Edges ne nc}
    (hnew : NothingNew s.node.edges edges) :
    CountsReady env {s with node := {s.node with edges := edges}} := by
  intro e c hasked
  have hkept := hnew e hasked.edge c hasked.cap
  exact ready_of_kept hkept (h e c (hasked.of_kept hkept))

/-- Fresh counts are counts. -/
theorem counted_init : Counted edgeCapabilityTmInit.resultQuality := by decide

/-- A capability that is placed in a free block needs the counts of its edge, and
those in reports about whatever was in the block before. -/
theorem countsReady_placeCap_iff (hs : WellFormed s.node.edges) (h : CountsReady env s)
    {e : Fin ne} (he : e∈s.node.edges.edgeResources) {c : Fin (ne*nc)}
    (hfree : s.node.edges.edgeCapabilitiesMemb.used c=false) {name : List UInt8}
    (hname : name.length≤edgeCapabilityNameLen) :
    CountsReady env {s with node := {s.node with
      edges := s.node.edges.placeCap env.edges e c name}} ↔
      (Proper (valueWeights env.weights name) →
        OwnCounted (stereotypeFor env s e) (s.node.edges.edge e).tm ∧
          ∀ i∈s.node.peers.peers, ReportCounted (valueWeights env.weights name)
            (edgeView s.node.peers i e) (capView s.node.peers i e c)) := by
  have hedge := placeCap_edge_same env.edges hs he hfree name
  have hcap := placeCap_cap_same (s:=s.node.edges) env.edges e c hname
  have hold := kept_placeCap hs env.edges he hfree name
  have hlist : (s.node.edges.placeCap env.edges e c name).edgeResources=
      s.node.edges.edgeResources := rfl
  generalize s.node.edges.placeCap env.edges e c name=edges at hedge hcap hold hlist
  have hstereotype : stereotypeFor env {s with node := {s.node with edges := edges}} e=
      stereotypeFor env s e := by rw [stereotypeFor,stereotypeFor,hedge]
  constructor
  · intro hready hproper
    have hasked : Asked env {s with node := {s.node with edges := edges}} e c :=
      ⟨hlist ▸ he,by rw [hedge]; exact List.mem_cons_self,by rw [hcap]; exact hproper⟩
    obtain ⟨hown,_,hreports⟩ := hready e c hasked
    rw [hstereotype,hedge] at hown
    rw [hcap] at hreports
    exact ⟨hown,hreports⟩
  · intro hharmless e' c' hasked
    rcases hold e' (hlist ▸ hasked.edge) c' hasked.cap with ⟨rfl,rfl⟩ | hkept
    · have hproper := hasked.weights
      rw [hcap] at hproper
      obtain ⟨hown,hreports⟩ := hharmless hproper
      refine ⟨?_,?_,?_⟩
      · rw [hstereotype,hedge]
        exact hown
      · rw [hcap]
        exact counted_init
      · rw [hcap]
        exact hreports
    · exact ready_of_kept hkept (h e' c' (hasked.of_kept hkept))

/-- A capability that is added needs the counts that it makes use of. -/
theorem countsReady_add_iff (hs : WellFormed s.node.edges) (h : CountsReady env s) {e : Fin ne}
    (he : e∈s.node.edges.edgeResources) {name : List UInt8}
    (hname : name.length≤edgeCapabilityNameLen) :
    CountsReady env (step env s (.store (.capabilityAdd e name))) ↔ HarmlessAdd env s e name := by
  change CountsReady env {s with node := {s.node with
    edges := (edgeInfoCapabilityAdd env.edges s.node.edges e name).1}} ↔ _
  unfold HarmlessAdd
  rcases edgeInfoCapabilityAdd_cases hs env.edges he name with
    ⟨c,hc,hcname,ha⟩ | ⟨_,_,ha⟩ | ⟨hfind,_,c,hfree,ha⟩
  · rw [ha]
    refine iff_of_true h fun hnone => ?_
    exact absurd hcname ((edgeInfoCapabilityFind_none_iff e name).mp hnone c hc)
  · rw [ha]
    exact iff_of_true h fun _ c hc => nomatch hc
  · rw [ha]
    refine (countsReady_placeCap_iff hs h he hfree hname).trans ⟨fun hneeds _ c' hc' => ?_,fun h =>
      h hfind c rfl⟩
    cases hc'
    exact hneeds

/-- The same may be asked for when only counts have changed. -/
theorem asked_iff_of_sameShape {edges : Edges ne nc} (h : SameShape s.node.edges edges) (e : Fin ne)
    (c : Fin (ne*nc)) :
    Asked env {s with node := {s.node with edges := edges}} e c ↔ Asked env s e c :=
  ⟨fun ha => ⟨h.list ▸ ha.edge,h.caps e ▸ ha.cap,h.name c ▸ ha.weights⟩,
    fun ha => ⟨h.list.symm ▸ ha.edge,(h.caps e).symm ▸ ha.cap,(h.name c).symm ▸ ha.weights⟩⟩

/-- An observation needs the counts that it changes. -/
theorem countsReady_observe_iff (h : CountsReady env s) (e : Fin ne) (c : Fin (ne*nc))
    (observation : Observation) :
    CountsReady env (step env s (.observe e c observation)) ↔
      HarmlessCount env s e c observation := by
  change CountsReady env {s with node := {s.node with
    edges := updateTrust s.node.edges e c observation.update}} ↔ _
  unfold HarmlessCount
  have hobserved := observed_updateTrust (s:=s.node.edges) e c observation.update
  generalize updateTrust s.node.edges e c observation.update=edges at hobserved
  generalize observation.update (trustOf s.node.edges e c)=tm at hobserved
  have hasked : ∀ e' c', Asked env {s with node := {s.node with edges := edges}} e' c' ↔
      Asked env s e' c' :=
    asked_iff_of_sameShape hobserved.shape
  have hstereotype : ∀ e', stereotypeFor env {s with node := {s.node with edges := edges}} e'=
      stereotypeFor env s e' := fun e' => by
    rw [stereotypeFor,stereotypeFor,hobserved.shape.ep]
  constructor
  · intro hready
    refine ⟨fun ⟨c',hc'⟩ => ?_,fun ⟨e',he'⟩ => ?_⟩
    · have hown := (hready e c' ((hasked e c').mpr hc')).own
      rwa [hstereotype,hobserved.edge] at hown
    · have hquality := (hready e' c ((hasked e' c).mpr he')).quality
      rwa [hobserved.cap] at hquality
  · intro hharmless e' c' hnew
    have hold := (hasked e' c').mp hnew
    obtain ⟨hown,hquality,hreports⟩ := h e' c' hold
    refine ⟨?_,?_,?_⟩
    · rw [hstereotype]
      by_cases hne : e'=e
      · subst hne
        rw [hobserved.edge]
        exact hharmless.1 ⟨c',hold⟩
      · rw [hobserved.edges e' hne]
        exact hown
    · by_cases hne : c'=c
      · subst hne
        rw [hobserved.cap]
        exact hharmless.2 ⟨e',hold⟩
      · rw [hobserved.caps c' hne]
        exact hquality
    · rw [hobserved.shape.name]
      exact hreports

/-- Other stereotypes or certificates need counts of what may be asked for. -/
theorem countsReady_known_iff (h : CountsReady env s)
    (known : Stereotypes.State n m EdgeResourceTm) :
    CountsReady env {s with known := known} ↔ ∀ e, Rated env s e → OwnCounted
      (stereotypeOf env.addresses known (s.node.edges.edge e).ep) (s.node.edges.edge e).tm := by
  constructor
  · rintro hready e ⟨c,hc⟩
    exact (hready e c ⟨hc.edge,hc.cap,hc.weights⟩).own
  · intro hown e c hasked
    have hold : Asked env s e c := ⟨hasked.edge,hasked.cap,hasked.weights⟩
    exact ⟨hown e ⟨c,hold⟩,(h e c hold).quality,(h e c hold).reports⟩

/-- The stereotype of an edge is the known one with the tags of its certificate. -/
theorem stereotypeOf_eq_some_iff (A : AddressEnv) {known : Stereotypes.State n m EdgeResourceTm}
    (h : StoreInvariant known.store) (addr : IpAddr) (tm : EdgeResourceTm) :
    stereotypeOf A known addr=some tm ↔
      ∃ item, keystoreFindAddr A known.keystore addr=some item ∧
        ∃ i∈known.store.stereotypes,
          (known.store.entry i).tags=(known.keystore.item item).cert.tags ∧
          (known.store.entry i).edgeTm=tm := by
  have hfind : ∀ tags i, edgeStereotypeFind known.store tags=some i ↔
      i∈known.store.stereotypes ∧ (known.store.entry i).tags=tags := by
    refine fun tags i => ⟨edgeStereotypeFindInList_some,fun ⟨hi,htags⟩ => ?_⟩
    cases hfind : edgeStereotypeFind known.store tags with
    | none => exact absurd htags (edgeStereotypeFindInList_none_iff.mp hfind i hi)
    | some j =>
      obtain ⟨hj,hjtags⟩ := edgeStereotypeFindInList_some hfind
      rw [h.distinct j (List.mem_append_left _ hj) i (List.mem_append_left _ hi)
        (hjtags.trans htags.symm)]
  simp only [stereotypeOf,Option.bind_eq_bind,Option.bind_eq_some_iff,hfind,Option.pure_def,
    Option.some.injEq,and_assoc]

/-- A request leaves the stereotypes of all edges, even if it gives one up: that
one is no edge's. -/
theorem stereotypeOf_request {known : Stereotypes.State n m EdgeResourceTm}
    (h : StoreInvariant known.store) (tags : Certificates.StereotypeTags) (addr : IpAddr) :
    stereotypeOf env.addresses (Stereotypes.step env.stereotypes known (.request tags)) addr=
      stereotypeOf env.addresses known addr := by
  have hmigrates := migrates_request env.stereotypes h tags
  have hold : ∀ i∈(Stereotypes.step env.stereotypes known (.request tags)).store.stereotypes,
      i∈known.store.stereotypes := by
    intro i hi
    by_contra hnew
    obtain ⟨_,_,_,hop,_⟩ := hmigrates.entered i hi hnew
    cases hop
  refine Option.ext fun tm => ?_
  rw [stereotypeOf_eq_some_iff env.addresses h,
    stereotypeOf_eq_some_iff env.addresses (h.step env.stereotypes (.request tags))]
  constructor
  · rintro ⟨item,hitem,i,hi,htags,htm⟩
    rw [hmigrates.stayed i hi (hold i hi)] at htags htm
    exact ⟨item,hitem,i,hold i hi,htags,htm⟩
  · rintro ⟨item,hitem,i,hi,htags,htm⟩
    have hlisted : item∈known.keystore.listed :=
      List.mem_append_left _ (mem_of_keystoreFindAddr hitem)
    have hkept : i∈(Stereotypes.step env.stereotypes known
        (.request tags)).store.stereotypes := by
      by_contra hgone
      exact (hmigrates.left i hi hgone).2.2 item hlisted htags.symm
    rw [←hmigrates.stayed i hkept hi] at htags htm
    exact ⟨item,hitem,i,hkept,htags,htm⟩

/-- So a request needs no counts. -/
theorem countsReady_request (hs : StoreInvariant s.known.store) (h : CountsReady env s)
    (tags : Certificates.StereotypeTags) :
    CountsReady env (step env s (.stereotype (.request tags))) := by
  refine (countsReady_known_iff h _).mpr fun e ⟨c,hc⟩ => ?_
  rw [stereotypeOf_request hs]
  exact (h e c hc).own

/-- A requested stereotype that is filled becomes that of the edges whose
certificates have its tags. -/
theorem stereotypeOf_migrate_of_tags (A : AddressEnv)
    {known : Stereotypes.State n m EdgeResourceTm} (h : StoreInvariant known.store) {i : Fin n}
    (hi : i∈known.store.stereotypesRequesting) {stereotype : EdgeStereotype EdgeResourceTm}
    (htags : (known.store.entry i).tags=stereotype.tags) {addr : IpAddr} {item : Fin m}
    (hitem : keystoreFindAddr A known.keystore addr=some item)
    (hitemTags : (known.keystore.item item).cert.tags=stereotype.tags) :
    stereotypeOf A {known with store := known.store.migrate i stereotype} addr=
      some stereotype.edgeTm := by
  obtain ⟨_,hlist,hnew,_⟩ := h.migrate_known hi stereotype
  refine (stereotypeOf_eq_some_iff A (h.migrate hi htags) addr _).mpr ⟨item,hitem,i,?_,?_,?_⟩
  · rw [hlist]
    exact List.mem_cons_self
  · rw [hnew]
    exact hitemTags.symm
  · rw [hnew]

/-- It becomes no other edge's. -/
theorem stereotypeOf_migrate_of_ne (A : AddressEnv)
    {known : Stereotypes.State n m EdgeResourceTm} (h : StoreInvariant known.store) {i : Fin n}
    (hi : i∈known.store.stereotypesRequesting) {stereotype : EdgeStereotype EdgeResourceTm}
    (htags : (known.store.entry i).tags=stereotype.tags) {addr : IpAddr}
    (hother : ∀ item∈keystoreFindAddr A known.keystore addr,
      (known.keystore.item item).cert.tags≠stereotype.tags) :
    stereotypeOf A {known with store := known.store.migrate i stereotype} addr=
      stereotypeOf A known addr := by
  obtain ⟨_,hlist,hnew,hold⟩ := h.migrate_known hi stereotype
  refine Option.ext fun tm => ?_
  rw [stereotypeOf_eq_some_iff A (h.migrate hi htags),stereotypeOf_eq_some_iff A h]
  constructor
  · rintro ⟨item,hitem,j,hj,hjtags,htm⟩
    rw [hlist] at hj
    rcases List.mem_cons.mp hj with rfl | hj'
    · rw [hnew] at hjtags
      exact absurd hjtags.symm (hother item hitem)
    · rw [hold j hj'] at hjtags htm
      exact ⟨item,hitem,j,hj',hjtags,htm⟩
  · rintro ⟨item,hitem,j,hj,hjtags,htm⟩
    rw [←hold j hj] at hjtags htm
    exact ⟨item,hitem,j,hlist ▸ List.mem_cons_of_mem i hj,hjtags,htm⟩

/-- A response needs the counts that it brings. -/
theorem countsReady_response_iff (hs : StoreInvariant s.known.store) (h : CountsReady env s)
    (r : Response EdgeResourceTm) :
    CountsReady env (step env s (.stereotype (.response r))) ↔ HarmlessResponse env s r := by
  change CountsReady env {s with known := {s.known with
    store := processSterotypeResponse env.stereotypes s.known.store r}} ↔ _
  unfold processSterotypeResponse HarmlessResponse
  cases haccept : acceptedStereotype env.stereotypes r with
  | none => exact iff_of_true h fun _ hs => nomatch hs
  | some stereotype =>
    dsimp only
    cases hfind : edgeStereotypeFindInList s.known.store stereotype.tags
        s.known.store.stereotypesRequesting with
    | none =>
      refine iff_of_true h fun st hst ⟨i,hi,htags⟩ => ?_
      cases hst
      exact absurd htags (edgeStereotypeFindInList_none_iff.mp hfind i hi)
    | some i =>
      obtain ⟨hi,htags⟩ := edgeStereotypeFindInList_some hfind
      dsimp only
      rw [countsReady_known_iff h]
      constructor
      · intro hown st hst _ e hrated item hitem hitemTags
        cases hst
        rw [←stereotypeOf_migrate_of_tags env.addresses hs hi htags hitem hitemTags]
        exact hown e hrated
      · intro hharmless e hrated
        by_cases hitem : ∃ item∈keystoreFindAddr env.addresses s.known.keystore
            (s.node.edges.edge e).ep, (s.known.keystore.item item).cert.tags=stereotype.tags
        · obtain ⟨item,hitem,hitemTags⟩ := hitem
          rw [stereotypeOf_migrate_of_tags env.addresses hs hi htags hitem hitemTags]
          exact hharmless stereotype rfl ⟨i,hi,htags⟩ e hrated item hitem hitemTags
        · rw [stereotypeOf_migrate_of_ne env.addresses hs hi htags fun item hmem heq =>
            hitem ⟨item,hmem,heq⟩]
          obtain ⟨c,hc⟩ := hrated
          exact (h e c hc).own

/-- A message needs the counts that its sender is then known to have reported. -/
theorem countsReady_receive_iff (hp : PeersWellFormed s.node.peers) (h : CountsReady env s)
    (src : IpAddr) (buffer : List UInt8) :
    CountsReady env (step env s (.receive src buffer)) ↔ HarmlessReport env s src buffer := by
  change CountsReady env {s with
    node := (processReceivedTrust env.cbor env.peers s.node src buffer).1} ↔ _
  unfold HarmlessReport
  have honly := senderOnly_processReceivedTrust env.cbor env.peers hp src buffer
  generalize (processReceivedTrust env.cbor env.peers s.node src buffer).1=node at honly
  obtain ⟨edges,peers⟩ := node
  obtain ⟨hedges,_,hpeer⟩ := honly
  dsimp only at hedges hpeer ⊢
  subst hedges
  constructor
  · intro hready e c hasked
    have hreports := (hready e c ⟨hasked.edge,hasked.cap,hasked.weights⟩).reports
    unfold reportedEdge reportedCap
    cases hfind : peerInfoFind peers src with
    | none => exact fun tm htm => nomatch htm
    | some i => exact hreports i (peerInfoFind_some hfind).1
  · intro hharmless e c hasked
    have hold : Asked env s e c := ⟨hasked.edge,hasked.cap,hasked.weights⟩
    obtain ⟨hown,hquality,hreports⟩ := h e c hold
    refine ⟨hown,hquality,fun i hi => ?_⟩
    rcases hpeer i hi with hfind | ⟨hlisted,hsame⟩
    · have hreport := hharmless e c hold
      rw [reportedEdge,reportedCap,hfind] at hreport
      exact hreport
    · rw [(hsame e).edge,(hsame e).cap c]
      exact hreports i hlisted

/-- The invariants of all stores of a node. -/
structure Inv (s : State np ne nc n m PT) : Prop where
  /-- The edge store. -/
  edges : Represented s.node.edges
  /-- The peer store. -/
  peers : PeersWellFormed s.node.peers
  /-- The stereotypes. -/
  stereotypes : StoreInvariant s.known.store

/-- Every admitted step keeps the invariants. -/
theorem Inv.step (h : Inv s) {op : Op ne nc m} (hop : Admitted s op) : Inv (step env s op) := by
  cases op with
  | store op => exact ⟨h.edges.step env.edges hop.1,h.peers,h.stereotypes⟩
  | observe e c observation =>
    have hedge : Represented (s.node.edges.setEdge e {s.node.edges.edge e with
        tm := (observation.update (trustOf s.node.edges e c)).1}) := h.edges.setEdge e rfl rfl
    have hboth : Represented (updateTrust s.node.edges e c observation.update) :=
      hedge.setCap c rfl
    exact ⟨hboth,h.peers,h.stereotypes⟩
  | stereotype op => exact ⟨h.edges,h.peers,h.stereotypes.step env.stereotypes op⟩
  | receive src buffer =>
    have honly := senderOnly_processReceivedTrust env.cbor env.peers h.peers src buffer
    exact ⟨honly.edges.symm ▸ h.edges,honly.wellFormed,h.stereotypes⟩

/-- **One step.** It leaves all counts exactly when it is harmless. -/
theorem countsReady_step_iff (hs : Inv s) (h : CountsReady env s) {op : Op ne nc m}
    (hop : Admitted s op) : CountsReady env (step env s op) ↔ Harmless env s op := by
  have hkeeps : ∀ op, KeepsTrust s.node.edges op → (∀ e name, op≠.capabilityAdd e name) →
      CountsReady env (TrustValueRuns.step env s (.store op)) := fun op hop hadd =>
    h.nothingNew (nothingNew_step hs.edges.wellFormed env.edges hop hadd)
  cases op with
  | store op =>
    cases op with
    | capabilityAdd e name =>
      exact countsReady_add_iff hs.edges.wellFormed h hop.1.1 hop.1.2
    | edgeAdd | edgeRemove | capabilityRemove | capabilityRemoveByName | capabilityClear
    | writeEdge | writeCap =>
      exact iff_of_true (hkeeps _ hop.2 fun _ _ hadd => nomatch hadd) trivial
  | observe e c observation => exact countsReady_observe_iff h e c observation
  | stereotype op =>
    cases op with
    | request tags => exact iff_of_true (countsReady_request hs.stereotypes h tags) trivial
    | response r => exact countsReady_response_iff hs.stereotypes h r
    | keystore k => exact countsReady_known_iff h {s.known with keystore := k}
  | receive src buffer => exact countsReady_receive_iff hs.peers h src buffer

/-- Values are defined exactly when the counts that they are made of are there. -/
theorem valuesDefined_iff (hnp : np < 2^32) (hs : Inv s) :
    ValuesDefined env s ↔ CountsReady env s := by
  have hlen : s.node.peers.peers.length < 2^32 :=
    lt_of_le_of_lt hs.peers.ownsPeers.length_le hnp
  have hsettles : ∀ e c, Asked env s e c → ((∃ trust, calculateTrustValue env.weights env.addresses
      s.known s.node e c=.ok trust ∧ Share 1 trust) ↔ _) := fun e c hasked =>
    (settles_calculateTrustValue hasked.weights hlen).iff
  exact ⟨fun h e c hasked => (hsettles e c hasked).mp (h e c hasked),
    fun h e c hasked => (hsettles e c hasked).mpr (h e c hasked)⟩

end Steps

section Runs

variable (env : ValueEnv np ne nc n PT D)

/-- A new node has the invariants. -/
theorem inv_start (edge : Fin ne) (cap : Fin (ne*nc)) (et : EdgeResourceTm)
    (ct : EdgeCapabilityTm) (pt : PT) (k : Store m) :
    Inv (start np ne nc n edge cap et ct pt k) :=
  ⟨represented_init ne nc et ct,peersWellFormed_init edge cap et ct pt,storeInvariant_init n et⟩

/-- Over a whole run, values are defined exactly when counts are there. -/
theorem valuesDefined_always_congr (hnp : np < 2^32) (edge : Fin ne) (cap : Fin (ne*nc))
    (et : EdgeResourceTm) (ct : EdgeCapabilityTm) (pt : PT) (k : Store m)
    {ops : List (Op ne nc m)}
    (hops : Along (step env) Admitted (start np ne nc n edge cap et ct pt k) ops) :
    Always (step env) (ValuesDefined env) (start np ne nc n edge cap et ct pt k) ops ↔
      Always (step env) (CountsReady env) (start np ne nc n edge cap et ct pt k) ops :=
  always_congr (I:=Inv) (fun _ _ hI hA => hI.step hA) (fun _ hI => valuesDefined_iff hnp hI)
    (inv_start edge cap et ct pt k) hops

/-- **Trust values over a whole run.** However a node gets to know edges, peers,
stereotypes and certificates, whatever it observes and whatever bytes it
receives, all trust that may be asked for has a value between zero and one in
every state, exactly when no step takes away a count that such a value needs. -/
theorem valuesDefined_always_iff (hnp : np < 2^32) (edge : Fin ne) (cap : Fin (ne*nc))
    (et : EdgeResourceTm) (ct : EdgeCapabilityTm) (pt : PT) (k : Store m)
    (ops : List (Op ne nc m))
    (hops : Along (step env) Admitted (start np ne nc n edge cap et ct pt k) ops) :
    Always (step env) (ValuesDefined env) (start np ne nc n edge cap et ct pt k) ops ↔
      Along (step env) (Harmless env) (start np ne nc n edge cap et ct pt k) ops := by
  have hready : CountsReady env (start np ne nc n edge cap et ct pt k) :=
    fun e c hasked => absurd hasked.edge List.not_mem_nil
  refine (valuesDefined_always_congr env hnp edge cap et ct pt k hops).trans ?_
  exact always_iff_along (I:=Inv) (fun _ _ hI hA => hI.step hA)
    (fun _ _ hI hP hA => countsReady_step_iff hI hP hA) (inv_start edge cap et ct pt k) hready hops

/-- A node with first-fit pools and the weights of both applications. -/
def sampleValueEnv : ValueEnv 8 4 3 5 Unit Position where
  edgeAllocator := firstFit 4
  capabilityAllocator := firstFit 12
  peers := PeerReferences.samplePeerEnv
  stereotypeAllocator := firstFit 5
  cbor := byteDecoder
  addresses := sampleAddressEnv
  weights := [routingWeights,monitoringWeights]

/-- The node before anything has happened. -/
def sampleState : State 8 4 3 5 2 Unit :=
  start 8 4 3 5 sampleFirst (Fin.last 11) edgeResourceTmInit edgeCapabilityTmInit () (emptyStore 2)

/-- A message about one edge, with the same counts of tasks and of results. -/
def sampleMessage (good bad : UInt8) : List UInt8 :=
  [0x82,0x07,0xA1,0x50]++(sampleAddr 1).toList++[0x82,0x82,0x82,good,bad,0x82,good,bad,0xA0]

/-- An edge is added that routes, a peer reports of it, and a task is accepted. -/
def sampleRun (good bad : UInt8) : List (Op 4 3 2) :=
  [.store (.edgeAdd (sampleAddr 1)),
    .store (.capabilityAdd sampleFirst Routing.routingApplicationName),
    .receive (sampleAddr 9) (sampleMessage good bad),
    .observe sampleFirst (Fin.last 11).rev (.taskSubmission ⟨created201,.response⟩)]

/-- All trust has a value while a peer reports three good events and one bad one. -/
theorem valuesDefined_always_iff_sample :
    Always (step sampleValueEnv) (ValuesDefined sampleValueEnv) sampleState (sampleRun 3 1) :=
  (valuesDefined_always_iff sampleValueEnv (by decide) sampleFirst (Fin.last 11) edgeResourceTmInit
    edgeCapabilityTmInit () (emptyStore 2) (sampleRun 3 1) (by decide)).mpr (by decide +kernel)

/-- A peer reports no events at all. Its message is accepted, and trust has no
value any more. -/
theorem not_valuesDefined_of_empty_report :
    Along (step sampleValueEnv) Admitted sampleState (sampleRun 0 0) ∧
      (processReceivedTrust byteDecoder PeerReferences.samplePeerEnv
        (((sampleRun 0 0).take 2).foldl (step sampleValueEnv) sampleState).node (sampleAddr 9)
        (sampleMessage 0 0)).2=0 ∧
      ¬Always (step sampleValueEnv) (ValuesDefined sampleValueEnv) sampleState (sampleRun 0 0) := by
  have hops : Along (step sampleValueEnv) Admitted sampleState (sampleRun 0 0) := by decide
  refine ⟨hops,by decide +kernel,fun h => ?_⟩
  have hready := ((valuesDefined_always_congr sampleValueEnv (by decide) sampleFirst (Fin.last 11)
    edgeResourceTmInit edgeCapabilityTmInit () (emptyStore 2) hops).mp h).last
  exact absurd hready (by decide +kernel)

end Runs

end TrustAlloc.TrustValueRuns
