import TrustAlloc.EdgeInfo

/-!
# What applications tell the trust model

The observations of `trust-models.h` and the rules that decide which of them
count. How a trust model in use changes its values is a parameter; it changes
the values of one edge and of one of its capabilities.
-/

namespace TrustAlloc.TrustModels

open EdgeInfo

/-- `coap_request_status_t`. -/
inductive CoapRequestStatus where
  /-- A response has arrived. -/
  | response
  /-- More blocks are to come. -/
  | more
  /-- The request is finished. -/
  | finished
  /-- No response has arrived in time. -/
  | timeout
  /-- The blockwise transfer has failed. -/
  | blockError
  deriving DecidableEq

/-- A CoAP response code from its class and detail. -/
def coapCode (cls detail : ℕ) : ℕ := 32*cls+detail

/-- `NO_ERROR`. -/
def noError : ℕ := 0

/-- `CREATED_2_01`. -/
def created201 : ℕ := coapCode 2 1

/-- `CONTENT_2_05`. -/
def content205 : ℕ := coapCode 2 5

/-- `tm_task_submission_info_t`. -/
structure TaskSubmissionInfo where
  /-- Code of the response. -/
  coapStatus : ℕ
  /-- Status of the request. -/
  coapRequestStatus : CoapRequestStatus
  deriving DecidableEq

/-- `tm_task_result_info_t`. -/
inductive TaskResultInfo where
  /-- The edge reports success. -/
  | success
  /-- The edge reports a failure. -/
  | fail
  /-- Nothing has been reported in time. -/
  | timeout
  deriving DecidableEq

/-- `tm_throughput_direction_t`. -/
inductive ThroughputDirection where
  /-- From the edge. -/
  | inward
  /-- To the edge. -/
  | outward
  deriving DecidableEq

/-- `tm_throughput_info_t`. -/
structure ThroughputInfo where
  /-- Direction of the transfer. -/
  direction : ThroughputDirection
  /-- Bytes per second. -/
  throughput : UInt32
  deriving DecidableEq

/-- `tm_challenge_response_info_t`, one alternative of the union per type. -/
inductive ChallengeResponseInfo where
  /-- Outcome of sending the challenge. -/
  | ack (coapStatus : ℕ) (coapRequestStatus : CoapRequestStatus)
  /-- The response timer has expired. -/
  | timeout (neverReceived receivedLate : Bool)
  /-- A response has arrived. -/
  | resp (challengeSuccessful challengeLate : Bool)
  deriving DecidableEq

/-- A response code in the range that counts as good. -/
def coapStatusGood (coapStatus : ℕ) : Bool :=
  decide (created201 ≤ coapStatus ∧ coapStatus ≤ content205)

/-- `tm_task_submission_good`, with whether to update at all. -/
def tmTaskSubmissionGood (info : TaskSubmissionInfo) : Bool × Bool :=
  (decide (info.coapRequestStatus=.response) && coapStatusGood info.coapStatus,
    decide (info.coapRequestStatus≠.finished))

/-- `tm_challenge_response_good`, with whether to update at all. -/
def tmChallengeResponseGood : ChallengeResponseInfo → Bool × Bool
  | .ack coapStatus coapRequestStatus =>
    let good := decide (coapRequestStatus=.response) && coapStatusGood coapStatus
    (good,!good && decide (coapRequestStatus≠.finished))
  | .timeout neverReceived receivedLate => (!neverReceived && !receivedLate,true)
  | .resp challengeSuccessful challengeLate => (challengeSuccessful,!challengeLate)

/-- How a trust model changes the values of an edge and a capability. -/
structure TrustModel (ET CT : Type) where
  /-- `tm_update_task_submission`. -/
  taskSubmission : TaskSubmissionInfo → ET × CT → ET × CT
  /-- `tm_update_task_result`. -/
  taskResult : TaskResultInfo → ET × CT → ET × CT
  /-- `tm_update_result_quality`, given whether the result is good. -/
  resultQuality : Bool → ET × CT → ET × CT
  /-- `tm_update_task_throughput`. -/
  taskThroughput : ThroughputInfo → ET × CT → ET × CT

variable {ne nc : ℕ} {ET CT : Type}

/-- Trust values of an edge and of one of its capabilities. -/
def trustOf (s : EdgeStore ne nc ET CT) (e : Fin ne) (c : Fin (ne*nc)) : ET × CT :=
  ((s.edge e).tm,(s.cap c).tm)

/-- Store new trust values of an edge and of one of its capabilities. -/
def updateTrust (s : EdgeStore ne nc ET CT) (e : Fin ne) (c : Fin (ne*nc))
    (update : ET × CT → ET × CT) : EdgeStore ne nc ET CT :=
  (s.setEdge e {s.edge e with tm := (update (trustOf s e c)).1}).setCap c
    {s.cap c with tm := (update (trustOf s e c)).2}

/-- `tm_update_challenge_response`, which every trust model begins with the
same test; the rest depends on the model, is told whether the outcome is good
and works on the edge and on the named capability, if the edge has it. -/
def tmUpdateChallengeResponse (update : Bool → ET × Option CT → ET × Option CT)
    (name : List UInt8) (s : EdgeStore ne nc ET CT) (e : Fin ne) (info : ChallengeResponseInfo) :
    EdgeStore ne nc ET CT :=
  let good := tmChallengeResponseGood info
  if good.2=false then s
  else match edgeInfoCapabilityFind s e name with
    | none => s.setEdge e {s.edge e with tm := (update good.1 ((s.edge e).tm,none)).1}
    | some c =>
      let tm := update good.1 ((s.edge e).tm,some (s.cap c).tm)
      (s.setEdge e {s.edge e with tm := tm.1}).setCap c
        {s.cap c with tm := tm.2.getD (s.cap c).tm}

/-- An update changes the store exactly when it changes the values it is given. -/
theorem updateTrust_eq_iff (s : EdgeStore ne nc ET CT) (e : Fin ne) (c : Fin (ne*nc))
    (update : ET × CT → ET × CT) :
    updateTrust s e c update=s ↔ update (trustOf s e c)=trustOf s e c := by
  constructor
  · intro h
    have hedge : (updateTrust s e c update).edge e=
        {s.edge e with tm := (update (trustOf s e c)).1} :=
      s.edgeResourcesMemb.set_mem_same e _
    have hcap : (updateTrust s e c update).cap c=
        {s.cap c with tm := (update (trustOf s e c)).2} :=
      s.edgeCapabilitiesMemb.set_mem_same c _
    rw [h] at hedge hcap
    exact Prod.ext (congrArg EdgeResource.tm hedge).symm (congrArg EdgeCapability.tm hcap).symm
  · intro h
    unfold updateTrust
    rw [h]
    change (s.setEdge e (s.edge e)).setCap c ((s.setEdge e (s.edge e)).cap c)=s
    rw [EdgeStore.setCap_self,EdgeStore.setEdge_self]

end TrustAlloc.TrustModels
