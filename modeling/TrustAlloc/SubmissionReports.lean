import TrustAlloc.Monitoring
import TrustAlloc.RoutingTask

/-!
# What becomes known of a submission

The callback of a request runs more than once, and both applications report
from it to the trust model whenever it runs. The requests are recorded here
next to an application, with the reports that were made for them. Each request
that is over has been counted as one submission, as the report of its end is
left out. The throughput is reported without such a rule.
-/

namespace TrustAlloc.SubmissionReports

open EdgeInfo Runs TrustModels

section Reports

variable {ne nc : ℕ} {ET CT : Type}

/-- A report of a callback to the trust model. -/
inductive Report where
  /-- `tm_update_task_submission`. -/
  | taskSubmission (info : TaskSubmissionInfo)
  /-- `tm_update_task_throughput`. -/
  | taskThroughput (info : ThroughputInfo)
  deriving DecidableEq

/-- What a report changes. -/
def Report.apply (trust : TrustModel ET CT) : Report → ET × CT → ET × CT
  | .taskSubmission info => trust.taskSubmission info
  | .taskThroughput info => trust.taskThroughput info

/-- Reports on an edge and one of its capabilities, one after the other. -/
def applyReports (trust : TrustModel ET CT) (edges : EdgeStore ne nc ET CT) (e : Fin ne)
    (c : Fin (ne*nc)) (reports : List Report) : EdgeStore ne nc ET CT :=
  reports.foldl (fun edges report => updateTrust edges e c (report.apply trust)) edges

/-- A submission counts if it should update the trust. -/
def Report.counted : Report → ℕ
  | .taskSubmission info => if (tmTaskSubmissionGood info).2 then 1 else 0
  | .taskThroughput _ => 0

/-- A sample of the throughput to the edge. -/
def Report.sample : Report → ℕ
  | .taskSubmission _ => 0
  | .taskThroughput info => if info.direction=.outward then 1 else 0

/-- What `send_callback` of both applications reports for an edge that has the
capability. The code is that of a response. -/
def callbackReports (monitorThroughput : Bool) (throughput : UInt32) (status : CoapRequestStatus)
    (code : ℕ) : List Report :=
  .taskSubmission ⟨if status=.response then code else noError,status⟩::
    if monitorThroughput=true then [.taskThroughput ⟨.outward,throughput⟩] else []

/-- The monitoring application reports so. -/
theorem monitoring_sendCallback (env : Monitoring.Env ET CT) (now : ℕ) (sentTo : IpAddr)
    (status : CoapRequestStatus) (code : ℕ) (s : Monitoring.State ne nc ET CT) :
    (Monitoring.sendCallback env now sentTo status code s).edges=
      match Monitoring.findMonitoring s.edges s.ep with
      | none => s.edges
      | some (e,c) => applyReports env.trust s.edges e c
        (callbackReports env.monitorThroughput (env.throughput s.outLen (now-s.outTime)) status
          code) := by
  unfold Monitoring.sendCallback callbackReports applyReports
  have hrelease : (Monitoring.releaseLock status s).edges=s.edges ∧
      (Monitoring.releaseLock status s).ep=s.ep ∧
      (Monitoring.releaseLock status s).outLen=s.outLen ∧
      (Monitoring.releaseLock status s).outTime=s.outTime := by
    cases status <;> exact ⟨rfl,rfl,rfl,rfl⟩
  obtain ⟨hedges,hep,hlen,htime⟩ := hrelease
  dsimp only
  rw [hedges,hep,hlen,htime]
  cases hfind : Monitoring.findMonitoring s.edges s.ep with
  | none => exact hedges
  | some ec => cases env.monitorThroughput <;> rfl

/-- So does the routing application. -/
theorem routing_sendCallback {F D : Type} (env : Routing.Env ET CT F D) (now : ℕ)
    (status : CoapRequestStatus) (code : ℕ) (s : Routing.State ne nc ET CT F) :
    (Routing.sendCallback env now status code s).edges=
      match Routing.findRouting s.edges s.ep with
      | none => s.edges
      | some (e,c) => applyReports env.trust s.edges e c
        (callbackReports env.monitorThroughput
          (env.throughput s.app.outLen (now-s.app.outTime)) status code) := by
  unfold Routing.sendCallback callbackReports applyReports Routing.reportThroughput
  have hrelease : (Routing.releaseLocks status code s).edges=s.edges ∧
      (Routing.releaseLocks status code s).ep=s.ep ∧
      (Routing.releaseLocks status code s).app=s.app := by
    cases status
    case response =>
      unfold Routing.releaseLocks
      dsimp only
      split <;> exact ⟨rfl,rfl,rfl⟩
    all_goals exact ⟨rfl,rfl,rfl⟩
  obtain ⟨hedges,hep,happ⟩ := hrelease
  dsimp only
  rw [hedges,hep,happ]
  cases hfind : Routing.findRouting s.edges s.ep with
  | none => exact hedges
  | some ec => cases env.monitorThroughput <;> rfl

end Reports

section Requests

/-- How far a request is. -/
inductive Stage where
  /-- It was accepted. -/
  | sent
  /-- The response has arrived. -/
  | answered
  deriving DecidableEq

/-- A request and the reports that were made for it. -/
structure Request where
  /-- How far it is. -/
  stage : Stage
  /-- Counted submissions. -/
  counted : ℕ
  /-- Samples of the throughput to the edge. -/
  samples : ℕ
  deriving DecidableEq

/-- A request after a callback with some reports. -/
def Request.after (r : Request) (status : CoapRequestStatus) (reports : List Report) : Request where
  stage := if status=.response then .answered else r.stage
  counted := r.counted+(reports.map Report.counted).sum
  samples := r.samples+(reports.map Report.sample).sum

/-- An application that sends requests. -/
structure Application (S O : Type) where
  /-- One step that is no callback. -/
  step : S → O → S
  /-- Whether a request is accepted in the step. -/
  accepts : S → O → Bool
  /-- The callback for an outstanding request. -/
  callback : (now i : ℕ) → CoapRequestStatus → (code : ℕ) → S → S
  /-- Whether the edge in `ep` has the capability. -/
  registered : S → Bool
  /-- Whether throughput is monitored. -/
  monitorThroughput : Bool
  /-- What is reported as the throughput. -/
  throughput : (now : ℕ) → S → UInt32
  /-- Whether a step is one of these, and not a callback. -/
  other : O → Bool

/-- An application and its requests, newest first. -/
structure Tracked (S : Type) where
  /-- The application. -/
  app : S
  /-- Requests under way. -/
  outstanding : List Request
  /-- Requests that are over. -/
  ended : List Request

/-- A step of an application, or the callback for a request under way. -/
inductive TrackedOp (O : Type) where
  /-- Another step. -/
  | other (op : O)
  /-- The CoAP library calls back. -/
  | callback (now i : ℕ) (status : CoapRequestStatus) (code : ℕ)

variable {S O : Type} (a : Application S O)

/-- What a callback reports. -/
def Application.reports (now : ℕ) (status : CoapRequestStatus) (code : ℕ) (s : S) : List Report :=
  if a.registered s then callbackReports a.monitorThroughput (a.throughput now s) status code
  else []

/-- One step of the application, recorded. -/
def Application.track (s : Tracked S) : TrackedOp O → Tracked S
  | .other op => {s with
      app := a.step s.app op
      outstanding := if a.accepts s.app op then ⟨.sent,0,0⟩::s.outstanding else s.outstanding}
  | .callback now i status code =>
    match s.outstanding[i]? with
    | none => s
    | some r =>
      let app := a.callback now i status code s.app
      let r := r.after status (a.reports now status code s.app)
      match status with
      | .response | .more => {s with app := app,outstanding := s.outstanding.set i r}
      | .finished | .timeout | .blockError =>
        {app := app,outstanding := s.outstanding.eraseIdx i,ended := r::s.ended}

/-- A status that can come next: a request is answered and then finished, or it
ends with an error. -/
def Follows : Stage → CoapRequestStatus → Prop
  | .sent,status => status=.response ∨ status=.timeout ∨ status=.blockError
  | .answered,status => status=.finished

/-- Callbacks are for requests under way, with a status that can come next, and
while the chosen edge has the capability. -/
def Application.Orderly (s : Tracked S) : TrackedOp O → Prop
  | .other op => a.other op=true
  | .callback _ i status _ =>
    a.registered s.app=true ∧ ∃ r∈s.outstanding[i]?, Follows r.stage status

/-- Each request is counted as one submission when it is over, and never as
more, and never gives more than one sample of the throughput. -/
def OneObservation (s : Tracked S) : Prop :=
  (∀ r∈s.ended, r.counted=1 ∧ r.samples≤1) ∧ ∀ r∈s.outstanding, r.counted≤1 ∧ r.samples≤1

/-- No request is finished while throughput is monitored. -/
def Application.NoneFinished (_ : Tracked S) : TrackedOp O → Prop
  | .callback _ _ .finished _ => a.monitorThroughput=false
  | _ => True

/-- The reports of a request under way. -/
def Application.AsReported (r : Request) : Prop :=
  r=⟨.sent,0,0⟩ ∨ r=⟨.answered,1,if a.monitorThroughput=true then 1 else 0⟩

/-- A callback reports one submission, which is counted unless the request is
finished, and a sample if throughput is monitored. -/
theorem Application.reports_count {s : S} (hs : a.registered s=true) (now : ℕ)
    (status : CoapRequestStatus) (code : ℕ) :
    ((a.reports now status code s).map Report.counted).sum=(if status=.finished then 0 else 1) ∧
    ((a.reports now status code s).map Report.sample).sum=
      if a.monitorThroughput=true then 1 else 0 := by
  unfold Application.reports callbackReports
  rw [if_pos hs]
  cases a.monitorThroughput <;> cases status <;> exact ⟨rfl,rfl⟩

/-- What a request under way becomes when a status comes next. -/
theorem Application.AsReported.after {a : Application S O} {r : Request} (h : a.AsReported r)
    {s : S} (hs : a.registered s=true) (now : ℕ) {status : CoapRequestStatus}
    (hstatus : Follows r.stage status) (code : ℕ) :
    (status=.response →
      r.after status (a.reports now status code s)=
        ⟨.answered,1,if a.monitorThroughput=true then 1 else 0⟩) ∧
    (status≠.response →
      (r.after status (a.reports now status code s)).counted=1 ∧
      ((r.after status (a.reports now status code s)).samples≤1 ↔
        status=.finished → a.monitorThroughput=false)) := by
  obtain ⟨hcounted,hsample⟩ := a.reports_count hs now status code
  unfold Request.after
  rw [hcounted,hsample]
  rcases h with rfl | rfl
  · rcases hstatus with rfl | rfl | rfl
    · exact ⟨fun _ => by simp,fun h => absurd rfl h⟩
    · refine ⟨fun h => (nomatch h),fun _ => ⟨rfl,?_⟩⟩
      cases a.monitorThroughput <;> simp
    · refine ⟨fun h => (nomatch h),fun _ => ⟨rfl,?_⟩⟩
      cases a.monitorThroughput <;> simp
  · cases hstatus
    refine ⟨fun h => (nomatch h),fun _ => ⟨rfl,?_⟩⟩
    cases a.monitorThroughput <;> simp

/-- Requests under way have been reported as far as they are. -/
def Application.Underway (s : Tracked S) : Prop := ∀ r∈s.outstanding, a.AsReported r

/-- An orderly step keeps that. -/
theorem Application.Underway.track {a : Application S O} {s : Tracked S} (h : a.Underway s)
    {op : TrackedOp O} (hop : a.Orderly s op) : a.Underway (a.track s op) := by
  cases op with
  | other op =>
    intro r hr
    dsimp only [Application.track] at hr
    split at hr
    · rcases List.mem_cons.mp hr with rfl | hold
      · exact Or.inl rfl
      · exact h r hold
    · exact h r hr
  | callback now i status code =>
    obtain ⟨hs,r,hr,hstatus⟩ := hop
    have hi : s.outstanding[i]?=some r := hr
    have hafter := (h r (List.mem_of_getElem? hi)).after hs now hstatus code
    intro r' hr'
    dsimp only [Application.track] at hr'
    rw [hi] at hr'
    cases status with
    | response =>
      rcases List.mem_or_eq_of_mem_set hr' with hold | rfl
      · exact h r' hold
      · exact Or.inr (hafter.1 rfl)
    | more => cases hstage : r.stage <;> rw [hstage] at hstatus <;> simp [Follows] at hstatus
    | finished | timeout | blockError => exact h r' (List.mem_of_mem_eraseIdx hr')

/-- An orderly step keeps one observation of each request, exactly if it does
not finish a request while throughput is monitored. -/
theorem Application.oneObservation_track_iff {s : Tracked S} (h : a.Underway s)
    (hone : OneObservation s) {op : TrackedOp O} (hop : a.Orderly s op) :
    OneObservation (a.track s op) ↔ a.NoneFinished s op := by
  have hunderway := h.track hop
  have houtstanding : ∀ r∈(a.track s op).outstanding, r.counted≤1 ∧ r.samples≤1 := by
    intro r hr
    rcases hunderway r hr with rfl | rfl
    · exact ⟨Nat.zero_le _,Nat.zero_le _⟩
    · refine ⟨le_refl _,?_⟩
      dsimp only
      split <;> omega
  cases op with
  | other op => exact ⟨fun _ => trivial,fun _ => ⟨hone.1,houtstanding⟩⟩
  | callback now i status code =>
    obtain ⟨hs,r,hr,hstatus⟩ := hop
    have hi : s.outstanding[i]?=some r := hr
    have hafter := (h r (List.mem_of_getElem? hi)).after hs now hstatus code
    have hending : status≠.response →
        (a.track s (.callback now i status code)).ended=
          r.after status (a.reports now status code s.app)::s.ended →
        (OneObservation (a.track s (.callback now i status code)) ↔
          (status=.finished → a.monitorThroughput=false)) := by
      intro hresponse hended
      obtain ⟨hcounted,hsamples⟩ := hafter.2 hresponse
      rw [OneObservation,hended,List.forall_mem_cons,←hsamples]
      exact ⟨fun hall => hall.1.1.2,fun hle => ⟨⟨⟨hcounted,hle⟩,hone.1⟩,houtstanding⟩⟩
    cases status with
    | response =>
      have hended : (a.track s (.callback now i .response code)).ended=s.ended := by
        dsimp only [Application.track]
        rw [hi]
      exact ⟨fun _ => trivial,fun _ => ⟨hended ▸ hone.1,houtstanding⟩⟩
    | more => cases hstage : r.stage <;> rw [hstage] at hstatus <;> simp [Follows] at hstatus
    | finished =>
      rw [hending (by decide) (by dsimp only [Application.track]; rw [hi])]
      exact ⟨fun h => h rfl,fun h _ => h⟩
    | timeout =>
      rw [hending (by decide) (by dsimp only [Application.track]; rw [hi])]
      exact ⟨fun _ => trivial,fun _ h => (nomatch h)⟩
    | blockError =>
      rw [hending (by decide) (by dsimp only [Application.track]; rw [hi])]
      exact ⟨fun _ => trivial,fun _ h => (nomatch h)⟩

/-- In an orderly run that starts without requests, each request is one
observation throughout, exactly if none is finished while throughput is
monitored. -/
theorem Application.oneObservation_always {s : S} {ops : List (TrackedOp O)}
    (hops : Along a.track a.Orderly ⟨s,[],[]⟩ ops) :
    Always a.track OneObservation ⟨s,[],[]⟩ ops ↔ Along a.track a.NoneFinished ⟨s,[],[]⟩ ops :=
  always_iff_along (I:=a.Underway) (fun _ _ h hop => h.track hop)
    (fun _ _ h hone hop => a.oneObservation_track_iff h hone hop) (fun _ hr => (nomatch hr))
    ⟨fun _ hr => (nomatch hr),fun _ hr => (nomatch hr)⟩ hops

end Requests

section Decidable

/-- What can come next is decided by the stage. -/
instance decidableFollows : ∀ stage status, Decidable (Follows stage status)
  | .sent,_ => inferInstanceAs (Decidable (_ ∨ _ ∨ _))
  | .answered,status => inferInstanceAs (Decidable (status=_))

variable {S O : Type} (a : Application S O) (s : Tracked S)

/-- One observation of each request is decided by the records. -/
instance decidableOneObservation : DecidablePred (OneObservation (S:=S)) :=
  fun s => inferInstanceAs (Decidable ((∀ r∈s.ended,_) ∧ ∀ r∈s.outstanding,_))

/-- Order is decided by the application and the records. -/
instance decidableOrderly : ∀ op, Decidable (a.Orderly s op)
  | .other op => inferInstanceAs (Decidable (a.other op=true))
  | .callback _ i _ _ =>
    inferInstanceAs (Decidable (a.registered s.app=true ∧ ∃ r∈s.outstanding[i]?, _))

end Decidable

section Applications

variable {ne nc : ℕ} {ET CT : Type}

/-- The monitoring application. -/
def monitoring (env : Monitoring.Env ET CT) :
    Application (Monitoring.State ne nc ET CT) (Monitoring.Op ne nc ET CT) where
  step := Monitoring.step env
  accepts s op := decide (s.inFlight.length < (Monitoring.step env s op).inFlight.length)
  callback now i status code s := Monitoring.step env s (.callback now i status code)
  registered s := (Monitoring.findMonitoring s.edges s.ep).isSome
  monitorThroughput := env.monitorThroughput
  throughput now s := env.throughput s.outLen (now-s.outTime)
  other
    | .callback _ _ _ _ => false
    | _ => true

/-- The tasks that were submitted. -/
def submissions {F : Type} (log : List (Routing.Event F)) : ℕ :=
  log.countP fun
    | .submitted _ _ => true
    | _ => false

/-- The routing application. -/
def routing {F D : Type} (env : Routing.Env ET CT F D) :
    Application (Routing.State ne nc ET CT F) (Routing.Op ne nc ET CT F) where
  step := Routing.step env
  accepts s op := decide (submissions s.log < submissions (Routing.step env s op).log)
  callback now _ status code s := Routing.step env s (.callback now status code)
  registered s := (Routing.findRouting s.edges s.ep).isSome
  monitorThroughput := env.monitorThroughput
  throughput now s := env.throughput s.app.outLen (now-s.app.outTime)
  other
    | .callback _ _ _ => false
    | _ => true

/-- The unfinished requests of the monitoring application are those under way. -/
def InStep (s : Tracked (Monitoring.State ne nc ET CT)) : Prop :=
  s.app.inFlight.length=s.outstanding.length

/-- The request of a callback is unfinished. -/
theorem InStep.sentTo {env : Monitoring.Env ET CT} {s : Tracked (Monitoring.State ne nc ET CT)}
    (h : InStep s) {now i : ℕ} {status : CoapRequestStatus} {code : ℕ}
    (hop : (monitoring env).Orderly s (.callback now i status code)) :
    ∃ sentTo, s.app.inFlight[i]?=some sentTo := by
  obtain ⟨_,r,hr,_⟩ := hop
  have hlt := (List.getElem?_eq_some_iff.mp hr).1
  rw [←h] at hlt
  exact ⟨_,List.getElem?_eq_getElem hlt⟩

/-- An orderly step of the monitoring application keeps them the same. -/
theorem InStep.track {env : Monitoring.Env ET CT} {s : Tracked (Monitoring.State ne nc ET CT)}
    (h : InStep s) {op : TrackedOp (Monitoring.Op ne nc ET CT)}
    (hop : (monitoring env).Orderly s op) : InStep ((monitoring env).track s op) := by
  cases op with
  | other op =>
    have hgrows : (Monitoring.step env s.app op).inFlight.length=s.app.inFlight.length ∨
        (Monitoring.step env s.app op).inFlight.length=s.app.inFlight.length+1 := by
      cases op with
      | callback now i status code => cases hop
      | timerEvent now p =>
        dsimp only [Monitoring.step]
        split
        · exact Or.inl rfl
        · obtain ⟨_,_,⟨_,hin,_⟩ | ⟨_,⟨hin,_⟩ | ⟨hin,_⟩⟩⟩ :=
            Monitoring.periodicAction_cases env now p {s.app with pending := s.app.pending-1}
          · exact Or.inl (congrArg List.length hin)
          · exact Or.inl (congrArg List.length hin)
          · exact Or.inr (congrArg List.length hin)
      | capabilityAdd now => exact Or.inl rfl
      | capabilityRemove => exact Or.inl rfl
      | periodicExpires now => exact Or.inl (by dsimp only [Monitoring.step]; split <;> rfl)
      | shortExpires now => exact Or.inl (by dsimp only [Monitoring.step]; split <;> rfl)
      | coapExpires now => exact Or.inl (by dsimp only [Monitoring.step]; split <;> rfl)
      | edges edges => exact Or.inl rfl
    unfold InStep at h ⊢
    simp only [Application.track,monitoring,decide_eq_true_eq]
    rcases hgrows with hsame | hmore
    · rw [hsame,if_neg (Nat.lt_irrefl _),h]
    · rw [hmore,if_pos (Nat.lt_succ_self _),h,List.length_cons]
  | callback now i status code =>
    obtain ⟨sentTo,hin⟩ := h.sentTo hop
    obtain ⟨_,r,hr,_⟩ := hop
    have hi : s.outstanding[i]?=some r := hr
    have hkept := fun (s' : Monitoring.State ne nc ET CT) =>
      (Monitoring.sendCallback_guard env now sentTo status code s').1
    unfold InStep at h ⊢
    simp only [Application.track,hi,monitoring,Monitoring.step,hin]
    cases status <;> simp only [hkept,Monitoring.finish,List.length_set,List.length_eraseIdx,h]

/-- They stay the same throughout an orderly run. -/
theorem inStep_always (env : Monitoring.Env ET CT) (edges : EdgeStore ne nc ET CT)
    {ops : List (TrackedOp (Monitoring.Op ne nc ET CT))}
    (hops : Along (monitoring env).track (monitoring env).Orderly
      ⟨Monitoring.start env edges,[],[]⟩ ops) :
    Always (monitoring env).track InStep ⟨Monitoring.start env edges,[],[]⟩ ops :=
  always_of_step (fun _ _ h hop => h.track hop) rfl hops

/-- Then every callback changes the edges by what is recorded. -/
theorem InStep.callback {env : Monitoring.Env ET CT}
    {s : Tracked (Monitoring.State ne nc ET CT)} (h : InStep s) {now i : ℕ}
    {status : CoapRequestStatus} {code : ℕ}
    (hop : (monitoring env).Orderly s (.callback now i status code)) :
    ∃ e c, Monitoring.findMonitoring s.app.edges s.app.ep=some (e,c) ∧
      ((monitoring env).track s (.callback now i status code)).app.edges=
        applyReports env.trust s.app.edges e c
          ((monitoring env).reports now status code s.app) := by
  obtain ⟨sentTo,hin⟩ := h.sentTo hop
  obtain ⟨hs,r,hr,_⟩ := hop
  have hi : s.outstanding[i]?=some r := hr
  obtain ⟨⟨e,c⟩,hfind⟩ := Option.isSome_iff_exists.mp hs
  have happ : ((monitoring env).track s (.callback now i status code)).app=
      Monitoring.sendCallback env now sentTo status code
        {s.app with inFlight := Monitoring.finish status i s.app.inFlight} := by
    simp only [Application.track,hi,monitoring,Monitoring.step,hin]
    cases status <;> rfl
  refine ⟨e,c,hfind,?_⟩
  rw [happ,monitoring_sendCallback,Application.reports,if_pos hs]
  dsimp only
  rw [hfind]
  rfl

/-- In every run of the routing application a callback changes the edges by
what is recorded. -/
theorem routing_callback {F D : Type} {env : Routing.Env ET CT F D}
    {s : Tracked (Routing.State ne nc ET CT F)} {now i : ℕ} {status : CoapRequestStatus}
    {code : ℕ} (hop : (routing env).Orderly s (.callback now i status code)) :
    ∃ e c, Routing.findRouting s.app.edges s.app.ep=some (e,c) ∧
      ((routing env).track s (.callback now i status code)).app.edges=
        applyReports env.trust s.app.edges e c
          ((routing env).reports now status code s.app) := by
  obtain ⟨hs,r,hr,_⟩ := hop
  have hi : s.outstanding[i]?=some r := hr
  obtain ⟨⟨e,c⟩,hfind⟩ := Option.isSome_iff_exists.mp hs
  have happ : ((routing env).track s (.callback now i status code)).app=
      Routing.sendCallback env now status code s.app := by
    simp only [Application.track,hi,routing,Routing.step]
    cases status <;> rfl
  refine ⟨e,c,hfind,?_⟩
  rw [happ,routing_sendCallback,Application.reports,if_pos hs,hfind]
  rfl

/-- In orderly runs of both applications, whatever the surroundings do, each
accepted request is one counted submission when it is over and at most one
sample of the throughput, exactly if none is finished while throughput is
monitored. -/
theorem oneObservation_always_iff {F D : Type} (menv : Monitoring.Env ET CT)
    (renv : Routing.Env ET CT F D) (edges : EdgeStore ne nc ET CT) (zero : F) (clockSecond : ℕ)
    {mops : List (TrackedOp (Monitoring.Op ne nc ET CT))}
    {rops : List (TrackedOp (Routing.Op ne nc ET CT F))}
    (hm : Along (monitoring menv).track (monitoring menv).Orderly
      ⟨Monitoring.start menv edges,[],[]⟩ mops)
    (hr : Along (routing renv).track (routing renv).Orderly
      ⟨Routing.start edges zero clockSecond,[],[]⟩ rops) :
    (Always (monitoring menv).track OneObservation ⟨Monitoring.start menv edges,[],[]⟩ mops ↔
      Along (monitoring menv).track (monitoring menv).NoneFinished
        ⟨Monitoring.start menv edges,[],[]⟩ mops) ∧
    (Always (routing renv).track OneObservation ⟨Routing.start edges zero clockSecond,[],[]⟩ rops ↔
      Along (routing renv).track (routing renv).NoneFinished
        ⟨Routing.start edges zero clockSecond,[],[]⟩ rops) :=
  ⟨(monitoring menv).oneObservation_always hm,(routing renv).oneObservation_always hr⟩

end Applications

section Sample

/-- Data is sent to an edge, and the edge answers. -/
def sampleAnswered : List (TrackedOp (Monitoring.Op 4 3 ℕ ℕ)) :=
  [.other (.edges (sampleStore Monitoring.monitoringApplicationName)),.other (.capabilityAdd 0)]++
    (Monitoring.sampleSend 60 sampleFirst).map .other++[.callback 61 0 .response content205]

/-- A task is submitted to an edge, and the edge answers. -/
def sampleTasked : List (TrackedOp (Routing.Op 4 3 ℕ ℕ (List UInt8))) :=
  [.other Routing.sampleEdges,.other (Routing.sampleSubmit 0),.callback 1 0 .response content205]

/-- The answers are one observation each, without monitoring also when the
requests are finished. -/
theorem oneObservation_always_iff_sample :
    (Always (monitoring Monitoring.sampleMonitoringEnv).track OneObservation
        ⟨Monitoring.start Monitoring.sampleMonitoringEnv (edgeInfoInit 4 3 0 0),[],[]⟩
        (sampleAnswered++[.callback 62 0 .finished 0]) ↔
      Along (monitoring Monitoring.sampleMonitoringEnv).track
        (monitoring Monitoring.sampleMonitoringEnv).NoneFinished
        ⟨Monitoring.start Monitoring.sampleMonitoringEnv (edgeInfoInit 4 3 0 0),[],[]⟩
        (sampleAnswered++[.callback 62 0 .finished 0])) ∧
    (Always (routing Routing.sampleEnv).track OneObservation
        ⟨Routing.start (edgeInfoInit 4 3 0 0) [0,0,0,0] 1,[],[]⟩
        (sampleTasked++[.callback 2 0 .finished 0]) ↔
      Along (routing Routing.sampleEnv).track (routing Routing.sampleEnv).NoneFinished
        ⟨Routing.start (edgeInfoInit 4 3 0 0) [0,0,0,0] 1,[],[]⟩
        (sampleTasked++[.callback 2 0 .finished 0])) :=
  oneObservation_always_iff Monitoring.sampleMonitoringEnv Routing.sampleEnv
    (edgeInfoInit 4 3 0 0) [0,0,0,0] 1 (by decide) (by decide)

/-- With monitoring, the request that is finished gives a second sample. -/
theorem not_oneObservation_of_finished :
    Along (monitoring {Monitoring.sampleMonitoringEnv with monitorThroughput := true}).track
      (monitoring {Monitoring.sampleMonitoringEnv with monitorThroughput := true}).Orderly
      ⟨Monitoring.start Monitoring.sampleMonitoringEnv (edgeInfoInit 4 3 0 0),[],[]⟩
      (sampleAnswered++[.callback 62 0 .finished 0]) ∧
    ¬Always (monitoring {Monitoring.sampleMonitoringEnv with monitorThroughput := true}).track
      OneObservation ⟨Monitoring.start Monitoring.sampleMonitoringEnv (edgeInfoInit 4 3 0 0),[],[]⟩
      (sampleAnswered++[.callback 62 0 .finished 0]) ∧
    Along (routing {Routing.sampleEnv with monitorThroughput := true}).track
      (routing {Routing.sampleEnv with monitorThroughput := true}).Orderly
      ⟨Routing.start (edgeInfoInit 4 3 0 0) [0,0,0,0] 1,[],[]⟩
      (sampleTasked++[.callback 2 0 .finished 0]) ∧
    ¬Always (routing {Routing.sampleEnv with monitorThroughput := true}).track OneObservation
      ⟨Routing.start (edgeInfoInit 4 3 0 0) [0,0,0,0] 1,[],[]⟩
      (sampleTasked++[.callback 2 0 .finished 0]) := by
  decide

end Sample

end TrustAlloc.SubmissionReports
