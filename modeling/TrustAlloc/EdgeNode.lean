import TrustAlloc.CapabilityTopics
import TrustAlloc.RouteChunks

/-!
# The processes of an edge

`edge.c` and the process of `capability.c`. The resource rich node writes
lines, which say that it or an application on it has started or stopped. A
timer publishes an announce again and again, often at first and then rarely,
and another one goes through the applications and publishes for each whether
it is there. The two work on the same data, and a timer whose event is posted
already is not taken back by stopping it. When a timer expires, and what is
left of it when it is asked, is chosen by the run.
-/

namespace TrustAlloc.EdgeNode

open CapabilityTopics MqttPublish RouteChunks TaskResponse

section Timers

/-- `struct etimer`, with the events that it has posted. -/
structure Etimer where
  /-- Ticks from one expiry to the next. -/
  interval : ℕ
  /-- The timer is going to expire. -/
  armed : Bool
  /-- Events that were posted and not yet taken. -/
  posted : ℕ
  deriving DecidableEq

/-- `etimer_reset`. -/
def Etimer.reset (t : Etimer) : Etimer := {t with armed := true}

/-- `etimer_set` and `etimer_reset_with_new_interval`. -/
def Etimer.resetWithNewInterval (t : Etimer) (interval : ℕ) : Etimer := {t with
  interval := interval
  armed := true}

/-- `etimer_stop`, which leaves events that are posted. -/
def Etimer.stop (t : Etimer) : Etimer := {t with armed := false}

/-- The timer expires and posts an event, if it is armed. -/
def Etimer.expire (t : Etimer) : Etimer :=
  if t.armed=true then {t with
    armed := false
    posted := t.posted+1}
  else t

/-- An event of the timer is taken. -/
def Etimer.take (t : Etimer) : Etimer := {t with posted := t.posted-1}

/-- The timer is going to run its action, now or later. -/
def Etimer.Live (t : Etimer) : Prop := t.armed=true ∨ 0 < t.posted

/-- Whether it is going to is decided. -/
instance decidableLive (t : Etimer) : Decidable t.Live := inferInstanceAs (Decidable (_ ∨ _))

end Timers

/-- What an edge with a number of applications is built with. -/
structure EdgeBuild (num : ℕ) extends CapabilityEnv where
  /-- `application_names`. -/
  applicationNames : Vector (List UInt8) num
  /-- `CLOCK_SECOND`. -/
  clockSecond : ℕ
  /-- There is an application. -/
  populated : 0 < num
  /-- Every index is an `int8_t`. -/
  indexable : num≤128
  /-- Names differ. -/
  distinct : applicationNames.toList.Nodup
  /-- Time passes. -/
  ticking : 0 < clockSecond

/-- When `capability.c` publishes: its timers and counters. -/
structure Schedule where
  /-- `publish_announce_timer`. -/
  publishAnnounceTimer : Etimer
  /-- `publish_capability_timer`. -/
  publishCapabilityTimer : Etimer
  /-- `announce_short_count`. -/
  announceShortCount : UInt8
  /-- `application_capability_publish_idx`. -/
  applicationCapabilityPublishIdx : UInt8
  deriving DecidableEq

/-- The data of the two processes, and what they have put out. -/
structure State (num : ℕ) where
  /-- The topic buffer and the client that publishes. -/
  topics : CapabilityTopics.State
  /-- The timers and counters. -/
  schedule : Schedule
  /-- `applications_available`. -/
  applicationsAvailable : Vector Bool num
  /-- `resource_rich_edge_started`. -/
  resourceRichEdgeStarted : Bool
  /-- An array was read outside of its bounds. -/
  overran : Bool
  /-- The lines that were printed for the resource rich node. -/
  printed : List (List UInt8)
  /-- Names of processes, and what was posted to them. -/
  postedData : List (List UInt8×List UInt8)

variable {num : ℕ} (b : EdgeBuild num)

section Capability

/-- `PUBLISH_ANNOUNCE_PERIOD_SHORT`. -/
def publishAnnouncePeriodShort : ℕ := b.clockSecond*30

/-- `PUBLISH_ANNOUNCE_PERIOD_LONG`. -/
def publishAnnouncePeriodLong : ℕ := publishAnnouncePeriodShort b*2*15

/-- `PUBLISH_CAPABILITY_PERIOD_SHORT`. -/
def publishCapabilityPeriodShort : ℕ := b.clockSecond*5

/-- `PUBLISH_CAPABILITY_PERIOD_LONG`. -/
def publishCapabilityPeriodLong : ℕ := publishCapabilityPeriodShort b*(num+20)

/-- `PUBLISH_ANNOUNCE_SHORT_TO_LONG`. -/
def publishAnnounceShortToLong : ℕ := 3

/-- `trigger_faster_publish`, with what `timer_remaining` returns. -/
def triggerFasterPublish (remaining : ℕ) (t : Schedule) : Schedule where
  publishAnnounceTimer :=
    if publishAnnouncePeriodShort b < remaining then
      t.publishAnnounceTimer.resetWithNewInterval (publishAnnouncePeriodShort b)
    else t.publishAnnounceTimer
  announceShortCount := 0
  applicationCapabilityPublishIdx := 0
  publishCapabilityTimer := t.publishCapabilityTimer.stop

/-- What `periodic_publish_announce` does to the timer of the capabilities,
by `resource_rich_edge_started` and the result of its publish. -/
def armCapabilities (started ret : Bool) (t : Schedule) : Schedule :=
  if ret=false then t
  else if started=true then {t with
    publishCapabilityTimer :=
      t.publishCapabilityTimer.resetWithNewInterval (publishCapabilityPeriodShort b)}
  else {t with publishCapabilityTimer := t.publishCapabilityTimer.stop}

/-- How `periodic_publish_announce` goes on with its own timer. -/
def rearmAnnounce (ret : Bool) (t : Schedule) : Schedule :=
  if t.publishAnnounceTimer.interval≤publishAnnouncePeriodShort b then
    let t := if ret=true then {t with announceShortCount := t.announceShortCount+1} else t
    if publishAnnounceShortToLong≤t.announceShortCount.toNat then {t with
      publishAnnounceTimer :=
        t.publishAnnounceTimer.resetWithNewInterval (publishAnnouncePeriodLong b)}
    else {t with publishAnnounceTimer := t.publishAnnounceTimer.reset}
  else {t with publishAnnounceTimer := t.publishAnnounceTimer.reset}

/-- How `periodic_publish_capability` goes on: to the next application if the
publish has worked, and after the last one from the first one on. -/
def rearmCapability (ret : Bool) (t : Schedule) : Schedule :=
  let t := if ret=true then
      {t with applicationCapabilityPublishIdx := t.applicationCapabilityPublishIdx+1}
    else t
  if t.applicationCapabilityPublishIdx.toNat=num then {t with
    publishCapabilityTimer :=
      t.publishCapabilityTimer.resetWithNewInterval (publishCapabilityPeriodLong b)
    applicationCapabilityPublishIdx := 0}
  else {t with publishCapabilityTimer :=
    t.publishCapabilityTimer.resetWithNewInterval (publishCapabilityPeriodShort b)}

/-- A publish of `capability.c`, with its result. -/
abbrev Publishing : Type := Occasion → CapabilityTopics.State → CapabilityTopics.State×Bool

/-- One of the publishes is called. -/
def State.publish (s : State num) (f : Publishing) (o : Occasion) : State num :=
  {s with topics := (f o s.topics).1}

/-- The publish of `periodic_publish_announce`. -/
def announcement (s : State num) : Publishing :=
  if s.resourceRichEdgeStarted=true then publishAnnounce b.toCapabilityEnv
  else publishUnannounce b.toCapabilityEnv

/-- `periodic_publish_announce`. -/
def periodicPublishAnnounce (o : Occasion) (s : State num) : State num :=
  let ret := (announcement b s o s.topics).2
  let s := s.publish (announcement b s) o
  {s with schedule :=
    rearmAnnounce b ret (armCapabilities b s.resourceRichEdgeStarted ret s.schedule)}

/-- The publish of `periodic_publish_capability` for an application. -/
def capabilityReport (s : State num) (i : Fin num) : Publishing :=
  if s.applicationsAvailable.get i=true then
    publishAddCapability b.toCapabilityEnv (b.applicationNames.get i) false
  else publishRemoveCapability b.toCapabilityEnv (b.applicationNames.get i) false

/-- `periodic_publish_capability`. -/
def periodicPublishCapability (o : Occasion) (s : State num) : State num :=
  if h : s.schedule.applicationCapabilityPublishIdx.toNat < num then
    let ret := (capabilityReport b s ⟨_,h⟩ o s.topics).2
    let s := s.publish (capabilityReport b s ⟨_,h⟩) o
    {s with schedule := rearmCapability b ret s.schedule}
  else {s with overran := true}

end Capability

section Edge

/-- `EDGE_SERIAL_START`. -/
def edgeSerialStart : List UInt8 := [0x73,0x74,0x61,0x72,0x74]

/-- `EDGE_SERIAL_STOP`. -/
def edgeSerialStop : List UInt8 := [0x73,0x74,0x6F,0x70]

/-- What is printed on a start or a stop, `!<action>|ack`. -/
def edgeAck (action : List UInt8) : List UInt8 :=
  edgeSerialPrefix::(action++[serialSep,0x61,0x63,0x6B])

/-- `index_of_application`. -/
def indexOfApplication (name : List UInt8) : Option (Fin num) :=
  (List.finRange num).find? fun i => decide (b.applicationNames.get i=name)

/-- `process_application_serial_message` when an application has started. -/
def applicationStarted (o : Occasion) (name : List UInt8) (s : State num) : State num :=
  match indexOfApplication b name with
  | none => s
  | some i => {s with
      applicationsAvailable := s.applicationsAvailable.set i.val true i.isLt}.publish
      (publishAddCapability b.toCapabilityEnv name true) o

/-- `process_application_serial_message` when an application has stopped. -/
def applicationStopped (o : Occasion) (name : List UInt8) (s : State num) : State num :=
  match indexOfApplication b name with
  | none => s
  | some i => {s with
      applicationsAvailable := s.applicationsAvailable.set i.val false i.isLt}.publish
      (publishRemoveCapability b.toCapabilityEnv name true) o

/-- `process_edge_serial_message` on a start, without the ack. -/
def bridgeStarted (remaining : ℕ) (s : State num) : State num :=
  if s.resourceRichEdgeStarted=true then s
  else {s with
    resourceRichEdgeStarted := true
    schedule := triggerFasterPublish b remaining s.schedule}

/-- `process_edge_serial_message` on a stop, without the ack. -/
def bridgeStopped (remaining : ℕ) (s : State num) : State num :=
  if s.resourceRichEdgeStarted=true then {s with
    applicationsAvailable := .replicate num false
    resourceRichEdgeStarted := false
    schedule := triggerFasterPublish b remaining s.schedule}
  else {s with applicationsAvailable := .replicate num false}

/-- `process_edge_serial_message`. -/
def processEdgeSerialMessage (remaining : ℕ) (data : List UInt8) (s : State num) : State num :=
  if matchAction data edgeSerialStart=true then
    let s := bridgeStarted b remaining s
    {s with printed := s.printed++[edgeAck edgeSerialStart]}
  else if matchAction data edgeSerialStop=true then
    let s := bridgeStopped b remaining s
    {s with printed := s.printed++[edgeAck edgeSerialStop]}
  else s

/-- What a line does, once it is known what it is. -/
def applyMessage (remaining : ℕ) (o : Occasion) (s : State num) : SerialMessage → State num
  | .start name => applicationStarted b o name s
  | .stop name => applicationStopped b o name s
  | .app name data => {s with postedData := s.postedData++[(name,data)]}
  | .edge data => processEdgeSerialMessage b remaining data s
  | .ignored => s

/-- `process_serial_message`. -/
def serialMessage (line : List UInt8) : SerialMessage :=
  processSerialMessage b.applicationNames.toList line

end Edge

/-- What can happen next, in any order. -/
inductive Op where
  /-- The resource rich node has written a line. -/
  | line (data : List UInt8) (remaining : ℕ) (o : Occasion)
  /-- `publish_announce_timer` expires. -/
  | announceExpires
  /-- `publish_capability_timer` expires. -/
  | capabilityExpires
  /-- An event of `publish_announce_timer` is taken. -/
  | announceEvent (o : Occasion)
  /-- An event of `publish_capability_timer` is taken. -/
  | capabilityEvent (o : Occasion)
  /-- The client that publishes goes on. -/
  | client (op : MqttOverCoap.Op)

/-- One step of the edge. An event that was not posted is not taken. -/
def step (s : State num) : Op → State num
  | .line data remaining o => applyMessage b remaining o s (serialMessage b data)
  | .announceExpires => {s with schedule := {s.schedule with
      publishAnnounceTimer := s.schedule.publishAnnounceTimer.expire}}
  | .capabilityExpires => {s with schedule := {s.schedule with
      publishCapabilityTimer := s.schedule.publishCapabilityTimer.expire}}
  | .announceEvent o =>
    if s.schedule.publishAnnounceTimer.posted=0 then s
    else periodicPublishAnnounce b o {s with schedule := {s.schedule with
      publishAnnounceTimer := s.schedule.publishAnnounceTimer.take}}
  | .capabilityEvent o =>
    if s.schedule.publishCapabilityTimer.posted=0 then s
    else periodicPublishCapability b o {s with schedule := {s.schedule with
      publishCapabilityTimer := s.schedule.publishCapabilityTimer.take}}
  | .client op => {s with topics := {s.topics with
      mqtt := MqttOverCoap.step b.clockSecond s.topics.mqtt op}}

/-- The edge after its processes have begun. -/
def start : State num where
  topics := (CapabilityTopics.init b.toCapabilityEnv b.clockSecond).1
  schedule := ⟨⟨publishAnnouncePeriodShort b,true,0⟩,⟨0,false,0⟩,0,0⟩
  applicationsAvailable := .replicate num false
  resourceRichEdgeStarted := false
  overran := false
  printed := []
  postedData := []

/-- An edge with one application. -/
def sampleEdgeBuild : EdgeBuild 1 where
  toCapabilityEnv := sampleCapabilityEnv
  applicationNames := #v[[0x63,0x72]]
  clockSecond := 1
  populated := by decide
  indexable := by decide
  distinct := by decide
  ticking := by decide

end TrustAlloc.EdgeNode
