import TrustAlloc.EdgeNode
import TrustAlloc.Runs

/-!
# The handshake of the edge bridge

`edge_bridge.py` tells the edge over the serial line that it has started, and
in the end that it stops. It writes its line again and again until an ack
arrives, five times at most. Lines may be lost in both directions, acks may be
late, and the two coroutines may be under way at the same time. Lines of
applications are forwarded in between, and the edge goes on with its timers.
-/

namespace TrustAlloc.BridgeHandshake

open EdgeNode MqttPublish Runs RouteChunks TaskResponse

variable {num : ℕ} (b : EdgeBuild num)

section Bridge

/-- `line.split(serial_sep, 1)`, with its two parts; none if it has only one. -/
def splitOnce (line : List UInt8) : Option (List UInt8×List UInt8) :=
  if serialSep∈line then
    some (line.takeWhile fun c => decide (c≠serialSep),
      (line.dropWhile fun c => decide (c≠serialSep)).drop 1)
  else none

/-- `"ack"`. -/
def ackPayload : List UInt8 := [0x61,0x63,0x6B]

/-- Where a coroutine that informs the edge is. -/
inductive Informing where
  /-- It has not begun. -/
  | idle
  /-- It waits for the ack, after a number of timeouts. -/
  | waiting (count : ℕ)
  /-- The ack has arrived. -/
  | acked
  /-- There were too many timeouts. -/
  | gaveUp
  deriving DecidableEq

/-- The coroutine has come to its end. -/
def Informing.Ended (informing : Informing) : Prop := informing=.acked ∨ informing=.gaveUp

/-- It is decided by where the coroutine is. -/
instance decidableEnded (informing : Informing) : Decidable informing.Ended :=
  inferInstanceAs (Decidable (_ ∨ _))

/-- `ACK_RETRY_THRESHOLD`. -/
def ackRetryThreshold : ℕ := 5

/-- The edge, the bridge, and the lines on their way, the next one first. Lines
are without their newline, as both sides strip it. -/
structure Link (num : ℕ) where
  /-- The edge. -/
  node : EdgeNode.State num
  /-- What was written to the standard input of the terminal. -/
  toEdge : List (List UInt8)
  /-- What the edge has printed. -/
  toBridge : List (List UInt8)
  /-- `_inform_edge_bridge_started`. -/
  starting : Informing
  /-- `_inform_edge_bridge_stopped`. -/
  stopping : Informing
  /-- `_start_ack`. -/
  startAck : Bool
  /-- `_stop_ack`. -/
  stopAck : Bool
  /-- `_run_serial` has not failed. -/
  serialRunning : Bool
  /-- Whether `_inform_edge_bridge_started` had ended when the other one began;
  a history value. -/
  startEnded : Bool

/-- A line is written for the edge. -/
def Link.write (s : Link num) (line : List UInt8) : Link num := {s with toEdge := s.toEdge++[line]}

/-- The line of `_inform_edge_bridge_started`. -/
def startLine : List UInt8 := edgeSerialPrefix::edgeSerialStart

/-- The line of `_inform_edge_bridge_stopped`. -/
def stopLine : List UInt8 := edgeSerialPrefix::edgeSerialStop

/-- A timeout: the line is written once more, or the loop is at its end. -/
def Informing.timeout : Informing → Informing×Bool
  | .waiting count =>
    if count+1 < ackRetryThreshold then (.waiting (count+1),true) else (.gaveUp,false)
  | informing => (informing,false)

/-- `_inform_edge_bridge_started` begins. -/
def informStarted (s : Link num) : Link num :=
  if s.starting=.idle then
    {s with startAck := false,starting := .waiting 0}.write startLine
  else s

/-- It was not acked in time. -/
def startTimeout (s : Link num) : Link num :=
  let next := {s with starting := s.starting.timeout.1}
  if s.starting.timeout.2=true then next.write startLine else next

/-- `_inform_edge_bridge_stopped` begins. -/
def informStopped (s : Link num) : Link num :=
  if s.stopping=.idle then
    {s with
      stopAck := false
      stopping := .waiting 0
      startEnded := decide s.starting.Ended}.write stopLine
  else s

/-- It was not acked in time. -/
def stopTimeout (s : Link num) : Link num :=
  let next := {s with stopping := s.stopping.timeout.1}
  if s.stopping.timeout.2=true then next.write stopLine else next

/-- A coroutine that waits sees that its event is set. -/
def Informing.wake (ack : Bool) : Informing → Informing
  | .waiting count => if ack=true then .acked else .waiting count
  | informing => informing

/-- `_process_serial_output_edge_ack`. A line in one part raises. -/
def processSerialOutputEdgeAck (s : Link num) (line : List UInt8) : Link num :=
  match splitOnce line with
  | none => {s with serialRunning := false}
  | some (actionName,payload) =>
    if actionName=edgeSerialStart then
      if payload=ackPayload then {s with startAck := true} else s
    else if actionName=edgeSerialStop then
      if payload=ackPayload then {s with stopAck := true} else s
    else s

/-- `_run_serial` for a line: one for an application is handed on, and raises
if it has one part. -/
def runSerial (s : Link num) (line : List UInt8) : Link num :=
  if matchAction line [applicationEdgeMarker]=true then
    if splitOnce (line.drop 1)=none then {s with serialRunning := false} else s
  else if matchAction line [edgeSerialPrefix]=true then
    processSerialOutputEdgeAck s (line.drop 1)
  else s

end Bridge

section Machine

/-- What can happen next, in any order. -/
inductive Op where
  /-- `_inform_edge_bridge_started` begins. -/
  | informStarted
  /-- Its ack is not there in time. -/
  | startTimeout
  /-- Its event is set. -/
  | startWake
  /-- `_inform_edge_bridge_stopped` begins. -/
  | informStopped
  /-- Its ack is not there in time. -/
  | stopTimeout
  /-- Its event is set. -/
  | stopWake
  /-- A line of an application is forwarded. -/
  | forward (line : List UInt8)
  /-- The bridge reads a line. -/
  | bridgeReads
  /-- The edge reads a line. -/
  | edgeReads (remaining : ℕ) (o : CapabilityTopics.Occasion)
  /-- The edge prints something else. -/
  | prints (line : List UInt8)
  /-- The edge goes on otherwise. -/
  | edge (op : EdgeNode.Op)
  /-- A line for the edge is lost. -/
  | loseToEdge (k : ℕ)
  /-- A line for the bridge is lost. -/
  | loseToBridge (k : ℕ)

/-- The bridge reads a line, as long as nothing was raised. -/
def bridgeReads (s : Link num) : Link num :=
  match s.toBridge with
  | [] => s
  | line::rest =>
    if s.serialRunning=true then runSerial {s with toBridge := rest} line else s

/-- The edge reads a line, and what it prints is on its way. -/
def edgeReads (remaining : ℕ) (o : CapabilityTopics.Occasion) (s : Link num) : Link num :=
  match s.toEdge with
  | [] => s
  | line::rest =>
    let node := EdgeNode.step b s.node (.line line remaining o)
    {s with
      node := node
      toEdge := rest
      toBridge := s.toBridge++node.printed.drop s.node.printed.length}

/-- One step. Lines reach the edge in no other way than over the serial line. -/
def step (s : Link num) : Op → Link num
  | .informStarted => informStarted s
  | .startTimeout => startTimeout s
  | .startWake => {s with starting := s.starting.wake s.startAck}
  | .informStopped => informStopped s
  | .stopTimeout => stopTimeout s
  | .stopWake => {s with stopping := s.stopping.wake s.stopAck}
  | .forward line => s.write line
  | .bridgeReads => bridgeReads s
  | .edgeReads remaining o => edgeReads b remaining o s
  | .prints line => {s with toBridge := s.toBridge++[line]}
  | .edge (.line _ _ _) => s
  | .edge op => {s with node := EdgeNode.step b s.node op}
  | .loseToEdge k => {s with toEdge := s.toEdge.eraseIdx k}
  | .loseToBridge k => {s with toBridge := s.toBridge.eraseIdx k}

/-- The bridge after `__init__`, and an edge in any state. -/
def start (node : EdgeNode.State num) : Link num where
  node := node
  toEdge := []
  toBridge := []
  starting := .idle
  stopping := .idle
  startAck := false
  stopAck := false
  serialRunning := true
  startEnded := false

end Machine

section Lines

variable {b}

/-- What a line tells the edge: to start, to stop, or neither. -/
def edgeAction (b : EdgeBuild num) (line : List UInt8) : Option Bool :=
  match serialMessage b line with
  | .edge data =>
    if matchAction data edgeSerialStart=true then some true
    else if matchAction data edgeSerialStop=true then some false
    else none
  | _ => none

/-- The ack of a start, or of a stop. -/
def ackLine (started : Bool) : List UInt8 :=
  edgeAck (if started=true then edgeSerialStart else edgeSerialStop)

/-- What a line acks: a start, a stop, or neither. -/
def ackOf (line : List UInt8) : Option Bool :=
  if matchAction line [applicationEdgeMarker]=true then none
  else if matchAction line [edgeSerialPrefix]=true then
    if splitOnce (line.drop 1)=some (edgeSerialStart,ackPayload) then some true
    else if splitOnce (line.drop 1)=some (edgeSerialStop,ackPayload) then some false
    else none
  else none

/-- The acks of the edge are understood. -/
theorem ackOf_ackLine (started : Bool) : ackOf (ackLine started)=some started := by
  cases started <;> decide

/-- The lines of the bridge are understood. -/
theorem edgeAction_startLine (b : EdgeBuild num) : edgeAction b startLine=some true := rfl

/-- So is the other one. -/
theorem edgeAction_stopLine (b : EdgeBuild num) : edgeAction b stopLine=some false := rfl

/-- Lines of applications are not about the bridge. -/
theorem processApplication_ne_edge (names : List (List UInt8)) (line data : List UInt8) :
    processApplicationSerialMessage names line≠.edge data := by
  unfold processApplicationSerialMessage
  split
  · exact SerialMessage.noConfusion
  · dsimp only
    split_ifs <;> exact SerialMessage.noConfusion

/-- They tell the edge nothing about it. -/
theorem edgeAction_application (b : EdgeBuild num) (line : List UInt8) :
    edgeAction b (applicationEdgeMarker::line)=none := by
  have hmatch : matchAction (applicationEdgeMarker::line) [applicationEdgeMarker]=true := by
    simp [matchAction,startsWith]
  unfold edgeAction serialMessage processSerialMessage
  rw [if_pos hmatch]
  split
  · next hedge => exact absurd hedge (processApplication_ne_edge _ _ _)
  · rfl

/-- What the edge does with a line that tells it something, or nothing. -/
structure Told (action : Option Bool) (node node' : EdgeNode.State num) : Prop where
  /-- It has started or stopped. -/
  started : node'.resourceRichEdgeStarted=action.getD node.resourceRichEdgeStarted
  /-- It has printed an ack. -/
  printed : node'.printed=node.printed++action.toList.map ackLine

/-- Lines are obeyed and acked. -/
theorem told_line (node : EdgeNode.State num) (line : List UInt8) (remaining : ℕ)
    (o : CapabilityTopics.Occasion) :
    Told (edgeAction b line) node (EdgeNode.step b node (.line line remaining o)) := by
  have hsame : Told none node node := ⟨rfl,(List.append_nil _).symm⟩
  unfold edgeAction
  simp only [EdgeNode.step]
  cases serialMessage b line with
  | start name =>
    simp only [applyMessage,applicationStarted]
    split
    · exact hsame
    · exact ⟨rfl,(List.append_nil _).symm⟩
  | stop name =>
    simp only [applyMessage,applicationStopped]
    split
    · exact hsame
    · exact ⟨rfl,(List.append_nil _).symm⟩
  | app name data => exact ⟨rfl,(List.append_nil _).symm⟩
  | ignored => exact hsame
  | edge data =>
    simp only [applyMessage,processEdgeSerialMessage]
    split
    · refine ⟨?_,?_⟩ <;> simp only [bridgeStarted] <;> split
      · assumption
      · rfl
      · rfl
      · rfl
    · split
      · refine ⟨?_,?_⟩ <;> simp only [bridgeStopped] <;> split
        · rfl
        · next hstopped => exact Bool.eq_false_of_not_eq_true hstopped
        · rfl
        · rfl
      · exact hsame

/-- Nothing else that the edge does is about the bridge. -/
theorem told_other (node : EdgeNode.State num) {op : EdgeNode.Op}
    (hop : ∀ line remaining o, op≠.line line remaining o) :
    (EdgeNode.step b node op).resourceRichEdgeStarted=node.resourceRichEdgeStarted := by
  cases op with
  | line line remaining o => exact absurd rfl (hop line remaining o)
  | announceExpires => rfl
  | capabilityExpires => rfl
  | announceEvent o =>
    simp only [EdgeNode.step,periodicPublishAnnounce,EdgeNode.State.publish]
    split <;> rfl
  | capabilityEvent o =>
    simp only [EdgeNode.step,periodicPublishCapability,EdgeNode.State.publish]
    split
    · rfl
    · split <;> rfl
  | client op => rfl

end Lines

section Handshake

variable {b} {s s' : Link num}

/-- An ack of a start has come, or is on its way. -/
def StartAcked (s : Link num) : Prop :=
  s.starting=.acked ∨ s.startAck=true ∨ ∃ line∈s.toBridge, ackOf line=some true

/-- An ack of a stop has come, or is on its way. -/
def StopAcked (s : Link num) : Prop :=
  s.stopping=.acked ∨ s.stopAck=true ∨ ∃ line∈s.toBridge, ackOf line=some false

/-- As long as the bridge does not stop, nothing tells the edge to stop, and
it has started once there is an ack. -/
structure BeforeStop (b : EdgeBuild num) (s : Link num) : Prop where
  /-- Lines for the edge. -/
  unstopped : ∀ line∈s.toEdge, edgeAction b line≠some false
  /-- There is no ack of a stop. -/
  unacked : ¬StopAcked s
  /-- The ack of a start is true. -/
  started : StartAcked s → s.node.resourceRichEdgeStarted=true

/-- Once the bridge stops, no line that tells the edge to start is behind one
that tells it to stop, so the ack of a stop is the last word. -/
structure AfterStop (b : EdgeBuild num) (s : Link num) : Prop where
  /-- The edge is not told to start any more. -/
  ended : s.starting.Ended
  /-- Starts are in front of stops. -/
  ordered : s.toEdge.Pairwise fun line line' =>
    edgeAction b line=some false → edgeAction b line'≠some true
  /-- The ack of a stop is true, and stays so. -/
  stopped : StopAcked s → s.node.resourceRichEdgeStarted=false ∧
    ∀ line∈s.toEdge, edgeAction b line≠some true

/-- What holds of the link, by where it is. -/
structure Inv (b : EdgeBuild num) (s : Link num) : Prop where
  /-- The bridge has not begun to stop. -/
  before : s.stopping=.idle → BeforeStop b s
  /-- It has, and it did not try to start any more. -/
  after : s.stopping≠.idle → s.startEnded=true → AfterStop b s

/-- A step that adds neither a line for the edge nor an ack. -/
structure AddsNothing (s s' : Link num) : Prop where
  /-- The edge. -/
  node : s'.node.resourceRichEdgeStarted=s.node.resourceRichEdgeStarted
  /-- Lines for the edge. -/
  toEdge : s'.toEdge.Sublist s.toEdge
  /-- Acks of a start. -/
  startAcked : StartAcked s' → StartAcked s
  /-- Acks of a stop. -/
  stopAcked : StopAcked s' → StopAcked s
  /-- A coroutine that has ended. -/
  ended : s.starting.Ended → s'.starting.Ended
  /-- A coroutine that has not begun. -/
  idle : s'.stopping=.idle ↔ s.stopping=.idle
  /-- What was recorded when it began. -/
  startEnded : s'.startEnded=s.startEnded

/-- It keeps what holds. -/
theorem Inv.addsNothing (h : Inv b s) (ha : AddsNothing s s') : Inv b s' where
  before hidle := by
    have hbefore := h.before (ha.idle.mp hidle)
    refine ⟨fun line hmem => hbefore.unstopped line (ha.toEdge.subset hmem),
      fun hstop => hbefore.unacked (ha.stopAcked hstop),fun hstart => ?_⟩
    rw [ha.node]
    exact hbefore.started (ha.startAcked hstart)
  after hidle hended := by
    have hafter := h.after (fun hidle' => hidle (ha.idle.mpr hidle')) (ha.startEnded ▸ hended)
    refine ⟨ha.ended hafter.ended,hafter.ordered.sublist ha.toEdge,fun hstop => ?_⟩
    rw [ha.node]
    obtain ⟨hstopped,hlines⟩ := hafter.stopped (ha.stopAcked hstop)
    exact ⟨hstopped,fun line hmem => hlines line (ha.toEdge.subset hmem)⟩

/-- What the bridge makes of a line: it sets an event, if the line is an ack. -/
structure Heard (line : List UInt8) (s s' : Link num) : Prop where
  /-- The edge. -/
  node : s'.node=s.node
  /-- Lines for the edge. -/
  toEdge : s'.toEdge=s.toEdge
  /-- Lines for the bridge. -/
  toBridge : s'.toBridge=s.toBridge
  /-- The coroutines, and what was recorded. -/
  coroutines : s'.starting=s.starting ∧ s'.stopping=s.stopping ∧ s'.startEnded=s.startEnded
  /-- The event of a start. -/
  startAck : s'.startAck=true → s.startAck=true ∨ ackOf line=some true
  /-- The event of a stop. -/
  stopAck : s'.stopAck=true → s.stopAck=true ∨ ackOf line=some false

/-- Nothing is made of a line. -/
theorem Heard.ignored (line : List UInt8) (s : Link num) (serialRunning : Bool) :
    Heard line s {s with serialRunning := serialRunning} :=
  ⟨rfl,rfl,rfl,⟨rfl,rfl,rfl⟩,Or.inl,Or.inl⟩

/-- Every line is heard. -/
theorem heard_runSerial (s : Link num) (line : List UInt8) : Heard line s (runSerial s line) := by
  have hignored : Heard line s s := Heard.ignored line s s.serialRunning
  unfold runSerial
  split
  · split
    · exact Heard.ignored line s false
    · exact hignored
  · next hplain =>
    split
    · next hmarked =>
      unfold processSerialOutputEdgeAck
      split
      · exact Heard.ignored line s false
      · next actionName payload hsplit =>
        have hack : ackOf line=
            if splitOnce (line.drop 1)=some (edgeSerialStart,ackPayload) then some true
            else if splitOnce (line.drop 1)=some (edgeSerialStop,ackPayload) then some false
            else none := by
          rw [ackOf,if_neg hplain,if_pos hmarked]
        rw [hsplit] at hack
        split
        · next hname =>
          split
          · next hpayload =>
            rw [hname,hpayload,if_pos rfl] at hack
            exact ⟨rfl,rfl,rfl,⟨rfl,rfl,rfl⟩,fun _ => Or.inr hack,Or.inl⟩
          · exact hignored
        · split
          · next hname =>
            split
            · next hpayload =>
              rw [hname,hpayload,if_neg (by decide),if_pos rfl] at hack
              exact ⟨rfl,rfl,rfl,⟨rfl,rfl,rfl⟩,Or.inl,fun _ => Or.inr hack⟩
            · exact hignored
          · exact hignored
    · exact hignored

/-- Reading a line adds nothing. -/
theorem addsNothing_bridgeReads (s : Link num) : AddsNothing s (bridgeReads s) := by
  have hrefl : AddsNothing s s := ⟨rfl,List.Sublist.refl _,id,id,id,Iff.rfl,rfl⟩
  unfold bridgeReads
  split
  · exact hrefl
  · next line rest hlines =>
    split
    · obtain ⟨hnode,htoEdge,htoBridge,⟨hstarting,hstopping,hended⟩,hstart,hstop⟩ :=
        heard_runSerial {s with toBridge := rest} line
      have hhead : line∈s.toBridge := hlines ▸ List.mem_cons_self
      have htail : ∀ line'∈rest, line'∈s.toBridge := fun line' hmem =>
        hlines ▸ List.mem_cons_of_mem line hmem
      refine ⟨congrArg _ hnode,?_,?_,?_,?_,?_,hended⟩
      · rw [htoEdge]
      · unfold StartAcked
        rw [hstarting,htoBridge]
        rintro (hacked | hset | ⟨line',hmem,hack⟩)
        · exact Or.inl hacked
        · exact Or.inr ((hstart hset).imp_right fun hack => ⟨line,hhead,hack⟩)
        · exact Or.inr (Or.inr ⟨line',htail line' hmem,hack⟩)
      · unfold StopAcked
        rw [hstopping,htoBridge]
        rintro (hacked | hset | ⟨line',hmem,hack⟩)
        · exact Or.inl hacked
        · exact Or.inr ((hstop hset).imp_right fun hack => ⟨line,hhead,hack⟩)
        · exact Or.inr (Or.inr ⟨line',htail line' hmem,hack⟩)
      · rw [hstarting]
        exact id
      · rw [hstopping]
    · exact hrefl

/-- A coroutine that wakes up has seen its event. -/
theorem wake_acked {informing : Informing} {ack : Bool} (h : informing.wake ack=.acked) :
    informing=.acked ∨ ack=true := by
  cases informing with
  | waiting count =>
    simp only [Informing.wake] at h
    split at h
    · next hset => exact Or.inr hset
    · cases h
  | idle => cases h
  | acked => exact Or.inl rfl
  | gaveUp => cases h

/-- It has not ended before. -/
theorem wake_of_ended {informing : Informing} (h : informing.Ended) (ack : Bool) :
    informing.wake ack=informing := by
  rcases h with rfl | rfl <;> rfl

/-- It has begun. -/
theorem wake_idle_iff (informing : Informing) (ack : Bool) :
    informing.wake ack=.idle ↔ informing=.idle := by
  cases informing with
  | waiting count =>
    simp only [Informing.wake]
    split <;> simp
  | idle => simp [Informing.wake]
  | acked => simp [Informing.wake]
  | gaveUp => simp [Informing.wake]

/-- The lines that are written or printed by others are not about the bridge. -/
def Unrelated (b : EdgeBuild num) : Op → Prop
  | .forward line => edgeAction b line=none
  | .prints line => ackOf line=none
  | _ => True

/-- Whether they are is decided. -/
instance decidableUnrelated (b : EdgeBuild num) : ∀ op, Decidable (Unrelated b op)
  | .forward line => inferInstanceAs (Decidable (edgeAction b line=none))
  | .prints line => inferInstanceAs (Decidable (ackOf line=none))
  | .informStarted | .startTimeout | .startWake | .informStopped | .stopTimeout | .stopWake
  | .bridgeReads | .edgeReads _ _ | .edge _ | .loseToEdge _ | .loseToBridge _ => .isTrue trivial

/-- The edge obeys a line, and acks it. -/
theorem Inv.edgeReads (h : Inv b s) (remaining : ℕ) (o : CapabilityTopics.Occasion) :
    Inv b (edgeReads b remaining o s) := by
  unfold BridgeHandshake.edgeReads
  split
  · exact h
  · next line rest hlines =>
    obtain ⟨hstarted,hprinted⟩ := told_line (b:=b) s.node line remaining o
    dsimp only
    rw [hprinted,List.drop_left]
    have hhead : line∈s.toEdge := hlines ▸ List.mem_cons_self
    have htail : ∀ line'∈rest, line'∈s.toEdge := fun line' hmem =>
      hlines ▸ List.mem_cons_of_mem line hmem
    have hnew : ∀ started, (∃ line'∈s.toBridge++(edgeAction b line).toList.map ackLine,
        ackOf line'=some started) →
          (∃ line'∈s.toBridge, ackOf line'=some started) ∨ edgeAction b line=some started := by
      rintro started ⟨line',hmem,hack⟩
      refine (List.mem_append.mp hmem).imp (fun hold => ⟨line',hold,hack⟩) fun hadded => ?_
      obtain ⟨started',hstarted',rfl⟩ := List.mem_map.mp hadded
      rw [ackOf_ackLine] at hack
      rw [Option.some.inj hack] at hstarted'
      exact Option.mem_toList.mp hstarted'
    refine ⟨fun hidle => ?_,fun hidle hended => ?_⟩
    · obtain ⟨hunstopped,hunacked,hbefore⟩ := h.before hidle
      refine ⟨fun line' hmem => hunstopped line' (htail line' hmem),?_,?_⟩
      · rintro (hacked | hset | hack)
        · exact hunacked (Or.inl hacked)
        · exact hunacked (Or.inr (Or.inl hset))
        · exact (hnew false hack).elim (fun hold => hunacked (Or.inr (Or.inr hold)))
            (hunstopped line hhead)
      · intro hack
        change (EdgeNode.step b s.node _).resourceRichEdgeStarted=true
        rw [hstarted]
        cases haction : edgeAction b line with
        | some started =>
          cases started with
          | true => rfl
          | false => exact absurd haction (hunstopped line hhead)
        | none =>
          refine hbefore ?_
          rcases hack with hacked | hset | hline
          · exact Or.inl hacked
          · exact Or.inr (Or.inl hset)
          · refine Or.inr (Or.inr ((hnew true hline).resolve_right ?_))
            rw [haction]
            exact (Option.some_ne_none true).symm
    · obtain ⟨hend,hordered,hafter⟩ := h.after hidle hended
      rw [hlines,List.pairwise_cons] at hordered
      refine ⟨hend,hordered.2,fun hack => ?_⟩
      change (EdgeNode.step b s.node _).resourceRichEdgeStarted=false ∧ _
      rw [hstarted]
      -- the ack of the line that was just read, or one from before
      by_cases hstop : edgeAction b line=some false
      · rw [hstop]
        exact ⟨rfl,fun line' hmem => hordered.1 line' hmem hstop⟩
      · have hold : StopAcked s := by
          rcases hack with hacked | hset | hline
          · exact Or.inl hacked
          · exact Or.inr (Or.inl hset)
          · exact Or.inr (Or.inr ((hnew false hline).resolve_right hstop))
        obtain ⟨hstopped,hnostart⟩ := hafter hold
        refine ⟨?_,fun line' hmem => hnostart line' (htail line' hmem)⟩
        cases haction : edgeAction b line with
        | some started =>
          cases started with
          | true => exact absurd haction (hnostart line hhead)
          | false => exact absurd haction hstop
        | none => exact hstopped

/-- A line is written that does not tell the edge to start again, or while the
bridge has not ended to start. -/
theorem Inv.write (h : Inv b s) {line : List UInt8}
    (hbefore : s.stopping=.idle → edgeAction b line≠some false)
    (hafter : s.stopping≠.idle → s.starting.Ended → edgeAction b line≠some true) :
    Inv b (s.write line) where
  before hidle := by
    obtain ⟨hunstopped,hunacked,hstarted⟩ := h.before hidle
    refine ⟨fun line' hmem => ?_,hunacked,hstarted⟩
    rcases List.mem_append.mp hmem with hold | hnew
    · exact hunstopped line' hold
    · rw [List.mem_singleton.mp hnew]
      exact hbefore hidle
  after hidle hended := by
    obtain ⟨hend,hordered,hstopped⟩ := h.after hidle hended
    have hline := hafter hidle hend
    refine ⟨hend,?_,fun hack => ?_⟩
    · refine List.pairwise_append.mpr ⟨hordered,List.pairwise_singleton _ _,?_⟩
      intro line' _ line'' hnew _
      rw [List.mem_singleton.mp hnew]
      exact hline
    · obtain ⟨hnode,hlines⟩ := hstopped hack
      refine ⟨hnode,fun line' hmem => ?_⟩
      rcases List.mem_append.mp hmem with hold | hnew
      · exact hlines line' hold
      · rw [List.mem_singleton.mp hnew]
        exact hline

/-- The bridge says that it has started. -/
theorem Inv.informStarted (h : Inv b s) : Inv b (informStarted s) := by
  unfold BridgeHandshake.informStarted
  split
  · next hfresh =>
    have hunended : ¬s.starting.Ended := by
      rw [hfresh]
      decide
    refine Inv.write (s:={s with startAck := false,starting := .waiting 0}) ⟨fun hidle => ?_,
      fun hidle hended => absurd (h.after hidle hended).ended hunended⟩ ?_ ?_
    · obtain ⟨hunstopped,hunacked,hstarted⟩ := h.before hidle
      refine ⟨hunstopped,hunacked,?_⟩
      rintro (hacked | hset | hline)
      · cases hacked
      · cases hset
      · exact hstarted (Or.inr (Or.inr hline))
    · intro _
      rw [edgeAction_startLine]
      decide
    · rintro _ (hend | hend) <;> cases hend
  · exact h

/-- Without a coroutine that waits there is no timeout. -/
theorem startTimeout_of_not_waiting (h : s.starting.timeout=(s.starting,false)) :
    startTimeout s=s := by
  unfold startTimeout
  rw [h]
  rfl

/-- So it is when the bridge stops. -/
theorem stopTimeout_of_not_waiting (h : s.stopping.timeout=(s.stopping,false)) :
    stopTimeout s=s := by
  unfold stopTimeout
  rw [h]
  rfl

/-- It says so once more, or gives up. -/
theorem Inv.startTimeout (h : Inv b s) : Inv b (startTimeout s) := by
  cases hphase : s.starting with
  | waiting count =>
    have hunended : ¬s.starting.Ended := by
      rw [hphase]
      rintro (hend | hend) <;> cases hend
    have hafter : s.stopping≠.idle → s.startEnded≠true := fun hidle hended =>
      hunended (h.after hidle hended).ended
    have hnext : ∀ starting, starting≠.acked → Inv b {s with starting := starting} := by
      intro starting hne
      refine ⟨fun hidle => ?_,fun hidle hended => absurd hended (hafter hidle)⟩
      obtain ⟨hunstopped,hunacked,hstarted⟩ := h.before hidle
      refine ⟨hunstopped,hunacked,?_⟩
      rintro (hacked | hack)
      · exact absurd hacked hne
      · exact hstarted (Or.inr hack)
    unfold BridgeHandshake.startTimeout
    rw [hphase]
    dsimp only [Informing.timeout]
    by_cases hagain : count+1 < ackRetryThreshold
    · simp only [if_pos hagain,if_true]
      refine (hnext (.waiting (count+1)) Informing.noConfusion).write ?_ ?_
      · intro _
        rw [edgeAction_startLine]
        decide
      · rintro _ (hend | hend) <;> cases hend
    · simp only [if_neg hagain,Bool.false_eq_true,if_false]
      exact hnext .gaveUp Informing.noConfusion
  | idle =>
    rw [startTimeout_of_not_waiting (by rw [hphase]; rfl)]
    exact h
  | acked =>
    rw [startTimeout_of_not_waiting (by rw [hphase]; rfl)]
    exact h
  | gaveUp =>
    rw [startTimeout_of_not_waiting (by rw [hphase]; rfl)]
    exact h

/-- The bridge says that it stops. -/
theorem Inv.informStopped (h : Inv b s) : Inv b (informStopped s) := by
  unfold BridgeHandshake.informStopped
  split
  · next hidle =>
    obtain ⟨hunstopped,hunacked,_⟩ := h.before hidle
    refine Inv.write (s:={s with
      stopAck := false
      stopping := .waiting 0
      startEnded := decide s.starting.Ended}) ⟨fun hbegun => absurd hbegun Informing.noConfusion,
        fun _ hended => ?_⟩ (fun hbegun => absurd hbegun Informing.noConfusion) ?_
    · refine ⟨of_decide_eq_true hended,?_,?_⟩
      · exact List.pairwise_of_forall_mem_list fun line hmem _ _ hstop =>
          absurd hstop (hunstopped line hmem)
      · rintro (hacked | hset | hline)
        · cases hacked
        · cases hset
        · exact absurd (Or.inr (Or.inr hline)) hunacked
    · intro _ _
      rw [edgeAction_stopLine]
      decide
  · exact h

/-- It says so once more, or gives up. -/
theorem Inv.stopTimeout (h : Inv b s) : Inv b (stopTimeout s) := by
  cases hphase : s.stopping with
  | waiting count =>
    have hbegun : s.stopping≠.idle := by
      rw [hphase]
      exact Informing.noConfusion
    have hnext : ∀ stopping, stopping≠.idle → stopping≠.acked →
        Inv b {s with stopping := stopping} := by
      intro stopping hidle hne
      refine ⟨fun hidle' => absurd hidle' hidle,fun _ hended => ?_⟩
      obtain ⟨hend,hordered,hstopped⟩ := h.after hbegun hended
      refine ⟨hend,hordered,?_⟩
      rintro (hacked | hack)
      · exact absurd hacked hne
      · exact hstopped (Or.inr hack)
    unfold BridgeHandshake.stopTimeout
    rw [hphase]
    dsimp only [Informing.timeout]
    by_cases hagain : count+1 < ackRetryThreshold
    · simp only [if_pos hagain,if_true]
      refine (hnext (.waiting (count+1)) Informing.noConfusion Informing.noConfusion).write ?_ ?_
      · intro hidle
        cases hidle
      · intro _ _
        rw [edgeAction_stopLine]
        decide
    · simp only [if_neg hagain,Bool.false_eq_true,if_false]
      exact hnext .gaveUp Informing.noConfusion Informing.noConfusion
  | idle =>
    rw [stopTimeout_of_not_waiting (by rw [hphase]; rfl)]
    exact h
  | acked =>
    rw [stopTimeout_of_not_waiting (by rw [hphase]; rfl)]
    exact h
  | gaveUp =>
    rw [stopTimeout_of_not_waiting (by rw [hphase]; rfl)]
    exact h

/-- Every step keeps what holds. -/
theorem Inv.step (h : Inv b s) {op : Op} (hop : Unrelated b op) : Inv b (step b s op) := by
  cases op with
  | informStarted => exact h.informStarted
  | startTimeout => exact h.startTimeout
  | informStopped => exact h.informStopped
  | stopTimeout => exact h.stopTimeout
  | edgeReads remaining o => exact h.edgeReads remaining o
  | bridgeReads => exact h.addsNothing (addsNothing_bridgeReads s)
  | startWake =>
    refine h.addsNothing ⟨rfl,List.Sublist.refl _,?_,id,?_,Iff.rfl,rfl⟩
    · rintro (hacked | hack)
      · exact (wake_acked hacked).imp_right Or.inl
      · exact Or.inr hack
    · intro hended
      change (s.starting.wake s.startAck).Ended
      rwa [wake_of_ended hended]
  | stopWake =>
    refine h.addsNothing ⟨rfl,List.Sublist.refl _,id,?_,id,wake_idle_iff _ _,rfl⟩
    rintro (hacked | hack)
    · exact (wake_acked hacked).imp_right Or.inl
    · exact Or.inr hack
  | forward line =>
    refine h.write (fun _ => ?_) fun _ _ => ?_ <;> rw [show edgeAction b line=none from hop] <;>
      decide
  | prints line =>
    have hacks : ∀ started, (∃ line'∈s.toBridge++[line], ackOf line'=some started) →
        ∃ line'∈s.toBridge, ackOf line'=some started := by
      rintro started ⟨line',hmem,hack⟩
      refine ⟨line',(List.mem_append.mp hmem).resolve_right fun hnew => ?_,hack⟩
      rw [List.mem_singleton.mp hnew,show ackOf line=none from hop] at hack
      cases hack
    exact h.addsNothing ⟨rfl,List.Sublist.refl _,Or.imp_right (Or.imp_right (hacks true)),
      Or.imp_right (Or.imp_right (hacks false)),id,Iff.rfl,rfl⟩
  | edge op =>
    cases op with
    | line line remaining o => exact h
    | announceExpires => exact h.addsNothing ⟨rfl,List.Sublist.refl _,id,id,id,Iff.rfl,rfl⟩
    | capabilityExpires => exact h.addsNothing ⟨rfl,List.Sublist.refl _,id,id,id,Iff.rfl,rfl⟩
    | announceEvent o => exact h.addsNothing ⟨told_other s.node (by simp),List.Sublist.refl _,
        id,id,id,Iff.rfl,rfl⟩
    | capabilityEvent o => exact h.addsNothing ⟨told_other s.node (by simp),List.Sublist.refl _,
        id,id,id,Iff.rfl,rfl⟩
    | client op => exact h.addsNothing ⟨rfl,List.Sublist.refl _,id,id,id,Iff.rfl,rfl⟩
  | loseToEdge k =>
    exact h.addsNothing ⟨rfl,List.eraseIdx_sublist _ _,id,id,id,Iff.rfl,rfl⟩
  | loseToBridge k =>
    have hacks : ∀ started, (∃ line∈s.toBridge.eraseIdx k, ackOf line=some started) →
        ∃ line∈s.toBridge, ackOf line=some started := fun started ⟨line,hmem,hack⟩ =>
      ⟨line,(List.eraseIdx_sublist _ _).subset hmem,hack⟩
    exact h.addsNothing ⟨rfl,List.Sublist.refl _,Or.imp_right (Or.imp_right (hacks true)),
      Or.imp_right (Or.imp_right (hacks false)),id,Iff.rfl,rfl⟩

/-- The bridge and the edge agree: acked starts and stops have happened. -/
structure Agreed (b : EdgeBuild num) (s : Link num) : Prop where
  /-- Once the start is acked, and until the bridge stops. -/
  started : s.starting=.acked → s.stopping=.idle → s.node.resourceRichEdgeStarted=true
  /-- Once the stop is acked, if nothing was left of the start: the edge has
  stopped, and is not going to be told to start. -/
  stopped : s.stopping=.acked → s.startEnded=true → s.node.resourceRichEdgeStarted=false ∧
    ∀ line∈s.toEdge, edgeAction b line≠some true

/-- **The handshake.** However many lines are lost in either direction, however
late acks are, and whatever the edge and the applications do in between: once
the bridge has the ack of its start, the edge has started, until the bridge
stops; and once it has the ack of its stop, the edge has stopped and stays so,
if the bridge had done with its start before. -/
theorem agreed_always (b : EdgeBuild num) (node : EdgeNode.State num) (ops : List Op)
    (hops : Along (step b) (fun _ op => Unrelated b op) (start node) ops) :
    Always (step b) (Agreed b) (start node) ops := by
  have hstart : Inv b (start node) := by
    refine ⟨fun _ => ⟨?_,?_,?_⟩,fun hidle => absurd rfl hidle⟩ <;>
      simp [start,StartAcked,StopAcked]
  refine (always_of_step (I:=Inv b) (fun _ _ h hop => h.step hop) hstart hops).mono
    fun s h => ⟨?_,?_⟩
  · exact fun hacked hidle => (h.before hidle).started (Or.inl hacked)
  · intro hacked hended
    have hbegun : s.stopping≠.idle := by
      rw [hacked]
      exact Informing.noConfusion
    exact (h.after hbegun hended).stopped (Or.inl hacked)

/-- The first start is lost. -/
def sampleHandshake : List Op :=
  [.informStarted,.loseToEdge 0,.startTimeout,.edgeReads 0 ⟨0,[],true,true⟩,.bridgeReads,.startWake,
    .informStopped,.edgeReads 0 ⟨0,[],true,true⟩,.bridgeReads,.stopWake]

/-- Both are acked in the end. -/
theorem agreed_always_sample :
    (sampleHandshake.foldl (step sampleEdgeBuild)
        (start (EdgeNode.start sampleEdgeBuild))).stopping=.acked ∧
    Always (step sampleEdgeBuild) (Agreed sampleEdgeBuild) (start (EdgeNode.start sampleEdgeBuild))
      sampleHandshake :=
  ⟨by decide +kernel,agreed_always sampleEdgeBuild (EdgeNode.start sampleEdgeBuild) sampleHandshake
    (by decide +kernel)⟩

/-- A stop that begins while the start still waits for its ack may be undone:
the start is repeated behind the stop, and the edge goes on. -/
example : ([.informStarted,.informStopped,.startTimeout,.edgeReads 0 ⟨0,[],true,true⟩,
    .edgeReads 0 ⟨0,[],true,true⟩,.bridgeReads,.bridgeReads,.stopWake,
    .edgeReads 0 ⟨0,[],true,true⟩].foldl (step sampleEdgeBuild)
      (start (EdgeNode.start sampleEdgeBuild))).node.resourceRichEdgeStarted=true := by
  decide +kernel

end Handshake

end TrustAlloc.BridgeHandshake
