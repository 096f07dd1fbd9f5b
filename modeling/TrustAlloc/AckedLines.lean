import TrustAlloc.ChallengeTaskResponse
import TrustAlloc.ClientAcks
import TrustAlloc.StopAndWait

/-!
# Lines that are acked one by one

A client of the resource rich node and the edge's half of its application, over
the serial line. The client writes a line and waits for its ack; the edge acks
a line at once, or when the request that it led to has ended. The lock that the
edge keeps for its request, and releases by a timer, is never in the way of a
line, however late requests end and timers expire.
-/

namespace TrustAlloc.AckedLines

open EdgeInfo RouteChunks Runs StopAndWait Timers
open TaskResponse (Message Printed RequestStatus Sending)
open ClientAcks (Accounted NeedsAck NoAckLost)

variable {E M W : Type}

section Client

/-- A step of the coroutines of a client. Its acks come from the edge only. -/
def clientStep (s : ClientAcks.State) : ClientAcks.Op → ClientAcks.State
  | .arrive .ack => s
  | op => ClientAcks.step s op

/-- The client. A step comes with what is written, if it writes a message; an
ack goes to the lines that `reader` holds. -/
def client (line : W → M) : Sender ClientAcks.State (ClientAcks.Op×W) M where
  step s a := (clientStep s a.1,
    if s.written < (clientStep s a.1).written then [line a.2] else [])
  answered s := ClientAcks.act s (.arrive .ack)
  owed s := s.written-(s.consumed+s.lines.count .ack)

/-- What a step does to the counts: no ack comes in or gets lost, and a message
is written by who needs no ack. -/
structure Counted (s s' : ClientAcks.State) : Prop where
  /-- The acks that have arrived. -/
  arrived : s'.consumed+s'.lines.count .ack=s.consumed+s.lines.count .ack
  /-- The messages. -/
  written : s'.written=s.written ∨ s'.written=s.written+1 ∧ ¬NeedsAck s

variable {s : ClientAcks.State}

/-- Nothing is counted. -/
theorem Counted.refl (s : ClientAcks.State) : Counted s s := ⟨rfl,Or.inl rfl⟩

end Client

section Edge

/-- What the edge's halves of the applications have in common. -/
structure Outlet where
  /-- `ep.ipaddr`. -/
  ep : IpAddr
  /-- `coap_callback_in_use`. -/
  coapCallbackInUse : TimedUnlock
  /-- `msg_buf`. -/
  msgBuf : List UInt8
  /-- The lines that were printed. -/
  printed : List Printed
  /-- The accepted requests. -/
  requests : List Message

/-- How many acks were printed. -/
def Outlet.acks (o : Outlet) : ℕ := o.printed.count .ack

/-- The lock is released. -/
def Outlet.unlocked (o : Outlet) : Outlet :=
  {o with coapCallbackInUse := timedUnlockUnlock o.coapCallbackInUse}

/-- The edge's half of an application. -/
structure Application (E : Type) where
  /-- The name of the application. -/
  name : List UInt8
  /-- Its outlet. -/
  outlet : E → Outlet
  /-- What is done with a line, if nothing is overrun. -/
  process : Sending → E → List UInt8 → Option E
  /-- The callback of requests. -/
  sendCallback : E → RequestStatus → E
  /-- The lock is released by its timer. -/
  unlock : E → E
  /-- A line overruns nothing. -/
  Fits : List UInt8 → Prop
  /-- A line is acked at some time. -/
  answers : List UInt8 → Bool

/-- The lock and the requests stay, and the given number of acks is printed. -/
structure Printing (n : ℕ) (o o' : Outlet) : Prop where
  /-- The acks. -/
  acks : o'.acks=o.acks+n
  /-- The requests. -/
  requests : o'.requests=o.requests
  /-- The lock. -/
  lock : o'.coapCallbackInUse=o.coapCallbackInUse

/-- A request was accepted, which carries what is in the buffer to the address
in `ep`. -/
structure Requesting (o o' : Outlet) : Prop where
  /-- The acks. -/
  acks : o'.acks=o.acks
  /-- The request. -/
  requests : ∃ len block1, o'.requests=o.requests++[⟨o'.ep,o'.msgBuf.take len,block1⟩]

/-- Address and buffer stay as well. -/
structure Staying (n : ℕ) (o o' : Outlet) : Prop extends Printing n o o' where
  /-- The address. -/
  ep : o'.ep=o.ep
  /-- The buffer. -/
  msgBuf : o'.msgBuf=o.msgBuf

/-- What holds of both applications. -/
structure Application.Lawful (A : Application E) : Prop where
  /-- Nothing else is overrun. -/
  fits : ∀ sending e data, A.Fits data → (A.process sending e data).isSome=true
  /-- A line is acked, or leads to a request, or neither. -/
  process : ∀ sending e data e', A.process sending e data=some e' →
    Printing 1 (A.outlet e) (A.outlet e') ∨ Requesting (A.outlet e) (A.outlet e') ∨
      A.answers data=false ∧ Printing 0 (A.outlet e) (A.outlet e')
  /-- A response is not acked. -/
  response : ∀ e code, Staying 0 (A.outlet e) (A.outlet (A.sendCallback e (.response code)))
  /-- The end of a request is acked, and its lock is released. -/
  ended : ∀ e status, (∀ code, status≠.response code) →
    Staying 1 (A.outlet e).unlocked (A.outlet (A.sendCallback e status))
  /-- The timer releases the lock. -/
  unlock : ∀ e, A.outlet (A.unlock e)=(A.outlet e).unlocked

/-- A line on its way to an application at the edge which overruns nothing. -/
structure EdgeLine (A : Application E) (names : List (List UInt8)) where
  /-- The line. -/
  text : List UInt8
  /-- What reaches the application. -/
  fits : ∀ data, processSerialMessage names text=.app A.name data → A.Fits data

/-- The line is for the application, which acks it at some time. -/
def EdgeLine.regular {A : Application E} {names : List (List UInt8)} (l : EdgeLine A names) :
    Bool :=
  match processSerialMessage names l.text with
  | .app name data => decide (name=A.name) && A.answers data
  | _ => false

/-- The edge's half of an application, and what has happened to it. -/
structure Desk (E : Type) where
  /-- The application. -/
  edge : E
  /-- Whether a buffer was overrun, from when on nothing is known. -/
  overrun : Bool
  /-- How many of the accepted requests have ended. -/
  ended : ℕ

/-- What happens at the edge besides lines. -/
inductive Event where
  /-- The callback of the request is called. -/
  | callback (status : RequestStatus)
  /-- The timer of the lock is looked at. -/
  | expire (now : ℕ)

variable (A : Application E) (names : List (List UInt8))

/-- How many requests are in flight. -/
def Desk.inFlight (d : Desk E) : ℕ := (A.outlet d.edge).requests.length-d.ended

/-- The edge has come so far, and this many acks were printed. -/
def Desk.goesOn (d d' : Desk E) : Desk E×ℕ :=
  (d',(A.outlet d'.edge).acks-(A.outlet d.edge).acks)

/-- `process_serial_message` for a line, as far as the application is concerned. -/
def takeLine (d : Desk E) (sending : Sending) (l : EdgeLine A names) : Desk E×ℕ :=
  match processSerialMessage names l.text with
  | .app name data =>
    if name=A.name then
      match A.process sending d.edge data with
      | none => ({d with overrun := true},0)
      | some edge => d.goesOn A {d with edge := edge}
    else (d,0)
  | _ => (d,0)

/-- A callback of the request in flight, or a look at the timer. -/
def handle (d : Desk E) : Event → Desk E×ℕ
  | .callback (.response code) =>
    if d.inFlight A=0 then (d,0)
    else d.goesOn A {d with edge := A.sendCallback d.edge (.response code)}
  | .callback status =>
    if d.inFlight A=0 then (d,0)
    else d.goesOn A {d with edge := A.sendCallback d.edge status,ended := d.ended+1}
  | .expire now =>
    if (A.outlet d.edge).coapCallbackInUse.timer.Expired now then
      ({d with edge := A.unlock d.edge},0)
    else (d,0)

/-- The edge. -/
def edge : Receiver (Desk E) Event Sending (EdgeLine A names) where
  take := takeLine A names
  work := handle A
  pending d := d.inFlight A

/-- The edge has a request in flight or a free lock, and what the request
carries is still in its buffer. -/
structure Desk.Sound (d : Desk E) : Prop where
  /-- No buffer was overrun. -/
  intact : d.overrun=false
  /-- No more requests have ended than were accepted. -/
  ended : d.ended≤(A.outlet d.edge).requests.length
  /-- All but one have. -/
  one : d.inFlight A≤1
  /-- The lock is free where no request is in flight. -/
  free : d.inFlight A=0 → (A.outlet d.edge).coapCallbackInUse.locked=false
  /-- The request in flight is the last one. -/
  held : d.inFlight A≠0 → ∃ len block1, (A.outlet d.edge).requests.getLast?=
    some ⟨(A.outlet d.edge).ep,(A.outlet d.edge).msgBuf.take len,block1⟩

end Edge

section Laws

variable {A : Application E} {names : List (List UInt8)} {d : Desk E}

/-- A response changes nothing that the edge relies on. -/
theorem Desk.Sound.response (hA : A.Lawful) (h : d.Sound A) (code : UInt8) :
    let out := d.goesOn A {d with edge := A.sendCallback d.edge (.response code)}
    out.1.Sound A ∧ out.2+out.1.inFlight A=d.inFlight A := by
  obtain ⟨⟨hacks,hrequests,hlock⟩,hep,hbuf⟩ := hA.response d.edge code
  have hflight : Desk.inFlight A {d with edge := A.sendCallback d.edge (.response code)}=
      d.inFlight A := by
    unfold Desk.inFlight
    rw [hrequests]
  dsimp only [Desk.goesOn]
  rw [hflight,hacks]
  refine ⟨⟨h.intact,?_,hflight.le.trans h.one,fun hzero => ?_,fun hsome => ?_⟩,by omega⟩
  · rw [hrequests]
    exact h.ended
  · rw [hlock]
    exact h.free (hflight ▸ hzero)
  · rw [hrequests,hep,hbuf]
    exact h.held (hflight ▸ hsome)

/-- The end of a request is acked, and no request is in flight then. -/
theorem Desk.Sound.finish (hA : A.Lawful) (h : d.Sound A) (hsome : d.inFlight A≠0)
    {status : RequestStatus} (hstatus : ∀ code, status≠.response code) :
    let out := d.goesOn A {d with edge := A.sendCallback d.edge status,ended := d.ended+1}
    out.1.Sound A ∧ out.2+out.1.inFlight A=d.inFlight A := by
  obtain ⟨⟨hacks,hrequests,hlock⟩,_,_⟩ := hA.ended d.edge status hstatus
  have hone := h.one
  have hended := h.ended
  have hflight :
      Desk.inFlight A {d with edge := A.sendCallback d.edge status,ended := d.ended+1}=0 := by
    unfold Desk.inFlight at hone hsome ⊢
    rw [hrequests]
    change (A.outlet d.edge).requests.length-(d.ended+1)=0
    omega
  dsimp only [Desk.goesOn]
  rw [hflight,hacks]
  refine ⟨⟨h.intact,?_,hflight.le.trans (Nat.zero_le _),fun _ => ?_,fun hmore => ?_⟩,?_⟩
  · rw [hrequests]
    change d.ended+1≤(A.outlet d.edge).requests.length
    unfold Desk.inFlight at hsome
    omega
  · rw [hlock]
    rfl
  · exact absurd hflight hmore
  · change (A.outlet d.edge).acks+1-(A.outlet d.edge).acks+0=d.inFlight A
    omega

/-- The timer of the lock changes nothing else. -/
theorem Desk.Sound.unlock (hA : A.Lawful) (h : d.Sound A) :
    Desk.Sound A {d with edge := A.unlock d.edge} ∧
      Desk.inFlight A {d with edge := A.unlock d.edge}=d.inFlight A := by
  have houtlet := hA.unlock d.edge
  have hflight : Desk.inFlight A {d with edge := A.unlock d.edge}=d.inFlight A := by
    unfold Desk.inFlight
    rw [houtlet]
    rfl
  refine ⟨⟨h.intact,?_,hflight.le.trans h.one,fun _ => ?_,fun hsome => ?_⟩,hflight⟩
  · rw [houtlet]
    exact h.ended
  · rw [houtlet]
    rfl
  · rw [houtlet]
    exact h.held (hflight ▸ hsome)

end Laws

section OneAtATime

variable {A : Application E} {names : List (List UInt8)}

/-- The client, the serial line and the edge. -/
abbrev Line (A : Application E) (names : List (List UInt8)) : Type :=
  System ClientAcks.State (Desk E) (EdgeLine A names)

/-- One line at a time. -/
structure OneAtATime (A : Application E) (names : List (List UInt8)) (s : Line A names) : Prop where
  /-- No buffer was overrun. -/
  intact : s.receiver.overrun=false
  /-- There is one line, one request or one ack on its way at most. -/
  one : s.onItsWay (edge A names)≤1
  /-- The lock is free when the edge takes a line. -/
  free : s.wire≠[] → (A.outlet s.receiver.edge).coapCallbackInUse.locked=false
  /-- What the request in flight carries, and where it goes, is not overwritten. -/
  held : s.receiver.inFlight A≠0 → ∃ len block1,
    (A.outlet s.receiver.edge).requests.getLast?=some ⟨(A.outlet s.receiver.edge).ep,
      (A.outlet s.receiver.edge).msgBuf.take len,block1⟩
  /-- What is on its way is needed. -/
  needed : 0 < s.onItsWay (edge A names) → NeedsAck s.sender
  /-- A writer that needs an ack gets it, if nothing was lost: it is on its way
  or has arrived, unless `run` has read it too early. -/
  arrives : s.lost=0 → NeedsAck s.sender → NoAckLost s.sender →
    s.onItsWay (edge A names)+s.sender.lines.count .ack=1

end OneAtATime

end TrustAlloc.AckedLines
