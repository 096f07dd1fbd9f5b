import TrustAlloc.Runs
import Mathlib.Data.List.Count

/-!
# Acks for an application client

The coroutines of `client_common.py` between their await points. `run` reads
the lines of the edge; a coroutine that has a result takes `response_lock`,
writes a message, may be suspended until the writer has drained, and waits on
`ack_cond`. The lock of the condition is held within one section only, so it
is free at every await point. A notification wakes who waits at that moment
and is not kept for later, so an ack is lost exactly if it is read while its
writer is still draining.
-/

namespace TrustAlloc.ClientAcks

open Runs

/-- What the edge sends to the client. -/
inductive Line where
  /-- A line that ends in `ack`. -/
  | ack
  /-- A line that ends in `cancel`. -/
  | cancel
  /-- A task. -/
  | task
  /-- The end of the stream. -/
  | closed
  deriving DecidableEq

/-- Where the coroutine that holds `response_lock` is suspended. -/
inductive Point where
  /-- In `drain`, its message being written. -/
  | draining
  /-- In `wait`, not yet notified. -/
  | waiting
  /-- In `wait`, notified. -/
  | woken
  deriving DecidableEq

/-- A `Client` between two sections of its coroutines. -/
structure State where
  /-- Whether `run` goes on. -/
  running : Bool
  /-- `was_cancelled`. -/
  wasCancelled : Bool
  /-- Lines that `reader` holds, oldest first. -/
  lines : List Line
  /-- Coroutines `receive` that have not got their result. -/
  tasks : ℕ
  /-- Coroutines that wait for `response_lock`. -/
  queued : ℕ
  /-- The coroutine that holds `response_lock`. -/
  writer : Option Point
  /-- How many messages were written. -/
  written : ℕ
  /-- How many acks were read. -/
  consumed : ℕ

/-- `write` and then `_receive_ack`, up to where the coroutine is suspended. -/
def write (suspends : Bool) (s : State) : State := {s with
  writer := some (if suspends=true then .draining else .waiting)
  written := s.written+1}

/-- `notify` on `ack_cond`. -/
def notify (s : State) : State :=
  {s with writer := if s.writer=some .waiting then some .woken else s.writer}

/-- What `run` does with a line. -/
def handleLine (s : State) : Line → State
  | .ack => notify {s with consumed := s.consumed+1}
  | .cancel => {s with wasCancelled := true}
  | .task => {s with tasks := s.tasks+1}
  | .closed => {s with running := false}

/-- What can happen next, in any order. -/
inductive Op where
  /-- The edge sends a line; an ack is for a message that was written. -/
  | arrive (line : Line)
  /-- `run` reads a line. -/
  | read
  /-- A result is there: the coroutine asks for `response_lock`. -/
  | result (suspends : Bool)
  /-- The first coroutine that waits for `response_lock` gets it. -/
  | acquired (suspends : Bool)
  /-- The coroutine in `drain` goes on. -/
  | drained
  /-- The notified coroutine goes on: it may look at `was_cancelled`, and
  writes the next of its messages or releases `response_lock`. -/
  | resume (checks more suspends : Bool)

/-- Whether the coroutine goes on after an ack, `_check_and_reset_cancelled`. -/
def goesOn (checks more : Bool) (s : State) : Bool := more && !(checks && s.wasCancelled)

/-- One section of a coroutine, or a line of the edge. -/
def act (s : State) : Op → State
  | .arrive line =>
    if line=.ack ∧ s.written ≤ s.consumed+s.lines.count .ack then s
    else {s with lines := s.lines++[line]}
  | .read =>
    match s.lines with
    | [] => s
    | line::rest => handleLine {s with lines := rest} line
  | .result suspends =>
    if s.tasks=0 then s
    else
      let s := {s with tasks := s.tasks-1}
      if s.writer=none ∧ s.queued=0 then write suspends s else {s with queued := s.queued+1}
  | .acquired suspends =>
    if s.writer=none ∧ s.queued≠0 then write suspends {s with queued := s.queued-1} else s
  | .drained => if s.writer=some .draining then {s with writer := some .waiting} else s
  | .resume checks more suspends =>
    if s.writer=some .woken then
      let goes := goesOn checks more s
      let s := {s with wasCancelled := if checks=true then false else s.wasCancelled}
      if goes=true then write suspends s else {s with writer := none}
    else s

/-- One step; when `run` has ended, nothing goes on. -/
def step (s : State) (op : Op) : State := if s.running=true then act s op else s

/-- The client when `run` begins. -/
def start : State := ⟨true,false,[],0,0,none,0,0⟩

/-- The last message was written and its writer still needs the notification. -/
def NeedsAck (s : State) : Prop := s.writer=some .draining ∨ s.writer=some .waiting

/-- It is decided by the writer whether it needs a notification. -/
instance decidableNeedsAck (s : State) : Decidable (NeedsAck s) :=
  inferInstanceAs (Decidable (_ ∨ _))

/-- Not so: `run` has read the ack of the last message, and its writer waits,
or will still wait, for it. -/
def NoAckLost (s : State) : Prop := ¬(NeedsAck s ∧ s.written ≤ s.consumed)

/-- Loss is decided by the writer and the counts. -/
instance decidableNoAckLost (s : State) : Decidable (NoAckLost s) :=
  inferInstanceAs (Decidable (¬(_ ∧ _)))

/-- One ack per message: the acks that were read or lie ahead belong to
messages that were written, and only the last message can lack its ack, as
long as its writer needs one. -/
structure Accounted (s : State) : Prop where
  /-- Acks are sent for written messages only. -/
  sent : s.consumed+s.lines.count .ack ≤ s.written
  /-- At most one message has no ack yet. -/
  one : s.written ≤ s.consumed+1
  /-- Who needs no ack has got one for every message. -/
  settled : ¬NeedsAck s → s.written=s.consumed

/-- An ack is read while its writer already waits, not while it drains. -/
def ReadInTime (s : State) : Op → Prop
  | .read => s.running=true → s.lines.head?=some .ack → s.writer≠some .draining
  | _ => True

section Steps

variable {s : State}

/-- After a write the account is right, if it was settled before. -/
theorem Accounted.write (h : Accounted s) (hneeds : ¬NeedsAck s) (suspends : Bool) :
    Accounted (write suspends s) ∧ NoAckLost (write suspends s) := by
  have hset := h.settled hneeds
  have hsent := h.sent
  have hneed : NeedsAck (ClientAcks.write suspends s) := by
    cases suspends
    · exact Or.inr rfl
    · exact Or.inl rfl
  refine ⟨⟨?_,?_,fun hn => absurd hneed hn⟩,?_⟩
  · change s.consumed+s.lines.count .ack ≤ s.written+1
    omega
  · change s.written+1 ≤ s.consumed+1
    omega
  · rintro ⟨_,hle⟩
    change s.written+1 ≤ s.consumed at hle
    omega

/-- The account depends on the lines, the counts and on who needs an ack. -/
theorem Accounted.congr {s' : State} (h : Accounted s) (hlines : s'.lines=s.lines)
    (hwriter : s'.writer=s.writer) (hwritten : s'.written=s.written)
    (hconsumed : s'.consumed=s.consumed) : Accounted s' := by
  refine ⟨?_,?_,fun hn => ?_⟩
  · rw [hlines,hconsumed,hwritten]
    exact h.sent
  · rw [hconsumed,hwritten]
    exact h.one
  · rw [hconsumed,hwritten]
    exact h.settled fun hneeds => hn (by rwa [NeedsAck,hwriter])

/-- Losing depends on the counts and on who needs an ack. -/
theorem NoAckLost.congr {s' : State} (h : NoAckLost s) (hwriter : s'.writer=s.writer)
    (hwritten : s'.written=s.written) (hconsumed : s'.consumed=s.consumed) : NoAckLost s' := by
  rw [NoAckLost,NeedsAck,hwriter,hwritten,hconsumed]
  exact h

/-- Where nobody writes, nobody needs an ack. -/
theorem not_needsAck_of_none (h : s.writer=none) : ¬NeedsAck s := by
  simp [NeedsAck,h]

/-- Who was notified needs no ack. -/
theorem not_needsAck_of_woken (h : s.writer=some .woken) : ¬NeedsAck s := by
  simp [NeedsAck,h]

/-- Reading an ack: the account stays right, and the ack is lost exactly if
its writer is draining. -/
theorem ack_read (h : Accounted s) {rest : List Line} (hlines : s.lines=.ack::rest) :
    Accounted (handleLine {s with lines := rest} .ack) ∧
      (NoAckLost (handleLine {s with lines := rest} .ack) ↔ s.writer≠some .draining) := by
  have hsent := h.sent
  have hone := h.one
  rw [hlines,List.count_cons_self] at hsent
  -- an ack lies ahead, so the last message lacks its ack and its writer needs it
  have hneeds : NeedsAck s := by
    by_contra hn
    have := h.settled hn
    omega
  rcases hneeds with hw | hw
  · have hread : handleLine {s with lines := rest} .ack=
        {s with lines := rest,consumed := s.consumed+1} := by
      simp [handleLine,notify,hw]
    rw [hread]
    have hneeds : NeedsAck {s with lines := rest,consumed := s.consumed+1} := Or.inl hw
    refine ⟨⟨?_,?_,fun hn => absurd hneeds hn⟩,iff_of_false (fun hno => hno ⟨hneeds,?_⟩)
      fun hne => hne hw⟩ <;> dsimp only <;> omega
  · have hread : handleLine {s with lines := rest} .ack=
        {s with lines := rest,consumed := s.consumed+1,writer := some .woken} := by
      simp [handleLine,notify,hw]
    rw [hread]
    refine ⟨⟨?_,?_,fun _ => ?_⟩,iff_of_true (fun hl => ?_) (by simp [hw])⟩
    · dsimp only
      omega
    · dsimp only
      omega
    · dsimp only
      omega
    · exact not_needsAck_of_woken rfl hl.1

/-- Reading another line keeps the account and the acks. -/
theorem other_read (h : Accounted s) {line : Line} {rest : List Line}
    (hlines : s.lines=line::rest) (hline : line≠.ack) :
    Accounted (handleLine {s with lines := rest} line) ∧
      (NoAckLost s → NoAckLost (handleLine {s with lines := rest} line)) := by
  have hrest : Accounted {s with lines := rest} := by
    have hsent := h.sent
    rw [hlines,List.count_cons_of_ne hline] at hsent
    exact ⟨hsent,h.one,h.settled⟩
  cases line with
  | ack => exact absurd rfl hline
  | cancel => exact ⟨hrest.congr rfl rfl rfl rfl,fun hn => hn.congr rfl rfl rfl⟩
  | task => exact ⟨hrest.congr rfl rfl rfl rfl,fun hn => hn.congr rfl rfl rfl⟩
  | closed => exact ⟨hrest.congr rfl rfl rfl rfl,fun hn => hn.congr rfl rfl rfl⟩

/-- A line of the edge keeps the account, since an ack is for a message that
was written and has no ack yet. -/
theorem Accounted.arrive (h : Accounted s) (line : Line) : Accounted (act s (.arrive line)) := by
  dsimp only [act]
  split
  · exact h
  · next hne =>
    refine ⟨?_,h.one,h.settled⟩
    dsimp only
    rw [List.count_append]
    have hsent := h.sent
    by_cases hack : line=.ack
    · rw [hack,List.count_singleton_self]
      have hlt : s.consumed+s.lines.count .ack<s.written := by
        by_contra hle
        exact hne ⟨hack,Nat.le_of_not_lt hle⟩
      omega
    · have hnone : List.count .ack [line]=0 :=
        List.count_eq_zero_of_not_mem (by simpa using Ne.symm hack)
      omega

/-- `run` keeps the account, and it loses an ack exactly if it reads the ack
of a writer that is draining. -/
theorem read_spec (hrun : s.running=true) (h : Accounted s) :
    Accounted (act s .read) ∧ (NoAckLost s → (NoAckLost (act s .read) ↔ ReadInTime s .read)) := by
  dsimp only [act]
  cases hlines : s.lines with
  | nil => exact ⟨h,fun hn => iff_of_true hn fun _ hhead => by simp [hlines] at hhead⟩
  | cons line rest =>
    by_cases hline : line=.ack
    · subst hline
      obtain ⟨hacc,hiff⟩ := ack_read h hlines
      refine ⟨hacc,fun _ => hiff.trans ⟨fun hw _ _ => hw,fun hw => hw hrun ?_⟩⟩
      rw [hlines]
      rfl
    · obtain ⟨hacc,hkeep⟩ := other_read h hlines hline
      refine ⟨hacc,fun hn => iff_of_true (hkeep hn) fun _ hhead => ?_⟩
      rw [hlines] at hhead
      exact absurd (Option.some.inj hhead) hline

/-- A section keeps the account right, and it loses an ack exactly if it reads
the ack of a writer that is draining. -/
theorem act_spec (hrun : s.running=true) (h : Accounted s) (op : Op) :
    Accounted (act s op) ∧ (NoAckLost s → (NoAckLost (act s op) ↔ ReadInTime s op)) := by
  cases op with
  | arrive line =>
    refine ⟨h.arrive line,fun hn => iff_of_true ?_ trivial⟩
    dsimp only [act]
    split
    · exact hn
    · exact hn.congr rfl rfl rfl
  | read => exact read_spec hrun h
  | result suspends =>
    dsimp only [act]
    split
    · exact ⟨h,fun hn => iff_of_true hn trivial⟩
    · have htask : Accounted {s with tasks := s.tasks-1} := h.congr rfl rfl rfl rfl
      split
      · next hfree =>
        obtain ⟨hacc,hno⟩ := htask.write (not_needsAck_of_none hfree.1) suspends
        exact ⟨hacc,fun _ => iff_of_true hno trivial⟩
      · exact ⟨htask.congr rfl rfl rfl rfl,fun hn => iff_of_true (hn.congr rfl rfl rfl) trivial⟩
  | acquired suspends =>
    dsimp only [act]
    split
    · next hfree =>
      have hqueue : Accounted {s with queued := s.queued-1} := h.congr rfl rfl rfl rfl
      obtain ⟨hacc,hno⟩ := hqueue.write (not_needsAck_of_none hfree.1) suspends
      exact ⟨hacc,fun _ => iff_of_true hno trivial⟩
    · exact ⟨h,fun hn => iff_of_true hn trivial⟩
  | drained =>
    dsimp only [act]
    split
    · next hw =>
      refine ⟨⟨h.sent,h.one,fun hn => absurd (Or.inr rfl) hn⟩,fun hn => iff_of_true ?_ trivial⟩
      rintro ⟨_,hle⟩
      exact hn ⟨Or.inl hw,hle⟩
    · exact ⟨h,fun hn => iff_of_true hn trivial⟩
  | resume checks more suspends =>
    dsimp only [act]
    split
    · next hw =>
      have hset := h.settled (not_needsAck_of_woken hw)
      split
      · obtain ⟨hacc,hno⟩ := Accounted.write (s:={s with
            wasCancelled := if checks=true then false else s.wasCancelled})
          (h.congr rfl rfl rfl rfl) (not_needsAck_of_woken hw) suspends
        exact ⟨hacc,fun _ => iff_of_true hno trivial⟩
      · refine ⟨⟨h.sent,h.one,fun _ => hset⟩,fun _ => iff_of_true ?_ trivial⟩
        exact fun hl => not_needsAck_of_none rfl hl.1
    · exact ⟨h,fun hn => iff_of_true hn trivial⟩

/-- What every step does. -/
theorem step_spec (h : Accounted s) (op : Op) :
    Accounted (step s op) ∧ (NoAckLost s → (NoAckLost (step s op) ↔ ReadInTime s op)) := by
  unfold step
  split
  · next hrun => exact act_spec hrun h op
  · next hrun =>
    refine ⟨h,fun hn => iff_of_true hn ?_⟩
    cases op with
    | read => exact fun hr => absurd hr hrun
    | arrive line => trivial
    | result suspends => trivial
    | acquired suspends => trivial
    | drained => trivial
    | resume checks more suspends => trivial

end Steps

/-- The account is right at the start. -/
theorem accounted_start : Accounted start := ⟨Nat.le_refl 0,Nat.zero_le 1,fun _ => rfl⟩

/-- **Acks over a whole run.** No ack is ever lost exactly if each one is read
while its writer already waits for it. -/
theorem noAckLost_always_iff (ops : List Op) :
    Always step NoAckLost start ops ↔ Along step ReadInTime start ops :=
  always_iff_along (I:=Accounted) (A:=fun _ _ => True) (fun _ op h _ => (step_spec h op).1)
    (fun _ op h hn _ => (step_spec h op).2 hn) accounted_start (by decide)
    (along_of_forall fun _ _ => trivial)

/-- A task is read, its result is written and `drain` suspends its writer; the
edge acknowledges and `run` notifies nobody, and then the writer waits. -/
theorem not_noAckLost_of_suspended_drain :
    ¬Always step NoAckLost start
      [.arrive .task,.read,.result true,.arrive .ack,.read,.drained] := by
  decide

end TrustAlloc.ClientAcks
