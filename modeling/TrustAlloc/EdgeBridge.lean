import Mathlib.Logic.Function.Basic
import TrustAlloc.Runs

/-!
# Applications at the edge bridge

Each connection of an application is handled by a coroutine of its own, which
registers its writer under the name in the first line and removes what is
registered under that name when it ends, for whatever reason. Coroutines
interleave at their awaits, and several connections may have the same name.
-/

namespace TrustAlloc.EdgeBridge

open Runs

variable {C N : Type} [DecidableEq C]

section Coroutines

/-- Where a coroutine of `_handle_application_conn` is. -/
inductive Phase (N : Type) where
  /-- Not connected yet, or ended. -/
  | closed
  /-- Awaits the line with the name. -/
  | naming
  /-- Awaits the next line. -/
  | reading (name : N)
  /-- Awaits that a line was forwarded. -/
  | draining (name : N)

/-- The name that a connection has registered. -/
def Phase.name : Phase N → Option N
  | .reading name | .draining name => some name
  | .closed | .naming => none

/-- The bridge: the coroutines, and the applications they share. -/
structure State (C N : Type) where
  /-- Where the coroutine of each connection is. -/
  phase : C → Phase N
  /-- `applications`; the writer is that of the connection. -/
  applications : N → Option C
  /-- Connections in the order of their registration, the latest first; a
  history value. -/
  registered : List C
  /-- Whether a `finally` block has raised; a history value. -/
  raised : Bool

/-- What happens at an await. -/
inductive Op (C : Type) where
  /-- A connection is opened. -/
  | connect (c : C)
  /-- The first line is read, and maybe the end of the stream was reached. -/
  | readName (c : C) (line : List UInt8) (atEof : Bool)
  /-- Another line is read, and forwarded. -/
  | readLine (c : C)
  /-- The line was forwarded, and maybe the end of the stream was reached. -/
  | drained (c : C) (atEof : Bool)
  /-- Whatever is awaited fails. -/
  | fail (c : C)

/-- A coroutine is at another place. -/
def State.goto (s : State C N) (c : C) (phase : Phase N) : State C N :=
  {s with phase := Function.update s.phase c phase}

/-- Where the coroutine is that has moved. -/
theorem goto_self (s : State C N) (c : C) (phase : Phase N) : (s.goto c phase).phase c=phase :=
  Function.update_self ..

/-- The other coroutines stay. -/
theorem goto_of_ne (s : State C N) {c c' : C} (hc : c'≠c) (phase : Phase N) :
    (s.goto c phase).phase c'=s.phase c' := Function.update_of_ne hc ..

variable [DecidableEq N]

/-- The writer of a connection is registered under its name. -/
def State.register (s : State C N) (c : C) (name : N) : State C N := {s with
  applications := Function.update s.applications name (some c)
  registered := c::s.registered}

/-- The `finally` block of a coroutine that ends. `application_name` may not be
bound, and what is deleted may not be there. -/
def State.cleanup (s : State C N) (c : C) (applicationName : Option N) : State C N :=
  match applicationName with
  | none => {s.goto c .closed with raised := true}
  | some name =>
    if s.applications name=none then {s.goto c .closed with raised := true}
    else {s.goto c .closed with applications := Function.update s.applications name none}

/-- `while not reader.at_eof()`. -/
def State.nextLine (s : State C N) (c : C) (name : N) (atEof : Bool) : State C N :=
  if atEof=true then s.cleanup c (some name) else s.goto c (.reading name)

/-- One step of `_handle_application_conn`. The name in a line is what is left
after it was decoded and stripped, if it can be decoded. -/
def step (applicationName : List UInt8 → Option N) (s : State C N) : Op C → State C N
  | .connect c => match s.phase c with
    | .closed => s.goto c .naming
    | _ => s
  | .readName c line atEof => match s.phase c with
    | .naming => match applicationName line with
      | none => s.cleanup c none
      | some name => (s.register c name).nextLine c name atEof
    | _ => s
  | .readLine c => match s.phase c with
    | .reading name => s.goto c (.draining name)
    | _ => s
  | .drained c atEof => match s.phase c with
    | .draining name => s.nextLine c name atEof
    | _ => s
  | .fail c => match s.phase c with
    | .closed => s
    | .naming => s.cleanup c none
    | .reading name | .draining name => s.cleanup c (some name)

/-- The bridge after `__init__`. -/
def start : State C N := ⟨fun _ => .closed,fun _ => none,[],false⟩

end Coroutines

section Registry

variable [DecidableEq N]

/-- The connection of a name that was registered last and is still open. -/
def State.latest (s : State C N) (name : N) : Option C :=
  s.registered.find? fun c => decide ((s.phase c).name=some name)

/-- Each name leads to its latest open connection, and cleaning up has worked. -/
structure Registry (s : State C N) : Prop where
  /-- The applications. -/
  latest : ∀ name, s.applications name=s.latest name
  /-- The `finally` blocks. -/
  raised : s.raised=false

/-- Connections that have a name have been registered. -/
def Recorded (s : State C N) : Prop := ∀ c name, (s.phase c).name=some name → c∈s.registered

/-- No other open connection has the name. -/
def Alone (s : State C N) (c : C) (name : N) : Prop :=
  ∀ c', c'≠c → (s.phase c').name≠some name

/-- A connection that ends has its name, and has it for itself. -/
def EndsAlone (applicationName : List UInt8 → Option N) (s : State C N) : Op C → Prop
  | .connect _ | .readLine _ => True
  | .readName c line atEof => match s.phase c with
    | .naming => ∃ name∈applicationName line, atEof=true → Alone s c name
    | _ => True
  | .drained c atEof => match s.phase c with
    | .draining name => atEof=true → Alone s c name
    | _ => True
  | .fail c => match s.phase c with
    | .closed => True
    | .naming => False
    | .reading name | .draining name => Alone s c name

variable {s : State C N} {c : C} {name : N}

/-- A place with the same name keeps the latest connections. -/
theorem latest_goto {phase : Phase N} (h : phase.name=(s.phase c).name) (name : N) :
    (s.goto c phase).latest name=s.latest name := by
  have hsame : ∀ c', ((s.goto c phase).phase c').name=(s.phase c').name := fun c' => by
    by_cases hc : c'=c
    · rw [hc,goto_self,h]
    · rw [goto_of_ne s hc]
  simp only [State.latest,hsame]
  rfl

/-- It keeps the registry. -/
theorem Registry.goto (h : Registry s) {phase : Phase N} (hphase : phase.name=(s.phase c).name) :
    Registry (s.goto c phase) :=
  ⟨fun name => (h.latest name).trans (latest_goto hphase name).symm,h.raised⟩

omit [DecidableEq N] in
/-- Going to a place keeps what is recorded if it has no new name. -/
theorem Recorded.goto (h : Recorded s) {phase : Phase N}
    (hphase : ∀ name∈phase.name, c∈s.registered) : Recorded (s.goto c phase) := by
  intro c' name hname
  by_cases hc : c'=c
  · rw [hc,goto_self] at hname
    rw [hc]
    exact hphase name hname
  · rw [goto_of_ne s hc] at hname
    exact h c' name hname

/-- A new connection is the latest one of its name. -/
theorem Registry.register (h : Registry s) (hnaming : (s.phase c).name=none) (name : N) :
    Registry ((s.register c name).goto c (.reading name)) := by
  refine ⟨fun name' => ?_,h.raised⟩
  have hself : Function.update s.phase c (.reading name) c=.reading name := Function.update_self ..
  by_cases hname : name'=name
  · rw [hname]
    simp [State.latest,State.goto,State.register,Phase.name]
  · have hother : ∀ c', ((Function.update s.phase c (.reading name)) c').name=some name' ↔
        (s.phase c').name=some name' := fun c' => by
      by_cases hc : c'=c
      · rw [hc,hself,hnaming]
        exact iff_of_false (fun h => hname (Option.some.inj h).symm) (fun h => nomatch h)
      · rw [Function.update_of_ne hc]
    have hlatest := h.latest name'
    simp only [State.latest,State.goto,State.register,hother,List.find?_cons,
      Function.update_of_ne hname] at hlatest ⊢
    rw [hnaming]
    exact hlatest

/-- It is recorded. -/
theorem Recorded.register (h : Recorded s) (c : C) (name : N) :
    Recorded ((s.register c name).goto c (.reading name)) := by
  have hregistered : Recorded (s.register c name) := fun c' name' hname =>
    List.mem_cons_of_mem _ (h c' name' hname)
  exact hregistered.goto fun _ _ => List.mem_cons_self ..

/-- Cleaning up keeps what is recorded. -/
theorem Recorded.cleanup (h : Recorded s) (c : C) (applicationName : Option N) :
    Recorded (s.cleanup c applicationName) := by
  have hclosed : Recorded (s.goto c .closed) := h.goto fun _ hname => nomatch hname
  unfold State.cleanup
  split
  · exact hclosed
  · split
    · exact hclosed
    · exact hclosed

/-- Nobody else has a name exactly if no connection of that name is the latest
one after the end of this one. -/
theorem latest_closed_eq_none_iff (h : Recorded s) :
    (s.goto c .closed).latest name=none ↔ Alone s c name := by
  rw [State.latest,List.find?_eq_none]
  constructor
  · intro hnone c' hc hname
    refine hnone c' (h c' name hname) (decide_eq_true ?_)
    rw [goto_of_ne s hc]
    exact hname
  · intro halone c' _ hfound
    have hname := of_decide_eq_true hfound
    by_cases hc : c'=c
    · rw [hc,goto_self] at hname
      cases hname
    · rw [goto_of_ne s hc] at hname
      exact halone c' hc hname

/-- When a connection ends, the registry is right exactly if no other open
connection has its name. -/
theorem registry_cleanup_iff (hr : Recorded s) (h : Registry s)
    (hname : (s.phase c).name=some name) : Registry (s.cleanup c (some name)) ↔ Alone s c name := by
  have hfound : s.applications name≠none := by
    rw [h.latest name,State.latest,Ne,List.find?_eq_none]
    exact fun hnone => hnone c (hr c name hname) (decide_eq_true hname)
  rw [State.cleanup]
  dsimp only
  rw [if_neg hfound]
  constructor
  · intro hafter
    have hlatest := hafter.latest name
    dsimp only at hlatest
    rw [Function.update_self] at hlatest
    exact (latest_closed_eq_none_iff hr).mp hlatest.symm
  · intro halone
    refine ⟨fun name' => ?_,h.raised⟩
    by_cases heq : name'=name
    · rw [heq]
      dsimp only
      rw [Function.update_self]
      exact ((latest_closed_eq_none_iff hr).mpr halone).symm
    · dsimp only
      rw [Function.update_of_ne heq,h.latest name']
      -- the connection that ends has another name
      have hother : ∀ c', ((Function.update s.phase c .closed) c').name=some name' ↔
          (s.phase c').name=some name' := fun c' => by
        by_cases hc : c'=c
        · rw [hc,Function.update_self,hname]
          exact iff_of_false (fun h => nomatch h) (fun h => heq (Option.some.inj h).symm)
        · rw [Function.update_of_ne hc]
      simp only [State.latest,State.goto,hother]

/-- A connection without a name cannot clean up. -/
theorem not_registry_cleanup (s : State C N) (c : C) : ¬Registry (s.cleanup c none) :=
  fun h => nomatch h.raised

/-- Ending from another place is the same. -/
theorem cleanup_goto (s : State C N) (c : C) (phase : Phase N) (name : N) :
    (s.goto c phase).cleanup c (some name)=s.cleanup c (some name) := by
  simp only [State.cleanup,State.goto,Function.update_idem]

/-- After the name was registered, or a line was forwarded, a connection goes
on, or ends. -/
theorem registry_nextLine_iff (hr : Recorded (s.goto c (.reading name)))
    (h : Registry (s.goto c (.reading name))) (atEof : Bool) :
    Registry (s.nextLine c name atEof) ↔ (atEof=true → Alone s c name) := by
  unfold State.nextLine
  split
  · next hend =>
    rw [←cleanup_goto s c (.reading name) name,
      registry_cleanup_iff hr h (by rw [goto_self]; rfl)]
    have halone : Alone (s.goto c (.reading name)) c name ↔ Alone s c name :=
      forall₂_congr fun c' hc => by rw [goto_of_ne s hc]
    exact halone.trans ⟨fun ha _ => ha,fun ha => ha hend⟩
  · next hmore => exact iff_of_true h fun hend => absurd hend hmore

/-- Steps keep what is recorded. -/
theorem Recorded.step (h : Recorded s) (applicationName : List UInt8 → Option N) (op : Op C) :
    Recorded (step applicationName s op) := by
  have hnext : ∀ (s : State C N) (c : C) (name : N) (atEof : Bool),
      Recorded (s.goto c (.reading name)) → Recorded (s.nextLine c name atEof) := by
    intro s c name atEof hs
    unfold State.nextLine
    split
    · rw [←cleanup_goto s c (.reading name) name]
      exact hs.cleanup c (some name)
    · exact hs
  cases op with
  | connect c =>
    dsimp only [EdgeBridge.step]
    split
    · exact h.goto fun _ hname => nomatch hname
    · exact h
  | readName c line atEof =>
    dsimp only [EdgeBridge.step]
    split
    · split
      · exact h.cleanup c none
      · next name _ => exact hnext _ c name atEof (h.register c name)
    · exact h
  | readLine c =>
    dsimp only [EdgeBridge.step]
    split
    · next name hphase =>
      exact h.goto fun _ _ => h c name (by rw [hphase]; rfl)
    · exact h
  | drained c atEof =>
    dsimp only [EdgeBridge.step]
    split
    · next name hphase =>
      exact hnext s c name atEof (h.goto fun _ _ => h c name (by rw [hphase]; rfl))
    · exact h
  | fail c =>
    dsimp only [EdgeBridge.step]
    split
    · exact h
    · exact h.cleanup c none
    · exact h.cleanup c (some _)
    · exact h.cleanup c (some _)

/-- One step keeps the registry right exactly if a connection that ends has a
name for itself. -/
theorem registry_step_iff (hr : Recorded s) (h : Registry s)
    (applicationName : List UInt8 → Option N) (op : Op C) :
    Registry (step applicationName s op) ↔ EndsAlone applicationName s op := by
  cases op with
  | connect c =>
    refine iff_of_true ?_ trivial
    dsimp only [step]
    split
    · next hphase => exact h.goto (by rw [hphase]; rfl)
    · exact h
  | readName c line atEof =>
    dsimp only [step,EndsAlone]
    cases hphase : s.phase c with
    | naming =>
      dsimp only
      cases hname : applicationName line with
      | none => exact iff_of_false (not_registry_cleanup s c) fun h => by simp at h
      | some name =>
        have hregistered := h.register (by rw [hphase]; rfl) name
        dsimp only
        rw [registry_nextLine_iff (hr.register c name) hregistered atEof]
        simp [Alone,State.register]
    | closed => exact iff_of_true h trivial
    | reading name => exact iff_of_true h trivial
    | draining name => exact iff_of_true h trivial
  | readLine c =>
    refine iff_of_true ?_ trivial
    dsimp only [step]
    split
    · next name hphase => exact h.goto (by rw [hphase]; rfl)
    · exact h
  | drained c atEof =>
    dsimp only [step,EndsAlone]
    cases hphase : s.phase c with
    | draining name =>
      have hreading : Registry (s.goto c (.reading name)) := h.goto (by rw [hphase]; rfl)
      have hrecorded : Recorded (s.goto c (.reading name)) :=
        hr.goto fun _ _ => hr c name (by rw [hphase]; rfl)
      exact registry_nextLine_iff hrecorded hreading atEof
    | closed => exact iff_of_true h trivial
    | naming => exact iff_of_true h trivial
    | reading name => exact iff_of_true h trivial
  | fail c =>
    dsimp only [step,EndsAlone]
    cases hphase : s.phase c with
    | closed => exact iff_of_true h trivial
    | naming => exact iff_of_false (not_registry_cleanup s c) not_false
    | reading name => exact registry_cleanup_iff hr h (by rw [hphase]; rfl)
    | draining name => exact registry_cleanup_iff hr h (by rw [hphase]; rfl)

/-- **Applications at the bridge.** Over all interleavings of any number of
connections, the registry is right in every state and no cleanup raises,
exactly when each connection that ends has a name, which no other open
connection has. -/
theorem registry_always_iff (applicationName : List UInt8 → Option N) (ops : List (Op C)) :
    Always (step applicationName) Registry start ops ↔
      Along (step applicationName) (EndsAlone applicationName) start ops :=
  always_iff_along (I:=Recorded) (A:=fun _ _ => True) (fun _ op h _ => h.step applicationName op)
    (fun _ op hr h _ => registry_step_iff hr h applicationName op)
    (fun _ _ hname => nomatch hname) ⟨fun _ => rfl,rfl⟩ (along_of_forall fun _ _ => trivial)

/-- An application is restarted and registers before the coroutine of its
predecessor has ended, which then removes the new registration. -/
theorem not_registry_of_restart : ¬Always (step some) Registry (start : State ℕ (List UInt8))
    [.connect 1,.readName 1 [0x63,0x72] false,.connect 2,.readName 2 [0x63,0x72] false,.fail 1] :=
  fun h => absurd (h.last.latest [0x63,0x72]) (by decide)

end Registry

end TrustAlloc.EdgeBridge
