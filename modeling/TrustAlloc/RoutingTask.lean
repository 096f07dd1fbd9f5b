import TrustAlloc.Routing
import TrustAlloc.Runs

/-!
# What becomes of a routing task

Three properties of whole runs of the routing application. Messages of other
edges leave an outstanding task alone exactly when they arrive at the moment
at which its timer was last armed and carry nothing that counts. A task gets
at most one observation of its result exactly when no second status and no
expiry is met after the first. A good verdict is earned as long as values of
failed decodings and of earlier tasks are never close by accident.
-/

namespace TrustAlloc.Routing

open Decoding EdgeInfo Runs Timers TrustModels

variable {ne nc : ℕ} {ET CT F D : Type} {env : Env ET CT F D} {s : State ne nc ET CT F}

section Functions

/-- What a handled status does: the sender's trust is updated, if it is an
edge with the capability, and nothing about the task changes. -/
theorem routingResponseProcessStatus_cases (env : Env ET CT F D) (now : ℕ) (p : Post F)
    (s : State ne nc ET CT F) :
    (findRouting s.edges p.src=none ∧
      routingResponseProcessStatus env now p s={s with log := .status false::s.log}) ∨
    ∃ e c app, findRouting s.edges p.src=some (e,c) ∧
      routingResponseProcessStatus env now p s={s with
        edges := updateTrust s.edges e c (env.trust.taskResult (statusInfo env p.payload))
        app := app
        log := .taskResult (statusInfo env p.payload)::.status true::s.log} := by
  unfold routingResponseProcessStatus
  split
  · next h => exact Or.inl ⟨h,rfl⟩
  · next e c h => exact Or.inr ⟨e,c,_,h,rfl⟩

/-- What an expired task does: the trust of its edge is updated, if it is
there with the capability. -/
theorem routingProcessTaskTimeout_cases (env : Env ET CT F D) (s : State ne nc ET CT F) :
    (findRouting s.edges s.ep=none ∧
      routingProcessTaskTimeout env s={s with log := .expired false::s.log}) ∨
    ∃ e c, findRouting s.edges s.ep=some (e,c) ∧
      routingProcessTaskTimeout env s={s with
        edges := updateTrust s.edges e c (env.trust.taskResult .timeout)
        log := .taskResult .timeout::.expired true::s.log} := by
  unfold routingProcessTaskTimeout
  split
  · next h => exact Or.inl ⟨h,rfl⟩
  · next e c h => exact Or.inr ⟨e,c,h,rfl⟩

/-- A judged result changes trust values and the log only. -/
theorem routingProcessTaskResult_eq (env : Env ET CT F D) (now : ℕ) (p : Post F) (good : Bool)
    (s : State ne nc ET CT F) : ∃ edges, routingProcessTaskResult env now p good s={s with
      edges := edges
      log := .judged good p.payload p.last::s.log} := by
  unfold routingProcessTaskResult
  dsimp only
  split
  · exact ⟨s.edges,rfl⟩
  · exact ⟨_,rfl⟩

/-- A callback releases locks, updates trust and is logged at most once. -/
theorem sendCallback_cases (env : Env ET CT F D) (now : ℕ) (status : CoapRequestStatus)
    (code : ℕ) (s : State ne nc ET CT F) :
    ∃ edges coap task log,
      (task=s.taskInUse ∨ task=timedUnlockUnlock s.taskInUse) ∧
      (log=s.log ∨ log=.taskSubmission (submissionInfo status code)::s.log) ∧
      sendCallback env now status code s={s with
        edges := edges
        coapCallbackInUse := coap
        taskInUse := task
        log := log} := by
  have hrel : ∃ coap task, (task=s.taskInUse ∨ task=timedUnlockUnlock s.taskInUse) ∧
      releaseLocks status code s={s with
        coapCallbackInUse := coap
        taskInUse := task} := by
    unfold releaseLocks
    cases status with
    | response =>
      dsimp only
      split
      · exact ⟨_,_,Or.inl rfl,rfl⟩
      · exact ⟨_,_,Or.inr rfl,rfl⟩
    | finished => exact ⟨_,_,Or.inl rfl,rfl⟩
    | more => exact ⟨_,_,Or.inr rfl,rfl⟩
    | timeout => exact ⟨_,_,Or.inr rfl,rfl⟩
    | blockError => exact ⟨_,_,Or.inr rfl,rfl⟩
  obtain ⟨coap,task,htask,heq⟩ := hrel
  unfold sendCallback
  dsimp only
  rw [heq]
  split
  · exact ⟨_,coap,task,_,htask,Or.inl rfl,rfl⟩
  · exact ⟨_,coap,task,_,htask,Or.inr rfl,rfl⟩

/-- A command is refused while a task is outstanding; else it may store new
coordinates and another endpoint, and it may submit a task. -/
theorem eventTriggeredAction_cases (env : Env ET CT F D) (now : ℕ) (data : List UInt8) (len : ℤ)
    (chosen : Option (Fin ne)) (accepted : Bool) (s : State ne nc ET CT F) :
    eventTriggeredAction env now data len chosen accepted s=s ∨
    (s.taskInUse.locked=false ∧ ∃ ep src dest,
      eventTriggeredAction env now data len chosen accepted s={s with
        ep := ep
        taskSrc := src
        taskDest := dest}) ∨
    (s.taskInUse.locked=false ∧ ∃ ep src dest app,
      eventTriggeredAction env now data len chosen accepted s={s with
        app := app
        ep := ep
        coapCallbackInUse := timedUnlockLock now s.coapCallbackInUse
        taskInUse := timedUnlockLock now s.taskInUse
        taskSrc := src
        taskDest := dest
        log := .submitted src dest::s.log}) := by
  -- the result is named, so that each case split looks at one copy of the function
  generalize hr : eventTriggeredAction env now data len chosen accepted s=r
  unfold eventTriggeredAction at hr
  split at hr
  · exact Or.inl hr.symm
  · split at hr
    · exact Or.inl hr.symm
    · next hl =>
      have hfree : s.taskInUse.locked=false := by simpa using hl
      refine Or.inr ?_
      dsimp only at hr
      split at hr
      · exact Or.inl ⟨hfree,_,_,_,hr.symm⟩
      · split at hr
        · exact Or.inl ⟨hfree,_,_,_,hr.symm⟩
        · split at hr
          · exact Or.inl ⟨hfree,_,_,_,hr.symm⟩
          · split at hr
            · exact Or.inl ⟨hfree,_,_,_,hr.symm⟩
            · split at hr
              · exact Or.inl ⟨hfree,_,_,_,hr.symm⟩
              · exact Or.inr ⟨hfree,_,_,_,_,hr.symm⟩

/-- The flag after a block has been looked at as a first block. -/
def flagAfter (env : Env ET CT F D) (b : Block1) (p : Post F) (s : State ne nc ET CT F) : Bool :=
  if b.num=0 then coordinateIsclose env (decodeFirst env p.payload p.first).2 s.taskSrc
  else s.firstSrcIsclose

/-- Whether the final coordinate of a payload is found close to the destination. -/
def lastIsclose (env : Env ET CT F D) (p : Post F) (s : State ne nc ET CT F) : Bool :=
  coordinateIsclose env (decodeLast env p.payload p.last).2 s.taskDest

/-- The last block is judged and ends the task. -/
theorem handleLast_eq (env : Env ET CT F D) (now : ℕ) {b : Block1} (hmore : b.more=false)
    (p : Post F) (s : State ne nc ET CT F) : ∃ edges, handleLast env now b p s={s with
      edges := edges
      taskInUse := timedUnlockUnlock s.taskInUse
      log := .judged (s.firstSrcIsclose && lastIsclose env p s) p.payload p.last::s.log} := by
  obtain ⟨edges,hr⟩ := routingProcessTaskResult_eq env now p
    (s.firstSrcIsclose && lastIsclose env p s) s
  refine ⟨edges,?_⟩
  rw [handleLast,if_pos hmore]
  exact congrArg (fun s' : State ne nc ET CT F =>
    {s' with taskInUse := timedUnlockUnlock s'.taskInUse}) hr

/-- A handled block sets the flag and, if it is the last one, is judged and
ends the task. -/
theorem handleBlock_cases (env : Env ET CT F D) (now : ℕ) (b : Block1) (p : Post F)
    (s : State ne nc ET CT F) :
    ((b.header=false ∨ b.handler<0) ∧ handleBlock env now b p s=s) ∨
    (b.header=true ∧ 0≤b.handler ∧ b.more=true ∧ ∃ app, handleBlock env now b p s={s with
        app := app
        firstSrcIsclose := flagAfter env b p s
        log := .block b.num p.payload p.first::s.log}) ∨
    (b.header=true ∧ 0≤b.handler ∧ b.more=false ∧ ∃ edges app,
      handleBlock env now b p s={s with
        edges := edges
        app := app
        taskInUse := timedUnlockUnlock s.taskInUse
        firstSrcIsclose := flagAfter env b p s
        log := .judged (flagAfter env b p s && lastIsclose env p s) p.payload p.last::
          .block b.num p.payload p.first::s.log}) := by
  unfold handleBlock
  split
  · next h => exact Or.inl ⟨Or.inl h,rfl⟩
  · next h =>
    have hheader : b.header=true := by simpa using h
    split
    · next hh => exact Or.inl ⟨Or.inr hh,rfl⟩
    · next hh =>
      have hfirst : ∀ s : State ne nc ET CT F, handleFirst env b p s=
          {s with firstSrcIsclose := flagAfter env b p s} := by
        intro s
        unfold handleFirst flagAfter
        split <;> rfl
      dsimp only
      rw [hfirst]
      cases hmore : b.more with
      | true =>
        exact Or.inr (Or.inl ⟨hheader,not_lt.mp hh,rfl,_,if_neg (by simp [hmore])⟩)
      | false =>
        obtain ⟨edges,hr⟩ := handleLast_eq env now hmore p {s with
          app := if env.monitorThroughput=true then
            {s.app with inLen := s.app.inLen+p.payload.length} else s.app
          firstSrcIsclose := flagAfter env b p s
          log := .block b.num p.payload p.first::s.log}
        exact Or.inr (Or.inr ⟨hheader,not_lt.mp hh,rfl,edges,_,hr⟩)

/-- The handler refuses a message while no task is outstanding; else it
restarts the timer and handles the message as a status or as a block. -/
theorem resCoapRoutingPostHandler_cases (env : Env ET CT F D) (now : ℕ) (p : Post F)
    (s : State ne nc ET CT F) :
    (s.taskInUse.locked=false ∧ (resCoapRoutingPostHandler env now p s).1=s) ∨
    (s.taskInUse.locked=true ∧ p.block1=none ∧ (resCoapRoutingPostHandler env now p s).1=
      routingResponseProcessStatus env now p
        {s with taskInUse := timedUnlockRestartTimer now s.taskInUse}) ∨
    (s.taskInUse.locked=true ∧ ∃ b, p.block1=some b ∧
      (resCoapRoutingPostHandler env now p s).1=handleBlock env now b p
        {s with taskInUse := timedUnlockRestartTimer now s.taskInUse}) := by
  unfold resCoapRoutingPostHandler
  split
  · next hl => exact Or.inl ⟨hl,rfl⟩
  · next hl =>
    have hlocked : s.taskInUse.locked=true := by simpa using hl
    dsimp only
    cases p.block1 with
    | none => exact Or.inr (Or.inl ⟨hlocked,rfl,rfl⟩)
    | some b => exact Or.inr (Or.inr ⟨hlocked,b,rfl,rfl⟩)

end Functions

section Sample

/-- Single floats are read as their four bytes. -/
def sampleCbor : CoordinateDecoder (List UInt8 × Option ℕ) (List UInt8) :=
  {sampleDecoder with
    getFloat := fun dec old => match dec.1 with
      | b::b0::b1::b2::b3::rest =>
        if b=0xfa then (0,(rest,dec.2.map (·-1)),[b0,b1,b2,b3]) else (-2,dec,old)
      | _ => (-3,dec,old)}

/-- The task from (1, 2) to (3, 4), as the four bytes of each float. -/
def sampleTask : Coordinate (List UInt8) × Coordinate (List UInt8) :=
  (⟨[0x3f,0x80,0,0],[0x40,0,0,0]⟩,⟨[0x40,0x40,0,0],[0x40,0x80,0,0]⟩)

/-- The command "@submit-task:route-req:1,2:3,4". -/
def sampleCommand : List UInt8 := [0x40,0x73,0x75,0x62,0x6d,0x69,0x74,0x2d,0x74,0x61,0x73,0x6b,
  0x3a,0x72,0x6f,0x75,0x74,0x65,0x2d,0x72,0x65,0x71,0x3a,0x31,0x2c,0x32,0x3a,0x33,0x2c,0x34]

/-- Observations are counted, and only equal floats are close. -/
def sampleEnv : Env ℕ ℕ (List UInt8) (List UInt8 × Option ℕ) where
  trust := ⟨fun _ t => (t.1+1,t.2),fun _ t => (t.1+1,t.2),fun _ t => (t.1,t.2+1),
    fun _ t => (t.1,t.2+1)⟩
  cbor := sampleCbor
  isclose a b := decide (a=b)
  parseInput data _ := (decide (data=sampleCommand),sampleTask)
  monitorThroughput := false
  throughput _ _ := 0

/-- The application right after `init`, without edges. -/
def sampleStart : State 4 3 ℕ ℕ (List UInt8) := start (edgeInfoInit 4 3 0 0) [0,0,0,0] 1

/-- A message from the address of a repeated byte. -/
def samplePost (now : ℕ) (src : UInt8) (payload : List UInt8) (block1 : Option Block1) :
    Op 4 3 ℕ ℕ (List UInt8) := .post now ⟨sampleAddr src,payload,block1,⟨[],[]⟩,⟨[],[]⟩⟩

/-- The edges with the addresses of ones and of twos offer the application. -/
def sampleEdges : Op 4 3 ℕ ℕ (List UInt8) := .edges (sampleStore routingApplicationName) true

/-- The task is submitted to the edge with the address of ones. -/
def sampleSubmit (now : ℕ) : Op 4 3 ℕ ℕ (List UInt8) :=
  .command now sampleCommand 28 (some sampleFirst) true

/-- The route from (1, 2) to (3, 4) in one payload. -/
def sampleRoute : List UInt8 := [0x82,0x82,0xfa,0x3f,0x80,0,0,0xfa,0x40,0,0,0,
  0x82,0xfa,0x40,0x40,0,0,0xfa,0x40,0x80,0,0]

/-- A task that is acknowledged, reported as a success and answered in one
block, while a message from an unknown address arrives right at its start. -/
def sampleRun : List (Op 4 3 ℕ ℕ (List UInt8)) :=
  [sampleEdges,sampleSubmit 0,samplePost 0 9 [0] none,
    .callback 1 .response content205,.callback 1 .finished 0,samplePost 2 1 [0] none,
    samplePost 3 1 sampleRoute (some ⟨true,0,false,0⟩)]

end Sample

section Interference

/-- Lock and timer of the task, the flag and the trust in all edges are the same. -/
def Unharmed (s s' : State ne nc ET CT F) : Prop :=
  s'.taskInUse=s.taskInUse ∧ s'.firstSrcIsclose=s.firstSrcIsclose ∧ s'.edges=s.edges

/-- The message carries nothing that counts: a status that leaves the trust
model as it was, or whose sender it does not know; or a block that the CoAP
library rejects; or a block that is not the last and, if it is the first,
finds the flag as it is. -/
def CarriesNothing (env : Env ET CT F D) (s : State ne nc ET CT F) (p : Post F) : Prop :=
  match p.block1 with
  | none => ∀ ec∈findRouting s.edges p.src,
      env.trust.taskResult (statusInfo env p.payload) (trustOf s.edges ec.1 ec.2)=
        trustOf s.edges ec.1 ec.2
  | some b => b.header=true → 0≤b.handler → b.more=true ∧
      (b.num=0 →
        coordinateIsclose env (decodeFirst env p.payload p.first).2 s.taskSrc=s.firstSrcIsclose)

/-- Carrying nothing that counts is decided by the message and the edges. -/
instance decidableCarriesNothing [DecidableEq ET] [DecidableEq CT] (env : Env ET CT F D)
    (s : State ne nc ET CT F) (p : Post F) : Decidable (CarriesNothing env s p) :=
  match h : p.block1 with
  | none =>
    have : Decidable (∀ ec∈findRouting s.edges p.src,
        env.trust.taskResult (statusInfo env p.payload) (trustOf s.edges ec.1 ec.2)=
          trustOf s.edges ec.1 ec.2) := Option.decidableForallMem _
    decidable_of_iff (∀ ec∈findRouting s.edges p.src,
      env.trust.taskResult (statusInfo env p.payload) (trustOf s.edges ec.1 ec.2)=
        trustOf s.edges ec.1 ec.2) (by rw [CarriesNothing,h])
  | some b => decidable_of_iff (b.header=true → 0≤b.handler → b.more=true ∧ (b.num=0 →
      coordinateIsclose env (decodeFirst env p.payload p.first).2 s.taskSrc=s.firstSrcIsclose))
      (by rw [CarriesNothing,h])

/-- A status harms nothing exactly when the timer restarts at the moment at
which it was last armed and the trust of the sender stays as it was. -/
theorem unharmed_status_iff (now : ℕ) (p : Post F) (s : State ne nc ET CT F) :
    Unharmed s (routingResponseProcessStatus env now p
        {s with taskInUse := timedUnlockRestartTimer now s.taskInUse}) ↔
      timedUnlockRestartTimer now s.taskInUse=s.taskInUse ∧
      ∀ ec∈findRouting s.edges p.src,
        env.trust.taskResult (statusInfo env p.payload) (trustOf s.edges ec.1 ec.2)=
          trustOf s.edges ec.1 ec.2 := by
  rcases routingResponseProcessStatus_cases env now p
    {s with taskInUse := timedUnlockRestartTimer now s.taskInUse} with ⟨hf,h⟩ | ⟨e,c,app,hf,h⟩
  · rw [h]
    dsimp only at hf
    rw [hf]
    exact ⟨fun hu => ⟨hu.1,fun _ hec => nomatch hec⟩,fun hu => ⟨hu.1,rfl,rfl⟩⟩
  · rw [h]
    dsimp only at hf
    rw [hf]
    have hupd := updateTrust_eq_iff s.edges e c (env.trust.taskResult (statusInfo env p.payload))
    constructor
    · rintro ⟨ht,_,he⟩
      refine ⟨ht,fun ec hec => ?_⟩
      obtain rfl := Option.some.inj hec
      exact hupd.mp he
    · rintro ⟨ht,he⟩
      exact ⟨ht,rfl,hupd.mpr (he (e,c) rfl)⟩

/-- The flag stays as it is exactly when a first block finds it so. -/
theorem flagAfter_eq_iff (env : Env ET CT F D) (b : Block1) (p : Post F)
    (s : State ne nc ET CT F) :
    flagAfter env b p s=s.firstSrcIsclose ↔ (b.num=0 →
      coordinateIsclose env (decodeFirst env p.payload p.first).2 s.taskSrc=
        s.firstSrcIsclose) := by
  unfold flagAfter
  split
  · next hnum => exact ⟨fun hf _ => hf,fun hf => hf hnum⟩
  · next hnum => exact ⟨fun _ hz => absurd hz hnum,fun _ => rfl⟩

/-- A block harms nothing exactly when the timer restarts at the moment at
which it was last armed and the block is rejected, or is not the last one and
leaves the flag as it is. -/
theorem unharmed_block_iff (hl : s.taskInUse.locked=true) (now : ℕ) (b : Block1) (p : Post F) :
    Unharmed s (handleBlock env now b p
        {s with taskInUse := timedUnlockRestartTimer now s.taskInUse}) ↔
      timedUnlockRestartTimer now s.taskInUse=s.taskInUse ∧
      (b.header=true → 0≤b.handler → b.more=true ∧ (b.num=0 →
        coordinateIsclose env (decodeFirst env p.payload p.first).2 s.taskSrc=
          s.firstSrcIsclose)) := by
  rcases handleBlock_cases env now b p
      {s with taskInUse := timedUnlockRestartTimer now s.taskInUse} with
    ⟨hbad,h⟩ | ⟨hheader,hhandler,hmore,app,h⟩ | ⟨hheader,hhandler,hmore,edges,app,h⟩
  · rw [h]
    refine ⟨fun hu => ⟨hu.1,fun hheader hhandler => ?_⟩,fun hu => ⟨hu.1,rfl,rfl⟩⟩
    rcases hbad with hbad | hbad
    · rw [hheader] at hbad
      cases hbad
    · exact absurd hhandler (not_le.mpr hbad)
  · rw [h]
    have hflag := flagAfter_eq_iff env b p s
    constructor
    · rintro ⟨ht,hf,_⟩
      exact ⟨ht,fun _ _ => ⟨hmore,hflag.mp hf⟩⟩
    · rintro ⟨ht,hf⟩
      exact ⟨ht,hflag.mpr (hf hheader hhandler).2,rfl⟩
  · rw [h]
    constructor
    · rintro ⟨ht,_⟩
      have hunlocked : false=s.taskInUse.locked := congrArg TimedUnlock.locked ht
      rw [hl] at hunlocked
      cases hunlocked
    · rintro ⟨_,hf⟩
      have hmore' := (hf hheader hhandler).1
      rw [hmore] at hmore'
      cases hmore'

/-- A message that is handled while a task is outstanding harms nothing
exactly when it arrives at the moment at which the timer was last armed and
carries nothing that counts. -/
theorem unharmed_post_iff (hc : s.taskInUse.Coherent) (hl : s.taskInUse.locked=true) (now : ℕ)
    (p : Post F) : Unharmed s (resCoapRoutingPostHandler env now p s).1 ↔
      s.taskInUse.timer.start=now ∧ CarriesNothing env s p := by
  rw [←timedUnlockRestartTimer_eq_iff now hc hl]
  unfold CarriesNothing
  rcases resCoapRoutingPostHandler_cases env now p s with
    ⟨hfree,_⟩ | ⟨_,hb,h⟩ | ⟨_,b,hb,h⟩
  · rw [hl] at hfree
    cases hfree
  · rw [h,hb]
    exact unharmed_status_iff now p s
  · rw [h,hb]
    exact unharmed_block_iff hl now b p

/-- The step is no message from another edge than the tasked one that harms
an outstanding task. -/
def ForeignUnharmed (env : Env ET CT F D) (s : State ne nc ET CT F) :
    Op ne nc ET CT F → Prop
  | .post now p => s.taskInUse.locked=true → p.src≠s.ep → Unharmed s (step env s (.post now p))
  | _ => True

/-- A message from another edge than the tasked one arrives at the moment at
which the timer was last armed and carries nothing that counts. -/
def ForeignHarmless (env : Env ET CT F D) (s : State ne nc ET CT F) :
    Op ne nc ET CT F → Prop
  | .post now p => s.taskInUse.locked=true → p.src≠s.ep →
      s.taskInUse.timer.start=now ∧ CarriesNothing env s p
  | _ => True

/-- The condition is decided by the message and the state. -/
instance decidableForeignHarmless [DecidableEq ET] [DecidableEq CT] (env : Env ET CT F D)
    (s : State ne nc ET CT F) : ∀ op, Decidable (ForeignHarmless env s op)
  | .post _ _ => inferInstanceAs (Decidable (_ → _ → _ ∧ _))
  | .command _ _ _ _ _ | .callback _ _ _ | .taskExpires _ | .coapExpires _ | .edges _ _ =>
    .isTrue trivial

/-- Every step keeps the lock of the task coherent with its timer. -/
theorem coherent_step (h : s.taskInUse.Coherent) (op : Op ne nc ET CT F) :
    (step env s op).taskInUse.Coherent := by
  cases op with
  | command now data len chosen accepted =>
    change (eventTriggeredAction env now data len chosen accepted s).taskInUse.Coherent
    rcases eventTriggeredAction_cases env now data len chosen accepted s with
      ha | ⟨_,_,_,_,ha⟩ | ⟨_,_,_,_,_,ha⟩ <;> rw [ha]
    · exact h
    · exact h
    · exact coherent_lock now s.taskInUse
  | callback now status code =>
    obtain ⟨_,_,task,_,htask,_,ha⟩ := sendCallback_cases env now status code s
    change (sendCallback env now status code s).taskInUse.Coherent
    rw [ha]
    rcases htask with rfl | rfl
    · exact h
    · exact coherent_unlock s.taskInUse
  | post now p =>
    change (resCoapRoutingPostHandler env now p s).1.taskInUse.Coherent
    rcases resCoapRoutingPostHandler_cases env now p s with
      ⟨_,hr⟩ | ⟨hl,_,hr⟩ | ⟨hl,b,_,hr⟩ <;> rw [hr]
    · exact h
    · have hc := coherent_restartTimer now hl
      rcases routingResponseProcessStatus_cases env now p
        {s with taskInUse := timedUnlockRestartTimer now s.taskInUse} with
        ⟨_,ha⟩ | ⟨_,_,_,_,ha⟩ <;> rw [ha] <;> exact hc
    · have hc := coherent_restartTimer now hl
      rcases handleBlock_cases env now b p
          {s with taskInUse := timedUnlockRestartTimer now s.taskInUse} with
        ⟨_,ha⟩ | ⟨_,_,_,_,ha⟩ | ⟨_,_,_,_,_,ha⟩ <;> rw [ha]
      · exact hc
      · exact hc
      · exact coherent_unlock _
  | taskExpires now =>
    change (routingProcessTaskTimeout env _).taskInUse.Coherent
    rcases routingProcessTaskTimeout_cases env
      {s with taskInUse := timedUnlockUnlock s.taskInUse} with ⟨_,ha⟩ | ⟨_,_,_,ha⟩ <;>
      rw [ha] <;> exact coherent_unlock s.taskInUse
  | coapExpires now => exact h
  | edges edges running => exact h

/-- **Interference over a whole run.** No message from another edge than the
tasked one harms an outstanding task exactly when all of them arrive at the
moment at which the timer was last armed and carry nothing that counts. -/
theorem foreignUnharmed_along_iff (env : Env ET CT F D) (edges : EdgeStore ne nc ET CT)
    (zero : F) (clockSecond : ℕ) (ops : List (Op ne nc ET CT F)) :
    Along (step env) (ForeignUnharmed env) (start edges zero clockSecond) ops ↔
      Along (step env) (ForeignHarmless env) (start edges zero clockSecond) ops := by
  refine along_congr (I:=fun s => s.taskInUse.Coherent) (A:=fun _ _ => True)
    (fun _ op hI _ => coherent_step hI op) (fun s op hI _ => ?_) (coherent_init _)
    (along_of_forall fun _ _ => trivial)
  cases op with
  | post now p =>
    constructor
    · exact fun h hl hsrc => (unharmed_post_iff hI hl now p).mp (h hl hsrc)
    · exact fun h hl hsrc => (unharmed_post_iff hI hl now p).mpr (h hl hsrc)
  | command now data len chosen accepted => exact Iff.rfl
  | callback now status code => exact Iff.rfl
  | taskExpires now => exact Iff.rfl
  | coapExpires now => exact Iff.rfl
  | edges edges running => exact Iff.rfl

/-- The message from the unknown address in the sample run is harmless. -/
example : Along (step sampleEnv) (ForeignHarmless sampleEnv) sampleStart sampleRun := by decide

/-- A final block from another edge, with a payload of one byte, ends the task. -/
theorem not_foreignUnharmed_of_final_block :
    Along (step sampleEnv) Admitted sampleStart [sampleEdges,sampleSubmit 0,
        samplePost 1 2 [0] (some ⟨true,1,false,0⟩)] ∧
      ¬Along (step sampleEnv) (ForeignUnharmed sampleEnv) sampleStart
        [sampleEdges,sampleSubmit 0,samplePost 1 2 [0] (some ⟨true,1,false,0⟩)] := by
  refine ⟨by decide,fun h => ?_⟩
  have hsame := (h.2.2.1 (by decide) (by decide)).1
  exact absurd hsame (by decide)

end Interference

section Observations

/-- Calls of `tm_update_task_result` since the last submission. -/
def observations : List (Event F) → ℕ
  | [] => 0
  | .submitted _ _::_ => 0
  | .taskResult _::log => observations log+1
  | .taskSubmission _::log | .status _::log | .expired _::log | .block _ _ _::log
  | .judged _ _ _::log => observations log

/-- Statuses from registered edges and expiries with a registered edge since
the last submission. -/
def heard : List (Event F) → ℕ
  | [] => 0
  | .submitted _ _::_ => 0
  | .status true::log | .expired true::log => heard log+1
  | .status false::log | .expired false::log | .taskSubmission _::log | .taskResult _::log
  | .block _ _ _::log | .judged _ _ _::log => heard log

/-- The step hears of the task: while it is outstanding, a status arrives from
an edge that is registered with the capability; or the task expires while its
edge is. -/
def Hears (s : State ne nc ET CT F) : Op ne nc ET CT F → Prop
  | .post _ p => s.taskInUse.locked=true ∧ p.block1=none ∧ findRouting s.edges p.src≠none
  | .taskExpires _ => findRouting s.edges s.ep≠none
  | _ => False

/-- Hearing of the task is decided by the step and the state. -/
instance decidableHears (s : State ne nc ET CT F) : ∀ op, Decidable (Hears s op)
  | .post _ p => decidable_of_iff (s.taskInUse.locked=true ∧ p.block1.isNone=true ∧
      findRouting s.edges p.src≠none) (by simp only [Hears,Option.isNone_iff_eq_none])
  | .taskExpires _ => inferInstanceAs (Decidable (_≠_))
  | .command _ _ _ _ _ | .callback _ _ _ | .coapExpires _ | .edges _ _ => .isFalse id

/-- Nothing is heard of a task after the first time. -/
def HeardFirst (s : State ne nc ET CT F) (op : Op ne nc ET CT F) : Prop :=
  Hears s op → heard s.log=0

/-- The condition is decided by the step and the log. -/
instance decidableHeardFirst (s : State ne nc ET CT F) (op : Op ne nc ET CT F) :
    Decidable (HeardFirst s op) := inferInstanceAs (Decidable (_ → _))

/-- At most one observation has been made since the last submission. -/
def ObservedOnce (s : State ne nc ET CT F) : Prop := observations s.log≤1

/-- Observing once is decided by the log. -/
instance decidableObservedOnce (s : State ne nc ET CT F) : Decidable (ObservedOnce s) :=
  inferInstanceAs (Decidable (observations s.log≤1))

/-- A step adds one to both counts if it hears of the task, adds nothing if it
does not, and starts both counts again if it submits a task. -/
theorem counts_step (env : Env ET CT F D) (s : State ne nc ET CT F) (op : Op ne nc ET CT F) :
    (Hears s op ∧ observations (step env s op).log=observations s.log+1 ∧
      heard (step env s op).log=heard s.log+1) ∨
    (¬Hears s op ∧ observations (step env s op).log=observations s.log ∧
      heard (step env s op).log=heard s.log) ∨
    (¬Hears s op ∧ observations (step env s op).log=0 ∧ heard (step env s op).log=0) := by
  cases op with
  | command now data len chosen accepted =>
    dsimp only [step]
    rcases eventTriggeredAction_cases env now data len chosen accepted s with
      ha | ⟨_,_,_,_,ha⟩ | ⟨_,_,_,_,_,ha⟩ <;> rw [ha]
    · exact Or.inr (Or.inl ⟨id,rfl,rfl⟩)
    · exact Or.inr (Or.inl ⟨id,rfl,rfl⟩)
    · exact Or.inr (Or.inr ⟨id,rfl,rfl⟩)
  | callback now status code =>
    obtain ⟨_,_,_,log,_,hlog,ha⟩ := sendCallback_cases env now status code s
    dsimp only [step]
    rw [ha]
    rcases hlog with rfl | rfl
    · exact Or.inr (Or.inl ⟨id,rfl,rfl⟩)
    · exact Or.inr (Or.inl ⟨id,rfl,rfl⟩)
  | post now p =>
    dsimp only [step,Hears]
    rcases resCoapRoutingPostHandler_cases env now p s with
      ⟨hl,hr⟩ | ⟨hl,hb,hr⟩ | ⟨_,b,hb,hr⟩ <;> rw [hr]
    · exact Or.inr (Or.inl ⟨by simp [hl],rfl,rfl⟩)
    · rcases routingResponseProcessStatus_cases env now p
          {s with taskInUse := timedUnlockRestartTimer now s.taskInUse} with
        ⟨hf,ha⟩ | ⟨_,_,_,hf,ha⟩ <;> rw [ha] <;> dsimp only at hf
      · exact Or.inr (Or.inl ⟨by simp [hf],rfl,rfl⟩)
      · exact Or.inl ⟨⟨hl,hb,by simp [hf]⟩,rfl,rfl⟩
    · have hnot : ¬(s.taskInUse.locked=true ∧ p.block1=none ∧
          findRouting s.edges p.src≠none) := fun h => nomatch hb.symm.trans h.2.1
      rcases handleBlock_cases env now b p
          {s with taskInUse := timedUnlockRestartTimer now s.taskInUse} with
        ⟨_,ha⟩ | ⟨_,_,_,_,ha⟩ | ⟨_,_,_,_,_,ha⟩ <;> rw [ha]
      · exact Or.inr (Or.inl ⟨hnot,rfl,rfl⟩)
      · exact Or.inr (Or.inl ⟨hnot,rfl,rfl⟩)
      · exact Or.inr (Or.inl ⟨hnot,rfl,rfl⟩)
  | taskExpires now =>
    dsimp only [step,Hears]
    rcases routingProcessTaskTimeout_cases env
        {s with taskInUse := timedUnlockUnlock s.taskInUse} with
      ⟨hf,ha⟩ | ⟨_,_,hf,ha⟩ <;> rw [ha] <;> dsimp only at hf
    · exact Or.inr (Or.inl ⟨by simp [hf],rfl,rfl⟩)
    · exact Or.inl ⟨by simp [hf],rfl,rfl⟩
  | coapExpires now => exact Or.inr (Or.inl ⟨id,rfl,rfl⟩)
  | edges edges running => exact Or.inr (Or.inl ⟨id,rfl,rfl⟩)

/-- **Observations over a whole run.** Each submitted task is observed at most
once, in every reachable state, exactly when no status from a registered edge
is handled and no task expires after something has been heard of that task. -/
theorem observedOnce_always_iff (env : Env ET CT F D) (edges : EdgeStore ne nc ET CT) (zero : F)
    (clockSecond : ℕ) (ops : List (Op ne nc ET CT F)) :
    Always (step env) ObservedOnce (start edges zero clockSecond) ops ↔
      Along (step env) HeardFirst (start edges zero clockSecond) ops := by
  refine always_iff_along (I:=fun s => observations s.log=heard s.log) (A:=fun _ _ => True)
    (fun s op hI _ => ?_) (fun s op hI hP _ => ?_) rfl (Nat.zero_le 1)
    (along_of_forall fun _ _ => trivial)
  · rcases counts_step env s op with ⟨_,ho,hh⟩ | ⟨_,ho,hh⟩ | ⟨_,ho,hh⟩ <;> omega
  · unfold ObservedOnce HeardFirst at *
    rcases counts_step env s op with ⟨hhear,ho,_⟩ | ⟨hnot,ho,_⟩ | ⟨hnot,ho,_⟩
    · rw [ho,←hI]
      exact ⟨fun h _ => by omega,fun h => by have := h hhear; omega⟩
    · rw [ho]
      exact iff_of_true hP fun h => absurd h hnot
    · rw [ho]
      exact iff_of_true (Nat.zero_le 1) fun h => absurd h hnot

/-- The sample run hears of its task once. -/
example : Along (step sampleEnv) HeardFirst sampleStart sampleRun := by decide

/-- The tasked edge reports a failure and then a success for one task. -/
theorem not_observedOnce_of_two_statuses :
    Along (step sampleEnv) Admitted sampleStart [sampleEdges,sampleSubmit 0,
        samplePost 1 1 [1] none,samplePost 2 1 [0] none] ∧
      ¬Always (step sampleEnv) ObservedOnce sampleStart [sampleEdges,
        sampleSubmit 0,samplePost 1 1 [1] none,samplePost 2 1 [0] none] := by
  decide

end Observations

section Verdicts

/-- The coordinate at a position of a payload was decoded and is close to
the target; the variable held the given value before. -/
def DecodedClose (env : Env ET CT F D) (decoded : ℤ × Coordinate F) (target : Coordinate F) :
    Prop := decoded.1=nanocborOk ∧ coordinateIsclose env decoded.2 target=true

/-- Closeness of a decoding is decided by evaluating it. -/
instance decidableDecodedClose (env : Env ET CT F D) (decoded : ℤ × Coordinate F)
    (target : Coordinate F) : Decidable (DecodedClose env decoded target) :=
  inferInstanceAs (Decidable (_ ∧ _))

/-- Source and destination of the last submitted task. -/
def currentTask : List (Event F) → Option (Coordinate F × Coordinate F)
  | [] => none
  | .submitted src dest::_ => some (src,dest)
  | _::log => currentTask log

/-- A block with number zero was handled since the last submission. -/
def FirstBlockSeen : List (Event F) → Prop
  | [] | .submitted _ _::_ => False
  | .block num _ _::log => num=0 ∨ FirstBlockSeen log
  | _::log => FirstBlockSeen log

/-- Whether a first block was seen is decided by the log. -/
instance decidableFirstBlockSeen : ∀ log : List (Event F), Decidable (FirstBlockSeen log)
  | [] | .submitted _ _::_ => .isFalse id
  | .block _ _ _::log =>
    have := decidableFirstBlockSeen log
    inferInstanceAs (Decidable (_ ∨ _))
  | .taskSubmission _::log | .status _::log | .expired _::log | .taskResult _::log
  | .judged _ _ _::log => decidableFirstBlockSeen log

/-- A block with number zero was handled since the last submission whose
first coordinate was decoded and is close to the source. -/
def FirstEarned (env : Env ET CT F D) (src : Coordinate F) : List (Event F) → Prop
  | [] | .submitted _ _::_ => False
  | .block num payload first::log =>
    (num=0 ∧ DecodedClose env (decodeFirst env payload first) src) ∨ FirstEarned env src log
  | _::log => FirstEarned env src log

/-- Whether a first block was earned is decided by the log. -/
instance decidableFirstEarned (env : Env ET CT F D) (src : Coordinate F) :
    ∀ log, Decidable (FirstEarned env src log)
  | [] | .submitted _ _::_ => .isFalse id
  | .block _ _ _::log =>
    have := decidableFirstEarned env src log
    inferInstanceAs (Decidable ((_ ∧ _) ∨ _))
  | .taskSubmission _::log | .status _::log | .expired _::log | .taskResult _::log
  | .judged _ _ _::log => decidableFirstEarned env src log

/-- Every good verdict was earned by the task that was current: by a block
with number zero and by the last block, whose final coordinate was decoded and
is close to the destination. -/
def VerdictsEarned (env : Env ET CT F D) : List (Event F) → Prop
  | [] => True
  | .judged good payload last::log =>
    (good=true → ∃ task∈currentTask log, FirstEarned env task.1 log ∧
      DecodedClose env (decodeLast env payload last) task.2) ∧ VerdictsEarned env log
  | _::log => VerdictsEarned env log

/-- Whether all verdicts were earned is decided by the log. -/
instance decidableVerdictsEarned (env : Env ET CT F D) : ∀ log, Decidable (VerdictsEarned env log)
  | [] => .isTrue trivial
  | .judged _ _ _::log =>
    have := decidableVerdictsEarned env log
    inferInstanceAs (Decidable ((_ → ∃ task∈currentTask log,_ ∧ _) ∧ _))
  | .submitted _ _::log | .taskSubmission _::log | .status _::log | .expired _::log
  | .taskResult _::log | .block _ _ _::log => decidableVerdictsEarned env log

/-- All verdicts of the run so far were earned. -/
def Earned (env : Env ET CT F D) (s : State ne nc ET CT F) : Prop := VerdictsEarned env s.log

/-- Whether all verdicts were earned is decided by the log. -/
instance decidableEarned (env : Env ET CT F D) (s : State ne nc ET CT F) :
    Decidable (Earned env s) := inferInstanceAs (Decidable (VerdictsEarned env s.log))

/-- No accidental closeness in a handled block: a first coordinate that is not
decoded leaves nothing close to the source; and for the last block, a last
coordinate that is not decoded leaves nothing close to the destination, and
without a first block since the submission the flag of an earlier task does
not meet a close last coordinate. -/
def NoAccident (env : Env ET CT F D) (s : State ne nc ET CT F) (b : Block1) (p : Post F) : Prop :=
  (b.num=0 → (decodeFirst env p.payload p.first).1≠nanocborOk →
    coordinateIsclose env (decodeFirst env p.payload p.first).2 s.taskSrc=false) ∧
  (b.more=false →
    ((decodeLast env p.payload p.last).1≠nanocborOk → lastIsclose env p s=false) ∧
    (b.num≠0 → ¬FirstBlockSeen s.log → (s.firstSrcIsclose && lastIsclose env p s)=false))

/-- Accidents are decided by decoding the payload. -/
instance decidableNoAccident (env : Env ET CT F D) (s : State ne nc ET CT F) (b : Block1)
    (p : Post F) : Decidable (NoAccident env s b p) :=
  inferInstanceAs (Decidable ((_ → _ → _) ∧ (_ → (_ → _) ∧ (_ → ¬_ → _))))

/-- The step handles no block with an accidental closeness. -/
def AccidentFree (env : Env ET CT F D) (s : State ne nc ET CT F) : Op ne nc ET CT F → Prop
  | .post _ p => s.taskInUse.locked=true → ∀ b∈p.block1, b.header=true → 0≤b.handler →
      NoAccident env s b p
  | _ => True

/-- The condition is decided by the message and the state. -/
instance decidableAccidentFree (env : Env ET CT F D) (s : State ne nc ET CT F) :
    ∀ op, Decidable (AccidentFree env s op)
  | .post _ p => inferInstanceAs (Decidable (_ → ∀ b∈p.block1, _ → _ → NoAccident env s b p))
  | .command _ _ _ _ _ | .callback _ _ _ | .taskExpires _ | .coapExpires _ | .edges _ _ =>
    .isTrue trivial

/-- While a task is outstanding, its coordinates are those submitted last, and
a flag that is set after a first block was earned by one. -/
structure TaskInv (env : Env ET CT F D) (s : State ne nc ET CT F) : Prop where
  /-- The coordinates of the outstanding task. -/
  task : s.taskInUse.locked=true → currentTask s.log=some (s.taskSrc,s.taskDest)
  /-- The flag of the outstanding task. -/
  flag : s.taskInUse.locked=true → FirstBlockSeen s.log → s.firstSrcIsclose=true →
    FirstEarned env s.taskSrc s.log
  /-- The verdicts so far. -/
  earned : Earned env s

/-- A flag that a handled block leaves set is earned, if a first block has
been seen by then. -/
theorem TaskInv.flagAfter (h : TaskInv env s) (hl : s.taskInUse.locked=true) {b : Block1}
    {p : Post F} (hno : NoAccident env s b p) (hseen : b.num=0 ∨ FirstBlockSeen s.log)
    (hflag : flagAfter env b p s=true) :
    FirstEarned env s.taskSrc (.block b.num p.payload p.first::s.log) := by
  unfold Routing.flagAfter at hflag
  split at hflag
  · next hnum =>
    refine Or.inl ⟨hnum,?_,hflag⟩
    by_contra hbad
    rw [hno.1 hnum hbad] at hflag
    cases hflag
  · next hnum => exact Or.inr (h.flag hl (hseen.resolve_left hnum) hflag)

/-- A handled block keeps the invariant when no closeness is accidental. -/
theorem TaskInv.handleBlock (h : TaskInv env s) (hl : s.taskInUse.locked=true) (now : ℕ)
    {b : Block1} {p : Post F}
    (hno : b.header=true → 0≤b.handler → NoAccident env s b p) :
    TaskInv env (handleBlock env now b p s) := by
  rcases handleBlock_cases env now b p s with ⟨_,ha⟩ | ⟨hheader,hhandler,_,app,ha⟩ |
    ⟨hheader,hhandler,hmore,edges,app,ha⟩ <;> rw [ha]
  · exact h
  · exact ⟨h.task,fun _ hseen hflag => h.flagAfter hl (hno hheader hhandler) hseen hflag,h.earned⟩
  · have hacc := hno hheader hhandler
    refine ⟨fun hc => (nomatch hc),fun hc => (nomatch hc),fun hgood => ?_,h.earned⟩
    obtain ⟨hflag,hlast⟩ := (Bool.and_eq_true _ _).mp hgood
    refine ⟨_,h.task hl,?_,?_,hlast⟩
    · refine h.flagAfter hl hacc ?_ hflag
      by_contra hunseen
      obtain ⟨hnum,hnot⟩ := not_or.mp hunseen
      have hstale := (hacc.2 hmore).2 hnum hnot
      rw [Routing.flagAfter,if_neg hnum] at hflag
      rw [hflag,hlast] at hstale
      cases hstale
    · by_contra hbad
      rw [(hacc.2 hmore).1 hbad] at hlast
      cases hlast

/-- Every step without accidental closeness keeps the invariant. -/
theorem TaskInv.step (h : TaskInv env s) {op : Op ne nc ET CT F}
    (hop : AccidentFree env s op) : TaskInv env (step env s op) := by
  cases op with
  | command now data len chosen accepted =>
    dsimp only [Routing.step]
    rcases eventTriggeredAction_cases env now data len chosen accepted s with
      ha | ⟨hfree,_,_,_,ha⟩ | ⟨_,_,_,_,_,ha⟩ <;> rw [ha]
    · exact h
    · have hno : ¬s.taskInUse.locked=true := by simp [hfree]
      exact ⟨fun hl => absurd hl hno,fun hl => absurd hl hno,h.earned⟩
    · exact ⟨fun _ => rfl,fun _ hseen => hseen.elim,h.earned⟩
  | callback now status code =>
    obtain ⟨_,_,task,log,htask,hlog,ha⟩ := sendCallback_cases env now status code s
    dsimp only [Routing.step]
    rw [ha]
    have hlocked : task.locked=true → s.taskInUse.locked=true := by
      rcases htask with rfl | rfl
      · exact id
      · exact fun hl => nomatch hl
    rcases hlog with rfl | rfl
    · exact ⟨fun hl => h.task (hlocked hl),fun hl => h.flag (hlocked hl),h.earned⟩
    · exact ⟨fun hl => h.task (hlocked hl),fun hl => h.flag (hlocked hl),h.earned⟩
  | post now p =>
    dsimp only [Routing.step]
    rcases resCoapRoutingPostHandler_cases env now p s with
      ⟨_,hr⟩ | ⟨_,_,hr⟩ | ⟨hl,b,hb,hr⟩ <;> rw [hr]
    · exact h
    · rcases routingResponseProcessStatus_cases env now p
          {s with taskInUse := timedUnlockRestartTimer now s.taskInUse} with
        ⟨_,ha⟩ | ⟨_,_,_,_,ha⟩ <;> rw [ha] <;> exact ⟨h.task,h.flag,h.earned⟩
    · have hrestart : TaskInv env
          {s with taskInUse := timedUnlockRestartTimer now s.taskInUse} :=
        ⟨h.task,h.flag,h.earned⟩
      exact hrestart.handleBlock hl now (hop hl b hb)
  | taskExpires now =>
    dsimp only [Routing.step]
    rcases routingProcessTaskTimeout_cases env
        {s with taskInUse := timedUnlockUnlock s.taskInUse} with ⟨_,ha⟩ | ⟨_,_,_,ha⟩ <;>
      rw [ha] <;> exact ⟨fun hl => (nomatch hl),fun hl => (nomatch hl),h.earned⟩
  | coapExpires now => exact ⟨h.task,h.flag,h.earned⟩
  | edges edges running => exact ⟨h.task,h.flag,h.earned⟩

/-- **Good verdicts over a whole run.** In a run in which no closeness is
accidental, every good verdict was earned by the task that was current. -/
theorem earned_always (env : Env ET CT F D) (edges : EdgeStore ne nc ET CT) (zero : F)
    (clockSecond : ℕ) (ops : List (Op ne nc ET CT F))
    (hops : Along (step env) (AccidentFree env) (start edges zero clockSecond) ops) :
    Always (step env) (Earned env) (start edges zero clockSecond) ops := by
  have hstart : TaskInv env (start edges zero clockSecond) :=
    ⟨fun hl => (nomatch hl),fun hl => (nomatch hl),trivial⟩
  exact (always_of_step (fun _ _ hI hC => hI.step hC) hstart hops).mono fun _ hI => hI.earned

/-- The good verdict of the sample run is earned. -/
theorem earned_always_sample : Always (step sampleEnv) (Earned sampleEnv) sampleStart sampleRun :=
  earned_always sampleEnv (edgeInfoInit 4 3 0 0) [0,0,0,0] 1 sampleRun (by decide)

/-- The first task gets a good first block and expires; the second one gets
only a final block, which the flag of the first makes good. -/
theorem not_earned_of_stale_flag :
    Along (step sampleEnv) Admitted sampleStart [sampleEdges,sampleSubmit 0,
        .callback 1 .finished 0,samplePost 2 1 sampleRoute (some ⟨true,0,true,0⟩),
        .taskExpires 122,sampleSubmit 123,samplePost 124 1 sampleRoute (some ⟨true,1,false,0⟩)] ∧
      ¬Always (step sampleEnv) (Earned sampleEnv) sampleStart [sampleEdges,
        sampleSubmit 0,.callback 1 .finished 0,
        samplePost 2 1 sampleRoute (some ⟨true,0,true,0⟩),.taskExpires 122,sampleSubmit 123,
        samplePost 124 1 sampleRoute (some ⟨true,1,false,0⟩)] := by
  decide

end Verdicts

end TrustAlloc.Routing
