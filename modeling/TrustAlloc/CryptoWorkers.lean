import TrustAlloc.Certificates
import TrustAlloc.Protothreads
import TrustAlloc.Runs
import Mathlib.Data.UInt

/-!
# The signer and the verifier

The two processes of `crypto-support.c` as workers. The child of each is
`ecc_sign` or `ecc_verify`, which waits for the crypto processor, may wait for
its computation, and announces to every process that it has released the
processor. A job is never left alone in its queue exactly if jobs come one at
a time; it is left at the yield exactly if a pause ends with nothing pending.
-/

namespace TrustAlloc.CryptoWorkers

open Certificates Protothreads Runs

/-- What of a `messages_to_sign_entry_t` decides how it is handled. -/
structure MessagesToSignEntry where
  /-- `message_buffer_len`. -/
  messageBufferLen : UInt16
  /-- `message_len`. -/
  messageLen : UInt16
  deriving DecidableEq

/-- What of a `messages_to_verify_entry_t` decides how it is handled. -/
structure MessagesToVerifyEntry where
  /-- `message_len`. -/
  messageLen : UInt16
  deriving DecidableEq

/-- How far a child has come. -/
inductive Phase where
  /-- It waits for the crypto processor. -/
  | waiting
  /-- It waits for the result of its computation. -/
  | computing
  deriving DecidableEq

/-- What a child finds when it is called. -/
structure Progress where
  /-- `sha256_hash` succeeds. -/
  hashed : Bool
  /-- The computation is over, with whatever result. -/
  computed : Bool

/-- A child whose computation has begun: once it is over, the processor is
released and everybody is informed. -/
def compute (x : Progress) (mutex : ℕ) : Outcome Phase × ℕ :=
  if x.computed=true then (.finished true,mutex+1) else (.suspended .computing,mutex)

/-- A child at its wait for the processor, which it also releases when the
hash fails. -/
def semWait (x : Progress) (mutex : ℕ) : Outcome Phase × ℕ :=
  if mutex=0 then (.suspended .waiting,mutex)
  else if x.hashed=false then (.finished true,mutex-1+1)
  else compute x (mutex-1)

/-- A call of a child that gives up at once when the lengths do not fit. -/
def callChild (fits : Bool) (x : Progress) (mutex : ℕ) : Option Phase → Outcome Phase × ℕ
  | none => if fits=false then (.finished false,mutex) else semWait x mutex
  | some .waiting => semWait x mutex
  | some .computing => compute x mutex

/-- `ecc_sign`: the buffer has room for a signature. -/
def eccSign (entry : MessagesToSignEntry) : Progress → ℕ → Option Phase → Outcome Phase × ℕ :=
  callChild (decide (dtlsEcSigSize ≤
    (entry.messageBufferLen.toUInt32-entry.messageLen.toUInt32).toNat))

/-- `ecc_verify`: the message has room for a signature. -/
def eccVerify (entry : MessagesToVerifyEntry) : Progress → ℕ → Option Phase → Outcome Phase × ℕ :=
  callChild (decide (dtlsEcSigSize ≤ entry.messageLen.toNat))

/-- A process and the pool of its entries. -/
structure Service (E : Type) where
  /-- The process and its queue. -/
  worker : Worker E Phase
  /-- Entries that are allocated. -/
  allocated : ℕ
  /-- Entries that were posted back and not yet freed. -/
  results : ℕ

section Service

variable {E : Type}

/-- Allocate, queue and poll; nothing happens when the pool is full. -/
def Service.queueMessage (size : ℕ) (entry : E) (v : Service E) : Service E :=
  if v.allocated<size then {v with
    worker := v.worker.enqueue entry
    allocated := v.allocated+1}
  else v

/-- A requester frees an entry that was posted back. -/
def Service.done (v : Service E) : Service E :=
  if v.results=0 then v else {v with
    allocated := v.allocated-1
    results := v.results-1}

/-- The child that a delivery calls, and what it does with the processor. -/
def Service.call (child : E → Progress → ℕ → Option Phase → Outcome Phase × ℕ) (x : Progress)
    (mutex : ℕ) (v : Service E) : Outcome Phase × ℕ :=
  match v.worker.call with
  | some (entry,phase) => child entry x mutex phase
  | none => (.finished false,mutex)

/-- A child was called: the process goes on, and posts the entry of a finished job. -/
def Service.took (take : Outcome Phase → Worker E Phase → Worker E Phase) (o : Outcome Phase)
    (v : Service E) : Service E := {v with
  worker := take o v.worker
  results := match v.worker.call,o with
    | some _,.finished _ => v.results+1
    | _,_ => v.results}

/-- The event of a process that has released the processor reaches another one. -/
def Service.hear (o : Outcome Phase) (v : Service E) : Service E :=
  match o with
  | .finished true => {v with worker := v.worker.post}
  | .finished false | .suspended _ => v

/-- The hardware polls the process whose computation is under way. -/
def Service.interrupt (v : Service E) : Service E :=
  match v.worker.point with
  | .spawned _ .computing => {v with worker := v.worker.poke}
  | _ => v

end Service

/-- Both processes and the crypto processor. -/
structure State where
  /-- The signer. -/
  signer : Service MessagesToSignEntry
  /-- The verifier. -/
  verifier : Service MessagesToVerifyEntry
  /-- Count of `crypto_processor_mutex`. -/
  cryptoProcessorMutex : ℕ
  /-- Whether `ecdh2` has the processor. -/
  ecdh : Bool

/-- Sizes of the two pools. -/
structure Env where
  /-- `MESSAGES_TO_SIGN_SIZE`. -/
  messagesToSignSize : ℕ
  /-- `MESSAGES_TO_VERIFY_SIZE`. -/
  messagesToVerifySize : ℕ

/-- `queue_message_to_sign`. -/
def queueMessageToSign (env : Env) (entry : MessagesToSignEntry) (s : State) : State :=
  {s with signer := s.signer.queueMessage env.messagesToSignSize entry}

/-- `queue_message_to_verify`. -/
def queueMessageToVerify (env : Env) (entry : MessagesToVerifyEntry) (s : State) : State :=
  {s with verifier := s.verifier.queueMessage env.messagesToVerifySize entry}

/-- Something is delivered to the signer. -/
def runSigner (take : Outcome Phase → Worker MessagesToSignEntry Phase →
    Worker MessagesToSignEntry Phase) (x : Progress) (s : State) : State :=
  let r := s.signer.call eccSign x s.cryptoProcessorMutex
  {s with
    signer := s.signer.took take r.1
    verifier := s.verifier.hear r.1
    cryptoProcessorMutex := r.2}

/-- Something is delivered to the verifier. -/
def runVerifier (take : Outcome Phase → Worker MessagesToVerifyEntry Phase →
    Worker MessagesToVerifyEntry Phase) (x : Progress) (s : State) : State :=
  let r := s.verifier.call eccVerify x s.cryptoProcessorMutex
  {s with
    verifier := s.verifier.took take r.1
    signer := s.signer.hear r.1
    cryptoProcessorMutex := r.2}

/-- What can happen next, in any order. -/
inductive Op where
  /-- A message is to be signed. -/
  | queueMessageToSign (entry : MessagesToSignEntry)
  /-- A message is to be verified. -/
  | queueMessageToVerify (entry : MessagesToVerifyEntry)
  /-- `queue_message_to_sign_done`. -/
  | signDone
  /-- `queue_message_to_verify_done`. -/
  | verifyDone
  /-- A pending poll is delivered to the signer. -/
  | signerPoll (x : Progress)
  /-- A posted event is delivered to the signer. -/
  | signerEvent (x : Progress)
  /-- A pending poll is delivered to the verifier. -/
  | verifierPoll (x : Progress)
  /-- A posted event is delivered to the verifier. -/
  | verifierEvent (x : Progress)
  /-- The hardware has finished a computation. -/
  | interrupt
  /-- `ecdh2` takes the processor, in the process of the keystore. -/
  | ecdhTakes
  /-- `ecdh2` releases the processor and informs everybody. -/
  | ecdhReleases
  /-- Another event is posted to every process. -/
  | broadcast

/-- One step of the processes or of their surroundings. Nothing is delivered
that is not pending. -/
def step (env : Env) (s : State) : Op → State
  | .queueMessageToSign entry => queueMessageToSign env entry s
  | .queueMessageToVerify entry => queueMessageToVerify env entry s
  | .signDone => {s with signer := s.signer.done}
  | .verifyDone => {s with verifier := s.verifier.done}
  | .signerPoll x => if s.signer.worker.polled=true then runSigner Worker.takePoll x s else s
  | .signerEvent x => if s.signer.worker.posted≠[] then runSigner Worker.takeEvent x s else s
  | .verifierPoll x =>
    if s.verifier.worker.polled=true then runVerifier Worker.takePoll x s else s
  | .verifierEvent x =>
    if s.verifier.worker.posted≠[] then runVerifier Worker.takeEvent x s else s
  | .interrupt => {s with signer := s.signer.interrupt,verifier := s.verifier.interrupt}
  | .ecdhTakes =>
    if s.cryptoProcessorMutex=0 ∨ s.ecdh=true then s else {s with
      cryptoProcessorMutex := s.cryptoProcessorMutex-1
      ecdh := true}
  | .ecdhReleases =>
    if s.ecdh=false then s else {s with
      cryptoProcessorMutex := s.cryptoProcessorMutex+1
      ecdh := false
      signer := s.signer.hear (.finished true)
      verifier := s.verifier.hear (.finished true)}
  | .broadcast => {s with
      signer := s.signer.hear (.finished true)
      verifier := s.verifier.hear (.finished true)}

/-- A service with no entries and an idle process. -/
def Service.init (E : Type) : Service E := ⟨idle,0,0⟩

/-- The state after `crypto_support_init`. -/
def start : State := ⟨.init _,.init _,1,false⟩

section Simulation

variable {E : Type}

/-- What queueing a message is for the process. -/
def Service.queueOp (size : ℕ) (entry : E) (v : Service E) : Option (Protothreads.Op E Phase) :=
  if v.allocated<size then some (.enqueue entry) else none

/-- What hearing of a released processor is for the process. -/
def hearOp (E : Type) : Outcome Phase → Option (Protothreads.Op E Phase)
  | .finished true => some .post
  | .finished false | .suspended _ => none

/-- What an interrupt is for the process. -/
def Service.interruptOp (v : Service E) : Option (Protothreads.Op E Phase) :=
  match v.worker.point with
  | .spawned _ .computing => some .poke
  | _ => none

/-- What a step is for the signer. -/
def signerOp (env : Env) (s : State) : Op → Option (Protothreads.Op MessagesToSignEntry Phase)
  | .queueMessageToSign entry => s.signer.queueOp env.messagesToSignSize entry
  | .signerPoll x => some (.poll (s.signer.call eccSign x s.cryptoProcessorMutex).1)
  | .signerEvent x => some (.event (s.signer.call eccSign x s.cryptoProcessorMutex).1)
  | .verifierPoll x =>
    if s.verifier.worker.polled=true then
      hearOp _ (s.verifier.call eccVerify x s.cryptoProcessorMutex).1 else none
  | .verifierEvent x =>
    if s.verifier.worker.posted≠[] then
      hearOp _ (s.verifier.call eccVerify x s.cryptoProcessorMutex).1 else none
  | .interrupt => s.signer.interruptOp
  | .ecdhReleases => if s.ecdh=false then none else some .post
  | .broadcast => some .post
  | .queueMessageToVerify _ | .signDone | .verifyDone | .ecdhTakes => none

/-- What a step is for the verifier. -/
def verifierOp (env : Env) (s : State) : Op → Option (Protothreads.Op MessagesToVerifyEntry Phase)
  | .queueMessageToVerify entry => s.verifier.queueOp env.messagesToVerifySize entry
  | .verifierPoll x => some (.poll (s.verifier.call eccVerify x s.cryptoProcessorMutex).1)
  | .verifierEvent x => some (.event (s.verifier.call eccVerify x s.cryptoProcessorMutex).1)
  | .signerPoll x =>
    if s.signer.worker.polled=true then
      hearOp _ (s.signer.call eccSign x s.cryptoProcessorMutex).1 else none
  | .signerEvent x =>
    if s.signer.worker.posted≠[] then
      hearOp _ (s.signer.call eccSign x s.cryptoProcessorMutex).1 else none
  | .interrupt => s.verifier.interruptOp
  | .ecdhReleases => if s.ecdh=false then none else some .post
  | .broadcast => some .post
  | .queueMessageToSign _ | .signDone | .verifyDone | .ecdhTakes => none

/-- A worker after the step that it takes part in, if it does. -/
def after (w : Worker E Phase) : Option (Protothreads.Op E Phase) → Worker E Phase
  | none => w
  | some op => Protothreads.step w op

/-- Queueing a message, for the process. -/
theorem Service.queueMessage_worker (size : ℕ) (entry : E) (v : Service E) :
    (v.queueMessage size entry).worker=after v.worker (v.queueOp size entry) := by
  unfold queueMessage queueOp
  split <;> rfl

/-- Freeing an entry, for the process. -/
theorem Service.done_worker (v : Service E) : v.done.worker=v.worker := by
  unfold done
  split <;> rfl

/-- Hearing of a released processor, for the process. -/
theorem Service.hear_worker (o : Outcome Phase) (v : Service E) :
    (v.hear o).worker=after v.worker (hearOp E o) := by
  cases o with
  | suspended phase => rfl
  | finished announced => cases announced <;> rfl

/-- An interrupt, for the process. -/
theorem Service.interrupt_worker (v : Service E) :
    v.interrupt.worker=after v.worker v.interruptOp := by
  unfold interrupt interruptOp
  cases v.worker.point with
  | yielded => rfl
  | spawned job phase => cases phase <;> rfl
  | paused => rfl

/-- What is not pending is not delivered. -/
theorem takePoll_of_not_polled {w : Worker E Phase} (h : ¬w.polled=true) (o : Outcome Phase) :
    w.takePoll o=w := if_neg h

/-- What is not pending is not delivered. -/
theorem takeEvent_of_not_posted {w : Worker E Phase} (h : ¬w.posted≠[]) (o : Outcome Phase) :
    w.takeEvent o=w := by
  rw [Worker.takeEvent,not_not.mp h]

/-- Every step of the system is a step of the signer, or leaves it alone. -/
theorem step_signer (env : Env) (s : State) (op : Op) :
    (step env s op).signer.worker=after s.signer.worker (signerOp env s op) := by
  cases op with
  | queueMessageToSign entry => exact s.signer.queueMessage_worker _ entry
  | queueMessageToVerify entry => rfl
  | signDone => exact s.signer.done_worker
  | verifyDone => rfl
  | signerPoll x =>
    dsimp only [step,signerOp]
    split
    · rfl
    · next h => exact (takePoll_of_not_polled h _).symm
  | signerEvent x =>
    dsimp only [step,signerOp]
    split
    · rfl
    · next h => exact (takeEvent_of_not_posted h _).symm
  | verifierPoll x =>
    dsimp only [step,signerOp]
    split
    · exact s.signer.hear_worker _
    · rfl
  | verifierEvent x =>
    dsimp only [step,signerOp]
    split
    · exact s.signer.hear_worker _
    · rfl
  | interrupt => exact s.signer.interrupt_worker
  | ecdhTakes =>
    dsimp only [step,signerOp]
    split <;> rfl
  | ecdhReleases =>
    dsimp only [step,signerOp]
    split <;> rfl
  | broadcast => rfl

/-- Every step of the system is a step of the verifier, or leaves it alone. -/
theorem step_verifier (env : Env) (s : State) (op : Op) :
    (step env s op).verifier.worker=after s.verifier.worker (verifierOp env s op) := by
  cases op with
  | queueMessageToSign entry => rfl
  | queueMessageToVerify entry => exact s.verifier.queueMessage_worker _ entry
  | signDone => rfl
  | verifyDone => exact s.verifier.done_worker
  | signerPoll x =>
    dsimp only [step,verifierOp]
    split
    · exact s.verifier.hear_worker _
    · rfl
  | signerEvent x =>
    dsimp only [step,verifierOp]
    split
    · exact s.verifier.hear_worker _
    · rfl
  | verifierPoll x =>
    dsimp only [step,verifierOp]
    split
    · rfl
    · next h => exact (takePoll_of_not_polled h _).symm
  | verifierEvent x =>
    dsimp only [step,verifierOp]
    split
    · rfl
    · next h => exact (takeEvent_of_not_posted h _).symm
  | interrupt => exact s.verifier.interrupt_worker
  | ecdhTakes =>
    dsimp only [step,verifierOp]
    split <;> rfl
  | ecdhReleases =>
    dsimp only [step,verifierOp]
    split <;> rfl
  | broadcast => rfl

/-- What holds after a step that a worker takes part in. -/
theorem after_iff {P : Worker E Phase → Prop} {C : Worker E Phase → Protothreads.Op E Phase → Prop}
    {w : Worker E Phase} (hP : P w) (hstep : ∀ op, P (Protothreads.step w op) ↔ C w op)
    (o : Option (Protothreads.Op E Phase)) : P (after w o) ↔ ∀ op∈o, C w op := by
  cases o with
  | none => exact iff_of_true hP fun _ hop => (nomatch hop)
  | some op =>
    refine (hstep op).trans ⟨?_,fun h => h op rfl⟩
    rintro h _ ⟨⟩
    exact h

end Simulation

section Attention

/-- In both processes pauses are in order. -/
def WellPaused (s : State) : Prop :=
  Protothreads.WellPaused s.signer.worker ∧ Protothreads.WellPaused s.verifier.worker

/-- The pauses of both processes stay in order. -/
theorem WellPaused.step {s : State} (h : WellPaused s) (env : Env) (op : Op) :
    WellPaused (step env s op) := by
  have hafter : ∀ {E : Type} {w : Worker E Phase}, Protothreads.WellPaused w →
      ∀ o, Protothreads.WellPaused (after w o) := by
    intro E w hw o
    cases o with
    | none => exact hw
    | some op => exact hw.step op
  constructor
  · rw [step_signer]
    exact hafter h.1 _
  · rw [step_verifier]
    exact hafter h.2 _

/-- The pauses of both processes are in order at the start. -/
theorem wellPaused_start : WellPaused start := ⟨wellPaused_idle,wellPaused_idle⟩

/-- Both queues are attended to: if messages wait, the process is going to
look at its queue without anything else happening. -/
def JobsAttended (s : State) : Prop := Attended s.signer.worker ∧ Attended s.verifier.worker

/-- Both queues being attended to is decided by the two processes. -/
instance decidableJobsAttended (s : State) : Decidable (JobsAttended s) :=
  inferInstanceAs (Decidable (_ ∧ _))

/-- Messages are queued while their process is at its yield, or is going to
look at its queue anyway, and it finds one message at most when it looks. -/
def JobsOneAtATime (env : Env) (s : State) (op : Op) : Prop :=
  (∀ o∈signerOp env s op, OneAtATime s.signer.worker o) ∧
    ∀ o∈verifierOp env s op, OneAtATime s.verifier.worker o

/-- **The two processes over a whole run.** Their queues are attended to in
every state exactly if jobs come one at a time. -/
theorem jobsAttended_always_iff (env : Env) (ops : List Op) :
    Always (step env) JobsAttended start ops ↔ Along (step env) (JobsOneAtATime env) start ops := by
  refine always_iff_along (I:=WellPaused) (A:=fun _ _ => True) (fun _ op h _ => h.step env op)
    (fun s op hw h _ => ?_) wellPaused_start
    ⟨fun hne => absurd rfl hne,fun hne => absurd rfl hne⟩ (along_of_forall fun _ _ => trivial)
  rw [JobsAttended,step_signer,step_verifier]
  exact and_congr (after_iff h.1 (attended_step_iff hw.1 h.1) _)
    (after_iff h.2 (attended_step_iff hw.2 h.2) _)

/-- Two messages are queued before the verifier is polled. It verifies one of
them and pauses, and then waits at its yield with the other one in its queue
and nothing pending. -/
theorem not_jobsAttended_of_two_messages :
    ¬Always (step ⟨3,3⟩) JobsAttended start
      [.queueMessageToVerify ⟨100⟩,.queueMessageToVerify ⟨80⟩,.verifierPoll ⟨true,true⟩,
        .verifierEvent ⟨true,true⟩,.verifierEvent ⟨true,true⟩] := by
  decide

/-- A message waits in the queue of a process that nothing is going to wake. -/
def JobStranded (s : State) : Prop := Stranded s.signer.worker ∨ Stranded s.verifier.worker

/-- When a pause ends, the queue is empty or something is still pending. -/
def PausesHeard (env : Env) (s : State) (op : Op) : Prop :=
  (∀ o∈signerOp env s op, HeardAfterPause s.signer.worker o) ∧
    ∀ o∈verifierOp env s op, HeardAfterPause s.verifier.worker o

/-- No message is ever stranded exactly if every pause ends with an empty
queue or with something pending. -/
theorem not_jobStranded_always_iff (env : Env) (ops : List Op) :
    Always (step env) (fun s => ¬JobStranded s) start ops ↔
      Along (step env) (PausesHeard env) start ops := by
  refine always_iff_along (I:=WellPaused) (A:=fun _ _ => True) (fun _ op h _ => h.step env op)
    (fun s op hw h _ => ?_) wellPaused_start
    (not_or.mpr ⟨fun hs => hs.1 rfl,fun hs => hs.1 rfl⟩) (along_of_forall fun _ _ => trivial)
  rw [JobStranded,step_signer,step_verifier,not_or]
  rw [JobStranded,not_or] at h
  exact and_congr
    (after_iff (P:=fun w => ¬Stranded w) h.1 (not_stranded_step_iff hw.1 h.1) _)
    (after_iff (P:=fun w => ¬Stranded w) h.2 (not_stranded_step_iff hw.2 h.2) _)

end Attention

end TrustAlloc.CryptoWorkers
