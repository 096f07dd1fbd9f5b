import TrustAlloc.NrfCrypto
import TrustAlloc.RequestServer

/-!
# The verifier process on the nRF52840

Requesters queue messages; the verifier takes them one at a time, waits for
the crypto processor, runs `ecc_verify` on one static state, narrows its
result to the byte of the entry and posts the entry back. A requester reads
the byte when the event reaches it and then frees the entry. The byte tells
whether the signature was verified in all runs whose jobs tell their verdict,
and in no others.
-/

namespace TrustAlloc.Verifier

open Certificates NrfCrypto Pools Runs

/-- `messages_to_verify_entry_t`; the data is what identifies the requester. -/
structure MessagesToVerifyEntry (Data : Type) where
  /-- Process to notify and user supplied data. -/
  data : Data
  /-- Message with its signature at the end. -/
  message : List UInt8
  /-- Key to verify under. -/
  pubkey : PublicKey
  /-- The result as the requester sees it. -/
  result : UInt8

/-- The static data of the verifier and what its entries are up to. -/
structure State (m : ℕ) (Data : Type) where
  /-- `messages_to_verify_memb`. -/
  memb : Memb m (MessagesToVerifyEntry Data)
  /-- `messages_to_verify`: entries that wait for the verifier. -/
  messagesToVerify : List (Fin m)
  /-- `vitem`, as long as its verification waits for the crypto processor. -/
  vitem : Option (Fin m)
  /-- `verify_state.result`. -/
  result : UInt32
  /-- Entries whose `pe_message_verified` was posted and that are not freed. -/
  posted : List (Fin m)
  /-- Entries whose event could not be posted; they are never freed. -/
  lost : List (Fin m)
  /-- The verification call made for the entry in a block; a history value. -/
  call : Fin m → Option EcdsaVerifyCall

variable {m : ℕ} {Data : Type}

/-- `queue_message_to_verify`: nothing happens when the pool is full. -/
def queueMessageToVerify (A : Allocator m) (s : State m Data) (data : Data)
    (message : List UInt8) (pubkey : PublicKey) : State m Data :=
  match A.pick s.memb.used with
  | none => s
  | some i => {s with
      memb := (s.memb.take i).set i ⟨data,message,pubkey,(s.memb.mem i).result⟩
      messagesToVerify := s.messagesToVerify++[i]
      call := Function.update s.call i none}

/-- `queue_message_to_verify_done`. -/
def queueMessageToVerifyDone (s : State m Data) (i : Fin m) : State m Data :=
  {s with memb := s.memb.free i,posted := s.posted.erase i}

/-- The verifier after `ecc_verify` has ended: store the result, which the
entry keeps in one byte, and try to post the event. -/
def finish (s : State m Data) (i : Fin m) (run : UInt32 × Option EcdsaVerifyCall)
    (post : Bool) : State m Data :=
  {s with
    memb := s.memb.set i {s.memb.mem i with result := run.1.toUInt8}
    vitem := none
    result := run.1
    posted := if post=true then s.posted++[i] else s.posted
    lost := if post=true then s.lost else s.lost++[i]
    call := Function.update s.call i run.2}

/-- The verifier takes the next entry, up to the wait for the processor. -/
def dequeue (err : ErrorCodes) (s : State m Data) (post : Bool) : State m Data :=
  match s.vitem,s.messagesToVerify with
  | none,i::rest =>
    match eccVerifyStart err (s.memb.mem i).message with
    | some result => finish {s with messagesToVerify := rest} i (result,none) post
    | none => {s with messagesToVerify := rest,vitem := some i}
  | _,_ => s

/-- The processor becomes available to the entry that waits for it. -/
def verify (err : ErrorCodes) (s : State m Data) (codes : VerifyCodes) (post : Bool) :
    State m Data :=
  match s.vitem with
  | none => s
  | some i =>
    finish s i (eccVerify err codes s.result (s.memb.mem i).pubkey (s.memb.mem i).message) post

/-- What can happen next, in any order. -/
inductive Op (Data : Type) (m : ℕ) where
  /-- A requester queues a message. -/
  | queue (data : Data) (message : List UInt8) (pubkey : PublicKey)
  /-- The verifier runs while entries wait. -/
  | dequeue (post : Bool)
  /-- The processor is available and the vendor's calls return these codes. -/
  | verify (codes : VerifyCodes) (post : Bool)
  /-- A requester is done with a posted entry. -/
  | done (item : Fin m)

/-- One step of the verifier or of a requester. -/
def step (A : Allocator m) (err : ErrorCodes) (s : State m Data) : Op Data m → State m Data
  | .queue data message pubkey => queueMessageToVerify A s data message pubkey
  | .dequeue post => dequeue err s post
  | .verify codes post => verify err s codes post
  | .done item => queueMessageToVerifyDone s item

/-- Only an entry that was posted is ever given back. -/
def Admitted (s : State m Data) : Op Data m → Prop
  | .done item => item∈s.posted
  | _ => True

/-- Admission is decided by the list of posted entries. -/
instance decidableAdmitted (s : State m Data) : ∀ op, Decidable (Admitted s op)
  | .done item => inferInstanceAs (Decidable (item∈s.posted))
  | .queue _ _ _ | .dequeue _ | .verify _ _ => .isTrue trivial

/-- Zero-initialised static data; the unused blocks hold the given data. -/
def start (m : ℕ) (data : Data) : State m Data where
  memb := ⟨fun _ => false,fun _ => ⟨data,[],⟨.replicate 32 0,.replicate 32 0⟩,0⟩⟩
  messagesToVerify := []
  vitem := none
  result := 0
  posted := []
  lost := []
  call := fun _ => none

/-- What the requester of an entry reads is whether its message was verified. -/
def VerdictSound (s : State m Data) (i : Fin m) : Prop :=
  platformCryptoSuccess (s.memb.mem i).result.toUInt32=true ↔
    VerifiedBy (s.memb.mem i).pubkey (s.memb.mem i).message (s.call i)

/-- All events that are under way, or were delivered, carry sound verdicts. -/
def VerdictsSound (s : State m Data) : Prop := ∀ i∈s.posted, VerdictSound s i

/-- Soundness of all verdicts is decided by the posted entries. -/
instance decidableVerdictsSound (s : State m Data) : Decidable (VerdictsSound s) :=
  inferInstanceAs (Decidable (∀ i∈s.posted, _ ↔ _))

/-- A job whose event is posted tells its verdict. -/
def JobTold (err : ErrorCodes) (s : State m Data) : Op Data m → Prop
  | .verify codes true => s.vitem≠none → VerdictTold err codes s.result
  | _ => True

/-- The condition is decided by the codes and the result before the job. -/
instance decidableJobTold (err : ErrorCodes) (s : State m Data) :
    ∀ op, Decidable (JobTold err s op)
  | .verify _ true => inferInstanceAs (Decidable (_ → _))
  | .verify _ false | .queue _ _ _ | .dequeue _ | .done _ => .isTrue trivial

/-- The used blocks are those of the entries that wait, that are being
verified, or that are with their requesters; messages under verification have
room for a signature. -/
structure Inv (s : State m Data) : Prop where
  /-- Every used block has exactly one place. -/
  owns : Owns s.memb.used (s.vitem.toList++s.messagesToVerify++(s.posted++s.lost))
  /-- A message that waits for the processor is long enough. -/
  long : ∀ i∈s.vitem, ¬(s.memb.mem i).message.length<dtlsEcSigSize

section Server

variable {A : Allocator m} {err : ErrorCodes} {s : State m Data}

/-- The verifier as a server whose requests are the arguments of
`queue_message_to_verify`. -/
def verifier (A : Allocator m) (err : ErrorCodes) :
    RequestServer.Server m (MessagesToVerifyEntry Data) (Data×List UInt8×PublicKey) UInt32
      VerifyCodes (Option EcdsaVerifyCall) where
  allocator := A
  fill request entry := ⟨request.1,request.2.1,request.2.2,entry.result⟩
  untouched := none
  start entry := (eccVerifyStart err entry.message).map fun result =>
    ⟨{entry with result := result.toUInt8},result,none⟩
  job codes result entry :=
    let run := eccVerify err codes result entry.pubkey entry.message
    ⟨{entry with result := run.1.toUInt8},run.1,run.2⟩

/-- The data of the verifier as those of a server. -/
def State.server (s : State m Data) :
    RequestServer.State m (MessagesToVerifyEntry Data) UInt32 (Option EcdsaVerifyCall) where
  memb := s.memb
  queue := s.messagesToVerify
  item := s.vitem
  scratch := s.result
  posted := s.posted
  lost := s.lost
  record := s.call

/-- A step of the verifier as one of a server. -/
def Op.server : Op Data m → RequestServer.Op (Data×List UInt8×PublicKey) VerifyCodes m
  | .queue data message pubkey => .enqueue (data,message,pubkey)
  | .dequeue post => .dequeue post
  | .verify codes post => .run codes post
  | .done item => .done item

/-- Taking an entry does nothing, or ends the job of a short message at once,
or leaves a long one waiting for the processor. -/
theorem dequeue_cases (err : ErrorCodes) (s : State m Data) (post : Bool) :
    dequeue err s post=s ∨
      ∃ i rest, s.vitem=none ∧ s.messagesToVerify=i::rest ∧
        (dequeue err s post=finish {s with messagesToVerify := rest} i
            (err.invalidParam,none) post ∨
          (¬(s.memb.mem i).message.length<dtlsEcSigSize ∧
            dequeue err s post={s with messagesToVerify := rest,vitem := some i})) := by
  unfold dequeue
  split
  · next i rest hv hq =>
    refine Or.inr ⟨i,rest,hv,hq,?_⟩
    unfold eccVerifyStart
    split_ifs with hlen
    · exact Or.inl rfl
    · exact Or.inr ⟨hlen,rfl⟩
  · exact Or.inl rfl

/-- Every step of the verifier is the step of the server. -/
theorem server_step (A : Allocator m) (err : ErrorCodes) (s : State m Data) (op : Op Data m) :
    (step A err s op).server=RequestServer.step (verifier A err) s.server op.server := by
  cases op with
  | queue data message pubkey =>
    simp only [step,queueMessageToVerify,Op.server,RequestServer.step,RequestServer.enqueue,
      State.server,verifier]
    cases A.pick s.memb.used <;> rfl
  | dequeue post =>
    obtain ⟨memb,messagesToVerify,vitem,result,posted,lost,call⟩ := s
    cases vitem with
    | some i => rfl
    | none =>
      cases messagesToVerify with
      | nil => rfl
      | cons i rest =>
        simp only [step,dequeue,Op.server,RequestServer.step,RequestServer.dequeue,State.server,
          verifier]
        cases eccVerifyStart err (memb.mem i).message <;> rfl
  | verify codes post =>
    obtain ⟨memb,messagesToVerify,vitem,result,posted,lost,call⟩ := s
    cases vitem <;> rfl
  | done item => rfl

/-- The invariant is that of the server. -/
theorem inv_iff (A : Allocator m) (err : ErrorCodes) (s : State m Data) :
    Inv s ↔ RequestServer.Inv (verifier A err) s.server := by
  have hlong : ∀ i, (verifier A err).start (s.memb.mem i)=none ↔
      ¬(s.memb.mem i).message.length<dtlsEcSigSize := by
    intro i
    simp [verifier,eccVerifyStart]
  exact ⟨fun h => ⟨h.owns,fun i hi => (hlong i).mpr (h.long i hi)⟩,
    fun h => ⟨h.owns,fun i hi => (hlong i).mp (h.waits i hi)⟩⟩

/-- The server admits the same steps. -/
theorem admitted_server {op : Op Data m} (hop : Admitted s op) :
    RequestServer.Admitted s.server op.server := by
  cases op <;> exact hop

/-- Every admitted step keeps the invariant. -/
theorem Inv.step (h : Inv s) (A : Allocator m) (err : ErrorCodes) {op : Op Data m}
    (hop : Admitted s op) : Inv (step A err s op) := by
  rw [inv_iff A err,server_step]
  exact ((inv_iff A err s).mp h).step (admitted_server hop)

/-- The invariant holds at boot. -/
theorem inv_start (data : Data) : Inv (start m data) :=
  ⟨⟨List.nodup_nil,fun i => by simp [start]⟩,fun _ hj => nomatch hj⟩

/-- `VerdictSound` as a property of an entry and the call made for it. -/
def EntrySound (entry : MessagesToVerifyEntry Data) (call : Option EcdsaVerifyCall) : Prop :=
  platformCryptoSuccess entry.result.toUInt32=true ↔ VerifiedBy entry.pubkey entry.message call

/-- The job of a short message does not say success. -/
theorem entrySound_of_start (A : Allocator m) (err : ErrorCodes)
    (entry : MessagesToVerifyEntry Data) (outcome : RequestServer.Outcome
      (MessagesToVerifyEntry Data) UInt32 (Option EcdsaVerifyCall))
    (h : (verifier A err).start entry=some outcome) :
    EntrySound outcome.entry outcome.record := by
  obtain ⟨result,hresult,rfl⟩ := Option.map_eq_some_iff.mp h
  unfold eccVerifyStart at hresult
  split at hresult
  · cases hresult
    exact iff_of_false
      (fun hsuccess => err.invalidParam_ne ((platformCryptoSuccess_toUInt32_iff _).mp hsuccess)) id
  · cases hresult

/-- A job with the processor establishes a sound verdict exactly when it tells
its verdict. -/
theorem jobSound_iff (h : Inv s) (op : Op Data m) :
    RequestServer.JobSound (verifier A err) EntrySound s.server op.server ↔ JobTold err s op := by
  cases op with
  | verify codes post =>
    cases post with
    | false => exact Iff.rfl
    | true =>
      cases hitem : s.vitem with
      | none => simp [RequestServer.JobSound,JobTold,Op.server,State.server,hitem]
      | some i =>
        have hverdict := eccVerify_verdict_iff err codes s.result (s.memb.mem i).pubkey
          (h.long i hitem)
        simp only [RequestServer.JobSound,JobTold,Op.server,State.server,hitem,Option.mem_def,
          Option.some.injEq,forall_eq',ne_eq,reduceCtorEq,not_false_eq_true,forall_const,
          EntrySound,platformCryptoSuccess_toUInt32_iff]
        exact hverdict
  | queue _ _ _ | dequeue _ | done _ => exact Iff.rfl

/-- One admitted step keeps all verdicts sound exactly when the job that it
posts, if any, tells its verdict. -/
theorem verdictsSound_step_iff (h : Inv s) (hs : VerdictsSound s) {op : Op Data m}
    (hop : Admitted s op) : VerdictsSound (step A err s op) ↔ JobTold err s op := by
  have hsound : RequestServer.Sound EntrySound s.server := hs
  have hstep := RequestServer.sound_step_iff (entrySound_of_start A err)
    ((inv_iff A err s).mp h) hsound (admitted_server hop)
  rw [←server_step] at hstep
  exact hstep.trans (jobSound_iff h op)

end Server

/-- **Verdicts over a whole run.** For all requests and all return codes of
the vendor's calls, every requester reads whether its own message was
verified, in every reachable state, exactly when every posted job tells its
verdict. -/
theorem verdictsSound_always_iff (A : Allocator m) (err : ErrorCodes) (data : Data)
    (ops : List (Op Data m)) (hops : Along (step A err) Admitted (start m data) ops) :
    Always (step A err) VerdictsSound (start m data) ops ↔
      Along (step A err) (JobTold err) (start m data) ops :=
  always_iff_along (fun _ _ hI hA => hI.step A err hA)
    (fun _ _ hI hP hA => verdictsSound_step_iff hI hP hA)
    (inv_start data) (fun _ hj => absurd hj List.not_mem_nil) hops

/-- Error codes as in the vendor's header. -/
def sampleErrors : ErrorCodes := ⟨7,9,by decide,by decide⟩

/-- A message of only a signature. -/
def sampleMessage : List UInt8 := .replicate 64 1

/-- A key of repeated bytes. -/
def sampleKey : PublicKey := ⟨.replicate 32 2,.replicate 32 3⟩

/-- Codes of a run in which every call succeeds. -/
def allSucceed : VerifyCodes := ⟨⟨0,0,0,32⟩,0,0⟩

/-- Codes of a run in which the first hash call fails. -/
def hashFails : VerifyCodes := ⟨⟨3,0,0,32⟩,0,0⟩

/-- A run with a good and then a bad signature tells both verdicts. -/
theorem verdictsSound_always_iff_sample :
    Always (step (firstFit 3) sampleErrors) VerdictsSound (start 3 ())
      [.queue () sampleMessage sampleKey,.dequeue true,.verify allSucceed true,
        .queue () sampleMessage sampleKey,.dequeue true,
        .verify {allSucceed with ecdsaVerify := 5} true,.done 0] :=
  (verdictsSound_always_iff (firstFit 3) sampleErrors ()
    [.queue () sampleMessage sampleKey,.dequeue true,.verify allSucceed true,
      .queue () sampleMessage sampleKey,.dequeue true,
      .verify {allSucceed with ecdsaVerify := 5} true,.done 0] (by decide)).mpr (by decide)

/-- The hash of the very first message fails: the result is still the zero of
static memory, and its requester reads a success. -/
theorem not_verdictsSound_of_hash_failure :
    Along (step (firstFit 3) sampleErrors) Admitted (start 3 ())
        [.queue () sampleMessage sampleKey,.dequeue true,.verify hashFails true] ∧
      ¬Always (step (firstFit 3) sampleErrors) VerdictsSound (start 3 ())
        [.queue () sampleMessage sampleKey,.dequeue true,.verify hashFails true] := by
  decide

end TrustAlloc.Verifier
