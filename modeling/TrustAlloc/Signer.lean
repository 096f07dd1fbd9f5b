import TrustAlloc.Verifier

/-!
# The signer process on the nRF52840

Requesters queue messages with room for a signature behind them; the signer
takes them one at a time, waits for the crypto processor, runs `ecc_sign` on
one static state, narrows its result to the byte of the entry and posts the
entry back. A byte that says success is right in all runs whose posted jobs
tell the truth, and in no others.
-/

namespace TrustAlloc.Signer

open Certificates NrfCrypto Pools RequestServer Runs

variable {m : ℕ} {Data : Type}

/-- The arguments of `queue_message_to_sign`. The buffer is cut behind the
message, whose length no requester takes longer than its buffer. -/
structure Request (Data : Type) where
  /-- Process to notify and user supplied data. -/
  data : Data
  /-- The first `message_len` bytes of the buffer. -/
  message : List UInt8
  /-- The bytes of the buffer behind them. -/
  room : List UInt8

/-- `messages_to_sign_entry_t`. -/
structure MessagesToSignEntry (Data : Type) extends Request Data where
  /-- The result as the requester sees it. -/
  result : UInt8

/-- The signer, on one static state of which `result` is read. -/
def signer (A : Allocator m) (err : ErrorCodes) :
    Server m (MessagesToSignEntry Data) (Request Data) UInt32 SignCodes
      (Option EcdsaSignCall) where
  allocator := A
  fill request entry := ⟨request,entry.result⟩
  untouched := none
  start entry := (eccSignStart err entry.room).map fun result =>
    ⟨{entry with result := result.toUInt8},result,none⟩
  job codes _ entry :=
    let run := eccSign err codes entry.message entry.room
    ⟨{entry with room := run.room,result := run.result.toUInt8},run.result,run.call⟩

/-- The static data of the signer and what its entries are up to. -/
abbrev State (m : ℕ) (Data : Type) :=
  RequestServer.State m (MessagesToSignEntry Data) UInt32 (Option EcdsaSignCall)

/-- What can happen next, in any order. -/
abbrev Op (Data : Type) (m : ℕ) := RequestServer.Op (Request Data) SignCodes m

/-- Zero-initialised static data; the unused blocks hold the given data. -/
def start (m : ℕ) (data : Data) : State m Data :=
  RequestServer.start m ⟨⟨data,[],[]⟩,0⟩ 0 none

/-- A requester that reads a success has a message that was signed, with its
signature behind it. -/
def SuccessSound (entry : MessagesToSignEntry Data) (call : Option EcdsaSignCall) : Prop :=
  platformCryptoSuccess entry.result.toUInt32=true → SignedBy entry.message entry.room call

/-- Soundness of a success is decided by the entry and the call. -/
instance decidableSuccessSound (entry : MessagesToSignEntry Data) (call : Option EcdsaSignCall) :
    Decidable (SuccessSound entry call) :=
  inferInstanceAs (Decidable (_ → _))

/-- A job whose event is posted tells the truth. -/
def JobTold (err : ErrorCodes) (s : State m Data) : Op Data m → Prop
  | .run codes true => s.item≠none → SignatureTold err codes
  | _ => True

/-- The condition is decided by the codes. -/
instance decidableJobTold (err : ErrorCodes) (s : State m Data) :
    ∀ op, Decidable (JobTold err s op)
  | .run _ true => inferInstanceAs (Decidable (_ → _))
  | .run _ false | .enqueue _ | .dequeue _ | .done _ => .isTrue trivial

/-- A job that ends for lack of room does not say success. -/
theorem successSound_of_start (A : Allocator m) (err : ErrorCodes)
    (entry : MessagesToSignEntry Data) (outcome : Outcome (MessagesToSignEntry Data) UInt32
      (Option EcdsaSignCall)) (h : (signer A err).start entry=some outcome) :
    SuccessSound outcome.entry outcome.record := by
  obtain ⟨result,hresult,rfl⟩ := Option.map_eq_some_iff.mp h
  unfold eccSignStart at hresult
  split at hresult
  · cases hresult
    intro hsuccess
    exact absurd ((platformCryptoSuccess_toUInt32_iff _).mp hsuccess) err.invalidParam_ne
  · cases hresult

/-- A job with the processor establishes that a success is sound exactly when
it tells the truth. -/
theorem jobSound_iff (A : Allocator m) (err : ByteErrorCodes) (s : State m Data)
    (op : Op Data m) :
    JobSound (signer A err.toErrorCodes) SuccessSound s op ↔ JobTold err.toErrorCodes s op := by
  cases op with
  | run codes post =>
    cases post with
    | false => exact Iff.rfl
    | true =>
      cases hitem : s.item with
      | none => simp [JobSound,JobTold,hitem]
      | some i =>
        simp only [JobSound,JobTold,hitem,Option.mem_def,Option.some.injEq,forall_eq',ne_eq,
          reduceCtorEq,not_false_eq_true,forall_const,SuccessSound,
          platformCryptoSuccess_toUInt32_iff]
        exact eccSign_sound_iff err codes _ _
  | enqueue _ | dequeue _ | done _ => exact Iff.rfl

/-- The signature is written within the buffer: a job that has waited for the
processor keeps its length. -/
theorem length_room_of_job {A : Allocator m} {err : ErrorCodes} {s : State m Data}
    (h : RequestServer.Inv (signer A err) s) {i : Fin m} (hi : i∈s.item) (codes : SignCodes) :
    ((signer A err).job codes s.scratch (s.memb.mem i)).entry.room.length=
      (s.memb.mem i).room.length := by
  have hroom : ¬(s.memb.mem i).room.length<dtlsEcSigSize := by
    have hwaits := Option.map_eq_none_iff.mp (h.waits i hi)
    unfold eccSignStart at hwaits
    split at hwaits
    · cases hwaits
    · assumption
  change (eccSign err codes (s.memb.mem i).message (s.memb.mem i).room).room.length=_
  rcases eccSign_room_cases err codes (s.memb.mem i).message (s.memb.mem i).room with hr | hr
  · rw [hr]
  · rw [hr,List.length_append,Signature.bytes_length,List.length_drop]
    exact Nat.add_sub_cancel' (not_lt.mp hroom)

/-- **Signatures over a whole run.** For all requests and all return codes of
the vendor's calls, every requester that reads a success has its own message
signed, in every reachable state, exactly when every posted job tells the truth. -/
theorem successSound_always_iff (A : Allocator m) (err : ByteErrorCodes) (data : Data)
    (ops : List (Op Data m))
    (hops : Along (step (signer A err.toErrorCodes)) Admitted (start m data) ops) :
    Always (step (signer A err.toErrorCodes)) (Sound SuccessSound) (start m data) ops ↔
      Along (step (signer A err.toErrorCodes)) (JobTold err.toErrorCodes) (start m data) ops :=
  always_iff_along (I:=RequestServer.Inv (signer A err.toErrorCodes))
    (fun _ _ hI hA => hI.step hA)
    (fun s op hI hP hA => (sound_step_iff (successSound_of_start A err.toErrorCodes) hI hP hA).trans
      (jobSound_iff A err s op))
    (inv_start _ _ _ _) (sound_start _ _ _ _) hops

/-- Error codes as in the vendor's header, neither of which is zero in one byte. -/
def sampleErrors : ByteErrorCodes := ⟨Verifier.sampleErrors,by decide⟩

/-- A message of three bytes with room for a signature. -/
def sampleRequest : Request Unit := ⟨(),[1,2,3],.replicate 64 0⟩

/-- Codes of a run in which every call succeeds. -/
def allSucceed : SignCodes := ⟨⟨0,0,0,32⟩,0,0,⟨.replicate 32 5,.replicate 32 6⟩,64⟩

/-- A message is signed, and the signing of another one fails with the code 5. -/
theorem successSound_always_iff_sample :
    Always (step (signer (firstFit 3) sampleErrors.toErrorCodes)) (Sound SuccessSound)
      (start 3 ()) [.enqueue sampleRequest,.dequeue true,.run allSucceed true,
        .enqueue sampleRequest,.dequeue true,.run {allSucceed with ecdsaSign := 5} true,.done 0] :=
  (successSound_always_iff (firstFit 3) sampleErrors ()
    [.enqueue sampleRequest,.dequeue true,.run allSucceed true,
      .enqueue sampleRequest,.dequeue true,.run {allSucceed with ecdsaSign := 5} true,.done 0]
    (by decide)).mpr (by decide)

/-- The hash fails with the code 256, and what is signed is the digest that was
never filled. -/
theorem not_successSound_of_hash_failure :
    Along (step (signer (firstFit 3) sampleErrors.toErrorCodes)) Admitted (start 3 ())
        [.enqueue sampleRequest,.dequeue true,
          .run {allSucceed with hash := ⟨256,0,0,32⟩} true] ∧
      ¬Always (step (signer (firstFit 3) sampleErrors.toErrorCodes)) (Sound SuccessSound)
        (start 3 ()) [.enqueue sampleRequest,.dequeue true,
          .run {allSucceed with hash := ⟨256,0,0,32⟩} true] := by
  decide

end TrustAlloc.Signer
