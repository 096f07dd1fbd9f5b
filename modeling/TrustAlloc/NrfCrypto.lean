import Mathlib.Data.UInt
import TrustAlloc.Certificates

/-!
# The asymmetric crypto of the nRF52840 target

`platform-crypto-support.c` calls a vendor library whose calls may each return
any 32-bit code. A run of a function is described by the codes that its calls
return; the function decides which calls are made and what is left in the
state of the caller. Only a zero code means success.
-/

namespace TrustAlloc.NrfCrypto

open Certificates

/-- The vendor's error codes that the platform layer returns by itself. -/
structure ErrorCodes where
  /-- `NRF_ERROR_INVALID_PARAM`. -/
  invalidParam : UInt32
  /-- `NRF_ERROR_INVALID_LENGTH`. -/
  invalidLength : UInt32
  /-- An invalid parameter is not a success, also in one byte. -/
  invalidParam_ne : invalidParam.toUInt8≠0
  /-- An invalid length is not a success. -/
  invalidLength_ne : invalidLength≠0

/-- `NRF_SUCCESS`. -/
def nrfSuccess : UInt32 := 0

/-- `platform_crypto_success`. -/
def platformCryptoSuccess (ret : UInt32) : Bool := decide (ret=nrfSuccess)

/-- What the hash calls return, and the digest length they report. -/
structure HashCodes where
  /-- Code of `nrf_crypto_hash_init`. -/
  init : UInt32
  /-- Code of `nrf_crypto_hash_update`. -/
  update : UInt32
  /-- Code of `nrf_crypto_hash_finalize`. -/
  finalize : UInt32
  /-- Length that `nrf_crypto_hash_finalize` stores. -/
  digestLength : ℕ
  deriving DecidableEq

/-- `SHA256_DIGEST_LEN_BYTES`. -/
def sha256DigestLenBytes : ℕ := 32

/-- `sha256_hash`: the code that it returns. -/
def sha256Hash (err : ErrorCodes) (codes : HashCodes) : UInt32 :=
  if codes.init≠nrfSuccess then codes.init
  else if codes.update≠nrfSuccess then codes.update
  else if codes.finalize≠nrfSuccess then codes.finalize
  else if codes.digestLength≠sha256DigestLenBytes then err.invalidLength
  else codes.finalize

/-- Hashing succeeds exactly when all three calls do and the length is right. -/
theorem sha256Hash_eq_success_iff (err : ErrorCodes) (codes : HashCodes) :
    sha256Hash err codes=nrfSuccess ↔ codes.init=nrfSuccess ∧ codes.update=nrfSuccess ∧
      codes.finalize=nrfSuccess ∧ codes.digestLength=sha256DigestLenBytes := by
  have hlen : err.invalidLength≠nrfSuccess := err.invalidLength_ne
  unfold sha256Hash
  split
  · next h => exact iff_of_false h fun hc => h hc.1
  · next h =>
    split
    · next hu => exact iff_of_false hu fun hc => hu hc.2.1
    · next hu =>
      split
      · next hf => exact iff_of_false hf fun hc => hf hc.2.2.1
      · next hf =>
        split
        · next hd => exact iff_of_false hlen fun hc => hd hc.2.2.2
        · next hd =>
          exact iff_of_true (not_not.mp hf)
            ⟨not_not.mp h,not_not.mp hu,not_not.mp hf,not_not.mp hd⟩

/-- One call of `nrf_crypto_ecdsa_verify`. -/
structure EcdsaVerifyCall where
  /-- Key imported from the raw public key. -/
  pubkey : PublicKey
  /-- Bytes whose digest is passed. -/
  message : List UInt8
  /-- Signature that is passed. -/
  signature : List UInt8
  /-- Code that the call returns. -/
  code : UInt32
  deriving DecidableEq

/-- What the vendor's calls in one run of `ecc_verify` return. -/
structure VerifyCodes where
  /-- Codes of the hash calls. -/
  hash : HashCodes
  /-- Code of `nrf_crypto_ecc_public_key_from_raw`. -/
  publicKeyFromRaw : UInt32
  /-- Code of `nrf_crypto_ecdsa_verify`. -/
  ecdsaVerify : UInt32
  deriving DecidableEq

/-- `ecc_verify` before it waits for the crypto processor: the result with
which it exits when there is no room for a signature. -/
def eccVerifyStart (err : ErrorCodes) (buffer : List UInt8) : Option UInt32 :=
  if buffer.length<dtlsEcSigSize then some err.invalidParam else none

/-- `ecc_verify` once it has the crypto processor: the result that is left in
the state, which held `result` before, and the verification call if any. -/
def eccVerify (err : ErrorCodes) (codes : VerifyCodes) (result : UInt32) (pubkey : PublicKey)
    (buffer : List UInt8) : UInt32 × Option EcdsaVerifyCall :=
  -- a failed hash leaves the result of the state as it was
  if sha256Hash err codes.hash≠nrfSuccess then (result,none)
  else if codes.publicKeyFromRaw≠nrfSuccess then (codes.publicKeyFromRaw,none)
  else (codes.ecdsaVerify,some {
    pubkey := pubkey
    message := buffer.take (buffer.length-dtlsEcSigSize)
    signature := buffer.drop (buffer.length-dtlsEcSigSize)
    code := codes.ecdsaVerify})

/-- The call was made for the given key and signed message, and succeeded. -/
def VerifiedBy (pubkey : PublicKey) (buffer : List UInt8) : Option EcdsaVerifyCall → Prop
  | none => False
  | some c => c.pubkey=pubkey ∧ c.message++c.signature=buffer ∧
      c.signature.length=dtlsEcSigSize ∧ c.code=nrfSuccess

/-- Being verified by a call is decided by the call. -/
instance decidableVerifiedBy (pubkey : PublicKey) (buffer : List UInt8) :
    ∀ call, Decidable (VerifiedBy pubkey buffer call)
  | none => .isFalse id
  | some _ => inferInstanceAs (Decidable (_ ∧ _ ∧ _ ∧ _))

/-- The run is one in which the result byte tells the verdict: a hash failure
meets a failed previous result, and no failure code of the key import or of
the verification is a multiple of 256. -/
def VerdictTold (err : ErrorCodes) (codes : VerifyCodes) (result : UInt32) : Prop :=
  if sha256Hash err codes.hash≠nrfSuccess then result.toUInt8≠0
  else if codes.publicKeyFromRaw≠nrfSuccess then codes.publicKeyFromRaw.toUInt8≠0
  else codes.ecdsaVerify.toUInt8=0 → codes.ecdsaVerify=nrfSuccess

/-- Telling the verdict is decided by the codes and the previous result. -/
instance decidableVerdictTold (err : ErrorCodes) (codes : VerifyCodes) (result : UInt32) :
    Decidable (VerdictTold err codes result) :=
  inferInstanceAs (Decidable (ite _ _ _))

/-- A byte is a success for the platform exactly when it is zero. -/
theorem platformCryptoSuccess_toUInt32_iff (b : UInt8) :
    platformCryptoSuccess b.toUInt32=true ↔ b=0 := by
  rw [platformCryptoSuccess,decide_eq_true_eq,nrfSuccess]
  exact ⟨fun h => by simpa using congrArg UInt32.toUInt8 h,fun h => by rw [h]; rfl⟩

/-- Zero stays zero in one byte. -/
theorem toUInt8_of_success {code : UInt32} (h : code=nrfSuccess) : code.toUInt8=0 := by
  rw [h]
  rfl

/-- The narrowed result says that the call verified the message exactly when
the run tells its verdict. -/
theorem eccVerify_verdict_iff (err : ErrorCodes) (codes : VerifyCodes) (result : UInt32)
    (pubkey : PublicKey) {buffer : List UInt8} (hlen : ¬buffer.length<dtlsEcSigSize) :
    (((eccVerify err codes result pubkey buffer).1.toUInt8=0 ↔
        VerifiedBy pubkey buffer (eccVerify err codes result pubkey buffer).2) ↔
      VerdictTold err codes result) := by
  unfold eccVerify VerdictTold
  split
  · simp only [VerifiedBy,iff_false,ne_eq]
  · split
    · simp only [VerifiedBy,iff_false,ne_eq]
    · have hsig : (buffer.drop (buffer.length-dtlsEcSigSize)).length=dtlsEcSigSize := by
        rw [List.length_drop]
        omega
      simp only [VerifiedBy,List.take_append_drop,hsig,true_and]
      exact ⟨fun h => h.mp,fun h => ⟨h,toUInt8_of_success⟩⟩

section Signing

/-- The error codes, when both are no success in one byte either. -/
structure ByteErrorCodes extends ErrorCodes where
  /-- An invalid length is not a success in one byte. -/
  invalidLength_byte : invalidLength.toUInt8≠0

/-- One call of `nrf_crypto_ecdsa_sign`. -/
structure EcdsaSignCall where
  /-- Bytes whose digest is passed; none if the digest was never filled. -/
  digestOf : Option (List UInt8)
  /-- Signature that is left in the state. -/
  signature : Signature
  /-- Code that the call returns. -/
  code : UInt32
  deriving DecidableEq

/-- What the vendor's calls in one run of `ecc_sign` return and leave. -/
structure SignCodes where
  /-- Codes of the hash calls. -/
  hash : HashCodes
  /-- Code of `nrf_crypto_ecc_private_key_from_raw`. -/
  privateKeyFromRaw : UInt32
  /-- Code of `nrf_crypto_ecdsa_sign`. -/
  ecdsaSign : UInt32
  /-- Signature that `nrf_crypto_ecdsa_sign` leaves. -/
  signature : Signature
  /-- Length that `nrf_crypto_ecdsa_sign` stores. -/
  signatureLength : ℕ
  deriving DecidableEq

/-- `ecc_sign` before it waits for the crypto processor: the result with which
it exits when there is no room for a signature behind the message. -/
def eccSignStart (err : ErrorCodes) (room : List UInt8) : Option UInt32 :=
  if room.length<dtlsEcSigSize then some err.invalidParam else none

/-- What a run of `ecc_sign` leaves. -/
structure SignRun where
  /-- The result in the state. -/
  result : UInt32
  /-- The buffer behind the message. -/
  room : List UInt8
  /-- The signing call, if any. -/
  call : Option EcdsaSignCall
  deriving DecidableEq

/-- `ecc_sign` once it has the crypto processor, on a message and the rest of
its buffer. -/
def eccSign (err : ErrorCodes) (codes : SignCodes) (message room : List UInt8) : SignRun :=
  -- `uint8_t sha256_ret`
  let sha256Ret := (sha256Hash err codes.hash).toUInt8
  if sha256Ret≠0 then ⟨sha256Ret.toUInt32,room,none⟩
  else if codes.privateKeyFromRaw≠nrfSuccess then ⟨codes.privateKeyFromRaw,room,none⟩
  else
    let digestOf := if sha256Hash err codes.hash=nrfSuccess then some message else none
    let call : EcdsaSignCall := ⟨digestOf,codes.signature,codes.ecdsaSign⟩
    if codes.ecdsaSign≠nrfSuccess then ⟨codes.ecdsaSign,room,some call⟩
    else if codes.signatureLength≠dtlsEcSigSize then ⟨err.invalidLength,room,some call⟩
    else ⟨codes.ecdsaSign,codes.signature.bytes++room.drop dtlsEcSigSize,some call⟩

/-- A run leaves what is behind the message as it was, or begins it with the signature. -/
theorem eccSign_room_cases (err : ErrorCodes) (codes : SignCodes) (message room : List UInt8) :
    (eccSign err codes message room).room=room ∨ (eccSign err codes message room).room=
      codes.signature.bytes++room.drop dtlsEcSigSize := by
  unfold eccSign
  dsimp only
  split
  · exact Or.inl rfl
  · split
    · exact Or.inl rfl
    · split
      · exact Or.inl rfl
      · split
        · exact Or.inl rfl
        · exact Or.inr rfl

/-- The call signed the digest of the message, and its signature stands behind
the message. -/
def SignedBy (message room : List UInt8) : Option EcdsaSignCall → Prop
  | none => False
  | some c => c.digestOf=some message ∧ c.code=nrfSuccess ∧
      room.take dtlsEcSigSize=c.signature.bytes

/-- Being signed by a call is decided by the call. -/
instance decidableSignedBy (message room : List UInt8) :
    ∀ call, Decidable (SignedBy message room call)
  | none => .isFalse id
  | some _ => inferInstanceAs (Decidable (_ ∧ _ ∧ _))

/-- The run is one in which a zero byte tells the truth: no failure code of the
key import or of the signing is a multiple of 256, and neither is that of the
hash, unless a later failure is reported. -/
def SignatureTold (err : ErrorCodes) (codes : SignCodes) : Prop :=
  if (sha256Hash err codes.hash).toUInt8≠0 then True
  else if codes.privateKeyFromRaw≠nrfSuccess then codes.privateKeyFromRaw.toUInt8≠0
  else if codes.ecdsaSign≠nrfSuccess then codes.ecdsaSign.toUInt8≠0
  else codes.signatureLength=dtlsEcSigSize → sha256Hash err codes.hash=nrfSuccess

/-- Telling the truth is decided by the codes. -/
instance decidableSignatureTold (err : ErrorCodes) (codes : SignCodes) :
    Decidable (SignatureTold err codes) :=
  inferInstanceAs (Decidable (ite _ _ _))

/-- A zero byte says that the message is signed exactly when the run tells the truth. -/
theorem eccSign_sound_iff (err : ByteErrorCodes) (codes : SignCodes)
    (message room : List UInt8) :
    ((eccSign err.toErrorCodes codes message room).result.toUInt8=0 →
        SignedBy message (eccSign err.toErrorCodes codes message room).room
          (eccSign err.toErrorCodes codes message room).call) ↔
      SignatureTold err.toErrorCodes codes := by
  unfold eccSign SignatureTold
  dsimp only
  split
  · next hhash =>
    refine iff_of_true (fun hzero => absurd ?_ hhash) trivial
    rwa [UInt8.toUInt8_toUInt32] at hzero
  · split
    · exact Iff.rfl
    · split
      · next hsign =>
        refine imp_congr_right fun _ => iff_false_intro fun h => hsign h.2.1
      · next hsign =>
        have hsign := not_not.mp hsign
        split
        · next hlength =>
          exact iff_of_true (fun hzero => absurd hzero err.invalidLength_byte)
            fun h => absurd h hlength
        · next hlength =>
          have htake : (codes.signature.bytes++room.drop dtlsEcSigSize).take dtlsEcSigSize=
              codes.signature.bytes := List.take_left' codes.signature.bytes_length
          simp only [SignedBy,hsign,htake,toUInt8_of_success,not_not.mp hlength,and_true,
            forall_const]
          split
          · next hhash => exact iff_of_true rfl hhash
          · next hhash => exact iff_of_false nofun hhash

end Signing

end TrustAlloc.NrfCrypto
