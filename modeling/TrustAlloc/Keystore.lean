import TrustAlloc.Certificates
import TrustAlloc.Pools
import TrustAlloc.Runs

/-!
# The keystore and its two lists of certificates

The data and the functions of `keystore.c` up to the hand-over of a
certificate to the asynchronous verifier and back. Items live in one pool and
are pointed to by their block. The pool's allocation policy, the values that
`memb_free` and the CBOR library return, whether unlinking clears an item's
successor and what the platform calls success come from outside the
repository and are parameters.
-/

namespace TrustAlloc.Keystore

open Certificates Pools

/-- What the keystore is built against: certificates, libraries and platform. -/
structure Env (n : ℕ) where
  /-- `root_cert`, whose key certificates are verified under. -/
  rootCert : Certificate
  /-- `our_cert`, the node's own certificate. -/
  ourCert : Certificate
  /-- The CBOR emitter. -/
  nanocbor : Nanocbor
  /-- Policy of `memb_alloc` on `public_keys_memb`. -/
  allocator : Allocator n
  /-- Value of `memb_free` for a block that it does free. -/
  membFreed : ℤ
  /-- Whether `list_remove` clears the successor of the unlinked item. -/
  unlinkClearsNext : Bool
  /-- `platform_crypto_success` on the result field of a queue entry. -/
  platformCryptoSuccess : UInt8 → Bool

/-- `oscore_ctx_t`, by the values `oscore_derive_ctx` is given. -/
structure OscoreContext where
  /-- Secret shared with the peer. -/
  sharedSecret : List UInt8
  /-- Lower bytes of our own identity. -/
  senderId : List UInt8
  /-- Lower bytes of the peer's identity. -/
  receiverId : List UInt8
  deriving DecidableEq

/-- `public_key_item_t` without its list link. -/
structure PublicKeyItem where
  /-- The stored certificate. -/
  cert : Certificate
  /-- Security context; none until one has been derived in this block. -/
  context : Option OscoreContext
  /-- Number of current users of the key. -/
  pinCount : UInt16
  deriving DecidableEq

/-- `messages_to_verify_entry_t` as `keystore_add_start` queues it. The bytes
and the certificate are those at the time of queueing. -/
structure VerifyEntry (n : ℕ) where
  /-- User data: the item under verification. -/
  data : Fin n
  /-- Bytes that the message pointer and length designated. -/
  message : List UInt8
  /-- Key to verify under. -/
  pubkey : PublicKey
  /-- The certificate in the item; a history value no function reads. -/
  cert : Certificate
  deriving DecidableEq

/-- The static data of the keystore, with the entries it has in the verifier. -/
structure Store (n : ℕ) where
  /-- `public_keys_memb`. -/
  memb : Memb n PublicKeyItem
  /-- `public_keys`: the verified items. -/
  publicKeys : List (Fin n)
  /-- `public_keys_to_verify`: the items that wait for verification. -/
  publicKeysToVerify : List (Fin n)
  /-- `add_buffer`: the message under verification. -/
  addBuffer : List UInt8
  /-- `add_buffer_in_use`. -/
  addBufferInUse : Bool
  /-- Entries queued for verification and not handed back yet. -/
  outstanding : List (VerifyEntry n)
  /-- Whether a poll of the keystore process is pending. -/
  polled : Bool

variable {n : ℕ}

/-- The item in a block. -/
abbrev Store.item (k : Store n) (i : Fin n) : PublicKeyItem := k.memb.mem i

/-- Identity that the certificate in a block is about. -/
abbrev Store.subject (k : Store n) (i : Fin n) : Eui64 := (k.item i).cert.subject

/-- Both lists together, which is what owns the pool. -/
def Store.listed (k : Store n) : List (Fin n) := k.publicKeys++k.publicKeysToVerify

/-- `keystore_find_in_list`: the loop starts from the head of `public_keys`
whatever list is passed. -/
def keystoreFindInList (k : Store n) (eui64 : Eui64) (_list : List (Fin n)) :
    Option (Fin n) := k.publicKeys.find? fun i => decide (k.subject i=eui64)

/-- `keystore_find`. -/
def keystoreFind (k : Store n) (eui64 : Eui64) : Option (Fin n) :=
  keystoreFindInList k eui64 k.publicKeys

/-- Change one item in place. -/
def Store.setItem (k : Store n) (i : Fin n) (v : PublicKeyItem) : Store n :=
  {k with memb := k.memb.set i v}

/-- `keystore_pin`. -/
def keystorePin (k : Store n) (i : Fin n) : Store n :=
  k.setItem i {k.item i with pinCount := (k.item i).pinCount+1}

/-- `keystore_unpin`, with its assertion passed. -/
def keystoreUnpin (k : Store n) (i : Fin n) : Store n :=
  k.setItem i {k.item i with pinCount := (k.item i).pinCount-1}

/-- `keystore_is_pinned`. -/
def keystoreIsPinned (k : Store n) (i : Fin n) : Bool := decide (0<(k.item i).pinCount)

/-- Unlink a verified item and free its block. -/
def Store.freeVerified (k : Store n) (i : Fin n) : Store n :=
  {k with publicKeys := k.publicKeys.erase i,memb := k.memb.free i}

/-- Unlink an unverified item and free its block. -/
def Store.freeUnverified (k : Store n) (i : Fin n) : Store n :=
  {k with publicKeysToVerify := k.publicKeysToVerify.erase i,memb := k.memb.free i}

/-- `keystore_remove`: the returned value is that of `memb_free`, as a bool. -/
def keystoreRemove (E : Env n) (k : Store n) (i : Fin n) : Store n × Bool :=
  if keystoreIsPinned k i=true then (k,false)
  else if k.subject i=E.rootCert.subject then (k,false)
  else if i∈k.publicKeys then (k.freeVerified i,decide (E.membFreed≠0))
  else (k,false)

/-- The loop of `keystore_free_up_space` over what is left of `public_keys`. -/
def freeUpSpaceLoop (E : Env n) : List (Fin n) → Store n → Store n × Bool
  | [],k => (k,false)
  | i::rest,k =>
    if k.subject i=E.rootCert.subject then freeUpSpaceLoop E rest k
    else if keystoreIsPinned k i=true then freeUpSpaceLoop E rest k
    else if (keystoreRemove E k i).2=true then ((keystoreRemove E k i).1,true)
    -- the loop reads the successor of an item that has just been unlinked
    else if E.unlinkClearsNext=true then ((keystoreRemove E k i).1,false)
    else freeUpSpaceLoop E rest (keystoreRemove E k i).1

/-- `keystore_free_up_space`. -/
def keystoreFreeUpSpace (E : Env n) (k : Store n) : Store n × Bool :=
  freeUpSpaceLoop E k.publicKeys k

/-- The end of `keystore_add`: fill a free block and queue it. The security
context that the block held before is not touched. -/
def Store.enqueue (k : Store n) (i : Fin n) (cert : Certificate) : Store n :=
  {k with
    memb := (k.memb.take i).set i {k.item i with cert := cert,pinCount := 0}
    publicKeysToVerify := listAdd k.publicKeysToVerify i
    polled := true}

/-- `keystore_add`. -/
def keystoreAdd (E : Env n) (k : Store n) (cert : Certificate) : Store n × Bool :=
  match keystoreFind k cert.subject with
  | some _ => (k,true)
  | none =>
    match keystoreFindInList k cert.subject k.publicKeysToVerify with
    | some _ => ({k with polled := true},true)
    | none =>
      match E.allocator.pick k.memb.used with
      | some i => (k.enqueue i cert,true)
      | none =>
        if (keystoreFreeUpSpace E k).2=true then
          match E.allocator.pick (keystoreFreeUpSpace E k).1.memb.used with
          | some i => ((keystoreFreeUpSpace E k).1.enqueue i cert,true)
          | none => ((keystoreFreeUpSpace E k).1,false)
        else ((keystoreFreeUpSpace E k).1,false)

/-- `TBS_CERTIFICATE_CBOR_LENGTH`. -/
def tbsCertificateCborLength : ℕ :=
  1+(1+4)+(1+8)+(1+(1+4)+(1+4))+(1+8)+(1+1)+(1+1+64)

/-- Overwrite a part of a buffer from an offset on. -/
def overwrite (buffer : List UInt8) (offset : ℕ) (bytes : List UInt8) : List UInt8 :=
  buffer.take offset++bytes++buffer.drop (offset+bytes.length)

/-- The signed part of an item's certificate, encoded into `add_buffer`. -/
def encodeItem (E : Env n) (k : Store n) (i : Fin n) : Encoder × ℤ :=
  certificateEncodeTbs E.nanocbor (nanocborEncoderInit tbsCertificateCborLength) (k.item i).cert

/-- `add_buffer` after the encoding and the copied signature. -/
def filledBuffer (E : Env n) (k : Store n) (i : Fin n) : List UInt8 :=
  overwrite (overwrite k.addBuffer 0 (encodeItem E k i).1.stored)
    (encodeItem E k i).1.len (k.item i).cert.signature.bytes

/-- The entry for an item whose encoding is in the given buffer. -/
def entryFor (E : Env n) (k : Store n) (i : Fin n) (buffer : List UInt8) : VerifyEntry n where
  data := i
  message := buffer.take ((encodeItem E k i).1.len+dtlsEcSigSize)
  pubkey := E.rootCert.publicKey
  cert := (k.item i).cert

/-- `keystore_add_start`. The flag tells whether `queue_message_to_verify`
finds room in the verifier's pool, which other processes also use. -/
def keystoreAddStart (E : Env n) (k : Store n) (queued : Bool) : Store n :=
  if k.addBufferInUse=true then k
  else match k.publicKeysToVerify with
    | [] => k
    | i::_ =>
      if (encodeItem E k i).2≠0 ∨ tbsCertificateCborLength<(encodeItem E k i).1.len then
        {k.freeUnverified i with
          addBuffer := overwrite k.addBuffer 0 (encodeItem E k i).1.stored}
      else if queued=false then {k.freeUnverified i with addBuffer := filledBuffer E k i}
      else {k with
        addBuffer := filledBuffer E k i
        addBufferInUse := true
        outstanding := k.outstanding++[entryFor E k i (filledBuffer E k i)]}

/-- `keystore_add_continued`, with the item it returns on success. -/
def keystoreAddContinued (E : Env n) (k : Store n) (entry : VerifyEntry n) (result : UInt8) :
    Store n × Option (Fin n) :=
  if E.platformCryptoSuccess result=true then
    ({k with
      publicKeysToVerify := k.publicKeysToVerify.erase entry.data
      publicKeys := listPush k.publicKeys entry.data
      outstanding := k.outstanding.erase entry
      addBufferInUse := false},some entry.data)
  else
    ({k.freeUnverified entry.data with
      outstanding := k.outstanding.erase entry
      addBufferInUse := false},none)

/-- `OSCORE_ID_LEN` lower bytes of an identity. -/
def oscoreId (eui64 : Eui64) : List UInt8 := eui64.toList.drop 2

/-- `generate_shared_secret`: derive the context of an item in place. -/
def generateSharedSecret (E : Env n) (k : Store n) (i : Fin n) (secret : List UInt8) : Store n :=
  k.setItem i {k.item i with
    context := some ⟨secret,oscoreId E.ourCert.subject,oscoreId (k.subject i)⟩}

/-- The all-zero certificate of zero-initialised static memory. -/
def zeroCertificate : Certificate where
  serialNumber := 0
  issuer := .replicate 8 0
  subject := .replicate 8 0
  validityNotBefore := 0
  validityNotAfter := 0
  tags := ⟨0⟩
  publicKey := ⟨.replicate 32 0,.replicate 32 0⟩
  signature := ⟨.replicate 32 0,.replicate 32 0⟩

/-- The static data before `keystore_init` adds anything. -/
def emptyStore (n : ℕ) : Store n where
  memb := ⟨fun _ => false,fun _ => ⟨zeroCertificate,none,0⟩⟩
  publicKeys := []
  publicKeysToVerify := []
  addBuffer := .replicate (tbsCertificateCborLength+dtlsEcSigSize) 0
  addBufferInUse := false
  outstanding := []
  polled := false

/-- `keystore_init`: empty lists, then the root certificate. -/
def keystoreInit (E : Env n) : Store n := (keystoreAdd E (emptyStore n) E.rootCert).1

end TrustAlloc.Keystore
