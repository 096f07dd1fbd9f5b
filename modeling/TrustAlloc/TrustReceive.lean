import TrustAlloc.Addresses
import TrustAlloc.KeystoreProcess
import TrustAlloc.Verifier

/-!
# Received trust information and the keys it is verified under

A node that receives trust information pins the sender's key, queues the
payload for verification and unpins the key when the verdict is delivered.
The keystore process queues certificates to the same verifier and pins a key
while its ECDH child runs. Everybody else adds and removes certificates at
any time. The system is the composition of the keystore, the pool of received
items and the verifier; every order of its steps is a run.
-/

namespace TrustAlloc.TrustReceive

open Certificates EdgeInfo Addresses Keystore Pools Runs

/-- What the system is built against, for pools of `n` keys, `m` received
items (`TRUST_RX_SIZE`) and `v` entries of the verifier. -/
structure TrustEnv (n m v : ℕ) where
  /-- What the keystore is built against. -/
  keystore : Keystore.Env n
  /-- Address conversions. -/
  addresses : AddressEnv
  /-- Policy of `memb_alloc` on `trust_rx_memb`. -/
  rxAllocator : Allocator m
  /-- Policy of `memb_alloc` on `messages_to_verify_memb`. -/
  verifyAllocator : Allocator v
  /-- Error codes of the crypto library. -/
  errors : NrfCrypto.ErrorCodes
  /-- `COAP_MAX_CHUNK_SIZE`. -/
  coapMaxChunkSize : ℕ
  /-- All received items and the keystore itself can be counted in the 16 bits
  of `pin_count`; `TRUST_RX_SIZE` is 2 unless the build sets it. -/
  rx_size : m+1<UInt16.size

/-- `MAX_TRUST_PAYLOAD`. -/
def TrustEnv.maxTrustPayload {n m v : ℕ} (T : TrustEnv n m v) : ℤ :=
  T.coapMaxChunkSize-dtlsEcSigSize

/-- `trust_rx_item_t`. -/
structure TrustRxItem (n : ℕ) where
  /-- The key of the sender. -/
  key : Fin n
  /-- The received payload, with its signature at the end. -/
  payloadBuf : List UInt8

/-- The process and the data of an entry of the verifier. -/
inductive Requester (n m : ℕ) where
  /-- The keystore process, for an item that waits for verification. -/
  | keystore (entry : VerifyEntry n)
  /-- The trust model process, for a received item. -/
  | trust (item : Fin m)

/-- The keystore, the received items and the verifier. -/
structure System (n m v : ℕ) where
  /-- Static data of the keystore. -/
  store : Store n
  /-- Item whose ECDH child is running in the keystore process. -/
  ecdh : Option (Fin n)
  /-- `trust_rx_memb`. -/
  trustRxMemb : Memb m (TrustRxItem n)
  /-- The verifier with its pool, its queue and the events it has posted. -/
  verifier : Verifier.State v (Requester n m)
  /-- Calls of `process_received_trust`: sender and payload. -/
  processed : List (Eui64×List UInt8)
  /-- What happened to every block of `trust_rx_memb`; a history value. -/
  rxHistory : History m
  /-- What happened to every block of the verifier's pool; a history value. -/
  verifyHistory : History v
  /-- Whether the assertion of `keystore_unpin` has ever failed. -/
  assertFailed : Bool

variable {n m v : ℕ}

/-- The assertion of `keystore_unpin`. -/
def System.assertPinned (s : System n m v) (i : Fin n) : System n m v :=
  {s with assertFailed := s.assertFailed || !keystoreIsPinned s.store i}

/-- `memb_free` on `trust_rx_memb`. -/
def System.freeRx (s : System n m v) (r : Fin m) : System n m v :=
  {s with trustRxMemb := s.trustRxMemb.free r,rxHistory := s.rxHistory.free r}

/-- `queue_message_to_verify`. -/
def queueMessageToVerify (T : TrustEnv n m v) (s : System n m v) (data : Requester n m)
    (message : List UInt8) (pubkey : PublicKey) : System n m v×Bool :=
  match T.verifyAllocator.pick s.verifier.memb.used with
  | none => (s,false)
  | some i => ({s with
      verifier := Verifier.queueMessageToVerify T.verifyAllocator s.verifier data message pubkey
      verifyHistory := s.verifyHistory.alloc i},true)

/-- `queue_message_to_verify_done`. -/
def queueMessageToVerifyDone (s : System n m v) (entry : Fin v) : System n m v :=
  {s with
    verifier := Verifier.queueMessageToVerifyDone s.verifier entry
    verifyHistory := s.verifyHistory.free entry}

/-- The codes that `res_trust_post_handler` sets on its response. -/
inductive PostResponse where
  /-- `BAD_REQUEST_4_00`. -/
  | badRequest
  /-- `SERVICE_UNAVAILABLE_5_03` with a maximal age in seconds. -/
  | serviceUnavailable (maxAge : ℕ)
  deriving DecidableEq

/-- `ASK_RETRY_AFTER_CERTIFICATE_REQUEST`. -/
def askRetryAfterCertificateRequest : ℕ := 5*60

/-- `ASK_RETRY_AFTER_MEMORY_ALLOCATION_FAIL`. -/
def askRetryAfterMemoryAllocationFail : ℕ := 2*60

/-- `ASK_RETRY_AFTER_QUEUE_FAIL`. -/
def askRetryAfterQueueFail : ℕ := 2*60

/-- A received item is filled and its key is pinned. -/
def System.acceptRx (s : System n m v) (r : Fin m) (key : Fin n) (payload : List UInt8) :
    System n m v :=
  {s with
    trustRxMemb := (s.trustRxMemb.take r).set r
      ⟨key,overwrite (s.trustRxMemb.mem r).payloadBuf 0 payload⟩
    rxHistory := s.rxHistory.alloc r
    store := keystorePin s.store key}

/-- `res_trust_post_handler`, with the response it sets. A request for a
missing key that it makes first changes nothing here. -/
def resTrustPostHandler (T : TrustEnv n m v) (s : System n m v) (src : IpAddr)
    (payload : List UInt8) : System n m v×Option PostResponse :=
  if (payload.length : ℤ)≤0 ∨ T.maxTrustPayload+dtlsEcSigSize<payload.length then
    (s,some .badRequest)
  else match keystoreFindAddr T.addresses s.store src with
    | none => (s,some (.serviceUnavailable askRetryAfterCertificateRequest))
    | some key =>
      match T.rxAllocator.pick s.trustRxMemb.used with
      | none => (s,some (.serviceUnavailable askRetryAfterMemoryAllocationFail))
      | some r =>
        let accepted := s.acceptRx r key payload
        let queued := queueMessageToVerify T accepted (.trust r) payload
          (s.store.item key).cert.publicKey
        if queued.2=true then (queued.1,none)
        else
          let freed := (queued.1.freeRx r).assertPinned key
          ({freed with store := keystoreUnpin freed.store key},
            some (.serviceUnavailable askRetryAfterQueueFail))

/-- `trust_rx_continue` for the entry of a received item. -/
def trustRxContinue (T : TrustEnv n m v) (s : System n m v) (entry : Fin v) (r : Fin m) :
    System n m v :=
  let item := s.trustRxMemb.mem r
  let message := (s.verifier.memb.mem entry).message
  let merged := if T.keystore.platformCryptoSuccess (s.verifier.memb.mem entry).result=true then
      s.processed++[((s.store.item item.key).cert.subject,
        item.payloadBuf.take (message.length-dtlsEcSigSize))]
    else s.processed
  let unpinned := {s.assertPinned item.key with
    processed := merged,store := keystoreUnpin s.store item.key}
  (queueMessageToVerifyDone unpinned entry).freeRx r

/-- A poll of the keystore process. -/
def keystorePoll (T : TrustEnv n m v) (s : System n m v) : System n m v :=
  match s.ecdh with
  -- the ECDH child yields on every event, so a poll that reaches it is spent
  | some _ => {s with store := {s.store with polled := false}}
  | none =>
    let k := {s.store with polled := false}
    let k' := keystoreAddStart T.keystore k (T.verifyAllocator.pick s.verifier.memb.used).isSome
    (k'.outstanding.drop k.outstanding.length).foldl
      (fun s e => (queueMessageToVerify T s (.keystore e) e.message e.pubkey).1)
      {s with store := k'}

/-- A verdict about a certificate reaches the keystore process. -/
def keystoreVerified (T : TrustEnv n m v) (s : System n m v) (entry : Fin v) (e : VerifyEntry n) :
    System n m v :=
  match s.ecdh with
  -- the ECDH child would take the event, and nobody would free the entry
  | some _ => {s with verifier := {s.verifier with
      posted := s.verifier.posted.erase entry,lost := s.verifier.lost++[entry]}}
  | none =>
    let p := onVerified T.keystore ⟨s.store,none,[]⟩ e (s.verifier.memb.mem entry).result []
    queueMessageToVerifyDone {s with store := p.store,ecdh := p.ecdh} entry

/-- The ECDH child of the keystore process ends. -/
def keystoreEcdhDone (T : TrustEnv n m v) (s : System n m v) (success : Bool)
    (secret : List UInt8) : System n m v :=
  match s.ecdh with
  | none => s
  | some pkitem =>
    let p := onEcdhDone T.keystore ⟨s.store,s.ecdh,[]⟩ pkitem success secret
    {s.assertPinned pkitem with store := p.store,ecdh := p.ecdh}

/-- `pe_message_verified` reaches the process that queued the entry. -/
def deliver (T : TrustEnv n m v) (s : System n m v) (entry : Fin v) : System n m v :=
  match (s.verifier.memb.mem entry).data with
  | .keystore e => keystoreVerified T s entry e
  | .trust r => trustRxContinue T s entry r

/-- What can happen next, in any order. -/
inductive Op (v n : ℕ) where
  /-- Trust information arrives. -/
  | post (src : IpAddr) (payload : List UInt8)
  /-- `keystore_add`. -/
  | add (cert : Certificate)
  /-- `keystore_remove`. -/
  | remove (item : Fin n)
  /-- The pending poll reaches the keystore process. -/
  | poll
  /-- The verifier takes the next entry. -/
  | dequeue
  /-- The verifier's calls return these codes and its event is posted. -/
  | verify (codes : NrfCrypto.VerifyCodes)
  /-- A posted event is delivered. -/
  | deliver (entry : Fin v)
  /-- The ECDH child ends. -/
  | ecdhDone (success : Bool) (secret : List UInt8)

/-- One step of the system. -/
def step (T : TrustEnv n m v) (s : System n m v) : Op v n → System n m v
  | .post src payload => (resTrustPostHandler T s src payload).1
  | .add cert => {s with store := (keystoreAdd T.keystore s.store cert).1}
  | .remove item => {s with store := (keystoreRemove T.keystore s.store item).1}
  | .poll => keystorePoll T s
  | .dequeue => {s with verifier := Verifier.dequeue T.errors s.verifier true}
  | .verify codes => {s with verifier := Verifier.verify T.errors s.verifier codes true}
  | .deliver entry => deliver T s entry
  | .ecdhDone success secret => keystoreEcdhDone T s success secret

/-- Which steps can happen: only posted events and pending polls are
delivered, and only a child that runs can end. -/
def Admitted (s : System n m v) : Op v n → Prop
  | .poll => s.store.polled=true
  | .deliver entry => entry∈s.verifier.posted
  | .ecdhDone _ _ => s.ecdh≠none
  | _ => True

/-- Admission is decided by the current state. -/
instance decidableAdmitted (s : System n m v) : ∀ op : Op v n, Decidable (Admitted s op)
  | .poll => inferInstanceAs (Decidable (s.store.polled=true))
  | .deliver entry => inferInstanceAs (Decidable (entry∈s.verifier.posted))
  | .ecdhDone _ _ => inferInstanceAs (Decidable (s.ecdh≠none))
  | .post _ _ | .add _ | .remove _ | .dequeue | .verify _ => .isTrue trivial

/-- The system once both processes have initialised their data. The contents
of unused blocks are given, as a pool of size zero has none. -/
def init (T : TrustEnv n m v) (item : Fin m → TrustRxItem n) (data : Requester n m) :
    System n m v where
  store := keystoreInit T.keystore
  ecdh := none
  trustRxMemb := ⟨fun _ => false,item⟩
  verifier := Verifier.start v data
  processed := []
  rxHistory := .start m
  verifyHistory := .start v
  assertFailed := false

end TrustAlloc.TrustReceive
