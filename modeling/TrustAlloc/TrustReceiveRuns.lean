import TrustAlloc.TrustPins

/-!
# Pins, received items and verification entries over whole runs

Every step of the system keeps the ledger of pins, the balance of both pools
and the assertion of `keystore_unpin`. So in every reachable state the pin
counts are exact, whatever is referred to is alive, and what has been
allocated is either under way exactly once or has been freed exactly once.
-/

namespace TrustAlloc.TrustReceive

open Certificates EdgeInfo Addresses Keystore Pools Runs

variable {n m v : ℕ}

/-- Every entry of the verifier is in one place, none was lost, and
allocations and frees of its pool are in balance. -/
structure QueueInv (s : System n m v) : Prop where
  /-- The invariant of the verifier. -/
  verifier : Verifier.Inv s.verifier
  /-- No event was lost. -/
  kept : s.verifier.lost=[]
  /-- What is not in use has been freed as often as it was allocated. -/
  balanced : s.verifyHistory.Balanced s.verifier.memb.used

/-- The invariant of the system. -/
structure SystemInv (T : TrustEnv n m v) (s : System n m v) : Prop where
  /-- The ledger of pins. -/
  ledger : Ledger T.keystore s.store s.ecdh s.trustRxMemb (requests s.verifier)
  /-- The verifier's pool is in order. -/
  queue : QueueInv s
  /-- Allocations and frees of the received items are in balance. -/
  rxBalanced : s.rxHistory.Balanced s.trustRxMemb.used
  /-- The assertion of `keystore_unpin` has always held. -/
  asserted : s.assertFailed=false

section Frames

/-- Queueing at the verifier touches neither the keystore nor its child. -/
theorem queueMessageToVerify_kept (T : TrustEnv n m v) (s : System n m v) (data : Requester n m)
    (message : List UInt8) (pubkey : PublicKey) :
    (queueMessageToVerify T s data message pubkey).1.store=s.store ∧
      (queueMessageToVerify T s data message pubkey).1.ecdh=s.ecdh := by
  unfold queueMessageToVerify
  split <;> exact ⟨rfl,rfl⟩

/-- Nor does queueing all entries of a list. -/
theorem queueAll_kept (T : TrustEnv n m v) (l : List (VerifyEntry n)) (s : System n m v) :
    (l.foldl (fun s e => (queueMessageToVerify T s (.keystore e) e.message e.pubkey).1) s).store=
        s.store ∧
      (l.foldl (fun s e => (queueMessageToVerify T s (.keystore e) e.message e.pubkey).1) s).ecdh=
        s.ecdh := by
  induction l generalizing s with
  | nil => exact ⟨rfl,rfl⟩
  | cons e l ih =>
    obtain ⟨hstore,hecdh⟩ := queueMessageToVerify_kept T s (.keystore e) e.message e.pubkey
    exact ⟨(ih _).1.trans hstore,(ih _).2.trans hecdh⟩

/-- What `res_trust_post_handler` does to the keystore: at most pins. -/
theorem post_store (T : TrustEnv n m v) (s : System n m v) (src : IpAddr) (payload : List UInt8) :
    (resTrustPostHandler T s src payload).1.ecdh=s.ecdh ∧
      ((resTrustPostHandler T s src payload).1.store=s.store ∨
        (∃ key, (resTrustPostHandler T s src payload).1.store=keystorePin s.store key) ∨
        ∃ key, (resTrustPostHandler T s src payload).1.store=
          keystoreUnpin (keystorePin s.store key) key) := by
  unfold resTrustPostHandler
  split
  · exact ⟨rfl,Or.inl rfl⟩
  · split
    · exact ⟨rfl,Or.inl rfl⟩
    · next key _ =>
      split
      · exact ⟨rfl,Or.inl rfl⟩
      · next r _ =>
        obtain ⟨hstore,hecdh⟩ := queueMessageToVerify_kept T (s.acceptRx r key payload) (.trust r)
          payload (s.store.item key).cert.publicKey
        dsimp only
        split
        · exact ⟨hecdh,Or.inr (Or.inl ⟨key,hstore⟩)⟩
        · exact ⟨hecdh,Or.inr (Or.inr ⟨key,congrArg (keystoreUnpin · key) hstore⟩)⟩

/-- What a poll without child does to the keystore. -/
theorem poll_kept (T : TrustEnv n m v) (s : System n m v) (hecdh : s.ecdh=none) :
    (keystorePoll T s).store=keystoreAddStart T.keystore {s.store with polled := false}
        (T.verifyAllocator.pick s.verifier.memb.used).isSome ∧ (keystorePoll T s).ecdh=none := by
  unfold keystorePoll
  rw [hecdh]
  exact queueAll_kept T _ _

end Frames

section Steps

variable {T : TrustEnv n m v} {s : System n m v}

/-- Nothing but the verifier and its history matters to its pool. -/
theorem QueueInv.congr {s' : System n m v} (h : QueueInv s) (hv : s'.verifier=s.verifier)
    (hh : s'.verifyHistory=s.verifyHistory) : QueueInv s' := by
  obtain ⟨hI,hkept,hbal⟩ := h
  rw [←hv] at hI hkept hbal
  rw [←hh] at hbal
  exact ⟨hI,hkept,hbal⟩

/-- The keystore does not matter to the verifier's pool. -/
theorem QueueInv.withStore (h : QueueInv s) (store : Store n) :
    QueueInv {s with store := store} := h.congr rfl rfl

/-- `queue_message_to_verify` fails and changes nothing when the pool is
full; else it adds the request. -/
theorem queueMessageToVerify_cases (h : QueueInv s) (data : Requester n m) (message : List UInt8)
    (pubkey : PublicKey) :
    (T.verifyAllocator.pick s.verifier.memb.used=none ∧
        queueMessageToVerify T s data message pubkey=(s,false)) ∨
      ∃ verifier history, queueMessageToVerify T s data message pubkey=
          ({s with verifier := verifier,verifyHistory := history},true) ∧
        QueueInv {s with verifier := verifier,verifyHistory := history} ∧
        (requests verifier).Perm ((data,pubkey)::requests s.verifier) := by
  cases hp : T.verifyAllocator.pick s.verifier.memb.used with
  | none => exact Or.inl ⟨rfl,by rw [queueMessageToVerify,hp]⟩
  | some i =>
    have hqueue : Verifier.Admitted s.verifier (.queue data message pubkey) := trivial
    refine Or.inr ⟨_,s.verifyHistory.alloc i,by rw [queueMessageToVerify,hp],⟨?_,?_,?_⟩,
      requests_queue h.verifier hp data message pubkey⟩
    · exact h.verifier.step T.verifyAllocator T.errors hqueue
    · simp only [Verifier.queueMessageToVerify,hp]
      exact h.kept
    · simp only [Verifier.queueMessageToVerify,hp]
      exact h.balanced.take (T.verifyAllocator.pick_free hp)

/-- `queue_message_to_verify_done` for a posted entry keeps the pool in order. -/
theorem QueueInv.done (h : QueueInv s) (T : TrustEnv n m v) {entry : Fin v}
    (he : entry∈s.verifier.posted) :
    QueueInv (queueMessageToVerifyDone s entry) := by
  have hused : s.verifier.memb.used entry=true := (h.verifier.owns.used_iff entry).mpr
    (List.mem_append_right _ (List.mem_append_left _ he))
  have hdone : Verifier.Admitted s.verifier (.done entry) := he
  exact ⟨h.verifier.step T.verifyAllocator T.errors hdone,h.kept,h.balanced.free hused⟩

/-- A step of the verifier that only reorders its requests, uses and loses
nothing else keeps the invariant. -/
theorem SystemInv.withVerifier (h : SystemInv T s) {verifier : Verifier.State v (Requester n m)}
    (hI : Verifier.Inv verifier) (hlost : verifier.lost=s.verifier.lost)
    (hused : verifier.memb.used=s.verifier.memb.used)
    (hperm : (requests verifier).Perm (requests s.verifier)) :
    SystemInv T {s with verifier := verifier} := by
  refine ⟨h.ledger.perm hperm.symm,⟨hI,hlost.trans h.queue.kept,?_⟩,h.rxBalanced,h.asserted⟩
  rw [hused]
  exact h.queue.balanced

/-- A step of the keystore alone keeps the invariant when it keeps the ledger. -/
theorem SystemInv.withStore (h : SystemInv T s) {store : Store n}
    (hL : Ledger T.keystore store s.ecdh s.trustRxMemb (requests s.verifier)) :
    SystemInv T {s with store := store} := ⟨hL,h.queue.congr rfl rfl,h.rxBalanced,h.asserted⟩

/-- The assertion holds when the key is pinned. -/
theorem asserted_of_pinned (h : s.assertFailed=false) {i : Fin n}
    (hi : keystoreIsPinned s.store i=true) : (s.assertPinned i).assertFailed=false := by
  rw [System.assertPinned,h,hi]
  rfl

/-- `res_trust_post_handler` keeps the invariant on all of its paths. -/
theorem SystemInv.post (h : SystemInv T s) (src : IpAddr) (payload : List UInt8) :
    SystemInv T (resTrustPostHandler T s src payload).1 := by
  unfold resTrustPostHandler
  split
  · exact h
  · split
    · exact h
    · next key hkey =>
      split
      · exact h
      · next r hr =>
        have hfree := T.rxAllocator.pick_free hr
        have hmem := mem_of_keystoreFindAddr hkey
        have hL := h.ledger.accept T.rx_size hmem hfree
          (overwrite (s.trustRxMemb.mem r).payloadBuf 0 payload)
        have hbal := h.rxBalanced.take hfree
        have hQ : QueueInv (s.acceptRx r key payload) := h.queue.congr rfl rfl
        dsimp only
        rcases queueMessageToVerify_cases (T:=T) hQ (.trust r) payload
          (s.store.item key).cert.publicKey with ⟨_,hq⟩ | ⟨verifier,history,hq,hQ',hperm⟩
        · rw [hq]
          obtain ⟨hused,hpinned,hL'⟩ := hL.release
          rw [Memb.set_mem_same] at hpinned hL'
          exact ⟨hL',hQ.congr rfl rfl,hbal.free (m:=s.trustRxMemb.take r) hused,
            asserted_of_pinned (s:=(s.acceptRx r key payload).freeRx r) h.asserted hpinned⟩
        · rw [hq]
          exact ⟨hL.perm hperm.symm,hQ',hbal,h.asserted⟩

/-- `trust_rx_continue` for a delivered verdict keeps the invariant. -/
theorem SystemInv.trust (h : SystemInv T s) {entry : Fin v} (he : entry∈s.verifier.posted)
    {r : Fin m} (hr : (s.verifier.memb.mem entry).data=.trust r) :
    SystemInv T (trustRxContinue T s entry r) := by
  have hperm := requests_done s.verifier he
  rw [request,hr] at hperm
  obtain ⟨hused,hpinned,hL⟩ := (h.ledger.perm hperm).release
  exact ⟨hL,(h.queue.done T he).congr rfl rfl,h.rxBalanced.free hused,
    asserted_of_pinned h.asserted hpinned⟩

/-- A posted entry of the keystore is with the verifier for it, and no ECDH
child runs. -/
theorem SystemInv.entry (h : SystemInv T s) {entry : Fin v} (he : entry∈s.verifier.posted)
    {e : VerifyEntry n} (hr : (s.verifier.memb.mem entry).data=.keystore e) :
    e∈s.store.outstanding ∧ s.ecdh=none := by
  have hperm := requests_done s.verifier he
  rw [request,hr] at hperm
  have hout : e∈s.store.outstanding :=
    (h.ledger.perm hperm).entries.mem_iff.mp List.mem_cons_self
  refine ⟨hout,Option.eq_none_iff_forall_ne_some.mpr fun i hi => ?_⟩
  rw [(h.ledger.child i hi).2] at hout
  cases hout

/-- A delivered verdict about a certificate keeps the invariant. -/
theorem SystemInv.keystore (h : SystemInv T s) {entry : Fin v} (he : entry∈s.verifier.posted)
    {e : VerifyEntry n} (hr : (s.verifier.memb.mem entry).data=.keystore e) :
    SystemInv T (keystoreVerified T s entry e) := by
  have hperm := requests_done s.verifier he
  rw [request,hr] at hperm
  have hL := h.ledger.perm hperm
  have hidle := (h.entry he hr).2
  rw [hidle] at hL
  unfold keystoreVerified
  rw [hidle]
  exact ⟨hL.verified T.rx_size _,(h.queue.done T he).congr rfl rfl,h.rxBalanced,h.asserted⟩

/-- A poll keeps the invariant. -/
theorem SystemInv.poll (h : SystemInv T s) : SystemInv T (keystorePoll T s) := by
  unfold keystorePoll
  split
  · exact h.withStore (h.ledger.withPolled false)
  · next hecdh =>
    have hL := h.ledger.withPolled false
    rw [hecdh] at hL
    dsimp only
    rcases hL.addStart (T.verifyAllocator.pick s.verifier.memb.used).isSome with
      ⟨hout,hL'⟩ | ⟨hroom,e,hout,hL'⟩
    · rw [hout,List.drop_length]
      rw [←hecdh] at hL'
      exact h.withStore hL'
    · rw [hout,List.drop_left]
      rw [←hecdh] at hL'
      have hQ := h.queue.withStore (keystoreAddStart T.keystore {s.store with polled := false}
        (T.verifyAllocator.pick s.verifier.memb.used).isSome)
      rcases queueMessageToVerify_cases (T:=T) hQ (.keystore e) e.message e.pubkey with
        ⟨hfull,_⟩ | ⟨verifier,history,hq,hQ',hperm⟩
      · have hfull' : T.verifyAllocator.pick s.verifier.memb.used=none := hfull
        rw [hfull'] at hroom
        cases hroom
      · rw [List.foldl_cons,List.foldl_nil,hq]
        exact ⟨hL'.perm hperm.symm,hQ',h.rxBalanced,h.asserted⟩

/-- The end of the ECDH child keeps the invariant. -/
theorem SystemInv.ecdhDone (h : SystemInv T s) (success : Bool) (secret : List UInt8) :
    SystemInv T (keystoreEcdhDone T s success secret) := by
  unfold keystoreEcdhDone
  cases hecdh : s.ecdh with
  | none => exact h
  | some i =>
    have hL := h.ledger
    rw [hecdh] at hL
    obtain ⟨hpinned,hL'⟩ := hL.ecdhDone success secret
    exact ⟨hL',h.queue.congr rfl rfl,h.rxBalanced,asserted_of_pinned h.asserted hpinned⟩

/-- Every admitted step keeps the invariant. -/
theorem SystemInv.step (h : SystemInv T s) {op : Op v n} (hop : Admitted s op) :
    SystemInv T (step T s op) := by
  cases op with
  | post src payload => exact h.post src payload
  | add cert => exact h.withStore (h.ledger.add cert)
  | remove item => exact h.withStore (h.ledger.remove item)
  | poll => exact h.poll
  | dequeue =>
    obtain ⟨hlost,hused⟩ := dequeue_kept T.errors s.verifier
    have hdequeue : Verifier.Admitted s.verifier (.dequeue true) := trivial
    exact h.withVerifier (h.queue.verifier.step T.verifyAllocator T.errors hdequeue) hlost hused
      (requests_dequeue T.errors s.verifier)
  | verify codes =>
    obtain ⟨hlost,hused⟩ := verify_kept T.errors s.verifier codes
    have hverify : Verifier.Admitted s.verifier (.verify codes true) := trivial
    exact h.withVerifier (h.queue.verifier.step T.verifyAllocator T.errors hverify) hlost hused
      (requests_verify T.errors s.verifier codes)
  | deliver entry =>
    dsimp only [TrustReceive.step]
    unfold deliver
    split
    · next e he => exact h.keystore hop he
    · next r hr => exact h.trust hop hr
  | ecdhDone success secret => exact h.ecdhDone success secret

end Steps

/-- The ledger is right before `keystore_init` adds the root. -/
theorem ledger_emptyStore (E : Env n) (item : Fin m → TrustRxItem n) :
    Ledger E (emptyStore n) none ⟨fun _ => false,item⟩ [] where
  store := inv_emptyStore E
  waiting := ⟨List.nodup_nil,fun i => by simp⟩
  entries := List.Perm.refl []
  keys _ hr := nomatch hr
  pubkeys _ hq := nomatch hq
  child _ hi := nomatch hi
  pins _ := rfl

/-- The invariant holds once both processes are initialised. -/
theorem systemInv_init (T : TrustEnv n m v) (item : Fin m → TrustRxItem n)
    (data : Requester n m) : SystemInv T (init T item data) where
  ledger := (ledger_emptyStore T.keystore item).add T.keystore.rootCert
  queue := ⟨Verifier.inv_start data,rfl,fun _ => rfl⟩
  rxBalanced _ := rfl
  asserted := rfl

/-- A key that is allocated and usable. -/
def KeyAlive (s : System n m v) (i : Fin n) : Prop :=
  s.store.memb.used i=true ∧ i∈s.store.publicKeys

/-- What an entry of the verifier refers to is alive: a received item with
the key it is verified under, or the item that the keystore wants to publish,
which is verified under the static key of the root. -/
def EntryAlive (s : System n m v) (j : Fin v) : Prop :=
  match (s.verifier.memb.mem j).data with
  | .trust r => s.trustRxMemb.used r=true ∧ KeyAlive s (s.trustRxMemb.mem r).key ∧
      (s.verifier.memb.mem j).pubkey=(s.store.item (s.trustRxMemb.mem r).key).cert.publicKey
  | .keystore e => s.store.memb.used e.data=true ∧ e.data∈s.store.publicKeysToVerify

/-- Entries that are queued, being verified or posted. -/
def System.underWay (s : System n m v) : List (Fin v) :=
  s.verifier.vitem.toList++s.verifier.messagesToVerify++s.verifier.posted

/-- Pin counts are exact and what is pinned or referred to stays alive. -/
structure PinsExact (s : System n m v) : Prop where
  /-- A key is pinned once for every received item in use that has it and
  once by the keystore process while the ECDH child runs for it. -/
  pins : ∀ i, (s.store.item i).pinCount.toNat=
    (Finset.univ.filter fun r => s.trustRxMemb.used r=true ∧ (s.trustRxMemb.mem r).key=i).card+
      if s.ecdh=some i then 1 else 0
  /-- Keys of received items are alive. -/
  rxKeys : ∀ r, s.trustRxMemb.used r=true → KeyAlive s (s.trustRxMemb.mem r).key
  /-- So is what the entries of the verifier refer to. -/
  entryKeys : ∀ j∈s.underWay, EntryAlive s j
  /-- The assertion of `keystore_unpin` has never failed. -/
  asserted : s.assertFailed=false
  /-- Every received item has been freed once for each allocation but the
  last one, if it is in use. -/
  rxFreed : s.rxHistory.Balanced s.trustRxMemb.used
  /-- So has every entry of the verifier. -/
  entriesFreed : s.verifyHistory.Balanced s.verifier.memb.used
  /-- A received item in use is what exactly one entry is about. -/
  rxUnderWay : Owns s.trustRxMemb.used ((requests s.verifier).filterMap trustItem)
  /-- An entry in use is queued, being verified or posted, in one place. -/
  entriesUnderWay : Owns s.verifier.memb.used s.underWay

/-- Users on an owning list can be counted over the whole pool. -/
theorem countP_eq_card {used : Fin m → Bool} {l : List (Fin m)} (h : Owns used l)
    (p : Fin m → Prop) [DecidablePred p] :
    l.countP (fun r => decide (p r))=(Finset.univ.filter fun r => used r=true ∧ p r).card := by
  have hnd : (l.filter fun r => decide (p r)).Nodup := h.nodup.filter _
  rw [List.countP_eq_length_filter,←List.toFinset_card_of_nodup hnd]
  refine congrArg Finset.card (Finset.ext fun r => ?_)
  simp [h.used_iff r]

/-- The invariant contains what is wanted. -/
theorem SystemInv.pinsExact {T : TrustEnv n m v} {s : System n m v} (h : SystemInv T s) :
    PinsExact s := by
  have hL := h.ledger
  have halive : ∀ i∈s.store.publicKeys, KeyAlive s i := fun i hi =>
    ⟨(hL.store.owns.used_iff i).mpr (List.mem_append_left _ hi),hi⟩
  have hpending : pending s.verifier=s.underWay := by
    rw [pending,h.queue.kept,List.append_nil]
    rfl
  refine ⟨fun i => ?_,fun r hr => ?_,fun j hj => ?_,h.asserted,h.rxBalanced,h.queue.balanced,
    hL.waiting,?_⟩
  · rw [hL.pins i,users,countP_eq_card hL.waiting]
  · exact halive _ (hL.keys r ((hL.waiting.used_iff r).mp hr))
  · rw [←hpending] at hj
    have hq : request s.verifier j∈requests s.verifier := List.mem_map_of_mem hj
    unfold EntryAlive
    split
    · next r hr =>
      have hitem : trustItem (request s.verifier j)=some r := by rw [request,hr,trustItem]
      have hw := List.mem_filterMap.mpr ⟨_,hq,hitem⟩
      exact ⟨(hL.waiting.used_iff r).mpr hw,halive _ (hL.keys r hw),hL.pubkeys _ hq r hitem⟩
    · next e he =>
      have hentry : keystoreEntry (request s.verifier j)=some e := by
        rw [request,he,keystoreEntry]
      have hout := hL.entries.mem_iff.mp (List.mem_filterMap.mpr ⟨_,hq,hentry⟩)
      have hwait := (hL.store.entry hout).2.2.waiting
      exact ⟨(hL.store.owns.used_iff _).mpr (List.mem_append_right _ hwait),hwait⟩
  · rw [←hpending]
    exact h.queue.verifier.owns

/-- **Pins over a whole run.** However trust information, certificates,
removals, verdicts, polls and the ECDH child interleave, as long as events
that are posted are delivered, in every reachable state pin counts are exact,
what is referred to is alive, the assertion has held and everything that was
allocated has been freed exactly once or is under way exactly once. -/
theorem pinsExact_always (T : TrustEnv n m v) (item : Fin m → TrustRxItem n)
    (data : Requester n m) (ops : List (Op v n))
    (hops : Along (step T) Admitted (init T item data) ops) :
    Always (step T) PinsExact (init T item data) ops :=
  (always_of_step (fun _ _ hI hA => hI.step hA) (systemInv_init T item data) hops).mono
    fun _ hI => hI.pinsExact

/-- Once nothing is under way, no received item and no entry is in use, and
each has been freed exactly as often as it was allocated. -/
theorem PinsExact.idle {s : System n m v} (h : PinsExact s) (hidle : requests s.verifier=[]) :
    s.rxHistory.frees=s.rxHistory.allocs ∧ s.verifyHistory.frees=s.verifyHistory.allocs := by
  have hnone : s.underWay=[] := by
    rw [requests,List.map_eq_nil_iff,pending] at hidle
    simp only [List.append_eq_nil_iff] at hidle
    rw [System.underWay,hidle.1.1,hidle.1.2,hidle.2.1]
    rfl
  have hrx := h.rxUnderWay
  have hentries := h.entriesUnderWay
  rw [hidle] at hrx
  rw [hnone] at hentries
  refine ⟨h.rxFreed.idle fun r => ?_,h.entriesFreed.idle fun j => ?_⟩
  · exact Bool.eq_false_iff.mpr fun hu => List.not_mem_nil ((hrx.used_iff r).mp hu)
  · exact Bool.eq_false_iff.mpr fun hu => List.not_mem_nil ((hentries.used_iff j).mp hu)

/-- A node with small pools and the sample keystore. -/
def sampleTrustEnv : TrustEnv 2 2 3 where
  keystore := sampleEnv 2
  addresses := sampleAddressEnv
  rxAllocator := firstFit 2
  verifyAllocator := firstFit 3
  errors := Verifier.sampleErrors
  coapMaxChunkSize := 256
  rx_size := by decide

/-- Zero-initialised items. -/
def sampleItems : Fin 2 → TrustRxItem 2 := fun _ => ⟨⟨0,by decide⟩,[]⟩

/-- What is in the blocks of the verifier before they are used. -/
def sampleData : Requester 2 2 := .trust ⟨0,by decide⟩

/-- The system after start. -/
def sampleInit : System 2 2 3 := init sampleTrustEnv sampleItems sampleData

/-- An address of the holder of the sample root certificate. -/
def samplePeerAddr : IpAddr := Vector.replicate 16 1 |>.set 8 3

/-- The root certificate is verified, trust information from its holder
arrives while the ECDH child runs, is verified after the child has ended and
is delivered. -/
def sampleOps : List (Op 3 2) :=
  [.poll,.dequeue,.verify Verifier.allSucceed,.deliver 0,
    .post samplePeerAddr Verifier.sampleMessage,.ecdhDone true [7],.poll,.dequeue,
    .verify Verifier.allSucceed,.add (sampleCertificate 3),.deliver 0]

/-- The sample run keeps all counts exact. -/
theorem pinsExact_always_sample : Always (step sampleTrustEnv) PinsExact sampleInit sampleOps :=
  pinsExact_always sampleTrustEnv sampleItems sampleData sampleOps (by decide +kernel)

end TrustAlloc.TrustReceive
