import TrustAlloc.TrustReceiveRuns

/-!
# The peers that security contexts belong to

An item is usable before its ECDH child has ended, and a block keeps the
context of its previous occupant. A history records for every block the key
that its context was derived from since the current certificate was stored.
A request is protected with a context of the right peer exactly when the
child of the item has ended, and has not failed.
-/

namespace TrustAlloc.KeystoreContexts

open Certificates EdgeInfo Addresses Keystore Pools Runs TrustReceive

variable {n m v : ℕ}

/-- `keystore_protect_coap_with_oscore`: the item whose context is set on the
request, if any. -/
def keystoreProtectCoapWithOscore (A : AddressEnv) (k : Store n) (ep : IpAddr) : Option (Fin n) :=
  if isLinklocalAllnodesMcast ep=true then none else keystoreFindAddr A k ep

/-- The system with the history of the contexts. -/
structure ContextState (n m v : ℕ) where
  /-- The keystore and its surroundings. -/
  system : System n m v
  /-- Key that the ECDH child was started with. -/
  peer : PublicKey
  /-- Derivation in a block since its certificate was stored: the key given
  to ECDH and the context that came out. -/
  derived : Fin n → Option (PublicKey×OscoreContext)
  /-- Whether the child of a block has failed since then. -/
  failed : Fin n → Bool

/-- The history after a step that leads to the given state of the system. -/
def observe (c : ContextState n m v) (s' : System n m v) : TrustReceive.Op v n → ContextState n m v
  | .add _ =>
    let filled := s'.store.publicKeysToVerify.drop c.system.store.publicKeysToVerify.length
    ⟨s',c.peer,fun i => if i∈filled then none else c.derived i,
      fun i => !decide (i∈filled) && c.failed i⟩
  | .deliver _ =>
    match c.system.ecdh,s'.ecdh with
    | none,some i => ⟨s',(s'.store.item i).cert.publicKey,c.derived,c.failed⟩
    | _,_ => {c with system := s'}
  | .ecdhDone success _ =>
    match c.system.ecdh with
    | none => {c with system := s'}
    | some i =>
      if success=true then ⟨s',c.peer,
        Function.update c.derived i ((s'.store.item i).context.map fun o => (c.peer,o)),c.failed⟩
      else ⟨s',c.peer,c.derived,Function.update c.failed i true⟩
  | _ => {c with system := s'}

/-- What can happen next, in any order. -/
inductive Op (v n : ℕ) where
  /-- A step of the keystore or of its surroundings. -/
  | run (op : TrustReceive.Op v n)
  /-- `keystore_protect_coap_with_oscore` for a request to an endpoint. -/
  | protect (ep : IpAddr)

/-- One step; protecting a request changes nothing here. -/
def step (T : TrustEnv n m v) (c : ContextState n m v) : Op v n → ContextState n m v
  | .run op => observe c (TrustReceive.step T c.system op) op
  | .protect _ => c

/-- Steps of the system happen as before, requests are protected at any time. -/
def Admitted (c : ContextState n m v) : Op v n → Prop
  | .run op => TrustReceive.Admitted c.system op
  | .protect _ => True

/-- Admission is decided by the current state. -/
instance decidableAdmitted (c : ContextState n m v) : ∀ op : Op v n, Decidable (Admitted c op)
  | .run op => inferInstanceAs (Decidable (TrustReceive.Admitted c.system op))
  | .protect _ => .isTrue trivial

/-- Start, with a history that knows of no derivation. -/
def init (T : TrustEnv n m v) (item : Fin m → TrustRxItem n) (data : Requester n m) :
    ContextState n m v := ⟨TrustReceive.init T item data,⟨.replicate 32 0,.replicate 32 0⟩,
  fun _ => none,fun _ => false⟩

/-- The context in a block was derived from ECDH with the key of the
certificate that the block holds now. -/
def ContextMatches (k : Store n) (derived : Fin n → Option (PublicKey×OscoreContext))
    (i : Fin n) : Prop :=
  ∃ o∈(k.item i).context, derived i=some ((k.item i).cert.publicKey,o)

/-- Matching is decided by the item and its history. -/
instance decidableContextMatches (k : Store n) (derived : Fin n → Option (PublicKey×OscoreContext))
    (i : Fin n) : Decidable (ContextMatches k derived i) :=
  inferInstanceAs (Decidable (∃ o∈(k.item i).context, _))

/-- A protected request gets the context of the peer it goes to. -/
def ProtectedByPeer (T : TrustEnv n m v) (c : ContextState n m v) : Op v n → Prop
  | .run _ => True
  | .protect ep => ∀ i∈keystoreProtectCoapWithOscore T.addresses c.system.store ep,
      ContextMatches c.system.store c.derived i

/-- Protection is decided by the item found. -/
instance decidableProtectedByPeer (T : TrustEnv n m v) (c : ContextState n m v) :
    ∀ op : Op v n, Decidable (ProtectedByPeer T c op)
  | .run _ => .isTrue trivial
  | .protect ep => inferInstanceAs
      (Decidable (∀ i∈keystoreProtectCoapWithOscore T.addresses c.system.store ep, _))

/-- Requests are protected with an item only when its ECDH child has ended
and has not failed. -/
def ChildSucceeded (T : TrustEnv n m v) (c : ContextState n m v) : Op v n → Prop
  | .run _ => True
  | .protect ep => ∀ i∈keystoreProtectCoapWithOscore T.addresses c.system.store ep,
      c.system.ecdh≠some i ∧ c.failed i=false

/-- What the history says about waiting items, about the item whose child
runs and about the other usable ones. -/
structure ContextInv (k : Store n) (ecdh : Option (Fin n)) (peer : PublicKey)
    (derived : Fin n → Option (PublicKey×OscoreContext)) (failed : Fin n → Bool) : Prop where
  /-- Nothing has been tried for an item that waits for verification. -/
  waiting : ∀ i∈k.publicKeysToVerify, derived i=none ∧ failed i=false
  /-- The child was started with the key that is still stored. -/
  child : ∀ i, ecdh=some i → peer=(k.item i).cert.publicKey ∧ derived i=none ∧ failed i=false
  /-- A child that has ended has failed, or has left a matching context. -/
  usable : ∀ i∈k.publicKeys, ecdh≠some i →
    (failed i=true ∧ derived i=none) ∨ (failed i=false ∧ ContextMatches k derived i)

section Steps

variable {T : TrustEnv n m v} {k k' : Store n} {ecdh : Option (Fin n)} {peer : PublicKey}
  {derived : Fin n → Option (PublicKey×OscoreContext)} {failed : Fin n → Bool}

/-- A change that lists no new items and writes no certificate or context. -/
structure Quiet (k k' : Store n) : Prop where
  /-- No item becomes usable. -/
  publicKeys : ∀ i∈k'.publicKeys, i∈k.publicKeys
  /-- No item is queued. -/
  waiting : ∀ i∈k'.publicKeysToVerify, i∈k.publicKeysToVerify
  /-- Certificates stay. -/
  cert : ∀ i, (k'.item i).cert=(k.item i).cert
  /-- Contexts stay. -/
  context : ∀ i, (k'.item i).context=(k.item i).context

/-- Changes that are quiet compose. -/
theorem Quiet.trans {k'' : Store n} (h : Quiet k k') (h' : Quiet k' k'') : Quiet k k'' :=
  ⟨fun i hi => h.publicKeys i (h'.publicKeys i hi),fun i hi => h.waiting i (h'.waiting i hi),
    fun i => (h'.cert i).trans (h.cert i),fun i => (h'.context i).trans (h.context i)⟩

/-- Polls are quiet. -/
theorem Quiet.withPolled (h : Quiet k k') (polled : Bool) : Quiet k {k' with polled := polled} :=
  ⟨h.publicKeys,h.waiting,h.cert,h.context⟩

/-- Items that are not written are quiet. -/
theorem quiet_of_mem (hp : ∀ i∈k'.publicKeys, i∈k.publicKeys)
    (hw : ∀ i∈k'.publicKeysToVerify, i∈k.publicKeysToVerify) (hm : k'.memb.mem=k.memb.mem) :
    Quiet k k' :=
  ⟨hp,hw,fun i => by rw [Store.item,hm],fun i => by rw [Store.item,hm]⟩

/-- Changing the count of an item is quiet. -/
theorem quiet_setItem (k : Store n) (i : Fin n) (count : UInt16) :
    Quiet k (k.setItem i {k.item i with pinCount := count}) := by
  refine ⟨fun _ hj => hj,fun _ hj => hj,setItem_cert i rfl,fun j => ?_⟩
  by_cases hj : j=i
  · subst hj
    exact (congrArg PublicKeyItem.context (k.memb.set_mem_same j _)).trans rfl
  · exact congrArg PublicKeyItem.context (k.memb.set_mem_other _ hj)

/-- `keystore_pin` is quiet. -/
theorem quiet_pin (k : Store n) (i : Fin n) : Quiet k (keystorePin k i) := quiet_setItem k i _

/-- `keystore_unpin` is quiet. -/
theorem quiet_unpin (k : Store n) (i : Fin n) : Quiet k (keystoreUnpin k i) := quiet_setItem k i _

/-- Evictions are quiet. -/
theorem quiet_of_evicted (h : Evicted k k') : Quiet k k' :=
  quiet_of_mem (fun _ hi => h.publicKeys.subset hi)
    (fun i hi => by rwa [h.publicKeysToVerify] at hi) h.mem

/-- `keystore_add_start` is quiet. -/
theorem quiet_addStart (E : Env n) (k : Store n) (queued : Bool) :
    Quiet k (keystoreAddStart E k queued) := by
  rcases keystoreAddStart_cases E k queued with hk | ⟨_,i,rest,buffer,_,hk⟩ |
    ⟨_,i,rest,_,_,_,hk⟩
  · rw [hk]
    exact quiet_of_mem (fun _ hi => hi) (fun _ hi => hi) rfl
  · rw [hk]
    exact quiet_of_mem (fun _ hi => hi) (fun _ hi => List.mem_of_mem_erase hi) rfl
  · rw [hk]
    exact quiet_of_mem (fun _ hi => hi) (fun _ hi => hi) rfl

/-- Matching is about the certificate, the context and their history. -/
theorem contextMatches_congr (derived : Fin n → Option (PublicKey×OscoreContext))
    {derived' : Fin n → Option (PublicKey×OscoreContext)} {i : Fin n}
    (hcert : (k'.item i).cert=(k.item i).cert) (hctx : (k'.item i).context=(k.item i).context)
    (hd : derived' i=derived i) : ContextMatches k' derived' i ↔ ContextMatches k derived i := by
  unfold ContextMatches
  rw [hctx,hcert,hd]

/-- Quiet changes keep what the history says. -/
theorem ContextInv.quiet (h : ContextInv k ecdh peer derived failed) (hq : Quiet k k') :
    ContextInv k' ecdh peer derived failed := by
  refine ⟨fun i hi => h.waiting i (hq.waiting i hi),fun i hi => ?_,fun i hi hne => ?_⟩
  · rw [hq.cert i]
    exact h.child i hi
  · rw [contextMatches_congr derived (hq.cert i) (hq.context i) rfl]
    exact h.usable i (hq.publicKeys i hi) hne

/-- `keystore_add` forgets the history of the block that it fills: the block
held no usable key and no child ran for it. -/
theorem ContextInv.add {E : Env n} {rx : Memb m (TrustRxItem n)}
    {R : List (Requester n m×PublicKey)} (h : ContextInv k ecdh peer derived failed)
    (hL : Ledger E k ecdh rx R) (cert : Certificate) :
    ContextInv (keystoreAdd E k cert).1 ecdh peer
      (fun i => if i∈(keystoreAdd E k cert).1.publicKeysToVerify.drop k.publicKeysToVerify.length
        then none else derived i)
      (fun i => !decide (i∈(keystoreAdd E k cert).1.publicKeysToVerify.drop
        k.publicKeysToVerify.length) && failed i) := by
  have hquiet : ∀ k', Quiet k k' → k'.publicKeysToVerify=k.publicKeysToVerify →
      ContextInv k' ecdh peer
        (fun i => if i∈k'.publicKeysToVerify.drop k.publicKeysToVerify.length then none
          else derived i)
        (fun i => !decide (i∈k'.publicKeysToVerify.drop k.publicKeysToVerify.length) &&
          failed i) := fun k' hq hw => by
    simpa [hw] using h.quiet hq
  have hspares := keystoreAdd_spares E k cert
  rcases keystoreAdd_cases E k cert hL.store.owns with ⟨_,ha⟩ | ⟨_,_,hev,_⟩ | ⟨_,_,k',j,hev,hj,ha⟩
  · rw [ha]
    exact hquiet k (quiet_of_mem (fun _ hi => hi) (fun _ hi => hi) rfl) rfl
  · exact hquiet _ (quiet_of_evicted hev) hev.publicKeysToVerify
  · rw [ha] at hspares ⊢
    have hfree := (hev.owns hL.store.owns).not_mem hj
    have hnew : ∀ i∈k'.publicKeys, i≠j := fun i hi he => hfree (List.mem_append_left _ (he ▸ hi))
    have hneww : j∉k'.publicKeysToVerify := fun hi => hfree (List.mem_append_right _ hi)
    have hwait : (k'.enqueue j cert).publicKeysToVerify=k.publicKeysToVerify++[j] := by
      rw [←hev.publicKeysToVerify]
      exact listAdd_of_not_mem hneww
    have hitem : ∀ i≠j, (k'.enqueue j cert).item i=k.item i := fun i hne => by
      rw [enqueue_item_other hne,Store.item,hev.mem]
    rw [hwait,List.drop_left]
    simp only [List.mem_singleton]
    refine ⟨fun i hi => ?_,fun i hi => ?_,fun i hi hne => ?_⟩
    · rw [hwait] at hi
      by_cases hij : i=j
      · simp [hij]
      · have hold := h.waiting i ((List.mem_append.mp hi).resolve_right fun hs =>
          hij (List.mem_singleton.mp hs))
        simp [hij,hold]
    · have hmem := (hL.child i hi).1
      have hne := hnew i (hspares i hmem (hL.pinned (users_pos_of_ecdh hi)))
      simpa [hne,hitem i hne] using h.child i hi
    · have hij := hnew i hi
      have hold := h.usable i (hev.publicKeys.subset hi) hne
      rw [contextMatches_congr derived (congrArg PublicKeyItem.cert (hitem i hij))
        (congrArg PublicKeyItem.context (hitem i hij)) (if_neg hij)]
      simpa [hij] using hold

/-- When a certificate has been verified its item becomes usable and its
child is started with the key that is stored. -/
theorem ContextInv.verified {E : Env n} (h : ContextInv k none peer derived failed) (hI : Inv E k)
    {e : VerifyEntry n} (he : e∈k.outstanding) (result : UInt8) :
    ContextInv (onVerified E ⟨k,none,[]⟩ e result []).store
      (onVerified E ⟨k,none,[]⟩ e result []).ecdh
      (match (onVerified E ⟨k,none,[]⟩ e result []).ecdh with
        | some i => ((onVerified E ⟨k,none,[]⟩ e result []).store.item i).cert.publicKey
        | none => peer) derived failed := by
  have hwait := (hI.entry he).2.2.waiting
  have hpush := listPush_of_not_mem (hI.not_verified hwait)
  unfold onVerified keystoreAddContinued
  split_ifs with hok
  · dsimp only
    have hq := quiet_pin {k with
        publicKeysToVerify := k.publicKeysToVerify.erase e.data
        publicKeys := listPush k.publicKeys e.data
        outstanding := k.outstanding.erase e
        addBufferInUse := false} e.data
    refine ⟨fun i hi => h.waiting i (List.mem_of_mem_erase hi),fun i hi => ?_,fun i hi hne => ?_⟩
    · cases hi
      exact ⟨rfl,h.waiting _ hwait⟩
    · have hold : i∈k.publicKeys := by
        have hmem : i∈listPush k.publicKeys e.data := hi
        rw [hpush] at hmem
        exact (List.mem_cons.mp hmem).resolve_left fun he => hne (congrArg some he.symm)
      rw [contextMatches_congr derived (hq.cert i) (hq.context i) rfl]
      exact h.usable i hold fun hn => nomatch hn
  · dsimp only
    exact h.quiet (quiet_of_mem (fun _ hi => hi) (fun _ hi => List.mem_of_mem_erase hi) rfl)

/-- What a child that fails leaves: nothing derived, and the failure recorded. -/
theorem ContextInv.ecdhFailed {E : Env n} {i : Fin n}
    (h : ContextInv k (some i) peer derived failed) (hnot : i∉k.publicKeysToVerify)
    (secret : List UInt8) :
    ContextInv (onEcdhDone E ⟨k,some i,[]⟩ i false secret).store none peer derived
      (Function.update failed i true) := by
  obtain ⟨_,hnone,_⟩ := h.child i rfl
  have hunpin : Quiet k (onEcdhDone E ⟨k,some i,[]⟩ i false secret).store :=
    (quiet_unpin k i).withPolled true
  refine ⟨fun j hj => ?_,fun _ hn => (nomatch hn),fun j hj _ => ?_⟩
  · have hne : j≠i := fun he => hnot (he ▸ hj)
    rw [Function.update_of_ne hne]
    exact h.waiting j hj
  · by_cases hij : j=i
    · subst hij
      exact Or.inl ⟨Function.update_self ..,hnone⟩
    · rw [contextMatches_congr derived (hunpin.cert j) (hunpin.context j) rfl,
        Function.update_of_ne hij]
      exact h.usable j hj fun he => hij (Option.some.inj he).symm

/-- What a child that succeeds leaves: the context of its item, derived with
the key that it was started with. -/
theorem ContextInv.ecdhDerived {E : Env n} {i : Fin n}
    (h : ContextInv k (some i) peer derived failed) (hnot : i∉k.publicKeysToVerify)
    (secret : List UInt8) :
    ContextInv (onEcdhDone E ⟨k,some i,[]⟩ i true secret).store none peer
      (Function.update derived i
        (((onEcdhDone E ⟨k,some i,[]⟩ i true secret).store.item i).context.map fun o => (peer,o)))
      failed := by
  obtain ⟨hpeer,_,hfailed⟩ := h.child i rfl
  have hunpin : Quiet (generateSharedSecret E k i secret)
      (onEcdhDone E ⟨k,some i,[]⟩ i true secret).store := (quiet_unpin _ i).withPolled true
  have hitem : (generateSharedSecret E k i secret).item i={k.item i with
      context := some ⟨secret,oscoreId E.ourCert.subject,oscoreId (k.subject i)⟩} :=
    k.memb.set_mem_same i _
  have hctx : ((onEcdhDone E ⟨k,some i,[]⟩ i true secret).store.item i).context=
      some ⟨secret,oscoreId E.ourCert.subject,oscoreId (k.subject i)⟩ := by
    refine (hunpin.context i).trans ?_
    rw [hitem]
  have hcert : ((onEcdhDone E ⟨k,some i,[]⟩ i true secret).store.item i).cert=
      (k.item i).cert := by
    refine (hunpin.cert i).trans ?_
    rw [hitem]
  rw [hctx]
  refine ⟨fun j hj => ?_,fun _ hn => (nomatch hn),fun j hj _ => ?_⟩
  · have hne : j≠i := fun he => hnot (he ▸ hj)
    rw [Function.update_of_ne hne]
    exact h.waiting j hj
  · by_cases hij : j=i
    · subst hij
      refine Or.inr ⟨hfailed,_,hctx,?_⟩
      rw [Function.update_self,hcert,Option.map_some,hpeer]
    · have hsame : (generateSharedSecret E k i secret).item j=k.item j :=
        k.memb.set_mem_other _ hij
      have hcert' := (hunpin.cert j).trans (congrArg PublicKeyItem.cert hsame)
      have hctx' := (hunpin.context j).trans (congrArg PublicKeyItem.context hsame)
      rw [contextMatches_congr derived hcert' hctx' (Function.update_of_ne hij ..),
        Function.update_of_ne hij]
      exact h.usable j hj fun he => hij (Option.some.inj he).symm

end Steps

/-- The invariant of the system together with that of the history. -/
structure Inv (T : TrustEnv n m v) (c : ContextState n m v) : Prop where
  /-- The invariant of the system. -/
  system : SystemInv T c.system
  /-- What the history says is right. -/
  contexts : ContextInv c.system.store c.system.ecdh c.peer c.derived c.failed

section Runs

variable {T : TrustEnv n m v} {s : System n m v} {c : ContextState n m v}

/-- `res_trust_post_handler` only pins and unpins. -/
theorem quiet_post (T : TrustEnv n m v) (s : System n m v) (src : IpAddr) (payload : List UInt8) :
    Quiet s.store (resTrustPostHandler T s src payload).1.store := by
  obtain ⟨_,hstore | ⟨key,hstore⟩ | ⟨key,hstore⟩⟩ := post_store T s src payload
  · rw [hstore]
    exact quiet_of_mem (fun _ hi => hi) (fun _ hi => hi) rfl
  · rw [hstore]
    exact quiet_pin s.store key
  · rw [hstore]
    exact (quiet_pin s.store key).trans (quiet_unpin _ key)

/-- A poll publishes nothing. -/
theorem quiet_poll (T : TrustEnv n m v) (s : System n m v) :
    Quiet s.store (keystorePoll T s).store ∧ (keystorePoll T s).ecdh=s.ecdh := by
  have hpolled : Quiet s.store {s.store with polled := false} :=
    quiet_of_mem (fun _ hi => hi) (fun _ hi => hi) rfl
  cases hecdh : s.ecdh with
  | some i =>
    have hpoll : keystorePoll T s={s with store := {s.store with polled := false}} := by
      unfold keystorePoll
      rw [hecdh]
    rw [hpoll]
    exact ⟨hpolled,hecdh⟩
  | none =>
    obtain ⟨hstore,hnone⟩ := poll_kept T s hecdh
    rw [hstore]
    exact ⟨hpolled.trans (quiet_addStart _ _ _),hnone⟩

/-- A step that is quiet and neither starts nor ends a child keeps the
history right. -/
theorem Inv.quiet (h : Inv T c) (hs : SystemInv T s) (hq : Quiet c.system.store s.store)
    (hecdh : s.ecdh=c.system.ecdh) : Inv T {c with system := s} := by
  refine ⟨hs,?_⟩
  have hc := h.contexts.quiet hq
  rw [←hecdh] at hc
  exact hc

/-- A delivered event that starts no child leaves the history alone. -/
theorem observe_deliver_of_same (entry : Fin v) (hecdh : s.ecdh=c.system.ecdh) :
    observe c s (.deliver entry)={c with system := s} := by
  unfold observe
  rw [hecdh]
  cases c.system.ecdh with
  | none => rfl
  | some i => rfl

/-- A delivered verdict about a certificate keeps the history right. -/
theorem Inv.verified (h : Inv T c) {entry : Fin v} (hentry : entry∈c.system.verifier.posted)
    {e : VerifyEntry n} (he : (c.system.verifier.memb.mem entry).data=.keystore e)
    (hs : SystemInv T (keystoreVerified T c.system entry e)) :
    Inv T (observe c (keystoreVerified T c.system entry e) (.deliver entry)) := by
  obtain ⟨hout,hidle⟩ := h.system.entry hentry he
  set p := onVerified T.keystore ⟨c.system.store,none,[]⟩ e
    (c.system.verifier.memb.mem entry).result [] with hp
  have hstore : (keystoreVerified T c.system entry e).store=p.store := by
    unfold keystoreVerified
    rw [hidle]
    rfl
  have hecdh : (keystoreVerified T c.system entry e).ecdh=p.ecdh := by
    unfold keystoreVerified
    rw [hidle]
    rfl
  have hc := h.contexts
  rw [hidle] at hc
  have hv := hc.verified h.system.ledger.store hout (c.system.verifier.memb.mem entry).result
  rw [←hp,←hstore,←hecdh] at hv
  unfold observe
  rw [hidle]
  cases hchild : (keystoreVerified T c.system entry e).ecdh with
  | none =>
    rw [hchild] at hv
    refine ⟨hs,?_⟩
    dsimp only
    rw [hchild]
    exact hv
  | some i =>
    rw [hchild] at hv
    refine ⟨hs,?_⟩
    dsimp only
    rw [hchild]
    exact hv

/-- The end of the child keeps the history right. -/
theorem Inv.ecdhDone (h : Inv T c) {success : Bool} {secret : List UInt8}
    (hrun : c.system.ecdh≠none) (hs : SystemInv T (keystoreEcdhDone T c.system success secret)) :
    Inv T (observe c (keystoreEcdhDone T c.system success secret) (.ecdhDone success secret)) := by
  obtain ⟨i,hi⟩ := Option.ne_none_iff_exists'.mp hrun
  have hnot : i∉c.system.store.publicKeysToVerify := fun hw =>
    h.system.ledger.store.not_verified hw (h.system.ledger.child i hi).1
  have hstore : (keystoreEcdhDone T c.system success secret).store=
      (onEcdhDone T.keystore ⟨c.system.store,some i,[]⟩ i success secret).store := by
    unfold keystoreEcdhDone
    rw [hi]
  have hecdh : (keystoreEcdhDone T c.system success secret).ecdh=none := by
    unfold keystoreEcdhDone
    rw [hi]
    rfl
  have hc := h.contexts
  rw [hi] at hc
  unfold observe
  rw [hi]
  dsimp only
  cases success with
  | true =>
    refine ⟨hs,?_⟩
    rw [if_pos rfl]
    dsimp only
    rw [hecdh,hstore]
    exact hc.ecdhDerived hnot secret
  | false =>
    refine ⟨hs,?_⟩
    rw [if_neg Bool.noConfusion]
    dsimp only
    rw [hecdh,hstore]
    exact hc.ecdhFailed hnot secret

/-- Every admitted step of the system keeps the history right. -/
theorem Inv.run (h : Inv T c) {op : TrustReceive.Op v n} (hop : TrustReceive.Admitted c.system op) :
    Inv T (observe c (TrustReceive.step T c.system op) op) := by
  have hs := h.system.step hop
  cases op with
  | post src payload =>
    have hq := quiet_post T c.system src payload
    have hecdh := (post_store T c.system src payload).1
    exact h.quiet hs hq hecdh
  | add cert => exact ⟨hs,h.contexts.add h.system.ledger cert⟩
  | remove item =>
    exact h.quiet hs (quiet_of_evicted (keystoreRemove_evicted T.keystore c.system.store item)) rfl
  | poll =>
    obtain ⟨hq,hecdh⟩ := quiet_poll T c.system
    exact h.quiet hs hq hecdh
  | dequeue => exact h.quiet hs (quiet_of_mem (fun _ hi => hi) (fun _ hi => hi) rfl) rfl
  | verify codes => exact h.quiet hs (quiet_of_mem (fun _ hi => hi) (fun _ hi => hi) rfl) rfl
  | deliver entry =>
    dsimp only [TrustReceive.step] at hs ⊢
    unfold deliver at hs ⊢
    split at hs
    · next e he => exact h.verified hop he hs
    · next r hr =>
      have hecdh : (trustRxContinue T c.system entry r).ecdh=c.system.ecdh := rfl
      rw [observe_deliver_of_same entry hecdh]
      exact h.quiet hs (quiet_unpin _ _) hecdh
  | ecdhDone success secret => exact h.ecdhDone hop hs

/-- Every admitted step keeps the invariant. -/
theorem Inv.step (h : Inv T c) {op : Op v n} (hop : Admitted c op) : Inv T (step T c op) := by
  cases op with
  | run op => exact h.run hop
  | protect ep => exact h

/-- While the history is right, a request gets the context of its peer
exactly when the child of the item has ended and has not failed. -/
theorem Inv.protectedByPeer_iff (h : Inv T c) (op : Op v n) :
    ProtectedByPeer T c op ↔ ChildSucceeded T c op := by
  cases op with
  | run op => exact Iff.rfl
  | protect ep =>
    refine forall_congr' fun i => forall_congr' fun hi => ?_
    have hmem : i∈c.system.store.publicKeys := by
      unfold keystoreProtectCoapWithOscore at hi
      split at hi
      · cases hi
      · exact mem_of_keystoreFindAddr hi
    constructor
    · rintro ⟨o,ho,hd⟩
      have hne : c.system.ecdh≠some i := fun he => by
        rw [(h.contexts.child i he).2.1] at hd
        cases hd
      rcases h.contexts.usable i hmem hne with ⟨_,hnone⟩ | ⟨hok,_⟩
      · rw [hnone] at hd
        cases hd
      · exact ⟨hne,hok⟩
    · rintro ⟨hne,hok⟩
      rcases h.contexts.usable i hmem hne with ⟨hfail,_⟩ | ⟨_,hmatch⟩
      · rw [hok] at hfail
        cases hfail
      · exact hmatch

end Runs

/-- The history is right once both processes are initialised. -/
theorem inv_init (T : TrustEnv n m v) (item : Fin m → TrustRxItem n) (data : Requester n m) :
    Inv T (init T item data) := by
  have hempty : ContextInv (emptyStore n) none (init T item data).peer (fun _ => none)
      fun _ => false :=
    ⟨fun _ _ => ⟨rfl,rfl⟩,fun _ hi => (nomatch hi),fun _ hi => (nomatch hi)⟩
  refine ⟨systemInv_init T item data,?_⟩
  have hadd := hempty.add (ledger_emptyStore T.keystore item) T.keystore.rootCert
  simp only [ite_self,Bool.and_false] at hadd
  exact hadd

/-- **Contexts over a whole run.** However additions, evictions, verdicts and
ECDH children interleave, every context that is set on a request was derived
from ECDH with the key of the certificate that its item holds now, exactly if
every request is protected with an item whose child has ended and has not
failed. -/
theorem protectedByPeer_along_iff (T : TrustEnv n m v) (item : Fin m → TrustRxItem n)
    (data : Requester n m) (ops : List (Op v n))
    (hops : Along (step T) Admitted (init T item data) ops) :
    Along (step T) (ProtectedByPeer T) (init T item data) ops ↔
      Along (step T) (ChildSucceeded T) (init T item data) ops :=
  along_congr (fun _ _ hI hA => hI.step hA) (fun _ op hI _ => hI.protectedByPeer_iff op)
    (inv_init T item data) hops

/-- The condition is decided by the item found. -/
instance decidableChildSucceeded (T : TrustEnv n m v) (c : ContextState n m v) :
    ∀ op : Op v n, Decidable (ChildSucceeded T c op)
  | .run _ => .isTrue trivial
  | .protect ep => inferInstanceAs
      (Decidable (∀ i∈keystoreProtectCoapWithOscore T.addresses c.system.store ep, _))

/-- The root certificate is verified and published. -/
def samplePublish : List (Op 3 2) :=
  [.run .poll,.run .dequeue,.run (.verify Verifier.allSucceed),.run (.deliver ⟨0,by decide⟩)]

/-- The sample system with its history. -/
def sampleContexts : ContextState 2 2 3 := init sampleTrustEnv sampleItems sampleData

/-- A request after the child of the root's item has ended. -/
def sampleRequest : List (Op 3 2) :=
  samplePublish++[.run (.ecdhDone true [7]),.protect samplePeerAddr]

/-- That request is protected with the right context. -/
theorem protectedByPeer_along_iff_sample :
    Along (step sampleTrustEnv) (ProtectedByPeer sampleTrustEnv) sampleContexts sampleRequest :=
  (protectedByPeer_along_iff sampleTrustEnv sampleItems sampleData sampleRequest
    (by decide +kernel)).mpr (by decide +kernel)

/-- A request to the holder of the root certificate while its child still
runs is protected with a context that was never derived. -/
theorem not_protectedByPeer_of_running_child :
    Along (step sampleTrustEnv) Admitted sampleContexts
        (samplePublish++[.protect samplePeerAddr]) ∧
      ¬Along (step sampleTrustEnv) (ProtectedByPeer sampleTrustEnv) sampleContexts
        (samplePublish++[.protect samplePeerAddr]) := by
  decide +kernel

end TrustAlloc.KeystoreContexts
