import TrustAlloc.KeyServer
import TrustAlloc.KeystoreContexts
import TrustAlloc.Timers

/-!
# Requests for public keys

A node asks the key server for the certificate of an address, one request at a
time as long as its lock lasts, and queues what it is sent for verification.
Requests and responses may be lost, repeated and overtaken, others add to the
keystore and ask the server as well. What a node gets is the certificate of an
address that it has asked for.
-/

namespace TrustAlloc.KeyRequests

open AddressConversions Addresses CertificateCodec CertificateDecoding Certificates EdgeInfo
open KeyFiles KeyServer Keystore Pools RootKeystore Runs Timers
open TrustModels (CoapRequestStatus content205)

section Source

variable {n : ℕ} {D Priv : Type}

/-- The static data of `keystore.c` that requests are about. -/
structure Node (n : ℕ) where
  /-- The keystore. -/
  store : Store n
  /-- `in_use`. -/
  inUse : TimedUnlock
  /-- `key_req_payload`. -/
  keyReqPayload : IpAddr

/-- Duration of `in_use` in ticks, of which a second has `CLOCK_SECOND`. -/
def inUseDuration (clockSecond : ℕ) : ℕ := 1*60*clockSecond

/-- `request_public_key`, with the value it returns. The flag tells whether
`coap_send_request` takes the request. -/
def requestPublicKey (A : AddressEnv) (now : ℕ) (s : Node n) (addr : IpAddr) (sent : Bool) :
    Node n×Bool :=
  let eui64 := eui64FromIpaddr A (uipIp6addrNormalise addr)
  if (keystoreFind s.store eui64).isSome=true then (s,false)
  else if (keystoreFindInList s.store eui64 s.store.publicKeysToVerify).isSome=true then
    ({s with store := {s.store with polled := true}},false)
  else if s.inUse.locked=true then (s,false)
  else if sent=true then
    ({s with keyReqPayload := addr,inUse := timedUnlockLock now s.inUse},true)
  else ({s with keyReqPayload := addr},false)

/-- `request_public_key_callback`, for a status and the response there is. -/
def requestPublicKeyCallback (E : Env n) (cbor : PublishDecoder D) (s : Node n)
    (response : Response) : CoapRequestStatus → Node n
  | .response =>
    if response.code≠content205 then s
    else match certificateDecode cbor (cbor.init response.payload) with
      | .ok (_,cert) => {s with store := (keystoreAdd E s.store cert).1}
      | .error _ => s
  | .finished | .more | .timeout | .blockError =>
    {s with inUse := timedUnlockUnlock s.inUse}

/-- The node, the server and what is under way between them. -/
structure World (n : ℕ) (Priv : Type) where
  /-- Clock of the node. -/
  now : ℕ
  /-- The node. -/
  node : Node n
  /-- The keystore of the server. -/
  server : RootKeystore.Keystore IpAddr Priv PublicKey (List UInt8)
  /-- Addresses in the requests that were sent, in order. -/
  asked : List IpAddr
  /-- Responses that were sent. -/
  responses : List Response
  /-- Certificates that others have added. -/
  others : List Certificate

/-- What a node and a server are built against. -/
structure Setting (n : ℕ) (D Priv : Type) where
  /-- What the keystore is built against. -/
  keystore : Env n
  /-- Address conversions. -/
  addresses : AddressEnv
  /-- The decoder. -/
  cbor : PublishDecoder D
  /-- What the server makes of CBOR payloads. -/
  loads : List UInt8 → Option IpAddr
  /-- The deployment. -/
  deployment : Deployment Priv

/-- What can happen next, in any order. -/
inductive Op (n : ℕ) where
  /-- Time passes. -/
  | tick (ticks : ℕ)
  /-- `request_public_key`. -/
  | request (addr : IpAddr) (sent : Bool)
  /-- A request reaches the server, perhaps once more. -/
  | serve (addr : IpAddr)
  /-- Someone else asks the server. -/
  | otherRequest (request : Request)
  /-- Something else is looked up there. -/
  | lookup (lookup : Lookup IpAddr)
  /-- `request_public_key_callback`. -/
  | callback (response : Response) (status : CoapRequestStatus)
  /-- The timer of the lock expires. -/
  | expire
  /-- Others use the keystore of the node. -/
  | store (op : Keystore.Op n)

/-- A certificate that an operation of others adds. -/
def addedBy : Keystore.Op n → List Certificate
  | .add cert => [cert]
  | _ => []

/-- The bytes of a request. -/
def requestFor (addr : IpAddr) : Request := ⟨.octetStream,addr.toList⟩

/-- One step. -/
def step (S : Setting n D Priv) (w : World n Priv) : Op n → World n Priv
  | .tick ticks => {w with now := w.now+ticks}
  | .request addr sent => {w with
      node := (requestPublicKey S.addresses w.now w.node addr sent).1
      asked := if (requestPublicKey S.addresses w.now w.node addr sent).2=true then w.asked++[addr]
        else w.asked}
  | .serve addr => {w with
      server := (renderGet S.loads w.server (requestFor addr)).2
      responses := w.responses++[(renderGet S.loads w.server (requestFor addr)).1]}
  | .otherRequest request => {w with server := (renderGet S.loads w.server request).2}
  | .lookup lookup => {w with server := after S.deployment.exchange w.server lookup}
  | .callback response status =>
    {w with node := requestPublicKeyCallback S.keystore S.cbor w.node response status}
  | .expire => {w with node := {w.node with inUse := timedUnlockUnlock w.node.inUse}}
  | .store op => {w with
      node := {w.node with store := Keystore.step S.keystore w.node.store op}
      others := w.others++addedBy op}

/-- Only requests that were sent are served, a callback that is about a response
is about one that was sent, and only timers that are due expire. -/
def Admitted (w : World n Priv) : Op n → Prop
  | .serve addr => addr∈w.asked
  | .callback response status => status=.response → response∈w.responses
  | .expire => w.node.inUse.timer.Expired w.now
  | .store op => Keystore.Admitted w.node.store op
  | _ => True

/-- Admission is decided by the world. -/
instance decidableAdmitted (w : World n Priv) : ∀ op : Op n, Decidable (Admitted w op)
  | .serve addr => inferInstanceAs (Decidable (addr∈w.asked))
  | .callback response status =>
    inferInstanceAs (Decidable (status=.response → response∈w.responses))
  | .expire => inferInstanceAs (Decidable (w.node.inUse.timer.Expired w.now))
  | .store op => Keystore.decidableAdmitted w.node.store op
  | .tick _ | .request _ _ | .otherRequest _ | .lookup _ => .isTrue trivial

/-- A node after `keystore_init`, and a server on the directory of a deployment. -/
def init (S : Setting n D Priv) (clockSecond : ℕ) : World n Priv where
  now := 0
  node := ⟨keystoreInit S.keystore,timedUnlockInit (inUseDuration clockSecond),.replicate 16 0⟩
  server := RootKeystore.init (deployed S.deployment)
  asked := []
  responses := []
  others := []

end Source

section Stores

variable {n : ℕ} {E : Env n} {k k' : Store n}

/-- Nothing is listed but what was, with the certificate it had. -/
def Kept (k k' : Store n) : Prop :=
  ∀ i∈k'.listed, i∈k.listed ∧ (k'.item i).cert=(k.item i).cert

/-- Changes that are quiet list nothing. -/
theorem kept_of_quiet (h : KeystoreContexts.Quiet k k') : Kept k k' := fun i hi =>
  ⟨List.mem_append.mpr ((List.mem_append.mp hi).imp (h.publicKeys i) (h.waiting i)),h.cert i⟩

/-- A certificate is listed for a new item, or not at all. -/
theorem listed_add (hown : Owns k.memb.used k.listed) (cert : Certificate) :
    ∀ i∈(keystoreAdd E k cert).1.listed,
      i∈k.listed ∧ ((keystoreAdd E k cert).1.item i).cert=(k.item i).cert ∨
        ((keystoreAdd E k cert).1.item i).cert=cert := by
  intro i hi
  rcases keystoreAdd_cases E k cert hown with ⟨_,ha⟩ | ⟨_,_,hev,_⟩ | ⟨_,_,k',j,hev,_,ha⟩
  · rw [ha] at hi ⊢
    exact Or.inl ⟨hi,rfl⟩
  · exact Or.inl (kept_of_quiet (KeystoreContexts.quiet_of_evicted hev) i hi)
  · rw [ha] at hi ⊢
    by_cases hij : i=j
    · subst hij
      exact Or.inr (congrArg PublicKeyItem.cert ((k'.memb.take i).set_mem_same i _))
    · have hitem : (k'.enqueue j cert).item i=k'.item i := enqueue_item_other hij cert
      refine Or.inl ?_
      have hmem : i∈k'.listed := by
        rcases List.mem_append.mp hi with hpublic | hwait
        · exact List.mem_append_left _ hpublic
        · rcases List.mem_append.mp hwait with hold | hnew
          · exact List.mem_append_right _ (List.mem_of_mem_erase hold)
          · exact absurd (List.mem_singleton.mp hnew) hij
      obtain ⟨hold,hcert⟩ := kept_of_quiet (KeystoreContexts.quiet_of_evicted hev) i hmem
      exact ⟨hold,(congrArg PublicKeyItem.cert hitem).trans hcert⟩

/-- Others list nothing but what they add. -/
theorem listed_step (h : Keystore.Inv E k) {op : Keystore.Op n} (hop : Keystore.Admitted k op) :
    ∀ i∈(Keystore.step E k op).listed,
      i∈k.listed ∧ ((Keystore.step E k op).item i).cert=(k.item i).cert ∨
        ((Keystore.step E k op).item i).cert∈addedBy op := by
  cases op with
  | add cert =>
    intro i hi
    exact (listed_add h.owns cert i hi).imp_right fun he => List.mem_singleton.mpr he
  | remove item =>
    intro i hi
    exact Or.inl (kept_of_quiet (KeystoreContexts.quiet_of_evicted
      (keystoreRemove_evicted E k item)) i hi)
  | pin item => exact fun i hi => Or.inl (kept_of_quiet (KeystoreContexts.quiet_pin k item) i hi)
  | unpin item =>
    exact fun i hi => Or.inl (kept_of_quiet (KeystoreContexts.quiet_unpin k item) i hi)
  | addStart queued =>
    exact fun i hi => Or.inl (kept_of_quiet (KeystoreContexts.quiet_addStart E k queued) i hi)
  | addContinued entry result =>
    have hwait : entry.data∈k.listed := List.mem_append_right _ (h.entry hop).2.2.waiting
    intro i hi
    refine Or.inl ?_
    show i∈k.listed ∧ ((keystoreAddContinued E k entry result).1.item i).cert=_
    have hi' : i∈(keystoreAddContinued E k entry result).1.listed := hi
    unfold keystoreAddContinued at hi' ⊢
    split_ifs at hi' ⊢
    · refine ⟨?_,rfl⟩
      rcases List.mem_append.mp hi' with hpublic | hrest
      · rcases List.mem_cons.mp hpublic with rfl | hold
        · exact hwait
        · exact List.mem_append_left _ (List.mem_of_mem_erase hold)
      · exact List.mem_append_right _ (List.mem_of_mem_erase hrest)
    · refine ⟨?_,rfl⟩
      rcases List.mem_append.mp hi' with hold | hrest
      · exact List.mem_append_left _ hold
      · exact List.mem_append_right _ (List.mem_of_mem_erase hrest)

end Stores

section Runs

variable {n : ℕ} {D Priv : Type} {S : Setting n D Priv} {w : World n Priv}

/-- Where a certificate in the keystore comes from: it is the root's, others
have added it, or it was issued to the global address of one that was asked for,
and the node looks it up under that address. -/
def Origin (S : Setting n D Priv) (w : World n Priv) (cert : Certificate) : Prop :=
  cert=S.keystore.rootCert ∨ cert∈w.others ∨ ∃ a∈w.asked,
    IssuedTo S.deployment (uipIp6addrNormalise a) cert ∧
      cert.subject=eui64FromIpaddr S.addresses (uipIp6addrNormalise a) ∧
        cert.publicKey=S.deployment.publicKey (S.deployment.key (uipIp6addrNormalise a))

/-- What holds of the requests at any time. -/
structure Provided (S : Setting n D Priv) (w : World n Priv) : Prop where
  /-- Where the certificates come from. -/
  certificates : ∀ i∈w.node.store.listed, Origin S w (w.node.store.item i).cert
  /-- While the lock is taken, what is in the buffer is what was asked for last. -/
  underWay : w.node.inUse.locked=true → w.asked.getLast?=some w.node.keyReqPayload

/-- The invariant of the runs. -/
structure Inv (S : Setting n D Priv) (w : World n Priv) : Prop where
  /-- The invariant of the keystore. -/
  store : Keystore.Inv S.keystore w.node.store
  /-- The server's caches are as the files are. -/
  server : Cached (deployed S.deployment) w.server
  /-- What is in a response that has a certificate. -/
  responses : ∀ r∈w.responses, r.code=content205 → ∃ a∈w.asked, ∃ cert,
    S.deployment.certOf (uipIp6addrNormalise a)=some cert ∧ r.payload=cert.encode S.deployment.dumps
  /-- Where the certificates come from, and what is in the buffer. -/
  provided : Provided S w

/-- More that was asked for or added is more origins. -/
theorem Origin.mono {w' : World n Priv} (hasked : ∀ a∈w.asked, a∈w'.asked)
    (hothers : ∀ c∈w.others, c∈w'.others) {cert : Certificate} (h : Origin S w cert) :
    Origin S w' cert :=
  h.imp_right fun h => h.imp (hothers cert) fun ⟨a,ha,hcert⟩ => ⟨a,hasked a ha,hcert⟩

/-- An error is not taken for a certificate. -/
theorem answer_content {d : Deployment Priv} {a : IpAddr} (h : (answer d a).code=content205) :
    ∃ cert, d.certOf (uipIp6addrNormalise a)=some cert ∧
      (answer d a).payload=cert.encode d.dumps := by
  unfold answer at h ⊢
  cases hcert : d.certOf (uipIp6addrNormalise a) with
  | none =>
    rw [hcert] at h
    have hother : unknownAddressRequest.code≠content205 := by decide
    exact absurd h hother
  | some cert => exact ⟨cert,rfl,rfl⟩

/-- A request that is not sent changes nothing that the invariant is about. -/
theorem requestPublicKey_cases (A : AddressEnv) (now : ℕ) (s : Node n) (addr : IpAddr)
    (sent : Bool) :
    (∃ polled, (requestPublicKey A now s addr sent).1.store={s.store with polled := polled}) ∧
      (((requestPublicKey A now s addr sent).2=false ∧
        (requestPublicKey A now s addr sent).1.inUse=s.inUse ∧ (s.inUse.locked=true →
          (requestPublicKey A now s addr sent).1.keyReqPayload=s.keyReqPayload)) ∨
        ((requestPublicKey A now s addr sent).2=true ∧
          (requestPublicKey A now s addr sent).1=
            {s with keyReqPayload := addr,inUse := timedUnlockLock now s.inUse})) := by
  unfold requestPublicKey
  dsimp only
  split_ifs with _ _ hlocked _
  · exact ⟨⟨s.store.polled,rfl⟩,Or.inl ⟨rfl,rfl,fun _ => rfl⟩⟩
  · exact ⟨⟨true,rfl⟩,Or.inl ⟨rfl,rfl,fun _ => rfl⟩⟩
  · exact ⟨⟨s.store.polled,rfl⟩,Or.inl ⟨rfl,rfl,fun _ => rfl⟩⟩
  · exact ⟨⟨s.store.polled,rfl⟩,Or.inr ⟨rfl,rfl⟩⟩
  · exact ⟨⟨s.store.polled,rfl⟩,Or.inl ⟨rfl,rfl,fun h => absurd h hlocked⟩⟩

variable {At : D → Option ℕ → List UInt8 → Prop}

/-- What the node makes of a certificate of the deployment. -/
theorem decode_certOf (hcbor : CborCodec.LawfulDecoder S.cbor At)
    (hstandard : Standard S.addresses) {a : IpAddr} {cert : SignedCertificate}
    (h : S.deployment.certOf (uipIp6addrNormalise a)=some cert) :
    ∃ dec c, certificateDecode S.cbor (S.cbor.init (cert.encode S.deployment.dumps))=.ok (dec,c) ∧
      IssuedTo S.deployment (uipIp6addrNormalise a) c ∧
        c.subject=eui64FromIpaddr S.addresses (uipIp6addrNormalise a) ∧
          c.publicKey=S.deployment.publicKey (S.deployment.key (uipIp6addrNormalise a)) := by
  have hmem : (uipIp6addrNormalise a,cert)∈S.deployment.certs := by
    obtain ⟨e,he,hcert⟩ := Option.map_eq_some_iff.mp h
    have haddress : e.1=uipIp6addrNormalise a := by simpa using List.find?_some he
    rw [←haddress,←hcert]
    exact List.mem_of_find?_eq_some he
  obtain ⟨tags,serial,hclass,hissued⟩ := certs_issued S.deployment hmem
  dsimp only at hissued
  have hto : IssuedTo S.deployment (uipIp6addrNormalise a)
      (issued S.deployment (uipIp6addrNormalise a) tags serial) := by
    rw [IssuedTo,←hissued]
    exact hmem
  rw [hissued,encode_signedOf S.deployment.canonical hclass]
  have hinit : ∀ bytes, At (S.cbor.init bytes) none (bytes++[]) := fun bytes => by
    rw [List.append_nil]
    exact hcbor.init bytes
  obtain ⟨dec,hdecode,-⟩ := decodes_certificate hcbor
    (issued S.deployment (uipIp6addrNormalise a) tags serial) hclass (hinit _) (by decide)
  obtain ⟨hsubject,hkey⟩ := issuedTo_spec S.deployment hto
  exact ⟨dec,_,hdecode,hto,hsubject.trans (eui64FromIpaddr_eq_ipToEui64 hstandard _).symm,hkey⟩

/-- A request, sent or not, keeps the invariant. -/
theorem Inv.request (h : Inv S w) (addr : IpAddr) (sent : Bool) :
    Inv S (step S w (.request addr sent)) := by
  obtain ⟨⟨polled,hstore⟩,hcases⟩ := requestPublicKey_cases S.addresses w.now w.node addr sent
  have hmore : ∀ a∈w.asked, a∈(step S w (.request addr sent)).asked := by
    intro a ha
    show a∈(if _ then w.asked++[addr] else w.asked)
    split_ifs
    · exact List.mem_append_left _ ha
    · exact ha
  have hkept : (step S w (.request addr sent)).node.store={w.node.store with polled := polled} :=
    hstore
  refine ⟨?_,h.server,fun r hr hcode => ?_,⟨fun i hi => ?_,fun hlocked => ?_⟩⟩
  · rw [hkept]
    exact h.store.withPolled polled
  · obtain ⟨a,ha,cert,hcert⟩ := h.responses r hr hcode
    exact ⟨a,hmore a ha,cert,hcert⟩
  · rw [hkept] at hi ⊢
    exact (h.provided.certificates i hi).mono hmore fun _ hc => hc
  · show (if _ then w.asked++[addr] else w.asked).getLast?=
      some (requestPublicKey S.addresses w.now w.node addr sent).1.keyReqPayload
    rcases hcases with ⟨hfalse,hlock,hpayload⟩ | ⟨htrue,hnode⟩
    · have hold : w.node.inUse.locked=true := by
        rw [←hlock]
        exact hlocked
      rw [hfalse,if_neg Bool.noConfusion,hpayload hold]
      exact h.provided.underWay hold
    · rw [htrue,if_pos rfl,hnode,List.getLast?_concat]

/-- A response keeps it, and so does the end of a request. -/
theorem Inv.callback (h : Inv S w) (hcbor : CborCodec.LawfulDecoder S.cbor At)
    (hstandard : Standard S.addresses) {response : Response} {status : CoapRequestStatus}
    (hop : status=.response → response∈w.responses) :
    Inv S (step S w (.callback response status)) := by
  have hunlock : Inv S {w with node := {w.node with inUse := timedUnlockUnlock w.node.inUse}} :=
    ⟨h.store,h.server,h.responses,⟨h.provided.certificates,fun hlocked => nomatch hlocked⟩⟩
  cases status with
  | finished => exact hunlock
  | more => exact hunlock
  | timeout => exact hunlock
  | blockError => exact hunlock
  | response =>
    by_cases hcode : response.code=content205
    · obtain ⟨a,ha,cert,hcert,hpayload⟩ := h.responses response (hop rfl) hcode
      obtain ⟨dec,c,hdecode,hissued⟩ := decode_certOf hcbor hstandard hcert
      have hnode : requestPublicKeyCallback S.keystore S.cbor w.node response .response=
          {w.node with store := (keystoreAdd S.keystore w.node.store c).1} := by
        rw [requestPublicKeyCallback,if_neg (not_not.mpr hcode),hpayload,hdecode]
      have hstep : step S w (.callback response .response)=
          {w with node := {w.node with store := (keystoreAdd S.keystore w.node.store c).1}} :=
        congrArg (fun node => {w with node := node}) hnode
      rw [hstep]
      refine ⟨h.store.add c,h.server,h.responses,⟨fun i hi => ?_,h.provided.underWay⟩⟩
      rcases listed_add h.store.owns c i hi with ⟨hmem,hsame⟩ | hnew
      · show Origin S _ ((keystoreAdd S.keystore w.node.store c).1.item i).cert
        rw [hsame]
        exact h.provided.certificates i hmem
      · show Origin S _ ((keystoreAdd S.keystore w.node.store c).1.item i).cert
        rw [hnew]
        exact Or.inr (Or.inr ⟨a,ha,hissued⟩)
    · have hnode : requestPublicKeyCallback S.keystore S.cbor w.node response .response=w.node := by
        rw [requestPublicKeyCallback,if_pos hcode]
      have hstep : step S w (.callback response .response)=w :=
        congrArg (fun node => {w with node := node}) hnode
      rw [hstep]
      exact h

/-- Every admitted step keeps the invariant. -/
theorem Inv.step (h : Inv S w) (hcbor : CborCodec.LawfulDecoder S.cbor At)
    (hstandard : Standard S.addresses) {op : Op n} (hop : Admitted w op) :
    Inv S (step S w op) := by
  cases op with
  | tick ticks => exact ⟨h.store,h.server,h.responses,⟨h.provided.certificates,h.provided.underWay⟩⟩
  | request addr sent => exact h.request addr sent
  | serve addr =>
    refine ⟨h.store,cached_renderGet S.loads h.server _,fun r hr hcode => ?_,
      ⟨h.provided.certificates,h.provided.underWay⟩⟩
    rcases List.mem_append.mp hr with hold | hnew
    · exact h.responses r hold hcode
    · rw [List.mem_singleton.mp hnew,requestFor,renderGet_octetStream _ _ h.server] at hcode ⊢
      obtain ⟨cert,hcert⟩ := answer_content hcode
      exact ⟨addr,hop,cert,hcert⟩
  | otherRequest request =>
    exact ⟨h.store,cached_renderGet S.loads h.server request,h.responses,
      ⟨h.provided.certificates,h.provided.underWay⟩⟩
  | lookup lookup =>
    exact ⟨h.store,h.server.after _ lookup,h.responses,
      ⟨h.provided.certificates,h.provided.underWay⟩⟩
  | callback response status => exact h.callback hcbor hstandard hop
  | expire =>
    exact ⟨h.store,h.server,h.responses,⟨h.provided.certificates,fun hlocked => nomatch hlocked⟩⟩
  | store op =>
    refine ⟨h.store.step hop,h.server,h.responses,⟨fun i hi => ?_,h.provided.underWay⟩⟩
    have hmore : ∀ c∈w.others, c∈w.others++addedBy op := fun c hc => List.mem_append_left _ hc
    show Origin S (KeyRequests.step S w (.store op))
      ((Keystore.step S.keystore w.node.store op).item i).cert
    rcases listed_step h.store hop i hi with ⟨hmem,hsame⟩ | hnew
    · rw [hsame]
      refine (h.provided.certificates i hmem).mono ?_ hmore
      exact fun _ ha => ha
    · exact Or.inr (Or.inl (List.mem_append_right _ hnew))

/-- It holds at first. -/
theorem inv_init (S : Setting n D Priv) (clockSecond : ℕ) : Inv S (init S clockSecond) := by
  refine ⟨inv_keystoreInit S.keystore,cached_init _,fun _ hr => (nomatch hr),
    ⟨fun i hi => ?_,fun hlocked => nomatch hlocked⟩⟩
  rcases listed_add (inv_emptyStore S.keystore).owns S.keystore.rootCert i hi with ⟨hmem,-⟩ | hnew
  · exact nomatch hmem
  · exact Or.inl hnew

/-- **Requested certificates.** In every run, whatever is lost, repeated or
overtaken and whoever else uses the keystore and the server, a certificate that
requests have put into the keystore was issued to an address that was asked for,
has its key, and is looked up under it. -/
theorem provided_always (S : Setting n D Priv) (hcbor : CborCodec.LawfulDecoder S.cbor At)
    (hstandard : Standard S.addresses) (clockSecond : ℕ) (ops : List (Op n))
    (hops : Along (KeyRequests.step S) Admitted (init S clockSecond) ops) :
    Always (KeyRequests.step S) (Provided S) (init S clockSecond) ops :=
  (always_of_step (fun _ _ hI hA => hI.step hcbor hstandard hA) (inv_init S clockSecond)
    hops).mono fun _ h => h.provided

end Runs

section Rounds

variable {n : ℕ} {D Priv : Type} {S : Setting n D Priv} {w : World n Priv}
  {At : D → Option ℕ → List UInt8 → Prop}

/-- A round: a request that is sent, served and answered, and its end. -/
def roundOf (d : Deployment Priv) (addr : IpAddr) : List (Op n) :=
  [.request addr true,.serve addr,.callback (answer d addr) .response,
    .callback (answer d addr) .finished]

/-- Nothing is known of an address, and nothing is being asked. -/
structure Ready (S : Setting n D Priv) (w : World n Priv) (addr : IpAddr) : Prop where
  /-- The identity of the address has no key. -/
  unknown : ∀ i∈w.node.store.publicKeys,
    w.node.store.subject i≠eui64FromIpaddr S.addresses (uipIp6addrNormalise addr)
  /-- The lock is free. -/
  free : w.node.inUse.locked=false

/-- The node has queued a certificate for an address, with which messages from
there can be verified once the certificate has been. -/
def Obtained (S : Setting n D Priv) (verifies : PublicKey → List UInt8 → Bool) (addr : IpAddr)
    (k k' : Store n) : Prop :=
  ∃ i, k'.publicKeysToVerify=k.publicKeysToVerify++[i] ∧
    k'.subject i=eui64FromIpaddr S.addresses (uipIp6addrNormalise addr) ∧
      (k'.item i).cert.publicKey=
        S.deployment.publicKey (S.deployment.key (uipIp6addrNormalise addr)) ∧
        RootSigned S.keystore verifies (k'.item i).cert

/-- The store after a round. -/
def storeAfter (S : Setting n D Priv) (addr : IpAddr) (k : Store n) : Store n :=
  match S.deployment.certOf (uipIp6addrNormalise addr) with
  | none => k
  | some cert =>
    match certificateDecode S.cbor (S.cbor.init (cert.encode S.deployment.dumps)) with
    | .ok (_,c) => (keystoreAdd S.keystore k c).1
    | .error _ => k

/-- A request that is ready is sent. -/
theorem requestPublicKey_ready {addr : IpAddr} (h : Ready S w addr) :
    requestPublicKey S.addresses w.now w.node addr true=
      ({w.node with keyReqPayload := addr,inUse := timedUnlockLock w.now w.node.inUse},true) := by
  have hnone : keystoreFindInList w.node.store
      (eui64FromIpaddr S.addresses (uipIp6addrNormalise addr)) w.node.store.publicKeys=none :=
    (keystoreFindInList_none_iff _ _ _).mpr h.unknown
  have hwait : keystoreFindInList w.node.store
      (eui64FromIpaddr S.addresses (uipIp6addrNormalise addr))
      w.node.store.publicKeysToVerify=none := hnone
  unfold requestPublicKey
  dsimp only
  rw [keystoreFind,hnone,hwait,h.free]
  rfl

/-- A response is answered with what the files have. -/
theorem requestPublicKeyCallback_answer (s : Node n) (addr : IpAddr) :
    requestPublicKeyCallback S.keystore S.cbor s (answer S.deployment addr) .response=
      {s with store := storeAfter S addr s.store} := by
  unfold requestPublicKeyCallback storeAfter answer
  cases S.deployment.certOf (uipIp6addrNormalise addr) with
  | none => rfl
  | some cert =>
    dsimp only
    rw [if_neg (not_not.mpr rfl)]
    cases certificateDecode S.cbor (S.cbor.init (cert.encode S.deployment.dumps)) <;> rfl

/-- A round can happen, and what it leaves. -/
theorem round_eq (h : Inv S w) {addr : IpAddr} (hready : Ready S w addr) :
    Along (step S) Admitted w (roundOf S.deployment addr) ∧
      ((roundOf S.deployment addr).foldl (step S) w).node.store=storeAfter S addr w.node.store ∧
        ((roundOf S.deployment addr).foldl (step S) w).node.inUse.locked=false := by
  have hrequest := requestPublicKey_ready hready
  have hasked : (step S w (.request addr true)).asked=w.asked++[addr] := by
    show (if _ then _ else _)=_
    rw [hrequest]
    rfl
  have hstore : (step S w (.request addr true)).node.store=w.node.store := by
    show (requestPublicKey S.addresses w.now w.node addr true).1.store=_
    rw [hrequest]
  have hserved : (renderGet S.loads w.server (requestFor addr)).1=answer S.deployment addr :=
    renderGet_octetStream S.deployment S.loads h.server addr
  refine ⟨⟨trivial,?_,fun _ => ?_,fun hstatus => (nomatch hstatus),trivial⟩,?_,rfl⟩
  · show addr∈(step S w (.request addr true)).asked
    rw [hasked]
    exact List.mem_append_right _ (List.mem_singleton_self addr)
  · show answer S.deployment addr∈
      w.responses++[(renderGet S.loads w.server (requestFor addr)).1]
    rw [hserved]
    exact List.mem_append_right _ (List.mem_singleton_self _)
  · show (requestPublicKeyCallback S.keystore S.cbor (step S w (.request addr true)).node
      (answer S.deployment addr) .response).store=_
    rw [requestPublicKeyCallback_answer,hstore]

/-- What a round leaves in the store. -/
theorem obtained_storeAfter (hcbor : CborCodec.LawfulDecoder S.cbor At)
    (hstandard : Standard S.addresses) (hheads : CborCodec.StandardHeads S.keystore.nanocbor)
    (hroot : IssuedTo S.deployment rootIpAddr S.keystore.rootCert)
    {verifies : PublicKey → List UInt8 → Bool} (hverifies : ∀ key message,
      verifies (S.deployment.publicKey key) (message++(S.deployment.sign key message).bytes)=true)
    (h : Inv S w) {addr : IpAddr} (hready : Ready S w addr) :
    Obtained S verifies addr w.node.store (storeAfter S addr w.node.store) ↔
      uipIp6addrNormalise addr∈S.deployment.ips.map Prod.snd ∧
        HasRoom S.keystore w.node.store := by
  have hlonger : ∀ {k' : Store n}, k'.publicKeysToVerify=w.node.store.publicKeysToVerify →
      ¬Obtained S verifies addr w.node.store k' := by
    rintro k' hsame ⟨i,hwait,-⟩
    have hlength := congrArg List.length (hsame.symm.trans hwait)
    simp at hlength
  unfold storeAfter
  cases hcert : S.deployment.certOf (uipIp6addrNormalise addr) with
  | none =>
    have hnot : uipIp6addrNormalise addr∉S.deployment.ips.map Prod.snd := fun hmem => by
      obtain ⟨cert,hsome⟩ := (certOf_isSome_iff S.deployment _).mpr hmem
      rw [hcert] at hsome
      exact nomatch hsome
    exact ⟨fun hobtained => absurd hobtained (hlonger rfl),fun hhost => absurd hhost.1 hnot⟩
  | some cert =>
    have hhost : uipIp6addrNormalise addr∈S.deployment.ips.map Prod.snd :=
      (certOf_isSome_iff S.deployment _).mp ⟨cert,hcert⟩
    obtain ⟨dec,c,hdecode,hissued,hsubject,hkey⟩ := decode_certOf hcbor hstandard hcert
    have hunknown : ∀ i∈w.node.store.publicKeys, w.node.store.subject i≠c.subject := by
      intro i hi
      rw [hsubject]
      exact hready.unknown i hi
    dsimp only
    rw [hdecode]
    dsimp only
    rcases keystoreAdd_cases S.keystore w.node.store c h.store.owns with
      ⟨⟨i,hi,hsame⟩,-⟩ | ⟨-,hroom,hev,-⟩ | ⟨-,hroom,k',i,hev,hfree,hadd⟩
    · exact absurd hsame (hunknown i hi)
    · exact ⟨fun hobtained => absurd hobtained (hlonger hev.publicKeysToVerify),
        fun hall => absurd hall.2 hroom⟩
    · refine ⟨fun _ => ⟨hhost,hroom⟩,fun _ => ⟨i,?_⟩⟩
      have hitem : ((k'.enqueue i c).item i).cert=c :=
        congrArg PublicKeyItem.cert ((k'.memb.take i).set_mem_same i _)
      have hnew : i∉k'.publicKeysToVerify := fun hi =>
        (hev.owns h.store.owns).not_mem hfree (List.mem_append_right _ hi)
      rw [hadd]
      dsimp only
      rw [Store.subject,hitem]
      refine ⟨(listAdd_of_not_mem hnew).trans (by rw [hev.publicKeysToVerify]),hsubject,hkey,?_⟩
      rw [RootSigned,(issuedTo_spec S.deployment hroot).2,issuedTo_signed S.deployment hissued,
        ←tbsEncoding_eq hheads]
      exact hverifies _ _

/-- **A request gets what there is.** In every state that a run can reach, a
request for an address of which nothing is known is answered with a certificate
for the identity and with the key of the address, which will be verified,
exactly if the address, made global, is that of a host and the keystore has
room; and the next request can be made. -/
theorem obtained_iff (S : Setting n D Priv) (hcbor : CborCodec.LawfulDecoder S.cbor At)
    (hstandard : Standard S.addresses) (hheads : CborCodec.StandardHeads S.keystore.nanocbor)
    (hroot : IssuedTo S.deployment rootIpAddr S.keystore.rootCert)
    {verifies : PublicKey → List UInt8 → Bool} (hverifies : ∀ key message,
      verifies (S.deployment.publicKey key) (message++(S.deployment.sign key message).bytes)=true)
    (clockSecond : ℕ) (ops : List (Op n))
    (hops : Along (step S) Admitted (init S clockSecond) ops) (addr : IpAddr)
    (hready : Ready S (ops.foldl (step S) (init S clockSecond)) addr) :
    Along (step S) Admitted (init S clockSecond) (ops++roundOf S.deployment addr) ∧
      ((ops++roundOf S.deployment addr).foldl (step S) (init S clockSecond)).node.inUse.locked=
          false ∧
        (Obtained S verifies addr (ops.foldl (step S) (init S clockSecond)).node.store
            ((ops++roundOf S.deployment addr).foldl (step S) (init S clockSecond)).node.store ↔
          uipIp6addrNormalise addr∈S.deployment.ips.map Prod.snd ∧
            HasRoom S.keystore (ops.foldl (step S) (init S clockSecond)).node.store) := by
  have hinv : Inv S (ops.foldl (step S) (init S clockSecond)) :=
    (always_of_step (fun _ _ hI hA => hI.step hcbor hstandard hA) (inv_init S clockSecond)
      hops).last
  obtain ⟨hround,hstore,hlock⟩ := round_eq hinv hready
  rw [List.foldl_append]
  refine ⟨along_append.mpr ⟨hops,hround⟩,hlock,?_⟩
  rw [hstore]
  exact obtained_storeAfter hcbor hstandard hheads hroot hverifies hinv hready

/-- A node of the sample deployment that knows its root. -/
def sampleSetting : Setting 2 CborCodec.Position (List UInt8) where
  keystore := {sampleEnv 2 with
    rootCert := issued sampleDeployment rootIpAddr ⟨6⟩ 0
    nanocbor := CborCodec.standardNanocbor.toNanocbor}
  addresses := sampleAddressEnv
  cbor := CborCodec.byteDecoder.toPublishDecoder
  loads _ := none
  deployment := sampleDeployment

/-- A link-local address of the other host. -/
def sampleAddr : IpAddr :=
  withIid ⟨#[0xFE,0x80,0,0,0,0,0,0,0,0,0,0,0,0,0,0],rfl⟩ (iid (eui64ToIpv6 (.replicate 8 7)))

/-- Signatures of the sample deployment are zeros. -/
def zeroVerifies (_key : PublicKey) (message : List UInt8) : Bool :=
  decide ((message.drop (message.length-64))=.replicate 64 0)

/-- A request, its round and a refused request of someone else. -/
def sampleOps : List (Op 2) :=
  .tick 5::.otherRequest ⟨.other,[]⟩::roundOf sampleDeployment sampleAddr

/-- Time passes before a request. -/
def sampleTick : List (Op 2) := [.tick 5]

/-- The requested certificate is that of the host. -/
theorem provided_always_sample :
    Always (step sampleSetting) (Provided sampleSetting) (init sampleSetting 128) sampleOps :=
  provided_always sampleSetting CborCodec.byteDecoder_lawful.toLawfulDecoder standard_sample 128
    sampleOps (by decide +kernel)

/-- Signatures of zeros are verified. -/
theorem zeroVerifies_sample (key : List UInt8) (message : List UInt8) :
    zeroVerifies (sampleDeployment.publicKey key)
      (message++(sampleDeployment.sign key message).bytes)=true := by
  have hzeros : (sampleDeployment.sign key message).bytes=.replicate 64 0 := rfl
  rw [zeroVerifies,hzeros,List.length_append,List.length_replicate,Nat.add_sub_cancel,
    List.drop_left]
  exact decide_eq_true rfl

/-- Nothing is known of the host. -/
theorem ready_sample :
    Ready sampleSetting (sampleTick.foldl (step sampleSetting) (init sampleSetting 128))
      sampleAddr := ⟨by decide +kernel,by decide +kernel⟩

/-- The host's certificate is obtained from the start. -/
theorem obtained_iff_sample :
    Along (step sampleSetting) Admitted (init sampleSetting 128)
        (sampleTick++roundOf sampleSetting.deployment sampleAddr) ∧
      ((sampleTick++roundOf sampleSetting.deployment sampleAddr).foldl (step sampleSetting)
          (init sampleSetting 128)).node.inUse.locked=false ∧
        (Obtained sampleSetting zeroVerifies sampleAddr
            (sampleTick.foldl (step sampleSetting) (init sampleSetting 128)).node.store
            ((sampleTick++roundOf sampleSetting.deployment sampleAddr).foldl (step sampleSetting)
              (init sampleSetting 128)).node.store ↔
          uipIp6addrNormalise sampleAddr∈sampleSetting.deployment.ips.map Prod.snd ∧
            HasRoom sampleSetting.keystore (sampleTick.foldl (step sampleSetting)
              (init sampleSetting 128)).node.store) :=
  obtained_iff sampleSetting CborCodec.byteDecoder_lawful.toLawfulDecoder standard_sample
    CborCodec.standardNanocbor_heads.toStandardHeads issuedTo_root_sample zeroVerifies_sample
    128 sampleTick ⟨trivial,trivial⟩ sampleAddr ready_sample

end Rounds

end TrustAlloc.KeyRequests
