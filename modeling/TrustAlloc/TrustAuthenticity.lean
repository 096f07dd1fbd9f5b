import TrustAlloc.KeystoreContexts
import TrustAlloc.TaskPackets

/-!
# Where merged trust information comes from

A node merges what the verifier has said yes to. Two things are told over whole
runs of the keystore, the received items and the verifier: every message that
was accepted is under way, has been merged or has been refused, just once and
as the message of its sender; and what has been merged was verified under a
key that the root has signed, as long as the verifier tells its verdicts.
-/

namespace TrustAlloc.TrustAuthenticity

open Addresses Certificates EdgeInfo Keystore KeystoreContexts NrfCrypto Pools Runs TrustReceive

variable {n m v : ℕ}

section History

/-- Trust information as it was accepted. -/
structure Message where
  /-- The address that it came from. -/
  src : IpAddr
  /-- Its bytes, with the signature at the end. -/
  payload : List UInt8

/-- What is in front of the signature. -/
def body (payload : List UInt8) : List UInt8 := payload.take (payload.length-dtlsEcSigSize)

/-- Who a message is looked up as, and what there is to merge of it. -/
def update (A : AddressEnv) (p : Message) : Eui64×List UInt8 :=
  (eui64FromIpaddr A (uipIp6addrNormalise p.src),body p.payload)

/-- The system with what has happened in it. -/
structure Observed (n m v : ℕ) where
  /-- The keystore, the received items and the verifier. -/
  system : System n m v
  /-- The messages that were accepted, in order. -/
  accepted : List Message
  /-- What was not merged, as it was not verified. -/
  refused : List (Eui64×List UInt8)
  /-- Keys and messages for which `nrf_crypto_ecdsa_verify` has succeeded. -/
  verified : List (PublicKey×List UInt8)

/-- What a posted entry would have merged, if its verdict is negative. -/
def refusedBy (T : TrustEnv n m v) (s : System n m v) (entry : Fin v) :
    List (Eui64×List UInt8) :=
  match (s.verifier.memb.mem entry).data with
  | .keystore _ => []
  | .trust r =>
    if T.keystore.platformCryptoSuccess (s.verifier.memb.mem entry).result=true then []
    else [(s.store.subject (s.trustRxMemb.mem r).key,body (s.verifier.memb.mem entry).message)]

/-- What a call has verified. -/
def verifiedCall : Option EcdsaVerifyCall → List (PublicKey×List UInt8)
  | none => []
  | some c => if c.code=nrfSuccess then [(c.pubkey,c.message++c.signature)] else []

/-- What a run of the verifier has verified. -/
def verifiedBy (T : TrustEnv n m v) (s : System n m v) (codes : VerifyCodes) :
    List (PublicKey×List UInt8) :=
  match s.verifier.vitem with
  | none => []
  | some i => verifiedCall (eccVerify T.errors codes s.verifier.result
      (s.verifier.memb.mem i).pubkey (s.verifier.memb.mem i).message).2

/-- One step, observed. -/
def step (T : TrustEnv n m v) (o : Observed n m v) (op : TrustReceive.Op v n) : Observed n m v where
  system := TrustReceive.step T o.system op
  accepted := match op with
    | .post src payload =>
      if (resTrustPostHandler T o.system src payload).2=none then o.accepted++[⟨src,payload⟩]
      else o.accepted
    | _ => o.accepted
  refused := match op with
    | .deliver entry => o.refused++refusedBy T o.system entry
    | _ => o.refused
  verified := match op with
    | .verify codes => o.verified++verifiedBy T o.system codes
    | _ => o.verified

/-- The steps that can happen. -/
def Admitted (o : Observed n m v) : TrustReceive.Op v n → Prop := TrustReceive.Admitted o.system

/-- Admission is decided by the current state. -/
instance decidableAdmitted (o : Observed n m v) (op : TrustReceive.Op v n) :
    Decidable (Admitted o op) := TrustReceive.decidableAdmitted o.system op

/-- The verifier tells the verdict of a job. -/
def Told (T : TrustEnv n m v) (o : Observed n m v) : TrustReceive.Op v n → Prop
  | .verify codes => Verifier.JobTold T.errors o.system.verifier (.verify codes true)
  | _ => True

/-- Telling is decided by the codes. -/
instance decidableTold (T : TrustEnv n m v) (o : Observed n m v) :
    ∀ op : TrustReceive.Op v n, Decidable (Told T o op)
  | .verify codes =>
    Verifier.decidableJobTold T.errors o.system.verifier (.verify codes true)
  | .post _ _ | .add _ | .remove _ | .poll | .dequeue | .deliver _ | .ecdhDone _ _ =>
    .isTrue trivial

/-- Nothing has happened yet. -/
def init (T : TrustEnv n m v) (item : Fin m → TrustRxItem n) (data : Requester n m) :
    Observed n m v := ⟨TrustReceive.init T item data,[],[],[]⟩

end History

section Statement

/-- What an entry of the verifier would merge, if it is about trust information. -/
def held (s : System n m v) (i : Fin v) : Option (Eui64×List UInt8) :=
  match (s.verifier.memb.mem i).data with
  | .keystore _ => none
  | .trust r =>
    some (s.store.subject (s.trustRxMemb.mem r).key,body (s.verifier.memb.mem i).message)

/-- What is under way. -/
def waiting (s : System n m v) : List (Eui64×List UInt8) := s.underWay.filterMap (held s)

/-- Signatures that have been verified. -/
def verifies (verified : List (PublicKey×List UInt8)) (key : PublicKey) (message : List UInt8) :
    Bool := decide ((key,message)∈verified)

/-- Something was merged for a message that was accepted and verified under a
key that the root has signed for its sender. -/
def Signed (T : TrustEnv n m v) (o : Observed n m v) (u : Eui64×List UInt8) : Prop :=
  ∃ p∈o.accepted, u=update T.addresses p ∧ ∃ cert, cert.subject=u.1 ∧
    (cert.publicKey,p.payload)∈o.verified ∧ RootSigned T.keystore (verifies o.verified) cert

/-- Everything that was merged was signed. -/
def AllSigned (T : TrustEnv n m v) (o : Observed n m v) : Prop :=
  ∀ u∈o.system.processed, Signed T o u

end Statement

section Entries

variable {D : Type} {A : Allocator v} {err : ErrorCodes} {s : Verifier.State v D}

/-- What was said about an entry when it was queued. -/
def content (s : Verifier.State v D) (i : Fin v) : D×List UInt8×PublicKey :=
  ((s.memb.mem i).data,(s.memb.mem i).message,(s.memb.mem i).pubkey)

/-- Ending a job leaves that alone. -/
theorem content_finish (s : Verifier.State v D) (i : Fin v) (run : UInt32×Option EcdsaVerifyCall)
    (j : Fin v) : content (Verifier.finish s i run true) j=content s j := by
  by_cases hj : j=i
  · subst hj
    simp [content,Verifier.finish]
  · simp [content,Verifier.finish,Memb.set_mem_other _ _ hj]

/-- It moves its entry. -/
theorem pending_finish (s : Verifier.State v D) (i : Fin v)
    (run : UInt32×Option EcdsaVerifyCall) :
    (pending (Verifier.finish s i run true)).Perm
      (i::s.messagesToVerify++(s.posted++s.lost)) := by
  refine List.perm_iff_count.mpr fun a => ?_
  simp only [pending,Verifier.finish,if_true,Option.toList_none,List.nil_append,List.cons_append,
    List.count_append,List.count_cons,List.count_nil]
  omega

/-- Taking an entry moves it. -/
theorem moved_dequeue (err : ErrorCodes) (s : Verifier.State v D) :
    (pending (Verifier.dequeue err s true)).Perm (pending s) ∧
      ∀ j, content (Verifier.dequeue err s true) j=content s j := by
  rcases Verifier.dequeue_cases err s true with hd | ⟨i,rest,hv,hq,hd | ⟨_,hd⟩⟩
  · rw [hd]
    exact ⟨.refl _,fun _ => rfl⟩
  · have hsame : pending s=i::rest++(s.posted++s.lost) := by
      rw [pending,hv,hq]
      rfl
    rw [hd,hsame]
    exact ⟨pending_finish {s with messagesToVerify := rest} i _,content_finish _ i _⟩
  · have hsame : pending s=pending {s with messagesToVerify := rest,vitem := some i} := by
      simp only [pending,hv,hq]
      rfl
    rw [hd,hsame]
    exact ⟨.refl _,fun _ => rfl⟩

/-- So does running a job. -/
theorem moved_verify (err : ErrorCodes) (s : Verifier.State v D) (codes : VerifyCodes) :
    (pending (Verifier.verify err s codes true)).Perm (pending s) ∧
      ∀ j, content (Verifier.verify err s codes true) j=content s j := by
  unfold Verifier.verify
  split
  · exact ⟨.refl _,fun _ => rfl⟩
  · next i hv =>
    have hsame : pending s=i::s.messagesToVerify++(s.posted++s.lost) := by
      rw [pending,hv]
      rfl
    rw [hsame]
    exact ⟨pending_finish s i _,content_finish s i _⟩

/-- A queued entry comes in addition, with what was said about it. -/
theorem added_queue (hI : Verifier.Inv s) {i : Fin v} (hi : A.pick s.memb.used=some i) (data : D)
    (message : List UInt8) (pubkey : PublicKey) :
    let s' := Verifier.queueMessageToVerify A s data message pubkey
    (pending s').Perm (i::pending s) ∧ content s' i=(data,message,pubkey) ∧
      ∀ j∈pending s, content s' j=content s j := by
  have hnew : i∉pending s := hI.owns.not_mem (A.pick_free hi)
  simp only [Verifier.queueMessageToVerify,hi]
  refine ⟨List.perm_iff_count.mpr fun a => ?_,by simp [content],fun j hj => ?_⟩
  · simp only [pending,List.count_append,List.count_cons,List.count_nil]
    omega
  · have hne : j≠i := fun he => hnew (he ▸ hj)
    simp [content,Memb.set_mem_other _ _ hne]

/-- Giving back a posted entry removes it. -/
theorem removed_done (s : Verifier.State v D) {i : Fin v} (hi : i∈s.posted) :
    (pending s).Perm (i::pending (Verifier.queueMessageToVerifyDone s i)) := by
  have hcount := fun a => (List.perm_cons_erase hi).count_eq a
  refine List.perm_iff_count.mpr fun a => ?_
  have ha := hcount a
  simp only [pending,Verifier.queueMessageToVerifyDone,List.count_append,List.count_cons] at ha ⊢
  omega

end Entries

section Letters

/-- What matters of an entry here. -/
inductive Letter (n : ℕ) where
  /-- A certificate, with the message and the key that it is verified with. -/
  | certificate (e : VerifyEntry n) (message : List UInt8) (pubkey : PublicKey)
  /-- Trust information, with its sender and what is in its buffer. -/
  | trust (subject : Eui64) (message buffer : List UInt8)

/-- What would be merged of it. -/
def Letter.held : Letter n → Option (Eui64×List UInt8)
  | .certificate _ _ _ => none
  | .trust subject message _ => some (subject,body message)

/-- It is still what was queued. -/
def Letter.Fits (A : AddressEnv) (accepted : List Message) : Letter n → Prop
  | .certificate e message pubkey => message=e.message ∧ pubkey=e.pubkey
  | .trust subject message buffer => buffer.take message.length=message ∧
      ∃ p∈accepted, p.payload=message ∧ (update A p).1=subject

/-- What matters of an entry in a state. -/
def letter (s : System n m v) (i : Fin v) : Letter n :=
  match content s.verifier i with
  | (.keystore e,message,pubkey) => .certificate e message pubkey
  | (.trust r,message,_) =>
    .trust (s.store.subject (s.trustRxMemb.mem r).key) message (s.trustRxMemb.mem r).payloadBuf

variable {T : TrustEnv n m v} {s s' : System n m v} {i : Fin v}

/-- What is held can be told from that. -/
theorem held_eq (s : System n m v) (i : Fin v) : held s i=(letter s i).held := by
  unfold held letter content
  cases (s.verifier.memb.mem i).data <;> rfl

/-- A letter about trust information. -/
theorem letter_trust {r : Fin m} (h : (s.verifier.memb.mem i).data=.trust r) :
    letter s i=.trust (s.store.subject (s.trustRxMemb.mem r).key) (s.verifier.memb.mem i).message
      (s.trustRxMemb.mem r).payloadBuf := by
  unfold letter content
  rw [h]

/-- A letter about a certificate. -/
theorem letter_keystore {e : VerifyEntry n} (h : (s.verifier.memb.mem i).data=.keystore e) :
    letter s i=.certificate e (s.verifier.memb.mem i).message (s.verifier.memb.mem i).pubkey := by
  unfold letter content
  rw [h]

/-- The certificates of pinned keys stay. -/
def SameCerts (k k' : Store n) : Prop :=
  ∀ i∈k.publicKeys, (k.item i).pinCount≠0 → (k'.item i).cert=(k.item i).cert

/-- An entry under way about a received item. -/
theorem mem_requests {r : Fin m} (hi : i∈pending s.verifier)
    (hr : (s.verifier.memb.mem i).data=.trust r) :
    r∈(requests s.verifier).filterMap trustItem := by
  refine List.mem_filterMap.mpr ⟨request s.verifier i,List.mem_map_of_mem hi,?_⟩
  rw [request,hr,trustItem]

/-- Letters stay if what was queued, the received items and the certificates of
pinned keys stay. -/
theorem letters_kept (h : SystemInv T s)
    (hcontent : ∀ i∈pending s.verifier, content s'.verifier i=content s.verifier i)
    (hrx : ∀ r∈(requests s.verifier).filterMap trustItem,
      s'.trustRxMemb.mem r=s.trustRxMemb.mem r)
    (hcert : SameCerts s.store s'.store) :
    ∀ i∈pending s.verifier, letter s' i=letter s i := by
  intro i hi
  unfold letter
  rw [hcontent i hi]
  cases hdata : (s.verifier.memb.mem i).data with
  | keystore e => simp only [content,hdata]
  | trust r =>
    have hr := mem_requests hi hdata
    have hkey := hcert _ (h.ledger.keys r hr) (h.ledger.pinned (users_pos_of_waiting hr))
    simp only [content,hdata,hrx r hr,Store.subject,hkey]

/-- A step that neither accepts nor delivers trust information. -/
structure Moved (s s' : System n m v) : Prop where
  /-- Nothing is merged. -/
  processed : s'.processed=s.processed
  /-- As much is under way. -/
  held : ((pending s'.verifier).filterMap (held s')).Perm ((pending s.verifier).filterMap (held s))
  /-- Entries stay, or are new ones of certificates. -/
  letters : ∀ i∈pending s'.verifier, (i∈pending s.verifier ∧ letter s' i=letter s i) ∨
    ∃ e, letter s' i=.certificate e e.message e.pubkey

/-- What is held by entries whose letters stay. -/
theorem filterMap_held {l : List (Fin v)} (h : ∀ i∈l, letter s' i=letter s i) :
    l.filterMap (held s')=l.filterMap (held s) :=
  List.filterMap_congr fun i hi => by rw [held_eq,held_eq,h i hi]

/-- Entries that are only moved. -/
theorem Moved.of_perm (hprocessed : s'.processed=s.processed)
    (hperm : (pending s'.verifier).Perm (pending s.verifier))
    (hletters : ∀ i∈pending s.verifier, letter s' i=letter s i) : Moved s s' := by
  refine ⟨hprocessed,?_,fun i hi => ?_⟩
  · rw [←filterMap_held hletters]
    exact hperm.filterMap _
  · have hold := hperm.mem_iff.mp hi
    exact Or.inl ⟨hold,hletters i hold⟩

/-- A certificate that is queued. -/
theorem Moved.of_cons {j : Fin v} {e : VerifyEntry n} (hprocessed : s'.processed=s.processed)
    (hperm : (pending s'.verifier).Perm (j::pending s.verifier))
    (hletters : ∀ i∈pending s.verifier, letter s' i=letter s i)
    (hj : letter s' j=.certificate e e.message e.pubkey) : Moved s s' := by
  have hnone : TrustAuthenticity.held s' j=none := by
    rw [held_eq,hj]
    rfl
  refine ⟨hprocessed,?_,fun i hi => ?_⟩
  · have hall := hperm.filterMap (TrustAuthenticity.held s')
    rw [List.filterMap_cons_none hnone,filterMap_held hletters] at hall
    exact hall
  · rcases List.mem_cons.mp (hperm.mem_iff.mp hi) with rfl | hold
    · exact Or.inr ⟨e,hj⟩
    · exact Or.inl ⟨hold,hletters i hold⟩

/-- A certificate that is delivered. -/
theorem Moved.of_erase {j : Fin v} {e : VerifyEntry n} (hprocessed : s'.processed=s.processed)
    (hperm : (pending s.verifier).Perm (j::pending s'.verifier))
    (hletters : ∀ i∈pending s'.verifier, letter s' i=letter s i)
    (hj : (s.verifier.memb.mem j).data=.keystore e) : Moved s s' := by
  have hnone : TrustAuthenticity.held s j=none := by
    rw [held_eq,letter_keystore hj]
    rfl
  refine ⟨hprocessed,?_,fun i hi => ?_⟩
  · have hall := hperm.filterMap (TrustAuthenticity.held s)
    rw [List.filterMap_cons_none hnone,←filterMap_held hletters] at hall
    exact hall.symm
  · exact Or.inl ⟨hperm.mem_iff.mpr (List.mem_cons_of_mem _ hi),hletters i hi⟩

end Letters

section Moves

variable {T : TrustEnv n m v} {s : System n m v} {k k' : Store n}

/-- Quiet changes keep the certificates. -/
theorem sameCerts_of_quiet (h : Quiet k k') : SameCerts k k' := fun i _ _ => h.cert i

/-- `keystore_add` keeps them, as it spares pinned keys. -/
theorem sameCerts_add {E : Env n} (hown : Owns k.memb.used k.listed) (cert : Certificate) :
    SameCerts k (keystoreAdd E k cert).1 := by
  have hspares := keystoreAdd_spares E k cert
  rcases keystoreAdd_cases E k cert hown with ⟨_,ha⟩ | ⟨_,_,hev,_⟩ | ⟨_,_,k',j,hev,hj,ha⟩
  · rw [ha]
    exact fun _ _ _ => rfl
  · exact sameCerts_of_quiet (quiet_of_evicted hev)
  · rw [ha] at hspares ⊢
    intro i hi hpinned
    have hkept := hspares i hi hpinned
    have hne : i≠j := fun he =>
      (hev.owns hown).not_mem hj (List.mem_append_left _ (he ▸ hkept))
    rw [enqueue_item_other hne,Store.item,hev.mem]

/-- A verdict about a certificate rewrites none. -/
theorem sameCerts_onVerified (E : Env n) (k : Store n) (e : VerifyEntry n) (result : UInt8) :
    SameCerts k (onVerified E ⟨k,none,[]⟩ e result []).store := by
  unfold onVerified keystoreAddContinued
  split_ifs with hok
  · exact fun i _ _ => (quiet_pin _ e.data).cert i
  · exact fun _ _ _ => rfl

/-- Nor does the end of the ECDH child. -/
theorem sameCerts_onEcdhDone (E : Env n) (k : Store n) (i : Fin n) (success : Bool)
    (secret : List UInt8) : SameCerts k (onEcdhDone E ⟨k,some i,[]⟩ i success secret).store := by
  cases success with
  | true =>
    have hderived : ∀ j, ((generateSharedSecret E k i secret).item j).cert=(k.item j).cert :=
      setItem_cert i (v:={k.item i with
        context := some ⟨secret,oscoreId E.ourCert.subject,oscoreId (k.subject i)⟩}) rfl
    exact fun j _ _ => ((quiet_unpin _ i).cert j).trans (hderived j)
  | false => exact fun j _ _ => (quiet_unpin k i).cert j

/-- A step of the keystore alone. -/
theorem moved_store (h : SystemInv T s) {s' : System n m v} (hprocessed : s'.processed=s.processed)
    (hverifier : s'.verifier=s.verifier) (hrx : s'.trustRxMemb=s.trustRxMemb)
    (hcert : SameCerts s.store s'.store) : Moved s s' := by
  refine .of_perm hprocessed (by rw [hverifier]) (letters_kept h ?_ ?_ hcert)
  · exact fun _ _ => by rw [hverifier]
  · exact fun _ _ => by rw [hrx]

/-- A step of the verifier. -/
theorem moved_verifier (h : SystemInv T s) {verifier : Verifier.State v (Requester n m)}
    (hmoved : (pending verifier).Perm (pending s.verifier) ∧
      ∀ j, content verifier j=content s.verifier j) : Moved s {s with verifier := verifier} :=
  .of_perm rfl hmoved.1
    (letters_kept h (fun j _ => hmoved.2 j) (fun _ _ => rfl) fun _ _ _ => rfl)

/-- A poll of the keystore process. -/
theorem moved_poll (h : SystemInv T s) : Moved s (keystorePoll T s) := by
  unfold keystorePoll
  split
  · exact moved_store h rfl rfl rfl fun _ _ _ => rfl
  · next hecdh =>
    have hL := h.ledger.withPolled false
    have hpolled : Quiet s.store {s.store with polled := false} :=
      quiet_of_mem (fun _ hi => hi) (fun _ hi => hi) rfl
    have hcert := sameCerts_of_quiet (hpolled.trans (quiet_addStart T.keystore _
      (T.verifyAllocator.pick s.verifier.memb.used).isSome))
    rw [hecdh] at hL
    dsimp only
    rcases hL.addStart (T.verifyAllocator.pick s.verifier.memb.used).isSome with
      ⟨hout,_⟩ | ⟨hroom,e,hout,_⟩
    · rw [hout,List.drop_length]
      exact moved_store h rfl rfl rfl hcert
    · obtain ⟨i,hi⟩ := Option.isSome_iff_exists.mp hroom
      obtain ⟨hperm,hnew,hold⟩ := added_queue h.queue.verifier hi (.keystore e) e.message e.pubkey
      rw [hout,List.drop_left,List.foldl_cons,List.foldl_nil]
      simp only [queueMessageToVerify,hi] at hcert ⊢
      refine .of_cons (e:=e) rfl hperm (letters_kept h hold (fun _ _ => rfl) hcert) ?_
      unfold letter
      rw [hnew]

/-- A verdict about a certificate. -/
theorem moved_keystore (h : SystemInv T s) {entry : Fin v} (he : entry∈s.verifier.posted)
    {e : VerifyEntry n} (hdata : (s.verifier.memb.mem entry).data=.keystore e) :
    Moved s (keystoreVerified T s entry e) := by
  have hperm := removed_done s.verifier he
  unfold keystoreVerified
  rw [(h.entry he hdata).2]
  dsimp only
  refine .of_erase rfl hperm (fun i hi => ?_) hdata
  refine letters_kept h ?_ ?_ ?_ i (hperm.mem_iff.mpr (List.mem_cons_of_mem _ hi))
  · exact fun _ _ => rfl
  · exact fun _ _ => rfl
  · exact sameCerts_onVerified T.keystore s.store e _

/-- The end of the ECDH child. -/
theorem moved_ecdhDone (h : SystemInv T s) (success : Bool) (secret : List UInt8) :
    Moved s (keystoreEcdhDone T s success secret) := by
  unfold keystoreEcdhDone
  split
  · exact moved_store h rfl rfl rfl fun _ _ _ => rfl
  · next i hi =>
    rw [hi]
    exact moved_store h rfl rfl rfl (sameCerts_onEcdhDone T.keystore s.store i success secret)

/-- Trust information that is accepted is a new entry, with its sender. -/
structure Accepts (T : TrustEnv n m v) (s s' : System n m v) (p : Message) : Prop where
  /-- Nothing is merged. -/
  processed : s'.processed=s.processed
  /-- The entry. -/
  entry : ∃ i buffer, (pending s'.verifier).Perm (i::pending s.verifier) ∧
    letter s' i=.trust (update T.addresses p).1 p.payload buffer ∧
    buffer.take p.payload.length=p.payload
  /-- The others stay. -/
  letters : ∀ i∈pending s.verifier, letter s' i=letter s i

/-- A lookup by address finds an item of that identity. -/
theorem subject_of_keystoreFindAddr {A : AddressEnv} {addr : IpAddr} {key : Fin n}
    (h : keystoreFindAddr A k addr=some key) :
    k.subject key=eui64FromIpaddr A (uipIp6addrNormalise addr) := by
  unfold keystoreFindAddr keystoreFind keystoreFindInList at h
  simpa using List.find?_some h

/-- A received item with its entry, when there is room for both. -/
theorem accepts_acceptRx (h : SystemInv T s) {src : IpAddr} {payload : List UInt8} {key : Fin n}
    {r : Fin m} {i : Fin v} (hkey : keystoreFindAddr T.addresses s.store src=some key)
    (hr : T.rxAllocator.pick s.trustRxMemb.used=some r)
    (hi : T.verifyAllocator.pick s.verifier.memb.used=some i) :
    Accepts T s {s.acceptRx r key payload with
      verifier := Verifier.queueMessageToVerify T.verifyAllocator s.verifier (.trust r) payload
        (s.store.item key).cert.publicKey
      verifyHistory := s.verifyHistory.alloc i} ⟨src,payload⟩ := by
  have hnew := h.ledger.waiting.not_mem (T.rxAllocator.pick_free hr)
  have hsubject := subject_of_keystoreFindAddr hkey
  have hitem : (s.acceptRx r key payload).trustRxMemb.mem r=
      ⟨key,overwrite (s.trustRxMemb.mem r).payloadBuf 0 payload⟩ :=
    (s.trustRxMemb.take r).set_mem_same r _
  have hbuffer : (overwrite (s.trustRxMemb.mem r).payloadBuf 0 payload).take payload.length=
      payload := by
    have htake := TaskPackets.take_overwrite (Nat.zero_le (s.trustRxMemb.mem r).payloadBuf.length)
      (Nat.le_refl payload.length)
    rwa [Nat.zero_add,List.take_zero,List.nil_append,List.take_length] at htake
  obtain ⟨hperm,hentry,hold⟩ := added_queue h.queue.verifier hi (.trust r) payload
    (s.store.item key).cert.publicKey
  refine ⟨rfl,⟨i,overwrite (s.trustRxMemb.mem r).payloadBuf 0 payload,hperm,?_,hbuffer⟩,
    letters_kept h hold ?_ (sameCerts_of_quiet (quiet_pin s.store key))⟩
  · unfold letter
    dsimp only
    rw [hentry]
    dsimp only [update]
    rw [hitem,←hsubject]
    exact congrArg (Letter.trust · payload _)
      (congrArg Certificate.subject ((quiet_pin s.store key).cert key))
  · exact fun r' hr' => (s.trustRxMemb.take r).set_mem_other _ fun he => hnew (he ▸ hr')

/-- `res_trust_post_handler` accepts a message, or nothing happens to any. -/
theorem post_cases (h : SystemInv T s) (src : IpAddr) (payload : List UInt8) :
    let out := resTrustPostHandler T s src payload
    (out.2≠none ∧ Moved s out.1) ∨ (out.2=none ∧ Accepts T s out.1 ⟨src,payload⟩) := by
  have hstays : Moved s s := moved_store h rfl rfl rfl fun _ _ _ => rfl
  unfold resTrustPostHandler
  dsimp only
  split
  · exact Or.inl ⟨Option.some_ne_none _,hstays⟩
  · split
    · exact Or.inl ⟨Option.some_ne_none _,hstays⟩
    · next key hkey =>
      split
      · exact Or.inl ⟨Option.some_ne_none _,hstays⟩
      · next r hr =>
        unfold queueMessageToVerify
        cases hpick : T.verifyAllocator.pick s.verifier.memb.used with
        | none =>
          have hnew := h.ledger.waiting.not_mem (T.rxAllocator.pick_free hr)
          have hfull : T.verifyAllocator.pick (s.acceptRx r key payload).verifier.memb.used=none :=
            hpick
          rw [hfull]
          refine Or.inl ⟨Option.some_ne_none _,.of_perm rfl (.refl _) (letters_kept h ?_ ?_ ?_)⟩
          · exact fun _ _ => rfl
          · exact fun r' hr' => (s.trustRxMemb.take r).set_mem_other _ fun he => hnew (he ▸ hr')
          · exact sameCerts_of_quiet ((quiet_pin s.store key).trans (quiet_unpin _ key))
        | some i =>
          have hroom :
              T.verifyAllocator.pick (s.acceptRx r key payload).verifier.memb.used=some i := hpick
          rw [hroom]
          exact Or.inr ⟨rfl,accepts_acceptRx h hkey hr hpick⟩

/-- `trust_rx_continue` takes its entry away and leaves the others. -/
theorem delivered_trust (h : SystemInv T s) {entry : Fin v} (he : entry∈s.verifier.posted)
    {r : Fin m} :
    (pending s.verifier).Perm (entry::pending (trustRxContinue T s entry r).verifier) ∧
      ∀ i∈pending (trustRxContinue T s entry r).verifier,
        letter (trustRxContinue T s entry r) i=letter s i := by
  have hperm := removed_done s.verifier he
  refine ⟨hperm,fun i hi => ?_⟩
  refine letters_kept h ?_ ?_ ?_ i (hperm.mem_iff.mpr (List.mem_cons_of_mem _ hi))
  · exact fun _ _ => rfl
  · exact fun _ _ => rfl
  · exact sameCerts_of_quiet (quiet_unpin s.store (s.trustRxMemb.mem r).key)

/-- It merges what is in the buffer if the verdict is positive. -/
theorem processed_trust (T : TrustEnv n m v) (s : System n m v) (entry : Fin v) (r : Fin m) :
    (trustRxContinue T s entry r).processed=s.processed++
      if T.keystore.platformCryptoSuccess (s.verifier.memb.mem entry).result=true then
        [(s.store.subject (s.trustRxMemb.mem r).key,(s.trustRxMemb.mem r).payloadBuf.take
          ((s.verifier.memb.mem entry).message.length-dtlsEcSigSize))]
      else [] := by
  change (if _ then _ else _)=_
  split_ifs
  · rfl
  · exact (List.append_nil _).symm

end Moves

section Conservation

variable {T : TrustEnv n m v} {o : Observed n m v} {s' : System n m v}

/-- The entries are as they were queued, and account for what was accepted. -/
structure Inv (T : TrustEnv n m v) (o : Observed n m v) : Prop where
  /-- The invariant of the system. -/
  system : SystemInv T o.system
  /-- The entries. -/
  fits : ∀ i∈pending o.system.verifier, (letter o.system i).Fits T.addresses o.accepted
  /-- What was accepted. -/
  conserved : (o.system.processed++(o.refused++(pending o.system.verifier).filterMap
    (held o.system))).Perm (o.accepted.map (update T.addresses))

/-- More may have been accepted since. -/
theorem Letter.Fits.mono {A : AddressEnv} {accepted accepted' : List Message} {l : Letter n}
    (h : l.Fits A accepted) (hsub : accepted ⊆ accepted') : l.Fits A accepted' := by
  cases l with
  | certificate e message pubkey => exact h
  | trust subject message buffer =>
    obtain ⟨hbuffer,p,hp,hsender⟩ := h
    exact ⟨hbuffer,p,hsub hp,hsender⟩

/-- A step that neither accepts nor delivers. -/
theorem Inv.moved (h : Inv T o) (hI : SystemInv T s') (hmoved : Moved o.system s')
    (verified : List (PublicKey×List UInt8)) : Inv T ⟨s',o.accepted,o.refused,verified⟩ := by
  refine ⟨hI,fun i hi => ?_,?_⟩
  · obtain ⟨hold,hsame⟩ | ⟨e,he⟩ := hmoved.letters i hi
    · dsimp only
      rw [hsame]
      exact h.fits i hold
    · dsimp only
      rw [he]
      exact ⟨rfl,rfl⟩
  · dsimp only
    rw [hmoved.processed]
    exact ((hmoved.held.append_left _).append_left _).trans h.conserved

/-- A message is accepted. -/
theorem Inv.accepts (h : Inv T o) (hI : SystemInv T s') {p : Message}
    (haccepts : Accepts T o.system s' p) :
    Inv T ⟨s',o.accepted++[p],o.refused,o.verified⟩ := by
  obtain ⟨i,buffer,hperm,hletter,hbuffer⟩ := haccepts.entry
  refine ⟨hI,fun j hj => ?_,?_⟩
  · rcases List.mem_cons.mp (hperm.mem_iff.mp hj) with rfl | hold
    · dsimp only
      rw [hletter]
      exact ⟨hbuffer,p,List.mem_append_right _ List.mem_cons_self,rfl,rfl⟩
    · dsimp only
      rw [haccepts.letters j hold]
      exact (h.fits j hold).mono (List.subset_append_left _ _)
  · have hheld : held s' i=some (update T.addresses p) := by
      rw [held_eq,hletter]
      rfl
    have hall := hperm.filterMap (held s')
    rw [List.filterMap_cons_some hheld,filterMap_held haccepts.letters] at hall
    dsimp only
    rw [haccepts.processed,List.map_append,List.map_singleton]
    refine ((hall.append_left _).append_left _).trans ?_
    rw [←List.append_assoc]
    refine List.perm_middle.trans ?_
    rw [List.append_assoc]
    exact (h.conserved.cons _).trans (List.perm_append_singleton _ _).symm

/-- What a delivered entry held: the message of its buffer. -/
theorem Inv.held_posted (h : Inv T o) {entry : Fin v} (he : entry∈o.system.verifier.posted)
    {r : Fin m} (hr : (o.system.verifier.memb.mem entry).data=.trust r) :
    ∃ p∈o.accepted, p.payload=(o.system.verifier.memb.mem entry).message ∧
      (update T.addresses p).1=o.system.store.subject (o.system.trustRxMemb.mem r).key ∧
      (o.system.trustRxMemb.mem r).payloadBuf.take
        ((o.system.verifier.memb.mem entry).message.length-dtlsEcSigSize)=
          body (o.system.verifier.memb.mem entry).message := by
  have hpending : entry∈pending o.system.verifier :=
    List.mem_append_right _ (List.mem_append_left _ he)
  have hfits := h.fits entry hpending
  rw [letter_trust hr] at hfits
  obtain ⟨hbuffer,p,hp,hpayload,hsender⟩ := hfits
  refine ⟨p,hp,hpayload,hsender,?_⟩
  have htake := congrArg
    (List.take ((o.system.verifier.memb.mem entry).message.length-dtlsEcSigSize)) hbuffer
  rwa [List.take_take,Nat.min_eq_left (Nat.sub_le _ _)] at htake

/-- A verdict about trust information is delivered. -/
theorem Inv.delivered (h : Inv T o) {entry : Fin v} (he : entry∈o.system.verifier.posted)
    {r : Fin m} (hr : (o.system.verifier.memb.mem entry).data=.trust r) :
    Inv T ⟨trustRxContinue T o.system entry r,o.accepted,
      o.refused++refusedBy T o.system entry,o.verified⟩ := by
  obtain ⟨hperm,hletters⟩ := delivered_trust h.system he (r:=r)
  obtain ⟨_,_,_,_,hbody⟩ := h.held_posted he hr
  refine ⟨h.system.trust he hr,fun i hi => ?_,?_⟩
  · dsimp only
    rw [hletters i hi]
    exact h.fits i (hperm.mem_iff.mpr (List.mem_cons_of_mem _ hi))
  · have hheld : held o.system entry=
        some (o.system.store.subject (o.system.trustRxMemb.mem r).key,
          body (o.system.verifier.memb.mem entry).message) := by
      rw [held_eq,letter_trust hr]
      rfl
    have hall := hperm.filterMap (held o.system)
    rw [List.filterMap_cons_some hheld,←filterMap_held hletters] at hall
    refine List.Perm.trans ?_ (((hall.symm.append_left _).append_left _).trans h.conserved)
    dsimp only
    generalize (pending (trustRxContinue T o.system entry r).verifier).filterMap _=rest
    rw [processed_trust,refusedBy,hr]
    dsimp only
    split_ifs with hok
    · rw [hbody,List.append_nil,List.append_assoc,List.singleton_append]
      exact List.perm_middle.symm.append_left _
    · rw [List.append_nil,List.append_assoc,List.singleton_append]

/-- The delivery of a verdict about a certificate. -/
theorem step_keystore {s : System n m v} {entry : Fin v} {e : VerifyEntry n}
    (h : (s.verifier.memb.mem entry).data=.keystore e) :
    TrustReceive.step T s (.deliver entry)=keystoreVerified T s entry e := by
  rw [TrustReceive.step,deliver,h]

/-- The delivery of a verdict about trust information. -/
theorem step_trust {s : System n m v} {entry : Fin v} {r : Fin m}
    (h : (s.verifier.memb.mem entry).data=.trust r) :
    TrustReceive.step T s (.deliver entry)=trustRxContinue T s entry r := by
  rw [TrustReceive.step,deliver,h]

/-- Every admitted step keeps the invariant. -/
theorem Inv.step (h : Inv T o) {op : TrustReceive.Op v n} (hop : Admitted o op) :
    Inv T (step T o op) := by
  have hI := h.system.step hop
  unfold TrustAuthenticity.step
  cases op with
  | post src payload =>
    dsimp only
    obtain ⟨hrefused,hmoved⟩ | ⟨haccepted,hnew⟩ := post_cases h.system src payload
    · rw [if_neg hrefused]
      exact h.moved hI hmoved o.verified
    · rw [if_pos haccepted]
      exact h.accepts hI hnew
  | add cert =>
    exact h.moved hI (moved_store h.system rfl rfl rfl
      (sameCerts_add h.system.ledger.store.owns cert)) o.verified
  | remove item =>
    exact h.moved hI (moved_store h.system rfl rfl rfl
      (sameCerts_of_quiet (quiet_of_evicted (keystoreRemove_evicted T.keystore _ item)))) o.verified
  | poll => exact h.moved hI (moved_poll h.system) o.verified
  | dequeue =>
    exact h.moved hI (moved_verifier h.system (moved_dequeue T.errors o.system.verifier)) o.verified
  | verify codes =>
    exact h.moved hI (moved_verifier h.system (moved_verify T.errors o.system.verifier codes)) _
  | deliver entry =>
    dsimp only
    cases hdata : (o.system.verifier.memb.mem entry).data with
    | keystore e =>
      have hnone : refusedBy T o.system entry=[] := by rw [refusedBy,hdata]
      rw [step_keystore hdata] at hI ⊢
      rw [hnone,List.append_nil]
      exact h.moved hI (moved_keystore h.system hop hdata) o.verified
    | trust r =>
      rw [step_trust hdata]
      exact h.delivered hop hdata
  | ecdhDone success secret =>
    exact h.moved hI (moved_ecdhDone h.system success secret) o.verified

end Conservation

section Verdicts

variable {T : TrustEnv n m v} {s : System n m v} {verified verified' : List (PublicKey×List UInt8)}

/-- What a posted entry of positive verdict is about has been verified. -/
def Verdicts (T : TrustEnv n m v) (w : Verifier.State v (Requester n m))
    (verified : List (PublicKey×List UInt8)) : Prop :=
  ∀ i∈w.posted, T.keystore.platformCryptoSuccess (w.memb.mem i).result=true →
    ((w.memb.mem i).pubkey,(w.memb.mem i).message)∈verified

/-- No entry is posted, and none that is posted is written. -/
def PostedKept (w w' : Verifier.State v (Requester n m)) : Prop :=
  ∀ i∈w'.posted, i∈w.posted ∧ w'.memb.mem i=w.memb.mem i

/-- Verdicts stay. -/
theorem Verdicts.kept {w w' : Verifier.State v (Requester n m)} (h : Verdicts T w verified)
    (hkept : PostedKept w w') : Verdicts T w' verified := by
  intro i hi
  obtain ⟨hold,hsame⟩ := hkept i hi
  rw [hsame]
  exact h i hold

/-- Queueing posts nothing. -/
theorem postedKept_queue {A : Allocator v} {w : Verifier.State v (Requester n m)}
    (hI : Verifier.Inv w) (data : Requester n m) (message : List UInt8) (pubkey : PublicKey) :
    PostedKept w (Verifier.queueMessageToVerify A w data message pubkey) := by
  unfold Verifier.queueMessageToVerify
  split
  · exact fun i hi => ⟨hi,rfl⟩
  · next j hj =>
    refine fun i hi => ⟨hi,?_⟩
    have hne : i≠j := fun he => hI.owns.not_mem (A.pick_free hj)
      (List.mem_append_right _ (List.mem_append_left _ (he ▸ hi)))
    exact Memb.set_mem_other _ _ hne

/-- The verifier after `queue_message_to_verify`. -/
theorem queueMessageToVerify_verifier (T : TrustEnv n m v) (s : System n m v)
    (data : Requester n m) (message : List UInt8) (pubkey : PublicKey) :
    (queueMessageToVerify T s data message pubkey).1.verifier=
      Verifier.queueMessageToVerify T.verifyAllocator s.verifier data message pubkey := by
  unfold queueMessageToVerify
  split
  · next hfull => rw [Verifier.queueMessageToVerify,hfull]
  · rfl

/-- Queueing the entries of the keystore posts nothing. -/
theorem postedKept_queueAll (T : TrustEnv n m v) (l : List (VerifyEntry n)) (s : System n m v)
    (hI : Verifier.Inv s.verifier) : PostedKept s.verifier
      (l.foldl (fun s e => (queueMessageToVerify T s (.keystore e) e.message e.pubkey).1)
        s).verifier := by
  induction l generalizing s with
  | nil => exact fun i hi => ⟨hi,rfl⟩
  | cons e l ih =>
    have hverifier := queueMessageToVerify_verifier T s (.keystore e) e.message e.pubkey
    have hqueue : Verifier.Admitted s.verifier (.queue (.keystore e) e.message e.pubkey) := trivial
    have hnext := ih (queueMessageToVerify T s (.keystore e) e.message e.pubkey).1 (by
      rw [hverifier]
      exact hI.step T.verifyAllocator T.errors hqueue)
    rw [hverifier] at hnext
    intro i hi
    obtain ⟨hposted,hsame⟩ := hnext i hi
    obtain ⟨hold,hfirst⟩ := postedKept_queue hI (.keystore e) e.message e.pubkey i hposted
    exact ⟨hold,hsame.trans hfirst⟩

/-- A poll posts nothing. -/
theorem postedKept_poll (h : SystemInv T s) :
    PostedKept s.verifier (keystorePoll T s).verifier := by
  unfold keystorePoll
  split
  · exact fun i hi => ⟨hi,rfl⟩
  · exact postedKept_queueAll T _ {s with store := _} h.queue.verifier

/-- Neither does accepting a message, nor refusing it. -/
theorem postedKept_post (h : SystemInv T s) (src : IpAddr) (payload : List UInt8) :
    PostedKept s.verifier (resTrustPostHandler T s src payload).1.verifier := by
  unfold resTrustPostHandler
  split
  · exact fun i hi => ⟨hi,rfl⟩
  · split
    · exact fun i hi => ⟨hi,rfl⟩
    · next key _ =>
      split
      · exact fun i hi => ⟨hi,rfl⟩
      · next r _ =>
        have hqueue := postedKept_queue (A:=T.verifyAllocator) h.queue.verifier (.trust r) payload
          (s.store.item key).cert.publicKey
        have hverifier := queueMessageToVerify_verifier T (s.acceptRx r key payload) (.trust r)
          payload (s.store.item key).cert.publicKey
        have hkept : PostedKept s.verifier (queueMessageToVerify T (s.acceptRx r key payload)
            (.trust r) payload (s.store.item key).cert.publicKey).1.verifier := by
          rw [hverifier]
          exact hqueue
        dsimp only
        split
        · exact hkept
        · exact hkept

/-- Giving back an entry posts nothing. -/
theorem postedKept_done (w : Verifier.State v (Requester n m)) (entry : Fin v) :
    PostedKept w (Verifier.queueMessageToVerifyDone w entry) :=
  fun _ hi => ⟨List.mem_of_mem_erase hi,rfl⟩

/-- `platform_crypto_success` as the target has it. -/
def OnTarget (T : TrustEnv n m v) : Prop :=
  ∀ b, T.keystore.platformCryptoSuccess b=platformCryptoSuccess b.toUInt32

/-- Success is a zero byte. -/
theorem OnTarget.success_iff (hT : OnTarget T) (b : UInt8) :
    T.keystore.platformCryptoSuccess b=true ↔ b=0 := by
  rw [hT b]
  exact platformCryptoSuccess_toUInt32_iff b

/-- A message without room for a signature is no success. -/
theorem Verdicts.dequeue (hT : OnTarget T) (h : Verdicts T s.verifier verified) :
    Verdicts T (Verifier.dequeue T.errors s.verifier true) verified := by
  rcases Verifier.dequeue_cases T.errors s.verifier true with hd | ⟨i,rest,_,_,hd | ⟨_,hd⟩⟩
  · rw [hd]
    exact h
  · rw [hd]
    intro j hj hsuccess
    by_cases hji : j=i
    · subst hji
      rw [hT.success_iff] at hsuccess
      simp only [Verifier.finish,Memb.set_mem_same] at hsuccess
      exact absurd hsuccess T.errors.invalidParam_ne
    · simp only [Verifier.finish,if_true,List.mem_append,List.mem_singleton,hji,or_false] at hj
      simp only [Verifier.finish,Memb.set_mem_other _ _ hji] at hsuccess ⊢
      exact h j hj hsuccess
  · rw [hd]
    exact h

/-- A job that tells its verdict is a success only if its call has verified the message. -/
theorem Verdicts.verify (hT : OnTarget T) (hI : Verifier.Inv s.verifier)
    (h : Verdicts T s.verifier verified) {codes : VerifyCodes}
    (htold : Verifier.JobTold T.errors s.verifier (.verify codes true)) :
    Verdicts T (Verifier.verify T.errors s.verifier codes true)
      (verified++verifiedBy T s codes) := by
  unfold Verifier.verify verifiedBy
  cases hitem : s.verifier.vitem with
  | none =>
    dsimp only
    rw [List.append_nil]
    exact h
  | some i =>
    intro j hj hsuccess
    by_cases hji : j=i
    · subst hji
      have hverdict := (eccVerify_verdict_iff T.errors codes s.verifier.result
        (s.verifier.memb.mem j).pubkey (hI.long j hitem)).mpr (htold (by rw [hitem]; simp))
      simp only [Verifier.finish,Memb.set_mem_same] at hsuccess ⊢
      have hcall := hverdict.mp ((hT.success_iff _).mp hsuccess)
      refine List.mem_append_right _ ?_
      revert hcall
      cases (eccVerify T.errors codes s.verifier.result (s.verifier.memb.mem j).pubkey
        (s.verifier.memb.mem j).message).2 with
      | none => exact False.elim
      | some c =>
        rintro ⟨hkey,hmessage,_,hcode⟩
        rw [verifiedCall,if_pos hcode,hkey,hmessage]
        exact List.mem_singleton.mpr rfl
    · simp only [Verifier.finish,if_true,List.mem_append,List.mem_singleton,hji,or_false] at hj
      simp only [Verifier.finish,Memb.set_mem_other _ _ hji] at hsuccess ⊢
      exact List.mem_append_left _ (h j hj hsuccess)

/-- More may have been verified since. -/
theorem rootSigned_mono {E : Env n} {cert : Certificate}
    (h : RootSigned E (verifies verified) cert) (hsub : verified ⊆ verified') :
    RootSigned E (verifies verified') cert :=
  decide_eq_true (hsub (of_decide_eq_true h))

end Verdicts

section Signatures

variable {T : TrustEnv n m v} {o : Observed n m v}

/-- The usable keys, the positive verdicts and what was merged rest on
signatures that have been verified. -/
structure SignedInv (T : TrustEnv n m v) (o : Observed n m v) : Prop where
  /-- The entries are as they were queued. -/
  base : Inv T o
  /-- Usable keys are those of certificates that the root has signed. -/
  keys : AllRootSigned T.keystore (verifies o.verified) o.system.store
  /-- Positive verdicts. -/
  verdicts : Verdicts T o.system.verifier o.verified
  /-- What was merged. -/
  merged : AllSigned T o

/-- What was signed stays signed. -/
theorem Signed.mono {o' : Observed n m v} {u : Eui64×List UInt8} (h : Signed T o u)
    (haccepted : o.accepted ⊆ o'.accepted) (hverified : o.verified ⊆ o'.verified) :
    Signed T o' u := by
  obtain ⟨p,hp,hu,cert,hsubject,hmessage,hroot⟩ := h
  exact ⟨p,haccepted hp,hu,cert,hsubject,hverified hmessage,rootSigned_mono hroot hverified⟩

/-- The keystore after `res_trust_post_handler`. -/
theorem keys_post {E : Env n} {verified : List (PublicKey×List UInt8)} {s : System n m v}
    (h : AllRootSigned E (verifies verified) s.store) (src : IpAddr) (payload : List UInt8) :
    AllRootSigned E (verifies verified) (resTrustPostHandler T s src payload).1.store := by
  obtain ⟨_,hsame | ⟨key,hpin⟩ | ⟨key,hunpin⟩⟩ := post_store T s src payload
  · rw [hsame]
    exact h
  · rw [hpin]
    exact h.pin key
  · rw [hunpin]
    exact (h.pin key).unpin key

/-- The keystore after a poll. -/
theorem keys_poll {verified : List (PublicKey×List UInt8)} {s : System n m v}
    (h : AllRootSigned T.keystore (verifies verified) s.store) :
    AllRootSigned T.keystore (verifies verified) (keystorePoll T s).store := by
  have hpolled : AllRootSigned T.keystore (verifies verified) {s.store with polled := false} := h
  cases hecdh : s.ecdh with
  | some i =>
    unfold keystorePoll
    rw [hecdh]
    exact hpolled
  | none =>
    rw [(poll_kept T s hecdh).1]
    exact hpolled.addStart _

/-- The keystore after the verdict about a certificate, whose bytes were
verified under the key of the root if the verdict is positive. -/
theorem keys_verified (h : SignedInv T o) {entry : Fin v}
    (he : entry∈o.system.verifier.posted) {e : VerifyEntry n}
    (hdata : (o.system.verifier.memb.mem entry).data=.keystore e) :
    AllRootSigned T.keystore (verifies o.verified) (keystoreVerified T o.system entry e).store := by
  obtain ⟨hout,hecdh⟩ := h.base.system.entry he hdata
  have hfits := h.base.fits entry (List.mem_append_right _ (List.mem_append_left _ he))
  rw [letter_keystore hdata] at hfits
  obtain ⟨hmessage,hpubkey⟩ := hfits
  have hverdict : T.keystore.platformCryptoSuccess (o.system.verifier.memb.mem entry).result=true →
      verifies o.verified e.pubkey e.message=true := by
    intro hsuccess
    have hverified := h.verdicts entry he hsuccess
    rw [hmessage,hpubkey] at hverified
    exact decide_eq_true hverified
  have hcontinued := h.keys.addContinued h.base.system.ledger.store hout hverdict
  unfold keystoreVerified
  rw [hecdh]
  change AllRootSigned _ _ (onVerified T.keystore ⟨o.system.store,none,[]⟩ e _ []).store
  unfold onVerified
  dsimp only
  split
  · exact hcontinued.pin _
  · exact hcontinued

/-- The keystore after the end of the ECDH child. -/
theorem keys_ecdhDone {verified : List (PublicKey×List UInt8)} {s : System n m v}
    (h : AllRootSigned T.keystore (verifies verified) s.store) (success : Bool)
    (secret : List UInt8) :
    AllRootSigned T.keystore (verifies verified) (keystoreEcdhDone T s success secret).store := by
  unfold keystoreEcdhDone
  split
  · exact h
  · next i _ =>
    cases success with
    | true => exact (h.sharedSecret i secret).unpin i
    | false => exact h.unpin i

/-- What is merged at a positive verdict is signed. -/
theorem signed_of_posted (h : SignedInv T o) {entry : Fin v}
    (he : entry∈o.system.verifier.posted) {r : Fin m}
    (hdata : (o.system.verifier.memb.mem entry).data=.trust r)
    (hsuccess : T.keystore.platformCryptoSuccess (o.system.verifier.memb.mem entry).result=true) :
    Signed T o (o.system.store.subject (o.system.trustRxMemb.mem r).key,
      body (o.system.verifier.memb.mem entry).message) := by
  have hpending : entry∈pending o.system.verifier :=
    List.mem_append_right _ (List.mem_append_left _ he)
  have hr := mem_requests hpending hdata
  have hitem : r∈trustItem (request o.system.verifier entry) := by
    rw [request,hdata]
    exact rfl
  have hkey := h.base.system.ledger.keys r hr
  have hpubkey := h.base.system.ledger.pubkeys _ (List.mem_map_of_mem hpending) r hitem
  have hverified := h.verdicts entry he hsuccess
  obtain ⟨p,hp,hpayload,hsender,_⟩ := h.base.held_posted he hdata
  refine ⟨p,hp,?_,(o.system.store.item (o.system.trustRxMemb.mem r).key).cert,rfl,?_,
    h.keys _ hkey⟩
  · rw [←hsender,←hpayload]
    rfl
  · rw [hpayload,←hpubkey]
    exact hverified

/-- Nothing new was merged. -/
theorem AllSigned.same {o' : Observed n m v} (h : AllSigned T o)
    (hprocessed : o'.system.processed=o.system.processed) (haccepted : o.accepted ⊆ o'.accepted)
    (hverified : o.verified ⊆ o'.verified) : AllSigned T o' := by
  intro u hu
  rw [hprocessed] at hu
  exact (h u hu).mono haccepted hverified

/-- Every admitted step keeps the invariant if the verifier tells its verdict. -/
theorem SignedInv.step (hT : OnTarget T) (h : SignedInv T o) {op : TrustReceive.Op v n}
    (hop : Admitted o op) (htold : Told T o op) : SignedInv T (step T o op) := by
  have hbase := h.base.step hop
  have hI := h.base.system
  cases op with
  | post src payload =>
    have hsame : (resTrustPostHandler T o.system src payload).1.processed=o.system.processed := by
      obtain ⟨_,hmoved⟩ | ⟨_,haccepts⟩ := post_cases hI src payload
      · exact hmoved.processed
      · exact haccepts.processed
    refine ⟨hbase,keys_post h.keys src payload,h.verdicts.kept (postedKept_post hI src payload),
      h.merged.same hsame ?_ (List.Subset.refl _)⟩
    unfold TrustAuthenticity.step
    dsimp only
    split_ifs
    · exact List.subset_append_left _ _
    · exact List.Subset.refl _
  | add cert =>
    exact ⟨hbase,h.keys.add hI.ledger.store cert,h.verdicts,
      h.merged.same rfl (List.Subset.refl _) (List.Subset.refl _)⟩
  | remove item =>
    exact ⟨hbase,h.keys.evicted (keystoreRemove_evicted T.keystore _ item),h.verdicts,
      h.merged.same rfl (List.Subset.refl _) (List.Subset.refl _)⟩
  | poll =>
    exact ⟨hbase,keys_poll h.keys,h.verdicts.kept (postedKept_poll hI),
      h.merged.same (moved_poll hI).processed (List.Subset.refl _) (List.Subset.refl _)⟩
  | dequeue =>
    exact ⟨hbase,h.keys,h.verdicts.dequeue hT,
      h.merged.same rfl (List.Subset.refl _) (List.Subset.refl _)⟩
  | verify codes =>
    exact ⟨hbase,fun i hi => rootSigned_mono (h.keys i hi) (List.subset_append_left _ _),
      h.verdicts.verify hT hI.queue.verifier htold,
      h.merged.same rfl (List.Subset.refl _) (List.subset_append_left _ _)⟩
  | deliver entry =>
    cases hdata : (o.system.verifier.memb.mem entry).data with
    | keystore e =>
      have hkeys := keys_verified h hop hdata
      have hprocessed := (moved_keystore hI hop hdata).processed
      have hkept := postedKept_done o.system.verifier entry
      rw [←step_keystore hdata] at hkeys hprocessed
      have hverdicts : Verdicts T (TrustReceive.step T o.system (.deliver entry)).verifier
          o.verified := by
        rw [step_keystore hdata,keystoreVerified,(hI.entry hop hdata).2]
        exact h.verdicts.kept hkept
      exact ⟨hbase,hkeys,hverdicts,
        h.merged.same hprocessed (List.Subset.refl _) (List.Subset.refl _)⟩
    | trust r =>
      have hkeys := h.keys.unpin (o.system.trustRxMemb.mem r).key
      have hverdicts := h.verdicts.kept (postedKept_done o.system.verifier entry)
      have hsystem : (TrustAuthenticity.step T o (.deliver entry)).system=
          trustRxContinue T o.system entry r := step_trust hdata
      refine ⟨hbase,?_,?_,fun u hu => ?_⟩
      · rw [hsystem]
        exact hkeys
      · rw [hsystem]
        exact hverdicts
      · rw [hsystem,processed_trust] at hu
        have hsigned : Signed T o u := by
          rcases List.mem_append.mp hu with hold | hnew
          · exact h.merged u hold
          · split_ifs at hnew with hsuccess
            · obtain ⟨_,_,_,_,hbody⟩ := h.base.held_posted hop hdata
              rw [hbody] at hnew
              rw [List.mem_singleton.mp hnew]
              exact signed_of_posted h hop hdata hsuccess
            · exact absurd hnew List.not_mem_nil
        exact hsigned.mono (List.Subset.refl _) (List.Subset.refl _)
  | ecdhDone success secret =>
    have hprocessed := (moved_ecdhDone hI success secret).processed
    have hverifier : (keystoreEcdhDone T o.system success secret).verifier=o.system.verifier := by
      unfold keystoreEcdhDone
      split <;> rfl
    refine ⟨hbase,keys_ecdhDone h.keys success secret,?_,
      h.merged.same hprocessed (List.Subset.refl _) (List.Subset.refl _)⟩
    change Verdicts T (keystoreEcdhDone T o.system success secret).verifier _
    rw [hverifier]
    exact h.verdicts

/-- The invariant holds once everything is initialised. -/
theorem inv_init (T : TrustEnv n m v) (item : Fin m → TrustRxItem n) (data : Requester n m) :
    Inv T (init T item data) where
  system := systemInv_init T item data
  fits _ hi := absurd hi List.not_mem_nil
  conserved := List.Perm.refl _

end Signatures

end TrustAlloc.TrustAuthenticity
