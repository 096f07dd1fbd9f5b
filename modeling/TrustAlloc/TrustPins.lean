import TrustAlloc.TrustReceive

/-!
# The ledger of pins

A key is pinned once for every received item that waits for its verdict and
once while the ECDH child runs for it. What the verifier has been asked is
read as one list of requests, which its own steps only reorder. The ledger
relates that list to the two pools; receiving adds a request and a pin,
delivering removes both, and everything that evicts spares pinned keys.
-/

namespace TrustAlloc.TrustReceive

open Certificates EdgeInfo Addresses Keystore Pools Runs

variable {n m v : ℕ}

section Requests

variable {D : Type} {s : Verifier.State v D} {A : Allocator v} {err : NrfCrypto.ErrorCodes}

/-- Entries that wait, are being verified, or are on their way back. -/
def pending (s : Verifier.State v D) : List (Fin v) :=
  s.vitem.toList++s.messagesToVerify++(s.posted++s.lost)

/-- Requester and key of an entry. -/
def request (s : Verifier.State v D) (i : Fin v) : D×PublicKey :=
  ((s.memb.mem i).data,(s.memb.mem i).pubkey)

/-- What the verifier has been asked and has not been thanked for. -/
def requests (s : Verifier.State v D) : List (D×PublicKey) := (pending s).map (request s)

/-- Lists of the same entries make the same requests up to order. -/
theorem perm_requests {l l' : List (Fin v)} {f g : Fin v → D×PublicKey} (hl : l.Perm l')
    (hfg : ∀ i∈l, f i=g i) : (l.map f).Perm (l'.map g) := by
  rw [List.map_congr_left hfg]
  exact hl.map g

/-- Ending a job only reorders the requests. -/
theorem requests_finish (s : Verifier.State v D) (i : Fin v)
    (run : UInt32×Option NrfCrypto.EcdsaVerifyCall) :
    (requests (Verifier.finish s i run true)).Perm
      ((i::s.messagesToVerify++(s.posted++s.lost)).map (request s)) := by
  refine perm_requests (List.perm_iff_count.mpr fun a => ?_) fun j _ => ?_
  · simp only [pending,Verifier.finish,if_true,Option.toList_none,List.nil_append,
      List.cons_append,List.count_append,List.count_cons,List.count_nil]
    omega
  · by_cases hj : j=i
    · subst hj
      simp [request,Verifier.finish]
    · simp [request,Verifier.finish,Memb.set_mem_other _ _ hj]

/-- Taking an entry only reorders the requests. -/
theorem requests_dequeue (err : NrfCrypto.ErrorCodes) (s : Verifier.State v D) :
    (requests (Verifier.dequeue err s true)).Perm (requests s) := by
  rcases Verifier.dequeue_cases err s true with hd | ⟨i,rest,hv,hq,hd | ⟨_,hd⟩⟩
  · rw [hd]
  · rw [hd]
    have hsame : requests s=(i::rest++(s.posted++s.lost)).map (request s) := by
      rw [requests,pending,hv,hq]
      rfl
    rw [hsame]
    exact requests_finish {s with messagesToVerify := rest} i _
  · have hsame : requests s=requests {s with messagesToVerify := rest,vitem := some i} := by
      simp only [requests,pending,hv,hq]
      rfl
    rw [hd,hsame]

/-- Running a verification only reorders the requests. -/
theorem requests_verify (err : NrfCrypto.ErrorCodes) (s : Verifier.State v D)
    (codes : NrfCrypto.VerifyCodes) :
    (requests (Verifier.verify err s codes true)).Perm (requests s) := by
  unfold Verifier.verify
  split
  · exact List.Perm.refl _
  · next i hv =>
    have hsame : requests s=(i::s.messagesToVerify++(s.posted++s.lost)).map (request s) := by
      rw [requests,pending,hv]
      rfl
    rw [hsame]
    exact requests_finish s i _

/-- Taking an entry neither loses nor frees any. -/
theorem dequeue_kept (err : NrfCrypto.ErrorCodes) (s : Verifier.State v D) :
    (Verifier.dequeue err s true).lost=s.lost ∧
      (Verifier.dequeue err s true).memb.used=s.memb.used := by
  rcases Verifier.dequeue_cases err s true with hd | ⟨_,_,_,_,hd | ⟨_,hd⟩⟩
  · rw [hd]
    exact ⟨rfl,rfl⟩
  · rw [hd]
    exact ⟨rfl,rfl⟩
  · rw [hd]
    exact ⟨rfl,rfl⟩

/-- A verification whose event is posted neither loses nor frees an entry. -/
theorem verify_kept (err : NrfCrypto.ErrorCodes) (s : Verifier.State v D)
    (codes : NrfCrypto.VerifyCodes) : (Verifier.verify err s codes true).lost=s.lost ∧
      (Verifier.verify err s codes true).memb.used=s.memb.used := by
  unfold Verifier.verify
  split
  · exact ⟨rfl,rfl⟩
  · exact ⟨rfl,rfl⟩

/-- With room, queueing adds one request. -/
theorem requests_queue (hI : Verifier.Inv s) {i : Fin v} (hi : A.pick s.memb.used=some i) (data : D)
    (message : List UInt8) (pubkey : PublicKey) :
    (requests (Verifier.queueMessageToVerify A s data message pubkey)).Perm
      ((data,pubkey)::requests s) := by
  have hnew : i∉pending s := hI.owns.not_mem (A.pick_free hi)
  simp only [Verifier.queueMessageToVerify,hi]
  have hperm : (s.vitem.toList++(s.messagesToVerify++[i])++(s.posted++s.lost)).Perm
      (i::pending s) := by
    refine List.perm_iff_count.mpr fun a => ?_
    simp only [pending,List.count_append,List.count_cons,List.count_nil]
    omega
  refine (hperm.map _).trans ?_
  rw [List.map_cons]
  refine List.Perm.of_eq (congrArg₂ List.cons ?_ (List.map_congr_left fun j hj => ?_))
  · simp [request]
  · have hne : j≠i := fun he => hnew (he ▸ hj)
    simp [request,Memb.set_mem_other _ _ hne]

/-- Giving back a posted entry removes its request. -/
theorem requests_done (s : Verifier.State v D) {i : Fin v} (hi : i∈s.posted) :
    (requests s).Perm (request s i::requests (Verifier.queueMessageToVerifyDone s i)) := by
  have hperm : (pending s).Perm (i::pending (Verifier.queueMessageToVerifyDone s i)) := by
    have hcount := fun a => (List.perm_cons_erase hi).count_eq a
    refine List.perm_iff_count.mpr fun a => ?_
    have ha := hcount a
    simp only [pending,Verifier.queueMessageToVerifyDone,List.count_append,
      List.count_cons] at ha ⊢
    omega
  exact (hperm.map (request s)).trans (List.Perm.refl _)

end Requests

/-- The received item that a request is about, if it is the trust model's. -/
def trustItem : Requester n m×PublicKey → Option (Fin m)
  | (.trust r,_) => some r
  | (.keystore _,_) => none

/-- The keystore's entry, if the request is the keystore's. -/
def keystoreEntry : Requester n m×PublicKey → Option (VerifyEntry n)
  | (.keystore e,_) => some e
  | (.trust _,_) => none

/-- Number of users of a key among requests and the ECDH child. -/
def users (rx : Memb m (TrustRxItem n)) (R : List (Requester n m×PublicKey))
    (ecdh : Option (Fin n)) (i : Fin n) : ℕ :=
  (R.filterMap trustItem).countP (fun r => decide ((rx.mem r).key=i))+
    if ecdh=some i then 1 else 0

/-- How the requests, the received items, the ECDH child and the keystore fit
together. -/
structure Ledger (E : Env n) (k : Store n) (ecdh : Option (Fin n)) (rx : Memb m (TrustRxItem n))
    (R : List (Requester n m×PublicKey)) : Prop where
  /-- The invariant of the keystore. -/
  store : Inv E k
  /-- The received items in use are those with a request, each with one. -/
  waiting : Owns rx.used (R.filterMap trustItem)
  /-- The keystore's requests are the entries it has with the verifier. -/
  entries : (R.filterMap keystoreEntry).Perm k.outstanding
  /-- Keys of received items are usable ones. -/
  keys : ∀ r∈R.filterMap trustItem, (rx.mem r).key∈k.publicKeys
  /-- Received items are verified under the key that is stored now. -/
  pubkeys : ∀ q∈R, ∀ r∈trustItem q, q.2=(k.item (rx.mem r).key).cert.publicKey
  /-- While the child runs, its key is usable and nothing is being verified
  for the keystore. -/
  child : ∀ i, ecdh=some i → i∈k.publicKeys ∧ k.outstanding=[]
  /-- Every pin count is the number of users. -/
  pins : ∀ i, (k.item i).pinCount.toNat=users rx R ecdh i

section Ledger

variable {E : Env n} {k : Store n} {ecdh : Option (Fin n)} {rx : Memb m (TrustRxItem n)}
  {R R' : List (Requester n m×PublicKey)}

/-- The order of the requests does not matter. -/
theorem Ledger.perm (h : Ledger E k ecdh rx R) (hR : R.Perm R') : Ledger E k ecdh rx R' := by
  have htrust := hR.filterMap trustItem
  refine ⟨h.store,h.waiting.perm htrust,(hR.filterMap keystoreEntry).symm.trans h.entries,
    fun r hr => h.keys r (htrust.mem_iff.mpr hr),fun q hq => h.pubkeys q (hR.mem_iff.mpr hq),
    h.child,fun i => ?_⟩
  rw [h.pins i,users,users,htrust.countP_eq]

/-- There are never more users than received items and the child. -/
theorem users_le (hown : Owns rx.used (R.filterMap trustItem)) (ecdh : Option (Fin n)) (i : Fin n) :
    users rx R ecdh i ≤ m+1 := by
  have hlen := hown.length_le
  have hcount := List.countP_le_length (p:=fun r => decide ((rx.mem r).key=i))
    (l:=R.filterMap trustItem)
  unfold users
  split <;> omega

/-- A key with a user is pinned. -/
theorem Ledger.pinned (h : Ledger E k ecdh rx R) {i : Fin n} (hi : 0<users rx R ecdh i) :
    (k.item i).pinCount≠0 := fun hz => by
  rw [←h.pins i,hz] at hi
  exact absurd hi (by decide)

/-- The key of a received item has a user. -/
theorem users_pos_of_waiting {r : Fin m} (hr : r∈R.filterMap trustItem) :
    0<users rx R ecdh (rx.mem r).key := by
  have hcount :
      0<(R.filterMap trustItem).countP fun r' => decide ((rx.mem r').key=(rx.mem r).key) :=
    List.countP_pos_iff.mpr ⟨r,hr,decide_eq_true rfl⟩
  unfold users
  omega

/-- The key that the child computes with has a user. -/
theorem users_pos_of_ecdh {i : Fin n} (hi : ecdh=some i) : 0<users rx R ecdh i := by
  rw [users,if_pos hi]
  omega

/-- A block that holds no usable key has no user. -/
theorem Ledger.users_eq_zero (h : Ledger E k ecdh rx R) {i : Fin n} (hi : i∉k.publicKeys) :
    users rx R ecdh i=0 := by
  have hcount : (R.filterMap trustItem).countP (fun r => decide ((rx.mem r).key=i))=0 :=
    List.countP_eq_zero.mpr fun r hr he => hi (of_decide_eq_true he ▸ h.keys r hr)
  rw [users,hcount,if_neg fun he => hi (h.child i he).1]

/-- A pinned block holds a usable key. -/
theorem Ledger.mem_of_pinned (h : Ledger E k ecdh rx R) {i : Fin n} (hi : (k.item i).pinCount≠0) :
    i∈k.publicKeys := by
  by_contra hn
  have hz := h.pins i
  rw [h.users_eq_zero hn] at hz
  exact hi (UInt16.toNat_inj.mp hz)

/-- A change of the keystore that keeps pinned keys with their certificates,
all counts and the entries with the verifier keeps the ledger. -/
theorem Ledger.withStore (h : Ledger E k ecdh rx R) {k' : Store n} (hI : Inv E k')
    (hkept : ∀ i∈k.publicKeys, (k.item i).pinCount≠0 →
      i∈k'.publicKeys ∧ (k'.item i).cert=(k.item i).cert)
    (hpin : ∀ i, (k'.item i).pinCount=(k.item i).pinCount)
    (hout : k'.outstanding=k.outstanding) : Ledger E k' ecdh rx R := by
  have hkeys : ∀ r∈R.filterMap trustItem, (rx.mem r).key∈k'.publicKeys ∧
      (k'.item (rx.mem r).key).cert=(k.item (rx.mem r).key).cert :=
    fun r hr => hkept _ (h.keys r hr) (h.pinned (users_pos_of_waiting hr))
  refine ⟨hI,h.waiting,?_,fun r hr => (hkeys r hr).1,fun q hq r hr => ?_,fun i hi => ⟨?_,?_⟩,
    fun i => ?_⟩
  · rw [hout]
    exact h.entries
  · rw [(hkeys r (List.mem_filterMap.mpr ⟨q,hq,hr⟩)).2]
    exact h.pubkeys q hq r hr
  · exact (hkept _ (h.child i hi).1 (h.pinned (users_pos_of_ecdh hi))).1
  · rw [hout]
    exact (h.child i hi).2
  · rw [hpin i]
    exact h.pins i

/-- The counts after `keystore_pin`. -/
theorem keystorePin_pinCount (k : Store n) (i j : Fin n) : ((keystorePin k i).item j).pinCount=
    if i=j then (k.item j).pinCount+1 else (k.item j).pinCount := by
  split
  · next he =>
    subst he
    exact congrArg PublicKeyItem.pinCount (k.memb.set_mem_same i _)
  · next he => exact congrArg PublicKeyItem.pinCount (k.memb.set_mem_other _ (Ne.symm he))

/-- The counts after `keystore_unpin`. -/
theorem keystoreUnpin_pinCount (k : Store n) (i j : Fin n) : ((keystoreUnpin k i).item j).pinCount=
    if i=j then (k.item j).pinCount-1 else (k.item j).pinCount := by
  split
  · next he =>
    subst he
    exact congrArg PublicKeyItem.pinCount (k.memb.set_mem_same i _)
  · next he => exact congrArg PublicKeyItem.pinCount (k.memb.set_mem_other _ (Ne.symm he))

/-- One more user, counted in 16 bits that have room for it. -/
theorem pin_toNat {c : UInt16} {a b : ℕ} (hc : c.toNat=a) (hab : b=a+1) (hb : b<UInt16.size) :
    (c+1).toNat=b := by
  subst hab
  rw [UInt16.toNat_add,hc]
  exact Nat.mod_eq_of_lt hb

/-- One user less. -/
theorem unpin_toNat {c : UInt16} {a b : ℕ} (hc : c.toNat=a) (hab : a=b+1) : (c-1).toNat=b := by
  have hle : (1 : UInt16) ≤ c := by
    rw [UInt16.le_iff_toNat_le,hc,hab]
    exact Nat.le_add_left ..
  rw [UInt16.toNat_sub_of_le _ _ hle,hc,hab]
  rfl

/-- A count that `keystore_unpin` may lower is that of the users who are left. -/
theorem unpinned_toNat {k : Store n} {i j : Fin n} {b : ℕ}
    (h : (k.item j).pinCount.toNat=b+if i=j then 1 else 0) :
    ((keystoreUnpin k i).item j).pinCount.toNat=b := by
  rw [keystoreUnpin_pinCount]
  split
  · next he =>
    rw [if_pos he] at h
    exact unpin_toNat h rfl
  · next he =>
    rw [if_neg he] at h
    exact h

/-- A new received item adds one user of its key and changes no other. -/
theorem users_accept {r : Fin m} (hr : r∉R.filterMap trustItem) (key : Fin n) (buf : List UInt8)
    (pubkey : PublicKey) (i : Fin n) :
    users ((rx.take r).set r ⟨key,buf⟩) ((.trust r,pubkey)::R) ecdh i=
      users rx R ecdh i+if key=i then 1 else 0 := by
  have hold : (R.filterMap trustItem).countP
      (fun r' => decide ((((rx.take r).set r ⟨key,buf⟩).mem r').key=i))=
      (R.filterMap trustItem).countP fun r' => decide ((rx.mem r').key=i) :=
    List.countP_congr fun r' hr' => by
      have hne : r'≠r := fun he => hr (he ▸ hr')
      rw [(rx.take r).set_mem_other _ hne,rx.take_mem]
  simp only [users,List.filterMap_cons,trustItem,List.countP_cons,hold,Memb.set_mem_same,
    decide_eq_true_eq]
  omega

/-- A request of the trust model adds one user of the key of its item. -/
theorem users_trust (r : Fin m) (pubkey : PublicKey) (i : Fin n) :
    users rx ((.trust r,pubkey)::R) ecdh i=
      users rx R ecdh i+if (rx.mem r).key=i then 1 else 0 := by
  simp only [users,List.filterMap_cons,trustItem,List.countP_cons,decide_eq_true_eq]
  omega

/-- The ECDH child adds one user of its key. -/
theorem users_ecdh (i j : Fin n) :
    users rx R (some i) j=users rx R none j+if i=j then 1 else 0 := by
  simp [users]

/-- `res_trust_post_handler` fills a free item, pins its key and queues it. -/
theorem Ledger.accept (h : Ledger E k ecdh rx R) (hm : m+1<UInt16.size) {key : Fin n}
    (hkey : key∈k.publicKeys) {r : Fin m} (hr : rx.used r=false) (buf : List UInt8) :
    Ledger E (keystorePin k key) ecdh ((rx.take r).set r ⟨key,buf⟩)
      ((.trust r,(k.item key).cert.publicKey)::R) := by
  have hnew : r∉R.filterMap trustItem := h.waiting.not_mem hr
  have hown : Owns ((rx.take r).set r ⟨key,buf⟩).used
      (((Requester.trust r,(k.item key).cert.publicKey)::R).filterMap trustItem) :=
    h.waiting.take hr
  have hcert :=
    setItem_cert (k:=k) key (v:={k.item key with pinCount := (k.item key).pinCount+1}) rfl
  have hold : ∀ r'∈R.filterMap trustItem, ((rx.take r).set r ⟨key,buf⟩).mem r'=rx.mem r' :=
    fun r' hr' => (rx.take r).set_mem_other _ fun he => hnew (he ▸ hr')
  refine ⟨h.store.pin key,hown,h.entries,fun r' hr' => ?_,fun q hq r' hr' => ?_,h.child,
    fun i => ?_⟩
  · rcases List.mem_cons.mp hr' with rfl | hr'
    · rw [Memb.set_mem_same]
      exact hkey
    · rw [hold r' hr']
      exact h.keys r' hr'
  · rcases List.mem_cons.mp hq with rfl | hq
    · cases hr'
      rw [Memb.set_mem_same]
      exact congrArg Certificate.publicKey (hcert key).symm
    · rw [hold r' (List.mem_filterMap.mpr ⟨q,hq,hr'⟩)]
      exact (h.pubkeys q hq r' hr').trans (congrArg Certificate.publicKey (hcert _).symm)
  · have hle := (users_le hown ecdh i).trans_lt hm
    rw [users_accept hnew] at hle ⊢
    rw [keystorePin_pinCount]
    split
    · next he =>
      rw [if_pos he] at hle
      exact pin_toNat (h.pins i) rfl hle
    · exact h.pins i

/-- When a received item is done with, its key is unpinned and it is freed;
until then its key was pinned. -/
theorem Ledger.release {r : Fin m} {pubkey : PublicKey}
    (h : Ledger E k ecdh rx ((.trust r,pubkey)::R)) :
    rx.used r=true ∧ keystoreIsPinned k (rx.mem r).key=true ∧
      Ledger E (keystoreUnpin k (rx.mem r).key) ecdh (rx.free r) R := by
  have hmem : r∈((Requester.trust (n:=n) r,pubkey)::R).filterMap trustItem := List.mem_cons_self
  have hcert := setItem_cert (k:=k) (rx.mem r).key
    (v:={k.item (rx.mem r).key with pinCount := (k.item (rx.mem r).key).pinCount-1}) rfl
  refine ⟨(h.waiting.used_iff r).mpr hmem,
    (keystoreIsPinned_iff k _).mpr (h.pinned (users_pos_of_waiting hmem)),
    h.store.unpin _,h.waiting.free_head,h.entries,
    fun r' hr' => h.keys r' (List.mem_cons_of_mem r hr'),fun q hq r' hr' => ?_,h.child,
    fun i => ?_⟩
  · exact (h.pubkeys q (List.mem_cons_of_mem _ hq) r' hr').trans
      (congrArg Certificate.publicKey (hcert _).symm)
  · exact unpinned_toNat ((h.pins i).trans (users_trust r pubkey i))

/-- Pinned keys stay usable. -/
def Spares (k k' : Store n) : Prop :=
  ∀ i∈k.publicKeys, (k.item i).pinCount≠0 → i∈k'.publicKeys

/-- `keystore_remove` spares pinned keys. -/
theorem keystoreRemove_spares (E : Env n) (k : Store n) (item : Fin n) :
    Spares k (keystoreRemove E k item).1 := by
  intro i hi hp
  rcases keystoreRemove_cases E k item with hr | ⟨_,hev,hr⟩
  · rw [hr]
    exact hi
  · rw [hr]
    have hne : i≠item := fun he => hp (by rw [he]; exact hev.2)
    exact (List.mem_erase_of_ne hne).mpr hi

/-- The eviction loop spares pinned keys. -/
theorem freeUpSpaceLoop_spares (E : Env n) (l : List (Fin n)) (k : Store n) :
    Spares k (freeUpSpaceLoop E l k).1 := by
  induction l generalizing k with
  | nil => exact fun i hi _ => hi
  | cons j rest ih =>
    have hremoved := keystoreRemove_spares E k j
    have hmem := (keystoreRemove_evicted E k j).mem
    have hnext : Spares k (freeUpSpaceLoop E rest (keystoreRemove E k j).1).1 := fun i hi hp =>
      ih _ i (hremoved i hi hp) (by rwa [Store.item,hmem])
    unfold freeUpSpaceLoop
    split_ifs
    · exact ih k
    · exact ih k
    · exact hremoved
    · exact hremoved
    · exact hnext

/-- `keystore_add` spares pinned keys. -/
theorem keystoreAdd_spares (E : Env n) (k : Store n) (cert : Certificate) :
    Spares k (keystoreAdd E k cert).1 := by
  have hfreed : Spares k (keystoreFreeUpSpace E k).1 := freeUpSpaceLoop_spares E _ k
  unfold keystoreAdd
  split
  · exact fun i hi _ => hi
  · split
    · exact fun i hi _ => hi
    · split
      · exact fun i hi _ => hi
      · split_ifs
        · split
          · exact hfreed
          · exact hfreed
        · exact hfreed

/-- `keystore_remove` keeps the ledger. -/
theorem Ledger.remove (h : Ledger E k ecdh rx R) (item : Fin n) :
    Ledger E (keystoreRemove E k item).1 ecdh rx R := by
  have hev := keystoreRemove_evicted E k item
  have hitem : ∀ i, (keystoreRemove E k item).1.item i=k.item i := fun i => by
    rw [Store.item,hev.mem]
  exact h.withStore (h.store.evicted hev)
    (fun i hi hp => ⟨keystoreRemove_spares E k item i hi hp,congrArg PublicKeyItem.cert (hitem i)⟩)
    (fun i => congrArg PublicKeyItem.pinCount (hitem i)) hev.outstanding

/-- `keystore_add` keeps the ledger: the block that it fills had no user. -/
theorem Ledger.add (h : Ledger E k ecdh rx R) (cert : Certificate) :
    Ledger E (keystoreAdd E k cert).1 ecdh rx R := by
  have hspares := keystoreAdd_spares E k cert
  have hout := keystoreAdd_outstanding (E:=E) h.store.owns cert
  have hI := h.store.add cert
  rcases keystoreAdd_cases E k cert h.store.owns with ⟨_,ha⟩ | ⟨_,_,hev,_⟩ | ⟨_,_,k',j,hev,hj,ha⟩
  · rw [ha]
    exact h
  · have hitem : ∀ i, (keystoreAdd E k cert).1.item i=k.item i := fun i => by
      rw [Store.item,hev.mem]
    exact h.withStore hI
      (fun i hi hp => ⟨hspares i hi hp,congrArg PublicKeyItem.cert (hitem i)⟩)
      (fun i => congrArg PublicKeyItem.pinCount (hitem i)) hout
  · rw [ha] at hI hspares hout ⊢
    have hitem : ∀ i≠j, (k'.enqueue j cert).item i=k.item i := fun i hne => by
      rw [enqueue_item_other hne,Store.item,hev.mem]
    have hnew : ∀ i∈k'.publicKeys, i≠j := fun i hi he =>
      (hev.owns h.store.owns).not_mem hj (List.mem_append_left _ (he ▸ hi))
    refine h.withStore hI (fun i hi hp => ?_) (fun i => ?_) hout
    · have hkept := hspares i hi hp
      exact ⟨hkept,congrArg PublicKeyItem.cert (hitem i (hnew i hkept))⟩
    · by_cases hij : i=j
      · subst hij
        have hzero : (k.item i).pinCount=0 := by
          by_contra hp
          exact hnew i (hspares i (h.mem_of_pinned hp) hp) rfl
        rw [hzero]
        exact congrArg PublicKeyItem.pinCount ((k'.memb.take i).set_mem_same i _)
      · rw [hitem i hij]

/-- A poll that is spent keeps the ledger. -/
theorem Ledger.withPolled (h : Ledger E k ecdh rx R) (polled : Bool) :
    Ledger E {k with polled := polled} ecdh rx R :=
  h.withStore (h.store.withPolled polled) (fun _ hi _ => ⟨hi,rfl⟩) (fun _ => rfl) rfl

/-- Deriving a context keeps the ledger. -/
theorem Ledger.sharedSecret (h : Ledger E k ecdh rx R) (i : Fin n) (secret : List UInt8) :
    Ledger E (generateSharedSecret E k i secret) ecdh rx R := by
  have hcert := setItem_cert (k:=k) i (v:={k.item i with
    context := some ⟨secret,oscoreId E.ourCert.subject,oscoreId (k.subject i)⟩}) rfl
  refine h.withStore (h.store.sharedSecret i secret) (fun j hj _ => ⟨hj,hcert j⟩) (fun j => ?_) rfl
  by_cases hij : j=i
  · subst hij
    exact (congrArg PublicKeyItem.pinCount (k.memb.set_mem_same j _)).trans rfl
  · exact congrArg PublicKeyItem.pinCount (k.memb.set_mem_other _ hij)

/-- The end of the ECDH child keeps the ledger: its key was pinned until then. -/
theorem Ledger.ecdhDone {i : Fin n} (h : Ledger E k (some i) rx R) (success : Bool)
    (secret : List UInt8) : keystoreIsPinned k i=true ∧
      Ledger E (onEcdhDone E ⟨k,some i,[]⟩ i success secret).store none rx R := by
  have hunpin : ∀ k', Ledger E k' (some i) rx R → Ledger E (keystoreUnpin k' i) none rx R := by
    intro k' h'
    have hcert := setItem_cert (k:=k') i
      (v:={k'.item i with pinCount := (k'.item i).pinCount-1}) rfl
    refine ⟨h'.store.unpin i,h'.waiting,h'.entries,h'.keys,fun q hq r hr => ?_,
      fun _ hn => (nomatch hn),fun j => ?_⟩
    · exact (h'.pubkeys q hq r hr).trans (congrArg Certificate.publicKey (hcert _).symm)
    · exact unpinned_toNat ((h'.pins j).trans (users_ecdh i j))
  refine ⟨(keystoreIsPinned_iff k i).mpr (h.pinned (users_pos_of_ecdh rfl)),?_⟩
  cases success with
  | true => exact (hunpin _ (h.sharedSecret i secret)).withPolled true
  | false => exact (hunpin _ h).withPolled true

/-- Without room at the verifier no entry is queued. -/
theorem outstanding_addStart_of_full (E : Env n) (k : Store n) :
    (keystoreAddStart E k false).outstanding=k.outstanding := by
  unfold keystoreAddStart
  split
  · rfl
  · split
    · rfl
    · split
      · rfl
      · rw [if_pos rfl]
        rfl

/-- `keystore_add_start` keeps the ledger, with a new request exactly for
the entry that it has queued, if any. -/
theorem Ledger.addStart (h : Ledger E k none rx R) (queued : Bool) :
    ((keystoreAddStart E k queued).outstanding=k.outstanding ∧
        Ledger E (keystoreAddStart E k queued) none rx R) ∨
      (queued=true ∧ ∃ e, (keystoreAddStart E k queued).outstanding=k.outstanding++[e] ∧
        Ledger E (keystoreAddStart E k queued) none rx ((.keystore e,e.pubkey)::R)) := by
  have hI := h.store.addStart queued
  rcases keystoreAddStart_cases E k queued with hk | ⟨_,i,rest,buffer,_,hk⟩ |
    ⟨_,i,rest,_,_,_,hk⟩
  · rw [hk]
    exact Or.inl ⟨rfl,h⟩
  · rw [hk] at hI ⊢
    exact Or.inl ⟨rfl,h.withStore hI (fun _ hi _ => ⟨hi,rfl⟩) (fun _ => rfl) rfl⟩
  · cases queued with
    | false =>
      have hlen := congrArg (fun k' : Store n => k'.outstanding.length) hk
      simp [outstanding_addStart_of_full] at hlen
    | true =>
      rw [hk] at hI ⊢
      refine Or.inr ⟨rfl,entryFor E k i (filledBuffer E k i),rfl,hI,h.waiting,?_,h.keys,?_,
        fun _ hn => (nomatch hn),h.pins⟩
      · exact (h.entries.cons _).trans (List.perm_append_singleton _ _).symm
      · intro q hq r hr
        rcases List.mem_cons.mp hq with rfl | hq
        · cases hr
        · exact h.pubkeys q hq r hr

/-- A verdict about a certificate keeps the ledger without its request: on
success the item becomes usable and is pinned for the ECDH child. -/
theorem Ledger.verified (hm : m+1<UInt16.size) {e : VerifyEntry n} {pubkey : PublicKey}
    (h : Ledger E k none rx ((.keystore e,pubkey)::R)) (result : UInt8) :
    Ledger E (onVerified E ⟨k,none,[]⟩ e result []).store
      (onVerified E ⟨k,none,[]⟩ e result []).ecdh rx R := by
  have hmem : e∈k.outstanding := h.entries.mem_iff.mp List.mem_cons_self
  obtain ⟨hout,_,hheld⟩ := h.store.entry hmem
  have hempty : k.outstanding.erase e=[] := by simp [hout]
  have hnone : R.filterMap keystoreEntry=[] := by
    have hperm : (e::R.filterMap keystoreEntry).Perm [e] := hout ▸ h.entries
    exact List.perm_nil.mp (List.perm_cons _ |>.mp hperm)
  have hI := h.store.addContinued hmem result
  have hnot := h.store.not_verified hheld.waiting
  have hpub : ∀ q∈R, ∀ r∈trustItem q, q.2=(k.item (rx.mem r).key).cert.publicKey :=
    fun q hq => h.pubkeys q (List.mem_cons_of_mem _ hq)
  unfold onVerified
  unfold keystoreAddContinued at hI ⊢
  split_ifs at hI ⊢ with hok
  · dsimp only at hI ⊢
    have hcert := setItem_cert (k:={k with
        publicKeysToVerify := k.publicKeysToVerify.erase e.data
        publicKeys := listPush k.publicKeys e.data
        outstanding := k.outstanding.erase e
        addBufferInUse := false}) e.data
      (v:={k.item e.data with pinCount := (k.item e.data).pinCount+1}) rfl
    have hpush := listPush_of_not_mem hnot
    refine ⟨hI.pin e.data,h.waiting,?_,fun r hr => ?_,fun q hq r hr => ?_,fun i hi => ⟨?_,hempty⟩,
      fun i => ?_⟩
    · rw [hnone]
      exact List.Perm.of_eq hempty.symm
    · change (rx.mem r).key∈listPush k.publicKeys e.data
      rw [hpush]
      exact List.mem_cons_of_mem _ (h.keys r hr)
    · exact (hpub q hq r hr).trans (congrArg Certificate.publicKey (hcert _).symm)
    · change i∈listPush k.publicKeys e.data
      rw [hpush]
      exact Option.some.inj hi ▸ List.mem_cons_self
    · have hle := (users_le h.waiting (some e.data) i).trans_lt hm
      have hpins := h.pins i
      rw [keystorePin_pinCount]
      simp only [users,Option.some.injEq,reduceCtorEq,if_false,Nat.add_zero] at hle hpins ⊢
      split
      · next he =>
        rw [if_pos he] at hle
        exact pin_toNat hpins rfl hle
      · exact hpins
  · dsimp only at hI ⊢
    refine ⟨hI.withPolled true,h.waiting,?_,fun r hr => h.keys r hr,hpub,
      fun _ hn => (nomatch hn),h.pins⟩
    rw [hnone]
    exact List.Perm.of_eq hempty.symm

end Ledger

end TrustAlloc.TrustReceive
