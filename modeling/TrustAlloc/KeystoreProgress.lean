import TrustAlloc.CertificateCodec
import TrustAlloc.TrustReceiveRuns

/-!
# Progress of the keystore's verifications

Certificates that wait are verified one at a time, and only a wake-up of the
keystore process starts the next. The counting that makes this work goes over
two pools: received items hold at most one entry of the verifier each and the
keystore holds one, so an entry is free whenever the keystore wants one. The
ECDH child swallows every event that reaches it, but it runs only while the
keystore has nothing with the verifier. Certificates come from
`certificate_decode`, which lets only valid device classes pass, so none is
too long to be encoded.
-/

namespace TrustAlloc.TrustReceive

open Certificates CborCodec CertificateCodec EdgeInfo Addresses Keystore Pools Runs

variable {n m v : ℕ}

/-- Entries of the keystore that are queued, being verified or posted. -/
def keystoreEntries (s : System n m v) : List (Fin v) :=
  s.underWay.filter fun j => (keystoreEntry (request s.verifier j)).isSome

/-- The keystore's verifications in a state of the system. -/
structure Progress (T : TrustEnv n m v) (s : System n m v) : Prop where
  /-- At most one verification is outstanding. -/
  single : (keystoreEntries s).length≤1
  /-- None is queued, being verified or posted while the ECDH child runs. -/
  childAlone : s.ecdh≠none → keystoreEntries s=[]
  /-- No event was swallowed by the child. -/
  kept : s.verifier.lost=[]
  /-- When the keystore has none outstanding, the verifier has room for one. -/
  room : keystoreEntries s=[] → (T.verifyAllocator.pick s.verifier.memb.used).isSome=true
  /-- While certificates wait, a verification is outstanding, or the child
  runs, or the process will be polled. -/
  scheduled : s.store.publicKeysToVerify≠[] →
    keystoreEntries s≠[] ∨ s.ecdh≠none ∨ s.store.polled=true

/-- What a step does about certificates that wait. -/
structure Attended (T : TrustEnv n m v) (s : System n m v) (op : Op v n) : Prop where
  /-- A certificate waits until the verdict about it is delivered. -/
  waits : ∀ i∈s.store.publicKeysToVerify, i∈(step T s op).store.publicKeysToVerify ∨
    ∃ entry e, op=.deliver entry ∧ (s.verifier.memb.mem entry).data=.keystore e ∧ e.data=i
  /-- A poll without child, while nothing is outstanding, queues the first. -/
  starts : op=.poll → s.ecdh=none → keystoreEntries s=[] → s.store.publicKeysToVerify≠[] →
    keystoreEntries (step T s op)≠[]
  /-- The end of the child is followed by a poll. -/
  wakes : ∀ success secret, op=.ecdhDone success secret → s.ecdh≠none →
    (step T s op).store.polled=true

/-- A certificate that is added has a device class that `certificate_decode`
lets pass. -/
def Decoded : Op v n → Prop
  | .add cert => ValidClass cert.tags
  | _ => True

/-- Whether it has is decided by the certificate. -/
instance decidableDecoded : ∀ op : Op v n, Decidable (Decoded op)
  | .add cert => inferInstanceAs (Decidable (ValidClass cert.tags))
  | .post _ _ | .remove _ | .poll | .dequeue | .verify _ | .deliver _ | .ecdhDone _ _ =>
    .isTrue trivial

/-- Which steps can happen: those of the system, with decoded certificates. -/
def AdmittedDecoded (s : System n m v) (op : Op v n) : Prop := Admitted s op ∧ Decoded op

/-- Admission is decided by the current state. -/
instance decidableAdmittedDecoded (s : System n m v) (op : Op v n) :
    Decidable (AdmittedDecoded s op) := inferInstanceAs (Decidable (_ ∧ _))

section Counting

variable {T : TrustEnv n m v} {s : System n m v}

/-- The keystore's entries under way are those it has outstanding. -/
theorem keystoreEntries_perm (h : SystemInv T s) :
    ((keystoreEntries s).filterMap fun j => keystoreEntry (request s.verifier j)).Perm
      s.store.outstanding := by
  have hpending : pending s.verifier=s.underWay := by
    rw [pending,h.queue.kept,List.append_nil]
    rfl
  have hentries := h.ledger.entries
  rw [requests,hpending,List.filterMap_map] at hentries
  rw [keystoreEntries,List.filterMap_filter]
  refine (List.Perm.of_eq (List.filterMap_congr fun j _ => ?_)).trans hentries
  cases hj : keystoreEntry (request s.verifier j) with
  | none => simp [hj]
  | some e => simp [hj]

/-- There are as many as are outstanding. -/
theorem length_keystoreEntries (h : SystemInv T s) :
    (keystoreEntries s).length=s.store.outstanding.length := by
  have hlen := (keystoreEntries_perm h).length_eq
  rw [←hlen]
  refine (List.filterMap_length_eq_length.mpr fun j hj => ?_).symm
  exact (List.mem_filter.mp hj).2

/-- None is under way exactly when none is outstanding. -/
theorem keystoreEntries_eq_nil_iff (h : SystemInv T s) :
    keystoreEntries s=[] ↔ s.store.outstanding=[] := by
  rw [←List.length_eq_zero_iff,length_keystoreEntries h,List.length_eq_zero_iff]

/-- Every request is the keystore's or the trust model's. -/
theorem length_requests (R : List (Requester n m×PublicKey)) :
    R.length=(R.filterMap trustItem).length+(R.filterMap keystoreEntry).length := by
  induction R with
  | nil => rfl
  | cons q R ih =>
    obtain ⟨requester,pubkey⟩ := q
    cases requester with
    | keystore e =>
      simp only [List.filterMap_cons,trustItem,keystoreEntry,List.length_cons]
      omega
    | trust r =>
      simp only [List.filterMap_cons,trustItem,keystoreEntry,List.length_cons]
      omega

/-- With an entry more than there are received items, one is free as long as
the keystore has none. -/
theorem SystemInv.room (h : SystemInv T s) (hsize : m+1≤v) (hout : s.store.outstanding=[]) :
    (T.verifyAllocator.pick s.verifier.memb.used).isSome=true := by
  refine (T.verifyAllocator.pick_isSome _).mpr ?_
  by_contra hfull
  have hused : ∀ i, s.verifier.memb.used i=true := fun i =>
    Bool.not_eq_false _ ▸ fun hi => hfull ⟨i,hi⟩
  have hall : (requests s.verifier).length=v := by
    rw [requests,List.length_map]
    exact h.queue.verifier.owns.length_of_full hused
  have htrust : ((requests s.verifier).filterMap trustItem).length≤ m := h.ledger.waiting.length_le
  have hnone : ((requests s.verifier).filterMap keystoreEntry).length=0 := by
    rw [h.ledger.entries.length_eq,hout]
    rfl
  have hsplit := length_requests (requests s.verifier)
  omega

end Counting

/-- Certificates that wait can be encoded, and something will attend to them. -/
structure Awake (k : Store n) (ecdh : Option (Fin n)) : Prop where
  /-- Their device classes are valid. -/
  valid : ∀ i∈k.publicKeysToVerify, ValidClass (k.item i).cert.tags
  /-- One is with the verifier, or the child runs, or a poll is pending. -/
  scheduled : k.publicKeysToVerify≠[] → k.outstanding≠[] ∨ ecdh≠none ∨ k.polled=true

section Waiting

variable {E : Env n} {k : Store n} {ecdh : Option (Fin n)}

/-- What leaves the waiting list, its certificates, the entries with the
verifier and the pending poll alone keeps certificates attended to. -/
theorem Awake.congr (h : Awake k ecdh) {k' : Store n}
    (hwait : k'.publicKeysToVerify=k.publicKeysToVerify)
    (hcert : ∀ i, (k'.item i).cert=(k.item i).cert) (hout : k'.outstanding=k.outstanding)
    (hpolled : k.polled=true → k'.polled=true) : Awake k' ecdh := by
  refine ⟨fun i hi => ?_,fun hne => ?_⟩
  · rw [hwait] at hi
    rw [hcert i]
    exact h.valid i hi
  · rw [hwait] at hne
    rw [hout]
    exact (h.scheduled hne).imp_right (Or.imp_right hpolled)

/-- Rewriting an item with the same certificate keeps them attended to. -/
theorem Awake.setItem (h : Awake k ecdh) (i : Fin n) {item : PublicKeyItem}
    (hitem : item.cert=(k.item i).cert) : Awake (k.setItem i item) ecdh :=
  h.congr rfl (setItem_cert i hitem) rfl id

/-- `keystore_pin` keeps them attended to. -/
theorem Awake.pin (h : Awake k ecdh) (i : Fin n) : Awake (keystorePin k i) ecdh := h.setItem i rfl

/-- `keystore_unpin` keeps them attended to. -/
theorem Awake.unpin (h : Awake k ecdh) (i : Fin n) : Awake (keystoreUnpin k i) ecdh :=
  h.setItem i rfl

/-- Certificates that wait for a poll are attended to. -/
theorem awake_of_polled (hvalid : ∀ i∈k.publicKeysToVerify, ValidClass (k.item i).cert.tags)
    (hpolled : k.polled=true) : Awake k ecdh := ⟨hvalid,fun _ => Or.inr (Or.inr hpolled)⟩

/-- `keystore_remove` leaves a pending poll. -/
theorem keystoreRemove_polled (E : Env n) (k : Store n) (i : Fin n) :
    (keystoreRemove E k i).1.polled=k.polled := by
  rcases keystoreRemove_cases E k i with hr | ⟨_,_,hr⟩
  · rw [hr]
  · rw [hr]
    rfl

/-- So do evictions. -/
theorem freeUpSpaceLoop_polled (E : Env n) (l : List (Fin n)) (k : Store n) :
    (freeUpSpaceLoop E l k).1.polled=k.polled := by
  induction l generalizing k with
  | nil => rfl
  | cons i rest ih =>
    have hremove := keystoreRemove_polled E k i
    unfold freeUpSpaceLoop
    split_ifs
    · exact ih k
    · exact ih k
    · exact hremove
    · exact hremove
    · exact (ih _).trans hremove

/-- `keystore_add` leaves a pending poll. -/
theorem keystoreAdd_polled (h : k.polled=true) (cert : Certificate) :
    (keystoreAdd E k cert).1.polled=true := by
  have hfreed : (keystoreFreeUpSpace E k).1.polled=true :=
    (freeUpSpaceLoop_polled E k.publicKeys k).trans h
  unfold keystoreAdd
  split
  · exact h
  · split
    · rfl
    · split
      · rfl
      · split_ifs
        · split
          · rfl
          · exact hfreed
        · exact hfreed

/-- `keystore_remove` keeps the certificates attended to. -/
theorem Awake.remove (h : Awake k ecdh) (item : Fin n) :
    Awake (keystoreRemove E k item).1 ecdh := by
  have hev := keystoreRemove_evicted E k item
  exact h.congr hev.publicKeysToVerify (fun i => by rw [Store.item,hev.mem]) hev.outstanding
    fun hp => (keystoreRemove_polled E k item).trans hp

/-- A new certificate waits behind the others. -/
theorem enqueue_waiting (hown : Owns k.memb.used k.listed) {i : Fin n} (hi : k.memb.used i=false)
    (cert : Certificate) :
    (k.enqueue i cert).publicKeysToVerify=k.publicKeysToVerify++[i] :=
  listAdd_of_not_mem fun hmem => hown.not_mem hi (List.mem_append_right _ hmem)

/-- `keystore_add` of a valid certificate keeps them attended to. -/
theorem Awake.add (h : Awake k ecdh) (hown : Owns k.memb.used k.listed) {cert : Certificate}
    (hcert : ValidClass cert.tags) : Awake (keystoreAdd E k cert).1 ecdh := by
  have hpolled : k.polled=true → (keystoreAdd E k cert).1.polled=true :=
    fun hp => keystoreAdd_polled hp cert
  rcases keystoreAdd_cases E k cert hown with ⟨_,ha⟩ | ⟨_,_,hev,_⟩ | ⟨_,_,k',i,hev,hi,ha⟩
  · rw [ha]
    exact h
  · exact h.congr hev.publicKeysToVerify (fun i => by rw [Store.item,hev.mem]) hev.outstanding
      hpolled
  · rw [ha]
    have hown' := hev.owns hown
    refine awake_of_polled (fun j hj => ?_) rfl
    rw [enqueue_waiting hown' hi,List.mem_append,List.mem_singleton] at hj
    obtain hold | rfl := hj
    · have hne : j≠i := fun he => hown'.not_mem hi (List.mem_append_right _ (he ▸ hold))
      rw [enqueue_item_other hne,Store.item,hev.mem]
      exact h.valid j (hev.publicKeysToVerify ▸ hold)
    · have hnew : ((k'.enqueue j cert).item j).cert=cert :=
        congrArg PublicKeyItem.cert ((k'.memb.take j).set_mem_same j _)
      rw [hnew]
      exact hcert

/-- The certificates that wait go on waiting. -/
theorem waiting_add (hown : Owns k.memb.used k.listed) (cert : Certificate) {i : Fin n}
    (hi : i∈k.publicKeysToVerify) : i∈(keystoreAdd E k cert).1.publicKeysToVerify := by
  rcases keystoreAdd_cases E k cert hown with ⟨_,ha⟩ | ⟨_,_,hev,_⟩ | ⟨_,_,k',j,hev,hj,ha⟩
  · rw [ha]
    exact hi
  · rw [hev.publicKeysToVerify]
    exact hi
  · rw [ha,enqueue_waiting (hev.owns hown) hj,hev.publicKeysToVerify]
    exact List.mem_append_left _ hi

/-- A certificate with a valid class can be encoded. -/
theorem encodeItem_valid (hN : StandardHeads E.nanocbor) {i : Fin n}
    (h : ValidClass (k.item i).cert.tags) :
    (encodeItem E k i).2=0 ∧ (encodeItem E k i).1.len≤tbsCertificateCborLength := by
  have hlen := length_tbsEncoding h
  have hroom := certificateEncodeTbs_room (c:=(k.item i).cert) hN
    (nanocborEncoderInit tbsCertificateCborLength) (by
      simp only [nanocborEncoderInit,List.length_nil,Nat.zero_add]
      exact hlen)
  rw [encodeItem,hroom]
  simp only [nanocborEncoderInit,Nat.zero_add]
  exact ⟨trivial,hlen⟩

/-- With room at the verifier, `keystore_add_start` drops no certificate; it
leaves something with the verifier, unless nothing waits. -/
theorem addStart_valid (hN : StandardHeads E.nanocbor) (hI : Inv E k)
    (hvalid : ∀ i∈k.publicKeysToVerify, ValidClass (k.item i).cert.tags) {queued : Bool}
    (hqueued : k.outstanding=[] → queued=true) :
    (keystoreAddStart E k queued).publicKeysToVerify=k.publicKeysToVerify ∧
      (keystoreAddStart E k queued).memb=k.memb ∧
      (k.publicKeysToVerify≠[] → (keystoreAddStart E k queued).outstanding≠[]) := by
  rcases hI.outstanding with ⟨hidle,hnone⟩ | ⟨huse,e,hone,_⟩
  · rw [hqueued hnone,keystoreAddStart,if_neg (by rw [hidle]; decide)]
    cases hw : k.publicKeysToVerify with
    | nil => exact ⟨hw,rfl,fun hne => absurd rfl hne⟩
    | cons i rest =>
      obtain ⟨hok,hlen⟩ := encodeItem_valid hN (hvalid i (hw ▸ List.mem_cons_self))
      dsimp only
      rw [if_neg (not_or.mpr ⟨not_not.mpr hok,not_lt.mpr hlen⟩),if_neg (by decide)]
      exact ⟨rfl,rfl,fun _ => by simp⟩
  · rw [keystoreAddStart,if_pos huse]
    exact ⟨rfl,rfl,fun _ => by rw [hone]; exact List.cons_ne_nil _ _⟩

/-- A verdict about a certificate keeps the others attended to. -/
theorem Awake.verified (h : Awake k none) (e : VerifyEntry n) (result : UInt8) :
    Awake (onVerified E ⟨k,none,[]⟩ e result []).store
      (onVerified E ⟨k,none,[]⟩ e result []).ecdh := by
  have hsub : ∀ i∈k.publicKeysToVerify.erase e.data, ValidClass (k.item i).cert.tags :=
    fun i hi => h.valid i (List.mem_of_mem_erase hi)
  unfold onVerified keystoreAddContinued
  split_ifs
  · have hnext : Awake {k with
        publicKeysToVerify := k.publicKeysToVerify.erase e.data
        publicKeys := listPush k.publicKeys e.data
        outstanding := k.outstanding.erase e
        addBufferInUse := false} (some e.data) :=
      ⟨hsub,fun _ => Or.inr (Or.inl (Option.some_ne_none _))⟩
    exact hnext.pin e.data
  · exact awake_of_polled hsub rfl

/-- The end of the ECDH child keeps the certificates attended to. -/
theorem Awake.ecdhDone (h : Awake k ecdh) (i : Fin n) (success : Bool) (secret : List UInt8) :
    Awake (onEcdhDone E ⟨k,ecdh,[]⟩ i success secret).store none := by
  have hvalid : ∀ k' : Store n, Awake k' ecdh →
      Awake {keystoreUnpin k' i with polled := true} none :=
    fun k' h' => awake_of_polled (h'.unpin i).valid rfl
  cases success with
  | true => exact hvalid _ (h.setItem i rfl)
  | false => exact hvalid _ h

end Waiting

section Steps

variable {T : TrustEnv n m v} {s : System n m v}

/-- A poll drops no certificate, and afterwards something is with the verifier. -/
theorem poll_valid (hN : StandardHeads T.keystore.nanocbor) (hsize : m+1≤v) (h : SystemInv T s)
    (hA : Awake s.store s.ecdh) (hecdh : s.ecdh=none) :
    (keystorePoll T s).store.publicKeysToVerify=s.store.publicKeysToVerify ∧
      (keystorePoll T s).store.memb=s.store.memb ∧
      (s.store.publicKeysToVerify≠[] → (keystorePoll T s).store.outstanding≠[]) := by
  rw [(poll_kept T s hecdh).1]
  exact addStart_valid (k:={s.store with polled := false}) hN (h.ledger.store.withPolled false)
    hA.valid fun hout => h.room hsize hout

/-- What every step needs and keeps: the ledger of pins, and that certificates
that wait are attended to. -/
structure ProgressInv (T : TrustEnv n m v) (s : System n m v) : Prop where
  /-- The invariant of the system. -/
  system : SystemInv T s
  /-- Something will attend to the certificates that wait. -/
  awake : Awake s.store s.ecdh

/-- Every step keeps the certificates attended to. -/
theorem ProgressInv.awake_step (hN : StandardHeads T.keystore.nanocbor) (hsize : m+1≤v)
    (h : ProgressInv T s) {op : Op v n} (hop : AdmittedDecoded s op) :
    Awake (step T s op).store (step T s op).ecdh := by
  cases op with
  | post src payload =>
    obtain ⟨hecdh,hstore | ⟨key,hstore⟩ | ⟨key,hstore⟩⟩ := post_store T s src payload
    · rw [step,hecdh,hstore]
      exact h.awake
    · rw [step,hecdh,hstore]
      exact h.awake.pin key
    · rw [step,hecdh,hstore]
      exact (h.awake.pin key).unpin key
  | add cert => exact h.awake.add h.system.ledger.store.owns hop.2
  | remove item => exact h.awake.remove item
  | poll =>
    rw [step]
    cases hecdh : s.ecdh with
    | some i =>
      unfold keystorePoll
      rw [hecdh]
      exact ⟨h.awake.valid,fun _ => Or.inr (Or.inl (Option.some_ne_none i))⟩
    | none =>
      obtain ⟨hwait,hmemb,hout⟩ := poll_valid hN hsize h.system h.awake hecdh
      refine ⟨fun i hi => ?_,fun hne => Or.inl (hout (hwait ▸ hne))⟩
      rw [hwait] at hi
      rw [Store.item,hmemb]
      exact h.awake.valid i hi
  | dequeue => exact h.awake
  | verify codes => exact h.awake
  | deliver entry =>
    rw [step,deliver]
    split
    · next e he =>
      have hidle := (h.system.entry hop.1 he).2
      have hA := h.awake
      rw [hidle] at hA
      unfold keystoreVerified
      rw [hidle]
      exact hA.verified e _
    · next r _ => exact h.awake.unpin _
  | ecdhDone success secret =>
    rw [step]
    unfold keystoreEcdhDone
    split
    · exact h.awake
    · next i _ => exact h.awake.ecdhDone i success secret

/-- Every step keeps the invariant. -/
theorem ProgressInv.step (hN : StandardHeads T.keystore.nanocbor) (hsize : m+1≤v)
    (h : ProgressInv T s) {op : Op v n} (hop : AdmittedDecoded s op) :
    ProgressInv T (step T s op) := ⟨h.system.step hop.1,h.awake_step hN hsize hop⟩

/-- The invariant contains progress. -/
theorem ProgressInv.progress (hsize : m+1≤v) (h : ProgressInv T s) : Progress T s := by
  have hnil := keystoreEntries_eq_nil_iff h.system
  refine ⟨?_,fun hchild => ?_,h.system.queue.kept,fun hidle => ?_,fun hwait => ?_⟩
  · rw [length_keystoreEntries h.system]
    rcases h.system.ledger.store.outstanding with ⟨_,hnone⟩ | ⟨_,e,hone,_⟩
    · rw [hnone]
      exact Nat.zero_le _
    · rw [hone]
      exact le_refl _
  · obtain ⟨i,hi⟩ := Option.ne_none_iff_exists'.mp hchild
    exact hnil.mpr (h.system.ledger.child i hi).2
  · exact h.system.room hsize (hnil.mp hidle)
  · exact (h.awake.scheduled hwait).imp_left (mt hnil.mp)

/-- No step loses a certificate that waits. -/
theorem ProgressInv.waits (hN : StandardHeads T.keystore.nanocbor) (hsize : m+1≤v)
    (h : ProgressInv T s) {op : Op v n} (hop : AdmittedDecoded s op) {i : Fin n}
    (hi : i∈s.store.publicKeysToVerify) : i∈(TrustReceive.step T s op).store.publicKeysToVerify ∨
      ∃ entry e, op=.deliver entry ∧ (s.verifier.memb.mem entry).data=.keystore e ∧ e.data=i := by
  cases op with
  | post src payload =>
    obtain ⟨_,hstore | ⟨key,hstore⟩ | ⟨key,hstore⟩⟩ := post_store T s src payload <;>
      exact Or.inl (by rw [TrustReceive.step,hstore]; exact hi)
  | add cert => exact Or.inl (waiting_add h.system.ledger.store.owns cert hi)
  | remove item =>
    refine Or.inl ?_
    rw [TrustReceive.step,(keystoreRemove_evicted T.keystore s.store item).publicKeysToVerify]
    exact hi
  | poll =>
    refine Or.inl ?_
    rw [TrustReceive.step]
    cases hecdh : s.ecdh with
    | some _ =>
      unfold keystorePoll
      rw [hecdh]
      exact hi
    | none =>
      rw [(poll_valid hN hsize h.system h.awake hecdh).1]
      exact hi
  | dequeue => exact Or.inl hi
  | verify codes => exact Or.inl hi
  | deliver entry =>
    rw [TrustReceive.step,deliver]
    split
    · next e he =>
      by_cases hei : e.data=i
      · exact Or.inr ⟨entry,e,rfl,he,hei⟩
      · refine Or.inl ?_
        have hkept : i∈s.store.publicKeysToVerify.erase e.data :=
          (List.mem_erase_of_ne (Ne.symm hei)).mpr hi
        unfold keystoreVerified
        rw [(h.system.entry hop.1 he).2]
        unfold onVerified keystoreAddContinued
        split_ifs <;> exact hkept
    · exact Or.inl hi
  | ecdhDone success secret =>
    refine Or.inl ?_
    rw [TrustReceive.step]
    unfold keystoreEcdhDone
    split
    · exact hi
    · cases success <;> exact hi

/-- Every step attends to the certificates that wait. -/
theorem ProgressInv.attended (hN : StandardHeads T.keystore.nanocbor) (hsize : m+1≤v)
    (h : ProgressInv T s) {op : Op v n} (hop : AdmittedDecoded s op) : Attended T s op := by
  refine ⟨fun i hi => h.waits hN hsize hop hi,?_,?_⟩
  · rintro rfl hecdh _ hwait
    have hnext := (h.step hN hsize hop).system
    rw [ne_eq,keystoreEntries_eq_nil_iff hnext]
    exact (poll_valid hN hsize h.system h.awake hecdh).2.2 hwait
  · rintro success secret rfl hchild
    obtain ⟨i,hi⟩ := Option.ne_none_iff_exists'.mp hchild
    rw [TrustReceive.step]
    unfold keystoreEcdhDone
    rw [hi]
    rfl

end Steps

/-- The invariant holds once both processes are initialised. -/
theorem progressInv_init (T : TrustEnv n m v) (hroot : ValidClass T.keystore.rootCert.tags)
    (item : Fin m → TrustRxItem n) (data : Requester n m) : ProgressInv T (init T item data) := by
  have hempty : Awake (emptyStore n) none :=
    ⟨fun _ hi => absurd hi List.not_mem_nil,fun hne => absurd rfl hne⟩
  exact ⟨systemInv_init T item data,hempty.add (inv_emptyStore T.keystore).owns hroot⟩

/-- **Verifications of the keystore make progress.** However certificates,
trust information, verdicts, polls and the ECDH child interleave, and with at
least one entry of the verifier more than received items: at most one
verification of the keystore is outstanding and none while the child runs, the
verifier always has room for the keystore, no certificate is dropped before
its verdict, and while certificates wait something will attend to them. -/
theorem progress_always (T : TrustEnv n m v) (hsize : m+1≤v)
    (hN : StandardHeads T.keystore.nanocbor) (hroot : ValidClass T.keystore.rootCert.tags)
    (item : Fin m → TrustRxItem n) (data : Requester n m) (ops : List (Op v n))
    (hops : Along (step T) AdmittedDecoded (init T item data) ops) :
    Always (step T) (Progress T) (init T item data) ops ∧
      Along (step T) (Attended T) (init T item data) ops := by
  have hinit := progressInv_init T hroot item data
  constructor
  · exact (always_of_step (fun _ _ hI hA => hI.step hN hsize hA) hinit hops).mono fun _ hI =>
      hI.progress hsize
  · exact along_of_step (fun _ _ hI hA => hI.step hN hsize hA)
      (fun _ _ hI hA => hI.attended hN hsize hA) hinit hops

/-- Two received items and the keystore can be counted in 16 bits. -/
theorem default_rx_size : 2+1<UInt16.size := by decide

/-- The sample node with pools of the default sizes and an emitter of standard
CBOR. -/
def sampleProgressEnv : TrustEnv 2 2 3 where
  keystore := {sampleEnv 2 with nanocbor := standardNanocbor.toNanocbor}
  addresses := sampleAddressEnv
  rxAllocator := firstFit 2
  verifyAllocator := firstFit 3
  errors := Verifier.sampleErrors
  coapMaxChunkSize := 256
  rx_size := default_rx_size

/-- The sample run makes progress: trust information arrives while the ECDH
child for the root runs and is verified after it, and a certificate is added. -/
theorem progress_always_sample :
    Always (step sampleProgressEnv) (Progress sampleProgressEnv)
        (init sampleProgressEnv sampleItems sampleData) sampleOps ∧
      Along (step sampleProgressEnv) (Attended sampleProgressEnv)
        (init sampleProgressEnv sampleItems sampleData) sampleOps :=
  progress_always sampleProgressEnv (by decide) standardNanocbor_heads.toStandardHeads (by decide)
    sampleItems sampleData sampleOps (by decide +kernel)

end TrustAlloc.TrustReceive
