import TrustAlloc.KeystoreRuns

/-!
# Uniqueness of subjects over the two lists

`keystore_add` looks a subject up twice, but both lookups walk the verified
list, so a subject that still waits for verification is placed again. Every
other operation only moves or removes items. Over whole runs subjects stay
unique exactly when no certificate is added while one for its subject waits
and there is room for another item.
-/

namespace TrustAlloc.Keystore

open Certificates Pools Runs

variable {n : ℕ} {E : Env n} {k : Store n}

/-- No subject occurs in two items over the two lists together. -/
def UniqueSubjects (k : Store n) : Prop := (k.listed.map k.subject).Nodup

/-- Uniqueness is decided by the listed items. -/
instance decidableUniqueSubjects (k : Store n) : Decidable (UniqueSubjects k) :=
  inferInstanceAs (Decidable (k.listed.map k.subject).Nodup)

/-- The operation does not add a certificate whose subject already waits for
verification at a moment when there is room for another item. -/
def NotQueuedTwice (E : Env n) (k : Store n) : Op n → Prop
  | .add cert => ¬((∃ i∈k.publicKeysToVerify, k.subject i=cert.subject) ∧ HasRoom E k)
  | _ => True

/-- The condition is decided by the waiting list and the room left. -/
instance decidableNotQueuedTwice (E : Env n) (k : Store n) :
    ∀ op, Decidable (NotQueuedTwice E k op)
  | .add _ => inferInstanceAs (Decidable (¬(_ ∧ HasRoom E k)))
  | .remove _ | .pin _ | .unpin _ | .addStart _ | .addContinued _ _ => .isTrue trivial

/-- Items that do not change keep their subjects. -/
theorem map_subject_congr {k' : Store n} {l : List (Fin n)}
    (h : ∀ i∈l, (k'.item i).cert=(k.item i).cert) : l.map k'.subject=l.map k.subject :=
  List.map_congr_left fun i hi => congrArg Certificate.subject (h i hi)

/-- Uniqueness passes to any part of the listed items with the same certificates. -/
theorem UniqueSubjects.of_subperm {k' : Store n} (h : UniqueSubjects k)
    (hsub : k'.listed.Subperm k.listed)
    (hcert : ∀ i∈k'.listed, (k'.item i).cert=(k.item i).cert) : UniqueSubjects k' := by
  obtain ⟨l,hperm,hl⟩ := hsub
  have hnd : (l.map k.subject).Nodup := (hl.map k.subject).nodup h
  rw [UniqueSubjects,map_subject_congr hcert]
  exact (hperm.map k.subject).nodup_iff.mp hnd

/-- Evictions keep subjects unique. -/
theorem UniqueSubjects.evicted {k' : Store n} (h : UniqueSubjects k) (he : Evicted k k') :
    UniqueSubjects k' := by
  refine h.of_subperm ?_ fun i _ => by rw [Store.item,he.mem]
  rw [Store.listed,he.publicKeysToVerify]
  exact (he.publicKeys.append (List.Sublist.refl _)).subperm

/-- Rewriting an item in place with the same certificate keeps subjects unique. -/
theorem UniqueSubjects.setItem (h : UniqueSubjects k) (i : Fin n) {v : PublicKeyItem}
    (hv : v.cert=(k.item i).cert) : UniqueSubjects (k.setItem i v) :=
  h.of_subperm (List.Subperm.refl _) fun j _ => setItem_cert i hv j

/-- After a certificate has been placed in a free block, subjects are unique
exactly when they were before and the new one is not among them. -/
theorem uniqueSubjects_enqueue_iff (hown : Owns k.memb.used k.listed) {i : Fin n}
    (hi : k.memb.used i=false) (cert : Certificate) :
    UniqueSubjects (k.enqueue i cert) ↔
      UniqueSubjects k ∧ ∀ j∈k.listed, k.subject j≠cert.subject := by
  have hnew : i∉k.listed := hown.not_mem hi
  have hnewv : i∉k.publicKeysToVerify := fun hm => hnew (List.mem_append_right _ hm)
  have hlisted : (k.enqueue i cert).listed=k.listed++[i] := by
    simp only [Store.enqueue,Store.listed,listAdd_of_not_mem hnewv,List.append_assoc]
  have hold : k.listed.map (k.enqueue i cert).subject=k.listed.map k.subject :=
    map_subject_congr fun j hj => by
      rw [enqueue_item_other fun h : j=i => hnew (h ▸ hj)]
  have hcert : (k.enqueue i cert).subject i=cert.subject :=
    congrArg (fun v : PublicKeyItem => v.cert.subject) ((k.memb.take i).set_mem_same i _)
  rw [UniqueSubjects,hlisted,List.map_append,hold,List.map_singleton,hcert,
    List.nodup_append,UniqueSubjects]
  constructor
  · rintro ⟨hnd,_,hdisj⟩
    exact ⟨hnd,fun j hj => hdisj _ (List.mem_map_of_mem hj) _ (List.mem_singleton.mpr rfl)⟩
  · rintro ⟨hnd,hne⟩
    refine ⟨hnd,List.nodup_singleton _,fun a ha b hb => ?_⟩
    obtain ⟨j,hj,rfl⟩ := List.mem_map.mp ha
    rw [List.mem_singleton.mp hb]
    exact hne j hj

/-- One `keystore_add` keeps subjects unique exactly when it does not place
a certificate whose subject still waits. -/
theorem uniqueSubjects_add_iff (h : Inv E k) (hu : UniqueSubjects k) (cert : Certificate) :
    UniqueSubjects (keystoreAdd E k cert).1 ↔ NotQueuedTwice E k (.add cert) := by
  rcases keystoreAdd_cases E k cert h.owns with ⟨hknown,ha⟩ | ⟨_,hroom,hev,_⟩ |
    ⟨hunknown,hroom,k',i,hev,hi,ha⟩
  · rw [ha]
    refine ⟨fun _ => ?_,fun _ => hu⟩
    -- a subject that is verified does not wait as well while subjects are unique
    rintro ⟨⟨j,hj,hsj⟩,_⟩
    obtain ⟨l,hl,hsl⟩ := hknown
    rw [UniqueSubjects,Store.listed,List.map_append,List.nodup_append] at hu
    exact hu.2.2 _ (List.mem_map_of_mem hl) _ (List.mem_map_of_mem hj) (hsl.trans hsj.symm)
  · exact ⟨fun _ hq => hroom hq.2,fun _ => hu.evicted hev⟩
  · rw [ha,uniqueSubjects_enqueue_iff (hev.owns h.owns) hi]
    have hsubj : ∀ j, k'.subject j=k.subject j := fun j => by
      rw [Store.subject,Store.item,hev.mem]
    constructor
    · rintro ⟨_,hnew⟩ ⟨⟨j,hj,hsj⟩,_⟩
      refine hnew j (List.mem_append_right _ ?_) ((hsubj j).trans hsj)
      rw [hev.publicKeysToVerify]
      exact hj
    · intro hq
      refine ⟨hu.evicted hev,fun j hj hsj => ?_⟩
      rw [hsubj] at hsj
      rcases List.mem_append.mp hj with hv | hw
      · exact hunknown j (hev.publicKeys.subset hv) hsj
      · rw [hev.publicKeysToVerify] at hw
        exact hq ⟨⟨j,hw,hsj⟩,hroom⟩

/-- `keystore_add_start` keeps subjects unique. -/
theorem UniqueSubjects.addStart (hu : UniqueSubjects k) (queued : Bool) :
    UniqueSubjects (keystoreAddStart E k queued) := by
  rcases keystoreAddStart_cases E k queued with hk | ⟨_,i,rest,buffer,hw,hk⟩ |
    ⟨_,i,rest,_,_,_,hk⟩
  · rw [hk]
    exact hu
  · rw [hk]
    exact hu.of_subperm ((List.Sublist.refl _).append List.erase_sublist).subperm fun _ _ => rfl
  · rw [hk]
    exact hu

/-- `keystore_add_continued` keeps subjects unique. -/
theorem UniqueSubjects.addContinued (hu : UniqueSubjects k) (h : Inv E k) {e : VerifyEntry n}
    (he : e∈k.outstanding) (result : UInt8) :
    UniqueSubjects (keystoreAddContinued E k e result).1 := by
  have hheld := (h.entry he).2.2
  unfold keystoreAddContinued
  split
  · exact hu.of_subperm (h.perm_verified hheld.waiting).symm.subperm fun _ _ => rfl
  · exact hu.of_subperm ((List.Sublist.refl _).append List.erase_sublist).subperm fun _ _ => rfl

/-- One admitted operation keeps subjects unique exactly when it does not
queue a waiting subject again. -/
theorem uniqueSubjects_step_iff (h : Inv E k) (hu : UniqueSubjects k) {op : Op n}
    (hop : Admitted k op) : UniqueSubjects (step E k op) ↔ NotQueuedTwice E k op := by
  cases op with
  | add cert => exact uniqueSubjects_add_iff h hu cert
  | remove item => exact iff_of_true (hu.evicted (keystoreRemove_evicted E k item)) trivial
  | pin item => exact iff_of_true (hu.setItem item rfl) trivial
  | unpin item => exact iff_of_true (hu.setItem item rfl) trivial
  | addStart queued => exact iff_of_true (hu.addStart queued) trivial
  | addContinued entry result => exact iff_of_true (hu.addContinued h hop result) trivial

/-- Subjects are unique after `keystore_init`. -/
theorem uniqueSubjects_keystoreInit (E : Env n) : UniqueSubjects (keystoreInit E) := by
  have hempty : UniqueSubjects (emptyStore n) := List.nodup_nil
  refine (uniqueSubjects_add_iff (inv_emptyStore E) hempty E.rootCert).mpr ?_
  rintro ⟨⟨i,hi,_⟩,_⟩
  cases hi

/-- **Subjects over a whole run.** In a run of the keystore that hands back
only entries it queued, all reachable states have unique subjects exactly
when no step adds a certificate whose subject waits while there is room. -/
theorem uniqueSubjects_always_iff (E : Env n) (ops : List (Op n))
    (hops : Along (step E) Admitted (keystoreInit E) ops) :
    Always (step E) UniqueSubjects (keystoreInit E) ops ↔
      Along (step E) (NotQueuedTwice E) (keystoreInit E) ops :=
  always_iff_along (fun _ _ hI hA => hI.step hA)
    (fun _ _ hI hP hA => uniqueSubjects_step_iff hI hP hA)
    (inv_keystoreInit E) (uniqueSubjects_keystoreInit E) hops

/-- A certificate whose identity, keys and signature repeat one byte. -/
def sampleCertificate (b : UInt8) : Certificate where
  serialNumber := 1
  issuer := .replicate 8 0
  subject := .replicate 8 b
  validityNotBefore := 0
  validityNotAfter := 1
  tags := ⟨1⟩
  publicKey := ⟨.replicate 32 b,.replicate 32 b⟩
  signature := ⟨.replicate 32 b,.replicate 32 b⟩

/-- A concrete environment: first-fit pools, one-byte CBOR heads, zero as the
value of a successful `memb_free` and as the only successful verdict. -/
def sampleEnv (n : ℕ) : Env n where
  rootCert := sampleCertificate 1
  ourCert := sampleCertificate 2
  nanocbor := ⟨fun _ => [0x80],fun _ => [0x00],fun _ => [0x40],fun b => if b=true then 0 else -1,
    by decide⟩
  allocator := firstFit n
  membFreed := 0
  unlinkClearsNext := true
  platformCryptoSuccess := fun r => decide (r=0)

/-- Certificates for different subjects may wait side by side. -/
theorem uniqueSubjects_always_iff_sample :
    Always (step (sampleEnv 12)) UniqueSubjects (keystoreInit (sampleEnv 12))
      [.add (sampleCertificate 3),.add (sampleCertificate 4)] :=
  (uniqueSubjects_always_iff (sampleEnv 12) [.add (sampleCertificate 3),.add (sampleCertificate 4)]
    (by decide)).mpr (by decide)

/-- The same certificate arriving twice while its first copy waits leaves two
items for one subject. -/
theorem not_uniqueSubjects_of_repeated_add :
    Along (step (sampleEnv 12)) Admitted (keystoreInit (sampleEnv 12))
        [.add (sampleCertificate 3),.add (sampleCertificate 3)] ∧
      ¬Always (step (sampleEnv 12)) UniqueSubjects (keystoreInit (sampleEnv 12))
        [.add (sampleCertificate 3),.add (sampleCertificate 3)] := by
  decide

end TrustAlloc.Keystore
