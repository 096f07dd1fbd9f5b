import TrustAlloc.CertificateDecoding
import TrustAlloc.Keystore

/-!
# Stereotypes

The data of `stereotypes.c` and the functions that work on them without
sending anything. What is known about edges with certain tags is on one list,
and the tags that are being asked for are on another; both take their entries
from one pool. Responses come from the network. The trust values are those of
the model in use, which also decodes them.
-/

namespace TrustAlloc.Stereotypes

open Certificates CertificateDecoding Decoding Keystore Pools Runs

/-- `edge_stereotype_t` without its list link. -/
structure EdgeStereotype (ET : Type) where
  /-- Tags that the stereotype is about. -/
  tags : StereotypeTags
  /-- Trust values of edges with these tags. -/
  edgeTm : ET

/-- The static data of `stereotypes.c` for `MAX_NUM_STEREOTYPES` entries. -/
structure StereotypeStore (n : ℕ) (ET : Type) where
  /-- `stereotypes_memb`. -/
  memb : Memb n (EdgeStereotype ET)
  /-- `stereotypes`. -/
  stereotypes : List (Fin n)
  /-- `stereotypes_requesting`. -/
  stereotypesRequesting : List (Fin n)

/-- What the stereotypes are built against. -/
structure StereotypeEnv (n : ℕ) (D ET : Type) where
  /-- Policy of `memb_alloc` on `stereotypes_memb`. -/
  allocator : Allocator n
  /-- The CBOR decoder. -/
  cbor : PublishDecoder D
  /-- `TRUST_MODEL_TAG`. -/
  trustModelTag : UInt32
  /-- `deserialise_trust_edge_resource`, on what the memory held before. -/
  deserialiseTrustEdgeResource : D → ET → Except ℤ (D×ET)

/-- A response, with what the stack of its handler held before. -/
structure Response (ET : Type) where
  /-- Content format, if there is one. -/
  contentFormat : Option ℕ
  /-- The payload. -/
  payload : List UInt8
  /-- Old contents of `stereotype.edge_tm`. -/
  stack : ET

variable {n m : ℕ} {D ET : Type}

/-- `stereotype_tags_equal`. -/
def stereotypeTagsEqual (a b : StereotypeTags) : Bool := decide (a.deviceClass=b.deviceClass)

/-- `keystore_certificate_contains_tags`. -/
def keystoreCertificateContainsTags (k : Store m) (tags : StereotypeTags) : Bool :=
  (k.publicKeys.any fun i => stereotypeTagsEqual tags (k.item i).cert.tags) ||
    (k.publicKeysToVerify.any fun i => stereotypeTagsEqual tags (k.item i).cert.tags)

namespace StereotypeStore

variable (s : StereotypeStore n ET)

/-- The stereotype in a block. -/
abbrev entry (i : Fin n) : EdgeStereotype ET := s.memb.mem i

/-- Both lists together, which is what owns the pool. -/
def listed : List (Fin n) := s.stereotypes++s.stereotypesRequesting

end StereotypeStore

/-- `edge_stereotype_find_in_list`. -/
def edgeStereotypeFindInList (s : StereotypeStore n ET) (tags : StereotypeTags)
    (l : List (Fin n)) : Option (Fin n) :=
  l.find? fun i => stereotypeTagsEqual (s.entry i).tags tags

/-- `edge_stereotype_find`. -/
def edgeStereotypeFind (s : StereotypeStore n ET) (tags : StereotypeTags) : Option (Fin n) :=
  edgeStereotypeFindInList s tags s.stereotypes

/-- `edge_stereotype_remove`; `memb_free` returns 0 for the block it frees. -/
def edgeStereotypeRemove (s : StereotypeStore n ET) (i : Fin n) : StereotypeStore n ET×Bool :=
  if i∈s.stereotypes then
    ({s with memb := s.memb.free i,stereotypes := s.stereotypes.erase i},true)
  else (s,false)

/-- The stereotype that `stereotypes_free_up_space` takes: the first one whose
tags no certificate has. -/
def firstUnneeded (k : Store m) (s : StereotypeStore n ET) : Option (Fin n) :=
  s.stereotypes.find? fun i => !keystoreCertificateContainsTags k (s.entry i).tags

/-- `stereotypes_free_up_space`. -/
def stereotypesFreeUpSpace (k : Store m) (s : StereotypeStore n ET) : StereotypeStore n ET×Bool :=
  match firstUnneeded k s with
  | some i => edgeStereotypeRemove s i
  | none => (s,false)

/-- Fill a free block with tags and put it at the front of the requested ones.
The trust values that the block held before are not touched. -/
def StereotypeStore.enqueue (s : StereotypeStore n ET) (i : Fin n) (tags : StereotypeTags) :
    StereotypeStore n ET := {s with
  memb := (s.memb.take i).set i {s.entry i with tags := tags}
  stereotypesRequesting := listPush s.stereotypesRequesting i}

/-- `stereotypes_request`; the process is polled when it returns true. -/
def stereotypesRequest (env : StereotypeEnv n D ET) (k : Store m) (s : StereotypeStore n ET)
    (tags : StereotypeTags) : StereotypeStore n ET×Bool :=
  if (edgeStereotypeFind s tags).isSome=true then (s,false)
  else if (edgeStereotypeFindInList s tags s.stereotypesRequesting).isSome=true then (s,false)
  else match env.allocator.pick s.memb.used with
    | some i => (s.enqueue i tags,true)
    | none =>
      if (stereotypesFreeUpSpace k s).2=false then ((stereotypesFreeUpSpace k s).1,false)
      else match env.allocator.pick (stereotypesFreeUpSpace k s).1.memb.used with
        | some i => ((stereotypesFreeUpSpace k s).1.enqueue i tags,true)
        | none => ((stereotypesFreeUpSpace k s).1,false)

/-- `deserialise_response`, with the model that the response is for. -/
def deserialiseResponse (env : StereotypeEnv n D ET) (dec : D) (stack : ET) :
    Except ℤ (D×UInt32×EdgeStereotype ET) := do
  let arr ← nanocborCheck (env.cbor.enterArray dec)
  let (arr,model) ← nanocborCheck (env.cbor.getUint32 arr)
  let (arr,tags) ← deserialiseStereotypeTags env.cbor arr
  let (arr,edgeTm) ← env.deserialiseTrustEdgeResource arr stack
  if env.cbor.atEnd arr=false then throw env.cbor.errEnd
  return (env.cbor.leaveContainer dec arr,model,⟨tags,edgeTm⟩)

/-- `APPLICATION_CBOR`. -/
def applicationCbor : ℕ := 60

/-- The stereotype that a response carries for the trust model in use. -/
def acceptedStereotype (env : StereotypeEnv n D ET) (r : Response ET) :
    Option (EdgeStereotype ET) :=
  if r.contentFormat≠some applicationCbor then none
  else match deserialiseResponse env (env.cbor.init r.payload) r.stack with
    | .error _ => none
    | .ok (_,model,stereotype) => if model≠env.trustModelTag then none else some stereotype

/-- A requested entry is filled and moves to the known ones. -/
def StereotypeStore.migrate (s : StereotypeStore n ET) (i : Fin n)
    (stereotype : EdgeStereotype ET) : StereotypeStore n ET where
  memb := s.memb.set i stereotype
  stereotypes := listPush s.stereotypes i
  stereotypesRequesting := s.stereotypesRequesting.erase i

/-- `process_sterotype_response`. -/
def processSterotypeResponse (env : StereotypeEnv n D ET) (s : StereotypeStore n ET)
    (r : Response ET) : StereotypeStore n ET :=
  match acceptedStereotype env r with
  | none => s
  | some stereotype =>
    match edgeStereotypeFindInList s stereotype.tags s.stereotypesRequesting with
    | none => s
    | some i => s.migrate i stereotype

/-- `stereotypes_init` on memory that holds the given trust values. -/
def stereotypesInit (n : ℕ) (et : ET) : StereotypeStore n ET where
  memb := ⟨fun _ => false,fun _ => ⟨⟨0⟩,et⟩⟩
  stereotypes := []
  stereotypesRequesting := []

section Lookup

variable {s : StereotypeStore n ET} {tags : StereotypeTags} {l : List (Fin n)} {i : Fin n}

/-- Tags are compared as a whole. -/
theorem stereotypeTagsEqual_iff (a b : StereotypeTags) : stereotypeTagsEqual a b=true ↔ a=b := by
  cases a
  cases b
  simp [stereotypeTagsEqual]

/-- A lookup finds an entry of the list with the tags. -/
theorem edgeStereotypeFindInList_some (h : edgeStereotypeFindInList s tags l=some i) :
    i∈l ∧ (s.entry i).tags=tags :=
  ⟨List.mem_of_find?_eq_some h,by simpa [stereotypeTagsEqual_iff] using List.find?_some h⟩

/-- A lookup finds nothing exactly when no entry of the list has the tags. -/
theorem edgeStereotypeFindInList_none_iff :
    edgeStereotypeFindInList s tags l=none ↔ ∀ i∈l, (s.entry i).tags≠tags := by
  simp [edgeStereotypeFindInList,stereotypeTagsEqual_iff]

/-- No certificate on either list of the keystore has the tags. -/
theorem containsTags_false_iff (k : Store m) (tags : StereotypeTags) :
    keystoreCertificateContainsTags k tags=false ↔ ∀ j∈k.listed, (k.item j).cert.tags≠tags := by
  have hne : ∀ a b, stereotypeTagsEqual a b=false ↔ b≠a := fun a b => by
    rw [Bool.eq_false_iff,ne_eq,stereotypeTagsEqual_iff,eq_comm]
  simp only [keystoreCertificateContainsTags,Bool.or_eq_false_iff,List.any_eq_false,
    Bool.not_eq_true,hne,Store.listed,List.mem_append,or_imp,forall_and]

end Lookup

section Invariant

/-- The representation invariant of the stereotypes. -/
structure StoreInvariant (s : StereotypeStore n ET) : Prop where
  /-- Every used block is on exactly one of the two lists, once. -/
  owns : Owns s.memb.used s.listed
  /-- No tags occur twice. -/
  distinct : ∀ i∈s.listed, ∀ j∈s.listed, (s.entry i).tags=(s.entry j).tags → i=j

variable {s : StereotypeStore n ET} {i : Fin n}

/-- The empty store. -/
theorem storeInvariant_init (n : ℕ) (et : ET) : StoreInvariant (stereotypesInit n et) :=
  ⟨⟨List.nodup_nil,fun _ => by simp [stereotypesInit,StereotypeStore.listed]⟩,
    fun _ hi => (nomatch hi)⟩

/-- Removing an entry writes to none. -/
theorem edgeStereotypeRemove_entry (i j : Fin n) :
    (edgeStereotypeRemove s i).1.entry j=s.entry j := by
  unfold edgeStereotypeRemove
  split <;> rfl

/-- What is left of the two lists when an entry has been removed. -/
theorem edgeStereotypeRemove_lists (i : Fin n) :
    (edgeStereotypeRemove s i).1.stereotypes=s.stereotypes.erase i ∧
      (edgeStereotypeRemove s i).1.stereotypesRequesting=s.stereotypesRequesting := by
  unfold edgeStereotypeRemove
  split
  · exact ⟨rfl,rfl⟩
  · next hi => exact ⟨(List.erase_of_not_mem hi).symm,rfl⟩

/-- Removing an entry lists no other entries. -/
theorem mem_listed_of_remove {i j : Fin n} (h : j∈(edgeStereotypeRemove s i).1.listed) :
    j∈s.listed := by
  obtain ⟨hknown,hrequesting⟩ := edgeStereotypeRemove_lists (s:=s) i
  rw [StereotypeStore.listed,hknown,hrequesting] at h
  exact List.mem_append.mpr ((List.mem_append.mp h).imp_left List.mem_of_mem_erase)

/-- Removing an entry keeps the invariant. -/
theorem StoreInvariant.remove (h : StoreInvariant s) (i : Fin n) :
    StoreInvariant (edgeStereotypeRemove s i).1 := by
  unfold edgeStereotypeRemove
  split
  · next hi =>
    have hlisted : i∈s.listed := List.mem_append_left _ hi
    have herase : s.listed.erase i=s.stereotypes.erase i++s.stereotypesRequesting :=
      List.erase_append_left _ hi
    refine ⟨?_,fun a ha b hb => ?_⟩
    · change Owns (s.memb.free i).used (s.stereotypes.erase i++s.stereotypesRequesting)
      rw [←herase]
      exact h.owns.free hlisted
    · change a∈s.stereotypes.erase i++s.stereotypesRequesting at ha
      change b∈s.stereotypes.erase i++s.stereotypesRequesting at hb
      rw [←herase] at ha hb
      exact h.distinct a (List.mem_of_mem_erase ha) b (List.mem_of_mem_erase hb)
  · exact h

/-- Enqueueing new tags in a free block keeps the invariant. -/
theorem StoreInvariant.enqueue (h : StoreInvariant s) (hfree : s.memb.used i=false)
    {tags : StereotypeTags} (hnew : ∀ j∈s.listed, (s.entry j).tags≠tags) :
    StoreInvariant (s.enqueue i tags) := by
  have hnot := h.owns.not_mem hfree
  have hrequest : i∉s.stereotypesRequesting := fun hi => hnot (List.mem_append_right _ hi)
  have hperm : (s.enqueue i tags).listed.Perm (i::s.listed) := by
    change (s.stereotypes++listPush s.stereotypesRequesting i).Perm _
    rw [listPush_of_not_mem hrequest]
    exact List.perm_middle
  have hsame : (s.enqueue i tags).entry i={s.entry i with tags := tags} :=
    (s.memb.take i).set_mem_same i _
  have hother : ∀ j, j≠i → (s.enqueue i tags).entry j=s.entry j :=
    fun j hj => (s.memb.take i).set_mem_other _ hj
  refine ⟨(h.owns.take hfree).perm hperm.symm,fun a ha b hb heq => ?_⟩
  have hne : ∀ j∈s.listed, j≠i := fun j hj heq => hnot (heq ▸ hj)
  rcases List.mem_cons.mp (hperm.mem_iff.mp ha) with rfl | ha' <;>
    rcases List.mem_cons.mp (hperm.mem_iff.mp hb) with rfl | hb'
  · rfl
  · rw [hsame,hother b (hne b hb')] at heq
    exact absurd heq.symm (hnew b hb')
  · rw [hsame,hother a (hne a ha')] at heq
    exact absurd heq (hnew a ha')
  · rw [hother a (hne a ha'),hother b (hne b hb')] at heq
    exact h.distinct a ha' b hb' heq

/-- A requested entry that moves becomes the first known one, and no other known
entry changes. -/
theorem StoreInvariant.migrate_known (h : StoreInvariant s) (hi : i∈s.stereotypesRequesting)
    (stereotype : EdgeStereotype ET) :
    i∉s.stereotypes ∧ (s.migrate i stereotype).stereotypes=i::s.stereotypes ∧
      (s.migrate i stereotype).entry i=stereotype ∧
      ∀ j∈s.stereotypes, (s.migrate i stereotype).entry j=s.entry j := by
  have hnot : i∉s.stereotypes := fun hold =>
    (List.nodup_append.mp h.owns.nodup).2.2 i hold i hi rfl
  exact ⟨hnot,listPush_of_not_mem hnot,s.memb.set_mem_same i stereotype,
    fun j hj => s.memb.set_mem_other stereotype fun heq => hnot (heq ▸ hj)⟩

/-- Moving a requested entry, with the same tags, keeps the invariant. -/
theorem StoreInvariant.migrate (h : StoreInvariant s) (hi : i∈s.stereotypesRequesting)
    {stereotype : EdgeStereotype ET} (htags : (s.entry i).tags=stereotype.tags) :
    StoreInvariant (s.migrate i stereotype) := by
  have hperm : (s.migrate i stereotype).listed.Perm s.listed := by
    change ((s.migrate i stereotype).stereotypes++s.stereotypesRequesting.erase i).Perm _
    rw [(h.migrate_known hi stereotype).2.1]
    exact List.perm_middle.symm.trans ((List.perm_cons_erase hi).symm.append_left _)
  have hsame : ∀ j, ((s.migrate i stereotype).entry j).tags=(s.entry j).tags := fun j => by
    by_cases hj : j=i
    · subst hj
      rw [htags]
      exact congrArg EdgeStereotype.tags (s.memb.set_mem_same j stereotype)
    · exact congrArg EdgeStereotype.tags (s.memb.set_mem_other stereotype hj)
  refine ⟨h.owns.perm hperm.symm,fun a ha b hb heq => ?_⟩
  rw [hsame,hsame] at heq
  exact h.distinct a (hperm.mem_iff.mp ha) b (hperm.mem_iff.mp hb) heq

end Invariant

section Outcomes

variable (env : StereotypeEnv n D ET) (k : Store m) {s : StereotypeStore n ET}

/-- An entry that is taken to free up space is known, and no certificate has its tags. -/
theorem firstUnneeded_some {i : Fin n} (h : firstUnneeded k s=some i) :
    i∈s.stereotypes ∧ keystoreCertificateContainsTags k (s.entry i).tags=false :=
  ⟨List.mem_of_find?_eq_some h,by simpa using List.find?_some h⟩

/-- The outcomes of `stereotypes_request`: known or being requested; no room and
nothing to remove; placed in a block that was free; placed after a removal. -/
theorem stereotypesRequest_cases (s : StereotypeStore n ET) (tags : StereotypeTags) :
    ((∃ i∈s.listed, (s.entry i).tags=tags) ∧ stereotypesRequest env k s tags=(s,false)) ∨
    ((∀ i∈s.listed, (s.entry i).tags≠tags) ∧ ((∀ i, s.memb.used i=true) ∧
        firstUnneeded k s=none ∧ stereotypesRequest env k s tags=(s,false) ∨
      (∃ i, s.memb.used i=false ∧ stereotypesRequest env k s tags=(s.enqueue i tags,true)) ∨
      (∀ i, s.memb.used i=true) ∧ ∃ old, firstUnneeded k s=some old ∧
        ∃ i, (edgeStereotypeRemove s old).1.memb.used i=false ∧
          stereotypesRequest env k s tags=
            ((edgeStereotypeRemove s old).1.enqueue i tags,true))) := by
  unfold stereotypesRequest
  cases hknown : edgeStereotypeFind s tags with
  | some i =>
    obtain ⟨hi,htags⟩ := edgeStereotypeFindInList_some hknown
    exact Or.inl ⟨⟨i,List.mem_append_left _ hi,htags⟩,rfl⟩
  | none =>
    cases hrequested : edgeStereotypeFindInList s tags s.stereotypesRequesting with
    | some i =>
      obtain ⟨hi,htags⟩ := edgeStereotypeFindInList_some hrequested
      exact Or.inl ⟨⟨i,List.mem_append_right _ hi,htags⟩,rfl⟩
    | none =>
      have hnew : ∀ i∈s.listed, (s.entry i).tags≠tags := fun i hi =>
        (List.mem_append.mp hi).elim (edgeStereotypeFindInList_none_iff.mp hknown i)
          (edgeStereotypeFindInList_none_iff.mp hrequested i)
      refine Or.inr ⟨hnew,?_⟩
      cases hpick : env.allocator.pick s.memb.used with
      | some i => exact Or.inr (Or.inl ⟨i,env.allocator.pick_free hpick,rfl⟩)
      | none =>
        have hfull := env.allocator.pick_none hpick
        cases hold : firstUnneeded k s with
        | none => exact Or.inl ⟨hfull,rfl,by simp [stereotypesFreeUpSpace,hold]⟩
        | some old =>
          obtain ⟨hmem,_⟩ := firstUnneeded_some k hold
          have hremove : stereotypesFreeUpSpace k s=edgeStereotypeRemove s old := by
            simp [stereotypesFreeUpSpace,hold]
          have hfree : (edgeStereotypeRemove s old).1.memb.used old=false := by
            rw [edgeStereotypeRemove,if_pos hmem]
            exact Memb.free_used_same ..
          have hok : (edgeStereotypeRemove s old).2=true := by
            rw [edgeStereotypeRemove,if_pos hmem]
          obtain ⟨i,hi⟩ := Option.isSome_iff_exists.mp
            ((env.allocator.pick_isSome _).mpr ⟨old,hfree⟩)
          refine Or.inr (Or.inr ⟨hfull,old,rfl,i,env.allocator.pick_free hi,?_⟩)
          simp [hremove,hok,hi]

/-- The outcomes of a response: nothing happens, or a requested entry with the
tags in it moves to the known ones. -/
theorem processSterotypeResponse_cases (s : StereotypeStore n ET) (r : Response ET) :
    processSterotypeResponse env s r=s ∨
      ∃ stereotype i, acceptedStereotype env r=some stereotype ∧ i∈s.stereotypesRequesting ∧
        (s.entry i).tags=stereotype.tags ∧
        processSterotypeResponse env s r=s.migrate i stereotype := by
  unfold processSterotypeResponse
  cases haccept : acceptedStereotype env r with
  | none => exact Or.inl rfl
  | some stereotype =>
    cases hfind : edgeStereotypeFindInList s stereotype.tags s.stereotypesRequesting with
    | none => exact Or.inl (by simp [hfind])
    | some i =>
      obtain ⟨hi,htags⟩ := edgeStereotypeFindInList_some hfind
      exact Or.inr ⟨stereotype,i,rfl,hi,htags,by simp [hfind]⟩

/-- What is accepted was decoded, for the trust model in use. -/
theorem acceptedStereotype_some {r : Response ET} {stereotype : EdgeStereotype ET}
    (h : acceptedStereotype env r=some stereotype) :
    ∃ dec, deserialiseResponse env (env.cbor.init r.payload) r.stack=
      .ok (dec,env.trustModelTag,stereotype) := by
  unfold acceptedStereotype at h
  split_ifs at h
  split at h
  · cases h
  · next dec model stereotype' hdecode =>
    split_ifs at h with hmodel
    cases h
    exact ⟨dec,by rw [hdecode,not_not.mp hmodel]⟩

/-- `stereotypes_request` keeps the invariant. -/
theorem StoreInvariant.request (h : StoreInvariant s) (tags : StereotypeTags) :
    StoreInvariant (stereotypesRequest env k s tags).1 := by
  rcases stereotypesRequest_cases env k s tags with
    ⟨_,hr⟩ | ⟨hnew,⟨_,_,hr⟩ | ⟨i,hfree,hr⟩ | ⟨_,old,_,i,hfree,hr⟩⟩ <;> rw [hr]
  · exact h
  · exact h
  · exact h.enqueue hfree hnew
  · refine (h.remove old).enqueue hfree fun j hj => ?_
    rw [edgeStereotypeRemove_entry]
    exact hnew j (mem_listed_of_remove hj)

/-- `process_sterotype_response` keeps the invariant. -/
theorem StoreInvariant.response (h : StoreInvariant s) (r : Response ET) :
    StoreInvariant (processSterotypeResponse env s r) := by
  rcases processSterotypeResponse_cases env s r with hr | ⟨_,i,_,hi,htags,hr⟩ <;> rw [hr]
  · exact h
  · exact h.migrate hi htags

end Outcomes

section Runs

/-- The stereotypes together with the certificates of the node. -/
structure State (n m : ℕ) (ET : Type) where
  /-- The data of `stereotypes.c`. -/
  store : StereotypeStore n ET
  /-- The data of `keystore.c`. -/
  keystore : Store m

/-- What happens to the stereotypes, in any order. -/
inductive Op (m : ℕ) (ET : Type) where
  /-- `stereotypes_request`. -/
  | request (tags : StereotypeTags)
  /-- `process_sterotype_response`. -/
  | response (r : Response ET)
  /-- The keystore changes. -/
  | keystore (k : Store m)

/-- One step. -/
def step (env : StereotypeEnv n D ET) (s : State n m ET) : Op m ET → State n m ET
  | .request tags => {s with store := (stereotypesRequest env s.keystore s.store tags).1}
  | .response r => {s with store := processSterotypeResponse env s.store r}
  | .keystore k => {s with keystore := k}

/-- How entries come and go in a step: a requested one becomes known by a
response with its tags, and holds what was decoded; a known one keeps what it
holds; and one is only given up by a request that finds the pool full, when no
certificate has its tags. -/
structure Migrates (env : StereotypeEnv n D ET) (s : State n m ET) (op : Op m ET) : Prop where
  /-- An entry becomes known. -/
  entered : ∀ i∈(step env s op).store.stereotypes, i∉s.store.stereotypes →
    ∃ r dec stereotype, op=.response r ∧ r.contentFormat=some applicationCbor ∧
      deserialiseResponse env (env.cbor.init r.payload) r.stack=
        .ok (dec,env.trustModelTag,stereotype) ∧
      i∈s.store.stereotypesRequesting ∧ (s.store.entry i).tags=stereotype.tags ∧
      (step env s op).store.entry i=stereotype
  /-- An entry stays known. -/
  stayed : ∀ i∈(step env s op).store.stereotypes, i∈s.store.stereotypes →
    (step env s op).store.entry i=s.store.entry i
  /-- An entry is given up. -/
  left : ∀ i∈s.store.stereotypes, i∉(step env s op).store.stereotypes →
    (∃ tags, op=.request tags) ∧ (∀ j, s.store.memb.used j=true) ∧
      ∀ j∈s.keystore.listed, (s.keystore.item j).cert.tags≠(s.store.entry i).tags

variable (env : StereotypeEnv n D ET) {s : State n m ET}

/-- A step that does nothing to the known entries. -/
theorem Migrates.of_same {op : Op m ET}
    (hlist : (step env s op).store.stereotypes=s.store.stereotypes)
    (hentry : ∀ i∈s.store.stereotypes, (step env s op).store.entry i=s.store.entry i) :
    Migrates env s op :=
  ⟨fun _ hi hnot => absurd (hlist ▸ hi) hnot,fun i _ hi => hentry i hi,
    fun _ hi hnot => absurd (hlist ▸ hi) hnot⟩

/-- An entry that is enqueued in a free block is none of the known ones. -/
theorem enqueue_entry_known {s : StereotypeStore n ET} (h : StoreInvariant s) {i j : Fin n}
    (hfree : s.memb.used i=false) (tags : StereotypeTags) (hj : j∈s.stereotypes) :
    (s.enqueue i tags).entry j=s.entry j :=
  (s.memb.take i).set_mem_other _ (h.owns.ne_of_mem (List.mem_append_left _ hj) hfree)

/-- How a request changes the known entries. -/
theorem migrates_request (h : StoreInvariant s.store) (tags : StereotypeTags) :
    Migrates env s (.request tags) := by
  rcases stereotypesRequest_cases env s.keystore s.store tags with
    ⟨_,hr⟩ | ⟨_,⟨_,_,hr⟩ | ⟨i,hfree,hr⟩ | ⟨hfull,old,hold,i,hfree,hr⟩⟩
  · exact .of_same env (by rw [step,hr]) fun _ _ => by rw [step,hr]
  · exact .of_same env (by rw [step,hr]) fun _ _ => by rw [step,hr]
  · exact .of_same env (by rw [step,hr]; rfl) fun j hj => by
      rw [step,hr]
      exact enqueue_entry_known h hfree tags hj
  · have hlist : (step env s (.request tags)).store.stereotypes=s.store.stereotypes.erase old := by
      rw [step,hr]
      exact (edgeStereotypeRemove_lists old).1
    refine ⟨fun j hj hnot => ?_,fun j hj _ => ?_,fun j hj hnot => ?_⟩
    · exact absurd (List.mem_of_mem_erase (hlist ▸ hj)) hnot
    · rw [step,hr]
      refine (enqueue_entry_known (h.remove old) hfree tags ?_).trans
        (edgeStereotypeRemove_entry old j)
      rw [(edgeStereotypeRemove_lists old).1,←hlist]
      exact hj
    · have hjold : j=old := by
        by_contra hne
        exact hnot (hlist ▸ (List.mem_erase_of_ne hne).mpr hj)
      subst hjold
      exact ⟨⟨tags,rfl⟩,hfull,(containsTags_false_iff _ _).mp (firstUnneeded_some _ hold).2⟩

/-- How a response changes the known entries. -/
theorem migrates_response (h : StoreInvariant s.store) (r : Response ET) :
    Migrates env s (.response r) := by
  rcases processSterotypeResponse_cases env s.store r with
    hr | ⟨stereotype,i,haccept,hi,htags,hr⟩
  · exact .of_same env (by rw [step,hr]) fun _ _ => by rw [step,hr]
  · obtain ⟨_,hmigrated,hnew,hold⟩ := h.migrate_known hi stereotype
    have hlist : (step env s (.response r)).store.stereotypes=i::s.store.stereotypes := by
      rw [step,hr]
      exact hmigrated
    have hformat : r.contentFormat=some applicationCbor := by
      unfold acceptedStereotype at haccept
      split_ifs at haccept with hf
      exact not_not.mp hf
    obtain ⟨dec,hdecode⟩ := acceptedStereotype_some env haccept
    refine ⟨fun j hj hj' => ?_,fun j _ hj => ?_,fun j hj hj' => ?_⟩
    · have hji : j=i := by
        rcases List.mem_cons.mp (hlist ▸ hj) with rfl | hj''
        · rfl
        · exact absurd hj'' hj'
      subst hji
      refine ⟨r,dec,stereotype,rfl,hformat,hdecode,hi,htags,?_⟩
      rw [step,hr]
      exact hnew
    · rw [step,hr]
      exact hold j hj
    · exact absurd (hlist ▸ List.mem_cons_of_mem i hj) hj'

/-- Every step keeps the invariant of the stereotypes. -/
theorem StoreInvariant.step (h : StoreInvariant s.store) (op : Op m ET) :
    StoreInvariant (step env s op).store := by
  cases op with
  | request tags => exact h.request env s.keystore tags
  | response r => exact h.response env r
  | keystore k => exact h

/-- **The stereotype store over a whole run.** In every reachable state no tags
occur twice and every used block is on one of the two lists; and entries come
and go only as they are meant to. -/
theorem stereotypes_always (et : ET) (k : Store m) (ops : List (Op m ET)) :
    Always (Stereotypes.step env) (fun s => StoreInvariant s.store) ⟨stereotypesInit n et,k⟩ ops ∧
      Along (Stereotypes.step env) (Migrates env) ⟨stereotypesInit n et,k⟩ ops := by
  have hadmitted : Along (Stereotypes.step env) (fun _ _ => True) ⟨stereotypesInit n et,k⟩ ops :=
    along_of_forall fun _ _ => trivial
  refine ⟨always_of_step (fun s op hI _ => hI.step env op) (storeInvariant_init n et) hadmitted,
    along_of_step (I:=fun s => StoreInvariant s.store) (fun s op hI _ => hI.step env op)
      (fun s op hI _ => ?_) (storeInvariant_init n et) hadmitted⟩
  cases op with
  | request tags => exact migrates_request env hI tags
  | response r => exact migrates_response env hI r
  | keystore k => exact .of_same env rfl fun _ _ => rfl

end Runs

end TrustAlloc.Stereotypes
