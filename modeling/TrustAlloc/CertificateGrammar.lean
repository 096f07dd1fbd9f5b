import TrustAlloc.CborCursor
import TrustAlloc.CertificateCodec

/-!
# Which certificates are accepted

`certificate_decode` on a library that does what it documents: a call that
succeeds gives the next item, and a call that fails leaves anything. All calls
are checked but the first. Where there is no array to enter, what happens
depends on what the call leaves; where there is one, exactly the certificates
of the grammar are accepted.
-/

namespace TrustAlloc.CertificateGrammar

open CborCodec CborCursor CertificateCodec CertificateDecoding Certificates Decoding

variable {D α β : Type}

section Library

/-- A call yields what is expected, if anything is, and fails otherwise. -/
def Yields (expected : Option β) (result : ℤ×β) : Prop :=
  match expected with
  | some b => 0≤ result.1 ∧ result.2=b
  | none => result.1<0

/-- Such a call passes its check exactly with what is expected. -/
theorem Yields.check_iff {expected : Option β} {result : ℤ×β} (h : Yields expected result) (b : β) :
    nanocborCheck result=.ok b ↔ expected=some b := by
  unfold nanocborCheck
  cases expected with
  | none =>
    rw [if_pos (show result.1<0 from h)]
    exact iff_of_false nofun nofun
  | some b' =>
    obtain ⟨hok,hvalue⟩ := h
    rw [if_neg (not_lt.mpr hok),hvalue,Except.ok.injEq,Option.some.injEq]

/-- The library gives what stands in front of a decoder. -/
structure Documented (cbor : PublishDecoder D) (cur : Cursor D) : Prop where
  /-- `nanocbor_enter_array`. -/
  enterArray : ∀ d, Yields (cur.arrayAt d) (cbor.enterArray d)
  /-- `nanocbor_get_uint32`. -/
  getUint32 : ∀ d, Yields ((cur.uintAt (2^32) d).map fun v => (cur.behind d,UInt32.ofNat v))
    (cbor.getUint32 d)
  /-- `nanocbor_get_uint8`. -/
  getUint8 : ∀ d, Yields ((cur.uintAt (2^8) d).map fun v => (cur.behind d,UInt8.ofNat v))
    (cbor.getUint8 d)
  /-- `nanocbor_get_bstr`. -/
  getBstr : ∀ d, Yields ((cur.bytesAt d).map fun b => (cur.behind d,b)) (cbor.getBstr d)
  /-- `nanocbor_leave_container`. -/
  leaveContainer : ∀ d arr, cbor.leaveContainer d arr=cur.leave d arr
  /-- `nanocbor_at_end`. -/
  atEnd : ∀ d, cbor.atEnd d=cur.exhausted d

end Library

section Grammar

/-- `[device_class]`. -/
def tagsShape : Shape :=
  .array [.uint (2^8) fun v => deviceClassMinimum.toNat ≤ v ∧ v ≤ deviceClassMaximum.toNat]

/-- `TBSCertificate`. -/
def tbsShape : Shape :=
  .array [.uint (2^32) fun _ => True,.bytes 8,
    .array [.uint (2^32) fun _ => True,.uint (2^32) fun _ => True],.bytes 8,tagsShape,.bytes 64]

/-- `Certificate`. -/
def certificateShape : Shape := .array [tbsShape,.bytes 64]

end Grammar

section Calls

variable {cbor : PublishDecoder D} {cur : Cursor D}

/-- Integers of 32 bits. -/
theorem accepts_uint32 (h : Documented cbor cur) :
    Accepts cur (fun d => nanocborCheck (cbor.getUint32 d)) (.uint (2^32) fun _ => True) := by
  intro d d'
  simp only [(h.getUint32 d).check_iff,Option.map_eq_some_iff,Prod.mk.injEq]
  constructor
  · rintro ⟨_,v,hv,hd,_⟩
    exact ⟨v,trivial,hv,hd.symm⟩
  · rintro ⟨v,_,hv,hd⟩
    exact ⟨_,v,hv,hd.symm,rfl⟩

/-- A byte string passes its check. -/
theorem check_bstr_iff (h : Documented cbor cur) (d d' : D) (b : List UInt8) :
    nanocborCheck (cbor.getBstr d)=.ok (d',b) ↔ cur.bytesAt d=some b ∧ d'=cur.behind d := by
  rw [(h.getBstr d).check_iff,Option.map_eq_some_iff]
  constructor
  · rintro ⟨b',hb,heq⟩
    cases heq
    exact ⟨hb,rfl⟩
  · rintro ⟨hb,rfl⟩
    exact ⟨b,hb,rfl⟩

/-- Byte strings of a length that are read into a field. -/
theorem accepts_bstrOfLen (h : Documented cbor cur) (len : ℕ) :
    Accepts cur (fun d => nanocborGetBstrOfLen cbor d len) (.bytes len) := by
  intro d d'
  constructor
  · rintro ⟨v,hv⟩
    obtain ⟨⟨d₁,b⟩,hget,hv⟩ := ok_of_bind hv
    obtain ⟨hlong,hv⟩ := ok_of_guard hv
    obtain ⟨hshort,hv⟩ := ok_of_guard hv
    cases hv
    obtain ⟨hb,hd⟩ := (check_bstr_iff h d d' b).mp hget
    exact ⟨b,le_antisymm (not_lt.mp hlong) (not_lt.mp hshort),hb,hd⟩
  · rintro ⟨b,hlen,hb,hd⟩
    refine ⟨bytesAt len b 0,?_⟩
    dsimp only [nanocborGetBstrOfLen]
    rw [(check_bstr_iff h d d' b).mpr ⟨hb,hd⟩,ok_bind]
    dsimp only
    rw [hlen,if_neg (lt_irrefl len),if_neg (lt_irrefl len)]
    rfl

/-- Byte strings of a length that are read in place. -/
theorem accepts_object (h : Documented cbor cur) (size : ℕ) :
    Accepts cur (fun d => nanocborGetObject cbor d size) (.bytes size) := by
  intro d d'
  constructor
  · rintro ⟨v,hv⟩
    obtain ⟨⟨d₁,b⟩,hget,hv⟩ := ok_of_bind hv
    obtain ⟨hsize,hv⟩ := ok_of_guard hv
    cases hv
    obtain ⟨hb,hd⟩ := (check_bstr_iff h d d' v).mp hget
    exact ⟨v,not_not.mp hsize,hb,hd⟩
  · rintro ⟨b,hlen,hb,hd⟩
    refine ⟨b,?_⟩
    dsimp only [nanocborGetObject]
    rw [(check_bstr_iff h d d' b).mpr ⟨hb,hd⟩,ok_bind]
    dsimp only
    rw [if_neg (not_not.mpr hlen)]
    rfl

/-- A class that passes the comparisons is a number between their bounds. -/
theorem class_iff {v : ℕ} (hv : v < 2^8) :
    ¬(UInt8.ofNat v < deviceClassMinimum ∨ deviceClassMaximum < UInt8.ofNat v) ↔
      deviceClassMinimum.toNat ≤ v ∧ v ≤ deviceClassMaximum.toNat := by
  have hclass : (UInt8.ofNat v).toNat=v := UInt8.toNat_ofNat_of_lt hv
  rw [UInt8.lt_iff_toNat_lt,UInt8.lt_iff_toNat_lt,hclass,not_or,not_lt,not_lt]

/-- The tags. -/
theorem accepts_tags (h : Documented cbor cur) :
    Accepts cur (deserialiseStereotypeTags cbor) tagsShape := by
  intro d d'
  constructor
  · rintro ⟨tags,htags⟩
    obtain ⟨arr,henter,htags⟩ := ok_of_bind htags
    obtain ⟨⟨arr₁,deviceClass⟩,hget,htags⟩ := ok_of_bind htags
    obtain ⟨hclass,htags⟩ := ok_of_guard htags
    obtain ⟨hend,htags⟩ := ok_of_guard htags
    cases htags
    obtain ⟨v,hv,heq⟩ := Option.map_eq_some_iff.mp (((h.getUint8 arr).check_iff _).mp hget)
    cases heq
    refine ⟨arr,_,((h.enterArray d).check_iff arr).mp henter,
      ⟨_,⟨v,(class_iff (Cursor.uintAt_lt hv)).mp hclass,hv,rfl⟩,rfl⟩,?_,h.leaveContainer ..⟩
    rw [←h.atEnd]
    exact eq_true_of_ne_false hend
  · rintro ⟨arr,_,henter,⟨_,⟨v,hclass,hv,rfl⟩,rfl⟩,hend,rfl⟩
    have hget : nanocborCheck (cbor.getUint8 arr)=.ok (cur.behind arr,UInt8.ofNat v) :=
      ((h.getUint8 arr).check_iff _).mpr (by rw [hv]; rfl)
    refine ⟨⟨UInt8.ofNat v⟩,?_⟩
    unfold deserialiseStereotypeTags
    rw [((h.enterArray d).check_iff arr).mpr henter,ok_bind,hget,ok_bind]
    dsimp only
    rw [if_neg ((class_iff (Cursor.uintAt_lt hv)).mpr hclass),h.atEnd,hend,if_neg (by decide),
      h.leaveContainer]
    rfl

/-- The part that is signed. -/
theorem accepts_tbs (h : Documented cbor cur) :
    Accepts cur (certificateDecodeTbs cbor) tbsShape := by
  intro d d'
  constructor
  · rintro ⟨f,hf⟩
    obtain ⟨arr,henter,hf⟩ := ok_of_bind hf
    obtain ⟨⟨arr₁,serialNumber⟩,hserial,hf⟩ := ok_of_bind hf
    obtain ⟨⟨arr₂,issuer⟩,hissuer,hf⟩ := ok_of_bind hf
    obtain ⟨validityArr,hvalidity,hf⟩ := ok_of_bind hf
    obtain ⟨⟨validityArr₁,notBefore⟩,hbefore,hf⟩ := ok_of_bind hf
    obtain ⟨⟨validityArr₂,notAfter⟩,hafter,hf⟩ := ok_of_bind hf
    obtain ⟨hvalidityEnd,hf⟩ := ok_of_guard hf
    obtain ⟨⟨arr₄,subject⟩,hsubject,hf⟩ := ok_of_bind hf
    obtain ⟨⟨arr₅,tags⟩,htags,hf⟩ := ok_of_bind hf
    obtain ⟨⟨arr₆,publicKey⟩,hkey,hf⟩ := ok_of_bind hf
    obtain ⟨hend,hf⟩ := ok_of_guard hf
    cases hf
    rw [h.leaveContainer] at hsubject ⊢
    rw [h.atEnd] at hvalidityEnd hend
    have hdates : Matches cur (.array [.uint (2^32) fun _ => True,.uint (2^32) fun _ => True])
        arr₂ (cur.leave arr₂ validityArr₂) :=
      ⟨validityArr,validityArr₂,((h.enterArray arr₂).check_iff _).mp hvalidity,
        ⟨validityArr₁,(accepts_uint32 h _ _).mp ⟨notBefore,hbefore⟩,validityArr₂,
          (accepts_uint32 h _ _).mp ⟨notAfter,hafter⟩,rfl⟩,eq_true_of_ne_false hvalidityEnd,rfl⟩
    exact ⟨arr,arr₆,((h.enterArray d).check_iff _).mp henter,
      ⟨arr₁,(accepts_uint32 h _ _).mp ⟨serialNumber,hserial⟩,
        arr₂,(accepts_bstrOfLen h 8 _ _).mp ⟨issuer,hissuer⟩,_,hdates,
        arr₄,(accepts_bstrOfLen h 8 _ _).mp ⟨subject,hsubject⟩,
        arr₅,(accepts_tags h _ _).mp ⟨tags,htags⟩,
        arr₆,(accepts_object h 64 _ _).mp ⟨publicKey,hkey⟩,rfl⟩,eq_true_of_ne_false hend,rfl⟩
  · rintro ⟨arr,_,henter,⟨arr₁,hserial,arr₂,hissuer,_,⟨validityArr,_,hvalidity,
      ⟨validityArr₁,hbefore,validityArr₂,hafter,rfl⟩,hvalidityEnd,rfl⟩,arr₄,hsubject,arr₅,htags,
      arr₆,hkey,rfl⟩,hend,rfl⟩
    obtain ⟨serialNumber,hserial⟩ := (accepts_uint32 h _ _).mpr hserial
    obtain ⟨issuer,hissuer⟩ := (accepts_bstrOfLen h 8 _ _).mpr hissuer
    obtain ⟨notBefore,hbefore⟩ := (accepts_uint32 h _ _).mpr hbefore
    obtain ⟨notAfter,hafter⟩ := (accepts_uint32 h _ _).mpr hafter
    obtain ⟨subject,hsubject⟩ := (accepts_bstrOfLen h 8 _ _).mpr hsubject
    obtain ⟨tags,htags⟩ := (accepts_tags h _ _).mpr htags
    obtain ⟨publicKey,hkey⟩ := (accepts_object h 64 _ _).mpr hkey
    have henter := ((h.enterArray d).check_iff _).mpr henter
    have hvalidity := ((h.enterArray arr₂).check_iff _).mpr hvalidity
    refine ⟨fun signature =>
      ⟨serialNumber,issuer,subject,notBefore,notAfter,tags,publicKeyOfBytes publicKey,signature⟩,?_⟩
    unfold certificateDecodeTbs
    dsimp only at hserial hissuer hbefore hafter hsubject hkey
    simp only [henter,hserial,hissuer,hvalidity,hbefore,hafter,h.atEnd,hvalidityEnd,
      h.leaveContainer,hsubject,htags,hkey,hend,ok_bind,Bool.true_eq_false,if_false]
    rfl

/-- `certificate_decode` goes on with whatever the first call leaves. -/
theorem decode_iff (h : Documented cbor cur) (d d' : D) :
    (∃ cert, certificateDecode cbor d=.ok (d',cert)) ↔
      ∃ arr', MatchesAll cur [tbsShape,.bytes 64] (cbor.enterArray d).2 arr' ∧
        cur.exhausted arr'=true ∧ d'=cur.leave d arr' := by
  constructor
  · rintro ⟨cert,hcert⟩
    obtain ⟨⟨arr₁,certificate⟩,htbs,hcert⟩ := ok_of_bind hcert
    obtain ⟨⟨arr₂,signature⟩,hsignature,hcert⟩ := ok_of_bind hcert
    obtain ⟨hend,hcert⟩ := ok_of_guard hcert
    cases hcert
    rw [h.atEnd] at hend
    exact ⟨arr₂,⟨arr₁,(accepts_tbs h _ _).mp ⟨certificate,htbs⟩,
      arr₂,(accepts_object h 64 _ _).mp ⟨signature,hsignature⟩,rfl⟩,eq_true_of_ne_false hend,
      h.leaveContainer ..⟩
  · rintro ⟨_,⟨arr₁,htbs,arr₂,hsignature,rfl⟩,hend,rfl⟩
    obtain ⟨certificate,htbs⟩ := (accepts_tbs h _ _).mpr htbs
    obtain ⟨signature,hsignature⟩ := (accepts_object h 64 _ _).mpr hsignature
    refine ⟨certificate (signatureOfBytes signature),?_⟩
    unfold certificateDecode
    dsimp only at hsignature
    simp only [htbs,hsignature,h.atEnd,hend,h.leaveContainer,ok_bind,Bool.true_eq_false,if_false]
    rfl

/-- It accepts exactly the certificates of the grammar, and then the decoder is
behind the certificate. -/
def FollowsGrammar (cbor : PublishDecoder D) (cur : Cursor D) (d : D) : Prop :=
  ∀ d', (∃ cert, certificateDecode cbor d=.ok (d',cert)) ↔ Matches cur certificateShape d d'

/-- A decoder stands in front of what certificates consist of, in an array. -/
def InCertificate (cur : Cursor D) (arr : D) : Prop :=
  ∃ arr', MatchesAll cur [tbsShape,.bytes 64] arr arr' ∧ cur.exhausted arr'=true

/-- **The grammar of certificates.** Exactly the certificates of the grammar
are accepted at a position where there is an array. Where there is none,
nothing is accepted, as it should be, unless the call that fails leaves a
decoder inside a certificate. -/
theorem followsGrammar_iff (h : Documented cbor cur) (d : D) :
    FollowsGrammar cbor cur d ↔
      (∃ arr, cur.next d=.array arr) ∨ ¬InCertificate cur (cbor.enterArray d).2 := by
  have hitem : ∀ d', Matches cur certificateShape d d' ↔ ∃ arr arr', cur.arrayAt d=some arr ∧
      MatchesAll cur [tbsShape,.bytes 64] arr arr' ∧ cur.exhausted arr'=true ∧
        d'=cur.leave d arr' := fun _ => Iff.rfl
  unfold FollowsGrammar InCertificate
  simp only [decode_iff h,hitem,Cursor.arrayAt_eq_some_iff]
  by_cases harray : ∃ arr, cur.next d=.array arr
  · obtain ⟨arr,hnext⟩ := harray
    have hyields := h.enterArray d
    rw [Cursor.arrayAt_eq_some_iff.mpr hnext] at hyields
    refine iff_of_true (fun d' => ?_) (Or.inl ⟨arr,hnext⟩)
    rw [hyields.2]
    constructor
    · rintro ⟨arr',hcontent⟩
      exact ⟨arr,arr',hnext,hcontent⟩
    · rintro ⟨arr₁,arr',hnext₁,hcontent⟩
      cases hnext.symm.trans hnext₁
      exact ⟨arr',hcontent⟩
  · rw [or_iff_right harray]
    constructor
    · rintro hexact ⟨arr',hcontent,hend⟩
      obtain ⟨arr,_,hnext,_⟩ := (hexact _).mp ⟨arr',hcontent,hend,rfl⟩
      exact harray ⟨arr,hnext⟩
    · refine fun hnot d' => iff_of_false ?_ ?_
      · rintro ⟨arr',hcontent,hend,_⟩
        exact hnot ⟨arr',hcontent,hend⟩
      · rintro ⟨arr,_,hnext,_⟩
        exact harray ⟨arr,hnext⟩

end Calls

section Bytes

variable {p : Position}

/-- A head has one major type. -/
theorem readArgument_other {major major' : ℕ} {r : ℕ×List UInt8} (h : readArgument major p=some r)
    (hne : major≠major') : readArgument major' p=none := by
  unfold readArgument at h ⊢
  split at h
  · cases h
  · next hleft =>
    rw [if_neg hleft]
    split at h
    · cases h
    · next m v rest hread =>
      split at h
      · next hm => exact if_neg fun hm' => hne (hm.symm.trans hm')
      · cases h

/-- What stands in front of a decoder on bytes. -/
def byteNext (p : Position) : Next Position :=
  match readArgument 0 p,readArgument 2 p,readArgument 4 p with
  | some (v,_),_,_ => .uint v
  | none,some (n,rest),_ => if rest.length < n then .other else .bytes (rest.take n)
  | none,none,some (n,rest) => .array ⟨rest,some n⟩
  | none,none,none => .other

/-- The decoder behind an integer or a string. -/
def byteBehind (p : Position) : Position :=
  match readArgument 0 p,readArgument 2 p with
  | some (_,rest),_ => p.advance rest
  | none,some (n,rest) => p.advance (rest.drop n)
  | none,none => p

/-- There is nothing where no items are left. -/
theorem byteNext_exhausted (p : Position) (h : byteDecoder.atEnd p=true) : byteNext p=.other := by
  have hread : ∀ major, readArgument major p=none := by
    intro major
    unfold readArgument
    obtain ⟨ahead,left⟩ := p
    cases left with
    | none =>
      rw [if_neg nofun,show ahead=[] from of_decide_eq_true h]
      rfl
    | some k =>
      rw [show k=0 from of_decide_eq_true h]
      exact if_pos rfl
  rw [byteNext,hread 0,hread 2,hread 4]

/-- Decoders on bytes. -/
def byteCursor : Cursor Position where
  next := byteNext
  behind := byteBehind
  leave := byteDecoder.leaveContainer
  exhausted := byteDecoder.atEnd
  next_exhausted := byteNext_exhausted

/-- Integers in front of a decoder on bytes. -/
theorem byteCursor_uintAt (bound : ℕ) (p : Position) :
    byteCursor.uintAt bound p=
      (readArgument 0 p).bind fun r => if r.1 < bound then some r.1 else none := by
  unfold Cursor.uintAt byteCursor byteNext
  dsimp only
  cases readArgument 0 p with
  | some r => rfl
  | none =>
    cases readArgument 2 p with
    | some r =>
      dsimp only
      split_ifs <;> rfl
    | none => cases readArgument 4 p <;> rfl

/-- Byte strings in front of a decoder on bytes. -/
theorem byteCursor_bytesAt (p : Position) :
    byteCursor.bytesAt p=
      (readArgument 2 p).bind fun r => if r.2.length < r.1 then none else some (r.2.take r.1) := by
  unfold Cursor.bytesAt byteCursor byteNext
  dsimp only
  cases h2 : readArgument 2 p with
  | some r =>
    rw [readArgument_other h2 (by decide)]
    dsimp only [Option.bind]
    split_ifs <;> rfl
  | none => cases readArgument 0 p <;> cases readArgument 4 p <;> rfl

/-- Arrays in front of a decoder on bytes. -/
theorem byteCursor_arrayAt (p : Position) :
    byteCursor.arrayAt p=(readArgument 4 p).map fun r => ⟨r.2,some r.1⟩ := by
  unfold Cursor.arrayAt byteCursor byteNext
  dsimp only
  cases h4 : readArgument 4 p with
  | some r =>
    rw [readArgument_other h4 (by decide),readArgument_other h4 (by decide)]
    rfl
  | none =>
    cases readArgument 0 p with
    | some r => rfl
    | none =>
      cases readArgument 2 p with
      | some r =>
        dsimp only
        split_ifs <;> rfl
      | none => rfl

/-- A call for an integer below a bound yields it. -/
theorem yields_uint {γ : Type} (bound : ℕ) (value : ℕ → γ) (zero : γ) (p : Position) :
    Yields ((byteCursor.uintAt bound p).map fun v => (byteCursor.behind p,value v))
      (match readArgument 0 p with
        | none => (-2,p,zero)
        | some (v,rest) => if v < bound then (0,p.advance rest,value v) else (-1,p,zero)) := by
  rw [byteCursor_uintAt]
  cases h0 : readArgument 0 p with
  | none => exact (by decide : (-2 : ℤ)<0)
  | some r =>
    have hbehind : byteCursor.behind p=p.advance r.2 := by
      change byteBehind p=_
      unfold byteBehind
      rw [h0]
    dsimp only [Option.bind]
    split_ifs
    · exact ⟨le_refl _,by rw [hbehind]⟩
    · exact (by decide : (-1 : ℤ)<0)

/-- The decoder on bytes gives what stands in front of it. -/
theorem documented_byteDecoder : Documented byteDecoder.toPublishDecoder byteCursor where
  enterArray p := by
    rw [byteCursor_arrayAt]
    dsimp only [byteDecoder,readContainer]
    cases readArgument 4 p with
    | none => exact (by decide : (-2 : ℤ)<0)
    | some r =>
      refine ⟨le_refl _,?_⟩
      dsimp only
      rw [one_mul]
  getUint32 := yields_uint (2^32) UInt32.ofNat 0
  getUint8 := yields_uint (2^8) UInt8.ofNat 0
  getBstr p := by
    rw [byteCursor_bytesAt]
    dsimp only [byteDecoder,readString]
    cases h2 : readArgument 2 p with
    | none => exact (by decide : (-2 : ℤ)<0)
    | some r =>
      have hbehind : byteCursor.behind p=p.advance (r.2.drop r.1) := by
        change byteBehind p=_
        unfold byteBehind
        rw [h2,readArgument_other h2 (by decide)]
      dsimp only [Option.bind]
      split_ifs
      · exact (by decide : (-3 : ℤ)<0)
      · exact ⟨le_refl _,by rw [hbehind]⟩
  leaveContainer _ _ := rfl
  atEnd _ := rfl

/-- The same library, except for what `nanocbor_enter_array` leaves when it fails. -/
def leaving (cbor : PublishDecoder D) (stray : D) : PublishDecoder D :=
  {cbor with enterArray := fun d =>
    if (cbor.enterArray d).1<0 then ((cbor.enterArray d).1,stray) else cbor.enterArray d}

/-- It is documented as well. -/
theorem Documented.leaving {cbor : PublishDecoder D} {cur : Cursor D} (h : Documented cbor cur)
    (stray : D) : Documented (leaving cbor stray) cur where
  enterArray d := by
    have hyields := h.enterArray d
    dsimp only [CertificateGrammar.leaving]
    cases harr : cur.arrayAt d with
    | none =>
      rw [harr] at hyields
      rw [if_pos (show (cbor.enterArray d).1<0 from hyields)]
      exact hyields
    | some arr =>
      rw [harr] at hyields
      rw [if_neg (not_lt.mpr hyields.1)]
      exact hyields
  getUint32 := h.getUint32
  getUint8 := h.getUint8
  getBstr := h.getBstr
  leaveContainer := h.leaveContainer
  atEnd := h.atEnd

end Bytes

section Sample

/-- The bytes of a certificate. -/
def sampleBytes : List UInt8 := certificateEncoding CertificateCodec.sampleCertificate

/-- In front of a certificate, exactly the certificates are accepted. -/
theorem followsGrammar_iff_sample :
    FollowsGrammar byteDecoder.toPublishDecoder byteCursor ⟨sampleBytes,none⟩ :=
  (followsGrammar_iff documented_byteDecoder ⟨sampleBytes,none⟩).mpr
    (Or.inl ⟨⟨sampleBytes.drop 1,some 2⟩,by decide +kernel⟩)

/-- Where there is an integer, a certificate is accepted, when the call that
fails leaves a decoder inside one. -/
theorem not_followsGrammar_of_stray :
    Documented (leaving byteDecoder.toPublishDecoder ⟨sampleBytes.drop 1,some 2⟩) byteCursor ∧
      ¬FollowsGrammar (leaving byteDecoder.toPublishDecoder ⟨sampleBytes.drop 1,some 2⟩) byteCursor
        ⟨[0],none⟩ := by
  refine ⟨documented_byteDecoder.leaving _,fun h => ?_⟩
  have hdecode : certificateDecode
      (leaving byteDecoder.toPublishDecoder ⟨sampleBytes.drop 1,some 2⟩) ⟨[0],none⟩=
        .ok (⟨[],none⟩,CertificateCodec.sampleCertificate) := by decide +kernel
  obtain ⟨arr,_,harr,_⟩ := (h _).mp ⟨_,hdecode⟩
  have hnone : byteCursor.arrayAt ⟨[0],none⟩=none := by decide +kernel
  cases hnone.symm.trans harr

end Sample

end TrustAlloc.CertificateGrammar
