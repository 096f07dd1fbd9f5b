import TrustAlloc.CborCodec
import TrustAlloc.KeystoreRuns

/-!
# Certificates in C and in Python

Certificates are made and signed by `certificate.py` and are decoded, encoded
again and verified by the nodes. Both sides lay out the same fields, so their
bytes agree, and what was signed is what is verified.
-/

namespace TrustAlloc.CertificateCodec

open Cbor CborCodec CertificateDecoding Certificates Decoding Keystore

section Python

/-- `TBSCertificate`, with the number of the device class as its tags. -/
structure TBSCertificate where
  /-- `serial_number`. -/
  serialNumber : ℕ
  /-- `issuer`. -/
  issuer : List UInt8
  /-- `validity_from`. -/
  validityFrom : ℕ
  /-- `validity_to`. -/
  validityTo : ℕ
  /-- `subject`. -/
  subject : List UInt8
  /-- `stereotype_tags.device_class`. -/
  deviceClass : ℕ
  /-- `public_key`. -/
  publicKey : List UInt8

/-- `SignedCertificate`. -/
structure SignedCertificate extends TBSCertificate where
  /-- `signature`. -/
  signature : List UInt8

/-- `StereotypeTags.encode`. -/
def stereotypeTagsEncode (deviceClass : ℕ) : Item := .array [.uint deviceClass]

/-- The list that both encoders build. -/
def TBSCertificate.fields (t : TBSCertificate) : Item :=
  .array [.uint t.serialNumber,.bytes t.issuer,.array [.uint t.validityFrom,.uint t.validityTo],
    .bytes t.subject,stereotypeTagsEncode t.deviceClass,.bytes t.publicKey]

/-- `TBSCertificate.encode`, with `cbor2.dumps`. -/
def TBSCertificate.encode (dumps : Item → List UInt8) (t : TBSCertificate) : List UInt8 :=
  dumps t.fields

/-- `SignedCertificate.encode`, with `cbor2.dumps`. -/
def SignedCertificate.encode (dumps : Item → List UInt8) (t : SignedCertificate) : List UInt8 :=
  dumps (.array [t.toTBSCertificate.fields,.bytes t.signature])

/-- `TBSCertificate.build` with a key that signs. -/
def TBSCertificate.build (dumps : Item → List UInt8) (t : TBSCertificate)
    (sign : List UInt8 → Signature) : SignedCertificate := ⟨t,(sign (t.encode dumps)).bytes⟩

/-- The signed fields of a certificate in Python. -/
def tbsOf (c : Certificate) : TBSCertificate where
  serialNumber := c.serialNumber.toNat
  issuer := c.issuer.toList
  validityFrom := c.validityNotBefore.toNat
  validityTo := c.validityNotAfter.toNat
  subject := c.subject.toList
  deviceClass := c.tags.deviceClass.toNat
  publicKey := c.publicKey.bytes

/-- A certificate in Python. -/
def signedOf (c : Certificate) : SignedCertificate := ⟨tbsOf c,c.signature.bytes⟩

/-- The signed fields of a certificate in the shortest form. -/
def tbsEncoding (c : Certificate) : List UInt8 := (tbsOf c).encode Cbor.encode

/-- A certificate in the shortest form. -/
def certificateEncoding (c : Certificate) : List UInt8 := (signedOf c).encode Cbor.encode

end Python

/-- `CERTIFICATE_CBOR_LENGTH`. -/
def certificateCborLength : ℕ := 1+tbsCertificateCborLength+(1+1+dtlsEcSigSize)

/-- `certificate_encode`; no result is looked at. -/
def certificateEncode (N : Nanocbor) (enc : Encoder) (c : Certificate) : Encoder×ℤ :=
  let enc := (certificateEncodeTbs N (enc.emit (N.arrayHead 2)) c).1
  ((enc.emit (N.bstrHead 64)).emit c.signature.bytes,0)

/-- The device class is one of those that there are. -/
def ValidClass (tags : StereotypeTags) : Prop :=
  deviceClassMinimum≤tags.deviceClass ∧ tags.deviceClass≤deviceClassMaximum

/-- A device class is decided to be valid. -/
instance decidableValidClass (tags : StereotypeTags) : Decidable (ValidClass tags) :=
  inferInstanceAs (Decidable (_ ∧ _))

/-- A valid device class is a small number. -/
theorem ValidClass.lt {tags : StereotypeTags} (h : ValidClass tags) :
    tags.deviceClass.toNat < 24 := by
  have hle := UInt8.le_iff_toNat_le.mp h.2
  have hmax : deviceClassMaximum.toNat=8 := rfl
  omega

section Checked

variable {D : Type} {cbor : PublishDecoder D} {dec : D}

/-- Tags that are decoded have a valid class. -/
theorem validClass_of_deserialise {out : D×StereotypeTags}
    (h : deserialiseStereotypeTags cbor dec=.ok out) : ValidClass out.2 := by
  unfold deserialiseStereotypeTags at h
  obtain ⟨arr,_,h⟩ := ok_of_bind h
  obtain ⟨⟨arr',deviceClass⟩,_,h⟩ := ok_of_bind h
  obtain ⟨hbad,h⟩ := ok_of_guard h
  obtain ⟨_,h⟩ := ok_of_guard h
  cases h
  obtain ⟨hmin,hmax⟩ := not_or.mp hbad
  exact ⟨UInt8.not_lt.mp hmin,UInt8.not_lt.mp hmax⟩

/-- So has the signed part of a certificate. -/
theorem validClass_of_decodeTbs {out : D×(Signature → Certificate)}
    (h : certificateDecodeTbs cbor dec=.ok out) (signature : Signature) :
    ValidClass (out.2 signature).tags := by
  unfold certificateDecodeTbs at h
  obtain ⟨_,_,h⟩ := ok_of_bind h
  obtain ⟨_,_,h⟩ := ok_of_bind h
  obtain ⟨_,_,h⟩ := ok_of_bind h
  obtain ⟨_,_,h⟩ := ok_of_bind h
  obtain ⟨_,_,h⟩ := ok_of_bind h
  obtain ⟨_,_,h⟩ := ok_of_bind h
  obtain ⟨_,h⟩ := ok_of_guard h
  obtain ⟨_,_,h⟩ := ok_of_bind h
  obtain ⟨_,htags,h⟩ := ok_of_bind h
  obtain ⟨_,_,h⟩ := ok_of_bind h
  obtain ⟨_,h⟩ := ok_of_guard h
  cases h
  exact validClass_of_deserialise htags

/-- Certificates that are decoded have a valid class, whatever the bytes. -/
theorem validClass_of_decode {out : D×Certificate} (h : certificateDecode cbor dec=.ok out) :
    ValidClass out.2.tags := by
  unfold certificateDecode at h
  obtain ⟨_,htbs,h⟩ := ok_of_bind h
  obtain ⟨_,_,h⟩ := ok_of_bind h
  obtain ⟨_,h⟩ := ok_of_guard h
  cases h
  exact validClass_of_decodeTbs htbs _

end Checked

section Encoding

variable {N : Nanocbor} {c : Certificate}

/-- The signed fields have the bytes that the C encoder emits. -/
theorem tbsEncoding_eq (hN : StandardHeads N) (c : Certificate) : tbsEncoding c=tbsBytes N c := by
  have hissuer : c.issuer.toList.length=8 := by simp
  have hsubject : c.subject.toList.length=8 := by simp
  have hkey : c.publicKey.bytes.length=64 := by simp [PublicKey.bytes]
  simp [tbsEncoding,TBSCertificate.encode,TBSCertificate.fields,stereotypeTagsEncode,tbsOf,
    Cbor.encode,encodeItems,tbsBytes,tbsChunksBefore,tbsChunksAfter,hN.arrayHead,hN.uintHead,
    hN.bstrHead,hissuer,hsubject,hkey]

/-- A certificate has an array head, its signed part and its signature. -/
theorem certificateEncoding_eq (c : Certificate) :
    certificateEncoding c=arrayHead 2++(tbsEncoding c++(bytesHead 64++c.signature.bytes)) := by
  have hsignature : c.signature.bytes.length=64 := c.signature.bytes_length
  simp [certificateEncoding,tbsEncoding,SignedCertificate.encode,signedOf,TBSCertificate.encode,
    Cbor.encode,encodeItems,TBSCertificate.fields,hsignature]

/-- The signed part never exceeds `TBS_CERTIFICATE_CBOR_LENGTH`. -/
theorem length_tbsEncoding (h : ValidClass c.tags) :
    (tbsEncoding c).length≤tbsCertificateCborLength := by
  have hserial := headLength_le c.serialNumber.toNat_lt
  have hfrom := headLength_le c.validityNotBefore.toNat_lt
  have hto := headLength_le c.validityNotAfter.toNat_lt
  have hclass : headLength c.tags.deviceClass.toNat=1 := if_pos h.lt
  have hsix : headLength 6=1 := rfl
  have htwo : headLength 2=1 := rfl
  have hone : headLength 1=1 := rfl
  have height : headLength 8=1 := rfl
  have hkey : headLength 64=2 := rfl
  simp [tbsEncoding,TBSCertificate.encode,TBSCertificate.fields,stereotypeTagsEncode,tbsOf,
    Cbor.encode,encodeItems,arrayHead,uintHead,bytesHead,PublicKey.bytes,tbsCertificateCborLength,
    hclass,hsix,htwo,hone,height,hkey]
  omega

/-- A certificate never exceeds `CERTIFICATE_CBOR_LENGTH`. -/
theorem length_certificateEncoding (h : ValidClass c.tags) :
    (certificateEncoding c).length≤ certificateCborLength := by
  have htbs := length_tbsEncoding h
  have htwo : headLength 2=1 := rfl
  have hkey : headLength 64=2 := rfl
  rw [certificateEncoding_eq]
  simp only [List.length_append,arrayHead,bytesHead,length_head,c.signature.bytes_length,htwo,hkey,
    certificateCborLength]
  omega

/-- Emissions that fit one after the other are all stored. -/
theorem emitAll_room (enc : Encoder) (chunks : List (List UInt8))
    (hroom : enc.stored.length+chunks.flatten.length≤enc.space) :
    enc.emitAll chunks=
      ⟨enc.space,enc.len+chunks.flatten.length,enc.stored++chunks.flatten⟩ := by
  induction chunks generalizing enc with
  | nil => simp [Encoder.emitAll]
  | cons chunk chunks ih =>
    simp only [List.flatten_cons,List.length_append] at hroom
    have hfirst : enc.emit chunk=⟨enc.space,enc.len+chunk.length,enc.stored++chunk⟩ :=
      if_pos (by omega)
    have hrest := ih (enc.emit chunk) (by
      rw [hfirst,List.length_append]
      dsimp only
      omega)
    rw [Encoder.emitAll,List.foldl_cons]
    rw [Encoder.emitAll] at hrest
    rw [hrest,hfirst]
    simp [Nat.add_assoc]

/-- `certificate_encode_tbs` with enough room in the buffer. -/
theorem certificateEncodeTbs_room (hN : StandardHeads N) (enc : Encoder)
    (hroom : enc.stored.length+(tbsEncoding c).length≤enc.space) :
    certificateEncodeTbs N enc c=
      (⟨enc.space,enc.len+(tbsEncoding c).length,enc.stored++tbsEncoding c⟩,0) := by
  rw [tbsEncoding_eq hN] at hroom ⊢
  have hparts : (tbsBytes N c).length=(tbsChunksBefore N c).flatten.length+
      ((N.arrayHead 1).length+((N.uintHead c.tags.deviceClass.toNat).length+
        (tbsChunksAfter N c).flatten.length)) := by
    simp [tbsBytes]
  have hbefore := emitAll_room enc (tbsChunksBefore N c) (by omega)
  have hok : (certificateEncodeTbs N enc c).2=0 := by
    have harr : (enc.emitAll (tbsChunksBefore N c)).fits (N.arrayHead 1)=true := by
      rw [hbefore,Encoder.fits,decide_eq_true_iff,List.length_append]
      dsimp only
      omega
    have hdev : ((enc.emitAll (tbsChunksBefore N c)).emit (N.arrayHead 1)).fits
        (N.uintHead c.tags.deviceClass.toNat)=true := by
      rw [Encoder.emit,if_pos (by simpa [Encoder.fits] using harr),hbefore,Encoder.fits,
        decide_eq_true_iff,List.length_append,List.length_append]
      dsimp only
      omega
    have htags : (serialiseStereotypeTags N (enc.emitAll (tbsChunksBefore N c)) c.tags).2=0 := by
      unfold serialiseStereotypeTags
      dsimp only
      rw [harr,hdev,if_neg (not_lt.mpr N.result_fits),if_neg (not_lt.mpr N.result_fits)]
    unfold certificateEncodeTbs
    dsimp only
    rw [if_neg (by rw [htags]; decide)]
  refine Prod.ext ?_ hok
  rw [certificateEncodeTbs_emitAll hok,emitAll_room _ _ hroom]
  rfl

/-- `certificate_encode` with enough room in the buffer. -/
theorem certificateEncode_room (hN : StandardHeads N) {space : ℕ}
    (hroom : (certificateEncoding c).length ≤ space) :
    certificateEncode N (nanocborEncoderInit space) c=
      (⟨space,(certificateEncoding c).length,certificateEncoding c⟩,0) := by
  rw [certificateEncoding_eq] at hroom ⊢
  simp only [List.length_append] at hroom
  have hhead : (nanocborEncoderInit space).emit (N.arrayHead 2)=
      ⟨space,(arrayHead 2).length,arrayHead 2⟩ := by
    rw [hN.arrayHead,Encoder.emit,if_pos (by simp [nanocborEncoderInit]; omega)]
    simp [nanocborEncoderInit]
  have htbs := certificateEncodeTbs_room (c:=c) hN
    ((nanocborEncoderInit space).emit (N.arrayHead 2)) (by rw [hhead]; dsimp only; omega)
  have hend := emitAll_room (certificateEncodeTbs N
      ((nanocborEncoderInit space).emit (N.arrayHead 2)) c).1
    [N.bstrHead 64,c.signature.bytes] (by
      rw [htbs,hhead,hN.bstrHead]
      simp only [List.flatten_cons,List.flatten_nil,List.length_append,List.append_nil]
      omega)
  refine Prod.ext ?_ rfl
  change (certificateEncodeTbs N ((nanocborEncoderInit space).emit (N.arrayHead 2)) c).1.emitAll
    [N.bstrHead 64,c.signature.bytes]=_
  rw [hend,htbs,hhead,hN.bstrHead]
  simp [Nat.add_assoc]

end Encoding

section Decoding

variable {D : Type} {cbor : PublishDecoder D} {At : D → Option ℕ → List UInt8 → Prop}
  {left : Option ℕ} {dec : D}

/-- The bytes of a vector are read back, whatever follows them. -/
theorem bytesAt_append_left {k : ℕ} (v : Vector UInt8 k) (l : List UInt8) :
    bytesAt k (v.toList++l) 0=v := by
  refine Vector.ext fun i hi => ?_
  have hlt : i < v.toList.length := by simpa using hi
  simp [bytesAt,List.getElem?_append_left hlt,hi]

/-- So are those behind another vector. -/
theorem bytesAt_append_right {j k : ℕ} (v : Vector UInt8 j) (w : Vector UInt8 k) :
    bytesAt k (v.toList++w.toList) j=w := by
  refine Vector.ext fun i hi => ?_
  simp [bytesAt]

/-- The bytes of a vector are read back. -/
theorem bytesAt_toList {k : ℕ} (v : Vector UInt8 k) : bytesAt k v.toList 0=v := by
  simpa using bytesAt_append_left v []

/-- A public key is read back from its bytes. -/
theorem publicKeyOfBytes_bytes (key : PublicKey) : publicKeyOfBytes key.bytes=key :=
  congrArg₂ PublicKey.mk (bytesAt_append_left key.x _) (bytesAt_append_right key.x key.y)

/-- A signature is read back from its bytes. -/
theorem signatureOfBytes_bytes (sig : Signature) : signatureOfBytes sig.bytes=sig :=
  congrArg₂ Signature.mk (bytesAt_append_left sig.r _) (bytesAt_append_right sig.r sig.s)

/-- A byte string of the right length is read. -/
theorem decodes_bstrOfLen (hcbor : LawfulDecoder cbor At) {k : ℕ} (hk : k < 2^32)
    (v : Vector UInt8 k) {rest : List UInt8} (hdec : At dec left (bytesHead k++(v.toList++rest)))
    (hleft : left≠some 0) : Decodes At left rest v (nanocborGetBstrOfLen cbor dec k) := by
  have hlen : v.toList.length=k := by simp
  obtain ⟨dec',hget,hdec'⟩ := (hcbor.getBstr dec left v.toList rest (by rwa [hlen]) hleft
    (by rwa [hlen])).check
  refine ⟨dec',?_,hdec'⟩
  unfold nanocborGetBstrOfLen
  rw [hget,ok_bind]
  dsimp only
  rw [hlen,if_neg (lt_irrefl k),if_neg (lt_irrefl k),bytesAt_toList]
  rfl

/-- An object of the right size is read. -/
theorem decodes_object (hcbor : LawfulDecoder cbor At) {b : List UInt8} {size : ℕ}
    (hsize : b.length=size) (hlt : size < 2^32) {rest : List UInt8}
    (hdec : At dec left (bytesHead size++(b++rest))) (hleft : left≠some 0) :
    Decodes At left rest b (nanocborGetObject cbor dec size) := by
  obtain ⟨dec',hget,hdec'⟩ := (hcbor.getBstr dec left b rest (by rwa [hsize]) hleft
    (by rwa [hsize])).check
  refine ⟨dec',?_,hdec'⟩
  unfold nanocborGetObject
  rw [hget,ok_bind]
  dsimp only
  rw [if_neg (not_not.mpr hsize)]
  rfl

/-- Stereotype tags are read back. -/
theorem decodes_tags (hcbor : LawfulDecoder cbor At) {tags : StereotypeTags}
    (hclass : ValidClass tags) {rest : List UInt8}
    (hdec : At dec left (arrayHead 1++(uintHead tags.deviceClass.toNat++rest)))
    (hleft : left≠some 0) :
    Decodes At left rest tags (deserialiseStereotypeTags cbor dec) := by
  obtain ⟨arr,henter,harr⟩ := (hcbor.enterArray dec left 1 _ hdec hleft (by decide)).check
  obtain ⟨arr',hget,harr'⟩ := (hcbor.getUint8 arr (some 1) _ rest harr (by decide)
    tags.deviceClass.toNat_lt).check
  have hvalid : ¬(tags.deviceClass < deviceClassMinimum ∨ deviceClassMaximum < tags.deviceClass) :=
    not_or.mpr ⟨UInt8.not_lt.mpr hclass.1,UInt8.not_lt.mpr hclass.2⟩
  have hend : cbor.atEnd arr'=true := hcbor.atEnd_container arr' 0 rest harr'
  refine ⟨_,?_,hcbor.leaveContainer dec left _ arr' rest hdec hleft harr'⟩
  unfold deserialiseStereotypeTags
  rw [henter,ok_bind,hget,ok_bind]
  simp only [UInt8.ofNat_toNat]
  rw [if_neg hvalid,if_neg (by rw [hend]; decide)]
  rfl

/-- `certificate_decode_tbs` reads the signed fields back. -/
theorem decodes_tbs (hcbor : LawfulDecoder cbor At) (c : Certificate) (hclass : ValidClass c.tags)
    {rest : List UInt8} (hdec : At dec left (tbsEncoding c++rest)) (hleft : left≠some 0) :
    Decodes At left rest (fun signature => {c with signature := signature})
      (certificateDecodeTbs cbor dec) := by
  have hissuer : c.issuer.toList.length=8 := by simp
  have hsubject : c.subject.toList.length=8 := by simp
  have hkey : c.publicKey.bytes.length=64 := by simp [PublicKey.bytes]
  have hbytes : tbsEncoding c++rest=arrayHead 6++(uintHead c.serialNumber.toNat++
      (bytesHead 8++(c.issuer.toList++(arrayHead 2++(uintHead c.validityNotBefore.toNat++
      (uintHead c.validityNotAfter.toNat++(bytesHead 8++(c.subject.toList++(arrayHead 1++
      (uintHead c.tags.deviceClass.toNat++(bytesHead 64++(c.publicKey.bytes++rest)))))))))))) := by
    simp [tbsEncoding,TBSCertificate.encode,TBSCertificate.fields,stereotypeTagsEncode,tbsOf,
      Cbor.encode,encodeItems,hissuer,hsubject,hkey]
  rw [hbytes] at hdec
  obtain ⟨arr,henter,h0⟩ := (hcbor.enterArray dec left 6 _ hdec hleft (by decide)).check
  obtain ⟨arr₁,hserial,h1⟩ := (hcbor.getUint32 arr (some 6) _ _ h0 (by decide)
    c.serialNumber.toNat_lt).check
  obtain ⟨arr₂,hget₂,h2⟩ := decodes_bstrOfLen hcbor (by decide) c.issuer h1 (by decide)
  obtain ⟨v,henterv,hv0⟩ := (hcbor.enterArray arr₂ (some 4) 2 _ h2 (by decide) (by decide)).check
  obtain ⟨v₁,hfrom,hv1⟩ := (hcbor.getUint32 v (some 2) _ _ hv0 (by decide)
    c.validityNotBefore.toNat_lt).check
  obtain ⟨v₂,hto,hv2⟩ := (hcbor.getUint32 v₁ (some 1) _ _ hv1 (by decide)
    c.validityNotAfter.toNat_lt).check
  have hvend : cbor.atEnd v₂=true := hcbor.atEnd_container v₂ 0 _ hv2
  have h3 := hcbor.leaveContainer arr₂ (some 4) _ v₂ _ h2 (by decide) hv2
  obtain ⟨arr₄,hget₄,h4⟩ := decodes_bstrOfLen hcbor (by decide) c.subject h3 (by decide)
  obtain ⟨arr₅,htags,h5⟩ := decodes_tags hcbor hclass h4 (by decide)
  obtain ⟨arr₆,hpk,h6⟩ := decodes_object hcbor hkey (by decide) h5 (by decide)
  have hend : cbor.atEnd arr₆=true := hcbor.atEnd_container arr₆ 0 _ h6
  refine ⟨_,?_,hcbor.leaveContainer dec left _ arr₆ rest hdec hleft h6⟩
  unfold certificateDecodeTbs
  simp only [henter,hserial,hget₂,henterv,hfrom,hto,hvend,hget₄,htags,hpk,hend,ok_bind,
    Bool.true_eq_false,if_false,publicKeyOfBytes_bytes,UInt32.ofNat_toNat]
  rfl

/-- `certificate_decode` reads a certificate back, and leaves the decoder behind it. -/
theorem decodes_certificate (hcbor : LawfulDecoder cbor At) (c : Certificate)
    (hclass : ValidClass c.tags) {rest : List UInt8}
    (hdec : At dec left (certificateEncoding c++rest)) (hleft : left≠some 0) :
    Decodes At left rest c (certificateDecode cbor dec) := by
  rw [certificateEncoding_eq,List.append_assoc,List.append_assoc,List.append_assoc] at hdec
  have h0 := (hcbor.enterArray dec left 2 _ hdec hleft (by decide)).2
  obtain ⟨arr₁,htbs,h1⟩ := decodes_tbs hcbor c hclass h0 (by decide)
  have hsignature : c.signature.bytes.length=64 := c.signature.bytes_length
  obtain ⟨arr₂,hsig,h2⟩ := decodes_object hcbor hsignature (by decide) h1 (by decide)
  have hend : cbor.atEnd arr₂=true := hcbor.atEnd_container arr₂ 0 _ h2
  refine ⟨_,?_,hcbor.leaveContainer dec left _ arr₂ rest hdec hleft h2⟩
  unfold certificateDecode
  simp only [htbs,hsig,hend,ok_bind,Bool.true_eq_false,if_false,signatureOfBytes_bytes]
  rfl

end Decoding

section Agreement

variable {D : Type}

/-- The C code and the Python code agree on a certificate. -/
structure AgreeOn (N : Nanocbor) (cbor : PublishDecoder D) (dumps : Item → List UInt8)
    (c : Certificate) : Prop where
  /-- `certificate_encode_tbs` emits the bytes of `TBSCertificate.encode`. -/
  encodeTbs : ∀ space, tbsCertificateCborLength ≤ space →
    certificateEncodeTbs N (nanocborEncoderInit space) c=
      (⟨space,((tbsOf c).encode dumps).length,(tbsOf c).encode dumps⟩,0)
  /-- `certificate_decode` takes `SignedCertificate.encode` apart, to the end. -/
  decode : ∃ dec, certificateDecode cbor (cbor.init ((signedOf c).encode dumps))=.ok (dec,c) ∧
    cbor.atEnd dec=true
  /-- `certificate_encode` emits the bytes of `SignedCertificate.encode` again. -/
  encode : ∀ space, certificateCborLength ≤ space →
    certificateEncode N (nanocborEncoderInit space) c=
      (⟨space,((signedOf c).encode dumps).length,(signedOf c).encode dumps⟩,0)
  /-- The signed part fits its buffer. -/
  lengthTbs : ((tbsOf c).encode dumps).length≤tbsCertificateCborLength
  /-- The certificate fits its buffer. -/
  length : ((signedOf c).encode dumps).length≤ certificateCborLength
  /-- What `keystore_add_start` queues for the certificate is what
  `TBSCertificate.build` signs, followed by the signature. -/
  signed : ∀ {n : ℕ} (E : Env n) (k : Store n) (i : Fin n) (rest : List (Fin n))
    (sign : List UInt8 → Signature), E.nanocbor=N → k.addBufferInUse=false →
    k.publicKeysToVerify=i::rest → (k.item i).cert=c → c.signature=sign ((tbsOf c).encode dumps) →
    ∃ e, (keystoreAddStart E k true).outstanding=k.outstanding++[e] ∧
      e.message=(tbsOf c).encode dumps++((tbsOf c).build dumps sign).signature

/-- The list of the signed fields has an encoding. -/
theorem fits_fields {c : Certificate} (hclass : ValidClass c.tags) : Fits (tbsOf c).fields := by
  have hkey : c.publicKey.bytes.length=64 := by simp [PublicKey.bytes]
  have hserial := c.serialNumber.toNat_lt
  have hfrom := c.validityNotBefore.toNat_lt
  have hto := c.validityNotAfter.toNat_lt
  refine .row (show 6 < 2^64 by decide) ⟨.uint ?_,.bytes (by simp [tbsOf]),
    .row (show 2 < 2^64 by decide) ⟨.uint ?_,.uint ?_⟩,.bytes (by simp [tbsOf]),
    .row (show 1 < 2^64 by decide) (.uint (hclass.lt.trans (by decide))),.bytes ?_⟩
  · show c.serialNumber.toNat < _
    omega
  · show c.validityNotBefore.toNat < _
    omega
  · show c.validityNotAfter.toNat < _
    omega
  · show c.publicKey.bytes.length < _
    omega

/-- So has the list of a certificate. -/
theorem fits_signed {c : Certificate} (hclass : ValidClass c.tags) :
    Fits (.array [(tbsOf c).fields,.bytes c.signature.bytes]) := by
  have hsignature : c.signature.bytes.length=64 := c.signature.bytes_length
  exact .row (show 2 < 2^64 by decide) ⟨fits_fields hclass,.bytes (by omega)⟩

/-- The signed fields as `cbor2.dumps` encodes them. -/
theorem encode_tbsOf {dumps : Item → List UInt8} (hdumps : Canonical dumps) {c : Certificate}
    (hclass : ValidClass c.tags) : (tbsOf c).encode dumps=tbsEncoding c :=
  hdumps _ (fits_fields hclass)

/-- A certificate as `cbor2.dumps` encodes it. -/
theorem encode_signedOf {dumps : Item → List UInt8} (hdumps : Canonical dumps) {c : Certificate}
    (hclass : ValidClass c.tags) : (signedOf c).encode dumps=certificateEncoding c :=
  hdumps _ (fits_signed hclass)

/-- **C and Python agree on certificates**, for any emitter of the shortest
form, be it in C or in Python, and any decoder that reads it. -/
theorem agreeOn {N : Nanocbor} {cbor : PublishDecoder D} {At : D → Option ℕ → List UInt8 → Prop}
    {dumps : Item → List UInt8} (hN : StandardHeads N) (hcbor : LawfulDecoder cbor At)
    (hdumps : Canonical dumps) (c : Certificate) (hclass : ValidClass c.tags) :
    AgreeOn N cbor dumps c := by
  have hlength := length_tbsEncoding hclass
  have hpython := encode_tbsOf hdumps hclass
  have hpython' := encode_signedOf hdumps hclass
  have htbs : ∀ space, tbsCertificateCborLength ≤ space →
      certificateEncodeTbs N (nanocborEncoderInit space) c=
        (⟨space,(tbsEncoding c).length,tbsEncoding c⟩,0) := fun space hspace => by
    have hroom := certificateEncodeTbs_room (c:=c) hN (nanocborEncoderInit space) (by
      simp only [nanocborEncoderInit,List.length_nil]
      omega)
    simpa [nanocborEncoderInit] using hroom
  refine ⟨?_,?_,fun space hspace => ?_,?_,?_,?_⟩
  · rw [hpython]
    exact htbs
  · have hinit : At (cbor.init (certificateEncoding c)) none (certificateEncoding c++[]) := by
      rw [List.append_nil]
      exact hcbor.init _
    obtain ⟨dec,hdecode,hdec⟩ := decodes_certificate hcbor c hclass hinit (by decide)
    rw [hpython']
    exact ⟨dec,hdecode,hcbor.atEnd_top dec [] hdec⟩
  · rw [hpython']
    exact certificateEncode_room hN ((length_certificateEncoding hclass).trans hspace)
  · rw [hpython]
    exact hlength
  · rw [hpython']
    exact length_certificateEncoding hclass
  · intro n E k i rest sign hE hfree hwait hcert hsign
    have hitem : encodeItem E k i=
        (⟨tbsCertificateCborLength,(tbsEncoding c).length,tbsEncoding c⟩,0) := by
      rw [encodeItem,hE,hcert]
      exact htbs _ (le_refl _)
    have hfits : ¬((encodeItem E k i).2≠0 ∨
        tbsCertificateCborLength < (encodeItem E k i).1.len) := by
      rw [hitem]
      exact not_or.mpr ⟨fun h => h rfl,not_lt.mpr hlength⟩
    refine ⟨entryFor E k i (filledBuffer E k i),?_,?_⟩
    · unfold keystoreAddStart
      rw [if_neg (by rw [hfree]; decide),hwait]
      dsimp only
      rw [if_neg hfits,if_neg (by decide)]
    · change (filledBuffer E k i).take ((encodeItem E k i).1.len+dtlsEcSigSize)=_
      rw [filledBuffer,hitem,hcert,←c.signature.bytes_length]
      dsimp only
      rw [take_overwrite_overwrite,TBSCertificate.build,hsign,hpython]

/-- A certificate of an embedded node with the largest serial number. -/
def sampleCertificate : Certificate :=
  {zeroCertificate with serialNumber := 0xFFFFFFFF,tags := ⟨6⟩}

/-- The emitters and the decoder on bytes agree on it. -/
theorem agreeOn_sample :
    AgreeOn standardNanocbor.toNanocbor byteDecoder.toPublishDecoder Cbor.encode
      sampleCertificate :=
  agreeOn standardNanocbor_heads.toStandardHeads byteDecoder_lawful.toLawfulDecoder
    canonical_encode sampleCertificate (by decide)

end Agreement

end TrustAlloc.CertificateCodec
