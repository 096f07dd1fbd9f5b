import TrustAlloc.CborCodec
import TrustAlloc.HmmForward
import TrustAlloc.HmmIncremental

/-!
# Sending a model of an edge's behaviour

The serialisers of `hmm.c` and of the two models that use it write an array of
arrays of numbers. The deserialiser reads the numbers with the decoder of the
outer array, which stands in front of the inner one, so that it never ends
well; the one of the incremental model does not even enter its array. Floating
point numbers are whatever the CBOR library takes them for.
-/

namespace TrustAlloc.HmmCodec

open CborCodec CertificateDecoding Certificates Decoding Hmm InteractionHistory

/-- The emitter with the calls that the models need. -/
structure FloatNanocbor (F : Type) extends Nanocbor where
  /-- `nanocbor_fmt_float`. -/
  floatItem : F → List UInt8
  /-- `nanocbor_fmt_bool`. -/
  boolItem : Bool → List UInt8

/-- The decoder with the calls that the models need. -/
structure FloatDecoder (D F : Type) extends PublishDecoder D where
  /-- `nanocbor_get_float`. -/
  getFloat : D → ℤ×D×F

variable {D F : Type}

/-- `HMM_NUM_STATES`. -/
def hmmNumStates : ℕ := hmmStates.length

section Serialising

variable (N : FloatNanocbor F)

/-- A loop that writes numbers. -/
def fmtFloats {κ : Type} (keys : List κ) (x : κ → F) (enc : Encoder) : Except ℤ Encoder :=
  keys.foldlM (fun enc i => emitChecked N.toNanocbor (N.floatItem (x i)) enc) enc

/-- A loop that writes an array of numbers for each state. -/
def fmtRows {κ : Type} (keys : List κ) (x : HmmState → κ → F) (enc : Encoder) :
    Except ℤ Encoder :=
  hmmStates.foldlM (fun enc i => do
    let enc ← emitChecked N.toNanocbor (N.arrayHead keys.length) enc
    fmtFloats N keys (x i) enc) enc

/-- `hmm_serialise`. -/
def hmmSerialise (hmm : HmmT F) (enc : Encoder) : Except ℤ Encoder := do
  let enc ← emitChecked N.toNanocbor (N.arrayHead 3) enc
  -- initial
  let enc ← emitChecked N.toNanocbor (N.arrayHead hmmNumStates) enc
  let enc ← fmtFloats N hmmStates hmm.initial enc
  -- trans
  let enc ← emitChecked N.toNanocbor (N.arrayHead hmmNumStates) enc
  let enc ← fmtRows N hmmStates hmm.trans enc
  -- emission
  let enc ← emitChecked N.toNanocbor (N.arrayHead hmmNumStates) enc
  fmtRows N hmmObservations hmm.emission enc

/-- `serialise_trust_edge_capability` of the model with a history. -/
def serialiseForward (cap : HmmForward.EdgeCapabilityTm F) (enc : Encoder) : Except ℤ Encoder :=
  hmmSerialise N cap.hmm enc

/-- `serialise_trust_edge_capability` of the incremental model. -/
def serialiseIncremental (cap : HmmIncremental.EdgeCapabilityTm F) (enc : Encoder) :
    Except ℤ Encoder := do
  let enc ← emitChecked N.toNanocbor (N.arrayHead 2) enc
  let enc ← hmmSerialise N cap.hmm enc
  emitChecked N.toNanocbor (N.boolItem cap.first) enc

/-- An array of numbers. -/
def rowBytes {κ : Type} (keys : List κ) (x : κ → F) : List UInt8 :=
  N.arrayHead keys.length++keys.flatMap fun i => N.floatItem (x i)

/-- An array with an array of numbers for each state. -/
def rowsBytes {κ : Type} (keys : List κ) (x : HmmState → κ → F) : List UInt8 :=
  N.arrayHead hmmNumStates++hmmStates.flatMap fun i => rowBytes N keys (x i)

/-- What is written for a model. -/
def hmmBytes (hmm : HmmT F) : List UInt8 :=
  N.arrayHead 3++(rowBytes N hmmStates hmm.initial++
    (rowsBytes N hmmStates hmm.trans++rowsBytes N hmmObservations hmm.emission))

variable {N} (hN : StandardHeads N.toNanocbor)

include hN

/-- A loop over numbers writes them. -/
theorem writes_fmtFloats {κ : Type} (keys : List κ) (x : κ → F) :
    Writes (fmtFloats N keys x) (keys.flatMap fun i => N.floatItem (x i)) :=
  writes_foldlM fun i _ => writes_emit hN (N.floatItem (x i))

/-- A loop over the states writes an array for each. -/
theorem writes_fmtRows {κ : Type} (keys : List κ) (x : HmmState → κ → F) :
    Writes (fmtRows N keys x) (hmmStates.flatMap fun i => rowBytes N keys (x i)) :=
  writes_foldlM fun i _ => (writes_emit hN _).bind (writes_fmtFloats hN keys (x i))

/-- A model is written. -/
theorem writes_hmmSerialise (hmm : HmmT F) : Writes (hmmSerialise N hmm) (hmmBytes N hmm) := by
  have hemission := (writes_emit hN (N.arrayHead hmmNumStates)).bind
    (writes_fmtRows hN hmmObservations hmm.emission)
  have htrans := (writes_fmtRows hN hmmStates hmm.trans).bind hemission
  have hfloats := (writes_fmtFloats hN hmmStates hmm.initial).bind
    ((writes_emit hN (N.arrayHead hmmNumStates)).bind htrans)
  have hall := (writes_emit hN (N.arrayHead 3)).bind
    ((writes_emit hN (N.arrayHead hmmNumStates)).bind hfloats)
  unfold hmmBytes rowBytes rowsBytes
  rw [List.append_assoc,List.append_assoc]
  exact hall

/-- So is a capability of the incremental model. -/
theorem writes_serialiseIncremental (cap : HmmIncremental.EdgeCapabilityTm F) :
    Writes (serialiseIncremental N cap)
      (N.arrayHead 2++(hmmBytes N cap.hmm++N.boolItem cap.first)) :=
  (writes_emit hN _).bind ((writes_hmmSerialise hN cap.hmm).bind (writes_emit hN _))

end Serialising

section Deserialising

variable (cbor : FloatDecoder D F)

/-- A turn of a loop that reads numbers into a model, with a decoder. -/
def getFloat {κ : Type} (store : κ → F → HmmT F → HmmT F) (state : D×HmmT F) (j : κ) :
    Except ℤ (D×HmmT F) := do
  let (arr,x) ← nanocborCheck (cbor.getFloat state.1)
  return (arr,store j x state.2)

/-- A turn of a loop that reads arrays of numbers into a model. The array is
entered from one decoder, and its numbers are read with another. -/
def getRow {κ : Type} (keys : List κ) (store : HmmState → κ → F → HmmT F → HmmT F)
    (state : D×D×HmmT F) (i : HmmState) : Except ℤ (D×D×HmmT F) := do
  let (arr,subArr,hmm) := state
  let subArr2 ← nanocborCheck (cbor.enterArray subArr)
  let (arr,hmm) ← keys.foldlM (getFloat cbor (store i)) (arr,hmm)
  if cbor.atEnd subArr2=false then throw cbor.errEnd
  return (arr,cbor.leaveContainer subArr subArr2,hmm)

/-- Read an array of arrays of numbers into a model. -/
def getRows {κ : Type} (keys : List κ) (store : HmmState → κ → F → HmmT F → HmmT F)
    (state : D×HmmT F) : Except ℤ (D×HmmT F) := do
  let (arr,hmm) := state
  let subArr ← nanocborCheck (cbor.enterArray arr)
  let (arr,subArr,hmm) ← hmmStates.foldlM (getRow cbor keys store) (arr,subArr,hmm)
  if cbor.atEnd subArr=false then throw cbor.errEnd
  return (cbor.leaveContainer arr subArr,hmm)

/-- Store a number of `initial`. -/
def setInitial (i : HmmState) (x : F) (hmm : HmmT F) : HmmT F :=
  {hmm with initial := Function.update hmm.initial i x}

/-- Store a number of `trans`. -/
def setTrans (i j : HmmState) (x : F) (hmm : HmmT F) : HmmT F :=
  {hmm with trans := Function.update hmm.trans i (Function.update (hmm.trans i) j x)}

/-- Store a number of `emission`. -/
def setEmission (i : HmmState) (j : HmmObservation) (x : F) (hmm : HmmT F) : HmmT F :=
  {hmm with emission := Function.update hmm.emission i (Function.update (hmm.emission i) j x)}

/-- `hmm_deserialise`, into a model with any content. -/
def hmmDeserialise (dec : D) (hmm : HmmT F) : Except ℤ (D×HmmT F) := do
  let arr ← nanocborCheck (cbor.enterArray dec)
  -- initial
  let subArr ← nanocborCheck (cbor.enterArray arr)
  let (arr,hmm) ← hmmStates.foldlM (getFloat cbor setInitial) (arr,hmm)
  if cbor.atEnd subArr=false then throw cbor.errEnd
  let arr := cbor.leaveContainer arr subArr
  -- trans
  let (arr,hmm) ← getRows cbor hmmStates setTrans (arr,hmm)
  -- emission
  let (arr,hmm) ← getRows cbor hmmObservations setEmission (arr,hmm)
  return (cbor.leaveContainer dec arr,hmm)

/-- `deserialise_trust_edge_capability` of the model with a history. -/
def deserialiseForward (dec : D) (cap : HmmForward.EdgeCapabilityTm F) :
    Except ℤ (D×HmmForward.EdgeCapabilityTm F) := do
  let (dec,hmm) ← hmmDeserialise cbor dec cap.hmm
  return (dec,{cap with hmm})

/-- `deserialise_trust_edge_capability` of the incremental model. The decoder
`arr` of its array is declared and not set to anything. -/
def deserialiseIncremental (arr dec : D) (cap : HmmIncremental.EdgeCapabilityTm F) :
    Except ℤ (D×HmmIncremental.EdgeCapabilityTm F) := do
  let (arr,hmm) ← hmmDeserialise cbor arr cap.hmm
  let (arr,first) ← nanocborCheck (cbor.getBool arr)
  if cbor.atEnd arr=false then throw cbor.errEnd
  return (cbor.leaveContainer dec arr,{cap with hmm,first})

end Deserialising

section RoundTrip

/-- The laws for the calls that the models need, with an emitter. -/
structure LawfulFloatDecoder (N : FloatNanocbor F) (cbor : FloatDecoder D F)
    (At : D → Option ℕ → List UInt8 → Prop) : Prop
    extends LawfulDecoder cbor.toPublishDecoder At where
  /-- Numbers that were written are read. -/
  getFloat : ∀ dec left x rest, At dec left (N.floatItem x++rest) → left≠some 0 →
    Reads At left rest x (cbor.getFloat dec)
  /-- So are truth values. -/
  getBool : ∀ dec left b rest, At dec left (N.boolItem b++rest) → left≠some 0 →
    Reads At left rest b (cbor.getBool dec)
  /-- What can be entered as an array is no number. -/
  array_not_float : ∀ dec, 0≤(cbor.enterArray dec).1 → (cbor.getFloat dec).1<0

variable {N : FloatNanocbor F} {cbor : FloatDecoder D F} {At : D → Option ℕ → List UInt8 → Prop}

/-- Whatever is written for a value in a buffer is read back as the value, with
anything behind it, and the decoder is left behind it. -/
def RoundTrips {α : Type} (At : D → Option ℕ → List UInt8 → Prop)
    (serialise : Encoder → Except ℤ Encoder) (deserialise : D → Except ℤ (D×α)) (value : α) :
    Prop :=
  ∀ space enc, serialise (nanocborEncoderInit space)=.ok enc →
    ∀ dec left rest, left≠some 0 → At dec left (enc.stored++rest) →
      Decodes At left rest value (deserialise dec)

/-- What is written and never read does not make a round trip. -/
theorem not_roundTrips {α : Type} (hcbor : LawfulDecoder cbor.toPublishDecoder At)
    {serialise : Encoder → Except ℤ Encoder} {bytes : List UInt8} (hwrites : Writes serialise bytes)
    {deserialise : D → Except ℤ (D×α)} (hfails : ∀ dec result, deserialise dec≠.ok result)
    (value : α) : ¬RoundTrips At serialise deserialise value := by
  intro h
  have hok := (hwrites (nanocborEncoderInit bytes.length) (Nat.zero_le _)).1
    (by simp [nanocborEncoderInit])
  obtain ⟨dec,hdec,_⟩ := h _ _ hok _ none [] (by simp) (hcbor.init _)
  exact hfails _ _ hdec

/-- `hmm_deserialise` never ends well: the array that it enters is the number
that it reads. -/
theorem hmmDeserialise_ne_ok
    (hcbor : ∀ dec, 0≤(cbor.enterArray dec).1 → (cbor.getFloat dec).1<0) (dec : D) (hmm : HmmT F)
    (result : D×HmmT F) : hmmDeserialise cbor dec hmm≠.ok result := by
  intro h
  unfold hmmDeserialise at h
  obtain ⟨arr,_,h⟩ := ok_of_bind h
  obtain ⟨subArr,henter,h⟩ := ok_of_bind h
  obtain ⟨_,hfloats,_⟩ := ok_of_bind h
  obtain ⟨_,hfirst,_⟩ := ok_of_bind hfloats
  obtain ⟨_,hfloat,_⟩ := ok_of_bind hfirst
  have hneg := hcbor arr (ok_of_check henter).1
  exact absurd hneg (not_lt.mpr (ok_of_check hfloat).1)

/-- Nothing that is written for a model or for a capability is ever read back,
not even with a decoder that obeys all laws, whatever was in the place of the
values before and in the decoder that is not set. -/
theorem roundTrips_never (hN : StandardHeads N.toNanocbor) (hcbor : LawfulFloatDecoder N cbor At) :
    (∀ hmm old : HmmT F, ¬RoundTrips At (hmmSerialise N hmm)
      (fun dec => hmmDeserialise cbor dec old) hmm) ∧
    (∀ cap old : HmmForward.EdgeCapabilityTm F, ¬RoundTrips At (serialiseForward N cap)
      (fun dec => deserialiseForward cbor dec old) {old with hmm := cap.hmm}) ∧
    ∀ (cap old : HmmIncremental.EdgeCapabilityTm F) (arr : D),
      ¬RoundTrips At (serialiseIncremental N cap)
        (fun dec => deserialiseIncremental cbor arr dec old) cap := by
  have hfails := hmmDeserialise_ne_ok hcbor.array_not_float
  refine ⟨fun hmm old => ?_,fun cap old => ?_,fun cap old arr => ?_⟩
  · exact not_roundTrips hcbor.toLawfulDecoder (writes_hmmSerialise hN hmm)
      (fun dec => hfails dec old) hmm
  · refine not_roundTrips hcbor.toLawfulDecoder (writes_hmmSerialise hN cap.hmm)
      (fun dec result h => ?_) _
    obtain ⟨_,hok,_⟩ := ok_of_bind h
    exact hfails _ _ _ hok
  · refine not_roundTrips hcbor.toLawfulDecoder (writes_serialiseIncremental hN cap)
      (fun dec result h => ?_) _
    obtain ⟨_,hok,_⟩ := ok_of_bind h
    exact hfails _ _ _ hok

end RoundTrip

section Bytes

open Cbor

/-- An emitter of numbers that are kept as their 32 bits. -/
def bitsNanocbor : FloatNanocbor UInt32 := {standardNanocbor.toNanocbor with
  floatItem x := 0xFA::bigEndian 4 x.toNat
  boolItem b := [if b then 0xF5 else 0xF4]}

/-- Read the bits of a number. -/
def readBits (p : Position) : ℤ×Position×UInt32 :=
  match p.ahead with
  | b::rest =>
    if b=0xFA ∧ p.left≠some 0 ∧ 4 ≤ rest.length then
      (0,p.advance (rest.drop 4),UInt32.ofNat (ofBigEndian (rest.take 4)))
    else (-2,p,0)
  | [] => (-3,p,0)

/-- A decoder on bytes for them. -/
def bitsDecoder : FloatDecoder Position UInt32 := {byteDecoder.toPublishDecoder with
  getFloat := readBits}

/-- A number has no head of an array. -/
theorem readArgument_float (rest : List UInt8) (left : Option ℕ) :
    readArgument 4 ⟨0xFA::rest,left⟩=none := by
  have hhead : readHead (0xFA::rest)=
      if rest.length < 4 then none else some (7,ofBigEndian (rest.take 4),rest.drop 4) := rfl
  unfold readArgument
  rw [hhead]
  split
  · rfl
  · split
    · next h => rfl
    · next m v rest' h =>
      split at h
      · cases h
      · cases h
        rfl

/-- Nothing but a number is read as one. -/
theorem readBits_neg {p : Position} (h : ∀ rest, p.ahead≠0xFA::rest) : (readBits p).1<0 := by
  unfold readBits
  cases hahead : p.ahead with
  | nil => exact endOfBytes_neg.1
  | cons b rest =>
    have hb : b≠0xFA := fun hb => h rest (hb ▸ hahead)
    dsimp only
    rw [if_neg fun hall => hb hall.1]
    exact neg_neg_of_pos two_pos

/-- The decoder on bytes obeys the laws. -/
theorem bitsDecoder_lawful : LawfulFloatDecoder bitsNanocbor bitsDecoder Stands where
  toLawfulDecoder := byteDecoder_lawful.toLawfulDecoder
  getFloat p left x rest hp hleft := by
    have hbits : ofBigEndian (bigEndian 4 x.toNat)=x.toNat := ofBigEndian_bigEndian x.toNat_lt
    rw [hp]
    simp only [bitsDecoder,bitsNanocbor,readBits,List.cons_append]
    rw [if_pos ⟨trivial,hleft,by simp⟩,List.take_left' (length_bigEndian _ _),
      List.drop_left' (length_bigEndian _ _),hbits,UInt32.ofNat_toNat]
    exact ⟨le_refl _,rfl,rfl⟩
  getBool p left b rest hp hleft := by
    rw [hp]
    cases b with
    | false =>
      have hread : readArgument 7 ⟨[0xF4]++rest,left⟩=some (20,rest) := by
        rw [readArgument,if_neg hleft]
        rfl
      simp only [bitsDecoder,byteDecoder,bitsNanocbor,Bool.false_eq_true,if_false,hread]
      exact ⟨le_refl _,rfl,rfl⟩
    | true =>
      have hread : readArgument 7 ⟨[0xF5]++rest,left⟩=some (21,rest) := by
        rw [readArgument,if_neg hleft]
        rfl
      simp only [bitsDecoder,byteDecoder,bitsNanocbor,if_true,hread]
      exact ⟨le_refl _,rfl,rfl⟩
  array_not_float p h := by
    refine readBits_neg fun rest hahead => ?_
    have hnone : readArgument 4 p=none := by
      cases p with
      | mk ahead left => rw [←readArgument_float rest left,←hahead]
    have henter : bitsDecoder.enterArray p=(-2,p) := by
      change readContainer 4 1 p=_
      rw [readContainer,hnone]
    rw [henter] at h
    exact absurd (show (0 : ℤ)≤ -2 from h) (by decide)

/-- A model of which all numbers are the bits of one half. -/
def halves : HmmT UInt32 := ⟨fun _ => 0x3F000000,fun _ _ => 0x3F000000,fun _ _ => 0x3F000000⟩

/-- It is not read back from its bytes. -/
theorem roundTrips_never_halves :
    ¬RoundTrips Stands (hmmSerialise bitsNanocbor halves)
      (fun dec => hmmDeserialise bitsDecoder dec halves) halves :=
  (roundTrips_never standardNanocbor_heads.toStandardHeads bitsDecoder_lawful).1 halves halves

/-- After the heads of two arrays the first number is looked for where the
second array is. -/
theorem not_roundTrips_of_halves :
    (hmmDeserialise bitsDecoder (bitsDecoder.init (hmmBytes bitsNanocbor halves)) halves).map
      Prod.fst=.error (-2) ∧
    ¬RoundTrips Stands (hmmSerialise bitsNanocbor halves)
      (fun dec => hmmDeserialise bitsDecoder dec halves) halves := by
  have hcode : (hmmDeserialise bitsDecoder (bitsDecoder.init (hmmBytes bitsNanocbor halves))
      halves).map Prod.fst=.error (-2) := by decide
  refine ⟨hcode,fun h => ?_⟩
  have hok : hmmSerialise bitsNanocbor halves (nanocborEncoderInit 78)=
      .ok ⟨78,78,hmmBytes bitsNanocbor halves⟩ := by rfl
  obtain ⟨dec,hdec,_⟩ := h 78 _ hok (bitsDecoder.init (hmmBytes bitsNanocbor halves)) none []
    (by simp) (by rw [List.append_nil]; rfl)
  dsimp only at hdec
  rw [hdec] at hcode
  cases hcode

end Bytes

end TrustAlloc.HmmCodec
