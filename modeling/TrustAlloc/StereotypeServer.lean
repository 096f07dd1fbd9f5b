import TrustAlloc.CertificateCodec
import TrustAlloc.Stereotypes
import TrustAlloc.TrustRecords

/-!
# The server of stereotypes

`stereotype_server.py` answers what is to be expected of edges with certain
tags, in the records of the trust model that it is asked about. A node that
has requested the tags, and is built with that model, reads the record from
the answer as from one that another node has written, and the stereotype
becomes known.
-/

namespace TrustAlloc.StereotypeServer

open Cbor CborCodec CborRecords CertificateCodec CertificateDecoding Certificates Decoding
open DistributionCodec HmmCodec Keystore Pools ReputationModel Runs Stereotypes TrustRecords

variable {n : ℕ} {D F ET CT : Type}

section Server

/-- `DeviceClass`. -/
inductive DeviceClass where
  /-- `RASPBERRY_PI`. -/
  | raspberryPi
  /-- `PHONE`. -/
  | phone
  /-- `LAPTOP`. -/
  | laptop
  /-- `DESKTOP`. -/
  | desktop
  /-- `SERVER`. -/
  | server
  /-- `IOT_LOW`. -/
  | iotLow
  /-- `IOT_MEDIUM`. -/
  | iotMedium
  /-- `IOT_HIGH`. -/
  | iotHigh
  deriving DecidableEq

/-- `DeviceClass.encode`. -/
def DeviceClass.encode : DeviceClass → UInt8
  | .raspberryPi => 1
  | .phone => 2
  | .laptop => 3
  | .desktop => 4
  | .server => 5
  | .iotLow => 6
  | .iotMedium => 7
  | .iotHigh => 8

/-- `DeviceClass.is_iot`. -/
def DeviceClass.isIot (c : DeviceClass) : Bool :=
  decide (c=.iotLow ∨ c=.iotMedium ∨ c=.iotHigh)

/-- `DeviceClass.__str__`. -/
def DeviceClass.str : DeviceClass → String
  | .raspberryPi => "RASPBERRY_PI"
  | .phone => "PHONE"
  | .laptop => "LAPTOP"
  | .desktop => "DESKTOP"
  | .server => "SERVER"
  | .iotLow => "IOT_LOW"
  | .iotMedium => "IOT_MEDIUM"
  | .iotHigh => "IOT_HIGH"

/-- `TrustModel`. -/
inductive TrustModel where
  /-- `No`. -/
  | no
  /-- `Basic`. -/
  | basic
  /-- `Continuous`. -/
  | continuous
  /-- `ChallengeResponse`. -/
  | challengeResponse
  /-- `Throughput`. -/
  | throughput
  deriving DecidableEq

/-- `TrustModel.encode`. -/
def TrustModel.encode : TrustModel → UInt32
  | .no => 0
  | .basic => 1
  | .continuous => 2
  | .challengeResponse => 3
  | .throughput => 8

/-- `StereotypeRequest`, with the only one of its tags. -/
structure StereotypeRequest where
  /-- The trust model of the node. -/
  model : TrustModel
  /-- The device class of the edges. -/
  deviceClass : DeviceClass

/-- The errors that are raised on a request. -/
inductive RenderError where
  /-- `UnsupportedContentFormat`. -/
  | unsupportedContentFormat
  /-- `BadRequest` with a text. -/
  | badRequest (text : String)
  /-- `NotImplemented`. -/
  | notImplemented
  deriving DecidableEq

/-- A list of two numbers. -/
def pairItem (a b : ℕ) : Item := .array [.uint a,.uint b]

/-- `_no_trust_model`. -/
def noTrustModel (_payload : StereotypeRequest) : Except RenderError Item := .ok .null

/-- `_basic_trust_model`. -/
def basicTrustModel (payload : StereotypeRequest) : Except RenderError Item :=
  if payload.deviceClass.isIot then .ok (.array [pairItem 0 1,pairItem 0 1])
  else do
    let taskSubmission := pairItem 20 1
    let taskResult ← match payload.deviceClass with
      | .raspberryPi => .ok (pairItem 8 1)
      | .phone => .ok (pairItem 12 1)
      | .laptop => .ok (pairItem 16 1)
      | .server => .ok (pairItem 20 1)
      | c => .error (.badRequest ("Unknown device class "++c.str))
    return .array [taskSubmission,taskResult]

/-- `_continuous_trust_model`. -/
def continuousTrustModel (_payload : StereotypeRequest) : Except RenderError Item :=
  .error .notImplemented

/-- `_challenge_response_trust_model`. -/
def challengeResponseTrustModel (_payload : StereotypeRequest) : Except RenderError Item :=
  .ok (.array [.uint 0,.bool false])

/-- `_throughput_trust_model`. -/
def throughputTrustModel (payload : StereotypeRequest) : Except RenderError Item :=
  basicTrustModel payload

/-- `StereotypeResponse.encode`. -/
def responseItem (payload : StereotypeRequest) (result : Item) : Item :=
  .array [.uint payload.model.encode.toNat,.array [.uint payload.deviceClass.encode.toNat],result]

/-- The record that a request is answered with. -/
def resultItem (payload : StereotypeRequest) : Except RenderError Item :=
  match payload.model with
  | .no => noTrustModel payload
  | .basic => basicTrustModel payload
  | .continuous => continuousTrustModel payload
  | .challengeResponse => challengeResponseTrustModel payload
  | .throughput => throughputTrustModel payload

/-- `render_get`, for the content format of a request and what it decodes to. -/
def renderGet (dumps : Item → List UInt8) (contentFormat : Option ℕ)
    (payload : StereotypeRequest) : Except RenderError (List UInt8) := do
  if contentFormat≠some applicationCbor then throw .unsupportedContentFormat
  let result ← resultItem payload
  return dumps (responseItem payload result)

end Server

/-- The tags of a request. -/
def StereotypeRequest.tags (payload : StereotypeRequest) : StereotypeTags :=
  ⟨payload.deviceClass.encode⟩

section Answers

/-- The server knows no other device classes than nodes do. -/
theorem validClass_tags (payload : StereotypeRequest) : ValidClass payload.tags := by
  have hall : ∀ c : DeviceClass, ValidClass ⟨c.encode⟩ := fun c => by cases c <;> decide
  exact hall payload.deviceClass

/-- Counts are sent as those of the model with reputation. -/
theorem basicTrustModel_eq_ok {payload : StereotypeRequest} {result : Item}
    (h : basicTrustModel payload=.ok result) : ∃ tm, result=edgeTmItem tm := by
  obtain ⟨model,deviceClass⟩ := payload
  cases deviceClass <;> cases h
  · exact ⟨⟨⟨20,1⟩,⟨8,1⟩⟩,rfl⟩
  · exact ⟨⟨⟨20,1⟩,⟨12,1⟩⟩,rfl⟩
  · exact ⟨⟨⟨20,1⟩,⟨16,1⟩⟩,rfl⟩
  · exact ⟨⟨⟨20,1⟩,⟨20,1⟩⟩,rfl⟩
  · exact ⟨⟨⟨0,1⟩,⟨0,1⟩⟩,rfl⟩
  · exact ⟨⟨⟨0,1⟩,⟨0,1⟩⟩,rfl⟩
  · exact ⟨⟨⟨0,1⟩,⟨0,1⟩⟩,rfl⟩

/-- Every answer has an encoding. -/
theorem fits_responseItem {payload : StereotypeRequest} {result : Item}
    (h : resultItem payload=.ok result) : Fits (responseItem payload result) := by
  have hmodel := payload.model.encode.toNat_lt
  have hclass := payload.deviceClass.encode.toNat_lt
  have hresult : Fits result := by
    obtain ⟨model,deviceClass⟩ := payload
    cases model with
    | no =>
      cases h
      exact .null
    | basic =>
      obtain ⟨tm,rfl⟩ := basicTrustModel_eq_ok h
      exact edgeTmItem_fits tm
    | continuous => cases h
    | challengeResponse =>
      cases h
      exact .row (show 2 < 2^64 by decide) ⟨.uint (by decide),.bool false⟩
    | throughput =>
      obtain ⟨tm,rfl⟩ := basicTrustModel_eq_ok h
      exact edgeTmItem_fits tm
  exact .row (show 3 < 2^64 by decide)
    ⟨.uint (by omega),.row (show 1 < 2^64 by decide) (.uint (by omega)),hresult⟩

/-- A request is answered with a record if it is not about the continuous
model, and if counts are not asked for of a desktop. -/
theorem resultItem_isOk_iff (payload : StereotypeRequest) :
    (resultItem payload).isOk=true ↔ payload.model≠.continuous ∧
      (payload.deviceClass=.desktop → payload.model≠.basic ∧ payload.model≠.throughput) := by
  obtain ⟨model,deviceClass⟩ := payload
  cases model <;> cases deviceClass <;> decide

/-- An answer carries the record for the request. -/
theorem renderGet_eq_ok_iff {dumps : Item → List UInt8} {contentFormat : Option ℕ}
    {payload : StereotypeRequest} {bytes : List UInt8} :
    renderGet dumps contentFormat payload=.ok bytes ↔ contentFormat=some applicationCbor ∧
      ∃ result, resultItem payload=.ok result ∧ bytes=dumps (responseItem payload result) := by
  by_cases hformat : contentFormat=some applicationCbor
  · cases hresult : resultItem payload with
    | error e => simp [renderGet,hformat,hresult]
    | ok result => simp [renderGet,hformat,hresult,eq_comm]
  · have hthrow : renderGet dumps contentFormat payload=.error .unsupportedContentFormat := by
      rw [renderGet,if_pos hformat]
      rfl
    simp [hthrow,hformat]

example : renderGet encode (some applicationCbor) ⟨.challengeResponse,.phone⟩=
    .ok [0x83,0x03,0x81,0x02,0x82,0x00,0xF4] := by rfl

end Answers

section Learning

variable {At : D → Option ℕ → List UInt8 → Prop} {Number : List UInt8 → Prop}
  {env : StereotypeEnv n D ET} {payload : StereotypeRequest} {result : Item} {stack tm : ET}
  {serialise : Encoder → Except ℤ Encoder} {bytes : List UInt8}

/-- A response is read, with the record that is sent in it. -/
theorem deserialiseResponse_served (payload : StereotypeRequest)
    (hcbor : LawfulDecoder env.cbor At)
    (hsent : SentAsItem At Number serialise
      (fun dec => env.deserialiseTrustEdgeResource dec stack) tm (encode result)) :
    ∃ dec, deserialiseResponse env (env.cbor.init (encode (responseItem payload result))) stack=
      .ok (dec,payload.model.encode,⟨payload.tags,tm⟩) := by
  have hbytes : encode (responseItem payload result)=
      arrayHead 3++(uintHead payload.model.encode.toNat++(arrayHead 1++
        (uintHead payload.tags.deviceClass.toNat++(encode result++[])))) := by
    simp [responseItem,StereotypeRequest.tags,encode,encodeItems]
  have hinit := hcbor.init (encode (responseItem payload result))
  generalize env.cbor.init (encode (responseItem payload result))=dec at hinit ⊢
  rw [hbytes] at hinit
  obtain ⟨arr,henter,h0⟩ := (hcbor.enterArray dec none 3 _ hinit (by decide) (by decide)).check
  obtain ⟨arr₁,hmodel,h1⟩ := (hcbor.getUint32 arr (some 3) _ _ h0 (by decide)
    payload.model.encode.toNat_lt).check
  obtain ⟨arr₂,htags,h2⟩ := decodes_tags hcbor (validClass_tags payload) h1 (by decide)
  obtain ⟨arr₃,htm,h3⟩ := hsent.reads arr₂ (some 1) [] (by decide) h2
  have hend : env.cbor.atEnd arr₃=true := hcbor.atEnd_container arr₃ 0 [] h3
  refine ⟨env.cbor.leaveContainer dec arr₃,?_⟩
  unfold deserialiseResponse
  simp only [henter,hmodel,htags,htm,ok_bind,hend,UInt32.ofNat_toNat,Bool.true_eq_false,if_false]
  rfl

/-- A requested stereotype is known, with the trust values that were sent. -/
structure Learned (s : StereotypeStore n ET) (i : Fin n) (tags : StereotypeTags) (tm : ET) :
    Prop where
  /-- The entry is on the list of known ones. -/
  known : i∈s.stereotypes
  /-- What it holds. -/
  entry : s.entry i=⟨tags,tm⟩

/-- An entry that is requested is found by its tags. -/
theorem findInList_requesting {s : StereotypeStore n ET} (h : StoreInvariant s) {i : Fin n}
    (hi : i∈s.stereotypesRequesting) :
    edgeStereotypeFindInList s (s.entry i).tags s.stereotypesRequesting=some i := by
  cases hfind : edgeStereotypeFindInList s (s.entry i).tags s.stereotypesRequesting with
  | none => exact absurd rfl (edgeStereotypeFindInList_none_iff.mp hfind i hi)
  | some j =>
    obtain ⟨hj,htags⟩ := edgeStereotypeFindInList_some hfind
    rw [h.distinct j (List.mem_append_right _ hj) i (List.mem_append_right _ hi) htags]

/-- The response to a request makes the stereotype known. -/
theorem learned_served {s : StereotypeStore n ET} (h : StoreInvariant s)
    (hcbor : LawfulDecoder env.cbor At) (htag : env.trustModelTag=payload.model.encode)
    (hsent : SentAsItem At Number serialise
      (fun dec => env.deserialiseTrustEdgeResource dec stack) tm (encode result)) {i : Fin n}
    (hi : i∈s.stereotypesRequesting) (htags : (s.entry i).tags=payload.tags) :
    Learned (processSterotypeResponse env s
      ⟨some applicationCbor,encode (responseItem payload result),stack⟩) i payload.tags tm := by
  obtain ⟨dec,hread⟩ := deserialiseResponse_served payload hcbor hsent
  have haccepted : acceptedStereotype env
      ⟨some applicationCbor,encode (responseItem payload result),stack⟩=
        some ⟨payload.tags,tm⟩ := by
    simp [acceptedStereotype,hread,htag]
  have hfind := findInList_requesting h hi
  rw [htags] at hfind
  obtain ⟨_,hknown,hentry,_⟩ := h.migrate_known hi ⟨payload.tags,tm⟩
  unfold processSterotypeResponse
  rw [haccepted]
  dsimp only
  rw [hfind]
  exact ⟨by rw [hknown]; exact List.mem_cons_self,hentry⟩

/-- Whatever a node has requested in a run and the server answers with becomes
known to the node. The trust values are related to what is sent, and to what was
there before. -/
def Learns (env : StereotypeEnv n D ET) (dumps : Item → List UInt8) (model : TrustModel)
    (restored : Item → ET → ET → Prop) : Prop :=
  ∀ {m : ℕ} (et : ET) (k : Store m) (ops : List (Op m ET)) (payload : StereotypeRequest)
    (bytes : List UInt8) (stack : ET) (i : Fin n) (s : StereotypeStore n ET),
    s=(ops.foldl (step env) ⟨stereotypesInit n et,k⟩).store → payload.model=model →
    renderGet dumps (some applicationCbor) payload=.ok bytes → i∈s.stereotypesRequesting →
    (s.entry i).tags=payload.tags → ∃ result tm, resultItem payload=.ok result ∧
      restored result stack tm ∧ Learned (processSterotypeResponse env s
        ⟨some applicationCbor,bytes,stack⟩) i payload.tags tm

/-- A node learns if the records that are sent to it are those of its model. -/
theorem learns_of_sent (Number : List UInt8 → Prop) {model : TrustModel}
    {restored : Item → ET → ET → Prop} {dumps : Item → List UInt8} (hdumps : Canonical dumps)
    (hcbor : LawfulDecoder env.cbor At) (htag : env.trustModelTag=model.encode)
    (hsent : ∀ payload result, payload.model=model → resultItem payload=.ok result → ∀ stack,
      ∃ tm serialise, restored result stack tm ∧ SentAsItem At Number serialise
        (fun dec => env.deserialiseTrustEdgeResource dec stack) tm (encode result)) :
    Learns env dumps model restored := by
  intro m et k ops payload bytes stack i s hs hmodel hserved hi htags
  obtain ⟨_,result,hresult,rfl⟩ := renderGet_eq_ok_iff.mp hserved
  have hadmitted : Along (step env) (fun _ _ => True) ⟨stereotypesInit n et,k⟩ ops :=
    along_of_forall fun _ _ => trivial
  have halways : Always (step env) (fun s => StoreInvariant s.store) ⟨stereotypesInit n et,k⟩ ops :=
    always_of_step (fun _ op hI _ => hI.step env op) (storeInvariant_init n et) hadmitted
  have h : StoreInvariant s := hs ▸ halways.last
  rw [hdumps _ (fits_responseItem hresult)]
  obtain ⟨tm,serialise,hrestored,hitem⟩ := hsent payload result hmodel hresult stack
  exact ⟨result,tm,hresult,hrestored,
    learned_served h hcbor (by rw [htag,hmodel]) hitem hi htags⟩

end Learning

section Models

/-- What the stereotypes of a node are built against with a trust model. -/
def stereotypeEnv (allocator : Allocator n) (cbor : PublishDecoder D) (m : RecordCodec D ET CT) :
    StereotypeEnv n D ET :=
  ⟨allocator,cbor,m.trustModelTag,m.deserialiseTrustEdgeResource⟩

variable {N : RecordNanocbor F} {cbor : FloatDecoder D F} {At : D → Option ℕ → List UInt8 → Prop}

/-- **Stereotypes from the server.** In every state that a run of its
stereotypes reaches, a node without a trust model, with counts, with challenges
or with throughput learns what it has requested and the server answers. The time
of the last ping is not sent, and stays what it was in the memory that the
response is read into. -/
theorem learns_models (hN : StandardRecordHeads N) (hcbor : ReadsRecords N cbor At)
    {dumps : Item → List UInt8} (hdumps : Canonical dumps) (allocator : Allocator n) :
    Learns (stereotypeEnv allocator cbor.toPublishDecoder (NoneModel.codec N cbor)) dumps .no
        (fun _ _ _ => True) ∧
      Learns (stereotypeEnv allocator cbor.toPublishDecoder
        (reputationCodec N.toNanocbor cbor.toPublishDecoder)) dumps .basic
        (fun result _ tm => result=edgeTmItem tm) ∧
      Learns (stereotypeEnv allocator cbor.toPublishDecoder (ChallengeResponseModel.codec N cbor))
        dumps .challengeResponse (fun _ _ tm => tm=⟨0,false⟩) ∧
      Learns (stereotypeEnv allocator cbor.toPublishDecoder (ThroughputModel.codec N cbor))
        dumps .throughput (fun result stack tm =>
          result=edgeTmItem ⟨tm.taskSubmission,tm.taskResult⟩ ∧
            tm.lastPingResponse=stack.lastPingResponse) := by
  have hlaws := hcbor.toLawfulDecoder
  refine ⟨?_,?_,?_,?_⟩
  · refine learns_of_sent (IsNumber N.toFloatNanocbor) hdumps hlaws rfl ?_
    rintro ⟨_,_⟩ result rfl hresult stack
    cases hresult
    exact ⟨stack,_,trivial,sent_null hN hcbor stack⟩
  · refine learns_of_sent (IsNumber N.toFloatNanocbor) hdumps hlaws rfl ?_
    rintro ⟨_,_⟩ result rfl hresult stack
    obtain ⟨tm,rfl⟩ := basicTrustModel_eq_ok hresult
    exact ⟨tm,_,rfl,sent_edgeTm _ hN.toStandardHeads hlaws tm⟩
  · refine learns_of_sent (IsNumber N.toFloatNanocbor) hdumps hlaws rfl ?_
    rintro ⟨_,_⟩ result rfl hresult stack
    cases hresult
    exact ⟨⟨0,false⟩,_,rfl,sent_challengedEdge hN hcbor ⟨0,false⟩ stack⟩
  · refine learns_of_sent (IsNumber N.toFloatNanocbor) hdumps hlaws rfl ?_
    rintro ⟨_,_⟩ result rfl hresult stack
    obtain ⟨tm,rfl⟩ := basicTrustModel_eq_ok hresult
    exact ⟨⟨tm.taskSubmission,tm.taskResult,stack.lastPingResponse⟩,_,⟨rfl,rfl⟩,
      sent_throughputEdge hN hcbor ⟨tm.taskSubmission,tm.taskResult,0⟩ stack⟩

/-- With two entries, and on bytes. -/
theorem learns_models_bits :
    Learns (stereotypeEnv (firstFit 2) bitsDecoder.toPublishDecoder
        (NoneModel.codec bitsRecordNanocbor bitsDecoder)) encode .no (fun _ _ _ => True) ∧
      Learns (stereotypeEnv (firstFit 2) bitsDecoder.toPublishDecoder
        (reputationCodec bitsRecordNanocbor.toNanocbor bitsDecoder.toPublishDecoder)) encode .basic
        (fun result _ tm => result=edgeTmItem tm) ∧
      Learns (stereotypeEnv (firstFit 2) bitsDecoder.toPublishDecoder
        (ChallengeResponseModel.codec bitsRecordNanocbor bitsDecoder))
        encode .challengeResponse (fun _ _ tm => tm=⟨0,false⟩) ∧
      Learns (stereotypeEnv (firstFit 2) bitsDecoder.toPublishDecoder
        (ThroughputModel.codec bitsRecordNanocbor bitsDecoder))
        encode .throughput (fun result stack tm =>
          result=edgeTmItem ⟨tm.taskSubmission,tm.taskResult⟩ ∧
            tm.lastPingResponse=stack.lastPingResponse) :=
  learns_models bitsRecordNanocbor_heads bitsDecoder_readsRecords canonical_encode (firstFit 2)

end Models

end TrustAlloc.StereotypeServer
