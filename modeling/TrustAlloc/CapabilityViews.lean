import TrustAlloc.EdgeFrames
import TrustAlloc.EdgeNodeRuns
import TrustAlloc.TrustRecords

/-!
# What nodes learn of the applications of an edge

An edge announces itself and reports its applications again and again, and
the network may lose, repeat and reorder what it publishes, or put publishes
about other edges in between. As long as nothing changes on the edge, each
publish says the same of its application, and a node that has heard about each
application once offers exactly those that are there.
-/

namespace TrustAlloc.CapabilityViews

open Cbor CborCodec CapabilityTopics CertificateCodec CertificateDecoding Certificates Decoding
open EdgeFrames EdgeInfo EdgeNode EdgeOffers EdgeStoreRuns Keystore MqttPublish MqttPublishRuns
open MqttTopics Runs TrustRecords

variable {num : ℕ} {b : EdgeBuild num} {D : Type}

section Logs

variable {α : Type}

/-- A log has grown, by entries that have a property. -/
def Grows (P : α → Prop) (log log' : List α) : Prop := ∃ new, log'=log++new ∧ ∀ x∈new, P x

/-- A log that is left alone. -/
theorem Grows.refl {P : α → Prop} (log : List α) : Grows P log log :=
  ⟨[],(List.append_nil log).symm,fun _ hmem => absurd hmem List.not_mem_nil⟩

/-- One entry is added. -/
theorem Grows.push {P : α → Prop} {log : List α} {x : α} (h : P x) : Grows P log (log++[x]) :=
  ⟨[x],rfl,fun _ hmem => List.mem_singleton.mp hmem ▸ h⟩

/-- A log grows on. -/
theorem Grows.trans {P : α → Prop} {log log' log'' : List α} (h : Grows P log log')
    (h' : Grows P log' log'') : Grows P log log'' := by
  obtain ⟨new,rfl,hnew⟩ := h
  obtain ⟨new',rfl,hnew'⟩ := h'
  exact ⟨new++new',List.append_assoc ..,fun x hmem =>
    (List.mem_append.mp hmem).elim (hnew x) (hnew' x)⟩

/-- The entries have what follows from the property. -/
theorem Grows.mono {P Q : α → Prop} {log log' : List α} (h : Grows P log log')
    (hPQ : ∀ x, P x → Q x) : Grows Q log log' := by
  obtain ⟨new,hlog,hnew⟩ := h
  exact ⟨new,hlog,fun x hmem => hPQ x (hnew x hmem)⟩

/-- Whatever was added has the property. -/
theorem Grows.added {P : α → Prop} {log log' : List α} (h : Grows P log log') {x : α}
    (hmem : x∈log'.drop log.length) : P x := by
  obtain ⟨new,rfl,hnew⟩ := h
  rw [List.drop_left] at hmem
  exact hnew x hmem

end Logs

section Views

/-- Which applications are there. -/
abbrev View (num : ℕ) : Type := Fin num → Bool

/-- What a publish of an edge says. -/
inductive Word (num : ℕ) where
  /-- The edge is there. -/
  | announce
  /-- An application is there, or it is not. -/
  | capability (i : Fin num) (available : Bool)
  deriving DecidableEq

/-- A word is heard. -/
def View.hear (v : View num) : Word num → View num
  | .announce => v
  | .capability i available => Function.update v i available

end Views

section Payloads

/-- Truth values and null are in the shortest form, as heads are. -/
structure StandardItems (env : CapabilityEnv) : Prop extends StandardHeads env.toNanocbor where
  /-- Truth values. -/
  fmtBool : ∀ v, env.fmtBool v=encode (.bool v)
  /-- The null value. -/
  fmtNull : env.fmtNull=encode .null

/-- They are read as other items are. -/
structure ReadsItems (cbor : PublishDecoder D) (At : D → Option ℕ → List UInt8 → Prop) : Prop
    extends LawfulDecoder cbor At where
  /-- Truth values. -/
  getBool : ∀ dec left v rest, At dec left (encode (.bool v)++rest) → left≠some 0 →
    Reads At left rest v (cbor.getBool dec)
  /-- The null value. -/
  getNull : ∀ dec left rest, At dec left (encode .null++rest) → left≠some 0 →
    0≤(cbor.getNull dec).1 ∧ At (cbor.getNull dec).2 (left.map (·-1)) rest

variable {env : CapabilityEnv}

/-- What follows the truth value in a report. -/
def reportTail (env : CapabilityEnv) (included : Bool) : List UInt8 :=
  if included=true then certificateEncoding env.ourCert else encode .null

/-- The bytes of a report. -/
def reportBytes (env : CapabilityEnv) (included : Bool) : List UInt8 :=
  arrayHead 2++(encode (.bool included)++reportTail env included)

variable {cbor : PublishDecoder D} {At : D → Option ℕ → List UInt8 → Prop}

/-- An announce is read. -/
theorem decode_announce (hcbor : ReadsItems cbor At) (env : CapabilityEnv)
    (hclass : ValidClass env.ourCert.tags) :
    ∃ dec, certificateDecode cbor (cbor.init (certificateEncoding env.ourCert))=
      .ok (dec,env.ourCert) := by
  have hinit : At (cbor.init (certificateEncoding env.ourCert)) none
      (certificateEncoding env.ourCert++[]) := by
    rw [List.append_nil]
    exact hcbor.init _
  obtain ⟨dec,hdecode,_⟩ := decodes_certificate hcbor.toLawfulDecoder env.ourCert hclass hinit
    (by decide)
  exact ⟨dec,hdecode⟩

/-- A report about an application is read. -/
theorem decode_report (hcbor : ReadsItems cbor At) (hclass : ValidClass env.ourCert.tags)
    (included : Bool) : decodeEmbedded cbor (reportBytes env included)=
      .ok (if included=true then some env.ourCert else none) := by
  obtain ⟨arr,henter,harr⟩ := (hcbor.enterArray _ none 2 _ (hcbor.init (reportBytes env included))
    (by decide) (by decide)).check
  obtain ⟨arr',hbool,harr'⟩ := (hcbor.getBool arr (some 2) included _ harr (by decide)).check
  unfold decodeEmbedded
  rw [henter,ok_bind,hbool,ok_bind]
  dsimp only
  cases included with
  | true =>
    have hcert : At arr' (some 1) (certificateEncoding env.ourCert++[]) := by
      rw [List.append_nil]
      exact harr'
    obtain ⟨dec,hdecode,_⟩ := decodes_certificate hcbor.toLawfulDecoder env.ourCert hclass hcert
      (by decide)
    rw [if_pos rfl,hdecode]
    rfl
  | false =>
    have hnull : At arr' (some 1) (encode .null++[]) := by
      rw [List.append_nil]
      exact harr'
    have hget := (hcbor.getNull arr' (some 1) [] hnull (by decide)).1
    rw [if_neg Bool.false_ne_true,nanocborCheck,if_neg (not_lt.mpr hget)]
    rfl

end Payloads

section Publishing

/-- The handler that a word is meant for. -/
def Word.handler (b : EdgeBuild num) : Word num → Handler
  | .announce => .announce
  | .capability i true => .capabilityAdd (b.applicationNames.get i)
  | .capability i false => .capabilityRemove (b.applicationNames.get i)

/-- The payloads that go with a word. -/
def Word.Carries (b : EdgeBuild num) (data : List UInt8) : Word num → Prop
  | .announce => data=certificateEncoding b.ourCert
  | .capability _ _ => ∃ included, data=reportBytes b.toCapabilityEnv included

/-- A publish of the edge says a word. -/
structure Says (b : EdgeBuild num) (topic data : List UInt8) (word : Word num) : Prop where
  /-- The topic. -/
  topic : topic=topicPrefix (identityText b.linkaddrNodeAddr)++actionText (word.handler b)
  /-- The payload. -/
  data : word.Carries b data

/-- What is there on the edge. -/
def viewOf (s : EdgeNode.State num) : View num := s.applicationsAvailable.get

/-- What the laws of the parts say of an edge: names are plain, its device
class is one of those there are, and items are in the shortest form. -/
structure Sound (b : EdgeBuild num) : Prop where
  /-- Names fit their places and have no separators in them. -/
  plain : ∀ i, PlainName (b.applicationNames.get i)
  /-- The device class in the certificate. -/
  device : ValidClass b.ourCert.tags
  /-- What `nanocbor` emits. -/
  items : StandardItems b.toCapabilityEnv

variable {s : EdgeNode.State num}

/-- A step that leaves what is there as it is, with the resource rich node
started. -/
structure Quiet (b : EdgeBuild num) (s : EdgeNode.State num) (op : EdgeNode.Op) : Prop where
  /-- The resource rich node has started. -/
  started : s.resourceRichEdgeStarted=true
  /-- It has not stopped. -/
  remains : (EdgeNode.step b s op).resourceRichEdgeStarted=true
  /-- No application has started or stopped. -/
  same : viewOf (EdgeNode.step b s op)=viewOf s

end Publishing

end TrustAlloc.CapabilityViews
