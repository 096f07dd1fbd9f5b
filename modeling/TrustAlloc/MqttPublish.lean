import TrustAlloc.Addresses
import TrustAlloc.CertificateDecoding
import TrustAlloc.KeystoreSubjects

/-!
# Publishes about edges

`mqtt_publish_handler` of `trust-common.c` with the handlers it dispatches to.
A topic is read where it lies in memory, so the bytes behind it count as well.
Edges are added, activated, deactivated and removed in the edge store, their
certificates are offered to the keystore, and the process that is named after
a capability is told about it at once. What that process does, and the CBOR
library, are parameters; so are the old contents of the local addresses.
-/

namespace TrustAlloc.MqttPublish

open Certificates Decoding CertificateDecoding EdgeInfo Addresses Keystore Pools

/-- The event that is posted to the process of a capability. -/
inductive CapabilityEvent where
  /-- `pe_edge_capability_add`. -/
  | add
  /-- `pe_edge_capability_remove`. -/
  | remove
  deriving DecidableEq

/-- What the handlers are built against, for `ne` edges with `nc` capabilities
each, `n` keys and applications with data of type `A`. -/
structure PublishEnv (ne nc n : ℕ) (ET CT D A : Type) where
  /-- Pools and trust values of the edge store. -/
  edges : EdgeEnv ne nc ET CT
  /-- What the keystore is built against. -/
  keystore : Keystore.Env n
  /-- Address conversions. -/
  addresses : AddressEnv
  /-- The CBOR decoder. -/
  cbor : PublishDecoder D
  /-- `current_eui64`. -/
  currentEui64 : Eui64
  /-- Whether `NO_ACTIVE_REMOVAL_ON_UNANNOUNCE` is defined. -/
  noActiveRemovalOnUnannounce : Bool
  /-- Whether `AGGRESSIVE_REMOVAL_ON_UNANNOUNCE` is defined. -/
  aggressiveRemovalOnUnannounce : Bool
  /-- `post_to_capability_process` for a capability name, an event and an
  edge: what the process of that name does with the event, given the clock
  and the edges at that moment. -/
  postToCapabilityProcess : List UInt8 → CapabilityEvent → Fin ne → ℕ →
    EdgeStore ne nc ET CT → A → A

/-- The same node with other processes. -/
def PublishEnv.withProcesses {ne nc n : ℕ} {ET CT D A B : Type} (env : PublishEnv ne nc n ET CT D A)
    (post : List UInt8 → CapabilityEvent → Fin ne → ℕ → EdgeStore ne nc ET CT → B → B) :
    PublishEnv ne nc n ET CT D B where
  edges := env.edges
  keystore := env.keystore
  addresses := env.addresses
  cbor := env.cbor
  currentEui64 := env.currentEui64
  noActiveRemovalOnUnannounce := env.noActiveRemovalOnUnannounce
  aggressiveRemovalOnUnannounce := env.aggressiveRemovalOnUnannounce
  postToCapabilityProcess := post

/-- A publish that is handled. -/
structure Publish where
  /-- The bytes from `topic` to `topic_end`. -/
  topic : List UInt8
  /-- The memory behind them, up to a point from which on it reads as zero. -/
  behind : List UInt8
  /-- The payload. -/
  chunk : List UInt8
  /-- Addresses of the node, for `is_our_addr`. -/
  ourAddrs : List IpAddr
  /-- Old contents of `ipaddr` in `process_certificate`. -/
  certIpaddr : IpAddr
  /-- Old contents of `ipaddr` in `edge_info_find_eui64`. -/
  findIpaddr : IpAddr
  /-- Old contents of `ipaddr` in `mqtt_publish_capability_add_handler`. -/
  addIpaddr : IpAddr
  /-- Reading of the clock. -/
  now : ℕ

/-- The data that publishes change. -/
structure State (ne nc n : ℕ) (ET CT A : Type) where
  /-- The data of `edge-info.c`. -/
  edges : EdgeStore ne nc ET CT
  /-- The data of `keystore.c`. -/
  keystore : Store n
  /-- Tags that `stereotypes_request` has been called with, oldest first. -/
  stereotypesRequested : List StereotypeTags
  /-- The data of the applications. -/
  apps : A

variable {ne nc n : ℕ} {ET CT D A : Type}

section Edges

/-- `edge->flags |= EDGE_RESOURCE_ACTIVE`. -/
def activateEdge (s : EdgeStore ne nc ET CT) (e : Fin ne) : EdgeStore ne nc ET CT :=
  s.setEdge e {s.edge e with flags := (s.edge e).flags|||edgeResourceActive}

/-- `edge->flags &= ~EDGE_RESOURCE_ACTIVE`. -/
def deactivateEdge (s : EdgeStore ne nc ET CT) (e : Fin ne) : EdgeStore ne nc ET CT :=
  s.setEdge e {s.edge e with flags := (s.edge e).flags&&&~~~edgeResourceActive}

/-- `capability->flags |= EDGE_CAPABILITY_ACTIVE`. -/
def activateCap (s : EdgeStore ne nc ET CT) (c : Fin (ne*nc)) : EdgeStore ne nc ET CT :=
  s.setCap c {s.cap c with flags := (s.cap c).flags|||edgeCapabilityActive}

/-- `capability->flags &= ~EDGE_CAPABILITY_ACTIVE`. -/
def deactivateCap (s : EdgeStore ne nc ET CT) (c : Fin (ne*nc)) : EdgeStore ne nc ET CT :=
  s.setCap c {s.cap c with flags := (s.cap c).flags&&&~~~edgeCapabilityActive}

/-- `edge_info_find_eui64` with a local address of the given old contents. -/
def edgeInfoFindEui64 (addresses : AddressEnv) (s : EdgeStore ne nc ET CT) (eui64 : Eui64)
    (ipaddr : IpAddr) : Option (Fin ne) :=
  edgeInfoFindAddr s (eui64ToIpaddr addresses eui64 ipaddr)

end Edges

section Handlers

variable (env : PublishEnv ne nc n ET CT D A) (p : Publish)

/-- `post_to_capability_process` for a capability of an edge. -/
def State.post (s : State ne nc n ET CT A) (c : Fin (ne*nc)) (ev : CapabilityEvent)
    (e : Fin ne) : State ne nc n ET CT A :=
  {s with apps := env.postToCapabilityProcess (s.edges.cap c).name ev e p.now s.edges s.apps}

/-- `process_certificate`. If the keystore has no room the key is requested,
which changes nothing here. -/
def processCertificate (s : State ne nc n ET CT A) (eui64 : Eui64) (cert : Certificate) :
    State ne nc n ET CT A×ℤ :=
  if eui64≠cert.subject then (s,-3)
  else if cert.subject=env.currentEui64 then (s,-1)
  else match edgeInfoAdd env.edges s.edges (eui64ToIpaddr env.addresses cert.subject p.certIpaddr)
  with
  | (edges,none) => ({s with edges := edges},-2)
  | (edges,some e) => ({s with
      edges := activateEdge edges e
      stereotypesRequested := s.stereotypesRequested++[cert.tags]
      keystore := (keystoreAdd env.keystore s.keystore cert).1},0)

/-- `mqtt_publish_announce_handler`. -/
def mqttPublishAnnounceHandler (s : State ne nc n ET CT A) (eui64 : Eui64) :
    State ne nc n ET CT A×ℤ :=
  match certificateDecode env.cbor (env.cbor.init p.chunk) with
  | .error err => (s,err)
  | .ok (_,cert) => processCertificate env p s eui64 cert

/-- The payload of an unannounce: an array of one address. -/
def decodeUnannounce (cbor : PublishDecoder D) (chunk : List UInt8) : Except ℤ IpAddr := do
  let arr ← nanocborCheck (cbor.enterArray (cbor.init chunk))
  let (arr,ipAddr) ← nanocborGetIpaddr cbor arr
  if cbor.atEnd arr=false then throw (-1)
  return ipAddr

/-- The loop of an unannounce over the capabilities of its edge: each one
becomes inactive and its process is told. -/
def withdrawCapabilities (e : Fin ne) (caps : List (Fin (ne*nc))) (s : State ne nc n ET CT A) :
    State ne nc n ET CT A :=
  caps.foldl (fun s c => {s with edges := deactivateCap s.edges c}.post env p c .remove e) s

/-- What an unannounce removes, by the build. -/
def removeOnUnannounce (e : Fin ne) (edges : EdgeStore ne nc ET CT) : EdgeStore ne nc ET CT :=
  if env.noActiveRemovalOnUnannounce=true then edges
  else if env.aggressiveRemovalOnUnannounce=true then
    (edgeInfoRemove (edgeInfoCapabilityClear edges e) e).1
  else edgeInfoCapabilityClear edges e

/-- `mqtt_publish_unannounce_handler`. -/
def mqttPublishUnannounceHandler (s : State ne nc n ET CT A) (eui64 : Eui64) :
    State ne nc n ET CT A×ℤ :=
  match decodeUnannounce env.cbor p.chunk with
  | .error err => (s,err)
  | .ok ipAddr =>
    if ipAddr∈p.ourAddrs then (s,-1)
    else match edgeInfoFindEui64 env.addresses s.edges eui64 p.findIpaddr with
      | none => (s,0)
      | some e =>
        let s := withdrawCapabilities env p e (s.edges.edge e).capabilities
          {s with edges := deactivateEdge s.edges e}
        ({s with edges := removeOnUnannounce env e s.edges},0)

/-- The payload of the two capability publishes: whether a certificate is
included, and then the certificate or null. -/
def decodeEmbedded (cbor : PublishDecoder D) (chunk : List UInt8) :
    Except ℤ (Option Certificate) := do
  let arr ← nanocborCheck (cbor.enterArray (cbor.init chunk))
  let (arr,certificateIncluded) ← nanocborCheck (cbor.getBool arr)
  if certificateIncluded=true then
    let (_,cert) ← certificateDecode cbor arr
    return some cert
  else
    let _ ← nanocborCheck (cbor.getNull arr)
    return none

/-- Handle an embedded certificate; the result is not looked at. -/
def processEmbedded (s : State ne nc n ET CT A) (eui64 : Eui64) :
    Option Certificate → State ne nc n ET CT A
  | some cert => (processCertificate env p s eui64 cert).1
  | none => s

/-- The edge that a capability is added to: a known one as it is, or a new
one that is active. -/
def edgeForCapability (s : State ne nc n ET CT A) (eui64 : Eui64) :
    State ne nc n ET CT A×Option (Fin ne) :=
  match edgeInfoFindEui64 env.addresses s.edges eui64 p.findIpaddr with
  | some e => (s,some e)
  | none =>
    match edgeInfoAdd env.edges s.edges (eui64ToIpaddr env.addresses eui64 p.addIpaddr) with
    | (edges,none) => ({s with edges := edges},none)
    | (edges,some e) => ({s with edges := activateEdge edges e},some e)

/-- A capability becomes active and its process is told. -/
def offerCapability (s : State ne nc n ET CT A) (e : Fin ne) (c : Fin (ne*nc)) :
    State ne nc n ET CT A :=
  {s with edges := activateCap s.edges c}.post env p c .add e

/-- The end of `mqtt_publish_capability_add_handler`, on the edge. -/
def addCapability (s : State ne nc n ET CT A) (e : Fin ne) (capabilityName : List UInt8) :
    State ne nc n ET CT A×ℤ :=
  match edgeInfoCapabilityFind s.edges e capabilityName with
  | some c =>
    if edgeCapabilityIsActive s.edges c=true then (s,-1)
    else (offerCapability env p s e c,0)
  | none =>
    match edgeInfoCapabilityAdd env.edges s.edges e capabilityName with
    | (edges,none) => ({s with edges := edges},-1)
    | (edges,some c) => (offerCapability env p {s with edges := edges} e c,0)

/-- `mqtt_publish_capability_add_handler`. -/
def mqttPublishCapabilityAddHandler (s : State ne nc n ET CT A) (eui64 : Eui64)
    (capabilityName : List UInt8) : State ne nc n ET CT A×ℤ :=
  match decodeEmbedded env.cbor p.chunk with
  | .error err => (s,err)
  | .ok cert =>
    match edgeForCapability env p (processEmbedded env p s eui64 cert) eui64 with
    | (s,none) => (s,-1)
    | (s,some e) => addCapability env p s e capabilityName

/-- What a capability remove removes, by the build. -/
def removeOnCapabilityRemove (e : Fin ne) (c : Fin (ne*nc)) (edges : EdgeStore ne nc ET CT) :
    EdgeStore ne nc ET CT :=
  if env.noActiveRemovalOnUnannounce=true then edges
  else
    let edges := (edgeInfoCapabilityRemove edges e c).1
    if env.aggressiveRemovalOnUnannounce=true ∧ (edges.edge e).capabilities=[] then
      (edgeInfoRemove edges e).1
    else edges

/-- `mqtt_publish_capability_remove_handler`. -/
def mqttPublishCapabilityRemoveHandler (s : State ne nc n ET CT A) (eui64 : Eui64)
    (capabilityName : List UInt8) : State ne nc n ET CT A×ℤ :=
  match decodeEmbedded env.cbor p.chunk with
  | .error err => (s,err)
  | .ok cert =>
    let s := processEmbedded env p s eui64 cert
    match edgeInfoFindEui64 env.addresses s.edges eui64 p.findIpaddr with
    | none => (s,-1)
    | some e =>
      match edgeInfoCapabilityFind s.edges e capabilityName with
      | none => (s,-1)
      | some c =>
        let s := {s with edges := deactivateCap s.edges c}.post env p c .remove e
        ({s with edges := removeOnCapabilityRemove env e c s.edges},0)

end Handlers

section Topics

/-- `hex_char`, without a value for other characters. -/
def hexChar (c : UInt8) : Option UInt8 :=
  if 0x30 ≤ c ∧ c≤0x39 then some (c-0x30)
  else if 0x41 ≤ c ∧ c≤0x46 then some (c-0x41+10)
  else if 0x61 ≤ c ∧ c≤0x66 then some (c-0x61+10)
  else none

/-- The loop of `base16_decode_length`, on the room left and the bytes so far. -/
def base16DecodeLoop : List UInt8 → ℕ → List UInt8 → Except ℤ (List UInt8)
  | c::d::source,length,buf =>
    match hexChar c with
    | none => .error (-3)
    | some nib1 =>
      match hexChar d with
      | none => .error (-4)
      | some nib2 =>
        match length with
        | 0 => .error (-5)
        | length+1 => base16DecodeLoop source length (buf++[((0xF&&&nib1)<<<4)|||(0xF&&&nib2)])
  | _,_,buf => .ok buf

/-- `base16_decode_length` into a buffer with the given room. -/
def base16DecodeLength (source : List UInt8) (length : ℕ) : Except ℤ (List UInt8) :=
  if length=0 then .error (-2)
  else if source.length%2≠0 then .error (-6)
  else base16DecodeLoop source length []

/-- `eui64_from_strn`. -/
def eui64FromStrn (str : List UInt8) : Option Eui64 :=
  if str.length≠16 then none
  else match base16DecodeLength str 8 with
    | .ok buf => if buf.length=8 then some (bytesAt 8 buf 0) else none
    | .error _ => none

/-- `isxdigit`. -/
def isxdigit (c : UInt8) : Bool := (hexChar c).isSome

/-- `strncmp` with a literal and its length, on memory. -/
def startsWith (mem literal : List UInt8) : Bool := decide (mem.take literal.length=literal)

/-- `strchr` for a character that is not the terminator, as an offset. -/
def strchr (mem : List UInt8) (c : UInt8) : Option ℕ :=
  (mem.takeWhile fun b => decide (b≠0)).findIdx? fun b => decide (b=c)

/-- `MQTT_EDGE_NAMESPACE`: "edge". -/
def mqttEdgeNamespace : List UInt8 := [0x65,0x64,0x67,0x65]

/-- `MQTT_EDGE_ACTION_ANNOUNCE`: "announce". -/
def mqttEdgeActionAnnounce : List UInt8 := [0x61,0x6e,0x6e,0x6f,0x75,0x6e,0x63,0x65]

/-- `MQTT_EDGE_ACTION_UNANNOUNCE`: "unannounce". -/
def mqttEdgeActionUnannounce : List UInt8 := [0x75,0x6e,0x61,0x6e,0x6e,0x6f,0x75,0x6e,0x63,0x65]

/-- `MQTT_EDGE_ACTION_CAPABILITY`: "capability". -/
def mqttEdgeActionCapability : List UInt8 := [0x63,0x61,0x70,0x61,0x62,0x69,0x6c,0x69,0x74,0x79]

/-- `MQTT_EDGE_ACTION_CAPABILITY_ADD`: "add". -/
def mqttEdgeActionCapabilityAdd : List UInt8 := [0x61,0x64,0x64]

/-- `MQTT_EDGE_ACTION_CAPABILITY_REMOVE`: "remove". -/
def mqttEdgeActionCapabilityRemove : List UInt8 := [0x72,0x65,0x6d,0x6f,0x76,0x65]

/-- `MQTT_IDENTITY_LEN`. -/
def mqttIdentityLen : ℕ := 16

/-- `'/'`. -/
def slash : UInt8 := 0x2f

/-- The handlers that a publish is dispatched to. -/
inductive Handler where
  /-- `mqtt_publish_announce_handler`. -/
  | announce
  /-- `mqtt_publish_unannounce_handler`. -/
  | unannounce
  /-- `mqtt_publish_capability_add_handler`. -/
  | capabilityAdd (capabilityName : List UInt8)
  /-- `mqtt_publish_capability_remove_handler`. -/
  | capabilityRemove (capabilityName : List UInt8)
  deriving DecidableEq

/-- `mqtt_publish_capability_handler`, on the memory behind "capability". -/
def capabilityHandler (mem : List UInt8) : Option Handler :=
  if mem.headD 0≠slash then none
  else
    let topic := mem.drop 1
    match strchr topic slash with
    | none => none
    | some distance =>
      if distance=0 ∨ edgeCapabilityNameLen<distance then none
      else
        let capabilityName := topic.take distance
        let topic := topic.drop (distance+1)
        if startsWith topic mqttEdgeActionCapabilityAdd=true then
          some (.capabilityAdd capabilityName)
        else if startsWith topic mqttEdgeActionCapabilityRemove=true then
          some (.capabilityRemove capabilityName)
        else none

/-- The handler for the memory behind the identity and its slash. -/
def actionHandler (topic : List UInt8) : Option Handler :=
  if startsWith topic mqttEdgeActionAnnounce=true then some .announce
  else if startsWith topic mqttEdgeActionUnannounce=true then some .unannounce
  else if startsWith topic mqttEdgeActionCapability=true then
    capabilityHandler (topic.drop mqttEdgeActionCapability.length)
  else none

/-- `mqtt_publish_handler` up to the dispatch: the identity and the handler. -/
def parseTopic (currentEui64 : Eui64) (p : Publish) : Option (Eui64×Handler) :=
  let mem := p.topic++p.behind
  if startsWith mem mqttEdgeNamespace=false then none
  else
    let topic := mem.drop mqttEdgeNamespace.length
    if (p.topic.length : ℤ)-mqttEdgeNamespace.length<2+mqttIdentityLen ∨ topic.headD 0≠slash then
      none
    else
      let topic := topic.drop 1
      if ((List.range mqttIdentityLen).all fun i => isxdigit (topic.getD i 0))=false then none
      else match eui64FromStrn (topic.take mqttIdentityLen) with
        | none => none
        | some eui64 =>
          if eui64=currentEui64 then none
          else
            let topic := topic.drop mqttIdentityLen
            if topic.headD 0≠slash then none
            else (actionHandler (topic.drop 1)).map fun handler => (eui64,handler)

end Topics

/-- The handler that a publish is dispatched to; its result is not looked at. -/
def runHandler (env : PublishEnv ne nc n ET CT D A) (p : Publish) (s : State ne nc n ET CT A)
    (eui64 : Eui64) : Handler → State ne nc n ET CT A×ℤ
  | .announce => mqttPublishAnnounceHandler env p s eui64
  | .unannounce => mqttPublishUnannounceHandler env p s eui64
  | .capabilityAdd name => mqttPublishCapabilityAddHandler env p s eui64 name
  | .capabilityRemove name => mqttPublishCapabilityRemoveHandler env p s eui64 name

/-- `mqtt_publish_handler`. -/
def mqttPublishHandler (env : PublishEnv ne nc n ET CT D A) (s : State ne nc n ET CT A)
    (p : Publish) : State ne nc n ET CT A :=
  match parseTopic env.currentEui64 p with
  | none => s
  | some (eui64,handler) => (runHandler env p s eui64 handler).1

section Sample

/-- The default build with the sample pools, decoder and conversions, and no
processes; the node's identity is all nines. -/
def samplePublishEnv : PublishEnv 4 3 2 ℕ ℕ (List UInt8×Option ℕ) Unit where
  edges := sampleEdgeEnv
  keystore := Keystore.sampleEnv 2
  addresses := sampleAddressEnv
  cbor := samplePublishDecoder
  currentEui64 := .replicate 8 0x99
  noActiveRemovalOnUnannounce := false
  aggressiveRemovalOnUnannounce := false
  postToCapabilityProcess _ _ _ _ _ apps := apps

/-- A publish about the identity of fifteen zeros and a digit. -/
def sampleMessage (digit : UInt8) (action chunk : List UInt8) : Publish where
  topic := mqttEdgeNamespace++[slash]++List.replicate 15 0x30++[0x30+digit,slash]++action
  behind := []
  chunk := chunk
  ourAddrs := []
  certIpaddr := .replicate 16 0
  findIpaddr := .replicate 16 0
  addIpaddr := .replicate 16 0
  now := 0

/-- An unannounce with an address. -/
def sampleUnannounce (digit : UInt8) : Publish :=
  sampleMessage digit mqttEdgeActionUnannounce (0x81::0x50::List.replicate 16 0xFE)

/-- A capability add without a certificate. -/
def sampleCapabilityAdd (digit : UInt8) (name : List UInt8) : Publish :=
  sampleMessage digit (mqttEdgeActionCapability++slash::name++slash::mqttEdgeActionCapabilityAdd)
    [0x82,0xF4,0xF6]

end Sample

end TrustAlloc.MqttPublish
