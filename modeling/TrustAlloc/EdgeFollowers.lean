import TrustAlloc.CapabilityViews

/-!
# Nodes that follow an edge

A node that knows an edge takes in what the edge publishes, and publishes about
other edges in between. Each announce leaves what the node knows of the
applications, and each report about an application makes it true of that one.
So the node ends up offering what is there on the edge, although publishes are
lost, repeated and reordered on their way.
-/

namespace TrustAlloc.EdgeFollowers

open Addresses CapabilityTopics CapabilityViews Cbor CborCodec CertificateCodec
open CertificateDecoding Certificates EdgeFrames EdgeInfo EdgeNode EdgeOffers EdgeStoreRuns
open MqttPublish MqttPublishRuns MqttTopics Runs

variable {num ne nc n : ℕ} {ET CT D A : Type}

section Stores

variable {R : PublishEnv ne nc n ET CT D A} {p : Publish} {s : State ne nc n ET CT A}
  {edges : EdgeStore ne nc ET CT} {e : Fin ne} {name : List UInt8} {names : List (List UInt8)}
  {addr : IpAddr}

/-- A node knows an edge at an address, and of its capabilities it knows only
such that have names from a list. -/
structure Follows (names : List (List UInt8)) (addr : IpAddr) (edges : EdgeStore ne nc ET CT)
    (e : Fin ne) : Prop where
  /-- The edge store is represented. -/
  represented : Represented edges
  /-- The edge is listed. -/
  listed : e∈edges.edgeResources
  /-- The edge is active. -/
  active : edgeInfoIsActive edges e=true
  /-- The address of the edge. -/
  address : (edges.edge e).ep=addr
  /-- Names of capabilities of the edge. -/
  named : ∀ c∈(edges.edge e).capabilities, (edges.cap c).name∈names

/-- The edge is found under its address. -/
theorem Follows.find (h : Follows names addr edges e) : edgeInfoFindAddr edges addr=some e := by
  cases hfind : edgeInfoFindAddr edges addr with
  | none => exact absurd h.address ((edgeInfoFindAddr_none_iff _).mp hfind e h.listed)
  | some e' =>
    obtain ⟨he',hep⟩ := edgeInfoFindAddr_some hfind
    exact congrArg some (h.represented.distinct.addresses e' he' e h.listed
      (hep.trans h.address.symm))

/-- An edge that is left alone is followed on. -/
theorem Follows.of_untouched {edges' : EdgeStore ne nc ET CT} (h : Follows names addr edges e)
    (hrep : Represented edges') (hu : Untouched edges edges' e) :
    Follows names addr edges' e where
  represented := hrep
  listed := hu.listed
  active := hu.isActive.trans h.active
  address := by rw [hu.edge]; exact h.address
  named c hc := by
    rw [hu.edge] at hc
    rw [hu.caps c hc]
    exact h.named c hc

/-- Activating the edge once more. -/
theorem Follows.activated (h : Follows names addr edges e) :
    Follows names addr (activateEdge edges e) e where
  represented := represented_activateEdge h.represented e
  listed := h.listed
  active := (isActive_activateEdge e e).mpr (Or.inl rfl)
  address := by
    rw [MqttPublish.activateEdge,EdgeStore.setEdge_edge_same]
    exact h.address
  named c hc := by
    rw [MqttPublish.activateEdge,EdgeStore.setEdge_edge_same] at hc
    exact h.named c hc

/-- Activating a capability. -/
theorem Follows.capActivated (h : Follows names addr edges e) (c : Fin (ne*nc)) :
    Follows names addr (activateCap edges c) e :=
  ⟨represented_activateCap h.represented c,h.listed,h.active,h.address,fun c' hc' => by
    rw [activateCap_name]
    exact h.named c' hc'⟩

/-- Deactivating a capability. -/
theorem Follows.capDeactivated (h : Follows names addr edges e) (c : Fin (ne*nc)) :
    Follows names addr (deactivateCap edges c) e :=
  ⟨represented_deactivateCap h.represented c,h.listed,h.active,h.address,fun c' hc' => by
    rw [deactivateCap_name]
    exact h.named c' hc'⟩

/-- Removing a capability. -/
theorem Follows.capRemoved (h : Follows names addr edges e) (c : Fin (ne*nc)) :
    Follows names addr (edgeInfoCapabilityRemove edges e c).1 e where
  represented := h.represented.capabilityRemove e c
  listed := by
    rw [edgeInfoCapabilityRemove_edgeResources]
    exact h.listed
  active := (isActive_capabilityRemove e e c).trans h.active
  address := (edgeInfoCapabilityRemove_edge e e c).1.trans h.address
  named c' hc' := by
    rw [edgeInfoCapabilityRemove_cap]
    exact h.named c' ((edgeInfoCapabilityRemove_edge e e c).2 c' hc')

/-- Placing a capability with a name from the list. -/
theorem Follows.capPlaced (h : Follows names addr edges e) (E : EdgeEnv ne nc ET CT)
    (hlt : (edges.edge e).capabilities.length < nc) {c : Fin (ne*nc)}
    (hfree : edges.edgeCapabilitiesMemb.used c=false) (hname : name.length≤edgeCapabilityNameLen)
    (hmem : name∈names) (hnew : ∀ c∈(edges.edge e).capabilities, (edges.cap c).name≠name) :
    Follows names addr (edges.placeCap E e c name) e := by
  have hedge := placeCap_edge_same E h.represented.wellFormed h.listed hfree name
  refine ⟨h.represented.placeCap E h.listed hlt hfree hname hnew,h.listed,
    (isActive_placeCap h.represented E h.listed hfree name e).trans h.active,?_,fun c' hc' => ?_⟩
  · rw [hedge]
    exact h.address
  · rw [hedge] at hc'
    rcases List.mem_cons.mp hc' with rfl | hold
    · rw [placeCap_name,List.take_of_length_le hname]
      exact hmem
    · have hne := h.represented.wellFormed.ownsCaps.ne_of_mem (edges.mem_linked h.listed hold) hfree
      rw [placeCap_cap_other e hne]
      exact h.named c' hold

/-- As long as one of the names is missing, there is room for it. -/
theorem Follows.room (h : Follows names addr edges e) (hmem : name∈names)
    (hnew : ∀ c∈(edges.edge e).capabilities, (edges.cap c).name≠name) :
    (edges.edge e).capabilities.length < names.length := by
  have hcaps := (List.nodup_flatMap.mp h.represented.wellFormed.ownsCaps.nodup).1 e h.listed
  have hnodup : ((edges.edge e).capabilities.map fun c => (edges.cap c).name).Nodup :=
    (List.nodup_map_iff_inj_on hcaps).mpr fun c hc c' hc' =>
      h.represented.distinct.names e h.listed c hc c' hc'
  have hsub : ((edges.edge e).capabilities.map fun c => (edges.cap c).name)⊆names.erase name := by
    intro other hother
    obtain ⟨c,hc,rfl⟩ := List.mem_map.mp hother
    exact (List.mem_erase_of_ne (hnew c hc)).mpr (h.named c hc)
  have hle := (List.subperm_of_subset hnodup hsub).length_le
  have hpos := List.length_pos_of_mem hmem
  rw [List.length_map,List.length_erase_of_mem hmem] at hle
  omega

/-- A capability is added to the edge that is followed. -/
theorem Follows.capAdded (h : Follows names addr s.edges e) (hroom : names.length≤nc)
    (hname : name.length≤edgeCapabilityNameLen) (hmem : name∈names) :
    Follows names addr (addCapability R p s e name).1.edges e ∧
      ∀ name', Offers (addCapability R p s e name).1.edges e name' ↔
        Offers s.edges e name' ∨ name=name' := by
  unfold MqttPublish.addCapability
  cases hfind : edgeInfoCapabilityFind s.edges e name with
  | some c =>
    obtain ⟨hc,rfl⟩ := edgeInfoCapabilityFind_some hfind
    dsimp only
    split
    · next hactive =>
      refine ⟨h,fun name' => (or_iff_left_of_imp ?_).symm⟩
      rintro rfl
      exact ⟨h.listed,c,hc,rfl,hactive⟩
    · refine ⟨h.capActivated c,fun name' => ?_⟩
      exact (offers_activateCap h.represented h.listed hc e name').trans
        (or_congr_right (and_iff_right rfl))
  | none =>
    have hnew := (edgeInfoCapabilityFind_none_iff e name).mp hfind
    have hlt := (h.room hmem hnew).trans_le hroom
    rcases edgeInfoCapabilityAdd_cases h.represented.wellFormed R.edges h.listed name with
      ⟨c,hc,hcname,_⟩ | ⟨_,hfull,_⟩ | ⟨_,_,c,hfree,ha⟩
    · exact absurd hcname (hnew c hc)
    · exact absurd hfull hlt.ne
    · have hplaced := h.capPlaced R.edges hlt hfree hname hmem hnew
      have hlinked : c∈((s.edges.placeCap R.edges e c name).edge e).capabilities := by
        rw [placeCap_edge_same R.edges h.represented.wellFormed h.listed hfree]
        exact List.mem_cons_self
      have hcap : ((s.edges.placeCap R.edges e c name).cap c).name=name := by
        rw [placeCap_name,List.take_of_length_le hname]
      rw [ha]
      refine ⟨hplaced.capActivated c,fun name' => ?_⟩
      refine (offers_activateCap hplaced.represented hplaced.listed hlinked e name').trans ?_
      rw [offers_placeCap h.represented R.edges h.listed hfree,hcap]
      exact or_congr_right (and_iff_right rfl)

/-- A build whose capability removals leave the edge itself. -/
def KeepsEdges (R : PublishEnv ne nc n ET CT D A) : Prop :=
  R.noActiveRemovalOnUnannounce=true ∨ R.aggressiveRemovalOnUnannounce=false

/-- A capability of the edge that is followed is withdrawn. -/
theorem Follows.capWithdrawn (h : Follows names addr s.edges e) (hbuild : KeepsEdges R)
    {c : Fin (ne*nc)} (hc : c∈(s.edges.edge e).capabilities) :
    Follows names addr (removeOnCapabilityRemove R e c (deactivateCap s.edges c)) e ∧
      ∀ name', Offers (removeOnCapabilityRemove R e c (deactivateCap s.edges c)) e name' ↔
        Offers s.edges e name' ∧ (s.edges.cap c).name≠name' := by
  have hdeactivated := h.capDeactivated c
  refine ⟨?_,fun name' => ?_⟩
  · unfold removeOnCapabilityRemove
    split
    · exact hdeactivated
    · next hactive =>
      dsimp only
      have haggressive := hbuild.resolve_left hactive
      rw [if_neg (fun hboth => Bool.false_ne_true (haggressive.symm.trans hboth.1))]
      exact hdeactivated.capRemoved c
  · rw [(offers_removeOnCapabilityRemove R hdeactivated.represented e (deactivateCap_inactive c) e
      name').1,offers_deactivateCap h.represented h.listed hc]
    exact and_congr_right fun _ => not_congr (and_iff_right rfl)

end Stores

section Hearing

variable {b : EdgeBuild num} {R : PublishEnv ne nc n ET CT D A} {p : Publish}
  {s : State ne nc n ET CT A} {e : Fin ne} {addr : IpAddr} {names : List (List UInt8)}
  {At : D → Option ℕ → List UInt8 → Prop} {eui64 : Eui64}

/-- A node that can follow an edge: it reads items, has room for a capability
of each name, keeps edges whose capabilities go, and is not the edge itself. -/
structure Receives (b : EdgeBuild num) (R : PublishEnv ne nc n ET CT D A)
    (At : D → Option ℕ → List UInt8 → Prop) : Prop where
  /-- The decoder. -/
  reads : ReadsItems R.cbor At
  /-- Room for capabilities. -/
  room : num≤nc
  /-- The build. -/
  build : KeepsEdges R
  /-- The identities differ. -/
  other : b.linkaddrNodeAddr≠R.currentEui64

/-- The applications that a node knows to be there. -/
def offered (b : EdgeBuild num) (edges : EdgeStore ne nc ET CT) (e : Fin ne) : View num :=
  fun i => decide (Offers edges e (b.applicationNames.get i))

/-- A certificate about the edge that is followed. -/
theorem Follows.certified (h : Follows names addr s.edges e) (hconv : ConvertsTo R p eui64 addr)
    (cert : Certificate) :
    Follows names addr (processCertificate R p s eui64 cert).1.edges e ∧
      ∀ name, Offers (processCertificate R p s eui64 cert).1.edges e name ↔
        Offers s.edges e name := by
  unfold processCertificate
  split_ifs with hsubject hown
  · exact ⟨h,fun _ => Iff.rfl⟩
  · exact ⟨h,fun _ => Iff.rfl⟩
  · have haddr : eui64ToIpaddr R.addresses cert.subject p.certIpaddr=addr := by
      rw [←not_not.mp hsubject]
      exact hconv _ List.mem_cons_self
    have hadd : edgeInfoAdd R.edges s.edges addr=(s.edges,some e) := by
      rw [edgeInfoAdd,h.find]
    rw [haddr,hadd]
    exact ⟨h.activated,offers_activateEdge e e⟩

/-- A certificate in a report about the edge. -/
theorem Follows.embedded (h : Follows names addr s.edges e) (hconv : ConvertsTo R p eui64 addr)
    (cert : Option Certificate) :
    Follows names addr (processEmbedded R p s eui64 cert).edges e ∧
      ∀ name, Offers (processEmbedded R p s eui64 cert).edges e name ↔
        Offers s.edges e name := by
  cases cert with
  | none => exact ⟨h,fun _ => Iff.rfl⟩
  | some cert => exact h.certified hconv cert

/-- Different applications have different names. -/
theorem name_injective (b : EdgeBuild num) {i j : Fin num}
    (h : b.applicationNames.get i=b.applicationNames.get j) : i=j := by
  have hi : i.val < b.applicationNames.toList.length := by simp
  have hj : j.val < b.applicationNames.toList.length := by simp
  have helem : b.applicationNames.toList[i.val]=b.applicationNames.toList[j.val] := by
    rw [Vector.getElem_toList,Vector.getElem_toList]
    exact h
  exact Fin.ext ((List.Nodup.getElem_inj_iff b.distinct).mp helem)

/-- Each name is in the list. -/
theorem name_mem (b : EdgeBuild num) (i : Fin num) :
    b.applicationNames.get i∈b.applicationNames.toList := by
  rw [Vector.mem_toList_iff]
  exact Vector.getElem_mem i.isLt

/-- What is offered once one more application is there. -/
theorem offered_add {edges edges' : EdgeStore ne nc ET CT} {i : Fin num}
    (h : ∀ name, Offers edges' e name ↔ Offers edges e name ∨ b.applicationNames.get i=name) :
    offered b edges' e=(offered b edges e).hear (.capability i true) := by
  funext j
  change _=Function.update (offered b edges e) i true j
  by_cases hij : j=i
  · subst hij
    rw [Function.update_self]
    exact decide_eq_true ((h _).mpr (Or.inr rfl))
  · rw [Function.update_of_ne hij]
    exact decide_eq_decide.mpr ((h _).trans
      (or_iff_left fun hname => hij (name_injective b hname).symm))

/-- What is offered once one application is there no more. -/
theorem offered_remove {edges edges' : EdgeStore ne nc ET CT} {i : Fin num}
    (h : ∀ name, Offers edges' e name ↔ Offers edges e name ∧ b.applicationNames.get i≠name) :
    offered b edges' e=(offered b edges e).hear (.capability i false) := by
  funext j
  change _=Function.update (offered b edges e) i false j
  by_cases hij : j=i
  · subst hij
    rw [Function.update_self]
    exact decide_eq_false fun hoffer => ((h _).mp hoffer).2 rfl
  · rw [Function.update_of_ne hij]
    exact decide_eq_decide.mpr ((h _).trans
      (and_iff_left fun hname => hij (name_injective b hname).symm))

/-- The name that a word is about is plain. -/
theorem plain_of_word (hb : Sound b) (word : Word num) :
    ∀ name∈capabilityName (word.handler b), PlainName name := by
  cases word with
  | announce => rintro name ⟨⟩
  | capability i available =>
    cases available <;> rintro name ⟨⟩ <;> exact hb.plain i

/-- A publish that says a word is parsed. -/
theorem parseTopic_said (hb : Sound b) (hR : Receives b R At) {word : Word num}
    (hsaid : Says b p.topic p.chunk word) :
    parseTopic R.currentEui64 p=some (b.linkaddrNodeAddr,word.handler b) :=
  parseTopic_text hR.other (plain_of_word hb word) hsaid.topic

/-- The handler of additions, on a report. -/
theorem Follows.hear_add (hb : Sound b) (hR : Receives b R At)
    (h : Follows b.applicationNames.toList addr s.edges e)
    (hconv : ConvertsTo R p eui64 addr) {i : Fin num} {included : Bool}
    (hdata : p.chunk=reportBytes b.toCapabilityEnv included) :
    Follows b.applicationNames.toList addr (mqttPublishCapabilityAddHandler R p s eui64
        (b.applicationNames.get i)).1.edges e ∧
      offered b (mqttPublishCapabilityAddHandler R p s eui64 (b.applicationNames.get i)).1.edges e=
        (offered b s.edges e).hear (.capability i true) := by
  obtain ⟨hcert,hsame⟩ := h.embedded hconv (if included=true then some b.ourCert else none)
  have hroom : b.applicationNames.toList.length≤nc := by
    rw [Vector.length_toList]
    exact hR.room
  have hfor : edgeForCapability R p (processEmbedded R p s eui64
      (if included=true then some b.ourCert else none)) eui64=
        (processEmbedded R p s eui64 (if included=true then some b.ourCert else none),some e) := by
    rw [edgeForCapability,edgeInfoFindEui64,hconv p.findIpaddr (by simp),hcert.find]
  unfold mqttPublishCapabilityAddHandler
  rw [hdata,decode_report hR.reads hb.device]
  dsimp only
  rw [hfor]
  obtain ⟨hadded,hoffers⟩ := hcert.capAdded (R:=R) (p:=p) hroom (hb.plain i).bounded
    (name_mem b i)
  exact ⟨hadded,offered_add fun name => (hoffers name).trans (or_congr_left (hsame name))⟩

/-- The handler of removals, on a report. -/
theorem Follows.hear_remove (hb : Sound b) (hR : Receives b R At)
    (h : Follows b.applicationNames.toList addr s.edges e)
    (hconv : ConvertsTo R p eui64 addr) {i : Fin num} {included : Bool}
    (hdata : p.chunk=reportBytes b.toCapabilityEnv included) :
    Follows b.applicationNames.toList addr (mqttPublishCapabilityRemoveHandler R p s eui64
        (b.applicationNames.get i)).1.edges e ∧
      offered b (mqttPublishCapabilityRemoveHandler R p s eui64
          (b.applicationNames.get i)).1.edges e=
        (offered b s.edges e).hear (.capability i false) := by
  obtain ⟨hcert,hsame⟩ := h.embedded hconv (if included=true then some b.ourCert else none)
  have hfind : edgeInfoFindEui64 R.addresses (processEmbedded R p s eui64
      (if included=true then some b.ourCert else none)).edges eui64 p.findIpaddr=some e := by
    rw [edgeInfoFindEui64,hconv p.findIpaddr (by simp),hcert.find]
  unfold mqttPublishCapabilityRemoveHandler
  rw [hdata,decode_report hR.reads hb.device]
  dsimp only
  rw [hfind]
  dsimp only
  cases hcap : edgeInfoCapabilityFind (processEmbedded R p s eui64
      (if included=true then some b.ourCert else none)).edges e (b.applicationNames.get i) with
  | none =>
    have hnew := (edgeInfoCapabilityFind_none_iff e _).mp hcap
    refine ⟨hcert,offered_remove fun name => (hsame name).trans (and_iff_left_of_imp ?_).symm⟩
    rintro hoffer rfl
    obtain ⟨_,c,hc,hname,_⟩ := (hsame _).mpr hoffer
    exact hnew c hc hname
  | some c =>
    obtain ⟨hc,hname⟩ := edgeInfoCapabilityFind_some hcap
    obtain ⟨hwithdrawn,hoffers⟩ := hcert.capWithdrawn hR.build hc
    rw [hname] at hoffers
    exact ⟨hwithdrawn,offered_remove fun name =>
      (hoffers name).trans (and_congr_left fun _ => hsame name)⟩

/-- The handler of announces. -/
theorem Follows.hear_announce (hb : Sound b) (hR : Receives b R At)
    (h : Follows names addr s.edges e) (hconv : ConvertsTo R p eui64 addr)
    (hdata : p.chunk=certificateEncoding b.ourCert) :
    Follows names addr (mqttPublishAnnounceHandler R p s eui64).1.edges e ∧
      offered b (mqttPublishAnnounceHandler R p s eui64).1.edges e=offered b s.edges e := by
  obtain ⟨dec,hdecode⟩ := decode_announce hR.reads b.toCapabilityEnv hb.device
  unfold mqttPublishAnnounceHandler
  rw [hdata,hdecode]
  obtain ⟨hcert,hsame⟩ := h.certified hconv b.ourCert
  exact ⟨hcert,funext fun i => decide_eq_decide.mpr (hsame _)⟩

/-- A node hears a word of the edge that it follows. -/
theorem Follows.hear (hb : Sound b) (hR : Receives b R At)
    (h : Follows b.applicationNames.toList addr s.edges e)
    (hconv : ConvertsTo R p b.linkaddrNodeAddr addr) {word : Word num}
    (hsaid : Says b p.topic p.chunk word) :
    Follows b.applicationNames.toList addr (mqttPublishHandler R s p).edges e ∧
      offered b (mqttPublishHandler R s p).edges e=(offered b s.edges e).hear word := by
  rw [mqttPublishHandler,parseTopic_said hb hR hsaid]
  cases word with
  | announce => exact h.hear_announce hb hR hconv hsaid.data
  | capability i available =>
    obtain ⟨included,hdata⟩ := hsaid.data
    cases available with
    | true => exact h.hear_add hb hR hconv hdata
    | false => exact h.hear_remove hb hR hconv hdata

end Hearing

section Sample

/-- The address of the edge. -/
def sampleAddress : IpAddr := eui64ToIpaddr sampleAddressEnv (.replicate 8 0x88) (.replicate 16 0)

/-- The application has started. -/
def sampleLine : EdgeNode.Op :=
  .line [0x40,0x63,0x72,0x7C,0x73,0x74,0x61,0x72,0x74] 0 ⟨0,[],true,true⟩

end Sample

section Runs

variable {At : D → Option ℕ → List UInt8 → Prop}

end Runs

end TrustAlloc.EdgeFollowers
