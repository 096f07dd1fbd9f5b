import TrustAlloc.MqttPublish

/-!
# The grammar of topics

The topics that publishes about edges are meant to have, against what
`mqtt_publish_handler` dispatches on. The parser is given the end of the topic
but looks at it only once, for the length of the identity; from there on it
compares prefixes of the memory. So it accepts what begins with an action, and
lets the memory behind a topic complete it.
-/

namespace TrustAlloc.MqttTopics

open Certificates CertificateDecoding EdgeInfo MqttPublish

section Grammar

/-- The value of a hex digit. -/
def digitValue (c : UInt8) : UInt8 := (hexChar c).getD 0

/-- The byte that two hex digits stand for. -/
def pairValue (c d : UInt8) : UInt8 := ((0xF&&&digitValue c)<<<4)|||(0xF&&&digitValue d)

/-- The identity that hex digits stand for. -/
def identityOf (digits : List UInt8) : Eui64 :=
  Vector.ofFn fun i => pairValue (digits.getD (2*i.val) 0) (digits.getD (2*i.val+1) 0)

/-- The sixteen hex digits of an identity. -/
structure IdentityDigits (digits : List UInt8) : Prop where
  /-- There are sixteen characters. -/
  length : digits.length=mqttIdentityLen
  /-- They are hex digits. -/
  hex : ∀ c∈digits, isxdigit c=true

/-- What a topic begins with: `edge/<identity>/`. -/
def topicPrefix (digits : List UInt8) : List UInt8 := mqttEdgeNamespace++slash::(digits++[slash])

/-- The text of the action that a handler stands for. -/
def actionText : Handler → List UInt8
  | .announce => mqttEdgeActionAnnounce
  | .unannounce => mqttEdgeActionUnannounce
  | .capabilityAdd name =>
    mqttEdgeActionCapability++slash::(name++slash::mqttEdgeActionCapabilityAdd)
  | .capabilityRemove name =>
    mqttEdgeActionCapability++slash::(name++slash::mqttEdgeActionCapabilityRemove)

/-- The capability that a handler is about. -/
def capabilityName : Handler → Option (List UInt8)
  | .announce | .unannounce => none
  | .capabilityAdd name | .capabilityRemove name => some name

/-- A capability name of 1 to 15 bytes without a slash. -/
structure NameFits (name : List UInt8) : Prop where
  /-- The name is not empty. -/
  nonempty : name≠[]
  /-- The name fits its field. -/
  bounded : name.length≤edgeCapabilityNameLen
  /-- The name has no slash. -/
  noSlash : slash∉name

/-- A topic of the grammar, as a whole, for an identity other than the node's own. -/
def InGrammar (currentEui64 : Eui64) (topic : List UInt8) (eui64 : Eui64) (handler : Handler) :
    Prop :=
  ∃ digits, IdentityDigits digits ∧ identityOf digits=eui64 ∧ eui64≠currentEui64 ∧
    (∀ name∈capabilityName handler, NameFits name) ∧ topic=topicPrefix digits++actionText handler

end Grammar

section Identities

/-- The loop of `base16_decode_length` on hex digits, in pairs. -/
def decodedPairs : List UInt8 → List UInt8
  | c::d::source => pairValue c d::decodedPairs source
  | _ => []

/-- The loop decodes hex digits while there is room. -/
theorem base16DecodeLoop_hex {source : List UInt8} (hhex : ∀ c∈source, isxdigit c=true) {length : ℕ}
    (hroom : source.length≤2*length) (buf : List UInt8) :
    base16DecodeLoop source length buf=.ok (buf++decodedPairs source) := by
  fun_induction base16DecodeLoop source length buf with
  | case1 => simp_all [isxdigit]
  | case2 => simp_all [isxdigit]
  | case3 => simp at hroom
  | case4 buf c d source nib1 hc nib2 hd length ih =>
    have hrest := ih (fun x hx => hhex x (by simp [hx])) (by simp at hroom; omega)
    rw [hrest,decodedPairs,pairValue,digitValue,digitValue,hc,hd]
    simp
  | case5 source length buf hshort =>
    rw [decodedPairs,List.append_nil]
    exact fun c d source' heq => hshort c d source' heq

/-- The pairs of digits, one by one. -/
theorem getD_decodedPairs (source : List UInt8) (i : ℕ) (hi : 2*i+1 < source.length) :
    (decodedPairs source).getD i 0=pairValue (source.getD (2*i) 0) (source.getD (2*i+1) 0) := by
  induction source using decodedPairs.induct generalizing i with
  | case1 c d source ih =>
    cases i with
    | zero => rfl
    | succ i =>
      simp only [List.length_cons] at hi
      have hrest := ih i (by omega)
      simpa [decodedPairs,Nat.mul_succ] using hrest
  | case2 source hshort =>
    match source,hshort with
    | [],_ => simp at hi
    | [c],_ => simp at hi
    | c::d::source',hshort => exact absurd rfl (hshort c d source')

/-- There is a byte for each pair of digits. -/
theorem length_decodedPairs (source : List UInt8) :
    (decodedPairs source).length=source.length/2 := by
  induction source using decodedPairs.induct with
  | case1 c d source ih =>
    simp only [decodedPairs,List.length_cons,ih]
    omega
  | case2 source hshort =>
    match source,hshort with
    | [],_ => rfl
    | [c],_ => simp [decodedPairs]
    | c::d::source',hshort => exact absurd rfl (hshort c d source')

/-- `eui64_from_strn` on the digits of an identity. -/
theorem eui64FromStrn_digits {digits : List UInt8} (h : IdentityDigits digits) :
    eui64FromStrn digits=some (identityOf digits) := by
  have hlen : digits.length=16 := h.length
  have hdecoded : (decodedPairs digits).length=8 := by
    rw [length_decodedPairs,hlen]
  have hdecode : base16DecodeLength digits 8=.ok (decodedPairs digits) := by
    unfold base16DecodeLength
    rw [if_neg (by decide),if_neg (by rw [hlen]; decide),
      base16DecodeLoop_hex h.hex (by rw [hlen]) [],List.nil_append]
  unfold eui64FromStrn
  rw [if_neg (not_not.mpr hlen),hdecode]
  dsimp only
  rw [if_pos hdecoded]
  refine congrArg some (Vector.ext fun i hi => ?_)
  have hbyte := getD_decodedPairs digits i (by omega)
  simpa [bytesAt,identityOf] using hbyte

end Identities

section Actions

/-- `strncmp` with a literal compares a prefix. -/
theorem startsWith_iff {mem literal : List UInt8} :
    startsWith mem literal=true ↔ literal<+:mem := by
  rw [startsWith,decide_eq_true_iff,List.prefix_iff_eq_take,eq_comm]

/-- `strchr` goes on until it meets the terminator or a slash. -/
theorem strchr_cons (b : UInt8) (mem : List UInt8) :
    strchr (b::mem) slash=
      if b=0 then none else if b=slash then some 0 else (strchr mem slash).map (·+1) := by
  unfold strchr
  by_cases hzero : b=0
  · simp [hzero]
  · have hgo : (b::mem).takeWhile (fun b => decide (b≠0))=
        b::mem.takeWhile fun b => decide (b≠0) :=
      List.takeWhile_cons_of_pos (p:=fun b => decide (b≠0)) (decide_eq_true hzero)
    rw [hgo,List.findIdx?_cons,if_neg hzero]
    simp only [decide_eq_true_eq]

/-- `strchr` finds the first slash in front of the terminator. -/
theorem strchr_slash_iff {mem : List UInt8} {distance : ℕ} :
    strchr mem slash=some distance ↔
      ∃ name rest, mem=name++slash::rest ∧ name.length=distance ∧ slash∉name ∧ 0∉name := by
  induction mem generalizing distance with
  | nil => simp [strchr]
  | cons b mem ih =>
    rw [strchr_cons]
    constructor
    · intro h
      split_ifs at h with hzero hslash
      · cases h
        exact ⟨[],mem,by rw [hslash]; rfl,rfl,List.not_mem_nil,List.not_mem_nil⟩
      · obtain ⟨d,hd,rfl⟩ := Option.map_eq_some_iff.mp h
        obtain ⟨name,rest,rfl,rfl,hname,hnul⟩ := ih.mp hd
        exact ⟨b::name,rest,rfl,rfl,by simp [hname,Ne.symm hslash],by simp [hnul,Ne.symm hzero]⟩
    · rintro ⟨name,rest,heq,rfl,hname,hnul⟩
      cases name with
      | nil =>
        cases heq
        rw [if_neg (by decide),if_pos rfl]
        rfl
      | cons c name =>
        cases heq
        simp only [List.mem_cons,not_or] at hname hnul
        have hd := ih.mpr ⟨name,rest,rfl,rfl,hname.2,hnul.2⟩
        rw [if_neg (Ne.symm hnul.1),if_neg (Ne.symm hname.1)]
        exact Option.map_eq_some_iff.mpr ⟨name.length,hd,rfl⟩

/-- A name that fits and has no terminator in it. -/
structure PlainName (name : List UInt8) : Prop extends NameFits name where
  /-- The name has no NUL. -/
  noNul : 0∉name

/-- `mqtt_publish_capability_handler` on memory with a name between slashes. -/
theorem capabilityHandler_split {name : List UInt8} (hslash : slash∉name) (hnul : 0∉name)
    (rest : List UInt8) :
    capabilityHandler (slash::(name++slash::rest))=
      if name=[] ∨ edgeCapabilityNameLen < name.length then none
      else if mqttEdgeActionCapabilityAdd<+:rest then some (.capabilityAdd name)
      else if mqttEdgeActionCapabilityRemove<+:rest then some (.capabilityRemove name)
      else none := by
  have hfind : strchr (name++slash::rest) slash=some name.length :=
    strchr_slash_iff.mpr ⟨name,rest,rfl,rfl,hslash,hnul⟩
  have htake : (name++slash::rest).take name.length=name := List.take_left
  have hdrop : (name++slash::rest).drop (name.length+1)=rest := by
    rw [List.drop_append,List.drop_of_length_le (by omega)]
    simp
  unfold capabilityHandler
  simp only [List.headD_cons,ne_eq,not_true_eq_false,if_false,List.drop_one,List.tail_cons,hfind,
    htake,hdrop,startsWith_iff,List.length_eq_zero_iff]

/-- `mqtt_publish_capability_handler` reads a name between slashes, and then
the beginning of an action. -/
theorem capabilityHandler_iff {mem : List UInt8} {handler : Handler} :
    capabilityHandler mem=some handler ↔ ∃ name, PlainName name ∧
      ((handler=.capabilityAdd name ∧
          slash::(name++slash::mqttEdgeActionCapabilityAdd)<+:mem) ∨
        (handler=.capabilityRemove name ∧
          slash::(name++slash::mqttEdgeActionCapabilityRemove)<+:mem)) := by
  constructor
  · intro h
    obtain ⟨topic,rfl⟩ : ∃ topic, mem=slash::topic := by
      cases mem with
      | nil => cases h
      | cons b topic =>
        by_cases hsep : b=slash
        · exact ⟨topic,by rw [hsep]⟩
        · simp [capabilityHandler,hsep] at h
    cases hfind : strchr topic slash with
    | none => simp [capabilityHandler,hfind] at h
    | some distance =>
      obtain ⟨name,rest,rfl,rfl,hslash,hnul⟩ := strchr_slash_iff.mp hfind
      have hinside : ∀ literal, literal<+:rest →
          slash::(name++slash::literal)<+:slash::(name++slash::rest) := fun literal hliteral => by
        simpa only [List.prefix_cons_inj,List.prefix_append_right_inj] using hliteral
      rw [capabilityHandler_split hslash hnul] at h
      split_ifs at h with hbound hadd hremove
      · obtain ⟨hne,hle⟩ := not_or.mp hbound
        cases h
        exact ⟨name,⟨⟨hne,not_lt.mp hle,hslash⟩,hnul⟩,Or.inl ⟨rfl,hinside _ hadd⟩⟩
      · obtain ⟨hne,hle⟩ := not_or.mp hbound
        cases h
        exact ⟨name,⟨⟨hne,not_lt.mp hle,hslash⟩,hnul⟩,Or.inr ⟨rfl,hinside _ hremove⟩⟩
  · rintro ⟨name,hname,⟨rfl,rest,rfl⟩ | ⟨rfl,rest,rfl⟩⟩
    all_goals
      have hbound : ¬(name=[] ∨ edgeCapabilityNameLen < name.length) :=
        not_or.mpr ⟨hname.nonempty,not_lt.mpr hname.bounded⟩
      rw [List.cons_append,List.append_assoc,List.cons_append,
        capabilityHandler_split hname.noSlash hname.noNul,if_neg hbound]
    · rw [if_pos (List.prefix_append _ _)]
    · rw [if_neg (by simp [mqttEdgeActionCapabilityAdd,mqttEdgeActionCapabilityRemove]),
        if_pos (List.prefix_append _ _)]

/-- The parser dispatches on capability publishes by what follows. -/
theorem actionHandler_capability (rest : List UInt8) :
    actionHandler (mqttEdgeActionCapability++rest)=capabilityHandler rest := by
  unfold actionHandler
  simp only [startsWith_iff]
  rw [if_neg (by simp [mqttEdgeActionAnnounce,mqttEdgeActionCapability]),
    if_neg (by simp [mqttEdgeActionUnannounce,mqttEdgeActionCapability]),
    if_pos (List.prefix_append _ _),List.drop_left]

/-- The parser dispatches on what an action is a prefix of, with a plain name. -/
theorem actionHandler_iff {mem : List UInt8} {handler : Handler} :
    actionHandler mem=some handler ↔
      (∀ name∈capabilityName handler, PlainName name) ∧ actionText handler<+:mem := by
  constructor
  · intro h
    unfold actionHandler at h
    simp only [startsWith_iff] at h
    split_ifs at h with hannounce hunannounce hcapability
    · cases h
      exact ⟨fun _ hname => (nomatch hname),hannounce⟩
    · cases h
      exact ⟨fun _ hname => (nomatch hname),hunannounce⟩
    · obtain ⟨rest,rfl⟩ := hcapability
      rw [List.drop_left] at h
      obtain ⟨name,hname,⟨rfl,hmem⟩ | ⟨rfl,hmem⟩⟩ := capabilityHandler_iff.mp h <;>
        refine ⟨fun name' hname' => ?_,(List.prefix_append_right_inj _).mpr hmem⟩ <;>
        cases hname' <;> exact hname
  · rintro ⟨hname,hmem⟩
    cases handler with
    | announce => exact if_pos (startsWith_iff.mpr hmem)
    | unannounce =>
      obtain ⟨rest,rfl⟩ := hmem
      unfold actionHandler
      simp only [startsWith_iff]
      rw [if_neg (by simp [actionText,mqttEdgeActionAnnounce,mqttEdgeActionUnannounce])]
      exact if_pos (List.prefix_append mqttEdgeActionUnannounce rest)
    | capabilityAdd name =>
      obtain ⟨rest,rfl⟩ := hmem
      rw [actionText,List.append_assoc,actionHandler_capability]
      exact capabilityHandler_iff.mpr ⟨name,hname name rfl,Or.inl ⟨rfl,List.prefix_append _ _⟩⟩
    | capabilityRemove name =>
      obtain ⟨rest,rfl⟩ := hmem
      rw [actionText,List.append_assoc,actionHandler_capability]
      exact capabilityHandler_iff.mpr ⟨name,hname name rfl,Or.inr ⟨rfl,List.prefix_append _ _⟩⟩

end Actions

section Topics

variable {currentEui64 eui64 : Eui64} {handler : Handler}

/-- A topic of at least the length of a prefix, in pieces. -/
theorem topic_pieces {topic : List UInt8} (h : 22≤topic.length) :
    ∃ space sep digits sep' rest, topic=space++sep::(digits++sep'::rest) ∧
      space.length=mqttEdgeNamespace.length ∧ digits.length=mqttIdentityLen := by
  obtain ⟨sep,tail,htail⟩ := List.exists_cons_of_length_pos (l:=topic.drop 4) (by simp; omega)
  have hlen : tail.length+5=topic.length := by
    have := congrArg List.length htail
    simp at this
    omega
  obtain ⟨sep',rest,hrest⟩ := List.exists_cons_of_length_pos (l:=tail.drop 16) (by simp; omega)
  refine ⟨topic.take 4,sep,tail.take 16,sep',rest,?_,?_,?_⟩
  · rw [←hrest,List.take_append_drop,←htail,List.take_append_drop]
  · rw [List.length_take,mqttEdgeNamespace]
    simp
    omega
  · rw [List.length_take,mqttIdentityLen]
    omega

/-- The parser looks at an identity as a whole. -/
theorem all_isxdigit_iff {digits : List UInt8} (hlen : digits.length=mqttIdentityLen)
    (rest : List UInt8) :
    ((List.range mqttIdentityLen).all fun i => isxdigit ((digits++rest).getD i 0))=true ↔
      IdentityDigits digits := by
  have hget : ∀ i, ∀ h : i < digits.length, (digits++rest).getD i 0=digits[i] := fun i h => by
    rw [List.getD_eq_getElem?_getD,List.getElem?_append_left h,List.getElem?_eq_getElem h,
      Option.getD_some]
  simp only [List.all_eq_true,List.mem_range]
  constructor
  · refine fun h => ⟨hlen,fun c hc => ?_⟩
    obtain ⟨i,hi,rfl⟩ := List.getElem_of_mem hc
    rw [←hget i hi]
    exact h i (hlen ▸ hi)
  · intro h i hi
    rw [hget i (hlen ▸ hi)]
    exact h.hex _ (List.getElem_mem _)

/-- `mqtt_publish_handler` on a topic in pieces. -/
theorem parseTopic_pieces {p : Publish} {space digits rest : List UInt8} {sep sep' : UInt8}
    (htopic : p.topic=space++sep::(digits++sep'::rest))
    (hspace : space.length=mqttEdgeNamespace.length) (hdigits : digits.length=mqttIdentityLen) :
    parseTopic currentEui64 p=some (eui64,handler) ↔
      space=mqttEdgeNamespace ∧ sep=slash ∧ IdentityDigits digits ∧ identityOf digits=eui64 ∧
        eui64≠currentEui64 ∧ sep'=slash ∧ actionHandler (rest++p.behind)=some handler := by
  have hmem : p.topic++p.behind=space++sep::(digits++sep'::(rest++p.behind)) := by simp [htopic]
  have hlen : ¬(p.topic.length : ℤ)-mqttEdgeNamespace.length<2+mqttIdentityLen := by
    have htotal : p.topic.length=mqttEdgeNamespace.length+mqttIdentityLen+2+rest.length := by
      simp only [htopic,List.length_append,List.length_cons,hspace,hdigits]
      omega
    omega
  have hstart : startsWith (space++sep::(digits++sep'::(rest++p.behind))) mqttEdgeNamespace=
      decide (space=mqttEdgeNamespace) := by
    rw [startsWith,List.take_left' hspace]
  have hdrop : (space++sep::(digits++sep'::(rest++p.behind))).drop mqttEdgeNamespace.length=
      sep::(digits++sep'::(rest++p.behind)) := List.drop_left' hspace
  have htake : (digits++sep'::(rest++p.behind)).take mqttIdentityLen=digits :=
    List.take_left' hdigits
  have hbehind : (digits++sep'::(rest++p.behind)).drop mqttIdentityLen=sep'::(rest++p.behind) :=
    List.drop_left' hdigits
  unfold parseTopic
  dsimp only
  rw [hmem,hstart,hdrop]
  by_cases hns : space=mqttEdgeNamespace
  · rw [if_neg (by simp [hns])]
    by_cases hsep : sep=slash
    · rw [if_neg (not_or.mpr ⟨hlen,by simp [hsep]⟩),List.drop_one,List.tail_cons,htake,hbehind]
      by_cases hid : IdentityDigits digits
      · rw [if_neg (by rw [(all_isxdigit_iff hdigits _).mpr hid]; decide),
          eui64FromStrn_digits hid]
        dsimp only
        by_cases hown : identityOf digits=currentEui64
        · rw [if_pos hown]
          refine iff_of_false (fun h => nomatch h) ?_
          rintro ⟨_,_,_,rfl,hne,_⟩
          exact hne hown
        · rw [if_neg hown]
          by_cases hsep' : sep'=slash
          · rw [if_neg (by simp [hsep'])]
            simp only [List.drop_one,List.tail_cons,Option.map_eq_some_iff,Prod.mk.injEq]
            constructor
            · rintro ⟨handler',hhandler,rfl,rfl⟩
              exact ⟨hns,hsep,hid,rfl,hown,hsep',hhandler⟩
            · rintro ⟨_,_,_,rfl,_,_,hhandler⟩
              exact ⟨handler,hhandler,rfl,rfl⟩
          · rw [if_pos (by simpa using hsep')]
            exact iff_of_false (fun h => nomatch h) fun h => hsep' h.2.2.2.2.2.1
      · rw [if_pos (by rw [Bool.eq_false_iff,ne_eq,all_isxdigit_iff hdigits]; exact hid)]
        exact iff_of_false (fun h => nomatch h) fun h => hid h.2.2.1
    · rw [if_pos (Or.inr (by simpa using hsep))]
      exact iff_of_false (fun h => nomatch h) fun h => hsep h.2.1
  · rw [if_pos (by simpa using hns)]
    exact iff_of_false (fun h => nomatch h) fun h => hns h.1

/-- A topic that is too short for an identity is not looked at any further. -/
theorem parseTopic_short {p : Publish} (h : p.topic.length < 22) :
    parseTopic currentEui64 p=none := by
  have hlen : (p.topic.length : ℤ)-mqttEdgeNamespace.length<2+mqttIdentityLen := by
    simp only [mqttEdgeNamespace,mqttIdentityLen,List.length_cons,List.length_nil]
    omega
  unfold parseTopic
  dsimp only
  split
  · rfl
  · rw [if_pos (Or.inl hlen)]

/-- `mqtt_publish_handler` accepts a topic when it begins with an identity and
when an action begins behind that, in the topic or in the memory behind it. -/
theorem parseTopic_iff {p : Publish} :
    parseTopic currentEui64 p=some (eui64,handler) ↔
      ∃ digits rest, p.topic=topicPrefix digits++rest ∧ IdentityDigits digits ∧
        identityOf digits=eui64 ∧ eui64≠currentEui64 ∧
        actionHandler (rest++p.behind)=some handler := by
  have hbegins : ∀ digits rest, topicPrefix digits++rest=
      mqttEdgeNamespace++slash::(digits++slash::rest) := fun _ _ => by simp [topicPrefix]
  constructor
  · intro h
    by_cases hlen : p.topic.length < 22
    · rw [parseTopic_short hlen] at h
      cases h
    · obtain ⟨space,sep,digits,sep',rest,htopic,hspace,hdigits⟩ := topic_pieces (not_lt.mp hlen)
      obtain ⟨rfl,rfl,hid,heui64,hown,rfl,hhandler⟩ :=
        (parseTopic_pieces htopic hspace hdigits).mp h
      exact ⟨digits,rest,by rw [htopic,hbegins],hid,heui64,hown,hhandler⟩
  · rintro ⟨digits,rest,htopic,hid,heui64,hown,hhandler⟩
    rw [hbegins] at htopic
    exact (parseTopic_pieces htopic rfl hid.length).mpr
      ⟨rfl,rfl,hid,heui64,hown,rfl,hhandler⟩

/-- An identity and what follows it are determined by a topic. -/
theorem topicPrefix_inj {digits digits' rest rest' : List UInt8} (hd : IdentityDigits digits)
    (hd' : IdentityDigits digits') (h : topicPrefix digits++rest=topicPrefix digits'++rest') :
    digits=digits' ∧ rest=rest' := by
  have hlen : (topicPrefix digits).length=(topicPrefix digits').length := by
    simp [topicPrefix,hd.length,hd'.length]
  obtain ⟨hbegins,hrest⟩ := List.append_inj h hlen
  refine ⟨?_,hrest⟩
  simpa [topicPrefix] using hbegins

/-- The parser accepts exactly its grammar: it dispatches on the topics of the
grammar, with what they say, and on no others, whatever follows in memory. -/
def AcceptsExactly (currentEui64 : Eui64) (p : Publish) : Prop :=
  ∀ eui64 handler, parseTopic currentEui64 p=some (eui64,handler) ↔
    InGrammar currentEui64 p.topic eui64 handler

/-- What follows the identity of another node in the topic is read as an action
only if it is one as a whole: no action begins there that ends earlier, or
later in the memory behind the topic, and the name of a capability has no NUL. -/
def ActionsSeparated (currentEui64 : Eui64) (p : Publish) : Prop :=
  ∀ digits rest, p.topic=topicPrefix digits++rest → IdentityDigits digits →
    identityOf digits≠currentEui64 → ∀ handler, (∀ name∈capabilityName handler, NameFits name) →
      (rest=actionText handler → ∀ name∈capabilityName handler, 0∉name) ∧
      (actionText handler<+:rest++p.behind → (∀ name∈capabilityName handler, 0∉name) →
        rest=actionText handler)

/-- **The topic parser and its grammar.** The parser accepts exactly its
grammar on a topic and the memory behind it if and only if the actions that
begin behind the identity are the whole rest of the topic. -/
theorem acceptsExactly_iff (currentEui64 : Eui64) (p : Publish) :
    AcceptsExactly currentEui64 p ↔ ActionsSeparated currentEui64 p := by
  constructor
  · intro h digits rest htopic hid hown handler hname
    refine ⟨fun hrest => ?_,fun hbegins hnul => ?_⟩
    · have hparse := (h (identityOf digits) handler).mpr
        ⟨digits,hid,rfl,hown,hname,by rw [htopic,hrest]⟩
      obtain ⟨digits',rest',htopic',hid',_,_,hhandler⟩ := parseTopic_iff.mp hparse
      exact fun name hmem => ((actionHandler_iff.mp hhandler).1 name hmem).noNul
    · have hhandler := actionHandler_iff.mpr
        ⟨fun name hmem => ⟨hname name hmem,hnul name hmem⟩,hbegins⟩
      obtain ⟨digits',hid',_,_,_,htopic'⟩ := (h (identityOf digits) handler).mp
        (parseTopic_iff.mpr ⟨digits,rest,htopic,hid,rfl,hown,hhandler⟩)
      exact (topicPrefix_inj hid hid' (htopic ▸ htopic')).2
  · intro h eui64 handler
    rw [parseTopic_iff]
    constructor
    · rintro ⟨digits,rest,htopic,hid,rfl,hown,hhandler⟩
      obtain ⟨hname,hbegins⟩ := actionHandler_iff.mp hhandler
      have hfits : ∀ name∈capabilityName handler, NameFits name :=
        fun name hmem => (hname name hmem).toNameFits
      have hrest := (h digits rest htopic hid hown handler hfits).2 hbegins
        fun name hmem => (hname name hmem).noNul
      exact ⟨digits,hid,rfl,hown,hfits,by rw [htopic,hrest]⟩
    · rintro ⟨digits,hid,rfl,hown,hname,htopic⟩
      have hnul := (h digits (actionText handler) htopic hid hown handler hname).1 rfl
      exact ⟨digits,actionText handler,htopic,hid,rfl,hown,actionHandler_iff.mpr
        ⟨fun name hmem => ⟨hname name hmem,hnul name hmem⟩,List.prefix_append _ _⟩⟩

/-- The topic `edge/0000000000000001/announceX` is taken for an announce. -/
theorem not_acceptsExactly_of_garbage :
    ¬AcceptsExactly samplePublishEnv.currentEui64
      (sampleMessage 1 (mqttEdgeActionAnnounce++[0x58]) []) := by
  intro h
  have hparse : parseTopic samplePublishEnv.currentEui64
      (sampleMessage 1 (mqttEdgeActionAnnounce++[0x58]) [])=
        some (Vector.ofFn fun i => if i.val=7 then 1 else 0,.announce) := by decide
  obtain ⟨digits,hid,_,_,_,htopic⟩ := (h _ _).mp hparse
  have hlen := congrArg List.length htopic
  simp [sampleMessage,topicPrefix,actionText,hid.length,mqttIdentityLen] at hlen
  omega

end Topics

end TrustAlloc.MqttTopics
