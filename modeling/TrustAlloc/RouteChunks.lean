import Mathlib.Data.Nat.Digits.Lemmas
import TrustAlloc.Binary64
import TrustAlloc.TaskPackets

/-!
# Chunks of a route on the serial line

A chunk of a route is a packet for the node. The routing application splits its
bytes by a quotient of floating point numbers, encodes each piece on its own
and writes lines that the edge decodes one behind the other. A full buffer of
bytes is split so that the padding of the last piece has no room.
-/

namespace TrustAlloc.RouteChunks

open Base64 Binary64 Keystore MqttPublish TaskPackets TaskResponse TaskResponseRuns
open CapabilityTopics (cString)

section Decimals

/-- A number in decimal digits, as it is formatted. -/
def decimal (v : ℕ) : List UInt8 :=
  if v=0 then [0x30] else (Nat.digits 10 v).reverse.map fun d => UInt8.ofNat (0x30+d)

/-- Digits are bytes from `'0'` on. -/
theorem toNat_digit {d : ℕ} (hd : d < 10) : (UInt8.ofNat (0x30+d)).toNat=0x30+d := by
  rw [UInt8.toNat_ofNat']
  omega

/-- The digits of a number are digits, and there is one at least. -/
theorem decimal_digits (v : ℕ) : (∀ c∈decimal v, isdigit c=true) ∧ decimal v≠[] := by
  unfold decimal
  split
  · exact ⟨fun c hc => List.mem_singleton.mp hc ▸ rfl,List.cons_ne_nil _ _⟩
  · next hv =>
    constructor
    · intro c hc
      obtain ⟨d,hd,rfl⟩ := List.mem_map.mp hc
      have hlt : d < 10 := Nat.digits_lt_base (by decide) (List.mem_reverse.mp hd)
      have htoNat := toNat_digit hlt
      simp only [isdigit,decide_eq_true_eq,UInt8.le_iff_toNat_le,htoNat]
      exact ⟨Nat.le_add_right _ _,by change 0x30+d≤0x39; omega⟩
    · intro hnil
      have hdigits := List.reverse_eq_nil_iff.mp (List.map_eq_nil_iff.mp hnil)
      exact Nat.digits_ne_nil_iff_ne_zero.mpr hv hdigits

/-- A number below a power of ten has no more digits. -/
theorem length_decimal_le_iff {k : ℕ} (hk : 0 < k) (v : ℕ) : (decimal v).length≤k ↔ v < 10^k := by
  unfold decimal
  split_ifs with hv
  · rw [hv]
    exact iff_of_true hk (Nat.pow_pos (by decide))
  · rw [List.length_map,List.length_reverse]
    exact Nat.digits_length_le_iff (by decide) v

/-- There is one digit at least. -/
theorem length_decimal_pos (v : ℕ) : 0 < (decimal v).length :=
  List.length_pos_of_ne_nil (decimal_digits v).2

/-- Below ten there is just one. -/
theorem length_decimal_of_lt {v : ℕ} (h : v < 10) : (decimal v).length=1 :=
  le_antisymm ((length_decimal_le_iff (by decide) v).mpr h) (length_decimal_pos v)

/-- Digits stand for the number whose digits they are. -/
theorem digitsValue_map {digits : List ℕ} (h : ∀ d∈digits, d < 10) :
    digitsValue (digits.reverse.map fun d => UInt8.ofNat (0x30+d))=Nat.ofDigits 10 digits := by
  induction digits with
  | nil => rfl
  | cons d digits ih =>
    have hd := toNat_digit (h d (List.mem_cons_self ..))
    have hrest := ih fun d' hd' => h d' (List.mem_cons_of_mem _ hd')
    unfold digitsValue at hrest ⊢
    rw [List.reverse_cons,List.map_append,List.foldl_append,hrest,Nat.ofDigits_cons]
    simp only [List.map_cons,List.map_nil,List.foldl_cons,List.foldl_nil,hd]
    omega

/-- A number is the value of its digits. -/
theorem digitsValue_decimal (v : ℕ) : digitsValue (decimal v)=v := by
  unfold decimal
  split
  · next hv =>
    rw [hv]
    rfl
  · rw [digitsValue_map fun d hd => Nat.digits_lt_base (by decide) hd,Nat.ofDigits_digits]

/-- A digit is no space and no sign. -/
theorem plain_of_isdigit {c : UInt8} (h : isdigit c=true) :
    isspace c=false ∧ c≠0x2D ∧ c≠0x2B := by
  have hall : ∀ n < 256, isdigit (UInt8.ofNat n)=true →
      isspace (UInt8.ofNat n)=false ∧ UInt8.ofNat n≠0x2D ∧ UInt8.ofNat n≠0x2B := by
    decide +kernel
  have hof : UInt8.ofNat c.toNat=c := by simp
  have hc := hall c.toNat (UInt8.toNat_lt c)
  rw [hof] at hc
  exact hc h

/-- `strtoul` reads a formatted number up to what is no digit. A number that is
too large becomes the largest one. -/
theorem strtoul_decimal (v : ℕ) {c : UInt8} (hc : isdigit c=false) (rest : List UInt8) :
    strtoul (decimal v++c::rest)=(min v ulongMax,c::rest) := by
  obtain ⟨hdigits,hne⟩ := decimal_digits v
  have hvalue := digitsValue_decimal v
  generalize decimal v=digits at hdigits hne hvalue
  obtain ⟨d,tail,rfl⟩ := List.exists_cons_of_ne_nil hne
  obtain ⟨hspace,hminus,hplus⟩ := plain_of_isdigit (hdigits d (List.mem_cons_self ..))
  have htake : (d::tail++c::rest).takeWhile isdigit=d::tail := by
    rw [List.takeWhile_append_of_pos hdigits,List.takeWhile_cons_of_neg (by rw [hc]; decide),
      List.append_nil]
  have hsign : takeSign ((d::tail++c::rest).dropWhile isspace)=(false,d::tail++c::rest) := by
    rw [List.cons_append,List.dropWhile_cons_of_neg (by rw [hspace]; decide)]
    exact (if_neg hminus).trans (if_neg hplus)
  unfold strtoul
  rw [hsign]
  dsimp only
  rw [htake,if_neg (List.cons_ne_nil _ _),hvalue,List.drop_left]
  congr 1
  split
  · next hlarge => exact (min_eq_right hlarge.le).symm
  · next hsmall =>
    rw [if_neg (by decide)]
    exact (min_eq_left (not_lt.mp hsmall)).symm

/-- A number in front of the character that is asked for. -/
theorem numberBefore_decimal (v : ℕ) {c : UInt8} (hc : isdigit c=false) (rest : List UInt8) :
    numberBefore c (decimal v++c::rest)=some (min v ulongMax,rest) := by
  unfold numberBefore
  rw [strtoul_decimal v hc]
  exact if_neg (not_not.mpr rfl)

end Decimals

section Client

variable {α : Type}

/-- `NAME`: "routing". -/
def routingName : List UInt8 := [0x72,0x6F,0x75,0x74,0x69,0x6E,0x67]

/-- `application_edge_marker`, which is `APPLICATION_SERIAL_PREFIX`: '@'. -/
def applicationEdgeMarker : UInt8 := 0x40

/-- `APPLICATION_SERIAL_APP`: "app". -/
def applicationSerialApp : List UInt8 := [0x61,0x70,0x70]

/-- `message_prefix`. -/
def messagePrefix : List UInt8 := applicationEdgeMarker::routingName++[serialSep]

/-- `task_resp2_prefix`. -/
def taskResp2Prefix : List UInt8 := applicationSerialApp++serialSep::resp2Action++[serialSep]

/-- `max_serial_len`. -/
def maxSerialLen : ℕ := 127

/-- `assumed_serial_write_overhead`. -/
def assumedSerialWriteOverhead : ℕ := (messagePrefix++taskResp2Prefix).length+1+2+6+4+1

/-- `elements_per_serial_write`, the integer part of a quotient whose divisor
is the quotient `num_serial_writes`. -/
def elementsPerSerialWrite (cborEncoded : List UInt8) : ℕ :=
  let b64Encoded := b64encode cborEncoded
  let numSerialWrites := div b64Encoded.length (maxSerialLen-assumedSerialWriteOverhead : ℕ)
  ⌊div cborEncoded.length numSerialWrites⌋.toNat

/-- `chunked` of the iteration tools. -/
def chunked (n : ℕ) (l : List α) : List (List α) :=
  (List.range ((l.length+n-1)/n)).map fun k => (l.drop (k*n)).take n

/-- The data of a line, `<i>/<n>|<j>/<m>|<base64>`. -/
def partText (place : Place) (chunk : List UInt8) : List UInt8 :=
  decimal place.i++slash::(decimal place.n++serialSep::(decimal place.j++slash::
    (decimal place.m++serialSep::b64encode chunk)))

/-- `_write_to_application`, without the newline that ends the line. -/
def writeToApplication (message : List UInt8) : List UInt8 := messagePrefix++message

/-- `_write_task_result_chunk`: the lines for the encoded bytes of a chunk. -/
def writeTaskResultChunk (i n : ℕ) (cborEncoded : List UInt8) : List (List UInt8) :=
  let chunks := chunked (elementsPerSerialWrite cborEncoded) cborEncoded
  chunks.mapIdx fun j chunk =>
    writeToApplication (taskResp2Prefix++partText ⟨i,n,j,chunks.length⟩ chunk)

end Client

section Edge

/-- `APPLICATION_NAME_MAX_LEN`. -/
def applicationNameMaxLen : ℕ := 8

/-- `APPLICATION_SERIAL_START`. -/
def applicationSerialStart : List UInt8 := [0x73,0x74,0x61,0x72,0x74]

/-- `APPLICATION_SERIAL_STOP`. -/
def applicationSerialStop : List UInt8 := [0x73,0x74,0x6F,0x70]

/-- `EDGE_SERIAL_PREFIX`: '!'. -/
def edgeSerialPrefix : UInt8 := 0x21

/-- What the edge makes of a line. -/
inductive SerialMessage where
  /-- An application has started. -/
  | start (name : List UInt8)
  /-- An application has stopped. -/
  | stop (name : List UInt8)
  /-- Data for the process of an application. -/
  | app (name data : List UInt8)
  /-- A message about the resource rich node itself. -/
  | edge (data : List UInt8)
  /-- Nothing; only logged. -/
  | ignored

/-- `process_application_serial_message`, for the given `application_names`. -/
def processApplicationSerialMessage (applicationNames : List (List UInt8)) (data : List UInt8) :
    SerialMessage :=
  match strchr data serialSep with
  | none => .ignored
  | some length =>
    if length=0 ∨ applicationNameMaxLen < length then .ignored
    else
      let name := data.take length
      let data := data.drop (length+1)
      if applicationNames.contains name=false then .ignored
      else if matchAction data applicationSerialStart=true then .start name
      else if matchAction data applicationSerialStop=true then .stop name
      else if matchAction data applicationSerialApp=true then
        .app name (data.drop applicationSerialApp.length)
      else .ignored

/-- `process_serial_message`. -/
def processSerialMessage (applicationNames : List (List UInt8)) (data : List UInt8) :
    SerialMessage :=
  if matchAction data [applicationEdgeMarker]=true then
    processApplicationSerialMessage applicationNames (data.drop 1)
  else if matchAction data [edgeSerialPrefix]=true then .edge (data.drop 1)
  else .ignored

variable {D : Type}

/-- The state behind a line that `process_task_resp2` accepts. -/
def acceptLine (env : Env D) (applicationNames : List (List UInt8)) (sending : Sending)
    (s : State) (line : List UInt8) : Option State :=
  match processSerialMessage applicationNames line with
  | .app name data =>
    if name=routingName then
      match lineAction data with
      | some (.resp2 data) =>
        let (s,accepted) := processTaskResp2 env sending s data
        if accepted=true then some s else none
      | _ => none
    else none
  | _ => none

/-- The state behind lines that are accepted one after the other. -/
def acceptLines (env : Env D) (applicationNames : List (List UInt8)) (sending : Sending)
    (s : State) (lines : List (List UInt8)) : Option State :=
  lines.foldlM (acceptLine env applicationNames sending) s

/-- An accepted line is processed as any other line is. -/
theorem acceptLine_spec {env : Env D} {names : List (List UInt8)} {sending : Sending}
    {s s' : State} {line : List UInt8} (h : acceptLine env names sending s line=some s') :
    ∃ data, processSerialMessage names line=.app routingName data ∧
      routingTaskrespProcessSerialInput env sending s data=some s' := by
  unfold acceptLine at h
  split at h
  · next name data hmessage =>
    split at h
    · next hname =>
      split at h
      · next data' haction =>
        refine ⟨data,hname ▸ hmessage,?_⟩
        unfold routingTaskrespProcessSerialInput processAction
        rw [haction]
        dsimp only at h ⊢
        split at h
        · next haccepted =>
          cases h
          rw [←Prod.eta (processTaskResp2 env sending s data'),haccepted]
          rfl
        · cases h
      · cases h
    · cases h
  · cases h

end Edge

section Pieces

variable {α : Type}

/-- What there is room for in a line, by the assumed overhead. -/
theorem room_eq : maxSerialLen-assumedSerialWriteOverhead=94 := rfl

/-- The size of a piece is a quotient of lengths, rounded twice and cut. -/
theorem elementsPerSerialWrite_eq (bytes : List UInt8) : elementsPerSerialWrite bytes=
    ⌊div (bytes.length : ℚ) (div ((4*((bytes.length+2)/3) : ℕ) : ℚ) (94 : ℕ))⌋.toNat := by
  unfold elementsPerSerialWrite
  dsimp only
  rw [room_eq,length_b64encode]

/-- A piece has one byte at least. -/
theorem elementsPerSerialWrite_pos {bytes : List UInt8} (hbytes : bytes≠[]) :
    0 < elementsPerSerialWrite bytes := by
  have hlen : 0 < bytes.length := List.length_pos_of_ne_nil hbytes
  have hle : 4*((bytes.length+2)/3)≤4*bytes.length := by omega
  have hle' : ((4*((bytes.length+2)/3) : ℕ) : ℚ)≤((4*bytes.length : ℕ) : ℚ) := by exact_mod_cast hle
  have hpos : (0 : ℚ) < bytes.length := by exact_mod_cast hlen
  have hb : (0 : ℚ) < ((4*((bytes.length+2)/3) : ℕ) : ℚ) := by exact_mod_cast (by omega)
  have hfloor : 1≤⌊div (bytes.length : ℚ) (div ((4*((bytes.length+2)/3) : ℕ) : ℚ) (94 : ℕ))⌋ := by
    refine le_floor_div_div hpos hb (by norm_num) (by decide) ?_
    push_cast at hle' ⊢
    linarith
  rw [elementsPerSerialWrite_eq]
  exact Int.lt_toNat.mpr (by exact_mod_cast hfloor)

/-- The two longest chunks are split into four pieces each. -/
theorem elementsPerSerialWrite_full (bytes : List UInt8) :
    (bytes.length=255 → elementsPerSerialWrite bytes=70) ∧
      (bytes.length=256 → elementsPerSerialWrite bytes=69) := by
  constructor
  · intro hlen
    have hfloor : ⌊div ((255 : ℕ) : ℚ) (div ((4*((255+2)/3) : ℕ) : ℚ) (94 : ℕ))⌋=70 :=
      floor_div_div (by norm_num) (by norm_num) (by norm_num) (by decide) (by norm_num)
        (by norm_num)
    rw [elementsPerSerialWrite_eq,hlen,hfloor]
    rfl
  · intro hlen
    have hfloor : ⌊div ((256 : ℕ) : ℚ) (div ((4*((256+2)/3) : ℕ) : ℚ) (94 : ℕ))⌋=69 :=
      floor_div_div (by norm_num) (by norm_num) (by norm_num) (by decide) (by norm_num)
        (by norm_num)
    rw [elementsPerSerialWrite_eq,hlen,hfloor]
    rfl

/-- Pieces that are decoded one behind the other have room for their padding. -/
def Fits : ℕ → List ℕ → Prop
  | _,[] => True
  | offset,length::lengths =>
    offset+(length+2)/3*3≤ coapMaxChunkSize ∧ Fits (offset+length) lengths

/-- Room is decided piece by piece. -/
instance decidableFits : ∀ offset lengths, Decidable (Fits offset lengths)
  | _,[] => .isTrue trivial
  | offset,length::lengths =>
    have := decidableFits (offset+length) lengths
    inferInstanceAs (Decidable (_ ∧ Fits (offset+length) lengths))

/-- Two bytes of room behind them are enough for any pieces. -/
theorem fits_of_sum_le {lengths : List ℕ} {offset : ℕ}
    (h : offset+lengths.sum+2≤ coapMaxChunkSize) : Fits offset lengths := by
  induction lengths generalizing offset with
  | nil => trivial
  | cons length lengths ih =>
    rw [List.sum_cons] at h
    exact ⟨by omega,ih (by omega)⟩

/-- The lengths of pieces. -/
theorem map_length_chunked (n : ℕ) (l : List α) : (chunked n l).map List.length=
    (List.range ((l.length+n-1)/n)).map fun k => min n (l.length-k*n) := by
  simp only [chunked,List.map_map,Function.comp_def,List.length_take,List.length_drop]

/-- The pieces of a list by their numbers. -/
theorem getElem_chunked (n : ℕ) (l : List α) (k : ℕ) (hk : k < (chunked n l).length) :
    (chunked n l)[k]=(l.drop (k*n)).take n := by
  simp only [chunked,List.getElem_map,List.getElem_range]

/-- How many there are. -/
theorem length_chunked (n : ℕ) (l : List α) :
    (chunked n l).length=(l.length+n-1)/n := by
  rw [chunked,List.length_map,List.length_range]

/-- There is one at least. -/
theorem length_chunked_pos {n : ℕ} (hn : 0 < n) {l : List α} (hl : l≠[]) :
    0 < (chunked n l).length := by
  have hpos := List.length_pos_of_ne_nil hl
  rw [length_chunked]
  exact Nat.div_pos (by omega) hn

/-- Pieces are not empty. -/
theorem ne_nil_of_mem_chunked {n : ℕ} (hn : 0 < n) {l chunk : List α} (h : chunk∈chunked n l) :
    chunk≠[] := by
  obtain ⟨k,hk,rfl⟩ := List.mem_map.mp h
  have hlt : k < (l.length+n-1)/n := List.mem_range.mp hk
  have hmul : (k+1)*n≤l.length+n-1 := (Nat.le_div_iff_mul_le hn).mp hlt
  rw [Nat.succ_mul] at hmul
  refine List.ne_nil_of_length_pos ?_
  rw [List.length_take,List.length_drop]
  omega

/-- The first pieces together. -/
theorem flatten_range_chunked (n : ℕ) (l : List α) (k : ℕ) :
    ((List.range k).map fun k => (l.drop (k*n)).take n).flatten=l.take (k*n) := by
  induction k with
  | zero => simp
  | succ k ih =>
    rw [List.range_succ,List.map_append,List.flatten_append,ih,Nat.succ_mul,List.take_add]
    simp

/-- There are no more pieces than bytes. -/
theorem length_chunked_le {n : ℕ} (hn : 0 < n) {l : List α} (hl : l≠[]) :
    (chunked n l).length≤l.length := by
  obtain ⟨k,rfl⟩ := Nat.exists_eq_succ_of_ne_zero hn.ne'
  have hpos := List.length_pos_of_ne_nil hl
  rw [length_chunked]
  refine Nat.div_le_of_le_mul ?_
  have hmul : k*1≤k*l.length := Nat.mul_le_mul_left k hpos
  rw [Nat.succ_mul]
  omega

/-- All pieces together are the bytes. -/
theorem flatten_chunked {n : ℕ} (hn : 0 < n) (l : List α) : (chunked n l).flatten=l := by
  have hmul : l.length≤(l.length+n-1)/n*n := by
    have hdiv := Nat.div_add_mod (l.length+n-1) n
    have hmod := Nat.mod_lt (l.length+n-1) hn
    rw [Nat.mul_comm] at hdiv
    omega
  rw [chunked,flatten_range_chunked,List.take_of_length_le hmul]

/-- Up to a full buffer, the pieces of a chunk have room exactly if the chunk
is not as long as the buffer. -/
theorem fits_chunked_iff {bytes : List UInt8} (hbytes : bytes≠[])
    (hlen : bytes.length≤ coapMaxChunkSize) :
    Fits 0 ((chunked (elementsPerSerialWrite bytes) bytes).map List.length) ↔
      bytes.length≤255 := by
  have hpos := elementsPerSerialWrite_pos hbytes
  obtain ⟨h255,h256⟩ := elementsPerSerialWrite_full bytes
  rcases Nat.lt_or_ge bytes.length 255 with hshort | hlong
  · refine iff_of_true (fits_of_sum_le ?_) hshort.le
    rw [←List.length_flatten,flatten_chunked hpos,coapMaxChunkSize]
    omega
  · rw [map_length_chunked]
    rcases Nat.lt_or_ge 255 bytes.length with hfull | hshort
    · have hfull' : bytes.length=256 := le_antisymm hlen hfull
      rw [h256 hfull',hfull']
      decide
    · have hlast : bytes.length=255 := le_antisymm hshort hlong
      rw [h255 hlast,hlast]
      decide

end Pieces

section Lines

variable {D : Type} {names : List (List UInt8)} {place : Place} {chunk : List UInt8}

/-- What the numbers of a place are read as. -/
def readPlace (place : Place) : Place :=
  ⟨min place.i ulongMax,min place.n ulongMax,min place.j ulongMax,min place.m ulongMax⟩

/-- No character of a line ends a string. -/
theorem zero_notMem_partText (place : Place) (chunk : List UInt8) : 0∉partText place chunk := by
  have hdecimal : ∀ v, 0∉decimal v := fun v hzero => by
    have hdigit := (decimal_digits v).1 0 hzero
    exact absurd hdigit (by decide)
  have hencoded : 0∉b64encode chunk := fun hzero =>
    dtable_of_mem_b64encode chunk 0 hzero (by decide)
  simp [partText,hdecimal,hencoded,slash,serialSep]

/-- A formatted line is parsed as what was formatted. -/
theorem parseResp2_partText (place : Place) (chunk : List UInt8) :
    parseResp2 (partText place chunk)=some (readPlace place,b64encode chunk) := by
  have hslash : isdigit slash=false := by decide
  have hsep : isdigit serialSep=false := by decide
  unfold parseResp2 partText
  simp only [numberBefore_decimal _ hslash,numberBefore_decimal _ hsep,Option.bind_eq_bind,
    Option.bind_some]
  rfl

/-- A line of a chunk reaches `process_task_resp2`. -/
theorem acceptLine_part (env : Env D) (sending : Sending) (hname : routingName∈names) (s : State)
    (place : Place) (chunk : List UInt8) :
    acceptLine env names sending s (writeToApplication (taskResp2Prefix++partText place chunk))=
      if (processTaskResp2 env sending s (partText place chunk)).2=true
        then some (processTaskResp2 env sending s (partText place chunk)).1 else none := by
  have hzero := zero_notMem_partText place chunk
  generalize partText place chunk=text at hzero
  have hmessage : processSerialMessage names
      (writeToApplication (taskResp2Prefix++text))=
        .app routingName (serialSep::(resp2Action++serialSep::text)) := by
    have hstrchr : strchr (routingName++serialSep::(applicationSerialApp++serialSep::
        (resp2Action++serialSep::text))) serialSep=some routingName.length := rfl
    change processApplicationSerialMessage names (routingName++serialSep::
      (applicationSerialApp++serialSep::(resp2Action++serialSep::text)))=_
    unfold processApplicationSerialMessage
    rw [hstrchr]
    dsimp only
    rw [if_neg (by decide),List.take_left,if_neg (by simp [hname])]
    rfl
  have haction : lineAction (serialSep::(resp2Action++serialSep::text))=some (.resp2 text) := by
    have hplain : 0∉serialSep::(resp2Action++serialSep::text) := by
      simp [hzero,serialSep,resp2Action]
    have hstring : cString (serialSep::(resp2Action++serialSep::text))=
        serialSep::(resp2Action++serialSep::text) :=
      List.takeWhile_eq_self_iff.mpr fun b hb => decide_eq_true fun h => hplain (h ▸ hb)
    unfold lineAction
    rw [hstring]
    rfl
  unfold acceptLine
  rw [hmessage]
  dsimp only
  rw [if_pos rfl,haction]

end Lines

section Pipeline

variable {D : Type} {env : Env D} {names : List (List UInt8)} {sending : Sending} {s s' : State}
  {bytes chunk : List UInt8} {place : Place} {i n : ℕ}

/-- The buffer holds the bytes of earlier parts, and the lock is free. -/
structure Filled (bytes : List UInt8) (s : State) : Prop where
  /-- Size of the buffer. -/
  size : s.msgBuf.length=coapMaxChunkSize
  /-- The offset is behind the bytes. -/
  offset : s.msgBufOffset=bytes.length
  /-- The bytes. -/
  bytes : s.msgBuf.take s.msgBufOffset=bytes
  /-- The lock. -/
  free : s.coapCallbackInUse.locked=false

/-- A packet was sent, and the next one starts at the beginning. -/
structure SentPacket (s s' : State) (payload : List UInt8) (block1 : Option (ℕ×Bool×ℕ)) :
    Prop where
  /-- There is one accepted request more. -/
  requests : s'.requests=s.requests++[⟨s.ep,payload,block1⟩]
  /-- The offset. -/
  offset : s'.msgBufOffset=0

/-- Bytes in the buffer are not more than its size. -/
theorem Filled.length_le (h : Filled bytes s) : bytes.length≤ coapMaxChunkSize := by
  have hlen := congrArg List.length h.bytes
  rw [List.length_take,h.offset,h.size] at hlen
  omega

/-- A piece without room for its padding is refused. -/
theorem Filled.refused (env : Env D) (sending : Sending) (place : Place) (h : Filled bytes s)
    (hfull : coapMaxChunkSize < bytes.length+(chunk.length+2)/3*3) :
    (processTaskResp2 env sending s (partText place chunk)).2=false := by
  have hle := h.length_le
  have hdecode : (decodePart s (b64encode chunk)).ok=false := by
    rw [decodePart,h.offset,base64Decode_b64encode_full (by omega)]
  unfold processTaskResp2
  rw [parseResp2_partText]
  dsimp only
  rw [if_pos hdecode]

/-- A piece with room is stored behind the others. -/
theorem Filled.store (h : Filled bytes s) (hchunk : chunk≠[])
    (hroom : bytes.length+(chunk.length+2)/3*3≤ coapMaxChunkSize) :
    (decodePart s (b64encode chunk)).ok=true ∧
      Filled (bytes++chunk) (storePart s (decodePart s (b64encode chunk))) := by
  have hbounds := (decodePart_bounds s (b64encode chunk)).1
  have hpadded : (chunk.length+2)/3*3≤ coapMaxChunkSize-s.msgBufOffset := by
    rw [h.offset]
    omega
  obtain ⟨hok,hbytes,hlen⟩ := base64Decode_b64encode hchunk hpadded
  change (decodePart s (b64encode chunk)).ok=true at hok
  change (decodePart s (b64encode chunk)).bytes=chunk at hbytes
  change (decodePart s (b64encode chunk)).outLen=chunk.length at hlen
  generalize decodePart s (b64encode chunk)=part at hbounds hok hbytes hlen ⊢
  have hsize := h.size
  have hoffset := h.offset
  have hstored : part.outLen≤part.stored.length := by
    have htake := congrArg List.length hbytes
    rw [Decoded.bytes,List.length_take] at htake
    omega
  have hnext : (storePart s part).msgBufOffset=s.msgBufOffset+part.outLen := if_pos hok
  refine ⟨hok,(length_overwrite (by omega)).trans hsize,?_,?_,h.free⟩
  · rw [hnext,List.length_append]
    omega
  · rw [hnext]
    refine (take_overwrite (by omega) hstored).trans ?_
    rw [h.bytes]
    exact congrArg (bytes++·) hbytes

/-- A piece that is not the last one is accepted. -/
theorem Filled.next (env : Env D) (sending : Sending) (h : Filled bytes s) (hchunk : chunk≠[])
    (hroom : bytes.length+(chunk.length+2)/3*3≤ coapMaxChunkSize)
    (hlast : (readPlace place).last=false) :
    let out := processTaskResp2 env sending s (partText place chunk)
    out.2=true ∧ Filled (bytes++chunk) out.1 ∧ out.1.requests=s.requests ∧ out.1.ep=s.ep := by
  obtain ⟨hok,hfilled⟩ := h.store hchunk hroom
  unfold processTaskResp2 continuePacket
  rw [parseResp2_partText]
  dsimp only
  rw [if_neg (by rw [hok]; decide),if_neg (by rw [hlast]; decide)]
  exact ⟨rfl,⟨hfilled.size,hfilled.offset,hfilled.bytes,hfilled.free⟩,rfl,rfl⟩

/-- The last piece is accepted if the request is, which carries all bytes. -/
theorem Filled.send (env : Env D) (sending : Sending) (h : Filled bytes s) (hchunk : chunk≠[])
    (hroom : bytes.length+(chunk.length+2)/3*3≤ coapMaxChunkSize)
    (hlast : (readPlace place).last=true) :
    let out := processTaskResp2 env sending s (partText place chunk)
    out.2=sending.accepts ∧ (sending.accepts=true →
      SentPacket s out.1 (bytes++chunk)
        (coapBlock1 env (readPlace place).i (readPlace place).n)) := by
  obtain ⟨hok,hfilled⟩ := h.store hchunk hroom
  have hfree : ¬(storePart s (decodePart s (b64encode chunk))).coapCallbackInUse.locked=true := by
    rw [hfilled.free]
    decide
  unfold processTaskResp2 continuePacket
  rw [parseResp2_partText]
  dsimp only
  rw [if_neg (by rw [hok]; decide),if_pos hlast]
  unfold processTaskRespSendSuccess sendRequest
  rw [if_neg hfree,hfilled.bytes]
  split
  · next haccepts => exact ⟨haccepts.symm,fun _ => ⟨rfl,rfl⟩⟩
  · next hrefused =>
    exact ⟨(Bool.eq_false_of_not_eq_true hrefused).symm,fun haccepts => absurd haccepts hrefused⟩

/-- Whether a piece is the last one is read as it was formatted. -/
theorem last_readPlace {j m : ℕ} (hj : j < m) (hm : m≤ulongMax) :
    (readPlace ⟨i,n,j,m⟩).last=decide (j+1=m) := by
  unfold readPlace Place.last
  dsimp only
  rw [min_eq_left (by omega),min_eq_left hm,Nat.mod_eq_of_lt (by omega)]

/-- The lines of pieces from a number on. -/
def partLines (i n m j : ℕ) (chunks : List (List UInt8)) : List (List UInt8) :=
  chunks.mapIdx fun k chunk => writeToApplication (taskResp2Prefix++partText ⟨i,n,j+k,m⟩ chunk)

/-- The first line, and the other ones. -/
theorem partLines_cons (i n m j : ℕ) (chunk : List UInt8) (chunks : List (List UInt8)) :
    partLines i n m j (chunk::chunks)=
      writeToApplication (taskResp2Prefix++partText ⟨i,n,j,m⟩ chunk)::
        partLines i n m (j+1) chunks := by
  unfold partLines
  rw [List.mapIdx_cons]
  congr 2
  funext k chunk
  rw [Nat.add_assoc j 1 k,Nat.add_comm 1 k]

/-- Lines are accepted exactly if their pieces have room and the request is
accepted in the end; then all bytes are in the request. -/
theorem accept_partLines (env : Env D) (sending : Sending) (i n : ℕ)
    (hname : routingName∈names) {m : ℕ} (hm : m≤ulongMax) {chunks : List (List UInt8)}
    (hchunks : chunks≠[]) (hne : ∀ chunk∈chunks, chunk≠[]) {j : ℕ} (hj : j+chunks.length=m)
    (h : Filled bytes s) :
    let out := acceptLines env names sending s (partLines i n m j chunks)
    (out.isSome=true ↔ Fits bytes.length (chunks.map List.length) ∧ sending.accepts=true) ∧
      ∀ s'∈out, SentPacket s s' (bytes++chunks.flatten)
        (coapBlock1 env (min i ulongMax) (min n ulongMax)) := by
  induction chunks generalizing j bytes s with
  | nil => exact absurd rfl hchunks
  | cons chunk chunks ih =>
    have hchunk := hne chunk (List.mem_cons_self ..)
    rw [List.length_cons] at hj
    have hlast : (readPlace ⟨i,n,j,m⟩).last=decide (j+1=m) := last_readPlace (by omega) hm
    dsimp only
    rw [acceptLines,partLines_cons,List.foldlM_cons,acceptLine_part env sending hname]
    by_cases hroom : bytes.length+(chunk.length+2)/3*3≤ coapMaxChunkSize
    · by_cases hnil : chunks=[]
      · subst hnil
        rw [decide_eq_true (by simpa using hj)] at hlast
        obtain ⟨haccepts,hsent⟩ := h.send env sending hchunk hroom hlast
        rw [haccepts]
        cases hsending : sending.accepts with
        | false => exact ⟨by simp,by simp⟩
        | true =>
          refine ⟨iff_of_true rfl ⟨⟨hroom,trivial⟩,rfl⟩,fun s' hs' => ?_⟩
          cases hs'
          rw [List.flatten_singleton]
          exact hsent hsending
      · have hpos := List.length_pos_of_ne_nil hnil
        rw [decide_eq_false (by omega)] at hlast
        obtain ⟨haccepted,hfilled,hrequests,hep⟩ :=
          h.next env sending hchunk hroom hlast
        obtain ⟨hiff,hsent⟩ := ih hnil (fun c hc => hne c (List.mem_cons_of_mem _ hc))
          (j:=j+1) (by omega) hfilled
        rw [if_pos haccepted,Option.bind_eq_bind,Option.bind_some]
        refine ⟨hiff.trans ?_,fun s' hs' => ?_⟩
        · rw [List.length_append]
          exact and_congr_left' ⟨fun hfits => ⟨hroom,hfits⟩,fun hfits => hfits.2⟩
        · obtain ⟨hreq,hoff⟩ := hsent s' hs'
          refine ⟨?_,hoff⟩
          rw [hreq,hrequests,hep,List.flatten_cons,List.append_assoc]
    · have hrefused := h.refused env sending ⟨i,n,j,m⟩ (not_le.mp hroom)
      rw [if_neg (by rw [hrefused]; decide),Option.bind_eq_bind,Option.bind_none]
      exact ⟨iff_of_false (by decide) fun hfits => hroom hfits.1.1,fun s' hs' => nomatch hs'⟩

/-- The block header is set exactly for the numbers that it has room for. -/
def SetsBlocks (env : Env D) : Prop :=
  ∀ num more, env.coapSetHeaderBlock1 num more 256=true ↔ num≤0xFFFFF

/-- A chunk is delivered: all its lines are accepted, and a request was sent
with exactly its bytes, as the block of its number, with the more flag unless
it is the last chunk; the next packet starts at the beginning. -/
def Delivered (env : Env D) (names : List (List UInt8)) (sending : Sending) (s : State) (i n : ℕ)
    (cborEncoded : List UInt8) : Prop :=
  ∃ s', acceptLines env names sending s (writeTaskResultChunk i n cborEncoded)=some s' ∧
    SentPacket s s' cborEncoded (some (i,decide (i+1≠n),256))

/-- The block header is the one of the chunk exactly if its number has room. -/
theorem coapBlock1_iff (hset : SetsBlocks env) (i n : ℕ) :
    coapBlock1 env (min i ulongMax) (min n ulongMax)=some (i,decide (i+1≠n),256) ↔
      i≤0xFFFFF := by
  have hmax : ulongMax=4294967295 := rfl
  unfold coapBlock1
  by_cases hi : i≤0xFFFFF
  · have hread : min i ulongMax=i := min_eq_left (by omega)
    have hnext : (i+1)%(ulongMax+1)=i+1 := Nat.mod_eq_of_lt (by omega)
    have hmore : decide (i+1≠min n ulongMax)=decide (i+1≠n) :=
      decide_eq_decide.mpr (not_congr (by omega))
    rw [hread,hnext,hmore]
    exact iff_of_true (if_pos ((hset _ _).mpr hi)) hi
  · refine iff_of_false (fun hblock => ?_) hi
    dsimp only at hblock
    rw [if_neg fun hnum => hi (by have := (hset _ _).mp hnum; omega)] at hblock
    cases hblock

/-- The lines of a chunk are accepted exactly if it is shorter than the buffer
and the request is accepted. -/
theorem accept_writeTaskResultChunk (env : Env D) (sending : Sending) (hname : routingName∈names)
    (h : Filled [] s) (i n : ℕ) {cborEncoded : List UInt8} (hne : cborEncoded≠[])
    (hlen : cborEncoded.length≤256) :
    let out := acceptLines env names sending s (writeTaskResultChunk i n cborEncoded)
    (out.isSome=true ↔ cborEncoded.length≤255 ∧ sending.accepts=true) ∧
      ∀ s'∈out, SentPacket s s' cborEncoded
        (coapBlock1 env (min i ulongMax) (min n ulongMax)) := by
  have hpos := elementsPerSerialWrite_pos hne
  have hflatten := flatten_chunked hpos cborEncoded
  have hfits := fits_chunked_iff hne hlen
  have hcount : (chunked (elementsPerSerialWrite cborEncoded) cborEncoded).length≤ulongMax :=
    (length_chunked_le hpos hne).trans (hlen.trans (by decide))
  have hpieces : ∀ chunk∈chunked (elementsPerSerialWrite cborEncoded) cborEncoded, chunk≠[] :=
    fun chunk hchunk => ne_nil_of_mem_chunked hpos hchunk
  have hlines : writeTaskResultChunk i n cborEncoded=
      partLines i n (chunked (elementsPerSerialWrite cborEncoded) cborEncoded).length 0
        (chunked (elementsPerSerialWrite cborEncoded) cborEncoded) := by
    simp only [writeTaskResultChunk,partLines,Nat.zero_add]
  dsimp only
  rw [hlines]
  generalize chunked (elementsPerSerialWrite cborEncoded) cborEncoded=chunks
    at hflatten hfits hcount hpieces
  have hchunks : chunks≠[] := fun hnil => hne (by rw [←hflatten,hnil]; rfl)
  obtain ⟨hiff,hsent⟩ := accept_partLines env sending i n hname hcount hchunks hpieces
    (Nat.zero_add _) h
  rw [List.nil_append,hflatten] at hsent
  exact ⟨hiff.trans (and_congr_left' hfits),hsent⟩

/-- **Chunks of a route.** Written to an edge that has no parts waiting and no
request under way, a chunk is delivered exactly if it is shorter than the
buffer, its number fits a block header and the request is accepted. -/
theorem delivered_iff (hset : SetsBlocks env) (hname : routingName∈names)
    (hsize : s.msgBuf.length=coapMaxChunkSize) (hoffset : s.msgBufOffset=0)
    (hfree : s.coapCallbackInUse.locked=false) (i n : ℕ) {cborEncoded : List UInt8}
    (hne : cborEncoded≠[]) (hlen : cborEncoded.length≤256) :
    Delivered env names sending s i n cborEncoded ↔
      cborEncoded.length≤255 ∧ i≤0xFFFFF ∧ sending.accepts=true := by
  have hfilled : Filled [] s := ⟨hsize,hoffset,by rw [hoffset]; rfl,hfree⟩
  obtain ⟨hiff,hsent⟩ := accept_writeTaskResultChunk env sending hname hfilled i n hne hlen
  constructor
  · rintro ⟨s',haccepted,hpacket⟩
    obtain ⟨hshort,haccepts⟩ := hiff.mp (by rw [haccepted]; rfl)
    have hrequests := (hsent s' haccepted).requests
    rw [hpacket.requests] at hrequests
    have hmessage := List.append_cancel_left hrequests
    have hblock := congrArg (List.map Message.block1) hmessage
    rw [List.map_singleton,List.map_singleton,List.cons.injEq] at hblock
    exact ⟨hshort,(coapBlock1_iff hset i n).mp hblock.1.symm,haccepts⟩
  · rintro ⟨hshort,hi,haccepts⟩
    obtain ⟨s',haccepted⟩ := Option.isSome_iff_exists.mp (hiff.mpr ⟨hshort,haccepts⟩)
    refine ⟨s',haccepted,?_⟩
    rw [←(coapBlock1_iff hset i n).mpr hi]
    exact hsent s' haccepted

end Pipeline

section Routes

/-- A number of a route as `cbor2` encodes it, in half or single precision. -/
inductive Coordinate where
  /-- The bits of a number that half precision has room for. -/
  | half (bits : ℕ)
  /-- The bits of another one. -/
  | single (bits : ℕ)

/-- The canonical encoding of a number. -/
def Coordinate.encode : Coordinate → List UInt8
  | .half bits => 0xF9::Cbor.bigEndian 2 bits
  | .single bits => 0xFA::Cbor.bigEndian 4 bits

/-- The canonical encoding of a route or of a chunk of one, a list of pairs. -/
def encodeRoute (routeChunk : List (Coordinate×Coordinate)) : List UInt8 :=
  Cbor.head 4 routeChunk.length++
    routeChunk.flatMap fun p => Cbor.head 4 2++(p.1.encode++p.2.encode)

/-- What is relied on of `cbor2.encoder.dumps` with `canonical=True`, on routes
and their chunks. -/
def CanonicalRoutes (dumps : List (Coordinate×Coordinate) → List UInt8) : Prop :=
  ∀ routeChunk, dumps routeChunk=encodeRoute routeChunk

/-- Two places, at 52.384, -1.561 and at 52.5, -1.561. -/
def samplePlaces : (Coordinate×Coordinate)×(Coordinate×Coordinate) :=
  ((.single 0x42518937,.single 0xBFC7CED9),(.half 0x5290,.single 0xBFC7CED9))

/-- A chunk with a place of either kind. -/
theorem delivered_iff_sample : Delivered sampleEnv [routingName] ⟨true,0⟩ (routingTaskrespInit 128)
    0 2 (encodeRoute [samplePlaces.1,samplePlaces.2]) :=
  (delivered_iff (fun num _ => decide_eq_true_iff) (List.mem_singleton_self _)
    (List.length_replicate ..) rfl rfl 0 2 (by decide) (by decide)).mpr ⟨by decide,by decide,rfl⟩

/-- Twenty-four places fill the buffer, and are not delivered. -/
theorem not_delivered_of_full :
    (encodeRoute (.replicate 19 samplePlaces.1++.replicate 5 samplePlaces.2)).length=256 ∧
      SetsBlocks sampleEnv ∧
        ¬Delivered sampleEnv [routingName] ⟨true,0⟩ (routingTaskrespInit 128) 0 2
          (encodeRoute (.replicate 19 samplePlaces.1++.replicate 5 samplePlaces.2)) := by
  have hlen : (encodeRoute
      (.replicate 19 samplePlaces.1++.replicate 5 samplePlaces.2)).length=256 := by
    decide +kernel
  refine ⟨hlen,fun num _ => decide_eq_true_iff,?_⟩
  rintro ⟨s',haccepted,_⟩
  have hfilled : Filled [] (routingTaskrespInit 128) := ⟨List.length_replicate ..,rfl,rfl,rfl⟩
  have hne : encodeRoute (.replicate 19 samplePlaces.1++.replicate 5 samplePlaces.2)≠[] :=
    List.ne_nil_of_length_pos (by rw [hlen]; decide)
  have hiff := (accept_writeTaskResultChunk sampleEnv ⟨true,0⟩
    (List.mem_singleton_self routingName) hfilled 0 2 hne hlen.le).1
  have hshort := (hiff.mp (by rw [haccepted]; rfl)).1
  rw [hlen] at hshort
  exact absurd hshort (by decide)

end Routes

end TrustAlloc.RouteChunks
