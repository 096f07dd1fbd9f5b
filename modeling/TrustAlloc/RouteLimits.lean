import TrustAlloc.Calculations
import TrustAlloc.RouteChunks
import Mathlib.Tactic.NormNum.Prime

/-!
# Limits on the chunks of a route

The routing application splits a route into chunks by the average length of its
places, and the bytes of a chunk into lines by the average growth under base64,
with fixed guesses for heads and counters. All quotients are floating point
numbers, and a division by zero would stop the application. How large chunks and
lines get is put in terms of the encoded places alone: the averages are exact,
and so is the length of the longest line of a chunk.
-/

namespace TrustAlloc.RouteLimits

open Base64 Binary64 Calculations RouteChunks TaskPackets TaskResponse

/-- A place of a route, of which each coordinate was cut to single precision. -/
abbrev Coordinates := Coordinate×Coordinate

section Source

/-- A division of floating point numbers. -/
def divide (a b : ℚ) : Calculation ℚ := if b=0 then throw .divisionByZero else return div a b

/-- `assumed_coap_chunk_overhead`. -/
def assumedCoapChunkOverhead : ℕ := 50

variable (dumps : List Coordinates → List UInt8)

/-- `elements_per_coap_packet`, from the number of places, which becomes a
floating point number, and the quotient `num_coap_packets`. -/
def elementsPerCoapPacket (route : List Coordinates) : Calculation ℕ := do
  let routeEncodedLength := (dumps route).length
  let numCoapPackets ← divide routeEncodedLength (coapMaxChunkSize-assumedCoapChunkOverhead : ℕ)
  let elements ← divide (Binary64.round route.length) numCoapPackets
  return ⌊elements⌋.toNat

/-- `task_resp1_prefix`. -/
def taskResp1Prefix : List UInt8 :=
  applicationSerialApp++serialSep::[0x72,0x65,0x73,0x70,0x31]++[serialSep]

/-- The newline behind a message. -/
def newline : UInt8 := 0x0A

/-- The text of an address: eight groups of four digits at most. -/
structure Ipv6Text where
  /-- Its characters. -/
  text : List UInt8
  /-- There are seven colons at most. -/
  length_le : text.length≤39

/-- The line of `_write_task_result_result` for the status of a success. -/
def resultLine (dest : Ipv6Text) (n : ℕ) : List UInt8 :=
  writeToApplication (taskResp1Prefix++dest.text++serialSep::(decimal n++serialSep::decimal 0))++
    [newline]

/-- `_write_task_result_chunk`, with the divisions that may stop it. -/
def writeRouteChunk (i n : ℕ) (routeChunk : List Coordinates) :
    Calculation (List (List UInt8)) := do
  let cborEncoded := dumps routeChunk
  let numSerialWrites ← divide (b64encode cborEncoded).length
    (maxSerialLen-assumedSerialWriteOverhead : ℕ)
  let _ ← divide cborEncoded.length numSerialWrites
  return (writeTaskResultChunk i n cborEncoded).map fun line => line++[newline]

/-- `_send_result` for the status of a success: the chunks and all lines about
them. When the node cancels the task, the last ones of the lines are not written. -/
def sendResult (dest : Ipv6Text) (route : List Coordinates) :
    Calculation (List (List Coordinates)×List (List UInt8)) := do
  let elements ← elementsPerCoapPacket dumps route
  let routeChunks := chunked elements route
  let lines ← routeChunks.zipIdx.mapM fun (routeChunk,i) =>
    writeRouteChunk dumps i routeChunks.length routeChunk
  return (routeChunks,resultLine dest routeChunks.length::lines.flatten)

/-- A route is sent within the limits: no step fails, the chunks are the route,
and neither a chunk nor a line is too long. -/
def WithinLimits (dest : Ipv6Text) (route : List Coordinates) : Prop :=
  ∃ routeChunks lines, sendResult dumps dest route=.ok (routeChunks,lines) ∧
    routeChunks.flatten=route ∧
    (∀ routeChunk∈routeChunks, (dumps routeChunk).length≤ coapMaxChunkSize) ∧
    ∀ line∈lines, line.length≤ maxSerialLen

end Source

section Conditions

/-- How many places there are in a chunk: as many as take 206 bytes on average. -/
def placesPerChunk (route : List Coordinates) : ℕ := 206*route.length/(encodeRoute route).length

/-- How many characters the longest piece of an encoded chunk takes in base64.
Up to 69 bytes there is one piece; from then on the first one has 70 bytes, or 68
or 69. -/
def longestPiece (c : ℕ) : ℕ :=
  if c%3=0 ∧ 72≤c ∨ c%3=2 ∧ 140≤c then 96 else min 92 (4*((c+2)/3))

/-- A chunk fits a packet, and its counters leave room for its longest piece. -/
def ChunkFits (k n : ℕ) (routeChunk : List Coordinates) : Prop :=
  (encodeRoute routeChunk).length≤256 ∧
    (decimal k).length+(decimal n).length+longestPiece (encodeRoute routeChunk).length≤101

/-- All chunks of so many places each fit. -/
def AllFit (places : ℕ) (route : List Coordinates) : Prop :=
  ∀ k : Fin (chunked places route).length,
    ChunkFits k (chunked places route).length (chunked places route)[k]

/-- This is decided chunk by chunk. -/
instance decidableAllFit (places : ℕ) (route : List Coordinates) :
    Decidable (AllFit places route) :=
  inferInstanceAs (Decidable (∀ _ : Fin _, _ ∧ _))

end Conditions

section Lengths

/-- The pairs of a route take between 7 and 11 bytes each. -/
theorem length_encodeRoute_bounds (route : List Coordinates) :
    Cbor.headLength route.length+7*route.length≤(encodeRoute route).length ∧
      (encodeRoute route).length≤ Cbor.headLength route.length+11*route.length := by
  have hcoordinate : ∀ x : Coordinate, x.encode.length=3 ∨ x.encode.length=5 := by
    intro x
    cases x with
    | half bits => exact Or.inl (by simp [Coordinate.encode])
    | single bits => exact Or.inr (by simp [Coordinate.encode])
  have hpairs : ∀ l : List Coordinates,
      7*l.length≤(l.flatMap fun p => Cbor.head 4 2++(p.1.encode++p.2.encode)).length ∧
        (l.flatMap fun p => Cbor.head 4 2++(p.1.encode++p.2.encode)).length≤11*l.length := by
    intro l
    induction l with
    | nil => exact ⟨le_refl _,le_refl _⟩
    | cons p l ih =>
      have hfirst := hcoordinate p.1
      have hsecond := hcoordinate p.2
      have hhead : (Cbor.head 4 2).length=1 := rfl
      simp only [List.flatMap_cons,List.length_append,List.length_cons,hhead] at ih ⊢
      omega
  have hroute := hpairs route
  rw [encodeRoute,List.length_append,Cbor.length_head]
  exact ⟨Nat.add_le_add_left hroute.1 _,Nat.add_le_add_left hroute.2 _⟩

/-- So they take at least 7 bytes each and at most 20. -/
theorem length_encodeRoute_le {route : List Coordinates} (hroute : route≠[]) :
    7*route.length < (encodeRoute route).length ∧ (encodeRoute route).length≤11*route.length+9 ∧
      (encodeRoute route).length≤20*route.length := by
  have hpos := List.length_pos_of_ne_nil hroute
  have hbounds := length_encodeRoute_bounds route
  have hhead := Cbor.headLength_pos route.length
  have hhead' := Cbor.headLength_le_nine route.length
  omega

end Lengths

section Averages

variable {route : List Coordinates}

/-- A division by what is positive does not fail. -/
theorem divide_eq {a b : ℚ} (hb : 0 < b) : divide a b=.ok (div a b) := if_neg hb.ne'

/-- The number of places is there for every route. -/
theorem elementsPerCoapPacket_eq (hroute : route≠[]) : elementsPerCoapPacket encodeRoute route=
    .ok ⌊div (Binary64.round route.length) (div (encodeRoute route).length (206 : ℕ))⌋.toNat := by
  have hlength : (0 : ℚ) < (encodeRoute route).length := by
    exact_mod_cast Nat.zero_lt_of_lt (length_encodeRoute_le hroute).1
  have hfirst : divide (encodeRoute route).length (coapMaxChunkSize-assumedCoapChunkOverhead : ℕ)=
      .ok (div (encodeRoute route).length (206 : ℕ)) :=
    divide_eq (b:=((206 : ℕ) : ℚ)) (by norm_num)
  unfold elementsPerCoapPacket
  dsimp only
  rw [hfirst]
  dsimp only [bind,Except.bind]
  rw [divide_eq (quotient_pos hlength (by norm_num))]
  rfl

/-- It is between 10 and 30, also for routes with so many places that their
number is rounded. -/
theorem elements_bounds (hroute : route≠[]) :
    10≤⌊div (Binary64.round route.length) (div (encodeRoute route).length (206 : ℕ))⌋ ∧
      ⌊div (Binary64.round route.length) (div (encodeRoute route).length (206 : ℕ))⌋<31 := by
  have hpos : (0 : ℚ) < route.length := by exact_mod_cast List.length_pos_of_ne_nil hroute
  obtain ⟨hlow,_,hhigh⟩ := length_encodeRoute_le hroute
  have hlow' : (7*route.length : ℚ) < (encodeRoute route).length := by exact_mod_cast hlow
  have hhigh' : ((encodeRoute route).length : ℚ)≤20*route.length := by exact_mod_cast hhigh
  have hround := abs_le.mp (abs_round_sub hpos)
  have hpos' : 0 < Binary64.round (route.length : ℚ) := by linarith [hround.1]
  constructor
  · refine le_floor_div_div hpos' (by linarith) (by norm_num) (by decide) ?_
    push_cast
    linarith [hround.1]
  · refine floor_div_div_lt (k:=30) hpos' (by linarith) (by norm_num) (by decide) ?_
    push_cast
    linarith [hround.2]

/-- Up to 2^44 places it is that of the exact average. -/
theorem elements_eq (hroute : route≠[]) (hsmall : route.length≤2^44) :
    ⌊div (Binary64.round route.length) (div (encodeRoute route).length (206 : ℕ))⌋=
      placesPerChunk route := by
  obtain ⟨hlow,hhigh,_⟩ := length_encodeRoute_le hroute
  have hround : Binary64.round (route.length : ℚ)=route.length := by
    have hself := round_eq_self (m:=route.length) (by omega) 0
    rwa [zpow_zero,mul_one] at hself
  rw [hround]
  have hplaces := List.length_pos_of_ne_nil hroute
  unfold placesPerChunk
  generalize (encodeRoute route).length=encoded at hlow hhigh
  generalize route.length=places at hlow hhigh hsmall hplaces
  have hpos : 0 < encoded := by omega
  have hdiv := Nat.div_add_mod (206*places) encoded
  have hmod := Nat.mod_lt (206*places) hpos
  have hk : 206*places/encoded<30 := (Nat.div_lt_iff_lt_mul hpos).mpr (by omega)
  generalize 206*places/encoded=k at hdiv hk
  generalize 206*places%encoded=rest at hdiv hmod
  rcases Nat.eq_zero_or_pos rest with rfl | hrest
  · -- the average is an integer, so the length is a multiple of 103
    have hdvd : 103∣encoded := by
      have hprime : Nat.Prime 103 := by norm_num
      have hmul : 103∣encoded*k := ⟨2*places,by omega⟩
      rcases hprime.dvd_mul.mp hmul with h | h
      · exact h
      · have hkpos : 0 < k := by
          rcases Nat.eq_zero_or_pos k with rfl | hkpos
          · omega
          · exact hkpos
        exact absurd (Nat.le_of_dvd hkpos h) (by omega)
    obtain ⟨t,rfl⟩ := hdvd
    refine floor_div_div_of_eq (m:=t) (t:=-1) hpos (by norm_num) ?_ (by omega) (by omega) ?_
    · push_cast
      rw [zpow_neg_one]
      ring
    · rw [Nat.mul_comm places,←hdiv,Nat.add_zero,Nat.mul_comm]
  · have hcomm : k*encoded=encoded*k := Nat.mul_comm _ _
    have hnext : (k+1)*encoded=encoded*k+encoded := by rw [Nat.succ_mul,hcomm]
    exact floor_div_div_of_lt hpos (by norm_num) (by omega) (by omega) (by omega)

end Averages

section Pieces

variable {bytes : List UInt8}

/-- The size of a piece by the exact quotient, where that is no integer. -/
theorem elementsPerSerialWrite_of_lt {k : ℕ} (hlen : bytes.length≤256)
    (hlow : k*(4*((bytes.length+2)/3)) < bytes.length*94)
    (hhigh : bytes.length*94 < (k+1)*(4*((bytes.length+2)/3))) :
    elementsPerSerialWrite bytes=k := by
  have hnext : (k+1)*(4*((bytes.length+2)/3))=
      k*(4*((bytes.length+2)/3))+4*((bytes.length+2)/3) := Nat.succ_mul _ _
  rw [elementsPerSerialWrite_eq,floor_div_div_of_lt (by omega) (by norm_num) hlow hhigh (by omega)]
  rfl

/-- Up to 69 bytes there is one piece. -/
theorem le_elementsPerSerialWrite (hne : bytes≠[]) (hlen : bytes.length≤69) :
    bytes.length≤ elementsPerSerialWrite bytes := by
  have hpos := List.length_pos_of_ne_nil hne
  have hgroups : 4*((bytes.length+2)/3)≤92 := by omega
  have hgroups' : ((4*((bytes.length+2)/3) : ℕ) : ℚ)≤92 := by exact_mod_cast hgroups
  have hpos' : (0 : ℚ) < bytes.length := by exact_mod_cast hpos
  have hgroup : (0 : ℚ) < ((4*((bytes.length+2)/3) : ℕ) : ℚ) := by
    exact_mod_cast (show 0 < 4*((bytes.length+2)/3) by omega)
  have hfloor : (bytes.length : ℤ)≤
      ⌊div (bytes.length : ℚ) (div ((4*((bytes.length+2)/3) : ℕ) : ℚ) (94 : ℕ))⌋ := by
    refine le_floor_div_div hpos' hgroup (by norm_num) (Int.natCast_nonneg _) ?_
    have hmul := mul_le_mul_of_nonneg_left hgroups' hpos'.le
    rw [Int.cast_natCast]
    push_cast at hmul ⊢
    linarith
  rw [elementsPerSerialWrite_eq]
  exact (Int.le_toNat (by omega)).mpr hfloor

/-- From 70 bytes on the size depends on the last group of three bytes. -/
theorem elementsPerSerialWrite_long (hlong : 70≤ bytes.length) (hlen : bytes.length≤256) :
    if bytes.length%3=0 ∨ bytes.length%3=2 ∧ 140≤ bytes.length then
      elementsPerSerialWrite bytes=70
    else elementsPerSerialWrite bytes=68 ∨ elementsPerSerialWrite bytes=69 := by
  have hmod : bytes.length%3=0 ∨ bytes.length%3=1 ∨ bytes.length%3=2 := by omega
  rcases hmod with hzero | hone | htwo
  · rw [if_pos (Or.inl hzero)]
    exact elementsPerSerialWrite_of_lt hlen (by omega) (by omega)
  · rw [if_neg (by omega)]
    rcases Nat.lt_or_ge bytes.length 92 with hlt | hge
    · exact Or.inl (elementsPerSerialWrite_of_lt hlen (by omega) (by omega))
    · exact Or.inr (elementsPerSerialWrite_of_lt hlen (by omega) (by omega))
  · rcases Nat.lt_trichotomy bytes.length 140 with hlt | heq | hgt
    · rw [if_neg (by omega)]
      exact Or.inr (elementsPerSerialWrite_of_lt hlen (by omega) (by omega))
    · -- here both quotients are exact
      rw [if_pos (by omega),elementsPerSerialWrite_eq,heq]
      have hfloor : ⌊div ((140 : ℕ) : ℚ) (div ((4*((140+2)/3) : ℕ) : ℚ) (94 : ℕ))⌋=(70 : ℕ) :=
        floor_div_div_of_eq (m:=2) (t:=0) (by norm_num) (by norm_num) (by norm_num) (by norm_num)
          (by norm_num) (by norm_num)
      rw [hfloor]
      rfl
    · rw [if_pos (by omega)]
      exact elementsPerSerialWrite_of_lt hlen (by omega) (by omega)

/-- The first piece is as long as it is said to be, and there are four at most. -/
theorem longestPiece_eq (hne : bytes≠[]) (hlen : bytes.length≤256) :
    4*((min (elementsPerSerialWrite bytes) bytes.length+2)/3)=longestPiece bytes.length ∧
      bytes.length≤4*elementsPerSerialWrite bytes := by
  have hpos := List.length_pos_of_ne_nil hne
  unfold longestPiece
  rcases Nat.lt_or_ge bytes.length 70 with hshort | hlong
  · have hle := le_elementsPerSerialWrite hne (by omega)
    rw [if_neg (by omega),min_eq_right hle]
    omega
  · have hsize := elementsPerSerialWrite_long hlong hlen
    split_ifs at hsize with hcase
    · rw [hsize]
      split_ifs with hpiece
      · omega
      · omega
    · rw [if_neg (by omega)]
      omega

end Pieces

section Lines

variable {bytes : List UInt8}

/-- How long a line is, with its counters and its newline. -/
theorem length_line (place : Place) (chunk : List UInt8) :
    (writeToApplication (taskResp2Prefix++partText place chunk)++[newline]).length=
      24+(decimal place.i).length+(decimal place.n).length+(decimal place.j).length+
        (decimal place.m).length+4*((chunk.length+2)/3) := by
  have hprefix : messagePrefix.length=9 := rfl
  have hprefix' : taskResp2Prefix.length=10 := rfl
  simp only [writeToApplication,partText,List.length_append,List.length_cons,List.length_nil,
    hprefix,hprefix',length_b64encode]
  omega

/-- No line of a chunk is too long exactly if its counters leave room for its
longest piece. -/
theorem lines_le_iff (i n : ℕ) (hne : bytes≠[]) (hlen : bytes.length≤256) :
    (∀ line∈(writeTaskResultChunk i n bytes).map fun line => line++[newline],
      line.length≤ maxSerialLen) ↔
        (decimal i).length+(decimal n).length+longestPiece bytes.length≤101 := by
  obtain ⟨hlongest,hfour⟩ := longestPiece_eq hne hlen
  have hpos := elementsPerSerialWrite_pos hne
  have hfirst := length_chunked_pos hpos hne
  have hcount : (chunked (elementsPerSerialWrite bytes) bytes).length < 10 := by
    rw [length_chunked,Nat.div_lt_iff_lt_mul hpos]
    omega
  have hmax : maxSerialLen=127 := rfl
  unfold writeTaskResultChunk
  dsimp only
  generalize hsize : elementsPerSerialWrite bytes=size at hlongest hfirst hcount
  constructor
  · intro h
    have hline := h _ (List.mem_map_of_mem (List.mem_mapIdx.mpr ⟨0,hfirst,rfl⟩))
    rw [length_line,getElem_chunked,Nat.zero_mul,List.drop_zero,List.length_take,hlongest] at hline
    dsimp only at hline
    rw [length_decimal_of_lt hcount,length_decimal_of_lt (by decide : 0 < 10)] at hline
    omega
  · intro h line hline
    obtain ⟨line',hmem,rfl⟩ := List.mem_map.mp hline
    obtain ⟨j,hj,rfl⟩ := List.mem_mapIdx.mp hmem
    rw [length_line,getElem_chunked,List.length_take,List.length_drop]
    dsimp only
    rw [length_decimal_of_lt hcount,length_decimal_of_lt (by omega : j < 10)]
    omega

end Lines

section Sending

variable {route : List Coordinates} {places : ℕ}

/-- The encoding of a chunk is not empty. -/
theorem encodeRoute_ne_nil (routeChunk : List Coordinates) : encodeRoute routeChunk≠[] := by
  have hhead := Cbor.headLength_pos routeChunk.length
  have hlength := (length_encodeRoute_bounds routeChunk).1
  exact List.ne_nil_of_length_pos (by omega)

/-- Writing a chunk never fails. -/
theorem writeRouteChunk_eq (i n : ℕ) (routeChunk : List Coordinates) :
    writeRouteChunk encodeRoute i n routeChunk=
      .ok ((writeTaskResultChunk i n (encodeRoute routeChunk)).map fun line =>
        line++[newline]) := by
  have hpos := List.length_pos_of_ne_nil (encodeRoute_ne_nil routeChunk)
  have hencoded : (0 : ℚ) < (b64encode (encodeRoute routeChunk)).length := by
    rw [length_b64encode]
    exact_mod_cast (show 0 < 4*(((encodeRoute routeChunk).length+2)/3) by omega)
  have hroom : (0 : ℚ) < (maxSerialLen-assumedSerialWriteOverhead : ℕ) := by
    rw [room_eq]
    norm_num
  unfold writeRouteChunk
  dsimp only
  rw [divide_eq hroom]
  dsimp only [bind,Except.bind]
  rw [divide_eq (quotient_pos hencoded hroom)]
  rfl

/-- What is sent for so many places in a chunk. -/
def sent (dest : Ipv6Text) (places : ℕ) (route : List Coordinates) :
    List (List Coordinates)×List (List UInt8) :=
  let routeChunks := chunked places route
  (routeChunks,resultLine dest routeChunks.length::
    (routeChunks.zipIdx.map fun p => (writeTaskResultChunk p.2 routeChunks.length
      (encodeRoute p.1)).map fun line => line++[newline]).flatten)

/-- Sending does not fail once the number of places is there. -/
theorem sendResult_eq (dest : Ipv6Text) (h : elementsPerCoapPacket encodeRoute route=.ok places) :
    sendResult encodeRoute dest route=.ok (sent dest places route) := by
  unfold sendResult
  rw [h]
  dsimp only [bind,Except.bind]
  rw [mapM_eq fun p _ => writeRouteChunk_eq p.2 _ p.1]
  rfl

/-- From 70 bytes on the longest piece takes 92 characters at least. -/
theorem le_longestPiece {c : ℕ} (hc : 70≤c) : 92≤longestPiece c := by
  unfold longestPiece
  split_ifs
  · decide
  · exact le_min (le_refl _) (by omega)

/-- A first chunk of ten places leaves eight digits for the number of chunks. -/
theorem AllFit.length_decimal_le (h : AllFit places route) (hplaces : 10≤places)
    (hroute : places≤ route.length) :
    (decimal (chunked places route).length).length≤8 := by
  have hne : route≠[] := List.ne_nil_of_length_pos (by omega)
  have hfirst := length_chunked_pos (by omega : 0 < places) hne
  have hfits := (h ⟨0,hfirst⟩).2
  have hchunk : (chunked places route)[0]=route.take places := by
    rw [getElem_chunked,Nat.zero_mul,List.drop_zero]
  have hlength : ((chunked places route)[0]).length=places := by
    rw [hchunk,List.length_take,min_eq_left hroute]
  have hencoded := (length_encodeRoute_bounds (chunked places route)[0]).1
  have hhead := Cbor.headLength_pos ((chunked places route)[0]).length
  have hlongest := le_longestPiece (c:=(encodeRoute (chunked places route)[0]).length) (by omega)
  have hzero := length_decimal_of_lt (by decide : 0 < 10)
  change (decimal 0).length+_+
    longestPiece (encodeRoute (chunked places route)[0]).length≤101 at hfits
  omega

/-- The first line has room for any address and a number of so few digits. -/
theorem length_resultLine_le (dest : Ipv6Text) {n : ℕ} (hn : (decimal n).length≤65) :
    (resultLine dest n).length≤ maxSerialLen := by
  have hprefix : messagePrefix.length=9 := rfl
  have hprefix' : taskResp1Prefix.length=10 := rfl
  have hzero : (decimal 0).length=1 := rfl
  have hdest := dest.length_le
  have hmax : maxSerialLen=127 := rfl
  simp only [resultLine,writeToApplication,List.length_append,List.length_cons,List.length_nil,
    hprefix,hprefix',hzero]
  omega

/-- With ten places in a chunk or more, the limits are kept exactly if all chunks fit. -/
theorem withinLimits_iff_allFit (dest : Ipv6Text)
    (h : elementsPerCoapPacket encodeRoute route=.ok places) (hplaces : 10≤places) :
    WithinLimits encodeRoute dest route ↔ AllFit places route := by
  have hpos : 0 < places := by omega
  have hsent := sendResult_eq dest h
  constructor
  · rintro ⟨routeChunks,lines,hresult,_,hchunks,hlines⟩ k
    rw [hsent] at hresult
    cases hresult
    have hmem : (chunked places route)[k]∈chunked places route := List.getElem_mem k.isLt
    have hlen := hchunks _ hmem
    refine ⟨hlen,(lines_le_iff k _ (encodeRoute_ne_nil _) hlen).mp fun line hline => hlines line ?_⟩
    have hindexed : ((chunked places route)[k],k.val)∈(chunked places route).zipIdx :=
      List.mk_mem_zipIdx_iff_getElem?.mpr (List.getElem?_eq_getElem k.isLt)
    exact List.mem_cons_of_mem _ (List.mem_flatten.mpr ⟨_,List.mem_map_of_mem hindexed,hline⟩)
  · intro hfits
    have hindexed : ∀ p∈(chunked places route).zipIdx,
        ChunkFits p.2 (chunked places route).length p.1 := by
      intro p hp
      obtain ⟨hlt,heq⟩ := List.getElem?_eq_some_iff.mp (List.mem_zipIdx_iff_getElem?.mp hp)
      rw [←heq]
      exact hfits ⟨p.2,hlt⟩
    refine ⟨_,_,hsent,flatten_chunked hpos route,fun routeChunk hmem => ?_,fun line hline => ?_⟩
    · obtain ⟨k,hk,rfl⟩ := List.mem_iff_getElem.mp hmem
      exact (hfits ⟨k,hk⟩).1
    · rcases List.mem_cons.mp hline with rfl | hrest
      · refine length_resultLine_le dest ?_
        rcases Nat.lt_or_ge route.length places with hone | hmany
        · have hcount : (chunked places route).length < 10 := by
            rw [length_chunked,Nat.div_lt_iff_lt_mul hpos]
            omega
          rw [length_decimal_of_lt hcount]
          decide
        · exact (hfits.length_decimal_le hplaces hmany).trans (by decide)
      · obtain ⟨l,hl,hline⟩ := List.mem_flatten.mp hrest
        obtain ⟨p,hp,rfl⟩ := List.mem_map.mp hl
        obtain ⟨hlen,hroom⟩ := hindexed p hp
        exact (lines_le_iff p.2 _ (encodeRoute_ne_nil _) hlen).mpr hroom line hline

/-- With more than 2^44 places the numbers of chunks are too long. -/
theorem not_allFit_of_huge (hhuge : 2^44 < route.length) (hplaces : 10≤places)
    (hplaces' : places≤30) : ¬AllFit places route := by
  intro h
  have hdigits := h.length_decimal_le hplaces (by omega)
  rw [length_decimal_le_iff (by decide),length_chunked,
    Nat.div_lt_iff_lt_mul (by omega)] at hdigits
  have hmul : 10^8*places≤10^8*30 := Nat.mul_le_mul_left _ hplaces'
  omega

/-- The exact average is between 10 and 30, too. -/
theorem placesPerChunk_bounds (hroute : route≠[]) :
    10≤placesPerChunk route ∧ placesPerChunk route≤30 := by
  obtain ⟨hlow,_,hhigh⟩ := length_encodeRoute_le hroute
  have hpos : 0 < (encodeRoute route).length := Nat.zero_lt_of_lt hlow
  unfold placesPerChunk
  constructor
  · rw [Nat.le_div_iff_mul_le hpos]
    omega
  · exact Nat.le_of_lt_succ ((Nat.div_lt_iff_lt_mul hpos).mpr (by omega))

/-- **Limits of a route.** A route is sent within the limits exactly if all chunks
fit that are cut from it by its exact average. -/
theorem withinLimits_iff {dumps : List Coordinates → List UInt8} (hdumps : CanonicalRoutes dumps)
    (dest : Ipv6Text) (route : List Coordinates) (hroute : route≠[]) :
    WithinLimits dumps dest route ↔ AllFit (placesPerChunk route) route := by
  obtain rfl : dumps=encodeRoute := funext hdumps
  have helements := elementsPerCoapPacket_eq hroute
  obtain ⟨hlow,hhigh⟩ := elements_bounds hroute
  rcases Nat.lt_or_ge (2^44) route.length with hhuge | hsmall
  · obtain ⟨hlow',hhigh'⟩ := placesPerChunk_bounds hroute
    generalize ⌊div (Binary64.round route.length) (div (encodeRoute route).length (206 : ℕ))⌋=
      elements at helements hlow hhigh
    refine (withinLimits_iff_allFit dest helements (by omega)).trans ?_
    exact iff_of_false (not_allFit_of_huge hhuge (by omega) (by omega))
      (not_allFit_of_huge hhuge hlow' hhigh')
  · rw [elements_eq hroute hsmall,Int.toNat_natCast] at helements
    exact withinLimits_iff_allFit dest helements (placesPerChunk_bounds hroute).1

end Sending

section Sample

/-- The address of a node, "fd00::1". -/
def sampleDest : Ipv6Text := ⟨[0x66,0x64,0x30,0x30,0x3A,0x3A,0x31],by decide⟩

/-- Forty places with one number of a half each are sent within the limits. -/
theorem withinLimits_iff_sample :
    WithinLimits encodeRoute sampleDest (.replicate 40 samplePlaces.2) :=
  (@withinLimits_iff encodeRoute (fun _ => rfl) sampleDest (.replicate 40 samplePlaces.2)
    (by decide)).mpr (by decide +kernel)

/-- A place whose numbers both have room in half precision: 52.5, -1.5. -/
def halfPlace : Coordinates := (.half 0x5290,.half 0xBE00)

/-- A route may begin with short places and end with long ones: the average is 24
places, and the 24 last ones take 266 bytes. -/
theorem not_withinLimits_of_uneven :
    ¬WithinLimits encodeRoute sampleDest
      (.replicate 44 halfPlace++.replicate 28 samplePlaces.1) := by
  intro h
  have hne : List.replicate 44 halfPlace++.replicate 28 samplePlaces.1≠[] := by decide
  have hsmall : (List.replicate 44 halfPlace++.replicate 28 samplePlaces.1).length≤2^44 := by decide
  have helements := elementsPerCoapPacket_eq hne
  rw [elements_eq hne hsmall,Int.toNat_natCast] at helements
  have hfits := (withinLimits_iff_allFit sampleDest helements (placesPerChunk_bounds hne).1).mp h
  revert hfits
  decide +kernel

end Sample

end TrustAlloc.RouteLimits
