import Mathlib.Data.Nat.Digits.Lemmas
import Mathlib.Data.Vector.Basic

/-!
# Texts of IPv6 addresses

How the standard library of Python writes an IPv6 address, and how it reads one.
The longest run of zero groups, if it is of two groups or more, is left out in
writing; reading finds out again how many groups there were. Texts are bytes of
ASCII, and zone identifiers are not part of them.
-/

namespace TrustAlloc.Ipv6Text

section Groups

/-- A digit in lower case. -/
def lowerHex (d : ℕ) : UInt8 := UInt8.ofNat (if d < 10 then 0x30+d else 0x57+d)

/-- The value of a hexadecimal digit, in upper or in lower case. -/
def hexValue (c : UInt8) : Option ℕ :=
  if 0x30≤c ∧ c≤0x39 then some (c.toNat-0x30)
  else if 0x41≤c ∧ c≤0x46 then some (c.toNat-0x37)
  else if 0x61≤c ∧ c≤0x66 then some (c.toNat-0x57)
  else none

/-- `'%x' % v`. -/
def hextetText (v : ℕ) : List UInt8 :=
  if v=0 then [0x30] else (Nat.digits 16 v).reverse.map lowerHex

/-- The number that digits stand for, after those that are read already. -/
def readHex : ℕ → List UInt8 → Option ℕ
  | value,[] => some value
  | value,c::text => (hexValue c).bind fun d => readHex (16*value+d) text

/-- The number that decimal digits stand for, after those read already. -/
def readDecimal : ℕ → List UInt8 → ℕ
  | value,[] => value
  | value,c::text => readDecimal (10*value+(c.toNat-0x30)) text

/-- `_parse_hextet`. -/
def parseHextet (text : List UInt8) : Option ℕ :=
  if text=[] ∨ 4 < text.length then none else readHex 0 text

/-- A digit has its value. -/
theorem hexValue_lowerHex {d : ℕ} (h : d < 16) : hexValue (lowerHex d)=some d := by
  interval_cases d <;> decide

/-- Digits are read as their number. -/
theorem readHex_map {digits : List ℕ} (h : ∀ d∈digits, d < 16) (value : ℕ) :
    readHex value (digits.map lowerHex)=some (digits.foldl (fun v d => 16*v+d) value) := by
  induction digits generalizing value with
  | nil => rfl
  | cons d digits ih =>
    rw [List.map_cons,readHex,hexValue_lowerHex (h d List.mem_cons_self),Option.bind_some,
      ih (fun e he => h e (List.mem_cons_of_mem d he)),List.foldl_cons]

/-- The digits of a number, from the first one on. -/
theorem foldl_digits (v : ℕ) :
    (Nat.digits 16 v).reverse.foldl (fun w d => 16*w+d) 0=v := by
  rw [List.foldl_reverse]
  have hvalue := Nat.ofDigits_digits 16 v
  rw [Nat.ofDigits_eq_foldr] at hvalue
  simpa [Nat.add_comm] using hvalue

/-- A group is not empty. -/
theorem hextetText_ne_nil (v : ℕ) : hextetText v≠[] := by
  unfold hextetText
  split_ifs with hv
  · exact List.cons_ne_nil _ _
  · intro hnil
    have hdigits := List.reverse_eq_nil_iff.mp (List.map_eq_nil_iff.mp hnil)
    exact Nat.digits_ne_nil_iff_ne_zero.mpr hv hdigits

/-- Only digits are in it. -/
theorem hextetText_digits {v : ℕ} {c : UInt8} (h : c∈hextetText v) : hexValue c≠none := by
  unfold hextetText at h
  split_ifs at h with hv
  · rw [List.mem_singleton.mp h]
    decide
  · obtain ⟨d,hd,rfl⟩ := List.mem_map.mp h
    have hlt : d < 16 := Nat.digits_lt_base (by decide) (List.mem_reverse.mp hd)
    simp [hexValue_lowerHex hlt]

/-- A group has four digits at most. -/
theorem length_hextetText_le {v : ℕ} (h : v < 65536) : (hextetText v).length≤4 := by
  unfold hextetText
  split_ifs
  · decide
  · rw [List.length_map,List.length_reverse]
    exact (Nat.digits_length_le_iff (by decide) v).mpr h

/-- A group is read back. -/
theorem parseHextet_hextetText {v : ℕ} (h : v < 65536) : parseHextet (hextetText v)=some v := by
  have hlength := length_hextetText_le h
  rw [parseHextet,if_neg (by simp [hextetText_ne_nil,hlength])]
  unfold hextetText
  split_ifs with hv
  · rw [hv]
    rfl
  · have hdigits : ∀ d∈(Nat.digits 16 v).reverse, d < 16 := fun d hd =>
      Nat.digits_lt_base (by decide) (List.mem_reverse.mp hd)
    rw [readHex_map hdigits,foldl_digits]

/-- All groups are. -/
theorem mapM_parseHextet {l : List ℕ} (h : ∀ v∈l, v < 65536) :
    (l.map hextetText).mapM parseHextet=some l := by
  induction l with
  | nil => rfl
  | cons v l ih =>
    rw [List.map_cons,List.mapM_cons,parseHextet_hextetText (h v List.mem_cons_self),
      ih fun w hw => h w (List.mem_cons_of_mem v hw)]
    rfl

end Groups

section Writing

/-- What the search for the longest run of zero groups keeps. -/
structure Zeros where
  /-- `best_doublecolon_start`; none for -1. -/
  bestStart : Option ℕ
  /-- `best_doublecolon_len`. -/
  bestLen : ℕ
  /-- `doublecolon_start`; none for -1. -/
  start : Option ℕ
  /-- `doublecolon_len`. -/
  len : ℕ

/-- Nothing found yet. -/
def noZeros : Zeros := ⟨none,0,none,0⟩

/-- One turn of the search. -/
def zerosTurn (index : ℕ) (z : Zeros) (hextet : List UInt8) : Zeros :=
  if hextet=[0x30] then
    if z.bestLen < z.len+1 then
      ⟨some (z.start.getD index),z.len+1,some (z.start.getD index),z.len+1⟩
    else ⟨z.bestStart,z.bestLen,some (z.start.getD index),z.len+1⟩
  else ⟨z.bestStart,z.bestLen,none,0⟩

/-- The search over the groups from an index on. -/
def longestZeros : ℕ → Zeros → List (List UInt8) → Zeros
  | _,z,[] => z
  | index,z,hextet::rest => longestZeros (index+1) (zerosTurn index z hextet) rest

/-- Groups with some of them left out in between. -/
def withGap (before after : List (List UInt8)) : List (List UInt8) :=
  (if before=[] then [[]] else [])++before++[[]]++after++(if after=[] then [[]] else [])

/-- `_compress_hextets`. -/
def compressHextets (parts : List (List UInt8)) : List (List UInt8) :=
  match (longestZeros 0 noZeros parts).bestStart with
  | none => parts
  | some start =>
    if (longestZeros 0 noZeros parts).bestLen≤1 then parts
    else withGap (parts.take start)
      (parts.drop (start+(longestZeros 0 noZeros parts).bestLen))

/-- The groups of an address. -/
def hextets (a : Vector UInt8 16) : List ℕ :=
  List.ofFn fun i : Fin 8 => a[2*i.val].toNat*256+a[2*i.val+1].toNat

/-- `str` of an address. -/
def str (a : Vector UInt8 16) : List UInt8 :=
  [0x3A].intercalate (compressHextets ((hextets a).map hextetText))

/-- What the search knows about the groups it has seen. -/
structure Zeros.Of (z : Zeros) (seen : List (List UInt8)) : Prop where
  /-- The run at the end. -/
  current : ∃ before, seen=before++.replicate z.len [0x30] ∧
    z.start=if z.len=0 then none else some before.length
  /-- The longest run so far. -/
  best : ∀ start, z.bestStart=some start → ∃ before after,
    seen=before++.replicate z.bestLen [0x30]++after ∧ start=before.length

/-- Nothing is known about no groups. -/
theorem noZeros_of : noZeros.Of [] := ⟨⟨[],rfl,rfl⟩,fun _ h => nomatch h⟩

/-- A turn takes one more group into account. -/
theorem Zeros.Of.turn {z : Zeros} {seen : List (List UInt8)} (h : z.Of seen)
    (hextet : List UInt8) : (zerosTurn seen.length z hextet).Of (seen++[hextet]) := by
  have hkept : ∀ start, z.bestStart=some start → ∃ before after,
      seen++[hextet]=before++.replicate z.bestLen [0x30]++after ∧ start=before.length := by
    intro start hstart
    obtain ⟨before,after,hseen,hlength⟩ := h.best start hstart
    exact ⟨before,after++[hextet],by rw [hseen,List.append_assoc],hlength⟩
  unfold zerosTurn
  by_cases hzero : hextet=[0x30]
  · obtain ⟨before,hseen,hstart⟩ := h.current
    have hrun : seen++[hextet]=before++.replicate (z.len+1) [0x30] := by
      rw [hseen,hzero,List.replicate_succ',List.append_assoc]
    have hgot : z.start.getD seen.length=before.length := by
      by_cases hlen : z.len=0
      · rw [hstart,if_pos hlen,hseen,hlen]
        simp
      · rw [hstart,if_neg hlen,Option.getD_some]
    rw [if_pos hzero,hgot]
    split_ifs
    · refine ⟨⟨before,hrun,(if_neg (Nat.succ_ne_zero _)).symm⟩,fun start hs => ?_⟩
      exact ⟨before,[],by rw [hrun,List.append_nil],(Option.some.inj hs).symm⟩
    · exact ⟨⟨before,hrun,(if_neg (Nat.succ_ne_zero _)).symm⟩,hkept⟩
  · rw [if_neg hzero]
    exact ⟨⟨seen++[hextet],by simp,rfl⟩,hkept⟩

/-- The search knows about all groups in the end. -/
theorem Zeros.Of.all {z : Zeros} {seen : List (List UInt8)} (h : z.Of seen)
    (rest : List (List UInt8)) : (longestZeros seen.length z rest).Of (seen++rest) := by
  induction rest generalizing z seen with
  | nil => rwa [List.append_nil]
  | cons hextet rest ih =>
    have hturn := h.turn hextet
    have hall := ih hturn
    rwa [List.length_append,List.length_singleton,List.append_assoc] at hall

/-- Either all groups are written, or two or more zero groups are left out. -/
theorem compressHextets_cases (parts : List (List UInt8)) :
    compressHextets parts=parts ∨ ∃ before count after, 2≤count ∧
      parts=before++.replicate count [0x30]++after ∧
        compressHextets parts=withGap before after := by
  have hfound : (longestZeros 0 noZeros parts).Of parts := noZeros_of.all parts
  unfold compressHextets
  cases hbest : (longestZeros 0 noZeros parts).bestStart with
  | none => exact Or.inl rfl
  | some start =>
    obtain ⟨before,after,hparts,hstart⟩ := hfound.best start hbest
    by_cases hlen : (longestZeros 0 noZeros parts).bestLen≤1
    · exact Or.inl (if_pos hlen)
    · refine Or.inr ⟨before,_,after,by omega,hparts,?_⟩
      have htake : parts.take start=before := by
        rw [hparts,hstart,List.append_assoc,List.take_left]
      have hdrop : parts.drop (start+(longestZeros 0 noZeros parts).bestLen)=after := by
        refine (congrArg (List.drop _) hparts).trans (List.drop_left' ?_)
        rw [List.length_append,List.length_replicate,hstart]
      show (if _ then _ else _)=_
      rw [if_neg hlen,htake,hdrop]

end Writing

section Reading

/-- `_parse_octet`. -/
def parseOctet (text : List UInt8) : Option ℕ :=
  if text=[] ∨ text.all (fun c => 0x30≤c && c≤0x39)=false ∨ 3 < text.length then none
  else if text≠[0x30] ∧ text.head?=some 0x30 then none
  else if 255 < readDecimal 0 text then none
  else some (readDecimal 0 text)

/-- `IPv4Address` of a text, by its octets. -/
def ipv4Address (text : List UInt8) : Option (List ℕ) :=
  if (text.splitOn 0x2E).length≠4 then none else (text.splitOn 0x2E).mapM parseOctet

/-- An IPv4 address as two groups of an IPv6 address. -/
def ipv4Hextets (text : List UInt8) : Option (List (List UInt8)) :=
  (ipv4Address text).map fun octets =>
    [hextetText (256*octets.getD 0 0+octets.getD 1 0),
      hextetText (256*octets.getD 2 0+octets.getD 3 0)]

/-- The parts of a text, the dots of its last one converted. -/
def splitParts (text : List UInt8) : Option (List (List UInt8)) :=
  let parts := text.splitOn 0x3A
  if parts.length < 3 then none
  else if 0x2E∈parts.getLastD [] then
    (ipv4Hextets (parts.getLastD [])).map (parts.dropLast++·)
  else some parts

/-- The loop that looks for an empty part, from an index on. -/
def findSkip : ℕ → Option ℕ → List (List UInt8) → Option (Option ℕ)
  | _,skip,[] => some skip
  | i,skip,part::parts =>
    if part≠[] then findSkip (i+1) skip parts
    else if skip=none then findSkip (i+1) (some i) parts
    else none

/-- `parts_hi`, for a text with `::` in it. -/
def partsHi (parts : List (List UInt8)) (skip : ℕ) : Option ℕ :=
  if parts.headD []≠[] then some skip else if skip=1 then some 0 else none

/-- `parts_lo`, for a text with `::` in it. -/
def partsLo (parts : List (List UInt8)) (skip : ℕ) : Option ℕ :=
  if parts.getLastD []≠[] then some (parts.length-skip-1)
  else if parts.length-skip-1=1 then some 0 else none

/-- The groups around `::` and the zeros between them. -/
def readAround (parts : List (List UInt8)) (hi lo : ℕ) : Option (List ℕ) :=
  if 8≤hi+lo then none
  else do
    let before ← (parts.take hi).mapM parseHextet
    let after ← (parts.drop (parts.length-lo)).mapM parseHextet
    return before++.replicate (8-(hi+lo)) 0++after

/-- The groups that parts stand for. -/
def readParts (parts : List (List UInt8)) : Option (List ℕ) :=
  if 9 < parts.length then none
  else do
    match ←findSkip 1 none parts.tail.dropLast with
    | some skip =>
      let hi ← partsHi parts skip
      let lo ← partsLo parts skip
      readAround parts hi lo
    | none =>
      if parts.length≠8 ∨ parts.headD []=[] ∨ parts.getLastD []=[] then none
      else parts.mapM parseHextet

/-- The address with given groups. -/
def ofHextets (groups : List ℕ) : Vector UInt8 16 :=
  .ofFn fun i =>
    let group := groups.getD (i.val/2) 0
    UInt8.ofNat (if i.val%2=0 then group/256 else group%256)

/-- `IPv6Address` of a text. -/
def ipv6Address (text : List UInt8) : Option (Vector UInt8 16) :=
  ((splitParts text).bind readParts).map ofHextets

/-- `ip_address` of a text: of the fourth version, or else of the sixth. -/
def ipAddress (text : List UInt8) : Option (List ℕ⊕Vector UInt8 16) :=
  match ipv4Address text with
  | some octets => some (.inl octets)
  | none => (ipv6Address text).map .inr

end Reading

section RoundTrip

variable {before after : List (List UInt8)}

/-- Without an empty part, nothing is skipped. -/
theorem findSkip_plain {parts : List (List UInt8)} (h : ∀ part∈parts, part≠[]) (i : ℕ)
    (skip : Option ℕ) : findSkip i skip parts=some skip := by
  induction parts generalizing i with
  | nil => rfl
  | cons part parts ih =>
    rw [findSkip,if_pos (h part List.mem_cons_self)]
    exact ih (fun p hp => h p (List.mem_cons_of_mem part hp)) (i+1)

/-- A single empty part is found. -/
theorem findSkip_gap (hbefore : ∀ part∈before, part≠[]) (hafter : ∀ part∈after, part≠[])
    (i : ℕ) : findSkip i none (before++[]::after)=some (some (i+before.length)) := by
  induction before generalizing i with
  | nil =>
    show (if _ then _ else _)=_
    rw [if_neg (by simp),if_pos rfl,findSkip_plain hafter]
    rfl
  | cons part before ih =>
    rw [List.cons_append,findSkip,if_pos (hbefore part List.mem_cons_self),
      ih (fun p hp => hbefore p (List.mem_cons_of_mem part hp)),List.length_cons]
    congr 2
    omega

/-- The last part of a text with groups after its gap. -/
theorem closing_eq (after : List (List UInt8)) :
    after++(if after=[] then [[]] else [])=after.dropLast++[after.getLastD []] := by
  rcases List.eq_nil_or_concat after with rfl | ⟨after,last,rfl⟩
  · rfl
  · rw [List.concat_eq_append,if_neg (by simp),List.append_nil,List.dropLast_concat,
      List.getLastD_concat]

/-- The first part of a text with groups before its gap. -/
theorem opening_eq (before : List (List UInt8)) :
    (if before=[] then [[]] else [])++before=before.headD []::before.tail := by
  cases before <;> rfl

/-- The parts of a text with a gap, by their ends. -/
theorem withGap_eq (before after : List (List UInt8)) : withGap before after=
    before.headD []::(before.tail++[]::after.dropLast)++[after.getLastD []] := by
  rw [withGap,opening_eq,List.append_assoc,List.append_assoc,closing_eq]
  simp

/-- Where the gap is, seen from inside. -/
theorem findSkip_withGap (hbefore : ∀ part∈before, part≠[]) (hafter : ∀ part∈after, part≠[]) :
    findSkip 1 none (withGap before after).tail.dropLast=some (some (1+before.tail.length)) := by
  rw [withGap_eq,List.cons_append,List.tail_cons,List.dropLast_concat]
  exact findSkip_gap (fun p hp => hbefore p (List.mem_of_mem_tail hp))
    (fun p hp => hafter p (List.mem_of_mem_dropLast hp)) 1

/-- The groups before the gap are counted. -/
theorem partsHi_withGap (hbefore : ∀ part∈before, part≠[]) :
    partsHi (withGap before after) (1+before.tail.length)=some before.length := by
  rw [partsHi,withGap_eq]
  show (if before.headD []≠[] then _ else _)=_
  cases before with
  | nil => rfl
  | cons part before =>
    rw [List.headD_cons,if_pos (hbefore part List.mem_cons_self),List.length_cons,List.tail_cons,
      Nat.add_comm]

/-- The groups after the gap are. -/
theorem partsLo_withGap (hafter : ∀ part∈after, part≠[]) :
    partsLo (withGap before after) (1+before.tail.length)=some after.length := by
  have hlength : (withGap before after).length-(1+before.tail.length)-1=
      after.dropLast.length+1 := by
    rw [withGap_eq]
    simp only [List.cons_append,List.length_cons,List.length_append,List.length_nil]
    omega
  rw [partsLo,hlength,withGap_eq,List.getLastD_concat]
  rcases List.eq_nil_or_concat after with rfl | ⟨after,last,rfl⟩
  · rfl
  · rw [List.concat_eq_append] at hafter ⊢
    rw [List.getLastD_concat,if_pos (hafter last (by simp)),List.dropLast_concat,
      List.length_append,List.length_singleton]

/-- The groups before the gap are taken. -/
theorem take_withGap (before after : List (List UInt8)) :
    (withGap before after).take before.length=before := by
  cases before with
  | nil => rfl
  | cons part before => simp [withGap]

/-- The groups after the gap are. -/
theorem drop_withGap (before after : List (List UInt8)) :
    (withGap before after).drop ((withGap before after).length-after.length)=after := by
  cases after with
  | nil => rw [List.length_nil,Nat.sub_zero,List.drop_length]
  | cons part after =>
    have hsplit : withGap before (part::after)=
        ((if before=[] then [[]] else [])++before++[[]])++(part::after) := by
      simp [withGap]
    rw [hsplit,List.length_append,Nat.add_sub_cancel,List.drop_left]

/-- A text with a gap has no more parts than an address may have. -/
theorem length_withGap (before after : List (List UInt8)) :
    before.length+after.length+1≤(withGap before after).length ∧
      (withGap before after).length≤before.length+after.length+3 ∧
        3≤(withGap before after).length := by
  have hside : ∀ l : List (List UInt8),
      (if l=[] then [([] : List UInt8)] else []).length≤1 ∧
        1≤(if l=[] then [([] : List UInt8)] else []).length+l.length := by
    intro l
    cases l <;> simp
  have hbefore := hside before
  have hafter := hside after
  rw [withGap]
  simp only [List.length_append,List.length_singleton]
  omega

/-- Texts of groups are not empty. -/
theorem ne_nil_of_hextets {groups : List ℕ} : ∀ part∈groups.map hextetText, part≠[] := by
  intro part hpart
  obtain ⟨v,-,rfl⟩ := List.mem_map.mp hpart
  exact hextetText_ne_nil v

/-- Groups around a gap are read, with the zeros between them. -/
theorem readParts_withGap {first second : List ℕ} (hfirst : ∀ v∈first, v < 65536)
    (hsecond : ∀ v∈second, v < 65536) (hcount : first.length+second.length≤6) :
    readParts (withGap (first.map hextetText) (second.map hextetText))=
      some (first++.replicate (8-(first.length+second.length)) 0++second) := by
  have hparts := (length_withGap (first.map hextetText) (second.map hextetText)).2.1
  rw [List.length_map,List.length_map] at hparts
  rw [readParts,if_neg (by omega),findSkip_withGap ne_nil_of_hextets ne_nil_of_hextets]
  show ((partsHi _ _).bind fun hi => (partsLo _ _).bind fun lo => readAround _ hi lo)=_
  rw [partsHi_withGap ne_nil_of_hextets,Option.bind_some,partsLo_withGap ne_nil_of_hextets,
    Option.bind_some,readAround,take_withGap,drop_withGap,mapM_parseHextet hfirst,
    mapM_parseHextet hsecond,List.length_map,List.length_map,if_neg (by omega)]
  rfl

/-- Eight groups without a gap are read. -/
theorem readParts_plain {groups : List ℕ} (h : ∀ v∈groups, v < 65536) (hlength : groups.length=8) :
    readParts (groups.map hextetText)=some groups := by
  have hplain : ∀ part∈groups.map hextetText, part≠[] := ne_nil_of_hextets
  have hinner : ∀ part∈(groups.map hextetText).tail.dropLast, part≠[] := fun p hp =>
    hplain p (List.mem_of_mem_tail (List.mem_of_mem_dropLast hp))
  have hne : groups.map hextetText≠[] := by
    rw [Ne,List.map_eq_nil_iff,←List.length_eq_zero_iff]
    omega
  have hhead : (groups.map hextetText).headD []≠[] := by
    rw [List.headD_eq_head?_getD,List.head?_eq_some_head hne,Option.getD_some]
    exact hplain _ (List.head_mem hne)
  have hlast : (groups.map hextetText).getLastD []≠[] := by
    rw [List.getLastD_eq_getLast?,List.getLast?_eq_some_getLast hne,Option.getD_some]
    exact hplain _ (List.getLast_mem hne)
  rw [readParts,if_neg (by rw [List.length_map]; omega),findSkip_plain hinner]
  show (if _ then _ else _)=_
  have hkept : ¬((groups.map hextetText).length≠8 ∨ (groups.map hextetText).headD []=[] ∨
      (groups.map hextetText).getLastD []=[]) := by
    rintro (hother | hother | hother)
    · exact hother (by rw [List.length_map,hlength])
    · exact hhead hother
    · exact hlast hother
  rw [if_neg hkept,mapM_parseHextet h]

/-- Groups with one text are one group. -/
theorem hextetText_injOn {v w : ℕ} (hv : v < 65536) (hw : w < 65536)
    (h : hextetText v=hextetText w) : v=w := by
  have hread := parseHextet_hextetText hv
  rw [h,parseHextet_hextetText hw] at hread
  exact (Option.some.inj hread).symm

/-- What is left out are zeros. -/
theorem map_hextetText_zeros {groups : List ℕ} (h : ∀ v∈groups, v < 65536) {count : ℕ}
    (hzeros : groups.map hextetText=.replicate count [0x30]) : groups=.replicate count 0 := by
  have hlength := congrArg List.length hzeros
  rw [List.length_map,List.length_replicate] at hlength
  refine List.eq_replicate_iff.mpr ⟨hlength,fun v hv => ?_⟩
  have htext : hextetText v∈List.replicate count [0x30] := hzeros▸List.mem_map_of_mem hv
  exact hextetText_injOn (h v hv) (by decide) (List.eq_of_mem_replicate htext)

/-- Groups are read back from what is written of them. -/
theorem readParts_compressHextets {groups : List ℕ} (h : ∀ v∈groups, v < 65536)
    (hlength : groups.length=8) :
    readParts (compressHextets (groups.map hextetText))=some groups := by
  rcases compressHextets_cases (groups.map hextetText) with
    hall | ⟨before,count,after,h2,hparts,hgap⟩
  · rw [hall]
    exact readParts_plain h hlength
  · obtain ⟨front,second,hgroups,hfront,rfl⟩ := List.map_eq_append_iff.mp hparts
    obtain ⟨first,zeros,rfl,rfl,hzeros⟩ := List.map_eq_append_iff.mp hfront
    have hin : ∀ v, v∈first ∨ v∈zeros ∨ v∈second → v < 65536 := by
      intro v hv
      refine h v ?_
      rw [hgroups]
      simpa [or_assoc] using hv
    rw [map_hextetText_zeros (fun v hv => hin v (.inr (.inl hv))) hzeros] at hgroups
    have hsum : first.length+count+second.length=8 := by
      rw [←hlength,hgroups,List.length_append,List.length_append,List.length_replicate]
    have hzero : 8-(first.length+second.length)=count := by omega
    rw [hgap,readParts_withGap (fun v hv => hin v (.inl hv)) (fun v hv => hin v (.inr (.inr hv)))
      (by omega),hzero,hgroups]

/-- The parts around a gap are empty or were there before. -/
theorem mem_withGap {before after : List (List UInt8)} {part : List UInt8}
    (h : part∈withGap before after) : part=[] ∨ part∈before++after := by
  have hside : ∀ l : List (List UInt8), part∈(if l=[] then [([] : List UInt8)] else []) →
      part=[] := by
    intro l hl
    split_ifs at hl
    · exact List.mem_singleton.mp hl
    · exact nomatch hl
  rw [withGap] at h
  simp only [List.mem_append,List.mem_singleton] at h
  rcases h with (((h | h) | h) | h) | h
  · exact Or.inl (hside before h)
  · exact Or.inr (List.mem_append_left after h)
  · exact Or.inl h
  · exact Or.inr (List.mem_append_right before h)
  · exact Or.inl (hside after h)

/-- What is written are groups, and nothing where zeros are left out. -/
theorem mem_compressHextets {parts : List (List UInt8)} {part : List UInt8}
    (h : part∈compressHextets parts) : part=[] ∨ part∈parts := by
  rcases compressHextets_cases parts with hall | ⟨before,count,after,-,hall,hgap⟩
  · exact Or.inr (hall▸h)
  · rw [hgap] at h
    refine (mem_withGap h).imp_right fun hmem => ?_
    rw [hall]
    rcases List.mem_append.mp hmem with hbefore | hafter
    · exact List.mem_append_left after (List.mem_append_left _ hbefore)
    · exact List.mem_append_right _ hafter

/-- The parts that are written have neither colons nor dots in them. -/
theorem compressHextets_plain {groups : List ℕ} {part : List UInt8}
    (h : part∈compressHextets (groups.map hextetText)) : 0x3A∉part ∧ 0x2E∉part := by
  rcases mem_compressHextets h with rfl | hmem
  · simp
  · obtain ⟨v,-,rfl⟩ := List.mem_map.mp hmem
    exact ⟨fun hc => hextetText_digits hc rfl,fun hc => hextetText_digits hc rfl⟩

/-- What is written has three parts or more. -/
theorem three_le_compressHextets (parts : List (List UInt8)) (h : 3≤parts.length) :
    3≤(compressHextets parts).length := by
  rcases compressHextets_cases parts with hall | ⟨before,count,after,-,-,hgap⟩
  · rwa [hall]
  · rw [hgap]
    exact (length_withGap before after).2.2

/-- An address has eight groups. -/
@[simp] theorem length_hextets (a : Vector UInt8 16) : (hextets a).length=8 :=
  List.length_ofFn

/-- They are of two bytes each. -/
theorem hextets_lt {a : Vector UInt8 16} : ∀ v∈hextets a, v < 65536 := by
  intro v hv
  obtain ⟨i,rfl⟩ := List.mem_ofFn.mp hv
  have hhigh := a[2*i.val].toNat_lt
  have hlow := a[2*i.val+1].toNat_lt
  omega

/-- The groups of an address make the address. -/
theorem ofHextets_hextets (a : Vector UInt8 16) : ofHextets (hextets a)=a := by
  refine Vector.ext fun i hi => ?_
  have hgroup : (hextets a).getD (i/2) 0=a[2*(i/2)].toNat*256+a[2*(i/2)+1].toNat := by
    have hindex : i/2 < (hextets a).length := by
      rw [length_hextets]
      omega
    rw [List.getD_eq_getElem?_getD,List.getElem?_eq_getElem hindex,Option.getD_some]
    exact List.getElem_ofFn hindex
  rw [ofHextets,Vector.getElem_ofFn]
  show UInt8.ofNat (if i%2=0 then (hextets a).getD (i/2) 0/256
    else (hextets a).getD (i/2) 0%256)=a[i]
  have hlow := a[2*(i/2)+1].toNat_lt
  rw [hgroup]
  split_ifs with heven
  · have hquotient : (a[2*(i/2)].toNat*256+a[2*(i/2)+1].toNat)/256=a[2*(i/2)].toNat := by omega
    rw [hquotient,UInt8.ofNat_toNat]
    congr 1
    omega
  · have hrest : (a[2*(i/2)].toNat*256+a[2*(i/2)+1].toNat)%256=a[2*(i/2)+1].toNat := by omega
    rw [hrest,UInt8.ofNat_toNat]
    congr 1
    omega

/-- The parts of a written address are those it was joined from. -/
theorem splitOn_str (a : Vector UInt8 16) :
    (str a).splitOn 0x3A=compressHextets ((hextets a).map hextetText) := by
  have hlength := three_le_compressHextets ((hextets a).map hextetText) (by simp)
  refine List.splitOn_intercalate 0x3A (fun part hpart => (compressHextets_plain hpart).1) ?_
  intro hnil
  rw [hnil] at hlength
  exact absurd hlength (by decide)

/-- An address is read back from its text. -/
theorem ipv6Address_str (a : Vector UInt8 16) : ipv6Address (str a)=some a := by
  have hlength := three_le_compressHextets ((hextets a).map hextetText) (by simp)
  have hdots : 0x2E∉(compressHextets ((hextets a).map hextetText)).getLastD [] := by
    intro hdot
    have hne : compressHextets ((hextets a).map hextetText)≠[] := by
      intro hnil
      rw [hnil] at hlength
      exact absurd hlength (by decide)
    rw [List.getLastD_eq_getLast?,List.getLast?_eq_some_getLast hne,Option.getD_some] at hdot
    exact (compressHextets_plain (List.getLast_mem hne)).2 hdot
  have hparts : splitParts (str a)=some (compressHextets ((hextets a).map hextetText)) := by
    rw [splitParts,splitOn_str,if_neg (by omega),if_neg hdots]
  rw [ipv6Address,hparts,Option.bind_some,readParts_compressHextets hextets_lt (length_hextets a),
    Option.map_some,ofHextets_hextets]

/-- Different addresses have different texts. -/
theorem str_injective : Function.Injective str := by
  intro a b h
  have hread := ipv6Address_str a
  rw [h,ipv6Address_str b] at hread
  exact (Option.some.inj hread).symm

end RoundTrip

section Beginning

/-- The text of a group that is not zero. -/
theorem hextetText_ne_zero {v : ℕ} (hv : v < 65536) (h : v≠0) : hextetText v≠[0x30] :=
  fun htext => h (hextetText_injOn hv (by decide) htext)

/-- A first group that is not zero is written as it is, whatever it is. -/
theorem compressHextets_cons (rest : List (List UInt8)) :
    ∃ tail, ∀ hextet≠[0x30], compressHextets (hextet::rest)=hextet::tail := by
  -- the search is the same for every first group that is not zero
  have hsearch : ∀ hextet≠[0x30], longestZeros 0 noZeros (hextet::rest)=
      longestZeros 1 noZeros rest := by
    intro hextet hne
    rw [longestZeros,zerosTurn,if_neg hne]
    rfl
  have hpositive : ∀ hextet : List UInt8, hextet≠[0x30] → ∀ start,
      (longestZeros 1 noZeros rest).bestStart=some start →
      ¬(longestZeros 1 noZeros rest).bestLen≤1 → ∃ s, start=s+1 := by
    intro hextet hne start hstart hlen
    obtain ⟨before,after,hparts,hbefore⟩ :=
      (noZeros_of.all (hextet::rest)).best start (by rw [←hstart,←hsearch hextet hne]; rfl)
    cases before with
    | cons part before => exact ⟨before.length,hbefore⟩
    | nil =>
      have hcount : (longestZeros 0 noZeros (hextet::rest)).bestLen=
          (longestZeros 0 noZeros (hextet::rest)).bestLen-1+1 := by
        rw [hsearch hextet hne]
        omega
      rw [List.nil_append,List.nil_append,List.length_nil,hcount,List.replicate_succ] at hparts
      exact absurd (List.cons.inj hparts).1 hne
  cases hbest : (longestZeros 1 noZeros rest).bestStart with
  | none =>
    refine ⟨rest,fun hextet hne => ?_⟩
    rw [compressHextets,hsearch hextet hne,hbest]
  | some start =>
    by_cases hlen : (longestZeros 1 noZeros rest).bestLen≤1
    · refine ⟨rest,fun hextet hne => ?_⟩
      rw [compressHextets,hsearch hextet hne,hbest]
      exact if_pos hlen
    · obtain ⟨s,rfl⟩ := hpositive [] (List.cons_ne_nil _ _).symm start hbest hlen
      refine ⟨rest.take s++[[]]++rest.drop (s+(longestZeros 1 noZeros rest).bestLen)++
        (if rest.drop (s+(longestZeros 1 noZeros rest).bestLen)=[] then [[]] else []),
        fun hextet hne => ?_⟩
      rw [compressHextets,hsearch hextet hne,hbest]
      show (if _ then _ else _)=_
      rw [if_neg hlen,withGap,List.take_succ_cons,Nat.add_right_comm,List.drop_succ_cons,
        if_neg (List.cons_ne_nil _ _),List.nil_append]
      simp only [List.cons_append]

/-- Parts that are joined, by the first one. -/
theorem intercalate_cons {part : List UInt8} {parts : List (List UInt8)} (h : parts≠[]) :
    [0x3A].intercalate (part::parts)=part++0x3A::[0x3A].intercalate parts := by
  cases parts with
  | nil => exact absurd rfl h
  | cons next parts => simp [List.intercalate,List.intersperse]

/-- The first group of an address. -/
def firstHextet (a : Vector UInt8 16) : ℕ := (hextets a).headD 0

/-- An address is its first group and the others. -/
theorem hextets_eq (a : Vector UInt8 16) : hextets a=firstHextet a::(hextets a).tail := by
  have hlength := length_hextets a
  unfold firstHextet
  cases h : hextets a with
  | nil => rw [h] at hlength; exact nomatch hlength
  | cons v rest => rfl

/-- The first two bytes of an address. -/
theorem firstHextet_eq (a : Vector UInt8 16) :
    firstHextet a=(a.get 0).toNat*256+(a.get 1).toNat := rfl

/-- Addresses that differ in the first group only are written alike after it. -/
theorem exists_str (rest : List ℕ) :
    ∃ text, ∀ a, (hextets a).tail=rest → firstHextet a≠0 →
      str a=hextetText (firstHextet a)++text := by
  obtain ⟨tail,htail⟩ := compressHextets_cons (rest.map hextetText)
  refine ⟨0x3A::[0x3A].intercalate tail,fun a hrest hne => ?_⟩
  have hlt : firstHextet a < 65536 := hextets_lt _ (by rw [hextets_eq a]; exact List.mem_cons_self)
  have hparts := htail (hextetText (firstHextet a)) (hextetText_ne_zero hlt hne)
  have hmap : (hextets a).map hextetText=hextetText (firstHextet a)::rest.map hextetText := by
    rw [hextets_eq a,hrest,List.map_cons]
  have hcount := three_le_compressHextets ((hextets a).map hextetText) (by simp)
  rw [hmap,hparts,List.length_cons] at hcount
  rw [str,hmap,hparts]
  exact intercalate_cons (fun hnil => by simp [hnil] at hcount)

/-- The first part that is written is the first group, or empty. -/
theorem headD_compressHextets (parts : List (List UInt8)) :
    (compressHextets parts).headD []=[] ∨ (compressHextets parts).headD []=parts.headD [] := by
  rcases compressHextets_cases parts with hall | ⟨before,count,after,-,hparts,hgap⟩
  · exact Or.inr (by rw [hall])
  · rw [hgap,withGap_eq,hparts]
    cases before with
    | nil => exact Or.inl rfl
    | cons part before => exact Or.inr rfl

/-- Four digits that a text begins with are all of its first group. -/
theorem firstHextet_of_take {a : Vector UInt8 16} {v : ℕ} (hv : v < 65536)
    (h : (str a).take 4=hextetText v) : firstHextet a=v := by
  have hlt : firstHextet a < 65536 := hextets_lt _ (by rw [hextets_eq a]; exact List.mem_cons_self)
  have hcount := three_le_compressHextets ((hextets a).map hextetText) (by simp)
  have hhead := headD_compressHextets ((hextets a).map hextetText)
  rw [hextets_eq a,List.map_cons,List.headD_cons] at hhead
  rw [←List.map_cons,←hextets_eq a] at hhead
  have htext : str a=[0x3A].intercalate (compressHextets ((hextets a).map hextetText)) := rfl
  cases hparts : compressHextets ((hextets a).map hextetText) with
  | nil => rw [hparts] at hcount; exact nomatch hcount
  | cons part parts =>
    rw [hparts,List.length_cons] at hcount
    rw [hparts,List.headD_cons] at hhead
    rw [hparts,intercalate_cons (fun hnil => by simp [hnil] at hcount)] at htext
    have hle : part.length≤4 := by
      rcases hhead with hnil | heq
      · simp [hnil]
      · rw [heq]
        exact length_hextetText_le hlt
    -- a shorter first part would put a colon among the four digits
    have hfull : part.length=4 := by
      by_contra hshort
      have hcolon : 0x3A∈(str a).take 4 := by
        rw [htext,List.take_append,List.take_of_length_le hle]
        refine List.mem_append_right part ?_
        obtain ⟨k,hk⟩ : ∃ k, 4-part.length=k+1 := ⟨4-part.length-1,by omega⟩
        rw [hk,List.take_succ_cons]
        exact List.mem_cons_self
      rw [h] at hcolon
      exact hextetText_digits hcolon rfl
    rw [htext,List.take_append,List.take_of_length_le hle,hfull,Nat.sub_self,List.take_zero,
      List.append_nil] at h
    rcases hhead with hnil | heq
    · rw [hnil] at hfull
      exact nomatch hfull
    · exact hextetText_injOn hlt hv (heq▸h)

end Beginning

section Characters

/-- What is joined consists of its parts and of colons. -/
theorem mem_intercalate {parts : List (List UInt8)} {c : UInt8}
    (h : c∈[0x3A].intercalate parts) : c=0x3A ∨ ∃ part∈parts, c∈part := by
  induction parts with
  | nil => exact nomatch h
  | cons part parts ih =>
    by_cases hparts : parts=[]
    · rw [hparts] at h
      exact Or.inr ⟨part,List.mem_cons_self,by simpa [List.intercalate] using h⟩
    · rw [intercalate_cons hparts] at h
      rcases List.mem_append.mp h with hpart | hrest
      · exact Or.inr ⟨part,List.mem_cons_self,hpart⟩
      · rcases List.mem_cons.mp hrest with rfl | hrest
        · exact Or.inl rfl
        · refine (ih hrest).imp_right fun ⟨p,hp,hc⟩ => ⟨p,List.mem_cons_of_mem part hp,hc⟩

/-- An address is written with digits and colons. -/
theorem str_characters {a : Vector UInt8 16} {c : UInt8} (h : c∈str a) :
    c=0x3A ∨ hexValue c≠none := by
  refine (mem_intercalate h).imp_right fun ⟨part,hpart,hc⟩ => ?_
  rcases mem_compressHextets hpart with rfl | hmem
  · exact nomatch hc
  · obtain ⟨v,-,rfl⟩ := List.mem_map.mp hmem
    exact hextetText_digits hc

/-- The text of an address is that of no IPv4 address. -/
theorem ipAddress_str (a : Vector UInt8 16) : ipAddress (str a)=some (.inr a) := by
  have hdot : 0x2E∉str a := fun h => by
    rcases str_characters h with hcolon | hdigit
    · exact absurd hcolon (by decide)
    · exact hdigit rfl
  have hnone : ipv4Address (str a)=none := by
    rw [ipv4Address,List.splitOn_eq_singleton hdot]
    rfl
  rw [ipAddress,hnone,ipv6Address_str]
  rfl

end Characters

end TrustAlloc.Ipv6Text
