import TrustAlloc.BridgeHandshake
import TrustAlloc.ClientLines
import TrustAlloc.Ipv6Text
import Mathlib.Data.List.DropRight

/-!
# Tasks on their way to the clients

A node posts a task to an application at the edge, which prints it with the
node's address, its length and its bytes in hexadecimal digits. The bridge puts
the time in front and hands it to the client of the application, which takes it
apart again. A line that was cut short on the serial line is never taken for
another task. Texts of addresses and times are parameters.
-/

namespace TrustAlloc.TaskLines

open BridgeHandshake ClientLines EdgeInfo RouteChunks
open Ipv6Text (hexValue)
open TaskResponse (digitsValue isdigit isspace matchAction serialSep)

section Hexadecimal

/-- A digit of `%02X`. -/
def hexDigit (v : ℕ) : UInt8 := UInt8.ofNat (if v < 10 then 0x30+v else 0x37+v)

/-- `printf("%02X", payload[i])` for all bytes. -/
def printHex (payload : List UInt8) : List UInt8 :=
  payload.flatMap fun b => [hexDigit (b.toNat/16),hexDigit (b.toNat%16)]

/-- `bytes.fromhex`, which skips whitespace between bytes. -/
def fromhex : List UInt8 → Option (List UInt8)
  | [] => some []
  | [c] => if isspace c=true then some [] else none
  | c::d::rest =>
    if isspace c=true then fromhex (d::rest)
    else do
      let high ← hexValue c
      let low ← hexValue d
      let bytes ← fromhex rest
      return UInt8.ofNat (16*high+low)::bytes

/-- A printed digit has its value, and is no whitespace. -/
theorem hexValue_hexDigit {v : ℕ} (h : v < 16) :
    hexValue (hexDigit v)=some v ∧ isspace (hexDigit v)=false := by
  interval_cases v <;> decide

/-- Printed bytes are read back, also in front of something else. -/
theorem fromhex_printHex (payload rest : List UInt8) :
    fromhex (printHex payload++rest)=(fromhex rest).map (payload++·) := by
  induction payload with
  | nil => simp [printHex]
  | cons b payload ih =>
    have hb := b.toNat_lt
    obtain ⟨hhigh,hspace⟩ := hexValue_hexDigit (v:=b.toNat/16) (by omega)
    obtain ⟨hlow,_⟩ := hexValue_hexDigit (v:=b.toNat%16) (by omega)
    have hbyte : UInt8.ofNat (16*(b.toNat/16)+b.toNat%16)=b := by
      rw [Nat.div_add_mod]
      simp
    change fromhex (hexDigit (b.toNat/16)::hexDigit (b.toNat%16)::(printHex payload++rest))=_
    rw [fromhex,hspace,if_neg (by decide),hhigh,hlow,ih]
    simp only [Option.bind_eq_bind,Option.bind_some,hbyte]
    cases fromhex rest <;> rfl

/-- There are two digits for each byte. -/
theorem length_printHex (payload : List UInt8) : (printHex payload).length=2*payload.length := by
  induction payload with
  | nil => rfl
  | cons b payload ih =>
    simp only [printHex,List.flatMap_cons,List.length_append,List.length_cons,List.length_nil]
      at ih ⊢
    omega

/-- Fewer digits are not read as the same number of bytes. -/
theorem length_le_of_fromhex {text bytes : List UInt8} (h : fromhex text=some bytes) :
    2*bytes.length≤text.length := by
  induction text using fromhex.induct generalizing bytes with
  | case1 =>
    cases h
    exact Nat.le_refl _
  | case2 c hspace =>
    rw [fromhex,if_pos hspace] at h
    cases h
    exact Nat.zero_le _
  | case3 c hspace =>
    rw [fromhex,if_neg hspace] at h
    cases h
  | case4 c d rest hspace ih =>
    rw [fromhex,if_pos hspace] at h
    have hrest := ih h
    simp only [List.length_cons] at hrest ⊢
    omega
  | case5 c d rest hspace ih =>
    rw [fromhex,if_neg hspace] at h
    simp only [Option.bind_eq_bind,Option.bind_eq_some_iff] at h
    obtain ⟨high,_,low,_,tail,htail,hbytes⟩ := h
    cases hbytes
    have hrest := ih htail
    simp only [List.length_cons]
    omega

end Hexadecimal

section Texts

/-- `str.isspace` of a character in ASCII. -/
def pySpace (c : UInt8) : Bool := isspace c || decide (0x1C≤c ∧ c≤0x1F)

/-- `str.rstrip`. -/
def rstrip (text : List UInt8) : List UInt8 := text.rdropWhile pySpace

/-- `int`, on what is no number: nothing. -/
def pyInt (text : List UInt8) : Option ℤ :=
  let (negative,digits) := TaskResponse.takeSign (rstrip (text.dropWhile pySpace))
  let groups := digits.splitOn 0x5F
  if groups.all (fun group => decide (group≠[]) && group.all isdigit)=true then
    let value : ℤ := digitsValue groups.flatten
    some (if negative=true then -value else value)
  else none

/-- `message.split(serial_sep, maxsplit)`. -/
def split : ℕ → List UInt8 → List (List UInt8)
  | 0,text => [text]
  | maxsplit+1,text => match splitOnce text with
    | none => [text]
    | some (first,rest) => first::split maxsplit rest

/-- A text in front of a separator is split off. -/
theorem splitOnce_append {text : List UInt8} (h : serialSep∉text) (rest : List UInt8) :
    splitOnce (text++serialSep::rest)=some (text,rest) := by
  have hpos : ∀ c∈text, decide (c≠serialSep)=true := fun c hc =>
    decide_eq_true fun hsep => h (hsep ▸ hc)
  unfold splitOnce
  rw [if_pos (by simp),List.takeWhile_append_of_pos hpos,List.dropWhile_append_of_pos hpos,
    List.takeWhile_cons_of_neg (by decide),List.dropWhile_cons_of_neg (by decide),List.append_nil]
  rfl

/-- A text without a separator is not split. -/
theorem splitOnce_eq_none {text : List UInt8} (h : serialSep∉text) : splitOnce text=none :=
  if_neg h

/-- A number is read as it was printed. -/
theorem pyInt_decimal (v : ℕ) : pyInt (decimal v)=some (v : ℤ) := by
  obtain ⟨hdigits,hne⟩ := decimal_digits v
  have hvalue := digitsValue_decimal v
  have hspace : ∀ c∈decimal v, pySpace c=false := fun c hc => by
    have hplain := (plain_of_isdigit (hdigits c hc)).1
    have hdigit := hdigits c hc
    simp only [pySpace,hplain,Bool.false_or,decide_eq_false_iff_not]
    simp only [isdigit,decide_eq_true_eq] at hdigit
    rintro ⟨_,hle⟩
    exact absurd (UInt8.le_trans hdigit.1 hle) (by decide)
  generalize decimal v=digits at hdigits hne hvalue hspace
  have hstrip : rstrip (digits.dropWhile pySpace)=digits := by
    obtain ⟨d,tail,rfl⟩ := List.exists_cons_of_ne_nil hne
    rw [List.dropWhile_cons_of_neg (by rw [hspace d List.mem_cons_self]; decide),rstrip,
      List.rdropWhile_eq_self_iff]
    intro hlast
    rw [hspace _ (List.getLast_mem hlast)]
    decide
  have hsign : TaskResponse.takeSign digits=(false,digits) := by
    obtain ⟨d,tail,rfl⟩ := List.exists_cons_of_ne_nil hne
    obtain ⟨_,hminus,hplus⟩ := plain_of_isdigit (hdigits d List.mem_cons_self)
    exact (if_neg hminus).trans (if_neg hplus)
  have hgroups : digits.splitOn 0x5F=[digits] := by
    refine List.splitOnP_eq_singleton fun c hc => ?_
    have hdigit := hdigits c hc
    refine beq_eq_false_iff_ne.mpr fun hunder => ?_
    rw [hunder] at hdigit
    exact absurd hdigit (by decide)
  unfold pyInt
  rw [hstrip,hsign]
  dsimp only
  rw [hgroups,if_pos (by simpa [hne] using hdigits),List.flatten_singleton,hvalue]
  rfl

end Texts

section Programs

variable {T : Type}

/-- Texts of addresses and times. -/
structure TextEnv (T : Type) where
  /-- `uiplib_ipaddr_print`. -/
  uiplibIpaddrPrint : IpAddr → List UInt8
  /-- `datetime.isoformat`. -/
  isoformat : T → List UInt8
  /-- `datetime.fromisoformat`. -/
  fromisoformat : List UInt8 → Option T
  /-- `ipaddress.IPv6Address`. -/
  ipv6Address : List UInt8 → Option IpAddr

/-- What the handlers of a POST print for a task, without the newline. -/
def taskLine (env : TextEnv T) (name : List UInt8) (src : IpAddr) (payload : List UInt8) :
    List UInt8 :=
  applicationEdgeMarker::(name++serialSep::(env.uiplibIpaddrPrint src++serialSep::
    (decimal payload.length++serialSep::printHex payload)))

/-- What becomes of a line that the bridge reads. -/
inductive Forwarding where
  /-- It is written to the client of an application. -/
  | forwarded (name text : List UInt8)
  /-- There is no such client. -/
  | notFound
  /-- It cannot be split, which raises. -/
  | raised
  /-- It is not for an application. -/
  | other

/-- `_process_serial_output`, by the names that are registered. -/
def processSerialOutput (registered : List UInt8 → Bool) (now line : List UInt8) : Forwarding :=
  match splitOnce line with
  | none => .raised
  | some (applicationName,payload) =>
    if registered applicationName=true then
      .forwarded applicationName (now++serialSep::payload)
    else .notFound

/-- `_run_serial`, as far as applications are concerned. -/
def runSerialOutput (registered : List UInt8 → Bool) (now output : List UInt8) : Forwarding :=
  let line := rstrip output
  if matchAction line [applicationEdgeMarker]=true then
    processSerialOutput registered now (line.drop 1)
  else .other

/-- `"cancel"`. -/
def cancelPayload : List UInt8 := [0x63,0x61,0x6E,0x63,0x65,0x6C]

/-- What `run` takes a line for, which is not the end of the stream. -/
def clientLine (text : List UInt8) : ClientAcks.Line :=
  let line := rstrip text
  if serialSep::ackPayload<:+line then .ack
  else if serialSep::cancelPayload<:+line then .cancel
  else .task

/-- A task as `receive` hands it to the executor, before it is decoded. -/
structure Task (T : Type) where
  /-- `dt`. -/
  dt : T
  /-- `src`. -/
  src : IpAddr
  /-- `payload`. -/
  payload : List UInt8

/-- `receive`, up to the decoding of the payload. -/
def receive (env : TextEnv T) (message : List UInt8) : Option (Task T) :=
  match split 3 message with
  | [dt,src,payloadLen,payload] => do
    let dt ← env.fromisoformat dt
    let src ← env.ipv6Address src
    let payloadLen ← pyInt payloadLen
    let payload ← fromhex payload
    if (payload.length : ℤ)≠payloadLen then none else some ⟨dt,src,payload⟩
  | _ => none

/-- `run` and `receive` of a client. -/
def clientTakes (env : TextEnv T) (text : List UInt8) : Option (Task T) :=
  match clientLine text with
  | .task => receive env (rstrip text)
  | .ack | .cancel | .closed => none

/-- The client and the task that come of what the edge prints. -/
def delivered (env : TextEnv T) (registered : List UInt8 → Bool) (now : T) (output : List UInt8) :
    Option (List UInt8×Task T) :=
  match runSerialOutput registered (env.isoformat now) output with
  | .forwarded name text => (clientTakes env text).map fun task => (name,task)
  | .notFound | .raised | .other => none

/-- A character of an address: a hexadecimal digit, a colon or a dot. -/
def addressChar (c : UInt8) : Bool := (hexValue c).isSome || decide (c=0x3A ∨ c=0x2E)

/-- Addresses and times are read as they were printed. -/
structure TextEnv.Lawful (env : TextEnv T) : Prop where
  /-- Times are read. -/
  fromisoformat : ∀ t, env.fromisoformat (env.isoformat t)=some t
  /-- They have no separator. -/
  isoformat : ∀ t, serialSep∉env.isoformat t
  /-- Addresses are read. -/
  ipv6Address : ∀ a, env.ipv6Address (env.uiplibIpaddrPrint a)=some a
  /-- They are printed in these characters. -/
  printed : ∀ a, ∀ c∈env.uiplibIpaddrPrint a, addressChar c=true

/-- A name without a separator and without whitespace. -/
def Word (name : List UInt8) : Prop := ∀ c∈name, c≠serialSep ∧ pySpace c=false

/-- It is decided character by character. -/
instance decidableWord (name : List UInt8) : Decidable (Word name) :=
  List.decidableBAll (fun c => c≠serialSep ∧ pySpace c=false) name

end Programs

section Characters

/-- A character of a task behind the name. -/
def taskChar (c : UInt8) : Bool := decide (c=serialSep) || addressChar c

/-- Such characters are no whitespace, and no ack and no cancel ends in one. -/
theorem taskChar_plain {c : UInt8} (h : taskChar c=true) :
    pySpace c=false ∧ c≠0x6B ∧ c≠0x6C := by
  have hall : ∀ n < 256, taskChar (UInt8.ofNat n)=true →
      pySpace (UInt8.ofNat n)=false ∧ UInt8.ofNat n≠0x6B ∧ UInt8.ofNat n≠0x6C := by
    decide +kernel
  have hof : UInt8.ofNat c.toNat=c := by simp
  have hc := hall c.toNat (UInt8.toNat_lt c)
  rw [hof] at hc
  exact hc h

/-- An address has no separator. -/
theorem addressChar_ne {c : UInt8} (h : addressChar c=true) : c≠serialSep := by
  rintro rfl
  revert h
  decide

/-- Digits are such characters. -/
theorem addressChar_of_isdigit {c : UInt8} (h : isdigit c=true) : addressChar c=true := by
  have hc : 0x30≤c ∧ c≤0x39 := of_decide_eq_true h
  simp [addressChar,hexValue,hc]

/-- So are hexadecimal digits. -/
theorem addressChar_printHex (payload : List UInt8) :
    ∀ c∈printHex payload, addressChar c=true := by
  have hdigit : ∀ v < 16, addressChar (hexDigit v)=true := by decide
  intro c hc
  obtain ⟨b,_,hb⟩ := List.mem_flatMap.mp hc
  have hlt := b.toNat_lt
  rcases List.mem_cons.mp hb with rfl | hb
  · exact hdigit _ (by omega)
  · rw [List.mem_singleton.mp hb]
    exact hdigit _ (by omega)

/-- A prefix of a text with something in it ends before it or goes beyond it. -/
theorem prefix_append_cons {α : Type} {a r p : List α} {x : α} (h : p<+:a++x::r) :
    p<+:a ∨ ∃ p', p=a++x::p' ∧ p'<+:r := by
  obtain hshort | ⟨t,rfl⟩ := List.prefix_or_prefix_of_prefix h (List.prefix_append a (x::r))
  · exact Or.inl hshort
  · obtain rfl | ⟨t',rfl,ht'⟩ := List.prefix_cons_iff.mp
      ((List.prefix_append_right_inj a).mp h)
    · exact Or.inl (by simp)
    · exact Or.inr ⟨t',rfl,ht'⟩

/-- A text whose last character is no whitespace is not stripped. -/
theorem rstrip_eq_self {text : List UInt8} {c : UInt8} (hc : text.getLast?=some c)
    (hspace : pySpace c=false) : rstrip text=text := by
  rw [rstrip,List.rdropWhile_eq_self_iff]
  intro hne
  rw [List.getLast?_eq_some_getLast hne] at hc
  rw [Option.some.inj hc,hspace]
  decide

end Characters

section Whole

variable {T : Type} {env : TextEnv T} {registered : List UInt8 → Bool} {name : List UInt8}
  {src : IpAddr} {payload : List UInt8} {p cut : List UInt8}

/-- A task line behind the name. -/
def taskTail (env : TextEnv T) (src : IpAddr) (payload : List UInt8) : List UInt8 :=
  env.uiplibIpaddrPrint src++serialSep::(decimal payload.length++serialSep::printHex payload)

/-- Its characters. -/
theorem taskChar_tail (hE : env.Lawful) (src : IpAddr) (payload : List UInt8) :
    ∀ c∈serialSep::taskTail env src payload, taskChar c=true := by
  have haddress : ∀ c, addressChar c=true → taskChar c=true := fun c hc => by
    rw [taskChar,hc,Bool.or_true]
  have hsep : taskChar serialSep=true := by decide
  intro c hc
  simp only [taskTail,List.mem_cons,List.mem_append] at hc
  rcases hc with rfl | hprinted | rfl | hlen | rfl | hhex
  · exact hsep
  · exact haddress c (hE.printed src c hprinted)
  · exact hsep
  · exact haddress c (addressChar_of_isdigit ((decimal_digits payload.length).1 c hlen))
  · exact hsep
  · exact haddress c (addressChar_printHex payload c hhex)

/-- What the bridge forwards of the beginning of a task line is the beginning
of the task. -/
theorem runSerialOutput_cut (hE : env.Lawful) (hname : Word name)
    (hregistered : registered name=true) (now : List UInt8)
    (hcut : cut<+:taskLine env name src payload) :
    (∃ p, cut=applicationEdgeMarker::(name++serialSep::p) ∧ p<+:taskTail env src payload ∧
      runSerialOutput registered now cut=.forwarded name (now++serialSep::p)) ∨
    cut.length≤name.length+1 ∧ ∀ n text, runSerialOutput registered now cut≠.forwarded n text := by
  have hspace : ∀ c∈taskLine env name src payload, pySpace c=false := by
    intro c hc
    simp only [taskLine,List.mem_cons (a:=c) (b:=applicationEdgeMarker),List.mem_append (s:=name)]
      at hc
    rcases hc with rfl | hc | hc
    · decide
    · exact (hname c hc).2
    · exact (taskChar_plain (taskChar_tail hE src payload c hc)).1
  cases cut with
  | nil => exact Or.inr ⟨Nat.zero_le _,fun _ _ => Forwarding.noConfusion⟩
  | cons marker rest =>
    obtain ⟨rfl,hrest⟩ := List.cons_prefix_cons.mp hcut
    have hstrip : rstrip (applicationEdgeMarker::rest)=applicationEdgeMarker::rest := by
      obtain ⟨c,hc⟩ := Option.ne_none_iff_exists'.mp
        (mt List.getLast?_eq_none_iff.mp (List.cons_ne_nil applicationEdgeMarker rest))
      exact rstrip_eq_self hc (hspace c (hcut.subset (List.mem_of_getLast? hc)))
    have hrun : runSerialOutput registered now (applicationEdgeMarker::rest)=
        processSerialOutput registered now rest := by
      unfold runSerialOutput
      rw [hstrip]
      exact if_pos rfl
    have hsep : serialSep∉name := fun hmem => (hname serialSep hmem).1 rfl
    obtain hshort | ⟨p,rfl,hp⟩ := prefix_append_cons hrest
    · refine Or.inr ⟨Nat.succ_le_succ hshort.length_le,fun n text => ?_⟩
      rw [hrun,processSerialOutput,splitOnce_eq_none fun hmem => hsep (hshort.subset hmem)]
      exact Forwarding.noConfusion
    · refine Or.inl ⟨p,rfl,hp,?_⟩
      rw [hrun,processSerialOutput,splitOnce_append hsep]
      exact if_pos hregistered

/-- The client takes it for a task. -/
theorem clientLine_task (now : List UInt8) (hp : ∀ c∈serialSep::p, taskChar c=true) :
    clientLine (now++serialSep::p)=.task ∧
      rstrip (now++serialSep::p)=now++serialSep::p := by
  obtain ⟨c,hc⟩ := Option.ne_none_iff_exists'.mp
    (mt List.getLast?_eq_none_iff.mp (List.cons_ne_nil serialSep p))
  have hlast : (now++serialSep::p).getLast?=some c := by
    rw [List.getLast?_append,hc]
    rfl
  obtain ⟨hspace,hk,hl⟩ := taskChar_plain (hp c (List.mem_of_getLast? hc))
  have hstrip := rstrip_eq_self hlast hspace
  have hsuffix : ∀ text d, (text++[d])<:+now++serialSep::p → d=c := by
    rintro text d ⟨front,hfront⟩
    rw [←hfront,←List.append_assoc,List.getLast?_concat] at hlast
    exact Option.some.inj hlast
  have hack : ¬serialSep::ackPayload<:+now++serialSep::p := fun h =>
    hk (hsuffix [serialSep,0x61,0x63] 0x6B h).symm
  have hcancel : ¬serialSep::cancelPayload<:+now++serialSep::p := fun h =>
    hl (hsuffix [serialSep,0x63,0x61,0x6E,0x63,0x65] 0x6C h).symm
  refine ⟨?_,hstrip⟩
  unfold clientLine
  rw [hstrip]
  dsimp only
  rw [if_neg hack,if_neg hcancel]

/-- The client receives the whole task, or nothing. -/
theorem receive_cut (hE : env.Lawful) (now : T) (hp : p<+:taskTail env src payload) :
    receive env (env.isoformat now++serialSep::p)=
      if p=taskTail env src payload then some ⟨now,src,payload⟩ else none := by
  have hdecimal : serialSep∉decimal payload.length := (plain_decimal payload.length).1
  have hsrc : serialSep∉env.uiplibIpaddrPrint src := fun hmem =>
    addressChar_ne (hE.printed src serialSep hmem) rfl
  unfold receive
  rw [split,splitOnce_append (hE.isoformat now)]
  dsimp only
  obtain hshort | ⟨q,rfl,hq⟩ := prefix_append_cons hp
  · rw [split,splitOnce_eq_none fun hmem => hsrc (hshort.subset hmem),if_neg]
    rintro rfl
    exact hsrc (hshort.subset (by simp [taskTail]))
  rw [split,splitOnce_append hsrc]
  dsimp only
  obtain hshort | ⟨hex,rfl,hhex⟩ := prefix_append_cons hq
  · rw [split,splitOnce_eq_none fun hmem => hdecimal (hshort.subset hmem),if_neg]
    intro heq
    have htail := List.append_cancel_left heq
    rw [List.cons.injEq] at htail
    exact hdecimal (hshort.subset (by simp [htail.2]))
  rw [split,splitOnce_append hdecimal]
  dsimp only [split]
  rw [hE.fromisoformat,hE.ipv6Address,pyInt_decimal]
  simp only [Option.bind_eq_bind,Option.bind_some]
  have hwhole : env.uiplibIpaddrPrint src++serialSep::(decimal payload.length++serialSep::hex)=
      taskTail env src payload ↔ hex=printHex payload := by
    simp [taskTail]
  rw [if_congr hwhole rfl rfl]
  split_ifs with heq
  · have hread := fromhex_printHex payload []
    rw [List.append_nil] at hread
    rw [heq,hread]
    simp [fromhex]
  · cases hbytes : fromhex hex with
    | none => rfl
    | some bytes =>
      have hlen := length_le_of_fromhex hbytes
      have hcut : hex.length < 2*payload.length := by
        rw [←length_printHex]
        exact Nat.lt_of_le_of_ne hhex.length_le fun hsame => heq (hhex.eq_of_length hsame)
      rw [Option.bind_some,if_pos]
      omega

/-- What is delivered of the beginning of a task line: the task, if it is the
whole line. -/
theorem delivered_cut (hE : env.Lawful) (hname : Word name) (hregistered : registered name=true)
    (now : T) (hcut : cut<+:taskLine env name src payload) :
    delivered env registered now cut=
      if cut=taskLine env name src payload then some (name,⟨now,src,payload⟩) else none := by
  unfold delivered
  obtain ⟨p,rfl,hp,hrun⟩ | ⟨hshort,hrun⟩ :=
    runSerialOutput_cut hE hname hregistered (env.isoformat now) hcut
  · have hchars : ∀ c∈serialSep::p, taskChar c=true := fun c hc =>
      taskChar_tail hE src payload c ((List.cons_prefix_cons.mpr ⟨rfl,hp⟩).subset hc)
    obtain ⟨htask,hstrip⟩ := clientLine_task (env.isoformat now) hchars
    have hsame : applicationEdgeMarker::(name++serialSep::p)=taskLine env name src payload ↔
        p=taskTail env src payload := by
      simp [taskLine,taskTail]
    rw [hrun]
    dsimp only [clientTakes]
    rw [htask,hstrip]
    dsimp only
    rw [receive_cut hE now hp,if_congr hsame rfl rfl]
    split_ifs <;> rfl
  · rw [if_neg]
    · split
      · next n text hforwarded => exact absurd hforwarded (hrun n text)
      · rfl
      · rfl
      · rfl
    · rintro rfl
      simp [taskLine] at hshort

/-- The whole line is delivered. -/
theorem delivered_taskLine (hE : env.Lawful) (hname : Word name)
    (hregistered : registered name=true) (now : T) (src : IpAddr) (payload : List UInt8) :
    delivered env registered now (taskLine env name src payload)=
      some (name,⟨now,src,payload⟩) := by
  rw [delivered_cut hE hname hregistered now (List.prefix_refl _),if_pos rfl]

/-- A task line reaches the client of its application as the task, and what is
cut short does not reach anyone as a task, nor as an ack or a cancel. -/
structure WholeOrNothing (env : TextEnv T) (registered : List UInt8 → Bool) (now : T)
    (name : List UInt8) (src : IpAddr) (payload : List UInt8) : Prop where
  /-- The whole line. -/
  whole : delivered env registered now (taskLine env name src payload)=
    some (name,⟨now,src,payload⟩)
  /-- A line that was cut short. -/
  cut : ∀ cut, cut<+:taskLine env name src payload → cut≠taskLine env name src payload →
    delivered env registered now cut=none
  /-- In either case. -/
  task : ∀ cut n text, cut<+:taskLine env name src payload →
    runSerialOutput registered (env.isoformat now) cut=.forwarded n text →
      n=name ∧ clientLine text=.task

/-- **Tasks of nodes.** Every task, for every application that has a client at
the bridge, is received by that client as it was posted, or not at all. -/
theorem wholeOrNothing (hE : env.Lawful) (hname : Word name) (hregistered : registered name=true)
    (now : T) (src : IpAddr) (payload : List UInt8) :
    WholeOrNothing env registered now name src payload := by
  refine ⟨delivered_taskLine hE hname hregistered now src payload,fun cut hcut hne => ?_,
    fun cut n text hcut hforwarded => ?_⟩
  · rw [delivered_cut hE hname hregistered now hcut,if_neg hne]
  · obtain ⟨p,rfl,hp,hrun⟩ | ⟨_,hrun⟩ :=
      runSerialOutput_cut hE hname hregistered (env.isoformat now) hcut
    · have hchars : ∀ c∈serialSep::p, taskChar c=true := fun c hc =>
        taskChar_tail hE src payload c ((List.cons_prefix_cons.mpr ⟨rfl,hp⟩).subset hc)
      rw [hrun] at hforwarded
      cases hforwarded
      exact ⟨rfl,(clientLine_task (env.isoformat now) hchars).1⟩
    · exact absurd hforwarded (hrun n text)

end Whole

section Sample

/-- Bytes in groups of two, with colons in between. -/
def colonHex : List UInt8 → List UInt8
  | a::b::c::rest => printHex [a,b]++0x3A::colonHex (c::rest)
  | bytes => printHex bytes

/-- The address in such a text. -/
def readColonHex (text : List UInt8) : Option IpAddr :=
  (fromhex (text.filter fun c => decide (c≠0x3A))).map fun bytes =>
    Vector.ofFn fun i => bytes.getD i.val 0

/-- Without the colons there are the digits of the bytes. -/
theorem filter_colonHex (bytes : List UInt8) :
    (colonHex bytes).filter (fun c => decide (c≠0x3A))=printHex bytes := by
  have hdigits : ∀ bytes, (printHex bytes).filter (fun c => decide (c≠0x3A))=printHex bytes := by
    intro bytes
    refine List.filter_eq_self.mpr fun c hc => decide_eq_true ?_
    have hdigit : ∀ v < 16, hexDigit v≠0x3A := by decide
    obtain ⟨b,_,hb⟩ := List.mem_flatMap.mp hc
    have hlt := b.toNat_lt
    rcases List.mem_cons.mp hb with rfl | hb
    · exact hdigit _ (by omega)
    · rw [List.mem_singleton.mp hb]
      exact hdigit _ (by omega)
  induction bytes using colonHex.induct with
  | case1 a b c rest ih =>
    rw [colonHex,List.filter_append,hdigits,List.filter_cons_of_neg (by decide),ih]
    rfl
  | case2 bytes hshort => rw [colonHex,hdigits]; exact hshort

/-- The address is read back. -/
theorem readColonHex_colonHex (a : IpAddr) : readColonHex (colonHex a.toList)=some a := by
  have hread := fromhex_printHex a.toList []
  rw [List.append_nil] at hread
  rw [readColonHex,filter_colonHex,hread]
  simp only [fromhex,Option.map_some,List.append_nil,Option.some.injEq]
  ext i hi
  simp [List.getD]

/-- Its characters. -/
theorem addressChar_colonHex (bytes : List UInt8) : ∀ c∈colonHex bytes, addressChar c=true := by
  induction bytes using colonHex.induct with
  | case1 a b c rest ih =>
    intro d hd
    rw [colonHex,List.mem_append,List.mem_cons] at hd
    rcases hd with hd | rfl | hd
    · exact addressChar_printHex _ d hd
    · decide
    · exact ih d hd
  | case2 bytes hshort =>
    rw [colonHex]
    · exact addressChar_printHex bytes
    · exact hshort

/-- `2023-05-17T10:20:30.123456+00:00`. -/
def sampleMoment : List UInt8 := [0x32,0x30,0x32,0x33,0x2D,0x30,0x35,0x2D,0x31,0x37,0x54,0x31,0x30,
  0x3A,0x32,0x30,0x3A,0x33,0x30,0x2E,0x31,0x32,0x33,0x34,0x35,0x36,0x2B,0x30,0x30,0x3A,0x30,0x30]

/-- Addresses without zeros to leave out, at one moment. -/
def sampleTextEnv : TextEnv Unit where
  uiplibIpaddrPrint a := colonHex a.toList
  isoformat _ := sampleMoment
  fromisoformat text := if text=sampleMoment then some () else none
  ipv6Address := readColonHex

/-- They are read as they were printed. -/
theorem sampleTextEnv_lawful : sampleTextEnv.Lawful where
  fromisoformat _ := rfl
  isoformat _ := by
    change serialSep∉sampleMoment
    decide
  ipv6Address := readColonHex_colonHex
  printed a := addressChar_colonHex a.toList

/-- The address `2001:1234:1111:2222:3333:4444:5555:6666`. -/
def sampleSource : IpAddr := #v[0x20,0x01,0x12,0x34,0x11,0x11,0x22,0x22,0x33,0x33,0x44,0x44,0x55,
  0x55,0x66,0x66]

/-- Three bytes for the challenge-response application. -/
theorem wholeOrNothing_sample :
    Word ChallengeResponse.challengeResponseApplicationName ∧
      WholeOrNothing sampleTextEnv (fun _ => true) ()
        ChallengeResponse.challengeResponseApplicationName sampleSource [0x82,0x01,0x7C] :=
  ⟨by decide,wholeOrNothing sampleTextEnv_lawful (by decide) rfl () sampleSource [0x82,0x01,0x7C]⟩

end Sample

end TrustAlloc.TaskLines
