import TrustAlloc.TaskResponseRuns

/-!
# Packets put together on the edge

The parts of a packet are decoded one behind the other into a buffer that
status messages use as well, and neither a refused line nor a new packet takes
back what is there. As long as no status is written over parts that wait, what
is sent is one packet exactly when its parts, and no other ones, have come in
order since the last packet was complete.
-/

namespace TrustAlloc.TaskPackets

open Base64 Certificates Keystore MqttPublish Runs TaskResponse TaskResponseRuns

variable {D : Type} {env : Env D} {s s' : State} {sending : Sending}

section Buffers

/-- What is written at an offset stands behind what was in front of it. -/
theorem take_overwrite {buffer bytes : List UInt8} {offset n : ℕ}
    (hoffset : offset≤buffer.length) (hn : n≤bytes.length) :
    (overwrite buffer offset bytes).take (offset+n)=buffer.take offset++bytes.take n := by
  have hlen : (buffer.take offset).length=offset := List.length_take_of_le hoffset
  rw [overwrite,List.append_assoc,List.take_append,hlen,List.take_of_length_le (by omega),
    Nat.add_sub_cancel_left,List.take_append_of_le_length hn]

/-- Writing does not change the size of a buffer that it stays inside. -/
theorem length_overwrite {buffer bytes : List UInt8} {offset : ℕ}
    (h : offset+bytes.length≤buffer.length) :
    (overwrite buffer offset bytes).length=buffer.length := by
  simp only [overwrite,List.length_append,List.length_take,List.length_drop]
  omega

/-- The buffer for packets is as it was. -/
structure SameBuffer (s s' : State) : Prop where
  /-- The bytes. -/
  msgBuf : s'.msgBuf=s.msgBuf
  /-- The offset. -/
  msgBufOffset : s'.msgBufOffset=s.msgBufOffset

/-- A request takes its payload from the buffer, and leaves it. -/
theorem sameBuffer_sendRequest (sending : Sending) (s : State) (payload : List UInt8)
    (block1 : Option (ℕ×Bool×ℕ)) : SameBuffer s (sendRequest sending s payload block1).1 := by
  unfold sendRequest
  split <;> exact ⟨rfl,rfl⟩

/-- So does a packet. -/
theorem sameBuffer_sendSuccess (env : Env D) (sending : Sending) (s : State) (i n len : ℕ) :
    SameBuffer s (processTaskRespSendSuccess env sending s i n len).1 := by
  unfold processTaskRespSendSuccess
  split
  · exact ⟨rfl,rfl⟩
  · exact sameBuffer_sendRequest _ _ _ _

/-- An ack leaves the buffer. -/
theorem sameBuffer_ackUnlessSent (out : State×Bool) : SameBuffer out.1 (ackUnlessSent out) := by
  obtain ⟨s,r⟩ := out
  cases r <;> exact ⟨rfl,rfl⟩

/-- So do statistics. -/
theorem sameBuffer_stats (env : Env D) (s : State) (data : List UInt8) :
    SameBuffer s (processTaskStats env s data) := by
  unfold processTaskStats
  dsimp only
  split
  · exact ⟨rfl,rfl⟩
  · split
    · exact ⟨rfl,rfl⟩
    · split <;> exact ⟨rfl,rfl⟩

/-- Reading the target of a status leaves the buffer and the lock. -/
theorem sameBuffer_parseResp1 (env : Env D) (s : State) (data : List UInt8) (length : ℕ) :
    SameBuffer s (parseResp1 env s data length).1 ∧
      (parseResp1 env s data length).1.coapCallbackInUse=s.coapCallbackInUse := by
  unfold parseResp1
  dsimp only
  split
  · exact ⟨⟨rfl,rfl⟩,rfl⟩
  · split <;> exact ⟨⟨rfl,rfl⟩,rfl⟩

end Buffers

section Statuses

/-- A status is encoded at the beginning of the buffer. -/
def writesStatus (env : Env D) (s : State) : Action → Bool
  | .resp1 data => match strchr data serialSep with
    | none => false
    | some length =>
      (parseResp1 env s data length).2.isSome && !s.coapCallbackInUse.locked
  | _ => false

/-- A status keeps the size of the buffer, and the offset. -/
theorem sendStatus_buffer (env : Env D) (sending : Sending) (s : State) (status : ℕ)
    (hsize : s.msgBuf.length=coapMaxChunkSize) :
    let s' := (processTaskRespSendStatus env sending s status).1
    s'.msgBuf.length=coapMaxChunkSize ∧ s'.msgBufOffset=s.msgBufOffset ∧
      (s.coapCallbackInUse.locked=true → s'.msgBuf=s.msgBuf) := by
  unfold processTaskRespSendStatus
  split
  · exact ⟨hsize,rfl,fun _ => rfl⟩
  · next hfree =>
    have hstored : ((nanocborEncoderInit coapMaxChunkSize).emit
        (env.nanocbor.uintHead status)).stored.length≤ coapMaxChunkSize := by
      unfold Encoder.emit nanocborEncoderInit
      split
      · next hfits => simpa using hfits
      · exact Nat.zero_le _
    have hlen : (overwrite s.msgBuf 0 ((nanocborEncoderInit coapMaxChunkSize).emit
        (env.nanocbor.uintHead status)).stored).length=coapMaxChunkSize :=
      (length_overwrite (by omega)).trans hsize
    dsimp only
    generalize overwrite s.msgBuf 0 _=msgBuf at hlen ⊢
    split
    · exact ⟨hlen,rfl,fun h => absurd h hfree⟩
    · generalize msgBuf.take _=payload
      have hsame := sameBuffer_sendRequest sending {s with msgBuf := msgBuf} payload none
      exact ⟨(congrArg List.length hsame.msgBuf).trans hlen,hsame.msgBufOffset,
        fun h => absurd h hfree⟩

/-- A status line keeps the size of the buffer and the offset, and all of the
buffer if it writes no status. -/
theorem resp1_buffer {data : List UInt8} {out : State×Bool}
    (h : processTaskResp1 env sending s data=some out)
    (hsize : s.msgBuf.length=coapMaxChunkSize) :
    out.1.msgBuf.length=coapMaxChunkSize ∧ out.1.msgBufOffset=s.msgBufOffset ∧
      (writesStatus env s (.resp1 data)=false → out.1.msgBuf=s.msgBuf) := by
  unfold processTaskResp1 at h
  unfold writesStatus
  cases hlength : strchr data serialSep with
  | none =>
    rw [hlength] at h
    cases h
    exact ⟨hsize,rfl,fun _ => rfl⟩
  | some length =>
    obtain ⟨hsame,hlock⟩ := sameBuffer_parseResp1 env s data length
    simp only [hlength] at h ⊢
    split at h
    · cases h
    · split at h
      · next hstatus =>
        cases h
        rw [hstatus] at hsame
        exact ⟨hsame.msgBuf ▸ hsize,hsame.msgBufOffset,fun _ => hsame.msgBuf⟩
      · next s' status hstatus =>
        cases h
        rw [hstatus] at hsame hlock
        have hsend := sendStatus_buffer env sending s' status (hsame.msgBuf ▸ hsize)
        refine ⟨hsend.1,hsend.2.1.trans hsame.msgBufOffset,fun hwrites => ?_⟩
        rw [hstatus] at hwrites
        refine (hsend.2.2 ?_).trans hsame.msgBuf
        rw [hlock]
        simpa using hwrites

end Statuses

section Packets

/-- The packet that an action completes: what the edge has when it calls
`process_task_resp_send_success`, and what the line says. -/
def handOver (s : State) : Action → Option (State×Place)
  | .resp2 data => (parseResp2 data).bind fun p =>
    let part := decodePart s p.2
    if part.ok=true ∧ p.1.last=true then some (storePart s part,p.1) else none
  | _ => none

/-- All that becomes of the packet is what the call makes of it. -/
theorem processAction_handOver (env : Env D) (sending : Sending) {action : Action} {place : Place}
    (h : handOver s action=some (s',place)) :
    processAction env sending s action=some (ackUnlessSent
      ({(processTaskRespSendSuccess env sending s' place.i place.n s'.msgBufOffset).1 with
        msgBufOffset := 0},
        (processTaskRespSendSuccess env sending s' place.i place.n s'.msgBufOffset).2)) := by
  cases action with
  | resp2 data =>
    obtain ⟨⟨place',source⟩,hparse,hpart⟩ := Option.bind_eq_some_iff.mp h
    dsimp only at hpart
    split at hpart
    · next hlast =>
      cases hpart
      unfold processAction processTaskResp2 continuePacket
      dsimp only
      rw [hparse]
      dsimp only
      rw [if_neg (by rw [hlast.1]; decide),if_pos hlast.2]
    · cases hpart
  | stats data => cases h
  | resp1 data => cases h
  | unknown => cases h

/-- All places of a packet, in order. -/
def allPlaces (place : Place) : List Place :=
  (List.range place.m).map fun j => {place with j := j}

/-- What is handed over is one packet: its bytes are those of the last parts,
which are the parts of the packet in order. -/
def Pure (parts : List Part) (s : State) (place : Place) : Prop :=
  ∃ older pieces, parts=older++pieces ∧ pieces.map Part.place=allPlaces place ∧
    s.msgBuf.take s.msgBufOffset=(pieces.map Part.bytes).flatten

/-- The parts that are in the buffer behind an action, since the last packet
was complete. -/
def partsBehind (m : Machine) (action : Action) : List Part :=
  m.parts++(storedPart m.edge action).toList

/-- A line that completes a packet completes a pure one. -/
def PacketPure (m : Machine) : Op → Prop
  | .line line _ => ∀ action∈lineAction line, ∀ call∈handOver m.edge action,
    Pure (partsBehind m action) call.1 call.2
  | _ => True

/-- The parts of a packet are searched from the oldest one on. -/
instance decidablePure (parts : List Part) (s : State) (place : Place) :
    Decidable (Pure parts s place) :=
  decidable_of_iff (∃ k < parts.length+1, (parts.drop k).map Part.place=allPlaces place ∧
      s.msgBuf.take s.msgBufOffset=((parts.drop k).map Part.bytes).flatten) <| by
    constructor
    · rintro ⟨k,_,hpieces⟩
      exact ⟨parts.take k,parts.drop k,(List.take_append_drop k parts).symm,hpieces⟩
    · rintro ⟨older,pieces,rfl,hpieces⟩
      refine ⟨older.length,?_,?_⟩
      · simp only [List.length_append]
        omega
      · rw [List.drop_left]
        exact hpieces

/-- Purity is decided at the lines that complete a packet. -/
instance decidablePacketPure (m : Machine) : ∀ op, Decidable (PacketPure m op)
  | .line line _ => inferInstanceAs (Decidable (∀ action∈lineAction line,
    ∀ call∈handOver m.edge action, Pure (partsBehind m action) call.1 call.2))
  | .callback _ | .expire _ => .isTrue trivial

/-- When a line completes a packet, its parts have come in order, and no other
ones since the last packet was complete. -/
def InOrder (m : Machine) : Op → Prop
  | .line line _ => ∀ action∈lineAction line, ∀ call∈handOver m.edge action,
    (partsBehind m action).map Part.place=allPlaces call.2
  | _ => True

/-- No target overruns its buffer, and no status is written while parts wait. -/
def Undisturbed (env : Env D) (m : Machine) : Op → Prop
  | .line line _ => ∀ action∈lineAction line, TargetFits action ∧
    (m.parts=[] ∨ writesStatus env m.edge action=false)
  | _ => True

/-- Order is decided by the places. -/
instance decidableInOrder (m : Machine) : ∀ op, Decidable (InOrder m op)
  | .line line _ => inferInstanceAs (Decidable (∀ action∈lineAction line,
    ∀ call∈handOver m.edge action, (partsBehind m action).map Part.place=allPlaces call.2))
  | .callback _ | .expire _ => .isTrue trivial

/-- Disturbance is decided by the line and the waiting parts. -/
instance decidableUndisturbed (env : Env D) (m : Machine) : ∀ op, Decidable (Undisturbed env m op)
  | .line line _ => inferInstanceAs (Decidable (∀ action∈lineAction line, TargetFits action ∧
    (m.parts=[] ∨ writesStatus env m.edge action=false)))
  | .callback _ | .expire _ => .isTrue trivial

end Packets

section Assembly

/-- The buffer holds the bytes of the parts, one behind the other. -/
structure Assembled (parts : List Part) (s : State) : Prop where
  /-- Size of the buffer. -/
  size : s.msgBuf.length=coapMaxChunkSize
  /-- The offset is inside. -/
  inside : s.msgBufOffset≤ coapMaxChunkSize
  /-- The bytes in front of the offset. -/
  bytes : s.msgBuf.take s.msgBufOffset=(parts.map Part.bytes).flatten
  /-- Each part has some. -/
  filled : ∀ part∈parts, part.bytes≠[]

variable {parts : List Part} {action : Action} {m : Machine}

/-- What leaves the buffer leaves the parts. -/
theorem Assembled.same (h : Assembled parts s) (hsame : SameBuffer s s') : Assembled parts s' := by
  obtain ⟨hbuf,hoffset⟩ := hsame
  refine ⟨?_,?_,?_,h.filled⟩
  · rw [hbuf]
    exact h.size
  · rw [hoffset]
    exact h.inside
  · rw [hbuf,hoffset]
    exact h.bytes

/-- Before the first part, the buffer may be written in any way. -/
theorem Assembled.unused (hsize : s.msgBuf.length=coapMaxChunkSize) (hzero : s.msgBufOffset=0) :
    Assembled [] s :=
  ⟨hsize,by rw [hzero]; exact Nat.zero_le _,by rw [hzero]; rfl,fun _ h => nomatch h⟩

/-- Without parts the offset is zero. -/
theorem Assembled.offset_eq_zero (h : Assembled [] s) : s.msgBufOffset=0 := by
  have hlen := congrArg List.length h.bytes
  rw [List.length_take_of_le (h.size ▸ h.inside)] at hlen
  exact hlen

/-- A part fits behind the others, and is not empty. -/
theorem decodePart_bounds (s : State) (source : List UInt8) :
    (decodePart s source).stored.length≤ coapMaxChunkSize-s.msgBufOffset ∧
      ((decodePart s source).ok=true →
        (decodePart s source).bytes.length=(decodePart s source).outLen ∧
          0 < (decodePart s source).outLen) :=
  base64Decode_bounds source _

/-- A part is stored behind the others; one that is refused leaves them. -/
theorem Assembled.store (h : Assembled parts s) (place : Place) (source : List UInt8) :
    let part := decodePart s source
    Assembled (if part.ok=true then parts++[⟨place,part.bytes⟩] else parts) (storePart s part) := by
  obtain ⟨hroom,hreported⟩ := decodePart_bounds s source
  have hsize := h.size
  have hinside := h.inside
  dsimp only
  generalize decodePart s source=part at hroom hreported ⊢
  have hlen : (storePart s part).msgBuf.length=coapMaxChunkSize :=
    (length_overwrite (by omega)).trans hsize
  by_cases hok : part.ok=true
  · obtain ⟨hbytes,hpos⟩ := hreported hok
    have hle : part.outLen≤part.stored.length := by
      rw [Decoded.bytes,List.length_take] at hbytes
      omega
    have hoffset : (storePart s part).msgBufOffset=s.msgBufOffset+part.outLen := if_pos hok
    rw [if_pos hok]
    refine ⟨hlen,by omega,?_,?_⟩
    · rw [hoffset,List.map_append,List.flatten_append,←h.bytes]
      exact (take_overwrite (by omega) hle).trans (by simp [Decoded.bytes])
    · intro piece hpiece
      rcases List.mem_append.mp hpiece with hold | hnew
      · exact h.filled piece hold
      · rw [List.mem_singleton.mp hnew]
        exact List.ne_nil_of_length_pos (hbytes ▸ hpos)
  · have hoffset : (storePart s part).msgBufOffset=s.msgBufOffset+0 := if_neg hok
    rw [if_neg hok]
    refine ⟨hlen,by omega,?_,h.filled⟩
    rw [hoffset]
    exact (take_overwrite (by omega) (Nat.zero_le _)).trans (by simpa using h.bytes)

/-- What a packet is handed over with: all parts, the last one included. -/
theorem Assembled.handOver {place : Place} (h : Assembled m.parts m.edge)
    (hcall : handOver m.edge action=some (s',place)) : Assembled (partsBehind m action) s' := by
  cases action with
  | resp2 data =>
    obtain ⟨⟨place',source⟩,hparse,hpart⟩ := Option.bind_eq_some_iff.mp hcall
    dsimp only at hpart
    split at hpart
    · next hlast =>
      cases hpart
      have hstore := h.store place source
      have hstored : storedPart m.edge (.resp2 data)=
          some ⟨place,(decodePart m.edge source).bytes⟩ := by
        rw [storedPart,hparse]
        exact if_pos hlast.1
      rw [partsBehind,hstored]
      simpa [hlast.1] using hstore
    · cases hpart
  | stats data => cases hcall
  | resp1 data => cases hcall
  | unknown => cases hcall

/-- Where the buffer holds the parts, a packet is pure exactly if its parts
have come in order: there are no older ones, as each part has some bytes. -/
theorem Assembled.pure_iff (h : Assembled parts s) (place : Place) :
    Pure parts s place ↔ parts.map Part.place=allPlaces place := by
  constructor
  · rintro ⟨older,pieces,rfl,hplaces,hbytes⟩
    have hall := h.bytes
    rw [hbytes,List.map_append,List.flatten_append] at hall
    have hempty : (older.map Part.bytes).flatten=[] := List.self_eq_append_left.mp hall
    have hnone : older=[] := List.eq_nil_iff_forall_not_mem.mpr fun part hpart =>
      h.filled part (List.mem_append_left _ hpart)
        (List.flatten_eq_nil_iff.mp hempty _ (List.mem_map_of_mem hpart))
    rw [hnone]
    exact hplaces
  · exact fun hplaces => ⟨[],parts,rfl,hplaces,h.bytes⟩

/-- A line with a part. -/
theorem Assembled.resp2 (h : Assembled m.parts m.edge) (env : Env D) (sending : Sending)
    (data : List UInt8) :
    Assembled (nextParts m (.resp2 data)) (processTaskResp2 env sending m.edge data).1 := by
  unfold nextParts storedPart processTaskResp2
  dsimp only
  cases parseResp2 data with
  | none => exact h
  | some p =>
    obtain ⟨place,source⟩ := p
    have hstore := h.store place source
    dsimp only [Option.bind_some] at hstore ⊢
    by_cases hok : (decodePart m.edge source).ok=true
    · rw [if_pos hok] at hstore
      rw [if_pos hok,if_neg (by rw [hok]; decide)]
      unfold continuePacket
      dsimp only
      split
      · have hsend := hstore.same (sameBuffer_sendSuccess env sending _ place.i place.n
          (storePart m.edge (decodePart m.edge source)).msgBufOffset)
        exact .unused hsend.size rfl
      · exact hstore.same ⟨rfl,rfl⟩
    · rw [if_neg hok] at hstore
      rw [if_neg hok,if_pos (Bool.eq_false_of_not_eq_true hok)]
      exact hstore

/-- A line that is processed, whatever it says. -/
theorem Assembled.processed (h : Assembled m.parts m.edge)
    (hedge : processAction env sending m.edge action=some s')
    (hquiet : m.parts=[] ∨ writesStatus env m.edge action=false) :
    Assembled (nextParts m action) s' := by
  cases action with
  | stats data =>
    cases hedge
    have hstats := h.same (sameBuffer_stats env m.edge data)
    exact hstats.same ⟨rfl,rfl⟩
  | resp1 data =>
    obtain ⟨out,hout,rfl⟩ := Option.map_eq_some_iff.mp hedge
    obtain ⟨hsize,hoffset,hbuf⟩ := resp1_buffer hout h.size
    refine Assembled.same ?_ (sameBuffer_ackUnlessSent out)
    rcases hquiet with hparts | hwrites
    · have hzero := (hparts ▸ h : Assembled [] m.edge).offset_eq_zero
      change Assembled m.parts out.1
      rw [hparts]
      exact .unused hsize (hoffset.trans hzero)
    · exact h.same ⟨hbuf hwrites,hoffset⟩
  | resp2 data =>
    cases hedge
    exact (h.resp2 env sending data).same (sameBuffer_ackUnlessSent _)
  | unknown =>
    cases hedge
    exact h.same ⟨rfl,rfl⟩

/-- Undisturbed steps keep the parts in the buffer. -/
theorem Assembled.step (h : Assembled m.parts m.edge) {op : Op} (hop : Undisturbed env m op) :
    Assembled (step env m op).parts (step env m op).edge := by
  unfold TaskResponseRuns.step
  split
  · exact h
  · cases op with
    | line line sending =>
      dsimp only
      unfold processLine
      split
      · exact h
      · next action haction =>
        split
        · exact h
        · next edge hedge =>
          exact h.processed hedge (hop action haction).2
    | callback status =>
      cases status with
      | response code =>
        refine h.same ?_
        unfold callBack sendCallback
        dsimp only
        split <;> exact ⟨rfl,rfl⟩
      | finished => exact h.same ⟨rfl,rfl⟩
      | failed => exact h.same ⟨rfl,rfl⟩
    | expire now =>
      dsimp only
      unfold expireLock
      dsimp only
      split
      · exact h.same ⟨rfl,rfl⟩
      · exact h

/-- Nothing waits at boot. -/
theorem assembled_start (clockSecond : ℕ) :
    Assembled (start clockSecond).parts (start clockSecond).edge :=
  .unused (List.length_replicate ..) rfl

/-- **Packets are not mixed.** In every run in which no status is written over
waiting parts, the packets that are completed are all pure exactly when the
parts of each have come in order. -/
theorem packetPure_along_iff (env : Env D) (clockSecond : ℕ) (ops : List Op)
    (hops : Along (step env) (Undisturbed env) (start clockSecond) ops) :
    Along (step env) PacketPure (start clockSecond) ops ↔
      Along (step env) InOrder (start clockSecond) ops := by
  refine along_congr (I:=fun m => Assembled m.parts m.edge) (fun _ _ h hop => h.step hop)
    (fun m op h _ => ?_) (assembled_start clockSecond) hops
  cases op with
  | line line sending =>
    refine forall₂_congr fun action _ => forall₂_congr fun call hcall => ?_
    exact (h.handOver hcall).pure_iff call.2
  | callback status => exact Iff.rfl
  | expire now => exact Iff.rfl

/-- The line of a part, `|resp2|0/1|<j>/<m>|<base64>`. -/
def sampleLine (j m : UInt8) (bytes : List UInt8) : Op :=
  .line (serialSep::resp2Action++[serialSep,0x30,slash,0x31,serialSep,0x30+j,slash,0x30+m,
    serialSep]++b64encode bytes) ⟨true,0⟩

/-- A packet of two parts, with a status in front of it. -/
theorem packetPure_along_iff_sample : Along (step sampleEnv) PacketPure (start 128)
    [.line (statusLine sampleTarget) ⟨true,0⟩,.callback .finished,
      sampleLine 0 2 [0x82,0x01],sampleLine 1 2 [0x02]] :=
  (packetPure_along_iff sampleEnv 128
    [.line (statusLine sampleTarget) ⟨true,0⟩,.callback .finished,
      sampleLine 0 2 [0x82,0x01],sampleLine 1 2 [0x02]] (by decide +kernel)).mpr
    (by decide +kernel)

/-- The first part of a packet that was never completed is sent in front of the
next packet. -/
theorem not_packetPure_of_restart :
    Along (step sampleEnv) (Undisturbed sampleEnv) (start 128)
        [sampleLine 0 2 [0x82,0x01],sampleLine 0 1 [0x00]] ∧
      ¬Along (step sampleEnv) PacketPure (start 128)
        [sampleLine 0 2 [0x82,0x01],sampleLine 0 1 [0x00]] := by
  decide +kernel

end Assembly

end TrustAlloc.TaskPackets
