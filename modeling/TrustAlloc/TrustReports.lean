import TrustAlloc.TrustRoundTrip

/-!
# What a message of a peer can change

Whatever the bytes of a message are, and however far they are read,
`process_received_trust` changes only what its sender has reported. What other
peers have reported stays, and so does the edge store.
-/

namespace TrustAlloc.TrustReports

open CborCodec EdgeInfo PeerInfo PeerViews TrustDissemination TrustPayload TrustRoundTrip

variable {np ne nc : ℕ} {PT D : Type} {p q : Peers np ne nc PT} {i : Fin np}

/-- The peers are the same, and only one of them has reported something else. -/
structure OnlyFrom (p q : Peers np ne nc PT) (i : Fin np) : Prop where
  /-- The invariant of the peer store. -/
  wellFormed : PeersWellFormed q
  /-- There are the same peers. -/
  peers : q.peers=p.peers
  /-- They have the same addresses. -/
  addr : ∀ i', (q.peer i').addr=(p.peer i').addr
  /-- What the others have reported. -/
  view : ∀ i'∈p.peers, i'≠i → ∀ e, SameView p q i' e

/-- Nothing has changed. -/
theorem OnlyFrom.refl (hp : PeersWellFormed p) (i : Fin np) : OnlyFrom p p i :=
  ⟨hp,rfl,fun _ => rfl,fun _ _ _ _ => ⟨rfl,fun _ => rfl⟩⟩

/-- One edge more has changed. -/
theorem OnlyFrom.othersSame {q' : Peers np ne nc PT} {e : Fin ne} (h : OnlyFrom p q i)
    (hq' : PeersWellFormed q') (hother : OthersSame q q' i e) : OnlyFrom p q' i := by
  refine ⟨hq',hother.peers.trans h.peers,fun i' => ?_,fun i' hi' hne e' => ?_⟩
  · by_cases hne : i'=i
    · rw [hne,hother.addr,h.addr]
    · rw [hother.peer i' hne,h.addr]
  · exact (h.view i' hi' hne e').trans (hother.view i' (h.peers ▸ hi') e' (Or.inl hne))

/-- No update that a message can ask for changes more. -/
theorem keptByUpdates_onlyFrom (penv : PeerEnv np ne nc PT) (b : Edges ne nc) (hi : i∈p.peers) :
    KeptByUpdates penv b i (fun q => OnlyFrom p q i) := by
  refine ⟨fun time q h => ?_,fun e tm q h => ?_,fun e c tm q h => ?_⟩
  · refine ⟨peersWellFormed_setLastSeen h.wellFormed i time,h.peers,fun i' => ?_,?_⟩
    · rw [←h.addr i']
      by_cases hne : i'=i
      · have hseen : (setLastSeen i time q).peer i={q.peer i with lastSeen := time} :=
          q.peersMemb.set_mem_same i _
        rw [hne,hseen]
      · exact congrArg Peer.addr (q.peersMemb.set_mem_other _ hne)
    · exact fun i' hi' hne e => (h.view i' hi' hne e).trans (sameView_setLastSeen i i' time q e)
  · have hi' : i∈q.peers := h.peers ▸ hi
    exact h.othersSame (h.wellFormed.updateEdge penv hi' e tm _)
      (othersSame_updateEdge penv h.wellFormed hi' e tm _)
  · have hi' : i∈q.peers := h.peers ▸ hi
    exact h.othersSame (h.wellFormed.updateCapability penv hi' e c tm _ _)
      (othersSame_updateCapability penv h.wellFormed hi' e c tm _ _)

/-- The outcomes of `peer_info_add`: known; a new peer; no room. -/
theorem peerInfoAdd_outcome (penv : PeerEnv np ne nc PT) (p : Peers np ne nc PT)
    (addr : IpAddr) :
    (∃ i, peerInfoFind p addr=some i ∧ peerInfoAdd penv p addr=(p,some i)) ∨
    (∃ i, p.peersMemb.used i=false ∧
      peerInfoAdd penv p addr=(p.placePeer penv i addr,some i)) ∨
    peerInfoAdd penv p addr=(p,none) := by
  unfold peerInfoAdd
  cases peerInfoFind p addr with
  | some i => exact Or.inl ⟨i,rfl,rfl⟩
  | none =>
    cases hpick : penv.peerAllocator.pick p.peersMemb.used with
    | some i => exact Or.inr (Or.inl ⟨i,penv.peerAllocator.pick_free hpick,rfl⟩)
    | none => exact Or.inr (Or.inr rfl)

/-- What a message may change: a peer is the sender, or it was there before and
has reported what it had reported. -/
structure SenderOnly (b b' : Node np ne nc PT) (src : IpAddr) : Prop where
  /-- The edge store is as before. -/
  edges : b'.edges=b.edges
  /-- The invariant of the peer store. -/
  wellFormed : PeersWellFormed b'.peers
  /-- The peers. -/
  peer : ∀ i∈b'.peers.peers, peerInfoFind b'.peers src=some i ∨
    i∈b.peers.peers ∧ ∀ e, SameView b.peers b'.peers i e

/-- **A message of a peer.** Any bytes, accepted or not, change only what their
sender has reported. -/
theorem senderOnly_processReceivedTrust (cbor : TrustDecoder D) (penv : PeerEnv np ne nc PT)
    {b : Node np ne nc PT} (hb : PeersWellFormed b.peers) (src : IpAddr) (buffer : List UInt8) :
    SenderOnly b (processReceivedTrust cbor penv b src buffer).1 src := by
  have hreceive : ∀ p i, PeersWellFormed p → peerInfoFind p src=some i →
      (∀ i'∈p.peers, i'≠i → i'∈b.peers.peers ∧ ∀ e, SameView b.peers p i' e) →
      SenderOnly b {b with peers := (Processing.exec (receiveTrust cbor penv b.edges i buffer) p).2}
        src := by
    intro p i hp hfind hold
    have hi := (peerInfoFind_some hfind).1
    have honly : OnlyFrom p (Processing.exec (receiveTrust cbor penv b.edges i buffer) p).2 i :=
      (keptByUpdates_onlyFrom penv b.edges hi).receiveTrust buffer p (.refl hp i)
    generalize (Processing.exec (receiveTrust cbor penv b.edges i buffer) p).2=q at honly
    have hfound : peerInfoFind q src=some i := by
      rw [←hfind,peerInfoFind,peerInfoFind,honly.peers]
      exact List.find?_congr fun i' _ => by rw [honly.addr i']
    refine ⟨rfl,honly.wellFormed,fun i' hi' => ?_⟩
    by_cases hne : i'=i
    · exact Or.inl (hne ▸ hfound)
    · have hi'' : i'∈p.peers := honly.peers ▸ hi'
      obtain ⟨hlisted,hsame⟩ := hold i' hi'' hne
      exact Or.inr ⟨hlisted,fun e => (hsame e).trans (honly.view i' hi'' hne e)⟩
  unfold processReceivedTrust
  rcases peerInfoAdd_outcome penv b.peers src with ⟨i,hfind,ha⟩ | ⟨i,hfree,ha⟩ | ha
  · rw [ha]
    exact hreceive b.peers i hb hfind fun i' hi' _ => ⟨hi',fun _ => ⟨rfl,fun _ => rfl⟩⟩
  · rw [ha]
    refine hreceive _ i (hb.placePeer penv hfree src) (peerInfoFind_placePeer penv hb hfree src)
      fun i' hi' hne => ?_
    rw [(PeerInfo.records_placePeer hb penv hfree src).1] at hi'
    have hlisted := (List.mem_cons.mp hi').resolve_left hne
    exact ⟨hlisted,sameView_placePeer penv hb hfree src hlisted⟩
  · rw [ha]
    exact ⟨rfl,hb,fun i hi => Or.inr ⟨hi,fun _ => ⟨rfl,fun _ => rfl⟩⟩⟩

end TrustAlloc.TrustReports
