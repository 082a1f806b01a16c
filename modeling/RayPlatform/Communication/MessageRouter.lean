import RayPlatform.Core.ComputeCore

/-!
# MessageRouter

Messages between ranks that are not connected travel along the edges of a graph:
the router gives them a tag above `ROUTING_TAG_BASE`, writes their ends in the
routing metadata and sends them to the next rank. A rank that receives such a
message relays it, or restores it if it is its destination.

`sendPacket` and `receivePacket` are what a rank does to a message that leaves its
outbox and to one that arrives. `InOutbox` and `OnWire` say how a message looks in
transit; `sendPacket_spec` and `receivePacket_spec` lead from one to the other.
-/

namespace RayPlatform

open Lib (MemoryBlock)
open Lib.MemoryBlock
open ComputeCore

/-- The graph of the connections, and the function that routes in it. -/
structure ConnectionGraph where
  isConnected : Rank → Rank → Bool
  getNextRankInRoute : Rank → Rank → Rank → Rank

/-- The router of every rank. -/
structure MessageRouter where
  enabled : Bool
  graph : ConnectionGraph

namespace MessageRouter

def ROUTING_TAG_BASE : Int := 16384

def isRoutingTag (tag : Int) : Bool :=
  decide (tag ≥ ROUTING_TAG_BASE)

def getRoutingTag (tag : Int) : Int :=
  tag + ROUTING_TAG_BASE

def getMessageTagFromRoutingTag (tag : Int) : Int :=
  tag - ROUTING_TAG_BASE

/-- `routeOutcomingMessages`, for one message of the outbox of a rank. -/
def routeOutcomingMessage (router : MessageRouter) (rank : Rank) (m : Message) : Message :=
  -- the message may have been already routed when it was received
  if isRoutingTag m.tag then m
  else
    let trueSource := m.source
    let trueDestination := m.destination
    -- if it is reachable, no further routing is required
    if router.graph.isConnected trueSource trueDestination then m
    else
      { m with
        tag := getRoutingTag m.tag
        routingSource := trueSource
        routingDestination := trueDestination
        destination := router.graph.getNextRankInRoute trueSource trueDestination rank }

/-- What becomes of a message of the inbox. -/
inductive Routed
  /-- it is dispatched -/
  | dispatch (m : Message)
  /-- it was pushed in the outbox again, and `routeIncomingMessages` returned true -/
  | relay (m : Message)
  deriving DecidableEq, Repr

/-- `relayMessage`, without its copy of the buffer. -/
def relayMessage (rank : Rank) (m : Message) (destination : Rank) : Message :=
  { m with source := rank, destination := destination }

/-- `routeIncomingMessages` -/
def routeIncomingMessage (router : MessageRouter) (rank : Rank) (m : Message) : Routed :=
  if !isRoutingTag m.tag then .dispatch m
  else
    let trueSource := m.routingSource
    let trueDestination := m.routingDestination
    if trueDestination = rank then
      -- restore the original source and the original tag
      .dispatch { m with source := trueSource, tag := getMessageTagFromRoutingTag m.tag }
    else
      .relay (relayMessage rank m (router.graph.getNextRankInRoute trueSource trueDestination rank))

/-! ## Packets -/

/-- A message on its way from a rank to another. -/
structure Packet where
  source : Rank
  destination : Rank
  tag : Int
  data : List UInt8

/-- `ComputeCore::sendMessages`, for one message of the outbox of a rank. -/
def sendPacket (router : MessageRouter) (doChecksum : Bool) (rank : Rank) (m : Message)
    (payload : List UInt8) (chunk : Chunk) : Option Packet := do
  let route := if router.enabled then router.routeOutcomingMessage rank else id
  let (m, chunk) ← sendMessage route false doChecksum m payload chunk
  let data ← transported m chunk
  return { source := rank, destination := m.destination, tag := m.tag, data := data }

/-- `ComputeCore::receiveMessages` and the router's part of `processMessages`. The
payload is the one in the inbox, or in the new buffer of a relayed message. -/
def receivePacket (router : MessageRouter) (doChecksum : Bool) (packet : Packet)
    (inbox outgoing : Chunk) : Option (Routed × List UInt8) := do
  let rank := packet.destination
  let (m, inbox) ← receiveBytes rank packet.source packet.tag packet.data inbox
  let (m, inbox, _) ← receiveMessage doChecksum m inbox
  let routed := if router.enabled then router.routeIncomingMessage rank m else .dispatch m
  match routed with
  | .dispatch m => do
      let payload ← inbox.read 0 m.bytes
      return (.dispatch m, payload)
  | .relay m => do
      let outgoing ← inbox.copy outgoing m.bytes
      let payload ← outgoing.read 0 m.bytes
      return (.relay m, payload)

/-- Two ranks that need no router between them. -/
def reaches (router : MessageRouter) (source destination : Rank) : Bool :=
  !router.enabled || router.graph.isConnected source destination

/-! ## Messages in transit -/

/-- A rank of a job. -/
def IsRank (size : Int32) (rank : Rank) : Prop :=
  0 ≤ rank ∧ rank < size

/-- What an application sends. -/
structure Letter where
  source : Rank
  destination : Rank
  tag : Int
  payload : List UInt8
  deriving DecidableEq, Repr

structure Letter.Valid (size : Int32) (l : Letter) : Prop where
  source : IsRank size l.source
  destination : IsRank size l.destination
  tag_nonneg : 0 ≤ l.tag
  tag_lt : l.tag < ROUTING_TAG_BASE
  length : l.payload.length ≤ MAXIMUM_MESSAGE_SIZE_IN_BYTES

/-- The next-hop function leads along edges from any rank to any destination: it
stays on the graph, and comes closer to the destination for some distance. -/
structure LeadsAlongEdges (size : Int32) (router : MessageRouter)
    (distance : Rank → Rank → Nat) : Prop where
  isRank : ∀ source destination rank, IsRank size source → IsRank size destination →
    IsRank size rank → IsRank size (router.graph.getNextRankInRoute source destination rank)
  edge : ∀ source destination rank, IsRank size source → IsRank size destination →
    IsRank size rank → router.reaches source destination = false →
      (rank = source ∨ rank ≠ destination) →
      router.graph.isConnected rank (router.graph.getNextRankInRoute source destination rank) = true
  closer : ∀ source destination rank, IsRank size source → IsRank size destination →
    IsRank size rank → router.reaches source destination = false → rank ≠ destination →
      distance destination (router.graph.getNextRankInRoute source destination rank) <
        distance destination rank

variable {size : Int32} {router : MessageRouter} {doChecksum : Bool} {l : Letter}

/-- The actors of a message that leaves a rank, once the router has seen it. -/
def actorsOf (m : Message) : Int32 × Int32 :=
  (m.defaultActors.sourceActor, m.defaultActors.destinationActor)

/-- A message on its way, in the outbox of a relay. -/
structure Relayed (router : MessageRouter) (l : Letter) (rank : Rank) (m : Message) : Prop where
  tag : m.tag = getRoutingTag l.tag
  routingSource : m.routingSource = l.source
  routingDestination : m.routingDestination = l.destination
  notThere : rank ≠ l.destination
  next : m.destination = router.graph.getNextRankInRoute l.source l.destination rank
  reaches : router.reaches l.source l.destination = false

/-- A message of the application, in the outbox of its source. -/
structure Fresh (l : Letter) (rank : Rank) (m : Message) : Prop where
  tag : m.tag = l.tag
  source : rank = l.source
  destination : m.destination = l.destination

/-- A letter in the outbox of a rank. -/
structure InOutbox (router : MessageRouter) (l : Letter) (rank : Rank) (m : Message)
    (payload : List UInt8) : Prop where
  payload_eq : payload = l.payload
  bytes : m.bytes = payload.length
  source : m.source = rank
  way : Fresh l rank m ∨ Relayed router l rank m

/-- The message that leaves the outbox of a rank, once the router has seen it. -/
def outgoing (router : MessageRouter) (rank : Rank) (m : Message) : Message :=
  if router.enabled then router.routeOutcomingMessage rank m else m

/-- A message that the router has seen, about to go from its source to its destination. -/
structure Leg (size : Int32) (router : MessageRouter) (l : Letter) (m : Message) : Prop where
  source : IsRank size m.source
  destination : IsRank size m.destination
  edge : router.reaches m.source m.destination = true
  way : (m.tag = l.tag ∧ m.source = l.source ∧ m.destination = l.destination) ∨
    (m.tag = getRoutingTag l.tag ∧ m.routingSource = l.source ∧
      m.routingDestination = l.destination ∧ router.reaches l.source l.destination = false)

/-- The packet of a message that goes over an edge. -/
structure OnWire (size : Int32) (router : MessageRouter) (doChecksum : Bool) (l : Letter)
    (m : Message) (packet : Packet) : Prop where
  leg : Leg size router l m
  source : packet.source = m.source
  destination : packet.destination = m.destination
  tag : packet.tag = m.tag
  length : packet.data.length = wrappedLength l.payload doChecksum
  wrapped : ∃ chunk : Chunk,
    Wrapped chunk l.payload m.defaultActors doChecksum ∧ chunk.Holds 0 packet.data

theorem isRoutingTag_iff {tag : Int} : isRoutingTag tag = true ↔ ROUTING_TAG_BASE ≤ tag := by
  simp [isRoutingTag]

theorem isRoutingTag_getRoutingTag {tag : Int} (h : 0 ≤ tag) :
    isRoutingTag (getRoutingTag tag) = true := by
  rw [isRoutingTag_iff, getRoutingTag]
  omega

theorem Letter.Valid.not_isRoutingTag (h : l.Valid size) : isRoutingTag l.tag = false := by
  have hlt := h.tag_lt
  rw [← Bool.not_eq_true, isRoutingTag_iff]
  omega

theorem enabled_of_reaches {source destination : Rank}
    (h : router.reaches source destination = false) :
    router.enabled = true ∧ router.graph.isConnected source destination = false := by
  simpa [reaches] using h

theorem reaches_of_isConnected {source destination : Rank}
    (h : router.graph.isConnected source destination = true) :
    router.reaches source destination = true := by
  simp [reaches, h]

/-- The router leaves a message alone that it has already routed. -/
theorem Relayed.outgoing {rank : Rank} {m : Message} (h : Relayed router l rank m)
    (hl : l.Valid size) : router.outgoing rank m = m := by
  have htag : isRoutingTag m.tag = true := by
    rw [h.tag]
    exact isRoutingTag_getRoutingTag hl.tag_nonneg
  rw [MessageRouter.outgoing, routeOutcomingMessage, if_pos htag]
  split <;> rfl

/-- The router sends a message over an edge, and changes neither its actors nor its
length. -/
theorem InOutbox.leg {distance : Rank → Rank → Nat} {rank : Rank} {m : Message}
    {payload : List UInt8} (h : InOutbox router l rank m payload) (hl : l.Valid size)
    (hgraph : LeadsAlongEdges size router distance) (hrank : IsRank size rank) :
    Leg size router l (router.outgoing rank m) ∧
      (router.outgoing rank m).bytes = m.bytes ∧ (router.outgoing rank m).source = rank ∧
      (router.outgoing rank m).sourceActor = m.sourceActor ∧
      (router.outgoing rank m).destinationActor = m.destinationActor := by
  have hsource := h.source
  rcases h.way with hfresh | hrelayed
  · have htag : isRoutingTag m.tag = false := by
      rw [hfresh.tag]
      exact hl.not_isRoutingTag
    have hends : m.source = l.source := hsource.trans hfresh.source
    cases hreach : router.reaches l.source l.destination with
    | true =>
        -- no router, or a neighbour
        have hsame : router.outgoing rank m = m := by
          unfold outgoing routeOutcomingMessage
          split
          · rename_i henabled
            have hconnected : router.graph.isConnected m.source m.destination = true := by
              rw [hends, hfresh.destination]
              simpa [reaches, henabled] using hreach
            rw [if_neg (by rw [htag]; simp), if_pos hconnected]
          · rfl
        rw [hsame]
        refine ⟨⟨?_, ?_, ?_, .inl ⟨hfresh.tag, hends, hfresh.destination⟩⟩, rfl, hsource, rfl, rfl⟩
        · rw [hsource]
          exact hrank
        · rw [hfresh.destination]
          exact hl.destination
        · rw [hends, hfresh.destination]
          exact hreach
    | false =>
        obtain ⟨henabled, hconnected⟩ := enabled_of_reaches hreach
        have hrouted : router.outgoing rank m =
            { m with
              tag := getRoutingTag m.tag
              routingSource := m.source
              routingDestination := m.destination
              destination := router.graph.getNextRankInRoute m.source m.destination rank } := by
          rw [outgoing, if_pos henabled, routeOutcomingMessage, if_neg (by rw [htag]; simp),
            if_neg (by rw [hends, hfresh.destination, hconnected]; simp)]
        rw [hrouted]
        refine ⟨⟨?_, ?_, ?_, .inr ⟨?_, hends, hfresh.destination, hreach⟩⟩, rfl, hsource, rfl, rfl⟩
        · show IsRank size m.source
          rw [hsource]
          exact hrank
        · show IsRank size (router.graph.getNextRankInRoute m.source m.destination rank)
          rw [hends, hfresh.destination]
          exact hgraph.isRank _ _ _ hl.source hl.destination hrank
        · apply reaches_of_isConnected
          show router.graph.isConnected m.source
            (router.graph.getNextRankInRoute m.source m.destination rank) = true
          rw [hends, hfresh.destination, ← hfresh.source]
          exact hgraph.edge rank _ _ hrank hl.destination hrank (hfresh.source ▸ hreach) (.inl rfl)
        · show getRoutingTag m.tag = _
          rw [hfresh.tag]
  · rw [hrelayed.outgoing hl]
    refine ⟨⟨?_, ?_, ?_, .inr ⟨hrelayed.tag, hrelayed.routingSource, hrelayed.routingDestination,
      hrelayed.reaches⟩⟩, rfl, hsource, rfl, rfl⟩
    · rw [hsource]
      exact hrank
    · rw [hrelayed.next]
      exact hgraph.isRank _ _ _ hl.source hl.destination hrank
    · rw [hsource, hrelayed.next]
      exact reaches_of_isConnected
        (hgraph.edge _ _ _ hl.source hl.destination hrank hrelayed.reaches (.inr hrelayed.notThere))

/-- Sending succeeds, with room for the layers. -/
theorem sendPacket_spec {distance : Rank → Rank → Nat} {rank : Rank} {m : Message}
    {payload : List UInt8} (h : InOutbox router l rank m payload) (hl : l.Valid size)
    (hgraph : LeadsAlongEdges size router distance) (hrank : IsRank size rank)
    (doChecksum : Bool) (chunk : Chunk) :
    ∃ packet, sendPacket router doChecksum rank m payload chunk = some packet ∧
      OnWire size router doChecksum l (router.outgoing rank m) packet := by
  obtain ⟨hleg, hbytes, hsource, _, _⟩ := h.leg hl hgraph hrank
  have hpayload := h.payload_eq
  subst hpayload
  have hprepared : prepared (if router.enabled then router.routeOutcomingMessage rank else id) false
      m = router.outgoing rank m := by
    unfold prepared outgoing
    cases router.enabled <;> rfl
  obtain ⟨chunk', hsend, hwrapped, _⟩ := sendMessage_spec
    (if router.enabled then router.routeOutcomingMessage rank else id) false doChecksum m l.payload
    chunk (by rw [hprepared, hbytes, h.bytes]) hl.length
  rw [hprepared] at hsend hwrapped
  obtain ⟨data, _, htransported, hlength, _⟩ := transported_spec hwrapped
    (rfl : ({ (router.outgoing rank m).defaultActors with
      bytes := wrappedLength l.payload doChecksum } : Message).bytes = _) hl.length 0 0 0 chunk
  have hranks := (router.outgoing rank m).defaultActors_ranks
  let packet : Packet :=
    { source := rank
      destination := (router.outgoing rank m).destination
      tag := (router.outgoing rank m).tag
      data := data }
  refine ⟨packet, ?_, ⟨hleg, hsource.symm, rfl, rfl, hlength, chunk', hwrapped, ?_⟩⟩
  · simp only [sendPacket, hsend, Option.bind_eq_bind, Option.bind_some, htransported]
    simp only [hranks, Option.pure_def, packet]
  · exact (holds_of_read htransported).1

/-- What the final destination dispatches. -/
structure Dispatched (l : Letter) (sent m : Message) : Prop where
  source : m.source = l.source
  destination : m.destination = l.destination
  tag : m.tag = l.tag
  bytes : m.bytes = l.payload.length
  actors : (m.sourceActor, m.destinationActor) = actorsOf sent

/-- The message of the inbox once its envelope is removed. -/
structure Seen (l : Letter) (sent seen : Message) (packet : Packet) : Prop where
  bytes : seen.bytes = l.payload.length
  source : seen.source = packet.source
  destination : seen.destination = packet.destination
  tag : seen.tag = packet.tag
  routingSource : seen.routingSource = sent.routingSource
  routingDestination : seen.routingDestination = sent.routingDestination
  actors : (seen.sourceActor, seen.destinationActor) = actorsOf sent

theorem OnWire.arrive {sent : Message} {packet : Packet}
    (h : OnWire size router doChecksum l sent packet) (hl : l.Valid size) (inbox : Chunk) :
    ∃ arrived inbox₁ seen inbox₂,
      receiveBytes packet.destination packet.source packet.tag packet.data inbox =
        some (arrived, inbox₁) ∧
      receiveMessage doChecksum arrived inbox₁ = some (seen, inbox₂, false) ∧
      inbox₂.Holds 0 l.payload ∧ Seen l sent seen packet := by
  obtain ⟨chunk, hwrapped, hdata⟩ := h.wrapped
  have hsize := chunk_size
  have hmaximum : MAXIMUM_MESSAGE_SIZE_IN_BYTES = 4000 := rfl
  have hlength := hl.length
  have hroom : 0 + packet.data.length ≤ maximumMessageSizeInBytes := by
    have hmeta : MESSAGE_META_DATA_SIZE = 28 := rfl
    rw [h.length, wrappedLength]
    split <;> omega
  obtain ⟨inbox₁, hwrite, hwritten⟩ := write_spec inbox hroom
  have hagree := hdata.agree hwritten.here
  rw [h.length] at hagree
  let arrived : Message :=
    Message.new packet.data.length packet.destination packet.tag packet.source
  have hactors : (arrived.withMetaData sent.defaultActors).defaultActors =
      arrived.withMetaData sent.defaultActors :=
    Message.withMetaData_defaultActors h.source h.destination
  obtain ⟨inbox₂, hreceive, hpayload⟩ :=
    receiveMessage_spec (m := arrived) (hwrapped.agree hagree) h.length hlength hactors
  have hrouting : sent.defaultActors.routingSource = sent.routingSource ∧
      sent.defaultActors.routingDestination = sent.routingDestination := by
    unfold Message.defaultActors
    split <;> exact ⟨rfl, rfl⟩
  refine ⟨arrived, inbox₁, _, inbox₂, ?_, hreceive, hpayload,
    ⟨rfl, rfl, rfl, rfl, hrouting.1, hrouting.2, rfl⟩⟩
  simp [receiveBytes, hwrite, arrived]

/-- A packet that arrives is dispatched if this is its destination, and otherwise
goes to the outbox for the next hop. -/
theorem receivePacket_spec {sent : Message} {packet : Packet}
    (h : OnWire size router doChecksum l sent packet) (hl : l.Valid size) (inbox outgoing : Chunk) :
    ∃ routed, receivePacket router doChecksum packet inbox outgoing = some (routed, l.payload) ∧
      ((∃ m, routed = .dispatch m ∧ packet.destination = l.destination ∧ Dispatched l sent m) ∨
        ∃ m, routed = .relay m ∧ InOutbox router l packet.destination m l.payload ∧
          Relayed router l packet.destination m ∧
          (m.sourceActor, m.destinationActor) = actorsOf sent) := by
  have hsize := chunk_size
  have hmaximum : MAXIMUM_MESSAGE_SIZE_IN_BYTES = 4000 := rfl
  have hlength := hl.length
  obtain ⟨arrived, inbox₁, seen, inbox₂, hbytes, hreceive, hpayload, hseen⟩ := h.arrive hl inbox
  have hread : inbox₂.read 0 l.payload.length = some l.payload := read_of_holds hpayload (by omega)
  have htagSeen : seen.tag = sent.tag := hseen.tag.trans h.tag
  rcases h.leg.way with ⟨htag, hsource, hdestination⟩ | ⟨htag, hsource, hdestination, hreach⟩
  · -- over one edge, or without a router
    have hplain : isRoutingTag seen.tag = false := by
      rw [htagSeen, htag]
      exact hl.not_isRoutingTag
    have hroute : (if router.enabled then router.routeIncomingMessage packet.destination seen
        else .dispatch seen) = .dispatch seen := by
      split
      · rw [routeIncomingMessage, hplain]
        rfl
      · rfl
    have hthere := h.destination.trans hdestination
    refine ⟨.dispatch seen, ?_, .inl ⟨seen, rfl, hthere, (hseen.source.trans h.source).trans hsource,
      hseen.destination.trans hthere, htagSeen.trans htag, hseen.bytes, hseen.actors⟩⟩
    simp only [receivePacket, hbytes, Option.bind_eq_bind, Option.bind_some, hreceive]
    rw [hroute]
    simp [hseen.bytes, hread]
  · obtain ⟨henabled, _⟩ := enabled_of_reaches hreach
    have hrouted : isRoutingTag seen.tag = true := by
      rw [htagSeen, htag]
      exact isRoutingTag_getRoutingTag hl.tag_nonneg
    have hsource' : seen.routingSource = l.source := hseen.routingSource.trans hsource
    have hdestination' : seen.routingDestination = l.destination :=
      hseen.routingDestination.trans hdestination
    by_cases hthere : l.destination = packet.destination
    · let restored : Message :=
        { seen with
          source := seen.routingSource
          tag := getMessageTagFromRoutingTag seen.tag }
      have hroute : router.routeIncomingMessage packet.destination seen = .dispatch restored := by
        rw [routeIncomingMessage, hrouted]
        exact if_pos (hdestination'.trans hthere)
      refine ⟨.dispatch restored, ?_, .inl ⟨restored, rfl, hthere.symm, hsource',
        hseen.destination.trans hthere.symm, ?_, hseen.bytes, hseen.actors⟩⟩
      · simp only [receivePacket, hbytes, Option.bind_eq_bind, Option.bind_some, hreceive]
        rw [if_pos henabled, hroute]
        simp [restored, hseen.bytes, hread]
      · show seen.tag - ROUTING_TAG_BASE = l.tag
        rw [htagSeen, htag, getRoutingTag]
        omega
    · let relayed : Message := relayMessage packet.destination seen
        (router.graph.getNextRankInRoute seen.routingSource seen.routingDestination
          packet.destination)
      have hroute : router.routeIncomingMessage packet.destination seen = .relay relayed := by
        rw [routeIncomingMessage, hrouted]
        exact if_neg fun heq => hthere (hdestination'.symm.trans heq)
      have hrelayed : Relayed router l packet.destination relayed := by
        refine ⟨htagSeen.trans htag, hsource', hdestination', fun heq => hthere heq.symm, ?_, hreach⟩
        show router.graph.getNextRankInRoute seen.routingSource _ _ = _
        rw [hsource', hdestination']
      obtain ⟨outgoing', hcopy, hcopied, _⟩ := copy_spec inbox₂ outgoing
        (by omega : l.payload.length ≤ maximumMessageSizeInBytes) (by omega)
      have hcopyRead : outgoing'.read 0 l.payload.length = some l.payload :=
        read_of_holds (hcopied.holds hpayload (by omega)) (by omega)
      refine ⟨.relay relayed, ?_, .inr ⟨relayed, rfl, ⟨rfl, hseen.bytes, rfl, .inr hrelayed⟩,
        hrelayed, hseen.actors⟩⟩
      simp only [receivePacket, hbytes, Option.bind_eq_bind, Option.bind_some, hreceive]
      rw [if_pos henabled, hroute]
      simp [relayed, relayMessage, hseen.bytes, hcopy, hcopyRead]

end MessageRouter

end RayPlatform
