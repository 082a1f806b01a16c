import RayPlatform.Communication.RoutedNetwork

/-!
# Actors of routed messages

One message from its outbox to the application handler, with and without a router.
A message without actors gets those of its ranks in `saveActorMetaData`, after the
router has replaced its destination by the next rank: the first hop decides what
every relay and the destination read.
-/

namespace RayPlatform

open ComputeCore
open MessageRouter

/-- The buffers of one hop. -/
structure HopBuffers where
  outbox : Chunk
  inbox : Chunk
  outgoing : Chunk

/-- A message from hop to hop until it is dispatched, with fresh buffers for every hop. -/
def journey (router : MessageRouter) (doChecksum : Bool) :
    List HopBuffers → Rank → Message → List UInt8 → Option Delivery
  | [], _, _, _ => none
  | hop :: hops, rank, m, payload => do
      let packet ← sendPacket router doChecksum rank m payload hop.outbox
      let (routed, payload) ← receivePacket router doChecksum packet hop.inbox hop.outgoing
      match routed with
      | .dispatch m => return { rank := packet.destination, message := m, payload := payload }
      | .relay m => journey router doChecksum hops packet.destination m payload

/-- The actors a message carries. -/
def Message.actors (m : Message) : Int32 × Int32 :=
  (m.sourceActor, m.destinationActor)

/-- The sender has set the actors. -/
def Message.ActorsSet (m : Message) : Prop :=
  ¬ (m.sourceActor < 0 ∧ m.destinationActor < 0)

instance (m : Message) : Decidable m.ActorsSet :=
  inferInstanceAs (Decidable (¬ _))

/-- What the destination ought to read: the actors that the sender has set, or the
ranks of the message. -/
def Message.senderActors (m : Message) : Int32 × Int32 :=
  if m.ActorsSet then m.actors else (m.source, m.destination)

/-- With enough hops, the destination reads the same actors with the router as
without it, whatever the buffers hold. -/
def ActorsTransparent (graph : ConnectionGraph) (doChecksum : Bool) (m : Message)
    (payload : List UInt8) : Prop :=
  ∃ n, ∀ hops hops' : List HopBuffers, n ≤ hops.length → n ≤ hops'.length →
    ∃ routed direct : Message,
      journey { enabled := true, graph := graph } doChecksum hops m.source m payload =
        some { rank := m.destination, message := routed, payload := payload } ∧
      journey { enabled := false, graph := graph } doChecksum hops' m.source m payload =
        some { rank := m.destination, message := direct, payload := payload } ∧
      routed.actors = direct.actors ∧ direct.actors = m.senderActors

/-! ## The actors of one journey -/

variable {size : Int32} {router : MessageRouter} {doChecksum : Bool} {l : Letter}
  {distance : Rank → Rank → Nat} {rank : Rank} {m : Message} {payload : List UInt8}

theorem actorsOf_set (hset : m.ActorsSet) : actorsOf m = m.actors := by
  unfold actorsOf Message.defaultActors
  rw [if_neg hset]
  rfl

theorem actorsOf_unset (hunset : ¬ m.ActorsSet) : actorsOf m = (m.source, m.destination) := by
  unfold actorsOf Message.defaultActors
  rw [if_pos (not_not.mp hunset)]

theorem actorsOf_senderActors : actorsOf m = m.senderActors := by
  unfold Message.senderActors
  split
  · rename_i hset
    exact actorsOf_set hset
  · rename_i hunset
    exact actorsOf_unset hunset

/-- Once a message has left a rank, its actors are set. -/
theorem actorsSet_of_actorsOf {sent : Message} (hsource : 0 ≤ sent.source)
    (h : (m.sourceActor, m.destinationActor) = actorsOf sent) : m.ActorsSet := by
  rintro ⟨hneg, hneg'⟩
  by_cases hset : sent.ActorsSet
  · rw [actorsOf_set hset] at h
    obtain ⟨hsourceActor, hdestinationActor⟩ := Prod.mk.inj h
    rw [hsourceActor] at hneg
    rw [hdestinationActor] at hneg'
    exact hset ⟨hneg, hneg'⟩
  · rw [actorsOf_unset hset] at h
    rw [(Prod.mk.inj h).1, Int32.lt_iff_toInt_lt] at hneg
    rw [Int32.le_iff_toInt_le] at hsource
    omega

/-- The destination reads the actors that the message had when it first left. -/
theorem journey_spec (doChecksum : Bool) (hops : List HopBuffers)
    (h : InOutbox router l rank m payload) (hl : l.Valid size)
    (hgraph : LeadsAlongEdges size router distance) (hrank : IsRank size rank)
    (hhops : distance l.destination (router.outgoing rank m).destination < hops.length) :
    ∃ out, journey router doChecksum hops rank m payload =
        some { rank := l.destination, message := out, payload := l.payload } ∧
      out.actors = actorsOf (router.outgoing rank m) := by
  induction hops generalizing rank m payload with
  | nil => simp at hhops
  | cons hop hops ih =>
      obtain ⟨packet, hsend, honWire⟩ := sendPacket_spec h hl hgraph hrank doChecksum hop.outbox
      obtain ⟨routed, hreceive, hcases⟩ := receivePacket_spec honWire hl hop.inbox hop.outgoing
      rcases hcases with ⟨out, rfl, hthere, hdispatched⟩ | ⟨next, rfl, hin, hrelayed, hactors⟩
      · refine ⟨out, ?_, hdispatched.actors⟩
        simp [journey, hsend, hreceive, hthere]
      · -- the relay sends it on as it is
        have hsame : router.outgoing packet.destination next = next := hrelayed.outgoing hl
        have hthere : IsRank size packet.destination := by
          rw [honWire.destination]
          exact honWire.leg.destination
        have hcloser := hgraph.closer l.source l.destination packet.destination hl.source
          hl.destination hthere hrelayed.reaches hrelayed.notThere
        have hset : next.ActorsSet := actorsSet_of_actorsOf honWire.leg.source.1 hactors
        obtain ⟨out, hjourney, hout⟩ := ih hin hthere (by
          rw [hsame, hrelayed.next]
          rw [← honWire.destination, List.length_cons] at hhops
          omega)
        refine ⟨out, ?_, ?_⟩
        · simp [journey, hsend, hreceive, hjourney]
        · rw [hout, hsame, actorsOf_set hset]
          exact hactors

/-! ## With and without a router -/

theorem inOutbox_fresh (router : MessageRouter) (hbytes : m.bytes = payload.length) :
    InOutbox router (letterOf m payload) m.source m payload :=
  ⟨rfl, hbytes, rfl, .inl ⟨rfl, rfl, rfl⟩⟩

/-- Without a router there is one hop. -/
theorem MessageRouter.LeadsAlongEdges.disabled {graph : ConnectionGraph}
    (hgraph : LeadsAlongEdges size { enabled := true, graph := graph } distance) :
    LeadsAlongEdges size { enabled := false, graph := graph } distance :=
  ⟨hgraph.isRank, fun _ _ _ _ _ _ hreach => by simp [reaches] at hreach,
    fun _ _ _ _ _ _ hreach => by simp [reaches] at hreach⟩

/-- Both journeys end, with the actors of the message as it left its source. -/
theorem journeys_spec {graph : ConnectionGraph} (doChecksum : Bool)
    (hgraph : LeadsAlongEdges size { enabled := true, graph := graph } distance)
    (hbytes : m.bytes = payload.length) (hvalid : (letterOf m payload).Valid size) :
    ∃ n, ∀ hops hops' : List HopBuffers, n ≤ hops.length → n ≤ hops'.length →
      ∃ routed direct : Message,
        journey { enabled := true, graph := graph } doChecksum hops m.source m payload =
          some { rank := m.destination, message := routed, payload := payload } ∧
        journey { enabled := false, graph := graph } doChecksum hops' m.source m payload =
          some { rank := m.destination, message := direct, payload := payload } ∧
        routed.actors = actorsOf (routeOutcomingMessage ⟨true, graph⟩ m.source m) ∧
        direct.actors = m.senderActors := by
  let hop := (routeOutcomingMessage ⟨true, graph⟩ m.source m).destination
  refine ⟨distance m.destination hop + distance m.destination m.destination + 1,
    fun hops hops' hlength hlength' => ?_⟩
  obtain ⟨routed, hrouted, hactors⟩ := journey_spec doChecksum hops
    (inOutbox_fresh ⟨true, graph⟩ hbytes) hvalid hgraph hvalid.source
    (show distance m.destination hop < hops.length by omega)
  obtain ⟨direct, hdirect, hactors'⟩ := journey_spec doChecksum hops'
    (inOutbox_fresh ⟨false, graph⟩ hbytes) hvalid hgraph.disabled hvalid.source
    (show distance m.destination m.destination < hops'.length by omega)
  exact ⟨routed, direct, hrouted, hdirect, hactors, hactors'.trans actorsOf_senderActors⟩

/-- What the router makes of the actors of a message that leaves its source. -/
theorem actorsOf_routed {graph : ConnectionGraph}
    (hgraph : LeadsAlongEdges size { enabled := true, graph := graph } distance)
    (hvalid : (letterOf m payload).Valid size) :
    actorsOf (routeOutcomingMessage ⟨true, graph⟩ m.source m) = m.senderActors ↔
      m.ActorsSet ∨ graph.isConnected m.source m.destination = true := by
  have htag : isRoutingTag m.tag = false := hvalid.not_isRoutingTag
  rw [routeOutcomingMessage, if_neg (by rw [htag]; simp)]
  cases hconnected : graph.isConnected m.source m.destination with
  | true =>
      rw [if_pos hconnected]
      exact iff_of_true actorsOf_senderActors (.inr rfl)
  | false =>
      rw [if_neg (by simp [hconnected])]
      have hreach : reaches ⟨true, graph⟩ m.source m.destination = false := by
        simp [reaches, hconnected]
      let hop := graph.getNextRankInRoute m.source m.destination m.source
      have hedge : graph.isConnected m.source hop = true :=
        hgraph.edge m.source m.destination m.source hvalid.source hvalid.destination hvalid.source
          hreach (.inl rfl)
      by_cases hset : m.ActorsSet
      · refine iff_of_true ?_ (.inl hset)
        rw [Message.senderActors, if_pos hset]
        exact actorsOf_set hset
      · -- the next rank is a neighbour, and so is not the destination
        have hhop : hop ≠ m.destination := by
          intro heq
          rw [heq, hconnected] at hedge
          cases hedge
        refine iff_of_false (fun hactors => ?_) (by simp [hset])
        rw [Message.senderActors, if_neg hset] at hactors
        have hrouted := actorsOf_unset (m := { m with
          tag := getRoutingTag m.tag
          routingSource := m.source
          routingDestination := m.destination
          destination := hop }) hset
        exact hhop (Prod.mk.inj (hrouted.symm.trans hactors)).2

/-- A transparent journey starts with the right actors. -/
theorem ActorsTransparent.first {graph : ConnectionGraph}
    (h : ActorsTransparent graph doChecksum m payload)
    (hgraph : LeadsAlongEdges size { enabled := true, graph := graph } distance)
    (hbytes : m.bytes = payload.length) (hvalid : (letterOf m payload).Valid size) :
    actorsOf (routeOutcomingMessage ⟨true, graph⟩ m.source m) = m.senderActors := by
  obtain ⟨n, htransparent⟩ := h
  obtain ⟨n', hjourneys⟩ := journeys_spec doChecksum hgraph hbytes hvalid
  let zeros : Chunk := .zero _
  let hops : List HopBuffers := List.replicate (n + n') ⟨zeros, zeros, zeros⟩
  have hlength : hops.length = n + n' := List.length_replicate
  obtain ⟨routed, _, hrouted, _, hactors, _⟩ := hjourneys hops hops (by omega) (by omega)
  obtain ⟨routed', direct, hrouted', _, hsame, hsender⟩ :=
    htransparent hops hops (by omega) (by omega)
  rw [hrouted] at hrouted'
  cases hrouted'
  exact hactors.symm.trans (hsame.trans hsender)

/-- The destination reads the same actors with a router as without it exactly if the
sender has set them, or is connected to the destination. -/
theorem actorsTransparent_iff (size : Int32) (graph : ConnectionGraph)
    (distance : Rank → Rank → Nat) (doChecksum : Bool) (m : Message) (payload : List UInt8)
    (hgraph : LeadsAlongEdges size { enabled := true, graph := graph } distance)
    (hbytes : m.bytes = payload.length) (hvalid : (letterOf m payload).Valid size) :
    ActorsTransparent graph doChecksum m payload ↔
      m.ActorsSet ∨ graph.isConnected m.source m.destination = true := by
  rw [← actorsOf_routed hgraph hvalid]
  refine ⟨fun h => h.first hgraph hbytes hvalid, fun hactors => ?_⟩
  obtain ⟨n, hjourneys⟩ := journeys_spec doChecksum hgraph hbytes hvalid
  refine ⟨n, fun hops hops' hlength hlength' => ?_⟩
  obtain ⟨routed, direct, hrouted, hdirect, hfirst, hsender⟩ :=
    hjourneys hops hops' hlength hlength'
  exact ⟨routed, direct, hrouted, hdirect, (hfirst.trans hactors).trans hsender.symm, hsender⟩

/-- Rank 0 to its neighbour. -/
theorem actorsTransparent_neighbour :
    ActorsTransparent ringGraph true (Message.new 2 1 5 0) [7, 8] :=
  (actorsTransparent_iff 3 ringGraph ringDistance true (Message.new 2 1 5 0) [7, 8]
    ringGraph_leads rfl (by decide)).mpr (.inr (by decide))

/-- Rank 0 to rank 2 by way of rank 1: rank 2 reads that the message is for actor 1. -/
theorem routedActors_first_hop :
    ¬ ActorsTransparent ringGraph true (Message.new 2 2 5 0) [7, 8] := by
  intro htransparent
  have hactors := htransparent.first ringGraph_leads rfl (by decide)
  exact absurd hactors (by decide)

end RayPlatform
