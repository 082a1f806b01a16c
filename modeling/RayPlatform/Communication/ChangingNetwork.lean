import RayPlatform.Communication.RoutedNetwork
import RayPlatform.Lib.Geodesic

/-!
# Routed messages on graphs that change

Each rank has a graph of its own. The polytope and the torus select a hop by the loads they
have counted, so that a search for a hop changes the graph of the rank that asks, and no two
ranks need agree on the next hop of a message.

* `afterSend`, `afterReceive` — when a router searches, and what its graph is afterwards;
* `ShortestHops` — what such a graph owes to the router, whatever was searched before;
* `changingNetwork_deliversShortest` — in every run each message is dispatched once, and the
  messages that the ranks sent for it are as many as a shortest walk has hops.
-/

namespace RayPlatform

open Lib (TransitionSystem Walk IsShortest)
open Lib.TransitionSystem (runAll)
open ComputeCore
open MessageRouter

/-- A kind of graph: the connections do not change. -/
structure ChangingGraph (Graph : Type) where
  isConnected : Rank → Rank → Bool
  getNextRankInRoute : Graph → Rank → Rank → Rank → Option (Rank × Graph)

namespace ChangingGraph

variable {Graph : Type} (kind : ChangingGraph Graph)

/-- The router of a rank as long as its graph stays. -/
def router (g : Graph) : MessageRouter :=
  { enabled := true
    graph :=
      { isConnected := kind.isConnected
        getNextRankInRoute := fun source destination rank =>
          ((kind.getNextRankInRoute g source destination rank).map Prod.fst).getD rank } }

theorem router_enabled (g : Graph) : (kind.router g).enabled = true :=
  rfl

/-- The graph after a search for a hop. -/
def searched (g : Graph) (source destination rank : Rank) : Graph :=
  ((kind.getNextRankInRoute g source destination rank).map Prod.snd).getD g

/-- `routeOutcomingMessages` only searches for a message that is not routed yet and whose ends
are not connected. -/
def afterSend (g : Graph) (rank : Rank) (m : Message) : Graph :=
  if isRoutingTag m.tag then g
  else if kind.isConnected m.source m.destination then g
  else kind.searched g m.source m.destination rank

/-- `routeIncomingMessages` only searches for a message that it relays. -/
def afterReceive (g : Graph) (rank : Rank) : Routed → Graph
  | .dispatch _ => g
  | .relay m => kind.searched g m.routingSource m.routingDestination rank

end ChangingGraph

/-- `m_sentMessages` counts for all ranks together. -/
structure ChangingNetworkState (Graph : Type) where
  network : NetworkState
  graphs : Rank → Graph
  m_sentMessages : Nat

namespace ChangingNetworkState

variable {Graph : Type}

def start (graphs : Rank → Graph) : ChangingNetworkState Graph :=
  { network := .empty, graphs := graphs, m_sentMessages := 0 }

def exec (size : Int32) (kind : ChangingGraph Graph) (doChecksum : Bool)
    (s : ChangingNetworkState Graph) : NetworkStep → Option (ChangingNetworkState Graph)
  | .post m payload => do
      let network ← s.network.exec size (kind.router (s.graphs m.source)) doChecksum
        (.post m payload)
      return { s with network }
  | .send i chunk => do
      let queued ← s.network.outboxes[i]?
      let g := s.graphs queued.rank
      let network ← s.network.exec size (kind.router g) doChecksum (.send i chunk)
      return {
        network
        graphs := Function.update s.graphs queued.rank
          (kind.afterSend g queued.rank queued.message)
        m_sentMessages := s.m_sentMessages + 1 }
  | .receive i inbox outgoing => do
      let packet ← s.network.inFlight[i]?
      let rank := packet.destination
      let g := s.graphs rank
      let (routed, _) ← receivePacket (kind.router g) doChecksum packet inbox outgoing
      let network ← s.network.exec size (kind.router g) doChecksum (.receive i inbox outgoing)
      return { s with
        network
        graphs := Function.update s.graphs rank (kind.afterReceive g rank routed) }

end ChangingNetworkState

def changingNetwork {Graph : Type} (size : Int32) (kind : ChangingGraph Graph) (doChecksum : Bool)
    (graphs : Rank → Graph) : TransitionSystem (ChangingNetworkState Graph) NetworkStep :=
  .ofExec (.start graphs) (ChangingNetworkState.exec size kind doChecksum)

/-- Whatever was searched before, a search finds a hop that comes one closer to the destination,
which no edge does better. -/
structure ShortestHops {Graph : Type} (size : Int32) (kind : ChangingGraph Graph)
    (Valid : Graph → Prop) (distance : Rank → Rank → Nat) : Prop where
  there : ∀ destination rank, IsRank size destination → IsRank size rank →
    (distance destination rank = 0 ↔ rank = destination)
  hop : ∀ g source destination rank, Valid g → IsRank size destination → IsRank size rank →
    rank ≠ destination → ∃ next g', kind.getNextRankInRoute g source destination rank =
      some (next, g') ∧ Valid g' ∧ IsRank size next ∧ kind.isConnected rank next = true ∧
        distance destination rank = distance destination next + 1
  /-- nobody asks at the destination, but the search stays on the graph -/
  rest : ∀ g source destination next g', Valid g → IsRank size destination →
    kind.getNextRankInRoute g source destination destination = some (next, g') →
      IsRank size next
  self : ∀ rank, kind.isConnected rank rank = true
  edge : ∀ destination u v, IsRank size destination → IsRank size u →
    kind.isConnected u v = true → IsRank size v ∧ distance destination u ≤ distance destination v + 1

/-! ## Letters in transit -/

section Transit

variable {Graph : Type} {size : Int32} {kind : ChangingGraph Graph} {Valid : Graph → Prop}
  {distance : Rank → Rank → Nat} {doChecksum : Bool} {l : Letter} {g g' : Graph}

/-- The distance is the length of the shortest walks. -/
theorem ShortestHops.isShortest (h : ShortestHops size kind Valid distance) (hg : Valid g)
    {source destination : Rank} (hsource : IsRank size source)
    (hdestination : IsRank size destination) :
    IsShortest (fun u v => kind.isConnected u v = true) source destination
      (distance destination source) := by
  have hdescends : Lib.Descends (fun u v => kind.isConnected u v = true) (IsRank size) destination
      (distance destination) := by
    refine ⟨fun v hv => h.there destination v hdestination hv, fun v hv hne => ?_,
      fun u v hu hedge => h.edge destination u v hdestination hu hedge⟩
    obtain ⟨next, -, -, -, hnext, hedge, hcloser⟩ :=
      h.hop g source destination v hg hdestination hv hne
    exact ⟨next, hnext, hedge, hcloser⟩
  exact hdescends.isShortest hsource

/-- The router of a rank meets what routing relies on, as long as the graph stays. -/
theorem ShortestHops.leads (h : ShortestHops size kind Valid distance) (hg : Valid g) :
    LeadsAlongEdges size (kind.router g) distance := by
  refine ⟨fun source destination rank _ hdestination hrank => ?_,
    fun source destination rank _ hdestination hrank hreaches hor => ?_,
    fun source destination rank _ hdestination hrank _ hne => ?_⟩
  · show IsRank size (((kind.getNextRankInRoute g source destination rank).map Prod.fst).getD rank)
    by_cases hne : rank = destination
    · subst hne
      cases hnext : kind.getNextRankInRoute g source rank rank with
      | none => exact hrank
      | some p => exact h.rest g source rank p.1 p.2 hg hdestination hnext
    · obtain ⟨next, g', hnext, -, hnextRank, -⟩ :=
        h.hop g source destination rank hg hdestination hrank hne
      rw [hnext]
      exact hnextRank
  · have hne : rank ≠ destination := by
      rcases hor with rfl | hne
      · rintro rfl
        simp [reaches, ChangingGraph.router, h.self] at hreaches
      · exact hne
    obtain ⟨next, g', hnext, -, -, hedge, -⟩ :=
      h.hop g source destination rank hg hdestination hrank hne
    show kind.isConnected rank
      (((kind.getNextRankInRoute g source destination rank).map Prod.fst).getD rank) = true
    rw [hnext]
    exact hedge
  · obtain ⟨next, g', hnext, -, -, -, hcloser⟩ :=
      h.hop g source destination rank hg hdestination hrank hne
    show distance destination
      (((kind.getNextRankInRoute g source destination rank).map Prod.fst).getD rank) < _
    rw [hnext]
    exact Nat.lt_of_lt_of_eq (Nat.lt_succ_self _) hcloser.symm

theorem ShortestHops.searched (h : ShortestHops size kind Valid distance) (hg : Valid g)
    (source : Rank) {destination rank : Rank} (hdestination : IsRank size destination)
    (hrank : IsRank size rank) (hne : rank ≠ destination) :
    Valid (kind.searched g source destination rank) := by
  obtain ⟨next, g', hnext, hg', -⟩ := h.hop g source destination rank hg hdestination hrank hne
  rw [ChangingGraph.searched, hnext]
  exact hg'

/-- The messages that have to be sent for a letter, from a rank that has it in its outbox. -/
def hopsLeft (distance : Rank → Rank → Nat) (l : Letter) (rank : Rank) : Nat :=
  max 1 (distance l.destination rank)

/-- The messages for a letter. One that a rank sends to itself is sent, too. -/
def MessageRouter.Letter.hops (distance : Rank → Rank → Nat) (l : Letter) : Nat :=
  hopsLeft distance l l.source

theorem MessageRouter.Leg.congr {router router' : MessageRouter} {m : Message} (h : Leg size router l m)
    (hreaches : ∀ a b, router'.reaches a b = router.reaches a b) : Leg size router' l m := by
  refine ⟨h.source, h.destination, ?_, ?_⟩
  · rw [hreaches]
    exact h.edge
  · rw [hreaches]
    exact h.way

theorem Transports.congr {router router' : MessageRouter} {packet : Packet}
    (h : Transports size router doChecksum packet l)
    (hreaches : ∀ a b, router'.reaches a b = router.reaches a b) :
    Transports size router' doChecksum packet l := by
  obtain ⟨sent, honWire⟩ := h.onWire
  exact ⟨h.valid, sent, { honWire with leg := honWire.leg.congr hreaches }⟩

/-- What leaves a rank only depends on what its router makes of the message. -/
theorem sendPacket_congr {router router' : MessageRouter} {rank : Rank} {m : Message}
    (hsame : router'.outgoing rank m = router.outgoing rank m) (payload : List UInt8)
    (chunk : Chunk) : sendPacket router' doChecksum rank m payload chunk =
      sendPacket router doChecksum rank m payload chunk := by
  have hprepared : ∀ router : MessageRouter,
      prepared (if router.enabled then router.routeOutcomingMessage rank else id) false m =
        router.outgoing rank m := by
    intro router
    unfold prepared MessageRouter.outgoing
    cases router.enabled <;> rfl
  simp only [sendPacket, sendMessage, hprepared, hsame]

/-- A message of an outbox carries a letter; if it was relayed, by a graph at that time. -/
def CarriesBy (size : Int32) (kind : ChangingGraph Graph) (Valid : Graph → Prop)
    (queued : OutboxEntry) (l : Letter) : Prop :=
  ∃ g, Valid g ∧ Carries size (kind.router g) queued l

/-- A packet carries a letter over an edge. -/
def TransportsBy (size : Int32) (kind : ChangingGraph Graph) (Valid : Graph → Prop)
    (doChecksum : Bool) (packet : Packet) (l : Letter) : Prop :=
  ∃ g, Valid g ∧ Transports size (kind.router g) doChecksum packet l

/-- A message leaves an outbox for a rank that is one hop closer, whatever has become of the
graph of its rank. -/
theorem CarriesBy.send {queued : OutboxEntry} (hc : CarriesBy size kind Valid queued l)
    (h : ShortestHops size kind Valid distance) (hg : Valid g) (doChecksum : Bool) (chunk : Chunk) :
    ∃ packet, sendPacket (kind.router g) doChecksum queued.rank queued.message queued.payload
        chunk = some packet ∧
      TransportsBy size kind Valid doChecksum packet l ∧
      Valid (kind.afterSend g queued.rank queued.message) ∧
      distance l.destination packet.destination + 1 = hopsLeft distance l queued.rank := by
  obtain ⟨g', hg', hvalid, hrank, hin⟩ := hc
  have hdestination := hvalid.destination
  rcases hin.way with hfresh | hrelayed
  · have hin' : InOutbox (kind.router g) l queued.rank queued.message queued.payload :=
      ⟨hin.payload_eq, hin.bytes, hin.source, .inl hfresh⟩
    obtain ⟨packet, hsend, honWire⟩ := sendPacket_spec hin' hvalid (h.leads hg) hrank doChecksum chunk
    have htag : isRoutingTag queued.message.tag = false := by
      rw [hfresh.tag]
      exact hvalid.not_isRoutingTag
    have hsource : queued.message.source = l.source := hin.source.trans hfresh.source
    have hout : ((kind.router g).outgoing queued.rank queued.message).destination =
        if kind.isConnected l.source l.destination then l.destination
        else (kind.router g).graph.getNextRankInRoute l.source l.destination queued.rank := by
      rw [outgoing, if_pos (kind.router_enabled g), routeOutcomingMessage,
        if_neg (by rw [htag]; exact Bool.false_ne_true), hsource, hfresh.destination]
      show (if kind.isConnected l.source l.destination then queued.message
        else _ : Message).destination = _
      split
      · exact hfresh.destination
      · rfl
    have hafter : kind.afterSend g queued.rank queued.message =
        if kind.isConnected l.source l.destination then g
        else kind.searched g l.source l.destination queued.rank := by
      rw [ChangingGraph.afterSend, if_neg (by rw [htag]; exact Bool.false_ne_true), hsource,
        hfresh.destination]
    refine ⟨packet, hsend, ⟨g, hg, hvalid, _, honWire⟩, ?_, ?_⟩
    · rw [hafter]
      split
      · exact hg
      · next hne =>
          refine h.searched hg _ hdestination hrank fun heq => hne ?_
          rw [← hfresh.source, heq]
          exact h.self _
    · rw [honWire.destination, hout, hopsLeft]
      split
      · next hconnected =>
          -- one hop
          have hthere := (h.there _ _ hdestination hdestination).mpr rfl
          have hedge := (h.edge _ _ _ hdestination hvalid.source hconnected).2
          rw [hfresh.source]
          omega
      · next hne =>
          have hne' : queued.rank ≠ l.destination := fun heq => hne (by
            rw [← hfresh.source, heq]
            exact h.self _)
          obtain ⟨next, _, hnext, -, -, -, hcloser⟩ := h.hop g l.source _ _ hg hdestination hrank hne'
          show distance l.destination (((kind.getNextRankInRoute g l.source l.destination
            queued.rank).map Prod.fst).getD queued.rank) + 1 = _
          rw [hnext]
          show distance l.destination next + 1 = _
          omega
  · obtain ⟨packet, hsend, honWire⟩ := sendPacket_spec hin hvalid (h.leads hg') hrank doChecksum chunk
    have hsame : (kind.router g).outgoing queued.rank queued.message =
        (kind.router g').outgoing queued.rank queued.message := by
      have htag : isRoutingTag queued.message.tag = true := by
        rw [hrelayed.tag]
        exact isRoutingTag_getRoutingTag hvalid.tag_nonneg
      rw [outgoing, outgoing, if_pos (kind.router_enabled g), if_pos (kind.router_enabled g'),
        routeOutcomingMessage, routeOutcomingMessage, if_pos htag, if_pos htag]
    refine ⟨packet, (sendPacket_congr hsame _ _).trans hsend, ⟨g', hg', hvalid, _, honWire⟩, ?_, ?_⟩
    · rw [ChangingGraph.afterSend, if_pos]
      · exact hg
      · rw [hrelayed.tag]
        exact isRoutingTag_getRoutingTag hvalid.tag_nonneg
    · rw [honWire.destination, hrelayed.outgoing hvalid, hrelayed.next, hopsLeft]
      obtain ⟨next, _, hnext, -, -, -, hcloser⟩ :=
        h.hop g' l.source _ _ hg' hdestination hrank hrelayed.notThere
      show distance l.destination (((kind.getNextRankInRoute g' l.source l.destination
        queued.rank).map Prod.fst).getD queued.rank) + 1 = _
      rw [hnext]
      show distance l.destination next + 1 = _
      omega

/-- A packet is dispatched at the destination of its letter, and elsewhere is put in the outbox
again. -/
theorem TransportsBy.receive {packet : Packet}
    (ht : TransportsBy size kind Valid doChecksum packet l)
    (h : ShortestHops size kind Valid distance) (hg : Valid g) (inbox outgoing : Chunk) :
    ∃ routed, receivePacket (kind.router g) doChecksum packet inbox outgoing =
        some (routed, l.payload) ∧
      Valid (kind.afterReceive g packet.destination routed) ∧
      ((∃ m, routed = .dispatch m ∧ packet.destination = l.destination ∧
          letterOf m l.payload = l) ∨
        ∃ m, routed = .relay m ∧ packet.destination ≠ l.destination ∧
          CarriesBy size kind Valid ⟨packet.destination, m, l.payload⟩ l) := by
  obtain ⟨g', hg', ht⟩ := ht
  have hhere : Transports size (kind.router g) doChecksum packet l := ht.congr fun _ _ => rfl
  obtain ⟨hvalid, sent, honWire⟩ := hhere
  obtain ⟨routed, hreceive, hcases⟩ := receivePacket_spec honWire hvalid inbox outgoing
  refine ⟨routed, hreceive, ?_⟩
  have hrank : IsRank size packet.destination := by
    rw [honWire.destination]
    exact honWire.leg.destination
  rcases hcases with ⟨m, rfl, hthere, hdispatched⟩ | ⟨m, rfl, hin, hrelayed, -⟩
  · refine ⟨hg, .inl ⟨m, rfl, hthere, ?_⟩⟩
    rw [letterOf, hdispatched.source, hdispatched.destination, hdispatched.tag]
  · refine ⟨?_, .inr ⟨m, rfl, hrelayed.notThere, g, hg, hvalid, hrank, hin⟩⟩
    rw [ChangingGraph.afterReceive, hrelayed.routingSource, hrelayed.routingDestination]
    exact h.searched hg _ hvalid.destination hrank hrelayed.notThere

end Transit

/-! ## One lemma per step -/

section Steps

variable {Graph : Type} {size : Int32} {kind : ChangingGraph Graph} {Valid : Graph → Prop}
  {distance : Rank → Rank → Nat} {doChecksum : Bool} {s s' : ChangingNetworkState Graph}
  {queued : List (OutboxEntry × Letter)} {packets : List (Packet × Letter)}

/-- The letters of a state, and the messages that are left to be sent for them. -/
structure InMotion (size : Int32) (kind : ChangingGraph Graph) (Valid : Graph → Prop)
    (distance : Rank → Rank → Nat) (doChecksum : Bool) (s : ChangingNetworkState Graph)
    (queued : List (OutboxEntry × Letter)) (packets : List (Packet × Letter)) : Prop where
  graphs : ∀ rank, Valid (s.graphs rank)
  outboxes : s.network.outboxes = queued.map Prod.fst
  inFlight : s.network.inFlight = packets.map Prod.fst
  carries : ∀ t ∈ queued, CarriesBy size kind Valid t.1 t.2
  transports : ∀ t ∈ packets, TransportsBy size kind Valid doChecksum t.1 t.2
  dispatched : ∀ d ∈ s.network.dispatched, d.rank = d.message.destination
  conserved : s.network.posted.Perm
    (queued.map Prod.snd ++ packets.map Prod.snd ++ s.network.dispatched.map Delivery.letter)
  hops : s.m_sentMessages + (queued.map fun t => hopsLeft distance t.2 t.1.rank).sum +
    (packets.map fun t => distance t.2.destination t.1.destination).sum =
      (s.network.posted.map (Letter.hops distance)).sum

theorem InMotion.start {graphs : Rank → Graph} (hgraphs : ∀ rank, Valid (graphs rank)) :
    InMotion size kind Valid distance doChecksum (.start graphs) [] [] :=
  ⟨hgraphs, rfl, rfl, fun _ ht => absurd ht List.not_mem_nil,
    fun _ ht => absurd ht List.not_mem_nil, fun _ hd => absurd hd List.not_mem_nil, .refl _, rfl⟩

theorem InMotion.post (h : InMotion size kind Valid distance doChecksum s queued packets)
    {m : Message} {payload : List UInt8}
    (hstep : s.exec size kind doChecksum (.post m payload) = some s') :
    ∃ queued', InMotion size kind Valid distance doChecksum s' queued' packets := by
  simp only [ChangingNetworkState.exec, NetworkState.exec, Option.bind_eq_bind] at hstep
  obtain ⟨network, hnetwork, hstep⟩ := Option.bind_eq_some_iff.mp hstep
  split at hnetwork
  · next hguard =>
      obtain ⟨hbytes, hvalid⟩ := hguard
      cases hnetwork
      cases hstep
      let l := letterOf m payload
      let q : OutboxEntry := { rank := m.source, message := m, payload := payload }
      have hcarries : CarriesBy size kind Valid q l :=
        ⟨_, h.graphs m.source, hvalid, hvalid.source, rfl, hbytes, rfl, .inl ⟨rfl, rfl, rfl⟩⟩
      refine ⟨queued ++ [(q, l)], h.graphs, ?_, h.inFlight, fun t ht => ?_, h.transports,
        h.dispatched, ?_, ?_⟩
      · show s.network.outboxes ++ [q] = _
        rw [List.map_append, ← h.outboxes]
        rfl
      · rcases List.mem_append.mp ht with hold | hnew
        · exact h.carries t hold
        · rw [List.mem_singleton] at hnew
          rw [hnew]
          exact hcarries
      · rw [List.map_append, List.append_assoc, List.append_assoc]
        refine (h.conserved.append_right [l]).trans ?_
        rw [List.append_assoc, List.append_assoc]
        refine List.Perm.append_left _ ?_
        rw [← List.append_assoc]
        exact List.perm_append_comm
      · have hhops := h.hops
        have hnew : hopsLeft distance l q.rank = l.hops distance := rfl
        show s.m_sentMessages + _ + _ = ((s.network.posted ++ [l]).map _).sum
        simp only [List.map_append, List.sum_append, List.map_cons, List.map_nil, List.sum_cons,
          List.sum_nil]
        omega
  · cases hnetwork

/-- Every message of an outbox can be sent. -/
theorem InMotion.send (h : InMotion size kind Valid distance doChecksum s queued packets)
    (hkind : ShortestHops size kind Valid distance) {i : Nat} (hi : i < s.network.outboxes.length)
    (chunk : Chunk) :
    ∃ s' queued' packets', s.exec size kind doChecksum (.send i chunk) = some s' ∧
      InMotion size kind Valid distance doChecksum s' queued' packets' := by
  have hget : s.network.outboxes[i]? = some s.network.outboxes[i] := List.getElem?_eq_getElem hi
  generalize s.network.outboxes[i] = q at hget
  have hgetMap := hget
  rw [h.outboxes] at hgetMap
  obtain ⟨l, hmem, hperm, herase⟩ := eraseIdx_spec hgetMap
  obtain ⟨packet, hsend, htransports, hafter, hcloser⟩ :=
    (h.carries _ hmem).send hkind (h.graphs q.rank) doChecksum chunk
  let next : ChangingNetworkState Graph := {
    network := { s.network with
      outboxes := s.network.outboxes.eraseIdx i
      inFlight := s.network.inFlight ++ [packet] }
    graphs := Function.update s.graphs q.rank (kind.afterSend (s.graphs q.rank) q.rank q.message)
    m_sentMessages := s.m_sentMessages + 1 }
  refine ⟨next, queued.eraseIdx i, packets ++ [(packet, l)], ?_, ?_, ?_, ?_, fun t ht => ?_,
    fun t ht => ?_, h.dispatched, ?_, ?_⟩
  · simp only [ChangingNetworkState.exec, NetworkState.exec, hget, Option.bind_eq_bind,
      Option.bind_some, hsend]
    rfl
  · intro rank
    show Valid (Function.update s.graphs q.rank _ rank)
    by_cases hrank : rank = q.rank
    · subst hrank
      rw [Function.update_self]
      exact hafter
    · rw [Function.update_of_ne hrank]
      exact h.graphs rank
  · show s.network.outboxes.eraseIdx i = _
    rw [h.outboxes, herase]
  · show s.network.inFlight ++ [packet] = _
    rw [List.map_append, h.inFlight]
    rfl
  · exact h.carries t (List.mem_of_mem_eraseIdx ht)
  · rcases List.mem_append.mp ht with hold | hnew
    · exact h.transports t hold
    · rw [List.mem_singleton] at hnew
      rw [hnew]
      exact htransports
  · refine h.conserved.trans ?_
    refine List.Perm.append_right _ ?_
    refine ((hperm.map Prod.snd).append_right _).trans ?_
    rw [List.map_cons, List.cons_append, List.map_append, ← List.append_assoc]
    exact (List.perm_append_singleton l _).symm
  · have hsum := (hperm.map fun t => hopsLeft distance t.2 t.1.rank).sum_nat
    have hhops := h.hops
    have hleft : hopsLeft distance (q, l).2 (q, l).1.rank =
        distance l.destination packet.destination + 1 := hcloser.symm
    rw [List.map_cons, List.sum_cons, hleft] at hsum
    show s.m_sentMessages + 1 + _ + _ = (s.network.posted.map _).sum
    simp only [List.map_append, List.sum_append, List.map_cons, List.map_nil, List.sum_cons,
      List.sum_nil]
    omega

/-- Every packet can arrive. -/
theorem InMotion.receive (h : InMotion size kind Valid distance doChecksum s queued packets)
    (hkind : ShortestHops size kind Valid distance) {i : Nat} (hi : i < s.network.inFlight.length)
    (inbox outgoing : Chunk) :
    ∃ s' queued' packets', s.exec size kind doChecksum (.receive i inbox outgoing) = some s' ∧
      InMotion size kind Valid distance doChecksum s' queued' packets' := by
  have hget : s.network.inFlight[i]? = some s.network.inFlight[i] := List.getElem?_eq_getElem hi
  generalize s.network.inFlight[i] = packet at hget
  have hgetMap := hget
  rw [h.inFlight] at hgetMap
  obtain ⟨l, hmem, hperm, herase⟩ := eraseIdx_spec hgetMap
  obtain ⟨routed, hreceive, hafter, hcases⟩ :=
    (h.transports _ hmem).receive hkind (h.graphs packet.destination) inbox outgoing
  have hgraphs : ∀ rank, Valid (Function.update s.graphs packet.destination
      (kind.afterReceive (s.graphs packet.destination) packet.destination routed) rank) := by
    intro rank
    by_cases hrank : rank = packet.destination
    · subst hrank
      rw [Function.update_self]
      exact hafter
    · rw [Function.update_of_ne hrank]
      exact h.graphs rank
  have hsum := (hperm.map fun t => distance t.2.destination t.1.destination).sum_nat
  have hhops := h.hops
  simp only [List.map_cons, List.sum_cons] at hsum
  rcases hcases with ⟨m, rfl, hthere, hletter⟩ | ⟨m, rfl, hne, hcarries⟩
  · -- the letter has arrived
    let d : Delivery := { rank := packet.destination, message := m, payload := l.payload }
    have hthere' : m.destination = l.destination := congrArg Letter.destination hletter
    have hzero : distance l.destination packet.destination = 0 := by
      obtain ⟨_, _, hvalid, -⟩ := h.transports _ hmem
      rw [hthere]
      exact (hkind.there _ _ hvalid.destination hvalid.destination).mpr rfl
    let next : ChangingNetworkState Graph := { s with
      network := { s.network with
        inFlight := s.network.inFlight.eraseIdx i
        dispatched := s.network.dispatched ++ [d] }
      graphs := Function.update s.graphs packet.destination
        (kind.afterReceive (s.graphs packet.destination) packet.destination (.dispatch m)) }
    refine ⟨next, queued, packets.eraseIdx i, ?_, hgraphs, h.outboxes, ?_, h.carries,
      fun t ht => h.transports t (List.mem_of_mem_eraseIdx ht), fun d' hd => ?_, ?_, ?_⟩
    · simp only [ChangingNetworkState.exec, NetworkState.exec, hget, Option.bind_eq_bind,
        Option.bind_some, hreceive]
      rfl
    · show s.network.inFlight.eraseIdx i = _
      rw [h.inFlight, herase]
    · rcases List.mem_append.mp hd with hold | hnew
      · exact h.dispatched d' hold
      · rw [List.mem_singleton] at hnew
        rw [hnew]
        exact hthere.trans hthere'.symm
    · refine h.conserved.trans ?_
      show List.Perm _ (_ ++ (s.network.dispatched ++ [d]).map Delivery.letter)
      rw [List.append_assoc, List.append_assoc]
      refine List.Perm.append_left _ ?_
      refine ((hperm.map Prod.snd).append_right _).trans ?_
      rw [List.map_append, ← List.append_assoc, List.map_cons, List.cons_append,
        show [d].map Delivery.letter = [l] from congrArg (fun x => [x]) hletter]
      exact (List.perm_append_singleton l _).symm
    · show s.m_sentMessages + _ + _ = (s.network.posted.map _).sum
      omega
  · -- the letter goes on
    let q : OutboxEntry := { rank := packet.destination, message := m, payload := l.payload }
    have hleft : hopsLeft distance l q.rank = distance l.destination packet.destination := by
      obtain ⟨_, _, hvalid, hrank, -⟩ := hcarries
      have := (hkind.there _ _ hvalid.destination hrank).not.mpr hne
      show max 1 (distance l.destination packet.destination) = _
      exact max_eq_right (Nat.one_le_iff_ne_zero.mpr this)
    let next : ChangingNetworkState Graph := { s with
      network := { s.network with
        inFlight := s.network.inFlight.eraseIdx i
        outboxes := s.network.outboxes ++ [q] }
      graphs := Function.update s.graphs packet.destination
        (kind.afterReceive (s.graphs packet.destination) packet.destination (.relay m)) }
    refine ⟨next, queued ++ [(q, l)], packets.eraseIdx i, ?_, hgraphs, ?_, ?_, fun t ht => ?_,
      fun t ht => h.transports t (List.mem_of_mem_eraseIdx ht), h.dispatched, ?_, ?_⟩
    · simp only [ChangingNetworkState.exec, NetworkState.exec, hget, Option.bind_eq_bind,
        Option.bind_some, hreceive]
      rfl
    · show s.network.outboxes ++ [q] = _
      rw [List.map_append, h.outboxes]
      rfl
    · show s.network.inFlight.eraseIdx i = _
      rw [h.inFlight, herase]
    · rcases List.mem_append.mp ht with hold | hnew
      · exact h.carries t hold
      · rw [List.mem_singleton] at hnew
        rw [hnew]
        exact hcarries
    · refine h.conserved.trans ?_
      refine List.Perm.append_right _ ?_
      refine ((hperm.map Prod.snd).append_left _).trans ?_
      rw [List.map_cons, List.map_append, List.append_assoc]
      exact List.Perm.refl _
    · show s.m_sentMessages + _ + _ = (s.network.posted.map _).sum
      simp only [List.map_append, List.sum_append, List.map_cons, List.map_nil, List.sum_cons,
        List.sum_nil]
      omega

theorem InMotion.step (h : InMotion size kind Valid distance doChecksum s queued packets)
    (hkind : ShortestHops size kind Valid distance) {step : NetworkStep}
    (hstep : s.exec size kind doChecksum step = some s') :
    ∃ queued' packets', InMotion size kind Valid distance doChecksum s' queued' packets' := by
  cases step with
  | post m payload =>
      obtain ⟨queued', hnext⟩ := h.post hstep
      exact ⟨queued', packets, hnext⟩
  | send i chunk =>
      have hi : i < s.network.outboxes.length := by
        by_contra hout
        rw [ChangingNetworkState.exec, List.getElem?_eq_none (by omega)] at hstep
        cases hstep
      obtain ⟨next, queued', packets', hexec, hnext⟩ := h.send hkind hi chunk
      rw [hstep] at hexec
      cases hexec
      exact ⟨queued', packets', hnext⟩
  | receive i inbox outgoing =>
      have hi : i < s.network.inFlight.length := by
        by_contra hout
        rw [ChangingNetworkState.exec, List.getElem?_eq_none (by omega)] at hstep
        cases hstep
      obtain ⟨next, queued', packets', hexec, hnext⟩ := h.receive hkind hi inbox outgoing
      rw [hstep] at hexec
      cases hexec
      exact ⟨queued', packets', hnext⟩

/-! ## Runs -/

theorem changingNetwork_inductive (hkind : ShortestHops size kind Valid distance)
    (doChecksum : Bool) {graphs : Rank → Graph} (hgraphs : ∀ rank, Valid (graphs rank)) :
    (changingNetwork size kind doChecksum graphs).Inductive fun s =>
      ∃ queued packets, InMotion size kind Valid distance doChecksum s queued packets := by
  refine ⟨fun s hs => ?_, fun s step s' h hstep => ?_⟩
  · rw [show s = .start graphs from hs]
    exact ⟨[], [], .start hgraphs⟩
  · obtain ⟨queued, packets, h⟩ := h
    exact h.step hkind hstep

/-- What the network owes to the applications, and what it may send for that. -/
structure DeliversShortest (size : Int32) (kind : ChangingGraph Graph)
    (distance : Rank → Rank → Nat) (doChecksum : Bool) (s : ChangingNetworkState Graph) : Prop where
  endToEnd : ∀ g, EndToEnd (kind.router g).graph s.network
  /-- no message in transit is stuck -/
  sends : ∀ i < s.network.outboxes.length, ∀ chunk,
    ∃ s', s.exec size kind doChecksum (.send i chunk) = some s'
  receives : ∀ i < s.network.inFlight.length, ∀ inbox outgoing,
    ∃ s', s.exec size kind doChecksum (.receive i inbox outgoing) = some s'
  /-- the messages sent for a letter are the hops of a shortest walk, whose first ones are sent
  already where it is in transit -/
  hops : s.m_sentMessages ≤ (s.network.posted.map (Letter.hops distance)).sum
  delivered : s.network.outboxes = [] → s.network.inFlight = [] →
    s.m_sentMessages = (s.network.posted.map (Letter.hops distance)).sum
  shortest : ∀ source destination, IsRank size source → IsRank size destination →
    IsShortest (fun u v => kind.isConnected u v = true) source destination
      (distance destination source)
  /-- without new letters, nothing is left to do after the remaining hops -/
  drains : ∀ steps s', (∀ step ∈ steps, step.isPost = false) →
    runAll (ChangingNetworkState.exec size kind doChecksum) s steps = some s' →
      steps.length + 2 * s.m_sentMessages ≤
        2 * (s.network.posted.map (Letter.hops distance)).sum + s.network.inFlight.length

/-- A step that is no new letter sends a packet or takes one. -/
theorem ChangingNetworkState.exec_counts {step : NetworkStep} (hpost : step.isPost = false)
    (hstep : s.exec size kind doChecksum step = some s') :
    s'.network.posted = s.network.posted ∧
      1 + s'.network.inFlight.length + 2 * s.m_sentMessages =
        s.network.inFlight.length + 2 * s'.m_sentMessages := by
  cases step with
  | post m payload => cases hpost
  | send i chunk =>
      simp only [exec, NetworkState.exec, Option.bind_eq_bind, Option.bind_eq_some_iff] at hstep
      obtain ⟨queued, -, network, ⟨_, -, packet, -, hnetwork⟩, hstep⟩ := hstep
      cases hnetwork
      cases hstep
      refine ⟨rfl, ?_⟩
      show 1 + (s.network.inFlight ++ [packet]).length + _ = _ + 2 * (s.m_sentMessages + 1)
      rw [List.length_append, List.length_singleton]
      omega
  | receive i inbox outgoing =>
      simp only [exec, NetworkState.exec, Option.bind_eq_bind, Option.bind_eq_some_iff] at hstep
      obtain ⟨packet, hget, _, -, network, ⟨_, -, ⟨routed, payload⟩, -, hnetwork⟩, hstep⟩ := hstep
      have herase := List.length_eraseIdx_add_one (List.getElem?_eq_some_iff.mp hget).1
      cases routed with
      | dispatch m =>
          cases hnetwork
          cases hstep
          exact ⟨rfl, by rw [Nat.add_comm 1]; exact congrArg (· + 2 * s.m_sentMessages) herase⟩
      | relay m =>
          cases hnetwork
          cases hstep
          exact ⟨rfl, by rw [Nat.add_comm 1]; exact congrArg (· + 2 * s.m_sentMessages) herase⟩

theorem ChangingNetworkState.runAll_counts {steps : List NetworkStep}
    (hsteps : ∀ step ∈ steps, step.isPost = false)
    (hrun : runAll (ChangingNetworkState.exec size kind doChecksum) s steps = some s') :
    s'.network.posted = s.network.posted ∧
      steps.length + s'.network.inFlight.length + 2 * s.m_sentMessages =
        s.network.inFlight.length + 2 * s'.m_sentMessages := by
  induction steps generalizing s with
  | nil =>
      cases hrun
      exact ⟨rfl, by simp⟩
  | cons step steps ih =>
      rw [runAll, Option.bind_eq_some_iff] at hrun
      obtain ⟨next, hstep, hrun⟩ := hrun
      obtain ⟨hposted, hcount⟩ := exec_counts (hsteps step List.mem_cons_self) hstep
      obtain ⟨hposted', hcount'⟩ :=
        ih (fun step hstep => hsteps step (List.mem_cons_of_mem _ hstep)) hrun
      rw [List.length_cons]
      exact ⟨hposted'.trans hposted, by omega⟩

/-- Graphs that change are as good as any other. -/
theorem changingNetwork_deliversShortest (hkind : ShortestHops size kind Valid distance)
    {graphs : Rank → Graph} (hgraphs : ∀ rank, Valid (graphs rank))
    (hs : (changingNetwork size kind doChecksum graphs).Reachable s) :
    DeliversShortest size kind distance doChecksum s := by
  obtain ⟨queued, packets, h⟩ := (changingNetwork_inductive hkind doChecksum hgraphs).holds hs
  have hhops := h.hops
  refine ⟨fun _ => ⟨fun packet hpacket => ?_, h.dispatched, ?_⟩, fun i hi chunk => ?_,
    fun i hi inbox outgoing => ?_, by omega, fun houtboxes hinFlight => ?_,
    fun source destination hsource hdestination =>
      hkind.isShortest (hgraphs 0) hsource hdestination, fun steps s' hsteps hrun => ?_⟩
  · rw [h.inFlight, List.mem_map] at hpacket
    obtain ⟨t, ht, rfl⟩ := hpacket
    obtain ⟨g, -, -, sent, honWire⟩ := h.transports t ht
    have hedge := honWire.leg.edge
    rw [honWire.source, honWire.destination]
    simpa [reaches, ChangingGraph.router] using hedge
  · refine ⟨queued.map Prod.snd ++ packets.map Prod.snd, ?_, h.conserved⟩
    rw [h.outboxes, h.inFlight]
    simp
  · obtain ⟨s', _, _, hexec, -⟩ := h.send hkind hi chunk
    exact ⟨s', hexec⟩
  · obtain ⟨s', _, _, hexec, -⟩ := h.receive hkind hi inbox outgoing
    exact ⟨s', hexec⟩
  · rw [h.outboxes, List.map_eq_nil_iff] at houtboxes
    rw [h.inFlight, List.map_eq_nil_iff] at hinFlight
    subst houtboxes hinFlight
    simpa using hhops
  · obtain ⟨hposted, hcount⟩ := ChangingNetworkState.runAll_counts hsteps hrun
    obtain ⟨_, _, h'⟩ := (changingNetwork_inductive hkind doChecksum hgraphs).holds (hs.runAll hrun)
    have hhops' := h'.hops
    rw [hposted] at hhops'
    omega

end Steps

end RayPlatform
