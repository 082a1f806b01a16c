import Mathlib.Data.List.InsertIdx
import Mathlib.Data.List.Perm.Basic
import RayPlatform.Lib.TransitionSystem
import RayPlatform.Communication.MessageRouter

/-!
# Routed messages on all ranks

The outboxes of all ranks and the packets in flight, one hop at a time in any
order. Each step is one message leaving an outbox or one packet arriving; the
buffers may hold anything before.

* every message in transit carries one of the letters that were posted
  (`InTransit`), and the steps move letters without losing or copying any;
* every hop makes the total work smaller, so that without new messages the
  network empties itself.
-/

namespace RayPlatform

open Lib (TransitionSystem)
open Lib.TransitionSystem (runAll)
open ComputeCore
open MessageRouter

/-- A message of an outbox, with its rank and what its buffer holds. -/
structure OutboxEntry where
  rank : Rank
  message : Message
  payload : List UInt8

/-- A message that an application handler got. -/
structure Delivery where
  rank : Rank
  message : Message
  payload : List UInt8

structure NetworkState where
  outboxes : List OutboxEntry
  inFlight : List Packet
  /-- what the applications have sent so far -/
  posted : List Letter
  /-- what the application handlers have got so far -/
  dispatched : List Delivery

inductive NetworkStep
  | post (m : Message) (payload : List UInt8)
  /-- message `i` of the outboxes is sent -/
  | send (i : Nat) (chunk : Chunk)
  /-- packet `i` in flight arrives -/
  | receive (i : Nat) (inbox outgoing : Chunk)

def NetworkStep.isPost : NetworkStep → Bool
  | .post _ _ => true
  | _ => false

/-- What a message says to an application. -/
def letterOf (m : Message) (payload : List UInt8) : Letter :=
  { source := m.source, destination := m.destination, tag := m.tag, payload := payload }

def Delivery.letter (d : Delivery) : Letter :=
  letterOf d.message d.payload

instance (size : Int32) (l : Letter) : Decidable (l.Valid size) :=
  decidable_of_iff ((0 ≤ l.source ∧ l.source < size) ∧ (0 ≤ l.destination ∧ l.destination < size) ∧
      0 ≤ l.tag ∧ l.tag < ROUTING_TAG_BASE ∧ l.payload.length ≤ MAXIMUM_MESSAGE_SIZE_IN_BYTES)
    ⟨fun ⟨hs, hd, h0, hlt, hp⟩ => ⟨hs, hd, h0, hlt, hp⟩,
      fun ⟨hs, hd, h0, hlt, hp⟩ => ⟨hs, hd, h0, hlt, hp⟩⟩

namespace NetworkState

def empty : NetworkState :=
  { outboxes := [], inFlight := [], posted := [], dispatched := [] }

def exec (size : Int32) (router : MessageRouter) (doChecksum : Bool) (s : NetworkState) :
    NetworkStep → Option NetworkState
  | .post m payload =>
      if m.bytes = payload.length ∧ (letterOf m payload).Valid size then
        some
          { s with
            outboxes := s.outboxes ++ [{ rank := m.source, message := m, payload := payload }]
            posted := s.posted ++ [letterOf m payload] }
      else none
  | .send i chunk => do
      let queued ← s.outboxes[i]?
      let packet ← sendPacket router doChecksum queued.rank queued.message queued.payload chunk
      return { s with outboxes := s.outboxes.eraseIdx i, inFlight := s.inFlight ++ [packet] }
  | .receive i inbox outgoing => do
      let packet ← s.inFlight[i]?
      let rank := packet.destination
      let (routed, payload) ← receivePacket router doChecksum packet inbox outgoing
      let s := { s with inFlight := s.inFlight.eraseIdx i }
      match routed with
      | .dispatch m =>
          return { s with dispatched := s.dispatched ++ [{ rank, message := m, payload }] }
      | .relay m =>
          return { s with outboxes := s.outboxes ++ [{ rank, message := m, payload }] }

end NetworkState

def routedNetwork (size : Int32) (router : MessageRouter) (doChecksum : Bool) :
    TransitionSystem NetworkState NetworkStep :=
  .ofExec NetworkState.empty (NetworkState.exec size router doChecksum)

/-! ## Letters in transit -/

variable {size : Int32} {router : MessageRouter} {doChecksum : Bool}
  {distance : Rank → Rank → Nat} {s s' : NetworkState} {n : Nat}

/-- A message of an outbox carries a letter. -/
structure Carries (size : Int32) (router : MessageRouter) (queued : OutboxEntry) (l : Letter) :
    Prop where
  valid : l.Valid size
  rank : IsRank size queued.rank
  inOutbox : InOutbox router l queued.rank queued.message queued.payload

/-- A packet carries a letter. -/
structure Transports (size : Int32) (router : MessageRouter) (doChecksum : Bool) (packet : Packet)
    (l : Letter) : Prop where
  valid : l.Valid size
  onWire : ∃ sent, OnWire size router doChecksum l sent packet

/-- The steps that are left for the message of an outbox. -/
def queuedWork (router : MessageRouter) (distance : Rank → Rank → Nat)
    (t : OutboxEntry × Letter) : Nat :=
  2 * distance t.2.destination (router.outgoing t.1.rank t.1.message).destination + 2

/-- The steps that are left for a packet. -/
def packetWork (distance : Rank → Rank → Nat) (t : Packet × Letter) : Nat :=
  2 * distance t.2.destination t.1.destination + 1

/-- The letters of a state, and the work that is left for them. -/
structure InTransit (size : Int32) (router : MessageRouter) (doChecksum : Bool)
    (distance : Rank → Rank → Nat) (s : NetworkState) (queued : List (OutboxEntry × Letter))
    (packets : List (Packet × Letter)) (n : Nat) : Prop where
  outboxes : s.outboxes = queued.map Prod.fst
  inFlight : s.inFlight = packets.map Prod.fst
  carries : ∀ t ∈ queued, Carries size router t.1 t.2
  transports : ∀ t ∈ packets, Transports size router doChecksum t.1 t.2
  dispatched : ∀ d ∈ s.dispatched, d.rank = d.message.destination
  conserved : s.posted.Perm
    (queued.map Prod.snd ++ packets.map Prod.snd ++ s.dispatched.map Delivery.letter)
  work : n = (queued.map (queuedWork router distance)).sum + (packets.map (packetWork distance)).sum

/-! ## One lemma per step -/

theorem empty_inTransit : InTransit size router doChecksum distance .empty [] [] 0 :=
  ⟨rfl, rfl, fun t ht => by simp at ht, fun t ht => by simp at ht,
    fun d hd => by simp [NetworkState.empty] at hd, .refl _, rfl⟩

variable {queued : List (OutboxEntry × Letter)} {packets : List (Packet × Letter)}

theorem InTransit.post (h : InTransit size router doChecksum distance s queued packets n)
    {m : Message} {payload : List UInt8}
    (hstep : s.exec size router doChecksum (.post m payload) = some s') :
    ∃ queued' n', InTransit size router doChecksum distance s' queued' packets n' := by
  simp only [NetworkState.exec] at hstep
  split at hstep
  · rename_i hguard
    obtain ⟨hbytes, hvalid⟩ := hguard
    cases hstep
    let l := letterOf m payload
    let q : OutboxEntry := { rank := m.source, message := m, payload := payload }
    have hcarries : Carries size router q l :=
      ⟨hvalid, hvalid.source, rfl, hbytes, rfl, .inl ⟨rfl, rfl, rfl⟩⟩
    refine ⟨queued ++ [(q, l)], _, ⟨?_, h.inFlight, fun t ht => ?_, h.transports, h.dispatched, ?_,
      rfl⟩⟩
    · rw [List.map_append, ← h.outboxes]
      rfl
    · rcases List.mem_append.mp ht with hold | hnew
      · exact h.carries t hold
      · rw [List.mem_singleton] at hnew
        rw [hnew]
        exact hcarries
    · rw [List.map_append, List.append_assoc, List.append_assoc]
      refine (h.conserved.append_right [l]).trans ?_
      rw [List.append_assoc, List.append_assoc]
      refine List.Perm.append_left _ ?_
      rw [← List.append_assoc]
      exact List.perm_append_comm
  · cases hstep

/-- The letter at a position, and the others. -/
theorem eraseIdx_spec {α : Type} {ts : List (α × Letter)} {i : Nat} {a : α}
    (hget : (ts.map Prod.fst)[i]? = some a) :
    ∃ l, (a, l) ∈ ts ∧ ts.Perm ((a, l) :: ts.eraseIdx i) ∧
      (ts.map Prod.fst).eraseIdx i = (ts.eraseIdx i).map Prod.fst := by
  rw [List.getElem?_map, Option.map_eq_some_iff] at hget
  obtain ⟨t, ht, rfl⟩ := hget
  obtain ⟨hlt, hget⟩ := List.getElem?_eq_some_iff.mp ht
  have hperm := (List.getElem_cons_eraseIdx_perm hlt).symm
  rw [hget] at hperm
  refine ⟨t.2, hget ▸ List.getElem_mem hlt, hperm, ?_⟩
  rw [List.eraseIdx_map]

/-- Every message of an outbox can be sent, whatever its buffer held before. -/
theorem InTransit.send (h : InTransit size router doChecksum distance s queued packets n)
    (hgraph : LeadsAlongEdges size router distance) {i : Nat} (hi : i < s.outboxes.length)
    (chunk : Chunk) :
    ∃ s' queued' packets' n', s.exec size router doChecksum (.send i chunk) = some s' ∧
      InTransit size router doChecksum distance s' queued' packets' n' ∧ n' < n := by
  have hget : s.outboxes[i]? = some s.outboxes[i] := List.getElem?_eq_getElem hi
  generalize s.outboxes[i] = q at hget
  have hgetMap := hget
  rw [h.outboxes] at hgetMap
  obtain ⟨l, hmem, hperm, herase⟩ := eraseIdx_spec hgetMap
  have hcarries := h.carries _ hmem
  obtain ⟨packet, hsend, honWire⟩ :=
    sendPacket_spec hcarries.inOutbox hcarries.valid hgraph hcarries.rank doChecksum chunk
  have hinner : (queuedWork router distance (q, l) : Nat) = packetWork distance (packet, l) + 1 := by
    simp [queuedWork, packetWork, honWire.destination]
  let next : NetworkState :=
    { s with outboxes := s.outboxes.eraseIdx i, inFlight := s.inFlight ++ [packet] }
  refine ⟨next, queued.eraseIdx i, packets ++ [(packet, l)], _, ?_, ⟨?_, ?_, fun t ht => ?_,
    fun t ht => ?_, h.dispatched, ?_, rfl⟩, ?_⟩
  · simp only [NetworkState.exec, hget, Option.bind_eq_bind, Option.bind_some, hsend]
    rfl
  · show s.outboxes.eraseIdx i = _
    rw [h.outboxes, herase]
  · show s.inFlight ++ [packet] = _
    rw [List.map_append, h.inFlight]
    rfl
  · exact h.carries t (List.mem_of_mem_eraseIdx ht)
  · rcases List.mem_append.mp ht with hold | hnew
    · exact h.transports t hold
    · rw [List.mem_singleton] at hnew
      rw [hnew]
      exact ⟨hcarries.valid, _, honWire⟩
  · refine h.conserved.trans ?_
    refine List.Perm.append_right _ ?_
    refine ((hperm.map Prod.snd).append_right _).trans ?_
    rw [List.map_cons, List.cons_append, List.map_append, ← List.append_assoc]
    exact (List.perm_append_singleton l _).symm
  · have hsum := (hperm.map (queuedWork router distance)).sum_nat
    have hwork := h.work
    rw [List.map_cons, List.sum_cons] at hsum
    rw [List.map_append, List.sum_append]
    simp only [List.map_cons, List.map_nil, List.sum_cons, List.sum_nil]
    omega

/-- A letter leaves the packets for the messages that were dispatched. -/
theorem InTransit.arrive (h : InTransit size router doChecksum distance s queued packets n)
    {i : Nat} {packet : Packet} {l : Letter}
    (hperm : packets.Perm ((packet, l) :: packets.eraseIdx i))
    (herase : (packets.map Prod.fst).eraseIdx i = (packets.eraseIdx i).map Prod.fst)
    {d : Delivery} (hletter : d.letter = l) (hthere : d.rank = d.message.destination) :
    ∃ n', InTransit size router doChecksum distance
      { s with inFlight := s.inFlight.eraseIdx i, dispatched := s.dispatched ++ [d] }
      queued (packets.eraseIdx i) n' ∧ n' < n := by
  refine ⟨_, ⟨h.outboxes, ?_, h.carries,
    fun t ht => h.transports t (List.mem_of_mem_eraseIdx ht), fun d' hd => ?_, ?_, rfl⟩, ?_⟩
  · show s.inFlight.eraseIdx i = _
    rw [h.inFlight, herase]
  · rcases List.mem_append.mp hd with hold | hnew
    · exact h.dispatched d' hold
    · rw [List.mem_singleton] at hnew
      rw [hnew]
      exact hthere
  · refine h.conserved.trans ?_
    show List.Perm _ (_ ++ (s.dispatched ++ [d]).map Delivery.letter)
    rw [List.append_assoc, List.append_assoc]
    refine List.Perm.append_left _ ?_
    refine ((hperm.map Prod.snd).append_right _).trans ?_
    rw [List.map_append, ← List.append_assoc, List.map_cons, List.cons_append,
      show [d].map Delivery.letter = [l] from congrArg (fun x => [x]) hletter]
    exact (List.perm_append_singleton l _).symm
  · have hsum := (hperm.map (packetWork distance)).sum_nat
    have hwork := h.work
    have hpos : 0 < packetWork distance (packet, l) := Nat.succ_pos _
    rw [List.map_cons, List.sum_cons] at hsum
    omega

/-- A letter goes from the packets to an outbox, closer to its destination. -/
theorem InTransit.relay (h : InTransit size router doChecksum distance s queued packets n)
    {i : Nat} {packet : Packet} {l : Letter}
    (hperm : packets.Perm ((packet, l) :: packets.eraseIdx i))
    (herase : (packets.map Prod.fst).eraseIdx i = (packets.eraseIdx i).map Prod.fst)
    {q : OutboxEntry} (hcarries : Carries size router q l)
    (hcloser : queuedWork router distance (q, l) < packetWork distance (packet, l)) :
    ∃ n', InTransit size router doChecksum distance
      { s with inFlight := s.inFlight.eraseIdx i, outboxes := s.outboxes ++ [q] }
      (queued ++ [(q, l)]) (packets.eraseIdx i) n' ∧ n' < n := by
  refine ⟨_, ⟨?_, ?_, fun t ht => ?_, fun t ht => h.transports t (List.mem_of_mem_eraseIdx ht),
    h.dispatched, ?_, rfl⟩, ?_⟩
  · show s.outboxes ++ [q] = _
    rw [List.map_append, h.outboxes]
    rfl
  · show s.inFlight.eraseIdx i = _
    rw [h.inFlight, herase]
  · rcases List.mem_append.mp ht with hold | hnew
    · exact h.carries t hold
    · rw [List.mem_singleton] at hnew
      rw [hnew]
      exact hcarries
  · refine h.conserved.trans ?_
    refine List.Perm.append_right _ ?_
    refine ((hperm.map Prod.snd).append_left _).trans ?_
    rw [List.map_cons, List.map_append, List.append_assoc]
    exact List.Perm.refl _
  · have hsum := (hperm.map (packetWork distance)).sum_nat
    have hwork := h.work
    rw [List.map_cons, List.sum_cons] at hsum
    rw [List.map_append, List.sum_append]
    simp only [List.map_cons, List.map_nil, List.sum_cons, List.sum_nil]
    omega

/-- Every packet can arrive, whatever the buffers held before. -/
theorem InTransit.receive (h : InTransit size router doChecksum distance s queued packets n)
    (hgraph : LeadsAlongEdges size router distance) {i : Nat} (hi : i < s.inFlight.length)
    (inbox outgoing : Chunk) :
    ∃ s' queued' packets' n', s.exec size router doChecksum (.receive i inbox outgoing) = some s' ∧
      InTransit size router doChecksum distance s' queued' packets' n' ∧ n' < n := by
  have hget : s.inFlight[i]? = some s.inFlight[i] := List.getElem?_eq_getElem hi
  generalize s.inFlight[i] = packet at hget
  have hgetMap := hget
  rw [h.inFlight] at hgetMap
  obtain ⟨l, hmem, hperm, herase⟩ := eraseIdx_spec hgetMap
  obtain ⟨hvalid, sent, honWire⟩ := h.transports _ hmem
  obtain ⟨routed, hreceive, hcases⟩ := receivePacket_spec honWire hvalid inbox outgoing
  rcases hcases with ⟨m, rfl, hthere, hdispatched⟩ | ⟨m, rfl, hin, hrelayed, _⟩
  · -- the letter has arrived
    let d : Delivery := { rank := packet.destination, message := m, payload := l.payload }
    have hletter : d.letter = l := by
      show letterOf m l.payload = l
      unfold letterOf
      rw [hdispatched.source, hdispatched.destination, hdispatched.tag]
    obtain ⟨n', harrived, hless⟩ :=
      h.arrive hperm herase hletter (hthere.trans hdispatched.destination.symm)
    refine ⟨_, queued, packets.eraseIdx i, n', ?_, harrived, hless⟩
    simp only [NetworkState.exec, hget, Option.bind_eq_bind, Option.bind_some, hreceive]
    rfl
  · -- the letter goes on
    let q : OutboxEntry := { rank := packet.destination, message := m, payload := l.payload }
    have hrank : IsRank size packet.destination := by
      rw [honWire.destination]
      exact honWire.leg.destination
    have hnext : (router.outgoing packet.destination m).destination =
        router.graph.getNextRankInRoute l.source l.destination packet.destination := by
      rw [hrelayed.outgoing hvalid, hrelayed.next]
    have hcloser := hgraph.closer l.source l.destination packet.destination hvalid.source
      hvalid.destination hrank hrelayed.reaches hrelayed.notThere
    have hless : queuedWork router distance (q, l) < packetWork distance (packet, l) := by
      show 2 * distance l.destination (router.outgoing packet.destination m).destination + 2 <
        2 * distance l.destination packet.destination + 1
      rw [hnext]
      omega
    obtain ⟨n', hrelay, hless⟩ := h.relay hperm herase ⟨hvalid, hrank, hin⟩ hless
    refine ⟨_, queued ++ [(q, l)], packets.eraseIdx i, n', ?_, hrelay, hless⟩
    simp only [NetworkState.exec, hget, Option.bind_eq_bind, Option.bind_some, hreceive]
    rfl

/-! ## Runs -/

/-- A step that is not a new message makes the work smaller. -/
theorem InTransit.step (h : InTransit size router doChecksum distance s queued packets n)
    (hgraph : LeadsAlongEdges size router distance) {step : NetworkStep}
    (hstep : s.exec size router doChecksum step = some s') :
    ∃ queued' packets' n', InTransit size router doChecksum distance s' queued' packets' n' ∧
      (step.isPost = false → n' < n) := by
  cases step with
  | post m payload =>
      obtain ⟨queued', n', hnext⟩ := h.post hstep
      exact ⟨queued', packets, n', hnext, fun hpost => by cases hpost⟩
  | send i chunk =>
      have hi : i < s.outboxes.length := by
        by_contra hout
        rw [NetworkState.exec, List.getElem?_eq_none (by omega)] at hstep
        cases hstep
      obtain ⟨next, queued', packets', n', hexec, hnext, hless⟩ := h.send hgraph hi chunk
      rw [hstep] at hexec
      cases hexec
      exact ⟨queued', packets', n', hnext, fun _ => hless⟩
  | receive i inbox outgoing =>
      have hi : i < s.inFlight.length := by
        by_contra hout
        rw [NetworkState.exec, List.getElem?_eq_none (by omega)] at hstep
        cases hstep
      obtain ⟨next, queued', packets', n', hexec, hnext, hless⟩ :=
        h.receive hgraph hi inbox outgoing
      rw [hstep] at hexec
      cases hexec
      exact ⟨queued', packets', n', hnext, fun _ => hless⟩

theorem routedNetwork_inductive (hgraph : LeadsAlongEdges size router distance)
    (doChecksum : Bool) :
    (routedNetwork size router doChecksum).Inductive fun s =>
      ∃ queued packets n, InTransit size router doChecksum distance s queued packets n := by
  refine ⟨fun s hs => ?_, fun s step s' h hstep => ?_⟩
  · rw [show s = NetworkState.empty from hs]
    exact ⟨[], [], 0, empty_inTransit⟩
  · obtain ⟨queued, packets, n, h⟩ := h
    obtain ⟨queued', packets', n', hnext, _⟩ := h.step hgraph hstep
    exact ⟨queued', packets', n', hnext⟩

/-- Without new messages there are at most as many steps as there is work. -/
theorem InTransit.bounded (h : InTransit size router doChecksum distance s queued packets n)
    (hgraph : LeadsAlongEdges size router distance) {steps : List NetworkStep}
    (hsteps : ∀ step ∈ steps, step.isPost = false)
    (hrun : runAll (NetworkState.exec size router doChecksum) s steps = some s') :
    steps.length ≤ n := by
  induction steps generalizing s queued packets n with
  | nil => exact Nat.zero_le n
  | cons step steps ih =>
      rw [runAll, Option.bind_eq_some_iff] at hrun
      obtain ⟨next, hstep, hrun⟩ := hrun
      obtain ⟨queued', packets', n', hnext, hless⟩ := h.step hgraph hstep
      have hlength := ih hnext (fun step hstep => hsteps step (List.mem_cons_of_mem _ hstep)) hrun
      have hwork := hless (hsteps step List.mem_cons_self)
      rw [List.length_cons]
      omega

/-- What routing owes to the applications. -/
structure EndToEnd (graph : ConnectionGraph) (s : NetworkState) : Prop where
  /-- every physical send goes over a connection of the graph -/
  edges : ∀ packet ∈ s.inFlight, graph.isConnected packet.source packet.destination = true
  /-- only the final destination dispatches a message -/
  destinations : ∀ d ∈ s.dispatched, d.rank = d.message.destination
  /-- the letters dispatched are those posted, but for one for each message in transit -/
  conserved : ∃ pending : List Letter,
    pending.length = s.outboxes.length + s.inFlight.length ∧
      s.posted.Perm (pending ++ s.dispatched.map Delivery.letter)

/-- Routed delivery is transparent in every run: what is dispatched is what was
posted, over edges only; nothing in transit is ever stuck, and without new messages
everything is delivered after finitely many steps. -/
theorem routedNetwork_endToEnd (size : Int32) (graph : ConnectionGraph)
    (distance : Rank → Rank → Nat) (doChecksum : Bool)
    (hgraph : LeadsAlongEdges size { enabled := true, graph := graph } distance)
    (s : NetworkState)
    (hs : (routedNetwork size { enabled := true, graph := graph } doChecksum).Reachable s) :
    EndToEnd graph s ∧
      (∀ i < s.outboxes.length, ∀ chunk, ∃ s',
        (routedNetwork size { enabled := true, graph := graph } doChecksum).step s
          (.send i chunk) s') ∧
      (∀ i < s.inFlight.length, ∀ inbox outgoing, ∃ s',
        (routedNetwork size { enabled := true, graph := graph } doChecksum).step s
          (.receive i inbox outgoing) s') ∧
      ∃ n, ∀ steps s', (∀ step ∈ steps, step.isPost = false) →
        runAll (NetworkState.exec size { enabled := true, graph := graph } doChecksum) s steps =
          some s' → steps.length ≤ n := by
  obtain ⟨queued, packets, n, h⟩ := (routedNetwork_inductive hgraph doChecksum).holds hs
  refine ⟨⟨fun packet hpacket => ?_, h.dispatched, ?_⟩, fun i hi chunk => ?_,
    fun i hi inbox outgoing => ?_, n, fun steps s' hsteps hrun => h.bounded hgraph hsteps hrun⟩
  · rw [h.inFlight, List.mem_map] at hpacket
    obtain ⟨t, ht, rfl⟩ := hpacket
    obtain ⟨_, sent, honWire⟩ := h.transports t ht
    have hedge := honWire.leg.edge
    rw [honWire.source, honWire.destination]
    simpa [reaches] using hedge
  · refine ⟨queued.map Prod.snd ++ packets.map Prod.snd, ?_, h.conserved⟩
    rw [h.outboxes, h.inFlight]
    simp
  · obtain ⟨s', _, _, _, hexec, _⟩ := h.send hgraph hi chunk
    exact ⟨s', hexec⟩
  · obtain ⟨s', _, _, _, hexec, _⟩ := h.receive hgraph hi inbox outgoing
    exact ⟨s', hexec⟩

/-! ## A ring of three ranks -/

def ringGraph : ConnectionGraph :=
  { isConnected := fun source destination => decide (destination = (source + 1) % 3)
    getNextRankInRoute := fun _ _ rank => (rank + 1) % 3 }

def ringDistance (destination rank : Rank) : Nat :=
  ((destination - rank + 3) % 3).toInt.toNat

theorem isRank_three {rank : Rank} (h : IsRank 3 rank) : rank = 0 ∨ rank = 1 ∨ rank = 2 := by
  obtain ⟨hge, hlt⟩ := h
  rw [Int32.le_iff_toInt_le] at hge
  rw [Int32.lt_iff_toInt_lt] at hlt
  simp only [← Int32.toInt_inj]
  have hzero : (0 : Int32).toInt = 0 := rfl
  have hone : (1 : Int32).toInt = 1 := rfl
  have htwo : (2 : Int32).toInt = 2 := rfl
  have hthree : (3 : Int32).toInt = 3 := rfl
  omega

theorem ringGraph_leads :
    LeadsAlongEdges 3 { enabled := true, graph := ringGraph } ringDistance := by
  refine ⟨fun _ _ rank _ _ hrank => ?_, fun _ _ rank _ _ hrank _ _ => ?_,
    fun _ destination rank _ hdestination hrank _ hne => ?_⟩
  · show IsRank 3 ((rank + 1) % 3)
    rcases isRank_three hrank with rfl | rfl | rfl <;> exact ⟨by decide, by decide⟩
  · exact decide_eq_true rfl
  · show ringDistance destination ((rank + 1) % 3) < ringDistance destination rank
    rcases isRank_three hdestination with rfl | rfl | rfl <;>
      rcases isRank_three hrank with rfl | rfl | rfl <;>
      first
        | exact absurd rfl hne
        | decide

theorem routedNetwork_endToEnd_ring : EndToEnd ringGraph
    { outboxes := [{ rank := 0, message := Message.new 2 2 5 0, payload := [7, 8] }]
      inFlight := []
      posted := [letterOf (Message.new 2 2 5 0) [7, 8]]
      dispatched := [] } := by
  refine (routedNetwork_endToEnd 3 ringGraph ringDistance true ringGraph_leads _ ?_).1
  have hvalid : (letterOf (Message.new 2 2 5 0) [7, 8]).Valid 3 := by decide
  refine .step (l := .post (Message.new 2 2 5 0) [7, 8]) (.init rfl) ?_
  show NetworkState.exec 3 _ true .empty _ = some _
  rw [NetworkState.exec, if_pos ⟨rfl, hvalid⟩]
  rfl

end RayPlatform
