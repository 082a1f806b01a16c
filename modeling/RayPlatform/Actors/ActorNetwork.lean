import RayPlatform.Actors.PlaygroundTable
import RayPlatform.Communication.MessageRouter
import RayPlatform.Lib.TransitionSystem

/-!
# Actors on many ranks

The playgrounds of all ranks and the messages between them, delivered in any order.
`births` is the history: which rank gave which name to the actor of which slot.

* `give` — a rank receives a message: its actor spawns, sends and dies; `bootActors` and
  the delivery of a message both end there;
* `decode`, `encode` — a name is made of a rank and a slot;
* `actorSystem_sound` — names, delivery and counters, in every reachable state whose
  names fit in an `int`.
-/

namespace RayPlatform

open Lib (TransitionSystem)
open MessageRouter (IsRank)

/-! ## The network -/

/-- The rank of a job of `size` ranks. -/
def jobOf {size : Int32} (hsize : 0 < size) (rank : Rank) : RankOfJob :=
  { rank := rank, size := size, size_pos := hsize }

instance (size : Int32) (rank : Rank) : Decidable (IsRank size rank) :=
  inferInstanceAs (Decidable (_ ∧ _))

structure ActorNetwork (α : Type) where
  playgrounds : Rank → Playground α
  inFlight : List Message
  births : List Birth

inductive ActorStep (α : Type)
  /-- a spawn at start-up -/
  | spawn (rank : Rank) (actor : α)
  | boot (rank : Rank)
  | send (message : Message)
  /-- message `i` in flight arrives -/
  | deliver (i : Nat)

namespace ActorNetwork

section

variable {α : Type} {size : Int32} (hsize : 0 < size) (receive : Actor α → Message → Received α)

def start : ActorNetwork α :=
  { playgrounds := fun _ => .constructor, inFlight := [], births := [] }

def spawn (s : ActorNetwork α) (rank : Rank) (actor : α) : ActorNetwork α :=
  let p := s.playgrounds rank
  { s with
    playgrounds := Function.update s.playgrounds rank (p.spawnActor (jobOf hsize rank) actor)
    births := s.births ++ [p.birth (jobOf hsize rank)] }

/-- `receiveActorMessage` on a rank, and the actor that receives. -/
def give (s : ActorNetwork α) (rank : Rank) (message : Message) :
    Option (ActorNetwork α × Option (Rank × Actor α)) :=
  let p := s.playgrounds rank
  (p.receiveActorMessage receive (jobOf hsize rank) message).map fun (p', sent, slot) =>
    ({ playgrounds := Function.update s.playgrounds rank p'
       inFlight := s.inFlight ++ sent
       births := s.births ++ p.receiveBirths receive (jobOf hsize rank) message },
      slot.bind fun slot => (p.actorAt slot).map fun actor => (rank, actor))

/-- The message that boots an actor. -/
def bootMessage (rank : Rank) (name : Int32) : Message :=
  { Message.new 0 rank Actor.BOOT rank with sourceActor := name, destinationActor := name }

/-- `for(int i = 0 ; i < toBoot ; ++i)` -/
def bootFrom (rank : Rank) : Nat → Nat → ActorNetwork α → Option (ActorNetwork α)
  | 0, _, s => some s
  | fuel + 1, i, s =>
      match ((s.playgrounds rank).actors[i]?).join with
      | none => bootFrom rank fuel (i + 1) s
      | some actor =>
          (s.give hsize receive rank (bootMessage rank actor.name)).bind fun r =>
            bootFrom rank fuel (i + 1) r.1

def bootActors (s : ActorNetwork α) (rank : Rank) : Option (ActorNetwork α) :=
  bootFrom hsize receive rank (s.playgrounds rank).actors.length 0 s

/-- The arrival of a message at its rank: only an actor message gets to the playground. -/
def deliver (s : ActorNetwork α) (i : Nat) :
    Option (ActorNetwork α × Option (Rank × Actor α)) := do
  let message ← s.inFlight[i]?
  let s := { s with inFlight := s.inFlight.eraseIdx i }
  if IsRank size message.destination then
    if message.isActorModelMessage size then s.give hsize receive message.destination message
    else some (s, none)
  else none

def exec (s : ActorNetwork α) : ActorStep α → Option (ActorNetwork α)
  | .spawn rank actor => if IsRank size rank then some (s.spawn hsize rank actor) else none
  | .boot rank => if IsRank size rank then s.bootActors hsize receive rank else none
  | .send message =>
      some { s with
        inFlight := s.inFlight ++ [Playground.sendActorMessage (jobOf hsize message.source) message] }
  | .deliver i => (s.deliver hsize receive i).map Prod.fst

end

end ActorNetwork

/-- The runs of the actors of a job. -/
def actorSystem {α : Type} {size : Int32} (hsize : 0 < size)
    (receive : Actor α → Message → Received α) : TransitionSystem (ActorNetwork α) (ActorStep α) :=
  .ofExec .start (ActorNetwork.exec hsize receive)

namespace ActorNetwork

variable {α : Type} {size : Int32} {hsize : 0 < size} {receive : Actor α → Message → Received α}
  {s s' : ActorNetwork α}

/-- The names of all slots are `int`s. -/
def NamesFit (hsize : 0 < size) (s : ActorNetwork α) : Prop :=
  ∀ rank, IsRank size rank → (s.playgrounds rank).NamesFit (jobOf hsize rank)

/-- A slot of a rank holds a living actor. -/
def Lives (size : Int32) (s : ActorNetwork α) (rank : Rank) (slot : Nat) (actor : Actor α) : Prop :=
  IsRank size rank ∧ (s.playgrounds rank).actors[slot]? = some (some actor)

structure Inv (hsize : 0 < size) (s : ActorNetwork α) : Prop where
  sound : ∀ rank, IsRank size rank → (s.playgrounds rank).Sound (jobOf hsize rank)
  births : ∀ b ∈ s.births, IsRank size b.rank ∧
    Playground.IsName (jobOf hsize b.rank) b.slot b.name ∧
    b.slot < (s.playgrounds b.rank).actors.length
  nodup : (s.births.map fun b => (b.rank, b.slot)).Nodup
  recorded : ∀ rank slot actor, s.Lives size rank slot actor → ⟨rank, slot, actor.name⟩ ∈ s.births
  addressed : ∀ m ∈ s.inFlight,
    m.destination = Playground.getActorRank (jobOf hsize m.source) m.destinationActor

/-! ## Steps -/

theorem toInt_nonneg_of_isRank {rank : Rank} (h : IsRank size rank) : 0 ≤ rank.toInt :=
  Int32.le_iff_toInt_le.mp h.1

/-- One rank steps. -/
theorem Inv.update (h : s.Inv hsize) {rank : Rank} (hrank : IsRank size rank)
    {p' : Playground α} {born : List Birth} {sent : List Message}
    (hstep : Playground.Stepped (jobOf hsize rank) (s.playgrounds rank) p' born)
    (hsent : ∀ m ∈ sent,
      m.destination = Playground.getActorRank (jobOf hsize rank) m.destinationActor) :
    Inv hsize
      { playgrounds := Function.update s.playgrounds rank p'
        inFlight := s.inFlight ++ sent
        births := s.births ++ born } := by
  have hself : Function.update s.playgrounds rank p' rank = p' := Function.update_self _ _ _
  have hother : ∀ r, r ≠ rank → Function.update s.playgrounds rank p' r = s.playgrounds r :=
    fun r hr => Function.update_of_ne hr _ _
  have hle : ∀ r, (s.playgrounds r).actors.length ≤
      (Function.update s.playgrounds rank p' r).actors.length := by
    intro r
    by_cases hr : r = rank
    · subst hr
      rw [hself]
      exact hstep.length_le
    · rw [hother r hr]
  refine ⟨fun r hr => ?_, fun b hb => ?_, ?_, fun r slot actor hlives => ?_, fun m hm => ?_⟩
  · by_cases hrr : r = rank
    · subst hrr
      dsimp only
      rw [hself]
      exact hstep.sound
    · dsimp only
      rw [hother r hrr]
      exact h.sound r hr
  · rcases List.mem_append.mp hb with hb | hb
    · obtain ⟨hr, hname, hslot⟩ := h.births b hb
      exact ⟨hr, hname, Nat.lt_of_lt_of_le hslot (hle b.rank)⟩
    · obtain ⟨hr, hname⟩ := hstep.names b hb
      have hbrank : b.rank = rank := hr
      have hslot := (hstep.slots b hb).2
      dsimp only
      rw [hbrank, hself]
      exact ⟨hrank, hname, hslot⟩
  · rw [List.map_append]
    refine List.nodup_append.mpr ⟨h.nodup, ?_, fun x hx y hy => ?_⟩
    · refine List.Pairwise.map _ (fun b b' hne heq => hne ?_)
        (List.pairwise_map.mp hstep.nodup)
      exact congrArg Prod.snd heq
    · rintro rfl
      obtain ⟨b, hb, rfl⟩ := List.mem_map.mp hx
      obtain ⟨b', hb', heq⟩ := List.mem_map.mp hy
      obtain ⟨hrank', hslot'⟩ := Prod.mk.inj heq
      have hbrank : b'.rank = rank := (hstep.names b' hb').1
      have hlt := (h.births b hb).2.2
      have hge := (hstep.slots b' hb').1
      rw [← hrank', hbrank] at hlt
      omega
  · obtain ⟨hr, hactor⟩ := hlives
    dsimp only at hactor
    by_cases hrr : r = rank
    · subst hrr
      rw [hself] at hactor
      by_cases hslot : slot < (s.playgrounds r).actors.length
      · obtain ⟨before, hbefore, hname⟩ := hstep.keeps slot hslot actor hactor
        rw [hname]
        exact List.mem_append_left _ (h.recorded r slot before ⟨hr, hbefore⟩)
      · exact List.mem_append_right _ (hstep.recorded slot actor (Nat.le_of_not_lt hslot) hactor)
    · rw [hother r hrr] at hactor
      exact List.mem_append_left _ (h.recorded r slot actor ⟨hr, hactor⟩)
  · rcases List.mem_append.mp hm with hm | hm
    · exact h.addressed m hm
    · exact hsent m hm

/-- What a rank does with a message. -/
theorem give_cases {rank : Rank} {message : Message} {r : ActorNetwork α × Option (Rank × Actor α)}
    (h : s.give hsize receive rank message = some r) :
    ∃ result, Playground.ReceiveResult receive (jobOf hsize rank) (s.playgrounds rank) message
        result ∧
      r.1 =
        { playgrounds := Function.update s.playgrounds rank result.1
          inFlight := s.inFlight ++ result.2.1
          births := s.births ++
            (s.playgrounds rank).receiveBirths receive (jobOf hsize rank) message } ∧
      r.2 = ((s.playgrounds rank).receiver (jobOf hsize rank) message).map
        fun actor => (rank, actor) := by
  obtain ⟨result, hreceive, rfl⟩ := Option.map_eq_some_iff.mp h
  have hcases := Playground.receiveActorMessage_cases hreceive
  refine ⟨result, hcases, rfl, ?_⟩
  cases hcases with
  | dropped hnobody =>
      rw [hnobody]
      rfl
  | received actor hactor =>
      rw [hactor]
      have hat : (s.playgrounds rank).actorAt (Playground.slotOf (jobOf hsize rank)
          message.destinationActor) = some actor := hactor
      exact congrArg (Option.map fun actor => (rank, actor)) hat

/-- No table gets shorter. -/
def Grows (s s' : ActorNetwork α) : Prop :=
  ∀ rank, (s.playgrounds rank).actors.length ≤ (s'.playgrounds rank).actors.length

theorem grows_update {rank : Rank} {p' : Playground α}
    (hle : (s.playgrounds rank).actors.length ≤ p'.actors.length)
    (hs' : s'.playgrounds = Function.update s.playgrounds rank p') : s.Grows s' := by
  intro r
  rw [hs']
  by_cases hr : r = rank
  · subst hr
    rw [Function.update_self]
    exact hle
  · rw [Function.update_of_ne hr]

theorem Grows.namesFit (h : s.Grows s') (hfit : s'.NamesFit hsize) : s.NamesFit hsize :=
  fun rank hrank => (hfit rank hrank).mono (h rank)

theorem grows_give {rank : Rank} {message : Message} {r : ActorNetwork α × Option (Rank × Actor α)}
    (h : s.give hsize receive rank message = some r) : s.Grows r.1 := by
  obtain ⟨result, hresult, heq, -⟩ := give_cases h
  exact grows_update hresult.length_le (congrArg playgrounds heq)

theorem Inv.give (h : s.Inv hsize) {rank : Rank} (hrank : IsRank size rank) {message : Message}
    {r : ActorNetwork α × Option (Rank × Actor α)}
    (hgive : s.give hsize receive rank message = some r) (hfit : r.1.NamesFit hsize) :
    r.1.Inv hsize := by
  obtain ⟨result, hresult, heq, -⟩ := give_cases hgive
  rw [heq] at hfit ⊢
  have hfit' := hfit rank hrank
  dsimp only at hfit'
  rw [Function.update_self] at hfit'
  exact h.update hrank (hresult.stepped (h.sound rank hrank) (toInt_nonneg_of_isRank hrank) hfit')
    hresult.addressed

theorem grows_bootFrom {rank : Rank} (fuel i : Nat)
    (h : bootFrom hsize receive rank fuel i s = some s') : s.Grows s' := by
  induction fuel generalizing i s with
  | zero =>
      cases h
      exact fun _ => Nat.le_refl _
  | succ fuel ih =>
      rw [bootFrom] at h
      split at h
      · exact ih (i + 1) h
      · obtain ⟨r, hgive, hrest⟩ := Option.bind_eq_some_iff.mp h
        exact fun rank => Nat.le_trans (grows_give hgive rank) (ih (i + 1) hrest rank)

/-- The invariant along the boot of a rank. -/
theorem Inv.bootFrom (h : s.Inv hsize) {rank : Rank} (hrank : IsRank size rank) (fuel i : Nat)
    (hboot : ActorNetwork.bootFrom hsize receive rank fuel i s = some s')
    (hfit : s'.NamesFit hsize) : s'.Inv hsize := by
  induction fuel generalizing i s with
  | zero =>
      cases hboot
      exact h
  | succ fuel ih =>
      rw [ActorNetwork.bootFrom] at hboot
      split at hboot
      · exact ih h (i + 1) hboot
      · obtain ⟨r, hgive, hrest⟩ := Option.bind_eq_some_iff.mp hboot
        exact ih (h.give hrank hgive ((grows_bootFrom fuel (i + 1) hrest).namesFit hfit)) (i + 1)
          hrest

/-- What the arrival of a message does. -/
theorem deliver_cases {i : Nat} {r : ActorNetwork α × Option (Rank × Actor α)}
    (h : s.deliver hsize receive i = some r) :
    ∃ m, s.inFlight[i]? = some m ∧ IsRank size m.destination ∧
      (m.isActorModelMessage size = true ∧
          ({ s with inFlight := s.inFlight.eraseIdx i } : ActorNetwork α).give hsize receive
            m.destination m = some r ∨
        m.isActorModelMessage size = false ∧
          r = ({ s with inFlight := s.inFlight.eraseIdx i }, none)) := by
  obtain ⟨m, hm, h⟩ := Option.bind_eq_some_iff.mp h
  dsimp only at h
  split at h
  · rename_i hrank
    refine ⟨m, hm, hrank, ?_⟩
    split at h
    · rename_i hactor
      exact .inl ⟨hactor, h⟩
    · rename_i hactor
      cases h
      exact .inr ⟨Bool.eq_false_iff.mpr hactor, rfl⟩
  · cases h

theorem grows_exec {step : ActorStep α} (h : s.exec hsize receive step = some s') :
    s.Grows s' := by
  cases step with
  | spawn rank actor =>
      rw [exec] at h
      split at h
      · cases h
        exact grows_update (Playground.prefix_spawnActor _ _ actor).length_le rfl
      · cases h
  | boot rank =>
      rw [exec] at h
      split at h
      · exact grows_bootFrom _ _ h
      · cases h
  | send message =>
      cases h
      exact fun _ => Nat.le_refl _
  | deliver i =>
      obtain ⟨r, hdeliver, rfl⟩ := Option.map_eq_some_iff.mp h
      obtain ⟨m, -, -, ⟨-, hgive⟩ | ⟨-, rfl⟩⟩ := deliver_cases hdeliver
      · have hgrows := grows_give hgive
        exact hgrows
      · exact fun _ => Nat.le_refl _

theorem Inv.exec (h : s.Inv hsize) {step : ActorStep α}
    (hexec : s.exec hsize receive step = some s') (hfit : s'.NamesFit hsize) : s'.Inv hsize := by
  cases step with
  | spawn rank actor =>
      rw [ActorNetwork.exec] at hexec
      split at hexec
      · rename_i hrank
        cases hexec
        have hfit' := hfit rank hrank
        dsimp only [spawn] at hfit'
        rw [Function.update_self] at hfit'
        have hstep := (h.sound rank hrank).spawnActor (toInt_nonneg_of_isRank hrank) actor hfit'
        have hnone : ∀ m ∈ ([] : List Message), m.destination =
            Playground.getActorRank (jobOf hsize rank) m.destinationActor := fun m hm => (nomatch hm)
        have hinv := h.update hrank hstep hnone
        rwa [List.append_nil] at hinv
      · cases hexec
  | boot rank =>
      rw [ActorNetwork.exec] at hexec
      split at hexec
      · rename_i hrank
        exact h.bootFrom hrank _ _ hexec hfit
      · cases hexec
  | send message =>
      cases hexec
      refine ⟨h.sound, h.births, h.nodup, h.recorded, fun m hm => ?_⟩
      rcases List.mem_append.mp hm with hm | hm
      · exact h.addressed m hm
      · rw [List.mem_singleton.mp hm]
        rfl
  | deliver i =>
      obtain ⟨r, hdeliver, rfl⟩ := Option.map_eq_some_iff.mp hexec
      have herase : Inv hsize { s with inFlight := s.inFlight.eraseIdx i } :=
        ⟨h.sound, h.births, h.nodup, h.recorded,
          fun m hm => h.addressed m (List.mem_of_mem_eraseIdx hm)⟩
      obtain ⟨m, -, hrank, ⟨-, hgive⟩ | ⟨-, rfl⟩⟩ := deliver_cases hdeliver
      · exact herase.give hrank hgive hfit
      · exact herase

/-- A name decodes to the rank and the slot that it was given for. -/
theorem decode {rank : Rank} (hrank : IsRank size rank) {slot : Nat} {name : Int32}
    (hname : Playground.IsName (jobOf hsize rank) slot name) (job : RankOfJob)
    (hjob : job.size = size) :
    Playground.getActorRank job name = rank ∧ (Playground.slotOf job name).toInt = slot ∧
      size.toInt ≤ name.toInt := by
  obtain ⟨hslot, hint⟩ := hname
  have hint : name.toInt = rank.toInt + slot * size.toInt := hint
  have hnonneg := toInt_nonneg_of_isRank hrank
  have hlt := Int32.lt_iff_toInt_lt.mp hrank.2
  have hle : 1 * size.toInt ≤ slot * size.toInt :=
    Int.mul_le_mul_of_nonneg_right (by omega) (by omega)
  have hne : name ≠ Int32.minValue := by
    rintro rfl
    have hmin : Int32.minValue.toInt = -2147483648 := rfl
    omega
  refine ⟨?_, ?_, by omega⟩
  · rw [Playground.getActorRank, hjob, ← Int32.toInt_inj, Int32.toInt_mod,
      Int.tmod_eq_emod_of_nonneg (by omega), hint, Int.add_mul_emod_self_right,
      Int.emod_eq_of_lt hnonneg hlt]
  · rw [Playground.slotOf, hjob, Int32.toInt_div_of_ne_left _ _ hne,
      Int.tdiv_eq_ediv_of_nonneg (by omega), hint, Int.add_mul_ediv_right _ _ (by omega),
      Int.ediv_eq_zero_of_lt hnonneg hlt, Int.zero_add]

/-- A name is made of its rank and its slot. -/
theorem encode (hsize : 0 < size) {name : Int32} (hname : 0 ≤ name.toInt) (job : RankOfJob)
    (hjob : job.size = size) :
    IsRank size (Playground.getActorRank job name) ∧ 0 ≤ (Playground.slotOf job name).toInt ∧
      name.toInt = (Playground.getActorRank job name).toInt +
        (Playground.slotOf job name).toInt * size.toInt := by
  have hpos : 0 < size.toInt := Int32.lt_iff_toInt_lt.mp hsize
  have hne : name ≠ Int32.minValue := by
    rintro rfl
    have hmin : Int32.minValue.toInt = -2147483648 := rfl
    omega
  have hrank : (Playground.getActorRank job name).toInt = name.toInt % size.toInt := by
    rw [Playground.getActorRank, hjob, Int32.toInt_mod, Int.tmod_eq_emod_of_nonneg hname]
  have hslot : (Playground.slotOf job name).toInt = name.toInt / size.toInt := by
    rw [Playground.slotOf, hjob, Int32.toInt_div_of_ne_left _ _ hne,
      Int.tdiv_eq_ediv_of_nonneg hname]
  refine ⟨⟨?_, ?_⟩, ?_, ?_⟩
  · rw [Int32.le_iff_toInt_le, hrank]
    exact Int.emod_nonneg _ (by omega)
  · rw [Int32.lt_iff_toInt_lt, hrank]
    exact Int.emod_lt_of_pos _ hpos
  · rw [hslot]
    exact Int.ediv_nonneg hname (by omega)
  · rw [hrank, hslot, Int.mul_comm]
    exact (Int.emod_add_mul_ediv _ _).symm

end ActorNetwork

/-! ## Runs -/

open ActorNetwork

/-- Names, delivery and counters of a job of actors. -/
structure NamingSound {α : Type} {size : Int32} (hsize : 0 < size)
    (receive : Actor α → Message → Received α) (s : ActorNetwork α) : Prop where
  /-- no name is given twice -/
  distinct : (s.births.map Birth.name).Nodup
  decodes : ∀ b ∈ s.births, ∀ rank, Playground.getActorRank (jobOf hsize rank) b.name = b.rank ∧
    (Playground.slotOf (jobOf hsize rank) b.name).toInt = b.slot ∧
    b.slot < (s.playgrounds b.rank).actors.length ∧
    ∀ actor, s.Lives size b.rank b.slot actor → actor.name = b.name
  recorded : ∀ rank slot actor, s.Lives size rank slot actor → ⟨rank, slot, actor.name⟩ ∈ s.births
  delivers : ∀ i m, s.inFlight[i]? = some m → 0 ≤ m.destinationActor →
    ∃ s' receiver, s.deliver hsize receive i = some (s', receiver) ∧
      (∀ rank actor, receiver = some (rank, actor) ↔
        (∃ slot, s.Lives size rank slot actor) ∧ actor.name = m.destinationActor) ∧
      (receiver = none → s' = { s with inFlight := s.inFlight.eraseIdx i })
  alive : ∀ rank, IsRank size rank → (s.playgrounds rank).aliveActors =
    (s.playgrounds rank).actors.countP Option.isSome
  born : ∀ rank, IsRank size rank → (s.playgrounds rank).bornActors =
    (s.playgrounds rank).aliveActors + (s.playgrounds rank).deadActors

namespace ActorNetwork

variable {α : Type} {size : Int32} {hsize : 0 < size} {receive : Actor α → Message → Received α}
  {s : ActorNetwork α}

/-- Who lives behind a name is the actor of its slot on its rank. -/
theorem Inv.lives_iff (h : s.Inv hsize) {name : Int32} (hname : 0 ≤ name.toInt) (job : RankOfJob)
    (hjob : job.size = size) (rank : Rank) (actor : Actor α) :
    ((∃ slot, s.Lives size rank slot actor) ∧ actor.name = name) ↔
      rank = Playground.getActorRank job name ∧
        (s.playgrounds rank).actorAt (Playground.slotOf job name) = some actor := by
  obtain ⟨hisRank, hslot, henc⟩ := encode hsize hname job hjob
  constructor
  · rintro ⟨⟨slot, hrank, hactor⟩, rfl⟩
    obtain ⟨hdecode, hdecodeSlot, -⟩ :=
      decode hrank ((h.sound rank hrank).names slot actor hactor) job hjob
    refine ⟨hdecode.symm, ?_⟩
    rw [Playground.actorAt, hdecodeSlot, Option.join_eq_some_iff]
    exact hactor
  · rintro ⟨rfl, hactor⟩
    rw [Playground.actorAt, Option.join_eq_some_iff] at hactor
    refine ⟨⟨_, hisRank, hactor⟩, ?_⟩
    obtain ⟨-, hint⟩ := (h.sound _ hisRank).names _ actor hactor
    rw [← Int32.toInt_inj, hint, henc]
    show (Playground.getActorRank job name).toInt +
      ((Playground.slotOf job name).toInt.toNat : Int) * size.toInt = _
    rw [Int.toNat_of_nonneg hslot]

theorem Inv.delivers (h : s.Inv hsize) {i : Nat} {m : Message} (hi : s.inFlight[i]? = some m)
    (hm : 0 ≤ m.destinationActor) :
    ∃ s' receiver, s.deliver hsize receive i = some (s', receiver) ∧
      (∀ rank actor, receiver = some (rank, actor) ↔
        (∃ slot, s.Lives size rank slot actor) ∧ actor.name = m.destinationActor) ∧
      (receiver = none → s' = { s with inFlight := s.inFlight.eraseIdx i }) := by
  have hname : 0 ≤ m.destinationActor.toInt := Int32.le_iff_toInt_le.mp hm
  have hdestination := h.addressed m (List.mem_of_getElem? hi)
  have hiff := h.lives_iff hname (jobOf hsize m.destination) rfl
  obtain ⟨hrank, hslot, henc⟩ := encode hsize hname (jobOf hsize m.destination) rfl
  have hdest : m.destination =
      Playground.getActorRank (jobOf hsize m.destination) m.destinationActor := hdestination
  rw [← hdest] at hrank
  obtain ⟨erased, herased⟩ : ∃ erased : ActorNetwork α,
      erased = { s with inFlight := s.inFlight.eraseIdx i } := ⟨_, rfl⟩
  have hplaygrounds : erased.playgrounds = s.playgrounds := by rw [herased]
  cases hactor : m.isActorModelMessage size with
  | true =>
      have hdeliver : s.deliver hsize receive i =
          erased.give hsize receive m.destination m := by
        rw [deliver, hi, herased]
        show (if _ then _ else _) = _
        rw [if_pos hrank, if_pos hactor]
      have hactor' : m.isActorModelMessage (jobOf hsize m.destination).size = true := hactor
      obtain ⟨p', sent, hreceive⟩ :=
        Playground.receiveActorMessage_spec receive (s.playgrounds m.destination) hactor'
      obtain ⟨r, hgive⟩ : ∃ r, erased.give hsize receive m.destination m = some r := by
        rw [ActorNetwork.give, hplaygrounds, hreceive]
        exact ⟨_, rfl⟩
      obtain ⟨result, hresult, hnetwork, hreceiver⟩ := give_cases hgive
      rw [hplaygrounds] at hresult hnetwork hreceiver
      refine ⟨r.1, r.2, hdeliver.trans hgive, fun rank actor => ?_, fun hnone => ?_⟩
      · rw [hiff, hreceiver, Option.map_eq_some_iff]
        constructor
        · rintro ⟨_, hat, heq⟩
          cases heq
          exact ⟨hdest, hat⟩
        · rintro ⟨hrankEq, hat⟩
          rw [← hdest] at hrankEq
          subst hrankEq
          exact ⟨actor, hat, rfl⟩
      · rw [hreceiver, Option.map_eq_none_iff] at hnone
        rw [hnetwork, herased]
        cases hresult with
        | dropped _ =>
            rw [Playground.receiveBirths, hnone, Function.update_eq_self]
            simp only [List.append_nil]
        | received actor hat =>
            rw [hnone] at hat
            cases hat
  | false =>
      have hdeliver : s.deliver hsize receive i = some (erased, none) := by
        rw [deliver, hi, herased]
        show (if _ then _ else _) = _
        rw [if_pos hrank, hactor]
        rfl
      -- no actor has the name of a rank
      have hlow : m.destinationActor.toInt < size.toInt := by
        rw [Message.isActorModelMessage, Bool.not_eq_false', decide_eq_true_iff,
          Int32.lt_iff_toInt_lt] at hactor
        exact hactor
      refine ⟨erased, none, hdeliver, fun rank actor =>
        ⟨fun hsome => absurd hsome.symm (Option.some_ne_none _), ?_⟩, fun _ => herased⟩
      rintro ⟨⟨slot, hlives, hget⟩, heq⟩
      have hge := (decode hlives ((h.sound rank hlives).names slot actor hget)
        (jobOf hsize rank) rfl).2.2
      rw [heq] at hge
      omega

theorem Inv.namingSound (h : s.Inv hsize) : NamingSound hsize receive s := by
  have hdecode : ∀ b ∈ s.births, ∀ rank,
      Playground.getActorRank (jobOf hsize rank) b.name = b.rank ∧
        (Playground.slotOf (jobOf hsize rank) b.name).toInt = b.slot := by
    intro b hb rank
    obtain ⟨hrank, hname, -⟩ := h.births b hb
    obtain ⟨hdecodeRank, hdecodeSlot, -⟩ := decode hrank hname (jobOf hsize rank) rfl
    exact ⟨hdecodeRank, hdecodeSlot⟩
  refine ⟨?_, fun b hb rank => ?_, h.recorded, fun i m hi hm => h.delivers hi hm,
    fun rank hrank => (h.sound rank hrank).alive, fun rank hrank => (h.sound rank hrank).born⟩
  · refine List.pairwise_map.mpr ((List.pairwise_map.mp h.nodup).imp_of_mem ?_)
    intro b b' hb hb' hne hname
    obtain ⟨hrank, hslot⟩ := hdecode b hb 0
    obtain ⟨hrank', hslot'⟩ := hdecode b' hb' 0
    rw [hname, hrank'] at hrank
    rw [hname, hslot'] at hslot
    exact hne (Prod.ext hrank.symm (Int.ofNat.inj hslot).symm)
  · obtain ⟨hrank, hname, hlt⟩ := h.births b hb
    obtain ⟨hdecodeRank, hdecodeSlot⟩ := hdecode b hb rank
    refine ⟨hdecodeRank, hdecodeSlot, hlt, fun actor hlives => ?_⟩
    obtain ⟨-, hint⟩ := (h.sound b.rank hrank).names b.slot actor hlives.2
    rw [← Int32.toInt_inj, hint, hname.2]

end ActorNetwork

theorem actorSystem_inductive {α : Type} {size : Int32} (hsize : 0 < size)
    (receive : Actor α → Message → Received α) :
    (actorSystem hsize receive).Inductive fun s => s.NamesFit hsize → s.Inv hsize := by
  refine ⟨fun s hinit _ => ?_, fun s step s' h hexec hfit => ?_⟩
  · obtain rfl : s = _ := hinit
    exact
      { sound := fun rank _ => ⟨rfl, fun i actor hactor => (nomatch hactor), rfl, rfl⟩
        births := fun _ hb => (nomatch hb)
        nodup := List.nodup_nil
        recorded := fun _ _ _ hlives => (nomatch hlives.2)
        addressed := fun _ hm => (nomatch hm) }
  · exact (h ((grows_exec hexec).namesFit hfit)).exec hexec hfit

/-- In every state that a job can reach and whose names are `int`s. -/
theorem actorSystem_sound {α : Type} {size : Int32} (hsize : 0 < size)
    (receive : Actor α → Message → Received α) {s : ActorNetwork α}
    (hs : (actorSystem hsize receive).Reachable s) (hfit : s.NamesFit hsize) :
    NamingSound hsize receive s :=
  ((actorSystem_inductive hsize receive).holds hs hfit).namingSound

/-- At boot an actor sends a message to actor 3; who gets one spawns an actor and dies. -/
def relayAndDie (actor : Actor Unit) (message : Message) : Received Unit :=
  if message.tag = Actor.BOOT then
    let reply := { Message.new 0 0 1 0 with sourceActor := actor.name, destinationActor := 3 }
    ⟨[], [reply], (), false⟩
  else ⟨[()], [], (), true⟩

/-- Two ranks, three actors, and one of them is dead. -/
theorem actorSystem_sound_two : ∃ s : ActorNetwork Unit,
    s.births = [⟨0, 1, 2⟩, ⟨1, 1, 3⟩, ⟨1, 2, 5⟩] ∧ (s.playgrounds 1).deadActors = 1 ∧
      NamingSound (show (0 : Int32) < 2 by decide) relayAndDie s := by
  have hsize : (0 : Int32) < 2 := by decide
  have hrun : (TransitionSystem.runAll (ActorNetwork.exec hsize relayAndDie) .start
      [.spawn 0 (), .spawn 1 (), .boot 0, .deliver 0]).map
        (fun s => (s.births, (s.playgrounds 1).deadActors, (s.playgrounds 0).actors.length,
          (s.playgrounds 1).actors.length)) =
      some ([⟨0, 1, 2⟩, ⟨1, 1, 3⟩, ⟨1, 2, 5⟩], 1, 2, 3) := by decide +kernel +revert
  obtain ⟨s, hs, hobserved⟩ := Option.map_eq_some_iff.mp hrun
  simp only [Prod.mk.injEq] at hobserved
  obtain ⟨hbirths, hdead, hlength, hlength'⟩ := hobserved
  have hfit : s.NamesFit hsize := by
    intro rank hrank
    have hge := Int32.le_iff_toInt_le.mp hrank.1
    have hlt := Int32.lt_iff_toInt_lt.mp hrank.2
    have hzero : (0 : Int32).toInt = 0 := rfl
    have htwo : (2 : Int32).toInt = 2 := rfl
    have hcases : rank = 0 ∨ rank = 1 := by
      rw [← Int32.toInt_inj, ← Int32.toInt_inj]
      have hone : (1 : Int32).toInt = 1 := rfl
      omega
    unfold Playground.NamesFit jobOf
    dsimp only
    rcases hcases with rfl | rfl
    · rw [hlength]
      decide
    · rw [hlength']
      decide
  exact ⟨s, hbirths, hdead, actorSystem_sound hsize relayAndDie (.runAll (.init rfl) hs) hfit⟩

end RayPlatform
