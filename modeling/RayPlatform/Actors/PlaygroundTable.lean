import RayPlatform.Actors.Playground

/-!
# The table of a playground

What spawns and messages do to the actors of one rank.

* `birth`, `births` — what `spawnActor` records: the slot and the name of each actor;
* `Sound` — actors have the names of their slots, and the counters count;
* `Stepped` — actors come behind the end of the table and are recorded, and those who live
  keep their names;
* `ReceiveResult` — the two results of `receiveActorMessage`: the message is dropped, or an
  actor receives it, spawns, sends, and lives on or dies.
-/

namespace RayPlatform

/-- A rank gave a name to the actor of a slot. -/
structure Birth where
  rank : Rank
  slot : Nat
  name : Int32
  deriving DecidableEq

namespace Playground

variable {α : Type} {job : RankOfJob} {p p' : Playground α}

/-- What the next `spawnActor` records. -/
def birth (job : RankOfJob) (p : Playground α) : Birth :=
  { rank := job.rank
    slot := p.reserve.actors.length
    name := job.rank + p.reserve.actorIterator * job.size }

/-- What spawning in sequence records. -/
def births (job : RankOfJob) : Playground α → List α → List Birth
  | _, [] => []
  | p, actor :: actors => p.birth job :: births job (p.spawnActor job actor) actors

/-! ## The table of a rank -/

/-- The name of the last slot is an `int`. -/
def NamesFit (job : RankOfJob) (p : Playground α) : Prop :=
  job.rank.toInt + ((p.actors.length : Int) - 1) * job.size.toInt < 2 ^ 31

/-- The name that a slot has on a rank. -/
def IsName (job : RankOfJob) (slot : Nat) (name : Int32) : Prop :=
  1 ≤ slot ∧ name.toInt = job.rank.toInt + slot * job.size.toInt

/-- Actors have the names of their slots, and the counters count. -/
structure Sound (job : RankOfJob) (p : Playground α) : Prop where
  iterator : p.actorIterator = Int32.ofNat p.actors.length
  names : ∀ i actor, p.actors[i]? = some (some actor) → IsName job i actor.name
  alive : p.aliveActors = p.actors.countP Option.isSome
  born : p.bornActors = p.aliveActors + p.deadActors

/-- What spawns and deaths do to a table: actors come behind its end and are recorded, and
those who live have the name they had. -/
structure Stepped (job : RankOfJob) (p p' : Playground α) (born : List Birth) : Prop where
  sound : p'.Sound job
  length_le : p.actors.length ≤ p'.actors.length
  keeps : ∀ i < p.actors.length, ∀ actor, p'.actors[i]? = some (some actor) →
    ∃ before, p.actors[i]? = some (some before) ∧ actor.name = before.name
  names : ∀ b ∈ born, b.rank = job.rank ∧ IsName job b.slot b.name
  slots : ∀ b ∈ born, p.actors.length ≤ b.slot ∧ b.slot < p'.actors.length
  nodup : (born.map Birth.slot).Nodup
  recorded : ∀ i actor, p.actors.length ≤ i → p'.actors[i]? = some (some actor) →
    ⟨job.rank, i, actor.name⟩ ∈ born

theorem Stepped.refl (h : p.Sound job) : Stepped job p p [] :=
  { sound := h
    length_le := Nat.le_refl _
    keeps := fun _ _ actor hactor => ⟨actor, hactor, rfl⟩
    names := fun _ hb => (nomatch hb)
    slots := fun _ hb => (nomatch hb)
    nodup := List.nodup_nil
    recorded := fun i actor hi hactor => by
      rw [List.getElem?_eq_none hi] at hactor
      cases hactor }

theorem Stepped.trans {p₁ p₂ p₃ : Playground α} {born born' : List Birth}
    (h : Stepped job p₁ p₂ born) (h' : Stepped job p₂ p₃ born') :
    Stepped job p₁ p₃ (born ++ born') := by
  have hle := h.length_le
  have hle' := h'.length_le
  refine ⟨h'.sound, by omega, fun i hi actor hactor => ?_, fun b hb => ?_, fun b hb => ?_, ?_, ?_⟩
  · obtain ⟨mid, hmid, hname⟩ := h'.keeps i (by omega) actor hactor
    obtain ⟨before, hbefore, hname'⟩ := h.keeps i hi mid hmid
    exact ⟨before, hbefore, hname.trans hname'⟩
  · rcases List.mem_append.mp hb with hb | hb
    · exact h.names b hb
    · exact h'.names b hb
  · rcases List.mem_append.mp hb with hb | hb
    · have hslot := h.slots b hb
      omega
    · have hslot := h'.slots b hb
      omega
  · rw [List.map_append]
    refine List.nodup_append.mpr ⟨h.nodup, h'.nodup, fun slot hmem slot' hmem' => ?_⟩
    obtain ⟨b, hb, rfl⟩ := List.mem_map.mp hmem
    obtain ⟨b', hb', rfl⟩ := List.mem_map.mp hmem'
    have hlt := (h.slots b hb).2
    have hge := (h'.slots b' hb').1
    omega
  · intro i actor hi hactor
    by_cases hlt : i < p₂.actors.length
    · obtain ⟨mid, hmid, hname⟩ := h'.keeps i hlt actor hactor
      rw [hname]
      exact List.mem_append_left _ (h.recorded i mid hi hmid)
    · exact List.mem_append_right _ (h'.recorded i actor (Nat.le_of_not_lt hlt) hactor)

/-- Slot 0 is reserved before the first actor. -/
theorem Sound.reserve (h : p.Sound job) (hlt : p.actors.length < 2 ^ 31) :
    p.reserve.Sound job ∧ 1 ≤ p.reserve.actors.length ∧
      ∃ pad, p.reserve.actors = p.actors ++ pad ∧ (pad = [] ∨ pad = [none]) := by
  have hlen : p.actorIterator = 0 ↔ p.actors.length = 0 := by
    rw [h.iterator, ← Int32.toInt_inj, Int32.toInt_ofNat_of_lt hlt]
    exact Int.ofNat_eq_zero
  rw [Playground.reserve]
  split
  · rename_i hzero
    have hnil : p.actors = [] := List.eq_nil_of_length_eq_zero (hlen.mp hzero)
    refine ⟨⟨?_, fun i actor hactor => ?_, ?_, h.born⟩, ?_, [none], rfl, .inr rfl⟩
    · simp only [hnil, hzero]
      rfl
    · simp only [hnil] at hactor
      cases i with
      | zero => cases hactor
      | succ i => cases hactor
    · rw [h.alive]
      simp only [hnil]
      rfl
    · simp only [hnil]
      exact Nat.le_refl 1
  · rename_i hne
    have hpos : p.actors.length ≠ 0 := fun hzero => hne (hlen.mpr hzero)
    exact ⟨h, by omega, [], (List.append_nil _).symm, .inl rfl⟩

/-- The name that `configureStuff` gets. -/
theorem toInt_name {job : RankOfJob} {slot : Nat} (hrank : 0 ≤ job.rank.toInt)
    (hfit : job.rank.toInt + slot * job.size.toInt < 2 ^ 31) :
    (job.rank + Int32.ofNat slot * job.size).toInt = job.rank.toInt + slot * job.size.toInt := by
  have hsize : 0 < job.size.toInt := by
    have hpos := job.size_pos
    rwa [Int32.lt_iff_toInt_lt] at hpos
  have hnonneg : 0 ≤ (slot : Int) * job.size.toInt :=
    Int.mul_nonneg (Int.natCast_nonneg _) (Int.le_of_lt hsize)
  have hwidth : Int32.size = 2 ^ 32 := rfl
  rw [Int32.toInt_add, Int32.toInt_mul, Int32.toInt_ofNat', hwidth, Int.bmod_mul_bmod,
    Int.add_bmod_bmod]
  exact Int.bmod_eq_of_le (by omega) (by omega)

/-- A table whose names fit is shorter than an `int` can count. -/
theorem NamesFit.length_lt (h : p.NamesFit job) (hrank : 0 ≤ job.rank.toInt)
    (hpos : 1 ≤ p.actors.length) : (p.actors.length : Int) - 1 < 2 ^ 31 := by
  have hsize := job.size_pos
  rw [Int32.lt_iff_toInt_lt] at hsize
  have hone : 1 ≤ job.size.toInt := hsize
  have hle : ((p.actors.length : Int) - 1) * 1 ≤ ((p.actors.length : Int) - 1) * job.size.toInt :=
    Int.mul_le_mul_of_nonneg_left hone (by omega)
  unfold NamesFit at h
  omega

/-- One more actor. -/
theorem Sound.spawnActor (h : p.Sound job) (hrank : 0 ≤ job.rank.toInt) (actor : α)
    (hfit : (p.spawnActor job actor).NamesFit job) :
    Stepped job p (p.spawnActor job actor) [p.birth job] := by
  have hlength : (p.spawnActor job actor).actors.length = p.reserve.actors.length + 1 :=
    List.length_append
  have hshort := hfit.length_lt hrank (by omega)
  have hle : p.actors.length ≤ p.reserve.actors.length := by
    rw [Playground.reserve]
    split
    · exact Nat.le_of_lt (by simp)
    · exact Nat.le_refl _
  obtain ⟨hsound, hpos, pad, hpad, hnone⟩ := h.reserve (by omega)
  have hname : IsName job p.reserve.actors.length (p.birth job).name := by
    refine ⟨hpos, ?_⟩
    show (job.rank + p.reserve.actorIterator * job.size).toInt = _
    rw [hsound.iterator]
    refine toInt_name hrank ?_
    unfold NamesFit at hfit
    rw [hlength] at hfit
    simpa using hfit
  have hnew : (p.spawnActor job actor).actors =
      p.reserve.actors ++ [some ⟨(p.birth job).name, actor⟩] := rfl
  have hlast : ∀ i a, (p.spawnActor job actor).actors[i]? = some (some a) →
      p.actors.length ≤ i → i = p.reserve.actors.length ∧ a.name = (p.birth job).name := by
    intro i a ha hi
    by_cases hlt : i < p.reserve.actors.length
    · -- the reserved slot holds nobody
      rw [hnew, List.getElem?_append_left hlt, hpad, List.getElem?_append_right hi] at ha
      rcases hnone with rfl | rfl
      · cases ha
      · rcases Nat.eq_zero_or_pos (i - p.actors.length) with hzero | hsucc
        · rw [hzero] at ha
          cases ha
        · rw [List.getElem?_eq_none hsucc] at ha
          cases ha
    · rw [hnew, List.getElem?_append_right (by omega)] at ha
      rcases Nat.eq_zero_or_pos (i - p.reserve.actors.length) with hzero | hsucc
      · rw [hzero] at ha
        cases ha
        exact ⟨by omega, rfl⟩
      · rw [List.getElem?_eq_none hsucc] at ha
        cases ha
  have hkeeps : ∀ i < p.actors.length, (p.spawnActor job actor).actors[i]? = p.actors[i]? := by
    intro i hi
    rw [hnew, List.getElem?_append_left (by omega), hpad, List.getElem?_append_left hi]
  refine ⟨⟨?_, fun i a ha => ?_, ?_, ?_⟩, by omega,
    fun i hi a ha => ⟨a, hkeeps i hi ▸ ha, rfl⟩, fun b hb => ?_, fun b hb => ?_,
    List.pairwise_singleton _ _, fun i a hi ha => ?_⟩
  · show p.reserve.actorIterator + 1 = Int32.ofNat _
    rw [hsound.iterator, hlength, Int32.ofNat_add]
    rfl
  · by_cases hi : i < p.actors.length
    · rw [hkeeps i hi] at ha
      exact h.names i a ha
    · obtain ⟨rfl, heq⟩ := hlast i a ha (Nat.le_of_not_lt hi)
      rw [heq]
      exact hname
  · rw [hnew, List.countP_append]
    show p.reserve.aliveActors + 1 = _
    rw [hsound.alive]
    rfl
  · show p.reserve.bornActors + 1 = p.reserve.aliveActors + 1 + p.reserve.deadActors
    have hborn := hsound.born
    omega
  · rw [List.mem_singleton.mp hb]
    exact ⟨rfl, hname⟩
  · rw [List.mem_singleton.mp hb, hlength]
    exact ⟨hle, Nat.lt_succ_self _⟩
  · obtain ⟨rfl, heq⟩ := hlast i a ha hi
    rw [heq]
    exact List.mem_singleton.mpr rfl

theorem NamesFit.mono (h : p'.NamesFit job) (hle : p.actors.length ≤ p'.actors.length) :
    p.NamesFit job := by
  have hsize := job.size_pos
  rw [Int32.lt_iff_toInt_lt] at hsize
  have hmul : ((p.actors.length : Int) - 1) * job.size.toInt ≤
      ((p'.actors.length : Int) - 1) * job.size.toInt :=
    Int.mul_le_mul_of_nonneg_right (by omega) (Int.le_of_lt hsize)
  unfold NamesFit at h ⊢
  omega

theorem prefix_spawnActor (job : RankOfJob) (p : Playground α) (actor : α) :
    p.actors <+: (p.spawnActor job actor).actors := by
  show p.actors <+: p.reserve.actors ++ [_]
  refine List.IsPrefix.trans ?_ (List.prefix_append _ _)
  rw [Playground.reserve]
  split
  · exact List.prefix_append _ _
  · exact List.prefix_refl _

theorem prefix_spawnActors (job : RankOfJob) (p : Playground α) (actors : List α) :
    p.actors <+: (actors.foldl (Playground.spawnActor job) p).actors := by
  induction actors generalizing p with
  | nil => exact List.prefix_refl _
  | cons actor actors ih => exact (prefix_spawnActor job p actor).trans (ih _)

/-- Any number of actors. -/
theorem Sound.spawnActors (h : p.Sound job) (hrank : 0 ≤ job.rank.toInt) (actors : List α)
    (hfit : (actors.foldl (Playground.spawnActor job) p).NamesFit job) :
    Stepped job p (actors.foldl (Playground.spawnActor job) p) (births job p actors) := by
  induction actors generalizing p with
  | nil => exact .refl h
  | cons actor actors ih =>
      have hfirst := h.spawnActor hrank actor (hfit.mono (prefix_spawnActors job _ actors).length_le)
      exact hfirst.trans (ih hfirst.sound hfit)

/-! ## Receiving -/

/-- The actor that receives a message on its rank. -/
def receiver (job : RankOfJob) (p : Playground α) (message : Message) : Option (Actor α) :=
  p.actorAt (slotOf job message.destinationActor)

/-- The entry of a living actor is replaced. -/
theorem Stepped.replace {q : Playground α} {k : Nat} {actor : Actor α} {born : List Birth}
    (h : Stepped job p p' born) (hk : k < p.actors.length)
    (hactor : p'.actors[k]? = some (some actor)) (e : Option (Actor α))
    (hentry : ∀ a : Actor α, e = some a → a.name = actor.name)
    (hactors : q.actors = p'.actors.set k e) (hiterator : q.actorIterator = p'.actorIterator)
    (halive : q.aliveActors = p'.aliveActors - if e.isSome then 0 else 1)
    (hborn : q.bornActors = q.aliveActors + q.deadActors) : Stepped job p q born := by
  have hlt : k < p'.actors.length := Nat.lt_of_lt_of_le hk h.length_le
  have hlength : q.actors.length = p'.actors.length := by rw [hactors, List.length_set]
  -- who lives behind an index lived there before, with the same name
  have hbefore : ∀ (i : Nat) (a : Actor α), q.actors[i]? = some (some a) →
      ∃ a', p'.actors[i]? = some (some a') ∧ a.name = a'.name := by
    intro i a ha
    rw [hactors] at ha
    by_cases hik : i = k
    · subst hik
      rw [List.getElem?_set_self hlt] at ha
      exact ⟨actor, hactor, hentry a (Option.some.inj ha)⟩
    · rw [List.getElem?_set_ne (Ne.symm hik)] at ha
      exact ⟨a, ha, rfl⟩
  refine ⟨⟨?_, fun i a ha => ?_, ?_, hborn⟩, hlength ▸ h.length_le, fun i hi a ha => ?_, h.names,
    fun b hb => hlength ▸ h.slots b hb, h.nodup, fun i a hi ha => ?_⟩
  · rw [hiterator, hlength]
    exact h.sound.iterator
  · obtain ⟨a', ha', hname⟩ := hbefore i a ha
    exact hname ▸ h.sound.names i a' ha'
  · have hget : p'.actors[k] = some actor := by
      rw [List.getElem?_eq_getElem hlt] at hactor
      exact Option.some.inj hactor
    have hpos : 0 < p'.actors.countP Option.isSome :=
      List.countP_pos_iff.mpr ⟨some actor, List.mem_of_getElem? hactor, rfl⟩
    rw [halive, hactors, List.countP_set hlt, hget, h.sound.alive]
    cases e with
    | none => simp; omega
    | some a => simp; omega
  · obtain ⟨a', ha', hname⟩ := hbefore i a ha
    obtain ⟨before, hp, hname'⟩ := h.keeps i hi a' ha'
    exact ⟨before, hp, hname.trans hname'⟩
  · obtain ⟨a', ha', hname⟩ := hbefore i a ha
    exact hname ▸ h.recorded i a' hi ha'

/-- The actor that received lives on, or its slot is empty. -/
theorem Stepped.settle {index : Int32} {actor : Actor α} {received : Received α}
    {born : List Birth} (h : Stepped job p p' born) (hindex : index.toInt.toNat < p.actors.length)
    (hactor : p'.actors[index.toInt.toNat]? = some (some actor)) :
    Stepped job p (p'.settle index actor received) born := by
  have hborn := h.sound.born
  rw [Playground.settle]
  split
  · refine h.replace hindex hactor none (fun a ha => nomatch ha) rfl rfl rfl ?_
    dsimp only
    omega
  · refine h.replace hindex hactor (some { actor with state := received.state }) (fun a ha => ?_) rfl
      rfl (Int.sub_zero _).symm hborn
    cases ha
    rfl

/-- What a rank records when it receives a message. -/
def receiveBirths (receive : Actor α → Message → Received α) (job : RankOfJob) (p : Playground α)
    (message : Message) : List Birth :=
  match p.receiver job message with
  | none => []
  | some actor => births job p (receive actor message).spawned

theorem length_settle (p : Playground α) (index : Int32) (actor : Actor α)
    (received : Received α) : (p.settle index actor received).actors.length = p.actors.length := by
  rw [Playground.settle]
  split <;> exact List.length_set

/-- A message is dropped, or an actor receives it. -/
inductive ReceiveResult (receive : Actor α → Message → Received α) (job : RankOfJob)
    (p : Playground α) (message : Message) :
    Playground α × List Message × Option Int32 → Prop
  | dropped : p.receiver job message = none → ReceiveResult receive job p message (p, [], none)
  | received (actor : Actor α) : p.receiver job message = some actor →
      ReceiveResult receive job p message
        (((receive actor message).spawned.foldl (Playground.spawnActor job) p).settle
            (slotOf job message.destinationActor) actor (receive actor message),
          (receive actor message).sent.map (Playground.sendActorMessage job),
          some (slotOf job message.destinationActor))

theorem receiveActorMessage_cases {receive : Actor α → Message → Received α} {message : Message}
    {r : Playground α × List Message × Option Int32}
    (h : p.receiveActorMessage receive job message = some r) :
    ReceiveResult receive job p message r := by
  rw [Playground.receiveActorMessage] at h
  dsimp only at h
  split at h
  · cases h
  · cases hactor : p.actorAt (slotOf job message.destinationActor) with
    | none =>
        rw [hactor] at h
        cases h
        exact .dropped hactor
    | some actor =>
        rw [hactor] at h
        cases h
        exact .received actor hactor

theorem ReceiveResult.length_le {receive : Actor α → Message → Received α} {message : Message}
    {r : Playground α × List Message × Option Int32}
    (h : ReceiveResult receive job p message r) : p.actors.length ≤ r.1.actors.length := by
  cases h with
  | dropped _ => exact Nat.le_refl _
  | received actor _ =>
      rw [length_settle]
      exact (prefix_spawnActors job p _).length_le

theorem ReceiveResult.addressed {receive : Actor α → Message → Received α} {message : Message}
    {r : Playground α × List Message × Option Int32}
    (h : ReceiveResult receive job p message r) :
    ∀ m ∈ r.2.1, m.destination = getActorRank job m.destinationActor := by
  intro m hm
  cases h with
  | dropped _ => cases hm
  | received actor _ =>
      obtain ⟨m', -, rfl⟩ := List.mem_map.mp hm
      rfl

/-- The table after a message, where the names of the actors that are spawned fit. -/
theorem ReceiveResult.stepped {receive : Actor α → Message → Received α} {message : Message}
    {r : Playground α × List Message × Option Int32}
    (h : ReceiveResult receive job p message r) (hsound : p.Sound job)
    (hrank : 0 ≤ job.rank.toInt) (hfit : r.1.NamesFit job) :
    Stepped job p r.1 (p.receiveBirths receive job message) := by
  rw [receiveBirths]
  cases h with
  | dropped hnobody =>
      rw [hnobody]
      exact .refl hsound
  | received actor hactor =>
      rw [hactor]
      have hget : p.actors[(slotOf job message.destinationActor).toInt.toNat]? =
          some (some actor) := by
        rw [receiver, actorAt, Option.join_eq_some_iff] at hactor
        exact hactor
      obtain ⟨hindex, -⟩ := List.getElem?_eq_some_iff.mp hget
      have hspawned := hsound.spawnActors hrank (receive actor message).spawned
        (hfit.mono (Nat.le_of_eq (length_settle _ _ _ _).symm))
      obtain ⟨added, hadded⟩ := prefix_spawnActors job p (receive actor message).spawned
      refine hspawned.settle hindex ?_
      rw [← hadded, List.getElem?_append_left hindex]
      exact hget

end Playground

end RayPlatform
