import RayPlatform.Communication.VirtualCommunicator
import RayPlatform.Lib.PriorityIndex

/-!
# Groups of the VirtualCommunicator

What each operation does to the content, the workers and the priority of the groups,
and to the responses of the workers. `Indexed` is the invariant of the priority
queue: it lists the groups that have content, under its length.
-/

namespace RayPlatform

open Lib (Map Lists)
open Lib.Map (NoEmptySet lookup_modifyInner get_modifyInner lookup_eraseInner lookup_modify)

namespace VirtualCommunicator

/-- The units of a group that is not flushed. -/
def contentOf (vc : VirtualCommunicator) (g : Group) : Option (List MessageUnit) :=
  (vc.messageContent.get g.tag).lookup g.destination

/-- The workers of a group, until their reply. -/
def workersOf (vc : VirtualCommunicator) (g : Group) : List WorkerHandle :=
  (vc.workerCurrentIdentifiers.get g.tag).get g.destination

theorem group_eq_iff {g g' : Group} :
    g.tag = g'.tag ∧ g.destination = g'.destination ↔ g = g' := by
  cases g
  cases g'
  simp

variable {vc : VirtualCommunicator} {g g' : Group}

/-! ## Content and workers -/

theorem contentOf_flushMessage :
    (vc.flushMessage g.tag g.destination).contentOf g' =
      if g' = g then none else vc.contentOf g' := by
  show ((vc.messageContent.eraseInner g.tag g.destination).get g'.tag).lookup g'.destination = _
  simp only [lookup_eraseInner, group_eq_iff]
  rfl

/-- The units arrive behind the content of their group. -/
theorem lookup_pushUnits {contents : Map MessageTag (Map Rank (List MessageUnit))}
    {buffer : List MessageUnit} (hbuffer : buffer ≠ []) :
    ((pushUnits contents g.tag g.destination buffer).get g'.tag).lookup g'.destination =
      if g' = g then some ((contents.get g.tag).get g.destination ++ buffer)
      else (contents.get g'.tag).lookup g'.destination := by
  induction buffer generalizing contents with
  | nil => exact absurd rfl hbuffer
  | cons element buffer ih =>
      let next := contents.modifyInner g.tag g.destination (· ++ [element])
      have hnext : (next.get g'.tag).lookup g'.destination =
          if g' = g then some ((contents.get g.tag).get g.destination ++ [element])
          else (contents.get g'.tag).lookup g'.destination := by
        simp only [next, lookup_modifyInner, group_eq_iff]
      have hget : (next.get g.tag).get g.destination =
          (contents.get g.tag).get g.destination ++ [element] := by
        simp [next, get_modifyInner]
      show ((pushUnits next g.tag g.destination buffer).get g'.tag).lookup g'.destination = _
      cases buffer with
      | nil => exact hnext
      | cons second buffer =>
          rw [ih (List.cons_ne_nil _ _), hget, hnext]
          by_cases heq : g' = g
          · simp [heq]
          · simp [heq]

variable {workerId : WorkerHandle} {message : UnitMessage}

theorem contentOf_groupMessage (htag : message.tag = g.tag)
    (hdestination : message.destination = g.destination) (hcontent : message.content ≠ []) :
    (vc.groupMessage workerId message).contentOf g' =
      if g' = g then some ((vc.contentOf g).getD [] ++ message.content) else vc.contentOf g' := by
  show ((pushUnits vc.messageContent message.tag message.destination message.content).get
    g'.tag).lookup g'.destination = _
  rw [htag, hdestination, lookup_pushUnits hcontent]
  rfl

theorem workersOf_groupMessage (htag : message.tag = g.tag)
    (hdestination : message.destination = g.destination) :
    (vc.groupMessage workerId message).workersOf g' =
      if g' = g then vc.workersOf g ++ [workerId] else vc.workersOf g' := by
  show ((vc.workerCurrentIdentifiers.modifyInner message.tag message.destination _).get g'.tag).get
    g'.destination = _
  rw [htag, hdestination]
  simp only [get_modifyInner, group_eq_iff]
  rfl

/-! ## The priority queue -/

/-- The number of units of a group that has any. -/
def priorityOf (vc : VirtualCommunicator) (g : Group) : Option Nat :=
  (vc.contentOf g).map List.length

theorem priorityOf_flushMessage :
    (vc.flushMessage g.tag g.destination).priorityOf = Function.update vc.priorityOf g none := by
  funext g'
  rw [priorityOf, contentOf_flushMessage]
  by_cases heq : g' = g
  · rw [if_pos heq, heq, Function.update_self]
    rfl
  · rw [if_neg heq, Function.update_of_ne heq]
    rfl

theorem priorityOf_groupMessage (htag : message.tag = g.tag)
    (hdestination : message.destination = g.destination) (hcontent : message.content ≠ []) :
    (vc.groupMessage workerId message).priorityOf =
      Function.update vc.priorityOf g
        (some (((vc.contentOf g).getD []).length + message.content.length)) := by
  funext g'
  rw [priorityOf, contentOf_groupMessage htag hdestination hcontent]
  by_cases heq : g' = g
  · rw [if_pos heq, heq, Function.update_self, Option.map_some, List.length_append]
  · rw [if_neg heq, Function.update_of_ne heq]
    rfl

/-- A flush takes the group from its place, if it has one. -/
theorem lists_flushMessage (h : Lists vc.priorityQueue Group.elementId vc.priorityOf)
    (hnonempty : vc.contentOf g ≠ none ∨ ∀ g, vc.contentOf g ≠ some []) :
    Lists (vc.flushMessage g.tag g.destination).priorityQueue Group.elementId
      (vc.flushMessage g.tag g.destination).priorityOf := by
  rw [priorityOf_flushMessage]
  show Lists (vc.priorityQueue.eraseFrom
    ((vc.contentOf g).getD []).length g.elementId) Group.elementId _
  cases hg : vc.contentOf g with
  | some content =>
      apply h.erase
      rw [priorityOf, hg]
      rfl
  | none =>
      have hplace : vc.priorityOf g = none := by
        rw [priorityOf, hg]
        rfl
      rw [← hplace, Function.update_eq_self]
      apply h.erase_absent
      intro g' hg'
      obtain ⟨content, hcontent, hlength⟩ := Option.map_eq_some_iff.mp hg'
      rw [List.length_eq_zero_iff.mp hlength] at hcontent
      exact (hnonempty.resolve_left (by simp [hg])) g' hcontent

/-- The old place of a group is erased. -/
theorem deleteOldPriority_spec (h : Lists vc.priorityQueue Group.elementId vc.priorityOf)
    (g : Group) :
    (vc.deleteOldPriority g.tag g.destination).1 = ((vc.contentOf g).getD []).length ∧
      Lists (vc.deleteOldPriority g.tag g.destination).2 Group.elementId
        (Function.update vc.priorityOf g none) := by
  unfold VirtualCommunicator.deleteOldPriority
  cases hg : vc.contentOf g with
  | some content =>
      have hlookup : (vc.messageContent.get g.tag).lookup g.destination = some content := hg
      rw [hlookup]
      refine ⟨rfl, h.erase ?_⟩
      rw [priorityOf, hg]
      rfl
  | none =>
      have hlookup : (vc.messageContent.get g.tag).lookup g.destination = none := hg
      have hplace : vc.priorityOf g = none := by
        rw [priorityOf, hg]
        rfl
      rw [hlookup, ← hplace, Function.update_eq_self]
      exact ⟨rfl, h⟩

/-- A query moves its group to the place of its new size. -/
theorem lists_groupMessage (h : Lists vc.priorityQueue Group.elementId vc.priorityOf)
    (htag : message.tag = g.tag) (hdestination : message.destination = g.destination)
    (hcontent : message.content ≠ [])
    (hname : ∀ g', vc.contentOf g' ≠ none → g'.elementId = g.elementId → g' = g) :
    Lists (vc.groupMessage workerId message).priorityQueue Group.elementId
      (vc.groupMessage workerId message).priorityOf := by
  obtain ⟨hpriority, hdeleted⟩ := deleteOldPriority_spec h g
  have hinsert := hdeleted.insert (g := g) (Function.update_self _ _ _)
    (((vc.contentOf g).getD []).length + message.content.length) ?_
  · rw [Function.update_idem] at hinsert
    rw [priorityOf_groupMessage htag hdestination hcontent]
    show Lists ((vc.deleteOldPriority message.tag message.destination).2.insertIn
      ((vc.deleteOldPriority message.tag message.destination).1 + message.content.length)
      (getMessageUniqueId message.destination message.tag)) Group.elementId _
    rw [htag, hdestination, hpriority]
    exact hinsert
  · intro g' hg' heq
    by_cases hself : g' = g
    · exact hself
    · rw [Function.update_of_ne hself, priorityOf, Option.isSome_map] at hg'
      exact hname g' (Option.isSome_iff_ne_none.mp hg') heq

section Groups

variable {P : Group → Prop}

/-- The groups with content after a flush are some of those before. -/
theorem groups_flushMessage
    (h : ∀ g content, vc.contentOf g = some content → P g ∧ content ≠ []) (g : Group) :
    ∀ g' content, (vc.flushMessage g.tag g.destination).contentOf g' = some content →
      P g' ∧ content ≠ [] := by
  intro g' content hg'
  rw [contentOf_flushMessage] at hg'
  split at hg'
  · cases hg'
  · exact h g' content hg'

/-- A query adds its group to those with content. -/
theorem groups_groupMessage
    (h : ∀ g content, vc.contentOf g = some content → P g ∧ content ≠ [])
    (htag : message.tag = g.tag) (hdestination : message.destination = g.destination)
    (hcontent : message.content ≠ []) (hg : P g) :
    ∀ g' content, (vc.groupMessage workerId message).contentOf g' = some content →
      P g' ∧ content ≠ [] := by
  intro g' content hg'
  rw [contentOf_groupMessage htag hdestination hcontent] at hg'
  split at hg'
  · rename_i heq
    subst heq
    cases hg'
    exact ⟨hg, by simp [hcontent]⟩
  · exact h g' content hg'

end Groups

/-- The priority queue lists the groups that have content. -/
structure Indexed (vc : VirtualCommunicator) : Prop where
  queue : ∀ priority elementId, elementId ∈ vc.priorityQueue.get priority ↔
    ∃ g content, vc.contentOf g = some content ∧ content.length = priority ∧
      g.elementId = elementId
  noEmptySet : NoEmptySet vc.priorityQueue
  addressable : ∀ g content, vc.contentOf g = some content → g.Addressable ∧ content ≠ []

theorem exists_priorityOf_iff {priority elementId : Nat} :
    (∃ g, vc.priorityOf g = some priority ∧ g.elementId = elementId) ↔
      ∃ g content, vc.contentOf g = some content ∧ content.length = priority ∧
        g.elementId = elementId := by
  refine exists_congr fun g => ?_
  rw [priorityOf, Option.map_eq_some_iff, ← exists_and_right]
  simp only [and_assoc]

theorem Indexed.lists (h : vc.Indexed) :
    Lists vc.priorityQueue Group.elementId vc.priorityOf := by
  refine ⟨fun priority elementId => ?_, h.noEmptySet, fun g g' hg hg' heq => ?_⟩
  · rw [exists_priorityOf_iff]
    exact h.queue priority elementId
  · obtain ⟨content, hcontent⟩ := Option.isSome_iff_exists.mp (Option.isSome_map ▸ hg)
    obtain ⟨content', hcontent'⟩ := Option.isSome_iff_exists.mp (Option.isSome_map ▸ hg')
    exact (h.addressable g content hcontent).1.elementId_inj
      (h.addressable g' content' hcontent').1 heq

theorem indexed_of_lists (h : Lists vc.priorityQueue Group.elementId vc.priorityOf)
    (haddressable : ∀ g content, vc.contentOf g = some content →
      g.Addressable ∧ content ≠ []) : vc.Indexed := by
  refine ⟨fun priority elementId => ?_, h.noEmptySet, haddressable⟩
  rw [← exists_priorityOf_iff]
  exact h.mem_iff priority elementId

theorem contentOf_constructor (rank activeDestination : Rank) (activeTag : MessageTag)
    (g : Group) : (constructor rank activeDestination activeTag).contentOf g = none := by
  simp [contentOf, constructor, default]

theorem lists_constructor (rank activeDestination : Rank) (activeTag : MessageTag) :
    Lists (constructor rank activeDestination activeTag).priorityQueue Group.elementId
      (constructor rank activeDestination activeTag).priorityOf := by
  have hnone : (constructor rank activeDestination activeTag).priorityOf = fun _ => none := by
    funext g
    rw [priorityOf, contentOf_constructor]
    rfl
  rw [hnone]
  exact Lists.empty Group.elementId

theorem constructor_indexed (rank activeDestination : Rank) (activeTag : MessageTag) :
    (constructor rank activeDestination activeTag).Indexed := by
  refine indexed_of_lists (lists_constructor rank activeDestination activeTag) ?_
  intro g content hg
  rw [contentOf_constructor] at hg
  cases hg

theorem Indexed.flushMessage (h : vc.Indexed) {content : List MessageUnit}
    (hg : vc.contentOf g = some content) : (vc.flushMessage g.tag g.destination).Indexed := by
  have hsome : vc.contentOf g ≠ none := by
    rw [hg]
    exact Option.some_ne_none content
  exact indexed_of_lists (lists_flushMessage h.lists (.inl hsome))
    (groups_flushMessage h.addressable g)

theorem Indexed.groupMessage (h : vc.Indexed) (htag : message.tag = g.tag)
    (hdestination : message.destination = g.destination) (hcontent : message.content ≠ [])
    (hg : g.Addressable) : (vc.groupMessage workerId message).Indexed := by
  have hname : ∀ g', vc.contentOf g' ≠ none → g'.elementId = g.elementId → g' = g := by
    intro g' hg' heq
    obtain ⟨content, hsome⟩ := Option.ne_none_iff_exists'.mp hg'
    exact (h.addressable g' content hsome).1.elementId_inj hg heq
  have hlists : Lists (vc.groupMessage workerId message).priorityQueue Group.elementId
      (vc.groupMessage workerId message).priorityOf :=
    lists_groupMessage h.lists htag hdestination hcontent hname
  exact indexed_of_lists hlists
    (groups_groupMessage h.addressable htag hdestination hcontent hg)

/-- `forceFlush` flushes the top of the queue: a group with as much content as any other,
if its tag is not negative. -/
theorem forceFlush_of_lists (h : Lists vc.priorityQueue Group.elementId vc.priorityOf)
    (hrank : ∀ g, vc.contentOf g ≠ none → g.HasRank) :
    ((∀ g, vc.contentOf g = none) ∧ vc.forceFlush = some vc) ∨
      ∃ g content, vc.contentOf g = some content ∧ vc.priorityQueue.top? = some g.elementId ∧
        (∀ g' content', vc.contentOf g' = some content' → content'.length ≤ content.length) ∧
        (0 ≤ g.tag → vc.forceFlush = some (vc.flushMessage g.tag g.destination)) := by
  unfold VirtualCommunicator.forceFlush
  rcases h.top?_spec with hnone | ⟨g, priority, hg, htop, hmax⟩
  · refine .inl ⟨fun g => Option.map_eq_none_iff.mp (hnone g), ?_⟩
    rw [if_pos (h.keys_card.mpr hnone)]
  · obtain ⟨content, hcontent, rfl⟩ := Option.map_eq_some_iff.mp hg
    refine .inr ⟨g, content, hcontent, htop, fun g' content' hg' => ?_, fun htag => ?_⟩
    · exact hmax g' content'.length (by rw [priorityOf, hg', Option.map_some])
    · have hrankOf := hrank g (by simp [hcontent])
      have haddressable : g.Addressable := ⟨htag, hrankOf.destination, hrankOf.bounded⟩
      have hsome : ¬ vc.priorityQueue.keys.card = 0 := by
        rw [h.keys_card]
        intro hnone
        rw [hnone] at hg
        cases hg
      rw [if_neg hsome, htop, Option.bind_eq_bind, Option.bind_some, haddressable.decode.1,
        haddressable.decode.2]
      rfl

/-- `forceFlush` flushes a group with as much content as any other, if there is one. -/
theorem Indexed.forceFlush (h : vc.Indexed) :
    ((∀ g, vc.contentOf g = none) ∧ vc.forceFlush = some vc) ∨
      ∃ g content, vc.contentOf g = some content ∧
        vc.forceFlush = some (vc.flushMessage g.tag g.destination) ∧
        ∀ g' content', vc.contentOf g' = some content' → content'.length ≤ content.length := by
  have haddressable : ∀ g, vc.contentOf g ≠ none → g.Addressable := by
    intro g hg
    obtain ⟨content, hsome⟩ := Option.ne_none_iff_exists'.mp hg
    exact (h.addressable g content hsome).1
  rcases forceFlush_of_lists h.lists fun g hg => (haddressable g hg).hasRank with
    hnone | ⟨g, content, hg, -, hmax, hflush⟩
  · exact .inl hnone
  · exact .inr ⟨g, content, hg, hflush (haddressable g (by simp [hg])).tag, hmax⟩

/-! ## Responses -/

/-- A reply leaves the content, the priorities and the messages that were sent. -/
theorem processInbox_frame {registry : TagRegistry} {vc' : VirtualCommunicator}
    {inbox : List UnitMessage} {activeWorkers activeWorkers' : List WorkerHandle}
    (hprocess : vc.processInbox registry inbox activeWorkers = some (vc', activeWorkers')) :
    vc'.messageContent = vc.messageContent ∧ vc'.priorityQueue = vc.priorityQueue ∧
      vc'.outbox = vc.outbox := by
  unfold VirtualCommunicator.processInbox at hprocess
  split at hprocess
  · split at hprocess
    · cases hprocess
      exact ⟨rfl, rfl, rfl⟩
    · split at hprocess
      · cases hprocess
        exact ⟨rfl, rfl, rfl⟩
      · split at hprocess
        · rw [Option.bind_eq_bind, Option.bind_eq_some_iff] at hprocess
          obtain ⟨elements, -, hdone⟩ := hprocess
          cases hdone
          exact ⟨rfl, rfl, rfl⟩
        · cases hprocess
          exact ⟨rfl, rfl, rfl⟩
  · cases hprocess
    exact ⟨rfl, rfl, rfl⟩

variable {buffer : List MessageUnit} {elements : Map WorkerHandle (List MessageUnit)}

/-- A worker gets the units of its block. -/
theorem classify_spec (workerId : WorkerHandle) (elements : Map WorkerHandle (List MessageUnit))
    {basePosition n : Nat} (hroom : basePosition + n ≤ buffer.length) :
    ∃ elements', classify buffer basePosition workerId n elements = some elements' ∧
      ∀ w, elements'.lookup w =
        if w = workerId ∧ 0 < n then
          some (elements.get workerId ++ (buffer.drop basePosition).take n)
        else elements.lookup w := by
  induction n with
  | zero => exact ⟨elements, rfl, fun w => by simp⟩
  | succ n ih =>
      obtain ⟨elements', hclassify, hlookup⟩ := ih (by omega)
      have helement : buffer[basePosition + n]? = some buffer[basePosition + n] :=
        List.getElem?_eq_getElem (by omega)
      have hget : elements'.get workerId =
          elements.get workerId ++ (buffer.drop basePosition).take n := by
        rw [Lib.Map.get, hlookup]
        cases n with
        | zero =>
            simp
            rfl
        | succ n => simp
      have htake : (buffer.drop basePosition).take (n + 1) =
          (buffer.drop basePosition).take n ++ [buffer[basePosition + n]] := by
        rw [List.take_add_one, List.getElem?_drop, helement, Option.toList_some]
      refine ⟨elements'.modify workerId (· ++ [buffer[basePosition + n]]), ?_, fun w => ?_⟩
      · simp [classify, hclassify, helement]
      · rw [lookup_modify, hget, List.append_assoc, ← htake]
        by_cases hw : w = workerId
        · simp [hw]
        · simp [hw, hlookup]

/-- Each worker gets the block at its position, if it has no response yet. -/
theorem demultiplex_spec {period : Nat} (hperiod : 0 < period)
    {blocks : List (WorkerHandle × List MessageUnit)} {i : Nat}
    (hblocks : ∀ b ∈ blocks, b.2.length = period) (hnodup : (blocks.map Prod.fst).Nodup)
    (hbuffer : buffer.drop (i * period) = (blocks.map Prod.snd).flatten)
    (hfresh : ∀ b ∈ blocks, elements.lookup b.1 = none) :
    ∃ elements', demultiplex buffer period i (blocks.map Prod.fst) elements = some elements' ∧
      ∀ w, elements'.lookup w =
        ((blocks.find? fun b => b.1 = w).map Prod.snd).or (elements.lookup w) := by
  induction blocks generalizing i elements with
  | nil => exact ⟨elements, rfl, fun w => by simp⟩
  | cons b blocks ih =>
      obtain ⟨workerId, block⟩ := b
      have hblock : block.length = period := hblocks _ List.mem_cons_self
      have hnew : elements.lookup workerId = none := hfresh _ List.mem_cons_self
      rw [List.map_cons, List.nodup_cons] at hnodup
      rw [List.map_cons, List.flatten_cons] at hbuffer
      have hlength := congrArg List.length hbuffer
      rw [List.length_drop, List.length_append, hblock] at hlength
      obtain ⟨elements₁, hclassify, hlookup⟩ :=
        classify_spec workerId elements
          (show i * period + period ≤ buffer.length by omega)
      have hfirst : ∀ w, elements₁.lookup w =
          if w = workerId then some block else elements.lookup w := by
        intro w
        have hget : elements.get workerId = [] := by
          rw [Lib.Map.get, hnew]
          rfl
        rw [hlookup, hget, hbuffer, ← hblock, List.take_left, List.nil_append]
        simp [hblock, hperiod]
      have hdrop : buffer.drop ((i + 1) * period) = (blocks.map Prod.snd).flatten := by
        rw [Nat.succ_mul, ← List.drop_drop, hbuffer, ← hblock, List.drop_left]
      have hfresh₁ : ∀ b ∈ blocks, elements₁.lookup b.1 = none := by
        intro b hb
        have hne : b.1 ≠ workerId := fun heq => hnodup.1 (List.mem_map.mpr ⟨b, hb, heq⟩)
        rw [hfirst, if_neg hne]
        exact hfresh b (List.mem_cons_of_mem _ hb)
      obtain ⟨elements', hdemultiplex, hrest⟩ :=
        ih (fun b hb => hblocks b (List.mem_cons_of_mem _ hb)) hnodup.2 hdrop hfresh₁
      refine ⟨elements', ?_, fun w => ?_⟩
      · simp [demultiplex, hclassify, hdemultiplex]
      · rw [hrest, hfirst]
        by_cases hw : w = workerId
        · subst hw
          have hnone : blocks.find? (fun b => b.1 = w) = none := by
            rw [List.find?_eq_none]
            intro b hb heq
            exact hnodup.1 (List.mem_map.mpr ⟨b, hb, of_decide_eq_true heq⟩)
          simp [hnone]
        · have hne : ¬ workerId = w := fun heq => hw heq.symm
          simp [hw, hne]

end VirtualCommunicator

end RayPlatform
