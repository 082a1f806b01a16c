import RayPlatform.Lib.TransitionSystem
import RayPlatform.Communication.VirtualCommunicatorGroups

/-!
# The priority index of the VirtualCommunicator

`m_priorityQueue` is kept beside the content of the groups, by an erase and an insert
around each change. `ExactIndex` says that it is the index of the content by size, in
every run of the operations (`priorityQueue_exact`); the tags are arbitrary.

`forceFlush` decodes the identifier at the top of the index. A tag that is negative is
not the tag of its identifier: the flush takes another group then
(`forceFlush_flushes_other`).
-/

namespace RayPlatform

open Lib (Map Lists TransitionSystem)
open Lib.Map (NoEmptySet NoEmptyInner noEmptyInner_empty)
open Lib.TransitionSystem (runAll)
open VirtualCommunicator

/-- The group of a query. -/
def UnitMessage.group (message : UnitMessage) : Group :=
  { tag := message.tag, destination := message.destination }

/-- What `pushMessage` asserts of the count and of the destination, which is a rank. -/
structure UnitMessage.Groupable (message : UnitMessage) : Prop where
  nonempty : message.content ≠ []
  hasRank : message.group.HasRank

instance UnitMessage.decidableGroupable (message : UnitMessage) : Decidable message.Groupable :=
  decidable_of_iff (message.content ≠ [] ∧ 0 ≤ message.destination ∧
      message.destination.toInt < MAX_NUMBER_OF_MPI_PROCESSES)
    ⟨fun ⟨hne, hlow, hhigh⟩ => ⟨hne, hlow, hhigh⟩, fun ⟨hne, hlow, hhigh⟩ => ⟨hne, hlow, hhigh⟩⟩

/-- `flushMessage` is private: it is a step of its own here, for any tag and destination. -/
inductive CommunicatorCall
  | pushMessage (workerId : WorkerHandle) (message : UnitMessage)
  | flushMessage (tag : MessageTag) (destination : Rank)
  | forceFlush
  | processInbox (inbox : List UnitMessage)
  | getMessageResponseElements (workerId : WorkerHandle)

namespace VirtualCommunicator

def exec (registry : TagRegistry) (vc : VirtualCommunicator) :
    CommunicatorCall → Option VirtualCommunicator
  | .pushMessage workerId message =>
      if message.Groupable then some (vc.pushMessage registry workerId message) else none
  | .flushMessage tag destination => some (vc.flushMessage tag destination)
  | .forceFlush => vc.forceFlush
  | .processInbox inbox => (vc.processInbox registry inbox []).map Prod.fst
  | .getMessageResponseElements workerId => some (vc.getMessageResponseElements workerId []).1

def callSystem (registry : TagRegistry) (rank activeDestination : Rank)
    (activeTag : MessageTag) : TransitionSystem VirtualCommunicator CommunicatorCall :=
  .ofExec (constructor rank activeDestination activeTag) (exec registry)

/-- The priority queue is the index of the groups by the size of their content. -/
structure ExactIndex (vc : VirtualCommunicator) : Prop where
  /-- a group is listed under the number of its units, and there only -/
  listed : ∀ g : Group, g.HasRank → ∀ s,
    g.elementId ∈ vc.priorityQueue.get s ↔ 0 < s ∧ ((vc.contentOf g).getD []).length = s
  /-- what is listed is the identifier of a group -/
  identifiers : ∀ s elementId, elementId ∈ vc.priorityQueue.get s →
    ∃ g : Group, g.HasRank ∧ g.elementId = elementId
  /-- the groups with content are among those that `listed` is about -/
  ranks : ∀ g content, vc.contentOf g = some content → g.HasRank ∧ content ≠ []
  noEmptySet : NoEmptySet vc.priorityQueue
  hasMessagesToFlush : vc.hasMessagesToFlush = true ↔ vc.priorityQueue.keys.card ≠ 0
  forceFlush_none : vc.priorityQueue.keys.card = 0 → vc.forceFlush = some vc
  /-- the identifier at the top is that of a group of maximal size, which `forceFlush`
  flushes if it decodes the identifier -/
  forceFlush : vc.priorityQueue.keys.card ≠ 0 → ∃ g content, vc.contentOf g = some content ∧
    content ≠ [] ∧ vc.priorityQueue.top? = some g.elementId ∧
    (∀ g', ((vc.contentOf g').getD []).length ≤ content.length) ∧
    (0 ≤ g.tag → vc.forceFlush = some (vc.flushMessage g.tag g.destination))

/-! ## The invariant -/

/-- What the operations keep. -/
structure Kept (vc : VirtualCommunicator) : Prop where
  lists : Lists vc.priorityQueue Group.elementId vc.priorityOf
  ranks : ∀ g content, vc.contentOf g = some content → g.HasRank ∧ content ≠ []
  noEmptyInner : NoEmptyInner vc.messageContent

variable {vc vc' : VirtualCommunicator} {g : Group} {registry : TagRegistry}

theorem constructor_kept (rank activeDestination : Rank) (activeTag : MessageTag) :
    (constructor rank activeDestination activeTag).Kept := by
  refine ⟨lists_constructor rank activeDestination activeTag, fun g content hg => ?_,
    noEmptyInner_empty⟩
  rw [contentOf_constructor] at hg
  cases hg

theorem Kept.hasRank (h : vc.Kept) (hg : vc.contentOf g ≠ none) : g.HasRank := by
  obtain ⟨content, hsome⟩ := Option.ne_none_iff_exists'.mp hg
  exact (h.ranks g content hsome).1

/-- An identifier is that of one group only, among those with content and one more. -/
theorem Kept.eq_of_elementId (h : vc.Kept) (hg : g.HasRank) :
    ∀ g', vc.contentOf g' ≠ none → g'.elementId = g.elementId → g' = g := by
  intro g' hg' heq
  exact (h.hasRank hg').elementId_inj hg heq

theorem Kept.of_frame (h : vc.Kept) (hcontent : vc'.messageContent = vc.messageContent)
    (hqueue : vc'.priorityQueue = vc.priorityQueue) : vc'.Kept := by
  have hsame : vc'.contentOf = vc.contentOf := by
    funext g
    rw [contentOf, contentOf, hcontent]
  have hplace : vc'.priorityOf = vc.priorityOf := by
    funext g
    rw [priorityOf, priorityOf, hsame]
  refine ⟨?_, fun g content hg => ?_, ?_⟩
  · rw [hqueue, hplace]
    exact h.lists
  · rw [hsame] at hg
    exact h.ranks g content hg
  · rw [hcontent]
    exact h.noEmptyInner

/-! ## The operations keep it -/

/-- Also where the group has no content. -/
theorem Kept.flushMessage (h : vc.Kept) (g : Group) :
    (vc.flushMessage g.tag g.destination).Kept := by
  have hnonempty : ∀ g', vc.contentOf g' ≠ some [] := by
    intro g' hg'
    exact (h.ranks g' [] hg').2 rfl
  exact ⟨lists_flushMessage h.lists (.inr hnonempty), groups_flushMessage h.ranks g,
    h.noEmptyInner.eraseInner⟩

theorem noEmptyInner_pushUnits {contents : Map MessageTag (Map Rank (List MessageUnit))}
    (h : NoEmptyInner contents) (tag : MessageTag) (destination : Rank)
    (buffer : List MessageUnit) :
    NoEmptyInner (pushUnits contents tag destination buffer) := by
  induction buffer generalizing contents with
  | nil => exact h
  | cons element buffer ih => exact ih (h.modifyInner (· ++ [element]))

theorem Kept.groupMessage (h : vc.Kept) (workerId : WorkerHandle) {message : UnitMessage}
    (hmessage : message.Groupable) : (vc.groupMessage workerId message).Kept := by
  refine ⟨?_, ?_, ?_⟩
  · exact lists_groupMessage h.lists rfl rfl hmessage.nonempty
      (h.eq_of_elementId hmessage.hasRank)
  · exact groups_groupMessage h.ranks (g := message.group) rfl rfl hmessage.nonempty
      hmessage.hasRank
  · exact noEmptyInner_pushUnits h.noEmptyInner message.tag message.destination message.content

theorem Kept.pushMessage (h : vc.Kept) (registry : TagRegistry) (workerId : WorkerHandle)
    {message : UnitMessage} (hmessage : message.Groupable) :
    (vc.pushMessage registry workerId message).Kept := by
  have hgrouped := h.groupMessage workerId hmessage
  unfold VirtualCommunicator.pushMessage
  simp only
  split
  · exact hgrouped.flushMessage message.group
  · exact hgrouped

/-- Whatever identifier it decodes, `forceFlush` flushes some group. -/
theorem forceFlush_cases (hflush : vc.forceFlush = some vc') :
    vc' = vc ∨ ∃ g : Group, vc' = vc.flushMessage g.tag g.destination := by
  unfold VirtualCommunicator.forceFlush at hflush
  split at hflush
  · cases hflush
    exact .inl rfl
  · rw [Option.bind_eq_bind, Option.bind_eq_some_iff] at hflush
    obtain ⟨elementId, -, hdone⟩ := hflush
    cases hdone
    exact .inr ⟨⟨getTagFromMessageUniqueId elementId,
      getDestinationFromMessageUniqueId elementId⟩, rfl⟩

theorem Kept.exec (h : vc.Kept) {call : CommunicatorCall}
    (hexec : vc.exec registry call = some vc') : vc'.Kept := by
  cases call with
  | pushMessage workerId message =>
      by_cases hmessage : message.Groupable
      · rw [VirtualCommunicator.exec, if_pos hmessage] at hexec
        cases hexec
        exact h.pushMessage registry workerId hmessage
      · rw [VirtualCommunicator.exec, if_neg hmessage] at hexec
        cases hexec
  | flushMessage tag destination =>
      cases hexec
      exact h.flushMessage ⟨tag, destination⟩
  | forceFlush =>
      rcases forceFlush_cases hexec with rfl | ⟨g, rfl⟩
      · exact h
      · exact h.flushMessage g
  | processInbox inbox =>
      obtain ⟨⟨next, activeWorkers⟩, hprocess, rfl⟩ := Option.map_eq_some_iff.mp hexec
      obtain ⟨hcontent, hqueue, -⟩ := processInbox_frame hprocess
      exact h.of_frame hcontent hqueue
  | getMessageResponseElements workerId =>
      cases hexec
      exact h.of_frame rfl rfl

theorem callSystem_kept (registry : TagRegistry) (rank activeDestination : Rank)
    (activeTag : MessageTag) :
    (callSystem registry rank activeDestination activeTag).Inductive Kept := by
  refine ⟨fun vc hinit => ?_, fun vc call vc' h hexec => h.exec hexec⟩
  have hstart : vc = constructor rank activeDestination activeTag := hinit
  rw [hstart]
  exact constructor_kept rank activeDestination activeTag

/-! ## The index is exact -/

theorem Kept.listed (h : vc.Kept) (hg : g.HasRank) (s : Nat) :
    g.elementId ∈ vc.priorityQueue.get s ↔
      0 < s ∧ ((vc.contentOf g).getD []).length = s := by
  have hname : ∀ g', (vc.priorityOf g').isSome → g'.elementId = g.elementId → g' = g := by
    intro g' hg'
    rw [priorityOf, Option.isSome_map] at hg'
    exact h.eq_of_elementId hg g' (Option.isSome_iff_ne_none.mp hg')
  rw [h.lists.name_mem_iff hname, priorityOf]
  cases hcontent : vc.contentOf g with
  | none =>
      refine iff_of_false (Option.some_ne_none s).symm ?_
      rintro ⟨hs, hlength⟩
      rw [Option.getD_none, List.length_nil] at hlength
      omega
  | some content =>
      have hpos : 0 < content.length := List.length_pos_iff.mpr (h.ranks g content hcontent).2
      simp only [Option.map_some, Option.getD_some, Option.some.injEq]
      omega

theorem Kept.identifiers (h : vc.Kept) {s elementId : Nat}
    (hlisted : elementId ∈ vc.priorityQueue.get s) :
    ∃ g : Group, g.HasRank ∧ g.elementId = elementId := by
  obtain ⟨g, hg, hid⟩ := (h.lists.mem_iff s elementId).mp hlisted
  obtain ⟨content, hcontent, -⟩ := Option.map_eq_some_iff.mp hg
  exact ⟨g, (h.ranks g content hcontent).1, hid⟩

/-- Both maps are empty if no group has content. -/
theorem Kept.hasMessagesToFlush_iff (h : vc.Kept) :
    vc.hasMessagesToFlush = true ↔ vc.priorityQueue.keys.card ≠ 0 := by
  unfold VirtualCommunicator.hasMessagesToFlush
  rw [decide_eq_true_eq, not_iff_not, h.noEmptyInner.keys_card, h.lists.keys_card]
  constructor
  · intro hnone g
    exact Option.map_eq_none_iff.mpr (hnone g.tag g.destination)
  · intro hnone tag destination
    exact Option.map_eq_none_iff.mp (hnone ⟨tag, destination⟩)

theorem Kept.exactIndex (h : vc.Kept) : vc.ExactIndex := by
  have hflush := forceFlush_of_lists h.lists fun g => h.hasRank
  refine
    { listed := fun g hg s => h.listed hg s
      identifiers := fun s elementId hlisted => h.identifiers hlisted
      ranks := h.ranks
      noEmptySet := h.lists.noEmptySet
      hasMessagesToFlush := h.hasMessagesToFlush_iff
      forceFlush_none := fun hempty => ?_
      forceFlush := fun hsome => ?_ }
  · rw [VirtualCommunicator.forceFlush, if_pos hempty]
  · rcases hflush with ⟨hnone, -⟩ | ⟨g, content, hg, htop, hmax, hdecoded⟩
    · refine absurd (h.lists.keys_card.mpr fun g => ?_) hsome
      exact Option.map_eq_none_iff.mpr (hnone g)
    · refine ⟨g, content, hg, (h.ranks g content hg).2, htop, fun g' => ?_, hdecoded⟩
      cases hg' : vc.contentOf g' with
      | none => exact Nat.zero_le _
      | some content' => exact hmax g' content' hg'

/-- The priority queue is exact in every run, whatever the tags. -/
theorem priorityQueue_exact (registry : TagRegistry) (rank activeDestination : Rank)
    (activeTag : MessageTag) {vc : VirtualCommunicator}
    (hvc : (callSystem registry rank activeDestination activeTag).Reachable vc) :
    vc.ExactIndex :=
  ((callSystem_kept registry rank activeDestination activeTag).holds hvc).exactIndex

/-- Queries of one unit. -/
def unitRegistry : TagRegistry :=
  { elementSizes := fun _ => 1
    replyTagToQueryTag := fun _ => none }

def unitMessage (tag : MessageTag) (destination : Rank) (content : List MessageUnit) :
    UnitMessage :=
  { content := content, destination := destination, tag := tag, source := 0 }

theorem priorityQueue_exact_three : ∃ vc,
    runAll (exec unitRegistry) (constructor 0 0 0)
        [.pushMessage 7 (unitMessage 3 1 [10]), .pushMessage 8 (unitMessage 3 2 [20]),
          .pushMessage 9 (unitMessage 3 1 [30])] = some vc ∧
      vc.priorityQueue.get 2 = {3000001} ∧ vc.ExactIndex := by
  have hrun : (runAll (exec unitRegistry) (constructor 0 0 0)
      [.pushMessage 7 (unitMessage 3 1 [10]), .pushMessage 8 (unitMessage 3 2 [20]),
        .pushMessage 9 (unitMessage 3 1 [30])]).map (fun vc => vc.priorityQueue.get 2) =
      some {3000001} := by decide +kernel
  obtain ⟨vc, hvc, hqueue⟩ := Option.map_eq_some_iff.mp hrun
  exact ⟨vc, hvc, hqueue, priorityQueue_exact unitRegistry 0 0 0 (.runAll (.init rfl) hvc)⟩

/-- Tag -1 is not the tag of its identifier: with one query buffered, the flush is that of
a group without content, and the query stays behind. -/
theorem forceFlush_flushes_other : ∃ vc vc',
    (callSystem unitRegistry 0 0 0).Reachable vc ∧ vc.contentOf ⟨-1, 2⟩ = some [10] ∧
      vc.forceFlush = some vc' ∧ vc'.outbox.map (fun m => m.content) = [[]] ∧
      vc'.contentOf ⟨-1, 2⟩ = some [10] := by
  have hrun : ((runAll (exec unitRegistry) (constructor 0 0 0)
      [.pushMessage 7 (unitMessage (-1) 2 [10])]).bind fun vc =>
        vc.forceFlush.map fun vc' =>
          (vc.contentOf ⟨-1, 2⟩, vc'.outbox.map (fun m => m.content), vc'.contentOf ⟨-1, 2⟩)) =
      some (some [10], [[]], some [10]) := by decide +kernel
  obtain ⟨vc, hvc, hnext⟩ := Option.bind_eq_some_iff.mp hrun
  obtain ⟨vc', hvc', heq⟩ := Option.map_eq_some_iff.mp hnext
  rw [Prod.mk.injEq, Prod.mk.injEq] at heq
  exact ⟨vc, vc', .runAll (.init rfl) hvc, heq.1, hvc', heq.2.1, heq.2.2⟩

end VirtualCommunicator

end RayPlatform
