import RayPlatform.Routing.RouteTables

/-!
# GraphImplementationGroup

The ranks in groups of `m_coresPerNode`, the last of which may be smaller. The first
rank of a group is its intermediate rank: a rank is connected with its own
intermediate rank and with the ranks of its group, and the intermediate ranks are
connected with each other. The routes come from the search of all graphs, and the
way over the two intermediate ranks bounds their lengths.
-/

namespace RayPlatform

open Lib
open MessageRouter (IsRank)

namespace GraphImplementationGroup

open GraphImplementation

def m_coresPerNode : Int32 := 8

/-- Get an intermediate for the type group -/
def getIntermediateRank (rank : Rank) : Rank :=
  rank - rank % m_coresPerNode

/-- The connections from a source to a destination, as far as there are any. -/
def connectionsBetween (source destination : Rank) : List (Rank × Rank) :=
  let intermediateSource := getIntermediateRank source
  let intermediateDestination := getIntermediateRank destination
  -- an intermediate node can connect with any intermediate node
  (if destination = intermediateDestination ∧ source = intermediateSource then
    [(source, intermediateDestination)] else []) ++
  -- if the source is the intermediate destination, add a link
  (if source = intermediateDestination then [(source, destination)] else []) ++
  -- peers in the same group are allowed to connect
  (if intermediateSource = intermediateDestination then [(source, destination)] else [])

/-- The connections in the order in which they are made. -/
def connectionsOf (n : Int32) : List (Rank × Rank) :=
  (ranks n).flatMap fun source =>
    (source, getIntermediateRank source) :: (ranks n).flatMap (connectionsBetween source)

def makeConnections (n : Int32) : Option GraphImplementation :=
  (connectionsOf n).foldlM connect (blank.resize n)

variable {n : Int32} {s d : Rank}

theorem getIntermediateRank_ofNat {k : Nat} (hk : k < 2 ^ 31) :
    getIntermediateRank (Int32.ofNat k) = Int32.ofNat (k - k % 8) := by
  rw [getIntermediateRank, m_coresPerNode, Int32.ofNat_sub _ _ (Nat.mod_le ..),
    Int32.ofNat_mod hk (by decide)]
  rfl

theorem isRank_intermediate (hs : IsRank n s) : IsRank n (getIntermediateRank s) := by
  obtain ⟨k, hk, rfl⟩ := isRank_iff.mp hs
  have hn := Int32.toNatClampNeg_lt n
  rw [getIntermediateRank_ofNat (by omega)]
  exact isRank_ofNat (by omega)

theorem intermediate_intermediate (hs : IsRank n s) :
    getIntermediateRank (getIntermediateRank s) = getIntermediateRank s := by
  obtain ⟨k, hk, rfl⟩ := isRank_iff.mp hs
  have hn := Int32.toNatClampNeg_lt n
  rw [getIntermediateRank_ofNat (by omega), getIntermediateRank_ofNat (by omega)]
  congr 1
  omega

theorem connectionsBetween_ends {e : Rank × Rank} (hs : IsRank n s) (hd : IsRank n d)
    (he : e ∈ connectionsBetween s d) : IsRank n e.1 ∧ IsRank n e.2 := by
  simp only [connectionsBetween, List.mem_append, List.mem_ite_nil_right, List.mem_singleton]
    at he
  obtain (⟨-, rfl⟩ | ⟨-, rfl⟩) | ⟨-, rfl⟩ := he
  · exact ⟨hs, isRank_intermediate hd⟩
  · exact ⟨hs, hd⟩
  · exact ⟨hs, hd⟩

theorem connectionsOf_ends {e : Rank × Rank} (he : e ∈ connectionsOf n) :
    IsRank n e.1 ∧ IsRank n e.2 := by
  simp only [connectionsOf, List.mem_flatMap, List.mem_cons, mem_ranks] at he
  obtain ⟨source, hsource, rfl | ⟨destination, hdestination, he⟩⟩ := he
  · exact ⟨hsource, isRank_intermediate hsource⟩
  · exact connectionsBetween_ends hsource hdestination he

theorem mem_connectionsOf {e : Rank × Rank} (hs : IsRank n s) (hd : IsRank n d)
    (he : e ∈ connectionsBetween s d) : e ∈ connectionsOf n := by
  simp only [connectionsOf, List.mem_flatMap, List.mem_cons, mem_ranks]
  exact ⟨s, hs, .inr ⟨d, hd, he⟩⟩

/-- The connections of a rank with itself and with its intermediate rank, in both directions,
and of the intermediate ranks with each other. -/
structure Grouped (n : Int32) (connected : Rank → Rank → Prop) : Prop where
  self : ∀ s, IsRank n s → connected s s
  up : ∀ s, IsRank n s → connected s (getIntermediateRank s)
  across : ∀ s d, IsRank n s → IsRank n d →
    connected (getIntermediateRank s) (getIntermediateRank d)
  down : ∀ d, IsRank n d → connected (getIntermediateRank d) d

theorem grouped_connectionsOf : Grouped n fun a b => (a, b) ∈ connectionsOf n := by
  constructor
  · intro s hs
    exact mem_connectionsOf hs hs (by simp [connectionsBetween])
  · intro s hs
    simp only [connectionsOf, List.mem_flatMap, List.mem_cons, mem_ranks]
    exact ⟨s, hs, .inl rfl⟩
  · intro s d hs hd
    refine mem_connectionsOf (isRank_intermediate hs) (isRank_intermediate hd) ?_
    simp [connectionsBetween, intermediate_intermediate hs, intermediate_intermediate hd]
  · intro d hd
    exact mem_connectionsOf (isRank_intermediate hd) hd (by simp [connectionsBetween])

theorem makeConnections_spec (n : Int32) :
    ∃ g, makeConnections n = some g ∧ g.m_size = n ∧ g.Fresh ∧
      Grouped n fun a b => connects g.m_outcomingConnections a b = true := by
  obtain ⟨hlinked, hempty⟩ := linked_resize n
  obtain ⟨outcoming, incoming, hmake, hlinked', hedges⟩ :=
    connectAll_spec (connectionsOf n) (blank.resize n) hlinked fun e he => connectionsOf_ends he
  have hin : ∀ a b, (a, b) ∈ connectionsOf n → connects outcoming a b = true :=
    fun a b hab => (hedges a b).mpr (.inl hab)
  have hgrouped := grouped_connectionsOf (n := n)
  refine ⟨_, hmake, rfl, ⟨hlinked', rfl, rfl⟩, fun s hs => hin _ _ (hgrouped.self s hs),
    fun s hs => hin _ _ (hgrouped.up s hs),
    fun s d hs hd => hin _ _ (hgrouped.across s d hs hd),
    fun d hd => hin _ _ (hgrouped.down d hd)⟩

/-- Three hops: to the intermediate rank, to that of the destination, to the destination. -/
theorem Grouped.walk {connected : Rank → Rank → Prop} (h : Grouped n connected)
    (hs : IsRank n s) (hd : IsRank n d) : Walk connected s 3 d :=
  .hop (.hop (.hop .start (h.up s hs)) (h.across s d hs hd)) (h.down d hd)

end GraphImplementationGroup

end RayPlatform
