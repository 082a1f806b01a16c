import RayPlatform.Routing.TupleEnumeration

/-!
# GraphImplementationExperimental

The vertices are the words of which any `m_zone` consecutive symbols are pairwise
distinct, with a zone of 3 or 4. Hops are those of the Kautz graph: the current word is
shifted and the symbol of the destination that follows the longest overlap is appended.
With a zone above 2 the new word need not be a vertex. Its lookup then misses, and the
hop leads to rank 0.

`RoutesWell` says that all the hops of a route are good ones. `experimental_routing_iff`
says for which ends this is so: the journey from one word to the other has to keep any
`m_zone` consecutive symbols apart.
-/

namespace RayPlatform

open Lib
open MessageRouter (IsRank)
open Nat (ofDigits)

structure GraphImplementationExperimental where
  m_zone : Nat
  m_degree : Int32
  m_base : Int32
  m_diameter : Nat
  m_size : Int32
  m_graphToExperimental : List Tuple
  m_kautzToGraph : List (Int32 × Int32)
  m_outcomingConnections : List (List Rank)

namespace GraphImplementationExperimental

/-- What `configureGraph` sets. -/
structure Configuration where
  m_zone : Nat
  m_degree : Int32
  m_base : Int32
  m_diameter : Nat
  m_size : Int32
  deriving DecidableEq, Repr

/-- The symbols of each window of `m_zone` symbols are compared with each other. -/
def isAExperimentalVertex (m_diameter m_zone : Nat) (vertex : Tuple) : Bool :=
  (List.range (m_diameter - m_zone + 1)).all fun i =>
    (List.range m_zone).all fun j =>
      (List.range' (j + 1) (m_zone - (j + 1))).all fun k =>
        vertex.digit (i + j) != vertex.digit (i + k)

/-- The number of vertices for a degree, a zone and a diameter. -/
def countVertices (degree : Int32) (zone diameter : Nat) : Int32 :=
  (List.range' 1 (zone - 1)).foldl (fun vertices p => vertices * (degree + Int32.ofNat p)) 1 *
    getPower degree (diameter - (zone - 1))

/-- The match for one degree and one zone: the diameters go up to 9. -/
def matchZone (n degree : Int32) (zone : Nat) : Option Configuration := do
  let diameter ← (List.range' zone (10 - zone)).find? fun diameter =>
    countVertices degree zone diameter == n
  return {
    m_zone := zone
    m_degree := degree
    m_base := degree + Int32.ofNat zone - 1
    m_diameter := diameter
    m_size := n }

/-- Degrees from 2 to 1024, and for each of them the zones 3 and 4. -/
def degreesAndZones : List (Nat × Nat) :=
  (List.range' 2 1023).flatMap fun degree => [(degree, 3), (degree, 4)]

def configureGraph (n : Int32) : Configuration :=
  (lastMatch (fun (degree, zone) => matchZone n (Int32.ofNat degree) zone) degreesAndZones).getD
    { m_zone := 0, m_degree := 0, m_base := -1, m_diameter := 0, m_size := 0 }

def isValid (n : Int32) : Bool :=
  (configureGraph n).m_base != -1

/-- Just verify the overlap property. -/
def computeConnection (m_diameter : Nat) (m_graphToExperimental : List Tuple)
    (source destination : Rank) : Option Bool :=
  overlapConnection m_diameter m_graphToExperimental source destination

/-- The enumeration tries at most `fuel` numbers. -/
def makeConnections (fuel : Nat) (n : Int32) : Option GraphImplementationExperimental := do
  let configuration := configureGraph n
  let tables ← VertexTable.enumerate
    (isAExperimentalVertex configuration.m_diameter configuration.m_zone)
    configuration.m_base configuration.m_diameter n fuel 0 .empty
  return {
    m_zone := configuration.m_zone
    m_degree := configuration.m_degree
    m_base := configuration.m_base
    m_diameter := configuration.m_diameter
    m_size := configuration.m_size
    m_graphToExperimental := tables.vertices
    m_kautzToGraph := tables.numbers
    m_outcomingConnections := outcomingConnections configuration.m_size
      (computeConnection configuration.m_diameter tables.vertices) }

/-- The lookup may insert the number of the next tuple in the map. -/
def computeNextRankInRoute (g : GraphImplementationExperimental)
    (_source destination current : Rank) : Option (Rank × GraphImplementationExperimental) := do
  let next ← nextTuple g.m_diameter g.m_graphToExperimental destination current
  let inBase10 := convertToBase10 g.m_base g.m_diameter next
  let (nextRank, m_kautzToGraph) := subscript g.m_kautzToGraph inBase10
  return (nextRank, { g with m_kautzToGraph := m_kautzToGraph })

def getNextRankInRoute (g : GraphImplementationExperimental) (source destination rank : Rank) :
    Option (Rank × GraphImplementationExperimental) :=
  g.computeNextRankInRoute source destination rank

def isConnected (g : GraphImplementationExperimental) (source destination : Rank) : Bool :=
  RayPlatform.isConnected g.m_outcomingConnections source destination

/-- The symbols of a rank. -/
def word (g : GraphImplementationExperimental) (r : Rank) : List Nat :=
  rankWord g.m_diameter g.m_graphToExperimental r

/-! ## The configuration -/

theorem isAExperimentalVertex_iff {d z : Nat} {t : Tuple} (hz : 0 < z) (hd : z ≤ d) :
    isAExperimentalVertex d z t = true ↔ Spread z (t.word d) := by
  simp only [isAExperimentalVertex, List.all_eq_true, List.mem_range, List.mem_range'_1,
    bne_iff_ne]
  rw [spread_iff]
  constructor
  · intro h i j hij hj hlt
    rw [Tuple.length_word] at hj
    rw [Tuple.getElem_word, Tuple.getElem_word, Ne, UInt8.toNat_inj]
    -- a window that holds both symbols: the one at `i`, or the last one
    by_cases hi : i ≤ d - z
    · have := h i (by omega) 0 hz (j - i) (by omega)
      rwa [Nat.add_zero, show i + (j - i) = j by omega] at this
    · have := h (d - z) (by omega) (i - (d - z)) (by omega) (j - (d - z)) (by omega)
      rwa [show d - z + (i - (d - z)) = i by omega, show d - z + (j - (d - z)) = j by omega] at this
  · intro h i hi j hj k hk
    have := h (i + j) (i + k) (by omega) (by rw [Tuple.length_word]; omega) (by omega)
    rwa [Tuple.getElem_word, Tuple.getElem_word, Ne, UInt8.toNat_inj] at this

/-- The number of vertices, which `configureGraph` compares with the number of ranks. -/
theorem countVertices_eq {k z d : Nat} (hz : z = 3 ∨ z = 4) (hd : z ≤ d) :
    countVertices (Int32.ofNat k) z d =
      Int32.ofNat (rankOf z (k + z - 1) d ((k + z - 1) ^ d)) := by
  obtain ⟨e, rfl⟩ : ∃ e, d = e + (z - 1) := ⟨d - (z - 1), by omega⟩
  rw [rankOf_pow, countVertices, getPower_ofNat, Nat.add_sub_cancel]
  -- behind the first `z - 1` symbols, each leaves `k` possibilities
  have hrest : ∀ i ∈ Finset.range e, k + z - 1 - min (i + (z - 1)) (z - 1) = k := by
    intro i _
    omega
  rcases hz with rfl | rfl
  · rw [Finset.prod_range_succ', Finset.prod_range_succ', Finset.prod_congr rfl hrest,
      Finset.prod_const, Finset.card_range]
    have hnumber : k ^ e * (k + 3 - 1 - min (0 + 1) (3 - 1)) * (k + 3 - 1 - min 0 (3 - 1)) =
        (k + 1) * (k + 2) * k ^ e := by
      rw [show k + 3 - 1 - min (0 + 1) (3 - 1) = k + 1 by omega,
        show k + 3 - 1 - min 0 (3 - 1) = k + 2 by omega]
      ring
    rw [hnumber, Int32.ofNat_mul, Int32.ofNat_mul, Int32.ofNat_add, Int32.ofNat_add]
    exact congrArg (· * _) (congrArg (· * _) (Int32.one_mul _))
  · rw [Finset.prod_range_succ', Finset.prod_range_succ', Finset.prod_range_succ',
      Finset.prod_congr rfl hrest, Finset.prod_const, Finset.card_range]
    have hnumber : k ^ e * (k + 4 - 1 - min (0 + 1 + 1) (4 - 1)) *
        (k + 4 - 1 - min (0 + 1) (4 - 1)) * (k + 4 - 1 - min 0 (4 - 1)) =
          (k + 1) * (k + 2) * (k + 3) * k ^ e := by
      rw [show k + 4 - 1 - min (0 + 1 + 1) (4 - 1) = k + 1 by omega,
        show k + 4 - 1 - min (0 + 1) (4 - 1) = k + 2 by omega,
        show k + 4 - 1 - min 0 (4 - 1) = k + 3 by omega]
      ring
    rw [hnumber, Int32.ofNat_mul, Int32.ofNat_mul, Int32.ofNat_mul, Int32.ofNat_add,
      Int32.ofNat_add, Int32.ofNat_add]
    exact congrArg (· * _) (congrArg (· * _) (congrArg (· * _) (Int32.one_mul _)))

/-- No value of the configuration overflows: symbols fit the cells of a tuple, and the
numbers of the words an `int`. -/
structure Configuration.Fits (c : Configuration) : Prop where
  symbols : c.m_base ≤ 256
  space : c.m_base.toNatClampNeg ^ c.m_diameter < 2 ^ 31

/-- An accepted number of ranks is the number of words that are vertices. -/
structure Accepts (n : Int32) (c : Configuration) (z b d : Nat) : Prop where
  zone : z = 3 ∨ z = 4
  zone_le : z ≤ d
  cells : d ≤ 16
  two_le : 2 ≤ b
  symbols : b ≤ 256
  space : b ^ d < 2 ^ 31
  size : n = Int32.ofNat (rankOf z b d (b ^ d))
  m_zone : c.m_zone = z
  m_base : c.m_base = Int32.ofNat b
  m_diameter : c.m_diameter = d
  m_size : c.m_size = n

theorem configureGraph_spec {n : Int32} {c : Configuration} (hc : configureGraph n = c)
    (haccepted : c.m_base ≠ -1) (hfits : c.Fits) : ∃ z b d, Accepts n c z b d := by
  rw [configureGraph] at hc
  cases hfound : lastMatch (fun (degree, zone) => matchZone n (Int32.ofNat degree) zone)
    degreesAndZones with
  | none =>
      rw [hfound] at hc
      subst hc
      exact absurd rfl haccepted
  | some found =>
      rw [hfound] at hc
      obtain rfl : found = c := hc
      obtain ⟨⟨degree, zone⟩, hmem, hmatch⟩ := exists_of_lastMatch hfound
      obtain ⟨diameter, hdiameter, hc⟩ := Option.bind_eq_some_iff.mp hmatch
      obtain rfl := Option.some.inj hc
      have hcount := List.find?_some hdiameter
      have hrange := List.mem_of_find?_eq_some hdiameter
      rw [List.mem_range'_1] at hrange
      obtain ⟨hdegree, hzone⟩ : 2 ≤ degree ∧ degree ≤ 1024 ∧ (zone = 3 ∨ zone = 4) := by
        obtain ⟨k, hk, hpair⟩ := List.mem_flatMap.mp hmem
        rw [List.mem_range'_1] at hk
        simp only [List.mem_cons, Prod.mk.injEq, List.not_mem_nil, or_false] at hpair
        omega
      have hzone := hzone.2
      have hbase : Int32.ofNat degree + Int32.ofNat zone - 1 = Int32.ofNat (degree + zone - 1) := by
        rw [Int32.ofNat_sub _ _ (by omega), Int32.ofNat_add]
        rfl
      obtain ⟨hsymbols, hspace⟩ := hfits
      simp only [hbase] at hsymbols hspace
      rw [Int32.toNatClampNeg_ofNat_of_lt (by omega)] at hspace
      rw [countVertices_eq hzone hrange.1, beq_iff_eq] at hcount
      exact ⟨zone, degree + zone - 1, diameter, hzone, hrange.1, by omega, by omega,
        (Int32.ofNat_le_iff_le (b := 256) (by omega) (by omega)).mp hsymbols, hspace, hcount.symm,
        rfl, hbase, rfl, rfl⟩

/-! ## The graph -/

/-- A graph with its tables, after some lookups that missed. -/
structure Built (n : Int32) (z b d : Nat) (numbers : List (Int32 × Int32))
    (g : GraphImplementationExperimental) : Prop where
  zone_pos : 0 < z
  zone_le : z ≤ d
  m_zone : g.m_zone = z
  m_base : g.m_base = Int32.ofNat b
  m_diameter : g.m_diameter = d
  tables : VertexTable.Complete z b d n { vertices := g.m_graphToExperimental, numbers := numbers }
  missed : Missed numbers g.m_kautzToGraph
  connections : g.m_outcomingConnections =
    outcomingConnections n (overlapConnection d g.m_graphToExperimental)

theorem makeConnections_spec {n : Int32} {c : Configuration} {z b d : Nat}
    (hc : configureGraph n = c) (h : Accepts n c z b d) :
    ∃ g, (∀ fuel ≥ b ^ d, makeConnections fuel n = some g) ∧
      Built n z b d g.m_kautzToGraph g := by
  obtain ⟨hzone, hle, hcells, htwo, hsymbols, hspace, hn, hcz, hcb, hcd, hcn⟩ := h
  obtain ⟨tables, htables, hcomplete⟩ := VertexTable.enumerate_complete htwo hsymbols hcells
    hspace hn fun t => isAExperimentalVertex_iff (by omega) hle
  simp only [makeConnections, hc]
  obtain ⟨m_zone, m_degree, m_base, m_diameter, m_size⟩ := c
  subst hcz hcb hcd hcn
  exact ⟨{
    m_zone := m_zone
    m_degree := m_degree
    m_base := Int32.ofNat b
    m_diameter := m_diameter
    m_size := m_size
    m_graphToExperimental := tables.vertices
    m_kautzToGraph := tables.numbers
    m_outcomingConnections := outcomingConnections m_size
      (computeConnection m_diameter tables.vertices) },
    fun fuel hfuel => by rw [htables fuel hfuel]; rfl,
    by omega, hle, rfl, rfl, rfl, hcomplete, .refl _, rfl⟩

/-- A state of the graph: its maps after any hops that were asked for. -/
inductive Asked (g : GraphImplementationExperimental) : GraphImplementationExperimental → Prop
  | built : Asked g g
  | hop {g₁ g₂ : GraphImplementationExperimental} {source destination current next : Rank} :
      Asked g g₁ → g₁.getNextRankInRoute source destination current = some (next, g₂) → Asked g g₂

/-- A hop to a vertex that the map knows, over an edge. -/
structure GoodHop (g : GraphImplementationExperimental) (source destination current next : Rank)
    (g' : GraphImplementationExperimental) : Prop where
  hop : g.getNextRankInRoute source destination current = some (next, g')
  vertex : ∃ t, nextTuple g.m_diameter g.m_graphToExperimental destination current = some t ∧
    isAExperimentalVertex g.m_diameter g.m_zone t = true ∧
    g.m_kautzToGraph.lookup (convertToBase10 g.m_base g.m_diameter t) = some next
  edge : g.isConnected current next = true

/-- From here, all hops are good and the destination is reached. -/
inductive RoutesWell (source destination : Rank) :
    GraphImplementationExperimental → Rank → Prop
  | arrived (g : GraphImplementationExperimental) : RoutesWell source destination g destination
  | hop {g g' : GraphImplementationExperimental} {current next : Rank} :
      current ≠ destination → GoodHop g source destination current next g' →
        RoutesWell source destination g' next → RoutesWell source destination g current

namespace Built

variable {n : Int32} {z b d : Nat} {numbers : List (Int32 × Int32)}
  {g g' : GraphImplementationExperimental}

/-- A hop changes nothing but the map. -/
theorem next (h : Built n z b d numbers g) {source destination current r : Rank}
    (hnext : g.getNextRankInRoute source destination current = some (r, g')) :
    Built n z b d numbers g' ∧ g'.m_graphToExperimental = g.m_graphToExperimental := by
  obtain ⟨t, -, hg⟩ := Option.bind_eq_some_iff.mp hnext
  obtain ⟨-, rfl⟩ := Prod.mk.inj (Option.some.inj hg)
  exact ⟨{ h with missed := h.missed.subscript _ }, rfl⟩

theorem asked {g₀ : GraphImplementationExperimental} (h : Built n z b d numbers g₀)
    (hasked : Asked g₀ g) :
    Built n z b d numbers g ∧ g.m_graphToExperimental = g₀.m_graphToExperimental := by
  induction hasked with
  | built => exact ⟨h, rfl⟩
  | hop _ hnext ih =>
      obtain ⟨hbuilt, hvertices⟩ := ih
      obtain ⟨hbuilt', hvertices'⟩ := hbuilt.next hnext
      exact ⟨hbuilt', hvertices'.trans hvertices⟩

/-- A good hop slides the words, and leads to a vertex. -/
theorem slide_of_goodHop (h : Built n z b d numbers g) {source destination current r : Rank}
    (hdestination : IsRank n destination) (hcurrent : IsRank n current)
    (hne : current ≠ destination) (hhop : GoodHop g source destination current r g') :
    IsRank n r ∧ rankWord d g.m_graphToExperimental r =
      slide (rankWord d g.m_graphToExperimental current)
        (rankWord d g.m_graphToExperimental destination) := by
  obtain rfl := h.m_diameter
  obtain rfl := h.m_zone
  obtain ⟨t, ht, hvertex, hlookup⟩ := hhop.vertex
  obtain ⟨t', ht', hslide⟩ := h.tables.tells.nextTuple h.tables.cells hcurrent hdestination hne
  obtain rfl : t' = t := Option.some.inj (ht'.symm.trans ht)
  have hsymbols : ∀ x ∈ t'.word g.m_diameter, x < b := by
    rw [hslide]
    exact h.tables.slide_lt hcurrent hdestination
  obtain ⟨r', hr', hlookup', hword⟩ := h.tables.lookup_vertex hsymbols
    ((isAExperimentalVertex_iff h.zone_pos h.zone_le).mp hvertex)
  have hfound := h.missed.found hlookup'
  rw [← h.m_base, hlookup] at hfound
  obtain rfl := Option.some.inj hfound
  exact ⟨hr', hword.trans hslide⟩

/-- A hop whose word is a vertex is good. -/
theorem goodHop (h : Built n z b d numbers g) (source : Rank) {destination current : Rank}
    (hdestination : IsRank n destination) (hcurrent : IsRank n current)
    (hne : current ≠ destination)
    (hspread : Spread z (slide (rankWord d g.m_graphToExperimental current)
      (rankWord d g.m_graphToExperimental destination))) :
    ∃ r, GoodHop g source destination current r g := by
  obtain rfl := h.m_diameter
  obtain rfl := h.m_zone
  obtain ⟨t, ht, hslide⟩ := h.tables.tells.nextTuple h.tables.cells hcurrent hdestination hne
  have hsymbols : ∀ x ∈ t.word g.m_diameter, x < b := by
    rw [hslide]
    exact h.tables.slide_lt hcurrent hdestination
  rw [← hslide] at hspread
  obtain ⟨r, hr, hlookup, hword⟩ := h.tables.lookup_vertex hsymbols hspread
  have hfound := h.missed.found hlookup
  rw [← h.m_base] at hfound
  refine ⟨r, ?_, ⟨t, ht, (isAExperimentalVertex_iff h.zone_pos h.zone_le).mpr hspread, hfound⟩, ?_⟩
  · rw [getNextRankInRoute, computeNextRankInRoute, ht]
    simp only [Option.bind_eq_bind, Option.bind_some, subscript_found hfound]
    rfl
  · rw [isConnected, h.connections]
    exact h.tables.tells.edge hcurrent hr hdestination hne (hword.trans hslide)

/-- Any other hop leads to rank 0. -/
theorem zeroHop (h : Built n z b d numbers g) (source : Rank) {destination current : Rank}
    (hdestination : IsRank n destination) (hcurrent : IsRank n current)
    (hne : current ≠ destination)
    (hspread : ¬ Spread z (slide (rankWord d g.m_graphToExperimental current)
      (rankWord d g.m_graphToExperimental destination))) :
    ∃ g', g.getNextRankInRoute source destination current = some (0, g') := by
  obtain rfl := h.m_diameter
  obtain ⟨t, ht, hslide⟩ := h.tables.tells.nextTuple h.tables.cells hcurrent hdestination hne
  have hsymbols : ∀ x ∈ t.word g.m_diameter, x < b := by
    rw [hslide]
    exact h.tables.slide_lt hcurrent hdestination
  rw [← hslide] at hspread
  have hzero := h.missed.subscript_zero (h.tables.lookup_missing hsymbols hspread)
  rw [← h.m_base] at hzero
  rw [getNextRankInRoute, computeNextRankInRoute, ht]
  exact ⟨_, congrArg (fun r => some (r, _)) hzero⟩

theorem words_ne (h : Built n z b d numbers g) {current destination : Rank}
    (hcurrent : IsRank n current) (hdestination : IsRank n destination)
    (hne : current ≠ destination) :
    (rankWord d g.m_graphToExperimental current).length =
        (rankWord d g.m_graphToExperimental destination).length ∧
      rankWord d g.m_graphToExperimental current ≠
        rankWord d g.m_graphToExperimental destination := by
  have htells : Tells n d g.m_graphToExperimental := h.tables.tells
  exact ⟨by rw [htells.length hcurrent, htells.length hdestination],
    fun heq => hne (htells.injective _ _ hcurrent hdestination heq)⟩

/-- The first window of a journey is the current vertex, so that only the rest matters. -/
theorem spread_journey_iff (h : Built n z b d numbers g) {current destination : Rank}
    (hcurrent : IsRank n current) (hdestination : IsRank n destination)
    (hne : current ≠ destination) :
    Spread z (Lib.journey (rankWord d g.m_graphToExperimental current)
        (rankWord d g.m_graphToExperimental destination)) ↔
      Spread z (Lib.journey (slide (rankWord d g.m_graphToExperimental current)
          (rankWord d g.m_graphToExperimental destination))
        (rankWord d g.m_graphToExperimental destination)) := by
  obtain ⟨hlen, hwords⟩ := h.words_ne hcurrent hdestination hne
  have hlength := h.tables.tells.length hcurrent
  have hpos := h.zone_pos
  have hle := h.zone_le
  rw [journey_slide hlen hwords]
  exact spread_tail_iff (h.tables.spread hcurrent) (prefix_journey _ _)
    (hle.trans_eq hlength.symm) (by omega)

/-- Each hop of a good route leads to a vertex, so that all windows of the journey are
windows of vertices. -/
theorem spread_of_routesWell {source destination : Rank} {current : Rank}
    (hroutes : RoutesWell source destination g current) (h : Built n z b d numbers g)
    (hdestination : IsRank n destination) (hcurrent : IsRank n current) :
    Spread z (Lib.journey (rankWord d g.m_graphToExperimental current)
      (rankWord d g.m_graphToExperimental destination)) := by
  induction hroutes with
  | arrived g =>
      rw [journey_self]
      exact h.tables.spread hdestination
  | hop hne hgood _ ih =>
      obtain ⟨hbuilt, hvertices⟩ := h.next hgood.hop
      obtain ⟨hrank, hslide⟩ := h.slide_of_goodHop hdestination hcurrent hne hgood
      have hrest := ih hbuilt hrank
      rw [hvertices, hslide] at hrest
      exact (h.spread_journey_iff hcurrent hdestination hne).mpr hrest

/-- Where the journey is spread each hop leads to a vertex, and the overlap grows until the
destination is reached. -/
theorem routesWell_of_spread (h : Built n z b d numbers g) (source : Rank) {destination : Rank}
    (hdestination : IsRank n destination) :
    ∀ missing current, IsRank n current →
      d - rankOverlap d g.m_graphToExperimental current destination = missing →
      Spread z (Lib.journey (rankWord d g.m_graphToExperimental current)
        (rankWord d g.m_graphToExperimental destination)) →
      RoutesWell source destination g current := by
  have htells : Tells n d g.m_graphToExperimental := h.tables.tells
  intro missing
  induction missing with
  | zero =>
      intro current hcurrent hmissing _
      have hle := htells.rankOverlap_le (r := current) hdestination
      have hfull : rankOverlap d g.m_graphToExperimental current destination = d := by omega
      obtain rfl := (htells.rankOverlap_eq_iff hcurrent hdestination).mp hfull
      exact .arrived g
  | succ missing ih =>
      intro current hcurrent hmissing hspread
      have hne : current ≠ destination := by
        intro heq
        have := (htells.rankOverlap_eq_iff hcurrent hdestination).mpr heq
        omega
      rw [h.spread_journey_iff hcurrent hdestination hne] at hspread
      obtain ⟨r, hgood⟩ := h.goodHop source hdestination hcurrent hne
        (hspread.initial (prefix_journey _ _))
      obtain ⟨hrank, hslide⟩ := h.slide_of_goodHop hdestination hcurrent hne hgood
      have hgrown := htells.rankOverlap_slide hcurrent hdestination hne hslide
      refine .hop hne hgood (ih r hrank (by omega) ?_)
      rw [hslide]
      exact hspread

/-- All hops are good if and only if the journey is spread. -/
theorem routesWell_iff (h : Built n z b d numbers g) {source destination : Rank}
    (hsource : IsRank n source) (hdestination : IsRank n destination) :
    RoutesWell source destination g source ↔
      Spread z (Lib.journey (rankWord d g.m_graphToExperimental source)
        (rankWord d g.m_graphToExperimental destination)) :=
  ⟨fun hroutes => spread_of_routesWell hroutes h hdestination hsource,
    h.routesWell_of_spread source hdestination _ source hsource rfl⟩

end Built

/-! ## Routing -/

/-- The word of the source, continued by what the overlap leaves of the destination's, keeps
any `m_zone` consecutive symbols apart. -/
def Compatible (g : GraphImplementationExperimental) (source destination : Rank) : Prop :=
  Spread g.m_zone (Lib.journey (g.word source) (g.word destination))

/-- Routing in the experimental graph is correct for exactly those pairs of ranks whose
journey is spread, whatever hops were asked for before. -/
theorem experimental_routing_iff {n : Int32} {c : Configuration} (hc : configureGraph n = c)
    (haccepted : c.m_base ≠ -1) (hfits : c.Fits) :
    ∃ g, (∀ fuel ≥ c.m_base.toNatClampNeg ^ c.m_diameter, makeConnections fuel n = some g) ∧
      ∀ g', Asked g g' → ∀ source destination, IsRank n source → IsRank n destination →
        source ≠ destination →
          (RoutesWell source destination g' source ↔ Compatible g source destination) := by
  obtain ⟨z, b, d, h⟩ := configureGraph_spec hc haccepted hfits
  obtain ⟨g, hg, hbuilt⟩ := makeConnections_spec hc h
  have hbase : c.m_base.toNatClampNeg = b := by
    have hle := Nat.le_self_pow (by have := h.zone; have := h.zone_le; omega : d ≠ 0) b
    have hspace := h.space
    rw [h.m_base, Int32.toNatClampNeg_ofNat_of_lt (by omega)]
  rw [hbase, h.m_diameter]
  refine ⟨g, hg, fun g' hasked source destination hsource hdestination _ => ?_⟩
  obtain ⟨hbuilt', hvertices⟩ := hbuilt.asked hasked
  rw [hbuilt'.routesWell_iff hsource hdestination, hvertices, Compatible, word, word,
    hbuilt.m_zone, hbuilt.m_diameter]

theorem configureGraph_twentyFour : configureGraph 24 =
    { m_zone := 3, m_degree := 2, m_base := 4, m_diameter := 3, m_size := 24 } := by
  decide +kernel

theorem experimental_routing_iff_twentyFour :
    ∃ g, (∀ fuel ≥ 64, makeConnections fuel 24 = some g) ∧
      ∀ g', Asked g g' → ∀ source destination, IsRank 24 source → IsRank 24 destination →
        source ≠ destination →
          (RoutesWell source destination g' source ↔ Compatible g source destination) :=
  experimental_routing_iff configureGraph_twentyFour (by decide) ⟨by decide, by decide⟩

/-- From 0,1,2 to 1,0,3 nothing overlaps, and the shifted tuple 1,2,1 is not a vertex. The
hop leads to rank 0, which is 2,1,0. -/
theorem experimental_routing_misses :
    ∃ g, (∀ fuel ≥ 64, makeConnections fuel 24 = some g) ∧ IsRank 24 14 ∧ IsRank 24 18 ∧
      (14 : Rank) ≠ 18 ∧ g.word 14 = [0, 1, 2] ∧ g.word 18 = [1, 0, 3] ∧
      (∃ g', g.getNextRankInRoute 14 18 14 = some (0, g')) ∧ ¬ RoutesWell 14 18 g 14 := by
  have haccepts : Accepts 24 (configureGraph 24) 3 4 3 := by
    rw [configureGraph_twentyFour]
    exact ⟨.inl rfl, by decide, by decide, by decide, by decide, by decide,
      by rw [rankOf_pow]; rfl, rfl, rfl, rfl, rfl⟩
  obtain ⟨g, hg, h⟩ := makeConnections_spec rfl haccepts
  have hsource : (14 : Rank) = Int32.ofNat (rankOf 3 4 3 36) := by decide +kernel
  have hdestination : (18 : Rank) = Int32.ofNat (rankOf 3 4 3 49) := by decide +kernel
  have h14 : IsRank 24 14 := by
    rw [hsource]
    exact h.tables.isRank (by decide) (by decide)
  have h18 : IsRank 24 18 := by
    rw [hdestination]
    exact h.tables.isRank (by decide) (by decide)
  have hword14 : rankWord 3 g.m_graphToExperimental 14 = [0, 1, 2] := by
    rw [hsource]
    exact h.tables.rankWord_ofNat (by decide) (by decide)
  have hword18 : rankWord 3 g.m_graphToExperimental 18 = [1, 0, 3] := by
    rw [hdestination]
    exact h.tables.rankWord_ofNat (by decide) (by decide)
  refine ⟨g, hg, h14, h18, by decide, ?_, ?_, h.zeroHop 14 h18 h14 (by decide) ?_, ?_⟩
  · rw [word, h.m_diameter, hword14]
  · rw [word, h.m_diameter, hword18]
  · rw [hword14, hword18]
    decide
  · rw [h.routesWell_iff h14 h18, hword14, hword18]
    decide

end GraphImplementationExperimental

end RayPlatform
