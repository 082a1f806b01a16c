import RayPlatform.Routing.TupleEnumeration

/-!
# GraphImplementationKautz

The vertices are the words of `m_diameter` symbols out of `m_degree + 1` without two
equal symbols in a row: there are `(k+1)*k^(d-1)` of them for degree `k` and diameter
`d`. Ranks are given in the order of the numbers of the words.

A hop shifts the current word and appends the symbol of the destination that follows
the longest overlap. The new word has no equal neighbours either: the journey from one
word to the other has none (`Spread.journey_two`), because a longer overlap would have
been found. So the lookup of its rank never misses, and the map stays as it was built.
-/

namespace RayPlatform

open Lib
open MessageRouter (IsRank)
open Nat (ofDigits)

structure GraphImplementationKautz where
  m_degree : Int32
  m_base : Int32
  m_diameter : Nat
  m_size : Int32
  m_graphToKautz : List Tuple
  m_kautzToGraph : List (Int32 × Int32)
  m_outcomingConnections : List (List Rank)

namespace GraphImplementationKautz

/-- What `configureGraph` sets. -/
structure Configuration where
  m_degree : Int32
  m_base : Int32
  m_diameter : Nat
  m_size : Int32
  deriving DecidableEq, Repr

/-- A Kautz vertex has no identical consecutive symbols. -/
def isAKautzVertex (m_diameter : Nat) (vertex : Tuple) : Bool :=
  (List.range (m_diameter - 1)).all fun i => vertex.digit i != vertex.digit (i + 1)

/-- The match for one degree: the diameters are 2 to 9. -/
def matchDegree (n degree : Int32) : Option Configuration := do
  let diameter ← (List.range' 2 8).find? fun diameter =>
    (degree + 1) * getPower degree (diameter - 1) == n
  return { m_degree := degree, m_base := degree + 1, m_diameter := diameter, m_size := n }

/-- `for(int degree=2;degree<=1024;degree++)` -/
def degrees : List Nat := List.range' 2 1023

def configureGraph (n : Int32) : Configuration :=
  (lastMatch (fun degree => matchDegree n (Int32.ofNat degree)) degrees).getD
    { m_degree := 0, m_base := -1, m_diameter := 0, m_size := 0 }

def isValid (n : Int32) : Bool :=
  (configureGraph n).m_base != -1

/-- Just verify the overlap property. -/
def computeConnection (m_diameter : Nat) (m_graphToKautz : List Tuple)
    (source destination : Rank) : Option Bool :=
  overlapConnection m_diameter m_graphToKautz source destination

/-- The enumeration tries at most `fuel` numbers. -/
def makeConnections (fuel : Nat) (n : Int32) : Option GraphImplementationKautz := do
  let configuration := configureGraph n
  let tables ← VertexTable.enumerate (isAKautzVertex configuration.m_diameter)
    configuration.m_base configuration.m_diameter n fuel 0 .empty
  return {
    m_degree := configuration.m_degree
    m_base := configuration.m_base
    m_diameter := configuration.m_diameter
    m_size := configuration.m_size
    m_graphToKautz := tables.vertices
    m_kautzToGraph := tables.numbers
    m_outcomingConnections := outcomingConnections configuration.m_size
      (computeConnection configuration.m_diameter tables.vertices) }

/-- The lookup may insert the number of the next tuple in the map. -/
def computeNextRankInRoute (g : GraphImplementationKautz) (_source destination current : Rank) :
    Option (Rank × GraphImplementationKautz) := do
  let next ← nextTuple g.m_diameter g.m_graphToKautz destination current
  let inBase10 := convertToBase10 g.m_base g.m_diameter next
  let (nextRank, m_kautzToGraph) := subscript g.m_kautzToGraph inBase10
  return (nextRank, { g with m_kautzToGraph := m_kautzToGraph })

def getNextRankInRoute (g : GraphImplementationKautz) (source destination rank : Rank) :
    Option (Rank × GraphImplementationKautz) :=
  g.computeNextRankInRoute source destination rank

def isConnected (g : GraphImplementationKautz) (source destination : Rank) : Bool :=
  RayPlatform.isConnected g.m_outcomingConnections source destination

/-- The symbols at the end of the current vertex that begin the destination. -/
def overlap (g : GraphImplementationKautz) (current destination : Rank) : Nat :=
  rankOverlap g.m_diameter g.m_graphToKautz current destination

/-! ## The configuration -/

theorem isAKautzVertex_iff {d : Nat} {t : Tuple} :
    isAKautzVertex d t = true ↔ Spread 2 (t.word d) := by
  rw [isAKautzVertex, List.all_eq_true, spread_iff]
  constructor
  · intro h i j hij hj hz
    obtain rfl : j = i + 1 := by omega
    rw [Tuple.length_word] at hj
    have := h i (List.mem_range.mpr (by omega))
    rw [Tuple.getElem_word, Tuple.getElem_word, Ne, UInt8.toNat_inj]
    simpa using this
  · intro h i hi
    have hi := List.mem_range.mp hi
    have := h i (i + 1) (by omega) (by rw [Tuple.length_word]; omega) (by omega)
    rw [Tuple.getElem_word, Tuple.getElem_word, Ne, UInt8.toNat_inj] at this
    simpa using this

/-- A graph that is configured has the base and the size of its degree. -/
theorem configureGraph_spec {n : Int32} (h : (configureGraph n).m_degree ≠ 0) :
    (configureGraph n).m_base = (configureGraph n).m_degree + 1 ∧ (configureGraph n).m_size = n := by
  rw [configureGraph] at h ⊢
  cases hfound : lastMatch (fun degree => matchDegree n (Int32.ofNat degree)) degrees with
  | none =>
      rw [hfound] at h
      exact absurd rfl h
  | some c =>
      obtain ⟨degree, -, hmatch⟩ := exists_of_lastMatch hfound
      obtain ⟨diameter, -, hc⟩ := Option.bind_eq_some_iff.mp hmatch
      obtain rfl := Option.some.inj hc
      exact ⟨rfl, rfl⟩

/-- There are `(k+1)*k^(d-1)` words without two equal symbols in a row. -/
theorem rankOf_two (k e : Nat) : rankOf 2 (k + 1) (e + 1) ((k + 1) ^ (e + 1)) = (k + 1) * k ^ e := by
  rw [rankOf_pow, Finset.prod_range_succ']
  have hrest : ∀ i ∈ Finset.range e, k + 1 - min (i + 1) (2 - 1) = k := by
    intro i _
    omega
  rw [Finset.prod_congr rfl hrest, Finset.prod_const, Finset.card_range]
  simp [Nat.mul_comm]

/-! ## The graph -/

/-- A graph with its tables. -/
structure Built (n : Int32) (k d : Nat) (g : GraphImplementationKautz) : Prop where
  m_base : g.m_base = Int32.ofNat (k + 1)
  m_diameter : g.m_diameter = d
  m_size : g.m_size = n
  tables : VertexTable.Complete 2 (k + 1) d n
    { vertices := g.m_graphToKautz, numbers := g.m_kautzToGraph }
  connections : g.m_outcomingConnections =
    outcomingConnections n (overlapConnection d g.m_graphToKautz)

theorem makeConnections_spec {n : Int32} {k d : Nat} (hk : 2 ≤ k ∧ k ≤ 255) (hd : 2 ≤ d ∧ d ≤ 9)
    (hspace : (k + 1) ^ d < 2 ^ 31) (hn : n = Int32.ofNat ((k + 1) * k ^ (d - 1)))
    (hdegree : (configureGraph n).m_degree = Int32.ofNat k)
    (hdiameter : (configureGraph n).m_diameter = d) :
    ∃ g, (∀ fuel ≥ (k + 1) ^ d, makeConnections fuel n = some g) ∧ Built n k d g := by
  have hne : (configureGraph n).m_degree ≠ 0 := by
    intro hzero
    have := congrArg Int32.toNatClampNeg (hdegree.symm.trans hzero)
    rw [Int32.toNatClampNeg_ofNat_of_lt (by omega)] at this
    exact absurd this (by simp; omega)
  obtain ⟨hbase, hsize⟩ := configureGraph_spec hne
  rw [hdegree] at hbase
  have hbase : (configureGraph n).m_base = Int32.ofNat (k + 1) := by
    rw [hbase, Int32.ofNat_add]
    rfl
  have hcount : rankOf 2 (k + 1) d ((k + 1) ^ d) = (k + 1) * k ^ (d - 1) := by
    obtain ⟨e, rfl⟩ := Nat.exists_eq_add_one.mpr (by omega : 0 < d)
    exact rankOf_two k e
  obtain ⟨tables, htables, hcomplete⟩ := VertexTable.enumerate_complete (by omega) (by omega)
    (by omega) hspace (hn.trans (congrArg Int32.ofNat hcount.symm)) fun t => isAKautzVertex_iff
  simp only [makeConnections]
  generalize configureGraph n = configuration at *
  obtain ⟨m_degree, m_base, m_diameter, m_size⟩ := configuration
  subst hbase hdiameter hsize
  exact ⟨{
    m_degree := m_degree
    m_base := Int32.ofNat (k + 1)
    m_diameter := m_diameter
    m_size := m_size
    m_graphToKautz := tables.vertices
    m_kautzToGraph := tables.numbers
    m_outcomingConnections := outcomingConnections m_size
      (computeConnection m_diameter tables.vertices) },
    fun fuel hfuel => by rw [htables fuel hfuel]; rfl, rfl, rfl, rfl, hcomplete, rfl⟩

namespace Built

variable {n : Int32} {k d : Nat} {g : GraphImplementationKautz}

/-- One hop: the shifted tuple is a vertex, and its lookup finds its rank. -/
theorem hop (h : Built n k d g) (source : Rank) {destination current : Rank}
    (hdestination : IsRank n destination) (hcurrent : IsRank n current)
    (hne : current ≠ destination) :
    ∃ t next, nextTuple d g.m_graphToKautz destination current = some t ∧
      isAKautzVertex d t = true ∧
      g.m_kautzToGraph.lookup (convertToBase10 g.m_base d t) = some next ∧
      g.getNextRankInRoute source destination current = some (next, g) ∧ IsRank n next ∧
      g.isConnected current next = true ∧
      rankWord d g.m_graphToKautz next =
        slide (rankWord d g.m_graphToKautz current) (rankWord d g.m_graphToKautz destination) := by
  obtain rfl := h.m_diameter
  have htells := h.tables.tells
  obtain ⟨t, ht, hslide⟩ := htells.nextTuple h.tables.cells hcurrent hdestination hne
  have hspread : Spread 2 (t.word g.m_diameter) := by
    rw [hslide]
    exact (h.tables.spread hcurrent).slide_two (h.tables.spread hdestination)
      (by rw [htells.length hcurrent, htells.length hdestination])
      fun heq => hne (htells.injective _ _ hcurrent hdestination heq)
  have hsymbols : ∀ x ∈ t.word g.m_diameter, x < k + 1 := by
    rw [hslide]
    exact h.tables.slide_lt hcurrent hdestination
  obtain ⟨next, hrank, hlookup, hword⟩ := h.tables.lookup_vertex hsymbols hspread
  rw [← h.m_base] at hlookup
  rw [hslide] at hword
  refine ⟨t, next, ht, isAKautzVertex_iff.mpr hspread, hlookup, ?_, hrank, ?_, hword⟩
  · rw [getNextRankInRoute, computeNextRankInRoute, ht]
    simp only [Option.bind_eq_bind, Option.bind_some, subscript_found hlookup]
    rfl
  · rw [isConnected, h.connections]
    exact htells.edge hcurrent hrank hdestination hne hword

end Built

/-! ## Routing -/

/-- The `n` ranks stand for `n` distinct tuples without equal neighbours, and the map leads
back from the tuples to the ranks. -/
structure Numbered (n : Int32) (g : GraphImplementationKautz) : Prop where
  length : g.m_graphToKautz.length = n.toNatClampNeg
  distinct : (g.m_graphToKautz.map (Tuple.word g.m_diameter)).Nodup
  vertex : ∀ t ∈ g.m_graphToKautz, isAKautzVertex g.m_diameter t = true
  rank : ∀ r t, IsRank n r → entry g.m_graphToKautz r = some t →
    g.m_kautzToGraph.lookup (convertToBase10 g.m_base g.m_diameter t) = some r

theorem Built.numbered {n : Int32} {k d : Nat} {g : GraphImplementationKautz}
    (h : Built n k d g) : Numbered n g := by
  obtain rfl := h.m_diameter
  have hvertex : ∀ r t, IsRank n r → entry g.m_graphToKautz r = some t →
      Spread 2 (t.word g.m_diameter) := by
    intro r t hr ht
    rw [← rankWord_eq ht]
    exact h.tables.spread hr
  refine ⟨h.tables.length, h.tables.nodup, fun t ht => ?_, fun r t hr ht => ?_⟩
  · obtain ⟨i, hi, rfl⟩ := List.mem_iff_getElem.mp ht
    have hlength := h.tables.length
    have hn := Int32.toNatClampNeg_lt n
    refine isAKautzVertex_iff.mpr (hvertex (Int32.ofNat i) _ (isRank_ofNat (hlength ▸ hi)) ?_)
    rw [entry_ofNat _ (by rw [← hlength] at hn; exact hi.trans hn), List.getElem?_eq_getElem hi]
  · have hsymbols := h.tables.symbol_lt hr
    rw [rankWord_eq ht] at hsymbols
    obtain ⟨r', hr', hlookup, hword⟩ := h.tables.lookup_vertex hsymbols (hvertex r t hr ht)
    obtain rfl := h.tables.tells.injective r' r hr' hr (hword.trans (rankWord_eq ht).symm)
    rw [h.m_base]
    exact hlookup

/-- Kautz routing is correct and stays inside the graph: the enumeration gives each rank its
own Kautz word; the shifted tuple of a hop is a Kautz vertex whose lookup does not miss, the
hop is an edge and makes the overlap longer, and a route has exactly as many hops as the
overlap of its ends lacks symbols. -/
theorem kautz_routing {n : Int32} {k d : Nat} (hk : 2 ≤ k ∧ k ≤ 255) (hd : 2 ≤ d ∧ d ≤ 9)
    (hspace : (k + 1) ^ d < 2 ^ 31) (hn : n = Int32.ofNat ((k + 1) * k ^ (d - 1)))
    (hdegree : (configureGraph n).m_degree = Int32.ofNat k)
    (hdiameter : (configureGraph n).m_diameter = d) :
    ∃ g, (∀ fuel ≥ (k + 1) ^ d, makeConnections fuel n = some g) ∧ g.m_diameter = d ∧
      Numbered n g ∧
      (∀ source destination current, IsRank n source → IsRank n destination → IsRank n current →
        current ≠ destination → ∃ t next,
          nextTuple d g.m_graphToKautz destination current = some t ∧
          isAKautzVertex d t = true ∧
          g.m_kautzToGraph.lookup (convertToBase10 g.m_base d t) = some next ∧
          g.getNextRankInRoute source destination current = some (next, g) ∧ IsRank n next ∧
          g.isConnected current next = true ∧
          g.overlap current destination < g.overlap next destination) ∧
      ∀ source destination, IsRank n source → IsRank n destination → ∀ steps ≥ d,
        ∃ route, getRoute getNextRankInRoute steps g source destination = some (route, g) ∧
          IsRoute g.isConnected source destination (d - g.overlap source destination) route := by
  obtain ⟨g, hg, h⟩ := makeConnections_spec hk hd hspace hn hdegree hdiameter
  refine ⟨g, hg, h.m_diameter, h.numbered, ?_, ?_⟩
  · intro source destination current _ hdestination hcurrent hne
    obtain ⟨t, next, ht, hvertex, hlookup, hnext, hrank, hedge, hslide⟩ :=
      h.hop source hdestination hcurrent hne
    refine ⟨t, next, ht, hvertex, hlookup, hnext, hrank, hedge, ?_⟩
    rw [overlap, overlap, h.m_diameter,
      h.tables.tells.rankOverlap_slide hcurrent hdestination hne hslide]
    exact Nat.lt_succ_self _
  · intro source destination hsource hdestination steps hsteps
    have hhop : ∀ g' r, g' = g → IsRank n r → r ≠ destination → ∃ next g'',
        getNextRankInRoute g' source destination r = some (next, g'') ∧ g'' = g ∧
          IsRank n next ∧ g.isConnected r next = true ∧
          rankWord d g.m_graphToKautz next = slide (rankWord d g.m_graphToKautz r)
            (rankWord d g.m_graphToKautz destination) := by
      rintro _ r rfl hr hne
      obtain ⟨_, next, -, -, -, hnext, hrest⟩ := h.hop source hdestination hr hne
      exact ⟨next, _, hnext, rfl, hrest⟩
    obtain ⟨route, g', hroute, rfl, hisRoute⟩ :=
      h.tables.tells.getRoute (· = g) hhop rfl hsource hdestination hsteps
    rw [overlap, h.m_diameter]
    exact ⟨route, hroute, hisRoute⟩

theorem configureGraph_six :
    configureGraph 6 = { m_degree := 2, m_base := 3, m_diameter := 2, m_size := 6 } := by
  decide +kernel

theorem kautz_routing_six : ∃ g, (∀ fuel ≥ 9, makeConnections fuel 6 = some g) ∧
    g.m_diameter = 2 ∧ Numbered 6 g := by
  obtain ⟨g, hg, hdiameter, hnumbered, -⟩ := kautz_routing (k := 2) (d := 2) (n := 6) (by decide)
    (by decide) (by decide) (by decide) (by rw [configureGraph_six]; rfl)
    (by rw [configureGraph_six])
  exact ⟨g, hg, hdiameter, hnumbered⟩

end GraphImplementationKautz

end RayPlatform
