import RayPlatform.Lib.Coordinates
import RayPlatform.Routing.GraphImplementation

/-!
# Graphs with load values

The polytope and the torus route alike: among the positions where the current tuple is
not that of the destination, the hop changes the one whose next symbol has the lowest
load, and raises this load by one.

* `exists_choice`: whatever the loads are, the loop over the positions ends with one of
  its candidates, if there is any;
* `changeSymbol_spec`: the hop leads to the rank whose word has this one symbol changed;
* `getRoute_of_hops`: where each hop comes one step closer from any load table, so does the
  route, also if other messages change the table between the hops.
-/

namespace RayPlatform

open Lib
open MessageRouter (IsRank)
open Nat (ofDigits)

/-! ## Loads -/

/-- `m_loadValues` -/
abbrev LoadTable := Vector UInt64 256

def loadCell (base : Int32) (position : Nat) (symbol : Int32) : Nat :=
  position * base.toNatClampNeg + symbol.toNatClampNeg

/-- The load of a cell. The hops read cells that `start` has reached before. -/
def getLoad (base : Int32) (loads : LoadTable) (position : Nat) (symbol : Int32) : UInt64 :=
  loads[loadCell base position symbol]?.getD 0

/-- A write outside the table fails. -/
def setLoad (base : Int32) (loads : LoadTable) (position : Nat) (symbol : Int32)
    (value : UInt64) : Option LoadTable :=
  if h : loadCell base position symbol < 256 then
    some (loads.set (loadCell base position symbol) value)
  else none

/-- `start`: no load for any position and symbol. -/
def startLoads (base : Int32) (digits : Nat) : Option LoadTable :=
  ((List.range digits).flatMap fun i =>
      (List.range base.toNatClampNeg).map fun j => (i, Int32.ofNat j)).foldlM
    (fun loads (i, j) => setLoad base loads i j 0) (Vector.replicate 256 0)

theorem loadCell_lt {b d p v : Nat} (hp : p < d) (hv : v < b) (hfits : d * b ≤ 256) :
    loadCell (Int32.ofNat b) p (Int32.ofNat v) < 256 := by
  have hrow : (p + 1) * b ≤ d * b := Nat.mul_le_mul_right b hp
  rw [Nat.succ_mul] at hrow
  rw [loadCell, Int32.toNatClampNeg_ofNat_of_lt (by omega),
    Int32.toNatClampNeg_ofNat_of_lt (by omega)]
  omega

theorem setLoad_isSome {b d p v : Nat} (hp : p < d) (hv : v < b) (hfits : d * b ≤ 256)
    (loads : LoadTable) (value : UInt64) :
    ∃ loads', setLoad (Int32.ofNat b) loads p (Int32.ofNat v) value = some loads' :=
  ⟨_, dif_pos (loadCell_lt hp hv hfits)⟩

theorem startLoads_isSome {b d : Nat} (hfits : d * b ≤ 256) (hb : b < 2 ^ 31) :
    ∃ loads, startLoads (Int32.ofNat b) d = some loads := by
  have hrun : ∀ (cells : List (Nat × Int32)) (loads : LoadTable),
      (∀ cell ∈ cells, ∃ p v, p < d ∧ v < b ∧ cell = (p, Int32.ofNat v)) →
        ∃ loads', cells.foldlM (fun loads (i, j) => setLoad (Int32.ofNat b) loads i j 0) loads =
          some loads' := by
    intro cells
    induction cells with
    | nil => exact fun loads _ => ⟨loads, rfl⟩
    | cons cell cells ih =>
        intro loads hcells
        obtain ⟨p, v, hp, hv, rfl⟩ := hcells cell (by simp)
        obtain ⟨loads₁, h₁⟩ := setLoad_isSome hp hv hfits loads 0
        obtain ⟨loads₂, h₂⟩ := ih loads₁ fun c hc => hcells c (by simp [hc])
        refine ⟨loads₂, ?_⟩
        rw [List.foldlM_cons]
        exact Option.bind_eq_some_iff.mpr ⟨loads₁, h₁, h₂⟩
  apply hrun
  intro cell hcell
  simp only [List.mem_flatMap, List.mem_range, List.mem_map] at hcell
  obtain ⟨i, hi, j, hj, rfl⟩ := hcell
  rw [Int32.toNatClampNeg_ofNat_of_lt hb] at hj
  exact ⟨i, j, hi, hj, rfl⟩

/-! ## Choices -/

/-- `bestPosition`, `bestSymbol` and `bestLoad` -/
structure Choice where
  position : Nat
  symbol : Int32
  load : UInt64

/-- Select a candidate if it has a lower load, or if it is the first one. -/
def select (best : Option Choice) (candidate : Choice) : Option Choice :=
  match best with
  | none => some candidate
  | some current => if candidate.load < current.load then some candidate else some current

theorem select_cases (best : Option Choice) (candidate : Choice) :
    select best candidate = some candidate ∨ (best ≠ none ∧ select best candidate = best) := by
  cases best with
  | none => exact .inl rfl
  | some current =>
      rw [select]
      split
      · exact .inl rfl
      · exact .inr ⟨by simp, rfl⟩

theorem select_ne_none (best : Option Choice) (candidate : Choice) :
    select best candidate ≠ none := by
  rcases select_cases best candidate with h | ⟨hne, h⟩
  · simp [h]
  · rwa [h]

theorem select_good {Good : Choice → Prop} {best : Option Choice} {candidate : Choice}
    (hbest : ∀ c, best = some c → Good c) (hcandidate : Good candidate) :
    ∀ c, select best candidate = some c → Good c := by
  intro c hc
  rcases select_cases best candidate with h | ⟨-, h⟩
  · obtain rfl := Option.some.inj (h.symm.trans hc)
    exact hcandidate
  · exact hbest c (h.symm.trans hc)

/-- A loop that keeps good candidates only, and finds one somewhere, ends with a good one. -/
theorem exists_choice {step : Option Choice → Nat → Option Choice} {Good : Choice → Prop}
    {d p : Nat} (hp : p < d)
    (hgood : ∀ best, ∀ q < d, (∀ c, best = some c → Good c) → ∀ c, step best q = some c → Good c)
    (hkeep : ∀ best, ∀ q < d, best ≠ none → step best q ≠ none)
    (hfirst : ∀ best, step best p ≠ none) :
    ∃ c, (List.range d).foldl step none = some c ∧ Good c := by
  have hrun : ∀ m ≤ d, (∀ c, (List.range m).foldl step none = some c → Good c) ∧
      (p < m → (List.range m).foldl step none ≠ none) := by
    intro m
    induction m with
    | zero => exact fun _ => ⟨by simp, by omega⟩
    | succ m ih =>
        intro hm
        obtain ⟨hih, hsome⟩ := ih (by omega)
        rw [List.range_succ, List.foldl_append, List.foldl_cons, List.foldl_nil]
        refine ⟨hgood _ m (by omega) hih, fun hpm => ?_⟩
        rcases Nat.lt_succ_iff_lt_or_eq.mp hpm with hlt | rfl
        · exact hkeep _ m (by omega) (hsome hlt)
        · exact hfirst _
  obtain ⟨hall, hsome⟩ := hrun d le_rfl
  obtain ⟨c, hc⟩ := Option.ne_none_iff_exists'.mp (hsome hp)
  exact ⟨c, hc, hall c hc⟩

/-! ## Hops -/

/-- The next rank, once a symbol is chosen. -/
def changeSymbol (base : Int32) (d : Nat) (loads : LoadTable) (currentVertex : Tuple)
    (choice : Choice) : Option (Rank × LoadTable) := do
  let next ← currentVertex.write choice.position choice.symbol.toUInt32.toUInt8
  -- increase the load by 1
  let loads ← setLoad base loads choice.position choice.symbol (choice.load + 1)
  return (convertToBase10 base d next, loads)

theorem Tuple.word_write {t t' : Tuple} {p d : Nat} {value : UInt8}
    (hvalue : t'.digit p = value) (hrest : ∀ j ≠ p, t'.digit j = t.digit j) :
    t'.word d = (t.word d).set p value.toNat := by
  apply List.ext_getElem
  · simp
  · intro i hi _
    rw [Tuple.getElem_word]
    by_cases hip : p = i
    · subst hip
      rw [List.getElem_set_self, hvalue]
    · rw [List.getElem_set_ne hip, Tuple.getElem_word, hrest i (Ne.symm hip)]

theorem changeSymbol_spec {size : Int32} {b d p v : Nat} {table : List Tuple}
    (h : WordTable size b d table) (hfull : size.toNatClampNeg = b ^ d) (hfits : d * b ≤ 256)
    {current : Rank} (hcurrent : IsRank size current) {currentVertex : Tuple}
    (hvertex : entry table current = some currentVertex) (hp : p < d) (hv : v < b)
    (loads : LoadTable) (load : UInt64) :
    ∃ next loads', changeSymbol (Int32.ofNat b) d loads currentVertex
        { position := p, symbol := Int32.ofNat v, load := load } = some (next, loads') ∧
      IsRank size next ∧ rankWord d table next = (rankWord d table current).set p v := by
  have hcells := h.cells
  have hb : b ≤ 256 := (Nat.le_mul_of_pos_left b (by omega : 0 < d)).trans hfits
  obtain ⟨t, ht, hnew, hrest⟩ := currentVertex.write_spec (show p < 16 by omega)
    (Int32.ofNat v).toUInt32.toUInt8
  have hvalue : (Int32.ofNat v).toUInt32.toUInt8.toNat = v := by
    rw [Int32.toUInt32_ofNat', UInt32.toUInt8_ofNat', UInt8.toNat_ofNat_of_lt' (hv.trans_le hb)]
  have hword := Tuple.word_write (d := d) hnew hrest
  rw [hvalue] at hword
  have hold := h.symbol_lt hcurrent
  rw [rankWord_eq hvertex] at hold ⊢
  have hsymbols : ∀ x ∈ t.word d, x < b := by
    rw [hword]
    intro x hx
    rcases List.mem_or_eq_of_mem_set hx with hx | rfl
    · exact hold x hx
    · exact hv
  obtain ⟨hrank, hnext⟩ := h.number hfull hsymbols
  rw [← convertToBase10_eq] at hrank hnext
  obtain ⟨loads', hloads'⟩ := setLoad_isSome hp hv hfits loads (load + 1)
  refine ⟨_, loads', ?_, hrank, hnext.trans hword⟩
  rw [changeSymbol, ht]
  simp only [Option.bind_eq_bind, Option.bind_some, hloads']
  rfl

/-! ## Edges -/

/-- The symbols of two tuples of which one has a symbol of the other changed. -/
theorem digit_of_word_set {d p v : Nat} {t t' : Tuple} (h : t'.word d = (t.word d).set p v)
    {i : Nat} (hi : i < d) : (t'.digit i).toNat = if i = p then v else (t.digit i).toNat := by
  have := congrArg (fun w => w[i]?) h
  simp only [List.getElem?_set, Tuple.length_word] at this
  rw [List.getElem?_eq_getElem (by simpa using hi), Tuple.getElem_word] at this
  split at this
  case isTrue heq =>
    rw [if_pos (heq ▸ hi)] at this
    rw [if_pos heq.symm]
    exact Option.some.inj this
  case isFalse hne =>
    rw [List.getElem?_eq_getElem (by simpa using hi), Tuple.getElem_word] at this
    rw [if_neg (Ne.symm hne)]
    exact Option.some.inj this

/-- A property of exactly one position counts one. -/
theorem countP_single {d p : Nat} {P : Nat → Bool} (hp : p < d)
    (h : ∀ i < d, P i = true ↔ i = p) : (List.range d).countP P = 1 := by
  have hcongr : (List.range d).countP P = (List.range d).count p := by
    apply List.countP_congr
    intro i hi
    rw [h i (List.mem_range.mp hi), beq_iff_eq]
  rw [hcongr, List.count_eq_one_of_mem List.nodup_range (List.mem_range.mpr hp)]

/-- Two different words of the same length differ somewhere. -/
theorem exists_digit_ne {d : Nat} {t t' : Tuple} (h : t.word d ≠ t'.word d) :
    ∃ p < d, t.digit p ≠ t'.digit p := by
  by_contra hall
  push Not at hall
  apply h
  apply List.map_congr_left
  intro i hi
  rw [hall i (List.mem_range.mp hi)]

/-- Symbols are compared as `int`. -/
theorem ofNat_digit_eq_iff (x y : UInt8) : Int32.ofNat x.toNat = Int32.ofNat y.toNat ↔ x = y := by
  constructor
  · intro h
    have hx := x.toNat_lt
    have hy := y.toNat_lt
    have := congrArg Int32.toNatClampNeg h
    rw [Int32.toNatClampNeg_ofNat_of_lt (by omega),
      Int32.toNatClampNeg_ofNat_of_lt (by omega)] at this
    exact UInt8.toNat_inj.mp this
  · rintro rfl
    rfl

/-! ## Distances -/

namespace WordTable

variable {size : Int32} {b d : Nat} {table : List Tuple} {δ : Nat → Nat → Nat}
  {current destination : Rank}

/-- The tuples of two different ranks differ somewhere. -/
theorem exists_differing (h : WordTable size b d table) (hcurrent : IsRank size current)
    (hdestination : IsRank size destination) (hne : current ≠ destination) :
    ∃ currentVertex destinationVertex p, entry table current = some currentVertex ∧
      entry table destination = some destinationVertex ∧ p < d ∧
      currentVertex.digit p ≠ destinationVertex.digit p := by
  have htells := h.tells
  have hwords := fun heq => hne (htells.injective current destination hcurrent hdestination heq)
  obtain ⟨currentVertex, hcurrentVertex⟩ := htells.entry current hcurrent
  obtain ⟨destinationVertex, hdestinationVertex⟩ := htells.entry destination hdestination
  rw [rankWord_eq hcurrentVertex, rankWord_eq hdestinationVertex] at hwords
  obtain ⟨p, hp, hdiffers⟩ := exists_digit_ne hwords
  exact ⟨currentVertex, destinationVertex, p, hcurrentVertex, hdestinationVertex, hp, hdiffers⟩

theorem distance_eq_zero_iff (h : WordTable size b d table)
    (hδ : ∀ x < b, ∀ y < b, δ x y = 0 ↔ x = y) (hcurrent : IsRank size current)
    (hdestination : IsRank size destination) :
    distance δ (rankWord d table current) (rankWord d table destination) = 0 ↔
      current = destination := by
  have htells := h.tells
  have hlength := (htells.length hcurrent).trans (htells.length hdestination).symm
  rw [Lib.distance_eq_zero_iff (fun x hx y hy => hδ x (h.symbol_lt hcurrent x hx) y
    (h.symbol_lt hdestination y hy)) hlength]
  exact ⟨htells.injective current destination hcurrent hdestination, fun heq => by rw [heq]⟩

/-- A symbol that comes one closer to the one of the destination brings the rank one closer. -/
theorem distance_changed {next : Rank} {currentVertex destinationVertex : Tuple} {p v : Nat}
    (hcurrent : entry table current = some currentVertex)
    (hdestination : entry table destination = some destinationVertex) (hp : p < d)
    (hword : rankWord d table next = (rankWord d table current).set p v)
    (hcloser : δ (currentVertex.digit p).toNat (destinationVertex.digit p).toNat =
      δ v (destinationVertex.digit p).toNat + 1) :
    distance δ (rankWord d table current) (rankWord d table destination) =
      distance δ (rankWord d table next) (rankWord d table destination) + 1 := by
  rw [hword, rankWord_eq hcurrent, rankWord_eq hdestination]
  apply distance_set_succ (by simpa using hp) (by simpa using hp)
  rw [Tuple.getElem_word, Tuple.getElem_word]
  exact hcloser

end WordTable

/-! ## Routes -/

section Routes

variable {Graph : Type*} (g : LoadTable → Graph)
  (getNextRankInRoute : Graph → Rank → Rank → Rank → Option (Rank × Graph))

/-- Hops between which other messages change the load table: there is one table for each hop. -/
def getNextRankUnder (loads : Nat → LoadTable) (source destination rank : Rank) :
    Option (Rank × (Nat → LoadTable)) :=
  (getNextRankInRoute (g (loads 0)) source destination rank).map fun (next, _) =>
    (next, fun i => loads (i + 1))

variable {g getNextRankInRoute} {n : Int32} {source destination : Rank}
  {connected : Rank → Rank → Bool} {distance : Rank → Nat}

/-- Where each hop comes one step closer from any load table, a route from any load table
is as long as the distance. -/
theorem getRoute_of_hops (harrived : ∀ r, IsRank n r → (distance r = 0 ↔ r = destination))
    (hhop : ∀ loads r, IsRank n r → r ≠ destination → ∃ next loads',
      getNextRankInRoute (g loads) source destination r = some (next, g loads') ∧
        IsRank n next ∧ connected r next = true ∧ distance r = distance next + 1)
    (hsource : IsRank n source) {steps : Nat} (hsteps : distance source ≤ steps)
    (loads : LoadTable) :
    ∃ route loads', getRoute getNextRankInRoute steps (g loads) source destination =
        some (route, g loads') ∧
      IsRoute connected source destination (distance source) route := by
  have hstep : ∀ g' r, (∃ loads, g' = g loads) → IsRank n r → r ≠ destination → ∃ next g'',
      getNextRankInRoute g' source destination r = some (next, g'') ∧ (∃ loads, g'' = g loads) ∧
        IsRank n next ∧ connected r next = true ∧ distance r = distance next + 1 := by
    rintro _ r ⟨loads, rfl⟩ hr hne
    obtain ⟨next, loads', hnext, hrest⟩ := hhop loads r hr hne
    exact ⟨next, _, hnext, ⟨loads', rfl⟩, hrest⟩
  obtain ⟨route, _, hroute, ⟨loads', rfl⟩, hisRoute⟩ := routeFrom_isRoute _ (IsRank n) distance
    harrived hstep steps (g loads) source ⟨loads, rfl⟩ hsource hsteps
  exact ⟨route, loads', hroute, hisRoute⟩

/-- The same where the table changes between the hops. -/
theorem getRoute_under_of_hops (harrived : ∀ r, IsRank n r → (distance r = 0 ↔ r = destination))
    (hhop : ∀ loads r, IsRank n r → r ≠ destination → ∃ next loads',
      getNextRankInRoute (g loads) source destination r = some (next, g loads') ∧
        IsRank n next ∧ connected r next = true ∧ distance r = distance next + 1)
    (hsource : IsRank n source) {steps : Nat} (hsteps : distance source ≤ steps)
    (loads : Nat → LoadTable) :
    ∃ route loads', getRoute (getNextRankUnder g getNextRankInRoute) steps loads source
        destination = some (route, loads') ∧
      IsRoute connected source destination (distance source) route := by
  have hstep : ∀ (loads : Nat → LoadTable) r, True → IsRank n r → r ≠ destination → ∃ next loads',
      getNextRankUnder g getNextRankInRoute loads source destination r = some (next, loads') ∧
        True ∧ IsRank n next ∧ connected r next = true ∧ distance r = distance next + 1 := by
    intro loads r _ hr hne
    obtain ⟨next, loads', hnext, hrest⟩ := hhop (loads 0) r hr hne
    refine ⟨next, fun i => loads (i + 1), ?_, trivial, hrest⟩
    rw [getNextRankUnder, hnext]
    rfl
  obtain ⟨route, loads', hroute, -, hisRoute⟩ := routeFrom_isRoute _ (IsRank n) distance
    harrived hstep steps loads source trivial hsource hsteps
  exact ⟨route, loads', hroute, hisRoute⟩

end Routes

end RayPlatform
