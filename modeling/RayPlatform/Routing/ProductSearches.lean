import RayPlatform.Routing.GraphImplementationExperimental
import RayPlatform.Routing.GraphImplementationKautz

/-!
# The searches of the Kautz and Experimental graphs

Both graphs look for a degree and a diameter (and a zone) whose product of factors is the
number of ranks. The products are computed with `int`s and the last match wins.

* `configureGraph_cases`: what is configured is a match modulo `2^32`, and a number without
  a match is refused;
* `exact_of_lt`: a match whose product fits an `int` is exact;
* `configuresExactly_never`: for every number of ranks, some product of the search wraps.

A product that wraps may match. The graph is then configured with parameters that belong to
some other number of vertices.
-/

namespace RayPlatform

/-- What a search tries: all up to the first match. -/
def triedUntil (found : Nat → Bool) : List Nat → List Nat
  | [] => []
  | x :: rest => x :: if found x then [] else triedUntil found rest

theorem mem_triedUntil {found : Nat → Bool} {x : Nat} (before after : List Nat)
    (h : ∀ y ∈ before, found y = false) : x ∈ triedUntil found (before ++ x :: after) := by
  induction before with
  | nil => exact List.mem_cons_self
  | cons y before ih =>
      rw [List.cons_append, triedUntil, h y List.mem_cons_self]
      exact List.mem_cons_of_mem _ (ih fun z hz => h z (List.mem_cons_of_mem _ hz))

/-- A value that fits an `int` is the number it stands for. -/
theorem toNatClampNeg_of_ofNat_eq {product : Nat} {n : Int32} (hfits : product < 2 ^ 31)
    (h : Int32.ofNat product = n) : n.toNatClampNeg = product := by
  rw [← h, Int32.toNatClampNeg_ofNat_of_lt hfits]

/-- The remainder of a product that matches a positive number. -/
theorem mod_of_ofNat_eq {product : Nat} {n : Int32} (hn : 1 ≤ n) (h : Int32.ofNat product = n) :
    product % 2 ^ 32 = n.toNatClampNeg := by
  have hlt := Int32.toNatClampNeg_lt n
  have hn' : Int32.ofNat n.toNatClampNeg = n :=
    Int32.ofNat_toNatClampNeg n (Int32.le_trans (by decide) hn)
  have hvalues := congrArg (fun v : Int32 => v.toBitVec.toNat) (h.trans hn'.symm)
  simp only [Int32.toBitVec_ofNat', BitVec.toNat_ofNat] at hvalues
  rw [hvalues, Nat.mod_eq_of_lt (by omega)]

theorem ofNat_ne_neg_one {b : Nat} (hb : b < 2 ^ 31) : Int32.ofNat b ≠ -1 := by
  intro h
  have hneg := congrArg Int32.toInt h
  rw [Int32.toInt_ofNat_of_lt hb] at hneg
  have hone : Int32.toInt (-1) = -1 := by decide
  omega

namespace GraphImplementationKautz

/-- A degree and a diameter of the search whose product is the number of ranks, as `int`s. -/
structure Matches (n : Int32) (k d : Nat) : Prop where
  degree : 2 ≤ k ∧ k ≤ 1024
  diameter : 2 ≤ d ∧ d ≤ 9
  product : Int32.ofNat ((k + 1) * k ^ (d - 1)) = n

/-- What is kept of a match. -/
def configuration (n : Int32) (k d : Nat) : Configuration :=
  { m_degree := Int32.ofNat k, m_base := Int32.ofNat (k + 1), m_diameter := d, m_size := n }

theorem product_ofNat (k d : Nat) :
    (Int32.ofNat k + 1) * getPower (Int32.ofNat k) (d - 1) =
      Int32.ofNat ((k + 1) * k ^ (d - 1)) := by
  rw [getPower_ofNat, Int32.ofNat_mul, Int32.ofNat_add]
  rfl

theorem matchDegree_cases (n : Int32) {k : Nat} (hk : k ∈ degrees) :
    (matchDegree n (Int32.ofNat k) = none ∧ ∀ d, ¬ Matches n k d) ∨
      ∃ d, Matches n k d ∧ matchDegree n (Int32.ofNat k) =
        some (configuration n k d) := by
  rw [degrees, List.mem_range'_1] at hk
  rw [matchDegree]
  cases hfound : (List.range' 2 8).find? fun d =>
    (Int32.ofNat k + 1) * getPower (Int32.ofNat k) (d - 1) == n with
  | none =>
      refine .inl ⟨rfl, fun d hmatch => ?_⟩
      have hd := hmatch.diameter
      have hnot := List.find?_eq_none.mp hfound d (List.mem_range'_1.mpr (by omega))
      rw [product_ofNat, beq_iff_eq] at hnot
      exact hnot hmatch.product
  | some d =>
      have hd := List.mem_range'_1.mp (List.mem_of_find?_eq_some hfound)
      have hvertices := List.find?_some hfound
      rw [product_ofNat, beq_iff_eq] at hvertices
      refine .inr ⟨d, ⟨by omega, by omega, hvertices⟩, ?_⟩
      rw [configuration, Int32.ofNat_add]
      rfl

/-- What is configured is the match of the largest degree. -/
theorem configureGraph_cases (n : Int32) :
    (isValid n = false ∧ ∀ k d, ¬ Matches n k d) ∨
      isValid n = true ∧ ∃ k d, Matches n k d ∧ (∀ k' d', Matches n k' d' → k' ≤ k) ∧
        configureGraph n = configuration n k d := by
  have hmem : ∀ {k d}, Matches n k d → k ∈ degrees := by
    intro k d hmatch
    have := hmatch.degree
    exact List.mem_range'_1.mpr (by omega)
  have hordered : degrees.Pairwise (· < ·) := List.pairwise_lt_range'
  rcases lastMatch_cases (fun k => matchDegree n (Int32.ofNat k)) hordered with
    ⟨hnone, hall⟩ | ⟨k, hk, c, hc, hfound, hbefore⟩
  · refine .inl ⟨by rw [isValid, configureGraph, hnone]; rfl, fun k d hmatch => ?_⟩
    rcases matchDegree_cases n (hmem hmatch) with ⟨-, hno⟩ | ⟨d', -, hsome⟩
    · exact hno d hmatch
    · rw [hall k (hmem hmatch)] at hsome
      cases hsome
  · rcases matchDegree_cases n hk with ⟨hno, -⟩ | ⟨d, hmatch, hsome⟩
    · rw [hno] at hc
      cases hc
    rw [hsome] at hc
    obtain rfl := Option.some.inj hc
    have hconfigured : configureGraph n = configuration n k d := by
      rw [configureGraph, hfound]
      rfl
    refine .inr ⟨?_, k, d, hmatch, fun k' d' hmatch' => ?_, hconfigured⟩
    · rw [isValid, hconfigured]
      exact bne_iff_ne.mpr (ofNat_ne_neg_one (by have := hmatch.degree; omega))
    · rcases matchDegree_cases n (hmem hmatch') with ⟨-, hno⟩ | ⟨d'', -, hsome'⟩
      · exact absurd hmatch' (hno d')
      · have hfound' : matchDegree n (Int32.ofNat k') ≠ none := by
          rw [hsome']
          exact Option.some_ne_none _
        rcases hbefore k' (hmem hmatch') hfound' with rfl | hlt
        · exact Nat.le_refl _
        · exact Nat.le_of_lt hlt

/-- The diameters that the search tries for a degree. -/
def tried (n : Int32) (degree : Nat) : List Nat :=
  triedUntil (fun diameter =>
    (Int32.ofNat degree + 1) * getPower (Int32.ofNat degree) (diameter - 1) == n) (List.range' 2 8)

/-- No product wraps, an accepted configuration has `n` vertices over the unbounded integers,
and the enumeration finds them. -/
structure ConfiguresExactly (n : Int32) : Prop where
  products : ∀ degree ∈ degrees, ∀ diameter ∈ tried n degree,
    (degree + 1) * degree ^ (diameter - 1) < 2 ^ 31
  parameters : isValid n = true →
    ((configureGraph n).m_degree.toNatClampNeg + 1) *
      (configureGraph n).m_degree.toNatClampNeg ^ ((configureGraph n).m_diameter - 1) =
        n.toNatClampNeg
  connected : isValid n = true → ∃ fuel g,
    makeConnections fuel n = some g ∧ g.m_graphToKautz.length = n.toNatClampNeg

/-- Degree 1024 overflows at diameter 4. Two numbers of ranks are found before that, and for
them degree 1000 does. -/
theorem exists_wrapped (n : Int32) : ∃ degree ∈ degrees, ∃ diameter ∈ tried n degree,
    2 ^ 31 ≤ (degree + 1) * degree ^ (diameter - 1) := by
  have htried : ∀ degree, (∀ d ∈ [2, 3], Int32.ofNat ((degree + 1) * degree ^ (d - 1)) ≠ n) →
      4 ∈ tried n degree := by
    intro degree hnot
    refine mem_triedUntil [2, 3] [5, 6, 7, 8, 9] fun d hd => ?_
    rw [product_ofNat]
    exact beq_eq_false_iff_ne.mpr (hnot d hd)
  by_cases hfound : n = 1049600 ∨ n = 1074790400
  · refine ⟨1000, List.mem_range'_1.mpr (by decide), 4, htried 1000 fun d hd => ?_, by decide⟩
    rcases hfound with rfl | rfl <;> revert d <;> decide
  · refine ⟨1024, List.mem_range'_1.mpr (by decide), 4, htried 1024 fun d hd heq => ?_, by decide⟩
    rcases List.mem_pair.mp hd with rfl | rfl
    · exact hfound (.inl (heq.symm.trans (by decide)))
    · exact hfound (.inr (heq.symm.trans (by decide)))

/-- A match that fits an `int` is exact. -/
theorem Matches.exact_of_lt {n : Int32} {k d : Nat} (h : Matches n k d)
    (hfits : (k + 1) * k ^ (d - 1) < 2 ^ 31) : n.toNatClampNeg = (k + 1) * k ^ (d - 1) :=
  toNatClampNeg_of_ofNat_eq hfits h.product

end GraphImplementationKautz

namespace GraphImplementationExperimental

/-- The number of vertices over the unbounded integers. -/
def vertices (k z d : Nat) : Nat :=
  (List.range' 1 (z - 1)).foldl (fun vertices p => vertices * (k + p)) 1 * k ^ (d - (z - 1))

/-- A degree, a zone and a diameter of the search whose product is the number of ranks, as
`int`s. -/
structure Matches (n : Int32) (k z d : Nat) : Prop where
  degree : 2 ≤ k ∧ k ≤ 1024
  zone : z = 3 ∨ z = 4
  diameter : z ≤ d ∧ d ≤ 9
  product : Int32.ofNat (vertices k z d) = n

theorem countVertices_ofNat (k z d : Nat) :
    countVertices (Int32.ofNat k) z d = Int32.ofNat (vertices k z d) := by
  have hproduct : ∀ (factors : List Nat) (product : Nat),
      factors.foldl (fun v p => v * (Int32.ofNat k + Int32.ofNat p)) (Int32.ofNat product) =
        Int32.ofNat (factors.foldl (fun v p => v * (k + p)) product) := by
    intro factors
    induction factors with
    | nil => exact fun product => rfl
    | cons p factors ih =>
        intro product
        rw [List.foldl_cons, List.foldl_cons, ← Int32.ofNat_add, ← Int32.ofNat_mul, ih]
  rw [countVertices, vertices, getPower_ofNat, Int32.ofNat_mul, ← hproduct]
  rfl

/-- What is kept of a match. -/
def configuration (n : Int32) (k z d : Nat) : Configuration where
  m_zone := z
  m_degree := Int32.ofNat k
  m_base := Int32.ofNat (k + z - 1)
  m_diameter := d
  m_size := n

theorem mem_degreesAndZones {k z : Nat} :
    (k, z) ∈ degreesAndZones ↔ (2 ≤ k ∧ k ≤ 1024) ∧ (z = 3 ∨ z = 4) := by
  rw [degreesAndZones, List.mem_flatMap]
  simp only [List.mem_range'_1, List.mem_cons, Prod.mk.injEq, List.not_mem_nil, or_false]
  constructor
  · rintro ⟨degree, hdegree, hpair⟩
    omega
  · rintro ⟨hk, hz⟩
    exact ⟨k, by omega, by omega⟩

theorem matchZone_cases (n : Int32) {k z : Nat} (hmem : (k, z) ∈ degreesAndZones) :
    (matchZone n (Int32.ofNat k) z = none ∧ ∀ d, ¬ Matches n k z d) ∨
      ∃ d, Matches n k z d ∧ matchZone n (Int32.ofNat k) z = some (configuration n k z d) := by
  obtain ⟨hk, hz⟩ := mem_degreesAndZones.mp hmem
  rw [matchZone]
  cases hfound : (List.range' z (10 - z)).find? fun d =>
    countVertices (Int32.ofNat k) z d == n with
  | none =>
      refine .inl ⟨rfl, fun d hmatch => ?_⟩
      have hd := hmatch.diameter
      have hnot := List.find?_eq_none.mp hfound d (List.mem_range'_1.mpr (by omega))
      rw [countVertices_ofNat, beq_iff_eq] at hnot
      exact hnot hmatch.product
  | some d =>
      have hd := List.mem_range'_1.mp (List.mem_of_find?_eq_some hfound)
      have hvertices := List.find?_some hfound
      rw [countVertices_ofNat, beq_iff_eq] at hvertices
      refine .inr ⟨d, ⟨hk, hz, by omega, hvertices⟩, ?_⟩
      rw [configuration, Int32.ofNat_sub _ _ (by omega), Int32.ofNat_add]
      rfl

/-- What is configured is a match. -/
theorem configureGraph_cases (n : Int32) :
    (isValid n = false ∧ ∀ k z d, ¬ Matches n k z d) ∨
      isValid n = true ∧ ∃ k z d, Matches n k z d ∧ configureGraph n = configuration n k z d := by
  have hany : degreesAndZones.Pairwise fun _ _ => True := List.pairwise_of_forall fun _ _ => trivial
  have hsearch : configureGraph n =
      (lastMatch (fun pair : Nat × Nat => matchZone n (Int32.ofNat pair.1) pair.2)
        degreesAndZones).getD
        { m_zone := 0, m_degree := 0, m_base := -1, m_diameter := 0, m_size := 0 } := rfl
  rcases lastMatch_cases (fun pair : Nat × Nat => matchZone n (Int32.ofNat pair.1) pair.2) hany with
    ⟨hnone, hall⟩ | ⟨⟨k, z⟩, hmem, c, hc, hfound, -⟩
  · refine .inl ⟨by rw [isValid, hsearch, hnone]; rfl, fun k z d hmatch => ?_⟩
    have hmem := mem_degreesAndZones.mpr ⟨hmatch.degree, hmatch.zone⟩
    rcases matchZone_cases n hmem with ⟨-, hno⟩ | ⟨d', -, hsome⟩
    · exact hno d hmatch
    · have hnot : matchZone n (Int32.ofNat k) z = none := hall (k, z) hmem
      rw [hsome] at hnot
      cases hnot
  · replace hc : matchZone n (Int32.ofNat k) z = some c := hc
    rcases matchZone_cases n hmem with ⟨hno, -⟩ | ⟨d, hmatch, hsome⟩
    · rw [hno] at hc
      cases hc
    rw [hsome] at hc
    obtain rfl := Option.some.inj hc
    have hconfigured : configureGraph n = configuration n k z d := by
      rw [hsearch, hfound]
      rfl
    refine .inr ⟨?_, k, z, d, hmatch, hconfigured⟩
    have hdegree := hmatch.degree
    have hzone := hmatch.zone
    rw [isValid, hconfigured]
    exact bne_iff_ne.mpr (ofNat_ne_neg_one (by omega))

/-- A match that fits an `int` is exact. -/
theorem Matches.exact_of_lt {n : Int32} {k z d : Nat} (h : Matches n k z d)
    (hfits : vertices k z d < 2 ^ 31) :
    n.toNatClampNeg = vertices k z d :=
  toNatClampNeg_of_ofNat_eq hfits h.product

/-- The diameters that the search tries for a degree and a zone. -/
def tried (n : Int32) (degree zone : Nat) : List Nat :=
  triedUntil (fun diameter => countVertices (Int32.ofNat degree) zone diameter == n)
    (List.range' zone (10 - zone))

/-- No product wraps, an accepted configuration has `n` vertices over the unbounded integers,
and the enumeration finds them. -/
structure ConfiguresExactly (n : Int32) : Prop where
  products : ∀ degree zone, (degree, zone) ∈ degreesAndZones →
    ∀ diameter ∈ tried n degree zone, vertices degree zone diameter < 2 ^ 31
  parameters : isValid n = true →
    vertices (configureGraph n).m_degree.toNatClampNeg (configureGraph n).m_zone
      (configureGraph n).m_diameter = n.toNatClampNeg
  connected : isValid n = true → ∃ fuel g,
    makeConnections fuel n = some g ∧ g.m_graphToExperimental.length = n.toNatClampNeg

/-- The first product of degree 1024 and zone 4 overflows. -/
theorem exists_wrapped (n : Int32) : ∃ degree zone, (degree, zone) ∈ degreesAndZones ∧
    ∃ diameter ∈ tried n degree zone, 2 ^ 31 ≤ vertices degree zone diameter :=
  ⟨1024, 4, mem_degreesAndZones.mpr (by decide), 4, List.mem_cons_self, by decide⟩

end GraphImplementationExperimental

/-- Whatever the number of ranks is, each of the searches computes a product that wraps. -/
theorem configuresExactly_never (n : Int32) :
    ¬ GraphImplementationKautz.ConfiguresExactly n ∧
      ¬ GraphImplementationExperimental.ConfiguresExactly n := by
  constructor
  · intro h
    obtain ⟨degree, hdegree, diameter, htried, hwrapped⟩ :=
      GraphImplementationKautz.exists_wrapped n
    exact Nat.not_lt.mpr hwrapped (h.products degree hdegree diameter htried)
  · intro h
    obtain ⟨degree, zone, hmem, diameter, htried, hwrapped⟩ :=
      GraphImplementationExperimental.exists_wrapped n
    exact Nat.not_lt.mpr hwrapped (h.products degree zone hmem diameter htried)

/-- `258*257^3` is 84477698 and `533*534*532^3` is 206208 modulo `2^32`: graphs that do not
exist are configured. -/
theorem configuresExactly_wrapped :
    (GraphImplementationKautz.configureGraph 84477698 =
        { m_degree := 257, m_base := 258, m_diameter := 4, m_size := 84477698 } ∧
      258 * 257 ^ 3 ≠ 84477698 ∧ ¬ GraphImplementationKautz.ConfiguresExactly 84477698) ∧
    GraphImplementationExperimental.configureGraph 206208 =
        { m_zone := 3, m_degree := 532, m_base := 534, m_diameter := 5, m_size := 206208 } ∧
      533 * 534 * 532 ^ 3 ≠ 206208 ∧ ¬ GraphImplementationExperimental.ConfiguresExactly 206208 := by
  constructor
  · have honly : ∀ k ∈ List.range' 2 1023, ∀ d ∈ List.range' 2 8,
        (k + 1) * k ^ (d - 1) % 2 ^ 32 = 84477698 → k = 257 ∧ d = 4 := by
      decide +kernel
    rcases GraphImplementationKautz.configureGraph_cases 84477698 with
      ⟨-, hnone⟩ | ⟨hvalid, k, d, hmatch, -, hconfigured⟩
    · exact absurd ⟨by decide, by decide, by decide⟩ (hnone 257 4)
    obtain ⟨rfl, rfl⟩ := honly k (List.mem_range'_1.mpr (by have := hmatch.degree; omega)) d
      (List.mem_range'_1.mpr (by have := hmatch.diameter; omega))
      (mod_of_ofNat_eq (by decide) hmatch.product)
    refine ⟨hconfigured, by decide, fun h => ?_⟩
    have hexact := h.parameters hvalid
    rw [hconfigured] at hexact
    exact absurd hexact (by decide)
  · have honly : ∀ k ∈ List.range' 2 1023, ∀ z ∈ [3, 4], ∀ d ∈ List.range' z (10 - z),
        GraphImplementationExperimental.vertices k z d % 2 ^ 32 = 206208 →
          k = 532 ∧ z = 3 ∧ d = 5 := by
      decide +kernel
    rcases GraphImplementationExperimental.configureGraph_cases 206208 with
      ⟨-, hnone⟩ | ⟨hvalid, k, z, d, hmatch, hconfigured⟩
    · exact absurd ⟨by decide, by decide, by decide, by decide⟩ (hnone 532 3 5)
    obtain ⟨rfl, rfl, rfl⟩ := honly k (List.mem_range'_1.mpr (by have := hmatch.degree; omega)) z
      (by have := hmatch.zone; simpa using this) d
      (List.mem_range'_1.mpr (by have := hmatch.zone; have := hmatch.diameter; omega))
      (mod_of_ofNat_eq (by decide) hmatch.product)
    refine ⟨hconfigured, by decide, fun h => ?_⟩
    have hexact := h.parameters hvalid
    rw [hconfigured] at hexact
    exact absurd hexact (by decide)

end RayPlatform
