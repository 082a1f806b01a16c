import Mathlib.Analysis.SpecialFunctions.Log.Base
import RayPlatform.Lib.LinkedTree

/-!
# What top-down splaying costs

The simple top-down splay as a function of trees: the nodes on the way to a key are put on
two spines, and two steps in the same direction are one rotation and one link (`topDown`).
The cost of a splay is the number of nodes on the way (`visited`).

* `potential` — the sum of the ranks, a rank is the logarithm of a size;
* `visited_add_potential_le` — a splay costs three ranks, if the change of the potential is
  counted.

A single link does not pay for itself. It is followed by a step in the other direction, and
what hangs on the two spines after both has no node in common (`Charged.opposite`).
-/

namespace RayPlatform.Lib

variable {ι α : Type*}

deriving instance DecidableEq for Side

namespace Side

def opposite : Side → Side
  | left => right
  | right => left

@[simp] theorem opposite_opposite (side : Side) : side.opposite.opposite = side := by
  cases side <;> rfl

theorem eq_opposite {side other : Side} (h : some side ≠ some other) : other = side.opposite := by
  cases side <;> cases other <;> simp_all [opposite]

/-- A node seen from one of its sides. -/
theorem exists_node (side : Side) (a : ι) (item : α) (left right : LinkedTree ι α) :
    ∃ kept inside, LinkedTree.node a item left right = side.node a item kept inside := by
  cases side with
  | left => exact ⟨left, right, rfl⟩
  | right => exact ⟨right, left, rfl⟩

end Side

namespace LinkedTree

/-! ## Trees -/

/-- The child on a side. -/
def child (side : Side) : LinkedTree ι α → LinkedTree ι α
  | nil => nil
  | node _ _ left right =>
      match side with
      | .left => left
      | .right => right

/-- A node is hung on a side of the root, and keeps what is there inside. -/
def hang (side : Side) (t : LinkedTree ι α) (a : ι) (item : α) (kept : LinkedTree ι α) :
    LinkedTree ι α :=
  match t with
  | nil => side.node a item kept nil
  | node c item' left right =>
      match side with
      | .left => node c item' (node a item kept left) right
      | .right => node c item' left (node a item right kept)

/-- `sideOf` tells on which side of the key an item is; it is `none` at the key. -/
def topDown (sideOf : α → Option Side) : LinkedTree ι α → LinkedTree ι α
  | nil => nil
  | node a item left right =>
      match sideOf item with
      | none => node a item left right
      | some .right =>
          match left with
          | nil => node a item nil right
          | node b item' outer inner =>
              if sideOf item' = some .right then
                (topDown sideOf outer).hang .right b item' (node a item inner right)
              else (topDown sideOf (node b item' outer inner)).hang .right a item right
      | some .left =>
          match right with
          | nil => node a item left nil
          | node b item' inner outer =>
              if sideOf item' = some .left then
                (topDown sideOf outer).hang .left b item' (node a item left inner)
              else (topDown sideOf (node b item' inner outer)).hang .left a item left

/-- The number of nodes on the way to the key. -/
def visited (sideOf : α → Option Side) : LinkedTree ι α → ℕ
  | nil => 0
  | node _ item left right =>
      match sideOf item with
      | none => 1
      | some .right => visited sideOf left + 1
      | some .left => visited sideOf right + 1

variable {sideOf : α → Option Side} {side : Side} {a b : ι} {item item' : α}
  {t t' kept inside inner outer : LinkedTree ι α}

@[simp] theorem length_toList_node (a : ι) (item : α) (left right : LinkedTree ι α) :
    (node a item left right).toList.length = left.toList.length + right.toList.length + 1 := by
  simp [toList]
  omega

@[simp] theorem length_toList_side : (side.node a item kept inside).toList.length =
    kept.toList.length + inside.toList.length + 1 := by
  cases side <;> simp [Side.node]
  omega

theorem topDown_here (h : sideOf item = none) (left right : LinkedTree ι α) :
    (node a item left right).topDown sideOf = node a item left right := by
  rw [topDown.eq_def]
  simp [h]

theorem topDown_side_nil (side : Side) (h : sideOf item = some side) :
    (side.node a item kept nil).topDown sideOf = side.node a item kept nil := by
  rw [topDown.eq_def]
  cases side <;> simp [Side.node, h]

/-- Two steps in the same direction. -/
theorem topDown_same (side : Side) (h : sideOf item = some side) (h' : sideOf item' = some side) :
    (side.node a item kept (side.node b item' inner outer)).topDown sideOf =
      (outer.topDown sideOf).hang side b item' (side.node a item kept inner) := by
  rw [topDown.eq_def]
  cases side <;> simp [Side.node, h, h']

/-- A step after which the direction changes, or the way ends. -/
theorem topDown_turn (side : Side) (h : sideOf item = some side) (h' : sideOf item' ≠ some side)
    (left right : LinkedTree ι α) :
    (side.node a item kept (node b item' left right)).topDown sideOf =
      ((node b item' left right).topDown sideOf).hang side a item kept := by
  rw [topDown.eq_def]
  cases side <;> simp [Side.node, h, h']

theorem visited_side (side : Side) (h : sideOf item = some side) :
    (side.node a item kept inside).visited sideOf = inside.visited sideOf + 1 := by
  cases side <;> simp [visited, Side.node, h]

theorem length_hang : (t.hang side a item kept).toList.length =
    t.toList.length + kept.toList.length + 1 := by
  cases t <;> cases side <;> simp [hang, Side.node, toList] <;> omega

/-- No node is lost. -/
theorem length_topDown (sideOf : α → Option Side) (t : LinkedTree ι α) :
    (t.topDown sideOf).toList.length = t.toList.length := by
  induction h : t.toList.length using Nat.strong_induction_on generalizing t with
  | _ n ih =>
    subst h
    cases t with
    | nil => rfl
    | node a item left right =>
        cases hside : sideOf item with
        | none => rw [topDown_here hside]
        | some side =>
            obtain ⟨kept, inside, hnode⟩ := side.exists_node a item left right
            rw [hnode] at ih ⊢
            cases inside with
            | nil => rw [topDown_side_nil side hside]
            | node b item' left' right' =>
                by_cases hside' : sideOf item' = some side
                · obtain ⟨inner, outer, hnode'⟩ := side.exists_node b item' left' right'
                  rw [hnode'] at ih ⊢
                  rw [topDown_same side hside hside', length_hang, ih _ (by simp; omega) outer rfl]
                  simp
                  omega
                · rw [topDown_turn side hside hside', length_hang, ih _ (by simp) _ rfl]
                  simp
                  omega

theorem child_length_add (h : t ≠ nil) (side : Side) :
    (t.child side).toList.length + (t.child side.opposite).toList.length + 1 =
      t.toList.length := by
  cases t with
  | nil => exact absurd rfl h
  | node a item left right =>
      rw [length_toList_node]
      cases side <;> simp only [child, Side.opposite]
      omega

theorem child_hang_opposite (h : t ≠ nil) :
    (t.hang side a item kept).child side.opposite = t.child side.opposite := by
  cases t with
  | nil => exact absurd rfl h
  | node => cases side <;> rfl

theorem hang_ne_nil : t.hang side a item kept ≠ nil := by
  cases t <;> cases side <;> simp [hang, Side.node]

/-! ## Ranks -/

noncomputable def rank (t : LinkedTree ι α) : ℝ :=
  Real.logb 2 (t.toList.length + 1)

noncomputable def potential : LinkedTree ι α → ℝ
  | nil => 0
  | node a item left right => (node a item left right).rank + left.potential + right.potential

theorem rank_le {t t' : LinkedTree ι α} (h : t.toList.length ≤ t'.toList.length) :
    t.rank ≤ t'.rank := by
  refine Real.logb_le_logb_of_le one_lt_two (by positivity) ?_
  exact_mod_cast Nat.succ_le_succ h

theorem rank_nonneg (t : LinkedTree ι α) : 0 ≤ t.rank :=
  Real.logb_nonneg one_lt_two (by simp)

/-- The ranks of two parts of a tree are not both close to its own. -/
theorem rank_add_rank_le {t l r : LinkedTree ι α}
    (h : l.toList.length + r.toList.length + 1 ≤ t.toList.length) :
    l.rank + r.rank + 2 ≤ 2 * t.rank := by
  have hl : (0 : ℝ) < l.toList.length + 1 := by positivity
  have hr : (0 : ℝ) < r.toList.length + 1 := by positivity
  have ht : (0 : ℝ) < t.toList.length + 1 := by positivity
  have hsum : (l.toList.length + 1 : ℝ) + (r.toList.length + 1) ≤ t.toList.length + 1 := by
    exact_mod_cast by omega
  have hproduct : (l.toList.length + 1 : ℝ) * (r.toList.length + 1) * 2 ^ 2 ≤
      (t.toList.length + 1) ^ 2 := by
    nlinarith [sq_nonneg ((l.toList.length + 1 : ℝ) - (r.toList.length + 1))]
  have hlog := Real.logb_le_logb_of_le one_lt_two (by positivity) hproduct
  rw [Real.logb_mul (by positivity) (by positivity), Real.logb_mul hl.ne' hr.ne', Real.logb_pow,
    Real.logb_pow, Real.logb_self_eq_one one_lt_two] at hlog
  simpa [rank] using hlog

theorem potential_side : (side.node a item kept inside).potential =
    (side.node a item kept inside).rank + kept.potential + inside.potential := by
  cases side <;> simp only [Side.node, potential]
  ring

/-- The nodes on the spine of the side that a node is hung on are those of a larger tree. -/
theorem potential_hang_le : (t.hang side a item kept).potential + t.rank ≤
    t.potential + (t.hang side a item kept).rank +
      ((t.hang side a item kept).child side).rank + kept.potential := by
  cases t with
  | nil =>
      have hnil : (nil : LinkedTree ι α).rank = 0 := by simp [rank, toList]
      have := rank_nonneg (((nil : LinkedTree ι α).hang side a item kept).child side)
      rw [hang, potential_side, hnil] at *
      simp only [potential]
      linarith
  | node c item' left right =>
      cases side <;> simp only [hang, child, potential] <;> linarith

/-- A tree is split at its root, and the parts get a new root. -/
theorem potential_split_left (a b : ι) (item item' : α) (left right : LinkedTree ι α) :
    (node b item' (node a item left nil) right).potential ≤
      (node a item left right).potential + (node b item' (node a item left nil) right).rank := by
  have hrank : (node a item left nil).rank ≤ (node a item left right).rank :=
    rank_le (by simp [toList])
  simp only [potential]
  linarith

theorem potential_split_right (a b : ι) (item item' : α) (left right : LinkedTree ι α) :
    (node b item' left (node a item nil right)).potential ≤
      (node a item left right).potential + (node b item' left (node a item nil right)).rank := by
  have hrank : (node a item nil right).rank ≤ (node a item left right).rank :=
    rank_le (by simp [toList])
  simp only [potential]
  linarith

theorem potential_nonneg (t : LinkedTree ι α) : 0 ≤ t.potential := by
  induction t with
  | nil => exact le_refl _
  | node a item left right ihleft ihright =>
      have := rank_nonneg (node a item left right)
      simp only [potential]
      linarith

/-- No rank is larger than that of the root. -/
theorem potential_le (t : LinkedTree ι α) : t.potential ≤ t.toList.length * t.rank := by
  induction t with
  | nil => simp [potential, toList]
  | node a item left right ihleft ihright =>
      have hleft : left.rank ≤ (node a item left right).rank := rank_le (by simp; omega)
      have hright : right.rank ≤ (node a item left right).rank := rank_le (by simp; omega)
      calc (node a item left right).potential
          = (node a item left right).rank + left.potential + right.potential := rfl
        _ ≤ (node a item left right).rank + left.toList.length * (node a item left right).rank +
              right.toList.length * (node a item left right).rank := by
            gcongr
            · exact ihleft.trans (by gcongr)
            · exact ihright.trans (by gcongr)
        _ = (node a item left right).toList.length * (node a item left right).rank := by
            rw [length_toList_node]
            push_cast
            ring

theorem potential_mapItems (f : ι → α → α) (t : LinkedTree ι α) :
    (t.mapItems f).potential = t.potential := by
  induction t with
  | nil => rfl
  | node a item left right ihleft ihright =>
      have hlength := congrArg List.length (toList_mapItems f (node a item left right))
      rw [List.length_map] at hlength
      rw [mapItems] at hlength ⊢
      rw [potential, potential, ihleft, ihright, rank, rank, hlength]

theorem rank_topDown (t : LinkedTree ι α) : (t.topDown sideOf).rank = t.rank := by
  rw [rank, rank, length_topDown sideOf]

theorem topDown_ne_nil (h : t ≠ nil) : t.topDown sideOf ≠ nil := by
  intro hnil
  have hlength := length_topDown sideOf t
  rw [hnil] at hlength
  cases t with
  | nil => exact h rfl
  | node => simp [toList] at hlength

/-! ## The cost -/

/-- What a splay may cost. -/
structure Charged (sideOf : α → Option Side) (t : LinkedTree ι α) : Prop where
  whole : t.visited sideOf + (t.topDown sideOf).potential ≤ t.potential + 3 * t.rank + 1
  /-- where the root does not go to a side, the last rank is that of what hangs on the other -/
  opposite : ∀ side a item left right, t = node a item left right → sideOf item ≠ some side →
    t.visited sideOf + (t.topDown sideOf).potential ≤
      t.potential + 2 * t.rank + ((t.topDown sideOf).child side.opposite).rank + 2

theorem Charged.of_side (cost : ℝ) (h : sideOf item = some side)
    (hcost : ((side.node a item kept inside).visited sideOf : ℝ) = cost)
    (ht' : (side.node a item kept inside).topDown sideOf = t')
    (hwhole : cost + t'.potential ≤ (side.node a item kept inside).potential +
      3 * (side.node a item kept inside).rank + 1)
    (hopposite : cost + t'.potential ≤ (side.node a item kept inside).potential +
      2 * (side.node a item kept inside).rank + (t'.child side).rank + 2) :
    Charged sideOf (side.node a item kept inside) := by
  subst hcost ht'
  refine ⟨hwhole, fun other c item' left right hnode hother => ?_⟩
  have hitem : item' = item := by
    cases side <;> exact (LinkedTree.node.inj hnode).2.1.symm
  rw [hitem, h] at hother
  rw [Side.eq_opposite hother, Side.opposite_opposite]
  exact hopposite

/-- The way ends at a null pointer. -/
theorem charged_end (h : sideOf item = some side) (a : ι) (kept : LinkedTree ι α) :
    Charged sideOf (side.node a item kept nil) := by
  have hrank := rank_nonneg (side.node a item kept nil)
  refine Charged.of_side 1 h ?_ (topDown_side_nil side h) ?_ ?_
  · rw [visited_side side h]
    simp [visited]
  · linarith
  · linarith [rank_nonneg ((side.node a item kept nil).child side)]

/-- Two steps in the same direction pay for themselves: of the two nodes, one comes to lie
beside what is still ahead. -/
theorem charged_same (h : sideOf item = some side) (h' : sideOf item' = some side)
    (houter : Charged sideOf outer) (a b : ι) (kept inner : LinkedTree ι α) :
    Charged sideOf (side.node a item kept (side.node b item' inner outer)) := by
  let moved := side.node a item kept inner
  let t := side.node a item kept (side.node b item' inner outer)
  let t' := (outer.topDown sideOf).hang side b item' moved
  have hwhole := houter.whole
  have hhang : t'.potential + (outer.topDown sideOf).rank ≤
      (outer.topDown sideOf).potential + t'.rank + (t'.child side).rank + moved.potential :=
    potential_hang_le
  have hmoved : moved.potential = moved.rank + kept.potential + inner.potential := potential_side
  have hpotential : t.potential = t.rank + kept.potential +
      ((side.node b item' inner outer).rank + inner.potential + outer.potential) := by
    rw [← potential_side]
    exact potential_side
  have hlength : t'.toList.length = t.toList.length := by
    rw [← length_topDown sideOf t, topDown_same side h h']
  have hrank : t'.rank = t.rank := by
    rw [rank, rank, hlength]
  have hchild : (t'.child side).rank ≤ t.rank := by
    have hne : t' ≠ nil := hang_ne_nil
    have := child_length_add hne side
    exact rank_le (by omega)
  have hparts : outer.rank + moved.rank + 2 ≤ 2 * t.rank :=
    rank_add_rank_le (by simp only [moved, t, length_toList_side]; omega)
  have hstep : outer.rank ≤ (side.node b item' inner outer).rank :=
    rank_le (by rw [length_toList_side]; omega)
  rw [rank_topDown] at hhang
  refine Charged.of_side (outer.visited sideOf + 2) h ?_ (topDown_same side h h') ?_ ?_
  · rw [visited_side side h, visited_side side h']
    push_cast
    ring
  · show _ + t'.potential ≤ t.potential + 3 * t.rank + 1
    linarith
  · show _ + t'.potential ≤ t.potential + 2 * t.rank + (t'.child side).rank + 2
    linarith

/-- A single link is paid for by the step in the other direction that follows. -/
theorem charged_turn (h : sideOf item = some side) (h' : sideOf item' ≠ some side)
    {left right : LinkedTree ι α} (hinside : Charged sideOf (node b item' left right)) (a : ι)
    (kept : LinkedTree ι α) :
    Charged sideOf (side.node a item kept (node b item' left right)) := by
  let inside := node b item' left right
  let t := side.node a item kept inside
  let t' := (inside.topDown sideOf).hang side a item kept
  have hwhole := hinside.whole
  have hopposite := hinside.opposite side b item' left right rfl h'
  have hne : inside.topDown sideOf ≠ nil := topDown_ne_nil (by simp [inside])
  have hhang : t'.potential + (inside.topDown sideOf).rank ≤
      (inside.topDown sideOf).potential + t'.rank + (t'.child side).rank + kept.potential :=
    potential_hang_le
  have hpotential : t.potential = t.rank + kept.potential + inside.potential := potential_side
  have hlength : t'.toList.length = t.toList.length := by
    rw [← length_topDown sideOf t, topDown_turn side h h']
  have hrank : t'.rank = t.rank := by
    rw [rank, rank, hlength]
  have hother : t'.child side.opposite = (inside.topDown sideOf).child side.opposite :=
    child_hang_opposite hne
  -- no node is on both sides
  have hparts : (t'.child side).rank + (t'.child side.opposite).rank + 2 ≤ 2 * t.rank := by
    have hne : t' ≠ nil := hang_ne_nil
    have := child_length_add hne side
    exact rank_add_rank_le (by omega)
  have hstep : inside.rank ≤ t.rank := rank_le (by simp only [t, length_toList_side]; omega)
  rw [rank_topDown] at hhang
  rw [← hother] at hopposite
  refine Charged.of_side (inside.visited sideOf + 1) h ?_ (topDown_turn side h h' _ _) ?_ ?_
  · rw [visited_side side h]
    push_cast
    rfl
  · show _ + t'.potential ≤ t.potential + 3 * t.rank + 1
    linarith
  · show _ + t'.potential ≤ t.potential + 2 * t.rank + (t'.child side).rank + 2
    linarith

theorem charged (t : LinkedTree ι α) : Charged sideOf t := by
  induction h : t.toList.length using Nat.strong_induction_on generalizing t with
  | _ n ih =>
    subst h
    cases t with
    | nil =>
        refine ⟨?_, fun side a item left right hnode => nomatch hnode⟩
        have := rank_nonneg (nil : LinkedTree ι α)
        simp only [visited, topDown, potential, Nat.cast_zero]
        linarith
    | node a item left right =>
        cases hside : sideOf item with
        | none =>
            have hvisited : (node a item left right).visited sideOf = 1 := by
              simp [visited, hside]
            have hrank := rank_nonneg (node a item left right)
            refine ⟨?_, fun side _ _ _ _ _ _ => ?_⟩
            · rw [hvisited, topDown_here hside]
              push_cast
              linarith
            · rw [hvisited, topDown_here hside]
              push_cast
              linarith [rank_nonneg ((node a item left right).child side.opposite)]
        | some side =>
            obtain ⟨kept, inside, hnode⟩ := side.exists_node a item left right
            rw [hnode] at ih ⊢
            cases inside with
            | nil => exact charged_end hside a kept
            | node b item' left' right' =>
                by_cases hside' : sideOf item' = some side
                · obtain ⟨inner, outer, hnode'⟩ := side.exists_node b item' left' right'
                  rw [hnode'] at ih ⊢
                  exact charged_same hside hside' (ih _ (by simp; omega) outer rfl) a b kept inner
                · exact charged_turn hside hside' (ih _ (by simp) _ rfl) a kept

/-- A splay in sequences of splays: the potential pays for the nodes on the way beyond three
times the logarithm of the size. -/
theorem visited_add_potential_le (sideOf : α → Option Side) (t : LinkedTree ι α) :
    t.visited sideOf + (t.topDown sideOf).potential ≤ t.potential + 3 * t.rank + 1 :=
  (charged t).whole

end LinkedTree

end RayPlatform.Lib
