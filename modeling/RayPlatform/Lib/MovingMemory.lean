import Mathlib.Logic.Function.Basic
import Mathlib.Tactic.TypeStar

/-!
# Memory whose blocks move

A client holds handles of blocks of cells. The address of a block is asked for each time,
because any call to the allocator may move the live blocks: the calls are relations between
memories (`Allocates`, `Deallocates`) that keep the contents of the blocks and not their
addresses.

* `read` is the contents of a block as a list;
* `cells_copy` — what a copy loop between disjoint ranges leaves;
* `Kept.read` — what a call keeps.
-/

namespace RayPlatform.Lib

structure MovingMemory (V : Type*) where
  /-- the cells of the block of a handle, 0 for a handle that is not live -/
  size : Nat → Nat
  pointer : Nat → Nat
  cells : Nat → V

namespace MovingMemory

variable {V : Type*} {m m' : MovingMemory V}

def Disjoint (m : MovingMemory V) (a b : Nat) : Prop :=
  m.pointer a + m.size a ≤ m.pointer b ∨ m.pointer b + m.size b ≤ m.pointer a

/-- The live blocks do not overlap, and `null` is the handle of none. -/
structure Sound (null : Nat) (m : MovingMemory V) : Prop where
  null : m.size null = 0
  disjoint : ∀ a b, a ≠ b → m.size a ≠ 0 → m.size b ≠ 0 → m.Disjoint a b

/-- Every block but that of `touched` keeps its size and its cells. -/
def Kept (m m' : MovingMemory V) (touched : Nat) : Prop :=
  ∀ a, a ≠ touched → m'.size a = m.size a ∧
    ∀ i < m.size a, m'.cells (m'.pointer a + i) = m.cells (m.pointer a + i)

/-- A call that returned the handle `a` of a new block of `n` cells. -/
structure Allocates (null : Nat) (m : MovingMemory V) (n a : Nat) (m' : MovingMemory V) : Prop where
  fresh : m.size a = 0
  size : m'.size a = n
  kept : m.Kept m' a
  sound : m'.Sound null

/-- A call that gave back the block of `a`. -/
structure Deallocates (null : Nat) (m : MovingMemory V) (a : Nat) (m' : MovingMemory V) : Prop where
  size : m'.size a = 0
  kept : m.Kept m' a
  sound : m'.Sound null

/-- A block may be given back without any other moving. -/
theorem Sound.exists_deallocates {null : Nat} (h : m.Sound null) (a : Nat) :
    ∃ m' : MovingMemory V, m.Deallocates null a m' := by
  refine ⟨{ m with size := Function.update m.size a 0 }, Function.update_self .., ?_, ?_, ?_⟩
  · intro b hb
    exact ⟨Function.update_of_ne hb _ _, fun _ _ => rfl⟩
  · show Function.update m.size a 0 null = 0
    by_cases hnull : null = a
    · rw [hnull, Function.update_self]
    · rw [Function.update_of_ne hnull, h.null]
  · intro b c hbc hb hc
    have hlive : ∀ d, Function.update m.size a 0 d ≠ 0 → d ≠ a := by
      rintro d hd rfl
      exact hd (Function.update_self ..)
    have hb' := hlive b hb
    have hc' := hlive c hc
    show m.pointer b + Function.update m.size a 0 b ≤ m.pointer c ∨
      m.pointer c + Function.update m.size a 0 c ≤ m.pointer b
    rw [Function.update_of_ne hb', Function.update_of_ne hc']
    refine h.disjoint b c hbc ?_ ?_
    · exact fun hzero => hb ((Function.update_of_ne hb' _ _).trans hzero)
    · exact fun hzero => hc ((Function.update_of_ne hc' _ _).trans hzero)

/-! ## Contents -/

/-- The cells of a block. -/
def read (m : MovingMemory V) (a : Nat) : List V :=
  (List.range (m.size a)).map fun i => m.cells (m.pointer a + i)

@[simp] theorem length_read (m : MovingMemory V) (a : Nat) : (m.read a).length = m.size a := by
  simp [read]

theorem getElem?_read {a i : Nat} (hi : i < m.size a) :
    (m.read a)[i]? = some (m.cells (m.pointer a + i)) := by
  rw [read, List.getElem?_map, List.getElem?_range hi, Option.map_some]

theorem read_eq_nil {a : Nat} (h : m.size a = 0) : m.read a = [] := by
  rw [read, h]
  rfl

theorem Kept.read {touched : Nat} (h : m.Kept m' touched) {a : Nat} (ha : a ≠ touched) :
    m'.read a = m.read a := by
  obtain ⟨hsize, hcells⟩ := h a ha
  apply List.ext_getElem?
  intro i
  by_cases hi : i < m.size a
  · rw [getElem?_read hi, getElem?_read (by omega), hcells i hi]
  · rw [List.getElem?_eq_none (by rw [length_read]; omega),
      List.getElem?_eq_none (by rw [length_read]; omega)]

/-! ## Writing -/

def write (m : MovingMemory V) (p : Nat) (v : V) : MovingMemory V :=
  { m with cells := Function.update m.cells p v }

@[simp] theorem size_write (m : MovingMemory V) (p : Nat) (v : V) : (m.write p v).size = m.size :=
  rfl

@[simp] theorem pointer_write (m : MovingMemory V) (p : Nat) (v : V) :
    (m.write p v).pointer = m.pointer :=
  rfl

theorem Sound.write {null : Nat} (h : m.Sound null) (p : Nat) (v : V) :
    (m.write p v).Sound null :=
  ⟨h.null, h.disjoint⟩

/-- A write in one block leaves the others. -/
theorem kept_write {null : Nat} (h : m.Sound null) {a i : Nat} (hi : i < m.size a) (v : V) :
    m.Kept (m.write (m.pointer a + i) v) a := by
  intro b hb
  refine ⟨rfl, fun j hj => ?_⟩
  have hdisjoint := h.disjoint b a hb (by omega) (by omega)
  have hne : m.pointer b + j ≠ m.pointer a + i := by
    unfold Disjoint at hdisjoint
    omega
  exact Function.update_of_ne hne _ _

theorem read_write {a i : Nat} (hi : i < m.size a) (v : V) :
    (m.write (m.pointer a + i) v).read a = (m.read a).set i v := by
  apply List.ext_getElem?
  intro j
  rw [List.getElem?_set, length_read]
  by_cases hj : j < m.size a
  · rw [getElem?_read (by exact hj), getElem?_read hj]
    by_cases hij : i = j
    · subst hij
      rw [if_pos rfl, if_pos hi]
      exact congrArg some (Function.update_self ..)
    · rw [if_neg hij]
      exact congrArg some (Function.update_of_ne (by show m.pointer a + j ≠ _; omega) _ _)
  · rw [List.getElem?_eq_none (by rw [length_read]; exact Nat.le_of_not_lt hj), if_neg (by omega),
      List.getElem?_eq_none (by rw [length_read]; omega)]

/-! ## Copying -/

/-- `for(int i=0;i<n;i++) destination[i]=source[i];` -/
def copy (m : MovingMemory V) (destination source : Nat) : Nat → MovingMemory V
  | 0 => m
  | n + 1 =>
      let m := m.copy destination source n
      m.write (destination + n) (m.cells (source + n))

@[simp] theorem size_copy (m : MovingMemory V) (destination source n : Nat) :
    (m.copy destination source n).size = m.size := by
  induction n with
  | zero => rfl
  | succ n ih => exact ih

@[simp] theorem pointer_copy (m : MovingMemory V) (destination source n : Nat) :
    (m.copy destination source n).pointer = m.pointer := by
  induction n with
  | zero => rfl
  | succ n ih => exact ih

/-- The cells after a copy between ranges that do not overlap. -/
theorem cells_copy (m : MovingMemory V) {destination source n : Nat}
    (hdisjoint : destination + n ≤ source ∨ source + n ≤ destination) (p : Nat) :
    (m.copy destination source n).cells p =
      if destination ≤ p ∧ p < destination + n then m.cells (source + (p - destination))
      else m.cells p := by
  induction n generalizing p with
  | zero => rw [if_neg (by omega)]; rfl
  | succ n ih =>
      have hbefore := ih (by omega)
      show Function.update _ (destination + n) _ p = _
      by_cases hp : p = destination + n
      · subst hp
        rw [Function.update_self, hbefore, if_neg (by omega), if_pos (by omega),
          Nat.add_sub_cancel_left]
      · rw [Function.update_of_ne hp, hbefore]
        by_cases hin : destination ≤ p ∧ p < destination + n
        · rw [if_pos hin, if_pos (by omega)]
        · rw [if_neg hin, if_neg (by omega)]

end MovingMemory

end RayPlatform.Lib
