import Mathlib.Data.List.Basic
import Mathlib.Logic.Function.Basic

/-!
# Free lists

Free blocks that hold the links of the list they are in. `Chain next head nodes` says
that following `next` from `head` meets the nodes, in this order, and ends.

Free blocks of several sizes are one list of pairs; `binned k` are those of size `k`.
Putting a block back, or taking the first one of a size, changes one bin
(`binned_cons_of_ne`, `binned_erase_of_ne`).
-/

namespace RayPlatform.Lib.FreeList

variable {α : Type*}

/-! ## Chains -/

def Chain (next : α → Option α) : Option α → List α → Prop
  | head, [] => head = none
  | head, node :: nodes => head = some node ∧ Chain next (next node) nodes

variable {next next' : α → Option α} {head : Option α} {nodes : List α}

/-- A chain only depends on the links of its nodes. -/
theorem Chain.congr (h : Chain next head nodes) (hsame : ∀ node ∈ nodes, next' node = next node) :
    Chain next' head nodes := by
  induction nodes generalizing head with
  | nil => exact h
  | cons node nodes ih =>
      refine ⟨h.1, ?_⟩
      rw [hsame node List.mem_cons_self]
      exact ih h.2 fun other hother => hsame other (List.mem_cons_of_mem _ hother)

/-- A new first node that links to the old one. -/
theorem Chain.push [DecidableEq α] (h : Chain next head nodes) {node : α} (hnew : node ∉ nodes) :
    Chain (Function.update next node head) (some node) (node :: nodes) := by
  refine ⟨rfl, ?_⟩
  rw [Function.update_self]
  refine h.congr fun other hother => Function.update_of_ne ?_ _ _
  rintro rfl
  exact hnew hother

/-! ## Bins -/

/-- The blocks of size `k`, in the order of the list. -/
def binned (k : Nat) (blocks : List (α × Nat)) : List α :=
  (blocks.filter fun b => b.2 = k).map Prod.fst

theorem mem_binned {k : Nat} {blocks : List (α × Nat)} {a : α} :
    a ∈ binned k blocks ↔ (a, k) ∈ blocks := by
  unfold binned
  rw [List.mem_map]
  constructor
  · rintro ⟨b, hb, rfl⟩
    obtain ⟨hb, hk⟩ := List.mem_filter.mp hb
    rwa [← of_decide_eq_true hk]
  · exact fun h => ⟨(a, k), List.mem_filter.mpr ⟨h, decide_eq_true rfl⟩, rfl⟩

theorem binned_cons_self (a : α) (k : Nat) (blocks : List (α × Nat)) :
    binned k ((a, k) :: blocks) = a :: binned k blocks := by
  simp [binned]

theorem binned_cons_of_ne (a : α) {j k : Nat} (hne : j ≠ k) (blocks : List (α × Nat)) :
    binned k ((a, j) :: blocks) = binned k blocks := by
  simp [binned, hne]

variable [DecidableEq α]

/-- Taking the first block of a size leaves the others of this size. -/
theorem binned_erase_self {a : α} {k : Nat} {blocks : List (α × Nat)} {rest : List α}
    (h : binned k blocks = a :: rest) : binned k (blocks.erase (a, k)) = rest := by
  induction blocks with
  | nil => exact absurd h (by simp [binned])
  | cons b blocks ih =>
      obtain ⟨first, j⟩ := b
      by_cases hj : j = k
      · subst hj
        rw [binned_cons_self] at h
        obtain ⟨rfl, rfl⟩ := List.cons.inj h
        rw [List.erase_cons_head]
      · rw [binned_cons_of_ne _ hj] at h
        have hne : ((first, j) == (a, k)) = false := by
          simp [hj]
        rw [List.erase_cons_tail (by simp [hne]), binned_cons_of_ne _ hj, ih h]

theorem binned_erase_of_ne (a : α) {j k : Nat} (hne : j ≠ k) (blocks : List (α × Nat)) :
    binned k (blocks.erase (a, j)) = binned k blocks := by
  induction blocks with
  | nil => rfl
  | cons b blocks ih =>
      obtain ⟨first, i⟩ := b
      by_cases hsame : (first, i) = (a, j)
      · obtain ⟨rfl, rfl⟩ := Prod.mk.inj hsame
        rw [List.erase_cons_head, binned_cons_of_ne _ hne]
      · rw [List.erase_cons_tail (by simpa using hsame)]
        unfold binned at ih ⊢
        rw [List.filter_cons, List.filter_cons]
        split
        · rw [List.map_cons, List.map_cons, ih]
        · exact ih

end RayPlatform.Lib.FreeList
