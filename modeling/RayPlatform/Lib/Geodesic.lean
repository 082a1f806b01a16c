import RayPlatform.Lib.Coordinates
import RayPlatform.Lib.ShortestPath
import RayPlatform.Lib.Words

/-!
# Distances and shortest walks

A function on vertices that no edge lowers by more than one is a lower bound for walks
(`Walk.le_add`). Where there is also an edge that lowers it by one it is the length of the
shortest walks to where it is zero (`Descends.isShortest`).

* `overlap_append_le` — a shift by one symbol makes the overlap with a word at most one
  symbol longer;
* `distance_le_succ` — a change of one coordinate changes a distance by coordinates by what
  it changes there;
* `mismatch_le_succ`, `cyclic_le_succ` — the two distances of symbols.
-/

namespace RayPlatform.Lib

/-- A value that edges lower by at most one. The vertices that are of interest are closed. -/
theorem Walk.le_add {V : Type*} {edge : V → V → Prop} {vertex : V → Prop} {f : V → Nat}
    (hedge : ∀ u v, vertex u → edge u v → vertex v ∧ f u ≤ f v + 1) {source v : V} {n : Nat}
    (hsource : vertex source) (h : Walk edge source n v) : vertex v ∧ f source ≤ f v + n := by
  induction h with
  | start => exact ⟨hsource, le_refl _⟩
  | hop _ hlast ih =>
      obtain ⟨hu, hle⟩ := ih
      obtain ⟨hv, hstep⟩ := hedge _ _ hu hlast
      exact ⟨hv, by omega⟩

/-- There is a walk of so many hops, and none of less. -/
structure IsShortest {V : Type*} (edge : V → V → Prop) (source v : V) (n : Nat) : Prop where
  walk : Walk edge source n v
  least : ∀ k, Walk edge source k v → n ≤ k

/-- A distance to a destination: every other vertex has an edge that comes one closer, and no
edge comes closer than that. -/
structure Descends {V : Type*} (edge : V → V → Prop) (vertex : V → Prop) (destination : V)
    (f : V → Nat) : Prop where
  there : ∀ v, vertex v → (f v = 0 ↔ v = destination)
  closer : ∀ v, vertex v → v ≠ destination → ∃ next, vertex next ∧ edge v next ∧ f v = f next + 1
  least : ∀ u v, vertex u → edge u v → vertex v ∧ f u ≤ f v + 1

namespace Descends

variable {V : Type*} {edge : V → V → Prop} {vertex : V → Prop} {destination : V} {f : V → Nat}

theorem walk (h : Descends edge vertex destination f) {n : Nat} :
    ∀ v, vertex v → f v = n → Walk edge v n destination := by
  induction n with
  | zero =>
      intro v hv hzero
      rw [(h.there v hv).mp hzero]
      exact .start
  | succ n ih =>
      intro v hv hn
      have hne : v ≠ destination := fun heq => by
        have := (h.there v hv).mpr heq
        omega
      obtain ⟨next, hnext, hedge, hcloser⟩ := h.closer v hv hne
      exact (ih next hnext (by omega)).cons hedge

theorem isShortest (h : Descends edge vertex destination f) {source : V} (hsource : vertex source) :
    IsShortest edge source destination (f source) := by
  refine ⟨h.walk source hsource rfl, fun k hwalk => ?_⟩
  obtain ⟨hdestination, hle⟩ := Walk.le_add h.least hsource hwalk
  have hzero := (h.there destination hdestination).mpr rfl
  omega

end Descends

/-! ## Shifts -/

section Shifts

variable {α : Type*} {a b w : List α} {x : α}

theorem suffix_of_append_suffix {u : List α} {y : α} (h : u ++ [y] <:+ w ++ [x]) : u <:+ w := by
  obtain ⟨front, hfront⟩ := h
  rw [← List.append_assoc] at hfront
  exact ⟨front, (List.append_inj' hfront rfl).1⟩

/-- What a word that has lost its first symbols overlaps was overlapped before. -/
theorem overlap_append_le [DecidableEq α] (h : w <:+ a) : overlap (w ++ [x]) b ≤ overlap a b + 1 := by
  have hle := overlap_le_length (w ++ [x]) b
  have hsuffix := take_overlap_suffix (w ++ [x]) b
  cases hlength : overlap (w ++ [x]) b with
  | zero => exact Nat.zero_le _
  | succ m =>
      rw [hlength] at hle hsuffix
      rw [List.take_succ_eq_append_getElem (by omega)] at hsuffix
      have hbegins := (suffix_of_append_suffix hsuffix).trans h
      have := le_overlap (by omega) hbegins
      omega

end Shifts

/-! ## Coordinates -/

section Coordinates

variable {α : Type*} {δ : α → α → Nat} {a a' b : List α} {p : Nat}

theorem distance_le_succ (hlength : a.length = b.length) (hp : p < a.length) {v : α}
    (ha' : a' = a.set p v) (hδ : ∀ y ∈ b, δ a[p] y ≤ δ v y + 1) :
    distance δ a b ≤ distance δ a' b + 1 := by
  subst ha'
  have hset := distance_set (δ := δ) (b := b) hp (hlength ▸ hp) v
  have := hδ _ (List.getElem_mem (hlength ▸ hp))
  omega

theorem mismatch_le_succ [DecidableEq α] (x v y : α) : mismatch x y ≤ mismatch v y + 1 := by
  unfold mismatch
  split <;> omega

/-- A step on the ring changes the shorter way by at most one. -/
theorem cyclic_le_succ {r x y v : Nat} (hx : x < r) (hy : y < r)
    (hv : v = (x + 1) % r ∨ v = (x + r - 1) % r) : cyclic r x y ≤ cyclic r v y + 1 := by
  by_cases hne : x = y
  · subst hne
    rw [cyclic, stepsDown_self hx]
    omega
  · have hlt : v < r := by
      rcases hv with rfl | rfl <;> exact Nat.mod_lt _ (by omega)
    have hround := stepsDown_add hx hy hne
    have hdown := stepsDown_pred hx hy hne
    have hup := stepsDown_succ hx hy hne
    rw [cyclic, cyclic]
    by_cases hthere : v = y
    · -- one step is the shorter way
      have hself := stepsDown_self hy
      rcases hv with hv | hv
      · rw [← hv, hthere] at hup
        omega
      · rw [← hv, hthere] at hdown
        omega
    · have hround' := stepsDown_add hlt hy hthere
      rcases hv with hv | hv
      · rw [← hv] at hup
        omega
      · rw [← hv] at hdown
        omega

end Coordinates

end RayPlatform.Lib
