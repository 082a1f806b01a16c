import Mathlib.Data.List.Nodup
import Mathlib.Logic.Function.Basic
import RayPlatform.Lib.TransitionSystem

/-!
# Flows through queues

Items wait in queues, first in and first out, and go from one queue to another. All items of
a flow take the same path, which comes to no queue twice, but flows may share queues and the
queues are served in any order.

* `following` — the queue after another one on a path;
* `FlowNetwork.InOrder` — the items of a flow that have entered are, in this order, those that
  have left and those that wait, from the last queue of its path to the first;
* `FlowNetwork.left_isPrefix` — no item overtakes another one of its flow.
-/

namespace RayPlatform.Lib

section Lists

variable {α Q : Type*}

/-- The element after the first occurrence of another one. -/
def following [DecidableEq Q] (q : Q) : List Q → Option Q
  | [] => none
  | p :: path => if p = q then path.head? else following q path

theorem following_append [DecidableEq Q] {q : Q} {front : List Q} (back : List Q)
    (h : q ∉ front) : following q (front ++ q :: back) = back.head? := by
  induction front with
  | nil => simp [following]
  | cons p front ih =>
      rw [List.mem_cons, not_or] at h
      rw [List.cons_append, following, if_neg (Ne.symm h.1)]
      exact ih h.2

/-- The first element of its kind, and the others of this kind. -/
theorem filter_eraseIdx_first {P : α → Bool} {l : List α} {i : Nat} {a : α}
    (hget : l[i]? = some a) (ha : P a = true)
    (hfirst : ∀ j < i, ∀ b, l[j]? = some b → P b = false) :
    l.filter P = a :: (l.eraseIdx i).filter P := by
  induction l generalizing i with
  | nil => simp at hget
  | cons b l ih =>
      cases i with
      | zero =>
          obtain rfl : b = a := by simpa using hget
          simp [ha]
      | succ i =>
          have hb : P b = false := hfirst 0 (Nat.succ_pos i) b rfl
          have hrest := ih (i := i) (by simpa using hget) fun j hj c hc =>
            hfirst (j + 1) (by omega) c (by simpa using hc)
          rw [List.eraseIdx_cons_succ, List.filter_cons_of_neg (by simp [hb]),
            List.filter_cons_of_neg (by simp [hb]), hrest]

theorem filter_eraseIdx_of_not {P : α → Bool} {l : List α} {i : Nat} {a : α}
    (hget : l[i]? = some a) (ha : P a = false) : (l.eraseIdx i).filter P = l.filter P := by
  induction l generalizing i with
  | nil => rfl
  | cons b l ih =>
      cases i with
      | zero =>
          obtain rfl : b = a := by simpa using hget
          simp [ha]
      | succ i =>
          rw [List.eraseIdx_cons_succ, List.filter_cons, List.filter_cons,
            ih (by simpa using hget)]

end Lists

/-- The flow of an item, and the queues that a flow comes through. -/
structure FlowNetwork (Q F α : Type*) where
  flow : α → F
  path : F → List Q

structure Flowing (Q α : Type*) where
  waiting : Q → List α
  /-- all items so far -/
  entered : List α
  /-- those that have come to the end of their path -/
  left : List α

inductive FlowStep (Q α : Type*)
  | enter (a : α)
  /-- the first item of a queue goes on -/
  | advance (q : Q)

namespace FlowNetwork

variable {Q F α : Type*} (net : FlowNetwork Q F α)

section System

variable [DecidableEq Q]

def exec (s : Flowing Q α) : FlowStep Q α → Option (Flowing Q α)
  | .enter a =>
      (net.path (net.flow a)).head?.map fun q =>
        { s with
          waiting := Function.update s.waiting q (s.waiting q ++ [a])
          entered := s.entered ++ [a] }
  | .advance q =>
      match s.waiting q with
      | [] => none
      | a :: rest =>
          let waiting := Function.update s.waiting q rest
          match following q (net.path (net.flow a)) with
          | none => some { s with waiting, left := s.left ++ [a] }
          | some next =>
              some { s with waiting := Function.update waiting next (waiting next ++ [a]) }

def start : Flowing Q α :=
  { waiting := fun _ => [], entered := [], left := [] }

def system : TransitionSystem (Flowing Q α) (FlowStep Q α) :=
  .ofExec start net.exec

end System

variable [DecidableEq F]

/-- The items of a flow. -/
def ofFlow (f : F) (items : List α) : List α :=
  items.filter fun a => net.flow a = f

/-- The items of a flow that wait in some queues, the last queue first. -/
def pending (f : F) (waiting : Q → List α) (path : List Q) : List α :=
  path.reverse.flatMap fun q => net.ofFlow f (waiting q)

/-- No item has overtaken another one of its flow. -/
structure InOrder (s : Flowing Q α) : Prop where
  onPath : ∀ q, ∀ a ∈ s.waiting q, q ∈ net.path (net.flow a)
  ordered : ∀ f, net.ofFlow f s.entered =
    net.ofFlow f s.left ++ net.pending f s.waiting (net.path f)

variable {net} {s s' : Flowing Q α} {f : F} {a : α}

theorem ofFlow_cons_self (a : α) (l : List α) :
    net.ofFlow (net.flow a) (a :: l) = a :: net.ofFlow (net.flow a) l := by
  simp [ofFlow]

theorem ofFlow_cons_of_ne (h : net.flow a ≠ f) (l : List α) :
    net.ofFlow f (a :: l) = net.ofFlow f l := by
  simp [ofFlow, h]

theorem ofFlow_concat_self (a : α) (l : List α) :
    net.ofFlow (net.flow a) (l ++ [a]) = net.ofFlow (net.flow a) l ++ [a] := by
  simp [ofFlow]

theorem ofFlow_concat_of_ne (h : net.flow a ≠ f) (l : List α) :
    net.ofFlow f (l ++ [a]) = net.ofFlow f l := by
  simp [ofFlow, h]

/-- What waits on a path only depends on the items of the flow. -/
theorem pending_congr {waiting waiting' : Q → List α} {path : List Q}
    (h : ∀ q ∈ path, net.ofFlow f (waiting' q) = net.ofFlow f (waiting q)) :
    net.pending f waiting' path = net.pending f waiting path :=
  List.flatMap_congr fun q hq => h q (List.mem_reverse.mp hq)

theorem pending_append (waiting : Q → List α) (front back : List Q) :
    net.pending f waiting (front ++ back) =
      net.pending f waiting back ++ net.pending f waiting front := by
  simp [pending]

theorem pending_cons (waiting : Q → List α) (q : Q) (path : List Q) :
    net.pending f waiting (q :: path) =
      net.pending f waiting path ++ net.ofFlow f (waiting q) := by
  simp [pending]

theorem start_inOrder : net.InOrder (start : Flowing Q α) := by
  refine ⟨fun q a ha => absurd ha List.not_mem_nil, fun f => ?_⟩
  simp [start, pending, ofFlow]

/-- No item overtakes another one of its flow. -/
theorem InOrder.left_isPrefix (h : net.InOrder s) (f : F) :
    net.ofFlow f s.left <+: net.ofFlow f s.entered :=
  ⟨_, (h.ordered f).symm⟩

/-- Where nothing waits, everything has left. -/
theorem InOrder.left_eq (h : net.InOrder s) (hempty : ∀ q, s.waiting q = []) (f : F) :
    net.ofFlow f s.left = net.ofFlow f s.entered := by
  rw [h.ordered f]
  simp [pending, hempty, ofFlow]

variable [DecidableEq Q]

/-- The queues where nothing has changed. -/
theorem pending_update {waiting : Q → List α} {path : List Q} {q : Q} (hq : q ∉ path)
    (items : List α) :
    net.pending f (Function.update waiting q items) path = net.pending f waiting path := by
  refine pending_congr fun p hp => ?_
  have hne : p ≠ q := fun heq => hq (heq ▸ hp)
  rw [Function.update_of_ne hne]

/-- A queue where only other flows have changed. -/
theorem ofFlow_update {waiting : Q → List α} {q : Q} {items : List α}
    (h : net.ofFlow f items = net.ofFlow f (waiting q)) (p : Q) :
    net.ofFlow f (Function.update waiting q items p) = net.ofFlow f (waiting p) := by
  by_cases hp : p = q
  · subst hp
    rw [Function.update_self, h]
  · rw [Function.update_of_ne hp]

omit [DecidableEq F] in
/-- Each item waits where it did, but for a new one at the end of a queue of its path. -/
theorem InOrder.mem_update {waiting : Q → List α} {q : Q}
    (h : ∀ q, ∀ b ∈ waiting q, q ∈ net.path (net.flow b)) (hq : q ∈ net.path (net.flow a)) :
    ∀ p, ∀ b ∈ Function.update waiting q (waiting q ++ [a]) p, p ∈ net.path (net.flow b) := by
  intro p b hb
  by_cases hp : p = q
  · subst hp
    rw [Function.update_self, List.mem_append, List.mem_singleton] at hb
    rcases hb with hb | rfl
    · exact h p b hb
    · exact hq
  · rw [Function.update_of_ne hp] at hb
    exact h p b hb

theorem InOrder.enter (h : net.InOrder s) (hnodup : ∀ f, (net.path f).Nodup)
    (hstep : net.exec s (.enter a) = some s') : net.InOrder s' := by
  obtain ⟨q, hq, rfl⟩ := Option.map_eq_some_iff.mp hstep
  obtain ⟨path, hpath⟩ : ∃ path, net.path (net.flow a) = q :: path :=
    List.head?_eq_some_iff.mp hq
  refine ⟨InOrder.mem_update h.onPath (by rw [hpath]; exact List.mem_cons_self), fun f => ?_⟩
  show net.ofFlow f (s.entered ++ [a]) = net.ofFlow f s.left ++
    net.pending f (Function.update s.waiting q (s.waiting q ++ [a])) (net.path f)
  by_cases hf : net.flow a = f
  · subst hf
    have hnotMem : q ∉ path := (List.nodup_cons.mp (hpath ▸ hnodup (net.flow a))).1
    have hordered := h.ordered (net.flow a)
    rw [hpath, pending_cons] at hordered
    rw [ofFlow_concat_self, hordered, hpath, pending_cons, pending_update hnotMem,
      Function.update_self, ofFlow_concat_self]
    simp only [List.append_assoc]
  · rw [ofFlow_concat_of_ne hf, h.ordered f]
    refine congrArg _ (pending_congr fun p _ => ?_).symm
    exact ofFlow_update (ofFlow_concat_of_ne hf _) p

/-- The first item of a queue, and its place on the path. -/
theorem InOrder.first (h : net.InOrder s) (hnodup : ∀ f, (net.path f).Nodup) {q : Q}
    {rest : List α} (hq : s.waiting q = a :: rest) :
    ∃ front back, net.path (net.flow a) = front ++ q :: back ∧ q ∉ front ∧ q ∉ back ∧
      following q (net.path (net.flow a)) = back.head? := by
  have hmem := h.onPath q a (by rw [hq]; exact List.mem_cons_self)
  obtain ⟨front, back, hpath⟩ := List.append_of_mem hmem
  have hdisjoint := hpath ▸ hnodup (net.flow a)
  rw [List.nodup_append'] at hdisjoint
  obtain ⟨-, hback, hfront⟩ := hdisjoint
  have hnotFront : q ∉ front := fun hin => hfront hin List.mem_cons_self
  refine ⟨front, back, hpath, hnotFront, (List.nodup_cons.mp hback).1, ?_⟩
  rw [hpath]
  exact following_append back hnotFront

theorem InOrder.advance (h : net.InOrder s) (hnodup : ∀ f, (net.path f).Nodup) {q : Q}
    (hstep : net.exec s (.advance q) = some s') : net.InOrder s' := by
  rw [exec] at hstep
  cases hq : s.waiting q with
  | nil =>
      rw [hq] at hstep
      cases hstep
  | cons a rest =>
      rw [hq] at hstep
      obtain ⟨front, back, hpath, hfront, hback, hfollowing⟩ := h.first hnodup hq
      have hordered := h.ordered (net.flow a)
      rw [hpath, pending_append, pending_cons, hq, ofFlow_cons_self] at hordered
      have honPath : ∀ p, ∀ b ∈ Function.update s.waiting q rest p, p ∈ net.path (net.flow b) := by
        intro p b hb
        by_cases hp : p = q
        · subst hp
          rw [Function.update_self] at hb
          exact h.onPath p b (by rw [hq]; exact List.mem_cons_of_mem a hb)
        · rw [Function.update_of_ne hp] at hb
          exact h.onPath p b hb
      have hother : ∀ {f}, net.flow a ≠ f → ∀ p,
          net.ofFlow f (Function.update s.waiting q rest p) = net.ofFlow f (s.waiting p) :=
        fun hf p => ofFlow_update (by rw [hq, ofFlow_cons_of_ne hf]) p
      simp only [hfollowing] at hstep
      cases back with
      | nil =>
          -- the end of the path
          cases hstep
          refine ⟨honPath, fun f => ?_⟩
          show net.ofFlow f s.entered = net.ofFlow f (s.left ++ [a]) ++
            net.pending f (Function.update s.waiting q rest) (net.path f)
          by_cases hf : net.flow a = f
          · subst hf
            rw [ofFlow_concat_self, hpath, pending_append, pending_cons, pending_update hfront,
              Function.update_self, hordered]
            simp [pending]
          · rw [ofFlow_concat_of_ne hf, h.ordered f]
            exact congrArg _ (pending_congr fun p _ => hother hf p).symm
      | cons next back =>
          cases hstep
          have hne : next ≠ q := fun heq => hback (heq ▸ List.mem_cons_self)
          refine ⟨InOrder.mem_update honPath (by rw [hpath]; simp), fun f => ?_⟩
          generalize hwaiting : Function.update s.waiting q rest = waiting at *
          show net.ofFlow f s.entered = net.ofFlow f s.left ++
            net.pending f (Function.update waiting next (waiting next ++ [a])) (net.path f)
          by_cases hf : net.flow a = f
          · subst hf
            have hdisjoint := hpath ▸ hnodup (net.flow a)
            rw [List.nodup_append'] at hdisjoint
            obtain ⟨-, htail, hnext⟩ := hdisjoint
            have hnextFront : next ∉ front := fun hin => hnext hin (by simp)
            have hnextBack : next ∉ back :=
              (List.nodup_cons.mp (List.nodup_cons.mp htail).2).1
            have hqBack : q ∉ back := fun hin => hback (List.mem_cons_of_mem _ hin)
            have hwq : waiting q = rest := by rw [← hwaiting, Function.update_self]
            have hwnext : waiting next = s.waiting next := by
              rw [← hwaiting, Function.update_of_ne hne]
            rw [hordered, hpath, pending_append, pending_cons, pending_cons, pending_cons,
              pending_update hnextFront, pending_update hnextBack, Function.update_self,
              Function.update_of_ne (Ne.symm hne), ofFlow_concat_self, hwq, hwnext, ← hwaiting,
              pending_update hfront, pending_update hqBack]
            simp only [List.append_assoc, List.cons_append, List.nil_append]
          · rw [h.ordered f]
            refine congrArg _ (pending_congr fun p _ => ?_).symm
            rw [ofFlow_update (ofFlow_concat_of_ne hf _), hother hf]

/-- The items of each flow stay in order. -/
theorem inOrder_inductive (hnodup : ∀ f, (net.path f).Nodup) :
    net.system.Inductive net.InOrder := by
  refine ⟨fun s hs => ?_, fun s step s' h hstep => ?_⟩
  · rw [show s = start from hs]
    exact start_inOrder
  · cases step with
    | enter a => exact h.enter hnodup hstep
    | advance q => exact h.advance hnodup hstep

end FlowNetwork

end RayPlatform.Lib
