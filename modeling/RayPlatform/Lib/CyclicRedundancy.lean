import Mathlib.Logic.Function.Iterate
import Mathlib.Data.List.Basic

/-!
# Cyclic redundancy

Division by a reflected polynomial in a register of `w` bits. The lowest bit of the
register is that of the highest power.

* `bitStep p` is one step of the division, `shiftIn p` is one step that takes a bit
  of the message, and `remainder p` takes all the bits of a message.
* Steps are linear (`iterate_bitStep_xor`), and injective when the highest bit of the
  polynomial is set (`bitStep_injective`).
* `remainder_wordBits`: a word goes in at once.
* `remainder_eq_syndrome`: a remainder is what the register became, and for each bit
  that is one in the message a word that depends only on the distance from the end.
-/

namespace RayPlatform.Lib.CyclicRedundancy

variable {w : Nat}

def bitStep (p register : BitVec w) : BitVec w :=
  if register.getLsbD 0 then (register >>> 1) ^^^ p else register >>> 1

/-- One step with a bit of the message. -/
def shiftIn (p register : BitVec w) (bit : Bool) : BitVec w :=
  if register.getLsbD 0 ^^ bit then (register >>> 1) ^^^ p else register >>> 1

def remainder (p register : BitVec w) (bits : List Bool) : BitVec w :=
  bits.foldl (shiftIn p) register

/-- The `k` lowest bits of a word, the lowest first. -/
def wordBits : Nat → BitVec w → List Bool
  | 0, _ => []
  | k + 1, word => word.getLsbD 0 :: wordBits k (word >>> 1)

@[simp] theorem length_wordBits (k : Nat) (word : BitVec w) : (wordBits k word).length = k := by
  induction k generalizing word with
  | zero => rfl
  | succ k ih => rw [wordBits, List.length_cons, ih]

theorem wordBits_eq_map (k : Nat) (word : BitVec w) :
    wordBits k word = (List.range k).map word.getLsbD := by
  induction k generalizing word with
  | zero => rfl
  | succ k ih =>
      rw [wordBits, ih, List.range_succ_eq_map, List.map_cons, List.map_map]
      congr 1
      apply List.map_congr_left
      intro i _
      rw [BitVec.getLsbD_ushiftRight, Nat.add_comm]
      rfl

theorem wordBits_injective {k : Nat} {word word' : BitVec w} (hword : word >>> k = 0#w)
    (hword' : word' >>> k = 0#w) (h : wordBits k word = wordBits k word') : word = word' := by
  have hhigh : ∀ {a : BitVec w}, a >>> k = 0#w → ∀ i, k ≤ i → a.getLsbD i = false := by
    intro a ha i hi
    have := congrArg (fun x => x.getLsbD (i - k)) ha
    rw [BitVec.getLsbD_ushiftRight, Nat.add_sub_cancel' hi] at this
    simpa using this
  apply BitVec.eq_of_getLsbD_eq
  intro i _
  by_cases hi : i < k
  · rw [wordBits_eq_map, wordBits_eq_map] at h
    exact List.map_inj_left.mp h i (List.mem_range.mpr hi)
  · rw [hhigh hword i (Nat.le_of_not_lt hi), hhigh hword' i (Nat.le_of_not_lt hi)]

theorem wordBits_add (j k : Nat) (word : BitVec w) :
    wordBits (j + k) word = wordBits j word ++ wordBits k (word >>> j) := by
  rw [wordBits_eq_map, wordBits_eq_map, wordBits_eq_map, List.range_add, List.map_append,
    List.map_map]
  congr 1
  apply List.map_congr_left
  intro i _
  rw [BitVec.getLsbD_ushiftRight]
  rfl

/-- The bits of two words side by side. -/
theorem wordBits_append {j : Nat} {low : BitVec w} (hlow : low >>> j = 0#w) (high : BitVec w)
    {k : Nat} (hfit : j + k ≤ w) :
    wordBits (j + k) (low ||| high <<< j) = wordBits j low ++ wordBits k high := by
  rw [wordBits_eq_map, wordBits_eq_map, wordBits_eq_map, List.range_add, List.map_append,
    List.map_map]
  congr 1
  · apply List.map_congr_left
    intro i hi
    simp [List.mem_range.mp hi]
  · apply List.map_congr_left
    intro i hi
    have hbit := congrArg (fun x => x.getLsbD i) hlow
    rw [BitVec.getLsbD_ushiftRight, BitVec.getLsbD_zero] at hbit
    have hlt : j + i < w := by
      have := List.mem_range.mp hi
      omega
    show (low ||| high <<< j).getLsbD (j + i) = high.getLsbD i
    rw [BitVec.getLsbD_or, hbit, BitVec.getLsbD_shiftLeft]
    simp [hlt]

/-- Bits that fit in a register are those of a word. -/
theorem exists_wordBits {bits : List Bool} (hbits : bits.length ≤ w) :
    ∃ word : BitVec w, word >>> bits.length = 0#w ∧ wordBits bits.length word = bits := by
  have hbit : ∀ i, ((BitVec.ofBoolListLE bits).setWidth w).getLsbD i = bits[i]?.getD false := by
    intro i
    rw [BitVec.getLsbD_setWidth, BitVec.getLsbD_ofBoolListLE]
    by_cases hi : i < w
    · simp [hi]
    · simp [hi, List.getElem?_eq_none (Nat.le_trans hbits (Nat.le_of_not_lt hi))]
  refine ⟨(BitVec.ofBoolListLE bits).setWidth w, ?_, ?_⟩
  · apply BitVec.eq_of_getLsbD_eq
    intro i _
    rw [BitVec.getLsbD_ushiftRight, hbit, List.getElem?_eq_none (Nat.le_add_right ..)]
    simp
  · rw [wordBits_eq_map]
    apply List.ext_getElem
    · simp
    · intro i hi hi'
      simp [hbit, List.getElem?_eq_getElem hi']

/-! ## Steps -/

section Steps

variable (p : BitVec w)

theorem xor_cancel (a b c : BitVec w) : (a ^^^ c) ^^^ (b ^^^ c) = a ^^^ b := by
  rw [BitVec.xor_assoc, ← BitVec.xor_assoc c b c, BitVec.xor_comm c b, BitVec.xor_assoc b c c,
    BitVec.xor_self, BitVec.xor_zero]

theorem bitStep_xor (a b : BitVec w) : bitStep p (a ^^^ b) = bitStep p a ^^^ bitStep p b := by
  unfold bitStep
  rw [BitVec.getLsbD_xor, BitVec.ushiftRight_xor_distrib]
  cases a.getLsbD 0 with
  | false =>
      cases b.getLsbD 0 with
      | false => rfl
      | true => simp [BitVec.xor_assoc]
  | true =>
      cases b.getLsbD 0 with
      | false =>
          show (a >>> 1 ^^^ b >>> 1) ^^^ p = (a >>> 1 ^^^ p) ^^^ b >>> 1
          rw [BitVec.xor_assoc, BitVec.xor_comm (b >>> 1) p, BitVec.xor_assoc]
      | true =>
          show a >>> 1 ^^^ b >>> 1 = (a >>> 1 ^^^ p) ^^^ (b >>> 1 ^^^ p)
          rw [xor_cancel]

theorem iterate_bitStep_xor (n : Nat) (a b : BitVec w) :
    (bitStep p)^[n] (a ^^^ b) = (bitStep p)^[n] a ^^^ (bitStep p)^[n] b := by
  induction n generalizing a b with
  | zero => rfl
  | succ n ih => rw [Function.iterate_succ_apply, bitStep_xor, ih]; rfl

theorem bitStep_zero : bitStep p 0#w = 0#w := by
  simp [bitStep]

theorem iterate_bitStep_zero (n : Nat) : (bitStep p)^[n] 0#w = 0#w :=
  Function.iterate_fixed (bitStep_zero p) n

/-- A register whose lowest bits are clear only moves down. -/
theorem iterate_bitStep_of_low {n : Nat} {register : BitVec w}
    (hlow : ∀ i < n, register.getLsbD i = false) : (bitStep p)^[n] register = register >>> n := by
  induction n with
  | zero => simp
  | succ n ih =>
      have hbit : (register >>> n).getLsbD 0 = false := by
        rw [BitVec.getLsbD_ushiftRight]
        exact hlow n (Nat.lt_succ_self n)
      rw [Function.iterate_succ_apply', ih fun i hi => hlow i (Nat.lt_succ_of_lt hi), bitStep, hbit]
      exact (BitVec.shiftRight_add register n 1).symm

/-- The table of a division: the lowest bits are looked up, the others move down. -/
theorem iterate_bitStep_split {n : Nat} {register low : BitVec w}
    (hagree : ∀ i < n, low.getLsbD i = register.getLsbD i) (hlow : low >>> n = 0#w) :
    (bitStep p)^[n] register = register >>> n ^^^ (bitStep p)^[n] low := by
  have hclear : ∀ i < n, (register ^^^ low).getLsbD i = false := fun i hi => by
    rw [BitVec.getLsbD_xor, hagree i hi, Bool.xor_self]
  have hmoved := iterate_bitStep_of_low p hclear
  rw [BitVec.ushiftRight_xor_distrib, hlow, BitVec.xor_zero, iterate_bitStep_xor] at hmoved
  rw [← hmoved, BitVec.xor_assoc, BitVec.xor_self, BitVec.xor_zero]

variable {p}

/-- Nothing is lost when the polynomial brings the highest bit back. -/
theorem bitStep_injective (hp : p.msb = true) : Function.Injective (bitStep p) := by
  intro a b hab
  have hz : bitStep p (a ^^^ b) = 0#w := by
    rw [bitStep_xor, hab, BitVec.xor_self]
  have htop : ∀ x : BitVec w, (x >>> 1).msb = false := fun x => by
    rw [BitVec.msb_ushiftRight]
    simp
  suffices h : a ^^^ b = 0#w by exact BitVec.xor_eq_zero_iff.mp h
  unfold bitStep at hz
  split at hz
  · -- the highest bit is that of the polynomial
    have := congrArg BitVec.msb hz
    rw [BitVec.msb_xor, htop, hp] at this
    simp at this
  · rename_i hbit
    apply BitVec.eq_of_getLsbD_eq
    intro i _
    cases i with
    | zero => simpa using hbit
    | succ i =>
        have := congrArg (fun x => x.getLsbD i) hz
        simpa [Nat.add_comm 1 i] using this

theorem iterate_bitStep_injective (hp : p.msb = true) (n : Nat) :
    Function.Injective (bitStep p)^[n] :=
  (bitStep_injective hp).iterate n

end Steps

/-! ## Messages -/

section Messages

variable (p : BitVec w)

theorem shiftIn_eq (register : BitVec w) (bit : Bool) :
    shiftIn p register bit = bitStep p register ^^^ if bit then p else 0#w := by
  unfold shiftIn bitStep
  cases bit with
  | false => simp
  | true =>
      cases register.getLsbD 0 with
      | false => rfl
      | true => simp [BitVec.xor_assoc]

theorem remainder_append (register : BitVec w) (bits bits' : List Bool) :
    remainder p register (bits ++ bits') = remainder p (remainder p register bits) bits' :=
  List.foldl_append

/-- The lowest bit of a word goes in, the others wait in the register. -/
theorem shiftIn_getLsbD (register word : BitVec w) :
    shiftIn p register (word.getLsbD 0) = bitStep p (register ^^^ word) ^^^ word >>> 1 := by
  have hhigh : bitStep p word = (word >>> 1) ^^^ if word.getLsbD 0 then p else 0#w := by
    unfold bitStep
    split <;> simp
  rw [bitStep_xor, hhigh, shiftIn_eq, BitVec.xor_assoc, BitVec.xor_comm (word >>> 1),
    BitVec.xor_assoc, BitVec.xor_self, BitVec.xor_zero]

/-- A word goes in at once. -/
theorem remainder_wordBits {k : Nat} {word : BitVec w} (hword : word >>> k = 0#w)
    (register : BitVec w) :
    remainder p register (wordBits k word) = (bitStep p)^[k] (register ^^^ word) := by
  induction k generalizing word register with
  | zero =>
      have hzero : word = 0#w := by simpa using hword
      simp [remainder, wordBits, hzero]
  | succ k ih =>
      have hrest : (word >>> 1) >>> k = 0#w := by
        rw [← BitVec.shiftRight_add, Nat.add_comm]
        exact hword
      show remainder p (shiftIn p register (word.getLsbD 0)) (wordBits k (word >>> 1)) = _
      rw [ih hrest, shiftIn_getLsbD, BitVec.xor_assoc, BitVec.xor_self, BitVec.xor_zero,
        Function.iterate_succ_apply]

/-- What a message without a register adds: a word for each bit that is one. -/
def syndrome : List Bool → BitVec w
  | [] => 0#w
  | bit :: bits => (if bit then (bitStep p)^[bits.length] p else 0#w) ^^^ syndrome bits

theorem remainder_eq_syndrome (register : BitVec w) (bits : List Bool) :
    remainder p register bits = (bitStep p)^[bits.length] register ^^^ syndrome p bits := by
  induction bits generalizing register with
  | nil => simp [remainder, syndrome]
  | cons bit bits ih =>
      show remainder p (shiftIn p register bit) bits = _
      rw [ih, shiftIn_eq, iterate_bitStep_xor, syndrome, List.length_cons,
        Function.iterate_succ_apply, BitVec.xor_assoc]
      cases bit with
      | false => simp [iterate_bitStep_zero]
      | true => rfl

variable {p}

theorem remainder_injective (hp : p.msb = true) (bits : List Bool) :
    Function.Injective fun register => remainder p register bits := by
  intro a b hab
  apply iterate_bitStep_injective hp bits.length
  simpa [remainder_eq_syndrome] using hab

/-- Bits that fit in the register are told apart. -/
theorem remainder_ne (hp : p.msb = true) {bits bits' : List Bool}
    (hlength : bits.length = bits'.length) (hfit : bits.length ≤ w) (hne : bits ≠ bits')
    (register : BitVec w) : remainder p register bits ≠ remainder p register bits' := by
  obtain ⟨word, hword, hbits⟩ := exists_wordBits hfit
  obtain ⟨word', hword', hbits'⟩ := exists_wordBits (hlength ▸ hfit)
  rw [← hlength] at hword' hbits'
  intro heq
  rw [← hbits, ← hbits', remainder_wordBits p hword, remainder_wordBits p hword'] at heq
  have hwords : word = word' := by
    simpa using iterate_bitStep_injective hp _ heq
  exact hne (by rw [← hbits, ← hbits', hwords])

/-- A burst of errors that fits in the register is detected, wherever it is. -/
theorem remainder_burst (hp : p.msb = true) {burst burst' : List Bool}
    (hlength : burst.length = burst'.length) (hfit : burst.length ≤ w) (hne : burst ≠ burst')
    (register : BitVec w) (before after : List Bool) :
    remainder p register (before ++ burst ++ after) ≠
      remainder p register (before ++ burst' ++ after) := by
  simp only [remainder_append]
  exact fun heq => remainder_ne hp hlength hfit hne _ (remainder_injective hp after heq)

end Messages

/-! ## Linear maps -/

section Linear

/-- The parity of the `k` lowest bits. -/
def parity : Nat → BitVec w → Bool
  | 0, _ => false
  | k + 1, x => x.getLsbD 0 ^^ parity k (x >>> 1)

theorem parity_xor (k : Nat) (a b : BitVec w) : parity k (a ^^^ b) = (parity k a ^^ parity k b) := by
  induction k generalizing a b with
  | zero => rfl
  | succ k ih =>
      rw [parity, parity, parity, BitVec.ushiftRight_xor_distrib, ih, BitVec.getLsbD_xor]
      cases a.getLsbD 0 <;> cases b.getLsbD 0 <;> simp

theorem parity_zero (k : Nat) : parity k 0#w = false := by
  induction k with
  | zero => rfl
  | succ k ih => simp [parity, ih]

/-- The exclusive or of the columns at the bits that are one. -/
def combine : List (BitVec w) → BitVec w → BitVec w
  | [], _ => 0#w
  | column :: columns, x => (if x.getLsbD 0 then column else 0#w) ^^^ combine columns (x >>> 1)

theorem combine_xor (columns : List (BitVec w)) (a b : BitVec w) :
    combine columns (a ^^^ b) = combine columns a ^^^ combine columns b := by
  induction columns generalizing a b with
  | nil => simp [combine]
  | cons column columns ih =>
      rw [combine, combine, combine, BitVec.ushiftRight_xor_distrib, ih, BitVec.getLsbD_xor]
      generalize combine columns (a >>> 1) = x
      generalize combine columns (b >>> 1) = y
      cases a.getLsbD 0 with
      | false =>
          cases b.getLsbD 0 with
          | false => simp
          | true =>
              show column ^^^ (x ^^^ y) = (0#w ^^^ x) ^^^ (column ^^^ y)
              rw [BitVec.zero_xor, ← BitVec.xor_assoc, BitVec.xor_comm column x, BitVec.xor_assoc]
      | true =>
          cases b.getLsbD 0 with
          | false => simp [BitVec.xor_assoc]
          | true =>
              show 0#w ^^^ (x ^^^ y) = (column ^^^ x) ^^^ (column ^^^ y)
              rw [BitVec.zero_xor, BitVec.xor_comm column x, BitVec.xor_comm column y, xor_cancel]

/-- Linear maps are determined by the words with one bit. -/
theorem linear_ext {f g : BitVec w → BitVec w} (hf : ∀ a b, f (a ^^^ b) = f a ^^^ f b)
    (hg : ∀ a b, g (a ^^^ b) = g a ^^^ g b)
    (h : ∀ i < w, f (BitVec.twoPow w i) = g (BitVec.twoPow w i)) : f = g := by
  have hzero : ∀ {m : BitVec w → BitVec w}, (∀ a b, m (a ^^^ b) = m a ^^^ m b) → m 0#w = 0#w := by
    intro m hm
    have := hm 0#w 0#w
    rwa [BitVec.xor_self, BitVec.xor_self] at this
  suffices hall : ∀ k ≤ w, ∀ x : BitVec w, x >>> k = 0#w → f x = g x by
    funext x
    refine hall w (Nat.le_refl w) x (BitVec.eq_of_getLsbD_eq fun i _ => ?_)
    rw [BitVec.getLsbD_ushiftRight, BitVec.getLsbD_of_ge _ _ (Nat.le_add_right ..),
      BitVec.getLsbD_zero]
  intro k
  induction k with
  | zero =>
      intro _ x hx
      rw [BitVec.ushiftRight_zero] at hx
      rw [hx, hzero hf, hzero hg]
  | succ k ih =>
      intro hk x hx
      have hhigh : ∀ i, k < i → x.getLsbD i = false := fun i hi => by
        have := congrArg (fun y => y.getLsbD (i - (k + 1))) hx
        rw [BitVec.getLsbD_ushiftRight, Nat.add_sub_cancel' hi] at this
        simpa using this
      -- without its highest bit
      have hrest : ∀ y : BitVec w, (∀ i, k ≤ i → y.getLsbD i = false) → y >>> k = 0#w := by
        intro y hy
        apply BitVec.eq_of_getLsbD_eq
        intro i _
        rw [BitVec.getLsbD_ushiftRight, hy _ (Nat.le_add_right ..), BitVec.getLsbD_zero]
      cases hbit : x.getLsbD k with
      | false =>
          refine ih (Nat.le_of_succ_le hk) x (hrest x fun i hi => ?_)
          rcases Nat.eq_or_lt_of_le hi with rfl | hi
          · exact hbit
          · exact hhigh i hi
      | true =>
          have hcleared := ih (Nat.le_of_succ_le hk) (x ^^^ BitVec.twoPow w k)
            (hrest _ fun i hi => by
              rw [BitVec.getLsbD_xor, BitVec.getLsbD_twoPow]
              rcases Nat.eq_or_lt_of_le hi with rfl | hi
              · simp [hbit]
                omega
              · simp [hhigh i hi]
                omega)
          rw [hf, hg, h k hk] at hcleared
          exact (BitVec.xor_left_inj _).mp hcleared

end Linear

end RayPlatform.Lib.CyclicRedundancy
