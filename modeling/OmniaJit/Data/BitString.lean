import Mathlib.Data.List.Induction
import Mathlib.Data.Nat.Bitwise
import Mathlib.Tactic.Ring

/-! # Bit strings

Numbers of one width, written one behind the other and read again in groups of another width. The bits of a
number stand with the highest one first; what does not fill a group at the end is not read.
-/

namespace OmniaJit.Data

/-- The lowest `w` bits of a number. -/
def bits : ℕ → ℕ → List Bool
  | 0, _ => []
  | w + 1, n => n.testBit w :: bits w n

def value (l : List Bool) : ℕ := l.foldl (fun n b => 2 * n + b.toNat) 0

/-- The numbers of the complete groups of `w` bits. -/
def groups (w : ℕ) (l : List Bool) : List ℕ :=
  if 0 < w ∧ w ≤ l.length then value (l.take w) :: groups w (l.drop w) else []
termination_by l.length
decreasing_by
  rw [List.length_drop]
  omega

section Bits

theorem bits_length (w n : ℕ) : (bits w n).length = w := by
  induction w with
  | zero => rfl
  | succ w ih => rw [bits, List.length_cons, ih]

theorem bits_congr {w n m : ℕ} (same : ∀ i < w, n.testBit i = m.testBit i) : bits w n = bits w m := by
  induction w with
  | zero => rfl
  | succ w ih => rw [bits, bits, same w (Nat.lt_succ_self w), ih fun i less => same i (Nat.lt_succ_of_lt less)]

theorem bits_add (i j n : ℕ) : bits (i + j) n = bits i (n >>> j) ++ bits j n := by
  induction i with
  | zero => rw [Nat.zero_add, bits, List.nil_append]
  | succ i ih => rw [Nat.succ_add, bits, ih, bits, Nat.testBit_shiftRight, List.cons_append, Nat.add_comm i j]

/-- Two numbers put side by side. -/
theorem bits_or {i j a n : ℕ} (fits : n < 2 ^ j) : bits (i + j) (a <<< j ||| n) = bits i a ++ bits j n := by
  rw [bits_add]
  congr 1
  · rw [Nat.shiftRight_or_distrib, Nat.shiftLeft_shiftRight, Nat.shiftRight_eq_div_pow, Nat.div_eq_of_lt fits,
      Nat.or_zero]
  · apply bits_congr
    intro k less
    rw [Nat.testBit_or, Nat.testBit_shiftLeft, decide_eq_false (Nat.not_le.mpr less), Bool.false_and,
      Bool.false_or]

theorem bits_mul_add {i j a n : ℕ} (fits : n < 2 ^ j) : bits (i + j) (a * 2 ^ j + n) = bits i a ++ bits j n := by
  rw [← Nat.shiftLeft_eq, Nat.shiftLeft_add_eq_or_of_lt fits, bits_or fits]

/-- The first bits of a number moved to the number in front of it. -/
theorem bits_append_bits {i j k a n : ℕ} (fits : n < 2 ^ (j + k)) :
    bits i a ++ bits (j + k) n = bits (i + j) (a <<< j ||| n >>> k) ++ bits k n := by
  have high : n >>> k < 2 ^ j := by
    rw [Nat.shiftRight_eq_div_pow]
    exact Nat.div_lt_of_lt_mul (by rwa [Nat.mul_comm, ← Nat.pow_add])
  rw [bits_or high, bits_add j k n, List.append_assoc]

theorem foldl_bits (w n m : ℕ) :
    (bits w n).foldl (fun n b => 2 * n + b.toNat) m = m * 2 ^ w + n % 2 ^ w := by
  induction w generalizing m with
  | zero => simp [bits, Nat.mod_one]
  | succ w ih =>
    rw [bits, List.foldl_cons, ih, Nat.toNat_testBit, Nat.mod_pow_succ, Nat.pow_succ]
    ring

theorem value_bits (w n : ℕ) : value (bits w n) = n % 2 ^ w := by
  rw [value, foldl_bits, Nat.zero_mul, Nat.zero_add]

theorem value_concat (l : List Bool) (b : Bool) : value (l ++ [b]) = 2 * value l + b.toNat := by
  rw [value, List.foldl_append, List.foldl_cons, List.foldl_nil, ← value]

theorem value_lt (l : List Bool) : value l < 2 ^ l.length := by
  induction l using List.reverseRecOn with
  | nil => exact Nat.one_pos
  | append_singleton l b ih =>
    rw [value_concat, List.length_append, List.length_singleton, Nat.pow_succ]
    have := b.toNat_le
    omega

/-- The bits of the number are the ones it was read from. -/
theorem bits_value (l : List Bool) : bits l.length (value l) = l := by
  induction l using List.reverseRecOn with
  | nil => rfl
  | append_singleton l b ih =>
    have last : value (l ++ [b]) = value l <<< 1 ||| b.toNat := by
      rw [value_concat, ← Nat.shiftLeft_add_eq_or_of_lt (by have := b.toNat_le; omega), Nat.shiftLeft_eq,
        Nat.pow_one, Nat.mul_comm]
    rw [last, List.length_append, List.length_singleton, bits_or (by have := b.toNat_le; omega), ih]
    cases b <;> rfl

end Bits

section Groups

variable {w : ℕ} {l : List Bool}

theorem groups_short (short : l.length < w) : groups w l = [] := by
  rw [groups, if_neg fun room => Nat.not_le.mpr short room.2]

theorem groups_bits_append (pos : 0 < w) (n : ℕ) (l : List Bool) :
    groups w (bits w n ++ l) = n % 2 ^ w :: groups w l := by
  have length := bits_length w n
  rw [groups, if_pos ⟨pos, by rw [List.length_append]; omega⟩, List.take_left' length, List.drop_left' length,
    value_bits]

/-- Groups of the same width give the numbers back. -/
theorem groups_flatMap_bits (pos : 0 < w) {ns : List ℕ} (fits : ∀ n ∈ ns, n < 2 ^ w) {tail : List Bool}
    (short : tail.length < w) : groups w (ns.flatMap (bits w) ++ tail) = ns := by
  induction ns with
  | nil => exact groups_short short
  | cons n ns ih =>
    obtain ⟨first, others⟩ := List.forall_mem_cons.mp fits
    rw [List.flatMap_cons, List.append_assoc, groups_bits_append pos, Nat.mod_eq_of_lt first, ih others]

theorem lt_of_mem_groups {n : ℕ} (member : n ∈ groups w l) : n < 2 ^ w := by
  induction l using groups.induct w with
  | case1 l room ih =>
    rw [groups, if_pos room] at member
    rcases List.mem_cons.mp member with rfl | later
    · have small := value_lt (l.take w)
      rwa [List.length_take, Nat.min_eq_left room.2] at small
    · exact ih later
  | case2 l short =>
    rw [groups, if_neg short] at member
    cases member

/-- Nothing is lost if the groups are all complete. -/
theorem flatMap_bits_groups (pos : 0 < w) (whole : w ∣ l.length) : (groups w l).flatMap (bits w) = l := by
  induction l using groups.induct w with
  | case1 l room ih =>
    have first := bits_value (l.take w)
    rw [List.length_take, Nat.min_eq_left room.2] at first
    have rest : w ∣ (l.drop w).length := by
      rw [List.length_drop]
      exact Nat.dvd_sub whole (Nat.dvd_refl w)
    rw [groups, if_pos room, List.flatMap_cons, ih rest, first, List.take_append_drop]
  | case2 l short =>
    rw [groups, if_neg short, List.flatMap_nil]
    have none : l.length = 0 := Nat.eq_zero_of_dvd_of_lt whole (Nat.lt_of_not_le fun room => short ⟨pos, room⟩)
    exact (List.length_eq_zero_iff.mp none).symm

theorem groups_length (pos : 0 < w) (l : List Bool) : (groups w l).length = l.length / w := by
  induction l using groups.induct w with
  | case1 l room ih =>
    rw [groups, if_pos room, List.length_cons, ih, List.length_drop, ← Nat.div_eq_sub_div pos room.2]
  | case2 l short =>
    rw [groups, if_neg short, List.length_nil, Nat.div_eq_of_lt]
    omega

end Groups

end OmniaJit.Data
