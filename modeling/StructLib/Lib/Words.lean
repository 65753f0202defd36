import Mathlib.Algebra.Group.Nat.Defs
import Mathlib.Data.List.Basic
import Mathlib.Data.Nat.Notation
import Mathlib.Tactic.Common
import Mathlib.Tactic.Ring

set_option autoImplicit false

/-! # Numbers as arrays of words and of bytes

The number that an array of machine words spells, most significant word first. Comparing such
arrays word by word compares the numbers, and subtracting with borrow from the last word on
subtracts one. And a number as the bytes in which a little-endian machine keeps it, and back. -/

namespace StructLib

section Words

variable {w : ℕ}

/-- The number that the words spell, the first one being the most significant. -/
def wordsVal : List (BitVec w) → ℕ
  | [] => 0
  | x :: l => x.toNat * 2 ^ (w * l.length) + wordsVal l

@[simp] theorem wordsVal_nil : wordsVal ([] : List (BitVec w)) = 0 := rfl

theorem wordsVal_lt (l : List (BitVec w)) : wordsVal l < 2 ^ (w * l.length) := by
  induction l with
  | nil => simp
  | cons x l ih =>
      have hx : (x.toNat + 1) * 2 ^ (w * l.length) ≤ 2 ^ w * 2 ^ (w * l.length) :=
        Nat.mul_le_mul_right _ x.isLt
      rw [wordsVal, List.length_cons, Nat.mul_succ, Nat.add_comm (w * _), Nat.pow_add]
      rw [Nat.add_mul, Nat.one_mul] at hx
      omega

/-- A smaller first word makes a smaller number. -/
theorem wordsVal_cons_lt {x y : BitVec w} {l l' : List (BitVec w)} (hlen : l.length = l'.length)
    (h : x < y) : wordsVal (x :: l) < wordsVal (y :: l') := by
  have hmul : (x.toNat + 1) * 2 ^ (w * l'.length) ≤ y.toNat * 2 ^ (w * l'.length) :=
    Nat.mul_le_mul_right _ (BitVec.lt_def.1 h)
  have hl := wordsVal_lt l
  rw [hlen] at hl
  rw [wordsVal, wordsVal, hlen]
  rw [Nat.add_mul, Nat.one_mul] at hmul
  omega

/-- Where the first words agree, the others decide. -/
theorem wordsVal_cons_lt_cons_iff {x : BitVec w} {l l' : List (BitVec w)}
    (hlen : l.length = l'.length) :
    wordsVal (x :: l) < wordsVal (x :: l') ↔ wordsVal l < wordsVal l' := by
  rw [wordsVal, wordsVal, hlen]
  exact Nat.add_lt_add_iff_left

theorem wordsVal_injective {l l' : List (BitVec w)} (hlen : l.length = l'.length)
    (h : wordsVal l = wordsVal l') : l = l' := by
  induction l generalizing l' with
  | nil => exact (List.length_eq_zero_iff.1 hlen.symm).symm
  | cons x l ih =>
      obtain _ | ⟨y, l'⟩ := l'
      · cases hlen
      · have hlen' : l.length = l'.length := by simpa using hlen
        rcases Nat.lt_trichotomy x.toNat y.toNat with hlt | heq | hlt
        · exact absurd h (Nat.ne_of_lt (wordsVal_cons_lt hlen' (BitVec.lt_def.2 hlt)))
        · obtain rfl : x = y := BitVec.eq_of_toNat_eq heq
          rw [wordsVal, wordsVal, hlen'] at h
          rw [ih hlen' (by omega)]
        · exact absurd h.symm (Nat.ne_of_lt (wordsVal_cons_lt hlen'.symm (BitVec.lt_def.2 hlt)))

theorem wordsVal_append_singleton (l : List (BitVec w)) (x : BitVec w) :
    wordsVal (l ++ [x]) = wordsVal l * 2 ^ w + x.toNat := by
  induction l with
  | nil => simp [wordsVal]
  | cons y l ih =>
      rw [List.cons_append, wordsVal, wordsVal, ih, List.length_append, List.length_singleton,
        Nat.mul_succ, Nat.pow_add]
      ring

theorem wordsVal_eq_zero_iff {l : List (BitVec w)} : wordsVal l = 0 ↔ ∀ x ∈ l, x = 0 := by
  induction l with
  | nil => simp
  | cons x l ih =>
      have hx : x.toNat = 0 ↔ x = 0 := by
        constructor
        · intro h
          exact BitVec.eq_of_toNat_eq (by simpa using h)
        · rintro rfl
          simp
      rw [wordsVal, Nat.add_eq_zero_iff, Nat.mul_eq_zero, ih, List.forall_mem_cons, hx]
      simp

theorem wordsVal_replicate_zero (n : ℕ) : wordsVal (List.replicate n (0 : BitVec w)) = 0 := by
  rw [wordsVal_eq_zero_iff]
  intro x hx
  exact List.eq_of_mem_replicate hx

end Words

/-! ## Little-endian numbers -/

/-- The `w` low bytes of `n`, the lowest one first. -/
def leBytes : ℕ → ℕ → List UInt8
  | 0, _ => []
  | w + 1, n => .ofNat n :: leBytes w (n / 256)

/-- The number that is kept in the bytes. -/
def ofLeBytes : List UInt8 → ℕ
  | [] => 0
  | b :: bs => b.toNat + 256 * ofLeBytes bs

theorem length_leBytes (w n : ℕ) : (leBytes w n).length = w := by
  induction w generalizing n with
  | zero => rfl
  | succ w ih => rw [leBytes, List.length_cons, ih]

theorem leBytes_getElem {w n i : ℕ} (hi : i < w) : (leBytes w n)[i]? = some (.ofNat (n / 256 ^ i)) := by
  induction w generalizing n i with
  | zero => omega
  | succ w ih =>
      cases i with
      | zero => simp [leBytes]
      | succ i =>
          rw [leBytes, List.getElem?_cons_succ, ih (by omega), Nat.div_div_eq_div_mul, Nat.pow_succ']

theorem ofLeBytes_leBytes (w n : ℕ) : ofLeBytes (leBytes w n) = n % 256 ^ w := by
  induction w generalizing n with
  | zero => simp [leBytes, ofLeBytes, Nat.mod_one]
  | succ w ih =>
      have hbyte : (UInt8.ofNat n).toNat = n % 256 := by simp
      rw [leBytes, ofLeBytes, ih, hbyte, Nat.pow_succ', Nat.mod_mul]

end StructLib
