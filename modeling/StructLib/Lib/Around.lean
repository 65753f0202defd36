import Mathlib.Data.Nat.ModEq

set_option autoImplicit false

/-! # Lists laid out around a ring of cells

`around n a i` is the cell `i` places on from `a` in a ring of `n` cells. `Laid n cell a xs` says that
the entries of `xs` are in the cells from `a` on. -/

namespace StructLib

def around (n a i : ℕ) : ℕ := (a + i) % n

section Around

variable {n a b i j : ℕ}

theorem around_lt (h : 0 < n) : around n a i < n := Nat.mod_lt _ h

theorem around_add : around n a (i + j) = around n (a + i) j := by
  unfold around
  rw [Nat.add_assoc]

theorem around_congr (h : a % n = b % n) (i : ℕ) : around n a i = around n b i := by
  unfold around
  rw [Nat.add_mod, h, ← Nat.add_mod]

theorem around_of_lt (h : a + i < n) : around n a i = a + i := Nat.mod_eq_of_lt h

/-- Past the end of the cells. -/
theorem around_of_le (h : n ≤ a + i) (hlt : a + i < n + n) : around n a i = a + i - n := by
  unfold around
  rw [Nat.mod_eq_sub_mod h, Nat.mod_eq_of_lt (by omega)]

theorem around_inj (hi : i < n) (hj : j < n) (h : around n a i = around n a j) : i = j := by
  have hmod : i % n = j % n := Nat.ModEq.add_left_cancel' a h
  rwa [Nat.mod_eq_of_lt hi, Nat.mod_eq_of_lt hj] at hmod

end Around

section Laid

variable {B : Type} {n a b i : ℕ} {cell : ℕ → B} {x : B} {xs ys : List B}

def Laid (n : ℕ) (cell : ℕ → B) (a : ℕ) (xs : List B) : Prop :=
  ∀ i x, xs[i]? = some x → cell (around n a i) = x

theorem laid_nil : Laid n cell a [] := by
  intro i x h
  simp at h

theorem laid_append : Laid n cell a (xs ++ ys) ↔ Laid n cell a xs ∧ Laid n cell (a + xs.length) ys := by
  constructor
  · intro h
    constructor
    · intro i x hi
      have hlt : i < xs.length := (List.getElem?_eq_some_iff.1 hi).1
      exact h i x (by rw [List.getElem?_append_left hlt, hi])
    · intro i x hi
      rw [← around_add]
      refine h (xs.length + i) x ?_
      rw [List.getElem?_append_right (by omega), Nat.add_sub_cancel_left, hi]
  · rintro ⟨h₁, h₂⟩ i x hi
    by_cases hlt : i < xs.length
    · rw [List.getElem?_append_left hlt] at hi
      exact h₁ i x hi
    · rw [List.getElem?_append_right (by omega)] at hi
      have hcell := h₂ (i - xs.length) x hi
      rwa [← around_add, Nat.add_sub_of_le (by omega)] at hcell

theorem Laid.initial (h : Laid n cell a ys) (hxs : xs <+: ys) : Laid n cell a xs := by
  obtain ⟨zs, rfl⟩ := hxs
  exact (laid_append.1 h).1

theorem laid_congr (h : a % n = b % n) : Laid n cell a xs ↔ Laid n cell b xs := by
  unfold Laid
  simp only [around_congr h]

/-- A write to one of the cells behind the list. -/
theorem Laid.update (h : Laid n cell a xs) (hi : i < n) (hle : xs.length ≤ i) :
    Laid n (Function.update cell (around n a i) x) a xs := by
  intro j y hj
  have hlt : j < xs.length := (List.getElem?_eq_some_iff.1 hj).1
  have hne : around n a j ≠ around n a i := by
    intro heq
    have := around_inj (by omega) hi heq
    omega
  rw [Function.update_of_ne hne]
  exact h j y hj

/-- The next entry is written. -/
theorem Laid.concat (h : Laid n cell a xs) (hlt : xs.length < n) :
    Laid n (Function.update cell (around n a xs.length) x) a (xs ++ [x]) := by
  refine laid_append.2 ⟨h.update hlt (Nat.le_refl _), ?_⟩
  intro i y hi
  obtain ⟨rfl, rfl⟩ : i = 0 ∧ x = y := by
    cases i with
    | zero => simpa using hi
    | succ i => simp at hi
  rw [← around_add, Nat.add_zero, Function.update_self]

end Laid

end StructLib
