import StructLib.Lib.Falling
import Mathlib.Data.List.Find
import Mathlib.Data.List.Perm.Basic

set_option autoImplicit false

/-! # Finite maps as lists of falling keys

What the operations of an ordered map do to the list of its entries, the greatest key first. -/

namespace StructLib

variable {K A : Type} [LinearOrder K]

def insertKey (k : K) (v : A) (es : List (K × A)) : List (K × A) :=
  es.takeWhile (fun e => k < e.1) ++ (k, v) :: es.dropWhile (fun e => k < e.1)

def eraseKey (k : K) (es : List (K × A)) : List (K × A) := es.filter fun e => e.1 ≠ k

def setKey (k : K) (v : A) (es : List (K × A)) : List (K × A) :=
  es.map fun e => if e.1 = k then (k, v) else e

def findKey (k : K) (es : List (K × A)) : Option A := (es.find? fun e => e.1 = k).map (·.2)

/-- The entry with the greatest key below `k`. -/
def prevKey (k : K) (es : List (K × A)) : Option (K × A) := es.find? fun e => e.1 < k

variable {k : K} {v v' : A} {es es₁ es₂ : List (K × A)} {lo hi : K}

theorem insertKey_eq (h₁ : ∀ e ∈ es₁, k < e.1) (h₂ : ∀ e ∈ es₂, e.1 < k) :
    insertKey k v (es₁ ++ es₂) = es₁ ++ (k, v) :: es₂ := by
  have hdrop : es₂.dropWhile (fun e => k < e.1) = es₂ ∧ es₂.takeWhile (fun e => k < e.1) = [] := by
    cases es₂ with
    | nil => exact ⟨rfl, rfl⟩
    | cons e es₂ =>
        have hneg : ¬k < e.1 := not_lt.2 (h₂ e (by simp)).le
        simp [hneg]
  unfold insertKey
  rw [List.takeWhile_append_of_pos (by simpa using h₁), List.dropWhile_append_of_pos (by simpa using h₁),
    hdrop.1, hdrop.2, List.append_nil]

theorem perm_insertKey (k : K) (v : A) (es : List (K × A)) :
    (insertKey k v es).Perm (es ++ [(k, v)]) := by
  have hcut := List.takeWhile_append_dropWhile (p := fun e : K × A => decide (k < e.1)) (l := es)
  conv_rhs => rw [← hcut, List.append_assoc]
  exact List.Perm.append_left _ (List.perm_append_singleton ..).symm

theorem ne_of_lt_or (h₁ : ∀ e ∈ es₁, k < e.1) (h₂ : ∀ e ∈ es₂, e.1 < k) :
    ∀ e ∈ es₁ ++ es₂, e.1 ≠ k := by
  intro e he
  rcases List.mem_append.1 he with he | he
  · exact (h₁ e he).ne'
  · exact (h₂ e he).ne

/-- The keys left and right of an entry. -/
theorem Within.around (h : Within lo hi (es₁ ++ (k, v) :: es₂)) :
    (∀ e ∈ es₁, k < e.1) ∧ ∀ e ∈ es₂, e.1 < k := by
  obtain ⟨h₁, h₂⟩ := within_append.1 h
  obtain ⟨-, hlt, h₃⟩ := within_cons.1 h₂
  exact ⟨fun e he => hlt.trans_le (h₁.lowest_le_key e he), h₃.lt_hi⟩

theorem eraseKey_eq (h₁ : ∀ e ∈ es₁, k < e.1) (h₂ : ∀ e ∈ es₂, e.1 < k) :
    eraseKey k (es₁ ++ (k, v) :: es₂) = es₁ ++ es₂ := by
  have hne := ne_of_lt_or h₁ h₂
  unfold eraseKey
  rw [List.filter_append, List.filter_cons_of_neg (by simp), ← List.filter_append,
    List.filter_eq_self]
  simpa using hne

theorem eraseKey_of_absent (h : ∀ e ∈ es, e.1 ≠ k) : eraseKey k es = es := by
  unfold eraseKey
  rw [List.filter_eq_self]
  simpa using h

theorem setKey_of_absent (h : ∀ e ∈ es, e.1 ≠ k) : setKey k v es = es := by
  have hid : es.map (fun e => if e.1 = k then (k, v) else e) = es.map id :=
    List.map_congr_left fun e he => if_neg (h e he)
  unfold setKey
  rw [hid, List.map_id]

theorem setKey_eq (h₁ : ∀ e ∈ es₁, k < e.1) (h₂ : ∀ e ∈ es₂, e.1 < k) :
    setKey k v' (es₁ ++ (k, v) :: es₂) = es₁ ++ (k, v') :: es₂ := by
  have hne := ne_of_lt_or h₁ h₂
  have h₁' : setKey k v' es₁ = es₁ := setKey_of_absent fun e he => hne e (List.mem_append_left _ he)
  have h₂' : setKey k v' es₂ = es₂ := setKey_of_absent fun e he => hne e (List.mem_append_right _ he)
  unfold setKey at h₁' h₂' ⊢
  rw [List.map_append, List.map_cons, if_pos rfl, h₁', h₂']

theorem findKey_eq_none (h : ∀ e ∈ es, e.1 ≠ k) : findKey k es = none := by
  unfold findKey
  rw [Option.map_eq_none_iff, List.find?_eq_none]
  simpa using h

theorem findKey_eq (h₁ : ∀ e ∈ es₁, k < e.1) : findKey k (es₁ ++ (k, v) :: es₂) = some v := by
  have hnone : es₁.find? (fun e => e.1 = k) = none := by
    rw [List.find?_eq_none]
    intro e he
    simpa using (h₁ e he).ne'
  unfold findKey
  rw [List.find?_append, hnone, Option.none_or, List.find?_cons_of_pos (by simp)]
  rfl

theorem mem_of_findKey (h : findKey k es = some v) : (k, v) ∈ es := by
  unfold findKey at h
  obtain ⟨e, he, rfl⟩ := Option.map_eq_some_iff.1 h
  have hk := List.find?_some he
  obtain rfl : e.1 = k := by simpa using hk
  exact List.mem_of_find?_eq_some he

theorem prevKey_eq_none (h : ∀ e ∈ es, k ≤ e.1) : prevKey k es = none := by
  unfold prevKey
  rw [List.find?_eq_none]
  intro e he
  simpa using h e he

theorem prevKey_congr {k' : K} (h : ∀ e ∈ es, e.1 < k ↔ e.1 < k') : prevKey k es = prevKey k' es := by
  unfold prevKey
  refine List.find?_congr ?_
  intro e he
  rw [decide_eq_decide]
  exact h e he

theorem prevKey_eq {e : K × A} (h₁ : ∀ x ∈ es₁, k ≤ x.1) (he : e.1 < k) :
    prevKey k (es₁ ++ e :: es₂) = some e := by
  have hnone := prevKey_eq_none h₁
  unfold prevKey at hnone ⊢
  rw [List.find?_append, hnone, Option.none_or, List.find?_cons_of_pos (by simpa using he)]

end StructLib
