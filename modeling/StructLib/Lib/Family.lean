import Mathlib.Data.List.Nodup
import Mathlib.Logic.Function.Basic
import Mathlib.Tactic.Common

set_option autoImplicit false

/-! # Families of sequences

`F : H → Option (List N)` gives some of the heads `H` a sequence of nodes. `Family.Apart` says that
no node is in the sequences of two heads; it is what makes an operation on one list leave the other
ones alone. An operation that names a node and not its list acts on all sequences, and so on the one
that holds the node (`Apart.erase_eq`, `Apart.subst_eq`). -/

namespace StructLib.Family

variable {H N : Type} {F : H → Option (List N)} {g h : H} {x y : N} {xs ys : List N}
  {v : Option (List N)}

/-- `x` is in the sequence of `h`. -/
def Holds (F : H → Option (List N)) (h : H) (x : N) : Prop := ∃ xs, F h = some xs ∧ x ∈ xs

/-- No node is in two sequences. -/
def Apart (F : H → Option (List N)) : Prop := ∀ x g h, Holds F g x → Holds F h x → g = h

theorem holds_iff (hF : F h = some xs) : Holds F h x ↔ x ∈ xs := by
  simp [Holds, hF]

theorem Apart.not_mem (hF : Apart F) (hgh : g ≠ h) (hg : F g = some xs) (hh : F h = some ys)
    (hx : x ∈ xs) : x ∉ ys :=
  fun hy => hgh (hF x g h ⟨xs, hg, hx⟩ ⟨ys, hh, hy⟩)

variable [DecidableEq H]

/-- Give the head `h` another sequence. -/
theorem holds_update : Holds (Function.update F h v) g x ↔
    if g = h then ∃ xs, v = some xs ∧ x ∈ xs else Holds F g x := by
  by_cases hgh : g = h
  · subst hgh
    simp [Holds]
  · simp [Holds, hgh]

theorem Apart.update (hF : Apart F)
    (hv : ∀ xs, v = some xs → ∀ x ∈ xs, ∀ g, Holds F g x → g = h) :
    Apart (Function.update F h v) := by
  intro x g₁ g₂ h₁ h₂
  rw [holds_update] at h₁ h₂
  by_cases hg₁ : g₁ = h
  · by_cases hg₂ : g₂ = h
    · rw [hg₁, hg₂]
    · rw [if_pos hg₁] at h₁
      rw [if_neg hg₂] at h₂
      obtain ⟨xs, hxs, hx⟩ := h₁
      exact absurd (hv xs hxs x hx g₂ h₂) hg₂
  · rw [if_neg hg₁] at h₁
    by_cases hg₂ : g₂ = h
    · rw [if_pos hg₂] at h₂
      obtain ⟨xs, hxs, hx⟩ := h₂
      exact absurd (hv xs hxs x hx g₁ h₁) hg₁
    · rw [if_neg hg₂] at h₂
      exact hF x g₁ g₂ h₁ h₂

variable [DecidableEq N]

/-- Take `x` out of the sequence that holds it. -/
def erase (F : H → Option (List N)) (x : N) : H → Option (List N) := fun h => (F h).map (·.erase x)

/-- Put `y` in the place of `x`. -/
def subst (F : H → Option (List N)) (x y : N) : H → Option (List N) :=
  fun h => (F h).map (·.map fun z => if z = x then y else z)

/-- Put `y` before `x`. -/
def insertBefore (F : H → Option (List N)) (x y : N) : H → Option (List N) :=
  fun h => (F h).map (·.flatMap fun z => if z = x then [y, z] else [z])

/-- Put `y` after `x`. -/
def insertAfter (F : H → Option (List N)) (x y : N) : H → Option (List N) :=
  fun h => (F h).map (·.flatMap fun z => if z = x then [z, y] else [z])

theorem map_of_notMem {xs : List N} (hx : x ∉ xs) :
    (xs.map fun z => if z = x then y else z) = xs := by
  refine (List.map_congr_left fun z hz => ?_).trans (List.map_id xs)
  rw [if_neg (by rintro rfl; exact hx hz), id]

theorem flatMap_of_notMem {e : N → List N} {xs : List N} (hx : x ∉ xs) :
    (xs.flatMap fun z => if z = x then e z else [z]) = xs := by
  induction xs with
  | nil => rfl
  | cons z xs ih =>
      rw [List.mem_cons, not_or] at hx
      rw [List.flatMap_cons, ih hx.2, if_neg (Ne.symm hx.1), List.singleton_append]

omit [DecidableEq N] in
/-- To act on all sequences, leaving those without `x` alone, is to act on the one that has `x`. -/
theorem Apart.act_eq {t : List N → List N} (hF : Apart F) (hh : F h = some xs) (hx : x ∈ xs)
    (ht : ∀ zs, x ∉ zs → t zs = zs) :
    (fun g => (F g).map t) = Function.update F h (some (t xs)) := by
  funext g
  by_cases hgh : g = h
  · subst hgh
    simp [hh]
  · rw [Function.update_of_ne hgh]
    cases hg : F g with
    | none => rfl
    | some zs =>
        have hz : x ∉ zs := hF.not_mem (Ne.symm hgh) hh hg hx
        rw [Option.map_some, ht zs hz]

theorem Apart.erase_eq (hF : Apart F) (hh : F h = some xs) (hx : x ∈ xs) :
    erase F x = Function.update F h (some (xs.erase x)) :=
  hF.act_eq hh hx fun _ hz => List.erase_of_not_mem hz

theorem Apart.subst_eq (hF : Apart F) (hh : F h = some xs) (hx : x ∈ xs) :
    subst F x y = Function.update F h (some (xs.map fun z => if z = x then y else z)) :=
  hF.act_eq hh hx fun _ hz => map_of_notMem hz

theorem Apart.insertBefore_eq (hF : Apart F) (hh : F h = some xs) (hx : x ∈ xs) :
    insertBefore F x y =
      Function.update F h (some (xs.flatMap fun z => if z = x then [y, z] else [z])) :=
  hF.act_eq hh hx fun _ hz => flatMap_of_notMem hz

theorem Apart.insertAfter_eq (hF : Apart F) (hh : F h = some xs) (hx : x ∈ xs) :
    insertAfter F x y =
      Function.update F h (some (xs.flatMap fun z => if z = x then [z, y] else [z])) :=
  hF.act_eq hh hx fun _ hz => flatMap_of_notMem hz

/-! ## Sequences split at a node -/

variable {p q : List N}

theorem erase_split (hp : x ∉ p) : (p ++ x :: q).erase x = p ++ q := by
  rw [List.erase_append_right _ hp, List.erase_cons_head]

theorem subst_split (hp : x ∉ p) (hq : x ∉ q) :
    ((p ++ x :: q).map fun z => if z = x then y else z) = p ++ y :: q := by
  rw [List.map_append, List.map_cons, map_of_notMem hp, map_of_notMem hq, if_pos rfl]

theorem flatMap_split {e : N → List N} (hp : x ∉ p) (hq : x ∉ q) :
    ((p ++ x :: q).flatMap fun z => if z = x then e z else [z]) = p ++ (e x ++ q) := by
  rw [List.flatMap_append, List.flatMap_cons, flatMap_of_notMem hp, flatMap_of_notMem hq,
    if_pos rfl]

end StructLib.Family
