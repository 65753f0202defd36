import Mathlib.Logic.Function.Basic
import Mathlib.Data.List.Nodup
import Mathlib.Tactic.Common

set_option autoImplicit false

/-! # NULL-terminated chains

A *place* is a variable that holds a node or NULL: a list head, or the next field of a node. `link`
is the content of all places and `nx n` is the place inside the node `n`. `Chain nx link l xs` says
that the nodes `xs`, in this order, and no others are met from the place `l` on. `Backed` is for
nodes that also know the place that points to them. -/

namespace StructLib

variable {P N : Type} {nx : N → P} {link k : P → Option N} {back b : N → Option P} {l m : P}
  {n x : N} {xs ys p q : List N}

/-! ## Places -/

/-- The place behind the nodes `xs`. -/
def lastPlace (nx : N → P) : P → List N → P
  | l, [] => l
  | _, x :: xs => lastPlace nx (nx x) xs

/-- All places of a chain. -/
def places (nx : N → P) (l : P) (xs : List N) : List P := l :: xs.map nx

theorem places_cons : places nx l (x :: xs) = l :: places nx (nx x) xs := rfl

theorem lastPlace_append : lastPlace nx l (p ++ q) = lastPlace nx (lastPlace nx l p) q := by
  induction p generalizing l with
  | nil => rfl
  | cons x p ih => exact ih

theorem lastPlace_mem : lastPlace nx l xs ∈ places nx l xs := by
  induction xs generalizing l with
  | nil => exact List.mem_singleton_self l
  | cons x xs ih => exact List.mem_cons_of_mem l ih

theorem places_append : places nx l (p ++ q) = (places nx l p) ++ q.map nx := by
  simp [places]

/-- Every place of a chain is behind some of its nodes. -/
theorem exists_lastPlace (hm : m ∈ places nx l xs) : ∃ p q, xs = p ++ q ∧ lastPlace nx l p = m := by
  induction xs generalizing l with
  | nil => exact ⟨[], [], rfl, (List.mem_singleton.1 hm).symm⟩
  | cons x xs ih =>
      rcases List.mem_cons.1 hm with rfl | hm
      · exact ⟨[], x :: xs, rfl, rfl⟩
      · obtain ⟨p, q, hpq, hlast⟩ := ih hm
        exact ⟨x :: p, q, by rw [hpq, List.cons_append], hlast⟩

/-! ## Chains -/

/-- The nodes from `l` on are `xs`. -/
def Chain (nx : N → P) (link : P → Option N) : P → List N → Prop
  | l, [] => link l = none
  | l, x :: xs => link l = some x ∧ Chain nx link (nx x) xs

theorem chain_nil : Chain nx link l [] ↔ link l = none := Iff.rfl

theorem chain_cons : Chain nx link l (x :: xs) ↔ link l = some x ∧ Chain nx link (nx x) xs := Iff.rfl

theorem Chain.link_eq (h : Chain nx link l xs) : link l = xs.head? := by
  cases xs with
  | nil => exact h
  | cons x xs => exact h.1

/-- A chain depends on its places only. -/
theorem Chain.frame (h : Chain nx link l xs) (hk : ∀ m ∈ places nx l xs, k m = link m) :
    Chain nx k l xs := by
  induction xs generalizing l with
  | nil => exact (hk l (by simp [places])).trans h
  | cons x xs ih =>
      rw [places_cons] at hk
      exact ⟨(hk l (by simp)).trans h.1, ih h.2 fun m hm => hk m (List.mem_cons_of_mem l hm)⟩

/-- There is at most one chain from a place. -/
theorem Chain.unique (hx : Chain nx link l xs) (hy : Chain nx link l ys) : xs = ys := by
  induction xs generalizing l ys with
  | nil =>
      cases ys with
      | nil => rfl
      | cons y ys =>
          rw [chain_nil] at hx
          rw [chain_cons, hx] at hy
          cases hy.1
  | cons x xs ih =>
      rw [chain_cons] at hx
      cases ys with
      | nil =>
          rw [chain_nil, hx.1] at hy
          cases hy
      | cons y ys =>
          rw [chain_cons, hx.1, Option.some.injEq] at hy
          obtain ⟨rfl, hy⟩ := hy
          rw [ih hx.2 hy]

/-- The rest of a chain. -/
theorem Chain.drop (h : Chain nx link l (p ++ q)) : Chain nx link (lastPlace nx l p) q := by
  induction p generalizing l with
  | nil => exact h
  | cons x p ih => exact ih h.2

theorem Chain.link_last (h : Chain nx link l (p ++ n :: q)) :
    link (lastPlace nx l p) = some n ∧ Chain nx link (nx n) q := h.drop

/-- A chain that ends does not come back to a place. -/
theorem Chain.nodup_places (h : Chain nx link l xs) : (places nx l xs).Nodup := by
  induction xs generalizing l with
  | nil => exact List.nodup_singleton l
  | cons x xs ih =>
      rw [places_cons, List.nodup_cons]
      refine ⟨fun hmem => ?_, ih h.2⟩
      -- the chain from `l` would be a proper part of itself
      have hback : ∃ p y q, x :: xs = p ++ y :: q ∧ nx y = l := by
        obtain ⟨y, hy, hyl⟩ := List.mem_map.1 (show l ∈ (x :: xs).map nx from hmem)
        obtain ⟨p, q, hpq⟩ := List.append_of_mem hy
        exact ⟨p, y, q, hpq, hyl⟩
      obtain ⟨p, y, q, hpq, hyl⟩ := hback
      have hq : Chain nx link l q := by
        have hlast := h
        rw [hpq] at hlast
        exact hyl ▸ hlast.link_last.2
      have hlen := congrArg List.length (h.unique hq)
      have hlen' := congrArg List.length hpq
      simp only [List.length_append, List.length_cons] at hlen hlen'
      omega

theorem Chain.nodup (h : Chain nx link l xs) : xs.Nodup :=
  (List.nodup_cons.1 h.nodup_places).2.of_map nx

/-- A chain that hangs on another place, or in other links. -/
theorem Chain.relink (h : Chain nx link l xs) (hm : k m = link l)
    (hk : ∀ y ∈ xs, k (nx y) = link (nx y)) : Chain nx k m xs := by
  cases xs with
  | nil => exact hm.trans h
  | cons x xs =>
      refine ⟨hm.trans h.1, h.2.frame fun m' hm' => ?_⟩
      obtain ⟨y, hy, rfl⟩ := List.mem_map.1 (show m' ∈ (x :: xs).map nx from hm')
      exact hk y hy

/-- Another end for a chain, behind the nodes `p`. -/
theorem Chain.extend (h : Chain nx link l (p ++ q))
    (hk : ∀ m ∈ places nx l p, m ≠ lastPlace nx l p → k m = link m)
    (htail : Chain nx k (lastPlace nx l p) ys) : Chain nx k l (p ++ ys) := by
  induction p generalizing l with
  | nil => exact htail
  | cons x p ih =>
      have hne : l ≠ lastPlace nx (nx x) p := by
        intro heq
        have hnd : l ∉ places nx (nx x) (p ++ q) := (List.nodup_cons.1 h.nodup_places).1
        rw [places_append] at hnd
        exact hnd (List.mem_append_left _ (heq ▸ lastPlace_mem))
      rw [places_cons] at hk
      exact ⟨(hk l (by simp) hne).trans h.1,
        ih h.2 (fun m hm => hk m (List.mem_cons_of_mem l hm)) htail⟩

/-- Each place of a chain is met once. -/
theorem Chain.lastPlace_ne (h : Chain nx link l (p ++ q)) (hx : x ∈ q) :
    nx x ≠ lastPlace nx l p := by
  have hnd := h.nodup_places
  rw [places_append, List.nodup_append'] at hnd
  intro heq
  exact hnd.2.2 (heq ▸ lastPlace_mem) (List.mem_map_of_mem hx)

section Update

variable [DecidableEq P]

/-- Put the node `n` between the place `m` and what it holds. -/
def insertAt (nx : N → P) (link : P → Option N) (m : P) (n : N) : P → Option N :=
  Function.update (Function.update link (nx n) (link m)) m (some n)

theorem Chain.insertAt (h : Chain nx link l (p ++ q)) (hn : nx n ∉ places nx l (p ++ q)) :
    Chain nx (insertAt nx link (lastPlace nx l p) n) l (p ++ n :: q) := by
  rw [places_append, List.mem_append, not_or] at hn
  have hnm : nx n ≠ lastPlace nx l p := fun heq => hn.1 (heq ▸ lastPlace_mem)
  refine h.extend (fun m hm hml => ?_) ⟨?_, h.drop.relink ?_ fun y hy => ?_⟩
  · have hmn : m ≠ nx n := by
      rintro rfl
      exact hn.1 hm
    simp [StructLib.insertAt, hml, hmn]
  · simp [StructLib.insertAt]
  · simp [StructLib.insertAt, hnm]
  · have hyn : nx y ≠ nx n := fun heq => hn.2 (heq ▸ List.mem_map_of_mem hy)
    simp [StructLib.insertAt, h.lastPlace_ne hy, hyn]

/-- Let the place `m` hold what the node `n` points to. -/
def unlinkAt (nx : N → P) (link : P → Option N) (m : P) (n : N) : P → Option N :=
  Function.update link m (link (nx n))

theorem Chain.unlinkAt (h : Chain nx link l (p ++ n :: q)) :
    Chain nx (unlinkAt nx link (lastPlace nx l p) n) l (p ++ q) := by
  refine h.extend (fun m _ hml => ?_) (h.link_last.2.relink ?_ fun y hy => ?_)
  · simp [StructLib.unlinkAt, hml]
  · simp [StructLib.unlinkAt]
  · simp [StructLib.unlinkAt, h.lastPlace_ne (List.mem_cons_of_mem n hy)]

end Update

/-! ## Back links -/

/-- Every node of a chain knows the place it hangs on. -/
def Backed (nx : N → P) (back : N → Option P) : P → List N → Prop
  | _, [] => True
  | l, x :: xs => back x = some l ∧ Backed nx back (nx x) xs

theorem backed_cons : Backed nx back l (x :: xs) ↔ back x = some l ∧ Backed nx back (nx x) xs :=
  Iff.rfl

theorem Backed.frame (h : Backed nx back l xs) (hb : ∀ x ∈ xs, b x = back x) : Backed nx b l xs := by
  induction xs generalizing l with
  | nil => trivial
  | cons x xs ih =>
      exact ⟨(hb x (by simp)).trans h.1, ih h.2 fun y hy => hb y (List.mem_cons_of_mem x hy)⟩

theorem backed_append :
    Backed nx back l (p ++ q) ↔ Backed nx back l p ∧ Backed nx back (lastPlace nx l p) q := by
  induction p generalizing l with
  | nil => exact ⟨fun h => ⟨trivial, h⟩, And.right⟩
  | cons x p ih => rw [List.cons_append, backed_cons, backed_cons, ih, and_assoc]; rfl

theorem Backed.back_eq (h : Backed nx back l (p ++ n :: q)) : back n = some (lastPlace nx l p) :=
  (backed_append.1 h).2.1

/-- The back link of the node that a place holds, if it holds one. -/
def setBack [DecidableEq N] (back : N → Option P) (o : Option N) (m : P) : N → Option P :=
  match o with
  | none => back
  | some n => Function.update back n (some m)

/-- What follows the front part of a chain is not in it. -/
theorem Chain.link_ne (h : Chain nx link l (p ++ q)) (hx : x ∈ p) :
    link (lastPlace nx l p) ≠ some x := by
  intro heq
  cases q with
  | nil =>
      have hnone : link (lastPlace nx l p) = none := h.drop
      rw [hnone] at heq
      cases heq
  | cons y q =>
      rw [h.link_last.1, Option.some.injEq] at heq
      exact (List.nodup_append'.1 h.nodup).2.2 hx (by simp [heq])

section Update

variable [DecidableEq N]

/-- The nodes `q` hung on the place `m` instead. -/
theorem Backed.relink (h : Backed nx back l q) (hlink : Chain nx link l q) (hnd : q.Nodup) :
    Backed nx (setBack back (link l) m) m q := by
  cases q with
  | nil => trivial
  | cons y q =>
      rw [hlink.1]
      refine ⟨by simp [setBack], h.2.frame fun x hx => ?_⟩
      have hxy : x ≠ y := by
        rintro rfl
        exact (List.nodup_cons.1 hnd).1 hx
      simp [setBack, hxy]

theorem setBack_of_ne {o : Option N} (h : o ≠ some x) : setBack back o m x = back x := by
  cases o with
  | none => rfl
  | some y => simp [setBack, show x ≠ y from fun heq => h (heq ▸ rfl)]

theorem Backed.insertAt (h : Backed nx back l (p ++ q)) (hc : Chain nx link l (p ++ q))
    (hn : n ∉ p ++ q) : Backed nx (Function.update
      (setBack back (link (lastPlace nx l p)) (nx n)) n (some (lastPlace nx l p))) l
      (p ++ n :: q) := by
  rw [List.mem_append, not_or] at hn
  obtain ⟨hp, hq⟩ := backed_append.1 h
  have hnd := (List.nodup_append'.1 hc.nodup).2.1
  refine backed_append.2 ⟨hp.frame fun x hx => ?_, by simp, ?_⟩
  · have hxn : x ≠ n := by
      rintro rfl
      exact hn.1 hx
    rw [Function.update_of_ne hxn, setBack_of_ne (hc.link_ne hx)]
  · refine (hq.relink hc.drop hnd).frame fun x hx => ?_
    have hxn : x ≠ n := by
      rintro rfl
      exact hn.2 hx
    rw [Function.update_of_ne hxn]

theorem Backed.unlinkAt (h : Backed nx back l (p ++ n :: q)) (hc : Chain nx link l (p ++ n :: q)) :
    Backed nx (setBack back (link (nx n)) (lastPlace nx l p)) l (p ++ q) := by
  obtain ⟨hp, -, hq⟩ := backed_append.1 h
  have hnd := (List.nodup_append'.1 hc.nodup).2.1
  have hc' : Chain nx link l ((p ++ [n]) ++ q) := by rwa [List.append_assoc]
  refine backed_append.2 ⟨hp.frame fun x hx => ?_, hq.relink hc.link_last.2 hnd.of_cons⟩
  have hne := hc'.link_ne (List.mem_append_left [n] hx)
  rw [lastPlace_append] at hne
  exact setBack_of_ne hne

end Update

end StructLib
