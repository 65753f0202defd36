import Mathlib.Data.List.Nodup
import Mathlib.Tactic.Common

set_option autoImplicit false

/-! # Binary trees of addresses

`BinTree V` is the shape of a pointer structure: a binary tree whose nodes carry an address and a
value. `BinTree.mk d` builds a node from its `d` subtree and the other one, so that mirrored code
needs one argument only. `Ctx V` is a tree with a hole, from the hole upwards, and `Ctx.plug` fills
it.

Membership is about addresses; `Distinct` says that no address occurs twice, which is what makes a
store to one node leave the others alone (`PtrTree.lean`). -/

namespace StructLib

/-- The two sides of a node. -/
inductive Dir where
  | left
  | right
  deriving DecidableEq, Repr

/-- The other side. -/
def Dir.flip : Dir → Dir
  | .left => .right
  | .right => .left

@[simp] theorem Dir.flip_left : Dir.left.flip = .right := rfl

@[simp] theorem Dir.flip_right : Dir.right.flip = .left := rfl

@[simp] theorem Dir.flip_flip (d : Dir) : d.flip.flip = d := by cases d <;> rfl

/-- A binary tree of addresses with values. -/
inductive BinTree (V : Type) where
  | nil
  | node (l : BinTree V) (n : ℕ) (v : V) (r : BinTree V)
  deriving DecidableEq, Repr

variable {V : Type}

namespace BinTree

/-- The address of the root node. -/
def root : BinTree V → Option ℕ
  | nil => none
  | node _ n _ _ => some n

/-- Nodes in order, with their values. -/
def entries : BinTree V → List (ℕ × V)
  | nil => []
  | node l n v r => l.entries ++ (n, v) :: r.entries

/-- Addresses in order. -/
def addrs (t : BinTree V) : List ℕ := t.entries.map Prod.fst

/-- Number of levels. -/
def depth : BinTree V → ℕ
  | nil => 0
  | node l _ _ r => max l.depth r.depth + 1

/-- The node whose `d` subtree is `a` and whose other subtree is `b`. -/
def mk (d : Dir) (a : BinTree V) (n : ℕ) (v : V) (b : BinTree V) : BinTree V :=
  match d with
  | .left => node a n v b
  | .right => node b n v a

theorem mk_flip (d : Dir) (a : BinTree V) (n : ℕ) (v : V) (b : BinTree V) :
    mk d.flip a n v b = mk d b n v a := by cases d <;> rfl

/-- The recursion along a path that turns to the side `side v` at a node with the data `v`. -/
theorem path_induction (side : V → Dir) {P : BinTree V → Prop} (nil : P nil)
    (step : ∀ d a n v b, side v = d → P a → P (mk d a n v b)) (t : BinTree V) : P t := by
  induction t with
  | nil => exact nil
  | node l n v r ihl ihr =>
      cases hside : side v with
      | left => exact step .left l n v r hside ihl
      | right => exact step .right r n v l hside ihr

@[simp] theorem root_nil : (nil : BinTree V).root = none := rfl

@[simp] theorem root_node (l : BinTree V) (n : ℕ) (v : V) (r : BinTree V) :
    (node l n v r).root = some n := rfl

@[simp] theorem root_mk (d : Dir) (a : BinTree V) (n : ℕ) (v : V) (b : BinTree V) :
    (mk d a n v b).root = some n := by cases d <;> rfl

theorem root_eq_none {t : BinTree V} : t.root = none ↔ t = nil := by cases t <;> simp

@[simp] theorem entries_nil : (nil : BinTree V).entries = [] := rfl

@[simp] theorem entries_node (l : BinTree V) (n : ℕ) (v : V) (r : BinTree V) :
    (node l n v r).entries = l.entries ++ (n, v) :: r.entries := rfl

@[simp] theorem addrs_nil : (nil : BinTree V).addrs = [] := rfl

@[simp] theorem addrs_node (l : BinTree V) (n : ℕ) (v : V) (r : BinTree V) :
    (node l n v r).addrs = l.addrs ++ n :: r.addrs := by simp [addrs]

@[simp] theorem depth_nil : (nil : BinTree V).depth = 0 := rfl

@[simp] theorem depth_node (l : BinTree V) (n : ℕ) (v : V) (r : BinTree V) :
    (node l n v r).depth = max l.depth r.depth + 1 := rfl

theorem depth_mk (d : Dir) (a : BinTree V) (n : ℕ) (v : V) (b : BinTree V) :
    (mk d a n v b).depth = max a.depth b.depth + 1 := by
  cases d
  · rfl
  · simp [mk, Nat.max_comm]

theorem depth_le_length_addrs (t : BinTree V) : t.depth ≤ t.addrs.length := by
  induction t with
  | nil => simp
  | node l n v r ihl ihr =>
      simp only [depth_node, addrs_node, List.length_append, List.length_cons]
      omega

/-- The addresses in the order in which one meets them going to the side `d`. -/
def walk (d : Dir) (t : BinTree V) : List ℕ :=
  match d with
  | .left => t.addrs.reverse
  | .right => t.addrs

@[simp] theorem walk_nil (d : Dir) : (nil : BinTree V).walk d = [] := by cases d <;> rfl

theorem walk_mk (d : Dir) (a : BinTree V) (n : ℕ) (v : V) (b : BinTree V) :
    (mk d a n v b).walk d = b.walk d ++ n :: a.walk d := by
  cases d <;> simp [mk, walk]

theorem walk_mk_flip (d : Dir) (a : BinTree V) (n : ℕ) (v : V) (b : BinTree V) :
    (mk d.flip a n v b).walk d = a.walk d ++ n :: b.walk d := by
  rw [mk_flip, walk_mk]

/-- The tree without its values. -/
def shape : BinTree V → BinTree Unit
  | nil => nil
  | node l n _ r => node l.shape n () r.shape

@[simp] theorem shape_nil : (nil : BinTree V).shape = nil := rfl

@[simp] theorem shape_mk (d : Dir) (a : BinTree V) (n : ℕ) (v : V) (b : BinTree V) :
    (mk d a n v b).shape = mk d a.shape n () b.shape := by cases d <;> rfl

@[simp] theorem addrs_shape (t : BinTree V) : t.shape.addrs = t.addrs := by
  induction t with
  | nil => rfl
  | node l n v r ihl ihr => simp [shape, ihl, ihr]

@[simp] theorem root_shape (t : BinTree V) : t.shape.root = t.root := by cases t <;> rfl

/-! ## Membership and distinctness -/

instance : Membership ℕ (BinTree V) := ⟨fun t n => n ∈ t.addrs⟩

theorem mem_addrs {x : ℕ} {t : BinTree V} : x ∈ t.addrs ↔ x ∈ t := Iff.rfl

instance (x : ℕ) (t : BinTree V) : Decidable (x ∈ t) := inferInstanceAs (Decidable (x ∈ t.addrs))

@[simp] theorem not_mem_nil (x : ℕ) : x ∉ (nil : BinTree V) := List.not_mem_nil

@[simp] theorem mem_node {x : ℕ} {l : BinTree V} {n : ℕ} {v : V} {r : BinTree V} :
    x ∈ node l n v r ↔ x = n ∨ x ∈ l ∨ x ∈ r := by
  simp only [← mem_addrs, addrs_node, List.mem_append, List.mem_cons]
  tauto

@[simp] theorem mem_mk {x : ℕ} {d : Dir} {a : BinTree V} {n : ℕ} {v : V} {b : BinTree V} :
    x ∈ mk d a n v b ↔ x = n ∨ x ∈ a ∨ x ∈ b := by
  cases d
  · exact mem_node
  · rw [mk, mem_node, or_comm (a := x ∈ b)]

theorem exists_mem {t : BinTree V} (h : t ≠ nil) : ∃ n, n ∈ t := by
  cases t with
  | nil => exact absurd rfl h
  | node l n v r => exact ⟨n, mem_node.2 (.inl rfl)⟩

theorem mem_of_root {t : BinTree V} {n : ℕ} (h : t.root = some n) : n ∈ t := by
  cases t with
  | nil => simp at h
  | node l m v r => simp_all

/-- No address occurs twice. -/
def Distinct (t : BinTree V) : Prop := t.addrs.Nodup

@[simp] theorem distinct_nil : (nil : BinTree V).Distinct := List.nodup_nil

@[simp] theorem distinct_node {l : BinTree V} {n : ℕ} {v : V} {r : BinTree V} :
    (node l n v r).Distinct ↔
      n ∉ l ∧ n ∉ r ∧ l.Distinct ∧ r.Distinct ∧ ∀ x ∈ l, x ∉ r := by
  simp only [Distinct, addrs_node, List.nodup_append', List.nodup_cons, List.disjoint_cons_right,
    mem_addrs]
  simp only [List.Disjoint, mem_addrs]
  tauto

@[simp] theorem distinct_mk {d : Dir} {a : BinTree V} {n : ℕ} {v : V} {b : BinTree V} :
    (mk d a n v b).Distinct ↔
      n ∉ a ∧ n ∉ b ∧ a.Distinct ∧ b.Distinct ∧ ∀ x ∈ a, x ∉ b := by
  cases d
  · exact distinct_node
  · rw [mk, distinct_node]
    grind

end BinTree

/-! ## Trees with a hole -/

/-- The path from a hole up to the root: on which side of each ancestor the hole lies, the ancestor,
    and the ancestor's other subtree. -/
inductive Ctx (V : Type) where
  | root
  | up (d : Dir) (n : ℕ) (v : V) (sib : BinTree V) (fs : Ctx V)
  deriving DecidableEq, Repr

namespace Ctx

/-- Fill the hole. -/
def plug : Ctx V → BinTree V → BinTree V
  | root, t => t
  | up d n v sib fs, t => fs.plug (.mk d t n v sib)

/-- The parent of the hole, when the whole tree has the parent `p`. -/
def parent (p : Option ℕ) : Ctx V → Option ℕ
  | root => p
  | up _ n _ _ _ => some n

/-- Number of ancestors of the hole. -/
def length : Ctx V → ℕ
  | root => 0
  | up _ _ _ _ fs => fs.length + 1

/-- The addresses before the hole, in order. -/
def before : Ctx V → List ℕ
  | root => []
  | up .left _ _ _ fs => fs.before
  | up .right n _ sib fs => fs.before ++ sib.addrs ++ [n]

/-- The addresses after the hole, in order. -/
def after : Ctx V → List ℕ
  | root => []
  | up .left n _ sib fs => n :: sib.addrs ++ fs.after
  | up .right _ _ _ fs => fs.after

/-- The addresses that one meets going from the hole to the side `d`. -/
def beyond (d : Dir) (fs : Ctx V) : List ℕ :=
  match d with
  | .left => fs.before.reverse
  | .right => fs.after

@[simp] theorem beyond_root (d : Dir) : (root : Ctx V).beyond d = [] := by cases d <;> rfl

@[simp] theorem beyond_up (d : Dir) (n : ℕ) (v : V) (sib : BinTree V) (fs : Ctx V) :
    (up d n v sib fs).beyond d = fs.beyond d := by cases d <;> rfl

@[simp] theorem beyond_up_flip (d : Dir) (n : ℕ) (v : V) (sib : BinTree V) (fs : Ctx V) :
    (up d.flip n v sib fs).beyond d = n :: sib.walk d ++ fs.beyond d := by
  cases d <;> simp [beyond, before, after, BinTree.walk]

@[simp] theorem plug_root (t : BinTree V) : (root : Ctx V).plug t = t := rfl

@[simp] theorem plug_up (d : Dir) (n : ℕ) (v : V) (sib : BinTree V) (fs : Ctx V) (t : BinTree V) :
    (up d n v sib fs).plug t = fs.plug (.mk d t n v sib) := rfl

@[simp] theorem parent_root (p : Option ℕ) : (root : Ctx V).parent p = p := rfl

@[simp] theorem parent_up (p : Option ℕ) (d : Dir) (n : ℕ) (v : V) (sib : BinTree V) (fs : Ctx V) :
    (up d n v sib fs).parent p = some n := rfl

@[simp] theorem length_root : (root : Ctx V).length = 0 := rfl

@[simp] theorem length_up (d : Dir) (n : ℕ) (v : V) (sib : BinTree V) (fs : Ctx V) :
    (up d n v sib fs).length = fs.length + 1 := rfl

theorem addrs_plug (fs : Ctx V) (t : BinTree V) :
    (fs.plug t).addrs = fs.before ++ t.addrs ++ fs.after := by
  induction fs generalizing t with
  | root => simp [before, after]
  | up d n v sib fs ih =>
      rw [plug_up, ih]
      cases d <;> simp [before, after, BinTree.mk]

theorem shape_plug_congr {fs : Ctx V} {t t' : BinTree V} (h : t.shape = t'.shape) :
    (fs.plug t).shape = (fs.plug t').shape := by
  induction fs generalizing t t' with
  | root => exact h
  | up d n v sib fs ih => exact ih (by simp [h])

theorem length_add_depth_le (fs : Ctx V) (t : BinTree V) :
    fs.length + t.depth ≤ (fs.plug t).depth := by
  induction fs generalizing t with
  | root => simp
  | up d n v sib fs ih =>
      have h := ih (.mk d t n v sib)
      rw [BinTree.depth_mk] at h
      simp only [length_up, plug_up]
      omega

/-- A tree with a hole inside the hole of another. -/
def append : Ctx V → Ctx V → Ctx V
  | root, gs => gs
  | up d n v sib fs, gs => up d n v sib (fs.append gs)

@[simp] theorem append_root (gs : Ctx V) : (root : Ctx V).append gs = gs := rfl

@[simp] theorem append_up (d : Dir) (n : ℕ) (v : V) (sib : BinTree V) (fs gs : Ctx V) :
    (up d n v sib fs).append gs = up d n v sib (fs.append gs) := rfl

@[simp] theorem plug_append (fs gs : Ctx V) (t : BinTree V) :
    (fs.append gs).plug t = gs.plug (fs.plug t) := by
  induction fs generalizing t with
  | root => rfl
  | up d n v sib fs ih => exact ih _

@[simp] theorem parent_append (p : Option ℕ) (fs gs : Ctx V) :
    (fs.append gs).parent p = fs.parent (gs.parent p) := by cases fs <;> rfl

@[simp] theorem before_append (fs gs : Ctx V) : (fs.append gs).before = gs.before ++ fs.before := by
  induction fs with
  | root => simp [before]
  | up d n v sib fs ih => cases d <;> simp [before, ih]

@[simp] theorem after_append (fs gs : Ctx V) : (fs.append gs).after = fs.after ++ gs.after := by
  induction fs with
  | root => simp [after]
  | up d n v sib fs ih => cases d <;> simp [after, ih]

@[simp] theorem length_append (fs gs : Ctx V) : (fs.append gs).length = fs.length + gs.length := by
  induction fs with
  | root => simp
  | up d n v sib fs ih => simp only [append_up, length_up, ih]; omega

/-- Every node of a tree is the root of a subtree. -/
theorem exists_plug {t : BinTree V} {n : ℕ} (h : n ∈ t) :
    ∃ fs l v r, t = plug fs (.node l n v r) := by
  suffices hs : ∀ gs : Ctx V, ∃ fs l v r, gs.plug t = plug fs (.node l n v r) from hs root
  induction t with
  | nil => simp at h
  | node l m w r ihl ihr =>
      intro gs
      rcases BinTree.mem_node.1 h with rfl | h | h
      · exact ⟨gs, l, w, r, rfl⟩
      · exact ihl h (up .left m w r gs)
      · exact ihr h (up .right m w l gs)

instance : Membership ℕ (Ctx V) := ⟨fun fs n => n ∈ fs.before ++ fs.after⟩

theorem mem_def {x : ℕ} {fs : Ctx V} : x ∈ fs ↔ x ∈ fs.before ++ fs.after := Iff.rfl

@[simp] theorem not_mem_root (x : ℕ) : x ∉ (root : Ctx V) := List.not_mem_nil

@[simp] theorem mem_up {x : ℕ} {d : Dir} {n : ℕ} {v : V} {sib : BinTree V} {fs : Ctx V} :
    x ∈ up d n v sib fs ↔ x = n ∨ x ∈ sib ∨ x ∈ fs := by
  cases d <;> simp only [mem_def, before, after, List.mem_append, List.mem_cons, BinTree.mem_addrs,
    List.not_mem_nil] <;> tauto

@[simp] theorem mem_append {x : ℕ} {fs gs : Ctx V} : x ∈ fs.append gs ↔ x ∈ fs ∨ x ∈ gs := by
  induction fs with
  | root => simp
  | up d n v sib fs ih => simp only [append_up, mem_up, ih, or_assoc]

/-- No address occurs twice. -/
def Distinct : Ctx V → Prop
  | root => True
  | up _ n _ sib fs => n ∉ sib ∧ n ∉ fs ∧ sib.Distinct ∧ fs.Distinct ∧ ∀ x ∈ sib, x ∉ fs

@[simp] theorem distinct_root : (root : Ctx V).Distinct := trivial

@[simp] theorem distinct_up {d : Dir} {n : ℕ} {v : V} {sib : BinTree V} {fs : Ctx V} :
    (up d n v sib fs).Distinct ↔
      n ∉ sib ∧ n ∉ fs ∧ sib.Distinct ∧ fs.Distinct ∧ ∀ x ∈ sib, x ∉ fs := Iff.rfl

theorem mem_plug {x : ℕ} {fs : Ctx V} {t : BinTree V} : x ∈ fs.plug t ↔ x ∈ t ∨ x ∈ fs := by
  simp only [← BinTree.mem_addrs, addrs_plug, mem_def, List.mem_append]
  tauto

theorem distinct_plug {fs : Ctx V} {t : BinTree V} :
    (fs.plug t).Distinct ↔ t.Distinct ∧ fs.Distinct ∧ ∀ x ∈ t, x ∉ fs := by
  induction fs generalizing t with
  | root => simp
  | up d n v sib fs ih =>
      rw [plug_up, ih, BinTree.distinct_mk, distinct_up]
      simp only [BinTree.mem_mk, mem_up]
      grind

theorem plug_eq_nil {fs : Ctx V} {t : BinTree V} (h : fs.plug t = .nil) : fs = root ∧ t = .nil := by
  cases fs with
  | root => exact ⟨rfl, h⟩
  | up d n v sib fs =>
      have haddrs := congrArg BinTree.addrs h
      cases d <;> simp [addrs_plug, BinTree.mk] at haddrs

/-- The addresses without the one at the hole. -/
theorem addrs_plug_erase {fs : Ctx V} {l r : BinTree V} {n : ℕ} {v : V}
    (h : (fs.plug (.node l n v r)).Distinct) : (fs.plug (.node l n v r)).addrs.erase n =
      fs.before ++ l.addrs ++ r.addrs ++ fs.after := by
  obtain ⟨ht, -, htf⟩ := distinct_plug.1 h
  have hb : n ∉ fs.before := fun hb => htf n (by simp) (List.mem_append_left _ hb)
  have hl : n ∉ l.addrs := (BinTree.distinct_node.1 ht).1
  rw [addrs_plug, BinTree.addrs_node, List.append_assoc, List.append_assoc, List.cons_append,
    List.erase_append_right _ hb, List.erase_append_right _ hl, List.erase_cons_head]
  simp only [List.append_assoc]

end Ctx

end StructLib
