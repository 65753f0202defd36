import StructLib.Lib.Tree
import Mathlib.Logic.Function.Basic

set_option autoImplicit false

/-! # Binary trees with parent pointers in memory

Memory is a partial map from addresses to records of some type `R`. A `Layout V R` says which record
a node holds, given its value and its three links; `Layout.TreeAt` lays a whole tree out in memory,
`Layout.CtxAt` a tree with a hole together with the variable that points to its root. Two operations
describe what mirrored pointer code does to such a memory: `Layout.link` makes the hole's pointer
point elsewhere, `Layout.reparent` sets the parent link of a subtree's root. Everything else about a
memory is frame reasoning: an update of an address outside a tree or context leaves it laid out. -/

namespace StructLib

/-- A partial map from addresses to records. -/
abbrev Cells (R : Type) := ℕ → Option R

/-- Which record a node with a given value and left, right and parent links is. -/
structure Layout (V R : Type) where
  cell : V → Option ℕ → Option ℕ → Option ℕ → R

/-- A store does not free anything. -/
theorem update_ne_none {R : Type} {h : Cells R} {m n : ℕ} {c : R} (hm : h m ≠ none) :
    Function.update h n (some c) m ≠ none := by
  rw [Function.update_apply]
  split
  · simp
  · exact hm

namespace Layout

variable {V R : Type} (L : Layout V R)

/-- The record of a node whose `d` child is `a`, whose other child is `b` and whose parent is `p`.
    -/
def cellOf (d : Dir) (v : V) (a b p : Option ℕ) : R :=
  match d with
  | .left => L.cell v a b p
  | .right => L.cell v b a p

theorem cellOf_flip (d : Dir) (v : V) (a b p : Option ℕ) :
    L.cellOf d.flip v a b p = L.cellOf d v b a p := by cases d <;> rfl

/-! ## Trees in memory -/

/-- `t` is laid out in `h`, its root having the parent `p`. -/
def TreeAt (h : Cells R) (p : Option ℕ) : BinTree V → Prop
  | .nil => True
  | .node l n v r =>
      h n = some (L.cell v l.root r.root p) ∧ TreeAt h (some n) l ∧ TreeAt h (some n) r

variable {h h' : Cells R} {p q rt hole x : Option ℕ} {t t' : BinTree V} {fs : Ctx V} {n : ℕ}
  {c : Option R}

@[simp] theorem treeAt_nil : L.TreeAt h p .nil := trivial

@[simp] theorem treeAt_node {l r : BinTree V} {v : V} : L.TreeAt h p (.node l n v r) ↔
    h n = some (L.cell v l.root r.root p) ∧ L.TreeAt h (some n) l ∧ L.TreeAt h (some n) r := Iff.rfl

@[simp] theorem treeAt_mk {d : Dir} {a b : BinTree V} {v : V} : L.TreeAt h p (.mk d a n v b) ↔
    h n = some (L.cellOf d v a.root b.root p) ∧ L.TreeAt h (some n) a ∧ L.TreeAt h (some n) b := by
  cases d
  · rfl
  · simp only [BinTree.mk, treeAt_node, cellOf]
    tauto

/-- A tree stays laid out in a memory that agrees on its nodes. -/
theorem treeAt_congr (ht : L.TreeAt h p t) (hh : ∀ n ∈ t, h' n = h n) : L.TreeAt h' p t := by
  induction t generalizing p with
  | nil => trivial
  | node l n v r ihl ihr =>
      obtain ⟨hn, hl, hr⟩ := ht
      exact ⟨(hh n (by simp)).trans hn, ihl hl fun m hm => hh m (by simp [hm]),
        ihr hr fun m hm => hh m (by simp [hm])⟩

/-- A tree determines the cells of its nodes. -/
theorem treeAt_agree (ht : L.TreeAt h p t) (ht' : L.TreeAt h' p t) : ∀ n ∈ t, h n = h' n := by
  induction t generalizing p with
  | nil => simp
  | node l m v r ihl ihr =>
      obtain ⟨hm, hl, hr⟩ := ht
      obtain ⟨hm', hl', hr'⟩ := ht'
      intro n hn
      rcases BinTree.mem_node.1 hn with rfl | hn | hn
      · exact hm.trans hm'.symm
      · exact ihl hl hl' n hn
      · exact ihr hr hr' n hn

/-- The nodes of a tree in memory are allocated. -/
theorem treeAt_ne_none (ht : L.TreeAt h p t) (hn : n ∈ t) : h n ≠ none := by
  induction t generalizing p with
  | nil => simp at hn
  | node l m v r ihl ihr =>
      obtain ⟨hm, hl, hr⟩ := ht
      rcases BinTree.mem_node.1 hn with rfl | hn | hn
      · simp [hm]
      · exact ihl hl hn
      · exact ihr hr hn

@[simp] theorem treeAt_update (hn : n ∉ t) :
    L.TreeAt (Function.update h n c) p t ↔ L.TreeAt h p t := by
  have key : ∀ m ∈ t, Function.update h n c m = h m := fun m hm =>
    Function.update_of_ne (by rintro rfl; exact hn hm) _ _
  exact ⟨fun ht => L.treeAt_congr ht fun m hm => (key m hm).symm, fun ht => L.treeAt_congr ht key⟩

/-- The tree at a root pointer is determined by the memory. -/
theorem treeAt_unique (hinj : ∀ v₁ v₂ a₁ a₂ b₁ b₂ p₁ p₂,
      L.cell v₁ a₁ b₁ p₁ = L.cell v₂ a₂ b₂ p₂ → v₁ = v₂ ∧ a₁ = a₂ ∧ b₁ = b₂)
    (ht : L.TreeAt h p t) (ht' : L.TreeAt h q t') (hroot : t.root = t'.root) : t = t' := by
  induction t generalizing p q t' with
  | nil => exact (BinTree.root_eq_none.1 hroot.symm).symm
  | node l n v r ihl ihr =>
      cases t' with
      | nil => simp at hroot
      | node l' n' v' r' =>
          obtain rfl : n = n' := by simpa using hroot
          obtain ⟨hn, hl, hr⟩ := ht
          obtain ⟨hn', hl', hr'⟩ := ht'
          obtain ⟨rfl, hlr, hrr⟩ := hinj _ _ _ _ _ _ _ _ (Option.some.inj (hn.symm.trans hn'))
          rw [ihl hl hl' hlr, ihr hr hr' hrr]

/-! ## Trees with a hole in memory -/

/-- `fs` is laid out in `h`: the pointer to the whole tree is `rt`, the hole's pointer is `hole`,
    and the parent of the whole tree is `p`. -/
def CtxAt (h : Cells R) (p rt hole : Option ℕ) : Ctx V → Prop
  | .root => rt = hole
  | .up d n v sib fs =>
      h n = some (L.cellOf d v hole sib.root (fs.parent p)) ∧ L.TreeAt h (some n) sib ∧
        CtxAt h p rt (some n) fs

@[simp] theorem ctxAt_root : L.CtxAt h p rt hole .root ↔ rt = hole := Iff.rfl

@[simp] theorem ctxAt_up {d : Dir} {v : V} {sib : BinTree V} :
    L.CtxAt h p rt hole (.up d n v sib fs) ↔
      h n = some (L.cellOf d v hole sib.root (fs.parent p)) ∧ L.TreeAt h (some n) sib ∧
        L.CtxAt h p rt (some n) fs := Iff.rfl

/-- A filled hole is laid out iff the context and the filling are. -/
theorem treeAt_plug : L.TreeAt h p (fs.plug t) ∧ rt = (fs.plug t).root ↔
    L.TreeAt h (fs.parent p) t ∧ L.CtxAt h p rt t.root fs := by
  induction fs generalizing t with
  | root => rfl
  | up d n v sib fs ih =>
      rw [Ctx.plug_up, ih, treeAt_mk, ctxAt_up, BinTree.root_mk, Ctx.parent_up]
      tauto

theorem ctxAt_congr (hf : L.CtxAt h p rt hole fs) (hh : ∀ n ∈ fs, h' n = h n) :
    L.CtxAt h' p rt hole fs := by
  induction fs generalizing hole with
  | root => exact hf
  | up d n v sib fs ih =>
      obtain ⟨hn, hs, hf⟩ := hf
      exact ⟨(hh _ (by simp)).trans hn, L.treeAt_congr hs fun m hm => hh m (by simp [hm]),
        ih hf fun m hm => hh m (by simp [hm])⟩

theorem ctxAt_ne_none (hf : L.CtxAt h p rt hole fs) (hn : n ∈ fs) : h n ≠ none := by
  induction fs generalizing hole with
  | root => simp at hn
  | up d m v sib fs ih =>
      obtain ⟨hm, hs, hf⟩ := hf
      rcases Ctx.mem_up.1 hn with rfl | hn | hn
      · simp [hm]
      · exact L.treeAt_ne_none hs hn
      · exact ih hf hn

@[simp] theorem ctxAt_update (hn : n ∉ fs) :
    L.CtxAt (Function.update h n c) p rt hole fs ↔ L.CtxAt h p rt hole fs := by
  have key : ∀ m ∈ fs, Function.update h n c m = h m := fun m hm =>
    Function.update_of_ne (by rintro rfl; exact hn hm) _ _
  exact ⟨fun ht => L.ctxAt_congr ht fun m hm => (key m hm).symm, fun ht => L.ctxAt_congr ht key⟩

/-- The two contexts of an appended one meet at the pointer to the inner tree. -/
theorem ctxAt_append {gs : Ctx V} : L.CtxAt h p rt hole (fs.append gs) ↔
    ∃ mid, L.CtxAt h (gs.parent p) mid hole fs ∧ L.CtxAt h p rt mid gs := by
  induction fs generalizing hole with
  | root => simp
  | up d n v sib fs ih =>
      simp only [Ctx.append_up, ctxAt_up, ih, Ctx.parent_append]
      grind

/-! ## Setting a parent link -/

/-- Changing the parent link of a context's topmost node changes the parent of the whole. -/
theorem ctxAt_reparentRoot {f : R → R} (hf : ∀ v a b p, f (L.cell v a b p) = L.cell v a b q)
    (hd : fs.Distinct) (hne : fs ≠ .root) (hc : L.CtxAt h p rt hole fs) :
    ∃ x c, rt = some x ∧ x ∈ fs ∧ h x = some c ∧
      L.CtxAt (Function.update h x (some (f c))) q rt hole fs := by
  induction fs generalizing hole with
  | root => exact absurd rfl hne
  | up d n v sib fs ih =>
      obtain ⟨hn, hs, hfs⟩ := hc
      obtain ⟨hns, hnf, -, hdf, hsf⟩ := Ctx.distinct_up.1 hd
      cases fs with
      | root =>
          refine ⟨n, _, hfs, by simp, hn, ?_, by simpa [hns] using hs, hfs⟩
          cases d <;> simp [cellOf, hf]
      | up d' n' v' sib' fs' =>
          obtain ⟨x, c, hrt, hx, hc, hup⟩ := ih hdf (by simp) hfs
          refine ⟨x, c, hrt, by simp only [Ctx.mem_up] at hx ⊢; tauto, hc, ?_, ?_, hup⟩
          · have hxn : n ≠ x := by rintro rfl; exact hnf hx
            simpa [hxn] using hn
          · exact (L.treeAt_update fun hxs => hsf x hxs hx).2 hs

/-- Set the parent link of the root of `t`, if there is one. -/
def reparent (t : BinTree V) (q : Option ℕ) (h : Cells R) : Cells R :=
  match t with
  | .nil => h
  | .node l n v r => Function.update h n (some (L.cell v l.root r.root q))

theorem reparent_of_not_mem (hn : n ∉ t) : L.reparent t q h n = h n := by
  cases t with
  | nil => rfl
  | node l m v r => exact Function.update_of_ne (by rintro rfl; simp at hn) _ _

theorem reparent_ne_none {m : ℕ} (hm : h m ≠ none) : L.reparent t q h m ≠ none := by
  cases t with
  | nil => exact hm
  | node l m v r => exact update_ne_none hm

theorem treeAt_reparent_self (hd : t.Distinct) (ht : L.TreeAt h p t) :
    L.TreeAt (L.reparent t q h) q t := by
  cases t with
  | nil => trivial
  | node l m v r =>
      obtain ⟨hl, hr, -⟩ := BinTree.distinct_node.1 hd
      simpa [reparent, hl, hr] using ht.2

theorem treeAt_reparent (hd : ∀ y ∈ t, y ∉ t') :
    L.TreeAt (L.reparent t q h) p t' ↔ L.TreeAt h p t' := by
  cases t with
  | nil => rfl
  | node l m v r => exact L.treeAt_update (hd m (by simp))

theorem ctxAt_reparent (hd : ∀ y ∈ t, y ∉ fs) :
    L.CtxAt (L.reparent t q h) p rt x fs ↔ L.CtxAt h p rt x fs := by
  cases t with
  | nil => rfl
  | node l m v r => exact L.ctxAt_update (hd m (by simp))

/-! ## Setting the hole's pointer -/

/-- Make the hole's pointer `x`: a child link of the hole's parent. -/
def link (p : Option ℕ) (fs : Ctx V) (x : Option ℕ) (h : Cells R) : Cells R :=
  match fs with
  | .root => h
  | .up d n v sib fs => Function.update h n (some (L.cellOf d v x sib.root (fs.parent p)))

end Layout

/-- The pointer to the whole tree once the hole's pointer is `x`. -/
def Ctx.linkRoot {V : Type} (fs : Ctx V) (x rt : Option ℕ) : Option ℕ :=
  match fs with
  | .root => x
  | .up .. => rt

namespace Layout

variable {V R : Type} (L : Layout V R) {h : Cells R} {p q rt x y : Option ℕ} {t : BinTree V}
  {fs : Ctx V} {n : ℕ}

theorem link_of_not_mem (hn : n ∉ fs) : L.link p fs x h n = h n := by
  cases fs with
  | root => rfl
  | up d m v sib fs => exact Function.update_of_ne (by rintro rfl; simp at hn) _ _

theorem treeAt_link (hd : ∀ z ∈ t, z ∉ fs) : L.TreeAt (L.link p fs x h) q t ↔ L.TreeAt h q t := by
  cases fs with
  | root => rfl
  | up d m v sib fs => exact L.treeAt_update fun hm => hd m hm (by simp)

theorem ctxAt_link (hd : fs.Distinct) (hc : L.CtxAt h p rt y fs) :
    L.CtxAt (L.link p fs x h) p (fs.linkRoot x rt) x fs := by
  cases fs with
  | root => rfl
  | up d m v sib fs =>
      obtain ⟨hs, hf, -⟩ := Ctx.distinct_up.1 hd
      simpa [link, Ctx.linkRoot, hs, hf] using hc.2

end Layout

end StructLib
