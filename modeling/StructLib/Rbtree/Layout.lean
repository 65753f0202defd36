import StructLib.Rbtree.Model

set_option autoImplicit false

/-! # Red-black trees in memory

How a tree of colours lies in `RbMem.node` (`rbLayout`), what each field access does to a memory,
and what the helpers that relink a subtree do in terms of `Layout.link` and `Layout.reparent`. The
proofs about `rbtree.c` run the code with these lemmas and then read the final memory as a tree. -/

namespace StructLib.Rbtree

open BinTree Ctx

variable {D : Type}

/-- A node holds its colour, its parent and its children. -/
def rbLayout : Layout Color RbNode := ⟨fun c l r p => ⟨⟨p, c⟩, r, l⟩⟩

/-- The record of a node whose `d` child is `a` and whose other child is `b`. -/
abbrev rbCell (d : Dir) (c : Color) (a b p : Ptr) : RbNode := rbLayout.cellOf d c a b p

section Cell

variable (d : Dir) (c : Color) (a b p x : Ptr)

@[simp] theorem rbCell_child : (rbCell d c a b p).child d = a := by cases d <;> rfl

@[simp] theorem rbCell_child_flip : (rbCell d c a b p).child d.flip = b := by cases d <;> rfl

@[simp] theorem rbCell_setChild : (rbCell d c a b p).setChild d x = rbCell d c x b p := by
  cases d <;> rfl

@[simp] theorem rbCell_setChild_flip : (rbCell d c a b p).setChild d.flip x = rbCell d c a x p := by
  cases d <;> rfl

@[simp] theorem rbCell_parentColor : (rbCell d c a b p).rbParentColor = ⟨p, c⟩ := by
  cases d <;> rfl

@[simp] theorem rbCell_setParentColor (pc : ParentColor) :
    (⟨pc, (rbCell d c a b p).rbRight, (rbCell d c a b p).rbLeft⟩ : RbNode) =
      rbCell d pc.color a b pc.parent := by cases d <;> rfl

end Cell

/-! ## Field accesses -/

section Access

variable {s : RbMem D} {n : ℕ} {d : Dir} {q : Ptr} {c : Color} {pc : ParentColor}

/-- The outcome of an access to the node at `n`. -/
def atNode {α : Type} (s : RbMem D) (n : ℕ) (f : RbNode → α × RbMem D) :
    Except Fault (α × RbMem D) :=
  match s.node n with
  | some r => .ok (f r)
  | none => .error .undef

theorem run_load : (load (some n)).run s = atNode s n fun r => (r, s) := by
  cases h : s.node n <;> simp [load, atNode, h]

theorem run_modifyNode {f : RbNode → RbNode} : (modifyNode (some n) f).run s =
    atNode s n fun r => ((), { s with node := Function.update s.node n (some (f r)) }) := by
  cases h : s.node n <;> simp [modifyNode, StateT.run_bind, run_load, atNode, h]

theorem run_rbChild : (rbChild d (some n)).run s = atNode s n fun r => (r.child d, s) := by
  cases h : s.node n <;> simp [rbChild, run_load, atNode, h]

theorem run_setRbChild : (setRbChild d (some n) q).run s =
    atNode s n fun r => ((), { s with node := Function.update s.node n (some (r.setChild d q)) }) :=
  run_modifyNode

theorem run_rbParent :
    (rbParent (some n)).run s = atNode s n fun r => (r.rbParentColor.parent, s) := by
  cases h : s.node n <;> simp [rbParent, run_load, atNode, h]

theorem run_rbIsRed :
    (rbIsRed (some n)).run s =
      atNode s n fun r => (decide (r.rbParentColor.color = .red), s) := by
  cases h : s.node n <;> simp [rbIsRed, rbColor, run_load, atNode, h]

theorem run_rbIsBlack :
    (rbIsBlack (some n)).run s =
      atNode s n fun r => (decide (r.rbParentColor.color = .black), s) := by
  cases h : s.node n <;> simp [rbIsBlack, rbColor, run_load, atNode, h]

theorem run_rbSetParentColor : (rbSetParentColor (some n) q c).run s = atNode s n fun r =>
    ((), { s with node := Function.update s.node n (some { r with rbParentColor := ⟨q, c⟩ }) }) :=
  run_modifyNode

theorem run_rbSetParent : (rbSetParent (some n) q).run s = atNode s n fun r =>
    ((), { s with
      node := Function.update s.node n
        (some { r with rbParentColor := ⟨q, r.rbParentColor.color⟩ }) }) :=
  run_modifyNode

theorem run_setRbParentColor : (setRbParentColor (some n) pc).run s = atNode s n fun r =>
    ((), { s with node := Function.update s.node n (some { r with rbParentColor := pc }) }) :=
  run_modifyNode

theorem run_rbSetBlack : (rbSetBlack (some n)).run s = atNode s n fun r =>
    ((), { s with
      node := Function.update s.node n
        (some { r with rbParentColor := ⟨r.rbParentColor.parent, .black⟩ }) }) :=
  run_modifyNode

end Access

/-! ## Relinking a subtree -/

section Relink

variable {s : RbMem D} {p q x : Ptr} {t : BinTree Color} {fs : Ctx Color} {old : ℕ}

/-- Whether the root is black, a missing tree counting as black. -/
def Black : BinTree Color → Prop
  | .nil => True
  | .node _ _ c _ => c = .black

@[simp] theorem black_nil : Black .nil := trivial

@[simp] theorem black_node {l r : BinTree Color} {n : ℕ} {c : Color} :
    Black (.node l n c r) ↔ c = .black := Iff.rfl

instance : DecidablePred Black
  | .nil => isTrue trivial
  | .node _ _ c _ => inferInstanceAs (Decidable (c = .black))

@[simp] theorem black_mk {d : Dir} {a b : BinTree Color} {n : ℕ} {c : Color} :
    Black (.mk d a n c b) ↔ c = .black := by cases d <;> rfl

theorem run_rbAdoptBlack (ht : rbLayout.TreeAt s.node p t) (hb : Black t) :
    (rbAdoptBlack t.root q).run s = .ok ((), { s with node := rbLayout.reparent t q s.node }) := by
  cases t with
  | nil => rfl
  | node l n c r =>
      obtain rfl : c = .black := hb
      simp [rbAdoptBlack, run_rbSetParentColor, atNode, ht.1, Layout.reparent, rbLayout]

theorem run_rbAdopt (ht : rbLayout.TreeAt s.node p t) :
    (rbAdopt t.root q).run s = .ok ((), { s with node := rbLayout.reparent t q s.node }) := by
  cases t with
  | nil => rfl
  | node l n c r =>
      simp [rbAdopt, run_rbSetParent, atNode, ht.1, Layout.reparent, rbLayout]

theorem run_rbSetParent_root (hne : t ≠ .nil) (ht : rbLayout.TreeAt s.node p t) :
    (rbSetParent t.root q).run s = .ok ((), { s with node := rbLayout.reparent t q s.node }) := by
  cases t with
  | nil => exact absurd rfl hne
  | node l n c r => exact run_rbAdopt ht

theorem run_rbSetParentColor_root (hne : t ≠ .nil) (ht : rbLayout.TreeAt s.node p t)
    (hb : Black t) : (rbSetParentColor t.root q .black).run s =
      .ok ((), { s with node := rbLayout.reparent t q s.node }) := by
  cases t with
  | nil => exact absurd rfl hne
  | node l n c r => exact run_rbAdoptBlack ht hb

theorem run_rbSomeRed (ht : rbLayout.TreeAt s.node p t) :
    (rbSomeRed t.root).run s = .ok (decide (¬ Black t), s) := by
  cases t with
  | nil => rfl
  | node l n c r => cases c <;> simp [rbSomeRed, run_rbIsRed, atNode, ht.1, rbLayout]

theorem run_rbNoneOrBlack (ht : rbLayout.TreeAt s.node p t) :
    (rbNoneOrBlack t.root).run s = .ok (decide (Black t), s) := by
  cases t with
  | nil => rfl
  | node l n c r => cases c <;> simp [rbNoneOrBlack, run_rbIsBlack, atNode, ht.1, rbLayout]

theorem run_rbChangeChild (hc : rbLayout.CtxAt s.node none s.rbNode (some old) fs) (ho : old ∉ fs) :
    (rbChangeChild (some old) x (fs.parent none)).run s = .ok ((), { s with
      node := rbLayout.link none fs x s.node, rbNode := fs.linkRoot x s.rbNode }) := by
  cases fs with
  | root => simp [rbChangeChild, setRbNode, Layout.link, linkRoot]
  | up d n v b fs =>
      obtain ⟨hn, -⟩ := hc
      have hb : b.root ≠ some old := fun h => ho (by simp [mem_of_root h])
      cases d <;>
        simp [rbChangeChild, StateT.run_bind, run_rbChild, run_setRbChild, atNode, hn, hb, linkRoot,
          Layout.link, Layout.cellOf, rbLayout, RbNode.child, RbNode.setChild]

end Relink

/-- The link that points to the hole. -/
def linkOf : Ctx Color → RbLink
  | .root => .root
  | .up d n _ _ _ => .child (some n) d

/-! ## The tree in memory, seen from a subtree -/

/-- Memory holds a tree, of which `t` is the subtree below the context `fs`. -/
structure Focus (s : RbMem D) (fs : Ctx Color) (t : BinTree Color) : Prop where
  tree : rbLayout.TreeAt s.node (fs.parent none) t
  ctx : rbLayout.CtxAt s.node none s.rbNode t.root fs
  distinct : (fs.plug t).Distinct

theorem focus_plug {s : RbMem D} {fs : Ctx Color} {t : BinTree Color} :
    Focus s .root (fs.plug t) ↔ Focus s fs t := by
  have key : rbLayout.TreeAt s.node none (fs.plug t) ∧ s.rbNode = (fs.plug t).root ↔
      rbLayout.TreeAt s.node (fs.parent none) t ∧ rbLayout.CtxAt s.node none s.rbNode t.root fs :=
    rbLayout.treeAt_plug
  constructor
  · rintro ⟨ht, hc, hd⟩
    obtain ⟨ht, hc⟩ := key.1 ⟨ht, hc⟩
    exact ⟨ht, hc, hd⟩
  · rintro ⟨ht, hc, hd⟩
    obtain ⟨ht, hc⟩ := key.2 ⟨ht, hc⟩
    exact ⟨ht, hc, hd⟩

theorem focus_up {s : RbMem D} {d : Dir} {n : ℕ} {c : Color} {sib t : BinTree Color}
    {fs : Ctx Color} : Focus s (.up d n c sib fs) t ↔ Focus s fs (.mk d t n c sib) := by
  rw [← focus_plug, ← @focus_plug _ _ fs, plug_up]

theorem Focus.run_read {s : RbMem D} {fs : Ctx Color} {t : BinTree Color} (h : Focus s fs t) :
    (linkOf fs).read.run s = .ok (t.root, s) := by
  cases fs with
  | root => simp [linkOf, RbLink.read, show s.rbNode = t.root from h.ctx]
  | up d n c sib fs =>
      have hn := h.ctx.1
      simp [linkOf, RbLink.read, run_rbChild, atNode, hn]

/-- Memory holds one tree. -/
theorem Focus.unique {s : RbMem D} {T T' : BinTree Color} (h : Focus s .root T)
    (h' : Focus s .root T') : T = T' := by
  refine rbLayout.treeAt_unique ?_ h.tree h'.tree ?_
  · intro v₁ v₂ a₁ a₂ b₁ b₂ p₁ p₂ heq
    simp only [rbLayout, RbNode.mk.injEq, ParentColor.mk.injEq] at heq
    exact ⟨heq.1.2, heq.2.2, heq.2.1⟩
  · exact (h.ctx : s.rbNode = T.root).symm.trans h'.ctx

/-- `s'` differs from `s` only in the root pointer and the nodes of `T`. -/
structure SameOutside (T : BinTree Color) (s s' : RbMem D) : Prop where
  data : s'.data = s.data
  node : ∀ m, m ∉ T → s'.node m = s.node m

theorem SameOutside.refl (T : BinTree Color) (s : RbMem D) : SameOutside T s s :=
  ⟨rfl, fun _ _ => rfl⟩

theorem SameOutside.trans {T T' : BinTree Color} {s₁ s₂ s₃ : RbMem D} (h₁ : SameOutside T s₁ s₂)
    (h₂ : SameOutside T' s₂ s₃) (hT : T'.addrs = T.addrs) : SameOutside T s₁ s₃ :=
  ⟨h₂.data.trans h₁.data, fun m hm =>
    (h₂.node m (by rwa [← mem_addrs, hT])).trans (h₁.node m hm)⟩

/-- The last act of every rotation: `p` takes the place of `g`, whose child on the side `d` it was,
    and `g` has already taken over `p`'s subtree `b`. -/
theorem run_rbRotateSetParents {d : Dir} {s : RbMem D} {a b u : BinTree Color} {p g : ℕ}
    {fs : Ctx Color} {c cp cg : Color} {z : Ptr}
    (hdis : (fs.plug (mk d (mk d a p cp b) g cg u)).Distinct)
    (hp : s.node p = some (rbCell d cp a.root (some g) z))
    (hg : s.node g = some (rbCell d cg b.root u.root (fs.parent none)))
    (ha : rbLayout.TreeAt s.node (some p) a) (hb : rbLayout.TreeAt s.node (some g) b)
    (hu : rbLayout.TreeAt s.node (some g) u)
    (hfs : rbLayout.CtxAt s.node none s.rbNode (some g) fs) :
    ∃ s', (rbRotateSetParents (some g) (some p) c).run s = .ok ((), s') ∧
      Focus s' fs (mk d a p cg (mk d b g c u)) ∧
      SameOutside (fs.plug (mk d (mk d a p cp b) g cg u)) s s' := by
  have hdis' : (fs.plug (mk d a p cg (mk d b g c u))).Distinct := by
    simp only [distinct_plug, distinct_mk, mem_mk] at hdis ⊢
    grind
  simp only [distinct_plug, distinct_mk, mem_mk] at hdis
  obtain ⟨hpg, hpa, hga, hpb, hgb, hpu, hgu, hpfs, hgfs⟩ : p ≠ g ∧ p ∉ a ∧ g ∉ a ∧ p ∉ b ∧ g ∉ b ∧
      p ∉ u ∧ g ∉ u ∧ p ∉ fs ∧ g ∉ fs := by grind
  obtain ⟨hafs, hbfs, hufs, hdfs⟩ : (∀ x ∈ a, x ∉ fs) ∧ (∀ x ∈ b, x ∉ fs) ∧ (∀ x ∈ u, x ∉ fs) ∧
      fs.Distinct := by grind
  simp only [rbRotateSetParents, StateT.run_bind, run_rbParent, run_setRbParentColor, run_load,
    run_rbSetParentColor, atNode, hp, hg, ok_bind, Function.update_of_ne hpg.symm,
    rbCell_parentColor, rbCell_setParentColor]
  rw [run_rbChangeChild (by simpa [hpfs, hgfs] using hfs) hgfs]
  refine ⟨_, rfl, ⟨?_, ?_, hdis'⟩, rfl, fun m hm => ?_⟩
  · simp [rbLayout.treeAt_link hafs, rbLayout.treeAt_link hbfs, rbLayout.treeAt_link hufs,
      rbLayout.link_of_not_mem hpfs, rbLayout.link_of_not_mem hgfs, hpg, hpa, hga, hpb, hgb, hpu,
      hgu, ha, hb, hu]
  · rw [root_mk]
    exact rbLayout.ctxAt_link hdfs (y := some g) (by simpa [hpfs, hgfs] using hfs)
  · simp only [mem_plug, mem_mk, not_or] at hm
    simp [rbLayout.link_of_not_mem hm.2, hm.1.1, hm.1.2.1.1]

end StructLib.Rbtree
