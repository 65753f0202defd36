import StructLib.Rbtree.Insert

set_option autoImplicit false

/-! # Erasure keeps a red-black tree

`__rb_erase_color` climbs from a place whose black height is one too small. `EraseInv` is its loop
invariant; a pass of the loop body finishes the tree or moves the place one level up
(`run_rbEraseBody`). `rb_erase_augmented` first unlinks the node, or its successor, and so leaves a
tree that is in order or meets the invariant (`returns_unlink`). As for insertion the callbacks are
any that keep an assertion; `rb_erase` is the case of the dummy ones (`returns_rbErase`). -/

namespace StructLib.Rbtree

open BinTree Ctx

variable {D : Type} {rotate : AugmentRotate D} {I : BinTree Color → (ℕ → D) → Prop}

/-! ## Rotations -/

/-- Case 4: the sibling `S` takes the place of `p`. Its outer child `N` turns black; the links that
    the code overwrites may be anything. -/
theorem run_rbEraseCase4 (hrot : RotateKeeps rotate I) {d : Dir} {s : RbMem D}
    {t l r₁ r₂ : BinTree Color} {p S N : ℕ}
    {fs : Ctx Color} {c cS cN : Color} {w x y z : Ptr}
    (hdis : (fs.plug (mk d t p c (mk d l S cS (mk d r₁ N cN r₂)))).Distinct)
    (hp : s.node p = some (rbCell d c t.root w (fs.parent none)))
    (hS : s.node S = some (rbCell d cS l.root (some N) z))
    (hN : s.node N = some (rbCell d cN r₁.root r₂.root y))
    (ht : rbLayout.TreeAt s.node (some p) t) (hl : rbLayout.TreeAt s.node x l)
    (h₁ : rbLayout.TreeAt s.node (some N) r₁) (h₂ : rbLayout.TreeAt s.node (some N) r₂)
    (hfs : rbLayout.CtxAt s.node none s.rbNode (some p) fs) :
    ∃ s', (rbEraseCase4 rotate d (some p) (some S) (some N)).run s = .ok ((), s') ∧
      Focus s' fs (mk d (mk d t p .black l) S c (mk d r₁ N .black r₂)) ∧
      Relinked I (fs.plug (mk d t p c (mk d l S cS (mk d r₁ N cN r₂))))
        (fs.plug (mk d (mk d t p .black l) S c (mk d r₁ N .black r₂))) s s' := by
  have hd := hdis
  simp only [distinct_plug, distinct_mk, mem_mk] at hd
  obtain ⟨hpS, hpN, hSN⟩ : p ≠ S ∧ p ≠ N ∧ S ≠ N := by grind
  obtain ⟨hpt, hSt, hNt, hpl, hSl, hNl⟩ : p ∉ t ∧ S ∉ t ∧ N ∉ t ∧ p ∉ l ∧ S ∉ l ∧ N ∉ l := by grind
  obtain ⟨hp₁, hS₁, hN₁, hp₂, hS₂, hN₂⟩ : p ∉ r₁ ∧ S ∉ r₁ ∧ N ∉ r₁ ∧ p ∉ r₂ ∧ S ∉ r₂ ∧ N ∉ r₂ := by
    grind
  obtain ⟨hpfs, hSfs, hNfs⟩ : p ∉ fs ∧ S ∉ fs ∧ N ∉ fs := by grind
  obtain ⟨hlt, hl₁, hl₂, hlfs, hdl⟩ : (∀ m ∈ l, m ∉ t) ∧ (∀ m ∈ l, m ∉ r₁) ∧ (∀ m ∈ l, m ∉ r₂) ∧
      (∀ m ∈ l, m ∉ fs) ∧ l.Distinct := by grind
  simp only [rbEraseCase4, StateT.run_bind, run_rbChild, run_setRbChild, run_rbSetParentColor,
    atNode, hp, hS, hN, ok_bind, rbCell_child, rbCell_setChild, rbCell_setChild_flip,
    rbCell_setParentColor, Function.update_of_ne hpS.symm, Function.update_of_ne hpN.symm,
    Function.update_of_ne hSN.symm]
  rw [run_rbAdopt (p := x) (by simpa [hpl, hSl, hNl] using hl), ok_bind]
  obtain ⟨s', hrun, hfocus, hsame⟩ := run_rbRotateSetParents (d := d.flip) (c := .black) (z := z)
    (a := mk d r₁ N .black r₂) (b := l) (u := t) (p := S) (g := p) (D := D)
      (s := ⟨s.rbNode, rbLayout.reparent l (some p) (Function.update (Function.update
      (Function.update s.node p (some (rbCell d c t.root l.root (fs.parent none)))) S
        (some (rbCell d cS (some p) (some N) z))) N
        (some (rbCell d .black r₁.root r₂.root (some S)))), s.data⟩)
    (show (fs.plug (mk d.flip (mk d.flip _ S cS l) p c t)).Distinct by
      simp only [mk_flip, distinct_plug, distinct_mk, mem_mk]
      exact hd)
    (by simp [rbLayout.reparent_of_not_mem hSl, hSN, Layout.cellOf_flip])
    (by simp [rbLayout.reparent_of_not_mem hpl, hpS, hpN, Layout.cellOf_flip])
    (by simpa [rbLayout.reparent_of_not_mem hNl, rbLayout.treeAt_reparent hl₁,
      rbLayout.treeAt_reparent hl₂, hp₁, hS₁, hN₁, hp₂, hS₂, hN₂] using ⟨h₁, h₂⟩)
    (rbLayout.treeAt_reparent_self hdl (by simpa [hpl, hSl, hNl] using hl))
    (by simpa [rbLayout.treeAt_reparent hlt, hpt, hSt, hNt] using ht)
    (by simpa [rbLayout.ctxAt_reparent hlfs, hpfs, hSfs, hNfs] using hfs)
  obtain ⟨s'', hrun', hfocus', hnode, hdata⟩ := run_augmentRotate hrot cS c hfocus
  simp only [mk_flip] at hfocus' hdata
  refine ⟨s'', by rw [hrun, ok_bind, hrun'], hfocus', fun m hm => ?_, fun hI => hdata ?_⟩
  swap
  · rw [hsame.data]
    exact hrot.recolor (shape_plug_congr (by simp)) hI
  have hm' := hm
  simp only [mem_plug, mem_mk, not_or] at hm'
  rw [hnode, hsame.node m (by simp [mem_plug, hm'])]
  simp [rbLayout.reparent_of_not_mem hm'.1.2.2.2.1, hm']

/-- Case 3 followed by case 4: the sibling's inner child `N` is red. -/
theorem run_rbEraseCase34 (hrot : RotateKeeps rotate I) {d : Dir} {s : RbMem D}
    {t l₁ l₂ r : BinTree Color} {p S N : ℕ}
    {fs : Ctx Color} {c : Color} (hb₂ : Black l₂)
    (h : Focus s (.up d p c (mk d (mk d l₁ N .red l₂) S .black r) fs) t) :
    ∃ s₁ s', (rbEraseCase3 rotate d (some p) (some S) (some N)).run s =
        .ok ((some S, some N), s₁) ∧
      (rbEraseCase4 rotate d (some p) (some N) (some S)).run s₁ = .ok ((), s') ∧
      Focus s' fs (mk d (mk d t p .black l₁) N c (mk d l₂ S .black r)) ∧
      Relinked I (fs.plug (mk d t p c (mk d (mk d l₁ N .red l₂) S .black r)))
        (fs.plug (mk d (mk d t p .black l₁) N c (mk d l₂ S .black r))) s s' := by
  have hlive := h.live
  obtain ⟨ht, ⟨hp, hsib, hfs⟩, hdis⟩ := h
  simp only [Layout.treeAt_mk, root_mk] at hsib hp
  obtain ⟨hS, ⟨hN, h₁, h₂⟩, hr⟩ := hsib
  have hdis' : (fs.plug (mk d t p c (mk d l₁ N .red (mk d l₂ S .black r)))).Distinct := by
    simp only [plug_up, distinct_plug, distinct_mk, mem_mk] at hdis ⊢
    grind
  have hd := hdis'
  simp only [distinct_plug, distinct_mk, mem_mk] at hd
  obtain ⟨hpS, hpN, hSN⟩ : p ≠ S ∧ p ≠ N ∧ S ≠ N := by grind
  obtain ⟨hpt, hSt, hNt, hpr, hSr, hNr⟩ : p ∉ t ∧ S ∉ t ∧ N ∉ t ∧ p ∉ r ∧ S ∉ r ∧ N ∉ r := by grind
  obtain ⟨hp₁, hS₁, hN₁, hp₂, hS₂, hN₂⟩ : p ∉ l₁ ∧ S ∉ l₁ ∧ N ∉ l₁ ∧ p ∉ l₂ ∧ S ∉ l₂ ∧ N ∉ l₂ := by
    grind
  obtain ⟨hpfs, hSfs, hNfs⟩ : p ∉ fs ∧ S ∉ fs ∧ N ∉ fs := by grind
  obtain ⟨h₂t, h₂₁, h₂r, h₂fs, hd₂⟩ : (∀ m ∈ l₂, m ∉ t) ∧ (∀ m ∈ l₂, m ∉ l₁) ∧ (∀ m ∈ l₂, m ∉ r) ∧
      (∀ m ∈ l₂, m ∉ fs) ∧ l₂.Distinct := by grind
  simp only [rbEraseCase3, StateT.run_bind, run_rbChild, run_setRbChild, atNode, hp, hS, hN, ok_bind,
    rbCell_child_flip, rbCell_setChild, rbCell_setChild_flip, Function.update_of_ne hSN.symm,
    Function.update_of_ne hpS, Function.update_of_ne hpN]
  rw [run_rbAdoptBlack (p := some N) (by simpa [hp₂, hS₂, hN₂] using h₂) hb₂]
  simp only [ok_bind]
  -- the nodes once `N` is above `S`
  obtain ⟨h, hh⟩ : ∃ h, h = rbLayout.reparent l₂ (some S) (Function.update (Function.update
      (Function.update s.node S (some (rbCell d .black l₂.root r.root (some p)))) N
        (some (rbCell d .red l₁.root (some S) (some S)))) p
        (some (rbCell d c t.root (some N) (fs.parent none)))) := ⟨_, rfl⟩
  have hhS : h S = some (rbCell d .black l₂.root r.root (some p)) := by
    simp [hh, rbLayout.reparent_of_not_mem hS₂, hpS.symm, hSN]
  rw [← hh]
  have hlive : ∀ m ∈ fs.plug (mk d t p c (mk d (mk d l₁ N .red l₂) S .black r)), h m ≠ none := by
    intro m hm
    rw [hh]
    exact rbLayout.reparent_ne_none (update_ne_none (update_ne_none (update_ne_none (hlive m hm))))
  obtain ⟨data, hrun₁, hdata⟩ := hrot.rotate (d := d) (a := l₁) (p := N) (b := l₂) (u := r)
    .red .black .red .black (.up d.flip p c t fs) (s := ⟨s.rbNode, h, s.data⟩) hhS (by simp)
      (by simp) (by simpa [mk_flip] using hdis)
    (by simpa [Live, mk_flip] using hlive)
  simp only [mk_flip, plug_up] at hdata
  obtain ⟨s', hrun, hfocus, hsame⟩ := run_rbEraseCase4 hrot (d := d) (D := D) (w := some N)
    (x := some N) (y := some p) (z := some S) (t := t) (l := l₁) (p := p) (S := N) (N := S) (c := c)
    (s := ⟨s.rbNode, h, data⟩) hdis'
    (by simp [hh, rbLayout.reparent_of_not_mem hp₂])
    (by simp [hh, rbLayout.reparent_of_not_mem hN₂, hpN.symm])
    hhS
    (by simpa [hh, rbLayout.treeAt_reparent h₂t, hpt, hSt, hNt] using ht)
    (by simpa [hh, rbLayout.treeAt_reparent h₂₁, hp₁, hS₁, hN₁] using h₁)
    (by rw [hh]; exact rbLayout.treeAt_reparent_self hd₂ (by simpa [hp₂, hS₂, hN₂] using h₂))
    (by simpa [hh, rbLayout.treeAt_reparent h₂r, hpr, hSr, hNr] using hr)
    (by simpa [hh, rbLayout.ctxAt_reparent h₂fs, hpfs, hSfs, hNfs] using hfs)
  refine ⟨_, s', by rw [hrun₁, ok_bind]; rfl, hrun, hfocus, fun m hm => ?_,
    fun hI => hsame.data (hdata hI)⟩
  simp only [mem_plug, mem_mk, not_or] at hm
  rw [hsame.node m (by simp [mem_plug, hm])]
  simp [hh, rbLayout.reparent_of_not_mem hm.1.2.2.2.1.2.2, hm]

/-- Case 1: a red sibling `S` takes the place of `p`, and `p` turns red. -/
theorem run_rbEraseCase1 (hrot : RotateKeeps rotate I) {d : Dir} {s : RbMem D}
    {t l r : BinTree Color} {p S : ℕ} {fs : Ctx Color}
    (hb : Black l) (hl : l ≠ .nil)
    (h : Focus s (.up d p .black (mk d l S .red r) fs) t) :
    ∃ s', (rbEraseCase1 rotate d (some p) (some S)).run s = .ok (l.root, s') ∧
      Focus s' (.up d p .red l (.up d S .black r fs)) t ∧
      Relinked I (fs.plug (mk d t p .black (mk d l S .red r)))
        (fs.plug (mk d (mk d t p .red l) S .black r)) s s' := by
  obtain ⟨ht, ⟨hp, hsib, hfs⟩, hdis⟩ := h
  simp only [Layout.treeAt_mk, root_mk] at hsib hp
  obtain ⟨hS, hlt, hr⟩ := hsib
  have hd := hdis
  simp only [plug_up, distinct_plug, distinct_mk, mem_mk] at hd
  obtain ⟨hpS, hpt, hSt, hpl, hSl, hpr, hSr, hpfs, hSfs⟩ : p ≠ S ∧ p ∉ t ∧ S ∉ t ∧ p ∉ l ∧ S ∉ l ∧
      p ∉ r ∧ S ∉ r ∧ p ∉ fs ∧ S ∉ fs := by grind
  obtain ⟨hltt, hlr, hlfs, hdl⟩ : (∀ m ∈ l, m ∉ t) ∧ (∀ m ∈ l, m ∉ r) ∧ (∀ m ∈ l, m ∉ fs) ∧
      l.Distinct := by grind
  simp only [rbEraseCase1, StateT.run_bind, run_rbChild, run_setRbChild, atNode, hp, hS, ok_bind,
    rbCell_child, rbCell_setChild, rbCell_setChild_flip, Function.update_of_ne hpS.symm]
  rw [run_rbSetParentColor_root (p := some S) hl (by simpa [hpl, hSl] using hlt) hb, ok_bind]
  obtain ⟨s', hrun, hfocus, hsame⟩ := run_rbRotateSetParents (d := d.flip) (c := .red) (z := some p)
    (a := r) (b := l) (u := t) (p := S) (g := p) (D := D)
      (s := ⟨s.rbNode, rbLayout.reparent l (some p) (Function.update
      (Function.update s.node p (some (rbCell d .black t.root l.root (fs.parent none)))) S
        (some (rbCell d .red (some p) r.root (some p)))), s.data⟩)
    (show (fs.plug (mk d.flip (mk d.flip r S .red l) p .black t)).Distinct by
      simpa only [mk_flip, plug_up] using hdis)
    (by simp [rbLayout.reparent_of_not_mem hSl, Layout.cellOf_flip])
    (by simp [rbLayout.reparent_of_not_mem hpl, hpS, Layout.cellOf_flip])
    (by simpa [rbLayout.treeAt_reparent hlr, hpr, hSr] using hr)
    (rbLayout.treeAt_reparent_self hdl (by simpa [hpl, hSl] using hlt))
    (by simpa [rbLayout.treeAt_reparent hltt, hpt, hSt] using ht)
    (by simpa [rbLayout.ctxAt_reparent hlfs, hpfs, hSfs] using hfs)
  obtain ⟨s'', hrun', hfocus', hnode, hdata⟩ := run_augmentRotate hrot .red .black hfocus
  simp only [mk_flip] at hfocus' hdata hsame
  refine ⟨s'', ?_, focus_up.2 (focus_up.2 hfocus'), fun m hm => ?_, fun hI => hdata ?_⟩
  · rw [hrun, ok_bind, hrun', ok_bind]
    rfl
  swap
  · rwa [hsame.data]
  have hm' := hm
  simp only [mem_plug, mem_mk, not_or] at hm'
  rw [hnode, hsame.node m hm]
  simp [rbLayout.reparent_of_not_mem hm'.1.2.2.2.1, hm']

/-! ## The loop -/

/-- The loop invariant: below `t`, whose root is black and not the root of the whole, every path has
    one black node too few; nothing else is wrong. -/
structure EraseInv (s : RbMem D) (fs : Ctx Color) (t : BinTree Color) (k : ℕ) : Prop where
  focus : Focus s fs t
  black : Black t
  rb : RB t k
  ctx : RBCtx fs (k + 1)
  below : fs ≠ .root

variable {s : RbMem D} {fs : Ctx Color} {t : BinTree Color} {k : ℕ}

/-- A node of the colour of the hole's parent, with subtrees of the height the hole wants, in the
    place of that parent. -/
theorem redBlack_refill {d : Dir} {p n : ℕ} {c : Color} {sib u v : BinTree Color}
    (h : RBCtx (.up d p c sib fs) k) (hu : Black u) (hv : Black v) (huk : RB u k) (hvk : RB v k) :
    RedBlack (fs.plug (mk d u n c v)) := by
  cases c with
  | red => exact redBlack_plug h.2.2.2 (rb_red.2 ⟨hu, hv, huk, hvk⟩) (.inr h.2.2.1)
  | black => exact redBlack_plug h.2 (rb_black_succ.2 ⟨huk, hvk⟩) (.inl (by simp))

/-- Case 2: the sibling turns red, and the missing black node moves above the parent, which may
    supply it. -/
theorem run_rbEraseCase2 (hrot : RotateKeeps rotate I) {d : Dir} {p S : ℕ} {c : Color}
    {l r : BinTree Color} (hl : Black l) (hr : Black r)
    (h : EraseInv s (.up d p c (mk d l S .black r) fs) t k) :
    (∃ s' T', (rbEraseCase2 (some p) (some S)).run s = .ok (none, s') ∧
      Restored I (fs.plug (mk d t p c (mk d l S .black r))) s s' T') ∨
    (c = .black ∧ ∃ s', (rbEraseCase2 (some p) (some S)).run s =
        .ok (some (some p, fs.parent none), s') ∧
      EraseInv s' fs (mk d t p .black (mk d l S .red r)) (k + 1) ∧
      Relinked I (fs.plug (mk d t p c (mk d l S .black r)))
        (fs.plug (mk d t p .black (mk d l S .red r))) s s') := by
  obtain ⟨⟨ht, ⟨hp, hsib, hfs⟩, hdis⟩, hb, hrb, hctx, -⟩ := h
  simp only [Layout.treeAt_mk, root_mk, parent_up] at hsib hp ht
  obtain ⟨hS, hlt, hrt⟩ := hsib
  rw [plug_up] at hdis
  have hd := hdis
  simp only [distinct_plug, distinct_mk, mem_mk] at hd
  obtain ⟨hpS, hpt, hSt, hpl, hSl, hpr, hSr, hpfs, hSfs⟩ : p ≠ S ∧ p ∉ t ∧ S ∉ t ∧ p ∉ l ∧ S ∉ l ∧
      p ∉ r ∧ S ∉ r ∧ p ∉ fs ∧ S ∉ fs := by grind
  obtain ⟨hlk, hrk⟩ : RB l k ∧ RB r k := by
    cases c with
    | red => simpa using hctx.2.1
    | black => simpa using hctx.1
  have hsibk : RB (mk d l S .red r) k := rb_red.2 ⟨hl, hr, hlk, hrk⟩
  have htop : RB (mk d t p .black (mk d l S .red r)) (k + 1) := rb_black_succ.2 ⟨hrb, hsibk⟩
  have haddrs : (mk d t p .black (mk d l S .red r)).addrs =
      (mk d t p c (mk d l S .black r)).addrs := by cases d <;> simp [mk]
  have hdis' : (fs.plug (mk d t p .black (mk d l S .red r))).Distinct := by
    rwa [BinTree.Distinct, addrs_plug_congr haddrs]
  have hshape : (fs.plug (mk d t p c (mk d l S .black r))).shape =
      (fs.plug (mk d t p .black (mk d l S .red r))).shape := shape_plug_congr (by simp)
  simp only [rbEraseCase2, StateT.run_bind, run_rbSetParentColor, run_rbIsRed, atNode, hp, hS,
    ok_bind, Function.update_of_ne hpS, rbCell_setParentColor, rbCell_parentColor]
  cases c with
  | red =>
      left
      simp only [decide_true, if_true, StateT.run_bind, run_rbSetBlack, atNode, hp, ok_bind,
        Function.update_of_ne hpS, rbCell_setParentColor, rbCell_parentColor, StateT.run_pure,
        pure_eq_ok]
      refine ⟨_, fs.plug (mk d t p .black (mk d l S .red r)), rfl, ⟨focus_plug.2 ⟨?_, ?_, hdis'⟩,
        addrs_plug_congr haddrs, ?_, fun m hm => ?_, hrot.recolor hshape⟩⟩
      · simp [hpS.symm, hpt, hSt, hpl, hSl, hpr, hSr, ht, hlt, hrt]
      · simpa [hpfs, hSfs] using hfs
      · exact redBlack_plug hctx.2.2.2 htop (.inl (by simp))
      · simp only [mem_plug, mem_mk, not_or] at hm
        simp [hm]
  | black =>
      have hfocus : Focus (⟨s.rbNode, Function.update s.node S
          (some (rbCell d .red l.root r.root (some p))), s.data⟩ : RbMem D) fs
          (mk d t p .black (mk d l S .red r)) := by
        refine ⟨?_, ?_, hdis'⟩
        · simp [hpS, hSt, hSl, hSr, ht, hlt, hrt, hp]
        · simpa [hSfs] using hfs
      have hsame : Relinked I (fs.plug (mk d t p .black (mk d l S .black r)))
          (fs.plug (mk d t p .black (mk d l S .red r))) s (⟨s.rbNode, Function.update s.node S
            (some (rbCell d .red l.root r.root (some p))), s.data⟩ : RbMem D) := by
        refine ⟨fun m hm => ?_, hrot.recolor hshape⟩
        simp only [mem_plug, mem_mk, not_or] at hm
        simp [hm]
      simp only [reduceCtorEq, decide_false, Bool.false_eq_true, if_false, StateT.run_bind,
        run_rbParent, atNode, hp, ok_bind, Function.update_of_ne hpS, rbCell_parentColor,
        StateT.run_pure, pure_eq_ok]
      cases fs with
      | root =>
          exact .inl ⟨_, _, rfl, hfocus, haddrs, ⟨by simp, _, htop⟩, hsame⟩
      | up d' n' c' sib' fs' =>
          exact .inr ⟨trivial, _, rfl, ⟨hfocus, by simp, htop, hctx.2, by simp⟩, hsame⟩

/-- Cases 2 to 4, below a parent of either colour. -/
theorem run_rbEraseBlackSibling (hrot : RotateKeeps rotate I) {d : Dir} {p S : ℕ} {c : Color}
    {l r : BinTree Color}
    (h : EraseInv s (.up d p c (mk d l S .black r) fs) t k) :
    (∃ s' T', (rbEraseBlackSibling rotate d (some p) (some S)).run s = .ok (none, s') ∧
      Restored I (fs.plug (mk d t p c (mk d l S .black r))) s s' T') ∨
    (c = .black ∧ ∃ s', (rbEraseBlackSibling rotate d (some p) (some S)).run s =
        .ok (some (some p, fs.parent none), s') ∧
      EraseInv s' fs (mk d t p .black (mk d l S .red r)) (k + 1) ∧
      Relinked I (fs.plug (mk d t p c (mk d l S .black r)))
        (fs.plug (mk d t p .black (mk d l S .red r))) s s') := by
  obtain ⟨hp, hsib, hfs⟩ := h.focus.ctx
  simp only [Layout.treeAt_mk, root_mk] at hsib hp
  obtain ⟨hS, hlt, hrt⟩ := hsib
  obtain ⟨hlk, hrk⟩ : RB l k ∧ RB r k := by
    cases c with
    | red => simpa using h.ctx.2.1
    | black => simpa using h.ctx.1
  simp only [rbEraseBlackSibling, StateT.run_bind, run_rbChild, atNode, hS, ok_bind,
    rbCell_child_flip, run_rbNoneOrBlack hrt]
  by_cases hr : Black r
  · simp only [hr, decide_true, if_true, StateT.run_bind, run_rbChild, atNode, hS, ok_bind,
      rbCell_child, run_rbNoneOrBlack hlt]
    by_cases hl : Black l
    · simpa only [hl, decide_true, if_true] using run_rbEraseCase2 hrot hl hr h
    · left
      obtain ⟨l₁, N, l₂, rfl, h₁, h₂, h₁k, h₂k⟩ := hlk.exists_red d hl
      obtain ⟨s₁, s', hrun₁, hrun, hfocus, hsame⟩ := run_rbEraseCase34 hrot h₂ h.focus
      refine ⟨s', _, ?_, focus_plug.2 hfocus, addrs_plug_congr ?_, ?_, hsame⟩
      · simp [StateT.run_bind, hrun₁, hrun]
      · cases d <;> simp [mk]
      · exact redBlack_refill h.ctx (by simp) (by simp) (rb_black_succ.2 ⟨h.rb, h₁k⟩)
          (rb_black_succ.2 ⟨h₂k, hrk⟩)
  · left
    obtain ⟨r₁, N, r₂, rfl, h₁, h₂, h₁k, h₂k⟩ := hrk.exists_red d hr
    simp only [Layout.treeAt_mk, root_mk] at hrt hS
    obtain ⟨s', hrun, hfocus, hsame⟩ := run_rbEraseCase4 hrot (by simpa using h.focus.distinct) hp hS
      hrt.1 h.focus.tree hlt hrt.2.1 hrt.2.2 hfs
    refine ⟨s', _, ?_, focus_plug.2 hfocus, addrs_plug_congr ?_, ?_, hsame⟩
    · simp [hrun]
    · cases d <;> simp [mk]
    · exact redBlack_refill h.ctx (by simp) (by simp) (rb_black_succ.2 ⟨h.rb, hlk⟩)
        (rb_black_succ.2 ⟨h₁k, h₂k⟩)

/-- One pass of the loop finishes, or leaves the invariant one level up. -/
theorem run_rbEraseBody (hrot : RotateKeeps rotate I) (h : EraseInv s fs t k) :
    (∃ s' T', (rbEraseBody rotate t.root (fs.parent none)).run s = .ok (none, s') ∧
      Restored I (fs.plug t) s s' T') ∨
    (∃ s' fs' t' k', (rbEraseBody rotate t.root (fs.parent none)).run s =
        .ok (some (t'.root, fs'.parent none), s') ∧
      EraseInv s' fs' t' k' ∧ fs'.length < fs.length ∧
      (fs'.plug t').addrs = (fs.plug t).addrs ∧ Relinked I (fs.plug t) (fs'.plug t') s s') := by
  cases fs with
  | root => exact absurd rfl h.below
  | up d p c sib fs =>
      obtain ⟨l, S, cS, r, rfl⟩ : ∃ l S cS r, sib = mk d l S cS r := by
        cases c with
        | red => exact h.ctx.2.1.exists_mk d
        | black => exact h.ctx.1.exists_mk d
      have hside : (rbEraseBody rotate t.root (some p)).run s =
          (rbEraseSide rotate d (some p) (some S)).run s := by
        have hp := h.focus.ctx.1
        have htS : t.root ≠ some S := by
          intro ht
          have hd := h.focus.distinct
          have := mem_of_root ht
          simp only [plug_up, distinct_plug, distinct_mk, mem_mk] at hd
          grind
        cases d <;>
          simp [rbEraseBody, StateT.run_bind, run_rbChild, atNode, hp, RbNode.child, Layout.cellOf,
            rbLayout, htS]
      have hS : (rbIsRed (some S)).run s = .ok (decide (cS = .red), s) := by
        have hS := (rbLayout.treeAt_mk.1 h.focus.ctx.2.1).1
        simp [run_rbIsRed, atNode, hS]
      rw [parent_up, hside]
      simp only [rbEraseSide, StateT.run_bind, hS, ok_bind]
      cases cS with
      | black =>
          simp only [reduceCtorEq, decide_false, Bool.false_eq_true, if_false, pure_bind]
          rcases run_rbEraseBlackSibling hrot h with hdone | ⟨rfl, s', hrun, hinv, hsame⟩
          · exact .inl hdone
          · refine .inr ⟨s', fs, _, k + 1, by simpa using hrun, hinv, by simp, ?_, hsame⟩
            exact addrs_plug_congr (by cases d <;> simp [mk])
      | red =>
          -- case 1: afterwards the parent is red, so that the rest of the pass finishes
          left
          obtain rfl : c = .black := by
            cases c with
            | red => exact absurd h.ctx.1 (by simp)
            | black => rfl
          obtain ⟨hl, hr, hlk, hrk⟩ := rb_red.1 h.ctx.1
          obtain ⟨l₁, N, cN, l₂, rfl⟩ := hlk.exists_mk d
          obtain rfl : cN = .black := by simpa using hl
          obtain ⟨s₁, hrun₁, hfocus₁, hsame₁⟩ := run_rbEraseCase1 hrot hl (by cases d <;> simp [mk])
            h.focus
          have hinv₁ : EraseInv s₁ (.up d p .red (mk d l₁ N .black l₂) (.up d S .black r fs)) t k :=
            ⟨hfocus₁, h.black, h.rb, ⟨hl, hlk, rfl, hrk, h.ctx.2⟩, by simp⟩
          rcases run_rbEraseBlackSibling hrot hinv₁ with ⟨s', T', hrun, hT'⟩ | ⟨habs, -⟩
          · have haddrs : (fs.plug (mk d (mk d t p .red (mk d l₁ N .black l₂)) S .black r)).addrs =
                (fs.plug (mk d t p .black (mk d (mk d l₁ N .black l₂) S .red r))).addrs :=
              addrs_plug_congr (by cases d <;> simp [mk])
            refine ⟨s', T', ?_, hT'.focus, hT'.addrs.trans haddrs, hT'.redBlack,
              hsame₁.trans hT'.relinked haddrs⟩
            simp only [decide_true, if_true, StateT.run_bind, hrun₁, ok_bind, root_mk, hrun]
          · exact absurd habs (by simp)

/-- The loop ends, and the tree is red-black again. -/
theorem returns_rbEraseColorLoop (hrot : RotateKeeps rotate I) (h : EraseInv s fs t k) :
    ∃ s' T',
      Returns (fun fuel => rbEraseColorLoop rotate fuel t.root (fs.parent none)) s () s' ∧
      Restored I (fs.plug t) s s' T' := by
  induction hlen : fs.length using Nat.strongRecOn generalizing s fs t k with
  | ind len ih =>
      rcases run_rbEraseBody hrot h with
        ⟨s', T', hrun, hT'⟩ | ⟨s₁, fs', t', k', hrun, hinv, hlt, haddrs, hsame⟩
      · exact ⟨s', T', .of_succ (.bind_run hrun (.of_run rfl)), hT'⟩
      · obtain ⟨s', T', hret, hT'⟩ := ih fs'.length (hlen ▸ hlt) hinv rfl
        exact ⟨s', T', .of_succ (.bind_run hrun hret), hT'.focus, hT'.addrs.trans haddrs,
          hT'.redBlack, hsame.trans hT'.relinked haddrs⟩

/-! ## Unlinking a node with at most one child -/

/-- Make the root black. -/
def blacken : BinTree Color → BinTree Color
  | .nil => .nil
  | .node l n _ r => .node l n .black r

@[simp] theorem blacken_nil : blacken .nil = .nil := rfl

@[simp] theorem blacken_mk {d : Dir} {a b : BinTree Color} {n : ℕ} {c : Color} :
    blacken (mk d a n c b) = mk d a n .black b := by cases d <;> rfl

@[simp] theorem shape_blacken (t : BinTree Color) : (blacken t).shape = t.shape := by cases t <;> rfl

@[simp] theorem addrs_blacken (t : BinTree Color) : (blacken t).addrs = t.addrs := by
  cases t <;> simp [blacken]

@[simp] theorem mem_blacken {x : ℕ} {t : BinTree Color} : x ∈ blacken t ↔ x ∈ t := by
  rw [← mem_addrs, addrs_blacken, mem_addrs]

@[simp] theorem distinct_blacken {t : BinTree Color} : (blacken t).Distinct ↔ t.Distinct := by
  rw [BinTree.Distinct, addrs_blacken, BinTree.Distinct]

/-- What `rb_erase_augmented` hands to `__rb_erase_color`: the parent of the place of the node
    taken out, if a black node is missing there. -/
def rebalanceAt (b : BinTree Color) (c : Color) (parent : Ptr) : Ptr :=
  match b with
  | .nil => if c = .black then parent else none
  | .node .. => none

/-- The rebalancing that follows the unlinking of a node of colour `c` with the one subtree `b`,
    whose root has been painted black. -/
theorem returns_rbEraseColor (hrot : RotateKeeps rotate I) {d : Dir} {n : ℕ} {c : Color}
    {b : BinTree Color} (h : Focus s fs (blacken b)) (hrb : RedBlack (fs.plug (mk d .nil n c b))) :
    ∃ s' T', Returns (fun fuel => if (rebalanceAt b c (fs.parent none)).isSome then
        rbEraseColor rotate fuel (rebalanceAt b c (fs.parent none)) else pure ()) s () s' ∧
      Restored I (fs.plug (blacken b)) s s' T' := by
  obtain ⟨k, hk, hfs, htop⟩ := hrb.of_plug
  cases b with
  | node l m cm r =>
      -- the child is red and becomes the missing black node
      rw [← mk.eq_1] at hk htop h ⊢
      simp only [blacken_mk] at h ⊢
      have hc : c = .black ∧ k = 1 ∧ cm = .red ∧ RB l 0 ∧ RB r 0 := by
        cases c <;> cases cm <;> simp only [rb_red, rb_black, rb_nil, black_mk] at hk <;> grind
      obtain ⟨rfl, rfl, rfl, hl, hr⟩ := hc
      refine ⟨s, _, .of_run rfl, focus_plug.2 h, rfl, ?_, .refl _ _ _⟩
      exact redBlack_plug hfs (rb_black_succ.2 ⟨hl, hr⟩) (.inl (by simp))
  | nil =>
      simp only [blacken_nil, rebalanceAt] at h ⊢
      cases c with
      | red =>
          obtain rfl : k = 0 := by simpa using hk
          exact ⟨s, _, .of_run rfl, focus_plug.2 h, rfl, redBlack_plug hfs rfl (.inl trivial),
            .refl _ _ _⟩
      | black =>
          obtain rfl : k = 1 := by simpa using hk
          by_cases hroot : fs = .root
          · subst hroot
            exact ⟨s, _, .of_run rfl, h, rfl, ⟨trivial, 0, rfl⟩, .refl _ _ _⟩
          · have hinv : EraseInv s fs .nil 0 := ⟨h, trivial, rfl, hfs, hroot⟩
            obtain ⟨s', T', hret, hT'⟩ := returns_rbEraseColorLoop hrot hinv
            refine ⟨s', T', ?_, hT'⟩
            cases fs with
            | root => exact absurd rfl hroot
            | up d' n' c' sib' fs' => simpa [rbEraseColor] using hret

/-- A red-black node with an only child: the node is black and the child a red leaf. -/
theorem RedBlack.only_child {d e : Dir} {n m : ℕ} {c cm : Color} {a b : BinTree Color}
    (h : RedBlack (fs.plug (mk d .nil n c (mk e a m cm b)))) : c = .black ∧ cm = .red := by
  obtain ⟨k, hk, -, -⟩ := h.of_plug
  cases c <;> cases cm <;> simp only [rb_red, rb_black, rb_nil, black_mk] at hk <;> grind

/-- No left child: the right subtree takes the place of the node. -/
theorem run_rbEraseNoLeft {n : ℕ} {c : Color} {r : BinTree Color}
    (h : Focus s fs (.node .nil n c r))
    (hrb : RedBlack (fs.plug (mk .left .nil n c r))) :
    ∃ s', (rbEraseNoLeft (some n) r.root).run s =
        .ok ((fs.parent none, rebalanceAt r c (fs.parent none)), s') ∧
      Focus s' fs (blacken r) ∧ SameOutside (fs.plug (blacken r)) s s' := by
  obtain ⟨⟨hn, -, hr⟩, hfs, hdis⟩ := h
  simp only [root_node] at hfs
  have hd := hdis
  simp only [distinct_plug, distinct_node, mem_node] at hd
  obtain ⟨hnr, hnfs, hrfs, hdfs⟩ : n ∉ r ∧ n ∉ fs ∧ (∀ x ∈ r, x ∉ fs) ∧ fs.Distinct := by grind
  have hdis' : (fs.plug (blacken r)).Distinct := by
    simp only [distinct_plug, distinct_blacken, mem_blacken]
    grind
  simp only [rbEraseNoLeft, StateT.run_bind, run_load, atNode, hn, ok_bind]
  rw [show (rbLayout.cell c nil.root r.root (fs.parent none)).rbParentColor =
    ⟨fs.parent none, c⟩ from rfl, run_rbChangeChild hfs hnfs, ok_bind]
  have hctx := rbLayout.ctxAt_link (x := r.root) hdfs hfs
  cases r with
  | nil =>
      refine ⟨_, rfl, ⟨trivial, hctx, hdis'⟩, rfl, fun m hm => ?_⟩
      simp only [mem_plug, not_or] at hm
      exact rbLayout.link_of_not_mem hm.2
  | node l m cm r =>
      obtain ⟨rfl, rfl⟩ := RedBlack.only_child (e := .left) hrb
      obtain ⟨hmfs, hmn⟩ : m ∉ fs ∧ m ≠ n := by
        simp only [mem_node] at hrfs hnr
        exact ⟨hrfs m (.inl rfl), fun h => hnr (.inl h.symm)⟩
      obtain ⟨hm, hl, hr⟩ := hr
      simp only [mem_node, distinct_node] at hd hrfs
      have hlfs : ∀ x ∈ l, x ∉ fs := by grind
      have hrfs' : ∀ x ∈ r, x ∉ fs := by grind
      obtain ⟨hml, hmr⟩ : m ∉ l ∧ m ∉ r := by grind
      simp only [root_node, Option.isSome_some, if_true, StateT.run_bind, run_setRbParentColor,
        atNode, rbLayout.link_of_not_mem hmfs, hm, ok_bind, StateT.run_pure, pure_eq_ok]
      refine ⟨_, rfl, ⟨?_, ?_, hdis'⟩, rfl, fun x hx => ?_⟩
      · simp [blacken, rbLayout.treeAt_link hlfs, rbLayout.treeAt_link hrfs', hml, hmr, hl, hr]
        rfl
      · simpa [blacken, hmfs] using hctx
      · simp only [mem_plug, blacken, mem_node, not_or] at hx
        simp [rbLayout.link_of_not_mem hx.2, hx]

/-- A left child only: it takes the place of the node. -/
theorem run_rbEraseNoRight {n : ℕ} {c : Color} {l : BinTree Color} (hl : l ≠ .nil)
    (h : Focus s fs (.node l n c .nil)) (hrb : RedBlack (fs.plug (mk .right .nil n c l))) :
    ∃ s', (rbEraseNoRight (some n) l.root).run s =
        .ok ((fs.parent none, rebalanceAt l c (fs.parent none)), s') ∧
      Focus s' fs (blacken l) ∧ SameOutside (fs.plug (blacken l)) s s' := by
  obtain ⟨⟨hn, ht, -⟩, hfs, hdis⟩ := h
  cases l with
  | nil => exact absurd rfl hl
  | node l m cm r =>
      obtain ⟨rfl, rfl⟩ := RedBlack.only_child (e := .left) hrb
      obtain ⟨hm, hl, hr⟩ := ht
      simp only [root_node] at hfs hn
      simp only [distinct_plug, distinct_node, mem_node] at hdis
      obtain ⟨hnm, hnfs, hmfs, hml, hmr⟩ : n ≠ m ∧ n ∉ fs ∧ m ∉ fs ∧ m ∉ l ∧ m ∉ r := by grind
      have hlfs : ∀ x ∈ l, x ∉ fs := by grind
      have hrfs : ∀ x ∈ r, x ∉ fs := by grind
      simp only [rbEraseNoRight, StateT.run_bind, run_load, run_setRbParentColor, atNode, hn, hm,
        root_node, ok_bind]
      rw [show (rbLayout.cell .black (some m) nil.root (fs.parent none)).rbParentColor =
        ⟨fs.parent none, .black⟩ from rfl, run_rbChangeChild
          (by simpa [hmfs] using hfs) hnfs]
      refine ⟨_, rfl, ⟨?_, ?_, ?_⟩, rfl, fun x hx => ?_⟩
      · simp [blacken, rbLayout.treeAt_link hlfs, rbLayout.treeAt_link hrfs,
          rbLayout.link_of_not_mem hmfs, hml, hmr, hl, hr]
        rfl
      · exact rbLayout.ctxAt_link hdis.2.1 (y := some n) (by simpa [hmfs] using hfs)
      · simp only [blacken, distinct_plug, distinct_node, mem_node]
        grind
      · simp only [mem_plug, blacken, mem_node, not_or] at hx
        simp [rbLayout.link_of_not_mem hx.2, hx]

/-! ## Unlinking the successor -/

section Callbacks

variable {augment : RbAugmentCallbacks D} {I : List Ptr → BinTree Color → (ℕ → D) → Prop}

/-- The walk to the leftmost node of a tree, starting below `q`. -/
theorem returns_rbEraseDescend {p q : Ptr} (ht : t ≠ .nil) (h : rbLayout.TreeAt s.node p t) :
    ∃ (gs : Ctx Color) (m : ℕ) (c : Color) (r : BinTree Color),
      t = gs.plug (.node .nil m c r) ∧ gs.before = [] ∧
      Returns (fun fuel => rbEraseDescend fuel q t.root) s (gs.parent q, some m) s := by
  induction t generalizing p q with
  | nil => exact absurd rfl ht
  | node l n c r ih _ =>
      obtain ⟨hn, hl, -⟩ := h
      have hchild : (rbChild .left (some n)).run s = .ok (l.root, s) := by
        simp [run_rbChild, atNode, hn, RbNode.child, rbLayout]
      cases l with
      | nil =>
          exact ⟨.root, n, c, r, rfl, rfl, .of_succ (.bind_run hchild (.of_run rfl))⟩
      | node l₁ m cm l₂ =>
          obtain ⟨gs, m', c', r', heq, hbefore, hret⟩ := ih (q := some n) (by simp) hl
          refine ⟨gs.append (.up .left n c r .root), m', c', r', ?_, ?_, ?_⟩
          · rw [plug_append, ← heq]
            rfl
          · rw [before_append, hbefore]
            rfl
          · rw [parent_append]
            exact .of_succ (.bind_run hchild hret)

/-- What the search for the successor of `n` leaves behind, when `r` is the right subtree of `n`:
    the successor `m` is out of the tree `gs`, except that its own subtree still names it as the
    parent, and `gs` hangs below `m` at the pointer `mid`. -/
structure SuccessorOut (s : RbMem D) (r : BinTree Color) (gs : Ctx Color) (m : ℕ) (c : Color)
    (r₂ : BinTree Color) (mid : Ptr) (s₁ : RbMem D) : Prop where
  tree : r = gs.plug (.node .nil m c r₂)
  before : gs.before = []
  node : ∃ z, s₁.node m = some (rbLayout.cell c none mid z)
  sub : rbLayout.TreeAt s₁.node (some m) r₂
  ctx : rbLayout.CtxAt s₁.node (some m) mid r₂.root gs
  rbNode : s₁.rbNode = s.rbNode
  same : SameOutside r s s₁

theorem SuccessorOut.withData {r r₂ : BinTree Color} {gs : Ctx Color} {m : ℕ} {c : Color} {mid : Ptr}
    {s₁ : RbMem D} (h : SuccessorOut s r gs m c r₂ mid s₁) (data : ℕ → D) :
    SuccessorOut { s with data := data } r gs m c r₂ mid { s₁ with data := data } :=
  ⟨h.tree, h.before, h.node, h.sub, h.ctx, h.rbNode, rfl, h.same.node⟩

/-- Nothing has been freed. -/
theorem SuccessorOut.live {T r r₂ : BinTree Color} {gs : Ctx Color} {m : ℕ} {c : Color} {mid : Ptr}
    {s₁ : RbMem D} (h : SuccessorOut s r gs m c r₂ mid s₁) (hlive : Live s T) : Live s₁ T := by
  intro x hx
  by_cases hxr : x ∈ r
  · rw [h.tree] at hxr
    simp only [mem_plug, mem_node, not_mem_nil, false_or] at hxr
    rcases hxr with (rfl | hx₂) | hxg
    · obtain ⟨z, hz⟩ := h.node
      simp [hz]
    · exact rbLayout.treeAt_ne_none h.sub hx₂
    · exact rbLayout.ctxAt_ne_none h.ctx hxg
  · rw [h.same.node x hxr]
    exact hlive x hx

/-- The relinking of case 3, for a successor `m` below the right child `k`. -/
theorem run_rbEraseUnlinkSuccessor {n m k : ℕ} {c : Color} {gs : Ctx Color} {r₂ : BinTree Color}
    (hgs : gs ≠ .root) (hbefore : gs.before = []) (hk : (gs.plug (.node .nil m c r₂)).root = some k)
    (h : rbLayout.TreeAt s.node (some n) (gs.plug (.node .nil m c r₂)))
    (hd : (gs.plug (.node .nil m c r₂)).Distinct) :
    ∃ s₁, (rbEraseUnlinkSuccessor (gs.parent (some m)) (some m) (some k)).run s =
        .ok (r₂.root, s₁) ∧
      SuccessorOut s (gs.plug (.node .nil m c r₂)) gs m c r₂ (some k) s₁ := by
  obtain ⟨ht, hctx⟩ := rbLayout.treeAt_plug.1 ⟨h, hk.symm⟩
  obtain ⟨hm, -, h₂⟩ := ht
  cases gs with
  | root => exact absurd rfl hgs
  | up e p v sib gs =>
      obtain rfl : e = .left := by
        cases e
        · rfl
        · simp [Ctx.before] at hbefore
      obtain ⟨hdm, hdg, hdmg⟩ := distinct_plug.1 hd
      have hmg : m ∉ Ctx.up .left p v sib gs := hdmg m (by simp)
      have hpm : p ≠ m := by
        rintro rfl
        simp at hmg
      have hp : s.node p = some (rbCell .left v (some m) sib.root (gs.parent (some n))) := hctx.1
      replace hm : s.node m = some (rbCell .right c r₂.root none (some p)) := hm
      -- the hole of `gs` now holds the successor's subtree, and `gs` hangs below the successor
      have hlink := rbLayout.ctxAt_link (x := r₂.root) hdg hctx
      have hlink' := (rbLayout.ctxAt_update (n := m)
        (c := some (rbCell .right c (some k) none (some p))) hmg).2 hlink
      obtain ⟨x, rec, hx, hxg, hrec, hctx'⟩ := rbLayout.ctxAt_reparentRoot (q := some m)
        (f := fun r => { r with rbParentColor := ⟨some m, r.rbParentColor.color⟩ })
        (fun _ _ _ _ => rfl) hdg (by simp) hlink'
      obtain rfl : k = x := by simpa [linkRoot] using hx
      simp only [Layout.link, linkRoot] at hrec hctx'
      obtain ⟨hkm, hk₂⟩ : k ≠ m ∧ k ∉ r₂ :=
        ⟨fun h => hmg (h ▸ hxg), fun h => hdmg k (by simp [h]) hxg⟩
      have hp₂ : p ∉ r₂ := fun h => hdmg p (by simp [h]) (by simp)
      have hm₂ : m ∉ r₂ := (distinct_node.1 hdm).2.1
      simp only [rbEraseUnlinkSuccessor, StateT.run_bind, parent_up, run_rbChild, run_setRbChild,
        atNode, hm, hp, ok_bind, Function.update_of_ne hpm.symm, rbCell_child, rbCell_setChild,
        run_rbSetParent, hrec]
      refine ⟨_, rfl, rfl, hbefore, ⟨some p, ?_⟩, ?_, hctx', rfl, rfl, fun y hy => ?_⟩
      · simp [hkm.symm]
        rfl
      · simpa [hk₂, hm₂, hp₂] using h₂
      · have hyk : y ≠ k := by
          rintro rfl
          exact hy (mem_plug.2 (.inr hxg))
        simp only [mem_plug, mem_node, mem_up, not_or] at hy
        simp [hyk, hy]

/-- The successor is the right child, or the leftmost node below it. The callbacks leave the
    assertion true of the tree in which it has taken the place of the node, except at itself. -/
theorem returns_rbEraseSuccessor (ha : AugmentKeeps augment I) {n : ℕ} {c : Color}
    {l r : BinTree Color} (hr : r ≠ .nil) (h : Focus s fs (.node l n c r)) :
    ∃ gs m cs r₂ mid s₁ data,
      Returns (fun fuel => rbEraseSuccessor augment fuel (some n) r.root) s
        (gs.parent (some m), some m, r₂.root) { s₁ with data := data } ∧
      SuccessorOut s r gs m cs r₂ mid s₁ ∧
      (I [] (fs.plug (.node l n c r)) s.data →
        I [some m] (fs.plug (mk .right (gs.plug r₂) m c l)) data) := by
  have hdis := h.distinct
  have hlive := h.live
  obtain ⟨-, -, hrt⟩ := h.tree
  have hd : r.Distinct := (distinct_node.1 (distinct_plug.1 hdis).1).2.2.2.1
  cases r with
  | nil => exact absurd rfl hr
  | node a k ck b =>
      have hk := hrt.1
      have hleft : (rbChild .left (some k)).run s = .ok (a.root, s) := by
        simp [run_rbChild, atNode, hk, RbNode.child, rbLayout]
      have hright : (rbChild .right (some k)).run s = .ok (b.root, s) := by
        simp [run_rbChild, atNode, hk, RbNode.child, rbLayout]
      cases a with
      | nil =>
          -- case 2: the right child is the successor
          obtain ⟨data, hcopy, hI⟩ := ha.copy fs .root s hdis hlive
          refine ⟨.root, k, ck, b, b.root, s, data, .bind_run hleft (.bind_run hright
            (.bind_run hcopy (.of_run rfl))), ⟨rfl, rfl, ⟨_, hk⟩, hrt.2.2, rfl, rfl, .refl _ _⟩,
            fun h => ha.mono ?_ (hI h)⟩
          simp
      | node a₁ x cx a₂ =>
          obtain ⟨gs', m, cs, r₂, hl, hbefore', hret⟩ := returns_rbEraseDescend (q := some k)
            (by simp) hrt.2.1
          obtain ⟨gs, hgs⟩ : ∃ gs, gs = gs'.append (.up .left k ck b .root) := ⟨_, rfl⟩
          have htree : node (node a₁ x cx a₂) k ck b = gs.plug (.node .nil m cs r₂) := by
            rw [hgs, plug_append, ← hl]
            rfl
          have hbefore : gs.before = [] := by
            rw [hgs, before_append, hbefore']
            rfl
          have hparent : gs'.parent (some k) = gs.parent (some m) := by
            rw [hgs, parent_append, parent_up]
          have hne : gs ≠ .root := by
            rw [hgs]
            cases gs' <;> simp
          rw [hparent] at hret
          rw [htree] at hrt hd hdis hlive ⊢
          obtain ⟨s₁, hrun, hout⟩ := run_rbEraseUnlinkSuccessor (k := k) hne hbefore
            (by rw [← htree, root_node]) hrt hd
          replace hlive := hout.live hlive
          obtain ⟨data₁, hcopy, hI₁⟩ := ha.copy (l := l) (n := n) (c := c) fs gs s₁ hdis hlive
          obtain ⟨data, hprop, hI⟩ := ha.propagate (.up .right m c l fs)
            (s := { s₁ with data := data₁ }) hout.ctx (by
              simp only [plug_up, distinct_plug, distinct_node, distinct_mk, mem_node, mem_mk,
                mem_plug] at hdis ⊢
              grind) (fun y hy => hlive y (by
              simp only [plug_up, mem_plug, mem_node, mem_mk] at hy ⊢
              grind))
          refine ⟨gs, m, cs, r₂, some k, s₁, data, ?_, hout, fun h => hI (hI₁ ?_)⟩
          · rw [← htree]
            exact .bind_run hleft (.bind hret (.bind_run hrun (.bind_run hcopy
              (hprop.bind (.of_run rfl)))))
          · rw [← hout.same.data] at h
            exact h

/-- The successor `m` takes the place of the node `n`. -/
theorem run_rbEraseTakePlace {n m : ℕ} {c cs : Color} {l r r₂ : BinTree Color} {gs : Ctx Color}
    {mid : Ptr} {s₁ : RbMem D} (hl : l ≠ .nil) (h : Focus s fs (.node l n c r))
    (hout : SuccessorOut s r gs m cs r₂ mid s₁) (hrb : RedBlack (fs.plug (.node l n c r))) :
    ∃ s', (rbEraseTakePlace (some n) (gs.parent (some m)) (some m) r₂.root).run s₁ =
        .ok ((some m, rebalanceAt r₂ cs (gs.parent (some m))), s') ∧
      Focus s' (gs.append (.up .right m c l fs)) (blacken r₂) ∧
      SameOutside ((gs.append (.up .right m c l fs)).plug (blacken r₂)) s s' := by
  obtain ⟨⟨hn, hlt, -⟩, hfs, hd⟩ := h
  obtain ⟨rfl, hbefore, ⟨z, hm⟩, hsub, hctx, hrt₁, hdata, hsame⟩ := hout
  simp only [distinct_plug, distinct_node, mem_plug, mem_node] at hd
  obtain ⟨hnm, hnl, hml, hnfs, hmfs, hmgs, hngs⟩ : n ≠ m ∧ n ∉ l ∧ m ∉ l ∧ n ∉ fs ∧ m ∉ fs ∧
      m ∉ gs ∧ n ∉ gs := by grind
  obtain ⟨hm₂, hn₂, hdl, hdfs⟩ : m ∉ r₂ ∧ n ∉ r₂ ∧ l.Distinct ∧ fs.Distinct := by grind
  obtain ⟨hlfs, hlgs, hl₂, hgsfs, h₂fs, h₂gs⟩ : (∀ x ∈ l, x ∉ fs) ∧ (∀ x ∈ l, x ∉ gs) ∧
      (∀ x ∈ l, x ∉ r₂) ∧ (∀ x ∈ gs, x ∉ fs) ∧ (∀ x ∈ r₂, x ∉ fs) ∧ (∀ x ∈ r₂, x ∉ gs) := by grind
  have hdis' : ((gs.append (.up .right m c l fs)).plug (blacken r₂)).Distinct := by
    simp only [plug_append, plug_up, distinct_plug, distinct_mk, mem_plug, mem_mk,
      distinct_blacken, mem_blacken]
    grind
  -- outside the right subtree memory is as before
  have hn₁ : s₁.node n = some (rbCell .left c l.root (gs.plug (.node .nil m cs r₂)).root
      (fs.parent none)) :=
    (hsame n (by simp [mem_plug, hngs, hnm, hn₂])).trans hn
  have hlt₁ : rbLayout.TreeAt s₁.node (some n) l := rbLayout.treeAt_congr hlt fun x hx =>
    hsame x (by simp only [mem_plug, mem_node, not_mem_nil]; grind)
  have hfs₁ : rbLayout.CtxAt s₁.node none s₁.rbNode (some n) fs := by
    rw [hrt₁]
    exact rbLayout.ctxAt_congr hfs fun x hx =>
      hsame x (by simp only [mem_plug, mem_node, not_mem_nil]; grind)
  replace hm : s₁.node m = some (rbCell .left cs none mid z) := hm
  simp only [rbEraseTakePlace, StateT.run_bind, ok_bind, run_rbChild, run_setRbChild, atNode, hn₁, hm,
    rbCell_child, rbCell_setChild]
  rw [run_rbSetParent_root (p := some n) hl (by simpa [hml] using hlt₁)]
  simp only [ok_bind, run_load, atNode, rbLayout.reparent_of_not_mem hnl, rbCell_parentColor,
    Function.update_of_ne hnm, hn₁]
  rw [run_rbChangeChild (by simpa [hmfs, rbLayout.ctxAt_reparent hlfs] using hfs₁) hnfs]
  simp only [ok_bind]
  -- the memory once the successor has the node's links and colour
  obtain ⟨h₃, hh₃⟩ : ∃ h₃, h₃ = Function.update (rbLayout.link none fs (some m) (rbLayout.reparent l
      (some m) (Function.update s₁.node m (some (rbCell .left cs l.root mid z))))) m
      (some (rbCell .left c l.root mid (fs.parent none))) := ⟨_, rfl⟩
  have hl₃ : rbLayout.TreeAt h₃ (some m) l := by
    rw [hh₃, rbLayout.treeAt_update hml, rbLayout.treeAt_link hlfs]
    exact rbLayout.treeAt_reparent_self hdl (by simpa [hml] using hlt₁)
  have hfs₃ : rbLayout.CtxAt h₃ none (fs.linkRoot (some m) s₁.rbNode) (some m) fs := by
    rw [hh₃, rbLayout.ctxAt_update hmfs]
    exact rbLayout.ctxAt_link hdfs (y := some n)
      (by simpa [hmfs, rbLayout.ctxAt_reparent hlfs] using hfs₁)
  have hout₃ : ∀ x, x ≠ m → x ∉ l → x ∉ fs → h₃ x = s₁.node x := by
    intro x hxm hxl hxfs
    simp [hh₃, hxm, rbLayout.link_of_not_mem hxfs, rbLayout.reparent_of_not_mem hxl]
  have hgs₃ : rbLayout.CtxAt h₃ (some m) mid r₂.root gs :=
    rbLayout.ctxAt_congr hctx fun x hx => hout₃ x (by grind) (fun hxl => hlgs x hxl hx) (hgsfs x hx)
  have h₂₃ : rbLayout.TreeAt h₃ (some m) r₂ :=
    rbLayout.treeAt_congr hsub fun x hx =>
      hout₃ x (by grind) (fun hxl => hl₂ x hxl hx) (h₂fs x hx)
  have hm₃ : h₃ m = some (rbCell .right c mid l.root (fs.parent none)) := by
    rw [hh₃, Function.update_self]
    rfl
  have hsame₃ : ∀ x, x ∉ (gs.append (.up .right m c l fs)).plug (blacken r₂) →
      h₃ x = s.node x := by
    intro x hx
    simp only [plug_append, plug_up, mem_plug, mem_mk, mem_blacken, not_or] at hx
    rw [hout₃ x hx.1.1 hx.1.2.2 hx.2]
    exact hsame x (by simp [mem_plug, hx])
  cases r₂ with
  | nil =>
      refine ⟨⟨fs.linkRoot (some m) s₁.rbNode, h₃, s₁.data⟩, ?_, ⟨trivial, ?_, hdis'⟩, hdata,
        hsame₃⟩
      · simp [StateT.run_bind, run_load, run_setRbParentColor, atNode,
          rbLayout.link_of_not_mem hmfs, rbLayout.reparent_of_not_mem hml, hh₃, rebalanceAt]
      · exact rbLayout.ctxAt_append.2 ⟨mid, hgs₃, hm₃, hl₃, hfs₃⟩
  | node a k ck b =>
      have hrb' : RedBlack ((gs.append (.up .right n c l fs)).plug
          (mk .left .nil m cs (mk .left a k ck b))) := by
        rw [plug_append, plug_up]
        exact hrb
      obtain ⟨rfl, rfl⟩ := hrb'.only_child
      obtain ⟨hk₃, ha₃, hb₃⟩ := h₂₃
      obtain ⟨hkgs, hkfs, hkl, hkm⟩ : k ∉ gs ∧ k ∉ fs ∧ k ∉ l ∧ k ≠ m := by
        simp only [mem_node] at h₂gs h₂fs hl₂ hm₂
        grind
      obtain ⟨hka, hkb⟩ : k ∉ a ∧ k ∉ b := by
        simp only [distinct_node] at hd
        grind
      refine ⟨⟨fs.linkRoot (some m) s₁.rbNode, Function.update h₃ k
        (some (rbCell .left .black a.root b.root (gs.parent (some m)))), s₁.data⟩, ?_,
        ⟨?_, ?_, hdis'⟩, hdata, fun x hx => ?_⟩
      · simp only [root_node, Option.isSome_some, if_true, StateT.run_bind, run_setRbParentColor,
          atNode, rbLayout.link_of_not_mem hmfs, rbLayout.reparent_of_not_mem hml,
          Function.update_self, ok_bind, rbCell_setParentColor]
        rw [← hh₃]
        simp only [run_rbSetParentColor, atNode, hk₃, ok_bind]
        rfl
      · refine ⟨by simp [Layout.cellOf], ?_, ?_⟩
        · exact (rbLayout.treeAt_update hka).2 ha₃
        · exact (rbLayout.treeAt_update hkb).2 hb₃
      · refine rbLayout.ctxAt_append.2 ⟨mid, (rbLayout.ctxAt_update hkgs).2 hgs₃, ?_,
          (rbLayout.treeAt_update hkl).2 hl₃, (rbLayout.ctxAt_update hkfs).2 hfs₃⟩
        simpa [Function.update_of_ne hkm.symm] using hm₃
      · refine (Function.update_of_ne ?_ _ _).trans (hsame₃ x hx)
        rintro rfl
        exact hx (mem_plug.2 (.inl (by simp [blacken])))

/-- Two children: the successor `m` takes the place of the node, and its subtree that of the
    successor. -/
theorem returns_rbEraseTwo (ha : AugmentKeeps augment I) {n : ℕ} {c : Color} {l r : BinTree Color}
    (hl : l ≠ .nil) (hr : r ≠ .nil) (h : Focus s fs (.node l n c r))
    (hrb : RedBlack (fs.plug (.node l n c r))) :
    ∃ (gs : Ctx Color) (m : ℕ) (cs : Color) (r₂ : BinTree Color) (s' : RbMem D),
      r = gs.plug (.node .nil m cs r₂) ∧ gs.before = [] ∧
      Returns (fun fuel => rbEraseTwo augment fuel (some n) r.root) s
        (some m, rebalanceAt r₂ cs (gs.parent (some m))) s' ∧
      Focus s' (gs.append (.up .right m c l fs)) (blacken r₂) ∧
      (∀ x, x ∉ (gs.append (.up .right m c l fs)).plug (blacken r₂) → s'.node x = s.node x) ∧
      (I [] (fs.plug (.node l n c r)) s.data →
        I [some m] ((gs.append (.up .right m c l fs)).plug (blacken r₂)) s'.data) := by
  obtain ⟨gs, m, cs, r₂, mid, s₁, data, hret, hout, hI⟩ := returns_rbEraseSuccessor ha hr h
  obtain ⟨s', hrun, hfocus, hsame⟩ := run_rbEraseTakePlace hl (h.withData data)
    (hout.withData data) hrb
  refine ⟨gs, m, cs, r₂, s', hout.tree, hout.before, hret.bind (.of_run hrun), hfocus, hsame.node,
    fun h => ?_⟩
  rw [hsame.data, plug_append, plug_up]
  exact ha.recolor (shape_plug_congr (by simp [shape_plug_congr (shape_blacken r₂)])) (hI h)

/-! ## `rb_erase_augmented` -/

/-- The state in which `rb_erase_augmented` has unlinked the node `n` of `T`: a node of colour `c`
    with the only subtree `b` is taken from the hole of `gs`. The assertion may fail at `tmp`. -/
structure Unlinked (I : List Ptr → BinTree Color → (ℕ → D) → Prop) (T : BinTree Color) (n : ℕ)
    (s : RbMem D) (gs : Ctx Color) (b : BinTree Color) (c : Color) (tmp : Ptr) (s' : RbMem D) :
    Prop where
  focus : Focus s' gs (blacken b)
  redBlack : ∃ d m, RedBlack (gs.plug (mk d .nil m c b))
  addrs : (gs.plug b).addrs = T.addrs.erase n
  node : ∀ m, m ∉ gs.plug (blacken b) → s'.node m = s.node m
  stale : ∃ (hs : Ctx Color) (t : BinTree Color), gs.plug (blacken b) = hs.plug t ∧ tmp = hs.parent none
  data : I [] T s.data → I [tmp] (gs.plug (blacken b)) s'.data

/-- The three ways of unlinking a node. -/
theorem returns_unlink (ha : AugmentKeeps augment I) {n : ℕ} {c : Color} {l r : BinTree Color}
    (h : Focus s fs (.node l n c r)) (hrb : RedBlack (fs.plug (.node l n c r))) :
    ∃ gs b cs tmp s₁, Returns (fun fuel =>
        if l.root.isNone then rbEraseNoLeft (some n) r.root
        else if r.root.isNone then rbEraseNoRight (some n) l.root
        else rbEraseTwo augment fuel (some n) r.root) s
          (tmp, rebalanceAt b cs (gs.parent none)) s₁ ∧
      Unlinked I (fs.plug (.node l n c r)) n s gs b cs tmp s₁ := by
  have herase := addrs_plug_erase h.distinct
  cases l with
  | nil =>
      obtain ⟨s₁, hrun, hf, hsame⟩ := run_rbEraseNoLeft h hrb
      refine ⟨fs, r, c, _, s₁, .of_run hrun, hf, ⟨.left, n, hrb⟩, ?_, hsame.node,
        ⟨fs, blacken r, rfl, rfl⟩, fun hI => ?_⟩
      · rw [herase, addrs_plug, addrs_nil, List.append_nil]
      · rw [hsame.data]
        exact ha.recolor (shape_plug_congr (by simp)) (ha.unlink (d := .left) h.distinct hI)
  | node l₁ x cx l₂ =>
      cases r with
      | nil =>
          obtain ⟨s₁, hrun, hf, hsame⟩ := run_rbEraseNoRight (by simp) h hrb
          refine ⟨fs, _, c, _, s₁, .of_run hrun, hf, ⟨.right, n, hrb⟩, ?_, hsame.node,
            ⟨fs, _, rfl, rfl⟩, fun hI => ?_⟩
          · rw [herase, addrs_plug, addrs_nil, List.append_nil]
          · rw [hsame.data]
            exact ha.recolor (shape_plug_congr (by simp)) (ha.unlink (d := .right) h.distinct hI)
      | node r₁ y cy r₃ =>
          obtain ⟨gs, m, cs, r₂, s₁, hr, hbefore, hret, hf, hnode, hI⟩ :=
            returns_rbEraseTwo ha (by simp) (by simp) h hrb
          rw [hr] at hrb herase hI ⊢
          refine ⟨gs.append (.up .right m c (.node l₁ x cx l₂) fs), r₂, cs, some m, s₁, ?_, hf,
            ⟨.left, m, ?_⟩, ?_, hnode, ⟨.up .right m c (.node l₁ x cx l₂) fs, gs.plug (blacken r₂),
              by simp, rfl⟩, hI⟩
          · rw [← hr, parent_append]
            exact hret
          · exact RedBlack.relabel m (n := n) (by rw [plug_append]; exact hrb)
          · rw [herase]
            simp [addrs_plug, hbefore, mk]

/-- The last propagation, from the lowest node that needs it up to the root. -/
theorem Unlinked.returns_propagate (ha : AugmentKeeps augment I) {T b : BinTree Color} {n : ℕ}
    {gs : Ctx Color} {c : Color} {tmp : Ptr} {s₁ : RbMem D} (h : Unlinked I T n s gs b c tmp s₁) :
    ∃ data, Returns (fun fuel => augment.propagate fuel tmp none) s₁ () { s₁ with data := data } ∧
      (I [] T s.data → I [] (gs.plug (blacken b)) data) := by
  obtain ⟨hs, t, heq, rfl⟩ := h.stale
  have hfocus : Focus s₁ hs t := by
    rw [← focus_plug, ← heq, focus_plug]
    exact h.focus
  obtain ⟨data, hret, hI⟩ := ha.propagate .root hfocus.ctx hfocus.distinct
    hfocus.live
  refine ⟨data, hret, fun hT => ?_⟩
  rw [heq]
  refine ha.mono (X := [none]) (by simp) (hI (ha.mono (X := [hs.parent none]) ?_ ?_))
  · intro n hn
    exact List.mem_append_left [none] hn
  · rw [plug_root, ← heq]
    exact h.data hT

/-- **`rb_erase_augmented`** takes the node out of the tree and leaves a red-black tree of the
    others in their order, about which the callbacks' assertion still holds. No other node is
    written to. -/
theorem returns_rbEraseAugmented (ha : AugmentKeeps augment I) {T : BinTree Color} {n : ℕ}
    (h : Focus s .root T) (hrb : RedBlack T) (hn : n ∈ T) :
    ∃ s' T', Returns (fun fuel => rbEraseAugmented augment fuel (some n)) s () s' ∧
      Focus s' .root T' ∧ RedBlack T' ∧ T'.addrs = T.addrs.erase n ∧
      (∀ m, m ∉ T' → s'.node m = s.node m) ∧ (I [] T s.data → I [] T' s'.data) := by
  obtain ⟨fs, l, c, r, rfl⟩ := exists_plug hn
  have hfocus := focus_plug.1 h
  have hnode := hfocus.tree.1
  obtain ⟨gs, b, cs, tmp, s₁, hret, hun⟩ := returns_unlink ha hfocus hrb
  obtain ⟨d, m, hrb'⟩ := hun.redBlack
  obtain ⟨data, hprop, hI⟩ := hun.returns_propagate ha
  obtain ⟨s', T', hret', hT'⟩ := returns_rbEraseColor ha.rotate (hun.focus.withData data) hrb'
  have haddrs : (gs.plug (blacken b)).addrs = (fs.plug (node l n c r)).addrs.erase n := by
    rw [addrs_plug_congr (addrs_blacken b), hun.addrs]
  refine ⟨s', T', ?_, hT'.focus, hT'.redBlack, hT'.addrs.trans haddrs, fun x hx => ?_,
    fun h => hT'.relinked.data (hI h)⟩
  · have hright : (rbChild .right (some n)).run s = .ok (r.root, s) := by
      simp [run_rbChild, atNode, hnode, RbNode.child, rbLayout]
    have hleft : (rbChild .left (some n)).run s = .ok (l.root, s) := by
      simp [run_rbChild, atNode, hnode, RbNode.child, rbLayout]
    refine .bind_run hright (.bind_run hleft ?_)
    refine Returns.congr (fun fuel => ?_) (hret.bind (g := fun fuel (x : Ptr × Ptr) => do
      augment.propagate fuel x.1 none
      if x.2.isSome then rbEraseColor augment.rotate fuel x.2 else pure ()) (hprop.bind hret'))
    cases l <;> cases r <;> rfl
  · rw [← mem_addrs, hT'.addrs, mem_addrs] at hx
    rw [hT'.relinked.node x hx]
    exact hun.node x hx

end Callbacks

/-- **`rb_erase`** takes the node out of the tree and leaves a red-black tree of the others in their
    order. Only these others are written to. -/
theorem returns_rbErase {T : BinTree Color} {n : ℕ} (h : Focus s .root T) (hrb : RedBlack T)
    (hn : n ∈ T) :
    ∃ s' T', Returns (fun fuel => rbErase fuel (some n)) s () s' ∧ Focus s' .root T' ∧
      RedBlack T' ∧ T'.addrs = T.addrs.erase n ∧ SameOutside T' s s' := by
  obtain ⟨s', T', hret, hfocus, hrb', haddrs, hnode, hdata⟩ :=
    returns_rbEraseAugmented (dummyKeeps fun data => data = s.data) h hrb hn
  exact ⟨s', T', hret, hfocus, hrb', haddrs, hdata rfl, hnode⟩

/-- **Erasing a node** of a red-black tree, any of them, ends without an undefined step and leaves a
    red-black tree of the others in their order. -/
theorem erase_redBlack {T : BinTree Color} {n : ℕ} (h : Focus s .root T) (hrb : RbConditions T)
    (hn : n ∈ T) :
    ∃ s' T', Returns (fun fuel => rbErase fuel (some n)) s () s' ∧ Focus s' .root T' ∧
      RbConditions T' ∧ T'.addrs = T.addrs.erase n := by
  obtain ⟨s', T', hret, hfocus, hrb', haddrs, -⟩ := returns_rbErase h (redBlack_iff.2 hrb) hn
  exact ⟨s', T', hret, hfocus, redBlack_iff.1 hrb', haddrs⟩

/-- A black node between two black ones: erasing a leaf makes the others change colour. -/
theorem erase_redBlack_leaf : ∃ (s s' : RbMem Unit) (T' : BinTree Color), s.rbNode = some 2 ∧
    Returns (fun fuel => rbErase fuel (some 1)) s () s' ∧ Focus s' .root T' ∧ RbConditions T' ∧
      T'.addrs = [2, 3] := by
  obtain ⟨s', T', h⟩ := erase_redBlack (D := Unit) (n := 1)
    (T := .node (.node .nil 1 .black .nil) 2 .black (.node .nil 3 .black .nil))
    (s := ⟨some 2, fun m => if m = 2 then some ⟨⟨none, .black⟩, some 3, some 1⟩
      else some ⟨⟨some 2, .black⟩, none, none⟩, fun _ => ()⟩)
    ⟨⟨rfl, ⟨rfl, trivial, trivial⟩, rfl, trivial, trivial⟩, rfl, by simp⟩
    (redBlack_iff.1 ⟨rfl, 2, 1, rfl, ⟨0, rfl, rfl, rfl⟩, 0, rfl, rfl, rfl⟩) (by simp)
  exact ⟨_, s', T', rfl, h⟩

end StructLib.Rbtree
