import StructLib.Rbtree.Callbacks

set_option autoImplicit false

/-! # Insertion keeps a red-black tree

`__rb_insert` climbs from a red node whose parent may be red too. `InsertInv` is its loop invariant:
everything else about the tree is in order. One pass of the loop body either finishes the tree or
moves the red node two levels up (`run_rbInsertBody`), so the loop ends within as many passes as the
node has ancestors (`returns_rbInsertLoop`). All of it holds with any rotate callback that keeps an
assertion; `rb_insert_color` is the case of the dummy one (`returns_rbInsertColor`). -/

namespace StructLib.Rbtree

open BinTree Ctx

variable {D : Type} {rotate : AugmentRotate D} {I : BinTree Color → (ℕ → D) → Prop}

/-! ## Rotations -/

theorem addrs_rotate {d : Dir} {a b u : BinTree Color} {p g : ℕ} {c₁ c₂ c₃ c₄ : Color} :
    (mk d a p c₁ (mk d b g c₂ u)).addrs = (mk d (mk d a p c₃ b) g c₄ u).addrs := by
  cases d <;> simp [mk]

theorem addrs_plug_congr {fs : Ctx Color} {t t' : BinTree Color} (h : t.addrs = t'.addrs) :
    (fs.plug t).addrs = (fs.plug t').addrs := by
  rw [addrs_plug, addrs_plug, h]

theorem run_rbInsertCase3 (hrot : RotateKeeps rotate I) {d : Dir} {s : RbMem D}
    {a b u : BinTree Color} {p g : ℕ} {fs : Ctx Color}
    {w x y z : Ptr} (hdis : (fs.plug (mk d (mk d a p .red b) g .black u)).Distinct)
    (hp : s.node p = some (rbCell d .red a.root y z))
    (hg : s.node g = some (rbCell d .black w u.root (fs.parent none)))
    (ha : rbLayout.TreeAt s.node (some p) a) (hb : rbLayout.TreeAt s.node x b) (hbb : Black b)
    (hu : rbLayout.TreeAt s.node (some g) u)
    (hfs : rbLayout.CtxAt s.node none s.rbNode (some g) fs) :
    ∃ s', (rbInsertCase3 rotate d (some p) (some g) b.root).run s = .ok ((), s') ∧
      Focus s' fs (mk d a p .black (mk d b g .red u)) ∧
      Relinked I (fs.plug (mk d (mk d a p .red b) g .black u))
        (fs.plug (mk d a p .black (mk d b g .red u))) s s' := by
  have hd := hdis
  simp only [distinct_plug, distinct_mk, mem_mk] at hd
  obtain ⟨hpg, hpa, hga, hpb, hgb, hpu, hgu, hpfs, hgfs⟩ : p ≠ g ∧ p ∉ a ∧ g ∉ a ∧ p ∉ b ∧ g ∉ b ∧
      p ∉ u ∧ g ∉ u ∧ p ∉ fs ∧ g ∉ fs := by grind
  obtain ⟨hba, hbu, hbfs, hdb⟩ : (∀ x ∈ b, x ∉ a) ∧ (∀ x ∈ b, x ∉ u) ∧ (∀ x ∈ b, x ∉ fs) ∧
      b.Distinct := by grind
  simp only [rbInsertCase3, StateT.run_bind, run_setRbChild, atNode, hg, hp, ok_bind,
    Function.update_of_ne hpg, rbCell_setChild, rbCell_setChild_flip]
  rw [run_rbAdoptBlack (p := x) (by simpa [hpb, hgb] using hb) hbb, ok_bind]
  obtain ⟨s', hrun, hfocus, hsame⟩ := run_rbRotateSetParents (c := .red) (z := z) (D := D)
    (s := ⟨s.rbNode, rbLayout.reparent b (some g) (Function.update (Function.update s.node g
      (some (rbCell d .black b.root u.root (fs.parent none)))) p
      (some (rbCell d .red a.root (some g) z))), s.data⟩) hdis
    (by simp [rbLayout.reparent_of_not_mem hpb])
    (by simp [rbLayout.reparent_of_not_mem hgb, hpg.symm])
    (by simpa [rbLayout.treeAt_reparent hba, hpa, hga] using ha)
    (rbLayout.treeAt_reparent_self hdb (by simpa [hpb, hgb] using hb))
    (by simpa [rbLayout.treeAt_reparent hbu, hpu, hgu] using hu)
    (by simpa [rbLayout.ctxAt_reparent hbfs, hpfs, hgfs] using hfs)
  obtain ⟨s'', hrun', hfocus', hnode, hdata⟩ := run_augmentRotate hrot .red .black hfocus
  refine ⟨s'', ?_, hfocus', fun m hm => ?_, fun hI => hdata (by rwa [hsame.data])⟩
  · rw [hrun, ok_bind, hrun']
  · have hm' := hm
    simp only [mem_plug, mem_mk, not_or] at hm'
    rw [hnode, hsame.node m hm]
    simp [rbLayout.reparent_of_not_mem hm'.1.2.1.2.2, hm'.1.1, hm'.1.2.1.1]

/-- Case 2 followed by case 3: the red node `n` is the inner grandchild. -/
theorem run_rbInsertCase23 (hrot : RotateKeeps rotate I) {d : Dir} {s : RbMem D}
    {a n₁ n₂ u : BinTree Color} {n p g : ℕ}
    {fs : Ctx Color} (hb₁ : Black n₁) (hb₂ : Black n₂)
    (h : Focus s (.up d.flip p .red a (.up d g .black u fs)) (mk d n₁ n .red n₂)) :
    ∃ s₁ s', (rbInsertCase2 rotate d (some n) (some p)).run s = .ok (n₂.root, s₁) ∧
      (rbInsertCase3 rotate d (some n) (some g) n₂.root).run s₁ = .ok ((), s') ∧
      Focus s' fs (mk d (mk d a p .red n₁) n .black (mk d n₂ g .red u)) ∧
      Relinked I (fs.plug (mk d (mk d a p .red (mk d n₁ n .red n₂)) g .black u))
        (fs.plug (mk d (mk d a p .red n₁) n .black (mk d n₂ g .red u))) s s' := by
  have hdis := h.distinct
  have hlive := h.live
  obtain ⟨⟨hn, h₁, h₂⟩, hp, ha, hg, hu, hfs⟩ := And.intro (rbLayout.treeAt_mk.1 h.tree) h.ctx
  simp only [root_mk, parent_up] at hp hg hfs hn
  simp only [plug_up, mk_flip] at hdis hlive
  have hdis' : (fs.plug (mk d (mk d (mk d a p .red n₁) n .red n₂) g .black u)).Distinct := by
    have haddrs : (mk d (mk d (mk d a p .red n₁) n .red n₂) g .black u).addrs =
        (mk d (mk d a p .red (mk d n₁ n .red n₂)) g .black u).addrs := by cases d <;> simp [mk]
    rw [BinTree.Distinct, addrs_plug_congr haddrs]
    exact hdis
  have hd := hdis
  simp only [distinct_plug, distinct_mk, mem_mk] at hd
  obtain ⟨hnp, hng, hpg⟩ : n ≠ p ∧ n ≠ g ∧ p ≠ g := by grind
  obtain ⟨hp₁, hn₁, hg₁, hp₂, hn₂, hg₂⟩ : p ∉ n₁ ∧ n ∉ n₁ ∧ g ∉ n₁ ∧ p ∉ n₂ ∧ n ∉ n₂ ∧ g ∉ n₂ := by
    grind
  obtain ⟨hpa, hna, hpu, hnu, hpfs, hnfs⟩ : p ∉ a ∧ n ∉ a ∧ p ∉ u ∧ n ∉ u ∧ p ∉ fs ∧ n ∉ fs := by
    grind
  obtain ⟨h₁₂, h₁a, h₁u, h₁fs, hd₁⟩ : (∀ x ∈ n₁, x ∉ n₂) ∧ (∀ x ∈ n₁, x ∉ a) ∧ (∀ x ∈ n₁, x ∉ u) ∧
      (∀ x ∈ n₁, x ∉ fs) ∧ n₁.Distinct := by grind
  rw [Layout.cellOf_flip] at hp
  simp only [rbInsertCase2, StateT.run_bind, run_rbChild, run_setRbChild, atNode, hn, hp, ok_bind,
    rbCell_child, rbCell_setChild, rbCell_setChild_flip, Function.update_of_ne hnp]
  rw [run_rbAdoptBlack (p := some n) (by simpa [hp₁, hn₁] using h₁) hb₁]
  simp only [run_rbSetParentColor, atNode, ok_bind, rbLayout.reparent_of_not_mem hp₁,
    Function.update_of_ne hnp.symm, Function.update_self, rbCell_setParentColor]
  -- the nodes once `n` is above `p`
  obtain ⟨h, hh⟩ : ∃ h, h = Function.update (rbLayout.reparent n₁ (some p)
      (Function.update (Function.update s.node p (some (rbCell d .red a.root n₁.root (some g)))) n
        (some (rbCell d .red (some p) n₂.root (some p))))) p
        (some (rbCell d .red a.root n₁.root (some n))) := ⟨_, rfl⟩
  have hhp : h p = some (rbCell d .red a.root n₁.root (some n)) := by
    rw [hh, Function.update_self]
  have hhn : h n = some (rbCell d .red (some p) n₂.root (some p)) := by
    simp [hh, rbLayout.reparent_of_not_mem hn₁, hnp]
  rw [← hh]
  have hlive : ∀ m ∈ fs.plug (mk d (mk d a p .red (mk d n₁ n .red n₂)) g .black u), h m ≠ none := by
    intro m hm
    rw [hh]
    exact update_ne_none (rbLayout.reparent_ne_none (update_ne_none (update_ne_none (hlive m hm))))
  obtain ⟨data, hrun₁, hdata⟩ := hrot.rotate (d := d.flip) (a := n₂) (p := n) (b := n₁) (u := a)
    .red .red .red .red (.up d g .black u fs) (s := ⟨s.rbNode, h, s.data⟩) hhp (by simp) (by simp)
      (by simpa [mk_flip] using hdis)
    (by simpa [Live, mk_flip] using hlive)
  simp only [mk_flip, plug_up] at hdata
  obtain ⟨s', hrun, hfocus, hsame⟩ := run_rbInsertCase3 hrot (y := n₂.root) (z := some p)
    (w := some p) (x := some n) (s := ⟨s.rbNode, h, data⟩) hdis' (by simpa using hhn)
    (by simp [hh, rbLayout.reparent_of_not_mem hg₁, hpg.symm, hng.symm, hg])
    (by simpa [hh, rbLayout.treeAt_reparent h₁a, hpa, hna, hp₁] using
      ⟨ha, rbLayout.treeAt_reparent_self hd₁ (by simpa [hp₁, hn₁] using h₁)⟩)
    (by simpa [hh, rbLayout.treeAt_reparent h₁₂, hp₂, hn₂] using h₂) hb₂
    (by simpa [hh, rbLayout.treeAt_reparent h₁u, hpu, hnu] using hu)
    (by simpa [hh, rbLayout.ctxAt_reparent h₁fs, hpfs, hnfs] using hfs)
  refine ⟨_, s', ?_, hrun, hfocus, fun m hm => ?_, fun hI => hsame.data (hdata hI)⟩
  · rw [hrun₁, ok_bind]
    simp only [hhn, rbCell_child_flip]
  · simp only [mem_plug, mem_mk, not_or] at hm
    rw [hsame.node m (by simp [mem_plug, hm])]
    simp [hh, rbLayout.reparent_of_not_mem hm.1.2.1.2.2.2.1, hm.1.2.1.1, hm.1.2.1.2.2.1]

/-! ## The loop -/

/-- The loop invariant: the root of `t` is red, and the only thing that can be wrong is that its
    parent is red as well or missing. -/
structure InsertInv (s : RbMem D) (fs : Ctx Color) (t : BinTree Color) (k : ℕ) : Prop where
  focus : Focus s fs t
  red : ¬ Black t
  rb : RB t k
  ctx : RBCtx fs k

/-- What rebalancing leaves behind: a red-black tree with the nodes of `T` in their order, the
    assertion `I` if it held before, and no other node touched. -/
structure Restored (I : BinTree Color → (ℕ → D) → Prop) (T : BinTree Color) (s s' : RbMem D)
    (T' : BinTree Color) : Prop where
  focus : Focus s' .root T'
  addrs : T'.addrs = T.addrs
  redBlack : RedBlack T'
  relinked : Relinked I T T' s s'

/-- What rebalancing with the dummy callbacks leaves behind: a red-black tree with the nodes of `T`
    in their order, and nothing else touched. -/
structure Rebalanced (T : BinTree Color) (s s' : RbMem D) (T' : BinTree Color) : Prop where
  focus : Focus s' .root T'
  addrs : T'.addrs = T.addrs
  redBlack : RedBlack T'
  same : SameOutside T s s'

theorem Restored.rebalanced {T T' : BinTree Color} {s s' : RbMem D}
    (h : Restored (fun _ data => data = s.data) T s s' T') : Rebalanced T s s' T' :=
  ⟨h.focus, h.addrs, h.redBlack, h.relinked.sameOutside⟩

variable {s : RbMem D} {fs : Ctx Color} {t : BinTree Color} {k : ℕ}

/-- Case 1: the red node moves up to the grandparent. -/
theorem run_rbInsertSide_flip (hrot : RotateKeeps rotate I) {d e : Dir} {p g v : ℕ}
    {b u₁ u₂ : BinTree Color}
    (h : InsertInv s (.up e p .red b (.up d g .black (mk .left u₁ v .red u₂) fs)) t k) :
    ∃ s', (rbInsertSide rotate d t.root (some p) (some g)).run s =
        .ok (some (some g, fs.parent none), s') ∧
      InsertInv s' fs (mk d (mk e t p .black b) g .red (mk .left u₁ v .black u₂)) (k + 1) ∧
      Relinked I (fs.plug (mk d (mk e t p .red b) g .black (mk .left u₁ v .red u₂)))
        (fs.plug (mk d (mk e t p .black b) g .red (mk .left u₁ v .black u₂))) s s' := by
  obtain ⟨⟨ht, hctx, hdis⟩, hred, hrb, ⟨hb, hbk, -, huk, hfsk⟩⟩ := h
  obtain ⟨hp, hbt, hg, hut, hfs⟩ := hctx
  obtain ⟨hv, hu₁, hu₂⟩ := rbLayout.treeAt_mk.1 hut
  simp only [root_mk, parent_up] at hg hp ht
  have hd := hdis
  simp only [plug_up, distinct_plug, distinct_mk, mem_mk] at hd
  obtain ⟨hvp, hvg, hpg⟩ : v ≠ p ∧ v ≠ g ∧ p ≠ g := by grind
  obtain ⟨hvu₁, hvu₂, hpu₁, hpu₂, hgu₁, hgu₂⟩ :
      v ∉ u₁ ∧ v ∉ u₂ ∧ p ∉ u₁ ∧ p ∉ u₂ ∧ g ∉ u₁ ∧ g ∉ u₂ := by grind
  obtain ⟨hvt, hpt, hgt, hvb, hpb, hgb⟩ : v ∉ t ∧ p ∉ t ∧ g ∉ t ∧ v ∉ b ∧ p ∉ b ∧ g ∉ b := by grind
  obtain ⟨hvfs, hpfs, hgfs⟩ : v ∉ fs ∧ p ∉ fs ∧ g ∉ fs := by grind
  have hrun : (rbSomeRed (some v)).run s = .ok (true, s) := by
    simpa using run_rbSomeRed hut
  simp only [rbInsertSide, StateT.run_bind, run_rbChild, atNode, hg, ok_bind, rbCell_child_flip,
    hrun, if_true, run_rbSetParentColor, hv, hp, run_rbParent, Function.update_of_ne hvp.symm,
    Function.update_of_ne hvg.symm, Function.update_of_ne hpg.symm, rbCell_setParentColor,
    rbCell_parentColor, StateT.run_pure, pure_eq_ok]
  refine ⟨_, rfl, ⟨⟨?_, ?_, ?_⟩, by simp, ?_, hfsk⟩, fun m hm => ?_, hrot.recolor ?_⟩
  · simp [hvp, hvg, hpg, hvt, hpt, hgt, hvb, hpb, hgb, hvu₁, hvu₂, hpu₁, hpu₂, hgu₁, hgu₂, ht, hbt,
      hu₁, hu₂]
  · simp [hvfs, hpfs, hgfs, hfs]
  · simp only [distinct_plug, distinct_mk, mem_mk]
    exact hd
  · rw [rb_red, rb_black_succ, rb_black_succ]
    simp at huk
    simp [*]
  · simp only [mem_plug, mem_mk, not_or] at hm
    simp [hm]
  · exact shape_plug_congr (by simp)

/-- Cases 2 and 3: with a black uncle a rotation ends the loop. -/
theorem run_rbInsertSide_rotate (hrot : RotateKeeps rotate I) {d e : Dir} {p g : ℕ}
    {b u : BinTree Color} (hu : Black u)
    (h : InsertInv s (.up e p .red b (.up d g .black u fs)) t k) :
    ∃ s' t', (rbInsertSide rotate d t.root (some p) (some g)).run s = .ok (none, s') ∧
      Focus s' fs t' ∧ t'.addrs = (mk d (mk e t p .red b) g .black u).addrs ∧ Black t' ∧
      RB t' (k + 1) ∧
      Relinked I (fs.plug (mk d (mk e t p .red b) g .black u)) (fs.plug t') s s' := by
  obtain ⟨hfocus, hred, hrb, ⟨hb, hbk, -, huk, hfsk⟩⟩ := h
  obtain ⟨n₁, n, n₂, rfl, h₁, h₂, h₁k, h₂k⟩ := hrb.exists_red d hred
  obtain ⟨hp, hbt, hg, hut, hfs⟩ := hfocus.ctx
  simp only [root_mk, parent_up] at hp hg
  simp only [rbInsertSide, StateT.run_bind, run_rbChild, atNode, hg, ok_bind, rbCell_child_flip,
    run_rbSomeRed hut, hu, not_true_eq_false, decide_false, Bool.false_eq_true, if_false, hp]
  by_cases hde : e = d
  · subst hde
    have hnb : b.root ≠ some n := by
      intro hnb
      have hd := hfocus.distinct
      have := mem_of_root hnb
      simp only [plug_up, distinct_plug, distinct_mk, mem_mk] at hd
      grind
    obtain ⟨s', hrun, hfocus', hsame⟩ := run_rbInsertCase3 hrot (w := some p) (y := b.root)
      (z := some g) (x := some p) hfocus.distinct (by simpa using hp) hg hfocus.tree hbt hb hut
      hfs
    refine ⟨s', _, ?_, hfocus', addrs_rotate, by simp, ?_, hsame⟩
    · simp [hnb.symm, hrun]
    · rw [rb_black_succ, rb_red, rb_red]
      exact ⟨⟨h₁, h₂, h₁k, h₂k⟩, hb, hu, hbk, huk⟩
  · obtain rfl : e = d.flip := by cases d <;> cases e <;> simp_all
    obtain ⟨s₁, s', hrun₁, hrun, hfocus', hsame⟩ := run_rbInsertCase23 hrot h₁ h₂ hfocus
    rw [mk_flip]
    refine ⟨s', _, ?_, hfocus', ?_, by simp, ?_, hsame⟩
    · simp [StateT.run_bind, hrun₁, hrun]
    · cases d <;> simp [mk]
    · rw [rb_black_succ, rb_red, rb_red]
      exact ⟨⟨hb, h₁, hbk, h₁k⟩, h₂, hu, h₂k, huk⟩

/-- One pass of the loop finishes, or leaves the invariant at a node closer to the root. -/
theorem run_rbInsertBody (hrot : RotateKeeps rotate I) (h : InsertInv s fs t k) :
    (∃ s' T', (rbInsertBody rotate t.root (fs.parent none)).run s = .ok (none, s') ∧
      Restored I (fs.plug t) s s' T') ∨
    (∃ s' fs' t' k', (rbInsertBody rotate t.root (fs.parent none)).run s =
        .ok (some (t'.root, fs'.parent none), s') ∧
      InsertInv s' fs' t' k' ∧ fs'.length < fs.length ∧
      (fs'.plug t').addrs = (fs.plug t).addrs ∧ Relinked I (fs.plug t) (fs'.plug t') s s') := by
  cases fs with
  | root =>
      -- the red node is the root: it is made black
      left
      obtain ⟨a, n, b, rfl, ha, hb, hak, hbk⟩ := h.rb.exists_red .left h.red
      obtain ⟨hn, hat, hbt⟩ := rbLayout.treeAt_mk.1 h.focus.tree
      have hd := h.focus.distinct
      simp only [plug_root, distinct_mk] at hd
      simp only [rbInsertBody, root_mk, parent_root, Option.isNone_none, if_true, StateT.run_bind,
        run_rbSetParentColor, atNode, hn, ok_bind, rbCell_setParentColor, StateT.run_pure,
        pure_eq_ok]
      refine ⟨_, mk .left a n .black b, rfl, ⟨?_, h.focus.ctx, ?_⟩, by simp [mk],
        ⟨by simp, k + 1, ?_⟩, fun m hm => ?_, hrot.recolor (by simp)⟩
      · simp [hd, hat, hbt]
      · simpa using hd
      · exact rb_black_succ.2 ⟨hak, hbk⟩
      · simp only [plug_root, mem_mk, not_or] at hm
        simp [hm]
  | up e p c b fs =>
      cases c with
      | black =>
          -- the parent is black: nothing to do
          left
          refine ⟨s, _, ?_, focus_plug.2 h.focus, rfl, ?_, .refl _ _ _⟩
          · have hp := h.focus.ctx.1
            simp [rbInsertBody, StateT.run_bind, run_rbIsBlack, atNode, hp]
          · exact redBlack_plug h.ctx h.rb (.inr rfl)
      | red =>
          obtain ⟨hb, hbk, hblack, hfs⟩ := h.ctx
          cases fs with
          | root => exact absurd hblack id
          | up d g c u fs =>
              obtain rfl : c = .black := hblack
              have hside : (rbInsertBody rotate t.root (some p)).run s =
                  (rbInsertSide rotate d t.root (some p) (some g)).run s := by
                obtain ⟨hp, -, hg, -⟩ := h.focus.ctx
                have hup : u.root ≠ some p := by
                  intro hup
                  have hd := h.focus.distinct
                  have := mem_of_root hup
                  simp only [plug_up, distinct_plug, distinct_mk, mem_mk] at hd
                  grind
                cases d <;> cases e <;>
                  simp [rbInsertBody, StateT.run_bind, run_rbIsBlack, rbRedParent, run_load,
                    run_rbChild, atNode, hp, hg, RbNode.child, Layout.cellOf, rbLayout, hup.symm]
              rw [parent_up, hside]
              by_cases hu : Black u
              · left
                obtain ⟨s', t', hrun, hfocus, haddrs, hb', hk', hsame⟩ :=
                  run_rbInsertSide_rotate hrot hu h
                exact ⟨s', fs.plug t', hrun, focus_plug.2 hfocus, addrs_plug_congr haddrs,
                  redBlack_plug hfs.2 hk' (.inl hb'), hsame⟩
              · right
                obtain ⟨u₁, v, u₂, rfl, -⟩ := hfs.1.exists_red .left hu
                obtain ⟨s', hrun, hinv, hsame⟩ := run_rbInsertSide_flip hrot h
                refine ⟨s', fs, _, k + 1, by simpa using hrun, hinv, by simp only [length_up]; omega, ?_,
                  hsame⟩
                exact addrs_plug_congr (by cases d <;> cases e <;> simp [mk])

/-- The loop ends, and the tree is red-black again. -/
theorem returns_rbInsertLoop (hrot : RotateKeeps rotate I) (h : InsertInv s fs t k) :
    ∃ s' T', Returns (fun fuel => rbInsertLoop rotate fuel t.root (fs.parent none)) s () s' ∧
      Restored I (fs.plug t) s s' T' := by
  induction hlen : fs.length using Nat.strongRecOn generalizing s fs t k with
  | ind len ih =>
      rcases run_rbInsertBody hrot h with
        ⟨s', T', hrun, hT'⟩ | ⟨s₁, fs', t', k', hrun, hinv, hlt, haddrs, hsame⟩
      · exact ⟨s', T', .of_succ (.bind_run hrun (.of_run rfl)), hT'⟩
      · obtain ⟨s', T', hret, hT'⟩ := ih fs'.length (hlen ▸ hlt) hinv rfl
        exact ⟨s', T', .of_succ (.bind_run hrun hret), hT'.focus, hT'.addrs.trans haddrs,
          hT'.redBlack, hsame.trans hT'.relinked haddrs⟩

/-- `rb_link_node` hangs the node `n` at the empty place of `fs`. -/
theorem run_rbLinkNode {n : ℕ} {c : RbNode} (h : Focus s fs .nil) (hn : s.node n = some c)
    (hfs : n ∉ fs) :
    ∃ s', (rbLinkNode (some n) (fs.parent none) (linkOf fs)).run s = .ok ((), s') ∧
      Focus s' fs (mk .left .nil n .red .nil) ∧
      SameOutside (fs.plug (mk .left .nil n .red .nil)) s s' := by
  have hctx := h.ctx
  have hd : fs.Distinct := (distinct_plug.1 h.distinct).2.1
  have hdis : (fs.plug (mk .left .nil n .red .nil)).Distinct := by
    simp only [distinct_plug, distinct_mk, mem_mk, not_mem_nil, distinct_nil]
    grind
  have hrun : (rbLinkNode (some n) (fs.parent none) (linkOf fs)).run s = .ok ((), { s with
      node := rbLayout.link none fs (some n)
        (Function.update s.node n (some ⟨⟨fs.parent none, .red⟩, none, none⟩))
      rbNode := fs.linkRoot (some n) s.rbNode }) := by
    cases fs with
    | root =>
        simp [rbLinkNode, StateT.run_bind, run_modifyNode, atNode, hn, linkOf, RbLink.write,
          setRbNode, Layout.link, linkRoot]
    | up d p c sib fs =>
        have hp := hctx.1
        have hpn : p ≠ n := by
          rintro rfl
          simp at hfs
        simp [rbLinkNode, StateT.run_bind, run_modifyNode, run_setRbChild, atNode, hn, linkOf,
          RbLink.write, Layout.link, linkRoot, hp, hpn]
  refine ⟨_, hrun, ⟨?_, ?_, hdis⟩, rfl, fun m hm => ?_⟩
  · refine ⟨?_, trivial, trivial⟩
    simp only [rbLayout.link_of_not_mem hfs, Function.update_self]
    rfl
  · rw [root_mk]
    exact rbLayout.ctxAt_link (y := none) hd (by simpa [hfs] using hctx)
  · simp only [mem_plug, mem_mk, not_or] at hm
    simp [rbLayout.link_of_not_mem hm.2, hm.1.1]

/-- `__rb_insert` after `rb_link_node`: the tree is red-black again. -/
theorem returns_rbInsert (hrot : RotateKeeps rotate I) {n : ℕ}
    (h : Focus s fs (mk .left .nil n .red .nil)) (hrb : RedBlack (fs.plug .nil)) :
    ∃ s' T', Returns (fun fuel => rbInsert rotate fuel (some n)) s () s' ∧
      Restored I (fs.plug (mk .left .nil n .red .nil)) s s' T' := by
  obtain ⟨k, hk, hfs, -⟩ := hrb.of_plug
  obtain rfl : k = 0 := hk
  have hinv : InsertInv s fs (mk .left .nil n .red .nil) 0 := ⟨h, by simp, by simp, hfs⟩
  obtain ⟨s', T', hret, hT'⟩ := returns_rbInsertLoop hrot hinv
  have hn := h.tree.1
  have hparent : (rbRedParent (some n)).run s = .ok (fs.parent none, s) := by
    simp [rbRedParent, StateT.run_bind, run_load, atNode, hn, rbLayout]
  exact ⟨s', T', .bind_run hparent hret, hT'⟩

/-- **`rb_insert_color`** after `rb_link_node`: the tree is red-black again. -/
theorem returns_rbInsertColor {n : ℕ} (h : Focus s fs (mk .left .nil n .red .nil))
    (hrb : RedBlack (fs.plug .nil)) :
    ∃ s' T', Returns (fun fuel => rbInsertColor fuel (some n)) s () s' ∧
      Rebalanced (fs.plug (mk .left .nil n .red .nil)) s s' T' := by
  obtain ⟨s', T', hret, hT'⟩ := returns_rbInsert (dummyKeeps fun data => data = s.data).rotate h hrb
  exact ⟨s', T', hret, hT'.rebalanced⟩

/-- **Inserting a node**: `rb_link_node` at an empty place of a red-black tree, any of them, and
    then `rb_insert_color` leave a red-black tree with the node at that place of the sequence. -/
theorem link_insert_redBlack {T : BinTree Color} {n : ℕ} {c : RbNode} (h : Focus s .root T)
    (hrb : RbConditions T) (hT : T = fs.plug .nil) (hn : s.node n = some c) (hfresh : n ∉ T) :
    ∃ s₁ s' T', (rbLinkNode (some n) (fs.parent none) (linkOf fs)).run s = .ok ((), s₁) ∧
      Returns (fun fuel => rbInsertColor fuel (some n)) s₁ () s' ∧ Focus s' .root T' ∧
      RbConditions T' ∧ T.addrs = fs.before ++ fs.after ∧ T'.addrs = fs.before ++ n :: fs.after := by
  subst hT
  have hfs : n ∉ fs := fun hmem => hfresh (mem_plug.2 (.inr hmem))
  obtain ⟨s₁, hrun, hfocus, -⟩ := run_rbLinkNode (focus_plug.1 h) hn hfs
  obtain ⟨s', T', hret, hT'⟩ := returns_rbInsertColor hfocus (redBlack_iff.2 hrb)
  refine ⟨s₁, s', T', hrun, hret, hT'.focus, redBlack_iff.1 hT'.redBlack, ?_, ?_⟩
  · simp [addrs_plug]
  · rw [hT'.addrs, addrs_plug]
    simp [mk]

/-- The node 1, black, has the red child 2 at its right, and 3 is linked at the right of that. -/
def redParent : RbMem Unit where
  rbNode := some 1
  node
    | 1 => some ⟨⟨none, .black⟩, some 2, none⟩
    | 2 => some ⟨⟨some 1, .red⟩, none, none⟩
    | 3 => some ⟨⟨none, .black⟩, none, none⟩
    | _ => none
  data := fun _ => ()

/-- The parent of the new node is red, and the tree is rotated to the left: 2 is the root then. -/
theorem link_insert_redBlack_rotate : ∃ (s₁ s' : RbMem Unit) (T' : BinTree Color),
    (rbLinkNode (some 3) (some 2) (.child (some 2) .right)).run redParent = .ok ((), s₁) ∧
      Returns (fun fuel => rbInsertColor fuel (some 3)) s₁ () s' ∧ s'.rbNode = some 2 ∧
      Focus s' .root T' ∧ RbConditions T' ∧ T'.addrs = [1, 2, 3] := by
  have hfocus : Focus redParent .root (.node .nil 1 .black (.node .nil 2 .red .nil)) :=
    ⟨⟨rfl, trivial, rfl, trivial, trivial⟩, rfl, by simp⟩
  obtain ⟨s₁, s', T', hlink, hret, hfocus', hrb, -, haddrs⟩ := link_insert_redBlack hfocus
    (redBlack_iff.1 ⟨rfl, 1, 0, rfl, rfl, trivial, trivial, rfl, rfl⟩)
    (show _ = plug (.up .right 2 .red .nil (.up .right 1 .black .nil .root)) .nil from rfl) (n := 3)
    rfl (by simp)
  refine ⟨s₁, s', T', hlink, hret, ?_, hfocus', hrb, haddrs⟩
  have hrun : ∃ s₂, Returns (fun fuel => rbInsertColor fuel (some 3)) s₁ () s₂ ∧
      s₂.rbNode = some 2 := by
    cases hlink
    exact ⟨_, .of_succ ⟨0, fun fuel _ => rfl⟩, rfl⟩
  obtain ⟨s₂, hret₂, hroot⟩ := hrun
  exact (hret.unique hret₂).2 ▸ hroot

end StructLib.Rbtree
