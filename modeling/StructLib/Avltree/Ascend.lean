import StructLib.Avltree.Delete

set_option autoImplicit false

/-! # The way back up after a removal

Above the removed node, `RemoveAvlEntry` compares the stored heights of the two children. Where
nothing is to be rotated the rest of the tree stays as it is. Of the rotations, those that the code
gets wrong lose a subtree, link to one twice, or follow a NULL link. -/

namespace StructLib.Avl

open BinTree

/-- The search for the key goes to the side `d` of a node. -/
def Descends (key : UInt32) (x : Payload) (d : Dir) : Prop :=
  key ≠ x.minKey ∧ (if key < x.minKey then Dir.left else .right) = d

/-- The state in which the call for `mk d a n v b` rebalances, the call for `a` having passed on
    `r`. -/
structure Back (key : UInt32) (s : AvlMem) (d : Dir) (a : Tree) (n : ℕ) (v : Payload × ℤ) (b : Tree)
    (r : Ptr) (h₁ h : Cells AvlEntry) : Prop where
  intro ::
  run : ∀ fuel slot, a.depth < fuel → (removeAvlEntry key (fuel + 1) (some n) (some slot)).run s =
    (do
      slot.write (← rebalanceAvlTree (some n))
      return (0 : ℤ)).run { s with heap := h }
  cell : links h n = some (sideCell d v.1 r b.root)
  sibling : avlLayout.TreeAt h (some n) b
  height : heights h n = ((mk d a n v b).depth : ℤ) - 1
  below : ∀ y, y ≠ n → h y = h₁ y
  same : ∀ y, y ∉ mk d a n v b → h y = s.heap y

section Level

variable {key : UInt32} {s : AvlMem} {p r res : Ptr} {d : Dir} {a b : Tree} {n m : ℕ}
  {v : Payload × ℤ} {h₁ h h' : Cells AvlEntry} {k : ℤ} {T : BinTree Payload}

theorem AvlAt.sub (hA : AvlAt s p (mk d a n v b)) : AvlAt s (some n) a := by
  obtain ⟨-, hta, -⟩ := avlLayout.treeAt_mk.1 hA.layout
  exact ⟨hta, (distinct_mk.1 hA.distinct).2.2.1, (measured_mk.1 hA.measured).2.1,
    (balanced_mk.1 hA.balanced).2.2.1⟩

theorem Leaves.back_cell (hA : AvlAt s p (mk d a n v b)) (hd : Descends key v.1 d)
    (hL : Leaves key s a r h₁) : ∃ h, Back key s d a n v b r h₁ h ∧
      h n = some (avlLayout.cellOf d v r b.root p) := by
  obtain ⟨hn, hta, htb⟩ := avlLayout.treeAt_mk.1 hA.layout
  obtain ⟨hna, hnb, -, -, hab⟩ := distinct_mk.1 hA.distinct
  have hv := (measured_mk.1 hA.measured).1
  have hn₁ : h₁ n = some (avlLayout.cellOf d v a.root b.root p) := (hL.same n hna).trans hn
  refine ⟨Function.update h₁ n (some (avlLayout.cellOf d v r b.root p)),
    ⟨fun fuel slot hfuel => ?_, ?_, ?_, ?_, fun y hy => Function.update_of_ne hy ..,
      fun y hy => ?_⟩, Function.update_self ..⟩
  · have hload : (load (some n)).run s = .ok (avlLayout.cellOf d v a.root b.root p, s) := by
      simp only [run_load, atEntry, hn]
    have hdir : (if key < v.1.minKey then Dir.left else .right) = d := hd.2
    have hrec : (removeAvlEntry key fuel a.root (some (.child (some n) d))).run s = .ok (0, { s with
        heap := Function.update h₁ n (some (avlLayout.cellOf d v r b.root p)) }) := by
      rw [hL.run fuel _ hfuel]
      simp only [passPtr, Slot.write, StateT.run_bind, run_setChild, atEntry, hn₁, ok_bind,
        avlCellOf_setChild, StateT.run_pure, pure_eq_ok]
    rw [removeAvlEntry]
    simp only [Option.isNone_some, Bool.false_eq_true, if_false]
    rw [Exec.run_bind_of_ok hload]
    simp only [avlCellOf_minKey, if_neg hd.1, hdir, avlCellOf_child]
    rw [Exec.run_bind_of_ok hrec]
    simp only [ne_eq, not_true_eq_false, if_false]
  · cases d <;> simp [links, sideCell, Layout.cellOf, AvlEntry.payload]
  · rw [avlLayout.treeAt_update hnb]
    refine avlLayout.treeAt_congr htb fun y hy => hL.same y fun hya => hab y hya hy
  · rw [depth_mk]
    cases d <;> simp [heights, Layout.cellOf, hv]
  · simp only [mem_mk, not_or] at hy
    exact (Function.update_of_ne hy.1 ..).trans (hL.same y hy.2.1)

theorem Leaves.back (hA : AvlAt s p (mk d a n v b)) (hd : Descends key v.1 d)
    (hL : Leaves key s a r h₁) : ∃ h, Back key s d a n v b r h₁ h := by
  obtain ⟨h, hB, -⟩ := hL.back_cell hA hd
  exact ⟨h, hB⟩

theorem Back.leaves (hB : Back key s d a n v b r h₁ h)
    (hreb : (rebalanceAvlTree (some n)).run { s with heap := h } = .ok (res, { s with heap := h' }))
    (hsame : ∀ y, y ∉ mk d a n v b → h' y = h y) : Leaves key s (mk d a n v b) res h' := by
  refine ⟨fun fuel slot hfuel => ?_, fun y hy => (hsame y hy).trans (hB.same y hy)⟩
  rw [depth_mk] at hfuel
  obtain ⟨fuel, rfl⟩ := Nat.exists_eq_add_one.2 (Nat.zero_lt_of_lt hfuel)
  rw [root_mk, hB.run fuel slot (by omega), Exec.run_bind_of_ok hreb]
  rfl

theorem Back.faults (hB : Back key s d a n v b r h₁ h) {e : Fault}
    (hreb : (rebalanceAvlTree (some n)).run { s with heap := h } = .error e) :
    Faults key s (mk d a n v b) := by
  intro fuel slot hfuel
  rw [depth_mk] at hfuel
  obtain ⟨fuel, rfl⟩ := Nat.exists_eq_add_one.2 (Nat.zero_lt_of_lt hfuel)
  refine ⟨e, ?_⟩
  rw [root_mk, hB.run fuel slot (by omega), StateT.run_bind, hreb]
  rfl

theorem Faults.up (hA : AvlAt s p (mk d a n v b)) (hd : Descends key v.1 d)
    (hF : Faults key s a) : Faults key s (mk d a n v b) := by
  intro fuel slot hfuel
  rw [depth_mk] at hfuel
  obtain ⟨fuel, rfl⟩ := Nat.exists_eq_add_one.2 (Nat.zero_lt_of_lt hfuel)
  have hn := (avlLayout.treeAt_mk.1 hA.layout).1
  have hload : (load (some n)).run s = .ok (avlLayout.cellOf d v a.root b.root p, s) := by
    simp only [run_load, atEntry, hn]
  have hdir : (if key < v.1.minKey then Dir.left else .right) = d := hd.2
  rw [root_mk, removeAvlEntry]
  simp only [Option.isNone_some, Bool.false_eq_true, if_false]
  rw [Exec.run_bind_of_ok hload]
  simp only [avlCellOf_minKey, if_neg hd.1, hdir, avlCellOf_child]
  obtain ⟨e, he⟩ := hF fuel (.child (some n) d) (by omega)
  refine ⟨e, ?_⟩
  rw [StateT.run_bind, he]
  rfl

/-! ## Rebalancing by sides -/

theorem run_rebalance_side {x : Payload} {c e : Ptr} (hn : links s.heap n = some (sideCell d x c e))
    (hc : ∀ j, c = some j → links s.heap j ≠ none) (he : ∀ j, e = some j → links s.heap j ≠ none) :
    (rebalanceAvlTree (some n)).run s =
      (if topHeight (heights s.heap) e - topHeight (heights s.heap) c = 2 then
        rotateDeep d.flip (some n)
      else if topHeight (heights s.heap) c - topHeight (heights s.heap) e = 2 then
        rotateDeep d (some n)
      else pure (some n)).run s := by
  cases d
  · rw [run_rebalance_links hn hc he]
    by_cases hleft : topHeight (heights s.heap) c - topHeight (heights s.heap) e = 2
    · rw [if_pos hleft, if_neg (by omega), if_pos hleft]
    · rw [if_neg hleft]
      by_cases hright : topHeight (heights s.heap) e - topHeight (heights s.heap) c = 2
      · rw [if_pos hright, if_pos (by omega)]
        rfl
      · rw [if_neg hright, if_neg (by omega), if_neg hleft]
  · rw [run_rebalance_links hn he hc]
    by_cases hleft : topHeight (heights s.heap) e - topHeight (heights s.heap) c = 2
    · rw [if_pos hleft, if_pos hleft]
      rfl
    · rw [if_neg hleft, if_neg hleft]
      by_cases hright : topHeight (heights s.heap) c - topHeight (heights s.heap) e = 2
      · rw [if_pos hright, if_pos (by omega)]
      · rw [if_neg hright, if_neg (by omega)]

/-! ## A right result -/

/-- The result has no nodes but those of the tree. -/
theorem Right.mem (hR : Right key a T k r h₁) {y : ℕ} (hy : y ∈ T) : y ∈ a := by
  obtain ⟨e, he, rfl⟩ := List.mem_map.1 (mem_addrs.2 hy)
  rw [hR.entries] at he
  exact mem_iff_records.2 ⟨e, (List.mem_filter.1 he).1, rfl⟩

theorem Right.entries_mk (hR : Right key a T k r h₁) (hd : Descends key v.1 d)
    (hb : ∀ e ∈ b.records, e.2.minKey ≠ key) : (mk d T n v.1 (strip b)).entries =
      (mk d a n v b).records.filter fun e => e.2.minKey ≠ key := by
  have hb' : (b.records.filter fun e => e.2.minKey ≠ key) = b.records :=
    List.filter_eq_self.2 fun e he => by simpa using hb e he
  have hv : decide (v.1.minKey ≠ key) = true := by simpa using hd.1.symm
  cases d
  · rw [mk, mk, entries_node, records_node, List.filter_append, List.filter_cons, hb', hR.entries,
      entries_strip, if_pos hv]
  · rw [mk, mk, entries_node, records_node, List.filter_append, List.filter_cons, hb', hR.entries,
      entries_strip, if_pos hv]

/-- The memory around a right result. -/
structure RightBack (key : UInt32) (s : AvlMem) (d : Dir) (a : Tree) (n : ℕ) (v : Payload × ℤ)
    (b : Tree) (T : BinTree Payload) (k : ℤ) (h : Cells AvlEntry) : Prop where
  cell : links h n = some (sideCell d v.1 T.root b.root)
  layout : linkLayout.TreeAt (links h) none T
  mem : ∀ y ∈ T, y ∈ a
  top : topHeight (heights h) T.root = k

theorem Back.right (hA : AvlAt s p (mk d a n v b)) (hB : Back key s d a n v b r h₁ h)
    (hR : Right key a T k r h₁) : RightBack key s d a n v b T k h := by
  obtain ⟨hna, -⟩ := distinct_mk.1 hA.distinct
  have hne : ∀ y ∈ T, y ≠ n := by
    rintro y hy rfl
    exact hna (hR.mem hy)
  refine ⟨?_, ?_, fun y hy => hR.mem hy, ?_⟩
  · rw [hB.cell, hR.start]
  · exact linkLayout.treeAt_congr hR.layout fun y hy => links_congr (hB.below y (hne y hy))
  · rw [← hR.height, hR.start]
    cases hr : r with
    | none => rfl
    | some j =>
        exact heights_congr (hB.below j (hne j (mem_of_root (hR.start.trans hr))))

/-- No rotation: the height stored at the node stays, too. -/
theorem Right.up_even (hA : AvlAt s p (mk d a n v b)) (hd : Descends key v.1 d)
    (hB : Back key s d a n v b r h₁ h) (hR : Right key a T k r h₁)
    (hb : ∀ e ∈ b.records, e.2.minKey ≠ key) (hk : k < a.depth) (hne : (b.depth : ℤ) - 1 ≠ k + 2) :
    Leaves key s (mk d a n v b) (some n) h ∧ Right key (mk d a n v b) (mk d T n v.1 (strip b))
      (((mk d a n v b).depth : ℤ) - 1) (some n) h := by
  have hRB := hB.right hA hR
  obtain ⟨hab, hba, -⟩ := balanced_mk.1 hA.balanced
  have htopb := topHeight_root hB.sibling (measured_mk.1 hA.measured).2.2
  have hsib : linkLayout.TreeAt (links h) none (strip b) := treeAt_links hB.sibling
  have hreb : (rebalanceAvlTree (some n)).run { s with heap := h } =
      .ok (some n, { s with heap := h }) := by
    rw [run_rebalance_side (s := { s with heap := h }) hRB.cell (links_root_ne_none hRB.layout)
      fun j hj => links_root_ne_none hsib j (by rw [root_strip, hj])]
    change (if topHeight (heights h) b.root - topHeight (heights h) T.root = 2 then _
      else if topHeight (heights h) T.root - topHeight (heights h) b.root = 2 then _
      else _ : Exec AvlMem Ptr).run _ = _
    rw [htopb, hRB.top, if_neg (by omega), if_neg (by omega)]
    rfl
  refine ⟨hB.leaves hreb fun _ _ => rfl, root_mk .., ?_, hR.entries_mk hd hb, hB.height⟩
  refine linkLayout.treeAt_mk.2 ⟨?_, linkLayout_treeAt_parent.1 hRB.layout,
    linkLayout_treeAt_parent.1 hsib⟩
  rw [hRB.cell, root_strip]
  rfl

/-! ## Rotations -/

/-- The sibling, with more than one level, where it lies. -/
structure Sibling (h : Cells AvlEntry) (b₁ : Tree) (m : ℕ) (w : Payload × ℤ) (b₂ : Tree) : Prop where
  cell : links h m = some (w.1, b₁.root, b₂.root)
  left : linkLayout.TreeAt (links h) none (strip b₁)
  right : linkLayout.TreeAt (links h) none (strip b₂)
  topLeft : topHeight (heights h) b₁.root = (b₁.depth : ℤ) - 1
  topRight : topHeight (heights h) b₂.root = (b₂.depth : ℤ) - 1
  top : topHeight (heights h) (some m) = ((node b₁ m w b₂).depth : ℤ) - 1

variable {b₁ b₂ : Tree} {w : Payload × ℤ}

theorem Back.sibling_at (hA : AvlAt s p (mk d a n v (node b₁ m w b₂)))
    (hB : Back key s d a n v (node b₁ m w b₂) r h₁ h) : Sibling h b₁ m w b₂ := by
  obtain ⟨hm, ht₁, ht₂⟩ := hB.sibling
  obtain ⟨-, -, hmb⟩ := measured_mk.1 hA.measured
  refine ⟨links_of_cell hm, treeAt_links ht₁, treeAt_links ht₂, topHeight_root ht₁ hmb.2.1,
    topHeight_root ht₂ hmb.2.2, ?_⟩
  rw [← topHeight_root hB.sibling hmb]
  rfl

theorem Sibling.topRight_gt (hS : Sibling h b₁ m w b₂) :
    topHeight (heights h) b₂.root > topHeight (heights h) b₁.root ↔ b₂.depth > b₁.depth := by
  rw [hS.topLeft, hS.topRight]
  omega

theorem Sibling.topLeft_gt (hS : Sibling h b₁ m w b₂) :
    topHeight (heights h) b₁.root > topHeight (heights h) b₂.root ↔ b₁.depth > b₂.depth := by
  rw [hS.topLeft, hS.topRight]
  omega

/-- Where the sibling is too deep, it is rotated. -/
theorem Sibling.run_deep {x : Payload} (hS : Sibling h b₁ m w b₂)
    (hn : links h n = some (sideCell d x r (some m))) (hr : ∀ j, r = some j → links h j ≠ none)
    (hk : ((node b₁ m w b₂).depth : ℤ) - 1 = topHeight (heights h) r + 2) :
    (rebalanceAvlTree (some n)).run { s with heap := h } =
      (if (sub d.flip b₁ b₂).depth > (sub d b₁ b₂).depth then rotateOuter d.flip (some n)
      else rotateInner d.flip (some n)).run { s with heap := h } := by
  have hm : ∀ j, some m = some j → links h j ≠ none := by
    rintro j ⟨⟩
    rw [hS.cell]
    simp
  have hlive : ∀ {u : Tree}, linkLayout.TreeAt (links h) none (strip u) →
      ∀ j, u.root = some j → links h j ≠ none := fun hu j hj =>
    links_root_ne_none hu j (by rw [root_strip, hj])
  rw [run_rebalance_side (s := { s with heap := h }) hn hr hm]
  change (if topHeight (heights h) (some m) - topHeight (heights h) r = 2 then _
    else _ : Exec AvlMem Ptr).run _ = _
  rw [hS.top, if_pos (by omega)]
  by_cases hlt : (sub d.flip b₁ b₂).depth > (sub d b₁ b₂).depth
  · rw [if_pos hlt]
    cases d
    · exact (run_rotateDeep_links (s := { s with heap := h }) (d := .right) hn hS.cell
        (hlive hS.right) (hlive hS.left)).trans
          (by rw [if_pos (hS.topRight_gt.2 hlt)]; rfl)
    · exact (run_rotateDeep_links (s := { s with heap := h }) (d := .left) hn hS.cell
        (hlive hS.left) (hlive hS.right)).trans
          (by rw [if_pos (hS.topLeft_gt.2 hlt)]; rfl)
  · rw [if_neg hlt]
    cases d
    · exact (run_rotateDeep_links (s := { s with heap := h }) (d := .right) hn hS.cell
        (hlive hS.right) (hlive hS.left)).trans
          (by rw [if_neg (mt hS.topRight_gt.1 hlt)]; rfl)
    · exact (run_rotateDeep_links (s := { s with heap := h }) (d := .left) hn hS.cell
        (hlive hS.left) (hlive hS.right)).trans
          (by rw [if_neg (mt hS.topLeft_gt.1 hlt)]; rfl)

theorem RightBack.run_deep (hRB : RightBack key s d a n v (node b₁ m w b₂) T k h)
    (hS : Sibling h b₁ m w b₂) (hk : ((node b₁ m w b₂).depth : ℤ) - 1 = k + 2) :
    (rebalanceAvlTree (some n)).run { s with heap := h } =
      (if (sub d.flip b₁ b₂).depth > (sub d b₁ b₂).depth then rotateOuter d.flip (some n)
      else rotateInner d.flip (some n)).run { s with heap := h } :=
  hS.run_deep hRB.cell (links_root_ne_none hRB.layout) (by rw [hRB.top, hk])

/-- Which nodes are not which. -/
theorem AvlAt.apart (hA : AvlAt s p (mk d a n v (node b₁ m w b₂))) (hT : ∀ y ∈ T, y ∈ a) :
    m ≠ n ∧ n ∉ T ∧ m ∉ T ∧ (n ∉ strip b₁ ∧ m ∉ strip b₁) ∧ (n ∉ strip b₂ ∧ m ∉ strip b₂) ∧
      (∀ y ∈ T, y ∉ strip b₁ ∧ y ∉ strip b₂) ∧ ∀ y ∈ strip b₁, y ∉ strip b₂ := by
  obtain ⟨hna, hnb, -, hdb, hab⟩ := distinct_mk.1 hA.distinct
  obtain ⟨hm₁, hm₂, -, -, h₁₂⟩ := distinct_node.1 hdb
  simp only [mem_node, not_or] at hnb hab
  simp only [mem_strip]
  refine ⟨Ne.symm hnb.1, fun hn => hna (hT n hn), fun hm => (hab m (hT m hm)).1 rfl, ⟨hnb.2.1, hm₁⟩,
    ⟨hnb.2.2, hm₂⟩, fun y hy => (hab y (hT y hy)).2, h₁₂⟩

/-- A single rotation to the right. -/
theorem Right.up_ll (hA : AvlAt s p (mk .right a n v (node b₁ m w b₂)))
    (hd : Descends key v.1 .right) (hB : Back key s .right a n v (node b₁ m w b₂) r h₁ h)
    (hR : Right key a T k r h₁) (hb : ∀ e ∈ (node b₁ m w b₂).records, e.2.minKey ≠ key)
    (hk : ((node b₁ m w b₂).depth : ℤ) - 1 = k + 2) (hheavy : b₂.depth < b₁.depth) :
    ∃ h', Leaves key s (mk .right a n v (node b₁ m w b₂)) (some m) h' ∧
      Right key (mk .right a n v (node b₁ m w b₂))
        (node (strip b₁) m w.1 (node (strip b₂) n v.1 T))
        (((node b₁ m w b₂).depth : ℤ) - 1) (some m) h' := by
  have hRB := hB.right hA hR
  have hS := hB.sibling_at hA
  obtain ⟨hmn, hnT, hmT, ⟨hn₁, hm₁⟩, ⟨hn₂, hm₂⟩, -, -⟩ := hA.apart hRB.mem
  have hdepth : b₁.depth ≤ b₂.depth + 1 := by
    obtain ⟨-, -, -, hbb⟩ := balanced_mk.1 hA.balanced
    exact hbb.1
  obtain ⟨h', hrun, hl, hh, hsame⟩ := run_llRotate_links (s := { s with heap := h }) (a := b₁.root)
    (b := b₂.root) hmn hRB.cell hS.cell (root_strip b₁ ▸ elsewhere_root hS.left hn₁ hm₁).beside
    (root_strip b₂ ▸ links_root_ne_none hS.right) (links_root_ne_none hRB.layout)
  have hreb : (rebalanceAvlTree (some n)).run { s with heap := h } =
      .ok (some m, { s with heap := h' }) := by
    rw [hRB.run_deep hS hk, if_pos (by simpa using hheavy)]
    exact hrun
  -- the three subtrees are where they were
  have hsub : ∀ {u : BinTree Payload} {q : Ptr}, linkLayout.TreeAt (links h) none u → n ∉ u → m ∉ u →
      linkLayout.TreeAt (links h') q u := by
    intro u q hu hnu hmu
    rw [hl, linkLayout.treeAt_update hmu, linkLayout.treeAt_update hnu]
    exact linkLayout_treeAt_parent.1 hu
  refine ⟨h', hB.leaves hreb fun y hy => ?_, rfl, ⟨?_, hsub hS.left hn₁ hm₁, ?_,
    hsub hS.right hn₂ hm₂, hsub hRB.layout hnT hmT⟩, ?_, ?_⟩
  · simp only [mem_mk, mem_node, not_or] at hy
    exact hsame y hy.1 hy.2.2.1 fun heq => hy.2.2.2.2 (mem_of_root heq)
  · rw [hl, Function.update_self]
    simp
  · rw [hl, Function.update_of_ne hmn.symm, Function.update_self]
    simp
  · rw [← hR.entries_mk hd hb, mk]
    simp
  · rw [topHeight_some, hh, Function.update_self]
    change max (topHeight (heights h) b₁.root)
      (max (topHeight (heights h) b₂.root) (topHeight (heights h) T.root) + 1) + 1 = _
    rw [hS.topLeft, hS.topRight, hRB.top]
    rw [depth_node] at hk ⊢
    omega

/-- A single rotation to the left, with nothing left on the left. -/
theorem Right.up_rr (hA : AvlAt s p (mk .left a n v (node b₁ m w b₂)))
    (hd : Descends key v.1 .left) (hB : Back key s .left a n v (node b₁ m w b₂) r h₁ h)
    (hR : Right key a nil (-1) r h₁) (hb : ∀ e ∈ (node b₁ m w b₂).records, e.2.minKey ≠ key)
    (hdepth : (node b₁ m w b₂).depth = 2) (hheavy : b₁.depth < b₂.depth) :
    ∃ h', Leaves key s (mk .left a n v (node b₁ m w b₂)) (some m) h' ∧
      Right key (mk .left a n v (node b₁ m w b₂)) (node (node nil n v.1 nil) m w.1 (strip b₂)) 1
        (some m) h' := by
  have hRB := hB.right hA hR
  have hS := hB.sibling_at hA
  obtain ⟨hmn, -, -, -, ⟨hn₂, hm₂⟩, -, -⟩ := hA.apart hRB.mem
  have hb₂ : b₂.depth = 1 := by
    rw [depth_node] at hdepth
    omega
  obtain rfl : b₁ = nil := depth_eq_zero.1 (by omega)
  obtain ⟨h', hrun, hl, hh, hsame⟩ := run_rrRotate_links (s := { s with heap := h }) (a := b₂.root)
    (c := none) hmn hRB.cell hS.cell (root_strip b₂ ▸ elsewhere_root hS.right hn₂ hm₂).beside
    (by simp)
  have hreb : (rebalanceAvlTree (some n)).run { s with heap := h } =
      .ok (some m, { s with heap := h' }) := by
    rw [hRB.run_deep hS (by omega), if_pos (by simpa using hheavy)]
    exact hrun
  refine ⟨h', hB.leaves hreb fun y hy => ?_, rfl, ⟨?_, ⟨?_, trivial, trivial⟩, ?_⟩, ?_, ?_⟩
  · simp only [mem_mk, mem_node, not_or] at hy
    exact hsame y hy.1 hy.2.2.1 (by simp)
  · rw [hl, Function.update_self]
    simp
  · rw [hl, Function.update_of_ne hmn.symm, Function.update_self]
    rfl
  · rw [hl, linkLayout.treeAt_update hm₂, linkLayout.treeAt_update hn₂]
    exact linkLayout_treeAt_parent.1 hS.right
  · rw [← hR.entries_mk hd hb, mk]
    simp
  · rw [topHeight_some, hh, Function.update_self]
    change max (topHeight (heights h) b₂.root) (-1 + 1) + 1 = 1
    rw [hS.topRight, hb₂]
    rfl

/-- A double rotation to the left, with a leaf left on the left. -/
theorem Right.up_rl {j : ℕ} {x : Payload} (hA : AvlAt s p (mk .left a n v (node b₁ m w b₂)))
    (hd : Descends key v.1 .left) (hB : Back key s .left a n v (node b₁ m w b₂) r h₁ h)
    (hR : Right key a (node nil j x nil) 0 r h₁)
    (hb : ∀ e ∈ (node b₁ m w b₂).records, e.2.minKey ≠ key) (ha : a.depth = 2)
    (hdepth : (node b₁ m w b₂).depth = 3) (hheavy : ¬ b₁.depth < b₂.depth) :
    ∃ h', Leaves key s (mk .left a n v (node b₁ m w b₂)) (some n) h' ∧
      Right key (mk .left a n v (node b₁ m w b₂))
        (mk .left (node nil j x nil) n v.1 (strip (node b₁ m w b₂)))
        (((mk .left a n v (node b₁ m w b₂)).depth : ℤ) - 1) (some n) h' := by
  have hRB := hB.right hA hR
  have hS := hB.sibling_at hA
  obtain ⟨hmn, hnT, hmT, ⟨hn₁, hm₁⟩, ⟨hn₂, hm₂⟩, hTb, -⟩ := hA.apart hRB.mem
  have hjn : j ≠ n := by
    rintro rfl
    simp at hnT
  have hjm : j ≠ m := by
    rintro rfl
    simp at hmT
  have hj := hTb j (by simp)
  have hcell : links h n = some (v.1, some j, some m) := hRB.cell
  have hjcell : links h j = some (x, none, none) := hRB.layout.1
  have hsib : Elsewhere h n j (some m) := by
    rintro i ⟨⟩
    exact ⟨by rw [hS.cell]; simp, hmn, hjm.symm⟩
  obtain ⟨h', hrun, hl, hhn, -, -, hsame⟩ := run_rlRotate_links (s := { s with heap := h }) hjn hcell
    hjcell (elsewhere_none _ _ _) (by simp) hsib
  have hl' : links h' = links h := by
    rw [hl, ← hjcell, Function.update_eq_self]
  have hreb : (rebalanceAvlTree (some n)).run { s with heap := h } =
      .ok (some n, { s with heap := h' }) := by
    rw [hRB.run_deep hS (by omega), if_neg (by simpa using hheavy)]
    exact hrun
  refine ⟨h', hB.leaves hreb fun y hy => ?_, root_mk .., ?_, hR.entries_mk hd hb, ?_⟩
  · simp only [mem_mk, not_or] at hy
    exact hsame y hy.1 (fun hyj => hy.2.1 (hyj ▸ hRB.mem j (by simp))) (by simp) (by simp)
  · rw [hl']
    refine linkLayout.treeAt_mk.2 ⟨?_, linkLayout_treeAt_parent.1 hRB.layout,
      treeAt_links hB.sibling⟩
    rw [hcell]
    rfl
  · rw [topHeight_some, hhn]
    change max (topHeight (heights h) (some m)) (-1 + 1) + 1 = _
    rw [hS.top, depth_mk, hdepth, ha]
    rfl

end Level

end StructLib.Avl
