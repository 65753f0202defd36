import StructLib.Avltree.NotAvlTree

set_option autoImplicit false

/-! # What a removal leaves

When the tree that `RemoveAvlEntry` stores is an AVL tree again, with right heights and parent links
(`remainsAvl_iff_tidy`). The removed node has to be a leaf, or the root of the whole tree with few
nodes below it. A leaf's ancestors keep their heights, so up to a sibling that is deeper by one
than what is left on the other side, every sibling has to be deeper by two, and one that the code
rotates right. -/

namespace StructLib.Avl

open BinTree

/-! ## Tidy removals -/

/-- What the code does with a sibling that is deeper by two than the subtree on the side `d`, which
    is of depth `k` now, is the rotation for it. -/
def rotatesWell (d : Dir) (k : ℕ) (sib : Tree) : Bool :=
  match d with
  | .left => decide (k = 0) && heavy .right sib
  | .right => heavy .left sib

/-- Where the subtree below `fs` has become lower by one and is of depth `k` now: a sibling that is
    deeper by one makes up for it; one that is deeper by two is rotated, and the whole becomes lower
    by one. -/
def tidyUp : ℕ → Ctx (Payload × ℤ) → Bool
  | _, .root => true
  | k, .up d _ _ sib fs =>
      if sib.depth = k + 1 then true
      else if sib.depth = k + 2 then rotatesWell d k sib && tidyUp (k + 2) fs
      else false

/-- A root with these subtrees, not both empty, can be removed: there is one leaf below it, or the
    right subtree is a leaf and the left one has a leaf on its left, and nothing else. -/
def tidyHeir : Tree → Tree → Bool
  | _, nil => true
  | nil, _ => true
  | node (node ..) _ _ nil, node nil _ _ nil => true
  | _, _ => false

/-- The node to remove is a leaf, or the root. -/
def tidyFound : Tree → Tree → Ctx (Payload × ℤ) → Bool
  | nil, nil, fs => tidyUp 0 fs
  | l, r, .root => tidyHeir l r
  | _, _, .up .. => false

/-- The search for the key in the tree below `fs` ends at such a node, or at none. -/
def tidyAt (key : UInt32) : Ctx (Payload × ℤ) → Tree → Bool
  | _, nil => true
  | fs, node l n v r =>
      if key = v.1.minKey then tidyFound l r fs
      else if key < v.1.minKey then tidyAt key (.up .left n v r fs) l
      else tidyAt key (.up .right n v l fs) r

/-- The removal of the key from `t` leaves no wrong height and no wrong link. -/
def Tidy (key : UInt32) (t : Tree) : Prop := tidyAt key .root t = true

instance (key : UInt32) (t : Tree) : Decidable (Tidy key t) :=
  inferInstanceAs (Decidable (tidyAt key .root t = true))

/-! ## AVL trees on the way up -/

/-- Called for `a`, whose root has the parent `p`, the removal leaves an AVL tree of depth `k`. -/
def Refits (key : UInt32) (s : AvlMem) (p : Ptr) (a : Tree) (k : ℕ) : Prop :=
  ∃ T r h, Leaves key s a r h ∧ T.root = r ∧ AvlAt ⟨h, none⟩ p T ∧ T.depth = k ∧ ∀ y ∈ T, y ∈ a

section Level

variable {key : UInt32} {s : AvlMem} {p q r : Ptr} {d : Dir} {a b b₁ b₂ T : Tree} {n m k : ℕ}
  {v w : Payload × ℤ} {h₁ h : Cells AvlEntry}

theorem AvlAt.live (hT : AvlAt ⟨h, q⟩ p T) : ∀ j, T.root = some j → links h j ≠ none := by
  intro j hj
  have hlive := links_root_ne_none (treeAt_links (q := none) hT.layout) j
  rw [root_strip] at hlive
  exact hlive hj

theorem AvlAt.top (hT : AvlAt ⟨h, q⟩ p T) :
    topHeight (heights h) T.root = (T.depth : ℤ) - 1 := topHeight_root hT.layout hT.measured

theorem AvlAt.enclosed (hT : AvlAt ⟨h, q⟩ p T) (hmem : ∀ y ∈ T, y ∈ a) :
    Enclosed a {y | y ∈ T} T.root h :=
  ⟨hmem, fun _ hy _ hcell => linkIn_of_treeAt (treeAt_links (q := none) hT.layout)
    (fun _ hk => mem_strip.1 hk) (mem_strip.2 hy) hcell, fun _ hk => mem_of_root hk⟩

/-- The memory around the AVL tree `T`. -/
theorem AvlAt.back (hT : AvlAt ⟨h₁, q⟩ p T) (hA : AvlAt s r (mk d a n v b))
    (hB : Back key s d a n v b T.root h₁ h) (hmem : ∀ y ∈ T, y ∈ a) : AvlAt ⟨h, q⟩ p T := by
  obtain ⟨hna, -⟩ := distinct_mk.1 hA.distinct
  refine ⟨avlLayout.treeAt_congr hT.layout fun y hy => hB.below y ?_, hT.distinct, hT.measured,
    hT.balanced⟩
  rintro rfl
  exact hna (hmem y hy)

/-- Without a rotation the node is over `T` in place of `a`. -/
theorem AvlAt.up_even (hA : AvlAt s p (mk d a n v b)) (hB : Back key s d a n v b T.root h₁ h)
    (hn : h n = some (avlLayout.cellOf d v T.root b.root p)) (hT : AvlAt ⟨h₁, none⟩ (some n) T)
    (hmem : ∀ y ∈ T, y ∈ a) (hdepth : max T.depth b.depth = max a.depth b.depth)
    (hle : T.depth ≤ b.depth + 1) (hge : b.depth ≤ T.depth + 1) :
    AvlAt ⟨h, none⟩ p (mk d T n v b) := by
  obtain ⟨hna, hnb, -, hdb, hab⟩ := distinct_mk.1 hA.distinct
  obtain ⟨hv, -, hmb⟩ := measured_mk.1 hA.measured
  obtain ⟨-, -, -, hbb⟩ := balanced_mk.1 hA.balanced
  have hT' := hT.back hA hB hmem
  refine ⟨avlLayout.treeAt_mk.2 ⟨hn, hT'.layout, hB.sibling⟩, distinct_mk.2 ⟨?_, hnb, hT.distinct,
    hdb, fun y hy => hab y (hmem y hy)⟩, measured_mk.2 ⟨?_, hT.measured, hmb⟩,
    balanced_mk.2 ⟨hle, hge, hT.balanced, hbb⟩⟩
  · exact fun hnT => hna (hmem n hnT)
  · rw [hv, hdepth]

theorem Refits.up_even (hA : AvlAt s p (mk d a n v b)) (hd : Descends key v.1 d)
    (href : Refits key s (some n) a k) (hdepth : max k b.depth = max a.depth b.depth)
    (hle : k ≤ b.depth + 1) (hge : b.depth ≤ k + 1) :
    Refits key s p (mk d a n v b) (mk d a n v b).depth := by
  obtain ⟨T, r, h₁, hL, rfl, hT, rfl, hmem⟩ := href
  obtain ⟨h, hB, hn⟩ := hL.back_cell hA hd
  have hreb := hB.run_even hA (fun j hj => hmem j (mem_of_root hj)) hT.live
    (by rw [hT.top]; omega) (by rw [hT.top]; omega)
  refine ⟨mk d T n v b, some n, h, hB.leaves hreb fun _ _ => rfl, root_mk .., hA.up_even hB hn hT hmem
    hdepth hle hge, by rw [depth_mk, depth_mk, hdepth], fun y hy => ?_⟩
  rcases mem_mk.1 hy with rfl | hy | hy
  · exact mem_mk.2 (.inl rfl)
  · exact mem_mk.2 (.inr (.inl (hmem y hy)))
  · exact mem_mk.2 (.inr (.inr hy))

/-- The height of the node stays, but what is below has become lower. -/
theorem Refits.stale (hA : AvlAt s p (mk d a n v b)) (hd : Descends key v.1 d)
    (href : Refits key s (some n) a k) (ha : a.depth = k + 1) (hb : b.depth = k) :
    Spoilt key s p (mk d a n v b) := by
  obtain ⟨T, r, h₁, hL, rfl, hT, rfl, hmem⟩ := href
  obtain ⟨h, hB⟩ := hL.back hA hd
  have hreb := hB.run_even hA (fun j hj => hmem j (mem_of_root hj)) hT.live
    (by rw [hT.top]; omega) (by rw [hT.top]; omega)
  obtain ⟨hL', c, e, hT'⟩ := hB.topped hA (hT.enclosed hmem) hT.live hreb
  refine .unfit hL' hT' fun q T' hroot hAT => ?_
  obtain ⟨A, v', B, rfl, hrootA, hrootB⟩ := hAT.exists_mk hroot hB.cell
  have htopA := hAT.sub.top
  have htopB := hAT.sibling.top
  rw [hrootA, (hT.back hA hB hmem).top] at htopA
  rw [hrootB, topHeight_root hB.sibling (measured_mk.1 hA.measured).2.2] at htopB
  -- the height that should be stored
  have htop := hAT.top
  rw [root_mk, topHeight_some, hB.height, depth_mk, depth_mk] at htop
  omega

/-- The tree with the AVL tree `T` in place of `a`, before a rotation. -/
theorem AvlAt.layout_mk (hA : AvlAt s p (mk d a n v b)) (hB : Back key s d a n v b T.root h₁ h)
    (hn : h n = some (avlLayout.cellOf d v T.root b.root p)) (hT : AvlAt ⟨h₁, none⟩ (some n) T)
    (hmem : ∀ y ∈ T, y ∈ a) :
    avlLayout.TreeAt h p (mk d T n v b) ∧ (mk d T n v b).Distinct := by
  obtain ⟨hna, hnb, -, hdb, hab⟩ := distinct_mk.1 hA.distinct
  refine ⟨avlLayout.treeAt_mk.2 ⟨hn, (hT.back hA hB hmem).layout, hB.sibling⟩,
    distinct_mk.2 ⟨fun hnT => hna (hmem n hnT), hnb, hT.distinct, hdb, fun y hy =>
      hab y (hmem y hy)⟩⟩

/-- The single rotation to the right. -/
theorem Refits.up_ll (hA : AvlAt s p (mk .right a n v (node b₁ m w b₂)))
    (hd : Descends key v.1 .right) (href : Refits key s (some n) a k)
    (hk : (node b₁ m w b₂).depth = k + 2) (hheavy : b₂.depth < b₁.depth) :
    Refits key s p (mk .right a n v (node b₁ m w b₂)) (k + 2) := by
  obtain ⟨T, r, h₁, hL, rfl, hT, rfl, hmem⟩ := href
  obtain ⟨h, hB, hn⟩ := hL.back_cell hA hd
  obtain ⟨ht, hdist⟩ := hA.layout_mk hB hn hT hmem
  obtain ⟨-, -, -, hm₁, hm₂⟩ := measured_mk.1 hA.measured
  obtain ⟨-, -, -, hbb⟩ := balanced_mk.1 hA.balanced
  obtain ⟨hle, -, hb₁, hb₂⟩ := hbb
  have hT' := hT.back hA hB hmem
  obtain ⟨h', hrun, ht', hsame⟩ := run_llRotate (s := { s with heap := h }) hdist ht hm₁ hm₂ hT.measured
  have hreb : (rebalanceAvlTree (some n)).run { s with heap := h } =
      .ok (some m, { s with heap := h' }) := by
    rw [(hB.sibling_at hA).run_deep hB.cell hT'.live (by rw [hT'.top]; omega),
      if_pos (by simpa using hheavy)]
    exact hrun
  rw [depth_node] at hk
  have hsub : ∀ y, y ∈ mk .right T n v (node b₁ m w b₂) → y ∈ mk .right a n v (node b₁ m w b₂) := by
    intro y hy
    rw [mem_mk] at hy ⊢
    exact hy.imp_right (.imp_left (hmem y))
  refine ⟨_, some m, h', hB.leaves hreb fun y hy => hsame y fun hy' => hy (hsub y hy'), rfl,
    ⟨ht', ?_, ?_, ?_⟩, ?_, fun y hy => hsub y ?_⟩
  · exact (distinct_congr_records (by simp [mk])).2 hdist
  · exact ⟨rfl, hm₁, rfl, hm₂, hT.measured⟩
  · refine ⟨?_, ?_, hb₁, ?_, ?_, hb₂, hT.balanced⟩
    · rw [join, depth_node]
      omega
    · rw [join, depth_node]
      omega
    · omega
    · omega
  · rw [join, join, depth_node, depth_node]
    omega
  · rw [join, join] at hy
    rw [mk]
    simp only [mem_node] at hy ⊢
    tauto

/-- The single rotation to the left. -/
theorem Refits.up_rr (hA : AvlAt s p (mk .left a n v (node b₁ m w b₂)))
    (hd : Descends key v.1 .left) (href : Refits key s (some n) a 0)
    (hk : (node b₁ m w b₂).depth = 2) (hheavy : b₁.depth < b₂.depth) :
    Refits key s p (mk .left a n v (node b₁ m w b₂)) 2 := by
  obtain ⟨T, r, h₁, hL, rfl, hT, hdepth, hmem⟩ := href
  obtain rfl := depth_eq_zero.1 hdepth
  obtain ⟨h, hB, hn⟩ := hL.back_cell hA hd
  obtain ⟨ht, hdist⟩ := hA.layout_mk hB hn hT hmem
  obtain ⟨-, -, -, -, hm₂⟩ := measured_mk.1 hA.measured
  obtain ⟨-, -, -, hbb⟩ := balanced_mk.1 hA.balanced
  obtain ⟨-, -, -, hb₂⟩ := hbb
  rw [depth_node] at hk
  obtain rfl : b₁ = nil := depth_eq_zero.1 (by omega)
  have hT' := hT.back hA hB hmem
  obtain ⟨h', hrun, ht', hsame⟩ := run_rrRotate (s := { s with heap := h }) hdist ht hm₂
  have hreb : (rebalanceAvlTree (some n)).run { s with heap := h } =
      .ok (some m, { s with heap := h' }) := by
    rw [(hB.sibling_at hA).run_deep hB.cell hT'.live (by rw [hT'.top, depth_node, depth_nil]; omega),
      if_pos (by simpa using hheavy)]
    exact hrun
  have hsub : ∀ y, y ∈ mk .left nil n v (node nil m w b₂) → y ∈ mk .left a n v (node nil m w b₂) := by
    intro y hy
    rw [mem_mk] at hy ⊢
    exact hy.imp_right (.imp_left (hmem y))
  refine ⟨_, some m, h', hB.leaves hreb fun y hy => hsame y fun hy' => hy (hsub y hy'), rfl,
    ⟨ht', ?_, ?_, ?_⟩, ?_, fun y hy => hsub y ?_⟩
  · exact (distinct_congr_records (by simp [mk])).2 hdist
  · exact ⟨rfl, ⟨rfl, trivial, trivial⟩, hm₂⟩
  · refine ⟨?_, ?_, ⟨by simp, by simp, trivial, trivial⟩, hb₂⟩
    · rw [join, depth_node, depth_nil]
      omega
    · rw [join, depth_node, depth_nil]
      omega
  · rw [join, join, depth_node, depth_node, depth_nil]
    omega
  · rw [join, join] at hy
    rw [mk]
    simp only [mem_node, not_mem_nil] at hy ⊢
    tauto

/-- What an AVL tree looks like from above. -/
theorem AvlAt.topped {j : ℕ} (hT : AvlAt ⟨h, q⟩ p T) (hroot : T.root = some j) (hmem : ∀ y ∈ T, y ∈ a)
    (hdepth : T.depth ≤ a.depth) : ∃ x c e, Topped a j x c e h := by
  have hE := hT.enclosed hmem
  have htop := hT.top
  cases T with
  | nil => simp at hroot
  | node A i u B =>
      obtain rfl : i = j := by simpa using hroot
      obtain ⟨hni, -⟩ := distinct_node.1 hT.distinct
      have hA : AvlAt ⟨h, q⟩ (some i) A := AvlAt.sub (d := .left) hT
      have hB : AvlAt ⟨h, q⟩ (some i) B := AvlAt.sub (d := .right) hT
      rw [root_node, topHeight_some, depth_node] at htop
      rw [depth_node] at hdepth
      refine ⟨u.1, A.root, B.root, ⟨_, hE⟩, links_of_cell hT.layout.1, fun k hk => ⟨hA.live k hk, ?_⟩,
        hB.live, by omega, ?_, .inl (by omega)⟩
      · rintro rfl
        exact hni (mem_of_root hk)
      · rw [hA.top]
        omega

/-- A sibling that is deeper by two and rotated wrong. -/
theorem Refits.up_wrong (hA : AvlAt s p (mk d a n v b)) (hd : Descends key v.1 d)
    (href : Refits key s (some n) a k) (hk : b.depth = k + 2) (ha : a.depth = k + 1)
    (hwrong : rotatesWell d k b = false) : Spoilt key s p (mk d a n v b) := by
  obtain ⟨T, r, h₁, hL, rfl, hT, rfl, hmem⟩ := href
  obtain ⟨h, hB⟩ := hL.back hA hd
  have hT' := hT.back hA hB hmem
  cases hT₀ : T.root with
  | some j =>
      rw [hT₀] at hL hB
      obtain ⟨x, c, e, hTop⟩ := hT.topped hT₀ hmem (by omega)
      have htop := hT'.top
      rw [hT₀, topHeight_some] at htop
      refine hTop.up_deep hA hB (by omega) ?_
      rintro rfl
      exact hwrong
  | none =>
      obtain rfl := root_eq_none.1 hT₀
      cases b with
      | nil => simp at hk
      | node b₁ m w b₂ =>
          -- a double rotation, which follows the NULL link
          have hdeep := (hB.sibling_at hA).run_deep (s := s) hB.cell hT'.live
            (by rw [hT'.top]; omega)
          have hnot : ¬ (sub d.flip b₁ b₂).depth > (sub d b₁ b₂).depth := by
            intro hgt
            cases d
            · have hheavy : heavy .right (node b₁ m w b₂) = true := heavy_right.2 hgt
              simp [rotatesWell, hheavy] at hwrong
            · have hheavy : heavy .left (node b₁ m w b₂) = true := heavy_left.2 hgt
              simp [rotatesWell, hheavy] at hwrong
          rw [if_neg hnot] at hdeep
          cases d
          · exact .faults (hB.faults (hdeep.trans
              (run_rlRotate_none (s := { s with heap := h }) hB.cell)))
          · exact .faults (hB.faults (hdeep.trans
              (run_lrRotate_none (s := { s with heap := h }) hB.cell)))

/-- A sibling that is deeper by two is rotated. -/
theorem Refits.up_deep (hA : AvlAt s p (mk d a n v b)) (hd : Descends key v.1 d)
    (href : Refits key s (some n) a k) (hk : b.depth = k + 2) (ha : a.depth = k + 1) :
    if rotatesWell d k b then Refits key s p (mk d a n v b) (k + 2)
    else Spoilt key s p (mk d a n v b) := by
  cases hwell : rotatesWell d k b with
  | false => exact href.up_wrong hA hd hk ha hwell
  | true =>
      cases b with
      | nil => simp at hk
      | node b₁ m w b₂ =>
          cases d with
          | left =>
              have hboth : (decide (k = 0) && heavy .right (node b₁ m w b₂)) = true := hwell
              obtain ⟨hzero, hheavy⟩ := Bool.and_eq_true_iff.1 hboth
              obtain rfl := of_decide_eq_true hzero
              exact href.up_rr hA hd hk (heavy_right.1 hheavy)
          | right =>
              have hheavy : heavy .left (node b₁ m w b₂) = true := hwell
              exact href.up_ll hA hd hk (heavy_left.1 hheavy)

end Level

/-! ## The removed node -/

section Found

variable {key : UInt32} {s : AvlMem} {p q : Ptr} {d : Dir} {a l r : Tree} {n m : ℕ}
  {v : Payload × ℤ} {x : Payload} {h : Cells AvlEntry} {c e : BinTree Payload} {k : ℤ}

theorem Orphan.unfit (ho : Orphan m h) : Unfit (some n) (some m) h := by
  intro q T hroot hT
  cases T with
  | nil => simp at hroot
  | node A i u B =>
      obtain rfl : i = m := by simpa using hroot
      have hparent : (some n : Ptr) = none := ho _ hT.layout.1
      simp at hparent

/-- The height stored at the root is not more than that of a child. -/
theorem unfit_of_low {c e : Ptr} (hn : links h n = some (sideCell d x c e))
    (hlow : heights h n ≤ topHeight (heights h) c) : Unfit p (some n) h := by
  intro q T hroot hT
  obtain ⟨A, u, B, rfl, hA, -⟩ := hT.exists_mk hroot hn
  have htop := hT.top
  have htopA := hT.sub.top
  rw [root_mk, topHeight_some, depth_mk] at htop
  rw [hA] at htopA
  omega

theorem Right.topped (hR : Right key a (node c m x e) k (some m) h) (hd : a.Distinct) (hk₀ : 0 ≤ k)
    (hk : k < a.depth) (hlow : topHeight (heights h) c.root < (a.depth : ℤ) - 1) :
    Topped a m x c.root e.root h := by
  obtain ⟨hcell, hc, he⟩ := hR.layout
  obtain ⟨hmc, -⟩ := distinct_node.1 (hR.distinct hd)
  have hheight : heights h m = k := hR.height
  refine ⟨⟨{y | y ∈ node c m x e}, fun y hy => hR.mem hy, fun y hy cell hy' => ?_, fun y hy => ?_⟩,
    hcell, fun i hi => ⟨links_root_ne_none hc i hi, ?_⟩, links_root_ne_none he, by omega,
    fun _ => hlow, .inl (by omega)⟩
  · exact linkIn_of_treeAt hR.layout (fun _ hi => hi) hy hy'
  · exact mem_of_root hy
  · rintro rfl
    exact hmc (mem_of_root hi)

/-- A replacement without a child. -/
theorem Right.avlAt_leaf (hR : Right key a (node nil m x nil) 0 (some m) h) (ho : Orphan m h) :
    AvlAt ⟨h, q⟩ none (node nil m (x, 0) nil) := by
  obtain ⟨p', hm⟩ := links_eq_some.1 hR.layout.1
  obtain rfl : p' = none := ho _ hm
  have hheight : heights h m = 0 := hR.height
  rw [hheight] at hm
  exact ⟨⟨hm, trivial, trivial⟩, by simp, ⟨rfl, trivial, trivial⟩, by simp [BinTree.Balanced]⟩

/-- What is left in the place of a node with children. -/
structure Heir (key : UInt32) (s : AvlMem) (t : Tree) (tidy : Bool) (j : ℕ) (x : Payload)
    (c e : Ptr) (h : Cells AvlEntry) : Prop where
  intro ::
  leaves : Leaves key s t (some j) h
  topped : Topped t j x c e h
  orphan : Orphan j h
  fits : tidy = true → ∃ T : Tree, T.root = some j ∧ AvlAt ⟨h, none⟩ none T
  unfit : tidy = false → Unfit none (some j) h

theorem heir_leaf {w : Payload × ℤ} (hA : AvlAt s p (node l n v (node nil m w nil)))
    (hkey : v.1.minKey = key) (hl : ∀ e ∈ l.records, e.2.minKey ≠ key) (hw : w.1.minKey ≠ key) :
    (tidyHeir l (node nil m w nil) = false ∧ Faults key s (node l n v (node nil m w nil))) ∨
      ∃ j x c e h, Heir key s (node l n v (node nil m w nil)) (tidyHeir l (node nil m w nil)) j x c e
        h := by
  have hdepth : l.depth ≤ 2 := hA.balanced.1
  rcases l with _ | ⟨la, j, u, _ | ⟨lba, i, y, lbb⟩⟩
  · obtain ⟨h, hL, hR, ho, htop⟩ := leaves_right hA hkey hl hw (by simp)
    exact .inr ⟨_, _, _, _, h, hL, hR.topped hA.distinct (Int.le_refl 0) (by simp) (by simp), ho,
      fun _ => ⟨_, rfl, hR.avlAt_leaf ho⟩, fun hfalse => absurd hfalse (by simp [tidyHeir])⟩
  · by_cases hla : la = nil
    · subst hla
      obtain ⟨h, hL, hR, ho, htop⟩ := leaves_right hA hkey hl hw (by simp)
      refine .inr ⟨_, _, _, _, h, hL, hR.topped hA.distinct (Int.le_refl 0) (by simp) ?_, ho,
        fun htrue => absurd htrue (by simp [tidyHeir]), fun _ => unfit_of_low (d := .left)
          hR.layout.1 ?_⟩
      · rw [root_strip, htop]
        simp
      · rw [root_strip, htop]
        exact hR.height.le
    · have hla' : la.depth ≠ 0 := mt depth_eq_zero.1 hla
      rw [depth_node, depth_nil] at hdepth
      have hla₁ : la.depth = 1 := by omega
      obtain ⟨h, hL, hR, hAT⟩ := leaves_rotated hA hkey hl hw hla₁
      have htop := (AvlAt.sub (d := .left) hAT).top
      refine .inr ⟨_, _, _, _, h, hL, hR.topped hA.distinct (by omega) ?_ ?_, fun cell hcell => ?_,
        fun _ => ⟨_, rfl, hAT⟩, fun hfalse => ?_⟩
      · simp only [depth_node, depth_nil, hla₁]
        omega
      · rw [root_strip, htop]
        simp only [depth_node, depth_nil, hla₁]
        omega
      · obtain rfl := Option.some_inj.1 (hAT.layout.1.symm.trans hcell)
        rfl
      · obtain ⟨i, y, rfl⟩ := depth_eq_one.1 hla₁
        simp [tidyHeir] at hfalse
  · refine .inl ⟨?_, faults_found hA hkey (by simp)⟩
    cases la <;> rfl

theorem tidyHeir_deep {rr : Tree} {w : Payload × ℤ} {rl : Tree} (hl : l ≠ nil)
    (hr : rl ≠ nil ∨ rr ≠ nil) : tidyHeir l (node rl m w rr) = false := by
  cases l with
  | nil => exact absurd rfl hl
  | node la j u lb =>
      cases la with
      | nil => rfl
      | node _ _ _ _ =>
          cases lb with
          | node _ _ _ _ => rfl
          | nil =>
              cases rl with
              | node _ _ _ _ => rfl
              | nil =>
                  cases rr with
                  | nil => simp at hr
                  | node _ _ _ _ => rfl

/-- The right child has a child. -/
theorem heir_deep {rl rr : Tree} {w : Payload × ℤ} (hA : AvlAt s p (node l n v (node rl m w rr)))
    (hkey : v.1.minKey = key) (hl : ∀ e ∈ l.records, e.2.minKey ≠ key)
    (hr : ∀ e ∈ (node rl m w rr).records, e.2.minKey ≠ key) (hne : rl ≠ nil ∨ rr ≠ nil) :
    ∃ j x c e h, Heir key s (node l n v (node rl m w rr)) (tidyHeir l (node rl m w rr)) j x c e h := by
  obtain ⟨-, hle, -⟩ := hA.balanced
  have hdepth : 2 ≤ (node rl m w rr).depth := by
    rw [depth_node]
    rcases hne with hne | hne
    · have hne' := mt depth_eq_zero.1 hne
      omega
    · have hne' := mt depth_eq_zero.1 hne
      omega
  have hl₀ : l ≠ nil := by
    rintro rfl
    rw [depth_nil] at hle
    omega
  rw [tidyHeir_deep hl₀ hne]
  by_cases hrl : rl = nil
  · subst hrl
    obtain ⟨h, hL, ⟨C, hE, -⟩, hcell, hlive, htop, hheight, ho⟩ :=
      lost_found hA hkey hl (hne.resolve_left (by simp))
    obtain ⟨-, -, -, hdr, -⟩ := distinct_node.1 hA.distinct
    obtain ⟨-, hmr, -⟩ := distinct_node.1 hdr
    refine ⟨m, w.1, rr.root, some m, h, hL, ⟨⟨C, hE⟩, hcell, fun i hi => ⟨hlive i hi, ?_⟩, ?_, ?_, ?_,
      .inl ?_⟩, ho, by simp, fun _ => unfit_of_low (d := .right) hcell (Int.le_refl _)⟩
    · rintro rfl
      exact hmr (mem_of_root hi)
    · rintro _ ⟨⟩
      rw [hcell]
      simp
    · omega
    · rw [htop, depth_node, depth_node]
      omega
    · rw [hheight, depth_node, depth_node]
      omega
  · obtain ⟨hlow, hlt⟩ := leftmostHeight_bounds hA.measured.2.2 (by simp)
    obtain ⟨h, j, x, b, hL, -, hR, ho, htop⟩ := leaves_deep hA hkey hl hr hrl
    have hleft : leftmostHeight (node rl m w rr) < rl.depth := by
      cases rl with
      | nil => exact absurd rfl hrl
      | node a₁ i y a₂ => exact (leftmostHeight_bounds hA.measured.2.2.2.1 (by simp)).2
    refine ⟨_, _, _, _, h, hL, hR.topped hA.distinct hlow ?_ ?_, ho, by simp,
      fun _ => unfit_of_low (d := .left) hR.layout.1 ?_⟩
    · rw [depth_node]
      omega
    · rw [root_strip, htop, depth_node]
      omega
    · have hheight : heights h j = leftmostHeight (node rl m w rr) := hR.height
      rw [root_strip, htop, hheight]
      rw [depth_node] at hle
      omega

/-- At the removed node, unless it is a leaf. -/
theorem heir_found (hA : AvlAt s p (node l n v r)) (hkey : v.1.minKey = key)
    (hl : ∀ e ∈ l.records, e.2.minKey ≠ key) (hr : ∀ e ∈ r.records, e.2.minKey ≠ key)
    (hne : l ≠ nil ∨ r ≠ nil) :
    (tidyHeir l r = false ∧ Faults key s (node l n v r)) ∨
      ∃ j x c e h, Heir key s (node l n v r) (tidyHeir l r) j x c e h := by
  rcases r with _ | ⟨rl, m, w, rr⟩
  · -- the left child is a leaf
    have hl' : l.depth ≠ 0 := mt depth_eq_zero.1 (hne.resolve_right (by simp))
    have hdepth : l.depth ≤ 1 := hA.balanced.1
    obtain ⟨m, w, rfl⟩ := depth_eq_one.1 (show l.depth = 1 by omega)
    obtain ⟨h, hL, hR, ho⟩ := leaves_left hA hkey (hl (m, w.1) (by simp))
    exact .inr ⟨_, _, _, _, h, hL, hR.topped hA.distinct (Int.le_refl 0) (by simp) (by simp), ho,
      fun _ => ⟨_, rfl, hR.avlAt_leaf ho⟩, fun hfalse => absurd hfalse (by simp [tidyHeir])⟩
  · by_cases hchild : rl = nil ∧ rr = nil
    · obtain ⟨rfl, rfl⟩ := hchild
      exact heir_leaf hA hkey hl (hr (m, w.1) (by simp))
    · exact .inr (heir_deep hA hkey hl hr (not_and_or.1 hchild))

end Found

/-! ## The whole way up -/

/-- Called for the whole tree `t`, the removal leaves an AVL tree. -/
def Renews (key : UInt32) (s : AvlMem) (t : Tree) : Prop :=
  ∃ T r h, Leaves key s t r h ∧ T.root = r ∧ AvlAt ⟨h, none⟩ none T

/-- `RemoveAvlEntry(tree, key, &root)` returns 0, and at `root` there is an AVL tree again, with right
    heights and parent links. -/
def RemainsAvl (key : UInt32) (s : AvlMem) (t : Tree) : Prop :=
  ∃ s' T, Returns (fun fuel => removeAvlEntry key fuel t.root (some .root)) s 0 s' ∧
    T.root = s'.newRoot ∧ AvlAt s' none T

section Whole

variable {key : UInt32} {s : AvlMem} {t : Tree} {fs : Ctx (Payload × ℤ)} {k : ℕ}

theorem Spoilt.plug (hA : AvlAt s none (fs.plug t)) (hway : Way key fs)
    (hspoilt : Spoilt key s (fs.parent none) t) : Spoilt key s none (fs.plug t) := by
  induction fs generalizing t with
  | root => exact hspoilt
  | up d n v sib fs ih =>
      obtain ⟨hd, -, hway⟩ := hway
      have hA' : AvlAt s none (fs.plug (mk d t n v sib)) := hA
      exact ih hA' hway (hspoilt.up hA'.at_hole hd)

/-- Where the depth is the old one, nothing above changes. -/
theorem Refits.plug_even (hA : AvlAt s none (fs.plug t)) (hway : Way key fs)
    (href : Refits key s (fs.parent none) t t.depth) : Renews key s (fs.plug t) := by
  induction fs generalizing t with
  | root =>
      obtain ⟨T, r, h, hL, hroot, hT, -⟩ := href
      exact ⟨T, r, h, hL, hroot, hT⟩
  | up d n v sib fs ih =>
      obtain ⟨hd, -, hway⟩ := hway
      have hA' : AvlAt s none (fs.plug (mk d t n v sib)) := hA
      obtain ⟨hle, hge, -⟩ := balanced_mk.1 hA'.at_hole.balanced
      exact ih hA' hway (Refits.up_even hA'.at_hole hd href rfl hle hge)

/-- From a subtree on that has become lower by one, `tidyUp` decides. -/
theorem Refits.plug (hA : AvlAt s none (fs.plug t)) (hway : Way key fs) (hdepth : t.depth = k + 1)
    (href : Refits key s (fs.parent none) t k) :
    if tidyUp k fs then Renews key s (fs.plug t) else Spoilt key s none (fs.plug t) := by
  induction fs generalizing t k with
  | root =>
      obtain ⟨T, r, h, hL, hroot, hT, -⟩ := href
      exact ⟨T, r, h, hL, hroot, hT⟩
  | up d n v sib fs ih =>
      obtain ⟨hd, -, hway⟩ := hway
      have hA' : AvlAt s none (fs.plug (mk d t n v sib)) := hA
      have hAt := hA'.at_hole
      obtain ⟨hle, hge, -⟩ := balanced_mk.1 hAt.balanced
      rw [tidyUp]
      by_cases hone : sib.depth = k + 1
      · rw [if_pos hone]
        have href' := Refits.up_even hAt hd href (by omega) (by omega) (by omega)
        have hrenews := Refits.plug_even hA' hway href'
        exact hrenews
      · rw [if_neg hone]
        by_cases htwo : sib.depth = k + 2
        · rw [if_pos htwo]
          refine ite_and (href.up_deep hAt hd htwo hdepth) (fun href' => ih hA' hway ?_ href')
            (Spoilt.plug hA' hway)
          rw [depth_mk]
          omega
        · rw [if_neg htwo]
          have hspoilt := Spoilt.plug hA' hway (href.stale hAt hd hdepth (by omega))
          exact hspoilt

/-- The removal of a leaf. -/
theorem refits_leaf {p : Ptr} {n : ℕ} {v : Payload × ℤ} (hA : AvlAt s p (node nil n v nil))
    (hkey : v.1.minKey = key) : Refits key s p (node nil n v nil) 0 :=
  ⟨nil, none, s.heap, (leaves_leaf hA hkey).1, rfl, ⟨trivial, by simp, trivial, trivial⟩, rfl,
    by simp⟩

/-- At the removed node. -/
theorem renews_found {l r : Tree} {n : ℕ} {v : Payload × ℤ} (hA : AvlAt s none (fs.plug (node l n v r)))
    (hway : Way key fs) (hkey : v.1.minKey = key) (hl : ∀ e ∈ l.records, e.2.minKey ≠ key)
    (hr : ∀ e ∈ r.records, e.2.minKey ≠ key) :
    if tidyFound l r fs then Renews key s (fs.plug (node l n v r))
    else Spoilt key s none (fs.plug (node l n v r)) := by
  by_cases hleaf : l = nil ∧ r = nil
  · obtain ⟨rfl, rfl⟩ := hleaf
    exact Refits.plug hA hway rfl (refits_leaf hA.at_hole hkey)
  · have hheir := heir_found hA.at_hole hkey hl hr (not_and_or.1 hleaf)
    cases fs with
    | root =>
        have hfound : tidyFound l r .root = tidyHeir l r := by
          cases l <;> cases r <;> simp_all [tidyFound]
        rw [hfound]
        obtain ⟨hfalse, hF⟩ | ⟨j, x, c, e, h, hH⟩ := hheir
        · rw [hfalse]
          exact .faults hF
        · cases htidy : tidyHeir l r with
          | false => exact .unfit hH.leaves hH.topped (hH.unfit htidy)
          | true =>
              obtain ⟨T, hroot, hT⟩ := hH.fits htidy
              exact ⟨T, _, h, hH.leaves, hroot, hT⟩
    | up d m w sib fs =>
        have hfound : tidyFound l r (.up d m w sib fs) = false := by
          cases l <;> cases r <;> simp_all [tidyFound]
        rw [hfound]
        refine Spoilt.plug hA hway ?_
        obtain ⟨-, hF⟩ | ⟨j, x, c, e, h, hH⟩ := hheir
        · exact .faults hF
        · exact .unfit hH.leaves hH.topped hH.orphan.unfit

theorem renews_or_spoilt (hA : AvlAt s none t) (hord : KeyOrdered t)
    (hkey : ∃ e ∈ t.records, e.2.minKey = key) :
    if tidyAt key .root t then Renews key s t else Spoilt key s none t := by
  have hA' : AvlAt s none (Ctx.root.plug t) := hA
  revert hA'
  refine search_induction (P := fun fs u => AvlAt s none (fs.plug u) →
    if tidyAt key fs u then Renews key s (fs.plug u) else Spoilt key s none (fs.plug u))
    ?_ ?_ ?_ trivial hord hkey
  · intro fs l n v r hway heq hl hr hA
    rw [tidyAt, if_pos heq]
    exact renews_found hA hway heq.symm hl hr
  · intro fs l n v r heq hlt ih hA
    rw [tidyAt, if_neg heq, if_pos hlt]
    exact ih hA
  · intro fs l n v r heq hlt ih hA
    rw [tidyAt, if_neg heq, if_neg hlt]
    exact ih hA

theorem Spoilt.not_remainsAvl (hspoilt : Spoilt key s none t) : ¬ RemainsAvl key s t := by
  rintro ⟨s', T, hret, hroot, hT⟩
  cases hspoilt with
  | faults hF => exact hF.not_returns hret
  | unfit hL _ hun =>
      obtain ⟨-, rfl⟩ := hret.unique hL.returns
      exact hun _ T hroot hT

theorem remainsAvl_of_tidy (hA : AvlAt s none t) (hord : KeyOrdered t)
    (hkey : ∃ e ∈ t.records, e.2.minKey = key) (htidy : Tidy key t) : RemainsAvl key s t := by
  have hout := renews_or_spoilt hA hord hkey
  rw [if_pos (show tidyAt key .root t = true from htidy)] at hout
  obtain ⟨T, r, h, hL, rfl, hT⟩ := hout
  exact ⟨⟨h, T.root⟩, T, hL.returns, rfl, ⟨hT.layout, hT.distinct, hT.measured, hT.balanced⟩⟩

theorem tidy_of_remainsAvl (hA : AvlAt s none t) (hord : KeyOrdered t)
    (hkey : ∃ e ∈ t.records, e.2.minKey = key) (hremains : RemainsAvl key s t) : Tidy key t := by
  by_contra huntidy
  have hout := renews_or_spoilt hA hord hkey
  rw [if_neg (show ¬ tidyAt key .root t = true from huntidy)] at hout
  exact hout.not_remainsAvl hremains

/-- **When a removal leaves an AVL tree**: the tree that `RemoveAvlEntry` stores has right heights,
    balance and parent links if and only if the removal is tidy. -/
theorem remainsAvl_iff_tidy (hA : AvlAt s none t) (hord : KeyOrdered t)
    (hkey : ∃ e ∈ t.records, e.2.minKey = key) : RemainsAvl key s t ↔ Tidy key t :=
  ⟨tidy_of_remainsAvl hA hord hkey, remainsAvl_of_tidy hA hord hkey⟩

end Whole

/-- After the removal of 10 the rotation has lowered the tree, and its heights are right. -/
theorem remainsAvl_iff_tidy_ten : RemainsAvl 10 fourKeysMem fourKeys :=
  (remainsAvl_iff_tidy avlAt_fourKeys ordered_fourKeys.keyOrdered ⟨(1, newPayload 10 10 []), by
    simp [fourKeys, keyNode], rfl⟩).2 (by decide)

/-- After the removal of 40, which is a leaf, 30 is a leaf and keeps the height 1. -/
theorem leaves_stale_forty :
    ¬ ∀ key s t, AvlAt s none t → KeyOrdered t → (∃ e ∈ t.records, e.2.minKey = key) →
      RemainsAvl key s t := by
  intro hremains
  have hkey : ∃ e ∈ fourKeys.records, e.2.minKey = 40 :=
    ⟨(3, newPayload 40 40 []), by simp [fourKeys, keyNode], rfl⟩
  have hord := ordered_fourKeys.keyOrdered
  have htidy := tidy_of_remainsAvl avlAt_fourKeys hord hkey
    (hremains 40 fourKeysMem fourKeys avlAt_fourKeys hord hkey)
  exact absurd htidy (by decide)

end StructLib.Avl
