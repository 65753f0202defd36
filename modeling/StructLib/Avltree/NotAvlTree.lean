import StructLib.Avltree.Remove

set_option autoImplicit false

/-! # Results that are no AVL trees

Without a rotation `RemoveAvlEntry` leaves the height of a node as it is, also where the subtree
below has become lower, and it sets the parent link of a replacement to NULL. Nothing further up
repairs this: of a result that is no AVL tree the calls above see the root and its two links
(`Topped`), and what they make of it is no AVL tree either (`Spoilt.up`). -/

namespace StructLib.Avl

open BinTree

/-- There is no AVL tree at `r` with the parent `p`. -/
def Unfit (p r : Ptr) (h : Cells AvlEntry) : Prop :=
  ∀ (q : Ptr) (T : Tree), T.root = r → ¬ AvlAt ⟨h, q⟩ p T

/-- The height `k` stored over two subtrees, the one on the right being stored as the deeper one. -/
def Tilted (k left right : ℤ) : Prop := 2 ≤ k ∧ left ≤ right ∧ (left < right → k ≤ right + 1)

/-- A result for `a` with the root `j`, as the calls above see it. The height stored there may be
    more than the old one, after a double rotation to the right. -/
structure Topped (a : Tree) (j : ℕ) (x : Payload) (c e : Ptr) (h : Cells AvlEntry) : Prop where
  intro ::
  enclosed : ∃ C, Enclosed a C (some j) h
  cell : links h j = some (x, c, e)
  left : Beside h j c
  right : ∀ k, e = some k → links h k ≠ none
  nonneg : 0 ≤ heights h j
  low : heights h j < (a.depth : ℤ) - 1 → topHeight (heights h) c < (a.depth : ℤ) - 1
  tilted : heights h j ≤ (a.depth : ℤ) - 1 ∨
    Tilted (heights h j) (topHeight (heights h) c) (topHeight (heights h) e)

/-- Called for `a`, whose root has the parent `p`, the removal does not return, or what it leaves is
    no AVL tree. -/
inductive Spoilt (key : UInt32) (s : AvlMem) (p : Ptr) (a : Tree) : Prop
  | faults (hF : Faults key s a)
  | unfit {j : ℕ} {x : Payload} {c e : Ptr} {h : Cells AvlEntry} (hL : Leaves key s a (some j) h)
      (hT : Topped a j x c e h) (hun : Unfit p (some j) h)

section Unfit

variable {s : AvlMem} {p q r c e : Ptr} {t T : Tree} {d : Dir} {n y z : ℕ} {x : Payload}
  {h h' : Cells AvlEntry} {C : Set ℕ}

theorem distinct_strip : (strip T).Distinct ↔ T.Distinct := by
  rw [BinTree.Distinct, BinTree.Distinct, addrs_strip]

theorem AvlAt.exists_mk (hT : AvlAt s p T) (hroot : T.root = some n)
    (hn : links s.heap n = some (sideCell d x c e)) :
    ∃ A v B, T = mk d A n v B ∧ A.root = c ∧ B.root = e := by
  cases T with
  | nil => simp at hroot
  | node A m v B =>
      obtain rfl : m = n := by simpa using hroot
      have heq := Option.some_inj.1 ((links_of_cell hT.layout.1).symm.trans hn)
      cases d
      · change (v.1, A.root, B.root) = (x, c, e) at heq
        obtain ⟨-, rfl, rfl⟩ : v.1 = x ∧ A.root = c ∧ B.root = e := by simpa using heq
        exact ⟨A, v, B, rfl, rfl, rfl⟩
      · change (v.1, A.root, B.root) = (x, e, c) at heq
        obtain ⟨-, rfl, rfl⟩ : v.1 = x ∧ A.root = e ∧ B.root = c := by simpa using heq
        exact ⟨B, v, A, rfl, rfl, rfl⟩

theorem AvlAt.sibling {a b : Tree} {v : Payload × ℤ} (hA : AvlAt s p (mk d a n v b)) :
    AvlAt s (some n) b := by
  rw [← mk_flip] at hA
  exact hA.sub

/-- What cannot be reached does not matter. -/
theorem Unfit.congr (hE : Enclosed t C r h) (hsame : ∀ y ∈ C, h' y = h y) (hun : Unfit p r h) :
    Unfit p r h' := by
  intro q T hroot hT
  have hclosed : Closed (links h') C := fun y hy cell hcell =>
    hE.closed y hy cell ((links_congr (hsame y hy)).symm.trans hcell)
  have hmem := mem_of_closed (treeAt_links (q := none) hT.layout) hclosed
    (by rw [root_strip, hroot]; exact hE.start)
  refine hun q T hroot ⟨?_, hT.distinct, hT.measured, hT.balanced⟩
  exact avlLayout.treeAt_congr hT.layout fun y hy => (hsame y (hmem y (mem_strip.2 hy))).symm

/-- Both links of a child of the root are to one node. -/
theorem unfit_of_twins (hy : linkAt h n d = some y) (hl : linkAt h y .left = some z)
    (hr : linkAt h y .right = some z) : Unfit p (some n) h := by
  intro q T hroot hT
  have hlinks := treeAt_links (q := none) hT.layout
  have hd := distinct_strip.2 hT.distinct
  have hn : n ∈ strip T := mem_strip.2 (mem_of_root hroot)
  have hmem := (mem_of_linkAt hlinks hd hn hy).1
  exact absurd (linkAt_injective hlinks hd hmem hmem hl hr) (by simp)

/-- The left link of the right child is to the left child. -/
theorem unfit_of_shared (hl : linkAt h n .left = some z) (hr : linkAt h n .right = some y)
    (hy : linkAt h y .left = some z) : Unfit p (some n) h := by
  intro q T hroot hT
  have hlinks := treeAt_links (q := none) hT.layout
  have hd := distinct_strip.2 hT.distinct
  have hn : n ∈ strip T := mem_strip.2 (mem_of_root hroot)
  obtain ⟨hmem, hne⟩ := mem_of_linkAt hlinks hd hn hr
  obtain ⟨rfl, -⟩ := Prod.mk.inj (linkAt_injective hlinks hd hn hmem hl hy)
  exact hne (by rw [root_strip, hroot])

/-- The left child is a leaf, or both its links are to one node. -/
theorem unfit_of_twins_or_leaf {x' : Payload} (hn : links h n = some (x, some y, some z))
    (hy : links h y = some (x', c, c)) (hz : 2 ≤ heights h z) : Unfit p (some n) h := by
  have hl : linkAt h n .left = some y := (linkAt_of_cell hn).1
  cases c with
  | some k => exact unfit_of_twins hl (linkAt_of_cell hy).1 (linkAt_of_cell hy).2
  | none =>
      intro q T hroot hT
      obtain ⟨A, u, B, rfl, hA, hB⟩ := hT.exists_mk (d := .left) hroot hn
      obtain ⟨A', u', B', rfl, hA', hB'⟩ := hT.sub.exists_mk (d := .left) hA hy
      obtain rfl := root_eq_none.1 hA'
      obtain rfl := root_eq_none.1 hB'
      -- so the right child is too deep
      have htop : heights h z = (B.depth : ℤ) - 1 := by
        rw [← topHeight_root hT.sibling.layout hT.sibling.measured, hB]
        rfl
      obtain ⟨-, hle, -⟩ := balanced_mk.1 hT.balanced
      rw [depth_mk, depth_nil] at hle
      omega

end Unfit

/-! ## What the calls above see -/

section Level

variable {key : UInt32} {s : AvlMem} {p r c e : Ptr} {d : Dir} {a b b₁ b₂ : Tree} {n m j : ℕ}
  {v w : Payload × ℤ} {x : Payload} {h₁ h : Cells AvlEntry} {C : Set ℕ}

theorem Topped.mem (hT : Topped a j x c e h) :
    j ∈ a ∧ (∀ k, c = some k → k ∈ a) ∧ ∀ k, e = some k → k ∈ a := by
  obtain ⟨C, hE⟩ := hT.enclosed
  obtain ⟨hl, hr⟩ := hE.closed j (hE.start j rfl) _ hT.cell
  exact ⟨hE.sub j (hE.start j rfl), fun k hk => hE.sub k (hl k hk), fun k hk => hE.sub k (hr k hk)⟩

theorem Enclosed.back (hA : AvlAt s p (mk d a n v b)) (hB : Back key s d a n v b r h₁ h)
    (hE : Enclosed a C r h₁) : Enclosed a C r h ∧ ∀ y ∈ C, h y = h₁ y := by
  obtain ⟨hna, -⟩ := distinct_mk.1 hA.distinct
  have hsame : ∀ y ∈ C, h y = h₁ y := fun y hy => hB.below y fun heq => hna (heq ▸ hE.sub y hy)
  exact ⟨⟨hE.sub, fun y hy cell hcell => hE.closed y hy cell
    ((links_congr (hsame y hy)).symm.trans hcell), hE.start⟩, hsame⟩

theorem Topped.back (hA : AvlAt s p (mk d a n v b)) (hB : Back key s d a n v b (some j) h₁ h)
    (hT : Topped a j x c e h₁) : Topped a j x c e h := by
  obtain ⟨C, hE⟩ := hT.enclosed
  obtain ⟨hna, -⟩ := distinct_mk.1 hA.distinct
  obtain ⟨hj, hc, he⟩ := hT.mem
  have hbelow : ∀ y ∈ a, h y = h₁ y := fun y hy => hB.below y fun heq => hna (heq ▸ hy)
  have htop : ∀ q : Ptr, (∀ k, q = some k → k ∈ a) →
      topHeight (heights h) q = topHeight (heights h₁) q := by
    intro q hq
    cases q with
    | none => rfl
    | some k => exact heights_congr (hbelow k (hq k rfl))
  have hlive : ∀ k ∈ a, links h₁ k ≠ none → links h k ≠ none := by
    intro k hk hlive
    rw [links_congr (hbelow k hk)]
    exact hlive
  have hheight : heights h j = heights h₁ j := heights_congr (hbelow j hj)
  refine ⟨⟨C, (hE.back hA hB).1⟩, (links_congr (hbelow j hj)).trans hT.cell,
    fun k hk => ⟨hlive k (hc k hk) (hT.left k hk).1, (hT.left k hk).2⟩,
    fun k hk => hlive k (he k hk) (hT.right k hk), ?_, ?_, ?_⟩
  · rw [hheight]
    exact hT.nonneg
  · rw [hheight, htop c hc]
    exact hT.low
  · rw [hheight, htop c hc, htop e he]
    exact hT.tilted

/-- A node that has kept its height. -/
theorem topped_of_height (hE : Enclosed a C (some n) h) {q : Ptr}
    (hn : links h n = some (sideCell d x r q)) (hr : Beside h n r) (hq : Beside h n q)
    (hheight : heights h n = (a.depth : ℤ) - 1) (hne : a ≠ nil) :
    ∃ c e, Topped a n x c e h := by
  have hdepth : a.depth ≠ 0 := mt depth_eq_zero.1 hne
  cases d
  · exact ⟨r, q, ⟨C, hE⟩, hn, hr, fun k hk => (hq k hk).1, by omega, by omega, .inl (by omega)⟩
  · exact ⟨q, r, ⟨C, hE⟩, hn, hq, fun k hk => (hr k hk).1, by omega, by omega, .inl (by omega)⟩

/-- Without a rotation. -/
theorem Back.topped (hA : AvlAt s p (mk d a n v b)) (hB : Back key s d a n v b r h₁ h)
    (hE : Enclosed a C r h₁) (hlive : ∀ k, r = some k → links h₁ k ≠ none)
    (hreb : (rebalanceAvlTree (some n)).run { s with heap := h } = .ok (some n, { s with heap := h })) :
    Leaves key s (mk d a n v b) (some n) h ∧ ∃ c e, Topped (mk d a n v b) n v.1 c e h := by
  obtain ⟨-, hL, hE'⟩ := hB.reached hA hE hreb
  obtain ⟨hna, hnb, -⟩ := distinct_mk.1 hA.distinct
  have hsib : linkLayout.TreeAt (links h) none (strip b) := treeAt_links hB.sibling
  refine ⟨hL, topped_of_height hE' hB.cell (fun k hk => ?_) (fun k hk => ⟨?_, ?_⟩) hB.height ?_⟩
  · have hkn : k ≠ n := by
      rintro rfl
      exact hna (hE.sub k (hE.start k hk))
    rw [links_congr (hB.below k hkn)]
    exact ⟨hlive k hk, hkn⟩
  · exact links_root_ne_none hsib k (by rw [root_strip, hk])
  · rintro rfl
    exact hnb (mem_of_root hk)
  · intro hnil
    have hroot := root_mk d a n v b
    rw [hnil] at hroot
    simp at hroot

/-- Without a rotation, an AVL tree below is missing. -/
theorem Unfit.up_even (hA : AvlAt s p (mk d a n v b)) (hB : Back key s d a n v b (some j) h₁ h)
    (hT : Topped a j x c e h₁) (hun : Unfit (some n) (some j) h₁)
    (hne : (b.depth : ℤ) - 1 ≠ heights h₁ j + 2) (hne' : heights h₁ j ≠ (b.depth : ℤ) - 1 + 2) :
    Spoilt key s p (mk d a n v b) := by
  obtain ⟨C, hE⟩ := hT.enclosed
  have hlive : ∀ k, some j = some k → links h₁ k ≠ none := by
    rintro _ ⟨⟩
    rw [hT.cell]
    simp
  have hreb := hB.run_even hA (fun k hk => hE.sub k (hE.start k hk)) hlive hne hne'
  obtain ⟨hL, c', e', hT'⟩ := hB.topped hA hE hlive hreb
  obtain ⟨hE', hsame⟩ := hE.back hA hB
  refine .unfit hL hT' fun q T hroot hAT => ?_
  obtain ⟨A, v', B, rfl, hrootA, -⟩ := hAT.exists_mk hroot hB.cell
  exact hun.congr hE hsame q A hrootA hAT.sub

end Level

/-! ## Rotations -/

section Rotations

variable {key : UInt32} {s : AvlMem} {p c e : Ptr} {d : Dir} {a b₁ b₂ : Tree} {n m j : ℕ}
  {v w : Payload × ℤ} {x : Payload} {h₁ h : Cells AvlEntry}

/-- The nodes of `a` are not those of the rest. -/
theorem AvlAt.off (hA : AvlAt s p (mk d a n v (node b₁ m w b₂))) :
    m ≠ n ∧ ∀ y ∈ a, y ≠ n ∧ y ≠ m ∧ b₁.root ≠ some y ∧ b₂.root ≠ some y := by
  obtain ⟨hna, hnb, -, -, hab⟩ := distinct_mk.1 hA.distinct
  simp only [mem_node, not_or] at hnb hab
  refine ⟨Ne.symm hnb.1, fun y hy => ⟨?_, (hab y hy).1, fun hroot => ?_, fun hroot => ?_⟩⟩
  · rintro rfl
    exact hna hy
  · exact (hab y hy).2.1 (mem_of_root hroot)
  · exact (hab y hy).2.2 (mem_of_root hroot)

theorem Topped.live (hT : Topped a j x c e h) : ∀ k, some j = some k → links h k ≠ none := by
  rintro _ ⟨⟩
  rw [hT.cell]
  simp

theorem Sibling.live (hS : Sibling h b₁ m w b₂) : ∀ k, some m = some k → links h k ≠ none := by
  rintro _ ⟨⟩
  rw [hS.cell]
  simp

/-- A single rotation to the right hands the subtree on. -/
theorem Unfit.up_ll (hA : AvlAt s p (mk .right a n v (node b₁ m w b₂)))
    (hB : Back key s .right a n v (node b₁ m w b₂) (some j) h₁ h) (hT₁ : Topped a j x c e h₁)
    (hun : Unfit (some n) (some j) h₁) (hk : ((node b₁ m w b₂).depth : ℤ) - 1 = heights h j + 2)
    (hheavy : b₂.depth < b₁.depth) : Spoilt key s p (mk .right a n v (node b₁ m w b₂)) := by
  have hT := hT₁.back hA hB
  have hS := hB.sibling_at hA
  obtain ⟨C, hE⟩ := hT₁.enclosed
  obtain ⟨hmn, hoff⟩ := hA.off
  obtain ⟨-, -, -, ⟨hn₁, hm₁⟩, -⟩ := hA.apart (T := nil) (by simp)
  have helse := root_strip b₁ ▸ elsewhere_root hS.left hn₁ hm₁
  obtain ⟨h', hrun, hl, hh, hsame⟩ := run_llRotate_links (s := { s with heap := h }) (a := b₁.root)
    (b := b₂.root) hmn hB.cell hS.cell helse.beside (root_strip b₂ ▸ links_root_ne_none hS.right)
    hT.live
  have hreb : (rebalanceAvlTree (some n)).run { s with heap := h } =
      .ok (some m, { s with heap := h' }) := by
    rw [hS.run_deep hB.cell hT.live hk, if_pos (by simpa using hheavy)]
    exact hrun
  obtain ⟨-, hL, hE'⟩ := hB.reached hA hE hreb
  have hm : links h' m = some (w.1, b₁.root, some n) := by rw [hl, Function.update_self]
  have hn : links h' n = some (v.1, b₂.root, some j) := by
    rw [hl, Function.update_of_ne hmn.symm, Function.update_self]
  have hlive : ∀ k, links h k ≠ none → links h' k ≠ none := by
    intro k hk
    rw [hl]
    exact update_ne_none (update_ne_none hk)
  -- the height stored at the new root
  obtain ⟨-, -, -, hbb⟩ := balanced_mk.1 hA.balanced
  obtain ⟨hle, -⟩ := hbb
  have htopl : topHeight (heights h') b₁.root = (b₁.depth : ℤ) - 1 := by
    rw [hh, topHeight_update helse.ne.2, topHeight_update helse.ne.1, hS.topLeft]
  have htopm : heights h' m = heights h j + 2 := by
    rw [hh, Function.update_self]
    change max (topHeight (heights h) b₁.root)
      (max (topHeight (heights h) b₂.root) (heights h j) + 1) + 1 = _
    rw [hS.topLeft, hS.topRight]
    rw [depth_node] at hk
    omega
  have hnonneg := hT.nonneg
  refine .unfit (h := h') hL ⟨⟨_, hE'⟩, hm, fun k hk => ⟨hlive k (helse.live k hk), (helse k hk).2.2⟩,
    ?_, ?_, ?_, .inl ?_⟩ fun q T hroot hAT => ?_
  · rintro _ ⟨⟩
    rw [hn]
    simp
  · omega
  · rw [htopl, htopm]
    rw [depth_node] at hk
    omega
  · rw [htopm, depth_mk]
    omega
  · -- the subtree is the right one of the old root
    obtain ⟨A, u, B, rfl, -, hB'⟩ := hAT.exists_mk (d := .left) hroot hm
    obtain ⟨A', u', B', rfl, -, hrootB⟩ := hAT.sibling.exists_mk (d := .left) hB' hn
    obtain ⟨hE₂, hsame₂⟩ := hE.back hA hB
    refine (hun.congr hE hsame₂).congr hE₂ (fun y hy => ?_) q B' hrootB hAT.sibling.sibling
    obtain ⟨hyn, hym, -, hyb⟩ := hoff y (hE.sub y hy)
    exact hsame y hyn hym hyb

/-- A single rotation to the left links to the subtree twice. -/
theorem Topped.up_rr (hA : AvlAt s p (mk .left a n v (node b₁ m w b₂)))
    (hB : Back key s .left a n v (node b₁ m w b₂) (some j) h₁ h) (hT₁ : Topped a j x c e h₁)
    (hk : ((node b₁ m w b₂).depth : ℤ) - 1 = heights h j + 2) (hheavy : b₁.depth < b₂.depth) :
    Spoilt key s p (mk .left a n v (node b₁ m w b₂)) := by
  have hT := hT₁.back hA hB
  have hS := hB.sibling_at hA
  obtain ⟨C, hE⟩ := hT₁.enclosed
  obtain ⟨hmn, -⟩ := hA.off
  obtain ⟨-, -, -, -, ⟨hn₂, hm₂⟩, -⟩ := hA.apart (T := nil) (by simp)
  have helse := root_strip b₂ ▸ elsewhere_root hS.right hn₂ hm₂
  obtain ⟨h', hrun, hl, hh, -⟩ := run_rrRotate_links (s := { s with heap := h }) (a := b₂.root) hmn
    hB.cell hS.cell helse.beside hT.live
  have hreb : (rebalanceAvlTree (some n)).run { s with heap := h } =
      .ok (some m, { s with heap := h' }) := by
    rw [hS.run_deep hB.cell hT.live hk, if_pos (by simpa using hheavy)]
    exact hrun
  obtain ⟨-, hL, hE'⟩ := hB.reached hA hE hreb
  have hm : links h' m = some (w.1, some n, b₂.root) := by rw [hl, Function.update_self]
  have hn : links h' n = some (v.1, some j, some j) := by
    rw [hl, Function.update_of_ne hmn.symm, Function.update_self]
  obtain ⟨-, -, -, hbb⟩ := balanced_mk.1 hA.balanced
  obtain ⟨-, hle, -⟩ := hbb
  have htopn : heights h' n = heights h j + 1 := by
    rw [hh, Function.update_of_ne hmn.symm, Function.update_self]
    rfl
  have htopm : heights h' m = heights h j + 2 := by
    rw [hh, Function.update_self]
    change max (topHeight (heights h) b₂.root) (heights h j + 1) + 1 = _
    rw [hS.topRight]
    rw [depth_node] at hk
    omega
  have hnonneg := hT.nonneg
  refine .unfit (h := h') hL ⟨⟨_, hE'⟩, hm, ?_, fun k hk => ?_, ?_, ?_, .inl ?_⟩
    (unfit_of_twins (linkAt_of_cell hm).1 (linkAt_of_cell hn).1 (linkAt_of_cell hn).2)
  · rintro _ ⟨⟩
    exact ⟨by rw [hn]; simp, hmn.symm⟩
  · rw [hl]
    exact update_ne_none (update_ne_none (helse.live k hk))
  · omega
  · rw [topHeight_some, htopn, htopm, depth_mk]
    omega
  · rw [htopm, depth_mk]
    omega

/-- A double rotation leaves the links of the root as they are. -/
theorem topped_double {u : Tree} {y z q : ℕ} {g : Cells AvlEntry} {C : Set ℕ}
    {cell : Payload × Ptr × Ptr} (hE : Enclosed u C (some n) h)
    (hl : links h = Function.update (links g) q (some cell)) (hqn : q ≠ n) (hyn : y ≠ n)
    (hn : links g n = some (x, some y, some z)) (hy : links g y ≠ none) (hz : links g z ≠ none)
    (hnonneg : 0 ≤ heights h n)
    (hlow : heights h n < (u.depth : ℤ) - 1 → heights h y < (u.depth : ℤ) - 1)
    (htilt : heights h n ≤ (u.depth : ℤ) - 1 ∨
      Tilted (heights h n) (heights h y) (heights h z)) :
    Topped u n x (some y) (some z) h := by
  have hlive : ∀ k, links g k ≠ none → links h k ≠ none := by
    intro k hk
    rw [hl]
    exact update_ne_none hk
  refine ⟨⟨C, hE⟩, ?_, ?_, ?_, hnonneg, hlow, htilt⟩
  · rw [hl, Function.update_of_ne hqn.symm]
    exact hn
  · rintro _ ⟨⟩
    exact ⟨hlive y hy, hyn⟩
  · rintro _ ⟨⟩
    exact hlive z hz

/-- A double rotation to the left makes the right link of the subtree its left one. -/
theorem Topped.up_rl (hA : AvlAt s p (mk .left a n v (node b₁ m w b₂)))
    (hB : Back key s .left a n v (node b₁ m w b₂) (some j) h₁ h) (hT₁ : Topped a j x c e h₁)
    (hk : ((node b₁ m w b₂).depth : ℤ) - 1 = heights h j + 2) (hheavy : ¬ b₁.depth < b₂.depth) :
    Spoilt key s p (mk .left a n v (node b₁ m w b₂)) := by
  have hT := hT₁.back hA hB
  have hS := hB.sibling_at hA
  obtain ⟨C, hE⟩ := hT₁.enclosed
  obtain ⟨hmn, hoff⟩ := hA.off
  obtain ⟨hja, hca, -⟩ := hT.mem
  obtain ⟨hjn, hjm, -⟩ := hoff j hja
  have hcell : links h n = some (v.1, some j, some m) := hB.cell
  have hc : Elsewhere h n j c := fun k hk =>
    ⟨(hT.left k hk).1, (hoff k (hca k hk)).1, (hT.left k hk).2⟩
  have hm : Elsewhere h n j (some m) := by
    rintro _ ⟨⟩
    exact ⟨hS.live m rfl, hmn, hjm.symm⟩
  obtain ⟨h', hrun, hl, hhn, hhj, hh, -⟩ := run_rlRotate_links (s := { s with heap := h }) hjn hcell
    hT.cell hc hT.right hm
  have hreb : (rebalanceAvlTree (some n)).run { s with heap := h } =
      .ok (some n, { s with heap := h' }) := by
    rw [hS.run_deep hB.cell hT.live hk, if_neg (by simpa using hheavy)]
    exact hrun
  obtain ⟨-, hL, hE'⟩ := hB.reached hA hE hreb
  have hj : links h' j = some (x, c, c) := by rw [hl, Function.update_self]
  -- the height of the subtree's left child is not too large
  obtain ⟨-, hba, -⟩ := balanced_mk.1 hA.balanced
  have hlow := hT.low (by omega)
  have hnonneg := hT.nonneg
  have htopn : heights h' n = max (heights h j + 2) (topHeight (heights h) c + 1) + 1 := by
    rw [hhn, ← hk, ← hS.top]
  have htopm : heights h' m = heights h j + 2 := by
    rw [hh m hmn hjm.symm, ← hk, ← hS.top]
    rfl
  have hT' : Topped (mk .left a n v (node b₁ m w b₂)) n v.1 (some j) (some m) h' := by
    refine topped_double hE' hl hjn hjn hcell (hT.live j rfl) (hS.live m rfl) ?_ ?_ (.inl ?_)
    · omega
    · rw [hhj, depth_mk]
      change _ → topHeight (heights h) c + 1 < _
      omega
    · rw [htopn, depth_mk]
      omega
  exact .unfit (h := h') hL hT' (unfit_of_twins_or_leaf hT'.cell hj (by omega))

/-- A double rotation to the right links to the sibling twice. -/
theorem Topped.up_lr (hA : AvlAt s p (mk .right a n v (node b₁ m w b₂)))
    (hB : Back key s .right a n v (node b₁ m w b₂) (some j) h₁ h) (hT₁ : Topped a j x c e h₁)
    (hk : ((node b₁ m w b₂).depth : ℤ) - 1 = heights h j + 2) (hheavy : ¬ b₂.depth < b₁.depth) :
    Spoilt key s p (mk .right a n v (node b₁ m w b₂)) := by
  have hT := hT₁.back hA hB
  have hS := hB.sibling_at hA
  obtain ⟨C, hE⟩ := hT₁.enclosed
  obtain ⟨hmn, hoff⟩ := hA.off
  obtain ⟨hja, -, hea⟩ := hT.mem
  obtain ⟨hjn, hjm, -⟩ := hoff j hja
  have hcell : links h n = some (v.1, some m, some j) := hB.cell
  have hm : Elsewhere h n j (some m) := by
    rintro _ ⟨⟩
    exact ⟨hS.live m rfl, hmn, hjm.symm⟩
  obtain ⟨h', k, hrun, hl, -, hhn, hhj, hh, -⟩ := run_lrRotate_links (s := { s with heap := h }) hjn
    hcell hT.cell hm fun k hk => ⟨hT.right k hk, (hoff k (hea k hk)).1⟩
  have hreb : (rebalanceAvlTree (some n)).run { s with heap := h } =
      .ok (some n, { s with heap := h' }) := by
    rw [hS.run_deep hB.cell hT.live hk, if_neg (by simpa using hheavy)]
    exact hrun
  obtain ⟨-, hL, hE'⟩ := hB.reached hA hE hreb
  have hj : links h' j = some (x, some m, e) := by rw [hl, Function.update_self]
  have hnonneg := hT.nonneg
  have htop : topHeight (heights h) (some m) = heights h j + 2 := by rw [hS.top, hk]
  have htopm : heights h' m = heights h j + 2 := (hh m hmn hjm.symm).trans htop
  change heights h' n = max (topHeight (heights h) (some m))
    (max (topHeight (heights h) (some m)) k + 1) + 1 at hhn
  change heights h' j = max (topHeight (heights h) (some m)) k + 1 at hhj
  rw [htop] at hhn hhj
  have hT' : Topped (mk .right a n v (node b₁ m w b₂)) n v.1 (some m) (some j) h' := by
    refine topped_double hE' hl hjn hmn hcell (hS.live m rfl) (hT.live j rfl) ?_ ?_ (.inr ?_)
    · omega
    · rw [htopm, depth_mk]
      omega
    · exact ⟨by omega, by omega, fun _ => by omega⟩
  obtain ⟨hleft, hright⟩ := linkAt_of_cell hT'.cell
  exact .unfit (h := h') hL hT' (unfit_of_shared hleft hright (linkAt_of_cell hj).1)

/-! ## A height that is too large -/

/-- The subtree is rotated then. -/
theorem Topped.run_deep (hT : Topped a j x c e h) (hS : Sibling h b₁ m w b₂) {y : Payload}
    (hn : links h n = some (sideCell d y (some j) (some m)))
    (hk : heights h j = ((node b₁ m w b₂).depth : ℤ) - 1 + 2) :
    (rebalanceAvlTree (some n)).run { s with heap := h } =
      (rotateDeep d (some n)).run { s with heap := h } := by
  rw [run_rebalance_side (s := { s with heap := h }) hn hT.live hS.live]
  change (if topHeight (heights h) (some m) - heights h j = 2 then _
    else if heights h j - topHeight (heights h) (some m) = 2 then _
    else _ : Exec AvlMem Ptr).run _ = _
  rw [hS.top, if_neg (by omega), if_pos (by omega)]

/-- On the left there is a double rotation. -/
theorem Topped.up_tilted_left (hA : AvlAt s p (mk .left a n v (node b₁ m w b₂)))
    (hB : Back key s .left a n v (node b₁ m w b₂) (some j) h₁ h) (hT₁ : Topped a j x c e h₁)
    (hk : heights h j = ((node b₁ m w b₂).depth : ℤ) - 1 + 2)
    (htilt : Tilted (heights h j) (topHeight (heights h) c) (topHeight (heights h) e)) :
    Spoilt key s p (mk .left a n v (node b₁ m w b₂)) := by
  have hT := hT₁.back hA hB
  have hS := hB.sibling_at hA
  obtain ⟨C, hE⟩ := hT₁.enclosed
  obtain ⟨hmn, hoff⟩ := hA.off
  obtain ⟨hjn, hjm, -⟩ := hoff j hT.mem.1
  obtain ⟨-, -, -, -, ⟨hn₂, hm₂⟩, -⟩ := hA.apart (T := nil) (by simp)
  obtain ⟨htwo, hle, -⟩ := htilt
  have hcell : links h n = some (v.1, some j, some m) := hB.cell
  have helse := root_strip b₂ ▸ elsewhere_root hS.right hn₂ hm₂
  have hj : Elsewhere h n m (some j) := by
    rintro _ ⟨⟩
    exact ⟨hT.live j rfl, hjn, hjm⟩
  obtain ⟨h', k, hrun, hl, hk', hhn, hhm, hh, -⟩ := run_lrRotate_links (s := { s with heap := h }) hmn
    hcell hS.cell hj helse.beside
  have hreb : (rebalanceAvlTree (some n)).run { s with heap := h } =
      .ok (some n, { s with heap := h' }) := by
    rw [hT.run_deep hS hB.cell hk, run_rotateDeep_links (s := { s with heap := h }) (d := .left) hcell
      hT.cell (fun k hk => (hT.left k hk).1) hT.right]
    change (if topHeight (heights h) c > topHeight (heights h) e then _
      else _ : Exec AvlMem Ptr).run _ = _
    rw [if_neg (by omega)]
    exact hrun
  obtain ⟨-, hL, hE'⟩ := hB.reached hA hE hreb
  have hm : links h' m = some (w.1, some j, b₂.root) := by rw [hl, Function.update_self]
  -- the stored heights
  have htopb : k = (b₂.depth : ℤ) - 1 := (hk' helse.ne.2).trans hS.topRight
  have htopj : heights h' j = heights h j := hh j hjn hjm
  change heights h' n = max (heights h j) (max (heights h j) k + 1) + 1 at hhn
  change heights h' m = max (heights h j) k + 1 at hhm
  obtain ⟨hab, -⟩ := balanced_mk.1 hA.balanced
  rw [depth_node] at hk hab
  have hT' : Topped (mk .left a n v (node b₁ m w b₂)) n v.1 (some j) (some m) h' := by
    refine topped_double hE' hl hmn hjn hcell (hT.live j rfl) (hS.live m rfl) ?_ ?_ (.inr ?_)
    · omega
    · rw [depth_mk, depth_node]
      omega
    · exact ⟨by omega, by omega, fun _ => by omega⟩
  obtain ⟨hleft, hright⟩ := linkAt_of_cell hT'.cell
  exact .unfit (h := h') hL hT' (unfit_of_shared hleft hright (linkAt_of_cell hm).1)

/-- On the right there is a single rotation, which links to the sibling twice. -/
theorem Topped.up_tilted_rr (hA : AvlAt s p (mk .right a n v (node b₁ m w b₂)))
    (hB : Back key s .right a n v (node b₁ m w b₂) (some j) h₁ h) (hT₁ : Topped a j x c e h₁)
    (hk : heights h j = ((node b₁ m w b₂).depth : ℤ) - 1 + 2)
    (hlt : topHeight (heights h) c < topHeight (heights h) e)
    (hle : heights h j ≤ topHeight (heights h) e + 1) :
    Spoilt key s p (mk .right a n v (node b₁ m w b₂)) := by
  have hT := hT₁.back hA hB
  have hS := hB.sibling_at hA
  obtain ⟨C, hE⟩ := hT₁.enclosed
  obtain ⟨hmn, hoff⟩ := hA.off
  obtain ⟨hja, -, hea⟩ := hT.mem
  obtain ⟨hjn, hjm, -⟩ := hoff j hja
  have hcell : links h n = some (v.1, some m, some j) := hB.cell
  obtain ⟨h', hrun, hl, hh, -⟩ := run_rrRotate_links (s := { s with heap := h }) hjn hcell hT.cell
    (fun k hk => ⟨hT.right k hk, (hoff k (hea k hk)).1⟩) hS.live
  have hreb : (rebalanceAvlTree (some n)).run { s with heap := h } =
      .ok (some j, { s with heap := h' }) := by
    rw [hT.run_deep hS hB.cell hk, run_rotateDeep_links (s := { s with heap := h }) (d := .right)
      hB.cell hT.cell hT.right fun k hk => (hT.left k hk).1]
    change (if topHeight (heights h) e > topHeight (heights h) c then _
      else _ : Exec AvlMem Ptr).run _ = _
    rw [if_pos (by omega)]
    exact hrun
  obtain ⟨-, hL, hE'⟩ := hB.reached hA hE hreb
  have hj : links h' j = some (x, some n, e) := by rw [hl, Function.update_self]
  have hn : links h' n = some (v.1, some m, some m) := by
    rw [hl, Function.update_of_ne hjn.symm, Function.update_self]
  have htopn : heights h' n = (node b₁ m w b₂).depth := by
    rw [hh, Function.update_of_ne hjn.symm, Function.update_self]
    change topHeight (heights h) (some m) + 1 = _
    rw [hS.top]
    omega
  have htopj : heights h' j = topHeight (heights h) e + 1 := by
    rw [hh, Function.update_self]
    change max (topHeight (heights h) e) (topHeight (heights h) (some m) + 1) + 1 = _
    rw [hS.top]
    omega
  have htope : topHeight (heights h) e ≤ topHeight (heights h') e := by
    by_cases hej : e = some j
    · rw [hej] at htopj ⊢
      rw [topHeight_some, topHeight_some, htopj, topHeight_some]
      omega
    · rw [hh, topHeight_update hej, topHeight_update]
      rintro rfl
      exact (hoff n (hea n rfl)).1 rfl
  obtain ⟨hab, -⟩ := balanced_mk.1 hA.balanced
  have hnonneg := hT.nonneg
  refine .unfit (h := h') hL ⟨⟨_, hE'⟩, hj, ?_, fun k hk => ?_, ?_, ?_, .inr ⟨?_, ?_, fun _ => ?_⟩⟩
    (unfit_of_twins (linkAt_of_cell hj).1 (linkAt_of_cell hn).1 (linkAt_of_cell hn).2)
  · rintro _ ⟨⟩
    exact ⟨by rw [hn]; simp, hjn.symm⟩
  · rw [hl]
    exact update_ne_none (update_ne_none (hT.right k hk))
  · omega
  · rw [topHeight_some, depth_mk]
    omega
  · rw [depth_node] at hk
    omega
  · rw [topHeight_some]
    omega
  · omega

/-- Or there is a double one, which makes a link of the sibling the other one, too. -/
theorem Topped.up_tilted_rl (hA : AvlAt s p (mk .right a n v (node b₁ m w b₂)))
    (hB : Back key s .right a n v (node b₁ m w b₂) (some j) h₁ h) (hT₁ : Topped a j x c e h₁)
    (hk : heights h j = ((node b₁ m w b₂).depth : ℤ) - 1 + 2) (htwo : 2 ≤ heights h j)
    (hle : topHeight (heights h) e ≤ topHeight (heights h) c) :
    Spoilt key s p (mk .right a n v (node b₁ m w b₂)) := by
  have hT := hT₁.back hA hB
  have hS := hB.sibling_at hA
  obtain ⟨C, hE⟩ := hT₁.enclosed
  obtain ⟨hmn, hoff⟩ := hA.off
  obtain ⟨hjn, hjm, -⟩ := hoff j hT.mem.1
  obtain ⟨-, -, -, ⟨hn₁, hm₁⟩, -⟩ := hA.apart (T := nil) (by simp)
  have hcell : links h n = some (v.1, some m, some j) := hB.cell
  have hj : Elsewhere h n m (some j) := by
    rintro _ ⟨⟩
    exact ⟨hT.live j rfl, hjn, hjm⟩
  obtain ⟨h', hrun, hl, hhn, hhm, hh, -⟩ := run_rlRotate_links (s := { s with heap := h }) hmn hcell
    hS.cell (root_strip b₁ ▸ elsewhere_root hS.left hn₁ hm₁)
    (root_strip b₂ ▸ links_root_ne_none hS.right) hj
  have hreb : (rebalanceAvlTree (some n)).run { s with heap := h } =
      .ok (some n, { s with heap := h' }) := by
    rw [hT.run_deep hS hB.cell hk, run_rotateDeep_links (s := { s with heap := h }) (d := .right)
      hB.cell hT.cell hT.right fun k hk => (hT.left k hk).1]
    change (if topHeight (heights h) e > topHeight (heights h) c then _
      else _ : Exec AvlMem Ptr).run _ = _
    rw [if_neg (by omega)]
    exact hrun
  obtain ⟨-, hL, hE'⟩ := hB.reached hA hE hreb
  have hm : links h' m = some (w.1, b₁.root, b₁.root) := by rw [hl, Function.update_self]
  -- the stored heights
  have htopj : heights h' j = heights h j := hh j hjn hjm
  change heights h' n = max (heights h j) (topHeight (heights h) b₁.root + 1) + 1 at hhn
  change heights h' m = topHeight (heights h) b₁.root + 1 at hhm
  rw [hS.topLeft] at hhn hhm
  rw [depth_node] at hk
  have hT' : Topped (mk .right a n v (node b₁ m w b₂)) n v.1 (some m) (some j) h' := by
    refine topped_double hE' hl hmn hmn hcell (hS.live m rfl) (hT.live j rfl) ?_ ?_ (.inr ?_)
    · omega
    · rw [depth_mk, depth_node]
      omega
    · exact ⟨by omega, by omega, fun _ => by omega⟩
  exact .unfit (h := h') hL hT' (unfit_of_twins_or_leaf hT'.cell hm (by omega))

end Rotations

/-! ## One level up -/

section Up

variable {key : UInt32} {s : AvlMem} {p c e : Ptr} {d : Dir} {a b : Tree} {n j : ℕ}
  {v : Payload × ℤ} {x : Payload} {h₁ h : Cells AvlEntry}

/-- A sibling that is two higher must be on the left and deeper there. -/
theorem Topped.up_deep (hA : AvlAt s p (mk d a n v b)) (hB : Back key s d a n v b (some j) h₁ h)
    (hT : Topped a j x c e h₁) (hk : (b.depth : ℤ) - 1 = heights h j + 2)
    (hwrong : d = .right → heavy .left b = false) : Spoilt key s p (mk d a n v b) := by
  have hnonneg := (hT.back hA hB).nonneg
  cases b with
  | nil =>
      rw [depth_nil] at hk
      omega
  | node b₁ m w b₂ =>
      cases d with
      | left =>
          by_cases hheavy : b₁.depth < b₂.depth
          · exact hT.up_rr hA hB hk hheavy
          · exact hT.up_rl hA hB hk hheavy
      | right =>
          refine hT.up_lr hA hB hk ?_
          rw [← heavy_left (n := m) (v := w), hwrong rfl]
          simp

/-- A height that is too large comes with a right link that is the deeper one. -/
theorem Topped.up_tilted (hA : AvlAt s p (mk d a n v b)) (hB : Back key s d a n v b (some j) h₁ h)
    (hT₁ : Topped a j x c e h₁) (hk : heights h j = (b.depth : ℤ) - 1 + 2) :
    Spoilt key s p (mk d a n v b) := by
  have hT := hT₁.back hA hB
  obtain ⟨hab, -⟩ := balanced_mk.1 hA.balanced
  obtain ⟨htwo, hle, hlt⟩ := hT.tilted.resolve_left (by omega)
  cases b with
  | nil =>
      rw [depth_nil] at hk
      omega
  | node b₁ m w b₂ =>
      cases d with
      | left => exact hT₁.up_tilted_left hA hB hk ⟨htwo, hle, hlt⟩
      | right =>
          by_cases hce : topHeight (heights h) c < topHeight (heights h) e
          · exact hT₁.up_tilted_rr hA hB hk hce (hlt hce)
          · exact hT₁.up_tilted_rl hA hB hk htwo (by omega)

/-- **What is no AVL tree does not become one** on the way up. -/
theorem Spoilt.up (hA : AvlAt s p (mk d a n v b)) (hd : Descends key v.1 d)
    (hspoilt : Spoilt key s (some n) a) : Spoilt key s p (mk d a n v b) := by
  cases hspoilt with
  | faults hF => exact .faults (hF.up hA hd)
  | unfit hL hT hun =>
      rename_i j x c e h₁
      obtain ⟨h, hB⟩ := hL.back hA hd
      have hheight : heights h j = heights h₁ j :=
        heights_congr (hB.below j fun heq => (distinct_mk.1 hA.distinct).1 (heq ▸ hT.mem.1))
      by_cases hdeep : (b.depth : ℤ) - 1 = heights h j + 2
      · by_cases hheavy : d = .right ∧ heavy .left b = true
        · obtain ⟨rfl, hheavy⟩ := hheavy
          cases b with
          | nil => simp [heavy] at hheavy
          | node b₁ m w b₂ => exact hun.up_ll hA hB hT hdeep (heavy_left.1 hheavy)
        · refine hT.up_deep hA hB hdeep fun hright => ?_
          simpa [hright] using hheavy
      · by_cases hlarge : heights h j = (b.depth : ℤ) - 1 + 2
        · exact hT.up_tilted hA hB hlarge
        · exact hun.up_even hA hB hT (hheight ▸ hdeep) (hheight ▸ hlarge)

end Up

end StructLib.Avl
