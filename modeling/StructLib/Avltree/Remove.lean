import StructLib.Avltree.WrongRotations
import StructLib.Avltree.Refine

set_option autoImplicit false

/-! # Removing an entry

Whether `RemoveAvlEntry` does what it should is decided by the shape of the two subtrees of the
removed node (`soundHeir`) and, above it, by the siblings of the path (`soundUp`): as long as the
sibling is two higher than what is left, it must be one that the code rotates right. Everywhere else
the code loses a subtree, links to a node twice, or follows a NULL link (`removesRight_iff_sound`).
-/

namespace StructLib.Avl

open BinTree

/-! ## Sound removals -/

/-- Whether the subtree on the side `d` is the deeper one. -/
def heavy (d : Dir) : Tree → Bool
  | nil => false
  | node l _ _ r => decide ((sub d.flip l r).depth < (sub d l r).depth)

/-- What the removal leaves of a subtree: nothing, a leaf or a larger tree. -/
inductive Remnant where
  | gone
  | leaf
  | tree
  deriving DecidableEq, Repr

/-- What is left once the replacement has taken the place of a node with these subtrees. -/
def remnant : Tree → Tree → Remnant
  | nil, nil => .gone
  | nil, node .. => .leaf
  | node .., nil => .leaf
  | node .., node .. => .tree

/-- The height stored there. It is the one that the replacement had, unless there was a rotation. -/
def heirHeight (l r : Tree) : ℤ :=
  if r.depth = 0 then l.depth - 1
  else if r.depth = 1 ∧ l.depth = 2 then 1
  else leftmostHeight r

/-- The right child has a left child, or it is a leaf and the left child has no right child; or
    there is no right child. -/
def soundHeir (l : Tree) : Tree → Bool
  | nil => true
  | node nil _ _ nil =>
      match l with
      | node _ _ _ (node ..) => false
      | _ => true
  | node nil _ _ (node ..) => false
  | node (node ..) _ _ _ => true

/-- Where the sibling is two higher than what is left, the height stored there being `k`, it is
    rotated. This goes well for a sibling on the left that is deeper on its left; for one on the
    right that is deeper on its right, if nothing is left; and for one that is not, if a leaf is
    left. -/
def soundUp : Remnant → ℤ → Ctx (Payload × ℤ) → Bool
  | _, _, .root => true
  | rem, k, .up d _ _ sib fs =>
      if (sib.depth : ℤ) - 1 = k + 2 then
        match d, rem with
        | .right, _ => heavy .left sib && soundUp .tree (sib.depth - 1) fs
        | .left, .gone => heavy .right sib && soundUp .tree (sib.depth - 1) fs
        | .left, .leaf => !heavy .right sib
        | .left, .tree => false
      else true

/-- The search for the key in the tree below `fs` ends at a node whose removal is sound, or at none.
    -/
def soundAt (key : UInt32) : Ctx (Payload × ℤ) → Tree → Bool
  | _, nil => true
  | fs, node l n v r =>
      if key = v.1.minKey then soundHeir l r && soundUp (remnant l r) (heirHeight l r) fs
      else if key < v.1.minKey then soundAt key (.up .left n v r fs) l
      else soundAt key (.up .right n v l fs) r

/-- The removal of the key from `t` needs no wrong step. -/
def Sound (key : UInt32) (t : Tree) : Prop := soundAt key .root t = true

instance (key : UInt32) (t : Tree) : Decidable (Sound key t) :=
  inferInstanceAs (Decidable (soundAt key .root t = true))

/-! ## The right outcomes -/

/-- A right result `T` of the kind `rem`. -/
def IsRemnant (a : Tree) (T : BinTree Payload) (k : ℤ) (h : Cells AvlEntry) : Remnant → Prop
  | .gone => T = nil ∧ k = -1
  | .leaf => (∃ j x, T = node nil j x nil) ∧ k = 0 ∧ a.depth = 2
  | .tree => ∃ c j x e, T = node c j x e ∧ c ≠ nil ∧ 0 ≤ k ∧ k < a.depth ∧
      (e = nil → k = 0 ∧ a.depth = 2 ∧ topHeight (heights h) c.root = 0)

/-- Called for `a`, the removal leaves a right result. -/
def Rest (key : UInt32) (s : AvlMem) (a : Tree) (rem : Remnant) (k : ℤ) : Prop :=
  ∃ T r h, Leaves key s a r h ∧ Right key a T k r h ∧ IsRemnant a T k h rem

def Succeeds (key : UInt32) (s : AvlMem) (t : Tree) : Prop :=
  ∃ T k r h, Leaves key s t r h ∧ Right key t T k r h

/-- The stored height is the old one, so there is no rotation above. -/
def Settled (key : UInt32) (s : AvlMem) (t : Tree) : Prop :=
  ∃ T r h, Leaves key s t r h ∧ Right key t T ((t.depth : ℤ) - 1) r h

section Outcomes

variable {key : UInt32} {s : AvlMem} {p : Ptr} {d : Dir} {a b l r : Tree} {n : ℕ}
  {v : Payload × ℤ} {k : ℤ} {rem : Remnant}

theorem heavy_left : heavy .left (node l n v r) = true ↔ r.depth < l.depth := decide_eq_true_iff

theorem heavy_right : heavy .right (node l n v r) = true ↔ l.depth < r.depth := decide_eq_true_iff

theorem leftmostHeight_bounds {t : Tree} (hm : t.Measured) (hne : t ≠ nil) :
    0 ≤ leftmostHeight t ∧ leftmostHeight t < t.depth := by
  induction t with
  | nil => exact absurd rfl hne
  | node l n v r ihl _ =>
      obtain ⟨hv, hl, -⟩ := hm
      rw [depth_node]
      cases l with
      | nil =>
          simp only [leftmostHeight, hv]
          omega
      | node a j w c =>
          have hbounds := ihl hl (by simp)
          simp only [leftmostHeight] at hbounds ⊢
          omega

/-- The right child is a leaf. -/
theorem rest_found_leaf {m : ℕ} {w : Payload × ℤ} (hA : AvlAt s p (node l n v (node nil m w nil)))
    (hkey : v.1.minKey = key) (hl : ∀ e ∈ l.records, e.2.minKey ≠ key) (hw : w.1.minKey ≠ key) :
    if soundHeir l (node nil m w nil) then
      Rest key s (node l n v (node nil m w nil)) (remnant l (node nil m w nil))
        (heirHeight l (node nil m w nil))
    else Broken key s (node l n v (node nil m w nil)) := by
  have hw₀ : w.2 = 0 := hA.measured.2.2.1
  have hdepth : l.depth ≤ 2 := hA.balanced.1
  have hheight : l.depth ≠ 2 → heirHeight l (node nil m w nil) = 0 := by
    intro hne
    rw [heirHeight, if_neg (by simp), if_neg fun h => hne h.2]
    exact hw₀
  rcases l with _ | ⟨la, j, u, _ | ⟨lba, i, y, lbb⟩⟩
  · obtain ⟨h, hL, hR, -⟩ := leaves_right hA hkey hl hw (by simp)
    rw [hheight (by simp)]
    exact ⟨_, _, _, hL, hR, ⟨m, w.1, rfl⟩, rfl, rfl⟩
  · by_cases hla : la = nil
    · subst hla
      obtain ⟨h, hL, hR, -, htop⟩ := leaves_right hA hkey hl hw (by simp)
      rw [hheight (by simp)]
      exact ⟨_, _, _, hL, hR, _, m, w.1, nil, rfl, by simp, Int.le_refl 0, by simp,
        fun _ => ⟨rfl, rfl, htop⟩⟩
    · have hla' : la.depth ≠ 0 := mt depth_eq_zero.1 hla
      rw [depth_node, depth_nil] at hdepth
      have hla₁ : la.depth = 1 := by omega
      obtain ⟨h, hL, hR, -⟩ := leaves_rotated hA hkey hl hw hla₁
      have hheight' : heirHeight (node la j u nil) (node nil m w nil) = 1 := by
        simp [heirHeight, depth_node, hla₁]
      rw [hheight']
      refine ⟨_, _, _, hL, hR, _, j, u.1, _, rfl, ?_, by omega, ?_, by simp⟩
      · obtain ⟨i, y, rfl⟩ := depth_eq_one.1 hla₁
        simp
      · simp only [depth_node, depth_nil, hla₁]
        omega
  · exact .faults (faults_found hA hkey (by simp))

/-- The right child has a left child. -/
theorem rest_found_deep {m j : ℕ} {w u : Payload × ℤ} {c e rr : Tree}
    (hA : AvlAt s p (node l n v (node (node c j u e) m w rr))) (hkey : v.1.minKey = key)
    (hl : ∀ e ∈ l.records, e.2.minKey ≠ key)
    (hr : ∀ x ∈ (node (node c j u e) m w rr).records, x.2.minKey ≠ key) :
    Rest key s (node l n v (node (node c j u e) m w rr)) (remnant l (node (node c j u e) m w rr))
      (heirHeight l (node (node c j u e) m w rr)) := by
  have hrl := hA.balanced.2.1
  obtain ⟨hle, hlt⟩ := leftmostHeight_bounds hA.measured.2.2 (by simp)
  obtain ⟨h, i, x, b, hL, hb, hR, -⟩ := leaves_deep hA hkey hl hr (by simp)
  have hheight : heirHeight l (node (node c j u e) m w rr) =
      leftmostHeight (node (node c j u e) m w rr) := by
    rw [heirHeight, if_neg (by simp [depth_node]), if_neg]
    rintro ⟨hone, -⟩
    simp only [depth_node] at hone
    omega
  cases l with
  | nil =>
      simp only [depth_node, depth_nil] at hrl
      omega
  | node la k y lb =>
      rw [hheight]
      refine ⟨_, _, _, hL, hR, _, i, x, b, rfl, by simp, hle, ?_, fun hnil => absurd hnil hb⟩
      rw [depth_node]
      omega

/-- At the removed node. -/
theorem rest_found (hA : AvlAt s p (node l n v r)) (hkey : v.1.minKey = key)
    (hl : ∀ e ∈ l.records, e.2.minKey ≠ key) (hr : ∀ e ∈ r.records, e.2.minKey ≠ key) :
    if soundHeir l r then Rest key s (node l n v r) (remnant l r) (heirHeight l r)
    else Broken key s (node l n v r) := by
  obtain ⟨hlr, hrl, -⟩ := hA.balanced
  rcases r with _ | ⟨_ | ⟨rl, k, u, rr⟩, m, w, _ | ⟨c, i, y, e⟩⟩
  · -- no right child: the left one is a leaf
    rw [depth_nil] at hlr
    rcases Nat.lt_or_eq_of_le hlr with hlt | heq
    · obtain rfl := depth_eq_zero.1 (Nat.lt_one_iff.1 hlt)
      obtain ⟨hL, hR⟩ := leaves_leaf hA hkey
      exact ⟨_, _, _, hL, hR, rfl, rfl⟩
    · obtain ⟨m, w, rfl⟩ := depth_eq_one.1 heq
      obtain ⟨h, hL, hR, -⟩ := leaves_left hA hkey (hl (m, w.1) (by simp))
      exact ⟨_, _, _, hL, hR, ⟨m, w.1, rfl⟩, rfl, rfl⟩
  · exact rest_found_leaf hA hkey hl (hr (m, w.1) (by simp))
  · obtain ⟨h, hL, hlost, -⟩ := lost_found hA hkey hl (by simp)
    exact .lost hL hlost
  · exact rest_found_deep hA hkey hl hr
  · exact rest_found_deep hA hkey hl hr

/-! ## One level up -/

theorem IsRemnant.bounds {T : BinTree Payload} {h : Cells AvlEntry} (hrem : IsRemnant a T k h rem) :
    -1 ≤ k ∧ k < a.depth := by
  cases rem with
  | gone =>
      obtain ⟨-, rfl⟩ := hrem
      omega
  | leaf =>
      obtain ⟨-, rfl, ha⟩ := hrem
      omega
  | tree =>
      obtain ⟨c, j, x, e, -, -, hk, hlt, -⟩ := hrem
      exact ⟨by omega, hlt⟩

theorem Rest.settled (hA : AvlAt s p (mk d a n v b)) (hd : Descends key v.1 d)
    (hb : ∀ e ∈ b.records, e.2.minKey ≠ key) (hrest : Rest key s a rem k)
    (hne : (b.depth : ℤ) - 1 ≠ k + 2) : Settled key s (mk d a n v b) := by
  obtain ⟨T, r, h₁, hL, hR, hrem⟩ := hrest
  obtain ⟨h, hB⟩ := hL.back hA hd
  obtain ⟨hL', hR'⟩ := hR.up_even hA hd hB hb hrem.bounds.2 hne
  exact ⟨_, _, _, hL', hR'⟩

theorem Settled.up (hA : AvlAt s p (mk d a n v b)) (hd : Descends key v.1 d)
    (hb : ∀ e ∈ b.records, e.2.minKey ≠ key) (hset : Settled key s a) :
    Settled key s (mk d a n v b) := by
  obtain ⟨T, r, h₁, hL, hR⟩ := hset
  obtain ⟨h, hB⟩ := hL.back hA hd
  obtain ⟨-, hba, -⟩ := balanced_mk.1 hA.balanced
  obtain ⟨hL', hR'⟩ := hR.up_even hA hd hB hb (by omega) (by omega)
  exact ⟨_, _, _, hL', hR'⟩

/-- The sibling on the left is two higher. -/
theorem Rest.up_right (hA : AvlAt s p (mk .right a n v b)) (hd : Descends key v.1 .right)
    (hb : ∀ e ∈ b.records, e.2.minKey ≠ key) (hrest : Rest key s a rem k)
    (hk : (b.depth : ℤ) - 1 = k + 2) :
    if heavy .left b then Rest key s (mk .right a n v b) .tree (b.depth - 1)
    else Broken key s (mk .right a n v b) := by
  obtain ⟨T, r, h₁, hL, hR, hrem⟩ := hrest
  obtain ⟨h, hB⟩ := hL.back hA hd
  have hbounds := hrem.bounds
  cases b with
  | nil =>
      rw [depth_nil] at hk
      omega
  | node b₁ m w b₂ =>
      by_cases hheavy : b₂.depth < b₁.depth
      · rw [if_pos (heavy_left.2 hheavy)]
        obtain ⟨h', hL', hR'⟩ := hR.up_ll hA hd hB hb hk hheavy
        refine ⟨_, _, _, hL', hR', _, m, w.1, _, rfl, ?_, ?_, ?_, by simp⟩
        · rintro hnil
          obtain rfl : b₁ = nil := root_eq_none.1 (by rw [← root_strip, hnil, root_nil])
          simp at hheavy
        · rw [depth_node]
          omega
        · rw [depth_mk]
          omega
      · rw [if_neg (mt heavy_left.1 hheavy)]
        cases rem with
        | gone =>
            obtain ⟨rfl, -⟩ := hrem
            exact .faults (hR.faults hA hB hk (by simpa using hheavy))
        | leaf =>
            obtain ⟨⟨j, x, rfl⟩, rfl, ha⟩ := hrem
            exact hR.twisted hA hd hB ha (by omega) hheavy
        | tree =>
            obtain ⟨c, j, x, e, rfl, hc, -⟩ := hrem
            exact hR.lost_lr hA hB hk hheavy hc

/-- The sibling on the right is two higher, and nothing is left on the left. -/
theorem Rest.up_gone (hA : AvlAt s p (mk .left a n v b)) (hd : Descends key v.1 .left)
    (hb : ∀ e ∈ b.records, e.2.minKey ≠ key) (hrest : Rest key s a .gone k)
    (hk : (b.depth : ℤ) - 1 = k + 2) :
    if heavy .right b then Rest key s (mk .left a n v b) .tree (b.depth - 1)
    else Broken key s (mk .left a n v b) := by
  obtain ⟨_, r, h₁, hL, hR, rfl, rfl⟩ := hrest
  obtain ⟨h, hB⟩ := hL.back hA hd
  cases b with
  | nil => simp at hk
  | node b₁ m w b₂ =>
      have hdepth : (node b₁ m w b₂).depth = 2 := by omega
      by_cases hheavy : b₁.depth < b₂.depth
      · rw [if_pos (heavy_right.2 hheavy)]
        obtain ⟨h', hL', hR'⟩ := hR.up_rr hA hd hB hb hdepth hheavy
        rw [hdepth]
        refine ⟨_, _, _, hL', hR', _, m, w.1, _, rfl, by simp, by omega, ?_, ?_⟩
        · rw [depth_mk]
          omega
        · intro hnil
          obtain rfl : b₂ = nil := root_eq_none.1 (by rw [← root_strip, hnil, root_nil])
          simp at hheavy
      · rw [if_neg (mt heavy_right.1 hheavy)]
        exact .faults (hR.faults hA hB hk (by simpa using hheavy))

/-- A leaf is left. -/
theorem Rest.up_leaf (hA : AvlAt s p (mk .left a n v b)) (hd : Descends key v.1 .left)
    (hb : ∀ e ∈ b.records, e.2.minKey ≠ key) (hrest : Rest key s a .leaf k)
    (hk : (b.depth : ℤ) - 1 = k + 2) :
    if heavy .right b then Broken key s (mk .left a n v b)
    else Settled key s (mk .left a n v b) := by
  obtain ⟨_, r, h₁, hL, hR, ⟨j, x, rfl⟩, rfl, ha⟩ := hrest
  obtain ⟨h, hB⟩ := hL.back hA hd
  cases b with
  | nil => simp at hk
  | node b₁ m w b₂ =>
      by_cases hheavy : b₁.depth < b₂.depth
      · rw [if_pos (heavy_right.2 hheavy)]
        exact hR.lost_rr hA hB hb hk (Int.le_refl 0) hheavy
      · rw [if_neg (mt heavy_right.1 hheavy)]
        obtain ⟨h', hL', hR'⟩ := hR.up_rl hA hd hB hb ha (by omega) hheavy
        exact ⟨_, _, _, hL', hR'⟩

/-- More is left. -/
theorem Rest.up_tree (hA : AvlAt s p (mk .left a n v b)) (hd : Descends key v.1 .left)
    (hb : ∀ e ∈ b.records, e.2.minKey ≠ key) (hrest : Rest key s a .tree k)
    (hk : (b.depth : ℤ) - 1 = k + 2) : Broken key s (mk .left a n v b) := by
  obtain ⟨_, r, h₁, hL, hR, c, j, x, e, rfl, hc, hk₀, -, he⟩ := hrest
  obtain ⟨h, hB⟩ := hL.back hA hd
  cases b with
  | nil =>
      rw [depth_nil] at hk
      omega
  | node b₁ m w b₂ =>
      by_cases hheavy : b₁.depth < b₂.depth
      · exact hR.lost_rr hA hB hb hk hk₀ hheavy
      · by_cases hnil : e = nil
        · subst hnil
          obtain ⟨rfl, ha, htop⟩ := he rfl
          exact hR.doubled_rl hA hB ha (by omega) hheavy hc htop
        · exact hR.lost_rl hA hB hk hheavy hnil

end Outcomes

/-! ## The whole way up -/

/-- The search for the key has come down to the place `fs`. -/
def Way (key : UInt32) : Ctx (Payload × ℤ) → Prop
  | .root => True
  | .up d _ v sib fs => Descends key v.1 d ∧ (∀ e ∈ sib.records, e.2.minKey ≠ key) ∧ Way key fs

section Way

variable {key : UInt32} {s : AvlMem} {t : Tree} {fs : Ctx (Payload × ℤ)} {rem : Remnant} {k : ℤ}

theorem AvlAt.at_hole (hA : AvlAt s none (fs.plug t)) : AvlAt s (fs.parent none) t := by
  induction fs generalizing t with
  | root => exact hA
  | up d n v sib fs ih => exact (ih hA).sub

theorem Broken.plug (hA : AvlAt s none (fs.plug t)) (hway : Way key fs) (hbroken : Broken key s t) :
    Broken key s (fs.plug t) := by
  induction fs generalizing t with
  | root => exact hbroken
  | up d n v sib fs ih =>
      obtain ⟨hd, hb, hway⟩ := hway
      have hA' : AvlAt s none (fs.plug (mk d t n v sib)) := hA
      exact ih hA hway (hbroken.up hA'.at_hole hd hb)

theorem Settled.plug (hA : AvlAt s none (fs.plug t)) (hway : Way key fs) (hset : Settled key s t) :
    Succeeds key s (fs.plug t) := by
  induction fs generalizing t with
  | root =>
      obtain ⟨T, r, h, hL, hR⟩ := hset
      exact ⟨T, _, r, h, hL, hR⟩
  | up d n v sib fs ih =>
      obtain ⟨hd, hb, hway⟩ := hway
      have hA' : AvlAt s none (fs.plug (mk d t n v sib)) := hA
      exact ih hA hway (hset.up hA'.at_hole hd hb)

/-- Two conditions, one after the other. -/
theorem ite_and {P Q R B : Prop} {x y : Bool} (h : if x then P else B) (hP : P → if y then Q else R)
    (hB : B → R) : if x && y then Q else R := by
  cases x with
  | true => exact hP h
  | false => exact hB h

/-- From a right result on, `soundUp` decides. -/
theorem Rest.plug (hA : AvlAt s none (fs.plug t)) (hway : Way key fs) (hrest : Rest key s t rem k) :
    if soundUp rem k fs then Succeeds key s (fs.plug t) else Broken key s (fs.plug t) := by
  induction fs generalizing t rem k with
  | root =>
      obtain ⟨T, r, h, hL, hR, -⟩ := hrest
      exact ⟨T, k, r, h, hL, hR⟩
  | up d n v sib fs ih =>
      obtain ⟨hd, hb, hway⟩ := hway
      have hAfs : AvlAt s none (fs.plug (mk d t n v sib)) := hA
      have hA' := hAfs.at_hole
      change if soundUp rem k (.up d n v sib fs) then Succeeds key s (fs.plug (mk d t n v sib))
        else Broken key s (fs.plug (mk d t n v sib))
      by_cases hk : (sib.depth : ℤ) - 1 = k + 2
      · cases d with
        | left =>
            cases rem with
            | gone =>
                rw [show soundUp .gone k (.up .left n v sib fs) = (heavy .right sib &&
                  soundUp .tree (sib.depth - 1) fs) from if_pos hk]
                exact ite_and (hrest.up_gone hA' hd hb hk) (ih hAfs hway) (Broken.plug hAfs hway)
            | leaf =>
                have hup := hrest.up_leaf hA' hd hb hk
                rw [show soundUp .leaf k (.up .left n v sib fs) = !heavy .right sib from if_pos hk]
                cases hheavy : heavy .right sib with
                | true =>
                    rw [if_pos hheavy] at hup
                    exact hup.plug hAfs hway
                | false =>
                    rw [if_neg (by simp [hheavy])] at hup
                    exact hup.plug hAfs hway
            | tree =>
                rw [show soundUp .tree k (.up .left n v sib fs) = false from if_pos hk]
                exact (hrest.up_tree hA' hd hb hk).plug hAfs hway
        | right =>
            rw [show soundUp rem k (.up .right n v sib fs) = (heavy .left sib &&
              soundUp .tree (sib.depth - 1) fs) from if_pos hk]
            exact ite_and (hrest.up_right hA' hd hb hk) (ih hAfs hway) (Broken.plug hAfs hway)
      · rw [show soundUp rem k (.up d n v sib fs) = true from if_neg hk]
        exact (hrest.settled hA' hd hb hk).plug hAfs hway

/-- Disjoint ranges in order. -/
def Ordered (t : Tree) : Prop :=
  (∀ e ∈ t.records, e.2.minKey ≤ e.2.maxKey) ∧ t.records.Pairwise fun x y => x.2.maxKey < y.2.minKey

/-- A search tree by the lower ends of the ranges. -/
def KeyOrdered (t : Tree) : Prop := t.records.Pairwise fun x y => x.2.minKey < y.2.minKey

theorem Ordered.keyOrdered (h : Ordered t) : KeyOrdered t :=
  h.2.imp_of_mem fun hx _ hlt => UInt32.lt_of_le_of_lt (h.1 _ hx) hlt

theorem Ordered.nodup_minKey (h : Ordered t) : (t.records.map fun e => e.2.minKey).Nodup :=
  List.pairwise_map.2 (h.keyOrdered.imp UInt32.ne_of_lt)

theorem keyOrdered_node {l r : Tree} {n : ℕ} {v : Payload × ℤ} (h : KeyOrdered (node l n v r)) :
    KeyOrdered l ∧ KeyOrdered r ∧ (∀ e ∈ l.records, e.2.minKey < v.1.minKey) ∧
      ∀ e ∈ r.records, v.1.minKey < e.2.minKey := by
  rw [KeyOrdered, records_node, List.pairwise_append, List.pairwise_cons] at h
  obtain ⟨hl, ⟨hv, hr⟩, hlr⟩ := h
  exact ⟨hl, hr, fun e he => hlr e he (n, v.1) (by simp), fun e he => hv e he⟩

/-- The search for a key that is there. It ends at the node with the key. -/
theorem search_induction {P : Ctx (Payload × ℤ) → Tree → Prop}
    (found : ∀ fs l n v r, Way key fs → key = v.1.minKey → (∀ e ∈ l.records, e.2.minKey ≠ key) →
      (∀ e ∈ r.records, e.2.minKey ≠ key) → P fs (node l n v r))
    (left : ∀ fs l n v r, key ≠ v.1.minKey → key < v.1.minKey → P (.up .left n v r fs) l →
      P fs (node l n v r))
    (right : ∀ fs l n v r, key ≠ v.1.minKey → ¬ key < v.1.minKey → P (.up .right n v l fs) r →
      P fs (node l n v r))
    (hway : Way key fs) (hord : KeyOrdered t) (hkey : ∃ e ∈ t.records, e.2.minKey = key) :
    P fs t := by
  induction t generalizing fs with
  | nil => simp at hkey
  | node l n v r ihl ihr =>
      obtain ⟨hordl, hordr, hl, hr⟩ := keyOrdered_node hord
      by_cases heq : key = v.1.minKey
      · subst heq
        exact found fs l n v r hway rfl (fun e he => UInt32.ne_of_lt (hl e he)) fun e he =>
          (UInt32.ne_of_lt (hr e he)).symm
      · obtain ⟨e, he, hekey⟩ := hkey
        have he' : e ∈ l.records ∨ e = (n, v.1) ∨ e ∈ r.records := by simpa using he
        by_cases hlt : key < v.1.minKey
        · have hway' : Way key (.up .left n v r fs) := ⟨⟨heq, if_pos hlt⟩, fun x hx =>
            (UInt32.ne_of_lt (UInt32.lt_trans hlt (hr x hx))).symm, hway⟩
          refine left fs l n v r heq hlt (ihl hway' hordl ?_)
          rcases he' with he | rfl | he
          · exact ⟨e, he, hekey⟩
          · exact absurd hekey.symm heq
          · exact absurd (hekey ▸ hr e he) (UInt32.lt_asymm hlt)
        · have hgt : v.1.minKey < key := UInt32.lt_of_le_of_ne (UInt32.not_lt.1 hlt) (Ne.symm heq)
          have hway' : Way key (.up .right n v l fs) := ⟨⟨heq, if_neg hlt⟩, fun x hx =>
            UInt32.ne_of_lt (UInt32.lt_trans (hl x hx) hgt), hway⟩
          refine right fs l n v r heq hlt (ihr hway' hordr ?_)
          rcases he' with he | rfl | he
          · exact absurd (hekey ▸ hl e he) hlt
          · exact absurd hekey.symm heq
          · exact ⟨e, he, hekey⟩

/-- **The outcome of a removal**, the node with the key being below `fs`. -/
theorem outcome (hA : AvlAt s none (fs.plug t)) (hway : Way key fs) (hord : Ordered t)
    (hkey : ∃ e ∈ t.records, e.2.minKey = key) :
    if soundAt key fs t then Succeeds key s (fs.plug t) else Broken key s (fs.plug t) := by
  revert hA
  refine search_induction (P := fun fs t => AvlAt s none (fs.plug t) →
    if soundAt key fs t then Succeeds key s (fs.plug t) else Broken key s (fs.plug t))
    ?_ ?_ ?_ hway hord.keyOrdered hkey
  · intro fs l n v r hway heq hl hr hA
    rw [soundAt, if_pos heq]
    exact ite_and (rest_found hA.at_hole heq.symm hl hr) (Rest.plug hA hway) (Broken.plug hA hway)
  · intro fs l n v r heq hlt ih hA
    rw [soundAt, if_neg heq, if_pos hlt]
    exact ih hA
  · intro fs l n v r heq hlt ih hA
    rw [soundAt, if_neg heq, if_neg hlt]
    exact ih hA

end Way

/-! ## What a removal should do -/

/-- The ranges of a tree in order. -/
def linkRanges (T : BinTree Payload) : List (UInt32 × UInt32) :=
  T.entries.map fun e => (e.2.minKey, e.2.maxKey)

/-- `RemoveAvlEntry(tree, key, &root)` returns ENOENT and changes nothing where no node has the key.
    Where a node has it, the call returns 0, and `root` is the root of a tree, no node of which is
    on two paths. The node is not in it, and the ranges are the old ones but for that of the node.
    -/
structure RemovesRight (key : UInt32) (s : AvlMem) (t : Tree) : Prop where
  intro ::
  absent : (∀ e ∈ t.records, e.2.minKey ≠ key) →
    Returns (fun fuel => removeAvlEntry key fuel t.root (some .root)) s ENOENT s
  present : ∀ e ∈ t.records, e.2.minKey = key → ∃ s' T,
    Returns (fun fuel => removeAvlEntry key fuel t.root (some .root)) s 0 s' ∧
      T.root = s'.newRoot ∧ linkLayout.TreeAt (links s'.heap) none T ∧ T.Distinct ∧ e.1 ∉ T ∧
      linkRanges T = (ranges t).filter fun x => x.1 ≠ key

section Removes

variable {key : UInt32} {s : AvlMem} {p r : Ptr} {t : Tree} {h : Cells AvlEntry}
  {T : BinTree Payload} {C : Set ℕ} {L : Cells LinkCell}

/-- No node has the key. -/
theorem run_remove_absent {fuel : ℕ} (slot : Slot) (ht : avlLayout.TreeAt s.heap p t)
    (hkey : ∀ e ∈ t.records, e.2.minKey ≠ key) (hfuel : t.depth < fuel) :
    (removeAvlEntry key fuel t.root (some slot)).run s = .ok (ENOENT, s) := by
  induction t generalizing p fuel slot with
  | nil =>
      obtain ⟨fuel, rfl⟩ := Nat.exists_eq_add_one.2 (Nat.zero_lt_of_lt hfuel)
      rfl
  | node l n v r ihl ihr =>
      obtain ⟨hn, hl, hr⟩ := ht
      rw [depth_node] at hfuel
      obtain ⟨fuel, rfl⟩ := Nat.exists_eq_add_one.2 (Nat.zero_lt_of_lt hfuel)
      have hload : (load (some n)).run s = .ok (avlCell v.1 v.2 l.root r.root p, s) := by
        simp only [run_load, atEntry, hn, avlLayout_cell]
      have hv : key ≠ v.1.minKey := (hkey (n, v.1) (by simp)).symm
      -- both calls find nothing
      have hrec : ∀ d, (removeAvlEntry key fuel ((avlCell v.1 v.2 l.root r.root p).child d)
          (some (.child (some n) d))).run s = .ok (ENOENT, s) := by
        intro d
        cases d
        · exact ihl _ hl (fun e he => hkey e (by simp [he])) (by omega)
        · exact ihr _ hr (fun e he => hkey e (by simp [he])) (by omega)
      rw [root_node, removeAvlEntry]
      simp only [Option.isNone_some, Bool.false_eq_true, if_false]
      rw [Exec.run_bind_of_ok hload, if_neg (by simpa using hv), Exec.run_bind_of_ok (hrec _),
        if_pos (by simp [ENOENT])]
      rfl

theorem Leaves.returns {r : Ptr} {h : Cells AvlEntry} (hL : Leaves key s t r h) :
    Returns (fun fuel => removeAvlEntry key fuel t.root (some .root)) s 0 ⟨h, r⟩ :=
  ⟨t.depth + 1, fun fuel hfuel => (hL.run fuel .root hfuel).trans rfl⟩

theorem Faults.not_returns {r : ℤ} {s' : AvlMem} (hF : Faults key s t) :
    ¬ Returns (fun fuel => removeAvlEntry key fuel t.root (some .root)) s r s' := by
  rintro ⟨k, hk⟩
  obtain ⟨e, he⟩ := hF (max k (t.depth + 1)) .root (by omega)
  exact absurd ((hk _ (Nat.le_max_left ..)).symm.trans he) (by simp)

/-- A right outcome is what the removal should do. -/
theorem Succeeds.removesRight (hA : AvlAt s none t) (hsucc : Succeeds key s t) :
    RemovesRight key s t := by
  obtain ⟨T, k, r, h, hL, hR⟩ := hsucc
  refine ⟨fun hkey => ⟨t.depth + 1, fun fuel hfuel => ?_⟩, fun e he hekey => ?_⟩
  · exact run_remove_absent .root hA.layout hkey hfuel
  · refine ⟨⟨h, r⟩, T, hL.returns, hR.start, hR.layout, hR.distinct hA.distinct, fun hmem => ?_, ?_⟩
    · obtain ⟨e', he', heq, hkey⟩ := hR.kept hmem
      have hnodup : (t.records.map Prod.fst).Nodup := by
        rw [map_fst_records]
        exact hA.distinct
      exact hkey (List.inj_on_of_nodup_map hnodup he' he heq ▸ hekey)
    · rw [linkRanges, hR.entries, ranges, List.filter_map]
      rfl

/-! ## Wrong outcomes -/

/-- The cell of a tree's node. -/
theorem cell_of_mem_entries {e : ℕ × Payload} (hT : linkLayout.TreeAt L p T) (he : e ∈ T.entries) :
    ∃ a b, L e.1 = some (e.2, a, b) := by
  induction T generalizing p with
  | nil => simp at he
  | node a n x b iha ihb =>
      obtain ⟨hn, ha, hb⟩ := hT
      rw [entries_node, List.mem_append, List.mem_cons] at he
      rcases he with he | rfl | he
      · exact iha ha he
      · exact ⟨_, _, hn⟩
      · exact ihb hb he

/-- A tree with its root in a closed set is in the set. -/
theorem mem_of_closed (hT : linkLayout.TreeAt L p T) (hC : Closed L C) (hroot : LinkIn C T.root) :
    ∀ y ∈ T, y ∈ C := by
  induction T generalizing p with
  | nil => simp
  | node a n x b iha ihb =>
      obtain ⟨hn, ha, hb⟩ := hT
      have hnC : n ∈ C := hroot n rfl
      obtain ⟨hl, hr⟩ := hC n hnC _ hn
      intro y hy
      rcases mem_node.1 hy with rfl | hy | hy
      · exact hnC
      · exact iha ha hl y hy
      · exact ihb hb hr y hy

theorem linkAt_of_cell {n : ℕ} {x : Payload} {a b : Ptr} (hn : links h n = some (x, a, b)) :
    linkAt h n .left = a ∧ linkAt h n .right = b := by
  rw [linkAt, linkAt, hn]
  exact ⟨rfl, rfl⟩

/-- Links in a tree are to nodes other than the root. -/
theorem mem_of_linkAt {y z : ℕ} {d : Dir} (hT : linkLayout.TreeAt (links h) p T) (hd : T.Distinct)
    (hy : y ∈ T) (hz : linkAt h y d = some z) : z ∈ T ∧ T.root ≠ some z := by
  induction T generalizing p with
  | nil => simp at hy
  | node a n x b iha ihb =>
      obtain ⟨hn, ha, hb⟩ := hT
      obtain ⟨hna, hnb, hda, hdb, -⟩ := distinct_node.1 hd
      obtain ⟨hl, hr⟩ := linkAt_of_cell hn
      have hmem : z ∈ a ∨ z ∈ b := by
        rcases mem_node.1 hy with rfl | hy | hy
        · cases d with
          | left => exact .inl (mem_of_root (hl.symm.trans hz))
          | right => exact .inr (mem_of_root (hr.symm.trans hz))
        · exact .inl (iha ha hda hy).1
        · exact .inr (ihb hb hdb hy).1
      refine ⟨mem_node.2 (.inr hmem), ?_⟩
      rintro ⟨⟩
      exact hmem.elim hna hnb

/-- **No two links of a tree are to one node.** -/
theorem linkAt_injective {y₁ y₂ z : ℕ} {d₁ d₂ : Dir} (hT : linkLayout.TreeAt (links h) p T)
    (hd : T.Distinct) (hy₁ : y₁ ∈ T) (hy₂ : y₂ ∈ T) (hz₁ : linkAt h y₁ d₁ = some z)
    (hz₂ : linkAt h y₂ d₂ = some z) : (y₁, d₁) = (y₂, d₂) := by
  induction T generalizing p with
  | nil => simp at hy₁
  | node a n x b iha ihb =>
      obtain ⟨hn, ha, hb⟩ := hT
      obtain ⟨hna, hnb, hda, hdb, hab⟩ := distinct_node.1 hd
      obtain ⟨hl, hr⟩ := linkAt_of_cell hn
      -- a link of the root is to the root of a subtree, one of another node is not
      have hroot : ∀ {y d d'}, linkAt h n d = some z → y ∈ a ∨ y ∈ b → linkAt h y d' ≠ some z := by
        intro y d d' hz hy hz'
        rcases hy with hy | hy
        · obtain ⟨hza, hne⟩ := mem_of_linkAt ha hda hy hz'
          cases d with
          | left => exact hne (hl.symm.trans hz)
          | right => exact hab z hza (mem_of_root (hr.symm.trans hz))
        · obtain ⟨hzb, hne⟩ := mem_of_linkAt hb hdb hy hz'
          cases d with
          | left => exact hab z (mem_of_root (hl.symm.trans hz)) hzb
          | right => exact hne (hr.symm.trans hz)
      rcases mem_node.1 hy₁ with rfl | hm₁ | hm₁
      · rcases mem_node.1 hy₂ with rfl | hm₂
        · have hapart : ∀ z', a.root = some z' → b.root ≠ some z' := fun z' h₁ h₂ =>
            hab z' (mem_of_root h₁) (mem_of_root h₂)
          cases d₁ <;> cases d₂
          · rfl
          · exact absurd (hr.symm.trans hz₂) (hapart z (hl.symm.trans hz₁))
          · exact absurd (hr.symm.trans hz₁) (hapart z (hl.symm.trans hz₂))
          · rfl
        · exact absurd hz₂ (hroot hz₁ hm₂)
      · rcases mem_node.1 hy₂ with rfl | hm₂ | hm₂
        · exact absurd hz₁ (hroot hz₂ (.inl hm₁))
        · exact iha ha hda hm₁ hm₂
        · exact absurd (mem_of_linkAt hb hdb hm₂ hz₂).1 (hab z (mem_of_linkAt ha hda hm₁ hz₁).1)
      · rcases mem_node.1 hy₂ with rfl | hm₂ | hm₂
        · exact absurd hz₁ (hroot hz₂ (.inr hm₁))
        · exact absurd (mem_of_linkAt hb hdb hm₁ hz₁).1 (hab z (mem_of_linkAt ha hda hm₂ hz₂).1)
        · exact ihb hb hdb hm₁ hm₂

/-- The nodes that a right result would have to have. -/
theorem Enclosed.kept (hA : AvlAt s none t) (hord : Ordered t) (hE : Enclosed t C r h)
    (hcontents : ∀ n c, links h n = some c → ∃ c₀, links s.heap n = some c₀ ∧ c₀.1 = c.1)
    (hroot : T.root = r) (hT : linkLayout.TreeAt (links h) none T)
    (hranges : linkRanges T = (ranges t).filter fun x => x.1 ≠ key) :
    ∀ y, Kept key t y → y ∈ T ∧ y ∈ C := by
  have hsub : ∀ y ∈ T, y ∈ C := mem_of_closed hT hE.closed (hroot ▸ hE.start)
  have hold : linkLayout.TreeAt (links s.heap) none (strip t) := treeAt_links hA.layout
  -- the nodes there are nodes of `t`, with their contents
  have hentries : ∀ e ∈ T.entries, e ∈ t.records := by
    intro e he
    have hmem : e.1 ∈ T := mem_addrs.1 (List.mem_map_of_mem he)
    have hmem' : e.1 ∈ t := hE.sub e.1 (hsub e.1 hmem)
    obtain ⟨e', he', heq⟩ := mem_iff_records.1 hmem'
    obtain ⟨a, b, hcell⟩ := cell_of_mem_entries hT he
    obtain ⟨a', b', hcell'⟩ := cell_of_mem_entries hold (by rw [entries_strip]; exact he')
    obtain ⟨c₀, hc₀, hpay⟩ := hcontents e.1 _ hcell
    rw [heq] at hcell'
    obtain rfl := Option.some_inj.1 (hcell'.symm.trans hc₀)
    have hee : e' = e := Prod.ext heq hpay
    exact hee ▸ he'
  rintro y ⟨e, he, rfl, hkey⟩
  have hmem : (e.2.minKey, e.2.maxKey) ∈ linkRanges T := by
    rw [hranges, List.mem_filter]
    exact ⟨List.mem_map_of_mem he, by simpa using hkey⟩
  obtain ⟨e', he', heq⟩ := List.mem_map.1 hmem
  have hee : e' = e := List.inj_on_of_nodup_map hord.nodup_minKey (hentries e' he') he
    (Prod.mk.inj heq).1
  have hyT : e.1 ∈ T := hee ▸ mem_addrs.1 (List.mem_map_of_mem he')
  exact ⟨hyT, hsub _ hyT⟩

/-- A wrong outcome is not what the removal should do. -/
theorem Broken.not_removesRight (hA : AvlAt s none t) (hord : Ordered t)
    (hkey : ∃ e ∈ t.records, e.2.minKey = key) (hbroken : Broken key s t) :
    ¬ RemovesRight key s t := by
  intro hright
  obtain ⟨e, he, hekey⟩ := hkey
  obtain ⟨s', T, hret, hroot, hT, hd, -, hranges⟩ := hright.present e he hekey
  -- the state a call that returns has left, and what is there
  have hreached : ∀ {r h C}, Leaves key s t r h → Enclosed t C r h →
      linkLayout.TreeAt (links h) none T ∧ ∀ y, Kept key t y → y ∈ T ∧ y ∈ C := by
    intro r h C hL hE
    obtain ⟨-, rfl⟩ := hret.unique hL.returns
    have hconf : Confined Set.univ s.heap s.heap :=
      ⟨fun _ _ _ _ => ⟨linkIn_univ _, linkIn_univ _⟩, fun _ c hc => ⟨c, hc, rfl⟩, fun _ _ => rfl⟩
    obtain ⟨hcontents, -⟩ := keeps_remove key (t.depth + 1) t.root (some .root) s _ _ hconf
      ((hL.run _ .root (Nat.lt_succ_self _)).trans rfl)
    exact ⟨hT, hE.kept hA hord hcontents.kept hroot hT hranges⟩
  have hlinked : ∀ {r h C}, Leaves key s t r h → Enclosed t C r h → ¬ Linked key t h := by
    rintro r h C hL hE ⟨y₁, d₁, y₂, d₂, z, hy₁, hy₂, hz₁, hz₂, hne⟩
    obtain ⟨hT', hmem⟩ := hreached hL hE
    exact hne (linkAt_injective hT' hd (hmem y₁ hy₁).1 (hmem y₂ hy₂).1 hz₁ hz₂)
  cases hbroken with
  | faults hF => exact hF.not_returns hret
  | lost hL hlost =>
      obtain ⟨C, hE, e', he', hkey', heC⟩ := hlost
      exact heC ((hreached hL hE).2 e'.1 ⟨e', he', rfl, hkey'⟩).2
  | doubled hL hD =>
      obtain ⟨C, hE⟩ := hD.enclosed
      exact hlinked hL hE hD.linked
  | twisted hL hT =>
      obtain ⟨C, hE⟩ := hT.enclosed
      exact hlinked hL hE hT.linked

theorem soundAt_absent (hkey : ∀ e ∈ t.records, e.2.minKey ≠ key) (fs : Ctx (Payload × ℤ)) :
    soundAt key fs t = true := by
  induction t generalizing fs with
  | nil => rfl
  | node l n v r ihl ihr =>
      have hv : key ≠ v.1.minKey := (hkey (n, v.1) (by simp)).symm
      rw [soundAt, if_neg hv]
      by_cases hlt : key < v.1.minKey
      · rw [if_pos hlt]
        exact ihl (fun e he => hkey e (by simp [he])) _
      · rw [if_neg hlt]
        exact ihr (fun e he => hkey e (by simp [he])) _

theorem removesRight_of_sound (hA : AvlAt s none t) (hord : Ordered t) (hsound : Sound key t) :
    RemovesRight key s t := by
  by_cases hkey : ∃ e ∈ t.records, e.2.minKey = key
  · have hout := outcome (show AvlAt s none (Ctx.root.plug t) from hA) trivial hord hkey
    rw [if_pos (show soundAt key .root t = true from hsound)] at hout
    exact hout.removesRight hA
  · have habsent : ∀ e ∈ t.records, e.2.minKey ≠ key := fun e he heq => hkey ⟨e, he, heq⟩
    refine ⟨fun _ => ⟨t.depth + 1, fun fuel hfuel => ?_⟩, fun e he heq => absurd heq (habsent e he)⟩
    exact run_remove_absent .root hA.layout habsent hfuel

theorem sound_of_removesRight (hA : AvlAt s none t) (hord : Ordered t)
    (hright : RemovesRight key s t) :
    Sound key t := by
  by_cases hkey : ∃ e ∈ t.records, e.2.minKey = key
  · by_contra hunsound
    have hout := outcome (show AvlAt s none (Ctx.root.plug t) from hA) trivial hord hkey
    rw [if_neg (show ¬ soundAt key .root t = true from hunsound)] at hout
    exact hout.not_removesRight hA hord hkey hright
  · exact soundAt_absent (fun e he heq => hkey ⟨e, he, heq⟩) .root

/-- **When a removal is right**: `RemoveAvlEntry` does what it should to an AVL tree if and only if
    no step on the way is a wrong one. -/
theorem removesRight_iff_sound (hA : AvlAt s none t) (hord : Ordered t) :
    RemovesRight key s t ↔ Sound key t :=
  ⟨sound_of_removesRight hA hord, removesRight_of_sound hA hord⟩

end Removes

/-- A node for the range of one key. -/
def keyNode (key : UInt32) (height : ℤ) : Payload × ℤ := (newPayload key key [], height)

/-- 20 over 10 and 30, and 40 on the right of 30. -/
def fourKeys : Tree :=
  node (node nil 1 (keyNode 10 0) nil) 0 (keyNode 20 2)
    (node nil 2 (keyNode 30 1) (node nil 3 (keyNode 40 0) nil))

def fourKeysMem : AvlMem where
  heap := fun
    | 0 => some (avlCell (newPayload 20 20 []) 2 (some 1) (some 2) none)
    | 1 => some (avlCell (newPayload 10 10 []) 0 none none (some 0))
    | 2 => some (avlCell (newPayload 30 30 []) 1 none (some 3) (some 0))
    | 3 => some (avlCell (newPayload 40 40 []) 0 none none (some 2))
    | _ => none
  newRoot := some 0

theorem avlAt_fourKeys : AvlAt fourKeysMem none fourKeys where
  layout := ⟨rfl, ⟨rfl, trivial, trivial⟩, rfl, trivial, rfl, trivial, trivial⟩
  distinct := by simp [fourKeys]
  measured := by simp [fourKeys, BinTree.Measured, keyNode]
  balanced := by simp [fourKeys, BinTree.Balanced]

theorem ordered_fourKeys : Ordered fourKeys := by
  refine ⟨?_, ?_⟩
  · simp [fourKeys, keyNode, newPayload]
  · simp [fourKeys, keyNode, newPayload]

/-- After the removal of 10 there is a single rotation to the left, and 30 is the root. -/
theorem removesRight_iff_sound_ten : RemovesRight 10 fourKeysMem fourKeys :=
  (removesRight_iff_sound avlAt_fourKeys ordered_fourKeys).2 (by decide)

/-- The removal of 20 links 30 to itself, and 10 is lost. -/
theorem removes_wrong_twenty :
    ¬ ∀ key s t, AvlAt s none t → Ordered t → RemovesRight key s t := by
  intro hright
  have hsound := sound_of_removesRight avlAt_fourKeys ordered_fourKeys
    (hright 20 fourKeysMem fourKeys avlAt_fourKeys ordered_fourKeys)
  exact absurd hsound (by decide)

end StructLib.Avl
