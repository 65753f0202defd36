import StructLib.Avltree.Insert
import StructLib.Avltree.Links

set_option autoImplicit false

/-! # Rotations there and back

`LLRotate` rotates any tree with a left child to the right. `RRRotate` makes the left subtree of the
old root its right one, where it should have taken over the left subtree of the new root; that is
the rotation to the left where both are empty, and never else (`rotationsRight_iff_slim`). -/

namespace StructLib.Avl

open BinTree

/-- Rotated, the tree `t` has its nodes in the same order, under the same parent, with right parent
    links and heights. -/
def Rotates (rotate : Ptr → Exec AvlMem Ptr) (s : AvlMem) (p : Ptr) (t : Tree) : Prop :=
  ∃ T h, (rotate t.root).run s = .ok (T.root, { s with heap := h }) ∧ avlLayout.TreeAt h p T ∧
    T.records = t.records ∧ T.Measured

/-- After both rotations all of memory is as before. -/
def UndoneBy (rotate back : Ptr → Exec AvlMem Ptr) (s : AvlMem) (t : Tree) : Prop :=
  (rotate t.root >>= back).run s = .ok (t.root, s)

/-- Each rotation is right, and undone by the other one, where it has a child to make the root. -/
structure RotationsRight (s : AvlMem) (p : Ptr) (l : Tree) (n : ℕ) (v : Payload × ℤ) (r : Tree) :
    Prop where
  ll : l ≠ nil → Rotates llRotate s p (node l n v r)
  rr : r ≠ nil → Rotates rrRotate s p (node l n v r)
  ll_rr : l ≠ nil → UndoneBy llRotate rrRotate s (node l n v r)
  rr_ll : r ≠ nil → UndoneBy rrRotate llRotate s (node l n v r)

/-- A left child is a leaf, a right child has no left subtree, and there are not both. -/
structure Slim (l r : Tree) : Prop where
  left : l ≠ nil → ∃ m w, l = node nil m w nil
  right : r ≠ nil → l = nil ∧ ∃ m w b, r = node nil m w b

section Slim

variable {s : AvlMem} {p : Ptr} {a b c l r : Tree} {m n : ℕ} {v w : Payload × ℤ}

theorem join_of_measured (hm : (node l n v r).Measured) : join l n v.1 r = node l n v r := by
  obtain ⟨hv, -, -⟩ := hm
  rw [join, ← hv]

/-- Where the second rotation has brought the tree back and neither has touched other nodes. -/
theorem undoneBy_of_treeAt {rotate back : Ptr → Exec AvlMem Ptr} {T t : Tree} {h h' : Cells AvlEntry}
    (ht : avlLayout.TreeAt s.heap p t) (hrecords : T.records = t.records)
    (hrun : (rotate t.root).run s = .ok (T.root, { s with heap := h }))
    (hsame : ∀ y, y ∉ t → h y = s.heap y)
    (hrun' : (back T.root).run { s with heap := h } = .ok (t.root, { s with heap := h' }))
    (ht' : avlLayout.TreeAt h' p t) (hsame' : ∀ y, y ∉ T → h' y = h y) :
    UndoneBy rotate back s t := by
  have hheap : h' = s.heap := by
    funext y
    by_cases hy : y ∈ t
    · exact avlLayout.treeAt_agree ht' ht y hy
    · exact (hsame' y ((mem_congr_records hrecords).not.2 hy)).trans (hsame y hy)
  rw [UndoneBy, Exec.run_bind_of_ok hrun, hrun', hheap]

/-- `LLRotate` is right everywhere. -/
theorem rotates_ll (ht : avlLayout.TreeAt s.heap p (node l n v r)) (hd : (node l n v r).Distinct)
    (hm : (node l n v r).Measured) (hl : l ≠ nil) : Rotates llRotate s p (node l n v r) := by
  cases l with
  | nil => exact absurd rfl hl
  | node a m w b =>
      obtain ⟨-, ⟨-, ha, hb⟩, hr⟩ := hm
      obtain ⟨h, hrun, ht', -⟩ := run_llRotate hd ht ha hb hr
      exact ⟨join a m w.1 (join b n v.1 r), h, hrun, ht', by simp, rfl, ha, rfl, hb, hr⟩

/-- Two subtrees of one node with the same root are empty. -/
theorem nil_of_root_eq {V : Type} {l r : BinTree V} {v : V} (hd : (node l n v r).Distinct)
    (hroot : l.root = r.root) : l = nil := by
  obtain ⟨-, -, -, -, hlr⟩ := distinct_node.1 hd
  by_contra hl
  cases l with
  | nil => exact hl rfl
  | node l₁ k x l₂ => exact hlr k (by simp) (mem_of_root hroot.symm)

/-- A node whose first record is that of a node beyond the subtree `b` has nothing in `b`. -/
theorem nil_of_records {T₁ T₂ : List (ℕ × Payload)} {e : ℕ × Payload} (he : e.1 ∉ b)
    (h : b.records ++ T₁ = e :: T₂) : b = nil := by
  cases hb : b.records with
  | nil =>
      cases b with
      | nil => rfl
      | node b₁ k x b₂ => simp at hb
  | cons e' es =>
      rw [hb, List.cons_append, List.cons.injEq] at h
      refine absurd (mem_iff_records.2 ⟨e, ?_, rfl⟩) he
      rw [hb, h.1]
      exact List.mem_cons_self

theorem rotationsRight_of_slim (ht : avlLayout.TreeAt s.heap p (node l n v r))
    (hd : (node l n v r).Distinct) (hm : (node l n v r).Measured) (hslim : Slim l r) :
    RotationsRight s p l n v r := by
  by_cases hl : l = nil
  · subst hl
    by_cases hr : r = nil
    · subst hr
      exact ⟨absurd rfl, absurd rfl, absurd rfl, absurd rfl⟩
    · obtain ⟨-, m, w, b, rfl⟩ := hslim.right hr
      obtain ⟨-, -, -, -, hb⟩ := id hm
      have hrecords : (join (join nil n v.1 nil) m w.1 b).records =
          (node nil n v (node nil m w b)).records := by simp
      obtain ⟨h, hrun, ht', hsame⟩ := run_rrRotate hd ht hb
      obtain ⟨h', hrun', ht'', hsame'⟩ := run_llRotate (s := { s with heap := h })
        ((distinct_congr_records hrecords).2 hd) ht' trivial trivial hb
      rw [join_of_measured hm.2.2, join_of_measured hm] at ht''
      exact ⟨absurd rfl, fun _ => ⟨join (join nil n v.1 nil) m w.1 b, h, hrun, ht',
        hrecords, rfl, ⟨rfl, trivial, trivial⟩, hb⟩,
        absurd rfl, fun _ => undoneBy_of_treeAt ht hrecords hrun hsame hrun' ht'' hsame'⟩
  · obtain ⟨m, w, rfl⟩ := hslim.left hl
    obtain rfl : r = nil := by
      by_contra hr
      exact hl (hslim.right hr).1
    have hrecords : (join nil m w.1 (join nil n v.1 nil)).records =
        (node (node nil m w nil) n v nil).records := by simp
    obtain ⟨h, hrun, ht', hsame⟩ := run_llRotate hd ht trivial trivial trivial
    obtain ⟨h', hrun', ht'', hsame'⟩ := run_rrRotate (s := { s with heap := h })
      ((distinct_congr_records hrecords).2 hd) ht' trivial
    rw [join_of_measured hm.2.1, join_of_measured hm] at ht''
    exact ⟨rotates_ll ht hd hm, absurd rfl,
      fun _ => undoneBy_of_treeAt ht hrecords hrun hsame hrun' ht'' hsame', absurd rfl⟩

/-- `RRRotate` gives the old root the left subtree twice. -/
theorem links_rrRotate (ht : avlLayout.TreeAt s.heap p (node l n v (node b m w c)))
    (hd : (node l n v (node b m w c)).Distinct) :
    ∃ h, (rrRotate (some n)).run s = .ok (some m, { s with heap := h }) ∧
      links h n = some (v.1, l.root, l.root) ∧ links h m = some (w.1, some n, c.root) := by
  obtain ⟨hn, hl, hm, -, hc⟩ := treeAt_links (q := none) ht
  simp only [distinct_node, mem_node] at hd
  have hmn : m ≠ n := by grind
  have hnc : n ∉ c := by grind
  obtain ⟨h, hrun, hlinks, -⟩ := run_rrRotate_links hmn (by simpa using hn) (by simpa using hm)
    (fun k hk => ⟨linkLayout.treeAt_ne_none hc (mem_strip.2 (mem_of_root hk)), by
      rintro rfl
      exact hnc (mem_of_root hk)⟩)
    (fun k hk => linkLayout.treeAt_ne_none hl (mem_strip.2 (mem_of_root hk)))
  refine ⟨h, hrun, ?_, ?_⟩
  · rw [hlinks, Function.update_of_ne hmn.symm, Function.update_self]
  · rw [hlinks, Function.update_self]

theorem slim_right (ht : avlLayout.TreeAt s.heap p (node l n v (node b m w c)))
    (hd : (node l n v (node b m w c)).Distinct)
    (hrr : Rotates rrRotate s p (node l n v (node b m w c))) : l = nil ∧ b = nil := by
  obtain ⟨h, hrun, hn, hm⟩ := links_rrRotate ht hd
  obtain ⟨T, h', hrun', hT, hrecords, -⟩ := hrr
  obtain ⟨hroot, rfl⟩ : some m = T.root ∧ h = h' := by simpa using hrun.symm.trans hrun'
  have hdT := (distinct_congr_records hrecords).2 hd
  replace hT := treeAt_links (q := none) hT
  cases T with
  | nil => simp at hroot
  | node A k x B =>
      obtain rfl : m = k := by simpa using hroot
      obtain ⟨hk, hA, -⟩ := hT
      have hA' : A.root = some n := by simpa [hm] using (congrArg (Option.map (·.2.1)) hk).symm
      cases A with
      | nil => simp at hA'
      | node A₁ k x' A₂ =>
          obtain rfl : k = n := by simpa using hA'
          obtain ⟨hk, -⟩ := hA
          obtain ⟨-, h₁, h₂⟩ : v.1 = x'.1 ∧ l.root = A₁.root ∧ l.root = A₂.root := by
            simpa [hn] using hk
          obtain ⟨-, -, hdA, -⟩ := distinct_node.1 hdT
          obtain rfl := nil_of_root_eq hdA (h₁.symm.trans h₂)
          obtain rfl := root_eq_none.1 h₁
          obtain rfl := root_eq_none.1 h₂.symm
          have hmb : m ∉ b := by
            simp only [distinct_node, mem_node] at hd
            grind
          obtain ⟨-, hlist⟩ :
              v.1 = x'.1 ∧ b.records ++ (m, w.1) :: c.records = (m, x.1) :: B.records := by
            simpa using hrecords.symm
          exact ⟨rfl, nil_of_records hmb hlist⟩

theorem slim_left (ht : avlLayout.TreeAt s.heap p (node (node a m w b) n v r))
    (hd : (node (node a m w b) n v r).Distinct) (hm : (node (node a m w b) n v r).Measured)
    (hback : UndoneBy llRotate rrRotate s (node (node a m w b) n v r)) : a = nil ∧ b = nil := by
  obtain ⟨-, ⟨-, ha, hb⟩, hr⟩ := hm
  have hrecords : (join a m w.1 (join b n v.1 r)).records =
      (node (node a m w b) n v r).records := by simp
  obtain ⟨h, hrun, ht', -⟩ := run_llRotate hd ht ha hb hr
  obtain ⟨h', hrun', hm', -⟩ := links_rrRotate (s := { s with heap := h }) ht'
    ((distinct_congr_records hrecords).2 hd)
  rw [UndoneBy, root_node, Exec.run_bind_of_ok hrun, hrun'] at hback
  obtain rfl : h' = s.heap := congrArg (·.2.heap) (Except.ok.inj hback)
  obtain ⟨-, ⟨hm, -⟩, -⟩ := treeAt_links (q := none) ht
  have hroot : a.root = b.root := by
    simpa using (congrArg (Option.map (·.2.2)) (hm'.symm.trans hm))
  obtain ⟨-, -, hdm, -⟩ := distinct_node.1 hd
  obtain rfl := nil_of_root_eq hdm hroot
  exact ⟨rfl, root_eq_none.1 hroot.symm⟩

theorem slim_of_rotationsRight (ht : avlLayout.TreeAt s.heap p (node l n v r))
    (hd : (node l n v r).Distinct) (hm : (node l n v r).Measured)
    (hright : RotationsRight s p l n v r) : Slim l r where
  left hl := by
    cases l with
    | nil => exact absurd rfl hl
    | node a m w b =>
        obtain ⟨rfl, rfl⟩ := slim_left ht hd hm (hright.ll_rr hl)
        exact ⟨m, w, rfl⟩
  right hr := by
    cases r with
    | nil => exact absurd rfl hr
    | node b m w c =>
        obtain ⟨rfl, rfl⟩ := slim_right ht hd (hright.rr hr)
        exact ⟨rfl, m, w, c, rfl⟩

end Slim

/-! ## Every tree -/

/-- **When the rotations undo each other**: at any node of a tree with right heights and parent
    links, each rotation keeps the order, the parent, the links and the heights and is undone by the
    other one, if and only if the node has at most one child, a left child being a leaf and a right
    child having no left subtree. -/
theorem rotationsRight_iff_slim {s : AvlMem} {p : Ptr} {l r : Tree} {n : ℕ} {v : Payload × ℤ}
    (ht : avlLayout.TreeAt s.heap p (node l n v r)) (hd : (node l n v r).Distinct)
    (hm : (node l n v r).Measured) : RotationsRight s p l n v r ↔ Slim l r :=
  ⟨slim_of_rotationsRight ht hd hm, rotationsRight_of_slim ht hd hm⟩

/-- 20 over 10. -/
def twoKeys : Tree :=
  node (node nil 1 (newPayload 10 10 [], 0) nil) 0 (newPayload 20 20 [], 1) nil

def twoKeysMem : AvlMem where
  heap := fun
    | 0 => some (avlCell (newPayload 20 20 []) 1 (some 1) none none)
    | 1 => some (avlCell (newPayload 10 10 []) 0 none none (some 0))
    | _ => none
  newRoot := some 0

/-- 10 is rotated up and down again. -/
theorem rotationsRight_iff_slim_two : UndoneBy llRotate rrRotate twoKeysMem twoKeys := by
  have ht : avlLayout.TreeAt twoKeysMem.heap none twoKeys :=
    ⟨rfl, ⟨rfl, trivial, trivial⟩, trivial⟩
  have hright := (rotationsRight_iff_slim ht (by simp) ⟨rfl, ⟨rfl, trivial, trivial⟩, trivial⟩).2
    ⟨fun _ => ⟨1, (newPayload 10 10 [], 0), rfl⟩, absurd rfl⟩
  exact hright.ll_rr (by simp)

/-- 20 over 10 and 30. -/
def threeKeys : Tree :=
  node (node nil 1 (newPayload 10 10 [], 0) nil) 0 (newPayload 20 20 [], 1)
    (node nil 2 (newPayload 30 30 [], 0) nil)

def threeKeysMem : AvlMem where
  heap := fun
    | 0 => some (avlCell (newPayload 20 20 []) 1 (some 1) (some 2) none)
    | 1 => some (avlCell (newPayload 10 10 []) 0 none none (some 0))
    | 2 => some (avlCell (newPayload 30 30 []) 0 none none (some 0))
    | _ => none
  newRoot := some 0

/-- The rotation of 30 up links 20 to 10 twice. -/
theorem rotations_wrong_three : avlLayout.TreeAt threeKeysMem.heap none threeKeys ∧
    threeKeys.Distinct ∧ threeKeys.Measured ∧ threeKeys.Balanced ∧
      ¬ ∀ l n v r, threeKeys = node l n v r → RotationsRight threeKeysMem none l n v r := by
  have ht : avlLayout.TreeAt threeKeysMem.heap none threeKeys :=
    ⟨rfl, ⟨rfl, trivial, trivial⟩, rfl, trivial, trivial⟩
  have hd : threeKeys.Distinct := by simp [threeKeys]
  refine ⟨ht, hd, by simp [threeKeys, BinTree.Measured], by simp [threeKeys, BinTree.Balanced],
    fun hright => ?_⟩
  exact absurd (slim_right ht hd ((hright _ _ _ _ rfl).rr (by simp))).1 (by simp)

end StructLib.Avl
