import StructLib.Avltree.Model
import StructLib.Lib.AvlTree

set_option autoImplicit false

/-! # AVL trees in memory

How a tree of `Payload`s with stored heights lies in `AvlMem.heap` (`avlLayout`), and what the field
accesses and `LLRotate` do to such a memory. `RRRotate` is a rotation only at a node without a left
subtree (`run_rrRotate`). -/

namespace StructLib.Avl

open BinTree

/-- What a node holds besides its links and its height. -/
structure Payload where
  minKey : UInt32
  maxKey : UInt32
  balanceFactor : ℤ
  dataLen : ℤ
  data : List UInt8
  deriving DecidableEq, Repr

/-- The tree that a pointer to an `avltree_t` stands for. -/
abbrev Tree := BinTree (Payload × ℤ)

/-- The record of a node. -/
def avlCell (x : Payload) (k : ℤ) (l r p : Ptr) : AvlEntry :=
  { minKey := x.minKey, maxKey := x.maxKey, left := l, right := r, parent := p, height := k,
    balanceFactor := x.balanceFactor, dataLen := x.dataLen, data := x.data }

def avlLayout : Layout (Payload × ℤ) AvlEntry := ⟨fun v l r p => avlCell v.1 v.2 l r p⟩

section Cell

variable (x : Payload) (k : ℤ) (l r p : Ptr) (v : Payload × ℤ)

@[simp] theorem avlLayout_cell : avlLayout.cell v l r p = avlCell v.1 v.2 l r p := rfl

@[simp] theorem avlCell_minKey : (avlCell x k l r p).minKey = x.minKey := rfl

@[simp] theorem avlCell_maxKey : (avlCell x k l r p).maxKey = x.maxKey := rfl

@[simp] theorem avlCell_left : (avlCell x k l r p).left = l := rfl

@[simp] theorem avlCell_right : (avlCell x k l r p).right = r := rfl

@[simp] theorem avlCell_parent : (avlCell x k l r p).parent = p := rfl

@[simp] theorem avlCell_height : (avlCell x k l r p).height = k := rfl

@[simp] theorem avlCell_balanceFactor : (avlCell x k l r p).balanceFactor = x.balanceFactor := rfl

@[simp] theorem avlCell_dataLen : (avlCell x k l r p).dataLen = x.dataLen := rfl

@[simp] theorem avlCell_data : (avlCell x k l r p).data = x.data := rfl

/-- An assignment to a link or to the height leaves such a record. -/
@[simp] theorem avlCell_fold :
    ({ minKey := x.minKey, maxKey := x.maxKey, left := l, right := r, parent := p, height := k,
       balanceFactor := x.balanceFactor, dataLen := x.dataLen, data := x.data } : AvlEntry) =
      avlCell x k l r p := rfl

variable (d : Dir) (a b : Ptr)

@[simp] theorem avlCellOf_child : (avlLayout.cellOf d v a b p).child d = a := by cases d <;> rfl

@[simp] theorem avlCellOf_child_flip : (avlLayout.cellOf d v a b p).child d.flip = b := by
  cases d <;> rfl

@[simp] theorem avlCellOf_minKey : (avlLayout.cellOf d v a b p).minKey = v.1.minKey := by
  cases d <;> rfl

@[simp] theorem avlCellOf_maxKey : (avlLayout.cellOf d v a b p).maxKey = v.1.maxKey := by
  cases d <;> rfl

@[simp] theorem avlCellOf_setChild :
    (avlLayout.cellOf d v a b p).setChild d l = avlLayout.cellOf d v l b p := by cases d <;> rfl

end Cell

/-! ## Field accesses -/

section Access

variable {s : AvlMem} {n : ℕ} {q : Ptr} {k : ℤ}

/-- The outcome of an access to the node at `n`. -/
def atEntry {α : Type} (s : AvlMem) (n : ℕ) (f : AvlEntry → α × AvlMem) :
    Except Fault (α × AvlMem) :=
  match s.heap n with
  | some r => .ok (f r)
  | none => .error .undef

theorem run_load : (load (some n)).run s = atEntry s n fun r => (r, s) := by
  cases h : s.heap n <;> simp [load, atEntry, h]

theorem run_modifyEntry {f : AvlEntry → AvlEntry} : (modifyEntry (some n) f).run s =
    atEntry s n fun r => ((), { s with heap := Function.update s.heap n (some (f r)) }) := by
  cases h : s.heap n <;> simp [modifyEntry, StateT.run_bind, run_load, atEntry, h]

theorem run_setChild {d : Dir} : (setChild d (some n) q).run s = atEntry s n fun r =>
    ((), { s with heap := Function.update s.heap n (some (r.setChild d q)) }) :=
  run_modifyEntry

theorem run_setParent : (setParent (some n) q).run s = atEntry s n fun r =>
    ((), { s with heap := Function.update s.heap n (some { r with parent := q }) }) :=
  run_modifyEntry

theorem run_setHeight : (setHeight (some n) k).run s = atEntry s n fun r =>
    ((), { s with heap := Function.update s.heap n (some { r with height := k }) }) :=
  run_modifyEntry

end Access

section Subtrees

variable {s : AvlMem} {p q : Ptr} {t l r : Tree} {n : ℕ} {x : Payload} {k : ℤ}

/-- `GetHeight` is the depth counted in edges. -/
theorem run_getHeight (ht : avlLayout.TreeAt s.heap p t) (hm : t.Measured) :
    (getHeight t.root).run s = .ok ((t.depth : ℤ) - 1, s) := by
  cases t with
  | nil => rfl
  | node l n v r => simp [getHeight, run_load, atEntry, ht.1, hm.1]

theorem run_heightOfChildren (hn : s.heap n = some (avlCell x k l.root r.root p))
    (hl : avlLayout.TreeAt s.heap q l) (hr : avlLayout.TreeAt s.heap q r) (hlm : l.Measured)
    (hrm : r.Measured) :
    (heightOfChildren (some n)).run s = .ok (((max l.depth r.depth : ℕ) : ℤ), s) := by
  simp only [heightOfChildren, StateT.run_bind, run_load, atEntry, hn, ok_bind, avlCell_left,
    avlCell_right, run_getHeight hl hlm, run_getHeight hr hrm, StateT.run_pure, pure_eq_ok,
    Except.ok.injEq, Prod.mk.injEq, and_true]
  omega

theorem run_adopt (ht : avlLayout.TreeAt s.heap p t) :
    (adopt t.root q).run s = .ok ((), { s with heap := avlLayout.reparent t q s.heap }) := by
  cases t with
  | nil => rfl
  | node l n v r => simp [adopt, run_setParent, atEntry, ht.1, Layout.reparent]

theorem run_setParent_root (hne : t ≠ nil) (ht : avlLayout.TreeAt s.heap p t) :
    (setParent t.root q).run s = .ok ((), { s with heap := avlLayout.reparent t q s.heap }) := by
  cases t with
  | nil => exact absurd rfl hne
  | node l n v r => exact run_adopt ht

end Subtrees

/-! ## Rotations -/

section Rotations

variable {s : AvlMem} {p q : Ptr} {a b c : Tree} {m n : ℕ} {v w : Payload × ℤ}

/-- The heights once the links are in place: the new root `m` has kept its subtree `a`, the old root
    `n` has the subtrees `b` and `c`. -/
theorem run_setRotatedHeights {outer : AvlEntry → Ptr} {x y : Payload} {j k : ℤ} {lm rm : Ptr}
    (hmn : m ≠ n) (hn : s.heap n = some (avlCell x k b.root c.root q))
    (hm : s.heap m = some (avlCell y j lm rm p)) (houter : outer (avlCell y j lm rm p) = a.root)
    (hta : avlLayout.TreeAt s.heap (some m) a) (htb : avlLayout.TreeAt s.heap (some n) b)
    (htc : avlLayout.TreeAt s.heap (some n) c) (ha : a.Measured) (hb : b.Measured)
    (hc : c.Measured) (hna : n ∉ a) :
    (setRotatedHeights outer (some n) (some m)).run s = .ok ((), { s with
      heap := Function.update
        (Function.update s.heap n
          (some (avlCell x (max b.depth c.depth : ℕ) b.root c.root q))) m
        (some (avlCell y (max a.depth (max b.depth c.depth + 1) : ℕ) lm rm p)) }) := by
  simp only [setRotatedHeights, StateT.run_bind]
  rw [run_heightOfChildren hn htb htc hb hc]
  simp only [ok_bind, run_setHeight, run_load, atEntry, hn, hm, avlCell_minKey, avlCell_maxKey,
    avlCell_left, avlCell_right, avlCell_parent, avlCell_balanceFactor, avlCell_dataLen,
    avlCell_data, avlCell_fold, Function.update_of_ne hmn, houter]
  rw [run_getHeight (p := some m) (by simpa [hna] using hta) ha]
  simp only [ok_bind, Function.update_self, Function.update_of_ne hmn, hm, avlCell_minKey,
    avlCell_maxKey, avlCell_left, avlCell_right, avlCell_parent, avlCell_height,
    avlCell_balanceFactor, avlCell_dataLen, avlCell_data, avlCell_fold]
  have hmax : max ((a.depth : ℤ) - 1) ((max b.depth c.depth : ℕ) : ℤ) + 1 =
      ((max a.depth (max b.depth c.depth + 1) : ℕ) : ℤ) := by omega
  rw [hmax]

/-- `LLRotate` turns the tree to the right. -/
theorem run_llRotate (hd : (node (node a m v b) n w c).Distinct)
    (ht : avlLayout.TreeAt s.heap p (node (node a m v b) n w c))
    (ha : a.Measured) (hb : b.Measured) (hc : c.Measured) :
    ∃ h, (llRotate (some n)).run s = .ok (some m, { s with heap := h }) ∧
      avlLayout.TreeAt h p (join a m v.1 (join b n w.1 c)) ∧
      ∀ x, x ∉ node (node a m v b) n w c → h x = s.heap x := by
  obtain ⟨hn, ⟨hm, hta, htb⟩, htc⟩ := ht
  simp only [distinct_node, mem_node] at hd
  obtain ⟨hmn, hna, hnb, hnc, hma, hmb, hmc⟩ : m ≠ n ∧ n ∉ a ∧ n ∉ b ∧ n ∉ c ∧ m ∉ a ∧ m ∉ b ∧
      m ∉ c := by grind
  obtain ⟨hba, hbc, hdb⟩ : (∀ x ∈ b, x ∉ a) ∧ (∀ x ∈ b, x ∉ c) ∧ b.Distinct := by grind
  simp only [root_node, avlLayout_cell] at hn hm
  simp only [llRotate, StateT.run_bind, run_load, run_setParent, run_setChild, AvlEntry.setChild,
    atEntry, hn, hm, ok_bind, avlCell_left, avlCell_right, avlCell_parent, avlCell_minKey, avlCell_maxKey,
    avlCell_height, avlCell_balanceFactor, avlCell_dataLen, avlCell_data, avlCell_fold,
    Function.update_self, Function.update_of_ne hmn, Function.update_of_ne hmn.symm]
  rw [run_adopt (p := some m) (by simpa [hmb, hnb] using htb)]
  simp only [ok_bind, Function.update_self, avlLayout.reparent_of_not_mem hmb,
    Function.update_of_ne hmn, avlCell_left, avlCell_parent, avlCell_minKey, avlCell_maxKey,
    avlCell_height, avlCell_balanceFactor, avlCell_dataLen, avlCell_data, avlCell_fold]
  have hb' : avlLayout.TreeAt (avlLayout.reparent b (some n) (Function.update (Function.update
      (Function.update s.heap m (some (avlCell v.1 v.2 a.root b.root p))) n
      (some (avlCell w.1 w.2 (some m) c.root (some m)))) n
      (some (avlCell w.1 w.2 b.root c.root (some m))))) (some n) b :=
    avlLayout.treeAt_reparent_self hdb (p := some m) (by simpa [hmb, hnb] using htb)
  rw [run_setRotatedHeights (a := a) (b := b) (c := c) (x := w.1) (k := w.2) (q := some m)
    (y := v.1) (j := v.2) hmn (by simp [hmn.symm, avlLayout.reparent_of_not_mem hnb])
      (Function.update_self ..) rfl
    (by simpa [hma, hna, avlLayout.treeAt_reparent hba] using hta) (by simpa [hmb] using hb')
    (by simpa [hmc, hnc, avlLayout.treeAt_reparent hbc] using htc) ha hb hc hna]
  refine ⟨_, rfl, ⟨?_, ?_, ?_, ?_, ?_⟩, fun x hx => ?_⟩
  · simp [join]
  · simpa [hma, hna, avlLayout.treeAt_reparent hba] using hta
  · simp [hmn.symm]
  · simpa [hmb, hnb] using hb'
  · simpa [hmc, hnc, avlLayout.treeAt_reparent hbc] using htc
  · simp only [mem_node, not_or] at hx
    simp [hx, avlLayout.reparent_of_not_mem hx.2.1.2.2]

/-- `RRRotate` at a node with no left subtree whose right child has none either. -/
theorem run_rrRotate (hd : (node nil n w (node nil m v a)).Distinct)
    (ht : avlLayout.TreeAt s.heap p (node nil n w (node nil m v a))) (ha : a.Measured) :
    ∃ h, (rrRotate (some n)).run s = .ok (some m, { s with heap := h }) ∧
      avlLayout.TreeAt h p (join (join nil n w.1 nil) m v.1 a) ∧
      ∀ x, x ∉ node nil n w (node nil m v a) → h x = s.heap x := by
  obtain ⟨hn, -, hm, -, hta⟩ := ht
  simp only [distinct_node, mem_node] at hd
  obtain ⟨hmn, hna, hma⟩ : m ≠ n ∧ n ∉ a ∧ m ∉ a := by grind
  simp only [root_nil, root_node, avlLayout_cell] at hn hm
  simp only [rrRotate, StateT.run_bind, run_load, run_setParent, run_setChild, AvlEntry.setChild,
    atEntry, hn, hm, ok_bind, avlCell_left, avlCell_right, avlCell_parent, avlCell_minKey, avlCell_maxKey,
    avlCell_height, avlCell_balanceFactor, avlCell_dataLen, avlCell_data, avlCell_fold,
    Function.update_self, Function.update_of_ne hmn, Function.update_of_ne hmn.symm, adopt,
    Option.isSome_none, Bool.false_eq_true, if_false, StateT.run_pure, pure_eq_ok]
  rw [run_setRotatedHeights (a := a) (b := nil) (c := nil) (x := w.1) (k := w.2) (q := some m)
    (y := v.1) (j := v.2) hmn (by simp [hmn.symm]) (Function.update_self ..) rfl
    (by simpa [hma, hna] using hta) trivial trivial ha trivial trivial hna]
  refine ⟨_, rfl, ⟨?_, ⟨?_, trivial, trivial⟩, ?_⟩, fun x hx => ?_⟩
  · simp [join, Nat.max_comm]
  · simp [hmn.symm]
  · simpa [hma, hna] using hta
  · simp only [mem_node, not_or] at hx
    simp [hx]

end Rotations

end StructLib.Avl
