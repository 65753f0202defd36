import StructLib.Avltree.Confined

set_option autoImplicit false

/-! # The removed node

What `RemoveAvlEntry` does at the node with the key. The least node `m` of the right subtree, or
else the greatest one of the left subtree, takes its place, with the height that it has at the time.
This goes well but for two shapes: a replacement that is itself the right child and has a right
child (`lost_found`), and one that is a leaf and the right child where the left child has a right
child (`faults_found`). -/

namespace StructLib.Avl

open BinTree

/-! ## Outcomes -/

/-- Memory holds the AVL tree `t`, whose root has the parent `p`. -/
structure AvlAt (s : AvlMem) (p : Ptr) (t : Tree) : Prop where
  intro ::
  layout : avlLayout.TreeAt s.heap p t
  distinct : t.Distinct
  measured : t.Measured
  balanced : t.Balanced

/-- Pass `r` on through `new_tree` and return. -/
def passPtr (r : Ptr) (slot : Slot) : Exec AvlMem ℤ := do
  slot.write r
  return 0

/-- Called for the tree `t`, the removal comes to the memory `h` and passes `r` on. -/
structure Leaves (key : UInt32) (s : AvlMem) (t : Tree) (r : Ptr) (h : Cells AvlEntry) : Prop where
  intro ::
  run : ∀ fuel slot, t.depth < fuel → (removeAvlEntry key fuel t.root (some slot)).run s =
    (passPtr r slot).run { s with heap := h }
  same : ∀ y, y ∉ t → h y = s.heap y

/-- Called for the tree `t`, the removal does not return. -/
def Faults (key : UInt32) (s : AvlMem) (t : Tree) : Prop :=
  ∀ fuel slot, t.depth < fuel →
    ∃ e, (removeAvlEntry key fuel t.root (some slot)).run s = .error e

/-- At `r` there is a tree of the nodes of `t` without the key, in their order. The height stored at
    its root is `k`. -/
structure Right (key : UInt32) (t : Tree) (T : BinTree Payload) (k : ℤ) (r : Ptr)
    (h : Cells AvlEntry) : Prop where
  intro ::
  start : T.root = r
  layout : linkLayout.TreeAt (links h) none T
  entries : T.entries = t.records.filter fun e => e.2.minKey ≠ key
  height : topHeight (heights h) r = k

/-- What can be reached from `r` is in `C`. -/
structure Enclosed (t : Tree) (C : Set ℕ) (r : Ptr) (h : Cells AvlEntry) : Prop where
  intro ::
  sub : ∀ n ∈ C, n ∈ t
  closed : Closed (links h) C
  start : LinkIn C r

/-- A node other than the removed one cannot be reached. -/
def Lost (key : UInt32) (t : Tree) (r : Ptr) (h : Cells AvlEntry) : Prop :=
  ∃ C, Enclosed t C r h ∧ ∃ e ∈ t.records, e.2.minKey ≠ key ∧ e.1 ∉ C

section Basics

variable {s : AvlMem} {p q : Ptr} {t l r : Tree} {n m : ℕ} {v w : Payload × ℤ} {h : Cells AvlEntry}

theorem linkLayout_treeAt_parent {L : Cells LinkCell} {T : BinTree Payload} :
    linkLayout.TreeAt L p T ↔ linkLayout.TreeAt L q T := by cases T <;> exact Iff.rfl

/-- The nodes of a tree are in memory. -/
theorem links_root_ne_none {L : Cells LinkCell} {T : BinTree Payload}
    (hT : linkLayout.TreeAt L p T) : ∀ k, T.root = some k → L k ≠ none :=
  fun _ hk => linkLayout.treeAt_ne_none hT (mem_of_root hk)

/-- The links of a tree's nodes are to its nodes. -/
theorem linkIn_of_treeAt {L : Cells LinkCell} {T : BinTree Payload} {C : Set ℕ} {y : ℕ}
    {cell : LinkCell} (hT : linkLayout.TreeAt L p T) (hC : ∀ k ∈ T, k ∈ C) (hy : y ∈ T)
    (hcell : L y = some cell) : LinkIn C cell.2.1 ∧ LinkIn C cell.2.2 := by
  induction T generalizing p with
  | nil => simp at hy
  | node a j x b iha ihb =>
      obtain ⟨hj, ha, hb⟩ := hT
      rcases mem_node.1 hy with rfl | hy | hy
      · obtain rfl := Option.some_inj.1 (hj.symm.trans hcell)
        exact ⟨fun k hk => hC k (by simp [mem_of_root hk]), fun k hk => hC k (by simp [mem_of_root hk])⟩
      · exact iha ha (fun k hk => hC k (by simp [hk])) hy
      · exact ihb hb (fun k hk => hC k (by simp [hk])) hy

/-- A leaf. -/
theorem depth_eq_one {V : Type} {t : BinTree V} :
    t.depth = 1 ↔ ∃ m v, t = node nil m v nil := by
  constructor
  · intro ht
    cases t with
    | nil => simp at ht
    | node l m v r =>
        obtain ⟨rfl, rfl⟩ : l = nil ∧ r = nil := by
          rw [← depth_eq_zero, ← depth_eq_zero]
          rw [depth_node] at ht
          omega
        exact ⟨m, v, rfl⟩
  · rintro ⟨m, v, rfl⟩
    rfl

/-! ## The least node -/

/-- The least node. -/
def leftmost : Tree → Ptr
  | nil => none
  | node nil n _ _ => some n
  | node l _ _ _ => leftmost l

/-- The height stored there. -/
def leftmostHeight : Tree → ℤ
  | nil => -1
  | node nil _ v _ => v.2
  | node l _ _ _ => leftmostHeight l

/-- The tree without its least node. -/
def dropLeftmost : BinTree Payload → BinTree Payload
  | nil => nil
  | node nil _ _ r => r
  | node l n v r => node (dropLeftmost l) n v r

@[simp] theorem dropLeftmost_leaf (n : ℕ) (x : Payload) (b : BinTree Payload) :
    dropLeftmost (node nil n x b) = b := rfl

theorem dropLeftmost_node {a : BinTree Payload} {x : Payload} {b : BinTree Payload} (ha : a ≠ nil) :
    dropLeftmost (node a n x b) = node (dropLeftmost a) n x b := by
  cases a with
  | nil => exact absurd rfl ha
  | node a₁ k y a₂ => rfl

theorem leftmost_eq_head (t : Tree) : leftmost t = t.addrs.head? := by
  induction t with
  | nil => rfl
  | node l n v r ihl ihr =>
      cases l with
      | nil => rfl
      | node l' k u r' =>
          have hne : (node l' k u r').addrs ≠ [] := by simp [addrs]
          rw [addrs_node, List.head?_append_of_ne_nil _ hne, ← ihl]
          rfl

theorem run_getMin {fuel : ℕ} (ht : avlLayout.TreeAt s.heap p t) (hfuel : t.depth ≤ fuel) :
    (getMinAvlEntry fuel t.root).run s = .ok (leftmost t, s) := by
  have hT : linkLayout.TreeAt (links s.heap) none (strip t) := treeAt_links ht
  rw [leftmost_eq_head, ← addrs_strip, ← root_strip]
  exact run_outermostEntry_links (d := .left) hT (by rwa [depth_strip])

/-- The least node `m` of `t` is the left child of `z`; its only subtree has the root `c`. -/
structure LeftmostAt (h : Cells AvlEntry) (t : Tree) (m z : ℕ) (w : Payload × ℤ) (c : Ptr)
    (x : Payload) (e : Ptr) : Prop where
  leftmost : leftmost t = some m
  height : leftmostHeight t = w.2
  cell : h m = some (avlCell w.1 w.2 none c (some z))
  parent : links h z = some (x, some m, e)
  mem : m ∈ t
  mem_parent : z ∈ t
  ne : m ≠ z
  root : (dropLeftmost (strip t)).root = t.root
  entries : t.records = (m, w.1) :: (dropLeftmost (strip t)).entries
  /-- Where `z` gets the subtree of `m`, the rest of the tree is there. -/
  layout : ∀ L : Cells LinkCell, L z = some (x, c, e) →
    (∀ y ∈ t, y ≠ z → y ≠ m → L y = links h y) →
    linkLayout.TreeAt L none (dropLeftmost (strip t))

theorem links_of_cell {h : Cells AvlEntry} {a b : Ptr}
    (hn : h n = some (avlCell v.1 v.2 a b p)) : links h n = some (v.1, a, b) := by
  rw [links, hn]
  rfl

theorem exists_leftmostAt {h : Cells AvlEntry} (ht : avlLayout.TreeAt h p (node l n v r))
    (hd : (node l n v r).Distinct) (hne : l ≠ nil) :
    ∃ m z w c x e, LeftmostAt h (node l n v r) m z w c x e := by
  induction l generalizing p n v r with
  | nil => exact absurd rfl hne
  | node a m w c iha _ =>
      obtain ⟨hn, hl, hr⟩ := ht
      have hdl := (distinct_node.1 hd).2.2.1
      simp only [distinct_node, mem_node, not_or] at hd
      obtain ⟨⟨hnm, hna, hnc⟩, hnr, ⟨hma, hmc, -⟩, -, hlr⟩ := hd
      -- the rest of the tree is not touched
      have hrest : ∀ {L : Cells LinkCell} {u : Tree} {q : Ptr}, avlLayout.TreeAt h q u →
          (∀ y ∈ u, L y = links h y) → linkLayout.TreeAt L none (strip u) := fun hu hsame =>
        linkLayout.treeAt_congr (treeAt_links hu) fun y hy => hsame y (mem_strip.1 hy)
      by_cases ha : a = nil
      · subst ha
        obtain ⟨hm, -, hc⟩ := hl
        refine ⟨m, n, w, c.root, v.1, r.root, ⟨rfl, rfl, hm, links_of_cell hn, by simp, by simp,
          Ne.symm hnm, rfl, by simp [dropLeftmost], fun L hL hsame => ⟨?_, ?_, ?_⟩⟩⟩
        · simpa using hL
        · refine linkLayout_treeAt_parent.1 (hrest hc fun y hy => hsame y (by simp [hy]) ?_ ?_)
          · rintro rfl
            exact hnc hy
          · rintro rfl
            exact hmc hy
        · refine linkLayout_treeAt_parent.1 (hrest hr fun y hy => hsame y (by simp [hy]) ?_ ?_)
          · rintro rfl
            exact hnr hy
          · rintro rfl
            exact hlr y (.inl rfl) hy
      · obtain ⟨m', z, w', c', x, e, hlm⟩ := iha hl hdl ha
        obtain ⟨hm', hz⟩ := hlm.mem, hlm.mem_parent
        have hstrip : strip (node a m w c) ≠ nil := by simp
        have hdrop := dropLeftmost_node (n := n) (x := v.1) (b := strip r) hstrip
        refine ⟨m', z, w', c', x, e, ⟨hlm.leftmost, hlm.height, hlm.cell, hlm.parent, ?_, ?_, hlm.ne,
          ?_, ?_, fun L hL hsame => ?_⟩⟩
        · exact mem_node.2 (.inr (.inl hlm.mem))
        · exact mem_node.2 (.inr (.inl hlm.mem_parent))
        · rw [strip_node, hdrop]
          rfl
        · rw [strip_node, hdrop, records_node, hlm.entries]
          simp
        · rw [strip_node, hdrop]
          have hnl : n ∉ node a m w c := by simp [hnm, hna, hnc]
          refine ⟨?_, linkLayout_treeAt_parent.1 (hlm.layout L hL fun y hy => hsame y (by simp [hy])),
            linkLayout_treeAt_parent.1 (hrest hr fun y hy => hsame y (by simp [hy]) ?_ ?_)⟩
          · rw [hsame n (by simp) (by rintro rfl; exact hnl hlm.mem_parent)
              (by rintro rfl; exact hnl hlm.mem), links_of_cell hn, hlm.root]
            simp
          · rintro rfl
            exact hlr y (mem_node.1 hlm.mem_parent) hy
          · rintro rfl
            exact hlr y (mem_node.1 hlm.mem) hy

end Basics

/-! ## Taking the place of the removed node -/

section Unlink

variable {s : AvlMem} {n m z : ℕ} {v w x : Payload} {a b c e l : Ptr} {k : ℤ}

/-- Where the replacement has a right child or is a left child, its parent gets the child on the
    left. -/
theorem run_unlinkEntry_left (hm : s.heap m = some (avlCell w k none c (some z)))
    (hz : links s.heap z = some (x, l, e)) (hc : c ≠ none ∨ l = some m) :
    ∃ h, (unlinkEntry (some m)).run s = .ok ((), { s with heap := h }) ∧
      links h = Function.update (links s.heap) z (some (x, c, e)) ∧ heights h = heights s.heap ∧
      ∀ y, y ≠ z → h y = s.heap y := by
  have hload : (load (some m)).run s = .ok (avlCell w k none c (some z), s) := by
    simp only [run_load, atEntry, hm]
  obtain ⟨h, hset, hl, hh, hsame⟩ := run_setChild_links (d := .left) (q := c) hz
  refine ⟨h, ?_, hl, hh, hsame⟩
  unfold unlinkEntry
  rw [Exec.run_bind_of_ok hload]
  cases c with
  | some j => exact hset
  | none =>
      obtain ⟨r, hloadz, -, hzl, -⟩ := run_load_links hz
      have hlm : r.left = some m := hzl.trans (hc.resolve_left (by simp))
      simp only [avlCell_left, avlCell_right, avlCell_parent, Option.isSome_none,
        Bool.false_eq_true,
        if_false]
      rw [Exec.run_bind_of_ok hloadz, if_pos hlm]
      exact hset

/-- A replacement without a child that is the right child is taken out there. -/
theorem run_unlinkEntry_right (hm : s.heap m = some (avlCell w k none none (some z)))
    (hz : links s.heap z = some (x, l, e)) (hlm : l ≠ some m) :
    ∃ h, (unlinkEntry (some m)).run s = .ok ((), { s with heap := h }) ∧
      links h = Function.update (links s.heap) z (some (x, l, none)) ∧ heights h = heights s.heap ∧
      ∀ y, y ≠ z → h y = s.heap y := by
  have hload : (load (some m)).run s = .ok (avlCell w k none none (some z), s) := by
    simp only [run_load, atEntry, hm]
  obtain ⟨h, hset, hl, hh, hsame⟩ := run_setChild_links (d := .right) (q := none) hz
  obtain ⟨r, hloadz, -, hzl, -⟩ := run_load_links hz
  have hne : r.left ≠ some m := hzl.symm ▸ hlm
  refine ⟨h, ?_, hl, hh, hsame⟩
  unfold unlinkEntry
  rw [Exec.run_bind_of_ok hload]
  simp only [avlCell_left, avlCell_right, avlCell_parent, Option.isSome_none, Bool.false_eq_true,
    if_false]
  rw [Exec.run_bind_of_ok hloadz, if_neg hne]
  exact hset

theorem run_replaceEntry_links (hmn : m ≠ n) (hn : links s.heap n = some (v, a, b))
    (hm : links s.heap m = some (w, c, e)) :
    ∃ h, (replaceEntry (some n) (some m)).run s = .ok ((), { s with heap := h }) ∧
      links h = Function.update (Function.update (links s.heap) m (some (w, a, b))) n none ∧
      (∀ y, y ≠ n → heights h y = heights s.heap y) ∧
      ∀ y, y ≠ n → y ≠ m → h y = s.heap y := by
  obtain ⟨h₁, hrun₁, hl₁, hh₁, hsame₁⟩ := run_setParent_links (q := none)
    (by rw [hm]; simp : links s.heap m ≠ none)
  obtain ⟨r₁, hload₁, -, hleft, -⟩ := run_load_links (s := { s with heap := h₁ })
    (by rw [hl₁, hn] : links h₁ n = some (v, a, b))
  obtain ⟨h₂, hrun₂, hl₂, hh₂, hsame₂⟩ := run_setChild_links (s := { s with heap := h₁ })
    (d := .left) (q := a) (by rw [hl₁, hm] : links h₁ m = some (w, c, e))
  obtain ⟨r₂, hload₂, -, -, hright, -⟩ := run_load_links (s := { s with heap := h₂ })
    (by rw [hl₂, Function.update_of_ne hmn.symm]; exact hl₁ ▸ hn : links h₂ n = some (v, a, b))
  obtain ⟨h₃, hrun₃, hl₃, hh₃, hsame₃⟩ := run_setChild_links (s := { s with heap := h₂ })
    (d := .right) (q := b) (by rw [hl₂, Function.update_self]; rfl : links h₂ m = some (w, a, e))
  refine ⟨Function.update h₃ n none, ?_, funext fun y => ?_, fun y hy => ?_, fun y hyn hym => ?_⟩
  · unfold replaceEntry
    rw [Exec.run_bind_of_ok hrun₁, Exec.run_bind_of_ok hload₁, hleft, Exec.run_bind_of_ok hrun₂,
      Exec.run_bind_of_ok hload₂, hright, Exec.run_bind_of_ok hrun₃]
    rfl
  · by_cases hy : y = n
    · subst hy
      simp [links]
    · rw [links_congr (Function.update_of_ne hy none h₃), hl₃, Function.update_of_ne hy]
      by_cases hym : y = m
      · subst hym
        rw [Function.update_self, Function.update_self]
        rfl
      · rw [Function.update_of_ne hym, Function.update_of_ne hym]
        exact (congrFun hl₂ y).trans ((Function.update_of_ne hym ..).trans (congrFun hl₁ y))
  · rw [heights_congr (Function.update_of_ne hy none h₃), hh₃]
    exact (congrFun hh₂ y).trans (congrFun hh₁ y)
  · rw [Function.update_of_ne hyn]
    exact (hsame₃ y hym).trans ((hsame₂ y hym).trans (hsame₁ y hym))

/-- A node at `m` has no parent. -/
def Orphan (m : ℕ) (h : Cells AvlEntry) : Prop := ∀ cell, h m = some cell → cell.parent = none

theorem Orphan.update {h : Cells AvlEntry} {j : ℕ} {r : Option AvlEntry} (ho : Orphan m h)
    (hr : m = j → ∀ cell, r = some cell → cell.parent = none) :
    Orphan m (Function.update h j r) := by
  intro cell hcell
  by_cases hmj : m = j
  · rw [hmj, Function.update_self] at hcell
    exact hr hmj cell hcell
  · rw [Function.update_of_ne hmj] at hcell
    exact ho cell hcell

theorem keeps_orphan_load {p : Ptr} :
    Exec.Keeps (fun s : AvlMem => Orphan m s.heap) (load p) fun _ => True := by
  intro s r s' hI hrun
  cases p with
  | none => cases hrun
  | some j =>
      rw [run_load, atEntry] at hrun
      cases hj : s.heap j with
      | none => rw [hj] at hrun; cases hrun
      | some cell =>
          rw [hj] at hrun
          obtain ⟨-, rfl⟩ := Prod.mk.inj (Except.ok.inj hrun)
          exact ⟨hI, trivial⟩

theorem keeps_orphan_setChild {d : Dir} {p q : Ptr} :
    Exec.Keeps (fun s : AvlMem => Orphan m s.heap) (setChild d p q) fun _ => True := by
  intro s r s' hI hrun
  cases p with
  | none => cases hrun
  | some j =>
      rw [run_setChild, atEntry] at hrun
      cases hj : s.heap j with
      | none => rw [hj] at hrun; cases hrun
      | some cell =>
          rw [hj] at hrun
          obtain ⟨-, rfl⟩ := Prod.mk.inj (Except.ok.inj hrun)
          refine ⟨hI.update ?_, trivial⟩
          rintro rfl _ ⟨⟩
          cases d <;> exact hI cell hj

/-- The replacement has no parent then. -/
theorem replaceEntry_orphan {h : Cells AvlEntry}
    (hrun : (replaceEntry (some n) (some m)).run s = .ok ((), { s with heap := h })) :
    Orphan m h := by
  have hfree : Exec.Keeps (fun s : AvlMem => Orphan m s.heap)
      (modify fun s => { s with heap := Function.update s.heap n none }) fun _ => True := by
    intro s r s' hI hrun
    obtain ⟨-, rfl⟩ := Prod.mk.inj (Except.ok.inj hrun)
    refine ⟨hI.update ?_, trivial⟩
    rintro - _ ⟨⟩
  have hrest : Exec.Keeps (fun s : AvlMem => Orphan m s.heap) (do
      setChild .left (some m) (← load (some n)).left
      setChild .right (some m) (← load (some n)).right
      modify fun s => { s with heap := Function.update s.heap n none }) fun _ => True :=
    keeps_orphan_load.bind fun _ _ => keeps_orphan_setChild.bind fun _ _ =>
      keeps_orphan_load.bind fun _ _ => keeps_orphan_setChild.bind fun _ _ => hfree
  unfold replaceEntry at hrun
  rw [StateT.run_bind, run_setParent, atEntry] at hrun
  cases hm : s.heap m with
  | none => rw [hm] at hrun; cases hrun
  | some r =>
      rw [hm] at hrun
      refine (hrest _ _ _ ?_ hrun).1
      intro cell hcell
      change Function.update s.heap m (some { r with parent := none }) m = some cell at hcell
      rw [Function.update_self] at hcell
      obtain rfl := Option.some_inj.1 hcell
      rfl

end Unlink

/-! ## At the node -/

section Found

variable {s : AvlMem} {p : Ptr} {l r : Tree} {n m : ℕ} {v : Payload × ℤ} {key : UInt32}
  {h h₁ h₂ : Cells AvlEntry} {res : Ptr}

/-- The steps at the node with the key, the replacement being `m`. -/
theorem run_found {fuel : ℕ} (slot : Slot) (hA : AvlAt s p (node l n v r)) (hkey : v.1.minKey = key)
    (hrep : (replacement fuel (avlCell v.1 v.2 l.root r.root p)).run s = .ok (some m, s))
    (hunlink : (unlinkEntry (some m)).run s = .ok ((), { s with heap := h₁ }))
    (hreplace : (replaceEntry (some n) (some m)).run { s with heap := h₁ } =
      .ok ((), { s with heap := h₂ })) :
    (removeAvlEntry key (fuel + 1) (some n) (some slot)).run s = (do
      slot.write (← rebalanceAvlTree (some m))
      return (0 : ℤ)).run { s with heap := h₂ } := by
  have hn : s.heap n = some (avlCell v.1 v.2 l.root r.root p) := hA.layout.1
  have hload : (load (some n)).run s = .ok (avlCell v.1 v.2 l.root r.root p, s) := by
    simp only [run_load, atEntry, hn]
  rw [removeAvlEntry]
  simp only [Option.isNone_some, Bool.false_eq_true, if_false]
  rw [Exec.run_bind_of_ok hload, if_pos (by simp [hkey]), Exec.run_bind_of_ok hrep]
  simp only [Option.isNone_some, Bool.false_eq_true, if_false]
  rw [Exec.run_bind_of_ok hunlink, Exec.run_bind_of_ok hreplace]

theorem run_replacement_right {fuel : ℕ} (hA : AvlAt s p (node l n v r))
    (hfuel : r.depth ≤ fuel) (hm : leftmost r = some m) :
    (replacement fuel (avlCell v.1 v.2 l.root r.root p)).run s = .ok (some m, s) := by
  have hmin := run_getMin hA.layout.2.2 hfuel
  rw [hm] at hmin
  unfold replacement
  rw [avlCell_right, Exec.run_bind_of_ok hmin]
  rfl

/-- The removal of a leaf. -/
theorem leaves_leaf (hA : AvlAt s p (node nil n v nil)) (hkey : v.1.minKey = key) :
    Leaves key s (node nil n v nil) none s.heap ∧
      Right key (node nil n v nil) nil (-1) none s.heap := by
  have hn : s.heap n = some (avlCell v.1 v.2 none none p) := hA.layout.1
  refine ⟨⟨fun fuel slot hfuel => ?_, fun _ _ => rfl⟩, rfl, trivial, by simp [hkey], rfl⟩
  obtain ⟨fuel, rfl⟩ := Nat.exists_eq_add_one.2 (Nat.zero_lt_of_lt hfuel)
  have hload : (load (some n)).run s = .ok (avlCell v.1 v.2 none none p, s) := by
    simp only [run_load, atEntry, hn]
  rw [root_node, removeAvlEntry]
  simp only [Option.isNone_some, Bool.false_eq_true, if_false]
  rw [Exec.run_bind_of_ok hload, if_pos (by simp [hkey])]
  rfl

/-- The rebalancing at the place of the node decides the outcome. -/
theorem leaves_found (hA : AvlAt s p (node l n v r)) (hkey : v.1.minKey = key)
    (hrep : ∀ fuel, (node l n v r).depth ≤ fuel →
      (replacement fuel (avlCell v.1 v.2 l.root r.root p)).run s = .ok (some m, s))
    (hunlink : (unlinkEntry (some m)).run s = .ok ((), { s with heap := h₁ }))
    (hreplace : (replaceEntry (some n) (some m)).run { s with heap := h₁ } =
      .ok ((), { s with heap := h₂ }))
    (hreb : (rebalanceAvlTree (some m)).run { s with heap := h₂ } = .ok (res, { s with heap := h }))
    (hsame : ∀ y, y ∉ node l n v r → h y = s.heap y) : Leaves key s (node l n v r) res h := by
  refine ⟨fun fuel slot hfuel => ?_, hsame⟩
  obtain ⟨fuel, rfl⟩ := Nat.exists_eq_add_one.2 (Nat.zero_lt_of_lt hfuel)
  rw [root_node, run_found slot hA hkey (hrep fuel (by omega)) hunlink hreplace,
    Exec.run_bind_of_ok hreb]
  rfl

/-- Once the replacement has the links of the node, it is the root of what the node was the root of.
    -/
theorem tree_replaced {x y : Payload} {a b : BinTree Payload} {c e : Ptr} (hmn : m ≠ n)
    (hn : links s.heap n = some (x, a.root, b.root)) (hm : links s.heap m = some (y, c, e))
    (ha : linkLayout.TreeAt (links s.heap) none a) (hb : linkLayout.TreeAt (links s.heap) none b)
    (hna : n ∉ a) (hma : m ∉ a) (hnb : n ∉ b) (hmb : m ∉ b) :
    ∃ h, (replaceEntry (some n) (some m)).run s = .ok ((), { s with heap := h }) ∧
      linkLayout.TreeAt (links h) none (node a m y b) ∧ Orphan m h ∧
      (∀ k, k ≠ n → heights h k = heights s.heap k) ∧ ∀ k, k ≠ n → k ≠ m → h k = s.heap k := by
  obtain ⟨h, hrun, hl, hh, hsame⟩ := run_replaceEntry_links hmn hn hm
  have hsub : ∀ {u : BinTree Payload}, linkLayout.TreeAt (links s.heap) none u → n ∉ u → m ∉ u →
      linkLayout.TreeAt (links h) (some m) u := by
    intro u hu hnu hmu
    rw [hl, linkLayout.treeAt_update hnu, linkLayout.treeAt_update hmu]
    exact linkLayout_treeAt_parent.1 hu
  refine ⟨h, hrun, ⟨?_, hsub ha hna hma, hsub hb hnb hmb⟩, replaceEntry_orphan hrun, hh, hsame⟩
  rw [hl, Function.update_of_ne hmn, Function.update_self]
  rfl

/-- No rotation where the stored heights differ by at most one. -/
theorem run_rebalance_even {x : Payload} {a b : Ptr} (hn : links s.heap n = some (x, a, b))
    (ha : ∀ k, a = some k → links s.heap k ≠ none) (hb : ∀ k, b = some k → links s.heap k ≠ none)
    (hle : topHeight (heights s.heap) a ≤ topHeight (heights s.heap) b + 1)
    (hge : topHeight (heights s.heap) b ≤ topHeight (heights s.heap) a + 1) :
    (rebalanceAvlTree (some n)).run s = .ok (some n, s) := by
  rw [run_rebalance_links hn ha hb, if_neg (by omega), if_neg (by omega)]
  rfl

theorem filter_found (hkey : v.1.minKey = key) (hl : ∀ e ∈ l.records, e.2.minKey ≠ key)
    (hr : ∀ e ∈ r.records, e.2.minKey ≠ key) :
    ((node l n v r).records.filter fun e => e.2.minKey ≠ key) = l.records ++ r.records := by
  have hl' : (l.records.filter fun e => e.2.minKey ≠ key) = l.records :=
    List.filter_eq_self.2 fun e he => by simpa using hl e he
  have hr' : (r.records.filter fun e => e.2.minKey ≠ key) = r.records :=
    List.filter_eq_self.2 fun e he => by simpa using hr e he
  rw [records_node, List.filter_append, List.filter_cons, hl', hr']
  simp [hkey]

/-- The least node of a right subtree with two levels or more on the left comes up. -/
theorem leaves_deep {rl rr : Tree} {k : ℕ} {u : Payload × ℤ}
    (hA : AvlAt s p (node l n v (node rl k u rr))) (hkey : v.1.minKey = key)
    (hl : ∀ e ∈ l.records, e.2.minKey ≠ key) (hr : ∀ e ∈ (node rl k u rr).records, e.2.minKey ≠ key)
    (hne : rl ≠ nil) :
    ∃ h m x b, Leaves key s (node l n v (node rl k u rr)) (some m) h ∧ b ≠ nil ∧
      Right key (node l n v (node rl k u rr)) (node (strip l) m x b)
        (leftmostHeight (node rl k u rr)) (some m) h ∧ Orphan m h ∧
      topHeight (heights h) l.root = (l.depth : ℤ) - 1 := by
  obtain ⟨hn, htl, htr⟩ := hA.layout
  obtain ⟨-, hml, hmr⟩ := hA.measured
  obtain ⟨hlr, hrl, -⟩ := hA.balanced
  obtain ⟨hnl, hnr, hdl, hdr, hdis⟩ := distinct_node.1 hA.distinct
  obtain ⟨m, z, w, c, x, e, hlm⟩ := exists_leftmostAt htr hdr hne
  have hmn : m ≠ n := by
    rintro rfl
    exact hnr hlm.mem
  have hzn : z ≠ n := by
    rintro rfl
    exact hnr hlm.mem_parent
  have hml' : m ∉ l := fun hmem => hdis m hmem hlm.mem
  obtain ⟨h₁, hunlink, hl₁, hh₁, hsame₁⟩ := run_unlinkEntry_left hlm.cell hlm.parent (.inr rfl)
  -- the tree around the gap
  have hn₁ : links h₁ n = some (v.1, (strip l).root,
      (dropLeftmost (strip (node rl k u rr))).root) := by
    rw [hl₁, Function.update_of_ne hzn.symm, links_of_cell hn, root_strip, hlm.root]
  have hm₁ : links h₁ m = some (w.1, none, c) := by
    rw [hl₁, Function.update_of_ne hlm.ne, links_of_cell hlm.cell]
  have htl₁ : linkLayout.TreeAt (links h₁) none (strip l) := by
    rw [hl₁, linkLayout.treeAt_update fun hz => hdis z (mem_strip.1 hz) hlm.mem_parent]
    exact treeAt_links htl
  have htr₁ := hlm.layout (links h₁) (by rw [hl₁, Function.update_self]) fun y _ hyz _ => by
    rw [hl₁, Function.update_of_ne hyz]
  have hrest : ∀ y ∈ dropLeftmost (strip (node rl k u rr)), y ≠ m ∧ y ∈ node rl k u rr := by
    intro y hy
    have haddrs : (node rl k u rr).addrs =
        m :: (dropLeftmost (strip (node rl k u rr))).addrs := by
      rw [← map_fst_records, hlm.entries]
      rfl
    have hnodup : (node rl k u rr).addrs.Nodup := hdr
    rw [haddrs, List.nodup_cons] at hnodup
    rw [← mem_addrs, haddrs]
    refine ⟨?_, List.mem_cons_of_mem m hy⟩
    rintro rfl
    exact hnodup.1 hy
  obtain ⟨h₂, hreplace, ht₂, ho₂, hh₂, hsame₂⟩ := tree_replaced (s := { s with heap := h₁ }) hmn hn₁ hm₁
    htl₁ htr₁ (by simpa using hnl) (by simpa using hml') (fun hmem => hnr (hrest n hmem).2)
    fun hmem => (hrest m hmem).1 rfl
  -- its heights are the old ones
  have htop : ∀ {q : Ptr} {u : Tree}, avlLayout.TreeAt s.heap q u → u.Measured → n ∉ u →
      topHeight (heights h₂) u.root = (u.depth : ℤ) - 1 := by
    intro q u hu hmu hnu
    rw [← topHeight_root hu hmu]
    cases u with
    | nil => rfl
    | node u₁ j y u₂ =>
        have hjn : j ≠ n := by
          rintro rfl
          simp at hnu
        exact (hh₂ j hjn).trans (congrFun hh₁ j)
  have hreb : (rebalanceAvlTree (some m)).run { s with heap := h₂ } =
      .ok (some m, { s with heap := h₂ }) := by
    refine run_rebalance_even ht₂.1 (links_root_ne_none ht₂.2.1) (links_root_ne_none ht₂.2.2) ?_ ?_
    · rw [root_strip, hlm.root]
      change topHeight (heights h₂) l.root ≤ topHeight (heights h₂) (node rl k u rr).root + 1
      rw [htop htl hml hnl, htop htr hmr hnr]
      omega
    · rw [root_strip, hlm.root]
      change topHeight (heights h₂) (node rl k u rr).root ≤ topHeight (heights h₂) l.root + 1
      rw [htop htl hml hnl, htop htr hmr hnr]
      omega
  refine ⟨h₂, m, w.1, _, leaves_found hA hkey (fun fuel hfuel => run_replacement_right hA ?_
    hlm.leftmost) hunlink hreplace hreb fun y hy => ?_, ?_, ⟨rfl, ht₂, ?_, ?_⟩, ho₂,
    htop htl hml hnl⟩
  · rw [depth_node] at hfuel
    omega
  · rw [mem_node, not_or, not_or] at hy
    exact (hsame₂ y hy.1 fun hym => hy.2.2 (hym ▸ hlm.mem)).trans
      (hsame₁ y fun hyz => hy.2.2 (hyz ▸ hlm.mem_parent))
  · intro hnil
    have hroot := hlm.root
    rw [hnil] at hroot
    simp at hroot
  · rw [filter_found hkey hl hr, entries_node, entries_strip, hlm.entries]
  · rw [topHeight_some, hh₂ m hmn, hlm.height]
    change heights h₁ m = w.2
    rw [hh₁, heights, hlm.cell]
    rfl

/-- The only child, a leaf on the left, comes up. -/
theorem leaves_left {w : Payload × ℤ} (hA : AvlAt s p (node (node nil m w nil) n v nil))
    (hkey : v.1.minKey = key) (hw : w.1.minKey ≠ key) :
    ∃ h, Leaves key s (node (node nil m w nil) n v nil) (some m) h ∧
      Right key (node (node nil m w nil) n v nil) (node nil m w.1 nil) 0 (some m) h ∧
      Orphan m h := by
  obtain ⟨hn, ⟨hm, -, -⟩, -⟩ := hA.layout
  have hmn : m ≠ n := by
    rintro rfl
    exact absurd hA.distinct (by simp)
  have hheight : w.2 = 0 := hA.measured.2.1.1
  have hrep : ∀ fuel, (node (node nil m w nil) n v nil).depth ≤ fuel →
      (replacement fuel (avlCell v.1 v.2 (some m) none p)).run s = .ok (some m, s) := by
    intro fuel hfuel
    obtain ⟨fuel, rfl⟩ := Nat.exists_eq_add_one.2 (Nat.zero_lt_of_lt hfuel)
    have hload : (load (some m)).run s = .ok (avlCell w.1 w.2 none none (some n), s) := by
      simp only [run_load, atEntry, hm, avlLayout_cell, root_nil]
    have hmin : (getMinAvlEntry (fuel + 1) none).run s = .ok (none, s) := rfl
    unfold replacement
    rw [avlCell_right, Exec.run_bind_of_ok hmin]
    change (outermostLoop .right (fuel + 1) (some m)).run s = _
    rw [outermostLoop, Exec.run_bind_of_ok hload]
    rfl
  obtain ⟨h₁, hunlink, hl₁, hh₁, hsame₁⟩ :=
    run_unlinkEntry_left hm (links_of_cell hn) (.inr rfl)
  have hn₁ : links h₁ n = some (v.1, none, none) := by rw [hl₁, Function.update_self]; rfl
  have hm₁ : links h₁ m = some (w.1, none, none) := by
    rw [hl₁, Function.update_of_ne hmn]
    exact links_of_cell hm
  obtain ⟨h₂, hreplace, ht₂, ho₂, hh₂, hsame₂⟩ := tree_replaced (s := { s with heap := h₁ }) (a := nil)
    (b := nil) hmn hn₁ hm₁ trivial trivial (by simp) (by simp) (by simp) (by simp)
  have hreb : (rebalanceAvlTree (some m)).run { s with heap := h₂ } =
      .ok (some m, { s with heap := h₂ }) :=
    run_rebalance_even ht₂.1 (by simp) (by simp) (by simp) (by simp)
  refine ⟨h₂, leaves_found hA hkey hrep hunlink hreplace hreb fun y hy => ?_, ⟨rfl, ht₂, ?_, ?_⟩, ho₂⟩
  · simp only [mem_node, not_or] at hy
    exact (hsame₂ y hy.1 hy.2.1.1).trans (hsame₁ y hy.1)
  · rw [filter_found hkey (by simpa using hw) (by simp)]
    rfl
  · rw [topHeight_some, hh₂ m hmn, ← hheight]
    change heights h₁ m = w.2
    rw [hh₁, heights, hm]
    rfl

/-- The right child, a leaf, is taken out and gets the left subtree. -/
theorem right_replaced {w : Payload × ℤ} (hA : AvlAt s p (node l n v (node nil m w nil))) :
    ∃ h₁ h₂, (unlinkEntry (some m)).run s = .ok ((), { s with heap := h₁ }) ∧
      (replaceEntry (some n) (some m)).run { s with heap := h₁ } =
        .ok ((), { s with heap := h₂ }) ∧
      linkLayout.TreeAt (links h₂) none (node (strip l) m w.1 nil) ∧ heights h₂ m = 0 ∧ Orphan m h₂ ∧
      (∀ y, y ≠ n → heights h₂ y = heights s.heap y) ∧
      ∀ y, y ≠ n → y ≠ m → h₂ y = s.heap y := by
  obtain ⟨hn, htl, hm, -, -⟩ := hA.layout
  obtain ⟨hnl, hnm, -, -, hdis⟩ := distinct_node.1 hA.distinct
  have hmn : m ≠ n := by
    rintro rfl
    exact hnm (by simp)
  have hml : m ∉ l := fun hmem => hdis m hmem (by simp)
  have hheight : w.2 = 0 := hA.measured.2.2.1
  have hlm : l.root ≠ some m := fun heq => hml (mem_of_root heq)
  obtain ⟨h₁, hunlink, hl₁, hh₁, hsame₁⟩ := run_unlinkEntry_right hm (links_of_cell hn) hlm
  have hn₁ : links h₁ n = some (v.1, (strip l).root, none) := by
    rw [hl₁, Function.update_self, root_strip]
  have hm₁ : links h₁ m = some (w.1, none, none) := by
    rw [hl₁, Function.update_of_ne hmn]
    exact links_of_cell hm
  have htl₁ : linkLayout.TreeAt (links h₁) none (strip l) := by
    rw [hl₁, linkLayout.treeAt_update (by simpa using hnl)]
    exact treeAt_links htl
  obtain ⟨h₂, hreplace, ht₂, ho₂, hh₂, hsame₂⟩ := tree_replaced (s := { s with heap := h₁ }) (b := nil) hmn
    hn₁ hm₁ htl₁ trivial (by simpa using hnl) (by simpa using hml) (by simp) (by simp)
  refine ⟨h₁, h₂, hunlink, hreplace, ht₂, ?_, ho₂, fun y hy => (hh₂ y hy).trans (congrFun hh₁ y),
    fun y hyn hym => (hsame₂ y hyn hym).trans (hsame₁ y hyn)⟩
  rw [hh₂ m hmn]
  change heights h₁ m = 0
  rw [hh₁, heights, hm, ← hheight]
  rfl

theorem replacement_leaf {w : Payload × ℤ} (hA : AvlAt s p (node l n v (node nil m w nil))) (fuel : ℕ)
    (hfuel : (node l n v (node nil m w nil)).depth ≤ fuel) :
    (replacement fuel (avlCell v.1 v.2 l.root (node nil m w nil).root p)).run s =
      .ok (some m, s) := by
  refine run_replacement_right hA ?_ rfl
  rw [depth_node] at hfuel
  omega

/-- A node other than the replacement keeps its height. -/
theorem topHeight_of_same {q : Ptr} {u : Tree} (hu : avlLayout.TreeAt s.heap q u) (hmu : u.Measured)
    (hnu : n ∉ u) (hsame : ∀ y, y ≠ n → heights h y = heights s.heap y) :
    topHeight (heights h) u.root = (u.depth : ℤ) - 1 := by
  rw [← topHeight_root hu hmu]
  cases u with
  | nil => rfl
  | node u₁ j y u₂ =>
      have hjn : j ≠ n := by
        rintro rfl
        simp at hnu
      exact hsame j hjn

/-- The right child, a leaf, comes up over a left subtree with one level at most. -/
theorem leaves_right {w : Payload × ℤ} (hA : AvlAt s p (node l n v (node nil m w nil)))
    (hkey : v.1.minKey = key) (hl : ∀ e ∈ l.records, e.2.minKey ≠ key) (hw : w.1.minKey ≠ key)
    (hdepth : l.depth ≤ 1) :
    ∃ h, Leaves key s (node l n v (node nil m w nil)) (some m) h ∧
      Right key (node l n v (node nil m w nil)) (node (strip l) m w.1 nil) 0 (some m) h ∧ Orphan m h ∧
      topHeight (heights h) l.root = (l.depth : ℤ) - 1 := by
  obtain ⟨h₁, h₂, hunlink, hreplace, ht₂, hheight, ho₂, hh₂, hsame₂⟩ := right_replaced hA
  have hnl := (distinct_node.1 hA.distinct).1
  have htop := topHeight_of_same hA.layout.2.1 hA.measured.2.1 hnl hh₂
  have hreb : (rebalanceAvlTree (some m)).run { s with heap := h₂ } =
      .ok (some m, { s with heap := h₂ }) := by
    refine run_rebalance_even ht₂.1 (links_root_ne_none ht₂.2.1) (by simp) ?_ ?_
    · rw [root_strip]
      change topHeight (heights h₂) l.root ≤ -1 + 1
      omega
    · rw [root_strip]
      change -1 ≤ topHeight (heights h₂) l.root + 1
      omega
  refine ⟨h₂, leaves_found hA hkey (replacement_leaf hA) hunlink hreplace hreb fun y hy => ?_,
    ⟨rfl, ht₂, ?_, hheight⟩, ho₂, htop⟩
  · simp only [mem_node, not_or] at hy
    exact hsame₂ y hy.1 hy.2.2.1
  · rw [filter_found hkey hl (by simpa using hw)]
    simp

/-- The root of a subtree without the two nodes of a rotation. -/
theorem elsewhere_root {h : Cells AvlEntry} {u : BinTree Payload} {q : Ptr} {j k : ℕ}
    (hu : linkLayout.TreeAt (links h) q u) (hj : j ∉ u) (hk : k ∉ u) : Elsewhere h j k u.root := by
  intro i hi
  have hmem := mem_of_root hi
  refine ⟨linkLayout.treeAt_ne_none hu hmem, ?_, ?_⟩
  · rintro rfl
    exact hj hmem
  · rintro rfl
    exact hk hmem

theorem elsewhere_none (h : Cells AvlEntry) (j k : ℕ) : Elsewhere h j k none := by
  rintro i ⟨⟩

/-- A single rotation of two nodes without right subtrees. What the parent link of the lower one is
    does not matter. -/
theorem run_llRotate_two {x y : Payload} {i j : ℤ} {q : Ptr} {la : Tree} {k : ℕ} (hkm : k ≠ m)
    (hm : s.heap m = some (avlCell x i (some k) none p))
    (hk : s.heap k = some (avlCell y j la.root none q)) (hta : avlLayout.TreeAt s.heap (some k) la)
    (hma : la.Measured) (hmla : m ∉ la) (hkla : k ∉ la) :
    ∃ h, (llRotate (some m)).run s = .ok (some k, { s with heap := h }) ∧
      avlLayout.TreeAt h p (join la k y (join nil m x nil)) ∧
      ∀ z, z ≠ m → z ≠ k → h z = s.heap z := by
  simp only [llRotate, StateT.run_bind, run_load, run_setParent, run_setChild, AvlEntry.setChild,
    atEntry, hm, hk, ok_bind, avlCell_left, avlCell_right, avlCell_parent, avlCell_minKey,
    avlCell_maxKey, avlCell_height, avlCell_balanceFactor, avlCell_dataLen, avlCell_data,
    avlCell_fold, Function.update_self, Function.update_of_ne hkm, Function.update_of_ne hkm.symm,
    adopt, Option.isSome_none, Bool.false_eq_true, if_false, StateT.run_pure, pure_eq_ok]
  rw [run_setRotatedHeights (a := la) (b := nil) (c := nil) (x := x) (k := i) (q := some k) (y := y)
    (j := j) hkm (by simp [hkm.symm]) (Function.update_self ..) rfl
    (by simpa [hkla, hmla] using hta) trivial trivial hma trivial trivial hmla]
  refine ⟨_, rfl, ⟨?_, ?_, ?_, trivial, trivial⟩, fun z hzm hzk => ?_⟩
  · simp [join]
  · simpa [hkla, hmla] using hta
  · simp [hkm.symm]
  · simp [hzm, hzk]

/-- Over a left subtree with two levels there is a rotation, which must be a single one. -/
theorem leaves_rotated {w u : Payload × ℤ} {la : Tree} {k : ℕ}
    (hA : AvlAt s p (node (node la k u nil) n v (node nil m w nil))) (hkey : v.1.minKey = key)
    (hl : ∀ e ∈ (node la k u nil).records, e.2.minKey ≠ key) (hw : w.1.minKey ≠ key)
    (hla : la.depth = 1) :
    ∃ h, Leaves key s (node (node la k u nil) n v (node nil m w nil)) (some k) h ∧
      Right key (node (node la k u nil) n v (node nil m w nil))
        (node (strip la) k u.1 (node nil m w.1 nil)) 1 (some k) h ∧
      AvlAt ⟨h, none⟩ none (join la k u.1 (join nil m w.1 nil)) := by
  obtain ⟨h₁, h₂, hunlink, hreplace, ht₂, hheight, ho₂, hh₂, hsame₂⟩ := right_replaced hA
  obtain ⟨hnl, hnr, hdl, -, hdis⟩ := distinct_node.1 hA.distinct
  obtain ⟨hkla, -, hdla, -⟩ := distinct_node.1 hdl
  obtain ⟨-, ⟨hk, hta, -⟩, -⟩ := hA.layout
  obtain ⟨-, ⟨-, hmla', -⟩, -⟩ := hA.measured
  have hnla : n ∉ la := fun hmem => hnl (by simp [hmem])
  have hmla : m ∉ la := fun hmem => hdis m (by simp [hmem]) (by simp)
  have hkm : k ≠ m := by
    rintro rfl
    exact hdis k (by simp) (by simp)
  have hkn : k ≠ n := by
    rintro rfl
    exact hnl (by simp)
  -- the two nodes, and the leaf below
  obtain ⟨hm, ⟨hk₂, hta₂, -⟩, -⟩ := ht₂
  obtain ⟨p', hm'⟩ := links_eq_some.1 hm
  obtain rfl : p' = none := ho₂ _ hm'
  rw [hheight] at hm'
  have hk' : h₂ k = some (avlCell u.1 u.2 la.root none (some n)) := (hsame₂ k hkn hkm).trans hk
  have hta' : avlLayout.TreeAt h₂ (some k) la := avlLayout.treeAt_congr hta fun y hy =>
    hsame₂ y (fun heq => hnla (heq ▸ hy)) fun heq => hmla (heq ▸ hy)
  obtain ⟨h₃, hrot, ht₃, hsame₃⟩ := run_llRotate_two (s := { s with heap := h₂ }) hkm hm' hk' hta' hmla'
    hmla hkla
  have hmeasured : (join la k u.1 (join nil m w.1 nil)).Measured :=
    ⟨rfl, hmla', rfl, trivial, trivial⟩
  have htopk : topHeight (heights h₂) (some k) = 1 := by
    have htop := topHeight_of_same hA.layout.2.1 hA.measured.2.1 hnl hh₂
    rw [root_node, depth_node, hla] at htop
    simpa using htop
  have htopa : topHeight (heights h₂) (strip la).root = 0 := by
    have htop := topHeight_of_same hta hmla' hnla hh₂
    rw [hla] at htop
    simpa using htop
  have hreb : (rebalanceAvlTree (some m)).run { s with heap := h₂ } =
      .ok (some k, { s with heap := h₃ }) := by
    rw [run_rebalance_links hm (by rintro j ⟨⟩; rw [hk₂]; simp) (by simp)]
    change (if topHeight (heights h₂) (some k) - -1 = 2 then _ else _ : Exec AvlMem Ptr).run _ = _
    rw [htopk, if_pos (by omega), run_rotateDeep_links (d := .left) hm hk₂
      (links_root_ne_none hta₂) (by simp)]
    change (if topHeight (heights h₂) (strip la).root > -1 then _ else _ : Exec AvlMem Ptr).run _ = _
    rw [htopa, if_pos (by omega)]
    exact hrot
  refine ⟨h₃, leaves_found hA hkey (replacement_leaf hA) hunlink hreplace hreb fun y hy => ?_,
    ⟨rfl, treeAt_links ht₃, ?_, ?_⟩, ht₃, ?_, hmeasured, ?_⟩
  · simp only [mem_node, not_or] at hy
    exact (hsame₃ y hy.2.2.1 hy.2.1.1).trans (hsame₂ y hy.1 hy.2.2.1)
  · rw [filter_found hkey hl (by simpa using hw)]
    simp
  · have htop := topHeight_root ht₃ hmeasured
    rw [join, join, depth_node] at htop
    simpa [hla] using htop
  · refine distinct_node.2 ⟨hkla, by simpa [join] using hkm, hdla, by simp [join], fun y hy => ?_⟩
    simp only [join, mem_node, not_mem_nil, or_false]
    rintro rfl
    exact hmla hy
  · obtain ⟨i, y, rfl⟩ := depth_eq_one.1 hla
    simp [join, BinTree.Balanced]

/-- A double rotation there follows the right link of the replacement, which is NULL. -/
theorem faults_found {w u : Payload × ℤ} {la lb : Tree} {k : ℕ}
    (hA : AvlAt s p (node (node la k u lb) n v (node nil m w nil))) (hkey : v.1.minKey = key)
    (hlb : lb ≠ nil) : Faults key s (node (node la k u lb) n v (node nil m w nil)) := by
  obtain ⟨h₁, h₂, hunlink, hreplace, ht₂, -, -, hh₂, -⟩ := right_replaced hA
  obtain ⟨hnl, -⟩ := distinct_node.1 hA.distinct
  have hnla : n ∉ la := fun hmem => hnl (by simp [hmem])
  have hnlb : n ∉ lb := fun hmem => hnl (by simp [hmem])
  obtain ⟨hm, ⟨hk, hta, htb⟩, -⟩ := ht₂
  -- the left subtree has two levels, the lower one on the right, too
  have hlb' : lb.depth ≠ 0 := mt depth_eq_zero.1 hlb
  obtain ⟨hdepth, -, ⟨hab, -⟩, -⟩ := hA.balanced
  simp only [depth_node, depth_nil] at hdepth
  have htopk : topHeight (heights h₂) (some k) = 1 := by
    have htop := topHeight_of_same hA.layout.2.1 hA.measured.2.1 hnl hh₂
    rw [root_node, depth_node] at htop
    rw [htop]
    omega
  have htopa : topHeight (heights h₂) (strip la).root = la.depth - 1 := by
    rw [root_strip]
    exact topHeight_of_same hA.layout.2.1.2.1 hA.measured.2.1.2.1 hnla hh₂
  have htopb : topHeight (heights h₂) (strip lb).root = lb.depth - 1 := by
    rw [root_strip]
    exact topHeight_of_same hA.layout.2.1.2.2 hA.measured.2.1.2.2 hnlb hh₂
  have hreb : (rebalanceAvlTree (some m)).run { s with heap := h₂ } = .error .undef := by
    rw [run_rebalance_links hm (by rintro j ⟨⟩; rw [hk]; simp) (by simp)]
    change (if topHeight (heights h₂) (some k) - -1 = 2 then _ else _ : Exec AvlMem Ptr).run _ = _
    rw [htopk, if_pos (by omega), run_rotateDeep_links (d := .left) hm hk (links_root_ne_none hta)
      (links_root_ne_none htb)]
    change (if topHeight (heights h₂) (strip la).root > topHeight (heights h₂) (strip lb).root then _
      else _ : Exec AvlMem Ptr).run _ = _
    rw [htopa, htopb, if_neg (by omega)]
    exact run_lrRotate_none hm
  intro fuel slot hfuel
  obtain ⟨fuel, rfl⟩ := Nat.exists_eq_add_one.2 (Nat.zero_lt_of_lt hfuel)
  refine ⟨.undef, ?_⟩
  rw [root_node, run_found slot hA hkey (replacement_leaf hA fuel (by omega)) hunlink hreplace,
    StateT.run_bind, hreb]
  rfl

/-- The right child has a right child and takes the place of the node: its links are to that child
    and to itself, and the left subtree is lost. -/
theorem lost_found {w : Payload × ℤ} {c : Tree}
    (hA : AvlAt s p (node l n v (node nil m w c))) (hkey : v.1.minKey = key)
    (hl : ∀ e ∈ l.records, e.2.minKey ≠ key) (hc : c ≠ nil) :
    ∃ h, Leaves key s (node l n v (node nil m w c)) (some m) h ∧
      Lost key (node l n v (node nil m w c)) (some m) h ∧
      links h m = some (w.1, c.root, some m) ∧ (∀ k, c.root = some k → links h k ≠ none) ∧
      topHeight (heights h) c.root = (c.depth : ℤ) - 1 ∧ heights h m = (c.depth : ℤ) ∧
      Orphan m h := by
  obtain ⟨hn, htl, hm, -, htc⟩ := hA.layout
  obtain ⟨hnl, hnr, -, hdr, hdis⟩ := distinct_node.1 hA.distinct
  obtain ⟨-, hmc, -⟩ := distinct_node.1 hdr
  have hmn : m ≠ n := by
    rintro rfl
    exact hnr (by simp)
  have hnc : n ∉ c := fun hmem => hnr (by simp [hmem])
  have hc' : c.depth ≠ 0 := mt depth_eq_zero.1 hc
  obtain ⟨-, hdepth, -, -, hdepth', -⟩ := hA.balanced
  simp only [depth_node, depth_nil] at hdepth hdepth'
  have hcroot : c.root ≠ none := mt root_eq_none.1 hc
  obtain ⟨h₁, hunlink, hl₁, hh₁, hsame₁⟩ := run_unlinkEntry_left hm (links_of_cell hn) (.inl hcroot)
  have hn₁ : links h₁ n = some (v.1, c.root, some m) := by rw [hl₁, Function.update_self]; rfl
  have hm₁ : links h₁ m = some (w.1, none, c.root) := by
    rw [hl₁, Function.update_of_ne hmn]
    exact links_of_cell hm
  obtain ⟨h₂, hreplace, hl₂, hh₂, hsame₂⟩ := run_replaceEntry_links (s := { s with heap := h₁ }) hmn hn₁
    hm₁
  have hm₂ : links h₂ m = some (w.1, c.root, some m) := by
    rw [hl₂, Function.update_of_ne hmn, Function.update_self]
  have htc₂ : linkLayout.TreeAt (links h₂) none (strip c) := by
    rw [hl₂, linkLayout.treeAt_update (by simpa using hnc),
      linkLayout.treeAt_update (by simpa using hmc)]
    change linkLayout.TreeAt (links h₁) none (strip c)
    rw [hl₁, linkLayout.treeAt_update (by simpa using hnc)]
    exact treeAt_links htc
  have hh : ∀ y, y ≠ n → heights h₂ y = heights s.heap y := fun y hy =>
    (hh₂ y hy).trans (congrFun hh₁ y)
  have htopc : topHeight (heights h₂) c.root = c.depth - 1 :=
    topHeight_of_same htc hA.measured.2.2.2.2 hnc hh
  have htopm : topHeight (heights h₂) (some m) = (node nil m w c).depth - 1 :=
    topHeight_of_same hA.layout.2.2 hA.measured.2.2 hnr hh
  simp only [depth_node, depth_nil] at htopm
  have hreb : (rebalanceAvlTree (some m)).run { s with heap := h₂ } =
      .ok (some m, { s with heap := h₂ }) := by
    refine run_rebalance_even hm₂ (fun k hk => ?_) (by rintro j ⟨⟩; rw [hm₂]; simp) ?_ ?_
    · exact links_root_ne_none htc₂ k (by rw [root_strip, hk])
    · change topHeight (heights h₂) c.root ≤ topHeight (heights h₂) (some m) + 1
      omega
    · change topHeight (heights h₂) (some m) ≤ topHeight (heights h₂) c.root + 1
      omega
  refine ⟨h₂, leaves_found hA hkey (fun fuel hfuel => ?_) hunlink hreplace hreb fun y hy => ?_,
    ⟨{y | y = m ∨ y ∈ c}, ⟨?_, ?_, linkIn_some.2 (.inl rfl)⟩, ?_⟩, hm₂,
    root_strip c ▸ links_root_ne_none htc₂, htopc, ?_, replaceEntry_orphan hreplace⟩
  · refine run_replacement_right hA ?_ rfl
    rw [depth_node] at hfuel
    omega
  · simp only [mem_node, not_or] at hy
    exact (hsame₂ y hy.1 hy.2.2.1).trans (hsame₁ y hy.1)
  · rintro y (rfl | hy)
    · simp
    · simp [hy]
  · rintro y (rfl | hy) cell hcell
    · obtain rfl := Option.some_inj.1 (hm₂.symm.trans hcell)
      exact ⟨fun k hk => .inr (mem_of_root hk), linkIn_some.2 (.inl rfl)⟩
    · exact linkIn_of_treeAt htc₂ (fun k hk => .inr (mem_strip.1 hk)) (mem_strip.2 hy) hcell
  · -- the root of the left subtree
    cases l with
    | nil =>
        simp only [depth_nil] at hdepth
        omega
    | node la k u lb =>
        refine ⟨(k, u.1), by simp, hl _ (by simp), ?_⟩
        rintro (rfl | hk)
        · exact hdis k (by simp) (by simp)
        · exact hdis k (by simp) (by simp [hk])
  · rw [topHeight_some] at htopm
    omega

end Found

end StructLib.Avl
