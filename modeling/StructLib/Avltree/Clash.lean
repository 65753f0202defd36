import StructLib.Avltree.Refine
import Mathlib.Data.List.Pairwise

set_option autoImplicit false

/-! # Overlapping insertions

`InsertAvlEntry` compares the two ends of the new range with the ranges on one path, the one that
leads to its upper end (`Hits`). So it finds every range that has its upper end, and one that has
its lower end unless the path leaves it before, at a range inside the new one; it finds no range
that lies inside the new one itself (`hits_iff`). A call that is refused, or that finds no memory,
changes nothing (`failed_insert`). -/

namespace StructLib.Avl

open BinTree

/-! ## Ranges -/

/-- The key is in the range. -/
def Covers (x : Payload) (key : UInt32) : Prop := x.minKey ≤ key ∧ key ≤ x.maxKey

instance (x : Payload) (key : UInt32) : Decidable (Covers x key) :=
  inferInstanceAs (Decidable (_ ∧ _))

/-- The range has a key in common with the new one. -/
def Shares (minKey maxKey : UInt32) (x : Payload) : Prop :=
  ∃ key, Covers x key ∧ minKey ≤ key ∧ key ≤ maxKey

/-- The range lies inside the new one, without its ends. -/
def Inside (minKey maxKey : UInt32) (x : Payload) : Prop := minKey < x.minKey ∧ x.maxKey < maxKey

/-- Ranges that are not empty, in ascending order and without common keys. -/
structure RangesOrdered (t : Tree) : Prop where
  valid : ∀ e ∈ t.records, e.2.minKey ≤ e.2.maxKey
  ascending : t.records.Pairwise fun x y => x.2.maxKey < y.2.minKey

/-- `x` is an ancestor of `y`. -/
def Above (x y : ℕ × Payload) : Tree → Prop
  | nil => False
  | node l n v r =>
      ((n, v.1) = x ∧ (y ∈ l.records ∨ y ∈ r.records)) ∨ Above x y l ∨ Above x y r

/-- An end of the new range is in a range on the path to its upper end. -/
def Hits (minKey maxKey : UInt32) : Tree → Prop
  | nil => False
  | node l _ v r =>
      Covers v.1 minKey ∨ Covers v.1 maxKey ∨
        match keySide maxKey v.1 with
        | .left => Hits minKey maxKey l
        | .right => Hits minKey maxKey r

/-- No range has a key in common with the new one, or one has its upper end, or one has its lower
    end and has no ancestor inside the new range. -/
def ClashSeen (minKey maxKey : UInt32) (t : Tree) : Prop :=
  (∀ e ∈ t.records, ¬ Shares minKey maxKey e.2) ∨ (∃ e ∈ t.records, Covers e.2 maxKey) ∨
    ∃ e ∈ t.records, Covers e.2 minKey ∧ ∀ a, Above a e t → ¬ Inside minKey maxKey a.2

section Ranges

variable {minKey maxKey : UInt32} {x : Payload} {l r t : Tree} {n : ℕ} {v : Payload × ℤ}
  {a e : ℕ × Payload}

theorem shares_iff (hle : minKey ≤ maxKey) (hx : x.minKey ≤ x.maxKey) :
    Shares minKey maxKey x ↔ x.minKey ≤ maxKey ∧ minKey ≤ x.maxKey := by
  constructor
  · rintro ⟨key, ⟨hmin, hmax⟩, hlo, hhi⟩
    exact ⟨UInt32.le_trans hmin hhi, UInt32.le_trans hlo hmax⟩
  · rintro ⟨hmin, hmax⟩
    by_cases hlo : minKey ≤ x.minKey
    · exact ⟨x.minKey, ⟨UInt32.le_refl _, hx⟩, hlo, hmin⟩
    · have hlo' : x.minKey ≤ minKey := by grind
      exact ⟨minKey, ⟨hlo', hmax⟩, UInt32.le_refl _, hle⟩

theorem Above.mem (h : Above a e t) : e ∈ t.records := by
  induction t with
  | nil => exact h.elim
  | node l n v r ihl ihr =>
      rw [records_node, List.mem_append, List.mem_cons]
      rcases h with ⟨-, he | he⟩ | h | h
      · exact .inl he
      · exact .inr (.inr he)
      · exact .inl (ihl h)
      · exact .inr (.inr (ihr h))

theorem rangesOrdered_node : RangesOrdered (node l n v r) ↔ RangesOrdered l ∧ RangesOrdered r ∧
    v.1.minKey ≤ v.1.maxKey ∧ (∀ e ∈ l.records, e.2.maxKey < v.1.minKey) ∧
      ∀ e ∈ r.records, v.1.maxKey < e.2.minKey := by
  constructor
  · rintro ⟨hvalid, hasc⟩
    rw [records_node, List.pairwise_append, List.pairwise_cons] at hasc
    obtain ⟨hl, ⟨hv, hr⟩, hlr⟩ := hasc
    rw [records_node] at hvalid
    exact ⟨⟨fun e he => hvalid e (by simp [he]), hl⟩, ⟨fun e he => hvalid e (by simp [he]), hr⟩,
      hvalid (n, v.1) (by simp), fun e he => hlr e he (n, v.1) List.mem_cons_self, hv⟩
  · rintro ⟨hl, hr, hv, hbefore, hafter⟩
    refine ⟨?_, ?_⟩
    · rw [records_node]
      intro e he
      rcases List.mem_append.1 he with he | he
      · exact hl.valid e he
      · rcases List.mem_cons.1 he with rfl | he
        · exact hv
        · exact hr.valid e he
    · rw [records_node, List.pairwise_append, List.pairwise_cons]
      refine ⟨hl.ascending, ⟨hafter, hr.ascending⟩, fun x hx y hy => ?_⟩
      have hxv := hbefore x hx
      rcases List.mem_cons.1 hy with rfl | hy
      · exact hxv
      · have hvy := hafter y hy
        grind

/-- At a node that has neither end of the new range, the path goes on as the search for the upper
    end does. A range on the left that has the lower end is lost where the node lies inside. -/
theorem hits_iff (hle : minKey ≤ maxKey) (ht : RangesOrdered t) :
    Hits minKey maxKey t ↔ (∃ e ∈ t.records, Covers e.2 maxKey) ∨
      ∃ e ∈ t.records, Covers e.2 minKey ∧ ∀ a, Above a e t → ¬ Inside minKey maxKey a.2 := by
  induction t with
  | nil => simp [Hits]
  | node l n v r ihl ihr =>
      obtain ⟨hl, hr, hv, hbefore, hafter⟩ := rangesOrdered_node.1 ht
      have hvl : (n, v.1) ∉ l.records := fun hmem => by
        have hlt := hbefore _ hmem
        grind
      have hvr : (n, v.1) ∉ r.records := fun hmem => by
        have hlt := hafter _ hmem
        grind
      have hmem : ∀ e, e ∈ (node l n v r).records ↔ e ∈ l.records ∨ e = (n, v.1) ∨ e ∈ r.records := by
        simp
      by_cases hmax : Covers v.1 maxKey
      · exact iff_of_true (.inr (.inl hmax)) (.inl ⟨(n, v.1), (hmem _).2 (.inr (.inl rfl)), hmax⟩)
      by_cases hmin : Covers v.1 minKey
      · refine iff_of_true (.inl hmin) (.inr ⟨(n, v.1), (hmem _).2 (.inr (.inl rfl)), hmin, ?_⟩)
        rintro a (⟨-, h | h⟩ | h | h)
        · exact absurd h hvl
        · exact absurd h hvr
        · exact absurd h.mem hvl
        · exact absurd h.mem hvr
      simp only [Hits, hmin, hmax, false_or]
      simp only [Covers] at hmin hmax ihl ihr ⊢
      cases hside : keySide maxKey v.1 with
      | left =>
          -- everything from the node on lies behind the new range
          have hlt : maxKey < v.1.minKey := by
            simp only [keySide] at hside
            grind
          rw [ihl hl]
          constructor
          · rintro (⟨e, he, hcov⟩ | ⟨e, he, hcov, habove⟩)
            · exact .inl ⟨e, (hmem e).2 (.inl he), hcov⟩
            · refine .inr ⟨e, (hmem e).2 (.inl he), hcov, ?_⟩
              rintro a (⟨rfl, -⟩ | h | h)
              · simp only [Inside]
                grind
              · exact habove a h
              · have hgt := hafter e h.mem
                grind
          · rintro (⟨e, he, hcov⟩ | ⟨e, he, hcov, habove⟩)
            · rcases (hmem e).1 he with he | rfl | he
              · exact .inl ⟨e, he, hcov⟩
              · exact absurd hcov hmax
              · have hgt := hafter e he
                grind
            · rcases (hmem e).1 he with he | rfl | he
              · exact .inr ⟨e, he, hcov, fun a h => habove a (.inr (.inl h))⟩
              · exact absurd hcov hmin
              · have hgt := hafter e he
                grind
      | right =>
          have hlt : v.1.maxKey < maxKey := by
            simp only [keySide] at hside
            grind
          rw [ihr hr]
          constructor
          · rintro (⟨e, he, hcov⟩ | ⟨e, he, hcov, habove⟩)
            · exact .inl ⟨e, (hmem e).2 (.inr (.inr he)), hcov⟩
            · refine .inr ⟨e, (hmem e).2 (.inr (.inr he)), hcov, ?_⟩
              have hgt := hafter e he
              rintro a (⟨rfl, -⟩ | h | h)
              · simp only [Inside]
                grind
              · have hlt' := hbefore e h.mem
                grind
              · exact habove a h
          · rintro (⟨e, he, hcov⟩ | ⟨e, he, hcov, habove⟩)
            · rcases (hmem e).1 he with he | rfl | he
              · have hlt' := hbefore e he
                grind
              · exact absurd hcov hmax
              · exact .inl ⟨e, he, hcov⟩
            · rcases (hmem e).1 he with he | rfl | he
              · -- the node is an ancestor inside the new range
                have hlt' := hbefore e he
                refine absurd ?_ (habove (n, v.1) (.inl ⟨rfl, .inl he⟩))
                simp only [Inside]
                grind
              · exact absurd hcov hmin
              · exact .inr ⟨e, he, hcov, fun a h => habove a (.inr (.inr h))⟩

/-- A range on the path that has an end of the new one has a key in common with it. -/
theorem Hits.shares (hle : minKey ≤ maxKey) (h : Hits minKey maxKey t) :
    ∃ e ∈ t.records, Shares minKey maxKey e.2 := by
  induction t with
  | nil => exact h.elim
  | node l n v r ihl ihr =>
      rcases h with hcov | hcov | h
      · exact ⟨(n, v.1), by simp, minKey, hcov, UInt32.le_refl _, hle⟩
      · exact ⟨(n, v.1), by simp, maxKey, hcov, hle, UInt32.le_refl _⟩
      · cases hside : keySide maxKey v.1 <;> rw [hside] at h
        · obtain ⟨e, he, hshares⟩ := ihl h
          exact ⟨e, by simp [he], hshares⟩
        · obtain ⟨e, he, hshares⟩ := ihr h
          exact ⟨e, by simp [he], hshares⟩

/-- Where the test finds just the ranges that it should. -/
theorem hits_right_iff (hle : minKey ≤ maxKey) (ht : RangesOrdered t) :
    (Hits minKey maxKey t ↔ ∃ e ∈ t.records, Shares minKey maxKey e.2) ↔
      ClashSeen minKey maxKey t := by
  rw [ClashSeen, ← hits_iff hle ht]
  constructor
  · intro hiff
    by_cases hhits : Hits minKey maxKey t
    · exact .inr hhits
    · exact .inl fun e he hshares => hhits (hiff.2 ⟨e, he, hshares⟩)
  · rintro (hnone | hhits)
    · refine iff_of_false (fun hhits => ?_) fun ⟨e, he, hshares⟩ => hnone e he hshares
      obtain ⟨e, he, hshares⟩ := hhits.shares hle
      exact hnone e he hshares
    · exact iff_of_true hhits (hhits.shares hle)

end Ranges

/-! ## The path of a call -/

section Path

variable {s : AvlMem} {p mem : Ptr} {t : Tree} {minKey maxKey : UInt32} {data : List UInt8}
  {dataLen : ℤ}

theorem overlaps_iff {v : Payload × ℤ} {l r : Ptr} {d : Dir} :
    (avlLayout.cellOf d v l r p).Overlaps minKey maxKey ↔
      Covers v.1 minKey ∨ Covers v.1 maxKey := by
  simp only [AvlEntry.Overlaps, Covers, avlCellOf_minKey, avlCellOf_maxKey]

theorem hits_mk {d : Dir} {a b : Tree} {n : ℕ} {v : Payload × ℤ} (hside : keySide maxKey v.1 = d) :
    Hits minKey maxKey (mk d a n v b) ↔
      Covers v.1 minKey ∨ Covers v.1 maxKey ∨ Hits minKey maxKey a := by
  cases d <;> simp [mk, Hits, hside]

/-- One level of the call. -/
theorem run_insert_level {d : Dir} {a b : Tree} {n : ℕ} {v : Payload × ℤ}
    (hside : keySide maxKey v.1 = d) (ht : avlLayout.TreeAt s.heap p (mk d a n v b)) (fuel : ℕ)
    (slot : Slot) :
    (insertAvlEntry minKey maxKey data dataLen mem (fuel + 1) (some n) slot).run s =
      (if Covers v.1 minKey ∨ Covers v.1 maxKey then do
        slot.write (some n)
        return EEXIST
      else do
        let ret ← insertAvlEntry minKey maxKey data dataLen mem fuel a.root (.child (some n) d)
        if ret ≠ 0 then return ret
        else insertDone (← rebalanceSide d (some n) minKey) slot : Exec AvlMem ℤ).run s := by
  have hn := (avlLayout.treeAt_mk.1 ht).1
  have hdir : (if maxKey < v.1.minKey then Dir.left else .right) = d := hside
  conv_lhs => unfold insertAvlEntry
  simp only [Option.isNone_some, Bool.false_eq_true, if_false, StateT.run_bind, run_load, atEntry,
    hn, ok_bind, avlCellOf_minKey, hdir, avlCellOf_child, overlaps_iff]

/-- What the parent's field holds is written to it again. -/
theorem run_write_child {d : Dir} {a b : Tree} {n : ℕ} {v : Payload × ℤ}
    (ht : avlLayout.TreeAt s.heap p (mk d a n v b)) :
    ((Slot.child (some n) d).write a.root).run s = .ok ((), s) := by
  have hn := (avlLayout.treeAt_mk.1 ht).1
  have hself : Function.update s.heap n (some (avlLayout.cellOf d v a.root b.root p)) = s.heap := by
    rw [← hn, Function.update_eq_self]
  simp only [Slot.write, run_setChild, atEntry, hn, avlCellOf_setChild, hself]

/-- The call answers EEXIST where the path hits, having changed at most the caller's variable. -/
theorem run_insert_hit (data : List UInt8) (dataLen : ℤ) (mem : Ptr)
    (ht : avlLayout.TreeAt s.heap p t) (hhits : Hits minKey maxKey t) {slot : Slot} {s' : AvlMem}
    (hwrite : (slot.write t.root).run s = .ok ((), s')) :
    ∃ s'', (s'' = s ∨ s'' = s') ∧ ∀ fuel, t.depth < fuel →
      (insertAvlEntry minKey maxKey data dataLen mem fuel t.root slot).run s = .ok (EEXIST, s'') := by
  induction t using path_induction (fun v : Payload × ℤ => keySide maxKey v.1)
    generalizing p slot s' with
  | nil => exact hhits.elim
  | step d a n v b hside ih =>
      rw [root_mk] at hwrite ⊢
      by_cases hcov : Covers v.1 minKey ∨ Covers v.1 maxKey
      · refine ⟨s', .inr rfl, fun fuel hfuel => ?_⟩
        obtain ⟨fuel, rfl⟩ := Nat.exists_eq_add_one.2 (Nat.zero_lt_of_lt hfuel)
        rw [run_insert_level hside ht, if_pos hcov, Exec.run_bind_of_ok hwrite]
        rfl
      · have hhits' : Hits minKey maxKey a := by
          rcases (hits_mk hside).1 hhits with h | h | h
          · exact absurd (.inl h) hcov
          · exact absurd (.inr h) hcov
          · exact h
        obtain ⟨s'', hs'', hrun⟩ := ih (avlLayout.treeAt_mk.1 ht).2.1 hhits' (run_write_child ht)
        obtain rfl : s'' = s := by simpa using hs''
        refine ⟨s'', .inl rfl, fun fuel hfuel => ?_⟩
        obtain ⟨fuel, rfl⟩ := Nat.exists_eq_add_one.2 (Nat.zero_lt_of_lt hfuel)
        rw [depth_mk] at hfuel
        rw [run_insert_level hside ht, if_neg hcov, Exec.run_bind_of_ok (hrun fuel (by omega)),
          if_pos (by decide)]
        rfl

/-- The last lines return 0, if they return. -/
theorem insertDone_zero (tree : Ptr) (slot : Slot) :
    Exec.Keeps (fun _ => True) (insertDone tree slot) (· = 0) :=
  .bind (.trivial _) fun _ _ => .bind (.trivial _) fun _ _ => .bind (.trivial _) fun _ _ => .pure rfl

theorem alloc_zero {m : ℕ} {tree : Ptr} {slot : Slot} {ret : ℤ} {s' : AvlMem} (hrun : (do
      allocEntry minKey maxKey data dataLen m
      insertDone tree slot : Exec AvlMem ℤ).run s = .ok (ret, s')) : ret = 0 := by
  have hkeeps : Exec.Keeps (fun _ => True) (do
      allocEntry minKey maxKey data dataLen m
      insertDone tree slot : Exec AvlMem ℤ) (· = 0) :=
    .bind (.trivial _) fun _ _ => insertDone_zero _ _
  exact (hkeeps s ret s' trivial hrun).2

theorem rebalance_zero {d : Dir} {tree : Ptr} {slot : Slot} {ret : ℤ} {s' : AvlMem} (hrun : (do
      insertDone (← rebalanceSide d tree minKey) slot : Exec AvlMem ℤ).run s = .ok (ret, s')) :
    ret = 0 := by
  have hkeeps : Exec.Keeps (fun _ => True) (do
      insertDone (← rebalanceSide d tree minKey) slot : Exec AvlMem ℤ) (· = 0) :=
    .bind (.trivial _) fun _ _ => insertDone_zero _ _
  exact (hkeeps s ret s' trivial hrun).2

/-- Where the path does not hit, the call does not answer EEXIST. -/
theorem insert_not_exist (ht : avlLayout.TreeAt s.heap p t) (hhits : ¬ Hits minKey maxKey t)
    {fuel : ℕ} {slot : Slot} {ret : ℤ} {s' : AvlMem}
    (hrun : (insertAvlEntry minKey maxKey data dataLen mem fuel t.root slot).run s = .ok (ret, s')) :
    ret ≠ EEXIST := by
  induction t using path_induction (fun v : Payload × ℤ => keySide maxKey v.1)
    generalizing p fuel slot ret s' with
  | nil =>
      obtain _ | fuel := fuel
      · cases hrun
      obtain _ | m := mem
      · rw [insertAvlEntry] at hrun
        have hres : (ENOMEM, s) = (ret, s') := Except.ok.inj hrun
        obtain ⟨rfl, -⟩ := Prod.mk.inj hres
        decide
      · rw [alloc_zero hrun]
        decide
  | step d a n v b hside ih =>
      obtain _ | fuel := fuel
      · cases hrun
      rw [hits_mk hside, not_or, not_or] at hhits
      rw [root_mk, run_insert_level hside ht, if_neg (not_or.2 ⟨hhits.1, hhits.2.1⟩)] at hrun
      obtain ⟨ret', s₁, hsub, hrest⟩ := Exec.of_run_bind hrun
      have hne := ih (avlLayout.treeAt_mk.1 ht).2.1 hhits.2.2 hsub
      split_ifs at hrest with hzero
      · obtain ⟨rfl, -⟩ := Prod.mk.inj (Except.ok.inj hrest)
        exact hne
      · rw [rebalance_zero hrest]
        decide

/-- So EEXIST is what a hit on the path makes of the call. -/
theorem returns_exist_iff (ht : avlLayout.TreeAt s.heap p t) :
    (∃ s', Returns (fun fuel => insertAvlEntry minKey maxKey data dataLen mem fuel t.root .root) s
      EEXIST s') ↔ Hits minKey maxKey t := by
  constructor
  · rintro ⟨s', K, hK⟩
    by_contra hhits
    exact insert_not_exist ht hhits (hK K le_rfl) rfl
  · intro hhits
    have hwrite : (Slot.root.write t.root).run s = .ok ((), { s with newRoot := t.root }) := rfl
    obtain ⟨s', -, hrun⟩ := run_insert_hit data dataLen mem ht hhits hwrite
    exact ⟨s', t.depth + 1, fun fuel hfuel => hrun fuel (by omega)⟩

end Path

/-! ## Runs -/

/-- What every caller promises, and a range that is not empty; `malloc` succeeds. The test finds
    what it should, and a call that inserts needs no rotation that the code gets wrong. -/
def SeenCall (_ : List (InsertOp × ℤ)) (s : AvlMem) (op : InsertOp) : Prop :=
  GoodCall s op ∧ op.mem.isSome ∧ op.minKey ≤ op.maxKey ∧
    ∀ t : Tree, avlLayout.TreeAt s.heap none t → s.newRoot = t.root →
      ClashSeen op.minKey op.maxKey t ∧
        ((∀ e ∈ t.records, ¬ Shares op.minKey op.maxKey e.2) → SoundPath (keySide op.maxKey) t)

/-- The new range has a key in common with one of the list. -/
def Clashes (l : List (UInt32 × UInt32)) (op : InsertOp) : Prop :=
  ∃ x ∈ l, x.1 ≤ op.maxKey ∧ op.minKey ≤ x.2

instance (l : List (UInt32 × UInt32)) (op : InsertOp) : Decidable (Clashes l op) :=
  inferInstanceAs (Decidable (∃ x ∈ l, _))

/-- A range is added unless it has a key in common with one that is there. -/
def rangeSpec : Spec (List (UInt32 × UInt32)) InsertOp ℤ where
  result l op := if Clashes l op then EEXIST else 0
  next l op := if Clashes l op then l else (op.minKey, op.maxKey) :: l

/-- Memory holds an AVL tree of the ranges in `l`, and no key is in the ranges of two nodes. -/
def DisjointRanges (s : AvlMem) (l : List (UInt32 × UInt32)) : Prop :=
  ∃ t, AvlTree s t l ∧ ∀ key, ∀ x ∈ t.records, ∀ y ∈ t.records,
    Covers x.2 key → Covers y.2 key → x = y

/-! ## Failed calls -/

section Failed

variable {s s' : AvlMem} {minKey maxKey : UInt32} {data : List UInt8} {dataLen : ℤ} {mem tree : Ptr}
  {slot : Slot} {ret : ℤ}

theorem of_run_load {n : ℕ} {c : AvlEntry} (hload : (load (some n)).run s = .ok (c, s')) :
    s.heap n = some c ∧ s = s' := by
  rw [run_load, atEntry] at hload
  cases hc : s.heap n with
  | none => rw [hc] at hload; cases hload
  | some c' =>
      rw [hc] at hload
      obtain ⟨rfl, rfl⟩ := Prod.mk.inj (Except.ok.inj hload)
      exact ⟨rfl, rfl⟩

/-- A child pointer is written back to where it has been read. -/
theorem write_back {n : ℕ} {d : Dir} {c : AvlEntry} (hc : s.heap n = some c)
    (hwrite : ((Slot.child (some n) d).write (c.child d)).run s = .ok ((), s')) : s' = s := by
  have hself : c.setChild d (c.child d) = c := by cases d <;> rfl
  simp only [Slot.write, run_setChild, atEntry, hc, hself] at hwrite
  have hupdate : Function.update s.heap n (some c) = s.heap := by
    rw [← hc, Function.update_eq_self]
  rw [hupdate] at hwrite
  exact (Prod.mk.inj (Except.ok.inj hwrite)).2.symm

/-- Below the level at which a call fails nothing has happened, and at that level the pointer passed
    in is stored, or nothing is; further up each level returns at once. -/
theorem failed_insert {fuel : ℕ}
    (hrun : (insertAvlEntry minKey maxKey data dataLen mem fuel tree slot).run s = .ok (ret, s'))
    (hret : ret ≠ 0) : s' = s ∨ (slot.write tree).run s = .ok ((), s') := by
  induction fuel generalizing tree slot ret s' with
  | zero => cases hrun
  | succ fuel ih =>
      unfold insertAvlEntry at hrun
      cases tree with
      | none =>
          cases mem with
          | none => exact .inl (Prod.mk.inj (Except.ok.inj hrun)).2.symm
          | some m => exact absurd (alloc_zero hrun) hret
      | some n =>
          simp only [Option.isNone_some, Bool.false_eq_true, if_false] at hrun
          obtain ⟨c, s₁, hload, hrun⟩ := Exec.of_run_bind hrun
          obtain ⟨hc, rfl⟩ := of_run_load hload
          by_cases hoverlap : c.Overlaps minKey maxKey
          · -- the tree is stored, and nothing else is done
            rw [if_pos hoverlap] at hrun
            obtain ⟨_, s₁, hwrite, hdone⟩ := Exec.of_run_bind hrun
            obtain ⟨-, rfl⟩ := Prod.mk.inj (Except.ok.inj hdone)
            exact .inr hwrite
          · rw [if_neg hoverlap] at hrun
            obtain ⟨ret', s₁, hsub, hrest⟩ := Exec.of_run_bind hrun
            by_cases hzero : ret' ≠ 0
            · rw [if_pos hzero] at hrest
              obtain ⟨-, rfl⟩ := Prod.mk.inj (Except.ok.inj hrest)
              exact .inl ((ih hsub hzero).elim id (write_back hc))
            · rw [if_neg hzero] at hrest
              exact absurd (rebalance_zero hrest) hret

end Failed

section Runs

variable {s : AvlMem} {t : Tree} {l : List (UInt32 × UInt32)} {op : InsertOp}

theorem AvlTree.rangesOrdered (h : AvlTree s t l) (hvalid : ∀ x ∈ l, x.1 ≤ x.2) :
    RangesOrdered t where
  valid _ he := hvalid _ (h.perm.mem_iff.1 (List.mem_map_of_mem he))
  ascending := List.pairwise_map.1 h.ascending

theorem RangesOrdered.unique (h : RangesOrdered t) {key : UInt32} : ∀ x ∈ t.records, ∀ y ∈ t.records,
    Covers x.2 key → Covers y.2 key → x = y := by
  intro x hx y hy hcx hcy
  by_contra hne
  have hapart : t.records.Pairwise fun x y => ¬ (Covers x.2 key ∧ Covers y.2 key) := by
    refine h.ascending.imp fun hlt => ?_
    simp only [Covers]
    grind
  have hsymm : Std.Symm fun x y : ℕ × Payload => ¬ (Covers x.2 key ∧ Covers y.2 key) :=
    ⟨fun _ _ hxy hyx => hxy ⟨hyx.2, hyx.1⟩⟩
  exact hapart.forall hx hy hne ⟨hcx, hcy⟩

theorem AvlTree.clashes_iff (h : AvlTree s t l) (hvalid : ∀ x ∈ l, x.1 ≤ x.2)
    (hle : op.minKey ≤ op.maxKey) :
    Clashes l op ↔ ∃ e ∈ t.records, Shares op.minKey op.maxKey e.2 := by
  have hiff : ∀ e ∈ t.records, Shares op.minKey op.maxKey e.2 ↔
      e.2.minKey ≤ op.maxKey ∧ op.minKey ≤ e.2.maxKey := fun e he =>
    shares_iff hle ((h.rangesOrdered hvalid).valid e he)
  constructor
  · rintro ⟨x, hx, hclash⟩
    obtain ⟨e, he, rfl⟩ := List.mem_map.1 (h.perm.mem_iff.2 hx)
    exact ⟨e, he, (hiff e he).2 hclash⟩
  · rintro ⟨e, he, hshares⟩
    exact ⟨_, h.perm.mem_iff.1 (List.mem_map_of_mem he), (hiff e he).1 hshares⟩

/-- One call. -/
theorem AvlTree.returns_seen (h : AvlTree s t l) (hvalid : ∀ x ∈ l, x.1 ≤ x.2)
    (tr : List (InsertOp × ℤ)) (hseen : SeenCall tr s op) :
    ∃ s', Returns ((avlMachine SeenCall).exec op) s (rangeSpec.result l op) s' ∧
      AvlRight s' (rangeSpec.next l op) ∧ ∀ x ∈ rangeSpec.next l op, x.1 ≤ x.2 := by
  obtain ⟨hgood, hmem, hle, hall⟩ := hseen
  obtain ⟨hsees, hsound⟩ := hall t h.layout h.root
  obtain ⟨m, hm⟩ := Option.isSome_iff_exists.1 hmem
  have hclash := h.clashes_iff hvalid hle
  simp only [rangeSpec]
  by_cases hc : Clashes l op
  · have hhits := ((hits_right_iff hle (h.rangesOrdered hvalid)).2 hsees).2 (hclash.1 hc)
    have hwrite : (Slot.root.write t.root).run s = .ok ((), s) := by
      rw [← h.root]
      rfl
    obtain ⟨s', hs', hrun⟩ := run_insert_hit op.data op.dataLen op.mem h.layout hhits hwrite
    obtain rfl : s' = s := by simpa using hs'
    rw [if_pos hc, if_pos hc]
    refine ⟨s', ⟨t.depth + 1, fun fuel hfuel => ?_⟩, ⟨t, h⟩, hvalid⟩
    simp only [avlMachine, StateT.run_bind, StateT.run_get, pure_eq_ok, ok_bind, h.root]
    exact hrun fuel (by omega)
  · rw [if_neg hc, if_neg hc]
    have hdis : ∀ x ∈ l, op.maxKey < x.1 ∨ x.2 < op.minKey := by
      intro x hx
      by_contra hne
      exact hc ⟨x, hx, by grind⟩
    obtain ⟨s', hret, ht', -⟩ := h.returns_insert op hvalid hm hgood hle hdis
      (hsound fun e he hshares => hc (hclash.2 ⟨e, he, hshares⟩)) SeenCall
    exact ⟨s', hret, ⟨_, ht'⟩, List.forall_mem_cons.2 ⟨hle, hvalid⟩⟩

/-- In every run of such calls the ranges have no key in common. -/
theorem ranges_stay_disjoint (heap : Cells AvlEntry) :
    (avlMachine SeenCall).Refines ⟨heap, none⟩ rangeSpec [] DisjointRanges := by
  refine Machine.Refines.mono (R := fun s l => AvlRight s l ∧ ∀ x ∈ l, x.1 ≤ x.2)
    (Machine.refines_of_step ⟨⟨nil, avlTree_empty heap⟩, by simp⟩ ?_) ?_
  · rintro tr s op ⟨⟨t, ht⟩, hvalid⟩ hseen
    exact ht.returns_seen hvalid tr hseen
  · rintro s l ⟨⟨t, ht⟩, hvalid⟩
    exact ⟨t, ht, fun key => (ht.rangesOrdered hvalid).unique⟩

end Runs

/-! ## Every tree and every range -/

/-- **When the test for an overlap is right**: `InsertAvlEntry` answers EEXIST just where the new
    range has a key in common with a stored one, if and only if there is no such range, or one has
    the upper end of the new range, or one has its lower end and no ancestor inside it. Where that
    is so in every call, and no rotation goes wrong, the ranges stay without common keys. -/
theorem insert_refuses_clashes {s : AvlMem} {p : Ptr} {t : Tree} {minKey maxKey : UInt32}
    (ht : avlLayout.TreeAt s.heap p t) (hord : RangesOrdered t) (hle : minKey ≤ maxKey)
    (data : List UInt8) (dataLen : ℤ) (m : ℕ) (heap : Cells AvlEntry) :
    (((∃ s', Returns (fun fuel => insertAvlEntry minKey maxKey data dataLen (some m) fuel t.root
          .root) s EEXIST s') ↔ ∃ e ∈ t.records, Shares minKey maxKey e.2) ↔
        ClashSeen minKey maxKey t) ∧
      (avlMachine SeenCall).Refines ⟨heap, none⟩ rangeSpec [] DisjointRanges := by
  rw [returns_exist_iff ht]
  exact ⟨hits_right_iff hle hord, ranges_stay_disjoint heap⟩

/-- Five ranges in two levels below the root. -/
def fiveRanges : Tree :=
  node (node (node nil 3 (newPayload 10 15 [], 0) nil) 1 (newPayload 20 29 [], 1)
      (node nil 4 (newPayload 32 35 [], 0) nil)) 0 (newPayload 40 49 [], 2)
    (node nil 2 (newPayload 60 69 [], 0) nil)

def fiveRangesMem : AvlMem where
  heap := fun
    | 0 => some (avlCell (newPayload 40 49 []) 2 (some 1) (some 2) none)
    | 1 => some (avlCell (newPayload 20 29 []) 1 (some 3) (some 4) (some 0))
    | 2 => some (avlCell (newPayload 60 69 []) 0 none none (some 0))
    | 3 => some (avlCell (newPayload 10 15 []) 0 none none (some 1))
    | 4 => some (avlCell (newPayload 32 35 []) 0 none none (some 1))
    | _ => none
  newRoot := some 0

theorem treeAt_fiveRanges : avlLayout.TreeAt fiveRangesMem.heap none fiveRanges :=
  ⟨rfl, ⟨rfl, ⟨rfl, trivial, trivial⟩, rfl, trivial, trivial⟩, rfl, trivial, trivial⟩

theorem rangesOrdered_fiveRanges : RangesOrdered fiveRanges :=
  ⟨by decide, by simp [fiveRanges, newPayload]⟩

/-- 33 to 38 is refused because of the range from 32 to 35 on the lowest level, 16 to 19 is not. -/
theorem insert_refuses_lowest :
    (∃ s', Returns (fun fuel => insertAvlEntry 33 38 [] 0 (some 5) fuel (some 0) .root) fiveRangesMem
      EEXIST s') ∧
    ¬ ∃ s', Returns (fun fuel => insertAvlEntry 16 19 [] 0 (some 5) fuel (some 0) .root) fiveRangesMem
      EEXIST s' := by
  have hlower : (4, newPayload 32 35 []) ∈ fiveRanges.records := by simp [fiveRanges]
  have hcov : Covers (newPayload 32 35 []) 33 := by decide
  have habove : ∀ a, Above a (4, newPayload 32 35 []) fiveRanges → ¬ Inside 33 38 a.2 := by
    intro a ha
    obtain rfl | rfl : (0, newPayload 40 49 []) = a ∨ (1, newPayload 20 29 []) = a := by
      simpa [fiveRanges, Above, newPayload] using ha
    · exact fun h => absurd h.2 (by decide)
    · exact fun h => absurd h.1 (by decide)
  have hapart : ∀ e ∈ fiveRanges.records, ¬ Shares 16 19 e.2 := by
    simp [fiveRanges, shares_iff, newPayload]
  have hrefuse := (insert_refuses_clashes treeAt_fiveRanges rangesOrdered_fiveRanges
    (show (33 : UInt32) ≤ 38 by decide) [] 0 5 fun _ => none).1.2
  have hpass := (insert_refuses_clashes treeAt_fiveRanges rangesOrdered_fiveRanges
    (show (16 : UInt32) ≤ 19 by decide) [] 0 5 fun _ => none).1.2
  refine ⟨(hrefuse (.inr (.inr ⟨_, hlower, hcov, habove⟩))).2 ⟨_, hlower, 33, hcov, ?_⟩, fun h => ?_⟩
  · decide
  · obtain ⟨e, he, hshares⟩ := (hpass (.inl hapart)).1 h
    exact hapart e he hshares

/-- The range from 10 to 20 at the node 0. -/
def oneRange : AvlMem :=
  ⟨fun m => if m = 0 then some (newEntry 10 20 []) else none, some 0⟩

/-- Its tree. -/
def oneRangeTree : Tree := node nil 0 (newPayload 10 20 [], 0) nil

theorem rangesOrdered_oneRange : RangesOrdered oneRangeTree := ⟨by decide, List.pairwise_singleton _ _⟩

/-- 5 to 25 is inserted beside it. -/
theorem insert_misses_inside :
    avlLayout.TreeAt oneRange.heap none oneRangeTree ∧ RangesOrdered oneRangeTree ∧
      (∃ s', Returns (fun fuel => insertAvlEntry 5 25 [] 0 (some 1) fuel (some 0) .root) oneRange 0
        s') ∧
      ¬ ((∃ s', Returns (fun fuel => insertAvlEntry 5 25 [] 0 (some 1) fuel (some 0) .root) oneRange
        EEXIST s') ↔ ∃ e ∈ oneRangeTree.records, Shares 5 25 e.2) := by
  obtain ⟨s', hret⟩ : ∃ s', Returns (fun fuel => insertAvlEntry 5 25 [] 0 (some 1) fuel (some 0)
      .root) oneRange 0 s' := ⟨_, .of_succ (.of_succ ⟨0, fun _ _ => rfl⟩)⟩
  refine ⟨⟨rfl, trivial, trivial⟩, rangesOrdered_oneRange, ⟨s', hret⟩, fun hiff => ?_⟩
  have hshares : ∃ e ∈ oneRangeTree.records, Shares 5 25 e.2 :=
    ⟨_, List.mem_singleton.2 rfl, 10, by decide, by decide, by decide⟩
  obtain ⟨s'', hret'⟩ := hiff.2 hshares
  exact absurd (hret.unique hret').1 (by decide)

/-- **A failed insertion is invisible**: where `InsertAvlEntry` returns something other than 0, from
    whatever depth, the state is the one before, but that the tree passed in may have been stored
    through `new_root`; so no node has changed. -/
theorem failed_insert_invisible {s s' : AvlMem} {minKey maxKey : UInt32} {data : List UInt8}
    {dataLen : ℤ} {mem tree : Ptr} {newRoot : Slot} {ret : ℤ}
    (hreturns : Returns (fun fuel => insertAvlEntry minKey maxKey data dataLen mem fuel tree newRoot)
      s ret s') (hret : ret ≠ 0) :
    (s' = s ∨ (newRoot.write tree).run s = .ok ((), s')) ∧
      (newRoot = .root → s'.heap = s.heap ∧ (s'.newRoot = s.newRoot ∨ s'.newRoot = tree)) := by
  obtain ⟨k, hrun⟩ := hreturns
  have hfailed := failed_insert (hrun k (Nat.le_refl k)) hret
  refine ⟨hfailed, ?_⟩
  rintro rfl
  rcases hfailed with rfl | hwrite
  · exact ⟨rfl, .inl rfl⟩
  · obtain ⟨-, rfl⟩ := Prod.mk.inj (Except.ok.inj hwrite)
    exact ⟨rfl, .inr rfl⟩

/-- There is no memory for a node on the right of the range from 10 to 20. -/
theorem failed_insert_invisible_nomem : ∃ s', Returns (fun fuel => insertAvlEntry 30 40 [] 0 none fuel
    (some 0) .root) oneRange ENOMEM s' ∧ s'.heap = oneRange.heap := by
  have hreturns : Returns (fun fuel => insertAvlEntry 30 40 [] 0 none fuel (some 0) .root) oneRange
      ENOMEM oneRange := .of_succ (.of_succ ⟨0, fun _ _ => rfl⟩)
  exact ⟨oneRange, hreturns, ((failed_insert_invisible hreturns (by decide)).2 rfl).1⟩

end StructLib.Avl
