import StructLib.Avltree.Insert

set_option autoImplicit false

/-! # Building an AVL tree

The caller keeps the root in a variable that each `InsertAvlEntry` call reads and, through
`new_root`, writes. `avlSpec` says what the calls are for: collecting ranges. A run of insertions of
pairwise disjoint ranges keeps `AvlRight` as long as no call needs a rotation that the code gets
wrong (`avl_runs_right`). -/

namespace StructLib.Avl

open BinTree

/-! ## Runs of insertions -/

/-- `InsertAvlEntry(root, min_key, max_key, data, data_len, &root)`; `mem` is what `malloc` returns.
    -/
structure InsertOp where
  minKey : UInt32
  maxKey : UInt32
  data : List UInt8
  dataLen : ℤ
  mem : Ptr

/-- Insertions for which the environment promises `gate`. -/
def avlMachine (gate : List (InsertOp × ℤ) → AvlMem → InsertOp → Prop) :
    Machine AvlMem InsertOp ℤ where
  enabled := gate
  exec op fuel := do
    insertAvlEntry op.minKey op.maxKey op.data op.dataLen op.mem fuel (← get).newRoot .root

/-- What every caller promises: `data` has `data_len` bytes, and `malloc` returns no block in use.
    -/
def GoodCall (s : AvlMem) (op : InsertOp) : Prop :=
  0 ≤ op.dataLen ∧ op.dataLen ≤ op.data.length ∧ ∀ m, op.mem = some m → s.heap m = none

/-- The range is not empty and has no key in common with those inserted before; `malloc` succeeds.
    -/
def DisjointCall (tr : List (InsertOp × ℤ)) (s : AvlMem) (op : InsertOp) : Prop :=
  GoodCall s op ∧ op.mem.isSome ∧ op.minKey ≤ op.maxKey ∧
    ∀ e ∈ tr, op.maxKey < e.1.minKey ∨ e.1.maxKey < op.minKey

/-- A call that needs no rotation but those the code gets right. -/
def SoundCall (tr : List (InsertOp × ℤ)) (s : AvlMem) (op : InsertOp) : Prop :=
  DisjointCall tr s op ∧ ∀ t : Tree, avlLayout.TreeAt s.heap none t → s.newRoot = t.root →
    SoundPath (keySide op.maxKey) t

/-- The ranges inserted, the latest first. -/
def avlSpec : Spec (List (UInt32 × UInt32)) InsertOp ℤ where
  result _ _ := 0
  next l op := (op.minKey, op.maxKey) :: l

/-- The ranges of a tree in order. -/
def ranges (t : Tree) : List (UInt32 × UInt32) := t.records.map fun e => (e.2.minKey, e.2.maxKey)

/-- Memory holds a tree with parent links under the root variable, no node being on two paths; every
    stored height is right, siblings differ in height by at most one, and the ranges are those in
    `l`, in ascending order. -/
structure AvlTree (s : AvlMem) (t : Tree) (l : List (UInt32 × UInt32)) : Prop where
  layout : avlLayout.TreeAt s.heap none t
  root : s.newRoot = t.root
  distinct : t.Distinct
  measured : t.Measured
  balanced : t.Balanced
  perm : (ranges t).Perm l
  ascending : (ranges t).Pairwise fun x y => x.2 < y.1

def AvlRight (s : AvlMem) (l : List (UInt32 × UInt32)) : Prop := ∃ t, AvlTree s t l

/-! ## One call -/

section Call

variable {s : AvlMem} {t : Tree} {l : List (UInt32 × UInt32)} {tr : List (InsertOp × ℤ)}
  {op : InsertOp}

/-- The ranges of the history are those of the abstract state. -/
theorem mem_after {x : UInt32 × UInt32} :
    x ∈ avlSpec.after [] tr ↔ ∃ e ∈ tr, (e.1.minKey, e.1.maxKey) = x := by
  induction tr using List.reverseRecOn with
  | nil => simp
  | append_singleton tr e ih =>
      rw [Spec.after_snoc]
      simp only [avlSpec] at ih ⊢
      simp [ih, or_comm, eq_comm]

theorem AvlTree.not_mem (h : AvlTree s t l) {m : ℕ} (hm : s.heap m = none) : m ∉ t := by
  intro hmem
  obtain ⟨fs, a, v, b, rfl⟩ := Ctx.exists_plug hmem
  have hn := (avlLayout.treeAt_plug.1 ⟨h.layout, h.root⟩).1.1
  rw [hm] at hn
  cases hn

/-- The ranges of the nodes are pairwise apart, and apart from the new one. -/
theorem AvlTree.apart (h : AvlTree s t l) (hvalid : ∀ x ∈ l, x.1 ≤ x.2)
    (hdis : ∀ x ∈ l, op.maxKey < x.1 ∨ x.2 < op.minKey) :
    ∀ e ∈ t.records, Apart op.minKey op.maxKey e.2 := by
  intro e he
  have hmem : (e.2.minKey, e.2.maxKey) ∈ l :=
    h.perm.mem_iff.1 (List.mem_map_of_mem he)
  exact ⟨hvalid _ hmem, hdis _ hmem⟩

/-- The in-order sequence splits at the new range. -/
theorem AvlTree.exists_split (h : AvlTree s t l)
    (hapart : ∀ e ∈ t.records, Apart op.minKey op.maxKey e.2) :
    ∃ bs as, t.records = bs ++ as ∧ (∀ e ∈ bs, keySide op.maxKey e.2 = .right) ∧
      ∀ e ∈ as, keySide op.maxKey e.2 = .left := by
  refine BinTree.exists_split (List.Pairwise.imp_of_mem ?_ (List.pairwise_map.1 h.ascending))
  intro x y hx hy hxy hside
  have hvalid := (hapart x hx).1
  simp only [keySide] at hside ⊢
  grind

/-- An insertion that needs no wrong rotation. -/
theorem AvlTree.returns_insert (h : AvlTree s t l) (op : InsertOp) (hvalid : ∀ x ∈ l, x.1 ≤ x.2) {m : ℕ}
    (hm : op.mem = some m) (hgood : GoodCall s op) (hle : op.minKey ≤ op.maxKey)
    (hdis : ∀ x ∈ l, op.maxKey < x.1 ∨ x.2 < op.minKey)
    (hsound : SoundPath (keySide op.maxKey) t)
    (gate : List (InsertOp × ℤ) → AvlMem → InsertOp → Prop) :
    ∃ s', Returns ((avlMachine gate).exec op) s 0 s' ∧
      AvlTree s' (avlInsert (keySide op.maxKey) m
        (newPayload op.minKey op.maxKey (op.data.take op.dataLen.toNat)) t)
        ((op.minKey, op.maxKey) :: l) ∧
      ∀ x, x ∉ t → x ≠ m → s'.heap x = s.heap x := by
  obtain ⟨hlen, hdata, hfree⟩ := hgood
  have hapart := h.apart hvalid hdis
  have hmt : m ∉ t := h.not_mem (hfree m hm)
  obtain ⟨bs, as, hsplit, hbs, has⟩ := h.exists_split hapart
  obtain ⟨h', ht', hsame, hrun⟩ := inserts hle hlen hdata h.layout h.distinct h.measured h.balanced
    hsound hapart hmt
  generalize he : newPayload op.minKey op.maxKey (op.data.take op.dataLen.toNat) = e at *
  have hrecords := records_avlInsert (m := m) (e := e) hsplit hbs has
  have hranges : ranges (avlInsert (keySide op.maxKey) m e t) =
      bs.map (fun e => (e.2.minKey, e.2.maxKey)) ++ (op.minKey, op.maxKey) ::
        as.map fun e => (e.2.minKey, e.2.maxKey) := by
    rw [ranges, hrecords, List.map_append, List.map_cons, ← he]
    rfl
  have hold : ranges t = bs.map (fun e => (e.2.minKey, e.2.maxKey)) ++
      as.map fun e => (e.2.minKey, e.2.maxKey) := by
    rw [ranges, hsplit, List.map_append]
  refine ⟨⟨h', (avlInsert (keySide op.maxKey) m e t).root⟩, ⟨t.depth + 1, fun fuel hfuel => ?_⟩,
    ⟨?_, rfl, distinct_avlInsert hmt h.distinct, measured_avlInsert h.measured,
      balanced_avlInsert h.balanced, ?_, ?_⟩, hsame⟩
  · simp only [avlMachine, StateT.run_bind, StateT.run_get, pure_eq_ok, ok_bind, h.root, hm]
    rw [hrun fuel .root (by omega)]
    rfl
  · simpa using ht'
  · rw [hranges]
    exact List.perm_middle.trans (.cons _ (hold ▸ h.perm))
  · have hasc := h.ascending
    rw [hold, List.pairwise_append] at hasc
    obtain ⟨hb, ha, hba⟩ := hasc
    rw [hranges, List.pairwise_append, List.pairwise_cons]
    refine ⟨hb, ⟨?_, ha⟩, ?_⟩
    · intro y hy
      obtain ⟨x, hx, rfl⟩ := List.mem_map.1 hy
      have hside := has x hx
      simp only [keySide] at hside
      grind
    · intro y hy z hz
      rcases List.mem_cons.1 hz with rfl | hz
      · obtain ⟨x, hx, rfl⟩ := List.mem_map.1 hy
        have hside := hbs x hx
        have hax := (hapart x (hsplit ▸ List.mem_append_left _ hx)).2
        simp only [keySide] at hside
        grind
      · exact hba y hy z hz

end Call

/-! ## Every run -/

theorem avlTree_empty (heap : Cells AvlEntry) : AvlTree ⟨heap, none⟩ nil [] where
  layout := trivial
  root := rfl
  distinct := distinct_nil
  measured := measured_nil
  balanced := balanced_nil
  perm := .nil
  ascending := .nil

/-- **When a run of insertions is right**: every run of insertions of pairwise disjoint ranges in
    which no insertion needs a rotation that the code gets wrong. Each call returns 0, and after it
    the variable holds an AVL tree of exactly the ranges inserted. -/
theorem avl_runs_right (heap : Cells AvlEntry) :
    (avlMachine SoundCall).Refines ⟨heap, none⟩ avlSpec [] AvlRight := by
  refine Machine.Refines.mono (R := fun s l => AvlRight s l ∧ ∀ x ∈ l, x.1 ≤ x.2)
    (Machine.refines_of_step ⟨⟨nil, avlTree_empty heap⟩, by simp⟩ ?_) fun _ _ h => h.1
  rintro tr s op ⟨⟨t, ht⟩, hvalid⟩ ⟨⟨hgood, hmem, hle, hdis⟩, hsound⟩
  obtain ⟨m, hm⟩ := Option.isSome_iff_exists.1 hmem
  have hdis' : ∀ x ∈ avlSpec.after [] tr, op.maxKey < x.1 ∨ x.2 < op.minKey := by
    intro x hx
    obtain ⟨e, he, rfl⟩ := mem_after.1 hx
    exact hdis e he
  obtain ⟨s', hret, ht', -⟩ := ht.returns_insert op hvalid hm hgood hle hdis'
    (hsound t ht.layout ht.root) SoundCall
  exact ⟨s', hret, ⟨_, ht'⟩, List.forall_mem_cons.2 ⟨hle, hvalid⟩⟩

/-! ## A call that needs a double rotation -/

/-- Insert the range of one key, without data. -/
def keyCall (key : UInt32) (m : ℕ) : InsertOp := ⟨key, key, [], 0, some m⟩

theorem goodCall_key {s : AvlMem} {key : UInt32} {m : ℕ} (hm : s.heap m = none) :
    GoodCall s (keyCall key m) := by
  refine ⟨Int.le_refl 0, Int.le_refl 0, ?_⟩
  rintro _ ⟨⟩
  exact hm

/-- Insert 30, 10 and 20: the third call follows a NULL child. -/
theorem avl_wrong_left_right :
    ∃ s, (avlMachine DisjointCall).Run ⟨fun _ => none, none⟩
        [(keyCall 30 0, 0), (keyCall 10 1, 0)] s ∧
      (avlMachine DisjointCall).enabled [(keyCall 30 0, 0), (keyCall 10 1, 0)] s (keyCall 20 2) ∧
      ∀ r s', ¬ Returns ((avlMachine DisjointCall).exec (keyCall 20 2)) s r s' := by
  -- after the first call 30 is alone, after the second one it has 10 on its left
  obtain ⟨s₁, hret₁, ht₁, hsame₁⟩ := (avlTree_empty fun _ => none).returns_insert
    (keyCall 30 0) (by simp) rfl (goodCall_key rfl) (by decide) (by simp) trivial DisjointCall
  have hfree₁ : ∀ x, x ≠ 0 → s₁.heap x = none := fun x hx => hsame₁ x (by simp) hx
  obtain ⟨s₂, hret₂, ht₂, hsame₂⟩ := ht₁.returns_insert (keyCall 10 1)
    (List.forall_mem_singleton.2 (by decide)) rfl (goodCall_key (hfree₁ 1 (by simp))) (by decide)
    (List.forall_mem_singleton.2 (.inl (by decide)))
    ⟨trivial, fun h => by simp at h⟩ DisjointCall
  have hfree₂ : s₂.heap 2 = none := (hsame₂ 2 (by decide) (by decide)).trans (hfree₁ 2 (by decide))
  refine ⟨s₂, .snoc (.snoc .nil ?_ hret₁) ?_ hret₂, ?_, ?_⟩
  · exact ⟨goodCall_key rfl, rfl, by decide, by simp⟩
  · exact ⟨goodCall_key (hfree₁ 1 (by simp)), rfl, by decide, by simp; decide⟩
  · exact ⟨goodCall_key hfree₂, rfl, by decide, by simp; decide⟩
  · refine not_returns_of_error (e := .undef) (k := 3) fun fuel hfuel => ?_
    obtain ⟨fuel, rfl⟩ : ∃ f, fuel = f + 3 := ⟨fuel - 3, by omega⟩
    simp only [avlMachine, StateT.run_bind, StateT.run_get, pure_eq_ok, ok_bind, ht₂.root]
    show (insertAvlEntry 20 20 [] 0 (some 2) (fuel + 3) (some 0) .root).run s₂ = _
    exact insert_faults (m := 2) (d := .left) (k := 1) (n := 0) (by decide) (Int.le_refl 0)
      (Int.natCast_nonneg _) ht₂.layout rfl (by decide) (by decide) (by decide) (by decide) (by decide)
      (by decide) (by decide) fuel .root

end StructLib.Avl
