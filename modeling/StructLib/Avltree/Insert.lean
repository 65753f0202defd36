import StructLib.Avltree.Layout

set_option autoImplicit false

/-! # Insertion into an AVL tree

Where the rotations it needs are ones that the code gets right (`SoundPath`), `InsertAvlEntry` is
the textbook insertion `BinTree.avlInsert` on the tree in memory (`run_insertAvlEntry`). -/

namespace StructLib.Avl

open BinTree

/-- On which side of a range the new one, which ends at `maxKey`, goes. -/
def keySide (maxKey : UInt32) (x : Payload) : Dir := if maxKey < x.minKey then .left else .right

/-- What a new node holds. -/
def newPayload (minKey maxKey : UInt32) (data : List UInt8) : Payload :=
  { minKey, maxKey, balanceFactor := 0, dataLen := 0, data }

/-- A range that is not empty and has no key in common with the new one. -/
def Apart (minKey maxKey : UInt32) (x : Payload) : Prop :=
  x.minKey ≤ x.maxKey ∧ (maxKey < x.minKey ∨ x.maxKey < minKey)

instance (minKey maxKey : UInt32) (x : Payload) : Decidable (Apart minKey maxKey x) :=
  inferInstanceAs (Decidable (_ ∧ _))

/-- The side on which the key lies of the data at the root. -/
def rootSide (side : Payload → Dir) : Tree → Option Dir
  | nil => none
  | node _ _ v _ => some (side v.1)

/-- The insertion needs no rotation, or one that the code gets right: at a node whose left subtree
    grows too deep, the path goes left twice; at a node whose right subtree grows too deep, the path
    goes right twice and there is no left subtree. -/
def SoundPath (side : Payload → Dir) : Tree → Prop
  | nil => True
  | node l _ v r =>
      match side v.1 with
      | .left =>
          SoundPath side l ∧ (l.depth = r.depth + 1 → Grows side l → rootSide side l = some .left)
      | .right =>
          SoundPath side r ∧
            (r.depth = l.depth + 1 → Grows side r → rootSide side r = some .right ∧ l = nil)

section Keys

variable {minKey maxKey : UInt32} {x : Payload} {l r p : Ptr} {d : Dir}

theorem Apart.not_overlaps {v : Payload × ℤ} (h : Apart minKey maxKey v.1)
    (hle : minKey ≤ maxKey) : ¬ (avlLayout.cellOf d v l r p).Overlaps minKey maxKey := by
  simp only [Apart, AvlEntry.Overlaps, avlCellOf_minKey, avlCellOf_maxKey] at h ⊢
  grind

/-- The code chooses a rotation by comparing the lower ends. -/
theorem Apart.keyBeyond_iff (h : Apart minKey maxKey x) (hle : minKey ≤ maxKey) :
    keyBeyond d minKey x.minKey = true ↔ keySide maxKey x = d := by
  cases d <;> simp only [Apart, keySide, keyBeyond, decide_eq_true_eq] at h ⊢ <;> grind

end Keys

/-! ## One level of the recursion -/

/-- The result `t` of an insertion is passed on through `slot`. -/
def passOn (t : Tree) (slot : Slot) : Exec AvlMem ℤ := do
  slot.write t.root
  return 0

section Level

variable {s : AvlMem} {p q : Ptr} {a b : Tree} {n : ℕ} {v : Payload × ℤ} {d : Dir}
  {minKey maxKey : UInt32}

/-- The height is computed again at the root of the result. -/
theorem run_insertDone_node {l r : Tree} (hd : (node l n v r).Distinct)
    (ht : avlLayout.TreeAt s.heap p (node l n v r)) (hl : l.Measured) (hr : r.Measured) :
    ∃ h, (∀ slot, (insertDone (some n) slot).run s =
        (passOn (join l n v.1 r) slot).run { s with heap := h }) ∧
      avlLayout.TreeAt h p (join l n v.1 r) ∧ ∀ x, x ≠ n → h x = s.heap x := by
  obtain ⟨hn, htl, htr⟩ := ht
  obtain ⟨hnl, hnr, -⟩ := distinct_node.1 hd
  rw [avlLayout_cell] at hn
  refine ⟨Function.update s.heap n
    (some (avlCell v.1 (max l.depth r.depth : ℕ) l.root r.root p)), ?_, ⟨?_, ?_, ?_⟩, ?_⟩
  · intro slot
    simp only [insertDone, passOn, StateT.run_bind]
    rw [run_heightOfChildren hn htl htr hl hr]
    simp [run_setHeight, atEntry, hn, join]
  · simp
  · simpa [hnl] using htl
  · simpa [hnr] using htr
  · intro x hx
    simp [hx]

theorem run_insertDone (hd : (mk d a n v b).Distinct)
    (ht : avlLayout.TreeAt s.heap p (mk d a n v b)) (ha : a.Measured) (hb : b.Measured) :
    ∃ h, (∀ slot, (insertDone (some n) slot).run s =
        (passOn (joinMk d a n v.1 b) slot).run { s with heap := h }) ∧
      avlLayout.TreeAt h p (joinMk d a n v.1 b) ∧ ∀ x, x ≠ n → h x = s.heap x := by
  cases d
  · exact run_insertDone_node hd ht ha hb
  · rw [joinMk_right]
    exact run_insertDone_node hd ht hb ha

/-- A rotation that the code gets right. -/
theorem run_rotateOuter {a₁ a₂ : Tree} {m : ℕ} {y : Payload × ℤ}
    (hd : (mk d (mk d a₁ m y a₂) n v b).Distinct)
    (ht : avlLayout.TreeAt s.heap p (mk d (mk d a₁ m y a₂) n v b))
    (h₁ : a₁.Measured) (h₂ : a₂.Measured) (hb : b.Measured)
    (hright : d = .right → a₂ = nil ∧ b = nil) :
    ∃ h, (rotateOuter d (some n)).run s = .ok (some m, { s with heap := h }) ∧
      avlLayout.TreeAt h p (joinMk d a₁ m y.1 (joinMk d a₂ n v.1 b)) ∧
      ∀ x, x ∉ mk d (mk d a₁ m y a₂) n v b → h x = s.heap x := by
  cases d
  · exact run_llRotate hd ht h₁ h₂ hb
  · obtain ⟨rfl, rfl⟩ := hright rfl
    rw [joinMk_right, joinMk_right]
    exact run_rrRotate hd ht h₁

/-- `rebalanceSide` up to the test for an imbalance. -/
theorem run_rebalanceSide (minKey : UInt32) (hd : (mk d a n v b).Distinct)
    (hn : s.heap n = some (avlLayout.cellOf d v a.root b.root p))
    (hta : avlLayout.TreeAt s.heap q a) (htb : avlLayout.TreeAt s.heap (some n) b)
    (ha : a.Measured) (hb : b.Measured) (hne : a ≠ nil) :
    ∃ h, avlLayout.TreeAt h p (mk d a n v b) ∧ (∀ x, x ∉ a → h x = s.heap x) ∧
      (rebalanceSide d (some n) minKey).run s = (do
        if a.depth = b.depth + 2 then
          if keyBeyond d minKey (← load a.root).minKey then rotateOuter d (some n)
          else rotateInner d (some n)
        else
          return some n : Exec AvlMem Ptr).run { s with heap := h } := by
  obtain ⟨hna, hnb, hda, -, hab⟩ := distinct_mk.1 hd
  have hn' := (avlLayout.reparent_of_not_mem (q := some n) (h := s.heap) hna).trans hn
  have hta' := avlLayout.treeAt_reparent_self (q := some n) hda hta
  have htb' : avlLayout.TreeAt (avlLayout.reparent a (some n) s.heap) (some n) b :=
    (avlLayout.treeAt_reparent hab).2 htb
  refine ⟨avlLayout.reparent a (some n) s.heap, avlLayout.treeAt_mk.2 ⟨hn', hta', htb'⟩,
    fun x hx => avlLayout.reparent_of_not_mem hx, ?_⟩
  simp only [rebalanceSide, StateT.run_bind, run_load, atEntry, hn, ok_bind, avlCellOf_child]
  rw [run_setParent_root hne hta]
  simp only [ok_bind, hn', avlCellOf_child]
  rw [run_getHeight hta' ha]
  simp only [ok_bind, hn', avlCellOf_child_flip]
  rw [run_getHeight htb' hb]
  simp only [ok_bind]
  by_cases hrot : a.depth = b.depth + 2
  · rw [if_pos hrot, if_pos (by omega)]
    simp [StateT.run_bind, run_load, atEntry, hn']
  · rw [if_neg hrot, if_neg (by omega)]

/-- The way back up through `n`, whose subtree on the side `d` is now `a`, with its parent link
    still as it was. -/
theorem run_backUp (minKey : UInt32) (hd : (mk d a n v b).Distinct)
    (hn : s.heap n = some (avlLayout.cellOf d v a.root b.root p))
    (hta : avlLayout.TreeAt s.heap q a) (htb : avlLayout.TreeAt s.heap (some n) b)
    (ha : a.Measured) (hb : b.Measured) (hne : a ≠ nil)
    (hrot : a.depth = b.depth + 2 → ∃ a₁ m y a₂, a = joinMk d a₁ m y a₂ ∧
      keySide maxKey y = d ∧ keyBeyond d minKey y.minKey = true ∧
      (d = .right → a₂ = nil ∧ b = nil)) :
    ∃ h, (∀ slot, (do insertDone (← rebalanceSide d (some n) minKey) slot).run s =
        (passOn (rebalance (keySide maxKey) d a n v.1 b) slot).run { s with heap := h }) ∧
      avlLayout.TreeAt h p (rebalance (keySide maxKey) d a n v.1 b) ∧
      ∀ x, x ∉ mk d a n v b → h x = s.heap x := by
  obtain ⟨h₁, ht, hsame₁, hrun⟩ := run_rebalanceSide minKey hd hn hta htb ha hb hne
  unfold rebalance
  by_cases hdeep : a.depth = b.depth + 2
  · obtain ⟨a₁, m, y, a₂, rfl, hside, hkey, hright⟩ := hrot hdeep
    obtain ⟨hm₁, hm₂⟩ := measured_joinMk.1 ha
    rw [if_pos hdeep, joinMk, rotate_outer hside]
    obtain ⟨h₂, hrot₂, ht₂, hsame₂⟩ :=
      run_rotateOuter (s := { s with heap := h₁ }) (y := (y, _)) hd ht hm₁ hm₂ hb hright
    have hd₂ : (joinMk d a₁ m y (joinMk d a₂ n v.1 b)).Distinct := by
      simp only [joinMk, distinct_mk, mem_mk] at hd ⊢
      grind
    obtain ⟨h₃, hdone, ht₃, hsame₃⟩ := run_insertDone (s := { s with heap := h₂ }) (v := (y, _))
      hd₂ ht₂ hm₁ (measured_joinMk.2 ⟨hm₂, hb⟩)
    refine ⟨h₃, fun slot => ?_, ht₃, fun x hx => ?_⟩
    · obtain ⟨hm, -⟩ := avlLayout.treeAt_mk.1 (avlLayout.treeAt_mk.1 ht).2.1
      rw [← hdone]
      refine Exec.run_bind_of_ok (hrun.trans ?_) _
      simp only [if_pos hdeep, root_joinMk, StateT.run_bind, run_load, atEntry, hm, ok_bind,
        avlCellOf_minKey, if_pos hkey, hrot₂]
    · have hxm : x ≠ m := by
        rintro rfl
        simp at hx
      have hxa : x ∉ joinMk d a₁ m y a₂ := fun h => hx (mem_mk.2 (.inr (.inl h)))
      rw [hsame₃ x hxm]
      exact (hsame₂ x hx).trans (hsame₁ x hxa)
  · obtain ⟨h₂, hdone, ht₂, hsame₂⟩ :=
      run_insertDone (s := { s with heap := h₁ }) hd ht ha hb
    rw [if_neg hdeep]
    refine ⟨h₂, fun slot => ?_, ht₂, fun x hx => ?_⟩
    · rw [← hdone]
      refine Exec.run_bind_of_ok (hrun.trans ?_) _
      rw [if_neg hdeep]
      rfl
    · have hxn : x ≠ n := by
        rintro rfl
        simp at hx
      exact (hsame₂ x hxn).trans (hsame₁ x fun h => hx (by simp [h]))

end Level

/-! ## The recursion -/

section Insert

variable {s : AvlMem} {p : Ptr} {t : Tree} {m : ℕ} {minKey maxKey : UInt32} {data : List UInt8}
  {dataLen : ℤ}

theorem soundPath_mk {side : Payload → Dir} {d : Dir} {a b : Tree} {n : ℕ} {v : Payload × ℤ}
    (h : side v.1 = d) : SoundPath side (mk d a n v b) ↔ SoundPath side a ∧
      (a.depth = b.depth + 1 → Grows side a →
        rootSide side a = some d ∧ (d = .right → b = nil)) := by
  cases d <;> simp [mk, SoundPath, h]

/-- Started at `t` with the parent `p`, the code does what the textbook insertion of `e` does, and
    passes the result on through the slot. A new leaf is not linked to its parent yet. -/
def Inserts (minKey maxKey : UInt32) (data : List UInt8) (dataLen : ℤ) (m : ℕ) (e : Payload)
    (s : AvlMem) (p : Ptr) (t : Tree) : Prop :=
  ∃ h, avlLayout.TreeAt h (if t = nil then none else p) (avlInsert (keySide maxKey) m e t) ∧
    (∀ x, x ∉ t → x ≠ m → h x = s.heap x) ∧
    ∀ fuel slot, t.depth < fuel →
      (insertAvlEntry minKey maxKey data dataLen (some m) fuel t.root slot).run s =
        (passOn (avlInsert (keySide maxKey) m e t) slot).run { s with heap := h }

theorem inserts_nil (hlen : 0 ≤ dataLen) (hdata : dataLen ≤ data.length) :
    Inserts minKey maxKey data dataLen m
      (newPayload minKey maxKey (data.take dataLen.toNat)) s p nil := by
  generalize he : newPayload minKey maxKey (data.take dataLen.toNat) = e
  have hnew : newEntry minKey maxKey (data.take dataLen.toNat) = avlCell e 0 none none none := by
    rw [← he]
    rfl
  have halloc : (allocEntry minKey maxKey data dataLen m).run s = .ok ((),
      { s with heap := Function.update s.heap m (some (avlCell e 0 none none none)) }) := by
    unfold allocEntry
    rw [if_neg (by omega), hnew]
    rfl
  refine ⟨Function.update s.heap m (some (avlCell e 0 none none none)), ?_, ?_, ?_⟩
  · simp [avlInsert, join]
  · intro x _ hx
    exact Function.update_of_ne hx ..
  · intro fuel slot hfuel
    obtain ⟨fuel, rfl⟩ : ∃ f, fuel = f + 1 := ⟨fuel - 1, by omega⟩
    simp [insertAvlEntry, insertDone, passOn, StateT.run_bind, halloc, heightOfChildren, getHeight,
      run_load, run_setHeight, atEntry, avlInsert, join]

variable {d : Dir} {a b : Tree} {n : ℕ} {v : Payload × ℤ} {e : Payload}

/-- One level of the descent: the subtree on the side `d` has become `a'`. -/
theorem run_insertAvlEntry_node {h₁ : Cells AvlEntry} {a' : Tree} {fuel : ℕ}
    (hle : minKey ≤ maxKey) (hn : s.heap n = some (avlLayout.cellOf d v a.root b.root p))
    (hapart : Apart minKey maxKey v.1) (hside : keySide maxKey v.1 = d) (hn₁ : h₁ n = s.heap n)
    (hrun₁ : (insertAvlEntry minKey maxKey data dataLen (some m) fuel a.root
      (.child (some n) d)).run s = (passOn a' (.child (some n) d)).run { s with heap := h₁ })
    (slot : Slot) :
    (insertAvlEntry minKey maxKey data dataLen (some m) (fuel + 1) (some n) slot).run s =
      (do insertDone (← rebalanceSide d (some n) minKey) slot).run { s with
        heap := Function.update h₁ n (some (avlLayout.cellOf d v a'.root b.root p)) } := by
  have hdir : (if maxKey < v.1.minKey then Dir.left else .right) = d := hside
  rw [insertAvlEntry]
  simp only [Option.isNone_some, Bool.false_eq_true, if_false, StateT.run_bind, run_load, atEntry,
    hn, ok_bind, if_neg (hapart.not_overlaps hle), avlCellOf_minKey, hdir, avlCellOf_child, hrun₁,
    passOn, Slot.write, run_setChild, hn₁, avlCellOf_setChild, StateT.run_pure, pure_eq_ok, ne_eq,
    not_true_eq_false]

/-- An insertion into the subtree on the side `d` makes one into the whole tree. -/
theorem Inserts.up (hle : minKey ≤ maxKey) (ht : avlLayout.TreeAt s.heap p (mk d a n v b))
    (hd : (mk d a n v b).Distinct) (hmeas : (mk d a n v b).Measured)
    (hbal : (mk d a n v b).Balanced) (hsound : SoundPath (keySide maxKey) (mk d a n v b))
    (hapart : ∀ x ∈ (mk d a n v b).records, Apart minKey maxKey x.2) (hm : m ∉ mk d a n v b)
    (hside : keySide maxKey v.1 = d)
    (h : Inserts minKey maxKey data dataLen m e s (some n) a) :
    Inserts minKey maxKey data dataLen m e s p (mk d a n v b) := by
  obtain ⟨hn, hta, htb⟩ := avlLayout.treeAt_mk.1 ht
  obtain ⟨hna, hnb, hda, hdb, hab⟩ := distinct_mk.1 hd
  obtain ⟨-, hma, hmb⟩ := measured_mk.1 hmeas
  obtain ⟨hab', hba', hbala, -⟩ := balanced_mk.1 hbal
  obtain ⟨h₁, hta', hsame₁, hrun₁⟩ := h
  have hne : avlInsert (keySide maxKey) m e a ≠ nil := fun heq => by
    have hmem : m ∈ avlInsert (keySide maxKey) m e a := mem_avlInsert.2 (.inl rfl)
    simp [heq] at hmem
  have hd' : (mk d (avlInsert (keySide maxKey) m e a) n v b).Distinct := by
    simp only [distinct_mk, mem_avlInsert, mem_mk, not_or] at hd hm ⊢
    exact ⟨⟨fun h => hm.1 h.symm, hna⟩, hnb, distinct_avlInsert hm.2.1 hda, hdb, fun x hx => hx.elim
      (fun h => h ▸ hm.2.2) (hab x)⟩
  -- a rotation is needed only where the subtree has grown
  have hrot : (avlInsert (keySide maxKey) m e a).depth = b.depth + 2 → ∃ a₁ k y a₂,
      avlInsert (keySide maxKey) m e a = joinMk d a₁ k y a₂ ∧ keySide maxKey y = d ∧
        keyBeyond d minKey y.minKey = true ∧ (d = .right → a₂ = nil ∧ b = nil) := by
    intro hdeep
    obtain ⟨-, ⟨-, hdepth⟩ | ⟨hgrows, hdepth, hroot⟩⟩ :=
      grown_avlInsert (keySide maxKey) m e hbala
    · omega
    obtain ⟨hrs, hright⟩ := ((soundPath_mk hside).1 hsound).2 (by omega) hgrows
    cases a with
    | nil => simp [rootSide] at hrs
    | node l k u r =>
        have hu : keySide maxKey u.1 = d := by simpa [rootSide] using hrs
        obtain ⟨a₁, heq, ha₁⟩ := hroot d _ k u _ (node_eq_mk d l k u r) hu
        refine ⟨a₁, k, u.1, _, heq, hu, ?_, fun hdr => ?_⟩
        · exact ((hapart (k, u.1) (by cases d <;> simp [mk])).keyBeyond_iff hle).2 hu
        · obtain rfl := hright hdr
          rw [heq, depth_joinMk, ha₁] at hdeep
          exact ⟨depth_eq_zero.1 (by simp only [depth_nil] at hdeep; omega), rfl⟩
  obtain ⟨hmn, hma', hmb'⟩ : m ≠ n ∧ m ∉ a ∧ m ∉ b := by simpa using hm
  have hn₁ : h₁ n = s.heap n := hsame₁ n hna hmn.symm
  have hna' : n ∉ avlInsert (keySide maxKey) m e a := (distinct_mk.1 hd').1
  obtain ⟨h₂, hrun₂, ht₂, hsame₂⟩ := run_backUp minKey hd'
    (s := { s with heap := Function.update h₁ n (some (avlLayout.cellOf d v
      (avlInsert (keySide maxKey) m e a).root b.root p)) }) (Function.update_self ..)
    ((avlLayout.treeAt_update hna').2 hta')
    ((avlLayout.treeAt_update hnb).2 (avlLayout.treeAt_congr htb fun x hx =>
      hsame₁ x (fun hxa => hab x hxa hx) (by rintro rfl; exact hmb' hx)))
    (measured_avlInsert hma) hmb hne hrot
  have hnil : mk d a n v b ≠ nil := fun h => by simpa using congrArg root h
  rw [Inserts, if_neg hnil, avlInsert_mk hside]
  refine ⟨h₂, ht₂, fun x hx hxm => ?_, fun fuel slot hfuel => ?_⟩
  · obtain ⟨hxn, hxa, hxb⟩ : x ≠ n ∧ x ∉ a ∧ x ∉ b := by simpa using hx
    rw [hsame₂ x (by simp [mem_avlInsert, hxn, hxa, hxb, hxm])]
    exact (Function.update_of_ne hxn ..).trans (hsame₁ x hxa hxm)
  · obtain ⟨fuel, rfl⟩ : ∃ f, fuel = f + 1 := ⟨fuel - 1, by omega⟩
    have hdepth : a.depth < fuel := by
      rw [depth_mk] at hfuel
      omega
    rw [← hrun₂ slot, root_mk]
    exact run_insertAvlEntry_node hle hn (hapart (n, v.1) (by cases d <;> simp [mk])) hside hn₁
      (hrun₁ fuel _ hdepth) slot

/-- **`InsertAvlEntry` is the textbook insertion** where every rotation it needs is one the code
    gets right. -/
theorem inserts (hle : minKey ≤ maxKey) (hlen : 0 ≤ dataLen)
    (hdata : dataLen ≤ data.length)
    (ht : avlLayout.TreeAt s.heap p t) (hd : t.Distinct) (hmeas : t.Measured) (hbal : t.Balanced)
    (hsound : SoundPath (keySide maxKey) t)
    (hapart : ∀ e ∈ t.records, Apart minKey maxKey e.2) (hm : m ∉ t) :
    Inserts minKey maxKey data dataLen m
      (newPayload minKey maxKey (data.take dataLen.toNat)) s p t := by
  induction t using path_induction (fun v : Payload × ℤ => keySide maxKey v.1) generalizing p with
  | nil => exact inserts_nil hlen hdata
  | step d a n v b hside ih =>
      obtain ⟨-, hta, -⟩ := avlLayout.treeAt_mk.1 ht
      obtain ⟨-, -, hda, -⟩ := distinct_mk.1 hd
      obtain ⟨-, hma, -⟩ := measured_mk.1 hmeas
      obtain ⟨-, -, hba, -⟩ := balanced_mk.1 hbal
      obtain ⟨hsa, -⟩ := (soundPath_mk hside).1 hsound
      exact Inserts.up hle ht hd hmeas hbal hsound hapart hm hside
        (ih hta hda hma hba hsa (fun x hx => hapart x (mem_records_mk.2 (.inl hx)))
          fun hm' => hm (mem_mk.2 (.inr (.inl hm'))))

/-- Both halves of a double rotation start at the unbalanced node, and the first one follows its
    child on the side that has not grown. -/
theorem run_rotateInner_nil (ht : avlLayout.TreeAt s.heap p (mk d a n v nil)) :
    (rotateInner d (some n)).run s = .error .undef := by
  have hn := (avlLayout.treeAt_mk.1 ht).1
  cases d <;>
    simp [rotateInner, lrRotate, rlRotate, rrRotate, llRotate, StateT.run_bind, hn, Layout.cellOf,
      setParent, modifyEntry, load]

/-- Below a node whose only child is a leaf, on the side `d`, the path bends: the call follows a
    NULL pointer. -/
theorem insert_faults {k : ℕ} {u : Payload × ℤ} (hle : minKey ≤ maxKey) (hlen : 0 ≤ dataLen)
    (hdata : dataLen ≤ data.length)
    (ht : avlLayout.TreeAt s.heap p (mk d (node nil k u nil) n v nil)) (hu : u.2 = 0)
    (hnk : n ≠ k) (hmn : m ≠ n) (hmk : m ≠ k) (hvapart : Apart minKey maxKey v.1)
    (huapart : Apart minKey maxKey u.1) (hside : keySide maxKey v.1 = d)
    (hbend : keySide maxKey u.1 = d.flip) (fuel : ℕ) (slot : Slot) :
    (insertAvlEntry minKey maxKey data dataLen (some m) (fuel + 3) (some n) slot).run s =
      .error .undef := by
  obtain ⟨hn, hleaf, -⟩ := avlLayout.treeAt_mk.1 ht
  have hmk' : (node nil k u nil : Tree) = mk d.flip nil k u nil := by cases d <;> rfl
  have hsound : SoundPath (keySide maxKey) (node nil k u nil) := by
    rw [hmk', soundPath_mk hbend]
    simp [SoundPath]
  obtain ⟨h₁, ht₁, hsame₁, hrun₁⟩ := inserts (m := m) hle hlen hdata hleaf (by simp)
    (by simp [BinTree.Measured, hu]) (by simp [BinTree.Balanced]) hsound (by simpa using huapart)
    (by simp [hmk])
  generalize newPayload minKey maxKey (data.take dataLen.toNat) = e at *
  have heq : avlInsert (keySide maxKey) m e (node nil k u nil) =
      joinMk d.flip (join nil m e nil) k u.1 nil := by
    rw [hmk', avlInsert_mk hbend]
    simp [rebalance, avlInsert, join]
  rw [heq] at ht₁ hrun₁
  have hn₁ : h₁ n = s.heap n := hsame₁ n (by simp [hnk]) hmn.symm
  have hna : n ∉ joinMk d.flip (join nil m e nil) k u.1 nil := by
    simp [joinMk, join, hnk, hmn.symm]
  have hkey : ¬ keyBeyond d minKey u.1.minKey = true := by
    rw [huapart.keyBeyond_iff hle, hbend]
    cases d <;> simp
  rw [run_insertAvlEntry_node hle hn hvapart hside hn₁ (hrun₁ (fuel + 2) _ (by simp)) slot]
  obtain ⟨h₂, ht₂, -, hrun₂⟩ := run_rebalanceSide minKey (b := nil)
    (s := { s with heap := Function.update h₁ n (some (avlLayout.cellOf d v
      (joinMk d.flip (join nil m e nil) k u.1 nil).root (nil : Tree).root p)) })
    (by simp [joinMk, join, hnk, hmn.symm, hmk.symm]) (Function.update_self ..)
      ((avlLayout.treeAt_update hna).2 ht₁) trivial
    (by simp [join, BinTree.Measured]) trivial (fun h => by simpa using congrArg root h)
  obtain ⟨hk, -⟩ := avlLayout.treeAt_mk.1 (avlLayout.treeAt_mk.1 ht₂).2.1
  have hfault := run_rotateInner_nil (s := ⟨h₂, s.newRoot⟩) ht₂
  rw [root_joinMk] at hrun₂ ⊢
  rw [StateT.run_bind, hrun₂, if_pos (by simp [join])]
  simp only [StateT.run_bind, run_load, atEntry, hk, ok_bind, avlCellOf_minKey, if_neg hkey, hfault,
    error_bind]

end Insert

end StructLib.Avl
