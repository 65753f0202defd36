import StructLib.Hashtable.Model

set_option autoImplicit false

/-! # Hash tables in memory

`Rings` says how a sequence of entries hangs in `FastList` and in the buckets, `Table` how such a
table lies in memory. Linking an entry in and unlinking it are `Links.insertAfter` and
`Links.remove` on two rings each, and leave the `BrotherEntry` links alone (`SameBrothers`). -/

namespace StructLib.Hash

open Links

/-- An entry of the table: its block, its id and its bytes. -/
structure Item where
  block : ℕ
  id : UInt32
  data : List UInt8
  deriving DecidableEq, Repr

/-- `&entry->Entry`, which is the entry's address. -/
def Item.mainLink (x : Item) : Ptr := .entry x.block 0

/-- `&entry->FastEntry`. -/
def Item.fastLink (x : Item) : Ptr := .entry x.block 1

/-- The index of the bucket, of `N`. -/
def Item.burket (N : ℕ) (x : Item) : ℕ := x.id.toNat % N

@[simp] theorem plus_entry (n off k : ℕ) : (Ptr.entry n off).plus k = .entry n (off + k) := rfl

/-! ## The rings -/

/-- The entries `l` are in `FastList` in this order, and each is in its bucket, in the same order.
    -/
structure Rings (k : Links Ptr) (N : ℕ) (l : List Item) : Prop where
  fast : k.Ring .fastList (l.map Item.fastLink)
  burket : ∀ i < N, k.Ring (.burket i) ((l.filter (·.burket N = i)).map Item.mainLink)

section Rings

variable {k k' : Links Ptr} {N i j : ℕ} {l pre post : List Item} {x : Item}

@[simp] theorem mainLink_eq (x : Item) : x.mainLink = .entry x.block 0 := rfl

@[simp] theorem fastLink_eq (x : Item) : x.fastLink = .entry x.block 1 := rfl

theorem Rings.blocks_nodup (h : Rings k N l) : (l.map Item.block).Nodup := by
  have hmap : l.map Item.fastLink = (l.map Item.block).map fun n => Ptr.entry n 1 := by simp
  exact (hmap ▸ (List.nodup_cons.1 h.fast.nodup).2).of_map _

theorem Rings.block_ne (h : Rings k N (pre ++ x :: post)) :
    ∀ y ∈ pre ++ post, y.block ≠ x.block := by
  intro y hy heq
  have hnodup : (x :: (pre ++ post)).map Item.block |>.Nodup :=
    (List.perm_middle.map Item.block).nodup_iff.1 h.blocks_nodup
  exact (List.nodup_cons.1 hnodup).1 (heq ▸ List.mem_map_of_mem hy)

theorem disjoint_burket_fast (l l' : List Item) : (Ptr.burket i :: l.map Item.mainLink).Disjoint
    (Ptr.fastList :: l'.map Item.fastLink) := by
  intro p h h'
  simp only [List.mem_cons, List.mem_map, mainLink_eq, fastLink_eq] at h h'
  rcases h with rfl | ⟨x, -, rfl⟩
  · simp at h'
  · simp at h'

theorem disjoint_fast_burket (l l' : List Item) : (Ptr.fastList :: l.map Item.fastLink).Disjoint
    (Ptr.burket i :: l'.map Item.mainLink) :=
  fun _ h h' => disjoint_burket_fast l' l h' h

/-- Different buckets share no location. -/
theorem Rings.disjoint_burkets (h : Rings k N l) (hij : i ≠ j) :
    (Ptr.burket i :: (l.filter (·.burket N = i)).map Item.mainLink).Disjoint
      (Ptr.burket j :: (l.filter (·.burket N = j)).map Item.mainLink) := by
  intro p hi hj
  simp only [List.mem_cons, List.mem_map, List.mem_filter, decide_eq_true_eq, mainLink_eq] at hi hj
  rcases hi with rfl | ⟨x, ⟨hx, hxi⟩, rfl⟩
  · rcases hj with hj | ⟨y, -, hj⟩
    · exact hij (by simpa using hj)
    · simp at hj
  · rcases hj with hj | ⟨y, ⟨hy, hyj⟩, hj⟩
    · simp at hj
    · obtain rfl : y = x := List.inj_on_of_nodup_map h.blocks_nodup hy hx (by simpa using hj)
      exact hij (hxi.symm.trans hyj)

/-- The rings depend on the links of the list heads and of two fields of the entries. -/
theorem Rings.congr (h : Rings k N l) (hhead : ∀ p, (p = .fastList ∨ ∃ i, p = .burket i) →
      k'.next p = k.next p ∧ k'.prev p = k.prev p)
    (hentry : ∀ x ∈ l, ∀ off < 2, k'.next (.entry x.block off) = k.next (.entry x.block off) ∧
      k'.prev (.entry x.block off) = k.prev (.entry x.block off)) : Rings k' N l := by
  have hfast : ∀ p ∈ Ptr.fastList :: l.map Item.fastLink,
      k'.next p = k.next p ∧ k'.prev p = k.prev p := by
    intro p hp
    rcases List.mem_cons.1 hp with rfl | hp
    · exact hhead _ (.inl rfl)
    · obtain ⟨x, hx, rfl⟩ := List.mem_map.1 hp
      exact hentry x hx 1 (by decide)
  have hburket : ∀ i, ∀ p ∈ Ptr.burket i :: (l.filter (·.burket N = i)).map Item.mainLink,
      k'.next p = k.next p ∧ k'.prev p = k.prev p := by
    intro i p hp
    rcases List.mem_cons.1 hp with rfl | hp
    · exact hhead _ (.inr ⟨i, rfl⟩)
    · obtain ⟨x, hx, rfl⟩ := List.mem_map.1 hp
      exact hentry x (List.mem_of_mem_filter hx) 0 (by decide)
  exact ⟨h.fast.congr (fun p hp => (hfast p hp).1) fun p hp => (hfast p hp).2, fun i hi =>
    (h.burket i hi).congr (fun p hp => (hburket i p hp).1) fun p hp => (hburket i p hp).2⟩

/-- A new entry goes to the front of its bucket and of `FastList`. -/
theorem Rings.insert (h : Rings k N l) (hN : 0 < N) (hx : x.block ∉ l.map Item.block) :
    Rings ((k.insertAfter (.burket (x.burket N)) x.mainLink).insertAfter .fastList x.fastLink) N
      (x :: l) := by
  have hlt : x.burket N < N := Nat.mod_lt _ hN
  have hmain : ∀ i, x.mainLink ∉ Ptr.burket i :: (l.filter (·.burket N = i)).map Item.mainLink := by
    intro i hmem
    simp only [List.mem_cons, List.mem_map, mainLink_eq] at hmem
    rcases hmem with hmem | ⟨y, hy, hmem⟩
    · simp at hmem
    · exact hx (List.mem_map.2 ⟨y, List.mem_of_mem_filter hy, by simpa using hmem⟩)
  have hfast : x.fastLink ∉ Ptr.fastList :: l.map Item.fastLink := by
    intro hmem
    simp only [List.mem_cons, List.mem_map, fastLink_eq] at hmem
    rcases hmem with hmem | ⟨y, hy, hmem⟩
    · simp at hmem
    · exact hx (List.mem_map.2 ⟨y, hy, by simpa using hmem⟩)
  have h₁ := (h.burket _ hlt).insertAfter_other h.fast (disjoint_burket_fast ..) (x := x.mainLink)
    (by simp)
  refine ⟨by simpa using h₁.insertAfter hfast, fun i hi => ?_⟩
  by_cases hix : x.burket N = i
  · subst hix
    have hring := (h.burket _ hlt).insertAfter (hmain _)
    have hdis := disjoint_fast_burket (i := x.burket N) l (x :: l.filter (·.burket N = x.burket N))
    simpa using h₁.insertAfter_other hring hdis (by simp)
  · have hring := (h.burket _ hlt).insertAfter_other (h.burket i hi) (h.disjoint_burkets hix) (hmain i)
    simpa [hix] using h₁.insertAfter_other hring (disjoint_fast_burket ..) (by simp)

/-- An entry leaves its bucket and `FastList`. -/
theorem Rings.remove (h : Rings k N (pre ++ x :: post)) (hN : 0 < N) :
    Rings ((k.remove x.mainLink).remove x.fastLink) N (pre ++ post) := by
  have hlt : x.burket N < N := Nat.mod_lt _ hN
  have hx := h.burket _ hlt
  have hmem : x.mainLink ∈ Ptr.burket (x.burket N) ::
      ((pre ++ x :: post).filter (·.burket N = x.burket N)).map Item.mainLink := by simp
  have h₁ := hx.remove_other h.fast (disjoint_burket_fast ..) hmem
  have hfmem : x.fastLink ∈ Ptr.fastList :: (pre ++ x :: post).map Item.fastLink := by simp
  refine ⟨?_, fun i hi => ?_⟩
  · rw [List.map_append, List.map_cons] at h₁
    rw [List.map_append]
    exact h₁.remove
  · by_cases hix : x.burket N = i
    · subst hix
      rw [List.filter_append, List.filter_cons_of_pos (by simp), List.map_append, List.map_cons] at hx
      have hring := hx.remove
      rw [← List.map_append, ← List.filter_append] at hring
      exact h₁.remove_other hring (disjoint_fast_burket ..) hfmem
    · have hring := hx.remove_other (h.burket i hi) (h.disjoint_burkets hix) hmem
      rw [List.filter_append, List.filter_cons_of_neg (by simpa using hix),
        ← List.filter_append] at hring
      exact h₁.remove_other hring (disjoint_fast_burket ..) hfmem

/-- Linking a new entry in touches no links among siblings. -/
theorem Rings.insert_brother (h : Rings k N l) (hN : 0 < N) (n : ℕ) :
    let k' := (k.insertAfter (.burket (x.burket N)) x.mainLink).insertAfter .fastList x.fastLink
    k'.next (.entry n 2) = k.next (.entry n 2) ∧ k'.prev (.entry n 2) = k.prev (.entry n 2) := by
  have hlt : x.burket N < N := Nat.mod_lt _ hN
  have hring := h.burket _ hlt
  have hfast := hring.insertAfter_other h.fast (disjoint_burket_fast ..) (x := x.mainLink) (by simp)
  have h₁ := hring.insertAfter_frame (x := x.mainLink) (y := .entry n 2) (by simp) (by simp)
  have h₂ := hfast.insertAfter_frame (x := x.fastLink) (y := .entry n 2) (by simp) (by simp)
  exact ⟨h₂.1.trans h₁.1, h₂.2.trans h₁.2⟩

/-- So does unlinking one. -/
theorem Rings.remove_brother (h : Rings k N (pre ++ x :: post)) (hN : 0 < N) (n : ℕ) :
    let k' := (k.remove x.mainLink).remove x.fastLink
    k'.next (.entry n 2) = k.next (.entry n 2) ∧ k'.prev (.entry n 2) = k.prev (.entry n 2) := by
  have hlt : x.burket N < N := Nat.mod_lt _ hN
  have hring := h.burket _ hlt
  have hfast := hring.remove_other h.fast (disjoint_burket_fast ..) (x := x.mainLink) (by simp)
  have h₁ := hring.remove_frame (x := x.mainLink) (y := .entry n 2) (by simp) (by simp)
  have h₂ := hfast.remove_frame (x := x.fastLink) (y := .entry n 2) (by simp) (by simp)
  exact ⟨h₂.1.trans h₁.1, h₂.2.trans h₁.2⟩

end Rings

/-! ## Accesses -/

def Hashtable.setLink (s : Hashtable) (k : Links Ptr) : Hashtable := { s with link := k }

def Hashtable.setNode (s : Hashtable) (n : ℕ) (e : Option HashEntry) : Hashtable :=
  { s with node := Function.update s.node n e }

def Hashtable.setCount (s : Hashtable) (c : ℤ) : Hashtable := { s with numberOfNode := c }

section Setters

variable {s : Hashtable} {k k' : Links Ptr} {n m : ℕ} {e : Option HashEntry}
  {f : HashEntry → HashEntry} {c : ℤ} {p q : Ptr}

@[simp] theorem setLink_link : (s.setLink k).link = k := rfl

@[simp] theorem setLink_node : (s.setLink k).node = s.node := rfl

@[simp] theorem setLink_heads : (s.setLink k).heads = s.heads := rfl

@[simp] theorem setLink_count : (s.setLink k).numberOfNode = s.numberOfNode := rfl

@[simp] theorem setLink_burkets : (s.setLink k).numberOfBurkets = s.numberOfBurkets := rfl

@[simp] theorem setLink_setLink : (s.setLink k).setLink k' = s.setLink k' := rfl

/-- Whether a pointer is one to a `listentry_t` does not depend on the links. -/
@[simp] theorem isList_setLink : (s.setLink k).IsList p ↔ s.IsList p := by
  cases p <;> exact Iff.rfl

@[simp] theorem setNode_link : (s.setNode n e).link = s.link := rfl

@[simp] theorem setNode_node : (s.setNode n e).node = Function.update s.node n e := rfl

@[simp] theorem setNode_heads : (s.setNode n e).heads = s.heads := rfl

@[simp] theorem setNode_count : (s.setNode n e).numberOfNode = s.numberOfNode := rfl

@[simp] theorem setNode_burkets : (s.setNode n e).numberOfBurkets = s.numberOfBurkets := rfl

/-- `Child` of the entry in the block `n`. -/
def Hashtable.childOf (s : Hashtable) (n : ℕ) : Ptr :=
  ((s.node n).map HashEntry.child).getD .null

/-- `Parent` of the entry in the block `n`. -/
def Hashtable.parentOf (s : Hashtable) (n : ℕ) : Ptr :=
  ((s.node n).map HashEntry.parent).getD .null

/-- Change the entry in the block `n`. -/
def Hashtable.mapNode (s : Hashtable) (n : ℕ) (f : HashEntry → HashEntry) : Hashtable :=
  s.setNode n ((s.node n).map f)

abbrev Hashtable.withChild (s : Hashtable) (n : ℕ) (q : Ptr) : Hashtable :=
  s.mapNode n fun e => { e with child := q }

abbrev Hashtable.withParent (s : Hashtable) (n : ℕ) (q : Ptr) : Hashtable :=
  s.mapNode n fun e => { e with parent := q }

@[simp] theorem mapNode_link : (s.mapNode n f).link = s.link := rfl

@[simp] theorem mapNode_heads : (s.mapNode n f).heads = s.heads := rfl

@[simp] theorem mapNode_count : (s.mapNode n f).numberOfNode = s.numberOfNode := rfl

@[simp] theorem mapNode_burkets : (s.mapNode n f).numberOfBurkets = s.numberOfBurkets := rfl

theorem mapNode_node : (s.mapNode n f).node m = if m = n then (s.node n).map f else s.node m := by
  simp [Hashtable.mapNode, Function.update_apply]

@[simp] theorem isSome_mapNode : ((s.mapNode n f).node m).isSome = (s.node m).isSome := by
  rw [mapNode_node]
  by_cases hm : m = n
  · simp [hm]
  · simp [hm]

@[simp] theorem isList_mapNode : (s.mapNode n f).IsList p ↔ s.IsList p := by
  cases p with
  | entry m off => simp [Hashtable.IsList]
  | _ => exact Iff.rfl

@[simp] theorem childOf_setLink : (s.setLink k).childOf n = s.childOf n := rfl

@[simp] theorem parentOf_setLink : (s.setLink k).parentOf n = s.parentOf n := rfl

theorem childOf_withChild (h : (s.node n).isSome) :
    (s.withChild n q).childOf m = if m = n then q else s.childOf m := by
  obtain ⟨e, he⟩ := Option.isSome_iff_exists.1 h
  unfold Hashtable.childOf
  rw [mapNode_node]
  by_cases hm : m = n
  · simp [hm, he]
  · simp [hm]

theorem parentOf_withParent (h : (s.node n).isSome) :
    (s.withParent n q).parentOf m = if m = n then q else s.parentOf m := by
  obtain ⟨e, he⟩ := Option.isSome_iff_exists.1 h
  unfold Hashtable.parentOf
  rw [mapNode_node]
  by_cases hm : m = n
  · simp [hm, he]
  · simp [hm]

@[simp] theorem parentOf_withChild : (s.withChild n q).parentOf m = s.parentOf m := by
  unfold Hashtable.parentOf
  rw [mapNode_node]
  by_cases hm : m = n
  · simp [hm, Function.comp_def]
  · simp [hm]

@[simp] theorem childOf_withParent : (s.withParent n q).childOf m = s.childOf m := by
  unfold Hashtable.childOf
  rw [mapNode_node]
  by_cases hm : m = n
  · simp [hm, Function.comp_def]
  · simp [hm]

@[simp] theorem setCount_link : (s.setCount c).link = s.link := rfl

@[simp] theorem setCount_node : (s.setCount c).node = s.node := rfl

@[simp] theorem setCount_heads : (s.setCount c).heads = s.heads := rfl

@[simp] theorem setCount_count : (s.setCount c).numberOfNode = c := rfl

@[simp] theorem setCount_burkets : (s.setCount c).numberOfBurkets = s.numberOfBurkets := rfl

end Setters

section Access

variable {s : Hashtable} {p q : Ptr} {n : ℕ} {e : HashEntry}

theorem isList_fastList : s.IsList .fastList := trivial

theorem run_getFlink (h : s.IsList p) : (getFlink p).run s = .ok (s.link.next p, s) := by
  simp [getFlink, h]

theorem run_getBlink (h : s.IsList p) : (getBlink p).run s = .ok (s.link.prev p, s) := by
  simp [getBlink, h]

theorem run_setFlink (h : s.IsList p) : (setFlink p q).run s =
    .ok ((), s.setLink ⟨Function.update s.link.next p q, s.link.prev⟩) := by
  simp [setFlink, h, Hashtable.setLink]

theorem run_setBlink (h : s.IsList p) : (setBlink p q).run s =
    .ok ((), s.setLink ⟨s.link.next, Function.update s.link.prev p q⟩) := by
  simp [setBlink, h, Hashtable.setLink]

theorem run_loadEntry (h : s.node n = some e) : (loadEntry (.entry n 0)).run s = .ok (e, s) := by
  simp [loadEntry, Hashtable.entryAt, h]

theorem run_setChild (h : (s.node n).isSome) :
    (setChild (.entry n 0) q).run s = .ok ((), s.withChild n q) := by
  obtain ⟨e, he⟩ := Option.isSome_iff_exists.1 h
  simp [setChild, writeEntry, StateT.run_bind, run_loadEntry he, Hashtable.mapNode,
    Hashtable.setNode, he]

theorem run_setParent (h : (s.node n).isSome) :
    (setParent (.entry n 0) q).run s = .ok ((), s.withParent n q) := by
  obtain ⟨e, he⟩ := Option.isSome_iff_exists.1 h
  simp [setParent, writeEntry, StateT.run_bind, run_loadEntry he, Hashtable.mapNode,
    Hashtable.setNode, he]

theorem run_freeMemory (h : s.node n = some e) : (freeMemory (.entry n 0)).run s =
    .ok ((), s.setNode n none) := by
  simp [freeMemory, writeEntry, StateT.run_bind, run_loadEntry h, Hashtable.setNode]

theorem run_incNumberOfNode (h : s.numberOfNode < 2 ^ 31 - 1) :
    incNumberOfNode.run s = .ok ((), s.setCount (s.numberOfNode + 1)) := by
  rw [incNumberOfNode, Exec.run_get_bind, if_pos h]
  rfl

theorem run_decNumberOfNode (h : -2 ^ 31 < s.numberOfNode) :
    decNumberOfNode.run s = .ok ((), s.setCount (s.numberOfNode - 1)) := by
  rw [decNumberOfNode, Exec.run_get_bind, if_pos h]
  rfl

/-- Linking in after `p`, also when `p` is the new one itself. -/
theorem run_linkAfter (hp : s.IsList p) (hq : s.IsList q) (hn : s.IsList (s.link.next p)) :
    (linkAfter p q).run s = .ok ((), s.setLink (s.link.insertAfter p q)) := by
  have hnext : Function.update s.link.next q (s.link.next p) p = s.link.next p := by
    by_cases h : p = q
    · simp [h]
    · simp [h]
  unfold linkAfter
  rw [Exec.run_bind_of_ok (run_getFlink hp), Exec.run_bind_of_ok (run_setFlink hq)]
  rw [Exec.run_bind_of_ok (run_setBlink (by simpa using hq))]
  rw [Exec.run_bind_of_ok (run_getFlink (by simpa using hp))]
  rw [Exec.run_bind_of_ok (run_setBlink (by simpa [hnext] using hn))]
  rw [run_setFlink (by simpa using hp)]
  simp [hnext, Links.insertAfter]

/-- The insertion into a bucket makes the same assignments in another order. -/
theorem run_linkFirst (hp : s.IsList p) (hq : s.IsList q) (hn : s.IsList (s.link.next p))
    (hqn : s.link.next p ≠ q) :
    (linkFirst p q).run s = .ok ((), s.setLink (s.link.insertAfter p q)) := by
  unfold linkFirst
  rw [Exec.run_bind_of_ok (run_getFlink hp), Exec.run_bind_of_ok (run_setFlink hq)]
  rw [Exec.run_bind_of_ok (run_getFlink (by simpa using hq))]
  rw [Exec.run_bind_of_ok (run_setBlink (by simpa using hn))]
  rw [Exec.run_bind_of_ok (run_setFlink (by simpa using hp))]
  rw [run_setBlink (by simpa using hq)]
  simp [Links.insertAfter, Function.update_comm hqn]

theorem run_unlink (hp : s.IsList p) (hprev : s.IsList (s.link.prev p))
    (hnext : s.IsList (s.link.next p)) :
    (unlink p).run s = .ok ((), s.setLink (s.link.remove p)) := by
  have hflink : Function.update s.link.next (s.link.prev p) (s.link.next p) p = s.link.next p := by
    by_cases h : p = s.link.prev p
    · rw [← h, Function.update_self]
    · simp [h]
  unfold unlink
  rw [Exec.run_bind_of_ok (run_getBlink hp), Exec.run_bind_of_ok (run_getFlink hp)]
  rw [Exec.run_bind_of_ok (run_setFlink hprev)]
  rw [Exec.run_bind_of_ok (run_getFlink (by simpa using hp))]
  rw [Exec.run_bind_of_ok (run_getBlink (by simpa using hp))]
  rw [Exec.run_bind_of_ok (run_setBlink (by simpa [hflink] using hnext))]
  rw [Exec.run_bind_of_ok (run_setBlink (by simpa using hp))]
  rw [run_setFlink (by simpa using hp)]
  simp [hflink, Links.remove]

end Access

/-! ## The table -/

/-- The block of `x` holds the id and the bytes. -/
def Holds (s : Hashtable) (x : Item) : Prop :=
  ∃ e, s.node x.block = some e ∧ e.idNode = x.id ∧ e.data = x.data ∧
    e.dataSize.toNat = x.data.length

theorem Holds.mapNode {s : Hashtable} {x : Item} (h : Holds s x) (n : ℕ) {f : HashEntry → HashEntry}
    (hf : ∀ e, (f e).idNode = e.idNode ∧ (f e).data = e.data ∧ (f e).dataSize = e.dataSize) :
    Holds (s.mapNode n f) x := by
  obtain ⟨e, he, hid, hdata, hsize⟩ := h
  unfold Holds
  rw [mapNode_node]
  by_cases hn : x.block = n
  · subst hn
    obtain ⟨hid', hdata', hsize'⟩ := hf e
    refine ⟨f e, by rw [if_pos rfl, he, Option.map_some], hid'.trans hid, hdata'.trans hdata, ?_⟩
    rw [hsize', hsize]
  · exact ⟨e, by rw [if_neg hn, he], hid, hdata, hsize⟩

theorem Holds.withChild {s : Hashtable} {x : Item} (h : Holds s x) (n : ℕ) (q : Ptr) :
    Holds (s.withChild n q) x :=
  h.mapNode n fun _ => ⟨rfl, rfl, rfl⟩

theorem Holds.withParent {s : Hashtable} {x : Item} (h : Holds s x) (n : ℕ) (q : Ptr) :
    Holds (s.withParent n q) x :=
  h.mapNode n fun _ => ⟨rfl, rfl, rfl⟩

/-- A table with `N` buckets and the entries `l`, the latest first. -/
structure Table (s : Hashtable) (N : ℕ) (l : List Item) : Prop where
  pos : 0 < N
  burkets : s.numberOfBurkets.toUInt32.toNat = N
  heads : N ≤ s.heads
  count : s.numberOfNode = l.length
  rings : Rings s.link N l
  holds : ∀ x ∈ l, Holds s x
  ids : (l.map Item.id).Nodup

section Table

variable {s : Hashtable} {N i m : ℕ} {l pre post : List Item} {x : Item} {p : Ptr} {id : UInt32}

theorem eq_of_map_block {l l' : List Item} (h : ∀ x ∈ l, Holds s x) (h' : ∀ x ∈ l', Holds s x)
    (hmap : l.map Item.block = l'.map Item.block) : l = l' := by
  induction l generalizing l' with
  | nil => exact (List.map_eq_nil_iff.1 hmap.symm).symm
  | cons x l ih =>
      cases l' with
      | nil => simp at hmap
      | cons y l' =>
          obtain ⟨hxy, hrest⟩ := List.cons.inj hmap
          obtain ⟨e, he, hid, hdata, -⟩ := h x List.mem_cons_self
          obtain ⟨e', he', hid', hdata', -⟩ := h' y List.mem_cons_self
          obtain rfl : e = e' := Option.some.inj (he.symm.trans (hxy ▸ he'))
          have heq : x = y := by
            cases x
            cases y
            simp only [Item.mk.injEq]
            exact ⟨hxy, hid.symm.trans hid', hdata.symm.trans hdata'⟩
          rw [heq, ih (fun z hz => h z (List.mem_cons_of_mem x hz))
            (fun z hz => h' z (List.mem_cons_of_mem y hz)) hrest]

/-- The block a link is in. -/
def Ptr.block : Ptr → ℕ
  | .entry n _ => n
  | _ => 0

/-- The memory determines the entries. -/
theorem Table.unique {l' : List Item} (h : Table s N l) (h' : Table s N l') : l = l' := by
  have hfast := congrArg (List.map Ptr.block) (h.rings.fast.unique h'.rings.fast)
  simp only [List.map_map] at hfast
  exact eq_of_map_block h.holds h'.holds hfast

theorem Table.isList_burket (h : Table s N l) (hi : i < N)
    (hp : p ∈ Ptr.burket i :: (l.filter (·.burket N = i)).map Item.mainLink) : s.IsList p := by
  rcases List.mem_cons.1 hp with rfl | hp
  · exact Nat.lt_of_lt_of_le hi h.heads
  · obtain ⟨x, hx, rfl⟩ := List.mem_map.1 hp
    obtain ⟨e, he, -⟩ := h.holds x (List.mem_of_mem_filter hx)
    exact ⟨by simp [he], by decide⟩

theorem Table.isList_fast (h : Table s N l) (hp : p ∈ Ptr.fastList :: l.map Item.fastLink) :
    s.IsList p := by
  rcases List.mem_cons.1 hp with rfl | hp
  · exact trivial
  · obtain ⟨x, hx, rfl⟩ := List.mem_map.1 hp
    obtain ⟨e, he, -⟩ := h.holds x hx
    exact ⟨by simp [he], by decide⟩

/-- A free block is none of the table's. -/
theorem Table.not_mem (h : Table s N l) (hm : s.node m = none) : m ∉ l.map Item.block := by
  intro hmem
  obtain ⟨x, hx, rfl⟩ := List.mem_map.1 hmem
  obtain ⟨e, he, -⟩ := h.holds x hx
  rw [hm] at he
  cases he

theorem Table.run_burketOf (h : Table s N l) :
    (burketOf id).run s = .ok (.burket (id.toNat % N), s) := by
  have hne : s.numberOfBurkets.toUInt32 ≠ 0 := by
    intro h0
    have hN := h.burkets
    rw [h0] at hN
    exact Nat.ne_of_gt h.pos hN.symm
  simp [burketOf, hne, h.burkets]

/-- The search, at the entry with which the rest `post` of a bucket starts. -/
theorem Table.run_searchLoop (h : Table s N l) (hi : i < N) (id : UInt32) (pre : List Item)
    (hl : l.filter (·.burket N = i) = pre ++ post) {fuel : ℕ} (hfuel : post.length < fuel) :
    (searchLoop (.burket i) id fuel ((post.map Item.mainLink).headD (.burket i))).run s =
      .ok ((post.find? (·.id = id)).elim (.burket i) Item.mainLink, s) := by
  induction post generalizing pre fuel with
  | nil =>
      obtain ⟨fuel, rfl⟩ : ∃ f, fuel = f + 1 := ⟨fuel - 1, by omega⟩
      simp [searchLoop]
  | cons x post ih =>
      obtain ⟨fuel, rfl⟩ : ∃ f, fuel = f + 1 := ⟨fuel - 1, by simp at hfuel; omega⟩
      have hx : x ∈ l.filter (·.burket N = i) := by simp [hl]
      obtain ⟨e, he, hid, -⟩ := h.holds x (List.mem_of_mem_filter hx)
      have hring := h.rings.burket i hi
      rw [hl, List.map_append, List.map_cons] at hring
      have hlist : s.IsList x.mainLink :=
        h.isList_burket hi (List.mem_cons_of_mem _ (List.mem_map_of_mem hx))
      have hrest := ih (pre ++ [x]) (by simp [hl]) (by simp at hfuel; omega)
      rw [← hring.next_of_mem] at hrest
      by_cases hxid : x.id = id
      · simp [searchLoop, StateT.run_bind, run_loadEntry he, hid, hxid]
      · rw [mainLink_eq] at hlist hrest
        simp [searchLoop, StateT.run_bind, run_loadEntry he, hid, hxid, run_getFlink hlist, hrest]

/-- The search finds the entry with the id, or comes back to the list head. -/
theorem Table.run_searchBurket (h : Table s N l) (id : UInt32) {fuel : ℕ}
    (hfuel : l.length < fuel) :
    (searchBurket fuel (.burket (id.toNat % N)) id).run s =
      .ok ((l.find? (·.id = id)).elim (.burket (id.toNat % N)) Item.mainLink, s) := by
  have hlt : id.toNat % N < N := Nat.mod_lt _ h.pos
  have hring := h.rings.burket _ hlt
  have hlist : s.IsList (.burket (id.toNat % N)) := h.isList_burket hlt (by simp)
  have hlen := List.length_filter_le (fun x : Item => x.burket N = id.toNat % N) l
  have hloop := h.run_searchLoop hlt id [] rfl (Nat.lt_of_le_of_lt hlen hfuel)
  have hfind : (l.filter (·.burket N = id.toNat % N)).find? (·.id = id) = l.find? (·.id = id) := by
    rw [List.find?_filter]
    congr 1
    funext x
    by_cases hx : x.id = id <;> simp [hx, Item.burket]
  rw [hfind, ← hring.next_eq] at hloop
  simp only [searchBurket, StateT.run_bind, run_getFlink hlist, ok_bind]
  exact hloop

theorem find?_id_eq_none (hid : id ∉ l.map Item.id) : l.find? (·.id = id) = none := by
  refine List.find?_eq_none.2 fun x hx => ?_
  have hne : x.id ≠ id := fun heq => hid (heq ▸ List.mem_map_of_mem hx)
  simpa using hne

theorem Table.find?_id (h : Table s N l) (hx : x ∈ l) : l.find? (·.id = x.id) = some x := by
  obtain ⟨y, hy⟩ : ∃ y, l.find? (·.id = x.id) = some y :=
    Option.isSome_iff_exists.1 (List.find?_isSome.2 ⟨x, hx, by simp⟩)
  have hid : y.id = x.id := by simpa using List.find?_some hy
  rw [hy, List.inj_on_of_nodup_map h.ids (List.mem_of_find?_eq_some hy) hx hid]

theorem Table.run_searchBurket_none (h : Table s N l) {fuel : ℕ} (hfuel : l.length < fuel)
    (hid : id ∉ l.map Item.id) :
    (searchBurket fuel (.burket (id.toNat % N)) id).run s = .ok (.burket (id.toNat % N), s) := by
  have hrun := h.run_searchBurket id hfuel
  rwa [find?_id_eq_none hid] at hrun

theorem Table.run_searchBurket_some (h : Table s N l) {fuel : ℕ} (hfuel : l.length < fuel)
    (hx : x ∈ l) : (searchBurket fuel (.burket (x.id.toNat % N)) x.id).run s =
      .ok (.entry x.block 0, s) := by
  have hrun := h.run_searchBurket x.id hfuel
  rwa [h.find?_id hx] at hrun

end Table

end StructLib.Hash
