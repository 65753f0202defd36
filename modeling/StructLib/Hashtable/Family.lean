import StructLib.Hashtable.Refine

set_option autoImplicit false

/-! # Parents and children

An entry's `Child` is the child that was added last, from which `BrotherEntry` leads round all
children of the entry in the order in which they were added. `Family` says so of the memory, for a
`Clan` of entries, each with its children, oldest first. -/

namespace StructLib.Hash

open Links

/-- `&entry->BrotherEntry`. -/
def Item.brotherLink (x : Item) : Ptr := .entry x.block 2

@[simp] theorem brotherLink_eq (x : Item) : x.brotherLink = .entry x.block 2 := rfl

/-- Entries and the children of each. -/
structure Clan where
  items : List Item
  kids : Item → List Item

/-- The entries whose `Parent` is `x`. -/
def childrenOf (s : Hashtable) (l : List Item) (x : Item) : List Item :=
  l.filter fun y => s.parentOf y.block = .entry x.block 0

/-- A pointer to the last one, or NULL. -/
def newest (cs : List Item) : Ptr := cs.getLast?.elim .null Item.mainLink

@[simp] theorem newest_nil : newest [] = .null := rfl

@[simp] theorem newest_concat (cs : List Item) (c : Item) : newest (cs ++ [c]) = .entry c.block 0 := by
  simp [newest]

/-- The memory holds the clan. -/
structure Family (s : Hashtable) (a : Clan) : Prop where
  child : ∀ x ∈ a.items, s.childOf x.block = newest (a.kids x)
  parent : ∀ x ∈ a.items, ∀ y ∈ a.kids x, s.parentOf y.block = .entry x.block 0
  live : ∀ x ∈ a.items, ∀ y ∈ a.kids x, y ∈ a.items
  ring : ∀ x ∈ a.items, ∀ cs c, a.kids x = cs ++ [c] →
    s.link.Ring c.brotherLink (cs.map Item.brotherLink)
  orphan : ∀ y ∈ a.items, (∀ x ∈ a.items, y ∉ a.kids x) →
    s.parentOf y.block = .null ∧ s.link.Ring y.brotherLink []
  dom : ∀ x ∉ a.items, a.kids x = []

section Family

variable {s s' : Hashtable} {N : ℕ} {a : Clan} {l' : List Item} {x y z c : Item} {cs : List Item}

theorem SameAt.childOf {b : ℕ} (h : SameAt s s' b) : s'.childOf b = s.childOf b := by
  simp [Hashtable.childOf, h.node]

theorem SameAt.parentOf {b : ℕ} (h : SameAt s s' b) : s'.parentOf b = s.parentOf b := by
  simp [Hashtable.parentOf, h.node]

theorem Table.eq_of_block (h : Table s N l') (hx : x ∈ l') (hy : y ∈ l') (hxy : x.block = y.block) :
    x = y :=
  List.inj_on_of_nodup_map h.rings.blocks_nodup hx hy hxy

/-- The links of the children of `x`. -/
theorem Family.nodup_kids (h : Family s a) (hx : x ∈ a.items) : (a.kids x).Nodup := by
  rcases List.eq_nil_or_concat (a.kids x) with hnil | ⟨cs, c, hcs⟩
  · simp [hnil]
  · rw [List.concat_eq_append] at hcs
    have hring := (h.ring x hx cs c hcs).nodup
    have hnodup : ((c :: cs).map Item.brotherLink).Nodup := hring
    rw [hcs]
    exact (List.perm_append_singleton c cs).nodup_iff.2 hnodup.of_map

theorem Family.parent_unique (h : Family s a) (ht : Table s N a.items) (hx : x ∈ a.items)
    (hz : z ∈ a.items) (hyx : y ∈ a.kids x) (hyz : y ∈ a.kids z) : x = z := by
  have heq := (h.parent x hx y hyx).symm.trans (h.parent z hz y hyz)
  exact ht.eq_of_block hx hz (by simpa using heq)

/-- An entry is a child of `x` just if its `Parent` is `x`. -/
theorem Family.mem_kids_iff (h : Family s a) (ht : Table s N a.items) (hx : x ∈ a.items)
    (hy : y ∈ a.items) : y ∈ a.kids x ↔ s.parentOf y.block = .entry x.block 0 := by
  refine ⟨h.parent x hx y, fun hp => ?_⟩
  by_cases horphan : ∀ z ∈ a.items, y ∉ a.kids z
  · rw [(h.orphan y hy horphan).1] at hp
    cases hp
  · push Not at horphan
    obtain ⟨z, hz, hyz⟩ := horphan
    have heq := (h.parent z hz y hyz).symm.trans hp
    obtain rfl : z = x := ht.eq_of_block hz hx (by simpa using heq)
    exact hyz

theorem Family.kids_perm (h : Family s a) (ht : Table s N a.items) (hx : x ∈ a.items) :
    (a.kids x).Perm (childrenOf s a.items x) := by
  refine (List.perm_ext_iff_of_nodup (h.nodup_kids hx) ?_).2 fun y => ?_
  · exact (List.Nodup.of_map _ ht.rings.blocks_nodup).filter _
  · simp only [childrenOf, List.mem_filter, decide_eq_true_eq]
    refine ⟨fun hy => ⟨h.live x hx y hy, h.parent x hx y hy⟩, fun hy => ?_⟩
    exact (h.mem_kids_iff ht hx hy.1).2 hy.2

theorem Family.mem_kids_of_brother (h : Family s a) (ht : Table s N a.items) (hx : x ∈ a.items)
    (hcs : a.kids x = cs ++ [c]) (hy : y ∈ a.items)
    (hmem : y.brotherLink ∈ c.brotherLink :: cs.map Item.brotherLink) : y ∈ a.kids x := by
  obtain ⟨w, hw, hwy⟩ := List.mem_map.1
    (show y.brotherLink ∈ (c :: cs).map Item.brotherLink from hmem)
  have hwx : w ∈ a.kids x := by
    rw [hcs]
    simpa [or_comm] using hw
  obtain rfl : w = y := ht.eq_of_block (h.live x hx w hwx) hy (by simpa using hwy)
  exact hwx

/-- Different entries have different children. -/
theorem Family.disjoint_brothers (h : Family s a) (ht : Table s N a.items) (hx : x ∈ a.items)
    (hz : z ∈ a.items) (hxz : x ≠ z) (hcs : a.kids x = cs ++ [c]) {ds : List Item} {d : Item}
    (hds : a.kids z = ds ++ [d]) : (c.brotherLink :: cs.map Item.brotherLink).Disjoint
      (d.brotherLink :: ds.map Item.brotherLink) := by
  intro p hp hp'
  obtain ⟨w, hw, rfl⟩ := List.mem_map.1 (show p ∈ (d :: ds).map Item.brotherLink from hp')
  have hwz : w ∈ a.kids z := by
    rw [hds]
    simpa [or_comm] using hw
  have hwx := h.mem_kids_of_brother ht hx hcs (h.live z hz w hwz) hp
  exact hxz (h.parent_unique ht hx hz hwx hwz)

/-- Only the entries `l'` stay. -/
def Clan.restrict (a : Clan) (l' : List Item) : Clan :=
  ⟨l', fun x => if x ∈ l' then a.kids x else []⟩

/-- No entry that goes is a child or a parent of one that stays. -/
def Clan.Closed (a : Clan) (l' : List Item) : Prop :=
  ∀ y ∈ a.items, y ∉ l' → ∀ z ∈ l', y ∉ a.kids z ∧ z ∉ a.kids y

/-- Calls that do not know of parents and children keep those that stay together. -/
theorem Family.kept (h : Family s a) (hkept : Kept s s' a.items l') (hclosed : a.Closed l') :
    Family s' (a.restrict l') := by
  have hkids : ∀ x ∈ l', (a.restrict l').kids x = a.kids x := fun x hx => if_pos hx
  have hlive : ∀ x ∈ l', ∀ y ∈ a.kids x, x ∈ a.items ∧ y ∈ a.items ∧ y ∈ l' := by
    intro x hx y hy
    have hxa : x ∈ a.items := by
      by_contra hnot
      rw [h.dom x hnot] at hy
      cases hy
    have hya := h.live x hxa y hy
    refine ⟨hxa, hya, ?_⟩
    by_contra hnot
    exact (hclosed y hya hnot x hx).1 hy
  refine ⟨fun x hx => ?_, fun x hx y hy => ?_, fun x hx y hy => ?_, fun x hx cs c hcs => ?_,
    fun y hy horphan => ?_, fun x hx => if_neg hx⟩
  · rw [hkids x hx]
    by_cases hxa : x ∈ a.items
    · rw [(hkept.old x hx hxa).childOf, h.child x hxa]
    · rw [(hkept.new x hx hxa).child, h.dom x hxa, newest_nil]
  · rw [hkids x hx] at hy
    obtain ⟨hxa, hya, hyl⟩ := hlive x hx y hy
    rw [(hkept.old y hyl hya).parentOf, h.parent x hxa y hy]
  · rw [hkids x hx] at hy
    exact (hlive x hx y hy).2.2
  · rw [hkids x hx] at hcs
    have hsame : ∀ y ∈ c :: cs, SameAt s s' y.block := by
      intro y hy
      obtain ⟨-, hya, hyl⟩ := hlive x hx y (by rw [hcs]; simpa [or_comm] using hy)
      exact hkept.old y hyl hya
    have hxa := (hlive x hx c (by simp [hcs])).1
    refine (h.ring x hxa cs c hcs).congr (fun p hp => ?_) fun p hp => ?_
    · obtain ⟨y, hy, rfl⟩ := List.mem_map.1 (show p ∈ (c :: cs).map Item.brotherLink from hp)
      exact (hsame y hy).next
    · obtain ⟨y, hy, rfl⟩ := List.mem_map.1 (show p ∈ (c :: cs).map Item.brotherLink from hp)
      exact (hsame y hy).prev
  · by_cases hya : y ∈ a.items
    · have hsame := hkept.old y hy hya
      obtain ⟨hparent, hring⟩ := h.orphan y hya fun x hxa hyx => by
        by_cases hx : x ∈ l'
        · exact horphan x hx (by rwa [hkids x hx])
        · exact (hclosed x hxa hx y hy).2 hyx
      refine ⟨by rw [hsame.parentOf, hparent], hring.congr ?_ ?_⟩
      · simpa using hsame.next
      · simpa using hsame.prev
    · have hsingle := hkept.new y hy hya
      exact ⟨hsingle.parent, hsingle.ring⟩

end Family

/-! ## Lookup -/

section Lookup

variable {s : Hashtable} {N fuel : ℕ} {l : List Item} {x : Item} {id : UInt32}

theorem Table.run_getZipperNode (h : Table s N l) (hx : x ∈ l) (hfuel : l.length < fuel) :
    (getZipperNode fuel x.id).run s = .ok (.entry x.block 0, s) := by
  unfold getZipperNode
  rw [Exec.run_bind_of_ok h.run_burketOf, Exec.run_bind_of_ok (h.run_searchBurket_some hfuel hx)]
  rfl

theorem Table.run_getZipperNode_none (h : Table s N l) (hid : id ∉ l.map Item.id)
    (hfuel : l.length < fuel) : (getZipperNode fuel id).run s = .ok (.null, s) := by
  unfold getZipperNode
  rw [Exec.run_bind_of_ok h.run_burketOf, Exec.run_bind_of_ok (h.run_searchBurket_none hfuel hid),
    if_pos rfl]
  rfl

theorem Table.exists_run_getZipperNode (h : Table s N l) (id : UInt32) (hfuel : l.length < fuel) :
    ∃ q, (getZipperNode fuel id).run s = .ok (q, s) ∧ (id ∉ l.map Item.id → q = .null) := by
  by_cases hid : id ∈ l.map Item.id
  · obtain ⟨x, hx, rfl⟩ := List.mem_map.1 hid
    exact ⟨_, h.run_getZipperNode hx hfuel, fun hnot => absurd hid hnot⟩
  · exact ⟨_, h.run_getZipperNode_none hid hfuel, fun _ => rfl⟩

theorem Table.isSome (h : Table s N l) (hx : x ∈ l) : (s.node x.block).isSome := by
  obtain ⟨e, he, -⟩ := h.holds x hx
  simp [he]

theorem Table.isList_brother (h : Table s N l) (hx : x ∈ l) : s.IsList x.brotherLink :=
  ⟨h.isSome hx, by decide⟩

/-- The table does not depend on the links among siblings. -/
theorem Table.setLink (h : Table s N l) {k : Links Ptr} (hk : ∀ p, (∀ n, p ≠ .entry n 2) →
    k.next p = s.link.next p ∧ k.prev p = s.link.prev p) : Table (s.setLink k) N l := by
  refine ⟨h.pos, h.burkets, h.heads, h.count, h.rings.congr ?_ ?_, h.holds, h.ids⟩
  · rintro p (rfl | ⟨i, rfl⟩)
    · exact hk _ (by simp)
    · exact hk _ (by simp)
  · intro x _ off hoff
    refine hk _ fun n heq => ?_
    have hoff' : off = 2 := by simpa using (Ptr.entry.inj heq).2
    omega

theorem Table.withChild (h : Table s N l) (n : ℕ) (q : Ptr) : Table (s.withChild n q) N l :=
  ⟨h.pos, h.burkets, h.heads, h.count, h.rings, fun x hx => (h.holds x hx).withChild n q, h.ids⟩

theorem Table.withParent (h : Table s N l) (n : ℕ) (q : Ptr) : Table (s.withParent n q) N l :=
  ⟨h.pos, h.burkets, h.heads, h.count, h.rings, fun x hx => (h.holds x hx).withParent n q, h.ids⟩

/-- The fields that the code reads are the fields of the memory. -/
theorem Table.run_loadEntry (h : Table s N l) (hx : x ∈ l) : ∃ e,
    (loadEntry (.entry x.block 0)).run s = .ok (e, s) ∧ e.child = s.childOf x.block ∧
      e.parent = s.parentOf x.block := by
  obtain ⟨e, he, -⟩ := h.holds x hx
  exact ⟨e, Hash.run_loadEntry he, by simp [Hashtable.childOf, he], by simp [Hashtable.parentOf, he]⟩

end Lookup

end StructLib.Hash
