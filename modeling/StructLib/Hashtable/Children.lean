import StructLib.Hashtable.Family

set_option autoImplicit false

/-! # Adding, removing and counting children

`AddChildHashEntry` is right for a child without a parent, and for the only child of the same
parent; `RemoveChildHashEntry` unless it takes the newest child from among others; the count,
whenever the memory holds a clan. -/

namespace StructLib.Hash

open Links

/-! ## A new child -/

/-- The memory when `y` has been linked in after `head` and has become the child of `x`. -/
def Hashtable.adopt (s : Hashtable) (head : Ptr) (x y : ℕ) : Hashtable :=
  ((s.setLink (s.link.insertAfter head (.entry y 2))).withChild x (.entry y 0)).withParent y (.entry x 0)

theorem childOf_adopt {s : Hashtable} {head : Ptr} {x y n : ℕ} (hx : (s.node x).isSome) :
    (s.adopt head x y).childOf n = if n = x then .entry y 0 else s.childOf n := by
  unfold Hashtable.adopt
  rw [childOf_withParent, childOf_withChild (by simpa using hx), childOf_setLink]

theorem parentOf_adopt {s : Hashtable} {head : Ptr} {x y n : ℕ} (hy : (s.node y).isSome) :
    (s.adopt head x y).parentOf n = if n = y then .entry x 0 else s.parentOf n := by
  unfold Hashtable.adopt
  rw [parentOf_withParent (by simpa using hy), parentOf_withChild, parentOf_setLink]

section AddChild

variable {s : Hashtable} {N fuel : ℕ} {l : List Item} {a : Clan} {x y : Item} {head : Ptr}

theorem Table.run_addChildHashEntry (h : Table s N l) (hx : x ∈ l) (hy : y ∈ l)
    (hhead : (if s.childOf x.block = .null then .entry y.block 2 else (s.childOf x.block).plus 2) =
      head) (hlist : s.IsList head) (hnext : s.IsList (s.link.next head)) (hfuel : l.length < fuel) :
    (addChildHashEntry fuel x.id y.id).run s = .ok (0, s.adopt head x.block y.block) := by
  obtain ⟨e, hload, hchild, -⟩ := h.run_loadEntry hx
  unfold addChildHashEntry
  rw [Exec.run_bind_of_ok (h.run_getZipperNode hx hfuel),
    Exec.run_bind_of_ok (h.run_getZipperNode hy hfuel), if_neg (by simp),
    Exec.run_bind_of_ok hload]
  have hy' : s.IsList (.entry y.block 2) := h.isList_brother hy
  simp only [hchild, plus_entry, Nat.zero_add]
  rw [hhead, Exec.run_bind_of_ok (run_linkAfter hlist hy' hnext),
    Exec.run_bind_of_ok (run_setChild (by simpa using h.isSome hx)),
    Exec.run_bind_of_ok (run_setParent (by simpa using h.isSome hy))]
  rfl

theorem Table.run_addChildHashEntry_absent (h : Table s N l) {p c : UInt32}
    (hid : p ∉ l.map Item.id ∨ c ∉ l.map Item.id) (hfuel : l.length < fuel) :
    (addChildHashEntry fuel p c).run s = .ok (0, s) := by
  obtain ⟨q, hq, hqnull⟩ := h.exists_run_getZipperNode p hfuel
  obtain ⟨q', hq', hqnull'⟩ := h.exists_run_getZipperNode c hfuel
  unfold addChildHashEntry
  rw [Exec.run_bind_of_ok hq, Exec.run_bind_of_ok hq', if_pos (hid.imp hqnull hqnull')]
  rfl

/-- Where a child of `x` is linked in: after the newest one, or after itself. -/
def Clan.brotherHead (a : Clan) (x y : Item) : Item := (a.kids x).getLast?.getD y

@[simp] theorem brotherHead_of_nil (h : a.kids x = []) : a.brotherHead x y = y := by
  simp [Clan.brotherHead, h]

@[simp] theorem brotherHead_of_concat {cs : List Item} {c : Item} (h : a.kids x = cs ++ [c]) :
    a.brotherHead x y = c := by
  simp [Clan.brotherHead, h]

theorem Family.brotherHead_eq (h : Family s a) (hx : x ∈ a.items) :
    (if s.childOf x.block = .null then .entry y.block 2 else (s.childOf x.block).plus 2) =
      (a.brotherHead x y).brotherLink := by
  rw [h.child x hx]
  rcases List.eq_nil_or_concat (a.kids x) with hnil | ⟨cs, c, hcs⟩
  · simp [hnil]
  · rw [List.concat_eq_append] at hcs
    simp [hcs, brotherHead_of_concat hcs]

/-- The rings after a new child `y` of `x` has been linked in. -/
theorem Family.insert_brother (h : Family s a) (ht : Table s N a.items) (hx : x ∈ a.items)
    (hy : y ∈ a.items) (horphan : ∀ z ∈ a.items, y ∉ a.kids z) :
    let k := s.link.insertAfter (a.brotherHead x y).brotherLink y.brotherLink
    k.Ring y.brotherLink ((a.kids x).map Item.brotherLink) ∧
      (∀ z ∈ a.items, z ≠ x → ∀ cs c, a.kids z = cs ++ [c] →
        k.Ring c.brotherLink (cs.map Item.brotherLink)) ∧
      ∀ z ∈ a.items, z ≠ y → (∀ w ∈ a.items, z ∉ a.kids w) → k.Ring z.brotherLink [] := by
  intro k
  have hself := (h.orphan y hy horphan).2
  rcases List.eq_nil_or_concat (a.kids x) with hnil | ⟨cs, c, hcs⟩
  · have hk : k = s.link := by
      simp only [k, brotherHead_of_nil hnil]
      exact hself.insertAfter_self
    rw [hk, hnil]
    exact ⟨hself, fun z hz _ => h.ring z hz, fun z hz _ hzw => (h.orphan z hz hzw).2⟩
  · rw [List.concat_eq_append] at hcs
    have hring := h.ring x hx cs c hcs
    have hnot : ∀ z ∈ a.items, z ∉ a.kids x →
        z.brotherLink ∉ c.brotherLink :: cs.map Item.brotherLink :=
      fun z hz hzx hmem => hzx (h.mem_kids_of_brother ht hx hcs hz hmem)
    have hk : k = s.link.insertAfter c.brotherLink y.brotherLink := by
      simp only [k, brotherHead_of_concat hcs]
    rw [hk, hcs, List.map_append]
    refine ⟨?_, fun z hz hzx ds d hds => ?_, fun z hz hzy hzw => ?_⟩
    · exact Ring.rotate (hring.insertAfter (hnot y hy (horphan x hx)))
    · refine hring.insertAfter_other (h.ring z hz ds d hds)
        (h.disjoint_brothers ht hx hz (Ne.symm hzx) hcs hds) fun hmem => ?_
      exact horphan z hz (h.mem_kids_of_brother ht hz hds hy hmem)
    · refine hring.insertAfter_other (h.orphan z hz hzw).2 ?_ ?_
      · rw [List.disjoint_singleton]
        exact hnot z hz (hzw x hx)
      · rw [List.mem_singleton]
        exact fun heq => hzy (ht.eq_of_block hz hy (by simpa using heq.symm))

/-- Linking a child in touches only links among siblings, and finds them. -/
theorem Family.insert_brother_frame (h : Family s a) (ht : Table s N a.items) (hx : x ∈ a.items)
    (hy : y ∈ a.items) (hself : a.kids x = [] → s.link.Ring y.brotherLink []) :
    s.IsList (a.brotherHead x y).brotherLink ∧
      s.IsList (s.link.next (a.brotherHead x y).brotherLink) ∧
      ∀ p, (∀ n, p ≠ .entry n 2) →
        (s.link.insertAfter (a.brotherHead x y).brotherLink y.brotherLink).next p = s.link.next p ∧
        (s.link.insertAfter (a.brotherHead x y).brotherLink y.brotherLink).prev p = s.link.prev p := by
  obtain ⟨cs, hring, hcs⟩ : ∃ cs : List Item,
      s.link.Ring (a.brotherHead x y).brotherLink (cs.map Item.brotherLink) ∧
        ∀ z ∈ a.brotherHead x y :: cs, z ∈ a.items := by
    rcases List.eq_nil_or_concat (a.kids x) with hnil | ⟨cs, c, hcs⟩
    · rw [brotherHead_of_nil hnil]
      exact ⟨[], hself hnil, by simpa using hy⟩
    · rw [List.concat_eq_append] at hcs
      rw [brotherHead_of_concat hcs]
      refine ⟨cs, h.ring x hx cs c hcs, fun z hz => h.live x hx z ?_⟩
      rw [hcs]
      simpa [or_comm] using hz
  have hlist : ∀ p ∈ (a.brotherHead x y :: cs).map Item.brotherLink, s.IsList p := by
    intro p hp
    obtain ⟨z, hz, rfl⟩ := List.mem_map.1 hp
    exact ht.isList_brother (hcs z hz)
  refine ⟨hlist _ List.mem_cons_self, hlist _ hring.next_mem, fun p hp => ?_⟩
  refine hring.insertAfter_frame (fun hmem => ?_) (hp y.block)
  obtain ⟨z, -, rfl⟩ := List.mem_map.1
    (show p ∈ (a.brotherHead x y :: cs).map Item.brotherLink from hmem)
  exact hp z.block rfl

/-- `y` is a child of `x`, the last one unless it was one before. -/
def Clan.addKid (a : Clan) (x y : Item) : Clan :=
  { a with kids := Function.update a.kids x (if y ∈ a.kids x then a.kids x else a.kids x ++ [y]) }

theorem Family.adopt (h : Family s a) (ht : Table s N a.items) (hx : x ∈ a.items)
    (hy : y ∈ a.items) (horphan : ∀ z ∈ a.items, y ∉ a.kids z) :
    Family (s.adopt (a.brotherHead x y).brotherLink x.block y.block) (a.addKid x y) := by
  have hkids : (a.addKid x y).kids x = a.kids x ++ [y] := by
    simp [Clan.addKid, horphan x hx]
  have hkids' : ∀ z, z ≠ x → (a.addKid x y).kids z = a.kids z := by
    intro z hzx
    simp [Clan.addKid, hzx]
  have hblock : ∀ z ∈ a.items, ∀ w ∈ a.items, z ≠ w → z.block ≠ w.block :=
    fun z hz w hw hzw heq => hzw (ht.eq_of_block hz hw heq)
  obtain ⟨hring, hrings, hrings'⟩ := h.insert_brother ht hx hy horphan
  refine ⟨fun z hz => ?_, fun z hz w hw => ?_, fun z hz w hw => ?_, fun z hz cs c hcs => ?_,
    fun w hw hnot => ?_, fun z hz => ?_⟩
  · rw [childOf_adopt (ht.isSome hx)]
    by_cases hzx : z = x
    · rw [hzx, if_pos rfl, hkids, newest_concat]
    · rw [if_neg (hblock z hz x hx hzx), hkids' z hzx, h.child z hz]
  · rw [parentOf_adopt (ht.isSome hy)]
    by_cases hzx : z = x
    · subst hzx
      rw [hkids] at hw
      rcases List.mem_append.1 hw with hw | hw
      · have hwy : w ≠ y := fun heq => horphan z hz (heq ▸ hw)
        rw [if_neg (hblock w (h.live z hz w hw) y hy hwy), h.parent z hz w hw]
      · rw [List.mem_singleton.1 hw, if_pos rfl]
    · rw [hkids' z hzx] at hw
      have hwy : w ≠ y := fun heq => horphan z hz (heq ▸ hw)
      rw [if_neg (hblock w (h.live z hz w hw) y hy hwy), h.parent z hz w hw]
  · by_cases hzx : z = x
    · subst hzx
      rw [hkids] at hw
      rcases List.mem_append.1 hw with hw | hw
      · exact h.live z hz w hw
      · exact List.mem_singleton.1 hw ▸ hy
    · rw [hkids' z hzx] at hw
      exact h.live z hz w hw
  · by_cases hzx : z = x
    · subst hzx
      rw [hkids] at hcs
      obtain ⟨rfl, hyc⟩ := List.append_inj' hcs rfl
      obtain rfl : y = c := by simpa using hyc
      exact hring
    · rw [hkids' z hzx] at hcs
      exact hrings z hz hzx cs c hcs
  · have hwy : w ≠ y := by
      rintro rfl
      exact hnot x hx (by simp [hkids])
    have hold : ∀ z ∈ a.items, w ∉ a.kids z := by
      intro z hz hwz
      refine hnot z hz ?_
      by_cases hzx : z = x
      · subst hzx
        simp [hkids, hwz]
      · rwa [hkids' z hzx]
    rw [parentOf_adopt (ht.isSome hy), if_neg (hblock w hw y hy hwy)]
    exact ⟨(h.orphan w hw hold).1, hrings' w hw hwy hold⟩
  · have hzx : z ≠ x := fun heq => hz (heq ▸ hx)
    rw [hkids' z hzx]
    exact h.dom z hz

/-- The only child is added again. -/
theorem Family.adopt_again (h : Family s a) (ht : Table s N a.items) (hx : x ∈ a.items)
    (hkids : a.kids x = [y]) :
    Family (s.adopt (a.brotherHead x y).brotherLink x.block y.block) (a.addKid x y) := by
  have hyx : y ∈ a.kids x := by simp [hkids]
  have hy := h.live x hx y hyx
  have hring : s.link.Ring y.brotherLink [] := h.ring x hx [] y hkids
  have hclan : a.addKid x y = a := by simp [Clan.addKid, hyx]
  have hchild : ∀ n, (s.adopt (a.brotherHead x y).brotherLink x.block y.block).childOf n =
      s.childOf n := by
    intro n
    rw [childOf_adopt (ht.isSome hx)]
    by_cases hn : n = x.block
    · rw [if_pos hn, hn, h.child x hx, hkids]
      rfl
    · rw [if_neg hn]
  have hparent : ∀ n, (s.adopt (a.brotherHead x y).brotherLink x.block y.block).parentOf n =
      s.parentOf n := by
    intro n
    rw [parentOf_adopt (ht.isSome hy)]
    by_cases hn : n = y.block
    · rw [if_pos hn, hn, h.parent x hx y hyx]
    · rw [if_neg hn]
  have hlink : (s.adopt (a.brotherHead x y).brotherLink x.block y.block).link = s.link := by
    rw [brotherHead_of_concat (show a.kids x = [] ++ [y] from hkids)]
    exact hring.insertAfter_self
  rw [hclan]
  refine ⟨fun z hz => ?_, fun z hz w hw => ?_, h.live, ?_, fun w hw hnot => ?_, h.dom⟩
  · rw [hchild, h.child z hz]
  · rw [hparent, h.parent z hz w hw]
  · rw [hlink]
    exact h.ring
  · rw [hparent, hlink]
    exact h.orphan w hw hnot

/-- The call adds the child, if both ids are there. -/
def Clan.addChild (a : Clan) (idParentNode idChildNode : UInt32) : Clan :=
  match a.items.find? (·.id = idParentNode), a.items.find? (·.id = idChildNode) with
  | some x, some y => a.addKid x y
  | _, _ => a

theorem Clan.items_addChild (a : Clan) (p c : UInt32) : (a.addChild p c).items = a.items := by
  unfold Clan.addChild
  split
  · rfl
  · rfl

theorem Clan.addChild_absent {a : Clan} {p c : UInt32}
    (hid : p ∉ a.items.map Item.id ∨ c ∉ a.items.map Item.id) : a.addChild p c = a := by
  unfold Clan.addChild
  rcases hid with hp | hc
  · simp [find?_id_eq_none hp]
  · rw [find?_id_eq_none hc]
    split
    · next hx => cases hx
    · rfl

/-- **A child is added** that has no parent, or is the only child of this one. -/
theorem Family.returns_addChildHashEntry (h : Family s a) (ht : Table s N a.items) {p c : UInt32}
    (hok : ∀ x ∈ a.items, ∀ y ∈ a.items, x.id = p → y.id = c →
      (∀ z ∈ a.items, y ∉ a.kids z) ∨ a.kids x = [y]) :
    ∃ s', Returns (fun fuel => addChildHashEntry fuel p c) s 0 s' ∧ Table s' N a.items ∧
      Family s' (a.addChild p c) := by
  by_cases hp : p ∈ a.items.map Item.id
  · obtain ⟨x, hx, rfl⟩ := List.mem_map.1 hp
    by_cases hc : c ∈ a.items.map Item.id
    · obtain ⟨y, hy, rfl⟩ := List.mem_map.1 hc
      have hclan : a.addChild x.id y.id = a.addKid x y := by
        simp only [Clan.addChild, ht.find?_id hx, ht.find?_id hy]
      have hcases := hok x hx y hy rfl rfl
      have hself : a.kids x = [] → s.link.Ring y.brotherLink [] := by
        intro hnil
        rcases hcases with horphan | hkids
        · exact (h.orphan y hy horphan).2
        · exact h.ring x hx [] y hkids
      obtain ⟨hlist, hnext, hframe⟩ := h.insert_brother_frame ht hx hy hself
      refine ⟨s.adopt (a.brotherHead x y).brotherLink x.block y.block,
        ⟨a.items.length + 1, fun fuel hfuel => ?_⟩, ?_, ?_⟩
      · exact ht.run_addChildHashEntry hx hy (h.brotherHead_eq hx) hlist hnext hfuel
      · exact ((ht.setLink hframe).withChild _ _).withParent _ _
      · rw [hclan]
        rcases hcases with horphan | hkids
        · exact h.adopt ht hx hy horphan
        · exact h.adopt_again ht hx hkids
    · refine ⟨s, ⟨a.items.length + 1, fun fuel hfuel => ?_⟩, ht, ?_⟩
      · exact ht.run_addChildHashEntry_absent (.inr hc) hfuel
      · rwa [Clan.addChild_absent (.inr hc)]
  · refine ⟨s, ⟨a.items.length + 1, fun fuel hfuel => ?_⟩, ht, ?_⟩
    · exact ht.run_addChildHashEntry_absent (.inl hp) hfuel
    · rwa [Clan.addChild_absent (.inl hp)]

end AddChild

/-! ## A child goes -/

/-- The memory when `y` has been detached from `x`. If `y` was the child that `x` pointed to, the
    next link takes its place, NULL if that is `y`'s own. -/
def Hashtable.detach (s : Hashtable) (x y : ℕ) : Hashtable :=
  let next := s.link.next (.entry y 2)
  let s₁ := if s.childOf x = .entry y 0 then
      s.withChild x (if next = .entry y 2 then .null else next)
    else s
  (s₁.withParent y .null).setLink (s.link.remove (.entry y 2))

section RemoveChild

variable {s : Hashtable} {N fuel : ℕ} {l : List Item} {a : Clan} {x y : Item}

theorem run_passOnChild {n m : ℕ} (hn : (s.node n).isSome) (hm : s.IsList (.entry m 2)) :
    (passOnChild (.entry n 0) (.entry m 0)).run s = .ok ((), s.withChild n
      (if s.link.next (.entry m 2) = .entry m 2 then .null else s.link.next (.entry m 2))) := by
  unfold passOnChild
  rw [plus_entry, Exec.run_bind_of_ok (run_getFlink hm)]
  by_cases hself : s.link.next (.entry m 2) = .entry m 2
  · rw [if_pos hself, if_pos hself, run_setChild hn]
  · rw [if_neg hself, if_neg hself, run_setChild hn]

theorem Table.run_removeChildHashEntry (h : Table s N l) (hx : x ∈ l) (hy : y ∈ l)
    (hprev : s.IsList (s.link.prev y.brotherLink)) (hnext : s.IsList (s.link.next y.brotherLink))
    (hfuel : l.length < fuel) :
    (removeChildHashEntry fuel x.id y.id).run s = .ok (0, s.detach x.block y.block) := by
  obtain ⟨e, hload, hchild, -⟩ := h.run_loadEntry hx
  have hy' : s.IsList (.entry y.block 2) := h.isList_brother hy
  have hxs := h.isSome hx
  have hys := h.isSome hy
  unfold removeChildHashEntry
  rw [Exec.run_bind_of_ok (h.run_getZipperNode hx hfuel),
    Exec.run_bind_of_ok (h.run_getZipperNode hy hfuel), if_neg (by simp),
    Exec.run_bind_of_ok hload]
  simp only [hchild, plus_entry, Nat.zero_add, Hashtable.detach]
  have hrest : ∀ s₁ : Hashtable, s₁.link = s.link → (∀ p, s₁.IsList p ↔ s.IsList p) →
      (s₁.node y.block).isSome → (do
        setParent (.entry y.block 0) .null
        unlink (.entry y.block 2)
        return 0 : Exec Hashtable ℤ).run s₁ =
          .ok (0, (s₁.withParent y.block .null).setLink (s.link.remove (.entry y.block 2))) := by
    intro s₁ hlink hlists hsome
    rw [Exec.run_bind_of_ok (run_setParent hsome), Exec.run_bind_of_ok (run_unlink
      (by simpa [hlists] using hy') (by simpa [hlink, hlists] using hprev)
      (by simpa [hlink, hlists] using hnext)), mapNode_link, hlink]
    rfl
  by_cases hc : s.childOf x.block = .entry y.block 0
  · rw [if_pos hc, if_pos hc, Exec.run_bind_of_ok (run_passOnChild hxs hy')]
    exact hrest _ rfl (fun _ => isList_mapNode) (by simpa using hys)
  · rw [if_neg hc, if_neg hc]
    exact hrest s rfl (fun _ => Iff.rfl) hys

theorem childOf_detach {n m b : ℕ} (hn : (s.node n).isSome) :
    (s.detach n m).childOf b = if s.childOf n = .entry m 0 ∧ b = n then
      (if s.link.next (.entry m 2) = .entry m 2 then .null else s.link.next (.entry m 2))
    else s.childOf b := by
  unfold Hashtable.detach
  rw [childOf_setLink, childOf_withParent]
  by_cases hc : s.childOf n = .entry m 0
  · rw [if_pos hc, childOf_withChild hn]
    simp [hc]
  · simp [hc]

theorem parentOf_detach {n m b : ℕ} (hm : (s.node m).isSome) :
    (s.detach n m).parentOf b = if b = m then .null else s.parentOf b := by
  unfold Hashtable.detach
  rw [parentOf_setLink]
  by_cases hc : s.childOf n = .entry m 0
  · rw [if_pos hc, parentOf_withParent (by simpa using hm), parentOf_withChild]
  · rw [if_neg hc, parentOf_withParent hm]

/-- `y` is no child of `x` any more. -/
def Clan.dropKid (a : Clan) (x y : Item) : Clan :=
  { a with kids := Function.update a.kids x ((a.kids x).filter (· ≠ y)) }

theorem filter_ne_of_nodup {pre post : List Item} (h : (pre ++ y :: post).Nodup) :
    (pre ++ y :: post).filter (· ≠ y) = pre ++ post := by
  have hnot : y ∉ pre ++ post :=
    (List.nodup_cons.1 (List.perm_middle.nodup_iff.1 h)).1
  have hself : (pre ++ post).filter (· ≠ y) = pre ++ post := by
    refine List.filter_eq_self.2 fun z hz => ?_
    have hne : z ≠ y := fun heq => hnot (heq ▸ hz)
    simpa using hne
  rw [List.filter_append, List.filter_cons_of_neg (by simp), ← List.filter_append, hself]

/-- The ring in which a child is. -/
theorem Family.exists_ring (h : Family s a) (hx : x ∈ a.items) (hy : y ∈ a.kids x) : ∃ cs c,
    a.kids x = cs ++ [c] ∧ s.link.Ring c.brotherLink (cs.map Item.brotherLink) ∧
      y.brotherLink ∈ c.brotherLink :: cs.map Item.brotherLink ∧
      ∀ p ∈ c.brotherLink :: cs.map Item.brotherLink, ∃ z ∈ a.items, z.brotherLink = p := by
  rcases List.eq_nil_or_concat (a.kids x) with hnil | ⟨cs, c, hcs⟩
  · rw [hnil] at hy
    cases hy
  · rw [List.concat_eq_append] at hcs
    have hmem : ∀ z, z ∈ a.kids x ↔ z ∈ c :: cs := fun z => by simp [hcs, or_comm]
    refine ⟨cs, c, hcs, h.ring x hx cs c hcs, ?_, fun p hp => ?_⟩
    · exact List.mem_map_of_mem (f := Item.brotherLink) ((hmem y).1 hy)
    · obtain ⟨z, hz, hzp⟩ := List.mem_map.1 (show p ∈ (c :: cs).map Item.brotherLink from hp)
      exact ⟨z, h.live x hx z ((hmem z).2 hz), hzp⟩

/-- The rings after the child `y` of `x` has been unlinked. -/
theorem Family.remove_brother (h : Family s a) (ht : Table s N a.items) (hx : x ∈ a.items)
    (hy : y ∈ a.kids x) :
    let k := s.link.remove y.brotherLink
    (∀ cs c, (a.kids x).filter (· ≠ y) = cs ++ [c] →
      k.Ring c.brotherLink (cs.map Item.brotherLink)) ∧
      (∀ z ∈ a.items, z ≠ x → ∀ cs c, a.kids z = cs ++ [c] →
        k.Ring c.brotherLink (cs.map Item.brotherLink)) ∧
      (∀ z ∈ a.items, (∀ w ∈ a.items, z ∉ a.kids w) → k.Ring z.brotherLink []) ∧
      ∀ p, (∀ n, p ≠ .entry n 2) → k.next p = s.link.next p ∧ k.prev p = s.link.prev p := by
  intro k
  obtain ⟨ds, d, hds, hring, hmem, hbrothers⟩ := h.exists_ring hx hy
  refine ⟨fun cs c hcs => ?_, fun z hz hzx cs c hcs => ?_, fun z hz hzw => ?_, fun p hp => ?_⟩
  · obtain ⟨pre, post, hkids⟩ := List.append_of_mem hy
    rw [hkids, filter_ne_of_nodup (hkids ▸ h.nodup_kids hx)] at hcs
    rcases List.eq_nil_or_concat post with rfl | ⟨ps, p, rfl⟩
    · -- `y` was the newest
      rw [List.append_nil] at hcs
      subst hcs
      have hyring := h.ring x hx (cs ++ [c]) y hkids
      rw [List.map_append] at hyring
      have hcring : s.link.Ring c.brotherLink ([] ++ y.brotherLink :: cs.map Item.brotherLink) :=
        Ring.rotate hyring
      exact hcring.remove
    · rw [List.concat_eq_append] at hcs hkids
      rw [← List.append_assoc] at hcs
      obtain ⟨rfl, hpc⟩ := List.append_inj' hcs rfl
      obtain rfl : p = c := by simpa using hpc
      have hcring := h.ring x hx (pre ++ y :: ps) p (by rw [hkids]; simp)
      rw [List.map_append, List.map_cons] at hcring
      rw [List.map_append]
      exact hcring.remove
  · exact hring.remove_other (h.ring z hz cs c hcs)
      (h.disjoint_brothers ht hx hz (Ne.symm hzx) hds hcs) hmem
  · refine hring.remove_other (h.orphan z hz hzw).2 ?_ hmem
    rw [List.disjoint_singleton]
    exact fun hzmem => hzw x hx (h.mem_kids_of_brother ht hx hds hz hzmem)
  · refine hring.remove_frame hmem fun hpmem => ?_
    obtain ⟨z, -, rfl⟩ := hbrothers p hpmem
    exact hp z.block rfl

/-- `Child` is still the newest child unless that one went and left others. -/
theorem Family.newest_detach (h : Family s a) (ht : Table s N a.items) (hx : x ∈ a.items)
    (hy : y ∈ a.kids x) (hlast : (a.kids x).getLast? = some y → a.kids x = [y]) :
    (s.detach x.block y.block).childOf x.block = newest ((a.kids x).filter (· ≠ y)) := by
  obtain ⟨cs, c, hcs, -⟩ := h.exists_ring hx hy
  have hchild := h.child x hx
  rw [hcs, newest_concat] at hchild
  rw [childOf_detach (ht.isSome hx), hchild]
  by_cases hcy : c = y
  · subst hcy
    have hkids := hlast (by simp [hcs])
    have hself := (ring_nil.1 (h.ring x hx [] c hkids)).1
    rw [if_pos ⟨rfl, rfl⟩, if_pos (by simpa using hself), hkids]
    simp
  · have hca := h.live x hx c (by simp [hcs])
    have hne : c.block ≠ y.block :=
      fun heq => hcy (ht.eq_of_block hca (h.live x hx y hy) heq)
    rw [if_neg (by simp [hne]), hcs, List.filter_append,
      List.filter_cons_of_pos (by simpa using hcy), List.filter_nil, newest_concat]

/-- **A child goes** that is not the newest, or that is the only one. -/
theorem Family.detach (h : Family s a) (ht : Table s N a.items) (hx : x ∈ a.items)
    (hy : y ∈ a.kids x) (hlast : (a.kids x).getLast? = some y → a.kids x = [y]) :
    Family (s.detach x.block y.block) (a.dropKid x y) := by
  have hya := h.live x hx y hy
  have hkids : (a.dropKid x y).kids x = (a.kids x).filter (· ≠ y) := by simp [Clan.dropKid]
  have hkids' : ∀ z, z ≠ x → (a.dropKid x y).kids z = a.kids z := by
    intro z hzx
    simp [Clan.dropKid, hzx]
  have hblock : ∀ z ∈ a.items, ∀ w ∈ a.items, z ≠ w → z.block ≠ w.block :=
    fun z hz w hw hzw heq => hzw (ht.eq_of_block hz hw heq)
  obtain ⟨hring, hrings, hrings', -⟩ := h.remove_brother ht hx hy
  have hmem : ∀ z ∈ a.items, ∀ w ∈ (a.dropKid x y).kids z, w ∈ a.kids z ∧ w ≠ y := by
    intro z hz w hw
    by_cases hzx : z = x
    · subst hzx
      rw [hkids] at hw
      simpa using List.mem_filter.1 hw
    · rw [hkids' z hzx] at hw
      refine ⟨hw, ?_⟩
      rintro rfl
      exact hzx (h.parent_unique ht hz hx hw hy)
  refine ⟨fun z hz => ?_, fun z hz w hw => ?_, fun z hz w hw => ?_, fun z hz cs c hcs => ?_,
    fun w hw hnot => ?_, fun z hz => ?_⟩
  · by_cases hzx : z = x
    · subst hzx
      rw [hkids, h.newest_detach ht hx hy hlast]
    · rw [childOf_detach (ht.isSome hx), if_neg fun hand => hblock z hz x hx hzx hand.2,
        hkids' z hzx, h.child z hz]
  · obtain ⟨hwz, hwy⟩ := hmem z hz w hw
    rw [parentOf_detach (ht.isSome hya), if_neg (hblock w (h.live z hz w hwz) y hya hwy),
      h.parent z hz w hwz]
  · exact h.live z hz w (hmem z hz w hw).1
  · by_cases hzx : z = x
    · subst hzx
      rw [hkids] at hcs
      exact hring cs c hcs
    · rw [hkids' z hzx] at hcs
      exact hrings z hz hzx cs c hcs
  · rw [parentOf_detach (ht.isSome hya)]
    by_cases hwy : w = y
    · subst hwy
      rw [if_pos rfl]
      exact ⟨rfl, ring_remove_self⟩
    · have hold : ∀ z ∈ a.items, w ∉ a.kids z := by
        intro z hz hwz
        refine hnot z hz ?_
        by_cases hzx : z = x
        · subst hzx
          rw [hkids]
          simpa [hwz] using hwy
        · rwa [hkids' z hzx]
      rw [if_neg (hblock w hw y hya hwy)]
      exact ⟨(h.orphan w hw hold).1, hrings' w hw hold⟩
  · have hzx : z ≠ x := fun heq => hz (heq ▸ hx)
    rw [hkids' z hzx]
    exact h.dom z hz

theorem Table.detach (h : Table s N l) (n m : ℕ) (hframe : ∀ p, (∀ n, p ≠ .entry n 2) →
    (s.link.remove (.entry m 2)).next p = s.link.next p ∧
      (s.link.remove (.entry m 2)).prev p = s.link.prev p) : Table (s.detach n m) N l := by
  by_cases hc : s.childOf n = .entry m 0
  · simp only [Hashtable.detach, if_pos hc]
    exact ((h.withChild _ _).withParent _ _).setLink hframe
  · simp only [Hashtable.detach, if_neg hc]
    exact (h.withParent _ _).setLink hframe

/-- The call takes the child away, if both ids are there. -/
def Clan.removeChild (a : Clan) (idParentNode idChildNode : UInt32) : Clan :=
  match a.items.find? (·.id = idParentNode), a.items.find? (·.id = idChildNode) with
  | some x, some y => a.dropKid x y
  | _, _ => a

/-- Any child can be taken away. -/
theorem Family.returns_removeChildHashEntry (h : Family s a) (ht : Table s N a.items)
    (hx : x ∈ a.items) (hy : y ∈ a.kids x) :
    Returns (fun fuel => removeChildHashEntry fuel x.id y.id) s 0 (s.detach x.block y.block) ∧
      Table (s.detach x.block y.block) N a.items := by
  obtain ⟨cs, c, -, hring, hmem, hbrothers⟩ := h.exists_ring hx hy
  have hlist : ∀ p ∈ c.brotherLink :: cs.map Item.brotherLink, s.IsList p := by
    intro p hp
    obtain ⟨z, hz, rfl⟩ := hbrothers p hp
    exact ht.isList_brother hz
  obtain ⟨-, -, -, hframe⟩ := h.remove_brother ht hx hy
  refine ⟨⟨a.items.length + 1, fun fuel hfuel => ?_⟩, ht.detach _ _ hframe⟩
  exact ht.run_removeChildHashEntry hx (h.live x hx y hy) (hlist _ (hring.prev_mem_of_mem hmem))
    (hlist _ (hring.next_mem_of_mem hmem)) hfuel

end RemoveChild

/-! ## Counting children -/

section Count

variable {s : Hashtable} {N fuel : ℕ} {l : List Item} {a : Clan} {x : Item}

/-- The loop, when the rest `post` of the ring is still ahead. -/
theorem run_countLoop {head cur : Ptr} {pre post : List Ptr}
    (hring : s.link.Ring head (pre ++ post))
    (hlist : ∀ p ∈ head :: (pre ++ post), s.IsList p) (hcur : cur ∈ head :: (pre ++ post))
    (hnext : s.link.next cur = post.headD head) (n : ℤ) (hfuel : post.length < fuel) :
    (countLoop head fuel cur n).run s = .ok (n + post.length + 1, s) := by
  obtain ⟨fuel, rfl⟩ : ∃ f, fuel = f + 1 := ⟨fuel - 1, by omega⟩
  induction post generalizing pre cur n fuel with
  | nil =>
      rw [countLoop, Exec.run_bind_of_ok (run_getFlink (hlist cur hcur)), hnext]
      simp
  | cons p post ih =>
      obtain ⟨fuel, rfl⟩ : ∃ f, fuel = f + 1 := ⟨fuel - 1, by simp at hfuel; omega⟩
      have hne : p ≠ head := by
        rintro rfl
        exact (List.nodup_cons.1 hring.nodup).1 (by simp)
      rw [countLoop, Exec.run_bind_of_ok (run_getFlink (hlist cur hcur)), hnext, List.headD_cons,
        if_pos hne]
      have happ : pre ++ p :: post = pre ++ [p] ++ post := by simp
      have hnextp := hring.next_of_mem
      rw [happ] at hring hlist
      have hcount : n + 1 + post.length + 1 = n + (p :: post).length + 1 := by
        rw [List.length_cons]
        omega
      rw [ih hring hlist (by simp) hnextp (n + 1) fuel (by simp at hfuel; omega), hcount]

/-- **The count** is the number of children. -/
theorem Family.returns_getChildHashEntryCount (h : Family s a) (ht : Table s N a.items)
    (hx : x ∈ a.items) :
    Returns (fun fuel => getChildHashEntryCount fuel x.id) s (a.kids x).length s := by
  refine ⟨a.items.length + (a.kids x).length + 1, fun fuel hfuel => ?_⟩
  obtain ⟨e, hload, hchild, -⟩ := ht.run_loadEntry hx
  unfold getChildHashEntryCount
  rw [Exec.run_bind_of_ok (ht.run_getZipperNode hx (by omega)), if_neg (by simp),
    Exec.run_bind_of_ok hload]
  simp only [hchild, h.child x hx]
  rcases List.eq_nil_or_concat (a.kids x) with hnil | ⟨cs, c, hcs⟩
  · simp [hnil]
  · rw [List.concat_eq_append] at hcs
    have hring : s.link.Ring c.brotherLink ([] ++ cs.map Item.brotherLink) := h.ring x hx cs c hcs
    have hlist : ∀ p ∈ c.brotherLink :: ([] ++ cs.map Item.brotherLink), s.IsList p := by
      intro p hp
      obtain ⟨z, hz, rfl⟩ := List.mem_map.1 (show p ∈ (c :: cs).map Item.brotherLink from hp)
      exact ht.isList_brother (h.live x hx z (by simpa [hcs, or_comm] using hz))
    rw [hcs, List.length_append] at hfuel
    have hlt : (cs.map Item.brotherLink).length < fuel := by
      rw [List.length_map]
      omega
    rw [hcs, newest_concat, if_neg (by simp), plus_entry]
    have hloop := run_countLoop hring hlist List.mem_cons_self hring.next_eq 0 hlt
    rw [List.length_map, Int.zero_add] at hloop
    rw [List.length_append]
    exact hloop

end Count

end StructLib.Hash
