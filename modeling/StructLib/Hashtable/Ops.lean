import StructLib.Hashtable.Layout

set_option autoImplicit false

/-! # What each call does to a hash table

One lemma for each function, over `Table`: creation makes an empty table, insertion puts the entry
in front, deletion takes it out of the middle. `SameAt` adds that none of them touches what ties
other entries together as parents and children. -/

namespace StructLib.Hash

open Links

/-- The entry in the block `b` and its `BrotherEntry` links are as before. -/
structure SameAt (s s' : Hashtable) (b : ℕ) : Prop where
  node : s'.node b = s.node b
  next : s'.link.next (.entry b 2) = s.link.next (.entry b 2)
  prev : s'.link.prev (.entry b 2) = s.link.prev (.entry b 2)

theorem SameAt.refl (s : Hashtable) (b : ℕ) : SameAt s s b := ⟨rfl, rfl, rfl⟩

theorem SameAt.trans {s s₁ s' : Hashtable} {b : ℕ} (h : SameAt s s₁ b) (h' : SameAt s₁ s' b) :
    SameAt s s' b :=
  ⟨h'.node.trans h.node, h'.next.trans h.next, h'.prev.trans h.prev⟩

/-! ## Creation -/

section Create

variable {s : Hashtable} {N i n : ℕ}

theorem run_createLoop_stop (h : s.numberOfBurkets.toInt ≤ i) (fuel : ℕ) :
    (createLoop (fuel + 1) i).run s = .ok ((), s) := by
  rw [createLoop, Exec.run_get_bind, if_neg (Int.not_lt.2 h)]
  rfl

theorem run_createLoop_step (h : i < s.numberOfBurkets.toInt) (hlist : i < s.heads) (fuel : ℕ) :
    (createLoop (fuel + 1) i).run s = (createLoop fuel (i + 1)).run (s.setLink
      ⟨Function.update s.link.next (.burket i) (.burket i),
        Function.update s.link.prev (.burket i) (.burket i)⟩) := by
  have hlist : s.IsList (.burket i) := hlist
  rw [createLoop, Exec.run_get_bind, if_pos h, Exec.run_bind_of_ok (run_setBlink hlist),
    Exec.run_bind_of_ok (run_setFlink (by simpa using hlist))]
  simp

/-- The loop makes rings of the remaining `n` buckets. -/
theorem run_createLoop (hN : s.numberOfBurkets.toInt = N) (hheads : N ≤ s.heads)
    (hi : i + n = N) : ∃ k : Links Ptr,
      (∀ fuel, n < fuel → (createLoop fuel i).run s = .ok ((), s.setLink k)) ∧
      (∀ j, i ≤ j → j < N → k.Ring (.burket j) []) ∧
      ∀ p, (∀ j, i ≤ j → p ≠ .burket j) → k.next p = s.link.next p ∧ k.prev p = s.link.prev p := by
  induction n generalizing s i with
  | zero =>
      refine ⟨s.link, fun fuel hfuel => ?_, fun j hij hj => by omega, fun p _ => ⟨rfl, rfl⟩⟩
      obtain ⟨fuel, rfl⟩ : ∃ f, fuel = f + 1 := ⟨fuel - 1, by omega⟩
      exact run_createLoop_stop (by omega) fuel
  | succ n ih =>
      obtain ⟨k, hrun, hrings, hframe⟩ := ih (s := s.setLink
        ⟨Function.update s.link.next (.burket i) (.burket i),
          Function.update s.link.prev (.burket i) (.burket i)⟩) (i := i + 1) hN hheads (by omega)
      refine ⟨k, fun fuel hfuel => ?_, fun j hij hj => ?_, fun p hp => ?_⟩
      · obtain ⟨fuel, rfl⟩ : ∃ f, fuel = f + 1 := ⟨fuel - 1, by omega⟩
        rw [run_createLoop_step (by omega) (by omega)]
        exact hrun fuel (by omega)
      · by_cases h : i + 1 ≤ j
        · exact hrings j h hj
        · obtain rfl : j = i := by omega
          have hj := hframe (.burket j) fun j' hj' => by
            have hne : j ≠ j' := by omega
            simpa using hne
          simpa [ring_nil] using hj
      · have hpi : p ≠ .burket i := hp i (Nat.le_refl i)
        have hrest := hframe p fun j hj => hp j (by omega)
        simpa [hpi] using hrest

/-- An array that is too short makes the loop write behind it. -/
theorem run_createLoop_short (hN : s.numberOfBurkets.toInt = N) (hheads : s.heads < N)
    (hi : i + n = s.heads) {fuel : ℕ} (hfuel : n < fuel) :
    (createLoop fuel i).run s = .error .undef := by
  obtain ⟨fuel, rfl⟩ : ∃ f, fuel = f + 1 := ⟨fuel - 1, by omega⟩
  induction n generalizing s i fuel with
  | zero =>
      have hlist : ¬ s.IsList (.burket i) := show ¬ i < s.heads by omega
      rw [createLoop, Exec.run_get_bind, if_pos (by omega)]
      simp [setBlink, hlist]
  | succ n ih =>
      obtain ⟨fuel, rfl⟩ : ∃ f, fuel = f + 1 := ⟨fuel - 1, by omega⟩
      rw [run_createLoop_step (by omega) (by omega)]
      refine ih ?_ ?_ ?_ fuel (by omega)
      · exact hN
      · exact hheads
      · exact show i + 1 + n = s.heads by omega

/-- The table when the loop starts. -/
def Hashtable.cleared (s : Hashtable) (w : ℕ) (length : UInt32) : Hashtable :=
  { s with
    numberOfBurkets := length.toInt32
    numberOfNode := 0
    heads := (↑(2 * (w / 8)) * length.toInt32.toInt % 2 ^ w).toNat / (2 * (w / 8))
    link := ⟨zeroHeads s.link.next, zeroHeads s.link.prev⟩ }

theorem run_createHashTable (w fuel : ℕ) (length : UInt32) :
    (createHashTable w fuel length true true).run s = (do
      createLoop fuel 0
      setBlink .fastList .fastList
      setFlink .fastList .fastList
      return (0 : ℤ)).run (s.cleared w length) := by
  rw [createHashTable, if_neg (by simp), if_neg (by simp)]
  rfl

theorem toInt_toInt32 {length : UInt32} (h : length.toNat < 2 ^ 31) :
    length.toInt32.toInt = length.toNat := by
  have hlt : 2 * length.toBitVec.toNat < 2 ^ 32 := by
    rw [UInt32.toNat_toBitVec]
    omega
  exact BitVec.toInt_eq_toNat_of_lt hlt

/-- **Creation**, with the array long enough. -/
theorem returns_createHashTable {w : ℕ} {length : UInt32} (hN : length.toNat = N) (hpos : 0 < N)
    (hlt : N < 2 ^ 31) (hheads : N ≤ (s.cleared w length).heads) :
    ∃ s', Returns (fun fuel => createHashTable w fuel length true true) s 0 s' ∧ Table s' N [] ∧
      s'.node = s.node := by
  subst hN
  obtain ⟨k, hrun, hrings, -⟩ := run_createLoop (s := s.cleared w length) (toInt_toInt32 hlt)
    hheads (Nat.zero_add _)
  refine ⟨(s.cleared w length).setLink ⟨Function.update k.next .fastList .fastList,
    Function.update k.prev .fastList .fastList⟩, ⟨length.toNat + 1, fun fuel hfuel => ?_⟩, ?_, rfl⟩
  · rw [run_createHashTable, Exec.run_bind_of_ok (hrun fuel hfuel),
      Exec.run_bind_of_ok (run_setBlink isList_fastList),
      Exec.run_bind_of_ok (run_setFlink isList_fastList)]
    rfl
  · refine ⟨hpos, ?_, hheads, rfl, ⟨?_, fun i hi => ?_⟩, fun x hx => ?_, List.nodup_nil⟩
    · simp [Hashtable.cleared]
    · simp [ring_nil]
    · simpa [ring_nil] using hrings i (Nat.zero_le i) hi
    · cases hx

/-- A table that was created is empty. -/
theorem Table.of_create {w : ℕ} {length : UInt32} {s' : Hashtable} {r : ℤ} (hN : length.toNat = N)
    (hpos : 0 < N) (hlt : N < 2 ^ 31)
    (hret : Returns (fun fuel => createHashTable w fuel length true true) s r s') :
    Table s' N [] ∧ s'.node = s.node := by
  by_cases hheads : N ≤ (s.cleared w length).heads
  · obtain ⟨s₁, hret', htable⟩ := returns_createHashTable hN hpos hlt hheads
    exact (hret.unique hret').2 ▸ htable
  · subst hN
    refine absurd hret
      (not_returns_of_error (e := .undef) (k := (s.cleared w length).heads + 1) ?_ r s')
    intro fuel hfuel
    rw [run_createHashTable, StateT.run_bind, run_createLoop_short (s := s.cleared w length)
      (toInt_toInt32 hlt) (Nat.lt_of_not_le hheads) (Nat.zero_add _) hfuel]
    rfl

/-- With a `size_t` of 64 bits the array is always long enough. -/
theorem returns_createHashTable_64 (s : Hashtable) {length : UInt32} (hN : length.toNat = N)
    (hpos : 0 < N) (hlt : N < 2 ^ 31) :
    ∃ s', Returns (fun fuel => createHashTable 64 fuel length true true) s 0 s' ∧ Table s' N [] ∧
      s'.node = s.node := by
  subst hN
  have hint := toInt_toInt32 hlt
  refine returns_createHashTable rfl hpos hlt ?_
  simp only [Hashtable.cleared]
  rw [hint]
  omega

end Create

/-! ## Insertion -/

/-- Nothing ties the entry in the block `n` to another. -/
structure Single (s : Hashtable) (n : ℕ) : Prop where
  ring : s.link.Ring (.entry n 2) []
  child : s.childOf n = .null
  parent : s.parentOf n = .null

section Insert

variable {s : Hashtable} {N m : ℕ} {l : List Item} {x : Item} {id size : UInt32} {data : List UInt8}

/-- The new block is not yet in the table. -/
theorem Table.run_allocEntry (h : Table s N l) (hm : s.node m = none) (id : UInt32)
    (hsize : size.toNat ≤ data.length) :
    ∃ s', (allocEntry m id data size).run s = .ok ((), s') ∧ Table s' N l ∧ (∀ b ≠ m, SameAt s s' b) ∧
      Holds s' ⟨m, id, data.take size.toNat⟩ := by
  have hne : ∀ x ∈ l, x.block ≠ m := fun x hx heq =>
    h.not_mem hm (heq ▸ List.mem_map_of_mem hx)
  refine ⟨{ s with
    link := ⟨zeroLinks m s.link.next, zeroLinks m s.link.prev⟩
    node := Function.update s.node m
      (some ⟨.null, .null, id, size, data.take size.toNat⟩) }, ?_, ?_, ?_, ?_⟩
  · simp [allocEntry, Nat.not_lt.2 hsize]
  · refine ⟨h.pos, h.burkets, h.heads, h.count, h.rings.congr ?_ ?_, fun x hx => ?_, h.ids⟩
    · rintro p (rfl | ⟨i, rfl⟩)
      · exact ⟨rfl, rfl⟩
      · exact ⟨rfl, rfl⟩
    · intro x hx off _
      simp [zeroLinks, hne x hx]
    · obtain ⟨e, he, hrest⟩ := h.holds x hx
      exact ⟨e, by simp [hne x hx, he], hrest⟩
  · intro b hb
    exact ⟨by simp [hb], by simp [zeroLinks, hb], by simp [zeroLinks, hb]⟩
  · exact ⟨_, Function.update_self .., rfl, rfl, by simp [hsize]⟩

/-- The table when the block of `x` has been inserted but not yet counted. -/
def Hashtable.linked (s : Hashtable) (N : ℕ) (x : Item) : Hashtable :=
  let k := (s.link.insertAfter (.burket (x.burket N)) x.mainLink).insertAfter .fastList x.fastLink
  ((s.setLink ⟨Function.update k.next (.entry x.block 2) (.entry x.block 2),
    Function.update k.prev (.entry x.block 2) (.entry x.block 2)⟩).withChild x.block .null).withParent
      x.block .null

theorem Table.linked (h : Table s N l) (hnew : x.block ∉ l.map Item.block)
    (hid : x.id ∉ l.map Item.id) (hx : Holds s x) :
    let s' := (s.linked N x).setCount (l.length + 1)
    Table s' N (x :: l) ∧ (∀ b ≠ x.block, SameAt s s' b) ∧ Single s' x.block := by
  have hring := h.rings.insert h.pos hnew
  have hbrother := fun n => h.rings.insert_brother (x := x) h.pos n
  have hsome : (s.node x.block).isSome := by
    obtain ⟨e, he, -⟩ := hx
    simp [he]
  have hholds : ∀ y, Holds s y → Holds (s.linked N x) y := by
    intro y hy
    refine Holds.withParent (Holds.withChild ?_ _ _) _ _
    exact hy
  refine ⟨⟨h.pos, h.burkets, h.heads, ?_, hring.congr ?_ ?_, ?_, ?_⟩,
    fun b hb => ⟨?_, ?_, ?_⟩, ?_, ?_, ?_⟩
  · simp
  · rintro p (rfl | ⟨i, rfl⟩)
    · simp [Hashtable.linked]
    · simp [Hashtable.linked]
  · intro y _ off hoff
    have hne : off ≠ 2 := Nat.ne_of_lt hoff
    simp [Hashtable.linked, hne]
  · intro y hy
    rcases List.mem_cons.1 hy with rfl | hy
    · exact hholds y hx
    · exact hholds y (h.holds y hy)
  · exact List.nodup_cons.2 ⟨hid, h.ids⟩
  · simp [Hashtable.linked, mapNode_node, hb]
  · simpa [Hashtable.linked, hb] using (hbrother b).1
  · simpa [Hashtable.linked, hb] using (hbrother b).2
  · simp [ring_nil, Hashtable.linked]
  · show (s.linked N x).childOf x.block = .null
    simp [Hashtable.linked, childOf_withChild, hsome]
  · show (s.linked N x).parentOf x.block = .null
    simp [Hashtable.linked, parentOf_withParent, hsome]

theorem Table.run_link (h : Table s N l) (hnew : x.block ∉ l.map Item.block)
    (hsome : (s.node x.block).isSome) :
    (do
      linkFirst (.burket (x.burket N)) (.entry x.block 0)
      linkAfter .fastList (.entry x.block 1)
      setBlink (.entry x.block 2) (.entry x.block 2)
      setFlink (.entry x.block 2) (.entry x.block 2)
      setChild (.entry x.block 0) .null
      setParent (.entry x.block 0) .null
      incNumberOfNode
      return (0 : ℤ) : Exec Hashtable ℤ).run s =
        (do incNumberOfNode; return 0 : Exec Hashtable ℤ).run (s.linked N x) := by
  have hlt : x.burket N < N := Nat.mod_lt _ h.pos
  have hblock : ∀ off < 3, s.IsList (.entry x.block off) := fun off hoff => ⟨hsome, hoff⟩
  have hmain := h.rings.burket _ hlt
  have hfast := hmain.insertAfter_other h.rings.fast (disjoint_burket_fast ..) (x := x.mainLink)
    (by simp)
  have hnext : s.link.next (.burket (x.burket N)) ≠ x.mainLink := by
    intro heq
    have hmem := hmain.next_mem
    rw [heq] at hmem
    simp only [List.mem_cons, mainLink_eq, reduceCtorEq, List.mem_map, false_or] at hmem
    obtain ⟨y, hy, hyx⟩ := hmem
    exact hnew (List.mem_map.2 ⟨y, List.mem_of_mem_filter hy, by simpa using hyx⟩)
  rw [mainLink_eq] at hfast hnext
  rw [Exec.run_bind_of_ok (run_linkFirst (h.isList_burket hlt (by simp)) (hblock 0 (by decide))
    (h.isList_burket hlt hmain.next_mem) hnext)]
  rw [Exec.run_bind_of_ok (run_linkAfter isList_fastList (by simpa using hblock 1 (by decide))
    (by simpa using h.isList_fast hfast.next_mem))]
  rw [Exec.run_bind_of_ok (run_setBlink (by simpa using hblock 2 (by decide)))]
  rw [Exec.run_bind_of_ok (run_setFlink (by simpa using hblock 2 (by decide)))]
  rw [Exec.run_bind_of_ok (run_setChild (by simpa using hsome))]
  rw [Exec.run_bind_of_ok (run_setParent (by simpa using hsome))]
  simp [Hashtable.linked]

/-- A new id goes in front, and then it is counted. -/
theorem Table.run_insertHashEntry (h : Table s N l) (hm : s.node m = none)
    (hsize : size.toNat ≤ data.length) (hid : id ∉ l.map Item.id) : ∃ s₁,
    (∀ fuel, l.length < fuel → (insertHashEntry fuel id data size (some m)).run s =
      (do incNumberOfNode; return 0 : Exec Hashtable ℤ).run s₁) ∧ s₁.numberOfNode = l.length ∧
      Table (s₁.setCount (l.length + 1)) N (⟨m, id, data.take size.toNat⟩ :: l) ∧
      (∀ b ≠ m, SameAt s (s₁.setCount (l.length + 1)) b) ∧
      Single (s₁.setCount (l.length + 1)) m := by
  obtain ⟨s₁, halloc, h₁, hsame, hx⟩ := h.run_allocEntry hm id hsize
  have hnew := h.not_mem hm
  have hsome : (s₁.node m).isSome := by
    obtain ⟨e, he, -⟩ := hx
    simp [he]
  obtain ⟨htable, hsame', hsingle⟩ := h₁.linked hnew hid hx
  refine ⟨s₁.linked N ⟨m, id, data.take size.toNat⟩, fun fuel hfuel => ?_, h₁.count, htable,
    fun b hb => (hsame b hb).trans (hsame' b hb), hsingle⟩
  unfold insertHashEntry
  rw [Exec.run_bind_of_ok h.run_burketOf, Exec.run_bind_of_ok halloc]
  rw [Exec.run_bind_of_ok (h₁.run_searchBurket_none hfuel hid), if_neg (not_not.2 rfl)]
  exact h₁.run_link (x := ⟨m, id, data.take size.toNat⟩) hnew hsome

/-- **Insertion of a new id** puts the entry in front. -/
theorem Table.returns_insertHashEntry (h : Table s N l) (hm : s.node m = none)
    (hsize : size.toNat ≤ data.length) (hid : id ∉ l.map Item.id)
    (hroom : l.length + 1 < 2 ^ 31) :
    ∃ s', Returns (fun fuel => insertHashEntry fuel id data size (some m)) s 0 s' ∧
      Table s' N (⟨m, id, data.take size.toNat⟩ :: l) ∧ (∀ b ≠ m, SameAt s s' b) ∧
      Single s' m := by
  obtain ⟨s₁, hrun, hcount, hrest⟩ := h.run_insertHashEntry hm hsize hid
  refine ⟨_, ⟨l.length + 1, fun fuel hfuel => ?_⟩, hrest⟩
  have hlt : s₁.numberOfNode < 2 ^ 31 - 1 := by omega
  rw [hrun fuel hfuel, Exec.run_bind_of_ok (run_incNumberOfNode hlt), hcount]
  rfl

/-- The counter cannot count to `2 ^ 31`. -/
theorem Table.run_insertHashEntry_full (h : Table s N l) (hm : s.node m = none)
    (hsize : size.toNat ≤ data.length) (hid : id ∉ l.map Item.id)
    (hfull : 2 ^ 31 ≤ l.length + 1) {fuel : ℕ} (hfuel : l.length < fuel) :
    (insertHashEntry fuel id data size (some m)).run s = .error .undef := by
  obtain ⟨s₁, hrun, hcount, -⟩ := h.run_insertHashEntry hm hsize hid
  have hlt : ¬ s₁.numberOfNode < 2 ^ 31 - 1 := by omega
  rw [hrun fuel hfuel, incNumberOfNode, bind_assoc, Exec.run_get_bind, if_neg hlt]
  rfl

/-- Insertion of an id that exists leaves the table as it is, and a block behind. -/
theorem Table.returns_insertHashEntry_of_mem (h : Table s N l) (hm : s.node m = none)
    (hsize : size.toNat ≤ data.length) (hid : id ∈ l.map Item.id) :
    ∃ s', Returns (fun fuel => insertHashEntry fuel id data size (some m)) s EEXIST s' ∧
      Table s' N l ∧ ∀ b ≠ m, SameAt s s' b := by
  obtain ⟨s₁, halloc, h₁, hsame, -⟩ := h.run_allocEntry hm id hsize
  refine ⟨s₁, ⟨l.length + 1, fun fuel hfuel => ?_⟩, h₁, hsame⟩
  obtain ⟨x, hx, rfl⟩ := List.mem_map.1 hid
  unfold insertHashEntry
  rw [Exec.run_bind_of_ok h.run_burketOf, Exec.run_bind_of_ok halloc]
  rw [Exec.run_bind_of_ok (h₁.run_searchBurket_some hfuel hx), if_pos (by simp)]
  rfl

end Insert

/-! ## Deletion -/

/-- The table after the entry `x` has been deleted. -/
def Hashtable.without (s : Hashtable) (x : Item) : Hashtable :=
  ((s.setLink ((s.link.remove x.mainLink).remove x.fastLink)).setNode x.block none).setCount
    (s.numberOfNode - 1)

section Delete

variable {s : Hashtable} {N : ℕ} {l pre post : List Item} {x : Item} {id : UInt32}

theorem Table.without (h : Table s N (pre ++ x :: post)) :
    Table (s.without x) N (pre ++ post) ∧ ∀ y ∈ pre ++ post, SameAt s (s.without x) y.block := by
  have hsub : (pre ++ post).Sublist (pre ++ x :: post) :=
    List.Sublist.append_left (List.sublist_cons_self x post) pre
  have hnew := h.rings.block_ne
  have hbrother := fun n => h.rings.remove_brother h.pos n
  refine ⟨⟨h.pos, h.burkets, h.heads, ?_, h.rings.remove h.pos, fun y hy => ?_, ?_⟩,
    fun y hy => ⟨?_, (hbrother y.block).1, (hbrother y.block).2⟩⟩
  · have hcount := h.count
    simp only [List.length_append, List.length_cons] at hcount
    simp only [Hashtable.without, setCount_count, List.length_append, hcount]
    omega
  · obtain ⟨e, he, hrest⟩ := h.holds y (hsub.subset hy)
    exact ⟨e, by simp [Hashtable.without, hnew y hy, he], hrest⟩
  · exact h.ids.sublist (hsub.map Item.id)
  · simp [Hashtable.without, hnew y hy]

/-- The two unlinkings, which meet only list entries. -/
theorem Table.run_unlinkEntry (h : Table s N l) (hx : x ∈ l) :
    (unlinkEntry (.entry x.block 0)).run s =
      .ok ((), s.setLink ((s.link.remove x.mainLink).remove x.fastLink)) := by
  have hlt : x.burket N < N := Nat.mod_lt _ h.pos
  have hmain := h.rings.burket _ hlt
  have hmem : x.mainLink ∈ Ptr.burket (x.burket N) ::
      (l.filter (·.burket N = x.burket N)).map Item.mainLink :=
    List.mem_cons_of_mem _ (List.mem_map_of_mem (by simp [hx]))
  have hfast := hmain.remove_other h.rings.fast (disjoint_burket_fast ..) hmem
  have hfmem : x.fastLink ∈ Ptr.fastList :: l.map Item.fastLink :=
    List.mem_cons_of_mem _ (List.mem_map_of_mem hx)
  unfold unlinkEntry
  rw [Exec.run_bind_of_ok (run_unlink (p := .entry x.block 0) (h.isList_burket hlt hmem)
    (h.isList_burket hlt (hmain.prev_mem_of_mem hmem))
    (h.isList_burket hlt (hmain.next_mem_of_mem hmem)))]
  rw [run_unlink (p := (Ptr.entry x.block 0).plus 1) (by simpa using h.isList_fast hfmem)
    (by simpa using h.isList_fast (hfast.prev_mem_of_mem hfmem))
    (by simpa using h.isList_fast (hfast.next_mem_of_mem hfmem))]
  simp

theorem Table.run_deleteEntry (h : Table s N l) (hx : x ∈ l) :
    (deleteEntry (.entry x.block 0)).run s = .ok ((), s.without x) := by
  obtain ⟨e, he, -⟩ := h.holds x hx
  have hcount : -2 ^ 31 < s.numberOfNode := by
    rw [h.count]
    omega
  unfold deleteEntry
  rw [Exec.run_bind_of_ok (h.run_unlinkEntry hx)]
  rw [Exec.run_bind_of_ok (run_decNumberOfNode (by simpa using hcount))]
  rw [run_freeMemory (e := e) (by simpa using he)]
  rfl

/-- **Removal of an id** takes its entry out. -/
theorem Table.returns_removeHashEntry (h : Table s N l) (hx : x ∈ l) :
    Returns (fun fuel => removeHashEntry fuel x.id) s 0 (s.without x) := by
  refine ⟨l.length + 1, fun fuel hfuel => ?_⟩
  obtain ⟨e, he, -⟩ := h.holds x hx
  have hcount : -2 ^ 31 < s.numberOfNode := by
    rw [h.count]
    omega
  unfold removeHashEntry
  rw [Exec.run_bind_of_ok h.run_burketOf, Exec.run_bind_of_ok (h.run_searchBurket_some hfuel hx),
    if_neg (by simp), Exec.run_bind_of_ok (h.run_unlinkEntry hx),
    Exec.run_bind_of_ok (run_freeMemory (e := e) (by simpa using he)),
    Exec.run_bind_of_ok (run_decNumberOfNode (by simpa using hcount))]
  rfl

/-- Removal of an absent id changes nothing. -/
theorem Table.returns_removeHashEntry_of_not_mem (h : Table s N l) (hid : id ∉ l.map Item.id) :
    Returns (fun fuel => removeHashEntry fuel id) s ENOENT s := by
  refine ⟨l.length + 1, fun fuel hfuel => ?_⟩
  unfold removeHashEntry
  rw [Exec.run_bind_of_ok h.run_burketOf, Exec.run_bind_of_ok (h.run_searchBurket_none hfuel hid),
    if_pos rfl]
  rfl

end Delete

/-! ## Search -/

section Find

variable {s : Hashtable} {N : ℕ} {l : List Item} {x : Item} {id : UInt32}

theorem Table.returns_findHashEntry (h : Table s N l) (hx : x ∈ l) :
    Returns (fun fuel => findHashEntry fuel x.id) s
      (some (.entry x.block 0, UInt32.ofNat x.data.length)) s := by
  refine ⟨l.length + 1, fun fuel hfuel => ?_⟩
  obtain ⟨e, he, -, -, hsize⟩ := h.holds x hx
  unfold findHashEntry
  rw [Exec.run_bind_of_ok h.run_burketOf, Exec.run_bind_of_ok (h.run_searchBurket_some hfuel hx),
    if_neg (by simp), Exec.run_bind_of_ok (run_loadEntry he), ← hsize, UInt32.ofNat_toNat]
  rfl

theorem Table.returns_findHashEntry_of_not_mem (h : Table s N l) (hid : id ∉ l.map Item.id) :
    Returns (fun fuel => findHashEntry fuel id) s none s := by
  refine ⟨l.length + 1, fun fuel hfuel => ?_⟩
  unfold findHashEntry
  rw [Exec.run_bind_of_ok h.run_burketOf, Exec.run_bind_of_ok (h.run_searchBurket_none hfuel hid),
    if_pos rfl]
  rfl

end Find

/-! ## Enumeration -/

/-- A callback that tells the next action from the ids and bytes it has been shown, the last ones
    first. -/
def routine (verdict : List (UInt32 × List UInt8) → Int32) :
    EnumRoutine (List (UInt32 × List UInt8)) :=
  fun seen idNode data _ => return (verdict ((idNode, data) :: seen), (idNode, data) :: seen)

/-- What an action leaves of the entry `x`. -/
def keep (action : Int32) (x : Item) : List Item := if action &&& ENUM_DELETE ≠ 0 then [] else [x]

/-- What an enumeration of the entries leaves of them, and the last action. -/
def enumerate (verdict : List (UInt32 × List UInt8) → Int32) :
    List (UInt32 × List UInt8) → Int32 → List Item → List Item × Int32
  | _, last, [] => ([], last)
  | seen, _, x :: l =>
      let shown := (x.id, x.data) :: seen
      let action := verdict shown
      if action &&& ENUM_CONTINUE ≠ 0 then
        (keep action x ++ (enumerate verdict shown action l).1,
          (enumerate verdict shown action l).2)
      else
        (keep action x ++ l, action)

section Enum

variable {s : Hashtable} {N : ℕ} {pre l : List Item} {x : Item}
  {verdict : List (UInt32 × List UInt8) → Int32} {seen : List (UInt32 × List UInt8)}

theorem keep_sublist (action : Int32) (x : Item) : (keep action x).Sublist [x] := by
  unfold keep
  split
  · exact List.nil_sublist [x]
  · exact List.Sublist.refl [x]

theorem enumerate_sublist (last : Int32) : (enumerate verdict seen last l).1.Sublist l := by
  induction l generalizing seen last with
  | nil => exact List.Sublist.refl []
  | cons x l ih =>
      simp only [enumerate]
      split
      · exact (keep_sublist _ x).append (ih _)
      · exact (keep_sublist _ x).append (List.Sublist.refl l)

/-- The entry `x` has been shown and, if the action says so, deleted. -/
theorem Table.after_action (h : Table s N (pre ++ x :: l)) (action : Int32) :
    let s' := if action &&& ENUM_DELETE ≠ 0 then s.without x else s
    Table s' N (pre ++ keep action x ++ l) ∧
      ∀ y ∈ pre ++ keep action x ++ l, SameAt s s' y.block := by
  intro s'
  by_cases hdel : action &&& ENUM_DELETE ≠ 0
  · simp only [keep, s', if_pos hdel, List.append_nil]
    exact h.without
  · simp only [keep, s', if_neg hdel, List.append_assoc, List.singleton_append]
    exact ⟨h, fun y _ => SameAt.refl s _⟩

/-- One turn of the loop. -/
theorem Table.run_enumLoop_step {ι : Type} {routine : EnumRoutine ι}
    (h : Table s N (pre ++ x :: l)) {pre' l' : List Item} {s₁ : Hashtable} {context own : ι}
    {action : Int32} (last : Int32)
    (hroutine : (routine context x.id x.data (.ofNat x.data.length)).run s = .ok ((action, own), s₁))
    (h₁ : Table s₁ N (pre' ++ x :: l')) (fuel : ℕ) :
    (enumLoop routine (fuel + 1) x.fastLink last context).run s =
      (if action &&& ENUM_CONTINUE ≠ 0 then
        enumLoop routine fuel ((l'.map Item.fastLink).headD .fastList) action own
      else return (action, own)).run
        (if action &&& ENUM_DELETE ≠ 0 then s₁.without x else s₁) := by
  have hx : x ∈ pre ++ x :: l := by simp
  have hx₁ : x ∈ pre' ++ x :: l' := by simp
  obtain ⟨e, he, hid, hdata, hsize⟩ := h.holds x hx
  rw [← hsize, UInt32.ofNat_toNat, ← hid, ← hdata] at hroutine
  have hnext := h₁.rings.fast
  rw [List.map_append, List.map_cons] at hnext
  have hlist : s₁.IsList x.fastLink :=
    h₁.isList_fast (List.mem_cons_of_mem _ (List.mem_map_of_mem hx₁))
  have hne : x.fastLink ≠ .fastList := by simp
  have hentry : x.fastLink.minusOne = .entry x.block 0 := rfl
  rw [enumLoop, if_neg hne]
  simp only [hentry]
  rw [Exec.run_bind_of_ok (run_loadEntry he), Exec.run_bind_of_ok hroutine,
    Exec.run_bind_of_ok (run_getFlink hlist), hnext.next_of_mem]
  by_cases hdel : action &&& ENUM_DELETE ≠ 0
  · rw [if_pos hdel, if_pos hdel, Exec.run_bind_of_ok (h₁.run_deleteEntry hx₁)]
  · rw [if_neg hdel, if_neg hdel]

/-- A turn with a routine that makes no calls. -/
theorem run_routine (verdict : List (UInt32 × List UInt8) → Int32) (seen : List (UInt32 × List UInt8))
    (x : Item) (s : Hashtable) :
    (routine verdict seen x.id x.data (.ofNat x.data.length)).run s =
      .ok ((verdict ((x.id, x.data) :: seen), (x.id, x.data) :: seen), s) :=
  rfl

/-- The loop, at the entry with which the rest `l` of `FastList` starts. -/
theorem Table.run_enumLoop (h : Table s N (pre ++ l)) (verdict : List (UInt32 × List UInt8) → Int32)
    (seen : List (UInt32 × List UInt8)) (last : Int32) : ∃ shown s',
    (∀ fuel, l.length < fuel →
      (enumLoop (routine verdict) fuel ((l.map Item.fastLink).headD .fastList) last seen).run s =
        .ok (((enumerate verdict seen last l).2, shown), s')) ∧
      Table s' N (pre ++ (enumerate verdict seen last l).1) ∧
      ∀ x ∈ pre ++ (enumerate verdict seen last l).1, SameAt s s' x.block := by
  induction l generalizing s pre seen last with
  | nil =>
      refine ⟨seen, s, fun fuel hfuel => ?_, h, fun x _ => SameAt.refl s _⟩
      obtain ⟨fuel, rfl⟩ : ∃ f, fuel = f + 1 := ⟨fuel - 1, by omega⟩
      rfl
  | cons x l ih =>
      obtain ⟨hturn, hsame⟩ := h.after_action (verdict ((x.id, x.data) :: seen))
      have hstep : ∀ fuel, (x :: l).length < fuel → ∃ f, fuel = f + 1 ∧ l.length < f :=
        fun fuel hfuel => ⟨fuel - 1, by simp at hfuel; omega, by simp at hfuel; omega⟩
      rw [List.map_cons, List.headD_cons]
      simp only [enumerate]
      by_cases hcont : verdict ((x.id, x.data) :: seen) &&& ENUM_CONTINUE ≠ 0
      · obtain ⟨shown, s', hrun, htable, hsame'⟩ := ih hturn ((x.id, x.data) :: seen)
          (verdict ((x.id, x.data) :: seen))
        rw [if_pos hcont]
        have hsub : (pre ++ (keep (verdict ((x.id, x.data) :: seen)) x ++
            (enumerate verdict ((x.id, x.data) :: seen) (verdict ((x.id, x.data) :: seen)) l).1)).Sublist
            (pre ++ (keep (verdict ((x.id, x.data) :: seen)) x ++ l)) :=
          ((enumerate_sublist _).append_left _).append_left _
        rw [List.append_assoc] at htable hsame hsame'
        refine ⟨shown, s', fun fuel hfuel => ?_, htable, fun y hy => ?_⟩
        · obtain ⟨fuel, rfl, hlt⟩ := hstep fuel hfuel
          rw [h.run_enumLoop_step last (run_routine verdict seen x s) h, if_pos hcont]
          exact hrun fuel hlt
        · exact (hsame y (hsub.subset hy)).trans (hsame' y hy)
      · rw [if_neg hcont, ← List.append_assoc]
        refine ⟨(x.id, x.data) :: seen, _, fun fuel hfuel => ?_, hturn, hsame⟩
        obtain ⟨fuel, rfl, -⟩ := hstep fuel hfuel
        rw [h.run_enumLoop_step last (run_routine verdict seen x s) h, if_neg hcont]
        rfl

/-- **Enumeration** shows the entries, latest first, and deletes those that it is told to. -/
theorem Table.returns_enumHashEntry (h : Table s N l)
    (verdict : List (UInt32 × List UInt8) → Int32) :
    let kept := enumerate verdict [] ENUM_CONTINUE l
    ∃ s', Returns (fun fuel => enumHashEntry (routine verdict) fuel []) s
        (kept.2 &&& ENUM_CONTINUE).toInt s' ∧ Table s' N kept.1 ∧
      ∀ x ∈ kept.1, SameAt s s' x.block := by
  intro kept
  obtain ⟨shown, s', hrun, htable, hsame⟩ :=
    (show Table s N ([] ++ l) from h).run_enumLoop verdict [] ENUM_CONTINUE
  have hret : Returns (fun fuel => enumContextHashEntry (routine verdict) fuel []) s
      ((kept.2 &&& ENUM_CONTINUE).toInt, shown) s' := by
    refine ⟨l.length + 1, fun fuel hfuel => ?_⟩
    unfold enumContextHashEntry
    rw [Exec.run_bind_of_ok (run_getFlink isList_fastList), h.rings.fast.next_eq]
    rw [Exec.run_bind_of_ok (hrun fuel hfuel)]
    rfl
  exact ⟨s', hret.map Prod.fst, htable, hsame⟩

/-- The loop of `ClearHashTable`, which deletes all that is left. -/
theorem Table.run_clearLoop (h : Table s N l) : ∃ s',
    (∀ fuel, l.length < fuel →
      (clearLoop fuel ((l.map Item.fastLink).headD .fastList)).run s = .ok ((), s')) ∧
      Table s' N [] := by
  induction l generalizing s with
  | nil =>
      refine ⟨s, fun fuel hfuel => ?_, h⟩
      obtain ⟨fuel, rfl⟩ : ∃ f, fuel = f + 1 := ⟨fuel - 1, by omega⟩
      rfl
  | cons x l ih =>
      obtain ⟨s', hrun, htable⟩ := ih (show Table s N ([] ++ x :: l) from h).without.1
      refine ⟨s', fun fuel hfuel => ?_, htable⟩
      obtain ⟨fuel, rfl⟩ : ∃ f, fuel = f + 1 := ⟨fuel - 1, by omega⟩
      have hx : x ∈ x :: l := by simp
      have hring : s.link.Ring .fastList ([] ++ x.fastLink :: l.map Item.fastLink) := h.rings.fast
      have hlist : s.IsList x.fastLink :=
        h.isList_fast (List.mem_cons_of_mem _ (List.mem_map_of_mem hx))
      have hne : x.fastLink ≠ .fastList := by simp
      have hentry : x.fastLink.minusOne = .entry x.block 0 := rfl
      rw [List.map_cons, List.headD_cons, clearLoop, if_neg hne]
      simp only [hentry]
      rw [Exec.run_bind_of_ok (run_getFlink hlist), Exec.run_bind_of_ok (h.run_deleteEntry hx),
        hring.next_of_mem]
      exact hrun fuel (by simp at hfuel; omega)

/-- **Clearing** leaves nothing. -/
theorem Table.returns_clearHashTable (h : Table s N l) :
    ∃ s', Returns clearHashTable s 0 s' ∧ Table s' N [] := by
  obtain ⟨s', hrun, htable⟩ := h.run_clearLoop
  refine ⟨s', ⟨l.length + 1, fun fuel hfuel => ?_⟩, htable⟩
  unfold clearHashTable
  rw [Exec.run_bind_of_ok (run_getFlink isList_fastList), h.rings.fast.next_eq]
  rw [Exec.run_bind_of_ok (hrun fuel hfuel)]
  rfl

end Enum

end StructLib.Hash
