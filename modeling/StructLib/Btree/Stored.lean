import StructLib.Btree.Node
import StructLib.Lib.Levels

set_option autoImplicit false

/-! # Trees of levels in memory

The nodes in memory are the blocks of a tree of levels (`Stored`). What a piece of the code does to
the other nodes is said by three relations between the states before and after it: `Agree` (nodes
elsewhere do not change), `Writes` (nothing is allocated or freed) and `Moves` (the nodes at the
addresses `as` have become the nodes at `as'`). -/

namespace StructLib.Btree

variable {w : ℕ} {geo : Geo}

/-- A node and its interval of keys. -/
abbrev Blk (w : ℕ) := Block ℕ (BitVec w)

/-- The addresses of the nodes of some levels. -/
def addrs (us : List (List (Blk w))) : List (BitVec w) := us.flatten.map (·.addr)

/-- The blocks of the levels are the nodes in memory. -/
structure Stored (geo : Geo) (s : BtreeMem w) (us : List (List (Blk w))) : Prop where
  holds : ∀ b ∈ us.flatten, ∃ nd, s.nodes b.addr = some nd ∧ nd.Holds geo b.entries
  nodup : (addrs us).Nodup
  null : s.nodes 0 = none
  root : ∃ b, us.getLast? = some [b] ∧ b.addr = s.node

/-- Only nodes at the given addresses change, or nodes that were not allocated. -/
def Agree (as : List (BitVec w)) (s s' : BtreeMem w) : Prop :=
  ∀ a, a ∉ as → s.nodes a ≠ none → s'.nodes a = s.nodes a

/-- Nothing has happened but changes of allocated nodes at the given addresses. -/
structure Writes (as : List (BitVec w)) (s s' : BtreeMem w) : Prop where
  agree : Agree as s s'
  none : ∀ a, s.nodes a = none → s'.nodes a = none
  node : s'.node = s.node
  height : s'.height = s.height

/-- The pointer leads to the key, and will do so while other nodes change. -/
def KeyPtr.Reads (geo : Geo) (key : KeyPtr w) (s : BtreeMem w) (as : List (BitVec w))
    (k : List (BitVec w)) : Prop :=
  k.length = geo.keylen ∧ ∀ s', Agree as s s' → (key.read geo).run s' = .ok (k, s')

section Agree

variable {as as' : List (BitVec w)} {s s' s'' : BtreeMem w} {key : KeyPtr w} {k : List (BitVec w)}
  {a : BitVec w} {nd : Node w} {n : ℕ}

theorem Agree.refl (as : List (BitVec w)) (s : BtreeMem w) : Agree as s s := fun _ _ _ => rfl

theorem Agree.trans (h : Agree as s s') (h' : Agree as s' s'') : Agree as s s'' := by
  intro a ha hne
  have heq := h a ha hne
  rw [← heq]
  exact h' a ha (heq ▸ hne)

theorem Agree.mono (h : Agree as s s') (hsub : ∀ a ∈ as, a ∈ as') : Agree as' s s' :=
  fun a ha hne => h a (fun hmem => ha (hsub a hmem)) hne

theorem agree_setNode (ha : a ∈ as) : Agree as s (s.setNode a nd) := by
  intro b hb _
  exact setNode_nodes_of_ne fun heq => hb (heq ▸ ha)

theorem Writes.refl (as : List (BitVec w)) (s : BtreeMem w) : Writes as s s :=
  ⟨Agree.refl as s, fun _ h => h, rfl, rfl⟩

theorem Writes.trans (h : Writes as s s') (h' : Writes as s' s'') : Writes as s s'' :=
  ⟨h.agree.trans h'.agree, fun a ha => h'.none a (h.none a ha), h'.node.trans h.node,
    h'.height.trans h.height⟩

theorem Writes.mono (h : Writes as s s') (hsub : ∀ a ∈ as, a ∈ as') : Writes as' s s' :=
  ⟨h.agree.mono hsub, h.none, h.node, h.height⟩

theorem writes_setNode {nd' : Node w} (ha : a ∈ as) (h : s.nodes a = some nd') :
    Writes as s (s.setNode a nd) := by
  refine ⟨agree_setNode ha, ?_, rfl, rfl⟩
  intro b hb
  have hne : b ≠ a := by
    rintro rfl
    rw [h] at hb
    cases hb
  rw [setNode_nodes_of_ne hne, hb]

/-- The nodes at `as` have become the nodes at `as'`, and no other node has changed. -/
structure Moves (as as' : List (BitVec w)) (s s' : BtreeMem w) : Prop where
  agree : Agree as s s'
  new : ∀ a ∈ as', a ∈ as ∨ s.nodes a = none
  left : ∀ a, s'.nodes a ≠ none → a ∈ as' ∨ a ∉ as ∧ s.nodes a ≠ none

variable {bs : List (BitVec w)}

theorem Writes.moves (h : Writes as s s') : Moves as as s s' := by
  refine ⟨h.agree, fun a ha => .inl ha, ?_⟩
  intro a ha
  by_cases hmem : a ∈ as
  · exact .inl hmem
  · exact .inr ⟨hmem, fun hnone => ha (h.none a hnone)⟩

theorem Moves.not_mem (h : Moves as as' s s') (ha : a ∉ as) (hne : s.nodes a ≠ none) : a ∉ as' :=
  fun hmem => (h.new a hmem).elim ha hne

theorem Moves.trans (h : Moves as bs s s') (h' : Moves bs as' s' s'') : Moves as as' s s'' := by
  have hkeep : ∀ a, a ∉ as → s.nodes a ≠ none → s'.nodes a ≠ none := by
    intro a ha hne
    rw [h.agree a ha hne]
    exact hne
  refine ⟨?_, ?_, ?_⟩
  · intro a ha hne
    rw [h'.agree a (h.not_mem ha hne) (hkeep a ha hne), h.agree a ha hne]
  · intro a ha
    by_contra hcon
    rw [not_or] at hcon
    rcases h'.new a ha with hmem | hnone
    · exact h.not_mem hcon.1 hcon.2 hmem
    · exact hkeep a hcon.1 hcon.2 hnone
  · intro a ha
    rcases h'.left a ha with hmem | ⟨hmem, hne⟩
    · exact .inl hmem
    · exact .inr ((h.left a hne).resolve_left hmem)

/-- More nodes that stay where they are. -/
theorem Moves.append (h : Moves as as' s s') (bs : List (BitVec w)) :
    Moves (bs ++ as) (bs ++ as') s s' := by
  refine ⟨h.agree.mono fun a ha => List.mem_append_right _ ha, ?_, ?_⟩
  · intro a ha
    rcases List.mem_append.1 ha with ha | ha
    · exact .inl (List.mem_append_left _ ha)
    · exact (h.new a ha).imp_left (List.mem_append_right _)
  · intro a ha
    by_cases hmem : a ∈ bs
    · exact .inl (List.mem_append_left _ hmem)
    · rcases h.left a ha with ha | ⟨ha, hne⟩
      · exact .inl (List.mem_append_right _ ha)
      · refine .inr ⟨?_, hne⟩
        rw [List.mem_append, not_or]
        exact ⟨hmem, ha⟩

theorem Moves.of_nodes_eq (h : Moves as as' s s') (hs : s''.nodes = s'.nodes) :
    Moves as as' s s'' := by
  refine ⟨?_, h.new, ?_⟩
  · intro a ha hne
    rw [hs, h.agree a ha hne]
  · intro a ha
    rw [hs] at ha
    exact h.left a ha

theorem Moves.congr {cs : List (BitVec w)} (h : Moves as as' s s') (hbs : ∀ a, a ∈ bs ↔ a ∈ as)
    (hcs : ∀ a, a ∈ cs ↔ a ∈ as') : Moves bs cs s s' := by
  refine ⟨h.agree.mono fun a ha => (hbs a).2 ha, ?_, ?_⟩
  · intro a ha
    exact (h.new a ((hcs a).1 ha)).imp_left (hbs a).2
  · intro a ha
    exact (h.left a ha).imp (hcs a).2 fun ⟨hmem, hne⟩ => ⟨fun hmem' => hmem ((hbs a).1 hmem'), hne⟩

theorem KeyPtr.Reads.run (h : key.Reads geo s as k) : (key.read geo).run s = .ok (k, s) :=
  h.2 s (Agree.refl as s)

theorem KeyPtr.Reads.of_agree (h : key.Reads geo s as k) (hs : Agree as s s') :
    key.Reads geo s' as k :=
  ⟨h.1, fun s'' hs' => h.2 s'' (hs.trans hs')⟩

theorem KeyPtr.Reads.mono (h : key.Reads geo s as k) (hsub : ∀ a ∈ as', a ∈ as) :
    key.Reads geo s as' k :=
  ⟨h.1, fun s' hs => h.2 s' (hs.mono hsub)⟩

theorem KeyPtr.Reads.of_moves (h : key.Reads geo s as k) (hs : Moves as as' s s') :
    key.Reads geo s' as' k := by
  refine ⟨h.1, fun s'' hs' => h.2 s'' ?_⟩
  intro a ha hne
  have heq := hs.agree a ha hne
  rw [← heq]
  exact hs' a (hs.not_mem ha hne) (heq ▸ hne)

theorem reads_caller (hlen : k.length = geo.keylen) : (KeyPtr.caller k).Reads geo s as k :=
  ⟨hlen, fun _ _ => run_read_caller⟩

theorem reads_slot (ha : a ∉ as) (h : s.nodes a = some nd) (hn : n < geo.noPairs) :
    (KeyPtr.slot a n).Reads geo s as (bkey geo nd n) := by
  refine ⟨length_bkey nd n, ?_⟩
  intro s' hs
  exact run_read_slot (by rw [hs a ha (by simp [h]), h]) hn

end Agree

section Stored

variable {s s' : BtreeMem w} {us : List (List (Blk w))} {row row' par pre post : List (Blk w)}
  {above above' : List (List (Blk w))} {b b' : Blk w}

theorem addrs_cons : addrs (row :: above) = row.map (·.addr) ++ addrs above := by
  rw [addrs, List.flatten_cons, List.map_append]
  rfl

theorem mem_addrs {a : BitVec w} (h : a ∈ row.map (·.addr)) : a ∈ addrs (row :: above) := by
  rw [addrs_cons]
  exact List.mem_append_left _ h

theorem Stored.tail (h : Stored geo s (row :: par :: above)) : Stored geo s (par :: above) := by
  obtain ⟨b, hb, hroot⟩ := h.root
  have hnd := h.nodup
  rw [addrs_cons, List.nodup_append] at hnd
  refine ⟨?_, hnd.2.1, h.null, b, by rwa [List.getLast?_cons_cons] at hb, hroot⟩
  intro b hb
  exact h.holds b (by
    rw [List.flatten_cons]
    exact List.mem_append_right _ hb)

theorem Stored.cons (h : Stored geo s (par :: above))
    (hrow : ∀ b ∈ row, ∃ nd, s.nodes b.addr = some nd ∧ nd.Holds geo b.entries)
    (hnd : (addrs (row :: par :: above)).Nodup) : Stored geo s (row :: par :: above) := by
  obtain ⟨b, hb, hroot⟩ := h.root
  refine ⟨?_, hnd, h.null, b, by rwa [List.getLast?_cons_cons], hroot⟩
  intro b hb
  rw [List.flatten_cons, List.mem_append] at hb
  rcases hb with hb | hb
  · exact hrow b hb
  · exact h.holds b hb

/-- What other nodes hold does not change. -/
theorem Stored.holds_of_agree {as : List (BitVec w)} (h : Stored geo s us) (hs : Agree as s s')
    (hb : b ∈ us.flatten) (ha : b.addr ∉ as) :
    ∃ nd, s'.nodes b.addr = some nd ∧ nd.Holds geo b.entries := by
  obtain ⟨nd, hnode, hnd⟩ := h.holds b hb
  exact ⟨nd, by rw [hs _ ha (by simp [hnode]), hnode], hnd⟩

theorem addrs_eq_of_map (h : above'.map (·.map (·.addr)) = above.map (·.map (·.addr))) :
    addrs above' = addrs above := by
  rw [addrs, addrs, List.map_flatten, List.map_flatten, h]

theorem Stored.nodup_row (h : Stored geo s (row :: above)) : (row.map (·.addr)).Nodup := by
  have hnd := h.nodup
  rw [addrs_cons, List.nodup_append] at hnd
  exact hnd.1

theorem Stored.not_mem_above (h : Stored geo s (row :: above)) (hb : b ∈ row) :
    b.addr ∉ addrs above := by
  have hnd := h.nodup
  rw [addrs_cons, List.nodup_append] at hnd
  intro hmem
  exact hnd.2.2 _ (List.mem_map_of_mem hb) _ hmem rfl

theorem Stored.exists_node (h : Stored geo s (row :: above)) (hb : b ∈ row) :
    ∃ nd, s.nodes b.addr = some nd ∧ nd.Holds geo b.entries :=
  h.holds b (by
    rw [List.flatten_cons]
    exact List.mem_append_left _ hb)

theorem Stored.addr_ne_zero (h : Stored geo s us) (hb : b ∈ us.flatten) : b.addr ≠ 0 := by
  obtain ⟨nd, hnd, -⟩ := h.holds b hb
  intro h0
  rw [h0, h.null] at hnd
  cases hnd

theorem Stored.root_ne_zero (h : Stored geo s us) : s.node ≠ 0 := by
  obtain ⟨c, hc, hroot⟩ := h.root
  rw [← hroot]
  exact h.addr_ne_zero (List.mem_flatten.2 ⟨[c], List.mem_of_getLast? hc, by simp⟩)

/-- A block somewhere in the levels gets other entries. -/
theorem Stored.setNode {u v : List (List (Blk w))} {c : Blk w} {nd : Node w}
    (h : Stored geo s (u ++ (pre ++ b :: post) :: v)) (haddr : c.addr = b.addr)
    (hnd : nd.Holds geo c.entries) :
    Stored geo (s.setNode b.addr nd) (u ++ (pre ++ c :: post) :: v) := by
  have hnodup := h.nodup
  have hb0 : b.addr ≠ 0 := h.addr_ne_zero (by simp)
  refine ⟨?_, ?_, ?_, ?_⟩
  · intro d hd
    by_cases hdb : d.addr = b.addr
    · have hdc : d = c := by
        simp only [addrs, List.flatten_append, List.flatten_cons, List.map_append, List.map_cons,
          List.nodup_append, List.nodup_cons, List.mem_append, List.mem_cons, List.mem_map]
          at hnodup hd
        grind
      subst hdc
      exact ⟨nd, by rw [hdb, setNode_nodes_self], hnd⟩
    · have hd' : d ∈ (u ++ (pre ++ b :: post) :: v).flatten := by
        simp only [List.flatten_append, List.flatten_cons, List.mem_append, List.mem_cons] at hd ⊢
        rcases hd with hd | (hd | rfl | hd) | hd
        · exact .inl hd
        · exact .inr (.inl (.inl hd))
        · exact absurd haddr hdb
        · exact .inr (.inl (.inr (.inr hd)))
        · exact .inr (.inr hd)
      obtain ⟨nd', hnode, hnd'⟩ := h.holds d hd'
      exact ⟨nd', by rw [setNode_nodes_of_ne hdb, hnode], hnd'⟩
  · simpa [addrs, haddr] using hnodup
  · rw [setNode_nodes_of_ne hb0.symm, h.null]
  · obtain ⟨d, hd, hroot⟩ := h.root
    rcases List.eq_nil_or_concat v with rfl | ⟨v, last, rfl⟩
    · rw [List.getLast?_append] at hd
      obtain ⟨rfl, rfl, rfl⟩ : pre = [] ∧ b = d ∧ post = [] := by
        cases pre with
        | nil => simpa using hd
        | cons d pre => simp at hd
      exact ⟨c, by simp, haddr.trans hroot⟩
    · refine ⟨d, ?_, hroot⟩
      rw [List.concat_eq_append, ← List.cons_append, ← List.append_assoc,
        List.getLast?_concat] at hd ⊢
      exact hd

theorem holds_of_core {r r' : List (Blk w)} (hcore : r'.map Block.core = r.map Block.core)
    (h : ∀ b ∈ r, ∃ nd, s.nodes b.addr = some nd ∧ nd.Holds geo b.entries) :
    ∀ b ∈ r', ∃ nd, s.nodes b.addr = some nd ∧ nd.Holds geo b.entries := by
  intro b hb
  have hmem : b.core ∈ r.map Block.core := hcore ▸ List.mem_map_of_mem hb
  obtain ⟨c, hc, hcb⟩ := List.mem_map.1 hmem
  obtain ⟨haddr, hes⟩ : c.addr = b.addr ∧ c.entries = b.entries := by
    simpa [Block.core] using hcb
  rw [← haddr, ← hes]
  exact h c hc

theorem addr_eq_of_core {r r' : List (Blk w)} (hcore : r'.map Block.core = r.map Block.core) :
    r'.map (·.addr) = r.map (·.addr) := by
  have := congrArg (List.map Prod.fst) hcore
  rwa [List.map_map, List.map_map] at this

/-- The intervals of the blocks are not in memory. -/
theorem Stored.congr {us' : List (List (Blk w))} (h : Stored geo s us)
    (hcore : us'.map (·.map Block.core) = us.map (·.map Block.core)) : Stored geo s us' := by
  have hflat : us'.flatten.map Block.core = us.flatten.map Block.core := by
    rw [List.map_flatten, List.map_flatten, hcore]
  refine ⟨holds_of_core hflat h.holds, ?_, h.null, ?_⟩
  · rw [addrs, addr_eq_of_core hflat]
    exact h.nodup
  · obtain ⟨b, hb, hroot⟩ := h.root
    have hlast : us'.getLast?.map (·.map Block.core) = some [b.core] := by
      rw [← List.getLast?_map, hcore, List.getLast?_map, hb]
      rfl
    obtain ⟨row, hrow, hmap⟩ := Option.map_eq_some_iff.1 hlast
    obtain ⟨c, rfl, hc⟩ := List.map_eq_singleton_iff.1 hmap
    exact ⟨c, hrow, (congrArg Prod.fst hc).trans hroot⟩

/-- Other nodes have changed. -/
theorem Stored.of_agree {as : List (BitVec w)} (h : Stored geo s us) (hs : Agree as s s')
    (has : ∀ b ∈ us.flatten, b.addr ∉ as) (hnull : s'.nodes 0 = none) (hroot : s'.node = s.node) :
    Stored geo s' us := by
  refine ⟨fun b hb => h.holds_of_agree hs hb (has b hb), h.nodup, hnull, ?_⟩
  rw [hroot]
  exact h.root

/-- The rows above have changed, and what the row holds has not. -/
theorem Stored.row_of_agree (h : Stored geo s (row :: above)) (hs : Agree (addrs above) s s') :
    ∀ b ∈ row, ∃ nd, s'.nodes b.addr = some nd ∧ nd.Holds geo b.entries :=
  fun _ hb => h.holds_of_agree hs (List.mem_flatten.2 ⟨row, by simp, hb⟩) (h.not_mem_above hb)

theorem Stored.not_mem_of_moves {as : List (BitVec w)} (h : Stored geo s (row :: above))
    (hs : Moves (addrs above) as s s') (hb : b ∈ row) : b.addr ∉ as := by
  obtain ⟨nd, hnode, -⟩ := h.exists_node hb
  exact hs.not_mem (h.not_mem_above hb) (by simp [hnode])

theorem Stored.of_moves (h : Stored geo s (row :: above)) (h' : Stored geo s' (par :: above'))
    (hs : Moves (addrs above) (addrs (par :: above')) s s') :
    Stored geo s' (row :: par :: above') := by
  refine h'.cons (h.row_of_agree hs.agree) ?_
  rw [addrs_cons, List.nodup_append]
  refine ⟨h.nodup_row, h'.nodup, ?_⟩
  rintro a ha _ ha' rfl
  obtain ⟨b, hb, rfl⟩ := List.mem_map.1 ha
  exact h.not_mem_of_moves hs hb ha'

end Stored

/-! ## The tree from a level on -/

/-- The levels from `level` on are in memory. -/
structure TreeAt (geo : Geo) (bot top level : ℕ) (P R : List (ℕ × BitVec w) → Prop)
    (s : BtreeMem w) (us : List (List (Blk w))) : Prop where
  levels : Levels geo.noPairs bot top P R us
  stored : Stored geo s us
  height : s.height + 1 = level + us.length

section TreeAt

variable {bot top level : ℕ} {P R : List (ℕ × BitVec w) → Prop} {s s' : BtreeMem w}
  {row par par' : List (Blk w)} {above above' : List (List (Blk w))}

theorem TreeAt.tail (h : TreeAt geo bot top level P R s (row :: par :: above)) :
    TreeAt geo bot top (level + 1) (fun es => Shape geo.noPairs (weights row es)) (Top geo.noPairs) s
      (par :: above) := by
  refine ⟨h.levels.2.2, h.stored.tail, ?_⟩
  have := h.height
  rw [List.length_cons] at this
  omega

theorem TreeAt.imp {P' R' : List (ℕ × BitVec w) → Prop}
    (h : TreeAt geo bot top level P R s (row :: above)) (hP : ∀ b ∈ row, P b.entries → P' b.entries)
    (hR : above = [] → ∀ b ∈ row, R b.entries → R' b.entries) :
    TreeAt geo bot top level P' R' s (row :: above) :=
  ⟨h.levels.imp hP hR, h.stored, h.height⟩

/-- The rows above have changed, and the children of the lowest one of them are the same. -/
theorem TreeAt.of_above (h : TreeAt geo bot top level P R s (row :: par :: above))
    (h' : TreeAt geo bot top (level + 1) (fun es => Shape geo.noPairs (weights row es))
      (Top geo.noPairs) s' (par' :: above'))
    (hkids : kids par' = kids par)
    (hs : Moves (addrs (par :: above)) (addrs (par' :: above')) s s') :
    TreeAt geo bot top level P R s' (row :: par' :: above') := by
  refine ⟨⟨h.levels.1, ?_, h'.levels⟩, h.stored.of_moves h'.stored hs, ?_⟩
  · rw [hkids, h.levels.2.1]
  · rw [h'.height]
    simp only [List.length_cons]
    omega

/-- No block with a parent is empty. -/
theorem TreeAt.entries_pos {b : Blk w} (h : TreeAt geo bot top level P R s (row :: par :: above))
    (hb : b ∈ row) : 0 < b.entries.length := by
  obtain ⟨pre, post, rfl⟩ := List.append_of_mem hb
  obtain ⟨pp, p, qq, ep₁, ep₂, rfl, hp, -, -, -⟩ := h.levels.exists_parent
  have hshape := (h.levels.2.2.rowOK p (by simp)).2
  rw [hp, weights_append, weights_cons] at hshape
  rw [← fill_mid h.stored.nodup_row]
  exact hshape.pos_mid

/-- Nodes elsewhere have changed. -/
theorem TreeAt.of_agree {us : List (List (Blk w))} {as : List (BitVec w)}
    (h : TreeAt geo bot top level P R s us) (hs : Agree as s s')
    (has : ∀ b ∈ us.flatten, b.addr ∉ as) (hnull : s'.nodes 0 = none) (hroot : s'.node = s.node)
    (hheight : s'.height = s.height) : TreeAt geo bot top level P R s' us :=
  ⟨h.levels, h.stored.of_agree hs has hnull hroot, hheight ▸ h.height⟩

end TreeAt

end StructLib.Btree
