import StructLib.Btree.Rebalance
import StructLib.Lib.Ordered

set_option autoImplicit false

/-! # What a B+tree holds

`Holding` relates the memory to the entries of the tree, and `btree_insert` and `btree_remove` do to
the entries what their names say. -/

namespace StructLib.Btree

variable {w : ℕ} {geo : Geo}

/-! ## Recursion over the levels -/

section Below

theorem insertLevelWith_below {retry retry' : KeyPtr w → BitVec w → ℕ → Exec (BtreeMem w) ℤ}
    (h : ∀ key val level, Exec.Below (retry key val level) (retry' key val level)) (key : KeyPtr w)
    (val : BitVec w) (level : ℕ) :
    Exec.Below (insertLevelWith geo retry key val level) (insertLevelWith geo retry' key val level) := by
  unfold insertLevelWith
  refine (Exec.Below.refl _).ite (.bind_right _ fun s => ?_)
  refine Exec.Below.ite (.bind_right _ fun err => ?_) (h key val level)
  exact (Exec.Below.refl _).ite (h key val level)

theorem insertLevelRetry_below (geo : Geo) (fuel : ℕ) (key : KeyPtr w) (val : BitVec w) (level : ℕ) :
    Exec.Below (insertLevelRetry geo fuel key val level)
      (insertLevelRetry geo (fuel + 1) key val level) := by
  induction fuel generalizing key val level with
  | zero => exact Exec.below_outOfFuel _
  | succ fuel ih =>
      conv_lhs => unfold insertLevelRetry
      conv_rhs => unfold insertLevelRetry
      refine .bind_right _ fun node => .bind_right _ fun nd => .bind_right _ fun k => ?_
      refine (Exec.Below.refl _).ite (Exec.Below.ite (.bind_right _ fun new => ?_) (.refl _))
      refine (Exec.Below.refl _).ite ?_
      refine (insertLevelWith_below ih _ _ _).bind fun err => (Exec.Below.refl _).ite ?_
      exact .bind_right _ fun _ => ih key val level

variable {removeLevel removeLevel' : KeyPtr w → ℕ → Exec (BtreeMem w) (BitVec w)}

theorem merge_below (h : ∀ key level, Exec.Below (removeLevel key level) (removeLevel' key level))
    (level : ℕ) (left : BitVec w) (lfill : ℕ) (right : BitVec w) (rfill : ℕ) (parent : BitVec w)
    (lpos : ℕ) : Exec.Below (merge geo removeLevel level left lfill right rfill parent lpos)
      (merge geo removeLevel' level left lfill right rfill parent lpos) := by
  unfold merge
  refine .bind_right _ fun _ => .bind_right _ fun _ => .bind_right _ fun _ => ?_
  exact (h _ _).bind_left _

theorem rebalance_below (h : ∀ key level, Exec.Below (removeLevel key level) (removeLevel' key level))
    (key : KeyPtr w) (level : ℕ) (child : BitVec w) (fill : ℕ) :
    Exec.Below (rebalance geo removeLevel key level child fill)
      (rebalance geo removeLevel' key level child fill) := by
  have hright : ∀ parent i, Exec.Below (rebalanceRight geo removeLevel level child fill parent i)
      (rebalanceRight geo removeLevel' level child fill parent i) := by
    intro parent i
    unfold rebalanceRight
    refine .bind_right _ fun nd => Exec.Below.ite (.bind_right _ fun right => ?_) (.refl _)
    refine .bind_right _ fun ndr => Exec.Below.ite ?_ (.refl _)
    exact merge_below h _ _ _ _ _ _ _
  unfold rebalance
  refine Exec.Below.ite ((h _ _).bind_left _) (.bind_right _ fun parent => ?_)
  refine .bind_right _ fun nd => .bind_right _ fun k => .bind_right _ fun a => ?_
  refine (Exec.Below.refl _).ite (Exec.Below.ite (.bind_right _ fun left => ?_) (hright _ _))
  refine .bind_right _ fun ndl => Exec.Below.ite ?_ (hright _ _)
  exact merge_below h _ _ _ _ _ _ _

theorem btreeRemoveLevel_below (geo : Geo) (fuel : ℕ) (key : KeyPtr w) (level : ℕ) :
    Exec.Below (btreeRemoveLevel geo fuel key level) (btreeRemoveLevel geo (fuel + 1) key level) := by
  induction fuel generalizing key level with
  | zero => exact Exec.below_outOfFuel _
  | succ fuel ih =>
      have hrefit : ∀ node fill, Exec.Below (refit geo (btreeRemoveLevel geo fuel) key level node fill)
          (refit geo (btreeRemoveLevel geo (fuel + 1)) key level node fill) := by
        intro node fill
        unfold refit
        refine Exec.Below.ite (.bind_right _ fun s => ?_) (.refl _)
        exact Exec.Below.ite (rebalance_below ih _ _ _ _) (.refl _)
      conv_lhs => unfold btreeRemoveLevel
      conv_rhs => unfold btreeRemoveLevel
      refine .bind_right _ fun s => (Exec.Below.refl _).ite (.bind_right _ fun node => ?_)
      refine .bind_right _ fun nd => .bind_right _ fun k => .bind_right _ fun missing => ?_
      refine (Exec.Below.refl _).ite (.bind_right _ fun ret => (Exec.Below.refl _).ite ?_)
      refine .bind_right _ fun _ => .bind_right _ fun _ => ?_
      exact (hrefit _ _).bind_left _

end Below

/-! ## The entries of a tree -/

/-- The tree is made of the nodes at `as` and holds the entries `es`, the greatest key first. Its keys
    are not below `bot`. -/
inductive Holding (geo : Geo) (bot : ℕ) (s : BtreeMem w) :
    List (BitVec w) → List (ℕ × BitVec w) → Prop
  | empty (node : s.node = 0) (height : s.height = 0) (null : s.nodes 0 = none) : Holding geo bot s [] []
  | tree (row : List (Blk w)) (above : List (List (Blk w)))
      (tree : TreeAt geo bot (2 ^ (w * geo.keylen)) 1 (fun _ => True) (fun _ => True) s
        (row :: above)) : Holding geo bot s (addrs (row :: above)) (flat row)

section Holding

variable {s s' : BtreeMem w} {bot : ℕ} {as : List (BitVec w)} {es : List (ℕ × BitVec w)}

theorem Holding.within (h : Holding geo bot s as es) : Within bot (2 ^ (w * geo.keylen)) es := by
  cases h with
  | empty => exact within_nil _ _
  | tree row above tree => exact tree.levels.within_flat

theorem Holding.value_ne_zero (h : Holding geo bot s as es) : ∀ e ∈ es, e.2 ≠ 0 := by
  cases h with
  | empty => simp
  | tree row above tree =>
      intro e he
      obtain ⟨b, hb, he⟩ := List.mem_flatMap.1 he
      obtain ⟨nd, -, hnd⟩ := tree.stored.exists_node hb
      exact hnd.val_ne_zero e he

theorem Holding.null (h : Holding geo bot s as es) : s.nodes 0 = none := by
  cases h with
  | empty _ _ null => exact null
  | tree row above tree => exact tree.stored.null

theorem Holding.nodup (h : Holding geo bot s as es) : as.Nodup := by
  cases h with
  | empty => exact List.nodup_nil
  | tree row above tree => exact tree.stored.nodup

theorem Holding.allocated (h : Holding geo bot s as es) : ∀ a ∈ as, s.nodes a ≠ none := by
  cases h with
  | empty => simp
  | tree row above tree =>
      intro a ha
      obtain ⟨b, hb, rfl⟩ := List.mem_map.1 ha
      obtain ⟨nd, hnode, -⟩ := tree.stored.holds b hb
      simp [hnode]

theorem Holding.of_node_zero (h : Holding geo bot s as es) (hnode : s.node = 0) : as = [] ∧ es = [] := by
  cases h with
  | empty => exact ⟨rfl, rfl⟩
  | tree row above tree => exact absurd hnode tree.stored.root_ne_zero

/-- Nodes elsewhere do not matter. -/
theorem Holding.of_same (h : Holding geo bot s as es) (hnodes : ∀ a ∈ as, s'.nodes a = s.nodes a)
    (hnull : s'.nodes 0 = none) (hnode : s'.node = s.node) (hheight : s'.height = s.height) :
    Holding geo bot s' as es := by
  cases h with
  | empty node height => exact .empty (hnode.trans node) (hheight.trans height) hnull
  | tree row above tree =>
      refine .tree row above ⟨tree.levels, ⟨?_, tree.stored.nodup, hnull, ?_⟩, ?_⟩
      · intro b hb
        rw [hnodes b.addr (List.mem_map_of_mem hb)]
        exact tree.stored.holds b hb
      · rw [hnode]
        exact tree.stored.root
      · rw [hheight]
        exact tree.height

/-- A tree with one node. -/
theorem treeAt_leaf {top : ℕ} {nd : Node w} (hnode : s.nodes s.node = some nd) (hnd : nd.Holds geo es)
    (hw : Within bot top es) (hlt : bot < top) (hnull : s.nodes 0 = none) (hheight : s.height = 1) :
    TreeAt geo bot top 1 (fun _ => True) (fun _ => True) s [[⟨⟨s.node, bot, top⟩, es⟩]] := by
  refine ⟨⟨?_, _, rfl, rfl, rfl, trivial⟩, ⟨?_, by simp [addrs], hnull, _, rfl, rfl⟩, ?_⟩
  · intro b hb
    obtain rfl := List.mem_singleton.1 hb
    exact ⟨⟨hlt, hw, hnd.length_le⟩, trivial⟩
  · intro b hb
    obtain rfl : b = ⟨⟨s.node, bot, top⟩, es⟩ := by simpa using hb
    exact ⟨nd, hnode, hnd⟩
  · rw [hheight]
    rfl

theorem wordsVal_lt_top {key : List (BitVec w)} (hlen : key.length = geo.keylen) :
    wordsVal key < 2 ^ (w * geo.keylen) := hlen ▸ wordsVal_lt key

/-- A tree with one entry. -/
theorem holding_single (key : List (BitVec w)) {val : BitVec w} (hlen : key.length = geo.keylen)
    (hbot : bot ≤ wordsVal key) (hval : val ≠ 0)
    (hnode : s.nodes s.node = some (Node.setpair geo 0 key val fun _ => 0)) (hnull : s.nodes 0 = none)
    (hheight : s.height = 1) : Holding geo bot s [s.node] [(wordsVal key, val)] := by
  have htop := wordsVal_lt_top hlen
  have hw : Within bot (2 ^ (w * geo.keylen)) [(wordsVal key, val)] :=
    within_cons.2 ⟨hbot, htop, within_nil _ _⟩
  exact .tree _ [] (treeAt_leaf hnode (holds_single hlen hval) hw (hbot.trans_lt htop) hnull hheight)

end Holding

/-! ## Insertion -/

section Insert

variable {s : BtreeMem w} {bot : ℕ} {as : List (BitVec w)} {es : List (ℕ × BitVec w)}
  {key : List (BitVec w)} {val : BitVec w}

theorem grows_true (n : ℕ) (k : ℕ) (v : BitVec w) :
    Grows n (fun _ => True) (fun _ => True) k v :=
  ⟨fun _ _ => trivial, fun _ _ _ => trivial, fun _ _ _ => ⟨trivial, trivial⟩⟩

/-- The new entries of the lowest row. -/
theorem flat_of_inserted {k : ℕ} {row row' : List (Blk w)}
    (h : InsertedInto k val (kids row) (kids row')) : flat row' = insertKey k val (flat row) := by
  obtain ⟨es₁, es₂, hes, hes', h₁, h₂⟩ := h.entries
  rw [map_kids] at hes hes'
  rw [hes, hes', insertKey_eq h₁ h₂]

/-- `btree_insert_level` with the lowest level, in a tree. -/
theorem TreeAt.exists_returns_insert {row : List (Blk w)} {above : List (List (Blk w))}
    (ht : TreeAt geo bot (2 ^ (w * geo.keylen)) 1 (fun _ => True) (fun _ => True) s (row :: above))
    (hlen : key.length = geo.keylen) (hbot : bot ≤ wordsVal key) (hval : val ≠ 0)
    (habs : ∀ e ∈ flat row, e.1 ≠ wordsVal key) : ∃ r s' as',
      Returns (fun fuel => insertLevelRetry geo fuel (.caller key) val 1) s r s' ∧
      Moves (addrs (row :: above)) as' s s' ∧
      (r = 0 ∧ Holding geo bot s' as' (insertKey (wordsVal key) val (flat row)) ∨
        r = -ENOMEM ∧ Holding geo bot s' as' (flat row)) := by
  have hinsert : ∃ r s' row' above',
      (insertLevelRetry geo (above.length + 2) (.caller key) val 1).run s = .ok (r, s') ∧
      Moves (addrs (row :: above)) (addrs (row' :: above')) s s' ∧
      (r = 0 ∧ TreeAt geo bot (2 ^ (w * geo.keylen)) 1 (fun _ => True) (fun _ => True) s'
            (row' :: above') ∧ InsertedInto (wordsVal key) val (kids row) (kids row') ∨
        r = -ENOMEM ∧ TreeAt geo bot (2 ^ (w * geo.keylen)) 1 (fun _ => True) (fun _ => True) s'
            (row' :: above') ∧ row'.map Block.body = row.map Block.body) :=
    inserts geo bot _ above.length (le_refl _) rfl ht (grows_true _ _ _) (fun _ _ _ _ => trivial) hbot
      (wordsVal_lt_top hlen) (reads_caller hlen) hval habs
  obtain ⟨r, s', row', above', hrun, hmoves, hcase⟩ := hinsert
  refine ⟨r, s', _, Returns.of_below (fun n => insertLevelRetry_below geo n _ _ _) hrun, hmoves, ?_⟩
  rcases hcase with ⟨rfl, ht', hins⟩ | ⟨rfl, ht', hbody⟩
  · refine .inl ⟨rfl, ?_⟩
    rw [← flat_of_inserted hins]
    exact .tree row' above' ht'
  · refine .inr ⟨rfl, ?_⟩
    rw [← flat_eq_of_body hbody]
    exact .tree row' above' ht'

/-- `btree_insert` adds the entry, or it says that there is no memory and leaves the entries as they
    are. -/
theorem Holding.exists_returns_insert (h : Holding geo bot s as es) (hlen : key.length = geo.keylen)
    (hbot : bot ≤ wordsVal key) (hval : val ≠ 0) (habs : ∀ e ∈ es, e.1 ≠ wordsVal key) :
    ∃ r s' as', Returns (fun fuel => btreeInsert geo fuel key val) s r s' ∧ Moves as as' s s' ∧
      (r = 0 ∧ Holding geo bot s' as' (insertKey (wordsVal key) val es) ∨
        r = -ENOMEM ∧ Holding geo bot s' as' es) := by
  have htop := wordsVal_lt_top hlen
  cases h with
  | tree row above tree =>
      obtain ⟨r, s', as', hret, hrest⟩ := tree.exists_returns_insert hlen hbot hval habs
      refine ⟨r, s', as', Returns.congr (fun fuel => ?_) hret, hrest⟩
      have hheight := tree.height
      rw [List.length_cons] at hheight
      unfold btreeInsert btreeInsertLevel insertLevelWith
      rw [if_neg hval, Exec.run_get_bind, if_neg (by omega)]
  | empty node height null =>
      obtain ⟨a, s₁, halloc, hnode₁, hheight₁, hcase⟩ := run_btreeNodeAlloc s
      have hstart : ∀ fuel, (btreeInsert geo fuel key val).run s = StateT.run (do
          let err ← btreeGrow geo
          if err ≠ 0 then return err else insertLevelRetry geo fuel (.caller key) val 1) s := by
        intro fuel
        unfold btreeInsert btreeInsertLevel insertLevelWith
        rw [if_neg hval, Exec.run_get_bind, if_pos (by omega)]
      rcases hcase with ⟨rfl, hnodes⟩ | ⟨ha, hnone, hnodes⟩
      · have hgrow : (btreeGrow geo).run s = .ok (-ENOMEM, s₁) := by
          unfold btreeGrow
          rw [Exec.run_bind_of_ok halloc]
          rfl
        refine ⟨-ENOMEM, s₁, [], ⟨0, fun fuel _ => ?_⟩, moves_of_nodes_eq hnodes, .inr ⟨rfl, ?_⟩⟩
        · rw [hstart, Exec.run_bind_of_ok hgrow]
          rfl
        · exact .empty (hnode₁.trans node) (hheight₁.trans height) (by rw [hnodes, null])
      · -- the first node of the tree
        let s₂ : BtreeMem w := { s₁ with node := a, height := s₁.height + 1 }
        have hgrow : (btreeGrow geo).run s = .ok (0, s₂) := by
          unfold btreeGrow
          rw [Exec.run_bind_of_ok halloc, if_neg ha, Exec.run_get_bind, if_neg (by simp [hnode₁, node])]
          rfl
        have hnew : s₂.nodes a = some fun _ => 0 := by
          show s₁.nodes a = _
          rw [hnodes, Function.update_self]
        have hnull : s₂.nodes 0 = none := by
          show s₁.nodes 0 = none
          rw [hnodes, Function.update_of_ne ha.symm, null]
        have hone : s₂.height = 1 := by
          show s₁.height + 1 = 1
          rw [hheight₁, height]
        have ht : TreeAt geo bot (2 ^ (w * geo.keylen)) 1 (fun _ => True) (fun _ => True) s₂
            [[⟨⟨a, bot, 2 ^ (w * geo.keylen)⟩, []⟩]] :=
          treeAt_leaf hnew holds_nil (within_nil bot _) (hbot.trans_lt htop) hnull hone
        obtain ⟨r, s', as', hret, hmoves, hcase⟩ := ht.exists_returns_insert hlen hbot hval (by simp)
        have hmoves₂ : Moves [] [a] s s₂ := moves_alloc hnone hnodes
        refine ⟨r, s', as', Returns.congr (fun fuel => ?_) hret, hmoves₂.trans hmoves, hcase⟩
        rw [hstart, Exec.run_bind_of_ok hgrow]
        rfl

end Insert

/-! ## Removal -/

section Remove

variable {s : BtreeMem w} {bot : ℕ} {as : List (BitVec w)} {es : List (ℕ × BitVec w)}
  {es₁ es₂ : List (ℕ × BitVec w)} {key : List (BitVec w)} {a val : BitVec w} {nd : Node w}

/-- `btree_remove` takes the entry out and returns its value. Where `no_pairs` is odd, the last entry
    of a tree with more than one level is left out. -/
theorem Holding.exists_returns_remove (h : Holding geo bot s as es) (hlen : key.length = geo.keylen)
    (hmem : (wordsVal key, val) ∈ es)
    (hmore : geo.noPairs % 2 = 0 ∨ s.height = 1 ∨ 2 ≤ es.length) : ∃ s' as',
      Returns (fun fuel => btreeRemove geo fuel key) s val s' ∧ Moves as as' s s' ∧
      Holding geo bot s' as' (eraseKey (wordsVal key) es) := by
  cases h with
  | empty => cases hmem
  | tree row above tree =>
      obtain ⟨b, hb, he⟩ := List.mem_flatMap.1 hmem
      obtain ⟨pre, post, rfl⟩ := List.append_of_mem hb
      obtain ⟨es₁, es₂, hes⟩ := List.append_of_mem he
      have hheight := tree.height
      rw [List.length_cons] at hheight
      have hw := (tree.levels.rowOK b hb).1.within
      have hflat : flat (pre ++ b :: post) =
          (flat pre ++ es₁) ++ (wordsVal key, val) :: (es₂ ++ flat post) := by
        rw [flat_append, flat_cons, hes]
        simp
      have hall := tree.levels.within_flat
      rw [hflat] at hall
      obtain ⟨h₁, h₂⟩ := hall.around
      have hremoval : Removal geo bot (2 ^ (w * geo.keylen)) 1 (fun _ => True) (fun _ => True) s pre b
          post above es₁ (wordsVal key, val) es₂ (.caller key) (wordsVal key) := by
        refine ⟨tree.imp (fun _ _ h => h) fun _ _ _ _ hne => absurd rfl hne, le_refl _, hes,
          ⟨hw.le_key _ he, hw.lt_hi _ he⟩, ?_, le_refl _, fun _ => rfl, .inl ⟨key, rfl, hlen, rfl⟩,
          fun _ _ => trivial, fun _ => ⟨trivial, trivial⟩, fun _ _ _ _ _ => ⟨trivial, trivial⟩, ?_⟩
        · exact fun x hx => h₁ x (List.mem_append_right _ hx)
        · refine hmore.imp_right (Or.imp_left fun hone => ⟨rfl, ?_⟩)
          exact List.length_eq_zero_iff.1 (by omega)
      obtain ⟨s', hrun, S₁, S₂, hS₁, hS₂, -, hafter⟩ :=
        removable geo bot _ above.length (le_refl _) rfl hremoval
      have hret : Returns (fun fuel => btreeRemove geo fuel key) s val s' := by
        refine Returns.congr (fun fuel => ?_)
          (Returns.of_below (fun n => btreeRemoveLevel_below geo n _ _) hrun)
        unfold btreeRemove
        rw [Exec.run_get_bind, if_neg (by omega)]
      cases hafter with
      | gone _ _ _ _ _ habove => exact absurd rfl habove
      | row row' above' tree' kids_eq moves =>
          refine ⟨s', _, hret, moves, ?_⟩
          have hflat' : flat row' = eraseKey (wordsVal key) (flat (pre ++ b :: post)) := by
            rw [hflat, eraseKey_eq h₁ h₂, ← map_kids, kids_eq, List.map_append, hS₁.map_eq,
              hS₂.map_eq, List.map_append, List.map_append, map_kids, map_kids, map_spans, map_spans]
          rw [← hflat']
          exact .tree row' above' (tree'.imp (fun _ _ h => h) fun _ _ _ _ => trivial)

/-- The slot behind the last one, whose key the code may look at, lies in the values. -/
theorem run_read_end (h : s.nodes a = some nd) :
    ((KeyPtr.slot a geo.noPairs).read geo).run s = .ok (bkey geo nd geo.noPairs, s) := by
  have hfits := geo.fits
  have hle := geo.keylen_le_four
  have hfour := geo.four_le_noPairs
  have hmul : (geo.noPairs + 1) * geo.keylen = geo.noLongs + geo.keylen := by
    rw [geo.noLongs_eq, Nat.add_mul, Nat.one_mul]
  unfold KeyPtr.read
  rw [Exec.run_bind_of_ok (run_load h), if_pos (by omega)]
  rfl

/-- What stands behind the keys of a node. -/
theorem head_bkey_end (nd : Node w) : (bkey geo nd geo.noPairs).headD 0 = nd.val geo 0 := by
  obtain ⟨n, hn⟩ : ∃ n, geo.keylen = n + 1 := ⟨geo.keylen - 1, by have := geo.keylen_pos; omega⟩
  unfold bkey Node.val
  rw [hn, List.range_succ_eq_map, List.map_cons, List.headD_cons, geo.noLongs_eq, hn]

/-- The code sees that a key is not in a leaf, as long as the key is not zero, which is what unused
    slots hold, and does not begin with the leaf's first value, which is what follows the keys of a full
    leaf. -/
theorem run_isMissing (h : s.nodes a = some nd) (hnd : nd.Holds geo (es₁ ++ es₂))
    (hlen : key.length = geo.keylen) (h₁ : ∀ e ∈ es₁, wordsVal key < e.1)
    (h₂ : ∀ e ∈ es₂, e.1 < wordsVal key) (hzero : wordsVal key ≠ 0)
    (hhead : ∀ e ∈ es₁ ++ es₂, e.2 ≠ key.headD 0) :
    (isMissing geo a (getpos geo nd key) key 1).run s = .ok (true, s) := by
  have hread : ∃ l : List (BitVec w), l.length = geo.keylen ∧ wordsVal l ≠ wordsVal key ∧
      ((KeyPtr.slot a (getpos geo nd key)).read geo).run s = .ok (l, s) := by
    rw [hnd.getpos_eq hlen h₁ fun e he => (h₂ e he).le]
    cases es₂ with
    | cons e es₂ =>
        obtain ⟨hlt, hpair⟩ := hnd.pair_mid
        have hkey : wordsVal (bkey geo nd es₁.length) = e.1 := congrArg Prod.fst hpair
        exact ⟨_, length_bkey nd _, hkey ▸ (h₂ e (by simp)).ne, run_read_slot h hlt⟩
    | nil =>
        rw [List.append_nil] at hnd hhead
        have hle := hnd.length_le
        by_cases hlt : es₁.length < geo.noPairs
        · -- an unused slot
          have hkey : wordsVal (bkey geo nd es₁.length) = 0 := by
            have := hnd.key_eq hlt
            rwa [List.getD_eq_default _ _ (le_refl _)] at this
          exact ⟨_, length_bkey nd _, hkey ▸ hzero.symm, run_read_slot h hlt⟩
        · -- the first values
          have hfull : es₁.length = geo.noPairs := by omega
          have hfour := geo.four_le_noPairs
          rw [hfull]
          refine ⟨bkey geo nd geo.noPairs, length_bkey nd _, ?_, run_read_end h⟩
          intro heq
          have hkey : bkey geo nd geo.noPairs = key :=
            wordsVal_injective (by rw [length_bkey, hlen]) heq
          refine hhead (es₁.getD 0 (0, 0)) ?_ ?_
          · rw [List.getD_eq_getElem _ _ (by omega)]
            exact List.getElem_mem _
          · rw [← hkey, head_bkey_end, hnd.val_eq (by omega)]
  obtain ⟨l, hl, hne, hrun⟩ := hread
  have hcmp : longcmp l key ≠ 0 := by
    intro heq
    exact hne ((longcmp_eq_zero_iff (by rw [hl, hlen])).1 heq)
  unfold isMissing
  rw [if_pos rfl, Exec.run_bind_of_ok hrun]
  simp [hcmp]

/-- `btree_remove` returns NULL for a key that is not in the tree, and changes no entry. -/
theorem Holding.exists_returns_remove_absent (h : Holding geo bot s as es)
    (hlen : key.length = geo.keylen) (hbot : bot ≤ wordsVal key) (habs : ∀ e ∈ es, e.1 ≠ wordsVal key)
    (hzero : wordsVal key ≠ 0) (hhead : ∀ e ∈ es, e.2 ≠ key.headD 0) : ∃ s',
      Returns (fun fuel => btreeRemove geo fuel key) s 0 s' ∧ Moves as as s s' ∧
      Holding geo bot s' as es := by
  cases h with
  | empty node height null =>
      refine ⟨s, ⟨0, fun fuel _ => ?_⟩, (Writes.refl [] s).moves, .empty node height null⟩
      unfold btreeRemove
      rw [Exec.run_get_bind, if_pos height]
      rfl
  | tree row above tree =>
      have hkey : (KeyPtr.caller key).Reads geo s (addrs above) key := reads_caller hlen
      obtain ⟨s', row', above', b, hfind, tree', hb, hcov, hbody, haddr, hwr⟩ :=
        exists_run_findLevel tree hbot (wordsVal_lt_top hlen) hkey
      have hsub : ∀ e ∈ b.entries, e ∈ flat row := by
        intro e he
        rw [← flat_eq_of_body hbody]
        exact List.mem_flatMap.2 ⟨b, hb, he⟩
      obtain ⟨nd, hnode, hnd⟩ := tree'.stored.exists_node hb
      obtain ⟨es₁, es₂, hes, h₁, h₂⟩ := exists_cut_lt (tree'.levels.rowOK b hb).1.within hcov
        fun e he => habs e (hsub e he)
      rw [hes] at hnd hsub
      have hmissing := run_isMissing hnode hnd hlen h₁ h₂ hzero fun e he => hhead e (hsub e he)
      have hheight := tree.height
      rw [List.length_cons] at hheight
      have hwr' : Writes (addrs (row :: above)) s s' := by
        refine hwr.mono ?_
        intro a ha
        rw [addrs_cons]
        exact List.mem_append_right _ ha
      refine ⟨s', Returns.of_succ ⟨0, fun fuel _ => ?_⟩, hwr'.moves, ?_⟩
      · unfold btreeRemove btreeRemoveLevel
        rw [Exec.run_get_bind, if_neg (by omega), Exec.run_get_bind, if_neg (by omega),
          Exec.run_bind_of_ok hfind, Exec.run_bind_of_ok (run_load hnode),
          Exec.run_bind_of_ok run_read_caller]
        dsimp only
        rw [Exec.run_bind_of_ok hmissing]
        rfl
      · rw [← addrs_eq_of_found hbody haddr, ← flat_eq_of_body hbody]
        exact .tree row' above' tree'

end Remove

end StructLib.Btree
