import StructLib.Btree.Descent

set_option autoImplicit false

/-! # Insertion into a B+tree

`btree_insert_level` puts an entry into the block that covers its key. Where that block is full, it
first makes room by inserting into the level above, and so on up to a new root; the blocks it splits
are those on the way up. It fails only where an allocation does, and then the tree is as before but
for lowered keys. -/

namespace StructLib.Btree

variable {w : ℕ} {geo : Geo}

/-! ## Allocation -/

section Alloc

variable {s : BtreeMem w} {a : BitVec w} {nd : Node w}

theorem run_btreeNodeAlloc (s : BtreeMem w) : ∃ a s', (btreeNodeAlloc).run s = .ok (a, s') ∧
    s'.node = s.node ∧ s'.height = s.height ∧ (a = 0 ∧ s'.nodes = s.nodes ∨
      a ≠ 0 ∧ s.nodes a = none ∧ s'.nodes = Function.update s.nodes a (some fun _ => 0)) := by
  have hrun : (btreeNodeAlloc).run s = mempoolAlloc s := rfl
  unfold mempoolAlloc at hrun
  cases hp : s.pool with
  | nil =>
      rw [hp] at hrun
      exact ⟨0, s, hrun, rfl, rfl, .inl ⟨rfl, rfl⟩⟩
  | cons a pool =>
      rw [hp] at hrun
      dsimp only at hrun
      split_ifs at hrun with hcond
      · exact ⟨0, _, hrun, rfl, rfl, .inl ⟨rfl, rfl⟩⟩
      · rw [not_or, Option.not_isSome_iff_eq_none] at hcond
        exact ⟨a, _, hrun, rfl, rfl, .inr ⟨hcond.1, hcond.2, rfl⟩⟩

def BtreeMem.freeNode (s : BtreeMem w) (a : BitVec w) : BtreeMem w :=
  { s with nodes := Function.update s.nodes a none }

theorem run_mempoolFree (h : s.nodes a = some nd) :
    (mempoolFree a).run s = .ok ((), s.freeNode a) := by
  unfold mempoolFree
  rw [Exec.run_bind_of_ok (run_load h)]
  rfl

theorem freeNode_nodes_self : (s.freeNode a).nodes a = none := Function.update_self ..

theorem freeNode_nodes_of_ne {b : BitVec w} (h : b ≠ a) : (s.freeNode a).nodes b = s.nodes b :=
  Function.update_of_ne h ..

theorem moves_freeNode (s : BtreeMem w) (a : BitVec w) : Moves [a] [] s (s.freeNode a) := by
  refine ⟨?_, by simp, ?_⟩
  · intro b hb _
    exact freeNode_nodes_of_ne (by simpa using hb)
  · intro b hb
    have hne : b ≠ a := by
      intro heq
      rw [heq, freeNode_nodes_self] at hb
      exact hb rfl
    rw [freeNode_nodes_of_ne hne] at hb
    exact .inr ⟨by simpa using hne, hb⟩

theorem moves_of_nodes_eq {s' : BtreeMem w} (h : s'.nodes = s.nodes) : Moves [] [] s s' := by
  refine ⟨?_, by simp, ?_⟩
  · intro a _ _
    rw [h]
  · intro a ha
    rw [h] at ha
    exact .inr ⟨by simp, ha⟩

theorem moves_alloc {s' : BtreeMem w} (ha : s.nodes a = none)
    (hs : s'.nodes = Function.update s.nodes a (some nd)) : Moves [] [a] s s' := by
  refine ⟨?_, ?_, ?_⟩
  · intro b _ hb
    have hne : b ≠ a := by
      rintro rfl
      exact hb ha
    rw [hs, Function.update_of_ne hne]
  · intro b hb
    rw [List.mem_singleton.1 hb]
    exact .inr ha
  · intro b hb
    by_cases hne : b = a
    · exact .inl (by simp [hne])
    · rw [hs, Function.update_of_ne hne] at hb
      exact .inr ⟨by simp, hb⟩

end Alloc

/-! ## A block with room -/

section Room

variable {s : BtreeMem w} {nd : Node w} {es₁ es₂ : List (ℕ × BitVec w)} {a val : BitVec w}
  {key : KeyPtr w} {k : List (BitVec w)} {fuel level : ℕ}

/-- `pos`, `fill` and the check for equal keys. -/
theorem insert_position (hnd : nd.Holds geo (es₁ ++ es₂)) (hlen : k.length = geo.keylen)
    (h₁ : ∀ e ∈ es₁, wordsVal k < e.1) (h₂ : ∀ e ∈ es₂, e.1 < wordsVal k) :
    getpos geo nd k = es₁.length ∧ getfill geo nd es₁.length = es₁.length + es₂.length ∧
      ¬(es₁.length < es₁.length + es₂.length ∧ keycmp geo nd es₁.length k = 0) := by
  refine ⟨hnd.getpos_eq hlen h₁ fun e he => (h₂ e he).le, ?_, ?_⟩
  · rw [hnd.getfill_eq (by simp), List.length_append]
  · rintro ⟨hlt, heq⟩
    cases es₂ with
    | nil => simp at hlt
    | cons e es₂ =>
        have hkey : nd.key geo es₁.length = e.1 := congrArg Prod.fst hnd.pair_mid.2
        unfold keycmp at heq
        rw [longcmp_eq_zero_iff (by rw [length_bkey, hlen])] at heq
        have := h₂ e (by simp)
        unfold Node.key at hkey
        omega

theorem run_insertLevelRetry_room (fuel : ℕ) {s₁ : BtreeMem w}
    (hfind : (findLevel geo key level).run s = .ok (a, s₁)) (hnode : s₁.nodes a = some nd)
    (hnd : nd.Holds geo (es₁ ++ es₂)) (hk : key.Reads geo s₁ [a] k)
    (h₁ : ∀ e ∈ es₁, wordsVal k < e.1) (h₂ : ∀ e ∈ es₂, e.1 < wordsVal k)
    (hroom : es₁.length + es₂.length < geo.noPairs) (hval : val ≠ 0) : ∃ nd',
      (insertLevelRetry geo (fuel + 1) key val level).run s = .ok (0, s₁.setNode a nd') ∧
        nd'.Holds geo (es₁ ++ (wordsVal k, val) :: es₂) := by
  obtain ⟨hpos, hfill, hnew⟩ := insert_position hnd hk.1 h₁ h₂
  have hslots : es₁.length + es₂.length < geo.noPairs := hroom
  obtain ⟨nd₁, hshift, hpair⟩ := run_shiftRight hnode hslots
  have hkey : (key.read geo).run (s₁.setNode a nd₁) = .ok (k, s₁.setNode a nd₁) :=
    hk.2 _ (agree_setNode (List.mem_singleton_self a))
  refine ⟨nd₁.setpair geo es₁.length k val, ?_, hnd.insert (by simpa using hroom) hk.1 hval hpair⟩
  unfold insertLevelRetry
  rw [Exec.run_bind_of_ok hfind, Exec.run_bind_of_ok (run_load hnode), Exec.run_bind_of_ok hk.run,
    hpos]
  dsimp only
  rw [hfill, if_neg hnew, if_neg (by omega), Nat.add_sub_cancel_left, Exec.run_bind_of_ok hshift,
    Exec.run_bind_of_ok (run_setkey hkey setNode_nodes_self (by omega)),
    Exec.run_bind_of_ok (run_setval setNode_nodes_self (by omega))]
  simp only [setNode_setNode]
  rfl

/-- What is left to do where the block is full. -/
theorem run_insertLevelRetry_full (fuel : ℕ) (val : BitVec w) {s₁ : BtreeMem w}
    (hfind : (findLevel geo key level).run s = .ok (a, s₁)) (hnode : s₁.nodes a = some nd)
    (hnd : nd.Holds geo (es₁ ++ es₂)) (hk : (key.read geo).run s₁ = .ok (k, s₁))
    (hlen : k.length = geo.keylen) (h₁ : ∀ e ∈ es₁, wordsVal k < e.1)
    (h₂ : ∀ e ∈ es₂, e.1 < wordsVal k) (hfull : es₁.length + es₂.length = geo.noPairs) :
    (insertLevelRetry geo (fuel + 1) key val level).run s = StateT.run (do
      let new ← btreeNodeAlloc
      if new = 0 then return -ENOMEM
      else
        let err ← insertLevelWith geo (insertLevelRetry geo fuel)
          (.slot a (geo.noPairs / 2 - 1)) new (level + 1)
        if err ≠ 0 then
          mempoolFree new
          return err
        else
          splitNode geo a new geo.noPairs
          insertLevelRetry geo fuel key val level) s₁ := by
  obtain ⟨hpos, hfill, hnew⟩ := insert_position hnd hlen h₁ h₂
  conv =>
    lhs
    unfold insertLevelRetry
  rw [Exec.run_bind_of_ok hfind, Exec.run_bind_of_ok (run_load hnode), Exec.run_bind_of_ok hk, hpos]
  dsimp only
  rw [hfill, if_neg hnew, if_pos hfull, hfull]

end Room

/-! ## The tree with the new entry -/

/-- What is required of the entries of a row is `P` before and `P'` after the entry has come in. -/
structure Grows (n : ℕ) (P P' : List (ℕ × BitVec w) → Prop) (k : ℕ) (v : BitVec w) : Prop where
  keep : ∀ es, P es → P' es
  insert : ∀ es₁ es₂, P (es₁ ++ es₂) → P' (es₁ ++ (k, v) :: es₂)
  split : ∀ es, P es → es.length = n → P (es.take (n / 2)) ∧ P (es.drop (n / 2))

section Block

variable {s : BtreeMem w} {nd : Node w} {es₁ es₂ : List (ℕ × BitVec w)} {val : BitVec w}
  {k level bot top : ℕ} {P P' R R' : List (ℕ × BitVec w) → Prop} {pre post : List (Blk w)}
  {above : List (List (Blk w))} {b : Blk w}

theorem TreeAt.insert (ht : TreeAt geo bot top level P R s ((pre ++ b :: post) :: above))
    (hg : Grows geo.noPairs P P' k val)
    (hR : above = [] → ∀ es₁ es₂, R (es₁ ++ es₂) → R' (es₁ ++ (k, val) :: es₂))
    (hcov : b.Covers k) (hes : b.entries = es₁ ++ es₂) (h₁ : ∀ e ∈ es₁, k < e.1)
    (h₂ : ∀ e ∈ es₂, e.1 < k) (hroom : es₁.length + es₂.length < geo.noPairs)
    (hnd : nd.Holds geo (es₁ ++ (k, val) :: es₂)) :
    TreeAt geo bot top level P' R' (s.setNode b.addr nd)
      ((pre ++ { b with entries := es₁ ++ (k, val) :: es₂ } :: post) :: above) := by
  obtain ⟨hok, hP⟩ := ht.levels.rowOK b (by simp)
  have hw := hok.within
  rw [hes] at hw hP
  refine ⟨?_, ?_, ht.height⟩
  · refine ht.levels.replace ht.stored.nodup_row rfl ?_ ?_ ?_
    · intro c hc
      rcases List.mem_append.1 hc with hc | hc
      · obtain ⟨hok, hP⟩ := ht.levels.rowOK c (by simp [hc])
        exact ⟨hok, hg.keep _ hP⟩
      · rcases List.mem_cons.1 hc with rfl | hc
        · refine ⟨⟨hok.lo_lt_hi, ?_, ?_⟩, hg.insert _ _ hP⟩
          · have hlow := (within_append.1 hw).1
            refine within_insert hw hcov.1 ?_ h₂
            cases hes₁ : es₁.getLast? with
            | none =>
                rw [List.getLast?_eq_none_iff.1 hes₁]
                exact hcov.2
            | some e =>
                obtain ⟨es, rfl⟩ := List.getLast?_eq_some_iff.1 hes₁
                rw [lowest_append]
                exact h₁ e (by simp)
          · simp only [List.length_append, List.length_cons]
            omega
        · obtain ⟨hok, hP⟩ := ht.levels.rowOK c (by simp [hc])
          exact ⟨hok, hg.keep _ hP⟩
    · rintro rfl
      obtain ⟨-, c, hc, -, -, hroot⟩ := ht.levels
      obtain ⟨rfl, rfl, rfl⟩ : pre = [] ∧ b = c ∧ post = [] := by
        cases pre with
        | nil => simpa using hc
        | cons d pre => simp at hc
      exact hR rfl _ _ (hes ▸ hroot)
    · intro par above' _ p _ key es es' _ hshape
      refine hshape.replace (by simp) ?_
      rw [hes, List.length_append, List.length_append, List.length_cons]
      omega
  · exact ht.stored.setNode (u := []) (c := { b with entries := es₁ ++ (k, val) :: es₂ }) rfl hnd

end Block

section Room

variable {s : BtreeMem w} {val : BitVec w} {key : KeyPtr w} {k : List (BitVec w)}
  {bot top level fuel : ℕ} {P P' R R' : List (ℕ × BitVec w) → Prop} {row : List (Blk w)}
  {above : List (List (Blk w))}

theorem addrs_eq_of_found {row' : List (Blk w)} {above' : List (List (Blk w))}
    (hbody : row'.map Block.body = row.map Block.body)
    (haddr : above'.map (·.map (·.addr)) = above.map (·.map (·.addr))) :
    addrs (row' :: above') = addrs (row :: above) := by
  rw [addrs_cons, addrs_cons, map_addr_eq_of_body hbody, addrs_eq_of_map haddr]

theorem eq_nil_of_found {above' : List (List (Blk w))}
    (haddr : above'.map (·.map (·.addr)) = above.map (·.map (·.addr))) (h : above' = []) :
    above = [] := by
  subst h
  simpa using haddr

/-- The way to a block with room. -/
theorem exists_run_findLevel_room (ht : TreeAt geo bot top level P R s (row :: above))
    (hbot : bot ≤ wordsVal k) (htop : wordsVal k < top) (hk : key.Reads geo s (addrs above) k)
    (hroom : (∀ b ∈ row, b.entries.length < geo.noPairs) ∨
      ∃ b ∈ row, b.Covers (wordsVal k) ∧ b.entries.length < geo.noPairs) :
    ∃ s' row' above' b, (findLevel geo key level).run s = .ok (b.addr, s') ∧
      TreeAt geo bot top level P R s' (row' :: above') ∧ b ∈ row' ∧ b.Covers (wordsVal k) ∧
      row'.map Block.body = row.map Block.body ∧
      above'.map (·.map (·.addr)) = above.map (·.map (·.addr)) ∧ Writes (addrs above) s s' ∧
      b.entries.length < geo.noPairs := by
  rcases hroom with hroom | ⟨b, hb, hcov, hroom⟩
  · obtain ⟨s', row', above', b, hrun, ht', hb, hcov, hbody, haddr, hwr⟩ :=
      exists_run_findLevel ht hbot htop hk
    obtain ⟨c, hc, -, -, hes⟩ := exists_of_body hbody hb
    exact ⟨s', row', above', b, hrun, ht', hb, hcov, hbody, haddr, hwr, hes ▸ hroom c hc⟩
  · exact ⟨s, row, above, b, run_findLevel ht hb hcov hk.run hk.1, ht, hb, hcov, rfl, rfl,
      Writes.refl _ s, hroom⟩

/-- The entries left and right of a key that is not there. -/
theorem exists_cut_lt {b : Blk w} {k : ℕ} (hw : Within b.lo b.hi b.entries) (hcov : b.Covers k)
    (habs : ∀ e ∈ b.entries, e.1 ≠ k) : ∃ es₁ es₂, b.entries = es₁ ++ es₂ ∧
      (∀ e ∈ es₁, k < e.1) ∧ ∀ e ∈ es₂, e.1 < k := by
  obtain ⟨es₁, es₂, hes, h₁, h₂, -⟩ := exists_cut hw hcov.2
  exact ⟨es₁, es₂, hes, h₁, fun e he => lt_of_le_of_ne (h₂ e he) (habs e (by simp [hes, he]))⟩

/-- The block that `find_level` returns has room. -/
theorem exists_run_insert_found (fuel : ℕ) {s₁ : BtreeMem w} {b : Blk w}
    (hfind : (findLevel geo key level).run s = .ok (b.addr, s₁))
    (ht : TreeAt geo bot top level P R s₁ (row :: above)) (hb : b ∈ row)
    (hcov : b.Covers (wordsVal k)) (hg : Grows geo.noPairs P P' (wordsVal k) val)
    (hR : above = [] → ∀ es₁ es₂, R (es₁ ++ es₂) → R' (es₁ ++ (wordsVal k, val) :: es₂))
    (hk : key.Reads geo s₁ (addrs (row :: above)) k) (hval : val ≠ 0)
    (habs : ∀ e ∈ flat row, e.1 ≠ wordsVal k) (hlen : b.entries.length < geo.noPairs) :
    ∃ s' row', (insertLevelRetry geo (fuel + 1) key val level).run s = .ok (0, s') ∧
      TreeAt geo bot top level P' R' s' (row' :: above) ∧
      InsertedInto (wordsVal k) val (kids row) (kids row') ∧
      Moves (addrs (row :: above)) (addrs (row' :: above)) s₁ s' := by
  have hmem : b.addr ∈ addrs (row :: above) := mem_addrs (List.mem_map_of_mem hb)
  have hk₁ : key.Reads geo s₁ [b.addr] k := hk.mono (by simpa using hmem)
  obtain ⟨pre, post, rfl⟩ := List.append_of_mem hb
  have hok := (ht.levels.rowOK b hb).1
  obtain ⟨nd, hnode, hnd⟩ := ht.stored.exists_node hb
  obtain ⟨es₁, es₂, hes, h₁, h₂⟩ := exists_cut_lt hok.within hcov fun e he => habs e (by
    rw [flat_append, flat_cons]
    simp [he])
  rw [hes] at hnd
  rw [hes, List.length_append] at hlen
  obtain ⟨nd', hrun, hnd'⟩ := run_insertLevelRetry_room fuel hfind hnode hnd hk₁ h₁ h₂
    hlen hval
  refine ⟨_, _, hrun, ht.insert hg hR hcov hes h₁ h₂ hlen hnd', ?_, ?_⟩
  · exact insertedInto_block val ht.levels.separated
      (fun c hc => (ht.levels.rowOK c hc).1.within) hcov hes h₁ h₂
  · refine (writes_setNode hmem hnode).moves.congr (fun _ => Iff.rfl) ?_
    intro a
    rw [addrs_cons, addrs_cons]
    simp

theorem exists_run_insert_room (fuel : ℕ) (R' : List (ℕ × BitVec w) → Prop)
    (ht : TreeAt geo bot top level P R s (row :: above))
    (hg : Grows geo.noPairs P P' (wordsVal k) val)
    (hR : above = [] → ∀ es₁ es₂, R (es₁ ++ es₂) → R' (es₁ ++ (wordsVal k, val) :: es₂))
    (hbot : bot ≤ wordsVal k) (htop : wordsVal k < top)
    (hk : key.Reads geo s (addrs (row :: above)) k) (hval : val ≠ 0)
    (habs : ∀ e ∈ flat row, e.1 ≠ wordsVal k)
    (hroom : (∀ b ∈ row, b.entries.length < geo.noPairs) ∨
      ∃ b ∈ row, b.Covers (wordsVal k) ∧ b.entries.length < geo.noPairs) :
    ∃ s' row' above', (insertLevelRetry geo (fuel + 1) key val level).run s = .ok (0, s') ∧
      TreeAt geo bot top level P' R' s' (row' :: above') ∧
      InsertedInto (wordsVal k) val (kids row) (kids row') ∧
      Moves (addrs (row :: above)) (addrs (row' :: above')) s s' := by
  have hsub : ∀ a ∈ addrs above, a ∈ addrs (row :: above) := by
    intro a ha
    rw [addrs_cons]
    exact List.mem_append_right _ ha
  obtain ⟨s₁, row₁, above₁, b, hfind, ht₁, hb, hcov, hbody, haddr, hwr, hlen⟩ :=
    exists_run_findLevel_room ht hbot htop (hk.mono hsub) hroom
  have haddrs := addrs_eq_of_found hbody haddr
  have hmoves : Moves (addrs (row :: above)) (addrs (row₁ :: above₁)) s s₁ := by
    rw [haddrs]
    exact (hwr.mono hsub).moves
  obtain ⟨s', row', hrun, ht', hins, hmoves'⟩ := exists_run_insert_found fuel hfind ht₁ hb
    hcov hg (fun h => hR (eq_nil_of_found haddr h)) (hk.of_moves hmoves) hval
    (flat_eq_of_body hbody ▸ habs) hlen
  exact ⟨s', row', above₁, hrun, ht', kids_eq_of_body hbody ▸ hins, hmoves.trans hmoves'⟩

end Room

/-! ## The level above gets the new block -/

section Grow

variable {s : BtreeMem w} {nd : Node w} {es : List (ℕ × BitVec w)}

/-- A new root over the old one. -/
theorem run_btreeGrow (hnode : s.nodes s.node = some nd) (hroot : s.node ≠ 0)
    (hnd : nd.Holds geo es) (hne : es ≠ []) (hi : ℕ) : ∃ r s', (btreeGrow geo).run s = .ok (r, s') ∧
      (r = -ENOMEM ∧ s'.nodes = s.nodes ∧ s'.node = s.node ∧ s'.height = s.height ∨
        r = 0 ∧ ∃ a nd', a ≠ 0 ∧ s.nodes a = none ∧ s'.node = a ∧ s'.height = s.height + 1 ∧
          s'.nodes = Function.update s.nodes a (some nd') ∧
          nd'.Holds geo [(lowest hi es, s.node)]) := by
  obtain ⟨es, e, rfl⟩ := (List.eq_nil_or_concat es).resolve_left hne
  rw [List.concat_eq_append] at hnd ⊢
  obtain ⟨a, s₁, halloc, hroot₁, hheight₁, hcase⟩ := run_btreeNodeAlloc s
  unfold btreeGrow
  rw [Exec.run_bind_of_ok halloc]
  rcases hcase with ⟨rfl, hnodes⟩ | ⟨ha, hnone, hnodes⟩
  · exact ⟨-ENOMEM, s₁, rfl, .inl ⟨rfl, hnodes, hroot₁, hheight₁⟩⟩
  · have hne : s.node ≠ a := by
      intro heq
      rw [← heq, hnode] at hnone
      cases hnone
    have hold : s₁.nodes s.node = some nd := by rw [hnodes, Function.update_of_ne hne, hnode]
    have hnew : s₁.nodes a = some fun _ => 0 := by rw [hnodes, Function.update_self]
    have hfill : getfill geo nd 0 = es.length + 1 := by
      rw [hnd.getfill_eq (Nat.zero_le _), List.length_append, List.length_singleton]
    obtain ⟨hlt, hpair⟩ := hnd.pair_mid
    have hkey : (setkey geo a 0 (.slot s.node es.length)).run s₁ = .ok ((), s₁.setNode a
        (Node.setkey geo 0 (bkey geo nd es.length) fun _ => 0)) :=
      run_setkey (run_read_slot hold hlt) hnew (by omega)
    have hval : (setval geo a 0 s.node).run
        (s₁.setNode a (Node.setkey geo 0 (bkey geo nd es.length) fun _ => 0)) = _ :=
      run_setval setNode_nodes_self (by omega)
    have hhold : (Node.setpair geo 0 (bkey geo nd es.length) s.node fun _ => 0).Holds geo
        [(wordsVal (bkey geo nd es.length), s.node)] := holds_single (length_bkey nd es.length) hroot
    have hlow : wordsVal (bkey geo nd es.length) = lowest hi (es ++ [e]) := by
      rw [lowest_append]
      exact congrArg Prod.fst hpair
    rw [hlow] at hhold
    let nd' : Node w := Node.setpair geo 0 (bkey geo nd es.length) s.node fun _ => 0
    refine ⟨0, { s₁.setNode a nd' with node := a, height := s₁.height + 1 }, ?_,
      .inr ⟨rfl, a, nd', ha, hnone, rfl, congrArg (· + 1) hheight₁, ?_, hhold⟩⟩
    · rw [if_neg ha, Exec.run_get_bind, hroot₁, if_pos hroot, Exec.run_bind_of_ok (run_load hold)]
      dsimp only
      rw [hfill, if_neg (Nat.succ_ne_zero _), Nat.add_sub_cancel, Exec.run_bind_of_ok hkey,
        Exec.run_bind_of_ok hval, setNode_setNode]
      rfl
    · show Function.update s₁.nodes a (some nd') = _
      rw [hnodes, Function.update_idem]

end Grow

section Split

variable {s : BtreeMem w} {bot top level : ℕ} {P R : List (ℕ × BitVec w) → Prop}
  {pre post par : List (Blk w)} {above : List (List (Blk w))} {b : Blk w} {a : BitVec w}

/-- The entries of the children's row after the split. -/
def halved (geo : Geo) (a : BitVec w) (pre : List (Blk w)) (b : Blk w) (post : List (Blk w)) :
    List (Blk w) :=
  pre ++ b.leftHalf (geo.noPairs / 2) a :: b.rightHalf (geo.noPairs / 2) :: post

theorem addrs_halved : (halved geo a pre b post).map (·.addr) =
    pre.map (·.addr) ++ a :: b.addr :: post.map (·.addr) := by
  unfold halved
  simp [Block.leftHalf, Block.rightHalf]

/-- `btree_insert_level` splits the block after the level above has got the new one. -/
theorem exists_run_split (ht : TreeAt geo bot top (level + 1)
      (fun es => Shape geo.noPairs (weights (halved geo a pre b post) es)) (Top geo.noPairs) s
      (par :: above))
    (hrow : RowOK geo.noPairs P (pre ++ b :: post)) (hfull : b.entries.length = geo.noPairs)
    (hP : P (b.entries.take (geo.noPairs / 2)) ∧ P (b.entries.drop (geo.noPairs / 2)))
    (hkids : kids par = (halved geo a pre b post).map (·.toSpan))
    (hnodes : ∀ c ∈ pre ++ b :: post, ∃ nd, s.nodes c.addr = some nd ∧ nd.Holds geo c.entries)
    (hnew : s.nodes a = some fun _ => 0)
    (hnd : (a :: (pre ++ b :: post).map (·.addr) ++ addrs (par :: above)).Nodup) :
    ∃ s', (splitNode geo b.addr a geo.noPairs).run s = .ok ((), s') ∧
      TreeAt geo bot top level P R s' (halved geo a pre b post :: par :: above) ∧
      Writes [a, b.addr] s s' := by
  have hfour := geo.four_le_noPairs
  obtain ⟨nd, hnode, hholds⟩ := hnodes b (by simp)
  have hne : b.addr ≠ a := by
    intro heq
    rw [List.cons_append, List.nodup_cons] at hnd
    exact hnd.1 (by simp [heq])
  obtain ⟨na, nb, hrun, hnb, hna⟩ := run_splitNode hne hnode hnew hholds holds_nil hfull
  rw [hfull] at hrun
  have hwr : Writes [a, b.addr] s ((s.setNode a nb).setNode b.addr na) :=
    (writes_setNode (by simp) hnew).trans
      (writes_setNode (by simp) (by rw [setNode_nodes_of_ne hne, hnode]))
  have hperm : (a :: (pre ++ b :: post).map (·.addr) ++ addrs (par :: above)).Perm
      (addrs (halved geo a pre b post :: par :: above)) := by
    have hsplit : addrs (halved geo a pre b post :: par :: above) =
        (halved geo a pre b post).map (·.addr) ++ addrs (par :: above) := addrs_cons
    rw [hsplit, addrs_halved]
    refine List.Perm.append_right _ ?_
    rw [List.map_append, List.map_cons]
    exact List.perm_middle.symm
  have hnd' := hperm.nodup_iff.1 hnd
  refine ⟨_, hrun, ⟨?_, ?_, ?_⟩, hwr⟩
  · exact Levels.split hrow (by omega) (by omega) hP (by simpa [halved] using hkids) ht.levels
  · rw [addrs_cons, addrs_halved, List.nodup_append] at hnd'
    refine (ht.stored.of_agree hwr.agree ?_ (hwr.none 0 ht.stored.null) rfl).cons ?_ ?_
    · intro c hc hmem
      refine hnd'.2.2 c.addr ?_ c.addr (List.mem_map_of_mem hc) rfl
      rcases List.mem_cons.1 hmem with heq | heq
      · simp [heq]
      · rw [List.mem_singleton.1 heq]
        simp
    · intro c hc
      have hother : c ∈ pre ++ post → ∃ nd, ((s.setNode a nb).setNode b.addr na).nodes c.addr =
          some nd ∧ nd.Holds geo c.entries := by
        intro hmem
        obtain ⟨nd, hnode, hholds⟩ := hnodes c (by
          rcases List.mem_append.1 hmem with hmem | hmem
          · simp [hmem]
          · simp [hmem])
        refine ⟨nd, ?_, hholds⟩
        rw [hwr.agree c.addr ?_ (by simp [hnode]), hnode]
        have hmem' := List.mem_map_of_mem (f := (·.addr)) hmem
        have hnd₁ := hnd'.1
        have hperm₁ : (pre.map (·.addr) ++ a :: b.addr :: post.map (·.addr)).Perm
            (a :: b.addr :: (pre ++ post).map (·.addr)) := by
          rw [List.map_append]
          exact List.perm_middle.trans ((List.perm_middle).cons a)
        rw [hperm₁.nodup_iff, List.nodup_cons, List.nodup_cons] at hnd₁
        intro heq
        rcases List.mem_cons.1 heq with heq | heq
        · exact hnd₁.1 (heq ▸ List.mem_cons_of_mem _ hmem')
        · exact hnd₁.2.1 (List.mem_singleton.1 heq ▸ hmem')
      unfold halved at hc
      rw [List.mem_append, List.mem_cons, List.mem_cons] at hc
      rcases hc with hc | rfl | rfl | hc
      · exact hother (List.mem_append_left _ hc)
      · refine ⟨nb, ?_, hnb⟩
        unfold Block.leftHalf
        rw [setNode_nodes_of_ne hne.symm, setNode_nodes_self]
      · exact ⟨na, setNode_nodes_self, hna⟩
      · exact hother (List.mem_append_right _ hc)
    · exact hperm.nodup_iff.1 hnd
  · rw [List.length_cons, List.length_cons]
    have := ht.height
    rw [List.length_cons] at this
    simp only [setNode_height]
    omega

end Split

section Link

variable {s : BtreeMem w} {bot top level fuel : ℕ} {P R : List (ℕ × BitVec w) → Prop}
  {pre post : List (Blk w)} {above : List (List (Blk w))} {b : Blk w} {a : BitVec w} {nd : Node w}

/-- The lower end of the left half. -/
def middle (geo : Geo) (b : Blk w) : ℕ := lowest b.hi (b.entries.take (geo.noPairs / 2))

/-- The key that `btree_insert_level` hands to the level above. -/
theorem wordsVal_bkey_middle (hnd : nd.Holds geo b.entries) (hfull : b.entries.length = geo.noPairs) :
    wordsVal (bkey geo nd (geo.noPairs / 2 - 1)) = middle geo b := by
  have hfour := geo.four_le_noPairs
  obtain ⟨h, hh⟩ : ∃ h, geo.noPairs / 2 = h + 1 := ⟨geo.noPairs / 2 - 1, by omega⟩
  unfold middle
  rw [hh, Nat.add_sub_cancel, lowest_take b.hi (by omega) (0, 0)]
  exact hnd.key_eq (by omega)

theorem grows_halved (hnd : (a :: (pre ++ b :: post).map (·.addr)).Nodup)
    (hfull : b.entries.length = geo.noPairs) (m : ℕ) :
    Grows geo.noPairs (fun es => Shape geo.noPairs (weights (pre ++ b :: post) es))
      (fun es => Shape geo.noPairs (weights (halved geo a pre b post) es)) m a := by
  have hfour := geo.four_le_noPairs
  have hkeep : ∀ es, Shape geo.noPairs (weights (pre ++ b :: post) es) →
      Shape geo.noPairs (weights (halved geo a pre b post) es) := by
    intro es h
    refine Shape.of_map [] h ?_
    intro e _ hpos
    rcases fill_halves (c := e.2) hnd hfull with heq | hbig
    · unfold halved
      rw [heq]
      exact ⟨hpos, id⟩
    · unfold halved
      exact ⟨by omega, fun _ => hbig⟩
  refine ⟨hkeep, ?_, ?_⟩
  · intro es₁ es₂ h
    have h' := hkeep _ h
    rw [weights_append] at h' ⊢
    refine h'.insert hfour ?_
    have hnd' : ((halved geo a pre b post).map (·.addr)).Nodup := by
      rw [addrs_halved]
      refine List.perm_middle.nodup_iff.2 ?_
      simpa using hnd
    have hfill : fill (halved geo a pre b post) a = (b.leftHalf (geo.noPairs / 2) a).entries.length :=
      fill_mid (b := b.leftHalf (geo.noPairs / 2) a) hnd'
    show geo.noPairs / 2 ≤ fill (halved geo a pre b post) a
    rw [hfill]
    unfold Block.leftHalf
    rw [List.length_take]
    omega
  · intro es h hlen
    have hsplit := h.split hfour (by rw [length_weights, hlen])
    unfold weights at hsplit
    rwa [← List.map_take, ← List.map_drop] at hsplit

/-- The level above has got the new block. Where it is a new root, the old one is no longer
    responsible for the keys below its last one. -/
def Linked (geo : Geo) (bot top level : ℕ) (P : List (ℕ × BitVec w) → Prop) (pre : List (Blk w))
    (b : Blk w) (post : List (Blk w)) (above : List (List (Blk w))) (a : BitVec w)
    (s s' : BtreeMem w) : Prop :=
  ∃ b' par above', b'.core = b.core ∧ b'.hi = b.hi ∧ (b' = b ∨ pre = [] ∧ post = []) ∧
    RowOK geo.noPairs P (pre ++ b' :: post) ∧
    TreeAt geo bot top (level + 1)
      (fun es => Shape geo.noPairs (weights (halved geo a pre b' post) es)) (Top geo.noPairs) s'
      (par :: above') ∧
    kids par = (halved geo a pre b' post).map (·.toSpan) ∧
    Moves (addrs above) (addrs (par :: above')) s s'

theorem linked_of_inserted {par par' : List (Blk w)} {above' : List (List (Blk w))} {s' : BtreeMem w}
    (ht : TreeAt geo bot top level P R s ((pre ++ b :: post) :: par :: above))
    (hfull : b.entries.length = geo.noPairs)
    (ht' : TreeAt geo bot top (level + 1)
      (fun es => Shape geo.noPairs (weights (halved geo a pre b post) es)) (Top geo.noPairs) s'
      (par' :: above'))
    (hins : InsertedInto (middle geo b) a (kids par) (kids par'))
    (hmoves : Moves (addrs (par :: above)) (addrs (par' :: above')) s s') :
    Linked geo bot top level P pre b post (par :: above) a s s' := by
  have hfour := geo.four_le_noPairs
  have hrow := ht.levels.rowOK
  obtain ⟨hlo, hhi⟩ := halves_lt (hrow b (by simp)).1 (h := geo.noPairs / 2) (by omega) (by omega)
  refine ⟨b, par', above', rfl, rfl, .inl rfl, hrow, ht', ?_, hmoves⟩
  rw [hins.split (pre.map (·.toSpan)) b.toSpan (post.map (·.toSpan)) ?_ hlo hhi]
  · unfold halved
    simp [Block.leftHalf, Block.rightHalf, middle]
  · rw [← ht.levels.2.1]
    simp

/-- The middle key is not the key of a block. -/
theorem ne_middle {par : List (Blk w)}
    (ht : TreeAt geo bot top level P R s ((pre ++ b :: post) :: par :: above))
    (hfull : b.entries.length = geo.noPairs) : ∀ e ∈ flat par, e.1 ≠ middle geo b := by
  have hfour := geo.four_le_noPairs
  have hrow := ht.levels.rowOK
  obtain ⟨hlo, hhi⟩ := halves_lt (hrow b (by simp)).1 (h := geo.noPairs / 2) (by omega) (by omega)
  have hsep := ht.levels.separated
  have hpw := hsep.pairwise
  rw [List.map_append, List.map_cons, List.pairwise_append, List.pairwise_cons] at hpw
  obtain ⟨-, ⟨hpost, -⟩, hpre⟩ := hpw
  intro e he
  rw [← map_kids, ← ht.levels.2.1] at he
  obtain ⟨c, hc, rfl⟩ := List.mem_map.1 he
  unfold middle
  dsimp only
  rw [List.map_append, List.map_cons, List.mem_append, List.mem_cons] at hc
  rcases hc with hc | rfl | hc
  · have := hpre c hc b.toSpan (by simp)
    omega
  · omega
  · have := hpost c hc
    have := (hsep.bounds c (by simp [hc])).2.1
    omega

/-- A new root. -/
theorem exists_run_link_root (fuel : ℕ) (ht : TreeAt geo bot top level P R s [pre ++ b :: post])
    (hfull : b.entries.length = geo.noPairs) (ha : a ≠ 0)
    (hnd : (a :: (pre ++ b :: post).map (·.addr)).Nodup) :
    ∃ r s', (insertLevelWith geo (insertLevelRetry geo (fuel + 1))
        (.slot b.addr (geo.noPairs / 2 - 1)) a (level + 1)).run s = .ok (r, s') ∧
      (r = 0 ∧ Linked geo bot top level P pre b post [] a s s' ∨
        r = -ENOMEM ∧ TreeAt geo bot top level P R s' [pre ++ b :: post] ∧ Moves [] [] s s') := by
  have hfour := geo.four_le_noPairs
  obtain ⟨hrow, c, hc, hlo, hhi, -⟩ := ht.levels
  obtain ⟨rfl, rfl, rfl⟩ : pre = [] ∧ b = c ∧ post = [] := by
    cases pre with
    | nil => simpa using hc
    | cons d pre => simp at hc
  obtain ⟨hok, hP⟩ := hrow b (by simp)
  obtain ⟨nd, hnode, hholds⟩ := ht.stored.exists_node (b := b) (by simp)
  have hroot : s.node = b.addr := by
    obtain ⟨c, hc, hroot⟩ := ht.stored.root
    obtain rfl : b = c := by simpa using hc
    exact hroot.symm
  have hb0 : b.addr ≠ 0 := ht.stored.addr_ne_zero (by simp)
  have hheight : s.height = level := by simpa using ht.height
  have hne : b.entries ≠ [] := by
    intro hnil
    rw [hnil, List.length_nil] at hfull
    omega
  obtain ⟨r, s₁, hgrow, hcase⟩ := run_btreeGrow (hroot ▸ hnode) (hroot ▸ hb0) hholds hne b.hi
  have hwith : (insertLevelWith geo (insertLevelRetry geo (fuel + 1))
      (.slot b.addr (geo.noPairs / 2 - 1)) a (level + 1)).run s =
      (if r ≠ 0 then return r else insertLevelRetry geo (fuel + 1)
        (.slot b.addr (geo.noPairs / 2 - 1)) a (level + 1) : Exec (BtreeMem w) ℤ).run s₁ := by
    unfold insertLevelWith
    rw [if_neg ha, Exec.run_get_bind, if_pos (by omega), Exec.run_bind_of_ok hgrow]
  rw [hwith]
  rcases hcase with ⟨rfl, hnodes, hroot₁, hheight₁⟩ | ⟨rfl, c, nd', hc0, hcnone, hroot₁, hheight₁, hnodes, hnd'⟩
  · refine ⟨-ENOMEM, s₁, rfl, .inr ⟨rfl, ⟨ht.levels, ?_, ?_⟩, ?_⟩⟩
    · have hmoves := moves_of_nodes_eq hnodes
      refine ht.stored.of_agree hmoves.agree (by simp) ?_ hroot₁
      rw [hnodes, ht.stored.null]
    · rw [hheight₁, ht.height]
    · exact moves_of_nodes_eq hnodes
  · -- the old root gives up the keys below its last one
    have hw := hok.within
    let low := lowest b.hi b.entries
    let b' : Blk w := { b with lo := low }
    have hlow : low < b.hi := by
      obtain ⟨es, e, hes⟩ := (List.eq_nil_or_concat b.entries).resolve_left hne
      rw [List.concat_eq_append] at hes
      have hlt := hw.lt_hi e (by simp [hes])
      have heq : low = e.1 := by
        show lowest b.hi b.entries = e.1
        rw [hes, lowest_append]
        rfl
      omega
    have hlowlo : b.lo ≤ low := hw.le_lowest hok.lo_lt_hi.le
    have hok' : b'.OK geo.noPairs :=
      ⟨hlow, within_of_pairwise hw.pairwise hw.lowest_le_key hw.lt_hi, hok.length_le⟩
    let p : Blk w := ⟨⟨c, bot, top⟩, [(low, b.addr)]⟩
    have hbc : b.addr ≠ c := by
      intro heq
      rw [← heq, hnode] at hcnone
      cases hcnone
    have hb₁ : s₁.nodes b.addr = some nd := by rw [hnodes, Function.update_of_ne hbc, hnode]
    have hp : p.OK geo.noPairs := by
      refine ⟨?_, ⟨?_, ?_, trivial⟩, ?_⟩
      · show bot < top
        omega
      · show bot ≤ low
        omega
      · show low < top
        omega
      · show 1 ≤ geo.noPairs
        omega
    have ht₁ : TreeAt geo bot top (level + 1) (fun es => Shape geo.noPairs (weights ([] ++ [b']) es))
        (fun es => es.length = 1) s₁ [[p]] := by
      refine ⟨⟨?_, p, rfl, rfl, rfl, rfl⟩, ⟨?_, by simp [addrs], ?_, p, rfl, hroot₁.symm⟩, ?_⟩
      · intro q hq
        obtain rfl := List.mem_singleton.1 hq
        have hfill : weights ([] ++ [b']) [(low, b.addr)] = [b.entries.length] := by
          rw [weights_cons, fill_of_mem (b := b') (by simp) (by simp)]
          rfl
        refine ⟨hp, ?_⟩
        show Shape geo.noPairs (weights ([] ++ [b']) [(low, b.addr)])
        rw [hfill]
        exact shape_singleton _ (by omega)
      · intro q hq
        obtain rfl : q = p := by simpa using hq
        rw [hroot] at hnd'
        exact ⟨nd', by rw [hnodes, Function.update_self], hnd'⟩
      · rw [hnodes, Function.update_of_ne hc0.symm, ht.stored.null]
      · rw [hheight₁, hheight]
        rfl
    have hmid : wordsVal (bkey geo nd (geo.noPairs / 2 - 1)) = middle geo b :=
      wordsVal_bkey_middle hholds hfull
    obtain ⟨hmlo, hmhi⟩ : low < middle geo b ∧ middle geo b < b.hi :=
      halves_lt hok' (h := geo.noPairs / 2) (by omega) (by
        show geo.noPairs / 2 < b.entries.length
        omega)
    have hk : KeyPtr.Reads geo (.slot b.addr (geo.noPairs / 2 - 1)) s₁ (addrs [[p]])
        (bkey geo nd (geo.noPairs / 2 - 1)) :=
      reads_slot (by simpa [addrs] using hbc) hb₁ (by omega)
    have habs : ∀ e ∈ flat [p], e.1 ≠ wordsVal (bkey geo nd (geo.noPairs / 2 - 1)) := by
      intro e he
      obtain rfl : e = (low, b.addr) := by simpa [p] using he
      rw [hmid]
      exact hmlo.ne
    have hR : ([] : List (List (Blk w))) = [] → ∀ es₁ es₂ : List (ℕ × BitVec w),
        (es₁ ++ es₂).length = 1 → Top geo.noPairs
          (es₁ ++ (wordsVal (bkey geo nd (geo.noPairs / 2 - 1)), a) :: es₂) := by
      intro _ es₁ es₂ hlen _
      rw [List.length_append] at hlen ⊢
      rw [List.length_cons]
      omega
    obtain ⟨s', row', above', hrun, ht', hins, hmoves⟩ := exists_run_insert_room fuel (Top geo.noPairs) ht₁
      (grows_halved (b := b') hnd hfull _) hR (by omega) (by omega) hk ha habs
      (.inl fun q hq => by
        obtain rfl := List.mem_singleton.1 hq
        show 1 < geo.noPairs
        omega)
    have hkids : kids [p] = [] ++ b'.toSpan :: [] := by
      show [(⟨b.addr, low, top⟩ : Span ℕ (BitVec w))] = [⟨b.addr, low, b.hi⟩]
      rw [hhi]
    rw [hmid] at hins
    refine ⟨0, s', hrun, .inl ⟨rfl, b', row', above', rfl, rfl, .inr ⟨rfl, rfl⟩, ?_, ht', ?_, ?_⟩⟩
    · intro q hq
      obtain rfl := List.mem_singleton.1 hq
      exact ⟨hok', hP⟩
    · rw [hins.split [] b'.toSpan [] hkids hmlo hmhi]
      rfl
    · exact (moves_alloc hcnone hnodes).trans (by simpa [addrs] using hmoves)

end Link

/-! ## The recursion -/

section Retry

variable {s : BtreeMem w} {bot top level fuel : ℕ} {P P' R R' : List (ℕ × BitVec w) → Prop}
  {row : List (Blk w)} {above : List (List (Blk w))} {key : KeyPtr w} {k : List (BitVec w)}
  {val : BitVec w}

/-- The split and the second try, the level above knowing the new block `a`. -/
theorem exists_run_split_retry (fuel : ℕ) (R' : List (ℕ × BitVec w) → Prop) {s' : BtreeMem w}
    {a : BitVec w} {b : Blk w} {pre post : List (Blk w)}
    (hlinked : Linked geo bot top level P pre b post above a s s')
    (ht : TreeAt geo bot top level P R s ((pre ++ b :: post) :: above))
    (hnew : s.nodes a = some fun _ => 0) (hfresh : a ∉ (pre ++ b :: post).map (·.addr))
    (hfresh' : a ∉ addrs above) (hcov : b.Covers (wordsVal k))
    (hg : Grows geo.noPairs P P' (wordsVal k) val) (hbot : bot ≤ wordsVal k)
    (htop : wordsVal k < top)
    (hk : key.Reads geo s (a :: (pre ++ b :: post).map (·.addr) ++ addrs above) k) (hval : val ≠ 0)
    (habs : ∀ e ∈ flat (pre ++ b :: post), e.1 ≠ wordsVal k)
    (hfull : b.entries.length = geo.noPairs) : ∃ s'' row' above',
      (do
        splitNode geo b.addr a geo.noPairs
        insertLevelRetry geo (fuel + 1) key val level).run s' = .ok (0, s'') ∧
      TreeAt geo bot top level P' R' s'' (row' :: above') ∧
      InsertedInto (wordsVal k) val (kids (pre ++ b :: post)) (kids row') ∧
      Moves (a :: (pre ++ b :: post).map (·.addr) ++ addrs above) (addrs (row' :: above')) s s'' := by
  obtain ⟨b', par, above', hcore, hhi, hor, hrow, ht', hkids, hmoves⟩ := hlinked
  obtain ⟨haddr, hes⟩ : b'.addr = b.addr ∧ b'.entries = b.entries := by
    simpa [Block.core] using hcore
  have hstored : Stored geo s ((pre ++ b' :: post) :: above) :=
    ht.stored.congr (by simp [hcore])
  have hfour := geo.four_le_noPairs
  have haddrs : (pre ++ b' :: post).map (·.addr) = (pre ++ b :: post).map (·.addr) := by
    simp [haddr]
  -- the nodes of the row have not changed
  have hnodes := hstored.row_of_agree hmoves.agree
  have hnew' : s'.nodes a = some fun _ => 0 := by
    rw [hmoves.agree a hfresh' (by simp [hnew]), hnew]
  have hnd : (a :: (pre ++ b' :: post).map (·.addr) ++ addrs (par :: above')).Nodup := by
    rw [List.nodup_append, List.nodup_cons, haddrs]
    refine ⟨⟨hfresh, ht.stored.nodup_row⟩, ht'.stored.nodup, ?_⟩
    rintro c hc _ hc' rfl
    rcases List.mem_cons.1 hc with rfl | hc
    · exact hmoves.not_mem hfresh' (by simp [hnew]) hc'
    · obtain ⟨d, hd, rfl⟩ := List.mem_map.1 hc
      exact ht.stored.not_mem_of_moves hmoves hd hc'
  obtain ⟨s₁, hsplit, ht₁, hwr⟩ := exists_run_split ht' hrow (by rw [hes, hfull])
    (hg.split _ (hrow b' (by simp)).2 (by rw [hes, hfull])) hkids hnodes hnew' hnd (R := R)
  have hmoves₁ : Moves (a :: (pre ++ b :: post).map (·.addr) ++ addrs above)
      (addrs (halved geo a pre b' post :: par :: above')) s s₁ := by
    have hwr' : Writes (a :: (pre ++ b :: post).map (·.addr) ++ addrs (par :: above')) s' s₁ := by
      refine hwr.mono ?_
      intro c hc
      rcases List.mem_cons.1 hc with rfl | hc
      · simp
      · simp [List.mem_singleton.1 hc, haddr]
    refine (hmoves.append _).trans (hwr'.moves.congr (fun _ => Iff.rfl) ?_)
    intro c
    rw [addrs_cons, addrs_halved, haddr]
    simp only [List.map_append, List.map_cons, List.mem_append, List.mem_cons]
    tauto
  have hsame : kids (halved geo a pre b' post) = kids (pre ++ b :: post) := by
    unfold halved
    rw [kids_halves, kids_append, kids_append, kids_cons, kids_cons, hes, hhi]
  have hflat : flat (halved geo a pre b' post) = flat (pre ++ b :: post) := by
    rw [← map_kids, hsame, map_kids]
  have hroom : (∀ c ∈ halved geo a pre b' post, c.entries.length < geo.noPairs) ∨
      ∃ c ∈ halved geo a pre b' post, c.Covers (wordsVal k) ∧ c.entries.length < geo.noPairs := by
    have hleft : (b'.leftHalf (geo.noPairs / 2) a).entries.length < geo.noPairs := by
      unfold Block.leftHalf
      rw [List.length_take]
      omega
    have hright : (b'.rightHalf (geo.noPairs / 2)).entries.length < geo.noPairs := by
      unfold Block.rightHalf
      rw [List.length_drop, hes]
      omega
    unfold halved
    rcases hor with rfl | ⟨rfl, rfl⟩
    · refine .inr ?_
      by_cases hlt : wordsVal k < middle geo b'
      · exact ⟨b'.rightHalf (geo.noPairs / 2), by simp, ⟨hcov.1, hlt⟩, hright⟩
      · exact ⟨b'.leftHalf (geo.noPairs / 2) a, by simp, ⟨not_lt.1 hlt, hcov.2⟩, hleft⟩
    · refine .inl ?_
      intro c hc
      simp only [List.nil_append, List.mem_cons, List.not_mem_nil, or_false] at hc
      rcases hc with rfl | rfl
      · exact hleft
      · exact hright
  obtain ⟨s₂, row₂, above₂, hrun₂, ht₂, hins, hmoves₂⟩ := exists_run_insert_room fuel R' ht₁ hg
    (by simp) hbot htop (hk.of_moves hmoves₁) hval (hflat ▸ habs) hroom
  refine ⟨s₂, row₂, above₂, ?_, ht₂, hsame ▸ hins, hmoves₁.trans hmoves₂⟩
  rw [← haddr, Exec.run_bind_of_ok hsplit, hrun₂]

/-- What `btree_insert_level` does with a full block, `hlink` being about the level above. -/
theorem exists_run_insert_full (R' : List (ℕ × BitVec w) → Prop) {s₁ : BtreeMem w} {b : Blk w}
    {pre post : List (Blk w)}
    (hfind : (findLevel geo key level).run s = .ok (b.addr, s₁))
    (ht : TreeAt geo bot top level P R s₁ ((pre ++ b :: post) :: above))
    (hcov : b.Covers (wordsVal k)) (hg : Grows geo.noPairs P P' (wordsVal k) val)
    (hbot : bot ≤ wordsVal k) (htop : wordsVal k < top)
    (hk : key.Reads geo s₁ (addrs ((pre ++ b :: post) :: above)) k) (hval : val ≠ 0)
    (habs : ∀ e ∈ flat (pre ++ b :: post), e.1 ≠ wordsVal k)
    (hfull : b.entries.length = geo.noPairs) (hfuel : 1 ≤ fuel)
    (hlink : ∀ s₂ a, TreeAt geo bot top level P R s₂ ((pre ++ b :: post) :: above) → a ≠ 0 →
      (a :: (pre ++ b :: post).map (·.addr)).Nodup → ∃ r s₃,
        (insertLevelWith geo (insertLevelRetry geo fuel) (.slot b.addr (geo.noPairs / 2 - 1)) a
          (level + 1)).run s₂ = .ok (r, s₃) ∧
        (r = 0 ∧ Linked geo bot top level P pre b post above a s₂ s₃ ∨
          r = -ENOMEM ∧ ∃ above', TreeAt geo bot top level P R s₃ ((pre ++ b :: post) :: above') ∧
            Moves (addrs above) (addrs above') s₂ s₃)) :
    ∃ r s' row' above', (insertLevelRetry geo (fuel + 1) key val level).run s = .ok (r, s') ∧
      Moves (addrs ((pre ++ b :: post) :: above)) (addrs (row' :: above')) s₁ s' ∧
      (r = 0 ∧ TreeAt geo bot top level P' R' s' (row' :: above') ∧
          InsertedInto (wordsVal k) val (kids (pre ++ b :: post)) (kids row') ∨
        r = -ENOMEM ∧ TreeAt geo bot top level P R s' (row' :: above') ∧
          row' = pre ++ b :: post) := by
  obtain ⟨nd, hnode, hnd⟩ := ht.stored.exists_node (b := b) (by simp)
  have hok := (ht.levels.rowOK b (by simp)).1
  obtain ⟨es₁, es₂, hes, h₁, h₂⟩ := exists_cut_lt hok.within hcov fun e he => habs e (by
    rw [flat_append, flat_cons]
    simp [he])
  have hrun := run_insertLevelRetry_full fuel val hfind hnode (hes ▸ hnd) hk.run
    hk.1 h₁ h₂ (by rw [← List.length_append, ← hes, hfull])
  rw [hrun]
  obtain ⟨a, s₂, halloc, hroot₂, hheight₂, hcase⟩ := run_btreeNodeAlloc s₁
  rw [Exec.run_bind_of_ok halloc]
  rcases hcase with ⟨rfl, hnodes⟩ | ⟨ha, hnone, hnodes⟩
  · have hmoves := moves_of_nodes_eq hnodes
    refine ⟨-ENOMEM, s₂, _, above, rfl, ?_, .inr ⟨rfl, ⟨ht.levels, ?_, ?_⟩, rfl⟩⟩
    · simpa using hmoves.append (addrs ((pre ++ b :: post) :: above))
    · refine ht.stored.of_agree hmoves.agree (by simp) ?_ hroot₂
      rw [hnodes, ht.stored.null]
    · rw [hheight₂, ht.height]
  · have hmoves₂ := moves_alloc hnone hnodes
    have ht₂ : TreeAt geo bot top level P R s₂ ((pre ++ b :: post) :: above) := by
      refine ⟨ht.levels, ht.stored.of_agree hmoves₂.agree (by simp) ?_ hroot₂, ?_⟩
      · rw [hnodes, Function.update_of_ne ha.symm, ht.stored.null]
      · rw [hheight₂, ht.height]
    have hfresh : a ∉ addrs ((pre ++ b :: post) :: above) := by
      intro hmem
      obtain ⟨c, hc, rfl⟩ := List.mem_map.1 hmem
      obtain ⟨nd, hnode, -⟩ := ht.stored.holds c hc
      rw [hnode] at hnone
      cases hnone
    rw [addrs_cons, List.mem_append, not_or] at hfresh
    have hnewa : s₂.nodes a = some fun _ => 0 := by rw [hnodes, Function.update_self]
    have hmoves₁ : Moves (addrs ((pre ++ b :: post) :: above))
        (a :: (pre ++ b :: post).map (·.addr) ++ addrs above) s₁ s₂ := by
      refine (hmoves₂.append (addrs ((pre ++ b :: post) :: above))).congr (by simp) ?_
      intro c
      rw [addrs_cons]
      simp only [List.mem_append, List.mem_cons, List.not_mem_nil, or_false]
      tauto
    obtain ⟨r, s₃, hrun₃, hcase⟩ := hlink s₂ a ht₂ ha
      (List.nodup_cons.2 ⟨hfresh.1, ht.stored.nodup_row⟩)
    rw [if_neg ha, Exec.run_bind_of_ok hrun₃]
    rcases hcase with ⟨rfl, hlinked⟩ | ⟨rfl, above', ht₃, hmoves₃⟩
    · obtain ⟨fuel, rfl⟩ : ∃ f, fuel = f + 1 := ⟨fuel - 1, by omega⟩
      have hk₂ : key.Reads geo s₂ (a :: (pre ++ b :: post).map (·.addr) ++ addrs above) k :=
        hk.of_moves hmoves₁
      obtain ⟨s', row', above', hrun', ht', hins, hmoves⟩ := exists_run_split_retry fuel R'
        hlinked ht₂ hnewa hfresh.1 hfresh.2 hcov hg hbot htop hk₂ hval habs hfull
      refine ⟨0, s', row', above', ?_, hmoves₁.trans hmoves, .inl ⟨rfl, ht', hins⟩⟩
      rw [if_neg (by simp), hrun']
    · have hnewa' : s₃.nodes a = some fun _ => 0 := by
        rw [hmoves₃.agree a hfresh.2 (by simp [hnewa]), hnewa]
      have hfree := run_mempoolFree hnewa'
      have hfresh' : a ∉ addrs above' := hmoves₃.not_mem hfresh.2 (by simp [hnewa])
      refine ⟨-ENOMEM, s₃.freeNode a, _, above', ?_, ?_, .inr ⟨rfl, ⟨ht₃.levels, ?_, ht₃.height⟩, rfl⟩⟩
      · rw [if_pos (by decide), Exec.run_bind_of_ok hfree]
        rfl
      · have hmoves₄ := (moves_freeNode s₃ a).append (addrs ((pre ++ b :: post) :: above'))
        refine hmoves₁.trans ((hmoves₃.append _).trans (hmoves₄.congr ?_ (by simp)))
        intro c
        rw [addrs_cons]
        simp only [List.mem_append, List.mem_cons, List.not_mem_nil, or_false]
        tauto
      · refine ht₃.stored.of_agree (moves_freeNode s₃ a).agree ?_ ?_ rfl
        · intro c hc heq
          rw [List.mem_singleton] at heq
          have hmem : c.addr ∈ addrs ((pre ++ b :: post) :: above') := List.mem_map_of_mem hc
          rw [addrs_cons, List.mem_append, heq] at hmem
          exact hmem.elim hfresh.1 hfresh'
        · rw [freeNode_nodes_of_ne ha.symm, ht₃.stored.null]

theorem top_insert {n m : ℕ} {es₁ es₂ : List (ℕ × BitVec w)} {v : BitVec w}
    (h : Top n (es₁ ++ es₂)) : Top n (es₁ ++ (m, v) :: es₂) := by
  intro heven
  have := h heven
  rw [List.length_append] at this ⊢
  rw [List.length_cons]
  omega

/-- `btree_insert_level` works where `n` levels lie above its own: it puts the entry into the level,
    or an allocation has failed and the level holds what it held. -/
def Inserts (geo : Geo) (bot top fuel n : ℕ) : Prop :=
  ∀ {s : BtreeMem w} {level : ℕ} {P P' R R' : List (ℕ × BitVec w) → Prop} {row : List (Blk w)}
    {above : List (List (Blk w))} {key : KeyPtr w} {k : List (BitVec w)} {val : BitVec w},
    above.length = n → TreeAt geo bot top level P R s (row :: above) →
    Grows geo.noPairs P P' (wordsVal k) val →
    (above = [] → ∀ es₁ es₂, R (es₁ ++ es₂) → R' (es₁ ++ (wordsVal k, val) :: es₂)) →
    bot ≤ wordsVal k → wordsVal k < top → key.Reads geo s (addrs (row :: above)) k → val ≠ 0 →
    (∀ e ∈ flat row, e.1 ≠ wordsVal k) → ∃ r s' row' above',
      (insertLevelRetry geo fuel key val level).run s = .ok (r, s') ∧
      Moves (addrs (row :: above)) (addrs (row' :: above')) s s' ∧
      (r = 0 ∧ TreeAt geo bot top level P' R' s' (row' :: above') ∧
          InsertedInto (wordsVal k) val (kids row) (kids row') ∨
        r = -ENOMEM ∧ TreeAt geo bot top level P R s' (row' :: above') ∧
          row'.map Block.body = row.map Block.body)

/-- The level above is not the top: it gets the new block by the same function. -/
theorem exists_run_link {n : ℕ} {pre post par : List (Blk w)} {b : Blk w} {a : BitVec w}
    (ih : Inserts (w := w) geo bot top fuel n)
    (habove : above.length = n)
    (ht : TreeAt geo bot top level P R s ((pre ++ b :: post) :: par :: above))
    (hfull : b.entries.length = geo.noPairs) (ha : a ≠ 0)
    (hnd : (a :: (pre ++ b :: post).map (·.addr)).Nodup) : ∃ r s',
      (insertLevelWith geo (insertLevelRetry geo fuel) (.slot b.addr (geo.noPairs / 2 - 1)) a
        (level + 1)).run s = .ok (r, s') ∧
      (r = 0 ∧ Linked geo bot top level P pre b post (par :: above) a s s' ∨
        r = -ENOMEM ∧ ∃ above', TreeAt geo bot top level P R s' ((pre ++ b :: post) :: above') ∧
          Moves (addrs (par :: above)) (addrs above') s s') := by
  have hfour := geo.four_le_noPairs
  obtain ⟨nd, hnode, hholds⟩ := ht.stored.exists_node (b := b) (by simp)
  have hmid := wordsVal_bkey_middle hholds hfull
  obtain ⟨hok, -⟩ := ht.levels.rowOK b (by simp)
  obtain ⟨hlo, hhi⟩ : b.lo < middle geo b ∧ middle geo b < b.hi :=
    halves_lt hok (by omega) (by omega)
  have hbounds := ht.levels.separated.bounds b.toSpan (by simp)
  have hk : KeyPtr.Reads geo (.slot b.addr (geo.noPairs / 2 - 1)) s (addrs (par :: above))
      (bkey geo nd (geo.noPairs / 2 - 1)) :=
    reads_slot (ht.stored.not_mem_above (by simp)) hnode (by omega)
  obtain ⟨r, s', par', above', hrun, hmoves, hcase⟩ := ih habove ht.tail
    (grows_halved hnd hfull _) (fun _ _ _ => top_insert) (by omega) (by omega) hk ha
    (hmid ▸ ne_middle ht hfull)
  have hwith : (insertLevelWith geo (insertLevelRetry geo fuel)
      (.slot b.addr (geo.noPairs / 2 - 1)) a (level + 1)).run s = .ok (r, s') := by
    have hheight := ht.height
    rw [List.length_cons, List.length_cons] at hheight
    unfold insertLevelWith
    rw [if_neg ha, Exec.run_get_bind, if_neg (by omega), hrun]
  refine ⟨r, s', hwith, ?_⟩
  rcases hcase with ⟨rfl, ht', hins⟩ | ⟨rfl, ht', hbody⟩
  · exact .inl ⟨rfl, linked_of_inserted ht hfull ht' (hmid ▸ hins) hmoves⟩
  · exact .inr ⟨rfl, _, ht.of_above ht' (kids_eq_of_body hbody) hmoves, hmoves⟩

theorem inserts_of_link {n : ℕ} (hfuel : 1 ≤ fuel)
    (hlink : ∀ {s : BtreeMem w} {level : ℕ} {P R : List (ℕ × BitVec w) → Prop}
      {pre post : List (Blk w)} {b : Blk w} {above : List (List (Blk w))} {a : BitVec w},
      above.length = n → TreeAt geo bot top level P R s ((pre ++ b :: post) :: above) →
      b.entries.length = geo.noPairs → a ≠ 0 → (a :: (pre ++ b :: post).map (·.addr)).Nodup →
      ∃ r s', (insertLevelWith geo (insertLevelRetry geo fuel) (.slot b.addr (geo.noPairs / 2 - 1)) a
          (level + 1)).run s = .ok (r, s') ∧
        (r = 0 ∧ Linked geo bot top level P pre b post above a s s' ∨
          r = -ENOMEM ∧ ∃ above', TreeAt geo bot top level P R s' ((pre ++ b :: post) :: above') ∧
            Moves (addrs above) (addrs above') s s')) :
    Inserts (w := w) geo bot top (fuel + 1) n := by
  intro s level P P' R R' row above key k val hn ht hg hR hbot htop hk hval habs
  have hsub : ∀ a ∈ addrs above, a ∈ addrs (row :: above) := by
    intro a ha
    rw [addrs_cons]
    exact List.mem_append_right _ ha
  obtain ⟨s₁, row₁, above₁, b, hfind, ht₁, hb, hcov, hbody, haddr, hwr⟩ :=
    exists_run_findLevel ht hbot htop (hk.mono hsub)
  have hmoves : Moves (addrs (row :: above)) (addrs (row₁ :: above₁)) s s₁ := by
    rw [addrs_eq_of_found hbody haddr]
    exact (hwr.mono hsub).moves
  have hk₁ := hk.of_moves hmoves
  have habs₁ : ∀ e ∈ flat row₁, e.1 ≠ wordsVal k := flat_eq_of_body hbody ▸ habs
  by_cases hlen : b.entries.length < geo.noPairs
  · obtain ⟨s', row', hrun, ht', hins, hmoves'⟩ := exists_run_insert_found fuel hfind ht₁ hb
      hcov hg (fun h => hR (eq_nil_of_found haddr h)) hk₁ hval habs₁ hlen
    exact ⟨0, s', row', above₁, hrun, hmoves.trans hmoves', .inl ⟨rfl, ht', kids_eq_of_body hbody ▸ hins⟩⟩
  · have hfull : b.entries.length = geo.noPairs := by
      have := (ht₁.levels.rowOK b hb).1.length_le
      omega
    obtain ⟨pre, post, rfl⟩ := List.append_of_mem hb
    have hn₁ : above₁.length = n := by
      rw [← hn]
      simpa using congrArg List.length haddr
    obtain ⟨r, s', row', above', hrun, hmoves', hcase⟩ := exists_run_insert_full R' hfind ht₁
      hcov hg hbot htop hk₁ hval habs₁ hfull hfuel fun s₂ a ht₂ ha hnd => hlink hn₁ ht₂ hfull ha hnd
    refine ⟨r, s', row', above', hrun, hmoves.trans hmoves', ?_⟩
    rcases hcase with ⟨rfl, ht', hins⟩ | ⟨rfl, ht', rfl⟩
    · exact .inl ⟨rfl, ht', kids_eq_of_body hbody ▸ hins⟩
    · exact .inr ⟨rfl, ht', hbody⟩

theorem inserts (geo : Geo) (bot top n : ℕ) (hfuel : n + 2 ≤ fuel) :
    Inserts (w := w) geo bot top fuel n := by
  induction n generalizing fuel with
  | zero =>
      obtain ⟨fuel, rfl⟩ : ∃ f, fuel = f + 2 := ⟨fuel - 2, by omega⟩
      refine inserts_of_link (by omega) ?_
      intro s level P R pre post b above a habove ht hfull ha hnd
      obtain rfl := List.length_eq_zero_iff.1 habove
      obtain ⟨r, s', hrun, hcase⟩ := exists_run_link_root fuel ht hfull ha hnd
      refine ⟨r, s', hrun, hcase.imp_right ?_⟩
      rintro ⟨hr, ht', hmoves⟩
      exact ⟨hr, [], ht', hmoves⟩
  | succ n ih =>
      obtain ⟨fuel, rfl⟩ : ∃ f, fuel = f + 1 := ⟨fuel - 1, by omega⟩
      refine inserts_of_link (by omega) ?_
      intro s level P R pre post b above a habove ht hfull ha hnd
      obtain ⟨par, above, rfl⟩ := List.exists_cons_of_length_eq_add_one habove
      exact exists_run_link (ih (by omega)) (by simpa using habove) ht hfull ha hnd

end Retry

end StructLib.Btree
