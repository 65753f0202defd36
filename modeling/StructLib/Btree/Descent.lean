import StructLib.Btree.Stored

set_option autoImplicit false

/-! # The way down a B+tree

Where a node of the level that `find_level` looks for covers the key, the function finds it and
changes nothing; in general it lowers the last keys on its way, and the tree it leaves differs only
in lower ends of intervals. -/

namespace StructLib.Btree

variable {w : ℕ} {geo : Geo}

/-! ## One step down -/

section Step

variable {s : BtreeMem w} {nd : Node w} {es es₁ es₂ : List (ℕ × BitVec w)} {a c : BitVec w}
  {key : KeyPtr w} {k : List (BitVec w)} {k' : ℕ} {lo hi : ℕ}

/-- The step to the child whose entry is the first one not above the key. -/
theorem run_findStep (h : s.nodes a = some nd) (hnd : nd.Holds geo (es₁ ++ (k', c) :: es₂))
    (hw : Within lo hi (es₁ ++ (k', c) :: es₂)) (hk : (key.read geo).run s = .ok (k, s))
    (hlen : k.length = geo.keylen) (h₁ : ∀ e ∈ es₁, wordsVal k < e.1) (hle : k' ≤ wordsVal k) :
    (findStep geo key a).run s = .ok (c, s) := by
  have h₂ : ∀ e ∈ (k', c) :: es₂, e.1 ≤ wordsVal k := by
    intro e he
    have hw₂ := (within_cons.1 (within_append.1 hw).2).2.2
    rcases List.mem_cons.1 he with rfl | he
    · exact hle
    · exact (hw₂.lt_hi e he).le.trans hle
  obtain ⟨hlt, hmid⟩ := hnd.pair_mid
  have hval : nd.val geo es₁.length = c := congrArg Prod.snd hmid
  have hc : c ≠ 0 := hnd.val_ne_zero (k', c) (by simp)
  have hstay : ¬(es₁.length = geo.noPairs ∨ c = 0) := by
    rintro (heq | heq)
    · omega
    · exact hc heq
  unfold findStep
  rw [Exec.run_bind_of_ok (run_load h), Exec.run_bind_of_ok hk, hnd.getpos_eq hlen h₁ h₂]
  dsimp only
  rw [hval, if_neg hstay, run_bval h hlt, hval]

/-- The step where all keys of the node are above the key: the last one is lowered. -/
theorem run_findStep_lower (h : s.nodes a = some nd) (hnd : nd.Holds geo (es ++ [(k', c)]))
    (hk : (key.read geo).run s = .ok (k, s)) (hlen : k.length = geo.keylen)
    (hall : ∀ e ∈ es ++ [(k', c)], wordsVal k < e.1) :
    (findStep geo key a).run s = .ok (c, s.setNode a (nd.setkey geo es.length k)) := by
  obtain ⟨hlt, hmid⟩ := hnd.pair_mid
  have hpos : getpos geo nd k = es.length + 1 := by
    have hnd' : nd.Holds geo ((es ++ [(k', c)]) ++ []) := by rwa [List.append_nil]
    rw [hnd'.getpos_eq hlen hall (by simp)]
    simp
  have hstop : es.length + 1 = geo.noPairs ∨ nd.val geo (es.length + 1) = 0 := by
    by_cases hfull : es.length + 1 = geo.noPairs
    · exact .inl hfull
    · refine .inr ?_
      rw [hnd.val_eq (by omega), List.getD_eq_default _ _ (by simp)]
  have hval : (nd.setkey geo es.length k).val geo es.length = c := by
    rw [val_setkey hlt]
    exact congrArg Prod.snd hmid
  unfold findStep
  rw [Exec.run_bind_of_ok (run_load h), Exec.run_bind_of_ok hk, hpos]
  dsimp only
  rw [if_pos hstop, if_neg (Nat.succ_ne_zero _), Nat.add_sub_cancel,
    Exec.run_bind_of_ok (run_setkey hk h hlt), run_bval setNode_nodes_self hlt, hval]

/-- The rounds of the loop, the last one apart. -/
theorem run_findLevelLoop_succ {n : ℕ} {s s' : BtreeMem w} {node a : BitVec w}
    (h : (findLevelLoop geo key n node).run s = .ok (a, s')) :
    (findLevelLoop geo key (n + 1) node).run s = (findStep geo key a).run s' := by
  induction n generalizing s node with
  | zero =>
      obtain ⟨rfl, rfl⟩ : node = a ∧ s = s' := by
        simpa [findLevelLoop] using h
      have hone : findLevelLoop geo key 1 node = findStep geo key node := bind_pure _
      rw [Nat.zero_add, hone]
  | succ n ih =>
      unfold findLevelLoop at h ⊢
      obtain ⟨node', s₁, hstep, hrest⟩ := Exec.of_run_bind h
      rw [Exec.run_bind_of_ok hstep]
      exact ih hrest

end Step

/-! ## The whole way -/

section Descent

variable {s : BtreeMem w} {bot top : ℕ} {P R : List (ℕ × BitVec w) → Prop}
  {row : List (Blk w)} {above : List (List (Blk w))} {b : Blk w} {key : KeyPtr w}
  {k : List (BitVec w)}

/-- Where a block covers the key, the loop finds it and changes nothing. -/
theorem run_findLevelLoop (hl : Levels geo.noPairs bot top P R (row :: above))
    (hs : Stored geo s (row :: above)) (hb : b ∈ row) (hcov : b.Covers (wordsVal k))
    (hk : (key.read geo).run s = .ok (k, s)) (hlen : k.length = geo.keylen) :
    (findLevelLoop geo key above.length s.node).run s = .ok (b.addr, s) := by
  induction above generalizing row b P R with
  | nil =>
      obtain ⟨-, c, rfl, -⟩ := hl
      obtain ⟨c', hc', hroot⟩ := hs.root
      obtain rfl : b = c := by simpa using hb
      obtain rfl : b = c' := by simpa using hc'
      rw [← hroot]
      rfl
  | cons par above ih =>
      obtain ⟨pre, post, rfl⟩ := List.append_of_mem hb
      obtain ⟨pp, p, qq, es₁, es₂, rfl, hp, hhi, -, -⟩ := hl.exists_parent
      have hmem : p ∈ pp ++ p :: qq := by simp
      have hpok := (hl.2.2.rowOK p hmem).1
      obtain ⟨hpcov, hgt⟩ := covers_parent hpok hp hhi hcov
      obtain ⟨nd, hnode, hnd⟩ := hs.tail.exists_node hmem
      have hw := hpok.within
      rw [hp] at hnd hw
      rw [List.length_cons, run_findLevelLoop_succ (ih hl.2.2 hs.tail hmem hpcov),
        run_findStep hnode hnd hw hk hlen hgt hcov.1]

/-- In general the loop lowers last keys and arrives at a block that covers the key. -/
theorem exists_run_findLevelLoop (hl : Levels geo.noPairs bot top P R (row :: above))
    (hs : Stored geo s (row :: above)) (hbot : bot ≤ wordsVal k) (htop : wordsVal k < top)
    (hk : key.Reads geo s (addrs above) k) : ∃ s' row' above' b,
      (findLevelLoop geo key above.length s.node).run s = .ok (b.addr, s') ∧
      Levels geo.noPairs bot top P R (row' :: above') ∧ Stored geo s' (row' :: above') ∧
      b ∈ row' ∧ b.Covers (wordsVal k) ∧ row'.map Block.body = row.map Block.body ∧
      above'.map (·.map (·.addr)) = above.map (·.map (·.addr)) ∧ Writes (addrs above) s s' := by
  induction above generalizing row P R with
  | nil =>
      obtain ⟨hrow, c, rfl, hlo, hhi, hR⟩ := hl
      obtain ⟨c', hc', hroot⟩ := hs.root
      obtain rfl : c = c' := by simpa using hc'
      refine ⟨s, [c], [], c, ?_, ⟨hrow, c, rfl, hlo, hhi, hR⟩, hs, by simp, ⟨by omega, by omega⟩,
        rfl, rfl, Writes.refl _ s⟩
      rw [← hroot]
      rfl
  | cons par above ih =>
      have hsub : ∀ a ∈ addrs above, a ∈ addrs (par :: above) := by
        intro a ha
        rw [addrs_cons]
        exact List.mem_append_right _ ha
      obtain ⟨s₁, par₁, above₁, p, hrun, hl₁, hs₁, hp, hcov, hbody, haddr, hwr⟩ :=
        ih hl.2.2 hs.tail (hk.mono hsub)
      -- the row below has not changed
      have haddrs : addrs (par₁ :: above₁) = addrs (par :: above) := by
        rw [addrs_cons, addrs_cons, map_addr_eq_of_body hbody, addrs_eq_of_map haddr]
      have hl' : Levels geo.noPairs bot top P R (row :: par₁ :: above₁) :=
        ⟨hl.1, by rw [hl.2.1, kids_eq_of_body hbody], hl₁⟩
      have hs' : Stored geo s₁ (row :: par₁ :: above₁) := by
        refine hs₁.cons ?_ ?_
        · intro b hb
          refine hs.holds_of_agree (hwr.agree.mono hsub) ?_ (hs.not_mem_above hb)
          rw [List.flatten_cons]
          exact List.mem_append_left _ hb
        · rw [addrs_cons, haddrs, ← addrs_cons]
          exact hs.nodup
      have hk₁ := hk.of_agree (hwr.agree.mono hsub)
      obtain ⟨pp, qq, rfl⟩ := List.append_of_mem hp
      have hpok := (hl₁.rowOK p hp).1
      obtain ⟨nd, hnode, hnd⟩ := hs₁.exists_node hp
      obtain ⟨es₁, es₂, hes, hgt, hle, hlow⟩ := exists_cut hpok.within hcov.2
      have hrun' := run_findLevelLoop_succ hrun
      have hmap : (pp ++ p :: qq).map (·.addr) = par.map (·.addr) := map_addr_eq_of_body hbody
      cases es₂ with
      | cons e es₂ =>
          -- there is a child for the key
          obtain ⟨pre, b, post, rfl, hspan, -, -⟩ := hl'.exists_child hes
          have hw := hpok.within
          rw [hes] at hnd hw
          have hstep := run_findStep hnode hnd hw hk₁.run hk.1 hgt (hle e (by simp))
          have hb : b.addr = e.2 := congrArg Span.addr hspan
          have hcov' : b.Covers (wordsVal k) := by
            rw [hspan]
            exact ⟨hle e (by simp), hlow⟩
          refine ⟨s₁, pre ++ b :: post, (pp ++ p :: qq) :: above₁, b, ?_, hl', hs', by simp, hcov',
            rfl, ?_, hwr.mono hsub⟩
          · rw [List.length_cons, hrun', hstep, hb]
          · rw [List.map_cons, List.map_cons, hmap, haddr]
      | nil =>
          -- the key lies below all children, and the last one is made responsible for it
          rw [List.append_nil] at hes
          subst hes
          have hne : p.entries ≠ [] := fun hnil => (hl'.2.2.rowOK p hp).2.1 (by simp [weights, hnil])
          obtain ⟨es, ⟨k', c⟩, hes⟩ := (List.eq_nil_or_concat p.entries).resolve_left hne
          rw [List.concat_eq_append] at hes
          obtain ⟨pre, b, post, rfl, hspan, hpre, hpost⟩ := hl'.exists_child hes
          have hblo : b.lo = k' := congrArg Span.lo hspan
          have hbhi : b.hi = lowest p.hi es := congrArg Span.hi hspan
          have hbaddr : b.addr = c := congrArg Span.addr hspan
          rw [← hblo, ← hbaddr] at hes
          rw [hes] at hnd hgt
          have hstep := run_findStep_lower hnode hnd hk₁.run hk.1 hgt
          have hkk : wordsVal k < b.lo := hgt (b.lo, b.addr) (by simp)
          have hlow' := Levels.lower hl' hs₁.nodup_row hes hbhi hpre (by simpa using hpost) hcov.1 hkk.le
          have hstored := hs'.setNode (u := [pre ++ b :: post])
            (c := { p with entries := es ++ [(wordsVal k, b.addr)] }) rfl (hnd.setkey hk.1)
          refine ⟨_, _, _, { b with lo := wordsVal k }, ?_, hlow', hstored.congr (by simp [Block.core]),
            by simp, ⟨le_refl _, ?_⟩, by simp [Block.body], ?_, ?_⟩
          · rw [List.length_cons, hrun', hstep]
          · exact hkk.trans (hl'.1 b (by simp)).1.lo_lt_hi
          · rw [List.map_cons, List.map_cons, ← hmap, haddr]
            simp
          · refine (hwr.mono hsub).trans (writes_setNode ?_ hnode)
            rw [addrs_cons, ← hmap]
            simp

variable {level : ℕ}

theorem run_findLevel (ht : TreeAt geo bot top level P R s (row :: above)) (hb : b ∈ row)
    (hcov : b.Covers (wordsVal k)) (hk : (key.read geo).run s = .ok (k, s))
    (hlen : k.length = geo.keylen) : (findLevel geo key level).run s = .ok (b.addr, s) := by
  have hheight : s.height - level = above.length := by
    have := ht.height
    rw [List.length_cons] at this
    omega
  have hne : b.addr ≠ 0 := ht.stored.addr_ne_zero (by simp [hb])
  unfold findLevel
  rw [Exec.run_get_bind, hheight,
    Exec.run_bind_of_ok (run_findLevelLoop ht.levels ht.stored hb hcov hk hlen), if_neg hne]
  rfl

theorem exists_run_findLevel (ht : TreeAt geo bot top level P R s (row :: above))
    (hbot : bot ≤ wordsVal k) (htop : wordsVal k < top) (hk : key.Reads geo s (addrs above) k) :
    ∃ s' row' above' b, (findLevel geo key level).run s = .ok (b.addr, s') ∧
      TreeAt geo bot top level P R s' (row' :: above') ∧ b ∈ row' ∧ b.Covers (wordsVal k) ∧
      row'.map Block.body = row.map Block.body ∧
      above'.map (·.map (·.addr)) = above.map (·.map (·.addr)) ∧ Writes (addrs above) s s' := by
  obtain ⟨s', row', above', b, hrun, hl, hs, hb, hcov, hbody, haddr, hwr⟩ :=
    exists_run_findLevelLoop ht.levels ht.stored hbot htop hk
  have hheight : s.height - level = above.length := by
    have := ht.height
    rw [List.length_cons] at this
    omega
  have hlen : above'.length = above.length := by
    simpa using congrArg List.length haddr
  have hne : b.addr ≠ 0 := hs.addr_ne_zero (by simp [hb])
  refine ⟨s', row', above', b, ?_, ⟨hl, hs, ?_⟩, hb, hcov, hbody, haddr, hwr⟩
  · unfold findLevel
    rw [Exec.run_get_bind, hheight, Exec.run_bind_of_ok hrun, if_neg hne]
    rfl
  · rw [hwr.height, ht.height, List.length_cons, List.length_cons, hlen]

end Descent

end StructLib.Btree
