import StructLib.Btree.Remove

set_option autoImplicit false

/-! # Rebalancing

A block that has become small is merged with its left neighbour under the same parent, or else with
the right one, where both fit into one node (`merge`). The entries end up in the left one, the parent
exchanges the two children, and what is then the entry of the right one goes from the parent's level
by `btree_remove_level`. -/

namespace StructLib.Btree

variable {w : ℕ} {geo : Geo}

/-! ## Merging -/

/-- Neighbours `L` and `R` under the parent `p` hold `ls` and `rs`, which fit into one node. -/
structure Merging (geo : Geo) (bot top level : ℕ) (P : List (ℕ × BitVec w) → Prop) (s : BtreeMem w)
    (pre : List (Blk w)) (L R : Blk w) (post pp : List (Blk w)) (p : Blk w) (qq : List (Blk w))
    (above : List (List (Blk w))) (ep₁ ep₂ ls rs : List (ℕ × BitVec w)) : Prop where
  tree : TreeAt geo bot top (level + 1)
    (fun es => Shape geo.noPairs (weights (pre ++ L :: R :: post) es)) (Top geo.noPairs) s
    ((pp ++ p :: qq) :: above)
  level_pos : 1 ≤ level
  entries : p.entries = ep₁ ++ (L.lo, L.addr) :: (R.lo, R.addr) :: ep₂
  span_pre : pre.map (·.toSpan) = kids pp ++ spans p.hi ep₁
  span_post : post.map (·.toSpan) = spans R.lo ep₂ ++ kids qq
  hi_eq : L.hi = lowest p.hi ep₁
  nodup : ((pre ++ L :: R :: post).map (·.addr)).Nodup
  not_mem : ∀ c ∈ pre ++ L :: R :: post, c.addr ∉ addrs ((pp ++ p :: qq) :: above)
  nodup_kids : ((flat (pp ++ p :: qq)).map (·.2)).Nodup
  holds : ∀ c ∈ pre ++ post, ∃ nd, s.nodes c.addr = some nd ∧ nd.Holds geo c.entries
  left : ∃ nd, s.nodes L.addr = some nd ∧ nd.Holds geo ls
  right : ∃ nd, s.nodes R.addr = some nd ∧ nd.Holds geo rs
  room : ls.length + rs.length ≤ geo.noPairs
  left_le : L.entries.length ≤ ls.length + rs.length
  right_le : R.entries.length ≤ ls.length + rs.length
  row : RowOK geo.noPairs P (pre ++ post)
  merged : P (ls ++ rs)
  within : Within R.lo L.hi (ls ++ rs)
  lo_lt_hi : R.lo < L.hi

section Merge

variable {s : BtreeMem w} {bot top level fuel : ℕ} {P : List (ℕ × BitVec w) → Prop}
  {pre post pp qq : List (Blk w)} {L R p : Blk w} {above : List (List (Blk w))}
  {ep₁ ep₂ ls rs : List (ℕ × BitVec w)}

/-- The merged block, with the interval that it has before the entry in front of it goes. -/
def mergedBlock (L R : Blk w) (es : List (ℕ × BitVec w)) : Blk w := ⟨⟨L.addr, R.lo, L.lo⟩, es⟩

/-- The parent with its two children exchanged. -/
def exchanged (p L R : Blk w) (ep₁ ep₂ : List (ℕ × BitVec w)) : Blk w :=
  { p with entries := ep₁ ++ (L.lo, R.addr) :: (R.lo, L.addr) :: ep₂ }

theorem Merging.ne_zero (h : Merging geo bot top level P s pre L R post pp p qq above ep₁ ep₂ ls rs)
    {a : BitVec w} {nd : Node w} (ha : s.nodes a = some nd) : a ≠ 0 := by
  rintro rfl
  rw [h.tree.stored.null] at ha
  cases ha

theorem Merging.addr_ne (h : Merging geo bot top level P s pre L R post pp p qq above ep₁ ep₂ ls rs) :
    L.addr ≠ R.addr ∧ p.addr ≠ L.addr ∧ p.addr ≠ R.addr := by
  have hnodup := h.nodup
  rw [List.map_append, List.nodup_append] at hnodup
  have hp : p.addr ∈ addrs ((pp ++ p :: qq) :: above) := mem_addrs (by simp)
  refine ⟨?_, ?_, ?_⟩
  · have := hnodup.2.1
    simp only [List.map_cons, List.nodup_cons, List.mem_cons, not_or] at this
    exact this.1.1
  · exact fun heq => h.not_mem L (by simp) (heq ▸ hp)
  · exact fun heq => h.not_mem R (by simp) (heq ▸ hp)

/-- The parent's row with the exchanged children. -/
theorem Merging.tree_exchanged
    (h : Merging geo bot top level P s pre L R post pp p qq above ep₁ ep₂ ls rs) {s₁ : BtreeMem w}
    {nd : Node w} (hs : Stored geo s₁ ((pp ++ p :: qq) :: above)) (hheight : s₁.height = s.height)
    (hnd : nd.Holds geo (ep₁ ++ (L.lo, R.addr) :: (R.lo, L.addr) :: ep₂)) :
    TreeAt geo bot top (level + 1) (fun _ => True) (RootOK geo.noPairs (level + 1))
      (s₁.setNode p.addr nd) ((pp ++ exchanged p L R ep₁ ep₂ :: qq) :: above) := by
  have hok := (h.tree.levels.rowOK p (by simp)).1
  refine ⟨h.tree.levels.replace h.tree.stored.nodup_row rfl ?_ ?_ ?_, ?_, ?_⟩
  · intro c hc
    rw [List.mem_append, List.mem_cons] at hc
    rcases hc with hc | rfl | hc
    · exact ⟨(h.tree.levels.rowOK c (by simp [hc])).1, trivial⟩
    · refine ⟨⟨hok.lo_lt_hi, hok.within.congr_fst ?_, hnd.length_le⟩, trivial⟩
      rw [h.entries]
      simp [exchanged]
    · exact ⟨(h.tree.levels.rowOK c (by simp [hc])).1, trivial⟩
  · rintro rfl _ heven
    simp only [exchanged, List.length_append, List.length_cons]
    omega
  · intro par above' _ q _ key es₁ es₂ _ hshape
    have hlen : (exchanged p L R ep₁ ep₂).entries.length = p.entries.length := by
      rw [h.entries]
      simp [exchanged]
    rw [hlen]
    exact hshape
  · exact hs.setNode (u := []) (c := exchanged p L R ep₁ ep₂) rfl hnd
  · rw [setNode_height, hheight, h.tree.height]
    rfl

/-- The writes of `merge` before it goes to the level above. -/
theorem Merging.exists_run_writes
    (h : Merging geo bot top level P s pre L R post pp p qq above ep₁ ep₂ ls rs)
    (cont : Exec (BtreeMem w) Unit) : ∃ s',
      (do
        mergeLoop geo L.addr ls.length R.addr rs.length 0
        setval geo p.addr ep₁.length R.addr
        setval geo p.addr (ep₁.length + 1) L.addr
        cont).run s = cont.run s' ∧
      TreeAt geo bot top (level + 1) (fun _ => True) (RootOK geo.noPairs (level + 1)) s'
        ((pp ++ exchanged p L R ep₁ ep₂ :: qq) :: above) ∧
      Writes [L.addr, p.addr] s s' ∧
      ∃ nd, s'.nodes L.addr = some nd ∧ nd.Holds geo (ls ++ rs) := by
  obtain ⟨ndl, hl, hls⟩ := h.left
  obtain ⟨ndr, hr, hrs⟩ := h.right
  obtain ⟨ndp, hp, hps⟩ := h.tree.stored.exists_node (b := p) (by simp)
  obtain ⟨hne, hpl, -⟩ := h.addr_ne
  -- the right one's entries go to the left one
  have hslots : ls.length + 0 + rs.length ≤ geo.noPairs := h.room
  obtain ⟨ndm, hloop, hpair⟩ := run_mergeLoop hne hl hr hslots
  have hms : ndm.Holds geo (ls ++ rs) := hls.append hrs h.room (by simpa using hpair)
  -- the parent's values are exchanged
  have hp₁ : (s.setNode L.addr ndm).nodes p.addr = some ndp := by rw [setNode_nodes_of_ne hpl, hp]
  rw [h.entries] at hps
  have hps₁ := hps.setval (h.ne_zero hr)
  rw [List.append_cons] at hps₁
  have hps₂ := hps₁.setval (h.ne_zero hl)
  rw [← List.append_cons, List.length_append, List.length_singleton] at hps₂
  have hlen := hps.length_le
  simp only [List.length_append, List.length_cons] at hlen
  have hset₁ : (setval geo p.addr ep₁.length R.addr).run (s.setNode L.addr ndm) = .ok ((),
      (s.setNode L.addr ndm).setNode p.addr (ndp.setval geo ep₁.length R.addr)) :=
    run_setval hp₁ (by omega)
  have hset₂ : (setval geo p.addr (ep₁.length + 1) L.addr).run
      ((s.setNode L.addr ndm).setNode p.addr (ndp.setval geo ep₁.length R.addr)) = _ :=
    run_setval setNode_nodes_self (by omega)
  rw [setNode_setNode] at hset₂
  have hwr : Writes [L.addr] s (s.setNode L.addr ndm) := writes_setNode (by simp) hl
  have hstored : Stored geo (s.setNode L.addr ndm) ((pp ++ p :: qq) :: above) := by
    refine h.tree.stored.of_agree hwr.agree ?_ (hwr.none 0 h.tree.stored.null) rfl
    intro c hc heq
    refine h.not_mem L (by simp) ?_
    rw [← List.mem_singleton.1 heq]
    exact List.mem_map_of_mem hc
  refine ⟨_, ?_, h.tree_exchanged hstored rfl hps₂, ?_, ndm, ?_, hms⟩
  · rw [Exec.run_bind_of_ok hloop, Exec.run_bind_of_ok hset₁, Exec.run_bind_of_ok hset₂]
  · exact (hwr.mono (by simp)).trans (writes_setNode (by simp) hp₁)
  · rw [setNode_nodes_of_ne hpl.symm, setNode_nodes_self]

/-- The entry of the right one goes from the level above. -/
theorem Merging.removal
    (h : Merging geo bot top level P s pre L R post pp p qq above ep₁ ep₂ ls rs) {s' : BtreeMem w}
    (ht : TreeAt geo bot top (level + 1) (fun _ => True) (RootOK geo.noPairs (level + 1)) s'
      ((pp ++ exchanged p L R ep₁ ep₂ :: qq) :: above)) :
    Removal geo bot top (level + 1)
      (fun es => Shape geo.noPairs (weights (pre ++ mergedBlock L R (ls ++ rs) :: post) es))
      (fun es => HasBig geo.noPairs (weights (pre ++ mergedBlock L R (ls ++ rs) :: post) es)) s' pp
      (exchanged p L R ep₁ ep₂) qq above ep₁ (L.lo, R.addr) ((R.lo, L.addr) :: ep₂)
      (.slot p.addr ep₁.length) L.lo := by
  have hfour := geo.four_le_noPairs
  have hlevel := h.level_pos
  have hw := (h.tree.levels.rowOK p (by simp)).1.within
  rw [h.entries] at hw
  obtain ⟨hw₁, hw₂⟩ := within_append.1 hw
  let M := mergedBlock L R (ls ++ rs)
  have hrowp : RowOK geo.noPairs (fun es => Shape geo.noPairs (weights (pre ++ [L, R] ++ post) es))
      (pp ++ p :: qq) := by simpa using h.tree.levels.rowOK
  obtain ⟨hothers, hparent⟩ := shape_others [M] hrowp h.nodup_kids
    (show p.entries = ep₁ ++ [(L.lo, L.addr), (R.lo, R.addr)] ++ ep₂ by simp [h.entries])
    (by simp [M, mergedBlock])
  have hone : pre ++ [M] ++ post = pre ++ M :: post := by simp
  have hnodup := h.nodup
  have hfill : weights (pre ++ [L, R] ++ post) [(L.lo, L.addr), (R.lo, R.addr)] =
      [L.entries.length, R.entries.length] := by
    have hnd : ((pre ++ [L, R] ++ post).map (·.addr)).Nodup := by simpa using hnodup
    rw [weights_cons, weights_cons, fill_of_mem (b := L) hnd (by simp),
      fill_of_mem (b := R) hnd (by simp)]
    rfl
  have hfillM : fill (pre ++ M :: post) L.addr = ls.length + rs.length := by
    have hnd : ((pre ++ M :: post).map (·.addr)).Nodup := by
      refine hnodup.sublist ?_
      simp only [List.map_append, List.map_cons, M, mergedBlock]
      exact (List.Sublist.refl _).append ((List.sublist_cons_self _ _).cons_cons _)
    have hfill := fill_of_mem (b := M) hnd (by simp)
    rw [← List.length_append]
    exact hfill
  rw [hone] at hothers
  rw [hone, hfill, List.append_assoc] at hparent
  have hweights : weights (pre ++ M :: post) (ep₁ ++ (R.lo, L.addr) :: ep₂) =
      weights (pre ++ M :: post) ep₁ ++ (ls.length + rs.length) :: weights (pre ++ M :: post) ep₂ := by
    rw [weights_append, weights_cons, hfillM]
  refine ⟨ht, by omega, rfl, ⟨?_, ?_⟩, ?_, le_refl _, by omega, .inr ⟨rfl, by simp, rfl⟩, hothers, ?_, ?_,
    ?_⟩
  · exact hw.le_key (L.lo, L.addr) (by simp)
  · exact hw.lt_hi (L.lo, L.addr) (by simp)
  · intro x hx
    exact (within_cons.1 hw₂).2.1.trans_le (hw₁.lowest_le_key x hx)
  · intro _
    rw [hweights]
    exact ⟨hparent.merge h.left_le h.right_le,
      (hparent.hasBig hfour (by simp; omega)).merge h.left_le h.right_le⟩
  · intro vs ws hv hw hlen
    rw [weights_append, weights_append]
    exact ⟨hv.join hw (by simpa using hlen), hv.join' hw (by simpa using hlen)⟩
  · refine .inr (.inr ?_)
    simp only [flat_append, flat_cons, exchanged, List.length_append, List.length_cons]
    omega

theorem Merging.exists_run (h : Merging geo bot top level P s pre L R post pp p qq above ep₁ ep₂ ls rs)
    (ih : Removable (w := w) geo bot top fuel above.length) : ∃ s' row' above' T₁ hi T₂,
      (merge geo (btreeRemoveLevel geo fuel) level L.addr ls.length R.addr rs.length p.addr
        ep₁.length).run s = .ok ((), s') ∧
      TreeAt geo bot top level P (RootOK geo.noPairs level) s' (row' :: above') ∧
      kids row' = T₁ ++ (spans hi (ls ++ rs) ++ T₂) ∧ L.hi ≤ hi ∧ Raised (kids pre) T₁ ∧
      Raised (kids post) T₂ ∧
      Moves ((pre ++ L :: R :: post).map (·.addr) ++ addrs ((pp ++ p :: qq) :: above))
        (addrs (row' :: above')) s s' := by
  obtain ⟨s₁, hwrites, ht₁, hwr, hleft⟩ := h.exists_run_writes (do
    let _ ← btreeRemoveLevel geo fuel (.slot p.addr ep₁.length) (level + 1)
    mempoolFree R.addr)
  obtain ⟨s₂, hrun, S₁, S₂, hS₁, hS₂, hnext, hafter⟩ := ih rfl (h.removal ht₁)
  obtain ⟨t, T, rfl, hhi⟩ := hnext (by simp)
  have hspan₂ : spans L.lo ((R.lo, L.addr) :: ep₂) ++ kids qq =
      (⟨L.addr, R.lo, L.lo⟩ : Span ℕ (BitVec w)) :: post.map (·.toSpan) := by
    rw [spans_cons, h.span_post]
    rfl
  rw [show (exchanged p L R ep₁ ep₂).hi = p.hi from rfl, ← h.span_pre] at hS₁
  rw [hspan₂] at hS₂
  rw [show (exchanged p L R ep₁ ep₂).hi = p.hi from rfl, ← h.hi_eq] at hhi
  unfold Raised at hS₂
  rw [List.forall₂_cons] at hS₂
  obtain ⟨⟨haddr, hlo, -⟩, hT⟩ := hS₂
  obtain ⟨X, hX, hXcore, hXkids, hXrow⟩ := exists_raise hS₁
  obtain ⟨Y, hY, hYcore, hYkids, hYrow⟩ := exists_raise hT
  let M : Blk w := ⟨t, ls ++ rs⟩
  have hcore : (X ++ M :: Y).map Block.core =
      (pre ++ mergedBlock L R (ls ++ rs) :: post).map Block.core := by
    rw [List.map_append, List.map_cons, List.map_append, List.map_cons, hXcore, hYcore]
    simp [M, mergedBlock, Block.core, haddr]
  have hXY := addr_eq_of_core hcore
  have hmid : (pre ++ mergedBlock L R (ls ++ rs) :: post).map (·.addr) =
      pre.map (·.addr) ++ L.addr :: post.map (·.addr) := by simp [mergedBlock]
  have haddrs : addrs ((pp ++ exchanged p L R ep₁ ep₂ :: qq) :: above) =
      addrs ((pp ++ p :: qq) :: above) := by simp [addrs, exchanged]
  have hperm : ((pre ++ L :: R :: post).map (·.addr)).Perm
      (R.addr :: (pre.map (·.addr) ++ L.addr :: post.map (·.addr))) := by
    rw [List.map_append, List.map_cons, List.map_cons]
    exact ((List.Perm.swap R.addr L.addr _).append_left _).trans List.perm_middle
  have hnd := h.nodup
  rw [hperm.nodup_iff, List.nodup_cons] at hnd
  have hnot : ∀ c ∈ pre ++ post, c.addr ≠ L.addr := by
    intro c hc heq
    have hnd' := hnd.2
    rw [List.perm_middle.nodup_iff, List.nodup_cons, ← List.map_append] at hnd'
    exact hnd'.1 (heq ▸ List.mem_map_of_mem hc)
  have hmem : ∀ c ∈ pre ++ post, c ∈ pre ++ L :: R :: post := by
    intro c hc
    rcases List.mem_append.1 hc with hc | hc
    · simp [hc]
    · simp [hc]
  have hp : p.addr ∈ addrs ((pp ++ p :: qq) :: above) := mem_addrs (by simp)
  have hnodes : ∀ c ∈ pre ++ mergedBlock L R (ls ++ rs) :: post, ∃ nd, s₁.nodes c.addr = some nd ∧
      nd.Holds geo c.entries := by
    intro c hc
    by_cases hcm : c ∈ pre ++ post
    · obtain ⟨nd, hnode, hholds⟩ := h.holds c hcm
      refine ⟨nd, ?_, hholds⟩
      rw [hwr.agree c.addr ?_ (by simp [hnode]), hnode]
      intro heq
      rcases List.mem_cons.1 heq with heq | heq
      · exact hnot c hcm heq
      · exact h.not_mem c (hmem c hcm) (List.mem_singleton.1 heq ▸ hp)
    · obtain rfl : c = mergedBlock L R (ls ++ rs) := by
        simp only [List.mem_append, List.mem_cons] at hc hcm
        tauto
      exact hleft
  have hrow : RowOK geo.noPairs P (X ++ M :: Y) := by
    intro c hc
    rw [List.mem_append, List.mem_cons] at hc
    rcases hc with hc | rfl | hc
    · exact hXrow _ _ (fun d hd => h.row d (List.mem_append_left _ hd)) c hc
    · refine ⟨⟨?_, h.within.mono hlo.le hhi, ?_⟩, h.merged⟩
      · show t.lo < t.hi
        rw [hlo]
        exact h.lo_lt_hi.trans_le hhi
      · show (ls ++ rs).length ≤ geo.noPairs
        rw [List.length_append]
        exact h.room
    · exact hYrow _ _ (fun d hd => h.row d (List.mem_append_right _ hd)) c hc
  have hout : ∀ a ∈ pre.map (·.addr) ++ L.addr :: post.map (·.addr),
      a ∉ addrs ((pp ++ p :: qq) :: above) := by
    intro a ha
    have hmem' : a ∈ (pre ++ L :: R :: post).map (·.addr) :=
      hperm.mem_iff.2 (List.mem_cons_of_mem _ ha)
    obtain ⟨c, hc, rfl⟩ := List.mem_map.1 hmem'
    exact h.not_mem c hc
  have hafter' : After geo bot top (level + 1)
      (fun es => Shape geo.noPairs (weights (X ++ M :: Y) es))
      (fun es => HasBig geo.noPairs (weights (X ++ M :: Y) es))
      (addrs ((pp ++ p :: qq) :: above)) s₁ s₂ ((X ++ M :: Y).map (·.toSpan)) := by
    simp only [weights_eq_of_core hcore]
    rw [List.map_append, List.map_cons, hX, hY, ← haddrs]
    exact hafter
  obtain ⟨row', above', ht', hkids, -, hmoves⟩ := hafter'.below h.level_pos hrow
    (holds_of_core hcore hnodes) (by rw [hXY, hmid]; exact hnd.2) (by
      intro c hc
      refine hout _ ?_
      rw [← hmid, ← hXY]
      exact List.mem_map_of_mem hc)
  rw [hXY, hmid] at hmoves
  obtain ⟨ndr, hr, -⟩ := h.right
  obtain ⟨hne, -, hpr⟩ := h.addr_ne
  have hr₁ : s₁.nodes R.addr = some ndr := by
    rw [hwr.agree R.addr (by simp [hne.symm, hpr.symm]) (by simp [hr]), hr]
  obtain ⟨hfree, ht'', hmoves'⟩ := ht'.exists_run_free hmoves (by
    rw [List.mem_append, not_or]
    exact ⟨hnd.1, h.not_mem R (by simp)⟩) hr₁
  refine ⟨s₂.freeNode R.addr, row', above', kids X, t.hi, kids Y, ?_, ht'', ?_, hhi, hXkids, hYkids, ?_⟩
  · unfold merge
    rw [hwrites, Exec.run_bind_of_ok hrun, hfree]
  · rw [hkids, kids_append, kids_cons]
  · have hwr' : Writes ((pre ++ L :: R :: post).map (·.addr) ++ addrs ((pp ++ p :: qq) :: above)) s s₁ := by
      refine hwr.mono ?_
      intro a ha
      rcases List.mem_cons.1 ha with rfl | ha
      · simp
      · rw [List.mem_singleton.1 ha]
        exact List.mem_append_right _ hp
    refine hwr'.moves.trans (hmoves'.congr ?_ fun _ => Iff.rfl)
    intro a
    rw [List.mem_append, hperm.mem_iff]
    simp only [List.mem_append, List.mem_cons]
    tauto

end Merge

section Rebalance

variable {s : BtreeMem w} {bot top level fuel : ℕ} {P Q : List (ℕ × BitVec w) → Prop}
  {pre post par pp qq : List (Blk w)} {b p : Blk w} {above : List (List (Blk w))}
  {es₁ es₂ ep₁ ep₂ : List (ℕ × BitVec w)} {e : ℕ × BitVec w} {key : KeyPtr w} {k : ℕ} {nd : Node w}

/-- The rows above do not notice. -/
theorem Removal.tree_above
    (h : Removal geo bot top level P Q s pre b post (par :: above) es₁ e es₂ key k) (nd : Node w) :
    TreeAt geo bot top (level + 1)
      (fun es => Shape geo.noPairs (weights (pre ++ b :: post) es)) (Top geo.noPairs)
      (s.setNode b.addr nd) (par :: above) := by
  have hb0 : b.addr ≠ 0 := h.tree.stored.addr_ne_zero (by simp)
  refine h.tree.tail.of_agree (agree_setNode (List.mem_singleton_self _)) ?_ ?_ rfl rfl
  · intro c hc heq
    refine h.tree.stored.not_mem_above (b := b) (by simp) ?_
    rw [← List.mem_singleton.1 heq]
    exact List.mem_map_of_mem hc
  · rw [setNode_nodes_of_ne hb0.symm, h.tree.stored.null]

/-- The other nodes of the row do not change. -/
theorem Removal.holds_other (h : Removal geo bot top level P Q s pre b post above es₁ e es₂ key k)
    (nd : Node w) : ∀ c ∈ pre ++ post, ∃ nd', (s.setNode b.addr nd).nodes c.addr = some nd' ∧
      nd'.Holds geo c.entries := by
  intro c hc
  have hnodup := h.tree.stored.nodup_row
  rw [List.map_append, List.map_cons, List.perm_middle.nodup_iff, ← List.map_append,
    List.nodup_cons] at hnodup
  obtain ⟨nd', hnode, hholds⟩ := h.tree.stored.exists_node (b := c) (by
    rcases List.mem_append.1 hc with hc | hc
    · simp [hc]
    · simp [hc])
  refine ⟨nd', ?_, hholds⟩
  rw [setNode_nodes_of_ne, hnode]
  intro heq
  exact hnodup.1 (heq ▸ List.mem_map_of_mem hc)

/-- `rebalance` up to its first neighbour. -/
theorem Removal.run_rebalance
    (h : Removal geo bot top level P Q s pre b post ((pp ++ p :: qq) :: above) es₁ e es₂ key k)
    (hp : p.entries = ep₁ ++ (b.lo, b.addr) :: ep₂) (hhi : b.hi = lowest p.hi ep₁)
    (hnd : nd.Holds geo (es₁ ++ es₂)) (hne : es₁ ++ es₂ ≠ [])
    (removeLevel : KeyPtr w → ℕ → Exec (BtreeMem w) (BitVec w)) :
    (rebalance geo removeLevel key level b.addr (es₁ ++ es₂).length).run (s.setNode b.addr nd) =
      StateT.run (if 0 < ep₁.length then do
          let left ← bval geo p.addr (ep₁.length - 1)
          let noLeft := getfill geo (← load left) 0
          if (es₁ ++ es₂).length + noLeft ≤ geo.noPairs then
            merge geo removeLevel level left noLeft b.addr (es₁ ++ es₂).length p.addr (ep₁.length - 1)
          else rebalanceRight geo removeLevel level b.addr (es₁ ++ es₂).length p.addr ep₁.length
        else rebalanceRight geo removeLevel level b.addr (es₁ ++ es₂).length p.addr ep₁.length)
        (s.setNode b.addr nd) := by
  have ht := h.tree_above nd
  obtain ⟨l, hread, hlen, hcov⟩ := h.exists_read_after setNode_nodes_self hnd
  have hpok := (ht.levels.rowOK p (by simp)).1
  obtain ⟨hpcov, hgt⟩ := covers_parent hpok hp hhi hcov
  have hfind := run_findLevel ht (by simp) hpcov hread hlen
  obtain ⟨ndp, hnode, hholds⟩ := ht.stored.exists_node (b := p) (by simp)
  rw [hp] at hholds
  have hw := hpok.within
  rw [hp] at hw
  have hpos := hholds.getpos_eq hlen hgt (by
    intro x hx
    have hw₂ := (within_cons.1 (within_append.1 hw).2).2.2
    rcases List.mem_cons.1 hx with rfl | hx
    · exact hcov.1
    · exact (hw₂.lt_hi x hx).le.trans hcov.1)
  obtain ⟨hlt, hpair⟩ := hholds.pair_mid
  have hval : ndp.val geo ep₁.length = b.addr := congrArg Prod.snd hpair
  have hchild : (bval geo p.addr ep₁.length).run (s.setNode b.addr nd) =
      .ok (b.addr, s.setNode b.addr nd) := by
    rw [run_bval hnode hlt, hval]
  unfold rebalance
  rw [if_neg (by rw [List.length_eq_zero_iff]; exact hne), Exec.run_bind_of_ok hfind,
    Exec.run_bind_of_ok (run_load hnode), Exec.run_bind_of_ok hread, hpos]
  dsimp only
  rw [Exec.run_bind_of_ok hchild, if_neg (by simp)]

/-- The right neighbour in the row. -/
theorem exists_next {R : ℕ × BitVec w} {hi : ℕ}
    (hpost : post.map (·.toSpan) = spans hi (R :: ep₂) ++ kids qq) : ∃ r post₀, post = r :: post₀ ∧
      r.toSpan = ⟨R.2, R.1, hi⟩ ∧ post₀.map (·.toSpan) = spans R.1 ep₂ ++ kids qq := by
  rw [spans_cons, List.cons_append] at hpost
  exact List.map_eq_cons_iff.1 hpost

/-- The left neighbour in the row. -/
theorem exists_prev {L : ℕ × BitVec w}
    (hpre : pre.map (·.toSpan) = kids pp ++ spans p.hi (ep₁ ++ [L])) : ∃ pre₀ l, pre = pre₀ ++ [l] ∧
      l.toSpan = ⟨L.2, L.1, lowest p.hi ep₁⟩ ∧ pre₀.map (·.toSpan) = kids pp ++ spans p.hi ep₁ := by
  rw [spans_append, spans_cons, spans_nil, ← List.append_assoc] at hpre
  obtain ⟨pre₀, last, rfl, hpre₀, hlast⟩ := List.map_eq_append_iff.1 hpre
  obtain ⟨l, rfl, hl⟩ := List.map_eq_singleton_iff.1 hlast
  exact ⟨pre₀, l, rfl, hl, hpre₀⟩

/-- The block and its right neighbour. -/
theorem Removal.merging_right {r : Blk w} {post₀ : List (Blk w)}
    (h : Removal geo bot top level P Q s pre b (r :: post₀) ((pp ++ p :: qq) :: above) es₁ e es₂ key k)
    (hp : p.entries = ep₁ ++ (b.lo, b.addr) :: (r.lo, r.addr) :: ep₂) (hhi : b.hi = lowest p.hi ep₁)
    (hpre : pre.map (·.toSpan) = kids pp ++ spans p.hi ep₁) (hr : r.hi = b.lo)
    (hpost : post₀.map (·.toSpan) = spans r.lo ep₂ ++ kids qq) (hnd : nd.Holds geo (es₁ ++ es₂))
    (hne : es₁ ++ es₂ ≠ []) (hsmall : (es₁ ++ es₂).length < geo.noPairs / 2)
    (hroom : (es₁ ++ es₂).length + r.entries.length ≤ geo.noPairs) :
    Merging geo bot top level P (s.setNode b.addr nd) pre b r post₀ pp p qq above ep₁ ep₂ (es₁ ++ es₂)
      r.entries := by
  have hpos := h.tree.entries_pos (b := r) (by simp)
  have hok := (h.tree.levels.rowOK b (by simp)).1
  have hrok := (h.tree.levels.rowOK r (by simp)).1
  have hrlt : r.lo < b.lo := hrok.lo_lt_hi.trans_eq hr
  have hw := within_erase h.within
  have hother := h.holds_other nd
  have hpair : ∀ c ∈ pre ++ post₀, c ∈ pre ++ r :: post₀ := by
    intro c hc
    rcases List.mem_append.1 hc with hc | hc
    · simp [hc]
    · simp [hc]
  refine ⟨h.tree_above nd, h.level_pos, hp, hpre, hpost, hhi, h.tree.stored.nodup_row,
    fun c hc => h.tree.stored.not_mem_above hc, h.tree.levels.nodup_flat h.tree.stored.nodup_row,
    fun c hc => hother c (hpair c hc), ⟨nd, setNode_nodes_self, hnd⟩, hother r (by simp), hroom, ?_,
    by omega, ?_, ?_, ?_, hrlt.trans hok.lo_lt_hi⟩
  · rw [h.entries, List.length_append, List.length_cons, List.length_append]
    omega
  · intro c hc
    refine ⟨(h.tree.levels.rowOK c ?_).1, h.keep c (hpair c hc)⟩
    rcases List.mem_append.1 hc with hc | hc
    · simp [hc]
    · simp [hc]
  · exact (h.join r.entries (es₁ ++ es₂) (h.keep r (by simp)) (h.rest (.inl hne)).2 hsmall).2
  · rw [within_append]
    refine ⟨hw.mono hrlt.le (le_refl _), hrok.within.mono (le_refl _) ?_⟩
    rw [hr]
    exact hw.le_lowest hok.lo_lt_hi.le

/-- The block and its left neighbour. -/
theorem Removal.merging_left {l : Blk w} {pre₀ : List (Blk w)}
    (h : Removal geo bot top level P Q s (pre₀ ++ [l]) b post ((pp ++ p :: qq) :: above) es₁ e es₂
      key k)
    (hp : p.entries = ep₁ ++ (l.lo, l.addr) :: (b.lo, b.addr) :: ep₂) (hhi : l.hi = lowest p.hi ep₁)
    (hpre : pre₀.map (·.toSpan) = kids pp ++ spans p.hi ep₁) (hb : b.hi = l.lo)
    (hpost : post.map (·.toSpan) = spans b.lo ep₂ ++ kids qq) (hnd : nd.Holds geo (es₁ ++ es₂))
    (hne : es₁ ++ es₂ ≠ []) (hsmall : (es₁ ++ es₂).length < geo.noPairs / 2)
    (hroom : l.entries.length + (es₁ ++ es₂).length ≤ geo.noPairs) :
    Merging geo bot top level P (s.setNode b.addr nd) pre₀ l b post pp p qq above ep₁ ep₂ l.entries
      (es₁ ++ es₂) := by
  have hpos := h.tree.entries_pos (b := l) (by simp)
  have hok := (h.tree.levels.rowOK b (by simp)).1
  have hlok := (h.tree.levels.rowOK l (by simp)).1
  have hlt : b.lo < l.lo := hok.lo_lt_hi.trans_eq hb
  have hw := within_erase h.within
  have hother := h.holds_other nd
  have hrow : pre₀ ++ [l] ++ b :: post = pre₀ ++ l :: b :: post := by simp
  have hpair : ∀ c ∈ pre₀ ++ post, c ∈ pre₀ ++ [l] ++ post := by
    intro c hc
    rcases List.mem_append.1 hc with hc | hc
    · simp [hc]
    · simp [hc]
  have ht := h.tree_above nd
  have hst := h.tree.stored
  have hlevels := h.tree.levels
  rw [hrow] at ht hst hlevels
  refine ⟨ht, h.level_pos, hp, hpre, hpost, hhi, hst.nodup_row, fun c hc => hst.not_mem_above hc,
    hlevels.nodup_flat hst.nodup_row, fun c hc => hother c (hpair c hc), hother l (by simp),
    ⟨nd, setNode_nodes_self, hnd⟩, hroom, by omega, ?_, ?_, ?_, ?_, hlt.trans hlok.lo_lt_hi⟩
  · rw [h.entries, List.length_append, List.length_cons, List.length_append]
    omega
  · intro c hc
    refine ⟨(hlevels.rowOK c ?_).1, h.keep c (hpair c hc)⟩
    rcases List.mem_append.1 hc with hc | hc
    · simp [hc]
    · simp [hc]
  · exact (h.join l.entries (es₁ ++ es₂) (h.keep l (by simp)) (h.rest (.inl hne)).2 hsmall).1
  · rw [within_append]
    refine ⟨hlok.within.mono hlt.le (le_refl _), hw.mono (le_refl _) ?_⟩
    rw [hb]
    exact hlok.within.le_lowest hlok.lo_lt_hi.le

/-- Merged with the right neighbour. -/
theorem Removal.gives_right {r : Blk w} {post₀ row' : List (Blk w)} {above' : List (List (Blk w))}
    {s' : BtreeMem w} {T₁ T₂ : List (Span ℕ (BitVec w))} {hi : ℕ}
    (h : Removal geo bot top level P Q s pre b (r :: post₀) above es₁ e es₂ key k)
    (hr : r.hi = b.lo)
    (ht : TreeAt geo bot top level P (RootOK geo.noPairs level) s' (row' :: above'))
    (hkids : kids row' = T₁ ++ (spans hi ((es₁ ++ es₂) ++ r.entries) ++ T₂)) (hhi : b.hi ≤ hi)
    (hT₁ : Raised (kids pre) T₁) (hT₂ : Raised (kids post₀) T₂)
    (hmoves : Moves (addrs ((pre ++ b :: r :: post₀) :: above)) (addrs (row' :: above')) s s') :
    h.Gives s' := by
  have hok := (h.tree.levels.rowOK b (by simp)).1
  have hw := h.within
  have hlow : lowest b.hi es₁ ≤ lowest hi es₁ := lowest_mono hhi es₁
  have he : e.1 ≤ lowest hi es₁ := ((within_cons.1 (within_append.1 hw).2).2.1.le).trans hlow
  refine ⟨T₁ ++ spans hi es₁, spans (lowest hi es₁) (es₂ ++ r.entries) ++ T₂,
    hT₁.append (raised_spans hhi es₁), ?_, ?_, .row row' above' ht ?_ hmoves⟩
  · rw [kids_cons, spans_append, List.append_assoc]
    refine (raised_spans he es₂).append ((raised_spans ?_ r.entries).append hT₂)
    rw [hr, ← lowest_append]
    refine le_trans ?_ (lowest_mono hhi _)
    exact (within_erase hw).le_lowest hok.lo_lt_hi.le
  · intro hne
    cases es₂ with
    | nil => exact absurd rfl hne
    | cons x es₂ => exact ⟨_, _, rfl, hlow⟩
  · rw [hkids, List.append_assoc es₁, spans_append]
    simp

/-- Merged with the left neighbour. -/
theorem Removal.gives_left {l : Blk w} {pre₀ row' : List (Blk w)} {above' : List (List (Blk w))}
    {s' : BtreeMem w} {T₁ T₂ : List (Span ℕ (BitVec w))} {hi : ℕ}
    (h : Removal geo bot top level P Q s (pre₀ ++ [l]) b post above es₁ e es₂ key k)
    (hb : b.hi = l.lo)
    (ht : TreeAt geo bot top level P (RootOK geo.noPairs level) s' (row' :: above'))
    (hkids : kids row' = T₁ ++ (spans hi (l.entries ++ (es₁ ++ es₂)) ++ T₂)) (hhi : l.hi ≤ hi)
    (hT₁ : Raised (kids pre₀) T₁) (hT₂ : Raised (kids post) T₂)
    (hmoves : Moves (addrs ((pre₀ ++ [l] ++ b :: post) :: above)) (addrs (row' :: above')) s s') :
    h.Gives s' := by
  have hlok := (h.tree.levels.rowOK l (by simp)).1
  have hw := h.within
  have hble : b.hi ≤ lowest hi l.entries := by
    rw [hb]
    exact (hlok.within.le_lowest hlok.lo_lt_hi.le).trans (lowest_mono hhi _)
  have hlow : lowest b.hi es₁ ≤ lowest hi (l.entries ++ es₁) := by
    rw [lowest_append]
    exact lowest_mono hble es₁
  have he : e.1 ≤ lowest hi (l.entries ++ es₁) :=
    ((within_cons.1 (within_append.1 hw).2).2.1.le).trans hlow
  refine ⟨T₁ ++ spans hi (l.entries ++ es₁), spans (lowest hi (l.entries ++ es₁)) es₂ ++ T₂, ?_,
    (raised_spans he es₂).append hT₂, ?_, .row row' above' ht ?_ hmoves⟩
  · rw [kids_append, kids_cons, kids_nil, List.append_nil, spans_append, List.append_assoc]
    exact hT₁.append ((raised_spans hhi l.entries).append (raised_spans hble es₁))
  · intro hne
    cases es₂ with
    | nil => exact absurd rfl hne
    | cons x es₂ => exact ⟨_, _, rfl, hlow⟩
  · rw [hkids, ← List.append_assoc l.entries, spans_append]
    simp

/-- The right neighbour's turn: it is merged, or nothing happens because there is none or it is big. -/
theorem Removal.exists_run_right
    (h : Removal geo bot top level P Q s pre b post ((pp ++ p :: qq) :: above) es₁ e es₂ key k)
    (ih : Removable (w := w) geo bot top fuel above.length)
    (hp : p.entries = ep₁ ++ (b.lo, b.addr) :: ep₂) (hhi : b.hi = lowest p.hi ep₁)
    (hpre : pre.map (·.toSpan) = kids pp ++ spans p.hi ep₁)
    (hpost : post.map (·.toSpan) = spans b.lo ep₂ ++ kids qq)
    (hnd : nd.Holds geo (es₁ ++ es₂)) (hne : es₁ ++ es₂ ≠ [])
    (hsmall : (es₁ ++ es₂).length < geo.noPairs / 2) : ∃ s',
      (rebalanceRight geo (btreeRemoveLevel geo fuel) level b.addr (es₁ ++ es₂).length p.addr
        ep₁.length).run (s.setNode b.addr nd) = .ok ((), s') ∧
      (h.Gives s' ∨ s' = s.setNode b.addr nd ∧ ∀ z, (weights (pre ++
        { b with entries := es₁ ++ es₂ } :: post) ep₂).head? = some z → geo.noPairs / 2 ≤ z) := by
  have ht := h.tree_above nd
  obtain ⟨ndp, hnode, hholds⟩ := ht.stored.exists_node (b := p) (by simp)
  have hfill : getfill geo ndp ep₁.length = p.entries.length :=
    hholds.getfill_eq (by rw [hp]; simp)
  rw [hp] at hholds
  unfold rebalanceRight
  rw [Exec.run_bind_of_ok (run_load hnode), hfill, hp]
  cases ep₂ with
  | nil =>
      refine ⟨s.setNode b.addr nd, ?_, .inr ⟨rfl, by simp [weights]⟩⟩
      rw [if_neg (by simp)]
      rfl
  | cons x ep₂ =>
      obtain ⟨r, post₀, rfl, hr, hpost₀⟩ := exists_next hpost
      have hraddr : r.addr = x.2 := congrArg Span.addr hr
      have hrlo : r.lo = x.1 := congrArg Span.lo hr
      have hx : x = (r.lo, r.addr) := by rw [hraddr, hrlo]
      rw [hx] at hp hholds
      rw [List.append_cons] at hholds
      obtain ⟨hlt, hpair⟩ := hholds.pair_mid
      rw [List.length_append, List.length_singleton] at hlt hpair
      obtain ⟨ndr, hnoder, hholdsr⟩ := h.holds_other nd r (by simp)
      have hval : ndp.val geo (ep₁.length + 1) = r.addr := congrArg Prod.snd hpair
      have hright : (bval geo p.addr (ep₁.length + 1)).run (s.setNode b.addr nd) =
          .ok (r.addr, s.setNode b.addr nd) := by
        rw [run_bval hnode hlt, hval]
      rw [if_pos (by simp), Exec.run_bind_of_ok hright, Exec.run_bind_of_ok (run_load hnoder)]
      dsimp only
      rw [hholdsr.getfill_eq (Nat.zero_le _)]
      by_cases hroom : (es₁ ++ es₂).length + r.entries.length ≤ geo.noPairs
      · have hm := h.merging_right hp hhi hpre (congrArg Span.hi hr) (by rw [hrlo]; exact hpost₀) hnd
          hne hsmall hroom
        obtain ⟨s', row', above', T₁, hi, T₂, hrun, ht', hkids, hle, hT₁, hT₂, hmoves⟩ := hm.exists_run ih
        refine ⟨s', ?_, .inl (h.gives_right (congrArg Span.hi hr) ht' hkids hle hT₁ hT₂ ?_)⟩
        · rw [if_pos hroom, hrun]
        · obtain ⟨nd₀, hnode₀, -⟩ := h.tree.stored.exists_node (b := b) (by simp)
          have hwrite : Writes (addrs ((pre ++ b :: r :: post₀) :: (pp ++ p :: qq) :: above)) s
              (s.setNode b.addr nd) := writes_setNode (mem_addrs (by simp)) hnode₀
          rw [← addrs_cons] at hmoves
          exact hwrite.moves.trans hmoves
      · refine ⟨s.setNode b.addr nd, ?_, .inr ⟨rfl, ?_⟩⟩
        · rw [if_neg hroom]
          rfl
        · intro z hz
          obtain rfl : fill (pre ++ { b with entries := es₁ ++ es₂ } :: r :: post₀) x.2 = z := by
            simpa [weights] using hz
          have hnodup : ((pre ++ { b with entries := es₁ ++ es₂ } :: r :: post₀).map (·.addr)).Nodup := by
            simpa using h.tree.stored.nodup_row
          rw [← hraddr, fill_of_mem hnodup (by simp)]
          omega

/-- A small block that is not empty. -/
theorem Removal.exists_run_rebalance
    (h : Removal geo bot top level P Q s pre b post (par :: above) es₁ e es₂ key k)
    (ih : Removable (w := w) geo bot top fuel above.length) (hnd : nd.Holds geo (es₁ ++ es₂))
    (hne : es₁ ++ es₂ ≠ []) (hsmall : (es₁ ++ es₂).length < geo.noPairs / 2) : ∃ s',
      (rebalance geo (btreeRemoveLevel geo fuel) key level b.addr (es₁ ++ es₂).length).run
        (s.setNode b.addr nd) = .ok ((), s') ∧ h.Gives s' := by
  obtain ⟨pp, p, qq, ep₁, ep₂, rfl, hp, hhi, hpre, hpost⟩ := h.tree.levels.exists_parent
  have hfour := geo.four_le_noPairs
  -- where neither neighbour is merged, both are big, and the parent may keep the small block
  have hplain : (∀ z, (weights (pre ++ { b with entries := es₁ ++ es₂ } :: post) ep₁).getLast? =
      some z → geo.noPairs / 2 ≤ z) → (∀ z, (weights (pre ++ { b with entries := es₁ ++ es₂ } :: post)
      ep₂).head? = some z → geo.noPairs / 2 ≤ z) → h.Gives (s.setNode b.addr nd) := by
    intro hleft hright
    refine h.gives_plain hnd (h.rest (.inl hne)).1 (by simp) ?_
    intro par' above' habove
    obtain ⟨rfl, rfl⟩ := List.cons.inj habove
    refine ⟨pp, p, qq, ep₁, ep₂, rfl, hp, ?_⟩
    rintro row' rfl hshape
    exact hshape.shield hfour (List.length_pos_iff.2 hne) hleft hright
  obtain ⟨s', hrun', hright⟩ := h.exists_run_right ih hp hhi hpre hpost hnd hne hsmall
  have hrun := h.run_rebalance hp hhi hnd hne (btreeRemoveLevel geo fuel)
  rcases List.eq_nil_or_concat ep₁ with rfl | ⟨ep₁, x, rfl⟩
  · refine ⟨s', ?_, ?_⟩
    · rw [hrun, if_neg (by simp), hrun']
    · rcases hright with hgives | ⟨rfl, hright⟩
      · exact hgives
      · exact hplain (by simp [weights]) hright
  · rw [List.concat_eq_append] at *
    obtain ⟨pre₀, l, rfl, hl, hpre₀⟩ := exists_prev hpre
    have hladdr : l.addr = x.2 := congrArg Span.addr hl
    have hllo : l.lo = x.1 := congrArg Span.lo hl
    have hx : x = (l.lo, l.addr) := by rw [hladdr, hllo]
    have hbhi : b.hi = l.lo := by
      rw [hhi, lowest_append, hllo]
      rfl
    have ht := h.tree_above nd
    obtain ⟨ndp, hnode, hholds⟩ := ht.stored.exists_node (b := p) (by simp)
    obtain ⟨ndl, hnodel, hholdsl⟩ := h.holds_other nd l (by simp)
    have hp' := hp
    rw [hx, List.append_assoc, List.singleton_append] at hp'
    rw [hp'] at hholds
    obtain ⟨hlt, hpair⟩ := hholds.pair_mid
    have hval : ndp.val geo ep₁.length = l.addr := congrArg Prod.snd hpair
    have hbval : (bval geo p.addr ep₁.length).run (s.setNode b.addr nd) =
        .ok (l.addr, s.setNode b.addr nd) := by
      rw [run_bval hnode hlt, hval]
    have hlen : (ep₁ ++ [x]).length = ep₁.length + 1 := by simp
    rw [hlen, if_pos (Nat.succ_pos _), Nat.add_sub_cancel,
      Exec.run_bind_of_ok hbval, Exec.run_bind_of_ok (run_load hnodel)] at hrun
    dsimp only at hrun
    rw [hholdsl.getfill_eq (Nat.zero_le _)] at hrun
    by_cases hroom : (es₁ ++ es₂).length + l.entries.length ≤ geo.noPairs
    · have hm := h.merging_left hp' (congrArg Span.hi hl) hpre₀ hbhi hpost hnd hne hsmall (by omega)
      obtain ⟨s', row', above', T₁, hi, T₂, hrunm, ht', hkids, hle, hT₁, hT₂, hmoves⟩ := hm.exists_run ih
      refine ⟨s', ?_, h.gives_left hbhi ht' hkids hle hT₁ hT₂ ?_⟩
      · rw [hrun, if_pos hroom, hrunm]
      · obtain ⟨nd₀, hnode₀, -⟩ := h.tree.stored.exists_node (b := b) (by simp)
        have hwrite : Writes (addrs ((pre₀ ++ [l] ++ b :: post) :: (pp ++ p :: qq) :: above)) s
            (s.setNode b.addr nd) := writes_setNode (mem_addrs (by simp)) hnode₀
        have hrow : pre₀ ++ l :: b :: post = pre₀ ++ [l] ++ b :: post := by simp
        rw [← addrs_cons, hrow] at hmoves
        exact hwrite.moves.trans hmoves
    · refine ⟨s', ?_, ?_⟩
      · rw [hrun, if_neg hroom]
        simpa using hrun'
      · rcases hright with hgives | ⟨rfl, hright⟩
        · exact hgives
        · refine hplain ?_ hright
          intro z hz
          obtain rfl : fill (pre₀ ++ [l] ++ { b with entries := es₁ ++ es₂ } :: post) x.2 = z := by
            simpa [weights] using hz
          have hnodup : ((pre₀ ++ [l] ++ { b with entries := es₁ ++ es₂ } :: post).map (·.addr)).Nodup := by
            simpa using h.tree.stored.nodup_row
          rw [← hladdr, fill_of_mem hnodup (by simp)]
          omega

end Rebalance

/-! ## The recursion -/

section Refit

variable {s : BtreeMem w} {bot top level fuel : ℕ} {P Q : List (ℕ × BitVec w) → Prop}
  {pre post par : List (Blk w)} {b : Blk w} {above : List (List (Blk w))}
  {es₁ es₂ : List (ℕ × BitVec w)} {e : ℕ × BitVec w} {key : KeyPtr w} {k : ℕ} {nd : Node w}

/-- A root above the leaves does not become empty. -/
theorem Removal.root_ne_nil (h : Removal geo bot top level P Q s pre b post [] es₁ e es₂ key k)
    (hlevel : level ≠ 1) : es₁ ++ es₂ ≠ [] := by
  obtain ⟨-, c, hc, -, -, hroot⟩ := h.tree.levels
  obtain ⟨rfl, rfl, rfl⟩ : pre = [] ∧ b = c ∧ post = [] := by
    cases pre with
    | nil => simpa using hc
    | cons d pre => simp at hc
  have hlen : 2 ≤ b.entries.length := by
    rcases h.more with heven | ⟨hone, -⟩ | hmore
    · exact hroot hlevel heven
    · exact absurd hone hlevel
    · simpa using hmore
  rw [h.entries, List.length_append, List.length_cons] at hlen
  rw [← List.length_pos_iff, List.length_append]
  omega

/-- The topmost level. -/
theorem Removal.exists_run_refit_root
    (h : Removal geo bot top level P Q s pre b post [] es₁ e es₂ key k)
    (hnd : nd.Holds geo (es₁ ++ es₂)) (removeLevel : KeyPtr w → ℕ → Exec (BtreeMem w) (BitVec w)) :
    ∃ s', (refit geo removeLevel key level b.addr (es₁ ++ es₂).length).run (s.setNode b.addr nd) =
      .ok ((), s') ∧ h.Gives s' := by
  have hfour := geo.four_le_noPairs
  have hheight : s.height = level := by simpa using h.tree.height
  have hplain : level = 1 ∨ 2 ≤ (es₁ ++ es₂).length → h.Gives (s.setNode b.addr nd) := by
    intro hor
    have hrest : es₁ ++ es₂ ≠ [] ∨ level = 1 := by
      rcases hor with hone | htwo
      · exact .inr hone
      · refine .inl ?_
        rw [← List.length_pos_iff]
        omega
    refine h.gives_plain hnd (h.rest hrest).1 ?_ (by simp)
    intro _ hlevel _
    exact hor.resolve_left hlevel
  unfold refit
  by_cases hsmall : (es₁ ++ es₂).length < geo.noPairs / 2
  · rw [if_pos hsmall, Exec.run_get_bind, setNode_height, if_neg (by omega)]
    by_cases hlevel : level = 1
    · refine ⟨s.setNode b.addr nd, ?_, hplain (.inl hlevel)⟩
      split_ifs
      · unfold btreeShrink
        rw [Exec.run_get_bind, if_pos (by rw [setNode_height]; omega)]
        rfl
      · rfl
    · have hne := h.root_ne_nil hlevel
      by_cases hone : (es₁ ++ es₂).length = 1
      · obtain ⟨x, hx⟩ := List.length_eq_one_iff.1 hone
        rw [if_pos hone]
        exact h.exists_run_shrink hlevel hx hnd
      · refine ⟨s.setNode b.addr nd, ?_, hplain (.inr ?_)⟩
        · rw [if_neg hone]
          rfl
        · have := List.length_pos_iff.2 hne
          omega
  · refine ⟨s.setNode b.addr nd, ?_, hplain (.inr (by omega))⟩
    rw [if_neg hsmall]
    rfl

/-- A level below the topmost one. -/
theorem Removal.exists_run_refit
    (h : Removal geo bot top level P Q s pre b post (par :: above) es₁ e es₂ key k)
    (ih : Removable (w := w) geo bot top fuel above.length) (hnd : nd.Holds geo (es₁ ++ es₂)) :
    ∃ s', (refit geo (btreeRemoveLevel geo fuel) key level b.addr (es₁ ++ es₂).length).run
      (s.setNode b.addr nd) = .ok ((), s') ∧ h.Gives s' := by
  have hfour := geo.four_le_noPairs
  unfold refit
  by_cases hsmall : (es₁ ++ es₂).length < geo.noPairs / 2
  · rw [if_pos hsmall, Exec.run_get_bind, setNode_height, if_pos (h.level_le.2.2 (by simp))]
    by_cases hne : es₁ ++ es₂ = []
    · obtain ⟨rfl, rfl⟩ := List.append_eq_nil_iff.1 hne
      exact h.exists_run_empty ih nd
    · exact h.exists_run_rebalance ih hnd hne hsmall
  · refine ⟨s.setNode b.addr nd, ?_, ?_⟩
    · rw [if_neg hsmall]
      rfl
    · refine h.gives_plain hnd (h.rest (.inl ?_)).1 (by simp) ?_
      · rw [← List.length_pos_iff]
        omega
      · intro par' above' habove
        obtain ⟨rfl, rfl⟩ := List.cons.inj habove
        obtain ⟨pp, p, qq, ep₁, ep₂, rfl, hp, -, -, -⟩ := h.tree.levels.exists_parent
        refine ⟨pp, p, qq, ep₁, ep₂, rfl, hp, ?_⟩
        intro row' _ hshape
        exact hshape.replace (by omega) (fun _ => by omega)

theorem removable (geo : Geo) (bot top n : ℕ) (hfuel : n + 1 ≤ fuel) :
    Removable (w := w) geo bot top fuel n := by
  induction n generalizing fuel with
  | zero =>
      intro s level P Q pre post b above es₁ es₂ e key k habove h
      obtain rfl := List.length_eq_zero_iff.1 habove
      obtain ⟨fuel, rfl⟩ : ∃ f, fuel = f + 1 := ⟨fuel - 1, by omega⟩
      obtain ⟨nd, hnd, hrun⟩ := h.exists_run fuel
      obtain ⟨s', hrefit, hgives⟩ := h.exists_run_refit_root hnd (btreeRemoveLevel geo fuel)
      refine ⟨s', ?_, hgives⟩
      rw [hrun, Exec.run_bind_of_ok hrefit]
      rfl
  | succ n ih =>
      intro s level P Q pre post b above es₁ es₂ e key k habove h
      obtain ⟨par, above, rfl⟩ := List.exists_cons_of_length_eq_add_one habove
      obtain ⟨fuel, rfl⟩ : ∃ f, fuel = f + 1 := ⟨fuel - 1, by omega⟩
      obtain ⟨nd, hnd, hrun⟩ := h.exists_run fuel
      have habove' : above.length = n := by simpa using habove
      have ih' : Removable (w := w) geo bot top fuel above.length := by
        rw [habove']
        exact ih (by omega)
      obtain ⟨s', hrefit, hgives⟩ := h.exists_run_refit ih' hnd
      refine ⟨s', ?_, hgives⟩
      rw [hrun, Exec.run_bind_of_ok hrefit]
      rfl

end Refit

end StructLib.Btree
