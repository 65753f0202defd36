import StructLib.Btree.Holding

set_option autoImplicit false

/-! # Searches in a B+tree

`btree_lookup`, `btree_update` and `btree_get_prev` go down the tree in the same way: in each node they
follow the first entry whose key is not above the key they look for, if there is one. They change no
lower end of an interval, so that a key that belongs to no child ends the search, or, for
`btree_get_prev`, starts another one below the last key that was followed. -/

namespace StructLib.Btree

variable {w : ℕ} {geo : Geo}

/-! ## One round -/

section Step

variable {s s' : BtreeMem w} {nd : Node w} {es es₁ es₂ : List (ℕ × BitVec w)} {e : ℕ × BitVec w}
  {a node : BitVec w} {key : List (BitVec w)} {n : ℕ} {retryKey retryKey' : Option (KeyPtr w)}

theorem run_lookupStep (h : s.nodes a = some nd) (hnd : nd.Holds geo (es₁ ++ e :: es₂))
    (hlen : key.length = geo.keylen) (h₁ : ∀ x ∈ es₁, wordsVal key < x.1)
    (h₂ : ∀ x ∈ e :: es₂, x.1 ≤ wordsVal key) : (lookupStep geo key a).run s = .ok (e.2, s) := by
  obtain ⟨hlt, hpair⟩ := hnd.pair_mid
  have hval : nd.val geo es₁.length = e.2 := congrArg Prod.snd hpair
  unfold lookupStep
  rw [Exec.run_bind_of_ok (run_load h), hnd.getpos_eq hlen h₁ h₂]
  dsimp only
  rw [if_neg (by omega), run_bval h hlt, hval]

theorem run_lookupStep_miss (h : s.nodes a = some nd) (hnd : nd.Holds geo es)
    (hlen : key.length = geo.keylen) (hall : ∀ x ∈ es, wordsVal key < x.1) :
    (lookupStep geo key a).run s = .ok (0, s) := by
  have hnd' : nd.Holds geo (es ++ []) := by rwa [List.append_nil]
  have hle := hnd.length_le
  unfold lookupStep
  rw [Exec.run_bind_of_ok (run_load h), hnd'.getpos_eq hlen hall (by simp)]
  dsimp only
  by_cases hfull : es.length = geo.noPairs
  · rw [if_pos hfull]
    rfl
  · rw [if_neg hfull, run_bval h (by omega), hnd.val_eq (by omega), List.getD_eq_default _ _ (le_refl _)]

/-- The rounds of the loop, the last one apart. -/
theorem run_prevDown_succ (hne : node ≠ 0)
    (h : (prevDown geo key n node retryKey).run s = .ok ((a, retryKey'), s')) :
    (prevDown geo key (n + 1) node retryKey).run s =
      StateT.run (if a = 0 then return (0, retryKey') else prevDown geo key 1 a retryKey') s' := by
  induction n generalizing s node retryKey with
  | zero =>
      obtain ⟨⟨rfl, rfl⟩, rfl⟩ : (node = a ∧ retryKey = retryKey') ∧ s = s' := by
        simpa [prevDown] using h
      rw [if_neg hne]
  | succ n ih =>
      unfold prevDown at h ⊢
      obtain ⟨child, s₁, hstep, hrest⟩ := Exec.of_run_bind h
      rw [Exec.run_bind_of_ok hstep]
      by_cases hchild : child = 0
      · rw [if_pos hchild] at hrest ⊢
        obtain ⟨⟨rfl, rfl⟩, rfl⟩ : (0 = a ∧ retryKey = retryKey') ∧ s₁ = s' := by
          simpa using hrest
        rw [if_pos rfl]
      · rw [if_neg hchild] at hrest ⊢
        obtain ⟨nd, s₂, hload, hrest⟩ := Exec.of_run_bind hrest
        rw [Exec.run_bind_of_ok hload]
        exact ih hchild hrest

theorem of_run_load (h : (load a).run s = .ok (nd, s')) : s.nodes a = some nd ∧ s' = s := by
  unfold load at h
  rw [Exec.run_get_bind] at h
  cases hnode : s.nodes a with
  | none =>
      rw [hnode] at h
      cases h
  | some nd' =>
      rw [hnode] at h
      obtain ⟨rfl, rfl⟩ : nd' = nd ∧ s = s' := by simpa using h
      exact ⟨rfl, rfl⟩

/-- `btree_lookup` goes the same way. -/
theorem run_lookupDown (h : (prevDown geo key n node retryKey).run s = .ok ((a, retryKey'), s')) :
    (lookupDown geo key n node).run s = .ok (a, s') := by
  induction n generalizing s node retryKey with
  | zero =>
      obtain ⟨⟨rfl, rfl⟩, rfl⟩ : (node = a ∧ retryKey = retryKey') ∧ s = s' := by
        simpa [prevDown] using h
      rfl
  | succ n ih =>
      unfold prevDown at h
      unfold lookupDown
      obtain ⟨child, s₁, hstep, hrest⟩ := Exec.of_run_bind h
      rw [Exec.run_bind_of_ok hstep]
      by_cases hchild : child = 0
      · rw [if_pos hchild] at hrest ⊢
        obtain ⟨⟨rfl, rfl⟩, rfl⟩ : (0 = a ∧ retryKey = retryKey') ∧ s₁ = s' := by
          simpa using hrest
        rfl
      · rw [if_neg hchild] at hrest ⊢
        obtain ⟨nd, s₂, hload, hdown⟩ := Exec.of_run_bind hrest
        obtain ⟨-, rfl⟩ := of_run_load hload
        exact ih hdown

end Step

/-! ## The whole way -/

/-- `retry_key` after some rounds: NULL before the first one, and then a pointer to the lower end of
    the interval to which the search is confined. -/
def Retry (geo : Geo) (s : BtreeMem w) (bot k lo : ℕ) : Option (KeyPtr w) → Prop
  | none => lo = bot
  | some key => lo ≤ k ∧ ∃ l, (key.read geo).run s = .ok (l, s) ∧ l.length = geo.keylen ∧ wordsVal l = lo

/-- Where the rounds lead to in a row: to the block with the lower end `lo` that has only blocks with
    greater keys than `k` on its left, or to nothing, and no block of the row has keys from `lo` to
    `k`. -/
inductive Lands (row : List (Blk w)) (k lo : ℕ) : BitVec w → Prop
  | block (pre : List (Blk w)) (b : Blk w) (post : List (Blk w)) (row_eq : row = pre ++ b :: post)
      (lo_eq : b.lo = lo) (left : ∀ c ∈ pre, k < c.lo) : Lands row k lo b.addr
  | miss (apart : ∀ b ∈ row, b.hi ≤ lo ∨ k < b.lo) : Lands row k lo 0

section Descent

variable {s : BtreeMem w} {bot top lo k : ℕ} {P R : List (ℕ × BitVec w) → Prop} {row : List (Blk w)}
  {above : List (List (Blk w))} {key : List (BitVec w)}

/-- The entries left and right of a key. -/
theorem exists_cut_le {lo hi : ℕ} {es : List (ℕ × BitVec w)} (h : Within lo hi es) (k : ℕ) :
    ∃ es₁ es₂, es = es₁ ++ es₂ ∧ (∀ e ∈ es₁, k < e.1) ∧ ∀ e ∈ es₂, e.1 ≤ k := by
  by_cases hk : k < hi
  · obtain ⟨es₁, es₂, hes, h₁, h₂, -⟩ := exists_cut h hk
    exact ⟨es₁, es₂, hes, h₁, h₂⟩
  · exact ⟨[], es, rfl, by simp, fun e he => (h.lt_hi e he).le.trans (not_lt.1 hk)⟩

theorem exists_run_prevDown (hl : Levels geo.noPairs bot top P R (row :: above))
    (hs : Stored geo s (row :: above)) (hlen : key.length = geo.keylen) : ∃ a retryKey lo,
      (prevDown geo key above.length s.node none).run s = .ok ((a, retryKey), s) ∧ bot ≤ lo ∧
      Retry geo s bot (wordsVal key) lo retryKey ∧ Lands row (wordsVal key) lo a := by
  induction above generalizing row P R with
  | nil =>
      obtain ⟨-, c, rfl, hlo, -, -⟩ := hl
      obtain ⟨c', hc', hroot⟩ := hs.root
      obtain rfl : c = c' := by simpa using hc'
      refine ⟨c.addr, none, bot, ?_, le_refl _, rfl, .block [] c [] rfl hlo (by simp)⟩
      rw [hroot]
      rfl
  | cons par above ih =>
      obtain ⟨a, retryKey, lo, hrun, hbot, hretry, hlands⟩ := ih hl.2.2 hs.tail
      have hrun' := run_prevDown_succ hs.root_ne_zero hrun
      rw [List.length_cons, hrun']
      -- who lies apart has children that do
      have hkids : ∀ q ∈ par, ∀ b ∈ row, b.toSpan ∈ spans q.hi q.entries → q.lo ≤ b.lo ∧ b.hi ≤ q.hi := by
        intro q hq b _ hspan
        have := (separated_spans (hl.2.2.rowOK q hq).1.within).bounds _ hspan
        exact ⟨this.1, this.2.2⟩
      have hparent : ∀ b ∈ row, ∃ q ∈ par, b.toSpan ∈ spans q.hi q.entries := by
        intro b hb
        have hmem : b.toSpan ∈ kids par := hl.2.1 ▸ List.mem_map_of_mem hb
        exact List.mem_flatMap.1 hmem
      cases hlands with
      | miss apart =>
          refine ⟨0, retryKey, lo, rfl, hbot, hretry, .miss ?_⟩
          intro b hb
          obtain ⟨q, hq, hspan⟩ := hparent b hb
          obtain ⟨hlo, hhi⟩ := hkids q hq b hb hspan
          exact (apart q hq).imp hhi.trans fun h => h.trans_le hlo
      | block pp p qq hpar hplo hleft =>
          subst hpar
          obtain ⟨hpok, -⟩ := hl.2.2.rowOK p (by simp)
          obtain ⟨nd, hnode, hholds⟩ := hs.tail.exists_node (b := p) (by simp)
          have hp0 : p.addr ≠ 0 := hs.tail.addr_ne_zero (by simp)
          obtain ⟨es₁, es₂, hes, h₁, h₂⟩ := exists_cut_le hpok.within (wordsVal key)
          rw [if_neg hp0]
          have hleft' : ∀ c : Blk w, c.toSpan ∈ kids pp → wordsVal key < c.lo := by
            intro c hc
            obtain ⟨q, hq, hspan⟩ := List.mem_flatMap.1 hc
            have hbounds := (separated_spans (hl.2.2.rowOK q (by simp [hq])).1.within).bounds _ hspan
            exact (hleft q hq).trans_le hbounds.1
          cases es₂ with
          | cons e es₂ =>
              obtain ⟨pre, b, post, rfl, hb, hpre, -⟩ := hl.exists_child hes
              have hbaddr : b.addr = e.2 := congrArg Span.addr hb
              have hblo : b.lo = e.1 := congrArg Span.lo hb
              rw [hes] at hholds
              obtain ⟨hlt, hpair⟩ := hholds.pair_mid
              have hpos := hholds.getpos_eq hlen h₁ h₂
              have hb0 : e.2 ≠ 0 := hbaddr ▸ hs.addr_ne_zero (by simp)
              have hread : ((KeyPtr.slot p.addr es₁.length).read geo).run s =
                  .ok (bkey geo nd es₁.length, s) := run_read_slot hnode hlt
              refine ⟨b.addr, some (.slot p.addr es₁.length), b.lo, ?_, ?_, ⟨?_, _, hread,
                length_bkey nd _, ?_⟩, .block pre b post rfl rfl ?_⟩
              · have hstep := run_lookupStep hnode hholds hlen h₁ h₂
                unfold prevDown
                rw [Exec.run_bind_of_ok hstep, if_neg hb0, Exec.run_bind_of_ok (run_load hnode), hpos,
                  hbaddr]
                rfl
              · exact (hl.separated.bounds b.toSpan (by simp)).1
              · rw [hblo]
                exact h₂ e (by simp)
              · rw [hblo]
                exact congrArg Prod.fst hpair
              · intro c hc
                have hmem : c.toSpan ∈ kids pp ++ spans p.hi es₁ := hpre ▸ List.mem_map_of_mem hc
                rcases List.mem_append.1 hmem with hmem | hmem
                · exact hleft' c hmem
                · obtain ⟨es, es', rfl, -⟩ := exists_of_mem_spans hmem
                  exact h₁ (c.lo, c.addr) (by simp)
          | nil =>
              rw [List.append_nil] at hes
              subst hes
              refine ⟨0, retryKey, lo, ?_, hbot, hretry, .miss ?_⟩
              · have hstep := run_lookupStep_miss hnode hholds hlen h₁
                unfold prevDown
                rw [Exec.run_bind_of_ok hstep]
                rfl
              · intro b hb
                have hmem : b.toSpan ∈ kids (pp ++ p :: qq) := hl.2.1 ▸ List.mem_map_of_mem hb
                rw [kids_append, kids_cons, List.mem_append, List.mem_append] at hmem
                rcases hmem with hmem | hmem | hmem
                · exact .inr (hleft' b hmem)
                · obtain ⟨es, es', hes, -⟩ := exists_of_mem_spans hmem
                  exact .inr (h₁ (b.lo, b.addr) (by simp [hes]))
                · obtain ⟨q, hq, hspan⟩ := List.mem_flatMap.1 hmem
                  have hpw := hl.2.2.separated.pairwise
                  rw [List.map_append, List.map_cons, List.pairwise_append, List.pairwise_cons] at hpw
                  have hqp := hpw.2.1.1 q.toSpan (List.mem_map_of_mem hq)
                  have hbq := (hkids q (by simp [hq]) b hb hspan).2
                  exact .inl ((hbq.trans hqp).trans_eq hplo)

theorem TreeAt.exists_run_prevDown
    (ht : TreeAt geo bot top 1 P R s (row :: above)) (hlen : key.length = geo.keylen) :
    ∃ a retryKey lo, (prevDown geo key (s.height - 1) s.node none).run s = .ok ((a, retryKey), s) ∧
      bot ≤ lo ∧ Retry geo s bot (wordsVal key) lo retryKey ∧ Lands row (wordsVal key) lo a := by
  have hheight : s.height - 1 = above.length := by
    have := ht.height
    rw [List.length_cons] at this
    omega
  rw [hheight]
  exact StructLib.Btree.exists_run_prevDown ht.levels ht.stored hlen

/-- What is left of the interval of the search is not the key. -/
theorem Retry.lt_of_lt {retryKey : Option (KeyPtr w)} {x : ℕ}
    (h : Retry geo s bot k lo retryKey) (hbot : bot ≤ x) (hx : x < lo) : x < k := by
  cases retryKey with
  | none =>
      have hlo : lo = bot := h
      omega
  | some key => exact hx.trans_le h.1

/-- Around the block there are only entries with other keys. -/
theorem entries_around {pre post : List (Blk w)} {b : Blk w}
    (hl : Levels geo.noPairs bot top P R ((pre ++ b :: post) :: above)) (hleft : ∀ c ∈ pre, k < c.lo) :
    (∀ e ∈ flat pre, k < e.1) ∧ ∀ e ∈ flat post, bot ≤ e.1 ∧ e.1 < b.lo := by
  have hpw := hl.separated.pairwise
  rw [List.map_append, List.map_cons, List.pairwise_append, List.pairwise_cons] at hpw
  constructor
  · intro e he
    obtain ⟨c, hc, he⟩ := List.mem_flatMap.1 he
    exact (hleft c hc).trans_le ((hl.rowOK c (by simp [hc])).1.within.le_key e he)
  · intro e he
    obtain ⟨c, hc, hec⟩ := List.mem_flatMap.1 he
    have hw := (hl.rowOK c (by simp [hc])).1.within
    have hcb := hpw.2.1.1 c.toSpan (List.mem_map_of_mem hc)
    have hbounds := hl.separated.bounds c.toSpan (List.mem_map_of_mem (by simp [hc]))
    exact ⟨hbounds.1.trans (hw.le_key e hec), (hw.lt_hi e hec).trans_le hcb⟩

/-- The search for a key has ended between blocks: no entry is left of its interval. -/
theorem entries_apart (hl : Levels geo.noPairs bot top P R (row :: above))
    (hapart : ∀ b ∈ row, b.hi ≤ lo ∨ k < b.lo) : ∀ e ∈ flat row, e.1 < lo ∨ k < e.1 := by
  intro e he
  obtain ⟨b, hb, he⟩ := List.mem_flatMap.1 he
  have hw := (hl.rowOK b hb).1.within
  exact (hapart b hb).imp (hw.lt_hi e he).trans_le fun h => h.trans_le (hw.le_key e he)

end Descent

/-! ## `btree_lookup` and `btree_update` -/

section Equal

variable {nd : Node w} {key : List (BitVec w)} {es es₁ es₂ : List (ℕ × BitVec w)} {v : BitVec w}

theorem slotLoop_stops (stop : ℕ → Bool) (n i : ℕ) :
    slotLoop stop n i = i + n ∨ slotLoop stop n i < i + n ∧ stop (slotLoop stop n i) := by
  induction n generalizing i with
  | zero => exact .inl rfl
  | succ n ih =>
      unfold slotLoop
      by_cases hstop : stop i
      · rw [if_pos hstop]
        exact .inr ⟨by omega, hstop⟩
      · rw [if_neg hstop]
        rcases ih (i + 1) with h | ⟨hlt, h⟩
        · exact .inl (by omega)
        · exact .inr ⟨by omega, h⟩

theorem keycmp_eq_zero_iff (hlen : key.length = geo.keylen) (i : ℕ) :
    keycmp geo nd i key = 0 ↔ nd.key geo i = wordsVal key :=
  longcmp_eq_zero_iff (by rw [length_bkey, hlen])

theorem Node.Holds.geteq_eq (h : nd.Holds geo (es₁ ++ (wordsVal key, v) :: es₂))
    (hlen : key.length = geo.keylen) (h₁ : ∀ e ∈ es₁, wordsVal key < e.1) :
    geteq geo nd key = es₁.length := by
  obtain ⟨hlt, hpair⟩ := h.pair_mid
  refine slotLoop_eq (Nat.zero_le _) (by omega) ?_ ?_
  · intro m _ hm
    rw [decide_eq_false_iff_not, keycmp_eq_zero_iff hlen, h.key_eq (by omega), List.getD_append _ _ _ _ hm,
      List.getD_eq_getElem _ _ hm]
    exact (h₁ _ (List.getElem_mem hm)).ne'
  · intro _
    rw [decide_eq_true_iff, keycmp_eq_zero_iff hlen]
    exact congrArg Prod.fst hpair

/-- A key that is not there is found in no slot, or it is zero and found in an unused one. -/
theorem Node.Holds.geteq_absent (h : nd.Holds geo es) (hlen : key.length = geo.keylen)
    (habs : ∀ e ∈ es, e.1 ≠ wordsVal key) : geteq geo nd key = geo.noPairs ∨
      geteq geo nd key < geo.noPairs ∧ wordsVal key = 0 ∧ nd.val geo (geteq geo nd key) = 0 := by
  have hstops := slotLoop_stops (fun i => keycmp geo nd i key = 0) geo.noPairs 0
  rw [Nat.zero_add] at hstops
  refine hstops.imp_right fun ⟨hlt, hstop⟩ => ⟨hlt, ?_⟩
  rw [decide_eq_true_iff, keycmp_eq_zero_iff hlen] at hstop
  have hlt' : geteq geo nd key < geo.noPairs := hlt
  have hstop' : nd.key geo (geteq geo nd key) = wordsVal key := hstop
  rw [h.key_eq hlt'] at hstop'
  have hge : es.length ≤ geteq geo nd key := by
    by_contra hcon
    rw [List.getD_eq_getElem _ _ (by omega)] at hstop'
    exact habs _ (List.getElem_mem _) hstop'
  rw [List.getD_eq_default _ _ hge] at hstop'
  exact ⟨hstop'.symm, by rw [h.val_eq hlt', List.getD_eq_default _ _ hge]⟩

end Equal

section Lookup

variable {s : BtreeMem w} {bot lo : ℕ} {as : List (BitVec w)} {es : List (ℕ × BitVec w)}
  {key : List (BitVec w)} {v : BitVec w} {row : List (Blk w)} {above : List (List (Blk w))}

/-- The way to the entry of a key, and to nowhere or a leaf without it where there is none. -/
theorem TreeAt.exists_run_lookupDown
    (ht : TreeAt geo bot (2 ^ (w * geo.keylen)) 1 (fun _ => True) (fun _ => True) s (row :: above))
    (hlen : key.length = geo.keylen) : ∃ a,
      (lookupDown geo key (s.height - 1) s.node).run s = .ok (a, s) ∧
      ((∀ e ∈ flat row, e.1 ≠ wordsVal key) ∧ (a = 0 ∨ a ≠ 0 ∧ ∃ nd es, s.nodes a = some nd ∧
          nd.Holds geo es ∧ ∀ e ∈ es, e.1 ≠ wordsVal key) ∨
        ∃ pre b post es₁ v es₂, a = b.addr ∧ row = pre ++ b :: post ∧
          b.entries = es₁ ++ (wordsVal key, v) :: es₂) := by
  obtain ⟨a, retryKey, lo, hrun, -, hretry, hlands⟩ := ht.exists_run_prevDown hlen
  refine ⟨a, run_lookupDown hrun, ?_⟩
  cases hlands with
  | miss apart =>
      refine .inl ⟨?_, .inl rfl⟩
      intro e he heq
      rcases entries_apart ht.levels apart e he with hlt | hlt
      · exact (hretry.lt_of_lt (ht.levels.within_flat.le_key e he) hlt).ne heq
      · exact hlt.ne' heq
  | block pre b post row_eq lo_eq left =>
      subst row_eq lo_eq
      obtain ⟨hpre, hpost⟩ := entries_around ht.levels left
      by_cases hmem : ∃ e ∈ b.entries, e.1 = wordsVal key
      · obtain ⟨⟨k, v⟩, he, rfl⟩ := hmem
        obtain ⟨es₁, es₂, hes⟩ := List.append_of_mem he
        exact .inr ⟨pre, b, post, es₁, v, es₂, rfl, rfl, hes⟩
      · have habs : ∀ e ∈ b.entries, e.1 ≠ wordsVal key := fun e he heq => hmem ⟨e, he, heq⟩
        obtain ⟨nd, hnode, hnd⟩ := ht.stored.exists_node (b := b) (by simp)
        refine .inl ⟨?_, .inr ⟨ht.stored.addr_ne_zero (by simp), nd, _, hnode, hnd, habs⟩⟩
        intro e he
        rw [flat_append, flat_cons, List.mem_append, List.mem_append] at he
        rcases he with he | he | he
        · exact (hpre e he).ne'
        · exact habs e he
        · exact (hretry.lt_of_lt (hpost e he).1 (hpost e he).2).ne

/-- `btree_lookup` finds the value of a key, and returns NULL where there is none. -/
theorem Holding.run_btreeLookup (h : Holding geo bot s as es) (hlen : key.length = geo.keylen) :
    (btreeLookup geo key).run s = .ok ((findKey (wordsVal key) es).getD 0, s) := by
  cases h with
  | empty _ height _ =>
      unfold btreeLookup
      rw [Exec.run_get_bind, if_pos height]
      rfl
  | tree row above tree =>
      have hheight := tree.height
      rw [List.length_cons] at hheight
      unfold btreeLookup
      rw [Exec.run_get_bind, if_neg (by omega)]
      obtain ⟨a, hrun, hcase⟩ := tree.exists_run_lookupDown hlen
      rw [Exec.run_bind_of_ok hrun]
      rcases hcase with ⟨habs, hcase⟩ | ⟨pre, b, post, es₁, v, es₂, rfl, rfl, hes⟩
      · rw [findKey_eq_none habs]
        rcases hcase with rfl | ⟨ha, nd, es, hnode, hnd, habs⟩
        · rfl
        · rw [if_neg ha, Exec.run_bind_of_ok (run_load hnode)]
          dsimp only
          rcases hnd.geteq_absent hlen habs with hend | ⟨hlt, -, hval⟩
          · rw [if_pos hend]
            rfl
          · rw [if_neg (by omega), run_bval hnode hlt, hval]
            rfl
      · obtain ⟨nd, hnode, hnd⟩ := tree.stored.exists_node (b := b) (by simp)
        have hw := tree.levels.within_flat
        have hflat : flat (pre ++ b :: post) =
            (flat pre ++ es₁) ++ (wordsVal key, v) :: (es₂ ++ flat post) := by
          rw [flat_append, flat_cons, hes]
          simp
        rw [hflat] at hw ⊢
        rw [hes] at hnd
        obtain ⟨h₁, -⟩ := hw.around
        obtain ⟨hlt, hpair⟩ := hnd.pair_mid
        have hval : nd.val geo es₁.length = v := congrArg Prod.snd hpair
        rw [findKey_eq h₁, if_neg (tree.stored.addr_ne_zero (by simp)),
          Exec.run_bind_of_ok (run_load hnode)]
        dsimp only
        rw [hnd.geteq_eq hlen fun e he => h₁ e (List.mem_append_right _ he), if_neg (by omega),
          run_bval hnode hlt, hval]
        rfl

/-- The tree with another value for a key of a leaf. -/
theorem TreeAt.setval {pre post : List (Blk w)} {b : Blk w} {k bot top : ℕ} {v val : BitVec w}
    {es₁ es₂ : List (ℕ × BitVec w)} {nd : Node w}
    (ht : TreeAt geo bot top 1 (fun _ => True) (fun _ => True) s ((pre ++ b :: post) :: above))
    (hes : b.entries = es₁ ++ (k, v) :: es₂) (hnd : nd.Holds geo (es₁ ++ (k, val) :: es₂)) :
    TreeAt geo bot top 1 (fun _ => True) (fun _ => True) (s.setNode b.addr nd)
      ((pre ++ { b with entries := es₁ ++ (k, val) :: es₂ } :: post) :: above) := by
  have hrow := ht.levels.rowOK
  have hfst : (es₁ ++ (k, val) :: es₂).map (·.1) = b.entries.map (·.1) := by
    rw [hes]
    simp
  refine ⟨?_, ?_, ht.height⟩
  · refine ht.levels.replace ht.stored.nodup_row rfl ?_ (fun _ => trivial) ?_
    · intro c hc
      rw [List.mem_append, List.mem_cons] at hc
      rcases hc with hc | rfl | hc
      · exact hrow c (by simp [hc])
      · obtain ⟨hok, -⟩ := hrow b (by simp)
        refine ⟨⟨hok.lo_lt_hi, hok.within.congr_fst hfst, ?_⟩, trivial⟩
        simpa [hes] using hok.length_le
      · exact hrow c (by simp [hc])
    · intro par above' _ p _ key es es' _ hshape
      simpa [hes] using hshape
  · exact ht.stored.setNode (u := []) (c := { b with entries := es₁ ++ (k, val) :: es₂ }) rfl hnd

/-- `btree_update` changes the value of a key that is there. -/
theorem Holding.exists_run_btreeUpdate {val : BitVec w} (h : Holding geo bot s as es)
    (hlen : key.length = geo.keylen) (hmem : ∃ e ∈ es, e.1 = wordsVal key) (hval : val ≠ 0) : ∃ s',
      (btreeUpdate geo key val).run s = .ok (0, s') ∧ Moves as as s s' ∧
      Holding geo bot s' as (setKey (wordsVal key) val es) := by
  cases h with
  | empty => simp at hmem
  | tree row above tree =>
      have hheight := tree.height
      rw [List.length_cons] at hheight
      obtain ⟨a, hrun, hcase⟩ := tree.exists_run_lookupDown hlen
      rcases hcase with ⟨habs, -⟩ | ⟨pre, b, post, es₁, v, es₂, rfl, rfl, hes⟩
      · obtain ⟨e, he, heq⟩ := hmem
        exact absurd heq (habs e he)
      · obtain ⟨nd, hnode, hnd⟩ := tree.stored.exists_node (b := b) (by simp)
        have hw := tree.levels.within_flat
        have hflat : flat (pre ++ b :: post) =
            (flat pre ++ es₁) ++ (wordsVal key, v) :: (es₂ ++ flat post) := by
          rw [flat_append, flat_cons, hes]
          simp
        rw [hflat] at hw
        rw [hes] at hnd
        obtain ⟨h₁, h₂⟩ := hw.around
        obtain ⟨hlt, -⟩ := hnd.pair_mid
        have htree := tree.setval hes (hnd.setval hval)
        have haddrs : addrs ((pre ++ { b with entries := es₁ ++ (wordsVal key, val) :: es₂ } :: post) ::
            above) = addrs ((pre ++ b :: post) :: above) := by
          rw [addrs_cons, addrs_cons]
          simp
        refine ⟨s.setNode b.addr (nd.setval geo es₁.length val), ?_, ?_, ?_⟩
        · unfold btreeUpdate
          rw [Exec.run_get_bind, if_neg (by omega), Exec.run_bind_of_ok hrun,
            if_neg (tree.stored.addr_ne_zero (by simp)), Exec.run_bind_of_ok (run_load hnode)]
          dsimp only
          rw [hnd.geteq_eq hlen fun e he => h₁ e (List.mem_append_right _ he), if_neg (by omega),
            Exec.run_bind_of_ok (run_setval hnode hlt)]
          rfl
        · exact (writes_setNode (mem_addrs (by simp)) hnode).moves
        · have hflat' : flat (pre ++ { b with entries := es₁ ++ (wordsVal key, val) :: es₂ } :: post) =
              setKey (wordsVal key) val (flat (pre ++ b :: post)) := by
            rw [hflat, setKey_eq h₁ h₂, flat_append, flat_cons]
            simp
          rw [← haddrs, ← hflat']
          exact .tree _ above htree

/-- `btree_update` refuses a key that is not there, unless the key is zero. -/
theorem Holding.run_btreeUpdate_absent {val : BitVec w} (h : Holding geo bot s as es)
    (hlen : key.length = geo.keylen) (habs : ∀ e ∈ es, e.1 ≠ wordsVal key) (hzero : wordsVal key ≠ 0) :
    (btreeUpdate geo key val).run s = .ok (-ENOENT, s) := by
  cases h with
  | empty _ height _ =>
      unfold btreeUpdate
      rw [Exec.run_get_bind, if_pos height]
      rfl
  | tree row above tree =>
      have hheight := tree.height
      rw [List.length_cons] at hheight
      obtain ⟨a, hrun, hcase⟩ := tree.exists_run_lookupDown hlen
      unfold btreeUpdate
      rw [Exec.run_get_bind, if_neg (by omega), Exec.run_bind_of_ok hrun]
      rcases hcase with ⟨-, hcase⟩ | ⟨pre, b, post, es₁, v, es₂, rfl, rfl, hes⟩
      · rcases hcase with rfl | ⟨ha, nd, es, hnode, hnd, habs⟩
        · rfl
        · rw [if_neg ha, Exec.run_bind_of_ok (run_load hnode)]
          dsimp only
          rcases hnd.geteq_absent hlen habs with hend | ⟨-, heq, -⟩
          · rw [if_pos hend]
            rfl
          · exact absurd heq hzero
      · refine absurd rfl (habs (wordsVal key, v) ?_)
        rw [flat_append, flat_cons, hes]
        simp

end Lookup

/-! ## `btree_last` -/

section Last

variable {s s' : BtreeMem w} {bot top : ℕ} {as : List (BitVec w)} {es : List (ℕ × BitVec w)}
  {P R : List (ℕ × BitVec w) → Prop} {row : List (Blk w)} {above : List (List (Blk w))}
  {node a : BitVec w} {n : ℕ}

theorem run_down_succ (h : (btreeLast.down geo n node).run s = .ok (a, s')) :
    (btreeLast.down geo (n + 1) node).run s = (bval geo a 0).run s' := by
  induction n generalizing s node with
  | zero =>
      obtain ⟨rfl, rfl⟩ : node = a ∧ s = s' := by
        simpa [btreeLast.down] using h
      have hone : btreeLast.down geo 1 node = bval geo node 0 := bind_pure _
      rw [hone]
  | succ n ih =>
      unfold btreeLast.down at h ⊢
      obtain ⟨node', s₁, hstep, hrest⟩ := Exec.of_run_bind h
      rw [Exec.run_bind_of_ok hstep]
      exact ih hrest

/-- The first value of a node. -/
theorem run_bval_first {nd : Node w} {e : ℕ × BitVec w} (h : s.nodes a = some nd)
    (hnd : nd.Holds geo (e :: es)) : (bval geo a 0).run s = .ok (e.2, s) := by
  have hnd' : nd.Holds geo ([] ++ e :: es) := hnd
  obtain ⟨hlt, hpair⟩ := hnd'.pair_mid
  have hval : nd.val geo 0 = e.2 := congrArg Prod.snd hpair
  have hpos : 0 < geo.noPairs := hlt
  rw [run_bval h hpos, hval]

/-- The leftmost way leads to the leftmost leaf. -/
theorem exists_run_down (hl : Levels geo.noPairs bot top P R (row :: above))
    (hs : Stored geo s (row :: above)) : ∃ b post, row = b :: post ∧
      (btreeLast.down geo above.length s.node).run s = .ok (b.addr, s) := by
  induction above generalizing row P R with
  | nil =>
      obtain ⟨-, c, rfl, -⟩ := hl
      obtain ⟨c', hc', hroot⟩ := hs.root
      obtain rfl : c = c' := by simpa using hc'
      refine ⟨c, [], rfl, ?_⟩
      rw [hroot]
      rfl
  | cons par above ih =>
      obtain ⟨p, qq, rfl, hrun⟩ := ih hl.2.2 hs.tail
      obtain ⟨-, hshape⟩ := hl.2.2.rowOK p (by simp)
      obtain ⟨nd, hnode, hnd⟩ := hs.tail.exists_node (b := p) (by simp)
      cases hes : p.entries with
      | nil => exact absurd (by simp [weights, hes]) hshape.ne_nil
      | cons e es =>
          have hp : p.entries = [] ++ e :: es := hes
          have hl' : Levels geo.noPairs bot top P R (row :: ([] ++ p :: qq) :: above) := hl
          obtain ⟨pre, b, post, rfl, hb, hpre, -⟩ := hl'.exists_child hp
          obtain rfl : pre = [] := by simpa using hpre
          have hbaddr : b.addr = e.2 := congrArg Span.addr hb
          rw [hes] at hnd
          refine ⟨b, post, rfl, ?_⟩
          rw [List.length_cons, run_down_succ hrun, run_bval_first hnode hnd, hbaddr]

/-- `btree_last` finds the entry with the greatest key, and returns NULL where there is no entry. -/
theorem Holding.exists_run_btreeLast (h : Holding geo bot s as es) : ∃ key,
    (btreeLast geo).run s = .ok (((es.head?.map (·.2)).getD 0, key), s) ∧
      ∀ e, es.head? = some e → ∃ l, key = some l ∧ l.length = geo.keylen ∧ wordsVal l = e.1 := by
  cases h with
  | empty _ height _ =>
      refine ⟨none, ?_, by simp⟩
      unfold btreeLast
      rw [Exec.run_get_bind, if_pos height]
      rfl
  | tree row above tree =>
      have hheight := tree.height
      rw [List.length_cons] at hheight
      have hfour := geo.four_le_noPairs
      obtain ⟨b, post, rfl, hdown⟩ := exists_run_down tree.levels tree.stored
      obtain ⟨nd, hnode, hnd⟩ := tree.stored.exists_node (b := b) (by simp)
      have hlevels : s.height - 1 = above.length := by omega
      have hrun : (btreeLast geo).run s = .ok ((nd.val geo 0, some (bkey geo nd 0)), s) := by
        unfold btreeLast
        rw [Exec.run_get_bind, if_neg (by omega), hlevels, Exec.run_bind_of_ok hdown,
          Exec.run_bind_of_ok (run_read_slot hnode (by omega)),
          Exec.run_bind_of_ok (run_bval hnode (by omega))]
        rfl
      -- only a root is empty
      have hfirst : (flat (b :: post)).head? = b.entries.head? := by
        cases hes : b.entries with
        | cons e es =>
            rw [flat_cons, hes]
            rfl
        | nil =>
            cases above with
            | nil =>
                obtain ⟨-, c, hc, -⟩ := tree.levels
                obtain ⟨-, rfl⟩ := List.cons.inj hc
                rw [flat_cons, hes]
                rfl
            | cons par above =>
                have hpos := tree.entries_pos (b := b) (by simp)
                rw [hes] at hpos
                exact absurd hpos (lt_irrefl _)
      rw [hfirst]
      refine ⟨some (bkey geo nd 0), ?_, ?_⟩
      · rw [hrun, hnd.val_eq (by omega)]
        cases b.entries <;> rfl
      · intro e he
        refine ⟨_, rfl, length_bkey nd _, ?_⟩
        have hkey := hnd.key_eq (show 0 < geo.noPairs by omega)
        cases hes : b.entries with
        | nil => simp [hes] at he
        | cons e' es =>
            obtain rfl : e' = e := by simpa [hes] using he
            rw [hes] at hkey
            exact hkey

end Last

/-! ## `btree_get_prev` -/

section Prev

variable {s : BtreeMem w} {bot lo k : ℕ} {as : List (BitVec w)} {es es₁ es₂ : List (ℕ × BitVec w)}
  {key : List (BitVec w)} {e : ℕ × BitVec w} {row : List (Blk w)} {above : List (List (Blk w))}
  {nd : Node w} {a : BitVec w}

theorem run_prevLeaf (h : s.nodes a = some nd) (hnd : nd.Holds geo (es₁ ++ e :: es₂))
    (ha : a ≠ 0) (hlen : key.length = geo.keylen) (h₁ : ∀ x ∈ es₁, wordsVal key < x.1)
    (h₂ : ∀ x ∈ e :: es₂, x.1 ≤ wordsVal key) : ∃ l, l.length = geo.keylen ∧ wordsVal l = e.1 ∧
      (prevLeaf geo key a).run s = .ok (some (e.2, l), s) := by
  obtain ⟨hlt, hpair⟩ := hnd.pair_mid
  have hval : (bval geo a es₁.length).run s = .ok (e.2, s) := by
    rw [run_bval h hlt]
    exact congrArg (fun v => Except.ok (v, s)) (congrArg Prod.snd hpair)
  refine ⟨bkey geo nd es₁.length, length_bkey nd _, congrArg Prod.fst hpair, ?_⟩
  unfold prevLeaf
  rw [if_neg ha, Exec.run_bind_of_ok (run_load h), hnd.getpos_eq hlen h₁ h₂]
  dsimp only
  rw [if_neg (by omega), Exec.run_bind_of_ok hval, if_neg (hnd.val_ne_zero e (by simp)),
    Exec.run_bind_of_ok (run_read_slot h hlt)]
  rfl

theorem run_prevLeaf_miss (h : s.nodes a = some nd) (hnd : nd.Holds geo es) (ha : a ≠ 0)
    (hlen : key.length = geo.keylen) (hall : ∀ x ∈ es, wordsVal key < x.1) :
    (prevLeaf geo key a).run s = .ok (none, s) := by
  have hnd' : nd.Holds geo (es ++ []) := by rwa [List.append_nil]
  have hle := hnd.length_le
  unfold prevLeaf
  rw [if_neg ha, Exec.run_bind_of_ok (run_load h), hnd'.getpos_eq hlen hall (by simp)]
  dsimp only
  by_cases hfull : es.length = geo.noPairs
  · rw [if_pos hfull]
    rfl
  · have hval : (bval geo a es.length).run s = .ok (0, s) := by
      rw [run_bval h (by omega), hnd.val_eq (by omega), List.getD_eq_default _ _ (le_refl _)]
    rw [if_neg hfull, Exec.run_bind_of_ok hval]
    rfl

/-- A search ends with the greatest entry not above the key, or it shows that no entry lies between
    its interval's lower end and the key. -/
theorem TreeAt.exists_run_prev
    (ht : TreeAt geo bot (2 ^ (w * geo.keylen)) 1 (fun _ => True) (fun _ => True) s (row :: above))
    (hlen : key.length = geo.keylen) : ∃ a retryKey lo,
      (prevDown geo key (s.height - 1) s.node none).run s = .ok ((a, retryKey), s) ∧
      bot ≤ lo ∧ Retry geo s bot (wordsVal key) lo retryKey ∧
      ((∃ e l, prevKey (wordsVal key + 1) (flat row) = some e ∧ l.length = geo.keylen ∧
          wordsVal l = e.1 ∧ (prevLeaf geo key a).run s = .ok (some (e.2, l), s)) ∨
        (∀ e ∈ flat row, e.1 < lo ∨ wordsVal key < e.1) ∧
          (prevLeaf geo key a).run s = .ok (none, s)) := by
  obtain ⟨a, retryKey, lo, hrun, hbot, hretry, hlands⟩ := ht.exists_run_prevDown hlen
  refine ⟨a, retryKey, lo, hrun, hbot, hretry, ?_⟩
  cases hlands with
  | miss apart => exact .inr ⟨entries_apart ht.levels apart, rfl⟩
  | block pre b post row_eq lo_eq left =>
      subst row_eq lo_eq
      obtain ⟨hpre, hpost⟩ := entries_around ht.levels left
      obtain ⟨nd, hnode, hnd⟩ := ht.stored.exists_node (b := b) (by simp)
      have hw := (ht.levels.rowOK b (by simp)).1.within
      have hb0 : b.addr ≠ 0 := ht.stored.addr_ne_zero (by simp)
      obtain ⟨es₁, es₂, hes, h₁, h₂⟩ := exists_cut_le hw (wordsVal key)
      cases es₂ with
      | cons e es₂ =>
          rw [hes] at hnd
          obtain ⟨l, hl, hle, hleaf⟩ := run_prevLeaf hnode hnd hb0 hlen h₁ h₂
          have hflat : flat (pre ++ b :: post) = (flat pre ++ es₁) ++ e :: (es₂ ++ flat post) := by
            rw [flat_append, flat_cons, hes]
            simp
          refine .inl ⟨e, l, ?_, hl, hle, hleaf⟩
          rw [hflat, prevKey_eq ?_ (Nat.lt_succ_of_le (h₂ e (by simp)))]
          intro x hx
          rcases List.mem_append.1 hx with hx | hx
          · exact hpre x hx
          · exact h₁ x hx
      | nil =>
          rw [List.append_nil] at hes
          subst hes
          refine .inr ⟨?_, run_prevLeaf_miss hnode hnd hb0 hlen h₁⟩
          intro x hx
          rw [flat_append, flat_cons, List.mem_append, List.mem_append] at hx
          rcases hx with hx | hx | hx
          · exact .inr (hpre x hx)
          · exact .inr (h₁ x hx)
          · exact .inl (hpost x hx).2

/-- What `btree_get_prev` should return. -/
def IsPrev (geo : Geo) (k : ℕ) (es : List (ℕ × BitVec w)) (r : BitVec w × Option (List (BitVec w))) :
    Prop :=
  prevKey k es = none ∧ r = (0, none) ∨
    ∃ e l, prevKey k es = some e ∧ r = (e.2, some l) ∧ l.length = geo.keylen ∧ wordsVal l = e.1

theorem TreeAt.exists_returns_getPrevRetry
    (ht : TreeAt geo bot (2 ^ (w * geo.keylen)) 1 (fun _ => True) (fun _ => True) s (row :: above))
    (hlen : key.length = geo.keylen) (hbot : 1 ≤ bot) (hzero : wordsVal key ≠ 0) : ∃ r,
      Returns (fun fuel => getPrevRetry geo fuel key) s r s ∧ IsPrev geo (wordsVal key) (flat row) r := by
  -- every further search is for a smaller key
  induction hk : wordsVal key using Nat.strong_induction_on generalizing key with
  | h k ih =>
      subst hk
      have hdec : (decKey key).length = geo.keylen := by rw [length_decKey, hlen]
      have hval : wordsVal (decKey key) + 1 = wordsVal key := by
        rw [wordsVal_decKey hzero]
        omega
      obtain ⟨a, retryKey, lo, hrun, hlo, hretry, hcase⟩ := ht.exists_run_prev hdec
      rw [hval] at hcase
      rcases hcase with ⟨e, l, hprev, hl, hle, hleaf⟩ | ⟨hapart, hleaf⟩
      · refine ⟨(e.2, some l), Returns.of_succ ⟨0, fun fuel _ => ?_⟩, .inr ⟨e, l, hprev, rfl, hl, hle⟩⟩
        unfold getPrevRetry
        rw [Exec.run_get_bind, Exec.run_bind_of_ok hrun]
        dsimp only
        rw [Exec.run_bind_of_ok hleaf]
        rfl
      · cases retryKey with
        | none =>
            refine ⟨(0, none), Returns.of_succ ⟨0, fun fuel _ => ?_⟩, .inl ⟨?_, rfl⟩⟩
            · unfold getPrevRetry
              rw [Exec.run_get_bind, Exec.run_bind_of_ok hrun]
              dsimp only
              rw [Exec.run_bind_of_ok hleaf]
              rfl
            · have hlo' : lo = bot := hretry
              refine prevKey_eq_none ?_
              intro e he
              have := ht.levels.within_flat.le_key e he
              have := hapart e he
              omega
        | some retryKey =>
            obtain ⟨hle, l, hread, hl, rfl⟩ := hretry
            obtain ⟨r, hret, hprev⟩ := ih (wordsVal l) (by omega) hl (by omega) rfl
            refine ⟨r, Returns.of_succ (Returns.congr (fun fuel => ?_) hret), ?_⟩
            · conv_lhs => unfold getPrevRetry
              rw [Exec.run_get_bind, Exec.run_bind_of_ok hrun]
              dsimp only
              rw [Exec.run_bind_of_ok hleaf]
              dsimp only
              rw [Exec.run_bind_of_ok hread]
            · have hsame : prevKey (wordsVal key) (flat row) = prevKey (wordsVal l) (flat row) := by
                refine prevKey_congr ?_
                intro e he
                have := hapart e he
                omega
              unfold IsPrev
              rw [hsame]
              exact hprev

/-- `btree_get_prev` finds the entry with the greatest key below the given one, in a tree without the
    key zero. -/
theorem Holding.exists_returns_btreeGetPrev (h : Holding geo bot s as es)
    (hlen : key.length = geo.keylen) (hbot : 1 ≤ bot) : ∃ r,
      Returns (fun fuel => btreeGetPrev geo fuel key) s r s ∧ IsPrev geo (wordsVal key) es r := by
  by_cases hzero : wordsVal key = 0
  · refine ⟨(0, none), ⟨0, fun fuel _ => ?_⟩, .inl ⟨prevKey_eq_none ?_, rfl⟩⟩
    · unfold btreeGetPrev
      dsimp only
      rw [if_pos (keyzero_iff.2 hzero)]
      rfl
    · intro e _
      omega
  · have hkey : ¬keyzero key = true := fun hz => hzero (keyzero_iff.1 hz)
    cases h with
    | empty _ height _ =>
        refine ⟨(0, none), ⟨0, fun fuel _ => ?_⟩, .inl ⟨rfl, rfl⟩⟩
        unfold btreeGetPrev
        dsimp only
        rw [if_neg hkey, Exec.run_get_bind, if_pos height]
        rfl
    | tree row above tree =>
        have hheight := tree.height
        rw [List.length_cons] at hheight
        obtain ⟨r, hret, hprev⟩ := tree.exists_returns_getPrevRetry hlen hbot hzero
        refine ⟨r, Returns.congr (fun fuel => ?_) hret, hprev⟩
        unfold btreeGetPrev
        rw [if_neg hkey, Exec.run_get_bind, if_neg (by omega)]

end Prev

end StructLib.Btree
