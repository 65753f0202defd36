import StructLib.Btree.Holding

set_option autoImplicit false

/-! # When an insertion fails

`btree_insert` returns `-ENOMEM` only where `mempool_alloc` has returned NULL, and it calls it no more
after that: where the addresses `good` come first and NULL after them, a call either gets by with some
of `good`, or it takes them all and the NULL and leaves the entries as they are. Most of the code
allocates nothing (`Quiet`), and what does gives up at the first failure (`Thrifty`). -/

namespace StructLib.Btree

variable {w : ℕ} {geo : Geo}

/-! ## Code that allocates nothing -/

section Quiet

variable {α β : Type}

/-- The addresses in `F` are free, and `mempool_alloc` will return `pool`. -/
def PoolIs (pool : List (BitVec w)) (F : List (BitVec w)) (s : BtreeMem w) : Prop :=
  s.pool = pool ∧ ∀ p ∈ F, s.nodes p = none

def Quiet (x : Exec (BtreeMem w) α) : Prop :=
  ∀ pool F, Exec.Keeps (PoolIs pool F) x fun _ => True

theorem quiet_pure (a : α) : Quiet (pure a : Exec (BtreeMem w) α) :=
  fun _ _ => Exec.Keeps.pure trivial

theorem quiet_undef : Quiet (Exec.undef : Exec (BtreeMem w) α) := fun _ _ => Exec.Keeps.error

theorem Quiet.bind {x : Exec (BtreeMem w) α} {f : α → Exec (BtreeMem w) β} (hx : Quiet x)
    (hf : ∀ a, Quiet (f a)) : Quiet (x >>= f) :=
  fun pool F => (hx pool F).bind fun a _ => hf a pool F

theorem Quiet.ite {c : Prop} [Decidable c] {x y : Exec (BtreeMem w) α} (hx : Quiet x) (hy : Quiet y) :
    Quiet (if c then x else y) := by
  by_cases hc : c
  · rw [if_pos hc]
    exact hx
  · rw [if_neg hc]
    exact hy

theorem quiet_get : Quiet (get : Exec (BtreeMem w) (BtreeMem w)) := by
  intro pool F s a s' hI h
  obtain ⟨rfl, rfl⟩ : s = a ∧ s = s' := by simpa using h
  exact ⟨hI, trivial⟩

theorem quiet_load (a : BitVec w) : Quiet (load a) := by
  refine quiet_get.bind fun s => ?_
  cases s.nodes a with
  | none => exact quiet_undef
  | some nd => exact quiet_pure nd

theorem quiet_modifyNode (a : BitVec w) (f : Node w → Node w) : Quiet (modifyNode a f) := by
  intro pool F s r s' hI h
  cases hnode : s.nodes a with
  | none =>
      have hrun : (modifyNode a f).run s = .error .undef := by
        simp [modifyNode, load, StateT.run_bind, hnode]
      rw [hrun] at h
      cases h
  | some nd =>
      rw [run_modifyNode hnode] at h
      obtain rfl : s.setNode a (f nd) = s' := by simpa using h
      refine ⟨⟨hI.1, ?_⟩, trivial⟩
      intro p hp
      have hfree := hI.2 p hp
      have hne : p ≠ a := by
        rintro rfl
        rw [hfree] at hnode
        cases hnode
      rw [setNode_nodes_of_ne hne, hfree]

theorem quiet_mempoolFree (a : BitVec w) : Quiet (mempoolFree a) := by
  refine (quiet_load a).bind fun _ => ?_
  intro pool F s r s' hI h
  obtain rfl : s.freeNode a = s' := by simpa [BtreeMem.freeNode] using h
  refine ⟨⟨hI.1, ?_⟩, trivial⟩
  intro p hp
  by_cases hpa : p = a
  · rw [hpa, freeNode_nodes_self]
  · rw [freeNode_nodes_of_ne hpa]
    exact hI.2 p hp

theorem quiet_read (key : KeyPtr w) : Quiet (key.read geo) := by
  cases key with
  | caller k => exact quiet_pure k
  | slot a n => exact (quiet_load a).bind fun nd => (quiet_pure _).ite quiet_undef

theorem quiet_bval (a : BitVec w) (n : ℕ) : Quiet (bval geo a n) :=
  (quiet_load a).bind fun _ => (quiet_pure _).ite quiet_undef

theorem quiet_setkey (a : BitVec w) (n : ℕ) (key : KeyPtr w) : Quiet (setkey geo a n key) :=
  (quiet_read key).bind fun _ => (quiet_modifyNode a _).ite quiet_undef

theorem quiet_setval (a : BitVec w) (n : ℕ) (val : BitVec w) : Quiet (setval geo a n val) :=
  (quiet_modifyNode a _).ite quiet_undef

theorem quiet_clearpair (a : BitVec w) (n : ℕ) : Quiet (clearpair geo a n) :=
  (quiet_setkey a n _).bind fun _ => quiet_setval a n 0

theorem quiet_copypair (a : BitVec w) (i : ℕ) (b : BitVec w) (j : ℕ) : Quiet (copypair geo a i b j) :=
  (quiet_setkey a i _).bind fun _ => (quiet_bval b j).bind fun _ => quiet_setval a i _

theorem quiet_shiftRight (a : BitVec w) (pos n : ℕ) : Quiet (shiftRight geo a pos n) := by
  induction n with
  | zero => exact quiet_pure ()
  | succ n ih => exact (quiet_copypair a _ a _).bind fun _ => ih

theorem quiet_splitLoop (a b : BitVec w) (half n i : ℕ) : Quiet (splitLoop geo a b half n i) := by
  induction n generalizing i with
  | zero => exact quiet_pure ()
  | succ n ih =>
      unfold splitLoop
      refine (quiet_copypair b i a i).bind fun _ => (quiet_copypair a i a _).bind fun _ => ?_
      exact (quiet_clearpair a _).bind fun _ => ih (i + 1)

theorem quiet_splitNode (a b : BitVec w) (fill : ℕ) : Quiet (splitNode geo a b fill) := by
  unfold splitNode
  refine (quiet_splitLoop a b _ _ _).bind fun _ => Quiet.ite ?_ (quiet_pure ())
  exact (quiet_copypair a _ a _).bind fun _ => quiet_clearpair a _

theorem quiet_findLevel (key : KeyPtr w) (level : ℕ) : Quiet (findLevel geo key level) := by
  have hstep : ∀ a, Quiet (findStep geo key a) := by
    intro a
    refine (quiet_load a).bind fun nd => (quiet_read key).bind fun k => ?_
    refine Quiet.ite (quiet_undef.ite ?_) (quiet_bval a _)
    exact (quiet_setkey a _ key).bind fun _ => quiet_bval a _
  have hloop : ∀ n a, Quiet (findLevelLoop geo key n a) := by
    intro n
    induction n with
    | zero => exact quiet_pure
    | succ n ih => exact fun a => (hstep a).bind ih
  exact quiet_get.bind fun s => (hloop _ _).bind fun a => quiet_undef.ite (quiet_pure a)

end Quiet

/-! ## Code that allocates -/

/-- `mempool_alloc` will return the addresses `good` of free nodes, then NULL, then `rest`. -/
structure PoolEnds (good rest : List (BitVec w)) (s : BtreeMem w) : Prop where
  pool : s.pool = good ++ 0 :: rest
  nodup : good.Nodup
  free : ∀ p ∈ good, p ≠ 0 ∧ s.nodes p = none

/-- The call has taken some of the addresses `good` and succeeded, or it has taken them all and the
    NULL, and failed. -/
def Drawn (good rest : List (BitVec w)) (r : ℤ) (s' : BtreeMem w) : Prop :=
  (r = 0 ∧ ∃ used left, good = used ++ left ∧ PoolEnds left rest s') ∨ (r = -ENOMEM ∧ s'.pool = rest)

def Thrifty (x : Exec (BtreeMem w) ℤ) : Prop := ∀ s r s' good rest, PoolEnds good rest s →
  x.run s = .ok (r, s') → Drawn good rest r s'

section Thrifty

variable {α : Type} {good rest : List (BitVec w)}

theorem PoolEnds.of_quiet {x : Exec (BtreeMem w) α} {s s' : BtreeMem w} {a : α}
    (h : PoolEnds good rest s) (hx : Quiet x) (hrun : x.run s = .ok (a, s')) :
    PoolEnds good rest s' := by
  obtain ⟨⟨hpool, hfree⟩, -⟩ := hx s.pool good s a s' ⟨rfl, fun p hp => (h.free p hp).2⟩ hrun
  exact ⟨hpool.trans h.pool, h.nodup, fun p hp => ⟨(h.free p hp).1, hfree p hp⟩⟩

/-- More of the addresses have been taken before. -/
theorem Drawn.append {left : List (BitVec w)} {r : ℤ} {s' : BtreeMem w} (used : List (BitVec w))
    (h : Drawn left rest r s') : Drawn (used ++ left) rest r s' := by
  rcases h with ⟨hr, used', left', rfl, hends⟩ | hfail
  · exact .inl ⟨hr, used ++ used', left', (List.append_assoc ..).symm, hends⟩
  · exact .inr hfail

theorem Thrifty.ite {c : Prop} [Decidable c] {x y : Exec (BtreeMem w) ℤ} (hx : Thrifty x)
    (hy : Thrifty y) : Thrifty (if c then x else y) := by
  by_cases hc : c
  · rw [if_pos hc]
    exact hx
  · rw [if_neg hc]
    exact hy

theorem thrifty_undef : Thrifty (Exec.undef : Exec (BtreeMem w) ℤ) := by
  intro s r s' good rest _ h
  cases h

theorem thrifty_zero : Thrifty (pure 0 : Exec (BtreeMem w) ℤ) := by
  intro s r s' good rest hs h
  obtain ⟨rfl, rfl⟩ : 0 = r ∧ s = s' := by simpa using h
  exact .inl ⟨rfl, [], good, rfl, hs⟩

/-- Quiet code before. -/
theorem Quiet.thrifty {x : Exec (BtreeMem w) α} {f : α → Exec (BtreeMem w) ℤ} (hx : Quiet x)
    (hf : ∀ a, Thrifty (f a)) : Thrifty (x >>= f) := by
  intro s r s' good rest hs h
  obtain ⟨a, s₁, hrun, hrest⟩ := Exec.of_run_bind h
  exact hf a s₁ r s' good rest (hs.of_quiet hx hrun) hrest

/-- An error ends the code, and quiet code may clean up before. -/
theorem Thrifty.checked {x : Exec (BtreeMem w) ℤ} {clean : Exec (BtreeMem w) Unit}
    {y : Exec (BtreeMem w) ℤ} (hx : Thrifty x) (hclean : Quiet clean) (hy : Thrifty y) :
    Thrifty (do
      let err ← x
      if err ≠ 0 then
        clean
        return err
      else y) := by
  intro s r s' good rest hs h
  obtain ⟨err, s₁, hrun, hrest⟩ := Exec.of_run_bind h
  rcases hx s err s₁ good rest hs hrun with ⟨rfl, used, left, rfl, hs₁⟩ | ⟨rfl, hpool⟩
  · rw [if_neg (by decide)] at hrest
    exact (hy s₁ r s' left rest hs₁ hrest).append used
  · rw [if_pos (by decide)] at hrest
    obtain ⟨_, s₂, hrun₂, hrest⟩ := Exec.of_run_bind hrest
    obtain ⟨⟨hpool₂, -⟩, -⟩ := hclean s₁.pool [] s₁ _ s₂ ⟨rfl, by simp⟩ hrun₂
    obtain ⟨rfl, rfl⟩ : -ENOMEM = r ∧ s₂ = s' := by simpa using hrest
    exact .inr ⟨rfl, hpool₂.trans hpool⟩

/-- The code gives up where it gets no node. -/
theorem thrifty_alloc {f : BitVec w → Exec (BtreeMem w) ℤ} (hf : ∀ a, Thrifty (f a)) :
    Thrifty (do
      let new ← btreeNodeAlloc
      if new = 0 then return -ENOMEM else f new) := by
  intro s r s' good rest hs h
  obtain ⟨a, s₁, hrun, hrest⟩ := Exec.of_run_bind h
  have halloc : mempoolAlloc s = .ok (a, s₁) := hrun
  have hpool := hs.pool
  unfold mempoolAlloc at halloc
  cases good with
  | nil =>
      rw [hpool] at halloc
      dsimp only [List.nil_append] at halloc
      rw [if_pos (.inl rfl)] at halloc
      obtain ⟨rfl, rfl⟩ : 0 = a ∧ _ = s₁ := by simpa using halloc
      rw [if_pos rfl] at hrest
      obtain ⟨rfl, rfl⟩ : -ENOMEM = r ∧ _ = s' := by simpa using hrest
      exact .inr ⟨rfl, rfl⟩
  | cons p good =>
      obtain ⟨hp, hfree⟩ := hs.free p (by simp)
      obtain ⟨hnew, hnodup⟩ := List.nodup_cons.1 hs.nodup
      have hok : ¬(p = 0 ∨ (s.nodes p).isSome = true) := by
        rw [hfree]
        simpa using hp
      rw [hpool] at halloc
      dsimp only [List.cons_append] at halloc
      rw [if_neg hok] at halloc
      obtain ⟨rfl, rfl⟩ : p = a ∧ _ = s₁ := by simpa using halloc
      rw [if_neg hp] at hrest
      have hends : PoolEnds good rest { s with
          nodes := Function.update s.nodes p (some fun _ => 0), pool := good ++ 0 :: rest } := by
        refine ⟨rfl, hnodup, ?_⟩
        intro q hq
        have hqp : q ≠ p := fun heq => hnew (heq ▸ hq)
        obtain ⟨hq0, hqfree⟩ := hs.free q (List.mem_cons_of_mem _ hq)
        exact ⟨hq0, (Function.update_of_ne hqp ..).trans hqfree⟩
      exact (hf p _ r s' good rest hends hrest).append [p]

theorem thrifty_btreeGrow : Thrifty (btreeGrow geo : Exec (BtreeMem w) ℤ) := by
  refine thrifty_alloc fun node => quiet_get.thrifty fun s => ?_
  have hhead : Quiet (modify fun s => { s with node, height := s.height + 1 } :
      Exec (BtreeMem w) PUnit) := by
    intro pool F s a s' hI h
    obtain rfl : { s with node, height := s.height + 1 } = s' := by simpa using h
    exact ⟨hI, trivial⟩
  have hend := hhead.thrifty fun _ => thrifty_zero
  refine Thrifty.ite ((quiet_load s.node).thrifty fun nd => thrifty_undef.ite ?_) hend
  exact (quiet_setkey node 0 _).thrifty fun _ => (quiet_setval node 0 _).thrifty fun _ => hend

theorem thrifty_insertLevelWith {retry : KeyPtr w → BitVec w → ℕ → Exec (BtreeMem w) ℤ}
    (h : ∀ key val level, Thrifty (retry key val level)) (key : KeyPtr w) (val : BitVec w) (level : ℕ) :
    Thrifty (insertLevelWith geo retry key val level) := by
  unfold insertLevelWith
  refine thrifty_undef.ite (quiet_get.thrifty fun s => Thrifty.ite ?_ (h key val level))
  exact thrifty_btreeGrow.checked (quiet_pure ()) (h key val level)

theorem thrifty_insertLevelRetry (fuel : ℕ) (key : KeyPtr w) (val : BitVec w) (level : ℕ) :
    Thrifty (insertLevelRetry geo fuel key val level) := by
  induction fuel generalizing key val level with
  | zero =>
      intro s r s' good rest _ h
      cases h
  | succ fuel ih =>
      unfold insertLevelRetry
      refine (quiet_findLevel key level).thrifty fun node => (quiet_load node).thrifty fun nd => ?_
      refine (quiet_read key).thrifty fun k => thrifty_undef.ite (Thrifty.ite ?_ ?_)
      · refine thrifty_alloc fun new => ?_
        refine (thrifty_insertLevelWith ih _ new _).checked (quiet_mempoolFree new) ?_
        exact (quiet_splitNode node new _).thrifty fun _ => ih key val level
      · refine (quiet_shiftRight node _ _).thrifty fun _ => (quiet_setkey node _ key).thrifty fun _ => ?_
        exact (quiet_setval node _ val).thrifty fun _ => thrifty_zero

end Thrifty

theorem btreeInsert_below (geo : Geo) (key : List (BitVec w)) (val : BitVec w) (fuel : ℕ) :
    Exec.Below (btreeInsert geo fuel key val) (btreeInsert geo (fuel + 1) key val) :=
  insertLevelWith_below (insertLevelRetry_below geo fuel) _ val 1

/-! ## Several insertions -/

/-- `btree_insert` of one entry after the other, up to the first error. -/
def insertAll (geo : Geo) (fuel : ℕ) : List (List (BitVec w) × BitVec w) → Exec (BtreeMem w) ℤ
  | [] => return 0
  | e :: l => do
      let err ← btreeInsert geo fuel e.1 e.2
      if err ≠ 0 then return err else insertAll geo fuel l

/-- What the insertions do to the entries. -/
def insertKeys (l : List (List (BitVec w) × BitVec w)) (es : List (ℕ × BitVec w)) :
    List (ℕ × BitVec w) :=
  l.foldl (fun es e => insertKey (wordsVal e.1) e.2 es) es

/-- The tree that insertions have made. -/
theorem Holding.of_run_insertAll {s s' : BtreeMem w} {bot fuel : ℕ} {as : List (BitVec w)}
    {es : List (ℕ × BitVec w)} {l : List (List (BitVec w) × BitVec w)} (h : Holding geo bot s as es)
    (hl : ∀ e ∈ l, e.1.length = geo.keylen ∧ bot ≤ wordsVal e.1 ∧ e.2 ≠ 0)
    (hnodup : (es.map (·.1) ++ l.map fun e => wordsVal e.1).Nodup)
    (hrun : (insertAll geo fuel l).run s = .ok (0, s')) :
    ∃ as', Moves as as' s s' ∧ Holding geo bot s' as' (insertKeys l es) := by
  induction l generalizing s as es with
  | nil =>
      obtain rfl : s = s' := by simpa [insertAll] using hrun
      exact ⟨as, (Writes.refl as s).moves, h⟩
  | cons e l ih =>
      obtain ⟨hlen, hbot, hval⟩ := hl e (by simp)
      have habs : ∀ x ∈ es, x.1 ≠ wordsVal e.1 := fun x hx =>
        (List.nodup_append.1 hnodup).2.2 _ (List.mem_map_of_mem hx) _ (by simp)
      obtain ⟨r, s₁, as₁, hret, hmoves, hcase⟩ := h.exists_returns_insert hlen hbot hval habs
      obtain ⟨err, s₂, hinsert, hrest⟩ := Exec.of_run_bind hrun
      obtain ⟨rfl, rfl⟩ := hret.unique (Returns.of_below (btreeInsert_below geo e.1 e.2) hinsert)
      rcases hcase with ⟨rfl, h₁⟩ | ⟨rfl, -⟩
      · rw [if_neg (by decide)] at hrest
        have hperm := ((perm_insertKey (wordsVal e.1) e.2 es).map (·.1)).append_right
          (l.map fun e => wordsVal e.1)
        have hnodup₁ := hperm.nodup_iff.2 (by simpa using hnodup)
        obtain ⟨as', hmoves', h'⟩ :=
          ih h₁ (fun x hx => hl x (List.mem_cons_of_mem _ hx)) hnodup₁ hrest
        exact ⟨as', hmoves.trans hmoves', h'⟩
      · rw [if_pos (by decide)] at hrest
        have hbad : (-ENOMEM, s₁) = ((0 : ℤ), s') := by simpa using hrest
        cases hbad

/-! ## The outcomes -/

/-- `btree_insert` of a new key returns. It adds the entry with some of the addresses that
    `mempool_alloc` has to give, or it takes them all, returns `-ENOMEM` at the NULL behind them and
    leaves the entries as they are. -/
theorem Holding.btreeInsert_draws {s : BtreeMem w} {bot : ℕ} {as good rest : List (BitVec w)}
    {es : List (ℕ × BitVec w)} {key : List (BitVec w)} {val : BitVec w} (h : Holding geo bot s as es)
    (hs : PoolEnds good rest s) (hlen : key.length = geo.keylen) (hbot : bot ≤ wordsVal key)
    (hval : val ≠ 0) (habs : ∀ e ∈ es, e.1 ≠ wordsVal key) : ∃ r s' as',
      Returns (fun fuel => btreeInsert geo fuel key val) s r s' ∧ Moves as as' s s' ∧
      ((r = 0 ∧ Holding geo bot s' as' (insertKey (wordsVal key) val es) ∧
          ∃ used left, good = used ++ left ∧ PoolEnds left rest s') ∨
        (r = -ENOMEM ∧ Holding geo bot s' as' es ∧ s'.pool = rest)) := by
  obtain ⟨r, s', as', hret, hmoves, hcase⟩ := h.exists_returns_insert hlen hbot hval habs
  obtain ⟨fuel, hrun⟩ := hret
  have hdrawn : Drawn good rest r s' :=
    thrifty_insertLevelWith (thrifty_insertLevelRetry fuel) _ val 1 s r s' good rest hs
      (hrun fuel (le_refl _))
  refine ⟨r, s', as', ⟨fuel, hrun⟩, hmoves, ?_⟩
  rcases hcase with ⟨rfl, h'⟩ | ⟨rfl, h'⟩
  · rcases hdrawn with ⟨-, hends⟩ | ⟨hr, -⟩
    · exact .inl ⟨rfl, h', hends⟩
    · exact absurd hr (by decide)
  · rcases hdrawn with ⟨hr, -⟩ | ⟨-, hpool⟩
    · exact absurd hr (by decide)
    · exact .inr ⟨rfl, h', hpool⟩

/-- `n` entries, the greatest key first. -/
def fallingEntries (lo n : ℕ) : List (List (BitVec 64) × BitVec 64) :=
  (List.range' lo n).reverse.map fun k => ([BitVec.ofNat 64 k], BitVec.ofNat 64 (100 + k))

/-- Nothing but addresses to come. -/
def noTree (pool : List (BitVec 64)) : BtreeMem 64 where
  node := 0
  height := 0
  nodes _ := none
  pool := pool

theorem holding_noTree (geo : Geo) (bot : ℕ) (pool : List (BitVec 64)) :
    Holding geo bot (noTree pool) [] [] :=
  .empty rfl rfl rfl

/-- In a tree of two levels whose root is full and whose last leaf is full, two of the nodes for the
    splits come, the one for the new root does not. -/
theorem Holding.btreeInsert_draws_two : ∃ s as r s' as',
    (insertAll (btreeGeo64 128 .eight) 9 (fallingEntries 2 36)).run
      (noTree [16, 32, 48, 64, 80, 96, 112, 128, 144, 160, 176, 0, 192]) = .ok (0, s) ∧
    s.height = 2 ∧ s.pool = [160, 176, 0, 192] ∧
    Returns (fun fuel => btreeInsert (btreeGeo64 128 .eight) fuel [1] 7) s r s' ∧ Moves as as' s s' ∧
    r = -ENOMEM ∧ Holding (btreeGeo64 128 .eight) 1 s' as'
      ((fallingEntries 2 36).map fun e => (wordsVal e.1, e.2)) ∧ s'.pool = [192] := by
  let geo := btreeGeo64 128 .eight
  let s₀ := noTree [16, 32, 48, 64, 80, 96, 112, 128, 144, 160, 176, 0, 192]
  obtain ⟨a, s, hrun, hs⟩ := Exec.exists_of_any (x := insertAll geo 9 (fallingEntries 2 36)) (s := s₀)
    (P := fun p => p.1 = 0 ∧ p.2.height = 2 ∧ p.2.pool = [160, 176, 0, 192] ∧
      (p.2.nodes 160).isNone ∧ (p.2.nodes 176).isNone) (by decide +kernel)
  obtain ⟨rfl, hheight, hpool, hnode₁, hnode₂⟩ := of_decide_eq_true hs
  obtain ⟨b, s₂, hrun₂, hb⟩ := Exec.exists_of_any (s := s₀) (P := fun p => p.1 = -ENOMEM)
    (x := insertAll geo 9 (fallingEntries 2 36) >>= fun _ => btreeInsert geo 4 [1] 7)
    (by decide +kernel)
  rw [Exec.run_bind_of_ok hrun] at hrun₂
  have hends : PoolEnds [160, 176] [192] s := by
    refine ⟨hpool, by decide, ?_⟩
    simpa using ⟨Option.isNone_iff_eq_none.1 hnode₁, Option.isNone_iff_eq_none.1 hnode₂⟩
  obtain ⟨as, -, h⟩ := (holding_noTree geo 1 _).of_run_insertAll (by decide) (by decide) hrun
  have hentries : insertKeys (fallingEntries 2 36) [] =
      (fallingEntries 2 36).map fun e => (wordsVal e.1, e.2) := by decide +kernel
  rw [hentries] at h
  have hlen : ([1] : List (BitVec 64)).length = geo.keylen := rfl
  have hval : (7 : BitVec 64) ≠ 0 := by decide
  obtain ⟨r, s', as', hret, hmoves, hcase⟩ :=
    h.btreeInsert_draws hends hlen (by decide) hval (by decide)
  obtain ⟨rfl, rfl⟩ := hret.unique (Returns.of_below (btreeInsert_below geo [1] 7) hrun₂)
  have hr : r = -ENOMEM := of_decide_eq_true hb
  rcases hcase with ⟨hzero, -⟩ | ⟨-, h', hrest⟩
  · rw [hr] at hzero
    exact absurd hzero (by decide)
  · exact ⟨s, as, r, s', as', hrun, hheight, hpool, hret, hmoves, hr, h', hrest⟩

end StructLib.Btree
