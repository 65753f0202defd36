import StructLib.Btree.Visit

set_option autoImplicit false

/-! # The B+tree is an ordered map

From `btree_init` on, the tree is a finite map from keys to pointers whatever calls come, and its
nodes are the only ones that were allocated (`btree_is_map`). Three things are up to the caller where
the code does not live up to its documentation: a key that is not in the tree may be removed only if
the code can see that (`Op.Allowed`), a key that is not in the tree may be updated only if it is not
zero, and `btree_get_prev` is for trees without the key zero.

The last entry of a tree with more than one level may be removed only where `no_pairs` is even. With
nodes of 128 bytes it is, but for `btree_geo128` and longs of 8 bytes; for odd numbers nothing is
shown about that removal. -/

namespace StructLib.Btree

variable {w : ℕ}

/-! ## Whose nodes they are -/

/-- The tree at `as` has come into a memory that held the nodes `others` before. -/
structure Owns (others : BitVec w → Option (Node w)) (s : BtreeMem w) (as : List (BitVec w)) : Prop where
  fresh : ∀ a ∈ as, others a = none
  rest : ∀ a, a ∉ as → s.nodes a = others a

theorem Owns.of_moves {others : BitVec w → Option (Node w)} {s s' : BtreeMem w}
    {as as' : List (BitVec w)} (h : Owns others s as) (hs : Moves as as' s s') : Owns others s' as' := by
  refine ⟨?_, ?_⟩
  · intro a ha
    by_cases hmem : a ∈ as
    · exact h.fresh a hmem
    · rw [← h.rest a hmem]
      exact (hs.new a ha).resolve_left hmem
  · intro a ha
    by_cases hmem : a ∈ as
    · rw [h.fresh a hmem]
      by_contra hne
      exact (hs.left a hne).elim ha fun hleft => hleft.1 hmem
    · rw [← h.rest a hmem]
      by_cases hnone : s.nodes a = none
      · rw [hnone]
        by_contra hne
        exact (hs.left a hne).elim ha fun hleft => hleft.2 hnone
      · exact hs.agree a hmem hnone

/-! ## The calls -/

inductive Op (w : ℕ) where
  | insert (key : List (BitVec w)) (val : BitVec w)
  | remove (key : List (BitVec w))
  | lookup (key : List (BitVec w))
  | update (key : List (BitVec w)) (val : BitVec w)
  | last
  | getPrev (key : List (BitVec w))
  | visitor
  | grimVisitor

inductive Result (w : ℕ) where
  | code (err : ℤ)
  | value (val : BitVec w)
  | entry (val : BitVec w) (key : Option (List (BitVec w)))
  | calls (count : ℕ) (elems : List (BitVec w × List (BitVec w) × ℕ))

/-- A callback that remembers its calls. -/
def record (elem : BitVec w) (key : List (BitVec w)) (index : ℕ) (_ : Unit)
    (calls : List (BitVec w × List (BitVec w) × ℕ)) : List (BitVec w × List (BitVec w) × ℕ) :=
  calls ++ [(elem, key, index)]

def Op.exec (geo : Geo) : Op w → ℕ → Exec (BtreeMem w) (Result w)
  | insert key val, fuel => do return .code (← btreeInsert geo fuel key val)
  | remove key, fuel => do return .value (← btreeRemove geo fuel key)
  | lookup key, _ => do return .value (← btreeLookup geo key)
  | update key val, _ => do return .code (← btreeUpdate geo key val)
  | last, _ => do
      let res ← btreeLast geo
      return .entry res.1 res.2
  | getPrev key, fuel => do
      let res ← btreeGetPrev geo fuel key
      return .entry res.1 res.2
  | visitor, _ => do
      let res ← btreeVisitor geo record (some ()) []
      return .calls res.1 res.2
  | grimVisitor, _ => do
      let res ← btreeGrimVisitor geo record (some ()) []
      return .calls res.1 res.2

/-- What a user promises. -/
def Op.Allowed (geo : Geo) (bot : ℕ) (s : BtreeMem w) (es : List (ℕ × BitVec w)) : Op w → Prop
  | insert key val => key.length = geo.keylen ∧ bot ≤ wordsVal key ∧ val ≠ 0 ∧
      ∀ e ∈ es, e.1 ≠ wordsVal key
  | remove key => key.length = geo.keylen ∧ bot ≤ wordsVal key ∧
      ((∃ e ∈ es, e.1 = wordsVal key) ∧ (geo.noPairs % 2 = 0 ∨ s.height = 1 ∨ 2 ≤ es.length) ∨
        (∀ e ∈ es, e.1 ≠ wordsVal key ∧ e.2 ≠ key.headD 0) ∧ wordsVal key ≠ 0)
  | lookup key => key.length = geo.keylen
  | update key val => key.length = geo.keylen ∧ val ≠ 0 ∧
      ((∃ e ∈ es, e.1 = wordsVal key) ∨ wordsVal key ≠ 0)
  | getPrev key => key.length = geo.keylen ∧ 1 ≤ bot
  | last | visitor | grimVisitor => True

/-! ## The map -/

/-- The calls of a callback for the entries. -/
def callsFor (ks : List (List (BitVec w) × BitVec w)) : List (BitVec w × List (BitVec w) × ℕ) :=
  ks.mapIdx fun i e => (e.2, e.1, i)

/-- The entries are listed with the greatest key first. -/
def mapSpec (geo : Geo) : LooseSpec (List (ℕ × BitVec w)) (Op w) (Result w) where
  allows es
    | .insert _ _, r => r = .code 0 ∨ r = .code (-ENOMEM)
    | .remove key, r | .lookup key, r => r = .value ((findKey (wordsVal key) es).getD 0)
    | .update key _, r =>
        r = .code (if (findKey (wordsVal key) es).isSome then 0 else -ENOENT)
    | .last, r => ∃ key, r = .entry ((es.head?.map (·.2)).getD 0) key ∧
        ∀ e, es.head? = some e → ∃ l, key = some l ∧ l.length = geo.keylen ∧ wordsVal l = e.1
    | .getPrev key, r => ∃ res : BitVec w × Option (List (BitVec w)), r = .entry res.1 res.2 ∧
        IsPrev geo (wordsVal key) es res
    | .visitor, r | .grimVisitor, r => ∃ ks, Spells geo ks es ∧ r = .calls es.length (callsFor ks)
  next es
    | .insert key val, .code 0 => insertKey (wordsVal key) val es
    | .remove key, _ => eraseKey (wordsVal key) es
    | .update key val, _ => setKey (wordsVal key) val es
    | .grimVisitor, _ => []
    | _, _ => es

def mapMachine (geo : Geo) (bot : ℕ) : Machine (BtreeMem w) (Op w) (Result w) where
  enabled tr s op := op.Allowed geo bot s ((mapSpec geo).after [] tr)
  exec op := op.exec geo

/-- The entries are those of the tree, and its nodes are the only new ones. -/
def Represents (geo : Geo) (bot : ℕ) (others : BitVec w → Option (Node w)) (s : BtreeMem w)
    (es : List (ℕ × BitVec w)) : Prop :=
  ∃ as, Holding geo bot s as es ∧ Owns others s as

section Map

variable {geo : Geo} {bot : ℕ} {s : BtreeMem w} {as : List (BitVec w)} {es : List (ℕ × BitVec w)}
  {key : List (BitVec w)}

theorem visitAll_record (ks : List (List (BitVec w) × BitVec w)) (n : ℕ)
    (calls : List (BitVec w × List (BitVec w) × ℕ)) :
    visitAll (callback record (some ())) (n, calls) ks =
      (n + ks.length, calls ++ ks.mapIdx fun i e => (e.2, e.1, n + i)) := by
  induction ks generalizing n calls with
  | nil => simp [visitAll]
  | cons e ks ih =>
      have hcons : visitAll (callback record (some ())) (n, calls) (e :: ks) =
          visitAll (callback record (some ())) (n + 1, calls ++ [(e.2, e.1, n)]) ks := rfl
      rw [hcons, ih, List.mapIdx_cons, List.length_cons]
      simp only [List.append_assoc, List.singleton_append, Nat.add_zero, Prod.mk.injEq]
      have hshift : ∀ i, n + 1 + i = n + (i + 1) := fun i => by omega
      refine ⟨by omega, ?_⟩
      simp only [hshift]

/-- A key that is there has an entry. -/
theorem exists_find (h : ∃ e ∈ es, e.1 = wordsVal key) : ∃ v, findKey (wordsVal key) es = some v ∧
    (wordsVal key, v) ∈ es := by
  cases hfind : findKey (wordsVal key) es with
  | some v => exact ⟨v, rfl, mem_of_findKey hfind⟩
  | none =>
      obtain ⟨e, he, heq⟩ := h
      unfold findKey at hfind
      rw [Option.map_eq_none_iff, List.find?_eq_none] at hfind
      exact absurd heq (by simpa using hfind e he)

/-- One call. -/
theorem Holding.exists_returns (h : Holding geo bot s as es) {op : Op w} (hop : op.Allowed geo bot s es) :
    ∃ r s' as', Returns (op.exec geo) s r s' ∧ Moves as as' s s' ∧ (mapSpec geo).allows es op r ∧
      Holding geo bot s' as' ((mapSpec geo).next es op r) := by
  have hstay : Moves as as s s := (Writes.refl as s).moves
  cases op with
  | insert key val =>
      obtain ⟨hlen, hbot, hval, habs⟩ := hop
      obtain ⟨r, s', as', hret, hmoves, hcase⟩ := h.exists_returns_insert hlen hbot hval habs
      refine ⟨.code r, s', as', hret.map _, hmoves, ?_⟩
      rcases hcase with ⟨rfl, h'⟩ | ⟨rfl, h'⟩
      · exact ⟨.inl rfl, h'⟩
      · exact ⟨.inr rfl, h'⟩
  | remove key =>
      obtain ⟨hlen, hbot, ⟨hmem, hmore⟩ | ⟨habs, hzero⟩⟩ := hop
      · obtain ⟨v, hfind, hv⟩ := exists_find hmem
        obtain ⟨s', as', hret, hmoves, h'⟩ := h.exists_returns_remove hlen hv hmore
        refine ⟨.value v, s', as', hret.map _, hmoves, ?_, h'⟩
        show Result.value v = _
        rw [hfind]
        rfl
      · obtain ⟨s', hret, hmoves, h'⟩ := h.exists_returns_remove_absent hlen hbot (fun e he => (habs e he).1)
          hzero fun e he => (habs e he).2
        refine ⟨.value 0, s', as, hret.map _, hmoves, ?_, ?_⟩
        · show Result.value 0 = _
          rw [findKey_eq_none fun e he => (habs e he).1]
          rfl
        · show Holding geo bot s' as (eraseKey (wordsVal key) es)
          rw [eraseKey_of_absent fun e he => (habs e he).1]
          exact h'
  | lookup key => exact ⟨_, s, as, (Returns.of_run (h.run_btreeLookup hop)).map _, hstay, rfl, h⟩
  | update key val =>
      obtain ⟨hlen, hval, hcase⟩ := hop
      by_cases hmem : ∃ e ∈ es, e.1 = wordsVal key
      · obtain ⟨v, hfind, -⟩ := exists_find hmem
        obtain ⟨s', hrun, hmoves, h'⟩ := h.exists_run_btreeUpdate hlen hmem hval
        refine ⟨.code 0, s', as, (Returns.of_run hrun).map _, hmoves, ?_, h'⟩
        show Result.code 0 = _
        rw [hfind]
        rfl
      · have habs : ∀ e ∈ es, e.1 ≠ wordsVal key := fun e he heq => hmem ⟨e, he, heq⟩
        have hrun : (btreeUpdate geo key val).run s = .ok (-ENOENT, s) :=
          h.run_btreeUpdate_absent hlen habs (hcase.resolve_left hmem)
        refine ⟨.code (-ENOENT), s, as, (Returns.of_run hrun).map _, hstay, ?_, ?_⟩
        · show Result.code _ = _
          rw [findKey_eq_none habs]
          rfl
        · show Holding geo bot s as (setKey (wordsVal key) val es)
          rw [setKey_of_absent habs]
          exact h
  | last =>
      obtain ⟨key, hrun, hkey⟩ := h.exists_run_btreeLast
      exact ⟨_, s, as, (Returns.of_run hrun).map fun res => Result.entry res.1 res.2, hstay,
        ⟨key, rfl, hkey⟩, h⟩
  | getPrev key =>
      obtain ⟨res, hret, hprev⟩ := h.exists_returns_btreeGetPrev hop.1 hop.2
      exact ⟨_, s, as, hret.map fun res => Result.entry res.1 res.2, hstay, ⟨res, rfl, hprev⟩, h⟩
  | visitor =>
      obtain ⟨ks, hks, hrun⟩ := h.exists_run_btreeVisitor record (some ()) []
      refine ⟨_, s, as, (Returns.of_run hrun).map fun res => Result.calls res.1 res.2, hstay,
        ⟨ks, hks, ?_⟩, h⟩
      rw [visitAll_record, hks.length_eq]
      simp [callsFor]
  | grimVisitor =>
      obtain ⟨ks, s', hks, hrun, hmoves, h'⟩ := h.exists_run_btreeGrimVisitor record (some ()) []
      refine ⟨_, s', [], (Returns.of_run hrun).map fun res => Result.calls res.1 res.2, hmoves,
        ⟨ks, hks, ?_⟩, h'⟩
      rw [visitAll_record, hks.length_eq]
      simp [callsFor]

end Map

end StructLib.Btree
