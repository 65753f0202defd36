import StructLib.Btree.Insert
import StructLib.Lib.Raise

set_option autoImplicit false

/-! # Removal from a B+tree

`btree_remove_level` takes an entry out of the block that covers its key. A block that has become
small is merged with a neighbour under the same parent where both fit into one node, and an empty one
goes; in both cases an entry of the level above goes in the same way, up to the root, and a root with
one child is given up for the child.

A root above the leaves must not become empty: the code does not expect it. For even `no_pairs` it
never does, because of `Shape`; for odd ones it does not as long as an entry is left. -/

namespace StructLib.Btree

variable {w : ℕ} {geo : Geo}

section Entry

variable {s : BtreeMem w} {nd : Node w} {es₁ es₂ : List (ℕ × BitVec w)} {e : ℕ × BitVec w}
  {a : BitVec w} {key : KeyPtr w} {k : List (BitVec w)} {fuel level : ℕ}

/-- The entry is taken out of its node, and what is left to do. -/
theorem run_btreeRemoveLevel (hheight : level ≤ s.height)
    (hfind : (findLevel geo key level).run s = .ok (a, s)) (hnode : s.nodes a = some nd)
    (hnd : nd.Holds geo (es₁ ++ e :: es₂)) (hk : (key.read geo).run s = .ok (k, s))
    (hlen : k.length = geo.keylen) (h₁ : ∀ x ∈ es₁, wordsVal k < x.1)
    (h₂ : ∀ x ∈ e :: es₂, x.1 ≤ wordsVal k) (hleaf : level = 1 → e.1 = wordsVal k) : ∃ nd',
      nd'.Holds geo (es₁ ++ es₂) ∧ (btreeRemoveLevel geo (fuel + 1) key level).run s = StateT.run (do
        refit geo (btreeRemoveLevel geo fuel) key level a (es₁ ++ es₂).length
        return e.2) (s.setNode a nd') := by
  obtain ⟨hlt, hpair⟩ := hnd.pair_mid
  have hroom := hnd.length_le
  rw [List.length_append, List.length_cons] at hroom
  have hpos := hnd.getpos_eq hlen h₁ h₂
  have hfill : getfill geo nd es₁.length = es₁.length + es₂.length + 1 := by
    rw [hnd.getfill_eq (by simp)]
    simp only [List.length_append, List.length_cons]
    omega
  have hmissing : (isMissing geo a es₁.length k level).run s = .ok (false, s) := by
    unfold isMissing
    by_cases hone : level = 1
    · have heq : longcmp (bkey geo nd es₁.length) k = 0 := by
        rw [longcmp_eq_zero_iff (by rw [length_bkey, hlen])]
        exact (congrArg Prod.fst hpair).trans (hleaf hone)
      rw [if_pos hone, Exec.run_bind_of_ok (run_read_slot hnode hlt), heq]
      rfl
    · rw [if_neg hone]
      rfl
  have hval : nd.val geo es₁.length = e.2 := congrArg Prod.snd hpair
  have hret : (bval geo a es₁.length).run s = .ok (e.2, s) := by
    rw [run_bval hnode hlt, hval]
  have hslots : es₁.length + es₂.length < geo.noPairs := by omega
  obtain ⟨nd₁, hshift, hpair₁⟩ := run_shiftLeft hnode hslots
  have hclear : (clearpair geo a (es₁.length + es₂.length)).run (s.setNode a nd₁) = _ :=
    run_clearpair setNode_nodes_self hslots
  refine ⟨_, hnd.erase hpair₁, ?_⟩
  conv =>
    lhs
    unfold btreeRemoveLevel
  rw [Exec.run_get_bind, if_neg (by omega), Exec.run_bind_of_ok hfind,
    Exec.run_bind_of_ok (run_load hnode), Exec.run_bind_of_ok hk, hpos]
  dsimp only
  rw [hfill, Exec.run_bind_of_ok hmissing, if_neg (by simp), Exec.run_bind_of_ok hret,
    if_neg (Nat.succ_ne_zero _), Nat.add_sub_cancel, Nat.add_sub_cancel_left,
    Exec.run_bind_of_ok hshift, Exec.run_bind_of_ok hclear, setNode_setNode, List.length_append]

end Entry

/-! ## What a removal leaves -/

/-- The root of a tree with more than one level, as far as the number of its entries goes. -/
def RootOK (n level : ℕ) (es : List (ℕ × BitVec w)) : Prop := level ≠ 1 → Top n es

/-- The levels after a removal: the lowest one has the children `S`, or it was the root and has been
    given up for its only child. -/
inductive After (geo : Geo) (bot top level : ℕ) (P Q : List (ℕ × BitVec w) → Prop)
    (as : List (BitVec w)) (s s' : BtreeMem w) (S : List (Span ℕ (BitVec w))) : Prop
  | row (row' : List (Blk w)) (above' : List (List (Blk w)))
      (tree : TreeAt geo bot top level P (RootOK geo.noPairs level) s' (row' :: above'))
      (kids_eq : kids row' = S) (moves : Moves as (addrs (row' :: above')) s s')
  | gone (t : Span ℕ (BitVec w)) (only : S = [t]) (hi_eq : t.hi = top) (le_lo : bot ≤ t.lo)
      (rest : Q [(t.lo, t.addr)]) (above : level ≠ 1) (node : s'.node = t.addr) (height : s'.height + 1 = level)
      (null : s'.nodes 0 = none) (moves : Moves as [] s s')

/-- The entry of a child that ends at `hi` has gone from between `S₁` and `S₂`. Where `next`, the
    first one of `S₂` has taken over. -/
def Removes (geo : Geo) (bot top level : ℕ) (P Q : List (ℕ × BitVec w) → Prop)
    (as : List (BitVec w)) (s s' : BtreeMem w) (S₁ : List (Span ℕ (BitVec w))) (hi : ℕ)
    (S₂ : List (Span ℕ (BitVec w))) (next : Prop) : Prop :=
  ∃ S₁' S₂', Raised S₁ S₁' ∧ Raised S₂ S₂' ∧ (next → ∃ t T, S₂' = t :: T ∧ hi ≤ t.hi) ∧
    After geo bot top level P Q as s s' (S₁' ++ S₂')

section After

variable {s s' s₀ : BtreeMem w} {bot top level : ℕ} {P Q : List (ℕ × BitVec w) → Prop}
  {as bs : List (BitVec w)} {S : List (Span ℕ (BitVec w))}

theorem After.of_moves (h : After geo bot top level P Q as s s' S) (hs : Moves bs as s₀ s) :
    After geo bot top level P Q bs s₀ s' S := by
  cases h with
  | row row' above' tree kids_eq moves => exact .row row' above' tree kids_eq (hs.trans moves)
  | gone t only hi_eq le_lo rest above node height null moves =>
      exact .gone t only hi_eq le_lo rest above node height null (hs.trans moves)

/-- The level below, `row` being its blocks with their new intervals. -/
theorem After.below {row : List (Blk w)} (hlevel : 1 ≤ level)
    (h : After geo bot top (level + 1) (fun es => Shape geo.noPairs (weights row es))
      (fun es => HasBig geo.noPairs (weights row es)) as s s' (row.map (·.toSpan)))
    (hrow : RowOK geo.noPairs P row)
    (hnodes : ∀ b ∈ row, ∃ nd, s.nodes b.addr = some nd ∧ nd.Holds geo b.entries)
    (hnd : (row.map (·.addr)).Nodup) (has : ∀ b ∈ row, b.addr ∉ as) : ∃ row' above',
      TreeAt geo bot top level P (RootOK geo.noPairs level) s' (row' :: above') ∧
      kids row' = kids row ∧ row'.map Block.core = row.map Block.core ∧
      Moves (row.map (·.addr) ++ as) (addrs (row' :: above')) s s' := by
  have hkeep : ∀ {cs : List (BitVec w)}, Moves as cs s s' → ∀ b ∈ row, b.addr ∉ cs ∧
      ∃ nd, s'.nodes b.addr = some nd ∧ nd.Holds geo b.entries := by
    intro cs hmoves b hb
    obtain ⟨nd, hnode, hholds⟩ := hnodes b hb
    refine ⟨hmoves.not_mem (has b hb) (by simp [hnode]), nd, ?_, hholds⟩
    rw [hmoves.agree b.addr (has b hb) (by simp [hnode]), hnode]
  cases h with
  | row par above tree kids_eq moves =>
      have hkeep' := hkeep moves
      have hstored : Stored geo s' (row :: par :: above) := by
        refine tree.stored.cons (fun b hb => (hkeep' b hb).2) ?_
        rw [addrs_cons, List.nodup_append]
        refine ⟨hnd, tree.stored.nodup, ?_⟩
        rintro a ha _ ha' rfl
        obtain ⟨b, hb, rfl⟩ := List.mem_map.1 ha
        exact (hkeep' b hb).1 ha'
      refine ⟨row, par :: above, ⟨⟨hrow, kids_eq.symm, ?_⟩, hstored, ?_⟩, rfl, rfl, ?_⟩
      · refine tree.levels.imp (fun _ _ => id) ?_
        intro _ b _ hb
        exact hb (by omega)
      · rw [tree.height]
        simp only [List.length_cons]
        omega
      · rw [addrs_cons]
        exact moves.append _
  | gone t only hi_eq le_lo rest above node height null moves =>
      obtain ⟨b, rfl, hb⟩ := List.map_eq_singleton_iff.1 only
      obtain ⟨hok, hP⟩ := hrow b (by simp)
      obtain ⟨-, nd, hnode, hholds⟩ := hkeep moves b (by simp)
      have haddr : b.addr = t.addr := congrArg Span.addr hb
      have hlo : bot ≤ b.lo := le_lo.trans_eq (congrArg Span.lo hb).symm
      have hroot : RootOK geo.noPairs level b.entries := by
        intro _ heven
        obtain ⟨x, hx, hbig⟩ := rest.big heven
        have hfill : fill [b] b.addr = b.entries.length := fill_of_mem hnd (by simp)
        obtain rfl : x = b.entries.length := by
          simpa [weights, ← haddr, hfill] using hx
        have := geo.four_le_noPairs
        omega
      refine ⟨[{ b with lo := bot }], [], ⟨⟨?_, _, rfl, rfl, ?_, hroot⟩, ⟨?_, ?_, null, ?_⟩, ?_⟩,
        rfl, rfl, ?_⟩
      · intro c hc
        obtain rfl := List.mem_singleton.1 hc
        exact ⟨⟨hlo.trans_lt hok.lo_lt_hi, hok.within.mono hlo (le_refl _), hok.length_le⟩, hP⟩
      · show b.hi = top
        rw [← hi_eq, ← hb]
      · intro c hc
        obtain rfl : c = { b with lo := bot } := by simpa using hc
        exact ⟨nd, hnode, hholds⟩
      · simp [addrs]
      · exact ⟨_, rfl, haddr.trans node.symm⟩
      · exact height
      · exact (moves.append [b.addr]).congr (by simp) (by simp [addrs])

end After

/-! ## One level -/

/-- The key argument: an array of the caller, or the slot of the entry that is to go, where another
    entry follows it. -/
def Follows (geo : Geo) (key : KeyPtr w) (a : BitVec w) (es₁ : List (ℕ × BitVec w))
    (e : ℕ × BitVec w) (es₂ : List (ℕ × BitVec w)) (k : ℕ) : Prop :=
  (∃ l, key = .caller l ∧ l.length = geo.keylen ∧ wordsVal l = k) ∨
    key = .slot a es₁.length ∧ es₂ ≠ [] ∧ k = e.1

/-- The entry `e` of `b` is to go. `P` is what is required afterwards of the entries of the level, and
    `Q` what is known of those of a block that has become small. -/
structure Removal (geo : Geo) (bot top level : ℕ) (P Q : List (ℕ × BitVec w) → Prop)
    (s : BtreeMem w) (pre : List (Blk w)) (b : Blk w) (post : List (Blk w))
    (above : List (List (Blk w))) (es₁ : List (ℕ × BitVec w)) (e : ℕ × BitVec w)
    (es₂ : List (ℕ × BitVec w)) (key : KeyPtr w) (k : ℕ) : Prop where
  tree : TreeAt geo bot top level (fun _ => True) (RootOK geo.noPairs level) s
    ((pre ++ b :: post) :: above)
  level_pos : 1 ≤ level
  entries : b.entries = es₁ ++ e :: es₂
  covers : b.Covers k
  before : ∀ x ∈ es₁, k < x.1
  le : e.1 ≤ k
  leaf : level = 1 → e.1 = k
  follows : Follows geo key b.addr es₁ e es₂ k
  keep : ∀ c ∈ pre ++ post, P c.entries
  rest : es₁ ++ es₂ ≠ [] ∨ level = 1 → P (es₁ ++ es₂) ∧ Q (es₁ ++ es₂)
  join : ∀ vs ws, P vs → Q ws → ws.length < geo.noPairs / 2 → P (vs ++ ws) ∧ P (ws ++ vs)
  more : geo.noPairs % 2 = 0 ∨ (level = 1 ∧ above = []) ∨ 2 ≤ (flat (pre ++ b :: post)).length

/-- What `btree_remove_level` makes of it. -/
def Removal.Gives {geo : Geo} {bot top level : ℕ} {P Q : List (ℕ × BitVec w) → Prop}
    {s : BtreeMem w} {pre : List (Blk w)} {b : Blk w} {post : List (Blk w)}
    {above : List (List (Blk w))} {es₁ : List (ℕ × BitVec w)} {e : ℕ × BitVec w}
    {es₂ : List (ℕ × BitVec w)} {key : KeyPtr w} {k : ℕ}
    (_ : Removal geo bot top level P Q s pre b post above es₁ e es₂ key k) (s' : BtreeMem w) : Prop :=
  Removes geo bot top level P Q (addrs ((pre ++ b :: post) :: above)) s s'
    (kids pre ++ spans b.hi es₁) (lowest b.hi es₁) (spans e.1 es₂ ++ kids post) (es₂ ≠ [])

section Removal

variable {s : BtreeMem w} {bot top level fuel : ℕ} {P Q : List (ℕ × BitVec w) → Prop}
  {pre post : List (Blk w)} {b : Blk w} {above : List (List (Blk w))}
  {es₁ es₂ : List (ℕ × BitVec w)} {e : ℕ × BitVec w} {key : KeyPtr w} {k : ℕ} {nd : Node w}

theorem Removal.within (h : Removal geo bot top level P Q s pre b post above es₁ e es₂ key k) :
    Within b.lo b.hi (es₁ ++ e :: es₂) :=
  h.entries ▸ (h.tree.levels.rowOK b (by simp)).1.within

theorem Removal.after_le (h : Removal geo bot top level P Q s pre b post above es₁ e es₂ key k) :
    ∀ x ∈ e :: es₂, x.1 ≤ k := by
  intro x hx
  have hw := (within_cons.1 (within_append.1 h.within).2).2.2
  rcases List.mem_cons.1 hx with rfl | hx
  · exact h.le
  · exact (hw.lt_hi x hx).le.trans h.le

/-- The key at the start. -/
theorem Removal.exists_read (h : Removal geo bot top level P Q s pre b post above es₁ e es₂ key k) :
    ∃ l, (key.read geo).run s = .ok (l, s) ∧ l.length = geo.keylen ∧ wordsVal l = k := by
  rcases h.follows with ⟨l, rfl, hlen, hval⟩ | ⟨rfl, -, hval⟩
  · exact ⟨l, run_read_caller, hlen, hval⟩
  · obtain ⟨nd, hnode, hholds⟩ := h.tree.stored.exists_node (b := b) (by simp)
    rw [h.entries] at hholds
    obtain ⟨hlt, hpair⟩ := hholds.pair_mid
    exact ⟨bkey geo nd es₁.length, run_read_slot hnode hlt, length_bkey .., by
      rw [hval]
      exact congrArg Prod.fst hpair⟩

/-- The key after the entry has gone. -/
theorem Removal.exists_read_after
    (h : Removal geo bot top level P Q s pre b post above es₁ e es₂ key k) {s' : BtreeMem w}
    (hnode : s'.nodes b.addr = some nd) (hnd : nd.Holds geo (es₁ ++ es₂)) :
    ∃ l, (key.read geo).run s' = .ok (l, s') ∧ l.length = geo.keylen ∧ b.Covers (wordsVal l) := by
  rcases h.follows with ⟨l, rfl, hlen, hval⟩ | ⟨rfl, hne, -⟩
  · exact ⟨l, run_read_caller, hlen, hval ▸ h.covers⟩
  · cases es₂ with
    | nil => exact absurd rfl hne
    | cons x es₂ =>
        obtain ⟨hlt, hpair⟩ := hnd.pair_mid
        have hkey : wordsVal (bkey geo nd es₁.length) = x.1 := congrArg Prod.fst hpair
        have hw := (within_cons.1 (within_append.1 h.within).2).2.2
        refine ⟨bkey geo nd es₁.length, run_read_slot hnode hlt, length_bkey .., ?_⟩
        rw [hkey]
        exact ⟨hw.1, (hw.2.1.trans_le h.le).trans h.covers.2⟩

theorem Removal.level_le (h : Removal geo bot top level P Q s pre b post above es₁ e es₂ key k) :
    level ≤ s.height ∧ (level < s.height ↔ above ≠ []) := by
  have := h.tree.height
  rw [List.length_cons] at this
  refine ⟨by omega, ?_⟩
  rw [← List.length_pos_iff]
  omega

/-- The entry is taken out, and what is left to do. -/
theorem Removal.exists_run (h : Removal geo bot top level P Q s pre b post above es₁ e es₂ key k)
    (fuel : ℕ) :
    ∃ nd, nd.Holds geo (es₁ ++ es₂) ∧ (btreeRemoveLevel geo (fuel + 1) key level).run s = StateT.run (do
      refit geo (btreeRemoveLevel geo fuel) key level b.addr (es₁ ++ es₂).length
      return e.2) (s.setNode b.addr nd) := by
  obtain ⟨l, hread, hlen, rfl⟩ := h.exists_read
  obtain ⟨nd, hnode, hholds⟩ := h.tree.stored.exists_node (b := b) (by simp)
  rw [h.entries] at hholds
  exact run_btreeRemoveLevel h.level_le.1 (run_findLevel h.tree (by simp) h.covers hread hlen) hnode
    hholds hread hlen h.before h.after_le h.leaf

/-- The block without the entry is fine where it is. -/
theorem Removal.gives_plain (h : Removal geo bot top level P Q s pre b post above es₁ e es₂ key k)
    (hnd : nd.Holds geo (es₁ ++ es₂)) (hP : P (es₁ ++ es₂))
    (hroot : above = [] → RootOK geo.noPairs level (es₁ ++ es₂))
    (hshape : ∀ par above', above = par :: above' → ∃ pp p qq ep₁ ep₂, par = pp ++ p :: qq ∧
      p.entries = ep₁ ++ (b.lo, b.addr) :: ep₂ ∧ ∀ row',
        row' = pre ++ { b with entries := es₁ ++ es₂ } :: post →
        Shape geo.noPairs (weights row' ep₁ ++ b.entries.length :: weights row' ep₂) →
        Shape geo.noPairs (weights row' ep₁ ++ (es₁ ++ es₂).length :: weights row' ep₂)) :
    h.Gives (s.setNode b.addr nd) := by
  let b' : Blk w := { b with entries := es₁ ++ es₂ }
  obtain ⟨nd₀, hnode, -⟩ := h.tree.stored.exists_node (b := b) (by simp)
  have hmem : b.addr ∈ addrs ((pre ++ b :: post) :: above) := mem_addrs (by simp)
  have hw := h.within
  have hrow : RowOK geo.noPairs P (pre ++ b' :: post) := by
    intro c hc
    rw [List.mem_append, List.mem_cons] at hc
    rcases hc with hc | rfl | hc
    · exact ⟨(h.tree.levels.rowOK c (by simp [hc])).1, h.keep c (by simp [hc])⟩
    · exact ⟨⟨(h.tree.levels.rowOK b (by simp)).1.lo_lt_hi, within_erase hw, hnd.length_le⟩, hP⟩
    · exact ⟨(h.tree.levels.rowOK c (by simp [hc])).1, h.keep c (by simp [hc])⟩
  have hlevels : Levels geo.noPairs bot top P (RootOK geo.noPairs level)
      ((pre ++ b' :: post) :: above) := by
    cases above with
    | nil =>
        obtain ⟨-, c, hc, hlo, hhi, -⟩ := h.tree.levels
        obtain ⟨rfl, rfl, rfl⟩ : pre = [] ∧ b = c ∧ post = [] := by
          cases pre with
          | nil => simpa using hc
          | cons d pre => simp at hc
        exact ⟨hrow, b', rfl, hlo, hhi, hroot rfl⟩
    | cons par above =>
        obtain ⟨pp, p, qq, ep₁, ep₂, rfl, hp, hkeep⟩ := hshape par above rfl
        have hrowp := h.tree.levels.2.2.rowOK
        rw [List.append_cons] at hrowp
        obtain ⟨hothers, hparent⟩ := shape_others [b'] hrowp
          (h.tree.levels.nodup_flat h.tree.stored.nodup_row) (hp.trans (List.append_cons ..))
          (by simp [b'])
        have hfill : weights (pre ++ [b] ++ post) [(b.lo, b.addr)] = [b.entries.length] := by
          rw [weights_cons, fill_of_mem (b := b) (by simpa using h.tree.stored.nodup_row) (by simp)]
          rfl
        have hfill' : fill (pre ++ [b'] ++ post) b.addr = (es₁ ++ es₂).length :=
          fill_of_mem (b := b') (by simpa [b'] using h.tree.stored.nodup_row) (by simp)
        refine ⟨hrow, ?_, h.tree.levels.2.2.imp ?_ fun _ _ _ => id⟩
        · rw [← h.tree.levels.2.1]
          simp [b']
        · intro q hq _
          rw [List.append_cons]
          rw [List.mem_append, List.mem_cons] at hq
          rcases hq with hq | rfl | hq
          · exact hothers q (by simp [hq])
          · rw [hp, weights_append, weights_cons, hfill']
            rw [hfill, List.append_assoc] at hparent
            exact hkeep _ (List.append_cons ..).symm hparent
          · exact hothers q (by simp [hq])
  refine ⟨kids pre ++ spans b.hi es₁, spans (lowest b.hi es₁) es₂ ++ kids post, Raised.refl _, ?_, ?_,
    .row (pre ++ b' :: post) above ⟨hlevels, ?_, h.tree.height⟩ ?_ ?_⟩
  · refine (raised_spans ?_ es₂).append (Raised.refl _)
    exact (within_cons.1 (within_append.1 hw).2).2.1.le
  · intro hne
    cases es₂ with
    | nil => exact absurd rfl hne
    | cons x es₂ => exact ⟨_, _, rfl, le_refl _⟩
  · exact h.tree.stored.setNode (u := []) (c := b') rfl hnd
  · rw [kids_append, kids_cons]
    show kids pre ++ (spans b.hi (es₁ ++ es₂) ++ kids post) = _
    rw [spans_append]
    simp
  · refine (writes_setNode hmem hnode).moves.congr (fun _ => Iff.rfl) ?_
    intro a
    rw [addrs_cons, addrs_cons]
    simp [b']

/-- A root with one child is given up. -/
theorem Removal.exists_run_shrink {x : ℕ × BitVec w}
    (h : Removal geo bot top level P Q s pre b post [] es₁ e es₂ key k) (hlevel : level ≠ 1)
    (hone : es₁ ++ es₂ = [x]) (hnd : nd.Holds geo (es₁ ++ es₂)) : ∃ s',
      (btreeShrink geo).run (s.setNode b.addr nd) = .ok ((), s') ∧ h.Gives s' := by
  obtain ⟨-, c, hc, hlo, hhi, -⟩ := h.tree.levels
  obtain ⟨rfl, rfl, rfl⟩ : pre = [] ∧ b = c ∧ post = [] := by
    cases pre with
    | nil => simpa using hc
    | cons d pre => simp at hc
  have hw := h.within
  have hpos := h.level_pos
  have hroot : s.node = b.addr := by
    obtain ⟨c, hc, hroot⟩ := h.tree.stored.root
    obtain rfl : b = c := by simpa using hc
    exact hroot.symm
  have hheight : s.height = level := by simpa using h.tree.height
  obtain ⟨nd₀, hnode, -⟩ := h.tree.stored.exists_node (b := b) (by simp)
  have hb0 : b.addr ≠ 0 := h.tree.stored.addr_ne_zero (by simp)
  have hfill : getfill geo nd 0 = 1 := by
    rw [hnd.getfill_eq (Nat.zero_le _), hone]
    rfl
  have hval : nd.val geo 0 = x.2 := by
    have hnd' : nd.Holds geo ([] ++ x :: []) := hone ▸ hnd
    exact congrArg Prod.snd hnd'.pair_mid.2
  have hfour := geo.four_le_noPairs
  have hchild : (bval geo b.addr 0).run (s.setNode b.addr nd) = .ok (x.2, s.setNode b.addr nd) := by
    rw [run_bval setNode_nodes_self (by omega), hval]
  let s₁ : BtreeMem w := { s.setNode b.addr nd with node := x.2, height := s.height - 1 }
  have hfree : (mempoolFree b.addr).run s₁ = .ok ((), s₁.freeNode b.addr) :=
    run_mempoolFree setNode_nodes_self
  have hwithin : Within b.lo b.hi [x] := hone ▸ within_erase hw
  refine ⟨s₁.freeNode b.addr, ?_, ?_⟩
  · unfold btreeShrink
    rw [Exec.run_get_bind, if_neg (by rw [setNode_height]; omega), setNode_node, hroot,
      Exec.run_bind_of_ok (run_load setNode_nodes_self)]
    dsimp only
    rw [hfill, if_neg (by omega), Exec.run_bind_of_ok hchild]
    exact hfree
  · have hgone : After geo bot top level P Q (addrs [[b]]) s (s₁.freeNode b.addr) (spans b.hi [x]) := by
      refine .gone ⟨x.2, x.1, b.hi⟩ rfl hhi ?_ ?_ hlevel rfl ?_ ?_ ?_
      · exact hlo.symm.trans_le (within_cons.1 hwithin).1
      · have hrest := h.rest (.inl (by simp [hone]))
        rw [hone] at hrest
        exact hrest.2
      · show s.height - 1 + 1 = level
        omega
      · rw [freeNode_nodes_of_ne hb0.symm]
        exact (setNode_nodes_of_ne hb0.symm).trans h.tree.stored.null
      · have hwrite : Moves [b.addr] [b.addr] s (s.setNode b.addr nd) :=
          (writes_setNode (List.mem_singleton_self b.addr) hnode).moves
        have hmoves : Moves [b.addr] [] (s.setNode b.addr nd) (s₁.freeNode b.addr) :=
          (moves_freeNode (s.setNode b.addr nd) b.addr).of_nodes_eq rfl
        exact (hwrite.trans hmoves).congr (by simp [addrs]) (by simp)
    rcases List.append_eq_singleton_iff.1 hone with ⟨rfl, rfl⟩ | ⟨rfl, rfl⟩
    · exact ⟨[], spans b.hi [x], Raised.refl _, raised_cons rfl rfl (by
        exact (within_cons.1 hw).2.1.le) (Raised.refl _), fun _ => ⟨_, _, rfl, le_refl _⟩, hgone⟩
    · exact ⟨spans b.hi [x], [], Raised.refl _, Raised.refl _, fun hne => absurd rfl hne, hgone⟩

/-- A node that has left the tree is freed. -/
theorem TreeAt.exists_run_free {us : List (List (Blk w))} {as : List (BitVec w)} {a : BitVec w}
    {R : List (ℕ × BitVec w) → Prop} {s₀ : BtreeMem w} (ht : TreeAt geo bot top level P R s us)
    (hmoves : Moves as (addrs us) s₀ s) (ha : a ∉ as) (hnode : s₀.nodes a = some nd) :
    (mempoolFree a).run s = .ok ((), s.freeNode a) ∧
      TreeAt geo bot top level P R (s.freeNode a) us ∧
      Moves (a :: as) (addrs us) s₀ (s.freeNode a) := by
  have hsame : s.nodes a = some nd := by rw [hmoves.agree a ha (by simp [hnode]), hnode]
  have hnot : a ∉ addrs us := hmoves.not_mem ha (by simp [hnode])
  have hfree := moves_freeNode s a
  refine ⟨run_mempoolFree hsame, ht.of_agree hfree.agree ?_ ?_ rfl rfl, ?_⟩
  · intro b hb heq
    exact hnot (List.mem_singleton.1 heq ▸ List.mem_map_of_mem hb)
  · by_cases h0 : a = 0
    · rw [h0]
      exact freeNode_nodes_self
    · rw [freeNode_nodes_of_ne (Ne.symm h0), ht.stored.null]
  · refine ((hmoves.append [a]).congr (by simp) (fun _ => Iff.rfl)).trans ?_
    exact (hfree.append (addrs us)).congr (by simp [or_comm]) (by simp)

end Removal

/-- `btree_remove_level` works where `n` levels lie above its own. -/
def Removable (geo : Geo) (bot top fuel n : ℕ) : Prop :=
  ∀ {s : BtreeMem w} {level : ℕ} {P Q : List (ℕ × BitVec w) → Prop} {pre post : List (Blk w)}
    {b : Blk w} {above : List (List (Blk w))} {es₁ es₂ : List (ℕ × BitVec w)} {e : ℕ × BitVec w}
    {key : KeyPtr w} {k : ℕ}, above.length = n →
    ∀ h : Removal geo bot top level P Q s pre b post above es₁ e es₂ key k, ∃ s',
      (btreeRemoveLevel geo fuel key level).run s = .ok (e.2, s') ∧ h.Gives s'

section Empty

variable {s : BtreeMem w} {bot top level fuel : ℕ} {P Q : List (ℕ × BitVec w) → Prop}
  {pre post par : List (Blk w)} {b : Blk w} {above : List (List (Blk w))}
  {e : ℕ × BitVec w} {key : KeyPtr w} {k : ℕ} {nd : Node w}

/-- The entry of an empty block goes from the level above. -/
theorem Removal.above_of_empty
    (h : Removal geo bot top level P Q s pre b post (par :: above) [] e [] key k) (nd : Node w) :
    ∃ pp p qq ep₁ ep₂, par = pp ++ p :: qq ∧ p.entries = ep₁ ++ (b.lo, b.addr) :: ep₂ ∧
      pre.map (·.toSpan) = kids pp ++ spans p.hi ep₁ ∧
      post.map (·.toSpan) = spans b.lo ep₂ ++ kids qq ∧
      Removal geo bot top (level + 1) (fun es => Shape geo.noPairs (weights (pre ++ post) es))
        (fun es => HasBig geo.noPairs (weights (pre ++ post) es)) (s.setNode b.addr nd) pp p qq above
        ep₁ (b.lo, b.addr) ep₂ key k := by
  obtain ⟨pp, p, qq, ep₁, ep₂, rfl, hp, hhi, hpre, hpost⟩ := h.tree.levels.exists_parent
  refine ⟨pp, p, qq, ep₁, ep₂, rfl, hp, hpre, hpost, ?_⟩
  have hpok := (h.tree.levels.2.2.rowOK p (by simp)).1
  obtain ⟨hpcov, hgt⟩ := covers_parent hpok hp hhi h.covers
  have hfour := geo.four_le_noPairs
  have hone : b.entries.length = 1 := by
    rw [h.entries]
    rfl
  have hb0 : b.addr ≠ 0 := h.tree.stored.addr_ne_zero (by simp)
  have hrowp := h.tree.levels.2.2.rowOK
  rw [List.append_cons] at hrowp
  obtain ⟨hothers, hparent⟩ := shape_others [] hrowp
    (h.tree.levels.nodup_flat h.tree.stored.nodup_row) (hp.trans (List.append_cons ..)) (by simp)
  have hfill : weights (pre ++ [b] ++ post) [(b.lo, b.addr)] = [1] := by
    rw [weights_cons, fill_of_mem (b := b) (by simpa using h.tree.stored.nodup_row) (by simp), hone]
    rfl
  rw [hfill, List.append_assoc, List.append_nil] at hparent
  rw [List.append_nil] at hothers
  refine ⟨?_, by omega, hp, hpcov, hgt, h.covers.1, by have := h.level_pos; omega, ?_, hothers, ?_, ?_, ?_⟩
  · refine (h.tree.tail.of_agree (agree_setNode (List.mem_singleton_self _)) ?_ ?_ rfl rfl).imp
      (fun _ _ _ => trivial) fun _ _ _ hR _ => hR
    · intro c hc heq
      refine h.tree.stored.not_mem_above (b := b) (by simp) ?_
      rw [← List.mem_singleton.1 heq]
      exact List.mem_map_of_mem hc
    · rw [setNode_nodes_of_ne hb0.symm, h.tree.stored.null]
  · rcases h.follows with hcaller | ⟨-, hne, -⟩
    · exact .inl hcaller
    · exact absurd rfl hne
  · intro hrest
    have hne : ep₁ ++ ep₂ ≠ [] := hrest.resolve_right (by have := h.level_pos; omega)
    rw [weights_append]
    have hne' : weights (pre ++ post) ep₁ ++ weights (pre ++ post) ep₂ ≠ [] := by
      rw [← weights_append]
      intro hnil
      exact hne (List.map_eq_nil_iff.1 hnil)
    refine ⟨hparent.erase (by omega) hne', (hparent.hasBig hfour ?_).erase (by omega)⟩
    have := List.length_pos_iff.2 hne'
    simp only [List.length_append, List.length_cons] at this ⊢
    omega
  · intro vs ws hv hw hlen
    rw [weights_append, weights_append]
    exact ⟨hv.join hw (by simpa using hlen), hv.join' hw (by simpa using hlen)⟩
  · rcases h.more with heven | ⟨-, hnil⟩ | hmore
    · exact .inl heven
    · exact absurd hnil (by simp)
    · refine .inr (.inr ?_)
      have hlen : (flat (pp ++ p :: qq)).length = (pre ++ b :: post).length := by
        rw [← map_kids, ← h.tree.levels.2.1, List.length_map, List.length_map]
      rw [hlen]
      by_contra hshort
      have hnil : pre = [] ∧ post = [] := by
        simp only [List.length_append, List.length_cons] at hshort
        exact ⟨List.length_eq_zero_iff.1 (by omega), List.length_eq_zero_iff.1 (by omega)⟩
      rw [hnil.1, hnil.2, List.nil_append, flat_cons, List.length_append, hone] at hmore
      simp at hmore

/-- A block that has become empty goes, and is freed. -/
theorem Removal.exists_run_empty
    (h : Removal geo bot top level P Q s pre b post (par :: above) [] e [] key k)
    (ih : Removable (w := w) geo bot top fuel above.length) (nd : Node w) : ∃ s',
      (rebalance geo (btreeRemoveLevel geo fuel) key level b.addr 0).run (s.setNode b.addr nd) =
        .ok ((), s') ∧ h.Gives s' := by
  obtain ⟨pp, p, qq, ep₁, ep₂, rfl, hp, hpre, hpost, hup⟩ := h.above_of_empty nd
  obtain ⟨s₂, hrun, S₁, S₂, hS₁, hS₂, -, hafter⟩ := ih rfl hup
  rw [← hpre] at hS₁
  rw [← hpost] at hS₂
  obtain ⟨X, hX, hXcore, hXkids, hXrow⟩ := exists_raise hS₁
  obtain ⟨Y, hY, hYcore, hYkids, hYrow⟩ := exists_raise hS₂
  have hcore : (X ++ Y).map Block.core = (pre ++ post).map Block.core := by
    rw [List.map_append, List.map_append, hXcore, hYcore]
  have haddr := addr_eq_of_core hcore
  have hweights : ∀ es, weights (X ++ Y) es = weights (pre ++ post) es := weights_eq_of_core hcore
  rw [← hX, ← hY, ← List.map_append] at hafter
  simp only [← hweights] at hafter
  have hsub : ∀ c ∈ pre ++ post, c ∈ pre ++ b :: post := by
    intro c hc
    rcases List.mem_append.1 hc with hc | hc
    · simp [hc]
    · simp [hc]
  have hrow : ∀ {T : List (Blk w)}, (∀ c ∈ T, c ∈ pre ++ post) → RowOK geo.noPairs P T :=
    fun hT c hc => ⟨(h.tree.levels.rowOK c (hsub c (hT c hc))).1, h.keep c (hT c hc)⟩
  have hnd₀ : b.addr ∉ (pre ++ post).map (·.addr) ∧ ((pre ++ post).map (·.addr)).Nodup := by
    have hnodup := h.tree.stored.nodup_row
    rw [List.map_append, List.map_cons, List.perm_middle.nodup_iff, ← List.map_append,
      List.nodup_cons] at hnodup
    exact hnodup
  obtain ⟨nd₀, hnode₀, -⟩ := h.tree.stored.exists_node (b := b) (by simp)
  have hnodes : ∀ c ∈ pre ++ post, ∃ nd', (s.setNode b.addr nd).nodes c.addr = some nd' ∧
      nd'.Holds geo c.entries := by
    intro c hc
    obtain ⟨nd', hnode, hholds⟩ := h.tree.stored.exists_node (hsub c hc)
    refine ⟨nd', ?_, hholds⟩
    rw [setNode_nodes_of_ne, hnode]
    intro heq
    exact hnd₀.1 (heq ▸ List.mem_map_of_mem hc)
  have habove : ∀ c ∈ X ++ Y, c.addr ∉ addrs ((pp ++ p :: qq) :: above) := by
    intro c hc
    have hmem : c.addr ∈ (pre ++ post).map (·.addr) := haddr ▸ List.mem_map_of_mem hc
    obtain ⟨d, hd, heq⟩ := List.mem_map.1 hmem
    rw [← heq]
    exact h.tree.stored.not_mem_above (hsub d hd)
  obtain ⟨row', above', ht', hkids, -, hmoves⟩ := hafter.below h.level_pos (by
    intro c hc
    rcases List.mem_append.1 hc with hc | hc
    · exact hXrow _ _ (hrow fun _ hc => List.mem_append_left _ hc) c hc
    · exact hYrow _ _ (hrow fun _ hc => List.mem_append_right _ hc) c hc)
    (holds_of_core hcore hnodes) (haddr ▸ hnd₀.2) habove
  rw [haddr] at hmoves
  have hfresh : b.addr ∉ (pre ++ post).map (·.addr) ++ addrs ((pp ++ p :: qq) :: above) := by
    rw [List.mem_append, not_or]
    exact ⟨hnd₀.1, h.tree.stored.not_mem_above (by simp)⟩
  obtain ⟨hfree, ht'', hmoves'⟩ := ht'.exists_run_free hmoves hfresh setNode_nodes_self
  refine ⟨s₂.freeNode b.addr, ?_, kids X, kids Y, ?_, ?_, fun hne => absurd rfl hne,
    .row row' above' ht'' (hkids.trans (kids_append ..)) ?_⟩
  · unfold rebalance
    rw [if_pos rfl, Exec.run_bind_of_ok hrun, hfree]
  · rw [spans_nil, List.append_nil]
    exact hXkids
  · rw [spans_nil, List.nil_append]
    exact hYkids
  · have hwrite : Writes (addrs ((pre ++ b :: post) :: (pp ++ p :: qq) :: above)) s
        (s.setNode b.addr nd) := writes_setNode (mem_addrs (by simp)) hnode₀
    refine hwrite.moves.trans (hmoves'.congr ?_ fun _ => Iff.rfl)
    intro a
    rw [addrs_cons]
    simp only [List.map_append, List.map_cons, List.mem_append, List.mem_cons]
    tauto

end Empty

end StructLib.Btree
