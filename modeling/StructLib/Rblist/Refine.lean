import StructLib.Rblist.Ops
import Mathlib.Data.List.Sort
import Mathlib.Order.Defs.LinearOrder

set_option autoImplicit false

/-! # A list is a strictly sorted sequence

`listSpec` says what a list is for: a sequence of nodes with strictly increasing keys, into which
entries are inserted, from which nodes are removed, and which is searched by key and by index.
`Represents` relates a list in memory to such a sequence. Where the signs of `node_cmp` are those of
the key order (`CmpSign`), every operation of `rblist.cpp` is simulated by `listSpec`. -/

namespace StructLib.RbList

open BinTree Ctx Rbtree

variable {D A K : Type} [LinearOrder K]

/-! ## The specification -/

/-- The calls of a list. The node that `rblist__add_node` allocates is chosen by `malloc`. -/
inductive RblistOp (A : Type) where
  | addNode (newEntry : A) (mem : ℕ)
  | removeNode (node : ℕ)
  | find (entry : A)
  | entry (idx : UInt32)

/-- What a call returns. -/
inductive RblistResult where
  | code (c : ℤ)
  | void
  | node (p : Ptr)
  deriving DecidableEq

/-- A sorted sequence of nodes and keys; `val` is the key of an entry. -/
def listSpec (val : A → K) : Spec (List (ℕ × K)) (RblistOp A) RblistResult where
  result l
    | .addNode e _ => .code (if ∃ x ∈ l, x.2 = val e then -EEXIST else 0)
    | .removeNode _ => .void
    | .find e => .node ((l.find? fun x => x.2 = val e).map Prod.fst)
    | .entry idx => .node (l[idx.toNat]?.map Prod.fst)
  next l
    | .addNode e n =>
        if ∃ x ∈ l, x.2 = val e then l else l.orderedInsert (fun x y => x.2 ≤ y.2) (n, val e)
    | .removeNode n => l.filter fun x => x.1 ≠ n
    | .find _ => l
    | .entry _ => l

/-- The calls as the code makes them. The environment promises fresh memory from `malloc` and that
    only nodes on the list are removed. -/
def rblistMachine (ops : RblistOps D A) (val : A → K) :
    Machine (Rblist D) (RblistOp A) RblistResult where
  enabled tr s
    | .addNode _ n => s.entries.node n = none
    | .removeNode n => ∃ x ∈ (listSpec val).after [] tr, x.1 = n
    | .find _ => True
    | .entry _ => True
  exec op fuel :=
    match op with
    | .addNode e n => return .code (← rblistAddNode ops fuel e (some n))
    | .removeNode n => do
        rblistRemoveNode fuel (some n)
        return .void
    | .find e => return .node (← rblistFind ops fuel e)
    | .entry idx => return .node (← rblistEntry fuel idx)

/-- The nodes of `T` in order, with the keys of their contents. -/
def keyed (key : D → K) (s : RbMem D) (T : BinTree Color) : List (ℕ × K) :=
  T.addrs.map fun n => (n, key (s.data n))

/-- The list in memory is the sequence `l`, and its keys increase strictly. -/
def Represents (key : D → K) (s : Rblist D) (l : List (ℕ × K)) : Prop :=
  ∃ T, TreeIn s.entries T ∧ keyed key s.entries T = l ∧ l.Pairwise fun x y => x.2 < y.2

/-! ## The search finds the gap -/

/-- `node_cmp` of a node with contents `d` and an entry with the key `k` has the sign of the key
    order. -/
def CmpSign (key : D → K) (d : D) (k : K) (c : ℤ) : Prop :=
  (0 < c ↔ k < key d) ∧ (c < 0 ↔ key d < k)

section Gap

variable {f : ℕ → ℤ} {k : K} {T u : BinTree Color} {gs : Ctx Color}

/-- What a search leaves on its left is smaller than what it looks for. -/
theorem Guided.before_lt (kd : ℕ → K) (hg : Guided f gs) (hf : ∀ n ∈ gs, f n < 0 → kd n < k)
    (hs : gs.before.Pairwise fun x y => kd x < kd y) : ∀ x ∈ gs.before, kd x < k := by
  induction gs with
  | root => simp [Ctx.before]
  | up d n c sib fs ih =>
      cases d with
      | left => exact ih hg.2 (fun m hm => hf m (by simp [hm])) hs
      | right =>
          have hn : kd n < k := hf n (by simp) hg.1
          intro x hx
          rcases List.mem_append.1 hx with hx | hx
          · exact ((List.pairwise_append.1 hs).2.2 x hx n (by simp)).trans hn
          · obtain rfl := List.mem_singleton.1 hx
            exact hn

/-- What it leaves on its right is larger. -/
theorem Guided.lt_after (kd : ℕ → K) (hg : Guided f gs) (hf : ∀ n ∈ gs, 0 < f n → k < kd n)
    (hs : gs.after.Pairwise fun x y => kd x < kd y) : ∀ x ∈ gs.after, k < kd x := by
  induction gs with
  | root => simp [Ctx.after]
  | up d n c sib fs ih =>
      cases d with
      | right => exact ih hg.2 (fun m hm => hf m (by simp [hm])) hs
      | left =>
          have hn : k < kd n := hf n (by simp) hg.1
          intro x hx
          rcases List.mem_cons.1 hx with rfl | hx
          · exact hn
          · exact hn.trans ((List.pairwise_cons.1 hs).1 x hx)

end Gap

theorem orderedInsert_gap {before after : List (ℕ × K)} {x : ℕ × K}
    (hb : ∀ y ∈ before, y.2 < x.2) (ha : ∀ y ∈ after, x.2 < y.2) :
    (before ++ after).orderedInsert (fun x y => x.2 ≤ y.2) x = before ++ x :: after := by
  induction before with
  | nil =>
      cases after with
      | nil => rfl
      | cons y after => exact List.orderedInsert_cons_of_le _ _ (ha y (by simp)).le
  | cons y before ih =>
      have hy : ¬ x.2 ≤ y.2 := not_le.2 (hb y (by simp))
      rw [List.cons_append, List.orderedInsert_cons, if_neg hy, ih fun z hz => hb z (by simp [hz])]
      rfl

section Search

variable {key : D → K} {k : K} {f : ℕ → ℤ} {s : RbMem D} {T u : BinTree Color} {gs : Ctx Color}

/-- A search that comes to a NULL link has found the place of the key in the sequence. -/
theorem SearchEnds.gap (h : SearchEnds f T gs .nil)
    (hf : ∀ n ∈ T, CmpSign key (s.data n) k (f n))
    (hs : (keyed key s T).Pairwise fun x y => x.2 < y.2) :
    ∃ before after, keyed key s T = before ++ after ∧
      before = gs.before.map (fun n => (n, key (s.data n))) ∧
      after = gs.after.map (fun n => (n, key (s.data n))) ∧
      (∀ x ∈ before, x.2 < k) ∧ ∀ x ∈ after, k < x.2 := by
  obtain rfl := h.plug
  have hmem : ∀ n ∈ gs, n ∈ gs.plug .nil := fun n hn => mem_plug.2 (.inr hn)
  rw [keyed, List.pairwise_map, addrs_plug, addrs_nil, List.append_nil] at hs
  obtain ⟨hb, ha, -⟩ := List.pairwise_append.1 hs
  refine ⟨_, _, by simp [keyed, addrs_plug], rfl, rfl, ?_, ?_⟩
  · simpa using h.guided.before_lt (fun n => key (s.data n))
      (fun n hn => (hf n (hmem n hn)).2.1) hb
  · simpa using h.guided.lt_after (fun n => key (s.data n))
      (fun n hn => (hf n (hmem n hn)).1.1) ha

/-- A search that stops at a node has found the only entry with the key. -/
theorem SearchEnds.found {n : ℕ} (h : SearchEnds f T gs u) (hu : u.root = some n)
    (hf : ∀ n ∈ T, CmpSign key (s.data n) k (f n))
    (hs : (keyed key s T).Pairwise fun x y => x.2 < y.2) :
    ∃ before after, keyed key s T = before ++ (n, k) :: after ∧ ∀ x ∈ before, x.2 < k := by
  obtain rfl := h.plug
  cases u with
  | nil => simp at hu
  | node l m c r =>
      obtain rfl : m = n := by simpa using hu
      have hcmp := hf m (mem_plug.2 (.inl (by simp)))
      rw [h.stop m hu] at hcmp
      have hkey : key (s.data m) = k :=
        le_antisymm (not_lt.1 fun hlt => lt_irrefl _ (hcmp.1.2 hlt))
          (not_lt.1 fun hlt => lt_irrefl _ (hcmp.2.2 hlt))
      have hsplit : keyed key s (gs.plug (node l m c r)) =
          (gs.before ++ l.addrs).map (fun n => (n, key (s.data n))) ++
            (m, k) :: (r.addrs ++ gs.after).map (fun n => (n, key (s.data n))) := by
        simp [keyed, addrs_plug, hkey]
      rw [hsplit] at hs
      exact ⟨_, _, hsplit, fun x hx => (List.pairwise_append.1 hs).2.2 x hx (m, k) (by simp)⟩

end Search

/-! ## One call -/

section Steps

variable {ops : RblistOps D A} {key : D → K} {val : A → K} {s : Rblist D} {e : A}
  {T : BinTree Color}

/-- The signs of `node_cmp` between the nodes of the tree and the entry `e`. -/
def CmpSigns (ops : RblistOps D A) (key : D → K) (val : A → K) (s : RbMem D) (T : BinTree Color)
    (e : A) : Prop :=
  ∀ n ∈ T, CmpSign key (s.data n) (val e) (ops.nodeCmp (s.data n) e)

/-- `rblist__add_node` of a key that is there changes nothing. -/
theorem addNode_present (mem : Ptr) (h : TreeIn s.entries T)
    (hs : (keyed key s.entries T).Pairwise fun x y => x.2 < y.2)
    (hcmp : CmpSigns ops key val s.entries T e)
    (hmem : ∀ n, mem = some n → s.entries.node n = none)
    (he : ∃ x ∈ keyed key s.entries T, x.2 = val e) :
    Returns (fun fuel => rblistAddNode ops fuel e mem) s (-EEXIST) s := by
  obtain ⟨gs, u, hends, ⟨-, hret⟩ | hnil⟩ := returns_rblistAddNode ops e mem h hmem
  · exact hret
  · -- the gap that an unsuccessful search finds leaves no room for the key
    obtain rfl : u = .nil := by
      rcases hnil with hnil | hnil <;> exact hnil.1
    obtain ⟨before, after, hsplit, -, -, hb, ha⟩ := hends.gap hcmp hs
    obtain ⟨x, hx, hxe⟩ := he
    rcases List.mem_append.1 (hsplit ▸ hx) with hx | hx
    · exact absurd (hxe ▸ hb x hx) (lt_irrefl _)
    · exact absurd (hxe ▸ ha x hx) (lt_irrefl _)

/-- Without an equal key in the sequence the search ends at a NULL link. -/
theorem SearchEnds.eq_nil {gs : Ctx Color} {u : BinTree Color}
    (hends : SearchEnds (fun n => ops.nodeCmp (s.entries.data n) e) T gs u)
    (hs : (keyed key s.entries T).Pairwise fun x y => x.2 < y.2)
    (hcmp : CmpSigns ops key val s.entries T e)
    (he : ¬ ∃ x ∈ keyed key s.entries T, x.2 = val e) : u = .nil := by
  by_contra hu
  obtain ⟨m, hm⟩ := Option.ne_none_iff_exists'.1 (mt root_eq_none.1 hu)
  obtain ⟨before, after, hsplit, -⟩ := hends.found hm hcmp hs
  exact he ⟨(m, val e), by rw [hsplit]; simp, rfl⟩

/-- `rblist__add_node` of a new key without memory for it. -/
theorem addNode_nomem (h : TreeIn s.entries T)
    (hs : (keyed key s.entries T).Pairwise fun x y => x.2 < y.2)
    (hcmp : CmpSigns ops key val s.entries T e)
    (he : ¬ ∃ x ∈ keyed key s.entries T, x.2 = val e) :
    Returns (fun fuel => rblistAddNode ops fuel e none) s (-ENOMEM) s := by
  obtain ⟨gs, u, hends, ⟨hu, -⟩ | ⟨-, -, hret⟩ | ⟨-, n, -, -, hnull, -⟩⟩ :=
    returns_rblistAddNode ops e none h (by simp)
  · exact absurd (hends.eq_nil hs hcmp he) hu
  · exact hret
  · exact absurd hnull (by simp)

/-- `rblist__add_node` of a new key inserts it into the sequence. -/
theorem addNode_absent {n : ℕ} (h : TreeIn s.entries T)
    (hs : (keyed key s.entries T).Pairwise fun x y => x.2 < y.2)
    (hcmp : CmpSigns ops key val s.entries T e) (hnew : key (ops.nodeNew e) = val e)
    (hn : s.entries.node n = none) (he : ¬ ∃ x ∈ keyed key s.entries T, x.2 = val e) :
    ∃ s' T' gs, T = gs.plug .nil ∧
      Returns (fun fuel => rblistAddNode ops fuel e (some n)) s 0 s' ∧ Added s gs n (ops.nodeNew e) s' T' ∧
      keyed key s'.entries T' =
        (keyed key s.entries T).orderedInsert (fun x y => x.2 ≤ y.2) (n, val e) ∧
      (keyed key s'.entries T').Pairwise fun x y => x.2 < y.2 := by
  obtain ⟨gs, u, hends, hcases⟩ := returns_rblistAddNode ops e (some n) h
    (by rintro _ ⟨⟩; exact hn)
  rcases hcases with ⟨hu, -⟩ | ⟨-, habs, -⟩ | ⟨rfl, n', s', T', hn', hret, hadd⟩
  · exact absurd (hends.eq_nil hs hcmp he) hu
  · exact absurd habs (by simp)
  · obtain rfl : n = n' := by simpa using hn'
    obtain ⟨before, after, hsplit, rfl, rfl, hb, ha⟩ := hends.gap hcmp hs
    have hngs : n ∉ gs.before ++ gs.after := fun hmem =>
      h.not_mem hn (hends.plug ▸ mem_plug.2 (.inr hmem))
    have hdata : ∀ l : List ℕ, n ∉ l → l.map (fun m => (m, key (s'.entries.data m))) =
        l.map fun m => (m, key (s.entries.data m)) := by
      intro l hl
      refine List.map_congr_left fun m hm => ?_
      rw [hadd.data, Function.update_of_ne (by rintro rfl; exact hl hm)]
    have hkeyed : keyed key s'.entries T' = gs.before.map (fun m => (m, key (s.entries.data m))) ++
        (n, val e) :: gs.after.map fun m => (m, key (s.entries.data m)) := by
      rw [keyed, hadd.addrs, List.map_append, List.map_cons,
        hdata gs.before fun hm => hngs (List.mem_append_left _ hm),
        hdata gs.after fun hm => hngs (List.mem_append_right _ hm), hadd.data, Function.update_self,
        hnew]
    refine ⟨s', T', gs, hends.plug, hret, hadd, ?_, ?_⟩
    · rw [hsplit, orderedInsert_gap (x := (n, val e)) hb ha, hkeyed]
    · rw [hkeyed]
      rw [hsplit] at hs
      obtain ⟨hsb, hsa, hsba⟩ := List.pairwise_append.1 hs
      refine List.pairwise_append.2 ⟨hsb, List.pairwise_cons.2 ⟨ha, hsa⟩, fun x hx y hy => ?_⟩
      rcases List.mem_cons.1 hy with rfl | hy
      · exact hb x hx
      · exact hsba x hx y hy

/-- `rblist__remove_node` takes exactly that node out of the sequence. -/
theorem removeNode_step {n : ℕ} (h : TreeIn s.entries T) (hn : n ∈ T)
    (hs : (keyed key s.entries T).Pairwise fun x y => x.2 < y.2) :
    ∃ s' T', Returns (fun fuel => rblistRemoveNode fuel (some n)) s () s' ∧
      TreeIn s'.entries T' ∧
      keyed key s'.entries T' = (keyed key s.entries T).filter (fun x => x.1 ≠ n) ∧
      (keyed key s'.entries T').Pairwise fun x y => x.2 < y.2 := by
  obtain ⟨s', T', hret, htree, haddrs, hdata, -⟩ := returns_rblistRemoveNode h hn
  have hkeyed : keyed key s'.entries T' = (keyed key s.entries T).filter (fun x => x.1 ≠ n) := by
    have hd : T.addrs.Nodup := h.focus.distinct
    rw [keyed, keyed, haddrs, hdata, hd.erase_eq_filter, List.filter_map]
    congr 1
    refine List.filter_congr fun m _ => ?_
    simp [bne, Bool.beq_eq_decide_eq]
  exact ⟨s', T', hret, htree, hkeyed, hkeyed ▸ hs.sublist List.filter_sublist⟩

/-- `rblist__find` returns the node with the key. -/
theorem find_step (h : TreeIn s.entries T)
    (hs : (keyed key s.entries T).Pairwise fun x y => x.2 < y.2)
    (hcmp : CmpSigns ops key val s.entries T e) :
    Returns (fun fuel => rblistFind ops fuel e) s
      (((keyed key s.entries T).find? fun x => x.2 = val e).map Prod.fst) s := by
  obtain ⟨gs, u, hends, hret⟩ := returns_rblistFind ops e h
  cases hu : u.root with
  | none =>
      obtain rfl := root_eq_none.1 hu
      obtain ⟨before, after, hsplit, -, -, hb, ha⟩ := hends.gap hcmp hs
      have hnone : (keyed key s.entries T).find? (fun x => x.2 = val e) = none := by
        rw [hsplit, List.find?_eq_none]
        intro x hx
        rcases List.mem_append.1 hx with hx | hx
        · simpa using (hb x hx).ne
        · simpa using (ha x hx).ne'
      rw [hnone]
      exact hret
  | some n =>
      obtain ⟨before, after, hsplit, hb⟩ := hends.found hu hcmp hs
      have hsome : (keyed key s.entries T).find? (fun x => x.2 = val e) = some (n, val e) := by
        rw [List.find?_eq_some_iff_append]
        exact ⟨by simp, before, after, hsplit, fun x hx => by simpa using (hb x hx).ne⟩
      rw [hsome, Option.map_some, ← hu]
      exact hret

end Steps

/-! ## All runs -/

section Runs

variable {ops : RblistOps D A} {key : D → K} {val : A → K}

/-- The signs of `node_cmp` are those of one total order of keys, and a new node has the key of the
    entry it was made for. -/
structure Lawful (ops : RblistOps D A) (key : D → K) (val : A → K) : Prop where
  nodeCmp : ∀ d e, CmpSign key d (val e) (ops.nodeCmp d e)
  nodeNew : ∀ e, key (ops.nodeNew e) = val e

variable {s : Rblist D} {T : BinTree Color}

/-- Every call on a tree in memory is simulated by the specification on the sequence of its keys. -/
theorem rblist_step (hops : Lawful ops key val) (hT : TreeIn s.entries T)
    (hs : (keyed key s.entries T).Pairwise fun x y => x.2 < y.2) (op : RblistOp A)
    (hnew : ∀ e n, op = .addNode e n → s.entries.node n = none)
    (hold : ∀ n, op = .removeNode n → n ∈ T) :
    ∃ s', Returns ((rblistMachine ops val).exec op) s
        ((listSpec val).result (keyed key s.entries T) op) s' ∧
      Represents key s' ((listSpec val).next (keyed key s.entries T) op) := by
  have hcmp : ∀ e, CmpSigns ops key val s.entries T e := fun e n _ => hops.nodeCmp _ _
  cases op with
  | addNode e n =>
      have hn := hnew e n rfl
      simp only [listSpec]
      by_cases he : ∃ x ∈ keyed key s.entries T, x.2 = val e
      · simp only [if_pos he]
        have hret := addNode_present (some n) hT hs (hcmp e) (by rintro _ ⟨⟩; exact hn) he
        exact ⟨s, hret.bind (.of_run rfl), T, hT, rfl, hs⟩
      · simp only [if_neg he]
        obtain ⟨s', T', gs, -, hret, hadd, hkeyed, hs'⟩ :=
          addNode_absent hT hs (hcmp e) (hops.nodeNew e) hn he
        exact ⟨s', hret.bind (.of_run rfl), T', hadd.tree, hkeyed, hkeyed ▸ hs'⟩
  | removeNode n =>
      obtain ⟨s', T', hret, hT', hkeyed, hs'⟩ := removeNode_step hT (hold n rfl) hs
      rw [hkeyed] at hs'
      exact ⟨s', hret.bind (.of_run rfl), T', hT', hkeyed, hs'⟩
  | find e => exact ⟨s, (find_step hT hs (hcmp e)).bind (.of_run rfl), T, hT, rfl, hs⟩
  | entry idx =>
      have hfst : T.addrs[idx.toNat]? = (keyed key s.entries T)[idx.toNat]?.map Prod.fst := by
        rw [keyed, List.getElem?_map]
        cases T.addrs[idx.toNat]? <;> rfl
      have hret := returns_rblistEntry idx hT
      rw [hfst] at hret
      exact ⟨s, hret.bind (.of_run rfl), T, hT, rfl, hs⟩

theorem represents_init (key : D → K) (s : Rblist D) :
    Represents key { s with entries := { s.entries with rbNode := none }, nrEntries := 0 } [] :=
  ⟨.nil, ⟨⟨trivial, rfl, distinct_nil⟩, trivial, 0, rfl⟩, rfl, .nil⟩

/-- The runs of a list from `rblist__init` on. -/
theorem rblistMachine_refines (hops : Lawful ops key val) (s : Rblist D) :
    ∃ s₀, rblistInit.run s = .ok ((), s₀) ∧
      (rblistMachine ops val).Refines s₀ (listSpec val) [] (Represents key) := by
  refine ⟨_, rfl, Machine.refines_of_step (represents_init key s) fun tr s' op hrep en => ?_⟩
  obtain ⟨T, hT, hl, hs⟩ := hrep
  rw [← hl] at hs ⊢
  refine rblist_step hops hT hs op ?_ ?_
  · rintro e n rfl
    exact en
  · rintro n rfl
    obtain ⟨x, hx, rfl⟩ := en
    rw [← hl] at hx
    obtain ⟨m, hm, rfl⟩ := List.mem_map.1 hx
    exact hm

/-- A call that reports `-EEXIST` leaves the memory as it was. -/
theorem addNode_eexist (hops : Lawful ops key val) {s s' : Rblist D} {l : List (ℕ × K)} {e : A}
    {n : ℕ} (h : Represents key s l) (hn : s.entries.node n = none)
    (hret : Returns (fun fuel => rblistAddNode ops fuel e (some n)) s (-EEXIST) s') : s' = s := by
  obtain ⟨T, hT, rfl, hs⟩ := h
  have hcmp : CmpSigns ops key val s.entries T e := fun n _ => hops.nodeCmp _ _
  by_cases he : ∃ x ∈ keyed key s.entries T, x.2 = val e
  · exact (hret.unique (addNode_present (some n) hT hs hcmp (by rintro _ ⟨⟩; exact hn) he)).2
  · obtain ⟨s₁, -, -, -, hret', -⟩ := addNode_absent hT hs hcmp (hops.nodeNew e) hn he
    exact absurd (hret.unique hret').1 (by decide)

/-- **A list is a strictly sorted sequence without equal entries**, whatever is added, removed and
    looked up, and however the tree is rebalanced. A refused addition changes nothing. -/
theorem rblist_sorted_sequence (ops : RblistOps D K) (key : D → K) (hops : Lawful ops key id)
    (s : Rblist D) :
    ∃ s₀, rblistInit.run s = .ok ((), s₀) ∧
      (rblistMachine ops id).Refines s₀ (listSpec id) [] (Represents key) ∧
      ∀ tr s₁ e n s₂, (rblistMachine ops id).Run s₀ tr s₁ →
        (rblistMachine ops id).enabled tr s₁ (.addNode e n) →
        Returns (fun fuel => rblistAddNode ops fuel e (some n)) s₁ (-EEXIST) s₂ → s₂ = s₁ := by
  obtain ⟨s₀, hinit, href⟩ := rblistMachine_refines hops s
  exact ⟨s₀, hinit, href, fun tr s₁ e n s₂ hrun en hret =>
    addNode_eexist hops (href tr s₁ hrun).1 en hret⟩

/-- Integers compared by subtraction. -/
def intOps : RblistOps ℤ ℤ := ⟨fun d e => d - e, id⟩

theorem rblist_sorted_sequence_int :
    ∃ s₀, rblistInit.run (⟨⟨none, fun _ => none, fun _ => 0⟩, 0⟩ : Rblist ℤ) = .ok ((), s₀) ∧
      (rblistMachine intOps id).Refines s₀ (listSpec id) [] (Represents id) ∧
      ∀ tr s₁ e n s₂, (rblistMachine intOps id).Run s₀ tr s₁ →
        (rblistMachine intOps id).enabled tr s₁ (.addNode e n) →
        Returns (fun fuel => rblistAddNode intOps fuel e (some n)) s₁ (-EEXIST) s₂ → s₂ = s₁ :=
  rblist_sorted_sequence intOps id
    ⟨fun d e => by simp only [CmpSign, intOps, id]; omega, fun _ => rfl⟩ _

end Runs

end StructLib.RbList
