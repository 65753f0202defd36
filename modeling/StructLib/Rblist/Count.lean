import StructLib.Rblist.Ops

set_option autoImplicit false

/-! # The counter `nr_entries`

`rblist__add_node` counts the nodes it adds; `rblist__remove_node` does not count down. So
`nr_entries` is the number of additions, modulo the width of the counter, and it is the number of
nodes only as long as nothing has been removed (`countRight_iff`). -/

namespace StructLib.RbList

open BinTree Ctx Rbtree

variable {D A : Type}

/-- The calls that change a list; `mem` is what `malloc` returns. -/
inductive ChangeOp (A : Type) where
  | addNode (newEntry : A) (mem : Ptr)
  | removeNode (node : ℕ)
  deriving DecidableEq

/-- Additions and removals as the code makes them, whatever `node_cmp` does. The environment
    promises fresh memory, or NULL, from `malloc` and that only nodes of the tree are removed. -/
def changeMachine (ops : RblistOps D A) : Machine (Rblist D) (ChangeOp A) ℤ where
  enabled _ s
    | .addNode _ mem => ∀ n, mem = some n → s.entries.node n = none
    | .removeNode n => ∃ T, TreeIn s.entries T ∧ n ∈ T
  exec op fuel :=
    match op with
    | .addNode e mem => rblistAddNode ops fuel e mem
    | .removeNode n => do
        rblistRemoveNode fuel (some n)
        return 0

/-- How many calls in a history were removals. -/
def removals (tr : List (ChangeOp A × ℤ)) : ℕ :=
  tr.countP fun e => match e.1 with
    | .addNode .. => false
    | .removeNode _ => true

/-- What the counter is for: it is the number of nodes, it tells whether there is any, and it bounds
    the indexes at which `rblist__entry` finds a node. -/
structure CountRight (s : Rblist D) (T : BinTree Color) : Prop where
  nrEntries : (rblistNrEntries s).toNat = T.addrs.length
  empty : rblistEmpty s = true ↔ T = .nil
  entry : ∀ i : UInt32, ∃ p, Returns (fun fuel => rblistEntry fuel i) s p s ∧
    (p.isSome = true ↔ i < rblistNrEntries s)

section Count

variable {ops : RblistOps D A} {s s₀ : Rblist D} {T : BinTree Color} {tr : List (ChangeOp A × ℤ)}

/-- The counter is right as soon as it is the number of nodes. -/
theorem countRight_of_nrEntries (h : TreeIn s.entries T)
    (hn : s.nrEntries.toNat = T.addrs.length) : CountRight s T := by
  refine ⟨hn, ?_, fun i => ⟨_, returns_rblistEntry i h, ?_⟩⟩
  · rw [rblistEmpty, decide_eq_true_eq]
    cases T with
    | nil => simpa [UInt32.ext_iff] using hn
    | node l n c r =>
        simp only [addrs_node, List.length_append, List.length_cons] at hn
        have hne : s.nrEntries ≠ 0 := by
          intro h0
          rw [h0, UInt32.toNat_zero] at hn
          omega
        simp [hne]
  · rw [rblistNrEntries, UInt32.lt_iff_toNat_lt, hn]
    simp

/-- The counter is the number of nodes and removals, modulo `2 ^ 32`. -/
def Counted (s : Rblist D) (removed : ℕ) : Prop :=
  ∃ T, TreeIn s.entries T ∧ s.nrEntries.toNat = (T.addrs.length + removed) % 2 ^ 32

/-- One call. -/
theorem Counted.step {op : ChangeOp A} {k : ℕ} (h : Counted s k)
    (en : (changeMachine ops).enabled tr s op) :
    ∃ r s', Returns ((changeMachine ops).exec op) s r s' ∧
      Counted s' (k + removals [(op, r)]) := by
  obtain ⟨T, hT, hcount⟩ := h
  cases op with
  | addNode e mem =>
      obtain ⟨gs, u, hends, ⟨-, hret⟩ | ⟨-, -, hret⟩ | ⟨rfl, n, s', T', -, hret, hadd⟩⟩ :=
        returns_rblistAddNode ops e mem hT en
      · exact ⟨_, s, hret, T, hT, hcount⟩
      · exact ⟨_, s, hret, T, hT, hcount⟩
      · refine ⟨0, s', hret, T', hadd.tree, ?_⟩
        have hlen : T'.addrs.length = T.addrs.length + 1 := by
          rw [hadd.addrs, hends.plug, addrs_plug]
          simp
          omega
        have hk : k + removals [(ChangeOp.addNode e mem, (0 : ℤ))] = k := rfl
        rw [hk, hadd.nrEntries, UInt32.toNat_add, hcount, hlen, UInt32.toNat_one]
        omega
  | removeNode n =>
      obtain ⟨T₁, hT₁, hn⟩ := en
      obtain rfl := hT.unique hT₁
      obtain ⟨s', T', hret, hT', haddrs, -, hnr⟩ := returns_rblistRemoveNode hT hn
      refine ⟨0, s', hret.bind (.of_run rfl), T', hT', ?_⟩
      have hlen := List.length_erase_add_one (mem_addrs.2 hn)
      have hk : k + removals [(ChangeOp.removeNode (A := A) n, (0 : ℤ))] = k + 1 := rfl
      rw [hk, hnr, hcount, haddrs]
      congr 1
      omega

theorem removals_append (tr : List (ChangeOp A × ℤ)) (e : ChangeOp A × ℤ) :
    removals (tr ++ [e]) = removals tr + removals [e] := by
  rw [removals, List.countP_append]
  rfl

/-- Every run keeps the count of additions. -/
theorem Counted.run (h₀ : Counted s₀ 0) (hrun : (changeMachine ops).Run s₀ tr s) :
    Counted s (removals tr) := by
  induction hrun with
  | nil => exact h₀
  | @snoc tr s s' op r hrun en ret ih =>
      obtain ⟨r', s'', ret', h⟩ := ih.step en
      obtain ⟨rfl, rfl⟩ := ret'.unique ret
      rwa [removals_append]

theorem counted_init (s : Rblist D) :
    Counted { s with entries := { s.entries with rbNode := none }, nrEntries := 0 } 0 :=
  ⟨.nil, ⟨⟨trivial, rfl, distinct_nil⟩, trivial, 0, rfl⟩, rfl⟩

/-- **When `nr_entries` is right**: in every state of every run from `rblist__init` on, exactly when
    the number of removals so far is a multiple of `2 ^ 32` (for one, when nothing has been removed)
    and the tree has fewer than `2 ^ 32` nodes. All calls return. -/
theorem nrEntries_right_iff (ops : RblistOps D A) (s : Rblist D) :
    ∃ s₀, rblistInit.run s = .ok ((), s₀) ∧ ∀ tr s₁, (changeMachine ops).Run s₀ tr s₁ →
      (∃ T, TreeIn s₁.entries T ∧
        (CountRight s₁ T ↔ removals tr % 2 ^ 32 = 0 ∧ T.addrs.length < 2 ^ 32)) ∧
      ∀ op, (changeMachine ops).enabled tr s₁ op →
        ∃ r s₂, Returns ((changeMachine ops).exec op) s₁ r s₂ := by
  refine ⟨_, rfl, fun tr s₁ hrun => ?_⟩
  have hcounted := (counted_init s).run hrun
  refine ⟨?_, fun op en => ?_⟩
  · obtain ⟨T, hT, hcount⟩ := hcounted
    refine ⟨T, hT, fun h => ?_, fun h => countRight_of_nrEntries hT ?_⟩
    · -- the counter can only agree with the nodes if the removals do not show in it
      have hnr := h.nrEntries
      rw [rblistNrEntries, hcount] at hnr
      omega
    · rw [hcount]
      omega
  · obtain ⟨r, s₂, hret, -⟩ := hcounted.step en
    exact ⟨r, s₂, hret⟩

/-- One node added and removed: the counter still says one. -/
theorem nrEntries_wrong_after_remove :
    ∃ s, (changeMachine (⟨fun d e => d - e, id⟩ : RblistOps ℤ ℤ)).Run
        ⟨⟨none, fun _ => none, fun _ => 0⟩, 0⟩
        [(.addNode 1 (some 0), 0), (.removeNode 0, 0)] s ∧
      ∃ T, TreeIn s.entries T ∧ ¬ CountRight s T := by
  have hempty : TreeIn (⟨none, fun _ => none, fun _ => 0⟩ : RbMem ℤ) .nil :=
    ⟨⟨trivial, rfl, distinct_nil⟩, trivial, 0, rfl⟩
  obtain ⟨gs, u, hends, ⟨hu, -⟩ | ⟨-, hnull, -⟩ | ⟨rfl, n, s₁, T₁, hn, hadd, hT₁⟩⟩ :=
    returns_rblistAddNode (⟨fun d e => d - e, id⟩ : RblistOps ℤ ℤ) 1 (some 0)
      (s := ⟨⟨none, fun _ => none, fun _ => 0⟩, 0⟩) hempty (fun _ _ => rfl)
  · exact absurd (plug_eq_nil hends.plug.symm).2 hu
  · exact absurd hnull (by simp)
  · obtain rfl : 0 = n := by simpa using hn
    have haddrs : T₁.addrs = [0] := by
      rw [hT₁.addrs, (plug_eq_nil hends.plug.symm).1]
      rfl
    have hmem : 0 ∈ T₁ := by simp [← mem_addrs, haddrs]
    obtain ⟨s₂, T₂, hremove, hT₂, haddrs₂, -, hnr⟩ := returns_rblistRemoveNode hT₁.tree hmem
    refine ⟨s₂, .snoc (.snoc .nil (fun _ _ => rfl) hadd) ⟨T₁, hT₁.tree, hmem⟩
      (hremove.bind (.of_run rfl)), T₂, hT₂, fun hright => ?_⟩
    have hcount := hright.nrEntries
    rw [rblistNrEntries, hnr, hT₁.nrEntries, haddrs₂, haddrs] at hcount
    exact absurd hcount (by decide)

end Count

end StructLib.RbList
