import StructLib.Rblist.Refine

set_option autoImplicit false

/-! # Deleting a list

`rblist__delete` takes the first node out of the tree, time after time. Its successor has been found
before, and is the first node of what is left (`returns_rblistDeleteLoop`). `node_delete` frees the
node, so that a later access to it would be a fault; there is none. -/

namespace StructLib.RbList

open BinTree Ctx Rbtree

variable {D K : Type} [LinearOrder K]

/-- How `node_delete` is called for the nodes `l`, one after the other: each of them is in memory
    and no longer in the tree, which consists of those after it; those before it have been freed. -/
def DeletesInOrder (l : List ℕ) (calls : List (ℕ × RbMem D)) : Prop :=
  calls.map Prod.fst = l ∧ ∀ before call after, calls = before ++ call :: after →
    call.2.node call.1 ≠ none ∧
      (∃ T, TreeIn call.2 T ∧ T.addrs = after.map Prod.fst ∧ call.1 ∉ T) ∧
        ∀ earlier ∈ before, call.2.node earlier.1 = none

/-- The calls and the memory after them, when the loop has started in `m` with the tree of `l`. -/
structure Clears (l : List ℕ) (m : RbMem D) (calls : List (ℕ × RbMem D)) (m' : RbMem D) :
    Prop where
  order : DeletesInOrder l calls
  data : ∀ call ∈ calls, call.2.data = m.data
  same : ∀ call ∈ calls, ∀ n, n ∉ l → call.2.node n = m.node n
  empty : m'.rbNode = none
  freed : ∀ n ∈ l, m'.node n = none
  others : ∀ n, n ∉ l → m'.node n = m.node n

section Loop

variable {m m₁ m' : RbMem D} {T : BinTree Color} {n : ℕ} {l : List ℕ} {calls : List (ℕ × RbMem D)}

theorem run_nodeDelete (hn : m.node n ≠ none) : (nodeDelete (some n)).run m =
    .ok ((), { m with node := Function.update m.node n none }) := by
  obtain ⟨c, hc⟩ := Option.ne_none_iff_exists'.1 hn
  simp [nodeDelete, StateT.run_bind, run_load, atNode, hc]

theorem clears_nil (h : TreeIn m .nil) : Clears [] m [] m where
  order := ⟨rfl, by simp⟩
  data := by simp
  same := by simp
  empty := h.focus.ctx
  freed := by simp
  others _ _ := rfl

/-- One more node before the others. -/
theorem Clears.cons (hn : n ∉ l) (hlive : m₁.node n ≠ none) (hT : TreeIn m₁ T) (hl : T.addrs = l)
    (hdata : m₁.data = m.data) (hsame : ∀ x, x ∉ n :: l → m₁.node x = m.node x)
    (h : Clears l { m₁ with node := Function.update m₁.node n none } calls m') :
    Clears (n :: l) m ((n, m₁) :: calls) m' := by
  have hnode : ∀ x, x ∉ n :: l → Function.update m₁.node n none x = m.node x := by
    intro x hx
    rw [Function.update_of_ne (fun heq => hx (by simp [heq]))]
    exact hsame x hx
  refine ⟨⟨by rw [List.map_cons, h.order.1], fun before call after heq => ?_⟩, ?_, ?_, h.empty, ?_, ?_⟩
  · cases before with
    | nil =>
        obtain ⟨rfl, rfl⟩ := List.cons.inj heq
        exact ⟨hlive, ⟨T, hT, hl.trans h.order.1.symm, by rwa [← mem_addrs, hl]⟩, by simp⟩
    | cons first before =>
        obtain ⟨rfl, rfl⟩ := List.cons.inj heq
        obtain ⟨hcall, htree, hfreed⟩ := h.order.2 before call after rfl
        refine ⟨hcall, htree, fun earlier hearlier => ?_⟩
        rcases List.mem_cons.1 hearlier with rfl | hearlier
        · exact (h.same call (by simp) n hn).trans (Function.update_self ..)
        · exact hfreed earlier hearlier
  · intro call hcall
    rcases List.mem_cons.1 hcall with rfl | hcall
    · exact hdata
    · exact (h.data call hcall).trans hdata
  · intro call hcall x hx
    rcases List.mem_cons.1 hcall with rfl | hcall
    · exact hsame x hx
    · exact (h.same call hcall x (fun hmem => hx (List.mem_cons_of_mem n hmem))).trans (hnode x hx)
  · intro x hx
    rcases List.mem_cons.1 hx with rfl | hx
    · exact (h.others x hn).trans (Function.update_self ..)
    · exact h.freed x hx
  · intro x hx
    exact (h.others x fun hmem => hx (List.mem_cons_of_mem n hmem)).trans (hnode x hx)

/-- The loop, at the first node of the tree. -/
theorem returns_rblistDeleteLoop (h : TreeIn m T) (hl : T.addrs = l) : ∃ calls m' k,
    (∀ fuel rounds, k ≤ fuel → l.length < rounds →
      (rblistDeleteLoop fuel rounds l.head?).run m = .ok (calls, m')) ∧ Clears l m calls m' := by
  induction l generalizing m T with
  | nil =>
      obtain rfl : T = .nil := by
        cases T with
        | nil => rfl
        | node a k c b => simp at hl
      refine ⟨[], m, 0, fun fuel rounds _ hrounds => ?_, clears_nil h⟩
      obtain ⟨rounds, rfl⟩ := Nat.exists_eq_add_one.2 (Nat.zero_lt_of_lt hrounds)
      rfl
  | cons n l ih =>
      have hnodup : (n :: l).Nodup := hl ▸ h.focus.distinct
      have hn : n ∉ l := (List.nodup_cons.1 hnodup).1
      have hmem : n ∈ T := by rw [← mem_addrs, hl]; simp
      obtain ⟨m₁, T₁, ⟨k₁, herase⟩, hfocus, hrb, haddrs, hsame⟩ :=
        returns_rbErase h.focus h.redBlack hmem
      rw [hl, List.erase_cons_head] at haddrs
      have hn₁ : n ∉ T₁ := by rwa [← mem_addrs, haddrs]
      have hlive : m₁.node n ≠ none := by
        rw [hsame.node n hn₁]
        exact h.node_ne_none hmem
      obtain ⟨calls, m', k₂, hrun, hclears⟩ := ih
        (TreeIn.update ⟨hfocus, hrb⟩ hn₁ none m₁.data) haddrs
      refine ⟨(n, m₁) :: calls, m', max (max k₁ k₂) (T.depth + 1), fun fuel rounds hfuel hrounds => ?_,
        hclears.cons hn hlive ⟨hfocus, hrb⟩ haddrs hsame.data fun x hx => hsame.node x ?_⟩
      · obtain ⟨rounds, rfl⟩ := Nat.exists_eq_add_one.2 (Nat.zero_lt_of_lt hrounds)
        have hsplit : T.addrs = [] ++ n :: l := hl
        have hnext : (rbNext fuel (some n)).run m = .ok (l.head?, m) :=
          run_rbNext (by omega) h.focus hsplit
        rw [List.head?_cons, rblistDeleteLoop, Exec.run_bind_of_ok hnext,
          Exec.run_bind_of_ok (herase fuel (by omega)), Exec.run_get_bind,
          Exec.run_bind_of_ok (run_nodeDelete hlive),
          Exec.run_bind_of_ok (hrun fuel rounds (by omega) (by simpa using hrounds))]
        rfl
      · rw [← mem_addrs, haddrs]
        exact fun hmem => hx (List.mem_cons_of_mem n hmem)

end Loop

/-- **Deleting a list** calls `node_delete` once for each node, in sorted order, when the node has
    been taken out of the tree, and no freed node is used again; the tree is empty in the end. -/
theorem rblistDelete_deletes (key : D → K) (s : Rblist D) (l : List (ℕ × K))
    (h : Represents key s l) : ∃ calls s', Returns rblistDelete s calls s' ∧
      DeletesInOrder (l.map Prod.fst) calls ∧
        (calls.map fun call => (call.1, key (call.2.data call.1))) = l ∧
          (l.Pairwise fun x y => x.2 < y.2) ∧ s'.entries.rbNode = none ∧
            ∀ x ∈ l, s'.entries.node x.1 = none := by
  obtain ⟨T, hT, hkeyed, hsorted⟩ := h
  obtain ⟨calls, m', k, hrun, hclears⟩ := returns_rblistDeleteLoop hT rfl
  have haddrs : l.map Prod.fst = T.addrs := by
    rw [← hkeyed, keyed, List.map_map]
    exact List.map_id _
  have hdepth := depth_le_length_addrs T
  refine ⟨calls, { s with entries := m' }, returns_onEntries ⟨max k (T.addrs.length + 1),
    fun fuel hfuel => ?_⟩, haddrs ▸ hclears.order, ?_, hsorted, hclears.empty, fun x hx => ?_⟩
  · rw [Exec.run_bind_of_ok (run_rbFirst (by omega) hT.focus)]
    exact hrun fuel fuel (by omega) (by omega)
  · rw [← hkeyed, keyed, ← hclears.order.1, List.map_map]
    refine List.map_congr_left fun call hcall => ?_
    rw [hclears.data call hcall]
    rfl
  · exact hclears.freed x.1 (haddrs ▸ List.mem_map_of_mem hx)

/-- The list of the nodes 2 and 1, with the keys 20 and 30. -/
theorem rblistDelete_deletes_two : ∃ (s s' : Rblist ℤ) (calls : List (ℕ × RbMem ℤ)),
    Returns rblistDelete s calls s' ∧ calls.map Prod.fst = [2, 1] ∧ s'.entries.rbNode = none := by
  obtain ⟨calls, s', hret, horder, -, -, hempty, -⟩ := rblistDelete_deletes (K := ℤ) id
    ⟨⟨some 2, fun m => if m = 2 then some ⟨⟨none, .black⟩, some 1, none⟩
      else some ⟨⟨some 2, .red⟩, none, none⟩, fun m => if m = 2 then 20 else 30⟩, 2⟩
    [(2, 20), (1, 30)]
    ⟨.node .nil 2 .black (.node .nil 1 .red .nil),
      ⟨⟨⟨rfl, trivial, rfl, trivial, trivial⟩, rfl, by simp⟩, ⟨rfl, 1, 0, rfl, rfl, trivial, trivial, rfl, rfl⟩⟩,
      rfl, by simp⟩
  exact ⟨_, s', calls, hret, horder.1, hempty⟩

end StructLib.RbList
