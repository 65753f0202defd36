import StructLib.Rblist.Model
import StructLib.Rbtree.Erase
import StructLib.Rbtree.Traverse

set_option autoImplicit false

/-! # What the list operations do to the tree

Nothing here depends on what `node_cmp` computes: the search follows its signs down to an equal node
or a NULL link (`SearchEnds`), an insertion puts the node into that gap of the in-order sequence, a
removal takes it out, and `rblist__entry` counts along the sequence. -/

namespace StructLib.RbList

open BinTree Ctx Rbtree

variable {D A : Type}

/-! ## Running on the tree of a list -/

section OnEntries

variable {α : Type} {s : Rblist D} {m : RbMem D} {a : α}

theorem run_onEntries {x : Exec (RbMem D) α} (h : x.run s.entries = .ok (a, m)) :
    (onEntries x).run s = .ok (a, { s with entries := m }) :=
  Exec.run_onPart h

theorem returns_onEntries {f : ℕ → Exec (RbMem D) α} (h : Returns f s.entries a m) :
    Returns (fun fuel => onEntries (f fuel)) s a { s with entries := m } :=
  h.onPart

end OnEntries

/-- Memory holds the red-black tree `T`. -/
structure TreeIn (s : RbMem D) (T : BinTree Color) : Prop where
  focus : Focus s .root T
  redBlack : RedBlack T

section TreeIn

variable {s : RbMem D} {T : BinTree Color}

/-- The nodes of a tree in memory are allocated. -/
theorem TreeIn.node_ne_none (h : TreeIn s T) {n : ℕ} (hn : n ∈ T) : s.node n ≠ none :=
  h.focus.live n hn

/-- Memory holds one tree. -/
theorem TreeIn.unique {T' : BinTree Color} (h : TreeIn s T) (h' : TreeIn s T') : T = T' :=
  h.focus.unique h'.focus

theorem TreeIn.not_mem (h : TreeIn s T) {n : ℕ} (hn : s.node n = none) : n ∉ T :=
  fun hmem => h.node_ne_none hmem hn

/-- A write outside the tree. -/
theorem TreeIn.update (h : TreeIn s T) {n : ℕ} (hn : n ∉ T) (c : Option RbNode) (data : ℕ → D) :
    TreeIn (⟨s.rbNode, Function.update s.node n c, data⟩ : RbMem D) T :=
  ⟨⟨(rbLayout.treeAt_update hn).2 h.focus.tree, h.focus.ctx, h.focus.distinct⟩, h.redBlack⟩

end TreeIn

/-! ## The search -/

/-- The path to the hole is the one that a search steered by `f` takes: left where `f` is positive,
    right where it is negative. -/
def Guided (f : ℕ → ℤ) : Ctx Color → Prop
  | .root => True
  | .up .left n _ _ fs => 0 < f n ∧ Guided f fs
  | .up .right n _ _ fs => f n < 0 ∧ Guided f fs

/-- The search of `T` steered by `f` comes to the subtree `u` below `gs` and stops there. -/
structure SearchEnds (f : ℕ → ℤ) (T : BinTree Color) (gs : Ctx Color) (u : BinTree Color) : Prop where
  plug : T = gs.plug u
  guided : Guided f gs
  stop : ∀ n, u.root = some n → f n = 0

/-- How the loop reports the place where it stopped. -/
def searchResult (gs : Ctx Color) (u : BinTree Color) : Ptr × Option RbLink :=
  match u.root with
  | some n => (some n, none)
  | none => (gs.parent none, some (linkOf gs))

section Search

variable (ops : RblistOps D A) (e : A) {s : RbMem D} {T t : BinTree Color}

theorem run_nodeCmp {n : ℕ} {c : RbNode} (hn : s.node n = some c) :
    (nodeCmp ops (some n) e).run s = .ok (ops.nodeCmp (s.data n) e, s) := by
  simp [nodeCmp, StateT.run_bind, run_load, atNode, hn]

theorem returns_rblistSearch_below (fs : Ctx Color) (h : Focus s fs t)
    (hg : Guided (fun n => ops.nodeCmp (s.data n) e) fs) :
    ∃ gs u, SearchEnds (fun n => ops.nodeCmp (s.data n) e) (fs.plug t) gs u ∧
      Returns (fun fuel => rblistSearch ops e fuel (linkOf fs) (fs.parent none)) s
        (searchResult gs u) s := by
  induction t generalizing fs with
  | nil => exact ⟨fs, .nil, ⟨rfl, hg, by simp⟩, .of_succ (.bind_run h.run_read (.of_run rfl))⟩
  | node l n c r ihl ihr =>
      have hcmp := run_nodeCmp ops e h.tree.1
      -- one pass of the loop
      have hpass : ∀ fuel, (rblistSearch ops e (fuel + 1) (linkOf fs) (fs.parent none)).run s =
          (if ops.nodeCmp (s.data n) e > 0 then
            rblistSearch ops e fuel (.child (some n) .left) (some n)
          else if ops.nodeCmp (s.data n) e < 0 then
            rblistSearch ops e fuel (.child (some n) .right) (some n)
          else return (some n, none)).run s := by
        intro fuel
        simp only [rblistSearch, StateT.run_bind, h.run_read, ok_bind, root_node,
          Option.isSome_some, if_true, hcmp]
      by_cases hpos : 0 < ops.nodeCmp (s.data n) e
      · obtain ⟨gs, u, hends, hret⟩ := ihl (.up .left n c r fs) (focus_up.2 h) ⟨hpos, hg⟩
        exact ⟨gs, u, hends, .of_succ (.congr (fun fuel => by rw [hpass, if_pos hpos]; rfl) hret)⟩
      · by_cases hneg : ops.nodeCmp (s.data n) e < 0
        · obtain ⟨gs, u, hends, hret⟩ := ihr (.up .right n c l fs) (focus_up.2 h) ⟨hneg, hg⟩
          exact ⟨gs, u, hends,
            .of_succ (.congr (fun fuel => by rw [hpass, if_neg hpos, if_pos hneg]; rfl) hret)⟩
        · refine ⟨fs, node l n c r, ⟨rfl, hg, ?_⟩, .of_succ ⟨0, fun fuel _ => ?_⟩⟩
          · rintro m ⟨⟩
            omega
          · rw [hpass, if_neg hpos, if_neg hneg]
            rfl

theorem returns_rblistSearch (h : Focus s .root T) :
    ∃ gs u, SearchEnds (fun n => ops.nodeCmp (s.data n) e) T gs u ∧
      Returns (fun fuel => rblistSearch ops e fuel .root none) s (searchResult gs u) s :=
  returns_rblistSearch_below ops e .root h trivial

end Search

/-! ## Adding a node -/

/-- The list after the node `n` has been added in the gap at the hole of `gs`. -/
structure Added (s : Rblist D) (gs : Ctx Color) (n : ℕ) (contents : D) (s' : Rblist D)
    (T' : BinTree Color) : Prop where
  tree : TreeIn s'.entries T'
  addrs : T'.addrs = gs.before ++ n :: gs.after
  data : s'.entries.data = Function.update s.entries.data n contents
  nrEntries : s'.nrEntries = s.nrEntries + 1
  same : ∀ m, m ∉ T' → s'.entries.node m = s.entries.node m

/-- The new node and the old ones. -/
theorem Added.mem_iff {s s' : Rblist D} {T' : BinTree Color} {gs : Ctx Color} {n m : ℕ} {d : D}
    (h : Added s gs n d s' T') : m ∈ T' ↔ m = n ∨ m ∈ gs.plug .nil := by
  rw [← mem_addrs, ← mem_addrs, h.addrs, addrs_plug]
  simp only [addrs_nil, List.mem_append, List.mem_cons, List.append_nil]
  tauto

section Operations

variable (ops : RblistOps D A) {s : Rblist D} {T : BinTree Color}

/-- A fresh node is linked into the empty place of `gs`, the tree is rebalanced and the node
    counted. -/
theorem returns_rblistInsertNew {gs : Ctx Color} {n : ℕ} (e : A)
    (h : TreeIn s.entries (gs.plug .nil)) (hn : s.entries.node n = none) :
    ∃ s' T', Returns (fun fuel =>
        rblistInsertNew ops fuel e (some n) (gs.parent none) (linkOf gs)) s 0 s' ∧
      Added s gs n (ops.nodeNew e) s' T' := by
  have hngs : n ∉ gs := fun hmem => h.not_mem hn (mem_plug.2 (.inr hmem))
  have hnew : (nodeNew ops e (some n)).run s.entries = .ok (some n, { s.entries with
      node := Function.update s.entries.node n (some ⟨⟨none, .red⟩, none, none⟩)
      data := Function.update s.entries.data n (ops.nodeNew e) }) := rfl
  have h₁ := h.update (h.not_mem hn) (some ⟨⟨none, .red⟩, none, none⟩)
    (Function.update s.entries.data n (ops.nodeNew e))
  obtain ⟨m₂, hrun₂, hfocus₂, hsame₂⟩ := run_rbLinkNode (focus_plug.1 h₁.focus)
    (Function.update_self ..) hngs
  obtain ⟨m₃, T', hret₃, hT'⟩ := returns_rbInsertColor hfocus₂ h.redBlack
  refine ⟨⟨m₃, s.nrEntries + 1⟩, T', ?_, ⟨⟨hT'.focus, hT'.redBlack⟩, ?_, ?_, rfl, fun m hm => ?_⟩⟩
  · refine .bind_run (run_onEntries hnew) (.bind_run (run_onEntries hrun₂) ?_)
    exact (returns_onEntries hret₃).bind (.of_run rfl)
  · rw [hT'.addrs, addrs_plug]
    simp [mk]
  · exact hT'.same.data.trans hsame₂.data
  · rw [← mem_addrs, hT'.addrs, mem_addrs] at hm
    have hmn : m ≠ n := by
      rintro rfl
      exact hm (mem_plug.2 (.inl (by simp)))
    exact ((hT'.same.node m hm).trans (hsame₂.node m hm)).trans (Function.update_of_ne hmn _ _)

/-- `rblist__add_node` reports an equal node, fails to allocate, or adds the node in the gap that
    the search has found. -/
theorem returns_rblistAddNode (e : A) (mem : Ptr) (h : TreeIn s.entries T)
    (hmem : ∀ n, mem = some n → s.entries.node n = none) :
    ∃ gs u, SearchEnds (fun n => ops.nodeCmp (s.entries.data n) e) T gs u ∧
      ((u ≠ .nil ∧ Returns (fun fuel => rblistAddNode ops fuel e mem) s (-EEXIST) s) ∨
       (u = .nil ∧ mem = none ∧ Returns (fun fuel => rblistAddNode ops fuel e mem) s (-ENOMEM) s) ∨
       (u = .nil ∧ ∃ n s' T', mem = some n ∧
          Returns (fun fuel => rblistAddNode ops fuel e mem) s 0 s' ∧
          Added s gs n (ops.nodeNew e) s' T')) := by
  obtain ⟨gs, u, hends, hret⟩ := returns_rblistSearch ops e h.focus
  replace hret := returns_onEntries hret
  refine ⟨gs, u, hends, ?_⟩
  cases u with
  | node l n c r => exact .inl ⟨by simp, hret.bind (.of_run rfl)⟩
  | nil =>
      right
      cases mem with
      | none => exact .inl ⟨rfl, rfl, hret.bind ⟨0, fun _ _ => rfl⟩⟩
      | some n =>
          right
          obtain rfl := hends.plug
          obtain ⟨s', T', hret', hadded⟩ := returns_rblistInsertNew ops e h (hmem n rfl)
          exact ⟨rfl, n, s', T', rfl, hret.bind hret', hadded⟩

/-! ## Removing, finding and counting -/

theorem returns_rblistRemoveNode {n : ℕ} (h : TreeIn s.entries T) (hn : n ∈ T) :
    ∃ s' T', Returns (fun fuel => rblistRemoveNode fuel (some n)) s () s' ∧
      TreeIn s'.entries T' ∧ T'.addrs = T.addrs.erase n ∧ s'.entries.data = s.entries.data ∧
      s'.nrEntries = s.nrEntries := by
  obtain ⟨m, T', hret, hfocus, hrb, haddrs, hsame⟩ := returns_rbErase h.focus h.redBlack hn
  have hnT' : n ∉ T' := by
    rw [← mem_addrs, haddrs]
    exact h.focus.distinct.not_mem_erase
  obtain ⟨c, hc⟩ := Option.ne_none_iff_exists'.1 (h.node_ne_none hn)
  have hdel : (nodeDelete (some n)).run m =
      .ok ((), { m with node := Function.update m.node n none }) := by
    simp [nodeDelete, StateT.run_bind, run_load, atNode, hsame.node n hnT', hc]
  exact ⟨{ s with entries := { m with node := Function.update m.node n none } }, T',
    (returns_onEntries hret).bind (.of_run (run_onEntries hdel)),
    TreeIn.update ⟨hfocus, hrb⟩ hnT' none m.data, haddrs, hsame.data, rfl⟩

theorem returns_rblistFind (e : A) (h : TreeIn s.entries T) :
    ∃ gs u, SearchEnds (fun n => ops.nodeCmp (s.entries.data n) e) T gs u ∧
      Returns (fun fuel => rblistFind ops fuel e) s u.root s := by
  obtain ⟨gs, u, hends, hret⟩ := returns_rblistSearch ops e h.focus
  refine ⟨gs, u, hends, (returns_onEntries hret).bind (.of_run ?_)⟩
  cases u <;> rfl

/-- The loop of `rblist__entry`, at the node that the rest `l` of the sequence starts with. -/
theorem run_rblistEntryLoop {m : RbMem D} {l : List ℕ} (before : List ℕ) {idx : UInt32}
    {fuel rounds : ℕ}
    (hfuel : T.depth < fuel) (h : Focus m .root T) (hT : T.addrs = before ++ l)
    (hrounds : l.length < rounds) :
    (rblistEntryLoop fuel rounds l.head? idx).run m = .ok (l[idx.toNat]?, m) := by
  induction l generalizing before idx rounds with
  | nil =>
      obtain ⟨rounds, rfl⟩ : ∃ k, rounds = k + 1 := ⟨rounds - 1, by simp at hrounds; omega⟩
      simp [rblistEntryLoop]
  | cons n l ih =>
      obtain ⟨rounds, rfl⟩ : ∃ k, rounds = k + 1 := ⟨rounds - 1, by simp at hrounds; omega⟩
      by_cases hidx : idx = 0
      · subst hidx
        simp [rblistEntryLoop]
      · have hpos : idx.toNat = (idx - 1).toNat + 1 := by
          have hone : (1 : UInt32) ≤ idx := by grind
          have hle : 1 ≤ idx.toNat := hone
          rw [UInt32.toNat_sub_of_le _ _ hone, UInt32.toNat_one, Nat.sub_add_cancel hle]
        simp only [rblistEntryLoop, List.head?_cons, Option.isNone_some, Bool.false_eq_true, if_false,
          hidx]
        rw [Exec.run_bind_of_ok (run_rbNext hfuel h hT), hpos, List.getElem?_cons_succ]
        exact ih (before ++ [n]) (by simp [hT]) (by simp at hrounds; omega)

/-- `rblist__entry` returns the entry of the sequence at the index. -/
theorem returns_rblistEntry (idx : UInt32) (h : TreeIn s.entries T) :
    Returns (fun fuel => rblistEntry fuel idx) s T.addrs[idx.toNat]? s := by
  have hdepth := depth_le_length_addrs T
  refine returns_onEntries ⟨T.addrs.length + 1, fun fuel hfuel => ?_⟩
  rw [Exec.run_bind_of_ok (run_rbFirst (by omega) h.focus)]
  exact run_rblistEntryLoop [] (by omega) h.focus rfl (by omega)

end Operations

end StructLib.RbList
