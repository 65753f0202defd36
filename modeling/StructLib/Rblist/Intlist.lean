import StructLib.Rblist.Refine
import Mathlib.Data.Int.Order.Basic

set_option autoImplicit false

/-! # Lists of integers (`intlist.h`, `intlist.cpp`)

`intlist__node_cmp` subtracts two `int`s. The difference has the sign of the comparison only where
it does not wrap, so an `intlist` is a sorted set of integers exactly as long as any two integers it
meets are less than `2 ^ 31` apart (`intlist_right_iff`). -/

namespace StructLib.RbList

open BinTree Ctx Rbtree

/-! ## The code -/

/-- `return node->i - i`, the subtraction wrapping. -/
def intlistNodeCmp (node i : Int32) : ℤ := (node - i).toInt

def intlistOps : RblistOps Int32 Int32 := ⟨intlistNodeCmp, id⟩

def intlistAdd (fuel : ℕ) (i : Int32) (mem : Ptr) : Exec (Rblist Int32) ℤ :=
  rblistAddNode intlistOps fuel i mem

def intlistRemove (fuel : ℕ) (node : Ptr) : Exec (Rblist Int32) Unit :=
  rblistRemoveNode fuel node

def intlistFind (fuel : ℕ) (i : Int32) : Exec (Rblist Int32) Ptr :=
  rblistFind intlistOps fuel i

def intlistFirst (fuel : ℕ) : Exec (RbMem Int32) Ptr := rbFirst fuel

def intlistNext (fuel : ℕ) (node : Ptr) : Exec (RbMem Int32) Ptr :=
  if node.isNone then return none else rbNext fuel node

/-- `intlist__for_each(pos, ilist)` with a body that notes `pos->i`. -/
def intlistForEachLoop (fuel : ℕ) : ℕ → Ptr → Exec (RbMem Int32) (List Int32)
  | 0, _ => Exec.outOfFuel
  | rounds + 1, pos => do
      if pos.isNone then return []
      else
        let _ ← load pos
        let i := (← get).data (pos.getD 0)
        return i :: (← intlistForEachLoop fuel rounds (← intlistNext fuel pos))

def intlistForEach (fuel : ℕ) : Exec (Rblist Int32) (List Int32) :=
  onEntries do intlistForEachLoop fuel fuel (← intlistFirst fuel)

/-! ## What an `intlist` is for -/

/-- The calls that change an `intlist`; `mem` is what `malloc` returns. -/
inductive IntlistOp where
  | add (i : Int32) (mem : Ptr)
  | remove (node : ℕ)

/-- Whether an integer is held, `l` being the nodes and their integers. -/
def Held (l : List (ℕ × ℤ)) (i : Int32) : Prop := ∃ x ∈ l, x.2 = i.toInt

instance (l : List (ℕ × ℤ)) (i : Int32) : Decidable (Held l i) :=
  inferInstanceAs (Decidable (∃ x ∈ l, x.2 = i.toInt))

/-- The integers currently held, each by a node: an integer is added unless it is held, and leaves
    with its node. -/
def intlistSpec : Spec (List (ℕ × ℤ)) IntlistOp ℤ where
  result l
    | .add i mem => if Held l i then -EEXIST else if mem.isNone then -ENOMEM else 0
    | .remove _ => 0
  next l
    | .add i mem =>
        match mem with
        | some n => if Held l i then l else (n, i.toInt) :: l
        | none => l
    | .remove n => l.filter fun x => x.1 ≠ n

/-- Additions and removals, where only integers that pass `gate` are added. -/
def intlistMachine (gate : List (ℕ × ℤ) → Int32 → Prop) : Machine (Rblist Int32) IntlistOp ℤ where
  enabled tr s
    | .add i mem => (∀ n, mem = some n → s.entries.node n = none) ∧ gate (intlistSpec.after [] tr) i
    | .remove n => ∃ x ∈ intlistSpec.after [] tr, x.1 = n
  exec op fuel :=
    match op with
    | .add i mem => intlistAdd fuel i mem
    | .remove n => do
        intlistRemove fuel (some n)
        return 0

/-- Iteration yields the integers held in increasing order, and an integer is found iff it is held.
    -/
structure IntlistRight (s : Rblist Int32) (l : List (ℕ × ℤ)) : Prop where
  forEach : ∃ xs, Returns intlistForEach s xs s ∧ (xs.map Int32.toInt).Pairwise (· < ·) ∧
    ∀ i, i ∈ xs ↔ Held l i
  find : ∀ i, ∃ p, Returns (fun fuel => intlistFind fuel i) s p s ∧ (p.isSome = true ↔ Held l i)

/-! ## Iteration -/

section ForEach

variable {s : Rblist Int32} {T : BinTree Color}

/-- The loop, at the node that the rest `l` of the sequence starts with. -/
theorem run_intlistForEachLoop {m : RbMem Int32} {l : List ℕ} (before : List ℕ) {fuel rounds : ℕ}
    (hfuel : T.depth < fuel) (h : TreeIn m T) (hT : T.addrs = before ++ l)
    (hrounds : l.length < rounds) :
    (intlistForEachLoop fuel rounds l.head?).run m = .ok (l.map m.data, m) := by
  induction l generalizing before rounds with
  | nil =>
      obtain ⟨rounds, rfl⟩ : ∃ k, rounds = k + 1 := ⟨rounds - 1, by simp at hrounds; omega⟩
      simp [intlistForEachLoop]
  | cons n l ih =>
      obtain ⟨rounds, rfl⟩ : ∃ k, rounds = k + 1 := ⟨rounds - 1, by simp at hrounds; omega⟩
      have hn : n ∈ T := by simp [← mem_addrs, hT]
      obtain ⟨c, hc⟩ := Option.ne_none_iff_exists'.1 (h.node_ne_none hn)
      have hnext : (intlistNext fuel (some n)).run m = .ok (l.head?, m) := run_rbNext hfuel h.focus hT
      have hrest := ih (before ++ [n]) (by simp [hT]) (by simp at hrounds; omega)
      simp [intlistForEachLoop, StateT.run_bind, run_load, atNode, hc, hnext, hrest]

/-- Iteration yields the integers of the nodes in order. -/
theorem returns_intlistForEach (h : TreeIn s.entries T) :
    Returns intlistForEach s (T.addrs.map s.entries.data) s := by
  have hdepth := depth_le_length_addrs T
  refine returns_onEntries ⟨T.addrs.length + 1, fun fuel hfuel => ?_⟩
  have hfirst : (intlistFirst fuel).run s.entries = .ok (T.addrs.head?, s.entries) :=
    run_rbFirst (by omega) h.focus
  rw [Exec.run_bind_of_ok hfirst]
  exact run_intlistForEachLoop [] (by omega) h rfl (by omega)

end ForEach

/-! ## Where the difference does not wrap -/

/-- Two integers less than `2 ^ 31` apart. -/
def Fits (i j : ℤ) : Prop := i - j < 2 ^ 31 ∧ j - i < 2 ^ 31

theorem Fits.symm {i j : ℤ} (h : Fits i j) : Fits j i := ⟨h.2, h.1⟩

theorem fits_self (i : ℤ) : Fits i i := by
  rw [Fits]
  omega

/-- The signs of `node_cmp` are right where the difference does not wrap. -/
theorem cmpSign_of_fits {d i : Int32} (h : Fits d.toInt i.toInt) :
    CmpSign Int32.toInt d i.toInt (intlistNodeCmp d i) := by
  have hsub : (d - i).toInt = d.toInt - i.toInt := by
    rw [Fits] at h
    rw [Int32.toInt_sub, Int.bmod_eq_of_le] <;> omega
  rw [CmpSign, intlistNodeCmp, hsub]
  omega

/-- Where it does wrap, the larger integer counts as the smaller one. -/
theorem intlistNodeCmp_neg {d i : Int32} (h : 2 ^ 31 ≤ d.toInt - i.toInt) :
    intlistNodeCmp d i < 0 := by
  have hd := d.toInt_lt
  have hi := i.le_toInt
  rw [intlistNodeCmp, Int32.toInt_sub, Int.bmod]
  split <;> omega

/-- Only equal integers compare equal, whatever the distance. -/
theorem eq_of_intlistNodeCmp {d i : Int32} (h : intlistNodeCmp d i = 0) : d = i := by
  have hd := d.toInt_lt
  have hd' := d.le_toInt
  have hi := i.toInt_lt
  have hi' := i.le_toInt
  rw [intlistNodeCmp, Int32.toInt_sub, Int.bmod] at h
  rw [← Int32.toInt_inj]
  split at h <;> omega

/-! ## One call -/

/-- The invariant: the tree holds the integers of `l` in order, and no two of them are far apart. -/
structure IntlistInv (s : Rblist Int32) (l : List (ℕ × ℤ)) (T : BinTree Color) : Prop where
  tree : TreeIn s.entries T
  perm : l.Perm (keyed Int32.toInt s.entries T)
  sorted : (keyed Int32.toInt s.entries T).Pairwise fun x y => x.2 < y.2
  fits : ∀ x ∈ l, ∀ y ∈ l, Fits x.2 y.2

section Steps

variable {s : Rblist Int32} {l : List (ℕ × ℤ)} {T : BinTree Color} {i : Int32}

theorem IntlistInv.held_iff (h : IntlistInv s l T) :
    Held l i ↔ ∃ x ∈ keyed Int32.toInt s.entries T, x.2 = i.toInt := by
  simp only [Held, h.perm.mem_iff]

/-- An integer close to all that are held compares rightly with all nodes. -/
theorem IntlistInv.cmpSigns (h : IntlistInv s l T) (hi : ∀ x ∈ l, Fits x.2 i.toInt) :
    CmpSigns intlistOps Int32.toInt Int32.toInt s.entries T i := by
  intro n hn
  refine cmpSign_of_fits (hi (n, (s.entries.data n).toInt) (h.perm.mem_iff.2 ?_))
  exact List.mem_map.2 ⟨n, hn, rfl⟩

/-- An integer that is held is close to all that are held. -/
theorem IntlistInv.fits_held (h : IntlistInv s l T) (hi : Held l i) :
    ∀ x ∈ l, Fits x.2 i.toInt := by
  obtain ⟨y, hy, hyi⟩ := hi
  exact fun x hx => hyi ▸ h.fits x hx y hy

/-- What the invariant says about iteration and search. -/
theorem IntlistInv.right (h : IntlistInv s l T) : IntlistRight s l := by
  refine ⟨⟨_, returns_intlistForEach h.tree, ?_, fun i => ?_⟩, fun i => ?_⟩
  · have hs := h.sorted
    rw [keyed, List.pairwise_map] at hs
    rwa [List.map_map, List.pairwise_map]
  · rw [h.held_iff]
    constructor
    · intro hi
      obtain ⟨n, hn, rfl⟩ := List.mem_map.1 hi
      exact ⟨_, List.mem_map.2 ⟨n, hn, rfl⟩, rfl⟩
    · rintro ⟨x, hx, hxi⟩
      obtain ⟨n, hn, rfl⟩ := List.mem_map.1 hx
      exact List.mem_map.2 ⟨n, hn, Int32.toInt_inj.1 hxi⟩
  · by_cases hi : Held l i
    · have hret := find_step h.tree h.sorted (h.cmpSigns (h.fits_held hi))
      refine ⟨_, hret, iff_of_true ?_ hi⟩
      rw [h.held_iff] at hi
      simpa using hi
    · -- a node found would hold an equal integer
      obtain ⟨gs, u, hends, hret⟩ := returns_rblistFind intlistOps i h.tree
      refine ⟨_, hret, iff_of_false (fun hsome => hi ?_) hi⟩
      obtain ⟨n, hn⟩ := Option.isSome_iff_exists.1 hsome
      have hdi := eq_of_intlistNodeCmp (hends.stop n hn)
      rw [h.held_iff]
      refine ⟨_, List.mem_map.2 ⟨n, ?_, rfl⟩, congrArg Int32.toInt hdi⟩
      rw [hends.plug]
      exact mem_plug.2 (.inl (mem_of_root hn))

/-- The condition under which adding keeps the invariant: the integer is held, or it is less than
    `2 ^ 31` away from all that are. -/
def SpanFits (l : List (ℕ × ℤ)) (i : Int32) : Prop := Held l i ∨ ∀ x ∈ l, Fits x.2 i.toInt

theorem IntlistInv.add (h : IntlistInv s l T) {mem : Ptr}
    (hmem : ∀ n, mem = some n → s.entries.node n = none) (hi : SpanFits l i) :
    ∃ s' T', Returns (fun fuel => intlistAdd fuel i mem) s (intlistSpec.result l (.add i mem)) s' ∧
      IntlistInv s' (intlistSpec.next l (.add i mem)) T' := by
  have hcmp := h.cmpSigns (hi.elim h.fits_held id)
  by_cases hheld : Held l i
  · have hret := addNode_present mem h.tree h.sorted hcmp hmem (h.held_iff.1 hheld)
    refine ⟨s, T, ?_, ?_⟩
    · rw [show intlistSpec.result l (.add i mem) = -EEXIST from if_pos hheld]
      exact hret
    · cases mem <;> simpa [intlistSpec, hheld] using h
  · have habsent := mt h.held_iff.2 hheld
    have hfits := hi.resolve_left hheld
    cases mem with
    | none =>
        refine ⟨s, T, ?_, h⟩
        rw [show intlistSpec.result l (.add i none) = -ENOMEM by simp [intlistSpec, hheld]]
        exact addNode_nomem h.tree h.sorted hcmp habsent
    | some n =>
        obtain ⟨s', T', gs, -, hret, hadd, hkeyed, hs'⟩ :=
          addNode_absent h.tree h.sorted hcmp rfl (hmem n rfl) habsent
        refine ⟨s', T', ?_, ?_⟩
        · rw [show intlistSpec.result l (.add i (some n)) = 0 by simp [intlistSpec, hheld]]
          exact hret
        · rw [show intlistSpec.next l (.add i (some n)) = (n, i.toInt) :: l by
            simp [intlistSpec, hheld]]
          refine ⟨hadd.tree, ?_, hs', ?_⟩
          · rw [hkeyed]
            exact (h.perm.cons _).trans (List.perm_orderedInsert _ _ _).symm
          · intro x hx y hy
            rcases List.mem_cons.1 hx with rfl | hx <;> rcases List.mem_cons.1 hy with rfl | hy
            · exact fits_self _
            · exact (hfits y hy).symm
            · exact hfits x hx
            · exact h.fits x hx y hy

theorem IntlistInv.remove (h : IntlistInv s l T) {n : ℕ} (hn : ∃ x ∈ l, x.1 = n) :
    ∃ s' T', Returns (fun fuel => intlistRemove fuel (some n)) s () s' ∧
      IntlistInv s' (intlistSpec.next l (.remove n)) T' := by
  have hmem : n ∈ T := by
    obtain ⟨x, hx, rfl⟩ := hn
    obtain ⟨m, hm, rfl⟩ := List.mem_map.1 (h.perm.mem_iff.1 hx)
    exact hm
  obtain ⟨s', T', hret, hT', hkeyed, hs'⟩ := removeNode_step h.tree hmem h.sorted
  refine ⟨s', T', hret, hT', ?_, hs', fun x hx y hy => ?_⟩
  · rw [hkeyed]
    exact h.perm.filter _
  · exact h.fits x (List.mem_of_mem_filter hx) y (List.mem_of_mem_filter hy)

end Steps

/-! ## All runs -/

variable {s s₀ : Rblist Int32}

theorem intlistInv_init (s : Rblist Int32) :
    IntlistInv { s with entries := { s.entries with rbNode := none }, nrEntries := 0 } [] .nil :=
  ⟨⟨⟨trivial, rfl, distinct_nil⟩, trivial, 0, rfl⟩, .nil, .nil, by simp⟩

/-- A gate that lets only integers in that are close to all that are held, given what `P` says about
    these, keeps the list right. -/
theorem intlistMachine_refines {gate : List (ℕ × ℤ) → Int32 → Prop}
    (P : List (ℕ × ℤ) → Prop) (h₀ : P [])
    (hadd : ∀ l i mem, P l → gate l i → SpanFits l i ∧ P (intlistSpec.next l (.add i mem)))
    (hremove : ∀ l n, P l → P (intlistSpec.next l (.remove n)))
    (hs₀ : IntlistInv s₀ [] .nil) :
    (intlistMachine gate).Refines s₀ intlistSpec [] IntlistRight := by
  refine Machine.Refines.mono (R := fun s l => P l ∧ ∃ T, IntlistInv s l T) ?_
    fun s l ⟨_, T, h⟩ => h.right
  refine Machine.refines_of_step ⟨h₀, .nil, hs₀⟩ fun tr s op ⟨hP, T, hT⟩ en => ?_
  cases op with
  | add i mem =>
      obtain ⟨hfits, hP'⟩ := hadd _ i mem hP en.2
      obtain ⟨s', T', hret, hT'⟩ := hT.add en.1 hfits
      exact ⟨s', hret, hP', T', hT'⟩
  | remove n =>
      obtain ⟨s', T', hret, hT'⟩ := hT.remove en
      exact ⟨s', hret.bind (.of_run rfl), hremove _ n hP, T', hT'⟩

/-- The first addition to an empty list. -/
theorem add_first {i : Int32} (h : TreeIn s.entries .nil) (hn : s.entries.node 0 = none) :
    ∃ s' T', Returns (fun fuel => intlistAdd fuel i (some 0)) s 0 s' ∧
      Added s .root 0 i s' T' := by
  obtain ⟨gs, u, hends, ⟨hu, -⟩ | ⟨-, hnull, -⟩ | ⟨-, n, s', T', hmem, hret, hadd⟩⟩ :=
    returns_rblistAddNode intlistOps i (some 0) h (by rintro _ ⟨⟩; exact hn)
  · exact absurd (plug_eq_nil hends.plug.symm).2 hu
  · exact absurd hnull (by simp)
  · obtain rfl : 0 = n := by simpa using hmem
    obtain rfl := (plug_eq_nil hends.plug.symm).1
    exact ⟨s', T', hret, hadd⟩

/-- A second addition, of an integer that seems larger than the first. -/
theorem add_second {i : Int32} {T : BinTree Color} (h : TreeIn s.entries T) (hT : T.addrs = [0])
    (hcmp : intlistNodeCmp (s.entries.data 0) i < 0) (hn : s.entries.node 1 = none) :
    ∃ s' T', Returns (fun fuel => intlistAdd fuel i (some 1)) s 0 s' ∧ TreeIn s'.entries T' ∧
      T'.addrs = [0, 1] ∧ s'.entries.data = Function.update s.entries.data 1 i := by
  obtain ⟨gs, u, hends, hcases⟩ :=
    returns_rblistAddNode intlistOps i (some 1) h (by rintro _ ⟨⟩; exact hn)
  have hsplit : gs.before ++ u.addrs ++ gs.after = [0] := by
    rw [← addrs_plug, ← hends.plug, hT]
  rcases hcases with ⟨hu, -⟩ | ⟨-, hnull, -⟩ | ⟨rfl, n, s', T', hmem, hret, hadd⟩
  · obtain ⟨m, hm⟩ := Option.ne_none_iff_exists'.1 (mt root_eq_none.1 hu)
    have hm0 : m ∈ gs.before ++ u.addrs ++ gs.after := by
      simp [mem_addrs, mem_of_root hm]
    rw [hsplit, List.mem_singleton] at hm0
    subst hm0
    exact absurd (hends.stop 0 hm) hcmp.ne
  · exact absurd hnull (by simp)
  · obtain rfl : 1 = n := by simpa using hmem
    -- the only node is on the left of the gap
    have hafter : gs.after = [] := by
      rw [List.eq_nil_iff_forall_not_mem]
      intro m hm
      have hs : gs.after.Pairwise fun x y => intlistNodeCmp (s.entries.data x) i <
          intlistNodeCmp (s.entries.data y) i :=
        (List.pairwise_singleton _ 0).sublist (hsplit ▸ List.sublist_append_right _ _)
      have hpos := hends.guided.lt_after (k := 0) _ (fun _ _ h => h) hs m hm
      have hm0 : m ∈ gs.before ++ (nil : BinTree Color).addrs ++ gs.after :=
        List.mem_append_right _ hm
      rw [hsplit, List.mem_singleton] at hm0
      subst hm0
      exact absurd hpos (not_lt.2 hcmp.le)
    have hbefore : gs.before = [0] := by simpa [hafter] using hsplit
    exact ⟨s', T', hret, hadd.tree, by rw [hadd.addrs, hbefore, hafter]; rfl, hadd.data⟩

/-- Two integers too far apart, the larger one added first: iteration yields them in this order. -/
theorem far_run_wrong (gate : List (ℕ × ℤ) → Int32 → Prop) {i j : Int32}
    (hij : 2 ^ 31 ≤ j.toInt - i.toInt) (hi : ∀ l, gate l i)
    (hj : ∀ l, gate l j) (h₀ : TreeIn s₀.entries .nil) (hfree : ∀ n, s₀.entries.node n = none) :
    ∃ s, (intlistMachine gate).Run s₀ [(.add j (some 0), 0), (.add i (some 1), 0)] s ∧
      ¬ IntlistRight s
        (intlistSpec.after [] [(.add j (some 0), 0), (.add i (some 1), 0)]) := by
  obtain ⟨s₁, T₁, hret₁, hadd₁⟩ := add_first (i := j) h₀ (hfree 0)
  have hT₁ : T₁.addrs = [0] := hadd₁.addrs
  have hfree₁ : s₁.entries.node 1 = none :=
    (hadd₁.same 1 (by simp [← mem_addrs, hT₁])).trans (hfree 1)
  obtain ⟨s₂, T₂, hret₂, hT₂, haddrs₂, hdata₂⟩ := add_second (i := i) hadd₁.tree hT₁
    (by rw [hadd₁.data, Function.update_self]; exact intlistNodeCmp_neg hij) hfree₁
  have en₁ : (intlistMachine gate).enabled [] s₀ (.add j (some 0)) := ⟨fun n _ => hfree n, hj _⟩
  have en₂ : (intlistMachine gate).enabled [(.add j (some 0), 0)] s₁ (.add i (some 1)) :=
    ⟨by rintro _ ⟨⟩; exact hfree₁, hi _⟩
  refine ⟨s₂, .snoc (.snoc .nil en₁ hret₁) en₂ hret₂, fun hright => ?_⟩
  obtain ⟨xs, hxs, hsorted, -⟩ := hright.forEach
  have heq := (hxs.unique (returns_intlistForEach hT₂)).1
  rw [haddrs₂, hdata₂, hadd₁.data] at heq
  simp [heq] at hsorted
  omega

/-- A list in a memory without nodes. -/
def freshList : Rblist Int32 := ⟨⟨none, fun _ => none, fun _ => 0⟩, 0⟩

theorem intlistInv_fresh : IntlistInv freshList [] .nil := intlistInv_init freshList

/-- **When an `intlist` is right**: in every run in which an integer is added only if it is held or
    less than `2 ^ 31` away from all integers held; and a set of integers may be added in any order
    just if any two of them are less than `2 ^ 31` apart. -/
theorem intlist_right_iff (s : Rblist Int32) (V : Set Int32) :
    (∃ s₀, rblistInit.run s = .ok ((), s₀) ∧
      (intlistMachine SpanFits).Refines s₀ intlistSpec [] IntlistRight) ∧
    ((intlistMachine fun _ i => i ∈ V).Refines freshList intlistSpec [] IntlistRight ↔
      ∀ i ∈ V, ∀ j ∈ V, Fits i.toInt j.toInt) := by
  refine ⟨⟨_, rfl, ?_⟩, fun href => ?_, fun hV => ?_⟩
  · exact intlistMachine_refines (fun _ => True) trivial (fun _ _ _ _ h => ⟨h, trivial⟩)
      (fun _ _ _ => trivial) (intlistInv_init s)
  · -- a pair too far apart is added in the wrong order
    have hfar : ∀ i ∈ V, ∀ j ∈ V, j.toInt - i.toInt < 2 ^ 31 := by
      intro i hi j hj
      by_contra hij
      obtain ⟨s, hrun, hwrong⟩ := far_run_wrong (fun _ i => i ∈ V) (not_lt.1 hij)
        (fun _ => hi) (fun _ => hj) intlistInv_fresh.tree (fun _ => rfl)
      exact hwrong (href _ _ hrun).1
    exact fun i hi j hj => ⟨hfar j hj i hi, hfar i hi j hj⟩
  · -- all integers ever held are in `V`
    refine intlistMachine_refines (fun l => ∀ x ∈ l, ∃ i ∈ V, x.2 = i.toInt) (by simp) ?_ ?_
      intlistInv_fresh
    · intro l i mem hl hi
      refine ⟨.inr fun x hx => ?_, ?_⟩
      · obtain ⟨j, hj, hxj⟩ := hl x hx
        exact hxj ▸ hV j hj i hi
      · intro x hx
        cases mem with
        | none => exact hl x hx
        | some n =>
            simp only [intlistSpec] at hx
            split at hx
            · exact hl x hx
            · rcases List.mem_cons.1 hx with rfl | hx
              · exact ⟨i, hi, rfl⟩
              · exact hl x hx
    · exact fun l n hl x hx => hl x (List.mem_of_mem_filter hx)

/-- `INT_MAX` and then `-2`: they are iterated over in this order. -/
theorem intlist_wrong_int_max :
    ∃ s, (intlistMachine fun _ _ => True).Run freshList
        [(.add 2147483647 (some 0), 0), (.add (-2) (some 1), 0)] s ∧
      ¬ IntlistRight s
        (intlistSpec.after [] [(.add 2147483647 (some 0), 0), (.add (-2) (some 1), 0)]) :=
  far_run_wrong _ (by decide) (fun _ => trivial) (fun _ => trivial) intlistInv_fresh.tree
    (fun _ => rfl)

end StructLib.RbList
