import StructLib.Btree.Lookup

set_option autoImplicit false

/-! # Visitors of a B+tree

`__btree_for_each` calls the callback once for each entry, in the order of falling keys, and with
`reap` it frees every node of the tree. -/

namespace StructLib.Btree

variable {w : ℕ} {geo : Geo}

/-! ## The blocks below some blocks -/

/-- The blocks `leaves` are the descendants of the blocks of a row, `n` levels below it, and `as` are
    the addresses of all blocks on the way. -/
inductive Under (geo : Geo) (s : BtreeMem w) : ℕ → List (Blk w) → List (Blk w) → List (BitVec w) → Prop
  | leaves (row : List (Blk w))
      (stored : ∀ b ∈ row, ∃ nd, s.nodes b.addr = some nd ∧ nd.Holds geo b.entries) :
      Under geo s 0 row row (row.map (·.addr))
  | step (row below leaves : List (Blk w)) (as : List (BitVec w)) (n : ℕ)
      (stored : ∀ b ∈ row, ∃ nd, s.nodes b.addr = some nd ∧ nd.Holds geo b.entries)
      (children : below.map (·.addr) = (flat row).map (·.2)) (under : Under geo s n below leaves as) :
      Under geo s (n + 1) row leaves (row.map (·.addr) ++ as)

section Under

variable {s s' : BtreeMem w} {n bot top : ℕ} {row row' below leaves : List (Blk w)}
  {as : List (BitVec w)} {P R : List (ℕ × BitVec w) → Prop} {above : List (List (Blk w))}

theorem Under.of_same (h : Under geo s n row leaves as) (hs : ∀ a ∈ as, s'.nodes a = s.nodes a) :
    Under geo s' n row leaves as := by
  induction h with
  | leaves row stored =>
      refine .leaves row ?_
      intro b hb
      rw [hs b.addr (List.mem_map_of_mem hb)]
      exact stored b hb
  | step row below leaves as n stored children _ ih =>
      refine .step row below leaves as n ?_ children (ih fun a ha => hs a (List.mem_append_right _ ha))
      intro b hb
      rw [hs b.addr (List.mem_append_left _ (List.mem_map_of_mem hb))]
      exact stored b hb

/-- The parts of a row have their own descendants. -/
theorem Under.split (h : Under geo s n (row ++ row') leaves as) : ∃ leaves₁ leaves₂ as₁ as₂,
    Under geo s n row leaves₁ as₁ ∧ Under geo s n row' leaves₂ as₂ ∧ leaves = leaves₁ ++ leaves₂ ∧
      as.Perm (as₁ ++ as₂) := by
  induction n generalizing row row' leaves as with
  | zero =>
      cases h with
      | leaves row stored =>
          refine ⟨row, row', _, _, .leaves row fun b hb => stored b (by simp [hb]),
            .leaves row' fun b hb => stored b (by simp [hb]), rfl, ?_⟩
          rw [List.map_append]
  | succ n ih =>
      cases h with
      | step _ below _ as _ stored children under =>
          rw [flat_append, List.map_append] at children
          obtain ⟨below₁, below₂, rfl, h₁, h₂⟩ := List.map_eq_append_iff.1 children
          obtain ⟨leaves₁, leaves₂, as₁, as₂, hu₁, hu₂, rfl, hperm⟩ := ih under
          refine ⟨leaves₁, leaves₂, _, _, .step row below₁ leaves₁ as₁ n (fun b hb => stored b (by simp [hb])) h₁ hu₁,
            .step row' below₂ leaves₂ as₂ n (fun b hb => stored b (by simp [hb])) h₂ hu₂, rfl, ?_⟩
          rw [List.map_append, List.append_assoc, List.append_assoc]
          refine List.Perm.append_left _ ?_
          exact (hperm.append_left _).trans (List.perm_append_comm_assoc ..)

theorem Under.of_nil (h : Under geo s n [] leaves as) : leaves = [] ∧ as = [] := by
  induction n generalizing leaves as with
  | zero =>
      cases h with
      | leaves => exact ⟨rfl, rfl⟩
  | succ n ih =>
      cases h with
      | step _ below _ as _ _ children under =>
          obtain rfl : below = [] := List.map_eq_nil_iff.1 children
          exact ih under

/-- One more level below. -/
theorem Under.extend (h : Under geo s n row leaves as)
    (hstored : ∀ b ∈ below, ∃ nd, s.nodes b.addr = some nd ∧ nd.Holds geo b.entries)
    (hchildren : below.map (·.addr) = (flat leaves).map (·.2)) :
    Under geo s (n + 1) row below (as ++ below.map (·.addr)) := by
  induction h with
  | leaves row stored => exact .step row below below _ 0 stored hchildren (.leaves below hstored)
  | step row mid leaves as n stored children _ ih =>
      rw [List.append_assoc]
      exact .step row mid below _ (n + 1) stored children (ih hchildren)

/-- The leaves are under the root. -/
theorem exists_under (hl : Levels geo.noPairs bot top P R (row :: above))
    (hs : Stored geo s (row :: above)) : ∃ b as, b.addr = s.node ∧
      Under geo s above.length [b] row as ∧ as.Perm (addrs (row :: above)) := by
  induction above generalizing row P R with
  | nil =>
      obtain ⟨-, c, rfl, -⟩ := hl
      obtain ⟨c', hc', hroot⟩ := hs.root
      obtain rfl : c = c' := by simpa using hc'
      exact ⟨c, _, hroot, .leaves [c] fun b hb => hs.exists_node hb, by simp [addrs]⟩
  | cons par above ih =>
      obtain ⟨b, as, hb, hunder, hperm⟩ := ih hl.2.2 hs.tail
      refine ⟨b, _, hb, hunder.extend (fun b hb => hs.exists_node hb) hl.map_snd_flat.symm, ?_⟩
      rw [addrs_cons]
      exact (hperm.append_right _).trans List.perm_append_comm

end Under

/-! ## The calls of the callback -/

section Visit

variable {γ : Type}

/-- What the calls for some entries make of `count` and the data. -/
def visitAll (func : Visit w γ) (acc : ℕ × γ) (es : List (List (BitVec w) × BitVec w)) : ℕ × γ :=
  es.foldl (fun acc e => (acc.1 + 1, func e.2 e.1 acc.1 acc.2)) acc

/-- The entries, with the longs of their keys. -/
def Spells (geo : Geo) (ks : List (List (BitVec w) × BitVec w)) (es : List (ℕ × BitVec w)) : Prop :=
  ks.map (fun e => (wordsVal e.1, e.2)) = es ∧ ∀ e ∈ ks, e.1.length = geo.keylen

/-- The state after a visit of the nodes at `as`. -/
def BtreeMem.visited (s : BtreeMem w) (reap : Bool) (as : List (BitVec w)) : BtreeMem w :=
  { s with nodes := fun a => if reap = true ∧ a ∈ as then none else s.nodes a }

variable {s : BtreeMem w} {reap : Bool} {as as' : List (BitVec w)} {func : Visit w γ}
  {ks ks' : List (List (BitVec w) × BitVec w)} {es es' es₁ es₂ : List (ℕ × BitVec w)} {acc : ℕ × γ}
  {nd : Node w} {a : BitVec w} {n : ℕ} {row leaves : List (Blk w)} {b : Blk w}

theorem visitAll_append (func : Visit w γ) (acc : ℕ × γ) :
    visitAll func acc (ks ++ ks') = visitAll func (visitAll func acc ks) ks' := List.foldl_append

theorem Spells.append (h : Spells geo ks es) (h' : Spells geo ks' es') :
    Spells geo (ks ++ ks') (es ++ es') := by
  refine ⟨?_, ?_⟩
  · rw [List.map_append, h.1, h'.1]
  · intro e he
    exact (List.mem_append.1 he).elim (h.2 e) (h'.2 e)

theorem Spells.length_eq (h : Spells geo ks es) : ks.length = es.length := by
  rw [← h.1, List.length_map]

theorem visited_nil : s.visited reap [] = s := by
  simp [BtreeMem.visited]

theorem visited_visited : (s.visited reap as).visited reap as' = s.visited reap (as ++ as') := by
  unfold BtreeMem.visited
  congr 1
  funext a
  by_cases hr : reap = true <;> by_cases ha : a ∈ as <;> by_cases ha' : a ∈ as' <;> simp [hr, ha, ha']

theorem visited_congr (h : ∀ a, a ∈ as ↔ a ∈ as') : s.visited reap as = s.visited reap as' := by
  unfold BtreeMem.visited
  simp only [h]

theorem visited_nodes_of_not_mem (h : a ∉ as) : (s.visited reap as).nodes a = s.nodes a := by
  simp [BtreeMem.visited, h]

theorem run_reapNode (h : s.nodes a = some nd) (reap : Bool) :
    (reapNode reap a).run s = .ok ((), s.visited reap [a]) := by
  cases reap with
  | false =>
      have hsame : s.visited false [a] = s := by simp [BtreeMem.visited]
      rw [hsame]
      rfl
  | true =>
      have hfree : s.freeNode a = s.visited true [a] := by
        unfold BtreeMem.freeNode BtreeMem.visited
        congr 1
        funext b
        by_cases hb : b = a
        · subst hb
          simp
        · simp [hb]
      rw [← hfree, ← run_mempoolFree h]
      rfl

/-- The loop stops behind the last entry. -/
theorem run_forEachLoop_end (h : s.nodes a = some nd) (hnd : nd.Holds geo es)
    (body : ℕ → BitVec w → ℕ × γ → Exec (BtreeMem w) (ℕ × γ)) :
    (forEachLoop geo a body (geo.noPairs - es.length) es.length acc).run s = .ok (acc, s) := by
  have hle := hnd.length_le
  cases hn : geo.noPairs - es.length with
  | zero => rfl
  | succ n =>
      have hval : (bval geo a es.length).run s = .ok (0, s) := by
        rw [run_bval h (by omega), hnd.val_eq (by omega), List.getD_eq_default _ _ (le_refl _)]
      unfold forEachLoop
      rw [Exec.run_bind_of_ok hval]
      rfl

/-- The loop at an entry. -/
theorem run_forEachLoop_step {e : ℕ × BitVec w} {acc' : ℕ × γ} {s' : BtreeMem w}
    (h : s.nodes a = some nd) (hnd : nd.Holds geo (es₁ ++ e :: es₂))
    {body : ℕ → BitVec w → ℕ × γ → Exec (BtreeMem w) (ℕ × γ)}
    (hbody : (body es₁.length e.2 acc).run s = .ok (acc', s')) :
    (forEachLoop geo a body (geo.noPairs - es₁.length) es₁.length acc).run s =
      (forEachLoop geo a body (geo.noPairs - (es₁ ++ [e]).length) (es₁ ++ [e]).length acc').run s' := by
  obtain ⟨hlt, hpair⟩ := hnd.pair_mid
  have hval : (bval geo a es₁.length).run s = .ok (e.2, s) := by
    rw [run_bval h hlt]
    exact congrArg (fun v => Except.ok (v, s)) (congrArg Prod.snd hpair)
  obtain ⟨n, hn⟩ : ∃ n, geo.noPairs - es₁.length = n + 1 := ⟨geo.noPairs - es₁.length - 1, by omega⟩
  have hn' : geo.noPairs - (es₁ ++ [e]).length = n := by
    rw [List.length_append, List.length_singleton]
    omega
  rw [hn, hn', List.length_append, List.length_singleton]
  conv_lhs => unfold forEachLoop
  rw [Exec.run_bind_of_ok hval, if_neg (hnd.val_ne_zero e (by simp)), Exec.run_bind_of_ok hbody]

/-- The loop over a leaf. -/
theorem exists_run_forEachLoop_leaf (func : Visit w γ) (acc : ℕ × γ) (h : s.nodes a = some nd)
    (hnd : nd.Holds geo (es₁ ++ es₂)) :
    ∃ ks, Spells geo ks es₂ ∧ (forEachLoop geo a (fun i child acc => do
        let key ← (KeyPtr.slot a i).read geo
        return (acc.1 + 1, func child key acc.1 acc.2)) (geo.noPairs - es₁.length) es₁.length acc).run s =
      .ok (visitAll func acc ks, s) := by
  induction es₂ generalizing es₁ acc with
  | nil =>
      rw [List.append_nil] at hnd
      exact ⟨[], ⟨rfl, by simp⟩, run_forEachLoop_end h hnd _⟩
  | cons e es₂ ih =>
      obtain ⟨hlt, hpair⟩ := hnd.pair_mid
      have hnd' := hnd
      rw [List.append_cons] at hnd'
      obtain ⟨ks, hks, hrun⟩ := ih (acc.1 + 1, func e.2 (bkey geo nd es₁.length) acc.1 acc.2) hnd'
      have hbody : StateT.run (do
          let key ← (KeyPtr.slot a es₁.length).read geo
          return (acc.1 + 1, func e.2 key acc.1 acc.2)) s = .ok (_, s) :=
        Exec.run_bind_of_ok (run_read_slot h hlt) _
      refine ⟨(bkey geo nd es₁.length, e.2) :: ks, ?_, ?_⟩
      · have hone : Spells geo [(bkey geo nd es₁.length, e.2)] [e] :=
          ⟨congrArg (fun k => [(k, e.2)]) (congrArg Prod.fst hpair), by simp⟩
        exact hone.append hks
      · rw [run_forEachLoop_step h hnd hbody, hrun]
        rfl

/-- The loop over a node above the leaves, `hchild` being about its children. -/
theorem exists_run_forEachLoop (func : Visit w γ) (acc : ℕ × γ)
    (hchild : ∀ {s : BtreeMem w} {c leaves as} acc, Under geo s n [c] leaves as → as.Nodup →
      ∃ ks, Spells geo ks (flat leaves) ∧ (btreeForEach geo func reap n c.addr acc).run s =
        .ok (visitAll func acc ks, s.visited reap as))
    (h : s.nodes a = some nd) (hnd : nd.Holds geo (es₁ ++ es₂))
    (hrow : row.map (·.addr) = es₂.map (·.2)) (hunder : Under geo s n row leaves as) (has : as.Nodup)
    (ha : a ∉ as) : ∃ ks, Spells geo ks (flat leaves) ∧
      (forEachLoop geo a (fun _ child acc => btreeForEach geo func reap n child acc)
        (geo.noPairs - es₁.length) es₁.length acc).run s = .ok (visitAll func acc ks, s.visited reap as) := by
  induction es₂ generalizing s es₁ row leaves as acc with
  | nil =>
      obtain rfl : row = [] := List.map_eq_nil_iff.1 hrow
      obtain ⟨rfl, rfl⟩ := hunder.of_nil
      rw [List.append_nil] at hnd
      exact ⟨[], ⟨rfl, by simp⟩, by rw [run_forEachLoop_end h hnd, visited_nil]; rfl⟩
  | cons e es₂ ih =>
      obtain ⟨c, row, rfl, hc, hrow⟩ := List.map_eq_cons_iff.1 hrow
      have hunder' : Under geo s n ([c] ++ row) leaves as := hunder
      obtain ⟨leaves₁, leaves₂, as₁, as₂, hu₁, hu₂, rfl, hperm⟩ := hunder'.split
      have hnodup := hperm.nodup_iff.1 has
      rw [List.nodup_append] at hnodup
      have ha' : a ∉ as₁ ++ as₂ := fun hmem => ha (hperm.mem_iff.2 hmem)
      rw [List.mem_append, not_or] at ha'
      obtain ⟨ks₁, hks₁, hrun₁⟩ := hchild acc hu₁ hnodup.1
      have hu₂' : Under geo (s.visited reap as₁) n row leaves₂ as₂ :=
        hu₂.of_same fun b hb => visited_nodes_of_not_mem fun hb' => hnodup.2.2 b hb' b hb rfl
      have hnode : (s.visited reap as₁).nodes a = some nd := by
        rw [visited_nodes_of_not_mem ha'.1, h]
      have hnd' := hnd
      rw [List.append_cons] at hnd'
      obtain ⟨ks₂, hks₂, hrun₂⟩ := ih (visitAll func acc ks₁) hnode hnd' hrow hu₂' hnodup.2.1 ha'.2
      refine ⟨ks₁ ++ ks₂, ?_, ?_⟩
      · rw [flat_append]
        exact hks₁.append hks₂
      · rw [hc] at hrun₁
        rw [run_forEachLoop_step h hnd hrun₁, hrun₂, visitAll_append, visited_visited,
          visited_congr fun b => hperm.mem_iff.symm]

theorem exists_run_btreeForEach (func : Visit w γ) (acc : ℕ × γ) (reap : Bool)
    (hunder : Under geo s n [b] leaves as) (has : as.Nodup) : ∃ ks,
    Spells geo ks (flat leaves) ∧ (btreeForEach geo func reap n b.addr acc).run s =
      .ok (visitAll func acc ks, s.visited reap as) := by
  induction n generalizing s b leaves as acc with
  | zero =>
      cases hunder with
      | leaves row stored =>
          obtain ⟨nd, hnode, hnd⟩ := stored b (by simp)
          have hnd' : nd.Holds geo ([] ++ b.entries) := hnd
          obtain ⟨ks, hks, hrun⟩ := exists_run_forEachLoop_leaf func acc hnode hnd'
          have hloop : (forEachLoop geo b.addr (fun i child acc => do
              let key ← (KeyPtr.slot b.addr i).read geo
              return (acc.1 + 1, func child key acc.1 acc.2)) geo.noPairs 0 acc).run s =
                .ok (visitAll func acc ks, s) := hrun
          refine ⟨ks, by simpa using hks, ?_⟩
          unfold btreeForEach
          rw [Exec.run_bind_of_ok hloop, Exec.run_bind_of_ok (run_reapNode hnode reap)]
          rfl
  | succ n ih =>
      cases hunder with
      | step _ below _ as _ stored children under =>
          obtain ⟨nd, hnode, hnd⟩ := stored b (by simp)
          have hnd' : nd.Holds geo ([] ++ b.entries) := hnd
          rw [List.map_singleton, List.singleton_append, List.nodup_cons] at has
          obtain ⟨ks, hks, hrun⟩ := exists_run_forEachLoop func acc (fun acc hu hnd => ih acc hu hnd) hnode
            hnd' (by simpa using children) under has.2 has.1
          have hloop : (forEachLoop geo b.addr (fun _ child acc => btreeForEach geo func reap n child acc)
              geo.noPairs 0 acc).run s = .ok (visitAll func acc ks, s.visited reap as) := hrun
          have hnode' : (s.visited reap as).nodes b.addr = some nd := by
            rw [visited_nodes_of_not_mem has.1, hnode]
          have hmem : ∀ a, a ∈ as ++ [b.addr] ↔ a ∈ [b].map (·.addr) ++ as := by
            intro a
            simp [or_comm]
          refine ⟨ks, hks, ?_⟩
          unfold btreeForEach
          rw [Exec.run_bind_of_ok hloop, Exec.run_bind_of_ok (run_reapNode hnode' reap), visited_visited,
            visited_congr hmem]
          rfl

end Visit

/-! ## `btree_visitor` and `btree_grim_visitor` -/

section Visitors

variable {γ F : Type} {s : BtreeMem w} {bot : ℕ} {as : List (BitVec w)} {es : List (ℕ × BitVec w)}

theorem Holding.exists_run_visitTree (h : Holding geo bot s as es) (func : Visit w γ) (reap : Bool)
    (data : γ) : ∃ ks, Spells geo ks es ∧
      (visitTree geo func reap data).run s = .ok (visitAll func (0, data) ks, s.visited reap as) := by
  unfold visitTree
  rw [Exec.run_get_bind]
  cases h with
  | empty node _ _ =>
      refine ⟨[], ⟨rfl, by simp⟩, ?_⟩
      rw [if_neg (by simp [node]), visited_nil]
      rfl
  | tree row above tree =>
      obtain ⟨b, as, hb, hunder, hperm⟩ := exists_under tree.levels tree.stored
      have hlevels : s.height - 1 = above.length := by
        have := tree.height
        rw [List.length_cons] at this
        omega
      obtain ⟨ks, hks, hrun⟩ := exists_run_btreeForEach func (0, data) reap hunder
        (hperm.nodup_iff.2 tree.stored.nodup)
      refine ⟨ks, hks, ?_⟩
      rw [if_pos tree.stored.root_ne_zero, hlevels, ← hb, hrun, visited_congr fun a => hperm.mem_iff]

/-- `btree_visitor` calls the callback once for each entry, with the greatest key first, and changes
    nothing. -/
theorem Holding.exists_run_btreeVisitor (h : Holding geo bot s as es)
    (func : BitVec w → List (BitVec w) → ℕ → F → γ → γ) (func2 : Option F) (data : γ) : ∃ ks,
      Spells geo ks es ∧ (btreeVisitor geo func func2 data).run s =
        .ok (visitAll (callback func func2) (0, data) ks, s) := by
  obtain ⟨ks, hks, hrun⟩ := h.exists_run_visitTree (callback func func2) false data
  have hsame : s.visited false as = s := by simp [BtreeMem.visited]
  rw [hsame] at hrun
  exact ⟨ks, hks, hrun⟩

/-- `btree_grim_visitor` makes the same calls, and frees the whole tree. -/
theorem Holding.exists_run_btreeGrimVisitor (h : Holding geo bot s as es)
    (func : BitVec w → List (BitVec w) → ℕ → F → γ → γ) (func2 : Option F) (data : γ) : ∃ ks s',
      Spells geo ks es ∧ (btreeGrimVisitor geo func func2 data).run s =
        .ok (visitAll (callback func func2) (0, data) ks, s') ∧ Moves as [] s s' ∧
      Holding geo bot s' [] [] := by
  obtain ⟨ks, hks, hrun⟩ := h.exists_run_visitTree (callback func func2) true data
  refine ⟨ks, { s.visited true as with node := 0, height := 0 }, hks, ?_, ⟨?_, by simp, ?_⟩,
    .empty rfl rfl ?_⟩
  · unfold btreeGrimVisitor
    rw [Exec.run_bind_of_ok hrun]
    rfl
  · intro a ha _
    exact visited_nodes_of_not_mem ha
  · intro a ha
    have hmem : a ∉ as := by
      intro hmem
      exact ha (if_pos ⟨rfl, hmem⟩)
    have hsame : (s.visited true as).nodes a = s.nodes a := visited_nodes_of_not_mem hmem
    exact .inr ⟨hmem, hsame ▸ ha⟩
  · show (s.visited true as).nodes 0 = none
    unfold BtreeMem.visited
    dsimp only
    split_ifs
    · rfl
    · exact h.null

end Visitors

end StructLib.Btree
