import StructLib.Rbtree.Layout
import Mathlib.Data.List.Nodup

set_option autoImplicit false

/-! # Traversal

`rb_first` and `rb_next` follow the in-order sequence of the nodes, `rb_last` and `rb_prev` its
reverse. Both are read off `rbEnd` and `rbNeighbour`: going to the side `d`, the next node is the
first one met in the subtree on that side, or else the first one met beyond the node's context. -/

namespace StructLib.Rbtree

open BinTree Ctx

variable {D : Type} {s : RbMem D} {fs : Ctx Color} {t : BinTree Color} {n fuel : ℕ} {d : Dir}

/-- The walk down the side `d` ends where a walk to the other side would start. -/
theorem run_rbDescend {p : Ptr} (hfuel : t.depth ≤ fuel) (ht : t ≠ .nil)
    (h : rbLayout.TreeAt s.node p t) :
    (rbDescend d fuel t.root).run s = .ok ((t.walk d.flip).head?, s) := by
  induction t generalizing fuel p with
  | nil => exact absurd rfl ht
  | node l m c r ihl ihr =>
      obtain ⟨a, b, hab, iha, hchild⟩ : ∃ a b, node l m c r = mk d a m c b ∧
          (∀ {fuel : ℕ} {p : Ptr}, a.depth ≤ fuel → a ≠ .nil → rbLayout.TreeAt s.node p a →
            (rbDescend d fuel a.root).run s = .ok ((a.walk d.flip).head?, s)) ∧
          (rbLayout.cell c l.root r.root p).child d = a.root := by
        cases d
        · exact ⟨l, r, rfl, ihl, rfl⟩
        · exact ⟨r, l, rfl, ihr, rfl⟩
      have hm := h.1
      obtain ⟨fuel, rfl⟩ : ∃ f, fuel = f + 1 := ⟨fuel - 1, by simp at hfuel; omega⟩
      rw [hab] at h hfuel ⊢
      rw [depth_mk] at hfuel
      rw [show mk d a m c b = mk d.flip.flip a m c b by rw [Dir.flip_flip], walk_mk_flip, root_mk]
      simp only [rbDescend, StateT.run_bind, run_rbChild, atNode, hm, ok_bind, hchild]
      cases a with
      | nil => simp
      | node a₁ k ck a₂ =>
          have hrun := @iha fuel (some m) (by omega) (by simp) (rbLayout.treeAt_mk.1 h).2.1
          have hne : (node a₁ k ck a₂).walk d.flip ≠ [] := by
            cases d <;> simp [walk, addrs]
          rw [List.head?_append_of_ne_nil _ hne, ← hrun]
          rfl

/-- The ends of the tree. -/
theorem run_rbEnd (hfuel : t.depth ≤ fuel) (h : Focus s .root t) :
    (rbEnd d fuel).run s = .ok ((t.walk d.flip).head?, s) := by
  have hroot : s.rbNode = t.root := h.ctx
  cases t with
  | nil =>
      rw [walk_nil]
      simp [rbEnd, hroot]
  | node l m c r =>
      rw [root_node] at hroot
      simpa [rbEnd, hroot] using run_rbDescend hfuel (by simp) h.tree

/-- The climb ends at the first ancestor that has the node on the other side. -/
theorem run_rbClimb {l r : BinTree Color} {c : Color} (hfuel : fs.length < fuel)
    (h : Focus s fs (.node l n c r)) :
    (rbClimb d fuel (some n)).run s = .ok ((fs.beyond d).head?, s) := by
  induction fs generalizing l n c r fuel with
  | root =>
      obtain ⟨fuel, rfl⟩ : ∃ f, fuel = f + 1 := ⟨fuel - 1, by simp at hfuel; omega⟩
      have hn := h.tree.1
      simp [rbClimb, StateT.run_bind, run_rbParent, atNode, hn, rbLayout]
  | up e m cm sib fs ih =>
      obtain ⟨fuel, rfl⟩ : ∃ f, fuel = f + 1 := ⟨fuel - 1, by simp at hfuel; omega⟩
      have hn := h.tree.1
      have hm := h.ctx.1
      have hup := focus_up.1 h
      have hsib : sib.root ≠ some n := by
        intro hs
        have hd := h.distinct
        have := mem_of_root hs
        simp only [plug_up, distinct_plug, distinct_mk, mem_node] at hd
        grind
      have hparent : (rbLayout.cell c l.root r.root (some m)).rbParentColor.parent = some m := rfl
      simp only [rbClimb, StateT.run_bind, run_rbParent, run_rbChild, atNode, hn, hm, ok_bind,
        parent_up, hparent, Option.isNone_some, Bool.false_eq_true, if_false, root_node]
      by_cases hed : e = d
      · subst hed
        obtain ⟨l', r', hmk⟩ : ∃ l' r', mk e (node l n c r) m cm sib = node l' m cm r' := by
          cases e
          · exact ⟨_, _, rfl⟩
          · exact ⟨_, _, rfl⟩
        rw [hmk] at hup
        simp [ih (by simp at hfuel; omega) hup]
      · obtain rfl : e = d.flip := by cases d <;> cases e <;> simp_all
        rw [Layout.cellOf_flip]
        simp [hsib.symm]

/-- **`rb_next` and `rb_prev`**: the node met first on the way to the side `d`. -/
theorem run_rbNeighbour {l r : BinTree Color} {c : Color}
    (hfuel : (fs.plug (.node l n c r)).depth < fuel) (h : Focus s fs (.node l n c r)) :
    (rbNeighbour d fuel (some n)).run s =
      .ok ((((if d = .left then l else r).walk d) ++ fs.beyond d).head?, s) := by
  have hn := h.tree.1
  have hlen := length_add_depth_le fs (node l n c r)
  have hparent : fs.parent none ≠ some n := by
    cases fs with
    | root => simp
    | up e m cm sib fs =>
        rintro ⟨⟩
        have hd := h.distinct
        simp only [plug_up, distinct_plug, distinct_mk, mem_node] at hd
        grind
  have hempty : (rbEmptyNode (some n)).run s = .ok (false, s) := by
    simp [rbEmptyNode, run_load, atNode, hn, rbLayout, hparent]
  have hchild : (rbLayout.cell c l.root r.root (fs.parent none)).child d =
      (if d = .left then l else r).root := by cases d <;> rfl
  obtain ⟨b, hb, hbt, hbd⟩ : ∃ b, b = (if d = .left then l else r) ∧
      rbLayout.TreeAt s.node (some n) b ∧ b.depth < fuel := by
    rw [depth_node] at hlen
    cases d
    · exact ⟨l, rfl, h.tree.2.1, by omega⟩
    · exact ⟨r, rfl, h.tree.2.2, by omega⟩
  simp only [rbNeighbour, StateT.run_bind, hempty, ok_bind, Bool.false_eq_true, if_false, run_rbChild,
    atNode, hn, hchild, ← hb]
  cases b with
  | nil =>
      rw [depth_node] at hlen
      simpa using run_rbClimb (d := d) (by omega) h
  | node b₁ k ck b₂ =>
      have hrun := run_rbDescend (d := d.flip) (Nat.le_of_lt hbd) (by simp) hbt
      have hne : (node b₁ k ck b₂).walk d ≠ [] := by cases d <;> simp [walk, addrs]
      rw [List.head?_append_of_ne_nil _ hne]
      simpa using hrun

/-! ## The in-order sequence -/

theorem walk_flip (d : Dir) (t : BinTree Color) : t.walk d.flip = (t.walk d).reverse := by
  cases d <;> simp [walk]

theorem mem_walk {d : Dir} {t : BinTree Color} : n ∈ t.walk d ↔ n ∈ t := by
  cases d <;> simp [walk, mem_addrs]

/-- The neighbour of a node is the next one of the sequence. -/
theorem run_rbNeighbour_walk {before after : List ℕ} (hfuel : t.depth < fuel) (h : Focus s .root t)
    (ht : t.walk d = before ++ n :: after) :
    (rbNeighbour d fuel (some n)).run s = .ok (after.head?, s) := by
  obtain ⟨fs, l, c, r, rfl⟩ := exists_plug (t := t) (n := n) (by simp [← mem_walk (d := d), ht])
  have hnd : (before ++ n :: after).Nodup := by
    rw [← ht]
    cases d
    · exact List.nodup_reverse.2 h.distinct
    · exact h.distinct
  have hrun := run_rbNeighbour (d := d) hfuel (focus_plug.1 h)
  have hsplit : (fs.plug (node l n c r)).walk d =
      (fs.beyond d.flip).reverse ++ ((if d = .left then r else l).walk d) ++
        n :: (((if d = .left then l else r).walk d) ++ fs.beyond d) := by
    cases d <;> simp [walk, beyond, addrs_plug]
  rw [hsplit] at ht
  obtain ⟨-, -, rfl⟩ := (List.append_cons_inj_of_notMem (by grind) (by grind)).1 ht
  exact hrun

theorem run_rbFirst (hfuel : t.depth ≤ fuel) (h : Focus s .root t) :
    (rbFirst fuel).run s = .ok (t.addrs.head?, s) :=
  run_rbEnd hfuel h

/-- The successor of a node is the next one of the in-order sequence. -/
theorem run_rbNext {before after : List ℕ} (hfuel : t.depth < fuel) (h : Focus s .root t)
    (ht : t.addrs = before ++ n :: after) :
    (rbNext fuel (some n)).run s = .ok (after.head?, s) :=
  run_rbNeighbour_walk (d := .right) hfuel h ht

/-- Going on from a node to its neighbours as long as there are any. -/
def visitLoop (d : Dir) (fuel : ℕ) : ℕ → Ptr → Exec (RbMem D) (List ℕ)
  | 0, _ => Exec.outOfFuel
  | _ + 1, none => return []
  | rounds + 1, some n => do
      let next ← rbNeighbour d fuel (some n)
      let rest ← visitLoop d fuel rounds next
      return n :: rest

/-- `for (n = rb_first(root); n; n = rb_next(n))`, and the same with `rb_last` and `rb_prev`. -/
def visitAll (d : Dir) (fuel : ℕ) : Exec (RbMem D) (List ℕ) := do
  visitLoop d fuel fuel (← rbEnd d.flip fuel)

theorem run_visitLoop {rounds : ℕ} (before : List ℕ) {after : List ℕ} (hfuel : t.depth < fuel)
    (hrounds : after.length < rounds) (h : Focus s .root t) (ht : t.walk d = before ++ after) :
    (visitLoop d fuel rounds after.head?).run s = .ok (after, s) := by
  induction after generalizing before rounds with
  | nil =>
      obtain ⟨rounds, rfl⟩ := Nat.exists_eq_add_one.2 (Nat.zero_lt_of_lt hrounds)
      rfl
  | cons n after ih =>
      obtain ⟨rounds, rfl⟩ := Nat.exists_eq_add_one.2 (Nat.zero_lt_of_lt hrounds)
      have hrest := ih (before ++ [n]) (by simpa using hrounds) (by simpa using ht)
      rw [List.head?_cons, visitLoop, Exec.run_bind_of_ok (run_rbNeighbour_walk hfuel h ht),
        Exec.run_bind_of_ok hrest]
      rfl

/-- The nodes come one after the other, and then NULL. -/
theorem returns_visitAll (d : Dir) (h : Focus s .root t) : Returns (visitAll d) s (t.walk d) s := by
  refine ⟨t.addrs.length + 1, fun fuel hfuel => ?_⟩
  have hdepth := t.depth_le_length_addrs
  have hlen : (t.walk d).length < fuel := by
    cases d <;> simp only [walk, List.length_reverse] <;> omega
  rw [visitAll, Exec.run_bind_of_ok (run_rbEnd (by omega) h), Dir.flip_flip]
  exact run_visitLoop [] (by omega) hlen h rfl

/-- The neighbour's neighbour on the other side is the node. -/
theorem returns_neighbour_flip {m : ℕ} (h : Focus s .root t) (hn : n ∈ t)
    (hm : Returns (fun fuel => rbNeighbour d fuel (some n)) s (some m) s) :
    Returns (fun fuel => rbNeighbour d.flip fuel (some m)) s (some n) s := by
  obtain ⟨before, after, hsplit⟩ := List.append_of_mem (mem_walk (d := d).2 hn)
  have hnext : Returns (fun fuel => rbNeighbour d fuel (some n)) s after.head? s :=
    ⟨t.depth + 1, fun fuel hfuel => run_rbNeighbour_walk hfuel h hsplit⟩
  obtain ⟨rest, rfl⟩ := List.head?_eq_some_iff.1 (hnext.unique hm).1
  have hback : t.walk d.flip = rest.reverse ++ m :: n :: before.reverse := by
    rw [walk_flip, hsplit]
    simp
  exact ⟨t.depth + 1, fun fuel hfuel => run_rbNeighbour_walk hfuel h hback⟩

/-- **Traversal**: `rb_first` and `rb_next` visit the nodes in order, `rb_last` and `rb_prev` in the
    reverse order, each once and then NULL; and `rb_prev` is the inverse of `rb_next`. -/
theorem visits_in_order (s : RbMem D) (t : BinTree Color) (h : Focus s .root t) :
    t.addrs.Nodup ∧ (∀ n, n ∈ t.addrs ↔ n ∈ t) ∧
      Returns (visitAll .right) s t.addrs s ∧ Returns (visitAll .left) s t.addrs.reverse s ∧
        (∀ n ∈ t, ∃ p q, Returns (fun fuel => rbNext fuel (some n)) s p s ∧
          Returns (fun fuel => rbPrev fuel (some n)) s q s) ∧
        ∀ a ∈ t, ∀ b ∈ t, Returns (fun fuel => rbNext fuel (some a)) s (some b) s ↔
          Returns (fun fuel => rbPrev fuel (some b)) s (some a) s := by
  refine ⟨h.distinct, fun n => mem_addrs, returns_visitAll .right h, returns_visitAll .left h,
    fun n hn => ?_, fun a ha b hb => ⟨?_, ?_⟩⟩
  · have hneighbour : ∀ d, ∃ p, Returns (fun fuel => rbNeighbour d fuel (some n)) s p s := by
      intro d
      obtain ⟨before, after, hsplit⟩ := List.append_of_mem (mem_walk (d := d).2 hn)
      exact ⟨_, t.depth + 1, fun fuel hfuel => run_rbNeighbour_walk hfuel h hsplit⟩
    obtain ⟨p, hp⟩ := hneighbour .right
    obtain ⟨q, hq⟩ := hneighbour .left
    exact ⟨p, q, hp, hq⟩
  · exact returns_neighbour_flip (d := .right) h ha
  · exact returns_neighbour_flip (d := .left) h hb

/-- The node 2 over 1 and 3. -/
theorem visits_in_order_three : ∃ s : RbMem Unit, s.rbNode = some 2 ∧
    Returns (visitAll .right) s [1, 2, 3] s ∧ Returns (visitAll .left) s [3, 2, 1] s := by
  obtain ⟨-, -, hup, hdown, -⟩ := visits_in_order (D := Unit)
    ⟨some 2, fun m => if m = 2 then some ⟨⟨none, .black⟩, some 3, some 1⟩
      else some ⟨⟨some 2, .black⟩, none, none⟩, fun _ => ()⟩
    (.node (.node .nil 1 .black .nil) 2 .black (.node .nil 3 .black .nil))
    ⟨⟨rfl, ⟨rfl, trivial, trivial⟩, rfl, trivial, trivial⟩, rfl, by simp⟩
  exact ⟨_, rfl, hup, hdown⟩

end StructLib.Rbtree
