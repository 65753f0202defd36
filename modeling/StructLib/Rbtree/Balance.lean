import StructLib.Rbtree.Layout
import Mathlib.Data.List.Chain

set_option autoImplicit false

/-! # The red-black conditions

`RB t k` says that every path from the root of `t` down to a NULL link meets `k` black nodes and
that no red node has a red child; `RedBlack` adds the black root. `RBCtx fs k` is the same for a
tree with a hole: whatever red-black tree of black height `k` with a black root is filled in, the
whole is `RedBlack` (`redBlack_plug`). The loops of `rbtree.c` climb such contexts.

`RbConditions` states the same conditions as they are usually written, over the paths from the root
to the NULL links (`redBlack_iff`). -/

namespace StructLib.Rbtree

open BinTree Ctx

/-- No red node has a red child, and every path to a NULL link has `k` black nodes. -/
def RB : BinTree Color → ℕ → Prop
  | .nil, k => k = 0
  | .node l _ .red r, k => Black l ∧ Black r ∧ RB l k ∧ RB r k
  | .node l _ .black r, k => ∃ j, k = j + 1 ∧ RB l j ∧ RB r j

/-- A red-black tree: its root is black as well. -/
def RedBlack (t : BinTree Color) : Prop := Black t ∧ ∃ k, RB t k

section RB

variable {a b : BinTree Color} {d : Dir} {n k : ℕ}

@[simp] theorem rb_nil : RB .nil k ↔ k = 0 := Iff.rfl

@[simp] theorem rb_red : RB (.mk d a n .red b) k ↔ Black a ∧ Black b ∧ RB a k ∧ RB b k := by
  cases d
  · rfl
  · simp only [mk, RB]
    tauto

@[simp] theorem rb_black : RB (.mk d a n .black b) k ↔ ∃ j, k = j + 1 ∧ RB a j ∧ RB b j := by
  cases d
  · rfl
  · simp only [mk, RB]
    tauto

theorem rb_black_succ : RB (.mk d a n .black b) (k + 1) ↔ RB a k ∧ RB b k := by
  simp

/-- A tree of positive black height has a root. -/
theorem RB.exists_mk {t : BinTree Color} (d : Dir) (h : RB t (k + 1)) :
    ∃ a n c b, t = .mk d a n c b := by
  cases t with
  | nil => simp at h
  | node l n c r =>
      cases d
      · exact ⟨l, n, c, r, rfl⟩
      · exact ⟨r, n, c, l, rfl⟩

/-- A tree with a red root. -/
theorem RB.exists_red {t : BinTree Color} (d : Dir) (h : RB t k) (hr : ¬ Black t) :
    ∃ a n b, t = .mk d a n .red b ∧ Black a ∧ Black b ∧ RB a k ∧ RB b k := by
  cases t with
  | nil => simp at hr
  | node l n c r =>
      cases c with
      | black => simp at hr
      | red =>
          obtain ⟨hl, hr, hlk, hrk⟩ := h
          cases d
          · exact ⟨l, n, r, rfl, hl, hr, hlk, hrk⟩
          · exact ⟨r, n, l, rfl, hr, hl, hrk, hlk⟩

end RB

/-- Whether the parent of the hole is a black node. -/
def BlackParent : Ctx Color → Prop
  | .root => False
  | .up _ _ c _ _ => c = .black

/-- Filling the hole with a red-black tree of black height `k` gives a red-black tree. -/
def RBCtx : Ctx Color → ℕ → Prop
  | .root, _ => True
  | .up _ _ .red sib fs, k => Black sib ∧ RB sib k ∧ BlackParent fs ∧ RBCtx fs k
  | .up _ _ .black sib fs, k => RB sib k ∧ RBCtx fs (k + 1)

section RBCtx

variable {d : Dir} {n k : ℕ} {sib t : BinTree Color} {fs : Ctx Color}

@[simp] theorem blackParent_root : ¬ BlackParent .root := id

@[simp] theorem blackParent_up {c : Color} : BlackParent (.up d n c sib fs) ↔ c = .black := Iff.rfl

@[simp] theorem rbCtx_root : RBCtx .root k := trivial

@[simp] theorem rbCtx_red : RBCtx (.up d n .red sib fs) k ↔
    Black sib ∧ RB sib k ∧ BlackParent fs ∧ RBCtx fs k := Iff.rfl

@[simp] theorem rbCtx_black : RBCtx (.up d n .black sib fs) k ↔ RB sib k ∧ RBCtx fs (k + 1) := Iff.rfl

/-- Filling the hole, with a black root or below a black node. -/
theorem redBlack_plug (hfs : RBCtx fs k) (ht : RB t k) (hb : Black t ∨ BlackParent fs) :
    RedBlack (fs.plug t) := by
  induction fs generalizing t k with
  | root => exact ⟨by simpa using hb, k, ht⟩
  | up d n c sib fs ih =>
      cases c with
      | red =>
          obtain ⟨hs, hsk, hp, hfs⟩ := hfs
          exact ih hfs (rb_red.2 ⟨by simpa using hb, hs, ht, hsk⟩) (.inr hp)
      | black => exact ih hfs.2 (rb_black_succ.2 ⟨ht, hfs.1⟩) (.inl (by simp))

/-- Every subtree of a red-black tree, and its context. -/
theorem RedBlack.of_plug (h : RedBlack (fs.plug t)) :
    ∃ k, RB t k ∧ RBCtx fs k ∧ (Black t ∨ BlackParent fs) := by
  induction fs generalizing t with
  | root =>
      obtain ⟨hb, k, hk⟩ := h
      exact ⟨k, hk, trivial, .inl hb⟩
  | up d n c sib fs ih =>
      obtain ⟨k, hk, hfs, hp⟩ := ih h
      cases c with
      | red =>
          obtain ⟨ht, hs, htk, hsk⟩ := rb_red.1 hk
          exact ⟨k, htk, ⟨hs, hsk, by simpa using hp, hfs⟩, .inl ht⟩
      | black =>
          obtain ⟨j, rfl, htj, hsj⟩ := rb_black.1 hk
          exact ⟨j, htj, ⟨hsj, hfs⟩, .inr rfl⟩

/-- The conditions do not depend on the addresses. -/
theorem RBCtx.relabel {c : Color} {gs : Ctx Color} (m : ℕ) (h : RBCtx (gs.append (.up d n c sib fs)) k) :
    RBCtx (gs.append (.up d m c sib fs)) k := by
  induction gs generalizing k with
  | root => cases c <;> exact h
  | up d' n' c' sib' gs ih =>
      cases c' with
      | red =>
          refine ⟨h.1, h.2.1, ?_, ih h.2.2.2⟩
          cases gs <;> exact h.2.2.1
      | black => exact ⟨h.1, ih h.2⟩

theorem RedBlack.relabel {c : Color} {gs : Ctx Color} (m : ℕ)
    (h : RedBlack ((gs.append (.up d n c sib fs)).plug t)) :
    RedBlack ((gs.append (.up d m c sib fs)).plug t) := by
  obtain ⟨k, hk, hctx, htop⟩ := h.of_plug
  refine redBlack_plug (hctx.relabel m) hk (htop.imp_right fun hb => ?_)
  cases gs <;> exact hb

end RBCtx

/-! ## The conditions, path by path -/

/-- The colours met on each path from the root to a NULL link, the root's first. -/
def nullPaths : BinTree Color → List (List Color)
  | .nil => [[]]
  | .node l _ c r => (nullPaths l ++ nullPaths r).map (c :: ·)

/-- The red-black conditions. -/
structure RbConditions (t : BinTree Color) : Prop where
  rootBlack : Black t
  noRedRed : ∀ π ∈ nullPaths t, π.IsChain fun parent child => ¬ (parent = .red ∧ child = .red)
  sameBlacks : ∀ π ∈ nullPaths t, ∀ π' ∈ nullPaths t, π.count .black = π'.count .black

theorem nullPaths_ne_nil (t : BinTree Color) : ∃ π, π ∈ nullPaths t := by
  induction t with
  | nil => exact ⟨[], by simp [nullPaths]⟩
  | node l n c r ihl _ =>
      obtain ⟨π, hπ⟩ := ihl
      exact ⟨c :: π, by simp [nullPaths, hπ]⟩

theorem black_iff_nullPaths {t : BinTree Color} :
    Black t ↔ ∀ π ∈ nullPaths t, ∀ c ∈ π.head?, ¬ (c = Color.red) := by
  cases t with
  | nil => simp [nullPaths]
  | node l n c r =>
      obtain ⟨π, hπ⟩ := nullPaths_ne_nil l
      constructor
      · rintro hc π' hπ' c' hc'
        obtain rfl : c = .black := hc
        obtain ⟨π, -, rfl⟩ := List.mem_map.1 hπ'
        obtain rfl : Color.black = c' := by simpa using hc'
        simp
      · intro h
        have hc := h (c :: π) (by simp [nullPaths, hπ]) c rfl
        cases c with
        | red => exact absurd rfl hc
        | black => rfl

/-- `RB` counts along the paths. -/
theorem rb_iff_nullPaths {t : BinTree Color} {k : ℕ} : RB t k ↔ ∀ π ∈ nullPaths t,
    (π.IsChain fun parent child => ¬ (parent = .red ∧ child = .red)) ∧ π.count .black = k := by
  induction t generalizing k with
  | nil => simp [nullPaths, eq_comm]
  | node l n c r ihl ihr =>
      cases c with
      | red =>
          change Black l ∧ Black r ∧ RB l k ∧ RB r k ↔ _
          rw [black_iff_nullPaths, black_iff_nullPaths, ihl, ihr]
          simp only [nullPaths, List.mem_map, List.mem_append, forall_exists_index, and_imp,
            forall_apply_eq_imp_iff₂, or_imp, forall_and, List.isChain_cons, true_and, ne_eq,
            reduceCtorEq, not_false_eq_true, List.count_cons_of_ne]
          tauto
      | black =>
          change (∃ j, k = j + 1 ∧ RB l j ∧ RB r j) ↔ _
          simp only [ihl, ihr, nullPaths, List.mem_map, List.mem_append, forall_exists_index, and_imp,
            forall_apply_eq_imp_iff₂, or_imp, forall_and, List.isChain_cons, List.count_cons_self,
            reduceCtorEq, false_and, not_false_eq_true, implies_true, true_and]
          constructor
          · rintro ⟨j, rfl, ⟨hl, hl'⟩, hr, hr'⟩
            exact ⟨⟨hl, hr⟩, fun π hπ => by rw [hl' π hπ], fun π hπ => by rw [hr' π hπ]⟩
          · rintro ⟨⟨hl, hr⟩, hl', hr'⟩
            obtain ⟨π, hπ⟩ := nullPaths_ne_nil l
            refine ⟨π.count .black, (hl' π hπ).symm, ⟨hl, fun π' hπ' => ?_⟩, hr, fun π' hπ' => ?_⟩
            · have := hl' π hπ
              have := hl' π' hπ'
              omega
            · have := hl' π hπ
              have := hr' π' hπ'
              omega

/-- **`RedBlack` is the conjunction of the red-black conditions.** -/
theorem redBlack_iff {t : BinTree Color} : RedBlack t ↔ RbConditions t := by
  constructor
  · rintro ⟨hb, k, hk⟩
    rw [rb_iff_nullPaths] at hk
    exact ⟨hb, fun π hπ => (hk π hπ).1, fun π hπ π' hπ' => (hk π hπ).2.trans (hk π' hπ').2.symm⟩
  · rintro ⟨hb, hred, hcount⟩
    obtain ⟨π, hπ⟩ := nullPaths_ne_nil t
    exact ⟨hb, π.count .black, rb_iff_nullPaths.2 fun π' hπ' => ⟨hred π' hπ', hcount π' hπ' π hπ⟩⟩

end StructLib.Rbtree
