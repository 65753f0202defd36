import StructLib.Lib.Tree
import Mathlib.Data.Int.Notation
import Mathlib.Data.List.Infix

set_option autoImplicit false

/-! # AVL trees

The nodes of an AVL tree carry data and the height of their subtree (`BinTree.Measured`); the depths
of two siblings differ by at most one (`BinTree.Balanced`). `BinTree.avlInsert` is the textbook
insertion: it descends to the sides that the function `side` gives, hangs the new leaf there and
restores the balance on the way back up by single and double rotations. It keeps both invariants
(`measured_avlInsert`, `balanced_avlInsert`) and puts the new data between the nodes that the key
lies to the right of and those it lies to the left of (`records_avlInsert`). -/

namespace StructLib.BinTree

variable {D : Type}

/-! ## Stored heights and balance -/

/-- The two subtrees of a node, the one on the side `d`. -/
def sub {V : Type} (d : Dir) (l r : BinTree V) : BinTree V :=
  match d with
  | .left => l
  | .right => r

theorem node_eq_mk {V : Type} (d : Dir) (l : BinTree V) (n : ℕ) (v : V) (r : BinTree V) :
    node l n v r = mk d (sub d l r) n v (sub d.flip l r) := by cases d <;> rfl

/-- A node with its height stored; a leaf has height 0. -/
def join (l : BinTree (D × ℤ)) (n : ℕ) (x : D) (r : BinTree (D × ℤ)) : BinTree (D × ℤ) :=
  node l n (x, (max l.depth r.depth : ℕ)) r

/-- `join` with the subtree on the side `d` first. -/
def joinMk (d : Dir) (a : BinTree (D × ℤ)) (n : ℕ) (x : D) (b : BinTree (D × ℤ)) :
    BinTree (D × ℤ) :=
  mk d a n (x, (max a.depth b.depth : ℕ)) b

theorem joinMk_left (a : BinTree (D × ℤ)) (n : ℕ) (x : D) (b : BinTree (D × ℤ)) :
    joinMk .left a n x b = join a n x b := rfl

theorem joinMk_right (a : BinTree (D × ℤ)) (n : ℕ) (x : D) (b : BinTree (D × ℤ)) :
    joinMk .right a n x b = join b n x a := by
  rw [joinMk, join, mk, Nat.max_comm]

@[simp] theorem depth_joinMk (d : Dir) (a : BinTree (D × ℤ)) (n : ℕ) (x : D)
    (b : BinTree (D × ℤ)) : (joinMk d a n x b).depth = max a.depth b.depth + 1 := depth_mk ..

@[simp] theorem root_joinMk (d : Dir) (a : BinTree (D × ℤ)) (n : ℕ) (x : D)
    (b : BinTree (D × ℤ)) : (joinMk d a n x b).root = some n := root_mk ..

theorem depth_eq_zero {V : Type} {t : BinTree V} : t.depth = 0 ↔ t = nil := by cases t <;> simp

/-- Every node stores the height of its subtree. -/
def Measured : BinTree (D × ℤ) → Prop
  | nil => True
  | node l _ v r => v.2 = (max l.depth r.depth : ℕ) ∧ Measured l ∧ Measured r

/-- The depths of any two siblings differ by at most one. -/
def Balanced {V : Type} : BinTree V → Prop
  | nil => True
  | node l _ _ r => l.depth ≤ r.depth + 1 ∧ r.depth ≤ l.depth + 1 ∧ Balanced l ∧ Balanced r

@[simp] theorem measured_nil : (nil : BinTree (D × ℤ)).Measured := trivial

@[simp] theorem balanced_nil {V : Type} : (nil : BinTree V).Balanced := trivial

theorem measured_mk {d : Dir} {a : BinTree (D × ℤ)} {n : ℕ} {v : D × ℤ} {b : BinTree (D × ℤ)} :
    (mk d a n v b).Measured ↔ v.2 = (max a.depth b.depth : ℕ) ∧ a.Measured ∧ b.Measured := by
  cases d
  · exact Iff.rfl
  · rw [mk, Measured, Nat.max_comm, and_comm (a := b.Measured)]

theorem balanced_mk {V : Type} {d : Dir} {a : BinTree V} {n : ℕ} {v : V} {b : BinTree V} :
    (mk d a n v b).Balanced ↔
      a.depth ≤ b.depth + 1 ∧ b.depth ≤ a.depth + 1 ∧ a.Balanced ∧ b.Balanced := by
  cases d
  · exact Iff.rfl
  · rw [mk, Balanced]
    tauto

@[simp] theorem measured_joinMk {d : Dir} {a : BinTree (D × ℤ)} {n : ℕ} {x : D}
    {b : BinTree (D × ℤ)} : (joinMk d a n x b).Measured ↔ a.Measured ∧ b.Measured := by
  simp [joinMk, measured_mk]

@[simp] theorem balanced_joinMk {d : Dir} {a : BinTree (D × ℤ)} {n : ℕ} {x : D}
    {b : BinTree (D × ℤ)} : (joinMk d a n x b).Balanced ↔
      a.depth ≤ b.depth + 1 ∧ b.depth ≤ a.depth + 1 ∧ a.Balanced ∧ b.Balanced := balanced_mk

/-! ## The records in order -/

/-- The nodes in order, with their data. -/
def records (t : BinTree (D × ℤ)) : List (ℕ × D) := t.entries.map fun e => (e.1, e.2.1)

@[simp] theorem records_nil : (nil : BinTree (D × ℤ)).records = [] := rfl

@[simp] theorem records_node (l : BinTree (D × ℤ)) (n : ℕ) (v : D × ℤ) (r : BinTree (D × ℤ)) :
    (node l n v r).records = l.records ++ (n, v.1) :: r.records := by simp [records]

theorem mem_records_mk {e : ℕ × D} {d : Dir} {a : BinTree (D × ℤ)} {n : ℕ} {v : D × ℤ}
    {b : BinTree (D × ℤ)} :
    e ∈ (mk d a n v b).records ↔ e ∈ a.records ∨ e = (n, v.1) ∨ e ∈ b.records := by
  cases d
  · simp [mk]
  · simp only [mk, records_node, List.mem_append, List.mem_cons]
    tauto

@[simp] theorem records_join (l : BinTree (D × ℤ)) (n : ℕ) (x : D) (r : BinTree (D × ℤ)) :
    (join l n x r).records = l.records ++ (n, x) :: r.records := by simp [join]

theorem map_fst_records (t : BinTree (D × ℤ)) : t.records.map Prod.fst = t.addrs := by
  simp [records, addrs]

theorem mem_iff_records {t : BinTree (D × ℤ)} {n : ℕ} : n ∈ t ↔ ∃ e ∈ t.records, e.1 = n := by
  rw [← mem_addrs, ← map_fst_records, List.mem_map]

/-- Trees with the same records have the same nodes. -/
theorem mem_congr_records {t t' : BinTree (D × ℤ)} (h : t.records = t'.records) {n : ℕ} :
    n ∈ t ↔ n ∈ t' := by
  rw [mem_iff_records, mem_iff_records, h]

theorem distinct_congr_records {t t' : BinTree (D × ℤ)} (h : t.records = t'.records) :
    t.Distinct ↔ t'.Distinct := by
  rw [BinTree.Distinct, BinTree.Distinct, ← map_fst_records, ← map_fst_records, h]

/-- A list in which no element that a key lies to the left of stands before one that the key lies to
    the right of splits at the key. -/
theorem exists_split {α : Type} {side : α → Dir} {l : List α}
    (h : l.Pairwise fun x y => side x = .left → side y = .left) :
    ∃ bs as, l = bs ++ as ∧ (∀ x ∈ bs, side x = .right) ∧ ∀ x ∈ as, side x = .left := by
  induction l with
  | nil => exact ⟨[], [], rfl, by simp, by simp⟩
  | cons x l ih =>
      obtain ⟨hx, hl⟩ := List.pairwise_cons.1 h
      obtain ⟨bs, as, rfl, hb, ha⟩ := ih hl
      rcases hside : side x with _ | _
      · exact ⟨[], x :: (bs ++ as), rfl, by simp, List.forall_mem_cons.2
          ⟨hside, fun y hy => hx y hy hside⟩⟩
      · exact ⟨x :: bs, as, rfl, List.forall_mem_cons.2 ⟨hside, hb⟩, ha⟩

/-! ## Rotations -/

/-- The subtree `a` on the side `d` of the node `n` has become too deep: rotate at `n`, after a
    rotation at the root of `a` if the key went into the inner subtree of `a`. -/
def rotate (side : D → Dir) (d : Dir) (a : BinTree (D × ℤ)) (n : ℕ) (x : D) (b : BinTree (D × ℤ)) :
    BinTree (D × ℤ) :=
  match a with
  | nil => joinMk d nil n x b
  | node l m y r =>
      if side y.1 = d then
        joinMk d (sub d l r) m y.1 (joinMk d (sub d.flip l r) n x b)
      else
        match sub d.flip l r with
        | nil => joinMk d (node l m y r) n x b
        | node l' k z r' =>
            joinMk d (joinMk d (sub d l r) m y.1 (sub d l' r')) k z.1
              (joinMk d (sub d.flip l' r') n x b)

@[simp] theorem sub_left {V : Type} (l r : BinTree V) : sub .left l r = l := rfl

@[simp] theorem sub_right {V : Type} (l r : BinTree V) : sub .right l r = r := rfl

theorem rotate_outer {side : D → Dir} {d : Dir} {p q b : BinTree (D × ℤ)} {m n : ℕ} {y x : D}
    {h : ℤ} (hy : side y = d) :
    rotate side d (mk d p m (y, h) q) n x b = joinMk d p m y (joinMk d q n x b) := by
  cases d <;> simp [mk, rotate, hy]

theorem rotate_inner {side : D → Dir} {d : Dir} {q c₁ c₂ b : BinTree (D × ℤ)} {m k n : ℕ}
    {y z x : D} {h h' : ℤ} (hy : side y = d.flip) :
    rotate side d (mk d q m (y, h) (mk d c₁ k (z, h') c₂)) n x b =
      joinMk d (joinMk d q m y c₁) k z (joinMk d c₂ n x b) := by
  cases d <;> simp [mk, rotate, hy]

theorem records_joinMk_left (a : BinTree (D × ℤ)) (n : ℕ) (x : D) (b : BinTree (D × ℤ)) :
    (joinMk .left a n x b).records = a.records ++ (n, x) :: b.records := by
  rw [joinMk_left, records_join]

theorem records_joinMk_right (a : BinTree (D × ℤ)) (n : ℕ) (x : D) (b : BinTree (D × ℤ)) :
    (joinMk .right a n x b).records = b.records ++ (n, x) :: a.records := by
  rw [joinMk_right, records_join]

theorem records_rotate (side : D → Dir) (d : Dir) (a : BinTree (D × ℤ)) (n : ℕ) (x : D)
    (b : BinTree (D × ℤ)) : (rotate side d a n x b).records = (joinMk d a n x b).records := by
  cases a with
  | nil => rfl
  | node l m y r =>
      simp only [rotate]
      split
      · cases d <;> simp [records_joinMk_left, records_joinMk_right]
      · split
        · rfl
        · next l' k z r' heq =>
            cases d
            · obtain rfl : r = node l' k z r' := heq
              simp [records_joinMk_left]
            · obtain rfl : l = node l' k z r' := heq
              simp [records_joinMk_right]

theorem measured_sub {d : Dir} {l r : BinTree (D × ℤ)} (hl : l.Measured) (hr : r.Measured) :
    (sub d l r).Measured := by
  cases d
  · exact hl
  · exact hr

theorem measured_rotate {side : D → Dir} {d : Dir} {a : BinTree (D × ℤ)} {n : ℕ} {x : D}
    {b : BinTree (D × ℤ)} (ha : a.Measured) (hb : b.Measured) :
    (rotate side d a n x b).Measured := by
  cases a with
  | nil => simpa [rotate] using hb
  | node l m y r =>
      have hsub : ∀ e, (sub e l r).Measured := fun e => measured_sub ha.2.1 ha.2.2
      simp only [rotate]
      split
      · simp [hsub, hb]
      · split
        · simp [ha, hb]
        · next l' k z r' heq =>
            have hc := hsub d.flip
            rw [heq] at hc
            have hsub' : ∀ e, (sub e l' r').Measured := fun e => measured_sub hc.2.1 hc.2.2
            simp [hsub, hsub', hb]

/-! ## Insertion -/

/-- Put the grown subtree `a` back on the side `d` of the node `n`. -/
def rebalance (side : D → Dir) (d : Dir) (a : BinTree (D × ℤ)) (n : ℕ) (x : D)
    (b : BinTree (D × ℤ)) : BinTree (D × ℤ) :=
  if a.depth = b.depth + 2 then rotate side d a n x b else joinMk d a n x b

/-- Insert a node at the address `m` with the data `e`, going to the side `side x` at data `x`. -/
def avlInsert (side : D → Dir) (m : ℕ) (e : D) : BinTree (D × ℤ) → BinTree (D × ℤ)
  | nil => join nil m e nil
  | node l n v r =>
      match side v.1 with
      | .left => rebalance side .left (avlInsert side m e l) n v.1 r
      | .right => rebalance side .right (avlInsert side m e r) n v.1 l

variable {side : D → Dir} {d : Dir} {m n : ℕ} {e x : D} {t a b : BinTree (D × ℤ)}

theorem avlInsert_mk {v : D × ℤ} (h : side v.1 = d) :
    avlInsert side m e (mk d a n v b) = rebalance side d (avlInsert side m e a) n v.1 b := by
  cases d <;> simp [mk, avlInsert, h]

theorem avlInsert_node {l r : BinTree (D × ℤ)} {v : D × ℤ} (h : side v.1 = d) :
    avlInsert side m e (node l n v r) =
      rebalance side d (avlInsert side m e (sub d l r)) n v.1 (sub d.flip l r) := by
  rw [node_eq_mk d, avlInsert_mk h]

theorem records_rebalance : (rebalance side d a n x b).records = (joinMk d a n x b).records := by
  unfold rebalance
  split
  · exact records_rotate ..
  · rfl

/-- The new data goes between the data that the key lies to the right of and the data it lies to the
    left of. -/
theorem records_avlInsert {bs as : List (ℕ × D)} (h : t.records = bs ++ as)
    (hb : ∀ x ∈ bs, side x.2 = .right) (ha : ∀ x ∈ as, side x.2 = .left) :
    (avlInsert side m e t).records = bs ++ (m, e) :: as := by
  induction t generalizing bs as with
  | nil =>
      obtain ⟨rfl, rfl⟩ := List.append_eq_nil_iff.1 h.symm
      simp [avlInsert]
  | node l n v r ihl ihr =>
      rw [records_node] at h
      rcases hside : side v.1 with _ | _
      · -- the node is among those after the key
        rw [avlInsert_node hside, records_rebalance, records_joinMk_left]
        rcases List.append_eq_append_iff.1 h with ⟨c, rfl, hc⟩ | ⟨c, hl, rfl⟩
        · cases c with
          | nil =>
              simp only [List.append_nil, List.nil_append] at hc hb ⊢
              have hl := ihl (List.append_nil l.records).symm hb (by simp)
              rw [sub_left, hl, ← hc]
              simp
          | cons y c =>
              obtain ⟨rfl, -⟩ := List.cons.inj hc
              exact absurd (hb (n, v.1) (by simp)) (by simp [hside])
        · rw [sub_left, ihl hl hb fun y hy => ha y (by simp [hy])]
          simp
      · -- the node is among those before the key
        rw [avlInsert_node hside, records_rebalance, records_joinMk_right]
        rcases List.append_eq_append_iff.1 h with ⟨c, rfl, hc⟩ | ⟨c, hl, rfl⟩
        · cases c with
          | nil =>
              simp only [List.nil_append] at hc
              exact absurd (ha (n, v.1) (by simp [← hc])) (by simp [hside])
          | cons y c =>
              obtain ⟨rfl, hr⟩ := List.cons.inj hc
              rw [sub_right, ihr hr (fun y hy => hb y (by simp [hy])) ha]
              simp
        · cases c with
          | nil => exact absurd (ha (n, v.1) (by simp)) (by simp [hside])
          | cons y c => exact absurd (ha (n, v.1) (by simp)) (by simp [hside])

theorem addrs_avlInsert_perm : (avlInsert side m e t).addrs.Perm (m :: t.addrs) := by
  induction t with
  | nil => simp [avlInsert, join]
  | node l n v r ihl ihr =>
      rw [addrs_node, ← map_fst_records]
      rcases hside : side v.1 with _ | _
      · rw [avlInsert_node hside, records_rebalance, records_joinMk_left, List.map_append,
          map_fst_records, ← List.cons_append]
        exact ihl.append (by simp [map_fst_records])
      · rw [avlInsert_node hside, records_rebalance, records_joinMk_right, List.map_append,
          List.map_cons, map_fst_records, map_fst_records]
        exact ((ihr.cons n).trans (.swap ..)).append_left l.addrs |>.trans List.perm_middle

theorem mem_avlInsert {y : ℕ} : y ∈ avlInsert side m e t ↔ y = m ∨ y ∈ t := by
  rw [← mem_addrs, addrs_avlInsert_perm.mem_iff, List.mem_cons, mem_addrs]

theorem distinct_avlInsert (hm : m ∉ t) (h : t.Distinct) : (avlInsert side m e t).Distinct :=
  addrs_avlInsert_perm.nodup_iff.2 (List.nodup_cons.2 ⟨hm, h⟩)

theorem measured_avlInsert (h : t.Measured) : (avlInsert side m e t).Measured := by
  induction t with
  | nil => simp [avlInsert, join, Measured]
  | node l n v r ihl ihr =>
      obtain ⟨-, hl, hr⟩ := h
      have hgrown : ∀ d, (avlInsert side m e (sub d l r)).Measured := by
        intro d
        cases d
        · exact ihl hl
        · exact ihr hr
      rw [avlInsert_node rfl]
      unfold rebalance
      split
      · exact measured_rotate (hgrown _) (measured_sub hl hr)
      · simp [hgrown, measured_sub hl hr]

/-- The path of the key meets only nodes whose subtrees are equally deep: the insertion will make
    the tree deeper. -/
def Grows (side : D → Dir) : BinTree (D × ℤ) → Prop
  | nil => True
  | node l _ v r =>
      l.depth = r.depth ∧
        match side v.1 with
        | .left => Grows side l
        | .right => Grows side r

theorem grows_mk {v : D × ℤ} (h : side v.1 = d) :
    Grows side (mk d a n v b) ↔ a.depth = b.depth ∧ Grows side a := by
  cases d <;> simp [mk, Grows, h, eq_comm]

/-- `t'` is a balanced tree that is as deep as `t`, or deeper by one if `t` grows; it then has kept
    its root, and is deeper on the side of the key. -/
def Grown (side : D → Dir) (t t' : BinTree (D × ℤ)) : Prop :=
  t'.Balanced ∧ (¬ Grows side t ∧ t'.depth = t.depth ∨ Grows side t ∧ t'.depth = t.depth + 1 ∧
    ∀ d a n v b, t = mk d a n v b → side v.1 = d →
      ∃ a', t' = joinMk d a' n v.1 b ∧ a'.depth = b.depth + 1)

theorem mk_inj {V : Type} {d : Dir} {a a' b b' : BinTree V} {n n' : ℕ} {v v' : V} :
    mk d a n v b = mk d a' n' v' b' ↔ a = a' ∧ n = n' ∧ v = v' ∧ b = b' := by
  cases d
  · exact ⟨fun h => by simpa [mk] using h, fun h => by simp [h]⟩
  · rw [mk, mk, node.injEq]
    tauto

theorem mk_root_inj {V : Type} {d d' : Dir} {a a' b b' : BinTree V} {n n' : ℕ} {v v' : V}
    (h : mk d a n v b = mk d' a' n' v' b') : n = n' ∧ v = v' := by
  cases d <;> cases d' <;> cases h <;> exact ⟨rfl, rfl⟩

/-- One step back up: a grown subtree is put back. -/
theorem grown_rebalance {a' : BinTree (D × ℤ)} {v : D × ℤ} (hside : side v.1 = d)
    (hbal : (mk d a n v b).Balanced) (ha : Grown side a a') :
    Grown side (mk d a n v b) (rebalance side d a' n v.1 b) := by
  obtain ⟨hab, hba, -, hb⟩ := balanced_mk.1 hbal
  obtain ⟨ha', hdepth⟩ := ha
  have hmk : (mk d a n v b).depth = max a.depth b.depth + 1 := depth_mk ..
  unfold rebalance
  by_cases hrot : a'.depth = b.depth + 2
  · rw [if_pos hrot]
    rcases hdepth with ⟨-, hdepth⟩ | ⟨-, hdepth, hroot⟩
    · omega
    have hgrows : ¬ Grows side (mk d a n v b) := by
      rw [grows_mk hside]
      omega
    cases a with
    | nil =>
        simp only [depth_nil] at hdepth
        omega
    | node l k u r =>
        obtain ⟨p, rfl, hpq⟩ := hroot (side u.1) _ k u _ (node_eq_mk _ l k u r) rfl
        generalize sub (side u.1).flip l r = q at *
        rw [depth_joinMk] at hdepth hrot
        obtain ⟨-, -, hp, hq⟩ := balanced_joinMk.1 ha'
        by_cases hd : side u.1 = d
        · -- single rotation
          rw [hd, joinMk, rotate_outer hd]
          refine ⟨?_, .inl ⟨hgrows, ?_⟩⟩
          · simp only [balanced_joinMk, depth_joinMk, hp, hq, hb, true_and, and_true]
            omega
          · simp only [depth_joinMk, hmk]
            omega
        · -- double rotation
          have hflip : side u.1 = d.flip := by
            rcases hu : side u.1 with _ | _ <;> cases d <;> simp_all
          cases p with
          | nil => simp at hpq
          | node l' j w r' =>
              rw [node_eq_mk d l'] at hp hpq hdepth hrot ⊢
              rw [hflip, joinMk, mk_flip, rotate_inner hflip]
              obtain ⟨h₁₂, h₂₁, h₁, h₂⟩ := balanced_mk.1 hp
              rw [depth_mk] at hpq hdepth hrot
              refine ⟨?_, .inl ⟨hgrows, ?_⟩⟩
              · simp only [balanced_joinMk, depth_joinMk, h₁, h₂, hq, hb, and_true]
                omega
              · simp only [depth_joinMk, hmk]
                omega
  · rw [if_neg hrot]
    refine ⟨?_, ?_⟩
    · simp only [balanced_joinMk, ha', hb, and_true]
      omega
    · simp only [depth_joinMk, hmk, grows_mk hside]
      rcases hdepth with ⟨hgrows, hdepth⟩ | ⟨hgrows, hdepth, -⟩
      · exact .inl ⟨fun h => hgrows h.2, by omega⟩
      by_cases hab' : a.depth = b.depth
      · refine .inr ⟨⟨hab', hgrows⟩, by omega, fun d₁ a₁ n₁ v₁ b₁ heq hside₁ => ?_⟩
        obtain ⟨rfl, rfl⟩ : n = n₁ ∧ v = v₁ := mk_root_inj heq
        obtain rfl : d = d₁ := hside.symm.trans hside₁
        obtain ⟨-, -, -, rfl⟩ := mk_inj.1 heq
        exact ⟨a', rfl, by omega⟩
      · exact .inl ⟨fun h => hab' h.1, by omega⟩

theorem grown_avlInsert (side : D → Dir) (m : ℕ) (e : D) (h : t.Balanced) :
    Grown side t (avlInsert side m e t) := by
  induction t with
  | nil =>
      refine ⟨by simp [avlInsert, join, Balanced], .inr ⟨trivial, rfl, ?_⟩⟩
      intro d a n v b heq
      cases d <;> cases heq
  | node l n v r ihl ihr =>
      rw [avlInsert_node rfl]
      rw [node_eq_mk (side v.1)] at h ⊢
      refine grown_rebalance rfl h ?_
      have hsub := (balanced_mk.1 h).2.2.1
      cases hside : side v.1 <;> rw [hside] at hsub
      · exact ihl hsub
      · exact ihr hsub

theorem balanced_avlInsert (h : t.Balanced) : (avlInsert side m e t).Balanced :=
  (grown_avlInsert side m e h).1

end StructLib.BinTree
