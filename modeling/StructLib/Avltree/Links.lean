import StructLib.Avltree.Layout

set_option autoImplicit false

/-! # Links and heights

A removal leaves parent links and heights as they happen to be, so what it leaves in memory is no
tree in the layout `avlLayout`. Here a memory is seen as two maps: `links` has the contents and the
two child links of every node, `heights` its stored height. What the rotations do to these two is
said for any memory, also for one in which the child links form no tree. -/

namespace StructLib.Avl

open BinTree

/-- The contents and the child links of a node. -/
abbrev LinkCell := Payload × Ptr × Ptr

def AvlEntry.payload (r : AvlEntry) : Payload :=
  { minKey := r.minKey, maxKey := r.maxKey, balanceFactor := r.balanceFactor, dataLen := r.dataLen,
    data := r.data }

def links (h : Cells AvlEntry) : Cells LinkCell := fun n =>
  (h n).map fun r => (r.payload, r.left, r.right)

def heights (h : Cells AvlEntry) : ℕ → ℤ := fun n => ((h n).map (·.height)).getD 0

/-- `GetHeight`, the stored heights being `hs`. -/
def topHeight (hs : ℕ → ℤ) : Ptr → ℤ
  | none => -1
  | some n => hs n

@[simp] theorem topHeight_none (hs : ℕ → ℤ) : topHeight hs none = -1 := rfl

@[simp] theorem topHeight_some (hs : ℕ → ℤ) (n : ℕ) : topHeight hs (some n) = hs n := rfl

theorem topHeight_update {hs : ℕ → ℤ} {n : ℕ} {k : ℤ} {p : Ptr} (h : p ≠ some n) :
    topHeight (Function.update hs n k) p = topHeight hs p := by
  cases p with
  | none => rfl
  | some m => exact Function.update_of_ne (fun heq => h (congrArg some heq)) _ _

/-- Trees as their child links lie in memory; a link to the parent does not matter. -/
def linkLayout : Layout Payload LinkCell := ⟨fun v l r _ => (v, l, r)⟩

@[simp] theorem linkLayout_cell (v : Payload) (l r p : Ptr) : linkLayout.cell v l r p = (v, l, r) :=
  rfl

/-- The tree without its heights. -/
def strip : Tree → BinTree Payload
  | nil => nil
  | node l n v r => node (strip l) n v.1 (strip r)

@[simp] theorem strip_nil : strip nil = nil := rfl

@[simp] theorem strip_node (l : Tree) (n : ℕ) (v : Payload × ℤ) (r : Tree) :
    strip (node l n v r) = node (strip l) n v.1 (strip r) := rfl

@[simp] theorem root_strip (t : Tree) : (strip t).root = t.root := by cases t <;> rfl

@[simp] theorem entries_strip (t : Tree) : (strip t).entries = t.records := by
  induction t with
  | nil => rfl
  | node l n v r ihl ihr => simp [ihl, ihr]

@[simp] theorem addrs_strip (t : Tree) : (strip t).addrs = t.addrs := by
  rw [addrs, entries_strip, map_fst_records]

@[simp] theorem mem_strip {t : Tree} {n : ℕ} : n ∈ strip t ↔ n ∈ t := by
  rw [← mem_addrs, ← mem_addrs, addrs_strip]

@[simp] theorem depth_strip (t : Tree) : (strip t).depth = t.depth := by
  induction t with
  | nil => rfl
  | node l n v r ihl ihr => simp [ihl, ihr]

section Views

variable {s : AvlMem} {n : ℕ} {p q : Ptr} {v : Payload} {l r : Ptr} {k : ℤ} {t : Tree}

theorem links_eq_some {h : Cells AvlEntry} :
    links h n = some (v, l, r) ↔ ∃ p, h n = some (avlCell v (heights h n) l r p) := by
  constructor
  · intro hn
    obtain ⟨c, hc, hcell⟩ := Option.map_eq_some_iff.1 hn
    obtain ⟨rfl, rfl, rfl⟩ : c.payload = v ∧ c.left = l ∧ c.right = r := by simpa using hcell
    exact ⟨c.parent, by simp [heights, hc, avlCell, AvlEntry.payload]⟩
  · rintro ⟨p, hp⟩
    simp [links, hp, AvlEntry.payload]

theorem links_ne_none {h : Cells AvlEntry} : links h n ≠ none ↔ h n ≠ none := by
  simp [links]

theorem links_congr {h h' : Cells AvlEntry} (heq : h n = h' n) : links h n = links h' n := by
  rw [links, links, heq]

theorem heights_congr {h h' : Cells AvlEntry} (heq : h n = h' n) : heights h n = heights h' n := by
  rw [heights, heights, heq]

/-- A tree in the layout with parent links and heights. -/
theorem treeAt_links {h : Cells AvlEntry} (ht : avlLayout.TreeAt h p t) :
    linkLayout.TreeAt (links h) q (strip t) := by
  induction t generalizing p q with
  | nil => trivial
  | node l n v r ihl ihr =>
      obtain ⟨hn, hl, hr⟩ := ht
      refine ⟨?_, ihl hl, ihr hr⟩
      simp [links, hn, AvlEntry.payload]

theorem topHeight_root {h : Cells AvlEntry} (ht : avlLayout.TreeAt h p t) (hm : t.Measured) :
    topHeight (heights h) t.root = (t.depth : ℤ) - 1 := by
  cases t with
  | nil => rfl
  | node l n v r => simp [heights, ht.1, hm.1]

/-! ## Accesses -/

theorem run_modifyEntry_of {f : AvlEntry → AvlEntry} {c : AvlEntry} (hc : s.heap n = some c) :
    (modifyEntry (some n) f).run s =
      .ok ((), { s with heap := Function.update s.heap n (some (f c)) }) := by
  simp only [run_modifyEntry, atEntry, hc]

theorem run_load_links (hn : links s.heap n = some (v, l, r)) :
    ∃ c, (load (some n)).run s = .ok (c, s) ∧ c.payload = v ∧ c.left = l ∧ c.right = r ∧
      c.height = heights s.heap n := by
  obtain ⟨p, hp⟩ := links_eq_some.1 hn
  refine ⟨avlCell v (heights s.heap n) l r p, ?_, rfl, rfl, rfl, rfl⟩
  simp only [run_load, atEntry, hp]

theorem run_getHeight_links (hp : ∀ n, p = some n → links s.heap n ≠ none) :
    (getHeight p).run s = .ok (topHeight (heights s.heap) p, s) := by
  cases p with
  | none => rfl
  | some n =>
      obtain ⟨c, hc⟩ := Option.ne_none_iff_exists'.1 (links_ne_none.1 (hp n rfl))
      simp [getHeight, run_load, atEntry, hc, heights]

theorem run_setParent_links (hn : links s.heap n ≠ none) :
    ∃ h, (setParent (some n) q).run s = .ok ((), { s with heap := h }) ∧
      links h = links s.heap ∧ heights h = heights s.heap ∧ ∀ x, x ≠ n → h x = s.heap x := by
  obtain ⟨c, hc⟩ := Option.ne_none_iff_exists'.1 (links_ne_none.1 hn)
  refine ⟨_, run_modifyEntry_of hc, funext fun m => ?_, funext fun m => ?_,
    fun x hx => Function.update_of_ne hx ..⟩
  · by_cases hmn : m = n
    · subst hmn
      simp [links, hc, AvlEntry.payload]
    · simp [links, hmn]
  · by_cases hmn : m = n
    · subst hmn
      simp [heights, hc]
    · simp [heights, hmn]

theorem run_setHeight_links (hn : links s.heap n ≠ none) :
    ∃ h, (setHeight (some n) k).run s = .ok ((), { s with heap := h }) ∧
      links h = links s.heap ∧ heights h = Function.update (heights s.heap) n k ∧
      ∀ x, x ≠ n → h x = s.heap x := by
  obtain ⟨c, hc⟩ := Option.ne_none_iff_exists'.1 (links_ne_none.1 hn)
  refine ⟨_, run_modifyEntry_of hc, funext fun m => ?_, funext fun m => ?_,
    fun x hx => Function.update_of_ne hx ..⟩
  · by_cases hmn : m = n
    · subst hmn
      simp [links, hc, AvlEntry.payload]
    · simp [links, hmn]
  · by_cases hmn : m = n
    · subst hmn
      simp [heights]
    · simp [heights, hmn]

/-- The links of a node after an assignment to the one on the side `d`. -/
def setLink (d : Dir) (q : Ptr) (c : LinkCell) : LinkCell :=
  match d with
  | .left => (c.1, q, c.2.2)
  | .right => (c.1, c.2.1, q)

theorem run_setChild_links {d : Dir} {c : LinkCell} (hn : links s.heap n = some c) :
    ∃ h, (setChild d (some n) q).run s = .ok ((), { s with heap := h }) ∧
      links h = Function.update (links s.heap) n (some (setLink d q c)) ∧
      heights h = heights s.heap ∧ ∀ x, x ≠ n → h x = s.heap x := by
  obtain ⟨r, hr, rfl⟩ := Option.map_eq_some_iff.1 hn
  refine ⟨_, run_modifyEntry_of hr, funext fun m => ?_, funext fun m => ?_,
    fun x hx => Function.update_of_ne hx ..⟩
  · by_cases hmn : m = n
    · subst hmn
      simp only [links, Function.update_self]
      cases d <;> rfl
    · simp [links, hmn]
  · by_cases hmn : m = n
    · subst hmn
      simp only [heights, Function.update_self, hr]
      cases d <;> rfl
    · simp [heights, hmn]

theorem run_adopt_links (hp : ∀ n, p = some n → links s.heap n ≠ none) :
    ∃ h, (adopt p q).run s = .ok ((), { s with heap := h }) ∧
      links h = links s.heap ∧ heights h = heights s.heap ∧ ∀ x, p ≠ some x → h x = s.heap x := by
  cases p with
  | none => exact ⟨s.heap, rfl, rfl, rfl, fun _ _ => rfl⟩
  | some n =>
      obtain ⟨h, hrun, hl, hh, hsame⟩ := run_setParent_links (q := q) (hp n rfl)
      exact ⟨h, hrun, hl, hh, fun x hx => hsame x fun heq => hx (congrArg some heq.symm)⟩

end Views

/-! ## Rotations -/

section Rotations

variable {s : AvlMem} {m n : ℕ} {x y : Payload} {a b c : Ptr}

/-- A link to a node in memory other than `n` and `m`, or NULL. -/
def Elsewhere (h : Cells AvlEntry) (n m : ℕ) (p : Ptr) : Prop :=
  ∀ k, p = some k → links h k ≠ none ∧ k ≠ n ∧ k ≠ m

theorem Elsewhere.ne {h : Cells AvlEntry} {p : Ptr} (hp : Elsewhere h n m p) :
    p ≠ some n ∧ p ≠ some m :=
  ⟨fun heq => (hp n heq).2.1 rfl, fun heq => (hp m heq).2.2 rfl⟩

theorem Elsewhere.live {h : Cells AvlEntry} {p : Ptr} (hp : Elsewhere h n m p) :
    ∀ k, p = some k → links h k ≠ none := fun k hk => (hp k hk).1

/-- A link to a node in memory other than `n`, or NULL. -/
def Beside (h : Cells AvlEntry) (n : ℕ) (p : Ptr) : Prop :=
  ∀ k, p = some k → links h k ≠ none ∧ k ≠ n

theorem Elsewhere.beside {h : Cells AvlEntry} {p : Ptr} (hp : Elsewhere h n m p) : Beside h n p :=
  fun k hk => ⟨(hp k hk).1, (hp k hk).2.1⟩

theorem Beside.ne {h : Cells AvlEntry} {p : Ptr} (hp : Beside h n p) : p ≠ some n :=
  fun heq => (hp n heq).2 rfl

/-- A node with the links `p` on the side `d` and `q` on the other. -/
def sideCell (d : Dir) (v : Payload) (p q : Ptr) : LinkCell := linkLayout.cellOf d v p q none

theorem setLink_sideCell (d : Dir) (v : Payload) (p p' q : Ptr) :
    setLink d p' (sideCell d v p q) = sideCell d v p' q := by cases d <;> rfl

theorem setLink_flip_sideCell (d : Dir) (v : Payload) (p q q' : Ptr) :
    setLink d.flip q' (sideCell d v p q) = sideCell d v p q' := by cases d <;> rfl

theorem run_load_sideCell {d : Dir} {p q : Ptr} (hn : links s.heap n = some (sideCell d x p q)) :
    ∃ r, (load (some n)).run s = .ok (r, s) ∧ r.child d = p ∧ r.child d.flip = q ∧
      r.height = heights s.heap n := by
  cases d
  · obtain ⟨r, hload, -, hl, hr, hheight⟩ := run_load_links hn
    exact ⟨r, hload, hl, hr, hheight⟩
  · obtain ⟨r, hload, -, hl, hr, hheight⟩ := run_load_links hn
    exact ⟨r, hload, hr, hl, hheight⟩

theorem run_heightOfChildren_links {d : Dir} (hn : links s.heap n = some (sideCell d x b c))
    (hb : ∀ k, b = some k → links s.heap k ≠ none) (hc : ∀ k, c = some k → links s.heap k ≠ none) :
    (heightOfChildren (some n)).run s =
      .ok (max (topHeight (heights s.heap) b) (topHeight (heights s.heap) c) + 1, s) := by
  unfold heightOfChildren
  cases d
  · obtain ⟨r, hload, -, hl, hr, -⟩ := run_load_links hn
    rw [Exec.run_bind_of_ok hload, hl, Exec.run_bind_of_ok (run_getHeight_links hb),
      Exec.run_bind_of_ok hload, hr, Exec.run_bind_of_ok (run_getHeight_links hc)]
    rfl
  · obtain ⟨r, hload, -, hl, hr, -⟩ := run_load_links hn
    rw [Exec.run_bind_of_ok hload, hl, Exec.run_bind_of_ok (run_getHeight_links hc),
      Exec.run_bind_of_ok hload, hr, Exec.run_bind_of_ok (run_getHeight_links hb), Int.max_comm]
    rfl

/-- The heights that a rotation stores: the old root `n` has the subtrees at `b` and `c`, the new
    root `m` has kept the one at `a`. -/
theorem run_setRotatedHeights_links {d : Dir} {e : Ptr}
    (hn : links s.heap n = some (sideCell d x b c)) (hm : links s.heap m = some (sideCell d y a e))
    (ha : Beside s.heap n a) (hb : ∀ k, b = some k → links s.heap k ≠ none)
    (hc : ∀ k, c = some k → links s.heap k ≠ none) :
    ∃ h, (setRotatedHeights (·.child d) (some n) (some m)).run s = .ok ((), { s with heap := h }) ∧
      links h = links s.heap ∧ heights h = Function.update (Function.update (heights s.heap) n
        (max (topHeight (heights s.heap) b) (topHeight (heights s.heap) c) + 1)) m
        (max (topHeight (heights s.heap) a)
          (max (topHeight (heights s.heap) b) (topHeight (heights s.heap) c) + 1) + 1) ∧
      ∀ k, k ≠ n → k ≠ m → h k = s.heap k := by
  have hchildren := run_heightOfChildren_links hn hb hc
  obtain ⟨h₁, hrun₁, hl₁, hh₁, hsame₁⟩ := run_setHeight_links
    (k := max (topHeight (heights s.heap) b) (topHeight (heights s.heap) c) + 1)
    (by rw [hn]; simp : links s.heap n ≠ none)
  have hm₁ : links h₁ m = some (sideCell d y a e) := by rw [hl₁, hm]
  have hn₁ : links h₁ n = some (sideCell d x b c) := by rw [hl₁, hn]
  have ha₁ : ∀ k, a = some k → links h₁ k ≠ none := fun k hk => by
    rw [hl₁]
    exact (ha k hk).1
  obtain ⟨cm, hloadm, hma, -⟩ := run_load_sideCell (s := { s with heap := h₁ }) hm₁
  obtain ⟨cn, hloadn, -, -, hheight⟩ := run_load_sideCell (s := { s with heap := h₁ }) hn₁
  have hka : topHeight (heights h₁) a = topHeight (heights s.heap) a := by
    rw [hh₁, topHeight_update ha.ne]
  have hkn : heights h₁ n =
      max (topHeight (heights s.heap) b) (topHeight (heights s.heap) c) + 1 := by
    rw [hh₁, Function.update_self]
  obtain ⟨h₂, hrun₂, hl₂, hh₂, hsame₂⟩ := run_setHeight_links (s := { s with heap := h₁ })
    (k := max (topHeight (heights h₁) a) (heights h₁ n) + 1)
    (by rw [hm₁]; simp : links h₁ m ≠ none)
  refine ⟨h₂, ?_, hl₂.trans hl₁, hh₂.trans ?_, fun k hkn hkm => (hsame₂ k hkm).trans (hsame₁ k hkn)⟩
  · unfold setRotatedHeights
    rw [Exec.run_bind_of_ok hchildren, Exec.run_bind_of_ok hrun₁, Exec.run_bind_of_ok hloadm]
    simp only [hma]
    rw [Exec.run_bind_of_ok (run_getHeight_links ha₁), Exec.run_bind_of_ok hloadn, hheight]
    exact hrun₂
  · rw [hka, hkn]
    exact congrArg (fun hs => Function.update hs m _) hh₁

/-- Both rotations, with the link that the old root gets on the side `d` as a parameter. -/
def rotateWith (d : Dir) (moved : Ptr → Ptr → Exec AvlMem Ptr) (tree : Ptr) : Exec AvlMem Ptr := do
  let root := (← load tree).child d
  setParent root (← load tree).parent
  setParent tree root
  setChild d tree (← moved tree root)
  adopt ((← load tree).child d) tree
  setChild d.flip root tree
  setRotatedHeights (·.child d) tree root
  return root

theorem llRotate_eq : llRotate = rotateWith .left fun _ root => do return (← load root).right := by
  funext tree
  simp [llRotate, rotateWith, AvlEntry.child]

theorem rrRotate_eq : rrRotate = rotateWith .right fun tree _ => do return (← load tree).left := by
  funext tree
  simp [rrRotate, rotateWith, AvlEntry.child]

theorem run_rotateWith_links {d : Dir} {e : Ptr} {moved : Ptr → Ptr → Exec AvlMem Ptr} (hmn : m ≠ n)
    (hn : links s.heap n = some (sideCell d x (some m) c))
    (hm : links s.heap m = some (sideCell d y a e))
    (hmoved : ∀ h, links h = links s.heap → (moved (some n) (some m)).run { s with heap := h } =
      .ok (b, { s with heap := h }))
    (ha : Beside s.heap n a) (hb : ∀ k, b = some k → links s.heap k ≠ none)
    (hc : ∀ k, c = some k → links s.heap k ≠ none) :
    ∃ h, (rotateWith d moved (some n)).run s = .ok (some m, { s with heap := h }) ∧
      links h = Function.update (Function.update (links s.heap) n (some (sideCell d x b c))) m
        (some (sideCell d y a (some n))) ∧
      heights h = Function.update (Function.update (heights s.heap) n
        (max (topHeight (heights s.heap) b) (topHeight (heights s.heap) c) + 1)) m
        (max (topHeight (heights s.heap) a)
          (max (topHeight (heights s.heap) b) (topHeight (heights s.heap) c) + 1) + 1) ∧
      ∀ k, k ≠ n → k ≠ m → b ≠ some k → h k = s.heap k := by
  obtain ⟨cn, hloadn, hcd, -⟩ := run_load_sideCell hn
  -- the parent links
  obtain ⟨h₁, hrun₁, hl₁, hh₁, hsame₁⟩ := run_setParent_links (q := cn.parent)
    (by rw [hm]; simp : links s.heap m ≠ none)
  obtain ⟨h₂, hrun₂, hl₂, hh₂, hsame₂⟩ := run_setParent_links (s := { s with heap := h₁ }) (q := some m)
    (by rw [hl₁, hn]; simp : links h₁ n ≠ none)
  have hl₂' : links h₂ = links s.heap := hl₂.trans hl₁
  -- the child links
  obtain ⟨h₃, hrun₃, hl₃, hh₃, hsame₃⟩ := run_setChild_links (s := { s with heap := h₂ })
    (d := d) (q := b) (by rw [hl₂', hn] : links h₂ n = some (sideCell d x (some m) c))
  rw [setLink_sideCell] at hl₃
  have hn₃ : links h₃ n = some (sideCell d x b c) := by rw [hl₃, Function.update_self]
  have hne₃ : ∀ k, k ≠ n → links h₃ k = links s.heap k := by
    intro k hk
    rw [hl₃, Function.update_of_ne hk]
    exact congrFun hl₂' k
  have hlive₃ : ∀ k, b = some k → links h₃ k ≠ none := by
    intro k hk
    rw [hl₃, hl₂']
    exact update_ne_none (hb k hk)
  obtain ⟨cn', hloadn', hcd', -⟩ := run_load_sideCell (s := { s with heap := h₃ }) hn₃
  obtain ⟨h₄, hrun₄, hl₄, hh₄, hsame₄⟩ := run_adopt_links (s := { s with heap := h₃ }) (p := b)
    (q := some n) hlive₃
  obtain ⟨h₅, hrun₅, hl₅, hh₅, hsame₅⟩ := run_setChild_links (s := { s with heap := h₄ })
    (d := d.flip) (q := some n) (by rw [hl₄, hne₃ m hmn, hm] : links h₄ m = some (sideCell d y a e))
  rw [setLink_flip_sideCell] at hl₅
  have hl₅' : links h₅ = Function.update (Function.update (links s.heap) n
      (some (sideCell d x b c))) m (some (sideCell d y a (some n))) := by
    rw [hl₅, hl₄, hl₃, hl₂']
  have hh₅' : heights h₅ = heights s.heap := hh₅.trans (hh₄.trans (hh₃.trans (hh₂.trans hh₁)))
  have hlive₅ : ∀ k, links s.heap k ≠ none → links h₅ k ≠ none := by
    intro k hk
    rw [hl₅']
    exact update_ne_none (update_ne_none hk)
  -- the heights
  have hn₅ : links h₅ n = some (sideCell d x b c) := by
    rw [hl₅', Function.update_of_ne hmn.symm, Function.update_self]
  have hm₅ : links h₅ m = some (sideCell d y a (some n)) := by rw [hl₅', Function.update_self]
  obtain ⟨h₆, hrun₆, hl₆, hh₆, hsame₆⟩ := run_setRotatedHeights_links (s := { s with heap := h₅ }) hn₅
    hm₅ (fun k hk => ⟨hlive₅ k (ha k hk).1, (ha k hk).2⟩) (fun k hk => hlive₅ k (hb k hk))
    fun k hk => hlive₅ k (hc k hk)
  refine ⟨h₆, ?_, hl₆.trans hl₅', by rw [hh₆]; exact hh₅' ▸ rfl, fun k hkn hkm hkb => ?_⟩
  · unfold rotateWith
    rw [Exec.run_bind_of_ok hloadn, hcd, Exec.run_bind_of_ok hloadn, Exec.run_bind_of_ok hrun₁,
      Exec.run_bind_of_ok hrun₂, Exec.run_bind_of_ok (hmoved h₂ hl₂'), Exec.run_bind_of_ok hrun₃,
      Exec.run_bind_of_ok hloadn', hcd', Exec.run_bind_of_ok hrun₄, Exec.run_bind_of_ok hrun₅,
      Exec.run_bind_of_ok hrun₆]
    rfl
  · exact (hsame₆ k hkn hkm).trans ((hsame₅ k hkm).trans ((hsame₄ k hkb).trans
      ((hsame₃ k hkn).trans ((hsame₂ k hkn).trans (hsame₁ k hkm)))))

/-- `LLRotate` moves the subtree at `b`. -/
theorem run_llRotate_links (hmn : m ≠ n) (hn : links s.heap n = some (x, some m, c))
    (hm : links s.heap m = some (y, a, b)) (ha : Beside s.heap n a)
    (hb : ∀ k, b = some k → links s.heap k ≠ none) (hc : ∀ k, c = some k → links s.heap k ≠ none) :
    ∃ h, (llRotate (some n)).run s = .ok (some m, { s with heap := h }) ∧
      links h = Function.update (Function.update (links s.heap) n (some (x, b, c))) m
        (some (y, a, some n)) ∧
      heights h = Function.update (Function.update (heights s.heap) n
        (max (topHeight (heights s.heap) b) (topHeight (heights s.heap) c) + 1)) m
        (max (topHeight (heights s.heap) a)
          (max (topHeight (heights s.heap) b) (topHeight (heights s.heap) c) + 1) + 1) ∧
      ∀ k, k ≠ n → k ≠ m → b ≠ some k → h k = s.heap k := by
  rw [llRotate_eq]
  refine run_rotateWith_links (d := .left) hmn hn hm (fun h hl => ?_) ha hb hc
  obtain ⟨r, hload, -, -, hr, -⟩ := run_load_links (s := { s with heap := h })
    (by rw [hl, hm] : links h m = some (y, a, b))
  rw [Exec.run_bind_of_ok hload, hr]
  rfl

/-- `RRRotate` drops the subtree at `e`; the one at `c` gets a second link. -/
theorem run_rrRotate_links {e : Ptr} (hmn : m ≠ n) (hn : links s.heap n = some (x, c, some m))
    (hm : links s.heap m = some (y, e, a)) (ha : Beside s.heap n a)
    (hc : ∀ k, c = some k → links s.heap k ≠ none) :
    ∃ h, (rrRotate (some n)).run s = .ok (some m, { s with heap := h }) ∧
      links h = Function.update (Function.update (links s.heap) n (some (x, c, c))) m
        (some (y, some n, a)) ∧
      heights h = Function.update (Function.update (heights s.heap) n
        (topHeight (heights s.heap) c + 1)) m
        (max (topHeight (heights s.heap) a) (topHeight (heights s.heap) c + 1) + 1) ∧
      ∀ k, k ≠ n → k ≠ m → c ≠ some k → h k = s.heap k := by
  rw [rrRotate_eq, ← Int.max_self (topHeight (heights s.heap) c)]
  refine run_rotateWith_links (d := .right) hmn hn hm (fun h hl => ?_) ha hc hc
  obtain ⟨r, hload, -, hr, -⟩ := run_load_links (s := { s with heap := h })
    (by rw [hl, hn] : links h n = some (x, c, some m))
  rw [Exec.run_bind_of_ok hload, hr]
  rfl

/-- `LRRotate` drops the left subtree of the right child; the left subtree of the node takes its
    place there, too. Where the child's right link is to the child itself, the height `k` that is
    read there is not the old one. -/
theorem run_lrRotate_links {e : Ptr} (hmn : m ≠ n) (hn : links s.heap n = some (x, a, some m))
    (hm : links s.heap m = some (y, e, c)) (ha : Elsewhere s.heap n m a) (hc : Beside s.heap n c) :
    ∃ h k, (lrRotate (some n)).run s = .ok (some n, { s with heap := h }) ∧
      links h = Function.update (links s.heap) m (some (y, a, c)) ∧
      (c ≠ some m → k = topHeight (heights s.heap) c) ∧
      heights h n = max (topHeight (heights s.heap) a)
        (max (topHeight (heights s.heap) a) k + 1) + 1 ∧
      heights h m = max (topHeight (heights s.heap) a) k + 1 ∧
      (∀ k, k ≠ n → k ≠ m → heights h k = heights s.heap k) ∧
      ∀ k, k ≠ n → k ≠ m → a ≠ some k → h k = s.heap k := by
  obtain ⟨h₁, hrun₁, hl₁, hh₁, hsame₁⟩ := run_rrRotate_links hmn hn hm hc ha.live
  have hn₁ : links h₁ n = some (x, a, a) := by
    rw [hl₁, Function.update_of_ne hmn.symm, Function.update_self]
  have hm₁ : links h₁ m = some (y, some n, c) := by rw [hl₁, Function.update_self]
  have hlive : ∀ k, links s.heap k ≠ none → links h₁ k ≠ none := by
    intro k hk
    rw [hl₁]
    exact update_ne_none (update_ne_none hk)
  have htopa : topHeight (heights h₁) a = topHeight (heights s.heap) a := by
    rw [hh₁, topHeight_update ha.ne.2, topHeight_update ha.ne.1]
  obtain ⟨h₂, hrun₂, hl₂, hh₂, hsame₂⟩ := run_llRotate_links (s := { s with heap := h₁ }) hmn.symm hm₁
    hn₁ (fun k hk => ⟨hlive k (ha k hk).1, (ha k hk).2.2⟩) (fun k hk => hlive k (ha k hk).1)
    fun k hk => hlive k (hc k hk).1
  change heights h₂ = Function.update (Function.update (heights h₁) m
    (max (topHeight (heights h₁) a) (topHeight (heights h₁) c) + 1)) n
    (max (topHeight (heights h₁) a)
      (max (topHeight (heights h₁) a) (topHeight (heights h₁) c) + 1) + 1) at hh₂
  rw [htopa] at hh₂
  refine ⟨h₂, topHeight (heights h₁) c, ?_, ?_, fun hcm => ?_, ?_, ?_, fun k hkn hkm => ?_,
    fun k hkn hkm hk => (hsame₂ k hkm hkn hk).trans (hsame₁ k hkn hkm hk)⟩
  · unfold lrRotate
    rw [Exec.run_bind_of_ok hrun₁, hrun₂]
  · rw [hl₂, hl₁]
    funext k
    by_cases hkn : k = n
    · subst hkn
      rw [Function.update_self, Function.update_of_ne hmn.symm, hn]
    · by_cases hkm : k = m
      · subst hkm
        simp [hkn]
      · simp [hkn, hkm]
  · rw [hh₁, topHeight_update hcm, topHeight_update hc.ne]
  · rw [hh₂, Function.update_self]
  · rw [hh₂, Function.update_of_ne hmn, Function.update_self]
  · rw [hh₂, hh₁]
    simp [hkn, hkm]

/-- `RLRotate` drops the right subtree of the left child, whose left subtree takes its place. -/
theorem run_rlRotate_links (hmn : m ≠ n) (hn : links s.heap n = some (x, some m, c))
    (hm : links s.heap m = some (y, a, b)) (ha : Elsewhere s.heap n m a)
    (hb : ∀ k, b = some k → links s.heap k ≠ none) (hc : Elsewhere s.heap n m c) :
    ∃ h, (rlRotate (some n)).run s = .ok (some n, { s with heap := h }) ∧
      links h = Function.update (links s.heap) m (some (y, a, a)) ∧
      heights h n = max (topHeight (heights s.heap) c) (topHeight (heights s.heap) a + 1) + 1 ∧
      heights h m = topHeight (heights s.heap) a + 1 ∧
      (∀ k, k ≠ n → k ≠ m → heights h k = heights s.heap k) ∧
      ∀ k, k ≠ n → k ≠ m → a ≠ some k → b ≠ some k → h k = s.heap k := by
  obtain ⟨h₁, hrun₁, hl₁, hh₁, hsame₁⟩ := run_llRotate_links hmn hn hm ha.beside hb hc.live
  have hn₁ : links h₁ n = some (x, b, c) := by
    rw [hl₁, Function.update_of_ne hmn.symm, Function.update_self]
  have hm₁ : links h₁ m = some (y, a, some n) := by rw [hl₁, Function.update_self]
  have helse : ∀ p, Elsewhere s.heap n m p → Elsewhere h₁ m n p := by
    intro p hp k hk
    obtain ⟨hlive, hkn, hkm⟩ := hp k hk
    refine ⟨?_, hkm, hkn⟩
    rw [hl₁, Function.update_of_ne hkm, Function.update_of_ne hkn]
    exact hlive
  have htop : ∀ p, Elsewhere s.heap n m p → topHeight (heights h₁) p = topHeight (heights s.heap) p := by
    intro p hp
    rw [hh₁, topHeight_update hp.ne.2, topHeight_update hp.ne.1]
  obtain ⟨h₂, hrun₂, hl₂, hh₂, hsame₂⟩ := run_rrRotate_links (s := { s with heap := h₁ }) hmn.symm hm₁
    hn₁ (helse c hc).beside (helse a ha).live
  change heights h₂ = Function.update (Function.update (heights h₁) m
    (topHeight (heights h₁) a + 1)) n
    (max (topHeight (heights h₁) c) (topHeight (heights h₁) a + 1) + 1) at hh₂
  rw [htop a ha, htop c hc] at hh₂
  refine ⟨h₂, ?_, ?_, ?_, ?_, fun k hkn hkm => ?_, fun k hkn hkm hka hkb =>
    (hsame₂ k hkm hkn hka).trans (hsame₁ k hkn hkm hkb)⟩
  · unfold rlRotate
    rw [Exec.run_bind_of_ok hrun₁, hrun₂]
  · rw [hl₂, hl₁]
    funext k
    by_cases hkn : k = n
    · subst hkn
      rw [Function.update_self, Function.update_of_ne hmn.symm, hn]
    · by_cases hkm : k = m
      · subst hkm
        simp [hkn]
      · simp [hkn, hkm]
  · rw [hh₂, Function.update_self]
  · rw [hh₂, Function.update_of_ne hmn, Function.update_self]
  · rw [hh₂, hh₁]
    simp [hkn, hkm]

/-- `LRRotate` follows the right link, and `RLRotate` the left one, even when it is NULL. -/
theorem run_lrRotate_none (hn : links s.heap n = some (x, a, none)) :
    (lrRotate (some n)).run s = .error .undef := by
  obtain ⟨r, hload, -, -, hr, -⟩ := run_load_links hn
  unfold lrRotate rrRotate
  simp only [StateT.run_bind, hload, ok_bind, hr]
  rfl

theorem run_rlRotate_none (hn : links s.heap n = some (x, none, c)) :
    (rlRotate (some n)).run s = .error .undef := by
  obtain ⟨r, hload, -, hl, -⟩ := run_load_links hn
  unfold rlRotate llRotate
  simp only [StateT.run_bind, hload, ok_bind, hl]
  rfl

/-! ## Rebalancing -/

theorem run_rebalance_links (hn : links s.heap n = some (x, a, b))
    (ha : ∀ k, a = some k → links s.heap k ≠ none) (hb : ∀ k, b = some k → links s.heap k ≠ none) :
    (rebalanceAvlTree (some n)).run s =
      (if topHeight (heights s.heap) a - topHeight (heights s.heap) b = 2 then
        rotateDeep .left (some n)
      else if topHeight (heights s.heap) a - topHeight (heights s.heap) b = -2 then
        rotateDeep .right (some n)
      else pure (some n)).run s := by
  obtain ⟨r, hload, -, hl, hr, -⟩ := run_load_links hn
  unfold rebalanceAvlTree
  rw [Exec.run_bind_of_ok hload, hl, Exec.run_bind_of_ok (run_getHeight_links ha),
    Exec.run_bind_of_ok hload, hr, Exec.run_bind_of_ok (run_getHeight_links hb)]

theorem run_rotateDeep_links {d : Dir} {e : Ptr}
    (hn : links s.heap n = some (sideCell d x (some m) c))
    (hm : links s.heap m = some (sideCell d y a e)) (ha : ∀ k, a = some k → links s.heap k ≠ none)
    (he : ∀ k, e = some k → links s.heap k ≠ none) :
    (rotateDeep d (some n)).run s =
      (if topHeight (heights s.heap) a > topHeight (heights s.heap) e then rotateOuter d (some n)
      else rotateInner d (some n)).run s := by
  obtain ⟨r, hload, hd, -⟩ := run_load_sideCell hn
  obtain ⟨r', hload', ha', he', -⟩ := run_load_sideCell hm
  unfold rotateDeep
  rw [Exec.run_bind_of_ok hload]
  simp only [hd]
  rw [Exec.run_bind_of_ok hload', ha', Exec.run_bind_of_ok (run_getHeight_links ha),
    Exec.run_bind_of_ok hload', he', Exec.run_bind_of_ok (run_getHeight_links he)]

end Rotations

/-! ## Outermost nodes -/

section Outermost

variable {s : AvlMem} {p : Ptr} {T : BinTree Payload} {d : Dir} {fuel : ℕ}

/-- The walk to the side `d` ends at the last node on that side. -/
theorem run_outermostLoop_links (hT : linkLayout.TreeAt (links s.heap) p T) (hne : T ≠ nil)
    (hfuel : T.depth ≤ fuel) :
    (outermostLoop d fuel T.root).run s = .ok ((T.walk d.flip).head?, s) := by
  induction T using path_induction (fun _ => d) generalizing p fuel with
  | nil => exact absurd rfl hne
  | step d' a n v b hside ih =>
      subst hside
      obtain ⟨hn, ha, -⟩ := linkLayout.treeAt_mk.1 hT
      rw [depth_mk] at hfuel
      obtain ⟨fuel, rfl⟩ := Nat.exists_eq_add_one.2 (Nat.lt_of_lt_of_le (Nat.succ_pos _) hfuel)
      obtain ⟨r, hload, hchild, -⟩ := run_load_sideCell (d := d) (x := v) (p := a.root) (q := b.root) hn
      have hwalk : (mk d a n v b).walk d.flip = a.walk d.flip ++ n :: b.walk d.flip := by
        cases d
        · exact walk_mk_flip .right a n v b
        · exact walk_mk_flip .left a n v b
      rw [outermostLoop, root_mk, Exec.run_bind_of_ok hload, hwalk]
      simp only [hchild]
      cases a with
      | nil =>
          rw [walk_nil]
          rfl
      | node a₁ k u a₂ =>
          have hne' : (node a₁ k u a₂).walk d.flip ≠ [] := by cases d <;> simp [walk, addrs]
          rw [List.head?_append_of_ne_nil _ hne']
          exact ih ha (by simp) (by omega)

theorem run_outermostEntry_links (hT : linkLayout.TreeAt (links s.heap) p T)
    (hfuel : T.depth ≤ fuel) :
    (outermostEntry d fuel T.root).run s = .ok ((T.walk d.flip).head?, s) := by
  cases T with
  | nil =>
      rw [walk_nil]
      rfl
  | node a n v b => exact run_outermostLoop_links hT (by simp) hfuel

end Outermost

end StructLib.Avl
