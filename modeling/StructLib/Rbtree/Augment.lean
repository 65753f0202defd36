import StructLib.Rbtree.Erase
import Mathlib.Order.WithBot
import Mathlib.Order.Bounds.Basic
import Mathlib.Order.MinMax

set_option autoImplicit false

/-! # Trees augmented with a subtree maximum (`RB_DECLARE_CALLBACKS`, `rbtree_test.c`)

Each container caches in `augmented` the greatest `val` of its subtree. The callbacks made by
`RB_DECLARE_CALLBACKS` recompute it from the node's value and what its children have cached, so that
being right is a condition on each node and its children (`MaxExcept`). The callbacks keep it
(`augmentCallbacks_keep`), an insertion that raises the cached values on its way down restores it,
and therefore it holds after any sequence of insertions and erasures (`augmented_max`). -/

namespace StructLib.Rbtree

open BinTree Ctx

/-! ## The code -/

/-- `struct test_node`, the embedded `rb_node` apart. -/
structure TestNode (K V : Type) where
  key : K
  val : V
  augmented : V

section Code

variable {K V : Type} [LinearOrder V]

/-- The container that `rb_entry` finds. -/
def rbEntry (rb : Ptr) : Exec (RbMem (TestNode K V)) (TestNode K V) := do
  let _ ← load rb
  return (← get).data (rb.getD 0)

/-- `node->augmented = augmented`. -/
def setAugmented (rb : Ptr) (augmented : V) : Exec (RbMem (TestNode K V)) Unit := do
  let e ← rbEntry rb
  modify fun s => { s with
    data := Function.update s.data (rb.getD 0) { e with augmented := augmented } }

section Callbacks

variable (rbcompute : Ptr → Exec (RbMem (TestNode K V)) V)

/-- `rbname ## _propagate`. -/
def augmentPropagate : ℕ → Ptr → Ptr → Exec (RbMem (TestNode K V)) Unit
  | 0, _, _ => Exec.outOfFuel
  | fuel + 1, rb, stop => do
      if rb = stop then return
      else
        let augmented ← rbcompute rb
        if (← rbEntry rb).augmented = augmented then return
        else
          setAugmented rb augmented
          augmentPropagate fuel (← rbParent rb) stop

/-- `rbname ## _copy`. -/
def augmentCopy (old new : Ptr) : Exec (RbMem (TestNode K V)) Unit := do
  setAugmented new (← rbEntry old).augmented

/-- `rbname ## _rotate`. -/
def augmentRotate (old new : Ptr) : Exec (RbMem (TestNode K V)) Unit := do
  setAugmented new (← rbEntry old).augmented
  setAugmented old (← rbcompute old)

def rbDeclareCallbacks : RbAugmentCallbacks (TestNode K V) :=
  ⟨augmentPropagate rbcompute, augmentCopy, augmentRotate rbcompute⟩

end Callbacks

/-- `if (child) { if (max < child->augmented) max = child->augmented; }`. -/
def augmentMax (max : V) (child : Ptr) : Exec (RbMem (TestNode K V)) V := do
  if child.isSome then
    let childAugmented := (← rbEntry child).augmented
    return if max < childAugmented then childAugmented else max
  else return max

def augmentRecompute (node : Ptr) : Exec (RbMem (TestNode K V)) V := do
  let max := (← rbEntry node).val
  let max ← augmentMax max (← rbChild .left node)
  augmentMax max (← rbChild .right node)

def augmentCallbacks : RbAugmentCallbacks (TestNode K V) := rbDeclareCallbacks augmentRecompute

/-- `if (parent->augmented < val) parent->augmented = val`. -/
def augmentRaise (parent : Ptr) (val : V) : Exec (RbMem (TestNode K V)) Unit := do
  if (← rbEntry parent).augmented < val then setAugmented parent val

/-- The descent of `insert_augmented`. `before` says whether to go left of a node; in the test it
    compares the keys. The result is `new` and `rb_parent`. -/
def augmentDescend (before : ℕ → TestNode K V → Bool) (val : V) :
    ℕ → RbLink → Ptr → Exec (RbMem (TestNode K V)) (RbLink × Ptr)
  | 0, _, _ => Exec.outOfFuel
  | fuel + 1, new, rbParent => do
      let parent ← new.read
      if parent.isSome then
        augmentRaise parent val
        if before (parent.getD 0) (← rbEntry parent) then
          augmentDescend before val fuel (.child parent .left) parent
        else augmentDescend before val fuel (.child parent .right) parent
      else return (new, rbParent)

def insertAugmented (before : ℕ → TestNode K V → Bool) (fuel : ℕ) (node : Ptr) :
    Exec (RbMem (TestNode K V)) Unit := do
  let val := (← rbEntry node).val
  let (new, rbParent) ← augmentDescend before val fuel .root none
  setAugmented node val
  rbLinkNode node rbParent new
  rbInsert augmentCallbacks.rotate fuel node

def eraseAugmented (fuel : ℕ) (node : Ptr) : Exec (RbMem (TestNode K V)) Unit :=
  rbEraseAugmented augmentCallbacks fuel node

end Code

section Access

variable {K V : Type} {s : RbMem (TestNode K V)} {data : ℕ → TestNode K V} {m n : ℕ} {v : V}

/-- The containers once `n` has cached `v`. -/
def cache (data : ℕ → TestNode K V) (n : ℕ) (v : V) : ℕ → TestNode K V :=
  Function.update data n { data n with augmented := v }

@[simp] theorem cache_self : (cache data n v n).augmented = v := by simp [cache]

theorem cache_of_ne (h : m ≠ n) : cache data n v m = data m := Function.update_of_ne h _ _

theorem cache_same (h : (data n).augmented = v) : cache data n v = data := by
  subst h
  exact Function.update_eq_self n data

@[simp] theorem cache_val : (cache data n v m).val = (data m).val := by
  by_cases h : m = n
  · subst h
    simp [cache]
  · rw [cache_of_ne h]

theorem run_rbEntry (hn : s.node n ≠ none) : (rbEntry (some n)).run s = .ok (s.data n, s) := by
  obtain ⟨r, hr⟩ := Option.ne_none_iff_exists'.1 hn
  simp [rbEntry, StateT.run_bind, run_load, atNode, hr]

theorem run_setAugmented (hn : s.node n ≠ none) : (setAugmented (some n) v).run s =
    .ok ((), { s with data := cache s.data n v }) := by
  rw [setAugmented, Exec.run_bind_of_ok (run_rbEntry hn)]
  rfl

end Access

/-! ## Cached maxima -/

section Max

variable {K V : Type}

/-- What the node at `p` has cached, nothing for NULL. -/
def cached (data : ℕ → TestNode K V) (p : Ptr) : WithBot V :=
  match p with
  | none => ⊥
  | some n => (data n).augmented

variable {data data' : ℕ → TestNode K V} {X Y : List Ptr} {t a b : BinTree Color} {fs : Ctx Color}
  {n : ℕ} {x y z : WithBot V}

@[simp] theorem cached_none : cached data none = ⊥ := rfl

@[simp] theorem cached_some : cached data (some n) = ((data n).augmented : WithBot V) := rfl

theorem cached_congr (hdata : ∀ m ∈ t, data' m = data m) :
    cached data' t.root = cached data t.root := by
  cases t with
  | nil => rfl
  | node l m c r => simp [hdata m (by simp)]

variable [LinearOrder V]

/-- The cached value of `n` is right if those of its children are `x` and `y`. -/
def MaxOf (data : ℕ → TestNode K V) (n : ℕ) (x y : WithBot V) : Prop :=
  ((data n).augmented : WithBot V) = max ((data n).val : WithBot V) (max x y)

/-- Every node but those in `X` has cached the maximum of its value and what its children have
    cached. -/
def MaxExcept (X : List Ptr) (data : ℕ → TestNode K V) : BinTree Color → Prop
  | .nil => True
  | .node l n _ r => (some n ∉ X → MaxOf data n (cached data l.root) (cached data r.root)) ∧
      MaxExcept X data l ∧ MaxExcept X data r

/-- The same of a tree with a hole whose filling has cached `x`. -/
def MaxExceptCtx (X : List Ptr) (data : ℕ → TestNode K V) (x : WithBot V) : Ctx Color → Prop
  | .root => True
  | .up _ n _ sib fs => (some n ∉ X → MaxOf data n x (cached data sib.root)) ∧
      MaxExcept X data sib ∧ MaxExceptCtx X data (data n).augmented fs

theorem MaxOf.comm : MaxOf data n x y ↔ MaxOf data n y x := by
  rw [MaxOf, MaxOf, max_comm x y]

@[simp] theorem maxExcept_nil : MaxExcept X data .nil := trivial

@[simp] theorem maxExcept_mk {d : Dir} {c : Color} : MaxExcept X data (mk d a n c b) ↔
    (some n ∉ X → MaxOf data n (cached data a.root) (cached data b.root)) ∧
      MaxExcept X data a ∧ MaxExcept X data b := by
  cases d
  · rfl
  · rw [mk, MaxExcept, MaxOf.comm]
    tauto

@[simp] theorem maxExceptCtx_root : MaxExceptCtx X data x .root := trivial

@[simp] theorem maxExceptCtx_up {d : Dir} {c : Color} {sib : BinTree Color} :
    MaxExceptCtx X data x (.up d n c sib fs) ↔
      (some n ∉ X → MaxOf data n x (cached data sib.root)) ∧ MaxExcept X data sib ∧
        MaxExceptCtx X data (data n).augmented fs := Iff.rfl

theorem maxExcept_plug : MaxExcept X data (fs.plug t) ↔
    MaxExcept X data t ∧ MaxExceptCtx X data (cached data t.root) fs := by
  induction fs generalizing t with
  | root => simp
  | up d n c sib fs ih =>
      rw [plug_up, ih, maxExcept_mk, maxExceptCtx_up, root_mk, cached_some]
      tauto

theorem maxExcept_recolor {t t' : BinTree Color} (h : t.shape = t'.shape) :
    MaxExcept X data t → MaxExcept X data t' := by
  induction t generalizing t' with
  | nil =>
      cases t' with
      | nil => exact id
      | node => cases h
  | node l n c r ihl ihr =>
      cases t' with
      | nil => cases h
      | node l' n' c' r' =>
          obtain ⟨hl, rfl, -, hr⟩ : l.shape = l'.shape ∧ n = n' ∧ True ∧ r.shape = r'.shape := by
            simpa [shape] using h
          rintro ⟨hn, hl', hr'⟩
          refine ⟨?_, ihl hl hl', ihr hr hr'⟩
          rwa [← root_shape l', ← root_shape r', ← hl, ← hr, root_shape, root_shape]

/-- A tree sees its own nodes only. -/
theorem MaxExcept.congr (h : MaxExcept X data t) (hdata : ∀ m ∈ t, data' m = data m)
    (hX : ∀ m ∈ t, some m ∈ X → some m ∈ Y) : MaxExcept Y data' t := by
  induction t with
  | nil => trivial
  | node l n c r ihl ihr =>
      obtain ⟨hn, hl, hr⟩ := h
      have hdl : ∀ m ∈ l, data' m = data m := fun m hm => hdata m (by simp [hm])
      have hdr : ∀ m ∈ r, data' m = data m := fun m hm => hdata m (by simp [hm])
      refine ⟨fun hnY => ?_, ihl hl hdl fun m hm => hX m (by simp [hm]),
        ihr hr hdr fun m hm => hX m (by simp [hm])⟩
      rw [MaxOf, hdata n (by simp), cached_congr hdl, cached_congr hdr]
      exact hn fun hnX => hnY (hX n (by simp) hnX)

/-- A context sees its own nodes and what is cached in the hole; the latter only at the hole's
    parent. -/
theorem MaxExceptCtx.congr (h : MaxExceptCtx X data x fs) (hdata : ∀ m ∈ fs, data' m = data m)
    (hX : ∀ m ∈ fs, some m ∈ X → some m ∈ Y)
    (hxy : x = y ∨ ∀ p, fs.parent none = some p → some p ∈ Y) : MaxExceptCtx Y data' y fs := by
  induction fs generalizing x y with
  | root => trivial
  | up d n c sib fs ih =>
      obtain ⟨hn, hsib, hfs⟩ := h
      have hdn : data' n = data n := hdata n (by simp)
      have hds : ∀ m ∈ sib, data' m = data m := fun m hm => hdata m (by simp [hm])
      refine ⟨fun hnY => ?_, hsib.congr hds fun m hm => hX m (by simp [hm]), ?_⟩
      · rcases hxy with rfl | hY
        · rw [MaxOf, hdn, cached_congr hds]
          exact hn fun hnX => hnY (hX n (by simp) hnX)
        · exact absurd (hY n rfl) hnY
      · refine ih hfs (fun m hm => hdata m (by simp [hm])) (fun m hm => hX m (by simp [hm]))
          (.inl ?_)
        rw [hdn]

theorem MaxExcept.val_le (h : MaxExcept [] data t) {m : ℕ} (hm : m ∈ t) :
    ((data m).val : WithBot V) ≤ cached data t.root := by
  induction t with
  | nil => simp at hm
  | node l n c r ihl ihr =>
      obtain ⟨hn, hl, hr⟩ := h
      rw [root_node, cached_some, hn (by simp)]
      rcases mem_node.1 hm with rfl | hm | hm
      · exact le_max_left _ _
      · exact (ihl hl hm).trans ((le_max_left _ _).trans (le_max_right _ _))
      · exact (ihr hr hm).trans ((le_max_right _ _).trans (le_max_right _ _))

theorem MaxExcept.exists_val (h : MaxExcept [] data t) (ht : t ≠ .nil) :
    ∃ m ∈ t, cached data t.root = ((data m).val : WithBot V) := by
  induction t with
  | nil => exact absurd rfl ht
  | node l n c r ihl ihr =>
      obtain ⟨hn, hl, hr⟩ := h
      have hmax := hn (by simp)
      rw [MaxOf] at hmax
      rw [root_node, cached_some]
      rcases max_choice ((data n).val : WithBot V) (max (cached data l.root) (cached data r.root))
        with hval | hsub
      · exact ⟨n, by simp, hmax.trans hval⟩
      · rw [hsub] at hmax
        -- the maximum is cached in a child, which is therefore not NULL
        have hne : ∀ u : BinTree Color, ((data n).augmented : WithBot V) = cached data u.root →
            u ≠ .nil := by
          rintro u hu rfl
          exact WithBot.coe_ne_bot hu
        rcases max_choice (cached data l.root) (cached data r.root) with hx | hy
        · rw [hx] at hmax
          obtain ⟨m, hm, hval⟩ := ihl hl (hne l hmax)
          exact ⟨m, by simp [hm], hmax.trans hval⟩
        · rw [hy] at hmax
          obtain ⟨m, hm, hval⟩ := ihr hr (hne r hmax)
          exact ⟨m, by simp [hm], hmax.trans hval⟩

/-- **Right at every node, right for every subtree.** -/
theorem MaxExcept.isGreatest (h : MaxExcept [] data (fs.plug t)) (ht : t.root = some n) :
    IsGreatest ((fun m => (data m).val) '' {m | m ∈ t}) (data n).augmented := by
  obtain ⟨h, -⟩ := maxExcept_plug.1 h
  constructor
  · obtain ⟨m, hm, hval⟩ := h.exists_val (by rintro rfl; simp at ht)
    rw [ht, cached_some, WithBot.coe_inj] at hval
    exact ⟨m, hm, hval.symm⟩
  · rintro v ⟨m, hm, rfl⟩
    have hle := h.val_le hm
    rwa [ht, cached_some, WithBot.coe_le_coe] at hle

/-! ## The callbacks -/

section Callbacks

variable {s : RbMem (TestNode K V)} {v : V} {p : Ptr} {r : RbNode}

theorem run_augmentMax (hp : ∀ n, p = some n → s.node n ≠ none) :
    ∃ w, (augmentMax v p).run s = .ok (w, s) ∧
      (w : WithBot V) = max (v : WithBot V) (cached s.data p) := by
  cases p with
  | none => exact ⟨v, rfl, by simp⟩
  | some n =>
      refine ⟨if v < (s.data n).augmented then (s.data n).augmented else v, ?_, ?_⟩
      · rw [augmentMax, if_pos (show (some n).isSome = true from rfl),
          Exec.run_bind_of_ok (run_rbEntry (hp n rfl))]
        rfl
      · rw [cached_some, ← WithBot.coe_max, max_comm, max_def_lt']

/-- `augment_recompute` makes the cached value right. -/
theorem run_augmentRecompute {d : Dir} (hn : s.node n = some r)
    (hlive : ∀ e m, r.child e = some m → s.node m ≠ none) :
    ∃ w, (augmentRecompute (some n)).run s = .ok (w, s) ∧ (w : WithBot V) =
      max ((s.data n).val : WithBot V)
        (max (cached s.data (r.child d)) (cached s.data (r.child d.flip))) := by
  obtain ⟨w₁, hrun₁, hw₁⟩ := run_augmentMax (v := (s.data n).val) (hlive .left)
  obtain ⟨w, hrun, hw⟩ := run_augmentMax (v := w₁) (hlive .right)
  refine ⟨w, ?_, ?_⟩
  · have hchild : ∀ e, (rbChild e (some n)).run s = .ok (r.child e, s) := by
      intro e
      simp [run_rbChild, atNode, hn]
    rw [augmentRecompute, Exec.run_bind_of_ok (run_rbEntry (by simp [hn])),
      Exec.run_bind_of_ok (hchild .left), Exec.run_bind_of_ok hrun₁,
      Exec.run_bind_of_ok (hchild .right), hrun]
  · rw [hw, hw₁, max_assoc]
    cases d with
    | left => rfl
    | right =>
        rw [max_comm (cached s.data (r.child .left))]
        rfl

/-- The assertion that the callbacks keep: the values are `val`, and each cached value is right,
    except in `X`. -/
def MaxKept (val : ℕ → V) (X : List Ptr) (T : BinTree Color) (data : ℕ → TestNode K V) : Prop :=
  (∀ n, (data n).val = val n) ∧ MaxExcept X data T

/-- A rotation: the upper node takes over what the lower one had cached, and the lower one
    recomputes. -/
theorem MaxExcept.rotate {d : Dir} {a b u : BinTree Color} {p g : ℕ} {c₁ c₂ c₃ c₄ : Color} {w : V}
    (hdis : (fs.plug (mk d (mk d a p c₁ b) g c₂ u)).Distinct)
    (hw : (w : WithBot V) = max ((data g).val : WithBot V)
      (max (cached data b.root) (cached data u.root)))
    (h : MaxExcept [] data (fs.plug (mk d (mk d a p c₁ b) g c₂ u))) :
    MaxExcept [] (cache (cache data p (data g).augmented) g w)
      (fs.plug (mk d a p c₃ (mk d b g c₄ u))) := by
  simp only [distinct_plug, distinct_mk, mem_mk] at hdis
  obtain ⟨hpg, hpa, hga, hpb, hgb, hpu, hgu, hpfs, hgfs⟩ : p ≠ g ∧ p ∉ a ∧ g ∉ a ∧ p ∉ b ∧ g ∉ b ∧
      p ∉ u ∧ g ∉ u ∧ p ∉ fs ∧ g ∉ fs := by grind
  obtain ⟨data', hdata'⟩ : ∃ data', data' = cache (cache data p (data g).augmented) g w := ⟨_, rfl⟩
  rw [← hdata']
  have hsame : ∀ m, m ≠ p → m ≠ g → data' m = data m := by
    intro m hmp hmg
    rw [hdata', cache_of_ne hmg, cache_of_ne hmp]
  have hval : ∀ m, (data' m).val = (data m).val := by simp [hdata']
  have hp : (data' p).augmented = (data g).augmented := by
    rw [hdata', cache_of_ne hpg, cache_self]
  have hg : (data' g).augmented = w := by simp [hdata']
  have htree : ∀ T : BinTree Color, p ∉ T → g ∉ T → ∀ m ∈ T, data' m = data m :=
    fun T hpT hgT m hm =>
    hsame m (by rintro rfl; exact hpT hm) (by rintro rfl; exact hgT hm)
  simp only [maxExcept_plug, maxExcept_mk, root_mk, cached_some] at h ⊢
  obtain ⟨⟨hmaxg, ⟨hmaxp, ha, hb⟩, hu⟩, hfs⟩ := h
  refine ⟨⟨fun _ => ?_, ha.congr (htree a hpa hga) (by simp), fun _ => ?_,
    hb.congr (htree b hpb hgb) (by simp), hu.congr (htree u hpu hgu) (by simp)⟩, ?_⟩
  · have hmaxg := hmaxg (by simp)
    have hmaxp := hmaxp (by simp)
    simp only [MaxOf] at hmaxg hmaxp ⊢
    rw [hval, hp, hg, hw, hmaxg, hmaxp, cached_congr (htree a hpa hga)]
    simp only [max_assoc, max_left_comm]
  · simp only [MaxOf]
    rw [hval, hg, hw, cached_congr (htree b hpb hgb), cached_congr (htree u hpu hgu)]
  · exact hfs.congr (fun m hm => hsame m (by rintro rfl; exact hpfs hm)
      (by rintro rfl; exact hgfs hm))
      (by simp) (.inl (by rw [hp]))

theorem rotateKeeps_max (val : ℕ → V) :
    RotateKeeps (augmentRotate augmentRecompute) (MaxKept (K := K) val []) where
  recolor h := fun hI => ⟨hI.1, maxExcept_recolor h hI.2⟩
  rotate := by
    intro d a b u p g c₁ c₂ c₃ c₄ fs s r hg hb hu hdis hlive
    have hlive' : ∀ e m, r.child e = some m → s.node m ≠ none := by
      intro e m hm
      refine hlive m (mem_plug.2 (.inl ?_))
      by_cases he : e = d
      · subst he
        simp [mem_of_root (hb.symm.trans hm)]
      · obtain rfl : e = d.flip := by cases d <;> cases e <;> simp_all
        simp [mem_of_root (hu.symm.trans hm)]
    obtain ⟨w, hrun, hw⟩ := run_augmentRecompute (d := d)
      (s := { s with data := cache s.data p (s.data g).augmented }) hg hlive'
    refine ⟨cache (cache s.data p (s.data g).augmented) g w, ?_, fun h => ⟨?_, ?_⟩⟩
    · rw [augmentRotate, Exec.run_bind_of_ok (run_rbEntry (by simp [hg])),
        Exec.run_bind_of_ok (run_setAugmented (hlive p (mem_plug.2 (.inl (by simp))))),
        Exec.run_bind_of_ok hrun]
      exact run_setAugmented (s := { s with data := cache s.data p (s.data g).augmented })
        (by simp [hg])
    · simpa using h.1
    · refine h.2.rotate hdis ?_
      simp only [distinct_plug, distinct_mk, mem_mk] at hdis
      rw [hw, hb, hu, cache_val, cached_congr fun m hm => cache_of_ne (by grind),
        cached_congr fun m hm => cache_of_ne (by grind)]

/-- The successor `m` takes the place of `n` and what `n` had cached: it and the parent that has
    lost it are to be recomputed. -/
theorem MaxExcept.copy {l : BinTree Color} {m : ℕ} {c cm : Color} {gs : Ctx Color}
    (hdis : (fs.plug (mk .right (gs.plug (mk .left .nil m cm b)) n c l)).Distinct)
    (h : MaxExcept [] data (fs.plug (mk .right (gs.plug (mk .left .nil m cm b)) n c l))) :
    MaxExcept [gs.parent (some m), some m] (cache data m (data n).augmented)
      (fs.plug (mk .right (gs.plug b) m c l)) := by
  simp only [distinct_plug, distinct_mk, mem_mk, mem_plug] at hdis
  have hsame : ∀ x, x ≠ m → cache data m (data n).augmented x = data x := fun x hx => cache_of_ne hx
  simp only [maxExcept_plug, maxExcept_mk, root_mk, cached_some] at h ⊢
  obtain ⟨⟨-, ⟨⟨-, -, hb⟩, hgs⟩, hl⟩, hfs⟩ := h
  refine ⟨⟨fun hm => absurd (by simp) hm, ⟨hb.congr (fun x hx => hsame x ?_) (by simp), ?_⟩,
    hl.congr (fun x hx => hsame x ?_) (by simp)⟩, ?_⟩
  · grind
  · refine hgs.congr (fun x hx => hsame x ?_) (by simp) (.inr fun p hp => ?_)
    · grind
    · cases gs with
      | root => simp at hp
      | up => simp_all
  · grind
  · refine hfs.congr (fun x hx => hsame x ?_) (by simp) (.inl ?_)
    · grind
    · rw [cache_self]

/-- Recomputing at `n`, after which its parent may be wrong, unless nothing has changed. -/
theorem MaxExcept.recompute {d : Dir} {c : Color} {sib : BinTree Color} {w : V}
    (hdis : (fs.plug (mk d b n c sib)).Distinct) (hX : ∀ m, some m ∈ X → m = n ∨ some m ∈ Y)
    (hw : (w : WithBot V) = max ((data n).val : WithBot V)
      (max (cached data b.root) (cached data sib.root)))
    (hparent : (∀ p, fs.parent none = some p → some p ∈ Y) ∨ (data n).augmented = w)
    (h : MaxExcept X data (fs.plug (mk d b n c sib))) :
    MaxExcept Y (cache data n w) (fs.plug (mk d b n c sib)) := by
  simp only [distinct_plug, distinct_mk, mem_mk] at hdis
  have htree : ∀ T : BinTree Color, n ∉ T → (∀ m ∈ T, cache data n w m = data m) ∧
      ∀ m ∈ T, some m ∈ X → some m ∈ Y := by
    intro T hT
    have hne : ∀ m ∈ T, m ≠ n := fun m hm => by rintro rfl; exact hT hm
    exact ⟨fun m hm => cache_of_ne (hne m hm), fun m hm hmX => (hX m hmX).resolve_left (hne m hm)⟩
  simp only [maxExcept_plug, maxExcept_mk, root_mk, cached_some] at h ⊢
  obtain ⟨⟨-, hb, hsib⟩, hfs⟩ := h
  obtain ⟨hbdata, hbX⟩ := htree b hdis.1.1
  obtain ⟨hsdata, hsX⟩ := htree sib hdis.1.2.1
  have hnfs : ∀ m ∈ fs, m ≠ n := by
    rintro m hm rfl
    exact hdis.2.2 m (.inl rfl) hm
  refine ⟨⟨fun _ => ?_, hb.congr hbdata hbX, hsib.congr hsdata hsX⟩, hfs.congr
    (fun m hm => cache_of_ne (hnfs m hm)) (fun m hm hmX => (hX m hmX).resolve_left (hnfs m hm)) ?_⟩
  · rw [MaxOf, cache_self, cache_val, cached_congr hbdata, cached_congr hsdata, hw]
  · rw [cache_self]
    exact hparent.symm.imp_left fun h => by rw [h]

/-- Recomputing at the lowest wrong node leaves its parent as the only one, or none when nothing
    changes. -/
theorem returns_augmentPropagate {q mid : Ptr} {gs : Ctx Color}
    (hgs : rbLayout.CtxAt s.node q mid b.root gs) (hdis : ((gs.append fs).plug b).Distinct)
    (hlive : Live s ((gs.append fs).plug b)) (hq : q = fs.parent none) :
    ∃ data, Returns (fun fuel => augmentPropagate augmentRecompute fuel (gs.parent q) q) s ()
        { s with data := data } ∧ (∀ m, (data m).val = (s.data m).val) ∧
      (MaxExcept [gs.parent q, q] s.data ((gs.append fs).plug b) →
        MaxExcept [q] data ((gs.append fs).plug b)) := by
  induction gs generalizing s b with
  | root =>
      refine ⟨s.data, .of_succ ⟨0, fun fuel _ => ?_⟩, fun _ => rfl,
        fun h => h.congr (fun _ _ => rfl) (by simp)⟩
      beta_reduce
      rw [augmentPropagate, parent_root, if_pos rfl]
      rfl
  | up d n c sib gs ih =>
      obtain ⟨hn, hsib, hgs⟩ := hgs
      simp only [append_up, plug_up, parent_up] at hdis hlive ⊢
      have hnq : some n ≠ q := by
        rintro h
        cases fs with
        | root => simp [hq] at h
        | up d' n' c' sib' fs' =>
            simp only [distinct_plug, distinct_mk, mem_mk, mem_append, mem_up] at hdis
            obtain rfl : n = n' := by simpa [hq] using h
            grind
      have hlive' : ∀ e m, (rbCell d c b.root sib.root (gs.parent q)).child e = some m →
          s.node m ≠ none := by
        intro e m hm
        refine hlive m (mem_plug.2 (.inl ?_))
        by_cases he : e = d
        · subst he
          simp [mem_of_root (by simpa using hm)]
        · obtain rfl : e = d.flip := by cases d <;> cases e <;> simp_all
          simp [mem_of_root (by simpa using hm)]
      obtain ⟨w, hrun, hw⟩ := run_augmentRecompute (d := d) hn hlive'
      simp only [rbCell_child, rbCell_child_flip] at hw
      have hX : ∀ Y : List Ptr, q ∈ Y → ∀ m, some m ∈ [some n, q] → m = n ∨ some m ∈ Y := by
        intro Y hY m hm
        simp only [List.mem_cons, Option.some.injEq, List.not_mem_nil, or_false] at hm
        rcases hm with rfl | hm
        · exact .inl rfl
        · exact .inr (by rwa [hm])
      by_cases heq : (s.data n).augmented = w
      · -- nothing changes, and no node above is wrong
        refine ⟨s.data, .of_succ ⟨0, fun fuel _ => ?_⟩, fun _ => rfl, fun h => ?_⟩
        · beta_reduce
          rw [augmentPropagate, if_neg hnq, Exec.run_bind_of_ok hrun,
            Exec.run_bind_of_ok (run_rbEntry (by simp [hn])), if_pos heq]
          rfl
        · have hmax := h.recompute hdis (hX [q] (by simp)) hw (.inr heq)
          rwa [cache_same heq] at hmax
      · obtain ⟨data, hret, hval, hmax⟩ := ih (s := { s with data := cache s.data n w })
          (b := mk d b n c sib) (by simpa using hgs) hdis hlive
        refine ⟨data, .of_succ (.congr (fun fuel => ?_) hret), fun m => ?_, fun h => hmax ?_⟩
        · rw [augmentPropagate, if_neg hnq, Exec.run_bind_of_ok hrun,
            Exec.run_bind_of_ok (run_rbEntry (by simp [hn])), if_neg heq,
            Exec.run_bind_of_ok (run_setAugmented (by simp [hn]))]
          refine Exec.run_bind_of_ok ?_ _
          simp [run_rbParent, atNode, hn]
        · rw [hval m, cache_val]
        · refine h.recompute hdis (hX _ (by simp)) hw (.inl fun p hp => ?_)
          rw [parent_append, ← hq] at hp
          simp [hp]

/-- **The callbacks keep the cached maxima right.** -/
theorem augmentCallbacks_keep (val : ℕ → V) :
    AugmentKeeps (augmentCallbacks (K := K)) (MaxKept val) where
  rotate := rotateKeeps_max val
  recolor h := fun hI => ⟨hI.1, maxExcept_recolor h hI.2⟩
  mono hXY := fun hI => ⟨hI.1, hI.2.congr (fun _ _ => rfl) fun m _ => hXY m⟩
  unlink := by
    rintro d n c b fs data - ⟨hval, hmax⟩
    simp only [maxExcept_plug, maxExcept_mk] at hmax
    obtain ⟨⟨-, -, hb⟩, hfs⟩ := hmax
    exact ⟨hval, maxExcept_plug.2 ⟨hb.congr (fun _ _ => rfl) (by simp),
      hfs.congr (fun _ _ => rfl) (by simp) (.inr fun p hp => by simp [hp])⟩⟩
  copy := by
    intro l b n m c cm fs gs s hdis hlive
    have hn : s.node n ≠ none := hlive n (mem_plug.2 (.inl (by simp)))
    have hm : s.node m ≠ none := hlive m (by simp [mem_plug])
    refine ⟨cache s.data m (s.data n).augmented, ?_, fun ⟨hval, hmax⟩ => ⟨?_, hmax.copy hdis⟩⟩
    · exact (Exec.run_bind_of_ok (run_rbEntry hn) _).trans (run_setAugmented hm)
    · simpa using hval
  propagate := by
    intro b fs gs mid s hgs hdis hlive
    rw [← plug_append] at hdis hlive ⊢
    obtain ⟨data, hret, hval, hmax⟩ := returns_augmentPropagate hgs hdis hlive rfl
    exact ⟨data, hret, fun ⟨hv, h⟩ => ⟨fun m => (hval m).trans (hv m), hmax h⟩⟩

end Callbacks

/-! ## Insertion -/

section Insert

variable {s : RbMem (TestNode K V)} {v : V}

theorem run_augmentRaise (hn : s.node n ≠ none) : (augmentRaise (some n) v).run s =
    .ok ((), { s with data := cache s.data n (max (s.data n).augmented v) }) := by
  rw [augmentRaise, Exec.run_bind_of_ok (run_rbEntry hn), max_def_lt]
  by_cases hlt : (s.data n).augmented < v
  · rw [if_pos hlt, if_pos hlt, run_setAugmented hn]
  · rw [if_neg hlt, if_neg hlt, cache_same rfl]
    rfl

/-- On the way down every node takes the new value into account, so that the maxima above the empty
    place that is reached are right for the tree with the new value there. -/
theorem returns_augmentDescend (before : ℕ → TestNode K V → Bool) (h : Focus s fs t) :
    ∃ gs data, Returns (fun fuel => augmentDescend before v fuel (linkOf fs) (fs.parent none)) s
        (linkOf gs, gs.parent none) { s with data := data } ∧ gs.plug .nil = fs.plug t ∧
      (∀ m, (data m).val = (s.data m).val) ∧
      (MaxExcept [] s.data t → MaxExceptCtx [] s.data (max (cached s.data t.root) v) fs →
        MaxExceptCtx [] data v gs) := by
  induction t generalizing s fs with
  | nil =>
      refine ⟨fs, s.data, .of_succ ⟨0, fun fuel _ => ?_⟩, rfl, fun _ => rfl, fun _ hfs => ?_⟩
      · beta_reduce
        rw [augmentDescend, Exec.run_bind_of_ok h.run_read]
        rfl
      · simpa using hfs
  | node l n c r ihl ihr =>
      have hn : s.node n ≠ none := h.live n (mem_plug.2 (.inl (by simp)))
      have hread := h.run_read
      -- the node has now cached the greater of the two values
      obtain ⟨s₁, hs₁⟩ : ∃ s₁, s₁ = { s with data := cache s.data n (max (s.data n).augmented v) } :=
        ⟨_, rfl⟩
      obtain ⟨d, a, b, hmk, hstep, ih⟩ : ∃ d a b, node l n c r = mk d a n c b ∧
          (∀ fuel, (augmentDescend before v (fuel + 1) (linkOf fs) (fs.parent none)).run s =
            (augmentDescend before v fuel (.child (some n) d) (some n)).run s₁) ∧
          ∀ (fs : Ctx Color) (s : RbMem (TestNode K V)), Focus s fs a → ∃ gs data,
            Returns (fun fuel => augmentDescend before v fuel (linkOf fs) (fs.parent none)) s
              (linkOf gs, gs.parent none) { s with data := data } ∧ gs.plug .nil = fs.plug a ∧
            (∀ m, (data m).val = (s.data m).val) ∧
            (MaxExcept [] s.data a → MaxExceptCtx [] s.data (max (cached s.data a.root) v) fs →
              MaxExceptCtx [] data v gs) := by
        have hstep : ∀ fuel, (augmentDescend before v (fuel + 1) (linkOf fs) (fs.parent none)).run s =
            (if before n (s₁.data n) then augmentDescend before v fuel (.child (some n) .left) (some n)
              else augmentDescend before v fuel (.child (some n) .right) (some n)).run s₁ := by
          intro fuel
          rw [augmentDescend, Exec.run_bind_of_ok hread, root_node,
            if_pos (show (some n).isSome = true from rfl),
            Exec.run_bind_of_ok (run_augmentRaise hn), ← hs₁,
            Exec.run_bind_of_ok (run_rbEntry (by rw [hs₁]; exact hn))]
          rfl
        by_cases hb : before n (s₁.data n)
        · exact ⟨.left, l, r, rfl, fun fuel => by rw [hstep, if_pos hb], fun _ _ => ihl⟩
        · exact ⟨.right, r, l, rfl, fun fuel => by rw [hstep, if_neg hb], fun _ _ => ihr⟩
      rw [hmk] at h ⊢
      have hdis := h.distinct
      simp only [distinct_plug, distinct_mk, mem_mk] at hdis
      obtain ⟨gs, data, hret, hgs, hval, hmax⟩ := ih (.up d n c b fs) s₁
        (by rw [hs₁]; exact (focus_up.2 h).withData _)
      refine ⟨gs, data, .of_succ (.congr hstep ?_), by rw [hgs, plug_up], fun m => ?_,
        fun ht hfs => hmax ?_ ?_⟩
      · rw [hs₁] at hret ⊢
        exact hret
      · rw [hval, hs₁, cache_val]
      · obtain ⟨-, ha, -⟩ := maxExcept_mk.1 ht
        rw [hs₁]
        exact ha.congr (fun m hm => cache_of_ne (by grind)) (by simp)
      · obtain ⟨hmaxn, -, hb⟩ := maxExcept_mk.1 ht
        replace hmaxn := hmaxn (by simp)
        rw [hs₁]
        refine ⟨fun _ => ?_, hb.congr (fun m hm => cache_of_ne (by grind)) (by simp), ?_⟩
        · rw [MaxOf] at hmaxn ⊢
          rw [cache_self, cache_val, WithBot.coe_max, hmaxn,
            cached_congr fun m hm => cache_of_ne (by grind),
            cached_congr fun m hm => cache_of_ne (by grind)]
          simp only [max_assoc, max_comm]
        · rw [cache_self]
          refine hfs.congr (fun m hm => cache_of_ne (by grind)) (by simp) (.inl ?_)
          rw [root_mk, cached_some, WithBot.coe_max]

/-- What a step leaves behind: the tree `T'` and right maxima, the values as they were, and no node
    freed. -/
structure StillMax (s s' : RbMem (TestNode K V)) (T' : BinTree Color) : Prop where
  focus : Focus s' .root T'
  redBlack : RedBlack T'
  maxima : MaxExcept [] s'.data T'
  val : ∀ m, (s'.data m).val = (s.data m).val
  allocated : ∀ m, s.node m ≠ none → s'.node m ≠ none

/-- **`insert_augmented`** puts a fresh node into the tree and keeps the cached maxima right. -/
theorem returns_insertAugmented (before : ℕ → TestNode K V → Bool) {T : BinTree Color}
    (h : Focus s .root T) (hrb : RedBlack T) (hn : s.node n ≠ none) (hT : n ∉ T)
    (hmax : MaxExcept [] s.data T) :
    ∃ s' T', Returns (fun fuel => insertAugmented before fuel (some n)) s () s' ∧
      StillMax s s' T' ∧ ∃ xs ys, T.addrs = xs ++ ys ∧ T'.addrs = xs ++ n :: ys := by
  obtain ⟨gs, data, hret, hgs, hval, hctx⟩ :=
    returns_augmentDescend (v := (s.data n).val) before h
  rw [plug_root] at hgs
  subst hgs
  have hngs : n ∉ gs := fun hmem => hT (mem_plug.2 (.inr hmem))
  obtain ⟨data₁, hdata₁⟩ : ∃ data₁, data₁ = cache data n (s.data n).val := ⟨_, rfl⟩
  obtain ⟨c, hc⟩ := Option.ne_none_iff_exists'.1 hn
  obtain ⟨s₁, hlink, hfocus, hsame⟩ := run_rbLinkNode (s := { s with data := data₁ })
    (focus_plug.1 (h.withData data₁)) hc hngs
  obtain ⟨s', T', hins, hT'⟩ := returns_rbInsert (rotateKeeps_max (K := K) fun m => (s₁.data m).val)
    hfocus hrb
  have hstart : MaxExcept [] s₁.data (gs.plug (mk .left .nil n .red .nil)) := by
    have hgs := hctx hmax trivial
    simp only [hsame.data, maxExcept_plug, maxExcept_mk, maxExcept_nil, root_mk, root_nil, cached_none,
      cached_some, hdata₁]
    refine ⟨⟨fun _ => ?_, trivial, trivial⟩, hgs.congr (fun m hm => cache_of_ne ?_) (by simp)
      (.inl ?_)⟩
    · rw [MaxOf, cache_self, cache_val, hval]
      simp
    · rintro rfl
      exact hngs hm
    · rw [cache_self]
  obtain ⟨hvals, hmax'⟩ := hT'.relinked.data ⟨fun _ => rfl, hstart⟩
  have hmem : ∀ m, m ∈ T' ↔ m ∈ gs.plug (mk .left .nil n .red .nil) := by
    intro m
    rw [← mem_addrs, hT'.addrs, mem_addrs]
  refine ⟨s', T', ?_, ⟨hT'.focus, hT'.redBlack, hmax', fun m => ?_, hT'.focus.allocated ?_⟩,
    gs.before, gs.after, ?_, ?_⟩
  · have hset : (setAugmented (some n) (s.data n).val).run { s with data := data } =
        .ok ((), { s with data := data₁ }) := by
      rw [hdata₁]
      exact run_setAugmented hn
    exact .bind_run (run_rbEntry hn) (.bind hret (.bind_run hset (.bind_run hlink hins)))
  · rw [hvals]
    show (s₁.data m).val = _
    rw [hsame.data]
    show (data₁ m).val = _
    rw [hdata₁, cache_val, hval]
  · intro m hm
    have hm' : m ∉ gs.plug (mk .left .nil n .red .nil) := fun h => hm ((hmem m).2 h)
    rw [hT'.relinked.node m hm', hsame.node m hm']
  · simp [addrs_plug]
  · rw [hT'.addrs, addrs_plug]
    simp [mk]

end Insert

/-! ## Runs -/

/-- `nodes[i].key = key; nodes[i].val = val;` of `init`. -/
def initNode (node : Ptr) (key : K) (val : V) : Exec (RbMem (TestNode K V)) Unit := do
  let e ← rbEntry node
  modify fun s => { s with
    data := Function.update s.data (node.getD 0) ⟨key, val, e.augmented⟩ }

/-- What a user of the augmented tree does: give a node its contents, insert it, erase it. -/
inductive AugmentOp (K V : Type) where
  | init (n : ℕ) (key : K) (val : V)
  | insert (before : ℕ → TestNode K V → Bool) (n : ℕ)
  | erase (n : ℕ)

def InTree (s : RbMem (TestNode K V)) (n : ℕ) : Prop := ∃ T, Focus s .root T ∧ n ∈ T

/-- Nodes that are given contents or are inserted are allocated and not in the tree, nodes that are
    erased are in it. -/
def augmentMachine (K V : Type) [LinearOrder V] :
    Machine (RbMem (TestNode K V)) (AugmentOp K V) Unit where
  enabled := fun _ s op =>
    match op with
    | .init n _ _ => s.node n ≠ none ∧ ¬ InTree s n
    | .insert _ n => s.node n ≠ none ∧ ¬ InTree s n
    | .erase n => InTree s n
  exec := fun op fuel =>
    match op with
    | .init n key val => initNode (some n) key val
    | .insert before n => insertAugmented before fuel (some n)
    | .erase n => eraseAugmented fuel (some n)

/-- The nodes inserted and not erased, and the value that each node has been given last. -/
structure Members (V : Type) where
  nodes : List ℕ
  val : ℕ → V

/-- What the operations do to them. -/
def membersSpec (K V : Type) : Spec (Members V) (AugmentOp K V) Unit where
  result _ _ := ()
  next a
    | .init n _ val => { a with val := Function.update a.val n val }
    | .insert _ n => { a with nodes := n :: a.nodes }
    | .erase n => { a with nodes := a.nodes.erase n }

/-- Each node of the tree has cached the greatest value of its subtree. -/
def SubtreeMaxima (val : ℕ → V) (s : RbMem (TestNode K V)) (T : BinTree Color) : Prop :=
  ∀ fs l n c r, T = Ctx.plug fs (.node l n c r) →
    IsGreatest (val '' {m | m ∈ BinTree.node l n c r}) (s.data n).augmented

/-- Memory holds a red-black tree of the members, with the maxima of their values. -/
structure Augmented (s : RbMem (TestNode K V)) (a : Members V) (T : BinTree Color) : Prop where
  focus : Focus s .root T
  conditions : RbConditions T
  nodes : T.addrs.Perm a.nodes
  val : ∀ n, (s.data n).val = a.val n
  maxima : SubtreeMaxima a.val s T

/-- What holds in every state: `node` are the nodes allocated at the start. -/
structure AugmentInv (node : Cells RbNode) (s : RbMem (TestNode K V)) (a : Members V)
    (T : BinTree Color) : Prop where
  focus : Focus s .root T
  redBlack : RedBlack T
  nodes : T.addrs.Perm a.nodes
  val : ∀ n, (s.data n).val = a.val n
  maxima : MaxExcept [] s.data T
  allocated : ∀ m, node m ≠ none → s.node m ≠ none

section Steps

variable {node : Cells RbNode} {s : RbMem (TestNode K V)} {a : Members V} {T : BinTree Color}
  {tr : List (AugmentOp K V × Unit)}

theorem AugmentInv.augmented (h : AugmentInv node s a T) : Augmented s a T := by
  refine ⟨h.focus, redBlack_iff.1 h.redBlack, h.nodes, h.val, fun fs l n c r hT => ?_⟩
  have hmax := h.maxima
  rw [hT] at hmax
  rw [← funext h.val]
  exact hmax.isGreatest rfl

/-- A step that does to the members what it does to the tree. -/
theorem AugmentInv.step (h : AugmentInv node s a T) {a' : Members V} {s' : RbMem (TestNode K V)}
    {T' : BinTree Color} (hstill : StillMax s s' T') (hnodes : T'.addrs.Perm a'.nodes)
    (hval : a'.val = a.val) : AugmentInv node s' a' T' := by
  refine ⟨hstill.focus, hstill.redBlack, hnodes, fun n => ?_, hstill.maxima, fun m hm => ?_⟩
  · rw [hstill.val, h.val, hval]
  · exact hstill.allocated m (h.allocated m hm)

/-- One operation keeps the tree and the maxima. -/
theorem augment_step {op : AugmentOp K V} (h : AugmentInv node s a T)
    (hen : (augmentMachine K V).enabled tr s op) :
    ∃ s' T', Returns ((augmentMachine K V).exec op) s () s' ∧
      AugmentInv node s' ((membersSpec K V).next a op) T' := by
  cases op with
  | init n key val =>
      obtain ⟨hn, hT⟩ := hen
      have hT' : n ∉ T := fun hmem => hT ⟨T, h.focus, hmem⟩
      refine ⟨{ s with data := Function.update s.data n ⟨key, val, (s.data n).augmented⟩ }, T,
        .bind_run (run_rbEntry hn) (.of_run rfl), h.focus.withData _, h.redBlack, h.nodes,
        fun m => ?_, h.maxima.congr (fun m hm => ?_) (by simp), h.allocated⟩
      · show (Function.update s.data n _ m).val = Function.update a.val n val m
        by_cases hm : m = n
        · rw [hm, Function.update_self, Function.update_self]
        · rw [Function.update_of_ne hm, Function.update_of_ne hm, h.val]
      · exact Function.update_of_ne (by rintro rfl; exact hT' hm) _ _
  | insert before n =>
      obtain ⟨hn, hT⟩ := hen
      obtain ⟨s', T', hret, hstill, xs, ys, hxs, hys⟩ := returns_insertAugmented before h.focus
        h.redBlack hn (fun hmem => hT ⟨T, h.focus, hmem⟩) h.maxima
      refine ⟨s', T', hret, h.step hstill ?_ rfl⟩
      rw [hys]
      exact List.perm_middle.trans ((hxs ▸ h.nodes).cons n)
  | erase n =>
      obtain ⟨T₁, h₁, hmem⟩ := hen
      rw [h₁.unique h.focus] at hmem
      obtain ⟨s', T', hret, hfocus, hrb', haddrs, hnode, hdata⟩ :=
        returns_rbEraseAugmented (augmentCallbacks_keep fun m => (s.data m).val) h.focus h.redBlack
          hmem
      obtain ⟨hval, hmax⟩ := hdata ⟨fun _ => rfl, h.maxima⟩
      refine ⟨s', T', hret, h.step ⟨hfocus, hrb', hmax, hval, hfocus.allocated hnode⟩ ?_ rfl⟩
      rw [haddrs]
      exact h.nodes.erase n

theorem AugmentInv.inTree_iff (h : AugmentInv node s a T) {n : ℕ} : InTree s n ↔ n ∈ a.nodes := by
  rw [← h.nodes.mem_iff, mem_addrs]
  constructor
  · rintro ⟨T', h', hn⟩
    rwa [h'.unique h.focus] at hn
  · exact fun hn => ⟨T, h.focus, hn⟩

theorem augment_refines (node : Cells RbNode) (data : ℕ → TestNode K V) :
    (augmentMachine K V).Refines ⟨none, node, data⟩ (membersSpec K V) ⟨[], fun n => (data n).val⟩
      fun s a => ∃ T, AugmentInv node s a T := by
  refine Machine.refines_of_step ?_ ?_
  · exact ⟨.nil, ⟨trivial, rfl, distinct_nil⟩, ⟨trivial, 0, rfl⟩, .nil, fun _ => rfl, trivial,
      fun _ h => h⟩
  · rintro tr s op ⟨T, h⟩ hen
    obtain ⟨s', T', hret, h'⟩ := augment_step h hen
    exact ⟨s', hret, T', h'⟩

/-- **After any sequence of insertions and erasures** from the empty tree, the tree has the nodes
    inserted and not erased, and every node has cached the greatest of the values that the nodes of
    its subtree have been given; and every operation returns. -/
theorem augmented_max (node : Cells RbNode) (data : ℕ → TestNode K V) :
    (augmentMachine K V).Refines ⟨none, node, data⟩ (membersSpec K V) ⟨[], fun n => (data n).val⟩
      fun s a => ∃ T, Augmented s a T :=
  (augment_refines node data).mono fun _ _ ⟨T, h⟩ => ⟨T, h.augmented⟩

/-- What a user promises, said of the members. -/
def AugmentOp.Allowed (node : Cells RbNode) (a : Members V) : AugmentOp K V → Prop
  | .init n _ _ | .insert _ n => node n ≠ none ∧ n ∉ a.nodes
  | .erase n => n ∈ a.nodes

def AllowedFrom (node : Cells RbNode) : Members V → List (AugmentOp K V) → Prop
  | _, [] => True
  | a, op :: ops => op.Allowed node a ∧ AllowedFrom node ((membersSpec K V).next a op) ops

theorem AugmentInv.enabled {op : AugmentOp K V} (h : AugmentInv node s a T)
    (hop : op.Allowed node a) : (augmentMachine K V).enabled tr s op := by
  cases op with
  | init n key val => exact ⟨h.allocated n hop.1, mt h.inTree_iff.1 hop.2⟩
  | insert before n => exact ⟨h.allocated n hop.1, mt h.inTree_iff.1 hop.2⟩
  | erase n => exact h.inTree_iff.2 hop

/-- Whoever keeps the promises can go on. -/
theorem AugmentInv.exists_run {s₀ : RbMem (TestNode K V)} {ops : List (AugmentOp K V)}
    (h : AugmentInv node s a T) (hrun : (augmentMachine K V).Run s₀ tr s)
    (hops : AllowedFrom node a ops) :
    ∃ s', (augmentMachine K V).Run s₀ (tr ++ ops.map fun op => (op, ())) s' := by
  induction ops generalizing tr s a T with
  | nil => exact ⟨s, by simpa using hrun⟩
  | cons op ops ih =>
      obtain ⟨hop, hrest⟩ := hops
      have hen : (augmentMachine K V).enabled tr s op := h.enabled hop
      obtain ⟨s', T', hret, h'⟩ := augment_step h hen
      obtain ⟨s'', hrun'⟩ := ih h' (hrun.snoc hen hret) hrest
      exact ⟨s'', by simpa using hrun'⟩

/-- The root has cached the greatest value of all. -/
theorem Augmented.root (h : Augmented s a T) (hne : a.nodes ≠ []) : ∃ n, s.rbNode = some n ∧
    IsGreatest (a.val '' {m | m ∈ a.nodes}) (s.data n).augmented := by
  cases T with
  | nil => exact absurd (List.perm_nil.1 h.nodes.symm) hne
  | node l n c r =>
      have hmem : {m | m ∈ a.nodes} = {m | m ∈ BinTree.node l n c r} := by
        ext m
        exact (h.nodes.mem_iff (a := m)).symm.trans mem_addrs
      rw [hmem]
      exact ⟨n, h.focus.ctx, h.maxima .root l n c r rfl⟩

end Steps

/-- Three nodes are inserted in the order of their keys, which takes a rotation, and the one in the
    middle, which has the greatest value, is erased from the root. -/
def threeAndErase : List (AugmentOp ℕ ℕ) :=
  [.init 1 10 5, .insert (fun _ e => 10 < e.key) 1, .init 2 20 9, .insert (fun _ e => 20 < e.key) 2,
    .init 3 30 7, .insert (fun _ e => 30 < e.key) 3, .erase 2]

/-- Then the root has cached 7, the greater of the two values that are left. -/
theorem augmented_max_three : ∃ (s : RbMem (TestNode ℕ ℕ)) (T : BinTree Color),
    (augmentMachine ℕ ℕ).Run ⟨none, fun _ => some ⟨⟨none, .black⟩, none, none⟩, fun _ => ⟨0, 0, 0⟩⟩
      (threeAndErase.map fun op => (op, ())) s ∧
    T.addrs.Perm [3, 1] ∧ Focus s .root T ∧
    ∃ n, s.rbNode = some n ∧ (s.data n).augmented = 7 := by
  obtain ⟨node, hnode⟩ : ∃ node : Cells RbNode, node = fun _ => some ⟨⟨none, .black⟩, none, none⟩ :=
    ⟨_, rfl⟩
  rw [← hnode]
  obtain ⟨T₀, h₀⟩ := ((augment_refines (K := ℕ) node fun _ => ⟨0, 0, 0⟩) _ _ .nil).1
  have hallowed : AllowedFrom node ⟨[], fun _ => 0⟩ threeAndErase := by
    simp [threeAndErase, AllowedFrom, AugmentOp.Allowed, membersSpec, hnode]
  obtain ⟨s, hrun⟩ := h₀.exists_run .nil hallowed
  obtain ⟨T, hT⟩ := (augmented_max node (fun _ => ⟨0, 0, 0⟩) _ _ hrun).1
  obtain ⟨n, hn, hgreatest⟩ := hT.root (List.cons_ne_nil 3 [1])
  refine ⟨s, T, hrun, hT.nodes, hT.focus, n, hn, hgreatest.unique ⟨⟨3, ?_, rfl⟩, ?_⟩⟩
  · exact List.mem_cons_self
  · rintro v ⟨m, hm, rfl⟩
    have hm' : m ∈ [3, 1] := hm
    rcases List.mem_cons.1 hm' with rfl | hm'
    · exact Nat.le_refl 7
    · rw [List.mem_singleton.1 hm']
      exact Nat.le_of_ble_eq_true rfl

end Max

end StructLib.Rbtree
