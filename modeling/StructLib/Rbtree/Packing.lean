import StructLib.Rbtree.Layout

set_option autoImplicit false

/-! # The packed word `__rb_parent_color`

The parent pointer and the colour of a node share an `unsigned long`, whose width is not that of a
pointer on 64-bit Windows. Here the accessors of `rbtree.h`, `rbtree_augmented.h` and `rbtree.c` are
given with their casts and masks, for each data model the library is written for. A word always
holds the colour that was set last and what an `unsigned long` can hold of the parent (`word_run`);
they read back if and only if that is all of it (`readsBack_iff_fits`). Then the pair `ParentColor`
of the tree code stands for the word (`samePair_run`). -/

namespace StructLib.Rbtree.Packed

/-! ## Data models and casts -/

/-- The targets: 32 bits, 64 bits, and 64-bit Windows, where `long` has 32 bits. -/
inductive DataModel where
  | ilp32
  | lp64
  | llp64
  deriving DecidableEq, Repr

/-- The width of `unsigned long`. -/
def DataModel.longBits : DataModel → ℕ
  | ilp32 => 32
  | lp64 => 64
  | llp64 => 32

/-- The width of a pointer and of `intptr_t`. -/
def DataModel.ptrBits : DataModel → ℕ
  | ilp32 => 32
  | lp64 => 64
  | llp64 => 64

variable {m : DataModel}

/-- The value of a pointer; NULL is 0. -/
abbrev Address (m : DataModel) := BitVec m.ptrBits

/-- An `unsigned long`. -/
abbrev ULong (m : DataModel) := BitVec m.longBits

/-- The address of a node, or NULL. -/
structure NodeAddr (m : DataModel) where
  bits : Address m
  aligned : bits.toNat % 4 = 0

/-- `(unsigned long)(intptr_t)p`. -/
def toULong (p : Address m) : ULong m := p.signExtend m.longBits

/-- `(struct rb_node *)(intptr_t)pc`. -/
def toNode (pc : ULong m) : Address m := pc.setWidth m.ptrBits

/-- An `int` as the operand beside an `unsigned long`. -/
def ofInt (c : BitVec 32) : ULong m := c.signExtend m.longBits

/-- `RB_RED` and `RB_BLACK`. -/
def colorBit : Color → BitVec 32
  | .red => 0
  | .black => 1

/-! ## Accessors -/

/-- `struct rb_node`. -/
structure RbNode (m : DataModel) where
  rbParentColor : ULong m
  rbRight : Address m
  rbLeft : Address m

def rbParent (r : RbNode m) : Address m := toNode (r.rbParentColor &&& ofInt (~~~3))

/-- There is no mask. -/
def rbRedParent (red : RbNode m) : Address m := toNode red.rbParentColor

def rbColor (rb : RbNode m) : ULong m := rb.rbParentColor &&& ofInt 1

/-- The node, and what is stored through `rb_link`. -/
def rbLinkNode (node parent : NodeAddr m) (rb : RbNode m) : RbNode m × Address m :=
  ({ rb with rbParentColor := toULong parent.bits, rbLeft := 0, rbRight := 0 }, node.bits)

def rbSetParent (rb : RbNode m) (p : NodeAddr m) : RbNode m :=
  { rb with rbParentColor := rbColor rb ||| toULong p.bits }

def rbSetParentColor (rb : RbNode m) (p : NodeAddr m) (color : Color) : RbNode m :=
  { rb with rbParentColor := toULong p.bits ||| ofInt (colorBit color) }

def rbSetBlack (rb : RbNode m) : RbNode m :=
  { rb with rbParentColor := rb.rbParentColor ||| ofInt (colorBit .black) }

/-! ## Sequences of updates -/

/-- A call that sets the parent or the colour of a node. -/
inductive Update (m : DataModel) where
  | linkNode (node parent : NodeAddr m) (link : RbLink)
  | setParent (p : NodeAddr m)
  | setParentColor (p : NodeAddr m) (color : Color)
  | setBlack

def Update.apply (rb : RbNode m) : Update m → RbNode m
  | linkNode node parent _ => (rbLinkNode node parent rb).1
  | setParent p => rbSetParent rb p
  | setParentColor p color => rbSetParentColor rb p color
  | setBlack => rbSetBlack rb

def run (rb : RbNode m) (ops : List (Update m)) : RbNode m := ops.foldl Update.apply rb

/-- The parent and the colour that were set last, if any were. -/
structure LastSet (m : DataModel) where
  parent : Option (NodeAddr m)
  color : Option Color

def LastSet.update (l : LastSet m) : Update m → LastSet m
  | .linkNode _ parent _ => ⟨some parent, some .red⟩
  | .setParent p => ⟨some p, l.color⟩
  | .setParentColor p color => ⟨some p, some color⟩
  | .setBlack => ⟨l.parent, some .black⟩

def lastSet (ops : List (Update m)) : LastSet m := ops.foldl LastSet.update ⟨none, none⟩

/-- After the calls `ops` on `rb` the readers return the parent and the colour that were set last,
    and what they returned before where none was set. -/
structure ReadsBack (rb : RbNode m) (ops : List (Update m)) : Prop where
  parent : ∀ p, (lastSet ops).parent = some p → rbParent (run rb ops) = p.bits
  redParent : ∀ p, (lastSet ops).parent = some p → rbColor (run rb ops) = ofInt (colorBit .red) →
    rbRedParent (run rb ops) = p.bits
  color : ∀ c, (lastSet ops).color = some c → rbColor (run rb ops) = ofInt (colorBit c)
  keepsParent : (lastSet ops).parent = none → rbParent (run rb ops) = rbParent rb
  keepsColor : (lastSet ops).color = none → rbColor (run rb ops) = rbColor rb

/-- An address that an `unsigned long` can hold. -/
def NodeAddr.Fits (p : NodeAddr m) : Prop := p.bits.toNat < 2 ^ m.longBits

/-! ## Masks -/

section Mask

variable {w : ℕ} {x c : BitVec w}

theorem and_not_of_and_eq_zero (h : x &&& c = 0) : x &&& ~~~c = x := by
  ext i hi
  have hbit : (x &&& c)[i] = false := by simp [h]
  rw [BitVec.getElem_and] at hbit ⊢
  rw [BitVec.getElem_not]
  cases hx : x[i] <;> simp_all

theorem and_not_or_and : x &&& ~~~c ||| x &&& c = x := by
  rw [← BitVec.and_or_distrib_left]
  ext i hi
  simp

end Mask

theorem one_eq_and_three : (1 : ULong m) = 3 &&& 1 := by cases m <;> rfl

theorem not_three_eq : (~~~3 : ULong m) = ~~~1 &&& ~~~3 := by cases m <;> rfl

@[simp] theorem ofInt_one : (ofInt 1 : ULong m) = 1 := by cases m <;> rfl

@[simp] theorem ofInt_not_three : (ofInt (~~~3) : ULong m) = ~~~3 := by cases m <;> rfl

@[simp] theorem ofInt_red : (ofInt (colorBit .red) : ULong m) = 0 := by cases m <;> rfl

@[simp] theorem ofInt_black : (ofInt (colorBit .black) : ULong m) = 1 := ofInt_one

theorem toULong_toNat (p : Address m) : (toULong p).toNat = p.toNat % 2 ^ m.longBits := by
  have hle : m.longBits ≤ m.ptrBits := by cases m <;> decide
  rw [toULong, BitVec.signExtend_eq_setWidth_of_le _ hle, BitVec.toNat_setWidth]

theorem toULong_and_three (p : NodeAddr m) : toULong p.bits &&& 3 = 0 := by
  have hthree : (3 : ULong m).toNat = 2 ^ 2 - 1 := by cases m <;> rfl
  have hfour : 2 ^ 2 ∣ 2 ^ m.longBits := by cases m <;> decide
  apply BitVec.eq_of_toNat_eq
  rw [BitVec.toNat_and, hthree, Nat.and_two_pow_sub_one_eq_mod, toULong_toNat,
    Nat.mod_mod_of_dvd _ hfour]
  exact p.aligned

theorem toULong_and_one (p : NodeAddr m) : toULong p.bits &&& 1 = 0 := by
  rw [one_eq_and_three, ← BitVec.and_assoc, toULong_and_three]
  exact BitVec.zero_and

theorem toNode_toULong (p : NodeAddr m) : toNode (toULong p.bits) = p.bits ↔ p.Fits := by
  have hle : m.longBits ≤ m.ptrBits := by cases m <;> decide
  have hlt : p.bits.toNat % 2 ^ m.longBits < 2 ^ m.ptrBits :=
    Nat.lt_of_lt_of_le (Nat.mod_lt _ (Nat.two_pow_pos _)) (Nat.pow_le_pow_right (by decide) hle)
  rw [NodeAddr.Fits, ← BitVec.toNat_inj, toNode, BitVec.toNat_setWidth, toULong_toNat,
    Nat.mod_eq_of_lt hlt]
  exact Nat.mod_eq_iff_lt (Nat.ne_of_gt (Nat.two_pow_pos _))

/-! ## What a word holds -/

/-- The word `w`, which was `w₀`, has the parent of `l` in its upper bits and the colour of `l` in
    its lowest one. -/
structure Holds (w₀ : ULong m) (l : LastSet m) (w : ULong m) : Prop where
  upper : w &&& ~~~1 = l.parent.elim (w₀ &&& ~~~1) fun p => toULong p.bits
  lowest : w &&& 1 = l.color.elim (w₀ &&& 1) fun c => ofInt (colorBit c)

section Holds

variable {w₀ w c : ULong m} {l : LastSet m} {p : NodeAddr m}

theorem holds_self : Holds w₀ ⟨none, none⟩ w₀ := ⟨rfl, rfl⟩

theorem or_and_one (hc : c &&& 1 = c) : (toULong p.bits ||| c) &&& 1 = c := by
  rw [BitVec.and_or_distrib_right, toULong_and_one, hc]
  exact BitVec.zero_or

theorem or_and_not_one (hc : c &&& 1 = c) :
    (toULong p.bits ||| c) &&& ~~~1 = toULong p.bits := by
  rw [BitVec.and_or_distrib_right, and_not_of_and_eq_zero (toULong_and_one p), ← hc,
    BitVec.and_assoc, BitVec.and_not_self]
  simp

theorem colorBit_and_one (color : Color) :
    (ofInt (colorBit color) : ULong m) &&& 1 = ofInt (colorBit color) := by
  cases color
  · simp
  · simp

theorem or_one_and_one : (w ||| 1) &&& 1 = 1 := by
  ext i hi
  simp [Bool.and_or_distrib_right]

/-- A call leaves what it sets, and keeps the rest. -/
theorem Holds.apply {rb : RbNode m} (h : Holds w₀ l rb.rbParentColor) (op : Update m) :
    Holds w₀ (l.update op) (op.apply rb).rbParentColor := by
  cases op with
  | linkNode node parent link =>
      exact ⟨and_not_of_and_eq_zero (toULong_and_one parent),
        (toULong_and_one parent).trans ofInt_red.symm⟩
  | setParent p =>
      have hword : (rbSetParent rb p).rbParentColor =
          toULong p.bits ||| (rb.rbParentColor &&& 1) := by
        rw [rbSetParent, rbColor, ofInt_one, BitVec.or_comm]
      have hlow : (rb.rbParentColor &&& 1) &&& 1 = rb.rbParentColor &&& 1 := by
        rw [BitVec.and_assoc, BitVec.and_self]
      constructor
      · exact (congrArg (· &&& ~~~1) hword).trans (or_and_not_one hlow)
      · exact (congrArg (· &&& 1) hword).trans ((or_and_one hlow).trans h.lowest)
  | setParentColor p color =>
      exact ⟨or_and_not_one (colorBit_and_one color), or_and_one (colorBit_and_one color)⟩
  | setBlack =>
      have hword : (rbSetBlack rb).rbParentColor = rb.rbParentColor ||| 1 := by
        rw [rbSetBlack, ofInt_black]
      constructor
      · refine (congrArg (· &&& ~~~1) hword).trans (Eq.trans ?_ h.upper)
        rw [BitVec.and_or_distrib_right, BitVec.and_not_self]
        exact BitVec.or_zero
      · exact (congrArg (· &&& 1) hword).trans (or_one_and_one.trans ofInt_black.symm)

theorem Holds.run {rb : RbNode m} (h : Holds w₀ l rb.rbParentColor) (ops : List (Update m)) :
    Holds w₀ (ops.foldl LastSet.update l) (run rb ops).rbParentColor := by
  induction ops generalizing rb l with
  | nil => exact h
  | cons op ops ih => exact ih (h.apply op)

/-- After any calls the word holds what was set last. -/
theorem word_run (rb : RbNode m) (ops : List (Update m)) :
    Holds rb.rbParentColor (lastSet ops) (run rb ops).rbParentColor :=
  holds_self.run ops

/-! ## Reading a word -/

variable {rb : RbNode m}

theorem Holds.rbColor (h : Holds w₀ l rb.rbParentColor) :
    rbColor rb = l.color.elim (w₀ &&& 1) fun c => ofInt (colorBit c) := by
  rw [Packed.rbColor, ofInt_one, h.lowest]

theorem Holds.rbParent (h : Holds w₀ l rb.rbParentColor) : rbParent rb =
    l.parent.elim (toNode (w₀ &&& ~~~3)) fun p => toNode (toULong p.bits) := by
  rw [Packed.rbParent, ofInt_not_three, not_three_eq, ← BitVec.and_assoc, h.upper]
  cases l.parent with
  | none => exact congrArg toNode (BitVec.and_assoc _ _ _)
  | some p =>
      rw [← not_three_eq]
      exact congrArg toNode (and_not_of_and_eq_zero (toULong_and_three p))

theorem Holds.rbRedParent (h : Holds w₀ l rb.rbParentColor) (hp : l.parent = some p)
    (hred : Packed.rbColor rb = ofInt (colorBit .red)) : rbRedParent rb = toNode (toULong p.bits) := by
  rw [Packed.rbColor, ofInt_one, ofInt_red] at hred
  rw [Packed.rbRedParent, ← and_not_or_and (x := rb.rbParentColor) (c := 1), h.upper, hp, hred]
  exact congrArg toNode BitVec.or_zero

end Holds

/-! ## The pair of the tree code -/

section Pair

variable {D : Type} {rb : RbNode m} {op : Update m}

/-- A pointer of the tree code. -/
def toPtr (a : Address m) : Ptr := if a = 0 then none else some a.toNat

/-- `rb_is_red`. -/
def colorOf (c : ULong m) : Color := if c = ofInt (colorBit .red) then .red else .black

/-- The pair that a word stands for. -/
def RbNode.pair (rb : RbNode m) : ParentColor := ⟨toPtr (rbParent rb), colorOf (rbColor rb)⟩

/-- What the tree code makes of the pair. -/
def Update.onPair (pc : ParentColor) : Update m → ParentColor
  | linkNode _ parent _ => ⟨toPtr parent.bits, .red⟩
  | setParent p => ⟨toPtr p.bits, pc.color⟩
  | setParentColor p color => ⟨toPtr p.bits, color⟩
  | setBlack => ⟨pc.parent, .black⟩

/-- The same call in the tree code, for the node at `n`. -/
def Update.exec (n : ℕ) : Update m → Exec (RbMem D) Unit
  | linkNode _ parent link => Rbtree.rbLinkNode (some n) (toPtr parent.bits) link
  | setParent p => Rbtree.rbSetParent (some n) (toPtr p.bits)
  | setParentColor p color => Rbtree.rbSetParentColor (some n) (toPtr p.bits) color
  | setBlack => Rbtree.rbSetBlack (some n)

/-- The parent that a call sets has an address that an `unsigned long` can hold. -/
def Update.Fits (op : Update m) : Prop :=
  ∀ p, (LastSet.update ⟨none, none⟩ op).parent = some p → p.Fits

theorem colorOf_colorBit (c : Color) : colorOf (ofInt (colorBit c) : ULong m) = c := by
  cases c
  · exact if_pos rfl
  · exact if_neg (by cases m <;> decide)

theorem pair_apply (hfits : op.Fits) : (op.apply rb).pair = op.onPair rb.pair := by
  have hword : Holds rb.rbParentColor _ (op.apply rb).rbParentColor := holds_self.apply op
  rw [RbNode.pair, hword.rbParent, hword.rbColor]
  cases op with
  | linkNode node parent link =>
      change ParentColor.mk (toPtr (toNode (toULong parent.bits))) (colorOf (ofInt (colorBit .red))) = _
      rw [(toNode_toULong parent).2 (hfits parent rfl), colorOf_colorBit, Update.onPair]
  | setParent p =>
      change ParentColor.mk (toPtr (toNode (toULong p.bits))) (colorOf (rb.rbParentColor &&& 1)) = _
      rw [(toNode_toULong p).2 (hfits p rfl), Update.onPair, RbNode.pair, rbColor, ofInt_one]
  | setParentColor p color =>
      change ParentColor.mk (toPtr (toNode (toULong p.bits))) (colorOf (ofInt (colorBit color))) = _
      rw [(toNode_toULong p).2 (hfits p rfl), colorOf_colorBit, Update.onPair]
  | setBlack =>
      change ParentColor.mk (toPtr (toNode (rb.rbParentColor &&& ~~~3)))
        (colorOf (ofInt (colorBit .black))) = _
      rw [colorOf_colorBit, Update.onPair, RbNode.pair, rbParent, ofInt_not_three]

variable {n : ℕ} {s s' : RbMem D}

/-- The node at `n` of the tree code has the pair that the word of `rb` stands for. -/
def SamePair (n : ℕ) (rb : RbNode m) (s : RbMem D) : Prop :=
  ∃ r, s.node n = some r ∧ r.rbParentColor = rb.pair

theorem samePair_modifyNode {rb' : RbNode m} {f : Rbtree.RbNode → Rbtree.RbNode}
    (h : SamePair n rb s) (hf : ∀ r, r.rbParentColor = rb.pair → (f r).rbParentColor = rb'.pair)
    (hrun : (modifyNode (some n) f).run s = .ok ((), s')) : SamePair n rb' s' := by
  obtain ⟨r, hr, hpair⟩ := h
  simp only [run_modifyNode, atNode, hr, Except.ok.injEq, Prod.mk.injEq, true_and] at hrun
  subst hrun
  exact ⟨f r, Function.update_self .., hf r hpair⟩

/-- A link to a node changes no pair. -/
theorem samePair_write {link : RbLink} {q : Ptr} (h : SamePair n rb s)
    (hrun : (link.write q).run s = .ok ((), s')) : SamePair n rb s' := by
  cases link with
  | root =>
      cases hrun
      exact h
  | child p d =>
      cases p with
      | none => cases hrun
      | some k =>
          by_cases hk : k = n
          · subst hk
            exact samePair_modifyNode h (fun r hr => by cases d <;> exact hr) hrun
          · obtain ⟨r, hr, hpair⟩ := h
            change (modifyNode (some k) _).run s = _ at hrun
            rw [run_modifyNode, atNode] at hrun
            cases hk' : s.node k with
            | none => simp [hk'] at hrun
            | some r' =>
                simp only [hk', Except.ok.injEq, Prod.mk.injEq, true_and] at hrun
                subst hrun
                exact ⟨r, (Function.update_of_ne (Ne.symm hk) _ _).trans hr, hpair⟩

/-- **The pair stands for the word**: a call in the tree code does to the pair what the accessor does
    to the word. -/
theorem samePair_exec (h : SamePair n rb s) (hfits : op.Fits)
    (hrun : (op.exec n).run s = .ok ((), s')) : SamePair n (op.apply rb) s' := by
  have hpair : (op.apply rb).pair = op.onPair rb.pair := pair_apply hfits
  cases op with
  | linkNode node parent link =>
      obtain ⟨_, s₁, hmodify, hwrite⟩ := Exec.of_run_bind hrun
      exact samePair_write (samePair_modifyNode h (fun r hr => by rw [hpair]; rfl) hmodify) hwrite
  | setParent p => exact samePair_modifyNode h (fun r hr => by rw [hpair, ← hr]; rfl) hrun
  | setParentColor p color => exact samePair_modifyNode h (fun r hr => by rw [hpair]; rfl) hrun
  | setBlack => exact samePair_modifyNode h (fun r hr => by rw [hpair, ← hr]; rfl) hrun

theorem samePair_run (h : SamePair n rb s) {ops : List (Update m)} (hfits : ∀ op ∈ ops, op.Fits)
    (hrun : (ops.forM (Update.exec n)).run s = .ok ((), s')) : SamePair n (run rb ops) s' := by
  induction ops generalizing rb s with
  | nil =>
      cases hrun
      exact h
  | cons op ops ih =>
      obtain ⟨_, s₁, hop, hops⟩ := Exec.of_run_bind hrun
      exact ih (samePair_exec h (hfits op List.mem_cons_self) hop)
        (fun op' hop' => hfits op' (List.mem_cons_of_mem _ hop')) hops

end Pair

/-! ## Every target, every node and every sequence -/

theorem readsBack_of_fits (rb : RbNode m) {ops : List (Update m)}
    (hfits : ∀ p, (lastSet ops).parent = some p → p.Fits) : ReadsBack rb ops := by
  have hword := word_run rb ops
  refine ⟨fun p hp => ?_, fun p hp hred => ?_, fun c hc => ?_, fun hp => ?_, fun hc => ?_⟩
  · rw [hword.rbParent, hp]
    exact (toNode_toULong p).2 (hfits p hp)
  · rw [hword.rbRedParent hp hred]
    exact (toNode_toULong p).2 (hfits p hp)
  · rw [hword.rbColor, hc]
    rfl
  · rw [hword.rbParent, hp, rbParent, ofInt_not_three]
    rfl
  · rw [hword.rbColor, hc, rbColor, ofInt_one]
    rfl

/-- Elsewhere than on 64-bit Windows an `unsigned long` has the bits of a pointer. -/
theorem readsBack_of_ne_llp64 (hm : m ≠ .llp64) (rb : RbNode m) (ops : List (Update m)) :
    ReadsBack rb ops := by
  refine readsBack_of_fits rb fun p _ => ?_
  cases m with
  | ilp32 => exact p.bits.isLt
  | lp64 => exact p.bits.isLt
  | llp64 => exact absurd rfl hm

/-- **When parent and colour read back**: for every target, after any sequence of calls on any node,
    if and only if an `unsigned long` can hold the address of the parent that was set last. -/
theorem readsBack_iff_fits (rb : RbNode m) (ops : List (Update m)) :
    ReadsBack rb ops ↔ ∀ p, (lastSet ops).parent = some p → p.Fits := by
  refine ⟨fun hreads p hp => ?_, readsBack_of_fits rb⟩
  have hparent := hreads.parent p hp
  rw [(word_run rb ops).rbParent, hp] at hparent
  exact (toNode_toULong p).1 hparent

/-- On 64-bit Windows a parent at 4 GB reads back as NULL. -/
theorem readsBack_wrong_llp64 : ¬ ReadsBack (m := .llp64) ⟨0, 0, 0⟩
    [.linkNode ⟨0x10000, by decide⟩ ⟨0x100000000, by decide⟩ .root] := by
  intro hreads
  exact absurd (hreads.parent _ rfl) (by decide)

end StructLib.Rbtree.Packed
