import StructLib.Lib.Exec
import StructLib.Lib.PtrTree

set_option autoImplicit false

/-! # The red-black tree code (`rbtree.h`, `rbtree_augmented.h`, `rbtree.c`)

An `rb_node` is embedded in a container struct; memory is kept field by field, so that `node` holds
the embedded `rb_node`s and `data` the rest of each container (`container_of` is then the identity
on addresses). One `rb_root` is in play, `RbMem.rbNode` being its field.

`__rb_parent_color` packs a parent pointer and a colour into one word; here it is the pair
`ParentColor`, for words see `Packing`.

The left and right branches of the rebalancing code and of the traversals are mirror images; they
are one definition with the side `d` as a parameter, the source's left branch being `d = .left`. -/

namespace StructLib.Rbtree

/-! ## Memory -/

/-- A pointer to a `struct rb_node`, or NULL. -/
abbrev Ptr := Option ℕ

/-- `RB_RED` and `RB_BLACK`. -/
inductive Color where
  | red
  | black
  deriving DecidableEq, Repr

/-- The word `__rb_parent_color`. -/
structure ParentColor where
  parent : Ptr
  color : Color
  deriving DecidableEq, Repr

/-- `struct rb_node`. -/
structure RbNode where
  rbParentColor : ParentColor
  rbRight : Ptr
  rbLeft : Ptr
  deriving DecidableEq, Repr

/-- The `rb_left` or the `rb_right` field. -/
def RbNode.child (r : RbNode) : Dir → Ptr
  | .left => r.rbLeft
  | .right => r.rbRight

def RbNode.setChild (r : RbNode) (d : Dir) (p : Ptr) : RbNode :=
  match d with
  | .left => { r with rbLeft := p }
  | .right => { r with rbRight := p }

/-- The root pointer, the allocated `rb_node`s, and the rest of each container. -/
structure RbMem (D : Type) where
  rbNode : Ptr
  node : Cells RbNode
  data : ℕ → D

variable {D : Type}

/-- Follow a pointer. -/
def load (p : Ptr) : Exec (RbMem D) RbNode := do
  match p.bind (← get).node with
  | some r => return r
  | none => Exec.undef

/-- Change the node a pointer points to. -/
def modifyNode (p : Ptr) (f : RbNode → RbNode) : Exec (RbMem D) Unit := do
  let r ← load p
  modify fun s => { s with node := Function.update s.node (p.getD 0) (some (f r)) }

/-! ## Field access (`rbtree.h`, `rbtree_augmented.h`) -/

/-- `p->rb_left` and `p->rb_right`. -/
def rbChild (d : Dir) (p : Ptr) : Exec (RbMem D) Ptr := do
  return (← load p).child d

/-- `p->rb_left = c` and `p->rb_right = c`. -/
def setRbChild (d : Dir) (p c : Ptr) : Exec (RbMem D) Unit :=
  modifyNode p (·.setChild d c)

def rbParent (p : Ptr) : Exec (RbMem D) Ptr := do
  return (← load p).rbParentColor.parent

def rbColor (p : Ptr) : Exec (RbMem D) Color := do
  return (← load p).rbParentColor.color

def rbIsRed (p : Ptr) : Exec (RbMem D) Bool := do
  return (← rbColor p) = .red

def rbIsBlack (p : Ptr) : Exec (RbMem D) Bool := do
  return (← rbColor p) = .black

def rbSetParent (p q : Ptr) : Exec (RbMem D) Unit :=
  modifyNode p fun r => { r with rbParentColor := ⟨q, r.rbParentColor.color⟩ }

def rbSetParentColor (p q : Ptr) (color : Color) : Exec (RbMem D) Unit :=
  modifyNode p fun r => { r with rbParentColor := ⟨q, color⟩ }

/-- `p->__rb_parent_color = pc`. -/
def setRbParentColor (p : Ptr) (pc : ParentColor) : Exec (RbMem D) Unit :=
  modifyNode p fun r => { r with rbParentColor := pc }

def rbSetBlack (p : Ptr) : Exec (RbMem D) Unit :=
  modifyNode p fun r => { r with rbParentColor := ⟨r.rbParentColor.parent, .black⟩ }

/-- The word is cast to a pointer without a mask: on a black node that is a misaligned pointer,
    which every caller goes on to follow. -/
def rbRedParent (red : Ptr) : Exec (RbMem D) Ptr := do
  let r ← load red
  match r.rbParentColor.color with
  | .red => return r.rbParentColor.parent
  | .black => Exec.undef

/-- `RB_EMPTY_NODE`. -/
def rbEmptyNode (p : Ptr) : Exec (RbMem D) Bool := do
  return (← load p).rbParentColor = ⟨p, .red⟩

/-- `root->rb_node = p`. -/
def setRbNode (p : Ptr) : Exec (RbMem D) Unit :=
  modify fun s => { s with rbNode := p }

/-- A `struct rb_node **`: the root field or a child field of a node. -/
inductive RbLink where
  | root
  | child (p : Ptr) (d : Dir)
  deriving DecidableEq, Repr

/-- `*link`. -/
def RbLink.read : RbLink → Exec (RbMem D) Ptr
  | root => return (← get).rbNode
  | child p d => rbChild d p

/-- `*link = q`. -/
def RbLink.write (q : Ptr) : RbLink → Exec (RbMem D) Unit
  | root => setRbNode q
  | child p d => setRbChild d p q

def rbLinkNode (node parent : Ptr) (link : RbLink) : Exec (RbMem D) Unit := do
  modifyNode node fun _ => ⟨⟨parent, .red⟩, none, none⟩
  link.write node

def rbChangeChild (old new parent : Ptr) : Exec (RbMem D) Unit := do
  if parent.isSome then
    if (← rbChild .left parent) = old then
      setRbChild .left parent new
    else
      setRbChild .right parent new
  else
    setRbNode new

def rbRotateSetParents (old new : Ptr) (color : Color) : Exec (RbMem D) Unit := do
  let parent ← rbParent old
  setRbParentColor new (← load old).rbParentColor
  rbSetParentColor old new color
  rbChangeChild old new parent

/-- `if (tmp) rb_set_parent_color(tmp, p, RB_BLACK)`. -/
def rbAdoptBlack (tmp p : Ptr) : Exec (RbMem D) Unit :=
  if tmp.isSome then rbSetParentColor tmp p .black else return

/-- `if (tmp) rb_set_parent(tmp, p)`. -/
def rbAdopt (tmp p : Ptr) : Exec (RbMem D) Unit :=
  if tmp.isSome then rbSetParent tmp p else return

/-- `tmp && rb_is_red(tmp)`. -/
def rbSomeRed (tmp : Ptr) : Exec (RbMem D) Bool :=
  if tmp.isSome then rbIsRed tmp else return false

/-- `!tmp || rb_is_black(tmp)`. -/
def rbNoneOrBlack (tmp : Ptr) : Exec (RbMem D) Bool :=
  if tmp.isSome then rbIsBlack tmp else return true

/-! ## Callbacks -/

/-- `void (*rotate)(struct rb_node *old, struct rb_node *new)`. -/
abbrev AugmentRotate (D : Type) := Ptr → Ptr → Exec (RbMem D) Unit

/-- `struct rb_augment_callbacks`; `propagate` is a loop and takes fuel. -/
structure RbAugmentCallbacks (D : Type) where
  propagate : ℕ → Ptr → Ptr → Exec (RbMem D) Unit
  copy : Ptr → Ptr → Exec (RbMem D) Unit
  rotate : AugmentRotate D

def dummyPropagate (_ : ℕ) (_ _ : Ptr) : Exec (RbMem D) Unit := return

def dummyCopy (_ _ : Ptr) : Exec (RbMem D) Unit := return

def dummyRotate : AugmentRotate D := fun _ _ => return

def dummyCallbacks : RbAugmentCallbacks D := ⟨dummyPropagate, dummyCopy, dummyRotate⟩

/-! ## Insertion: `__rb_insert` -/

section Insert

variable (augmentRotate : AugmentRotate D)

/-- Case 3: rotate at the grandparent, away from the side `d` of the parent. -/
def rbInsertCase3 (d : Dir) (parent gparent tmp : Ptr) : Exec (RbMem D) Unit := do
  setRbChild d gparent tmp
  setRbChild d.flip parent gparent
  rbAdoptBlack tmp gparent
  rbRotateSetParents gparent parent .red
  augmentRotate gparent parent

/-- Case 2: rotate at the parent, towards its side `d`. The result is the new `tmp`. -/
def rbInsertCase2 (d : Dir) (node parent : Ptr) : Exec (RbMem D) Ptr := do
  let tmp ← rbChild d node
  setRbChild d.flip parent tmp
  setRbChild d node parent
  rbAdoptBlack tmp parent
  rbSetParentColor parent node .red
  augmentRotate parent node
  rbChild d.flip node

/-- The branch of the loop body for a parent on the side `d` of the grandparent. The result is the
    next `node` and `parent` after `continue`, nothing after `break`. -/
def rbInsertSide (d : Dir) (node parent gparent : Ptr) : Exec (RbMem D) (Option (Ptr × Ptr)) := do
  let tmp ← rbChild d.flip gparent
  if ← rbSomeRed tmp then
    -- Case 1: colour flips
    rbSetParentColor tmp gparent .black
    rbSetParentColor parent gparent .black
    let parent ← rbParent gparent
    rbSetParentColor gparent parent .red
    return some (gparent, parent)
  else
    let tmp ← rbChild d.flip parent
    if node = tmp then
      let tmp ← rbInsertCase2 augmentRotate d node parent
      rbInsertCase3 augmentRotate d node gparent tmp
      return none
    else
      rbInsertCase3 augmentRotate d parent gparent tmp
      return none

/-- The loop body. -/
def rbInsertBody (node parent : Ptr) : Exec (RbMem D) (Option (Ptr × Ptr)) := do
  if parent.isNone then
    rbSetParentColor node none .black
    return none
  else if ← rbIsBlack parent then
    return none
  else
    let gparent ← rbRedParent parent
    if parent ≠ (← rbChild .right gparent) then
      rbInsertSide augmentRotate .left node parent gparent
    else
      rbInsertSide augmentRotate .right node parent gparent

def rbInsertLoop : ℕ → Ptr → Ptr → Exec (RbMem D) Unit
  | 0, _, _ => Exec.outOfFuel
  | fuel + 1, node, parent => do
      match ← rbInsertBody augmentRotate node parent with
      | some (node, parent) => rbInsertLoop fuel node parent
      | none => return

/-- `__rb_insert`. -/
def rbInsert (fuel : ℕ) (node : Ptr) : Exec (RbMem D) Unit := do
  let parent ← rbRedParent node
  rbInsertLoop augmentRotate fuel node parent

end Insert

def rbInsertColor (fuel : ℕ) (node : Ptr) : Exec (RbMem D) Unit :=
  rbInsert dummyRotate fuel node

/-! ## Rebalancing after an erasure: `__rb_erase_color` -/

section EraseColor

variable (augmentRotate : AugmentRotate D)

/-- Case 1: rotate at the parent, towards the side `d` of the node. The result is the new sibling.
    -/
def rbEraseCase1 (d : Dir) (parent sibling : Ptr) : Exec (RbMem D) Ptr := do
  let tmp1 ← rbChild d sibling
  setRbChild d.flip parent tmp1
  setRbChild d sibling parent
  rbSetParentColor tmp1 parent .black
  rbRotateSetParents parent sibling .red
  augmentRotate parent sibling
  return tmp1

/-- Case 2: flip the sibling's colour; go on at the parent unless it was red or the root. -/
def rbEraseCase2 (parent sibling : Ptr) : Exec (RbMem D) (Option (Ptr × Ptr)) := do
  rbSetParentColor sibling parent .red
  if ← rbIsRed parent then
    rbSetBlack parent
    return none
  else
    let node := parent
    let parent ← rbParent node
    return if parent.isSome then some (node, parent) else none

/-- Case 3: rotate at the sibling. The result is the new `tmp1` and sibling. -/
def rbEraseCase3 (d : Dir) (parent sibling tmp2 : Ptr) : Exec (RbMem D) (Ptr × Ptr) := do
  let tmp1 ← rbChild d.flip tmp2
  setRbChild d sibling tmp1
  setRbChild d.flip tmp2 sibling
  setRbChild d.flip parent tmp2
  rbAdoptBlack tmp1 sibling
  augmentRotate sibling tmp2
  return (sibling, tmp2)

/-- Case 4: rotate at the parent, towards the side `d` of the node, and flip colours. -/
def rbEraseCase4 (d : Dir) (parent sibling tmp1 : Ptr) : Exec (RbMem D) Unit := do
  let tmp2 ← rbChild d sibling
  setRbChild d.flip parent tmp2
  setRbChild d sibling parent
  rbSetParentColor tmp1 sibling .black
  rbAdopt tmp2 parent
  rbRotateSetParents parent sibling .black
  augmentRotate parent sibling

/-- Cases 2 to 4, the sibling being black by now. -/
def rbEraseBlackSibling (d : Dir) (parent sibling : Ptr) :
    Exec (RbMem D) (Option (Ptr × Ptr)) := do
  let tmp1 ← rbChild d.flip sibling
  if ← rbNoneOrBlack tmp1 then
    let tmp2 ← rbChild d sibling
    if ← rbNoneOrBlack tmp2 then
      rbEraseCase2 parent sibling
    else
      let (tmp1, sibling) ← rbEraseCase3 augmentRotate d parent sibling tmp2
      rbEraseCase4 augmentRotate d parent sibling tmp1
      return none
  else
    rbEraseCase4 augmentRotate d parent sibling tmp1
    return none

/-- The branch of the loop body for a node on the side `d` of its parent. -/
def rbEraseSide (d : Dir) (parent sibling : Ptr) : Exec (RbMem D) (Option (Ptr × Ptr)) := do
  let sibling ←
    if ← rbIsRed sibling then rbEraseCase1 augmentRotate d parent sibling else pure sibling
  rbEraseBlackSibling augmentRotate d parent sibling

/-- The loop body. -/
def rbEraseBody (node parent : Ptr) : Exec (RbMem D) (Option (Ptr × Ptr)) := do
  let sibling ← rbChild .right parent
  if node ≠ sibling then
    rbEraseSide augmentRotate .left parent sibling
  else
    rbEraseSide augmentRotate .right parent (← rbChild .left parent)

def rbEraseColorLoop : ℕ → Ptr → Ptr → Exec (RbMem D) Unit
  | 0, _, _ => Exec.outOfFuel
  | fuel + 1, node, parent => do
      match ← rbEraseBody augmentRotate node parent with
      | some (node, parent) => rbEraseColorLoop fuel node parent
      | none => return

/-- `__rb_erase_color`. -/
def rbEraseColor (fuel : ℕ) (parent : Ptr) : Exec (RbMem D) Unit :=
  rbEraseColorLoop augmentRotate fuel none parent

end EraseColor

/-! ## Erasure: `rb_erase_augmented` -/

section Erase

variable (augment : RbAugmentCallbacks D)

/-- Case 1, no left child. The result is `tmp` and `rebalance`. -/
def rbEraseNoLeft (node child : Ptr) : Exec (RbMem D) (Ptr × Ptr) := do
  let pc := (← load node).rbParentColor
  let parent := pc.parent
  rbChangeChild node child parent
  if child.isSome then
    setRbParentColor child pc
    return (parent, none)
  else
    return (parent, if pc.color = .black then parent else none)

/-- Still case 1, with a left child only. -/
def rbEraseNoRight (node tmp : Ptr) : Exec (RbMem D) (Ptr × Ptr) := do
  let pc := (← load node).rbParentColor
  setRbParentColor tmp pc
  let parent := pc.parent
  rbChangeChild node tmp parent
  return (parent, none)

/-- The `do … while (tmp)` of case 3. The result is `parent` and `successor`. -/
def rbEraseDescend : ℕ → Ptr → Ptr → Exec (RbMem D) (Ptr × Ptr)
  | 0, _, _ => Exec.outOfFuel
  | fuel + 1, successor, tmp => do
      let parent := successor
      let successor := tmp
      let tmp ← rbChild .left tmp
      if tmp.isSome then rbEraseDescend fuel successor tmp else return (parent, successor)

/-- The relinking of case 3: the successor gives its child to its parent and takes the right child
    of the node. The result is `child2`. -/
def rbEraseUnlinkSuccessor (parent successor child : Ptr) : Exec (RbMem D) Ptr := do
  let child2 ← rbChild .right successor
  setRbChild .left parent child2
  setRbChild .right successor child
  rbSetParent child successor
  return child2

/-- Cases 2 and 3 up to where they join. The result is `parent`, `successor` and `child2`. -/
def rbEraseSuccessor (fuel : ℕ) (node child : Ptr) : Exec (RbMem D) (Ptr × Ptr × Ptr) := do
  let tmp ← rbChild .left child
  if tmp.isNone then
    let child2 ← rbChild .right child
    augment.copy node child
    return (child, child, child2)
  else
    let (parent, successor) ← rbEraseDescend fuel child tmp
    let child2 ← rbEraseUnlinkSuccessor parent successor child
    augment.copy node successor
    augment.propagate fuel parent successor
    return (parent, successor, child2)

/-- Where cases 2 and 3 have joined: the successor takes the place of the node. -/
def rbEraseTakePlace (node parent successor child2 : Ptr) : Exec (RbMem D) (Ptr × Ptr) := do
  let tmp ← rbChild .left node
  setRbChild .left successor tmp
  rbSetParent tmp successor
  let pc := (← load node).rbParentColor
  rbChangeChild node successor pc.parent
  if child2.isSome then
    setRbParentColor successor pc
    rbSetParentColor child2 parent .black
    return (successor, none)
  else
    let pc2 := (← load successor).rbParentColor
    setRbParentColor successor pc
    return (successor, if pc2.color = .black then parent else none)

/-- Cases 2 and 3. -/
def rbEraseTwo (fuel : ℕ) (node child : Ptr) : Exec (RbMem D) (Ptr × Ptr) := do
  let (parent, successor, child2) ← rbEraseSuccessor augment fuel node child
  rbEraseTakePlace node parent successor child2

/-- `rb_erase_augmented`. -/
def rbEraseAugmented (fuel : ℕ) (node : Ptr) : Exec (RbMem D) Unit := do
  let child ← rbChild .right node
  let tmp ← rbChild .left node
  let (tmp, rebalance) ←
    if tmp.isNone then rbEraseNoLeft node child
    else if child.isNone then rbEraseNoRight node tmp
    else rbEraseTwo augment fuel node child
  augment.propagate fuel tmp none
  if rebalance.isSome then rbEraseColor augment.rotate fuel rebalance

end Erase

def rbErase (fuel : ℕ) (node : Ptr) : Exec (RbMem D) Unit :=
  rbEraseAugmented dummyCallbacks fuel node

/-! ## Traversal -/

/-- `while (n->rb_left) n = n->rb_left;` and its mirror image. -/
def rbDescend (d : Dir) : ℕ → Ptr → Exec (RbMem D) Ptr
  | 0, _ => Exec.outOfFuel
  | fuel + 1, n => do
      let c ← rbChild d n
      if c.isSome then rbDescend d fuel c else return n

/-- The end of the tree on the side `d`. -/
def rbEnd (d : Dir) (fuel : ℕ) : Exec (RbMem D) Ptr := do
  let n := (← get).rbNode
  if n.isNone then return none
  else rbDescend d fuel n

def rbFirst (fuel : ℕ) : Exec (RbMem D) Ptr := rbEnd .left fuel

def rbLast (fuel : ℕ) : Exec (RbMem D) Ptr := rbEnd .right fuel

/-- `while ((parent = rb_parent(node)) && node == parent->rb_right) node = parent; return parent;`
    and its mirror image. -/
def rbClimb (d : Dir) : ℕ → Ptr → Exec (RbMem D) Ptr
  | 0, _ => Exec.outOfFuel
  | fuel + 1, node => do
      let parent ← rbParent node
      if parent.isNone then return parent
      else if node = (← rbChild d parent) then rbClimb d fuel parent
      else return parent

/-- The neighbour of a node on the side `d`. -/
def rbNeighbour (d : Dir) (fuel : ℕ) (node : Ptr) : Exec (RbMem D) Ptr := do
  if ← rbEmptyNode node then return none
  else
    let c ← rbChild d node
    if c.isSome then rbDescend d.flip fuel c else rbClimb d fuel node

def rbNext (fuel : ℕ) (node : Ptr) : Exec (RbMem D) Ptr := rbNeighbour .right fuel node

def rbPrev (fuel : ℕ) (node : Ptr) : Exec (RbMem D) Ptr := rbNeighbour .left fuel node

end StructLib.Rbtree
