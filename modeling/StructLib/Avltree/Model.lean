import StructLib.Lib.Exec
import StructLib.Lib.PtrTree

set_option autoImplicit false

/-! # The AVL tree code (`avltree.h`, `avltree.cpp`)

A node is one `avltree_t`; the bytes that `malloc` adds behind the struct are what its `data`
pointer points to, so the record holds them itself. Heights are `int`s that stay far below `2 ^ 31`:
no path is longer than the number of nodes in memory.

The left and right branches of the insertion are mirror images; they are one definition with the
side `d` as a parameter, the source's left branch being `d = .left`; so are those of the removal.
The rotations are not. -/

namespace StructLib.Avl

/-! ## Memory -/

/-- A pointer to an `avltree_t`, or NULL. -/
abbrev Ptr := Option ℕ

/-- `avltree_t`. -/
structure AvlEntry where
  minKey : UInt32
  maxKey : UInt32
  left : Ptr
  right : Ptr
  parent : Ptr
  height : ℤ
  balanceFactor : ℤ
  dataLen : ℤ
  data : List UInt8
  deriving DecidableEq, Repr

/-- The `left` or the `right` field. -/
def AvlEntry.child (r : AvlEntry) : Dir → Ptr
  | .left => r.left
  | .right => r.right

def AvlEntry.setChild (r : AvlEntry) (d : Dir) (p : Ptr) : AvlEntry :=
  match d with
  | .left => { r with left := p }
  | .right => { r with right := p }

/-- The allocated nodes, and the caller's variable to which `new_root` points. -/
structure AvlMem where
  heap : Cells AvlEntry
  newRoot : Ptr

/-- Follow a pointer. -/
def load (p : Ptr) : Exec AvlMem AvlEntry := do
  match p.bind (← get).heap with
  | some r => return r
  | none => Exec.undef

/-- Change the node a pointer points to. -/
def modifyEntry (p : Ptr) (f : AvlEntry → AvlEntry) : Exec AvlMem Unit := do
  let r ← load p
  modify fun s => { s with heap := Function.update s.heap (p.getD 0) (some (f r)) }

/-- `p->left = q` and `p->right = q`. -/
def setChild (d : Dir) (p q : Ptr) : Exec AvlMem Unit := modifyEntry p (·.setChild d q)

def setParent (p q : Ptr) : Exec AvlMem Unit := modifyEntry p ({ · with parent := q })

def setHeight (p : Ptr) (h : ℤ) : Exec AvlMem Unit := modifyEntry p ({ · with height := h })

/-- An `avltree_t **`: the caller's variable or a child field of a node. -/
inductive Slot where
  | root
  | child (p : Ptr) (d : Dir)
  deriving DecidableEq, Repr

/-- `*slot = q`. -/
def Slot.write (q : Ptr) : Slot → Exec AvlMem Unit
  | root => modify fun s => { s with newRoot := q }
  | child p d => setChild d p q

/-! ## Rotations -/

def getHeight (tree : Ptr) : Exec AvlMem ℤ := do
  if tree.isNone then return -1 else return (← load tree).height

/-- `MAX(GetHeight(tree->left), GetHeight(tree->right)) + 1`. -/
def heightOfChildren (tree : Ptr) : Exec AvlMem ℤ := do
  let l ← getHeight (← load tree).left
  let r ← getHeight (← load tree).right
  return max l r + 1

/-- `if (tree != NULL) tree->parent = parent`. -/
def adopt (tree parent : Ptr) : Exec AvlMem Unit :=
  if tree.isSome then setParent tree parent else return

/-- The last lines of a rotation: the heights of the old and of the new root, `outer` being the
    child of the new root that has stayed where it was. -/
def setRotatedHeights (outer : AvlEntry → Ptr) (tree root : Ptr) : Exec AvlMem Unit := do
  setHeight tree (← heightOfChildren tree)
  let o ← getHeight (outer (← load root))
  setHeight root (max o (← load tree).height + 1)

def llRotate (tree : Ptr) : Exec AvlMem Ptr := do
  let root := (← load tree).left
  setParent root (← load tree).parent
  setParent tree root
  setChild .left tree (← load root).right
  adopt (← load tree).left tree
  setChild .right root tree
  setRotatedHeights (·.left) tree root
  return root

/-- The new right subtree of `tree` is its own left subtree, and not the left subtree of `root`. -/
def rrRotate (tree : Ptr) : Exec AvlMem Ptr := do
  let root := (← load tree).right
  setParent root (← load tree).parent
  setParent tree root
  setChild .right tree (← load tree).left
  adopt (← load tree).right tree
  setChild .left root tree
  setRotatedHeights (·.right) tree root
  return root

/-- Both rotations are at `tree`, not the first one at its left child. -/
def lrRotate (tree : Ptr) : Exec AvlMem Ptr := do
  let tree ← rrRotate tree
  llRotate tree

def rlRotate (tree : Ptr) : Exec AvlMem Ptr := do
  let tree ← llRotate tree
  rrRotate tree

/-! ## Insertion -/

/-- What `malloc`, `memset` and the assignments make of the block `mem`. `height` and the links are
    zero from the `memset`; so is `data_len`, which no assignment sets. -/
def newEntry (minKey maxKey : UInt32) (data : List UInt8) : AvlEntry :=
  { minKey, maxKey, left := none, right := none, parent := none, height := 0, balanceFactor := 0,
    dataLen := 0, data }

/-- Allocate and fill a node. `sizeof(avltree_t) + data_len` bytes do not hold an `avltree_t` when
    `data_len` is negative. -/
def allocEntry (minKey maxKey : UInt32) (data : List UInt8) (dataLen : ℤ) (mem : ℕ) :
    Exec AvlMem Unit := do
  if dataLen < 0 ∨ (data.length : ℤ) < dataLen then
    Exec.undef
  else
    let r := newEntry minKey maxKey (data.take dataLen.toNat)
    modify fun s => { s with heap := Function.update s.heap mem (some r) }

/-- The last lines: the height, and the result through `new_root`. -/
def insertDone (tree : Ptr) (newRoot : Slot) : Exec AvlMem ℤ := do
  setHeight tree (← heightOfChildren tree)
  newRoot.write tree
  return 0

/-- The rotation for a path that goes to the side `d` twice. -/
def rotateOuter (d : Dir) (tree : Ptr) : Exec AvlMem Ptr :=
  match d with
  | .left => llRotate tree
  | .right => rrRotate tree

/-- The rotation for a path that goes to the side `d` and then to the other one. -/
def rotateInner (d : Dir) (tree : Ptr) : Exec AvlMem Ptr :=
  match d with
  | .left => lrRotate tree
  | .right => rlRotate tree

/-- `minKey < key` for the left branch, `minKey > key` for the right one. -/
def keyBeyond (d : Dir) (minKey key : UInt32) : Bool :=
  match d with
  | .left => minKey < key
  | .right => minKey > key

/-- After an insertion into the subtree on the side `d`. -/
def rebalanceSide (d : Dir) (tree : Ptr) (minKey : UInt32) : Exec AvlMem Ptr := do
  setParent ((← load tree).child d) tree
  let h ← getHeight ((← load tree).child d)
  let h' ← getHeight ((← load tree).child d.flip)
  if h - h' = 2 then
    if keyBeyond d minKey (← load ((← load tree).child d)).minKey then rotateOuter d tree
    else rotateInner d tree
  else
    return tree

/-- The test for an overlap: one end of the new range lies in the range of the node. -/
def AvlEntry.Overlaps (t : AvlEntry) (minKey maxKey : UInt32) : Prop :=
  (t.minKey ≤ minKey ∧ minKey ≤ t.maxKey) ∨ (t.minKey ≤ maxKey ∧ maxKey ≤ t.maxKey)

instance (t : AvlEntry) (minKey maxKey : UInt32) : Decidable (t.Overlaps minKey maxKey) :=
  inferInstanceAs (Decidable (_ ∨ _))

/-- `mem` is what `malloc` returns, should the call get there. -/
def insertAvlEntry (minKey maxKey : UInt32) (data : List UInt8) (dataLen : ℤ) (mem : Ptr) :
    ℕ → Ptr → Slot → Exec AvlMem ℤ
  | 0, _, _ => Exec.outOfFuel
  | fuel + 1, tree, newRoot => do
      if tree.isNone then
        match mem with
        | none => return ENOMEM
        | some m =>
            allocEntry minKey maxKey data dataLen m
            insertDone (some m) newRoot
      else
        let t ← load tree
        if t.Overlaps minKey maxKey then
          newRoot.write tree
          return EEXIST
        else
          let d := if maxKey < t.minKey then Dir.left else .right
          let ret ← insertAvlEntry minKey maxKey data dataLen mem fuel (t.child d) (.child tree d)
          if ret ≠ 0 then return ret
          else insertDone (← rebalanceSide d tree minKey) newRoot

/-! ## Searches -/

/-- `while (tree->left) tree = tree->left`, and the same loop with `right`. -/
def outermostLoop (d : Dir) : ℕ → Ptr → Exec AvlMem Ptr
  | 0, _ => Exec.outOfFuel
  | fuel + 1, tree => do
      let next := (← load tree).child d
      if next.isSome then outermostLoop d fuel next else return tree

def outermostEntry (d : Dir) (fuel : ℕ) (tree : Ptr) : Exec AvlMem Ptr :=
  if tree.isNone then return none else outermostLoop d fuel tree

def getMinAvlEntry (fuel : ℕ) (tree : Ptr) : Exec AvlMem Ptr := outermostEntry .left fuel tree

def getMaxAvlEntry (fuel : ℕ) (tree : Ptr) : Exec AvlMem Ptr := outermostEntry .right fuel tree

def findAvlEntry (key : UInt32) : ℕ → Ptr → Exec AvlMem Ptr
  | 0, _ => Exec.outOfFuel
  | fuel + 1, tree => do
      if tree.isNone then return none
      else
        let t ← load tree
        if t.minKey ≤ key ∧ key ≤ t.maxKey then return tree
        else if key < t.minKey then findAvlEntry key fuel t.left
        else findAvlEntry key fuel t.right

/-! ## Removal -/

/-- The subtree on the side `d` is too deep. -/
def rotateDeep (d : Dir) (tree : Ptr) : Exec AvlMem Ptr := do
  let deep := (← load tree).child d
  let outer ← getHeight ((← load deep).child d)
  let inner ← getHeight ((← load deep).child d.flip)
  if outer > inner then rotateOuter d tree else rotateInner d tree

def rebalanceAvlTree (tree : Ptr) : Exec AvlMem Ptr := do
  let leftHeight ← getHeight (← load tree).left
  let rightHeight ← getHeight (← load tree).right
  if leftHeight - rightHeight = 2 then rotateDeep .left tree
  else if leftHeight - rightHeight = -2 then rotateDeep .right tree
  else return tree

/-- The node to replace `tree`: the least one on its right, or else the greatest one on its left. -/
def replacement (fuel : ℕ) (tree : AvlEntry) : Exec AvlMem Ptr := do
  let newRoot ← getMinAvlEntry fuel tree.right
  if newRoot.isNone then getMaxAvlEntry fuel tree.left else return newRoot

/-- Clear the link to the node that is to replace the removed one, or make it a link to its only
    child. Which link that is depends on the side of the child. -/
def unlinkEntry (newRoot : Ptr) : Exec AvlMem Unit := do
  let r ← load newRoot
  if r.left.isSome then setChild .right r.parent r.left
  else if r.right.isSome then setChild .left r.parent r.right
  else if (← load r.parent).left = newRoot then setChild .left r.parent none
  else setChild .right r.parent none

/-- The replacement gets the links of `tree`, which is freed. -/
def replaceEntry (tree newRoot : Ptr) : Exec AvlMem Unit := do
  setParent newRoot none
  setChild .left newRoot (← load tree).left
  setChild .right newRoot (← load tree).right
  modify fun s => { s with heap := Function.update s.heap (tree.getD 0) none }

def EINVAL : ℤ := 22

/-- The left and the right branch of the descent are one, with the side `d` as in `insertAvlEntry`.
    -/
def removeAvlEntry (minKey : UInt32) : ℕ → Ptr → Option Slot → Exec AvlMem ℤ
  | 0, _, _ => Exec.outOfFuel
  | fuel + 1, tree, newTree => do
      match newTree with
      | none => return EINVAL
      | some slot =>
          if tree.isNone then return ENOENT
          else
            let t ← load tree
            if minKey = t.minKey then
              let newRoot ← replacement fuel t
              if newRoot.isNone then
                slot.write none
                return 0
              else
                unlinkEntry newRoot
                replaceEntry tree newRoot
                slot.write (← rebalanceAvlTree newRoot)
                return 0
            else
              let d := if minKey < t.minKey then Dir.left else .right
              let ret ← removeAvlEntry minKey fuel (t.child d) (some (.child tree d))
              if ret ≠ 0 then return ret
              else
                slot.write (← rebalanceAvlTree tree)
                return 0

end StructLib.Avl
