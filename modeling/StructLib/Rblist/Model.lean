import StructLib.Rbtree.Model

set_option autoImplicit false

/-! # Lists kept in a red-black tree (`rblist.h`, `rblist.cpp`)

A `struct rblist` is a tree, a counter and three callbacks. `node_cmp` and `node_new` are the two
functions of `RblistOps`; the memory that `malloc` hands to `node_new` is an argument, NULL when the
allocation fails, and `node_delete` gives the node's memory back. -/

namespace StructLib.RbList

open Rbtree

variable {D A : Type}

/-- `node_cmp` and `node_new`: how the contents of a node compare with an entry, and what contents a
    node made for an entry has. -/
structure RblistOps (D A : Type) where
  nodeCmp : D → A → ℤ
  nodeNew : A → D

/-- `struct rblist`, the callbacks apart. -/
structure Rblist (D : Type) where
  entries : RbMem D
  nrEntries : UInt32

/-- Run tree code on `&rblist->entries`. -/
def onEntries {α : Type} (x : Exec (RbMem D) α) : Exec (Rblist D) α :=
  Exec.onPart (·.entries) (fun s m => { s with entries := m }) x

/-! ## Callbacks -/

/-- `rblist->node_cmp(node, entry)`. -/
def nodeCmp (ops : RblistOps D A) (node : Ptr) (entry : A) : Exec (RbMem D) ℤ := do
  let _ ← load node
  return ops.nodeCmp ((← get).data (node.getD 0)) entry

/-- `rblist->node_new(rblist, new_entry)`, where `malloc` returns `mem`. -/
def nodeNew (ops : RblistOps D A) (newEntry : A) (mem : Ptr) : Exec (RbMem D) Ptr := do
  match mem with
  | some n =>
      modify fun s => { s with
        node := Function.update s.node n (some ⟨⟨none, .red⟩, none, none⟩)
        data := Function.update s.data n (ops.nodeNew newEntry) }
      return mem
  | none => return none

/-- `rblist->node_delete(rblist, node)`. -/
def nodeDelete (node : Ptr) : Exec (RbMem D) Unit := do
  let _ ← load node
  modify fun s => { s with node := Function.update s.node (node.getD 0) none }

/-! ## Operations -/

def rblistInit : Exec (Rblist D) Unit :=
  modify fun s => { s with entries := { s.entries with rbNode := none }, nrEntries := 0 }

/-- `while (*p != NULL)` of `rblist__add_node` and `rblist__find`. The result is `parent`, and `p`
    unless the loop was left with an equal node. -/
def rblistSearch (ops : RblistOps D A) (entry : A) :
    ℕ → RbLink → Ptr → Exec (RbMem D) (Ptr × Option RbLink)
  | 0, _, _ => Exec.outOfFuel
  | fuel + 1, p, parent => do
      let node ← p.read
      if node.isSome then
        let parent := node
        let rc ← nodeCmp ops parent entry
        if rc > 0 then rblistSearch ops entry fuel (.child node .left) parent
        else if rc < 0 then rblistSearch ops entry fuel (.child node .right) parent
        else return (parent, none)
      else return (parent, some p)

/-- `rblist__add_node` from the allocation on. -/
def rblistInsertNew (ops : RblistOps D A) (fuel : ℕ) (newEntry : A) (mem parent : Ptr) (p : RbLink) :
    Exec (Rblist D) ℤ := do
  let newNode ← onEntries (nodeNew ops newEntry mem)
  if newNode.isNone then return -ENOMEM
  else
    onEntries (rbLinkNode newNode parent p)
    onEntries (rbInsertColor fuel newNode)
    modify fun s => { s with nrEntries := s.nrEntries + 1 }
    return 0

def rblistAddNode (ops : RblistOps D A) (fuel : ℕ) (newEntry : A) (mem : Ptr) :
    Exec (Rblist D) ℤ := do
  let (parent, p) ← onEntries (rblistSearch ops newEntry fuel .root none)
  match p with
  | none => return -EEXIST
  | some p => rblistInsertNew ops fuel newEntry mem parent p

def rblistRemoveNode (fuel : ℕ) (node : Ptr) : Exec (Rblist D) Unit := do
  onEntries (rbErase fuel node)
  onEntries (nodeDelete node)

def rblistFind (ops : RblistOps D A) (fuel : ℕ) (entry : A) : Exec (Rblist D) Ptr := do
  let (parent, p) ← onEntries (rblistSearch ops entry fuel .root none)
  match p with
  | none => return parent
  | some _ => return none

/-- `while (next)` of `rblist__delete`. The result is the list of the calls of `node_delete`, each
    with its node and the memory at that time. -/
def rblistDeleteLoop (fuel : ℕ) : ℕ → Ptr → Exec (RbMem D) (List (ℕ × RbMem D))
  | 0, _ => Exec.outOfFuel
  | _ + 1, none => return []
  | rounds + 1, some pos => do
      let next ← rbNext fuel (some pos)
      rbErase fuel (some pos)
      let found ← get
      nodeDelete (some pos)
      let calls ← rblistDeleteLoop fuel rounds next
      return (pos, found) :: calls

/-- `rblist__delete` up to `free(rblist)`. -/
def rblistDelete (fuel : ℕ) : Exec (Rblist D) (List (ℕ × RbMem D)) :=
  onEntries do rblistDeleteLoop fuel fuel (← rbFirst fuel)

/-- `for (node = rb_first(…); node; node = rb_next(node)) if (!idx--) return node;` -/
def rblistEntryLoop (fuel : ℕ) : ℕ → Ptr → UInt32 → Exec (RbMem D) Ptr
  | 0, _, _ => Exec.outOfFuel
  | rounds + 1, node, idx => do
      if node.isNone then return none
      else if idx = 0 then return node
      else rblistEntryLoop fuel rounds (← rbNext fuel node) (idx - 1)

def rblistEntry (fuel : ℕ) (idx : UInt32) : Exec (Rblist D) Ptr :=
  onEntries do rblistEntryLoop fuel fuel (← rbFirst fuel) idx

def rblistEmpty (s : Rblist D) : Bool := s.nrEntries = 0

def rblistNrEntries (s : Rblist D) : UInt32 := s.nrEntries

end StructLib.RbList
