import StructLib.Lib.Exec
import StructLib.Lib.Ring

set_option autoImplicit false

/-! # The doubly linked list code (`dlist.h`)

A list head and an entry are both a `struct list_head`. Addresses are numbers; those of the
`list_head`s that exist are `live`, and NULL is an address that is not. Memory is kept field by
field in `link`. -/

namespace StructLib.Dlist

/-- A `dlist_t *` or a `dnode_t *`. -/
abbrev Ptr := ℕ

/-- All `struct list_head`s. -/
structure DlistMem where
  live : Ptr → Bool
  link : Links Ptr

/-- `p->next`. -/
def getNext (p : Ptr) : Exec DlistMem Ptr := do
  let s ← get
  if s.live p then return s.link.next p else Exec.undef

/-- `p->prev`. -/
def getPrev (p : Ptr) : Exec DlistMem Ptr := do
  let s ← get
  if s.live p then return s.link.prev p else Exec.undef

/-- `p->next = q`. -/
def setNext (p q : Ptr) : Exec DlistMem Unit := do
  let s ← get
  if s.live p then
    set { s with link := { s.link with next := Function.update s.link.next p q } }
  else
    Exec.undef

/-- `p->prev = q`. -/
def setPrev (p q : Ptr) : Exec DlistMem Unit := do
  let s ← get
  if s.live p then
    set { s with link := { s.link with prev := Function.update s.link.prev p q } }
  else
    Exec.undef

/-! ## Adding and removing -/

def dlistInit (list : Ptr) : Exec DlistMem Unit := do
  setNext list list
  setPrev list list

/-- `__list_add`. -/
def listAdd (entry prev next : Ptr) : Exec DlistMem Unit := do
  setPrev next entry
  setNext entry next
  setPrev entry prev
  setNext prev entry

def dlistAdd (list entry : Ptr) : Exec DlistMem Unit := do
  listAdd entry list (← getNext list)

def dlistAddTail (list entry : Ptr) : Exec DlistMem Unit := do
  listAdd entry (← getPrev list) list

/-- `__list_remove`. -/
def listRemove (prev next : Ptr) : Exec DlistMem Unit := do
  setPrev next prev
  setNext prev next

/-- `__list_remove_entry`. -/
def listRemoveEntry (entry : Ptr) : Exec DlistMem Unit := do
  listRemove (← getPrev entry) (← getNext entry)

def dlistRemove (entry : Ptr) : Exec DlistMem Unit := do
  listRemove (← getPrev entry) (← getNext entry)
  setNext entry entry
  setPrev entry entry
  dlistInit entry

def dlistReplace (oldEntry newEntry : Ptr) : Exec DlistMem Unit := do
  setNext newEntry (← getNext oldEntry)
  setPrev (← getNext newEntry) newEntry
  setPrev newEntry (← getPrev oldEntry)
  setNext (← getPrev newEntry) newEntry
  dlistInit oldEntry

def dlistMove (newList entry : Ptr) : Exec DlistMem Unit := do
  listRemoveEntry entry
  dlistAdd newList entry

def dlistMoveTail (newList entry : Ptr) : Exec DlistMem Unit := do
  listRemoveEntry entry
  dlistAddTail newList entry

/-! ## Cutting and joining -/

def dlistEmpty (list : Ptr) : Exec DlistMem Bool := do
  return (← getNext list) = list

def dlistIsSingular (head : Ptr) : Exec DlistMem Bool := do
  if ← dlistEmpty head then return false
  else return (← getNext head) = (← getPrev head)

/-- The arguments of `dlist_move_tail` are in the other order: it is the head that is moved. -/
def dlistRotateLeft (list : Ptr) : Exec DlistMem Unit := do
  if ← dlistEmpty list then return
  else
    let first ← getNext list
    dlistMoveTail first list

/-- `__list_cut_position`. -/
def listCutPosition (list head entry : Ptr) : Exec DlistMem Unit := do
  let newFirst ← getNext entry
  setNext list (← getNext head)
  setPrev (← getNext list) list
  setPrev list entry
  setNext entry list
  setNext head newFirst
  setPrev newFirst head

/-- The condition of the second early return. -/
def cutsNothing (oldList entry : Ptr) : Exec DlistMem Bool := do
  if ← dlistIsSingular oldList then return (← getNext oldList) ≠ entry ∧ oldList ≠ entry
  else return false

def dlistCutPosition (oldList entry newList : Ptr) : Exec DlistMem Unit := do
  if ← dlistEmpty oldList then return
  else if ← cutsNothing oldList entry then return
  else if entry = oldList then dlistInit newList
  else listCutPosition newList oldList entry

/-- `__list_splice`. -/
def listSplice (list prev next : Ptr) : Exec DlistMem Unit := do
  let first ← getNext list
  let last ← getPrev list
  setPrev first prev
  setNext prev first
  setNext last next
  setPrev next last

def dlistJoin (add dest : Ptr) : Exec DlistMem Unit := do
  if ← dlistEmpty add then return
  else listSplice add dest (← getNext dest)

def dlistJoinTail (add dest : Ptr) : Exec DlistMem Unit := do
  if ← dlistEmpty add then return
  else listSplice add (← getPrev dest) dest

end StructLib.Dlist
