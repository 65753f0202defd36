import StructLib.Lib.Exec
import StructLib.Lib.Chain

set_option autoImplicit false

/-! # The list with a single pointer head (`hlist.h`)

A node's `pprev` points to a variable of type `hnode_t *`: the `first` of a head, the `next` of a
node or, after `hlist_del`, the parameter of a call that is over. NULL node pointers are `none`. -/

namespace StructLib.Hlist

/-- The address of a head or of a node. -/
abbrev Ptr := ℕ

/-- An `hnode_t **` that is not NULL. -/
inductive Place where
  /-- `&h->first`. -/
  | first (h : Ptr)
  /-- `&n->next`. -/
  | next (n : Ptr)
  /-- `&n` for the parameter `n` of `hlist_del`. -/
  | param
  deriving DecidableEq, Repr

/-- The heads and nodes that exist, and their fields: `link` has the `first` of the heads and the
    `next` of the nodes. -/
structure HlistMem where
  isHead : Ptr → Bool
  isNode : Ptr → Bool
  link : Place → Option Ptr
  pprev : Ptr → Option Place

/-- The variables that may be read and written. -/
def HlistMem.live (s : HlistMem) : Place → Bool
  | .first h => s.isHead h
  | .next n => s.isNode n
  | .param => false

/-- `*p`, which is `h->first` for `&h->first` and `n->next` for `&n->next`. -/
def getLink (p : Place) : Exec HlistMem (Option Ptr) := do
  let s ← get
  if s.live p then return s.link p else Exec.undef

/-- `*p = v`. -/
def setLink (p : Place) (v : Option Ptr) : Exec HlistMem Unit := do
  let s ← get
  if s.live p then set { s with link := Function.update s.link p v } else Exec.undef

def getPprev (n : Ptr) : Exec HlistMem (Option Place) := do
  let s ← get
  if s.isNode n then return s.pprev n else Exec.undef

def setPprev (n : Ptr) (p : Option Place) : Exec HlistMem Unit := do
  let s ← get
  if s.isNode n then set { s with pprev := Function.update s.pprev n p } else Exec.undef

/-- `*p = v` for a `p` that may be NULL. -/
def setThrough (p : Option Place) (v : Option Ptr) : Exec HlistMem Unit :=
  match p with
  | none => Exec.undef
  | some p => setLink p v

/-- `if (n) n->pprev = p;` -/
def setPprevIf (n : Option Ptr) (p : Option Place) : Exec HlistMem Unit :=
  match n with
  | none => return
  | some n => setPprev n p

/-! ## Initialisation -/

def initHlistHead (h : Ptr) : Exec HlistMem Unit := setLink (.first h) none

def initHlistNode (h : Ptr) : Exec HlistMem Unit := do
  setLink (.next h) none
  setPprev h none

def hlistUnhashed (h : Ptr) : Exec HlistMem Bool := do
  return (← getPprev h).isNone

/-! ## Removing -/

/-- `__hlist_del`. -/
def hlistDelLinks (n : Ptr) : Exec HlistMem Unit := do
  let next ← getLink (.next n)
  let pprev ← getPprev n
  setThrough pprev next
  setPprevIf next pprev

def hlistDel (n : Ptr) : Exec HlistMem Unit := do
  hlistDelLinks n
  setLink (.next n) (some n)
  setPprev n (some .param)

def hlistDelInit (n : Ptr) : Exec HlistMem Unit := do
  if ← hlistUnhashed n then return
  else
    hlistDelLinks n
    initHlistNode n

/-! ## Adding -/

def hlistAddHead (n h : Ptr) : Exec HlistMem Unit := do
  let first ← getLink (.first h)
  setLink (.next n) first
  setPprevIf first (some (.next n))
  setLink (.first h) (some n)
  setPprev n (some (.first h))

def hlistAddBefore (n next : Ptr) : Exec HlistMem Unit := do
  setPprev n (← getPprev next)
  setLink (.next n) (some next)
  setPprev next (some (.next n))
  setThrough (← getPprev n) (some n)

def hlistAddAfter (n next : Ptr) : Exec HlistMem Unit := do
  setLink (.next next) (← getLink (.next n))
  setLink (.next n) (some next)
  setPprev next (some (.next n))
  setPprevIf (← getLink (.next next)) (some (.next next))

/-! ## Moving a whole list -/

def hlistMoveList (old dest : Ptr) : Exec HlistMem Unit := do
  setLink (.first dest) (← getLink (.first old))
  setPprevIf (← getLink (.first dest)) (some (.first dest))
  setLink (.first old) none

end StructLib.Hlist
