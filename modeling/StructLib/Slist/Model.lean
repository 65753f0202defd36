import StructLib.Lib.Interleave
import StructLib.Lib.Chain

set_option autoImplicit false

/-! # The lock-less list code (`slist.h`)

A load of `first` or of a node's `next`, a store to `next`, `cmpxchg` and `xchg` are one access
each. The loops of `slist_add` and `slist_remove_head` repeat for as long as other threads get in
between; a call may make any number of turns (`fuel`). -/

namespace StructLib.Slist

/-- The address of a node; NULL is `none`. -/
abbrev Ptr := ℕ

inductive Place where
  /-- `&head->first`. -/
  | first
  /-- `&n->next`. -/
  | next (n : Ptr)
  deriving DecidableEq

structure SlistMem where
  link : Place → Option Ptr

/-! ## Accesses -/

inductive Acc where
  | readFirst
  | readNext (n : Option Ptr)
  | writeNext (n : Ptr) (v : Option Ptr)
  /-- `cmpxchg(&head->first, old, new)`. -/
  | cmpxchg (old new : Option Ptr)
  /-- `xchg(&head->first, v)`. -/
  | xchg (v : Option Ptr)

abbrev Res : Acc → Type
  | .writeNext _ _ => Unit
  | _ => Option Ptr

def SlistMem.write (s : SlistMem) (p : Place) (v : Option Ptr) : SlistMem :=
  { s with link := Function.update s.link p v }

def perform : (x : Acc) → Exec SlistMem (Res x)
  | .readFirst => do return (← get).link .first
  | .readNext none => Exec.undef
  | .readNext (some n) => do return (← get).link (.next n)
  | .writeNext n v => modify fun s => s.write (.next n) v
  | .cmpxchg old new => do
      let s ← get
      set (if s.link .first = old then s.write .first new else s)
      return s.link .first
  | .xchg v => do
      let s ← get
      set (s.write .first v)
      return s.link .first

def readFirst : Prog Res (Option Ptr) := .atom Acc.readFirst

def readNext (n : Option Ptr) : Prog Res (Option Ptr) := .atom (Acc.readNext n)

def writeNext (n : Ptr) (v : Option Ptr) : Prog Res Unit := .atom (Acc.writeNext n v)

def cmpxchg (old new : Option Ptr) : Prog Res (Option Ptr) := .atom (Acc.cmpxchg old new)

def xchg (v : Option Ptr) : Prog Res (Option Ptr) := .atom (Acc.xchg v)

/-! ## The functions -/

def slistEmpty : Prog Res Bool := do return (← readFirst).isNone

def slistAddLoop (newNode : Ptr) : ℕ → Option Ptr → Prog Res Bool
  | 0, _ => .outOfFuel
  | fuel + 1, oldEntry => do
      writeNext newNode oldEntry
      let entry ← cmpxchg oldEntry (some newNode)
      if entry = oldEntry then return oldEntry.isNone
      else slistAddLoop newNode fuel entry

def slistAdd (newNode : Ptr) (fuel : ℕ) : Prog Res Bool := do
  slistAddLoop newNode fuel (← readFirst)

def slistRemoveLoop : ℕ → Option Ptr → Prog Res (Option Ptr)
  | 0, _ => .outOfFuel
  | fuel + 1, oldEntry => do
      let newEntry ← readNext oldEntry
      let entry ← cmpxchg oldEntry newEntry
      if entry = oldEntry then return oldEntry
      else slistRemoveLoop fuel entry

def slistRemoveHead (fuel : ℕ) : Prog Res (Option Ptr) := do
  slistRemoveLoop fuel (← readFirst)

def slistDelAll : Prog Res (Option Ptr) := xchg none

/-! ## Producers and one consumer -/

inductive Thread (ι : Type) where
  | producer (i : ι)
  | consumer
  deriving DecidableEq

inductive Op where
  | empty
  | add (n : Ptr)
  | removeHead
  | delAll
  deriving DecidableEq

inductive Result where
  | bool (b : Bool)
  | node (p : Option Ptr)
  deriving DecidableEq

def Op.code : Op → ℕ → Prog Res Result
  | empty, _ => do return .bool (← slistEmpty)
  | add n, fuel => do return .bool (← slistAdd n fuel)
  | removeHead, fuel => do return .node (← slistRemoveHead fuel)
  | delAll, _ => do return .node (← slistDelAll)

/-! ## What has been added and taken -/

abbrev Ev (ι : Type) := Event Res (Thread ι) Op Result

/-- The nodes added and not taken, newest first; all nodes added, and all nodes taken, each as often
    as that happened. -/
structure Log where
  stack : List Ptr := []
  added : List Ptr := []
  taken : List Ptr := []
  deriving DecidableEq

/-- A node is added when the `cmpxchg` of its `slist_add` succeeds. A call that takes nodes does so
    when it returns them. -/
def Log.step {ι : Type} (l : Log) : Ev ι → Log
  | ⟨_, .add n, .cmpxchg old _, entry, _⟩ =>
      if entry = old then { l with stack := n :: l.stack, added := n :: l.added } else l
  | ⟨_, .removeHead, _, _, some (.node p)⟩ =>
      { l with stack := l.stack.filter (some · ≠ p), taken := p.toList ++ l.taken }
  | ⟨_, .delAll, _, _, some (.node _)⟩ => { l with stack := [], taken := l.stack ++ l.taken }
  | _ => l

def log {ι : Type} (tr : List (Ev ι)) : Log := tr.foldl Log.step {}

/-- The producers add nodes that are not on the list and that no other call is adding; the consumer
    removes the first node only if the list is not empty. -/
def slistSystem (ι : Type) : System SlistMem Res (Thread ι) Op Result where
  perform := perform
  code op := op.code
  enabled tr c t op :=
    match t, op with
    | _, .empty => True
    | .producer _, .add n =>
        n ∉ (log tr).stack ∧ ∀ t p, c.running t ≠ some (.add n, p)
    | .consumer, .removeHead => (log tr).stack ≠ []
    | .consumer, .delAll => True
    | _, _ => False

end StructLib.Slist
