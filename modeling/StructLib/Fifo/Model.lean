import StructLib.Lib.Interleave
import Mathlib.Data.Nat.ModEq

set_option autoImplicit false

/-! # The queue code (`fifo.h`)

The entries are of type `E`; a `void *` is an `Option E`, NULL being `none`. A read or a write of
`head`, `tail` or a slot of the table is one access. `max` is written by `fifo_init` only, and the
programs get it as a parameter. Operands are evaluated from left to right. -/

namespace StructLib.Fifo

/-- `fifo_t`, and what `table` points to: `slots` slots, none of them if it is NULL. -/
structure FifoMem (E : Type) where
  tail : UInt32
  head : UInt32
  max : UInt32
  slots : ℕ
  table : ℕ → Option E

variable {E : Type}

/-- `size_t` and pointers have `w` bits. `malloc` has memory or not (`tableMem`), and leaves in the
    slots what was there. -/
def fifoInit (w : ℕ) (tableMem : Bool) (max : Int32) (memory : ℕ → Option E) : FifoMem E where
  tail := 0
  head := 0
  max := (max + 1).toUInt32
  slots := if tableMem then (max + 1).toUInt32.toNat * (w / 8) % 2 ^ w / (w / 8) else 0
  table := memory

/-! ## Accesses -/

inductive Acc (E : Type) where
  | readTail
  | readHead
  | readSlot (i : UInt32)
  | writeTail (v : UInt32)
  | writeHead (v : UInt32)
  | writeSlot (i : UInt32) (v : Option E)

def Res (E : Type) : Acc E → Type
  | .readTail | .readHead => UInt32
  | .readSlot _ => Option E
  | .writeTail _ | .writeHead _ | .writeSlot _ _ => Unit

def perform : (x : Acc E) → Exec (FifoMem E) (Res E x)
  | .readTail => do return (← get).tail
  | .readHead => do return (← get).head
  | .readSlot i => do
      let s ← get
      if i.toNat < s.slots then return s.table i.toNat else Exec.undef
  | .writeTail v => modify fun s => { s with tail := v }
  | .writeHead v => modify fun s => { s with head := v }
  | .writeSlot i v => do
      let s ← get
      if i.toNat < s.slots then set { s with table := Function.update s.table i.toNat v }
      else Exec.undef

def readTail : Prog (Res E) UInt32 := .atom Acc.readTail

def readHead : Prog (Res E) UInt32 := .atom Acc.readHead

def readSlot (i : UInt32) : Prog (Res E) (Option E) := .atom (Acc.readSlot i)

def writeTail (v : UInt32) : Prog (Res E) Unit := .atom (Acc.writeTail v)

def writeHead (v : UInt32) : Prog (Res E) Unit := .atom (Acc.writeHead v)

def writeSlot (i : UInt32) (v : Option E) : Prog (Res E) Unit := .atom (Acc.writeSlot i v)

/-! ## The functions -/

def increment (idx max : UInt32) : UInt32 := (idx + 1) % max

def fifoPut (max : UInt32) (entry : Option E) : Prog (Res E) Bool := do
  let nextTail := (increment (← readTail) max).toInt32
  if nextTail.toUInt32 ≠ (← readHead) then
    writeSlot (← readTail) entry
    writeTail nextTail.toUInt32
    return true
  else
    return false

def fifoGet (max : UInt32) : Prog (Res E) (Option E) := do
  if (← readHead) = (← readTail) then
    return none
  else
    let item ← readSlot (← readHead)
    writeHead (increment (← readHead) max)
    return item

/-! ## One producer and one consumer -/

inductive Thread where
  | producer
  | consumer
  deriving DecidableEq

inductive Op (E : Type) where
  | put (entry : E)
  | get

inductive Result (E : Type) where
  | put (done : Bool)
  | got (item : Option E)
  deriving DecidableEq

def Op.code (max : UInt32) : Op E → Prog (Res E) (Result E)
  | put entry => do return .put (← fifoPut max (some entry))
  | get => do return .got (← fifoGet max)

/-- The producer puts entries that are not NULL, the consumer gets them. -/
def fifoSystem (max : UInt32) : System (FifoMem E) (Res E) Thread (Op E) (Result E) where
  perform := perform
  code op _ := op.code max
  enabled _ _ t op :=
    match t, op with
    | .producer, .put _ => True
    | .consumer, .get => True
    | _, _ => False

end StructLib.Fifo
