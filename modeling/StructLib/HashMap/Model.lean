import StructLib.Hlist.Model

set_option autoImplicit false

/-! # The hash map code (`hash_map.h`, the tables of `hlist.h`)

A map is an array of list heads; `burket` counts them from the address of the map. An entry has the
address of the list node it contains. -/

namespace StructLib.HashMap

open Hlist

/-- All heads and nodes, and the `key`s of the entries. -/
structure MapMem where
  list : HlistMem
  key : Ptr → UInt32

/-- Run list code. -/
def onList {α : Type} (x : Exec HlistMem α) : Exec MapMem α :=
  Exec.onPart (·.list) (fun s l => { s with list := l }) x

/-- `entry->key`. -/
def getKey (entry : Ptr) : Exec MapMem UInt32 := do
  let s ← get
  if s.list.isNode entry then return s.key entry else Exec.undef

/-- `entry->key = key`. -/
def setKey (entry : Ptr) (key : UInt32) : Exec MapMem Unit := do
  let s ← get
  if s.list.isNode entry then set { s with key := Function.update s.key entry key }
  else Exec.undef

/-! ## Tables of lists -/

/-- `HTABLE_INDEX`, with an `int` for the size. -/
def htableIndex (h : UInt32) (s : Int32) : UInt32 := h &&& (s - 1).toUInt32

/-- `for (int i=0; i<size; i++)`. -/
def htableInitLoop (list : Ptr) (size : Int32) : ℕ → ℕ → Exec HlistMem Unit
  | 0, _ => Exec.outOfFuel
  | fuel + 1, i => do
      if (i : ℤ) < size.toInt then
        initHlistHead (list + i)
        htableInitLoop list size fuel (i + 1)
      else
        return

def htableInit (fuel : ℕ) (list : Ptr) (size : Int32) : Exec HlistMem Unit :=
  htableInitLoop list size fuel 0

def htableBurket (table : Ptr) (burkSize : Int32) (hash : UInt32) : Ptr :=
  table + (htableIndex hash burkSize).toNat

/-! ## The map -/

/-- `HASH_BURKET_SIZE`. -/
def hashBurketSize : Int32 := 1024

def hashMapInit (fuel : ℕ) (hashMap : Ptr) : Exec MapMem Unit :=
  onList (htableInit fuel hashMap hashBurketSize)

def hashMapInsert (hashMap : Ptr) (key : UInt32) (entry : Ptr) : Exec MapMem Bool := do
  let list := htableBurket hashMap hashBurketSize key
  setKey entry key
  onList (hlistAddHead entry list)
  return true

/-- `hlist_for_each`, looking for `key`. -/
def findLoop (key : UInt32) : ℕ → Option Ptr → Exec MapMem (Option Ptr)
  | 0, _ => Exec.outOfFuel
  | _ + 1, none => return none
  | fuel + 1, some it => do
      if (← getKey it) = key then return some it
      else findLoop key fuel (← onList (getLink (.next it)))

def hashMapFind (fuel : ℕ) (hashMap : Ptr) (key : UInt32) : Exec MapMem (Option Ptr) := do
  let list := htableBurket hashMap hashBurketSize key
  findLoop key fuel (← onList (getLink (.first list)))

def hashMapEarse (fuel : ℕ) (hashMap : Ptr) (key : UInt32) : Exec MapMem (Option Ptr) := do
  match ← hashMapFind fuel hashMap key with
  | none => return none
  | some entry =>
      onList (hlistDel entry)
      return some entry

end StructLib.HashMap
