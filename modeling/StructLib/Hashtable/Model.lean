import StructLib.Lib.Exec
import StructLib.Lib.Ring
import Mathlib.Logic.Function.Basic

set_option autoImplicit false

/-! # The hash table code (`hashtable.h`, `hashtable.cpp`)

One `hashtable_t` is in play, and it is not NULL: each function starts by returning an error when it
is. A `hashentry_t` holds three `listentry_t`s, by which it hangs in a bucket, in `FastList` and
among its siblings; the code casts freely between pointers to them and to the entry. `Ptr` therefore
keeps, for a pointer into an entry, how many `listentry_t`s it lies behind the start of the block.

Memory is kept field by field: the links of all `listentry_t`s, and the rest of each entry. -/

namespace StructLib.Hash

/-! ## Memory -/

/-- A `listentry_t *` or a `hashentry_t *`. -/
inductive Ptr where
  | null
  /-- `&table->FastList`. -/
  | fastList
  /-- `&table->HashTable[i]`. -/
  | burket (i : ℕ)
  /-- `off` list entries behind the start of the block `n`. -/
  | entry (n off : ℕ)
  deriving DecidableEq, Repr

/-- The address `k` list entries behind `p`: `&p->FastEntry` for 1, `&p->BrotherEntry` for 2. -/
def Ptr.plus (p : Ptr) (k : ℕ) : Ptr :=
  match p with
  | .entry n off => .entry n (off + k)
  | _ => .null

/-- `(uint8_t *)p - sizeof(listentry_t)`. -/
def Ptr.minusOne : Ptr → Ptr
  | .entry n (off + 1) => .entry n off
  | _ => .null

/-- `hashentry_t`, but for the links. -/
structure HashEntry where
  child : Ptr
  parent : Ptr
  idNode : UInt32
  dataSize : UInt32
  data : List UInt8
  deriving DecidableEq, Repr

/-- The table and the allocated entries. The array `HashTable` has `heads` elements; `Flink` and
    `Blink` are `link.next` and `link.prev`. -/
structure Hashtable where
  numberOfBurkets : Int32
  numberOfNode : ℤ
  heads : ℕ
  link : Links Ptr
  node : ℕ → Option HashEntry

/-- `p` points to a `listentry_t`. -/
def Hashtable.IsList (s : Hashtable) : Ptr → Prop
  | .null => False
  | .fastList => True
  | .burket i => i < s.heads
  | .entry n off => (s.node n).isSome ∧ off < 3

instance (s : Hashtable) : DecidablePred s.IsList
  | .null => inferInstanceAs (Decidable False)
  | .fastList => inferInstanceAs (Decidable True)
  | .burket i => inferInstanceAs (Decidable (i < s.heads))
  | .entry n off => inferInstanceAs (Decidable ((s.node n).isSome ∧ off < 3))

def getFlink (p : Ptr) : Exec Hashtable Ptr := do
  let s ← get
  if s.IsList p then return s.link.next p else Exec.undef

def getBlink (p : Ptr) : Exec Hashtable Ptr := do
  let s ← get
  if s.IsList p then return s.link.prev p else Exec.undef

/-- `p->Flink = q`. -/
def setFlink (p q : Ptr) : Exec Hashtable Unit := do
  let s ← get
  if s.IsList p then
    set { s with link := { s.link with next := Function.update s.link.next p q } }
  else
    Exec.undef

/-- `p->Blink = q`. -/
def setBlink (p q : Ptr) : Exec Hashtable Unit := do
  let s ← get
  if s.IsList p then
    set { s with link := { s.link with prev := Function.update s.link.prev p q } }
  else
    Exec.undef

/-- The entry that a `hashentry_t *` points to. -/
def Hashtable.entryAt (s : Hashtable) : Ptr → Option HashEntry
  | .entry n 0 => s.node n
  | _ => none

/-- Follow a `hashentry_t *`. -/
def loadEntry (p : Ptr) : Exec Hashtable HashEntry := do
  match (← get).entryAt p with
  | some e => return e
  | none => Exec.undef

/-- Change the entry that `p` points to, or free it. -/
def writeEntry (p : Ptr) (e : Option HashEntry) : Exec Hashtable Unit := do
  let _ ← loadEntry p
  match p with
  | .entry n _ => modify fun s => { s with node := Function.update s.node n e }
  | _ => Exec.undef

/-- `p->Child = q`. -/
def setChild (p q : Ptr) : Exec Hashtable Unit := do
  writeEntry p (some { (← loadEntry p) with child := q })

/-- `p->Parent = q`. -/
def setParent (p q : Ptr) : Exec Hashtable Unit := do
  writeEntry p (some { (← loadEntry p) with parent := q })

def freeMemory (p : Ptr) : Exec Hashtable Unit := writeEntry p none

/-- `table->NumberOfNode++`. -/
def incNumberOfNode : Exec Hashtable Unit := do
  let s ← get
  if s.numberOfNode < 2 ^ 31 - 1 then set { s with numberOfNode := s.numberOfNode + 1 }
  else Exec.undef

/-- `table->NumberOfNode--`. -/
def decNumberOfNode : Exec Hashtable Unit := do
  let s ← get
  if -2 ^ 31 < s.numberOfNode then set { s with numberOfNode := s.numberOfNode - 1 }
  else Exec.undef

/-! ## Creation -/

/-- `for( int32_t i = 0; i < table->NumberOfBurkets; i++ )`. -/
def createLoop : ℕ → ℕ → Exec Hashtable Unit
  | 0, _ => Exec.outOfFuel
  | fuel + 1, i => do
      if (i : ℤ) < (← get).numberOfBurkets.toInt then
        setBlink (.burket i) (.burket i)
        setFlink (.burket i) (.burket i)
        createLoop fuel (i + 1)
      else
        return

/-- `memset` leaves NULL in the links of the table and of its array. -/
def zeroHeads (f : Ptr → Ptr) : Ptr → Ptr
  | .entry n off => f (.entry n off)
  | _ => .null

/-- `size_t` has `w` bits and a pointer `w / 8` bytes; `tableMem` and `arrayMem` say whether the two
    calls of `malloc` succeed. The second result is not checked. -/
def createHashTable (w : ℕ) (fuel : ℕ) (length : UInt32) (tableMem arrayMem : Bool) :
    Exec Hashtable ℤ := do
  if ¬ tableMem then
    return ENOMEM
  else
    let listEntrySize := 2 * (w / 8)
    let numberOfBurkets := length.toInt32
    let size := (listEntrySize * numberOfBurkets.toInt % 2 ^ w).toNat
    if ¬ arrayMem ∧ size ≠ 0 then
      Exec.undef
    else
      modify fun s => { s with
        numberOfBurkets, numberOfNode := 0, heads := if arrayMem then size / listEntrySize else 0
        link := ⟨zeroHeads s.link.next, zeroHeads s.link.prev⟩ }
      createLoop fuel 0
      setBlink .fastList .fastList
      setFlink .fastList .fastList
      return 0

/-! ## Lists -/

/-- `&table->HashTable[idNode % table->NumberOfBurkets]`. -/
def burketOf (idNode : UInt32) : Exec Hashtable Ptr := do
  let n := (← get).numberOfBurkets.toUInt32
  if n = 0 then Exec.undef else return .burket (idNode % n).toNat

/-- `while( (listentry_t*)pPDE != pListHead )`, looking for `idNode`. -/
def searchLoop (pListHead : Ptr) (idNode : UInt32) : ℕ → Ptr → Exec Hashtable Ptr
  | 0, _ => Exec.outOfFuel
  | fuel + 1, pPDE => do
      if pPDE = pListHead then return pPDE
      else if (← loadEntry pPDE).idNode = idNode then return pPDE
      else searchLoop pListHead idNode fuel (← getFlink pPDE)

/-- The entry with the id in its bucket, or the list head. -/
def searchBurket (fuel : ℕ) (pListHead : Ptr) (idNode : UInt32) : Exec Hashtable Ptr := do
  searchLoop pListHead idNode fuel (← getFlink pListHead)

/-- Insertion into a bucket. -/
def linkFirst (pListHead p : Ptr) : Exec Hashtable Unit := do
  setFlink p (← getFlink pListHead)
  setBlink (← getFlink p) p
  setFlink pListHead p
  setBlink p pListHead

/-- Insertion into `FastList` and among the siblings. -/
def linkAfter (list p : Ptr) : Exec Hashtable Unit := do
  setFlink p (← getFlink list)
  setBlink p list
  setBlink (← getFlink list) p
  setFlink list p

/-- Unlinking from any of the three lists. -/
def unlink (p : Ptr) : Exec Hashtable Unit := do
  setFlink (← getBlink p) (← getFlink p)
  setBlink (← getFlink p) (← getBlink p)
  setBlink p p
  setFlink p p

/-- Unlinking an entry from its bucket and from `FastList`. -/
def unlinkEntry (entry : Ptr) : Exec Hashtable Unit := do
  unlink entry
  unlink (entry.plus 1)

/-! ## Entries -/

/-- `memset` leaves NULL in all links of a new block. -/
def zeroLinks (n : ℕ) (f : Ptr → Ptr) : Ptr → Ptr
  | .entry m off => if m = n then .null else f (.entry m off)
  | p => f p

/-- Allocate the block `n` and fill it. -/
def allocEntry (n : ℕ) (idNode : UInt32) (nodeData : List UInt8) (dataSize : UInt32) :
    Exec Hashtable Unit := do
  if nodeData.length < dataSize.toNat then
    Exec.undef
  else
    let e := ⟨.null, .null, idNode, dataSize, nodeData.take dataSize.toNat⟩
    modify fun s => { s with
      link := ⟨zeroLinks n s.link.next, zeroLinks n s.link.prev⟩
      node := Function.update s.node n (some e) }

/-- `mem` is the block that `malloc` returns. The block is not freed when the id exists. -/
def insertHashEntry (fuel : ℕ) (idNode : UInt32) (nodeData : List UInt8) (dataSize : UInt32)
    (mem : Option ℕ) : Exec Hashtable ℤ := do
  let pListHead ← burketOf idNode
  match mem with
  | none => return ENOMEM
  | some n =>
      allocEntry n idNode nodeData dataSize
      let pPDE ← searchBurket fuel pListHead idNode
      if pPDE ≠ pListHead then return EEXIST
      else
        let pNode := Ptr.entry n 0
        linkFirst pListHead pNode
        linkAfter .fastList (pNode.plus 1)
        setBlink (pNode.plus 2) (pNode.plus 2)
        setFlink (pNode.plus 2) (pNode.plus 2)
        setChild pNode .null
        setParent pNode .null
        incNumberOfNode
        return 0

def removeHashEntry (fuel : ℕ) (idNode : UInt32) : Exec Hashtable ℤ := do
  let pListHead ← burketOf idNode
  let entry ← searchBurket fuel pListHead idNode
  if entry = pListHead then return ENOENT
  else
    unlinkEntry entry
    freeMemory entry
    decNumberOfNode
    return 0

/-- The result is the entry whose `Data` is returned, and what is stored through `data_size`. -/
def findHashEntry (fuel : ℕ) (idNode : UInt32) : Exec Hashtable (Option (Ptr × UInt32)) := do
  let pListHead ← burketOf idNode
  let pPDE ← searchBurket fuel pListHead idNode
  if pPDE = pListHead then return none
  else return some (pPDE, (← loadEntry pPDE).dataSize)

def ENUM_CONTINUE : Int32 := 1

def ENUM_DELETE : Int32 := 2

/-- An `ENUM_ZIPNODE_ROUTINE` with a `Context` of type `κ`. -/
abbrev EnumRoutine (κ : Type) := κ → UInt32 → List UInt8 → UInt32 → Exec Hashtable (Int32 × κ)

/-- What `EnumHashEntry` and `ClearHashTable` do to an entry. -/
def deleteEntry (entry : Ptr) : Exec Hashtable Unit := do
  unlinkEntry entry
  decNumberOfNode
  freeMemory entry

/-- `while( (listentry_t*)pNode != pListHead )` of `EnumHashEntry`: the last action, and what the calls
    leave in the context. -/
def enumLoop {κ : Type} (enumRoutine : EnumRoutine κ) :
    ℕ → Ptr → Int32 → κ → Exec Hashtable (Int32 × κ)
  | 0, _, _, _ => Exec.outOfFuel
  | fuel + 1, pNode, nextAction, context => do
      if pNode = .fastList then return (nextAction, context)
      else
        let entry := pNode.minusOne
        let e ← loadEntry entry
        let (nextAction, context) ← enumRoutine context e.idNode e.data e.dataSize
        let pNode ← getFlink pNode
        if nextAction &&& ENUM_DELETE ≠ 0 then
          deleteEntry entry
        if nextAction &&& ENUM_CONTINUE ≠ 0 then enumLoop enumRoutine fuel pNode nextAction context
        else return (nextAction, context)

/-- `EnumHashEntry` with the context that its caller finds afterwards. -/
def enumContextHashEntry {κ : Type} (enumRoutine : EnumRoutine κ) (fuel : ℕ) (context : κ) :
    Exec Hashtable (ℤ × κ) := do
  let (nextAction, context) ←
    enumLoop enumRoutine fuel (← getFlink .fastList) ENUM_CONTINUE context
  return ((nextAction &&& ENUM_CONTINUE).toInt, context)

def enumHashEntry {κ : Type} (enumRoutine : EnumRoutine κ) (fuel : ℕ) (context : κ) :
    Exec Hashtable ℤ := do
  return (← enumContextHashEntry enumRoutine fuel context).1

/-- `while( pNode != pListHead )` of `ClearHashTable`. -/
def clearLoop : ℕ → Ptr → Exec Hashtable Unit
  | 0, _ => Exec.outOfFuel
  | fuel + 1, pNode => do
      if pNode = .fastList then return
      else
        let entry := pNode.minusOne
        let pNode ← getFlink pNode
        deleteEntry entry
        clearLoop fuel pNode

def clearHashTable (fuel : ℕ) : Exec Hashtable ℤ := do
  clearLoop fuel (← getFlink .fastList)
  return 0

def getHashEntryCount (s : Hashtable) : UInt32 := UInt32.ofInt s.numberOfNode

/-! ## Parents and children -/

/-- `_GetZipperNode`. -/
def getZipperNode (fuel : ℕ) (idNode : UInt32) : Exec Hashtable Ptr := do
  let pListHead ← burketOf idNode
  let pPDE ← searchBurket fuel pListHead idNode
  return if pPDE = pListHead then .null else pPDE

def addChildHashEntry (fuel : ℕ) (idParentNode idChildNode : UInt32) : Exec Hashtable ℤ := do
  let pParentNode ← getZipperNode fuel idParentNode
  let pChildNode ← getZipperNode fuel idChildNode
  if pParentNode = .null ∨ pChildNode = .null then return 0
  else
    let child := (← loadEntry pParentNode).child
    let childList := if child = .null then pChildNode.plus 2 else child.plus 2
    linkAfter childList (pChildNode.plus 2)
    setChild pParentNode pChildNode
    setParent pChildNode pParentNode
    return 0

/-- The new `Child` after the newest one has gone: a cast of the next sibling's `BrotherEntry`,
    which does not lie at the start of the sibling. -/
def passOnChild (pParentNode pChildNode : Ptr) : Exec Hashtable Unit := do
  let next ← getFlink (pChildNode.plus 2)
  if next = pChildNode.plus 2 then setChild pParentNode .null
  else setChild pParentNode next

def removeChildHashEntry (fuel : ℕ) (idParentNode idChildNode : UInt32) : Exec Hashtable ℤ := do
  let pParentNode ← getZipperNode fuel idParentNode
  let pChildNode ← getZipperNode fuel idChildNode
  if pParentNode = .null ∨ pChildNode = .null then return 0
  else
    if (← loadEntry pParentNode).child = pChildNode then
      passOnChild pParentNode pChildNode
    setParent pChildNode .null
    unlink (pChildNode.plus 2)
    return 0

/-- `do … while (CurrentNode != ChildList)`. There are fewer entries than an `int` can count. -/
def countLoop (childList : Ptr) : ℕ → Ptr → ℤ → Exec Hashtable ℤ
  | 0, _, _ => Exec.outOfFuel
  | fuel + 1, currentNode, childCount => do
      let currentNode ← getFlink currentNode
      if currentNode ≠ childList then countLoop childList fuel currentNode (childCount + 1)
      else return childCount + 1

def getChildHashEntryCount (fuel : ℕ) (idNode : UInt32) : Exec Hashtable ℤ := do
  let entry ← getZipperNode fuel idNode
  if entry = .null then return 0
  else
    let child := (← loadEntry entry).child
    if child = .null then return 0
    else countLoop (child.plus 2) fuel (child.plus 2) 0

end StructLib.Hash
