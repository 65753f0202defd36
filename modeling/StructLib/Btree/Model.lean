import StructLib.Lib.Exec

set_option autoImplicit false

/-! # The B+tree code (`btree.c`, `btree.h`)

A node is an array of longs: `no_pairs` keys of `keylen` longs each, then `no_pairs` values, which
are pointers to nodes above the leaves. Within a node the keys fall from left to right, and unused
slots are zero. Pointers are longs, `0` being NULL.

`w` is `BITS_PER_LONG`. A key argument is a pointer, because the code hands out pointers into nodes
that it goes on to change; `KeyPtr.read` follows it at the time of the use.

`mempool_alloc` is not part of the source. The state holds what its coming calls will return:
`pool` is any list of addresses, and a call fails where the next one is NULL or in use, or where
there is none left. -/

namespace StructLib.Btree

/-! ## Geometries -/

/-- `struct btree_geo`, with what the geometries of the source have in common. `nodeLongs` is
    `NODESIZE / sizeof(long)`. -/
structure Geo where
  keylen : ℕ
  noPairs : ℕ
  noLongs : ℕ
  nodeLongs : ℕ
  noLongs_eq : noLongs = noPairs * keylen
  keylen_pos : 0 < keylen
  keylen_le_four : keylen ≤ 4
  four_le_noPairs : 4 ≤ noPairs
  fits : noLongs + noPairs ≤ nodeLongs

/-- `sizeof(long)` is 4 or 8. -/
inductive LongSize where
  | four
  | eight
  deriving DecidableEq, Repr

def LongSize.bytes : LongSize → ℕ
  | four => 4
  | eight => 8

/-- `MAX(L1_CACHE_BYTES, 128)`. -/
def nodesize (l1CacheBytes : ℕ) : ℕ := max l1CacheBytes 128

/-- `64 / BITS_PER_LONG`. -/
def longPerU64 (long : LongSize) : ℕ := 64 / (8 * long.bytes)

/-- A node of `n` longs with as many pairs as fit. -/
def Geo.ofKeylen (n keylen : ℕ) (hpos : 0 < keylen) (hle : keylen ≤ 4)
    (hfour : 4 ≤ n / (1 + keylen)) : Geo where
  keylen := keylen
  noPairs := n / (1 + keylen)
  noLongs := n / (1 + keylen) * keylen
  nodeLongs := n
  noLongs_eq := rfl
  keylen_pos := hpos
  keylen_le_four := hle
  four_le_noPairs := hfour
  fits := by
    have h := Nat.div_mul_le_self n (1 + keylen)
    rw [Nat.mul_add, Nat.mul_one] at h
    omega

theorem four_le_nodesize_div (l1 : ℕ) (long : LongSize) {keylen : ℕ} (h : keylen * long.bytes ≤ 16) :
    4 ≤ nodesize l1 / long.bytes / (1 + keylen) := by
  have hn : 128 ≤ nodesize l1 := Nat.le_max_right ..
  rw [Nat.div_div_eq_div_mul]
  cases long with
  | four =>
      simp only [LongSize.bytes] at *
      rw [Nat.le_div_iff_mul_le (by omega)]
      omega
  | eight =>
      simp only [LongSize.bytes] at *
      rw [Nat.le_div_iff_mul_le (by omega)]
      omega

def btreeGeo32 (l1 : ℕ) (long : LongSize) : Geo :=
  Geo.ofKeylen (nodesize l1 / long.bytes) 1 (by decide) (by decide)
    (four_le_nodesize_div l1 long (by cases long <;> decide))

def btreeGeo64 (l1 : ℕ) (long : LongSize) : Geo :=
  Geo.ofKeylen (nodesize l1 / long.bytes) (longPerU64 long) (by cases long <;> decide)
    (by cases long <;> decide)
    (four_le_nodesize_div l1 long (by cases long <;> decide))

def btreeGeo128 (l1 : ℕ) (long : LongSize) : Geo :=
  Geo.ofKeylen (nodesize l1 / long.bytes) (2 * longPerU64 long) (by cases long <;> decide)
    (by cases long <;> decide)
    (four_le_nodesize_div l1 long (by cases long <;> decide))

/-! ## Memory -/

variable {w : ℕ}

/-- The longs of a node. -/
abbrev Node (w : ℕ) := ℕ → BitVec w

/-- `struct btree_head`, the allocated nodes, and what `mempool_alloc` will return. -/
structure BtreeMem (w : ℕ) where
  node : BitVec w
  height : ℕ
  nodes : BitVec w → Option (Node w)
  pool : List (BitVec w)

/-- Follow a pointer to a node. -/
def load (a : BitVec w) : Exec (BtreeMem w) (Node w) := do
  match (← get).nodes a with
  | some nd => return nd
  | none => Exec.undef

def modifyNode (a : BitVec w) (f : Node w → Node w) : Exec (BtreeMem w) Unit := do
  let nd ← load a
  modify fun s => { s with nodes := Function.update s.nodes a (some (f nd)) }

/-- `mempool_alloc`. -/
def mempoolAlloc : Exec (BtreeMem w) (BitVec w) := fun s =>
  match s.pool with
  | [] => .ok (0, s)
  | p :: pool =>
      if p = 0 ∨ (s.nodes p).isSome then .ok (0, { s with pool })
      else .ok (p, { s with nodes := Function.update s.nodes p (some fun _ => 0), pool })

def mempoolFree (a : BitVec w) : Exec (BtreeMem w) Unit := do
  let _ ← load a
  modify fun s => { s with nodes := Function.update s.nodes a none }

/-- The `memset` is part of `mempoolAlloc`, where the longs of a new node are zero. -/
def btreeNodeAlloc : Exec (BtreeMem w) (BitVec w) := mempoolAlloc

/-! ## Keys -/

def longcmp : List (BitVec w) → List (BitVec w) → ℤ
  | a :: l₁, b :: l₂ => if a < b then -1 else if b < a then 1 else longcmp l₁ l₂
  | _, _ => 0

/-- The loop of `dec_key`, over the longs that are left, last one first. -/
def decLongs : List (BitVec w) → List (BitVec w)
  | [] => []
  | val :: l => if val ≠ 0 then (val - 1) :: l else (val - 1) :: decLongs l

def decKey (key : List (BitVec w)) : List (BitVec w) := (decLongs key.reverse).reverse

def keyzero (key : List (BitVec w)) : Bool := key.all (· = 0)

/-- The longs `bkey(geo, node, n)` points to. -/
def bkey (geo : Geo) (nd : Node w) (n : ℕ) : List (BitVec w) :=
  (List.range geo.keylen).map fun j => nd (n * geo.keylen + j)

/-- An `unsigned long *key`: an array of the caller, or `bkey(geo, node, n)`. -/
inductive KeyPtr (w : ℕ) where
  | caller (key : List (BitVec w))
  | slot (node : BitVec w) (n : ℕ)

def KeyPtr.read (geo : Geo) : KeyPtr w → Exec (BtreeMem w) (List (BitVec w))
  | caller key => return key
  | slot node n => do
      let nd ← load node
      if (n + 1) * geo.keylen ≤ geo.nodeLongs then return bkey geo nd n else Exec.undef

/-! ## Slots of a node -/

/-- The long at `node[geo->no_longs + n]`. -/
def Node.val (geo : Geo) (nd : Node w) (n : ℕ) : BitVec w := nd (geo.noLongs + n)

/-- The node after `longcpy(bkey(geo, node, n), key, geo->keylen)`. -/
def Node.setkey (geo : Geo) (n : ℕ) (key : List (BitVec w)) (nd : Node w) : Node w := fun i =>
  if n * geo.keylen ≤ i ∧ i < (n + 1) * geo.keylen then key.getD (i - n * geo.keylen) 0 else nd i

def Node.setval (geo : Geo) (n : ℕ) (val : BitVec w) (nd : Node w) : Node w :=
  Function.update nd (geo.noLongs + n) val

def bval (geo : Geo) (node : BitVec w) (n : ℕ) : Exec (BtreeMem w) (BitVec w) := do
  let nd ← load node
  if geo.noLongs + n < geo.nodeLongs then return nd.val geo n else Exec.undef

def setkey (geo : Geo) (node : BitVec w) (n : ℕ) (key : KeyPtr w) : Exec (BtreeMem w) Unit := do
  let k ← key.read geo
  if (n + 1) * geo.keylen ≤ geo.nodeLongs then modifyNode node (Node.setkey geo n k)
  else Exec.undef

def setval (geo : Geo) (node : BitVec w) (n : ℕ) (val : BitVec w) : Exec (BtreeMem w) Unit :=
  if geo.noLongs + n < geo.nodeLongs then modifyNode node (Node.setval geo n val)
  else Exec.undef

def clearpair (geo : Geo) (node : BitVec w) (n : ℕ) : Exec (BtreeMem w) Unit := do
  setkey geo node n (.caller (List.replicate geo.keylen 0))
  setval geo node n 0

/-- `setkey(geo, dst, i, bkey(geo, src, j)); setval(geo, dst, i, bval(geo, src, j));`. -/
def copypair (geo : Geo) (dst : BitVec w) (i : ℕ) (src : BitVec w) (j : ℕ) :
    Exec (BtreeMem w) Unit := do
  setkey geo dst i (.slot src j)
  setval geo dst i (← bval geo src j)

def keycmp (geo : Geo) (nd : Node w) (pos : ℕ) (key : List (BitVec w)) : ℤ :=
  longcmp (bkey geo nd pos) key

/-- `for (; i < geo->no_pairs; i++) if (stop(i)) break;`, with `n` slots to go. -/
def slotLoop (stop : ℕ → Bool) : ℕ → ℕ → ℕ
  | 0, i => i
  | n + 1, i => if stop i then i else slotLoop stop n (i + 1)

def getpos (geo : Geo) (nd : Node w) (key : List (BitVec w)) : ℕ :=
  slotLoop (fun i => keycmp geo nd i key ≤ 0) geo.noPairs 0

/-- The loop over a leaf in `btree_lookup` and `btree_update`. -/
def geteq (geo : Geo) (nd : Node w) (key : List (BitVec w)) : ℕ :=
  slotLoop (fun i => keycmp geo nd i key = 0) geo.noPairs 0

def getfill (geo : Geo) (nd : Node w) (start : ℕ) : ℕ :=
  slotLoop (fun i => nd.val geo i = 0) (geo.noPairs - start) start

/-! ## Initialisation -/

/-- `__btree_init`. -/
def btreeInit : Exec (BtreeMem w) Unit := modify fun s => { s with node := 0, height := 0 }

/-! ## Lookup and update -/

/-- The result is the value, and the key where the code writes one. -/
def btreeLast (geo : Geo) : Exec (BtreeMem w) (BitVec w × Option (List (BitVec w))) := do
  let s ← get
  if s.height = 0 then return (0, none)
  else
    let node ← down (s.height - 1) s.node
    let key ← (KeyPtr.slot node 0).read geo
    return (← bval geo node 0, some key)
where
  /-- `for ( ; height > 1; height--) node = bval(geo, node, 0);` -/
  down : ℕ → BitVec w → Exec (BtreeMem w) (BitVec w)
    | 0, node => return node
    | n + 1, node => do down n (← bval geo node 0)

/-- One round of `for ( ; height > 1; height--)` of `btree_lookup` and `btree_update`. The result is
    the new `node`, NULL also where they return because `i` is `no_pairs`. -/
def lookupStep (geo : Geo) (key : List (BitVec w)) (node : BitVec w) :
    Exec (BtreeMem w) (BitVec w) := do
  let i := getpos geo (← load node) key
  if i = geo.noPairs then return 0 else bval geo node i

def lookupDown (geo : Geo) (key : List (BitVec w)) : ℕ → BitVec w → Exec (BtreeMem w) (BitVec w)
  | 0, node => return node
  | n + 1, node => do
      let node ← lookupStep geo key node
      if node = 0 then return 0 else lookupDown geo key n node

def btreeLookup (geo : Geo) (key : List (BitVec w)) : Exec (BtreeMem w) (BitVec w) := do
  let s ← get
  if s.height = 0 then return 0
  else
    let node ← lookupDown geo key (s.height - 1) s.node
    if node = 0 then return 0
    else
      let i := geteq geo (← load node) key
      if i = geo.noPairs then return 0 else bval geo node i

def btreeUpdate (geo : Geo) (key : List (BitVec w)) (val : BitVec w) : Exec (BtreeMem w) ℤ := do
  let s ← get
  if s.height = 0 then return -ENOENT
  else
    let node ← lookupDown geo key (s.height - 1) s.node
    if node = 0 then return -ENOENT
    else
      let i := geteq geo (← load node) key
      if i = geo.noPairs then return -ENOENT
      else
        setval geo node i val
        return 0

/-- `for (height = head->height ; height > 1; height--)` of `btree_get_prev`, whose rounds are those of
    `btree_lookup`. The result is `node`, NULL at a `goto miss`, and `retry_key`. -/
def prevDown (geo : Geo) (key : List (BitVec w)) :
    ℕ → BitVec w → Option (KeyPtr w) → Exec (BtreeMem w) (BitVec w × Option (KeyPtr w))
  | 0, node, retryKey => return (node, retryKey)
  | n + 1, oldnode, retryKey => do
      let node ← lookupStep geo key oldnode
      if node = 0 then return (0, retryKey)
      else prevDown geo key n node (some (.slot oldnode (getpos geo (← load oldnode) key)))

/-- The leaf's part of `btree_get_prev`: the value and the key, or nothing at a `goto miss`. -/
def prevLeaf (geo : Geo) (key : List (BitVec w)) (node : BitVec w) :
    Exec (BtreeMem w) (Option (BitVec w × List (BitVec w))) := do
  if node = 0 then return none
  else
    let i := getpos geo (← load node) key
    if i = geo.noPairs then return none
    else
      let val ← bval geo node i
      if val = 0 then return none else return some (val, ← (KeyPtr.slot node i).read geo)

/-- `btree_get_prev` from `retry:` on. -/
def getPrevRetry (geo : Geo) :
    ℕ → List (BitVec w) → Exec (BtreeMem w) (BitVec w × Option (List (BitVec w)))
  | 0, _ => Exec.outOfFuel
  | fuel + 1, key => do
      let key := decKey key
      let s ← get
      let (node, retryKey) ← prevDown geo key (s.height - 1) s.node none
      match ← prevLeaf geo key node with
      | some (val, found) => return (val, some found)
      | none =>
          match retryKey with
          | some retryKey => getPrevRetry geo fuel (← retryKey.read geo)
          | none => return (0, none)

/-- The result is the value, and what the code writes to `__key`. -/
def btreeGetPrev (geo : Geo) (fuel : ℕ) (key : List (BitVec w)) :
    Exec (BtreeMem w) (BitVec w × Option (List (BitVec w))) := do
  if keyzero key then return (0, none)
  else if (← get).height = 0 then return (0, none)
  else getPrevRetry geo fuel key

/-! ## Insertion -/

/-- One round of `for (height = head->height; height > level; height--)` of `find_level`. -/
def findStep (geo : Geo) (key : KeyPtr w) (node : BitVec w) : Exec (BtreeMem w) (BitVec w) := do
  let nd ← load node
  let i := getpos geo nd (← key.read geo)
  if i = geo.noPairs ∨ nd.val geo i = 0 then
    -- right-most key is too large, update it
    if i = 0 then Exec.undef
    else
      setkey geo node (i - 1) key
      bval geo node (i - 1)
  else bval geo node i

def findLevelLoop (geo : Geo) (key : KeyPtr w) : ℕ → BitVec w → Exec (BtreeMem w) (BitVec w)
  | 0, node => return node
  | n + 1, node => do findLevelLoop geo key n (← findStep geo key node)

def findLevel (geo : Geo) (key : KeyPtr w) (level : ℕ) : Exec (BtreeMem w) (BitVec w) := do
  let s ← get
  let node ← findLevelLoop geo key (s.height - level) s.node
  if node = 0 then Exec.undef else return node

def btreeGrow (geo : Geo) : Exec (BtreeMem w) ℤ := do
  let node ← btreeNodeAlloc
  if node = 0 then return -ENOMEM
  else
    let s ← get
    if s.node ≠ 0 then
      let fill := getfill geo (← load s.node) 0
      if fill = 0 then Exec.undef
      else
        setkey geo node 0 (.slot s.node (fill - 1))
        setval geo node 0 s.node
    modify fun s => { s with node, height := s.height + 1 }
    return 0

/-- `for (i = fill; i > pos; i--)`: `n` pairs, the last one being in the slot `pos + n - 1`, move to
    the right. -/
def shiftRight (geo : Geo) (node : BitVec w) (pos : ℕ) : ℕ → Exec (BtreeMem w) Unit
  | 0 => return
  | n + 1 => do
      copypair geo node (pos + n + 1) node (pos + n)
      shiftRight geo node pos n

/-- `for (i = 0; i < fill / 2; i++)` of the split, from `i` on with `n` rounds to go. -/
def splitLoop (geo : Geo) (node new : BitVec w) (half : ℕ) : ℕ → ℕ → Exec (BtreeMem w) Unit
  | 0, _ => return
  | n + 1, i => do
      copypair geo new i node i
      copypair geo node i node (i + half)
      clearpair geo node (i + half)
      splitLoop geo node new half n (i + 1)

/-- The halves of a full node: the left one goes to `new`. -/
def splitNode (geo : Geo) (node new : BitVec w) (fill : ℕ) : Exec (BtreeMem w) Unit := do
  splitLoop geo node new (fill / 2) (fill / 2) 0
  if fill % 2 = 1 then
    copypair geo node (fill / 2) node (fill - 1)
    clearpair geo node (fill - 1)

/-- `btree_insert_level` up to `retry:`, with what follows as `retry`. -/
def insertLevelWith (geo : Geo) (retry : KeyPtr w → BitVec w → ℕ → Exec (BtreeMem w) ℤ)
    (key : KeyPtr w) (val : BitVec w) (level : ℕ) : Exec (BtreeMem w) ℤ := do
  if val = 0 then Exec.undef
  else if (← get).height < level then
    let err ← btreeGrow geo
    if err ≠ 0 then return err else retry key val level
  else retry key val level

/-- `btree_insert_level` from `retry:` on. -/
def insertLevelRetry (geo : Geo) : ℕ → KeyPtr w → BitVec w → ℕ → Exec (BtreeMem w) ℤ
  | 0, _, _, _ => Exec.outOfFuel
  | fuel + 1, key, val, level => do
      let node ← findLevel geo key level
      let nd ← load node
      let k ← key.read geo
      let pos := getpos geo nd k
      let fill := getfill geo nd pos
      if pos < fill ∧ keycmp geo nd pos k = 0 then Exec.undef
      else if fill = geo.noPairs then
        let new ← btreeNodeAlloc
        if new = 0 then return -ENOMEM
        else
          let err ← insertLevelWith geo (insertLevelRetry geo fuel) (.slot node (fill / 2 - 1)) new
            (level + 1)
          if err ≠ 0 then
            mempoolFree new
            return err
          else
            splitNode geo node new fill
            insertLevelRetry geo fuel key val level
      else
        shiftRight geo node pos (fill - pos)
        setkey geo node pos key
        setval geo node pos val
        return 0

def btreeInsertLevel (geo : Geo) (fuel : ℕ) (key : KeyPtr w) (val : BitVec w) (level : ℕ) :
    Exec (BtreeMem w) ℤ :=
  insertLevelWith geo (insertLevelRetry geo fuel) key val level

def btreeInsert (geo : Geo) (fuel : ℕ) (key : List (BitVec w)) (val : BitVec w) :
    Exec (BtreeMem w) ℤ :=
  btreeInsertLevel geo fuel (.caller key) val 1

/-! ## Removal -/

def btreeShrink (geo : Geo) : Exec (BtreeMem w) Unit := do
  let s ← get
  if s.height ≤ 1 then return
  else
    let fill := getfill geo (← load s.node) 0
    if fill > 1 then Exec.undef
    else
      let child ← bval geo s.node 0
      modify fun s => { s with node := child, height := s.height - 1 }
      mempoolFree s.node

/-- `for (i = pos; i < fill - 1; i++)`: the pairs right of `pos` move to the left, `n` of them. -/
def shiftLeft (geo : Geo) (node : BitVec w) : ℕ → ℕ → Exec (BtreeMem w) Unit
  | 0, _ => return
  | n + 1, i => do
      copypair geo node i node (i + 1)
      shiftLeft geo node n (i + 1)

/-- `for (i = 0; i < rfill; i++)` of `merge`, from `i` on with `n` rounds to go. -/
def mergeLoop (geo : Geo) (left : BitVec w) (lfill : ℕ) (right : BitVec w) :
    ℕ → ℕ → Exec (BtreeMem w) Unit
  | 0, _ => return
  | n + 1, i => do
      copypair geo left (lfill + i) right i
      mergeLoop geo left lfill right n (i + 1)

/-- `removeLevel` is `btree_remove_level`, here and in `rebalance`. -/
def merge (geo : Geo) (removeLevel : KeyPtr w → ℕ → Exec (BtreeMem w) (BitVec w)) (level : ℕ)
    (left : BitVec w) (lfill : ℕ) (right : BitVec w) (rfill : ℕ) (parent : BitVec w) (lpos : ℕ) :
    Exec (BtreeMem w) Unit := do
  mergeLoop geo left lfill right rfill 0
  -- Exchange left and right child in parent
  setval geo parent lpos right
  setval geo parent (lpos + 1) left
  -- Remove left (formerly right) child from parent
  let _ ← removeLevel (.slot parent lpos) (level + 1)
  mempoolFree right

/-- The right neighbour's turn in `rebalance`. -/
def rebalanceRight (geo : Geo) (removeLevel : KeyPtr w → ℕ → Exec (BtreeMem w) (BitVec w)) (level : ℕ)
    (child : BitVec w) (fill : ℕ) (parent : BitVec w) (i : ℕ) : Exec (BtreeMem w) Unit := do
  if i + 1 < getfill geo (← load parent) i then
    let right ← bval geo parent (i + 1)
    let noRight := getfill geo (← load right) 0
    if fill + noRight ≤ geo.noPairs then
      merge geo removeLevel level child fill right noRight parent i

def rebalance (geo : Geo) (removeLevel : KeyPtr w → ℕ → Exec (BtreeMem w) (BitVec w))
    (key : KeyPtr w) (level : ℕ) (child : BitVec w) (fill : ℕ) : Exec (BtreeMem w) Unit := do
  if fill = 0 then
    let _ ← removeLevel key (level + 1)
    mempoolFree child
  else
    let parent ← findLevel geo key (level + 1)
    let i := getpos geo (← load parent) (← key.read geo)
    if (← bval geo parent i) ≠ child then Exec.undef
    else if 0 < i then
      let left ← bval geo parent (i - 1)
      let noLeft := getfill geo (← load left) 0
      if fill + noLeft ≤ geo.noPairs then
        merge geo removeLevel level left noLeft child fill parent (i - 1)
      else rebalanceRight geo removeLevel level child fill parent i
    else rebalanceRight geo removeLevel level child fill parent i

/-- `(level == 1) && (keycmp(geo, node, pos, key) != 0)`. -/
def isMissing (geo : Geo) (node : BitVec w) (pos : ℕ) (key : List (BitVec w)) (level : ℕ) :
    Exec (BtreeMem w) Bool := do
  if level = 1 then
    let slotKey ← (KeyPtr.slot node pos).read geo
    return longcmp slotKey key ≠ 0
  else return false

/-- The end of `btree_remove_level`: `fill` entries are left. -/
def refit (geo : Geo) (removeLevel : KeyPtr w → ℕ → Exec (BtreeMem w) (BitVec w))
    (key : KeyPtr w) (level : ℕ) (node : BitVec w) (fill : ℕ) : Exec (BtreeMem w) Unit := do
  if fill < geo.noPairs / 2 then
    if level < (← get).height then rebalance geo removeLevel key level node fill
    else if fill = 1 then btreeShrink geo

def btreeRemoveLevel (geo : Geo) : ℕ → KeyPtr w → ℕ → Exec (BtreeMem w) (BitVec w)
  | 0, _, _ => Exec.outOfFuel
  | fuel + 1, key, level => do
      if (← get).height < level then
        -- we recursed all the way up
        modify fun s => { s with node := 0, height := 0 }
        return 0
      else
        let node ← findLevel geo key level
        let nd ← load node
        let k ← key.read geo
        let pos := getpos geo nd k
        let n := getfill geo nd pos
        if ← isMissing geo node pos k level then return 0
        else
          let ret ← bval geo node pos
          if n = 0 then Exec.undef
          else
            shiftLeft geo node (n - 1 - pos) pos
            clearpair geo node (n - 1)
            refit geo (btreeRemoveLevel geo fuel) key level node (n - 1)
            return ret

def btreeRemove (geo : Geo) (fuel : ℕ) (key : List (BitVec w)) : Exec (BtreeMem w) (BitVec w) := do
  if (← get).height = 0 then return 0
  else btreeRemoveLevel geo fuel (.caller key) 1

/-! ## Merging two trees -/

/-- Two `struct btree_head`, `target` and `victim`, in one memory. -/
structure TwoHeads (w : ℕ) where
  target : BitVec w × ℕ
  victim : BitVec w × ℕ
  nodes : BitVec w → Option (Node w)
  pool : List (BitVec w)

/-- The memory as the code sees it with one of the heads. -/
def TwoHeads.withHead (s : TwoHeads w) (head : BitVec w × ℕ) : BtreeMem w :=
  ⟨head.1, head.2, s.nodes, s.pool⟩

def TwoHeads.setTarget (s : TwoHeads w) (m : BtreeMem w) : TwoHeads w :=
  { s with target := (m.node, m.height), nodes := m.nodes, pool := m.pool }

def TwoHeads.setVictim (s : TwoHeads w) (m : BtreeMem w) : TwoHeads w :=
  { s with victim := (m.node, m.height), nodes := m.nodes, pool := m.pool }

def onTarget {α : Type} (x : Exec (BtreeMem w) α) : Exec (TwoHeads w) α :=
  Exec.onPart (fun s => s.withHead s.target) TwoHeads.setTarget x

def onVictim {α : Type} (x : Exec (BtreeMem w) α) : Exec (TwoHeads w) α :=
  Exec.onPart (fun s => s.withHead s.victim) TwoHeads.setVictim x

/-- `for (;;)` of `btree_merge`. What `btree_last` writes to `key` is there where it finds a value. -/
def mergeTrees (geo : Geo) : ℕ → Exec (TwoHeads w) ℤ
  | 0 => Exec.outOfFuel
  | fuel + 1 => do
      let (last, written) ← onVictim (btreeLast geo)
      if last = 0 then return 0
      else
        let key := written.getD []
        let val ← onVictim (btreeLookup geo key)
        let err ← onTarget (btreeInsert geo fuel key val)
        if err ≠ 0 then return err
        else
          let _ ← onVictim (btreeRemove geo fuel key)
          mergeTrees geo fuel

/-- `target` and `victim` are not the same. -/
def btreeMerge (geo : Geo) (fuel : ℕ) : Exec (TwoHeads w) ℤ := do
  let s ← get
  if s.target.1 = 0 then
    -- target is empty, just copy fields over
    set { s with target := s.victim }
    onVictim btreeInit
    return 0
  else mergeTrees geo fuel

/-! ## Visitors -/

section Visitors

variable {γ F : Type}

/-- A callback on the caller's data: the element, the key and the index. -/
abbrev Visit (w : ℕ) (γ : Type) := BitVec w → List (BitVec w) → ℕ → γ → γ

def empty : Visit w γ := fun _ _ _ data => data

def visitorl (elem : BitVec w) (key : List (BitVec w)) (index : ℕ)
    (func : BitVec w → BitVec w → ℕ → γ → γ) : γ → γ := func elem (key.headD 0) index

/-- `if (!func2) func = empty;`. -/
def callback (func : BitVec w → List (BitVec w) → ℕ → F → γ → γ) : Option F → Visit w γ
  | none => empty
  | some func2 => fun elem key index => func elem key index func2

/-- `for (i = 0; i < geo->no_pairs; i++)` of `__btree_for_each`, from `i` on with `n` slots to go. `acc`
    is `count` and the data of the callback, and `body` what the loop does with a child. -/
def forEachLoop (geo : Geo) (node : BitVec w)
    (body : ℕ → BitVec w → ℕ × γ → Exec (BtreeMem w) (ℕ × γ)) :
    ℕ → ℕ → ℕ × γ → Exec (BtreeMem w) (ℕ × γ)
  | 0, _, acc => return acc
  | n + 1, i, acc => do
      let child ← bval geo node i
      if child = 0 then return acc
      else
        let acc ← body i child acc
        forEachLoop geo node body n (i + 1) acc

/-- `if (reap) mempool_free(node, head->mempool);`. -/
def reapNode (reap : Bool) (node : BitVec w) : Exec (BtreeMem w) Unit :=
  if reap then mempoolFree node else return

/-- `__btree_for_each` with `height - 1`. -/
def btreeForEach (geo : Geo) (func : Visit w γ) (reap : Bool) :
    ℕ → BitVec w → ℕ × γ → Exec (BtreeMem w) (ℕ × γ)
  | 0, node, acc => do
      let acc ← forEachLoop geo node (fun i child acc => do
        let key ← (KeyPtr.slot node i).read geo
        return (acc.1 + 1, func child key acc.1 acc.2)) geo.noPairs 0 acc
      reapNode reap node
      return acc
  | n + 1, node, acc => do
      let acc ← forEachLoop geo node (fun _ child acc => btreeForEach geo func reap n child acc)
        geo.noPairs 0 acc
      reapNode reap node
      return acc

/-- `if (head->node) count = __btree_for_each(...);`. -/
def visitTree (geo : Geo) (func : Visit w γ) (reap : Bool) (data : γ) :
    Exec (BtreeMem w) (ℕ × γ) := do
  let s ← get
  if s.node ≠ 0 then btreeForEach geo func reap (s.height - 1) s.node (0, data) else return (0, data)

def btreeVisitor (geo : Geo) (func : BitVec w → List (BitVec w) → ℕ → F → γ → γ) (func2 : Option F)
    (data : γ) : Exec (BtreeMem w) (ℕ × γ) :=
  visitTree geo (callback func func2) false data

def btreeGrimVisitor (geo : Geo) (func : BitVec w → List (BitVec w) → ℕ → F → γ → γ)
    (func2 : Option F) (data : γ) : Exec (BtreeMem w) (ℕ × γ) := do
  let acc ← visitTree geo (callback func func2) true data
  btreeInit
  return acc

end Visitors

/-! ## Iteration -/

/-- The body of a loop that removes the current entry where `drop` says so. -/
def dropEntry (geo : Geo) (drop : List (BitVec w) → BitVec w → Bool) (fuel : ℕ) (key : List (BitVec w))
    (val : BitVec w) : Exec (BtreeMem w) Unit :=
  if drop key val then do
    let _ ← btreeRemove geo fuel key
  else return

/-- The rounds of `btree_for_each_safel` and its siblings with this body. `val` and `key` are the loop's
    variables, and the result is the entries that it has come by. -/
def forEachSafeLoop (geo : Geo) (drop : List (BitVec w) → BitVec w → Bool) :
    ℕ → BitVec w → Option (List (BitVec w)) → List (List (BitVec w) × BitVec w) →
      Exec (BtreeMem w) (List (List (BitVec w) × BitVec w))
  | 0, _, _, _ => Exec.outOfFuel
  | fuel + 1, val, key, seen => do
      if val = 0 then return seen
      else
        let key := key.getD []
        dropEntry geo drop fuel key val
        let prev ← btreeGetPrev geo fuel key
        forEachSafeLoop geo drop fuel prev.1 prev.2 (seen ++ [(key, val)])

/-- `for (val = btree_lastl(head, &key); val; val = btree_get_prevl(head, &key))`. -/
def btreeForEachSafe (geo : Geo) (drop : List (BitVec w) → BitVec w → Bool) (fuel : ℕ) :
    Exec (BtreeMem w) (List (List (BitVec w) × BitVec w)) := do
  let last ← btreeLast geo
  forEachSafeLoop geo drop fuel last.1 last.2 []

end StructLib.Btree
