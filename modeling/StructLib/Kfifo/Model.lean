import StructLib.Lib.Interleave

set_option autoImplicit false

/-! # The kernel FIFO code (`kfifo.c`, `kfifo.h`)

The indexes `in` and `out` count elements (bytes, in a FIFO of records) and run around at `2 ^ 32`. A
read or a write of an index or of a byte of the buffer is one access. `mask` and `esize` are written
by `__kfifo_alloc` and `__kfifo_init` only, and the programs get them as parameters. Operands are
evaluated from left to right, `memcpy` goes through the bytes in their order, and `unsigned long` and
`size_t` have 64 bits. -/

namespace StructLib.Kfifo

def EFAULT : ℤ := 14

def EINVAL : ℤ := 22

/-- `struct __kfifo`. `data` points to `room` bytes, to none where it is NULL. -/
structure KfifoMem where
  in_ : UInt32
  out : UInt32
  mask : UInt32
  esize : UInt32
  data : ℕ → UInt8
  room : ℕ

/-! ## Buffers -/

def isPowerOf2 (n : UInt32) : Bool := n ≠ 0 && n &&& (n - 1) = 0

def rounddownPowOfTwo (n : UInt32) : Exec KfifoMem UInt32 :=
  if n = 0 then Exec.undef else return .ofNat (2 ^ n.toNat.log2)

def roundSize (size : UInt32) : Exec KfifoMem UInt32 :=
  if isPowerOf2 size then return size else rounddownPowOfTwo size

/-- `kmalloc` leaves what was in memory in the buffer. -/
def kfifoAlloc (kmalloc : UInt64 → Option (ℕ → UInt8)) (size : UInt32) (esize : UInt64) :
    Exec KfifoMem ℤ := do
  let size ← roundSize size
  modify fun s => { s with in_ := 0, out := 0, esize := esize.toUInt32 }
  if size < 2 then
    modify fun s => { s with room := 0, mask := 0 }
    return -EINVAL
  else
    match kmalloc (size.toUInt64 * esize) with
    | none =>
        modify fun s => { s with room := 0, mask := 0 }
        return -ENOMEM
    | some data =>
        modify fun s => { s with data, room := (size.toUInt64 * esize).toNat, mask := size - 1 }
        return 0

/-- `buffer` has `size` bytes. -/
def kfifoInit (buffer : ℕ → UInt8) (size : UInt32) (esize : UInt64) : Exec KfifoMem ℤ :=
  if esize = 0 then Exec.undef
  else do
    let n ← roundSize (size.toUInt64 / esize).toUInt32
    modify fun s =>
      { s with in_ := 0, out := 0, esize := esize.toUInt32, data := buffer, room := size.toNat }
    if n < 2 then
      modify fun s => { s with mask := 0 }
      return -EINVAL
    else
      modify fun s => { s with mask := n - 1 }
      return 0

/-! ## Accesses -/

inductive Acc where
  | readIn
  | readOut
  | writeIn (v : UInt32)
  | writeOut (v : UInt32)
  | readByte (i : ℕ)
  | writeByte (i : ℕ) (b : UInt8)

def Res : Acc → Type
  | .readIn | .readOut => UInt32
  | .readByte _ => UInt8
  | .writeIn _ | .writeOut _ | .writeByte _ _ => Unit

def perform : (x : Acc) → Exec KfifoMem (Res x)
  | .readIn => do return (← get).in_
  | .readOut => do return (← get).out
  | .writeIn v => modify fun s => { s with in_ := v }
  | .writeOut v => modify fun s => { s with out := v }
  | .readByte i => do
      let s ← get
      if i < s.room then return s.data i else Exec.undef
  | .writeByte i b => do
      let s ← get
      if i < s.room then set { s with data := Function.update s.data i b } else Exec.undef

def readIn : Prog Res UInt32 := .atom Acc.readIn

def readOut : Prog Res UInt32 := .atom Acc.readOut

def writeIn (v : UInt32) : Prog Res Unit := .atom (Acc.writeIn v)

def writeOut (v : UInt32) : Prog Res Unit := .atom (Acc.writeOut v)

def readByte (i : ℕ) : Prog Res UInt8 := .atom (Acc.readByte i)

def writeByte (i : ℕ) (b : UInt8) : Prog Res Unit := .atom (Acc.writeByte i b)

/-- `memcpy` to the buffer. -/
def memcpyTo : ℕ → List UInt8 → Prog Res Unit
  | _, [] => return ()
  | off, b :: bs => do
      writeByte off b
      memcpyTo (off + 1) bs

/-- `memcpy` of `n` bytes of the buffer. -/
def memcpyFrom : ℕ → ℕ → Prog Res (List UInt8)
  | _, 0 => return []
  | off, n + 1 => do
      let b ← readByte off
      let bs ← memcpyFrom (off + 1) n
      return b :: bs

/-- `copy_from_user`, where `fault` bytes or all of them cannot be copied: these are zero then. The
    result is how many they are. -/
def copyFromUser (fault off : ℕ) (bs : List UInt8) : Prog Res ℕ := do
  let ret := min fault bs.length
  memcpyTo off (bs.take (bs.length - ret) ++ List.replicate ret 0)
  return ret

/-- `copy_to_user`. -/
def copyToUser (fault off n : ℕ) : Prog Res (List UInt8 × ℕ) := do
  let ret := min fault n
  let bs ← memcpyFrom off (n - ret)
  return (bs, ret)

/-- `DIV_ROUND_UP`. -/
def divRoundUp (n d : ℕ) : ℕ := (n + d - 1) / d

variable (mask esize : UInt32)

/-! ## Spans of the buffer -/

/-- What the functions that copy compute first: where the `len` elements from `off` on begin, how many
    bytes of them lie before the end of the buffer, and how many bytes they are. -/
def span (len off : UInt32) : UInt32 × UInt32 × UInt32 :=
  let size := mask + 1
  let off := off &&& mask
  if esize ≠ 1 then
    let off := off * esize
    (off, min (len * esize) (size * esize - off), len * esize)
  else (off, min len (size - off), len)

def kfifoCopyIn (src : List UInt8) (len off : UInt32) : Prog Res Unit := do
  let (off, l, len) := span mask esize len off
  memcpyTo off.toNat (src.take l.toNat)
  memcpyTo 0 ((src.drop l.toNat).take (len - l).toNat)

def kfifoCopyOut (len off : UInt32) : Prog Res (List UInt8) := do
  let (off, l, len) := span mask esize len off
  let bs₁ ← memcpyFrom off.toNat l.toNat
  let bs₂ ← memcpyFrom 0 (len - l).toNat
  return bs₁ ++ bs₂

/-- A user's memory fails to give `faults.1` bytes to the first copy and `faults.2` to the second. The
    result is `ret`, and what is written to `*copied`. -/
def kfifoCopyFromUser (src : List UInt8) (faults : ℕ × ℕ) (len off : UInt32) :
    Prog Res (ℕ × UInt32) := do
  let (off, l, len) := span mask esize len off
  let ret₁ ← copyFromUser faults.1 off.toNat (src.take l.toNat)
  if ret₁ ≠ 0 then
    -- the second part is not tried
    let ret := divRoundUp (ret₁ + (len - l).toNat) esize.toNat
    -- bytes less elements, as the code has it
    return (ret, .ofNat (len.toNat - ret))
  else
    let ret₂ ← copyFromUser faults.2 0 ((src.drop l.toNat).take (len - l).toNat)
    let ret := if ret₂ ≠ 0 then divRoundUp ret₂ esize.toNat else ret₂
    return (ret, .ofNat (len.toNat - ret))

/-- The first part of the result is what is in the user's memory then. -/
def kfifoCopyToUser (faults : ℕ × ℕ) (len off : UInt32) :
    Prog Res (List UInt8 × ℕ × UInt32) := do
  let (off, l, len) := span mask esize len off
  let (bs₁, ret₁) ← copyToUser faults.1 off.toNat l.toNat
  if ret₁ ≠ 0 then
    let ret := divRoundUp (ret₁ + (len - l).toNat) esize.toNat
    return (bs₁, ret, .ofNat (len.toNat - ret))
  else
    let (bs₂, ret₂) ← copyToUser faults.2 0 (len - l).toNat
    let ret := if ret₂ ≠ 0 then divRoundUp ret₂ esize.toNat else ret₂
    return (bs₁ ++ bs₂, ret, .ofNat (len.toNat - ret))

/-! ## Elements -/

def kfifoUnused : Prog Res UInt32 := do
  let in_ ← readIn
  let out ← readOut
  return (mask + 1) - (in_ - out)

def kfifoIn (buf : List UInt8) (len : UInt32) : Prog Res UInt32 := do
  let l ← kfifoUnused mask
  let len := if len > l then l else len
  kfifoCopyIn mask esize buf len (← readIn)
  writeIn ((← readIn) + len)
  return len

def kfifoLen : Prog Res UInt32 := do
  let in_ ← readIn
  let out ← readOut
  return in_ - out

def kfifoOutPeek (len : UInt32) : Prog Res (UInt32 × List UInt8) := do
  let l ← kfifoLen
  let len := if len > l then l else len
  let buf ← kfifoCopyOut mask esize len (← readOut)
  return (len, buf)

def kfifoOut (len : UInt32) : Prog Res (UInt32 × List UInt8) := do
  let (len, buf) ← kfifoOutPeek mask esize len
  writeOut ((← readOut) + len)
  return (len, buf)

/-- `len /= esize` where `esize` is not 1. -/
def elements (len : UInt64) : UInt64 := if esize ≠ 1 then len / esize.toUInt64 else len

def kfifoFromUser (from_ : List UInt8) (faults : ℕ × ℕ) (len : UInt64) : Prog Res (ℤ × UInt32) := do
  let len := elements esize len
  let l ← kfifoUnused mask
  let len := if len > l.toUInt64 then l else len.toUInt32
  let (ret, copied) ← kfifoCopyFromUser mask esize from_ faults len (← readIn)
  let (len, err) := if ret ≠ 0 then (len - .ofNat ret, -EFAULT) else (len, 0)
  writeIn ((← readIn) + len)
  return (err, copied)

def kfifoToUser (faults : ℕ × ℕ) (len : UInt64) : Prog Res (List UInt8 × ℤ × UInt32) := do
  let len := elements esize len
  let l ← kfifoLen
  let len := if len > l.toUInt64 then l else len.toUInt32
  let (to_, ret, copied) ← kfifoCopyToUser mask esize faults len (← readOut)
  let (len, err) := if ret ≠ 0 then (len - .ofNat ret, -EFAULT) else (len, 0)
  writeOut ((← readOut) + len)
  return (to_, err, copied)

def kfifoIsEmpty : Prog Res Bool := do
  let in_ ← readIn
  let out ← readOut
  return in_ = out

def kfifoIsFull : Prog Res Bool := do return (← kfifoLen) > mask

/-- Where the FIFO is one of elements. -/
def kfifoAvail : Prog Res UInt32 := do return (mask + 1) - (← kfifoLen)

/-- `val` is the bytes of an element. -/
def kfifoPut (val : List UInt8) : Prog Res UInt32 := do
  if (← kfifoIsFull mask) then return 0
  else
    memcpyTo (((← readIn) &&& mask).toNat * esize.toNat) val
    writeIn ((← readIn) + 1)
    return 1

def kfifoPeek : Prog Res (UInt32 × List UInt8) := do
  if (← kfifoIsEmpty) then return (0, [])
  else
    let val ← memcpyFrom (((← readOut) &&& mask).toNat * esize.toNat) esize.toNat
    return (1, val)

def kfifoGet : Prog Res (UInt32 × List UInt8) := do
  if (← kfifoIsEmpty) then return (0, [])
  else
    let val ← memcpyFrom (((← readOut) &&& mask).toNat * esize.toNat) esize.toNat
    writeOut ((← readOut) + 1)
    return (1, val)

def kfifoSkip : Prog Res Unit := do writeOut ((← readOut) + 1)

/-! ## Records -/

/-- `recsize` is 1 or 2. -/
def kfifoMaxR (len : UInt32) (recsize : ℕ) : UInt32 :=
  let max : UInt32 := .ofNat (2 ^ (recsize * 8) - 1)
  if len > max then max else len

def kfifoPeekN (recsize : ℕ) : Prog Res UInt32 := do
  let l ← readByte ((← readOut) &&& mask).toNat
  if recsize - 1 ≠ 0 then
    let h ← readByte (((← readOut) + 1) &&& mask).toNat
    return l.toUInt32 ||| h.toUInt32 <<< 8
  else return l.toUInt32

def kfifoPokeN (n : UInt32) (recsize : ℕ) : Prog Res Unit := do
  writeByte ((← readIn) &&& mask).toNat n.toUInt8
  if recsize > 1 then writeByte (((← readIn) + 1) &&& mask).toNat (n >>> 8).toUInt8
  else return ()

def kfifoLenR (recsize : ℕ) : Prog Res UInt32 := kfifoPeekN mask recsize

def kfifoInR (buf : List UInt8) (len : UInt32) (recsize : ℕ) : Prog Res UInt32 := do
  let l ← kfifoUnused mask
  -- a sum of `size_t`, which does not wrap
  if len.toNat + recsize > l.toNat then return 0
  else
    kfifoPokeN mask len recsize
    kfifoCopyIn mask esize buf len ((← readIn) + .ofNat recsize)
    writeIn ((← readIn) + (len + .ofNat recsize))
    return len

/-- The result is the length, the bytes and `*n`. -/
def kfifoOutCopyR (len : UInt32) (recsize : ℕ) : Prog Res (UInt32 × List UInt8 × UInt32) := do
  let n ← kfifoPeekN mask recsize
  let len := if len > n then n else len
  let buf ← kfifoCopyOut mask esize len ((← readOut) + .ofNat recsize)
  return (len, buf, n)

def kfifoOutPeekR (len : UInt32) (recsize : ℕ) : Prog Res (UInt32 × List UInt8) := do
  if (← kfifoIsEmpty) then return (0, [])
  else
    let (len, buf, _) ← kfifoOutCopyR mask esize len recsize
    return (len, buf)

def kfifoOutR (len : UInt32) (recsize : ℕ) : Prog Res (UInt32 × List UInt8) := do
  if (← kfifoIsEmpty) then return (0, [])
  else
    let (len, buf, n) ← kfifoOutCopyR mask esize len recsize
    writeOut ((← readOut) + (n + .ofNat recsize))
    return (len, buf)

def kfifoSkipR (recsize : ℕ) : Prog Res Unit := do
  let n ← kfifoPeekN mask recsize
  writeOut ((← readOut) + (n + .ofNat recsize))

def kfifoFromUserR (from_ : List UInt8) (faults : ℕ × ℕ) (len : UInt64) (recsize : ℕ) :
    Prog Res (ℤ × UInt32) := do
  let len := kfifoMaxR len.toUInt32 recsize
  let l ← kfifoUnused mask
  if len.toNat + recsize > l.toNat then return (0, 0)
  else
    kfifoPokeN mask len recsize
    let (ret, copied) ←
      kfifoCopyFromUser mask esize from_ faults len ((← readIn) + .ofNat recsize)
    if ret ≠ 0 then return (-EFAULT, 0)
    else
      writeIn ((← readIn) + (len + .ofNat recsize))
      return (0, copied)

def kfifoToUserR (faults : ℕ × ℕ) (len : UInt64) (recsize : ℕ) :
    Prog Res (List UInt8 × ℤ × UInt32) := do
  if (← kfifoIsEmpty) then return ([], 0, 0)
  else
    let n ← kfifoPeekN mask recsize
    let len := if len > n.toUInt64 then n else len.toUInt32
    let (to_, ret, copied) ← kfifoCopyToUser mask esize faults len ((← readOut) + .ofNat recsize)
    if ret ≠ 0 then return (to_, -EFAULT, 0)
    else
      writeOut ((← readOut) + (n + .ofNat recsize))
      return (to_, 0, copied)

/-- `kfifo_avail` where the FIFO is one of records. -/
def kfifoAvailR (recsize : ℕ) : Prog Res UInt32 := do
  let avail := (mask + 1) - (← kfifoLen)
  if avail.toNat ≤ recsize then return 0
  else return kfifoMaxR (avail - .ofNat recsize) recsize

end StructLib.Kfifo
