import StructLib.Lib.Exec
import StructLib.Lib.Words

set_option autoImplicit false

/-! # The hash of `jhash.h`

A `u32` is a `UInt32`, and a pointer into the key is the rest of the key from there on. A read
behind the end of the key is undefined. The machine is little-endian. -/

namespace StructLib.Jhash

/-- `k[i]`. -/
def readAt {α : Type} (k : List α) (i : ℕ) : Except Fault α :=
  match k[i]? with
  | some x => .ok x
  | none => .error .undef

def rol32 (word shift : UInt32) : UInt32 := word <<< shift ||| word >>> (32 - shift)

def getUnalignedCpu32 (p : List UInt8) : Except Fault UInt32 :=
  if p.length < 4 then .error .undef else .ok (.ofNat (ofLeBytes (p.take 4)))

/-- The internal state. -/
structure Abc where
  a : UInt32
  b : UInt32
  c : UInt32
  deriving DecidableEq, Repr

/-- `__jhash_mix`. -/
def jhashMix (s : Abc) : Abc :=
  let ⟨a, b, c⟩ := s
  let a := a - c
  let a := a ^^^ rol32 c 4
  let c := c + b
  let b := b - a
  let b := b ^^^ rol32 a 6
  let a := a + c
  let c := c - b
  let c := c ^^^ rol32 b 8
  let b := b + a
  let a := a - c
  let a := a ^^^ rol32 c 16
  let c := c + b
  let b := b - a
  let b := b ^^^ rol32 a 19
  let a := a + c
  let c := c - b
  let c := c ^^^ rol32 b 4
  let b := b + a
  ⟨a, b, c⟩

/-- `__jhash_final`. -/
def jhashFinal (s : Abc) : Abc :=
  let ⟨a, b, c⟩ := s
  let c := c ^^^ b
  let c := c - rol32 b 14
  let a := a ^^^ c
  let a := a - rol32 c 11
  let b := b ^^^ a
  let b := b - rol32 a 25
  let c := c ^^^ b
  let c := c - rol32 b 16
  let a := a ^^^ c
  let a := a - rol32 c 4
  let b := b ^^^ a
  let b := b - rol32 a 14
  let c := c ^^^ b
  let c := c - rol32 b 24
  ⟨a, b, c⟩

def JHASH_INITVAL : UInt32 := 0xdeadbeef

/-- `a += x`, `b += x` or `c += x`. -/
def Abc.addTo (s : Abc) (i : ℕ) (x : UInt32) : Abc :=
  match i with
  | 0 => { s with a := s.a + x }
  | 1 => { s with b := s.b + x }
  | _ => { s with c := s.c + x }

theorem toNat_sub_lt {length n : UInt32} (hn : 0 < n) (h : n < length) :
    (length - n).toNat < length.toNat := by
  have hpos : 0 < n.toNat := UInt32.lt_iff_toNat_lt.1 hn
  have hlt : n.toNat < length.toNat := UInt32.lt_iff_toNat_lt.1 h
  rw [UInt32.toNat_sub_of_le _ _ (UInt32.le_of_lt h)]
  omega

/-! ## Bytes -/

/-- `while (length > 12)`: the rest of the key, its length and the state after it. -/
def jhashLoop (k : List UInt8) (length : UInt32) (s : Abc) :
    Except Fault (List UInt8 × UInt32 × Abc) :=
  if 12 < length then do
    let a ← getUnalignedCpu32 k
    let b ← getUnalignedCpu32 (k.drop 4)
    let c ← getUnalignedCpu32 (k.drop 8)
    jhashLoop (k.drop 12) (length - 12) (jhashMix ⟨s.a + a, s.b + b, s.c + c⟩)
  else
    return (k, length, s)
termination_by length.toNat
decreasing_by exact toNat_sub_lt (by decide) ‹_›

/-- `case i + 1` adds the byte `k[i]` to its place in `a`, `b` or `c` and falls through to
    `case i`. -/
def jhashCase (k : List UInt8) : ℕ → Abc → Except Fault Abc
  | 0, s => return s
  | i + 1, s => do
      let x ← readAt k i
      jhashCase k i (s.addTo (i / 4) (x.toUInt32 <<< .ofNat (8 * (i % 4))))

def jhash (key : List UInt8) (length initval : UInt32) : Except Fault UInt32 := do
  let init := JHASH_INITVAL + length + initval
  let (k, length, s) ← jhashLoop key length ⟨init, init, init⟩
  if length = 0 then return s.c
  else return (jhashFinal (← jhashCase k length.toNat s)).c

/-! ## Words -/

/-- `while (length > 3)`. -/
def jhash2Loop (k : List UInt32) (length : UInt32) (s : Abc) :
    Except Fault (List UInt32 × UInt32 × Abc) :=
  if 3 < length then do
    let a ← readAt k 0
    let b ← readAt k 1
    let c ← readAt k 2
    jhash2Loop (k.drop 3) (length - 3) (jhashMix ⟨s.a + a, s.b + b, s.c + c⟩)
  else
    return (k, length, s)
termination_by length.toNat
decreasing_by exact toNat_sub_lt (by decide) ‹_›

/-- `case i + 1` adds the word `k[i]` to `a`, `b` or `c` and falls through to `case i`. -/
def jhash2Case (k : List UInt32) : ℕ → Abc → Except Fault Abc
  | 0, s => return s
  | i + 1, s => do
      let x ← readAt k i
      jhash2Case k i (s.addTo i x)

def jhash2 (k : List UInt32) (length initval : UInt32) : Except Fault UInt32 := do
  let init := JHASH_INITVAL + length <<< 2 + initval
  let (k, length, s) ← jhash2Loop k length ⟨init, init, init⟩
  if length = 0 then return s.c
  else return (jhashFinal (← jhash2Case k length.toNat s)).c

end StructLib.Jhash
