import StructLib.Rblist.Model

set_option autoImplicit false

/-! # Lists of strings (`strlist.h`, `strlist.cpp`)

A node has a pointer to its string. It points to a copy that the list owns or, with `dupstr` false,
into the array that the caller has handed in; the parser writes to that array while it works.

`malloc` returns `mem k` for the node of the `k`-th entry that a call adds, NULL when it fails.
To the parser, `strlist_load` is a parameter (`load`). -/

namespace StructLib.Strlist

open Rbtree RbList

abbrev Bytes := List UInt8

/-- A `const char *`. -/
inductive StrPtr where
  /-- To a string of its own, which nobody writes to: it shares no memory with the caller's array. -/
  | heap (s : Bytes)
  /-- To the element `i` of the caller's array. -/
  | buf (i : ℕ)

/-- `strlist_t`, and the caller's array. -/
structure StrlistMem where
  rblist : Rblist StrPtr
  dupstr : Bool
  buf : Bytes

/-! ## Strings -/

/-- The string that starts at a pointer, up to its NUL. -/
def cstr (buf : Bytes) : StrPtr → Bytes
  | .heap s => s
  | .buf i => (buf.drop i).takeWhile (· ≠ 0)

/-- `strcmp`, on the strings without their NULs: negative, zero or positive as the first bytes that
    differ say. -/
def strcmp : Bytes → Bytes → ℤ
  | [], [] => 0
  | [], _ :: _ => -1
  | _ :: _, [] => 1
  | a :: as, b :: bs => if a = b then strcmp as bs else if a < b then -1 else 1

/-- `strchr(&buf[i], c)`, as an index, for a `c` other than NUL. -/
def strchr (buf : Bytes) (i : ℕ) (c : UInt8) : Option ℕ :=
  ((cstr buf (.buf i)).findIdx? (· = c)).map (i + ·)

/-- `','`. -/
def comma : UInt8 := 44

/-- `"file://"`. -/
def fileScheme : Bytes := [102, 105, 108, 101, 58, 47, 47]

/-- `*(buf + i) = c`. -/
def poke (i : ℕ) (c : UInt8) : Exec StrlistMem Unit := do
  let s ← get
  if i < s.buf.length then set { s with buf := s.buf.set i c } else Exec.undef

/-! ## Callbacks -/

/-- `strlist_node_cmp` and the string of a node made by `strlist_node_new`. -/
def strlistOps (dupstr : Bool) (buf : Bytes) : RblistOps StrPtr StrPtr where
  nodeCmp s str := strcmp (cstr buf s) (cstr buf str)
  nodeNew entry := if dupstr then .heap (cstr buf entry) else entry

/-- Run list code on `&slist->rblist`. -/
def onRblist {α : Type} (x : Exec (Rblist StrPtr) α) : Exec StrlistMem α :=
  Exec.onPart (·.rblist) (fun s l => { s with rblist := l }) x

/-! ## Operations -/

def strlistAdd (fuel : ℕ) (newEntry : StrPtr) (mem : Ptr) : Exec StrlistMem ℤ := do
  let s ← get
  onRblist (rblistAddNode (strlistOps s.dupstr s.buf) fuel newEntry mem)

def strlistFind (fuel : ℕ) (entry : StrPtr) : Exec StrlistMem Ptr := do
  let s ← get
  onRblist (rblistFind (strlistOps s.dupstr s.buf) fuel entry)

def strlistEntry (fuel : ℕ) (idx : UInt32) : Exec StrlistMem Ptr := onRblist (rblistEntry fuel idx)

/-- `snode->s`, as a string; NULL has none. -/
def nodeString (snode : Ptr) : Exec StrlistMem (Option Bytes) := do
  let s ← get
  match snode with
  | none => return none
  | some n =>
      if (s.rblist.entries.node n).isSome then
        return some (cstr s.buf (s.rblist.entries.data n))
      else Exec.undef

def strlistFirst (fuel : ℕ) : Exec StrlistMem Ptr := onRblist (onEntries (rbFirst fuel))

def strlistNext (fuel : ℕ) (sn : Ptr) : Exec StrlistMem Ptr :=
  if sn.isNone then return none else onRblist (onEntries (rbNext fuel sn))

/-- `for (pos = strlist_first(self); pos; pos = strlist_next(pos))` with a body that notes
    `pos->s`. -/
def strlistForEachLoop (fuel : ℕ) : ℕ → Ptr → Exec StrlistMem (List Bytes)
  | 0, _ => Exec.outOfFuel
  | rounds + 1, pos => do
      match ← nodeString pos with
      | none => return []
      | some s => return s :: (← strlistForEachLoop fuel rounds (← strlistNext fuel pos))

def strlistForEach (fuel : ℕ) : Exec StrlistMem (List Bytes) := do
  strlistForEachLoop fuel fuel (← strlistFirst fuel)

/-! ## Loading -/

/-- `'\n'`. -/
def newline : UInt8 := 10

/-- `fgets` on a stream from which `file` is still to be read: the characters it stores, without the
    NUL behind them, and what it leaves. It stops after `size - 1` characters or after a newline. -/
def fgets (size : ℕ) (file : Bytes) : Option (Bytes × Bytes) :=
  if file = [] then none
  else
    let n := min (size - 1) ((file.takeWhile (· ≠ newline)).length + 1)
    some (file.take n, file.drop n)

section Load

variable (mem : ℕ → Ptr)

/-- `while (fgets(entry, sizeof(entry), fp) != NULL)`, on a list with copies: the nodes of one
    without would keep a pointer to `entry`. -/
def strlistLoadLoop (fuel : ℕ) : ℕ → ℕ → Bytes → Bytes → Exec StrlistMem ℤ
  | 0, _, _, _ => Exec.outOfFuel
  | rounds + 1, k, entry, file => do
      match fgets 1024 file with
      | none => return 0
      | some (line, file) =>
          let entry := line ++ 0 :: entry.drop (line.length + 1)
          let len := (cstr entry (.buf 0)).length
          if len = 0 then strlistLoadLoop fuel rounds k entry file
          else
            let entry := entry.set (len - 1) 0
            let err ← strlistAdd fuel (.heap (cstr entry (.buf 0))) (mem k)
            if err ≠ 0 then return err
            else strlistLoadLoop fuel rounds (k + 1) entry file

/-- `strlist_load`. `fopen` gives the text of the file of a name, or `errno` when it fails; `entry`
    is what the array holds at first. -/
def strlistLoad (fopen : Bytes → Except ℤ Bytes) (entry : Fin 1024 → UInt8) (fuel : ℕ)
    (filename : StrPtr) : Exec StrlistMem ℤ := do
  match fopen (cstr (← get).buf filename) with
  | .error errno => return errno
  | .ok file => strlistLoadLoop mem fuel fuel 0 (List.ofFn entry) file

end Load

/-! ## Parsing -/

section Parse

variable (load : StrPtr → Exec StrlistMem ℤ) (mem : ℕ → Ptr)

/-- The entry `s`, which is the caller's array from `i` on. -/
def strlistParseListEntry (fuel k i : ℕ) : Exec StrlistMem ℤ := do
  let s ← get
  -- `strncmp(s, "file://", 7) == 0`
  if (cstr s.buf (.buf i)).take 7 = fileScheme then load (.buf (i + 7))
  else strlistAdd fuel (.buf i) (mem k)

/-- `while ((sep = (char*)strchr(s, ',')) != NULL)` and what follows it, at the entry `k`, which
    starts at `i`. -/
def strlistParseLoop (fuel : ℕ) : ℕ → ℕ → ℕ → Exec StrlistMem ℤ
  | 0, _, _ => Exec.outOfFuel
  | rounds + 1, k, i => do
      match strchr (← get).buf i comma with
      | some sep =>
          poke sep 0
          let err ← strlistParseListEntry load mem fuel k i
          poke sep comma
          if err ≠ 0 then return err
          else strlistParseLoop fuel rounds (k + 1) (sep + 1)
      | none =>
          if cstr (← get).buf (.buf i) ≠ [] then strlistParseListEntry load mem fuel k i
          else return 0

def strlistParseList (fuel : ℕ) : Exec StrlistMem ℤ := strlistParseLoop load mem fuel fuel 0 0

/-- `strlist_new`, from `malloc` on, with the caller's array for `slist`: whether the list has been
    made. -/
def strlistNew (fuel : ℕ) (dupstr : Bool) : Exec StrlistMem Bool := do
  onRblist rblistInit
  modify fun s => { s with dupstr := dupstr }
  return (← strlistParseList load mem fuel) = 0

end Parse

end StructLib.Strlist
