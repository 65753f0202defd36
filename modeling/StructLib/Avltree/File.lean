import StructLib.Avltree.Refine

set_option autoImplicit false

/-! # Saving and loading an AVL tree

`SaveAvlTree` and `LoadAvlTree` compare the result of `fwrite` and `fread`, a number of items, with
a number of bytes. One item of four bytes counts as an error, so a tree is saved and loaded back
just if it is empty (`saves_and_loads_iff`). -/

namespace StructLib.Avl

open BinTree

/-! ## The code -/

/-- The trees in memory, an open file with its position, the caller's `*size`, and `errno`. -/
structure AvlIO where
  mem : AvlMem
  file : List UInt8
  pos : ℕ
  size : Int32
  errno : ℤ

/-- Run tree code on the trees in memory. -/
def onMem {α : Type} (x : Exec AvlMem α) : Exec AvlIO α := fun s =>
  (x.run s.mem).map fun (a, m) => (a, { s with mem := m })

/-- `fwrite(bytes, bytes.length, 1, file)`: the number of items written. -/
def fwrite (bytes : List UInt8) : Exec AvlIO ℕ := do
  modify fun s => { s with file := s.file ++ bytes }
  return if bytes.length = 0 then 0 else 1

/-- `fread(…, size, 1, file)`: the number of items read, and the bytes. -/
def fread (size : ℕ) : Exec AvlIO (ℕ × List UInt8) := do
  let s ← get
  let bytes := (s.file.drop s.pos).take size
  set { s with pos := s.pos + bytes.length }
  return (if size = 0 ∨ bytes.length < size then 0 else 1, bytes)

/-- The bytes of a `uint32_t` or an `int` in memory. -/
def bytes32 (x : UInt32) : List UInt8 :=
  [x.toUInt8, (x >>> 8).toUInt8, (x >>> 16).toUInt8, (x >>> 24).toUInt8]

def ofBytes32 (bytes : List UInt8) : UInt32 :=
  bytes.foldr (fun b x => x <<< 8 ||| b.toUInt32) 0

/-- An `int` converted to `size_t`. -/
def toSizeT (i : ℤ) : ℕ := (i % 2 ^ 64).toNat

/-- `sizeof(min_key) + sizeof(max_key) + sizeof(data_len) + data_len`. -/
def recordSize (dataLen : ℤ) : Int32 := Int32.ofInt (12 + dataLen)

/-- `errno`, as a result. -/
def getErrno : Exec AvlIO ℤ := do return (← get).errno

def saveAvlTree : ℕ → Ptr → Exec AvlIO ℤ
  | 0, _ => Exec.outOfFuel
  | fuel + 1, tree => do
      if tree.isNone then return 0
      else
        let ret ← saveAvlTree fuel (← onMem (load tree)).left
        if ret ≠ 0 then return ret
        else if (← fwrite (bytes32 (← onMem (load tree)).minKey)) ≠ 4 then getErrno
        else if (← fwrite (bytes32 (← onMem (load tree)).maxKey)) ≠ 4 then getErrno
        else if (← fwrite (bytes32 (UInt32.ofInt (← onMem (load tree)).dataLen))) ≠ 4 then getErrno
        else
          let t ← onMem (load tree)
          if t.data.length < toSizeT t.dataLen then Exec.undef
          else if (← fwrite (t.data.take (toSizeT t.dataLen))) ≠ toSizeT t.dataLen then getErrno
          else
            modify fun s => { s with size := s.size + recordSize t.dataLen }
            saveAvlTree fuel t.right

/-- What the calls to `malloc` in one round return: the buffer, and the node. -/
structure LoadAlloc where
  buffer : Bool
  node : Ptr

/-- `while(size > 0)`, `i` counting the rounds; `alloc i` is what `malloc` returns in round `i`. -/
def loadAvlLoop (alloc : ℕ → LoadAlloc) (fuel : ℕ) : ℕ → ℕ → Ptr → Int32 → Exec AvlIO ℤ
  | 0, _, _, _ => Exec.outOfFuel
  | rounds + 1, i, tree, size => do
      if 0 < size then
        let (n₁, minKey) ← fread 4
        if n₁ ≠ 4 then getErrno
        else
          let (n₂, maxKey) ← fread 4
          if n₂ ≠ 4 then getErrno
          else
            let (n₃, len) ← fread 4
            let dataLen := (ofBytes32 len).toInt32.toInt
            if n₃ ≠ 4 then getErrno
            else if dataLen < 0 ∨ ¬ (alloc i).buffer then return ENOMEM
            else
              let (n₄, data) ← fread dataLen.toNat
              if n₄ ≠ toSizeT dataLen then getErrno
              else
                let ret ← onMem (insertAvlEntry (ofBytes32 minKey) (ofBytes32 maxKey) data dataLen
                  (alloc i).node fuel tree .root)
                if ret ≠ 0 then return ret
                else
                  let tree ← onMem do return (← get).newRoot
                  loadAvlLoop alloc fuel rounds (i + 1) tree (size - recordSize dataLen)
      else
        return 0

def loadAvlTree (alloc : ℕ → LoadAlloc) (fuel : ℕ) (tree : Ptr) (size : Int32) : Exec AvlIO ℤ :=
  loadAvlLoop alloc fuel fuel 0 tree size

/-! ## What saving and loading are for -/

/-- The ranges and bytes of the nodes below a pointer, in order. -/
inductive InOrder (heap : Cells AvlEntry) : Ptr → List (UInt32 × UInt32 × List UInt8) → Prop
  | nil : InOrder heap none []
  | node {n : ℕ} {t : AvlEntry} {xs ys : List (UInt32 × UInt32 × List UInt8)}
      (entry : heap n = some t) (left : InOrder heap t.left xs) (right : InOrder heap t.right ys) :
      InOrder heap (some n) (xs ++ (t.minKey, t.maxKey, t.data) :: ys)

/-- Saving the tree in `s` adds some bytes to the file and their number to `*size`; loading these
    bytes, into a memory `heap` and a variable that is NULL, gives a tree with the same sequence. -/
def SavesAndLoads (s : AvlMem) (file : List UInt8) (size : Int32) (errno : ℤ)
    (heap : Cells AvlEntry)
    (alloc : ℕ → LoadAlloc) : Prop :=
  ∃ bytes s₁, Returns (fun fuel => saveAvlTree fuel s.newRoot) ⟨s, file, 0, size, errno⟩ 0 s₁ ∧
    s₁.file = file ++ bytes ∧ s₁.size.toInt = size.toInt + bytes.length ∧
    ∃ s₂, Returns (fun fuel => loadAvlTree alloc fuel none (Int32.ofInt bytes.length))
        ⟨⟨heap, none⟩, bytes, 0, 0, errno⟩ 0 s₂ ∧
      ∃ xs, InOrder s.heap s.newRoot xs ∧ InOrder s₂.mem.heap s₂.mem.newRoot xs

/-! ## When it works -/

theorem run_onMem_load {s : AvlIO} {n : ℕ} : (onMem (load (some n))).run s =
    match s.mem.heap n with
    | some t => .ok (t, s)
    | none => .error .undef := by
  have hrun : (onMem (load (some n))).run s = ((load (some n)).run s.mem).map
      fun (a, m) => (a, { s with mem := m }) := rfl
  rw [hrun, run_load, atEntry]
  cases s.mem.heap n <;> rfl

/-- `fwrite` returns 1 for an item of four bytes. -/
theorem run_fwrite_bytes32 {s : AvlIO} {x : UInt32} :
    (fwrite (bytes32 x)).run s = .ok (1, { s with file := s.file ++ bytes32 x }) := rfl

/-- Saving never changes `*size`, but writes to the file unless the tree is empty. -/
theorem saveAvlTree_writes {fuel : ℕ} {tree : Ptr} {s s' : AvlIO} {ret : ℤ}
    (h : (saveAvlTree fuel tree).run s = .ok (ret, s')) :
    s'.size = s.size ∧ (tree = none ∧ ret = 0 ∧ s' = s ∨ s.file.length < s'.file.length) := by
  induction fuel generalizing tree s s' ret with
  | zero => simp [saveAvlTree] at h
  | succ fuel ih =>
      cases tree with
      | none =>
          obtain ⟨rfl, rfl⟩ : 0 = ret ∧ s = s' := by simpa [saveAvlTree] using h
          exact ⟨rfl, .inl ⟨rfl, rfl, rfl⟩⟩
      | some n =>
          simp only [saveAvlTree, Option.isNone_some, Bool.false_eq_true, if_false, StateT.run_bind,
            run_onMem_load] at h
          cases hn : s.mem.heap n with
          | none => simp [hn] at h
          | some t =>
              simp only [hn, ok_bind] at h
              cases hleft : (saveAvlTree fuel t.left).run s with
              | error e => simp [hleft] at h
              | ok res =>
                  obtain ⟨ret₁, s₁⟩ := res
                  obtain ⟨hsize, hfile⟩ := ih hleft
                  simp only [hleft, ok_bind] at h
                  by_cases hret : ret₁ = 0
                  · -- the first item of the node counts as an error
                    rw [if_neg (by simp [hret])] at h
                    simp only [StateT.run_bind, run_onMem_load] at h
                    cases hn₁ : s₁.mem.heap n with
                    | none => simp [hn₁] at h
                    | some t₁ =>
                        simp only [hn₁, ok_bind, run_fwrite_bytes32] at h
                        rw [if_pos (by simp)] at h
                        obtain ⟨-, rfl⟩ : s₁.errno = ret ∧
                            { s₁ with file := s₁.file ++ bytes32 t₁.minKey } = s' := by
                          simpa [getErrno] using h
                        have hle : s.file.length ≤ s₁.file.length := by
                          rcases hfile with ⟨-, -, rfl⟩ | hlt
                          · exact le_rfl
                          · exact hlt.le
                        refine ⟨hsize, .inr ?_⟩
                        simp only [List.length_append, bytes32, List.length_cons]
                        omega
                  · rw [if_pos hret] at h
                    obtain ⟨rfl, rfl⟩ : ret₁ = ret ∧ s₁ = s' := by simpa using h
                    exact ⟨hsize, .inr (hfile.resolve_left fun h => hret h.2.1)⟩

theorem SavesAndLoads.newRoot_eq_none {s : AvlMem} {file : List UInt8} {size : Int32} {errno : ℤ}
    {heap : Cells AvlEntry} {alloc : ℕ → LoadAlloc}
    (h : SavesAndLoads s file size errno heap alloc) : s.newRoot = none := by
  obtain ⟨bytes, s₁, ⟨k, hsave⟩, hfile, hsize, -⟩ := h
  obtain ⟨heq, ⟨hnone, -⟩ | hlt⟩ := saveAvlTree_writes (hsave k le_rfl)
  · exact hnone
  · rw [heq] at hsize
    simp only [hfile, List.length_append] at hlt hsize
    omega

/-- **When saving and loading works**: just if the tree is empty, whatever the memory. -/
theorem saves_and_loads_iff (s : AvlMem) (file : List UInt8) (size : Int32) (errno : ℤ)
    (heap : Cells AvlEntry) (alloc : ℕ → LoadAlloc) :
    SavesAndLoads s file size errno heap alloc ↔ s.newRoot = none := by
  refine ⟨SavesAndLoads.newRoot_eq_none, fun hnone => ?_⟩
  refine ⟨[], ⟨s, file, 0, size, errno⟩, ⟨1, fun fuel hfuel => ?_⟩, by simp, by simp,
    ⟨⟨heap, none⟩, [], 0, 0, errno⟩, ⟨1, fun fuel hfuel => ?_⟩, [], ?_, .nil⟩
  · obtain ⟨fuel, rfl⟩ : ∃ f, fuel = f + 1 := ⟨fuel - 1, by omega⟩
    simp [saveAvlTree, hnone]
  · obtain ⟨fuel, rfl⟩ : ∃ f, fuel = f + 1 := ⟨fuel - 1, by omega⟩
    simp [loadAvlTree, loadAvlLoop]
  · rw [hnone]
    exact .nil

/-- A tree of one node is not saved and loaded. -/
theorem one_node_not_saved :
    ∃ s, (avlMachine DisjointCall).Run ⟨fun _ => none, none⟩ [(keyCall 5 0, 0)] s ∧
      ¬ SavesAndLoads s [] 0 0 (fun _ => none) fun i => ⟨true, some i⟩ := by
  obtain ⟨s, hret, ht, -⟩ := (avlTree_empty fun _ => none).returns_insert (keyCall 5 0)
    (by simp) rfl (goodCall_key rfl) (by decide) (by simp) trivial DisjointCall
  refine ⟨s, .snoc .nil ⟨goodCall_key rfl, rfl, by decide, by simp⟩ hret, fun hsaves => ?_⟩
  have hnone := hsaves.newRoot_eq_none
  rw [ht.root] at hnone
  simp [avlInsert, join] at hnone

end StructLib.Avl
