import StructLib.Hashtable.Kinship

set_option autoImplicit false

/-! # The bucket array

The length of a table passes from a `uint32_t` into an `int32_t` field, is multiplied in `size_t`
for the array, bounds a signed loop and is an unsigned divisor. What `CreateHashTable` leaves is a
table whose every id has a list head if and only if the length is positive as an `int32_t`
(`headsRight_iff`). No other function changes the length or the array (`sized_run`). -/

namespace StructLib.Hash

open Links

/-! ## Calls keep the array -/

/-- The table says that it has `n` buckets, and its array has `k` list heads. -/
def Sized (n : Int32) (k : ℕ) (s : Hashtable) : Prop := s.numberOfBurkets = n ∧ s.heads = k

/-- A program that leaves the length and the array alone. -/
abbrev KeepsSize {α : Type} (n : Int32) (k : ℕ) (x : Exec Hashtable α) : Prop :=
  Exec.Keeps (Sized n k) x fun _ => True

section Keeps

variable {α : Type} {n : Int32} {k : ℕ} {p q : Ptr}

theorem keepsSize_ite {c : Prop} [Decidable c] {x y : Exec Hashtable α} (hx : KeepsSize n k x)
    (hy : KeepsSize n k y) : KeepsSize n k (if c then x else y) := by
  split
  · exact hx
  · exact hy

theorem keepsSize_get : KeepsSize n k (get : Exec Hashtable Hashtable) := by
  rintro s a s' hI ⟨⟩
  exact ⟨hI, trivial⟩

theorem keepsSize_getFlink : KeepsSize n k (getFlink p) :=
  keepsSize_get.bind fun _ _ => keepsSize_ite (.pure trivial) .error

theorem keepsSize_getBlink : KeepsSize n k (getBlink p) :=
  keepsSize_get.bind fun _ _ => keepsSize_ite (.pure trivial) .error

theorem keepsSize_modify {f : Hashtable → Hashtable}
    (hf : ∀ s, (f s).numberOfBurkets = s.numberOfBurkets ∧ (f s).heads = s.heads) :
    KeepsSize n k (modify f : Exec Hashtable Unit) := by
  rintro s a s' ⟨rfl, rfl⟩ ⟨⟩
  exact ⟨hf s, trivial⟩

theorem keepsSize_set {c : Hashtable → Prop} [DecidablePred c] {f : Hashtable → Hashtable}
    (hf : ∀ s, (f s).numberOfBurkets = s.numberOfBurkets ∧ (f s).heads = s.heads) :
    KeepsSize n k (do
      let s ← get
      if c s then set (f s) else Exec.undef) := by
  rintro s a s' ⟨rfl, rfl⟩ hrun
  rw [Exec.run_get_bind] at hrun
  split at hrun
  · cases hrun
    exact ⟨hf s, trivial⟩
  · cases hrun

theorem keepsSize_setFlink : KeepsSize n k (setFlink p q) :=
  keepsSize_set fun _ => ⟨rfl, rfl⟩

theorem keepsSize_setBlink : KeepsSize n k (setBlink p q) :=
  keepsSize_set fun _ => ⟨rfl, rfl⟩

theorem keepsSize_incNumberOfNode : KeepsSize n k incNumberOfNode :=
  keepsSize_set fun _ => ⟨rfl, rfl⟩

theorem keepsSize_decNumberOfNode : KeepsSize n k decNumberOfNode :=
  keepsSize_set fun _ => ⟨rfl, rfl⟩

theorem keepsSize_loadEntry : KeepsSize n k (loadEntry p) := by
  refine keepsSize_get.bind fun s _ => ?_
  cases s.entryAt p with
  | none => exact .error
  | some e => exact .pure trivial

theorem keepsSize_writeEntry {e : Option HashEntry} : KeepsSize n k (writeEntry p e) := by
  refine keepsSize_loadEntry.bind fun _ _ => ?_
  cases p with
  | entry m off => exact keepsSize_modify fun _ => ⟨rfl, rfl⟩
  | null => exact .error
  | fastList => exact .error
  | burket i => exact .error

theorem keepsSize_setChild : KeepsSize n k (setChild p q) :=
  keepsSize_loadEntry.bind fun _ _ => keepsSize_writeEntry

theorem keepsSize_setParent : KeepsSize n k (setParent p q) :=
  keepsSize_loadEntry.bind fun _ _ => keepsSize_writeEntry

/-! ### Lists -/

theorem keepsSize_burketOf {id : UInt32} : KeepsSize n k (burketOf id) :=
  keepsSize_get.bind fun _ _ => keepsSize_ite .error (.pure trivial)

theorem keepsSize_searchBurket {id : UInt32} (fuel : ℕ) : KeepsSize n k (searchBurket fuel p id) := by
  have hloop : ∀ fuel q, KeepsSize n k (searchLoop p id fuel q) := by
    intro fuel
    induction fuel with
    | zero => exact fun q => .error
    | succ fuel ih =>
        intro q
        exact keepsSize_ite (.pure trivial) (keepsSize_loadEntry.bind fun _ _ =>
          keepsSize_ite (.pure trivial) (keepsSize_getFlink.bind fun _ _ => ih _))
  exact keepsSize_getFlink.bind fun _ _ => hloop fuel _

theorem keepsSize_linkFirst : KeepsSize n k (linkFirst p q) :=
  keepsSize_getFlink.bind fun _ _ => keepsSize_setFlink.bind fun _ _ =>
    keepsSize_getFlink.bind fun _ _ => keepsSize_setBlink.bind fun _ _ =>
      keepsSize_setFlink.bind fun _ _ => keepsSize_setBlink

theorem keepsSize_linkAfter : KeepsSize n k (linkAfter p q) :=
  keepsSize_getFlink.bind fun _ _ => keepsSize_setFlink.bind fun _ _ =>
    keepsSize_setBlink.bind fun _ _ => keepsSize_getFlink.bind fun _ _ =>
      keepsSize_setBlink.bind fun _ _ => keepsSize_setFlink

theorem keepsSize_unlink : KeepsSize n k (unlink p) :=
  keepsSize_getBlink.bind fun _ _ => keepsSize_getFlink.bind fun _ _ =>
    keepsSize_setFlink.bind fun _ _ => keepsSize_getFlink.bind fun _ _ =>
      keepsSize_getBlink.bind fun _ _ => keepsSize_setBlink.bind fun _ _ =>
        keepsSize_setBlink.bind fun _ _ => keepsSize_setFlink

theorem keepsSize_deleteEntry : KeepsSize n k (deleteEntry p) :=
  (keepsSize_unlink.bind fun _ _ => keepsSize_unlink).bind fun _ _ =>
    keepsSize_decNumberOfNode.bind fun _ _ => keepsSize_writeEntry

/-! ### Entries -/

variable {id : UInt32}

theorem keepsSize_allocEntry {m : ℕ} {nodeData : List UInt8} {dataSize : UInt32} :
    KeepsSize n k (allocEntry m id nodeData dataSize) :=
  keepsSize_ite .error (keepsSize_modify fun _ => ⟨rfl, rfl⟩)

theorem keepsSize_insertHashEntry (fuel : ℕ) {nodeData : List UInt8} {dataSize : UInt32}
    {mem : Option ℕ} : KeepsSize n k (insertHashEntry fuel id nodeData dataSize mem) := by
  refine keepsSize_burketOf.bind fun _ _ => ?_
  cases mem with
  | none => exact .pure trivial
  | some m =>
      exact keepsSize_allocEntry.bind fun _ _ => (keepsSize_searchBurket fuel).bind fun _ _ =>
        keepsSize_ite (.pure trivial) (keepsSize_linkFirst.bind fun _ _ =>
          keepsSize_linkAfter.bind fun _ _ => keepsSize_setBlink.bind fun _ _ =>
            keepsSize_setFlink.bind fun _ _ => keepsSize_setChild.bind fun _ _ =>
              keepsSize_setParent.bind fun _ _ => keepsSize_incNumberOfNode.bind fun _ _ =>
                .pure trivial)

theorem keepsSize_removeHashEntry (fuel : ℕ) : KeepsSize n k (removeHashEntry fuel id) :=
  keepsSize_burketOf.bind fun _ _ => (keepsSize_searchBurket fuel).bind fun _ _ =>
    keepsSize_ite (.pure trivial) ((keepsSize_unlink.bind fun _ _ => keepsSize_unlink).bind fun _ _ =>
      keepsSize_writeEntry.bind fun _ _ => keepsSize_decNumberOfNode.bind fun _ _ => .pure trivial)

theorem keepsSize_readHashEntry (fuel : ℕ) : KeepsSize n k (readHashEntry fuel id) := by
  have hfind : KeepsSize n k (findHashEntry fuel id) :=
    keepsSize_burketOf.bind fun _ _ => (keepsSize_searchBurket fuel).bind fun _ _ =>
      keepsSize_ite (.pure trivial) (keepsSize_loadEntry.bind fun _ _ => .pure trivial)
  refine hfind.bind fun found _ => ?_
  cases found with
  | none => exact .pure trivial
  | some e => exact keepsSize_loadEntry.bind fun _ _ => .pure trivial

theorem keepsSize_enumHashEntry {κ : Type} {enumRoutine : EnumRoutine κ} (fuel : ℕ)
    (hroutine : ∀ context id data dataSize, KeepsSize n k (enumRoutine context id data dataSize))
    {context : κ} : KeepsSize n k (enumHashEntry enumRoutine fuel context) := by
  have hloop : ∀ fuel pNode nextAction context,
      KeepsSize n k (enumLoop enumRoutine fuel pNode nextAction context) := by
    intro fuel
    induction fuel with
    | zero => exact fun _ _ _ => .error
    | succ fuel ih =>
        intro pNode nextAction context
        refine keepsSize_ite (.pure trivial) (keepsSize_loadEntry.bind fun e _ =>
          (hroutine context e.idNode e.data e.dataSize).bind fun _ _ =>
            keepsSize_getFlink.bind fun _ _ => ?_)
        exact keepsSize_ite
          (keepsSize_deleteEntry.bind fun _ _ => keepsSize_ite (ih _ _ _) (.pure trivial))
          (keepsSize_ite (ih _ _ _) (.pure trivial))
  have hcontext : KeepsSize n k (enumContextHashEntry enumRoutine fuel context) :=
    keepsSize_getFlink.bind fun _ _ => (hloop fuel _ _ _).bind fun _ _ => .pure trivial
  exact hcontext.bind fun _ _ => .pure trivial

theorem keepsSize_clearHashTable (fuel : ℕ) : KeepsSize n k (clearHashTable fuel) := by
  have hloop : ∀ fuel pNode, KeepsSize n k (clearLoop fuel pNode) := by
    intro fuel
    induction fuel with
    | zero => exact fun _ => .error
    | succ fuel ih =>
        intro pNode
        exact keepsSize_ite (.pure trivial) (keepsSize_getFlink.bind fun _ _ =>
          keepsSize_deleteEntry.bind fun _ _ => ih _)
  exact keepsSize_getFlink.bind fun _ _ => (hloop fuel _).bind fun _ _ => .pure trivial

/-! ### Parents and children -/

variable {id' : UInt32}

theorem keepsSize_getZipperNode (fuel : ℕ) : KeepsSize n k (getZipperNode fuel id) :=
  keepsSize_burketOf.bind fun _ _ => (keepsSize_searchBurket fuel).bind fun _ _ => .pure trivial

theorem keepsSize_addChildHashEntry (fuel : ℕ) : KeepsSize n k (addChildHashEntry fuel id id') :=
  (keepsSize_getZipperNode fuel).bind fun _ _ => (keepsSize_getZipperNode fuel).bind fun _ _ =>
    keepsSize_ite (.pure trivial) (keepsSize_loadEntry.bind fun _ _ =>
      keepsSize_linkAfter.bind fun _ _ => keepsSize_setChild.bind fun _ _ =>
        keepsSize_setParent.bind fun _ _ => .pure trivial)

theorem keepsSize_removeChildHashEntry (fuel : ℕ) :
    KeepsSize n k (removeChildHashEntry fuel id id') := by
  have hpass : ∀ p q, KeepsSize n k (passOnChild p q) := fun p q =>
    keepsSize_getFlink.bind fun _ _ => keepsSize_ite keepsSize_setChild keepsSize_setChild
  have hrest : ∀ q : Ptr, KeepsSize n k (do
      setParent q .null
      unlink (q.plus 2)
      return (0 : ℤ)) := fun q =>
    keepsSize_setParent.bind fun _ _ => keepsSize_unlink.bind fun _ _ => .pure trivial
  exact (keepsSize_getZipperNode fuel).bind fun _ _ => (keepsSize_getZipperNode fuel).bind fun _ _ =>
    keepsSize_ite (.pure trivial) (keepsSize_loadEntry.bind fun _ _ =>
      keepsSize_ite ((hpass _ _).bind fun _ _ => hrest _) (hrest _))

theorem KinOp.keepsSize (op : KinOp) (fuel : ℕ) : KeepsSize n k (op.exec fuel) := by
  cases op with
  | table op =>
      cases op with
      | call op =>
          cases op with
          | insert => exact (keepsSize_insertHashEntry fuel).bind fun _ _ => .pure trivial
          | remove => exact (keepsSize_removeHashEntry fuel).bind fun _ _ => .pure trivial
          | find => exact (keepsSize_readHashEntry fuel).bind fun _ _ => .pure trivial
          | count => exact keepsSize_get.bind fun _ _ => .pure trivial
          | clear => exact (keepsSize_clearHashTable fuel).bind fun _ _ => .pure trivial
      | enum verdict =>
          exact (keepsSize_enumHashEntry fuel fun _ _ _ _ => .pure trivial).bind fun _ _ =>
            .pure trivial
  | addChild => exact (keepsSize_addChildHashEntry fuel).bind fun _ _ => .pure trivial
  | removeChild => exact (keepsSize_removeChildHashEntry fuel).bind fun _ _ => .pure trivial

end Keeps

/-! ## Runs -/

/-- All calls, whatever the caller does. -/
def callMachine : Machine Hashtable KinOp Answer where
  enabled _ _ _ := True
  exec := KinOp.exec

section Runs

variable {s s' t : Hashtable} {tr : List (KinOp × Answer)} {n : Int32} {k : ℕ}

/-- Length and array are the same after any calls. -/
theorem sized_run (h : callMachine.Run s tr t) (hs : Sized n k s) : Sized n k t := by
  induction h with
  | nil => exact hs
  | snoc _ _ ret ih =>
      obtain ⟨fuel, hret⟩ := ret
      exact (KinOp.keepsSize _ fuel _ _ _ ih (hret fuel (Nat.le_refl fuel))).1

/-- The array has as many list heads as the table says, all of them empty rings; and also after any
    further calls the index of every id is that of one of them. -/
structure HeadsRight (s : Hashtable) : Prop where
  heads : (s.heads : ℤ) = s.numberOfBurkets.toInt
  rings : ∀ i < s.heads, s.link.Ring (.burket i) []
  index : ∀ tr t, callMachine.Run s tr t → ∀ idNode, ∃ i < s.heads,
    (burketOf idNode).run t = .ok (.burket i, t)

end Runs

/-! ## Creation -/

section Create

variable {s s' : Hashtable} {w : ℕ} {length : UInt32} {tableMem arrayMem : Bool}

/-- The bytes that `malloc` is asked for. -/
def arraySize (w : ℕ) (length : UInt32) : ℕ :=
  (↑(2 * (w / 8)) * length.toInt32.toInt % 2 ^ w).toNat

theorem keepsSize_createLoop {n : Int32} {k : ℕ} (fuel i : ℕ) :
    KeepsSize n k (createLoop fuel i) := by
  induction fuel generalizing i with
  | zero => exact .error
  | succ fuel ih =>
      exact keepsSize_get.bind fun _ _ => keepsSize_ite (keepsSize_setBlink.bind fun _ _ =>
        keepsSize_setFlink.bind fun _ _ => ih (i + 1)) (.pure trivial)

/-- The table when the loop starts, the array having `k` list heads. -/
def Hashtable.started (s : Hashtable) (length : UInt32) (k : ℕ) : Hashtable :=
  { s with
    numberOfBurkets := length.toInt32
    numberOfNode := 0
    heads := k
    link := ⟨zeroHeads s.link.next, zeroHeads s.link.prev⟩ }

theorem run_createHashTable_of (harray : arrayMem = false → arraySize w length = 0) (fuel : ℕ) :
    (createHashTable w fuel length true arrayMem).run s = (do
      createLoop fuel 0
      setBlink .fastList .fastList
      setFlink .fastList .fastList
      return (0 : ℤ)).run (s.started length
        (if arrayMem then arraySize w length / (2 * (w / 8)) else 0)) := by
  rw [createHashTable, if_neg (by simp), if_neg]
  · rfl
  · simpa [arraySize] using harray

theorem malloc_of_returns
    (hret : Returns (fun fuel => createHashTable w fuel length tableMem arrayMem) s 0 s') :
    tableMem = true ∧ (arrayMem = false → arraySize w length = 0) := by
  obtain ⟨fuel, hrun⟩ := hret
  replace hrun : (createHashTable w fuel length tableMem arrayMem).run s = .ok (0, s') :=
    hrun fuel (Nat.le_refl fuel)
  cases tableMem with
  | false => exact absurd hrun (by simp [createHashTable, ENOMEM])
  | true =>
      refine ⟨rfl, fun harray => ?_⟩
      by_contra hsize
      rw [createHashTable, if_neg (by simp), if_pos ⟨by simp [harray], hsize⟩] at hrun
      cases hrun

theorem sized_of_returns (harray : arrayMem = false → arraySize w length = 0)
    (hret : Returns (fun fuel => createHashTable w fuel length true arrayMem) s 0 s') :
    Sized length.toInt32 (if arrayMem then arraySize w length / (2 * (w / 8)) else 0) s' := by
  obtain ⟨fuel, hrun⟩ := hret
  replace hrun := (run_createHashTable_of harray fuel).symm.trans (hrun fuel (Nat.le_refl fuel))
  have hkeeps : KeepsSize length.toInt32
      (if arrayMem then arraySize w length / (2 * (w / 8)) else 0) (do
        createLoop fuel 0
        setBlink .fastList .fastList
        setFlink .fastList .fastList
        return (0 : ℤ)) :=
    (keepsSize_createLoop fuel 0).bind fun _ _ => keepsSize_setBlink.bind fun _ _ =>
      keepsSize_setFlink.bind fun _ _ => .pure trivial
  exact (hkeeps _ _ _ ⟨rfl, rfl⟩ hrun).1

/-- An array for the right number of list heads, or one that wraps to less. -/
theorem arraySize_div_le (hlt : length.toNat < 2 ^ 31) :
    arraySize w length / (2 * (w / 8)) ≤ length.toNat := by
  have hsize : arraySize w length = 2 * (w / 8) * length.toNat % 2 ^ w := by
    rw [arraySize, toInt_toInt32 hlt]
    exact_mod_cast Int.toNat_natCast _
  calc arraySize w length / (2 * (w / 8))
      ≤ 2 * (w / 8) * length.toNat / (2 * (w / 8)) :=
        Nat.div_le_div_right (hsize ▸ Nat.mod_le _ _)
    _ ≤ length.toNat := Nat.div_le_of_le_mul (Nat.le_refl _)

/-- A positive length: where the array is too short, the loop does not come to its end. -/
theorem headsRight_of_returns (hpos : 0 < length.toNat) (hlt : length.toNat < 2 ^ 31)
    (hret : Returns (fun fuel => createHashTable w fuel length tableMem arrayMem) s 0 s') :
    HeadsRight s' := by
  obtain ⟨rfl, harray⟩ := malloc_of_returns hret
  have hsized := sized_of_returns harray hret
  cases arrayMem with
  | false =>
      refine absurd hret (not_returns_of_error (e := .undef) (k := 1) (fun fuel hfuel => ?_) 0 s')
      have hloop : (createLoop fuel 0).run (s.started length 0) = .error .undef :=
        run_createLoop_short (toInt_toInt32 hlt) hpos (Nat.zero_add 0) hfuel
      rw [run_createHashTable_of harray, if_neg (by simp), StateT.run_bind, hloop]
      rfl
  | true =>
      obtain ⟨htable, -⟩ := Table.of_create rfl hpos hlt hret
      have hheads : s'.heads = length.toNat :=
        Nat.le_antisymm (hsized.2.trans_le (arraySize_div_le hlt)) htable.heads
      refine ⟨?_, fun i hi => ?_, fun tr t hrun idNode => ?_⟩
      · rw [hheads, hsized.1, toInt_toInt32 hlt]
      · exact htable.rings.burket i (hheads ▸ hi)
      · have hsame : t.numberOfBurkets.toUInt32 = length := by
          rw [(sized_run hrun ⟨rfl, rfl⟩).1, hsized.1]
          simp
        have hne : length ≠ 0 := by
          rintro rfl
          exact absurd hpos (by decide)
        refine ⟨idNode.toNat % length.toNat, ?_, by simp [burketOf, hsame, hne]⟩
        rw [hheads]
        exact Nat.mod_lt _ hpos

theorem toInt32_nonpos (hlength : ¬ (0 < length.toNat ∧ length.toNat < 2 ^ 31)) :
    length.toInt32.toInt ≤ 0 := by
  have hlt : length.toBitVec.toNat < 2 ^ 32 := length.toBitVec.isLt
  have hint : length.toInt32.toInt = if 2 * length.toBitVec.toNat < 2 ^ 32
      then (length.toBitVec.toNat : ℤ) else length.toBitVec.toNat - 2 ^ 32 :=
    BitVec.toInt_eq_toNat_cond _
  rw [UInt32.toNat_toBitVec] at hlt hint
  rw [hint]
  split
  · omega
  · omega

/-- No bucket, or a negative number of them: the loop makes no turn. -/
theorem returns_of_nonpos (hlength : ¬ (0 < length.toNat ∧ length.toNat < 2 ^ 31))
    (harray : arrayMem = false → arraySize w length = 0) (s : Hashtable) :
    ∃ s', Returns (fun fuel => createHashTable w fuel length true arrayMem) s 0 s' ∧
      ¬ HeadsRight s' := by
  have hnonpos := toInt32_nonpos hlength
  obtain ⟨k, hk⟩ : ∃ k, (if arrayMem then arraySize w length / (2 * (w / 8)) else 0) = k := ⟨_, rfl⟩
  refine ⟨(s.started length k).setLink ⟨Function.update (zeroHeads s.link.next) .fastList .fastList,
    Function.update (zeroHeads s.link.prev) .fastList .fastList⟩, ?_, fun hright => ?_⟩
  · refine ⟨1, fun fuel hfuel => ?_⟩
    obtain ⟨fuel, rfl⟩ : ∃ f, fuel = f + 1 := ⟨fuel - 1, by omega⟩
    have hloop : (createLoop (fuel + 1) 0).run (s.started length k) =
        .ok ((), s.started length k) := by
      refine run_createLoop_stop ?_ fuel
      change length.toInt32.toInt ≤ (0 : ℕ)
      simpa using hnonpos
    rw [run_createHashTable_of harray, hk, Exec.run_bind_of_ok hloop,
      Exec.run_bind_of_ok (run_setBlink isList_fastList),
      Exec.run_bind_of_ok (run_setFlink isList_fastList)]
    rfl
  · have hheads : (k : ℤ) = length.toInt32.toInt := hright.heads
    obtain ⟨i, hi, -⟩ := hright.index [] _ .nil 0
    exact absurd hi (show ¬ i < k by omega)

end Create

/-! ## Every length -/

/-- **When a new table has a list head for every id**: for every width of `size_t`, every length and
    whichever of the two allocations succeed, if and only if the length is neither 0 nor too large
    for an `int32_t`, or an allocation fails: the first one, or one of more than 0 bytes for the
    array. -/
theorem headsRight_iff (w : ℕ) (length : UInt32) (tableMem arrayMem : Bool) (s : Hashtable) :
    (∀ s', Returns (fun fuel => createHashTable w fuel length tableMem arrayMem) s 0 s' →
        HeadsRight s') ↔
      (0 < length.toNat ∧ length.toNat < 2 ^ 31) ∨ tableMem = false ∨
        (arrayMem = false ∧ arraySize w length ≠ 0) := by
  constructor
  · intro hright
    by_contra hnot
    obtain ⟨hlength, htable, harray⟩ : ¬ (0 < length.toNat ∧ length.toNat < 2 ^ 31) ∧
        tableMem = true ∧ (arrayMem = false → arraySize w length = 0) := by
      simpa [not_or] using hnot
    subst htable
    obtain ⟨s', hret, hwrong⟩ := returns_of_nonpos hlength harray s
    exact hwrong (hright s' hret)
  · intro hcond s' hret
    obtain ⟨htable, harray⟩ := malloc_of_returns hret
    rcases hcond with ⟨hpos, hlt⟩ | hfalse | ⟨hfalse, hsize⟩
    · exact headsRight_of_returns hpos hlt hret
    · rw [htable] at hfalse
      cases hfalse
    · exact absurd (harray hfalse) hsize

/-- A table of length 0: every search divides by zero. -/
theorem heads_wrong_zero : ¬ ∀ s', Returns (fun fuel => createHashTable 64 fuel 0 true true) .none 0
    s' → HeadsRight s' := by
  intro hright
  obtain ⟨s', hret, hwrong⟩ : ∃ s', Returns (fun fuel => createHashTable 64 fuel 0 true true) .none 0
      s' ∧ ¬ HeadsRight s' := returns_of_nonpos (by decide) (by simp) .none
  exact hwrong (hright s' hret)

end StructLib.Hash
