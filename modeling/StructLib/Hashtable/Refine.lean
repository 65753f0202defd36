import StructLib.Hashtable.Ops
import Mathlib.Algebra.BigOperators.Group.Finset.Piecewise
import Mathlib.Data.Finmap

set_option autoImplicit false

/-! # The hash table as a map

Every run of calls on a table is one of `tableSpec`, which keeps the entries in a list, the latest
first, and every run of the calls without enumeration is one of `mapSpec`, which keeps a finite map
from ids to bytes. -/

namespace StructLib.Hash

/-! ## The calls -/

/-- The calls on which a table is a map. `mem` is the block that `malloc` returns. -/
inductive MapOp where
  | insert (idNode : UInt32) (nodeData : List UInt8) (dataSize : UInt32) (mem : Option ℕ)
  | remove (idNode : UInt32)
  | find (idNode : UInt32)
  | count
  | clear

/-- The calls on a table whose entries are not yet parents and children. -/
inductive TableOp where
  | call (op : MapOp)
  | enum (verdict : List (UInt32 × List UInt8) → Int32)

/-- What a call returns. -/
inductive Answer where
  | code (r : ℤ)
  | found (bytes : Option (List UInt8 × UInt32))
  | count (n : UInt32)
  deriving DecidableEq

/-- A search, and the bytes to which its result points. -/
def readHashEntry (fuel : ℕ) (idNode : UInt32) :
    Exec Hashtable (Option (List UInt8 × UInt32)) := do
  match ← findHashEntry fuel idNode with
  | none => return none
  | some (p, dataSize) => return some ((← loadEntry p).data, dataSize)

def MapOp.exec : MapOp → ℕ → Exec Hashtable Answer
  | insert idNode nodeData dataSize mem, fuel =>
      return .code (← insertHashEntry fuel idNode nodeData dataSize mem)
  | remove idNode, fuel => return .code (← removeHashEntry fuel idNode)
  | find idNode, fuel => return .found (← readHashEntry fuel idNode)
  | count, _ => return .count (getHashEntryCount (← get))
  | clear, fuel => return .code (← clearHashTable fuel)

def TableOp.exec : TableOp → ℕ → Exec Hashtable Answer
  | call op, fuel => op.exec fuel
  | enum verdict, fuel => return .code (← enumHashEntry (routine verdict) fuel [])

/-- `malloc` returns a free block, and the caller has as many bytes as it says. -/
def MapOp.Allowed (s : Hashtable) : MapOp → Prop
  | insert _ nodeData dataSize (some m) => s.node m = none ∧ dataSize.toNat ≤ nodeData.length
  | _ => True

def TableOp.Allowed (s : Hashtable) : TableOp → Prop
  | call op => op.Allowed s
  | enum _ => True

/-! ## The entries -/

def MapOp.result (l : List Item) : MapOp → Answer
  | insert _ _ _ none => .code ENOMEM
  | insert idNode _ _ (some _) => .code (if idNode ∈ l.map Item.id then EEXIST else 0)
  | remove idNode => .code (if idNode ∈ l.map Item.id then 0 else ENOENT)
  | find idNode => .found ((l.find? (·.id = idNode)).map fun x => (x.data, .ofNat x.data.length))
  | count => .count (.ofNat l.length)
  | clear => .code 0

def MapOp.next (l : List Item) : MapOp → List Item
  | insert idNode nodeData dataSize (some m) =>
      if idNode ∈ l.map Item.id then l else ⟨m, idNode, nodeData.take dataSize.toNat⟩ :: l
  | remove idNode => l.filter (·.id ≠ idNode)
  | clear => []
  | _ => l

/-- A table as its list of entries. -/
def tableSpec : Spec (List Item) TableOp Answer where
  result l
    | .call op => op.result l
    | .enum verdict => .code ((enumerate verdict [] ENUM_CONTINUE l).2 &&& ENUM_CONTINUE).toInt
  next l
    | .call op => op.next l
    | .enum verdict => (enumerate verdict [] ENUM_CONTINUE l).1

section Calls

variable {s : Hashtable} {N : ℕ} {l : List Item} {id : UInt32}

theorem filter_id_ne {pre post : List Item} {x : Item} (h : ((pre ++ x :: post).map Item.id).Nodup) :
    (pre ++ x :: post).filter (·.id ≠ x.id) = pre ++ post := by
  have hnot : ∀ y ∈ pre ++ post, y.id ≠ x.id := by
    intro y hy heq
    have hnodup : (x :: (pre ++ post)).map Item.id |>.Nodup :=
      (List.perm_middle.map Item.id).nodup_iff.1 h
    exact (List.nodup_cons.1 hnodup).1 (heq ▸ List.mem_map_of_mem hy)
  have hself : (pre ++ post).filter (·.id ≠ x.id) = pre ++ post :=
    List.filter_eq_self.2 fun y hy => by simpa using hnot y hy
  rw [List.filter_append, List.filter_cons_of_neg (by simp), ← List.filter_append, hself]

theorem filter_id_ne_of_not_mem (h : id ∉ l.map Item.id) : l.filter (·.id ≠ id) = l := by
  refine List.filter_eq_self.2 fun y hy => ?_
  have hne : y.id ≠ id := fun heq => h (heq ▸ List.mem_map_of_mem hy)
  simpa using hne

theorem ofInt_natCast (n : ℕ) : UInt32.ofInt n = .ofNat n := by
  refine UInt32.toNat_inj.1 ?_
  simp only [UInt32.ofInt, UInt32.toNat_ofNat']
  omega

theorem Table.returns_readHashEntry (h : Table s N l) :
    Returns (fun fuel => readHashEntry fuel id) s
      ((l.find? (·.id = id)).map fun x => (x.data, .ofNat x.data.length)) s := by
  by_cases hid : id ∈ l.map Item.id
  · obtain ⟨x, hx, rfl⟩ := List.mem_map.1 hid
    obtain ⟨e, he, -, hdata, -⟩ := h.holds x hx
    rw [h.find?_id hx]
    refine (h.returns_findHashEntry hx).bind (Returns.of_run ?_)
    show ((loadEntry (.entry x.block 0)) >>= fun e =>
      pure (some (e.data, UInt32.ofNat x.data.length))).run s = _
    rw [Exec.run_bind_of_ok (run_loadEntry he), hdata]
    rfl
  · rw [find?_id_eq_none hid]
    exact (h.returns_findHashEntry_of_not_mem hid).bind (Returns.of_run rfl)

/-- How a call that turns the entries `l` into `l'` treats parents and children. -/
structure Kept (s s' : Hashtable) (l l' : List Item) : Prop where
  old : ∀ x ∈ l', x ∈ l → SameAt s s' x.block
  new : ∀ x ∈ l', x ∉ l → Single s' x.block

theorem Kept.refl (s : Hashtable) (l : List Item) : Kept s s l l :=
  ⟨fun _ _ _ => SameAt.refl s _, fun _ hx hx' => absurd hx hx'⟩

/-- One call: the answer, and the entries after it. -/
theorem Table.returns_mapOp (h : Table s N l) (op : MapOp) (hok : op.Allowed s)
    (hroom : (op.next l).length < 2 ^ 31) :
    ∃ s', Returns op.exec s (op.result l) s' ∧ Table s' N (op.next l) ∧
      Kept s s' l (op.next l) := by
  cases op with
  | insert id data size mem =>
      cases mem with
      | none =>
          have hrun : Returns (fun fuel => insertHashEntry fuel id data size none) s ENOMEM s :=
            ⟨0, fun _ _ => Exec.run_bind_of_ok h.run_burketOf _⟩
          exact ⟨s, hrun.map Answer.code, h, Kept.refl s l⟩
      | some m =>
          obtain ⟨hm, hsize⟩ := hok
          have hne : ∀ y ∈ l, y.block ≠ m := fun y hy heq =>
            h.not_mem hm (heq ▸ List.mem_map_of_mem hy)
          by_cases hid : id ∈ l.map Item.id
          · obtain ⟨s', hret, htable, hsame⟩ := h.returns_insertHashEntry_of_mem hm hsize hid
            simp only [MapOp.result, MapOp.next, if_pos hid]
            exact ⟨s', hret.map Answer.code, htable, fun y hy _ => hsame _ (hne y hy),
              fun y hy hy' => absurd hy hy'⟩
          · simp only [MapOp.next, if_neg hid, List.length_cons] at hroom
            obtain ⟨s', hret, htable, hsame, hsingle⟩ :=
              h.returns_insertHashEntry hm hsize hid hroom
            simp only [MapOp.result, MapOp.next, if_neg hid]
            refine ⟨s', hret.map Answer.code, htable, fun y _ hy => hsame _ (hne y hy),
              fun y hy hy' => ?_⟩
            obtain rfl := (List.mem_cons.1 hy).resolve_right hy'
            exact hsingle
  | remove id =>
      by_cases hid : id ∈ l.map Item.id
      · obtain ⟨x, hx, rfl⟩ := List.mem_map.1 hid
        obtain ⟨pre, post, rfl⟩ := List.append_of_mem hx
        simp only [MapOp.result, MapOp.next, if_pos hid, filter_id_ne h.ids]
        have hsub : (pre ++ post).Sublist (pre ++ x :: post) :=
          (List.sublist_cons_self x post).append_left pre
        exact ⟨_, (h.returns_removeHashEntry hx).map Answer.code, h.without.1,
          fun y hy _ => h.without.2 y hy, fun y hy hy' => absurd (hsub.subset hy) hy'⟩
      · simp only [MapOp.result, MapOp.next, if_neg hid, filter_id_ne_of_not_mem hid]
        exact ⟨s, (h.returns_removeHashEntry_of_not_mem hid).map Answer.code, h, Kept.refl s l⟩
  | find id => exact ⟨s, h.returns_readHashEntry.map Answer.found, h, Kept.refl s l⟩
  | count =>
      have hcount : getHashEntryCount s = .ofNat l.length := by
        rw [getHashEntryCount, h.count]
        exact ofInt_natCast l.length
      have hrun : (do return Answer.count (getHashEntryCount (← get)) : Exec Hashtable Answer).run s =
          .ok (.count (.ofNat l.length), s) := by
        rw [Exec.run_get_bind, hcount]
        rfl
      exact ⟨s, Returns.of_run hrun, h, Kept.refl s l⟩
  | clear =>
      obtain ⟨s', hret, htable⟩ := h.returns_clearHashTable
      exact ⟨s', hret.map Answer.code, htable, fun x hx => absurd hx List.not_mem_nil,
        fun x hx => absurd hx List.not_mem_nil⟩

/-- One call on a table with enumerations. -/
theorem Table.returns_tableOp (h : Table s N l) (op : TableOp) (hok : op.Allowed s)
    (hroom : (tableSpec.next l op).length < 2 ^ 31) :
    ∃ s', Returns op.exec s (tableSpec.result l op) s' ∧ Table s' N (tableSpec.next l op) ∧
      Kept s s' l (tableSpec.next l op) := by
  cases op with
  | call op => exact h.returns_mapOp op hok hroom
  | enum verdict =>
      obtain ⟨s', hret, htable, hsame⟩ := h.returns_enumHashEntry verdict
      exact ⟨s', hret.map Answer.code, htable, fun x hx _ => hsame x hx,
        fun x hx hx' => absurd ((enumerate_sublist _).subset hx) hx'⟩

end Calls

/-! ## The two indexes -/

/-- Calls that keep their promises, and leave fewer entries than an `int32_t` counts. -/
def tableMachine : Machine Hashtable TableOp Answer where
  enabled tr s op := op.Allowed s ∧ (tableSpec.next (tableSpec.after [] tr) op).length < 2 ^ 31
  exec := TableOp.exec

/-- The bucket rings and `FastList` hold the entries `l`, and `NumberOfNode` is their number. -/
def Consistent (N : ℕ) (s : Hashtable) (l : List Item) : Prop :=
  Table s N l ∧ s.numberOfNode = ∑ i ∈ Finset.range N, (l.filter (·.burket N = i)).length

theorem sum_burkets {N : ℕ} (hN : 0 < N) (l : List Item) :
    ∑ i ∈ Finset.range N, (l.filter (·.burket N = i)).length = l.length := by
  induction l with
  | nil => simp
  | cons x l ih =>
      have hlt : x.burket N < N := Nat.mod_lt _ hN
      have hstep : ∀ i, ((x :: l).filter (·.burket N = i)).length =
          (l.filter (·.burket N = i)).length + if x.burket N = i then 1 else 0 := by
        intro i
        by_cases hi : x.burket N = i
        · simp [hi]
        · simp [hi]
      simp only [hstep, Finset.sum_add_distrib, ih, Finset.sum_ite_eq, Finset.mem_range, if_pos hlt,
        List.length_cons]

/-- **The bucket rings and `FastList` agree** in every state that calls on a new table reach. -/
theorem indexes_agree (w : ℕ) (length : UInt32) (hpos : 0 < length.toNat)
    (hlt : length.toNat < 2 ^ 31) (s s₀ : Hashtable)
    (hcreate : Returns (fun fuel => createHashTable w fuel length true true) s 0 s₀) :
    tableMachine.Refines s₀ tableSpec [] (Consistent length.toNat) := by
  have hrefines : tableMachine.Refines s₀ tableSpec [] (fun s l => Table s length.toNat l) := by
    refine Machine.refines_of_step (Table.of_create rfl hpos hlt hcreate).1 ?_
    intro tr s op htable hen
    obtain ⟨s', hret, htable', -⟩ := htable.returns_tableOp op hen.1 hen.2
    exact ⟨s', hret, htable'⟩
  refine hrefines.mono fun s l htable => ⟨htable, ?_⟩
  rw [htable.count, sum_burkets htable.pos]

/-- Memory without any entries. -/
def Hashtable.none : Hashtable := ⟨0, 0, 0, ⟨fun _ => .null, fun _ => .null⟩, fun _ => Option.none⟩

theorem indexes_agree_two_burkets : ∃ s₀,
    Returns (fun fuel => createHashTable 64 fuel 2 true true) .none 0 s₀ ∧
      tableMachine.Refines s₀ tableSpec [] (Consistent 2) := by
  obtain ⟨s₀, hcreate, -⟩ :=
    returns_createHashTable_64 .none (show (2 : UInt32).toNat = 2 from rfl) (by decide)
    (by decide)
  exact ⟨s₀, hcreate, indexes_agree 64 2 (by decide) (by decide) .none s₀ hcreate⟩

/-! ## The finite map -/

/-- Finite maps from ids to bytes. -/
abbrev ByteMap := Finmap fun _ : UInt32 => List UInt8

/-- A table as a map. -/
def mapSpec : Spec ByteMap MapOp Answer where
  result a
    | .insert _ _ _ none => .code ENOMEM
    | .insert idNode _ _ (some _) => .code (if idNode ∈ a then EEXIST else 0)
    | .remove idNode => .code (if idNode ∈ a then 0 else ENOENT)
    | .find idNode => .found ((a.lookup idNode).map fun bytes => (bytes, .ofNat bytes.length))
    | .count => .count (.ofNat a.keys.card)
    | .clear => .code 0
  next a
    | .insert idNode nodeData dataSize (some _) =>
        if idNode ∈ a then a else a.insert idNode (nodeData.take dataSize.toNat)
    | .remove idNode => a.erase idNode
    | .clear => ∅
    | _ => a

/-- Calls that keep their promises, with `room` for the entries they leave. -/
def mapMachine (room : ℕ → Prop) : Machine Hashtable MapOp Answer where
  enabled tr s op := op.Allowed s ∧ room (mapSpec.next (mapSpec.after ∅ tr) op).keys.card
  exec := MapOp.exec

/-- The map that the entries make. -/
def bindings (l : List Item) : ByteMap := (l.map fun x => ⟨x.id, x.data⟩ : List (Sigma _)).toFinmap

section Bindings

variable {l : List Item} {id : UInt32}

@[simp] theorem bindings_cons (x : Item) : bindings (x :: l) = (bindings l).insert x.id x.data :=
  Finmap.toFinmap_cons ..

theorem lookup_bindings : (bindings l).lookup id = (l.find? (·.id = id)).map Item.data := by
  induction l with
  | nil => rfl
  | cons x l ih =>
      rw [bindings_cons]
      by_cases hx : x.id = id
      · subst hx
        simp [Finmap.lookup_insert]
      · rw [Finmap.lookup_insert_of_ne _ (Ne.symm hx), ih,
          List.find?_cons_of_neg (by simpa using hx)]

theorem mem_bindings : id ∈ bindings l ↔ id ∈ l.map Item.id := by
  induction l with
  | nil => simp [bindings, Finmap.notMem_empty]
  | cons x l ih => simp [Finmap.mem_insert, ih]

theorem card_bindings (h : (l.map Item.id).Nodup) : (bindings l).keys.card = l.length := by
  have hkeys : (bindings l).keys = (l.map Item.id).toFinset := by
    ext id
    rw [Finmap.mem_keys, mem_bindings, List.mem_toFinset]
  rw [hkeys, List.toFinset_card_of_nodup h, List.length_map]

/-- The map answers as the entries do. -/
theorem result_bindings (h : (l.map Item.id).Nodup) (op : MapOp) :
    op.result l = mapSpec.result (bindings l) op := by
  cases op with
  | insert id data size mem =>
      cases mem with
      | none => rfl
      | some m => simp only [MapOp.result, mapSpec, mem_bindings]
  | remove id => simp only [MapOp.result, mapSpec, mem_bindings]
  | find id => simp [MapOp.result, mapSpec, lookup_bindings, Function.comp_def]
  | count => simp only [MapOp.result, mapSpec, card_bindings h]
  | clear => rfl

/-- It changes as they do. -/
theorem bindings_next (op : MapOp) : bindings (op.next l) = mapSpec.next (bindings l) op := by
  cases op with
  | insert id data size mem =>
      cases mem with
      | none => rfl
      | some m =>
          by_cases hid : id ∈ l.map Item.id
          · simp only [MapOp.next, mapSpec, mem_bindings, if_pos hid]
          · simp only [MapOp.next, mapSpec, mem_bindings, if_neg hid, bindings_cons]
  | remove id =>
      refine Finmap.ext_lookup fun id' => ?_
      by_cases hid : id' = id
      · subst hid
        have hnone : (l.filter (·.id ≠ id')).find? (·.id = id') = none :=
          find?_id_eq_none (by simp)
        simp only [MapOp.next, mapSpec, lookup_bindings, hnone, Finmap.lookup_erase, Option.map_none]
      · have hfind : (l.filter (·.id ≠ id)).find? (·.id = id') = l.find? (·.id = id') := by
          rw [List.find?_filter]
          congr 1
          funext x
          by_cases hx : x.id = id'
          · simp [hx, hid]
          · simp [hx]
        simp only [MapOp.next, mapSpec, lookup_bindings, hfind, Finmap.lookup_erase_ne hid]
  | find id => rfl
  | count => rfl
  | clear => rfl

theorem ids_next (h : (l.map Item.id).Nodup) (op : MapOp) : ((op.next l).map Item.id).Nodup := by
  cases op with
  | insert id data size mem =>
      cases mem with
      | none => exact h
      | some m =>
          by_cases hid : id ∈ l.map Item.id
          · simpa only [MapOp.next, if_pos hid] using h
          · simp only [MapOp.next, if_neg hid]
            exact List.nodup_cons.2 ⟨hid, h⟩
  | remove id => exact h.sublist (List.filter_sublist.map Item.id)
  | find id => exact h
  | count => exact h
  | clear => exact List.nodup_nil

end Bindings

/-- **A table is a finite map** from ids to bytes while it has fewer than `2 ^ 31` entries. -/
theorem table_is_map (w : ℕ) (length : UInt32) (hpos : 0 < length.toNat)
    (hlt : length.toNat < 2 ^ 31) (s s₀ : Hashtable)
    (hcreate : Returns (fun fuel => createHashTable w fuel length true true) s 0 s₀) :
    (mapMachine (· < 2 ^ 31)).Refines s₀ mapSpec ∅
      fun s a => ∃ l, Table s length.toNat l ∧ a = bindings l := by
  have h₀ := (Table.of_create rfl hpos hlt hcreate).1
  refine Machine.refines_of_step ⟨[], h₀, rfl⟩ ?_
  rintro tr s op ⟨l, htable, hl⟩ ⟨hok, hroom⟩
  rw [hl, ← bindings_next, card_bindings (ids_next htable.ids op)] at hroom
  obtain ⟨s', hret, htable', -⟩ := htable.returns_mapOp op hok hroom
  rw [hl, ← result_bindings htable.ids, ← bindings_next]
  exact ⟨s', hret, op.next l, htable', rfl⟩

theorem table_is_map_two_burkets : ∃ s₀,
    Returns (fun fuel => createHashTable 64 fuel 2 true true) .none 0 s₀ ∧
      (mapMachine (· < 2 ^ 31)).Refines s₀ mapSpec ∅ fun s a => ∃ l, Table s 2 l ∧ a = bindings l := by
  obtain ⟨s₀, hcreate, -⟩ := returns_createHashTable_64 .none (show (2 : UInt32).toNat = 2 from rfl)
    (by decide) (by decide)
  exact ⟨s₀, hcreate, table_is_map 64 2 (by decide) (by decide) .none s₀ hcreate⟩

/-- Any number of entries that fits is reached by insertions. -/
theorem exists_run_length {s₀ : Hashtable} {N : ℕ} (h₀ : Table s₀ N []) (hfree : ∀ n, s₀.node n = none)
    {k : ℕ} (hk : k < 2 ^ 31) : ∃ tr s l, (mapMachine fun _ => True).Run s₀ tr s ∧ Table s N l ∧
      l.length = k ∧ (∀ x ∈ l, x.id.toNat < k) ∧ ∀ n, k ≤ n → s.node n = none := by
  induction k with
  | zero => exact ⟨[], s₀, [], .nil, h₀, rfl, by simp, fun n _ => hfree n⟩
  | succ k ih =>
      obtain ⟨tr, s, l, hrun, htable, hlen, hids, hnode⟩ := ih (by omega)
      have hk' : (UInt32.ofNat k).toNat = k := by
        rw [UInt32.toNat_ofNat']
        omega
      have hid : UInt32.ofNat k ∉ l.map Item.id := by
        intro hmem
        obtain ⟨x, hx, hxk⟩ := List.mem_map.1 hmem
        have hlt := hids x hx
        rw [hxk, hk'] at hlt
        omega
      have hsize : (0 : UInt32).toNat ≤ ([] : List UInt8).length := Nat.zero_le _
      have hen : (mapMachine fun _ => True).enabled tr s (.insert (.ofNat k) [] 0 (some k)) :=
        ⟨⟨hnode k (Nat.le_refl k), hsize⟩, trivial⟩
      obtain ⟨s', hret, htable', hsame, -⟩ :=
        htable.returns_insertHashEntry (hnode k (Nat.le_refl k)) hsize hid (by omega)
      refine ⟨_, s', _, hrun.snoc hen (hret.map Answer.code), htable', ?_, ?_, ?_⟩
      · rw [List.length_cons, hlen]
      · intro x hx
        rcases List.mem_cons.1 hx with rfl | hx
        · show (UInt32.ofNat k).toNat < k + 1
          omega
        · have hlt := hids x hx
          omega
      · intro n hn
        rw [(hsame n (by omega)).node, hnode n (by omega)]

/-- With `2 ^ 31 - 1` entries, the next insertion overflows `NumberOfNode`. -/
theorem full_table_is_no_map : ∃ s₀,
    Returns (fun fuel => createHashTable 64 fuel 1 true true) .none 0 s₀ ∧
      ¬ (mapMachine fun _ => True).Refines s₀ mapSpec ∅
        fun s a => ∃ l, Table s 1 l ∧ a = bindings l := by
  obtain ⟨s₀, hcreate, h₀, hnode₀⟩ := returns_createHashTable_64 .none
    (show (1 : UInt32).toNat = 1 from rfl) (by decide) (by decide)
  refine ⟨s₀, hcreate, fun hrefines => ?_⟩
  obtain ⟨tr, s, l, hrun, htable, hlen, hids, hnode⟩ :=
    exists_run_length h₀ (fun n => by rw [hnode₀]; rfl) (k := 2 ^ 31 - 1) (by decide)
  have hnew : (2147483647 : UInt32) ∉ l.map Item.id := by
    intro hmem
    obtain ⟨x, hx, hxk⟩ := List.mem_map.1 hmem
    exact absurd (hxk ▸ hids x hx) (by decide)
  have hfree := hnode (2 ^ 31 - 1) (Nat.le_refl _)
  have hsize : (0 : UInt32).toNat ≤ ([] : List UInt8).length := Nat.zero_le _
  have hen : (mapMachine fun _ => True).enabled tr s
      (.insert 2147483647 [] 0 (some (2 ^ 31 - 1))) := ⟨⟨hfree, hsize⟩, trivial⟩
  obtain ⟨s', hret⟩ := (hrefines tr s hrun).2.2 _ hen
  refine not_returns_of_error (e := .undef) (k := l.length + 1) (fun fuel hfuel => ?_) _ s' hret
  have herror := htable.run_insertHashEntry_full hfree hsize hnew (by omega) hfuel
  show ((insertHashEntry fuel 2147483647 [] 0 (some (2 ^ 31 - 1))) >>= fun r =>
    pure (Answer.code r)).run s = _
  rw [StateT.run_bind, herror]
  rfl

end StructLib.Hash
