import StructLib.Fifo.Model

set_option autoImplicit false

/-! # One producer and one consumer share a queue

The entries put so far are those whose `fifo_put` has written `tail`, the entries taken those that
`fifo_get` has returned. In between they are in the table, from `head` on around the table to `tail`
(`Holds`); the slot at `tail` is never one of theirs, and the producer may write it. -/

namespace StructLib.Fifo

variable {E : Type}

abbrev Ev (E : Type) := Event (Res E) Thread (Op E) (Result E)

/-- The entry that an access publishes: the last access of `fifo_put` does. -/
def published1 (ev : Ev E) : Option E :=
  match ev.op, ev.acc with
  | .put entry, .writeTail _ => some entry
  | _, _ => none

/-- The entry that a call of `fifo_get` returns with its last access, if it is not NULL. -/
def taken1 (ev : Ev E) : Option E :=
  match ev.ret with
  | some (.got item) => item
  | _ => none

def published (tr : List (Ev E)) : List E := tr.filterMap published1

def taken (tr : List (Ev E)) : List E := tr.filterMap taken1

/-- The entries held: those published and not yet taken. -/
def queue (tr : List (Ev E)) : List E := (published tr).drop (taken tr).length

/-- What a call returns with an access, if it does: `fifo_put` that it is done when it has published
    its entry, and the two failures at the read of the other side's index, `before` which the queue
    was full or empty. -/
structure RightlyReturns (max : ℕ) (before : List (Ev E)) (ev : Ev E) : Prop where
  done : ev.ret = some (.put true) ↔ (published1 ev).isSome
  full : ev.ret = some (.put false) → ev.acc = .readHead ∧ (queue before).length = max
  empty : ev.ret = some (.got none) → ev.acc = .readTail ∧ queue before = []

/-- Memory holds the entries `q` in a queue for `max` entries. -/
structure Holds (max : ℕ) (q : List E) (s : FifoMem E) : Prop where
  size : s.max.toNat = max + 1
  allocated : max + 1 ≤ s.slots
  head : s.head.toNat < max + 1
  tail : s.tail.toNat = (s.head.toNat + q.length) % (max + 1)
  slots : ∀ i e, q[i]? = some e → s.table ((s.head.toNat + i) % (max + 1)) = some e
  length : q.length ≤ max

/-- What holds in every state. -/
structure Right (max : ℕ) (tr : List (Ev E)) (s : FifoMem E) : Prop where
  order : published tr = taken tr ++ queue tr
  holds : Holds max (queue tr) s
  returns : EachEvent (RightlyReturns max) tr

theorem Holds.tail_lt {max : ℕ} {q : List E} {s : FifoMem E} (h : Holds max q s) :
    s.tail.toNat < max + 1 := by
  rw [h.tail]
  exact Nat.mod_lt _ (Nat.succ_pos max)

/-! ## Indexes around the table -/

theorem increment_toNat {idx max : UInt32} (h : idx.toNat + 1 < 2 ^ 32) :
    (increment idx max).toNat = (idx.toNat + 1) % max.toNat := by
  rw [increment, UInt32.toNat_mod, UInt32.toNat_add]
  congr 1
  exact Nat.mod_eq_of_lt h

theorem ring_inj {m a i j : ℕ} (hi : i < m) (hj : j < m) (h : (a + i) % m = (a + j) % m) :
    i = j := by
  have hmod : i % m = j % m := Nat.ModEq.add_left_cancel' a h
  rwa [Nat.mod_eq_of_lt hi, Nat.mod_eq_of_lt hj] at hmod

/-! ## The abstract queue -/

section Trace

variable {tr : List (Ev E)} {ev : Ev E} {e : E}

theorem published_snoc : published (tr ++ [ev]) = published tr ++ (published1 ev).toList := by
  rw [published, List.filterMap_append, published]
  cases h : published1 ev <;> simp [h]

theorem taken_snoc : taken (tr ++ [ev]) = taken tr ++ (taken1 ev).toList := by
  rw [taken, List.filterMap_append, taken]
  cases h : taken1 ev <;> simp [h]

/-- An access that neither publishes nor takes. -/
theorem queue_quiet (hp : published1 ev = none) (ht : taken1 ev = none) :
    queue (tr ++ [ev]) = queue tr := by
  simp [queue, published_snoc, taken_snoc, hp, ht]

theorem queue_put (ho : published tr = taken tr ++ queue tr) (hp : published1 ev = some e)
    (ht : taken1 ev = none) : queue (tr ++ [ev]) = queue tr ++ [e] := by
  have hle : (taken tr).length ≤ (published tr).length := by
    rw [ho, List.length_append]
    omega
  simp [queue, published_snoc, taken_snoc, hp, ht, List.drop_append_of_le_length hle]

theorem queue_get {q : List E} (hq : queue tr = e :: q) (hp : published1 ev = none)
    (ht : taken1 ev = some e) : queue (tr ++ [ev]) = q := by
  have htail : q = (queue tr).tail := by rw [hq, List.tail_cons]
  rw [htail, queue, queue, published_snoc, taken_snoc, hp, ht]
  simp [List.tail_drop]

theorem order_quiet (ho : published tr = taken tr ++ queue tr) (hp : published1 ev = none)
    (ht : taken1 ev = none) :
    published (tr ++ [ev]) = taken (tr ++ [ev]) ++ queue (tr ++ [ev]) := by
  rw [queue_quiet hp ht, published_snoc, taken_snoc, hp, ht]
  simpa using ho

theorem order_put (ho : published tr = taken tr ++ queue tr) (hp : published1 ev = some e)
    (ht : taken1 ev = none) :
    published (tr ++ [ev]) = taken (tr ++ [ev]) ++ queue (tr ++ [ev]) := by
  rw [queue_put ho hp ht, published_snoc, taken_snoc, hp, ht, ho]
  simp

theorem order_get {q : List E} (ho : published tr = taken tr ++ queue tr) (hq : queue tr = e :: q)
    (hp : published1 ev = none) (ht : taken1 ev = some e) :
    published (tr ++ [ev]) = taken (tr ++ [ev]) ++ queue (tr ++ [ev]) := by
  rw [queue_get hq hp ht, published_snoc, taken_snoc, hp, ht, ho, hq]
  simp

end Trace

/-! ## Program points -/

/-- `fifo_put` before its read of `head`. -/
def putCheck (n : Int32) (entry : E) : Prog (Res E) Bool := do
  if n.toUInt32 ≠ (← readHead) then
    writeSlot (← readTail) (some entry)
    writeTail n.toUInt32
    return true
  else
    return false

/-- `fifo_put` when there is room. -/
def putStore (n : Int32) (entry : E) : Prog (Res E) (Result E) := do
  writeSlot (← readTail) (some entry)
  writeTail n.toUInt32
  return .put true

def putSlot (n : Int32) (i : UInt32) (entry : E) : Prog (Res E) (Result E) := do
  writeSlot i (some entry)
  writeTail n.toUInt32
  return .put true

def putPublish (n : Int32) : Prog (Res E) (Result E) := do
  writeTail n.toUInt32
  return .put true

/-- `fifo_get` before its read of `tail`. -/
def getCheck (max h : UInt32) : Prog (Res E) (Option E) := do
  if h = (← readTail) then
    return none
  else
    let item ← readSlot (← readHead)
    writeHead (increment (← readHead) max)
    return item

/-- `fifo_get` when there is an entry. -/
def getLoad (max : UInt32) : Prog (Res E) (Result E) := do
  let item ← readSlot (← readHead)
  writeHead (increment (← readHead) max)
  return .got item

def getSlot (max i : UInt32) : Prog (Res E) (Result E) := do
  let item ← readSlot i
  writeHead (increment (← readHead) max)
  return .got item

def getAdvance (max : UInt32) (item : Option E) : Prog (Res E) (Result E) := do
  writeHead (increment (← readHead) max)
  return .got item

def getFinish (n : UInt32) (item : Option E) : Prog (Res E) (Result E) := do
  writeHead n
  return .got item

/-- What the producer knows while it puts `entry`, the queue being `q`. -/
inductive PutAt (max : UInt32) (entry : E) (q : List E) (s : FifoMem E) :
    Prog (Res E) (Result E) → Prop
  | start : PutAt max entry q s (Op.code max (.put entry))
  | check {n : Int32} (next : n.toUInt32 = increment s.tail max) :
      PutAt max entry q s (do return .put (← putCheck n entry))
  | store {n : Int32} (next : n.toUInt32 = increment s.tail max)
      (room : q.length + 1 < max.toNat) : PutAt max entry q s (putStore n entry)
  | slot {n : Int32} (next : n.toUInt32 = increment s.tail max)
      (room : q.length + 1 < max.toNat) : PutAt max entry q s (putSlot n s.tail entry)
  | publish {n : Int32} (next : n.toUInt32 = increment s.tail max)
      (room : q.length + 1 < max.toNat) (stored : s.table s.tail.toNat = some entry) :
      PutAt max entry q s (putPublish n)

/-- What the consumer knows, the queue being `q`. -/
inductive GetAt (max : UInt32) (q : List E) (s : FifoMem E) : Prog (Res E) (Result E) → Prop
  | start : GetAt max q s (Op.code max .get)
  | check : GetAt max q s (do return .got (← getCheck max s.head))
  | load {e : E} (first : q.head? = some e) : GetAt max q s (getLoad max)
  | slot {e : E} (first : q.head? = some e) : GetAt max q s (getSlot max s.head)
  | advance {e : E} (first : q.head? = some e) : GetAt max q s (getAdvance max (some e))
  | finish {e : E} (first : q.head? = some e) :
      GetAt max q s (getFinish (increment s.head max) (some e))

section Points

variable {max : UInt32} {entry e : E} {q : List E} {s s' : FifoMem E} {p : Prog (Res E) (Result E)}
  {m : ℕ} {tr : List (Ev E)} {ev : Ev E}

/-! ## Interference -/

/-- The producer does not write `head`, and does not take the first entry away. -/
theorem GetAt.put (h : GetAt max q s p) (hhead : s'.head = s.head) {q' : List E} :
    GetAt max (q ++ q') s' p := by
  have hfirst : ∀ e, q.head? = some e → (q ++ q').head? = some e := by
    intro e he
    rw [List.head?_append, he, Option.some_or]
  cases h with
  | start => exact .start
  | check => exact hhead ▸ .check
  | load first => exact .load (hfirst _ first)
  | slot first => exact hhead ▸ .slot (hfirst _ first)
  | advance first => exact .advance (hfirst _ first)
  | finish first => exact hhead ▸ .finish (hfirst _ first)

/-- The consumer writes neither `tail` nor the table, and makes room. -/
theorem PutAt.get (h : PutAt max entry q s p) (htail : s'.tail = s.tail)
    (htable : s'.table = s.table) {q' : List E} (hle : q'.length ≤ q.length) :
    PutAt max entry q' s' p := by
  cases h with
  | start => exact .start
  | check next => exact .check (htail ▸ next)
  | store next room => exact .store (htail ▸ next) (by omega)
  | slot next room => exact htail ▸ .slot (htail ▸ next) (by omega)
  | publish next room stored =>
      exact .publish (htail ▸ next) (by omega) (by rw [htail, htable]; exact stored)

/-- An access that changes neither the queue nor memory. -/
theorem Right.quiet (h : Right m tr s) (hp : published1 ev = none) (ht : taken1 ev = none)
    (hf : RightlyReturns m tr ev) : Right m (tr ++ [ev]) s :=
  ⟨order_quiet h.order hp ht, (queue_quiet hp ht).symm ▸ h.holds, h.returns.snoc hf⟩

/-! ## What the accesses do to the queue -/

theorem toNat_increment {idx : UInt32} (hmax : max.toNat = m + 1) (h : idx.toNat < m + 1) :
    (increment idx max).toNat = (idx.toNat + 1) % (m + 1) := by
  rw [← hmax]
  have hlt := max.toNat_lt
  exact increment_toNat (by omega)

/-- The slot at `tail` is outside the queue. -/
theorem Holds.store (h : Holds m q s) (v : Option E) :
    Holds m q { s with table := Function.update s.table s.tail.toNat v } := by
  refine ⟨h.size, h.allocated, h.head, h.tail, fun i e hi => ?_, h.length⟩
  have hlt : i < q.length := (List.getElem?_eq_some_iff.1 hi).1
  have hlen := h.length
  have hne : (s.head.toNat + i) % (m + 1) ≠ s.tail.toNat := by
    rw [h.tail]
    intro heq
    have hil : i = q.length := ring_inj (by omega) (by omega) heq
    omega
  refine Eq.trans ?_ (h.slots i e hi)
  exact Function.update_of_ne hne ..

theorem Holds.put {n : UInt32} (h : Holds m q s) (hmax : max.toNat = m + 1)
    (hn : n = increment s.tail max) (room : q.length + 1 < max.toNat)
    (stored : s.table s.tail.toNat = some e) : Holds m (q ++ [e]) { s with tail := n } := by
  refine ⟨h.size, h.allocated, h.head, ?_, fun i e' hi => ?_, ?_⟩
  · have htail : n.toNat = (s.head.toNat + (q.length + 1)) % (m + 1) := by
      rw [hn, toNat_increment hmax h.tail_lt, h.tail, Nat.mod_add_mod, Nat.add_assoc]
    simpa using htail
  · by_cases hlt : i < q.length
    · rw [List.getElem?_append_left hlt] at hi
      exact h.slots i e' hi
    · have hle : i < q.length + 1 := by simpa using (List.getElem?_eq_some_iff.1 hi).1
      obtain rfl : i = q.length := by omega
      have hee : e = e' := by simpa using hi
      rw [← hee, ← stored, h.tail]
  · rw [List.length_append, List.length_singleton]
    omega

theorem Holds.get {n : UInt32} (h : Holds m (e :: q) s) (hmax : max.toNat = m + 1)
    (hn : n = increment s.head max) : Holds m q { s with head := n } := by
  have hhead : n.toNat = (s.head.toNat + 1) % (m + 1) := by
    rw [hn, toNat_increment hmax h.head]
  have hstep : ∀ i, (n.toNat + i) % (m + 1) = (s.head.toNat + (i + 1)) % (m + 1) := by
    intro i
    rw [hhead, Nat.mod_add_mod, Nat.add_assoc, Nat.add_comm 1 i]
  refine ⟨h.size, h.allocated, ?_, ?_, fun i e' hi => ?_, ?_⟩
  · have hlt : n.toNat < m + 1 := hhead ▸ Nat.mod_lt _ (Nat.succ_pos m)
    exact hlt
  · refine Eq.trans ?_ (hstep q.length).symm
    exact h.tail
  · refine (congrArg s.table (hstep i)).trans ?_
    exact h.slots (i + 1) e' hi
  · have hlen := h.length
    rw [List.length_cons] at hlen
    omega

theorem Holds.full_iff (h : Holds m q s) (hmax : max.toNat = m + 1) :
    increment s.tail max = s.head ↔ q.length = m := by
  have hlen := h.length
  have hinc : (increment s.tail max).toNat = (s.head.toNat + (q.length + 1)) % (m + 1) := by
    rw [toNat_increment hmax h.tail_lt, h.tail, Nat.mod_add_mod, Nat.add_assoc]
  rw [← UInt32.toNat_inj, hinc]
  constructor
  · intro heq
    by_contra hne
    have hself : s.head.toNat = (s.head.toNat + 0) % (m + 1) := (Nat.mod_eq_of_lt h.head).symm
    have hzero : q.length + 1 = 0 := ring_inj (by omega) (by omega) (heq.trans hself)
    omega
  · intro heq
    rw [heq, Nat.add_mod_right, Nat.mod_eq_of_lt h.head]

theorem Holds.empty_iff (h : Holds m q s) : s.head = s.tail ↔ q = [] := by
  have hlen := h.length
  rw [← UInt32.toNat_inj, h.tail, ← List.length_eq_zero_iff]
  constructor
  · intro heq
    have hself : s.head.toNat = (s.head.toNat + 0) % (m + 1) := (Nat.mod_eq_of_lt h.head).symm
    exact (ring_inj (by omega) (by omega) (hself.symm.trans heq)).symm
  · intro heq
    rw [heq, Nat.add_zero, Nat.mod_eq_of_lt h.head]

theorem Holds.first (h : Holds m q s) (hq : q.head? = some e) :
    s.table s.head.toNat = some e := by
  have hslot := h.slots 0 e (by rw [← List.head?_eq_getElem?, hq])
  rwa [Nat.add_zero, Nat.mod_eq_of_lt h.head] at hslot

/-! ## One access -/

theorem run_readSlot {i : UInt32} (hi : i.toNat < s.slots) :
    (perform (.readSlot i)).run s = .ok (s.table i.toNat, s) :=
  congrFun (if_pos hi : ite _ (return s.table i.toNat) Exec.undef = _) s

theorem run_writeSlot {i : UInt32} {v : Option E} (hi : i.toNat < s.slots) :
    (perform (.writeSlot i v)).run s =
      .ok ((), { s with table := Function.update s.table i.toNat v }) :=
  congrFun (if_pos hi : ite _ (set _) Exec.undef = _) s

/-- What an access keeps that returns `b`, the program going on as `p'`. -/
structure Keeps (max : UInt32) (m : ℕ) (tr : List (Ev E)) (t : Thread) (op : Op E) (x : Acc E)
    (b : Res E x) (s' : FifoMem E) (p' : Prog (Res E) (Result E)) : Prop where
  right : Right m (tr ++ [⟨t, op, x, b, p'.value⟩]) s'
  put : ∀ e, op = .put e → p'.value = none →
    PutAt max e (queue (tr ++ [⟨t, op, x, b, p'.value⟩])) s' p'
  get : op = .get → p'.value = none →
    GetAt max (queue (tr ++ [⟨t, op, x, b, p'.value⟩])) s' p'

theorem queue_goes_on {t : Thread} {op : Op E} {x : Acc E} {b : Res E x}
    {p' : Prog (Res E) (Result E)} (hv : p'.value = none) (hx : ∀ v, x ≠ .writeTail v) :
    queue (tr ++ [⟨t, op, x, b, p'.value⟩]) = queue tr := by
  refine queue_quiet ?_ ?_
  · unfold published1
    split
    · exact absurd ‹_› (hx _)
    · rfl
  · simp [taken1, hv]

/-- An access after which the call goes on, and which changes neither the queue nor memory. -/
theorem Right.goes_on {t : Thread} {op : Op E} {x : Acc E} {b : Res E x}
    {p' : Prog (Res E) (Result E)} (h : Right m tr s) (hv : p'.value = none)
    (hx : ∀ v, x ≠ .writeTail v) (hput : ∀ e, op = .put e → PutAt max e (queue tr) s p')
    (hget : op = .get → GetAt max (queue tr) s p') : Keeps max m tr t op x b s p' := by
  have hp : published1 (⟨t, op, x, b, p'.value⟩ : Ev E) = none := by
    unfold published1
    split
    · exact absurd ‹_› (hx _)
    · rfl
  have ht : taken1 (⟨t, op, x, b, p'.value⟩ : Ev E) = none := by
    simp [taken1, hv]
  refine ⟨h.quiet hp ht ?_, ?_, ?_⟩
  · exact ⟨by rw [hp]; simp [hv], by simp [hv], by simp [hv]⟩
  · rw [queue_quiet hp ht]
    exact fun e he _ => hput e he
  · rw [queue_quiet hp ht]
    exact fun he _ => hget he

/-- An access of the producer. -/
theorem put_step {x : Acc E} {next : Res E x → Prog (Res E) (Result E)} (hmax : max.toNat = m + 1)
    (h : Right m tr s) (hat : PutAt max entry (queue tr) s (.access x next)) :
    ∃ b s' p', (perform x).run s = .ok (b, s') ∧ next b = p' ∧
      Keeps max m tr .producer (.put entry) x b s' p' ∧ s'.head = s.head ∧
      ∃ q', queue (tr ++ [⟨.producer, .put entry, x, b, p'.value⟩]) = queue tr ++ q' := by
  have hcall : ∀ {p : Prog (Res E) (Result E)} {q : List E} {s' : FifoMem E},
      PutAt max entry q s' p → ∀ e, Op.put entry = .put e → PutAt max e q s' p := by
    rintro p q s' hp e ⟨⟩
    exact hp
  have hsame : ∀ {x : Acc E} {b : Res E x} {p' : Prog (Res E) (Result E)}, p'.value = none →
      (∀ v, x ≠ .writeTail v) →
      ∃ q', queue (tr ++ [⟨.producer, .put entry, x, b, p'.value⟩]) = queue tr ++ q' :=
    fun hv hx => ⟨[], by rw [queue_goes_on hv hx, List.append_nil]⟩
  cases hat with
  | start =>
      refine ⟨s.tail, s, _, rfl, rfl,
        h.goes_on rfl (by simp) (hcall (.check ?_)) (by simp), rfl, hsame rfl (by simp)⟩
      simp
  | @check n next =>
      by_cases hfull : n.toUInt32 = s.head
      · have hlen : (queue tr).length = m := (h.holds.full_iff hmax).1 (next ▸ hfull)
        refine ⟨s.head, s, .ret (.put false), rfl,
          congrArg (Prog.bind · _) (if_neg (not_not.2 hfull)), ⟨?_, ?_, ?_⟩, rfl, [], ?_⟩
        · refine h.quiet rfl rfl ⟨?_, fun _ => ⟨rfl, hlen⟩, ?_⟩
          · simp [Prog.value, published1]
          · simp [Prog.value]
        · simp [Prog.value]
        · simp
        · rw [queue_quiet rfl rfl, List.append_nil]
      · have hne : (queue tr).length ≠ m := fun hlen =>
          hfull (next.trans ((h.holds.full_iff hmax).2 hlen))
        have hroom : (queue tr).length + 1 < max.toNat := by
          have hle := h.holds.length
          omega
        exact ⟨s.head, s, putStore n entry, rfl, congrArg (Prog.bind · _) (if_pos hfull),
          h.goes_on rfl (by simp) (hcall (.store next hroom)) (by simp), rfl, hsame rfl (by simp)⟩
  | @store n next room =>
      exact ⟨s.tail, s, putSlot n s.tail entry, rfl, rfl,
        h.goes_on rfl (by simp) (hcall (.slot next room)) (by simp), rfl, hsame rfl (by simp)⟩
  | @slot n next room =>
      have hbound : s.tail.toNat < s.slots := h.holds.tail_lt.trans_le h.holds.allocated
      have hstored := h.holds.store (some entry)
      have hright : Right m tr _ := ⟨h.order, hstored, h.returns⟩
      refine ⟨(), _, putPublish n, run_writeSlot hbound, rfl,
        hright.goes_on rfl (by simp) (hcall ?_) (by simp), rfl, hsame rfl (by simp)⟩
      exact .publish next room (Function.update_self ..)
  | @publish n next room stored =>
      have hput := h.holds.put hmax next room stored
      refine ⟨(), { s with tail := n.toUInt32 }, .ret (.put true), rfl, rfl, ⟨⟨?_, ?_, ?_⟩, ?_, ?_⟩,
        rfl, [entry], ?_⟩
      · exact order_put h.order rfl rfl
      · rw [queue_put h.order rfl rfl]
        exact hput
      · refine h.returns.snoc ⟨?_, ?_, ?_⟩
        · simp [Prog.value, published1]
        · simp [Prog.value]
        · simp [Prog.value]
      · simp [Prog.value]
      · simp
      · rw [queue_put h.order rfl rfl]

/-- An access of the consumer. -/
theorem get_step {x : Acc E} {next : Res E x → Prog (Res E) (Result E)} (hmax : max.toNat = m + 1)
    (h : Right m tr s) (hat : GetAt max (queue tr) s (.access x next)) :
    ∃ b s' p', (perform x).run s = .ok (b, s') ∧ next b = p' ∧
      Keeps max m tr .consumer .get x b s' p' ∧ s'.tail = s.tail ∧ s'.table = s.table ∧
      (queue (tr ++ [⟨.consumer, .get, x, b, p'.value⟩])).length ≤ (queue tr).length := by
  have hsame : ∀ {x : Acc E} {b : Res E x} {p' : Prog (Res E) (Result E)}, p'.value = none →
      (∀ v, x ≠ .writeTail v) →
      (queue (tr ++ [⟨.consumer, .get, x, b, p'.value⟩])).length ≤ (queue tr).length :=
    fun hv hx => by rw [queue_goes_on hv hx]
  cases hat with
  | start =>
      exact ⟨s.head, s, _, rfl, rfl, h.goes_on rfl (by simp) (by simp)
        fun _ => .check, rfl, rfl, hsame rfl (by simp)⟩
  | check =>
      by_cases hempty : s.head = s.tail
      · have hnil := h.holds.empty_iff.1 hempty
        refine ⟨s.tail, s, .ret (.got none), rfl, congrArg (Prog.bind · _) (if_pos hempty),
          ⟨?_, ?_, ?_⟩, rfl, rfl, ?_⟩
        · refine h.quiet rfl rfl ⟨?_, ?_, fun _ => ⟨rfl, hnil⟩⟩
          · simp [Prog.value, published1]
          · simp [Prog.value]
        · simp
        · simp [Prog.value]
        · rw [queue_quiet rfl rfl]
      · obtain ⟨e, hfirst⟩ : ∃ e, (queue tr).head? = some e := by
          cases hq : queue tr with
          | nil => exact absurd (h.holds.empty_iff.2 hq) hempty
          | cons e q => exact ⟨e, rfl⟩
        exact ⟨s.tail, s, getLoad max, rfl, congrArg (Prog.bind · _) (if_neg hempty),
          h.goes_on rfl (by simp) (by simp) fun _ => .load hfirst, rfl, rfl, hsame rfl (by simp)⟩
  | load first =>
      exact ⟨s.head, s, getSlot max s.head, rfl, rfl,
        h.goes_on rfl (by simp) (by simp) fun _ => .slot first, rfl, rfl, hsame rfl (by simp)⟩
  | @slot e first =>
      have hbound : s.head.toNat < s.slots := h.holds.head.trans_le h.holds.allocated
      have hread := run_readSlot hbound
      rw [h.holds.first first] at hread
      exact ⟨some e, s, getAdvance max (some e), hread, rfl,
        h.goes_on rfl (by simp) (by simp) fun _ => .advance first, rfl, rfl, hsame rfl (by simp)⟩
  | @advance e first =>
      exact ⟨s.head, s, getFinish (increment s.head max) (some e), rfl, rfl,
        h.goes_on rfl (by simp) (by simp) fun _ => .finish first, rfl, rfl, hsame rfl (by simp)⟩
  | @finish e first =>
      obtain ⟨q, hq⟩ : ∃ q, queue tr = e :: q := List.head?_eq_some_iff.1 first
      have hget := (hq ▸ h.holds).get hmax rfl
      refine ⟨(), { s with head := increment s.head max }, .ret (.got (some e)), rfl, rfl,
        ⟨⟨?_, ?_, ?_⟩, ?_, ?_⟩, rfl, rfl, ?_⟩
      · exact order_get h.order hq rfl rfl
      · rw [queue_get hq rfl rfl]
        exact hget
      · refine h.returns.snoc ⟨?_, ?_, ?_⟩
        · simp [Prog.value, published1]
        · simp [Prog.value]
        · simp [Prog.value]
      · simp
      · simp [Prog.value]
      · rw [queue_get hq rfl rfl, hq, List.length_cons]
        omega

/-! ## All interleavings -/

/-- What a thread knows at a point of its call. -/
def At (max : UInt32) (t : Thread) (op : Op E) (p : Prog (Res E) (Result E)) (tr : List (Ev E))
    (s : FifoMem E) : Prop :=
  match t, op with
  | .producer, .put entry => PutAt max entry (queue tr) s p
  | .consumer, .get => GetAt max (queue tr) s p
  | _, _ => False

/-- An access keeps what holds of the queue, and what both threads know. -/
theorem access_step {t : Thread} {op : Op E} {x : Acc E}
    {next : Res E x → Prog (Res E) (Result E)} (hmax : max.toNat = m + 1) (h : Right m tr s)
    (hat : At max t op (.access x next) tr s) :
    ∃ b s', (perform x).run s = .ok (b, s') ∧
      Right m (tr ++ [⟨t, op, x, b, (next b).value⟩]) s' ∧
      ((next b).value = none →
        At max t op (next b) (tr ++ [⟨t, op, x, b, (next b).value⟩]) s') ∧
      ∀ t' op' p', t' ≠ t → At max t' op' p' tr s →
        At max t' op' p' (tr ++ [⟨t, op, x, b, (next b).value⟩]) s' := by
  cases t with
  | producer =>
      cases op with
      | get => exact hat.elim
      | put entry =>
          obtain ⟨b, s', p', hrun, rfl, hkeeps, hhead, q', hq'⟩ := put_step hmax h hat
          refine ⟨b, s', hrun, hkeeps.right, hkeeps.put entry rfl, fun t' op' p' ht' hat' => ?_⟩
          cases t' with
          | producer => exact absurd rfl ht'
          | consumer =>
              cases op' with
              | put entry' => exact hat'.elim
              | get =>
                  have hget : GetAt max (queue tr ++ q') s' p' := GetAt.put hat' hhead
                  rwa [← hq'] at hget
  | consumer =>
      cases op with
      | put entry => exact hat.elim
      | get =>
          obtain ⟨b, s', p', hrun, rfl, hkeeps, htail, htable, hle⟩ := get_step hmax h hat
          refine ⟨b, s', hrun, hkeeps.right, hkeeps.get rfl, fun t' op' p' ht' hat' => ?_⟩
          cases t' with
          | consumer => exact absurd rfl ht'
          | producer =>
              cases op' with
              | get => exact hat'.elim
              | put entry' => exact PutAt.get hat' htail htable hle

theorem right_init (hm : s.max.toNat = m + 1) (hslots : m + 1 ≤ s.slots) (hhead : s.head = 0)
    (htail : s.tail = 0) : Right m [] s := by
  refine ⟨rfl, ⟨hm, hslots, ?_, ?_, ?_, ?_⟩, eachEvent_nil⟩
  · simp [hhead]
  · simp [hhead, htail, queue, published]
  · simp [queue, published]
  · simp [queue, published]

theorem value_code (max : UInt32) (op : Op E) : (op.code max).value = none := by
  cases op with
  | put entry => rfl
  | get => rfl

theorem At.ne_outOfFuel {t : Thread} {op : Op E} (h : At max t op p tr s) : p ≠ .outOfFuel := by
  rintro rfl
  cases t with
  | producer =>
      cases op with
      | put entry => cases (show PutAt max entry (queue tr) s .outOfFuel from h)
      | get => exact h
  | consumer =>
      cases op with
      | put entry => exact h
      | get => cases (show GetAt max (queue tr) s .outOfFuel from h)

/-- What holds of both threads, in every state of every interleaving. -/
theorem run_outlined (hm : s.max.toNat = m + 1) (hslots : m + 1 ≤ s.slots) (hhead : s.head = 0)
    (htail : s.tail = 0) {c : Config (FifoMem E) (Res E) Thread (Op E) (Result E)}
    (h : (fifoSystem s.max).Run s tr c) :
    Outlined (Right m) (At s.max) (fun _ _ _ _ => True) tr c ∧ (fifoSystem s.max).NoFault c := by
  refine System.Run.outline (by simp) (right_init hm hslots hhead htail)
    (fun tr c t op fuel _ en => ⟨?_, fun _ _ _ _ _ => trivial⟩)
    (fun tr s' t op x next hG hat => ?_) h
  · cases t with
    | producer =>
        cases op with
        | put entry => exact .start
        | get => exact en.elim
    | consumer =>
        cases op with
        | put entry => exact en.elim
        | get => exact .start
  · obtain ⟨b, s'', hrun, hright, hown, hother⟩ := access_step hm hG hat
    exact ⟨b, s'', hrun, hright, hown, fun t' op' p' ht' _ => hother t' op' p' ht'⟩

/-- Left to itself, a thread brings its call to the end. -/
theorem run_finishes (hm : s.max.toNat = m + 1) (hslots : m + 1 ≤ s.slots) (hhead : s.head = 0)
    (htail : s.tail = 0) {c : Config (FifoMem E) (Res E) Thread (Op E) (Result E)}
    (h : (fifoSystem s.max).Run s tr c) {t : Thread} {op : Op E}
    (hat : c.running t = some (op, p)) : (fifoSystem s.max).Finishes s tr c t op := by
  refine System.Run.finishes (fun tr c h => ?_) h hat
  obtain ⟨houtlined, hnoFault⟩ := run_outlined hm hslots hhead htail h
  exact ⟨hnoFault, fun t op hat => (houtlined.point t op _ hat).ne_outOfFuel rfl⟩

end Points

/-- `fifo_init` with an `int` that has a successor. -/
theorem fifoInit_max {max : Int32} (w : ℕ) (tableMem : Bool) (memory : ℕ → Option E)
    (h₀ : 0 ≤ max.toInt) (h₁ : max.toInt < 2 ^ 31 - 1) :
    (fifoInit w tableMem max memory).max.toNat = max.toInt.toNat + 1 := by
  have hsum : (max + 1).toInt = max.toInt + 1 := by
    rw [Int32.toInt_add, Int32.toInt_one]
    exact Int.bmod_eq_of_le (by omega) (by omega)
  have hle : 0 ≤ max + 1 := by
    rw [Int32.le_iff_toInt_le, hsum, Int32.toInt_zero]
    omega
  have hmax : (max + 1).toUInt32.toNat = (max + 1).toInt.toNat := Int32.toNat_toUInt32_of_le hle
  rw [hsum] at hmax
  refine hmax.trans ?_
  omega

/-- Where `malloc` has memory and the size of the table does not wrap, as it never does with a
    `size_t` of 64 bits, all slots are there. -/
theorem fifoInit_slots {w : ℕ} {max : Int32} (memory : ℕ → Option E) (h₀ : 0 ≤ max.toInt)
    (h₁ : max.toInt < 2 ^ 31 - 1) (hw : 0 < w / 8)
    (hfits : w = 64 ∨ (max.toInt.toNat + 1) * (w / 8) < 2 ^ w) :
    (fifoInit w true max memory).slots = max.toInt.toNat + 1 := by
  have hmax : (max + 1).toUInt32.toNat = max.toInt.toNat + 1 := fifoInit_max w true memory h₀ h₁
  have hlt : (max.toInt.toNat + 1) * (w / 8) < 2 ^ w := by
    rcases hfits with rfl | hfits
    · omega
    · exact hfits
  have hslots : (fifoInit w true max memory).slots =
      (max + 1).toUInt32.toNat * (w / 8) % 2 ^ w / (w / 8) := rfl
  rw [hslots, hmax, Nat.mod_eq_of_lt hlt, Nat.mul_div_cancel _ hw]

/-- **One producer and one consumer share a queue.** In every state of every interleaving the
    indexes are in range, what has been taken is what has been published, up to some entries at the
    end, and these, at most `max`, are in the table; calls return what they should, and none does
    anything undefined. No call ends without a record of its result, and each ends when the other
    thread does not get in its way. The table has been allocated in full, which is so where `malloc`
    has memory and `size_t` has 64 bits (`fifoInit_slots`). -/
theorem fifo_is_queue (w : ℕ) (tableMem : Bool) (max : Int32) (memory : ℕ → Option E)
    (h₀ : 0 ≤ max.toInt) (h₁ : max.toInt < 2 ^ 31 - 1)
    (htable : (fifoInit w tableMem max memory).slots = max.toInt.toNat + 1) (tr : List (Ev E))
    (c : Config (FifoMem E) (Res E) Thread (Op E) (Result E))
    (h : (fifoSystem (fifoInit w tableMem max memory).max).Run (fifoInit w tableMem max memory) tr
      c) :
    (c.mem.head.toNat < max.toInt.toNat + 1 ∧ c.mem.tail.toNat < max.toInt.toNat + 1) ∧
      published tr = taken tr ++ queue tr ∧
      Holds max.toInt.toNat (queue tr) c.mem ∧
      EachEvent (RightlyReturns max.toInt.toNat) tr ∧
      (fifoSystem (fifoInit w tableMem max memory).max).NoFault c ∧
      (fifoSystem (E := E) (fifoInit w tableMem max memory).max).Recorded ∧
      ∀ t op p, c.running t = some (op, p) →
        (fifoSystem (fifoInit w tableMem max memory).max).Finishes (fifoInit w tableMem max memory)
          tr c t op := by
  have hm := fifoInit_max w tableMem memory h₀ h₁
  obtain ⟨houtlined, hfault⟩ := run_outlined hm htable.ge rfl rfl h
  have hright : Right max.toInt.toNat tr c.mem := houtlined.mem
  exact ⟨⟨hright.holds.head, hright.holds.tail_lt⟩, hright.order, hright.holds, hright.returns,
    hfault, fun op _ => value_code _ op, fun t op p hat => run_finishes hm htable.ge rfl rfl h hat⟩

def promised (_ : List (Ev ℕ)) (_ : Config (FifoMem ℕ) (Res ℕ) Thread (Op ℕ) (Result ℕ))
    (t : Thread) (op : Op ℕ) : Bool :=
  match t, op with
  | .producer, .put _ => true
  | .consumer, .get => true
  | _, _ => false

theorem enabled_of_promised {max : UInt32} (tr : List (Ev ℕ)) (c) (t : Thread) (op : Op ℕ)
    (h : promised tr c t op = true) : (fifoSystem max).enabled tr c t op := by
  cases t with
  | producer =>
      cases op with
      | put entry => exact trivial
      | get => cases h
  | consumer =>
      cases op with
      | put entry => cases h
      | get => exact trivial

/-- A queue for one entry. The entry 7 is put, and 8 finds no room; when 7 has been taken, 8 is put
    behind it, around the table, and taken, and the queue is empty again. -/
def around : List (Move Thread (Op ℕ)) :=
  Move.alone .producer (.put 7) 0 5 ++ Move.alone .producer (.put 8) 0 5 ++
    .call .consumer .get 0 :: List.replicate 5 (.access .consumer) ++
    -- `fifo_put` has read `tail` when `fifo_get` writes `head`
    .call .producer (.put 8) 0 :: .access .producer :: .access .consumer ::
    List.replicate 4 (.access .producer) ++ Move.alone .consumer .get 0 6 ++
    Move.alone .consumer .get 0 6

theorem fifo_is_queue_around : ∃ tr c,
    (fifoSystem (fifoInit 64 true 1 fun _ => (none : Option ℕ)).max).Run
      (fifoInit 64 true 1 fun _ => none) tr c ∧
      (results tr, published tr, taken tr) =
        ([.put true, .put false, .got (some 7), .put true, .got (some 8), .got none], [7, 8],
          [7, 8]) ∧
      Holds 1 (queue tr) c.mem :=
  System.exists_run_of_play enabled_of_promised around (by decide +kernel) fun tr c hrun =>
    (fifo_is_queue 64 true 1 (fun _ => none) (by decide) (by decide) (by decide +kernel) tr c
      hrun).2.2.1

end StructLib.Fifo
