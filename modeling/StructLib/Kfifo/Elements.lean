import StructLib.Kfifo.Copy
import StructLib.Kfifo.Create
import Mathlib.Data.List.Infix
import Mathlib.Algebra.Order.Ring.Nat

set_option autoImplicit false

/-! # FIFOs of elements

A FIFO whose entries all have `esize` bytes, shared by one writer and one reader. Every call moves and
returns what it would for the queue at some moment in the call. -/

namespace StructLib.Kfifo

/-! ## Calls -/

/-- Elements that a caller has in memory are given as the list of them, those in a user's memory with
    the bytes of an incomplete one at the end. -/
inductive ElemCall where
  | put (val : List UInt8)
  | in_ (elems : List (List UInt8))
  | fromUser (elems : List (List UInt8)) (rest : List UInt8) (faults : ℕ × ℕ)
  | get
  | peek
  | out (len : UInt32)
  | outPeek (len : UInt32)
  | toUser (faults : ℕ × ℕ) (len : UInt64)
  | skip
  | len
  | isEmpty
  | isFull
  | avail

inductive Returned where
  | count (n : UInt32)
  | data (n : UInt32) (buf : List UInt8)
  | fromUser (err : ℤ) (copied : UInt32)
  | toUser (to_ : List UInt8) (err : ℤ) (copied : UInt32)
  | flag (b : Bool)
  | nothing
  deriving DecidableEq

def ElemCall.code (mask esize : UInt32) : ElemCall → Prog Res Returned
  | .put val => do return .count (← kfifoPut mask esize val)
  | .in_ elems => do return .count (← kfifoIn mask esize elems.flatten (.ofNat elems.length))
  | .fromUser elems rest faults => do
      let (err, copied) ← kfifoFromUser mask esize (elems.flatten ++ rest) faults
        (.ofNat (elems.flatten ++ rest).length)
      return .fromUser err copied
  | .get => do
      let (n, val) ← kfifoGet mask esize
      return .data n val
  | .peek => do
      let (n, val) ← kfifoPeek mask esize
      return .data n val
  | .out l => do
      let (n, buf) ← kfifoOut mask esize l
      return .data n buf
  | .outPeek l => do
      let (n, buf) ← kfifoOutPeek mask esize l
      return .data n buf
  | .toUser faults l => do
      let (to_, err, copied) ← kfifoToUser mask esize faults l
      return .toUser to_ err copied
  | .skip => do
      kfifoSkip
      return .nothing
  | .len => do return .count (← kfifoLen)
  | .isEmpty => do return .flag (← kfifoIsEmpty)
  | .isFull => do return .flag (← kfifoIsFull mask)
  | .avail => do return .count (← kfifoAvail mask)

/-- What the writer may call. -/
def ElemCall.mayWrite (esize : UInt32) : ElemCall → Prop
  | .put val => val.length = esize.toNat
  | .in_ elems => elems.length < 2 ^ 32 ∧ ∀ x ∈ elems, x.length = esize.toNat
  | .fromUser elems rest _ => (elems.flatten ++ rest).length < 2 ^ 64 ∧
      rest.length < esize.toNat ∧ ∀ x ∈ elems, x.length = esize.toNat
  | .get | .peek | .out _ | .outPeek _ | .toUser _ _ | .skip => False
  | .len | .isEmpty | .isFull | .avail => True

/-- What the reader may call. `kfifo_skip` does not look whether there is an element. -/
def ElemCall.mayRead (q : List (List UInt8)) : ElemCall → Prop
  | .put _ | .in_ _ | .fromUser _ _ _ => False
  | .skip => q ≠ []
  | .get | .peek | .out _ | .outPeek _ | .toUser _ _ => True
  | .len | .isEmpty | .isFull | .avail => True

def ElemCall.allowed (esize : UInt32) : Thread → ElemCall → List (List UInt8) → Prop
  | .writer, op, _ => op.mayWrite esize
  | .reader, op, q => op.mayRead q

instance (esize : UInt32) : DecidablePred (ElemCall.mayWrite esize)
  | .put val => inferInstanceAs (Decidable (val.length = esize.toNat))
  | .in_ elems =>
      inferInstanceAs (Decidable (elems.length < 2 ^ 32 ∧ ∀ x ∈ elems, x.length = esize.toNat))
  | .fromUser elems rest _ =>
      inferInstanceAs (Decidable ((elems.flatten ++ rest).length < 2 ^ 64 ∧
        rest.length < esize.toNat ∧ ∀ x ∈ elems, x.length = esize.toNat))
  | .get | .peek | .out _ | .outPeek _ | .toUser _ _ | .skip => .isFalse id
  | .len | .isEmpty | .isFull | .avail => .isTrue trivial

instance (q : List (List UInt8)) : DecidablePred (ElemCall.mayRead q)
  | .put _ | .in_ _ | .fromUser _ _ _ => .isFalse id
  | .skip => inferInstanceAs (Decidable (q ≠ []))
  | .get | .peek | .out _ | .outPeek _ | .toUser _ _ => .isTrue trivial
  | .len | .isEmpty | .isFull | .avail => .isTrue trivial

instance (esize : UInt32) : ∀ t op q, Decidable (ElemCall.allowed esize t op q)
  | .writer, op, _ => inferInstanceAs (Decidable (op.mayWrite esize))
  | .reader, op, q => inferInstanceAs (Decidable (op.mayRead q))

/-! ## What the calls are for -/

def elemFormat {mask esize : UInt32} (h : Fits mask esize) : Format ElemCall (List UInt8) where
  mask := mask
  esize := esize
  fits := h
  bytes := id
  ok x := x.length = esize.toNat
  whole _ hx := dvd_of_eq hx.symm
  puts
    | .put val, n => [val].take n
    | .in_ elems, n => elems.take n
    | .fromUser elems _ _, n => elems.take n
    | _, _ => []
  takes
    | .get, n | .out _, n | .toUser _ _, n | .skip, n => n
    | _, _ => 0

/-- Of `k` elements `miss` bytes are not copied, and the call moves `n` elements. `*copied` is the
    bytes of the `k` elements less the number of those that are not moved. -/
structure Partly (esize : UInt32) (faults : ℕ × ℕ) (k miss n : ℕ) (err : ℤ) (copied : UInt32) :
    Prop where
  le : miss ≤ k * esize.toNat
  none : faults = (0, 0) → miss = 0
  moved : n = k - divRoundUp miss esize.toNat
  err : err = if miss = 0 then 0 else -EFAULT
  copied : copied = .ofNat (k * esize.toNat - divRoundUp miss esize.toNat)

/-- A call that finds the elements `q` in the FIFO, and that ends when it holds `now`, moves `n`
    elements and returns `r`. -/
def ElemCall.Does (mask esize : UInt32) (q now : List (List UInt8)) :
    ElemCall → ℕ → Returned → Prop
  | .put _, n, r => n = min 1 (mask.toNat + 1 - q.length) ∧ r = .count (.ofNat n)
  | .in_ elems, n, r => n = min elems.length (mask.toNat + 1 - q.length) ∧ r = .count (.ofNat n)
  | .fromUser elems _ faults, n, r => ∃ miss err copied,
      Partly esize faults (min elems.length (mask.toNat + 1 - q.length)) miss n err copied ∧
        r = .fromUser err copied
  | .get, n, r => n = min 1 q.length ∧ r = .data (.ofNat n) (now.take n).flatten
  | .peek, n, r => n = 0 ∧
      r = .data (.ofNat (min 1 q.length)) (now.take (min 1 q.length)).flatten
  | .out l, n, r => n = min l.toNat q.length ∧ r = .data (.ofNat n) (now.take n).flatten
  | .outPeek l, n, r => n = 0 ∧
      r = .data (.ofNat (min l.toNat q.length)) (now.take (min l.toNat q.length)).flatten
  | .toUser faults l, n, r => ∃ miss err copied,
      Partly esize faults (min (l.toNat / esize.toNat) q.length) miss n err copied ∧
        r = .toUser (now.flatten.take
          (min (l.toNat / esize.toNat) q.length * esize.toNat - miss)) err copied
  | .skip, n, r => n = 1 ∧ r = .nothing
  | .len, n, r => n = 0 ∧ r = .count (.ofNat q.length)
  | .isEmpty, n, r => n = 0 ∧ r = .flag (decide (q = []))
  | .isFull, n, r => n = 0 ∧ r = .flag (decide (q.length = mask.toNat + 1))
  | .avail, n, r => n = 0 ∧ r = .count (.ofNat (mask.toNat + 1 - q.length))

/-- `kfifo_skip` does not look at the queue. -/
def ElemCall.answers (mask esize : UInt32) : Answers ElemCall Returned (List UInt8) :=
  fun op seen now n r => ∃ q, (seen = some q ∨ op = .skip) ∧ op.Does mask esize q now n r

section Calls

variable {mask esize own : UInt32} {h : Fits mask esize} {q base : List (List UInt8)} {n : ℕ}

/-! ## Bytes of elements -/

theorem length_flatten_elems (hq : ∀ x ∈ q, x.length = esize.toNat) :
    q.flatten.length = q.length * esize.toNat := by
  induction q with
  | nil => simp
  | cons x q ih =>
      rw [List.flatten_cons, List.length_append, hq x List.mem_cons_self,
        ih fun y hy => hq y (List.mem_cons_of_mem _ hy), List.length_cons, Nat.succ_mul,
        Nat.add_comm]

theorem flatten_take_elems (hq : ∀ x ∈ q, x.length = esize.toNat) :
    (q.take n).flatten = q.flatten.take (n * esize.toNat) := by
  induction q generalizing n with
  | nil => simp
  | cons x q ih =>
      have hx : x.length = esize.toNat := hq x List.mem_cons_self
      cases n with
      | zero => rw [Nat.zero_mul, List.take_zero, List.take_zero, List.flatten_nil]
      | succ n =>
          rw [List.take_succ_cons, List.flatten_cons, List.flatten_cons, Nat.succ_mul, Nat.add_comm,
            ← hx, List.take_length_add_append, hx]
          exact congrArg _ (ih fun y hy => hq y (List.mem_cons_of_mem _ hy))

theorem elem_encode : (elemFormat h).encode q = q.flatten := List.flatMap_id

theorem elem_units (hq : ∀ x ∈ q, x.length = esize.toNat) : (elemFormat h).units q = q.length := by
  unfold Format.units
  rw [elem_encode, length_flatten_elems hq]
  exact Nat.mul_div_cancel _ h.pos

theorem elem_length (hq : (elemFormat h).Room q) :
    ((elemFormat h).encode q).length = q.length * esize.toNat := by
  rw [elem_encode]
  exact length_flatten_elems hq.ok

theorem elem_le (hq : (elemFormat h).Room q) : q.length ≤ mask.toNat + 1 := by
  have hle := hq.units_le
  rwa [elem_units hq.ok] at hle

/-- The place of a byte of the element at the index. -/
theorem elem_place {i : ℕ} (hi : i < esize.toNat) : (own &&& mask).toNat * esize.toNat + i =
    around (elemFormat h).cells ((elemFormat h).start own) i := by
  have hlt : own.toNat % (mask.toNat + 1) < mask.toNat + 1 := Nat.mod_lt _ (Nat.succ_pos _)
  have hcells : (own.toNat % (mask.toNat + 1) + 1) * esize.toNat ≤
      (mask.toNat + 1) * esize.toNat := Nat.mul_le_mul_right _ hlt
  rw [Nat.succ_mul] at hcells
  have hstart : (elemFormat h).start own = own.toNat % (mask.toNat + 1) * esize.toNat := rfl
  have htotal : (elemFormat h).cells = (mask.toNat + 1) * esize.toNat := rfl
  rw [h.toNat_and, around_of_lt (by omega), hstart]

/-- The elements that a call puts are the first bytes that it has staged. -/
theorem elem_published {op : ElemCall} {K : Known (List UInt8)} (xs : List (List UInt8))
    (hputs : (elemFormat h).puts op n = xs) (hxs : ∀ x ∈ xs, x.length = esize.toNat)
    (hn : xs.length = n) (hstaged : xs.flatten <+: K.staged) : Published (elemFormat h) op n K := by
  refine ⟨?_, ?_, ?_⟩
  · rw [hputs]
    exact hxs
  · rw [hputs, elem_encode]
    exact hstaged
  · rw [hputs, elem_units hxs, hn]

/-- The first `n` elements are there to be taken. -/
theorem elem_taken {op : ElemCall} {K : Known (List UInt8)}
    (htakes : (elemFormat h).takes op n = n) (hbase : ∀ x ∈ K.base, x.length = esize.toNat)
    (hn : n ≤ K.base.length) : Taken (elemFormat h) op n K := by
  refine ⟨htakes.trans_le hn, ?_⟩
  rw [htakes, elem_units fun x hx => hbase x (List.mem_of_mem_take hx), List.length_take_of_le hn]

theorem ElemCall.answers_seen {op : ElemCall} {now : List (List UInt8)} {r : Returned}
    (hdoes : op.Does mask esize q now n r) : op.answers mask esize (some q) now n r :=
  ⟨q, .inl rfl, hdoes⟩

/-! ## The writer -/

/-- What a call of the writer shows of itself. -/
def ElemWrites (h : Fits mask esize) (own : UInt32) (base : List (List UInt8)) (op : ElemCall) :
    Prop :=
  Writes (elemFormat h) op True (op.code mask esize)
    (WriterEnds (elemFormat h) (ElemCall.answers mask esize) op) (.first own base)

theorem writes_put {val : List UInt8} (hval : val.length = esize.toNat) :
    ElemWrites h own base (.put val) := by
  unfold ElemWrites ElemCall.code kfifoPut kfifoIsFull
  simp only [Prog.bind_assoc, Prog.pure_bind]
  refine writes_kfifoLen ?_
  intro q n hq _ hn
  rw [elem_units hq.ok] at hn
  have hle := elem_le hq
  have hfull := lt_iff_full hn hle
  by_cases hc : n > mask
  · -- the FIFO was full, and the call gives up
    rw [if_pos (decide_eq_true hc)]
    have hq' := hfull.1 hc
    have hends : WriterEnds (elemFormat h) (ElemCall.answers mask esize) (.put val) (.count 0) 0
        ((Known.first own base).see q) := by
      intro now _ _
      refine ElemCall.answers_seen ⟨?_, rfl⟩
      omega
    exact hends
  · rw [if_neg (by simpa using hc)]
    have hq' : q.length < mask.toNat + 1 := lt_of_le_of_ne hle fun he => hc (hfull.2 he)
    have hroom : (q.length + 1) * esize.toNat ≤ (elemFormat h).cells := Nat.mul_le_mul_right _ hq'
    rw [Nat.succ_mul] at hroom
    simp only [Prog.bind_assoc, Prog.pure_bind]
    refine writes_readIn (writes_memcpyTo ?_ ?_ (writes_readIn (writes_writeIn ?_ ?_)))
    · intro i hi
      show _ = around _ _ (0 + i)
      rw [Nat.zero_add]
      exact elem_place (hval ▸ hi)
    · show ((elemFormat h).encode q).length + 0 + _ ≤ _
      rw [elem_length hq, hval]
      omega
    · refine elem_published [val] rfl ?_ rfl ?_
      · intro x hx
        rw [List.mem_singleton.1 hx]
        exact hval
      · simp [Known.stage, Known.see, Known.first]
    · intro now _ _
      refine ElemCall.answers_seen ⟨?_, rfl⟩
      show 1 = _
      omega

theorem toNat_min (a b : UInt32) : (if a > b then b else a).toNat = min a.toNat b.toNat := by
  by_cases hab : a > b
  · rw [if_pos hab]
    exact (Nat.min_eq_right (UInt32.lt_iff_toNat_lt.1 hab).le).symm
  · rw [if_neg hab]
    exact (Nat.min_eq_left (UInt32.not_lt.1 hab)).symm

/-- Room for the elements that a call puts. -/
theorem elem_room (hq : (elemFormat h).Room q) (hn : n ≤ mask.toNat + 1 - q.length) :
    ((elemFormat h).encode q).length + n * esize.toNat ≤ (elemFormat h).cells := by
  have hle := elem_le hq
  have hsum : q.length + n ≤ mask.toNat + 1 := by omega
  rw [elem_length hq, ← Nat.add_mul]
  exact Nat.mul_le_mul_right _ hsum

theorem add_ofNat_zero (v : UInt32) : v = v + .ofNat 0 := (UInt32.add_zero v).symm

theorem writes_in {elems : List (List UInt8)} (hlt : elems.length < 2 ^ 32)
    (helems : ∀ x ∈ elems, x.length = esize.toNat) : ElemWrites h own base (.in_ elems) := by
  unfold ElemWrites ElemCall.code kfifoIn
  simp only [Prog.bind_assoc, Prog.pure_bind]
  refine writes_kfifoUnused ?_
  intro q l hq _ hl
  rw [elem_units hq.ok] at hl
  have hk := toNat_min (.ofNat elems.length) l
  generalize (if UInt32.ofNat elems.length > l then l else .ofNat elems.length) = k at hk ⊢
  rw [UInt32.toNat_ofNat', Nat.mod_eq_of_lt hlt, hl] at hk
  have hroom := elem_room (n := k.toNat) hq (hk ▸ Nat.min_le_right _ _)
  have hsrc : k.toNat * esize.toNat ≤ elems.flatten.length := by
    rw [length_flatten_elems helems]
    exact Nat.mul_le_mul_right _ (hk ▸ Nat.min_le_left _ _)
  refine writes_readIn (writes_kfifoCopyIn (u := 0) (add_ofNat_zero _) (Nat.zero_mul _).symm hsrc
    hroom (writes_readIn (writes_writeIn ?_ ?_)))
  · refine elem_published (elems.take k.toNat) rfl ?_ ?_ ?_
    · intro x hx
      exact helems x (List.mem_of_mem_take hx)
    · exact List.length_take_of_le (hk ▸ Nat.min_le_left _ _)
    · rw [flatten_take_elems helems]
      exact List.prefix_rfl
  · intro now _ _
    refine ElemCall.answers_seen ⟨hk, ?_⟩
    rw [UInt32.ofNat_toNat]

/-! ## Users' memory -/

theorem toNat_min_wide (a : UInt64) (b : UInt32) :
    (if a > b.toUInt64 then b else a.toUInt32).toNat = min a.toNat b.toNat := by
  by_cases hab : a > b.toUInt64
  · rw [if_pos hab]
    exact (Nat.min_eq_right (UInt64.lt_iff_toNat_lt.1 hab).le).symm
  · rw [if_neg hab]
    have hle : a.toNat ≤ b.toNat := UInt64.not_lt.1 hab
    have hb := b.toNat_lt
    rw [UInt64.toNat_toUInt32, Nat.mod_eq_of_lt (by omega)]
    exact (Nat.min_eq_left hle).symm

theorem toNat_elements (esize : UInt32) (l : UInt64) :
    (elements esize l).toNat = l.toNat / esize.toNat := by
  unfold elements
  by_cases hone : esize ≠ 1
  · rw [if_pos hone, UInt64.toNat_div]
    rfl
  · rw [not_not] at hone
    rw [if_neg (not_not.2 hone), hone]
    exact (Nat.div_one _).symm

theorem le_divRoundUp {d : ℕ} (hd : 0 < d) : n ≤ divRoundUp n d * d := by
  have hmod := Nat.div_add_mod (n + d - 1) d
  have hlt := Nat.mod_lt (n + d - 1) hd
  unfold divRoundUp
  rw [Nat.mul_comm]
  omega

theorem divRoundUp_le {k d : ℕ} (hd : 0 < d) (hn : n ≤ k * d) : divRoundUp n d ≤ k := by
  unfold divRoundUp
  refine Nat.le_of_lt_succ (Nat.div_lt_of_lt_mul ?_)
  rw [Nat.mul_succ, Nat.mul_comm d k]
  omega

/-- How far the index moves after a copy that may fail. -/
theorem exists_moved (h : Fits mask esize) {faults : ℕ × ℕ} {k : UInt32} {miss : ℕ}
    (hmiss : miss ≤ k.toNat * esize.toNat) (hnone : faults = (0, 0) → miss = 0) : ∃ v err,
    (if divRoundUp miss esize.toNat ≠ 0 then (k - .ofNat (divRoundUp miss esize.toNat), -EFAULT)
      else (k, 0)) = (v, err) ∧
    Partly esize faults k.toNat miss v.toNat err
      (.ofNat (k.toNat * esize.toNat - divRoundUp miss esize.toNat)) := by
  have hle := divRoundUp_le h.pos hmiss
  have hround := le_divRoundUp (n := miss) h.pos
  by_cases hzero : miss = 0
  · refine ⟨k, 0, ?_, hmiss, hnone, ?_, ?_, rfl⟩
    · rw [hzero, divRoundUp_zero h.pos, if_neg (not_not.2 rfl)]
    · rw [hzero, divRoundUp_zero h.pos, Nat.sub_zero]
    · rw [if_pos hzero]
  · have hne : divRoundUp miss esize.toNat ≠ 0 := by
      intro he
      rw [he, Nat.zero_mul] at hround
      omega
    refine ⟨k - .ofNat (divRoundUp miss esize.toNat), -EFAULT, if_pos hne, hmiss, hnone, ?_,
      (if_neg hzero).symm, rfl⟩
    have hk := k.toNat_lt
    have hsmall : (UInt32.ofNat (divRoundUp miss esize.toNat)).toNat =
        divRoundUp miss esize.toNat := by
      rw [UInt32.toNat_ofNat']
      exact Nat.mod_eq_of_lt (by omega)
    rw [UInt32.toNat_sub_of_le, hsmall]
    rwa [UInt32.le_iff_toNat_le, hsmall]

theorem Partly.moved_le {faults : ℕ × ℕ} {k miss : ℕ} {err : ℤ} {copied : UInt32}
    (hp : Partly esize faults k miss n err copied) (hpos : 0 < esize.toNat) :
    n ≤ k ∧ n * esize.toNat ≤ k * esize.toNat - miss := by
  have hround := le_divRoundUp (n := miss) hpos
  constructor
  · rw [hp.moved]
    exact Nat.sub_le _ _
  · rw [hp.moved, Nat.sub_mul]
    omega

/-- `*copied` is the number of bytes that have moved only where none are missing or elements are bytes:
    it is the bytes that were to be copied less the elements that were not. -/
theorem Partly.copied_eq_iff {faults : ℕ × ℕ} {k miss : ℕ} {err : ℤ} {copied : UInt32}
    (hp : Partly esize faults k miss n err copied) (hpos : 0 < esize.toNat)
    (hsmall : k * esize.toNat < 2 ^ 32) :
    copied.toNat = n * esize.toNat ↔ err = 0 ∨ esize.toNat = 1 := by
  have hle := divRoundUp_le hpos hp.le
  have hround := le_divRoundUp (n := miss) hpos
  have hcopied : copied.toNat = k * esize.toNat - divRoundUp miss esize.toNat := by
    rw [hp.copied, UInt32.toNat_ofNat']
    exact Nat.mod_eq_of_lt ((Nat.sub_le _ _).trans_lt hsmall)
  have herr : err = 0 ↔ miss = 0 := by
    rw [hp.err]
    by_cases hzero : miss = 0
    · rw [if_pos hzero]
      exact iff_of_true rfl hzero
    · rw [if_neg hzero]
      exact iff_of_false (by decide) hzero
  have hmul : divRoundUp miss esize.toNat * esize.toNat ≤ k * esize.toNat :=
    Nat.mul_le_mul_right _ hle
  have hself : divRoundUp miss esize.toNat ≤ divRoundUp miss esize.toNat * esize.toNat :=
    Nat.le_mul_of_pos_right _ hpos
  rw [hcopied, hp.moved, Nat.sub_mul, herr]
  constructor
  · intro heq
    have hsame : divRoundUp miss esize.toNat * esize.toNat = divRoundUp miss esize.toNat * 1 := by
      omega
    rcases Nat.eq_zero_or_pos (divRoundUp miss esize.toNat) with hzero | hsome
    · rw [hzero, Nat.zero_mul] at hround
      exact .inl (Nat.le_zero.1 hround)
    · exact .inr (Nat.eq_of_mul_eq_mul_left hsome hsame)
  · intro hcase
    rcases hcase with hzero | hone
    · rw [hzero, divRoundUp_zero hpos, Nat.zero_mul]
    · rw [hone, Nat.mul_one, Nat.mul_one]

theorem writes_fromUser {elems : List (List UInt8)} {rest : List UInt8} {faults : ℕ × ℕ}
    (hlt : (elems.flatten ++ rest).length < 2 ^ 64) (hrest : rest.length < esize.toNat)
    (helems : ∀ x ∈ elems, x.length = esize.toNat) :
    ElemWrites h own base (.fromUser elems rest faults) := by
  have hcount : (elements esize (.ofNat (elems.flatten ++ rest).length)).toNat = elems.length := by
    rw [toNat_elements, UInt64.toNat_ofNat', Nat.mod_eq_of_lt hlt, List.length_append,
      length_flatten_elems helems, Nat.add_comm, Nat.add_mul_div_right _ _ h.pos,
      Nat.div_eq_of_lt hrest, Nat.zero_add]
  unfold ElemWrites ElemCall.code kfifoFromUser
  simp only [Prog.bind_assoc, Prog.pure_bind]
  refine writes_kfifoUnused ?_
  intro q l hq _ hl
  rw [elem_units hq.ok] at hl
  have hk := toNat_min_wide (elements esize (.ofNat (elems.flatten ++ rest).length)) l
  generalize (if elements esize (.ofNat (elems.flatten ++ rest).length) > l.toUInt64 then l else
    (elements esize (.ofNat (elems.flatten ++ rest).length)).toUInt32) = k at hk ⊢
  rw [hcount, hl] at hk
  change k.toNat = min elems.length (mask.toNat + 1 - q.length) at hk
  have hkle : k.toNat ≤ elems.length := hk ▸ Nat.min_le_left _ _
  have hroom := elem_room (n := k.toNat) hq (hk ▸ Nat.min_le_right _ _)
  have hsrc : k.toNat * esize.toNat ≤ (elems.flatten ++ rest).length := by
    rw [List.length_append, length_flatten_elems helems]
    exact (Nat.mul_le_mul_right _ hkle).trans (Nat.le_add_right _ _)
  refine writes_readIn (writes_kfifoCopyFromUser (u := 0) (add_ofNat_zero _) rfl
    (Nat.zero_mul _).symm hsrc hroom ?_)
  intro miss bs hmiss hnone hbs _
  -- only `v` of the `k` elements are whole in the buffer
  obtain ⟨v, err, hv, hpartly⟩ := exists_moved (elemFormat h).fits hmiss hnone
  obtain ⟨hvle, hvmiss⟩ := hpartly.moved_le h.pos
  dsimp only
  rw [hv]
  refine writes_readIn (writes_writeIn ?_ ?_)
  · refine elem_published (elems.take v.toNat) rfl ?_ ?_ ?_
    · intro x hx
      exact helems x (List.mem_of_mem_take hx)
    · exact List.length_take_of_le (hvle.trans hkle)
    · rw [flatten_take_elems helems]
      refine List.IsPrefix.trans ?_ hbs
      have hfirst : elems.flatten.take (v.toNat * esize.toNat) =
          (elems.flatten ++ rest).take (v.toNat * esize.toNat) := by
        rw [List.take_append_of_le_length]
        rw [length_flatten_elems helems]
        exact Nat.mul_le_mul_right _ (hvle.trans hkle)
      rw [hfirst]
      exact List.take_prefix_take_left hvmiss
  · intro now _ _
    refine ElemCall.answers_seen ⟨miss, err, _, ?_, rfl⟩
    rw [← hk]
    exact hpartly

/-! ## The reader -/

/-- What a call of the reader shows of itself. -/
def ElemReads (h : Fits mask esize) (own : UInt32) (base : List (List UInt8)) (op : ElemCall) :
    Prop :=
  Reads (elemFormat h) op True (op.code mask esize)
    (ReaderEnds (elemFormat h) (ElemCall.answers mask esize) op) (.first own base)

/-- The bytes that a copy of the first `n` elements reads. -/
theorem elem_front (hq : ∀ x ∈ q, x.length = esize.toNat) :
    (((elemFormat h).encode q).drop (0 * esize.toNat)).take (n * esize.toNat) =
      (q.take n).flatten := by
  rw [elem_encode, Nat.zero_mul, List.drop_zero, flatten_take_elems hq]

/-- The elements that the reader knows stay at the front. -/
theorem take_front {α : Type} {xs ys : List α} (hfront : xs <+: ys) (hn : n ≤ xs.length) :
    ys.take n = xs.take n := by
  obtain ⟨zs, rfl⟩ := hfront
  exact List.take_append_of_le_length hn

theorem elem_front_le (hq : (elemFormat h).Room q) (hn : n ≤ q.length) :
    0 * esize.toNat + n * esize.toNat ≤ ((elemFormat h).encode q).length := by
  rw [Nat.zero_mul, Nat.zero_add, elem_length hq]
  exact Nat.mul_le_mul_right _ hn

theorem reads_outPeek {l : UInt32} : ElemReads h own base (.outPeek l) := by
  unfold ElemReads ElemCall.code kfifoOutPeek
  simp only [Prog.bind_assoc, Prog.pure_bind]
  refine reads_kfifoLen ?_
  intro q n hq _ hn
  have hk := toNat_min l n
  generalize (if l > n then n else l) = k at hk ⊢
  rw [hn, elem_units hq.ok] at hk
  refine reads_readOut (reads_kfifoCopyOut (u := 0) (add_ofNat_zero _)
    (elem_front_le hq (hk ▸ Nat.min_le_right _ _)) hq ?_)
  intro now _ hfront
  refine ElemCall.answers_seen ⟨rfl, ?_⟩
  rw [← hk, UInt32.ofNat_toNat, take_front hfront (hk ▸ Nat.min_le_right _ _)]
  exact congrArg _ (elem_front hq.ok)

theorem reads_out {l : UInt32} : ElemReads h own base (.out l) := by
  unfold ElemReads ElemCall.code kfifoOut kfifoOutPeek
  simp only [Prog.bind_assoc, Prog.pure_bind]
  refine reads_kfifoLen ?_
  intro q n hq _ hn
  have hk := toNat_min l n
  generalize (if l > n then n else l) = k at hk ⊢
  rw [hn, elem_units hq.ok] at hk
  have hkle : k.toNat ≤ q.length := hk ▸ Nat.min_le_right _ _
  refine reads_readOut (reads_kfifoCopyOut (u := 0) (add_ofNat_zero _) (elem_front_le hq hkle) hq
    (reads_readOut (reads_writeOut (elem_taken rfl hq.ok hkle) ?_)))
  intro now _ hfront
  refine ElemCall.answers_seen ⟨hk, ?_⟩
  rw [UInt32.ofNat_toNat, take_front hfront hkle]
  exact congrArg _ (elem_front hq.ok)

theorem reads_toUser {faults : ℕ × ℕ} {l : UInt64} : ElemReads h own base (.toUser faults l) := by
  unfold ElemReads ElemCall.code kfifoToUser
  simp only [Prog.bind_assoc, Prog.pure_bind]
  refine reads_kfifoLen ?_
  intro q n hq _ hn
  have hk := toNat_min_wide (elements esize l) n
  generalize (if elements esize l > n.toUInt64 then n else (elements esize l).toUInt32) = k
    at hk ⊢
  rw [hn, elem_units hq.ok, toNat_elements] at hk
  have hkle : k.toNat ≤ q.length := hk ▸ Nat.min_le_right _ _
  refine reads_readOut (reads_kfifoCopyToUser (u := 0) (add_ofNat_zero _) rfl
    (elem_front_le hq hkle) hq ?_)
  intro miss hmiss hnone
  obtain ⟨v, err, hv, hpartly⟩ := exists_moved (elemFormat h).fits hmiss hnone
  obtain ⟨hvle, -⟩ := hpartly.moved_le h.pos
  dsimp only
  rw [hv]
  refine reads_readOut (reads_writeOut (elem_taken rfl hq.ok (hvle.trans hkle)) ?_)
  intro now _ hfront
  refine ElemCall.answers_seen ⟨miss, err, _, hk ▸ hpartly, ?_⟩
  have hbytes : k.toNat * esize.toNat - miss ≤ q.flatten.length := by
    rw [length_flatten_elems hq.ok]
    exact (Nat.sub_le _ _).trans (Nat.mul_le_mul_right _ hkle)
  rw [← hk, take_front hfront.flatten hbytes, elem_encode, Nat.zero_mul, List.drop_zero]
  rfl

/-- The bytes of the first element. -/
theorem reads_first {op : ElemCall} {K : Known (List UInt8)} {f : List UInt8 → Prog Res Returned}
    {Q : Returned → ℕ → Known (List UInt8) → Prop} (hbase : (elemFormat h).Room K.base)
    (hne : 1 ≤ K.base.length)
    (hf : Reads (elemFormat h) op True (f (K.base.take 1).flatten) Q K) :
    Reads (elemFormat h) op True
      (memcpyFrom ((K.own &&& mask).toNat * esize.toNat) esize.toNat >>= f) Q K := by
  have hle := elem_front_le hbase hne
  have hfirst := elem_front (h := h) (n := 1) hbase.ok
  rw [Nat.one_mul] at hle hfirst
  refine reads_memcpyFrom (j := 0 * esize.toNat) ?_ hle ?_
  · intro i hi
    rw [Nat.zero_mul, Nat.zero_add]
    exact elem_place hi
  · rw [hfirst]
    exact hf

theorem reads_peek : ElemReads h own base .peek := by
  unfold ElemReads ElemCall.code kfifoPeek
  simp only [Prog.bind_assoc]
  refine reads_kfifoIsEmpty ?_
  intro q hq _
  rw [elem_units hq.ok]
  by_cases hempty : q.length = 0
  · rw [if_pos (decide_eq_true hempty)]
    intro now _ _
    refine ElemCall.answers_seen ⟨rfl, ?_⟩
    rw [hempty]
    rfl
  · rw [if_neg (by simpa using hempty)]
    simp only [Prog.bind_assoc]
    have hone : min 1 q.length = 1 := Nat.min_eq_left (Nat.pos_of_ne_zero hempty)
    refine reads_readOut (reads_first hq (Nat.pos_of_ne_zero hempty) ?_)
    intro now _ hfront
    refine ElemCall.answers_seen ⟨rfl, ?_⟩
    rw [hone, take_front hfront (Nat.pos_of_ne_zero hempty)]
    rfl

theorem reads_get : ElemReads h own base .get := by
  unfold ElemReads ElemCall.code kfifoGet
  simp only [Prog.bind_assoc]
  refine reads_kfifoIsEmpty ?_
  intro q hq _
  rw [elem_units hq.ok]
  by_cases hempty : q.length = 0
  · rw [if_pos (decide_eq_true hempty)]
    intro now _ _
    refine ElemCall.answers_seen ⟨?_, rfl⟩
    rw [hempty]
    rfl
  · rw [if_neg (by simpa using hempty)]
    simp only [Prog.bind_assoc]
    have hone : min 1 q.length = 1 := Nat.min_eq_left (Nat.pos_of_ne_zero hempty)
    refine reads_readOut (reads_first hq (Nat.pos_of_ne_zero hempty)
      (reads_readOut (reads_writeOut (elem_taken rfl hq.ok (Nat.pos_of_ne_zero hempty)) ?_)))
    intro now _ hfront
    refine ElemCall.answers_seen ⟨hone.symm, ?_⟩
    show _ = Returned.data 1 (now.take 1).flatten
    rw [take_front hfront (Nat.pos_of_ne_zero hempty)]

theorem reads_skip (hbase : (elemFormat h).Room base) (hne : base ≠ []) :
    ElemReads h own base .skip := by
  unfold ElemReads ElemCall.code kfifoSkip
  simp only [Prog.bind_assoc]
  refine reads_readOut (reads_writeOut (elem_taken rfl hbase.ok ?_) ?_)
  · exact List.length_pos_of_ne_nil hne
  · intro now _ _
    exact ⟨now, .inr rfl, rfl, rfl⟩

/-! ## Either thread -/

theorem asks_len : Asks (elemFormat h) (ElemCall.answers mask esize) .len
    (ElemCall.code mask esize .len) .count := by
  refine ⟨rfl, ?_⟩
  intro q now n hq hn
  rw [elem_units hq.ok] at hn
  refine ElemCall.answers_seen ⟨rfl, ?_⟩
  rw [← hn, UInt32.ofNat_toNat]

theorem asks_isFull : Asks (elemFormat h) (ElemCall.answers mask esize) .isFull
    (ElemCall.code mask esize .isFull) fun n => .flag (n > mask) := by
  constructor
  · unfold ElemCall.code kfifoIsFull
    rw [Prog.bind_assoc]
    rfl
  · intro q now n hq hn
    rw [elem_units hq.ok] at hn
    exact ElemCall.answers_seen ⟨rfl, congrArg _ (decide_eq_decide.2 (lt_iff_full hn (elem_le hq)))⟩

theorem asks_avail : Asks (elemFormat h) (ElemCall.answers mask esize) .avail
    (ElemCall.code mask esize .avail) fun n => .count ((mask + 1) - n) := by
  constructor
  · unfold ElemCall.code kfifoAvail
    rw [Prog.bind_assoc]
    rfl
  · intro q now n hq hn
    rw [elem_units hq.ok] at hn
    refine ElemCall.answers_seen ⟨rfl, ?_⟩
    rw [← h.toNat_avail hn (elem_le hq), UInt32.ofNat_toNat]

theorem asks_isEmpty : AsksEmpty (elemFormat h) (ElemCall.answers mask esize) .isEmpty
    (ElemCall.code mask esize .isEmpty) .flag := by
  refine ⟨rfl, ?_⟩
  intro q now hq
  have hempty : (elemFormat h).units q = 0 ↔ q = [] := by
    rw [elem_units hq.ok, List.length_eq_zero_iff]
  exact ElemCall.answers_seen ⟨rfl, congrArg _ (decide_eq_decide.2 hempty)⟩

/-! ## All calls -/

/-- Every call has an access. -/
theorem value_elemCode (mask esize : UInt32) (op : ElemCall) : (op.code mask esize).value = none := by
  cases op with
  | put val => rfl
  | in_ elems => rfl
  | fromUser elems rest faults => rfl
  | get => rfl
  | peek => rfl
  | out l => rfl
  | outPeek l => rfl
  | toUser faults l => rfl
  | skip => rfl
  | len => rfl
  | isEmpty => rfl
  | isFull => rfl
  | avail => rfl

theorem elem_sound (h : Fits mask esize) : Sound (elemFormat h) (ElemCall.answers mask esize)
    (ElemCall.code mask esize) (ElemCall.allowed esize) := by
  constructor
  · intro op own base hop _
    cases op with
    | put val => exact writes_put hop
    | in_ elems => exact writes_in hop.1 hop.2
    | fromUser elems rest faults => exact writes_fromUser hop.1 hop.2.1 hop.2.2
    | get => exact hop.elim
    | peek => exact hop.elim
    | out l => exact hop.elim
    | outPeek l => exact hop.elim
    | toUser faults l => exact hop.elim
    | skip => exact hop.elim
    | len => exact asks_len.writes
    | isEmpty => exact asks_isEmpty.writes
    | isFull => exact asks_isFull.writes
    | avail => exact asks_avail.writes
  · intro op own base hop hbase
    cases op with
    | put val => exact hop.elim
    | in_ elems => exact hop.elim
    | fromUser elems rest faults => exact hop.elim
    | get => exact reads_get
    | peek => exact reads_peek
    | out l => exact reads_out
    | outPeek l => exact reads_outPeek
    | toUser faults l => exact reads_toUser
    | skip => exact reads_skip hbase hop
    | len => exact asks_len.reads
    | isEmpty => exact asks_isEmpty.reads
    | isFull => exact asks_isFull.reads
    | avail => exact asks_avail.reads

end Calls

/-- FIFOs of elements, shared by one writer and one reader. -/
def elemSystem (s : KfifoMem) (h : Fits s.mask s.esize) :
    System KfifoMem Res Thread ElemCall Returned :=
  kfifoSystem (elemFormat h) (ElemCall.code s.mask s.esize) (ElemCall.allowed s.esize)

/-- Two elements of one byte. -/
def kfifoTwo : KfifoMem := ⟨0, 0, 1, 1, fun _ => 0, 2⟩

theorem created_two : Created 2 1 kfifoTwo :=
  .alloc (fun _ => some fun _ => 0) 2 1 ⟨0, 0, 0, 0, fun _ => 0, 0⟩ (by decide) rfl (by decide)
    (by decide) rfl

theorem fits_two : Fits kfifoTwo.mask kfifoTwo.esize := ⟨⟨1, rfl⟩, by decide, by decide⟩

/-- The FIFO is filled, and an element put while the reader gets the first one finds no room. When it
    is put once more it goes around the buffer, and `__kfifo_out` takes the two that are there. -/
def elemsAround : List (Move Thread ElemCall) :=
  Move.alone .writer (.put [7]) 0 6 ++ Move.alone .writer (.put [8]) 0 6 ++
    .call .reader .get 0 :: .access .reader :: Move.alone .writer (.put [9]) 0 6 ++
    List.replicate 6 (.access .reader) ++ Move.alone .writer (.put [9]) 0 6 ++
    Move.alone .reader (.out 5) 0 8 ++ Move.alone .reader .get 0 6

/-- Two elements of two bytes. -/
def kfifoWords : KfifoMem := ⟨0, 0, 1, 2, fun _ => 0, 4⟩

theorem created_words : Created 2 2 kfifoWords :=
  .alloc (fun _ => some fun _ => 0) 2 2 ⟨0, 0, 0, 0, fun _ => 0, 0⟩ (by decide) rfl (by decide)
    (by decide) rfl

theorem fits_words : Fits kfifoWords.mask kfifoWords.esize := ⟨⟨1, rfl⟩, by decide, by decide⟩

end StructLib.Kfifo
