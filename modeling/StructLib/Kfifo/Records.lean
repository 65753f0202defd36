import StructLib.Kfifo.Elements
import StructLib.Lib.Words

set_option autoImplicit false

/-! # FIFOs of records

A record lies in the buffer as its length, in `recsize` bytes with the lowest one first, and its bytes.
The indexes count bytes. -/

namespace StructLib.Kfifo

/-! ## Calls -/

inductive RecCall where
  | in_ (buf : List UInt8)
  | fromUser (from_ : List UInt8) (faults : ℕ × ℕ)
  | out (l : UInt32)
  | outPeek (l : UInt32)
  | toUser (faults : ℕ × ℕ) (l : UInt64)
  | skip
  | peekLen
  | len
  | isEmpty
  | isFull
  | avail

def RecCall.code (mask : UInt32) (recsize : ℕ) : RecCall → Prog Res Returned
  | .in_ buf => do return .count (← kfifoInR mask 1 buf (.ofNat buf.length) recsize)
  | .fromUser from_ faults => do
      let (err, copied) ← kfifoFromUserR mask 1 from_ faults (.ofNat from_.length) recsize
      return .fromUser err copied
  | .out l => do
      let (n, buf) ← kfifoOutR mask 1 l recsize
      return .data n buf
  | .outPeek l => do
      let (n, buf) ← kfifoOutPeekR mask 1 l recsize
      return .data n buf
  | .toUser faults l => do
      let (to_, err, copied) ← kfifoToUserR mask 1 faults l recsize
      return .toUser to_ err copied
  | .skip => do
      kfifoSkipR mask recsize
      return .nothing
  | .peekLen => do return .count (← kfifoLenR mask recsize)
  | .len => do return .count (← kfifoLen)
  | .isEmpty => do return .flag (← kfifoIsEmpty)
  | .isFull => do return .flag (← kfifoIsFull mask)
  | .avail => do return .count (← kfifoAvailR mask recsize)

/-- `__kfifo_in_r` does not check that the length of a record fits in `recsize` bytes. -/
def RecCall.mayWrite (recsize : ℕ) : RecCall → Prop
  | .in_ buf => buf.length < 256 ^ recsize
  | .fromUser _ _ => True
  | .out _ | .outPeek _ | .toUser _ _ | .skip | .peekLen => False
  | .len | .isEmpty | .isFull | .avail => True

/-- `kfifo_skip` and `kfifo_peek_len` do not look whether there is a record. -/
def RecCall.mayRead (q : List (List UInt8)) : RecCall → Prop
  | .in_ _ | .fromUser _ _ => False
  | .skip | .peekLen => q ≠ []
  | .out _ | .outPeek _ | .toUser _ _ => True
  | .len | .isEmpty | .isFull | .avail => True

def RecCall.allowed (recsize : ℕ) : Thread → RecCall → List (List UInt8) → Prop
  | .writer, op, _ => op.mayWrite recsize
  | .reader, op, q => op.mayRead q

instance (recsize : ℕ) : DecidablePred (RecCall.mayWrite recsize)
  | .in_ buf => inferInstanceAs (Decidable (buf.length < 256 ^ recsize))
  | .fromUser _ _ => .isTrue trivial
  | .out _ | .outPeek _ | .toUser _ _ | .skip | .peekLen => .isFalse id
  | .len | .isEmpty | .isFull | .avail => .isTrue trivial

instance (q : List (List UInt8)) : DecidablePred (RecCall.mayRead q)
  | .in_ _ | .fromUser _ _ => .isFalse id
  | .skip | .peekLen => inferInstanceAs (Decidable (q ≠ []))
  | .out _ | .outPeek _ | .toUser _ _ => .isTrue trivial
  | .len | .isEmpty | .isFull | .avail => .isTrue trivial

instance (recsize : ℕ) : ∀ t op q, Decidable (RecCall.allowed recsize t op q)
  | .writer, op, _ => inferInstanceAs (Decidable (op.mayWrite recsize))
  | .reader, op, q => inferInstanceAs (Decidable (op.mayRead q))

/-! ## What the calls are for -/

/-- The length of the record that `__kfifo_from_user_r` makes of `n` bytes. -/
def recLength (recsize n : ℕ) : ℕ := min (n % 2 ^ 32) (256 ^ recsize - 1)

/-- The bytes that records take. -/
def occupied (recsize : ℕ) (q : List (List UInt8)) : ℕ :=
  (q.map fun x => recsize + x.length).sum

def recFormat {mask : UInt32} (h : Fits mask 1) (recsize : ℕ) : Format RecCall (List UInt8) where
  mask := mask
  esize := 1
  fits := h
  bytes x := leBytes recsize x.length ++ x
  ok x := x.length < 256 ^ recsize
  whole _ _ := one_dvd _
  puts
    | .in_ buf, _ => [buf]
    | .fromUser from_ _, _ => [from_.take (recLength recsize from_.length)]
    | _, _ => []
  takes
    | .out _, n | .toUser _ _, n | .skip, n => min n 1
    | _, _ => 0

/-- A call that finds the records `q` in the FIFO, and that ends when it holds `now`, moves an index by
    `n` and returns `r`. A copy that fails leaves the index alone. -/
def RecCall.Does (mask : UInt32) (recsize : ℕ) (q now : List (List UInt8)) :
    RecCall → ℕ → Returned → Prop
  | .in_ buf, n, r =>
      if recsize + buf.length ≤ mask.toNat + 1 - occupied recsize q then
        n = recsize + buf.length ∧ r = .count (.ofNat buf.length)
      else n = 0 ∧ r = .count 0
  | .fromUser from_ faults, n, r =>
      if recsize + recLength recsize from_.length ≤ mask.toNat + 1 - occupied recsize q then
        ∃ miss, miss ≤ recLength recsize from_.length ∧ (faults = (0, 0) → miss = 0) ∧
          if miss = 0 then n = recsize + recLength recsize from_.length ∧
            r = .fromUser 0 (.ofNat (recLength recsize from_.length))
          else n = 0 ∧ r = .fromUser (-EFAULT) 0
      else n = 0 ∧ r = .fromUser 0 0
  | .out l, n, r =>
      if q = [] then n = 0 ∧ r = .data 0 []
      else ∃ x, now.head? = some x ∧ n = recsize + x.length ∧
        r = .data (.ofNat (min l.toNat x.length)) (x.take l.toNat)
  | .outPeek l, n, r => n = 0 ∧
      if q = [] then r = .data 0 []
      else ∃ x, now.head? = some x ∧ r = .data (.ofNat (min l.toNat x.length)) (x.take l.toNat)
  | .toUser faults l, n, r =>
      if q = [] then n = 0 ∧ r = .toUser [] 0 0
      else ∃ x miss, now.head? = some x ∧ miss ≤ min l.toNat x.length ∧
        (faults = (0, 0) → miss = 0) ∧
          if miss = 0 then n = recsize + x.length ∧
            r = .toUser (x.take l.toNat) 0 (.ofNat (min l.toNat x.length))
          else n = 0 ∧ r = .toUser (x.take (min l.toNat x.length - miss)) (-EFAULT) 0
  | .skip, n, r => ∃ x, now.head? = some x ∧ n = recsize + x.length ∧ r = .nothing
  | .peekLen, n, r => ∃ x, now.head? = some x ∧ n = 0 ∧ r = .count (.ofNat x.length)
  | .len, n, r => n = 0 ∧ r = .count (.ofNat (occupied recsize q))
  | .isEmpty, n, r => n = 0 ∧ r = .flag (decide (q = []))
  | .isFull, n, r => n = 0 ∧ r = .flag (decide (occupied recsize q = mask.toNat + 1))
  | .avail, n, r => n = 0 ∧ r = .count
      (.ofNat (min (mask.toNat + 1 - occupied recsize q - recsize) (256 ^ recsize - 1)))

/-- `kfifo_skip` and `kfifo_peek_len` see no queue. -/
def RecCall.answers (mask : UInt32) (recsize : ℕ) : Answers RecCall Returned (List UInt8) :=
  fun op seen now n r => ∃ q, (seen = some q ∨ op = .skip ∨ op = .peekLen) ∧
    op.Does mask recsize q now n r

section Calls

variable {mask own : UInt32} {h : Fits mask 1} {recsize : ℕ} {q base : List (List UInt8)} {n : ℕ}
  {x : List UInt8} {op : RecCall} {last : Prop} {β : Type} {K : Known (List UInt8)}
  {Q : β → ℕ → Known (List UInt8) → Prop}

/-! ## Bytes of records -/

theorem rec_encode_cons : (recFormat h recsize).encode (x :: q) =
    leBytes recsize x.length ++ (x ++ (recFormat h recsize).encode q) := by
  show (leBytes recsize x.length ++ x) ++ _ = _
  rw [List.append_assoc]
  rfl

theorem rec_length : ((recFormat h recsize).encode q).length = occupied recsize q := by
  induction q with
  | nil => rfl
  | cons x q ih =>
      rw [rec_encode_cons, List.length_append, List.length_append, length_leBytes, ih]
      exact (Nat.add_assoc _ _ _).symm

theorem rec_units : (recFormat h recsize).units q = occupied recsize q := by
  unfold Format.units
  rw [rec_length]
  exact Nat.div_one _

theorem rec_cells : (recFormat h recsize).cells = mask.toNat + 1 := Nat.mul_one _

theorem rec_le (hq : (recFormat h recsize).Room q) : occupied recsize q ≤ mask.toNat + 1 := by
  have hle := hq.le
  rwa [rec_length, rec_cells] at hle

theorem occupied_singleton : occupied recsize [x] = recsize + x.length := Nat.add_zero _

/-- The place of the byte `i` places on from the index. -/
theorem rec_place (i : ℕ) : ((own + .ofNat i) &&& mask).toNat =
    around (recFormat h recsize).cells ((recFormat h recsize).start own) i := by
  have hnext := h.start_add (v := own) i
  have hstart : start mask 1 (own + .ofNat i) = ((own + .ofNat i) &&& mask).toNat := by
    rw [h.toNat_and]
    exact Nat.mul_one _
  have hlt : start mask 1 (own + .ofNat i) < cells mask 1 := h.start_lt
  rw [← hstart, ← Nat.mod_eq_of_lt hlt]
  refine hnext.trans ?_
  show (_ + i * 1) % _ = _
  rw [Nat.mul_one]
  rfl

theorem rec_place_zero : (own &&& mask).toNat =
    around (recFormat h recsize).cells ((recFormat h recsize).start own) 0 := by
  have hplace : ((own + .ofNat 0) &&& mask).toNat =
      around (recFormat h recsize).cells ((recFormat h recsize).start own) 0 := rec_place 0
  rwa [← add_ofNat_zero] at hplace

/-! ## Lengths -/

theorem toNat_kfifoMaxR (hsize : recsize = 1 ∨ recsize = 2) (v : UInt32) :
    (kfifoMaxR v recsize).toNat = min v.toNat (256 ^ recsize - 1) := by
  unfold kfifoMaxR
  rw [toNat_min]
  rcases hsize with rfl | rfl
  · rfl
  · rfl

theorem toUInt8_eq (v : UInt32) : v.toUInt8 = .ofNat v.toNat := rfl

theorem toUInt8_high (v : UInt32) : (v >>> 8).toUInt8 = .ofNat (v.toNat / 256) := by
  rw [toUInt8_eq, UInt32.toNat_shiftRight]
  exact congrArg UInt8.ofNat (Nat.shiftRight_eq_div_pow _ 8)

/-- The length of a record is written in front of it. -/
theorem writes_kfifoPokeN (hsize : recsize = 1 ∨ recsize = 2) {v : UInt32} {f : Unit → Prog Res β}
    (hstaged : K.staged = [])
    (hroom : ((recFormat h recsize).encode K.base).length + recsize ≤ (recFormat h recsize).cells)
    (hf : Writes (recFormat h recsize) op last (f ()) Q (K.stage (leBytes recsize v.toNat))) :
    Writes (recFormat h recsize) op last (kfifoPokeN mask v recsize >>= f) Q K := by
  have hlen : K.staged.length = 0 := by rw [hstaged, List.length_nil]
  unfold kfifoPokeN
  simp only [Prog.bind_assoc]
  rcases hsize with rfl | rfl
  · refine writes_readIn (writes_writeByte ?_ (by omega) ?_)
    · rw [hlen]
      exact rec_place_zero
    · rw [if_neg (by decide), toUInt8_eq]
      exact hf
  · refine writes_readIn (writes_writeByte ?_ (by omega) ?_)
    · rw [hlen]
      exact rec_place_zero
    rw [if_pos (by decide)]
    simp only [Prog.bind_assoc]
    have hone : (K.stage [v.toUInt8]).staged.length = 1 := by
      show (K.staged ++ _).length = 1
      rw [hstaged]
      rfl
    refine writes_readIn (writes_writeByte ?_ ?_ ?_)
    · rw [hone]
      exact rec_place 1
    · rw [hone]
      exact Nat.lt_of_succ_le hroom
    · rw [Known.stage_stage, toUInt8_eq, toUInt8_high]
      exact hf

theorem toNat_join (a b : UInt8) : (a.toUInt32 ||| b.toUInt32 <<< 8).toNat =
    a.toNat + 256 * b.toNat := by
  have ha := a.toNat_lt
  have hb := b.toNat_lt
  have hshift : (b.toUInt32 <<< 8).toNat = 2 ^ 8 * b.toNat := by
    rw [UInt32.toNat_shiftLeft, Nat.shiftLeft_eq, Nat.mul_comm]
    exact Nat.mod_eq_of_lt (by show 2 ^ 8 * b.toNat < 2 ^ 32; omega)
  rw [UInt32.toNat_or, hshift, UInt8.toNat_toUInt32, Nat.or_comm, ← Nat.two_pow_add_eq_or_of_lt ha]
  exact Nat.add_comm _ _

/-- The length of the first record is read. -/
theorem reads_kfifoPeekN (hsize : recsize = 1 ∨ recsize = 2) {f : UInt32 → Prog Res β}
    (hx : x.length < 256 ^ recsize) (hbase : K.base = x :: q)
    (hf : ∀ v, v.toNat = x.length → Reads (recFormat h recsize) op last (f v) Q K) :
    Reads (recFormat h recsize) op last (kfifoPeekN mask recsize >>= f) Q K := by
  unfold kfifoPeekN
  simp only [Prog.bind_assoc]
  rcases hsize with rfl | rfl
  · refine reads_readOut (reads_readByte (j := 0) (b := .ofNat x.length) ?_ rec_place_zero ?_)
    · rw [hbase, rec_encode_cons]
      rfl
    · rw [if_neg (by decide)]
      refine hf _ ?_
      exact Nat.mod_eq_of_lt hx
  · refine reads_readOut (reads_readByte (j := 0) (b := .ofNat x.length) ?_ rec_place_zero ?_)
    · rw [hbase, rec_encode_cons]
      rfl
    rw [if_pos (by decide)]
    simp only [Prog.bind_assoc]
    refine reads_readOut (reads_readByte (j := 1) (b := .ofNat (x.length / 256)) ?_ (rec_place 1) ?_)
    · rw [hbase, rec_encode_cons]
      rfl
    · refine hf _ ?_
      rw [toNat_join]
      show x.length % 256 + 256 * (x.length / 256 % 256) = x.length
      omega

/-! ## The writer -/

theorem RecCall.answers_seen {now : List (List UInt8)} {r : Returned}
    (hdoes : op.Does mask recsize q now n r) : op.answers mask recsize (some q) now n r :=
  ⟨q, .inl rfl, hdoes⟩

/-- What a call of the writer shows of itself. -/
def RecWrites (h : Fits mask 1) (recsize : ℕ) (own : UInt32) (base : List (List UInt8))
    (op : RecCall) : Prop :=
  Writes (recFormat h recsize) op True (op.code mask recsize)
    (WriterEnds (recFormat h recsize) (RecCall.answers mask recsize) op) (.first own base)

theorem rec_published (x : List UInt8) (hputs : (recFormat h recsize).puts op n = [x])
    (hx : x.length < 256 ^ recsize) (hn : n = recsize + x.length)
    (hstaged : leBytes recsize x.length ++ x <+: K.staged) :
    Published (recFormat h recsize) op n K := by
  refine ⟨?_, ?_, ?_⟩
  · rw [hputs]
    intro y hy
    rw [List.mem_singleton.1 hy]
    exact hx
  · rw [hputs, rec_encode_cons, Format.encode_nil, List.append_nil]
    exact hstaged
  · rw [hputs, rec_units, occupied_singleton, hn]

theorem divRoundUp_one (n : ℕ) : divRoundUp n 1 = n := Nat.div_one _

theorem pow_small (hsize : recsize = 1 ∨ recsize = 2) : 256 ^ recsize ≤ 65536 := by
  rcases hsize with rfl | rfl
  · decide
  · decide

/-- How far a record moves an index. -/
theorem toNat_add_recsize (hsize : recsize = 1 ∨ recsize = 2) {v : UInt32}
    (hv : v.toNat < 256 ^ recsize) : (v + .ofNat recsize).toNat = recsize + v.toNat := by
  have hpow := pow_small hsize
  have hsmall : (UInt32.ofNat recsize).toNat = recsize := by
    rw [UInt32.toNat_ofNat']
    exact Nat.mod_eq_of_lt (by omega)
  rw [UInt32.toNat_add, hsmall, Nat.add_comm]
  exact Nat.mod_eq_of_lt (by omega)

theorem writes_inR (hsize : recsize = 1 ∨ recsize = 2) {buf : List UInt8}
    (hbuf : buf.length < 256 ^ recsize) : RecWrites h recsize own base (.in_ buf) := by
  have hpow := pow_small hsize
  have hv : (UInt32.ofNat buf.length).toNat = buf.length := by
    rw [UInt32.toNat_ofNat']
    exact Nat.mod_eq_of_lt (by omega)
  unfold RecWrites RecCall.code kfifoInR
  simp only [Prog.bind_assoc]
  refine writes_kfifoUnused ?_
  intro q l hq _ hl
  have hle := rec_le hq
  change l.toNat = mask.toNat + 1 - _ at hl
  rw [rec_units] at hl
  rw [hv, hl]
  by_cases hfull : buf.length + recsize > mask.toNat + 1 - occupied recsize q
  · -- no room for the record behind its length
    rw [if_pos hfull]
    intro now _ _
    refine RecCall.answers_seen ?_
    dsimp only [RecCall.Does]
    rw [if_neg (by omega)]
    exact ⟨rfl, rfl⟩
  · rw [if_neg hfull]
    simp only [Prog.bind_assoc, Prog.pure_bind]
    have hroom : ((recFormat h recsize).encode q).length + recsize + buf.length ≤
        (recFormat h recsize).cells := by
      rw [rec_length, rec_cells]
      omega
    have hlen : (leBytes recsize (UInt32.ofNat buf.length).toNat).length = recsize :=
      length_leBytes _ _
    refine writes_kfifoPokeN hsize rfl ((Nat.le_add_right _ _).trans hroom) (writes_readIn
      (writes_kfifoCopyIn (u := recsize) rfl ?_ ?_ ?_ (writes_readIn (writes_writeIn ?_ ?_))))
    · exact hlen.trans (Nat.mul_one _).symm
    · rw [hv]
      exact (Nat.mul_one _).le
    · show _ + (leBytes recsize _).length + _ * 1 ≤ _
      rw [hlen, hv, Nat.mul_one]
      exact hroom
    · refine rec_published buf rfl hbuf ?_ ?_
      · rw [toNat_add_recsize hsize (hv.trans_lt hbuf), hv]
      · show _ <+: leBytes recsize (UInt32.ofNat buf.length).toNat ++ buf.take (_ * 1)
        rw [hv, Nat.mul_one, List.take_length]
    · intro now _ _
      refine RecCall.answers_seen ?_
      dsimp only [RecCall.Does]
      rw [if_pos (by omega), toNat_add_recsize hsize (hv.trans_lt hbuf), hv]
      exact ⟨rfl, rfl⟩

theorem writes_fromUserR (hsize : recsize = 1 ∨ recsize = 2) {from_ : List UInt8}
    {faults : ℕ × ℕ} : RecWrites h recsize own base (.fromUser from_ faults) := by
  have hpow := pow_small hsize
  have hpos : 0 < 256 ^ recsize := Nat.pow_pos (by decide)
  have hv : (kfifoMaxR (UInt64.ofNat from_.length).toUInt32 recsize).toNat =
      recLength recsize from_.length := by
    rw [toNat_kfifoMaxR hsize, UInt64.toNat_toUInt32, UInt64.toNat_ofNat',
      Nat.mod_mod_of_dvd _ (by decide)]
    rfl
  unfold RecWrites RecCall.code kfifoFromUserR
  simp only [Prog.bind_assoc]
  generalize kfifoMaxR (UInt64.ofNat from_.length).toUInt32 recsize = v at hv ⊢
  have hvlt : v.toNat < 256 ^ recsize := by
    have hmin := Nat.min_le_right (from_.length % 2 ^ 32) (256 ^ recsize - 1)
    unfold recLength at hv
    omega
  have hvle : v.toNat ≤ from_.length := by
    have hmin := Nat.min_le_left (from_.length % 2 ^ 32) (256 ^ recsize - 1)
    have hmod := Nat.mod_le from_.length (2 ^ 32)
    unfold recLength at hv
    omega
  refine writes_kfifoUnused ?_
  intro q l hq _ hl
  have hle := rec_le hq
  change l.toNat = mask.toNat + 1 - _ at hl
  rw [rec_units] at hl
  rw [hl]
  by_cases hfull : v.toNat + recsize > mask.toNat + 1 - occupied recsize q
  · rw [if_pos hfull]
    intro now _ _
    refine RecCall.answers_seen ?_
    dsimp only [RecCall.Does]
    rw [if_neg (by omega)]
    exact ⟨rfl, rfl⟩
  · rw [if_neg hfull]
    simp only [Prog.bind_assoc]
    have hroom : ((recFormat h recsize).encode q).length + recsize + v.toNat ≤
        (recFormat h recsize).cells := by
      rw [rec_length, rec_cells]
      omega
    have hlen : (leBytes recsize v.toNat).length = recsize := length_leBytes _ _
    refine writes_kfifoPokeN hsize rfl ((Nat.le_add_right _ _).trans hroom) (writes_readIn
      (writes_kfifoCopyFromUser (u := recsize) rfl (Nat.mul_one _).symm ?_ hvle ?_ ?_))
    · exact hlen.trans (Nat.mul_one _).symm
    · show _ + (leBytes recsize _).length + _ ≤ _
      rw [hlen]
      exact hroom
    intro miss bs hmiss hnone hbs _
    rw [show (recFormat h recsize).esize.toNat = 1 from rfl, divRoundUp_one]
    dsimp only
    by_cases hzero : miss = 0
    · rw [if_neg (not_not.2 hzero)]
      rw [hzero, Nat.sub_zero] at hbs ⊢
      have hx : (from_.take v.toNat).length = v.toNat := List.length_take_of_le hvle
      refine writes_readIn (writes_writeIn ?_ ?_)
      · refine rec_published (from_.take v.toNat) ?_ (hx.trans_lt hvlt) ?_ ?_
        · rw [hv]
          rfl
        · rw [toNat_add_recsize hsize hvlt, hx]
        · rw [hx]
          exact (List.prefix_append_right_inj _).2 hbs
      · intro now _ _
        refine RecCall.answers_seen ?_
        dsimp only [RecCall.Does]
        rw [← hv, if_pos (by omega), toNat_add_recsize hsize hvlt]
        exact ⟨0, Nat.zero_le _, fun _ => rfl, rfl, rfl⟩
    · -- what is in the buffer is never handed over
      rw [if_pos hzero]
      intro now _ _
      refine RecCall.answers_seen ?_
      dsimp only [RecCall.Does]
      rw [← hv, if_pos (by omega)]
      refine ⟨miss, hmiss, hnone, ?_⟩
      rw [if_neg hzero]
      exact ⟨rfl, rfl⟩

/-! ## The reader -/

/-- What a call of the reader shows of itself. -/
def RecReads (h : Fits mask 1) (recsize : ℕ) (own : UInt32) (base : List (List UInt8))
    (op : RecCall) : Prop :=
  Reads (recFormat h recsize) op True (op.code mask recsize)
    (ReaderEnds (recFormat h recsize) (RecCall.answers mask recsize) op) (.first own base)

theorem rec_taken (hsize : recsize = 1 ∨ recsize = 2)
    (htakes : (recFormat h recsize).takes op n = min n 1) (hbase : K.base = x :: q)
    (hn : n = recsize + x.length) : Taken (recFormat h recsize) op n K := by
  have hone : (recFormat h recsize).takes op n = 1 := by
    rw [htakes]
    omega
  constructor
  · rw [hone, hbase]
    exact Nat.succ_pos _
  · rw [hone, hbase, rec_units, hn]
    exact occupied_singleton

/-- The record that the reader knows stays at the front. -/
theorem head_front {α : Type} {a : α} {xs ys : List α} (hfront : a :: xs <+: ys) :
    ys.head? = some a := by
  obtain ⟨zs, rfl⟩ := hfront
  rfl

/-- The bytes behind the length of the first record. -/
theorem rec_front (hn : n ≤ x.length) :
    (((recFormat h recsize).encode (x :: q)).drop (recsize * 1)).take n = x.take n := by
  rw [rec_encode_cons, Nat.mul_one, List.drop_left' (length_leBytes _ _),
    List.take_append_of_le_length hn]

theorem rec_front_le (hn : n ≤ x.length) :
    recsize * 1 + n ≤ ((recFormat h recsize).encode (x :: q)).length := by
  rw [rec_encode_cons, List.length_append, List.length_append, length_leBytes]
  omega

theorem reads_kfifoOutCopyR (hsize : recsize = 1 ∨ recsize = 2) {l : UInt32}
    {f : UInt32 × List UInt8 × UInt32 → Prog Res β} (hroom : (recFormat h recsize).Room K.base)
    (hbase : K.base = x :: q)
    (hf : ∀ k v, k.toNat = min l.toNat x.length → v.toNat = x.length →
      Reads (recFormat h recsize) op last (f (k, x.take l.toNat, v)) Q K) :
    Reads (recFormat h recsize) op last (kfifoOutCopyR mask 1 l recsize >>= f) Q K := by
  have hx : x.length < 256 ^ recsize := hroom.ok x (hbase ▸ List.mem_cons_self)
  unfold kfifoOutCopyR
  simp only [Prog.bind_assoc, Prog.pure_bind]
  refine reads_kfifoPeekN hsize hx hbase ?_
  intro v hv
  have hk := toNat_min l v
  generalize (if l > v then v else l) = k at hk ⊢
  rw [hv] at hk
  have hkle : k.toNat * 1 ≤ x.length := by
    rw [Nat.mul_one, hk]
    exact Nat.min_le_right _ _
  refine reads_readOut (reads_kfifoCopyOut (u := recsize) rfl ?_ hroom ?_)
  · rw [hbase]
    exact rec_front_le hkle
  · have hbytes : (((recFormat h recsize).encode K.base).drop (recsize * 1)).take (k.toNat * 1) =
        x.take l.toNat := by
      rw [hbase, rec_front hkle, Nat.mul_one, hk, ← List.take_take, List.take_length]
    show Reads _ _ _ (f (k, (((recFormat h recsize).encode K.base).drop (recsize * 1)).take
      (k.toNat * 1), v)) Q K
    rw [hbytes]
    exact hf k v hk hv

theorem occupied_eq_zero (hsize : recsize = 1 ∨ recsize = 2) :
    occupied recsize q = 0 ↔ q = [] := by
  cases q with
  | nil => exact ⟨fun _ => rfl, fun _ => rfl⟩
  | cons x q =>
      have hcons : occupied recsize (x :: q) = recsize + x.length + occupied recsize q := rfl
      refine ⟨?_, nofun⟩
      intro hzero
      omega

theorem rec_isEmpty (hsize : recsize = 1 ∨ recsize = 2) :
    decide ((recFormat h recsize).units q = 0) = decide (q = []) := by
  rw [rec_units]
  exact decide_eq_decide.2 (occupied_eq_zero hsize)

theorem reads_outPeekR (hsize : recsize = 1 ∨ recsize = 2) {l : UInt32} :
    RecReads h recsize own base (.outPeek l) := by
  unfold RecReads RecCall.code kfifoOutPeekR
  simp only [Prog.bind_assoc]
  refine reads_kfifoIsEmpty ?_
  intro q hq _
  rw [rec_isEmpty hsize]
  cases q with
  | nil =>
      rw [if_pos (by simp)]
      intro now _ _
      exact RecCall.answers_seen ⟨rfl, rfl⟩
  | cons x q =>
      rw [if_neg (by simp)]
      simp only [Prog.bind_assoc, Prog.pure_bind]
      refine reads_kfifoOutCopyR hsize hq rfl ?_
      intro k v hk _ now _ hfront
      refine RecCall.answers_seen ⟨rfl, ?_⟩
      rw [if_neg (List.cons_ne_nil _ _)]
      refine ⟨x, head_front hfront, ?_⟩
      rw [← hk, UInt32.ofNat_toNat]

theorem reads_outR (hsize : recsize = 1 ∨ recsize = 2) {l : UInt32} :
    RecReads h recsize own base (.out l) := by
  unfold RecReads RecCall.code kfifoOutR
  simp only [Prog.bind_assoc]
  refine reads_kfifoIsEmpty ?_
  intro q hq _
  rw [rec_isEmpty hsize]
  cases q with
  | nil =>
      rw [if_pos (by simp)]
      intro now _ _
      exact RecCall.answers_seen ⟨rfl, rfl⟩
  | cons x q =>
      rw [if_neg (by simp)]
      simp only [Prog.bind_assoc, Prog.pure_bind]
      have hx : x.length < 256 ^ recsize := hq.ok x List.mem_cons_self
      refine reads_kfifoOutCopyR hsize hq rfl ?_
      intro k v hk hv
      have hmoved := toNat_add_recsize hsize (hv.trans_lt hx)
      rw [hv] at hmoved
      refine reads_readOut (reads_writeOut (rec_taken hsize rfl rfl hmoved) ?_)
      intro now _ hfront
      refine RecCall.answers_seen ?_
      dsimp only [RecCall.Does]
      rw [if_neg (List.cons_ne_nil _ _)]
      refine ⟨x, head_front hfront, hmoved, ?_⟩
      rw [← hk, UInt32.ofNat_toNat]

theorem reads_toUserR (hsize : recsize = 1 ∨ recsize = 2) {faults : ℕ × ℕ} {l : UInt64} :
    RecReads h recsize own base (.toUser faults l) := by
  unfold RecReads RecCall.code kfifoToUserR
  simp only [Prog.bind_assoc]
  refine reads_kfifoIsEmpty ?_
  intro q hq _
  rw [rec_isEmpty hsize]
  cases q with
  | nil =>
      rw [if_pos (by simp)]
      intro now _ _
      exact RecCall.answers_seen ⟨rfl, rfl⟩
  | cons x q =>
      rw [if_neg (by simp)]
      simp only [Prog.bind_assoc]
      have hx : x.length < 256 ^ recsize := hq.ok x List.mem_cons_self
      refine reads_kfifoPeekN hsize hx rfl ?_
      intro v hv
      have hk := toNat_min_wide l v
      generalize (if l > v.toUInt64 then v else l.toUInt32) = k at hk ⊢
      rw [hv] at hk
      have hkle : k.toNat ≤ x.length := hk ▸ Nat.min_le_right _ _
      refine reads_readOut (reads_kfifoCopyToUser (u := recsize) rfl (Nat.mul_one _).symm
        (rec_front_le hkle) hq ?_)
      intro miss hmiss hnone
      rw [show (recFormat h recsize).esize.toNat = 1 from rfl, divRoundUp_one]
      dsimp only
      have hbytes : (((recFormat h recsize).encode (x :: q)).drop (recsize * 1)).take
          (k.toNat - miss) = x.take (k.toNat - miss) := rec_front ((Nat.sub_le _ _).trans hkle)
      by_cases hzero : miss = 0
      · rw [if_neg (not_not.2 hzero)]
        have hmoved := toNat_add_recsize hsize (hv.trans_lt hx)
        rw [hv] at hmoved
        refine reads_readOut (reads_writeOut (rec_taken hsize rfl rfl hmoved) ?_)
        intro now _ hfront
        refine RecCall.answers_seen ?_
        dsimp only [RecCall.Does]
        rw [if_neg (List.cons_ne_nil _ _)]
        refine ⟨x, 0, head_front hfront, Nat.zero_le _, fun _ => rfl, hmoved, ?_⟩
        show Returned.toUser ((((recFormat h recsize).encode (x :: q)).drop (recsize * 1)).take
          (k.toNat - miss)) _ _ = _
        rw [hbytes, hzero, Nat.sub_zero, hk, ← List.take_take, List.take_length]
      · -- the record stays in the FIFO
        rw [if_pos hzero]
        intro now _ hfront
        refine RecCall.answers_seen ?_
        dsimp only [RecCall.Does]
        rw [if_neg (List.cons_ne_nil _ _)]
        refine ⟨x, miss, head_front hfront, hk ▸ hmiss, hnone, ?_⟩
        rw [if_neg hzero]
        refine ⟨rfl, ?_⟩
        rw [← hk, ← hbytes]
        rfl

theorem reads_skipR (hsize : recsize = 1 ∨ recsize = 2) (hbase : (recFormat h recsize).Room base)
    (hne : base ≠ []) : RecReads h recsize own base .skip := by
  unfold RecReads RecCall.code kfifoSkipR
  simp only [Prog.bind_assoc]
  cases base with
  | nil => exact absurd rfl hne
  | cons x q =>
      have hx : x.length < 256 ^ recsize := hbase.ok x List.mem_cons_self
      refine reads_kfifoPeekN hsize hx rfl ?_
      intro v hv
      have hmoved := toNat_add_recsize hsize (hv.trans_lt hx)
      rw [hv] at hmoved
      refine reads_readOut (reads_writeOut (rec_taken hsize rfl rfl hmoved) ?_)
      intro now _ hfront
      exact ⟨now, .inr (.inl rfl), x, head_front hfront, hmoved, rfl⟩

theorem reads_peekLen (hsize : recsize = 1 ∨ recsize = 2)
    (hbase : (recFormat h recsize).Room base) (hne : base ≠ []) :
    RecReads h recsize own base .peekLen := by
  unfold RecReads RecCall.code kfifoLenR
  cases base with
  | nil => exact absurd rfl hne
  | cons x q =>
      refine reads_kfifoPeekN hsize (hbase.ok x List.mem_cons_self) rfl ?_
      intro v hv now _ hfront
      refine ⟨now, .inr (.inr rfl), x, head_front hfront, rfl, ?_⟩
      rw [← hv, UInt32.ofNat_toNat]

/-! ## Either thread -/

theorem asks_lenR : Asks (recFormat h recsize) (RecCall.answers mask recsize) .len
    (RecCall.code mask recsize .len) .count := by
  refine ⟨rfl, ?_⟩
  intro q now n hq hn
  rw [rec_units] at hn
  refine RecCall.answers_seen ⟨rfl, ?_⟩
  rw [← hn, UInt32.ofNat_toNat]

theorem asks_isFullR : Asks (recFormat h recsize) (RecCall.answers mask recsize) .isFull
    (RecCall.code mask recsize .isFull) fun n => .flag (n > mask) := by
  constructor
  · unfold RecCall.code kfifoIsFull
    rw [Prog.bind_assoc]
    rfl
  · intro q now n hq hn
    rw [rec_units] at hn
    exact RecCall.answers_seen ⟨rfl, congrArg _ (decide_eq_decide.2 (lt_iff_full hn (rec_le hq)))⟩

theorem asks_isEmptyR (hsize : recsize = 1 ∨ recsize = 2) : AsksEmpty (recFormat h recsize)
    (RecCall.answers mask recsize) .isEmpty (RecCall.code mask recsize .isEmpty) .flag := by
  refine ⟨rfl, ?_⟩
  intro q now _
  exact RecCall.answers_seen ⟨rfl, congrArg _ (rec_isEmpty hsize)⟩

/-- What `kfifo_avail` makes of the length. -/
def availOfLen (mask : UInt32) (recsize : ℕ) (n : UInt32) : UInt32 :=
  if ((mask + 1) - n).toNat ≤ recsize then 0
  else kfifoMaxR ((mask + 1) - n - .ofNat recsize) recsize

theorem toNat_availOfLen (h : Fits mask 1) (hsize : recsize = 1 ∨ recsize = 2) {u : ℕ} {v : UInt32}
    (hv : v.toNat = u) (hle : u ≤ mask.toNat + 1) : (availOfLen mask recsize v).toNat =
      min (mask.toNat + 1 - u - recsize) (256 ^ recsize - 1) := by
  have havail := h.toNat_avail hv hle
  have hpow := pow_small hsize
  unfold availOfLen
  rw [havail]
  by_cases hfull : mask.toNat + 1 - u ≤ recsize
  · rw [if_pos hfull, Nat.sub_eq_zero_of_le hfull]
    exact (Nat.zero_min _).symm
  · rw [if_neg hfull, toNat_kfifoMaxR hsize]
    have hsmall : (UInt32.ofNat recsize).toNat = recsize := by
      rcases hsize with rfl | rfl
      · rfl
      · rfl
    rw [UInt32.toNat_sub_of_le, havail, hsmall]
    rw [UInt32.le_iff_toNat_le, havail, hsmall]
    omega

theorem asks_availR (hsize : recsize = 1 ∨ recsize = 2) : Asks (recFormat h recsize)
    (RecCall.answers mask recsize) .avail (RecCall.code mask recsize .avail)
    fun n => .count (availOfLen mask recsize n) := by
  constructor
  · unfold RecCall.code kfifoAvailR
    rw [Prog.bind_assoc]
    refine congrArg (kfifoLen >>= ·) (funext fun n => ?_)
    unfold availOfLen
    by_cases hfull : ((mask + 1) - n).toNat ≤ recsize
    · rw [if_pos hfull, if_pos hfull]
      rfl
    · rw [if_neg hfull, if_neg hfull]
      rfl
  · intro q now n hq hn
    rw [rec_units] at hn
    refine RecCall.answers_seen ⟨rfl, ?_⟩
    rw [← toNat_availOfLen h hsize hn (rec_le hq), UInt32.ofNat_toNat]

/-! ## All calls -/

theorem rec_sound (h : Fits mask 1) (hsize : recsize = 1 ∨ recsize = 2) :
    Sound (recFormat h recsize) (RecCall.answers mask recsize) (RecCall.code mask recsize)
      (RecCall.allowed recsize) := by
  constructor
  · intro op own base hop _
    cases op with
    | in_ buf => exact writes_inR hsize hop
    | fromUser from_ faults => exact writes_fromUserR hsize
    | out l => exact hop.elim
    | outPeek l => exact hop.elim
    | toUser faults l => exact hop.elim
    | skip => exact hop.elim
    | peekLen => exact hop.elim
    | len => exact asks_lenR.writes
    | isEmpty => exact (asks_isEmptyR hsize).writes
    | isFull => exact asks_isFullR.writes
    | avail => exact (asks_availR hsize).writes
  · intro op own base hop hbase
    cases op with
    | in_ buf => exact hop.elim
    | fromUser from_ faults => exact hop.elim
    | out l => exact reads_outR hsize
    | outPeek l => exact reads_outPeekR hsize
    | toUser faults l => exact reads_toUserR hsize
    | skip => exact reads_skipR hsize hbase hop
    | peekLen => exact reads_peekLen hsize hbase hop
    | len => exact asks_lenR.reads
    | isEmpty => exact (asks_isEmptyR hsize).reads
    | isFull => exact asks_isFullR.reads
    | avail => exact (asks_availR hsize).reads

/-- Every call has an access. -/
theorem value_recCode (mask : UInt32) (recsize : ℕ) (op : RecCall) :
    (op.code mask recsize).value = none := by
  cases op with
  | in_ buf => rfl
  | fromUser from_ faults => rfl
  | out l => rfl
  | outPeek l => rfl
  | toUser faults l => rfl
  | skip => rfl
  | peekLen => rfl
  | len => rfl
  | isEmpty => rfl
  | isFull => rfl
  | avail => rfl

end Calls

/-- FIFOs of records, shared by one writer and one reader. -/
def recSystem {mask : UInt32} (h : Fits mask 1) (recsize : ℕ) :
    System KfifoMem Res Thread RecCall Returned :=
  kfifoSystem (recFormat h recsize) (RecCall.code mask recsize) (RecCall.allowed recsize)

/-- Four bytes. -/
def kfifoFour : KfifoMem := ⟨0, 0, 3, 1, fun _ => 0, 4⟩

theorem created_four : Created 4 1 kfifoFour :=
  .alloc (fun _ => some fun _ => 0) 4 1 ⟨0, 0, 0, 0, fun _ => 0, 0⟩ (by decide) rfl (by decide)
    (by decide) rfl

theorem fits_four : Fits kfifoFour.mask kfifoFour.esize := ⟨⟨2, rfl⟩, by decide, by decide⟩

/-- A record of two bytes, for one of one byte behind it there is no room. The record put after it has
    been taken goes around the buffer, and is taken by a reader with room for its first byte. -/
def recsAround : List (Move Thread RecCall) :=
  Move.alone .writer (.in_ [7, 8]) 0 9 ++ .call .reader (.out 5) 0 :: .access .reader ::
    Move.alone .writer (.in_ [9]) 0 9 ++ List.replicate 9 (.access .reader) ++
    Move.alone .writer (.in_ [9, 10]) 0 9 ++ Move.alone .reader .peekLen 0 9 ++
    Move.alone .reader (.out 1) 0 9 ++ Move.alone .reader (.out 1) 0 9

end StructLib.Kfifo
