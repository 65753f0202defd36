import StructLib.Kfifo.Buffer

set_option autoImplicit false

/-! # One writer and one reader share a FIFO

The code takes no lock where one thread writes and one thread reads. A call of the writer may write to
the bytes behind the entries and hands them over with its last access, a write of `in` (`Writes`); a
call of the reader reads bytes of entries that it has seen to be there and gives them up with its last
access, a write of `out` (`Reads`). Both are properties of a call alone, and calls that have them do
not get in each other's way (`run_right`).

A call goes by what it has seen of the other thread's index, and the other thread may move on at
once: what a call returns is right for the queue at some moment in the call. -/

namespace StructLib.Kfifo

inductive Thread where
  | writer
  | reader
  deriving DecidableEq

variable {Op ρ Item : Type}

abbrev Ev (Op ρ : Type) := Event Res Thread Op ρ

/-! ## The queue -/

/-- The entries in the FIFO, and the indexes as they were last written. -/
structure Ledger (Item : Type) where
  queue : List Item
  in_ : UInt32
  out : UInt32

def Ledger.step (F : Format Op Item) (l : Ledger Item) (ev : Ev Op ρ) : Ledger Item :=
  match ev.acc with
  | .writeIn v => { l with queue := l.queue ++ F.puts ev.op (v - l.in_).toNat, in_ := v }
  | .writeOut v => { l with queue := l.queue.drop (F.takes ev.op (v - l.out).toNat), out := v }
  | _ => l

def Format.ledger (F : Format Op Item) (tr : List (Ev Op ρ)) : Ledger Item :=
  tr.foldl (Ledger.step F) ⟨[], 0, 0⟩

def Format.queue (F : Format Op Item) (tr : List (Ev Op ρ)) : List Item := (F.ledger tr).queue

/-- How far an access moves an index. -/
def Format.moved (F : Format Op Item) (before : List (Ev Op ρ)) (ev : Ev Op ρ) : ℕ :=
  match ev.acc with
  | .writeIn v => (v - (F.ledger before).in_).toNat
  | .writeOut v => (v - (F.ledger before).out).toNat
  | _ => 0

/-- The queue was `q` at an access of the call that the thread is in. -/
def Looked (F : Format Op Item) (t : Thread) (tr : List (Ev Op ρ)) (q : List Item) : Prop :=
  ∃ before ev later, tr = before ++ ev :: later ∧ F.queue before = q ∧ ev.thread = t ∧
    ∀ e ∈ ev :: later, e.thread = t → e.ret = none

/-- What a call may return that has seen the queue `seen`, if it has looked, has moved an index by the
    `ℕ`, and ends with the queue that comes after `seen`. -/
abbrev Answers (Op ρ Item : Type) := Op → Option (List Item) → List Item → ℕ → ρ → Prop

/-- A call writes an index with its last access only, and returns what it may. -/
structure RightlyReturns (F : Format Op Item) (answers : Answers Op ρ Item) (before : List (Ev Op ρ))
    (ev : Ev Op ρ) : Prop where
  last : ev.ret = none → ∀ v, ev.acc ≠ .writeIn v ∧ ev.acc ≠ .writeOut v
  right : ∀ r, ev.ret = some r → ∃ seen : Option (List Item),
    (∀ q, seen = some q → q = F.queue before ∨ Looked F ev.thread before q) ∧
      answers ev.op seen (F.queue before) (F.moved before ev) r

/-- What holds in every state. -/
structure Right (F : Format Op Item) (answers : Answers Op ρ Item) (tr : List (Ev Op ρ))
    (s : KfifoMem) : Prop where
  holds : Holds F (F.queue tr) s
  in_ : s.in_ = (F.ledger tr).in_
  out : s.out = (F.ledger tr).out
  returns : EachEvent (RightlyReturns F answers) tr

/-! ## What a call does by itself -/

/-- What a thread knows in a call: its own index, and of the queue `base`. For the writer, the entries
    in the queue take no more bytes than those of `base` do; for the reader, they begin with `base`.
    `staged` is what the writer has written behind the entries. -/
structure Known (Item : Type) where
  own : UInt32
  base : List Item
  seen : Option (List Item)
  staged : List UInt8

def Known.see (K : Known Item) (q : List Item) : Known Item := { K with base := q, seen := some q }

def Known.stage (K : Known Item) (bs : List UInt8) : Known Item := { K with staged := K.staged ++ bs }

section Calls

variable {α β : Type} (F : Format Op Item) (op : Op)

/-- The staged bytes begin with the entries that the call puts. -/
structure Published (n : ℕ) (K : Known Item) : Prop where
  ok : ∀ x ∈ F.puts op n, F.ok x
  bytes : F.encode (F.puts op n) <+: K.staged
  units : F.units (F.puts op n) = n

/-- The first entries known are those that the call takes. -/
structure Taken (n : ℕ) (K : Known Item) : Prop where
  le : F.takes op n ≤ K.base.length
  units : F.units (K.base.take (F.takes op n)) = n

/-- The program is one that the writer may run, and `Q` holds of its result, of how far it has moved
    `in` and of what it knows in the end. It moves `in` only if `last`. -/
def Writes (last : Prop) : Prog Res α → (α → ℕ → Known Item → Prop) → Known Item → Prop
  | .ret a, Q, K => Q a 0 K
  | .outOfFuel, _, _ => False
  | .access .readIn next, Q, K => Writes last (next K.own) Q K
  | .access .readOut next, Q, K => ∀ q, F.Room q → (F.encode q).length ≤ (F.encode K.base).length →
      Writes last (next (K.own - .ofNat (F.units q))) Q (K.see q)
  | .access (.writeByte i b) next, Q, K =>
      i = around F.cells (F.start K.own) K.staged.length ∧
        (F.encode K.base).length + K.staged.length < F.cells ∧ Writes last (next ()) Q (K.stage [b])
  | .access (.writeIn v) next, Q, K => last ∧ Published F op (v - K.own).toNat K ∧
      ∃ a, next () = .ret a ∧ Q a (v - K.own).toNat K
  | .access (.writeOut _) _, _, _ => False
  | .access (.readByte _) _, _, _ => False

/-- The program is one that the reader may run. -/
def Reads (last : Prop) : Prog Res α → (α → ℕ → Known Item → Prop) → Known Item → Prop
  | .ret a, Q, K => Q a 0 K
  | .outOfFuel, _, _ => False
  | .access .readOut next, Q, K => Reads last (next K.own) Q K
  | .access .readIn next, Q, K => ∀ q, F.Room q → K.base <+: q →
      Reads last (next (K.own + .ofNat (F.units q))) Q (K.see q)
  | .access (.readByte i) next, Q, K => ∃ j b, (F.encode K.base)[j]? = some b ∧
      i = around F.cells (F.start K.own) j ∧ Reads last (next b) Q K
  | .access (.writeOut v) next, Q, K => last ∧ Taken F op (v - K.own).toNat K ∧
      ∃ a, next () = .ret a ∧ Q a (v - K.own).toNat K
  | .access (.writeIn _) _, _, _ => False
  | .access (.writeByte _ _) _, _, _ => False

variable {F op} {last : Prop} {K : Known Item} {Q : β → ℕ → Known Item → Prop}

theorem writes_bind {p : Prog Res α} {f : α → Prog Res β}
    (h : Writes F op False p (fun a _ K => Writes F op last (f a) Q K) K) :
    Writes F op last (p >>= f) Q K := by
  induction p generalizing K with
  | ret a => exact h
  | outOfFuel => exact h
  | access x next ih =>
      cases x with
      | readIn => exact ih _ h
      | readOut => exact fun q hq hle => ih _ (h q hq hle)
      | writeByte i b => exact ⟨h.1, h.2.1, ih _ h.2.2⟩
      | writeIn v => exact h.1.elim
      | writeOut v => exact h
      | readByte i => exact h

theorem reads_bind {p : Prog Res α} {f : α → Prog Res β}
    (h : Reads F op False p (fun a _ K => Reads F op last (f a) Q K) K) :
    Reads F op last (p >>= f) Q K := by
  induction p generalizing K with
  | ret a => exact h
  | outOfFuel => exact h
  | access x next ih =>
      cases x with
      | readIn => exact fun q hq hle => ih _ (h q hq hle)
      | readOut => exact ih _ h
      | readByte i =>
          obtain ⟨j, b, hj, hi, h⟩ := h
          exact ⟨j, b, hj, hi, ih _ h⟩
      | writeIn v => exact h
      | writeOut v => exact h.1.elim
      | writeByte i b => exact h

theorem writes_readIn {f : UInt32 → Prog Res β} (h : Writes F op last (f K.own) Q K) :
    Writes F op last (readIn >>= f) Q K := h

theorem writes_readOut {f : UInt32 → Prog Res β}
    (h : ∀ q, F.Room q → (F.encode q).length ≤ (F.encode K.base).length →
      Writes F op last (f (K.own - .ofNat (F.units q))) Q (K.see q)) :
    Writes F op last (readOut >>= f) Q K := h

theorem writes_writeByte {i : ℕ} {b : UInt8} {f : Unit → Prog Res β}
    (hi : i = around F.cells (F.start K.own) K.staged.length)
    (hlt : (F.encode K.base).length + K.staged.length < F.cells)
    (h : Writes F op last (f ()) Q (K.stage [b])) : Writes F op last (writeByte i b >>= f) Q K :=
  ⟨hi, hlt, h⟩

theorem writes_writeIn {v : UInt32} {b : β} (hp : Published F op v.toNat K) (h : Q b v.toNat K) :
    Writes F op True (do writeIn (K.own + v); return b) Q K := by
  have hmoved : K.own + v - K.own = v := by rw [UInt32.add_comm, UInt32.add_sub_cancel]
  refine ⟨trivial, ?_, b, rfl, ?_⟩
  · rwa [hmoved]
  · rwa [hmoved]

theorem reads_readOut {f : UInt32 → Prog Res β} (h : Reads F op last (f K.own) Q K) :
    Reads F op last (readOut >>= f) Q K := h

theorem reads_readIn {f : UInt32 → Prog Res β} (h : ∀ q, F.Room q → K.base <+: q →
    Reads F op last (f (K.own + .ofNat (F.units q))) Q (K.see q)) :
    Reads F op last (readIn >>= f) Q K := h

theorem reads_readByte {i j : ℕ} {b : UInt8} {f : UInt8 → Prog Res β}
    (hj : (F.encode K.base)[j]? = some b) (hi : i = around F.cells (F.start K.own) j)
    (h : Reads F op last (f b) Q K) : Reads F op last (readByte i >>= f) Q K :=
  ⟨j, b, hj, hi, h⟩

theorem reads_writeOut {v : UInt32} {b : β} (hp : Taken F op v.toNat K) (h : Q b v.toNat K) :
    Reads F op True (do writeOut (K.own + v); return b) Q K := by
  have hmoved : K.own + v - K.own = v := by rw [UInt32.add_comm, UInt32.add_sub_cancel]
  refine ⟨trivial, ?_, b, rfl, ?_⟩
  · rwa [hmoved]
  · rwa [hmoved]

end Calls

/-! ## Program points -/

section Points

variable {F : Format Op Item} {answers : Answers Op ρ Item} {op : Op} {p : Prog Res ρ}
  {tr : List (Ev Op ρ)} {s s' : KfifoMem} {K : Known Item} {ev : Ev Op ρ} {q : List Item} {t : Thread}

/-- The writer returns `r`, having moved `in` by `n`, and that is right. -/
def WriterEnds (F : Format Op Item) (answers : Answers Op ρ Item) (op : Op) (r : ρ) (n : ℕ)
    (K : Known Item) : Prop :=
  ∀ q, F.Room q → (F.encode q).length ≤ (F.encode K.base).length → answers op K.seen q n r

def ReaderEnds (F : Format Op Item) (answers : Answers Op ρ Item) (op : Op) (r : ρ) (n : ℕ)
    (K : Known Item) : Prop :=
  ∀ q, F.Room q → K.base <+: q → answers op K.seen q n r

/-- What the writer knows at a point of a call. -/
structure WriterAt (F : Format Op Item) (answers : Answers Op ρ Item) (op : Op) (p : Prog Res ρ)
    (tr : List (Ev Op ρ)) (s : KfifoMem) (K : Known Item) : Prop where
  writes : Writes F op True p (WriterEnds F answers op) K
  own : K.own = s.in_
  le : (F.encode (F.queue tr)).length ≤ (F.encode K.base).length
  fits : (F.encode K.base).length + K.staged.length ≤ F.cells
  laid : Laid F.cells s.data (F.start s.in_) K.staged
  looked : ∀ q, K.seen = some q → Looked F .writer tr q

/-- What the reader knows at a point of a call. -/
structure ReaderAt (F : Format Op Item) (answers : Answers Op ρ Item) (op : Op) (p : Prog Res ρ)
    (tr : List (Ev Op ρ)) (s : KfifoMem) (K : Known Item) : Prop where
  reads : Reads F op True p (ReaderEnds F answers op) K
  own : K.own = s.out
  front : K.base <+: F.queue tr
  looked : ∀ q, K.seen = some q → Looked F .reader tr q

def PointAt (F : Format Op Item) (answers : Answers Op ρ Item) (t : Thread) (op : Op) (p : Prog Res ρ)
    (tr : List (Ev Op ρ)) (s : KfifoMem) : Prop :=
  match t with
  | .writer => ∃ K, WriterAt F answers op p tr s K
  | .reader => ∃ K, ReaderAt F answers op p tr s K

theorem ledger_snoc : F.ledger (tr ++ [ev]) = (F.ledger tr).step F ev := by
  unfold Format.ledger
  rw [List.foldl_append]
  rfl

/-- An access that writes no index. -/
def Quiet (ev : Ev Op ρ) : Prop := ∀ v, ev.acc ≠ .writeIn v ∧ ev.acc ≠ .writeOut v

theorem Quiet.ledger_eq (h : Quiet ev) : F.ledger (tr ++ [ev]) = F.ledger tr := by
  rw [ledger_snoc]
  unfold Ledger.step
  split
  · exact absurd ‹_› (h _).1
  · exact absurd ‹_› (h _).2
  · rfl

theorem Quiet.queue_eq (h : Quiet ev) : F.queue (tr ++ [ev]) = F.queue tr :=
  congrArg Ledger.queue h.ledger_eq

theorem Quiet.moved_eq (h : Quiet ev) : F.moved tr ev = 0 := by
  unfold Format.moved
  split
  · exact absurd ‹_› (h _).1
  · exact absurd ‹_› (h _).2
  · rfl

theorem Looked.snoc (h : Looked F t tr q) (hev : ev.thread = t → ev.ret = none) :
    Looked F t (tr ++ [ev]) q := by
  obtain ⟨before, ev₀, later, rfl, hq, ht, hall⟩ := h
  refine ⟨before, ev₀, later ++ [ev], by simp, hq, ht, ?_⟩
  intro e he
  rw [← List.cons_append] at he
  rcases List.mem_append.1 he with he | he
  · exact hall e he
  · rw [List.mem_singleton.1 he]
    exact hev

theorem looked_now (ht : ev.thread = t) (hret : ev.ret = none) :
    Looked F t (tr ++ [ev]) (F.queue tr) := by
  refine ⟨tr, ev, [], rfl, rfl, ht, ?_⟩
  intro e he _
  rw [List.mem_singleton.1 he]
  exact hret

/-- The reader makes room and leaves alone what the writer has staged. -/
theorem WriterAt.other (h : WriterAt F answers op p tr s K) (hev : ev.thread = .reader)
    (hin : s'.in_ = s.in_) (hdata : s'.data = s.data)
    (hle : (F.encode (F.queue (tr ++ [ev]))).length ≤ (F.encode (F.queue tr)).length) :
    WriterAt F answers op p (tr ++ [ev]) s' K := by
  refine ⟨h.writes, h.own.trans hin.symm, hle.trans h.le, h.fits, ?_, ?_⟩
  · rw [hdata, hin]
    exact h.laid
  · intro q hq
    exact (h.looked q hq).snoc fun ht => by rw [hev] at ht; cases ht

/-- The writer adds entries behind those that the reader knows. -/
theorem ReaderAt.other (h : ReaderAt F answers op p tr s K) (hev : ev.thread = .writer)
    (hout : s'.out = s.out) (hq : F.queue tr <+: F.queue (tr ++ [ev])) :
    ReaderAt F answers op p (tr ++ [ev]) s' K := by
  refine ⟨h.reads, h.own.trans hout.symm, h.front.trans hq, ?_⟩
  intro q hseen
  exact (h.looked q hseen).snoc fun ht => by rw [hev] at ht; cases ht

/-! ## One access -/

/-- What an access keeps that returns `b`, the program going on as `p'`. -/
structure Keeps (F : Format Op Item) (answers : Answers Op ρ Item) (tr : List (Ev Op ρ)) (t : Thread)
    (op : Op) (x : Acc) (b : Res x) (s s' : KfifoMem) (p' : Prog Res ρ) : Prop where
  right : Right F answers (tr ++ [⟨t, op, x, b, p'.value⟩]) s'
  point : p'.value = none → PointAt F answers t op p' (tr ++ [⟨t, op, x, b, p'.value⟩]) s'
  other : ∀ t' op' p₂, t' ≠ t → PointAt F answers t' op' p₂ tr s →
    PointAt F answers t' op' p₂ (tr ++ [⟨t, op, x, b, p'.value⟩]) s'

theorem Right.quiet (h : Right F answers tr s) (hev : Quiet ev) (hin : s'.in_ = s.in_)
    (hout : s'.out = s.out) (hholds : Holds F (F.queue tr) s')
    (hr : RightlyReturns F answers tr ev) : Right F answers (tr ++ [ev]) s' := by
  refine ⟨?_, ?_, ?_, h.returns.snoc hr⟩
  · rw [hev.queue_eq]
    exact hholds
  · rw [hev.ledger_eq, hin, h.in_]
  · rw [hev.ledger_eq, hout, h.out]

/-- An access of the writer that leaves the indexes alone, after which it knows `K`. -/
theorem WriterAt.keeps {x : Acc} {b : Res x} {p' : Prog Res ρ} (h : Right F answers tr s)
    (hx : ∀ v, x ≠ .writeIn v ∧ x ≠ .writeOut v) (hin : s'.in_ = s.in_) (hout : s'.out = s.out)
    (hholds : Holds F (F.queue tr) s') (hw : Writes F op True p' (WriterEnds F answers op) K)
    (hown : K.own = s'.in_) (hle : (F.encode (F.queue tr)).length ≤ (F.encode K.base).length)
    (hfits : (F.encode K.base).length + K.staged.length ≤ F.cells)
    (hlaid : Laid F.cells s'.data (F.start s'.in_) K.staged)
    (hlooked : ∀ q, K.seen = some q → q = F.queue tr ∨ Looked F .writer tr q) :
    Keeps F answers tr .writer op x b s s' p' := by
  have hquiet : Quiet (⟨.writer, op, x, b, p'.value⟩ : Ev Op ρ) := hx
  refine ⟨h.quiet hquiet hin hout hholds ⟨fun _ => hx, ?_⟩, ?_, ?_⟩
  · intro r hr
    refine ⟨K.seen, hlooked, ?_⟩
    rw [hquiet.moved_eq]
    cases p' with
    | ret a =>
        obtain rfl : a = r := by simpa [Prog.value] using hr
        exact hw _ h.holds.room hle
    | access x next => cases hr
    | outOfFuel => cases hr
  · intro hv
    refine ⟨K, hw, hown, ?_, hfits, hlaid, ?_⟩
    · rw [hquiet.queue_eq]
      exact hle
    · intro q hq
      rcases hlooked q hq with rfl | hl
      · exact looked_now rfl hv
      · exact hl.snoc fun _ => hv
  · intro t' op' p₂ ht hp
    cases t' with
    | writer => exact absurd rfl ht
    | reader =>
        obtain ⟨K', hK⟩ := hp
        refine ⟨K', hK.other rfl hout ?_⟩
        simp only [hquiet.queue_eq, List.prefix_rfl]

/-- An access of the reader that leaves the indexes alone. -/
theorem ReaderAt.keeps {x : Acc} {b : Res x} {p' : Prog Res ρ} (h : Right F answers tr s)
    (hx : ∀ v, x ≠ .writeIn v ∧ x ≠ .writeOut v)
    (hr : Reads F op True p' (ReaderEnds F answers op) K) (hown : K.own = s.out)
    (hfront : K.base <+: F.queue tr)
    (hlooked : ∀ q, K.seen = some q → q = F.queue tr ∨ Looked F .reader tr q) :
    Keeps F answers tr .reader op x b s s p' := by
  have hquiet : Quiet (⟨.reader, op, x, b, p'.value⟩ : Ev Op ρ) := hx
  refine ⟨h.quiet hquiet rfl rfl h.holds ⟨fun _ => hx, ?_⟩, ?_, ?_⟩
  · intro r hr'
    refine ⟨K.seen, hlooked, ?_⟩
    rw [hquiet.moved_eq]
    cases p' with
    | ret a =>
        obtain rfl : a = r := by simpa [Prog.value] using hr'
        exact hr _ h.holds.room hfront
    | access x next => cases hr'
    | outOfFuel => cases hr'
  · intro hv
    refine ⟨K, hr, hown, ?_, ?_⟩
    · rw [hquiet.queue_eq]
      exact hfront
    · intro q hq
      rcases hlooked q hq with rfl | hl
      · exact looked_now rfl hv
      · exact hl.snoc fun _ => hv
  · intro t' op' p₂ ht hp
    cases t' with
    | reader => exact absurd rfl ht
    | writer =>
        obtain ⟨K', hK⟩ := hp
        exact ⟨K', hK.other rfl rfl rfl (by rw [hquiet.queue_eq])⟩

theorem run_readByte {i : ℕ} (hi : i < s.room) :
    (perform (.readByte i)).run s = .ok (s.data i, s) :=
  congrFun (if_pos hi : ite _ (return s.data i) Exec.undef = _) s

theorem run_writeByte {i : ℕ} {b : UInt8} (hi : i < s.room) :
    (perform (.writeByte i b)).run s = .ok ((), { s with data := Function.update s.data i b }) :=
  congrFun (if_pos hi : ite _ (set _) Exec.undef = _) s

/-- The bytes behind the entries are free. -/
theorem Holds.stage {i : ℕ} {b : UInt8} (h : Holds F q s) (hlt : (F.encode q).length + i < F.cells) :
    Holds F q { s with data := Function.update s.data (around F.cells (F.start s.in_) i) b } := by
  refine ⟨h.room, h.tail, ?_, h.bytes⟩
  have hplace : around F.cells (F.start s.in_) i =
      around F.cells (F.start s.out) ((F.encode q).length + i) := by
    rw [around_congr h.start_in, around_add]
  show Laid F.cells (Function.update s.data _ b) (F.start s.out) (F.encode q)
  rw [hplace]
  exact h.laid.update hlt (Nat.le_add_right _ _)

theorem add_ofNat_sub (v w : UInt32) : v + .ofNat (w - v).toNat = w := by
  rw [UInt32.ofNat_toNat, UInt32.add_comm, UInt32.sub_add_cancel]

/-- The writer hands over what it has staged. -/
theorem WriterAt.publish {v : UInt32} {p' : Prog Res ρ} {a : ρ} (h : Right F answers tr s)
    (hK : WriterAt F answers op p tr s K) (hp : Published F op (v - K.own).toNat K)
    (ha : p' = .ret a)
    (hq : WriterEnds F answers op a (v - K.own).toNat K) :
    Keeps F answers tr .writer op (.writeIn v) () s { s with in_ := v } p' := by
  subst ha
  have hown : (F.ledger tr).in_ = K.own := h.in_.symm.trans hK.own.symm
  have hput := h.holds.put hK.laid ((Nat.add_le_add_right hK.le _).trans hK.fits) hp.ok hp.bytes
    hp.units
  rw [← hK.own, add_ofNat_sub] at hput
  have hqueue : ∀ ret, F.queue (tr ++ [⟨.writer, op, .writeIn v, (), ret⟩]) =
      F.queue tr ++ F.puts op (v - K.own).toNat := by
    intro ret
    unfold Format.queue
    rw [ledger_snoc, ← hown]
    rfl
  refine ⟨⟨?_, ?_, ?_, h.returns.snoc ⟨by simp [Prog.value], ?_⟩⟩, by simp [Prog.value], ?_⟩
  · rw [hqueue]
    exact hput
  · rw [ledger_snoc]
    rfl
  · rw [ledger_snoc]
    exact h.out
  · intro r hr
    obtain rfl : a = r := by simpa [Prog.value] using hr
    refine ⟨K.seen, fun q hq => .inr (hK.looked q hq), ?_⟩
    show answers op K.seen (F.queue tr) (v - (F.ledger tr).in_).toNat a
    rw [hown]
    exact hq _ h.holds.room hK.le
  · intro t' op' p₂ ht hp
    cases t' with
    | writer => exact absurd rfl ht
    | reader =>
        obtain ⟨K', hK'⟩ := hp
        exact ⟨K', hK'.other rfl rfl (by rw [hqueue]; exact List.prefix_append _ _)⟩

/-- The reader gives up entries. -/
theorem ReaderAt.give {v : UInt32} {p' : Prog Res ρ} {a : ρ} (h : Right F answers tr s)
    (hK : ReaderAt F answers op p tr s K) (hp : Taken F op (v - K.own).toNat K) (ha : p' = .ret a)
    (hq : ReaderEnds F answers op a (v - K.own).toNat K) :
    Keeps F answers tr .reader op (.writeOut v) () s { s with out := v } p' := by
  subst ha
  have hown : (F.ledger tr).out = K.own := h.out.symm.trans hK.own.symm
  have htake : (F.queue tr).take (F.takes op (v - K.own).toNat) =
      K.base.take (F.takes op (v - K.own).toNat) := by
    obtain ⟨q', hq'⟩ := hK.front
    rw [← hq', List.take_append_of_le_length hp.le]
  have hholds : Holds F ((F.queue tr).take (F.takes op (v - K.own).toNat) ++
      (F.queue tr).drop (F.takes op (v - K.own).toNat)) s := by
    rw [List.take_append_drop]
    exact h.holds
  have hgive := hholds.take (by rw [htake, hp.units])
  rw [← hK.own, add_ofNat_sub] at hgive
  have hqueue : ∀ ret, F.queue (tr ++ [⟨.reader, op, .writeOut v, (), ret⟩]) =
      (F.queue tr).drop (F.takes op (v - K.own).toNat) := by
    intro ret
    unfold Format.queue
    rw [ledger_snoc, ← hown]
    rfl
  refine ⟨⟨?_, ?_, ?_, h.returns.snoc ⟨by simp [Prog.value], ?_⟩⟩, by simp [Prog.value], ?_⟩
  · rw [hqueue]
    exact hgive
  · rw [ledger_snoc]
    exact h.in_
  · rw [ledger_snoc]
    rfl
  · intro r hr
    obtain rfl : a = r := by simpa [Prog.value] using hr
    refine ⟨K.seen, fun q hq => .inr (hK.looked q hq), ?_⟩
    show answers op K.seen (F.queue tr) (v - (F.ledger tr).out).toNat a
    rw [hown]
    exact hq _ h.holds.room hK.front
  · intro t' op' p₂ ht hp
    cases t' with
    | reader => exact absurd rfl ht
    | writer =>
        obtain ⟨K', hK'⟩ := hp
        refine ⟨K', hK'.other rfl rfl rfl ?_⟩
        rw [hqueue]
        exact ((List.drop_sublist _ _).flatMap F.bytes).length_le

/-- An access of the writer. -/
theorem writer_step {x : Acc} {next : Res x → Prog Res ρ} (h : Right F answers tr s)
    (hK : WriterAt F answers op (.access x next) tr s K) : ∃ b s',
      (perform x).run s = .ok (b, s') ∧ Keeps F answers tr .writer op x b s s' (next b) := by
  have hw := hK.writes
  have hlooked : ∀ q, K.seen = some q → q = F.queue tr ∨ Looked F .writer tr q :=
    fun q hq => .inr (hK.looked q hq)
  cases x with
  | readIn =>
      change Writes F op True (next K.own) _ K at hw
      rw [hK.own] at hw
      exact ⟨s.in_, s, rfl, WriterAt.keeps h (by simp) rfl rfl h.holds hw hK.own hK.le hK.fits hK.laid
        hlooked⟩
  | readOut =>
      have hout : K.own - .ofNat (F.units (F.queue tr)) = s.out := by
        rw [hK.own, h.holds.tail, UInt32.add_sub_cancel]
      have hw' : Writes F op True (next s.out) _ (K.see (F.queue tr)) :=
        hout ▸ hw (F.queue tr) h.holds.room hK.le
      refine ⟨s.out, s, rfl, WriterAt.keeps h (by simp) rfl rfl h.holds hw' hK.own (Nat.le_refl _)
        ((Nat.add_le_add_right hK.le _).trans hK.fits) hK.laid ?_⟩
      intro q hq
      exact .inl (Option.some.inj hq).symm
  | writeByte i b =>
      obtain ⟨hi, hlt, hw'⟩ := hw
      have hpos := F.fits.cells_pos
      rw [hK.own] at hi
      have hbound : i < s.room := by
        rw [hi]
        exact (around_lt hpos).trans_le h.holds.bytes
      refine ⟨(), _, run_writeByte hbound, WriterAt.keeps h (by simp) rfl rfl ?_ hw' hK.own hK.le ?_ ?_
        hlooked⟩
      · rw [hi]
        exact h.holds.stage ((Nat.add_le_add_right hK.le _).trans_lt hlt)
      · show (F.encode K.base).length + (K.staged ++ [b]).length ≤ _
        rw [List.length_append, List.length_singleton]
        omega
      · show Laid F.cells (Function.update s.data i b) (F.start s.in_) (K.staged ++ [b])
        rw [hi]
        exact hK.laid.concat (by omega)
  | writeIn v =>
      obtain ⟨-, hp, a, ha, hq⟩ := hw
      exact ⟨(), _, rfl, hK.publish h hp ha hq⟩
  | writeOut v => exact hw.elim
  | readByte i => exact hw.elim

/-- An access of the reader. -/
theorem reader_step {x : Acc} {next : Res x → Prog Res ρ} (h : Right F answers tr s)
    (hK : ReaderAt F answers op (.access x next) tr s K) : ∃ b s',
      (perform x).run s = .ok (b, s') ∧ Keeps F answers tr .reader op x b s s' (next b) := by
  have hr := hK.reads
  have hlooked : ∀ q, K.seen = some q → q = F.queue tr ∨ Looked F .reader tr q :=
    fun q hq => .inr (hK.looked q hq)
  cases x with
  | readOut =>
      change Reads F op True (next K.own) _ K at hr
      rw [hK.own] at hr
      exact ⟨s.out, s, rfl, ReaderAt.keeps h (by simp) hr hK.own hK.front hlooked⟩
  | readIn =>
      have hin : K.own + .ofNat (F.units (F.queue tr)) = s.in_ := by rw [hK.own, h.holds.tail]
      have hr' : Reads F op True (next s.in_) _ (K.see (F.queue tr)) :=
        hin ▸ hr (F.queue tr) h.holds.room hK.front
      refine ⟨s.in_, s, rfl, ReaderAt.keeps h (by simp) hr' hK.own List.prefix_rfl ?_⟩
      intro q hq
      exact .inl (Option.some.inj hq).symm
  | readByte i =>
      obtain ⟨j, b, hj, hi, hr'⟩ := hr
      rw [hK.own] at hi
      have hbound : i < s.room := by
        rw [hi]
        exact (around_lt F.fits.cells_pos).trans_le h.holds.bytes
      have hdata : s.data i = b := by
        obtain ⟨q', hq'⟩ := hK.front
        rw [hi]
        refine h.holds.laid j b ?_
        rw [← hq', F.encode_append]
        exact List.getElem?_append_left (List.getElem?_eq_some_iff.1 hj).1 ▸ hj
      refine ⟨s.data i, s, run_readByte hbound, ReaderAt.keeps h (by simp) ?_ hK.own hK.front hlooked⟩
      rw [hdata]
      exact hr'
  | writeOut v =>
      obtain ⟨-, hp, a, ha, hq⟩ := hr
      exact ⟨(), _, rfl, hK.give h hp ha hq⟩
  | writeIn v => exact hr.elim
  | writeByte i b => exact hr.elim

end Points

/-! ## All interleavings -/

/-- What a thread knows at the start of a call. -/
def Known.first (own : UInt32) (q : List Item) : Known Item := ⟨own, q, none, []⟩

/-- Calls that a thread may make and that run by themselves as they should. -/
structure Sound (F : Format Op Item) (answers : Answers Op ρ Item) (code : Op → Prog Res ρ)
    (allowed : Thread → Op → List Item → Prop) : Prop where
  writes : ∀ op own base, allowed .writer op base → F.Room base →
    Writes F op True (code op) (WriterEnds F answers op) (.first own base)
  reads : ∀ op own base, allowed .reader op base → F.Room base →
    Reads F op True (code op) (ReaderEnds F answers op) (.first own base)

/-- What the threads are allowed to call depends on the queue. -/
def kfifoSystem (F : Format Op Item) (code : Op → Prog Res ρ)
    (allowed : Thread → Op → List Item → Prop) : System KfifoMem Res Thread Op ρ where
  perform := perform
  code op _ := code op
  enabled tr _ t op := allowed t op (F.queue tr)

section Interleavings

variable {F : Format Op Item} {answers : Answers Op ρ Item} {code : Op → Prog Res ρ}
  {allowed : Thread → Op → List Item → Prop} {s₀ : KfifoMem} {tr : List (Ev Op ρ)}
  {c : Config KfifoMem Res Thread Op ρ} {t : Thread} {op : Op} {p : Prog Res ρ}

theorem right_init (hin : s₀.in_ = 0) (hout : s₀.out = 0) (hroom : F.cells ≤ s₀.room) :
    Right F answers [] s₀ := by
  refine ⟨⟨⟨by simp [Format.queue, Format.ledger], ?_⟩, ?_, ?_, hroom⟩, hin, hout, eachEvent_nil⟩
  · exact Nat.zero_le _
  · rw [hin, hout]
    show (0 : UInt32) = 0 + .ofNat (0 / _)
    rw [Nat.zero_div]
    rfl
  · exact laid_nil

/-- What holds of both threads, in every state of every interleaving. -/
theorem run_outlined (hsound : Sound F answers code allowed) (hin : s₀.in_ = 0) (hout : s₀.out = 0)
    (hroom : F.cells ≤ s₀.room) (hrun : (kfifoSystem F code allowed).Run s₀ tr c) :
    Outlined (Right F answers) (PointAt F answers) (fun _ _ _ _ => True) tr c ∧
      (kfifoSystem F code allowed).NoFault c := by
  refine System.Run.outline (by simp) (right_init hin hout hroom)
    (fun tr c t op fuel hc hen => ⟨?_, fun _ _ _ _ _ => trivial⟩)
    (fun tr s t op x next hright hat => ?_) hrun
  · -- a call starts
    have hmem : Right F answers tr c.mem := hc.mem
    cases t with
    | writer =>
        refine ⟨.first c.mem.in_ (F.queue tr), hsound.writes op _ _ hen hmem.holds.room, rfl,
          Nat.le_refl _, hmem.holds.room.le, laid_nil, ?_⟩
        intro q hq
        cases hq
    | reader =>
        refine ⟨.first c.mem.out (F.queue tr), hsound.reads op _ _ hen hmem.holds.room, rfl,
          List.prefix_rfl, ?_⟩
        intro q hq
        cases hq
  · -- a thread goes on
    have hstep : ∃ b s', (perform x).run s = .ok (b, s') ∧
        Keeps F answers tr t op x b s s' (next b) := by
      cases t with
      | writer =>
          obtain ⟨K, hK⟩ := hat
          exact writer_step hright hK
      | reader =>
          obtain ⟨K, hK⟩ := hat
          exact reader_step hright hK
    obtain ⟨b, s', hok, hkeeps⟩ := hstep
    exact ⟨b, s', hok, hkeeps.right, hkeeps.point, fun t' op' p' ht _ => hkeeps.other t' op' p' ht⟩

/-- Memory is right in every state of an interleaving, and no access is undefined. -/
theorem run_right (hsound : Sound F answers code allowed) (hin : s₀.in_ = 0) (hout : s₀.out = 0)
    (hroom : F.cells ≤ s₀.room) (hrun : (kfifoSystem F code allowed).Run s₀ tr c) :
    Right F answers tr c.mem ∧ (kfifoSystem F code allowed).NoFault c := by
  obtain ⟨houtlined, hnoFault⟩ := run_outlined hsound hin hout hroom hrun
  exact ⟨houtlined.mem, hnoFault⟩

theorem PointAt.ne_outOfFuel {s : KfifoMem} (h : PointAt F answers t op p tr s) :
    p ≠ .outOfFuel := by
  rintro rfl
  cases t with
  | writer =>
      obtain ⟨K, hK⟩ := h
      exact hK.writes
  | reader =>
      obtain ⟨K, hK⟩ := h
      exact hK.reads

/-- Left to itself, a thread brings its call to the end. -/
theorem run_finishes (hsound : Sound F answers code allowed) (hin : s₀.in_ = 0) (hout : s₀.out = 0)
    (hroom : F.cells ≤ s₀.room) (hrun : (kfifoSystem F code allowed).Run s₀ tr c)
    (hat : c.running t = some (op, p)) : (kfifoSystem F code allowed).Finishes s₀ tr c t op := by
  refine System.Run.finishes (fun tr c hrun => ?_) hrun hat
  obtain ⟨houtlined, hnoFault⟩ := run_outlined hsound hin hout hroom hrun
  exact ⟨hnoFault, fun t op hat => (houtlined.point t op _ hat).ne_outOfFuel rfl⟩

end Interleavings

end StructLib.Kfifo
