import StructLib.Kfifo.Records

set_option autoImplicit false

/-! # What goes in comes out

What the reader gets, call after call, is what the writer has put, in its order. Only `kfifo_skip`
throws entries away, and `__kfifo_out_r` what a record is too long by for the caller's buffer. -/

namespace StructLib.Kfifo

section Collect

variable {Op ρ Item β : Type} {F : Format Op Item} {answers : Answers Op ρ Item}
  {tr : List (Ev Op ρ)} {ev : Ev Op ρ}

/-- What `f` makes of the accesses, one after the other. -/
def collect (f : List (Ev Op ρ) → Ev Op ρ → List β) : List (Ev Op ρ) → List (Ev Op ρ) → List β
  | _, [] => []
  | before, ev :: later => f before ev ++ collect f (before ++ [ev]) later

theorem collect_snoc (f : List (Ev Op ρ) → Ev Op ρ → List β) (before : List (Ev Op ρ)) :
    collect f before (tr ++ [ev]) = collect f before tr ++ f (before ++ tr) ev := by
  induction tr generalizing before with
  | nil => simp [collect]
  | cons e tr ih =>
      rw [List.cons_append]
      unfold collect
      rw [ih, List.append_assoc, List.append_assoc, List.singleton_append]

/-- Where every access moves what it gets from the front of the queue and what it puts to its end, a
    run does. -/
theorem run_collect {code : Op → Prog Res ρ} {allowed : Thread → Op → List Item → Prop}
    (hsound : Sound F answers code allowed) {s : KfifoMem} (hin : s.in_ = 0) (hout : s.out = 0)
    (hroom : F.cells ≤ s.room) {got put : List (Ev Op ρ) → Ev Op ρ → List β}
    {e : List Item → List β} (hnil : e [] = []) {P : Op → Prop}
    (hstep : ∀ tr ev, RightlyReturns F answers tr ev → F.Room (F.queue tr) → P ev.op →
      got tr ev ++ e (F.queue (tr ++ [ev])) = e (F.queue tr) ++ put tr ev)
    {c : Config KfifoMem Res Thread Op ρ} (hrun : (kfifoSystem F code allowed).Run s tr c)
    (hall : ∀ ev ∈ tr, P ev.op) :
    collect got [] tr ++ e (F.queue tr) = collect put [] tr := by
  induction hrun with
  | nil => exact hnil
  | call run idle en fuel ih => exact ih hall
  | @access tr c t op x next b s' run at_ ok ih =>
      have hops := List.forall_mem_append.1 hall
      have hbefore := (run_right hsound hin hout hroom run).1
      have hafter := (run_right hsound hin hout hroom (System.Run.access run at_ ok)).1
      have hmoved := hstep tr _ (hafter.returns tr _ [] rfl) hbefore.holds.room
        (hops.2 _ List.mem_cons_self)
      rw [collect_snoc, collect_snoc, List.nil_append, List.append_assoc, hmoved,
        ← List.append_assoc, ih hops.1]

end Collect

/-! ## Elements -/

section Elements

variable {mask esize : UInt32} {h : Fits mask esize} {tr : List (Ev ElemCall Returned)}
  {ev : Ev ElemCall Returned}

/-- The bytes of the elements that an access hands over to the reader. -/
def putBytes (h : Fits mask esize) (before : List (Ev ElemCall Returned))
    (ev : Ev ElemCall Returned) : List UInt8 :=
  match ev.acc with
  | .writeIn _ => ((elemFormat h).puts ev.op ((elemFormat h).moved before ev)).flatten
  | _ => []

def Returned.bytes : Returned → List UInt8
  | .data _ buf => buf
  | .toUser to_ _ _ => to_
  | .count _ | .fromUser _ _ | .flag _ | .nothing => []

/-- What the reader gets with an access, less the bytes of an element that it has only a part of. -/
def gotBytes (h : Fits mask esize) (before : List (Ev ElemCall Returned))
    (ev : Ev ElemCall Returned) : List UInt8 :=
  match ev.acc, ev.ret with
  | .writeOut _, some r => r.bytes.take
      ((elemFormat h).takes ev.op ((elemFormat h).moved before ev) * esize.toNat)
  | _, _ => []

/-- A call gets the bytes of the elements that it takes. -/
theorem ElemCall.Does.bytes {op : ElemCall} {q now : List (List UInt8)} {n : ℕ} {r : Returned}
    (hdoes : op.Does mask esize q now n r) (hpos : 0 < esize.toNat)
    (hnow : ∀ x ∈ now, x.length = esize.toNat) (hskip : op ≠ .skip) :
    r.bytes.take ((elemFormat h).takes op n * esize.toNat) =
      (now.take ((elemFormat h).takes op n)).flatten := by
  rw [flatten_take_elems hnow]
  cases op with
  | get =>
      obtain ⟨-, rfl⟩ := hdoes
      show ((now.take n).flatten).take (n * esize.toNat) = _
      rw [flatten_take_elems hnow, List.take_take, Nat.min_self]
      rfl
  | out l =>
      obtain ⟨-, rfl⟩ := hdoes
      show ((now.take n).flatten).take (n * esize.toNat) = _
      rw [flatten_take_elems hnow, List.take_take, Nat.min_self]
      rfl
  | toUser faults l =>
      obtain ⟨miss, err, copied, hpartly, rfl⟩ := hdoes
      obtain ⟨-, hle⟩ := hpartly.moved_le hpos
      show (now.flatten.take _).take (n * esize.toNat) = _
      rw [List.take_take, Nat.min_eq_left hle]
      rfl
  | skip => exact absurd rfl hskip
  | put val => simp [elemFormat]
  | in_ elems => simp [elemFormat]
  | fromUser elems rest faults => simp [elemFormat]
  | peek => simp [elemFormat]
  | outPeek l => simp [elemFormat]
  | len => simp [elemFormat]
  | isEmpty => simp [elemFormat]
  | isFull => simp [elemFormat]
  | avail => simp [elemFormat]

/-- The first bytes of the queue leave with what the reader gets, and what the writer puts is added at
    its end. -/
theorem delivery_step (hret : RightlyReturns (elemFormat h) (ElemCall.answers mask esize) tr ev)
    (hnow : ∀ x ∈ (elemFormat h).queue tr, x.length = esize.toNat) (hskip : ev.op ≠ .skip) :
    gotBytes h tr ev ++ ((elemFormat h).queue (tr ++ [ev])).flatten =
      ((elemFormat h).queue tr).flatten ++ putBytes h tr ev := by
  unfold Format.queue at hnow ⊢
  rw [ledger_snoc]
  obtain ⟨t, op, x, b, ret⟩ := ev
  cases x with
  | writeIn v => exact List.flatten_append
  | writeOut v =>
      -- a call takes with its last access only
      cases ret with
      | none => exact absurd rfl (hret.last rfl v).2
      | some r =>
          obtain ⟨seen, -, q, -, hdoes⟩ := hret.right r rfl
          have hbytes := ElemCall.Does.bytes (h := h) hdoes h.pos hnow hskip
          show r.bytes.take _ ++ _ = _ ++ []
          rw [hbytes, ← List.flatten_append, List.append_nil]
          exact congrArg List.flatten (List.take_append_drop _ _)
  | readIn => exact (List.append_nil _).symm
  | readOut => exact (List.append_nil _).symm
  | readByte i => exact (List.append_nil _).symm
  | writeByte i b => exact (List.append_nil _).symm

/-- No element is lost, comes twice or overtakes another one: what the reader has got and what is in
    the FIFO are what the writer has put. -/
theorem kfifo_delivers {k e : ℕ} {s : KfifoMem} (hcreated : Created k e s)
    (h : Fits s.mask s.esize) {tr : List (Ev ElemCall Returned)}
    {c : Config KfifoMem Res Thread ElemCall Returned} (hrun : (elemSystem s h).Run s tr c)
    (hskip : ∀ ev ∈ tr, ev.op ≠ .skip) :
    collect (gotBytes h) [] tr ++ ((elemFormat h).queue tr).flatten =
      collect (putBytes h) [] tr := by
  have hfresh := hcreated.fresh
  refine run_collect (P := fun op => op ≠ .skip) (elem_sound h) hfresh.in_ hfresh.out hfresh.room
    List.flatten_nil ?_ hrun hskip
  intro tr ev hret hnow hne
  exact delivery_step hret hnow.ok hne

/-- The writer has put a byte and the reader has got it. -/
theorem kfifo_delivers_two : ∃ tr : List (Ev ElemCall Returned),
    collect (gotBytes fits_two) [] tr = [7] ∧
      collect (gotBytes fits_two) [] tr ++ ((elemFormat fits_two).queue tr).flatten =
        collect (putBytes fits_two) [] tr := by
  have hinit : (elemSystem kfifoTwo fits_two).Run kfifoTwo [] _ := .nil
  have hcall := hinit.call (t := .writer) rfl
    (show (elemSystem kfifoTwo fits_two).enabled [] _ .writer (.put [7]) from rfl) 0
  have hreadIn := hcall.access (t := .writer) rfl rfl
  have hreadOut := hreadIn.access (t := .writer) rfl rfl
  have hplace := hreadOut.access (t := .writer) rfl rfl
  have hbyte := hplace.access (t := .writer) rfl rfl
  have hagain := hbyte.access (t := .writer) rfl rfl
  have hput := hagain.access (t := .writer) rfl rfl
  have hcall' := hput.call (t := .reader) rfl
    (show (elemSystem kfifoTwo fits_two).enabled _ _ .reader .get from trivial) 0
  have hreadIn' := hcall'.access (t := .reader) rfl rfl
  have hreadOut' := hreadIn'.access (t := .reader) rfl rfl
  have hplace' := hreadOut'.access (t := .reader) rfl rfl
  have hbyte' := hplace'.access (t := .reader) rfl rfl
  have hagain' := hbyte'.access (t := .reader) rfl rfl
  have hgot := hagain'.access (t := .reader) rfl rfl
  refine ⟨_, ?_, kfifo_delivers created_two fits_two hgot ?_⟩
  · rfl
  · intro ev hev
    simp only [List.nil_append, List.cons_append, List.mem_cons, List.not_mem_nil, or_false]
      at hev
    rcases hev with rfl | rfl | rfl | rfl | rfl | rfl | rfl | rfl | rfl | rfl | rfl | rfl
    all_goals exact nofun

end Elements

/-! ## Records -/

section Records

variable {mask : UInt32} {h : Fits mask 1} {recsize : ℕ} {tr : List (Ev RecCall Returned)}
  {ev : Ev RecCall Returned}

/-- The record that an access hands over to the reader. -/
def putRecords (h : Fits mask 1) (recsize : ℕ) (before : List (Ev RecCall Returned))
    (ev : Ev RecCall Returned) : List (List UInt8) :=
  match ev.acc with
  | .writeIn _ => (recFormat h recsize).puts ev.op ((recFormat h recsize).moved before ev)
  | _ => []

/-- The record that the reader gets with an access. -/
def gotRecords (h : Fits mask 1) (recsize : ℕ) (before : List (Ev RecCall Returned))
    (ev : Ev RecCall Returned) : List (List UInt8) :=
  match ev.acc, ev.ret with
  | .writeOut _, some r => [r.bytes].take
      ((recFormat h recsize).takes ev.op ((recFormat h recsize).moved before ev))
  | _, _ => []

/-- A call that leaves no part of a record behind: it offers room for all that there may be. -/
def RecCall.TakesWhole (recsize : ℕ) : RecCall → Prop
  | .out l => 256 ^ recsize ≤ l.toNat + 1
  | .toUser _ l => 256 ^ recsize ≤ l.toNat + 1
  | .skip => False
  | .in_ _ | .fromUser _ _ | .outPeek _ | .peekLen | .len | .isEmpty | .isFull | .avail => True

theorem take_head {x : List UInt8} {now : List (List UInt8)} (n : ℕ) (hhead : now.head? = some x) :
    [x].take (min n 1) = now.take (min n 1) := by
  obtain ⟨rest, rfl⟩ := List.head?_eq_some_iff.1 hhead
  exact (take_front (List.prefix_append [x] rest) (Nat.min_le_right _ _)).symm

theorem RecCall.Does.bytes {op : RecCall} {q now : List (List UInt8)} {n : ℕ} {r : Returned}
    (hdoes : op.Does mask recsize q now n r) (hnow : ∀ x ∈ now, x.length < 256 ^ recsize)
    (hwhole : op.TakesWhole recsize) :
    [r.bytes].take ((recFormat h recsize).takes op n) =
      now.take ((recFormat h recsize).takes op n) := by
  cases op with
  | out l =>
      change 256 ^ recsize ≤ l.toNat + 1 at hwhole
      dsimp only [RecCall.Does] at hdoes
      by_cases hq : q = []
      · rw [if_pos hq] at hdoes
        rw [hdoes.1]
        rfl
      · rw [if_neg hq] at hdoes
        obtain ⟨x, hhead, -, rfl⟩ := hdoes
        have hx := hnow x (List.mem_of_head? hhead)
        have hall : x.take l.toNat = x := List.take_of_length_le (by omega)
        rw [hall]
        exact take_head n hhead
  | toUser faults l =>
      change 256 ^ recsize ≤ l.toNat + 1 at hwhole
      dsimp only [RecCall.Does] at hdoes
      by_cases hq : q = []
      · rw [if_pos hq] at hdoes
        rw [hdoes.1]
        rfl
      · rw [if_neg hq] at hdoes
        obtain ⟨x, miss, hhead, -, -, hdoes⟩ := hdoes
        have hx := hnow x (List.mem_of_head? hhead)
        have hall : x.take l.toNat = x := List.take_of_length_le (by omega)
        by_cases hzero : miss = 0
        · rw [if_pos hzero] at hdoes
          rw [hdoes.2, hall]
          exact take_head n hhead
        · rw [if_neg hzero] at hdoes
          rw [hdoes.1]
          rfl
  | skip => exact hwhole.elim
  | in_ buf => rfl
  | fromUser from_ faults => rfl
  | outPeek l => rfl
  | peekLen => rfl
  | len => rfl
  | isEmpty => rfl
  | isFull => rfl
  | avail => rfl

theorem record_step
    (hret : RightlyReturns (recFormat h recsize) (RecCall.answers mask recsize) tr ev)
    (hnow : ∀ x ∈ (recFormat h recsize).queue tr, x.length < 256 ^ recsize)
    (hwhole : ev.op.TakesWhole recsize) :
    gotRecords h recsize tr ev ++ (recFormat h recsize).queue (tr ++ [ev]) =
      (recFormat h recsize).queue tr ++ putRecords h recsize tr ev := by
  unfold Format.queue at hnow ⊢
  rw [ledger_snoc]
  obtain ⟨t, op, x, b, ret⟩ := ev
  cases x with
  | writeIn v => rfl
  | writeOut v =>
      -- a call takes with its last access only
      cases ret with
      | none => exact absurd rfl (hret.last rfl v).2
      | some r =>
          obtain ⟨seen, -, q, -, hdoes⟩ := hret.right r rfl
          have hbytes := RecCall.Does.bytes (h := h) hdoes hnow hwhole
          show [r.bytes].take _ ++ _ = _ ++ []
          rw [hbytes, List.append_nil]
          exact List.take_append_drop _ _
  | readIn => exact (List.append_nil _).symm
  | readOut => exact (List.append_nil _).symm
  | readByte i => exact (List.append_nil _).symm
  | writeByte i b => exact (List.append_nil _).symm

end Records

end StructLib.Kfifo
