import StructLib.Kfifo.Threads

set_option autoImplicit false

/-! # Copying to and from the buffer

What the functions that copy do, as rules for calls of the writer and of the reader. A copy that runs
over the end of the buffer goes on at its beginning. -/

namespace StructLib.Kfifo

variable {Op Item β : Type} {F : Format Op Item} {op : Op} {last : Prop} {K : Known Item}
  {Q : β → ℕ → Known Item → Prop} {own len : UInt32} {i j l n u : ℕ} {q : List Item}

/-! ## Places -/

/-- The element `u` places on. -/
theorem start_units : F.start (own + .ofNat u) % F.cells =
    (F.start own + u * F.esize.toNat) % F.cells := F.fits.start_add u

/-- A byte before the end of the buffer. -/
theorem place_before (h : F.start (own + .ofNat u) + i < F.cells) :
    F.start (own + .ofNat u) + i = around F.cells (F.start own) (u * F.esize.toNat + i) := by
  rw [around_add, ← around_congr start_units, around_of_lt h]

/-- A byte past the end. -/
theorem place_past (h : F.start (own + .ofNat u) + l = F.cells) (hi : i < F.cells) :
    0 + i = around F.cells (F.start own) (u * F.esize.toNat + (l + i)) := by
  rw [around_add, ← around_congr start_units, around_of_le (by omega) (by omega)]
  omega

/-- The two parts of a span that begins `u` elements on from `own`. -/
theorem exists_span (own : UInt32) (u : ℕ) (hlen : len.toNat ≤ F.mask.toNat + 1) : ∃ o l m,
    span F.mask F.esize len (own + .ofNat u) = (o, l, m) ∧ m.toNat = len.toNat * F.esize.toNat ∧
      l.toNat ≤ m.toNat ∧ (m - l).toNat = m.toNat - l.toNat ∧
      (∀ i, i < l.toNat → o.toNat + i = around F.cells (F.start own) (u * F.esize.toNat + i)) ∧
      ∀ i, i < m.toNat - l.toNat →
        0 + i = around F.cells (F.start own) (u * F.esize.toNat + l.toNat + i) := by
  obtain ⟨o, l, m, hspan, ho, hm, hl⟩ := F.fits.span_eq (own + .ofNat u) hlen
  have ho' : o.toNat = F.start (own + .ofNat u) := ho
  have hlt : F.start (own + .ofNat u) < F.cells := F.fits.start_lt
  have hcells : Kfifo.cells F.mask F.esize = F.cells := rfl
  have hm' : m.toNat ≤ F.cells := hm.trans_le (Nat.mul_le_mul_right _ hlen)
  rw [hcells] at hl
  have hle : l.toNat ≤ m.toNat := by omega
  refine ⟨o, l, m, hspan, hm, hle, UInt32.toNat_sub_of_le _ _ hle, ?_, ?_⟩
  · intro i hi
    rw [ho']
    exact place_before (by omega)
  · intro i hi
    rw [Nat.add_assoc]
    exact place_past (by omega) (by omega)

/-! ## Bytes -/

@[simp] theorem Known.stage_nil : K.stage [] = K := by
  unfold Known.stage
  rw [List.append_nil]

@[simp] theorem Known.stage_stage (bs bs' : List UInt8) :
    (K.stage bs).stage bs' = K.stage (bs ++ bs') := by
  unfold Known.stage
  rw [List.append_assoc]

theorem writes_memcpyTo {off : ℕ} {bs : List UInt8} {f : Unit → Prog Res β}
    (hplace : ∀ i, i < bs.length →
      off + i = around F.cells (F.start K.own) (K.staged.length + i))
    (hroom : (F.encode K.base).length + K.staged.length + bs.length ≤ F.cells)
    (h : Writes F op last (f ()) Q (K.stage bs)) : Writes F op last (memcpyTo off bs >>= f) Q K := by
  induction bs generalizing off K with
  | nil =>
      rw [Known.stage_nil] at h
      exact h
  | cons b bs ih =>
      rw [List.length_cons] at hroom
      have hlen : (K.stage [b]).staged.length = K.staged.length + 1 := by
        show (K.staged ++ [b]).length = _
        rw [List.length_append, List.length_singleton]
      refine writes_writeByte (hplace 0 (Nat.succ_pos _)) (by omega) (ih ?_ ?_ ?_)
      · intro i hi
        have hnext := hplace (i + 1) (by rw [List.length_cons]; omega)
        rw [hlen, Nat.add_assoc, Nat.add_assoc, Nat.add_comm 1 i]
        exact hnext
      · show (F.encode K.base).length + _ + _ ≤ _
        rw [hlen]
        omega
      · rw [Known.stage_stage]
        exact h

theorem reads_memcpyFrom {off : ℕ} {f : List UInt8 → Prog Res β}
    (hplace : ∀ i, i < n → off + i = around F.cells (F.start K.own) (j + i))
    (hle : j + n ≤ (F.encode K.base).length)
    (h : Reads F op last (f (((F.encode K.base).drop j).take n)) Q K) :
    Reads F op last (memcpyFrom off n >>= f) Q K := by
  induction n generalizing off j f with
  | zero =>
      rw [List.take_zero] at h
      exact h
  | succ n ih =>
      have hlt : j < (F.encode K.base).length := by omega
      refine reads_readByte (List.getElem?_eq_getElem hlt) (hplace 0 (Nat.succ_pos _)) ?_
      show Reads F op last
        ((memcpyFrom (off + 1) n >>= fun bs => pure ((F.encode K.base)[j] :: bs)) >>= f) Q K
      rw [Prog.bind_assoc]
      refine ih (j := j + 1) ?_ (by omega) ?_
      · intro i hi
        have hnext := hplace (i + 1) (by omega)
        rw [Nat.add_assoc, Nat.add_assoc, Nat.add_comm 1 i]
        exact hnext
      · rw [List.drop_eq_getElem_cons hlt, List.take_succ_cons] at h
        exact h

/-! ## Copies -/

theorem writes_kfifoCopyIn {src : List UInt8} {off : UInt32} {f : Unit → Prog Res β}
    (hoff : off = K.own + .ofNat u) (hstaged : K.staged.length = u * F.esize.toNat)
    (hsrc : len.toNat * F.esize.toNat ≤ src.length)
    (hroom : (F.encode K.base).length + K.staged.length + len.toNat * F.esize.toNat ≤ F.cells)
    (h : Writes F op last (f ()) Q (K.stage (src.take (len.toNat * F.esize.toNat)))) :
    Writes F op last (kfifoCopyIn F.mask F.esize src len off >>= f) Q K := by
  subst hoff
  have hlen : len.toNat ≤ F.mask.toNat + 1 :=
    Nat.le_of_mul_le_mul_right (Nat.le_trans (by omega) hroom) F.fits.pos
  obtain ⟨o, l, m, hspan, hm, hl, hsub, hbefore, hpast⟩ := exists_span K.own u hlen
  unfold kfifoCopyIn
  rw [hspan]
  dsimp only
  rw [Prog.bind_assoc]
  have hl₁ : (src.take l.toNat).length = l.toNat := List.length_take_of_le (by omega)
  have hl₂ : ((src.drop l.toNat).take (m - l).toNat).length = m.toNat - l.toNat := by
    rw [List.length_take_of_le, hsub]
    rw [List.length_drop]
    omega
  refine writes_memcpyTo ?_ (by omega) ?_
  · intro i hi
    rw [hstaged]
    exact hbefore i (hl₁ ▸ hi)
  -- the part at the beginning of the buffer
  refine writes_memcpyTo ?_ ?_ ?_
  · intro i hi
    rw [hl₂] at hi
    have hlen' : (K.stage (src.take l.toNat)).staged.length = u * F.esize.toNat + l.toNat := by
      show (K.staged ++ _).length = _
      rw [List.length_append, hl₁, hstaged]
    rw [hlen']
    exact hpast i hi
  · show (F.encode K.base).length + (K.staged ++ _).length + _ ≤ _
    rw [List.length_append, hl₁, hl₂]
    omega
  · have hjoin : src.take l.toNat ++ (src.drop l.toNat).take (m - l).toNat =
        src.take (len.toNat * F.esize.toNat) := by
      rw [hsub, ← List.take_add, Nat.add_sub_of_le hl, hm]
    rw [Known.stage_stage, hjoin]
    exact h

theorem reads_kfifoCopyOut {off : UInt32} {f : List UInt8 → Prog Res β}
    (hoff : off = K.own + .ofNat u)
    (hle : u * F.esize.toNat + len.toNat * F.esize.toNat ≤ (F.encode K.base).length)
    (hbase : F.Room K.base)
    (h : Reads F op last (f (((F.encode K.base).drop (u * F.esize.toNat)).take
      (len.toNat * F.esize.toNat))) Q K) :
    Reads F op last (kfifoCopyOut F.mask F.esize len off >>= f) Q K := by
  have hcells := hbase.le
  subst hoff
  have hlen : len.toNat ≤ F.mask.toNat + 1 :=
    Nat.le_of_mul_le_mul_right (Nat.le_trans (by omega) hcells) F.fits.pos
  obtain ⟨o, l, m, hspan, hm, hl, hsub, hbefore, hpast⟩ := exists_span K.own u hlen
  unfold kfifoCopyOut
  rw [hspan]
  dsimp only
  rw [Prog.bind_assoc]
  refine reads_memcpyFrom hbefore (by omega) ?_
  rw [Prog.bind_assoc]
  refine reads_memcpyFrom (hsub ▸ hpast) (by omega) ?_
  · rw [← hm] at h
    rw [hsub, ← List.drop_drop]
    show Reads F op last (f (_ ++ _)) Q K
    rw [← List.take_add, Nat.add_sub_of_le hl]
    exact h

/-! ## Copies that may fail -/

theorem writes_copyFromUser {fault off : ℕ} {bs : List UInt8} {f : ℕ → Prog Res β}
    (hplace : ∀ i, i < bs.length →
      off + i = around F.cells (F.start K.own) (K.staged.length + i))
    (hroom : (F.encode K.base).length + K.staged.length + bs.length ≤ F.cells)
    (h : Writes F op last (f (min fault bs.length)) Q
      (K.stage (bs.take (bs.length - min fault bs.length) ++
        List.replicate (min fault bs.length) 0))) :
    Writes F op last (copyFromUser fault off bs >>= f) Q K := by
  have hlen : (bs.take (bs.length - min fault bs.length) ++
      List.replicate (min fault bs.length) (0 : UInt8)).length = bs.length := by
    rw [List.length_append, List.length_take, List.length_replicate]
    omega
  unfold copyFromUser
  dsimp only
  rw [Prog.bind_assoc]
  refine writes_memcpyTo ?_ (by omega) h
  intro i hi
  exact hplace i (by omega)

theorem divRoundUp_zero {d : ℕ} (hd : 0 < d) : divRoundUp 0 d = 0 := Nat.div_eq_of_lt (by omega)

theorem divRoundUp_of_ne {d : ℕ} (hd : 0 < d) :
    (if n ≠ 0 then divRoundUp n d else n) = divRoundUp n d := by
  by_cases hzero : n = 0
  · rw [if_neg (not_not.2 hzero), hzero, divRoundUp_zero hd]
  · rw [if_pos hzero]

/-- Of the elements at `src`, `miss` bytes or more have not been copied. -/
theorem writes_kfifoCopyFromUser {src : List UInt8} {faults : ℕ × ℕ} {f : ℕ × UInt32 → Prog Res β}
    {off : UInt32} {m : ℕ} (hoff : off = K.own + .ofNat u) (hm : m = len.toNat * F.esize.toNat)
    (hstaged : K.staged.length = u * F.esize.toNat)
    (hsrc : m ≤ src.length) (hroom : (F.encode K.base).length + K.staged.length + m ≤ F.cells)
    (h : ∀ miss bs, miss ≤ m → (faults = (0, 0) → miss = 0) → src.take (m - miss) <+: bs →
      bs.length ≤ m → Writes F op last
        (f (divRoundUp miss F.esize.toNat, .ofNat (m - divRoundUp miss F.esize.toNat))) Q
        (K.stage bs)) :
    Writes F op last (kfifoCopyFromUser F.mask F.esize src faults len off >>= f) Q K := by
  subst hoff
  have hlen : len.toNat ≤ F.mask.toNat + 1 :=
    Nat.le_of_mul_le_mul_right (Nat.le_trans (by omega) hroom) F.fits.pos
  obtain ⟨o, l, m', hspan, hm', hl, hsub, hbefore, hpast⟩ := exists_span K.own u hlen
  rw [← hm] at hm'
  unfold kfifoCopyFromUser
  rw [hspan]
  dsimp only
  rw [hm', hsub, hm']
  rw [hm'] at hl hpast
  have hl₁ : (src.take l.toNat).length = l.toNat := List.length_take_of_le (by omega)
  have hl₂ : ((src.drop l.toNat).take (m - l.toNat)).length = m - l.toNat := by
    rw [List.length_take_of_le]
    rw [List.length_drop]
    omega
  rw [Prog.bind_assoc]
  refine writes_copyFromUser ?_ (by omega) ?_
  · intro i hi
    rw [hstaged]
    exact hbefore i (hl₁ ▸ hi)
  rw [hl₁]
  by_cases hret : min faults.1 l.toNat ≠ 0
  · -- the second part is not copied
    rw [if_pos hret]
    have htake : (src.take l.toNat).take (l.toNat - min faults.1 l.toNat) =
        src.take (m - (min faults.1 l.toNat + (m - l.toNat))) := by
      rw [List.take_take]
      congr 1
      omega
    refine h _ _ (by omega) ?_ ?_ ?_
    · rintro rfl
      simp at hret
    · rw [← htake]
      exact List.prefix_append _ _
    · rw [List.length_append, List.length_take, List.length_replicate, hl₁]
      omega
  · rw [not_not] at hret
    rw [if_neg (not_not.2 hret), hret, Nat.sub_zero, List.take_take, Nat.min_self,
      List.replicate_zero, List.append_nil, Prog.bind_assoc]
    have hlen' : (K.stage (src.take l.toNat)).staged.length = u * F.esize.toNat + l.toNat := by
      show (K.staged ++ _).length = _
      rw [List.length_append, hl₁, hstaged]
    refine writes_copyFromUser ?_ ?_ ?_
    · intro i hi
      rw [hlen']
      exact hpast i (hl₂ ▸ hi)
    · show (F.encode K.base).length + (K.stage (src.take l.toNat)).staged.length + _ ≤ _
      omega
    · have htake : src.take l.toNat ++ ((src.drop l.toNat).take (m - l.toNat)).take
          (m - l.toNat - min faults.2 (m - l.toNat)) = src.take (m - min faults.2 (m - l.toNat)) := by
        rw [List.take_take, Nat.min_eq_left (by omega), ← List.take_add]
        congr 1
        omega
      rw [hl₂, Known.stage_stage, divRoundUp_of_ne F.fits.pos]
      refine h _ _ (by omega) ?_ ?_ ?_
      · rintro rfl
        simp
      · rw [← htake, ← List.append_assoc]
        exact List.prefix_append _ _
      · simp only [List.length_append, List.length_take, List.length_replicate, List.length_drop]
        omega

theorem reads_copyToUser {fault off : ℕ} {f : List UInt8 × ℕ → Prog Res β}
    (hplace : ∀ i, i < n → off + i = around F.cells (F.start K.own) (j + i))
    (hle : j + n ≤ (F.encode K.base).length)
    (h : Reads F op last (f (((F.encode K.base).drop j).take (n - min fault n), min fault n)) Q K) :
    Reads F op last (copyToUser fault off n >>= f) Q K := by
  unfold copyToUser
  dsimp only
  rw [Prog.bind_assoc]
  refine reads_memcpyFrom ?_ (by omega) h
  intro i hi
  exact hplace i (by omega)

theorem reads_kfifoCopyToUser {faults : ℕ × ℕ} {f : List UInt8 × ℕ × UInt32 → Prog Res β}
    {off : UInt32} {m : ℕ} (hoff : off = K.own + .ofNat u) (hm : m = len.toNat * F.esize.toNat)
    (hle : u * F.esize.toNat + m ≤ (F.encode K.base).length) (hbase : F.Room K.base)
    (h : ∀ miss, miss ≤ m → (faults = (0, 0) → miss = 0) → Reads F op last
      (f (((F.encode K.base).drop (u * F.esize.toNat)).take (m - miss), divRoundUp miss F.esize.toNat,
        .ofNat (m - divRoundUp miss F.esize.toNat))) Q K) :
    Reads F op last (kfifoCopyToUser F.mask F.esize faults len off >>= f) Q K := by
  have hcells := hbase.le
  subst hoff
  have hlen : len.toNat ≤ F.mask.toNat + 1 :=
    Nat.le_of_mul_le_mul_right (Nat.le_trans (by omega) hcells) F.fits.pos
  obtain ⟨o, l, m', hspan, hm', hl, hsub, hbefore, hpast⟩ := exists_span K.own u hlen
  rw [← hm] at hm'
  unfold kfifoCopyToUser
  rw [hspan]
  dsimp only
  rw [hm', hsub, hm']
  rw [hm'] at hl hpast
  rw [Prog.bind_assoc]
  refine reads_copyToUser hbefore (by omega) ?_
  dsimp only
  by_cases hret : min faults.1 l.toNat ≠ 0
  · rw [if_pos hret]
    have hcut : l.toNat - min faults.1 l.toNat = m - (min faults.1 l.toNat + (m - l.toNat)) := by omega
    rw [hcut]
    refine h _ (by omega) ?_
    rintro rfl
    simp at hret
  · rw [not_not] at hret
    rw [if_neg (not_not.2 hret), hret, Nat.sub_zero, Prog.bind_assoc]
    refine reads_copyToUser hpast (by omega) ?_
    dsimp only
    rw [divRoundUp_of_ne F.fits.pos, ← List.drop_drop]
    have hjoin : ((F.encode K.base).drop (u * F.esize.toNat)).take l.toNat ++
        (((F.encode K.base).drop (u * F.esize.toNat)).drop l.toNat).take
          (m - l.toNat - min faults.2 (m - l.toNat)) =
        ((F.encode K.base).drop (u * F.esize.toNat)).take (m - min faults.2 (m - l.toNat)) := by
      rw [← List.take_add]
      congr 1
      omega
    show Reads F op last (f (_ ++ _, _, _)) Q K
    rw [hjoin]
    refine h _ (by omega) ?_
    rintro rfl
    simp

/-! ## How many elements there are -/

theorem sub_sub_self_uint (v w : UInt32) : v - (v - w) = w := by
  have h : v - w + w - (v - w) = w := by rw [UInt32.add_comm, UInt32.add_sub_cancel]
  rwa [UInt32.sub_add_cancel] at h

theorem writes_kfifoLen {f : UInt32 → Prog Res β}
    (h : ∀ q n, F.Room q → (F.encode q).length ≤ (F.encode K.base).length → n.toNat = F.units q →
      Writes F op last (f n) Q (K.see q)) : Writes F op last (kfifoLen >>= f) Q K := by
  refine writes_bind (writes_readIn (writes_readOut ?_))
  intro q hq hle
  refine h q _ hq hle ?_
  rw [sub_sub_self_uint]
  exact hq.toNat_units

theorem reads_kfifoLen {f : UInt32 → Prog Res β}
    (h : ∀ q n, F.Room q → K.base <+: q → n.toNat = F.units q →
      Reads F op last (f n) Q (K.see q)) : Reads F op last (kfifoLen >>= f) Q K := by
  refine reads_bind (reads_readIn ?_)
  intro q hq hle
  refine reads_readOut (h q _ hq hle ?_)
  show (K.own + .ofNat (F.units q) - K.own).toNat = _
  rw [UInt32.add_comm, UInt32.add_sub_cancel]
  exact hq.toNat_units

theorem writes_kfifoUnused {f : UInt32 → Prog Res β}
    (h : ∀ q n, F.Room q → (F.encode q).length ≤ (F.encode K.base).length →
      n.toNat = F.mask.toNat + 1 - F.units q → Writes F op last (f n) Q (K.see q)) :
    Writes F op last (kfifoUnused F.mask >>= f) Q K := by
  refine writes_bind (writes_readIn (writes_readOut ?_))
  intro q hq hle
  refine h q _ hq hle ?_
  have hunits := hq.toNat_units
  rw [sub_sub_self_uint, UInt32.toNat_sub_of_le, F.fits.toNat_size, hunits]
  rw [UInt32.le_iff_toNat_le, F.fits.toNat_size, hunits]
  exact hq.units_le

/-- The indexes are equal only where there is nothing between them. -/
theorem Format.Room.add_units_eq (h : F.Room q) (v : UInt32) :
    v + .ofNat (F.units q) = v ↔ F.units q = 0 := by
  rw [← UInt32.toNat_inj, UInt32.toNat_add, h.toNat_units]
  have hlt := h.units_le.trans_lt F.fits.size_lt
  have hv := v.toNat_lt
  omega

theorem writes_kfifoIsEmpty {f : Bool → Prog Res β}
    (h : ∀ q, F.Room q → (F.encode q).length ≤ (F.encode K.base).length →
      Writes F op last (f (decide (F.units q = 0))) Q (K.see q)) :
    Writes F op last (kfifoIsEmpty >>= f) Q K := by
  refine writes_bind (writes_readIn (writes_readOut ?_))
  intro q hq hle
  have hempty : K.own = K.own - .ofNat (F.units q) ↔ F.units q = 0 := by
    rw [← hq.add_units_eq (K.own - .ofNat (F.units q)), UInt32.sub_add_cancel]
  have hbool : decide (K.own = K.own - .ofNat (F.units q)) = decide (F.units q = 0) :=
    decide_eq_decide.2 hempty
  show Writes F op last (f (decide (K.own = K.own - .ofNat (F.units q)))) Q (K.see q)
  rw [hbool]
  exact h q hq hle

theorem reads_kfifoIsEmpty {f : Bool → Prog Res β}
    (h : ∀ q, F.Room q → K.base <+: q →
      Reads F op last (f (decide (F.units q = 0))) Q (K.see q)) :
    Reads F op last (kfifoIsEmpty >>= f) Q K := by
  refine reads_bind (reads_readIn ?_)
  intro q hq hle
  refine reads_readOut ?_
  have hbool : decide (K.own + .ofNat (F.units q) = K.own) = decide (F.units q = 0) :=
    decide_eq_decide.2 (hq.add_units_eq K.own)
  show Reads F op last (f (decide (K.own + .ofNat (F.units q) = K.own))) Q (K.see q)
  rw [hbool]
  exact h q hq hle

/-! ## Calls that only ask -/

section Questions

variable {ρ : Type} {answers : Answers Op ρ Item} {code : Prog Res ρ} {base : List Item}

/-- A call that only asks how much there is in the FIFO. -/
structure Asks (F : Format Op Item) (answers : Answers Op ρ Item) (op : Op) (code : Prog Res ρ)
    (g : UInt32 → ρ) : Prop where
  code_eq : code = do return g (← kfifoLen)
  does : ∀ q now n, F.Room q → n.toNat = F.units q → answers op (some q) now 0 (g n)

theorem Asks.writes {g : UInt32 → ρ} (h : Asks F answers op code g) :
    Writes F op True code (WriterEnds F answers op) (.first own base) := by
  rw [h.code_eq]
  refine writes_kfifoLen ?_
  intro q n hq _ hn now _ _
  exact h.does q now n hq hn

theorem Asks.reads {g : UInt32 → ρ} (h : Asks F answers op code g) :
    Reads F op True code (ReaderEnds F answers op) (.first own base) := by
  rw [h.code_eq]
  refine reads_kfifoLen ?_
  intro q n hq _ hn now _ _
  exact h.does q now n hq hn

/-- A call that only asks whether there is anything in the FIFO. -/
structure AsksEmpty (F : Format Op Item) (answers : Answers Op ρ Item) (op : Op)
    (code : Prog Res ρ) (g : Bool → ρ) : Prop where
  code_eq : code = do return g (← kfifoIsEmpty)
  does : ∀ q now, F.Room q → answers op (some q) now 0 (g (decide (F.units q = 0)))

theorem AsksEmpty.writes {g : Bool → ρ} (h : AsksEmpty F answers op code g) :
    Writes F op True code (WriterEnds F answers op) (.first own base) := by
  rw [h.code_eq]
  refine writes_kfifoIsEmpty ?_
  intro q hq _ now _ _
  exact h.does q now hq

theorem AsksEmpty.reads {g : Bool → ρ} (h : AsksEmpty F answers op code g) :
    Reads F op True code (ReaderEnds F answers op) (.first own base) := by
  rw [h.code_eq]
  refine reads_kfifoIsEmpty ?_
  intro q hq _ now _ _
  exact h.does q now hq

/-- Whether the FIFO is full, of which `u` elements are in use. -/
theorem lt_iff_full {mask n : UInt32} (hn : n.toNat = u) (hle : u ≤ mask.toNat + 1) :
    n > mask ↔ u = mask.toNat + 1 := by
  rw [gt_iff_lt, UInt32.lt_iff_toNat_lt]
  omega

/-- What is not in use. -/
theorem Fits.toNat_avail {mask esize n : UInt32} (h : Fits mask esize) (hn : n.toNat = u)
    (hle : u ≤ mask.toNat + 1) : ((mask + 1) - n).toNat = mask.toNat + 1 - u := by
  rw [UInt32.toNat_sub_of_le, h.toNat_size, hn]
  rwa [UInt32.le_iff_toNat_le, h.toNat_size, hn]

end Questions

end StructLib.Kfifo
