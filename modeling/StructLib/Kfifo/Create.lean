import StructLib.Kfifo.Buffer

set_option autoImplicit false

/-! # New FIFOs

`__kfifo_alloc` and `__kfifo_init` round the number of elements down to a power of two. -/

namespace StructLib.Kfifo

variable {size n : UInt32} {esize : UInt64} {s s' : KfifoMem}

theorem toNat_roundSize (h : (roundSize size).run s = .ok (n, s')) :
    s' = s ∧ n.toNat = 2 ^ size.toNat.log2 ∧ size ≠ 0 := by
  unfold roundSize at h
  by_cases hpower : isPowerOf2 size = true
  · rw [if_pos hpower] at h
    have hpair : (size, s) = (n, s') := Except.ok.inj h
    obtain ⟨rfl, rfl⟩ := Prod.mk.inj hpair
    unfold isPowerOf2 at hpower
    rw [Bool.and_eq_true, decide_eq_true_eq, decide_eq_true_eq] at hpower
    obtain ⟨hne, hand⟩ := hpower
    have hpos : size.toNat ≠ 0 := fun h0 => hne (UInt32.toNat_inj.1 h0)
    have hsub : (size - 1).toNat = size.toNat - 1 :=
      UInt32.toNat_sub_of_le _ _ (UInt32.le_iff_toNat_le.2 (Nat.pos_of_ne_zero hpos))
    have hnat : size.toNat &&& (size.toNat - 1) = 0 := by
      rw [← hsub, ← UInt32.toNat_and, hand]
      rfl
    -- what `is_power_of_2` tests
    obtain ⟨k, hk⟩ := (Nat.and_sub_one_eq_zero_iff_isPowerOfTwo hpos).1 hnat
    refine ⟨rfl, ?_, hne⟩
    rw [hk, Nat.log2_two_pow]
  · rw [if_neg hpower] at h
    unfold rounddownPowOfTwo at h
    by_cases hzero : size = 0
    · rw [if_pos hzero] at h
      cases h
    · rw [if_neg hzero] at h
      have hpair : (UInt32.ofNat (2 ^ size.toNat.log2), s) = (n, s') := Except.ok.inj h
      obtain ⟨rfl, rfl⟩ := Prod.mk.inj hpair
      have hpos : size.toNat ≠ 0 := fun h0 => hzero (UInt32.toNat_inj.1 h0)
      refine ⟨rfl, ?_, hzero⟩
      rw [UInt32.toNat_ofNat']
      exact Nat.mod_eq_of_lt ((Nat.log2_self_le hpos).trans_lt size.toNat_lt)

/-- A FIFO for `k` entries of `e` bytes, with nothing in it. -/
structure Fresh (k e : ℕ) (s : KfifoMem) : Prop where
  fits : Fits s.mask s.esize
  mask : s.mask.toNat + 1 = k
  esize : s.esize.toNat = e
  room : cells s.mask s.esize ≤ s.room
  in_ : s.in_ = 0
  out : s.out = 0

/-- The fields that both functions set. -/
theorem fresh_of_round (hround : n.toNat = 2 ^ size.toNat.log2) (htwo : ¬ n < 2)
    (hpos : esize ≠ 0) (hsmall : 2 ^ size.toNat.log2 * esize.toNat < 2 ^ 32)
    (hmask : s.mask = n - 1) (hesize : s.esize = esize.toUInt32)
    (hroom : 2 ^ size.toNat.log2 * esize.toNat ≤ s.room) (hin : s.in_ = 0) (hout : s.out = 0) :
    Fresh (2 ^ size.toNat.log2) esize.toNat s := by
  have htwo' : 2 ≤ n.toNat := UInt32.not_lt.1 htwo
  have hesize' : s.esize.toNat = esize.toNat := by
    have hle : esize.toNat ≤ 2 ^ size.toNat.log2 * esize.toNat :=
      Nat.le_mul_of_pos_left _ (Nat.two_pow_pos _)
    rw [hesize, UInt64.toNat_toUInt32]
    exact Nat.mod_eq_of_lt (hle.trans_lt hsmall)
  have hmask' : s.mask.toNat + 1 = 2 ^ size.toNat.log2 := by
    have hsub : (n - 1).toNat = n.toNat - 1 :=
      UInt32.toNat_sub_of_le _ _ (UInt32.le_iff_toNat_le.2 (Nat.le_of_succ_le htwo'))
    rw [hmask, hsub, ← hround]
    omega
  refine ⟨⟨⟨_, hmask'⟩, ?_, ?_⟩, hmask', hesize', ?_, hin, hout⟩
  · rw [hesize']
    exact Nat.pos_of_ne_zero fun h0 => hpos (UInt64.toNat_inj.1 h0)
  · rwa [hmask', hesize']
  · unfold cells
    rwa [hmask', hesize']

theorem kfifoAlloc_fresh {kmalloc : UInt64 → Option (ℕ → UInt8)} (hpos : esize ≠ 0)
    (hsmall : 2 ^ size.toNat.log2 * esize.toNat < 2 ^ 32)
    (h : (kfifoAlloc kmalloc size esize).run s = .ok (0, s')) :
    Fresh (2 ^ size.toNat.log2) esize.toNat s' := by
  unfold kfifoAlloc at h
  obtain ⟨n, s₁, hn, hrest⟩ := Exec.of_run_bind h
  obtain ⟨rfl, hround, -⟩ := toNat_roundSize hn
  obtain ⟨_, s₂, hs₂, hlast⟩ := Exec.of_run_bind hrest
  cases hs₂
  by_cases htwo : n < 2
  · rw [if_pos htwo] at hlast
    cases hlast
  · rw [if_neg htwo] at hlast
    cases hmem : kmalloc (n.toUInt64 * esize) with
    | none =>
        rw [hmem] at hlast
        cases hlast
    | some data =>
        rw [hmem] at hlast
        cases hlast
        refine fresh_of_round hround htwo hpos hsmall rfl rfl ?_ rfl rfl
        show _ ≤ (n.toUInt64 * esize).toNat
        rw [UInt64.toNat_mul, UInt32.toNat_toUInt64, hround]
        exact (Nat.mod_eq_of_lt (hsmall.trans (by decide))).ge

theorem kfifoInit_fresh {buffer : ℕ → UInt8}
    (h : (kfifoInit buffer size esize).run s = .ok (0, s')) :
    Fresh (2 ^ (size.toNat / esize.toNat).log2) esize.toNat s' := by
  unfold kfifoInit at h
  by_cases hzero : esize = 0
  · rw [if_pos hzero] at h
    cases h
  · rw [if_neg hzero] at h
    have hcount : (size.toUInt64 / esize).toUInt32.toNat = size.toNat / esize.toNat := by
      rw [UInt64.toNat_toUInt32, UInt64.toNat_div, UInt32.toNat_toUInt64]
      exact Nat.mod_eq_of_lt ((Nat.div_le_self _ _).trans_lt size.toNat_lt)
    obtain ⟨n, s₁, hn, hrest⟩ := Exec.of_run_bind h
    obtain ⟨rfl, hround, hne⟩ := toNat_roundSize hn
    obtain ⟨_, s₂, hs₂, hlast⟩ := Exec.of_run_bind hrest
    cases hs₂
    have hpos : size.toNat / esize.toNat ≠ 0 := by
      intro h0
      exact hne (UInt32.toNat_inj.1 (hcount.trans h0))
    -- the buffer that the caller gives has room for the rounded number of elements
    have hfit : 2 ^ (size.toNat / esize.toNat).log2 * esize.toNat ≤ size.toNat :=
      (Nat.mul_le_mul_right _ (Nat.log2_self_le hpos)).trans (Nat.div_mul_le_self _ _)
    rw [← hcount] at hfit ⊢
    by_cases htwo : n < 2
    · rw [if_pos htwo] at hlast
      cases hlast
    · rw [if_neg htwo] at hlast
      cases hlast
      exact fresh_of_round hround htwo hzero (hfit.trans_lt size.toNat_lt) rfl rfl hfit rfl rfl

/-- `__kfifo_alloc` or `__kfifo_init` has made a FIFO for `k` entries of `e` bytes. The buffer that
    `kmalloc` gives has less than `2 ^ 32` bytes. -/
inductive Created (k e : ℕ) (s : KfifoMem) : Prop where
  | alloc (kmalloc : UInt64 → Option (ℕ → UInt8)) (size : UInt32) (esize : UInt64) (s₀ : KfifoMem)
      (hk : k = 2 ^ size.toNat.log2) (he : e = esize.toNat) (hpos : 0 < e)
      (hsmall : k * e < 2 ^ 32) (hrun : (kfifoAlloc kmalloc size esize).run s₀ = .ok (0, s))
  | init (buffer : ℕ → UInt8) (size : UInt32) (esize : UInt64) (s₀ : KfifoMem)
      (hk : k = 2 ^ (size.toNat / esize.toNat).log2) (he : e = esize.toNat)
      (hrun : (kfifoInit buffer size esize).run s₀ = .ok (0, s))

theorem Created.fresh {k e : ℕ} (h : Created k e s) : Fresh k e s := by
  cases h with
  | alloc kmalloc size esize s₀ hk he hpos hsmall hrun =>
      subst hk he
      refine kfifoAlloc_fresh ?_ hsmall hrun
      intro hzero
      rw [hzero] at hpos
      exact absurd hpos (by decide)
  | init buffer size esize s₀ hk he hrun =>
      subst hk he
      exact kfifoInit_fresh hrun

end StructLib.Kfifo
