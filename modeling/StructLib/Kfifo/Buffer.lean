import StructLib.Kfifo.Model
import StructLib.Lib.Around
import Mathlib.Data.List.Flatten

set_option autoImplicit false

/-! # What the buffer of a FIFO holds

The bytes of the entries lie around the buffer, from the element at `out` on. That the indexes run
freely and wrap at `2 ^ 32` does no harm, because the size is a power of two. -/

namespace StructLib.Kfifo

/-! ## Sizes -/

/-- What `__kfifo_alloc` and `__kfifo_init` choose. -/
structure Fits (mask esize : UInt32) : Prop where
  power : ∃ k, mask.toNat + 1 = 2 ^ k
  pos : 0 < esize.toNat
  small : (mask.toNat + 1) * esize.toNat < 2 ^ 32

/-- The bytes of the buffer. -/
def cells (mask esize : UInt32) : ℕ := (mask.toNat + 1) * esize.toNat

/-- The first byte of the element at the index `v`. -/
def start (mask esize v : UInt32) : ℕ := v.toNat % (mask.toNat + 1) * esize.toNat

section Sizes

variable {mask esize v len : UInt32}

theorem Fits.size_le (h : Fits mask esize) : mask.toNat + 1 ≤ cells mask esize :=
  Nat.le_mul_of_pos_right _ h.pos

theorem Fits.cells_pos (h : Fits mask esize) : 0 < cells mask esize := by
  have := h.size_le
  omega

theorem Fits.size_lt (h : Fits mask esize) : mask.toNat + 1 < 2 ^ 32 := h.size_le.trans_lt h.small

theorem Fits.dvd (h : Fits mask esize) : mask.toNat + 1 ∣ 2 ^ 32 := by
  obtain ⟨k, hk⟩ := h.power
  have hlt : 2 ^ k < 2 ^ 32 := hk ▸ h.size_lt
  rw [hk]
  exact Nat.pow_dvd_pow 2 ((Nat.pow_lt_pow_iff_right (by omega)).1 hlt).le

theorem Fits.toNat_and (h : Fits mask esize) : (v &&& mask).toNat = v.toNat % (mask.toNat + 1) := by
  obtain ⟨k, hk⟩ := h.power
  have hmask : mask.toNat = 2 ^ k - 1 := by omega
  rw [UInt32.toNat_and, hk, hmask, Nat.and_two_pow_sub_one_eq_mod]

theorem Fits.toNat_size (h : Fits mask esize) : (mask + 1).toNat = mask.toNat + 1 := by
  have hlt := h.size_lt
  rw [UInt32.toNat_add]
  exact Nat.mod_eq_of_lt hlt

theorem Fits.start_lt (h : Fits mask esize) : start mask esize v < cells mask esize :=
  Nat.mul_lt_mul_of_pos_right (Nat.mod_lt _ (Nat.succ_pos _)) h.pos

/-- The element `n` places on. -/
theorem Fits.start_add (h : Fits mask esize) (n : ℕ) : start mask esize (v + .ofNat n) %
    cells mask esize = (start mask esize v + n * esize.toNat) % cells mask esize := by
  have hidx : (v + UInt32.ofNat n).toNat % (mask.toNat + 1) = (v.toNat + n) % (mask.toNat + 1) := by
    rw [UInt32.toNat_add, UInt32.toNat_ofNat', Nat.add_mod_mod, Nat.mod_mod_of_dvd _ h.dvd]
  unfold start cells
  rw [hidx, ← Nat.add_mul, Nat.mul_mod_mul_right, Nat.mul_mod_mul_right, Nat.mod_mod, Nat.mod_add_mod]

theorem Fits.toNat_mul (h : Fits mask esize) (hlen : len.toNat ≤ mask.toNat + 1) :
    (len * esize).toNat = len.toNat * esize.toNat := by
  rw [UInt32.toNat_mul]
  exact Nat.mod_eq_of_lt ((Nat.mul_le_mul_right _ hlen).trans_lt h.small)

theorem Fits.span_eq (h : Fits mask esize) (off : UInt32) (hlen : len.toNat ≤ mask.toNat + 1) : ∃ o l m,
    span mask esize len off = (o, l, m) ∧ o.toNat = start mask esize off ∧
      m.toNat = len.toNat * esize.toNat ∧ l.toNat = min m.toNat (cells mask esize - o.toNat) := by
  have hsize := h.toNat_size
  have hoff : (off &&& mask).toNat = off.toNat % (mask.toNat + 1) := h.toNat_and
  have hlt : off.toNat % (mask.toNat + 1) < mask.toNat + 1 := Nat.mod_lt _ (Nat.succ_pos _)
  have hmin : ∀ a b : UInt32, (min a b).toNat = min a.toNat b.toNat := by
    intro a b
    rw [UInt32.min_def, Nat.min_def]
    split_ifs <;> first | rfl | (rename_i h₁ h₂; simp [UInt32.le_iff_toNat_le] at h₁; omega)
  unfold span
  by_cases he : esize ≠ 1
  · have ho : ((off &&& mask) * esize).toNat = start mask esize off := by
      rw [h.toNat_mul (by omega), hoff]
      rfl
    have hs : ((mask + 1) * esize).toNat = cells mask esize := by
      rw [h.toNat_mul (by omega), hsize]
      rfl
    have hle : ((off &&& mask) * esize).toNat ≤ ((mask + 1) * esize).toNat := by
      rw [ho, hs]
      exact h.start_lt.le
    refine ⟨_, _, _, if_pos he, ho, h.toNat_mul hlen, ?_⟩
    rw [hmin, UInt32.toNat_sub_of_le _ _ hle, hs]
  · obtain rfl : esize = 1 := not_not.1 he
    have hle : (off &&& mask).toNat ≤ (mask + 1).toNat := by omega
    refine ⟨_, _, _, if_neg he, ?_, ?_, ?_⟩
    · rw [hoff]
      exact (Nat.mul_one _).symm
    · exact (Nat.mul_one _).symm
    · rw [hmin, UInt32.toNat_sub_of_le _ _ hle, hsize]
      exact congrArg (min _) (congrArg (· - _) (Nat.mul_one _).symm)

end Sizes

/-! ## Entries -/

/-- What the entries of a FIFO look like in its buffer, and what the calls do to them. A call that has
    moved `in` by `n` has put the entries `puts op n`, and one that has moved `out` by `n` has taken
    `takes op n` of them. -/
structure Format (Op Item : Type) where
  mask : UInt32
  esize : UInt32
  fits : Fits mask esize
  bytes : Item → List UInt8
  ok : Item → Prop
  whole : ∀ x, ok x → esize.toNat ∣ (bytes x).length
  puts : Op → ℕ → List Item
  takes : Op → ℕ → ℕ

section Entries

variable {Op Item : Type} (F : Format Op Item)

def Format.cells : ℕ := Kfifo.cells F.mask F.esize

def Format.start (v : UInt32) : ℕ := Kfifo.start F.mask F.esize v

def Format.encode (q : List Item) : List UInt8 := q.flatMap F.bytes

/-- How far `in` is from `out`. -/
def Format.units (q : List Item) : ℕ := (F.encode q).length / F.esize.toNat

structure Format.Room (q : List Item) : Prop where
  ok : ∀ x ∈ q, F.ok x
  le : (F.encode q).length ≤ F.cells

variable {F} {q q' xs : List Item} {s : KfifoMem} {staged : List UInt8} {n m : ℕ}

@[simp] theorem Format.encode_nil : F.encode [] = [] := rfl

theorem Format.encode_append : F.encode (q ++ q') = F.encode q ++ F.encode q' := List.flatMap_append

theorem Format.Room.length_eq (h : F.Room q) : (F.encode q).length = F.units q * F.esize.toNat := by
  have hdvd : F.esize.toNat ∣ (F.encode q).length := by
    have hok := h.ok
    clear h
    induction q with
    | nil => exact Nat.dvd_zero _
    | cons x q ih =>
        rw [← List.singleton_append, F.encode_append, List.length_append]
        refine Nat.dvd_add ?_ (ih fun y hy => hok y (List.mem_cons_of_mem _ hy))
        have hx := F.whole x (hok x List.mem_cons_self)
        simpa [Format.encode] using hx
  exact (Nat.div_mul_cancel hdvd).symm

theorem Format.Room.units_le (h : F.Room q) : F.units q ≤ F.mask.toNat + 1 := by
  have hle := h.le
  rw [h.length_eq] at hle
  exact Nat.le_of_mul_le_mul_right hle F.fits.pos

theorem Format.Room.sublist (h : F.Room q) (hs : q'.Sublist q) : F.Room q' :=
  ⟨fun x hx => h.ok x (hs.mem hx), (hs.flatMap F.bytes).length_le.trans h.le⟩

/-- Memory holds the entries `q`. -/
structure Holds (F : Format Op Item) (q : List Item) (s : KfifoMem) : Prop where
  room : F.Room q
  tail : s.in_ = s.out + .ofNat (F.units q)
  laid : Laid F.cells s.data (F.start s.out) (F.encode q)
  bytes : F.cells ≤ s.room

theorem Format.Room.toNat_units (h : F.Room q) : (UInt32.ofNat (F.units q)).toNat = F.units q := by
  rw [UInt32.toNat_ofNat']
  exact Nat.mod_eq_of_lt (h.units_le.trans_lt F.fits.size_lt)

/-- Where the bytes behind the entries lie. -/
theorem Holds.start_in (h : Holds F q s) :
    F.start s.in_ % F.cells = (F.start s.out + (F.encode q).length) % F.cells := by
  rw [h.tail, h.room.length_eq]
  exact F.fits.start_add _

/-- The entries of the bytes behind become part of the FIFO. -/
theorem Holds.put (h : Holds F q s) (hlaid : Laid F.cells s.data (F.start s.in_) staged)
    (hlen : (F.encode q).length + staged.length ≤ F.cells) (hok : ∀ x ∈ xs, F.ok x)
    (hxs : F.encode xs <+: staged) (hn : F.units xs = n) :
    Holds F (q ++ xs) { s with in_ := s.in_ + .ofNat n } := by
  have hroom : F.Room (q ++ xs) := by
    constructor
    · intro x hx
      exact (List.mem_append.1 hx).elim (h.room.ok x) (hok x)
    · rw [F.encode_append, List.length_append]
      have := hxs.length_le
      omega
  have hroom' : F.Room xs := hroom.sublist (List.sublist_append_right q xs)
  have hunits : F.units (q ++ xs) = F.units q + n := by
    have h₁ := hroom.length_eq
    rw [F.encode_append, List.length_append, h.room.length_eq, hroom'.length_eq, ← Nat.add_mul] at h₁
    rw [← hn]
    exact (Nat.eq_of_mul_eq_mul_right F.fits.pos h₁).symm
  refine ⟨hroom, ?_, ?_, h.bytes⟩
  · show s.in_ + .ofNat n = s.out + .ofNat _
    rw [h.tail, hunits, UInt32.ofNat_add, UInt32.add_assoc]
  · show Laid F.cells s.data (F.start s.out) _
    rw [F.encode_append]
    exact laid_append.2 ⟨h.laid, (laid_congr h.start_in).1 (hlaid.initial hxs)⟩

/-- The first entries leave. -/
theorem Holds.take (h : Holds F (q ++ q') s) (hn : F.units q = n) :
    Holds F q' { s with out := s.out + .ofNat n } := by
  have hroom : F.Room q := h.room.sublist (List.sublist_append_left q q')
  have hroom' : F.Room q' := h.room.sublist (List.sublist_append_right q q')
  have hunits : F.units (q ++ q') = n + F.units q' := by
    have h₁ := h.room.length_eq
    rw [F.encode_append, List.length_append, hroom.length_eq, hroom'.length_eq, ← Nat.add_mul, hn] at h₁
    exact (Nat.eq_of_mul_eq_mul_right F.fits.pos h₁).symm
  refine ⟨hroom', ?_, ?_, h.bytes⟩
  · show s.in_ = s.out + .ofNat n + .ofNat _
    rw [h.tail, hunits, UInt32.ofNat_add, UInt32.add_assoc]
  · have hlaid := h.laid
    rw [F.encode_append, laid_append, hroom.length_eq, hn] at hlaid
    exact (laid_congr (F.fits.start_add n)).2 hlaid.2

end Entries

end StructLib.Kfifo
