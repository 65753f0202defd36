import StructLib.Jhash.Model

set_option autoImplicit false

/-! # Bytes and words hash alike

On the bytes of an array of words `jhash` goes through the same states as `jhash2` on the words: one
unaligned load is one word, three loads are one round of the loop, and the four cases of the `switch`
for the bytes of a word add that word. -/

namespace StructLib.Jhash

/-- The array of words in memory. -/
def bytes (k : List UInt32) : List UInt8 := k.flatMap fun x => leBytes 4 x.toNat

section Words

variable {k : List UInt32} {x y z : UInt32} {s : Abc} {m i : ℕ}

theorem getUnalignedCpu32_bytes : getUnalignedCpu32 (bytes (x :: k)) = .ok x := by
  have htake : (bytes (x :: k)).take 4 = leBytes 4 x.toNat := rfl
  have hlen : ¬ (bytes (x :: k)).length < 4 := by
    have htaken := congrArg List.length htake
    rw [List.length_take, length_leBytes] at htaken
    omega
  have hmod : x.toNat % 256 ^ 4 = x.toNat := Nat.mod_eq_of_lt x.toNat_lt
  rw [getUnalignedCpu32, if_neg hlen, htake, ofLeBytes_leBytes, hmod, UInt32.ofNat_toNat]

theorem bytes_getElem (hm : k[m]? = some x) (hi : i < 4) :
    (bytes k)[4 * m + i]? = (leBytes 4 x.toNat)[i]? := by
  induction k generalizing m with
  | nil => simp at hm
  | cons y k ih =>
      have hcons : bytes (y :: k) = leBytes 4 y.toNat ++ bytes k := rfl
      cases m with
      | zero =>
          obtain rfl : y = x := by simpa using hm
          rw [hcons, Nat.mul_zero, Nat.zero_add,
            List.getElem?_append_left (by rw [length_leBytes]; exact hi)]
      | succ m =>
          rw [hcons, List.getElem?_append_right (by rw [length_leBytes]; omega), length_leBytes,
            ← ih (by simpa using hm)]
          congr 1
          omega

theorem readAt_bytes (hm : k[m]? = some x) (hi : i < 4) :
    readAt (bytes k) (4 * m + i) = .ok (.ofNat (x.toNat / 256 ^ i)) := by
  rw [readAt, bytes_getElem hm hi, leBytes_getElem hi]

theorem addTo_addTo : (s.addTo i x).addTo i y = s.addTo i (x + y) := by
  rcases i with _ | _ | i <;> simp [Abc.addTo, UInt32.add_assoc]

/-- A word is the sum of its bytes, each in its place. -/
theorem sum_bytes (x : UInt32) :
    (UInt8.ofNat (x.toNat / 256 ^ 3)).toUInt32 <<< 24 +
      (UInt8.ofNat (x.toNat / 256 ^ 2)).toUInt32 <<< 16 +
      (UInt8.ofNat (x.toNat / 256 ^ 1)).toUInt32 <<< 8 +
      (UInt8.ofNat (x.toNat / 256 ^ 0)).toUInt32 <<< 0 = x := by
  refine UInt32.toNat_inj.1 ?_
  have hx := x.toNat_lt
  simp [UInt32.toNat_add, UInt32.toNat_shiftLeft, Nat.shiftLeft_eq]
  omega

/-- The cases for the bytes of a word. -/
theorem jhashCase_word (hm : k[m]? = some x) :
    jhashCase (bytes k) (4 * (m + 1)) s = jhashCase (bytes k) (4 * m) (s.addTo m x) := by
  have hcase : ∀ i s, i < 4 → jhashCase (bytes k) (4 * m + i + 1) s = jhashCase (bytes k) (4 * m + i)
      (s.addTo m ((UInt8.ofNat (x.toNat / 256 ^ i)).toUInt32 <<< .ofNat (8 * i))) := by
    intro i s hi
    have hdiv : (4 * m + i) / 4 = m := by omega
    have hmod : (4 * m + i) % 4 = i := by omega
    rw [jhashCase, readAt_bytes hm hi, hdiv, hmod]
    rfl
  calc jhashCase (bytes k) (4 * m + 3 + 1) s
      = jhashCase (bytes k) (4 * m + 0) _ := by
        rw [hcase 3 s (by decide), hcase 2 _ (by decide), hcase 1 _ (by decide),
          hcase 0 _ (by decide)]
    _ = jhashCase (bytes k) (4 * m) (s.addTo m x) := by
        simp only [addTo_addTo]
        congr 2
        exact sum_bytes x

/-- The two `switch`es. -/
theorem cases_agree (hm : m ≤ k.length) : ∃ s', jhash2Case k m s = .ok s' ∧
    jhashCase (bytes k) (4 * m) s = .ok s' := by
  induction m generalizing s with
  | zero => exact ⟨s, rfl, rfl⟩
  | succ m ih =>
      have hx : k[m]? = some k[m] := List.getElem?_eq_getElem hm
      obtain ⟨s', hwords, hbytes⟩ := ih (s := s.addTo m k[m]) (by omega)
      refine ⟨s', ?_, ?_⟩
      · rw [jhash2Case, readAt, hx]
        exact hwords
      · rw [jhashCase_word hx]
        exact hbytes

end Words

section Loops

variable {k : List UInt32} {n : UInt32} {s : Abc}

theorem toNat_four_mul (h : n.toNat < 2 ^ 30) : (4 * n).toNat = 4 * n.toNat := by
  rw [UInt32.toNat_mul]
  exact Nat.mod_eq_of_lt (by simp; omega)

theorem twelve_lt_iff (h : n.toNat < 2 ^ 30) : 12 < 4 * n ↔ 3 < n := by
  rw [UInt32.lt_iff_toNat_lt, UInt32.lt_iff_toNat_lt, toNat_four_mul h]
  change 12 < 4 * n.toNat ↔ 3 < n.toNat
  omega

/-- The two loops. -/
theorem loops_agree (hn : n.toNat = k.length) (hlt : n.toNat < 2 ^ 30) : ∃ k' n' s',
    n'.toNat = k'.length ∧ n'.toNat ≤ 3 ∧ jhash2Loop k n s = .ok (k', n', s') ∧
      jhashLoop (bytes k) (4 * n) s = .ok (bytes k', 4 * n', s') := by
  induction hlen : k.length using Nat.strongRecOn generalizing k n s with
  | _ len ih =>
      rw [jhash2Loop, jhashLoop]
      by_cases hloop : 3 < n
      · have hmore : 3 < n.toNat := UInt32.lt_iff_toNat_lt.1 hloop
        rw [if_pos hloop, if_pos ((twelve_lt_iff hlt).2 hloop)]
        obtain ⟨x, y, z, k, rfl⟩ : ∃ x y z k', k = x :: y :: z :: k' := by
          match k, hn with
          | x :: y :: z :: k', _ => exact ⟨x, y, z, k', rfl⟩
          | [], hn | [_], hn | [_, _], hn => simp at hn; omega
        have hsub : (n - 3).toNat = n.toNat - 3 := UInt32.toNat_sub_of_le _ _ (UInt32.le_of_lt hloop)
        simp only [List.length_cons] at hn hlen
        obtain ⟨k', n', s', hn', hle, hwords, hbytes⟩ := ih k.length (by omega) (k := k) (n := n - 3)
          (s := jhashMix ⟨s.a + x, s.b + y, s.c + z⟩) (by omega) (by omega) rfl
        refine ⟨k', n', s', hn', hle, hwords, ?_⟩
        -- three words are twelve bytes
        have hy : (bytes (x :: y :: z :: k)).drop 4 = bytes (y :: z :: k) := rfl
        have hz : (bytes (x :: y :: z :: k)).drop 8 = bytes (z :: k) := rfl
        have hk : (bytes (x :: y :: z :: k)).drop 12 = bytes k := rfl
        have hlength : 4 * n - 12 = 4 * (n - 3) := by grind
        rw [hy, hz, hk, hlength]
        simp only [getUnalignedCpu32_bytes, ok_bind]
        exact hbytes
      · have hle : n.toNat ≤ 3 := by
          have hnot := UInt32.lt_iff_toNat_lt.not.1 hloop
          exact Nat.le_of_not_lt hnot
        rw [if_neg hloop, if_neg ((twelve_lt_iff hlt).not.2 hloop)]
        exact ⟨k, n, s, hn, hle, rfl, rfl⟩

end Loops

/-- **`jhash` on the bytes of an array of words is `jhash2` on the words.** -/
theorem jhash_bytes (k : List UInt32) (initval : UInt32) (h : k.length < 2 ^ 30) :
    ∃ r, jhash (bytes k) (4 * .ofNat k.length) initval = .ok r ∧
      jhash2 k (.ofNat k.length) initval = .ok r := by
  have hn : (UInt32.ofNat k.length).toNat = k.length := by
    rw [UInt32.toNat_ofNat']
    exact Nat.mod_eq_of_lt (by omega)
  generalize UInt32.ofNat k.length = n at hn ⊢
  have hshift : n <<< 2 = 4 * n := by
    refine UInt32.toNat_inj.1 ?_
    rw [toNat_four_mul (by omega), UInt32.toNat_shiftLeft, Nat.shiftLeft_eq]
    simp
    omega
  unfold jhash jhash2
  rw [hshift]
  obtain ⟨k', n', s', hn', hle, hwords, hbytes⟩ := loops_agree (k := k) (n := n)
    (s := ⟨JHASH_INITVAL + 4 * n + initval, JHASH_INITVAL + 4 * n + initval,
      JHASH_INITVAL + 4 * n + initval⟩) hn (by omega)
  simp only [hwords, hbytes, ok_bind]
  have hzero : 4 * n' = 0 ↔ n' = 0 := by
    rw [← UInt32.toNat_inj, ← UInt32.toNat_inj, toNat_four_mul (by omega)]
    change 4 * n'.toNat = 0 ↔ n'.toNat = 0
    omega
  by_cases hend : n' = 0
  · rw [if_pos hend, if_pos (hzero.2 hend)]
    exact ⟨s'.c, rfl, rfl⟩
  · rw [if_neg hend, if_neg (hzero.not.2 hend), toNat_four_mul (by omega)]
    obtain ⟨s'', hcase2, hcase⟩ := cases_agree (s := s') (Nat.le_of_eq hn')
    rw [hcase, hcase2]
    exact ⟨(jhashFinal s'').c, rfl, rfl⟩

/-- Four words: one round of the loop and one case. -/
theorem jhash_bytes_four : ∃ r, jhash (bytes [1, 2, 3, 4]) 16 0 = .ok r ∧
    jhash2 [1, 2, 3, 4] 4 0 = .ok r :=
  jhash_bytes [1, 2, 3, 4] 0 (by decide)

end StructLib.Jhash
