import Mathlib.Algebra.Group.Nat.Defs
import Mathlib.Data.List.Basic
import Mathlib.Data.List.GetD
import Mathlib.Data.Nat.Notation
import Mathlib.Tactic.Common

set_option autoImplicit false

/-! # How full the children of a node are

Nodes hold at most `n` entries. A node that gives up an entry is merged with a neighbour when it has
become smaller than `n / 2` and both fit into one node; nothing is stolen from a neighbour, so small
nodes stay beside full ones, and where two parents are merged small nodes can become neighbours.
`Shape n` is what survives for the numbers of entries of the children of one node. No child is empty,
and when `n` is even and there are two children or more, one of the first `n / 2` has at least
`n / 2` entries, and so has one of the last `n / 2`. Every way in which the children change keeps it,
and so do the splits and the merges of the parent. -/

namespace StructLib

/-- One of the first `h` numbers is at least `h`. -/
def Front (h : ℕ) (ws : List ℕ) : Prop := ∃ i, i < h ∧ h ≤ ws.getD i 0

/-- One of the numbers is at least `n / 2`, if `n` is even. -/
structure HasBig (n : ℕ) (ws : List ℕ) : Prop where
  pos : ∀ x ∈ ws, 0 < x
  big : n % 2 = 0 → ∃ x ∈ ws, n / 2 ≤ x

structure Shape (n : ℕ) (ws : List ℕ) : Prop where
  ne_nil : ws ≠ []
  pos : ∀ x ∈ ws, 0 < x
  big : n % 2 = 0 → 2 ≤ ws.length → Front (n / 2) ws ∧ Front (n / 2) ws.reverse

section Front

variable {h x y z : ℕ} {ws pre post : List ℕ}

/-- The entries around a place. -/
theorem getD_mid (pre : List ℕ) (x : ℕ) (post : List ℕ) (i : ℕ) :
    (pre ++ x :: post).getD i 0 =
      if i < pre.length then pre.getD i 0
      else if i = pre.length then x else post.getD (i - pre.length - 1) 0 := by
  split_ifs with h₁ h₂
  · rw [List.getD_append _ _ _ _ h₁]
  · subst h₂
    rw [List.getD_append_right _ _ _ _ (Nat.le_refl _), Nat.sub_self, List.getD_cons_zero]
  · obtain ⟨j, hj⟩ : ∃ j, i - pre.length = j + 1 := ⟨i - pre.length - 1, by omega⟩
    rw [List.getD_append_right _ _ _ _ (by omega), hj, List.getD_cons_succ, Nat.add_sub_cancel]

theorem getD_append_eq (pre post : List ℕ) (i : ℕ) :
    (pre ++ post).getD i 0 =
      if i < pre.length then pre.getD i 0 else post.getD (i - pre.length) 0 := by
  split_ifs with h₁
  · rw [List.getD_append _ _ _ _ h₁]
  · rw [List.getD_append_right _ _ _ _ (by omega)]

theorem getD_eq_zero {i : ℕ} (h : ws.length ≤ i) : ws.getD i 0 = 0 :=
  List.getD_eq_default _ _ h

/-- A number is replaced by one that is big if the old one was. -/
theorem Front.replace (hf : Front h (pre ++ x :: post)) (hxy : h ≤ x → h ≤ y) :
    Front h (pre ++ y :: post) := by
  obtain ⟨i, hi, hx⟩ := hf
  refine ⟨i, hi, ?_⟩
  rw [getD_mid] at hx ⊢
  split_ifs at hx ⊢ with h₁ h₂
  · exact hx
  · exact hxy hx
  · exact hx

/-- A big number comes in. -/
theorem Front.insert (hf : Front h (pre ++ post)) (hx : h ≤ x) : Front h (pre ++ x :: post) := by
  obtain ⟨i, hi, hbig⟩ := hf
  rw [getD_append_eq] at hbig
  by_cases hlen : pre.length < h
  · refine ⟨pre.length, hlen, ?_⟩
    rw [getD_mid, if_neg (Nat.lt_irrefl _), if_pos rfl]
    exact hx
  · refine ⟨i, hi, ?_⟩
    rw [if_pos (by omega)] at hbig
    rw [getD_mid, if_pos (by omega)]
    exact hbig

/-- A small number goes. -/
theorem Front.erase (hf : Front h (pre ++ x :: post)) (hx : x < h) : Front h (pre ++ post) := by
  obtain ⟨i, hi, hbig⟩ := hf
  rw [getD_mid] at hbig
  split_ifs at hbig with h₁ h₂
  · refine ⟨i, hi, ?_⟩
    rw [getD_append_eq, if_pos h₁]
    exact hbig
  · omega
  · refine ⟨i - 1, by omega, ?_⟩
    rw [getD_append_eq, if_neg (by omega), show i - 1 - pre.length = i - pre.length - 1 by omega]
    exact hbig

/-- Two neighbours become one that is at least as big as either. -/
theorem Front.merge (hf : Front h (pre ++ x :: y :: post)) (hx : x ≤ z) (hy : y ≤ z) :
    Front h (pre ++ z :: post) := by
  obtain ⟨i, hi, hbig⟩ := hf
  rw [getD_mid] at hbig
  split_ifs at hbig with h₁ h₂
  · refine ⟨i, hi, ?_⟩
    rw [getD_mid, if_pos h₁]
    exact hbig
  · refine ⟨i, hi, ?_⟩
    rw [getD_mid, if_neg h₁, if_pos h₂]
    omega
  · by_cases hj : i = pre.length + 1
    · subst hj
      rw [show pre.length + 1 - pre.length - 1 = 0 by omega, List.getD_cons_zero] at hbig
      refine ⟨pre.length, by omega, ?_⟩
      rw [getD_mid, if_neg (by omega), if_pos rfl]
      omega
    · obtain ⟨j, hj⟩ : ∃ j, i - pre.length - 1 = j + 1 := ⟨i - pre.length - 2, by omega⟩
      rw [hj, List.getD_cons_succ] at hbig
      refine ⟨i - 1, by omega, ?_⟩
      rw [getD_mid, if_neg (by omega), if_neg (by omega), show i - 1 - pre.length - 1 = j by omega]
      exact hbig

/-- A number changes whose neighbours are big. -/
theorem Front.shield (hh : 2 ≤ h) (hf : Front h (pre ++ x :: post)) (hlen : pre ++ post ≠ [])
    (hpre : ∀ z, pre.getLast? = some z → h ≤ z) (hpost : ∀ z, post.head? = some z → h ≤ z) :
    Front h (pre ++ y :: post) := by
  obtain ⟨i, hi, hbig⟩ := hf
  rw [getD_mid] at hbig
  split_ifs at hbig with h₁ h₂
  · refine ⟨i, hi, ?_⟩
    rw [getD_mid, if_pos h₁]
    exact hbig
  · rcases List.eq_nil_or_concat pre with rfl | ⟨pre, z, rfl⟩
    · obtain _ | ⟨z, post⟩ := post
      · exact absurd rfl hlen
      · exact ⟨1, by omega, by simpa using hpost z rfl⟩
    · have hz := hpre z (by simp)
      rw [List.concat_eq_append, List.length_append, List.length_singleton] at h₂
      refine ⟨pre.length, by omega, ?_⟩
      rw [List.concat_eq_append, List.append_assoc, List.singleton_append, getD_mid,
        if_neg (Nat.lt_irrefl _), if_pos rfl]
      exact hz
  · refine ⟨i, hi, ?_⟩
    rw [getD_mid, if_neg h₁, if_neg h₂]
    exact hbig

theorem Front.append_right (hf : Front h ws) (post : List ℕ) (hh : 0 < h) :
    Front h (ws ++ post) := by
  obtain ⟨i, hi, hbig⟩ := hf
  refine ⟨i, hi, ?_⟩
  have hlen : i < ws.length := by
    by_contra hge
    rw [getD_eq_zero (by omega)] at hbig
    omega
  rw [getD_append_eq, if_pos hlen]
  exact hbig

theorem Front.take {m : ℕ} (hf : Front h ws) (hm : h ≤ m) : Front h (ws.take m) := by
  obtain ⟨i, hi, hbig⟩ := hf
  refine ⟨i, hi, ?_⟩
  rw [List.getD_eq_getElem?_getD, List.getElem?_take, if_pos (by omega),
    ← List.getD_eq_getElem?_getD]
  exact hbig

/-- A list of fewer than `h` numbers, or of `h`, has its big ones among its first `h`. -/
theorem front_of_mem (hlen : ws.length ≤ h) (hx : x ∈ ws) (hbig : h ≤ x) : Front h ws := by
  obtain ⟨i, hi, rfl⟩ := List.mem_iff_getElem.1 hx
  refine ⟨i, by omega, ?_⟩
  rw [List.getD_eq_getElem _ _ hi]
  exact hbig

theorem Front.exists_mem (hf : Front h ws) (hh : 0 < h) : ∃ x ∈ ws, h ≤ x := by
  obtain ⟨i, -, hbig⟩ := hf
  have hlen : i < ws.length := by
    by_contra hge
    rw [getD_eq_zero (by omega)] at hbig
    omega
  rw [List.getD_eq_getElem _ _ hlen] at hbig
  exact ⟨_, List.getElem_mem hlen, hbig⟩

end Front

section Shape

variable {n x y z : ℕ} {ws pre post : List ℕ}

theorem shape_singleton (n : ℕ) (hx : 0 < x) : Shape n [x] := by
  refine ⟨by simp, by simpa using hx, ?_⟩
  intro _ hlen
  simp at hlen

/-- A node with two children or more has a big one. -/
theorem Shape.hasBig (h : Shape n ws) (hn : 4 ≤ n) (hlen : 2 ≤ ws.length) : HasBig n ws :=
  ⟨h.pos, fun heven => (h.big heven hlen).1.exists_mem (by omega)⟩

theorem Shape.pos_mid (h : Shape n (pre ++ x :: post)) : 0 < x := h.pos x (by simp)

theorem pos_replace (h : ∀ v ∈ pre ++ x :: post, 0 < v) (hy : 0 < y) :
    ∀ v ∈ pre ++ y :: post, 0 < v := by
  intro v hv
  rw [List.mem_append, List.mem_cons] at hv
  rcases hv with hv | rfl | hv
  · exact h v (by simp [hv])
  · exact hy
  · exact h v (by simp [hv])

theorem Shape.replace (h : Shape n (pre ++ x :: post)) (hy : 0 < y) (hxy : n / 2 ≤ x → n / 2 ≤ y) :
    Shape n (pre ++ y :: post) := by
  refine ⟨by simp, pos_replace h.pos hy, ?_⟩
  intro heven hlen
  obtain ⟨hf, hr⟩ := h.big heven (by simpa using hlen)
  rw [List.reverse_append, List.reverse_cons, List.append_assoc, List.singleton_append] at hr ⊢
  exact ⟨hf.replace hxy, hr.replace hxy⟩

/-- The numbers are read off the children, and big ones stay big. -/
theorem Shape.of_map {A : Type} {f g : A → ℕ} {es : List A} (pre : List ℕ)
    (h : Shape n (pre ++ es.map f))
    (hfg : ∀ a ∈ es, 0 < f a → 0 < g a ∧ (n / 2 ≤ f a → n / 2 ≤ g a)) :
    Shape n (pre ++ es.map g) := by
  induction es generalizing pre with
  | nil => exact h
  | cons a es ih =>
      rw [List.map_cons] at h ⊢
      obtain ⟨hpos, hbig⟩ := hfg a (by simp) h.pos_mid
      have hstep := h.replace hpos hbig
      rw [List.append_cons] at hstep ⊢
      exact ih _ hstep fun c hc => hfg c (List.mem_cons_of_mem _ hc)

theorem Shape.insert (h : Shape n (pre ++ post)) (hn : 4 ≤ n) (hx : n / 2 ≤ x) :
    Shape n (pre ++ x :: post) := by
  refine ⟨by simp, ?_, ?_⟩
  · intro v hv
    rw [List.mem_append, List.mem_cons] at hv
    rcases hv with hv | rfl | hv
    · exact h.pos v (by simp [hv])
    · omega
    · exact h.pos v (by simp [hv])
  intro heven _
  by_cases hlen : 2 ≤ (pre ++ post).length
  · obtain ⟨hf, hr⟩ := h.big heven hlen
    rw [List.reverse_append] at hr
    rw [List.reverse_append, List.reverse_cons, List.append_assoc, List.singleton_append]
    exact ⟨hf.insert hx, hr.insert hx⟩
  · have hshort : (pre ++ x :: post).length ≤ n / 2 := by
      simp only [List.length_append, List.length_cons] at hlen ⊢
      omega
    exact ⟨front_of_mem hshort (by simp) hx, front_of_mem (by rwa [List.length_reverse]) (by simp) hx⟩

theorem Shape.erase (h : Shape n (pre ++ x :: post)) (hx : x < n / 2) (hne : pre ++ post ≠ []) :
    Shape n (pre ++ post) := by
  refine ⟨hne, ?_, ?_⟩
  · intro v hv
    refine h.pos v ?_
    rcases List.mem_append.1 hv with hv | hv
    · simp [hv]
    · simp [hv]
  intro heven hlen
  obtain ⟨hf, hr⟩ := h.big heven (by
    simp only [List.length_append, List.length_cons] at hlen ⊢
    omega)
  rw [List.reverse_append, List.reverse_cons, List.append_assoc, List.singleton_append] at hr
  rw [List.reverse_append]
  exact ⟨hf.erase hx, hr.erase hx⟩

theorem HasBig.erase (h : HasBig n (pre ++ x :: post)) (hx : x < n / 2) :
    HasBig n (pre ++ post) := by
  refine ⟨?_, ?_⟩
  · intro v hv
    refine h.pos v ?_
    rcases List.mem_append.1 hv with hv | hv
    · simp [hv]
    · simp [hv]
  intro heven
  obtain ⟨y, hy, hbig⟩ := h.big heven
  refine ⟨y, ?_, hbig⟩
  rcases List.mem_append.1 hy with hy | hy
  · exact List.mem_append_left _ hy
  · rcases List.mem_cons.1 hy with rfl | hy
    · omega
    · exact List.mem_append_right _ hy

theorem pos_merge (h : ∀ v ∈ pre ++ x :: y :: post, 0 < v) (hx : x ≤ z) :
    ∀ v ∈ pre ++ z :: post, 0 < v := by
  intro v hv
  rw [List.mem_append, List.mem_cons] at hv
  rcases hv with hv | rfl | hv
  · exact h v (by simp [hv])
  · exact Nat.lt_of_lt_of_le (h x (by simp)) hx
  · exact h v (by simp [hv])

theorem Shape.merge (h : Shape n (pre ++ x :: y :: post)) (hx : x ≤ z) (hy : y ≤ z) :
    Shape n (pre ++ z :: post) := by
  refine ⟨by simp, pos_merge h.pos hx, ?_⟩
  intro heven _
  obtain ⟨hf, hr⟩ := h.big heven (by simp; omega)
  have hrev : (pre ++ x :: y :: post).reverse = post.reverse ++ y :: x :: pre.reverse := by simp
  rw [hrev] at hr
  rw [List.reverse_append, List.reverse_cons, List.append_assoc, List.singleton_append]
  exact ⟨hf.merge hx hy, hr.merge hy hx⟩

theorem HasBig.merge (h : HasBig n (pre ++ x :: y :: post)) (hx : x ≤ z) (hy : y ≤ z) :
    HasBig n (pre ++ z :: post) := by
  refine ⟨pos_merge h.pos hx, ?_⟩
  intro heven
  obtain ⟨u, hu, hbig⟩ := h.big heven
  simp only [List.mem_append, List.mem_cons] at hu
  rcases hu with hu | rfl | rfl | hu
  · exact ⟨u, by simp [hu], hbig⟩
  · exact ⟨z, by simp, by omega⟩
  · exact ⟨z, by simp, by omega⟩
  · exact ⟨u, by simp [hu], hbig⟩

theorem Shape.shield (h : Shape n (pre ++ x :: post)) (hn : 4 ≤ n) (hy : 0 < y)
    (hpre : ∀ z, pre.getLast? = some z → n / 2 ≤ z)
    (hpost : ∀ z, post.head? = some z → n / 2 ≤ z) : Shape n (pre ++ y :: post) := by
  refine ⟨by simp, pos_replace h.pos hy, ?_⟩
  intro heven hlen
  obtain ⟨hf, hr⟩ := h.big heven (by simpa using hlen)
  have hne : pre ++ post ≠ [] := by
    intro hnil
    obtain ⟨rfl, rfl⟩ := List.append_eq_nil_iff.1 hnil
    simp at hlen
  rw [List.reverse_append, List.reverse_cons, List.append_assoc, List.singleton_append] at hr ⊢
  refine ⟨hf.shield (by omega) hne hpre hpost, hr.shield (by omega) ?_ ?_ ?_⟩
  · rw [← List.reverse_append]
    exact fun hnil => hne (List.reverse_eq_nil_iff.1 hnil)
  · rw [List.getLast?_reverse]
    exact hpost
  · rw [List.head?_reverse]
    exact hpre

/-- The halves of a full node. -/
theorem Shape.split (h : Shape n ws) (hn : 4 ≤ n) (hlen : ws.length = n) :
    Shape n (ws.take (n / 2)) ∧ Shape n (ws.drop (n / 2)) := by
  have hnil : ws.take (n / 2) ≠ [] ∧ ws.drop (n / 2) ≠ [] := by
    constructor
    · intro hnil
      have := congrArg List.length hnil
      rw [List.length_take, List.length_nil] at this
      omega
    · intro hnil
      have := congrArg List.length hnil
      rw [List.length_drop, List.length_nil] at this
      omega
  refine ⟨⟨hnil.1, fun v hv => h.pos v (List.mem_of_mem_take hv), ?_⟩,
    ⟨hnil.2, fun v hv => h.pos v (List.mem_of_mem_drop hv), ?_⟩⟩
  · intro heven _
    obtain ⟨hf, -⟩ := h.big heven (by omega)
    have hf' := hf.take (Nat.le_refl (n / 2))
    obtain ⟨x, hx, hbig⟩ := hf'.exists_mem (by omega)
    have hshort : (ws.take (n / 2)).reverse.length ≤ n / 2 := by
      rw [List.length_reverse, List.length_take]
      omega
    exact ⟨hf', front_of_mem hshort (List.mem_reverse.2 hx) hbig⟩
  · intro heven _
    obtain ⟨-, hr⟩ := h.big heven (by omega)
    have hr' := hr.take (Nat.le_refl (n / 2))
    have hdrop : (ws.drop (n / 2)).reverse = ws.reverse.take (n / 2) := by
      rw [List.reverse_drop, hlen, show n - n / 2 = n / 2 by omega]
    rw [hdrop]
    obtain ⟨x, hx, hbig⟩ := hr'.exists_mem (by omega)
    refine ⟨front_of_mem ?_ ?_ hbig, hr'⟩
    · rw [List.length_drop]
      omega
    · rw [← List.mem_reverse, hdrop]
      exact hx

/-- Two nodes become one, the second one having become small. -/
theorem Shape.join {vs : List ℕ} (hv : Shape n vs) (hbig : HasBig n ws)
    (hlen : ws.length < n / 2) : Shape n (vs ++ ws) := by
  refine ⟨by simp [hv.ne_nil], ?_, ?_⟩
  · intro v hv'
    rcases List.mem_append.1 hv' with hv' | hv'
    · exact hv.pos v hv'
    · exact hbig.pos v hv'
  intro heven _
  obtain ⟨x, hx, hx'⟩ := hbig.big heven
  constructor
  · by_cases hv2 : 2 ≤ vs.length
    · exact (hv.big heven hv2).1.append_right ws (by omega)
    · refine front_of_mem ?_ (List.mem_append_right _ hx) hx'
      rw [List.length_append]
      omega
  · rw [List.reverse_append]
    exact (front_of_mem (by rw [List.length_reverse]; omega) (List.mem_reverse.2 hx)
      hx').append_right _ (by omega)

/-- `Shape` does not depend on the direction. -/
theorem Shape.reverse (h : Shape n ws) : Shape n ws.reverse := by
  refine ⟨by simpa using h.ne_nil, fun v hv => h.pos v (List.mem_reverse.1 hv), ?_⟩
  intro heven hlen
  rw [List.length_reverse] at hlen
  rw [List.reverse_reverse]
  exact (h.big heven hlen).symm

/-- Two nodes become one, the first one having become small. -/
theorem Shape.join' {vs : List ℕ} (hv : Shape n vs) (hbig : HasBig n ws)
    (hlen : ws.length < n / 2) : Shape n (ws ++ vs) := by
  have hbig' : HasBig n ws.reverse := ⟨by simpa using hbig.pos, by simpa using hbig.big⟩
  have h := hv.reverse.join hbig' (by simpa using hlen)
  rw [← List.reverse_append] at h
  simpa using h.reverse

end Shape

end StructLib
