import Mathlib.Data.List.Basic
import Mathlib.Data.List.GetD
import Mathlib.Data.List.TakeWhile
import Mathlib.Order.Defs.LinearOrder
import Mathlib.Tactic.Common
import Mathlib.Tactic.Order

set_option autoImplicit false

/-! # Association lists with falling keys

`Within lo hi es`: the keys of `es` fall from left to right and lie in the interval from `lo` to
`hi`, `hi` excluded. Read as the entries of a node of a search tree, such a list cuts its interval
into the spans of the children: each child is responsible for the keys from its own key up to the
key before it (`spans`). -/

namespace StructLib

variable {K A : Type}

/-- The last key, or the upper end of the interval where there is none. -/
def lowest : K → List (K × A) → K
  | hi, [] => hi
  | _, (k, _) :: es => lowest k es

@[simp] theorem lowest_nil (hi : K) : lowest hi ([] : List (K × A)) = hi := rfl

@[simp] theorem lowest_cons (hi : K) (e : K × A) (es : List (K × A)) :
    lowest hi (e :: es) = lowest e.1 es := rfl

theorem lowest_append (hi : K) (es es' : List (K × A)) :
    lowest hi (es ++ es') = lowest (lowest hi es) es' := by
  induction es generalizing hi with
  | nil => rfl
  | cons e es ih => exact ih e.1

theorem lowest_take (hi : K) {es : List (K × A)} {i : ℕ} (hlt : i < es.length) (e : K × A) :
    lowest hi (es.take (i + 1)) = (es.getD i e).1 := by
  rw [List.take_succ_eq_append_getElem hlt, lowest_append, List.getD_eq_getElem _ _ hlt]
  rfl

/-- What a parent says of a child: its address, and the keys it is responsible for. -/
structure Span (K A : Type) where
  addr : A
  lo : K
  hi : K

/-- The spans of the children of a node whose interval ends at `hi`. -/
def spans : K → List (K × A) → List (Span K A)
  | _, [] => []
  | hi, (k, a) :: es => ⟨a, k, hi⟩ :: spans k es

@[simp] theorem spans_nil (hi : K) : spans hi ([] : List (K × A)) = [] := rfl

@[simp] theorem spans_cons (hi : K) (e : K × A) (es : List (K × A)) :
    spans hi (e :: es) = ⟨e.2, e.1, hi⟩ :: spans e.1 es := rfl

theorem spans_append (hi : K) (es es' : List (K × A)) :
    spans hi (es ++ es') = spans hi es ++ spans (lowest hi es) es' := by
  induction es generalizing hi with
  | nil => rfl
  | cons e es ih => rw [List.cons_append, spans_cons, spans_cons, lowest_cons, ih, List.cons_append]

/-- The entries are what the spans say. -/
theorem map_spans (hi : K) (es : List (K × A)) :
    (spans hi es).map (fun s => (s.lo, s.addr)) = es := by
  induction es generalizing hi with
  | nil => rfl
  | cons e es ih => rw [spans_cons, List.map_cons, ih]

@[simp] theorem spans_eq_nil_iff {hi : K} {es : List (K × A)} : spans hi es = [] ↔ es = [] := by
  cases es <;> simp

/-- A child and where its entry stands. -/
theorem exists_of_mem_spans {hi : K} {es : List (K × A)} {s : Span K A} (h : s ∈ spans hi es) :
    ∃ es₁ es₂, es = es₁ ++ (s.lo, s.addr) :: es₂ ∧ s.hi = lowest hi es₁ := by
  induction es generalizing hi with
  | nil => cases h
  | cons e es ih =>
      rw [spans_cons, List.mem_cons] at h
      rcases h with rfl | h
      · exact ⟨[], es, rfl, rfl⟩
      · obtain ⟨es₁, es₂, rfl, hs⟩ := ih h
        exact ⟨e :: es₁, es₂, rfl, hs⟩

variable [LinearOrder K]

def Span.Covers (s : Span K A) (k : K) : Prop := s.lo ≤ k ∧ k < s.hi

/-- The keys fall and lie in the interval from `lo` to `hi`, `hi` excluded. -/
def Within (lo : K) : K → List (K × A) → Prop
  | _, [] => True
  | hi, (k, _) :: es => lo ≤ k ∧ k < hi ∧ Within lo k es

@[simp] theorem within_nil (lo hi : K) : Within lo hi ([] : List (K × A)) := trivial

@[simp] theorem within_cons {lo hi : K} {e : K × A} {es : List (K × A)} :
    Within lo hi (e :: es) ↔ lo ≤ e.1 ∧ e.1 < hi ∧ Within lo e.1 es := Iff.rfl

section Within

variable {lo hi k : K} {v : A} {es es' : List (K × A)}

theorem within_append :
    Within lo hi (es ++ es') ↔ Within lo hi es ∧ Within lo (lowest hi es) es' := by
  induction es generalizing hi with
  | nil => simp
  | cons e es ih => simp [ih, and_assoc]

/-- Only the keys count. -/
theorem Within.congr_fst (h : Within lo hi es) (hfst : es'.map (·.1) = es.map (·.1)) :
    Within lo hi es' := by
  induction es generalizing hi es' with
  | nil =>
      rw [List.map_nil, List.map_eq_nil_iff] at hfst
      subst hfst
      trivial
  | cons e es ih =>
      obtain ⟨e', es', rfl, he, hes⟩ := List.map_eq_cons_iff.1 hfst
      rw [within_cons] at h ⊢
      rw [he]
      exact ⟨h.1, h.2.1, ih h.2.2 hes⟩

theorem Within.mono {lo' hi' : K} (h : Within lo hi es) (hlo : lo' ≤ lo) (hhi : hi ≤ hi') :
    Within lo' hi' es := by
  cases es with
  | nil => trivial
  | cons e es =>
      obtain ⟨h₁, h₂, h₃⟩ := within_cons.1 h
      refine within_cons.2 ⟨hlo.trans h₁, h₂.trans_le hhi, ?_⟩
      clear h h₁ h₂
      induction es generalizing e with
      | nil => trivial
      | cons e' es ih =>
          obtain ⟨h₁, h₂, h₃⟩ := within_cons.1 h₃
          exact within_cons.2 ⟨hlo.trans h₁, h₂, ih e' h₃⟩

theorem Within.lowest_le (h : Within lo hi es) : lowest hi es ≤ hi := by
  induction es generalizing hi with
  | nil => exact le_refl _
  | cons e es ih =>
      obtain ⟨-, h₂, h₃⟩ := within_cons.1 h
      exact (ih h₃).trans h₂.le

theorem Within.le_lowest (h : Within lo hi es) (hlo : lo ≤ hi) : lo ≤ lowest hi es := by
  induction es generalizing hi with
  | nil => exact hlo
  | cons e es ih =>
      obtain ⟨h₁, -, h₃⟩ := within_cons.1 h
      exact ih h₃ h₁

theorem Within.lt_hi (h : Within lo hi es) : ∀ e ∈ es, e.1 < hi := by
  induction es generalizing hi with
  | nil => simp
  | cons e es ih =>
      obtain ⟨-, h₂, h₃⟩ := within_cons.1 h
      intro e' he'
      rcases List.mem_cons.1 he' with rfl | he'
      · exact h₂
      · exact (ih h₃ e' he').trans h₂

theorem Within.le_key (h : Within lo hi es) : ∀ e ∈ es, lo ≤ e.1 := by
  induction es generalizing hi with
  | nil => simp
  | cons e es ih =>
      obtain ⟨h₁, -, h₃⟩ := within_cons.1 h
      intro e' he'
      rcases List.mem_cons.1 he' with rfl | he'
      · exact h₁
      · exact ih h₃ e' he'

/-- No key lies below the last one. -/
theorem Within.lowest_le_key (h : Within lo hi es) : ∀ e ∈ es, lowest hi es ≤ e.1 := by
  induction es generalizing hi with
  | nil => simp
  | cons e es ih =>
      obtain ⟨-, -, h₃⟩ := within_cons.1 h
      intro e' he'
      rcases List.mem_cons.1 he' with rfl | he'
      · exact h₃.lowest_le
      · exact ih h₃ e' he'

theorem Within.pairwise (h : Within lo hi es) : es.Pairwise fun e e' => e'.1 < e.1 := by
  induction es generalizing hi with
  | nil => exact List.Pairwise.nil
  | cons e es ih =>
      obtain ⟨-, -, h₃⟩ := within_cons.1 h
      exact List.pairwise_cons.2 ⟨h₃.lt_hi, ih h₃⟩

theorem within_of_pairwise (h : es.Pairwise fun e e' => e'.1 < e.1) (hlo : ∀ e ∈ es, lo ≤ e.1)
    (hhi : ∀ e ∈ es, e.1 < hi) : Within lo hi es := by
  induction es generalizing hi with
  | nil => trivial
  | cons e es ih =>
      obtain ⟨h₁, h₂⟩ := List.pairwise_cons.1 h
      exact within_cons.2 ⟨hlo e (by simp), hhi e (by simp),
        ih h₂ (fun e' he' => hlo e' (List.mem_cons_of_mem _ he')) h₁⟩

/-- A new key between two neighbours. -/
theorem within_insert (h : Within lo hi (es ++ es')) (hlo : lo ≤ k) (hk : k < lowest hi es)
    (hes' : ∀ e ∈ es', e.1 < k) : Within lo hi (es ++ (k, v) :: es') := by
  obtain ⟨h₁, h₂⟩ := within_append.1 h
  refine within_append.2 ⟨h₁, within_cons.2 ⟨hlo, hk, ?_⟩⟩
  cases es' with
  | nil => trivial
  | cons e es' => exact within_cons.2 ⟨h₂.1, hes' e (by simp), h₂.2.2⟩

theorem within_erase {e : K × A} (h : Within lo hi (es ++ e :: es')) : Within lo hi (es ++ es') := by
  obtain ⟨h₁, h₂⟩ := within_append.1 h
  obtain ⟨-, h₃, h₄⟩ := within_cons.1 h₂
  exact within_append.2 ⟨h₁, h₄.mono (le_refl _) h₃.le⟩

/-- A key is found among the entries above it and those not above it. -/
theorem exists_cut (h : Within lo hi es) (hk : k < hi) : ∃ es₁ es₂, es = es₁ ++ es₂ ∧
    (∀ e ∈ es₁, k < e.1) ∧ (∀ e ∈ es₂, e.1 ≤ k) ∧ k < lowest hi es₁ := by
  induction es generalizing hi with
  | nil => exact ⟨[], [], rfl, by simp, by simp, hk⟩
  | cons e es ih =>
      obtain ⟨-, -, h₃⟩ := within_cons.1 h
      by_cases hke : k < e.1
      · obtain ⟨es₁, es₂, rfl, h₁, h₂, hlow⟩ := ih h₃ hke
        refine ⟨e :: es₁, es₂, rfl, ?_, h₂, hlow⟩
        intro e' he'
        rcases List.mem_cons.1 he' with rfl | he'
        · exact hke
        · exact h₁ e' he'
      · refine ⟨[], e :: es, rfl, by simp, ?_, hk⟩
        intro e' he'
        rcases List.mem_cons.1 he' with rfl | he'
        · exact not_lt.1 hke
        · exact (h₃.lt_hi e' he').le.trans (not_lt.1 hke)

/-- Below a key that bounds the last entry, every entry is above it. -/
theorem Within.lt_of_lt_lowest (h : Within lo hi es) (hk : k < lowest hi es) :
    ∀ e ∈ es, k < e.1 :=
  fun e he => hk.trans_le (h.lowest_le_key e he)

/-- The last key lowered. -/
theorem within_lower {k' : K} (h : Within lo hi (es ++ [(k', v)])) (hlo : lo ≤ k) (hk : k ≤ k') :
    Within lo hi (es ++ [(k, v)]) := by
  obtain ⟨h₁, -, h₂, -⟩ := within_append.1 h
  exact within_append.2 ⟨h₁, hlo, hk.trans_lt h₂, trivial⟩

end Within

/-! ## Spans side by side -/

/-- Nonempty spans that follow each other downwards, within the interval from `lo` to `hi`. -/
def Separated (lo : K) : K → List (Span K A) → Prop
  | _, [] => True
  | hi, s :: S => lo ≤ s.lo ∧ s.lo < s.hi ∧ s.hi ≤ hi ∧ Separated lo s.lo S

@[simp] theorem separated_nil (lo hi : K) : Separated lo hi ([] : List (Span K A)) := trivial

@[simp] theorem separated_cons {lo hi : K} {s : Span K A} {S : List (Span K A)} :
    Separated lo hi (s :: S) ↔ lo ≤ s.lo ∧ s.lo < s.hi ∧ s.hi ≤ hi ∧ Separated lo s.lo S := Iff.rfl

section Separated

variable {lo hi : K} {es : List (K × A)} {S S' : List (Span K A)}

theorem Separated.mono {lo' hi' : K} (h : Separated lo hi S) (hlo : lo' ≤ lo) (hhi : hi ≤ hi') :
    Separated lo' hi' S := by
  induction S generalizing hi hi' with
  | nil => trivial
  | cons s S ih =>
      obtain ⟨h₁, h₂, h₃, h₄⟩ := separated_cons.1 h
      exact separated_cons.2 ⟨hlo.trans h₁, h₂, h₃.trans hhi, ih h₄ (le_refl _)⟩

theorem Separated.append {m : K} (h : Separated m hi S) (h' : Separated lo m S') (hlo : lo ≤ m)
    (hm : m ≤ hi) : Separated lo hi (S ++ S') := by
  induction S generalizing hi with
  | nil => exact h'.mono (le_refl _) hm
  | cons s S ih =>
      obtain ⟨h₁, h₂, h₃, h₄⟩ := separated_cons.1 h
      exact separated_cons.2 ⟨hlo.trans h₁, h₂, h₃, ih h₄ h₁⟩

theorem Separated.bounds (h : Separated lo hi S) :
    ∀ s ∈ S, lo ≤ s.lo ∧ s.lo < s.hi ∧ s.hi ≤ hi := by
  induction S generalizing hi with
  | nil => simp
  | cons s S ih =>
      obtain ⟨h₁, h₂, h₃, h₄⟩ := separated_cons.1 h
      intro t ht
      rcases List.mem_cons.1 ht with rfl | ht
      · exact ⟨h₁, h₂, h₃⟩
      · obtain ⟨h₅, h₆, h₇⟩ := ih h₄ t ht
        exact ⟨h₅, h₆, h₇.trans (h₂.le.trans h₃)⟩

theorem Separated.pairwise (h : Separated lo hi S) : S.Pairwise fun s t => t.hi ≤ s.lo := by
  induction S generalizing hi with
  | nil => exact List.Pairwise.nil
  | cons s S ih =>
      obtain ⟨-, -, -, h₄⟩ := separated_cons.1 h
      exact List.pairwise_cons.2 ⟨fun t ht => (h₄.bounds t ht).2.2, ih h₄⟩

theorem separated_spans (h : Within lo hi es) : Separated lo hi (spans hi es) := by
  induction es generalizing hi with
  | nil => trivial
  | cons e es ih =>
      obtain ⟨h₁, h₂, h₃⟩ := within_cons.1 h
      exact separated_cons.2 ⟨h₁, h₂, le_refl _, ih h₃⟩

end Separated

end StructLib
