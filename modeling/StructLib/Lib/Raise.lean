import StructLib.Lib.Levels
import Mathlib.Data.List.Forall2

set_option autoImplicit false

/-! # A child goes

When a child leaves a row, its right neighbour in the same parent takes over its keys, and so does
the leftmost child of the neighbour, and so on down to the leaves: intervals become longer at their
upper ends (`Raised`). -/

namespace StructLib

variable {K A : Type} [LinearOrder K]

/-- The same children with intervals that reach further up. -/
def Raised (S S' : List (Span K A)) : Prop :=
  List.Forall₂ (fun s t => t.addr = s.addr ∧ t.lo = s.lo ∧ s.hi ≤ t.hi) S S'

variable {S S' T T' : List (Span K A)} {hi hi' : K} {es : List (K × A)}

theorem Raised.refl (S : List (Span K A)) : Raised S S := by
  unfold Raised
  rw [List.forall₂_same]
  exact fun s _ => ⟨rfl, rfl, le_refl _⟩

theorem Raised.append (h : Raised S S') (h' : Raised T T') : Raised (S ++ T) (S' ++ T') :=
  List.rel_append h h'

@[simp] theorem raised_nil : Raised ([] : List (Span K A)) S ↔ S = [] := List.forall₂_nil_left_iff

theorem raised_cons {s t : Span K A} (haddr : t.addr = s.addr) (hlo : t.lo = s.lo) (hle : s.hi ≤ t.hi)
    (h : Raised S S') : Raised (s :: S) (t :: S') := List.Forall₂.cons ⟨haddr, hlo, hle⟩ h

theorem Raised.length_eq (h : Raised S S') : S'.length = S.length := (List.Forall₂.length_eq h).symm

theorem Raised.map_eq (h : Raised S S') :
    S'.map (fun s => (s.lo, s.addr)) = S.map fun s => (s.lo, s.addr) := by
  induction h with
  | nil => rfl
  | cons hst _ ih => rw [List.map_cons, List.map_cons, ih, hst.1, hst.2.1]

theorem raised_spans (h : hi ≤ hi') (es : List (K × A)) : Raised (spans hi es) (spans hi' es) := by
  cases es with
  | nil => exact List.Forall₂.nil
  | cons e es => exact raised_cons rfl rfl h (Raised.refl _)

theorem lowest_mono (h : hi ≤ hi') (es : List (K × A)) : lowest hi es ≤ lowest hi' es := by
  cases es with
  | nil => exact h
  | cons e es => exact le_refl _

variable {X : List (Block K A)}

/-- The blocks with raised intervals. -/
theorem exists_raise (h : Raised (X.map (·.toSpan)) S') : ∃ X' : List (Block K A),
    X'.map (·.toSpan) = S' ∧ X'.map Block.core = X.map Block.core ∧ Raised (kids X) (kids X') ∧
      ∀ n P, RowOK n P X → RowOK n P X' := by
  induction X generalizing S' with
  | nil =>
      rw [List.map_nil, raised_nil] at h
      subst h
      exact ⟨[], rfl, rfl, Raised.refl _, fun _ _ => id⟩
  | cons b X ih =>
      unfold Raised at h
      rw [List.map_cons, List.forall₂_cons_left_iff] at h
      obtain ⟨t, T, ⟨haddr, hlo, hle⟩, hT, rfl⟩ := h
      obtain ⟨X', hspan, hcore, hkids, hrow⟩ := ih hT
      refine ⟨⟨t, b.entries⟩ :: X', ?_, ?_, ?_, ?_⟩
      · rw [List.map_cons, hspan]
      · rw [List.map_cons, List.map_cons, hcore]
        unfold Block.core
        rw [haddr]
      · rw [kids_cons, kids_cons]
        exact (raised_spans hle b.entries).append hkids
      · intro n P hP c hc
        rcases List.mem_cons.1 hc with rfl | hc
        · obtain ⟨hok, hPb⟩ := hP b (by simp)
          refine ⟨⟨?_, ?_, hok.length_le⟩, hPb⟩
          · rw [hlo]
            exact hok.lo_lt_hi.trans_le hle
          · exact hok.within.mono hlo.le hle
        · exact hrow n P (fun d hd => hP d (List.mem_cons_of_mem _ hd)) c hc

end StructLib
