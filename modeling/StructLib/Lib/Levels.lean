import StructLib.Lib.Falling
import StructLib.Lib.Fills
import Mathlib.Data.List.Nodup

set_option autoImplicit false

/-! # Search trees as levels

A search tree whose nodes have many children and whose leaves lie at one depth, as the list of its
levels, the lowest one first. A level is a row of blocks, each with its address, its interval and
its entries; above the lowest level the entries are keys and addresses of children. What connects a
row with the one above it is one equation: its blocks are the children of the blocks above, with the
spans that these give them (`Levels`).

The predicate `P` says what is required of the entries of the lowest row, and `R` what is required
there of the root, should that row be the topmost one. A few levels of a tree from the top downwards
are again such a list of levels, with the numbers of entries of the missing row below as `P`. -/

namespace StructLib

/-- A node: its span and its entries. -/
structure Block (K A : Type) extends Span K A where
  entries : List (K × A)

section Rows

variable {K A : Type}

/-- The spans of the children of a row. -/
def kids (row : List (Block K A)) : List (Span K A) := row.flatMap fun b => spans b.hi b.entries

/-- The entries of a row. -/
def flat (row : List (Block K A)) : List (K × A) := row.flatMap (·.entries)

@[simp] theorem kids_nil : kids ([] : List (Block K A)) = [] := rfl

@[simp] theorem kids_cons (b : Block K A) (row : List (Block K A)) :
    kids (b :: row) = spans b.hi b.entries ++ kids row := rfl

@[simp] theorem kids_append (row row' : List (Block K A)) :
    kids (row ++ row') = kids row ++ kids row' := List.flatMap_append

@[simp] theorem flat_nil : flat ([] : List (Block K A)) = [] := rfl

@[simp] theorem flat_cons (b : Block K A) (row : List (Block K A)) :
    flat (b :: row) = b.entries ++ flat row := rfl

@[simp] theorem flat_append (row row' : List (Block K A)) :
    flat (row ++ row') = flat row ++ flat row' := List.flatMap_append

theorem map_kids (row : List (Block K A)) :
    (kids row).map (fun s => (s.lo, s.addr)) = flat row := by
  induction row with
  | nil => rfl
  | cons b row ih => rw [kids_cons, List.map_append, map_spans, ih, flat_cons]

/-- The addresses of the children. -/
theorem map_addr_kids (row : List (Block K A)) :
    (kids row).map (·.addr) = (flat row).map (·.2) := by
  rw [← map_kids, List.map_map]
  rfl

/-- A child, its parent, and what stands around them. -/
theorem exists_parent {row : List (Block K A)} {S₁ S₂ : List (Span K A)} {s : Span K A}
    (h : kids row = S₁ ++ s :: S₂) : ∃ pp p qq es₁ es₂, row = pp ++ p :: qq ∧
      p.entries = es₁ ++ (s.lo, s.addr) :: es₂ ∧ s.hi = lowest p.hi es₁ ∧
      S₁ = kids pp ++ spans p.hi es₁ ∧ S₂ = spans s.lo es₂ ++ kids qq := by
  induction row generalizing S₁ with
  | nil =>
      rw [kids_nil] at h
      exact absurd h.symm (by simp)
  | cons b row ih =>
      rw [kids_cons, List.append_eq_append_iff] at h
      rcases h with ⟨T, hS, hT⟩ | ⟨T, hS, hT⟩
      · obtain ⟨pp, p, qq, es₁, es₂, rfl, hp, hhi, hT, hS₂⟩ := ih hT
        refine ⟨b :: pp, p, qq, es₁, es₂, rfl, hp, hhi, ?_, hS₂⟩
        rw [hS, hT, kids_cons, List.append_assoc]
      · obtain _ | ⟨t, T⟩ := T
        · rw [List.append_nil] at hS
          have hT' : kids row = [] ++ s :: S₂ := hT.symm
          obtain ⟨pp, p, qq, es₁, es₂, rfl, hp, hhi, hT, hS₂⟩ := ih hT'
          refine ⟨b :: pp, p, qq, es₁, es₂, rfl, hp, hhi, ?_, hS₂⟩
          rw [kids_cons, List.append_assoc, ← hT, List.append_nil, hS]
        · obtain ⟨rfl, rfl⟩ : s = t ∧ S₂ = T ++ kids row := by simpa using hT
          obtain ⟨es₁, es₂, hes, hS₁, hrest⟩ := split_spans hS
          exact ⟨[], b, row, es₁, es₂, rfl, hes, hrest.1, by simpa using hS₁, by rw [hrest.2]⟩
where
  /-- The entries behind a cut of the spans. -/
  split_spans {hi : K} {es : List (K × A)} {S T : List (Span K A)} {s : Span K A}
      (h : spans hi es = S ++ s :: T) : ∃ es₁ es₂, es = es₁ ++ (s.lo, s.addr) :: es₂ ∧
        S = spans hi es₁ ∧ s.hi = lowest hi es₁ ∧ T = spans s.lo es₂ := by
    induction es generalizing hi S with
    | nil => simp at h
    | cons e es ih =>
        rw [spans_cons] at h
        obtain _ | ⟨t, S⟩ := S
        · obtain ⟨rfl, rfl⟩ : _ = s ∧ _ = T := by simpa using h
          exact ⟨[], es, rfl, rfl, rfl, rfl⟩
        · rw [List.cons_append, List.cons.injEq] at h
          obtain ⟨es₁, es₂, hes, hS, hhi, hT⟩ := ih h.2
          refine ⟨e :: es₁, es₂, ?_, ?_, hhi, hT⟩
          · rw [hes, List.cons_append]
          · rw [spans_cons, h.1, hS]

end Rows

/-! ## How many entries the children have -/

section Weights

variable {K A : Type} [DecidableEq A]

/-- The number of entries at an address. -/
def fill (row : List (Block K A)) (a : A) : ℕ :=
  ((row.find? (·.addr = a)).map (·.entries.length)).getD 0

/-- The numbers of entries of the children. -/
def weights (row : List (Block K A)) (es : List (K × A)) : List ℕ := es.map fun e => fill row e.2

variable {row pre mid mid' post : List (Block K A)} {es es' : List (K × A)} {b b' : Block K A} {a : A}

@[simp] theorem weights_append : weights row (es ++ es') = weights row es ++ weights row es' :=
  List.map_append

@[simp] theorem weights_cons {e : K × A} : weights row (e :: es) = fill row e.2 :: weights row es :=
  rfl

@[simp] theorem length_weights : (weights row es).length = es.length := List.length_map ..

/-- The weights do not depend on the keys. -/
theorem weights_congr_snd (h : es.map (·.2) = es'.map (·.2)) : weights row es = weights row es' := by
  have hmap : ∀ l : List (K × A), weights row l = (l.map (·.2)).map (fill row) := by
    intro l
    rw [List.map_map]
    rfl
  rw [hmap, hmap, h]

theorem fill_of_mem (hnd : (row.map (·.addr)).Nodup) (hb : b ∈ row) :
    fill row b.addr = b.entries.length := by
  induction row with
  | nil => cases hb
  | cons c row ih =>
      rw [List.map_cons, List.nodup_cons] at hnd
      unfold fill
      rcases List.mem_cons.1 hb with rfl | hb
      · simp
      · have hne : c.addr ≠ b.addr := by
          intro heq
          exact hnd.1 (heq ▸ List.mem_map_of_mem hb)
        rw [List.find?_cons_of_neg (by simpa using hne)]
        exact ih hnd.2 hb

/-- What stands elsewhere in the row does not count. -/
theorem fill_congr (h : a ∉ mid.map (·.addr)) (h' : a ∉ mid'.map (·.addr)) :
    fill (pre ++ mid ++ post) a = fill (pre ++ mid' ++ post) a := by
  have hnone : ∀ l : List (Block K A), a ∉ l.map (·.addr) → l.find? (·.addr = a) = none := by
    intro l hl
    rw [List.find?_eq_none]
    intro c hc
    simp only [decide_eq_true_eq]
    rintro rfl
    exact hl (List.mem_map_of_mem hc)
  unfold fill
  simp only [List.find?_append, hnone mid h, hnone mid' h', Option.or_none]

theorem weights_congr (h : ∀ e ∈ es, e.2 ∉ mid.map (·.addr) ∧ e.2 ∉ mid'.map (·.addr)) :
    weights (pre ++ mid ++ post) es = weights (pre ++ mid' ++ post) es := by
  unfold weights
  refine List.map_congr_left ?_
  intro e he
  exact fill_congr (h e he).1 (h e he).2

/-- The weights of other parents do not change with the children of one. -/
theorem weights_others {pp qq : List (Block K A)} {p q : Block K A}
    (hnd : ((flat (pp ++ p :: qq)).map (·.2)).Nodup) (hq : q ∈ pp ++ qq)
    (hmid : ∀ c ∈ mid ++ mid', c.addr ∈ p.entries.map (·.2)) :
    weights (pre ++ mid ++ post) q.entries = weights (pre ++ mid' ++ post) q.entries := by
  rw [flat_append, flat_cons, List.map_append, List.map_append] at hnd
  have hdisj : ∀ e ∈ q.entries, e.2 ∉ p.entries.map (·.2) := by
    intro e he hmem
    rw [List.nodup_append, List.nodup_append] at hnd
    rcases List.mem_append.1 hq with hq | hq
    · refine hnd.2.2 e.2 (List.mem_map_of_mem ?_) e.2 (List.mem_append_left _ hmem) rfl
      exact List.mem_flatMap.2 ⟨q, hq, he⟩
    · refine hnd.2.1.2.2 e.2 hmem e.2 (List.mem_map_of_mem ?_) rfl
      exact List.mem_flatMap.2 ⟨q, hq, he⟩
  refine weights_congr ?_
  intro e he
  constructor
  · intro hmem
    obtain ⟨c, hc, heq⟩ := List.mem_map.1 hmem
    exact hdisj e he (heq ▸ hmid c (List.mem_append_left _ hc))
  · intro hmem
    obtain ⟨c, hc, heq⟩ := List.mem_map.1 hmem
    exact hdisj e he (heq ▸ hmid c (List.mem_append_right _ hc))

/-- The weights of the siblings do not change with a few children. -/
theorem weights_siblings {es₁ ms es₂ : List (K × A)}
    (hnd : ((es₁ ++ ms ++ es₂).map (·.2)).Nodup)
    (hmid : ∀ c ∈ mid ++ mid', c.addr ∈ ms.map (·.2)) :
    weights (pre ++ mid ++ post) es₁ = weights (pre ++ mid' ++ post) es₁ ∧
      weights (pre ++ mid ++ post) es₂ = weights (pre ++ mid' ++ post) es₂ := by
  rw [List.map_append, List.map_append, List.nodup_append, List.nodup_append] at hnd
  have hsame : ∀ es : List (K × A), (∀ e ∈ es, e.2 ∉ ms.map (·.2)) →
      weights (pre ++ mid ++ post) es = weights (pre ++ mid' ++ post) es := by
    intro es hes
    refine weights_congr ?_
    intro e he
    constructor
    · intro hmem
      obtain ⟨c, hc, heq⟩ := List.mem_map.1 hmem
      exact hes e he (heq ▸ hmid c (List.mem_append_left _ hc))
    · intro hmem
      obtain ⟨c, hc, heq⟩ := List.mem_map.1 hmem
      exact hes e he (heq ▸ hmid c (List.mem_append_right _ hc))
  constructor
  · refine hsame es₁ ?_
    intro e he hmem
    exact hnd.1.2.2 e.2 (List.mem_map_of_mem he) e.2 hmem rfl
  · refine hsame es₂ ?_
    intro e he hmem
    exact hnd.2.2 e.2 (List.mem_append_right _ hmem) e.2 (List.mem_map_of_mem he) rfl

/-- The weight of the block itself. -/
theorem fill_mid (hnd : ((pre ++ b :: post).map (·.addr)).Nodup) :
    fill (pre ++ b :: post) b.addr = b.entries.length :=
  fill_of_mem hnd (by simp)

/-- A replaced block does not change the weights of the others. -/
theorem fill_replace (haddr : b'.addr = b.addr) (ha : a ≠ b.addr) :
    fill (pre ++ b' :: post) a = fill (pre ++ b :: post) a := by
  have hsplit : ∀ c : Block K A, pre ++ c :: post = pre ++ [c] ++ post := by simp
  rw [hsplit, hsplit]
  exact fill_congr (by simpa [haddr] using ha) (by simpa using ha)

end Weights

/-! ## Levels -/

section Levels

variable {K A : Type} [LinearOrder K]

/-- A block has room for its entries, and they lie in its interval. -/
structure Block.OK (n : ℕ) (b : Block K A) : Prop where
  lo_lt_hi : b.lo < b.hi
  within : Within b.lo b.hi b.entries
  length_le : b.entries.length ≤ n

def RowOK (n : ℕ) (P : List (K × A) → Prop) (row : List (Block K A)) : Prop :=
  ∀ b ∈ row, b.OK n ∧ P b.entries

variable {n : ℕ} {k : K} {row : List (Block K A)} {b : Block K A}

theorem separated_kids {lo hi : K} (h : Separated lo hi (row.map (·.toSpan)))
    (hrow : ∀ b ∈ row, Within b.lo b.hi b.entries) : Separated lo hi (kids row) := by
  induction row generalizing hi with
  | nil => trivial
  | cons b row ih =>
      rw [List.map_cons] at h
      obtain ⟨h₁, h₂, h₃, h₄⟩ := separated_cons.1 h
      have hb := separated_spans (hrow b (by simp))
      rw [kids_cons]
      exact Separated.append (hb.mono (le_refl _) h₃)
        (ih h₄ fun c hc => hrow c (List.mem_cons_of_mem _ hc)) h₁ (h₂.le.trans h₃)

/-- The entries of a row, one after the other. -/
theorem within_flat {lo hi : K} (h : Separated lo hi (row.map (·.toSpan)))
    (hrow : ∀ b ∈ row, Within b.lo b.hi b.entries) : Within lo hi (flat row) := by
  induction row generalizing hi with
  | nil => trivial
  | cons b row ih =>
      rw [List.map_cons] at h
      obtain ⟨h₁, h₂, h₃, h₄⟩ := separated_cons.1 h
      have hb := hrow b (by simp)
      rw [flat_cons, within_append]
      refine ⟨hb.mono h₁ h₃, (ih h₄ fun c hc => hrow c (List.mem_cons_of_mem _ hc)).mono
        (le_refl _) ?_⟩
      rcases hes : b.entries with _ | ⟨e, es⟩
      · exact h₂.le.trans h₃
      · rw [hes] at hb
        exact hb.2.2.le_lowest hb.1

/-- Whoever covers a key has a parent that does, and in the parent all keys to the left of its entry
    are greater. -/
theorem covers_parent {p : Block K A} {es₁ es₂ : List (K × A)} (hp : p.OK n)
    (hes : p.entries = es₁ ++ (b.lo, b.addr) :: es₂) (hhi : b.hi = lowest p.hi es₁)
    (hk : b.Covers k) : p.Covers k ∧ ∀ e ∈ es₁, k < e.1 := by
  have hw := hp.within
  rw [hes] at hw
  obtain ⟨h₁, h₂⟩ := within_append.1 hw
  have hklow : k < lowest p.hi es₁ := hhi ▸ hk.2
  exact ⟨⟨h₂.1.trans hk.1, hklow.trans_le h₁.lowest_le⟩, h₁.lt_of_lt_lowest hklow⟩

/-! ### A new entry among the children -/

/-- The entry `(k, v)` has come in. Where a child was responsible for `k`, the new one takes over the
    keys from `k` on. -/
structure InsertedInto (k : K) (v : A) (S S' : List (Span K A)) : Prop where
  entries : ∃ es₁ es₂, S.map (fun s => (s.lo, s.addr)) = es₁ ++ es₂ ∧
    S'.map (fun s => (s.lo, s.addr)) = es₁ ++ (k, v) :: es₂ ∧ (∀ e ∈ es₁, k < e.1) ∧
    ∀ e ∈ es₂, e.1 < k
  split : ∀ S₁ s S₂, S = S₁ ++ s :: S₂ → s.lo < k → k < s.hi →
    S' = S₁ ++ ⟨v, k, s.hi⟩ :: { s with hi := k } :: S₂

omit [LinearOrder K] in
/-- A list has one cut into a part with a property and a part without it. -/
theorem cut_unique {α : Type} {p : α → Prop} {l₁ l₂ m₁ m₂ : List α} (h : l₁ ++ l₂ = m₁ ++ m₂)
    (hl₁ : ∀ x ∈ l₁, p x) (hl₂ : ∀ x ∈ l₂, ¬p x) (hm₁ : ∀ x ∈ m₁, p x) (hm₂ : ∀ x ∈ m₂, ¬p x) :
    l₁ = m₁ ∧ l₂ = m₂ := by
  classical
  have hfilter : ∀ a b : List α, (∀ x ∈ a, p x) → (∀ x ∈ b, ¬p x) →
      (a ++ b).filter (fun x => p x) = a := by
    intro a b ha hb
    rw [List.filter_append, List.filter_eq_self.2 (by simpa using ha),
      List.filter_eq_nil_iff.2 (by simpa using hb), List.append_nil]
  have h₁ : l₁ = m₁ := by
    rw [← hfilter l₁ l₂ hl₁ hl₂, h, hfilter m₁ m₂ hm₁ hm₂]
  subst h₁
  exact ⟨rfl, List.append_cancel_left h⟩

/-- What lies in a row to the left and to the right of a block that covers the key. -/
theorem bounds_around {lo hi : K} {pre post : List (Block K A)}
    (hsep : Separated lo hi ((pre ++ b :: post).map (·.toSpan)))
    (hrow : ∀ c ∈ pre ++ b :: post, Within c.lo c.hi c.entries) (hcov : b.Covers k) :
    (∀ s ∈ kids pre, k < s.lo) ∧ ∀ s ∈ kids post, s.lo < k ∧ s.hi ≤ k := by
  have hpw := hsep.pairwise
  rw [List.map_append, List.map_cons, List.pairwise_append, List.pairwise_cons] at hpw
  obtain ⟨-, ⟨hpost, -⟩, hpre⟩ := hpw
  constructor
  · intro s hs
    obtain ⟨c, hc, hs⟩ := List.mem_flatMap.1 hs
    have hbound := (separated_spans (hrow c (by simp [hc]))).bounds s hs
    have hcb := hpre c.toSpan (List.mem_map_of_mem hc) b.toSpan (by simp)
    exact (hcov.2.trans_le hcb).trans_le hbound.1
  · intro s hs
    obtain ⟨c, hc, hs⟩ := List.mem_flatMap.1 hs
    have hbound := (separated_spans (hrow c (by simp [hc]))).bounds s hs
    have hcb := hpost c.toSpan (List.mem_map_of_mem hc)
    have hle : s.hi ≤ k := (hbound.2.2.trans hcb).trans hcov.1
    exact ⟨hbound.2.1.trans_le hle, hle⟩

/-- The entry comes into the block that covers its key. -/
theorem insertedInto_block {lo hi : K} {pre post : List (Block K A)} {es₁ es₂ : List (K × A)} (v : A)
    (hsep : Separated lo hi ((pre ++ b :: post).map (·.toSpan)))
    (hrow : ∀ c ∈ pre ++ b :: post, Within c.lo c.hi c.entries) (hcov : b.Covers k)
    (hes : b.entries = es₁ ++ es₂) (h₁ : ∀ e ∈ es₁, k < e.1) (h₂ : ∀ e ∈ es₂, e.1 < k) :
    InsertedInto k v (kids (pre ++ b :: post))
      (kids (pre ++ { b with entries := es₁ ++ (k, v) :: es₂ } :: post)) := by
  obtain ⟨hleft, hright⟩ := bounds_around hsep hrow hcov
  have hkids : kids (pre ++ b :: post) =
      (kids pre ++ spans b.hi es₁) ++ (spans (lowest b.hi es₁) es₂ ++ kids post) := by
    rw [kids_append, kids_cons, hes, spans_append]
    simp
  have hleft' : ∀ s ∈ kids pre ++ spans b.hi es₁, k < s.lo := by
    intro s hs
    rcases List.mem_append.1 hs with hs | hs
    · exact hleft s hs
    · obtain ⟨es, es', rfl, -⟩ := exists_of_mem_spans hs
      exact h₁ (s.lo, s.addr) (by simp)
  have hright' : ∀ s ∈ spans (lowest b.hi es₁) es₂ ++ kids post, s.lo < k := by
    intro s hs
    rcases List.mem_append.1 hs with hs | hs
    · obtain ⟨es, es', rfl, -⟩ := exists_of_mem_spans hs
      exact h₂ (s.lo, s.addr) (by simp)
    · exact (hright s hs).1
  refine ⟨⟨flat pre ++ es₁, es₂ ++ flat post, ?_, ?_, ?_, ?_⟩, ?_⟩
  · rw [map_kids, flat_append, flat_cons, hes]
    simp
  · rw [map_kids, flat_append, flat_cons]
    simp
  · intro e he
    rw [← map_kids, ← map_spans b.hi es₁, ← List.map_append] at he
    obtain ⟨s, hs, rfl⟩ := List.mem_map.1 he
    exact hleft' s hs
  · intro e he
    rw [← map_kids, ← map_spans (lowest b.hi es₁) es₂, ← List.map_append] at he
    obtain ⟨s, hs, rfl⟩ := List.mem_map.1 he
    exact hright' s hs
  · intro S₁ s S₂ hS hslo hshi
    have hpw := (separated_kids hsep hrow).pairwise
    have hlt := (separated_kids hsep hrow).bounds
    rw [hS] at hlt hpw
    obtain ⟨-, hpw₂, hpw₁⟩ := List.pairwise_append.1 hpw
    obtain ⟨hX, hZ⟩ := cut_unique (p := fun t : Span K A => k < t.lo) (hS.symm.trans hkids)
      (fun t ht => hshi.trans_le (hpw₁ t ht s (by simp)))
      (by
        intro t ht
        rcases List.mem_cons.1 ht with rfl | ht
        · exact not_lt.2 hslo.le
        · have := (List.pairwise_cons.1 hpw₂).1 t ht
          exact not_lt.2 (((hlt t (by simp [ht])).2.1.trans_le this).trans hslo).le)
      hleft' fun t ht => not_lt.2 (hright' t ht).le
    cases es₂ with
    | nil =>
        have hs : s ∈ kids post := by
          rw [spans_nil, List.nil_append] at hZ
          rw [← hZ]
          simp
        exact absurd hshi (not_lt.2 (hright s hs).2)
    | cons e es₂ =>
        rw [spans_cons, List.cons_append, List.cons.injEq] at hZ
        obtain ⟨rfl, rfl⟩ := hZ
        rw [hX, kids_append, kids_cons, spans_append, spans_cons, spans_cons]
        simp

/-- The weights of all parents after a change of a few children of one of them: those of the other
    children are what they were. -/
theorem shape_others [DecidableEq A] {pp qq mid pre post : List (Block K A)} {p : Block K A}
    {es₁ ms es₂ : List (K × A)} (mid' : List (Block K A))
    (hrow : RowOK n (fun es => Shape n (weights (pre ++ mid ++ post) es)) (pp ++ p :: qq))
    (hnd : ((flat (pp ++ p :: qq)).map (·.2)).Nodup) (hp : p.entries = es₁ ++ ms ++ es₂)
    (hmid : ∀ c ∈ mid ++ mid', c.addr ∈ ms.map (·.2)) :
    (∀ q ∈ pp ++ qq, Shape n (weights (pre ++ mid' ++ post) q.entries)) ∧
      Shape n (weights (pre ++ mid' ++ post) es₁ ++ weights (pre ++ mid ++ post) ms ++
        weights (pre ++ mid' ++ post) es₂) := by
  constructor
  · intro q hq
    rw [← weights_others hnd hq ?_]
    · exact (hrow q (by
        rcases List.mem_append.1 hq with hq | hq
        · simp [hq]
        · simp [hq])).2
    · intro c hc
      rw [hp, List.map_append, List.map_append]
      exact List.mem_append_left _ (List.mem_append_right _ (hmid c hc))
  · have hnd' : ((es₁ ++ ms ++ es₂).map (·.2)).Nodup := by
      rw [flat_append, flat_cons, List.map_append, List.map_append, List.nodup_append,
        List.nodup_append, hp] at hnd
      exact hnd.2.1.1
    obtain ⟨h₁, h₂⟩ : weights (pre ++ mid ++ post) es₁ = weights (pre ++ mid' ++ post) es₁ ∧
        weights (pre ++ mid ++ post) es₂ = weights (pre ++ mid' ++ post) es₂ :=
      weights_siblings hnd' hmid
    have hshape := (hrow p (by simp)).2
    rw [hp, weights_append, weights_append] at hshape
    rw [← h₁, ← h₂]
    exact hshape

/-- What is required of the entries of a root above the leaves. -/
def Top (n : ℕ) (es : List (K × A)) : Prop := n % 2 = 0 → 2 ≤ es.length

variable [DecidableEq A]

/-- The levels of a tree for the keys from `bot` to `top`, `top` excluded. -/
def Levels (n : ℕ) (bot top : K) :
    (List (K × A) → Prop) → (List (K × A) → Prop) → List (List (Block K A)) → Prop
  | _, _, [] => False
  | P, R, [row] => RowOK n P row ∧ ∃ b, row = [b] ∧ b.lo = bot ∧ b.hi = top ∧ R b.entries
  | P, _, row :: par :: above =>
      RowOK n P row ∧ row.map (·.toSpan) = kids par ∧
        Levels n bot top (fun es => Shape n (weights row es)) (Top n) (par :: above)

variable {bot top : K} {P P' R R' : List (K × A) → Prop} {par pre post : List (Block K A)}
  {above : List (List (Block K A))} {b' : Block K A}

theorem Levels.rowOK (h : Levels n bot top P R (row :: above)) : RowOK n P row := by
  cases above with
  | nil => exact h.1
  | cons par above => exact h.1

theorem Levels.imp (h : Levels n bot top P R (row :: above))
    (hP : ∀ b ∈ row, P b.entries → P' b.entries)
    (hR : above = [] → ∀ b ∈ row, R b.entries → R' b.entries) :
    Levels n bot top P' R' (row :: above) := by
  have hrow : RowOK n P' row := fun b hb => ⟨(h.rowOK b hb).1, hP b hb (h.rowOK b hb).2⟩
  cases above with
  | nil =>
      obtain ⟨-, b, rfl, hlo, hhi, hroot⟩ := h
      exact ⟨hrow, b, rfl, hlo, hhi, hR rfl b (List.mem_singleton_self b) hroot⟩
  | cons par above => exact ⟨hrow, h.2⟩

theorem Levels.separated (h : Levels n bot top P R (row :: above)) :
    Separated bot top (row.map (·.toSpan)) := by
  induction above generalizing row P R with
  | nil =>
      obtain ⟨hrow, b, rfl, rfl, rfl, -⟩ := h
      have hlt := (hrow b (by simp)).1.lo_lt_hi
      exact ⟨le_refl _, hlt, le_refl _, trivial⟩
  | cons par above ih =>
      obtain ⟨-, hspan, habove⟩ := h
      rw [hspan]
      exact separated_kids (ih habove) fun b hb => (habove.rowOK b hb).1.within

theorem Levels.within_flat (h : Levels n bot top P R (row :: above)) : Within bot top (flat row) :=
  StructLib.within_flat h.separated fun b hb => (h.rowOK b hb).1.within

theorem Levels.separated_kids (h : Levels n bot top P R (row :: above)) :
    Separated bot top (kids row) :=
  StructLib.separated_kids h.separated fun b hb => (h.rowOK b hb).1.within

/-- The addresses of the children of a row are those of the row below. -/
theorem Levels.map_snd_flat (h : Levels n bot top P R (row :: par :: above)) :
    (flat par).map (·.2) = row.map (·.addr) := by
  rw [← map_addr_kids, ← h.2.1, List.map_map]
  rfl

/-- The parent of a block. -/
theorem Levels.exists_parent (h : Levels n bot top P R ((pre ++ b :: post) :: par :: above)) :
    ∃ pp p qq es₁ es₂, par = pp ++ p :: qq ∧ p.entries = es₁ ++ (b.lo, b.addr) :: es₂ ∧
      b.hi = lowest p.hi es₁ ∧ pre.map (·.toSpan) = kids pp ++ spans p.hi es₁ ∧
      post.map (·.toSpan) = spans b.lo es₂ ++ kids qq := by
  have hkids : kids par = pre.map (·.toSpan) ++ b.toSpan :: post.map (·.toSpan) := by
    rw [← h.2.1, List.map_append, List.map_cons]
  exact StructLib.exists_parent hkids

/-- The child that an entry points to. -/
theorem Levels.exists_child {pp qq : List (Block K A)} {p : Block K A} {e : K × A}
    {es₁ es₂ : List (K × A)} (h : Levels n bot top P R (row :: (pp ++ p :: qq) :: above))
    (hp : p.entries = es₁ ++ e :: es₂) : ∃ pre b post, row = pre ++ b :: post ∧
      b.toSpan = ⟨e.2, e.1, lowest p.hi es₁⟩ ∧
      pre.map (·.toSpan) = kids pp ++ spans p.hi es₁ ∧
      post.map (·.toSpan) = spans e.1 es₂ ++ kids qq := by
  have hkids : row.map (·.toSpan) =
      (kids pp ++ spans p.hi es₁) ++ ⟨e.2, e.1, lowest p.hi es₁⟩ :: (spans e.1 es₂ ++ kids qq) := by
    rw [h.2.1, kids_append, kids_cons, hp, spans_append, spans_cons]
    simp
  obtain ⟨pre, rest, rfl, hpre, hrest⟩ := List.map_eq_append_iff.1 hkids
  obtain ⟨b, post, rfl, hb, hpost⟩ := List.map_eq_cons_iff.1 hrest
  exact ⟨pre, b, post, rfl, hb, hpre, hpost⟩

theorem Levels.nodup_flat (h : Levels n bot top P R (row :: par :: above))
    (hnd : (row.map (·.addr)).Nodup) : ((flat par).map (·.2)).Nodup :=
  h.map_snd_flat ▸ hnd

/-- The numbers of entries in the row below change at one address. -/
theorem Levels.reweigh {row' : List (Block K A)}
    (h : Levels n bot top (fun es => Shape n (weights row es)) R (par :: above))
    (hnd : ((flat par).map (·.2)).Nodup) (a : A)
    (hsame : ∀ c ∈ (flat par).map (·.2), c ≠ a → fill row' c = fill row c)
    (hshape : ∀ p ∈ par, ∀ key es₁ es₂, p.entries = es₁ ++ (key, a) :: es₂ →
      Shape n (weights row es₁ ++ fill row a :: weights row es₂) →
      Shape n (weights row es₁ ++ fill row' a :: weights row es₂)) :
    Levels n bot top (fun es => Shape n (weights row' es)) R (par :: above) := by
  refine h.imp ?_ fun _ _ _ => id
  intro p hp hp'
  have hsub : p.entries.Sublist (flat par) := by
    obtain ⟨pp, qq, rfl⟩ := List.append_of_mem hp
    rw [flat_append, flat_cons]
    exact (List.sublist_append_left _ _).trans (List.sublist_append_right _ _)
  have hpnd : (p.entries.map (·.2)).Nodup := hnd.sublist (hsub.map _)
  have hweights : ∀ es : List (K × A), (∀ e ∈ es, e ∈ p.entries ∧ e.2 ≠ a) →
      weights row' es = weights row es := by
    intro es hes
    refine List.map_congr_left ?_
    intro e he
    exact hsame e.2 (List.mem_map_of_mem (hsub.subset (hes e he).1)) (hes e he).2
  by_cases hmem : ∃ e ∈ p.entries, e.2 = a
  · obtain ⟨⟨key, a'⟩, he, rfl⟩ := hmem
    obtain ⟨es₁, es₂, hes⟩ := List.append_of_mem he
    rw [hes, List.map_append, List.map_cons, List.nodup_append] at hpnd
    obtain ⟨-, hnd₂, hnd₁⟩ := hpnd
    have h₁ : weights row' es₁ = weights row es₁ := by
      refine hweights es₁ ?_
      intro e he
      exact ⟨by simp [hes, he], fun heq => hnd₁ _ (List.mem_map_of_mem he) _ (by simp) heq⟩
    have h₂ : weights row' es₂ = weights row es₂ := by
      refine hweights es₂ ?_
      intro e he
      exact ⟨by simp [hes, he], fun heq =>
        (List.nodup_cons.1 hnd₂).1 (List.mem_map.2 ⟨e, he, heq⟩)⟩
    have hsh := hshape p hp key es₁ es₂ hes
    rw [hes, weights_append, weights_cons] at hp'
    rw [hes, weights_append, weights_cons, h₁, h₂]
    exact hsh hp'
  · rw [hweights p.entries fun e he => ⟨he, fun heq => hmem ⟨e, he, heq⟩⟩]
    exact hp'

/-- A block of the lowest row is replaced by one with the same span. `hshape` is about the parent's
    view of the new number of entries. -/
theorem Levels.replace (hnd : ((pre ++ b :: post).map (·.addr)).Nodup)
    (h : Levels n bot top P R ((pre ++ b :: post) :: above))
    (hspan : b'.toSpan = b.toSpan) (hrow : RowOK n P' (pre ++ b' :: post))
    (hroot : above = [] → R' b'.entries)
    (hshape : ∀ par above', above = par :: above' → ∀ p ∈ par, ∀ key es₁ es₂,
      p.entries = es₁ ++ (key, b.addr) :: es₂ →
      Shape n (weights (pre ++ b :: post) es₁ ++ b.entries.length ::
        weights (pre ++ b :: post) es₂) →
      Shape n (weights (pre ++ b :: post) es₁ ++ b'.entries.length ::
        weights (pre ++ b :: post) es₂)) :
    Levels n bot top P' R' ((pre ++ b' :: post) :: above) := by
  have haddr : b'.addr = b.addr := congrArg Span.addr hspan
  cases above with
  | nil =>
      obtain ⟨-, c, hc, hclo, hchi, -⟩ := h
      obtain ⟨rfl, rfl, rfl⟩ : pre = [] ∧ b = c ∧ post = [] := by
        cases pre with
        | nil => simpa using hc
        | cons d pre => simp at hc
      exact ⟨hrow, b', rfl, (congrArg Span.lo hspan).trans hclo, (congrArg Span.hi hspan).trans hchi,
        hroot rfl⟩
  | cons par above =>
      have hfill := fill_mid hnd
      have hfill' : fill (pre ++ b' :: post) b.addr = b'.entries.length := by
        rw [← haddr]
        refine fill_mid ?_
        simpa [haddr] using hnd
      refine ⟨hrow, ?_, h.2.2.reweigh (h.nodup_flat hnd) b.addr ?_ ?_⟩
      · rw [← h.2.1]
        simp [hspan]
      · intro c _ hc
        exact fill_replace haddr hc
      · rw [hfill, hfill']
        exact hshape par above rfl

/-- All of a block but the lower end of its interval. -/
def Block.body (b : Block K A) : A × K × List (K × A) := (b.addr, b.hi, b.entries)

omit [LinearOrder K] [DecidableEq A] in
theorem kids_eq_of_body {row' : List (Block K A)} (h : row'.map Block.body = row.map Block.body) :
    kids row' = kids row := by
  have hkids : ∀ l : List (Block K A),
      kids l = (l.map Block.body).flatMap fun x => spans x.2.1 x.2.2 := by
    intro l
    rw [List.flatMap_map]
    rfl
  rw [hkids, hkids, h]

omit [LinearOrder K] [DecidableEq A] in
theorem flat_eq_of_body {row' : List (Block K A)} (h : row'.map Block.body = row.map Block.body) :
    flat row' = flat row := by
  rw [← map_kids, ← map_kids, kids_eq_of_body h]

omit [LinearOrder K] [DecidableEq A] in
theorem exists_of_body {row' : List (Block K A)} (h : row'.map Block.body = row.map Block.body)
    (hb : b ∈ row') : ∃ c ∈ row, c.addr = b.addr ∧ c.hi = b.hi ∧ c.entries = b.entries := by
  have hmem : b.body ∈ row.map Block.body := h ▸ List.mem_map_of_mem hb
  obtain ⟨c, hc, hcb⟩ := List.mem_map.1 hmem
  exact ⟨c, hc, by simpa [Block.body] using hcb⟩

/-- Where a block lies and what it holds. -/
def Block.core (b : Block K A) : A × List (K × A) := (b.addr, b.entries)

omit [LinearOrder K] [DecidableEq A] in
theorem core_eq_of_body {row' : List (Block K A)} (h : row'.map Block.body = row.map Block.body) :
    row'.map Block.core = row.map Block.core := by
  have := congrArg (List.map fun x => (x.1, x.2.2)) h
  rwa [List.map_map, List.map_map] at this

omit [LinearOrder K] in
theorem weights_eq_of_core {row' : List (Block K A)} (h : row'.map Block.core = row.map Block.core)
    (es : List (K × A)) : weights row' es = weights row es := by
  have hfill : ∀ (l : List (Block K A)) (a : A), fill l a =
      (((l.map Block.core).find? (·.1 = a)).map (·.2.length)).getD 0 := by
    intro l a
    rw [List.find?_map, Option.map_map]
    rfl
  unfold weights
  refine List.map_congr_left ?_
  intro e _
  rw [hfill, hfill, h]

omit [LinearOrder K] [DecidableEq A] in
theorem map_addr_eq_of_body {row' : List (Block K A)}
    (h : row'.map Block.body = row.map Block.body) : row'.map (·.addr) = row.map (·.addr) := by
  have := congrArg (List.map Prod.fst) h
  rwa [List.map_map, List.map_map] at this

/-- The last child of a block is made responsible for smaller keys. -/
theorem Levels.lower {pp qq : List (Block K A)} {p : Block K A} {es : List (K × A)}
    (h : Levels n bot top P R ((pre ++ b :: post) :: (pp ++ p :: qq) :: above))
    (hnd : ((pp ++ p :: qq).map (·.addr)).Nodup) (hes : p.entries = es ++ [(b.lo, b.addr)])
    (hhi : b.hi = lowest p.hi es) (hpre : pre.map (·.toSpan) = kids pp ++ spans p.hi es)
    (hpost : post.map (·.toSpan) = kids qq) (hlo : p.lo ≤ k) (hk : k ≤ b.lo) :
    Levels n bot top P R ((pre ++ { b with lo := k } :: post) ::
      (pp ++ { p with entries := es ++ [(k, b.addr)] } :: qq) :: above) := by
  obtain ⟨hrow, -, habove⟩ := h
  have hbody : (pre ++ { b with lo := k } :: post).map Block.body =
      (pre ++ b :: post).map Block.body := by
    simp [Block.body]
  have hw := (habove.rowOK p (by simp)).1.within
  rw [hes] at hw
  refine ⟨?_, ?_, ?_⟩
  · intro d hd
    rcases List.mem_append.1 hd with hd | hd
    · exact hrow d (by simp [hd])
    · rcases List.mem_cons.1 hd with rfl | hd
      · obtain ⟨hok, hP⟩ := hrow b (by simp)
        exact ⟨⟨hk.trans_lt hok.lo_lt_hi, hok.within.mono hk (le_refl _), hok.length_le⟩, hP⟩
      · exact hrow d (by simp [hd])
  · rw [List.map_append, List.map_cons, hpre, hpost, kids_append, kids_cons, spans_append, hhi]
    simp
  · have hweights : ∀ es, weights (pre ++ { b with lo := k } :: post) es =
        weights (pre ++ b :: post) es := weights_eq_of_core (core_eq_of_body hbody)
    simp only [hweights]
    refine habove.replace hnd rfl ?_ ?_ ?_
    · intro d hd
      rcases List.mem_append.1 hd with hd | hd
      · exact habove.rowOK d (by simp [hd])
      · rcases List.mem_cons.1 hd with rfl | hd
        · obtain ⟨hok, hP⟩ := habove.rowOK p (by simp)
          refine ⟨⟨hok.lo_lt_hi, within_lower hw hlo hk, ?_⟩, ?_⟩
          · simpa [hes] using hok.length_le
          · have hsnd : p.entries.map (·.2) = (es ++ [(k, b.addr)]).map (·.2) := by simp [hes]
            show Shape n (weights (pre ++ b :: post) (es ++ [(k, b.addr)]))
            rw [← weights_congr_snd hsnd]
            exact hP
        · exact habove.rowOK d (by simp [hd])
    · rintro rfl
      obtain ⟨-, c, hc, -, -, hR⟩ := habove
      obtain ⟨rfl, rfl, rfl⟩ : pp = [] ∧ p = c ∧ qq = [] := by
        cases pp with
        | nil => simpa using hc
        | cons d pp => simp at hc
      simpa [Top, hes] using hR
    · intro par' above' _ q _ key es₁ es₂ _ hshape
      simpa [hes] using hshape

/-! ### The halves of a block -/

/-- The first `h` entries, at the address `a`. -/
def Block.leftHalf (h : ℕ) (a : A) (b : Block K A) : Block K A :=
  ⟨⟨a, lowest b.hi (b.entries.take h), b.hi⟩, b.entries.take h⟩

/-- The other entries. -/
def Block.rightHalf (h : ℕ) (b : Block K A) : Block K A :=
  ⟨⟨b.addr, b.lo, lowest b.hi (b.entries.take h)⟩, b.entries.drop h⟩

variable {h : ℕ} {a : A}

omit [LinearOrder K] [DecidableEq A] in
theorem kids_halves : kids (pre ++ b.leftHalf h a :: b.rightHalf h :: post) =
    kids (pre ++ b :: post) := by
  have hspans : spans b.hi (b.entries.take h) ++
      spans (lowest b.hi (b.entries.take h)) (b.entries.drop h) = spans b.hi b.entries := by
    rw [← spans_append, List.take_append_drop]
  rw [kids_append, kids_append, kids_cons, kids_cons, kids_cons, ← hspans, List.append_assoc]
  rfl

omit [DecidableEq A] in
theorem halves_lt (hok : b.OK n) (hpos : 0 < h) (hlt : h < b.entries.length) :
    b.lo < lowest b.hi (b.entries.take h) ∧ lowest b.hi (b.entries.take h) < b.hi := by
  have hw := hok.within
  rw [← List.take_append_drop h b.entries] at hw
  obtain ⟨hw₁, hw₂⟩ := within_append.1 hw
  constructor
  · cases hdrop : b.entries.drop h with
    | nil =>
        have := congrArg List.length hdrop
        rw [List.length_drop, List.length_nil] at this
        omega
    | cons e es =>
        rw [hdrop] at hw₂
        exact hw₂.1.trans_lt hw₂.2.1
  · cases htake : b.entries.take h with
    | nil =>
        have := congrArg List.length htake
        rw [List.length_take, List.length_nil] at this
        omega
    | cons e es =>
        rw [htake] at hw₁
        exact hw₁.2.2.lowest_le.trans_lt hw₁.2.1

omit [DecidableEq A] in
theorem rowOK_halves (hrow : RowOK n P (pre ++ b :: post)) (hpos : 0 < h)
    (hlt : h < b.entries.length) (hP : P (b.entries.take h) ∧ P (b.entries.drop h)) :
    RowOK n P (pre ++ b.leftHalf h a :: b.rightHalf h :: post) := by
  obtain ⟨hok, -⟩ := hrow b (by simp)
  obtain ⟨hlo, hhi⟩ := halves_lt hok hpos hlt
  have hlen := hok.length_le
  have hw := hok.within
  rw [← List.take_append_drop h b.entries] at hw
  obtain ⟨hw₁, hw₂⟩ := within_append.1 hw
  intro c hc
  rw [List.mem_append, List.mem_cons, List.mem_cons] at hc
  rcases hc with hc | rfl | rfl | hc
  · exact hrow c (by simp [hc])
  · refine ⟨⟨hhi, within_of_pairwise hw₁.pairwise hw₁.lowest_le_key hw₁.lt_hi, ?_⟩, hP.1⟩
    exact (List.length_take_le' h b.entries).trans hlen
  · refine ⟨⟨hlo, hw₂, ?_⟩, hP.2⟩
    unfold Block.rightHalf
    rw [List.length_drop]
    omega
  · exact hrow c (by simp [hc])

omit [LinearOrder K] in
/-- A child that was at least half full is so after a split. -/
theorem fill_halves {c : A} (hnd : (a :: (pre ++ b :: post).map (·.addr)).Nodup)
    (hlen : b.entries.length = n) :
    fill (pre ++ b.leftHalf (n / 2) a :: b.rightHalf (n / 2) :: post) c = fill (pre ++ b :: post) c ∨
      n / 2 ≤ fill (pre ++ b.leftHalf (n / 2) a :: b.rightHalf (n / 2) :: post) c := by
  have hnd' : ((pre ++ b.leftHalf (n / 2) a :: b.rightHalf (n / 2) :: post).map (·.addr)).Nodup := by
    have hperm : ((pre ++ b.leftHalf (n / 2) a :: b.rightHalf (n / 2) :: post).map (·.addr)).Perm
        (a :: (pre ++ b :: post).map (·.addr)) := by
      rw [List.map_append, List.map_cons, List.map_append]
      exact List.perm_middle
    exact hperm.nodup_iff.2 hnd
  by_cases hca : c = a
  · subst hca
    have hleft : fill (pre ++ b.leftHalf (n / 2) c :: b.rightHalf (n / 2) :: post) c =
        (b.leftHalf (n / 2) c).entries.length := fill_mid (b := b.leftHalf (n / 2) c) hnd'
    refine .inr ?_
    rw [hleft]
    unfold Block.leftHalf
    rw [List.length_take]
    omega
  · by_cases hcb : c = b.addr
    · subst hcb
      have hright : fill (pre ++ b.leftHalf (n / 2) a :: b.rightHalf (n / 2) :: post) b.addr =
          (b.rightHalf (n / 2)).entries.length := fill_of_mem (b := b.rightHalf (n / 2)) hnd' (by simp)
      refine .inr ?_
      rw [hright]
      unfold Block.rightHalf
      rw [List.length_drop]
      omega
    · have hsplit : pre ++ b.leftHalf (n / 2) a :: b.rightHalf (n / 2) :: post =
          pre ++ [b.leftHalf (n / 2) a, b.rightHalf (n / 2)] ++ post := by simp
      have hone : pre ++ b :: post = pre ++ [b] ++ post := by simp
      have hsame : fill (pre ++ [b.leftHalf (n / 2) a, b.rightHalf (n / 2)] ++ post) c =
          fill (pre ++ [b] ++ post) c := by
        refine fill_congr ?_ (by simpa using hcb)
        simpa [Block.leftHalf, Block.rightHalf] using ⟨hca, hcb⟩
      exact .inl (by rw [hsplit, hsame, ← hone])

/-- A block is split, the rows above having become those of its halves. -/
theorem Levels.split {par' : List (Block K A)} {above' : List (List (Block K A))}
    (hrow : RowOK n P (pre ++ b :: post)) (hpos : 0 < h) (hlt : h < b.entries.length)
    (hP : P (b.entries.take h) ∧ P (b.entries.drop h))
    (hkids : kids par' = pre.map (·.toSpan) ++ (b.leftHalf h a).toSpan :: (b.rightHalf h).toSpan ::
      post.map (·.toSpan))
    (habove : Levels n bot top (fun es => Shape n (weights
      (pre ++ b.leftHalf h a :: b.rightHalf h :: post) es)) (Top n) (par' :: above')) :
    Levels n bot top P R ((pre ++ b.leftHalf h a :: b.rightHalf h :: post) :: par' :: above') := by
  refine ⟨rowOK_halves hrow hpos hlt hP, ?_, habove⟩
  rw [hkids]
  simp

end Levels

end StructLib
