import StructLib.Strlist.Model
import StructLib.Rblist.Refine
import Mathlib.Data.List.Lex

set_option autoImplicit false

/-! # What a list of strings answers

A list whose nodes have the strings `xs`, in the order of `strcmp` and without repetitions
(`Holding`), finds just these, counts along them and iterates over them. -/

namespace StructLib.Strlist

open BinTree Rbtree RbList

/-! ## The order of strings -/

/-- The bytes of a string as numbers; strings are ordered as these are. -/
def codes (s : Bytes) : List ℕ := s.map UInt8.toNat

theorem codes_inj {a b : Bytes} : codes a = codes b ↔ a = b := by
  constructor
  · exact fun h => List.map_injective_iff.2 (fun _ _ => UInt8.toNat_inj.1) h
  · rintro rfl
    rfl

/-- The sign of `strcmp`. -/
theorem strcmp_sign (a b : Bytes) :
    (0 < strcmp a b ↔ codes b < codes a) ∧ (strcmp a b < 0 ↔ codes a < codes b) := by
  induction a generalizing b with
  | nil =>
      cases b with
      | nil => simp [strcmp, codes]
      | cons y b => simp [strcmp, codes]
  | cons x a ih =>
      cases b with
      | nil => simp [strcmp, codes]
      | cons y b =>
          have hiff : x = y ↔ x.toNat = y.toNat := UInt8.toNat_inj.symm
          have hlt : x < y ↔ x.toNat < y.toNat := UInt8.lt_iff_toNat_lt
          simp only [strcmp, codes, List.map_cons, List.cons_lt_cons_iff]
          by_cases hxy : x = y
          · subst hxy
            simpa [codes] using ih b
          · have hne : x.toNat ≠ y.toNat := fun heq => hxy (hiff.2 heq)
            rw [if_neg hxy]
            by_cases hlt' : x < y
            · rw [if_pos hlt']
              have hcodes := hlt.1 hlt'
              simp only [hne, hne.symm, false_and, or_false]
              omega
            · rw [if_neg hlt']
              have hcodes := mt hlt.2 hlt'
              simp only [hne, hne.symm, false_and, or_false]
              omega

theorem strcmp_eq_zero {a b : Bytes} : strcmp a b = 0 ↔ a = b := by
  obtain ⟨hpos, hneg⟩ := strcmp_sign a b
  rw [← codes_inj]
  constructor
  · intro h
    refine le_antisymm (not_lt.1 fun hlt => ?_) (not_lt.1 fun hlt => ?_)
    · have := hpos.2 hlt
      omega
    · have := hneg.2 hlt
      omega
  · intro h
    have h₁ : ¬ 0 < strcmp a b := fun hlt => absurd (hpos.1 hlt) (by simp [h])
    have h₂ : ¬ strcmp a b < 0 := fun hlt => absurd (hneg.1 hlt) (by simp [h])
    omega

/-- The key of a node, the caller's array being `buf`. -/
def keyOf (buf : Bytes) (d : StrPtr) : List ℕ := codes (cstr buf d)

theorem cmpSigns (dup : Bool) (buf : Bytes) (m : RbMem StrPtr) (T : BinTree Color) (e : StrPtr) :
    CmpSigns (strlistOps dup buf) (keyOf buf) (keyOf buf) m T e :=
  fun _ _ => strcmp_sign _ _

/-! ## Lists in memory -/

/-- The nodes of the list and their strings, in order. -/
def Holding (s : StrlistMem) (xs : List (ℕ × Bytes)) : Prop :=
  ∃ T, TreeIn s.rblist.entries T ∧
    T.addrs.map (fun n => (n, cstr s.buf (s.rblist.entries.data n))) = xs ∧
    xs.Pairwise fun x y => codes x.2 < codes y.2

section Lists

variable {s : StrlistMem} {xs : List (ℕ × Bytes)} {T : BinTree Color}

theorem keyed_eq {m : RbMem StrPtr} {buf : Bytes} :
    keyed (keyOf buf) m T =
      (T.addrs.map fun n => (n, cstr buf (m.data n))).map fun x => (x.1, codes x.2) := by
  simp [keyed, keyOf]

theorem Holding.sorted (hT : T.addrs.map (fun n => (n, cstr s.buf (s.rblist.entries.data n))) = xs)
    (hs : xs.Pairwise fun x y => codes x.2 < codes y.2) :
    (keyed (keyOf s.buf) s.rblist.entries T).Pairwise fun x y => x.2 < y.2 := by
  rw [keyed_eq, hT, List.pairwise_map]
  exact hs

theorem run_onRblist {α : Type} {x : Exec (Rblist StrPtr) α} {a : α} {l : Rblist StrPtr}
    (h : x.run s.rblist = .ok (a, l)) : (onRblist x).run s = .ok (a, { s with rblist := l }) :=
  Exec.run_onPart h

theorem returns_onRblist {α : Type} {x : ℕ → Exec (Rblist StrPtr) α} {a : α} {l : Rblist StrPtr}
    (h : Returns x s.rblist a l) :
    Returns (fun fuel => onRblist (x fuel)) s a { s with rblist := l } :=
  h.onPart

theorem run_nodeString {n : ℕ} (h : TreeIn s.rblist.entries T) (hn : n ∈ T) :
    (nodeString (some n)).run s =
      .ok (some (cstr s.buf (s.rblist.entries.data n)), s) := by
  have hsome : (s.rblist.entries.node n).isSome = true :=
    Option.isSome_iff_ne_none.2 (h.node_ne_none hn)
  unfold nodeString
  rw [Exec.run_get_bind]
  simp only [hsome, if_true]
  rfl

/-- `strlist_find`, and the string of the node it has found. -/
def findString (q : Bytes) (fuel : ℕ) : Exec StrlistMem (Option Bytes) := do
  nodeString (← strlistFind fuel (.heap q))

/-- `strlist_entry`, and the string of the node. -/
def entryString (idx : UInt32) (fuel : ℕ) : Exec StrlistMem (Option Bytes) := do
  nodeString (← strlistEntry fuel idx)

theorem returns_strlistFind (h : Holding s xs) (q : Bytes) :
    Returns (fun fuel => strlistFind fuel (.heap q)) s
      ((xs.find? fun x => x.2 = q).map Prod.fst) s := by
  obtain ⟨T, hT, hxs, hs⟩ := h
  have hfind := find_step hT (Holding.sorted hxs hs) (cmpSigns s.dupstr s.buf _ T (.heap q))
  obtain ⟨k, hk⟩ := returns_onRblist hfind
  refine ⟨k, fun fuel hfuel => ?_⟩
  have hrun := hk fuel hfuel
  unfold strlistFind
  rw [Exec.run_get_bind, hrun]
  congr 2
  rw [keyed_eq, hxs, List.find?_map, Option.map_map]
  refine congrArg₂ Option.map rfl (congrArg (fun f => xs.find? f) (funext fun x => ?_))
  simp [keyOf, cstr, codes_inj]

theorem Holding.string_of_mem (h : Holding s xs) {x : ℕ × Bytes} (hx : x ∈ xs) :
    (nodeString (some x.1)).run s = .ok (some x.2, s) := by
  obtain ⟨T, hT, rfl, -⟩ := h
  obtain ⟨n, hn, rfl⟩ := List.mem_map.1 hx
  exact run_nodeString hT (mem_addrs.1 hn)

theorem returns_findString (h : Holding s xs) (q : Bytes) :
    Returns (findString q) s (if q ∈ xs.map Prod.snd then some q else none) s := by
  refine (returns_strlistFind h q).bind (.of_run ?_)
  cases hfind : xs.find? fun x => x.2 = q with
  | none =>
      have hq : q ∉ xs.map Prod.snd := by
        intro hq
        obtain ⟨x, hx, hxq⟩ := List.mem_map.1 hq
        exact List.find?_eq_none.1 hfind x hx (by simpa using hxq)
      rw [if_neg hq]
      rfl
  | some x =>
      have hxq : x.2 = q := by simpa using List.find?_some hfind
      have hq : q ∈ xs.map Prod.snd := List.mem_map.2 ⟨x, List.mem_of_find?_eq_some hfind, hxq⟩
      rw [if_pos hq, ← hxq]
      exact h.string_of_mem (List.mem_of_find?_eq_some hfind)

theorem returns_entryString (h : Holding s xs) (idx : UInt32) :
    Returns (entryString idx) s (xs[idx.toNat]?.map Prod.snd) s := by
  have hentry : Returns (fun fuel => strlistEntry fuel idx) s (xs[idx.toNat]?.map Prod.fst) s := by
    obtain ⟨T, hT, rfl, -⟩ := h
    have hret := returns_onRblist (returns_rblistEntry idx hT)
    rw [List.getElem?_map, Option.map_map]
    refine Eq.mp ?_ hret
    congr 1
    exact (Option.map_id' ..).symm
  refine hentry.bind (.of_run ?_)
  cases hx : xs[idx.toNat]? with
  | none => rfl
  | some x => exact h.string_of_mem (List.mem_of_getElem? hx)

/-- The loop, at the node that the rest `l` of the sequence starts with. -/
theorem run_strlistForEachLoop {l : List ℕ} (before : List ℕ) {fuel rounds : ℕ}
    (hfuel : T.depth < fuel) (h : TreeIn s.rblist.entries T) (hT : T.addrs = before ++ l)
    (hrounds : l.length < rounds) :
    (strlistForEachLoop fuel rounds l.head?).run s =
      .ok (l.map fun n => cstr s.buf (s.rblist.entries.data n), s) := by
  induction l generalizing before rounds with
  | nil =>
      obtain ⟨rounds, rfl⟩ := Nat.exists_eq_add_one.2 hrounds
      rfl
  | cons n l ih =>
      obtain ⟨rounds, rfl⟩ := Nat.exists_eq_add_one.2 (Nat.zero_lt_of_lt hrounds)
      have hn : n ∈ T := by simp [← mem_addrs, hT]
      have hnext : (strlistNext fuel (some n)).run s = .ok (l.head?, s) :=
        run_onRblist (run_onEntries (run_rbNext hfuel h.focus hT))
      have hrest := ih (before ++ [n]) (by simp [hT]) (by simp at hrounds; omega)
      unfold strlistForEachLoop
      rw [List.head?_cons, Exec.run_bind_of_ok (run_nodeString h hn)]
      simp only [StateT.run_bind, hnext, ok_bind, hrest]
      rfl

/-- Iteration yields the strings in order. -/
theorem returns_strlistForEach (h : Holding s xs) :
    Returns strlistForEach s (xs.map Prod.snd) s := by
  obtain ⟨T, hT, rfl, -⟩ := h
  have hdepth := depth_le_length_addrs T
  refine ⟨T.addrs.length + 1, fun fuel hfuel => ?_⟩
  have hfirst : (strlistFirst fuel).run s = .ok (T.addrs.head?, s) :=
    run_onRblist (run_onEntries (run_rbFirst (by omega) hT.focus))
  have hloop : (strlistForEachLoop fuel fuel T.addrs.head?).run s = .ok (_, s) :=
    run_strlistForEachLoop [] (by omega) hT rfl (by omega)
  unfold strlistForEach
  rw [Exec.run_bind_of_ok hfirst, hloop, List.map_map]
  rfl

/-! ## Lists that answer alike -/

/-- Every search, every index and the iteration yield the same strings. -/
structure SameAnswers (s₁ s₂ : StrlistMem) : Prop where
  find : ∀ q, ∃ r, Returns (findString q) s₁ r s₁ ∧ Returns (findString q) s₂ r s₂
  entry : ∀ idx, ∃ r, Returns (entryString idx) s₁ r s₁ ∧ Returns (entryString idx) s₂ r s₂
  forEach : ∃ r, Returns strlistForEach s₁ r s₁ ∧ Returns strlistForEach s₂ r s₂

/-- Lists with the same strings do. -/
theorem Holding.sameAnswers {s₁ s₂ : StrlistMem} {ys : List (ℕ × Bytes)} (h₁ : Holding s₁ xs)
    (h₂ : Holding s₂ ys) (hsnd : xs.map Prod.snd = ys.map Prod.snd) : SameAnswers s₁ s₂ := by
  refine ⟨fun q => ?_, fun idx => ?_, ?_⟩
  · refine ⟨_, returns_findString h₁ q, ?_⟩
    rw [hsnd]
    exact returns_findString h₂ q
  · refine ⟨_, returns_entryString h₁ idx, ?_⟩
    rw [← List.getElem?_map, hsnd, List.getElem?_map]
    exact returns_entryString h₂ idx
  · refine ⟨_, returns_strlistForEach h₁, ?_⟩
    rw [hsnd]
    exact returns_strlistForEach h₂

end Lists

end StructLib.Strlist
