import StructLib.Avltree.Clash
import StructLib.Avltree.Links

set_option autoImplicit false

/-! # Searches

`FindAvlEntry`, `GetMinAvlEntry` and `GetMaxAvlEntry` follow child links only, so the heights and the
parent links in memory do not matter. What they find is what a scan of the nodes in order finds. -/

namespace StructLib.Avl

open BinTree

section Find

variable {s : AvlMem} {p : Ptr} {t : Tree} {key : UInt32} {fuel : ℕ}

/-- The first node of a scan whose range has the key. -/
def scan (key : UInt32) (t : Tree) : Ptr := (t.records.find? fun e => Covers e.2 key).map Prod.fst

theorem find?_covers_eq_none {l : List (ℕ × Payload)} (h : ∀ e ∈ l, ¬ Covers e.2 key) :
    l.find? (fun e => Covers e.2 key) = none := by
  simpa using h

/-- The key is in the range of the node, or all ranges that have it are on the side of the search. -/
theorem scan_node {l r : Tree} {n : ℕ} {v : Payload × ℤ} (hord : RangesOrdered (node l n v r)) :
    scan key (node l n v r) = if Covers v.1 key then some n
      else if key < v.1.minKey then scan key l else scan key r := by
  obtain ⟨-, -, hv, hbefore, hafter⟩ := rangesOrdered_node.1 hord
  rw [scan, records_node, List.find?_append, List.find?_cons]
  by_cases hcov : Covers v.1 key
  · have hleft : l.records.find? (fun e => Covers e.2 key) = none := by
      refine find?_covers_eq_none fun e he hcov' => ?_
      have hlt := hbefore e he
      simp only [Covers] at hcov hcov'
      grind
    rw [if_pos hcov, hleft, Option.none_or]
    simp [hcov]
  · have hself : decide (Covers (n, v.1).2 key) = false := decide_eq_false hcov
    rw [if_neg hcov, hself]
    by_cases hlt : key < v.1.minKey
    · have hright : r.records.find? (fun e => Covers e.2 key) = none := by
        refine find?_covers_eq_none fun e he hcov' => ?_
        have hgt := hafter e he
        simp only [Covers] at hcov'
        grind
      rw [if_pos hlt, hright, Option.or_none]
      rfl
    · have hleft : l.records.find? (fun e => Covers e.2 key) = none := by
        refine find?_covers_eq_none fun e he hcov' => ?_
        have hgt := hbefore e he
        simp only [Covers] at hcov'
        grind
      rw [if_neg hlt, hleft, Option.none_or]
      rfl

theorem run_findAvlEntry (hT : linkLayout.TreeAt (links s.heap) p (strip t))
    (hord : RangesOrdered t) (hfuel : t.depth < fuel) :
    (findAvlEntry key fuel t.root).run s = .ok (scan key t, s) := by
  induction t generalizing p fuel with
  | nil =>
      obtain ⟨fuel, rfl⟩ := Nat.exists_eq_add_one.2 (Nat.zero_lt_of_lt hfuel)
      rfl
  | node l n v r ihl ihr =>
      obtain ⟨hn, hl, hr⟩ := hT
      obtain ⟨hordl, hordr, -⟩ := rangesOrdered_node.1 hord
      rw [depth_node] at hfuel
      obtain ⟨fuel, rfl⟩ := Nat.exists_eq_add_one.2 (Nat.zero_lt_of_lt hfuel)
      obtain ⟨c, hload, rfl', hleft, hright, -⟩ := run_load_links hn
      rw [root_strip] at hleft hright
      have hcov : (c.minKey ≤ key ∧ key ≤ c.maxKey) ↔ Covers v.1 key := by
        rw [← rfl']
        rfl
      have hmin : c.minKey = v.1.minKey := congrArg Payload.minKey rfl'
      rw [findAvlEntry, root_node, scan_node hord]
      simp only [Option.isNone_some, Bool.false_eq_true, if_false]
      rw [Exec.run_bind_of_ok hload, hmin, hleft, hright]
      rw [hmin] at hcov
      by_cases hhit : Covers v.1 key
      · rw [if_pos (hcov.2 hhit), if_pos hhit]
        rfl
      · rw [if_neg (hcov.not.2 hhit), if_neg hhit]
        by_cases hlt : key < v.1.minKey
        · rw [if_pos hlt, if_pos hlt]
          exact ihl hl hordl (by omega)
        · rw [if_neg hlt, if_neg hlt]
          exact ihr hr hordr (by omega)

theorem scan_eq_none (h : ∀ e ∈ t.records, ¬ Covers e.2 key) : scan key t = none := by
  rw [scan, find?_covers_eq_none h, Option.map_none]

theorem RangesOrdered.scan_eq (h : RangesOrdered t) {e : ℕ × Payload} (he : e ∈ t.records)
    (hcov : Covers e.2 key) : scan key t = some e.1 := by
  have hsome : (t.records.find? fun e => Covers e.2 key).isSome :=
    List.find?_isSome.2 ⟨e, he, by simpa using hcov⟩
  obtain ⟨e', hfind⟩ := Option.isSome_iff_exists.1 hsome
  have hcov' : Covers e'.2 key := by simpa using List.find?_some hfind
  rw [scan, hfind, h.unique e' (List.mem_of_find?_eq_some hfind) e he hcov' hcov, Option.map_some]

end Find

/-! ## Every tree and every key -/

/-- **Searches agree with a scan**: `FindAvlEntry` returns what a scan of all nodes finds, which is
    the only node whose range has the key, or NULL if there is none; `GetMinAvlEntry` and
    `GetMaxAvlEntry` return the first and the last node in order. -/
theorem find_agrees_with_scan {s : AvlMem} {p : Ptr} {t : Tree}
    (hT : linkLayout.TreeAt (links s.heap) p (strip t)) (hord : RangesOrdered t) (key : UInt32) :
    Returns (fun fuel => findAvlEntry key fuel t.root) s (scan key t) s ∧
      (∀ e ∈ t.records, Covers e.2 key →
        scan key t = some e.1 ∧ ∀ e' ∈ t.records, Covers e'.2 key → e' = e) ∧
      ((∀ e ∈ t.records, ¬ Covers e.2 key) → scan key t = none) ∧
      Returns (fun fuel => getMinAvlEntry fuel t.root) s t.addrs.head? s ∧
      Returns (fun fuel => getMaxAvlEntry fuel t.root) s t.addrs.getLast? s := by
  refine ⟨⟨t.depth + 1, fun fuel hfuel => run_findAvlEntry hT hord hfuel⟩,
    fun e he hcov => ⟨hord.scan_eq he hcov, fun e' he' hcov' => hord.unique e' he' e he hcov' hcov⟩,
    scan_eq_none, ⟨(strip t).depth, fun fuel hfuel => ?_⟩, ⟨(strip t).depth, fun fuel hfuel => ?_⟩⟩
  · rw [← addrs_strip, ← root_strip]
    exact run_outermostEntry_links (d := .left) hT hfuel
  · rw [← addrs_strip, ← root_strip, ← List.head?_reverse]
    exact run_outermostEntry_links (d := .right) hT hfuel

/-- Of five ranges one has the key 33, none has 30, and the first and the last one are on different
    levels. -/
theorem find_agrees_with_scan_five :
    Returns (fun fuel => findAvlEntry 33 fuel (some 0)) fiveRangesMem (some 4) fiveRangesMem ∧
      Returns (fun fuel => findAvlEntry 30 fuel (some 0)) fiveRangesMem none fiveRangesMem ∧
      Returns (fun fuel => getMinAvlEntry fuel (some 0)) fiveRangesMem (some 3) fiveRangesMem ∧
      Returns (fun fuel => getMaxAvlEntry fuel (some 0)) fiveRangesMem (some 2) fiveRangesMem := by
  have hT : linkLayout.TreeAt (links fiveRangesMem.heap) none (strip fiveRanges) :=
    ⟨rfl, ⟨rfl, ⟨rfl, trivial, trivial⟩, rfl, trivial, trivial⟩, rfl, trivial, trivial⟩
  obtain ⟨hin, -, -, hmin, hmax⟩ := find_agrees_with_scan hT rangesOrdered_fiveRanges 33
  obtain ⟨hgap, -⟩ := find_agrees_with_scan hT rangesOrdered_fiveRanges 30
  exact ⟨hin, hgap, hmin, hmax⟩

end StructLib.Avl
