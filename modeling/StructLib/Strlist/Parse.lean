import StructLib.Strlist.Queries
import Mathlib.Data.List.Perm.Basic

set_option autoImplicit false

/-! # Building a list from a comma-separated string

The parser cuts the array at a comma, adds the entry before it and puts the comma back. A list with
copies takes the entries one by one, up to the first that it has (`parseList_adds`). Where a list
points into the array, all its strings but the last entry grow back to what stands behind them
(`parse_aliased`), so it is the same list only when there is no comma (`new_same_iff`). -/

namespace StructLib.Strlist

open BinTree Ctx Rbtree RbList

/-! ## Entries -/

/-- The entries of a comma-separated string. What stands before a comma is one, and may be empty;
    what stands behind the last comma is one unless it is empty. -/
def tokens : Bytes → List Bytes
  | [] => []
  | c :: s =>
      if c = comma then [] :: tokens s
      else
        match tokens s with
        | [] => [[c]]
        | t :: ts => (c :: t) :: ts

/-- `"a,,bc,"`. -/
example : tokens [97, 44, 44, 98, 99, 44] = [[97], [], [98, 99]] := by decide

/-- The same with any other separator. -/
def pieces (sep : UInt8) : Bytes → List Bytes
  | [] => []
  | c :: s =>
      if c = sep then [] :: pieces sep s
      else
        match pieces sep s with
        | [] => [[c]]
        | t :: ts => (c :: t) :: ts

theorem tokens_eq (s : Bytes) : tokens s = pieces comma s := by
  induction s with
  | nil => rfl
  | cons c s ih => rw [tokens, pieces, ih]

theorem pieces_cut {sep : UInt8} {t : Bytes} (ht : sep ∉ t) (s : Bytes) :
    pieces sep (t ++ sep :: s) = t :: pieces sep s := by
  induction t with
  | nil => simp [pieces]
  | cons c t ih =>
      rw [List.mem_cons, not_or] at ht
      simp [pieces, ih ht.2, Ne.symm ht.1]

theorem pieces_last {sep : UInt8} {s : Bytes} (hs : sep ∉ s) (hne : s ≠ []) :
    pieces sep s = [s] := by
  induction s with
  | nil => exact absurd rfl hne
  | cons c s ih =>
      rw [List.mem_cons, not_or] at hs
      by_cases hnil : s = []
      · subst hnil
        simp [pieces, Ne.symm hs.1]
      · simp [pieces, ih hs.2 hnil, Ne.symm hs.1]

theorem tokens_cut {t : Bytes} (ht : comma ∉ t) (s : Bytes) :
    tokens (t ++ comma :: s) = t :: tokens s := by
  rw [tokens_eq, tokens_eq, pieces_cut ht]

theorem tokens_last {s : Bytes} (hs : comma ∉ s) (hne : s ≠ []) : tokens s = [s] := by
  rw [tokens_eq, pieces_last hs hne]

/-- The recursion of the parser. -/
theorem cut_induction (sep : UInt8) {P : Bytes → Prop} (last : ∀ s, sep ∉ s → P s)
    (cut : ∀ t s, sep ∉ t → P s → P (t ++ sep :: s)) (s : Bytes) : P s := by
  induction hlen : s.length using Nat.strong_induction_on generalizing s with
  | _ len ih =>
      by_cases hs : sep ∈ s
      · obtain ⟨t, s', rfl, ht⟩ := List.eq_append_cons_of_mem hs
        exact cut t s' ht (ih s'.length (by simp at hlen; omega) s' rfl)
      · exact last s hs

/-! ## The array -/

theorem cstr_buf {w post : Bytes} {p : ℕ} (hw : 0 ∉ w) (hp : p ≤ w.length) :
    cstr (w ++ 0 :: post) (.buf p) = w.drop p := by
  have hdrop : ∀ b ∈ w.drop p, b ≠ 0 := fun b hb hb0 => hw (hb0 ▸ List.mem_of_mem_drop hb)
  rw [cstr, List.drop_append_of_le_length hp, List.takeWhile_append_of_pos (by simpa using hdrop)]
  simp

/-- The entry at the end of `pre`, behind which there is a NUL. -/
theorem cstr_entry {pre t post : Bytes} (ht : 0 ∉ t) :
    cstr (pre ++ t ++ 0 :: post) (.buf pre.length) = t := by
  have hdrop : ∀ b ∈ t, b ≠ 0 := fun b hb hb0 => ht (hb0 ▸ hb)
  rw [cstr, List.append_assoc, List.drop_left, List.takeWhile_append_of_pos (by simpa using hdrop)]
  simp

theorem strchr_cut {pre t r : Bytes} (ht : comma ∉ t) (h0 : 0 ∉ t) :
    strchr (pre ++ t ++ comma :: r) pre.length comma = some (pre ++ t).length := by
  have hdrop : ∀ b ∈ t, b ≠ 0 := fun b hb hb0 => h0 (hb0 ▸ hb)
  have hcomma : ∀ b ∈ t, b ≠ comma := fun b hb hbc => ht (hbc ▸ hb)
  rw [strchr, cstr, List.append_assoc, List.drop_left,
    List.takeWhile_append_of_pos (by simpa using hdrop)]
  have hnone : t.findIdx? (· = comma) = none :=
    List.findIdx?_eq_none_iff.2 fun b hb => by simpa using hcomma b hb
  have htake : (comma :: r).takeWhile (· ≠ 0) = comma :: r.takeWhile (· ≠ 0) := by
    simp [comma]
  rw [htake, List.findIdx?_append, hnone, List.findIdx?_cons]
  simp

theorem strchr_last {pre t post : Bytes} (ht : comma ∉ t) (h0 : 0 ∉ t) :
    strchr (pre ++ t ++ 0 :: post) pre.length comma = none := by
  rw [strchr, cstr_entry h0, Option.map_eq_none_iff, List.findIdx?_eq_none_iff]
  intro b hb
  simpa using fun hbc : b = comma => ht (hbc ▸ hb)

theorem run_poke {s : StrlistMem} {pre r : Bytes} {b c : UInt8} (hs : s.buf = pre ++ b :: r) :
    (poke pre.length c).run s = .ok ((), { s with buf := pre ++ c :: r }) := by
  have hlt : pre.length < s.buf.length := by simp [hs]
  have hset : s.buf.set pre.length c = pre ++ c :: r := by simp [hs]
  unfold poke
  rw [Exec.run_get_bind, if_pos hlt, hset]
  rfl

/-! ## One pass of the parser -/

section Passes

variable {load : StrPtr → Exec StrlistMem ℤ} {mem : ℕ → Ptr} {s s₁ : StrlistMem}
  {pre t r cur post : Bytes} {fuel rounds k : ℕ} {err : ℤ}

/-- With a comma to come, the array is cut there while the entry is added. -/
theorem run_parse_cut (hs : s.buf = pre ++ t ++ comma :: r) (ht : comma ∉ t) (h0 : 0 ∉ t)
    (hentry : (strlistParseListEntry load mem fuel k pre.length).run
      { s with buf := pre ++ t ++ 0 :: r } = .ok (err, s₁)) (hbuf : s₁.buf = pre ++ t ++ 0 :: r) :
    (strlistParseLoop load mem fuel (rounds + 1) k pre.length).run s =
      (if err ≠ 0 then pure err
        else strlistParseLoop load mem fuel rounds (k + 1) (pre ++ t ++ [comma]).length).run
        { s₁ with buf := s.buf } := by
  have hsep : strchr s.buf pre.length comma = some (pre ++ t).length := by rw [hs, strchr_cut ht h0]
  have hlen : (pre ++ t ++ [comma]).length = (pre ++ t).length + 1 :=
    List.length_append
  rw [strlistParseLoop, Exec.run_get_bind, hsep, hlen]
  simp only []
  rw [Exec.run_bind_of_ok (run_poke hs), Exec.run_bind_of_ok hentry,
    Exec.run_bind_of_ok (run_poke hbuf), ← hs]

/-- Behind the last comma. -/
theorem run_parse_last (hs : s.buf = pre ++ cur ++ 0 :: post) (hcur : comma ∉ cur) (h0 : 0 ∉ cur) :
    (strlistParseLoop load mem fuel (rounds + 1) k pre.length).run s =
      (if cur ≠ [] then strlistParseListEntry load mem fuel k pre.length else pure 0).run s := by
  have hsep : strchr s.buf pre.length comma = none := by rw [hs, strchr_last hcur h0]
  have hrest : cstr s.buf (.buf pre.length) = cur := by rw [hs, cstr_entry h0]
  rw [strlistParseLoop, Exec.run_get_bind, hsep]
  simp only []
  rw [Exec.run_get_bind, hrest]

/-- An entry that names no file is added. -/
theorem run_parseListEntry {i : ℕ} (hfile : ¬ fileScheme <+: cstr s.buf (.buf i)) :
    (strlistParseListEntry load mem fuel k i).run s = (strlistAdd fuel (.buf i) (mem k)).run s := by
  have htake : (cstr s.buf (.buf i)).take 7 ≠ fileScheme := fun htake =>
    hfile ⟨(cstr s.buf (.buf i)).drop 7, by rw [← htake, List.take_append_drop]⟩
  unfold strlistParseListEntry
  rw [Exec.run_get_bind, if_neg htake]

end Passes

/-! ## Memory for the entries -/

/-- From the entry `k` on, `malloc` returns memory that nothing uses, each time other memory. -/
structure Supply (mem : ℕ → Ptr) (s : StrlistMem) (k : ℕ) : Prop where
  fresh : ∀ j, k ≤ j → ∃ n, mem j = some n ∧ s.rblist.entries.node n = none
  distinct : ∀ i j, k ≤ i → k ≤ j → mem i = mem j → i = j

section Add

variable {mem : ℕ → Ptr} {s : StrlistMem} {l : Rblist StrPtr} {T T' : BinTree Color} {k n : ℕ}

/-- The node of the entry `k` is in use now, the others are not. -/
theorem Supply.next {gs : Ctx Color} {d : StrPtr} {b : Bytes} (h : Supply mem s k)
    (hT : TreeIn s.rblist.entries (gs.plug .nil)) (hk : mem k = some n)
    (hadd : Added s.rblist gs n d l T') :
    Supply mem { s with rblist := l, buf := b } (k + 1) := by
  refine ⟨fun j hj => ?_, fun i j hi hj => h.distinct i j (by omega) (by omega)⟩
  obtain ⟨m, hm, hfree⟩ := h.fresh j (by omega)
  have hmn : m ≠ n := by
    rintro rfl
    have hjk := h.distinct j k (by omega) le_rfl (hm.trans hk.symm)
    omega
  have hmT : m ∉ T' := by
    rw [hadd.mem_iff, not_or]
    exact ⟨hmn, hT.not_mem hfree⟩
  exact ⟨m, hm, (hadd.same m hmT).trans hfree⟩

theorem returns_strlistAdd {e : StrPtr} {p : Ptr} {c : ℤ}
    (h : Returns (fun fuel => rblistAddNode (strlistOps s.dupstr s.buf) fuel e p) s.rblist c l) :
    Returns (fun fuel => strlistAdd fuel e p) s c { s with rblist := l } := by
  obtain ⟨K, hK⟩ := h
  refine ⟨K, fun fuel hfuel => ?_⟩
  unfold strlistAdd
  rw [Exec.run_get_bind, run_onRblist (hK fuel hfuel)]

/-- The string of a new node is the entry, copied or not. -/
theorem keyOf_nodeNew (dup : Bool) (buf : Bytes) (e : StrPtr) :
    keyOf buf ((strlistOps dup buf).nodeNew e) = keyOf buf e := by
  cases dup <;> rfl

/-! ## Lists with copies -/

/-- A list that owns its strings; they are `strs`, in some order. -/
structure Owns (s : StrlistMem) (T : BinTree Color) (strs : List Bytes) : Prop where
  tree : TreeIn s.rblist.entries T
  dup : s.dupstr = true
  heap : ∀ n ∈ T, ∃ b, s.rblist.entries.data n = .heap b
  sorted : (keyed (keyOf s.buf) s.rblist.entries T).Pairwise fun x y => x.2 < y.2
  perm : (T.addrs.map fun n => cstr s.buf (s.rblist.entries.data n)).Perm strs

theorem Owns.mem_iff {strs : List Bytes} (h : Owns s T strs) (e : StrPtr) :
    cstr s.buf e ∈ strs ↔ ∃ x ∈ keyed (keyOf s.buf) s.rblist.entries T, x.2 = keyOf s.buf e := by
  rw [← h.perm.mem_iff, keyed]
  simp [keyOf, codes_inj]

theorem Owns.reorder {strs strs' : List Bytes} (h : Owns s T strs) (hperm : strs.Perm strs') :
    Owns s T strs' :=
  ⟨h.tree, h.dup, h.heap, h.sorted, h.perm.trans hperm⟩

/-- What happens to the array is nothing to it. -/
theorem Owns.setBuf {strs : List Bytes} (h : Owns s T strs) (b : Bytes) :
    Owns { s with buf := b } T strs := by
  have hdata : ∀ n ∈ T.addrs, cstr b (s.rblist.entries.data n) =
      cstr s.buf (s.rblist.entries.data n) := by
    intro n hn
    obtain ⟨str, hstr⟩ := h.heap n (mem_addrs.1 hn)
    rw [hstr]
    rfl
  have hkeyed : keyed (keyOf b) s.rblist.entries T = keyed (keyOf s.buf) s.rblist.entries T :=
    List.map_congr_left fun n hn => by rw [keyOf, hdata n hn, keyOf]
  exact ⟨h.tree, h.dup, h.heap, hkeyed ▸ h.sorted, (List.map_congr_left hdata) ▸ h.perm⟩

/-- An entry is added unless it is there. -/
theorem Owns.add {strs : List Bytes} (h : Owns s T strs) (hsup : Supply mem s k) (e : StrPtr) :
    (cstr s.buf e ∈ strs ∧ Returns (fun fuel => strlistAdd fuel e (mem k)) s (-EEXIST) s) ∨
    (cstr s.buf e ∉ strs ∧ ∃ l T', Returns (fun fuel => strlistAdd fuel e (mem k)) s 0
        { s with rblist := l } ∧
      Owns { s with rblist := l } T' (cstr s.buf e :: strs) ∧
      ∀ b, Supply mem { s with rblist := l, buf := b } (k + 1)) := by
  obtain ⟨n, hk, hn⟩ := hsup.fresh k le_rfl
  have hcmp := cmpSigns s.dupstr s.buf s.rblist.entries T e
  by_cases he : cstr s.buf e ∈ strs
  · refine .inl ⟨he, ?_⟩
    rw [h.mem_iff] at he
    exact returns_strlistAdd (addNode_present _ h.tree h.sorted hcmp
      (by rw [hk]; rintro _ ⟨⟩; exact hn) he)
  · refine .inr ⟨he, ?_⟩
    have habs := mt (h.mem_iff e).2 he
    obtain ⟨l, T', gs, rfl, hret, hadd, hkeyed, hs⟩ := addNode_absent h.tree h.sorted hcmp
      (keyOf_nodeNew s.dupstr s.buf e) hn habs
    refine ⟨l, T', hk ▸ returns_strlistAdd hret, ⟨hadd.tree, h.dup, fun m hm => ?_, hs, ?_⟩,
      fun b => hsup.next h.tree hk hadd⟩
    · change ∃ b, l.entries.data m = .heap b
      rw [hadd.data]
      rcases hadd.mem_iff.1 hm with rfl | hm
      · exact ⟨cstr s.buf e, by simp [strlistOps, h.dup]⟩
      · have hmn : m ≠ n := by
          rintro rfl
          exact h.tree.not_mem hn hm
        rw [Function.update_of_ne hmn]
        exact h.heap m hm
    · -- the keys are the strings, so the sorted sequences are the same up to order
      refine (List.map_perm_map_iff fun _ _ => codes_inj.1).1 ?_
      have hperm := (List.perm_orderedInsert (fun x y => x.2 ≤ y.2) (n, keyOf s.buf e)
        (keyed (keyOf s.buf) s.rblist.entries (gs.plug .nil))).map Prod.snd
      rw [← hkeyed] at hperm
      have hold := (h.perm.map codes).cons (keyOf s.buf e)
      simp only [keyed, List.map_map, List.map_cons] at hperm hold ⊢
      exact hperm.trans hold

end Add

/-! ## Lists without nodes -/

/-- `strlist_new` before it parses. -/
def emptyList (dup : Bool) (s : StrlistMem) : StrlistMem :=
  { s with rblist := ⟨{ s.rblist.entries with rbNode := none }, 0⟩, dupstr := dup }

theorem treeIn_emptyList {s : StrlistMem} (dup : Bool) :
    TreeIn (emptyList dup s).rblist.entries .nil :=
  ⟨⟨trivial, rfl, distinct_nil⟩, trivial, 0, rfl⟩

theorem owns_emptyList (s : StrlistMem) : Owns (emptyList true s) .nil [] :=
  ⟨treeIn_emptyList true, rfl, by simp, .nil, .nil⟩

/-- A heap without nodes, and the array `str`. -/
def freshMem (str : Bytes) : StrlistMem :=
  { rblist := ⟨⟨none, fun _ => none, fun _ => .buf 0⟩, 0⟩, dupstr := false, buf := str ++ [0] }

theorem supply_freshMem (str : Bytes) : Supply some (freshMem str) 0 :=
  ⟨fun j _ => ⟨j, rfl, rfl⟩, fun _ _ _ _ h => Option.some_inj.1 h⟩

theorem supply_emptyList (str : Bytes) : Supply some (emptyList true (freshMem str)) 0 :=
  ⟨(supply_freshMem str).fresh, (supply_freshMem str).distinct⟩

/-! ## Adding the entries -/

/-- The entries that a list with the strings `old` takes: those before the first that it has. -/
def accepted (old : List Bytes) : List Bytes → List Bytes
  | [] => []
  | t :: ts => if t ∈ old then [] else t :: accepted (t :: old) ts

theorem accepted_eq {old ts : List Bytes} (hnodup : ts.Nodup) (hold : ∀ t ∈ ts, t ∉ old) :
    accepted old ts = ts := by
  induction ts generalizing old with
  | nil => rfl
  | cons t ts ih =>
      rw [List.nodup_cons] at hnodup
      have hrest : ∀ u ∈ ts, u ∉ t :: old := by
        intro u hu
        rw [List.mem_cons, not_or]
        exact ⟨fun heq => hnodup.1 (heq ▸ hu), hold u (List.mem_cons_of_mem t hu)⟩
      rw [accepted, if_neg (hold t List.mem_cons_self), ih hnodup.2 hrest]

/-- What is not taken starts with an entry that is there already. -/
theorem accepted_split (old ts : List Bytes) :
    ∃ after, ts = accepted old ts ++ after ∧
      ∀ t ∈ after.head?, t ∈ old ∨ t ∈ accepted old ts := by
  induction ts generalizing old with
  | nil => exact ⟨[], rfl, by simp⟩
  | cons t ts ih =>
      by_cases ht : t ∈ old
      · exact ⟨t :: ts, by simp [accepted, ht], by simp [ht]⟩
      · obtain ⟨after, hsplit, hstop⟩ := ih (t :: old)
        rw [accepted, if_neg ht]
        refine ⟨after, congrArg (t :: ·) hsplit, fun u hu => ?_⟩
        rcases hstop u hu with hin | hin
        · rcases List.mem_cons.1 hin with rfl | hin
          · exact .inr List.mem_cons_self
          · exact .inl hin
        · exact .inr (List.mem_cons_of_mem t hin)

theorem accepted_new {old ts : List Bytes} : ∀ t ∈ accepted old ts, t ∉ old := by
  induction ts generalizing old with
  | nil => simp [accepted]
  | cons t ts ih =>
      intro u hu
      by_cases ht : t ∈ old
      · simp [accepted, ht] at hu
      · rw [accepted, if_neg ht, List.mem_cons] at hu
        rcases hu with rfl | hu
        · exact ht
        · exact fun hin => ih u hu (List.mem_cons_of_mem t hin)

theorem nodup_accepted {old ts : List Bytes} : (accepted old ts).Nodup := by
  induction ts generalizing old with
  | nil => exact .nil
  | cons t ts ih =>
      by_cases ht : t ∈ old
      · simp [accepted, ht]
      · rw [accepted, if_neg ht, List.nodup_cons]
        exact ⟨fun hin => accepted_new t hin List.mem_cons_self, ih⟩

/-- Everything is taken only if there is nothing twice. -/
theorem accepted_eq_iff {old ts : List Bytes} :
    accepted old ts = ts ↔ ts.Nodup ∧ ∀ t ∈ ts, t ∉ old := by
  refine ⟨fun heq => ?_, fun h => accepted_eq h.1 h.2⟩
  have hnodup : (accepted old ts).Nodup := nodup_accepted
  have hnew : ∀ t ∈ accepted old ts, t ∉ old := accepted_new
  rw [heq] at hnodup hnew
  exact ⟨hnodup, hnew⟩

section Parsing

variable (load : StrPtr → Exec StrlistMem ℤ) {mem : ℕ → Ptr}

/-- `strlist_parse_list` on a list with copies takes the entries in order up to the first that is
    there already, and puts the array back as it was. -/
theorem parse_owned {cur : Bytes} {s : StrlistMem} {T : BinTree Color} {strs : List Bytes}
    {pre post : Bytes} {k : ℕ} (h : Owns s T strs) (hsup : Supply mem s k)
    (hbuf : s.buf = pre ++ cur ++ 0 :: post) (h0 : 0 ∉ cur)
    (hfile : ∀ t ∈ tokens cur, ¬ fileScheme <+: t) :
    ∃ s' T' K, (∀ fuel rounds, K ≤ fuel → cur.length < rounds →
        (strlistParseLoop load mem fuel rounds k pre.length).run s =
          .ok (if accepted strs (tokens cur) = tokens cur then 0 else -EEXIST, s')) ∧
      Owns s' T' ((accepted strs (tokens cur)).reverse ++ strs) ∧ s'.buf = s.buf := by
  induction cur using cut_induction comma generalizing s T strs pre k with
  | last cur hcur =>
      by_cases hnil : cur = []
      · subst hnil
        refine ⟨s, T, 0, fun fuel rounds _ hrounds => ?_, h, rfl⟩
        obtain ⟨rounds, rfl⟩ := Nat.exists_eq_add_one.2 hrounds
        rw [run_parse_last hbuf hcur h0]
        rfl
      · have hentry : cstr s.buf (.buf pre.length) = cur := by rw [hbuf, cstr_entry h0]
        rw [tokens_last hcur hnil] at hfile ⊢
        have hpass : ∀ fuel rounds, cur.length < rounds →
            (strlistParseLoop load mem fuel rounds k pre.length).run s =
              (strlistAdd fuel (.buf pre.length) (mem k)).run s := by
          intro fuel rounds hrounds
          obtain ⟨rounds, rfl⟩ := Nat.exists_eq_add_one.2 (Nat.zero_lt_of_lt hrounds)
          rw [run_parse_last hbuf hcur h0, if_pos hnil,
            run_parseListEntry (by rw [hentry]; exact hfile cur (by simp))]
        rcases h.add hsup (.buf pre.length) with ⟨hin, K, hK⟩ | ⟨hin, l, T', ⟨K, hK⟩, h', -⟩
        · rw [hentry] at hin
          refine ⟨s, T, K, fun fuel rounds hfuel hrounds => ?_, ?_, rfl⟩
          · rw [hpass fuel rounds hrounds, hK fuel hfuel]
            simp [accepted, hin]
          · simpa [accepted, hin] using h
        · rw [hentry] at hin h'
          refine ⟨{ s with rblist := l }, T', K, fun fuel rounds hfuel hrounds => ?_, ?_, rfl⟩
          · rw [hpass fuel rounds hrounds, hK fuel hfuel]
            simp [accepted, hin]
          · simpa [accepted, hin] using h'
  | cut t cur ht ih =>
      have h0t : 0 ∉ t := fun hmem => h0 (List.mem_append_left _ hmem)
      have h0cur : 0 ∉ cur := fun hmem => h0 (by simp [hmem])
      rw [tokens_cut ht] at hfile ⊢
      have hcut : s.buf = pre ++ t ++ comma :: (cur ++ 0 :: post) := by simp [hbuf]
      -- the entry, with the array cut behind it
      have h₁ := h.setBuf (pre ++ t ++ 0 :: (cur ++ 0 :: post))
      have hsup₁ : Supply mem { s with buf := pre ++ t ++ 0 :: (cur ++ 0 :: post) } k :=
        ⟨hsup.fresh, hsup.distinct⟩
      have hentry : cstr (pre ++ t ++ 0 :: (cur ++ 0 :: post)) (.buf pre.length) = t := cstr_entry h0t
      have hadd := h₁.add hsup₁ (.buf pre.length)
      rw [hentry] at hadd
      have hnofile : ¬ fileScheme <+: cstr (pre ++ t ++ 0 :: (cur ++ 0 :: post))
        (.buf pre.length) := by
        rw [hentry]
        exact hfile t (by simp)
      rcases hadd with ⟨hin, K, hK⟩ | ⟨hin, l, T', ⟨K, hK⟩, h', hsup'⟩
      · refine ⟨s, T, K, fun fuel rounds hfuel hrounds => ?_, ?_, rfl⟩
        · obtain ⟨rounds, rfl⟩ := Nat.exists_eq_add_one.2 (Nat.zero_lt_of_lt hrounds)
          rw [run_parse_cut hcut ht h0t ((run_parseListEntry hnofile).trans (hK fuel hfuel)) rfl]
          simp [accepted, hin, EEXIST]
        · simpa [accepted, hin] using h
      · have h'' := h'.setBuf s.buf
        have hbuf₂ : s.buf = pre ++ t ++ [comma] ++ cur ++ 0 :: post := by simp [hbuf]
        obtain ⟨s', T'', K', hrun, hown, hbuf'⟩ := ih h'' (hsup' s.buf)
          hbuf₂ h0cur fun u hu => hfile u (List.mem_cons_of_mem t hu)
        refine ⟨s', T'', max K K', fun fuel rounds hfuel hrounds => ?_, ?_, hbuf'⟩
        · obtain ⟨rounds, rfl⟩ := Nat.exists_eq_add_one.2 (Nat.zero_lt_of_lt hrounds)
          rw [run_parse_cut hcut ht h0t
            ((run_parseListEntry hnofile).trans (hK fuel (by omega))) rfl]
          simp only [ne_eq, not_true_eq_false, if_false]
          rw [hrun fuel rounds (by omega) (by simp at hrounds; omega)]
          simp [accepted, hin]
        · simpa [accepted, hin] using hown

/-- **`strlist_parse_list` adds the entries of the string up to the first that is there already**,
    which makes it fail, and leaves the string as it was. The string is in an array that may be written
    to and shares no memory with the list. -/
theorem parseList_adds {str post : Bytes} {s : StrlistMem} {T : BinTree Color} {strs : List Bytes}
    (h : Owns s T strs) (hsup : Supply mem s 0) (hbuf : s.buf = str ++ 0 :: post) (h0 : 0 ∉ str)
    (hfile : ∀ t ∈ tokens str, ¬ fileScheme <+: t) :
    ∃ s' T' before after, Returns (strlistParseList load mem) s
        (if (tokens str).Nodup ∧ ∀ t ∈ tokens str, t ∉ strs then 0 else -EEXIST) s' ∧
      tokens str = before ++ after ∧ before.Nodup ∧ (∀ t ∈ before, t ∉ strs) ∧
      (∀ t ∈ after.head?, t ∈ strs ∨ t ∈ before) ∧
      Owns s' T' (before ++ strs) ∧ s'.buf = s.buf := by
  have hbuf₀ : s.buf = [] ++ str ++ 0 :: post := hbuf
  obtain ⟨s', T', K, hrun, hown, hbuf'⟩ := parse_owned load h hsup hbuf₀ h0 hfile
  obtain ⟨after, hsplit, hstop⟩ := accepted_split strs (tokens str)
  refine ⟨s', T', accepted strs (tokens str), after,
    ⟨max K (str.length + 1), fun fuel hfuel => ?_⟩, hsplit, nodup_accepted, accepted_new, hstop,
    hown.reorder ((List.reverse_perm _).append_right strs), hbuf'⟩
  have hgo := hrun fuel fuel (by omega) (by omega)
  simp only [accepted_eq_iff] at hgo
  exact hgo

/-- `"a,,a,b"` into a list without nodes: the second `a` is there already, so there is no `b`. -/
theorem parseList_adds_a :
    ∃ s' T' before after, Returns (strlistParseList (fun _ => pure 0) some)
        (emptyList true (freshMem [97, 44, 44, 97, 44, 98]))
        (if (tokens [97, 44, 44, 97, 44, 98]).Nodup ∧ ∀ t ∈ tokens [97, 44, 44, 97, 44, 98], t ∉ []
          then 0 else -EEXIST) s' ∧
      tokens [97, 44, 44, 97, 44, 98] = before ++ after ∧ before.Nodup ∧ (∀ t ∈ before, t ∉ []) ∧
      (∀ t ∈ after.head?, t ∈ [] ∨ t ∈ before) ∧ Owns s' T' (before ++ []) ∧
      s'.buf = (emptyList true (freshMem [97, 44, 44, 97, 44, 98])).buf :=
  parseList_adds (fun _ => pure 0) (owns_emptyList _) (supply_emptyList _) rfl (by decide)
    (by decide)

end Parsing

/-! ## Lists without copies -/

/-- The nodes of a list without copies point before the element `i` of the array. -/
structure Aliases (s : StrlistMem) (T : BinTree Color) (i : ℕ) : Prop where
  tree : TreeIn s.rblist.entries T
  dup : s.dupstr = false
  before : ∀ n ∈ T, ∃ p < i, s.rblist.entries.data n = .buf p

section Aliased

variable {mem : ℕ → Ptr} {s : StrlistMem} {T : BinTree Color} {k i : ℕ}

/-- An entry that no node has is added, whatever the order of the strings in the tree has become. -/
theorem Aliases.add (h : Aliases s T i) (hsup : Supply mem s k)
    (hne : ∀ p < i, cstr s.buf (.buf p) ≠ cstr s.buf (.buf i)) :
    ∃ l T', Returns (fun fuel => strlistAdd fuel (.buf i) (mem k)) s 0 { s with rblist := l } ∧
      TreeIn l.entries T' ∧ (∀ n ∈ T', ∃ p ≤ i, l.entries.data n = .buf p) ∧
      ∀ b, Supply mem { s with rblist := l, buf := b } (k + 1) := by
  obtain ⟨m, hk, hm⟩ := hsup.fresh k le_rfl
  obtain ⟨gs, u, hends, hcases⟩ := returns_rblistAddNode (strlistOps s.dupstr s.buf) (.buf i)
    (some m) h.tree (by rintro _ ⟨⟩; exact hm)
  rcases hcases with ⟨hu, -⟩ | ⟨-, habs, -⟩ | ⟨rfl, n, l, T', hn, hret, hadd⟩
  · -- the search has stopped at a node with the same string
    obtain ⟨n, hn⟩ := Option.ne_none_iff_exists'.1 (mt root_eq_none.1 hu)
    have hnT : n ∈ T := by
      rw [hends.plug, mem_plug]
      exact .inl (mem_of_root hn)
    obtain ⟨p, hp, hdata⟩ := h.before n hnT
    have hstop := hends.stop n hn
    rw [hdata] at hstop
    exact absurd (strcmp_eq_zero.1 hstop) (hne p hp)
  · exact absurd habs (by simp)
  · obtain rfl : m = n := by simpa using hn
    obtain rfl := hends.plug
    refine ⟨l, T', hk ▸ returns_strlistAdd hret, hadd.tree, fun n hn => ?_,
      fun b => hsup.next h.tree hk hadd⟩
    rw [hadd.data]
    rcases hadd.mem_iff.1 hn with rfl | hold
    · exact ⟨i, le_rfl, by simp [strlistOps, h.dup]⟩
    · obtain ⟨p, hp, hdata⟩ := h.before n hold
      have hnm : n ≠ m := by
        rintro rfl
        exact h.tree.not_mem hm hold
      exact ⟨p, hp.le, by rw [Function.update_of_ne hnm, hdata]⟩

variable (load : StrPtr → Exec StrlistMem ℤ)

/-- An entry that starts in `pre` and goes on behind it has a comma. -/
theorem comma_mem_cstr {pre t post : Bytes} {p : ℕ} (h0 : 0 ∉ pre ++ t) (hp : p < pre.length)
    (hpre : ∀ p < pre.length, comma ∈ pre.drop p) :
    comma ∈ cstr (pre ++ t ++ 0 :: post) (.buf p) := by
  rw [cstr_buf h0 (by simp; omega), List.drop_append_of_le_length hp.le]
  exact List.mem_append_left t (hpre p hp)

/-- The next entry `t` is unlike all earlier ones, so it is added. -/
theorem Aliases.add_next {pre t r : Bytes} (h : Aliases s T pre.length) (hsup : Supply mem s k)
    (hbuf : s.buf = pre ++ t ++ 0 :: r) (h0 : 0 ∉ pre ++ t)
    (hpre : ∀ p < pre.length, comma ∈ pre.drop p) (ht : comma ∉ t) :
    ∃ l T', Returns (fun fuel => strlistAdd fuel (.buf pre.length) (mem k)) s 0
        { s with rblist := l } ∧
      TreeIn l.entries T' ∧ (∀ n ∈ T', ∃ p ≤ pre.length, l.entries.data n = .buf p) ∧
      ∀ b, Supply mem { s with rblist := l, buf := b } (k + 1) := by
  refine h.add hsup fun p hp heq => ht ?_
  rw [hbuf, cstr_entry fun hmem => h0 (List.mem_append_right _ hmem)] at heq
  rw [← heq]
  exact comma_mem_cstr h0 hp hpre

/-- Where every earlier entry is followed by a comma, the list without copies takes all entries,
    since none ever compares equal to one with a comma. In the end only the string behind the last
    comma is an entry. -/
theorem parse_aliased {cur pre post : Bytes} (h : Aliases s T pre.length) (hsup : Supply mem s k)
    (hbuf : s.buf = pre ++ cur ++ 0 :: post) (h0 : 0 ∉ pre ++ cur)
    (hpre : ∀ p < pre.length, comma ∈ pre.drop p)
    (hfile : ∀ t ∈ tokens cur, ¬ fileScheme <+: t) :
    ∃ s' T' K, (∀ fuel rounds, K ≤ fuel → cur.length < rounds →
        (strlistParseLoop load mem fuel rounds k pre.length).run s = .ok (0, s')) ∧
      TreeIn s'.rblist.entries T' ∧ s'.dupstr = false ∧ s'.buf = s.buf ∧
      ∀ n ∈ T', comma ∈ cstr s.buf (s'.rblist.entries.data n) ∨
        cstr s.buf (s'.rblist.entries.data n) ∈ (tokens cur).drop (cur.count comma) := by
  induction cur using cut_induction comma generalizing s T pre k with
  | last cur hcur =>
      have h0cur : 0 ∉ cur := fun hmem => h0 (List.mem_append_right _ hmem)
      by_cases hnil : cur = []
      · subst hnil
        refine ⟨s, T, 0, fun fuel rounds _ hrounds => ?_, h.tree, h.dup, rfl, fun n hn => .inl ?_⟩
        · obtain ⟨rounds, rfl⟩ := Nat.exists_eq_add_one.2 hrounds
          rw [run_parse_last hbuf hcur h0cur]
          rfl
        · obtain ⟨p, hp, hdata⟩ := h.before n hn
          rw [hdata, hbuf]
          exact comma_mem_cstr h0 hp hpre
      · have hentry : cstr s.buf (.buf pre.length) = cur := by rw [hbuf, cstr_entry h0cur]
        rw [tokens_last hcur hnil] at hfile ⊢
        obtain ⟨l, T', ⟨K, hK⟩, hT', hptr, -⟩ := h.add_next hsup hbuf h0 hpre hcur
        refine ⟨{ s with rblist := l }, T', K, fun fuel rounds hfuel hrounds => ?_, hT', h.dup, rfl,
          fun n hn => ?_⟩
        · obtain ⟨rounds, rfl⟩ := Nat.exists_eq_add_one.2 (Nat.zero_lt_of_lt hrounds)
          rw [run_parse_last hbuf hcur h0cur, if_pos hnil,
            run_parseListEntry (by rw [hentry]; exact hfile cur (by simp)), hK fuel hfuel]
        · obtain ⟨p, hp, hdata⟩ := hptr n hn
          change comma ∈ cstr s.buf (l.entries.data n) ∨ cstr s.buf (l.entries.data n) ∈ _
          rw [hdata]
          rcases hp.lt_or_eq with hp | rfl
          · rw [hbuf]
            exact .inl (comma_mem_cstr h0 hp hpre)
          · rw [hentry, List.count_eq_zero_of_not_mem hcur]
            exact .inr (by simp)
  | cut t cur ht ih =>
      have h0t : 0 ∉ t := fun hmem => h0 (by simp [hmem])
      have h0' : 0 ∉ pre ++ t := fun hmem => h0 (by
        rw [← List.append_assoc]
        exact List.mem_append_left _ hmem)
      rw [tokens_cut ht] at hfile ⊢
      have hcut : s.buf = pre ++ t ++ comma :: (cur ++ 0 :: post) := by simp [hbuf]
      -- the entry, with the array cut behind it
      have h₁ : Aliases { s with buf := pre ++ t ++ 0 :: (cur ++ 0 :: post) } T pre.length :=
        ⟨h.tree, h.dup, h.before⟩
      have hsup₁ : Supply mem { s with buf := pre ++ t ++ 0 :: (cur ++ 0 :: post) } k :=
        ⟨hsup.fresh, hsup.distinct⟩
      have hnofile : ¬ fileScheme <+: cstr (pre ++ t ++ 0 :: (cur ++ 0 :: post))
        (.buf pre.length) := by
        rw [cstr_entry h0t]
        exact hfile t (by simp)
      obtain ⟨l, T', ⟨K, hK⟩, hT', hptr, hsup'⟩ := h₁.add_next hsup₁ rfl h0' hpre ht
      -- the comma is back, and every entry so far starts before it
      have h₂ : Aliases { s with rblist := l } T' (pre ++ t ++ [comma]).length := by
        refine ⟨hT', h.dup, fun n hn => ?_⟩
        obtain ⟨p, hp, hdata⟩ := hptr n hn
        exact ⟨p, by simp; omega, hdata⟩
      have hpre₂ : ∀ p < (pre ++ t ++ [comma]).length, comma ∈ (pre ++ t ++ [comma]).drop p := by
        intro p hp
        rw [List.drop_append_of_le_length (by simp at hp ⊢; omega)]
        simp
      obtain ⟨s', T'', K', hrun, hrest⟩ := ih h₂ (hsup' s.buf) (by simp [hbuf])
        (by simpa [comma] using h0) hpre₂ fun u hu => hfile u (List.mem_cons_of_mem t hu)
      refine ⟨s', T'', max K K', fun fuel rounds hfuel hrounds => ?_, ?_⟩
      · obtain ⟨rounds, rfl⟩ := Nat.exists_eq_add_one.2 (Nat.zero_lt_of_lt hrounds)
        rw [run_parse_cut hcut ht h0t ((run_parseListEntry hnofile).trans (hK fuel (by omega))) rfl]
        simp only [ne_eq, not_true_eq_false, if_false]
        exact hrun fuel rounds (by omega) (by simp at hrounds; omega)
      · have hcount : (t ++ comma :: cur).count comma = cur.count comma + 1 := by
          simp [List.count_eq_zero_of_not_mem ht]
        rw [hcount, List.drop_succ_cons]
        exact hrest

end Aliased

/-! ## Both kinds of list -/

section New

variable (load : StrPtr → Exec StrlistMem ℤ) {mem : ℕ → Ptr} {s : StrlistMem} {str post : Bytes}
  {T : BinTree Color}

theorem returns_strlistNew {dup : Bool} {l : StrlistMem} (K len : ℕ)
    (h : ∀ fuel rounds, K ≤ fuel → len < rounds →
      (strlistParseLoop load mem fuel rounds 0 0).run (emptyList dup s) = .ok (0, l)) :
    Returns (fun fuel => strlistNew load mem fuel dup) s true l := by
  refine ⟨max K (len + 1), fun fuel hfuel => ?_⟩
  have hinit : (onRblist rblistInit).run s = .ok ((), { s with rblist := (emptyList dup s).rblist }) :=
    rfl
  have hdup : (modify fun s => { s with dupstr := dup } : Exec StrlistMem Unit).run
      { s with rblist := (emptyList dup s).rblist } = .ok ((), emptyList dup s) := rfl
  have hparse := h fuel fuel (by omega) (by omega)
  unfold strlistNew strlistParseList
  rw [Exec.run_bind_of_ok hinit, Exec.run_bind_of_ok hdup, Exec.run_bind_of_ok hparse]
  rfl

/-- The string of no node is found. -/
theorem returns_findString_none {q : Bytes} (h : TreeIn s.rblist.entries T)
    (hq : ∀ n ∈ T, cstr s.buf (s.rblist.entries.data n) ≠ q) : Returns (findString q) s none s := by
  obtain ⟨gs, u, hends, K, hK⟩ := returns_rblistFind (strlistOps s.dupstr s.buf) (.heap q) h
  have hu : u.root = none := by
    by_contra hu
    obtain ⟨n, hn⟩ := Option.ne_none_iff_exists'.1 hu
    have hnT : n ∈ T := by
      rw [hends.plug, mem_plug]
      exact .inl (mem_of_root hn)
    exact hq n hnT (strcmp_eq_zero.1 (hends.stop n hn))
  refine ⟨K, fun fuel hfuel => ?_⟩
  have hfind : (strlistFind fuel (.heap q)).run s = .ok (none, s) := by
    unfold strlistFind
    rw [Exec.run_get_bind, run_onRblist (hK fuel hfuel), hu]
  unfold findString
  rw [Exec.run_bind_of_ok hfind]
  rfl

theorem Owns.holding {strs : List Bytes} (h : Owns s T strs) :
    Holding s (T.addrs.map fun n => (n, cstr s.buf (s.rblist.entries.data n))) := by
  refine ⟨T, h.tree, rfl, ?_⟩
  have hs := h.sorted
  rw [keyed_eq, List.pairwise_map] at hs
  exact hs

/-- A string without a comma becomes the only entry, or none when it is empty. -/
theorem new_single (dup : Bool) (hsup : Supply mem s 0) (hbuf : s.buf = str ++ 0 :: post)
    (h0 : 0 ∉ str) (hfile : ∀ t ∈ tokens str, ¬ fileScheme <+: t) (hcomma : comma ∉ str) :
    ∃ l xs, Returns (fun fuel => strlistNew load mem fuel dup) s true l ∧ Holding l xs ∧
      xs.map Prod.snd = tokens str := by
  have hbuf₀ : (emptyList dup s).buf = [] ++ str ++ 0 :: post := hbuf
  by_cases hnil : str = []
  · subst hnil
    refine ⟨emptyList dup s, [], returns_strlistNew load 0 0 fun fuel rounds _ hrounds => ?_,
      ⟨.nil, treeIn_emptyList dup, rfl, .nil⟩, rfl⟩
    obtain ⟨rounds, rfl⟩ := Nat.exists_eq_add_one.2 hrounds
    exact (run_parse_last hbuf₀ hcomma h0).trans rfl
  · rw [tokens_last hcomma hnil] at hfile ⊢
    have hentry : cstr s.buf (.buf 0) = str := by
      rw [hbuf]
      exact @cstr_entry [] str post h0
    obtain ⟨n, hk, hn⟩ := hsup.fresh 0 le_rfl
    obtain ⟨l, T', gs, -, hret, hadd, hkeyed, hs⟩ := addNode_absent (s := (emptyList dup s).rblist)
      (treeIn_emptyList dup) .nil (cmpSigns dup s.buf _ _ (.buf 0))
        (keyOf_nodeNew dup s.buf (.buf 0))
      hn (by simp [keyed])
    obtain ⟨K, hK⟩ := returns_strlistAdd (s := emptyList dup s) hret
    refine ⟨{ emptyList dup s with rblist := l }, [(n, str)],
      returns_strlistNew load K 0 fun fuel rounds hfuel hrounds => ?_,
      ⟨T', hadd.tree, ?_, List.pairwise_singleton _ _⟩, rfl⟩
    · obtain ⟨rounds, rfl⟩ := Nat.exists_eq_add_one.2 (Nat.zero_lt_of_lt hrounds)
      refine (run_parse_last hbuf₀ hcomma h0).trans ?_
      rw [if_pos hnil]
      refine (run_parseListEntry ?_).trans ?_
      · exact hentry ▸ hfile str (by simp)
      · rw [hk]
        exact hK fuel hfuel
    · have hinj : Function.Injective fun x : ℕ × Bytes => (x.1, codes x.2) := fun _ _ hxy =>
        Prod.ext (Prod.mk.inj hxy).1 (codes_inj.1 (Prod.mk.inj hxy).2)
      refine List.map_injective_iff.2 hinj ?_
      rw [← hentry]
      exact keyed_eq.symm.trans hkeyed

/-- With a comma in the string, the list with copies finds the first entry and the list without
    copies does not. -/
theorem new_comma {mem' : ℕ → Ptr} {s' : StrlistMem} {post' : Bytes} (hsup : Supply mem s 0)
    (hsup' : Supply mem' s' 0) (hbuf : s.buf = str ++ 0 :: post)
    (hbuf' : s'.buf = str ++ 0 :: post')
    (h0 : 0 ∉ str) (hfile : ∀ t ∈ tokens str, ¬ fileScheme <+: t) (hnodup : (tokens str).Nodup)
    (hcomma : comma ∈ str) :
    ∃ l l' t, Returns (fun fuel => strlistNew load mem fuel true) s true l ∧
      Returns (fun fuel => strlistNew load mem' fuel false) s' true l' ∧
      t ∈ tokens str ∧ Returns (findString t) l (some t) l ∧ Returns (findString t) l' none l' := by
  have hbuf₀ : (emptyList true s).buf = [] ++ str ++ 0 :: post := hbuf
  obtain ⟨l, T, K, hrun, hown, -⟩ := parse_owned load (owns_emptyList s) (⟨hsup.fresh, hsup.distinct⟩) hbuf₀ h0
    hfile
  have hempty' : Aliases (emptyList false s') .nil ([] : Bytes).length :=
    ⟨treeIn_emptyList false, rfl, by simp⟩
  have hbuf₀' : (emptyList false s').buf = [] ++ str ++ 0 :: post' := hbuf'
  obtain ⟨l', T', K', hrun', hT', -, hbufl', hstr⟩ := parse_aliased load hempty'
    (⟨hsup'.fresh, hsup'.distinct⟩) hbuf₀' h0 (by simp) hfile
  obtain ⟨t, str', rfl, ht⟩ := List.eq_append_cons_of_mem hcomma
  rw [tokens_cut ht] at hnodup hstr hrun hown ⊢
  rw [accepted_eq hnodup (by simp)] at hrun hown
  simp only [if_true] at hrun
  refine ⟨l, l', t, returns_strlistNew load K _ hrun, returns_strlistNew load K' _ hrun', by simp,
    ?_, returns_findString_none hT' fun n hn heq => ?_⟩
  · have hfind := returns_findString hown.holding t
    have hmem : t ∈ (T.addrs.map fun n => (n, cstr l.buf (l.rblist.entries.data n))).map Prod.snd := by
      rw [List.map_map]
      exact hown.perm.mem_iff.2 (by simp)
    rwa [if_pos hmem] at hfind
  · -- a node with the string `t` would have a comma in it or be a later entry
    rw [hbufl'] at heq
    rcases hstr n hn with hc | htail
    · exact ht (heq ▸ hc)
    · have hcount : (t ++ comma :: str').count comma = str'.count comma + 1 := by
        simp [List.count_eq_zero_of_not_mem ht]
      rw [hcount, List.drop_succ_cons, heq] at htail
      exact (List.nodup_cons.1 hnodup).1 (List.mem_of_mem_drop htail)

end New

section Same

variable (load : StrPtr → Exec StrlistMem ℤ)

/-- The two lists made of `str` answer alike, and find every entry of it. -/
def BuiltAlike (l₁ l₂ : StrlistMem) (str : Bytes) : Prop :=
  SameAnswers l₁ l₂ ∧ ∀ t ∈ tokens str, Returns (findString t) l₁ (some t) l₁ ∧
    Returns (findString t) l₂ (some t) l₂

/-- **A list that points into the caller's string is the list of its entries only where the string
    has no comma**, and so no second entry. -/
theorem new_same_iff {mem₁ mem₂ : ℕ → Ptr} {s₁ s₂ : StrlistMem} {str post₁ post₂ : Bytes}
    (hbuf₁ : s₁.buf = str ++ 0 :: post₁) (hbuf₂ : s₂.buf = str ++ 0 :: post₂) (h0 : 0 ∉ str)
    (hfile : ∀ t ∈ tokens str, ¬ fileScheme <+: t) (hnodup : (tokens str).Nodup)
    (hmem₁ : Supply mem₁ s₁ 0) (hmem₂ : Supply mem₂ s₂ 0) :
    ∃ l₁ l₂, Returns (fun fuel => strlistNew load mem₁ fuel true) s₁ true l₁ ∧
      Returns (fun fuel => strlistNew load mem₂ fuel false) s₂ true l₂ ∧
      (BuiltAlike l₁ l₂ str ↔ comma ∉ str) := by
  by_cases hcomma : comma ∈ str
  · obtain ⟨l₁, l₂, t, hret₁, hret₂, ht, -, hfind⟩ :=
      new_comma load hmem₁ hmem₂ hbuf₁ hbuf₂ h0 hfile hnodup hcomma
    refine ⟨l₁, l₂, hret₁, hret₂, iff_of_false (fun halike => ?_) (not_not.2 hcomma)⟩
    exact absurd (hfind.unique (halike.2 t ht).2).1 (by simp)
  · obtain ⟨l₁, xs₁, hret₁, hl₁, hxs₁⟩ := new_single load true hmem₁ hbuf₁ h0 hfile hcomma
    obtain ⟨l₂, xs₂, hret₂, hl₂, hxs₂⟩ := new_single load false hmem₂ hbuf₂ h0 hfile hcomma
    refine ⟨l₁, l₂, hret₁, hret₂, iff_of_true ⟨hl₁.sameAnswers hl₂ (hxs₁.trans hxs₂.symm), ?_⟩ hcomma⟩
    intro t ht
    have hfind₁ := returns_findString hl₁ t
    have hfind₂ := returns_findString hl₂ t
    rw [if_pos (hxs₁ ▸ ht)] at hfind₁
    rw [if_pos (hxs₂ ▸ ht)] at hfind₂
    exact ⟨hfind₁, hfind₂⟩

/-- With `"x"` and with `"x,y"`. -/
theorem new_same_iff_letters :
    (∃ l₁ l₂, Returns (fun fuel => strlistNew (fun _ => pure 0) some fuel true) (freshMem [120]) true l₁ ∧
      Returns (fun fuel => strlistNew (fun _ => pure 0) some fuel false) (freshMem [120]) true l₂ ∧
      (BuiltAlike l₁ l₂ [120] ↔ comma ∉ [120])) ∧
    ∃ l₁ l₂, Returns (fun fuel => strlistNew (fun _ => pure 0) some fuel true)
      (freshMem [120, 44, 121])
        true l₁ ∧
      Returns (fun fuel => strlistNew (fun _ => pure 0) some fuel false) (freshMem [120, 44, 121])
        true l₂ ∧
      (BuiltAlike l₁ l₂ [120, 44, 121] ↔ comma ∉ [120, 44, 121]) :=
  ⟨new_same_iff (fun _ => pure 0) rfl rfl (by decide) (by decide) (by decide) (supply_freshMem _)
      (supply_freshMem _),
    new_same_iff (fun _ => pure 0) rfl rfl (by decide) (by decide) (by decide) (supply_freshMem _)
      (supply_freshMem _)⟩

/-- The lists of `"a,b"`: its first entry is in the one with copies only. -/
theorem new_differs_ab :
    ∃ l₁ l₂ t, Returns (fun fuel => strlistNew (fun _ => pure 0) some fuel true)
        (freshMem [97, 44, 98]) true l₁ ∧
      Returns (fun fuel => strlistNew (fun _ => pure 0) some fuel false)
        (freshMem [97, 44, 98]) true l₂ ∧
      t ∈ tokens [97, 44, 98] ∧ Returns (findString t) l₁ (some t) l₁ ∧
      Returns (findString t) l₂ none l₂ :=
  new_comma (fun _ => pure 0) (supply_freshMem _) (supply_freshMem _) rfl rfl (by decide) (by decide)
    (by decide) (by decide)

end Same

end StructLib.Strlist
