import StructLib.Strlist.Parse
import Mathlib.Data.List.TakeWhile

set_option autoImplicit false

/-! # Building a list from a file

`strlist_load` takes the last character off everything that `fgets` returns. That is the newline
only where `fgets` has come to the end of a line that has one, so the list gets the lines of the
file exactly when no line is longer than the array allows and a newline ends the last one
(`loadsLines_iff`). -/

namespace StructLib.Strlist

open BinTree Rbtree RbList

/-! ## What `fgets` returns -/

/-- A call returns a line with its newline, or as much of the text as there is room for, or the text
    behind the last newline. -/
theorem fgets_some {size : ℕ} {file line rest : Bytes}
    (h : fgets (size + 2) file = some (line, rest)) :
    (∃ l, line = l ++ [newline] ∧ newline ∉ l ∧ l.length ≤ size ∧ file = l ++ newline :: rest) ∨
    (line ≠ [] ∧ newline ∉ line ∧ file = line ++ rest ∧ (rest = [] ∨ size + 1 ≤ line.length)) := by
  unfold fgets at h
  split_ifs at h with hfile
  simp only [Option.some.injEq, Prod.mk.injEq] at h
  obtain ⟨rfl, rfl⟩ := h
  set l := file.takeWhile (· ≠ newline) with hl
  have hnl : newline ∉ l := fun hmem => by simpa using List.mem_takeWhile_imp hmem
  have hsplit : file = l ++ file.dropWhile (· ≠ newline) := List.takeWhile_append_dropWhile.symm
  rw [show size + 2 - 1 = size + 1 from rfl]
  by_cases hlong : size + 1 ≤ l.length
  · -- no room for the newline
    have hmin : min (size + 1) (l.length + 1) = size + 1 := by omega
    rw [hmin]
    have htake : file.take (size + 1) = l.take (size + 1) := by
      rw [hsplit, List.take_append_of_le_length hlong]
    refine .inr ⟨?_, ?_, (List.take_append_drop _ _).symm, .inr ?_⟩
    · simp [hfile]
    · rw [htake]
      exact fun hmem => hnl (List.mem_of_mem_take hmem)
    · rw [htake, List.length_take]
      omega
  · have hmin : min (size + 1) (l.length + 1) = l.length + 1 := by omega
    rw [hmin]
    cases hrest : file.dropWhile (· ≠ newline) with
    | nil =>
        rw [hrest, List.append_nil] at hsplit
        have htake : file.take (l.length + 1) = l := by
          rw [hsplit, List.take_of_length_le (by omega)]
        refine .inr ⟨?_, ?_, (List.take_append_drop _ _).symm, .inl ?_⟩
        · simp [hfile]
        · rwa [htake]
        · rw [hsplit, List.drop_of_length_le (by omega)]
    | cons c rest =>
        obtain rfl : c = newline := by
          have hc := List.head?_dropWhile_not (· ≠ newline) file
          rw [hrest] at hc
          simpa using hc
        rw [hrest] at hsplit
        refine .inl ⟨l, ?_, hnl, by omega, ?_⟩
        · rw [hsplit, List.take_length_add_append]
          rfl
        · rw [hsplit, List.drop_length_add_append]
          rfl

theorem fgets_split {file line rest : Bytes} (h : fgets 1024 file = some (line, rest)) :
    file = line ++ rest ∧ line ≠ [] := by
  rcases fgets_some h with ⟨l, rfl, -, -, rfl⟩ | ⟨hne, -, rfl, -⟩
  · simp
  · exact ⟨rfl, hne⟩

/-- What the calls return up to the end of the text. -/
inductive Chunks : Bytes → List Bytes → Prop
  | done : Chunks [] []
  | next {file line rest : Bytes} {ls : List Bytes} (get : fgets 1024 file = some (line, rest))
      (more : Chunks rest ls) : Chunks file (line :: ls)

theorem exists_chunks (file : Bytes) : ∃ ls, Chunks file ls := by
  induction hlen : file.length using Nat.strong_induction_on generalizing file with
  | _ len ih =>
      cases hget : fgets 1024 file with
      | none =>
          obtain rfl : file = [] := by
            by_contra hne
            simp [fgets, hne] at hget
          exact ⟨[], .done⟩
      | some got =>
          obtain ⟨line, rest⟩ := got
          obtain ⟨rfl, hne⟩ := fgets_split hget
          have hlt : rest.length < (line ++ rest).length := by
            have hpos := List.length_pos_iff.2 hne
            simp only [List.length_append]
            omega
          obtain ⟨ls, hls⟩ := ih rest.length (hlen ▸ hlt) rest rfl
          exact ⟨line :: ls, .next hget hls⟩

/-! ## Lines -/

/-- The lines of a text, without their newlines. The text behind the last newline is a line unless
    it is empty. -/
def fileLines (file : Bytes) : List Bytes := pieces newline file

/-- The texts that `strlist_load` can read: every line has room in the array together with its
    newline and a NUL, and has a newline. -/
structure Loadable (file : Bytes) : Prop where
  short : ∀ l ∈ fileLines file, l.length ≤ 1022
  ended : ∀ c ∈ file.getLast?, c = newline

theorem fileLines_cut {l : Bytes} (hl : newline ∉ l) (rest : Bytes) :
    fileLines (l ++ newline :: rest) = l :: fileLines rest :=
  pieces_cut hl rest

theorem getLast?_cut (l rest : Bytes) :
    (∀ c ∈ (l ++ newline :: rest).getLast?, c = newline) ↔ ∀ c ∈ rest.getLast?, c = newline := by
  cases rest with
  | nil => simp
  | cons b rest => simp [List.getLast?_append, List.getLast?_cons_cons]

theorem loadable_nil : Loadable [] := ⟨by simp [fileLines, pieces], by simp⟩

theorem loadable_cut {l : Bytes} (hl : newline ∉ l) (rest : Bytes) :
    Loadable (l ++ newline :: rest) ↔ l.length ≤ 1022 ∧ Loadable rest := by
  constructor
  · rintro ⟨hshort, hended⟩
    rw [fileLines_cut hl, List.forall_mem_cons] at hshort
    exact ⟨hshort.1, hshort.2, (getLast?_cut l rest).1 hended⟩
  · rintro ⟨hlen, hshort, hended⟩
    refine ⟨?_, (getLast?_cut l rest).2 hended⟩
    rw [fileLines_cut hl, List.forall_mem_cons]
    exact ⟨hlen, hshort⟩

/-- A text goes on with its first line. -/
theorem exists_fileLine {l : Bytes} (hl : newline ∉ l) (hne : l ≠ []) (rest : Bytes) :
    ∃ m ∈ fileLines (l ++ rest), l <+: m := by
  by_cases hrest : newline ∈ rest
  · obtain ⟨m, rest, rfl, hm⟩ := List.eq_append_cons_of_mem hrest
    refine ⟨l ++ m, ?_, List.prefix_append l m⟩
    rw [← List.append_assoc, fileLines_cut (by simp [hl, hm])]
    exact List.mem_cons_self
  · refine ⟨l ++ rest, ?_, List.prefix_append l rest⟩
    rw [fileLines, pieces_last (by simp [hl, hrest]) (by simp [hne])]
    exact List.mem_singleton.2 rfl

/-- Of a text that can be read, every call returns a line. -/
theorem Loadable.chunks {file : Bytes} {ls : List Bytes} (h : Loadable file) (hls : Chunks file ls) :
    ls.map List.dropLast = fileLines file := by
  induction hls with
  | done => rfl
  | @next file line rest ls hget hmore ih =>
      rcases fgets_some hget with ⟨l, rfl, hl, -, rfl⟩ | ⟨hne, hl, rfl, hend⟩
      · rw [loadable_cut hl] at h
        rw [List.map_cons, ih h.2, fileLines_cut hl, List.dropLast_concat]
      · exfalso
        rcases hend with rfl | hlong
        · -- the newline at the end would be in the chunk
          rw [List.append_nil] at h
          have hlast := h.ended (line.getLast hne) (List.getLast?_eq_getLast_of_ne_nil hne ▸ rfl)
          exact hl (hlast ▸ List.getLast_mem hne)
        · obtain ⟨m, hm, hprefix⟩ := exists_fileLine hl hne rest
          have hlen := hprefix.length_le
          have hshort := h.short m hm
          omega

/-- There are at most as many newlines as calls, and as many only where every call returns a
    line. -/
theorem Chunks.count_newline {file : Bytes} {ls : List Bytes} (hls : Chunks file ls) :
    file.count newline ≤ ls.length ∧ (file.count newline = ls.length → Loadable file) := by
  induction hls with
  | done => exact ⟨le_rfl, fun _ => loadable_nil⟩
  | @next file line rest ls hget hmore ih =>
      rcases fgets_some hget with ⟨l, rfl, hl, hlen, rfl⟩ | ⟨hne, hl, rfl, -⟩
      · have hcount : (l ++ newline :: rest).count newline = rest.count newline + 1 := by
          simp [List.count_eq_zero_of_not_mem hl]
        rw [hcount, loadable_cut hl]
        exact ⟨by simpa using ih.1, fun heq => ⟨hlen, ih.2 (by simpa using heq)⟩⟩
      · have hcount : (line ++ rest).count newline = rest.count newline := by
          simp [List.count_eq_zero_of_not_mem hl]
        rw [hcount, List.length_cons]
        exact ⟨by omega, fun heq => by omega⟩

/-- Each call loses one character. -/
theorem Chunks.length_flatten {file : Bytes} {ls : List Bytes} (hls : Chunks file ls) :
    (ls.map List.dropLast).flatten.length + ls.length = file.length := by
  induction hls with
  | done => rfl
  | @next file line rest ls hget hmore ih =>
      obtain ⟨rfl, hne⟩ := fgets_split hget
      have hpos := List.length_pos_iff.2 hne
      simp only [List.map_cons, List.flatten_cons, List.length_append, List.length_cons,
        List.length_dropLast]
      omega

/-- The lines lose the newlines. -/
theorem length_flatten_fileLines (file : Bytes) :
    (fileLines file).flatten.length + file.count newline = file.length := by
  induction file using cut_induction newline with
  | last file hfile =>
      by_cases hnil : file = []
      · subst hnil
        rfl
      · rw [fileLines, pieces_last hfile hnil, List.count_eq_zero_of_not_mem hfile]
        simp
  | cut l rest hl ih =>
      have hcount : (l ++ newline :: rest).count newline = rest.count newline + 1 := by
        simp [List.count_eq_zero_of_not_mem hl]
      rw [fileLines_cut hl, hcount]
      simp only [List.flatten_cons, List.length_append, List.length_cons]
      omega

/-- What the calls return is the lines only where the text can be read. -/
theorem perm_chunks_iff {file : Bytes} {ls : List Bytes} (hls : Chunks file ls) :
    (fileLines file).Perm (ls.map List.dropLast) ↔ Loadable file := by
  refine ⟨fun hperm => hls.count_newline.2 ?_, fun h => h.chunks hls ▸ .rfl⟩
  have hlen := hperm.flatten.length_eq
  have hchunks := hls.length_flatten
  have hlines := length_flatten_fileLines file
  omega

/-! ## The loop -/

section Loading

variable {mem : ℕ → Ptr} {s : StrlistMem} {T : BinTree Color} {strs : List Bytes}

/-- The string in the array, once the last character of `line` has been overwritten. -/
theorem cstr_set_last {line r : Bytes} (h0 : 0 ∉ line) (hne : line ≠ []) :
    cstr ((line ++ 0 :: r).set (line.length - 1) 0) (.buf 0) = line.dropLast := by
  obtain ⟨l, c, rfl⟩ := (List.eq_nil_or_concat' line).resolve_left hne
  have hset : (l ++ [c] ++ 0 :: r).set ((l ++ [c]).length - 1) 0 = l ++ 0 :: 0 :: r := by simp
  rw [List.dropLast_concat, hset]
  exact @cstr_entry [] l _ fun hmem => h0 (List.mem_append_left _ hmem)

/-- One pass of the loop. -/
theorem run_loadLoop_next {file line rest entry : Bytes} {fuel rounds k : ℕ} {err : ℤ}
    {s₁ : StrlistMem} (hget : fgets 1024 file = some (line, rest)) (h0 : 0 ∉ line)
    (hadd : (strlistAdd fuel (.heap line.dropLast) (mem k)).run s = .ok (err, s₁)) :
    (strlistLoadLoop mem fuel (rounds + 1) k entry file).run s =
      (if err ≠ 0 then pure err
        else strlistLoadLoop mem fuel rounds (k + 1)
          ((line ++ 0 :: entry.drop (line.length + 1)).set (line.length - 1) 0) rest).run s₁ := by
  have hne := (fgets_split hget).2
  have hlen : (cstr (line ++ 0 :: entry.drop (line.length + 1)) (.buf 0)).length = line.length :=
    congrArg List.length (@cstr_entry [] line _ h0)
  have hpos : line.length ≠ 0 := by simpa using hne
  rw [strlistLoadLoop, hget]
  simp only []
  rw [hlen, if_neg hpos, cstr_set_last h0 hne, Exec.run_bind_of_ok hadd]

/-- `strlist_load` takes what the calls of `fgets` return, each time without the last character,
    in order up to the first that is there already. -/
theorem loadLoop_owned {file : Bytes} {ls : List Bytes} (hls : Chunks file ls) (h : Owns s T strs)
    {k : ℕ} (hsup : Supply mem s k) (h0 : 0 ∉ file) (entry : Bytes) :
    ∃ s' T' K, (∀ fuel rounds, K ≤ fuel → ls.length < rounds →
        (strlistLoadLoop mem fuel rounds k entry file).run s =
          .ok (if accepted strs (ls.map List.dropLast) = ls.map List.dropLast then 0 else -EEXIST,
            s')) ∧
      Owns s' T' ((accepted strs (ls.map List.dropLast)).reverse ++ strs) := by
  induction hls generalizing s T strs k entry with
  | done =>
      refine ⟨s, T, 0, fun fuel rounds _ hrounds => ?_, h⟩
      obtain ⟨rounds, rfl⟩ := Nat.exists_eq_add_one.2 hrounds
      rfl
  | @next file line rest ls hget hmore ih =>
      obtain ⟨rfl, hne⟩ := fgets_split hget
      have h0line : 0 ∉ line := fun hmem => h0 (List.mem_append_left _ hmem)
      have h0rest : 0 ∉ rest := fun hmem => h0 (List.mem_append_right _ hmem)
      rcases h.add hsup (.heap line.dropLast) with ⟨hin, K, hK⟩ | ⟨hin, l, T', ⟨K, hK⟩, h', hsup'⟩
      · change line.dropLast ∈ strs at hin
        refine ⟨s, T, K, fun fuel rounds hfuel hrounds => ?_, ?_⟩
        · obtain ⟨rounds, rfl⟩ := Nat.exists_eq_add_one.2 (Nat.zero_lt_of_lt hrounds)
          rw [run_loadLoop_next hget h0line (hK fuel hfuel)]
          simp [accepted, hin, EEXIST]
        · simpa [accepted, hin] using h
      · change line.dropLast ∉ strs at hin
        change Owns { s with rblist := l } T' (line.dropLast :: strs) at h'
        obtain ⟨s', T'', K', hrun, hown⟩ := ih h' (hsup' s.buf) h0rest
          ((line ++ 0 :: entry.drop (line.length + 1)).set (line.length - 1) 0)
        refine ⟨s', T'', max K K', fun fuel rounds hfuel hrounds => ?_, ?_⟩
        · obtain ⟨rounds, rfl⟩ := Nat.exists_eq_add_one.2 (Nat.zero_lt_of_lt hrounds)
          rw [run_loadLoop_next hget h0line (hK fuel (by omega))]
          simp only [ne_eq, not_true_eq_false, if_false]
          rw [hrun fuel rounds (by omega) (by simp at hrounds; omega)]
          simp [accepted, hin]
        · simpa [accepted, hin] using hown

variable {fopen : Bytes → Except ℤ Bytes} {filename : StrPtr} {file : Bytes}

/-- `strlist_load` on the list with the strings `strs` returns 0 and adds just the lines of the
    file. -/
def LoadsLines (mem : ℕ → Ptr) (fopen : Bytes → Except ℤ Bytes) (entry : Fin 1024 → UInt8)
    (filename : StrPtr) (s : StrlistMem) (strs : List Bytes) (file : Bytes) : Prop :=
  ∃ s' T', Returns (fun fuel => strlistLoad mem fopen entry fuel filename) s 0 s' ∧
    Owns s' T' (fileLines file ++ strs)

theorem load_owned {ls : List Bytes} (hls : Chunks file ls) (h : Owns s T strs)
    (hsup : Supply mem s 0) (hopen : fopen (cstr s.buf filename) = .ok file) (h0 : 0 ∉ file)
    (entry : Fin 1024 → UInt8) :
    ∃ s' T', Returns (fun fuel => strlistLoad mem fopen entry fuel filename) s
        (if accepted strs (ls.map List.dropLast) = ls.map List.dropLast then 0 else -EEXIST) s' ∧
      Owns s' T' ((accepted strs (ls.map List.dropLast)).reverse ++ strs) := by
  obtain ⟨s', T', K, hrun, hown⟩ := loadLoop_owned hls h hsup h0 (List.ofFn entry)
  refine ⟨s', T', ⟨max K (ls.length + 1), fun fuel hfuel => ?_⟩, hown⟩
  unfold strlistLoad
  rw [Exec.run_get_bind, hopen]
  exact hrun fuel fuel (by omega) (by omega)

/-- With nothing twice, that is whether the calls return the lines. -/
theorem loadsLines_iff_perm {ls : List Bytes} (hls : Chunks file ls) (h : Owns s T strs)
    (hsup : Supply mem s 0) (hopen : fopen (cstr s.buf filename) = .ok file) (h0 : 0 ∉ file)
    (hnodup : (fileLines file).Nodup) (hnew : ∀ l ∈ fileLines file, l ∉ strs)
    (entry : Fin 1024 → UInt8) :
    LoadsLines mem fopen entry filename s strs file ↔
      (fileLines file).Perm (ls.map List.dropLast) := by
  obtain ⟨s', T', hret, hown⟩ := load_owned hls h hsup hopen h0 entry
  constructor
  · rintro ⟨s'', T'', hret', hown'⟩
    obtain ⟨hcode, rfl⟩ := hret'.unique hret
    have hall : accepted strs (ls.map List.dropLast) = ls.map List.dropLast := by
      by_contra hall
      rw [if_neg hall] at hcode
      simp [EEXIST] at hcode
    obtain rfl := hown'.tree.focus.unique hown.tree.focus
    rw [hall] at hown
    have hperm := hown'.perm.symm.trans hown.perm
    exact ((List.perm_append_right_iff strs).1 hperm).trans (List.reverse_perm _)
  · intro hperm
    have hall : accepted strs (ls.map List.dropLast) = ls.map List.dropLast :=
      accepted_eq (hperm.nodup_iff.1 hnodup) fun l hl => hnew l (hperm.mem_iff.2 hl)
    rw [hall] at hown
    rw [if_pos hall] at hret
    exact ⟨s', T', hret,
      hown.reorder (((List.reverse_perm _).trans hperm.symm).append_right strs)⟩

/-- **`strlist_load` adds the lines of the file just when each has room in the array and all end
    with a newline.** -/
theorem loadsLines_iff (h : Owns s T strs) (hsup : Supply mem s 0)
    (hopen : fopen (cstr s.buf filename) = .ok file) (h0 : 0 ∉ file)
    (hnodup : (fileLines file).Nodup) (hnew : ∀ l ∈ fileLines file, l ∉ strs)
    (entry : Fin 1024 → UInt8) :
    LoadsLines mem fopen entry filename s strs file ↔ Loadable file := by
  obtain ⟨ls, hls⟩ := exists_chunks file
  rw [loadsLines_iff_perm hls h hsup hopen h0 hnodup hnew entry, perm_chunks_iff hls]

/-- `"x\ny\n"` into a list without nodes. -/
theorem loadsLines_iff_xy :
    LoadsLines some (fun _ => .ok [120, 10, 121, 10]) (fun _ => 0) (.heap [])
      (emptyList true (freshMem [])) [] [120, 10, 121, 10] ↔ Loadable [120, 10, 121, 10] :=
  loadsLines_iff (owns_emptyList _) (supply_emptyList []) (by rfl) (by decide) (by decide)
    (by decide) (fun _ => 0)

/-- The only line of `"ab"`, which has no newline, comes into the list as `"a"`. -/
theorem load_cuts_ab :
    (∃ s' T', Returns (fun fuel => strlistLoad some (fun _ => .ok [97, 98]) (fun _ => 0) fuel
        (.heap [])) (emptyList true (freshMem [])) 0 s' ∧ Owns s' T' [[97]]) ∧
      fileLines [97, 98] = [[97, 98]] ∧
      ¬ LoadsLines some (fun _ => .ok [97, 98]) (fun _ => 0) (.heap [])
        (emptyList true (freshMem [])) [] [97, 98] := by
  have hls : Chunks [97, 98] [[97, 98]] := .next rfl .done
  have hown := owns_emptyList (freshMem [])
  have hsup := supply_emptyList []
  refine ⟨load_owned hls hown hsup (by rfl) (by decide) fun _ => 0, rfl, ?_⟩
  rw [loadsLines_iff_perm hls hown hsup (by rfl) (by decide) (by decide) (by decide)]
  decide

end Loading

end StructLib.Strlist
