import StructLib.Dlist.Ops
import StructLib.Lib.Family

set_option autoImplicit false

/-! # Doubly linked lists are sequences

A family of list heads is a partial map from addresses to sequences of entries. `Lists` says that
memory holds such a family: the links of every head form a ring with its entries, and no `list_head`
is used twice. Every operation keeps this and does to the sequences what `Op.next` says
(`lists_are_sequences`). -/

namespace StructLib.Dlist

open Family Links

/-- The list heads, each with the entries on its list. -/
abbrev Heads := Ptr → Option (List Ptr)

/-- All `list_head`s of a list, its own first. -/
def cells (A : Heads) : Heads := fun h => (A h).map (h :: ·)

/-- `n` is neither a list head nor an entry. -/
def Free (A : Heads) (n : Ptr) : Prop := ∀ h, ¬ Holds (cells A) h n

/-- Memory holds the lists `A`. -/
structure Lists (s : DlistMem) (A : Heads) : Prop where
  ring : ∀ h xs, A h = some xs → s.link.Ring h xs
  apart : Apart (cells A)
  live : ∀ h x, Holds (cells A) h x → s.live x = true

/-! ## The operations -/

inductive Op where
  | init (h : Ptr)
  | add (h n : Ptr)
  | addTail (h n : Ptr)
  | remove (n : Ptr)
  | replace (o n : Ptr)
  | move (h n : Ptr)
  | moveTail (h n : Ptr)
  | cut (h e c : Ptr)
  | join (a h : Ptr)
  | joinTail (a h : Ptr)

def Op.exec : Op → Exec DlistMem Unit
  | init h => dlistInit h
  | add h n => dlistAdd h n
  | addTail h n => dlistAddTail h n
  | remove n => dlistRemove n
  | replace o n => dlistReplace o n
  | move h n => dlistMove h n
  | moveTail h n => dlistMoveTail h n
  | cut h e c => dlistCutPosition h e c
  | join a h => dlistJoin a h
  | joinTail a h => dlistJoinTail a h

/-- What a user promises: entries that are added are on no list, entries that are named otherwise
    are on a list, heads are initialised, and two different ones are joined or cut, the one that
    receives a cut being empty. -/
def Op.Allowed (s : DlistMem) (A : Heads) : Op → Prop
  | init h => s.live h = true ∧ (Free A h ∨ A h = some [])
  | add h n | addTail h n => (A h).isSome ∧ s.live n = true ∧ Free A n
  | remove n => ∃ h, Holds A h n
  | replace o n => (∃ h, Holds A h o) ∧ s.live n = true ∧ Free A n
  | move h n | moveTail h n => (A h).isSome ∧ ∃ g, Holds A g n
  | cut h e c => (A h).isSome ∧ (e = h ∨ Holds A h e) ∧ c ≠ h ∧ A c = some []
  | join a h | joinTail a h => a ≠ h ∧ (A a).isSome ∧ (A h).isSome

/-- What an operation does to the sequences. A list that has been joined into another one is no list
    until it is initialised again. -/
def Op.next (A : Heads) : Op → Heads
  | init h => Function.update A h (some [])
  | add h n => Function.update A h ((A h).map (n :: ·))
  | addTail h n => Function.update A h ((A h).map (· ++ [n]))
  | remove n => erase A n
  | replace o n => subst A o n
  | move h n => Function.update (erase A n) h ((erase A n h).map (n :: ·))
  | moveTail h n => Function.update (erase A n) h ((erase A n h).map (· ++ [n]))
  | cut h e c =>
      if e = h then A
      else Function.update
        (Function.update A h ((A h).map fun xs => (xs.dropWhile (· ≠ e)).tail))
        c ((A h).map fun xs => xs.takeWhile (· ≠ e) ++ [e])
  | join a h =>
      if A a = some [] then A
      else Function.update (Function.update A a none) h
        ((A a).bind fun xs => (A h).map fun ys => xs ++ ys)
  | joinTail a h =>
      if A a = some [] then A
      else Function.update (Function.update A a none) h
        ((A a).bind fun xs => (A h).map fun ys => ys ++ xs)

/-! ## Families in memory -/

section Lists

variable {s : DlistMem} {A B : Heads} {g h n x : Ptr} {xs ys S : List Ptr} {k : Links Ptr}
  {v : Option (List Ptr)}

theorem holds_cells : Holds (cells A) h x ↔ ∃ xs, A h = some xs ∧ x ∈ h :: xs := by
  simp [Holds, cells]

theorem holds_cells_of (hA : A h = some xs) : Holds (cells A) h x ↔ x ∈ h :: xs := by
  simp [holds_cells, hA]

theorem cells_update :
    cells (Function.update A h v) = Function.update (cells A) h (v.map (h :: ·)) := by
  funext g
  by_cases hgh : g = h
  · subst hgh
    simp [cells]
  · simp [cells, hgh]

theorem Lists.liveRing (hA : Lists s A) (hh : A h = some xs) : LiveRing s h xs :=
  ⟨hA.ring h xs hh, fun x hx => hA.live h x ((holds_cells_of hh).2 hx)⟩

theorem Lists.apart_entries (hA : Lists s A) : Apart A := by
  rintro x g h ⟨xs, hg, hx⟩ ⟨ys, hh, hy⟩
  exact hA.apart x g h ((holds_cells_of hg).2 (by simp [hx])) ((holds_cells_of hh).2 (by simp [hy]))

/-- A change of the links in `S` only: every list of `B` is either a new ring or one of the old
    lists and outside `S`. -/
theorem Lists.change (hA : Lists s A) (hsame : SameLinks s.link k S)
    (hring : ∀ g ys, B g = some ys → k.Ring g ys ∨ A g = some ys ∧ ∀ y ∈ g :: ys, y ∉ S)
    (hapart : Apart (cells B)) (hlive : ∀ g y, Holds (cells B) g y → s.live y = true) :
    Lists { s with link := k } B := by
  refine ⟨fun g ys hg => ?_, hapart, hlive⟩
  rcases hring g ys hg with hk | ⟨hAg, hS⟩
  · exact hk
  · exact (hA.ring g ys hAg).frame fun y hy => hsame y (hS y hy)

/-- A change of the list of `h`. -/
theorem Lists.update (hA : Lists s A) (hring : k.Ring h ys) (hsame : SameLinks s.link k S)
    (hys : ∀ y ∈ h :: ys, Holds (cells A) h y ∨ s.live y = true ∧ Free A y)
    (hS : ∀ y ∈ S, Holds (cells A) h y ∨ Free A y) :
    Lists { s with link := k } (Function.update A h (some ys)) := by
  refine hA.change hsame (fun g zs hg => ?_) ?_ fun g y hy => ?_
  · by_cases hgh : g = h
    · subst hgh
      rw [Function.update_self, Option.some.injEq] at hg
      exact .inl (hg ▸ hring)
    · rw [Function.update_of_ne hgh] at hg
      refine .inr ⟨hg, fun y hy hyS => ?_⟩
      have hgy : Holds (cells A) g y := (holds_cells_of hg).2 hy
      rcases hS y hyS with hhy | hfree
      · exact hgh (hA.apart y g h hgy hhy)
      · exact hfree g hgy
  · rw [cells_update]
    refine hA.apart.update fun zs hzs y hy g hgy => ?_
    rw [Option.map_some, Option.some.injEq] at hzs
    rcases hys y (hzs ▸ hy) with hhy | ⟨-, hfree⟩
    · exact hA.apart y g h hgy hhy
    · exact absurd hgy (hfree g)
  · rw [cells_update, holds_update] at hy
    by_cases hgh : g = h
    · rw [if_pos hgh] at hy
      obtain ⟨zs, hzs, hy⟩ := hy
      rw [Option.map_some, Option.some.injEq] at hzs
      rcases hys y (hzs ▸ hy) with hhy | ⟨hlive, -⟩
      · exact hA.live h y hhy
      · exact hlive
    · rw [if_neg hgh] at hy
      exact hA.live g y hy

/-! ## One operation -/

theorem Lists.init (hA : Lists s A) (hh : s.live h = true) (hfree : Free A h ∨ A h = some []) :
    ∃ k, (dlistInit h).run s = .ok ((), { s with link := k }) ∧
      Lists { s with link := k } (Function.update A h (some [])) := by
  obtain ⟨k, hrun, hring, hsame⟩ := run_dlistInit hh
  have hcell : Holds (cells A) h h ∨ s.live h = true ∧ Free A h := by
    rcases hfree with hfree | hh'
    · exact .inr ⟨hh, hfree⟩
    · exact .inl ((holds_cells_of hh').2 (by simp))
  refine ⟨k, hrun, hA.update hring hsame (fun y hy => ?_) fun y hy => ?_⟩
  · rw [List.mem_singleton.1 hy]
    exact hcell
  · rw [List.mem_singleton.1 hy]
    exact hcell.imp_right And.right

/-- What adding has in common: the cells of the list are those it had and the new entry. -/
theorem Lists.added (hA : Lists s A) (hh : A h = some xs) (hn : s.live n = true) (hfree : Free A n)
    (hring : k.Ring h ys) (hys : ∀ y ∈ ys, y = n ∨ y ∈ xs)
    (hsame : SameLinks s.link k (h :: n :: xs)) :
    Lists { s with link := k } (Function.update A h (some ys)) := by
  refine hA.update hring hsame (fun y hy => ?_) fun y hy => ?_
  · rcases List.mem_cons.1 hy with rfl | hy
    · exact .inl ((holds_cells_of hh).2 (by simp))
    · rcases hys y hy with rfl | hy
      · exact .inr ⟨hn, hfree⟩
      · exact .inl ((holds_cells_of hh).2 (by simp [hy]))
  · simp only [List.mem_cons] at hy
    rcases hy with rfl | rfl | hy
    · exact .inl ((holds_cells_of hh).2 (by simp))
    · exact .inr hfree
    · exact .inl ((holds_cells_of hh).2 (by simp [hy]))

theorem Free.not_mem (hfree : Free A n) (hh : A h = some xs) : n ∉ h :: xs :=
  fun hmem => hfree h ((holds_cells_of hh).2 hmem)

theorem Lists.add (hA : Lists s A) (hh : A h = some xs) (hn : s.live n = true) (hfree : Free A n) :
    ∃ k, (dlistAdd h n).run s = .ok ((), { s with link := k }) ∧
      Lists { s with link := k } (Function.update A h (some (n :: xs))) := by
  obtain ⟨k, hrun, hring, hsame⟩ := run_dlistAdd (hA.liveRing hh) hn (hfree.not_mem hh)
  exact ⟨k, hrun, hA.added hh hn hfree hring (by simp) hsame⟩

theorem Lists.addTail (hA : Lists s A) (hh : A h = some xs) (hn : s.live n = true)
    (hfree : Free A n) :
    ∃ k, (dlistAddTail h n).run s = .ok ((), { s with link := k }) ∧
      Lists { s with link := k } (Function.update A h (some (xs ++ [n]))) := by
  obtain ⟨k, hrun, hring, hsame⟩ := run_dlistAddTail (hA.liveRing hh) hn (hfree.not_mem hh)
  refine ⟨k, hrun, hA.added hh hn hfree hring (fun y hy => ?_) hsame⟩
  simpa [or_comm] using hy

/-- A change that leaves a list without the entry `n`. -/
theorem Lists.without {p q : List Ptr} (hA : Lists s A) (hh : A h = some (p ++ n :: q))
    (hring : k.Ring h (p ++ q)) (hsame : SameLinks s.link k (h :: (p ++ n :: q))) :
    Lists { s with link := k } (erase A n) ∧ Free (erase A n) n := by
  have hnd := (hA.ring h _ hh).nodup
  have hnp : n ∉ p := fun hp => by
    simp only [List.nodup_cons, List.nodup_append] at hnd
    exact hnd.2.2.2 n hp n (by simp) rfl
  rw [hA.apart_entries.erase_eq hh (by simp), erase_split hnp]
  refine ⟨hA.update hring hsame (fun y hy => .inl ((holds_cells_of hh).2 ?_)) fun y hy =>
    .inl ((holds_cells_of hh).2 hy), fun g hg => ?_⟩
  · simp only [List.mem_cons, List.mem_append] at hy ⊢
    tauto
  · rw [cells_update, holds_update] at hg
    by_cases hgh : g = h
    · rw [if_pos hgh] at hg
      obtain ⟨zs, hzs, hmem⟩ := hg
      rw [Option.map_some, Option.some.injEq] at hzs
      have hnd' : (n :: ((h :: p) ++ q)).Nodup :=
        List.nodup_middle.1 (show ((h :: p) ++ n :: q).Nodup from hnd)
      exact (List.nodup_cons.1 hnd').1 (by rw [← hzs] at hmem; exact hmem)
    · rw [if_neg hgh] at hg
      exact hgh (hA.apart n g h hg ((holds_cells_of hh).2 (by simp)))

theorem Lists.remove (hA : Lists s A) (hn : ∃ h, Holds A h n) :
    ∃ k, (dlistRemove n).run s = .ok ((), { s with link := k }) ∧
      Lists { s with link := k } (erase A n) := by
  obtain ⟨h, xs, hh, hmem⟩ := hn
  obtain ⟨p, q, rfl⟩ := List.append_of_mem hmem
  obtain ⟨k, hrun, hring, -, hsame⟩ := run_dlistRemove (hA.liveRing hh)
  exact ⟨k, hrun, (hA.without hh hring hsame).1⟩

theorem Lists.unlink (hA : Lists s A) (hn : ∃ h, Holds A h n) :
    ∃ k, (listRemoveEntry n).run s = .ok ((), { s with link := k }) ∧
      Lists { s with link := k } (erase A n) ∧ Free (erase A n) n := by
  obtain ⟨h, xs, hh, hmem⟩ := hn
  obtain ⟨p, q, rfl⟩ := List.append_of_mem hmem
  obtain ⟨k, hrun, hring, hsame⟩ := run_listRemoveEntry (hA.liveRing hh)
  exact ⟨k, hrun, hA.without hh hring hsame⟩

theorem Lists.replace {o : Ptr} (hA : Lists s A) (ho : ∃ h, Holds A h o) (hn : s.live n = true)
    (hfree : Free A n) :
    ∃ k, (dlistReplace o n).run s = .ok ((), { s with link := k }) ∧
      Lists { s with link := k } (subst A o n) := by
  obtain ⟨h, xs, hh, hmem⟩ := ho
  obtain ⟨p, q, rfl⟩ := List.append_of_mem hmem
  obtain ⟨k, hrun, hring, -, hsame⟩ := run_dlistReplace (hA.liveRing hh) hn (hfree.not_mem hh)
  have hnd := (List.nodup_cons.1 (hA.ring h _ hh).nodup).2
  obtain ⟨hop, hoq⟩ : o ∉ p ∧ o ∉ q := by
    have hnd' := List.nodup_cons.1 (List.nodup_middle.1 hnd)
    simpa using hnd'.1
  rw [hA.apart_entries.subst_eq hh (by simp), subst_split hop hoq]
  refine ⟨k, hrun, hA.update hring hsame (fun y hy => ?_) fun y hy => ?_⟩
  · by_cases hyn : y = n
    · exact .inr (hyn ▸ ⟨hn, hfree⟩)
    · refine .inl ((holds_cells_of hh).2 ?_)
      simp only [List.mem_cons, List.mem_append] at hy ⊢
      tauto
  · rcases List.mem_cons.1 hy with rfl | hy
    · exact .inr hfree
    · exact .inl ((holds_cells_of hh).2 hy)

/-- An entry on a list is live. -/
theorem Lists.live_of_holds (hA : Lists s A) (hn : ∃ h, Holds A h n) : s.live n = true := by
  obtain ⟨h, xs, hh, hmem⟩ := hn
  exact hA.live h n ((holds_cells_of hh).2 (by simp [hmem]))

/-- Moving is taking out and adding, the entry's own links being overwritten in any case. -/
theorem Lists.move (hA : Lists s A) (hh : A h = some xs) (hn : ∃ g, Holds A g n) :
    (∃ k, (dlistMove h n).run s = .ok ((), { s with link := k }) ∧ Lists { s with link := k }
      (Function.update (erase A n) h (some (n :: xs.erase n)))) ∧
    ∃ k, (dlistMoveTail h n).run s = .ok ((), { s with link := k }) ∧ Lists { s with link := k }
      (Function.update (erase A n) h (some (xs.erase n ++ [n]))) := by
  obtain ⟨k₁, hrun₁, hA₁, hfree⟩ := hA.unlink hn
  have hlive : ({ s with link := k₁ } : DlistMem).live n = true := hA.live_of_holds hn
  have hh₁ : erase A n h = some (xs.erase n) := by rw [erase, hh, Option.map_some]
  obtain ⟨k, hrun, hk⟩ := hA₁.add hh₁ hlive hfree
  obtain ⟨k', hrun', hk'⟩ := hA₁.addTail hh₁ hlive hfree
  exact ⟨⟨k, (Exec.run_bind_of_ok hrun₁ _).trans hrun, hk⟩,
    k', (Exec.run_bind_of_ok hrun₁ _).trans hrun', hk'⟩

/-- A change of two lists, which share out the cells they had. -/
theorem Lists.update₂ {c : Ptr} {u v : Option (List Ptr)} {zs : List Ptr} (hA : Lists s A)
    (hc : A c = some zs) (hh : A h = some xs)
    (hringc : ∀ ys, u = some ys → k.Ring c ys) (hringh : ∀ ys, v = some ys → k.Ring h ys)
    (hsame : SameLinks s.link k (c :: zs ++ h :: xs))
    (hcells : ∀ y, (∃ ys, u = some ys ∧ y ∈ c :: ys) ∨ (∃ ys, v = some ys ∧ y ∈ h :: ys) →
      y ∈ c :: zs ++ h :: xs)
    (hdis : ∀ ys ws, u = some ys → v = some ws → (c :: ys).Disjoint (h :: ws)) :
    Lists { s with link := k } (Function.update (Function.update A h v) c u) := by
  have hold : ∀ y ∈ c :: zs ++ h :: xs, Holds (cells A) c y ∨ Holds (cells A) h y := by
    intro y hy
    rcases List.mem_append.1 hy with hy | hy
    · exact .inl ((holds_cells_of hc).2 hy)
    · exact .inr ((holds_cells_of hh).2 hy)
  have hother : ∀ y ∈ c :: zs ++ h :: xs, ∀ g, Holds (cells A) g y → g = c ∨ g = h := by
    intro y hy g hgy
    rcases hold y hy with hcy | hhy
    · exact .inl (hA.apart y g c hgy hcy)
    · exact .inr (hA.apart y g h hgy hhy)
  have hu : ∀ y, (∃ ws, u.map (c :: ·) = some ws ∧ y ∈ ws) → ∃ ys, u = some ys ∧ y ∈ c :: ys := by
    rintro y ⟨ws, hws, hy⟩
    obtain ⟨ys, hys, rfl⟩ := Option.map_eq_some_iff.1 hws
    exact ⟨ys, hys, hy⟩
  have hv : ∀ y, (∃ ws, v.map (h :: ·) = some ws ∧ y ∈ ws) → ∃ ys, v = some ys ∧ y ∈ h :: ys := by
    rintro y ⟨ws, hws, hy⟩
    obtain ⟨ys, hys, rfl⟩ := Option.map_eq_some_iff.1 hws
    exact ⟨ys, hys, hy⟩
  -- a cell of the new family is in a changed list or where it was
  have hnew : ∀ g y, Holds (cells (Function.update (Function.update A h v) c u)) g y →
      (g = c ∧ ∃ ys, u = some ys ∧ y ∈ c :: ys) ∨ (g ≠ c ∧ g = h ∧ ∃ ys, v = some ys ∧ y ∈ h :: ys) ∨
        (g ≠ c ∧ g ≠ h ∧ Holds (cells A) g y) := by
    intro g y hgy
    rw [cells_update, cells_update, holds_update, holds_update] at hgy
    by_cases hgc : g = c
    · rw [if_pos hgc] at hgy
      exact .inl ⟨hgc, hu y hgy⟩
    · rw [if_neg hgc] at hgy
      by_cases hgh : g = h
      · rw [if_pos hgh] at hgy
        exact .inr (.inl ⟨hgc, hgh, hv y hgy⟩)
      · rw [if_neg hgh] at hgy
        exact .inr (.inr ⟨hgc, hgh, hgy⟩)
  refine hA.change hsame (fun g ys hg => ?_) ?_ fun g y hy => ?_
  · by_cases hgc : g = c
    · rw [hgc, Function.update_self] at hg
      exact .inl (hgc ▸ hringc ys hg)
    · rw [Function.update_of_ne hgc] at hg
      by_cases hgh : g = h
      · rw [hgh, Function.update_self] at hg
        exact .inl (hgh ▸ hringh ys hg)
      · rw [Function.update_of_ne hgh] at hg
        refine .inr ⟨hg, fun y hy hyS => ?_⟩
        rcases hother y hyS g ((holds_cells_of hg).2 hy) with hgc' | hgh'
        · exact hgc hgc'
        · exact hgh hgh'
  · intro y g₁ g₂ h₁ h₂
    rcases hnew g₁ y h₁ with ⟨rfl, ys, hys, hy₁⟩ | ⟨hc₁, rfl, ys, hys, hy₁⟩ | ⟨hc₁, hh₁, hy₁⟩ <;>
      rcases hnew g₂ y h₂ with ⟨hc₂, ws, hws, hy₂⟩ | ⟨hc₂, hh₂, ws, hws, hy₂⟩ | ⟨hc₂, hh₂, hy₂⟩
    · exact hc₂.symm
    · exact absurd hy₂ (hdis ys ws hys hws hy₁)
    · rcases hother y (hcells y (.inl ⟨ys, hys, hy₁⟩)) g₂ hy₂ with h' | h'
      · exact h'.symm
      · exact absurd h' hh₂
    · exact absurd hy₁ (hdis ws ys hws hys hy₂)
    · exact hh₂.symm
    · rcases hother y (hcells y (.inr ⟨ys, hys, hy₁⟩)) g₂ hy₂ with h' | h'
      · exact absurd h' hc₂
      · exact absurd h' hh₂
    · rcases hother y (hcells y (.inl ⟨ws, hws, hy₂⟩)) g₁ hy₁ with h' | h'
      · exact absurd h' hc₁
      · exact absurd h' hh₁
    · rcases hother y (hcells y (.inr ⟨ws, hws, hy₂⟩)) g₁ hy₁ with h' | h'
      · exact absurd h' hc₁
      · exact absurd h' hh₁
    · exact hA.apart y g₁ g₂ hy₁ hy₂
  · rcases hnew g y hy with ⟨-, hy'⟩ | ⟨-, -, hy'⟩ | ⟨-, -, hy'⟩
    · exact (hold y (hcells y (.inl hy'))).elim (hA.live c y) (hA.live h y)
    · exact (hold y (hcells y (.inr hy'))).elim (hA.live c y) (hA.live h y)
    · exact hA.live g y hy'

/-- The cells of two lists are apart. -/
theorem Lists.disjoint {c : Ptr} {zs : List Ptr} (hA : Lists s A) (hch : c ≠ h) (hc : A c = some zs)
    (hh : A h = some xs) : (c :: zs).Disjoint (h :: xs) :=
  fun y hyc hyh => hch (hA.apart y c h ((holds_cells_of hc).2 hyc) ((holds_cells_of hh).2 hyh))

/-- Two heads change: `h` keeps some of its cells and `c`, whose list was empty, gets others. -/
theorem Lists.cut {c e : Ptr} {p q : List Ptr} (hA : Lists s A) (hh : A h = some (p ++ e :: q))
    (hch : c ≠ h) (hc : A c = some []) :
    ∃ k, (dlistCutPosition h e c).run s = .ok ((), { s with link := k }) ∧
      Lists { s with link := k }
      (Function.update (Function.update A h (some q)) c (some (p ++ [e]))) := by
  have hcnew : c ∉ h :: (p ++ e :: q) := hA.disjoint hch hc hh (by simp)
  obtain ⟨k, hrun, hringc, hringh, hsame⟩ :=
    run_dlistCutPosition (hA.liveRing hh) (hA.liveRing hc).head hcnew
  have hnd : ((p ++ [e]) ++ h :: q).Nodup := by
    rw [List.nodup_middle, List.append_assoc]
    exact (hA.ring h _ hh).nodup
  refine ⟨k, hrun, hA.update₂ hc hh (by simpa using hringc) (by simpa using hringh) hsame ?_ ?_⟩
  · simp only [Option.some.injEq, exists_eq_left', List.mem_cons, List.mem_append]
    tauto
  · intro ys ws hys hws y hyc hyh
    rw [Option.some.injEq] at hys hws
    rw [← hys] at hyc
    rw [← hws] at hyh
    rcases List.mem_cons.1 hyc with rfl | hyc
    · refine hcnew ?_
      simp only [List.mem_cons, List.mem_append] at hyh ⊢
      tauto
    · exact (List.nodup_append'.1 hnd).2.2 hyc hyh

/-- Cutting at the head leaves both lists as they are. -/
theorem Lists.cut_head {c : Ptr} (hA : Lists s A) (hh : A h = some xs) (hc : A c = some []) :
    ∃ k, (dlistCutPosition h h c).run s = .ok ((), { s with link := k }) ∧
      Lists { s with link := k } A := by
  obtain ⟨k, hrun, hring, hsame⟩ := run_dlistCutPosition_head (hA.liveRing hh) (hA.liveRing hc)
  have hcc : Holds (cells A) c c := (holds_cells_of hc).2 (by simp)
  have hlists : Lists { s with link := k } (Function.update A c (some [])) :=
    hA.update hring hsame (by simp [hcc]) (by simp [hcc])
  rw [← hc, Function.update_eq_self] at hlists
  exact ⟨k, hrun, hlists⟩

/-- What joining has in common: the cells of `a` but for the head itself go to `h`. -/
theorem Lists.joined {a : Ptr} {zs : List Ptr} (hA : Lists s A) (hah : a ≠ h) (ha : A a = some zs)
    (hh : A h = some xs) (hring : k.Ring h ys) (hys : ∀ y ∈ ys, y ∈ zs ∨ y ∈ xs)
    (hsame : SameLinks s.link k (a :: zs ++ h :: xs)) :
    Lists { s with link := k } (Function.update (Function.update A a none) h (some ys)) := by
  rw [Function.update_comm hah]
  refine hA.update₂ ha hh (by simp) (by simpa using hring) hsame (fun y hy => ?_) (by simp)
  simp only [Option.some.injEq, exists_eq_left', reduceCtorEq, false_and, exists_const, false_or,
    List.mem_cons] at hy
  simp only [List.mem_append, List.mem_cons]
  rcases hy with rfl | hy
  · exact .inr (.inl rfl)
  · exact (hys y hy).elim (fun hz => .inl (.inr hz)) fun hx => .inr (.inr hx)

theorem Lists.join {a : Ptr} {zs : List Ptr} (hA : Lists s A) (hah : a ≠ h) (ha : A a = some zs)
    (hh : A h = some xs) (hzs : zs ≠ []) :
    (∃ k, (dlistJoin a h).run s = .ok ((), { s with link := k }) ∧ Lists { s with link := k }
      (Function.update (Function.update A a none) h (some (zs ++ xs)))) ∧
    ∃ k, (dlistJoinTail a h).run s = .ok ((), { s with link := k }) ∧ Lists { s with link := k }
      (Function.update (Function.update A a none) h (some (xs ++ zs))) := by
  have hdis := hA.disjoint hah ha hh
  obtain ⟨k, hrun, hring, hsame⟩ := run_dlistJoin (hA.liveRing ha) (hA.liveRing hh) hzs hdis
  obtain ⟨k', hrun', hring', hsame'⟩ :=
    run_dlistJoinTail (hA.liveRing ha) (hA.liveRing hh) hzs hdis
  refine ⟨⟨k, hrun, hA.joined hah ha hh hring (fun y hy => List.mem_append.1 hy) hsame⟩,
    k', hrun', hA.joined hah ha hh hring' (fun y hy => ?_) hsame'⟩
  exact (List.mem_append.1 hy).symm

/-! ## All operations -/

theorem split_at {e : Ptr} {p q : List Ptr} (hp : e ∉ p) :
    (p ++ e :: q).takeWhile (· ≠ e) = p ∧ (p ++ e :: q).dropWhile (· ≠ e) = e :: q := by
  have hall : ∀ y ∈ p, decide (y ≠ e) = true := by
    intro y hy
    simp only [ne_eq, decide_not, Bool.not_eq_eq_eq_not, Bool.not_true, decide_eq_false_iff_not]
    rintro rfl
    exact hp hy
  constructor
  · rw [List.takeWhile_append_of_pos hall, List.takeWhile_cons_of_neg (by simp), List.append_nil]
  · rw [List.dropWhile_append_of_pos hall, List.dropWhile_cons_of_neg (by simp)]

/-- One allowed operation returns and does what `Op.next` says. -/
theorem Lists.step (hA : Lists s A) (op : Op) (hop : op.Allowed s A) :
    ∃ s', op.exec.run s = .ok ((), s') ∧ Lists s' (op.next A) := by
  cases op with
  | init h =>
      obtain ⟨k, hrun, hk⟩ := hA.init hop.1 hop.2
      exact ⟨_, hrun, hk⟩
  | add h n =>
      obtain ⟨xs, hh⟩ := Option.isSome_iff_exists.1 hop.1
      obtain ⟨k, hrun, hk⟩ := hA.add hh hop.2.1 hop.2.2
      refine ⟨_, hrun, ?_⟩
      rw [Op.next, hh]
      exact hk
  | addTail h n =>
      obtain ⟨xs, hh⟩ := Option.isSome_iff_exists.1 hop.1
      obtain ⟨k, hrun, hk⟩ := hA.addTail hh hop.2.1 hop.2.2
      refine ⟨_, hrun, ?_⟩
      rw [Op.next, hh]
      exact hk
  | remove n =>
      obtain ⟨k, hrun, hk⟩ := hA.remove hop
      exact ⟨_, hrun, hk⟩
  | replace o n =>
      obtain ⟨k, hrun, hk⟩ := hA.replace hop.1 hop.2.1 hop.2.2
      exact ⟨_, hrun, hk⟩
  | move h n =>
      obtain ⟨xs, hh⟩ := Option.isSome_iff_exists.1 hop.1
      obtain ⟨⟨k, hrun, hk⟩, -⟩ := hA.move hh hop.2
      refine ⟨_, hrun, ?_⟩
      rw [Op.next, erase, hh]
      exact hk
  | moveTail h n =>
      obtain ⟨xs, hh⟩ := Option.isSome_iff_exists.1 hop.1
      obtain ⟨-, k, hrun, hk⟩ := hA.move hh hop.2
      refine ⟨_, hrun, ?_⟩
      rw [Op.next, erase, hh]
      exact hk
  | cut h e c =>
      obtain ⟨hsome, he, hch, hc⟩ := hop
      obtain ⟨xs, hh⟩ := Option.isSome_iff_exists.1 hsome
      by_cases heh : e = h
      · subst heh
        obtain ⟨k, hrun, hk⟩ := hA.cut_head hh hc
        refine ⟨_, hrun, ?_⟩
        rw [Op.next, if_pos rfl]
        exact hk
      · have hmem : e ∈ xs := (holds_iff hh).1 (he.resolve_left heh)
        obtain ⟨p, q, rfl, hp⟩ := List.eq_append_cons_of_mem hmem
        obtain ⟨k, hrun, hk⟩ := hA.cut hh hch hc
        obtain ⟨htake, hdrop⟩ := split_at (q := q) hp
        refine ⟨_, hrun, ?_⟩
        rw [Op.next, if_neg heh, hh, Option.map_some, Option.map_some, htake, hdrop]
        exact hk
  | join a h =>
      obtain ⟨hah, ha, hh⟩ := hop
      obtain ⟨zs, ha⟩ := Option.isSome_iff_exists.1 ha
      obtain ⟨xs, hh⟩ := Option.isSome_iff_exists.1 hh
      rw [Op.next]
      by_cases hzs : zs = []
      · subst hzs
        rw [if_pos ha]
        exact ⟨_, (run_dlistJoin_nil (hA.liveRing ha)).1, hA⟩
      · obtain ⟨⟨k, hrun, hk⟩, -⟩ := hA.join hah ha hh hzs
        refine ⟨_, hrun, ?_⟩
        rw [ha, if_neg (by simpa using hzs), hh]
        exact hk
  | joinTail a h =>
      obtain ⟨hah, ha, hh⟩ := hop
      obtain ⟨zs, ha⟩ := Option.isSome_iff_exists.1 ha
      obtain ⟨xs, hh⟩ := Option.isSome_iff_exists.1 hh
      rw [Op.next]
      by_cases hzs : zs = []
      · subst hzs
        rw [if_pos ha]
        exact ⟨_, (run_dlistJoin_nil (hA.liveRing ha)).2, hA⟩
      · obtain ⟨-, k, hrun, hk⟩ := hA.join hah ha hh hzs
        refine ⟨_, hrun, ?_⟩
        rw [ha, if_neg (by simpa using hzs), hh]
        exact hk

end Lists

/-! ## Runs -/

/-- What the operations do to a family of sequences. -/
def dlistSpec : Spec Heads Op Unit where
  result _ _ := ()
  next A op := op.next A

/-- The list operations, each called as its user promises with respect to the family of sequences
    that the calls so far have led to, at first no list at all. -/
def dlistMachine : Machine DlistMem Op Unit where
  enabled tr s op := op.Allowed s (dlistSpec.after (fun _ => none) tr)
  exec op := fun _ => op.exec

/-- **Doubly linked lists are sequences.** -/
theorem lists_are_sequences (s : DlistMem) :
    dlistMachine.Refines s dlistSpec (fun _ => none) Lists := by
  refine Machine.refines_of_step ⟨?_, ?_, ?_⟩ fun tr s op hA hop => ?_
  · intro h xs hh
    cases hh
  · rintro x g h ⟨xs, hg, -⟩
    cases hg
  · rintro h x ⟨xs, hh, -⟩
    cases hh
  · obtain ⟨s', hrun, hA'⟩ := hA.step op hop
    exact ⟨s', .of_run hrun, hA'⟩

end StructLib.Dlist
