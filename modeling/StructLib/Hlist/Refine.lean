import StructLib.Hlist.Ops
import StructLib.Lib.Family

set_option autoImplicit false

/-! # Lists with a single pointer head are sequences

`Lists` says that memory holds a family of sequences: every list is a NULL-terminated chain, and the
`pprev` of every node is the place that points to it. Every operation keeps this and does to the
sequences what `Op.next` says (`hlists_are_sequences`). -/

namespace StructLib.Hlist

open Family

/-- The list heads, each with the nodes on its list. -/
abbrev Heads := Ptr → Option (List Ptr)

/-- The head `h` and the nodes `xs` are linked up. -/
structure OnList (s : HlistMem) (h : Ptr) (xs : List Ptr) : Prop where
  chain : Chain .next s.link (.first h) xs
  backed : Backed .next s.pprev (.first h) xs

/-- Memory holds the lists `A`. -/
structure Lists (s : HlistMem) (A : Heads) : Prop where
  onList : ∀ h xs, A h = some xs → OnList s h xs
  apart : Apart A
  head : ∀ h xs, A h = some xs → s.isHead h = true
  node : ∀ h x, Holds A h x → s.isNode x = true

/-! ## The operations -/

inductive Op where
  | initHead (h : Ptr)
  | addHead (n h : Ptr)
  | addBefore (n x : Ptr)
  | addAfter (x n : Ptr)
  | del (n : Ptr)
  | delInit (n : Ptr)
  | moveList (o h : Ptr)

def Op.exec : Op → Exec HlistMem Unit
  | initHead h => initHlistHead h
  | addHead n h => hlistAddHead n h
  | addBefore n x => hlistAddBefore n x
  | addAfter x n => hlistAddAfter x n
  | del n => hlistDel n
  | delInit n => hlistDelInit n
  | moveList o h => hlistMoveList o h

/-- What a user promises: nodes that are added are on no list, nodes that are deleted or referred to
    are on one, heads are initialised, and a list is moved to another head that has none. -/
def Op.Allowed (s : HlistMem) (A : Heads) : Op → Prop
  | initHead h => s.isHead h = true
  | addHead n h => (A h).isSome ∧ s.isNode n = true ∧ ∀ g, ¬ Holds A g n
  | addBefore n x | addAfter x n => (∃ h, Holds A h x) ∧ s.isNode n = true ∧ ∀ g, ¬ Holds A g n
  | del n | delInit n => ∃ h, Holds A h n
  | moveList o h => o ≠ h ∧ (A o).isSome ∧ A h = some []

/-- What an operation does to the sequences. -/
def Op.next (A : Heads) : Op → Heads
  | initHead h => Function.update A h (some [])
  | addHead n h => Function.update A h ((A h).map (n :: ·))
  | addBefore n x => insertBefore A x n
  | addAfter x n => insertAfter A x n
  | del n | delInit n => erase A n
  | moveList o h => Function.update (Function.update A h (A o)) o (some [])

/-! ## What one operation writes -/

section OneList

variable {s s' : HlistMem} {g h n o x y : Ptr} {xs p q : List Ptr} {v : Option Ptr}
  {u : Option Place}

/-- `s'` is `s` but for the heads `H` and the nodes `S`. -/
structure SameOutside (s s' : HlistMem) (H S : List Ptr) : Prop where
  isHead : s'.isHead = s.isHead
  isNode : s'.isNode = s.isNode
  first : ∀ g, g ∉ H → s'.link (.first g) = s.link (.first g)
  node : ∀ y, y ∉ S → s'.link (.next y) = s.link (.next y) ∧ s'.pprev y = s.pprev y

theorem OnList.frame {H S : List Ptr} (ho : OnList s h xs) (hs : SameOutside s s' H S)
    (hh : h ∉ H) (hxs : ∀ y ∈ xs, y ∉ S) : OnList s' h xs := by
  refine ⟨ho.chain.relink (hs.first h hh) fun y hy => (hs.node y (hxs y hy)).1,
    ho.backed.frame fun y hy => (hs.node y (hxs y hy)).2⟩

theorem lastPlace_ne_first (hgh : g ≠ h) : lastPlace Place.next (.first h) p ≠ .first g := by
  intro heq
  have hmem : .first g ∈ places Place.next (.first h) p := heq ▸ lastPlace_mem
  simp [places, hgh] at hmem

theorem lastPlace_ne_next (hy : y ∉ p) : lastPlace Place.next (.first h) p ≠ .next y := by
  intro heq
  have hmem : .next y ∈ places Place.next (.first h) p := heq ▸ lastPlace_mem
  simp [places, hy] at hmem

theorem next_notMem (hn : n ∉ xs) : Place.next n ∉ places Place.next (.first h) xs := by
  simpa [places] using hn

/-- The node that a place of a chain holds is in the chain. -/
theorem OnList.link_mem (ho : OnList s h (p ++ q))
    (hy : s.link (lastPlace .next (.first h) p) = some y) : y ∈ q := by
  cases q with
  | nil =>
      have hnone : s.link (lastPlace .next (.first h) p) = none := ho.chain.drop
      rw [hnone] at hy
      cases hy
  | cons z q =>
      rw [ho.chain.link_last.1, Option.some.injEq] at hy
      simp [hy]

theorem OnList.insertAt (ho : OnList s h (p ++ q)) (hn : n ∉ p ++ q) :
    OnList (s.insertAt (lastPlace .next (.first h) p) n) h (p ++ n :: q) ∧
      SameOutside s (s.insertAt (lastPlace .next (.first h) p) n) [h] (n :: (p ++ q)) := by
  refine ⟨⟨ho.chain.insertAt (next_notMem hn), ho.backed.insertAt ho.chain hn⟩, rfl, rfl,
    fun g hg => ?_, fun y hy => ?_⟩
  · have hgh : g ≠ h := by simpa using hg
    simp [HlistMem.insertAt, StructLib.insertAt, (lastPlace_ne_first hgh).symm]
  · simp only [List.mem_cons, List.mem_append, not_or] at hy
    have hlink : s.link (lastPlace .next (.first h) p) ≠ some y := fun heq =>
      hy.2.2 (ho.link_mem heq)
    simp [HlistMem.insertAt, StructLib.insertAt, (lastPlace_ne_next hy.2.1).symm, hy.1,
      setBack_of_ne hlink]

theorem OnList.unlinkAt (ho : OnList s h (p ++ n :: q)) :
    OnList (s.unlinkAt (lastPlace .next (.first h) p) n v u) h (p ++ q) ∧
      SameOutside s (s.unlinkAt (lastPlace .next (.first h) p) n v u) [h] (p ++ n :: q) := by
  have hn : n ∉ p ++ q := (List.nodup_cons.1 (List.nodup_middle.1 ho.chain.nodup)).1
  have hlast : lastPlace Place.next (.first h) (p ++ [n]) = .next n := lastPlace_append
  refine ⟨⟨?_, ?_⟩, rfl, rfl, fun g hg => ?_, fun y hy => ?_⟩
  · refine ho.chain.unlinkAt.frame fun m hm => ?_
    have hmn : m ≠ .next n := by
      rintro rfl
      exact next_notMem hn hm
    simp [HlistMem.unlinkAt, hmn]
  · refine (ho.backed.unlinkAt ho.chain).frame fun y hy => ?_
    have hyn : y ≠ n := by
      rintro rfl
      exact hn hy
    simp [HlistMem.unlinkAt, hyn]
  · have hgh : g ≠ h := by simpa using hg
    simp [HlistMem.unlinkAt, StructLib.unlinkAt, (lastPlace_ne_first hgh).symm]
  · simp only [List.mem_cons, List.mem_append, not_or] at hy
    have ho' : OnList s h ((p ++ [n]) ++ q) := by simpa using ho
    have hlink : s.link (.next n) ≠ some y := fun heq => hy.2.2 (ho'.link_mem (hlast ▸ heq))
    simp [HlistMem.unlinkAt, StructLib.unlinkAt, (lastPlace_ne_next hy.1).symm, hy.2.1,
      setBack_of_ne hlink]

theorem OnList.moveList (ho : OnList s o xs) (hoh : o ≠ h) :
    OnList (s.moveList o h) h xs ∧ OnList (s.moveList o h) o [] ∧
      SameOutside s (s.moveList o h) [o, h] xs := by
  refine ⟨⟨?_, ho.backed.relink ho.chain ho.chain.nodup⟩, ⟨?_, trivial⟩, rfl, rfl, fun g hg => ?_,
    fun y hy => ?_⟩
  · refine ho.chain.relink ?_ fun y _ => ?_
    · simp [HlistMem.moveList, hoh.symm]
    · simp [HlistMem.moveList]
  · simp [chain_nil, HlistMem.moveList]
  · simp only [List.mem_cons, List.not_mem_nil, or_false, not_or] at hg
    simp [HlistMem.moveList, hg]
  · have hlink : s.link (.first o) ≠ some y := fun heq =>
      hy (OnList.link_mem (p := []) ho heq)
    simp [HlistMem.moveList, setBack_of_ne hlink]

end OneList

/-! ## Families in memory -/

section Lists

variable {s s' : HlistMem} {A B : Heads} {g h n o x y : Ptr} {xs ys p q H S : List Ptr}

/-- A change at the heads `H` and the nodes `S`: every list of `B` is either a new one or an old one
    that has none of them. -/
theorem Lists.change (hA : Lists s A) (hsame : SameOutside s s' H S)
    (hB : ∀ g ys, B g = some ys → OnList s' g ys ∧ s.isHead g = true ∨
      A g = some ys ∧ g ∉ H ∧ ∀ y ∈ ys, y ∉ S)
    (hapart : Apart B) (hnode : ∀ g y, Holds B g y → s.isNode y = true) : Lists s' B := by
  refine ⟨fun g ys hg => ?_, hapart, fun g ys hg => ?_, fun g y hy => ?_⟩
  · rcases hB g ys hg with ⟨ho, -⟩ | ⟨hAg, hgH, hyS⟩
    · exact ho
    · exact (hA.onList g ys hAg).frame hsame hgH hyS
  · rw [hsame.isHead]
    rcases hB g ys hg with ⟨-, hhead⟩ | ⟨hAg, -⟩
    · exact hhead
    · exact hA.head g ys hAg
  · rw [hsame.isNode]
    exact hnode g y hy

/-- A change of the list of `h`. -/
theorem Lists.update (hA : Lists s A) (hh : s.isHead h = true) (ho : OnList s' h ys)
    (hsame : SameOutside s s' [h] S)
    (hys : ∀ y ∈ ys, Holds A h y ∨ s.isNode y = true ∧ ∀ g, ¬ Holds A g y)
    (hS : ∀ y ∈ S, Holds A h y ∨ ∀ g, ¬ Holds A g y) :
    Lists s' (Function.update A h (some ys)) := by
  refine hA.change hsame (fun g zs hg => ?_) ?_ fun g y hy => ?_
  · by_cases hgh : g = h
    · rw [hgh, Function.update_self, Option.some.injEq] at hg
      exact .inl ⟨by rw [hgh, ← hg]; exact ho, hgh ▸ hh⟩
    · rw [Function.update_of_ne hgh] at hg
      refine .inr ⟨hg, by simpa using hgh, fun y hy hyS => ?_⟩
      have hgy : Holds A g y := (holds_iff hg).2 hy
      rcases hS y hyS with hhy | hfree
      · exact hgh (hA.apart y g h hgy hhy)
      · exact hfree g hgy
  · refine hA.apart.update fun zs hzs y hy g hgy => ?_
    rw [Option.some.injEq] at hzs
    rcases hys y (hzs ▸ hy) with hhy | ⟨-, hfree⟩
    · exact hA.apart y g h hgy hhy
    · exact absurd hgy (hfree g)
  · rw [holds_update] at hy
    by_cases hgh : g = h
    · rw [if_pos hgh] at hy
      obtain ⟨zs, hzs, hy⟩ := hy
      rw [Option.some.injEq] at hzs
      rcases hys y (hzs ▸ hy) with hhy | ⟨hnode, -⟩
      · exact hA.node h y hhy
      · exact hnode
    · rw [if_neg hgh] at hy
      exact hA.node g y hy

/-- A place of a list is live. -/
theorem Lists.live_place (hA : Lists s A) (hh : A h = some (p ++ q)) :
    s.live (lastPlace .next (.first h) p) = true := by
  have hmem : lastPlace Place.next (.first h) p ∈ places Place.next (.first h) p := lastPlace_mem
  rcases List.mem_cons.1 hmem with heq | hmem
  · rw [heq]
    exact hA.head h _ hh
  · obtain ⟨y, hy, heq⟩ := List.mem_map.1 hmem
    rw [← heq]
    exact hA.node h y ((holds_iff hh).2 (by simp [hy]))

/-- What a place of a list holds is a node of the list. -/
theorem Lists.link_node (hA : Lists s A) (hh : A h = some (p ++ q))
    (hy : s.link (lastPlace .next (.first h) p) = some y) : s.isNode y = true ∧ y ∈ q := by
  have hmem := (hA.onList h _ hh).link_mem hy
  exact ⟨hA.node h y ((holds_iff hh).2 (by simp [hmem])), hmem⟩

theorem Lists.next_node (hA : Lists s A) (hh : A h = some (p ++ n :: q)) (y : Ptr)
    (hy : s.link (.next n) = some y) : s.isNode y = true := by
  have hlast : lastPlace Place.next (.first h) (p ++ [n]) = .next n := lastPlace_append
  have hh' : A h = some ((p ++ [n]) ++ q) := by simpa using hh
  exact (hA.link_node hh' (hlast ▸ hy)).1

/-! ## One operation -/

/-- Adding at any place of a list. -/
theorem Lists.insertAt (hA : Lists s A) (hh : A h = some (p ++ q)) (hn : s.isNode n = true)
    (hfree : ∀ g, ¬ Holds A g n) : Lists (s.insertAt (lastPlace .next (.first h) p) n)
      (Function.update A h (some (p ++ n :: q))) := by
  have hnew : n ∉ p ++ q := fun hmem => hfree h ((holds_iff hh).2 hmem)
  obtain ⟨ho, hsame⟩ := (hA.onList h _ hh).insertAt hnew
  refine hA.update (hA.head h _ hh) ho hsame (fun y hy => ?_) fun y hy => ?_
  · by_cases hyn : y = n
    · exact .inr (hyn ▸ ⟨hn, hfree⟩)
    · refine .inl ((holds_iff hh).2 ?_)
      simp only [List.mem_append, List.mem_cons] at hy ⊢
      tauto
  · rcases List.mem_cons.1 hy with rfl | hy
    · exact .inr hfree
    · exact .inl ((holds_iff hh).2 hy)

theorem Lists.unlinkAt {v : Option Ptr} {u : Option Place} (hA : Lists s A)
    (hh : A h = some (p ++ n :: q)) : Lists (s.unlinkAt (lastPlace .next (.first h) p) n v u)
      (erase A n) := by
  obtain ⟨ho, hsame⟩ := (hA.onList h _ hh).unlinkAt (v := v) (u := u)
  have hnp : n ∉ p := by
    have hnd := List.nodup_cons.1 (List.nodup_middle.1 (hA.onList h _ hh).chain.nodup)
    exact fun hmem => hnd.1 (List.mem_append_left q hmem)
  rw [hA.apart.erase_eq hh (by simp), erase_split hnp]
  refine hA.update (hA.head h _ hh) ho hsame (fun y hy => .inl ((holds_iff hh).2 ?_)) fun y hy =>
    .inl ((holds_iff hh).2 hy)
  simp only [List.mem_append, List.mem_cons] at hy ⊢
  tauto

theorem Lists.moveList (hA : Lists s A) (ho : A o = some xs) (hh : A h = some []) (hoh : o ≠ h) :
    Lists (s.moveList o h) (Function.update (Function.update A h (some xs)) o (some [])) := by
  obtain ⟨hxs, hnil, hsame⟩ := (hA.onList o xs ho).moveList hoh
  have hnew : ∀ g y, Holds (Function.update (Function.update A h (some xs)) o (some [])) g y →
      g = h ∧ y ∈ xs ∨ g ≠ h ∧ g ≠ o ∧ Holds A g y := by
    intro g y hgy
    rw [holds_update, holds_update] at hgy
    by_cases hgo : g = o
    · simp [hgo] at hgy
    · by_cases hgh : g = h
      · simp [hgh, hoh.symm] at hgy
        exact .inl ⟨hgh, hgy⟩
      · rw [if_neg hgo, if_neg hgh] at hgy
        exact .inr ⟨hgh, hgo, hgy⟩
  have hother : ∀ g y, g ≠ o → Holds A g y → y ∉ xs := fun g y hgo hgy hy =>
    hgo (hA.apart y g o hgy ((holds_iff ho).2 hy))
  refine hA.change hsame (fun g ys hg => ?_) (fun y g₁ g₂ h₁ h₂ => ?_) fun g y hy => ?_
  · by_cases hgo : g = o
    · rw [hgo, Function.update_self, Option.some.injEq] at hg
      rw [hgo, ← hg]
      exact .inl ⟨hnil, hA.head o xs ho⟩
    · rw [Function.update_of_ne hgo] at hg
      by_cases hgh : g = h
      · rw [hgh, Function.update_self, Option.some.injEq] at hg
        rw [hgh, ← hg]
        exact .inl ⟨hxs, hA.head h [] hh⟩
      · rw [Function.update_of_ne hgh] at hg
        refine .inr ⟨hg, by simp [hgo, hgh], fun y hy => hother g y hgo ((holds_iff hg).2 hy)⟩
  · rcases hnew g₁ y h₁ with ⟨rfl, hy⟩ | ⟨-, hgo, hy₁⟩
    · rcases hnew g₂ y h₂ with ⟨rfl, -⟩ | ⟨-, hgo, hy₂⟩
      · rfl
      · exact absurd hy (hother g₂ y hgo hy₂)
    · rcases hnew g₂ y h₂ with ⟨rfl, hy⟩ | ⟨-, -, hy₂⟩
      · exact absurd hy (hother g₁ y hgo hy₁)
      · exact hA.apart y g₁ g₂ hy₁ hy₂
  · rcases hnew g y hy with ⟨-, hy⟩ | ⟨-, -, hy⟩
    · exact hA.node o y ((holds_iff ho).2 hy)
    · exact hA.node g y hy

theorem Lists.init (hA : Lists s A) (hh : s.isHead h = true) :
    Lists { s with link := Function.update s.link (.first h) none }
      (Function.update A h (some [])) := by
  refine hA.update hh (S := []) ⟨?_, trivial⟩ ⟨rfl, rfl, fun g hg => ?_, fun y _ => ?_⟩ (by simp)
    (by simp)
  · simp [chain_nil]
  · simp [show g ≠ h by simpa using hg]
  · simp

/-- One allowed operation returns and does what `Op.next` says. -/
theorem Lists.step (hA : Lists s A) (op : Op) (hop : op.Allowed s A) :
    ∃ s', op.exec.run s = .ok ((), s') ∧ Lists s' (op.next A) := by
  cases op with
  | initHead h => exact ⟨_, run_setFirst hop, hA.init hop⟩
  | addHead n h =>
      obtain ⟨hsome, hn, hfree⟩ := hop
      obtain ⟨xs, hh⟩ := Option.isSome_iff_exists.1 hsome
      have hfirst : ∀ y, s.link (.first h) = some y → s.isNode y = true := fun y hy =>
        (hA.link_node (p := []) hh hy).1
      refine ⟨_, run_hlistAddHead (hA.head h xs hh) hn hfirst, ?_⟩
      rw [Op.next, hh]
      exact hA.insertAt (p := []) hh hn hfree
  | addBefore n x =>
      obtain ⟨⟨h, xs, hh, hx⟩, hn, hfree⟩ := hop
      obtain ⟨p, q, rfl⟩ := List.append_of_mem hx
      have hnx : n ≠ x := by
        rintro rfl
        exact hfree h ((holds_iff hh).2 hx)
      have ho := hA.onList h _ hh
      have hlive := hA.node h x ((holds_iff hh).2 hx)
      refine ⟨_, run_hlistAddBefore hn hlive hnx (hA.live_place hh) ho.backed.back_eq
        ho.chain.link_last.1, ?_⟩
      have hnd := List.nodup_cons.1 (List.nodup_middle.1 ho.chain.nodup)
      rw [List.mem_append, not_or] at hnd
      rw [Op.next, hA.apart.insertBefore_eq hh hx, flatMap_split hnd.1.1 hnd.1.2]
      exact hA.insertAt hh hn hfree
  | addAfter x n =>
      obtain ⟨⟨h, xs, hh, hx⟩, hn, hfree⟩ := hop
      obtain ⟨p, q, rfl⟩ := List.append_of_mem hx
      have hnx : x ≠ n := by
        rintro rfl
        exact hfree h ((holds_iff hh).2 hx)
      have hlive := hA.node h x ((holds_iff hh).2 hx)
      have hnd := List.nodup_cons.1 (List.nodup_middle.1 (hA.onList h _ hh).chain.nodup)
      rw [List.mem_append, not_or] at hnd
      have hlast : lastPlace Place.next (.first h) (p ++ [x]) = .next x := lastPlace_append
      have hh' : A h = some ((p ++ [x]) ++ q) := by simpa using hh
      have hnext : ∀ y, s.link (.next x) = some y → s.isNode y = true ∧ y ≠ n := by
        intro y hy
        obtain ⟨hnode, hmem⟩ := hA.link_node hh' (hlast ▸ hy)
        refine ⟨hnode, ?_⟩
        rintro rfl
        exact hfree h ((holds_iff hh').2 (by simp [hmem]))
      refine ⟨_, run_hlistAddAfter hlive hn hnx hnext, ?_⟩
      have hk := hA.insertAt hh' hn hfree
      rw [hlast] at hk
      rw [Op.next, hA.apart.insertAfter_eq hh hx, flatMap_split hnd.1.1 hnd.1.2]
      simpa using hk
  | del n =>
      obtain ⟨h, xs, hh, hn⟩ := hop
      obtain ⟨p, q, rfl⟩ := List.append_of_mem hn
      exact ⟨_, run_hlistDel (hA.node h n ((holds_iff hh).2 hn)) (hA.live_place hh)
        (hA.onList h _ hh).backed.back_eq (hA.next_node hh), hA.unlinkAt hh⟩
  | delInit n =>
      obtain ⟨h, xs, hh, hn⟩ := hop
      obtain ⟨p, q, rfl⟩ := List.append_of_mem hn
      exact ⟨_, run_hlistDelInit (hA.node h n ((holds_iff hh).2 hn)) (hA.live_place hh)
        (hA.onList h _ hh).backed.back_eq (hA.next_node hh), hA.unlinkAt hh⟩
  | moveList o h =>
      obtain ⟨hoh, hsome, hh⟩ := hop
      obtain ⟨xs, ho⟩ := Option.isSome_iff_exists.1 hsome
      have hfirst : ∀ y, s.link (.first o) = some y → s.isNode y = true := fun y hy =>
        (hA.link_node (p := []) ho hy).1
      refine ⟨_, run_hlistMoveList (hA.head o xs ho) (hA.head h [] hh) hfirst, ?_⟩
      rw [Op.next, ho]
      exact hA.moveList ho hh hoh

/-! ## Back links -/

/-- `m` is the `first` of one of the heads or the `next` of a node on one of the lists. -/
def IsLink (A : Heads) (m : Place) : Prop := ∃ h xs, A h = some xs ∧ m ∈ places .next (.first h) xs

/-- Memory holds the lists `A`; no list goes in a circle, and the `pprev` of a node on a list is the
    one link that points to the node. -/
structure WellLinked (s : HlistMem) (A : Heads) : Prop where
  lists : Lists s A
  nodup : ∀ h xs, A h = some xs → xs.Nodup
  pprev : ∀ h x, Holds A h x → ∃ m, s.pprev x = some m ∧ IsLink A m ∧
    ∀ m', IsLink A m' → (s.link m' = some x ↔ m' = m)

theorem Lists.wellLinked (hA : Lists s A) : WellLinked s A := by
  refine ⟨hA, fun h xs hh => (hA.onList h xs hh).chain.nodup, ?_⟩
  rintro h x ⟨xs, hh, hx⟩
  obtain ⟨p, q, rfl⟩ := List.append_of_mem hx
  have ho := hA.onList h _ hh
  have hback := ho.backed.back_eq
  refine ⟨_, hback, ⟨h, _, hh, ?_⟩, ?_⟩
  · rw [places_append]
    exact List.mem_append_left _ lastPlace_mem
  · rintro m' ⟨g, ys, hg, hm'⟩
    constructor
    · intro hlink
      -- `m'` is the place before `x` on the list of `g`, and so the `pprev` of `x`
      obtain ⟨p', q', rfl, rfl⟩ := exists_lastPlace hm'
      have hx' : Holds A g x := (holds_iff hg).2 (by simp [(hA.link_node hg hlink).2])
      obtain rfl : g = h := hA.apart x g h hx' ⟨_, hh, hx⟩
      have ho' := hA.onList g _ hg
      cases q' with
      | nil =>
          have hnone : s.link (lastPlace .next (.first g) p') = none := ho'.chain.drop
          rw [hnone] at hlink
          cases hlink
      | cons y q' =>
          rw [ho'.chain.link_last.1, Option.some.injEq] at hlink
          subst hlink
          exact Option.some.inj (ho'.backed.back_eq.symm.trans hback)
    · rintro rfl
      exact ho.chain.link_last.1

theorem lists_none (s : HlistMem) : Lists s fun _ => none := by
  refine ⟨fun h xs hh => ?_, ?_, fun h xs hh => ?_, ?_⟩
  · cases hh
  · rintro x g h ⟨xs, hg, -⟩
    cases hg
  · cases hh
  · rintro h x ⟨xs, hh, -⟩
    cases hh

end Lists

/-! ## Runs -/

/-- What the operations do to a family of sequences. -/
def hlistSpec : Spec Heads Op Unit where
  result _ _ := ()
  next A op := op.next A

/-- The list operations, each called as its user promises with respect to the family of sequences
    that the calls so far have led to, at first no list at all. -/
def hlistMachine : Machine HlistMem Op Unit where
  enabled tr s op := op.Allowed s (hlistSpec.after (fun _ => none) tr)
  exec op := fun _ => op.exec

/-- **Lists with a single pointer head are sequences.** -/
theorem hlists_are_sequences (s : HlistMem) :
    hlistMachine.Refines s hlistSpec (fun _ => none) WellLinked := by
  refine (Machine.refines_of_step (lists_none s) fun tr s op hA hop => ?_).mono fun s A hA => hA.wellLinked
  obtain ⟨s', hrun, hA'⟩ := hA.step op hop
  exact ⟨s', .of_run hrun, hA'⟩

end StructLib.Hlist
