import StructLib.Dlist.Model

set_option autoImplicit false

/-! # What the list operations do to the links

Each operation runs without a fault where the addresses it follows are live, and its effect on the
links is one of the operations of `Links`. -/

namespace StructLib.Dlist

open Links

variable {s : DlistMem} {h n o e c p q : Ptr} {xs ys : List Ptr}

/-! ## Field accesses -/

theorem run_getNext (hp : s.live p = true) : (getNext p).run s = .ok (s.link.next p, s) := by
  simp [getNext, hp]

theorem run_getPrev (hp : s.live p = true) : (getPrev p).run s = .ok (s.link.prev p, s) := by
  simp [getPrev, hp]

theorem run_setNext (hp : s.live p = true) : (setNext p q).run s =
    .ok ((), { s with link := { s.link with next := Function.update s.link.next p q } }) := by
  simp [setNext, hp]

theorem run_setPrev (hp : s.live p = true) : (setPrev p q).run s =
    .ok ((), { s with link := { s.link with prev := Function.update s.link.prev p q } }) := by
  simp [setPrev, hp]

/-! ## Operations -/

/-- A ring of live addresses. -/
structure LiveRing (s : DlistMem) (h : Ptr) (xs : List Ptr) : Prop where
  ring : s.link.Ring h xs
  live : ∀ x ∈ h :: xs, s.live x = true

/-- The links are the same outside `xs`. -/
def SameLinks (k k' : Links Ptr) (xs : List Ptr) : Prop :=
  ∀ y, y ∉ xs → k'.next y = k.next y ∧ k'.prev y = k.prev y

theorem LiveRing.next (hr : LiveRing s h xs) : s.live (s.link.next h) = true :=
  hr.live _ hr.ring.next_mem

theorem LiveRing.prev (hr : LiveRing s h xs) : s.live (s.link.prev h) = true :=
  hr.live _ hr.ring.prev_mem

theorem LiveRing.head (hr : LiveRing s h xs) : s.live h = true := hr.live h (by simp)

/-- The ring seen from an entry. -/
theorem LiveRing.rotate (hr : LiveRing s h (xs ++ n :: ys)) : LiveRing s n (ys ++ h :: xs) :=
  ⟨hr.ring.rotate, fun x hx => hr.live x (by simp only [List.mem_cons, List.mem_append] at hx ⊢; tauto)⟩

/-! ## Adding -/

theorem run_dlistInit (hh : s.live h = true) :
    ∃ k, (dlistInit h).run s = .ok ((), { s with link := k }) ∧ k.Ring h [] ∧
      SameLinks s.link k [h] := by
  refine ⟨⟨Function.update s.link.next h h, Function.update s.link.prev h h⟩, ?_, ?_, fun y hy => ?_⟩
  · simp [dlistInit, run_setNext, run_setPrev, hh]
  · simp [ring_nil]
  · have hne : y ≠ h := by simpa using hy
    simp [hne]

/-- `__list_add` after `h`. -/
theorem run_listAdd (hr : LiveRing s h xs) (hn : s.live n = true) (hnew : n ∉ h :: xs) :
    ∃ k, (listAdd n h (s.link.next h)).run s = .ok ((), { s with link := k }) ∧ k.Ring h (n :: xs) ∧
      SameLinks s.link k (h :: n :: xs) := by
  have hne : s.link.next h ≠ n := fun heq => hnew (heq ▸ hr.ring.next_mem)
  refine ⟨s.link.insertAfter h n, ?_, hr.ring.insertAfter hnew, fun y hy => ?_⟩
  · simp [listAdd, run_setNext, run_setPrev, hn, hr.next, hr.head, insertAfter,
      Function.update_comm hne]
  · simp only [List.mem_cons, not_or] at hy
    exact hr.ring.insertAfter_frame (by simp [hy]) hy.2.1

theorem run_dlistAdd (hr : LiveRing s h xs) (hn : s.live n = true) (hnew : n ∉ h :: xs) :
    ∃ k, (dlistAdd h n).run s = .ok ((), { s with link := k }) ∧ k.Ring h (n :: xs) ∧
      SameLinks s.link k (h :: n :: xs) := by
  obtain ⟨k, hrun, hk⟩ := run_listAdd hr hn hnew
  exact ⟨k, (Exec.run_bind_of_ok (run_getNext hr.head) _).trans hrun, hk⟩

/-- Adding at the tail is adding after the last entry, or after the head of an empty list. -/
theorem run_dlistAddTail (hr : LiveRing s h xs) (hn : s.live n = true) (hnew : n ∉ h :: xs) :
    ∃ k, (dlistAddTail h n).run s = .ok ((), { s with link := k }) ∧ k.Ring h (xs ++ [n]) ∧
      SameLinks s.link k (h :: n :: xs) := by
  have hget := run_getPrev hr.head
  rcases List.eq_nil_or_concat xs with rfl | ⟨zs, l, rfl⟩
  · obtain ⟨hnext, hprev⟩ := ring_nil.1 hr.ring
    obtain ⟨k, hrun, hk⟩ := run_listAdd hr hn hnew
    refine ⟨k, (Exec.run_bind_of_ok hget _).trans ?_, hk⟩
    rw [hnext] at hrun
    rwa [hprev]
  · rw [List.concat_eq_append] at hr hnew ⊢
    have hlast : LiveRing s l ([] ++ h :: zs) := hr.rotate
    have hprev : s.link.prev h = l := hlast.ring.2.2.1
    have hnext : s.link.next l = h := hlast.ring.2.1
    have hnew' : n ∉ l :: ([] ++ h :: zs) := by
      simp only [List.mem_cons, List.mem_append, List.not_mem_nil, List.nil_append] at hnew ⊢
      tauto
    obtain ⟨k, hrun, hring, hsame⟩ := run_listAdd hlast hn hnew'
    refine ⟨k, (Exec.run_bind_of_ok hget _).trans ?_, ?_, fun y hy => hsame y ?_⟩
    · rw [hnext] at hrun
      rwa [hprev]
    · have hback : k.Ring h (zs ++ l :: [n]) :=
        Ring.rotate (show k.Ring l ([n] ++ h :: zs) from hring)
      simpa using hback
    · simp only [List.mem_cons, List.mem_append, List.not_mem_nil, List.nil_append, or_false] at hy ⊢
      tauto

/-! ## Taking out, replacing -/

/-- `__list_remove_entry`. -/
theorem run_listRemoveEntry (hr : LiveRing s h (xs ++ n :: ys)) :
    ∃ k, (listRemoveEntry n).run s = .ok ((), { s with link := k }) ∧ k.Ring h (xs ++ ys) ∧
      SameLinks s.link k (h :: (xs ++ n :: ys)) := by
  have hrot := hr.rotate
  refine ⟨s.link.unlink n, ?_, hr.ring.unlink, fun y hy => hr.ring.unlink_frame (by simp) hy⟩
  simp [listRemoveEntry, listRemove, run_getPrev, run_getNext, run_setPrev, run_setNext, hrot.head,
    hrot.next, hrot.prev, Links.unlink]

theorem run_dlistRemove (hr : LiveRing s h (xs ++ n :: ys)) :
    ∃ k, (dlistRemove n).run s = .ok ((), { s with link := k }) ∧ k.Ring h (xs ++ ys) ∧
      k.Ring n [] ∧ SameLinks s.link k (h :: (xs ++ n :: ys)) := by
  have hrot := hr.rotate
  refine ⟨s.link.remove n, ?_, hr.ring.remove, ring_remove_self,
    fun y hy => hr.ring.remove_frame (by simp) hy⟩
  simp [dlistRemove, listRemove, dlistInit, run_getPrev, run_getNext, run_setPrev, run_setNext,
    hrot.head, hrot.next, hrot.prev, Links.remove]

theorem run_dlistReplace (hr : LiveRing s h (xs ++ o :: ys)) (hn : s.live n = true)
    (hnew : n ∉ h :: (xs ++ o :: ys)) :
    ∃ k, (dlistReplace o n).run s = .ok ((), { s with link := k }) ∧ k.Ring h (xs ++ n :: ys) ∧
      k.Ring o [] ∧ SameLinks s.link k (n :: h :: (xs ++ o :: ys)) := by
  have hrot := hr.rotate
  have hno : n ≠ o := by
    rintro rfl
    exact hnew (by simp)
  have hnextn : s.link.next o ≠ n := fun heq =>
    hnew (heq ▸ hr.ring.next_mem_of_mem (by simp))
  have hnexto : s.link.next o ≠ o := hrot.ring.next_ne (by simp)
  refine ⟨s.link.replace o n, ?_, hr.ring.replace hnew, ?_, fun y hy => ?_⟩
  · simp [dlistReplace, dlistInit, run_getPrev, run_getNext, run_setPrev, run_setNext, hn, hrot.head,
      hrot.next, hrot.prev, Links.replace, hnexto.symm]
  · simp [ring_nil, Links.replace]
  · obtain ⟨hyn, hy⟩ := not_or.1 (List.mem_cons.not.1 hy)
    exact hr.ring.replace_frame (by simp) hy hyn

/-! ## Cutting and joining -/

theorem run_dlistEmpty (hh : s.live h = true) :
    (dlistEmpty h).run s = .ok (decide (s.link.next h = h), s) := by
  simp [dlistEmpty, run_getNext hh]

theorem run_listSplice {a : Ptr} (ha : LiveRing s a xs) (hp : LiveRing s p ys) (hxs : xs ≠ [])
    (hdis : (a :: xs).Disjoint (p :: ys)) :
    ∃ k, (listSplice a p (s.link.next p)).run s = .ok ((), { s with link := k }) ∧
      k.Ring p (xs ++ ys) ∧ SameLinks s.link k (a :: xs ++ p :: ys) := by
  refine ⟨s.link.splice a p, ?_, ha.ring.splice hxs hp.ring hdis, fun y hy => ?_⟩
  · simp [listSplice, run_getPrev, run_getNext, run_setPrev, run_setNext, ha.head, ha.next, ha.prev,
      hp.head, hp.next, Links.splice]
  · obtain ⟨hya, hyp⟩ := not_or.1 (List.mem_append.not.1 hy)
    exact ha.ring.splice_frame hp.ring hya hyp

theorem run_dlistIsSingular (hr : LiveRing s h xs) (hxs : xs ≠ []) : (dlistIsSingular h).run s =
    .ok (decide (s.link.next h = s.link.prev h), s) := by
  simp [dlistIsSingular, run_dlistEmpty hr.head, run_getNext hr.head, run_getPrev hr.head,
    hr.ring.next_ne hxs]

/-- The early return is not taken for an entry of the list. -/
theorem run_cutsNothing (hr : LiveRing s h (xs ++ e :: ys)) :
    (cutsNothing h e).run s = .ok (false, s) := by
  rw [cutsNothing, Exec.run_bind_of_ok (run_dlistIsSingular hr (by simp))]
  by_cases hsing : s.link.next h = s.link.prev h
  · -- the only entry of the list is `e`
    have hnext : s.link.next h = e := by
      cases xs with
      | nil => exact hr.ring.2.1
      | cons x xs =>
          exfalso
          have hprev : s.link.prev h ∈ e :: ys := (seg_append.1 hr.ring.2).2.prev_mem
          have hx : x ∉ xs ++ e :: ys :=
            (List.nodup_cons.1 (List.nodup_cons.1 hr.ring.nodup).2).1
          rw [← hsing, show s.link.next h = x from hr.ring.2.1] at hprev
          exact hx (List.mem_append_right xs hprev)
    rw [decide_eq_true hsing, if_pos rfl, Exec.run_bind_of_ok (run_getNext hr.head), hnext]
    simp
  · rw [decide_eq_false hsing]
    rfl

theorem run_dlistCutPosition (hr : LiveRing s h (xs ++ e :: ys)) (hc : s.live c = true)
    (hnew : c ∉ h :: (xs ++ e :: ys)) :
    ∃ k, (dlistCutPosition h e c).run s = .ok ((), { s with link := k }) ∧
      k.Ring c (xs ++ [e]) ∧ k.Ring h ys ∧ SameLinks s.link k (c :: h :: (xs ++ e :: ys)) := by
  obtain ⟨hcring, hhring⟩ := hr.ring.cut hnew
  refine ⟨s.link.cut c h e, ?_, hcring, hhring, fun y hy => ?_⟩
  · have hrot := hr.rotate
    have heh : e ≠ h := by
      rintro rfl
      exact (List.nodup_cons.1 hr.ring.nodup).1 (by simp)
    rw [dlistCutPosition, Exec.run_bind_of_ok (run_dlistEmpty hr.head),
      decide_eq_false (hr.ring.next_ne (by simp)), if_neg Bool.false_ne_true,
      Exec.run_bind_of_ok (run_cutsNothing hr), if_neg Bool.false_ne_true,
      if_neg heh]
    simp [listCutPosition, run_getNext, run_setPrev, run_setNext, hc, hr.head, hr.next, hrot.head,
      hrot.next, Links.cut]
  · obtain ⟨hyc, hy⟩ := not_or.1 (List.mem_cons.not.1 hy)
    exact hr.ring.cut_frame (by simp) hy hyc

/-- Cutting at the head takes nothing over. -/
theorem run_dlistCutPosition_head (hr : LiveRing s h xs) (hc : LiveRing s c []) :
    ∃ k, (dlistCutPosition h h c).run s = .ok ((), { s with link := k }) ∧ k.Ring c [] ∧
      SameLinks s.link k [c] := by
  rw [dlistCutPosition, Exec.run_bind_of_ok (run_dlistEmpty hr.head)]
  cases xs with
  | nil =>
      rw [(ring_nil.1 hr.ring).1, decide_eq_true rfl]
      exact ⟨s.link, rfl, hc.ring, fun _ _ => ⟨rfl, rfl⟩⟩
  | cons x xs =>
      have hcuts : (cutsNothing h h).run s = .ok (false, s) := by
        rw [cutsNothing, Exec.run_bind_of_ok (run_dlistIsSingular hr (by simp))]
        by_cases hsing : s.link.next h = s.link.prev h
        · rw [decide_eq_true hsing, if_pos rfl, Exec.run_bind_of_ok (run_getNext hr.head)]
          simp
        · rw [decide_eq_false hsing]
          rfl
      rw [decide_eq_false (hr.ring.next_ne (by simp)), if_neg Bool.false_ne_true,
        Exec.run_bind_of_ok hcuts,
        if_neg Bool.false_ne_true, if_pos rfl]
      exact run_dlistInit hc.head

/-- Joining an empty list changes nothing. -/
theorem run_dlistJoin_nil {a : Ptr} (ha : LiveRing s a []) :
    (dlistJoin a p).run s = .ok ((), s) ∧ (dlistJoinTail a p).run s = .ok ((), s) := by
  have hempty := run_dlistEmpty ha.head
  rw [(ring_nil.1 ha.ring).1, decide_eq_true rfl] at hempty
  exact ⟨Exec.run_bind_of_ok hempty _, Exec.run_bind_of_ok hempty _⟩

theorem run_dlistJoin {a : Ptr} (ha : LiveRing s a xs) (hp : LiveRing s p ys) (hxs : xs ≠ [])
    (hdis : (a :: xs).Disjoint (p :: ys)) :
    ∃ k, (dlistJoin a p).run s = .ok ((), { s with link := k }) ∧ k.Ring p (xs ++ ys) ∧
      SameLinks s.link k (a :: xs ++ p :: ys) := by
  obtain ⟨k, hrun, hk⟩ := run_listSplice ha hp hxs hdis
  refine ⟨k, ?_, hk⟩
  rw [dlistJoin, Exec.run_bind_of_ok (run_dlistEmpty ha.head),
    decide_eq_false (ha.ring.next_ne hxs),
    if_neg Bool.false_ne_true, Exec.run_bind_of_ok (run_getNext hp.head), hrun]

/-- Joining at the tail is joining after the last entry, or after the head of an empty list. -/
theorem run_dlistJoinTail {a : Ptr} (ha : LiveRing s a xs) (hp : LiveRing s p ys) (hxs : xs ≠ [])
    (hdis : (a :: xs).Disjoint (p :: ys)) :
    ∃ k, (dlistJoinTail a p).run s = .ok ((), { s with link := k }) ∧ k.Ring p (ys ++ xs) ∧
      SameLinks s.link k (a :: xs ++ p :: ys) := by
  rw [dlistJoinTail, Exec.run_bind_of_ok (run_dlistEmpty ha.head),
    decide_eq_false (ha.ring.next_ne hxs), if_neg Bool.false_ne_true,
    Exec.run_bind_of_ok (run_getPrev hp.head)]
  rcases List.eq_nil_or_concat ys with rfl | ⟨zs, l, rfl⟩
  · obtain ⟨hnext, hprev⟩ := ring_nil.1 hp.ring
    obtain ⟨k, hrun, hring, hsame⟩ := run_listSplice ha hp hxs hdis
    refine ⟨k, ?_, by simpa using hring, hsame⟩
    rw [hnext] at hrun
    rwa [hprev]
  · rw [List.concat_eq_append] at hp hdis ⊢
    have hlast : LiveRing s l ([] ++ p :: zs) := hp.rotate
    have hprev : s.link.prev p = l := hlast.ring.2.2.1
    have hnext : s.link.next l = p := hlast.ring.2.1
    have hperm : ∀ y, y ∈ l :: ([] ++ p :: zs) ↔ y ∈ p :: (zs ++ [l]) := by
      intro y
      simp only [List.mem_cons, List.mem_append, List.not_mem_nil, List.nil_append]
      tauto
    obtain ⟨k, hrun, hring, hsame⟩ := run_listSplice ha hlast hxs fun y hya hyl =>
      hdis hya ((hperm y).1 hyl)
    refine ⟨k, ?_, ?_, fun y hy => hsame y ?_⟩
    · rw [hnext] at hrun
      rwa [hprev]
    · have hback : k.Ring p (zs ++ l :: xs) := Ring.rotate hring
      simpa using hback
    · simp only [List.mem_append, hperm] at hy ⊢
      exact hy

end StructLib.Dlist
