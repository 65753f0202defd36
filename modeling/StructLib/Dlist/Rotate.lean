import StructLib.Dlist.Ops
import Mathlib.Data.List.Rotate

set_option autoImplicit false

/-! # Rotating a list

`dlist_rotate_left` passes the arguments of `dlist_move_tail` in the wrong order: it takes the head
out of the ring and puts it back before the first entry, which is where it was. Nothing changes
(`run_dlistRotateLeft`), and this is a rotation only of a list without a second entry
(`rotatesLeft_iff`). -/

namespace StructLib.Dlist

open Links

variable {s : DlistMem} {h : Ptr} {xs : List Ptr}

/-- Rotate the list `k` times. -/
def rotateTimes (list : Ptr) : ℕ → Exec DlistMem Unit
  | 0 => return
  | k + 1 => do
      dlistRotateLeft list
      rotateTimes list k

/-- What rotating should do: the first entry becomes the last one, each entry gets to the front
    after as many rotations as there are entries before it, and after one rotation for each entry
    the list is the old one. -/
structure RotatesLeft (s : DlistMem) (h : Ptr) (xs : List Ptr) : Prop where
  once : ∃ s', (dlistRotateLeft h).run s = .ok ((), s') ∧ LiveRing s' h (xs.rotate 1)
  front : ∀ k (hk : k < xs.length), ∃ s' ys, (rotateTimes h k).run s = .ok ((), s') ∧
    LiveRing s' h (xs.get ⟨k, hk⟩ :: ys)
  around : ∃ s', (rotateTimes h xs.length).run s = .ok ((), s') ∧ LiveRing s' h xs

/-- The head taken out and put back before the first entry. -/
theorem run_dlistMoveTail_head (hr : LiveRing s h xs) (hxs : xs ≠ []) :
    (dlistMoveTail (s.link.next h) h).run s = .ok ((), s) := by
  have hne : s.link.next h ≠ h := hr.ring.next_ne hxs
  have hnext := hr.ring.next_prev
  have hprev := hr.ring.prev_next
  -- every field that is written gets its old value back
  have hlast : Function.update (Function.update s.link.next (s.link.prev h) (s.link.next h)) h
      (s.link.next h) = Function.update s.link.next (s.link.prev h) (s.link.next h) := by
    rw [Function.update_eq_self_iff]
    by_cases heq : h = s.link.prev h
    · rw [← heq, Function.update_self]
    · rw [Function.update_of_ne heq]
  have hnexts : Function.update (Function.update (Function.update s.link.next (s.link.prev h)
      (s.link.next h)) h (s.link.next h)) (s.link.prev h) h = s.link.next := by
    rw [hlast, Function.update_idem, Function.update_eq_self_iff, hnext]
  have hprevs : Function.update (Function.update s.link.prev (s.link.next h) h) h
      (s.link.prev h) = s.link.prev := by
    rw [Function.update_comm hne, Function.update_eq_self, Function.update_eq_self_iff, hprev]
  simp [dlistMoveTail, listRemoveEntry, listRemove, dlistAddTail, listAdd, run_getPrev, run_getNext,
    run_setPrev, run_setNext, hr.head, hr.next, hr.prev, hnexts, hprevs]

/-- **Nothing is rotated.** -/
theorem run_dlistRotateLeft (hr : LiveRing s h xs) : (dlistRotateLeft h).run s = .ok ((), s) := by
  rw [dlistRotateLeft, Exec.run_bind_of_ok (run_dlistEmpty hr.head)]
  by_cases hxs : xs = []
  · subst hxs
    rw [if_pos (by simpa using (ring_nil.1 hr.ring).1)]
    rfl
  · rw [if_neg (by simpa using hr.ring.next_ne hxs), Exec.run_bind_of_ok (run_getNext hr.head)]
    exact run_dlistMoveTail_head hr hxs

theorem run_rotateTimes (hr : LiveRing s h xs) (k : ℕ) :
    (rotateTimes h k).run s = .ok ((), s) := by
  induction k with
  | zero => rfl
  | succ k ih =>
      rw [rotateTimes, Exec.run_bind_of_ok (run_dlistRotateLeft hr)]
      exact ih

/-- **When `dlist_rotate_left` rotates**: if the list has at most one entry. -/
theorem rotatesLeft_iff (hr : LiveRing s h xs) : RotatesLeft s h xs ↔ xs.length ≤ 1 := by
  constructor
  · intro hright
    obtain ⟨s', hrun, hr'⟩ := hright.once
    rw [run_dlistRotateLeft hr, Except.ok.injEq, Prod.mk.injEq] at hrun
    obtain ⟨-, rfl⟩ := hrun
    have heq : xs = xs.rotate 1 := hr.ring.unique hr'.ring
    have hnodup : xs.Nodup := (List.nodup_cons.1 hr.ring.nodup).2
    match xs with
    | [] => exact Nat.zero_le 1
    | [x] => exact Nat.le_refl 1
    | x :: y :: ys =>
        rw [List.rotate_cons_succ, List.rotate_zero, List.cons_append] at heq
        have hxy : x = y := (List.cons.inj heq).1
        exact absurd hnodup (by simp [hxy])
  · intro hlen
    refine ⟨⟨s, run_dlistRotateLeft hr, ?_⟩, fun k hk => ?_, ⟨s, run_rotateTimes hr _, hr⟩⟩
    · match xs with
      | [] => exact hr
      | [x] => rwa [List.rotate_singleton]
    · match xs with
      | [x] =>
          obtain rfl : k = 0 := by simpa using hk
          exact ⟨s, [], rfl, hr⟩

/-- The ring of the head 0 and the entry 1. -/
def oneEntry : DlistMem where
  live p := p < 2
  link := ⟨fun p => (p + 1) % 2, fun p => (p + 1) % 2⟩

theorem liveRing_oneEntry : LiveRing oneEntry 0 [1] where
  ring := ⟨by decide, rfl, rfl, rfl, rfl⟩
  live := by decide

/-- A list of one entry is what it was. -/
theorem rotatesLeft_iff_one : RotatesLeft oneEntry 0 [1] :=
  (rotatesLeft_iff liveRing_oneEntry).2 (by decide)

/-- The ring of the head 0 and the entries 1 and 2. -/
def twoEntries : DlistMem where
  live p := p < 3
  link := ⟨fun p => (p + 1) % 3, fun p => (p + 2) % 3⟩

theorem liveRing_twoEntries : LiveRing twoEntries 0 [1, 2] where
  ring := ⟨by decide, rfl, rfl, rfl, rfl, rfl, rfl⟩
  live := by decide

/-- Of two entries the first one stays the first. -/
theorem rotates_wrong_two : ¬ ∀ s h xs, LiveRing s h xs → RotatesLeft s h xs := by
  intro hright
  obtain ⟨s', hrun, hr'⟩ := (hright twoEntries 0 [1, 2] liveRing_twoEntries).once
  rw [run_dlistRotateLeft liveRing_twoEntries, Except.ok.injEq, Prod.mk.injEq] at hrun
  obtain ⟨-, rfl⟩ := hrun
  exact absurd (liveRing_twoEntries.ring.unique hr'.ring) (by decide)

end StructLib.Dlist
