import StructLib.Hlist.Model

set_option autoImplicit false

/-! # What the list operations do to the links

Adding is `insertAt` and removing `unlinkAt` of the place that the node hangs on, whether that is a
head's or another node's. -/

namespace StructLib.Hlist

variable {s : HlistMem} {h n x o : Ptr} {m p : Place} {v : Option Ptr} {u : Option Place}

/-! ## Field accesses -/

theorem run_getLink (hp : s.live p = true) : (getLink p).run s = .ok (s.link p, s) := by
  simp [getLink, hp]

theorem run_setLink (hp : s.live p = true) :
    (setLink p v).run s = .ok ((), { s with link := Function.update s.link p v }) := by
  simp [setLink, hp]

theorem run_getFirst (hh : s.isHead h = true) :
    (getLink (.first h)).run s = .ok (s.link (.first h), s) :=
  run_getLink hh

theorem run_getNext (hn : s.isNode n = true) :
    (getLink (.next n)).run s = .ok (s.link (.next n), s) :=
  run_getLink hn

theorem run_setFirst (hh : s.isHead h = true) : (setLink (.first h) v).run s =
    .ok ((), { s with link := Function.update s.link (.first h) v }) :=
  run_setLink hh

theorem run_setNext (hn : s.isNode n = true) : (setLink (.next n) v).run s =
    .ok ((), { s with link := Function.update s.link (.next n) v }) :=
  run_setLink hn

theorem run_getPprev (hn : s.isNode n = true) : (getPprev n).run s = .ok (s.pprev n, s) := by
  simp [getPprev, hn]

theorem run_setPprev (hn : s.isNode n = true) :
    (setPprev n u).run s = .ok ((), { s with pprev := Function.update s.pprev n u }) := by
  simp [setPprev, hn]

theorem run_setPprevIf (hv : ∀ y, v = some y → s.isNode y = true) :
    (setPprevIf v (some p)).run s = .ok ((), { s with pprev := setBack s.pprev v p }) := by
  cases v with
  | none => rfl
  | some y => exact run_setPprev (hv y rfl)

/-! ## Adding -/

/-- `n` between the place `m` and what it holds. -/
def HlistMem.insertAt (s : HlistMem) (m : Place) (n : Ptr) : HlistMem :=
  { s with
    link := StructLib.insertAt .next s.link m n
    pprev := Function.update (setBack s.pprev (s.link m) (.next n)) n (some m) }

theorem run_hlistAddHead (hh : s.isHead h = true) (hn : s.isNode n = true)
    (hfirst : ∀ y, s.link (.first h) = some y → s.isNode y = true) :
    (hlistAddHead n h).run s = .ok ((), s.insertAt (.first h) n) := by
  refine (Exec.run_bind_of_ok (run_getFirst hh) _).trans ?_
  refine (Exec.run_bind_of_ok (run_setNext hn) _).trans ?_
  refine (Exec.run_bind_of_ok (run_setPprevIf (by exact hfirst)) _).trans ?_
  refine (Exec.run_bind_of_ok (run_setFirst (by exact hh)) _).trans ?_
  exact run_setPprev hn

theorem run_hlistAddBefore (hn : s.isNode n = true) (hx : s.isNode x = true) (hne : n ≠ x)
    (hm : s.live m = true) (hback : s.pprev x = some m) (hlink : s.link m = some x) :
    (hlistAddBefore n x).run s = .ok ((), s.insertAt m n) := by
  have hpprev : Function.update (Function.update s.pprev n (some m)) x (some (.next n)) n =
      some m := by
    rw [Function.update_of_ne hne, Function.update_self]
  rw [hlistAddBefore, Exec.run_bind_of_ok (run_getPprev hx), hback]
  refine (Exec.run_bind_of_ok (run_setPprev hn) _).trans ?_
  refine (Exec.run_bind_of_ok (run_setNext (by exact hn)) _).trans ?_
  refine (Exec.run_bind_of_ok (run_setPprev (by exact hx)) _).trans ?_
  refine (Exec.run_bind_of_ok (run_getPprev (by exact hn)) _).trans ?_
  refine (congrArg (fun w => (setThrough w (some n)).run _) hpprev).trans ?_
  refine (run_setLink (by cases m <;> exact hm)).trans ?_
  rw [HlistMem.insertAt, StructLib.insertAt, hlink, setBack, Function.update_comm hne]

theorem run_hlistAddAfter (hn : s.isNode n = true) (hx : s.isNode x = true) (hne : n ≠ x)
    (hnext : ∀ y, s.link (.next n) = some y → s.isNode y = true ∧ y ≠ x) :
    (hlistAddAfter n x).run s = .ok ((), s.insertAt (.next n) x) := by
  have hlink : StructLib.insertAt Place.next s.link (.next n) x (.next x) = s.link (.next n) := by
    rw [StructLib.insertAt, Function.update_of_ne (by simpa using hne.symm), Function.update_self]
  have hset : setBack (Function.update s.pprev x (some (.next n))) (s.link (.next n)) (.next x) =
      Function.update (setBack s.pprev (s.link (.next n)) (.next x)) x (some (.next n)) := by
    cases hy : s.link (.next n) with
    | none => rfl
    | some y => exact Function.update_comm (hnext y hy).2.symm ..
  refine (Exec.run_bind_of_ok (run_getNext hn) _).trans ?_
  refine (Exec.run_bind_of_ok (run_setNext hx) _).trans ?_
  refine (Exec.run_bind_of_ok (run_setNext (by exact hn)) _).trans ?_
  refine (Exec.run_bind_of_ok (run_setPprev (by exact hx)) _).trans ?_
  refine (Exec.run_bind_of_ok (run_getNext (by exact hx)) _).trans ?_
  refine (congrArg (fun w => (setPprevIf w (some (.next x))).run _) hlink).trans ?_
  refine (run_setPprevIf (by exact fun y hy => (hnext y hy).1)).trans ?_
  rw [HlistMem.insertAt, ← hset]
  rfl

/-! ## Removing -/

/-- What `m` holds taken out, and its node given the fields `v` and `u`. -/
def HlistMem.unlinkAt (s : HlistMem) (m : Place) (n : Ptr) (v : Option Ptr) (u : Option Place) :
    HlistMem :=
  { s with
    link := Function.update (StructLib.unlinkAt .next s.link m n) (.next n) v
    pprev := Function.update (setBack s.pprev (s.link (.next n)) m) n u }

theorem run_hlistDelLinks (hn : s.isNode n = true) (hm : s.live m = true)
    (hback : s.pprev n = some m) (hnext : ∀ y, s.link (.next n) = some y → s.isNode y = true) :
    (hlistDelLinks n).run s = .ok ((), { s with
      link := StructLib.unlinkAt .next s.link m n
      pprev := setBack s.pprev (s.link (.next n)) m }) := by
  rw [hlistDelLinks, Exec.run_bind_of_ok (run_getNext hn),
    Exec.run_bind_of_ok (run_getPprev hn), hback, setThrough, Exec.run_bind_of_ok (run_setLink hm)]
  exact run_setPprevIf hnext

theorem run_hlistDel (hn : s.isNode n = true) (hm : s.live m = true)
    (hback : s.pprev n = some m) (hnext : ∀ y, s.link (.next n) = some y → s.isNode y = true) :
    (hlistDel n).run s = .ok ((), s.unlinkAt m n (some n) (some .param)) := by
  refine (Exec.run_bind_of_ok (run_hlistDelLinks hn hm hback hnext) _).trans ?_
  refine (Exec.run_bind_of_ok (run_setNext (by exact hn)) _).trans ?_
  exact run_setPprev hn

theorem run_hlistDelInit (hn : s.isNode n = true) (hm : s.live m = true)
    (hback : s.pprev n = some m) (hnext : ∀ y, s.link (.next n) = some y → s.isNode y = true) :
    (hlistDelInit n).run s = .ok ((), s.unlinkAt m n none none) := by
  have hunhashed : (hlistUnhashed n).run s = .ok (false, s) := by
    rw [hlistUnhashed, Exec.run_bind_of_ok (run_getPprev hn), hback]
    rfl
  rw [hlistDelInit, Exec.run_bind_of_ok hunhashed, if_neg Bool.false_ne_true]
  refine (Exec.run_bind_of_ok (run_hlistDelLinks hn hm hback hnext) _).trans ?_
  refine (Exec.run_bind_of_ok (run_setNext (by exact hn)) _).trans ?_
  exact run_setPprev hn

/-! ## Moving -/

/-- What the head `o` has, on the head `h`. -/
def HlistMem.moveList (s : HlistMem) (o h : Ptr) : HlistMem :=
  { s with
    link := Function.update (Function.update s.link (.first h) (s.link (.first o))) (.first o) none
    pprev := setBack s.pprev (s.link (.first o)) (.first h) }

theorem run_hlistMoveList (ho : s.isHead o = true) (hh : s.isHead h = true)
    (hfirst : ∀ y, s.link (.first o) = some y → s.isNode y = true) :
    (hlistMoveList o h).run s = .ok ((), s.moveList o h) := by
  refine (Exec.run_bind_of_ok (run_getFirst ho) _).trans ?_
  refine (Exec.run_bind_of_ok (run_setFirst hh) _).trans ?_
  refine (Exec.run_bind_of_ok (run_getFirst (by exact hh)) _).trans ?_
  have hself : Function.update s.link (.first h) (s.link (.first o)) (.first h) =
      s.link (.first o) := Function.update_self ..
  refine (congrArg (fun w => (setPprevIf w (some (.first h)) >>= fun _ =>
    setLink (.first o) none).run _) hself).trans ?_
  refine (Exec.run_bind_of_ok (run_setPprevIf (by exact hfirst)) _).trans ?_
  exact run_setFirst ho

end StructLib.Hlist
