import Mathlib.Data.List.Nodup
import Mathlib.Logic.Function.Basic
import Mathlib.Tactic.Common

set_option autoImplicit false

/-! # Circular doubly linked lists

`Links L` are two link functions on some type `L` of locations, and `Links.Ring h xs` says that the
locations `h` and `xs` form a circular list in this order, `prev` undoing `next`. The operations are
what list code does to links in memory: `Links.insertAfter` links a location in after another one,
`Links.remove` takes one out and leaves it linked to itself, `Links.replace` puts one in the place
of another, `Links.splice` moves the contents of one ring into another, `Links.cut` the front of a
ring into a ring of its own. They leave every ring alone that shares no location with those they
change (`Ring.frame`). -/

namespace StructLib

/-- The link fields of all locations. -/
structure Links (L : Type) where
  next : L → L
  prev : L → L

namespace Links

variable {L : Type}

/-- Going from `a` to `b` one meets `xs`, and going back one meets them in reverse. -/
def Seg (k : Links L) (a : L) : List L → L → Prop
  | [], b => k.next a = b ∧ k.prev b = a
  | x :: xs, b => k.next a = x ∧ k.prev x = a ∧ k.Seg x xs b

/-- `h` and `xs` form a circular list. -/
def Ring (k : Links L) (h : L) (xs : List L) : Prop := (h :: xs).Nodup ∧ k.Seg h xs h

variable {k k' : Links L} {a b h g x y z : L} {xs ys : List L}

@[simp] theorem seg_nil : k.Seg a [] b ↔ k.next a = b ∧ k.prev b = a := Iff.rfl

@[simp] theorem seg_cons : k.Seg a (x :: xs) b ↔ k.next a = x ∧ k.prev x = a ∧ k.Seg x xs b := Iff.rfl

theorem seg_append : k.Seg a (xs ++ x :: ys) b ↔ k.Seg a xs x ∧ k.Seg x ys b := by
  induction xs generalizing a with
  | nil => simp [and_assoc]
  | cons y xs ih => simp [ih, and_assoc]

theorem Seg.congr (hs : k.Seg a xs b) (hnext : ∀ y ∈ a :: xs, k'.next y = k.next y)
    (hprev : ∀ y ∈ xs ++ [b], k'.prev y = k.prev y) : k'.Seg a xs b := by
  induction xs generalizing a with
  | nil =>
      obtain ⟨hn, hp⟩ := hs
      exact ⟨(hnext a (by simp)).trans hn, (hprev b (by simp)).trans hp⟩
  | cons x xs ih =>
      obtain ⟨hn, hp, hs⟩ := hs
      exact ⟨(hnext a (by simp)).trans hn, (hprev x (by simp)).trans hp,
        ih hs (fun y hy => hnext y (by simp [List.mem_cons.1 hy]))
          fun y hy => hprev y (List.mem_cons_of_mem x hy)⟩

/-- A segment started from another location. -/
theorem Seg.rehead {a' : L} (hs : k.Seg a xs b) (hn : k'.next a' = xs.headD b)
    (hp : k'.prev (xs.headD b) = a') (hnext : ∀ y ∈ xs, k'.next y = k.next y)
    (hprev : ∀ y ∈ (xs ++ [b]).tail, k'.prev y = k.prev y) : k'.Seg a' xs b := by
  cases xs with
  | nil => exact ⟨hn, hp⟩
  | cons x xs => exact ⟨hn, hp, hs.2.2.congr hnext hprev⟩

theorem Seg.tail_mem (hnd : (xs ++ [b]).Nodup) (hy : y ∈ (xs ++ [b]).tail) :
    y ∈ xs ++ [b] ∧ y ≠ xs.headD b := by
  cases xs with
  | nil => simp at hy
  | cons x xs =>
      refine ⟨List.mem_cons_of_mem x hy, ?_⟩
      rintro rfl
      exact (List.nodup_cons.1 hnd).1 hy

theorem Seg.next_eq (hs : k.Seg a xs b) : k.next a = xs.headD b := by
  cases xs with
  | nil => exact hs.1
  | cons x xs => exact hs.1

theorem Seg.prev_mem (hs : k.Seg a xs b) : k.prev b ∈ a :: xs := by
  induction xs generalizing a with
  | nil => simp [hs.2]
  | cons x xs ih => exact List.mem_cons_of_mem a (ih hs.2.2)

theorem Seg.unique (hs : k.Seg a xs b) (hs' : k.Seg a ys b) (hx : b ∉ xs) (hy : b ∉ ys) :
    xs = ys := by
  induction xs generalizing a ys with
  | nil =>
      cases ys with
      | nil => rfl
      | cons y ys => exact absurd (hs.1.symm.trans hs'.1) fun heq => hy (by simp [heq])
  | cons x xs ih =>
      cases ys with
      | nil => exact absurd (hs'.1.symm.trans hs.1) fun heq => hx (by simp [heq])
      | cons y ys =>
          obtain rfl : x = y := hs.1.symm.trans hs'.1
          rw [ih hs.2.2 hs'.2.2 (fun h => hx (List.mem_cons_of_mem x h))
            fun h => hy (List.mem_cons_of_mem x h)]

/-! ## Rings -/

theorem Ring.nodup (hr : k.Ring h xs) : (h :: xs).Nodup := hr.1

theorem Ring.next_eq (hr : k.Ring h xs) : k.next h = xs.headD h := hr.2.next_eq

theorem Ring.next_mem (hr : k.Ring h xs) : k.next h ∈ h :: xs := by
  rw [hr.next_eq]
  cases xs <;> simp

theorem Ring.next_ne (hr : k.Ring h xs) (hxs : xs ≠ []) : k.next h ≠ h := by
  intro heq
  cases xs with
  | nil => exact hxs rfl
  | cons x xs =>
      obtain rfl : x = h := hr.2.1.symm.trans heq
      exact (List.nodup_cons.1 hr.nodup).1 List.mem_cons_self

theorem Ring.prev_mem (hr : k.Ring h xs) : k.prev h ∈ h :: xs := hr.2.prev_mem

/-- The links determine the ring. -/
theorem Ring.unique (hr : k.Ring h xs) (hr' : k.Ring h ys) : xs = ys :=
  hr.2.unique hr'.2 (List.nodup_cons.1 hr.nodup).1 (List.nodup_cons.1 hr'.nodup).1

theorem ring_nil : k.Ring h [] ↔ k.next h = h ∧ k.prev h = h := by
  simp [Ring]

/-- A ring may be entered anywhere. -/
theorem Ring.rotate (hr : k.Ring h (xs ++ x :: ys)) : k.Ring x (ys ++ h :: xs) := by
  obtain ⟨hnd, hs⟩ := hr
  refine ⟨?_, ?_⟩
  · have hperm : (x :: (ys ++ h :: xs)).Perm (h :: (xs ++ x :: ys)) := by
      rw [← List.cons_append, ← List.cons_append]
      exact List.perm_append_comm
    exact hperm.nodup_iff.2 hnd
  · rw [seg_append] at hs ⊢
    exact hs.symm

/-- The entry before the head is linked to it. -/
theorem Ring.next_prev (hr : k.Ring h xs) : k.next (k.prev h) = h := by
  rcases List.eq_nil_or_concat xs with rfl | ⟨ys, x, rfl⟩
  · obtain ⟨hnext, hprev⟩ := ring_nil.1 hr
    rw [hprev, hnext]
  · rw [List.concat_eq_append] at hr
    obtain ⟨-, hnext, hprev, -⟩ := hr.rotate
    rw [hprev, hnext]

/-- The entry after the head is linked back to it. -/
theorem Ring.prev_next (hr : k.Ring h xs) : k.prev (k.next h) = h := by
  cases xs with
  | nil =>
      obtain ⟨hnext, hprev⟩ := ring_nil.1 hr
      rw [hnext, hprev]
  | cons x xs =>
      obtain ⟨-, hnext, hprev, -⟩ := hr
      rw [hnext, hprev]

theorem Ring.congr (hr : k.Ring h xs) (hnext : ∀ y ∈ h :: xs, k'.next y = k.next y)
    (hprev : ∀ y ∈ h :: xs, k'.prev y = k.prev y) : k'.Ring h xs := by
  refine ⟨hr.nodup, hr.2.congr hnext fun y hy => hprev y ?_⟩
  rcases List.mem_append.1 hy with hy | hy
  · exact List.mem_cons_of_mem h hy
  · simp [List.mem_singleton.1 hy]

theorem Ring.frame (hr : k.Ring h xs)
    (hk : ∀ y ∈ h :: xs, k'.next y = k.next y ∧ k'.prev y = k.prev y) : k'.Ring h xs :=
  hr.congr (fun y hy => (hk y hy).1) fun y hy => (hk y hy).2

/-- In the middle of a ring, the next one comes next. -/
theorem Ring.next_of_mem (hr : k.Ring h (xs ++ x :: ys)) : k.next x = ys.headD h := by
  rw [hr.rotate.next_eq]
  cases ys <;> rfl

theorem Ring.next_mem_of_mem (hr : k.Ring h xs) (hx : x ∈ h :: xs) : k.next x ∈ h :: xs := by
  rcases List.mem_cons.1 hx with rfl | hx
  · exact hr.next_mem
  · obtain ⟨ys, zs, rfl⟩ := List.append_of_mem hx
    rw [hr.next_of_mem]
    cases zs <;> simp

theorem Ring.prev_mem_of_mem (hr : k.Ring h xs) (hx : x ∈ h :: xs) : k.prev x ∈ h :: xs := by
  rcases List.mem_cons.1 hx with rfl | hx
  · exact hr.prev_mem
  · obtain ⟨ys, zs, rfl⟩ := List.append_of_mem hx
    have hmem := hr.rotate.prev_mem
    simp only [List.mem_cons, List.mem_append] at hmem ⊢
    tauto

variable [DecidableEq L]

/-! ## Linking a location in -/

/-- Link `x` in after `h`. -/
def insertAfter (k : Links L) (h x : L) : Links L where
  next := Function.update (Function.update k.next x (k.next h)) h x
  prev := Function.update (Function.update k.prev x h) (k.next h) x

/-- Linking a location in after itself leaves it alone if it was. -/
theorem Ring.insertAfter_self (hr : k.Ring x []) : k.insertAfter x x = k := by
  obtain ⟨hn, hp⟩ := ring_nil.1 hr
  have hnext : Function.update k.next x x = k.next := Function.update_eq_self_iff.2 hn.symm
  have hprev : Function.update k.prev x x = k.prev := Function.update_eq_self_iff.2 hp.symm
  simp [Links.insertAfter, hn, hnext, hprev]

theorem Ring.insertAfter (hr : k.Ring h xs) (hx : x ∉ h :: xs) :
    (k.insertAfter h x).Ring h (x :: xs) := by
  obtain ⟨hxh, hxs⟩ := not_or.1 (List.mem_cons.not.1 hx)
  obtain ⟨hh, hnd⟩ := List.nodup_cons.1 hr.nodup
  refine ⟨?_, ?_, ?_, ?_⟩
  · simp [hh, hnd, hxs, Ne.symm hxh]
  · simp [Links.insertAfter]
  · have hne : x ≠ k.next h := fun heq => hx (heq ▸ hr.next_mem)
    simp [Links.insertAfter, hne]
  · have hn := hr.next_eq
    cases xs with
    | nil => simp_all [Links.insertAfter]
    | cons b xs =>
        obtain ⟨-, -, hs⟩ := hr.2
        have hnb : k.next h = b := hn
        obtain ⟨hb, -⟩ := List.nodup_cons.1 hnd
        refine ⟨by simp [Links.insertAfter, hxh, hnb], by simp [Links.insertAfter, hnb],
          hs.congr (fun y hy => ?_) fun y hy => ?_⟩
        · have hyx : y ≠ x := fun heq => hxs (heq ▸ hy)
          have hyh : y ≠ h := fun heq => hh (heq ▸ hy)
          simp [Links.insertAfter, hyx, hyh]
        · have hyb : y ≠ b := by
            rintro rfl
            rcases List.mem_append.1 hy with hy | hy
            · exact hb hy
            · exact hh (by simp [List.mem_singleton.1 hy])
          have hyx : y ≠ x := by
            rintro rfl
            rcases List.mem_append.1 hy with hy | hy
            · exact hxs (List.mem_cons_of_mem b hy)
            · exact hxh (List.mem_singleton.1 hy)
          simp [Links.insertAfter, hnb, hyb, hyx]

/-- Locations outside the ring keep their links. -/
theorem Ring.insertAfter_frame (hr : k.Ring h xs) (hy : y ∉ h :: xs) (hyx : y ≠ x) :
    (k.insertAfter h x).next y = k.next y ∧ (k.insertAfter h x).prev y = k.prev y := by
  have hyh : y ≠ h := fun heq => hy (by simp [heq])
  have hyn : y ≠ k.next h := fun heq => hy (heq ▸ hr.next_mem)
  simp [Links.insertAfter, hyx, hyh, hyn]

/-- Other rings do not change. -/
theorem Ring.insertAfter_other (hr : k.Ring h xs) (hg : k.Ring g ys)
    (hdis : (h :: xs).Disjoint (g :: ys)) (hx : x ∉ g :: ys) : (k.insertAfter h x).Ring g ys := by
  have hframe : ∀ y ∈ g :: ys,
      (k.insertAfter h x).next y = k.next y ∧ (k.insertAfter h x).prev y = k.prev y :=
    fun y hy => hr.insertAfter_frame (fun hmem => hdis hmem hy) fun heq => hx (heq ▸ hy)
  exact hg.congr (fun y hy => (hframe y hy).1) fun y hy => (hframe y hy).2

/-! ## Taking a location out -/

/-- Link the neighbours of `x` to each other and `x` to itself. -/
def remove (k : Links L) (x : L) : Links L where
  next := Function.update (Function.update k.next (k.prev x) (k.next x)) x x
  prev := Function.update (Function.update k.prev (k.next x) (k.prev x)) x x

theorem ring_remove_self : (k.remove x).Ring x [] := by
  simp [ring_nil, remove]

/-- The last link of a segment that led to `x` leads to `x`'s successor. -/
theorem Seg.remove (hs : k.Seg a xs x) (hnd : (a :: xs).Nodup) (hx : x ∉ a :: xs)
    (hnext : k.next x ∉ xs) (hxn : k.next x ≠ x) : (k.remove x).Seg a xs (k.next x) := by
  induction xs generalizing a with
  | nil =>
      obtain ⟨-, hp⟩ := hs
      have hax : a ≠ x := fun heq => hx (by simp [heq])
      simp [Links.remove, hp, hax, hxn]
  | cons w ws ih =>
      obtain ⟨hn, hp, hs⟩ := hs
      obtain ⟨ha, hnd⟩ := List.nodup_cons.1 hnd
      obtain ⟨hxa, hxw⟩ := not_or.1 (List.mem_cons.not.1 hx)
      obtain ⟨hnw, hnws⟩ := not_or.1 (List.mem_cons.not.1 hnext)
      refine ⟨?_, ?_, ih hs hnd hxw hnws⟩
      · have hap : a ≠ k.prev x := fun heq => ha (heq ▸ hs.prev_mem)
        simp [Links.remove, hn, hap, Ne.symm hxa]
      · have hwx : w ≠ x := fun heq => hxw (by simp [heq])
        simp [Links.remove, hp, Ne.symm hnw, hwx]

theorem Ring.remove_head (hr : k.Ring x (y :: ys)) : (k.remove x).Ring y ys := by
  obtain ⟨hx, hnd⟩ := List.nodup_cons.1 hr.nodup
  obtain ⟨hn, -, hs⟩ := hr.2
  obtain ⟨hy, -⟩ := List.nodup_cons.1 hnd
  have hyx : y ≠ x := fun heq => hx (by simp [heq])
  have hseg := hs.remove hnd hx (by rwa [hn]) (by rwa [hn])
  rw [hn] at hseg
  exact ⟨hnd, hseg⟩

theorem Ring.remove (hr : k.Ring h (xs ++ x :: ys)) : (k.remove x).Ring h (xs ++ ys) := by
  have hrot := hr.rotate
  cases ys with
  | nil => simpa using hrot.remove_head
  | cons y ys => exact Ring.rotate (Ring.remove_head hrot)

/-- Locations outside the ring keep their links. -/
theorem Ring.remove_frame (hr : k.Ring h xs) (hx : x ∈ h :: xs) (hy : y ∉ h :: xs) :
    (k.remove x).next y = k.next y ∧ (k.remove x).prev y = k.prev y := by
  have hyx : y ≠ x := fun heq => hy (heq ▸ hx)
  have hyp : y ≠ k.prev x := fun heq => hy (heq ▸ hr.prev_mem_of_mem hx)
  have hyn : y ≠ k.next x := fun heq => hy (heq ▸ hr.next_mem_of_mem hx)
  simp [Links.remove, hyx, hyp, hyn]

/-- Other rings do not change. -/
theorem Ring.remove_other (hr : k.Ring h xs) (hg : k.Ring g ys)
    (hdis : (h :: xs).Disjoint (g :: ys)) (hx : x ∈ h :: xs) : (k.remove x).Ring g ys := by
  have hframe : ∀ y ∈ g :: ys, (k.remove x).next y = k.next y ∧ (k.remove x).prev y = k.prev y :=
    fun y hy => hr.remove_frame hx fun hmem => hdis hmem hy
  exact hg.congr (fun y hy => (hframe y hy).1) fun y hy => (hframe y hy).2

/-- Link the neighbours of `x` to each other; `x` keeps its links. -/
def unlink (k : Links L) (x : L) : Links L where
  next := Function.update k.next (k.prev x) (k.next x)
  prev := Function.update k.prev (k.next x) (k.prev x)

theorem Ring.unlink (hr : k.Ring h (xs ++ x :: ys)) : (k.unlink x).Ring h (xs ++ ys) := by
  have hx : ∀ y ∈ h :: (xs ++ ys), y ≠ x := by
    rintro y hy rfl
    have hnd : ((h :: xs) ++ y :: ys).Nodup := hr.nodup
    exact (List.nodup_cons.1 (List.nodup_middle.1 hnd)).1 hy
  refine hr.remove.frame fun y hy => ?_
  simp [Links.unlink, Links.remove, hx y hy]

theorem Ring.unlink_frame (hr : k.Ring h xs) (hx : x ∈ h :: xs) (hy : y ∉ h :: xs) :
    (k.unlink x).next y = k.next y ∧ (k.unlink x).prev y = k.prev y := by
  have hyp : y ≠ k.prev x := fun heq => hy (heq ▸ hr.prev_mem_of_mem hx)
  have hyn : y ≠ k.next x := fun heq => hy (heq ▸ hr.next_mem_of_mem hx)
  simp [Links.unlink, hyp, hyn]

/-! ## Putting a location in the place of another -/

/-- Link `y` in where `x` is, and `x` to itself. -/
def replace (k : Links L) (x y : L) : Links L where
  next := Function.update (Function.update (Function.update k.next y (k.next x)) (k.prev x) y) x x
  prev := Function.update (Function.update (Function.update k.prev (k.next x) y) y (k.prev x)) x x

/-- It is linking in after `x` and taking `x` out. -/
theorem Ring.replace_eq (hr : k.Ring x (z :: xs)) (hy : y ∉ x :: z :: xs) :
    k.replace x y = (k.insertAfter x y).remove x := by
  have hyx : y ≠ x := fun heq => hy (by simp [heq])
  have hnx : k.next x ≠ x := hr.next_ne (by simp)
  have hprev : (k.insertAfter x y).prev x = k.prev x := by
    simp [Links.insertAfter, hyx.symm, hnx.symm]
  have hnext : (k.insertAfter x y).next x = y := by simp [Links.insertAfter]
  have hpy : k.prev x ≠ y := fun heq => hy (heq ▸ hr.prev_mem)
  rw [Links.replace, Links.remove, hprev, hnext, Links.mk.injEq]
  constructor
  · funext w
    simp only [Links.insertAfter, Function.update_apply]
    by_cases hwx : w = x <;> simp [hwx]
  · funext w
    simp only [Links.insertAfter, Function.update_apply]
    by_cases hwy : w = y <;> simp [hwy]

theorem Ring.replace (hr : k.Ring h (xs ++ x :: ys)) (hy : y ∉ h :: (xs ++ x :: ys)) :
    (k.replace x y).Ring h (xs ++ y :: ys) := by
  have hrot := hr.rotate
  have hyrot : y ∉ x :: (ys ++ h :: xs) := by
    simp only [List.mem_cons, List.mem_append] at hy ⊢
    tauto
  have hins : (k.replace x y) = (k.insertAfter x y).remove x := by
    cases ys with
    | nil => exact Ring.replace_eq hrot hyrot
    | cons z ys => exact Ring.replace_eq hrot hyrot
  rw [hins]
  have hback : (k.insertAfter x y).Ring h (xs ++ x :: (y :: ys)) := (hrot.insertAfter hyrot).rotate
  exact hback.remove

theorem Ring.replace_frame {w : L} (hr : k.Ring h xs) (hx : x ∈ h :: xs) (hw : w ∉ h :: xs)
    (hwy : w ≠ y) : (k.replace x y).next w = k.next w ∧ (k.replace x y).prev w = k.prev w := by
  have hwx : w ≠ x := fun heq => hw (heq ▸ hx)
  have hwp : w ≠ k.prev x := fun heq => hw (heq ▸ hr.prev_mem_of_mem hx)
  have hwn : w ≠ k.next x := fun heq => hw (heq ▸ hr.next_mem_of_mem hx)
  simp [Links.replace, hwx, hwp, hwn, hwy]

/-! ## Moving the contents of a ring -/

/-- Link what is in the ring of `a` in after `p`; `a` itself keeps its links. -/
def splice (k : Links L) (a p : L) : Links L where
  next := Function.update (Function.update k.next p (k.next a)) (k.prev a) (k.next p)
  prev := Function.update (Function.update k.prev (k.next a) p) (k.next p) (k.prev a)

theorem Ring.splice {p : L} (ha : k.Ring a xs) (hxs : xs ≠ []) (hp : k.Ring p ys)
    (hdis : (a :: xs).Disjoint (p :: ys)) : (k.splice a p).Ring p (xs ++ ys) := by
  obtain ⟨zs, l, rfl⟩ : ∃ zs l, xs = zs ++ [l] := by
    rcases List.eq_nil_or_concat xs with rfl | ⟨zs, l, rfl⟩
    · exact absurd rfl hxs
    · exact ⟨zs, l, List.concat_eq_append⟩
  obtain ⟨hand, haseg⟩ := ha
  obtain ⟨hpnd, hpseg⟩ := hp
  obtain ⟨hzs, hln, hlp⟩ := seg_append.1 haseg
  have hfirst : k.next a = zs.headD l := hzs.next_eq
  have hfirst_mem : zs.headD l ∈ a :: (zs ++ [l]) := by cases zs <;> simp
  have hnext : k.next p = ys.headD p := hpseg.next_eq
  have hnext_mem : ys.headD p ∈ p :: ys := by cases ys <;> simp
  have hl : l ∈ a :: (zs ++ [l]) := by simp
  have hz : ∀ {y}, y ∈ zs → y ∈ a :: (zs ++ [l]) := fun hy => by simp [hy]
  have hzl : ∀ y ∈ zs, y ≠ l := by
    rintro y hy rfl
    simp only [List.nodup_cons, List.nodup_append] at hand
    exact hand.2.2.2 y hy y (by simp) rfl
  refine ⟨?_, ?_⟩
  · have hperm : (p :: ((zs ++ [l]) ++ ys)).Perm ((zs ++ [l]) ++ p :: ys) := List.perm_middle.symm
    rw [hperm.nodup_iff, List.nodup_append']
    exact ⟨(List.nodup_cons.1 hand).2, hpnd, fun y hy => hdis (List.mem_cons_of_mem a hy)⟩
  · have hlast_p : l ≠ p := fun heq => hdis hl (by simp [heq])
    have hfirst_ne : ∀ y ∈ p :: ys, y ≠ zs.headD l := fun y hy heq => hdis hfirst_mem (heq ▸ hy)
    have hlast_ne : ∀ y ∈ p :: ys, y ≠ l := fun y hy heq => hdis hl (heq ▸ hy)
    rw [List.append_assoc, List.singleton_append, seg_append]
    refine ⟨hzs.rehead ?_ ?_ (fun y hy => ?_) fun y hy => ?_, hpseg.rehead ?_ ?_ (fun y hy => ?_)
      fun y hy => ?_⟩
    · change Function.update (Function.update k.next p (k.next a)) (k.prev a) (k.next p) p = _
      rw [hlp, Function.update_of_ne hlast_p.symm, Function.update_self, hfirst]
    · change Function.update (Function.update k.prev (k.next a) p) (k.next p) (k.prev a) _ = _
      rw [hfirst, hnext, Function.update_of_ne (hfirst_ne _ hnext_mem).symm, Function.update_self]
    · change Function.update (Function.update k.next p (k.next a)) (k.prev a) (k.next p) y = _
      rw [hlp, Function.update_of_ne (hzl y hy), Function.update_of_ne]
      rintro rfl
      exact hdis (hz hy) (by simp)
    · obtain ⟨hmem, hne⟩ := Seg.tail_mem (List.nodup_cons.1 hand).2 hy
      change Function.update (Function.update k.prev (k.next a) p) (k.next p) (k.prev a) y = _
      rw [hfirst, hnext, Function.update_of_ne, Function.update_of_ne hne]
      rintro rfl
      exact hdis (List.mem_cons_of_mem a hmem) hnext_mem
    · change Function.update (Function.update k.next p (k.next a)) (k.prev a) (k.next p) l = _
      rw [hlp, Function.update_self, hnext]
    · change Function.update (Function.update k.prev (k.next a) p) (k.next p) (k.prev a) _ = _
      rw [hnext, Function.update_self, hlp]
    · change Function.update (Function.update k.next p (k.next a)) (k.prev a) (k.next p) y = _
      rw [hlp, Function.update_of_ne (hlast_ne y (List.mem_cons_of_mem p hy)),
        Function.update_of_ne]
      rintro rfl
      exact (List.nodup_cons.1 hpnd).1 hy
    · have hpnd' : (ys ++ [p]).Nodup := (List.perm_append_singleton p ys).nodup_iff.2 hpnd
      obtain ⟨hmem, hne⟩ := Seg.tail_mem hpnd' hy
      change Function.update (Function.update k.prev (k.next a) p) (k.next p) (k.prev a) y = _
      rw [hfirst, hnext, Function.update_of_ne hne, Function.update_of_ne (hfirst_ne y _)]
      exact (List.perm_append_singleton p ys).mem_iff.1 hmem

theorem Ring.splice_frame {p : L} (ha : k.Ring a xs) (hp : k.Ring p ys) (hya : y ∉ a :: xs)
    (hyp : y ∉ p :: ys) :
    (k.splice a p).next y = k.next y ∧ (k.splice a p).prev y = k.prev y := by
  have hyn : y ≠ k.next a := fun heq => hya (heq ▸ ha.next_mem)
  have hyl : y ≠ k.prev a := fun heq => hya (heq ▸ ha.prev_mem)
  have hyx : y ≠ k.next p := fun heq => hyp (heq ▸ hp.next_mem)
  have hne : y ≠ p := fun heq => hyp (by simp [heq])
  simp [Links.splice, hyn, hyl, hyx, hne]

/-- Make the part of the ring of `h` up to `e` the ring of `c`. -/
def cut (k : Links L) (c h e : L) : Links L where
  next := Function.update (Function.update (Function.update k.next c (k.next h)) e c) h (k.next e)
  prev := Function.update (Function.update (Function.update k.prev (k.next h) c) c e) (k.next e) h

theorem Ring.cut {c e : L} (hr : k.Ring h (xs ++ e :: ys)) (hc : c ∉ h :: (xs ++ e :: ys)) :
    (k.cut c h e).Ring c (xs ++ [e]) ∧ (k.cut c h e).Ring h ys := by
  obtain ⟨hnd, hseg⟩ := hr
  obtain ⟨hxs, hys⟩ := seg_append.1 hseg
  have hnh : k.next h = xs.headD e := hxs.next_eq
  have hne : k.next e = ys.headD h := hys.next_eq
  obtain ⟨hh, hnd'⟩ := List.nodup_cons.1 hnd
  have hndxs : (xs ++ [e]).Nodup := by
    rw [← List.singleton_append, ← List.append_assoc] at hnd'
    exact (List.nodup_append'.1 hnd').1
  have hndys : (ys ++ [h]).Nodup := by
    refine (List.perm_append_singleton h ys).nodup_iff.2 (List.nodup_cons.2 ⟨fun hy => ?_, ?_⟩)
    · exact hh (by simp [hy])
    · exact (List.nodup_cons.1 (List.nodup_append'.1 hnd').2.1).2
  -- the two parts share no location
  have hdis : ∀ y ∈ xs ++ [e], ∀ z ∈ ys ++ [h], y ≠ z := by
    rintro y hy z hz rfl
    simp only [List.mem_append, List.mem_singleton] at hy hz
    rcases hz with hz | rfl
    · have hdisj := List.nodup_append'.1 (List.append_assoc xs [e] ys ▸ hnd')
      exact hdisj.2.2 (List.mem_append.2 (by simpa using hy)) hz
    · refine hh ?_
      rcases hy with hy | rfl
      · simp [hy]
      · simp
  have hfirst : xs.headD e ∈ xs ++ [e] := by cases xs <;> simp
  have hsecond : ys.headD h ∈ ys ++ [h] := by cases ys <;> simp
  have hcx : ∀ y ∈ xs ++ [e], y ≠ c := by
    rintro y hy rfl
    simp only [List.mem_append, List.mem_cons] at hy hc
    tauto
  have hcy : ∀ y ∈ ys ++ [h], y ≠ c := by
    rintro y hy rfl
    simp only [List.mem_append, List.mem_cons] at hy hc
    tauto
  have hnext : ∀ y, (k.cut c h e).next y =
      Function.update (Function.update (Function.update k.next c (xs.headD e)) e c) h (ys.headD h) y :=
    fun y => by rw [Links.cut, hnh, hne]
  have hprev : ∀ y, (k.cut c h e).prev y =
      Function.update (Function.update (Function.update k.prev (xs.headD e) c) c e) (ys.headD h) h y :=
    fun y => by rw [Links.cut, hnh, hne]
  have heh : e ≠ h := hdis e (by simp) h (by simp)
  have hce : c ≠ e := (hcx e (by simp)).symm
  have hch : c ≠ h := (hcy h (by simp)).symm
  have hmemx : ∀ y ∈ xs, y ∈ xs ++ [e] := fun y hy => by simp [hy]
  have hmemy : ∀ y ∈ ys, y ∈ ys ++ [h] := fun y hy => by simp [hy]
  refine ⟨⟨?_, ?_⟩, ⟨?_, ?_⟩⟩
  · exact List.nodup_cons.2 ⟨fun hmem => hcx c hmem rfl, hndxs⟩
  · refine seg_append.2 ⟨hxs.rehead ?_ ?_ (fun y hy => ?_) fun y hy => ?_, ?_, ?_⟩
    · rw [hnext, Function.update_of_ne hch, Function.update_of_ne hce, Function.update_self]
    · rw [hprev, Function.update_of_ne (hdis _ hfirst _ hsecond),
        Function.update_of_ne (hcx _ hfirst), Function.update_self]
    · have hye : y ≠ e := by
        rintro rfl
        exact List.disjoint_of_nodup_append hndxs hy (by simp)
      rw [hnext, Function.update_of_ne (hdis y (hmemx y hy) h (by simp)), Function.update_of_ne hye,
        Function.update_of_ne (hcx y (hmemx y hy))]
    · obtain ⟨hmem, hney⟩ := Seg.tail_mem hndxs hy
      rw [hprev, Function.update_of_ne (hdis y hmem _ hsecond), Function.update_of_ne (hcx y hmem),
        Function.update_of_ne hney]
    · rw [hnext, Function.update_of_ne heh, Function.update_self]
    · rw [hprev, Function.update_of_ne (hcy _ hsecond).symm, Function.update_self]
  · exact (List.perm_append_singleton h ys).nodup_iff.1 hndys
  · refine hys.rehead ?_ ?_ (fun y hy => ?_) fun y hy => ?_
    · rw [hnext, Function.update_self]
    · rw [hprev, Function.update_self]
    · have hyh : y ≠ h := by
        rintro rfl
        exact List.disjoint_of_nodup_append hndys hy (by simp)
      rw [hnext, Function.update_of_ne hyh,
        Function.update_of_ne (hdis e (by simp) y (hmemy y hy)).symm,
        Function.update_of_ne (hcy y (hmemy y hy))]
    · obtain ⟨hmem, hney⟩ := Seg.tail_mem hndys hy
      rw [hprev, Function.update_of_ne hney, Function.update_of_ne (hcy y hmem),
        Function.update_of_ne (hdis _ hfirst y hmem).symm]

theorem Ring.cut_frame {c e : L} (hr : k.Ring h xs) (he : e ∈ h :: xs) (hy : y ∉ h :: xs)
    (hyc : y ≠ c) : (k.cut c h e).next y = k.next y ∧ (k.cut c h e).prev y = k.prev y := by
  have hyh : y ≠ h := fun heq => hy (by simp [heq])
  have hye : y ≠ e := fun heq => hy (heq ▸ he)
  have hyn : y ≠ k.next h := fun heq => hy (heq ▸ hr.next_mem)
  have hyx : y ≠ k.next e := fun heq => hy (heq ▸ hr.next_mem_of_mem he)
  simp [Links.cut, hyh, hye, hyn, hyx, hyc]

end Links

end StructLib
