import StructLib.Avltree.Links
import Mathlib.Data.Set.Basic

set_option autoImplicit false

/-! # Programs confined to a set of nodes

A rotation moves child links around and makes no new ones: in a set of nodes whose links do not
leave the set it stays there, and links to nothing outside it (`keeps_rebalance`). This holds in any
memory, so what has once become unreachable stays so. The contents of a node never change, whatever
the removal does (`keeps_remove`). -/

namespace StructLib.Avl

/-- A link to a node of `C`, or NULL. -/
def LinkIn (C : Set ℕ) (p : Ptr) : Prop := ∀ n, p = some n → n ∈ C

/-- The links of the nodes in `C` do not leave `C`. -/
def Closed (L : Cells LinkCell) (C : Set ℕ) : Prop :=
  ∀ n ∈ C, ∀ c, L n = some c → LinkIn C c.2.1 ∧ LinkIn C c.2.2

/-- The links of the nodes in `C` do not leave `C`, outside it memory is `h₀`, and every node has
    the contents it has there. -/
structure Confined (C : Set ℕ) (h₀ h : Cells AvlEntry) : Prop where
  intro ::
  closed : Closed (links h) C
  kept : ∀ n c, links h n = some c → ∃ c₀, links h₀ n = some c₀ ∧ c₀.1 = c.1
  same : ∀ n, n ∉ C → h n = h₀ n

section Confined

variable {C : Set ℕ} {h₀ : Cells AvlEntry} {top p q tree : Ptr}

theorem linkIn_some {n : ℕ} : LinkIn C (some n) ↔ n ∈ C :=
  ⟨fun h => h n rfl, by rintro h _ ⟨⟩; exact h⟩

/-- `x` stays in `C` and does not assign the root variable, which is `top`. -/
abbrev KeepsIn {α : Type} (C : Set ℕ) (h₀ : Cells AvlEntry) (top : Ptr) (x : Exec AvlMem α)
    (Q : α → Prop) : Prop :=
  Exec.Keeps (fun s => Confined C h₀ s.heap ∧ s.newRoot = top) x Q

/-! ## Accesses -/

theorem keeps_load (hp : LinkIn C p) :
    KeepsIn C h₀ top (load p) fun r => LinkIn C r.left ∧ LinkIn C r.right := by
  intro s r s' hI hrun
  cases p with
  | none => cases hrun
  | some n =>
      rw [run_load, atEntry] at hrun
      cases hn : s.heap n with
      | none => rw [hn] at hrun; cases hrun
      | some c =>
          rw [hn] at hrun
          obtain ⟨rfl, rfl⟩ : c = r ∧ s = s' := by simpa using hrun
          exact ⟨hI, hI.1.closed n (hp n rfl) _ (by rw [links, hn]; rfl)⟩

theorem keeps_modifyEntry {f : AvlEntry → AvlEntry} (hp : LinkIn C p)
    (hf : ∀ r, (f r).payload = r.payload ∧
      (LinkIn C r.left → LinkIn C r.right → LinkIn C (f r).left ∧ LinkIn C (f r).right)) :
    KeepsIn C h₀ top (modifyEntry p f) fun _ => True := by
  rintro s r s' ⟨hI, htop⟩ hrun
  cases p with
  | none => cases hrun
  | some n =>
      rw [run_modifyEntry, atEntry] at hrun
      cases hn : s.heap n with
      | none => rw [hn] at hrun; cases hrun
      | some c =>
          rw [hn] at hrun
          obtain ⟨-, rfl⟩ : () = r ∧ _ = s' := by simpa using hrun
          have hlinks : links s.heap n = some (c.payload, c.left, c.right) := by rw [links, hn]; rfl
          obtain ⟨hl, hr⟩ := hI.closed n (hp n rfl) _ hlinks
          have hself : links (Function.update s.heap n (some (f c))) n =
              some ((f c).payload, (f c).left, (f c).right) := by simp [links]
          have hother : ∀ m, m ≠ n → links (Function.update s.heap n (some (f c))) m =
              links s.heap m := fun m hmn => by simp [links, hmn]
          refine ⟨⟨⟨fun m hm cell hcell => ?_, fun m cell hcell => ?_, fun m hm => ?_⟩, htop⟩, trivial⟩
          · by_cases hmn : m = n
            · subst hmn
              obtain rfl := Option.some_inj.1 (hself.symm.trans hcell)
              exact (hf c).2 hl hr
            · exact hI.closed m hm cell ((hother m hmn).symm.trans hcell)
          · by_cases hmn : m = n
            · subst hmn
              obtain rfl := Option.some_inj.1 (hself.symm.trans hcell)
              obtain ⟨c₀, hc₀, heq⟩ := hI.kept m _ hlinks
              exact ⟨c₀, hc₀, heq.trans (hf c).1.symm⟩
            · exact hI.kept m cell ((hother m hmn).symm.trans hcell)
          · have hmn : m ≠ n := by
              rintro rfl
              exact hm (hp m rfl)
            exact (Function.update_of_ne hmn ..).trans (hI.same m hm)

theorem keeps_setParent (hp : LinkIn C p) : KeepsIn C h₀ top (setParent p q) fun _ => True :=
  keeps_modifyEntry hp fun _ => ⟨rfl, fun hl hr => ⟨hl, hr⟩⟩

theorem keeps_setHeight {k : ℤ} (hp : LinkIn C p) : KeepsIn C h₀ top (setHeight p k) fun _ => True :=
  keeps_modifyEntry hp fun _ => ⟨rfl, fun hl hr => ⟨hl, hr⟩⟩

theorem keeps_setChild {d : Dir} (hp : LinkIn C p) (hq : LinkIn C q) :
    KeepsIn C h₀ top (setChild d p q) fun _ => True := by
  refine keeps_modifyEntry hp fun r => ?_
  cases d
  · exact ⟨rfl, fun _ hr => ⟨hq, hr⟩⟩
  · exact ⟨rfl, fun hl _ => ⟨hl, hq⟩⟩

theorem keeps_getHeight (hp : LinkIn C p) : KeepsIn C h₀ top (getHeight p) fun _ => True := by
  cases p with
  | none => exact .pure trivial
  | some n => exact (keeps_load hp).bind fun _ _ => .pure trivial

theorem keeps_adopt (hp : LinkIn C p) : KeepsIn C h₀ top (adopt p q) fun _ => True := by
  cases p with
  | none => exact .pure trivial
  | some n => exact keeps_setParent hp

theorem linkIn_child {r : AvlEntry} (d : Dir) (h : LinkIn C r.left ∧ LinkIn C r.right) :
    LinkIn C (r.child d) := by
  cases d
  · exact h.1
  · exact h.2

/-! ## Rotations -/

theorem keeps_heightOfChildren (htree : LinkIn C tree) :
    KeepsIn C h₀ top (heightOfChildren tree) fun _ => True :=
  (keeps_load htree).bind fun _ hr => (keeps_getHeight hr.1).bind fun _ _ =>
    (keeps_load htree).bind fun _ hr => (keeps_getHeight hr.2).bind fun _ _ => .pure trivial

theorem keeps_setRotatedHeights {d : Dir} (htree : LinkIn C tree) (hp : LinkIn C p) :
    KeepsIn C h₀ top (setRotatedHeights (·.child d) tree p) fun _ => True :=
  (keeps_heightOfChildren htree).bind fun _ _ => (keeps_setHeight htree).bind fun _ _ =>
    (keeps_load hp).bind fun _ hr => (keeps_getHeight (linkIn_child d hr)).bind fun _ _ =>
      (keeps_load htree).bind fun _ _ => keeps_setHeight hp

theorem keeps_rotateWith {d : Dir} {moved : Ptr → Ptr → Exec AvlMem Ptr} (htree : LinkIn C tree)
    (hmoved : ∀ root, LinkIn C root → KeepsIn C h₀ top (moved tree root) (LinkIn C)) :
    KeepsIn C h₀ top (rotateWith d moved tree) (LinkIn C) := by
  refine (keeps_load htree).bind fun r hr => ?_
  have hroot := linkIn_child d hr
  exact (keeps_load htree).bind fun _ _ => (keeps_setParent hroot).bind fun _ _ =>
    (keeps_setParent htree).bind fun _ _ => (hmoved _ hroot).bind fun q hq =>
      (keeps_setChild htree hq).bind fun _ _ => (keeps_load htree).bind fun _ hr' =>
        (keeps_adopt (linkIn_child d hr')).bind fun _ _ => (keeps_setChild hroot htree).bind fun _ _ =>
          (keeps_setRotatedHeights htree hroot).bind fun _ _ => .pure hroot

theorem keeps_llRotate (htree : LinkIn C tree) : KeepsIn C h₀ top (llRotate tree) (LinkIn C) := by
  rw [llRotate_eq]
  exact keeps_rotateWith htree fun root hroot => (keeps_load hroot).bind fun r hr => .pure hr.2

theorem keeps_rrRotate (htree : LinkIn C tree) : KeepsIn C h₀ top (rrRotate tree) (LinkIn C) := by
  rw [rrRotate_eq]
  exact keeps_rotateWith htree fun root hroot => (keeps_load htree).bind fun r hr => .pure hr.1

theorem keeps_rotateOuter (d : Dir) (htree : LinkIn C tree) :
    KeepsIn C h₀ top (rotateOuter d tree) (LinkIn C) := by
  cases d
  · exact keeps_llRotate htree
  · exact keeps_rrRotate htree

theorem keeps_rotateInner (d : Dir) (htree : LinkIn C tree) :
    KeepsIn C h₀ top (rotateInner d tree) (LinkIn C) := by
  cases d
  · exact (keeps_rrRotate htree).bind fun _ h => keeps_llRotate h
  · exact (keeps_llRotate htree).bind fun _ h => keeps_rrRotate h

theorem keeps_rotateDeep (d : Dir) (htree : LinkIn C tree) :
    KeepsIn C h₀ top (rotateDeep d tree) (LinkIn C) := by
  refine (keeps_load htree).bind fun r hr => ?_
  have hdeep := linkIn_child d hr
  refine (keeps_load hdeep).bind fun r' hr' => (keeps_getHeight (linkIn_child d hr')).bind fun outer _ =>
    (keeps_load hdeep).bind fun r'' hr'' => (keeps_getHeight (linkIn_child d.flip hr'')).bind
      fun inner _ => ?_
  by_cases hlt : outer > inner
  · rw [if_pos hlt]
    exact keeps_rotateOuter d htree
  · rw [if_neg hlt]
    exact keeps_rotateInner d htree

/-- Rebalancing stays in the set. -/
theorem keeps_rebalance (htree : LinkIn C tree) :
    KeepsIn C h₀ top (rebalanceAvlTree tree) (LinkIn C) := by
  refine (keeps_load htree).bind fun r hr => (keeps_getHeight hr.1).bind fun lh _ =>
    (keeps_load htree).bind fun r' hr' => (keeps_getHeight hr'.2).bind fun rh _ => ?_
  by_cases hleft : lh - rh = 2
  · rw [if_pos hleft]
    exact keeps_rotateDeep .left htree
  · rw [if_neg hleft]
    by_cases hright : lh - rh = -2
    · rw [if_pos hright]
      exact keeps_rotateDeep .right htree
    · rw [if_neg hright]
      exact .pure htree

end Confined

/-! ## The contents of the nodes -/

section Contents

variable {h₀ : Cells AvlEntry} {top p : Ptr}

theorem linkIn_univ (p : Ptr) : LinkIn Set.univ p := fun _ _ => trivial

theorem keeps_unlinkEntry : KeepsIn Set.univ h₀ top (unlinkEntry p) fun _ => True := by
  have hset : ∀ d q q', KeepsIn Set.univ h₀ top (setChild d q q') fun _ => True := fun d q q' =>
    keeps_setChild (linkIn_univ q) (linkIn_univ q')
  refine (keeps_load (linkIn_univ p)).bind fun r _ => ?_
  by_cases hl : r.left.isSome
  · rw [if_pos hl]
    exact hset _ _ _
  · rw [if_neg hl]
    by_cases hr : r.right.isSome
    · rw [if_pos hr]
      exact hset _ _ _
    · rw [if_neg hr]
      refine (keeps_load (linkIn_univ _)).bind fun q _ => ?_
      by_cases hq : q.left = p
      · rw [if_pos hq]
        exact hset _ _ _
      · rw [if_neg hq]
        exact hset _ _ _

theorem keeps_free (n : ℕ) : KeepsIn Set.univ h₀ top
    (modify fun s => { s with heap := Function.update s.heap n none }) fun _ => True := by
  rintro s a s' ⟨hI, htop⟩ hrun
  obtain ⟨-, rfl⟩ : () = a ∧ { s with heap := Function.update s.heap n none } = s' := by
    simpa using hrun
  refine ⟨⟨⟨fun _ _ _ _ => ⟨linkIn_univ _, linkIn_univ _⟩, fun m c hc => ?_,
    fun m hm => absurd trivial hm⟩, htop⟩, trivial⟩
  by_cases hmn : m = n
  · subst hmn
    simp [links] at hc
  · have hother : links (Function.update s.heap n none) m = links s.heap m := by simp [links, hmn]
    exact hI.kept m c (hother.symm.trans hc)

theorem keeps_replaceEntry {q : Ptr} : KeepsIn Set.univ h₀ top (replaceEntry p q) fun _ => True :=
  (keeps_setParent (linkIn_univ q)).bind fun _ _ => (keeps_load (linkIn_univ p)).bind fun _ _ =>
    (keeps_setChild (linkIn_univ q) (linkIn_univ _)).bind fun _ _ =>
      (keeps_load (linkIn_univ p)).bind fun _ _ =>
        (keeps_setChild (linkIn_univ q) (linkIn_univ _)).bind fun _ _ => keeps_free _

/-- `x` keeps the contents of the nodes. -/
abbrev KeepsContents {α : Type} (h₀ : Cells AvlEntry) (x : Exec AvlMem α) (Q : α → Prop) : Prop :=
  Exec.Keeps (fun s => Confined Set.univ h₀ s.heap) x Q

theorem keepsContents {α : Type} {x : Exec AvlMem α} {Q : α → Prop}
    (hx : ∀ top, KeepsIn Set.univ h₀ top x Q) : KeepsContents h₀ x Q :=
  .of_forall hx fun s => ⟨s.newRoot, rfl⟩

theorem keeps_write (slot : Slot) : KeepsContents h₀ (slot.write p) fun _ => True := by
  cases slot with
  | root =>
      intro s a s' hI hrun
      obtain ⟨-, rfl⟩ : () = a ∧ { s with newRoot := p } = s' := by simpa [Slot.write] using hrun
      exact ⟨hI, trivial⟩
  | child q d => exact keepsContents fun _ => keeps_setChild (linkIn_univ q) (linkIn_univ p)

theorem keeps_outermostEntry (d : Dir) (fuel : ℕ) :
    KeepsIn Set.univ h₀ top (outermostEntry d fuel p) fun _ => True := by
  have hloop : ∀ p, KeepsIn Set.univ h₀ top (outermostLoop d fuel p) fun _ => True := by
    induction fuel with
    | zero => exact fun _ => .error
    | succ fuel ih =>
        refine fun p => (keeps_load (linkIn_univ p)).bind fun r _ => ?_
        by_cases hnext : (r.child d).isSome
        · rw [if_pos hnext]
          exact ih _
        · rw [if_neg hnext]
          exact .pure trivial
  cases p with
  | none => exact .pure trivial
  | some n => exact hloop _

theorem keeps_replacement {fuel : ℕ} (t : AvlEntry) :
    KeepsIn Set.univ h₀ top (replacement fuel t) fun _ => True := by
  refine (keeps_outermostEntry .left fuel).bind fun newRoot _ => ?_
  by_cases hnew : newRoot.isNone
  · rw [if_pos hnew]
    exact keeps_outermostEntry .right fuel
  · rw [if_neg hnew]
    exact .pure trivial

/-- A removal changes no node's contents. -/
theorem keeps_remove (key : UInt32) (fuel : ℕ) (tree : Ptr) (slot : Option Slot) :
    KeepsContents h₀ (removeAvlEntry key fuel tree slot) fun _ => True := by
  induction fuel generalizing tree slot with
  | zero => exact .error
  | succ fuel ih =>
      have hdone : ∀ tree (slot : Slot), KeepsContents h₀ (do
          slot.write (← rebalanceAvlTree tree)
          return (0 : ℤ)) fun _ => True := fun tree slot =>
        (keepsContents fun _ => keeps_rebalance (linkIn_univ tree)).bind fun _ _ =>
          (keeps_write slot).bind fun _ _ => .pure trivial
      cases slot with
      | none => exact .pure trivial
      | some slot =>
          cases tree with
          | none => exact .pure trivial
          | some n =>
              refine (keepsContents fun _ => keeps_load (linkIn_univ _)).bind fun t _ => ?_
              by_cases hkey : key = t.minKey
              · rw [if_pos hkey]
                refine (keepsContents fun _ => keeps_replacement t).bind fun newRoot _ => ?_
                by_cases hnew : newRoot.isNone
                · rw [if_pos hnew]
                  exact (keeps_write slot).bind fun _ _ => .pure trivial
                · rw [if_neg hnew]
                  exact (keepsContents fun _ => keeps_unlinkEntry).bind fun _ _ =>
                    (keepsContents fun _ => keeps_replaceEntry).bind fun _ _ => hdone newRoot slot
              · rw [if_neg hkey]
                refine (ih _ _).bind fun ret _ => ?_
                by_cases hret : ret ≠ 0
                · rw [if_pos hret]
                  exact .pure trivial
                · rw [if_neg hret]
                  exact hdone _ slot

end Contents

end StructLib.Avl
