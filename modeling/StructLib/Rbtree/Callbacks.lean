import StructLib.Rbtree.Balance

set_option autoImplicit false

/-! # What augment callbacks have to keep

The code of `rbtree.c` calls back after it has changed the shape of a subtree, and the callbacks
change the data of the nodes only. `RotateKeeps` and `AugmentKeeps` say that they keep an assertion
about the tree and the data. The code is then proved once, for all callbacks that keep some
assertion: `rb_insert_color` and `rb_erase` are the case of the dummy callbacks, which keep the data
as a whole (`dummyKeeps`).

In the middle of an erasure the assertion may fail at a few nodes: `I X T data` is the assertion
with exceptions at the nodes in `X`. -/

namespace StructLib.Rbtree

open BinTree Ctx

variable {D : Type}

/-- The nodes of a tree are allocated. -/
def Live (s : RbMem D) (T : BinTree Color) : Prop := ∀ m ∈ T, s.node m ≠ none

theorem Focus.live {s : RbMem D} {fs : Ctx Color} {t : BinTree Color} (h : Focus s fs t) :
    Live s (fs.plug t) :=
  fun _ hm => rbLayout.treeAt_ne_none (focus_plug.2 h).tree hm

/-- Where only nodes of the tree have been written, no node has been freed. -/
theorem Focus.allocated {s s' : RbMem D} {T : BinTree Color} (h : Focus s' .root T)
    (hsame : ∀ m, m ∉ T → s'.node m = s.node m) (m : ℕ) (hm : s.node m ≠ none) :
    s'.node m ≠ none := by
  by_cases hmem : m ∈ T
  · exact h.live m hmem
  · rwa [hsame m hmem]

/-- `rotate` keeps the assertion `I` when `p` takes the place of its parent `g`. It is called once
    the links of `g` are those after the rotation. -/
structure RotateKeeps (rotate : AugmentRotate D) (I : BinTree Color → (ℕ → D) → Prop) : Prop where
  recolor : ∀ {T T' : BinTree Color} {data : ℕ → D}, T.shape = T'.shape → I T data → I T' data
  rotate : ∀ {d : Dir} {a b u : BinTree Color} {p g : ℕ} (c₁ c₂ c₃ c₄ : Color) (fs : Ctx Color)
    {s : RbMem D} {r : RbNode}, s.node g = some r → r.child d = b.root → r.child d.flip = u.root →
    (fs.plug (mk d (mk d a p c₁ b) g c₂ u)).Distinct →
    Live s (fs.plug (mk d (mk d a p c₁ b) g c₂ u)) →
    ∃ data, (rotate (some g) (some p)).run s = .ok ((), { s with data := data }) ∧
      (I (fs.plug (mk d (mk d a p c₁ b) g c₂ u)) s.data →
        I (fs.plug (mk d a p c₃ (mk d b g c₄ u))) data)

/-- The callbacks keep `I []`. `copy` is called when the successor `m` takes the place of `n`,
    `propagate` at the lowest node where the assertion may fail. -/
structure AugmentKeeps (augment : RbAugmentCallbacks D)
    (I : List Ptr → BinTree Color → (ℕ → D) → Prop) : Prop where
  rotate : RotateKeeps augment.rotate (I [])
  recolor : ∀ {X : List Ptr} {T T' : BinTree Color} {data : ℕ → D}, T.shape = T'.shape →
    I X T data → I X T' data
  mono : ∀ {X Y : List Ptr} {T : BinTree Color} {data : ℕ → D},
    (∀ n, some n ∈ X → some n ∈ Y) → I X T data → I Y T data
  unlink : ∀ {d : Dir} {n : ℕ} {c : Color} {b : BinTree Color} {fs : Ctx Color} {data : ℕ → D},
    (fs.plug (mk d .nil n c b)).Distinct → I [] (fs.plug (mk d .nil n c b)) data →
      I [fs.parent none] (fs.plug b) data
  copy : ∀ {l b : BinTree Color} {n m : ℕ} {c cm : Color} (fs gs : Ctx Color) (s : RbMem D),
    (fs.plug (mk .right (gs.plug (mk .left .nil m cm b)) n c l)).Distinct →
    Live s (fs.plug (mk .right (gs.plug (mk .left .nil m cm b)) n c l)) →
    ∃ data, (augment.copy (some n) (some m)).run s = .ok ((), { s with data := data }) ∧
      (I [] (fs.plug (mk .right (gs.plug (mk .left .nil m cm b)) n c l)) s.data →
        I [gs.parent (some m), some m] (fs.plug (mk .right (gs.plug b) m c l)) data)
  propagate : ∀ {b : BinTree Color} (fs : Ctx Color) {gs : Ctx Color} {mid : Ptr} {s : RbMem D},
    rbLayout.CtxAt s.node (fs.parent none) mid b.root gs → (fs.plug (gs.plug b)).Distinct →
    Live s (fs.plug (gs.plug b)) → ∃ data, Returns (fun fuel => augment.propagate fuel
      (gs.parent (fs.parent none))
        (fs.parent none)) s () { s with data := data } ∧
      (I [gs.parent (fs.parent none), fs.parent none] (fs.plug (gs.plug b)) s.data →
        I [fs.parent none] (fs.plug (gs.plug b)) data)

/-- Any assertion about the data alone is kept by the dummy callbacks. -/
theorem dummyKeeps (P : (ℕ → D) → Prop) : AugmentKeeps dummyCallbacks fun _ _ => P where
  rotate := ⟨fun _ h => h, by
    intros
    exact ⟨_, rfl, id⟩⟩
  recolor := fun _ h => h
  mono := fun _ h => h
  unlink := fun _ h => h
  copy := by
    intros
    exact ⟨_, rfl, id⟩
  propagate := by
    intros
    exact ⟨_, .of_run rfl, id⟩

/-! ## Relinked trees -/

/-- `s'` differs from `s` in the nodes of `T` at most, the root pointer and the data, and if the
    assertion `I` holds of `T` before, then of `T'` afterwards. -/
structure Relinked (I : BinTree Color → (ℕ → D) → Prop) (T T' : BinTree Color) (s s' : RbMem D) :
    Prop where
  node : ∀ m, m ∉ T → s'.node m = s.node m
  data : I T s.data → I T' s'.data

section Relinked

variable {I : BinTree Color → (ℕ → D) → Prop} {T T₁ T₂ T' : BinTree Color} {s s₁ s₂ s' : RbMem D}

theorem Relinked.refl (I : BinTree Color → (ℕ → D) → Prop) (T : BinTree Color) (s : RbMem D) :
    Relinked I T T s s := ⟨fun _ _ => rfl, id⟩

theorem Relinked.trans (h : Relinked I T T₁ s s₁) (h' : Relinked I T₁ T' s₁ s')
    (haddrs : T₁.addrs = T.addrs) : Relinked I T T' s s' :=
  ⟨fun m hm => (h'.node m (by rwa [← mem_addrs, haddrs])).trans (h.node m hm),
    fun hI => h'.data (h.data hI)⟩

/-- A relinking that leaves the data alone, seen through an assertion about the data. -/
theorem Relinked.sameOutside (h : Relinked (fun _ data => data = s.data) T T' s s') :
    SameOutside T s s' :=
  ⟨h.data rfl, h.node⟩

end Relinked

/-- The data is not part of the tree. -/
theorem Focus.withData {s : RbMem D} {fs : Ctx Color} {t : BinTree Color} (h : Focus s fs t)
    (data : ℕ → D) : Focus { s with data := data } fs t := ⟨h.tree, h.ctx, h.distinct⟩

/-- The callback after a finished rotation. -/
theorem run_augmentRotate {rotate : AugmentRotate D} {I : BinTree Color → (ℕ → D) → Prop}
    (hrot : RotateKeeps rotate I) {d : Dir} {a b u : BinTree Color} {p g : ℕ} (c₁ c₂ : Color)
    {c₃ c₄ : Color} {fs : Ctx Color} {s : RbMem D} (h : Focus s fs (mk d a p c₃ (mk d b g c₄ u))) :
    ∃ s', (rotate (some g) (some p)).run s = .ok ((), s') ∧
      Focus s' fs (mk d a p c₃ (mk d b g c₄ u)) ∧ s'.node = s.node ∧
      (I (fs.plug (mk d (mk d a p c₁ b) g c₂ u)) s.data →
        I (fs.plug (mk d a p c₃ (mk d b g c₄ u))) s'.data) := by
  have hg := (rbLayout.treeAt_mk.1 (rbLayout.treeAt_mk.1 h.tree).2.2).1
  have hdis : (fs.plug (mk d (mk d a p c₁ b) g c₂ u)).Distinct := by
    have hd := h.distinct
    simp only [distinct_plug, distinct_mk, mem_mk] at hd ⊢
    grind
  have hlive : Live s (fs.plug (mk d (mk d a p c₁ b) g c₂ u)) := by
    intro m hm
    refine h.live m ?_
    simp only [mem_plug, mem_mk] at hm ⊢
    tauto
  obtain ⟨data, hrun, hdata⟩ := hrot.rotate c₁ c₂ c₃ c₄ fs hg (by simp) (by simp) hdis hlive
  exact ⟨_, hrun, h.withData data, rfl, hdata⟩

end StructLib.Rbtree
