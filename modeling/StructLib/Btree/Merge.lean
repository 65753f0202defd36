import StructLib.Btree.Memory
import StructLib.Btree.Refine

set_option autoImplicit false

/-! # Merging two B+trees

`btree_merge` moves the entries of `victim` to `target`, the greatest key first. Where an allocation
fails it stops, and every entry is in one of the two trees. -/

namespace StructLib.Btree

variable {w : ℕ}

/-! ## Two trees in one memory -/

/-- The head of another tree. -/
def BtreeMem.withHead (s : BtreeMem w) (head : BitVec w × ℕ) : BtreeMem w :=
  { s with node := head.1, height := head.2 }

/-- Two trees have come into a memory that held the nodes `others` before. -/
structure Holding₂ (geo : Geo) (bot : ℕ) (others : BitVec w → Option (Node w)) (s : TwoHeads w)
    (as bs : List (BitVec w)) (es fs : List (ℕ × BitVec w)) : Prop where
  target : Holding geo bot (s.withHead s.target) as es
  victim : Holding geo bot (s.withHead s.victim) bs fs
  apart : ∀ a ∈ as, a ∉ bs
  owns : Owns others (s.withHead s.target) (as ++ bs)

section Pair

variable {geo : Geo} {bot : ℕ} {others : BitVec w → Option (Node w)} {s : TwoHeads w}
  {as as' bs : List (BitVec w)} {es es' fs fs' : List (ℕ × BitVec w)} {α : Type} {r : α}
  {m m' : BtreeMem w} {head : BitVec w × ℕ}

/-- A tree next to the one that changes. -/
theorem Holding.beside (h : Holding geo bot (m.withHead head) bs fs) (hs : Moves as as' m m')
    (hnull : m'.nodes 0 = none) (hapart : ∀ a ∈ as, a ∉ bs) :
    Holding geo bot (m'.withHead head) bs fs ∧ ∀ a ∈ as', a ∉ bs := by
  have halloc : ∀ a ∈ bs, m.nodes a ≠ none := h.allocated
  constructor
  · refine h.of_same ?_ hnull rfl rfl
    intro a ha
    exact hs.agree a (fun hmem => hapart a hmem ha) (halloc a ha)
  · intro a ha hmem
    exact (hs.new a ha).elim (fun h => hapart a h hmem) (halloc a hmem)

theorem returns_onTarget {f : ℕ → Exec (BtreeMem w) α} (h : Returns f (s.withHead s.target) r m) :
    Returns (fun fuel => onTarget (f fuel)) s r (s.setTarget m) := by
  unfold onTarget
  exact Returns.onPart h

theorem returns_onVictim {f : ℕ → Exec (BtreeMem w) α} (h : Returns f (s.withHead s.victim) r m) :
    Returns (fun fuel => onVictim (f fuel)) s r (s.setVictim m) := by
  unfold onVictim
  exact Returns.onPart h

/-- A call for `target`. -/
theorem Holding₂.on_target (h : Holding₂ geo bot others s as bs es fs)
    (hs : Moves as as' (s.withHead s.target) m) (h' : Holding geo bot m as' es') :
    Holding₂ geo bot others (s.setTarget m)
      as' bs es' fs := by
  have hvictim : Holding geo bot ((s.withHead s.target).withHead s.victim) bs fs := h.victim
  obtain ⟨hvictim', hapart⟩ := hvictim.beside hs h'.null h.apart
  refine ⟨h', hvictim', hapart, ?_⟩
  exact h.owns.of_moves ((hs.append bs).congr (by simp [or_comm]) (by simp [or_comm]))

/-- A call for `victim`. -/
theorem Holding₂.on_victim {bs' : List (BitVec w)} (h : Holding₂ geo bot others s as bs es fs)
    (hs : Moves bs bs' (s.withHead s.victim) m) (h' : Holding geo bot m bs' fs') :
    Holding₂ geo bot others (s.setVictim m)
      as bs' es fs' := by
  have htarget : Holding geo bot ((s.withHead s.victim).withHead s.target) as es := h.target
  obtain ⟨htarget', hapart⟩ := htarget.beside hs h'.null fun a ha hmem => h.apart a hmem ha
  refine ⟨htarget', h', fun a ha hmem => hapart a hmem ha, ?_⟩
  have howns : Owns others (s.withHead s.victim) (as ++ bs) := ⟨h.owns.fresh, h.owns.rest⟩
  exact howns.of_moves ((hs.append as).of_nodes_eq rfl)

end Pair

/-! ## The loop -/

section Merge

variable {geo : Geo} {bot : ℕ} {others : BitVec w → Option (Node w)} {s : TwoHeads w}
  {as bs : List (BitVec w)} {es fs : List (ℕ × BitVec w)}

theorem mergeTrees_below (geo : Geo) (fuel : ℕ) :
    Exec.Below (mergeTrees geo fuel : Exec (TwoHeads w) ℤ) (mergeTrees geo (fuel + 1)) := by
  induction fuel with
  | zero => exact Exec.below_outOfFuel _
  | succ fuel ih =>
      conv_lhs => unfold mergeTrees
      conv_rhs => unfold mergeTrees
      refine .bind_right _ fun last => (Exec.Below.refl _).ite (.bind_right _ fun val => ?_)
      refine (btreeInsert_below geo _ _ fuel).onPart.bind fun err => ?_
      refine (Exec.Below.refl _).ite ((Exec.Below.onPart ?_).bind fun _ => ih)
      exact .bind_right _ fun m => (Exec.Below.refl _).ite (btreeRemoveLevel_below geo fuel _ 1)

theorem btreeMerge_below (geo : Geo) (fuel : ℕ) :
    Exec.Below (btreeMerge geo fuel : Exec (TwoHeads w) ℤ) (btreeMerge geo (fuel + 1)) :=
  .bind_right _ fun _ => (Exec.Below.refl _).ite (mergeTrees_below geo fuel)

/-- What the loop leaves: the entries `ms` have moved. -/
def Merged (geo : Geo) (bot : ℕ) (others : BitVec w → Option (Node w)) (es fs : List (ℕ × BitVec w))
    (r : ℤ) (s : TwoHeads w) : Prop :=
  ∃ as bs es' fs' ms, Holding₂ geo bot others s as bs es' fs' ∧ fs = ms ++ fs' ∧
    es'.Perm (es ++ ms) ∧ (r = 0 ∧ fs' = [] ∨ r = -ENOMEM)

theorem Holding₂.exists_returns_mergeTrees (h : Holding₂ geo bot others s as bs es fs)
    (heven : geo.noPairs % 2 = 0) (hkeys : ∀ e ∈ es, ∀ f ∈ fs, e.1 ≠ f.1) : ∃ r s',
      Returns (fun fuel => mergeTrees geo fuel) s r s' ∧ Merged geo bot others es fs r s' := by
  induction fs generalizing s as bs es with
  | nil =>
      obtain ⟨key, hlast, -⟩ := h.victim.exists_run_btreeLast
      have hret := returns_onVictim (Returns.of_run hlast)
      refine ⟨0, s, Returns.of_succ (hret.bind ⟨0, fun fuel _ => ?_⟩), as, bs, es, [], [], h, rfl, by simp,
        .inl ⟨rfl, rfl⟩⟩
      dsimp only
      rw [List.head?_nil, Option.map_none, Option.getD_none, if_pos rfl]
      rfl
  | cons f fs ih =>
      obtain ⟨key, hlast, hkey⟩ := h.victim.exists_run_btreeLast
      obtain ⟨l, rfl, hlen, hl⟩ := hkey f rfl
      have hw := h.victim.within
      have hval : f.2 ≠ 0 := h.victim.value_ne_zero f (by simp)
      have hf : f = (wordsVal l, f.2) := by rw [hl]
      have hw' : Within bot (2 ^ (w * geo.keylen)) ([] ++ (wordsVal l, f.2) :: fs) := by
        rw [← hf]
        exact hw
      obtain ⟨-, hbelow⟩ := hw'.around
      have hlookup := h.victim.run_btreeLookup hlen
      have hfind : findKey (wordsVal l) (f :: fs) = some f.2 := by
        rw [hf]
        have hnil : ∀ e ∈ ([] : List (ℕ × BitVec w)), wordsVal l < e.1 := by simp
        exact findKey_eq hnil
      rw [hfind] at hlookup
      have habs : ∀ e ∈ es, e.1 ≠ wordsVal l := fun e he => hl ▸ hkeys e he f (by simp)
      have hbot : bot ≤ wordsVal l := hl ▸ hw.le_key f (by simp)
      obtain ⟨r, m, as', hinsert, hmoves, hcase⟩ := h.target.exists_returns_insert hlen hbot hval habs
      have hret₁ := returns_onVictim (Returns.of_run hlast)
      have hret₂ := returns_onVictim (Returns.of_run hlookup)
      have hret₃ := returns_onTarget hinsert
      -- up to the insertion
      have hstart : ∀ {r' s'}, Returns (fun fuel => do
          let err ← onTarget (btreeInsert geo fuel l f.2)
          if err ≠ 0 then return err
          else
            let _ ← onVictim (btreeRemove geo fuel l)
            mergeTrees geo fuel) s r' s' → Returns (fun fuel => mergeTrees geo fuel) s r' s' := by
        intro r' s' hrest
        refine Returns.of_succ (hret₁.bind ?_)
        dsimp only
        simp only [List.head?_cons, Option.map_some, Option.getD_some, if_neg hval]
        exact hret₂.bind hrest
      rcases hcase with ⟨rfl, htarget⟩ | ⟨rfl, htarget⟩
      · have h₁ := h.on_target hmoves htarget
        have hmem : (wordsVal l, f.2) ∈ f :: fs := by
          rw [← hf]
          exact List.mem_cons_self
        obtain ⟨m', bs', hremove, hmoves', hvictim⟩ :=
          h₁.victim.exists_returns_remove hlen hmem (.inl heven)
        have herase : eraseKey (wordsVal l) (f :: fs) = fs := by
          have hnil : ∀ e ∈ ([] : List (ℕ × BitVec w)), wordsVal l < e.1 := by simp
          have := eraseKey_eq (v := f.2) hnil hbelow
          rwa [← hf] at this
        rw [herase] at hvictim
        have hperm := perm_insertKey (wordsVal l) f.2 es
        have hkeys' : ∀ e ∈ insertKey (wordsVal l) f.2 es, ∀ g ∈ fs, e.1 ≠ g.1 := by
          intro e he g hg
          rcases List.mem_append.1 (hperm.mem_iff.1 he) with he | he
          · exact hkeys e he g (List.mem_cons_of_mem _ hg)
          · rw [List.mem_singleton.1 he]
            exact (hbelow g hg).ne'
        obtain ⟨r, s', hret, as₂, bs₂, es', fs', ms, h₂, rfl, hms, hr⟩ :=
          ih (h₁.on_victim hmoves' hvictim) hkeys'
        refine ⟨r, s', hstart (hret₃.bind ?_), as₂, bs₂, es', fs', f :: ms, h₂, rfl, ?_, hr⟩
        · simp only [ne_eq, not_true_eq_false, if_false]
          exact (returns_onVictim hremove).bind hret
        · refine hms.trans ((hperm.append_right ms).trans ?_)
          rw [← hf, List.append_assoc]
          rfl
      · refine ⟨-ENOMEM, _, hstart (hret₃.bind (Returns.of_run rfl)), as', bs, es, f :: fs, [],
          h.on_target hmoves htarget, rfl, by simp, .inr rfl⟩

/-- Two empty trees. -/
def noTrees (pool : List (BitVec 64)) : TwoHeads 64 := ⟨(0, 0), (0, 0), fun _ => none, pool⟩

theorem holding₂_noTrees (geo : Geo) (bot : ℕ) (pool : List (BitVec 64)) :
    Holding₂ geo bot (fun _ => none) (noTrees pool) [] [] [] [] :=
  ⟨.empty rfl rfl rfl, .empty rfl rfl rfl, by simp, by simp, fun _ _ => rfl⟩

end Merge

end StructLib.Btree
