import StructLib.Avltree.Ascend

set_option autoImplicit false

/-! # Rotations that go wrong

After a removal below, three of the four rotations are wrong in most cases: a subtree is dropped, or
two links are to one node. The way up repairs neither of the two (`Broken.up`). A subtree that
cannot be reached stays so whatever is rotated above it. Two links to one node come with a stored
height that keeps the calls above from rotating; in one case only after one more step (`Twisted`).
-/

namespace StructLib.Avl

open BinTree

/-! ## Wrong outcomes -/

/-- A node of the tree other than the removed one. -/
def Kept (key : UInt32) (t : Tree) (y : ℕ) : Prop := ∃ e ∈ t.records, e.1 = y ∧ e.2.minKey ≠ key

/-- The link of the node `y` on the side `d`. -/
def linkAt (h : Cells AvlEntry) (y : ℕ) (d : Dir) : Ptr :=
  (links h y).bind fun c => match d with
    | .left => c.2.1
    | .right => c.2.2

/-- Two links of nodes other than the removed one are to one node. -/
def Linked (key : UInt32) (t : Tree) (h : Cells AvlEntry) : Prop :=
  ∃ y₁ d₁ y₂ d₂ z, Kept key t y₁ ∧ Kept key t y₂ ∧ linkAt h y₁ d₁ = some z ∧
    linkAt h y₂ d₂ = some z ∧ (y₁, d₁) ≠ (y₂, d₂)

/-- There are such links, and the height stored at `r` is the old one. -/
structure Doubled (key : UInt32) (t : Tree) (r : Ptr) (h : Cells AvlEntry) : Prop where
  intro ::
  enclosed : ∃ C, Enclosed t C r h
  linked : Linked key t h
  live : ∀ j, r = some j → links h j ≠ none
  height : topHeight (heights h) r = (t.depth : ℤ) - 1

/-- There are such links, at `n` and `j`, and the height stored at `n` is one more than before. -/
structure Twisted (key : UInt32) (t : Tree) (n m j : ℕ) (h : Cells AvlEntry) : Prop where
  intro ::
  enclosed : ∃ C, Enclosed t C (some n) h
  linked : Linked key t h
  depth : t.depth = 4
  cell : ∃ v, links h n = some (v, some m, some j)
  live : links h m ≠ none ∧ links h j ≠ none
  mem : m ∈ t ∧ j ∈ t
  ne : m ≠ n ∧ j ≠ n
  height : heights h n = 4 ∧ heights h m = 2 ∧ heights h j = 3

/-- Called for `t`, the removal does not return, or what it leaves cannot become right on the way
    up. -/
inductive Broken (key : UInt32) (s : AvlMem) (t : Tree) : Prop
  | faults (hF : Faults key s t)
  | lost {r : Ptr} {h : Cells AvlEntry} (hL : Leaves key s t r h) (hlost : Lost key t r h)
  | doubled {r : Ptr} {h : Cells AvlEntry} (hL : Leaves key s t r h) (hD : Doubled key t r h)
  | twisted {n m j : ℕ} {h : Cells AvlEntry} (hL : Leaves key s t (some n) h)
      (hT : Twisted key t n m j h)

section Kept

variable {key : UInt32} {a b t t' : Tree} {d : Dir} {n y : ℕ} {v : Payload × ℤ}
  {h h' : Cells AvlEntry}

theorem Kept.mem (hy : Kept key t y) : y ∈ t := by
  obtain ⟨e, he, heq, -⟩ := hy
  exact mem_iff_records.2 ⟨e, he, heq⟩

theorem Kept.mk_left (hy : Kept key a y) : Kept key (mk d a n v b) y := by
  obtain ⟨e, he, heq⟩ := hy
  exact ⟨e, mem_records_mk.2 (.inl he), heq⟩

theorem kept_mk_self (hv : v.1.minKey ≠ key) : Kept key (mk d a n v b) n :=
  ⟨(n, v.1), mem_records_mk.2 (.inr (.inl rfl)), rfl, hv⟩

theorem kept_mk_right (hb : ∀ e ∈ b.records, e.2.minKey ≠ key) (hy : y ∈ b) :
    Kept key (mk d a n v b) y := by
  obtain ⟨e, he, rfl⟩ := mem_iff_records.1 hy
  exact ⟨e, mem_records_mk.2 (.inr (.inr he)), rfl, hb e he⟩

theorem Linked.mk_left (hl : Linked key a h) (hsame : ∀ y ∈ a, h' y = h y) :
    Linked key (mk d a n v b) h' := by
  obtain ⟨y₁, d₁, y₂, d₂, z, hy₁, hy₂, hz₁, hz₂, hne⟩ := hl
  have hat : ∀ y d, y ∈ a → linkAt h' y d = linkAt h y d := by
    intro y d hy
    rw [linkAt, linkAt, links_congr (hsame y hy)]
  exact ⟨y₁, d₁, y₂, d₂, z, hy₁.mk_left, hy₂.mk_left, (hat y₁ d₁ hy₁.mem).trans hz₁,
    (hat y₂ d₂ hy₂.mem).trans hz₂, hne⟩

/-- What holds of a tree's links to nodes does so after a program that is confined to it. -/
theorem Confined.enclosed {C : Set ℕ} {r : Ptr} (hC : Confined C h h') (hsub : ∀ y ∈ C, y ∈ t)
    (hr : LinkIn C r) : Enclosed t C r h' := ⟨hsub, hC.closed, hr⟩

end Kept

/-! ## One level up -/

section Level

variable {key : UInt32} {s : AvlMem} {p r : Ptr} {d : Dir} {a b : Tree} {n m j : ℕ}
  {v : Payload × ℤ} {h₁ h : Cells AvlEntry} {k : ℤ} {T : BinTree Payload} {C : Set ℕ}

/-- The node and its sibling come to what is reached. -/
theorem Back.confined (hA : AvlAt s p (mk d a n v b)) (hB : Back key s d a n v b r h₁ h)
    (hE : Enclosed a C r h₁) : Confined {y | y ∈ C ∨ y = n ∨ y ∈ b} h h := by
  obtain ⟨hna, -⟩ := distinct_mk.1 hA.distinct
  have hmono : ∀ {q : Ptr}, LinkIn C q → LinkIn {y | y ∈ C ∨ y = n ∨ y ∈ b} q :=
    fun hq i hi => .inl (hq i hi)
  refine ⟨?_, fun y c hc => ⟨c, hc, rfl⟩, fun _ _ => rfl⟩
  rintro y (hy | rfl | hy) c hc
  · have hyn : y ≠ n := by
      rintro rfl
      exact hna (hE.sub y hy)
    obtain ⟨hl, hr⟩ := hE.closed y hy c ((links_congr (hB.below y hyn)).symm.trans hc)
    exact ⟨hmono hl, hmono hr⟩
  · obtain rfl := Option.some_inj.1 (hB.cell.symm.trans hc)
    have hb : LinkIn {i | i ∈ C ∨ i = y ∨ i ∈ b} b.root := fun i hi => .inr (.inr (mem_of_root hi))
    cases d
    · exact ⟨hmono hE.start, hb⟩
    · exact ⟨hb, hmono hE.start⟩
  · exact linkIn_of_treeAt (treeAt_links (q := none) hB.sibling)
      (fun i hi => .inr (.inr (mem_strip.1 hi))) (mem_strip.2 hy) hc

theorem Enclosed.sub_mk (hE : Enclosed a C r h₁) :
    ∀ y ∈ {y | y ∈ C ∨ y = n ∨ y ∈ b}, y ∈ mk d a n v b := by
  rintro y (hy | rfl | hy)
  · exact mem_mk.2 (.inr (.inl (hE.sub y hy)))
  · exact mem_mk.2 (.inl rfl)
  · exact mem_mk.2 (.inr (.inr hy))

/-- Nothing else can be reached after the rebalancing. -/
theorem Back.reached {q : Ptr} {s' : AvlMem} (hA : AvlAt s p (mk d a n v b))
    (hB : Back key s d a n v b r h₁ h) (hE : Enclosed a C r h₁)
    (hreb : (rebalanceAvlTree (some n)).run { s with heap := h } = .ok (q, s')) :
    s'.newRoot = s.newRoot ∧ Leaves key s (mk d a n v b) q s'.heap ∧
      Enclosed (mk d a n v b) {y | y ∈ C ∨ y = n ∨ y ∈ b} q s'.heap := by
  have hkeeps : KeepsIn {y | y ∈ C ∨ y = n ∨ y ∈ b} h s.newRoot (rebalanceAvlTree (some n)) _ :=
    keeps_rebalance (linkIn_some.2 (.inr (.inl rfl)))
  obtain ⟨⟨hC, htop⟩, hq⟩ := hkeeps { s with heap := h } _ _ ⟨hB.confined hA hE, rfl⟩ hreb
  have hs' : s' = { s with heap := s'.heap } := by rw [← htop]
  rw [hs'] at hreb
  exact ⟨htop, hB.leaves hreb fun y hy => hC.same y fun hmem => hy (hE.sub_mk y hmem),
    hC.enclosed hE.sub_mk hq⟩

/-- What cannot be reached stays so. -/
theorem Lost.up (hA : AvlAt s p (mk d a n v b)) (hd : Descends key v.1 d)
    (hL : Leaves key s a r h₁) (hlost : Lost key a r h₁) : Broken key s (mk d a n v b) := by
  obtain ⟨C, hE, e, he, hkey, heC⟩ := hlost
  obtain ⟨h, hB⟩ := hL.back hA hd
  obtain ⟨hna, -, -, -, hab⟩ := distinct_mk.1 hA.distinct
  have hea : e.1 ∈ a := Kept.mem ⟨e, he, rfl, hkey⟩
  cases hreb : (rebalanceAvlTree (some n)).run { s with heap := h } with
  | error e => exact .faults (hB.faults hreb)
  | ok res =>
      obtain ⟨q, s'⟩ := res
      obtain ⟨-, hL', hE'⟩ := hB.reached hA hE hreb
      refine .lost hL' ⟨_, hE', e, mem_records_mk.2 (.inl he), hkey, ?_⟩
      rintro (hmem | heq | hmem)
      · exact heC hmem
      · exact hna (heq ▸ hea)
      · exact hab e.1 hea hmem

/-- No rotation unless the heights stored at the two children differ by two. -/
theorem Back.run_even (hA : AvlAt s p (mk d a n v b)) (hB : Back key s d a n v b r h₁ h)
    (hmem : LinkIn {y | y ∈ a} r) (hlive : ∀ j, r = some j → links h₁ j ≠ none)
    (hne : (b.depth : ℤ) - 1 ≠ topHeight (heights h₁) r + 2)
    (hne' : topHeight (heights h₁) r ≠ (b.depth : ℤ) - 1 + 2) :
    (rebalanceAvlTree (some n)).run { s with heap := h } = .ok (some n, { s with heap := h }) := by
  obtain ⟨hna, -⟩ := distinct_mk.1 hA.distinct
  have hbelow : ∀ j, r = some j → h j = h₁ j := fun j hj => hB.below j fun heq =>
    hna (heq ▸ hmem j hj)
  have htopr : topHeight (heights h) r = topHeight (heights h₁) r := by
    cases hr : r with
    | none => rfl
    | some j => exact heights_congr (hbelow j hr)
  have htopb := topHeight_root hB.sibling (measured_mk.1 hA.measured).2.2
  have hsib : linkLayout.TreeAt (links h) none (strip b) := treeAt_links hB.sibling
  rw [run_rebalance_side (s := { s with heap := h }) hB.cell
    (fun j hj => by change links h j ≠ none; rw [links_congr (hbelow j hj)]; exact hlive j hj)
    fun j hj => links_root_ne_none hsib j (by rw [root_strip, hj])]
  change (if topHeight (heights h) b.root - topHeight (heights h) r = 2 then _
    else if topHeight (heights h) r - topHeight (heights h) b.root = 2 then _
    else _ : Exec AvlMem Ptr).run _ = _
  rw [htopb, htopr, if_neg (by omega), if_neg (by omega)]
  rfl

/-- Without a rotation the old height is there again. -/
theorem Back.doubled (hA : AvlAt s p (mk d a n v b)) (hB : Back key s d a n v b r h₁ h)
    (hE : Enclosed a C r h₁) (hl : Linked key a h₁)
    (hreb : (rebalanceAvlTree (some n)).run { s with heap := h } = .ok (some n, { s with heap := h })) :
    Broken key s (mk d a n v b) := by
  obtain ⟨hna, -⟩ := distinct_mk.1 hA.distinct
  refine .doubled (hB.leaves hreb fun _ _ => rfl) ⟨⟨_, (hB.confined hA hE).enclosed hE.sub_mk
    (linkIn_some.2 (.inr (.inl rfl)))⟩, ?_, ?_, hB.height⟩
  · exact hl.mk_left fun y hy => hB.below y fun heq => hna (heq ▸ hy)
  · rintro _ ⟨⟩
    rw [hB.cell]
    simp

theorem Doubled.up (hA : AvlAt s p (mk d a n v b)) (hd : Descends key v.1 d)
    (hL : Leaves key s a r h₁) (hD : Doubled key a r h₁) : Broken key s (mk d a n v b) := by
  obtain ⟨C, hE⟩ := hD.enclosed
  obtain ⟨h, hB⟩ := hL.back hA hd
  obtain ⟨hab, hba, -⟩ := balanced_mk.1 hA.balanced
  have hheight := hD.height
  exact hB.doubled hA hE hD.linked (hB.run_even hA (fun j hj => hE.sub j (hE.start j hj)) hD.live
    (by omega) (by omega))

end Level

/-! ## Wrong rotations -/

/-- A node of a closed set gets other links. -/
theorem closed_update {L : Cells LinkCell} {C : Set ℕ} {m : ℕ} {x : LinkCell}
    (hC : ∀ k ∈ C, k ≠ m → ∀ c, L k = some c → LinkIn C c.2.1 ∧ LinkIn C c.2.2)
    (hx : LinkIn C x.2.1 ∧ LinkIn C x.2.2) : Closed (Function.update L m (some x)) C := by
  intro k hk c hc
  by_cases hkm : k = m
  · subst hkm
    rw [Function.update_self] at hc
    obtain rfl := Option.some_inj.1 hc
    exact hx
  · rw [Function.update_of_ne hkm] at hc
    exact hC k hk hkm c hc

section Rotations

variable {key : UInt32} {s : AvlMem} {p r : Ptr} {d : Dir} {a b₁ b₂ : Tree} {n m j : ℕ}
  {v w : Payload × ℤ} {x : Payload} {h₁ h : Cells AvlEntry} {k : ℤ} {T c e : BinTree Payload}

theorem Right.kept (hR : Right key a T k r h₁) {y : ℕ} (hy : y ∈ T) : Kept key a y := by
  obtain ⟨e, he, rfl⟩ := List.mem_map.1 (mem_addrs.2 hy)
  rw [hR.entries] at he
  obtain ⟨hmem, hkey⟩ := List.mem_filter.1 he
  exact ⟨e, hmem, rfl, by simpa using hkey⟩

theorem Right.distinct (hR : Right key a T k r h₁) (ha : a.Distinct) : T.Distinct := by
  have hsub : T.addrs.Sublist a.addrs := by
    rw [addrs, hR.entries, ← map_fst_records]
    exact List.filter_sublist.map _
  exact hsub.nodup ha

theorem Lost.of_kept {t : Tree} {C : Set ℕ} {y : ℕ} (hE : Enclosed t C r h) (hy : Kept key t y)
    (hyC : y ∉ C) : Lost key t r h := by
  obtain ⟨e, he, rfl, hkey⟩ := hy
  exact ⟨C, hE, e, he, hkey, hyC⟩

theorem inner_ne_nil (hb : (node b₁ m w b₂).Balanced) (hdepth : 3 ≤ (node b₁ m w b₂).depth) :
    b₁ ≠ nil := by
  intro hnil
  subst hnil
  have hle := hb.2.1
  rw [depth_node] at hdepth
  simp only [depth_nil] at hdepth hle
  omega

/-- With nothing on the side `d`, the first half of a double rotation follows the NULL link there.
    -/
theorem Right.faults (hA : AvlAt s p (mk d a n v (node b₁ m w b₂)))
    (hB : Back key s d a n v (node b₁ m w b₂) r h₁ h) (hR : Right key a nil k r h₁)
    (hk : ((node b₁ m w b₂).depth : ℤ) - 1 = k + 2)
    (hheavy : ¬ (sub d.flip b₁ b₂).depth > (sub d b₁ b₂).depth) :
    Faults key s (mk d a n v (node b₁ m w b₂)) := by
  have hRB := hB.right hA hR
  have hrun := hRB.run_deep (hB.sibling_at hA) hk
  rw [if_neg hheavy] at hrun
  cases d
  · exact hB.faults (hrun.trans (run_rlRotate_none (s := { s with heap := h }) hRB.cell))
  · exact hB.faults (hrun.trans (run_lrRotate_none (s := { s with heap := h }) hRB.cell))

/-- A double rotation to the right drops the subtree `c`. -/
theorem Right.up_lr (hA : AvlAt s p (mk .right a n v (node b₁ m w b₂)))
    (hB : Back key s .right a n v (node b₁ m w b₂) r h₁ h)
    (hR : Right key a (node c j x e) k r h₁) (hk : ((node b₁ m w b₂).depth : ℤ) - 1 = k + 2)
    (hheavy : ¬ b₂.depth < b₁.depth) :
    ∃ h', Leaves key s (mk .right a n v (node b₁ m w b₂)) (some n) h' ∧
      Enclosed (mk .right a n v (node b₁ m w b₂))
        {y | y = n ∨ y = j ∨ y ∈ node b₁ m w b₂ ∨ y ∈ e} (some n) h' ∧
      links h' = Function.update (links h) j (some (x, some m, e.root)) ∧
      heights h' n = max (topHeight (heights h) (some m))
        (max (topHeight (heights h) (some m)) (topHeight (heights h) e.root) + 1) + 1 ∧
      heights h' j = max (topHeight (heights h) (some m)) (topHeight (heights h) e.root) + 1 ∧
      heights h' m = heights h m := by
  have hRB := hB.right hA hR
  have hS := hB.sibling_at hA
  obtain ⟨hmn, hnT, hmT, -, -, -, -⟩ := hA.apart hRB.mem
  obtain ⟨hna, hnb, -, hdb, hab⟩ := distinct_mk.1 hA.distinct
  obtain ⟨-, hje, -⟩ := distinct_node.1 (hR.distinct hA.sub.distinct)
  simp only [mem_node, not_or] at hnT hmT
  have hcell : links h n = some (v.1, some m, some j) := hRB.cell
  have hjb : j ∉ node b₁ m w b₂ := hab j (hRB.mem j (by simp))
  have hjcell := hRB.layout.1
  have helse : Elsewhere h n j (some m) := by
    rintro i ⟨⟩
    exact ⟨by rw [hS.cell]; simp, hmn, hmT.1⟩
  have helse' := elsewhere_root hRB.layout.2.2 hnT.2.2 hje
  obtain ⟨h', k', hrun, hl, hk', hhn, hhj, hh, hsame⟩ := run_lrRotate_links
    (s := { s with heap := h }) (Ne.symm hnT.1) hcell hjcell helse helse'.beside
  obtain rfl := hk' helse'.ne.2
  have hreb : (rebalanceAvlTree (some n)).run { s with heap := h } =
      .ok (some n, { s with heap := h' }) := by
    rw [hRB.run_deep hS hk, if_neg (by simpa using hheavy)]
    exact hrun
  refine ⟨h', hB.leaves hreb fun y hy => ?_, ⟨?_, ?_, linkIn_some.2 (.inl rfl)⟩, hl, hhn, hhj,
    hh m hmn hmT.1⟩
  · simp only [mem_mk, mem_node, not_or] at hy
    refine hsame y hy.1 (fun hyj => hy.2.1 (hyj ▸ hRB.mem j (by simp))) ?_
    rintro ⟨⟩
    exact hy.2.2.1 rfl
  · rintro y (rfl | rfl | hy | hy)
    · exact mem_mk.2 (.inl rfl)
    · exact mem_mk.2 (.inr (.inl (hRB.mem _ (by simp))))
    · exact mem_mk.2 (.inr (.inr hy))
    · exact mem_mk.2 (.inr (.inl (hRB.mem y (by simp [hy]))))
  · rw [hl]
    refine closed_update ?_ ⟨linkIn_some.2 (by simp), fun i hi => .inr (.inr (.inr (mem_of_root hi)))⟩
    rintro y (rfl | rfl | hy | hy) hyj cell hc
    · obtain rfl := Option.some_inj.1 (hcell.symm.trans hc)
      exact ⟨linkIn_some.2 (by simp), linkIn_some.2 (by simp)⟩
    · exact absurd rfl hyj
    · exact linkIn_of_treeAt (treeAt_links (q := none) hB.sibling)
        (fun i hi => .inr (.inr (.inl (mem_strip.1 hi)))) (mem_strip.2 hy) hc
    · exact linkIn_of_treeAt hRB.layout.2.2 (fun i hi => .inr (.inr (.inr hi))) hy hc

theorem Right.lost_lr (hA : AvlAt s p (mk .right a n v (node b₁ m w b₂)))
    (hB : Back key s .right a n v (node b₁ m w b₂) r h₁ h)
    (hR : Right key a (node c j x e) k r h₁) (hk : ((node b₁ m w b₂).depth : ℤ) - 1 = k + 2)
    (hheavy : ¬ b₂.depth < b₁.depth) (hc : c ≠ nil) :
    Broken key s (mk .right a n v (node b₁ m w b₂)) := by
  obtain ⟨h', hL, hE, -⟩ := hR.up_lr hA hB hk hheavy
  obtain ⟨hna, -, hda, -, hab⟩ := distinct_mk.1 hA.distinct
  obtain ⟨hjc, -, -, -, hce⟩ := distinct_node.1 (hR.distinct hda)
  obtain ⟨i, hic⟩ := exists_mem hc
  have hkept : Kept key a i := hR.kept (by simp [hic])
  refine .lost hL (.of_kept hE hkept.mk_left ?_)
  rintro (rfl | rfl | hmem | hmem)
  · exact hna hkept.mem
  · exact hjc hic
  · exact hab i hkept.mem hmem
  · exact hce i hic hmem

/-- With one leaf left the double rotation to the right loses nothing. -/
theorem Right.twisted (hA : AvlAt s p (mk .right a n v (node b₁ m w b₂)))
    (hd : Descends key v.1 .right) (hB : Back key s .right a n v (node b₁ m w b₂) r h₁ h)
    (hR : Right key a (node nil j x nil) 0 r h₁) (ha : a.depth = 2)
    (hdepth : (node b₁ m w b₂).depth = 3) (hheavy : ¬ b₂.depth < b₁.depth) :
    Broken key s (mk .right a n v (node b₁ m w b₂)) := by
  have hRB := hB.right hA hR
  have hS := hB.sibling_at hA
  obtain ⟨h', hL, hE, hl, hhn, hhj, hhm⟩ := hR.up_lr hA hB (by omega) hheavy
  obtain ⟨hmn, hnT, hmT, -, -, -, -⟩ := hA.apart hRB.mem
  simp only [mem_node, not_or] at hnT hmT
  have hkept : Kept key a j := hR.kept (by simp)
  have htop : topHeight (heights h) (some m) = 2 := by
    rw [hS.top, hdepth]
    rfl
  have hn : links h' n = some (v.1, some m, some j) := by
    rw [hl, Function.update_of_ne hnT.1]
    exact hRB.cell
  have hj : links h' j = some (x, some m, none) := by rw [hl, Function.update_self, root_nil]
  have hm : links h' m = some (w.1, b₁.root, b₂.root) := by
    rw [hl, Function.update_of_ne hmT.1]
    exact hS.cell
  refine .twisted (m := m) (j := j) hL ⟨⟨_, hE⟩, ⟨n, .left, j, .left, m, kept_mk_self hd.1.symm,
    hkept.mk_left, ?_, ?_, ?_⟩, ?_, ⟨v.1, hn⟩, ⟨?_, ?_⟩, ⟨?_, hkept.mk_left.mem⟩,
    ⟨hmn, Ne.symm hnT.1⟩, ?_, ?_, ?_⟩
  · rw [linkAt, hn]
    rfl
  · rw [linkAt, hj]
    rfl
  · intro heq
    exact hnT.1 (congrArg Prod.fst heq)
  · rw [depth_mk, ha, hdepth]
    rfl
  · rw [hm]
    simp
  · rw [hj]
    simp
  · exact mem_mk.2 (.inr (.inr (by simp)))
  · rw [hhn, htop]
    rfl
  · rw [hhm, ← topHeight_some (heights h), htop]
  · rw [hhj, htop]
    rfl

/-- A single rotation to the left drops the inner subtree of the sibling. -/
theorem Right.lost_rr (hA : AvlAt s p (mk .left a n v (node b₁ m w b₂)))
    (hB : Back key s .left a n v (node b₁ m w b₂) r h₁ h) (hR : Right key a T k r h₁)
    (hb : ∀ e ∈ (node b₁ m w b₂).records, e.2.minKey ≠ key)
    (hk : ((node b₁ m w b₂).depth : ℤ) - 1 = k + 2) (hk₀ : 0 ≤ k) (hheavy : b₁.depth < b₂.depth) :
    Broken key s (mk .left a n v (node b₁ m w b₂)) := by
  have hRB := hB.right hA hR
  have hS := hB.sibling_at hA
  obtain ⟨hmn, hnT, hmT, ⟨hn₁, hm₁⟩, ⟨hn₂, hm₂⟩, hTb, h₁₂⟩ := hA.apart hRB.mem
  obtain ⟨h', hrun, hl, -, hsame⟩ := run_rrRotate_links (s := { s with heap := h }) hmn hRB.cell hS.cell
    (root_strip b₂ ▸ elsewhere_root hS.right hn₂ hm₂).beside (links_root_ne_none hRB.layout)
  have hreb : (rebalanceAvlTree (some n)).run { s with heap := h } =
      .ok (some m, { s with heap := h' }) := by
    rw [hRB.run_deep hS hk, if_pos (by simpa using hheavy)]
    exact hrun
  have hE : Enclosed (mk .left a n v (node b₁ m w b₂)) {y | y = n ∨ y = m ∨ y ∈ T ∨ y ∈ b₂} (some m)
      h' := by
    refine ⟨?_, ?_, linkIn_some.2 (.inr (.inl rfl))⟩
    · rintro y (rfl | rfl | hy | hy)
      · exact mem_mk.2 (.inl rfl)
      · exact mem_mk.2 (.inr (.inr (by simp)))
      · exact mem_mk.2 (.inr (.inl (hRB.mem y hy)))
      · exact mem_mk.2 (.inr (.inr (by simp [hy])))
    · rw [hl]
      refine closed_update (fun y hy hym => ?_)
        ⟨linkIn_some.2 (.inl rfl), fun i hi => .inr (.inr (.inr (mem_of_root hi)))⟩
      by_cases hyn : y = n
      · subst hyn
        rw [Function.update_self]
        rintro _ ⟨⟩
        have hroot : LinkIn {i | i = y ∨ i = m ∨ i ∈ T ∨ i ∈ b₂} T.root :=
          fun i hi => .inr (.inr (.inl (mem_of_root hi)))
        exact ⟨hroot, hroot⟩
      · rw [Function.update_of_ne hyn]
        intro cell hc
        rcases hy with rfl | rfl | hy | hy
        · exact absurd rfl hyn
        · exact absurd rfl hym
        · exact linkIn_of_treeAt hRB.layout (fun i hi => .inr (.inr (.inl hi))) hy hc
        · exact linkIn_of_treeAt hS.right (fun i hi => .inr (.inr (.inr (mem_strip.1 hi))))
            (mem_strip.2 hy) hc
  obtain ⟨i, hib⟩ := exists_mem (inner_ne_nil (balanced_mk.1 hA.balanced).2.2.2 (by omega))
  have hkept : Kept key (mk .left a n v (node b₁ m w b₂)) i := kept_mk_right hb (by simp [hib])
  refine .lost (hB.leaves hreb fun y hy => ?_) (.of_kept hE hkept ?_)
  · simp only [mem_mk, mem_node, not_or] at hy
    exact hsame y hy.1 hy.2.2.1 fun hroot => hy.2.1 (hRB.mem y (mem_of_root hroot))
  · rintro (rfl | rfl | hmem | hmem)
    · exact hn₁ (mem_strip.2 hib)
    · exact hm₁ (mem_strip.2 hib)
    · exact (hTb i hmem).1 (mem_strip.2 hib)
    · exact h₁₂ i (mem_strip.2 hib) (mem_strip.2 hmem)

/-- A double rotation to the left drops the subtree `e` and links to `c` twice. -/
theorem Right.up_rl_wrong (hA : AvlAt s p (mk .left a n v (node b₁ m w b₂)))
    (hB : Back key s .left a n v (node b₁ m w b₂) r h₁ h)
    (hR : Right key a (node c j x e) k r h₁) (hk : ((node b₁ m w b₂).depth : ℤ) - 1 = k + 2)
    (hheavy : ¬ b₁.depth < b₂.depth) :
    ∃ h', Leaves key s (mk .left a n v (node b₁ m w b₂)) (some n) h' ∧
      Enclosed (mk .left a n v (node b₁ m w b₂))
        {y | y = n ∨ y = j ∨ y ∈ node b₁ m w b₂ ∨ y ∈ c} (some n) h' ∧
      links h' = Function.update (links h) j (some (x, c.root, c.root)) ∧
      heights h' n = max (topHeight (heights h) (some m)) (topHeight (heights h) c.root + 1) + 1 := by
  have hRB := hB.right hA hR
  have hS := hB.sibling_at hA
  obtain ⟨hmn, hnT, hmT, -, -, -, -⟩ := hA.apart hRB.mem
  obtain ⟨hjc, hje, -⟩ := distinct_node.1 (hR.distinct hA.sub.distinct)
  simp only [mem_node, not_or] at hnT hmT
  have hcell : links h n = some (v.1, some j, some m) := hRB.cell
  obtain ⟨hjcell, htc, hte⟩ := hRB.layout
  have helse : Elsewhere h n j (some m) := by
    rintro i ⟨⟩
    exact ⟨by rw [hS.cell]; simp, hmn, hmT.1⟩
  obtain ⟨h', hrun, hl, hhn, -, -, hsame⟩ := run_rlRotate_links (s := { s with heap := h })
    (Ne.symm hnT.1) hcell hjcell (elsewhere_root htc hnT.2.1 hjc)
    (links_root_ne_none hte) helse
  have hreb : (rebalanceAvlTree (some n)).run { s with heap := h } =
      .ok (some n, { s with heap := h' }) := by
    rw [hRB.run_deep hS hk, if_neg (by simpa using hheavy)]
    exact hrun
  refine ⟨h', hB.leaves hreb fun y hy => ?_, ⟨?_, ?_, linkIn_some.2 (.inl rfl)⟩, hl, hhn⟩
  · simp only [mem_mk, not_or] at hy
    refine hsame y hy.1 (fun hyj => hy.2.1 (hyj ▸ hRB.mem j (by simp)))
      (fun hroot => ?_) fun hroot => ?_
    · exact hy.2.1 (hRB.mem y (by simp [mem_of_root hroot]))
    · exact hy.2.1 (hRB.mem y (by simp [mem_of_root hroot]))
  · rintro y (rfl | rfl | hy | hy)
    · exact mem_mk.2 (.inl rfl)
    · exact mem_mk.2 (.inr (.inl (hRB.mem _ (by simp))))
    · exact mem_mk.2 (.inr (.inr hy))
    · exact mem_mk.2 (.inr (.inl (hRB.mem y (by simp [hy]))))
  · rw [hl]
    refine closed_update ?_ ⟨fun i hi => .inr (.inr (.inr (mem_of_root hi))),
      fun i hi => .inr (.inr (.inr (mem_of_root hi)))⟩
    rintro y (rfl | rfl | hy | hy) hyj cell hc
    · obtain rfl := Option.some_inj.1 (hcell.symm.trans hc)
      exact ⟨linkIn_some.2 (by simp), linkIn_some.2 (by simp)⟩
    · exact absurd rfl hyj
    · exact linkIn_of_treeAt (treeAt_links (q := none) hB.sibling)
        (fun i hi => .inr (.inr (.inl (mem_strip.1 hi)))) (mem_strip.2 hy) hc
    · exact linkIn_of_treeAt htc (fun i hi => .inr (.inr (.inr hi))) hy hc

theorem Right.lost_rl (hA : AvlAt s p (mk .left a n v (node b₁ m w b₂)))
    (hB : Back key s .left a n v (node b₁ m w b₂) r h₁ h)
    (hR : Right key a (node c j x e) k r h₁) (hk : ((node b₁ m w b₂).depth : ℤ) - 1 = k + 2)
    (hheavy : ¬ b₁.depth < b₂.depth) (he : e ≠ nil) :
    Broken key s (mk .left a n v (node b₁ m w b₂)) := by
  obtain ⟨h', hL, hE, -⟩ := hR.up_rl_wrong hA hB hk hheavy
  obtain ⟨hna, -, hda, -, hab⟩ := distinct_mk.1 hA.distinct
  obtain ⟨-, hje, -, -, hce⟩ := distinct_node.1 (hR.distinct hda)
  obtain ⟨i, hie⟩ := exists_mem he
  have hkept : Kept key a i := hR.kept (by simp [hie])
  refine .lost hL (.of_kept hE hkept.mk_left ?_)
  rintro (rfl | rfl | hmem | hmem)
  · exact hna hkept.mem
  · exact hje hie
  · exact hab i hkept.mem hmem
  · exact hce i hmem hie

/-- Without `e` nothing is lost, and the height is the old one. -/
theorem Right.doubled_rl (hA : AvlAt s p (mk .left a n v (node b₁ m w b₂)))
    (hB : Back key s .left a n v (node b₁ m w b₂) r h₁ h)
    (hR : Right key a (node c j x nil) 0 r h₁) (ha : a.depth = 2)
    (hdepth : (node b₁ m w b₂).depth = 3) (hheavy : ¬ b₁.depth < b₂.depth) (hc : c ≠ nil)
    (htopc : topHeight (heights h₁) c.root = 0) :
    Broken key s (mk .left a n v (node b₁ m w b₂)) := by
  have hRB := hB.right hA hR
  have hS := hB.sibling_at hA
  obtain ⟨h', hL, hE, hl, hhn⟩ := hR.up_rl_wrong hA hB (by omega) hheavy
  obtain ⟨hna, -⟩ := distinct_mk.1 hA.distinct
  obtain ⟨i, hi⟩ := Option.ne_none_iff_exists'.1 (mt root_eq_none.1 hc)
  have hj : Kept key a j := hR.kept (by simp)
  have hnj : n ≠ j := by
    rintro rfl
    exact hna hj.mem
  have hia : i ∈ a := hRB.mem i (by simp [mem_of_root hi])
  have htop : topHeight (heights h) c.root = 0 := by
    rw [← htopc, hi]
    exact heights_congr (hB.below i fun heq => hna (heq ▸ hia))
  refine .doubled hL ⟨⟨_, hE⟩, ⟨j, .left, j, .right, i, hj.mk_left, hj.mk_left, ?_, ?_, by simp⟩, ?_, ?_⟩
  · rw [linkAt, hl, Function.update_self]
    exact hi
  · rw [linkAt, hl, Function.update_self]
    exact hi
  · rintro _ ⟨⟩
    rw [hl, Function.update_of_ne hnj, hB.cell]
    simp
  · rw [topHeight_some, hhn, hS.top, htop, depth_mk, ha, hdepth]
    rfl

end Rotations

/-! ## Above a twisted part -/

section Twisted

variable {key : UInt32} {s : AvlMem} {p : Ptr} {d : Dir} {a b b₁ b₂ : Tree} {n m i j₁ j₂ : ℕ}
  {v w : Payload × ℤ} {x : Payload} {h₁ h : Cells AvlEntry} {C : Set ℕ}

/-- The memory around it. -/
structure TwistedBack (a : Tree) (i j₁ j₂ : ℕ) (x : Payload) (h : Cells AvlEntry) : Prop where
  intro ::
  cell : links h i = some (x, some j₁, some j₂)
  live : ∀ k, some j₁ = some k → links h k ≠ none
  live' : ∀ k, some j₂ = some k → links h k ≠ none
  mem : i ∈ a ∧ j₁ ∈ a ∧ j₂ ∈ a
  ne : j₁ ≠ i ∧ j₂ ≠ i
  height : heights h i = 4 ∧ heights h j₁ = 2 ∧ heights h j₂ = 3

theorem Twisted.back (hA : AvlAt s p (mk d a n v b)) (hB : Back key s d a n v b (some i) h₁ h)
    (hT : Twisted key a i j₁ j₂ h₁) : ∃ x, TwistedBack a i j₁ j₂ x h := by
  obtain ⟨C, hE⟩ := hT.enclosed
  obtain ⟨x, hi⟩ := hT.cell
  obtain ⟨hna, -⟩ := distinct_mk.1 hA.distinct
  have hbelow : ∀ y ∈ a, h y = h₁ y := fun y hy => hB.below y fun heq => hna (heq ▸ hy)
  have hlinks : ∀ y ∈ a, links h y = links h₁ y := fun y hy => links_congr (hbelow y hy)
  have hheights : ∀ y ∈ a, heights h y = heights h₁ y := fun y hy => heights_congr (hbelow y hy)
  have hia : i ∈ a := hE.sub i (hE.start i rfl)
  obtain ⟨hj₁, hj₂⟩ := hT.mem
  obtain ⟨hhi, hh₁, hh₂⟩ := hT.height
  refine ⟨x, (hlinks i hia).trans hi, ?_, ?_, ⟨hia, hj₁, hj₂⟩, hT.ne, (hheights i hia).trans hhi,
    (hheights j₁ hj₁).trans hh₁, (hheights j₂ hj₂).trans hh₂⟩
  · rintro _ ⟨⟩
    rw [hlinks j₁ hj₁]
    exact hT.live.1
  · rintro _ ⟨⟩
    rw [hlinks j₂ hj₂]
    exact hT.live.2

/-- A sibling with three levels is lower by two than the stored height. -/
theorem TwistedBack.run (hB : Back key s d a n v (node b₁ m w b₂) (some i) h₁ h)
    (hT : TwistedBack a i j₁ j₂ x h) (hS : Sibling h b₁ m w b₂)
    (hdepth : (node b₁ m w b₂).depth = 3) :
    (rebalanceAvlTree (some n)).run { s with heap := h } =
      (rotateDeep d (some n)).run { s with heap := h } := by
  have htopm : heights h m = 2 := by
    have htop := hS.top
    rw [topHeight_some, hdepth] at htop
    simpa using htop
  rw [run_rebalance_side (s := { s with heap := h }) hB.cell
    (by rintro _ ⟨⟩; change links h i ≠ none; rw [hT.cell]; simp)
    (by rintro _ ⟨⟩; change links h m ≠ none; rw [hS.cell]; simp)]
  change (if heights h m - heights h i = 2 then _ else if heights h i - heights h m = 2 then _
    else _ : Exec AvlMem Ptr).run _ = _
  rw [htopm, hT.height.1, if_neg (by omega), if_pos (by omega)]

/-- On the left, a double rotation drops the inner subtree of the sibling. -/
theorem TwistedBack.up_left (hA : AvlAt s p (mk .left a n v (node b₁ m w b₂)))
    (hB : Back key s .left a n v (node b₁ m w b₂) (some i) h₁ h) (hE : Enclosed a C (some i) h₁)
    (hT : TwistedBack a i j₁ j₂ x h) (hb : ∀ e ∈ (node b₁ m w b₂).records, e.2.minKey ≠ key)
    (hdepth : (node b₁ m w b₂).depth = 3) : Broken key s (mk .left a n v (node b₁ m w b₂)) := by
  have hS := hB.sibling_at hA
  have hC := hB.confined hA hE
  obtain ⟨hmn, -, -, ⟨hn₁, hm₁⟩, ⟨hn₂, hm₂⟩, -, h₁₂⟩ := hA.apart (T := nil) (by simp)
  obtain ⟨hna, -, -, -, hab⟩ := distinct_mk.1 hA.distinct
  have him : i ≠ m := by
    rintro rfl
    exact hab i hT.mem.1 (by simp)
  have helse : Elsewhere h n m (some i) := by
    rintro _ ⟨⟩
    refine ⟨by rw [hT.cell]; simp, ?_, him⟩
    rintro rfl
    exact hna hT.mem.1
  obtain ⟨h', -, hrot, hl, -, -, -, -, hsame⟩ := run_lrRotate_links (s := { s with heap := h }) hmn
    hB.cell hS.cell helse (root_strip b₂ ▸ elsewhere_root hS.right hn₂ hm₂).beside
  have hreb : (rebalanceAvlTree (some n)).run { s with heap := h } =
      .ok (some n, { s with heap := h' }) := by
    rw [hT.run hB hS hdepth, run_rotateDeep_links (s := { s with heap := h }) (d := .left) hB.cell
      hT.cell hT.live hT.live']
    change (if heights h j₁ > heights h j₂ then _ else _ : Exec AvlMem Ptr).run _ = _
    rw [hT.height.2.1, hT.height.2.2, if_neg (by omega)]
    exact hrot
  have hCm : ∀ y, y ∈ C → y ∈ a := hE.sub
  have hE' : Enclosed (mk .left a n v (node b₁ m w b₂)) {y | y ∈ C ∨ y = n ∨ y = m ∨ y ∈ b₂} (some n)
      h' := by
    refine ⟨?_, ?_, linkIn_some.2 (.inr (.inl rfl))⟩
    · rintro y (hy | rfl | rfl | hy)
      · exact mem_mk.2 (.inr (.inl (hCm y hy)))
      · exact mem_mk.2 (.inl rfl)
      · exact mem_mk.2 (.inr (.inr (by simp)))
      · exact mem_mk.2 (.inr (.inr (by simp [hy])))
    · rw [hl]
      refine closed_update ?_ ⟨fun y hy => .inl (hE.start y hy),
        fun y hy => .inr (.inr (.inr (mem_of_root hy)))⟩
      rintro y (hy | rfl | rfl | hy) hym cell hc
      · have hyn : y ≠ n := by
          rintro rfl
          exact hna (hCm y hy)
        obtain ⟨hl₁, hr₁⟩ := hE.closed y hy cell ((links_congr (hB.below y hyn)).symm.trans hc)
        exact ⟨fun z hz => .inl (hl₁ z hz), fun z hz => .inl (hr₁ z hz)⟩
      · obtain rfl := Option.some_inj.1 (hB.cell.symm.trans hc)
        exact ⟨fun z hz => .inl (hE.start z hz), linkIn_some.2 (by simp)⟩
      · exact absurd rfl hym
      · exact linkIn_of_treeAt hS.right (fun z hz => .inr (.inr (.inr (mem_strip.1 hz))))
          (mem_strip.2 hy) hc
  obtain ⟨k, hkb⟩ := exists_mem (inner_ne_nil (balanced_mk.1 hA.balanced).2.2.2 hdepth.ge)
  have hkept : Kept key (mk .left a n v (node b₁ m w b₂)) k := kept_mk_right hb (by simp [hkb])
  refine .lost (hB.leaves hreb fun y hy => ?_) (.of_kept hE' hkept ?_)
  · simp only [mem_mk, mem_node, not_or] at hy
    refine hsame y hy.1 hy.2.2.1 ?_
    rintro ⟨⟩
    exact hy.2.1 hT.mem.1
  · rintro (hmem | rfl | rfl | hmem)
    · exact hab k (hCm k hmem) (by simp [hkb])
    · exact hn₁ (mem_strip.2 hkb)
    · exact hm₁ (mem_strip.2 hkb)
    · exact h₁₂ k (mem_strip.2 hkb) (mem_strip.2 hmem)

/-- On the right, a single rotation links to the sibling twice. -/
theorem TwistedBack.up_right (hA : AvlAt s p (mk .right a n v (node b₁ m w b₂)))
    (hd : Descends key v.1 .right) (hB : Back key s .right a n v (node b₁ m w b₂) (some i) h₁ h)
    (hE : Enclosed a C (some i) h₁) (hT : TwistedBack a i j₁ j₂ x h) (ha : a.depth = 4)
    (hdepth : (node b₁ m w b₂).depth = 3) : Broken key s (mk .right a n v (node b₁ m w b₂)) := by
  have hS := hB.sibling_at hA
  obtain ⟨hna, -⟩ := distinct_mk.1 hA.distinct
  have hne : ∀ y ∈ a, y ≠ n := by
    rintro y hy rfl
    exact hna hy
  have hbeside : Beside h n (some j₂) := by
    rintro _ ⟨⟩
    exact ⟨hT.live' j₂ rfl, hne j₂ hT.mem.2.2⟩
  have hlive : ∀ k, some m = some k → links h k ≠ none := by
    rintro _ ⟨⟩
    rw [hS.cell]
    simp
  obtain ⟨h', hrot, hl, hh, -⟩ := run_rrRotate_links (s := { s with heap := h }) (hne i hT.mem.1) hB.cell
    hT.cell hbeside hlive
  have hreb : (rebalanceAvlTree (some n)).run { s with heap := h } =
      .ok (some i, { s with heap := h' }) := by
    rw [hT.run hB hS hdepth, run_rotateDeep_links (s := { s with heap := h }) (d := .right) hB.cell
      hT.cell hT.live' hT.live]
    change (if heights h j₂ > heights h j₁ then _ else _ : Exec AvlMem Ptr).run _ = _
    rw [hT.height.2.1, hT.height.2.2, if_pos (by omega)]
    exact hrot
  obtain ⟨-, hL', hE'⟩ := hB.reached hA hE hreb
  have hn : links h' n = some (v.1, some m, some m) := by
    rw [hl, Function.update_of_ne (hne i hT.mem.1).symm, Function.update_self]
    rfl
  refine .doubled hL' ⟨⟨_, hE'⟩, ⟨n, .left, n, .right, m, kept_mk_self hd.1.symm,
      kept_mk_self hd.1.symm, ?_, ?_, by simp⟩, ?_, ?_⟩
  · rw [linkAt, hn]
    rfl
  · rw [linkAt, hn]
    rfl
  · rintro _ ⟨⟩
    rw [hl, Function.update_self]
    simp
  · rw [topHeight_some, hh, Function.update_self]
    change max (heights h j₂) (topHeight (heights h) (some m) + 1) + 1 = _
    rw [hT.height.2.2, hS.top, depth_mk, ha, hdepth]
    rfl

/-- One level further up the twisted part is rotated at most once. -/
theorem Twisted.up (hA : AvlAt s p (mk d a n v b)) (hd : Descends key v.1 d)
    (hb : ∀ e ∈ b.records, e.2.minKey ≠ key) (hL : Leaves key s a (some i) h₁)
    (hT : Twisted key a i j₁ j₂ h₁) : Broken key s (mk d a n v b) := by
  obtain ⟨C, hE⟩ := hT.enclosed
  obtain ⟨h, hB⟩ := hL.back hA hd
  obtain ⟨hab, hba, -⟩ := balanced_mk.1 hA.balanced
  have hdepth := hT.depth
  by_cases hdeep : b.depth = 3
  · obtain ⟨x, hT'⟩ := hT.back hA hB
    cases b with
    | nil => simp at hdeep
    | node b₁ m w b₂ =>
        cases d
        · exact hT'.up_left hA hB hE hb hdeep
        · exact hT'.up_right hA hd hB hE hdepth hdeep
  · have hi : topHeight (heights h₁) (some i) = 4 := hT.height.1
    obtain ⟨x, hcell⟩ := hT.cell
    exact hB.doubled hA hE hT.linked (hB.run_even hA (fun j hj => hE.sub j (hE.start j hj))
      (by rintro _ ⟨⟩; rw [hcell]; simp) (by omega) (by omega))

/-- **A wrong result stays wrong** on the way up. -/
theorem Broken.up (hA : AvlAt s p (mk d a n v b)) (hd : Descends key v.1 d)
    (hb : ∀ e ∈ b.records, e.2.minKey ≠ key) (hbroken : Broken key s a) :
    Broken key s (mk d a n v b) := by
  cases hbroken with
  | faults hF => exact .faults (hF.up hA hd)
  | lost hL hlost => exact hlost.up hA hd hL
  | doubled hL hD => exact hD.up hA hd hL
  | twisted hL hT => exact hT.up hA hd hb hL

end Twisted

end StructLib.Avl
