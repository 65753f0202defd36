import StructLib.Btree.Model
import StructLib.Lib.Words
import Mathlib.Data.List.GetD

set_option autoImplicit false

/-! # The nodes of a B+tree

A key is read as the number its longs spell (`wordsVal`): comparing keys with `longcmp` compares
these numbers, and `dec_key` subtracts one. A node holds a list of entries if its first slots hold
them and the others are zero (`Node.Holds`); the searches within a node and the loops that move
pairs are described by what they do to the pairs. -/

namespace StructLib.Btree

variable {w : ℕ} {geo : Geo}

/-! ## Keys -/

section Keys

variable {l l' : List (BitVec w)}

theorem longcmp_cases (hlen : l.length = l'.length) :
    (longcmp l l' = -1 ∧ wordsVal l < wordsVal l') ∨ (longcmp l l' = 0 ∧ l = l') ∨
      (longcmp l l' = 1 ∧ wordsVal l' < wordsVal l) := by
  induction l generalizing l' with
  | nil =>
      obtain rfl : l' = [] := List.length_eq_zero_iff.1 hlen.symm
      exact .inr (.inl ⟨rfl, rfl⟩)
  | cons a l ih =>
      obtain _ | ⟨b, l'⟩ := l'
      · cases hlen
      · have hlen' : l.length = l'.length := by simpa using hlen
        unfold longcmp
        split_ifs with h₁ h₂
        · exact .inl ⟨rfl, wordsVal_cons_lt hlen' h₁⟩
        · exact .inr (.inr ⟨rfl, wordsVal_cons_lt hlen'.symm h₂⟩)
        · obtain rfl : a = b := BitVec.le_antisymm (BitVec.not_lt.1 h₂) (BitVec.not_lt.1 h₁)
          rw [wordsVal_cons_lt_cons_iff hlen', wordsVal_cons_lt_cons_iff hlen'.symm, List.cons.injEq]
          simpa using ih hlen'

theorem longcmp_le_zero_iff (hlen : l.length = l'.length) :
    longcmp l l' ≤ 0 ↔ wordsVal l ≤ wordsVal l' := by
  rcases longcmp_cases hlen with ⟨h, hlt⟩ | ⟨h, rfl⟩ | ⟨h, hlt⟩
  · rw [h]
    omega
  · rw [h]
    omega
  · rw [h]
    omega

theorem longcmp_eq_zero_iff (hlen : l.length = l'.length) :
    longcmp l l' = 0 ↔ wordsVal l = wordsVal l' := by
  rcases longcmp_cases hlen with ⟨h, hlt⟩ | ⟨h, rfl⟩ | ⟨h, hlt⟩
  · rw [h]
    omega
  · rw [h]
    omega
  · rw [h]
    omega

theorem keyzero_iff : keyzero l = true ↔ wordsVal l = 0 := by
  rw [wordsVal_eq_zero_iff, keyzero, List.all_eq_true]
  simp

theorem length_decKey (l : List (BitVec w)) : (decKey l).length = l.length := by
  have hlen : ∀ l : List (BitVec w), (decLongs l).length = l.length := by
    intro l
    induction l with
    | nil => rfl
    | cons x l ih =>
        unfold decLongs
        split_ifs with hx
        · rfl
        · rw [List.length_cons, ih, List.length_cons]
  rw [decKey, List.length_reverse, hlen, List.length_reverse]

/-- `dec_key` subtracts one. -/
theorem wordsVal_decKey (h : wordsVal l ≠ 0) : wordsVal (decKey l) = wordsVal l - 1 := by
  obtain ⟨m, rfl⟩ : ∃ m, l = m.reverse := ⟨l.reverse, (List.reverse_reverse l).symm⟩
  rw [decKey, List.reverse_reverse]
  induction m with
  | nil => exact absurd rfl h
  | cons x m ih =>
      rw [List.reverse_cons, wordsVal_append_singleton] at h ⊢
      unfold decLongs
      split_ifs with hx
      · have hx' : x.toNat ≠ 0 := fun h0 => hx (BitVec.eq_of_toNat_eq (by simpa using h0))
        have hsub : (x - 1).toNat = x.toNat - 1 := by
          have hw : w ≠ 0 := by
            rintro rfl
            exact hx (Subsingleton.elim _ _)
          have hone : (1 : BitVec w).toNat = 1 := BitVec.toNat_one (by omega)
          rw [BitVec.toNat_sub_of_le (BitVec.le_def.2 (by rw [hone]; omega)), hone]
        rw [List.reverse_cons, wordsVal_append_singleton, hsub]
        omega
      · obtain rfl : x = 0 := not_not.1 hx
        have hm : wordsVal m.reverse ≠ 0 := by
          intro h0
          rw [h0] at h
          simp at h
        have hneg : (0 - 1 : BitVec w).toNat = 2 ^ w - 1 := by
          rcases Nat.eq_zero_or_pos w with rfl | hw
          · simp
          · have hone : (1 : BitVec w).toNat = 1 := BitVec.toNat_one hw
            have hpos := Nat.two_pow_pos w
            rw [BitVec.toNat_sub, hone, show (0 : BitVec w).toNat = 0 from BitVec.toNat_zero,
              Nat.add_zero, Nat.mod_eq_of_lt (by omega)]
        have hmul : wordsVal m.reverse * 2 ^ w = (wordsVal m.reverse - 1) * 2 ^ w + 2 ^ w := by
          rw [← Nat.succ_mul]
          congr 1
          omega
        have hpos := Nat.two_pow_pos w
        rw [List.reverse_cons, wordsVal_append_singleton, ih hm, hneg]
        rw [show (0 : BitVec w).toNat = 0 from BitVec.toNat_zero]
        omega

end Keys

/-! ## Slots -/

section Slots

/-- The number that the key in a slot spells. -/
def Node.key (geo : Geo) (nd : Node w) (n : ℕ) : ℕ := wordsVal (bkey geo nd n)

/-- The key and the value in a slot. -/
def Node.pair (geo : Geo) (nd : Node w) (n : ℕ) : ℕ × BitVec w := (nd.key geo n, nd.val geo n)

variable {nd : Node w} {key : List (BitVec w)} {i n : ℕ} {val : BitVec w}

@[simp] theorem length_bkey (nd : Node w) (n : ℕ) : (bkey geo nd n).length = geo.keylen := by
  simp [bkey]

theorem slot_le_nodeLongs (hn : n < geo.noPairs) :
    (n + 1) * geo.keylen ≤ geo.nodeLongs ∧ geo.noLongs + n < geo.nodeLongs ∧
      (n + 1) * geo.keylen ≤ geo.noLongs := by
  have hmul : (n + 1) * geo.keylen ≤ geo.noPairs * geo.keylen := Nat.mul_le_mul_right _ hn
  have hfits := geo.fits
  rw [← geo.noLongs_eq] at hmul
  omega

theorem bkey_setkey (hlen : key.length = geo.keylen) (i : ℕ) :
    bkey geo (nd.setkey geo n key) i = if i = n then key else bkey geo nd i := by
  split_ifs with hi
  · subst hi
    refine List.ext_getElem (by simp [hlen]) ?_
    intro j h₁ h₂
    have hj : j < geo.keylen := by simpa using h₁
    simp only [bkey, List.getElem_map, List.getElem_range, Node.setkey, Nat.add_mul, Nat.one_mul]
    rw [if_pos (by omega), Nat.add_sub_cancel_left, List.getD_eq_getElem _ _ h₂]
  · refine List.map_congr_left ?_
    intro j hj
    rw [List.mem_range] at hj
    unfold Node.setkey
    rw [if_neg]
    rintro ⟨h₁, h₂⟩
    rcases Nat.lt_or_gt_of_ne hi with hlt | hlt
    · have := Nat.mul_le_mul_right geo.keylen (Nat.succ_le_of_lt hlt)
      rw [Nat.succ_mul] at this
      omega
    · have := Nat.mul_le_mul_right geo.keylen (Nat.succ_le_of_lt hlt)
      rw [Nat.succ_mul] at this
      rw [Nat.add_mul, Nat.one_mul] at h₂
      omega

theorem val_setkey (hn : n < geo.noPairs) (i : ℕ) :
    (nd.setkey geo n key).val geo i = nd.val geo i := by
  unfold Node.val Node.setkey
  have := (slot_le_nodeLongs hn).2.2
  rw [if_neg (by omega)]

theorem bkey_setval (hi : i < geo.noPairs) : bkey geo (nd.setval geo n val) i = bkey geo nd i := by
  refine List.map_congr_left ?_
  intro j hj
  rw [List.mem_range] at hj
  have := (slot_le_nodeLongs hi).2.2
  rw [Nat.add_mul, Nat.one_mul] at this
  unfold Node.setval
  rw [Function.update_of_ne (by omega)]

theorem val_setval (i : ℕ) :
    (nd.setval geo n val).val geo i = if i = n then val else nd.val geo i := by
  unfold Node.val Node.setval
  split_ifs with hi
  · rw [hi, Function.update_self]
  · rw [Function.update_of_ne (by omega)]

/-- `setkey` and `setval`. -/
def Node.setpair (geo : Geo) (n : ℕ) (key : List (BitVec w)) (val : BitVec w) (nd : Node w) :
    Node w := (nd.setkey geo n key).setval geo n val

theorem pair_setpair (hlen : key.length = geo.keylen) (hn : n < geo.noPairs)
    (hi : i < geo.noPairs) : (nd.setpair geo n key val).pair geo i =
      if i = n then (wordsVal key, val) else nd.pair geo i := by
  unfold Node.pair Node.key Node.setpair
  rw [bkey_setval hi, val_setval, bkey_setkey hlen, val_setkey hn]
  split_ifs <;> rfl

theorem pair_setkey (hlen : key.length = geo.keylen) (hn : n < geo.noPairs) (i : ℕ) :
    (nd.setkey geo n key).pair geo i =
      if i = n then (wordsVal key, nd.val geo i) else nd.pair geo i := by
  unfold Node.pair Node.key
  rw [bkey_setkey hlen, val_setkey hn]
  split_ifs <;> rfl

theorem pair_setval (hi : i < geo.noPairs) : (nd.setval geo n val).pair geo i =
      if i = n then (nd.key geo i, val) else nd.pair geo i := by
  unfold Node.pair Node.key
  rw [bkey_setval hi, val_setval]
  split_ifs <;> rfl

end Slots

/-! ## What a node holds -/

section Holds

variable {nd : Node w} {es es₁ es₂ : List (ℕ × BitVec w)} {key : List (BitVec w)} {i : ℕ}

/-- The first slots hold the entries, and the other ones are zero. -/
structure Node.Holds (geo : Geo) (nd : Node w) (es : List (ℕ × BitVec w)) : Prop where
  length_le : es.length ≤ geo.noPairs
  val_ne_zero : ∀ e ∈ es, e.2 ≠ 0
  pair_eq : ∀ i, i < geo.noPairs → nd.pair geo i = es.getD i (0, 0)

theorem Node.Holds.key_eq (h : nd.Holds geo es) (hi : i < geo.noPairs) :
    nd.key geo i = (es.getD i (0, 0)).1 := congrArg Prod.fst (h.pair_eq i hi)

theorem Node.Holds.val_eq (h : nd.Holds geo es) (hi : i < geo.noPairs) :
    nd.val geo i = (es.getD i (0, 0)).2 := congrArg Prod.snd (h.pair_eq i hi)

/-- Where a loop over the slots stops. -/
theorem slotLoop_eq {stop : ℕ → Bool} {n i j : ℕ} (hij : i ≤ j) (hj : j ≤ i + n)
    (hgo : ∀ m, i ≤ m → m < j → stop m = false) (hstop : j < i + n → stop j = true) :
    slotLoop stop n i = j := by
  induction n generalizing i with
  | zero =>
      unfold slotLoop
      omega
  | succ n ih =>
      unfold slotLoop
      rcases Nat.eq_or_lt_of_le hij with rfl | hlt
      · rw [if_pos (hstop (by omega))]
      · rw [if_neg (by simp [hgo i (Nat.le_refl i) hlt])]
        exact ih hlt (by omega) (fun m hm hm' => hgo m (by omega) hm')
          fun hlt' => hstop (by omega)

/-- `getpos` finds the first entry whose key is not above the key, or the end of the entries. -/
theorem Node.Holds.getpos_eq (h : nd.Holds geo (es₁ ++ es₂)) (hlen : key.length = geo.keylen)
    (h₁ : ∀ e ∈ es₁, wordsVal key < e.1) (h₂ : ∀ e ∈ es₂, e.1 ≤ wordsVal key) :
    getpos geo nd key = es₁.length := by
  have hle := h.length_le
  rw [List.length_append] at hle
  have hcmp : ∀ j, keycmp geo nd j key ≤ 0 ↔ nd.key geo j ≤ wordsVal key := by
    intro j
    exact longcmp_le_zero_iff (by rw [length_bkey, hlen])
  refine slotLoop_eq (Nat.zero_le _) (by omega) ?_ ?_
  · intro m _ hm
    rw [decide_eq_false_iff_not, hcmp, h.key_eq (by omega), List.getD_append _ _ _ _ hm,
      List.getD_eq_getElem _ _ hm]
    exact Nat.not_le.2 (h₁ _ (List.getElem_mem hm))
  · intro hlt
    rw [decide_eq_true_iff, hcmp, h.key_eq (by omega),
      List.getD_append_right _ _ _ _ (Nat.le_refl _), Nat.sub_self]
    cases es₂ with
    | nil => exact Nat.zero_le _
    | cons e es₂ => exact h₂ e (by simp)

theorem Node.Holds.getfill_eq (h : nd.Holds geo es) {start : ℕ} (hstart : start ≤ es.length) :
    getfill geo nd start = es.length := by
  have hle := h.length_le
  refine slotLoop_eq hstart (by omega) ?_ ?_
  · intro m _ hm
    rw [decide_eq_false_iff_not, h.val_eq (by omega), List.getD_eq_getElem _ _ hm]
    exact h.val_ne_zero _ (List.getElem_mem hm)
  · intro hlt
    rw [decide_eq_true_iff, h.val_eq (by omega), List.getD_eq_default _ _ (Nat.le_refl _)]

end Holds

/-! ## Running the accessors -/

section Run

/-- The state with other longs in a node. -/
def BtreeMem.setNode (s : BtreeMem w) (a : BitVec w) (nd : Node w) : BtreeMem w :=
  { s with nodes := Function.update s.nodes a (some nd) }

variable {s : BtreeMem w} {a b val : BitVec w} {nd nd' : Node w} {k : List (BitVec w)}
  {key : KeyPtr w} {n i j : ℕ}

@[simp] theorem setNode_node (s : BtreeMem w) (a : BitVec w) (nd : Node w) :
    (s.setNode a nd).node = s.node := rfl

@[simp] theorem setNode_height (s : BtreeMem w) (a : BitVec w) (nd : Node w) :
    (s.setNode a nd).height = s.height := rfl

@[simp] theorem setNode_pool (s : BtreeMem w) (a : BitVec w) (nd : Node w) :
    (s.setNode a nd).pool = s.pool := rfl

@[simp] theorem setNode_nodes_self : (s.setNode a nd).nodes a = some nd := Function.update_self ..

theorem setNode_nodes_of_ne (h : b ≠ a) : (s.setNode a nd).nodes b = s.nodes b :=
  Function.update_of_ne h ..

@[simp] theorem setNode_setNode : (s.setNode a nd).setNode a nd' = s.setNode a nd' := by
  simp [BtreeMem.setNode]

theorem setNode_comm (h : a ≠ b) :
    (s.setNode a nd).setNode b nd' = (s.setNode b nd').setNode a nd := by
  simp [BtreeMem.setNode, Function.update_comm h]

theorem setNode_eq_self (h : s.nodes a = some nd) : s.setNode a nd = s := by
  simp [BtreeMem.setNode, ← h]

theorem run_load (h : s.nodes a = some nd) : (load a).run s = .ok (nd, s) := by
  simp [load, StateT.run_bind, h]

theorem run_modifyNode (h : s.nodes a = some nd) (f : Node w → Node w) :
    (modifyNode a f).run s = .ok ((), s.setNode a (f nd)) := by
  unfold modifyNode
  rw [Exec.run_bind_of_ok (run_load h)]
  rfl

theorem run_read_caller : ((KeyPtr.caller k).read geo).run s = .ok (k, s) := rfl

theorem run_read_slot (h : s.nodes a = some nd) (hn : n < geo.noPairs) :
    ((KeyPtr.slot a n).read geo).run s = .ok (bkey geo nd n, s) := by
  unfold KeyPtr.read
  rw [Exec.run_bind_of_ok (run_load h), if_pos (slot_le_nodeLongs hn).1]
  rfl

theorem run_bval (h : s.nodes a = some nd) (hn : n < geo.noPairs) :
    (bval geo a n).run s = .ok (nd.val geo n, s) := by
  unfold bval
  rw [Exec.run_bind_of_ok (run_load h), if_pos (slot_le_nodeLongs hn).2.1]
  rfl

theorem run_setkey (hk : (key.read geo).run s = .ok (k, s)) (h : s.nodes a = some nd)
    (hn : n < geo.noPairs) :
    (setkey geo a n key).run s = .ok ((), s.setNode a (nd.setkey geo n k)) := by
  unfold setkey
  rw [Exec.run_bind_of_ok hk, if_pos (slot_le_nodeLongs hn).1, run_modifyNode h]

theorem run_setval (h : s.nodes a = some nd) (hn : n < geo.noPairs) :
    (setval geo a n val).run s = .ok ((), s.setNode a (nd.setval geo n val)) := by
  unfold setval
  rw [if_pos (slot_le_nodeLongs hn).2.1, run_modifyNode h]

theorem run_clearpair (h : s.nodes a = some nd) (hn : n < geo.noPairs) :
    (clearpair geo a n).run s =
      .ok ((), s.setNode a (nd.setpair geo n (List.replicate geo.keylen 0) 0)) := by
  unfold clearpair
  rw [Exec.run_bind_of_ok (run_setkey run_read_caller h hn), run_setval setNode_nodes_self hn,
    setNode_setNode]
  rfl

/-- A pair of `nd'` comes into the slot `i`. -/
def Node.copy (geo : Geo) (nd : Node w) (i : ℕ) (nd' : Node w) (j : ℕ) : Node w :=
  nd.setpair geo i (bkey geo nd' j) (nd'.val geo j)

/-- `copypair` within a node or from one node to another. -/
theorem run_copypair (h : s.nodes a = some nd) (h' : s.nodes b = some nd') (hi : i < geo.noPairs)
    (hj : j < geo.noPairs) : (copypair geo a i b j).run s =
      .ok ((), s.setNode a (nd.copy geo i nd' j)) := by
  have hval : (bval geo b j).run (s.setNode a (nd.setkey geo i (bkey geo nd' j))) =
      .ok (nd'.val geo j, s.setNode a (nd.setkey geo i (bkey geo nd' j))) := by
    by_cases hab : b = a
    · subst hab
      obtain rfl : nd = nd' := Option.some.inj (h.symm.trans h')
      rw [run_bval setNode_nodes_self hj, val_setkey hi]
    · rw [run_bval (by rw [setNode_nodes_of_ne hab, h']) hj]
  unfold copypair
  rw [Exec.run_bind_of_ok (run_setkey (run_read_slot h' hj) h hi), Exec.run_bind_of_ok hval,
    run_setval setNode_nodes_self hi, setNode_setNode]
  rfl

theorem pair_copy (hi : i < geo.noPairs) (hj : j < geo.noPairs) :
    (nd.copy geo i nd' n).pair geo j =
      if j = i then nd'.pair geo n else nd.pair geo j :=
  pair_setpair (length_bkey ..) hi hj

theorem pair_clear (hi : i < geo.noPairs) (hj : j < geo.noPairs) :
    (nd.setpair geo i (List.replicate geo.keylen 0) 0).pair geo j =
      if j = i then (0, 0) else nd.pair geo j := by
  rw [pair_setpair (List.length_replicate ..) hi hj, wordsVal_replicate_zero]

/-! ## The loops that move pairs -/

theorem run_shiftRight {pos : ℕ} (h : s.nodes a = some nd) (hn : pos + n < geo.noPairs) :
    ∃ nd', (shiftRight geo a pos n).run s = .ok ((), s.setNode a nd') ∧
      ∀ j, j < geo.noPairs → nd'.pair geo j =
        if pos < j ∧ j ≤ pos + n then nd.pair geo (j - 1) else nd.pair geo j := by
  induction n generalizing s nd with
  | zero =>
      refine ⟨nd, ?_, ?_⟩
      · rw [setNode_eq_self h]
        rfl
      · intro j _
        rw [if_neg (by omega)]
  | succ n ih =>
      have hstep : (copypair geo a (pos + n + 1) a (pos + n)).run s = _ :=
        run_copypair h h hn (by omega)
      have hslot : pos + n + 1 < geo.noPairs := hn
      obtain ⟨nd', hrun, hpair⟩ := ih setNode_nodes_self (by omega)
      refine ⟨nd', ?_, ?_⟩
      · unfold shiftRight
        rw [Exec.run_bind_of_ok hstep, hrun, setNode_setNode]
      · intro j hj
        rw [hpair j hj]
        by_cases hin : pos < j ∧ j ≤ pos + n
        · rw [if_pos hin, pair_copy hslot (by omega), if_neg (by omega), if_pos (by omega)]
        · rw [if_neg hin, pair_copy hslot hj]
          by_cases hlast : j = pos + n + 1
          · rw [if_pos hlast, if_pos (by omega), hlast]
            rfl
          · rw [if_neg hlast, if_neg (by omega)]

theorem run_shiftLeft (h : s.nodes a = some nd) (hn : i + n < geo.noPairs) :
    ∃ nd', (shiftLeft geo a n i).run s = .ok ((), s.setNode a nd') ∧
      ∀ j, j < geo.noPairs → nd'.pair geo j =
        if i ≤ j ∧ j < i + n then nd.pair geo (j + 1) else nd.pair geo j := by
  induction n generalizing s nd i with
  | zero =>
      refine ⟨nd, ?_, ?_⟩
      · rw [setNode_eq_self h]
        rfl
      · intro j _
        rw [if_neg (by omega)]
  | succ n ih =>
      have hstep : (copypair geo a i a (i + 1)).run s = _ :=
        run_copypair h h (by omega) (by omega)
      obtain ⟨nd', hrun, hpair⟩ := ih (i := i + 1) setNode_nodes_self (by omega)
      refine ⟨nd', ?_, ?_⟩
      · unfold shiftLeft
        rw [Exec.run_bind_of_ok hstep, hrun, setNode_setNode]
      · intro j hj
        rw [hpair j hj]
        by_cases hin : i + 1 ≤ j ∧ j < i + 1 + n
        · rw [if_pos hin, pair_copy (by omega) (by omega), if_neg (by omega), if_pos (by omega)]
        · rw [if_neg hin, pair_copy (by omega) hj]
          by_cases hfirst : j = i
          · rw [if_pos hfirst, if_pos (by omega), hfirst]
          · rw [if_neg hfirst, if_neg (by omega)]

theorem run_mergeLoop {lfill : ℕ} (hab : a ≠ b) (h : s.nodes a = some nd)
    (h' : s.nodes b = some nd') (hn : lfill + i + n ≤ geo.noPairs) :
    ∃ nd'', (mergeLoop geo a lfill b n i).run s = .ok ((), s.setNode a nd'') ∧
      ∀ j, j < geo.noPairs → nd''.pair geo j =
        if lfill + i ≤ j ∧ j < lfill + i + n then nd'.pair geo (j - lfill)
        else nd.pair geo j := by
  induction n generalizing s nd i with
  | zero =>
      refine ⟨nd, ?_, ?_⟩
      · rw [setNode_eq_self h]
        rfl
      · intro j _
        rw [if_neg (by omega)]
  | succ n ih =>
      have hstep : (copypair geo a (lfill + i) b i).run s = _ :=
        run_copypair h h' (by omega) (by omega)
      have hb : (s.setNode a (nd.copy geo (lfill + i) nd' i)).nodes b = some nd' := by
        rw [setNode_nodes_of_ne hab.symm, h']
      obtain ⟨nd'', hrun, hpair⟩ := ih (i := i + 1) setNode_nodes_self hb (by omega)
      refine ⟨nd'', ?_, ?_⟩
      · unfold mergeLoop
        rw [Exec.run_bind_of_ok hstep, hrun, setNode_setNode]
      · intro j hj
        rw [hpair j hj, pair_copy (by omega) hj]
        by_cases hin : lfill + (i + 1) ≤ j ∧ j < lfill + (i + 1) + n
        · rw [if_pos hin, if_pos (by omega)]
        · rw [if_neg hin]
          by_cases hfirst : j = lfill + i
          · rw [if_pos hfirst, if_pos (by omega), hfirst, Nat.add_sub_cancel_left]
          · rw [if_neg hfirst, if_neg (by omega)]

theorem run_splitLoop {half : ℕ} (hab : a ≠ b) (h : s.nodes a = some nd)
    (h' : s.nodes b = some nd') (hn : i + n ≤ half) (hhalf : half + half ≤ geo.noPairs) :
    ∃ na nb, (splitLoop geo a b half n i).run s = .ok ((), (s.setNode b nb).setNode a na) ∧
      (∀ j, j < geo.noPairs → nb.pair geo j =
        if i ≤ j ∧ j < i + n then nd.pair geo j else nd'.pair geo j) ∧
      ∀ j, j < geo.noPairs → na.pair geo j =
        if i ≤ j ∧ j < i + n then nd.pair geo (j + half)
        else if i + half ≤ j ∧ j < i + n + half then (0, 0) else nd.pair geo j := by
  induction n generalizing s nd nd' i with
  | zero =>
      refine ⟨nd, nd', ?_, ?_, ?_⟩
      · rw [setNode_eq_self h', setNode_eq_self h]
        rfl
      · intro j _
        rw [if_neg (by omega)]
      · intro j _
        rw [if_neg (by omega), if_neg (by omega)]
  | succ n ih =>
      have h₁ : (copypair geo b i a i).run s = _ := run_copypair h' h (by omega) (by omega)
      have ha : (s.setNode b (nd'.copy geo i nd i)).nodes a = some nd := by
        rw [setNode_nodes_of_ne hab, h]
      have h₂ : (copypair geo a i a (i + half)).run (s.setNode b (nd'.copy geo i nd i)) = _ :=
        run_copypair ha ha (by omega) (by omega)
      have h₃ : (clearpair geo a (i + half)).run ((s.setNode b (nd'.copy geo i nd i)).setNode a
          (nd.copy geo i nd (i + half))) = _ := run_clearpair setNode_nodes_self (by omega)
      have hb : (((s.setNode b (nd'.copy geo i nd i)).setNode a
          (nd.copy geo i nd (i + half))).setNode a ((nd.copy geo i nd (i + half)).setpair geo (i + half)
            (List.replicate geo.keylen 0) 0)).nodes b = some (nd'.copy geo i nd i) := by
        rw [setNode_nodes_of_ne hab.symm, setNode_nodes_of_ne hab.symm, setNode_nodes_self]
      obtain ⟨na, nb, hrun, hnb, hna⟩ := ih (i := i + 1) setNode_nodes_self hb (by omega)
      refine ⟨na, nb, ?_, ?_, ?_⟩
      · unfold splitLoop
        rw [Exec.run_bind_of_ok h₁, Exec.run_bind_of_ok h₂, Exec.run_bind_of_ok h₃, hrun]
        rw [setNode_setNode, setNode_comm hab, setNode_setNode, setNode_setNode]
      · intro j hj
        rw [hnb j hj, pair_copy (by omega) hj]
        by_cases hin : i + 1 ≤ j ∧ j < i + 1 + n
        · rw [if_pos hin, if_pos (by omega), pair_clear (by omega) hj, if_neg (by omega),
            pair_copy (by omega) hj, if_neg (by omega)]
        · rw [if_neg hin]
          by_cases hfirst : j = i
          · rw [if_pos hfirst, if_pos (by omega), hfirst]
          · rw [if_neg hfirst, if_neg (by omega)]
      · intro j hj
        rw [hna j hj]
        by_cases hin : i + 1 ≤ j ∧ j < i + 1 + n
        · rw [if_pos hin, if_pos (by omega), pair_clear (by omega) (by omega), if_neg (by omega),
            pair_copy (by omega) (by omega), if_neg (by omega)]
        · rw [if_neg hin]
          by_cases hzero : i + 1 + half ≤ j ∧ j < i + 1 + n + half
          · rw [if_pos hzero, if_neg (by omega), if_pos (by omega)]
          · rw [if_neg hzero, pair_clear (by omega) hj, pair_copy (by omega) hj]
            by_cases hclear : j = i + half
            · rw [if_pos hclear, if_neg (by omega), if_pos (by omega)]
            · rw [if_neg hclear]
              by_cases hfirst : j = i
              · rw [if_pos hfirst, if_pos (by omega), hfirst]
              · rw [if_neg hfirst, if_neg (by omega), if_neg (by omega)]

end Run

/-! ## What the changes of a node make of its entries -/

section Changes

variable {s : BtreeMem w} {a b v : BitVec w} {nd nd' : Node w} {key : List (BitVec w)}
  {es es' es₁ es₂ : List (ℕ × BitVec w)} {k : ℕ}

/-- A new node is empty. -/
theorem holds_nil : Node.Holds geo (fun _ => (0 : BitVec w)) [] := by
  refine ⟨Nat.zero_le _, by simp, ?_⟩
  intro i _
  have hkey : bkey geo (fun _ => (0 : BitVec w)) i = List.replicate geo.keylen 0 := by
    simp [bkey]
  rw [Node.pair, Node.key, hkey, wordsVal_replicate_zero]
  rfl

/-- One entry is replaced. -/
theorem Node.Holds.replace {e e' : ℕ × BitVec w} (h : nd.Holds geo (es₁ ++ e :: es₂))
    (he' : e'.2 ≠ 0) (hpair : ∀ i, i < geo.noPairs →
      nd'.pair geo i = if i = es₁.length then e' else nd.pair geo i) :
    nd'.Holds geo (es₁ ++ e' :: es₂) := by
  refine ⟨by simpa using h.length_le, ?_, ?_⟩
  · intro e₁ he₁
    have hne := h.val_ne_zero
    simp only [List.mem_append, List.mem_cons] at he₁ hne
    rcases he₁ with he₁ | rfl | he₁
    · exact hne e₁ (.inl he₁)
    · exact he'
    · exact hne e₁ (.inr (.inr he₁))
  · intro i hi
    rw [hpair i hi]
    split_ifs with hi'
    · rw [hi', List.getD_append_right _ _ _ _ (Nat.le_refl _), Nat.sub_self, List.getD_cons_zero]
    · rw [h.pair_eq i hi]
      rcases Nat.lt_or_gt_of_ne hi' with hlt | hlt
      · rw [List.getD_append _ _ _ _ hlt, List.getD_append _ _ _ _ hlt]
      · obtain ⟨j, hj⟩ : ∃ j, i - es₁.length = j + 1 := ⟨i - es₁.length - 1, by omega⟩
        rw [List.getD_append_right _ _ _ _ (by omega), List.getD_append_right _ _ _ _ (by omega), hj,
          List.getD_cons_succ, List.getD_cons_succ]

theorem Node.Holds.pair_mid {e : ℕ × BitVec w} (h : nd.Holds geo (es₁ ++ e :: es₂)) :
    es₁.length < geo.noPairs ∧ nd.pair geo es₁.length = e := by
  have hle := h.length_le
  rw [List.length_append, List.length_cons] at hle
  have hlt : es₁.length < geo.noPairs := by omega
  refine ⟨hlt, ?_⟩
  rw [h.pair_eq _ hlt, List.getD_append_right _ _ _ _ (Nat.le_refl _), Nat.sub_self,
    List.getD_cons_zero]

/-- `setkey` replaces the key of an entry. -/
theorem Node.Holds.setkey (h : nd.Holds geo (es₁ ++ (k, v) :: es₂))
    (hlen : key.length = geo.keylen) :
    (nd.setkey geo es₁.length key).Holds geo (es₁ ++ (wordsVal key, v) :: es₂) := by
  obtain ⟨hlt, hmid⟩ := h.pair_mid
  refine h.replace (h.val_ne_zero (k, v) (by simp)) ?_
  intro i _
  rw [pair_setkey hlen hlt]
  split_ifs with hi
  · rw [hi]
    exact Prod.ext rfl (congrArg Prod.snd hmid :)
  · rfl

/-- `setval` replaces the value of an entry. -/
theorem Node.Holds.setval {v' : BitVec w} (h : nd.Holds geo (es₁ ++ (k, v) :: es₂)) (hv : v' ≠ 0) :
    (nd.setval geo es₁.length v').Holds geo (es₁ ++ (k, v') :: es₂) := by
  obtain ⟨-, hmid⟩ := h.pair_mid
  refine h.replace hv ?_
  intro i hi
  rw [pair_setval hi]
  split_ifs with hi'
  · rw [hi']
    exact Prod.ext (congrArg Prod.fst hmid :) rfl
  · rfl

/-- The pairs from `es₁.length` on have moved to the right, and a new pair is written. -/
theorem Node.Holds.insert (h : nd.Holds geo (es₁ ++ es₂))
    (hroom : (es₁ ++ es₂).length < geo.noPairs) (hlen : key.length = geo.keylen) (hv : v ≠ 0)
    (hshift : ∀ j, j < geo.noPairs → nd'.pair geo j =
      if es₁.length < j ∧ j ≤ es₁.length + es₂.length then nd.pair geo (j - 1)
      else nd.pair geo j) :
    (nd'.setpair geo es₁.length key v).Holds geo (es₁ ++ (wordsVal key, v) :: es₂) := by
  rw [List.length_append] at hroom
  refine ⟨by simp; omega, ?_, ?_⟩
  · intro e he
    have := h.val_ne_zero
    simp only [List.mem_append, List.mem_cons] at he this
    rcases he with he | rfl | he
    · exact this e (.inl he)
    · exact hv
    · exact this e (.inr he)
  · intro i hi
    rw [pair_setpair hlen (by omega) hi, hshift i hi]
    split_ifs with hi' hin
    · rw [hi', List.getD_append_right _ _ _ _ (Nat.le_refl _), Nat.sub_self, List.getD_cons_zero]
    · obtain ⟨j, rfl⟩ : ∃ j, i = es₁.length + (j + 1) := ⟨i - es₁.length - 1, by omega⟩
      rw [h.pair_eq _ (by omega), List.getD_append_right _ _ _ _ (by omega),
        List.getD_append_right _ _ _ _ (by omega), Nat.add_sub_cancel_left, List.getD_cons_succ]
      congr 1
      omega
    · rw [h.pair_eq i hi]
      by_cases hlt : i < es₁.length
      · rw [List.getD_append _ _ _ _ hlt, List.getD_append _ _ _ _ hlt]
      · rw [List.getD_eq_default _ _ (by simp; omega), List.getD_eq_default _ _ (by simp; omega)]

/-- The first pair of a new node. -/
theorem holds_single (hlen : key.length = geo.keylen) (hv : v ≠ 0) :
    (Node.setpair geo 0 key v fun _ => 0).Holds geo [(wordsVal key, v)] := by
  have hzero : Node.Holds geo (fun _ => (0 : BitVec w)) ([] ++ []) := holds_nil
  have hfour := geo.four_le_noPairs
  refine hzero.insert (by simp; omega) hlen hv ?_
  intro j _
  rw [if_neg (by simp; omega)]

/-- The pairs right of `es₁.length` have moved to the left, and the last slot is cleared. -/
theorem Node.Holds.erase {e : ℕ × BitVec w} (h : nd.Holds geo (es₁ ++ e :: es₂))
    (hshift : ∀ j, j < geo.noPairs → nd'.pair geo j =
      if es₁.length ≤ j ∧ j < es₁.length + es₂.length then nd.pair geo (j + 1)
      else nd.pair geo j) :
    (nd'.setpair geo (es₁.length + es₂.length) (List.replicate geo.keylen 0) 0).Holds geo
      (es₁ ++ es₂) := by
  have hle := h.length_le
  rw [List.length_append, List.length_cons] at hle
  refine ⟨by simp; omega, ?_, ?_⟩
  · intro e' he'
    have := h.val_ne_zero
    simp only [List.mem_append, List.mem_cons] at he' this
    rcases he' with he' | he'
    · exact this e' (.inl he')
    · exact this e' (.inr (.inr he'))
  · intro i hi
    rw [pair_clear (by omega) hi, hshift i hi]
    split_ifs with hi' hin
    · rw [List.getD_eq_default _ _ (by simp; omega)]
    · obtain ⟨j, rfl⟩ : ∃ j, i = es₁.length + j := ⟨i - es₁.length, by omega⟩
      rw [h.pair_eq _ (by omega), List.getD_append_right _ _ _ _ (by omega),
        List.getD_append_right _ _ _ _ (by omega), Nat.add_sub_cancel_left, Nat.add_assoc,
        Nat.add_sub_cancel_left, List.getD_cons_succ]
    · rw [h.pair_eq i hi]
      by_cases hlt : i < es₁.length
      · rw [List.getD_append _ _ _ _ hlt, List.getD_append _ _ _ _ hlt]
      · rw [List.getD_eq_default _ _ (by simp; omega), List.getD_eq_default _ _ (by simp; omega)]

/-- The pairs of `nd'` are copied behind those of `nd`. -/
theorem Node.Holds.append {nd'' : Node w} (h : nd.Holds geo es) (h' : nd'.Holds geo es')
    (hroom : es.length + es'.length ≤ geo.noPairs)
    (hcopy : ∀ j, j < geo.noPairs → nd''.pair geo j =
      if es.length ≤ j ∧ j < es.length + es'.length then nd'.pair geo (j - es.length)
      else nd.pair geo j) : nd''.Holds geo (es ++ es') := by
  refine ⟨by simpa using hroom, ?_, ?_⟩
  · intro e he
    rcases List.mem_append.1 he with he | he
    · exact h.val_ne_zero e he
    · exact h'.val_ne_zero e he
  · intro i hi
    rw [hcopy i hi]
    split_ifs with hin
    · rw [h'.pair_eq _ (by omega), List.getD_append_right _ _ _ _ hin.1]
    · rw [h.pair_eq i hi]
      by_cases hlt : i < es.length
      · rw [List.getD_append _ _ _ _ hlt]
      · rw [List.getD_eq_default _ _ (by omega), List.getD_eq_default _ _ (by simp; omega)]

/-- `split_node` leaves the right half in the node and puts the left one into the new node. -/
theorem run_splitNode (hab : a ≠ b) (h : s.nodes a = some nd) (h' : s.nodes b = some nd')
    (hnd : nd.Holds geo es) (hnd' : nd'.Holds geo []) (hfull : es.length = geo.noPairs) :
    ∃ na nb, (splitNode geo a b es.length).run s = .ok ((), (s.setNode b nb).setNode a na) ∧
      nb.Holds geo (es.take (geo.noPairs / 2)) ∧ na.Holds geo (es.drop (geo.noPairs / 2)) := by
  obtain ⟨na, nb, hrun, hnb, hna⟩ : ∃ na nb,
      (splitLoop geo a b (es.length / 2) (es.length / 2) 0).run s = _ ∧ _ ∧ _ :=
    run_splitLoop hab h h' (by omega) (by omega)
  have hnew : nb.Holds geo (es.take (geo.noPairs / 2)) := by
    refine ⟨by simp; omega, fun e he => hnd.val_ne_zero e (List.mem_of_mem_take he), ?_⟩
    intro i hi
    rw [hnb i hi, hfull, Nat.zero_add, List.getD_eq_getElem?_getD, List.getElem?_take]
    split_ifs with h₁ h₂ h₂
    · rw [hnd.pair_eq i hi, List.getD_eq_getElem?_getD]
    · omega
    · omega
    · rw [hnd'.pair_eq i hi]
      rfl
  -- what the node is to hold, slot by slot
  have hdrop : ∀ i, i < geo.noPairs → (es.drop (geo.noPairs / 2)).getD i (0, 0) =
      if i + geo.noPairs / 2 < geo.noPairs then nd.pair geo (i + geo.noPairs / 2) else (0, 0) := by
    intro i hi
    rw [List.getD_eq_getElem?_getD, List.getElem?_drop, ← List.getD_eq_getElem?_getD, Nat.add_comm]
    split_ifs with h₁
    · rw [hnd.pair_eq _ h₁]
    · exact List.getD_eq_default _ _ (by omega)
  unfold splitNode
  rw [Exec.run_bind_of_ok hrun]
  by_cases hodd : es.length % 2 = 1
  · have hcopy : (copypair geo a (es.length / 2) a (es.length - 1)).run
        ((s.setNode b nb).setNode a na) = _ :=
      run_copypair setNode_nodes_self setNode_nodes_self (by omega) (by omega)
    refine ⟨(na.copy geo (es.length / 2) na (es.length - 1)).setpair geo (es.length - 1)
      (List.replicate geo.keylen 0) 0, nb, ?_, hnew, ?_⟩
    · rw [if_pos hodd, Exec.run_bind_of_ok hcopy, run_clearpair setNode_nodes_self (by omega),
        setNode_setNode, setNode_setNode]
    · refine ⟨by simp; omega, fun e he => hnd.val_ne_zero e (List.mem_of_mem_drop he), ?_⟩
      intro i hi
      have hfour := geo.four_le_noPairs
      have hlast : es.length - 1 < geo.noPairs := by omega
      have hhalf : es.length / 2 < geo.noPairs := by omega
      rw [pair_clear hlast hi, pair_copy hhalf hi, hna i hi, hna _ hlast, hdrop i hi, hfull]
      have hmid : i = geo.noPairs / 2 → geo.noPairs - 1 = i + geo.noPairs / 2 := by omega
      split_ifs <;> first | rfl | omega | rw [hmid ‹i = geo.noPairs / 2›]
  · refine ⟨na, nb, ?_, hnew, ?_⟩
    · rw [if_neg hodd]
      rfl
    · refine ⟨by simp; omega, fun e he => hnd.val_ne_zero e (List.mem_of_mem_drop he), ?_⟩
      intro i hi
      rw [hna i hi, hdrop i hi, hfull]
      split_ifs <;> first | rfl | omega

end Changes

end StructLib.Btree
