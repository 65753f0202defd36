import StructLib.Hashtable.Refine

set_option autoImplicit false

/-! # Enumeration with calls from the routine

The routine that `EnumHashEntry` calls may itself insert and remove entries, but not the one it has
been shown. Insertions go to the front of `FastList`, which the cursor has left behind, and the
cursor moves on only after the routine has returned, so it is always at an old entry that is still
there (`enum_visits_live`). -/

namespace StructLib.Hash

/-! ## Routines -/

/-- What a routine does in one turn: calls whose results it may look at, and then an action. Each
    insertion comes with what `malloc` does in it. -/
inductive Script (κ : Type) where
  | done (action : Int32) (context : κ)
  | insert (idNode : UInt32) (nodeData : List UInt8) (dataSize : UInt32)
      (malloc : Hashtable → Option ℕ) (next : ℤ → Script κ)
  | remove (idNode : UInt32) (next : ℤ → Script κ)

/-- A turn and the calls made in it, with their results. -/
def Script.exec {κ : Type} (fuel : ℕ) : Script κ → Exec Hashtable (List (MapOp × ℤ) × Int32 × κ)
  | done action context => return ([], action, context)
  | insert idNode nodeData dataSize malloc next => do
      let mem := malloc (← get)
      let r ← insertHashEntry fuel idNode nodeData dataSize mem
      let (calls, last) ← (next r).exec fuel
      return ((.insert idNode nodeData dataSize mem, r) :: calls, last)
  | remove idNode next => do
      let r ← removeHashEntry fuel idNode
      let (calls, last) ← (next r).exec fuel
      return ((.remove idNode, r) :: calls, last)

/-- `malloc` returns a free block or fails, and there is no room for `2 ^ 31` entries. -/
structure Allocates (malloc : Hashtable → Option ℕ) : Prop where
  free : ∀ s m, malloc s = some m → s.node m = none
  room : ∀ s m, malloc s = some m → s.numberOfNode < 2 ^ 31 - 1

/-- No call is on the entry `idNode`, and the bytes of an insertion are there. -/
def Script.Spares {κ : Type} (idNode : UInt32) : Script κ → Prop
  | done _ _ => True
  | insert id nodeData dataSize malloc next =>
      id ≠ idNode ∧ dataSize.toNat ≤ nodeData.length ∧ Allocates malloc ∧
        ∀ r, (next r).Spares idNode
  | remove id next => id ≠ idNode ∧ ∀ r, (next r).Spares idNode

/-- What the routine has been shown, the calls it has made then, and its result. -/
structure Turn where
  idNode : UInt32
  data : List UInt8
  calls : List (MapOp × ℤ)
  action : Int32

/-- A routine that notes its turns behind its own context. -/
def noted {κ : Type} (routine : κ → UInt32 → List UInt8 → UInt32 → Script κ) (fuel : ℕ) :
    EnumRoutine (κ × List Turn) := fun context idNode data dataSize => do
  let (calls, action, own) ← (routine context.1 idNode data dataSize).exec fuel
  return (action, own, context.2 ++ [⟨idNode, data, calls, action⟩])

/-! ## What an enumeration should do -/

/-- The call inserts or removes an entry `id`, if it succeeds. -/
def MapOp.On (id : UInt32) : MapOp → Prop
  | insert idNode _ _ _ => idNode = id
  | remove idNode => idNode = id
  | _ => False

/-- The entries after the calls. -/
def afterCalls (l : List Item) (calls : List (MapOp × ℤ)) : List Item :=
  calls.foldl (fun l call => call.1.next l) l

/-- The entries after a turn: the calls have had their effects, and the entry shown is deleted if
    the action says so. -/
def Turn.after (l : List Item) (t : Turn) : List Item :=
  if t.action &&& ENUM_DELETE ≠ 0 then (afterCalls l t.calls).filter (·.id ≠ t.idNode)
  else afterCalls l t.calls

/-- The turns of an enumeration of the entries `l`. -/
structure EnumRight (l : List Item) (turns : List Turn) : Prop where
  /-- Entries are shown in the order of the list, each at most once. -/
  order : (turns.map fun t => (t.idNode, t.data)).Sublist (l.map fun x => (x.id, x.data))
  /-- No entry is shown that an earlier turn has inserted or removed. -/
  live : turns.Pairwise fun b t => ∀ call ∈ b.calls, call.2 = 0 → ¬ call.1.On t.idNode
  /-- An entry is shown unless the turn of one before it has removed it or ended the loop. -/
  all : ∀ x ∈ l, (∀ t ∈ turns, [t.idNode, x.id].Sublist (l.map Item.id) →
      t.action &&& ENUM_CONTINUE ≠ 0 ∧ (MapOp.remove x.id, 0) ∉ t.calls) →
    ∃ t ∈ turns, t.idNode = x.id
  /-- Only the last turn can have ended the loop. -/
  stops : turns.Pairwise fun t _ => t.action &&& ENUM_CONTINUE ≠ 0

/-! ## One turn -/

section Turns

variable {κ : Type} {s : Hashtable} {N : ℕ} {l pre post : List Item} {x : Item} {id size : UInt32}
  {data : List UInt8}

theorem Table.returns_remove (h : Table s N l) (id : UInt32) :
    ∃ r s', Returns (fun fuel => removeHashEntry fuel id) s r s' ∧
      Table s' N (l.filter (·.id ≠ id)) ∧ (r = 0 ↔ id ∈ l.map Item.id) := by
  by_cases hid : id ∈ l.map Item.id
  · obtain ⟨x, hx, rfl⟩ := List.mem_map.1 hid
    obtain ⟨pre, post, rfl⟩ := List.append_of_mem hx
    refine ⟨0, _, h.returns_removeHashEntry hx, ?_, iff_of_true rfl hid⟩
    rw [filter_id_ne h.ids]
    exact h.without.1
  · refine ⟨ENOENT, s, h.returns_removeHashEntry_of_not_mem hid, ?_, iff_of_false (by decide) hid⟩
    rwa [filter_id_ne_of_not_mem hid]

theorem Table.returns_insert (h : Table s N l) (id : UInt32) (mem : Option ℕ)
    (hsize : size.toNat ≤ data.length)
    (hmem : ∀ m, mem = some m → s.node m = none ∧ s.numberOfNode < 2 ^ 31 - 1) :
    ∃ r s', Returns (fun fuel => insertHashEntry fuel id data size mem) s r s' ∧
      Table s' N ((MapOp.insert id data size mem).next l) ∧ (r = 0 → id ∉ l.map Item.id) := by
  cases mem with
  | none =>
      exact ⟨ENOMEM, s, ⟨0, fun _ _ => Exec.run_bind_of_ok h.run_burketOf _⟩, h,
        fun h0 => absurd h0 (by decide)⟩
  | some m =>
      obtain ⟨hm, hroom⟩ := hmem m rfl
      rw [h.count] at hroom
      by_cases hid : id ∈ l.map Item.id
      · obtain ⟨s', hret, htable, -⟩ := h.returns_insertHashEntry_of_mem hm hsize hid
        refine ⟨EEXIST, s', hret, ?_, fun h0 => absurd h0 (by decide)⟩
        rwa [MapOp.next, if_pos hid]
      · obtain ⟨s', hret, htable, -⟩ := h.returns_insertHashEntry hm hsize hid (by omega)
        refine ⟨0, s', hret, ?_, fun _ => hid⟩
        rwa [MapOp.next, if_neg hid]

/-- A turn at the entry `x` leaves `x` and, of the entries behind it, just those in place that no
    call has removed; no call has inserted one of these. -/
theorem Table.returns_script (h : Table s N (pre ++ x :: post)) {script : Script κ}
    (hspares : script.Spares x.id) : ∃ calls last s' pre' post',
      Returns (fun fuel => script.exec fuel) s (calls, last) s' ∧ Table s' N (pre' ++ x :: post') ∧
      afterCalls (pre ++ x :: post) calls = pre' ++ x :: post' ∧ post'.Sublist post ∧
      (∀ y ∈ post, (MapOp.remove y.id, 0) ∉ calls → y ∈ post') ∧
      ∀ y ∈ post', ∀ call ∈ calls, call.2 = 0 → ¬ call.1.On y.id := by
  induction script generalizing s pre post with
  | done action context =>
      exact ⟨[], (action, context), s, pre, post, .of_run rfl, h, rfl, .refl _, fun y hy _ => hy,
        by simp⟩
  | insert id data size malloc next ih =>
      obtain ⟨hid, hsize, halloc, hnext⟩ := hspares
      obtain ⟨r, s₁, hret, h₁, hzero⟩ := h.returns_insert id (malloc s) hsize
        fun m hm => ⟨halloc.free s m hm, halloc.room s m hm⟩
      -- a new entry stands in front of the others
      obtain ⟨pre₁, hpre₁⟩ : ∃ pre₁, (MapOp.insert id data size (malloc s)).next (pre ++ x :: post) =
          pre₁ ++ x :: post := by
        cases malloc s with
        | none => exact ⟨pre, rfl⟩
        | some m =>
            simp only [MapOp.next]
            split_ifs
            · exact ⟨pre, rfl⟩
            · exact ⟨_ :: pre, rfl⟩
      rw [hpre₁] at h₁
      obtain ⟨calls, last, s', pre', post', hret', h', hafter, hsub, hstay, hold⟩ :=
        ih r h₁ (hnext r)
      refine ⟨(.insert id data size (malloc s), r) :: calls, last, s', pre', post', ?_, h', ?_, hsub,
        fun y hy hcalls => hstay y hy fun hmem => hcalls (List.mem_cons_of_mem _ hmem), ?_⟩
      · exact (Returns.of_run rfl).bind (hret.bind (hret'.bind (.of_run rfl)))
      · rw [afterCalls, List.foldl_cons, hpre₁]
        exact hafter
      · rintro y hy call hcall hcode
        rcases List.mem_cons.1 hcall with rfl | hcall
        · intro hon
          obtain rfl : id = y.id := hon
          exact hzero hcode (List.mem_map_of_mem
            (List.mem_append_right _ (List.mem_cons_of_mem _ (hsub.subset hy))))
        · exact hold y hy call hcall hcode
  | remove id next ih =>
      obtain ⟨hid, hnext⟩ := hspares
      obtain ⟨r, s₁, hret, h₁, hzero⟩ := h.returns_remove id
      have hfilter : (MapOp.remove id).next (pre ++ x :: post) =
          pre.filter (·.id ≠ id) ++ x :: post.filter (·.id ≠ id) := by
        rw [MapOp.next, List.filter_append, List.filter_cons_of_pos (by simpa using hid.symm)]
      change Table s₁ N ((MapOp.remove id).next (pre ++ x :: post)) at h₁
      rw [hfilter] at h₁
      obtain ⟨calls, last, s', pre', post', hret', h', hafter, hsub, hstay, hold⟩ :=
        ih r h₁ (hnext r)
      refine ⟨(.remove id, r) :: calls, last, s', pre', post', ?_, h', ?_,
        hsub.trans List.filter_sublist, fun y hy hcalls => ?_, ?_⟩
      · exact hret.bind (hret'.bind (.of_run rfl))
      · rw [afterCalls, List.foldl_cons, hfilter]
        exact hafter
      · have hne : y.id ≠ id := by
          rintro rfl
          have hmem : y.id ∈ (pre ++ x :: post).map Item.id :=
            List.mem_map_of_mem (List.mem_append_right _ (List.mem_cons_of_mem _ hy))
          rw [hzero.2 hmem] at hcalls
          exact hcalls List.mem_cons_self
        exact hstay y (List.mem_filter.2 ⟨hy, by simpa using hne⟩)
          fun hmem => hcalls (List.mem_cons_of_mem _ hmem)
      · rintro y hy call hcall hcode
        rcases List.mem_cons.1 hcall with rfl | hcall
        · intro hon
          obtain rfl : id = y.id := hon
          simpa using (List.mem_filter.1 (hsub.subset hy)).2
        · exact hold y hy call hcall hcode

end Turns

/-! ## The whole loop -/

section Loop

variable {κ : Type} {s : Hashtable} {N : ℕ} {l pre post post' : List Item} {x : Item}
  {turns : List Turn} {t : Turn} {routine : κ → UInt32 → List UInt8 → UInt32 → Script κ}

theorem enumRight_nil : EnumRight [] [] := ⟨.slnil, .nil, by simp, .nil⟩

/-- A turn that ends the loop. -/
theorem enumRight_last (hid : t.idNode = x.id) (hdata : t.data = x.data)
    (hstop : ¬ t.action &&& ENUM_CONTINUE ≠ 0) : EnumRight (x :: post) [t] where
  order := by simp [hid, hdata]
  live := List.pairwise_singleton _ _
  all y hy hy' := by
    rcases List.mem_cons.1 hy with rfl | hy
    · exact ⟨t, List.mem_cons_self, hid⟩
    · have hpair : [t.idNode, y.id].Sublist ((x :: post).map Item.id) := by
        rw [hid, List.map_cons]
        exact (List.singleton_sublist.2 (List.mem_map_of_mem hy)).cons_cons x.id
      exact absurd (hy' t List.mem_cons_self hpair).1 hstop
  stops := List.pairwise_singleton _ _

/-- A turn after which the loop goes on with what is left of the entries behind `x`. -/
theorem EnumRight.cons (h : EnumRight post' turns) (hid : t.idNode = x.id) (hdata : t.data = x.data)
    (hgo : t.action &&& ENUM_CONTINUE ≠ 0) (hsub : post'.Sublist post)
    (hstay : ∀ y ∈ post, (MapOp.remove y.id, 0) ∉ t.calls → y ∈ post')
    (hold : ∀ y ∈ post', ∀ call ∈ t.calls, call.2 = 0 → ¬ call.1.On y.id) :
    EnumRight (x :: post) (t :: turns) where
  order := by
    simp only [List.map_cons, hid, hdata]
    exact (h.order.trans (hsub.map _)).cons_cons _
  live := by
    refine List.pairwise_cons.2 ⟨fun u hu => ?_, h.live⟩
    obtain ⟨y, hy, heq⟩ := List.mem_map.1 (h.order.subset (List.mem_map_of_mem hu))
    have hyu : y.id = u.idNode := congrArg Prod.fst heq
    rw [← hyu]
    exact hold y hy
  all y hy hy' := by
    rcases List.mem_cons.1 hy with rfl | hy
    · exact ⟨t, List.mem_cons_self, hid⟩
    · have hpair : [t.idNode, y.id].Sublist ((x :: post).map Item.id) := by
        rw [hid, List.map_cons]
        exact (List.singleton_sublist.2 (List.mem_map_of_mem hy)).cons_cons x.id
      have hy₁ := hstay y hy (hy' t List.mem_cons_self hpair).2
      obtain ⟨u, hu, huid⟩ := h.all y hy₁ fun u hu hbefore =>
        hy' u (List.mem_cons_of_mem t hu) ((hbefore.trans (hsub.map _)).cons x.id)
      exact ⟨u, List.mem_cons_of_mem t hu, huid⟩
  stops := List.pairwise_cons.2 ⟨fun _ _ => hgo, h.stops⟩

/-- The entries after a turn, in terms of `keep`. -/
theorem Turn.after_eq {pre' : List Item} (hids : ((pre' ++ x :: post').map Item.id).Nodup)
    (hcalls : afterCalls l t.calls = pre' ++ x :: post') (hid : t.idNode = x.id) :
    t.after l = pre' ++ keep t.action x ++ post' := by
  rw [Turn.after, hcalls, hid, filter_id_ne hids, keep]
  by_cases hdel : t.action &&& ENUM_DELETE ≠ 0
  · rw [if_pos hdel, if_pos hdel, List.append_nil]
  · rw [if_neg hdel, if_neg hdel, List.append_assoc, List.singleton_append]

/-- The loop, at the entry with which the rest `todo` of `FastList` starts. -/
theorem Table.run_enumLoop_noted
    (hroutine : ∀ context id data size, (routine context id data size).Spares id)
    {todo : List Item} (h : Table s N (pre ++ todo)) (last : Int32) (context : κ)
    (seen : List Turn) : ∃ turns own s' K,
      (∀ fuel rounds, K ≤ fuel → todo.length < rounds →
        (enumLoop (noted routine fuel) rounds ((todo.map Item.fastLink).headD .fastList) last
          (context, seen)).run s =
            .ok (((turns.getLast?.map Turn.action).getD last, own, seen ++ turns), s')) ∧
      EnumRight todo turns ∧ Table s' N (turns.foldl Turn.after (pre ++ todo)) := by
  induction hlen : todo.length using Nat.strong_induction_on
    generalizing s pre todo last context seen with
  | _ len ih =>
      cases todo with
      | nil =>
          refine ⟨[], context, s, 0, fun fuel rounds _ hrounds => ?_, enumRight_nil, h⟩
          obtain ⟨rounds, rfl⟩ := Nat.exists_eq_add_one.2 (Nat.zero_lt_of_lt hrounds)
          rw [List.append_nil]
          rfl
      | cons x post =>
          obtain ⟨calls, ⟨action, own⟩, s₁, pre', post', ⟨K, hK⟩, h₁, hcalls, hsub, hstay, hold⟩ :=
            h.returns_script (hroutine context x.id x.data (.ofNat x.data.length))
          have hnoted : ∀ fuel, K ≤ fuel →
              (noted routine fuel (context, seen) x.id x.data (.ofNat x.data.length)).run s =
                .ok ((action, own, seen ++ [⟨x.id, x.data, calls, action⟩]), s₁) := by
            intro fuel hfuel
            unfold noted
            rw [Exec.run_bind_of_ok (hK fuel hfuel)]
            rfl
          obtain ⟨h₂, -⟩ := h₁.after_action action
          have hafter := Turn.after_eq (t := ⟨x.id, x.data, calls, action⟩) h₁.ids hcalls rfl
          rw [← hafter] at h₂
          by_cases hgo : action &&& ENUM_CONTINUE ≠ 0
          · have hlt : post'.length < len := by
              have hle := hsub.length_le
              simp only [List.length_cons] at hlen
              omega
            rw [hafter] at h₂
            obtain ⟨turns, own', s', K', hrun, hright, h'⟩ := ih post'.length hlt h₂ action own
              (seen ++ [⟨x.id, x.data, calls, action⟩]) rfl
            rw [← hafter] at h'
            refine ⟨⟨x.id, x.data, calls, action⟩ :: turns, own', s', max K K',
              fun fuel rounds hfuel hrounds => ?_, hright.cons rfl rfl hgo hsub hstay hold, h'⟩
            obtain ⟨rounds, rfl⟩ := Nat.exists_eq_add_one.2 (Nat.zero_lt_of_lt hrounds)
            simp only [List.length_cons] at hlen hrounds
            rw [List.map_cons, List.headD_cons,
              h.run_enumLoop_step last (hnoted fuel (by omega)) h₁, if_pos hgo,
              hrun fuel rounds (by omega) (by omega), List.append_assoc, List.singleton_append]
            cases turns with
            | nil => rfl
            | cons u turns =>
                rw [List.getLast?_cons_cons, List.getLast?_cons]
                rfl
          · refine ⟨[⟨x.id, x.data, calls, action⟩], own, _, K, fun fuel rounds hfuel hrounds => ?_,
              enumRight_last rfl rfl hgo, h₂⟩
            obtain ⟨rounds, rfl⟩ := Nat.exists_eq_add_one.2 (Nat.zero_lt_of_lt hrounds)
            rw [List.map_cons, List.headD_cons,
              h.run_enumLoop_step last (hnoted fuel hfuel) h₁, if_neg hgo]
            rfl

/-- **Enumeration with any such routine** shows, in the order of `FastList`, the entries that were
    there at the start and are still there when their turn comes, and deletes those that it is told
    to. -/
theorem enum_visits_live (routine : κ → UInt32 → List UInt8 → UInt32 → Script κ)
    (hroutine : ∀ context id data size, (routine context id data size).Spares id)
    (h : Table s N l) (context : κ) : ∃ r own turns s',
      Returns (fun fuel => enumHashEntry (noted routine fuel) fuel (context, [])) s r s' ∧
      Returns (fun fuel => enumContextHashEntry (noted routine fuel) fuel (context, [])) s
        (r, own, turns) s' ∧
      EnumRight l turns ∧ (turns.map Turn.idNode).Nodup ∧ Table s' N (turns.foldl Turn.after l) ∧
      r = ((turns.getLast?.map Turn.action).getD ENUM_CONTINUE &&& ENUM_CONTINUE).toInt := by
  obtain ⟨turns, own, s', K, hrun, hright, h'⟩ :=
    (show Table s N ([] ++ l) from h).run_enumLoop_noted hroutine ENUM_CONTINUE context []
  have hret : Returns (fun fuel => enumContextHashEntry (noted routine fuel) fuel (context, [])) s
      (((turns.getLast?.map Turn.action).getD ENUM_CONTINUE &&& ENUM_CONTINUE).toInt, own, turns)
      s' := by
    refine ⟨max K (l.length + 1), fun fuel hfuel => ?_⟩
    unfold enumContextHashEntry
    rw [Exec.run_bind_of_ok (run_getFlink isList_fastList), h.rings.fast.next_eq,
      Exec.run_bind_of_ok (hrun fuel fuel (by omega) (by omega))]
    rfl
  refine ⟨_, own, turns, s', hret.map Prod.fst, hret, hright, ?_, h', rfl⟩
  have hids := hright.order.map Prod.fst
  simp only [List.map_map] at hids
  exact h.ids.sublist hids

/-- A `malloc` that has one block. -/
def oneBlock (s : Hashtable) : Option ℕ :=
  if s.node 7 = none ∧ s.numberOfNode < 2 ^ 31 - 1 then some 7 else none

theorem allocates_oneBlock : Allocates oneBlock := by
  constructor <;> intro s m hm <;> unfold oneBlock at hm <;> split_ifs at hm with hfree
  · rw [← Option.some.inj hm]
    exact hfree.1
  · exact hfree.2

/-- Shown the entry 2, replace the entry 1 by an entry 3 and have the entry 2 deleted. -/
def replaceOne (_ : Unit) (idNode : UInt32) (_ : List UInt8) (_ : UInt32) : Script Unit :=
  if idNode = 2 then
    .remove 1 fun _ => .insert 3 [] 0 oneBlock fun _ => .done (ENUM_CONTINUE ||| ENUM_DELETE) ()
  else .done ENUM_CONTINUE ()

/-- On a table with the entries 2 and 1. -/
theorem enum_visits_live_two : ∃ s l, Table s 2 l ∧ l.map Item.id = [2, 1] ∧
    ∃ r own turns s', Returns (fun fuel => enumHashEntry (noted replaceOne fuel) fuel ((), [])) s r s' ∧
      Returns (fun fuel => enumContextHashEntry (noted replaceOne fuel) fuel ((), [])) s
        (r, own, turns) s' ∧
      EnumRight l turns ∧ Table s' 2 (turns.foldl Turn.after l) := by
  obtain ⟨s₀, -, h₀, hnode₀⟩ := returns_createHashTable_64 .none
    (show (2 : UInt32).toNat = 2 from rfl) (by decide) (by decide)
  have hsize : (0 : UInt32).toNat ≤ ([] : List UInt8).length := Nat.zero_le _
  have hnew₁ : (1 : UInt32) ∉ ([] : List Item).map Item.id := by simp
  obtain ⟨s₁, -, h₁, hsame, -⟩ := h₀.returns_insertHashEntry (m := 0) (by rw [hnode₀]; rfl) hsize
    hnew₁ (by decide)
  have hfree : s₁.node 1 = none := by
    rw [(hsame 1 (by decide)).node, hnode₀]
    rfl
  have hnew₂ : (2 : UInt32) ∉ [(⟨0, 1, ([] : List UInt8).take (0 : UInt32).toNat⟩ : Item)].map
      Item.id := by simp
  obtain ⟨s₂, -, h₂, -, -⟩ := h₁.returns_insertHashEntry hfree hsize hnew₂ (by decide)
  have hspares : ∀ context id data size, (replaceOne context id data size).Spares id := by
    intro context id data size
    unfold replaceOne
    split_ifs with hid
    · subst hid
      exact ⟨by decide, fun _ => ⟨by decide, hsize, allocates_oneBlock, fun _ => trivial⟩⟩
    · trivial
  obtain ⟨r, own, turns, s', hret, hret', hright, -, h', -⟩ :=
    enum_visits_live replaceOne hspares h₂ ()
  exact ⟨s₂, _, h₂, rfl, r, own, turns, s', hret, hret', hright, h'⟩

end Loop

end StructLib.Hash
