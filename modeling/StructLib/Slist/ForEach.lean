import StructLib.Slist.Stack

set_option autoImplicit false

/-! # The loop `slist_for_each_safe`

The loop walks the chain that it found at its start, and calls `slist_del_all` before it goes on to
the next node. A node that is added before the last of these calls is taken off the list and is not
on the chain walked: nobody sees it again (`forEach_right_iff`). -/

namespace StructLib.Slist

/-! ## The loop -/

/-- The body runs between the load of `i->next` and `slist_del_all`; `container_of` of a node is not
    NULL. -/
def forEachLoop : ℕ → Option Ptr → Prog Res Unit
  | _, none => return ()
  | 0, some _ => .outOfFuel
  | fuel + 1, some i => do
      let t ← readNext (some i)
      let _ ← slistDelAll
      forEachLoop fuel t

def slistForEachSafe (fuel : ℕ) : Prog Res Unit := do
  forEachLoop fuel (← readFirst)

/-- The calls while the loop runs. A call of `slist_add` in the body is one of a producer that runs
    while the loop waits. -/
inductive LoopOp where
  | add (n : Ptr)
  | forEach
  deriving DecidableEq

def LoopOp.code : LoopOp → ℕ → Prog Res Result
  | add n, fuel => Op.code (.add n) fuel
  | forEach, fuel => do
      let _ ← slistForEachSafe fuel
      return .node none

/-! ## What has been added and visited -/

abbrev LoopEv (ι : Type) := Event Res (Thread ι) LoopOp Result

/-- The nodes on the list, those that were there when the loop began, those it has visited, and
    those added since it began. -/
structure LoopLog where
  list : List Ptr
  start : Option (List Ptr) := none
  visited : List Ptr := []
  added : List Ptr := []

/-- The loop begins when it reads `first`. It visits a node when it has read its `next`. -/
def LoopLog.step {ι : Type} (l : LoopLog) : LoopEv ι → LoopLog
  | ⟨_, .add n, .cmpxchg old _, entry, _⟩ =>
      if entry = old then
        { l with list := n :: l.list, added := if l.start.isSome then n :: l.added else l.added }
      else l
  | ⟨_, .forEach, .readFirst, _, _⟩ => { l with start := some l.list }
  | ⟨_, .forEach, .readNext (some n), _, _⟩ => { l with visited := l.visited ++ [n] }
  | ⟨_, .forEach, .xchg _, _, _⟩ => { l with list := [] }
  | _ => l

def loopLog {ι : Type} (st : List Ptr) (tr : List (LoopEv ι)) : LoopLog :=
  tr.foldl LoopLog.step { list := st }

/-- The producers add nodes that are not on the list, were not on it when the loop began, and are
    not being added by another call. There is one loop. -/
def forEachSystem (ι : Type) (st : List Ptr) :
    System SlistMem Res (Thread ι) LoopOp Result where
  perform := perform
  code op := op.code
  enabled tr c t op :=
    match t, op with
    | .producer _, .add n =>
        n ∉ (loopLog st tr).list ∧ (∀ snap, (loopLog st tr).start = some snap → n ∉ snap) ∧
          ∀ t p, c.running t ≠ some (.add n, p)
    | .consumer, .forEach => (loopLog st tr).start = none
    | _, _ => False

/-- What should be so when the loop has run to its end: each node that was on the list when it began
    has been visited once, and a node added since has been visited or is on the list. -/
structure LoopRight (l : LoopLog) : Prop where
  once : ∀ snap, l.start = some snap → ∀ n ∈ snap, l.visited.count n = 1
  kept : ∀ n ∈ l.added, n ∈ l.visited ∨ n ∈ l.list

/-! ## The invariant -/

variable {ι : Type} {st : List Ptr}

/-- At its end the loop has visited what was on the list when it began, and has emptied the list. -/
def EndsRight (st : List Ptr) (before : List (LoopEv ι)) (ev : LoopEv ι) : Prop :=
  ev.op = .forEach → ev.ret.isSome →
    (loopLog st (before ++ [ev])).start = some (loopLog st (before ++ [ev])).visited ∧
      (loopLog st (before ++ [ev])).list = []

/-- What holds in every state. -/
structure LoopInv (st : List Ptr) (tr : List (LoopEv ι)) (s : SlistMem) : Prop where
  chain : Chain .next s.link .first (loopLog st tr).list
  idle : (loopLog st tr).start = none → (loopLog st tr).visited = [] ∧ (loopLog st tr).added = []
  nodup : ∀ snap, (loopLog st tr).start = some snap → snap.Nodup
  apart : ∀ snap, (loopLog st tr).start = some snap → ∀ n ∈ (loopLog st tr).added, n ∉ snap
  ends : EachEvent (EndsRight st) tr

/-- The loop before `slist_del_all`. -/
def loopDelAll (fuel : ℕ) (t : Option Ptr) : Prog Res Unit := do
  let _ ← slistDelAll
  forEachLoop fuel t

/-- What the loop knows at a point of its code: the rest of the chain that it walks. -/
inductive LoopAt (l : LoopLog) (s : SlistMem) : Prog Res Result → Prop
  | start (fuel : ℕ) (fresh : l.start = none) : LoopAt l s (LoopOp.code .forEach fuel)
  | outOfFuel : LoopAt l s .outOfFuel
  | load (fuel : ℕ) {n : Ptr} {rest : List Ptr} (snap : l.start = some (l.visited ++ n :: rest))
      (chain : Chain .next s.link (.next n) rest) :
      LoopAt l s (do let _ ← forEachLoop (fuel + 1) (some n); return .node none)
  | delAll (fuel : ℕ) {t : Option Ptr} {rest : List Ptr} (snap : l.start = some (l.visited ++ rest))
      (chain : Chain .next (Function.update s.link .first t) .first rest) :
      LoopAt l s (do let _ ← loopDelAll fuel t; return .node none)

/-- What a thread knows at a point of its call. -/
def PointAt (st : List Ptr) (t : Thread ι) (op : LoopOp) (p : Prog Res Result)
    (tr : List (LoopEv ι)) (s : SlistMem) : Prop :=
  match op with
  | .add n => t ≠ .consumer ∧ n ∉ (loopLog st tr).list ∧
      (∀ snap, (loopLog st tr).start = some snap → n ∉ snap) ∧ AddAt n [] s p
  | .forEach => t = .consumer ∧ LoopAt (loopLog st tr) s p

/-- Calls of two threads at a time: the nodes they add are different. -/
def Apart (op op' : LoopOp) : Prop := ∀ n, op = .add n → op' ≠ .add n

section Steps

variable {tr : List (LoopEv ι)} {s s' : SlistMem} {n : Ptr} {l l' : LoopLog} {p q : Prog Res Result}
  {t t' : Thread ι} {op op' : LoopOp}

theorem loopLog_snoc {ev : LoopEv ι} : loopLog st (tr ++ [ev]) = (loopLog st tr).step ev := by
  simp [loopLog]

/-! ## Interference -/

/-- The loop's chain is of nodes that were on the list when it began. -/
theorem LoopAt.other (h : LoopAt l s p) (hstart : l'.start = l.start)
    (hvisited : l'.visited = l.visited)
    (hlink : ∀ snap, l.start = some snap → ∀ m ∈ snap, s'.link (.next m) = s.link (.next m)) :
    LoopAt l' s' p := by
  cases h with
  | start fuel fresh => exact .start fuel (hstart.trans fresh)
  | outOfFuel => exact .outOfFuel
  | load fuel snap chain =>
      refine .load fuel (hstart.trans (hvisited ▸ snap)) (chain.relink ?_ fun y hy => ?_)
      · exact hlink _ snap _ (by simp)
      · exact hlink _ snap _ (by simp [hy])
  | delAll fuel snap chain =>
      refine .delAll fuel (hstart.trans (hvisited ▸ snap)) (chain.relink ?_ fun y hy => ?_)
      · rw [Function.update_self, Function.update_self]
      · exact hlink _ snap _ (by simp [hy])

/-- What an access changes of the log and of the links of nodes, as far as others can see it. -/
structure Frame (st : List Ptr) (tr : List (LoopEv ι)) (s : SlistMem) (ev : LoopEv ι)
    (s' : SlistMem) : Prop where
  link : ∀ m, ev.op ≠ .add m → s'.link (.next m) = s.link (.next m)
  list : ∀ m, ev.op ≠ .add m → m ∈ (loopLog st (tr ++ [ev])).list → m ∈ (loopLog st tr).list
  start : (loopLog st (tr ++ [ev])).start = (loopLog st tr).start ∨ ev.op = .forEach ∧
    (loopLog st (tr ++ [ev])).start = some (loopLog st tr).list
  visited : ev.op ≠ .forEach → (loopLog st (tr ++ [ev])).visited = (loopLog st tr).visited

/-- An access leaves what another thread knows true. -/
theorem Frame.other {ev : LoopEv ι} (hf : Frame st tr s ev s')
    (hat : PointAt st ev.thread ev.op p tr s) (ht : t' ≠ ev.thread) (hop : Apart ev.op op')
    (hat' : PointAt st t' op' q tr s) : PointAt st t' op' q (tr ++ [ev]) s' := by
  cases op' with
  | add m =>
      have hne : ev.op ≠ .add m := fun heq => hop m heq rfl
      obtain ⟨hcons, hlist, hsnap, hadd⟩ := hat'
      refine ⟨hcons, fun hm => hlist (hf.list m hne hm), fun snap hstart => ?_,
        hadd.other (hf.link m hne)⟩
      rcases hf.start with heq | ⟨-, heq⟩
      · exact hsnap snap (heq ▸ hstart)
      · obtain rfl : (loopLog st tr).list = snap := Option.some_inj.1 (heq.symm.trans hstart)
        exact hlist
  | forEach =>
      obtain ⟨rfl, hloop⟩ := hat'
      cases hev : ev.op with
      | forEach =>
          rw [hev] at hat
          exact absurd hat.1.symm ht
      | add n =>
          rw [hev] at hat
          obtain ⟨-, -, hsnap, -⟩ := hat
          have hne : ev.op ≠ .forEach := by simp [hev]
          have hstart : (loopLog st (tr ++ [ev])).start = (loopLog st tr).start :=
            hf.start.resolve_right fun h => hne h.1
          refine ⟨rfl, hloop.other hstart (hf.visited hne) fun snap hs m hm => hf.link m ?_⟩
          rw [hev]
          rintro ⟨⟩
          exact hsnap snap hs hm

/-! ## One access -/

/-- What an access keeps that returns `b`, the program going on as `p'`. -/
structure LoopKeeps (st : List Ptr) (tr : List (LoopEv ι)) (s : SlistMem) (t : Thread ι)
    (op : LoopOp) (x : Acc) (b : Res x) (s' : SlistMem) (p' : Prog Res Result) : Prop where
  inv : LoopInv st (tr ++ [⟨t, op, x, b, p'.value⟩]) s'
  own : p'.value = none → PointAt st t op p' (tr ++ [⟨t, op, x, b, p'.value⟩]) s'
  frame : Frame st tr s ⟨t, op, x, b, p'.value⟩ s'

/-- An access of `slist_add` that adds nothing. -/
theorem LoopInv.quiet {x : Acc} {b : Res x} {p' : Prog Res Result} (h : LoopInv st tr s)
    (hlog : (loopLog st tr).step ⟨t, .add n, x, b, p'.value⟩ = loopLog st tr)
    (hchain : Chain .next s'.link .first (loopLog st tr).list)
    (hlink : ∀ m, m ≠ n → s'.link (.next m) = s.link (.next m))
    (hown : p'.value = none → PointAt st t (.add n) p' tr s') :
    LoopKeeps st tr s t (.add n) x b s' p' := by
  have hsame : loopLog st (tr ++ [⟨t, .add n, x, b, p'.value⟩]) = loopLog st tr := by
    rw [loopLog_snoc, hlog]
  refine ⟨⟨?_, ?_, ?_, ?_, h.ends.snoc fun hop => by cases hop⟩, ?_, ⟨fun m hm => hlink m ?_, ?_, ?_,
    ?_⟩⟩
  · rwa [hsame]
  · rw [hsame]; exact h.idle
  · rw [hsame]; exact h.nodup
  · rw [hsame]; exact h.apart
  · intro hv
    have hat := hown hv
    unfold PointAt at hat ⊢
    rwa [hsame]
  · rintro rfl
    exact hm rfl
  · rw [hsame]; exact fun _ _ hm => hm
  · exact .inl (by rw [hsame])
  · exact fun _ => by rw [hsame]

/-- An access of `slist_add`. -/
theorem loop_add_step {x : Acc} {next : Res x → Prog Res Result} (h : LoopInv st tr s)
    (hat : PointAt st t (.add n) (.access x next) tr s) :
    ∃ b s' p', (perform x).run s = .ok (b, s') ∧ next b = p' ∧
      LoopKeeps st tr s t (.add n) x b s' p' := by
  obtain ⟨ht, hlist, hsnap, hadd⟩ := hat
  cases hadd with
  | start fuel =>
      exact ⟨s.link .first, s, _, rfl, rfl, h.quiet rfl h.chain (fun _ _ => rfl)
        fun _ => ⟨ht, hlist, hsnap, addAt_loop fuel _⟩⟩
  | store fuel old =>
      have hchain : Chain .next (s.write (.next n) old).link .first (loopLog st tr).list :=
        h.chain.relink write_next_first fun y hy => write_next_ne fun heq => hlist (heq ▸ hy)
      exact ⟨(), s.write (.next n) old, _, rfl, rfl, h.quiet rfl hchain (fun m hm => write_next_ne hm)
        fun _ => ⟨ht, hlist, hsnap, .cas fuel write_next⟩⟩
  | @cas fuel old stored =>
      by_cases hfirst : s.link .first = old
      · have hrun : (perform (.cmpxchg old (some n))).run s =
            .ok (s.link .first, s.write .first (some n)) :=
          congrArg (fun s' => Except.ok (s.link .first, s')) (if_pos hfirst)
        have hlog : loopLog st (tr ++ [⟨t, .add n, .cmpxchg old (some n), s.link .first,
            some (.bool old.isNone)⟩]) =
            { loopLog st tr with
              list := n :: (loopLog st tr).list
              added := if (loopLog st tr).start.isSome then n :: (loopLog st tr).added
                else (loopLog st tr).added } := by
          rw [loopLog_snoc]
          exact if_pos hfirst
        refine ⟨s.link .first, _, .ret (.bool old.isNone), hrun,
          congrArg (Prog.bind · _) (if_pos hfirst),
          ⟨⟨?_, ?_, ?_, ?_, h.ends.snoc fun hop => by cases hop⟩, by simp [Prog.value],
            ⟨fun _ _ => write_first_next, ?_, ?_, ?_⟩⟩⟩
        · rw [Prog.value, hlog]
          refine ⟨write_first, h.chain.relink ?_ fun y _ => rfl⟩
          rw [write_first_next, stored, hfirst]
        · rw [Prog.value, hlog]
          intro hnone
          refine ⟨(h.idle hnone).1, ?_⟩
          rw [if_neg (by simp [show (loopLog st tr).start = none from hnone])]
          exact (h.idle hnone).2
        · rw [Prog.value, hlog]
          exact h.nodup
        · rw [Prog.value, hlog]
          intro snap hstart m hm
          rw [if_pos (by simp [show (loopLog st tr).start = some snap from hstart])] at hm
          rcases List.mem_cons.1 hm with rfl | hm
          · exact hsnap snap hstart
          · exact h.apart snap hstart m hm
        · rw [Prog.value, hlog]
          intro m hne hm
          exact (List.mem_cons.1 hm).resolve_left fun heq => hne (heq ▸ rfl)
        · exact .inl (by rw [Prog.value, hlog])
        · exact fun _ => by rw [Prog.value, hlog]
      · have hrun : (perform (.cmpxchg old (some n))).run s = .ok (s.link .first, s) :=
          congrArg (fun s' => Except.ok (s.link .first, s')) (if_neg hfirst)
        exact ⟨s.link .first, s, _, hrun, congrArg (Prog.bind · _) (if_neg hfirst),
          h.quiet (if_neg hfirst) h.chain (fun _ _ => rfl)
            fun _ => ⟨ht, hlist, hsnap, addAt_loop fuel _⟩⟩

theorem value_forEachLoop (fuel : ℕ) (c : Option Ptr) :
    (do let _ ← forEachLoop fuel c; return Result.node none : Prog Res Result).value =
      if c = none then some (.node none) else none := by
  cases c with
  | none => cases fuel <;> rfl
  | some i => cases fuel <;> rfl

/-- The loop goes on at the chain from its cursor. -/
theorem loopAt_loop {c : Option Ptr} {rest : List Ptr} (fuel : ℕ)
    (snap : l.start = some (l.visited ++ rest))
    (chain : Chain .next (Function.update s.link .first c) .first rest) (hc : c ≠ none) :
    LoopAt l s (do let _ ← forEachLoop fuel c; return .node none) := by
  cases c with
  | none => exact absurd rfl hc
  | some i =>
      cases rest with
      | nil =>
          rw [chain_nil, Function.update_self] at chain
          cases chain
      | cons n rest =>
          rw [chain_cons, Function.update_self] at chain
          obtain ⟨⟨⟩, chain⟩ := chain
          cases fuel with
          | zero => exact .outOfFuel
          | succ fuel =>
              refine .load fuel snap (chain.relink ?_ fun y _ => ?_)
              · exact (Function.update_of_ne (by simp) ..).symm
              · exact (Function.update_of_ne (by simp) ..).symm

/-- At the end of the chain the loop has visited all of it. -/
theorem snap_of_end {rest : List Ptr} (snap : l.start = some (l.visited ++ rest))
    (chain : Chain .next (Function.update s.link .first none) .first rest) :
    l.start = some l.visited := by
  rw [(chain.unique (show Chain .next (Function.update s.link .first none) .first [] from
    Function.update_self ..) : rest = []), List.append_nil] at snap
  exact snap

/-- The loop begins. -/
theorem loop_start_step (fuel : ℕ) (h : LoopInv st tr s) (hfresh : (loopLog st tr).start = none) :
    ∃ b s' p', (perform .readFirst).run s = .ok (b, s') ∧
      (do let _ ← forEachLoop fuel b; return .node none : Prog Res Result) = p' ∧
        LoopKeeps st tr s (.consumer : Thread ι) .forEach .readFirst b s' p' := by
  obtain ⟨hvisited, hadded⟩ := h.idle hfresh
  have hlog : ∀ v, loopLog st (tr ++ [⟨(.consumer : Thread ι), .forEach, .readFirst, s.link .first,
      v⟩]) = { loopLog st tr with start := some (loopLog st tr).list } := by
    intro v
    rw [loopLog_snoc]
    rfl
  have hchain : Chain .next (Function.update s.link .first (s.link .first)) .first
      (loopLog st tr).list := by
    rw [Function.update_eq_self]
    exact h.chain
  have hsnap : (some (loopLog st tr).list : Option (List Ptr)) =
      some ((loopLog st tr).visited ++ (loopLog st tr).list) := by rw [hvisited, List.nil_append]
  refine ⟨s.link .first, s, _, rfl, rfl, ⟨⟨?_, ?_, ?_, ?_, h.ends.snoc fun _ hend => ?_⟩, ?_,
    ⟨fun _ _ => rfl, ?_, ?_, fun hop => absurd rfl hop⟩⟩⟩
  · rw [hlog]
    exact h.chain
  · rw [hlog]
    intro hnone
    cases hnone
  · rw [hlog]
    rintro snap ⟨⟩
    exact h.chain.nodup
  · rw [hlog]
    rintro snap - n hn
    rw [show _ = _ from hadded] at hn
    cases hn
  · have hnone : s.link .first = none := by
      by_contra hne
      rw [value_forEachLoop, if_neg hne] at hend
      cases hend
    have hempty : (loopLog st tr).list = [] := h.chain.unique hnone
    rw [hlog]
    exact ⟨by rw [hempty, hvisited], hempty⟩
  · intro hv
    refine ⟨rfl, ?_⟩
    rw [hlog]
    refine loopAt_loop fuel hsnap hchain fun hnone => ?_
    rw [value_forEachLoop, if_pos hnone] at hv
    cases hv
  · rw [hlog]
    exact fun _ _ hm => hm
  · rw [hlog]
    exact .inr ⟨rfl, rfl⟩

/-- The loop reads the `next` of its node, and visits the node. -/
theorem loop_load_step (fuel : ℕ) {rest : List Ptr} (h : LoopInv st tr s)
    (snap : (loopLog st tr).start = some ((loopLog st tr).visited ++ n :: rest))
    (chain : Chain .next s.link (.next n) rest) :
    ∃ b s' p', (perform (.readNext (some n))).run s = .ok (b, s') ∧
      (do let _ ← loopDelAll fuel b; return .node none : Prog Res Result) = p' ∧
        LoopKeeps st tr s (.consumer : Thread ι) .forEach (.readNext (some n)) b s' p' := by
  have hlog : ∀ v, loopLog st (tr ++ [⟨(.consumer : Thread ι), .forEach, .readNext (some n),
      s.link (.next n), v⟩]) =
      { loopLog st tr with visited := (loopLog st tr).visited ++ [n] } := by
    intro v
    rw [loopLog_snoc]
    rfl
  refine ⟨s.link (.next n), s, _, rfl, rfl, ⟨⟨?_, ?_, ?_, ?_, h.ends.snoc fun _ hend => ?_⟩, ?_,
    ⟨fun _ _ => rfl, ?_, .inl ?_, fun hop => absurd rfl hop⟩⟩⟩
  · rw [hlog]
    exact h.chain
  · rw [hlog]
    intro hnone
    cases snap.symm.trans hnone
  · rw [hlog]
    exact h.nodup
  · rw [hlog]
    exact h.apart
  · cases hend
  · intro _
    refine ⟨rfl, ?_⟩
    rw [hlog]
    refine .delAll fuel ?_ (chain.relink ?_ fun y _ => ?_)
    · simp [snap]
    · exact Function.update_self ..
    · exact Function.update_of_ne (by simp) ..
  · rw [hlog]
    exact fun _ _ hm => hm
  · rw [hlog]

/-- `slist_del_all`. -/
theorem loop_delAll_step (fuel : ℕ) {c : Option Ptr} {rest : List Ptr} (h : LoopInv st tr s)
    (snap : (loopLog st tr).start = some ((loopLog st tr).visited ++ rest))
    (chain : Chain .next (Function.update s.link .first c) .first rest) :
    ∃ b s' p', (perform (.xchg none)).run s = .ok (b, s') ∧
      (do let _ ← forEachLoop fuel c; return .node none : Prog Res Result) = p' ∧
        LoopKeeps st tr s (.consumer : Thread ι) .forEach (.xchg none) b s' p' := by
  have hlog : ∀ v, loopLog st (tr ++ [⟨(.consumer : Thread ι), .forEach, .xchg none, s.link .first,
      v⟩]) = { loopLog st tr with list := [] } := by
    intro v
    rw [loopLog_snoc]
    rfl
  have hchain : Chain .next (Function.update (s.write .first none).link .first c) .first rest := by
    rw [SlistMem.write, Function.update_idem]
    exact chain
  refine ⟨s.link .first, s.write .first none, _, rfl, rfl,
    ⟨⟨?_, ?_, ?_, ?_, h.ends.snoc fun _ hend => ?_⟩, ?_,
      ⟨fun _ _ => write_first_next, ?_, .inl ?_, fun hop => absurd rfl hop⟩⟩⟩
  · rw [hlog]
    exact write_first
  · rw [hlog]
    exact h.idle
  · rw [hlog]
    exact h.nodup
  · rw [hlog]
    exact h.apart
  · have hnone : c = none := by
      by_contra hne
      rw [value_forEachLoop, if_neg hne] at hend
      cases hend
    subst hnone
    rw [hlog]
    exact ⟨snap_of_end snap chain, rfl⟩
  · intro hv
    refine ⟨rfl, ?_⟩
    rw [hlog]
    refine loopAt_loop fuel (l := { loopLog st tr with list := [] }) snap hchain fun hnone => ?_
    rw [value_forEachLoop, if_pos hnone] at hv
    cases hv
  · rw [hlog]
    intro m _ hm
    cases hm
  · rw [hlog]

theorem loop_access_step {x : Acc} {next : Res x → Prog Res Result} (h : LoopInv st tr s)
    (hat : PointAt st t op (.access x next) tr s) :
    ∃ b s' p', (perform x).run s = .ok (b, s') ∧ next b = p' ∧ LoopKeeps st tr s t op x b s' p' := by
  cases op with
  | add n => exact loop_add_step h hat
  | forEach =>
      obtain ⟨rfl, hloop⟩ := hat
      cases hloop with
      | start fuel fresh => exact loop_start_step fuel h fresh
      | load fuel snap chain => exact loop_load_step fuel h snap chain
      | delAll fuel snap chain => exact loop_delAll_step fuel h snap chain

end Steps

/-! ## All interleavings -/

theorem loopInv_init {s : SlistMem} (hs : Chain .next s.link .first st) :
    LoopInv st ([] : List (LoopEv ι)) s where
  chain := hs
  idle _ := ⟨rfl, rfl⟩
  nodup := by
    rintro snap ⟨⟩
  apart := by
    rintro snap ⟨⟩
  ends := eachEvent_nil

/-- The invariant holds in every interleaving of the loop and any number of producers, and no thread
    does anything undefined. -/
theorem loopInv_of_run [DecidableEq ι] {s : SlistMem} (hs : Chain .next s.link .first st)
    {tr : List (LoopEv ι)} {c : Config SlistMem Res (Thread ι) LoopOp Result}
    (h : (forEachSystem ι st).Run s tr c) :
    LoopInv st tr c.mem ∧ (forEachSystem ι st).NoFault c := by
  have houtline : Outlined (LoopInv st) (PointAt st) (fun _ op _ op' => Apart op op') tr c ∧ _ :=
    System.Run.outline (fun _ _ _ _ hop n hn hn' => hop n hn' hn) (loopInv_init hs)
      (fun tr c t op fuel _ en => ?_) (fun tr s t op x next hG hat => ?_) h
  · exact ⟨houtline.1.mem, houtline.2⟩
  · cases op with
    | add n =>
        cases t with
        | consumer => exact en.elim
        | producer i =>
            refine ⟨⟨by simp, en.1, en.2.1, .start fuel⟩, fun t' op' p' _ hrun m hm hm' => ?_⟩
            obtain rfl : n = m := by simpa using hm
            exact en.2.2 t' p' (hm' ▸ hrun)
    | forEach =>
        cases t with
        | producer i => exact en.elim
        | consumer => exact ⟨⟨rfl, .start fuel en⟩, fun _ _ _ _ _ n hn => by cases hn⟩
  · obtain ⟨b, s', p', hrun, rfl, hk⟩ := loop_access_step hG hat
    exact ⟨b, s', hrun, hk.inv, hk.own,
      fun t' op' q ht hop hat' => hk.frame.other hat ht hop hat'⟩

/-- **When `slist_for_each_safe` drops nothing**: in the interleavings in which no node is added
    after the loop has begun and before it has run to its end. -/
theorem forEach_right_iff {ι : Type} [DecidableEq ι] (s : SlistMem) (st : List Ptr)
    (hs : Chain .next s.link .first st) (tr : List (LoopEv ι)) (ev : LoopEv ι)
    (c : Config SlistMem Res (Thread ι) LoopOp Result)
    (h : (forEachSystem ι st).Run s (tr ++ [ev]) c) (hop : ev.op = .forEach)
    (hend : ev.ret.isSome) :
    LoopRight (loopLog st (tr ++ [ev])) ↔ (loopLog st (tr ++ [ev])).added = [] := by
  obtain ⟨hinv, -⟩ := loopInv_of_run hs h
  obtain ⟨hsnap, hlist⟩ := hinv.ends tr ev [] rfl hop hend
  constructor
  · intro hright
    refine List.eq_nil_iff_forall_not_mem.2 fun n hn => ?_
    rcases hright.kept n hn with hvisited | hon
    · exact hinv.apart _ hsnap n hn hvisited
    · rw [hlist] at hon
      cases hon
  · intro hnone
    refine ⟨fun snap hstart n hn => ?_, fun n hn => ?_⟩
    · obtain rfl := Option.some_inj.1 (hsnap.symm.trans hstart)
      exact List.count_eq_one_of_mem (hinv.nodup _ hsnap) hn
    · rw [hnone] at hn
      cases hn

/-- The list of the nodes 0 and 1. -/
def twoNodes : SlistMem where
  link
    | .first => some 0
    | .next 0 => some 1
    | .next _ => none

theorem chain_twoNodes : Chain .next twoNodes.link .first [0, 1] := ⟨rfl, rfl, rfl⟩

theorem enabled_forEach {tr : List (LoopEv ι)}
    {c : Config SlistMem Res (Thread ι) LoopOp Result} (h : (loopLog st tr).start = none) :
    (forEachSystem ι st).enabled tr c .consumer .forEach := h

/-- The node 5 is added before the loop begins, and the loop visits it first. -/
theorem forEach_right_iff_before : ∃ (tr : List (LoopEv Unit)) (ev : LoopEv Unit) (c : _),
    (forEachSystem Unit [0, 1]).Run twoNodes (tr ++ [ev]) c ∧ ev.op = .forEach ∧ ev.ret.isSome ∧
      (loopLog [0, 1] (tr ++ [ev])).visited = [5, 0, 1] ∧
      LoopRight (loopLog [0, 1] (tr ++ [ev])) := by
  have hinit : (forEachSystem Unit [0, 1]).Run twoNodes [] _ := .nil
  have hadd := hinit.call (t := .producer ()) rfl
    (show (forEachSystem Unit [0, 1]).enabled [] _ (.producer ()) (.add 5) from
      ⟨by decide, by rintro snap ⟨⟩, by simp⟩) 1
  have hload := hadd.access (t := .producer ()) rfl rfl
  have hstore := hload.access (t := .producer ()) rfl rfl
  have hcas := hstore.access (t := .producer ()) rfl rfl
  have hcall := hcas.call (t := .consumer) rfl
    (enabled_forEach (by decide +kernel)) 3
  have hfirst := hcall.access (t := .consumer) rfl rfl
  have hnext₅ := hfirst.access (t := .consumer) rfl rfl
  have htaken := hnext₅.access (t := .consumer) rfl rfl
  have hnext₀ := htaken.access (t := .consumer) rfl rfl
  have htaken' := hnext₀.access (t := .consumer) rfl rfl
  have hnext₁ := htaken'.access (t := .consumer) rfl rfl
  have hend := hnext₁.access (t := .consumer) rfl rfl
  refine ⟨_, _, _, hend, rfl, rfl, ?_, ?_⟩
  · decide +kernel
  · exact (forEach_right_iff twoNodes [0, 1] chain_twoNodes _ _ _ hend rfl rfl).2
      (by decide +kernel)

/-- The list of the node 0. -/
def oneNode : SlistMem where
  link
    | .first => some 0
    | .next _ => none

theorem chain_oneNode : Chain .next oneNode.link .first [0] := ⟨rfl, rfl⟩

/-- The node 5, added in the body of the first turn, is never seen again. -/
theorem forEach_drops_five : Chain .next oneNode.link .first [0] ∧ ¬ ∀ (tr : List (LoopEv Unit)) (ev : LoopEv Unit) (c : _),
    (forEachSystem Unit [0]).Run oneNode (tr ++ [ev]) c → ev.op = .forEach → ev.ret.isSome →
      LoopRight (loopLog [0] (tr ++ [ev])) := by
  refine ⟨chain_oneNode, fun hright => ?_⟩
  have hinit : (forEachSystem Unit [0]).Run oneNode [] _ := .nil
  have hcall := hinit.call (t := .consumer) rfl
    (show (forEachSystem Unit [0]).enabled [] _ .consumer .forEach from rfl) 1
  have hfirst := hcall.access (t := .consumer) rfl rfl
  have hnext := hfirst.access (t := .consumer) rfl rfl
  have hadd := hnext.call (t := .producer ()) rfl
    (show (forEachSystem Unit [0]).enabled _ _ (.producer ()) (.add 5) from
      ⟨by decide, by rintro snap ⟨⟩; decide, by rintro (_ | _) p heq <;> cases heq⟩) 1
  have hload := hadd.access (t := .producer ()) rfl rfl
  have hstore := hload.access (t := .producer ()) rfl rfl
  have hcas := hstore.access (t := .producer ()) rfl rfl
  have hend := hcas.access (t := .consumer) rfl rfl
  rcases (hright _ _ _ hend rfl rfl).kept 5 (by decide) with hvisited | hon
  · exact absurd hvisited (by decide)
  · exact absurd hon (by decide)

end StructLib.Slist
