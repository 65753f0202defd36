import StructLib.Slist.Stack

set_option autoImplicit false

/-! # The stack (`stack.h`)

`stack_push` and `stack_pop` are `slist_add` and `slist_remove_head`. Without other threads each
`cmpxchg` succeeds at once, so every call makes one turn. `stack_pop` reads `entry->next` before it
looks at `entry`: on an empty stack it follows NULL (`run_stackPop_empty`). -/

namespace StructLib.Slist

/-! ## The functions -/

/-- `stack_init`. -/
def slistInit : Exec SlistMem Unit := modify (·.write .first none)

def stackPush (newNode : Ptr) (fuel : ℕ) : Exec SlistMem Bool := (slistAdd newNode fuel).exec perform

def stackPop (fuel : ℕ) : Exec SlistMem (Option Ptr) := (slistRemoveHead fuel).exec perform

inductive StackOp where
  | push (n : Ptr)
  | pop
  deriving DecidableEq

def StackOp.exec : StackOp → ℕ → Exec SlistMem Result
  | push n, fuel => do return .bool (← stackPush n fuel)
  | pop, fuel => do return .node (← stackPop fuel)

def runOps : List StackOp → ℕ → Exec SlistMem (List Result)
  | [], _ => return []
  | op :: ops, fuel => do
      let r ← op.exec fuel
      let rs ← runOps ops fuel
      return r :: rs

/-- A history of calls after `stack_init`. -/
def runStack (ops : List StackOp) (fuel : ℕ) : Exec SlistMem (List Result) := do
  slistInit
  runOps ops fuel

/-! ## What a stack does -/

/-- A stack is the list of the nodes pushed and not popped since, the last one first; a pop from
    the empty one changes nothing. -/
def stackSpec : Spec (List Ptr) StackOp Result where
  result st
    | .push _ => .bool st.isEmpty
    | .pop => .node st.head?
  next st
    | .push n => n :: st
    | .pop => st.tail

/-- What the calls of a history should return. -/
def stackResults : List Ptr → List StackOp → List Result
  | _, [] => []
  | st, op :: ops => stackSpec.result st op :: stackResults (stackSpec.next st op) ops

/-- The nodes on the stack after a history. -/
def stackAfter (st : List Ptr) (ops : List StackOp) : List Ptr := ops.foldl stackSpec.next st

/-- At every point of the history all calls have returned what they should. -/
def StackRight (s : SlistMem) (ops : List StackOp) : Prop :=
  ∀ before after, ops = before ++ after → ∃ s',
    Returns (runStack before) s (stackResults [] before) s'

/-- At every point of the history the chain is the stack. -/
def StackChained (s : SlistMem) (ops : List StackOp) : Prop :=
  ∀ before after, ops = before ++ after → ∃ rs s',
    Returns (runStack before) s rs s' ∧ Chain .next s'.link .first (stackAfter [] before)

/-- Every pop of a history that starts with the stack `st` finds a node. -/
def PopsFilled (st : List Ptr) (ops : List StackOp) : Prop :=
  ∀ before after, ops = before ++ .pop :: after → stackAfter st before ≠ []

/-- No node is pushed that is on the stack then. -/
def PushesFresh (st : List Ptr) (ops : List StackOp) : Prop :=
  ∀ before n after, ops = before ++ .push n :: after → n ∉ stackAfter st before

/-! ## One call -/

section Calls

variable {s s' : SlistMem} {n : Ptr} {st : List Ptr} {fuel : ℕ}

/-- A pop from the empty stack follows NULL. -/
theorem run_stackPop_empty (hs : s.link .first = none) :
    (stackPop (fuel + 1)).run s = .error .undef := by
  change ((slistRemoveLoop (fuel + 1) (s.link .first)).exec perform).run s = _
  rw [hs]
  rfl

/-- A pop that returns has a node. -/
theorem ne_none_of_run_stackPop {p : Option Ptr} (h : (stackPop (fuel + 1)).run s = .ok (p, s')) :
    p ≠ none := by
  cases hs : s.link .first with
  | none =>
      rw [run_stackPop_empty hs] at h
      cases h
  | some n =>
      have hn := (run_slistRemoveHead hs).symm.trans h
      cases hn
      simp

/-- A call that is not a pop from the empty stack or a push of a node on the stack. -/
theorem returns_stackOp (hs : Chain .next s.link .first st) (op : StackOp)
    (hpop : op = .pop → st ≠ []) (hpush : ∀ n, op = .push n → n ∉ st) :
    ∃ s', Returns op.exec s (stackSpec.result st op) s' ∧
      Chain .next s'.link .first (stackSpec.next st op) := by
  cases op with
  | push n =>
      have hn : n ∉ st := hpush n rfl
      have hempty : (s.link .first).isNone = st.isEmpty := by
        rw [hs.link_eq]
        cases st <;> rfl
      refine ⟨(s.write (.next n) (s.link .first)).write .first (some n),
        .of_succ ⟨0, fun fuel _ => ?_⟩, write_first, hs.relink ?_ fun y hy => ?_⟩
      · change ((slistAdd n (fuel + 1)).exec perform >>= fun b => pure (Result.bool b)).run s = _
        rw [Exec.run_bind_of_ok run_slistAdd, hempty]
        rfl
      · rw [write_first_next, write_next]
      · have hne : y ≠ n := fun heq => hn (heq ▸ hy)
        rw [write_first_next, write_next_ne hne]
  | pop =>
      cases st with
      | nil => exact absurd rfl (hpop rfl)
      | cons m rest =>
          refine ⟨s.write .first (s.link (.next m)), .of_succ ⟨0, fun fuel _ => ?_⟩,
            hs.2.relink write_first fun y _ => rfl⟩
          change ((slistRemoveHead (fuel + 1)).exec perform >>= fun p => pure (Result.node p)).run s =
            _
          rw [Exec.run_bind_of_ok (run_slistRemoveHead hs.1)]
          rfl

end Calls

/-! ## Histories -/

section Histories

variable {s s' : SlistMem} {st : List Ptr} {op : StackOp} {ops before : List StackOp}

theorem stackAfter_snoc : stackAfter st (ops ++ [op]) = stackSpec.next (stackAfter st ops) op := by
  simp [stackAfter]

theorem PopsFilled.tail (h : PopsFilled st (op :: ops)) :
    PopsFilled (stackSpec.next st op) ops :=
  fun before after heq => h (op :: before) after (by rw [heq, List.cons_append])

theorem PushesFresh.tail (h : PushesFresh st (op :: ops)) :
    PushesFresh (stackSpec.next st op) ops :=
  fun before n after heq => h (op :: before) n after (by rw [heq, List.cons_append])

/-- A history without a pop from the empty stack or a push of a node on the stack. -/
theorem returns_runOps (hs : Chain .next s.link .first st) (hpops : PopsFilled st ops)
    (hpushes : PushesFresh st ops) : ∃ s', Returns (runOps ops) s (stackResults st ops) s' ∧
      Chain .next s'.link .first (stackAfter st ops) := by
  induction ops generalizing s st with
  | nil => exact ⟨s, .of_run rfl, hs⟩
  | cons op ops ih =>
      have hpop : op = .pop → st ≠ [] := by
        rintro rfl
        exact hpops [] ops rfl
      have hpush : ∀ n, op = .push n → n ∉ st := by
        rintro n rfl
        exact hpushes [] n ops rfl
      obtain ⟨s₁, hret, hs₁⟩ := returns_stackOp hs op hpop hpush
      obtain ⟨s₂, hrets, hs₂⟩ := ih hs₁ hpops.tail hpushes.tail
      exact ⟨s₂, hret.bind (hrets.map _), hs₂⟩

/-- The last call of a history. -/
theorem runOps_snoc (fuel : ℕ) : runOps (ops ++ [op]) fuel = do
    let rs ← runOps ops fuel
    let r ← op.exec fuel
    return rs ++ [r] := by
  induction ops with
  | nil => simp [runOps]
  | cons op' ops ih => simp [runOps, ih]

theorem stackResults_snoc : stackResults st (ops ++ [op]) =
    stackResults st ops ++ [stackSpec.result (stackAfter st ops) op] := by
  induction ops generalizing st with
  | nil => rfl
  | cons op' ops ih =>
      rw [List.cons_append, stackResults, ih]
      rfl

/-- A pop from the empty stack faults or returns a node that is not on the stack, so a history that
    is right has none. -/
theorem StackRight.popsFilled (hright : StackRight s ops) : PopsFilled [] ops := by
  intro before after heq hempty
  obtain ⟨s₁, hret⟩ := hright (before ++ [.pop]) after (by simpa using heq)
  obtain ⟨fuel, hrun⟩ : ∃ fuel, (runStack (before ++ [.pop]) (fuel + 1)).run s =
      .ok (stackResults [] (before ++ [.pop]), s₁) := by
    obtain ⟨k, hk⟩ := hret
    exact ⟨k, hk (k + 1) (Nat.le_succ k)⟩
  rw [stackResults_snoc, hempty] at hrun
  obtain ⟨-, s₂, -, hrun⟩ := Exec.of_run_bind hrun
  rw [runOps_snoc] at hrun
  obtain ⟨rs, s₃, hbefore, hrun⟩ := Exec.of_run_bind hrun
  obtain ⟨r, s₄, hpop, hrun⟩ := Exec.of_run_bind hrun
  obtain ⟨p, s₅, hpop, hr⟩ := Exec.of_run_bind hpop
  have hnode : .node p = r := by
    cases hr
    rfl
  have hnone : r = .node none := by
    obtain ⟨hrs, -⟩ : rs ++ [r] = stackResults [] before ++ [.node none] ∧ s₄ = s₁ := by
      simpa [stackSpec] using hrun
    simpa using (List.append_inj' hrs rfl).2
  exact ne_none_of_run_stackPop hpop (by simpa [hnone] using hnode)

/-- No chain has a node twice. -/
theorem StackChained.pushesFresh (hchained : StackChained s ops) : PushesFresh [] ops := by
  intro before n after heq hmem
  obtain ⟨rs, s₁, -, hs₁⟩ := hchained (before ++ [.push n]) after (by simpa using heq)
  rw [stackAfter_snoc] at hs₁
  exact (List.nodup_cons.1 hs₁.nodup).1 hmem

theorem returns_runStack (hpops : PopsFilled [] (before ++ ops))
    (hpushes : PushesFresh [] (before ++ ops)) : ∃ s',
      Returns (runStack before) s (stackResults [] before) s' ∧
        Chain .next s'.link .first (stackAfter [] before) := by
  refine returns_runOps write_first (fun before' after' heq => ?_) fun before' n after' heq => ?_
  · exact hpops before' (after' ++ ops) (by rw [heq]; simp)
  · exact hpushes before' n (after' ++ ops) (by rw [heq]; simp)

/-- **When the stack is right**: calls return what they should and the chain is the stack in a
    history in which no node is popped from the empty stack and none is pushed that is on the stack,
    and in no other. It is the chain that asks for the second: where no node is pushed that is on
    the stack, calls return what they should if and only if none pops from the empty stack. -/
theorem stackRight_iff (s : SlistMem) (ops : List StackOp) :
    (StackRight s ops ∧ StackChained s ops ↔ PopsFilled [] ops ∧ PushesFresh [] ops) ∧
      (PushesFresh [] ops → (StackRight s ops ↔ PopsFilled [] ops)) := by
  have hright : PopsFilled [] ops → PushesFresh [] ops →
      StackRight s ops ∧ StackChained s ops := by
    intro hpops hpushes
    constructor
    · rintro before after rfl
      obtain ⟨s', hret, -⟩ := returns_runStack hpops hpushes
      exact ⟨s', hret⟩
    · rintro before after rfl
      obtain ⟨s', hret⟩ := returns_runStack hpops hpushes
      exact ⟨_, s', hret⟩
  constructor
  · constructor
    · exact fun h => ⟨h.1.popsFilled, h.2.pushesFresh⟩
    · exact fun h => hright h.1 h.2
  · exact fun hpushes => ⟨StackRight.popsFilled, fun hpops => (hright hpops hpushes).1⟩

/-- A node pushed and popped. -/
example : ∃ s', Returns (runStack [.push 5, .pop]) ⟨fun _ => none⟩
    [.bool true, .node (some 5)] s' :=
  ⟨_, .of_succ ⟨0, fun _ _ => rfl⟩⟩

/-- A pop from the empty stack does not return. -/
theorem stack_wrong_pop : ¬ ∀ s ops, PushesFresh [] ops → StackRight s ops := by
  intro hright
  have hfresh : PushesFresh [] [.pop] := by
    rintro before n after heq
    cases before with
    | nil => simp at heq
    | cons op before => simp at heq
  exact (hright ⟨fun _ => none⟩ [.pop] hfresh).popsFilled [] [] rfl rfl

end Histories

end StructLib.Slist
