import StructLib.Slist.Model

set_option autoImplicit false

/-! # The lock-less list is a stack

The chain from `first` is at all times the stack of the nodes added and not yet taken
(`slist_is_stack`). A producer's stale copy of `first` does no harm: its `cmpxchg` succeeds only if
the copy, by then stored in the new node, is `first` again. The consumer's stale copy of a `next` is
right because nobody else takes nodes: a node that the consumer has seen as the first one stays on
the list, and with it its `next`. -/

namespace StructLib.Slist

variable {ι : Type}

/-- What a call returns with an access, if it does; `before` are the accesses so far. -/
structure RightlyReturns (before : List (Ev ι)) (ev : Ev ι) : Prop where
  empty : ∀ r, ev.op = .empty → ev.ret = some r → r = .bool (log before).stack.isEmpty
  added : ∀ n r, ev.op = .add n → ev.ret = some r →
    (log (before ++ [ev])).stack = n :: (log before).stack ∧
      r = .bool (log before).stack.isEmpty
  removed : ∀ r, ev.op = .removeHead → ev.ret = some r → ∃ n rest,
    (log before).stack = n :: rest ∧ r = .node (some n) ∧ (log (before ++ [ev])).stack = rest
  tookAll : ∀ r, ev.op = .delAll → ev.ret = some r →
    r = .node (log before).stack.head? ∧ (log (before ++ [ev])).stack = []

/-- What holds in every state. -/
structure Right (tr : List (Ev ι)) (s : SlistMem) : Prop where
  chain : Chain .next s.link .first (log tr).stack
  count : ∀ n, (log tr).added.count n = (log tr).taken.count n + (log tr).stack.count n
  returns : EachEvent RightlyReturns tr
  /-- Right after `slist_del_all` the chain from what it has returned is what it took. -/
  took : ∀ before ev p, tr = before ++ [ev] → ev.op = .delAll → ev.ret = some (.node p) →
    Chain .next (Function.update s.link .first p) .first (log before).stack

/-! ## Writes -/

section Write

variable {s : SlistMem} {v : Option Ptr} {m n : Ptr}

@[simp] theorem write_first : (s.write .first v).link .first = v := by
  simp [SlistMem.write]

@[simp] theorem write_first_next : (s.write .first v).link (.next m) = s.link (.next m) := rfl

@[simp] theorem write_next_first : (s.write (.next n) v).link .first = s.link .first := rfl

@[simp] theorem write_next : (s.write (.next n) v).link (.next n) = v := by
  simp [SlistMem.write]

theorem write_next_ne (h : m ≠ n) : (s.write (.next n) v).link (.next m) = s.link (.next m) :=
  Function.update_of_ne (by simpa using h) ..

end Write

/-! ## The log -/

section Log

variable {tr : List (Ev ι)} {ev : Ev ι} {s : SlistMem} {n : Ptr}

theorem log_snoc : log (tr ++ [ev]) = (log tr).step ev := by
  simp [log]

theorem step_remove {t : Thread ι} {l : Log} {x : Acc} {b : Res x} {v : Option Result}
    (hv : v = none) : l.step ⟨t, .removeHead, x, b, v⟩ = l := by
  rw [hv]
  cases x <;> rfl

theorem took_of_ne (hop : ev.op ≠ .delAll) (before : List (Ev ι)) (ev' : Ev ι) (p : Option Ptr)
    (heq : tr ++ [ev] = before ++ [ev']) (hop' : ev'.op = .delAll)
    (_ : ev'.ret = some (.node p)) :
    Chain .next (Function.update s.link .first p) .first (log before).stack := by
  obtain ⟨-, he⟩ := List.append_inj' heq rfl
  simp only [List.cons.injEq, and_true] at he
  exact absurd (he ▸ hop') hop

theorem Right.nodup (h : Right tr s) : (log tr).stack.Nodup := h.chain.nodup

/-- An access that adds and takes nothing. -/
theorem Right.quiet {s' : SlistMem} (h : Right tr s) (hlog : (log tr).step ev = log tr)
    (hret : ev.ret = none ∨ ev.op = .empty ∧ ev.ret = some (.bool (log tr).stack.isEmpty))
    (hs' : Chain .next s'.link .first (log tr).stack) : Right (tr ++ [ev]) s' := by
  refine ⟨?_, ?_, h.returns.snoc ⟨?_, ?_, ?_, ?_⟩, ?_⟩
  · rw [log_snoc, hlog]
    exact hs'
  · rw [log_snoc, hlog]
    exact h.count
  · intro r hop hr
    rcases hret with hnone | ⟨-, hempty⟩
    · simp [hnone] at hr
    · rw [hempty, Option.some.injEq] at hr
      exact hr.symm
  · intro m r hop hr
    rcases hret with hnone | ⟨hempty, -⟩
    · simp [hnone] at hr
    · simp [hempty] at hop
  · intro r hop hr
    rcases hret with hnone | ⟨hempty, -⟩
    · simp [hnone] at hr
    · simp [hempty] at hop
  · intro r hop hr
    rcases hret with hnone | ⟨hempty, -⟩
    · simp [hnone] at hr
    · simp [hempty] at hop
  · intro before ev' p heq hop hr
    obtain ⟨-, he⟩ := List.append_inj' heq rfl
    obtain rfl : ev = ev' := by simpa using he
    rcases hret with hnone | ⟨hempty, -⟩
    · simp [hnone] at hr
    · simp [hempty] at hop

end Log

/-! ## Program points -/

/-- `slist_add` before its `cmpxchg`. -/
def addCas (n : Ptr) (fuel : ℕ) (old : Option Ptr) : Prog Res Bool := do
  let entry ← cmpxchg old (some n)
  if entry = old then return old.isNone
  else slistAddLoop n fuel entry

/-- `slist_remove_head` before its `cmpxchg`. -/
def removeCas (fuel : ℕ) (old new : Option Ptr) : Prog Res (Option Ptr) := do
  let entry ← cmpxchg old new
  if entry = old then return old
  else slistRemoveLoop fuel entry

/-- What a thread knows while it adds the node `n`, the nodes `st` being on the list. -/
inductive AddAt (n : Ptr) (st : List Ptr) (s : SlistMem) : Prog Res Result → Prop
  | start (fuel : ℕ) : AddAt n st s (Op.code (.add n) fuel)
  | outOfFuel : AddAt n st s .outOfFuel
  | store (fuel : ℕ) (old : Option Ptr) :
      AddAt n st s (do return .bool (← slistAddLoop n (fuel + 1) old))
  | cas (fuel : ℕ) {old : Option Ptr} (stored : s.link (.next n) = old) :
      AddAt n st s (do return .bool (← addCas n fuel old))

/-- What the consumer knows while it removes the first node. -/
inductive RemoveAt (st : List Ptr) (s : SlistMem) : Prog Res Result → Prop
  | start (fuel : ℕ) (seen : st ≠ []) : RemoveAt st s (Op.code .removeHead fuel)
  | outOfFuel : RemoveAt st s .outOfFuel
  | load (fuel : ℕ) {n : Ptr} (mem : n ∈ st) :
      RemoveAt st s (do return .node (← slistRemoveLoop (fuel + 1) (some n)))
  | cas (fuel : ℕ) {n : Ptr} (mem : n ∈ st) :
      RemoveAt st s (do return .node (← removeCas fuel (some n) (s.link (.next n))))

/-- What a thread knows at a point of its call. -/
def At (t : Thread ι) (op : Op) (p : Prog Res Result) (tr : List (Ev ι)) (s : SlistMem) : Prop :=
  match op with
  | .empty => p = Op.code .empty 0
  | .add n => n ∉ (log tr).stack ∧ AddAt n (log tr).stack s p
  | .removeHead => t = .consumer ∧ RemoveAt (log tr).stack s p
  | .delAll => t = .consumer ∧ p = Op.code .delAll 0

/-- Calls of two threads at a time: the nodes they add are different. -/
def Compatible (op op' : Op) : Prop := ∀ n, op = .add n → op' ≠ .add n

section Steps

variable {tr : List (Ev ι)} {s s' : SlistMem} {n : Ptr} {st st' : List Ptr} {p : Prog Res Result}

/-! ## Interference -/

theorem AddAt.other (h : AddAt n st s p) (hlink : s'.link (.next n) = s.link (.next n)) :
    AddAt n st' s' p := by
  cases h with
  | start fuel => exact .start fuel
  | outOfFuel => exact .outOfFuel
  | store fuel old => exact .store fuel old
  | cas fuel stored => exact .cas fuel (hlink.trans stored)

theorem RemoveAt.other (h : RemoveAt st s p) (hsub : ∀ m ∈ st, m ∈ st')
    (hlink : ∀ m ∈ st, s'.link (.next m) = s.link (.next m)) : RemoveAt st' s' p := by
  cases h with
  | start fuel seen =>
      obtain ⟨m, hm⟩ := List.exists_mem_of_ne_nil st seen
      exact .start fuel (List.ne_nil_of_mem (hsub m hm))
  | outOfFuel => exact .outOfFuel
  | load fuel mem => exact .load fuel (hsub _ mem)
  | cas fuel mem => exact hlink _ mem ▸ .cas fuel (hsub _ mem)

/-- Writes to the next field of a node that is not on the list do not show. -/
theorem Right.write_next (h : Right tr s) (hn : n ∉ (log tr).stack) (v : Option Ptr) :
    Chain .next (s.write (.next n) v).link .first (log tr).stack := by
  refine h.chain.frame fun m hm => ?_
  have hmn : m ≠ .next n := by
    rintro rfl
    exact hn (by simpa [places] using hm)
  exact Function.update_of_ne hmn ..

/-! ## Points of the loops -/

theorem addAt_loop (fuel : ℕ) (old : Option Ptr) :
    AddAt n st s (do return .bool (← slistAddLoop n fuel old)) := by
  cases fuel with
  | zero => exact .outOfFuel
  | succ fuel => exact .store fuel old

theorem value_addLoop (fuel : ℕ) (old : Option Ptr) :
    (do return Result.bool (← slistAddLoop n fuel old) : Prog Res Result).value = none := by
  cases fuel with
  | zero => rfl
  | succ fuel => rfl

theorem value_removeLoop (fuel : ℕ) (old : Option Ptr) :
    (do return Result.node (← slistRemoveLoop fuel old) : Prog Res Result).value = none := by
  cases fuel with
  | zero => rfl
  | succ fuel => rfl

/-- The loop goes on with the first node of a list that is not empty. -/
theorem Right.removeAt_loop (h : Right tr s) (hne : (log tr).stack ≠ []) (fuel : ℕ) :
    RemoveAt (log tr).stack s (do return .node (← slistRemoveLoop fuel (s.link .first))) := by
  cases hst : (log tr).stack with
  | nil => exact absurd hst hne
  | cons n rest =>
      have hchain := h.chain
      rw [hst] at hchain
      rw [hchain.1]
      cases fuel with
      | zero => exact .outOfFuel
      | succ fuel => exact .load fuel (by simp)

/-! ## One access -/

/-- What an access keeps that returns `b`, the program going on as `p'`. -/
structure Keeps (tr : List (Ev ι)) (s : SlistMem) (t : Thread ι) (op : Op) (x : Acc) (b : Res x)
    (s' : SlistMem) (p' : Prog Res Result) : Prop where
  right : Right (tr ++ [⟨t, op, x, b, p'.value⟩]) s'
  own : p'.value = none → At t op p' (tr ++ [⟨t, op, x, b, p'.value⟩]) s'
  link : ∀ m, op ≠ .add m → s'.link (.next m) = s.link (.next m)
  stays : op ≠ .removeHead → op ≠ .delAll →
    (log tr).stack ⊆ (log (tr ++ [⟨t, op, x, b, p'.value⟩])).stack
  comes : ∀ m ∈ (log (tr ++ [⟨t, op, x, b, p'.value⟩])).stack, m ∈ (log tr).stack ∨ op = .add m

/-- An access after which the log is the same. -/
theorem Right.goes_on {t : Thread ι} {op : Op} {x : Acc} {b : Res x} {p' : Prog Res Result}
    (h : Right tr s) (hlog : (log tr).step ⟨t, op, x, b, p'.value⟩ = log tr)
    (hret : p'.value = none ∨ op = .empty ∧ p'.value = some (.bool (log tr).stack.isEmpty))
    (hs' : Chain .next s'.link .first (log tr).stack)
    (hlink : ∀ m, op ≠ .add m → s'.link (.next m) = s.link (.next m))
    (hown : p'.value = none → At t op p' tr s') : Keeps tr s t op x b s' p' := by
  have hstack : log (tr ++ [⟨t, op, x, b, p'.value⟩]) = log tr := by rw [log_snoc, hlog]
  refine ⟨h.quiet hlog hret hs', ?_, hlink, ?_, ?_⟩
  · unfold At at hown ⊢
    rwa [hstack]
  · rw [hstack]
    exact fun _ _ => List.Subset.refl _
  · rw [hstack]
    exact fun m hm => .inl hm

/-- An access of `slist_add`. -/
theorem add_step (t : Thread ι) {x : Acc} {next : Res x → Prog Res Result} (h : Right tr s)
    (hn : n ∉ (log tr).stack) (hat : AddAt n (log tr).stack s (.access x next)) :
    ∃ b s' p', (perform x).run s = .ok (b, s') ∧ next b = p' ∧ Keeps tr s t (.add n) x b s' p' := by
  cases hat with
  | start fuel =>
      exact ⟨s.link .first, s, _, rfl, rfl, h.goes_on rfl (.inl (value_addLoop fuel _)) h.chain
        (fun _ _ => rfl) fun _ => ⟨hn, addAt_loop fuel _⟩⟩
  | store fuel old =>
      refine ⟨(), s.write (.next n) old, _, rfl, rfl, h.goes_on rfl (.inl rfl)
        (h.write_next hn old) (fun m hm => write_next_ne ?_) fun _ => ⟨hn, .cas fuel write_next⟩⟩
      rintro rfl
      exact hm rfl
  | @cas fuel old stored =>
      by_cases hfirst : s.link .first = old
      · have hrun : (perform (.cmpxchg old (some n))).run s =
            .ok (s.link .first, s.write .first (some n)) :=
          congrArg (fun s' => Except.ok (s.link .first, s')) (if_pos hfirst)
        have hlog : (log tr).step ⟨t, .add n, .cmpxchg old (some n), s.link .first,
            some (.bool old.isNone)⟩ =
            { log tr with stack := n :: (log tr).stack, added := n :: (log tr).added } :=
          if_pos hfirst
        refine ⟨s.link .first, _, .ret (.bool old.isNone), hrun,
          congrArg (Prog.bind · _) (if_pos hfirst), ⟨⟨?_, ?_, h.returns.snoc ⟨?_, ?_, ?_, ?_⟩, ?_⟩,
          ?_, ?_, ?_, ?_⟩⟩
        · rw [log_snoc, Prog.value, hlog]
          refine ⟨write_first, h.chain.relink ?_ fun y _ => rfl⟩
          rw [write_first_next, stored, hfirst]
        · intro m
          rw [log_snoc, Prog.value, hlog, List.count_cons, List.count_cons, h.count m, Nat.add_assoc]
        · simp
        · rintro m r ⟨⟩ ⟨⟩
          rw [log_snoc, Prog.value, hlog]
          refine ⟨rfl, ?_⟩
          rw [← hfirst, h.chain.link_eq]
          cases (log tr).stack with
          | nil => rfl
          | cons y rest => rfl
        · simp
        · simp
        · exact took_of_ne (by simp)
        · simp [Prog.value]
        · exact fun _ _ => write_first_next
        · rw [log_snoc, Prog.value, hlog]
          exact fun _ _ => List.subset_cons_self ..
        · rw [log_snoc, Prog.value, hlog]
          intro m hm
          rcases List.mem_cons.1 hm with rfl | hm
          · exact .inr rfl
          · exact .inl hm
      · have hrun : (perform (.cmpxchg old (some n))).run s = .ok (s.link .first, s) :=
          congrArg (fun s' => Except.ok (s.link .first, s')) (if_neg hfirst)
        exact ⟨s.link .first, s, _, hrun, congrArg (Prog.bind · _) (if_neg hfirst),
          h.goes_on (if_neg hfirst) (.inl (value_addLoop fuel _)) h.chain (fun _ _ => rfl)
            fun _ => ⟨hn, addAt_loop fuel _⟩⟩

/-- An access of `slist_remove_head`. -/
theorem remove_step {x : Acc} {next : Res x → Prog Res Result} (h : Right tr s)
    (hat : RemoveAt (log tr).stack s (.access x next)) : ∃ b s' p',
      (perform x).run s = .ok (b, s') ∧ next b = p' ∧
        Keeps tr s (.consumer : Thread ι) .removeHead x b s' p' := by
  cases hat with
  | start fuel seen =>
      have hvalue := value_removeLoop fuel (s.link .first)
      exact ⟨s.link .first, s, _, rfl, rfl, h.goes_on (step_remove hvalue) (.inl hvalue) h.chain
        (fun _ _ => rfl) fun _ => ⟨rfl, h.removeAt_loop seen fuel⟩⟩
  | @load fuel n mem =>
      exact ⟨s.link (.next n), s, _, rfl, rfl, h.goes_on rfl (.inl rfl) h.chain (fun _ _ => rfl)
        fun _ => ⟨rfl, .cas fuel mem⟩⟩
  | @cas fuel n mem =>
      by_cases hfirst : s.link .first = some n
      · -- the node seen is the first one, so its `next` starts the rest of the list
        obtain ⟨rest, hst⟩ : ∃ rest, (log tr).stack = n :: rest :=
          List.head?_eq_some_iff.1 (h.chain.link_eq.symm.trans hfirst)
        have hrest : n ∉ rest := (List.nodup_cons.1 (hst ▸ h.nodup)).1
        have hrun : (perform (.cmpxchg (some n) (s.link (.next n)))).run s =
            .ok (s.link .first, s.write .first (s.link (.next n))) :=
          congrArg (fun s' => Except.ok (s.link .first, s')) (if_pos hfirst)
        have hlog : (log tr).step ⟨(.consumer : Thread ι), .removeHead,
            .cmpxchg (some n) (s.link (.next n)), s.link .first, some (.node (some n))⟩ =
            { log tr with stack := rest, taken := n :: (log tr).taken } := by
          have hfilter : (log tr).stack.filter (some · ≠ some n) = rest := by
            rw [hst, List.filter_cons_of_neg (by simp), List.filter_eq_self]
            intro m hm
            simp only [ne_eq, Option.some.injEq, decide_not, Bool.not_eq_eq_eq_not, Bool.not_true,
              decide_eq_false_iff_not]
            rintro rfl
            exact hrest hm
          exact congrArg (fun st => ({ log tr with stack := st, taken := n :: (log tr).taken } : Log))
            hfilter
        refine ⟨s.link .first, _, .ret (.node (some n)), hrun,
          congrArg (Prog.bind · _) (if_pos hfirst), ⟨⟨?_, ?_, h.returns.snoc ⟨?_, ?_, ?_, ?_⟩, ?_⟩,
          ?_, ?_, ?_, ?_⟩⟩
        · rw [log_snoc, Prog.value, hlog]
          have hchain := h.chain
          rw [hst] at hchain
          exact hchain.2.relink write_first fun y _ => rfl
        · intro m
          have hcount := h.count m
          rw [hst, List.count_cons] at hcount
          rw [log_snoc, Prog.value, hlog, List.count_cons, hcount]
          simp only
          omega
        · simp
        · simp
        · rintro r - ⟨⟩
          rw [log_snoc, Prog.value, hlog]
          exact ⟨n, rest, hst, rfl, rfl⟩
        · simp
        · exact took_of_ne (by simp)
        · simp [Prog.value]
        · exact fun _ _ => write_first_next
        · simp
        · rw [log_snoc, Prog.value, hlog, hst]
          exact fun m hm => .inl (List.mem_cons_of_mem n hm)
      · have hrun : (perform (.cmpxchg (some n) (s.link (.next n)))).run s =
            .ok (s.link .first, s) :=
          congrArg (fun s' => Except.ok (s.link .first, s')) (if_neg hfirst)
        have hvalue := value_removeLoop fuel (s.link .first)
        exact ⟨s.link .first, s, _, hrun, congrArg (Prog.bind · _) (if_neg hfirst),
          h.goes_on (step_remove hvalue) (.inl hvalue) h.chain (fun _ _ => rfl)
            fun _ => ⟨rfl, h.removeAt_loop (List.ne_nil_of_mem mem) fuel⟩⟩

/-- The access of `slist_del_all`. -/
theorem delAll_step (h : Right tr s) : ∃ b s' p', (perform (.xchg none)).run s = .ok (b, s') ∧
    (.ret (.node b)) = p' ∧
      Keeps tr s (.consumer : Thread ι) .delAll (.xchg none) b s' p' := by
  have hlog : (log tr).step ⟨(.consumer : Thread ι), .delAll, .xchg none, s.link .first,
      some (.node (s.link .first))⟩ =
      { log tr with stack := [], taken := (log tr).stack ++ (log tr).taken } := rfl
  refine ⟨s.link .first, s.write .first none, _, rfl, rfl,
    ⟨⟨?_, ?_, h.returns.snoc ⟨?_, ?_, ?_, ?_⟩,
    ?_⟩, ?_, ?_, ?_, ?_⟩⟩
  · rw [log_snoc, Prog.value, hlog]
    exact write_first
  · intro m
    rw [log_snoc, Prog.value, hlog, List.count_append, h.count m, List.count_nil]
    omega
  · simp
  · simp
  · simp
  · rintro r - ⟨⟩
    rw [log_snoc, Prog.value, hlog, h.chain.link_eq]
    exact ⟨rfl, rfl⟩
  · intro before ev p heq _ hr
    obtain ⟨rfl, he⟩ := List.append_inj' heq rfl
    simp only [List.cons.injEq, and_true] at he
    obtain rfl : s.link .first = p := by
      rw [← he] at hr
      simpa [Prog.value] using hr
    refine h.chain.frame fun m _ => ?_
    by_cases hm : m = .first
    · rw [hm, Function.update_self]
    · rw [Function.update_of_ne hm]
      exact Function.update_of_ne hm ..
  · simp [Prog.value]
  · exact fun _ _ => write_first_next
  · simp
  · rw [log_snoc, Prog.value, hlog]
    simp

/-- The access of `slist_empty`. -/
theorem empty_step (t : Thread ι) (h : Right tr s) : ∃ b s' p',
    (perform .readFirst).run s = .ok (b, s') ∧ (.ret (.bool b.isNone)) = p' ∧
      Keeps tr s t .empty .readFirst b s' p' := by
  refine ⟨s.link .first, s, _, rfl, rfl, h.goes_on rfl (.inr ⟨rfl, ?_⟩) h.chain (fun _ _ => rfl)
    (by simp [Prog.value])⟩
  rw [h.chain.link_eq]
  cases (log tr).stack with
  | nil => rfl
  | cons n rest => rfl

/-! ## All interleavings -/

/-- An access leaves what another thread knows true. -/
theorem Keeps.other {t t' : Thread ι} {op op' : Op} {x : Acc} {b : Res x}
    {p₀ p' q : Prog Res Result} (hk : Keeps tr s t op x b s' p') (hat : At t op p₀ tr s)
    (ht : t' ≠ t) (hop : Compatible op op') (hat' : At t' op' q tr s) :
    At t' op' q (tr ++ [⟨t, op, x, b, p'.value⟩]) s' := by
  cases op' with
  | empty => exact hat'
  | add m =>
      have hne : op ≠ .add m := fun heq => hop m heq rfl
      exact ⟨fun hm => (hk.comes m hm).elim hat'.1 hne, hat'.2.other (hk.link m hne)⟩
  | removeHead =>
      obtain ⟨rfl, hremove⟩ := hat'
      refine ⟨rfl, hremove.other (hk.stays ?_ ?_) fun m hm => hk.link m ?_⟩
      · rintro rfl
        exact ht hat.1.symm
      · rintro rfl
        exact ht hat.1.symm
      · rintro rfl
        exact hat.1 hm
  | delAll => exact hat'

theorem access_step {t : Thread ι} {op : Op} {x : Acc} {next : Res x → Prog Res Result}
    (h : Right tr s) (hat : At t op (.access x next) tr s) :
    ∃ b s' p', (perform x).run s = .ok (b, s') ∧ next b = p' ∧ Keeps tr s t op x b s' p' := by
  cases op with
  | empty =>
      cases hat
      exact empty_step t h
  | add n => exact add_step t h hat.1 hat.2
  | removeHead =>
      obtain ⟨rfl, hremove⟩ := hat
      exact remove_step h hremove
  | delAll =>
      obtain ⟨rfl, hp⟩ := hat
      cases hp
      exact delAll_step h

theorem right_init (hs : s.link .first = none) : Right ([] : List (Ev ι)) s := by
  refine ⟨hs, fun n => rfl, eachEvent_nil, fun before ev p heq => ?_⟩
  simp at heq

end Steps

/-! ## What the consumer has seen -/

/-- Only calls that take nodes make the stack smaller. -/
theorem stack_subset {before after : List (Ev ι)}
    (h : ∀ ev ∈ after, (ev.op = .removeHead ∨ ev.op = .delAll) → ev.ret = none) :
    (log before).stack ⊆ (log (before ++ after)).stack := by
  induction after generalizing before with
  | nil => rw [List.append_nil]; exact List.Subset.refl _
  | cons ev after ih =>
      have hrest : (log (before ++ [ev])).stack ⊆ (log (before ++ [ev] ++ after)).stack :=
        ih fun e he => h e (List.mem_cons_of_mem ev he)
      rw [List.append_assoc, List.singleton_append] at hrest
      refine List.Subset.trans ?_ hrest
      have hev := h ev (by simp)
      rw [log_snoc]
      obtain ⟨t, op, x, b, v⟩ := ev
      cases op with
      | empty => exact List.Subset.refl _
      | add n =>
          cases x with
          | cmpxchg old new =>
              unfold Log.step
              by_cases heq : b = old
              · simp only [heq, if_true]
                exact List.subset_cons_self ..
              · simp only [heq, if_false]
                exact List.Subset.refl _
          | _ => exact List.Subset.refl _
      | removeHead => rw [step_remove (hev (.inl rfl))]; exact List.Subset.refl _
      | delAll =>
          obtain rfl : v = none := hev (.inr rfl)
          exact List.Subset.refl _

/-- A list that was seen not to be empty is not empty until a node is taken, so the consumer may
    remove the first one. -/
theorem Right.nonempty_of_seen {s : SlistMem} {before after : List (Ev ι)} {ev : Ev ι}
    (h : Right (before ++ ev :: after) s) (hop : ev.op = .empty)
    (hret : ev.ret = some (.bool false))
    (hafter : ∀ e ∈ after, (e.op = .removeHead ∨ e.op = .delAll) → e.ret = none) :
    (log (before ++ ev :: after)).stack ≠ [] := by
  have hseen := (h.returns before ev after rfl).empty _ hop hret
  have hsub : (log before).stack ⊆ (log (before ++ ev :: after)).stack := by
    refine stack_subset fun e he htakes => ?_
    rcases List.mem_cons.1 he with rfl | he
    · simp [hop] at htakes
    · exact hafter e he htakes
  intro hnil
  rw [hnil, List.subset_nil] at hsub
  rw [hsub] at hseen
  cases hseen

/-! ## Calls that run alone -/

theorem value_code (op : Op) (fuel : ℕ) : (op.code fuel).value = none := by
  cases op with
  | empty => rfl
  | add n => rfl
  | removeHead => rfl
  | delAll => rfl

section Alone

variable {s : SlistMem} {n : Ptr} {fuel : ℕ} {old : Option Ptr}

theorem run_cmpxchg (hfirst : s.link .first = old) (new : Option Ptr) :
    (perform (.cmpxchg old new)).run s = .ok (s.link .first, s.write .first new) :=
  congrArg (fun s' => Except.ok (s.link .first, s')) (if_pos hfirst)

theorem run_slistAdd : ((slistAdd n (fuel + 1)).exec perform).run s =
    .ok ((s.link .first).isNone, (s.write (.next n) (s.link .first)).write .first (some n)) := by
  have hfirst : (s.write (.next n) (s.link .first)).link .first = s.link .first := write_next_first
  have hcas := run_cmpxchg hfirst (some n)
  change ((perform (.cmpxchg (s.link .first) (some n))) >>= fun entry =>
    (if entry = s.link .first then Prog.ret (s.link .first).isNone
      else slistAddLoop n fuel entry).exec perform).run (s.write (.next n) (s.link .first)) = _
  rw [Exec.run_bind_of_ok hcas, if_pos hfirst]
  rfl

theorem run_slistRemoveHead (hn : s.link .first = some n) :
    ((slistRemoveHead (fuel + 1)).exec perform).run s =
      .ok (some n, s.write .first (s.link (.next n))) := by
  have hcas := run_cmpxchg hn (s.link (.next n))
  change ((slistRemoveLoop (fuel + 1) (s.link .first)).exec perform).run s = _
  rw [hn]
  change ((perform (.cmpxchg (some n) (s.link (.next n)))) >>= fun entry =>
    (if entry = some n then Prog.ret (some n) else slistRemoveLoop fuel entry).exec perform).run s =
      _
  rw [Exec.run_bind_of_ok hcas, if_pos hn]
  rfl

/-- A call that nobody gets in the way of returns, if the list has a first node to remove. -/
theorem exec_code (fuel : ℕ) (op : Op) (hop : op = .removeHead → s.link .first ≠ none) :
    ∃ r s', ((op.code (fuel + 1)).exec perform).run s = .ok (r, s') := by
  cases op with
  | empty => exact ⟨_, _, rfl⟩
  | delAll => exact ⟨_, _, rfl⟩
  | add n =>
      unfold Op.code
      rw [Prog.exec_bind, Exec.run_bind_of_ok run_slistAdd]
      exact ⟨_, _, rfl⟩
  | removeHead =>
      obtain ⟨n, hn⟩ := Option.ne_none_iff_exists'.1 (hop rfl)
      unfold Op.code
      rw [Prog.exec_bind, Exec.run_bind_of_ok (run_slistRemoveHead hn)]
      exact ⟨_, _, rfl⟩

/-- A call that begins now and runs alone comes to its end. -/
theorem Right.finishes {s₀ : SlistMem} {tr : List (Ev ι)}
    {c : Config SlistMem Res (Thread ι) Op Result} [DecidableEq ι] {t : Thread ι} {op : Op}
    (h : Right tr c.mem) (hrun : (slistSystem ι).Run s₀ tr c) (idle : c.running t = none)
    (en : (slistSystem ι).enabled tr c t op) : (slistSystem ι).Finishes s₀ tr c t op := by
  have hfilled : op = .removeHead → c.mem.link .first ≠ none := by
    rintro rfl
    cases t with
    | producer i => exact en.elim
    | consumer =>
        obtain ⟨n, rest, hst⟩ := List.exists_cons_of_ne_nil en
        rw [h.chain.link_eq, hst]
        simp
  obtain ⟨r, s', hexec⟩ := exec_code 0 op hfilled
  exact ⟨r, s', hrun.completes_call idle en 1 (value_code op 1) hexec⟩

end Alone

/-! ## The lock-less list -/

/-- What holds of every thread, in every state of every interleaving. -/
theorem run_outlined [DecidableEq ι] {s : SlistMem} {tr : List (Ev ι)}
    {c : Config SlistMem Res (Thread ι) Op Result} (hs : s.link .first = none)
    (h : (slistSystem ι).Run s tr c) :
    Outlined Right At (fun _ op _ op' => Compatible op op') tr c ∧ (slistSystem ι).NoFault c := by
  refine System.Run.outline (fun _ _ _ _ hop n hn hn' => hop n hn' hn) (right_init hs)
    (fun tr c t op fuel _ en => ?_) (fun tr s t op x next hG hat => ?_) h
  · cases op with
    | empty => exact ⟨rfl, fun _ _ _ _ _ n hn => by cases hn⟩
    | add n =>
        cases t with
        | consumer => exact en.elim
        | producer i =>
            refine ⟨⟨en.1, .start fuel⟩, fun t' op' p' _ hrun m hm hm' => ?_⟩
            obtain rfl : n = m := by simpa using hm
            exact en.2 t' p' (hm' ▸ hrun)
    | removeHead =>
        cases t with
        | producer i => exact en.elim
        | consumer => exact ⟨⟨rfl, .start fuel en⟩, fun _ _ _ _ _ n hn => by cases hn⟩
    | delAll =>
        cases t with
        | producer i => exact en.elim
        | consumer => exact ⟨⟨rfl, rfl⟩, fun _ _ _ _ _ n hn => by cases hn⟩
  · obtain ⟨b, s', p', hrun, rfl, hk⟩ := access_step hG hat
    exact ⟨b, s', hrun, hk.right, hk.own, fun t' op' q ht hop hat' => hk.other hat ht hop hat'⟩

/-- **The lock-less list is a stack**, for any number of producers and one consumer, in every state
    of every interleaving: the chain is the stack of the nodes added and not yet taken, without a
    repetition; calls return what they should, every node is taken as often as it has been added
    except for those on the stack, and no call does anything undefined. No call ends without a
    record of its result, and one that nobody gets in the way of ends. -/
theorem slist_is_stack {ι : Type} [DecidableEq ι] (s : SlistMem) (hs : s.link .first = none)
    (tr : List (Ev ι)) (c : Config SlistMem Res (Thread ι) Op Result)
    (h : (slistSystem ι).Run s tr c) :
    Right tr c.mem ∧ (log tr).stack.Nodup ∧ (slistSystem ι).NoFault c ∧
      (slistSystem ι).Recorded ∧ ∀ t op, c.running t = none → (slistSystem ι).enabled tr c t op →
        (slistSystem ι).Finishes s tr c t op := by
  obtain ⟨houtlined, hnoFault⟩ := run_outlined hs h
  have hright : Right tr c.mem := houtlined.mem
  exact ⟨hright, hright.nodup, hnoFault, value_code,
    fun t op idle en => hright.finishes h idle en⟩

/-- A test for what two producers and the consumer promise. -/
def promised (tr : List (Ev Bool)) (c : Config SlistMem Res (Thread Bool) Op Result)
    (t : Thread Bool) (op : Op) : Bool :=
  match t, op with
  | _, .empty => true
  | .producer _, .add n => n ∉ (log tr).stack &&
      [.producer false, .producer true, .consumer].all fun t =>
        (c.running t).map (·.1) ≠ some (.add n)
  | .consumer, .removeHead => (log tr).stack ≠ []
  | .consumer, .delAll => true
  | _, _ => false

theorem enabled_of_promised (tr : List (Ev Bool)) (c) (t : Thread Bool) (op : Op)
    (h : promised tr c t op = true) : (slistSystem Bool).enabled tr c t op := by
  cases op with
  | empty => cases t <;> exact trivial
  | add n =>
      cases t with
      | consumer => cases h
      | producer i =>
          simp only [promised, decide_not, List.all_cons, List.all_nil, Bool.and_true,
            Bool.and_eq_true, Bool.not_eq_eq_eq_not, Bool.not_true, decide_eq_false_iff_not] at h
          obtain ⟨hn, hfalse, htrue, hconsumer⟩ := h
          refine ⟨hn, fun t p hrun => ?_⟩
          cases t with
          | consumer => exact hconsumer (by rw [hrun]; rfl)
          | producer i =>
              cases i with
              | false => exact hfalse (by rw [hrun]; rfl)
              | true => exact htrue (by rw [hrun]; rfl)
  | removeHead =>
      cases t with
      | producer i => cases h
      | consumer => exact of_decide_eq_true (p := (log tr).stack ≠ []) h
  | delAll =>
      cases t with
      | producer i => cases h
      | consumer => exact trivial

/-- Two producers add the nodes 5 and 7 at a time, so that one has to try again; the consumer takes
    the newer one, and when that has been added once more, all. -/
def retries : List (Move (Thread Bool) Op) :=
  .call (.producer false) (.add 5) 2 :: .access (.producer false) ::
    Move.alone (.producer true) (.add 7) 1 3 ++
    -- the other producer finds that `first` has changed
    List.replicate 4 (.access (.producer false)) ++ Move.alone .consumer .removeHead 1 3 ++
    Move.alone (.producer true) (.add 5) 1 3 ++ Move.alone .consumer .delAll 1 1

theorem slist_is_stack_retries : ∃ (tr : List (Ev Bool)) (c : _),
    (slistSystem Bool).Run ⟨fun _ => none⟩ tr c ∧
      (results tr, log tr) =
        ([.bool true, .bool false, .node (some 5), .bool false, .node (some 5)],
          { stack := [], added := [5, 5, 7], taken := [5, 7, 5] }) ∧
      Right tr c.mem :=
  System.exists_run_of_play enabled_of_promised retries (by decide +kernel) fun tr c hrun =>
    (slist_is_stack ⟨fun _ => none⟩ rfl tr c hrun).1

end StructLib.Slist
