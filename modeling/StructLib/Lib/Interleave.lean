import StructLib.Lib.Exec

set_option autoImplicit false

/-! # Threads that interleave

A `Prog` is a program as its atomic accesses to shared memory `Acc`: one access, and what to do with
its result of type `Res`. A `System` runs calls of such programs in threads, one access of one
thread at a time; what a program computes between two accesses counts to the earlier one.
`System.Run` are its interleavings, each with the list of the accesses made.

`System.Run.outline` is the rule for all interleavings: an assertion about memory and the accesses
so far, and one for each thread at each of its program points, which the accesses of the other
threads leave true. What a call returns stands with its last access. `System.Recorded` is that there
is one, and `System.Finishes` that a call comes to its end when nobody gets in its way. -/

namespace StructLib

/-! ## Programs -/

inductive Prog {Acc : Type} (Res : Acc → Type) (α : Type) where
  | ret (a : α)
  | access (x : Acc) (next : Res x → Prog Res α)
  /-- A loop made more turns than it was given. -/
  | outOfFuel

section Programs

variable {Acc : Type} {Res : Acc → Type} {α β : Type}

def Prog.bind : Prog Res α → (α → Prog Res β) → Prog Res β
  | .ret a, f => f a
  | .access x next, f => .access x fun b => (next b).bind f
  | .outOfFuel, _ => .outOfFuel

instance : Monad (Prog Res) where
  pure := .ret
  bind := .bind

theorem Prog.pure_bind (a : α) (f : α → Prog Res β) : pure a >>= f = f a := rfl

theorem Prog.bind_assoc {γ : Type} (p : Prog Res α) (f : α → Prog Res β) (g : β → Prog Res γ) :
    (p >>= f) >>= g = p >>= fun a => f a >>= g := by
  induction p with
  | ret a => rfl
  | access x next ih => exact congrArg (Prog.access x) (funext ih)
  | outOfFuel => rfl

/-- One access. -/
def Prog.atom (x : Acc) : Prog Res (Res x) := .access x .ret

/-- The program run by a thread that nobody gets in the way of. -/
def Prog.exec {σ : Type} (perform : (x : Acc) → Exec σ (Res x)) : Prog Res α → Exec σ α
  | .ret a => return a
  | .access x next => do (next (← perform x)).exec perform
  | .outOfFuel => Exec.outOfFuel

theorem Prog.exec_bind {σ : Type} (perform : (x : Acc) → Exec σ (Res x)) (p : Prog Res α)
    (f : α → Prog Res β) :
    (p >>= f).exec perform = p.exec perform >>= fun a => (f a).exec perform := by
  induction p with
  | ret a => exact (LawfulMonad.pure_bind a fun a => (f a).exec perform).symm
  | access x next ih =>
      have hnext : (Prog.access x next >>= f).exec perform =
          perform x >>= fun b => (next b >>= f).exec perform := rfl
      rw [hnext, Prog.exec, LawfulMonad.bind_assoc]
      exact bind_congr ih
  | outOfFuel => rfl

/-- The value of a program that is at its end. -/
def Prog.value : Prog Res α → Option α
  | .ret a => some a
  | _ => none

theorem Prog.eq_ret_of_value {p : Prog Res α} {a : α} (h : p.value = some a) : p = .ret a := by
  cases p with
  | ret b => exact congrArg _ (Option.some.inj h)
  | access x next => cases h
  | outOfFuel => cases h

end Programs

/-! ## Systems -/

/-- One access: who made it, within which call, its result, and the result of the call if this was
    its last access. -/
structure Event {Acc : Type} (Res : Acc → Type) (Thread Op ρ : Type) where
  thread : Thread
  op : Op
  acc : Acc
  res : Res acc
  ret : Option ρ

/-- Shared memory, and what is left to do of the call of each thread. -/
structure Config (σ : Type) {Acc : Type} (Res : Acc → Type) (Thread Op ρ : Type) where
  mem : σ
  running : Thread → Option (Op × Prog Res ρ)

/-- `perform` is what an access does, `code` the program of a call, and `enabled` what the
    environment promises before a thread starts a call. -/
structure System (σ : Type) {Acc : Type} (Res : Acc → Type) (Thread Op ρ : Type) where
  perform : (x : Acc) → Exec σ (Res x)
  code : Op → ℕ → Prog Res ρ
  enabled : List (Event Res Thread Op ρ) → Config σ Res Thread Op ρ → Thread → Op → Prop

section Runs

variable {σ Acc : Type} {Res : Acc → Type} {Thread Op ρ : Type} [DecidableEq Thread]
  {S : System σ Res Thread Op ρ} {s₀ : σ}

/-- A call that is at its end is over. -/
def leftOver (op : Op) (p : Prog Res ρ) : Option (Op × Prog Res ρ) :=
  if p.value.isSome then none else some (op, p)

/-- The interleavings from `s₀`. -/
inductive System.Run (S : System σ Res Thread Op ρ) (s₀ : σ) :
    List (Event Res Thread Op ρ) → Config σ Res Thread Op ρ → Prop
  | nil : S.Run s₀ [] ⟨s₀, fun _ => none⟩
  | call {tr : List (Event Res Thread Op ρ)} {c : Config σ Res Thread Op ρ} {t : Thread} {op : Op}
      (run : S.Run s₀ tr c) (idle : c.running t = none) (en : S.enabled tr c t op) (fuel : ℕ) :
      S.Run s₀ tr ⟨c.mem, Function.update c.running t (leftOver op (S.code op fuel))⟩
  | access {tr : List (Event Res Thread Op ρ)} {c : Config σ Res Thread Op ρ} {t : Thread} {op : Op}
      {x : Acc} {next : Res x → Prog Res ρ} {b : Res x} {s' : σ} (run : S.Run s₀ tr c)
      (at_ : c.running t = some (op, .access x next))
      (ok : (S.perform x).run c.mem = .ok (b, s')) :
      S.Run s₀ (tr ++ [⟨t, op, x, b, (next b).value⟩])
        ⟨s', Function.update c.running t (leftOver op (next b))⟩

/-- No thread is about to do something undefined. -/
def System.NoFault (S : System σ Res Thread Op ρ) (c : Config σ Res Thread Op ρ) : Prop :=
  ∀ t op x next, c.running t = some (op, .access x next) →
    ∃ b s', (S.perform x).run c.mem = .ok (b, s')

theorem leftOver_eq_some {op op' : Op} {p p' : Prog Res ρ} (h : leftOver op p = some (op', p')) :
    op' = op ∧ p' = p ∧ p.value = none := by
  unfold leftOver at h
  by_cases hp : p.value.isSome
  · simp [hp] at h
  · rw [if_neg hp, Option.some.injEq, Prod.mk.injEq] at h
    exact ⟨h.1.symm, h.2.symm, Option.not_isSome_iff_eq_none.1 hp⟩

theorem leftOver_of_none {op : Op} {p : Prog Res ρ} (hp : p.value = none) :
    leftOver op p = some (op, p) := by
  unfold leftOver
  rw [hp]
  rfl

theorem leftOver_of_ne_none {op : Op} {p : Prog Res ρ} (hp : p.value ≠ none) :
    leftOver op p = none :=
  if_pos (Option.isSome_iff_ne_none.2 hp)

/-- Who is running after a step of the thread `t`. -/
theorem running_of_update {running : Thread → Option (Op × Prog Res ρ)} {t t' : Thread}
    {op op' : Op} {p p' : Prog Res ρ}
    (h : Function.update running t (leftOver op p) t' = some (op', p')) :
    (t' = t ∧ op' = op ∧ p' = p ∧ p.value = none) ∨ (t' ≠ t ∧ running t' = some (op', p')) := by
  by_cases ht : t' = t
  · rw [ht, Function.update_self] at h
    exact .inl ⟨ht, leftOver_eq_some h⟩
  · rw [Function.update_of_ne ht] at h
    exact .inr ⟨ht, h⟩

/-- What holds of memory and the accesses so far (`G`), of a thread at a point of its program
    (`At`), and between the calls of two threads (`R`), in every interleaving. -/
structure Outlined (G : List (Event Res Thread Op ρ) → σ → Prop)
    (At : Thread → Op → Prog Res ρ → List (Event Res Thread Op ρ) → σ → Prop)
    (R : Thread → Op → Thread → Op → Prop) (tr : List (Event Res Thread Op ρ))
    (c : Config σ Res Thread Op ρ) : Prop where
  mem : G tr c.mem
  point : ∀ t op p, c.running t = some (op, p) → At t op p tr c.mem
  compat : ∀ t op p t' op' p', t ≠ t' → c.running t = some (op, p) →
    c.running t' = some (op', p') → R t op t' op'

/-- **The rule for interleavings.** Calls start where their program points' assertions hold, and an
    access keeps the assertion of its own thread, going on, and those of all others. -/
theorem System.Run.outline {G : List (Event Res Thread Op ρ) → σ → Prop}
    {At : Thread → Op → Prog Res ρ → List (Event Res Thread Op ρ) → σ → Prop}
    {R : Thread → Op → Thread → Op → Prop} (hsymm : ∀ t op t' op', R t op t' op' → R t' op' t op)
    (hstart : G [] s₀)
    (hcall : ∀ tr c t op fuel, Outlined G At R tr c → S.enabled tr c t op →
      At t op (S.code op fuel) tr c.mem ∧
        ∀ t' op' p', t' ≠ t → c.running t' = some (op', p') → R t op t' op')
    (haccess : ∀ tr s t op x next, G tr s → At t op (.access x next) tr s →
      ∃ b s', (S.perform x).run s = .ok (b, s') ∧ G (tr ++ [⟨t, op, x, b, (next b).value⟩]) s' ∧
        ((next b).value = none →
          At t op (next b) (tr ++ [⟨t, op, x, b, (next b).value⟩]) s') ∧
        ∀ t' op' p', t' ≠ t → R t op t' op' → At t' op' p' tr s →
          At t' op' p' (tr ++ [⟨t, op, x, b, (next b).value⟩]) s')
    {tr : List (Event Res Thread Op ρ)} {c : Config σ Res Thread Op ρ} (h : S.Run s₀ tr c) :
    Outlined G At R tr c ∧ S.NoFault c := by
  have hall : Outlined G At R tr c := by
    induction h with
    | nil => exact ⟨hstart, by simp, by simp⟩
    | @call tr c t op run idle en fuel ih =>
        obtain ⟨hat, hR⟩ := hcall tr c t op fuel ih en
        refine ⟨ih.mem, fun t' op' p' h' => ?_, fun t₁ op₁ p₁ t₂ op₂ p₂ hne h₁ h₂ => ?_⟩
        · rcases running_of_update h' with ⟨rfl, rfl, rfl, -⟩ | ⟨-, h'⟩
          · exact hat
          · exact ih.point t' op' p' h'
        · rcases running_of_update h₁ with ⟨rfl, rfl, rfl, -⟩ | ⟨-, h₁'⟩
          · rcases running_of_update h₂ with ⟨rfl, -, -⟩ | ⟨hne₂, h₂'⟩
            · exact absurd rfl hne
            · exact hR t₂ op₂ p₂ hne₂ h₂'
          · rcases running_of_update h₂ with ⟨rfl, rfl, rfl, -⟩ | ⟨-, h₂'⟩
            · exact hsymm _ _ _ _ (hR t₁ op₁ p₁ hne h₁')
            · exact ih.compat t₁ op₁ p₁ t₂ op₂ p₂ hne h₁' h₂'
    | @access tr c t op x next b s' run at_ ok ih =>
        obtain ⟨b', s'', ok', hG, hown, hothers⟩ :=
          haccess tr c.mem t op x next ih.mem (ih.point t op _ at_)
        rw [ok, Except.ok.injEq, Prod.mk.injEq] at ok'
        obtain ⟨rfl, rfl⟩ := ok'
        -- the call of a thread stays the same until it is over
        have hop : ∀ t' op' p', Function.update c.running t (leftOver op (next b)) t' =
            some (op', p') → ∃ p, c.running t' = some (op', p) := by
          intro t' op' p' h'
          rcases running_of_update h' with ⟨rfl, rfl, -⟩ | ⟨-, h'⟩
          · exact ⟨_, at_⟩
          · exact ⟨p', h'⟩
        refine ⟨hG, fun t' op' p' h' => ?_, fun t₁ op₁ p₁ t₂ op₂ p₂ hne h₁ h₂ => ?_⟩
        · rcases running_of_update h' with ⟨rfl, rfl, rfl, hv⟩ | ⟨hne, h'⟩
          · exact hown hv
          · exact hothers t' op' p' hne (ih.compat t op _ t' op' p' hne.symm at_ h')
              (ih.point t' op' p' h')
        · obtain ⟨q₁, h₁⟩ := hop t₁ op₁ p₁ h₁
          obtain ⟨q₂, h₂⟩ := hop t₂ op₂ p₂ h₂
          exact ih.compat t₁ op₁ q₁ t₂ op₂ q₂ hne h₁ h₂
  refine ⟨hall, fun t op x next at_ => ?_⟩
  obtain ⟨b, s', ok, -⟩ := haccess tr c.mem t op x next hall.mem (hall.point t op _ at_)
  exact ⟨b, s', ok⟩

/-! ## Calls that come to their end -/

/-- No call is over before its first access, so every run has a record of what its calls return. -/
def System.Recorded (S : System σ Res Thread Op ρ) : Prop :=
  ∀ op fuel, (S.code op fuel).value = none

/-- What the calls of a run have returned. -/
def results (tr : List (Event Res Thread Op ρ)) : List ρ := tr.filterMap Event.ret

/-- Left to itself, the thread `t` brings its call of `op` to the end, in the memory `s'`; the call
    returns `r`, and the run has a record of that. -/
def System.Completes (S : System σ Res Thread Op ρ) (s₀ : σ) (tr : List (Event Res Thread Op ρ))
    (c : Config σ Res Thread Op ρ) (t : Thread) (op : Op) (r : ρ) (s' : σ) : Prop :=
  ∃ later, S.Run s₀ (tr ++ later) ⟨s', Function.update c.running t none⟩ ∧
    (∀ ev ∈ later, ev.thread = t ∧ ev.op = op) ∧ results later = [r]

/-- Left to itself, the thread `t` brings its call of `op` to the end. -/
def System.Finishes (S : System σ Res Thread Op ρ) (s₀ : σ) (tr : List (Event Res Thread Op ρ))
    (c : Config σ Res Thread Op ρ) (t : Thread) (op : Op) : Prop :=
  ∃ r s', S.Completes s₀ tr c t op r s'

section Finishing

variable {tr : List (Event Res Thread Op ρ)} {c : Config σ Res Thread Op ρ} {t : Thread} {op : Op}
  {p : Prog Res ρ} {x : Acc} {next : Res x → Prog Res ρ} {b : Res x} {r : ρ} {s₁ s' : σ}

/-- A call that is at its end is not running. -/
theorem System.Run.value_eq_none (h : S.Run s₀ tr c) (hat : c.running t = some (op, p)) :
    p.value = none := by
  induction h generalizing t op p with
  | nil => cases hat
  | call run idle en fuel ih =>
      rcases running_of_update hat with ⟨-, -, rfl, hp⟩ | ⟨-, hat⟩
      · exact hp
      · exact ih hat
  | access run at_ ok ih =>
      rcases running_of_update hat with ⟨-, -, rfl, hp⟩ | ⟨-, hat⟩
      · exact hp
      · exact ih hat

/-- The last access of a call. -/
theorem System.Run.completes_last (h : S.Run s₀ tr c)
    (hat : c.running t = some (op, .access x next))
    (hok : (S.perform x).run c.mem = .ok (b, s')) (hlast : (next b).value = some r) :
    S.Completes s₀ tr c t op r s' := by
  have hrun := h.access hat hok
  rw [leftOver_of_ne_none (by simp [hlast]), hlast] at hrun
  refine ⟨[⟨t, op, x, b, some r⟩], hrun, ?_, rfl⟩
  simp

/-- An access after which the call goes on. -/
theorem System.Completes.access (hgoes : (next b).value = none)
    (h : S.Completes s₀ (tr ++ [⟨t, op, x, b, (next b).value⟩])
      ⟨s₁, Function.update c.running t (leftOver op (next b))⟩ t op r s') :
    S.Completes s₀ tr c t op r s' := by
  obtain ⟨later, hrun, hlater, hr⟩ := h
  rw [List.append_assoc, List.singleton_append, Function.update_idem] at hrun
  refine ⟨⟨t, op, x, b, (next b).value⟩ :: later, hrun, ?_, ?_⟩
  · intro ev hev
    rcases List.mem_cons.1 hev with rfl | hev
    · exact ⟨rfl, rfl⟩
    · exact hlater ev hev
  · rw [hgoes]
    exact hr

/-- What a call does that runs alone, as a run. -/
theorem System.Run.completes (h : S.Run s₀ tr c) (hat : c.running t = some (op, p))
    (hexec : (p.exec S.perform).run c.mem = .ok (r, s')) : S.Completes s₀ tr c t op r s' := by
  induction p generalizing tr c with
  | ret a => cases h.value_eq_none hat
  | outOfFuel => cases hexec
  | access x next ih =>
      obtain ⟨b, s₁, hok, hrest⟩ := Exec.of_run_bind hexec
      cases hnext : (next b).value with
      | none =>
          refine .access hnext (ih b (h.access hat hok) ?_ hrest)
          exact (Function.update_self ..).trans (leftOver_of_none hnext)
      | some r' =>
          rw [Prog.eq_ret_of_value hnext] at hrest
          cases hrest
          exact h.completes_last hat hok hnext

/-- A call that is started now and runs alone. -/
theorem System.Run.completes_call (h : S.Run s₀ tr c) (hidle : c.running t = none)
    (en : S.enabled tr c t op) (fuel : ℕ) (hvalue : (S.code op fuel).value = none)
    (hexec : ((S.code op fuel).exec S.perform).run c.mem = .ok (r, s')) :
    S.Completes s₀ tr c t op r s' := by
  have hrun := h.call hidle en fuel
  obtain ⟨later, hrun', hlater, hr⟩ :=
    hrun.completes ((Function.update_self ..).trans (leftOver_of_none hvalue)) hexec
  rw [Function.update_idem] at hrun'
  exact ⟨later, hrun', hlater, hr⟩

/-- Where nothing undefined is ever done and no fuel runs out, every call can be brought to its
    end. -/
theorem System.Run.finishes
    (hall : ∀ tr c, S.Run s₀ tr c → S.NoFault c ∧ ∀ t op, c.running t ≠ some (op, .outOfFuel))
    (h : S.Run s₀ tr c) (hat : c.running t = some (op, p)) : S.Finishes s₀ tr c t op := by
  induction p generalizing tr c with
  | ret a => cases h.value_eq_none hat
  | outOfFuel => exact absurd hat ((hall tr c h).2 t op)
  | access x next ih =>
      obtain ⟨b, s₁, hok⟩ := (hall tr c h).1 t op x next hat
      cases hnext : (next b).value with
      | none =>
          obtain ⟨r, s', hrest⟩ := ih b (h.access hat hok)
            ((Function.update_self ..).trans (leftOver_of_none hnext))
          exact ⟨r, s', .access hnext hrest⟩
      | some r => exact ⟨r, s₁, h.completes_last hat hok hnext⟩

end Finishing

/-! ## Runs by their schedule -/

/-- What a thread does next in a run: it begins a call, or makes the next access of the call that it
    is in, if it is in one. -/
inductive Move (Thread Op : Type) where
  | call (t : Thread) (op : Op) (fuel : ℕ)
  | access (t : Thread)

/-- A call that has `n` accesses at most, without any of another thread. -/
def Move.alone (t : Thread) (op : Op) (fuel n : ℕ) : List (Move Thread Op) :=
  .call t op fuel :: List.replicate n (.access t)

/-- The next move of a run, if the thread can make it; `ok` is a test for what the environment
    promises. -/
def System.move (S : System σ Res Thread Op ρ)
    (ok : List (Event Res Thread Op ρ) → Config σ Res Thread Op ρ → Thread → Op → Bool) :
    List (Event Res Thread Op ρ) × Config σ Res Thread Op ρ → Move Thread Op →
      Option (List (Event Res Thread Op ρ) × Config σ Res Thread Op ρ)
  | (tr, c), .call t op fuel =>
      if (c.running t).isNone ∧ ok tr c t op then
        some (tr, ⟨c.mem, Function.update c.running t (leftOver op (S.code op fuel))⟩)
      else none
  | (tr, c), .access t =>
      match c.running t with
      | some (op, .access x next) =>
          match (S.perform x).run c.mem with
          | .ok (b, s') => some (tr ++ [⟨t, op, x, b, (next b).value⟩],
              ⟨s', Function.update c.running t (leftOver op (next b))⟩)
          | .error _ => none
      | none => some (tr, c)
      | _ => none

/-- The moves of a run one after the other. -/
def System.play (S : System σ Res Thread Op ρ)
    (ok : List (Event Res Thread Op ρ) → Config σ Res Thread Op ρ → Thread → Op → Bool) (s₀ : σ)
    (moves : List (Move Thread Op)) :
    Option (List (Event Res Thread Op ρ) × Config σ Res Thread Op ρ) :=
  moves.foldlM (S.move ok) ([], ⟨s₀, fun _ => none⟩)

section Playing

variable {ok : List (Event Res Thread Op ρ) → Config σ Res Thread Op ρ → Thread → Op → Bool}
  {y y' : List (Event Res Thread Op ρ) × Config σ Res Thread Op ρ}

theorem System.Run.move (hok : ∀ tr c t op, ok tr c t op = true → S.enabled tr c t op)
    (h : S.Run s₀ y.1 y.2) {m : Move Thread Op} (hmove : S.move ok y m = some y') :
    S.Run s₀ y'.1 y'.2 := by
  obtain ⟨tr, c⟩ := y
  cases m with
  | call t op fuel =>
      obtain ⟨⟨hidle, hen⟩, rfl⟩ := by simpa [System.move] using hmove
      exact h.call hidle (hok tr c t op hen) fuel
  | access t =>
      simp only [System.move] at hmove
      split at hmove
      case h_1 op x next hat =>
        split at hmove
        case h_1 b s' hrun =>
          cases hmove
          exact h.access hat hrun
        case h_2 => cases hmove
      case h_2 =>
        cases hmove
        exact h
      case h_3 => cases hmove

theorem System.Run.foldlM_move (hok : ∀ tr c t op, ok tr c t op = true → S.enabled tr c t op)
    (h : S.Run s₀ y.1 y.2) {moves : List (Move Thread Op)}
    (hmoves : moves.foldlM (S.move ok) y = some y') : S.Run s₀ y'.1 y'.2 := by
  induction moves generalizing y with
  | nil =>
      cases hmoves
      exact h
  | cons m moves ih =>
      obtain ⟨y₁, hmove, hrest⟩ := Option.bind_eq_some_iff.1 hmoves
      exact ih (h.move hok hmove) hrest

/-- What has been played is a run, of which all holds that holds of runs. -/
theorem System.exists_run_of_play {α : Type} {f : List (Event Res Thread Op ρ) → α} {a : α}
    {P : List (Event Res Thread Op ρ) → Config σ Res Thread Op ρ → Prop}
    (hok : ∀ tr c t op, ok tr c t op = true → S.enabled tr c t op) (moves : List (Move Thread Op))
    (hplay : (S.play ok s₀ moves).map (fun y => f y.1) = some a)
    (hall : ∀ tr c, S.Run s₀ tr c → P tr c) : ∃ tr c, S.Run s₀ tr c ∧ f tr = a ∧ P tr c := by
  obtain ⟨⟨tr, c⟩, hy, hf⟩ := Option.map_eq_some_iff.1 hplay
  have hrun : S.Run s₀ tr c := System.Run.foldlM_move hok .nil hy
  exact ⟨tr, c, hrun, hf, hall tr c hrun⟩

end Playing

/-! ## What holds of every access made -/

/-- `P` holds of every access and the ones before it. -/
def EachEvent (P : List (Event Res Thread Op ρ) → Event Res Thread Op ρ → Prop)
    (tr : List (Event Res Thread Op ρ)) : Prop :=
  ∀ before ev after, tr = before ++ ev :: after → P before ev

omit [DecidableEq Thread] in
theorem eachEvent_nil {P : List (Event Res Thread Op ρ) → Event Res Thread Op ρ → Prop} :
    EachEvent P [] := by
  intro before ev after h
  simp at h

omit [DecidableEq Thread] in
theorem EachEvent.snoc {P : List (Event Res Thread Op ρ) → Event Res Thread Op ρ → Prop}
    {tr : List (Event Res Thread Op ρ)} {ev : Event Res Thread Op ρ} (h : EachEvent P tr)
    (hev : P tr ev) : EachEvent P (tr ++ [ev]) := by
  intro before ev' after heq
  rcases List.eq_nil_or_concat after with rfl | ⟨after', e, rfl⟩
  · obtain ⟨rfl, he⟩ := List.append_inj' heq rfl
    simp only [List.cons.injEq, and_true] at he
    exact he ▸ hev
  · rw [List.concat_eq_append, ← List.cons_append, ← List.append_assoc] at heq
    obtain ⟨heq, -⟩ := List.append_inj' heq rfl
    exact h before ev' after' heq

end Runs

end StructLib
