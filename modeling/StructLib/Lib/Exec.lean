import Mathlib.Algebra.Group.Int.Defs
import Mathlib.Algebra.Group.Nat.Defs
import Mathlib.Logic.Function.Basic
import Mathlib.Data.Int.Notation
import Mathlib.Data.List.Basic
import Mathlib.Tactic.Common

set_option autoImplicit false

/-! # Running imperative code

Code over a state `σ` is a `StateT σ (Except Fault)` program. A run either returns a value and a
new state or ends in a `Fault`: it did something the language leaves undefined, or a loop used up
the fuel that makes its definition structural. `Returns` is the fuel-free reading of a program
family indexed by fuel; a family that grows with its fuel (`Exec.Below`) returns what one of its
members returns.

A `Machine` offers calls, each a program, together with what the environment promises before each
of them; its runs (`Machine.Run`) are the histories of calls that kept the promises and returned.
`Machine.Safe` and `Machine.Refines` are the two statements made about all runs, each with the rule
that reduces it to one call (`Machine.safe_of_step`, `Machine.refines_of_step`). A call that
allocates may succeed or fail, and what it should do then depends on which of the two it did: a
`LooseSpec` says which results a call may have and what comes after each of them, and
`Machine.Conforms` is the statement about it. -/

namespace StructLib

/-! ## Programs -/

/-- Why a run has no result. -/
inductive Fault where
  /-- The code did something undefined: it followed a NULL, dangling or misdirected pointer,
      divided by zero, or overflowed a signed integer. -/
  | undef
  /-- The fuel ran out: some loop or recursion made more steps than it was given. -/
  | fuel
  deriving DecidableEq, Repr

/-- Programs over the state `σ`. -/
abbrev Exec (σ α : Type) := StateT σ (Except Fault) α

/-- Undefined behaviour. -/
def Exec.undef {σ α : Type} : Exec σ α := throw Fault.undef

/-- The fuel has run out. -/
def Exec.outOfFuel {σ α : Type} : Exec σ α := throw Fault.fuel

section Programs

variable {σ α β : Type}

@[simp] theorem Exec.run_undef (s : σ) : (Exec.undef : Exec σ α).run s = .error .undef := rfl

@[simp] theorem Exec.run_outOfFuel (s : σ) : (Exec.outOfFuel : Exec σ α).run s = .error .fuel := rfl

@[simp] theorem ok_bind (a : α) (f : α → Except Fault β) : (Except.ok a >>= f) = f a := rfl

@[simp] theorem error_bind (e : Fault) (f : α → Except Fault β) :
    (Except.error e >>= f) = .error e := rfl

@[simp] theorem pure_eq_ok (a : α) : (pure a : Except Fault α) = .ok a := rfl

theorem Exec.run_get_bind (f : σ → Exec σ α) (s : σ) : (get >>= f).run s = (f s).run s := rfl

/-- A computation that returns hands its value and state to the continuation. -/
theorem Exec.run_bind_of_ok {x : Exec σ α} {s s' : σ} {a : α} (h : x.run s = .ok (a, s'))
    (f : α → Exec σ β) : (x >>= f).run s = (f a).run s' := by
  rw [StateT.run_bind, h, ok_bind]

/-- Where a sequence returns, so does its first part. -/
theorem Exec.of_run_bind {x : Exec σ α} {f : α → Exec σ β} {s s' : σ} {b : β}
    (h : (x >>= f).run s = .ok (b, s')) :
    ∃ a s₁, x.run s = .ok (a, s₁) ∧ (f a).run s₁ = .ok (b, s') := by
  rw [StateT.run_bind] at h
  cases hx : x.run s with
  | error e => rw [hx] at h; cases h
  | ok res =>
      rw [hx, ok_bind] at h
      exact ⟨res.1, res.2, rfl, h⟩

/-- `f` started in `s` returns `a` in the state `s'`, given enough fuel. -/
def Returns (f : ℕ → Exec σ α) (s : σ) (a : α) (s' : σ) : Prop :=
  ∃ k, ∀ fuel, k ≤ fuel → (f fuel).run s = .ok (a, s')

/-- A program that uses no fuel returns what its run returns. -/
theorem Returns.of_run {x : Exec σ α} {s s' : σ} {a : α} (h : x.run s = .ok (a, s')) :
    Returns (fun _ => x) s a s' :=
  ⟨0, fun _ _ => h⟩

/-- A sequence of programs. -/
theorem Returns.bind {f : ℕ → Exec σ α} {g : ℕ → α → Exec σ β} {s s₁ s₂ : σ} {a : α} {b : β}
    (hf : Returns f s a s₁) (hg : Returns (fun fuel => g fuel a) s₁ b s₂) :
    Returns (fun fuel => f fuel >>= g fuel) s b s₂ := by
  obtain ⟨k₁, hf⟩ := hf
  obtain ⟨k₂, hg⟩ := hg
  refine ⟨max k₁ k₂, fun fuel hfuel => ?_⟩
  rw [Exec.run_bind_of_ok (hf fuel (by omega)), hg fuel (by omega)]

/-- A program that starts with a fuel-free one. -/
theorem Returns.bind_run {x : Exec σ α} {g : ℕ → α → Exec σ β} {s s₁ s₂ : σ} {a : α} {b : β}
    (hx : x.run s = .ok (a, s₁)) (hg : Returns (fun fuel => g fuel a) s₁ b s₂) :
    Returns (fun fuel => x >>= g fuel) s b s₂ :=
  (Returns.of_run hx).bind hg

/-- A result handed on in another form. -/
theorem Returns.map {f : ℕ → Exec σ α} {s s' : σ} {a : α} (h : Returns f s a s') (g : α → β) :
    Returns (fun fuel => do return g (← f fuel)) s (g a) s' :=
  h.bind (Returns.of_run rfl)

/-- A loop may spend one unit of fuel first. -/
theorem Returns.of_succ {f : ℕ → Exec σ α} {s s' : σ} {a : α}
    (h : Returns (fun fuel => f (fuel + 1)) s a s') : Returns f s a s' := by
  obtain ⟨k, h⟩ := h
  refine ⟨k + 1, fun fuel hfuel => ?_⟩
  obtain ⟨fuel, rfl⟩ : ∃ f, fuel = f + 1 := ⟨fuel - 1, by omega⟩
  exact h fuel (by omega)

/-- Programs that run alike from `s`. -/
theorem Returns.congr {f g : ℕ → Exec σ α} {s s₁ s' : σ} {a : α}
    (hfg : ∀ fuel, (f fuel).run s = (g fuel).run s₁) (h : Returns g s₁ a s') :
    Returns f s a s' := by
  obtain ⟨k, h⟩ := h
  exact ⟨k, fun fuel hfuel => (hfg fuel).trans (h fuel hfuel)⟩

/-- A program has at most one outcome. -/
theorem Returns.unique {f : ℕ → Exec σ α} {s s₁ s₂ : σ} {a₁ a₂ : α} (h₁ : Returns f s a₁ s₁)
    (h₂ : Returns f s a₂ s₂) : a₁ = a₂ ∧ s₁ = s₂ := by
  obtain ⟨k₁, h₁⟩ := h₁
  obtain ⟨k₂, h₂⟩ := h₂
  have heq := (h₁ (max k₁ k₂) (Nat.le_max_left ..)).symm.trans
    (h₂ (max k₁ k₂) (Nat.le_max_right ..))
  simpa using heq

/-- A program that faults with any fuel beyond some amount has no outcome. -/
theorem not_returns_of_error {f : ℕ → Exec σ α} {s : σ} {e : Fault} {k : ℕ}
    (h : ∀ fuel, k ≤ fuel → (f fuel).run s = .error e) (a : α) (s' : σ) : ¬ Returns f s a s' := by
  rintro ⟨k', hret⟩
  have hok := hret (max k k') (Nat.le_max_right ..)
  rw [h _ (Nat.le_max_left ..)] at hok
  cases hok

/-! ### Invariants of programs that may fault -/

/-- Where `x` returns, it has kept `I`, and `Q` holds of its result. -/
def Exec.Keeps (I : σ → Prop) (x : Exec σ α) (Q : α → Prop) : Prop :=
  ∀ s a s', I s → x.run s = .ok (a, s') → I s' ∧ Q a

variable {I : σ → Prop} {Q : α → Prop} {R : β → Prop}

theorem Exec.Keeps.pure {a : α} (h : Q a) : Exec.Keeps I (pure a) Q := by
  rintro s b s' hI hrun
  obtain ⟨rfl, rfl⟩ : a = b ∧ s = s' := by simpa using hrun
  exact ⟨hI, h⟩

theorem Exec.Keeps.trivial (x : Exec σ α) : Exec.Keeps (fun _ => True) x fun _ => True :=
  fun _ _ _ _ _ => ⟨True.intro, True.intro⟩

theorem Exec.Keeps.bind {x : Exec σ α} {f : α → Exec σ β} (hx : Exec.Keeps I x Q)
    (hf : ∀ a, Q a → Exec.Keeps I (f a) R) : Exec.Keeps I (x >>= f) R := by
  intro s b s' hI hrun
  obtain ⟨a, s₁, hrunx, hrunf⟩ := Exec.of_run_bind hrun
  obtain ⟨hI', hQ⟩ := hx s a s₁ hI hrunx
  exact hf a hQ s₁ b s' hI' hrunf

/-- A part of the invariant that every state has for some parameter. -/
theorem Exec.Keeps.of_forall {ι : Type} {J : ι → σ → Prop} {x : Exec σ α}
    (hx : ∀ i, Exec.Keeps (fun s => I s ∧ J i s) x Q) (hJ : ∀ s, ∃ i, J i s) : Exec.Keeps I x Q := by
  intro s a s' hI hrun
  obtain ⟨i, hi⟩ := hJ s
  obtain ⟨⟨hI', -⟩, hQ⟩ := hx i s a s' ⟨hI, hi⟩ hrun
  exact ⟨hI', hQ⟩

theorem Exec.Keeps.error {e : Fault} : Exec.Keeps I (throw e : Exec σ α) Q := by
  rintro s a s' - hrun
  cases hrun

/-! ### More fuel -/

/-- Where `x` returns, so does `y`, with the same result. -/
def Exec.Below (x y : Exec σ α) : Prop := ∀ s r, x.run s = .ok r → y.run s = .ok r

theorem Exec.Below.refl (x : Exec σ α) : Exec.Below x x := fun _ _ => id

theorem Exec.Below.trans {x y z : Exec σ α} (h : Exec.Below x y) (h' : Exec.Below y z) :
    Exec.Below x z := fun s r hx => h' s r (h s r hx)

theorem Exec.below_outOfFuel (y : Exec σ α) : Exec.Below Exec.outOfFuel y := by
  intro s r h
  rw [Exec.run_outOfFuel] at h
  cases h

theorem Exec.Below.bind {x y : Exec σ α} {f g : α → Exec σ β} (hxy : Exec.Below x y)
    (hfg : ∀ a, Exec.Below (f a) (g a)) : Exec.Below (x >>= f) (y >>= g) := by
  rintro s ⟨b, s'⟩ h
  obtain ⟨a, s₁, hx, hf⟩ := Exec.of_run_bind h
  rw [Exec.run_bind_of_ok (hxy s _ hx)]
  exact hfg a s₁ _ hf

theorem Exec.Below.bind_left {x y : Exec σ α} (hxy : Exec.Below x y) (f : α → Exec σ β) :
    Exec.Below (x >>= f) (y >>= f) := hxy.bind fun a => Exec.Below.refl (f a)

theorem Exec.Below.bind_right {f g : α → Exec σ β} (x : Exec σ α)
    (hfg : ∀ a, Exec.Below (f a) (g a)) : Exec.Below (x >>= f) (x >>= g) :=
  (Exec.Below.refl x).bind hfg

theorem Exec.Below.ite {c : Prop} [Decidable c] {x x' y y' : Exec σ α} (hx : Exec.Below x x')
    (hy : Exec.Below y y') : Exec.Below (if c then x else y) (if c then x' else y') := by
  by_cases hc : c
  · rw [if_pos hc, if_pos hc]
    exact hx
  · rw [if_neg hc, if_neg hc]
    exact hy

/-- What one member of a growing family returns. -/
theorem Returns.of_below {f : ℕ → Exec σ α} (hf : ∀ n, Exec.Below (f n) (f (n + 1))) {n : ℕ} {s s' : σ}
    {a : α} (h : (f n).run s = .ok (a, s')) : Returns f s a s' := by
  refine ⟨n, ?_⟩
  intro m hm
  induction hm with
  | refl => exact h
  | step _ ih => exact hf _ _ _ ih

/-- What an evaluation of the program has shown. -/
theorem Exec.exists_of_any {x : Exec σ α} {s : σ} {P : α × σ → Bool}
    (h : (x.run s).toOption.any P = true) : ∃ a s', x.run s = .ok (a, s') ∧ P (a, s') = true := by
  cases hrun : x.run s with
  | error e =>
      rw [hrun] at h
      cases h
  | ok p =>
      rw [hrun] at h
      exact ⟨p.1, p.2, rfl, h⟩

/-! ### Code on a part of the state -/

variable {τ : Type}

/-- `x`, on the part of the state that `view` shows and `put` writes back. -/
def Exec.onPart (view : σ → τ) (put : σ → τ → σ) (x : Exec τ α) : Exec σ α := fun s =>
  (x.run (view s)).map fun (a, m) => (a, put s m)

section OnPart

variable {view : σ → τ} {put : σ → τ → σ} {x y : Exec τ α} {s s' : σ} {m : τ} {a : α}

theorem Exec.run_onPart (h : x.run (view s) = .ok (a, m)) :
    (Exec.onPart view put x).run s = .ok (a, put s m) := by
  change (x.run (view s)).map _ = _
  rw [h]
  rfl

theorem Returns.onPart {f : ℕ → Exec τ α} (h : Returns f (view s) a m) :
    Returns (fun fuel => Exec.onPart view put (f fuel)) s a (put s m) := by
  obtain ⟨k, h⟩ := h
  exact ⟨k, fun fuel hfuel => Exec.run_onPart (h fuel hfuel)⟩

theorem Exec.of_run_onPart (h : (Exec.onPart view put x).run s = .ok (a, s')) :
    ∃ m, x.run (view s) = .ok (a, m) ∧ put s m = s' := by
  have hrun : (x.run (view s)).map (fun (a, m) => (a, put s m)) = .ok (a, s') := h
  cases hx : x.run (view s) with
  | error e =>
      rw [hx] at hrun
      cases hrun
  | ok p =>
      rw [hx] at hrun
      obtain ⟨rfl, rfl⟩ : p.1 = a ∧ put s p.2 = s' := by simpa [Except.map] using hrun
      exact ⟨p.2, rfl, rfl⟩

theorem Exec.Below.onPart (h : Exec.Below x y) :
    Exec.Below (Exec.onPart view put x) (Exec.onPart view put y) := by
  rintro s ⟨a, s'⟩ hrun
  obtain ⟨m, hx, rfl⟩ := Exec.of_run_onPart hrun
  exact Exec.run_onPart (h _ _ hx)

end OnPart

end Programs

/-! ## Error codes (`errno.h`) -/

def ENOENT : ℤ := 2

def ENOMEM : ℤ := 12

def EEXIST : ℤ := 17

/-! ## Machines and their runs -/

/-- A component that answers calls `Op` with results `ρ`. `enabled` is what the environment
    promises before a call: it may look at the history so far and at the state. -/
structure Machine (σ Op ρ : Type) where
  enabled : List (Op × ρ) → σ → Op → Prop
  exec : Op → ℕ → Exec σ ρ

/-- What a component should do: a result and a next abstract state for each call. -/
structure Spec (α Op ρ : Type) where
  result : α → Op → ρ
  next : α → Op → α

/-- What a component may do. -/
structure LooseSpec (α Op ρ : Type) where
  allows : α → Op → ρ → Prop
  next : α → Op → ρ → α

section Runs

variable {σ Op ρ α : Type}

/-- The histories of calls that started in `s₀`, in which every call was enabled and returned. -/
inductive Machine.Run (M : Machine σ Op ρ) (s₀ : σ) : List (Op × ρ) → σ → Prop
  | nil : M.Run s₀ [] s₀
  | snoc {tr : List (Op × ρ)} {s s' : σ} {op : Op} {r : ρ} (run : M.Run s₀ tr s)
      (en : M.enabled tr s op) (ret : Returns (M.exec op) s r s') :
      M.Run s₀ (tr ++ [(op, r)]) s'

/-- The abstract state a history leads to. -/
def Spec.after (S : Spec α Op ρ) (a₀ : α) (tr : List (Op × ρ)) : α :=
  tr.foldl (fun a e => S.next a e.1) a₀

@[simp] theorem Spec.after_nil (S : Spec α Op ρ) (a₀ : α) : S.after a₀ [] = a₀ := rfl

@[simp] theorem Spec.after_snoc (S : Spec α Op ρ) (a₀ : α) (tr : List (Op × ρ)) (e : Op × ρ) :
    S.after a₀ (tr ++ [e]) = S.next (S.after a₀ tr) e.1 := by
  simp [Spec.after]

/-- Every result in the history is the one the spec gives at that point. -/
def Spec.Explains (S : Spec α Op ρ) (a₀ : α) (tr : List (Op × ρ)) : Prop :=
  ∀ before op r later, tr = before ++ (op, r) :: later → r = S.result (S.after a₀ before) op

theorem Spec.explains_nil (S : Spec α Op ρ) (a₀ : α) : S.Explains a₀ [] := by
  intro before op r later h
  simp at h

theorem Spec.explains_snoc {S : Spec α Op ρ} {a₀ : α} {tr : List (Op × ρ)} {op : Op} {r : ρ}
    (h : S.Explains a₀ tr) (hr : r = S.result (S.after a₀ tr) op) :
    S.Explains a₀ (tr ++ [(op, r)]) := by
  intro before op' r' later heq
  rcases List.eq_nil_or_concat later with rfl | ⟨later', e, rfl⟩
  · obtain ⟨rfl, he⟩ := List.append_inj' heq rfl
    simp only [List.cons.injEq, Prod.mk.injEq, and_true] at he
    obtain ⟨rfl, rfl⟩ := he
    exact hr
  · rw [List.concat_eq_append, ← List.cons_append, ← List.append_assoc] at heq
    obtain ⟨heq, -⟩ := List.append_inj' heq rfl
    exact h before op' r' later' heq

/-- In every state a run reaches, `P` holds and every enabled call returns. -/
def Machine.Safe (M : Machine σ Op ρ) (s₀ : σ) (P : σ → Prop) : Prop :=
  ∀ tr s, M.Run s₀ tr s → P s ∧ ∀ op, M.enabled tr s op → ∃ r s', Returns (M.exec op) s r s'

/-- An invariant that the start has and every enabled call keeps, by returning, makes the machine
    safe for whatever the invariant implies. -/
theorem Machine.safe_of_step {M : Machine σ Op ρ} {s₀ : σ} {P : σ → Prop} (Inv : σ → Prop)
    (h₀ : Inv s₀) (hP : ∀ s, Inv s → P s)
    (hstep : ∀ tr s op, Inv s → M.enabled tr s op →
      ∃ r s', Returns (M.exec op) s r s' ∧ Inv s') : M.Safe s₀ P := by
  have hInv : ∀ tr s, M.Run s₀ tr s → Inv s := by
    intro tr s h
    induction h with
    | nil => exact h₀
    | snoc _ en ret ih =>
        obtain ⟨r', s'', ret', hI⟩ := hstep _ _ _ ih en
        exact (ret'.unique ret).2 ▸ hI
  intro tr s h
  refine ⟨hP s (hInv tr s h), fun op en => ?_⟩
  obtain ⟨r, s', ret, -⟩ := hstep tr s op (hInv tr s h) en
  exact ⟨r, s', ret⟩

/-- Every run is one of the spec: states stay related by `R`, every result is the spec's, and every
    enabled call returns. -/
def Machine.Refines (M : Machine σ Op ρ) (s₀ : σ) (S : Spec α Op ρ) (a₀ : α)
    (R : σ → α → Prop) : Prop :=
  ∀ tr s, M.Run s₀ tr s → R s (S.after a₀ tr) ∧ S.Explains a₀ tr ∧
    ∀ op, M.enabled tr s op → ∃ s', Returns (M.exec op) s (S.result (S.after a₀ tr) op) s'

/-- One enabled call simulated by the spec, for every related pair of states, gives refinement. -/
theorem Machine.refines_of_step {M : Machine σ Op ρ} {s₀ : σ} {S : Spec α Op ρ} {a₀ : α}
    {R : σ → α → Prop} (h₀ : R s₀ a₀)
    (hstep : ∀ tr s op, R s (S.after a₀ tr) → M.enabled tr s op →
      ∃ s', Returns (M.exec op) s (S.result (S.after a₀ tr) op) s' ∧
        R s' (S.next (S.after a₀ tr) op)) : M.Refines s₀ S a₀ R := by
  have hR : ∀ tr s, M.Run s₀ tr s → R s (S.after a₀ tr) ∧ S.Explains a₀ tr := by
    intro tr s h
    induction h with
    | nil => exact ⟨h₀, S.explains_nil a₀⟩
    | snoc _ en ret ih =>
        obtain ⟨s'', ret', hR'⟩ := hstep _ _ _ ih.1 en
        obtain ⟨hr, rfl⟩ := ret'.unique ret
        exact ⟨by simpa using hR', Spec.explains_snoc ih.2 hr.symm⟩
  intro tr s h
  refine ⟨(hR tr s h).1, (hR tr s h).2, fun op en => ?_⟩
  obtain ⟨s', ret, -⟩ := hstep tr s op (hR tr s h).1 en
  exact ⟨s', ret⟩

/-- A refinement through a stronger relation. -/
theorem Machine.Refines.mono {M : Machine σ Op ρ} {s₀ : σ} {S : Spec α Op ρ} {a₀ : α}
    {R R' : σ → α → Prop} (h : M.Refines s₀ S a₀ R) (hR : ∀ s a, R s a → R' s a) :
    M.Refines s₀ S a₀ R' :=
  fun tr s hrun => ⟨hR _ _ (h tr s hrun).1, (h tr s hrun).2⟩

/-! ### Specifications that leave a result open -/

/-- The abstract state a history leads to. -/
def LooseSpec.after (S : LooseSpec α Op ρ) (a₀ : α) (tr : List (Op × ρ)) : α :=
  tr.foldl (fun a e => S.next a e.1 e.2) a₀

@[simp] theorem LooseSpec.after_nil (S : LooseSpec α Op ρ) (a₀ : α) : S.after a₀ [] = a₀ := rfl

@[simp] theorem LooseSpec.after_snoc (S : LooseSpec α Op ρ) (a₀ : α) (tr : List (Op × ρ))
    (e : Op × ρ) : S.after a₀ (tr ++ [e]) = S.next (S.after a₀ tr) e.1 e.2 := by
  simp [LooseSpec.after]

/-- Every result in the history is allowed at that point. -/
inductive LooseSpec.Allows (S : LooseSpec α Op ρ) (a₀ : α) : List (Op × ρ) → Prop
  | nil : S.Allows a₀ []
  | snoc {tr : List (Op × ρ)} {op : Op} {r : ρ} (before : S.Allows a₀ tr)
      (last : S.allows (S.after a₀ tr) op r) : S.Allows a₀ (tr ++ [(op, r)])

/-- Every run is one that the spec allows, states stay related by `R`, and every enabled call
    returns. -/
def Machine.Conforms (M : Machine σ Op ρ) (s₀ : σ) (S : LooseSpec α Op ρ) (a₀ : α)
    (R : σ → α → Prop) : Prop :=
  ∀ tr s, M.Run s₀ tr s → R s (S.after a₀ tr) ∧ S.Allows a₀ tr ∧
    ∀ op, M.enabled tr s op → ∃ r s', Returns (M.exec op) s r s'

/-- One enabled call allowed by the spec, for every related pair of states, gives conformance. What
    is known of the history may be used. -/
theorem Machine.conforms_of_step {M : Machine σ Op ρ} {s₀ : σ} {S : LooseSpec α Op ρ} {a₀ : α}
    {R : σ → α → Prop} (h₀ : R s₀ a₀)
    (hstep : ∀ tr s op, R s (S.after a₀ tr) → M.enabled tr s op → ∃ r s',
      Returns (M.exec op) s r s' ∧ S.allows (S.after a₀ tr) op r ∧
        R s' (S.next (S.after a₀ tr) op r)) : M.Conforms s₀ S a₀ R := by
  have hR : ∀ tr s, M.Run s₀ tr s → R s (S.after a₀ tr) ∧ S.Allows a₀ tr := by
    intro tr s h
    induction h with
    | nil => exact ⟨h₀, .nil⟩
    | snoc _ en ret ih =>
        obtain ⟨r', s'', ret', hallows, hR'⟩ := hstep _ _ _ ih.1 en
        obtain ⟨rfl, rfl⟩ := ret'.unique ret
        exact ⟨by simpa using hR', ih.2.snoc hallows⟩
  intro tr s h
  refine ⟨(hR tr s h).1, (hR tr s h).2, ?_⟩
  intro op en
  obtain ⟨r, s', ret, -⟩ := hstep tr s op (hR tr s h).1 en
  exact ⟨r, s', ret⟩

end Runs

end StructLib
