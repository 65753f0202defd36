import StructLib.HashMap.Model
import StructLib.Hlist.Refine

set_option autoImplicit false

/-! # The hash map is a stack of entries for each key

Entries whose keys share a bucket are on one list, newest first. The stack of a key is the entries
of its bucket that have the key (`Represents`), and that is what the operations keep
(`map_is_stacks`). -/

namespace StructLib.HashMap

open Hlist Family

/-- The entries of each key, newest first. -/
abbrev Stacks := UInt32 → List Ptr

/-- The list head for a key. -/
def bucket (map : Ptr) (k : UInt32) : Ptr := htableBurket map hashBurketSize k

/-- The lists `A` in memory hold the stacks `S` of the map. -/
structure Represents (map : Ptr) (A : Heads) (s : MapMem) (S : Stacks) : Prop where
  lists : Lists s.list A
  home : ∀ h x, Holds A h x → h = bucket map (s.key x)
  stack : ∀ k, ∃ xs, A (bucket map k) = some xs ∧ S k = xs.filter (s.key · = k)

/-! ## The operations -/

inductive Op where
  | insert (key : UInt32) (entry : Ptr)
  | find (key : UInt32)
  | earse (key : UInt32)

inductive Result where
  | inserted (done : Bool)
  | entry (p : Option Ptr)

def Op.exec (map : Ptr) : Op → ℕ → Exec MapMem Result
  | insert k e, _ => do return .inserted (← hashMapInsert map k e)
  | find k, fuel => do return .entry (← hashMapFind fuel map k)
  | earse k, fuel => do return .entry (← hashMapEarse fuel map k)

/-- What a user promises: an entry that is inserted is not in the map. -/
def Op.Allowed (s : MapMem) (S : Stacks) : Op → Prop
  | insert _ e => s.list.isNode e = true ∧ ∀ k, e ∉ S k
  | find _ | earse _ => True

/-- The newest entry of a key is found, and erased. -/
def mapSpec : Spec Stacks Op Result where
  result S
    | .insert _ _ => .inserted true
    | .find k | .earse k => .entry (S k).head?
  next S
    | .insert k e => Function.update S k (e :: S k)
    | .find _ => S
    | .earse k => Function.update S k (S k).tail

def mapMachine (map : Ptr) : Machine MapMem Op Result where
  enabled tr s op := op.Allowed s (mapSpec.after (fun _ => []) tr)
  exec op := op.exec map

/-! ## Lookup -/

section Map

variable {map : Ptr} {A : Heads} {s : MapMem} {S : Stacks} {k : UInt32} {e : Ptr} {m : Place}
  {xs p q : List Ptr}

theorem run_onList {α : Type} {x : Exec HlistMem α} {a : α} {l : HlistMem}
    (h : x.run s.list = .ok (a, l)) : (onList x).run s = .ok (a, { s with list := l }) :=
  Exec.run_onPart h

theorem run_getKey (he : s.list.isNode e = true) : (getKey e).run s = .ok (s.key e, s) := by
  simp [getKey, he]

theorem returns_findLoop (hc : Chain .next s.list.link m xs)
    (hxs : ∀ x ∈ xs, s.list.isNode x = true) :
    Returns (fun fuel => findLoop k fuel (s.list.link m)) s (xs.find? (s.key · = k)) s := by
  refine Returns.of_succ ?_
  induction xs generalizing m with
  | nil =>
      rw [chain_nil.1 hc]
      exact .of_run rfl
  | cons x xs ih =>
      rw [hc.1]
      refine .bind_run (run_getKey (hxs x (by simp))) ?_
      by_cases hk : s.key x = k
      · simp only [hk, if_true, List.find?_cons, decide_true]
        exact .of_run rfl
      · simp only [hk, if_false, List.find?_cons, decide_false]
        refine .bind_run (run_onList (run_getNext (hxs x (by simp)))) ?_
        exact .of_succ (ih hc.2 fun y hy => hxs y (List.mem_cons_of_mem x hy))

theorem Represents.returns_find (hR : Represents map A s S) (k : UInt32) :
    Returns (fun fuel => hashMapFind fuel map k) s (S k).head? s := by
  obtain ⟨xs, hA, hS⟩ := hR.stack k
  have hnode : ∀ x ∈ xs, s.list.isNode x = true := fun x hx =>
    hR.lists.node _ x ((holds_iff hA).2 hx)
  rw [hS, List.head?_filter]
  refine .bind_run (run_onList (run_getFirst (hR.lists.head _ xs hA))) ?_
  exact returns_findLoop (hR.lists.onList _ xs hA).chain hnode

/-! ## Insertion -/

/-- An entry outside all stacks is on no list. -/
theorem Represents.free (hR : Represents map A s S) (he : ∀ k, e ∉ S k) (g : Ptr) :
    ¬ Holds A g e := by
  intro hg
  obtain ⟨xs, hA, hS⟩ := hR.stack (s.key e)
  obtain rfl := hR.home g e hg
  refine he (s.key e) ?_
  rw [hS]
  exact List.mem_filter.2 ⟨(holds_iff hA).1 hg, by simp⟩

/-- The keys of old entries stay. -/
theorem filter_update (he : e ∉ xs) {k' : UInt32} :
    xs.filter (Function.update s.key e k · = k') = xs.filter (s.key · = k') := by
  refine List.filter_congr fun x hx => ?_
  have hxe : x ≠ e := by
    rintro rfl
    exact he hx
  rw [Function.update_of_ne hxe]

theorem Represents.insert (hR : Represents map A s S) (hnode : s.list.isNode e = true)
    (he : ∀ k, e ∉ S k) (k : UInt32) : ∃ s', (hashMapInsert map k e).run s = .ok (true, s') ∧
      ∃ A', Represents map A' s' (Function.update S k (e :: S k)) := by
  obtain ⟨xs, hA, hS⟩ := hR.stack k
  have hfree := hR.free he
  have hnew : ∀ g ys, A g = some ys → e ∉ ys := fun g ys hg hy => hfree g ((holds_iff hg).2 hy)
  have hop : (Hlist.Op.addHead e (bucket map k)).Allowed s.list A :=
    ⟨by rw [hA]; rfl, hnode, hfree⟩
  obtain ⟨l, hrun, hlists⟩ := hR.lists.step _ hop
  rw [Hlist.Op.next, hA, Option.map_some] at hlists
  have hset : (setKey e k).run s = .ok ((), { s with key := Function.update s.key e k }) := by
    simp [setKey, hnode]
  refine ⟨{ list := l, key := Function.update s.key e k }, ?_, _, hlists, fun h x hx => ?_,
    fun k' => ?_⟩
  · refine (Exec.run_bind_of_ok hset _).trans ?_
    have hlist := run_onList (s := ⟨s.list, Function.update s.key e k⟩) hrun
    exact (Exec.run_bind_of_ok hlist _).trans rfl
  · rw [holds_update] at hx
    by_cases hxe : x = e
    · subst hxe
      by_cases hh : h = bucket map k
      · rw [hh]
        have hkey : Function.update s.key x k x = k := Function.update_self ..
        exact (congrArg (bucket map) hkey).symm
      · rw [if_neg hh] at hx
        exact absurd hx (hfree h)
    · have hkey : Function.update s.key e k x = s.key x := Function.update_of_ne hxe ..
      refine Eq.trans ?_ (congrArg (bucket map) hkey.symm)
      by_cases hh : h = bucket map k
      · rw [if_pos hh] at hx
        obtain ⟨ys, hys, hx⟩ := hx
        rw [Option.some.injEq] at hys
        rw [← hys] at hx
        have hx' : x ∈ xs := (List.mem_cons.1 hx).resolve_left hxe
        exact hR.home h x (hh ▸ (holds_iff hA).2 hx')
      · rw [if_neg hh] at hx
        exact hR.home h x hx
  · by_cases hb : bucket map k' = bucket map k
    · -- the same bucket: the new entry counts for its own key only
      refine ⟨e :: xs, by rw [hb, Function.update_self], ?_⟩
      obtain ⟨ys, hA', hS'⟩ := hR.stack k'
      rw [hb, hA, Option.some.injEq] at hA'
      subst hA'
      simp only [List.filter_cons, filter_update (hnew _ _ hA), Function.update_self]
      by_cases hk : k = k'
      · subst hk
        simp [hS]
      · simp [hk, Ne.symm hk, hS']
    · obtain ⟨ys, hA', hS'⟩ := hR.stack k'
      refine ⟨ys, by rw [Function.update_of_ne hb, hA'], ?_⟩
      have hk : k' ≠ k := fun heq => hb (heq ▸ rfl)
      rw [Function.update_of_ne hk, filter_update (hnew _ _ hA'), hS']

/-! ## Erasing -/

theorem Represents.earse (hR : Represents map A s S) (k : UInt32) : ∃ s',
    Returns (fun fuel => hashMapEarse fuel map k) s (S k).head? s' ∧
      ∃ A', Represents map A' s' (Function.update S k (S k).tail) := by
  obtain ⟨xs, hA, hS⟩ := hR.stack k
  have hfind := hR.returns_find k
  cases hhead : (S k).head? with
  | none =>
      rw [hhead] at hfind
      refine ⟨s, hfind.bind (.of_run rfl), A, ?_⟩
      have hnil : S k = [] := List.head?_eq_none_iff.1 hhead
      have hself : Function.update S k (S k).tail = S := by
        rw [hnil, List.tail_nil, ← hnil, Function.update_eq_self]
      rwa [hself]
  | some e =>
      have hsplit : xs.find? (s.key · = k) = some e := by rw [← List.head?_filter, ← hS, hhead]
      obtain ⟨hek, p, q, rfl, hp⟩ := List.find?_eq_some_iff_append.1 hsplit
      have hek : s.key e = k := by simpa using hek
      have hp : ∀ x ∈ p, s.key x ≠ k := by simpa using hp
      have hop : (Hlist.Op.del e).Allowed s.list A := ⟨_, (holds_iff hA).2 (by simp)⟩
      obtain ⟨l, hrun, hlists⟩ := hR.lists.step _ hop
      have hep : e ∉ p := fun hmem => hp e hmem hek
      rw [Hlist.Op.next, hR.lists.apart.erase_eq hA (by simp), erase_split hep] at hlists
      rw [hhead] at hfind
      refine ⟨{ s with list := l }, hfind.bind (.of_run ?_), _, hlists, fun h x hx => ?_,
        fun k' => ?_⟩
      · exact (Exec.run_bind_of_ok (run_onList hrun) _).trans rfl
      · rw [holds_update] at hx
        by_cases hh : h = bucket map k
        · rw [if_pos hh] at hx
          obtain ⟨ys, hys, hx⟩ := hx
          rw [Option.some.injEq] at hys
          rw [← hys] at hx
          refine hR.home h x (hh ▸ (holds_iff hA).2 ?_)
          simp only [List.mem_append, List.mem_cons] at hx ⊢
          tauto
        · rw [if_neg hh] at hx
          exact hR.home h x hx
      · obtain ⟨ys, hA', hS'⟩ := hR.stack k'
        by_cases hb : bucket map k' = bucket map k
        · -- the same bucket: the entry is the newest of its key, and of no other
          refine ⟨p ++ q, by rw [hb, Function.update_self], ?_⟩
          rw [hb, hA, Option.some.injEq] at hA'
          subst hA'
          by_cases hk : k' = k
          · subst hk
            have hpnil : p.filter (s.key · = k') = [] := by simpa using hp
            simp [hS, hek, hpnil]
          · simp [hk, hS', hek, Ne.symm hk]
        · refine ⟨ys, by rw [Function.update_of_ne hb, hA'], ?_⟩
          have hk : k' ≠ k := fun heq => hb (heq ▸ rfl)
          rw [Function.update_of_ne hk, hS']

/-! ## Initialisation -/

/-- The first `n` heads of the map, all empty. -/
def emptyHeads (map n : ℕ) : Heads := fun h : ℕ => if map ≤ h ∧ h < map + n then some [] else none

theorem emptyHeads_succ {map n : ℕ} :
    Function.update (emptyHeads map n) (map + n) (some []) = emptyHeads map (n + 1) := by
  funext (h : ℕ)
  by_cases hh : h = map + n
  · subst hh
    simp [emptyHeads]
  · rw [Function.update_of_ne hh]
    unfold emptyHeads
    refine if_congr ?_ rfl rfl
    omega

theorem hashBurketSize_toInt : hashBurketSize.toInt = 1024 := by decide

theorem emptyHeads_bucket {map : ℕ} : emptyHeads map 1024 (bucket map k) = some [] := by
  have hle : (htableIndex k hashBurketSize).toNat ≤ 1023 := by
    rw [htableIndex, UInt32.toNat_and]
    exact Nat.and_le_right
  refine if_pos ⟨Nat.le_add_right .., ?_⟩
  exact Nat.add_lt_add_left (Nat.lt_succ_of_le hle) map

/-- The loop from its `i`-th turn on, for `n` more turns. -/
theorem returns_htableInitLoop {n : ℕ}
    (hheads : ∀ i : ℕ, i < 1024 → s.list.isHead (map + i) = true) :
    ∀ (i : ℕ) (l : HlistMem), i + n = 1024 → l.isHead = s.list.isHead → Lists l (emptyHeads map i) →
      ∃ l', Returns (fun fuel => htableInitLoop map hashBurketSize fuel i) l () l' ∧
        Lists l' (emptyHeads map 1024) := by
  induction n with
  | zero =>
      intro i l hi hl hA
      obtain rfl : i = 1024 := hi
      refine ⟨l, .of_succ ?_, hA⟩
      have hcond : ¬ ((1024 : ℕ) : ℤ) < hashBurketSize.toInt := by
        rw [hashBurketSize_toInt]
        decide
      simp only [htableInitLoop, hcond, if_false]
      exact .of_run rfl
  | succ n ih =>
      intro i l hi hl hA
      have hhead : l.isHead (map + i) = true := hl ▸ hheads i (by omega)
      have hA' := hA.init hhead
      rw [emptyHeads_succ] at hA'
      have hi' : i + 1 + n = 1024 := by omega
      obtain ⟨l', hret, hA''⟩ := ih (i + 1) _ hi' (by exact hl) hA'
      refine ⟨l', .of_succ ?_, hA''⟩
      have hcond : (i : ℤ) < hashBurketSize.toInt := by
        rw [hashBurketSize_toInt]
        omega
      simp only [htableInitLoop, hcond, if_true]
      exact .bind_run (run_setFirst hhead) hret

theorem returns_onList {x : ℕ → Exec HlistMem Unit} {l : HlistMem}
    (h : Returns x s.list () l) :
    Returns (fun fuel => onList (x fuel)) s () { s with list := l } :=
  h.onPart

/-- After `hash_map_init` all stacks are empty. -/
theorem returns_hashMapInit (hheads : ∀ i : ℕ, i < 1024 → s.list.isHead (map + i) = true) :
    ∃ s', Returns (fun fuel => hashMapInit fuel map) s () s' ∧
      ∃ A, Represents map A s' fun _ => [] := by
  have hempty : emptyHeads map 0 = fun _ => none := by
    funext (h : ℕ)
    exact if_neg (by omega)
  have hnone : Lists s.list (emptyHeads map 0) := hempty ▸ lists_none s.list
  obtain ⟨l, hret, hA⟩ := returns_htableInitLoop hheads (n := 1024) 0 s.list rfl rfl hnone
  refine ⟨_, returns_onList hret, emptyHeads map 1024, hA, ?_, fun k => ?_⟩
  · rintro h x ⟨xs, hh, hx⟩
    unfold emptyHeads at hh
    split at hh
    · rw [Option.some.injEq] at hh
      simp [← hh] at hx
    · cases hh
  · exact ⟨[], emptyHeads_bucket, rfl⟩

end Map

/-! ## Runs -/

/-- **The hash map is a stack of entries for each key**, from `hash_map_init` on. -/
theorem map_is_stacks (map : Ptr) (s : MapMem)
    (hheads : ∀ i : ℕ, i < 1024 → s.list.isHead (map + i) = true) :
    ∃ s₀, Returns (fun fuel => hashMapInit fuel map) s () s₀ ∧
      (mapMachine map).Refines s₀ mapSpec (fun _ => []) fun s S => ∃ A, Represents map A s S := by
  obtain ⟨s₀, hinit, h₀⟩ := returns_hashMapInit hheads
  refine ⟨s₀, hinit, Machine.refines_of_step h₀ fun tr s op hR hop => ?_⟩
  obtain ⟨A, hR⟩ := hR
  cases op with
  | insert k e =>
      obtain ⟨s', hrun, hR'⟩ := hR.insert hop.1 hop.2 k
      exact ⟨s', (Returns.of_run hrun).map Result.inserted, hR'⟩
  | find k => exact ⟨s, (hR.returns_find k).map Result.entry, A, hR⟩
  | earse k =>
      obtain ⟨s', hret, hR'⟩ := hR.earse k
      exact ⟨s', hret.map Result.entry, hR'⟩

/-- All addresses are heads. -/
theorem map_is_stacks_everywhere : ∃ s₀,
    Returns (fun fuel => hashMapInit fuel 0)
      ⟨⟨fun _ => true, fun _ => true, fun _ => none, fun _ => none⟩, fun _ => 0⟩ () s₀ ∧
      (mapMachine 0).Refines s₀ mapSpec (fun _ => []) fun s S => ∃ A, Represents 0 A s S :=
  map_is_stacks 0 ⟨⟨fun _ => true, fun _ => true, fun _ => none, fun _ => none⟩, fun _ => 0⟩
    fun _ _ => rfl

end StructLib.HashMap
