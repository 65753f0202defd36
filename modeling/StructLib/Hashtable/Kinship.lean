import StructLib.Hashtable.Children

set_option autoImplicit false

/-! # Runs with parents and children

A run of calls is right about parents and children as long as each call is `Sound`: no child is
added that already hangs elsewhere or among siblings, the newest child is not taken from among
others, and no entry is deleted whose parent or child stays. Each of the three conditions is needed.
-/

namespace StructLib.Hash

open Links

/-! ## The calls -/

/-- All calls on a table. -/
inductive KinOp where
  | table (op : TableOp)
  | addChild (idParentNode idChildNode : UInt32)
  | removeChild (idParentNode idChildNode : UInt32)

def KinOp.exec : KinOp → ℕ → Exec Hashtable Answer
  | table op, fuel => op.exec fuel
  | addChild idParentNode idChildNode, fuel =>
      return .code (← addChildHashEntry fuel idParentNode idChildNode)
  | removeChild idParentNode idChildNode, fuel =>
      return .code (← removeChildHashEntry fuel idParentNode idChildNode)

def KinOp.Allowed (s : Hashtable) : KinOp → Prop
  | table op => op.Allowed s
  | _ => True

/-- A table as its entries and their children. -/
def clanSpec : Spec Clan KinOp Answer where
  result a
    | .table op => tableSpec.result a.items op
    | _ => .code 0
  next a
    | .table op => a.restrict (tableSpec.next a.items op)
    | .addChild idParentNode idChildNode => a.addChild idParentNode idChildNode
    | .removeChild idParentNode idChildNode => a.removeChild idParentNode idChildNode

def Clan.none : Clan := ⟨[], fun _ => []⟩

/-- Calls that keep the `promise`, and leave fewer entries than an `int32_t` counts. -/
def kinMachine (promise : Clan → KinOp → Prop) : Machine Hashtable KinOp Answer where
  enabled tr s op := op.Allowed s ∧
    (clanSpec.next (clanSpec.after .none tr) op).items.length < 2 ^ 31 ∧
    promise (clanSpec.after .none tr) op
  exec := KinOp.exec

/-! ## What keeps the clan -/

/-- The child has no parent, or it is the only child of this one. -/
def AddsNew (a : Clan) (idParentNode idChildNode : UInt32) : Prop :=
  ∀ x ∈ a.items, ∀ y ∈ a.items, x.id = idParentNode → y.id = idChildNode →
    (∀ z ∈ a.items, y ∉ a.kids z) ∨ a.kids x = [y]

/-- One entry is a child of the other. -/
def IsChild (a : Clan) (idParentNode idChildNode : UInt32) : Prop :=
  ∃ x ∈ a.items, ∃ y ∈ a.kids x, x.id = idParentNode ∧ y.id = idChildNode

/-- If it is the newest one, it has no siblings. -/
def SparesNewest (a : Clan) (idParentNode idChildNode : UInt32) : Prop :=
  ∀ x ∈ a.items, ∀ y ∈ a.kids x, x.id = idParentNode → y.id = idChildNode →
    (a.kids x).getLast? = some y → a.kids x = [y]

instance (a : Clan) (p c : UInt32) : Decidable (AddsNew a p c) :=
  inferInstanceAs (Decidable (∀ x ∈ a.items, ∀ y ∈ a.items, x.id = p → y.id = c →
    (∀ z ∈ a.items, y ∉ a.kids z) ∨ a.kids x = [y]))

instance (a : Clan) (p c : UInt32) : Decidable (IsChild a p c) :=
  inferInstanceAs (Decidable (∃ x ∈ a.items, ∃ y ∈ a.kids x, x.id = p ∧ y.id = c))

/-- The calls after which the memory still holds the clan. -/
def Sound (a : Clan) : KinOp → Prop
  | .table op => a.Closed (tableSpec.next a.items op)
  | .addChild idParentNode idChildNode => AddsNew a idParentNode idChildNode
  | .removeChild idParentNode idChildNode =>
      IsChild a idParentNode idChildNode ∧ SparesNewest a idParentNode idChildNode

section Step

variable {s s₀ : Hashtable} {N : ℕ} {a : Clan} {promise : Clan → KinOp → Prop}

/-- One sound call. -/
theorem Family.returns_kinOp (h : Family s a) (ht : Table s N a.items) (op : KinOp)
    (hok : op.Allowed s) (hroom : (clanSpec.next a op).items.length < 2 ^ 31) (hsound : Sound a op) :
    ∃ s', Returns op.exec s (clanSpec.result a op) s' ∧ Table s' N (clanSpec.next a op).items ∧
      Family s' (clanSpec.next a op) := by
  cases op with
  | table op =>
      obtain ⟨s', hret, htable, hkept⟩ := ht.returns_tableOp op hok hroom
      exact ⟨s', hret, htable, h.kept hkept hsound⟩
  | addChild p c =>
      obtain ⟨s', hret, htable, hfamily⟩ := h.returns_addChildHashEntry ht hsound
      refine ⟨s', hret.map Answer.code, ?_, hfamily⟩
      rw [show (clanSpec.next a (.addChild p c)).items = a.items from a.items_addChild p c]
      exact htable
  | removeChild p c =>
      obtain ⟨⟨x, hx, y, hy, rfl, rfl⟩, hspare⟩ := hsound
      obtain ⟨hret, htable⟩ := h.returns_removeChildHashEntry ht hx hy
      have hya := h.live x hx y hy
      have hnext : clanSpec.next a (.removeChild x.id y.id) = a.dropKid x y := by
        show a.removeChild x.id y.id = _
        simp only [Clan.removeChild, ht.find?_id hx, ht.find?_id hya]
      rw [hnext]
      exact ⟨_, hret.map Answer.code, htable, h.detach ht hx hy (hspare x hx y hy rfl rfl)⟩

theorem family_none (s : Hashtable) : Family s .none :=
  ⟨fun _ hx => (List.not_mem_nil hx).elim, fun _ hx => (List.not_mem_nil hx).elim,
    fun _ hx => (List.not_mem_nil hx).elim, fun _ hx => (List.not_mem_nil hx).elim,
    fun _ hx => (List.not_mem_nil hx).elim, fun _ _ => rfl⟩

/-- **Sound calls keep the clan**: runs are those of `clanSpec`, and what holds of every memory that
    holds a clan holds throughout. -/
theorem kinMachine_refines (hpromise : ∀ a op, promise a op → Sound a op) (h₀ : Table s₀ N [])
    {R : Hashtable → Clan → Prop} (hR : ∀ s a, Table s N a.items → Family s a → R s a) :
    (kinMachine promise).Refines s₀ clanSpec .none R := by
  have hrefines : (kinMachine promise).Refines s₀ clanSpec .none
      (fun s a => Table s N a.items ∧ Family s a) := by
    refine Machine.refines_of_step ⟨h₀, family_none s₀⟩ ?_
    rintro tr s op ⟨htable, hfamily⟩ ⟨hok, hroom, hop⟩
    exact hfamily.returns_kinOp htable op hok hroom (hpromise _ op hop)
  exact hrefines.mono fun s a h => hR s a h.1 h.2

end Step

/-! ## What is to hold -/

/-- `GetChildHashEntryCount` returns the number of entries whose `Parent` is `x`. -/
def CountRight (s : Hashtable) (l : List Item) (x : Item) : Prop :=
  Returns (fun fuel => getChildHashEntryCount fuel x.id) s (childrenOf s l x).length s

/-- `Child` is NULL just if no entry has `x` as its `Parent`; otherwise it is one that has, and the
    ring through it holds just these. -/
def RingRight (s : Hashtable) (l : List Item) (x : Item) : Prop :=
  s.childOf x.block = .null ∧ childrenOf s l x = [] ∨
    ∃ c cs, s.childOf x.block = .entry c.block 0 ∧ (c :: cs).Perm (childrenOf s l x) ∧
      s.link.Ring c.brotherLink (cs.map Item.brotherLink)

/-- The pointers in `x` to other entries lead to entries that are there. -/
def LinksLive (s : Hashtable) (l : List Item) (x : Item) : Prop :=
  (s.childOf x.block = .null ∨ ∃ y ∈ l, s.childOf x.block = .entry y.block 0) ∧
    (s.parentOf x.block = .null ∨ ∃ y ∈ l, s.parentOf x.block = .entry y.block 0) ∧
    (∃ y ∈ l, s.link.next x.brotherLink = y.brotherLink) ∧
    ∃ y ∈ l, s.link.prev x.brotherLink = y.brotherLink

/-- The table has the entries of the clan, the entries whose `Parent` is `x` are its children, and
    `P` holds of every entry. -/
def ClanRight (P : Hashtable → List Item → Item → Prop) (N : ℕ) (s : Hashtable) (a : Clan) : Prop :=
  Table s N a.items ∧ ∀ x ∈ a.items, (childrenOf s a.items x).Perm (a.kids x) ∧ P s a.items x

section Right

variable {s : Hashtable} {N : ℕ} {a : Clan} {x : Item}

theorem Family.countRight (h : Family s a) (ht : Table s N a.items) (hx : x ∈ a.items) :
    CountRight s a.items x := by
  unfold CountRight
  rw [← (h.kids_perm ht hx).length_eq]
  exact h.returns_getChildHashEntryCount ht hx

theorem Family.ringRight (h : Family s a) (ht : Table s N a.items) (hx : x ∈ a.items) :
    RingRight s a.items x := by
  have hperm := h.kids_perm ht hx
  rcases List.eq_nil_or_concat (a.kids x) with hnil | ⟨cs, c, hcs⟩
  · left
    rw [hnil] at hperm
    rw [h.child x hx, hnil]
    exact ⟨rfl, hperm.nil_eq.symm⟩
  · rw [List.concat_eq_append] at hcs
    right
    rw [hcs] at hperm
    refine ⟨c, cs, ?_, (List.perm_append_singleton c cs).symm.trans hperm, h.ring x hx cs c hcs⟩
    rw [h.child x hx, hcs, newest_concat]

theorem Family.linksLive (h : Family s a) (hx : x ∈ a.items) :
    LinksLive s a.items x := by
  have hchild : s.childOf x.block = .null ∨ ∃ y ∈ a.items, s.childOf x.block = .entry y.block 0 := by
    rw [h.child x hx]
    rcases List.eq_nil_or_concat (a.kids x) with hnil | ⟨cs, c, hcs⟩
    · exact .inl (by rw [hnil]; rfl)
    · rw [List.concat_eq_append] at hcs
      exact .inr ⟨c, h.live x hx c (by simp [hcs]), by rw [hcs, newest_concat]⟩
  by_cases horphan : ∀ z ∈ a.items, x ∉ a.kids z
  · obtain ⟨hparent, hring⟩ := h.orphan x hx horphan
    obtain ⟨hnext, hprev⟩ := ring_nil.1 hring
    exact ⟨hchild, .inl hparent, ⟨x, hx, hnext⟩, x, hx, hprev⟩
  · push Not at horphan
    obtain ⟨z, hz, hxz⟩ := horphan
    obtain ⟨cs, c, -, hring, hmem, hbrothers⟩ := h.exists_ring hz hxz
    obtain ⟨y, hy, hnext⟩ := hbrothers _ (hring.next_mem_of_mem hmem)
    obtain ⟨y', hy', hprev⟩ := hbrothers _ (hring.prev_mem_of_mem hmem)
    exact ⟨hchild, .inr ⟨z, hz, h.parent z hz x hxz⟩, ⟨y, hy, hnext.symm⟩, y', hy', hprev.symm⟩

theorem Family.clanRight (h : Family s a) (ht : Table s N a.items)
    {P : Hashtable → List Item → Item → Prop} (hP : ∀ x ∈ a.items, P s a.items x) :
    ClanRight P N s a :=
  ⟨ht, fun x hx => ⟨(h.kids_perm ht hx).symm, hP x hx⟩⟩

end Right

/-! ## Runs -/

/-- Entries are inserted, children without a parent are added, and children are removed. -/
def Orderly (a : Clan) : KinOp → Prop
  | .table (.call (.insert _ _ _ _)) => True
  | .table _ => False
  | .addChild _ idChildNode => ∀ y ∈ a.items, y.id = idChildNode → ∀ z ∈ a.items, y ∉ a.kids z
  | .removeChild idParentNode idChildNode => IsChild a idParentNode idChildNode

/-- Entries are inserted, and any become children of any. -/
def Growing (a : Clan) : KinOp → Prop
  | .table (.call (.insert _ _ _ _)) => True
  | .addChild idParentNode idChildNode =>
      idParentNode ∈ a.items.map Item.id ∧ idChildNode ∈ a.items.map Item.id
  | _ => False

/-- Entries are inserted and deleted, and become children of one parent each. -/
def OneParent (a : Clan) : KinOp → Prop
  | .table (.call (.insert _ _ _ _)) => True
  | .table (.call (.remove _)) => True
  | .table (.enum _) => True
  | .addChild idParentNode idChildNode =>
      ∀ y ∈ a.items, y.id = idChildNode → ∀ z ∈ a.items, y ∈ a.kids z → z.id = idParentNode
  | _ => False

/-- A new table with one bucket. -/
theorem exists_one_burket : ∃ s₀,
    Returns (fun fuel => createHashTable 64 fuel 1 true true) .none 0 s₀ ∧ Table s₀ 1 [] ∧
      ∀ n, s₀.node n = none := by
  obtain ⟨s₀, hcreate, h₀, hnode⟩ := returns_createHashTable_64 .none
    (show (1 : UInt32).toNat = 1 from rfl) (by decide) (by decide)
  exact ⟨s₀, hcreate, h₀, fun n => by rw [hnode]; rfl⟩

/-- **Children and rings are right** as long as the newest child is not removed from among others.
    -/
theorem rings_right (w : ℕ) (length : UInt32) (hpos : 0 < length.toNat)
    (hlt : length.toNat < 2 ^ 31) (s s₀ : Hashtable)
    (hcreate : Returns (fun fuel => createHashTable w fuel length true true) s 0 s₀) :
    (kinMachine fun a op => Orderly a op ∧ Sound a op).Refines s₀ clanSpec .none
      (ClanRight (fun s l x => RingRight s l x ∧ CountRight s l x) length.toNat) :=
  kinMachine_refines (fun _ _ h => h.2) (Table.of_create rfl hpos hlt hcreate).1 fun _ _ ht h =>
    h.clanRight ht fun _ hx => ⟨h.ringRight ht hx, h.countRight ht hx⟩

theorem rings_right_one_burket : ∃ s₀,
    Returns (fun fuel => createHashTable 64 fuel 1 true true) .none 0 s₀ ∧
      (kinMachine fun a op => Orderly a op ∧ Sound a op).Refines s₀ clanSpec .none
        (ClanRight (fun s l x => RingRight s l x ∧ CountRight s l x) 1) := by
  obtain ⟨s₀, hcreate, -⟩ := exists_one_burket
  exact ⟨s₀, hcreate, rings_right 64 1 (by decide) (by decide) .none s₀ hcreate⟩

/-- **Counts are right** as long as no child is added that is a child already, but for an only child
    of the same parent. -/
theorem counts_right (w : ℕ) (length : UInt32) (hpos : 0 < length.toNat)
    (hlt : length.toNat < 2 ^ 31) (s s₀ : Hashtable)
    (hcreate : Returns (fun fuel => createHashTable w fuel length true true) s 0 s₀) :
    (kinMachine fun a op => Growing a op ∧ Sound a op).Refines s₀ clanSpec .none
      (ClanRight CountRight length.toNat) :=
  kinMachine_refines (fun _ _ h => h.2) (Table.of_create rfl hpos hlt hcreate).1 fun _ _ ht h =>
    h.clanRight ht fun _ hx => h.countRight ht hx

theorem counts_right_one_burket : ∃ s₀,
    Returns (fun fuel => createHashTable 64 fuel 1 true true) .none 0 s₀ ∧
      (kinMachine fun a op => Growing a op ∧ Sound a op).Refines s₀ clanSpec .none
        (ClanRight CountRight 1) := by
  obtain ⟨s₀, hcreate, -⟩ := exists_one_burket
  exact ⟨s₀, hcreate, counts_right 64 1 (by decide) (by decide) .none s₀ hcreate⟩

/-- **No link dangles** as long as, moreover, no entry is deleted whose parent or child stays. -/
theorem links_live (w : ℕ) (length : UInt32) (hpos : 0 < length.toNat)
    (hlt : length.toNat < 2 ^ 31) (s s₀ : Hashtable)
    (hcreate : Returns (fun fuel => createHashTable w fuel length true true) s 0 s₀) :
    (kinMachine fun a op => OneParent a op ∧ Sound a op).Refines s₀ clanSpec .none
      (ClanRight (fun s l x => LinksLive s l x ∧ CountRight s l x) length.toNat) :=
  kinMachine_refines (fun _ _ h => h.2) (Table.of_create rfl hpos hlt hcreate).1 fun _ _ ht h =>
    h.clanRight ht fun _ hx => ⟨h.linksLive hx, h.countRight ht hx⟩

theorem links_live_one_burket : ∃ s₀,
    Returns (fun fuel => createHashTable 64 fuel 1 true true) .none 0 s₀ ∧
      (kinMachine fun a op => OneParent a op ∧ Sound a op).Refines s₀ clanSpec .none
        (ClanRight (fun s l x => LinksLive s l x ∧ CountRight s l x) 1) := by
  obtain ⟨s₀, hcreate, -⟩ := exists_one_burket
  exact ⟨s₀, hcreate, links_live 64 1 (by decide) (by decide) .none s₀ hcreate⟩

/-! ## What goes wrong -/

/-- The entries with the ids below `k`, the latest first. -/
def fresh : ℕ → List Item
  | 0 => []
  | k + 1 => ⟨k, .ofNat k, []⟩ :: fresh k

theorem length_fresh (k : ℕ) : (fresh k).length = k := by
  induction k with
  | zero => rfl
  | succ k ih => rw [fresh, List.length_cons, ih]

theorem id_not_mem_fresh {k n : ℕ} (hkn : k ≤ n) (hn : n < 2 ^ 32) :
    UInt32.ofNat n ∉ (fresh k).map Item.id := by
  induction k with
  | zero => exact List.not_mem_nil
  | succ k ih =>
      rw [fresh, List.map_cons, List.mem_cons, not_or]
      refine ⟨fun heq => ?_, ih (by omega)⟩
      have hnat := congrArg UInt32.toNat heq
      simp only [UInt32.toNat_ofNat'] at hnat
      omega

/-- A run that kept its promises led from `s₀` to the clan `a` in the memory `s`. -/
structure Reaches (promise : Clan → KinOp → Prop) (s₀ : Hashtable) (N : ℕ) (a : Clan)
    (s : Hashtable) : Prop where
  run : ∃ tr, (kinMachine promise).Run s₀ tr s ∧ clanSpec.after .none tr = a
  table : Table s N a.items
  family : Family s a

section Reaches

variable {promise : Clan → KinOp → Prop} {s s₀ s' : Hashtable} {N : ℕ} {a : Clan} {r : Answer}

/-- The run goes on with a sound call. -/
theorem Reaches.step (h : Reaches promise s₀ N a s) (op : KinOp) (hok : op.Allowed s)
    (hroom : (clanSpec.next a op).items.length < 2 ^ 31) (hpromise : promise a op)
    (hsound : Sound a op) : ∃ s', Returns op.exec s (clanSpec.result a op) s' ∧
      Reaches promise s₀ N (clanSpec.next a op) s' := by
  obtain ⟨s', hret, htable, hfamily⟩ := h.family.returns_kinOp h.table op hok hroom hsound
  obtain ⟨tr, hrun, ha⟩ := h.run
  refine ⟨s', hret, ⟨_, hrun.snoc ?_ hret, ?_⟩, htable, hfamily⟩
  · exact ⟨hok, by rw [ha]; exact hroom, by rw [ha]; exact hpromise⟩
  · rw [Spec.after_snoc, ha]

/-- Where a run may go on with a call that leaves the memory without `P`, runs are not safe. -/
theorem Reaches.not_safe (h : Reaches promise s₀ N a s) {P : Hashtable → Prop} (op : KinOp)
    (hok : op.Allowed s) (hroom : (clanSpec.next a op).items.length < 2 ^ 31)
    (hpromise : promise a op) (hret : Returns op.exec s r s') (hP : ¬ P s') :
    ¬ (kinMachine promise).Safe s₀ P := by
  intro hsafe
  obtain ⟨tr, hrun, ha⟩ := h.run
  refine hP (hsafe _ _ (hrun.snoc ?_ hret)).1
  exact ⟨hok, by rw [ha]; exact hroom, by rw [ha]; exact hpromise⟩

/-- Insertions make any number of entries that fits. -/
theorem exists_reaches_fresh
    (hpromise : ∀ a id data size mem, promise a (.table (.call (.insert id data size mem))))
    (h₀ : Table s₀ N []) (hfree : ∀ n, s₀.node n = none) {k : ℕ} (hk : k < 2 ^ 31) :
    ∃ s, Reaches promise s₀ N ⟨fresh k, fun _ => []⟩ s ∧ ∀ n, k ≤ n → s.node n = none := by
  induction k with
  | zero => exact ⟨s₀, ⟨⟨[], .nil, rfl⟩, h₀, family_none s₀⟩, fun n _ => hfree n⟩
  | succ k ih =>
      obtain ⟨s, hreaches, hnode⟩ := ih (by omega)
      have hid := id_not_mem_fresh (Nat.le_refl k) (by omega)
      have hsize : (0 : UInt32).toNat ≤ ([] : List UInt8).length := Nat.zero_le _
      have hlen := length_fresh k
      have hnext : clanSpec.next ⟨fresh k, fun _ => []⟩
          (.table (.call (.insert (.ofNat k) [] 0 (some k)))) = ⟨fresh (k + 1), fun _ => []⟩ := by
        show Clan.restrict _ (MapOp.next (fresh k) (.insert (.ofNat k) [] 0 (some k))) = _
        rw [MapOp.next, if_neg hid]
        simp [Clan.restrict, fresh]
      obtain ⟨s', hret, hreaches'⟩ := hreaches.step
        (.table (.call (.insert (.ofNat k) [] 0 (some k)))) ⟨hnode k (Nat.le_refl k), hsize⟩
        (by rw [hnext]; show (fresh (k + 1)).length < _; rw [length_fresh]; exact hk)
        (hpromise _ _ _ _ _) (fun y _ _ z _ => ⟨List.not_mem_nil, List.not_mem_nil⟩)
      obtain ⟨s'', hret', -, hsame, -⟩ := hreaches.table.returns_insertHashEntry
        (hnode k (Nat.le_refl k)) hsize hid (by show (fresh k).length + 1 < _; omega)
      obtain rfl : s' = s'' := (hret.unique (hret'.map Answer.code)).2
      refine ⟨s', hnext ▸ hreaches', fun n hn => ?_⟩
      rw [(hsame n (by omega)).node, hnode n (by omega)]

end Reaches

section Wrong

/-- The child 1 of 0 is deleted, and `Child` of 0 dangles. -/
theorem deleted_child_dangles : ∃ s₀,
    Returns (fun fuel => createHashTable 64 fuel 1 true true) .none 0 s₀ ∧
      ¬ (kinMachine OneParent).Safe s₀ fun s =>
        ∃ l, Table s 1 l ∧ ∀ x ∈ l, LinksLive s l x ∧ CountRight s l x := by
  obtain ⟨s₀, hcreate, h₀, hfree⟩ := exists_one_burket
  have hpromise : ∀ a id data size mem, OneParent a (.table (.call (.insert id data size mem))) :=
    fun _ _ _ _ _ => trivial
  obtain ⟨s, h, -⟩ := exists_reaches_fresh hpromise h₀ hfree (show 2 < 2 ^ 31 by decide)
  obtain ⟨s, -, h⟩ := h.step (.addChild 0 1) trivial (by decide)
    (fun y _ _ z _ hyz => (List.not_mem_nil hyz).elim) (show AddsNew _ 0 1 by decide)
  have hx : (⟨0, 0, []⟩ : Item) ∈ fresh 2 := by decide
  have hy : (⟨1, 1, []⟩ : Item) ∈ fresh 2 := by decide
  have hchild : s.childOf 0 = .entry 1 0 := h.family.child ⟨0, 0, []⟩ hx
  have htable : Table s 1 ([] ++ ⟨1, 1, []⟩ :: [⟨0, 0, []⟩]) := h.table
  obtain ⟨hgone, hsame⟩ := htable.without
  have hchild' := (hsame ⟨0, 0, []⟩ (by decide)).childOf.trans hchild
  refine ⟨s₀, hcreate, h.not_safe (.table (.call (.remove 1))) trivial (by decide) trivial
    ((h.table.returns_removeHashEntry hy).map Answer.code) ?_⟩
  rintro ⟨l, hl, hlinks⟩
  obtain rfl := hgone.unique hl
  obtain ⟨⟨hnull | ⟨y, hy, hlive⟩, -⟩, -⟩ := hlinks ⟨0, 0, []⟩ (by decide)
  · rw [hchild'] at hnull
    cases hnull
  · rw [hchild'] at hlive
    rw [List.nil_append, List.mem_singleton] at hy
    subst hy
    cases hlive

/-- Of the children 1 and 2 of 0 the newest is removed, and `Child` of 0 does not point to an entry.
    -/
theorem removed_newest_misdirects : ∃ s₀,
    Returns (fun fuel => createHashTable 64 fuel 1 true true) .none 0 s₀ ∧
      ¬ (kinMachine Orderly).Safe s₀ fun s =>
        ∃ l, Table s 1 l ∧ ∀ x ∈ l, RingRight s l x ∧ CountRight s l x := by
  obtain ⟨s₀, hcreate, h₀, hfree⟩ := exists_one_burket
  have hpromise : ∀ a id data size mem, Orderly a (.table (.call (.insert id data size mem))) :=
    fun _ _ _ _ _ => trivial
  obtain ⟨s, h, -⟩ := exists_reaches_fresh hpromise h₀ hfree (show 3 < 2 ^ 31 by decide)
  obtain ⟨s, -, h⟩ := h.step (.addChild 0 1) trivial (by decide)
    (fun y _ _ z _ => List.not_mem_nil) (show AddsNew _ 0 1 by decide)
  have horphan : ∀ y ∈ fresh 3, y.id = 2 →
      ∀ z ∈ fresh 3, y ∉ (clanSpec.next ⟨fresh 3, fun _ => []⟩ (.addChild 0 1)).kids z := by decide
  obtain ⟨s, -, h⟩ := h.step (.addChild 0 2) trivial (by decide) horphan
    (show AddsNew _ 0 2 by decide)
  have hx : (⟨0, 0, []⟩ : Item) ∈ fresh 3 := by decide
  have hkids : (clanSpec.next (clanSpec.next ⟨fresh 3, fun _ => []⟩ (.addChild 0 1))
      (.addChild 0 2)).kids ⟨0, 0, []⟩ = [⟨1, 1, []⟩] ++ [⟨2, 2, []⟩] := by decide
  have hy : (⟨2, 2, []⟩ : Item) ∈ (clanSpec.next (clanSpec.next ⟨fresh 3, fun _ => []⟩
      (.addChild 0 1)) (.addChild 0 2)).kids ⟨0, 0, []⟩ := by decide
  have hchild : s.childOf 0 = .entry 2 0 := by
    rw [h.family.child ⟨0, 0, []⟩ hx, hkids, newest_concat]
  have hnext : s.link.next (.entry 2 2) = .entry 1 2 :=
    (h.family.ring ⟨0, 0, []⟩ hx _ _ hkids).next_eq
  obtain ⟨hret, htable⟩ := h.family.returns_removeChildHashEntry h.table hx hy
  refine ⟨s₀, hcreate, h.not_safe (.removeChild 0 2) trivial (by decide)
    ⟨_, hx, _, hy, rfl, rfl⟩ (hret.map Answer.code) ?_⟩
  rintro ⟨l, hl, hrings⟩
  obtain rfl := htable.unique hl
  have hwrong : (s.detach 0 2).childOf 0 = .entry 1 2 := by
    rw [childOf_detach (h.table.isSome hx), if_pos ⟨hchild, rfl⟩, hnext, if_neg (by simp)]
  obtain ⟨⟨hnull, -⟩ | ⟨c, cs, hc, -⟩, -⟩ := hrings ⟨0, 0, []⟩ hx
  · rw [hwrong] at hnull
    cases hnull
  · rw [hwrong] at hc
    exact absurd (Ptr.entry.inj hc).2 (by decide)

section Shared

variable {s : Hashtable} {N : ℕ} {a : Clan}

/-- The only child `x` could be counted through has the siblings' ring cut: `y`, a child of `x`
    before the newest child `c`, has become a child of the childless `z`. -/
theorem Family.adopt_shared (h : Family s a) (ht : Table s N a.items) {x y z c : Item}
    (hx : x ∈ a.items) (hz : z ∈ a.items) (hxz : x ≠ z) (hkids : a.kids x = [y] ++ [c])
    (hkids' : a.kids z = []) : ∃ s',
    Returns (fun fuel => addChildHashEntry fuel z.id y.id) s 0 s' ∧ Table s' N a.items ∧
      s'.childOf x.block = .entry c.block 0 ∧ s'.link.next c.brotherLink = y.brotherLink ∧
      s'.link.next y.brotherLink = y.brotherLink := by
  have hy := h.live x hx y (by simp [hkids])
  have hc := h.live x hx c (by simp [hkids])
  have hring : s.link.Ring c.brotherLink ([] ++ y.brotherLink :: []) := h.ring x hx _ _ hkids
  have hring' : s.link.Ring y.brotherLink [c.brotherLink] := hring.rotate
  have hnext : s.link.next y.brotherLink = c.brotherLink := hring'.next_eq
  have hold : s.link.next c.brotherLink = y.brotherLink := hring.next_eq
  have hne : c.brotherLink ≠ y.brotherLink := by
    intro heq
    exact (List.nodup_cons.1 hring.nodup).1 (heq ▸ List.mem_singleton_self _)
  have hhead : (if s.childOf z.block = .null then .entry y.block 2
      else (s.childOf z.block).plus 2) = y.brotherLink := by
    rw [h.child z hz, hkids']
    rfl
  refine ⟨s.adopt y.brotherLink z.block y.block, ⟨a.items.length + 1, fun fuel hfuel => ?_⟩,
    ?_, ?_, ?_, ?_⟩
  · exact ht.run_addChildHashEntry hz hy hhead (ht.isList_brother hy)
      (hnext ▸ ht.isList_brother hc) hfuel
  · refine ((ht.setLink fun p hp => ?_).withChild _ _).withParent _ _
    exact hring'.insertAfter_frame (by simp [hp y.block, hp c.block]) (hp y.block)
  · have hblock : x.block ≠ z.block := fun heq => hxz (ht.eq_of_block hx hz heq)
    rw [childOf_adopt (ht.isSome hz), if_neg hblock, h.child x hx, hkids, newest_concat]
  · show (s.link.insertAfter y.brotherLink y.brotherLink).next c.brotherLink = _
    simp only [Links.insertAfter, Function.update_of_ne hne, hold]
  · show (s.link.insertAfter y.brotherLink y.brotherLink).next y.brotherLink = _
    simp only [Links.insertAfter, Function.update_self]

theorem run_countLoop_stuck {head p : Ptr} (hp : s.IsList p) (hself : s.link.next p = p)
    (hne : p ≠ head) (fuel : ℕ) (n : ℤ) : (countLoop head fuel p n).run s = .error .fuel := by
  induction fuel generalizing n with
  | zero => rfl
  | succ fuel ih =>
      rw [countLoop, Exec.run_bind_of_ok (run_getFlink hp), hself, if_pos hne]
      exact ih _

/-- A count that is led away from the newest child does not end. -/
theorem Table.not_countRight {l : List Item} (ht : Table s N l) {x y c : Item} (hx : x ∈ l)
    (hy : y ∈ l) (hc : c ∈ l) (hcy : c ≠ y) (hchild : s.childOf x.block = .entry c.block 0)
    (hnext : s.link.next c.brotherLink = y.brotherLink)
    (hself : s.link.next y.brotherLink = y.brotherLink) : ¬ CountRight s l x := by
  refine not_returns_of_error (e := .fuel) (k := l.length + 1) (fun fuel hfuel => ?_) _ _
  obtain ⟨fuel, rfl⟩ : ∃ f, fuel = f + 1 := ⟨fuel - 1, by omega⟩
  obtain ⟨e, hload, hfield, -⟩ := ht.run_loadEntry hx
  have hne : y.brotherLink ≠ c.brotherLink :=
    fun heq => hcy (ht.eq_of_block hc hy (by simpa using heq.symm))
  have hplus : (Ptr.entry c.block 0).plus 2 = c.brotherLink := rfl
  unfold getChildHashEntryCount
  rw [Exec.run_bind_of_ok (ht.run_getZipperNode hx hfuel), if_neg (by simp),
    Exec.run_bind_of_ok hload]
  simp only [hfield, hchild, hplus]
  rw [if_neg (by simp), countLoop, Exec.run_bind_of_ok (run_getFlink (ht.isList_brother hc)),
    hnext, if_pos hne]
  exact run_countLoop_stuck (ht.isList_brother hy) hself hne fuel _

end Shared

/-- The child 1 of 0, which has the sibling 2, also becomes a child of 3, and counting the children
    of 0 does not end. -/
theorem shared_child_never_counted : ∃ s₀,
    Returns (fun fuel => createHashTable 64 fuel 1 true true) .none 0 s₀ ∧
      ¬ (kinMachine Growing).Safe s₀ fun s =>
        ∃ l, Table s 1 l ∧ ∀ x ∈ l, CountRight s l x := by
  obtain ⟨s₀, hcreate, h₀, hfree⟩ := exists_one_burket
  have hpromise : ∀ a id data size mem, Growing a (.table (.call (.insert id data size mem))) :=
    fun _ _ _ _ _ => trivial
  obtain ⟨s, h, -⟩ := exists_reaches_fresh hpromise h₀ hfree (show 4 < 2 ^ 31 by decide)
  obtain ⟨s, -, h⟩ := h.step (.addChild 0 1) trivial (by decide)
    (show (0 : UInt32) ∈ (fresh 4).map Item.id ∧ (1 : UInt32) ∈ (fresh 4).map Item.id by decide)
    (show AddsNew _ 0 1 by decide)
  obtain ⟨s, -, h⟩ := h.step (.addChild 0 2) trivial (by decide)
    (show (0 : UInt32) ∈ (fresh 4).map Item.id ∧ (2 : UInt32) ∈ (fresh 4).map Item.id by decide)
    (show AddsNew _ 0 2 by decide)
  have hx : (⟨0, 0, []⟩ : Item) ∈ fresh 4 := by decide
  have hy : (⟨1, 1, []⟩ : Item) ∈ fresh 4 := by decide
  have hc : (⟨2, 2, []⟩ : Item) ∈ fresh 4 := by decide
  have hz : (⟨3, 3, []⟩ : Item) ∈ fresh 4 := by decide
  have hkids : (clanSpec.next (clanSpec.next ⟨fresh 4, fun _ => []⟩ (.addChild 0 1))
      (.addChild 0 2)).kids ⟨0, 0, []⟩ = [⟨1, 1, []⟩] ++ [⟨2, 2, []⟩] := by decide
  obtain ⟨s', hret, htable, hchild, hnext, hself⟩ :=
    h.family.adopt_shared h.table hx hz (by decide) hkids (by decide)
  refine ⟨s₀, hcreate, h.not_safe (.addChild 3 1) trivial (by decide)
    (show (3 : UInt32) ∈ (fresh 4).map Item.id ∧ (1 : UInt32) ∈ (fresh 4).map Item.id by decide)
    (hret.map Answer.code) ?_⟩
  rintro ⟨l, hl, hcounts⟩
  obtain rfl := htable.unique hl
  exact htable.not_countRight hx hy hc (by decide) hchild hnext hself (hcounts _ hx)

end Wrong

end StructLib.Hash
