import StructLib.Btree.Memory
import StructLib.Btree.Refine

set_option autoImplicit false

/-! # Iteration over a B+tree

A loop of `btree_last` and `btree_get_prev` comes by every entry once, the greatest key first, also
when its body removes the entries it has come by. -/

namespace StructLib.Btree

variable {w : ℕ} {geo : Geo} {bot : ℕ} {s : BtreeMem w} {as : List (BitVec w)}
  {es es₁ es₂ : List (ℕ × BitVec w)} {ks : List (List (BitVec w) × BitVec w)}

/-- The entries below a key that has none to its right. -/
theorem prevKey_head {k : ℕ} (h₁ : ∀ e ∈ es₁, k ≤ e.1) (h₂ : ∀ e ∈ es₂, e.1 < k) :
    prevKey k (es₁ ++ es₂) = es₂.head? := by
  cases es₂ with
  | nil =>
      rw [List.append_nil, prevKey_eq_none h₁]
      rfl
  | cons e es₂ => rw [prevKey_eq h₁ (h₂ e (by simp)), List.head?_cons]

/-- What the loop has kept of the entries that it has come by. -/
def kept (drop : List (BitVec w) → BitVec w → Bool) (ks : List (List (BitVec w) × BitVec w)) :
    List (ℕ × BitVec w) :=
  (ks.filter fun e => !drop e.1 e.2).map fun e => (wordsVal e.1, e.2)

/-- The body of the loop at an entry. -/
theorem Holding.exists_returns_dropEntry {k : List (BitVec w)} {v : BitVec w}
    (drop : List (BitVec w) → BitVec w → Bool)
    (h : Holding geo bot s as (es₁ ++ (wordsVal k, v) :: es₂)) (hlen : k.length = geo.keylen)
    (heven : geo.noPairs % 2 = 0) : ∃ s' as',
      Returns (fun fuel => dropEntry geo drop fuel k v) s () s' ∧ Moves as as' s s' ∧
      Holding geo bot s' as' ((es₁ ++ kept drop [(k, v)]) ++ es₂) := by
  by_cases hdrop : drop k v = true
  · have hmem : (wordsVal k, v) ∈ es₁ ++ (wordsVal k, v) :: es₂ := by simp
    obtain ⟨s', as', hret, hmoves, h'⟩ := h.exists_returns_remove hlen hmem (.inl heven)
    obtain ⟨h₁, h₂⟩ := h.within.around
    have hkept : kept drop [(k, v)] = [] := by simp [kept, hdrop]
    refine ⟨s', as', Returns.congr (fun fuel => ?_) (hret.map fun _ => ()), hmoves, ?_⟩
    · unfold dropEntry
      rw [if_pos hdrop]
    · rw [hkept, List.append_nil, ← eraseKey_eq h₁ h₂]
      exact h'
  · have hkept : kept drop [(k, v)] = [(wordsVal k, v)] := by simp [kept, hdrop]
    refine ⟨s, as, ⟨0, fun fuel _ => ?_⟩, (Writes.refl as s).moves, ?_⟩
    · unfold dropEntry
      dsimp only
      rw [if_neg hdrop]
      rfl
    · rw [hkept, List.append_assoc]
      exact h

/-- The rest of a loop that stands at the first one of the entries `es`, and has left `es₁` behind. -/
theorem Holding.exists_returns_forEachSafeLoop (drop : List (BitVec w) → BitVec w → Bool)
    (h : Holding geo bot s as (es₁ ++ es)) (hbot : 1 ≤ bot) (heven : geo.noPairs % 2 = 0)
    {key : Option (List (BitVec w))}
    (hkey : ∀ e, es.head? = some e → ∃ l, key = some l ∧ l.length = geo.keylen ∧ wordsVal l = e.1)
    (seen : List (List (BitVec w) × BitVec w)) : ∃ ks s' as', Spells geo ks es ∧
      Returns (fun fuel => forEachSafeLoop geo drop fuel ((es.head?.map (·.2)).getD 0) key seen) s
        (seen ++ ks) s' ∧
      Moves as as' s s' ∧ Holding geo bot s' as' (es₁ ++ kept drop ks) := by
  induction es generalizing s as es₁ key seen with
  | nil =>
      refine ⟨[], s, as, ⟨rfl, by simp⟩, Returns.of_succ ⟨0, fun fuel _ => ?_⟩,
        (Writes.refl as s).moves, h⟩
      unfold forEachSafeLoop
      dsimp only
      rw [List.head?_nil, Option.map_none, Option.getD_none, if_pos rfl, List.append_nil]
      rfl
  | cons e es ih =>
      obtain ⟨l, rfl, hlen, hl⟩ := hkey e rfl
      have hval : e.2 ≠ 0 := h.value_ne_zero e (by simp)
      have he : e = (wordsVal l, e.2) := by rw [hl]
      obtain ⟨h₁, h₂⟩ := (he ▸ h.within : Within _ _ (es₁ ++ (wordsVal l, e.2) :: es)).around
      obtain ⟨s₁, as₁, hbody, hmoves₁, hs₁⟩ := (he ▸ h :
        Holding geo bot s as (es₁ ++ (wordsVal l, e.2) :: es)).exists_returns_dropEntry drop hlen heven
      obtain ⟨r, hprev, hr⟩ := hs₁.exists_returns_btreeGetPrev hlen hbot
      have hkept : ∀ x ∈ es₁ ++ kept drop [(l, e.2)], wordsVal l ≤ x.1 := by
        intro x hx
        rcases List.mem_append.1 hx with hx | hx
        · exact (h₁ x hx).le
        · obtain ⟨y, hy, rfl⟩ := List.mem_map.1 hx
          rw [List.mem_singleton.1 (List.mem_of_mem_filter hy)]
      unfold IsPrev at hr
      rw [prevKey_head hkept h₂] at hr
      have hnext : r.1 = (es.head?.map (·.2)).getD 0 ∧
          ∀ x, es.head? = some x → ∃ l, r.2 = some l ∧ l.length = geo.keylen ∧ wordsVal l = x.1 := by
        rcases hr with ⟨hnone, rfl⟩ | ⟨x, l', hsome, rfl, hl', hx⟩
        · rw [hnone]
          exact ⟨rfl, by simp⟩
        · rw [hsome]
          refine ⟨rfl, ?_⟩
          rintro y ⟨⟩
          exact ⟨l', rfl, hl', hx⟩
      obtain ⟨ks, s', as', hks, hret, hmoves, h'⟩ := ih hs₁ hnext.2 (seen ++ [(l, e.2)])
      have hone : Spells geo [(l, e.2)] [e] := ⟨by rw [he]; rfl, by simpa using hlen⟩
      refine ⟨(l, e.2) :: ks, s', as', hone.append hks, ?_, hmoves₁.trans hmoves, ?_⟩
      · rw [List.append_assoc] at hret
        have hstep : Returns (fun fuel => dropEntry geo drop fuel l e.2 >>= fun _ =>
            btreeGetPrev geo fuel l >>= fun prev =>
              forEachSafeLoop geo drop fuel prev.1 prev.2 (seen ++ [(l, e.2)])) s
            (seen ++ (l, e.2) :: ks) s' := by
          refine hbody.bind (hprev.bind ?_)
          rw [hnext.1]
          exact hret
        refine Returns.of_succ (Returns.congr (fun fuel => ?_) hstep)
        conv_lhs => unfold forEachSafeLoop
        rw [List.head?_cons, Option.map_some, Option.getD_some, if_neg hval]
        rfl
      · rw [List.append_assoc] at h'
        have hcons : kept drop ((l, e.2) :: ks) = kept drop [(l, e.2)] ++ kept drop ks := by
          unfold kept
          rw [← List.map_append, ← List.filter_append]
          rfl
        rw [hcons]
        exact h'

/-- Where the body looks at the values only. -/
theorem kept_of_values (ks : List (List (BitVec w) × BitVec w)) (drop : BitVec w → Bool)
    (hks : Spells geo ks es) : kept (fun _ v => drop v) ks = es.filter fun e => !drop e.2 := by
  unfold kept
  rw [← hks.1, List.filter_map]
  rfl

end StructLib.Btree
