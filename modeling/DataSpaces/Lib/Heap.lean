import Mathlib.Data.Nat.Notation
import Mathlib.Logic.Function.Basic

/-!
# Heap — cells that belong to parties

Each party has at most one cell of a heap, at an address of its own, and knows what is in it (`Agrees`).  What a
party does to its cell does not concern the others, and an address that was given back can be used again.
-/

namespace Heap

variable {A R V : Type*}

/-- What the parties know of their cells is true, and no two have the same one. -/
structure Agrees (heap : A → Option V) (slots : R → Option (A × V)) : Prop where
  holds : ∀ r a v, slots r = some (a, v) → heap a = some v
  apart : ∀ r r' a v v', slots r = some (a, v) → slots r' = some (a, v') → r = r'

/-- From some address on there are no cells. -/
def Finite (heap : ℕ → Option V) : Prop :=
  ∃ bound, ∀ a, bound ≤ a → heap a = none

theorem Finite.update {heap : ℕ → Option V} (h : Finite heap) (a : ℕ) (v : Option V) :
    Finite (Function.update heap a v) := by
  rcases h with ⟨bound, hbound⟩
  refine ⟨max bound (a + 1), fun b hb => ?_⟩
  rw [Nat.max_le] at hb
  rw [Function.update_of_ne (Nat.ne_of_gt hb.2)]
  exact hbound b hb.1

/-- Two heaps have a free address in common. -/
theorem Finite.exists_free {W : Type*} {heap : ℕ → Option V} {heap' : ℕ → Option W} (h : Finite heap)
    (h' : Finite heap') : ∃ a, heap a = none ∧ heap' a = none := by
  rcases h with ⟨b, hb⟩
  rcases h' with ⟨b', hb'⟩
  exact ⟨max b b', hb _ (Nat.le_max_left b b'), hb' _ (Nat.le_max_right b b')⟩

variable {heap : A → Option V} {slots : R → Option (A × V)} {r : R} {a : A} {v v' : V}

theorem agrees_empty (h : ∀ r, slots r = none) : Agrees heap slots where
  holds r _ _ hr := nomatch (h r).symm.trans hr
  apart r _ _ _ _ hr := nomatch (h r).symm.trans hr

namespace Agrees

variable [DecidableEq R]

/-- A party that keeps its cell. -/
theorem keep (h : Agrees heap slots) {slot : Option (A × V)} (hr : slot = slots r) :
    Agrees heap (Function.update slots r slot) := by
  rw [hr, Function.update_eq_self]
  exact h

variable [DecidableEq A]

theorem write (h : Agrees heap slots) (hr : slots r = some (a, v)) :
    Agrees (Function.update heap a (some v')) (Function.update slots r (some (a, v'))) where
  holds s b w hs := by
    by_cases hsr : s = r
    · subst hsr
      rw [Function.update_self, Option.some.injEq, Prod.mk.injEq] at hs
      rw [← hs.1, ← hs.2, Function.update_self]
    · rw [Function.update_of_ne hsr] at hs
      have hab : b ≠ a := fun hab => hsr (h.apart s r a w v (hab ▸ hs) hr)
      rw [Function.update_of_ne hab]
      exact h.holds s b w hs
  apart s s' b w w' hs hs' := by
    have hcell : ∀ {t : R} {u : V}, Function.update slots r (some (a, v')) t = some (b, u) →
        ∃ u', slots t = some (b, u') := by
      intro t u ht
      by_cases htr : t = r
      · subst htr
        rw [Function.update_self, Option.some.injEq, Prod.mk.injEq] at ht
        exact ⟨v, ht.1 ▸ hr⟩
      · rw [Function.update_of_ne htr] at ht
        exact ⟨u, ht⟩
    rcases hcell hs with ⟨u, hu⟩
    rcases hcell hs' with ⟨u', hu'⟩
    exact h.apart s s' b u u' hu hu'

theorem make (h : Agrees heap slots) (ha : heap a = none) :
    Agrees (Function.update heap a (some v)) (Function.update slots r (some (a, v))) := by
  -- no other slot holds the new address
  have hfresh : ∀ t u, slots t ≠ some (a, u) := by
    intro t u ht
    have hlive := h.holds t a u ht
    rw [ha] at hlive
    cases hlive
  constructor
  · intro s b w hs
    by_cases hsr : s = r
    · subst hsr
      rw [Function.update_self, Option.some.injEq, Prod.mk.injEq] at hs
      rw [← hs.1, ← hs.2, Function.update_self]
    · rw [Function.update_of_ne hsr] at hs
      have hab : b ≠ a := fun hab => hfresh s w (hab ▸ hs)
      rw [Function.update_of_ne hab]
      exact h.holds s b w hs
  · intro s s' b w w' hs hs'
    by_cases hsr : s = r
    · by_cases hsr' : s' = r
      · rw [hsr, hsr']
      · subst hsr
        rw [Function.update_self, Option.some.injEq, Prod.mk.injEq] at hs
        rw [Function.update_of_ne hsr', ← hs.1] at hs'
        exact absurd hs' (hfresh s' w')
    · rw [Function.update_of_ne hsr] at hs
      by_cases hsr' : s' = r
      · subst hsr'
        rw [Function.update_self, Option.some.injEq, Prod.mk.injEq] at hs'
        rw [← hs'.1] at hs
        exact absurd hs (hfresh s w)
      · rw [Function.update_of_ne hsr'] at hs'
        exact h.apart s s' b w w' hs hs'

theorem free (h : Agrees heap slots) (hr : slots r = some (a, v)) :
    Agrees (Function.update heap a none) (Function.update slots r none) := by
  have hne : ∀ {s b w}, Function.update slots r none s = some (b, w) → s ≠ r ∧ slots s = some (b, w) := by
    intro s b w hs
    by_cases hsr : s = r
    · subst hsr
      rw [Function.update_self] at hs
      cases hs
    · rw [Function.update_of_ne hsr] at hs
      exact ⟨hsr, hs⟩
  constructor
  · intro s b w hs
    rcases hne hs with ⟨hsr, hs⟩
    have hab : b ≠ a := fun hab => hsr (h.apart s r a w v (hab ▸ hs) hr)
    rw [Function.update_of_ne hab]
    exact h.holds s b w hs
  · intro s s' b w w' hs hs'
    exact h.apart s s' b w w' (hne hs).2 (hne hs').2

end Agrees

end Heap
