import Mathlib.Order.Basic

/-!
# Least — the least of the candidates so far

A search keeps one candidate and replaces it when a smaller one comes by.  `LeastBy key C res` says that
`res` is a least candidate, or that there is none; the rules say how it goes on when a candidate is added.
-/

variable {α κ : Type*} [Preorder κ] {key : α → κ} {C C' : α → Prop}

/-- A candidate with the least key, or `none` without a candidate. -/
def LeastBy (key : α → κ) (C : α → Prop) : Option α → Prop
  | none => ∀ a, ¬ C a
  | some a => C a ∧ ∀ b, C b → key a ≤ key b

namespace LeastBy

theorem congr {res : Option α} (h : LeastBy key C res) (hiff : ∀ a, C a ↔ C' a) : LeastBy key C' res := by
  obtain rfl : C = C' := funext fun a => propext (hiff a)
  exact h

theorem none_iff {res : Option α} (h : LeastBy key C res) : res = none ↔ ∀ a, ¬ C a := by
  cases res with
  | none => exact ⟨fun _ => h, fun _ => rfl⟩
  | some a =>
      constructor
      · intro hres
        cases hres
      · intro hno
        exact absurd h.1 (hno a)

/-- A candidate below all others takes the place of the old one. -/
theorem replace {a : α} (hnew : C' a) (hsub : ∀ b, C' b → C b ∨ key a ≤ key b) {res : Option α}
    (h : LeastBy key C res) (hlt : ∀ old, res = some old → key a ≤ key old) :
    LeastBy key C' (some a) := by
  refine ⟨hnew, fun b hb => ?_⟩
  rcases hsub b hb with hb | hle
  · cases res with
    | none => exact absurd hb (h b)
    | some old => exact (hlt old rfl).trans (h.2 b hb)
  · exact hle

/-- The old one stays when the new candidates are not below it. -/
theorem keep {old : α} (h : LeastBy key C (some old)) (hold : ∀ b, C b → C' b)
    (hsub : ∀ b, C' b → C b ∨ key old ≤ key b) : LeastBy key C' (some old) := by
  refine ⟨hold old h.1, fun b hb => ?_⟩
  rcases hsub b hb with hb | hle
  · exact h.2 b hb
  · exact hle

end LeastBy
