import Mathlib.Algebra.BigOperators.Fin
import Mathlib.Algebra.Order.BigOperators.Ring.Finset
import Mathlib.Tactic.Ring

/-!
# Radix — numbers with a base of their own for every digit

Digit `i` counts multiples of the product of the bases below it.  Nested loops that walk an array of
several dimensions compute such a number from the highest digit down (`horner`); what has been
computed on the way says in which block of consecutive numbers the result will be (`horner_div`).
-/

namespace Radix

/-- What one unit of digit `k` is worth. -/
def weight (base : ℕ → ℕ) (k : ℕ) : ℕ :=
  ∏ i ∈ Finset.range k, base i

/-- The number with the given lowest `n` digits. -/
def value (base digit : ℕ → ℕ) (n : ℕ) : ℕ :=
  ∑ i ∈ Finset.range n, digit i * weight base i

/-- The number from digit `k` down, when the digits above it make up `top`. -/
def horner (base digit : ℕ → ℕ) : ℕ → ℕ → ℕ
  | 0, top => top + digit 0
  | k + 1, top => horner base digit k ((top + digit (k + 1)) * base k)

variable {base digit digit' : ℕ → ℕ}

@[simp] theorem weight_zero : weight base 0 = 1 := Finset.prod_range_zero _

theorem weight_succ (base : ℕ → ℕ) (k : ℕ) : weight base (k + 1) = weight base k * base k :=
  Finset.prod_range_succ _ _

theorem weight_pos {k : ℕ} (h : ∀ i < k, 0 < base i) : 0 < weight base k :=
  Finset.prod_pos fun i hi => h i (Finset.mem_range.1 hi)

theorem weight_congr {base' : ℕ → ℕ} {k : ℕ} (h : ∀ i < k, base i = base' i) :
    weight base k = weight base' k :=
  Finset.prod_congr rfl fun i hi => h i (Finset.mem_range.1 hi)

theorem value_congr {base' : ℕ → ℕ} {n : ℕ} (hbase : ∀ i < n, base i = base' i)
    (hdigit : ∀ i < n, digit i = digit' i) : value base digit n = value base' digit' n := by
  refine Finset.sum_congr rfl fun i hi => ?_
  have hi' := Finset.mem_range.1 hi
  rw [hdigit i hi', weight_congr fun k hk => hbase k (hk.trans hi')]

/-- It is the number that `finPiFinEquiv` gives the digits. -/
theorem value_eq_finPiFinEquiv {n : ℕ} (h : ∀ i < n, digit i < base i) :
    value base digit n = (finPiFinEquiv (n := fun i : Fin n => base i)
      fun i => ⟨digit i, h i i.isLt⟩ : ℕ) := by
  rw [finPiFinEquiv_apply, value, Finset.sum_range]
  refine Finset.sum_congr rfl fun i _ => ?_
  rw [weight, Finset.prod_range]
  rfl

theorem value_lt {n : ℕ} (h : ∀ i < n, digit i < base i) : value base digit n < weight base n := by
  rw [value_eq_finPiFinEquiv h, weight, Finset.prod_range]
  exact Fin.isLt _

/-- The largest number is one below the weight of a further digit. -/
theorem value_top (n : ℕ) (h : ∀ i < n, 0 < base i) :
    value base (fun i => base i - 1) n + 1 = weight base n := by
  induction n with
  | zero => rfl
  | succ n ih =>
      have hsplit : value base (fun i => base i - 1) (n + 1) =
          value base (fun i => base i - 1) n + (base n - 1) * weight base n :=
        Finset.sum_range_succ _ _
      have ih := ih fun i hi => h i (Nat.lt_succ_of_lt hi)
      obtain ⟨m, hm⟩ := Nat.exists_eq_add_of_lt (h n (Nat.lt_succ_self n))
      rw [hsplit, weight_succ, hm, ← ih]
      simp only [Nat.zero_add, Nat.add_sub_cancel]
      ring

/-- The digits are determined by the number. -/
theorem digit_eq_of_value_eq {n : ℕ} (h : ∀ i < n, digit i < base i) (h' : ∀ i < n, digit' i < base i)
    (heq : value base digit n = value base digit' n) : ∀ i < n, digit i = digit' i := by
  rw [value_eq_finPiFinEquiv h, value_eq_finPiFinEquiv h'] at heq
  have hfun := finPiFinEquiv.injective (Fin.val_injective heq)
  intro i hi
  exact congrArg Fin.val (congrFun hfun ⟨i, hi⟩)

theorem horner_eq (k : ℕ) :
    ∀ top, horner base digit k top = top * weight base k + value base digit (k + 1) := by
  induction k with
  | zero =>
      intro top
      simp [horner, value]
  | succ k ih =>
      intro top
      have hsplit : value base digit (k + 1 + 1) =
          value base digit (k + 1) + digit (k + 1) * weight base (k + 1) :=
        Finset.sum_range_succ _ _
      rw [horner, ih, hsplit, weight_succ]
      ring

/-- Only the digits up to `k` matter. -/
theorem horner_congr (k : ℕ) (h : ∀ i ≤ k, digit i = digit' i) (top : ℕ) :
    horner base digit k top = horner base digit' k top := by
  rw [horner_eq, horner_eq, value_congr (fun _ _ => rfl) fun i hi => h i (Nat.lt_succ_iff.1 hi)]

/-- Numbers that agree above digit `k` are in one block of `weight base (k + 1)` numbers, and other
blocks have other numbers. -/
theorem horner_div {k : ℕ} (h : ∀ i ≤ k, digit i < base i) (m : ℕ) :
    horner base digit k (m * base k) / weight base (k + 1) = m := by
  have hlt : value base digit (k + 1) < weight base (k + 1) :=
    value_lt fun i hi => h i (Nat.lt_succ_iff.1 hi)
  have hnum : horner base digit k (m * base k) = value base digit (k + 1) + m * weight base (k + 1) := by
    rw [horner_eq, weight_succ]
    ring
  rw [hnum, Nat.add_mul_div_right _ _ (Nat.zero_lt_of_lt hlt), Nat.div_eq_of_lt hlt, Nat.zero_add]

/-- When the block that starts at `top` ends below a bound, so does the block of every digit in it. -/
theorem room_step {k top x bound : ℕ} (hx : x < base (k + 1))
    (hroom : (top + base (k + 1)) * weight base (k + 1) ≤ bound) :
    ((top + x) * base k + base k) * weight base k ≤ bound := by
  calc ((top + x) * base k + base k) * weight base k
      = (top + x + 1) * weight base (k + 1) := by rw [weight_succ]; ring
    _ ≤ (top + base (k + 1)) * weight base (k + 1) := Nat.mul_le_mul_right _ (by omega)
    _ ≤ bound := hroom

end Radix
