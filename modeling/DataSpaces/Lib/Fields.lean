import Mathlib.Algebra.BigOperators.Ring.Finset
import Mathlib.Data.Finset.Max

/-!
# Fields — words made of fields that do not overlap

The fields of a word have a common width and start at given places.  Numbers put into them can be added
without carries, and a word that marks the starts gives the mask of the fields with one subtraction.
-/

namespace Fields

/-- Fields of width `len` that start at the given places do not overlap and end below `total`. -/
structure Apart (starts : Finset ℕ) (len total : ℕ) : Prop where
  apart : ∀ a ∈ starts, ∀ b ∈ starts, a < b → a + len ≤ b
  below : ∀ a ∈ starts, a + len ≤ total

variable {starts : Finset ℕ} {len total : ℕ}

/-- A place is in one field only. -/
theorem Apart.unique (h : Apart starts len total) {a b x y : ℕ} (ha : a ∈ starts) (hb : b ∈ starts)
    (hx : x < len) (hy : y < len) (heq : a + x = b + y) : a = b ∧ x = y := by
  have hab : a = b := by
    rcases Nat.lt_trichotomy a b with hlt | rfl | hgt
    · have := h.apart a ha b hb hlt
      omega
    · rfl
    · have := h.apart b hb a ha hgt
      omega
  exact ⟨hab, by omega⟩

/-- The same number in every field. -/
theorem Apart.testBit_sum (h : Apart starts len total) {v : ℕ} (hv : v < 2 ^ len) (p : ℕ) :
    (∑ a ∈ starts, 2 ^ a * v).testBit p = true ↔
      ∃ a ∈ starts, ∃ i < len, p = a + i ∧ v.testBit i = true := by
  -- the fields below `e` add up to less than `2 ^ e`, so that nothing is carried
  have hlt : ∀ {starts : Finset ℕ}, Apart starts len total → ∀ {e : ℕ},
      (∀ a ∈ starts, a + len ≤ e) → ∑ a ∈ starts, 2 ^ a * v < 2 ^ e := by
    intro starts
    induction starts using Finset.induction_on_max with
    | empty =>
        intro _ e _
        rw [Finset.sum_empty]
        exact Nat.two_pow_pos e
    | insert b starts hmax ih =>
        intro h e hend
        have hb : b ∉ starts := fun hb => Nat.lt_irrefl b (hmax b hb)
        have hrest : ∑ a ∈ starts, 2 ^ a * v < 2 ^ b := by
          refine ih ⟨fun a ha c hc => ?_, fun a ha => ?_⟩ fun a ha => ?_
          · exact h.apart a (Finset.mem_insert_of_mem ha) c (Finset.mem_insert_of_mem hc)
          · exact h.below a (Finset.mem_insert_of_mem ha)
          · exact h.apart a (Finset.mem_insert_of_mem ha) b (Finset.mem_insert_self _ _) (hmax a ha)
        rw [Finset.sum_insert hb]
        calc 2 ^ b * v + ∑ a ∈ starts, 2 ^ a * v < 2 ^ b * v + 2 ^ b := Nat.add_lt_add_left hrest _
          _ = 2 ^ b * (v + 1) := rfl
          _ ≤ 2 ^ b * 2 ^ len := Nat.mul_le_mul_left _ hv
          _ = 2 ^ (b + len) := (Nat.pow_add 2 b len).symm
          _ ≤ 2 ^ e := Nat.pow_le_pow_right Nat.two_pos (hend b (Finset.mem_insert_self _ _))
  induction starts using Finset.induction_on_max with
  | empty => simp
  | insert b starts hmax ih =>
      have hb : b ∉ starts := fun hb => Nat.lt_irrefl b (hmax b hb)
      have hstarts : Apart starts len total := by
        refine ⟨fun a ha c hc => ?_, fun a ha => ?_⟩
        · exact h.apart a (Finset.mem_insert_of_mem ha) c (Finset.mem_insert_of_mem hc)
        · exact h.below a (Finset.mem_insert_of_mem ha)
      have hends : ∀ a ∈ starts, a + len ≤ b := fun a ha =>
        h.apart a (Finset.mem_insert_of_mem ha) b (Finset.mem_insert_self _ _) (hmax a ha)
      rw [Finset.sum_insert hb, Nat.testBit_two_pow_mul_add _ (hlt hstarts hends)]
      split
      · next hp =>
          refine (ih hstarts).trans
            ⟨fun ⟨a, ha, hrest⟩ => ⟨a, Finset.mem_insert_of_mem ha, hrest⟩, ?_⟩
          rintro ⟨a, ha, i, hi, rfl, hbit⟩
          rcases Finset.mem_insert.1 ha with rfl | ha
          · omega
          · exact ⟨a, ha, i, hi, rfl, hbit⟩
      · next hp =>
          constructor
          · intro hbit
            refine ⟨b, Finset.mem_insert_self _ _, p - b, ?_, by omega, hbit⟩
            by_contra hge
            rw [Nat.testBit_lt_two_pow (hv.trans_le (Nat.pow_le_pow_right Nat.two_pos (by omega)))] at hbit
            exact Bool.false_ne_true hbit
          · rintro ⟨a, ha, i, hi, rfl, hbit⟩
            rcases Finset.mem_insert.1 ha with rfl | ha
            · rwa [Nat.add_sub_cancel_left]
            · have := hends a ha
              omega

/-- A word that marks the starts of the fields, shifted by their width, less itself has the bits of the
fields. -/
theorem Apart.getLsbD_mask {w : ℕ} (h : Apart starts len w) (hlen : 0 < len) {ends : BitVec w}
    (hends : ∀ p, ends.getLsbD p = true ↔ p ∈ starts) (p : ℕ) :
    (ends <<< len - ends).getLsbD p = true ↔ ∃ a ∈ starts, ∃ i < len, p = a + i := by
  have hpow := Nat.two_pow_pos len
  have hone : ends.toNat = ∑ a ∈ starts, 2 ^ a * 1 := by
    refine Nat.eq_of_testBit_eq fun p => Bool.eq_iff_iff.2 ?_
    refine (hends p).trans ?_
    rw [h.testBit_sum (Nat.one_lt_two_pow (Nat.ne_of_gt hlen))]
    constructor
    · exact fun hp => ⟨p, hp, 0, hlen, rfl, rfl⟩
    · rintro ⟨a, ha, i, -, rfl, hbit⟩
      rw [Nat.testBit_one_eq_true_iff_self_eq_zero.1 hbit]
      exact ha
  -- a shift by the width is the ones of the fields and the marks again
  have hsum : ends <<< len = BitVec.ofNat w (∑ a ∈ starts, 2 ^ a * (2 ^ len - 1)) + ends := by
    refine BitVec.eq_of_toNat_eq ?_
    rw [BitVec.toNat_shiftLeft, BitVec.toNat_add, BitVec.toNat_ofNat, Nat.mod_add_mod, hone,
      ← Finset.sum_add_distrib, Nat.shiftLeft_eq, Finset.sum_mul]
    refine congrArg (· % 2 ^ w) (Finset.sum_congr rfl fun a _ => ?_)
    rw [← Nat.mul_add, Nat.sub_add_cancel hpow, Nat.mul_one]
  rw [hsum, BitVec.add_sub_cancel, BitVec.getLsbD_ofNat, Bool.and_eq_true, decide_eq_true_eq,
    h.testBit_sum (Nat.sub_lt hpow Nat.one_pos)]
  constructor
  · rintro ⟨-, a, ha, i, hi, rfl, -⟩
    exact ⟨a, ha, i, hi, rfl⟩
  · rintro ⟨a, ha, i, hi, rfl⟩
    have hbelow := h.below a ha
    refine ⟨by omega, a, ha, i, hi, rfl, ?_⟩
    rw [Nat.testBit_two_pow_sub_one]
    exact decide_eq_true hi

end Fields
