import Mathlib.Algebra.BigOperators.Fin
import Mathlib.Algebra.Field.ZMod

/-!
# Gray — the reflected binary code on words

The code of a word is the word with itself shifted by one bit added without carries.  Undoing such a
shift takes a doubling number of further ones (`unshift`).  The codes of consecutive numbers differ in one
bit, and which one it is can be read off the code: it is the lowest one, or the one above the lowest that is
set (`lowBit`).
-/

namespace Gray

variable {n : ℕ}

/-! ## Words and shifts -/

theorem xor_xor_cancel_middle (x y z : BitVec n) : (x ^^^ y) ^^^ (y ^^^ z) = x ^^^ z := by
  rw [BitVec.xor_assoc, ← BitVec.xor_assoc y y z, BitVec.xor_self, BitVec.zero_xor]

/-- Adding the shifted word twice is adding it shifted twice as far. -/
theorem xor_shift_twice (x : BitVec n) (d : ℕ) :
    (x ^^^ x >>> d) ^^^ (x ^^^ x >>> d) >>> d = x ^^^ x >>> (d * 2) := by
  rw [BitVec.ushiftRight_xor_distrib, xor_xor_cancel_middle, ← BitVec.shiftRight_add, Nat.mul_two]

/-- Shifts can be added in any order. -/
theorem xor_shift_comm (x : BitVec n) (d e : ℕ) :
    (x ^^^ x >>> d) ^^^ (x ^^^ x >>> d) >>> e = (x ^^^ x >>> e) ^^^ (x ^^^ x >>> e) >>> d := by
  have hshift : x >>> d >>> e = x >>> e >>> d := by
    rw [← BitVec.shiftRight_add, ← BitVec.shiftRight_add, Nat.add_comm]
  rw [BitVec.ushiftRight_xor_distrib, BitVec.ushiftRight_xor_distrib, hshift]
  ac_rfl

/-- The word with itself shifted by `d`, `2 * d`, `4 * d` and so on added, as long as that is less than
`total`. -/
def unshift (total : ℕ) : ℕ → ℕ → BitVec n → BitVec n
  | 0, _, x => x
  | fuel + 1, d, x => if d < total then unshift total fuel (d * 2) (x ^^^ x >>> d) else x

theorem unshift_shift {total fuel : ℕ} : ∀ {d : ℕ} {x : BitVec n}, x >>> total = 0#n →
    total ≤ d * 2 ^ fuel → unshift total fuel d (x ^^^ x >>> d) = x := by
  have hend : ∀ {d : ℕ} {x : BitVec n}, x >>> total = 0#n → total ≤ d → x ^^^ x >>> d = x := by
    intro d x hx hd
    rw [← Nat.add_sub_cancel' hd, BitVec.shiftRight_add, hx, BitVec.zero_ushiftRight, BitVec.xor_zero]
  induction fuel with
  | zero =>
      intro d x hx hd
      exact hend hx (by simpa using hd)
  | succ fuel ih =>
      intro d x hx hd
      rw [unshift]
      split
      · rw [xor_shift_twice]
        exact ih hx (hd.trans_eq (by rw [Nat.pow_succ, Nat.mul_comm (2 ^ fuel), Nat.mul_assoc]))
      · next hge => exact hend hx (Nat.not_lt.1 hge)

/-- What `unshift` does to a word it does to the word with a shift added. -/
theorem unshift_xor_shift {total fuel e : ℕ} : ∀ {d : ℕ} {x : BitVec n},
    unshift total fuel d (x ^^^ x >>> e) =
      unshift total fuel d x ^^^ unshift total fuel d x >>> e := by
  induction fuel with
  | zero =>
      intro d x
      rfl
  | succ fuel ih =>
      intro d x
      rw [unshift, unshift]
      split
      · rw [← ih, xor_shift_comm]
      · rfl

theorem shift_unshift {total fuel d : ℕ} {x : BitVec n} (hx : x >>> total = 0#n)
    (hd : total ≤ d * 2 ^ fuel) :
    unshift total fuel d x ^^^ unshift total fuel d x >>> d = x := by
  rw [← unshift_xor_shift, unshift_shift hx hd]

/-! ## The code -/

/-- The code of a word. -/
def encode (x : BitVec n) : BitVec n :=
  x ^^^ x >>> 1

/-- The word with a code. -/
def decode (x : BitVec n) : BitVec n :=
  unshift n n 1 x

theorem getLsbD_encode (x : BitVec n) (i : ℕ) :
    (encode x).getLsbD i = (x.getLsbD i ^^ x.getLsbD (i + 1)) := by
  rw [encode, BitVec.getLsbD_xor, BitVec.getLsbD_ushiftRight, Nat.add_comm 1 i]

@[simp] theorem decode_encode (x : BitVec n) : decode (encode x) = x :=
  unshift_shift (BitVec.ushiftRight_eq_zero le_rfl) (by simpa using Nat.lt_two_pow_self.le)

@[simp] theorem encode_decode (x : BitVec n) : encode (decode x) = x :=
  shift_unshift (BitVec.ushiftRight_eq_zero le_rfl) (by simpa using Nat.lt_two_pow_self.le)

theorem encode_xor (x y : BitVec n) : encode (x ^^^ y) = encode x ^^^ encode y := by
  rw [encode, encode, encode, BitVec.ushiftRight_xor_distrib]
  ac_rfl

@[simp] theorem encode_zero : encode (0#n) = 0#n := by
  rw [encode, BitVec.zero_ushiftRight, BitVec.xor_zero]

/-- Only the highest bit of the code of the largest number is set. -/
theorem encode_allOnes : encode (BitVec.allOnes n) = BitVec.twoPow n (n - 1) := by
  refine BitVec.eq_of_getLsbD_eq fun i hi => ?_
  rw [getLsbD_encode, BitVec.getLsbD_allOnes, BitVec.getLsbD_allOnes, BitVec.getLsbD_twoPow]
  by_cases hlast : i + 1 < n
  · simp [hi, hlast, show n - 1 ≠ i by omega]
  · simp [hi, hlast, show n - 1 = i by omega]

/-! ## Parity -/

/-- The sum of the bits. -/
def parity (x : BitVec n) : ZMod 2 :=
  ∑ i : Fin n, if x.getLsbD i then 1 else 0

theorem bit_xor (a b : Bool) :
    (if (a ^^ b) = true then (1 : ZMod 2) else 0) = (if a then 1 else 0) + if b then 1 else 0 := by
  cases a <;> cases b <;> decide

@[simp] theorem parity_xor (x y : BitVec n) : parity (x ^^^ y) = parity x + parity y := by
  rw [parity, parity, parity, ← Finset.sum_add_distrib]
  refine Finset.sum_congr rfl fun i _ => ?_
  rw [BitVec.getLsbD_xor, bit_xor]

@[simp] theorem parity_zero : parity (0#n) = 0 := by
  simp [parity]

theorem parity_twoPow {i : ℕ} (hi : i < n) : parity (BitVec.twoPow n i) = 1 := by
  rw [parity, Finset.sum_eq_single ⟨i, hi⟩]
  · rw [BitVec.getLsbD_twoPow]
    simp [hi]
  · intro j _ hj
    have hne : i ≠ j.val := fun h => hj (Fin.ext h.symm)
    rw [BitVec.getLsbD_twoPow]
    simp [hne]
  · simp

/-- The code of a number has as many bits, up to an even number, as the number is odd. -/
theorem parity_encode (x : BitVec n) : parity (encode x) = if x.getLsbD 0 then 1 else 0 := by
  have hbits : ∀ m, ∑ i ∈ Finset.range m, (if (encode x).getLsbD i then (1 : ZMod 2) else 0) =
      (if x.getLsbD 0 then 1 else 0) + if x.getLsbD m then 1 else 0 := by
    intro m
    induction m with
    | zero =>
        rw [Finset.sum_range_zero]
        cases x.getLsbD 0 <;> decide
    | succ m ih =>
        rw [Finset.sum_range_succ, ih, getLsbD_encode, bit_xor]
        cases x.getLsbD 0 <;> cases x.getLsbD m <;> cases x.getLsbD (m + 1) <;> decide
  rw [parity, Fin.sum_univ_eq_sum_range fun i => if (encode x).getLsbD i then (1 : ZMod 2) else 0,
    hbits, BitVec.getLsbD_of_ge x n le_rfl]
  simp

/-! ## Consecutive numbers -/

/-- `y` comes after `x`, and `t` is the highest bit in which they differ. -/
structure Follows (x y : BitVec n) (t : ℕ) : Prop where
  lt : t < n
  ones : ∀ j < t, x.getLsbD j = true
  clear : x.getLsbD t = false
  zeros : ∀ j < t, y.getLsbD j = false
  set : y.getLsbD t = true
  above : ∀ j, t < j → y.getLsbD j = x.getLsbD j

/-- Adding one clears the ones at the end and sets the bit above them. -/
theorem testBit_add_one (x : ℕ) : ∃ t, (∀ j < t, x.testBit j = true) ∧ x.testBit t = false ∧
    (∀ j < t, (x + 1).testBit j = false) ∧ (x + 1).testBit t = true ∧
    ∀ j, t < j → (x + 1).testBit j = x.testBit j := by
  induction x using Nat.strongRecOn with
  | ind x ih =>
      -- an odd number hands the one on to its half
      rcases Nat.mod_two_eq_zero_or_one x with heven | hodd
      · refine ⟨0, by simp, ?_, by simp, ?_, ?_⟩
        · simp [Nat.testBit_zero, heven]
        · rw [Nat.testBit_zero]
          simp only [decide_eq_true_eq]
          omega
        · intro j hj
          obtain ⟨j, rfl⟩ := Nat.exists_eq_succ_of_ne_zero (Nat.ne_of_gt hj)
          rw [Nat.testBit_succ, Nat.testBit_succ, show (x + 1) / 2 = x / 2 by omega]
      · obtain ⟨t, hones, hclear, hzeros, hset, habove⟩ := ih (x / 2) (by omega)
        have hhalf : (x + 1) / 2 = x / 2 + 1 := by omega
        refine ⟨t + 1, ?_, ?_, ?_, ?_, ?_⟩
        · intro j hj
          cases j with
          | zero => simp [Nat.testBit_zero, hodd]
          | succ j => exact (Nat.testBit_succ x j).trans (hones j (by omega))
        · exact (Nat.testBit_succ x t).trans hclear
        · intro j hj
          cases j with
          | zero =>
              rw [Nat.testBit_zero]
              simp only [decide_eq_false_iff_not]
              omega
          | succ j =>
              rw [Nat.testBit_succ, hhalf]
              exact hzeros j (by omega)
        · rw [Nat.testBit_succ, hhalf]
          exact hset
        · intro j hj
          obtain ⟨j, rfl⟩ := Nat.exists_eq_succ_of_ne_zero (by omega : j ≠ 0)
          rw [Nat.testBit_succ, Nat.testBit_succ, hhalf]
          exact habove j (by omega)

theorem exists_follows {x y : BitVec n} (h : y.toNat = x.toNat + 1) : ∃ t, Follows x y t := by
  obtain ⟨t, hones, hclear, hzeros, hset, habove⟩ := testBit_add_one x.toNat
  rw [← h] at hzeros hset habove
  refine ⟨t, ⟨?_, hones, hclear, hzeros, hset, habove⟩⟩
  by_contra hge
  exact Bool.false_ne_true ((BitVec.getLsbD_of_ge y t (Nat.not_lt.1 hge)).symm.trans hset)

/-- The codes of consecutive numbers differ in one bit. -/
theorem Follows.encode_xor_encode {x y : BitVec n} {t : ℕ} (h : Follows x y t) :
    encode x ^^^ encode y = BitVec.twoPow n t := by
  refine BitVec.eq_of_getLsbD_eq fun i hi => ?_
  rw [BitVec.getLsbD_xor, getLsbD_encode, getLsbD_encode, BitVec.getLsbD_twoPow]
  rcases Nat.lt_trichotomy i t with hlt | rfl | hgt
  · have hi1 : x.getLsbD (i + 1) = !y.getLsbD (i + 1) := by
      rcases Nat.lt_or_ge (i + 1) t with hlt' | hge
      · rw [h.ones _ hlt', h.zeros _ hlt', Bool.not_false]
      · rw [show i + 1 = t by omega, h.clear, h.set, Bool.not_true]
    rw [h.ones i hlt, h.zeros i hlt, hi1]
    simp [show t ≠ i by omega]
  · rw [h.clear, h.set, h.above (i + 1) (Nat.lt_succ_self i)]
    simp [h.lt]
  · rw [h.above i hgt, h.above (i + 1) (by omega)]
    simp [show t ≠ i by omega]

/-! ## The lowest bit -/

/-- The number of the lowest bit that is set, counted from one; zero if only the highest bit may be set. -/
def lowBit (r : BitVec n) : ℕ :=
  match (List.range (n - 1)).find? fun i => r.getLsbD i with
  | some i => i + 1
  | none => 0

theorem lowBit_eq_succ {r : BitVec n} {i : ℕ} (hi : i + 1 < n) (hset : r.getLsbD i = true)
    (hlow : ∀ j < i, r.getLsbD j = false) : lowBit r = i + 1 := by
  have hfind : ((List.range (n - 1)).find? fun i => r.getLsbD i) = some i := by
    rw [List.find?_range_eq_some]
    refine ⟨hset, List.mem_range.2 (by omega), fun j hj => ?_⟩
    simp [hlow j hj]
  rw [lowBit, hfind]

theorem lowBit_eq_zero {r : BitVec n} (hlow : ∀ j, j + 1 < n → r.getLsbD j = false) :
    lowBit r = 0 := by
  have hfind : ((List.range (n - 1)).find? fun i => r.getLsbD i) = none := by
    rw [List.find?_eq_none]
    intro j hj
    have hj := List.mem_range.1 hj
    simp [hlow j (by omega)]
  rw [lowBit, hfind]

@[simp] theorem lowBit_zero : lowBit (0#n) = 0 :=
  lowBit_eq_zero fun _ _ => BitVec.getLsbD_zero

@[simp] theorem lowBit_top : lowBit (BitVec.twoPow n (n - 1)) = 0 := by
  refine lowBit_eq_zero fun j hj => ?_
  rw [BitVec.getLsbD_twoPow]
  simp [show n - 1 ≠ j by omega]

/-- The code of an odd number and the next code differ in the bit above the lowest one of either, whatever
the highest bit is. -/
theorem Follows.lowBit_eq {x y : BitVec n} {t : ℕ} (h : Follows x y t) (hodd : x.getLsbD 0 = true)
    {c : BitVec n} (hc : ∀ j, j + 1 < n → c.getLsbD j = false) :
    lowBit (encode x ^^^ c) = t ∧ lowBit (encode y ^^^ c) = t := by
  obtain ⟨t, rfl⟩ : ∃ s, t = s + 1 := by
    refine Nat.exists_eq_succ_of_ne_zero fun ht => ?_
    have hclear := h.clear
    rw [ht, hodd] at hclear
    exact Bool.false_ne_true hclear.symm
  have hlt := h.lt
  constructor
  · refine lowBit_eq_succ hlt ?_ fun j hj => ?_
    · rw [BitVec.getLsbD_xor, getLsbD_encode, h.ones t (by omega), h.clear, hc t hlt]
      rfl
    · rw [BitVec.getLsbD_xor, getLsbD_encode, h.ones j (by omega), h.ones (j + 1) (by omega),
        hc j (by omega)]
      rfl
  · refine lowBit_eq_succ hlt ?_ fun j hj => ?_
    · rw [BitVec.getLsbD_xor, getLsbD_encode, h.zeros t (by omega), h.set, hc t hlt]
      rfl
    · rw [BitVec.getLsbD_xor, getLsbD_encode, h.zeros j (by omega), h.zeros (j + 1) (by omega),
        hc j (by omega)]
      rfl

end Gray
