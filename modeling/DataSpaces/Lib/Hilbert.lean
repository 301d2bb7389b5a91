import DataSpaces.Lib.Coder
import DataSpaces.Lib.Gray

/-!
# Hilbert — the Hilbert curve in any number of dimensions

A cell of a cube of side `2 ^ l` has a word of `n` bits for each of `l` levels: which of the `2 ^ n` parts
of the cube it is in, which part of that one, and so on.  The curve goes through the parts in the order of the
Gray code, after the words were reflected and rotated (`Pose`), and through each part in the same way.  How it
lies in a part depends on the part, so the curve is a coder from words to digits of the index.

In a cube the curve starts in one corner and ends in a neighbouring one.  It starts where the number of upper
bounds is even, so that it never ends in the lowest corner.
-/

namespace Hilbert

variable {n : ℕ}

/-! ## Rotations -/

theorem getLsbD_rotateRight (x : BitVec n) {r i : ℕ} (hr : r < n) (hi : i < n) :
    (x.rotateRight r).getLsbD i = x.getLsbD ((i + r) % n) := by
  rw [BitVec.getLsbD_rotateRight, Nat.mod_eq_of_lt hr]
  by_cases hwrap : i < n - r
  · rw [Nat.mod_eq_of_lt (by omega), Nat.add_comm i r]
    simp [hwrap]
  · rw [Nat.mod_eq_sub_mod (by omega), Nat.mod_eq_of_lt (by omega), show i + r - n = i - (n - r) by omega]
    simp [hwrap, hi]

theorem getLsbD_rotateLeft (x : BitVec n) {r i : ℕ} (hr : r < n) (hi : i < n) :
    (x.rotateLeft r).getLsbD ((i + r) % n) = x.getLsbD i := by
  have hlt : (i + r) % n < n := Nat.mod_lt _ (Nat.zero_lt_of_lt hr)
  rw [BitVec.getLsbD_rotateLeft, Nat.mod_eq_of_lt hr]
  by_cases hwrap : i + r < n
  · rw [Nat.mod_eq_of_lt hwrap, Nat.add_sub_cancel]
    simp [hwrap]
  · rw [Nat.mod_eq_sub_mod (by omega), Nat.mod_eq_of_lt (by omega), show n - r + (i + r - n) = i by omega]
    simp [show i + r - n < r by omega]

/-- Every bit is where a rotation moves some bit. -/
theorem exists_rotated {r j : ℕ} (hr : r < n) (hj : j < n) : ∃ i < n, (i + r) % n = j := by
  refine ⟨(j + (n - r)) % n, Nat.mod_lt _ (Nat.zero_lt_of_lt hr), ?_⟩
  rw [Nat.mod_add_mod, show j + (n - r) + r = j + n by omega, Nat.add_mod_right, Nat.mod_eq_of_lt hj]

theorem rotateLeft_rotateRight (x : BitVec n) {r : ℕ} (hr : r < n) :
    (x.rotateRight r).rotateLeft r = x := by
  refine BitVec.eq_of_getLsbD_eq fun j hj => ?_
  rcases exists_rotated hr hj with ⟨i, hi, rfl⟩
  rw [getLsbD_rotateLeft _ hr hi, getLsbD_rotateRight _ hr hi]

theorem rotateRight_rotateLeft (x : BitVec n) {r : ℕ} (hr : r < n) :
    (x.rotateLeft r).rotateRight r = x := by
  refine BitVec.eq_of_getLsbD_eq fun i hi => ?_
  rw [getLsbD_rotateRight _ hr hi, getLsbD_rotateLeft _ hr hi]

theorem rotateLeft_xor (x y : BitVec n) {r : ℕ} (hr : r < n) :
    (x ^^^ y).rotateLeft r = x.rotateLeft r ^^^ y.rotateLeft r := by
  refine BitVec.eq_of_getLsbD_eq fun j hj => ?_
  rcases exists_rotated hr hj with ⟨i, hi, rfl⟩
  rw [BitVec.getLsbD_xor, getLsbD_rotateLeft _ hr hi, getLsbD_rotateLeft _ hr hi,
    getLsbD_rotateLeft _ hr hi, BitVec.getLsbD_xor]

theorem rotateLeft_zero {r : ℕ} (hr : r < n) : (0#n).rotateLeft r = 0#n := by
  refine BitVec.eq_of_getLsbD_eq fun j hj => ?_
  rcases exists_rotated hr hj with ⟨i, hi, rfl⟩
  rw [getLsbD_rotateLeft _ hr hi, BitVec.getLsbD_zero, BitVec.getLsbD_zero]

theorem rotateLeft_twoPow {r i : ℕ} (hr : r < n) (hi : i < n) :
    (BitVec.twoPow n i).rotateLeft r = BitVec.twoPow n ((i + r) % n) := by
  refine BitVec.eq_of_getLsbD_eq fun j hj => ?_
  rcases exists_rotated hr hj with ⟨k, hk, rfl⟩
  have hlt : (i + r) % n < n := Nat.mod_lt _ (Nat.zero_lt_of_lt hr)
  rw [getLsbD_rotateLeft _ hr hk, BitVec.getLsbD_twoPow, BitVec.getLsbD_twoPow]
  have hiff : i = k ↔ (i + r) % n = (k + r) % n := by
    refine ⟨fun h => by rw [h], fun h => ?_⟩
    have hmod : i ≡ k [MOD n] := Nat.ModEq.add_right_cancel' r h
    rwa [Nat.ModEq, Nat.mod_eq_of_lt hi, Nat.mod_eq_of_lt hk] at hmod
  simp [hi, hlt, hiff]

theorem parity_rotateRight (x : BitVec n) {r : ℕ} (hr : r < n) :
    Gray.parity (x.rotateRight r) = Gray.parity x := by
  have : NeZero n := ⟨Nat.ne_of_gt (Nat.zero_lt_of_lt hr)⟩
  refine Finset.sum_equiv (Equiv.addRight (⟨r, hr⟩ : Fin n)) (by simp) fun i _ => ?_
  rw [getLsbD_rotateRight x hr i.isLt]
  rfl

/-! ## The curve -/

/-- How the curve lies in a cube.  Before rotation and reflection it starts in the lowest corner and goes
through the parts in the order of the code. -/
structure Pose (n : ℕ) where
  corner : BitVec n
  rotation : Fin n
  /-- The curve goes the other way round. -/
  reversed : Bool
  parity_corner : Gray.parity corner = if reversed then 1 else 0

namespace Pose

/-- All bits, when the curve is reversed. -/
def mask (s : Pose n) : BitVec n :=
  if s.reversed then BitVec.allOnes n else 0#n

/-- The part that a word names, before reflection and rotation. -/
def straight (s : Pose n) (w : BitVec n) : BitVec n :=
  (w ^^^ s.corner).rotateRight s.rotation

/-- The numbers of the parts. -/
def order (s : Pose n) : BitVec n ≃ Fin (2 ^ n) where
  toFun w := (Gray.decode (s.straight w) ^^^ s.mask).toFin
  invFun h := (Gray.encode (BitVec.ofFin h ^^^ s.mask)).rotateLeft s.rotation ^^^ s.corner
  left_inv w := by
    have hr := s.rotation.isLt
    simp only [BitVec.ofFin_toFin]
    rw [BitVec.xor_assoc, BitVec.xor_self, BitVec.xor_zero, Gray.encode_decode, straight,
      rotateLeft_rotateRight _ hr, BitVec.xor_assoc, BitVec.xor_self, BitVec.xor_zero]
  right_inv h := by
    have hr := s.rotation.isLt
    simp only [straight]
    rw [BitVec.xor_assoc _ s.corner, BitVec.xor_self, BitVec.xor_zero, rotateRight_rotateLeft _ hr,
      Gray.decode_encode, BitVec.xor_assoc, BitVec.xor_self, BitVec.xor_zero]

theorem straight_eq (s : Pose n) (w : BitVec n) :
    s.straight w = Gray.encode (BitVec.ofFin (s.order w) ^^^ s.mask) := by
  simp only [order, Equiv.coe_fn_mk, BitVec.ofFin_toFin]
  rw [BitVec.xor_assoc, BitVec.xor_self, BitVec.xor_zero, Gray.encode_decode]

theorem getLsbD_mask (s : Pose n) {i : ℕ} (hi : i < n) : s.mask.getLsbD i = s.reversed := by
  rw [mask]
  cases s.reversed
  · exact BitVec.getLsbD_zero
  · simp [hi]

/-- Whether the number of a part is odd. -/
def odd (s : Pose n) (w : BitVec n) : Bool :=
  (BitVec.ofFin (s.order w)).getLsbD 0

/-- The number of a part is odd when its name has an odd number of bits. -/
theorem parity_eq (s : Pose n) (w : BitVec n) : Gray.parity w = if s.odd w then 1 else 0 := by
  have hpos : 0 < n := Nat.zero_lt_of_lt s.rotation.isLt
  have hword : Gray.parity (s.straight w) = Gray.parity w + if s.reversed then 1 else 0 := by
    rw [straight, parity_rotateRight _ s.rotation.isLt, Gray.parity_xor, s.parity_corner]
  have hnumber : Gray.parity (s.straight w) =
      (if s.odd w then 1 else 0) + if s.reversed then 1 else 0 := by
    rw [straight_eq, Gray.parity_encode, BitVec.getLsbD_xor, s.getLsbD_mask hpos, Gray.bit_xor]
    rfl
  exact add_right_cancel (hword.symm.trans hnumber)

/-- How the curve lies in a part. -/
def next (s : Pose n) (w : BitVec n) : Pose n where
  corner := w ^^^ BitVec.twoPow n s.rotation
  rotation := ⟨(s.rotation + 1 + Gray.lowBit (s.straight w)) % n,
    Nat.mod_lt _ (Nat.zero_lt_of_lt s.rotation.isLt)⟩
  reversed := !s.odd w
  parity_corner := by
    rw [Gray.parity_xor, Gray.parity_twoPow s.rotation.isLt, s.parity_eq]
    cases s.odd w <;> decide

end Pose

/-- The curve, level by level. -/
def curve (n : ℕ) : Coder (Pose n) (BitVec n) (Fin (2 ^ n)) where
  out := Pose.order
  next := Pose.next

/-- How the curve lies in the whole cube. -/
def start (n : ℕ) [NeZero n] : Pose n where
  corner := 0#n
  rotation := 0
  reversed := false
  parity_corner := by rw [Gray.parity_zero, if_neg Bool.false_ne_true]

/-! ## Where the curve starts and ends -/

/-- The first and the last digit. -/
def zero (n : ℕ) : Fin (2 ^ n) :=
  (0#n).toFin

def top (n : ℕ) : Fin (2 ^ n) :=
  (BitVec.allOnes n).toFin

theorem val_zero (n : ℕ) : (zero n : ℕ) = 0 := by
  simp [zero]

theorem val_top (n : ℕ) : (top n : ℕ) + 1 = 2 ^ n := by
  have hpos := Nat.two_pow_pos n
  simp only [top, BitVec.val_toFin, BitVec.toNat_allOnes]
  omega

namespace Pose

/-- The corner in which the curve starts. -/
def first (s : Pose n) : BitVec n :=
  s.order.symm (zero n)

/-- The corner in which it ends. -/
def last (s : Pose n) : BitVec n :=
  s.order.symm (top n)

/-- The direction from the one to the other. -/
def direction (s : Pose n) : BitVec n :=
  BitVec.twoPow n ((s.rotation + (n - 1)) % n)

theorem rotateLeft_top (s : Pose n) :
    (BitVec.twoPow n (n - 1)).rotateLeft s.rotation = s.direction := by
  have hr := s.rotation.isLt
  rw [rotateLeft_twoPow hr (by omega), direction, Nat.add_comm]

theorem first_eq (s : Pose n) : s.first = (if s.reversed then s.direction else 0#n) ^^^ s.corner := by
  simp only [first, order, Equiv.coe_fn_symm_mk, zero, BitVec.ofFin_toFin, BitVec.zero_xor, mask]
  cases s.reversed
  · simp [rotateLeft_zero s.rotation.isLt]
  · simp [Gray.encode_allOnes, s.rotateLeft_top]

theorem last_eq (s : Pose n) : s.last = (if s.reversed then 0#n else s.direction) ^^^ s.corner := by
  simp only [last, order, Equiv.coe_fn_symm_mk, top, BitVec.ofFin_toFin, mask]
  cases s.reversed
  · simp [Gray.encode_allOnes, s.rotateLeft_top]
  · simp [rotateLeft_zero s.rotation.isLt]

theorem direction_next (s : Pose n) (w : BitVec n) :
    (s.next w).direction = BitVec.twoPow n ((s.rotation + Gray.lowBit (s.straight w)) % n) := by
  have hpos : 0 < n := Nat.zero_lt_of_lt s.rotation.isLt
  simp only [direction, next]
  rw [Nat.mod_add_mod, show (s.rotation : ℕ) + 1 + Gray.lowBit (s.straight w) + (n - 1) =
    s.rotation + Gray.lowBit (s.straight w) + n by omega, Nat.add_mod_right]

/-- The curve starts a part in the corner that the following words choose. -/
theorem first_next (s : Pose n) (w : BitVec n) : (s.next w).first =
    (if s.odd w then 0#n else BitVec.twoPow n ((s.rotation + Gray.lowBit (s.straight w)) % n)) ^^^
      (w ^^^ BitVec.twoPow n s.rotation) := by
  rw [first_eq, direction_next]
  cases hodd : s.odd w <;> simp [next, hodd]

theorem last_next (s : Pose n) (w : BitVec n) : (s.next w).last =
    (if s.odd w then BitVec.twoPow n ((s.rotation + Gray.lowBit (s.straight w)) % n) else 0#n) ^^^
      (w ^^^ BitVec.twoPow n s.rotation) := by
  rw [last_eq, direction_next]
  cases hodd : s.odd w <;> simp [next, hodd]

/-- The code of the mask has at most the highest bit. -/
theorem getLsbD_encode_mask (s : Pose n) {j : ℕ} (hj : j + 1 < n) :
    (Gray.encode s.mask).getLsbD j = false := by
  rw [Gray.getLsbD_encode, s.getLsbD_mask (by omega), s.getLsbD_mask hj, Bool.xor_self]

theorem lowBit_encode_mask (s : Pose n) : Gray.lowBit (Gray.encode s.mask) = 0 :=
  Gray.lowBit_eq_zero fun _ hj => s.getLsbD_encode_mask hj

theorem straight_symm (s : Pose n) (h : Fin (2 ^ n)) :
    s.straight (s.order.symm h) = Gray.encode (BitVec.ofFin h) ^^^ Gray.encode s.mask := by
  rw [straight_eq, Equiv.apply_symm_apply, Gray.encode_xor]

theorem lowBit_straight_first (s : Pose n) : Gray.lowBit (s.straight s.first) = 0 := by
  rw [first, straight_symm, zero, BitVec.ofFin_toFin, Gray.encode_zero, BitVec.zero_xor,
    lowBit_encode_mask]

theorem lowBit_straight_last (s : Pose n) : Gray.lowBit (s.straight s.last) = 0 := by
  refine Gray.lowBit_eq_zero fun j hj => ?_
  rw [last, straight_symm, top, BitVec.ofFin_toFin, Gray.encode_allOnes, BitVec.getLsbD_xor,
    s.getLsbD_encode_mask hj, BitVec.getLsbD_twoPow]
  simp [show n - 1 ≠ j by omega]

theorem odd_symm (s : Pose n) (h : Fin (2 ^ n)) : s.odd (s.order.symm h) = (BitVec.ofFin h).getLsbD 0 := by
  rw [odd, Equiv.apply_symm_apply]

/-- The first part of the first part is in the same corner, and so on. -/
theorem first_next_first (s : Pose n) : (s.next s.first).first = s.first := by
  have hodd : s.odd s.first = false := by
    rw [first, odd_symm, zero, BitVec.ofFin_toFin, BitVec.getLsbD_zero]
  rw [first_next, hodd, lowBit_straight_first, Nat.add_zero, Nat.mod_eq_of_lt s.rotation.isLt,
    if_neg Bool.false_ne_true, BitVec.xor_comm s.first, ← BitVec.xor_assoc, BitVec.xor_self,
    BitVec.zero_xor]

theorem last_next_last (s : Pose n) : (s.next s.last).last = s.last := by
  have hodd : s.odd s.last = true := by
    rw [last, odd_symm, top, BitVec.ofFin_toFin, BitVec.getLsbD_allOnes]
    exact decide_eq_true (Nat.zero_lt_of_lt s.rotation.isLt)
  rw [last_next, hodd, lowBit_straight_last, Nat.add_zero, Nat.mod_eq_of_lt s.rotation.isLt,
    if_pos rfl, BitVec.xor_comm s.last, ← BitVec.xor_assoc, BitVec.xor_self, BitVec.zero_xor]

/-- The curve ends where the number of upper bounds is odd. -/
theorem last_ne_zero (s : Pose n) : s.last ≠ 0#n := by
  intro hzero
  have hlt : (s.rotation + (n - 1)) % n < n := Nat.mod_lt _ (Nat.zero_lt_of_lt s.rotation.isLt)
  have hparity := congrArg Gray.parity hzero
  rw [last_eq, Gray.parity_xor, s.parity_corner, Gray.parity_zero] at hparity
  cases hrev : s.reversed with
  | false => simp [hrev, direction, Gray.parity_twoPow hlt] at hparity
  | true => simp [hrev] at hparity

end Pose

/-- The first cell of a cube has the word of its first corner on every level. -/
theorem decode_zeros (l : ℕ) : ∀ s : Pose n,
    (curve n).decode s (List.replicate l (zero n)) = List.replicate l s.first := by
  induction l with
  | zero => exact fun _ => rfl
  | succ l ih =>
      intro s
      have hrest : (s.next s.first).first = s.first := s.first_next_first
      rw [List.replicate_succ, Coder.decode, List.replicate_succ, ih]
      exact congrArg (fun c => s.first :: List.replicate l c) hrest

theorem decode_tops (l : ℕ) : ∀ s : Pose n,
    (curve n).decode s (List.replicate l (top n)) = List.replicate l s.last := by
  induction l with
  | zero => exact fun _ => rfl
  | succ l ih =>
      intro s
      have hrest : (s.next s.last).last = s.last := s.last_next_last
      rw [List.replicate_succ, Coder.decode, List.replicate_succ, ih]
      exact congrArg (fun c => s.last :: List.replicate l c) hrest

/-! ## Cells and their words -/

/-- The word of a cell on level `k`: bit `k` of every coordinate. -/
def word (n : ℕ) (x : ℕ → ℕ) (k : ℕ) : BitVec n :=
  BitVec.ofNat n (Nat.ofBits fun j : Fin n => (x j).testBit k)

/-- The words of a cell on its lowest `m` levels, the highest one first. -/
def words (n : ℕ) (x : ℕ → ℕ) : ℕ → List (BitVec n)
  | 0 => []
  | k + 1 => word n x k :: words n x k

/-- Coordinate `j` of the cell with the given words. -/
def coordinate (ws : List (BitVec n)) (j : ℕ) : ℕ :=
  Coder.number (ws.map fun w => if w.getLsbD j then (1 : Fin 2) else 0)

theorem getLsbD_word (x : ℕ → ℕ) (k : ℕ) {j : ℕ} (hj : j < n) :
    (word n x k).getLsbD j = (x j).testBit k := by
  rw [word, BitVec.getLsbD_ofNat, decide_eq_true hj, Bool.true_and, Nat.testBit_ofBits_lt _ j hj]

@[simp] theorem length_words (x : ℕ → ℕ) (m : ℕ) : (words n x m).length = m := by
  induction m with
  | zero => rfl
  | succ m ih => rw [words, List.length_cons, ih]

theorem words_congr {x y : ℕ → ℕ} {m : ℕ} (h : ∀ j < n, x j % 2 ^ m = y j % 2 ^ m) :
    words n x m = words n y m := by
  have hbits : ∀ j < n, ∀ k < m, (x j).testBit k = (y j).testBit k := by
    intro j hj k hk
    have hbit := congrArg (Nat.testBit · k) (h j hj)
    simpa [Nat.testBit_mod_two_pow, hk] using hbit
  clear h
  induction m with
  | zero => rfl
  | succ m ih =>
      rw [words, words, ih fun j hj k hk => hbits j hj k (Nat.lt_succ_of_lt hk)]
      refine congrArg (· :: _) (BitVec.eq_of_getLsbD_eq fun j hj => ?_)
      rw [getLsbD_word _ _ hj, getLsbD_word _ _ hj, hbits j hj m (Nat.lt_succ_self m)]

/-- The highest levels number the cubes, the lowest ones the cells in a cube. -/
theorem words_add (x : ℕ → ℕ) (l k : ℕ) :
    words n x (l + k) = words n (fun j => x j / 2 ^ l) k ++ words n x l := by
  induction k with
  | zero => rfl
  | succ k ih =>
      rw [← Nat.add_assoc, words, ih, words, List.cons_append]
      refine congrArg (· :: _) (BitVec.eq_of_getLsbD_eq fun j hj => ?_)
      rw [getLsbD_word _ _ hj, getLsbD_word _ _ hj, Nat.testBit_div_two_pow, Nat.add_comm]

theorem coordinate_cons (w : BitVec n) (ws : List (BitVec n)) (j : ℕ) :
    coordinate (w :: ws) j = (w.getLsbD j).toNat * 2 ^ ws.length + coordinate ws j := by
  rw [coordinate, List.map_cons, Coder.number_cons, List.length_map]
  cases w.getLsbD j <;> rfl

theorem coordinate_lt (ws : List (BitVec n)) (j : ℕ) : coordinate ws j < 2 ^ ws.length := by
  have hlt := Coder.number_lt (ws.map fun w => if w.getLsbD j then (1 : Fin 2) else 0)
  rwa [List.length_map] at hlt

theorem coordinate_words (x : ℕ → ℕ) (m : ℕ) {j : ℕ} (hj : j < n) :
    coordinate (words n x m) j = x j % 2 ^ m := by
  induction m with
  | zero => rw [Nat.pow_zero, Nat.mod_one]; rfl
  | succ m ih =>
      rw [words, coordinate_cons, ih, length_words, getLsbD_word _ _ hj, Nat.mod_pow_succ, Nat.mul_comm,
        Nat.add_comm, Nat.toNat_testBit]

theorem words_coordinate (ws : List (BitVec n)) : words n (coordinate ws) ws.length = ws := by
  induction ws with
  | nil => rfl
  | cons w ws ih =>
      have hlow : ∀ j, coordinate (w :: ws) j % 2 ^ ws.length = coordinate ws j % 2 ^ ws.length := by
        intro j
        rw [coordinate_cons, Nat.add_comm, Nat.add_mul_mod_self_right]
      rw [List.length_cons, words, words_congr fun j _ => hlow j, ih]
      refine congrArg (· :: _) (BitVec.eq_of_getLsbD_eq fun j hj => ?_)
      rw [getLsbD_word _ _ hj, coordinate_cons, Nat.add_comm, Nat.mul_comm]
      rw [Nat.testBit_eq_decide_div_mod_eq, Nat.add_mul_div_left _ _ (Nat.two_pow_pos _),
        Nat.div_eq_of_lt (coordinate_lt ws j)]
      cases w.getLsbD j <;> rfl

/-! ## Neighbours -/

/-- Consecutive parts lie side by side in one direction. -/
theorem Pose.symm_xor_symm (s : Pose n) {d e : Fin (2 ^ n)} {t : ℕ}
    (ht : Gray.Follows (BitVec.ofFin d) (BitVec.ofFin e) t) :
    s.order.symm d ^^^ s.order.symm e = BitVec.twoPow n ((t + s.rotation) % n) := by
  have hr := s.rotation.isLt
  have hword : ∀ w, (s.straight w).rotateLeft s.rotation = w ^^^ s.corner := fun w =>
    rotateLeft_rotateRight _ hr
  have hcode : s.straight (s.order.symm d) ^^^ s.straight (s.order.symm e) = BitVec.twoPow n t := by
    rw [straight_symm, straight_symm, BitVec.xor_comm (Gray.encode (BitVec.ofFin e)),
      Gray.xor_xor_cancel_middle, ht.encode_xor_encode]
  calc s.order.symm d ^^^ s.order.symm e
      = (s.order.symm d ^^^ s.corner) ^^^ (s.corner ^^^ s.order.symm e) :=
        (Gray.xor_xor_cancel_middle _ _ _).symm
    _ = (s.straight (s.order.symm d) ^^^ s.straight (s.order.symm e)).rotateLeft s.rotation := by
        rw [rotateLeft_xor _ _ hr, hword, hword, BitVec.xor_comm s.corner]
    _ = BitVec.twoPow n ((t + s.rotation) % n) := by rw [hcode, rotateLeft_twoPow hr ht.lt]

/-- The curve leaves a part in the corner next to the one in which it enters the following part: the two
corners differ in the direction in which the parts do, and each of them is on the side of the other part. -/
theorem Pose.crossing (s : Pose n) {d e : Fin (2 ^ n)} (hnext : (e : ℕ) = d + 1) :
    ∃ a < n, s.order.symm d ^^^ s.order.symm e = BitVec.twoPow n a ∧
      (s.next (s.order.symm d)).last ^^^ (s.next (s.order.symm e)).first = BitVec.twoPow n a ∧
      (s.next (s.order.symm d)).last.getLsbD a = (s.order.symm e).getLsbD a := by
  have hr := s.rotation.isLt
  have hpos : 0 < n := Nat.zero_lt_of_lt hr
  have hfollows : ∃ t, Gray.Follows (BitVec.ofFin d) (BitVec.ofFin e) t := Gray.exists_follows hnext
  rcases hfollows with ⟨t, ht⟩
  have hdiff := s.symm_xor_symm ht
  have hlt : (t + s.rotation) % n < n := Nat.mod_lt _ hpos
  have hside : (s.order.symm e).getLsbD ((t + s.rotation) % n) =
      !(s.order.symm d).getLsbD ((t + s.rotation) % n) := by
    have hbit := congrArg (fun w => w.getLsbD ((t + s.rotation) % n)) hdiff
    simp only [BitVec.getLsbD_xor, BitVec.getLsbD_twoPow, hlt, decide_true, Bool.and_self] at hbit
    cases hd : (s.order.symm d).getLsbD ((t + s.rotation) % n) <;>
      cases he : (s.order.symm e).getLsbD ((t + s.rotation) % n) <;> simp [hd, he] at hbit ⊢
  refine ⟨(t + s.rotation) % n, hlt, hdiff, ?_⟩
  rw [last_next, first_next, odd_symm, odd_symm]
  rcases Nat.eq_zero_or_pos t with rfl | htpos
  · -- an even part: the curve leaves it on the side that it was entered from
    rw [ht.clear, ht.set]
    simp only [Bool.false_eq_true, if_false, if_true, BitVec.zero_xor]
    rw [Nat.zero_add, Nat.mod_eq_of_lt hr] at hdiff hside ⊢
    refine ⟨?_, ?_⟩
    · rw [BitVec.xor_comm (s.order.symm e), Gray.xor_xor_cancel_middle, hdiff]
    · rw [BitVec.getLsbD_xor, hside, BitVec.getLsbD_twoPow]
      simp [hr]
  · -- an odd part: the corner is moved towards the next part
    have hbits := ht.lowBit_eq (ht.ones 0 htpos) fun j hj => s.getLsbD_encode_mask hj
    have hne : (s.rotation : ℕ) ≠ (t + s.rotation) % n := by
      intro heq
      have hmod : 0 + (s.rotation : ℕ) ≡ t + s.rotation [MOD n] := by
        rw [Nat.zero_add, Nat.ModEq, Nat.mod_eq_of_lt hr]
        exact heq
      have hzero : 0 ≡ t [MOD n] := Nat.ModEq.add_right_cancel' _ hmod
      rw [Nat.ModEq, Nat.zero_mod, Nat.mod_eq_of_lt ht.lt] at hzero
      exact Nat.ne_of_gt htpos hzero.symm
    rw [ht.ones 0 htpos, ht.zeros 0 htpos, straight_symm, straight_symm, hbits.1, hbits.2]
    simp only [Bool.false_eq_true, if_false, if_true]
    rw [Nat.add_comm (s.rotation : ℕ) t]
    refine ⟨?_, ?_⟩
    · rw [BitVec.xor_comm _ (s.order.symm d ^^^ _), Gray.xor_xor_cancel_middle,
        BitVec.xor_comm (s.order.symm e), Gray.xor_xor_cancel_middle, hdiff]
    · rw [BitVec.getLsbD_xor, BitVec.getLsbD_xor, hside, BitVec.getLsbD_twoPow, BitVec.getLsbD_twoPow]
      simp [hr, hlt, hne]

/-- Cells that are next to each other: they differ by one, in one coordinate. -/
def Neighbours (n : ℕ) (x y : ℕ → ℕ) : Prop :=
  ∃ a < n, (∀ j < n, j ≠ a → x j = y j) ∧ (y a = x a + 1 ∨ x a = y a + 1)

theorem Neighbours.congr {x y x' y' : ℕ → ℕ} (h : Neighbours n x y) (hx : ∀ j < n, x' j = x j)
    (hy : ∀ j < n, y' j = y j) : Neighbours n x' y' := by
  rcases h with ⟨a, ha, hsame, hstep⟩
  refine ⟨a, ha, fun j hj hne => ?_, ?_⟩
  · rw [hx j hj, hy j hj, hsame j hj hne]
  · rwa [hx a ha, hy a ha]

/-- Cells whose words agree on the highest levels, differ in direction `a` on the next one, and on the rest
have words of corners that differ in the same direction, each on the side of the other cell. -/
theorem neighbours_of_corners {q : List (BitVec n)} {w w' c c' : BitVec n} {a : ℕ} (ha : a < n)
    (hw : w ^^^ w' = BitVec.twoPow n a) (hc : c ^^^ c' = BitVec.twoPow n a)
    (hside : c.getLsbD a = w'.getLsbD a) (m : ℕ) :
    Neighbours n (coordinate (q ++ w :: List.replicate m c))
      (coordinate (q ++ w' :: List.replicate m c')) := by
  have hbit : ∀ {u v : BitVec n}, u ^^^ v = BitVec.twoPow n a → ∀ j < n,
      v.getLsbD j = (u.getLsbD j ^^ decide (a = j)) := by
    intro u v huv j _
    have hj := congrArg (fun w => w.getLsbD j) huv
    simp only [BitVec.getLsbD_xor, BitVec.getLsbD_twoPow, ha, decide_true, Bool.true_and] at hj
    rw [← hj, ← Bool.xor_assoc, Bool.xor_self, Bool.false_xor]
  refine ⟨a, ha, fun j hj hne => ?_, ?_⟩
  · -- in the other directions they have the same bits
    have hsame : decide (a = j) = false := decide_eq_false (Ne.symm hne)
    have hwj := hbit hw j hj
    have hcj := hbit hc j hj
    rw [hsame, Bool.xor_false] at hwj hcj
    simp only [coordinate, List.map_append, List.map_cons, List.map_replicate, hwj, hcj]
  · have hwa := hbit hw a ha
    have hca := hbit hc a ha
    rw [hside] at hca
    rw [decide_eq_true rfl, Bool.xor_true] at hwa hca
    have htop := Coder.number_replicate_top (rfl : ((1 : Fin 2) : ℕ) + 1 = 2) m
    have hzero := Coder.number_replicate_zero (rfl : ((0 : Fin 2) : ℕ) = 0) m
    simp only [coordinate, List.map_append, List.map_cons, List.map_replicate, Coder.number_append,
      Coder.number_cons, List.length_replicate, List.length_cons, hside, hwa, hca]
    cases w.getLsbD a
    · left
      simp [hzero, ← htop]
      omega
    · right
      simp [hzero, ← htop]
      omega

/-- Cells with consecutive indices are neighbours. -/
theorem neighbours_of_consecutive (s : Pose n) {hs hs' : List (Fin (2 ^ n))} (hlen : hs.length = hs'.length)
    (hnum : Coder.number hs' = Coder.number hs + 1) :
    Neighbours n (coordinate ((curve n).decode s hs)) (coordinate ((curve n).decode s hs')) := by
  rcases Coder.exists_carry (val_top n) (val_zero n) hlen hnum with ⟨p, d, e, m, hde, rfl, rfl⟩
  have hcross := ((curve n).after s ((curve n).decode s p)).crossing hde
  rcases hcross with ⟨a, ha, hw, hc, hside⟩
  rw [Coder.decode_append, Coder.decode_append, Coder.decode, Coder.decode]
  have hrest := decode_tops m (Pose.next ((curve n).after s ((curve n).decode s p))
    (((curve n).after s ((curve n).decode s p)).order.symm d))
  have hrest' := decode_zeros m (Pose.next ((curve n).after s ((curve n).decode s p))
    (((curve n).after s ((curve n).decode s p)).order.symm e))
  have hneighbours := neighbours_of_corners (q := (curve n).decode s p) ha hw hc hside m
  rw [← hrest, ← hrest'] at hneighbours
  exact hneighbours

end Hilbert
