import DataSpaces.Lib.Hilbert
import DataSpaces.Transpose

/-!
# Levels — the words of the levels in a machine word

After the transposition the bits of one level of all coordinates are next to each other.  The loops of
`hilbert_c2i` and `hilbert_i2c` take the word of one level after the other out of a machine word, and push what
they make of it into another one.  What they do to a word is what the curve does to it: the rotation that they
carry is the one of the pose, and `flipBit` is its corner less the word of the level above.
-/

namespace DataSpaces

variable {n : ℕ}

/-! ## Words of levels -/

/-- Level `k` of a machine word. -/
def level (n : ℕ) (x : Bitmask) (k : ℕ) : BitVec n :=
  (x >>> (n * k)).setWidth n

/-- The lowest `k` levels, the highest one first. -/
def levels (n : ℕ) (x : Bitmask) : ℕ → List (BitVec n)
  | 0 => []
  | k + 1 => level n x k :: levels n x k

/-- A further level below the others. -/
def push (n : ℕ) (acc : Bitmask) (w : BitVec n) : Bitmask :=
  acc <<< n ||| w.setWidth 64

/-- The machine word with the given levels, the highest one first. -/
def pack (n : ℕ) : List (BitVec n) → Bitmask
  | [] => 0
  | w :: ws => w.setWidth 64 <<< (n * ws.length) ||| pack n ws

@[simp] theorem length_levels (x : Bitmask) (k : ℕ) : (levels n x k).length = k := by
  induction k with
  | zero => rfl
  | succ k ih => rw [levels, List.length_cons, ih]

theorem getLsbD_level (x : Bitmask) {k i : ℕ} (hi : i < n) :
    (level n x k).getLsbD i = x.getLsbD (n * k + i) := by
  rw [level, BitVec.getLsbD_setWidth, decide_eq_true hi, Bool.true_and, BitVec.getLsbD_ushiftRight]

theorem level_xor (x y : Bitmask) (k : ℕ) : level n (x ^^^ y) k = level n x k ^^^ level n y k := by
  rw [level, BitVec.ushiftRight_xor_distrib, BitVec.setWidth_xor]
  rfl

/-- Shifting by the bits of a level takes every level to the one below it. -/
theorem level_shiftRight (x : Bitmask) (k : ℕ) : level n (x >>> n) k = level n x (k + 1) := by
  rw [level, ← BitVec.shiftRight_add, Nat.add_comm, ← Nat.mul_succ]
  rfl

theorem levels_congr {x y : Bitmask} {k : ℕ} (h : ∀ j < k, level n x j = level n y j) :
    levels n x k = levels n y k := by
  induction k with
  | zero => rfl
  | succ k ih => rw [levels, levels, h k (Nat.lt_succ_self k), ih fun j hj => h j (by omega)]

theorem getLsbD_pack_cons {w : BitVec n} {ws : List (BitVec n)} (p : ℕ) :
    (pack n (w :: ws)).getLsbD p =
      (decide (p < 64) && !decide (p < n * ws.length) && w.getLsbD (p - n * ws.length) ||
        (pack n ws).getLsbD p) := by
  rw [pack, BitVec.getLsbD_or, BitVec.getLsbD_shiftLeft, BitVec.getLsbD_setWidth]
  by_cases hp : p < 64
  · have hp' : p - n * ws.length < 64 := by omega
    simp [hp']
  · simp [hp]

theorem getLsbD_pack_of_ge {ws : List (BitVec n)} : ∀ {p : ℕ}, n * ws.length ≤ p →
    (pack n ws).getLsbD p = false := by
  induction ws with
  | nil => exact fun _ => BitVec.getLsbD_zero
  | cons w ws ih =>
      intro p hp
      rw [List.length_cons, Nat.mul_succ] at hp
      rw [getLsbD_pack_cons, ih (by omega), BitVec.getLsbD_of_ge w _ (by omega)]
      simp

/-- The lowest levels of a word make up its lowest bits. -/
theorem getLsbD_pack_levels (x : Bitmask) {k : ℕ} (p : ℕ) :
    (pack n (levels n x k)).getLsbD p = (decide (p < n * k) && x.getLsbD p) := by
  induction k with
  | zero =>
      rw [levels, pack, BitVec.ofNat_eq_ofNat, BitVec.getLsbD_zero]
      simp
  | succ k ih =>
      rw [levels, getLsbD_pack_cons, ih, length_levels, Nat.mul_succ]
      rcases Nat.lt_or_ge p (n * k) with hlt | hge
      · simp [hlt, show p < n * k + n by omega]
      · rcases Nat.lt_or_ge p (n * k + n) with hlt | hge'
        · rw [getLsbD_level x (by omega), show n * k + (p - n * k) = p by omega]
          by_cases hp : p < 64
          · simp [Nat.not_lt.2 hge, hlt, hp]
          · simp [BitVec.getLsbD_of_ge x p (by omega)]
        · rw [BitVec.getLsbD_of_ge (level n x k) _ (by omega)]
          simp [Nat.not_lt.2 hge, Nat.not_lt.2 hge']

theorem pack_levels {x : Bitmask} {k : ℕ} (hx : ∀ p, n * k ≤ p → x.getLsbD p = false) :
    pack n (levels n x k) = x := by
  refine BitVec.eq_of_getLsbD_eq fun p _ => ?_
  rw [getLsbD_pack_levels]
  rcases Nat.lt_or_ge p (n * k) with hlt | hge
  · simp [hlt]
  · simp [hx p hge]

theorem levels_pack {ws : List (BitVec n)} (hws : n * ws.length ≤ 64) :
    levels n (pack n ws) ws.length = ws := by
  induction ws with
  | nil => rfl
  | cons w ws ih =>
      rw [List.length_cons, Nat.mul_succ] at hws
      have hbelow : ∀ j < ws.length, level n (pack n (w :: ws)) j = level n (pack n ws) j := by
        intro j hj
        refine BitVec.eq_of_getLsbD_eq fun i hi => ?_
        have hmul := Nat.mul_le_mul_left n hj
        rw [Nat.mul_succ] at hmul
        rw [getLsbD_level _ hi, getLsbD_level _ hi, getLsbD_pack_cons]
        simp [show n * j + i < n * ws.length by omega]
      have htop : level n (pack n (w :: ws)) ws.length = w := by
        refine BitVec.eq_of_getLsbD_eq fun i hi => ?_
        rw [getLsbD_level _ hi, getLsbD_pack_cons, getLsbD_pack_of_ge (Nat.le_add_right _ _),
          Nat.add_sub_cancel_left]
        simp [show n * ws.length + i < 64 by omega]
      rw [List.length_cons, levels, htop, levels_congr hbelow, ih (by omega)]

/-- A machine word is the number of which its levels are the digits. -/
theorem toNat_pack {ws : List (BitVec n)} (hws : n * ws.length ≤ 64) :
    (pack n ws).toNat = Coder.number (ws.map BitVec.toFin) := by
  induction ws with
  | nil => rfl
  | cons w ws ih =>
      rw [List.length_cons, Nat.mul_succ] at hws
      have hlt : Coder.number (ws.map BitVec.toFin) < 2 ^ (n * ws.length) := by
        have := Coder.number_lt (ws.map BitVec.toFin)
        rwa [List.length_map, ← Nat.pow_mul] at this
      refine Nat.eq_of_testBit_eq fun p => ?_
      rw [List.map_cons, Coder.number_cons, List.length_map, ← Nat.pow_mul, BitVec.val_toFin, Nat.mul_comm,
        Nat.testBit_two_pow_mul_add _ hlt, ← ih (by omega), BitVec.testBit_toNat, getLsbD_pack_cons]
      split
      · next hp => simp [hp, BitVec.testBit_toNat]
      · next hp =>
          rw [getLsbD_pack_of_ge (Nat.not_lt.1 hp), BitVec.testBit_toNat]
          by_cases hp64 : p < 64
          · simp [hp, hp64]
          · rw [BitVec.getLsbD_of_ge w _ (by omega)]
            simp

/-- Pushing words one after the other. -/
theorem foldl_push (ws : List (BitVec n)) :
    ∀ acc : Bitmask, ws.foldl (push n) acc = acc <<< (n * ws.length) ||| pack n ws := by
  induction ws with
  | nil =>
      intro acc
      simp [pack]
  | cons w ws ih =>
      intro acc
      rw [List.foldl_cons, ih, push, pack, BitVec.shiftLeft_or_distrib, ← BitVec.shiftLeft_add,
        List.length_cons, Nat.mul_succ, Nat.add_comm n, BitVec.or_assoc]

theorem foldl_push_zero (ws : List (BitVec n)) : ws.foldl (push n) 0 = pack n ws := by
  rw [foldl_push, BitVec.ofNat_eq_ofNat, BitVec.zero_shiftLeft, BitVec.zero_or]

/-! ## Operations on one word -/

section Word

variable {r : ℕ}

theorem rotateRight_eq (hn : n ≤ 32) (hr : r < n) (x : BitVec n) :
    (rotateRight (x.setWidth 32) r n).setWidth 32 = (x.rotateRight r).setWidth 32 := by
  refine BitVec.eq_of_getLsbD_eq fun i hi => ?_
  simp only [rotateRight, BitVec.getLsbD_setWidth, BitVec.getLsbD_and, BitVec.getLsbD_or,
    BitVec.getLsbD_ushiftRight, BitVec.getLsbD_shiftLeft,
    getLsbD_ones (show 1 < 64 by decide) (Nat.zero_lt_of_lt hr) (hn.trans (by decide)), hi, decide_true,
    Bool.true_and]
  by_cases hin : i < n
  · rw [Hilbert.getLsbD_rotateRight x hr hin]
    by_cases hwrap : i + r < n
    · rw [Nat.mod_eq_of_lt hwrap, Nat.add_comm r i]
      simp [hin, show i < n - r by omega, show i < 64 by omega, show i + r < 32 by omega]
    · rw [Nat.mod_eq_sub_mod (by omega), Nat.mod_eq_of_lt (by omega), BitVec.getLsbD_of_ge x (r + i) (by omega),
        show i - (n - r) = i + r - n by omega]
      simp [hin, show ¬i < n - r by omega, show i < 64 by omega, show i + r - n < 32 by omega]
  · rw [BitVec.getLsbD_of_ge (x.rotateRight r) i (by omega)]
    simp [hin]

theorem rotateLeft_eq (hn : n ≤ 32) (hr : r < n) (x : BitVec n) :
    rotateLeft (x.setWidth 32) r n = (x.rotateLeft r).setWidth 64 := by
  refine BitVec.eq_of_getLsbD_eq fun i hi => ?_
  simp only [rotateLeft, BitVec.getLsbD_setWidth, BitVec.getLsbD_and, BitVec.getLsbD_or,
    BitVec.getLsbD_ushiftRight, BitVec.getLsbD_shiftLeft, BitVec.getLsbD_rotateLeft, Nat.mod_eq_of_lt hr,
    getLsbD_ones (show 1 < 64 by decide) (Nat.zero_lt_of_lt hr) (hn.trans (by decide)), hi, decide_true,
    Bool.true_and]
  by_cases hin : i < n
  · by_cases hwrap : i < r
    · simp [hin, hwrap, show n - r + i < 32 by omega]
    · rw [BitVec.getLsbD_of_ge x (n - r + i) (by omega)]
      simp [hin, hwrap, show i < 32 by omega, show i - r < 32 by omega]
  · by_cases hwrap : i < r
    · omega
    · simp [hin, hwrap]

theorem shiftOut_twoPow {i : ℕ} : ∀ {fuel rotation : ℕ}, i < 32 → i < fuel →
    shiftOut fuel (BitVec.twoPow 32 i) rotation = rotation + i + 1 := by
  have hzero : ∀ fuel rotation, shiftOut fuel 0 rotation = rotation := by
    intro fuel rotation
    cases fuel <;> rfl
  have hne : ∀ {i}, i < 32 → BitVec.twoPow 32 i ≠ 0 := by
    intro i hi h
    have hbit := congrArg (fun w => w.getLsbD i) h
    simp [hi] at hbit
  induction i with
  | zero =>
      intro fuel rotation _ hfuel
      obtain ⟨fuel, rfl⟩ := Nat.exists_eq_succ_of_ne_zero (Nat.ne_of_gt hfuel)
      rw [shiftOut, if_neg (hne (by decide)), show BitVec.twoPow 32 0 >>> 1 = 0 by decide, hzero]
  | succ i ih =>
      intro fuel rotation hi hfuel
      obtain ⟨fuel, rfl⟩ := Nat.exists_eq_succ_of_ne_zero (Nat.ne_of_gt (Nat.zero_lt_of_lt hfuel))
      have hshift : BitVec.twoPow 32 (i + 1) >>> 1 = BitVec.twoPow 32 i := by
        refine BitVec.eq_of_getLsbD_eq fun j _ => ?_
        rw [BitVec.getLsbD_ushiftRight, BitVec.getLsbD_twoPow, BitVec.getLsbD_twoPow]
        simp [hi, show i < 32 by omega, Nat.add_comm 1 j]
      rw [shiftOut, if_neg (hne hi), hshift, ih (by omega) (by omega)]
      omega

/-- `bits &= -bits & nd1Ones` leaves the lowest bit, unless it is the highest one of the word. -/
theorem getLsbD_lowest (hn : n ≤ 32) (hpos : 0 < n) (x : BitVec n) {i : ℕ} (hi : i < 32) :
    (x.setWidth 32 &&& (-(x.setWidth 32) &&& ones 32 n >>> 1)).getLsbD i = true ↔
      i + 1 < n ∧ x.getLsbD i = true ∧ ∀ j < i, x.getLsbD j = false := by
  have hbit : ∀ j ≤ i, (x.setWidth 32).getLsbD j = x.getLsbD j := by
    intro j hj
    rw [BitVec.getLsbD_setWidth, decide_eq_true (by omega), Bool.true_and]
  have hlower : (∃ j < i, (x.setWidth 32).getLsbD j = true) ↔ ¬∀ j < i, x.getLsbD j = false := by
    rw [not_forall]
    refine exists_congr fun j => ?_
    rw [Classical.not_imp, Bool.not_eq_false]
    exact and_congr_right fun hj => by rw [hbit j (Nat.le_of_lt hj)]
  rw [BitVec.getLsbD_and, BitVec.getLsbD_and, BitVec.getLsbD_neg, BitVec.getLsbD_ushiftRight,
    getLsbD_ones (by decide) hpos hn, hbit i le_rfl, decide_eq_true hi, Bool.true_and, Nat.add_comm 1 i]
  simp only [hlower, Bool.and_eq_true, decide_eq_true_eq]
  constructor
  · rintro ⟨hset, hneg, hlt⟩
    rw [hset, Bool.true_xor, Bool.not_eq_true', decide_eq_false_iff_not, not_not] at hneg
    exact ⟨hlt, hset, hneg⟩
  · rintro ⟨hlt, hset, hlow⟩
    refine ⟨hset, ?_, hlt⟩
    rw [hset, Bool.true_xor, Bool.not_eq_true', decide_eq_false_iff_not, not_not]
    exact hlow

/-- The rotation is advanced by the number of the lowest bit. -/
theorem adjustRotation_eq (hn : n ≤ 32) (hr : r < n) (x : BitVec n) :
    adjustRotation r n (x.setWidth 32) (ones 32 n >>> 1) = (r + 1 + Gray.lowBit x) % n := by
  have hlowest := fun i hi => getLsbD_lowest (i := i) hn (Nat.zero_lt_of_lt hr) x hi
  have hcount : shiftOut 32 (x.setWidth 32 &&& (-(x.setWidth 32) &&& ones 32 n >>> 1)) r =
      r + Gray.lowBit x ∧ Gray.lowBit x < n := by
    by_cases hsome : ∃ i, i + 1 < n ∧ x.getLsbD i = true ∧ ∀ j < i, x.getLsbD j = false
    · rcases hsome with ⟨i, hi, hset, hlow⟩
      have hword : x.setWidth 32 &&& (-(x.setWidth 32) &&& ones 32 n >>> 1) = BitVec.twoPow 32 i := by
        refine BitVec.eq_of_getLsbD_eq fun j hj => Bool.eq_iff_iff.2 ?_
        rw [hlowest j hj, BitVec.getLsbD_twoPow, Bool.and_eq_true, decide_eq_true_eq, decide_eq_true_eq]
        constructor
        · rintro ⟨-, hset', hlow'⟩
          refine ⟨by omega, ?_⟩
          rcases Nat.lt_trichotomy i j with hlt | rfl | hgt
          · exact absurd ((hlow' i hlt).symm.trans hset) Bool.false_ne_true
          · rfl
          · exact absurd ((hlow j hgt).symm.trans hset') Bool.false_ne_true
        · rintro ⟨-, rfl⟩
          exact ⟨hi, hset, hlow⟩
      rw [hword, shiftOut_twoPow (by omega) (by omega), Gray.lowBit_eq_succ hi hset hlow]
      exact ⟨Nat.add_assoc _ _ _, hi⟩
    · -- no bit below the highest one
      have hnone : ∀ i, i + 1 < n → x.getLsbD i = false := by
        intro i
        induction i using Nat.strongRecOn with
        | ind i ih =>
            intro hi
            by_contra hset
            rw [Bool.not_eq_false] at hset
            exact hsome ⟨i, hi, hset, fun j hj => ih j hj (by omega)⟩
      have hword : x.setWidth 32 &&& (-(x.setWidth 32) &&& ones 32 n >>> 1) = 0 := by
        refine BitVec.eq_of_getLsbD_eq fun j hj => ?_
        rw [BitVec.ofNat_eq_ofNat, BitVec.getLsbD_zero, Bool.eq_false_iff, ne_eq, hlowest j hj]
        rintro ⟨hlt, hset, -⟩
        exact Bool.false_ne_true ((hnone j hlt).symm.trans hset)
      rw [hword, Gray.lowBit_eq_zero hnone]
      exact ⟨rfl, Nat.zero_lt_of_lt hr⟩
  rw [adjustRotation, hcount.1]
  have hlt := hcount.2
  split
  · next hge =>
      rw [show r + 1 + Gray.lowBit x = r + Gray.lowBit x + 1 by omega, Nat.mod_eq_sub_mod hge,
        Nat.mod_eq_of_lt (by omega)]
  · next hge => rw [show r + 1 + Gray.lowBit x = r + Gray.lowBit x + 1 by omega,
      Nat.mod_eq_of_lt (Nat.not_le.1 hge)]

theorem one_shiftLeft_eq (hr : r < n) :
    (1 : Halfmask) <<< r = (BitVec.twoPow n r).setWidth 32 := by
  refine BitVec.eq_of_getLsbD_eq fun i hi => ?_
  rw [BitVec.getLsbD_shiftLeft, BitVec.getLsbD_setWidth, BitVec.getLsbD_twoPow, BitVec.ofNat_eq_ofNat,
    BitVec.getLsbD_one]
  rw [Bool.eq_iff_iff]
  simp only [hi, hr, decide_true, Bool.true_and, Bool.and_eq_true, Bool.not_eq_true',
    decide_eq_false_iff_not, decide_eq_true_eq, Nat.zero_lt_succ]
  omega

end Word

/-! ## The loops over the levels -/

/-- The words before reflection and rotation. -/
def straights : Hilbert.Pose n → List (BitVec n) → List (BitVec n)
  | _, [] => []
  | s, w :: ws => s.straight w :: straights (s.next w) ws

@[simp] theorem length_straights (ws : List (BitVec n)) : ∀ s, (straights s ws).length = ws.length := by
  induction ws with
  | nil => exact fun _ => rfl
  | cons w ws ih =>
      intro s
      rw [straights, List.length_cons, ih, List.length_cons]

/-- What the loops take out of a machine word. -/
theorem take_level (hn : n ≤ 32) (hpos : 0 < n) (x : Bitmask) (k : ℕ) :
    (x >>> (n * k) &&& (ones 32 n).setWidth 64).setWidth 32 = (level n x k).setWidth 32 := by
  refine BitVec.eq_of_getLsbD_eq fun i hi => ?_
  simp only [BitVec.getLsbD_setWidth, BitVec.getLsbD_and, getLsbD_ones (show 1 < 32 by decide) hpos hn, hi,
    decide_true, Bool.true_and]
  by_cases hin : i < n
  · rw [getLsbD_level x hin, BitVec.getLsbD_ushiftRight]
    simp [hin, show i < 64 by omega]
  · rw [BitVec.getLsbD_of_ge (level n x k) i (by omega)]
    simp [hin]

/-- After each level `flipBit` is the corner of the pose less the word of the level. -/
theorem flipBit_next (s : Hilbert.Pose n) (w : BitVec n) :
    (1 : Halfmask) <<< s.rotation.val = ((s.next w).corner ^^^ w).setWidth 32 := by
  rw [one_shiftLeft_eq s.rotation.isLt]
  simp only [Hilbert.Pose.next]
  rw [BitVec.xor_comm w, BitVec.xor_assoc, BitVec.xor_self, BitVec.xor_zero]

theorem c2iLoop_eq (hn : n ≤ 32) (x : Bitmask) {k : ℕ} : ∀ (s : Hilbert.Pose n) (index : Bitmask),
    c2iLoop n (x ^^^ x >>> n) k s.rotation ((s.corner ^^^ level n x k).setWidth 32) index =
      (straights s (levels n x k)).foldl (push n) index := by
  induction k with
  | zero => exact fun _ _ => rfl
  | succ k ih =>
      intro s index
      have hr := s.rotation.isLt
      have hpos : 0 < n := Nat.zero_lt_of_lt hr
      have hbits : (s.corner ^^^ level n x (k + 1)).setWidth 32 ^^^
          (level n (x ^^^ x >>> n) k).setWidth 32 = (level n x k ^^^ s.corner).setWidth 32 := by
        rw [← BitVec.setWidth_xor, level_xor, level_shiftRight, BitVec.xor_comm (level n x k),
          Gray.xor_xor_cancel_middle, BitVec.xor_comm]
      have hword : (rotateRight ((level n x k ^^^ s.corner).setWidth 32) s.rotation n).setWidth 32 =
          (s.straight (level n x k)).setWidth 32 := rotateRight_eq hn hr _
      rw [c2iLoop, take_level hn hpos, hbits, hword, adjustRotation_eq hn hr,
        flipBit_next s (level n x k), levels, straights, List.foldl_cons, ← ih,
        BitVec.setWidth_setWidth (by omega)]
      rfl

/-- The words of a machine word with a shift by one level added. -/
theorem levels_xor_shift (x : Bitmask) (k : ℕ) :
    levels n (x ^^^ x >>> n) (k + 1) = (level n x k ^^^ level n x (k + 1)) :: levels n (x ^^^ x >>> n) k := by
  rw [levels, level_xor, level_shiftRight]

theorem i2cLoop_eq (hn : n ≤ 32) (x index : Bitmask) {k : ℕ} :
    ∀ (s : Hilbert.Pose n) (coords : Bitmask), levels n index k = straights s (levels n x k) →
      i2cLoop n index k s.rotation ((s.corner ^^^ level n x k).setWidth 32) coords =
        (levels n (x ^^^ x >>> n) k).foldl (push n) coords := by
  induction k with
  | zero => exact fun _ _ _ => rfl
  | succ k ih =>
      intro s coords hindex
      have hr := s.rotation.isLt
      have hpos : 0 < n := Nat.zero_lt_of_lt hr
      rw [levels, levels, straights, List.cons.injEq] at hindex
      have hword : rotateLeft ((s.straight (level n x k)).setWidth 32) s.rotation n ^^^
          ((s.corner ^^^ level n x (k + 1)).setWidth 32).setWidth 64 =
          (level n x k ^^^ level n x (k + 1)).setWidth 64 := by
        rw [rotateLeft_eq hn hr, BitVec.setWidth_setWidth (by omega), ← BitVec.setWidth_xor,
          Hilbert.Pose.straight, Hilbert.rotateLeft_rotateRight _ hr, Gray.xor_xor_cancel_middle]
      rw [i2cLoop, take_level hn hpos, hindex.1, hword, adjustRotation_eq hn hr,
        flipBit_next s (level n x k), levels_xor_shift, List.foldl_cons]
      exact ih (s.next (level n x k)) _ hindex.2

end DataSpaces
