import Mathlib.Data.List.GetD
import Mathlib.Data.List.Range
import DataSpaces.Levels

/-!
# SfcCurve — `hilbert_c2i` computes the Hilbert curve

The loop of `hilbert_c2i` computes the code of the index, save for the highest bit of every level below the
first, which is set when the level above has an even number; `nthbits` sets it once more for all of them.  What
the later shifts undo is then the code of the whole index.
-/

namespace DataSpaces

variable {n m : ℕ}

/-! ## The index and its code -/

theorem nthbits_eq (hn : 1 < n) (hn32 : n ≤ 32) (hpos : 0 < m) (hm : n * m ≤ 64) :
    nthbits n m = pack n (List.replicate m 1#n) := by
  have hlen : n * (List.replicate m 1#n).length ≤ 64 := by rwa [List.length_replicate]
  have hone : ((1#n).toFin : ℕ) = 1 := by
    rw [BitVec.val_toFin, BitVec.toNat_ofNat, Nat.mod_eq_of_lt (Nat.one_lt_two_pow (by omega))]
  have hgeom := Coder.number_replicate_one hone m
  have hdiv : 0 < 2 ^ n - 1 := by
    have := Nat.one_lt_two_pow (n := n) (by omega)
    omega
  refine BitVec.eq_of_toNat_eq ?_
  rw [toNat_pack hlen, List.map_replicate, nthbits, BitVec.toNat_udiv, BitVec.toNat_setWidth,
    toNat_ones (by decide) (Nat.mul_pos (by omega) hpos) hm, toNat_ones (by decide) (by omega) hn32,
    Nat.mod_eq_of_lt, Nat.pow_mul, ← hgeom, Nat.add_sub_cancel, Nat.mul_div_cancel _ hdiv]
  exact (Nat.sub_le _ _).trans_lt (Nat.pow_lt_pow_right Nat.one_lt_two (by omega))

/-- Every level has its lowest bit. -/
theorem level_nthbits (hn : 1 < n) (hn32 : n ≤ 32) (hpos : 0 < m) (hm : n * m ≤ 64) (k : ℕ) :
    level n (nthbits n m) k = if k < m then 1#n else 0#n := by
  rw [nthbits_eq hn hn32 hpos hm]
  have hlen : n * (List.replicate m 1#n).length ≤ 64 := by rwa [List.length_replicate]
  have hlevels := levels_pack hlen
  rw [List.length_replicate] at hlevels
  split
  · next hk =>
      have hmem : ∀ {k j : ℕ} {x : Bitmask}, j < k → level n x j ∈ levels n x k := by
        intro k j x hj
        induction k with
        | zero => exact absurd hj (Nat.not_lt_zero j)
        | succ k ih =>
            rw [levels]
            rcases Nat.lt_or_eq_of_le (Nat.lt_succ_iff.1 hj) with hlt | rfl
            · exact List.mem_cons_of_mem _ (ih hlt)
            · exact List.mem_cons_self
      have hin := hmem (x := pack n (List.replicate m 1#n)) hk
      rw [hlevels] at hin
      exact List.eq_of_mem_replicate hin
  · next hk =>
      refine BitVec.eq_of_getLsbD_eq fun i hi => ?_
      have hge := Nat.mul_le_mul_left n (Nat.not_lt.1 hk)
      rw [getLsbD_level _ hi, getLsbD_pack_of_ge (by rw [List.length_replicate]; omega), BitVec.getLsbD_zero]

/-- The code of the index, as the loops see it. -/
def codeOf (n m : ℕ) (index : Bitmask) : Bitmask :=
  index ^^^ index >>> 1 ^^^ nthbits n m >>> 1

/-- Level `k` of it is the code of level `k`, with the highest bit changed unless the level above is odd or
there is none. -/
theorem level_codeOf (hn : 1 < n) (hn32 : n ≤ 32) (hpos : 0 < m) (hm : n * m ≤ 64) (index : Bitmask)
    (k : ℕ) : level n (codeOf n m index) k = Gray.encode (level n index k ^^^
      if (decide (k + 1 < m) ^^ (level n index (k + 1)).getLsbD 0) then BitVec.allOnes n else 0#n) := by
  have hnth := level_nthbits hn hn32 hpos hm
  refine BitVec.eq_of_getLsbD_eq fun i hi => ?_
  rw [getLsbD_level _ hi, codeOf, BitVec.getLsbD_xor, BitVec.getLsbD_xor, BitVec.getLsbD_ushiftRight,
    BitVec.getLsbD_ushiftRight, Gray.encode_xor, BitVec.getLsbD_xor, Gray.getLsbD_encode,
    getLsbD_level _ hi, Nat.add_comm 1]
  -- the highest bit of a level sees the lowest one of the level above
  rcases Nat.lt_or_ge (i + 1) n with hlt | hge
  · have hbit : (nthbits n m).getLsbD (n * k + i + 1) = false := by
      rw [Nat.add_assoc, ← getLsbD_level _ hlt, hnth]
      split <;> simp
    rw [hbit, Bool.xor_false, getLsbD_level _ hlt, Nat.add_assoc]
    split
    · rw [Gray.getLsbD_encode, BitVec.getLsbD_allOnes, BitVec.getLsbD_allOnes]
      simp [hi, hlt]
    · simp
  · have hnext : n * k + i + 1 = n * (k + 1) + 0 := by
      rw [Nat.mul_succ]
      omega
    have hbit : (nthbits n m).getLsbD (n * k + i + 1) = decide (k + 1 < m) := by
      rw [hnext, ← getLsbD_level _ (by omega), hnth]
      split
      · next hk => simp [hk]; omega
      · next hk => simp [hk]
    rw [hbit, BitVec.getLsbD_of_ge (level n index k) (i + 1) hge, Bool.xor_false, hnext,
      ← getLsbD_level _ (show 0 < n by omega)]
    have hlast : (Gray.encode (BitVec.allOnes n)).getLsbD i = true := by
      rw [Gray.encode_allOnes, BitVec.getLsbD_twoPow]
      simp [show n - 1 = i by omega, hi]
    cases hodd : (level n index (k + 1)).getLsbD 0 <;> by_cases hk : k + 1 < m <;>
      simp [hk, hlast]

/-- The levels of the code are the words before reflection and rotation. -/
theorem levels_codeOf (hn : 1 < n) (hn32 : n ≤ 32) (hm : n * m ≤ 64) (index : Bitmask)
    {ws : List (BitVec n)} : ∀ s : Hilbert.Pose n, ws.length ≤ m →
      levels n index ws.length = ((Hilbert.curve n).encode s ws).map BitVec.ofFin →
      s.reversed = (decide (ws.length < m) ^^ (level n index ws.length).getLsbD 0) →
      levels n (codeOf n m index) ws.length = straights s ws := by
  induction ws with
  | nil => exact fun _ _ _ _ => rfl
  | cons w ws ih =>
      intro s hlen hindex hrev
      rw [List.length_cons] at hlen hrev
      rw [List.length_cons, levels, Coder.encode, List.map_cons, List.cons.injEq] at hindex
      have hword : level n (codeOf n m index) ws.length = s.straight w := by
        rw [level_codeOf hn hn32 (by omega) hm, ← hrev, hindex.1, s.straight_eq]
        rfl
      have hnext : (s.next w).reversed = (decide (ws.length < m) ^^ (level n index ws.length).getLsbD 0) := by
        rw [hindex.1, decide_eq_true (by omega), Bool.true_xor]
        rfl
      rw [List.length_cons, levels, straights, hword, ih (s.next w) (by omega) hindex.2 hnext]

/-! ## The transformations of whole words -/

theorem shiftRight_eq_zero {x : Bitmask} {k : ℕ} (hx : ∀ p, k ≤ p → x.getLsbD p = false) :
    x >>> k = 0#64 := by
  refine BitVec.eq_of_getLsbD_eq fun p _ => ?_
  rw [BitVec.getLsbD_ushiftRight, hx _ (Nat.le_add_right k p), BitVec.getLsbD_zero]

theorem level_eq_zero {x : Bitmask} {k : ℕ} (hx : ∀ p, n * k ≤ p → x.getLsbD p = false) :
    level n x k = 0#n := by
  rw [level, shiftRight_eq_zero hx, BitVec.setWidth_zero]

/-- The index of the cell with the given words, as a machine word. -/
def indexOf (n : ℕ) [NeZero n] (ws : List (BitVec n)) : Bitmask :=
  pack n (((Hilbert.curve n).encode (Hilbert.start n) ws).map BitVec.ofFin)

section Words

variable [NeZero n] {ws : List (BitVec n)}

theorem getLsbD_indexOf_of_ge {p : ℕ} (hp : n * ws.length ≤ p) : (indexOf n ws).getLsbD p = false :=
  getLsbD_pack_of_ge (by simpa using hp)

theorem levels_indexOf (hws : n * ws.length ≤ 64) : levels n (indexOf n ws) ws.length =
    ((Hilbert.curve n).encode (Hilbert.start n) ws).map BitVec.ofFin := by
  have hlevels := levels_pack (show
    n * (((Hilbert.curve n).encode (Hilbert.start n) ws).map BitVec.ofFin).length ≤ 64 by simpa using hws)
  rwa [List.length_map, Coder.length_encode] at hlevels

theorem toNat_indexOf (ws : List (BitVec n)) (hws : n * ws.length ≤ 64) : (indexOf n ws).toNat =
    Coder.number ((Hilbert.curve n).encode (Hilbert.start n) ws) := by
  rw [indexOf, toNat_pack (by simpa using hws), List.map_map]
  exact congrArg Coder.number (List.map_id _)

/-- The code of the index has the words before reflection and rotation. -/
theorem levels_codeOf_indexOf (hn : 1 < n) (hn32 : n ≤ 32) (hws : n * ws.length ≤ 64) :
    levels n (codeOf n ws.length (indexOf n ws)) ws.length = straights (Hilbert.start n) ws := by
  refine levels_codeOf hn hn32 hws _ _ le_rfl (levels_indexOf hws) ?_
  rw [level_eq_zero fun p hp => getLsbD_indexOf_of_ge hp, BitVec.getLsbD_zero,
    decide_eq_false (Nat.lt_irrefl _)]
  rfl

theorem codeOf_indexOf (ws : List (BitVec n)) (hn : 1 < n) (hn32 : n ≤ 32) (hpos : 0 < ws.length)
    (hws : n * ws.length ≤ 64) :
    codeOf n ws.length (indexOf n ws) = pack n (straights (Hilbert.start n) ws) := by
  rw [← levels_codeOf_indexOf hn hn32 hws, pack_levels fun p hp => ?_]
  have hnth : (nthbits n ws.length).getLsbD (1 + p) = false := by
    rw [nthbits_eq hn hn32 hpos hws, getLsbD_pack_of_ge (by rw [List.length_replicate]; omega)]
  rw [codeOf, BitVec.getLsbD_xor, BitVec.getLsbD_xor, BitVec.getLsbD_ushiftRight,
    BitVec.getLsbD_ushiftRight, hnth, getLsbD_indexOf_of_ge hp, getLsbD_indexOf_of_ge (by omega)]
  rfl

/-- The shifts at the end of `hilbert_c2i` undo the code. -/
theorem unshift_code (ws : List (BitVec n)) :
    Gray.unshift (n * ws.length) (n * ws.length) 1 (indexOf n ws ^^^ indexOf n ws >>> 1) =
      indexOf n ws :=
  Gray.unshift_shift (shiftRight_eq_zero fun p hp => getLsbD_indexOf_of_ge hp)
    (by rw [Nat.one_mul]; exact Nat.lt_two_pow_self.le)

end Words

/-! ## Coordinates -/

theorem levels_eq_words (word : Bitmask) {x : ℕ → ℕ}
    (h : ∀ d < n, ∀ k < m, word.getLsbD (n * k + d) = (x d).testBit k) : levels n word m = Hilbert.words n x m := by
  induction m with
  | zero => rfl
  | succ m ih =>
      rw [levels, Hilbert.words, ih fun d hd k hk => h d hd k (Nat.lt_succ_of_lt hk)]
      refine congrArg (· :: _) (BitVec.eq_of_getLsbD_eq fun d hd => ?_)
      rw [getLsbD_level _ hd, h d hd m (Nat.lt_succ_self m), Hilbert.getLsbD_word x m hd]

/-- Coordinate after coordinate in one word. -/
theorem getLsbD_foldr (hpos : 0 < m) {n : ℕ} : ∀ {c : ℕ → Bitmask}, n * m ≤ 64 →
    (∀ d < n, ∀ k, m ≤ k → (c d).getLsbD k = false) → ∀ p,
    ((List.range n).foldr (fun d (coords : Bitmask) => coords <<< m ||| c d) 0).getLsbD p =
      (decide (p < n * m) && (c (p / m)).getLsbD (p % m)) := by
  induction n with
  | zero => simp
  | succ n ih =>
      intro c hm hc p
      rw [Nat.succ_mul] at hm ⊢
      rw [List.range_succ_eq_map, List.foldr_cons, List.foldr_map, BitVec.getLsbD_or,
        BitVec.getLsbD_shiftLeft,
        ih (c := fun d => c (d + 1)) (by omega) fun d hd k hk => hc (d + 1) (by omega) k hk]
      rcases Nat.lt_or_ge p m with hlt | hge
      · rw [Nat.div_eq_of_lt hlt, Nat.mod_eq_of_lt hlt]
        simp [hlt, show p < n * m + m by omega]
      · have hdiv : (p - m) / m + 1 = p / m := by
          rw [← Nat.add_div_right _ hpos, Nat.sub_add_cancel hge]
        rw [hc 0 (Nat.succ_pos n) p hge, hdiv, ← Nat.mod_eq_sub_mod hge]
        have hiff : p - m < n * m ↔ p < n * m + m := by omega
        simp only [hiff, Nat.not_lt.2 hge, decide_false, Bool.not_false, Bool.and_true, Bool.or_false]
        by_cases hp : p < 64
        · simp [hp]
        · simp [hp, show ¬p < n * m + m by omega]

section Coords

variable {coord : List UInt64}

theorem getLsbD_coord {d k : ℕ} (hcoord : ∀ d < n, (coord.getD d 0).toNat < 2 ^ m) (hd : d < n)
    (hk : m ≤ k) : (coord.getD d 0).toBitVec.getLsbD k = false :=
  Nat.testBit_lt_two_pow ((hcoord d hd).trans_le (Nat.pow_le_pow_right Nat.two_pos hk))

theorem getLsbD_packCoords (hpos : 0 < m) (hm : n * m ≤ 64)
    (hcoord : ∀ d < n, (coord.getD d 0).toNat < 2 ^ m) (p : ℕ) :
    (packCoords n m coord).getLsbD p =
      (decide (p < n * m) && (coord.getD (p / m) 0).toNat.testBit (p % m)) :=
  getLsbD_foldr hpos hm (fun _ hd _ hk => getLsbD_coord hcoord hd hk) p

theorem getLsbD_packCoords_field (hpos : 0 < m) (hm : n * m ≤ 64)
    (hcoord : ∀ d < n, (coord.getD d 0).toNat < 2 ^ m) {d k : ℕ} (hd : d < n) (hk : k < m) :
    (packCoords n m coord).getLsbD (m * d + k) = (coord.getD d 0).toNat.testBit k := by
  have hmul := Nat.mul_le_mul_left m hd
  rw [Nat.mul_succ, Nat.mul_comm m n] at hmul
  rw [getLsbD_packCoords hpos hm hcoord, Nat.mul_add_div hpos, Nat.div_eq_of_lt hk, Nat.mul_add_mod,
    Nat.mod_eq_of_lt hk, decide_eq_true (by omega), Bool.true_and, Nat.add_zero]

theorem packCoords_of_ge (hpos : 0 < m) (hm : n * m ≤ 64)
    (hcoord : ∀ d < n, (coord.getD d 0).toNat < 2 ^ m) {p : ℕ} (hp : n * m ≤ p) :
    (packCoords n m coord).getLsbD p = false := by
  rw [getLsbD_packCoords hpos hm hcoord, decide_eq_false (Nat.not_lt.2 hp), Bool.false_and]

/-- The transposed coordinates have the words of the cell as their levels. -/
theorem getLsbD_transposed (hn : 1 < n) (hpos : 0 < m) (hm : n * m ≤ 64)
    (hcoord : ∀ d < n, (coord.getD d 0).toNat < 2 ^ m) {d k : ℕ} (hd : d < n) (hk : k < m) :
    (bitTranspose n m (packCoords n m coord)).getLsbD (n * k + d) = (coord.getD d 0).toNat.testBit k := by
  rw [getLsbD_bitTranspose_field hn hpos hm (fun p hp => packCoords_of_ge hpos hm hcoord hp) hd hk,
    getLsbD_packCoords_field hpos hm hcoord hd hk]

theorem transposed_of_ge (hn : 1 < n) (hpos : 0 < m) (hm : n * m ≤ 64)
    (hcoord : ∀ d < n, (coord.getD d 0).toNat < 2 ^ m) {p : ℕ} (hp : n * m ≤ p) :
    (bitTranspose n m (packCoords n m coord)).getLsbD p = false := by
  rw [← Bool.not_eq_true,
    getLsbD_bitTranspose hn hpos hm fun p hp => packCoords_of_ge hpos hm hcoord hp]
  rintro ⟨d, hd, k, hk, rfl, -⟩
  have hmul := Nat.mul_le_mul_left n hk
  rw [Nat.mul_succ] at hmul
  omega

theorem start_rotation [NeZero n] : ((Hilbert.start n).rotation : ℕ) = 0 :=
  Fin.val_zero n

/-- On the highest level nothing is reflected or rotated. -/
theorem straights_start [NeZero n] (hn : 1 < n) (w : BitVec n) : straights (Hilbert.start n) [w] = [w] := by
  rw [straights, straights, Hilbert.Pose.straight, start_rotation,
    BitVec.rotateRight_eq_rotateRightAux_of_lt (by omega), BitVec.rotateRightAux]
  simp [Hilbert.start]

/-- With one level there is nothing to correct. -/
theorem nthbits_one_shift (hn : 1 < n) (hn32 : n ≤ 32) : nthbits n 1 >>> 1 = 0#64 := by
  refine shiftRight_eq_zero fun p hp => ?_
  rw [nthbits_eq hn hn32 Nat.one_pos (by omega), List.replicate_one, getLsbD_pack_cons, pack, List.length_nil,
    Nat.mul_zero, Nat.sub_zero, BitVec.getLsbD_one, decide_eq_false (show p ≠ 0 by omega)]
  simp

/-- What the shifts at the end of `hilbert_c2i` work on: the words of the cell before reflection and rotation,
with the correction of their highest bits. -/
theorem c2i_code [NeZero n] (hn : 1 < n) (hn32 : n ≤ 32) (hpos : 0 < m) (hm : n * m ≤ 64)
    (hcoord : ∀ d < n, (coord.getD d 0).toNat < 2 ^ m) :
    (if m > 1 then
      c2iLoop n (bitTranspose n m (packCoords n m coord) ^^^
        bitTranspose n m (packCoords n m coord) >>> n) m 0 0 0 ^^^ nthbits n m >>> 1
    else packCoords n m coord) =
      pack n (straights (Hilbert.start n) (Hilbert.words n (fun d => (coord.getD d 0).toNat) m)) ^^^
        nthbits n m >>> 1 := by
  split
  · have hlevels := levels_eq_words (bitTranspose n m (packCoords n m coord)) (m := m)
      fun d hd k hk => getLsbD_transposed hn hpos hm hcoord hd hk
    have htop : level n (bitTranspose n m (packCoords n m coord)) m = 0#n :=
      level_eq_zero fun p hp => transposed_of_ge hn hpos hm hcoord hp
    have hloop := c2iLoop_eq hn32 (bitTranspose n m (packCoords n m coord)) (k := m) (Hilbert.start n) 0
    rw [start_rotation, htop, hlevels, foldl_push_zero] at hloop
    rw [← hloop]
    simp [Hilbert.start]
  · next hone =>
      obtain rfl : m = 1 := by omega
      have hlevels := levels_eq_words (packCoords n 1 coord) (m := 1) fun d hd k hk => by
        rw [Nat.lt_one_iff.1 hk, Nat.mul_zero, Nat.zero_add, ← Nat.add_zero d, ← Nat.one_mul d,
          getLsbD_packCoords_field hpos hm hcoord (by omega) hpos, Nat.one_mul, Nat.add_zero]
      rw [Hilbert.words, Hilbert.words, straights_start hn, ← Hilbert.words.eq_1 n, ← Hilbert.words.eq_2,
        ← hlevels, pack_levels fun p hp => packCoords_of_ge hpos hm hcoord hp,
        nthbits_one_shift hn hn32, BitVec.xor_zero]

/-- `hilbert_c2i` computes the index that the curve gives the cell. -/
theorem hilbertC2i_eq [NeZero n] (hn : 1 < n) (hn32 : n ≤ 32) (hpos : 0 < m) (hm : n * m ≤ 64)
    (hcoord : ∀ d < n, (coord.getD d 0).toNat < 2 ^ m) :
    hilbertC2i n m coord =
      UInt64.ofBitVec (indexOf n (Hilbert.words n (fun d => (coord.getD d 0).toNat) m)) := by
  have hcode := codeOf_indexOf (Hilbert.words n (fun d => (coord.getD d 0).toNat) m) hn hn32
    (by simpa using hpos) (by simpa using hm)
  have hunshift := unshift_code (Hilbert.words n (fun d => (coord.getD d 0).toNat) m)
  rw [Hilbert.length_words] at hcode hunshift
  rw [hilbertC2i, if_pos hn]
  simp only
  rw [c2i_code hn hn32 hpos hm hcoord, ← hcode, codeOf, BitVec.xor_assoc, BitVec.xor_self, BitVec.xor_zero,
    hunshift]

end Coords

/-! ## The cell of an index -/

/-- The coordinates of the cell with the given words. -/
def cellOf (n : ℕ) (ws : List (BitVec n)) : List UInt64 :=
  (List.range n).map fun d => UInt64.ofNat (Hilbert.coordinate ws d)

theorem unpackCoords_eq (hpos : 0 < m) (hm32 : m ≤ 32) {n : ℕ} : ∀ {coords : Bitmask} {c : ℕ → ℕ},
    n * m ≤ 64 → (∀ d < n, c d < 2 ^ m) →
    (∀ d < n, ∀ k < m, coords.getLsbD (m * d + k) = (c d).testBit k) →
    unpackCoords m n coords = (List.range n).map fun d => UInt64.ofNat (c d) := by
  induction n with
  | zero => exact fun _ _ _ => rfl
  | succ n ih =>
      intro coords c hm hlt hbits
      rw [Nat.succ_mul] at hm
      have hfirst : UInt64.ofBitVec (coords &&& (ones 32 m).setWidth 64) = UInt64.ofNat (c 0) := by
        refine congrArg UInt64.ofBitVec (BitVec.eq_of_getLsbD_eq fun k hk => ?_)
        rw [BitVec.getLsbD_and, BitVec.getLsbD_setWidth, getLsbD_ones (by decide) hpos hm32,
          BitVec.getLsbD_ofNat]
        rcases Nat.lt_or_ge k m with hkm | hkm
        · have hbit := hbits 0 (Nat.succ_pos n) k hkm
          rw [Nat.mul_zero, Nat.zero_add] at hbit
          rw [hbit]
          simp [hk, hkm]
        · rw [Nat.testBit_lt_two_pow ((hlt 0 (Nat.succ_pos n)).trans_le (Nat.pow_le_pow_right Nat.two_pos hkm))]
          simp [Nat.not_lt.2 hkm]
      have hrest : unpackCoords m n (coords >>> m) = (List.range n).map fun d => UInt64.ofNat (c (d + 1)) := by
        refine ih (by omega) (fun d hd => hlt (d + 1) (by omega)) fun d hd k hk => ?_
        rw [BitVec.getLsbD_ushiftRight, ← hbits (d + 1) (by omega) k hk, Nat.mul_succ]
        congr 1
        omega
      rw [unpackCoords, hfirst, hrest, List.range_succ_eq_map, List.map_cons, List.map_map]
      rfl

section Cells

variable {ws : List (BitVec n)}

theorem level_eq_word {word : Bitmask} {x : ℕ → ℕ} (h : levels n word m = Hilbert.words n x m) {k : ℕ}
    (hk : k < m) : level n word k = Hilbert.word n x k := by
  induction m with
  | zero => exact absurd hk (Nat.not_lt_zero k)
  | succ m ih =>
      rw [levels, Hilbert.words, List.cons.injEq] at h
      rcases Nat.lt_or_eq_of_le (Nat.lt_succ_iff.1 hk) with hlt | rfl
      · exact ih h.2 hlt
      · exact h.1

/-- The bits of the words of a cell, packed, are those of its coordinates. -/
theorem getLsbD_pack_words (hws : n * ws.length ≤ 64) {d k : ℕ} (hd : d < n) (hk : k < ws.length) :
    (pack n ws).getLsbD (n * k + d) = (Hilbert.coordinate ws d).testBit k := by
  have hlevels := levels_pack hws
  nth_rewrite 3 [← Hilbert.words_coordinate ws] at hlevels
  rw [← getLsbD_level _ hd, level_eq_word hlevels hk, Hilbert.getLsbD_word _ _ hd]

variable [NeZero n]

/-- The code of the index of a cell, and what the loop of `hilbert_i2c` makes of it. -/
theorem i2cLoop_codeOf (hn : 1 < n) (hn32 : n ≤ 32) (hws : n * ws.length ≤ 64) :
    i2cLoop n (codeOf n ws.length (indexOf n ws)) ws.length 0 0 0 = pack n ws ^^^ pack n ws >>> n := by
  have htop : level n (pack n ws) ws.length = 0#n := level_eq_zero fun p hp => getLsbD_pack_of_ge hp
  have hcode := levels_codeOf_indexOf hn hn32 hws
  have hloop := i2cLoop_eq hn32 (pack n ws) (codeOf n ws.length (indexOf n ws)) (k := ws.length)
    (Hilbert.start n) 0
  rw [levels_pack hws, start_rotation, htop, foldl_push_zero, pack_levels fun p hp => ?_] at hloop
  · rw [← hloop hcode]
    simp [Hilbert.start]
  · rw [BitVec.getLsbD_xor, BitVec.getLsbD_ushiftRight, getLsbD_pack_of_ge hp,
      getLsbD_pack_of_ge (by omega)]
    rfl

/-- `hilbert_i2c` takes the index of a cell back to its coordinates. -/
theorem hilbertI2c_indexOf (hn : 1 < n) (hn32 : n ≤ 32) (hpos : 0 < ws.length) (hws : n * ws.length ≤ 64) :
    hilbertI2c n ws.length (UInt64.ofBitVec (indexOf n ws)) = cellOf n ws := by
  have hlen32 : ws.length ≤ 32 := by
    have := Nat.mul_le_mul_right ws.length (show 2 ≤ n by omega)
    omega
  have hlt : ∀ d < n, Hilbert.coordinate ws d < 2 ^ ws.length := fun d _ => Hilbert.coordinate_lt ws d
  rw [hilbertI2c, if_pos hn]
  simp only
  split
  · next hone =>
      have hxor : indexOf n ws ^^^ (indexOf n ws ^^^ nthbits n ws.length) >>> 1 =
          codeOf n ws.length (indexOf n ws) := by
        rw [codeOf, BitVec.ushiftRight_xor_distrib, BitVec.xor_assoc]
      have hunshift : Gray.unshift (n * ws.length) (n * ws.length) n (pack n ws ^^^ pack n ws >>> n) =
          pack n ws :=
        Gray.unshift_shift (shiftRight_eq_zero fun p hp => getLsbD_pack_of_ge hp)
          (by
            have := Nat.lt_two_pow_self (n := n * ws.length)
            exact this.le.trans (Nat.le_mul_of_pos_left _ (by omega)))
      rw [hxor, i2cLoop_codeOf hn hn32 hws, hunshift]
      refine unpackCoords_eq hpos hlen32 hws hlt fun d hd k hk => ?_
      rw [← getLsbD_pack_words hws hd hk, getLsbD_bitTranspose_field hone (by omega)
        (by rwa [Nat.mul_comm]) (fun p hp => getLsbD_pack_of_ge (by rwa [Nat.mul_comm])) hk hd]
  -- with one level there is nothing to transpose
  · next hone =>
      rcases List.length_eq_one_iff.1 (show ws.length = 1 by omega) with ⟨w, rfl⟩
      have hcode := codeOf_indexOf _ hn hn32 hpos hws
      rw [codeOf, List.length_singleton, nthbits_one_shift hn hn32, BitVec.xor_zero,
        straights_start hn] at hcode
      have hunpack := unpackCoords_eq hpos hlen32 hws hlt fun d hd k hk => by
        rw [← getLsbD_pack_words hws hd hk]
        rw [List.length_singleton, Nat.lt_one_iff] at hk
        rw [hk, List.length_singleton, Nat.one_mul, Nat.mul_zero, Nat.zero_add, Nat.add_zero]
      rw [hcode]
      exact hunpack

/-- Every index that fits has its digits, and they are those of a cell. -/
theorem exists_digits (hn : 1 < n) (hn32 : n ≤ 32) (hpos : 0 < m) (hm : n * m ≤ 64) {index : UInt64}
    (hindex : index.toNat < 2 ^ (n * m)) :
    ∃ ds : List (Fin (2 ^ n)), ds.length = m ∧ Coder.number ds = index.toNat ∧
      UInt64.ofBitVec (indexOf n ((Hilbert.curve n).decode (Hilbert.start n) ds)) = index ∧
      hilbertI2c n m index = cellOf n ((Hilbert.curve n).decode (Hilbert.start n) ds) := by
  rw [Nat.pow_mul] at hindex
  rcases Coder.exists_number hindex with ⟨ds, rfl, hnum⟩
  have hlen := (Hilbert.curve n).length_decode ds (Hilbert.start n)
  have hnat := toNat_indexOf ((Hilbert.curve n).decode (Hilbert.start n) ds) (by rwa [hlen])
  rw [Coder.encode_decode, hnum] at hnat
  have hds : UInt64.ofBitVec (indexOf n ((Hilbert.curve n).decode (Hilbert.start n) ds)) = index :=
    UInt64.toNat_inj.1 hnat
  have hcell := hilbertI2c_indexOf hn hn32 (by rwa [hlen]) (by rwa [hlen])
  rw [hds, hlen] at hcell
  exact ⟨ds, rfl, hnum, hds, hcell⟩

end Cells

@[simp] theorem length_cellOf {ws : List (BitVec n)} : (cellOf n ws).length = n := by
  rw [cellOf, List.length_map, List.length_range]

theorem getD_cellOf {ws : List (BitVec n)} (hlen : ws.length ≤ 64) {d : ℕ} (hd : d < n) :
    ((cellOf n ws).getD d 0).toNat = Hilbert.coordinate ws d := by
  have hlt := (Hilbert.coordinate_lt ws d).trans_le (Nat.pow_le_pow_right Nat.two_pos hlen)
  rw [cellOf, List.getD_eq_getElem?_getD, List.getElem?_map, List.getElem?_range hd, Option.map_some,
    Option.getD_some, UInt64.toNat_ofNat', Nat.mod_eq_of_lt hlt]

/-! ## The two functions -/

theorem hilbertC2i_hilbertI2c (hn : 0 < n) (hn32 : n ≤ 32) (hpos : 0 < m) (hm : n * m ≤ 64) {index : UInt64}
    (hindex : index.toNat < 2 ^ (n * m)) : hilbertC2i n m (hilbertI2c n m index) = index := by
  rcases Nat.lt_or_ge 1 n with hn1 | hone
  · have : NeZero n := ⟨by omega⟩
    have hm64 : m ≤ 64 := (Nat.le_mul_of_pos_left m hn).trans hm
    rcases exists_digits hn1 hn32 hpos hm hindex with ⟨ds, hlen, -, hds, hcell⟩
    generalize hws : (Hilbert.curve n).decode (Hilbert.start n) ds = ws at hds hcell
    have hlen' : ws.length = m := by rw [← hws, Coder.length_decode, hlen]
    have hcoord : ∀ d < n, ((cellOf n ws).getD d 0).toNat = Hilbert.coordinate ws d :=
      fun d hd => getD_cellOf (by rwa [hlen']) hd
    have hwords := Hilbert.words_coordinate ws
    rw [hlen'] at hwords
    rw [hcell, hilbertC2i_eq hn1 hn32 hpos hm fun d hd => ?_,
      Hilbert.words_congr fun d hd => by rw [hcoord d hd], hwords, hds]
    rw [hcoord d hd, ← hlen']
    exact Hilbert.coordinate_lt ws d
  · obtain rfl : n = 1 := by omega
    rfl

section Cell

variable {coord : List UInt64}

theorem getD_lt (hlen : coord.length = n) (hlt : ∀ c ∈ coord, c.toNat < 2 ^ m) :
    ∀ d < n, (coord.getD d 0).toNat < 2 ^ m := by
  intro d hd
  rw [List.getD_eq_getElem _ _ (by rwa [hlen])]
  exact hlt _ (List.getElem_mem _)

theorem hilbertI2c_hilbertC2i (hn : 0 < n) (hn32 : n ≤ 32) (hpos : 0 < m) (hm : n * m ≤ 64)
    (hlen : coord.length = n) (hlt : ∀ c ∈ coord, c.toNat < 2 ^ m) :
    hilbertI2c n m (hilbertC2i n m coord) = coord := by
  rcases Nat.lt_or_ge 1 n with hn1 | hone
  · have : NeZero n := ⟨by omega⟩
    have hm64 : m ≤ 64 := (Nat.le_mul_of_pos_left m hn).trans hm
    have hcoord := getD_lt hlen hlt
    rw [hilbertC2i_eq hn1 hn32 hpos hm hcoord]
    generalize hws : Hilbert.words n (fun d => (coord.getD d 0).toNat) m = ws
    have hlen' : ws.length = m := by rw [← hws, Hilbert.length_words]
    have hcell := hilbertI2c_indexOf hn1 hn32 (show 0 < ws.length by rwa [hlen']) (by rwa [hlen'])
    rw [hlen'] at hcell
    rw [hcell]
    refine List.ext_getElem (by rw [length_cellOf, hlen]) fun d hd hd' => ?_
    rw [length_cellOf] at hd
    have hget := getD_cellOf (show ws.length ≤ 64 by rwa [hlen']) hd
    rw [← hws, Hilbert.coordinate_words _ _ hd, Nat.mod_eq_of_lt (hcoord d hd), hws, UInt64.toNat_inj,
      List.getD_eq_getElem _ _ (by rwa [length_cellOf]), List.getD_eq_getElem _ _ hd'] at hget
    exact hget
  · obtain rfl : n = 1 := by omega
    rcases List.length_eq_one_iff.1 hlen with ⟨c, rfl⟩
    rfl

theorem hilbertC2i_lt (hn : 0 < n) (hn32 : n ≤ 32) (hpos : 0 < m) (hm : n * m ≤ 64) (hlen : coord.length = n)
    (hlt : ∀ c ∈ coord, c.toNat < 2 ^ m) : (hilbertC2i n m coord).toNat < 2 ^ (n * m) := by
  rcases Nat.lt_or_ge 1 n with hn1 | hone
  · have : NeZero n := ⟨by omega⟩
    have hindex := toNat_indexOf (Hilbert.words n (fun d => (coord.getD d 0).toNat) m)
      (by rwa [Hilbert.length_words])
    have hnum := Coder.number_lt ((Hilbert.curve n).encode (Hilbert.start n)
      (Hilbert.words n (fun d => (coord.getD d 0).toNat) m))
    rw [Coder.length_encode, Hilbert.length_words, ← Nat.pow_mul, ← hindex] at hnum
    rw [hilbertC2i_eq hn1 hn32 hpos hm (getD_lt hlen hlt)]
    exact hnum
  · obtain rfl : n = 1 := by omega
    rcases List.length_eq_one_iff.1 hlen with ⟨c, rfl⟩
    rw [Nat.one_mul]
    exact hlt c List.mem_cons_self

end Cell

/-- `hilbert_c2i` and `hilbert_i2c` undo each other, for every index and all coordinates that fit. -/
theorem hilbert_inverse (hn : 0 < n) (hn32 : n ≤ 32) (hpos : 0 < m) (hm : n * m ≤ 64) :
    (∀ index : UInt64, index.toNat < 2 ^ (n * m) → hilbertC2i n m (hilbertI2c n m index) = index) ∧
      ∀ coord : List UInt64, coord.length = n → (∀ c ∈ coord, c.toNat < 2 ^ m) →
        hilbertI2c n m (hilbertC2i n m coord) = coord :=
  ⟨fun _ hindex => hilbertC2i_hilbertI2c hn hn32 hpos hm hindex,
    fun _ hlen hlt => hilbertI2c_hilbertC2i hn hn32 hpos hm hlen hlt⟩

/-- Three coordinates of four bits. -/
theorem hilbert_inverse_cube : hilbertC2i 3 4 (hilbertI2c 3 4 2026) = 2026 ∧
    hilbertI2c 3 4 (hilbertC2i 3 4 [7, 0, 15]) = [7, 0, 15] :=
  have h := hilbert_inverse (n := 3) (m := 4) (by decide) (by decide) (by decide) (by decide)
  ⟨h.1 2026 (by decide), h.2 [7, 0, 15] rfl (by simp)⟩

/-! ## The path -/

/-- The coordinates of two cells that are next to each other: one differs, by one. -/
def CellsTouch (n : ℕ) (coord coord' : List UInt64) : Prop :=
  Hilbert.Neighbours n (fun d => (coord.getD d 0).toNat) fun d => (coord'.getD d 0).toNat

theorem cellsTouch_hilbertI2c (hn : 0 < n) (hn32 : n ≤ 32) (hpos : 0 < m) (hm : n * m ≤ 64) {index : UInt64}
    (hindex : index.toNat + 1 < 2 ^ (n * m)) :
    CellsTouch n (hilbertI2c n m index) (hilbertI2c n m (index + 1)) := by
  have hsucc : (index + 1).toNat = index.toNat + 1 := by
    have hpow : 2 ^ (n * m) ≤ 2 ^ 64 := Nat.pow_le_pow_right Nat.two_pos hm
    rw [UInt64.toNat_add, UInt64.toNat_one, Nat.mod_eq_of_lt (by omega)]
  rcases Nat.lt_or_ge 1 n with hn1 | hone
  · have : NeZero n := ⟨by omega⟩
    have hm64 : m ≤ 64 := (Nat.le_mul_of_pos_left m hn).trans hm
    rcases exists_digits hn1 hn32 hpos hm (show index.toNat < 2 ^ (n * m) by omega) with
      ⟨ds, hlen, hnum, -, hcell⟩
    rcases exists_digits hn1 hn32 hpos hm (show (index + 1).toNat < 2 ^ (n * m) by omega) with
      ⟨es, hlen', hnum', -, hcell'⟩
    have hnext := Hilbert.neighbours_of_consecutive (Hilbert.start n) (hlen.trans hlen'.symm)
      (by rw [hnum, hnum', hsucc])
    rw [hcell, hcell']
    exact hnext.congr (fun d hd => getD_cellOf (by rwa [Coder.length_decode, hlen]) hd)
      fun d hd => getD_cellOf (by rwa [Coder.length_decode, hlen']) hd
  · obtain rfl : n = 1 := by omega
    exact ⟨0, Nat.one_pos, fun d hd hne => absurd (Nat.lt_one_iff.1 hd) hne, Or.inl hsucc⟩

/-- The cells in the order of their indices. -/
def hilbertPath (n m : ℕ) : List (List UInt64) :=
  (List.range (2 ^ (n * m))).map fun i => hilbertI2c n m (UInt64.ofNat i)

/-- The curve comes to every cell of the grid once, and from a cell it goes to one next to it. -/
theorem hilbertPath_walk (hn : 0 < n) (hn32 : n ≤ 32) (hpos : 0 < m) (hm : n * m ≤ 64) :
    (hilbertPath n m).Nodup ∧
      (∀ coord : List UInt64, coord.length = n → (∀ c ∈ coord, c.toNat < 2 ^ m) →
        coord ∈ hilbertPath n m) ∧
      (hilbertPath n m).IsChain (CellsTouch n) := by
  have hpow : 2 ^ (n * m) ≤ 2 ^ 64 := Nat.pow_le_pow_right Nat.two_pos hm
  have hnat : ∀ i < 2 ^ (n * m), (UInt64.ofNat i).toNat = i := by
    intro i hi
    rw [UInt64.toNat_ofNat', Nat.mod_eq_of_lt (hi.trans_le hpow)]
  refine ⟨?_, fun coord hlen hlt => ?_, ?_⟩
  · refine List.Nodup.map_on (fun i hi j hj hij => ?_) List.nodup_range
    rw [List.mem_range] at hi hj
    have heq := congrArg UInt64.toNat (congrArg (hilbertC2i n m) hij)
    rwa [hilbertC2i_hilbertI2c hn hn32 hpos hm (by rwa [hnat i hi]),
      hilbertC2i_hilbertI2c hn hn32 hpos hm (by rwa [hnat j hj]), hnat i hi, hnat j hj] at heq
  · refine List.mem_map.2 ⟨(hilbertC2i n m coord).toNat,
      List.mem_range.2 (hilbertC2i_lt hn hn32 hpos hm hlen hlt), ?_⟩
    rw [UInt64.ofNat_toNat, hilbertI2c_hilbertC2i hn hn32 hpos hm hlen hlt]
  · rw [hilbertPath, List.isChain_map, List.isChain_range]
    intro i hi
    have hnext : (UInt64.ofNat i).toNat + 1 < 2 ^ (n * m) := by
      rw [hnat i (by omega)]
      omega
    have htouch := cellsTouch_hilbertI2c hn hn32 hpos hm hnext
    rwa [show UInt64.ofNat i + 1 = UInt64.ofNat (i + 1) by rw [UInt64.ofNat_add]; rfl] at htouch

/-- The path through a cube of side 16. -/
theorem hilbertPath_walk_cube : (hilbertPath 3 4).Nodup ∧ [7, 0, 15] ∈ hilbertPath 3 4 ∧
    (hilbertPath 3 4).IsChain (CellsTouch 3) :=
  have h := hilbertPath_walk (n := 3) (m := 4) (by decide) (by decide) (by decide) (by decide)
  ⟨h.1, h.2.1 [7, 0, 15] rfl (by simp), h.2.2⟩

end DataSpaces
