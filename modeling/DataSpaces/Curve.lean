import DataSpaces.Cubes
import DataSpaces.Lib.Segments

/-!
# Curve — boxes as intervals of Hilbert indices

What the linearization relies on is that the curve numbers the cells of every aligned cube
consecutively, that the first and the last of them sit in corners, and that the last one is not the
lower corner.  Under that assumption `bbox_flat` turns a cube into exactly the interval of its
indices, and `bbox_to_intv` turns a box into the sorted list of the indices of its cells.
-/

namespace DataSpaces

/-! ## The assumption on the curve -/

/-- Coordinate `j` of a cell. -/
def cellAt (x : Cell) (j : Nat) : ℕ :=
  if h : j < BBOX_MAX_NDIM then x ⟨j, h⟩ else 0

/-- The coordinate array handed to `hilbert_c2i`. -/
def cellCoord (d : Nat) (x : Cell) : List UInt64 :=
  (List.range d).map fun j => UInt64.ofNat (cellAt x j)

/-- The Hilbert index of a cell. -/
def curveIndex (hilbertC2i : HilbertC2i) (d nBits : Nat) (x : Cell) : ℕ :=
  (hilbertC2i d nBits (cellCoord d x)).toNat

/-- The cells with `d` coordinates of `nBits` bits. -/
def InGrid (d nBits : Nat) (x : Cell) : Prop :=
  ∀ j : Fin BBOX_MAX_NDIM, if j.val < d then x j < 2 ^ nBits else x j = 0

/-- The aligned cube of side `2 ^ l` at `base`. -/
def cubeAt (d : Nat) (base : Cell) (l : Nat) : Finset Cell :=
  Grid.Rect.cells
    { lo := fun j => if j.val < d then base j else 0
      hi := fun j => if j.val < d then base j + 2 ^ l - 1 else 0 }

/-- A corner of that cube. -/
def IsCorner (d : Nat) (base : Cell) (l : Nat) (a : Cell) : Prop :=
  ∀ j : Fin BBOX_MAX_NDIM,
    if j.val < d then a j = base j ∨ a j = base j + 2 ^ l - 1 else a j = 0

/-- What is assumed of `hilbert_c2i` for `d` coordinates of `nBits` bits. -/
structure HilbertCurve (hilbertC2i : HilbertC2i) (d nBits : Nat) : Prop where
  injective : ∀ x y, InGrid d nBits x → InGrid d nBits y →
    curveIndex hilbertC2i d nBits x = curveIndex hilbertC2i d nBits y → x = y
  subcube : ∀ (base : Cell) (l : Nat), InGrid d nBits base →
    (∀ j : Fin BBOX_MAX_NDIM, j.val < d → 2 ^ l ∣ base j ∧ base j + 2 ^ l ≤ 2 ^ nBits) →
    ∃ first last, IsCorner d base l first ∧ IsCorner d base l last ∧
      (cubeAt d base l).image (curveIndex hilbertC2i d nBits) =
        Finset.Icc (curveIndex hilbertC2i d nBits first) (curveIndex hilbertC2i d nBits last) ∧
      (0 < l → last ≠ base)

section Bits

variable {hilbertC2i : HilbertC2i}

theorem card_cubeAt_zero {d : Nat} (hd : d ≤ BBOX_MAX_NDIM) (n : Nat) :
    (cubeAt d 0 n).card = 2 ^ (d * n) := by
  have hside : ∀ i : Fin BBOX_MAX_NDIM,
      ((if i.val < d then (0 : Cell) i + 2 ^ n - 1 else 0) + 1 -
        if i.val < d then (0 : Cell) i else 0) = if i.val < d then 2 ^ n else 1 := by
    intro i
    have := Nat.two_pow_pos n
    split
    · rw [Pi.zero_apply]
      omega
    · rfl
  have hfilter : (Finset.range BBOX_MAX_NDIM).filter (fun i => i < d) = Finset.range d := by
    ext i
    simp only [Finset.mem_filter, Finset.mem_range]
    omega
  rw [cubeAt, Grid.Rect.card_cells, Finset.prod_congr rfl fun i _ => hside i,
    ← Finset.prod_range fun i => if i < d then 2 ^ n else 1, ← Finset.prod_filter, hfilter,
    Finset.prod_const, Finset.card_range, ← Nat.pow_mul, Nat.mul_comm]

/-- A curve has no more indices than there are 64-bit words. -/
theorem HilbertCurve.bits_le {d n : Nat} (hd : d ≤ BBOX_MAX_NDIM)
    (hh : HilbertCurve hilbertC2i d n) : d * n ≤ 64 := by
  have hgrid : ∀ x ∈ cubeAt d 0 n, InGrid d n x := by
    intro x hx j
    have hpos := Nat.two_pow_pos n
    have hxj := Grid.Rect.mem_cells.1 hx j
    simp only [Pi.zero_apply] at hxj
    split
    · next hj =>
        rw [if_pos hj, if_pos hj] at hxj
        omega
    · next hj =>
        rw [if_neg hj, if_neg hj] at hxj
        omega
  -- as many indices as cells, all of them words
  have hcard : (cubeAt d 0 n).card ≤ (Finset.range (2 ^ 64)).card :=
    Finset.card_le_card_of_injOn (curveIndex hilbertC2i d n)
      (fun x _ => Finset.mem_coe.2 (Finset.mem_range.2 (UInt64.toNat_lt _)))
      fun x hx y hy hxy => hh.injective x y (hgrid x hx) (hgrid y hy) hxy
  rw [card_cubeAt_zero hd, Finset.card_range] at hcard
  exact (Nat.pow_le_pow_iff_right (by norm_num)).1 hcard

end Bits

/-! ## One cube -/

/-- The interval as a segment of naturals. -/
def Intv.seg (i : Intv) : Seg :=
  ⟨i.lb.toNat, i.ub.toNat⟩

/-- The running lower end is the smallest index seen. -/
theorem foldl_flatStep_lb {m : UInt64} (xs : List UInt64) :
    ∀ itv : Intv, m ≤ itv.lb → (∀ x ∈ xs, m ≤ x) → (m ∈ xs ∨ itv.lb = m) →
      (xs.foldl flatStep itv).lb = m := by
  induction xs with
  | nil =>
      intro itv _ _ hm
      simpa using hm
  | cons x xs ih =>
      intro itv hlb hxs hm
      have hx : m ≤ x := hxs x (by simp)
      refine ih (flatStep itv x) ?_ (fun y hy => hxs y (by simp [hy])) ?_
      · simp only [flatStep]
        split
        · exact hx
        · split <;> exact hlb
      · rcases hm with hm | hm
        · rcases List.mem_cons.1 hm with rfl | hm
          · right
            simp only [flatStep]
            split
            · rfl
            · next hnlt =>
                -- the smallest index does not replace an equal one
                have heq : itv.lb = m := UInt64.le_antisymm (UInt64.not_lt.1 hnlt) hlb
                split <;> exact heq
          · exact Or.inl hm
        · right
          simp only [flatStep]
          split
          · next hlt =>
              rw [hm] at hlt
              exact absurd hlt (UInt64.not_lt.2 hx)
          · split <;> exact hm

/-- The running upper end is the largest index seen, provided it comes after a smaller or equal
one. -/
theorem foldl_flatStep_ub {M : UInt64} (xs : List UInt64) :
    ∀ itv : Intv, itv.lb ≤ M → itv.ub ≤ M → (∀ x ∈ xs, x ≤ M) → (M ∈ xs ∨ itv.ub = M) →
      (xs.foldl flatStep itv).ub = M := by
  induction xs with
  | nil =>
      intro itv _ _ _ hM
      simpa using hM
  | cons x xs ih =>
      intro itv hlb hub hxs hM
      have hx : x ≤ M := hxs x (by simp)
      refine ih (flatStep itv x) ?_ ?_ (fun y hy => hxs y (by simp [hy])) ?_
      · simp only [flatStep]
        split
        · exact hx
        · split <;> exact hlb
      · simp only [flatStep]
        split
        · exact hub
        · split
          · exact hx
          · exact hub
      · rcases hM with hM | hM
        · rcases List.mem_cons.1 hM with rfl | hM
          · right
            simp only [flatStep]
            -- an index that lowers the lower end is not compared with the upper end
            rw [if_neg (UInt64.not_lt.2 hlb)]
            split
            · rfl
            · next hngt => exact UInt64.le_antisymm hub (UInt64.not_lt.1 hngt)
          · exact Or.inl hM
        · right
          simp only [flatStep]
          split
          · exact hM
          · split
            · next hgt =>
                rw [hM] at hgt
                exact absurd hgt (UInt64.not_lt.2 hx)
            · exact hM

section Flat

variable {hilbertC2i : HilbertC2i} {k d l nBits : Nat} {b : BBox}

/-- The lower corner of a box as a cell. -/
def BBox.lowCell (b : BBox) : Cell :=
  b.rect.lo

/-- Corner number `i` of a box as a cell. -/
def BBox.cornerCell (b : BBox) (i : Nat) : Cell := fun j =>
  if j.val < b.numDims then if i.testBit j then (b.ub.c j).toNat else (b.lb.c j).toNat else 0

theorem sfcCoord_eq (hdims : b.numDims ≤ BBOX_MAX_NDIM) (i : Nat) :
    sfcCoord b i = cellCoord b.numDims (b.cornerCell i) := by
  refine List.map_congr_left fun j hj => ?_
  have hj := List.mem_range.1 hj
  have hlt : j < BBOX_MAX_NDIM := lt_of_lt_of_le hj hdims
  simp only [cellAt, hlt, dite_true, BBox.cornerCell, hj, if_true]
  split <;> simp

theorem IsCube.cells_eq (h : IsCube k d l b) : b.cells = cubeAt d b.lowCell l := by
  ext x
  simp only [BBox.cells, cubeAt, Grid.Rect.mem_cells, BBox.lowCell, BBox.rect, h.dims]
  refine forall_congr' fun j => ?_
  by_cases hj : j.val < d
  · have := h.side j hj
    have := Nat.two_pow_pos l
    simp only [hj, if_true]
    omega
  · simp [hj]

/-- Every corner of a cube has a number. -/
theorem IsCube.exists_corner (hd : CubeDims k d) (h : IsCube k d l b) {a : Cell}
    (ha : IsCorner d b.lowCell l a) :
    ∃ i < 2 ^ d, b.cornerCell i = a ∧ (a ≠ b.lowCell → 0 < i) := by
  let bits : Fin d → Bool := fun j =>
    decide (a ⟨j, lt_of_lt_of_le j.isLt hd.le⟩ ≠ b.lowCell ⟨j, lt_of_lt_of_le j.isLt hd.le⟩)
  -- a set bit is a dimension in which the corner lies at the upper end
  have hcorner : b.cornerCell (Nat.ofBits bits) = a := by
    funext j
    have haj := ha j
    simp only [BBox.cornerCell, h.dims]
    by_cases hj : j.val < d
    · have hside := h.side j hj
      have hl := Nat.two_pow_pos l
      have hlow : b.lowCell j = (b.lb.c j).toNat := by
        simp [BBox.lowCell, BBox.rect, h.dims, hj]
      rw [if_pos hj] at haj ⊢
      rw [Nat.testBit_ofBits_lt bits j.val hj]
      by_cases heq : a j = b.lowCell j
      · simp only [bits, heq, ne_eq, not_true_eq_false, decide_false, Bool.false_eq_true, if_false]
        exact hlow.symm
      · have haj' := haj.resolve_left heq
        simp only [bits, ne_eq, heq, not_false_eq_true, decide_true, if_true]
        omega
    · rw [if_neg hj] at haj ⊢
      exact haj.symm
  refine ⟨Nat.ofBits bits, Nat.ofBits_lt_two_pow bits, hcorner, fun hne => ?_⟩
  rcases Nat.eq_zero_or_pos (Nat.ofBits bits) with hzero | hpos
  · refine absurd ?_ hne
    rw [← hcorner, hzero]
    funext j
    simp [BBox.cornerCell, BBox.lowCell, BBox.rect]
  · exact hpos

theorem IsCube.lowCell_inGrid (h : IsCube k d l b) (hbits : k ≤ nBits) :
    InGrid d nBits b.lowCell := by
  intro j
  by_cases hj : j.val < d
  · have hbound := h.bound j hj
    have hside := h.side j hj
    have hl := Nat.two_pow_pos l
    have hpow : 2 ^ k ≤ 2 ^ nBits := Nat.pow_le_pow_right (by norm_num) hbits
    simp only [hj, if_true, BBox.lowCell, BBox.rect, h.dims]
    omega
  · simp [hj, BBox.lowCell, BBox.rect, h.dims]

/-- `bbox_flat` of an aligned cube is the interval of the indices of its cells. -/
theorem bboxFlat_points (hh : HilbertCurve hilbertC2i d nBits) (hd : CubeDims k d)
    (h : IsCube k d l b) (hbits : k ≤ nBits) :
    (bboxFlat hilbertC2i nBits b).seg.points =
        b.cells.image (curveIndex hilbertC2i d nBits) ∧
      (bboxFlat hilbertC2i nBits b).seg.lo ≤ (bboxFlat hilbertC2i nBits b).seg.hi := by
  have hpow : 2 ^ k ≤ 2 ^ nBits := Nat.pow_le_pow_right (by norm_num) hbits
  have haligned : ∀ j : Fin BBOX_MAX_NDIM, j.val < d →
      2 ^ l ∣ b.lowCell j ∧ b.lowCell j + 2 ^ l ≤ 2 ^ nBits := by
    intro j hj
    have hbound := h.bound j hj
    have hside := h.side j hj
    simp only [BBox.lowCell, BBox.rect, h.dims, hj, if_true]
    exact ⟨h.aligned j hj, by omega⟩
  obtain ⟨first, last, hfirst, hlast, himg, hne⟩ :=
    hh.subcube b.lowCell l (h.lowCell_inGrid hbits) haligned
  rw [← h.cells_eq] at himg
  obtain ⟨i, hi, hia, -⟩ := h.exists_corner hd hfirst
  obtain ⟨i', hi', hia', hpos⟩ := h.exists_corner hd hlast
  -- the list of corner indices, and the bounds on it
  let ix : Nat → UInt64 := fun i => hilbertC2i d nBits (cellCoord d (b.cornerCell i))
  have hlist : ((List.range (2 ^ b.numDims)).map fun i =>
      hilbertC2i b.numDims nBits (sfcCoord b i)) = (List.range (2 ^ d)).map ix := by
    rw [h.dims]
    refine List.map_congr_left fun i _ => ?_
    rw [sfcCoord_eq (h.dims ▸ hd.le), h.dims]
  have hcornerMem : ∀ i, b.cornerCell i ∈ b.cells := by
    intro i
    refine BBox.mem_cells.2 ⟨fun j hj => ?_, fun j hj => ?_⟩
    · have hside := h.side j (h.dims ▸ hj)
      have hl := Nat.two_pow_pos l
      simp only [BBox.cornerCell, hj, if_true]
      split <;> omega
    · simp [BBox.cornerCell, Nat.not_lt.2 hj]
  have hrange : ∀ i, ix i' ≥ ix i ∧ ix i ≥ hilbertC2i d nBits (cellCoord d first) := by
    intro i
    have hmem : curveIndex hilbertC2i d nBits (b.cornerCell i) ∈
        Finset.Icc (curveIndex hilbertC2i d nBits first) (curveIndex hilbertC2i d nBits last) := by
      rw [← himg]
      exact Finset.mem_image_of_mem _ (hcornerMem i)
    rw [Finset.mem_Icc] at hmem
    refine ⟨UInt64.le_iff_toNat_le.2 ?_, UInt64.le_iff_toNat_le.2 hmem.1⟩
    simp only [ix, hia']
    exact hmem.2
  have hlb : (bboxFlat hilbertC2i nBits b).lb = ix i := by
    rw [bboxFlat, hlist]
    refine foldl_flatStep_lb _ _ ?_ ?_ ?_
    · exact UInt64.le_iff_toNat_le.2 (Nat.le_of_lt_succ (ix i).toNat_lt)
    · intro x hx
      obtain ⟨i₁, -, rfl⟩ := List.mem_map.1 hx
      simp only [ix, hia]
      exact (hrange i₁).2
    · exact Or.inl (List.mem_map.2 ⟨i, List.mem_range.2 hi, rfl⟩)
  have hub : (bboxFlat hilbertC2i nBits b).ub = ix i' := by
    rw [bboxFlat, hlist]
    -- the first corner only sets the lower end; the last index comes from a later corner
    have hsplit : (List.range (2 ^ d)).map ix =
        ix 0 :: (List.range (2 ^ d - 1)).map fun i => ix (i + 1) := by
      have hsucc : 2 ^ d = (2 ^ d - 1) + 1 := by
        have := Nat.two_pow_pos d
        omega
      rw [hsucc, List.range_succ_eq_map, List.map_cons, List.map_map]
      rfl
    have hlater : ix i' ∈ (List.range (2 ^ d - 1)).map fun i => ix (i + 1) := by
      have h2 : 2 ^ 1 ≤ 2 ^ d := Nat.pow_le_pow_right (by norm_num) hd.pos
      rcases Nat.eq_zero_or_pos i' with hz | hpos'
      · -- then the cube is one cell and all corners coincide
        have hl0 : l = 0 := by
          by_contra hl
          have := hpos (hne (Nat.pos_of_ne_zero hl))
          omega
        subst hl0
        refine List.mem_map.2 ⟨0, List.mem_range.2 (by omega), ?_⟩
        simp only [ix]
        rw [h.eq_of_mem_zero (hcornerMem (0 + 1)) (hcornerMem i')]
      · exact List.mem_map.2 ⟨i' - 1, List.mem_range.2 (by omega), by
          rw [Nat.sub_add_cancel hpos']⟩
    rw [hsplit, List.foldl_cons]
    refine foldl_flatStep_ub _ _ ?_ ?_ ?_ (Or.inl hlater)
    · simp only [flatStep]
      split
      · exact (hrange 0).1
      · next hnlt =>
          have hmax : (0xffffffffffffffff : UInt64) ≤ ix i' :=
            UInt64.le_trans (UInt64.not_lt.1 hnlt) (hrange 0).1
          split <;> exact hmax
    · simp only [flatStep]
      split
      · exact UInt64.zero_le
      · split
        · exact (hrange 0).1
        · exact UInt64.zero_le
    · intro x hx
      obtain ⟨i₁, -, rfl⟩ := List.mem_map.1 hx
      exact (hrange (i₁ + 1)).1
  have hfirstIx : (ix i).toNat = curveIndex hilbertC2i d nBits first := by
    simp only [ix, hia]
    rfl
  have hlastIx : (ix i').toNat = curveIndex hilbertC2i d nBits last := by
    simp only [ix, hia']
    rfl
  refine ⟨?_, ?_⟩
  · rw [himg, Seg.points, Intv.seg, hlb, hub, hfirstIx, hlastIx]
  · simp only [Intv.seg, hlb, hub]
    exact UInt64.le_iff_toNat_le.1 (hrange i).1

end Flat

end DataSpaces
