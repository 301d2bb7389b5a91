import DataSpaces.CellCount
import DataSpaces.SfcCurve

/-!
# SfcCells — what the linearization relies on holds of `sfc.h`

The words of the cells of an aligned cube agree on the levels above it, so the cells have the indices with the
same highest digits.  The curve meets the corners of the cube first and last.
-/

namespace DataSpaces

variable {d nBits l : ℕ} {x : Cell}

/-! ## Cells and coordinates -/

theorem cellAt_of_lt {j : ℕ} (hj : j < BBOX_MAX_NDIM) : cellAt x j = x ⟨j, hj⟩ :=
  dif_pos hj

theorem cellAt_val (j : Fin BBOX_MAX_NDIM) : cellAt x j = x j :=
  dif_pos j.isLt

theorem InGrid.lt (hx : InGrid d nBits x) (hd : d ≤ BBOX_MAX_NDIM) {j : ℕ} (hj : j < d) :
    cellAt x j < 2 ^ nBits := by
  have hxj := hx ⟨j, hj.trans_le hd⟩
  rw [if_pos hj] at hxj
  rwa [cellAt_of_lt (hj.trans_le hd)]

theorem InGrid.ext {y : Cell} (hx : InGrid d nBits x) (hy : InGrid d nBits y)
    (h : ∀ j < d, cellAt x j = cellAt y j) : x = y := by
  funext j
  by_cases hj : j.val < d
  · have hxy := h j hj
    rwa [cellAt_of_lt j.isLt, cellAt_of_lt j.isLt] at hxy
  · have hxj := hx j
    have hyj := hy j
    rw [if_neg hj] at hxj hyj
    rw [hxj, hyj]

/-- The cell with the given coordinates. -/
def gridCell (d : ℕ) (c : ℕ → ℕ) : Cell :=
  fun j => if j.val < d then c j else 0

theorem cellAt_gridCell (hd : d ≤ BBOX_MAX_NDIM) (c : ℕ → ℕ) {j : ℕ} (hj : j < d) :
    cellAt (gridCell d c) j = c j := by
  rw [cellAt_of_lt (hj.trans_le hd), gridCell, if_pos hj]

theorem getD_cellCoord (hx : InGrid d nBits x) (hd : d ≤ BBOX_MAX_NDIM) (hbits : nBits ≤ 64) {j : ℕ}
    (hj : j < d) : ((cellCoord d x).getD j 0).toNat = cellAt x j := by
  have hlt := (hx.lt hd hj).trans_le (Nat.pow_le_pow_right Nat.two_pos hbits)
  rw [cellCoord, List.getD_eq_getElem?_getD, List.getElem?_map, List.getElem?_range hj, Option.map_some,
    Option.getD_some, UInt64.toNat_ofNat', Nat.mod_eq_of_lt hlt]

/-! ## The index -/

/-- The digits of the index of a cell. -/
def cellDigits (d nBits : ℕ) [NeZero d] (x : Cell) : List (Fin (2 ^ d)) :=
  (Hilbert.curve d).encode (Hilbert.start d) (Hilbert.words d (cellAt x) nBits)

theorem curveIndex_hilbertC2i [NeZero d] (hd : 1 < d) (hmax : d ≤ BBOX_MAX_NDIM) (hpos : 0 < nBits)
    (hbits : d * nBits ≤ 64) (hx : InGrid d nBits x) :
    curveIndex hilbertC2i d nBits x = Coder.number (cellDigits d nBits x) := by
  have h64 : nBits ≤ 64 := (Nat.le_mul_of_pos_left nBits (by omega)).trans hbits
  have hcoord : ∀ j < d, ((cellCoord d x).getD j 0).toNat < 2 ^ nBits := by
    intro j hj
    rw [getD_cellCoord hx hmax h64 hj]
    exact hx.lt hmax hj
  have hwords : Hilbert.words d (fun j => ((cellCoord d x).getD j 0).toNat) nBits =
      Hilbert.words d (cellAt x) nBits :=
    Hilbert.words_congr fun j hj => by rw [getD_cellCoord hx hmax h64 hj]
  have hmax32 : BBOX_MAX_NDIM ≤ 32 := by decide
  rw [curveIndex, hilbertC2i_eq hd (hmax.trans hmax32) hpos hbits hcoord, hwords]
  have hnat := toNat_indexOf (Hilbert.words d (cellAt x) nBits) (by rwa [Hilbert.length_words])
  exact hnat

/-! ## The cells of a cube -/

section Cube

variable {base : Cell}

theorem mem_cubeAt : x ∈ cubeAt d base l ↔
    ∀ j : Fin BBOX_MAX_NDIM, if j.val < d then base j ≤ x j ∧ x j ≤ base j + 2 ^ l - 1 else x j = 0 := by
  rw [cubeAt, Grid.Rect.mem_cells]
  refine forall_congr' fun j => ?_
  simp only
  split
  · exact Iff.rfl
  · omega

section Aligned

variable (hmax : d ≤ BBOX_MAX_NDIM) (hbase : InGrid d nBits base)
  (hal : ∀ j : Fin BBOX_MAX_NDIM, j.val < d → 2 ^ l ∣ base j ∧ base j + 2 ^ l ≤ 2 ^ nBits)

include hal in
theorem inGrid_of_mem_cubeAt (hx : x ∈ cubeAt d base l) : InGrid d nBits x := by
  intro j
  have hxj := mem_cubeAt.1 hx j
  have hl := Nat.two_pow_pos l
  split
  · next hj =>
      rw [if_pos hj] at hxj
      have := (hal j hj).2
      omega
  · next hj => rwa [if_neg hj] at hxj

/-- The cell of the cube whose words below the cube are `ws`. -/
def cubeCell (d : ℕ) (base : Cell) (ws : List (BitVec d)) : Cell :=
  gridCell d fun j => cellAt base j + Hilbert.coordinate ws j

theorem cubeCell_mem {ws : List (BitVec d)} (hws : ws.length = l) : cubeCell d base ws ∈ cubeAt d base l := by
  refine mem_cubeAt.2 fun j => ?_
  have hlt := Hilbert.coordinate_lt ws j
  rw [hws] at hlt
  rw [cubeCell, gridCell]
  split
  · rw [cellAt_val]
    omega
  · rfl

include hmax hal in
/-- The words of a cell of the cube on the levels above it. -/
theorem words_of_mem_cubeAt {k : ℕ} (hk : l + k = nBits) (hx : x ∈ cubeAt d base l) :
    Hilbert.words d (cellAt x) nBits =
      Hilbert.words d (fun j => cellAt base j / 2 ^ l) k ++ Hilbert.words d (cellAt x) l := by
  rw [← hk, Hilbert.words_add]
  refine congrArg (· ++ _) (Hilbert.words_congr fun j hj => ?_)
  have hxj := mem_cubeAt.1 hx ⟨j, hj.trans_le hmax⟩
  rw [if_pos hj, ← cellAt_val (x := base), ← cellAt_val (x := x)] at hxj
  simp only at hxj
  rcases (hal ⟨j, hj.trans_le hmax⟩ hj).1 with ⟨q, hq⟩
  rw [← cellAt_val (x := base)] at hq
  simp only at hq
  have hl := Nat.two_pow_pos l
  have hdiv : cellAt x j / 2 ^ l = q := by
    refine Nat.div_eq_of_lt_le ?_ ?_
    · rw [Nat.mul_comm]
      omega
    · rw [Nat.succ_mul, Nat.mul_comm]
      omega
  rw [hdiv, hq, Nat.mul_div_cancel_left _ hl]

include hmax hal in
theorem words_cubeCell {ws : List (BitVec d)} (hws : ws.length = l) :
    Hilbert.words d (cellAt (cubeCell d base ws)) l = ws := by
  rw [← hws]
  nth_rewrite 3 [← Hilbert.words_coordinate ws]
  refine Hilbert.words_congr fun j hj => ?_
  rcases (hal ⟨j, hj.trans_le hmax⟩ hj).1 with ⟨q, hq⟩
  rw [← cellAt_val (x := base)] at hq
  rw [cubeCell, cellAt_gridCell hmax _ hj, hws, hq, Nat.add_comm, Nat.add_mul_mod_self_left]

/-- The corner of the cube with the given word on every level. -/
def cornerCell (d : ℕ) (base : Cell) (l : ℕ) (w : BitVec d) : Cell :=
  cubeCell d base (List.replicate l w)

theorem coordinate_replicate (w : BitVec d) (j : ℕ) :
    Hilbert.coordinate (List.replicate l w) j = if w.getLsbD j then 2 ^ l - 1 else 0 := by
  rw [Hilbert.coordinate, List.map_replicate]
  have htop := Coder.number_replicate_top (rfl : ((1 : Fin 2) : ℕ) + 1 = 2) l
  split
  · omega
  · exact Coder.number_replicate_zero rfl l

theorem cornerCell_isCorner (w : BitVec d) : IsCorner d base l (cornerCell d base l w) := by
  intro j
  have hl := Nat.two_pow_pos l
  simp only [cornerCell, cubeCell, gridCell, coordinate_replicate]
  split
  · rw [cellAt_val]
    split
    · right
      omega
    · exact Or.inl rfl
  · rfl

/-- How the curve lies in the cube. -/
def cubePose (d : ℕ) [NeZero d] (base : Cell) (l k : ℕ) : Hilbert.Pose d :=
  (Hilbert.curve d).after (Hilbert.start d) (Hilbert.words d (fun j => cellAt base j / 2 ^ l) k)

/-- The highest digits of the indices of its cells. -/
def cubeDigits (d : ℕ) [NeZero d] (base : Cell) (l k : ℕ) : List (Fin (2 ^ d)) :=
  (Hilbert.curve d).encode (Hilbert.start d) (Hilbert.words d (fun j => cellAt base j / 2 ^ l) k)

variable [NeZero d] {k : ℕ}

include hmax hal in
theorem cellDigits_of_mem_cubeAt (hk : l + k = nBits) (hx : x ∈ cubeAt d base l) :
    cellDigits d nBits x = cubeDigits d base l k ++
      (Hilbert.curve d).encode (cubePose d base l k) (Hilbert.words d (cellAt x) l) := by
  rw [cellDigits, words_of_mem_cubeAt hmax hal hk hx, Coder.encode_append]
  rfl

include hmax hal in
theorem cellDigits_cubeCell (hk : l + k = nBits) {ws : List (BitVec d)} (hws : ws.length = l) :
    cellDigits d nBits (cubeCell d base ws) = cubeDigits d base l k ++
      (Hilbert.curve d).encode (cubePose d base l k) ws := by
  rw [cellDigits_of_mem_cubeAt hmax hal hk (cubeCell_mem hws), words_cubeCell hmax hal hws]

theorem mem_image_index (hd : 1 < d) (hmax : d ≤ BBOX_MAX_NDIM) (hpos : 0 < nBits) (hbits : d * nBits ≤ 64)
    (hal : ∀ j : Fin BBOX_MAX_NDIM, j.val < d → 2 ^ l ∣ base j ∧ base j + 2 ^ l ≤ 2 ^ nBits)
    (hk : l + k = nBits) (p : ℕ) :
    p ∈ (cubeAt d base l).image (curveIndex hilbertC2i d nBits) ↔
      Coder.number (cubeDigits d base l k) * (2 ^ d) ^ l ≤ p ∧
        p < (Coder.number (cubeDigits d base l k) + 1) * (2 ^ d) ^ l := by
  rw [cubeDigits, ← Coder.mem_block, Finset.mem_image]
  constructor
  · rintro ⟨x, hx, rfl⟩
    refine ⟨Hilbert.words d (cellAt x) l, Hilbert.length_words _ _, ?_⟩
    rw [curveIndex_hilbertC2i hd hmax hpos hbits (inGrid_of_mem_cubeAt hal hx), cellDigits,
      words_of_mem_cubeAt hmax hal hk hx]
  · rintro ⟨ws, hws, rfl⟩
    have hmem : cubeCell d base ws ∈ cubeAt d base l := cubeCell_mem hws
    refine ⟨cubeCell d base ws, hmem, ?_⟩
    rw [curveIndex_hilbertC2i hd hmax hpos hbits (inGrid_of_mem_cubeAt hal hmem),
      cellDigits_cubeCell hmax hal hk hws, Coder.encode_append]
    rfl

theorem curveIndex_cornerCell (hd : 1 < d) (hmax : d ≤ BBOX_MAX_NDIM) (hpos : 0 < nBits)
    (hbits : d * nBits ≤ 64)
    (hal : ∀ j : Fin BBOX_MAX_NDIM, j.val < d → 2 ^ l ∣ base j ∧ base j + 2 ^ l ≤ 2 ^ nBits)
    (hk : l + k = nBits) (w : BitVec d) :
    curveIndex hilbertC2i d nBits (cornerCell d base l w) = Coder.number (cubeDigits d base l k) * (2 ^ d) ^ l +
      Coder.number ((Hilbert.curve d).encode (cubePose d base l k) (List.replicate l w)) := by
  have hlen : (List.replicate l w).length = l := List.length_replicate
  rw [cornerCell, curveIndex_hilbertC2i hd hmax hpos hbits (inGrid_of_mem_cubeAt hal (cubeCell_mem hlen)),
    cellDigits_cubeCell hmax hal hk hlen, Coder.number_append, Coder.length_encode, hlen]

end Aligned

/-! ## The assumption -/

/-- In more than one dimension. -/
theorem hilbertCurve_of_one_lt (hd : 1 < d) (hmax : d ≤ BBOX_MAX_NDIM) (hpos : 0 < nBits)
    (hbits : d * nBits ≤ 64) : HilbertCurve hilbertC2i d nBits where
  injective := by
    have : NeZero d := ⟨by omega⟩
    intro x y hx hy hxy
    rw [curveIndex_hilbertC2i hd hmax hpos hbits hx, curveIndex_hilbertC2i hd hmax hpos hbits hy] at hxy
    have hdigits := Coder.number_injective (by simp [cellDigits]) hxy
    have hwords := Coder.encode_injective _ hdigits
    refine hx.ext hy fun j hj => ?_
    have hcoord := congrFun (congrArg Hilbert.coordinate hwords) j
    rwa [Hilbert.coordinate_words _ _ hj, Hilbert.coordinate_words _ _ hj, Nat.mod_eq_of_lt (hx.lt hmax hj),
      Nat.mod_eq_of_lt (hy.lt hmax hj)] at hcoord
  subcube := by
    have : NeZero d := ⟨by omega⟩
    intro base l hbase hal
    have hl : l ≤ nBits := by
      have hpow := (hal ⟨0, by decide⟩ (show 0 < d by omega)).2
      exact (Nat.pow_le_pow_iff_right Nat.one_lt_two).1 ((Nat.le_add_left _ _).trans hpow)
    have hk : l + (nBits - l) = nBits := Nat.add_sub_cancel' hl
    have hpow : 0 < (2 ^ d) ^ l := Nat.pow_pos (Nat.two_pow_pos d)
    -- the index runs from zeros to the largest digits below the digits of the cube
    have hfirst : curveIndex hilbertC2i d nBits (cornerCell d base l (cubePose d base l (nBits - l)).first) =
        Coder.number (cubeDigits d base l (nBits - l)) * (2 ^ d) ^ l := by
      rw [curveIndex_cornerCell hd hmax hpos hbits hal hk, ← Hilbert.decode_zeros, Coder.encode_decode,
        Coder.number_replicate_zero (Hilbert.val_zero d), Nat.add_zero]
    have hlast : curveIndex hilbertC2i d nBits (cornerCell d base l (cubePose d base l (nBits - l)).last) + 1 =
        (Coder.number (cubeDigits d base l (nBits - l)) + 1) * (2 ^ d) ^ l := by
      rw [curveIndex_cornerCell hd hmax hpos hbits hal hk, ← Hilbert.decode_tops, Coder.encode_decode,
        Nat.add_assoc, Coder.number_replicate_top (Hilbert.val_top d), Nat.succ_mul]
    refine ⟨cornerCell d base l (cubePose d base l (nBits - l)).first,
      cornerCell d base l (cubePose d base l (nBits - l)).last, cornerCell_isCorner _, cornerCell_isCorner _,
      ?_, fun hpos' heq => ?_⟩
    · ext p
      rw [mem_image_index hd hmax hpos hbits hal hk, Finset.mem_Icc, hfirst, ← hlast, Nat.lt_succ_iff]
    · -- the last word has a bit, and there the corner is above the base
      have hne := (cubePose d base l (nBits - l)).last_ne_zero
      apply hne
      refine BitVec.eq_of_getLsbD_eq fun j hj => ?_
      have hcoord := congrArg (fun x => cellAt x j) heq
      simp only [cornerCell, cubeCell] at hcoord
      rw [cellAt_gridCell hmax _ hj, coordinate_replicate] at hcoord
      have hside : 2 ≤ 2 ^ l := Nat.le_self_pow (by omega) 2
      rw [BitVec.getLsbD_zero]
      by_contra hset
      rw [Bool.not_eq_false] at hset
      rw [hset] at hcoord
      simp at hcoord
      omega

/-- A grid of one cell. -/
theorem hilbertCurve_zero_bits (c2i : HilbertC2i) (hpos : 0 < d) (hmax : d ≤ BBOX_MAX_NDIM) :
    HilbertCurve c2i d 0 := by
  have hcell : ∀ x y, InGrid d 0 x → InGrid d 0 y → x = y := by
    intro x y hx hy
    refine hx.ext hy fun j hj => ?_
    rw [Nat.lt_one_iff.1 (hx.lt hmax hj), Nat.lt_one_iff.1 (hy.lt hmax hj)]
  refine ⟨fun x y hx hy _ => hcell x y hx hy, fun base l hbase hal => ?_⟩
  have hl : l = 0 := by
    have hpow := (hal ⟨0, by decide⟩ hpos).2
    exact Nat.le_zero.1 ((Nat.pow_le_pow_iff_right Nat.one_lt_two).1 ((Nat.le_add_left _ _).trans hpow))
  subst hl
  have hcube : cubeAt d base 0 = {base} := by
    ext x
    rw [Finset.mem_singleton]
    constructor
    · exact fun hx => hcell x base (inGrid_of_mem_cubeAt hal hx) hbase
    · rintro rfl
      refine mem_cubeAt.2 fun j => ?_
      have hxj := hbase j
      split
      · omega
      · next hj => rwa [if_neg hj] at hxj
  have hcorner : IsCorner d base 0 base := by
    intro j
    have hxj := hbase j
    split
    · exact Or.inl rfl
    · next hj => rwa [if_neg hj] at hxj
  refine ⟨base, base, hcorner, hcorner, ?_, fun h => absurd h (Nat.lt_irrefl 0)⟩
  rw [hcube, Finset.image_singleton, Finset.Icc_self]

/-- As long as the index of a cell fits a word. -/
theorem hilbertCurve_hilbertC2i (hpos : 0 < d) (hmax : d ≤ BBOX_MAX_NDIM) (hbits : d * nBits ≤ 64) :
    HilbertCurve hilbertC2i d nBits := by
  rcases Nat.eq_zero_or_pos nBits with rfl | hnBits
  · exact hilbertCurve_zero_bits hilbertC2i hpos hmax
  rcases Nat.lt_or_ge 1 d with hd | hone
  · exact hilbertCurve_of_one_lt hd hmax hnBits hbits
  · -- in one dimension the index is the coordinate
    obtain rfl : d = 1 := by omega
    have hline : HilbertCurve lineC2i 1 nBits := hilbertCurve_lineC2i (by omega)
    have heq : curveIndex hilbertC2i 1 nBits = curveIndex lineC2i 1 nBits := by
      funext x
      rw [curveIndex, hilbertC2i, if_neg (Nat.lt_irrefl 1)]
      rfl
    exact ⟨by rw [heq]; exact hline.injective, by rw [heq]; exact hline.subcube⟩

/-- The curve of `sfc.h` numbers the cells of every aligned cube consecutively, from a corner to a corner,
exactly as long as the index of a cell fits a word. -/
theorem hilbertCurve_hilbertC2i_iff (hpos : 0 < d) (hmax : d ≤ BBOX_MAX_NDIM) :
    HilbertCurve hilbertC2i d nBits ↔ d * nBits ≤ 64 :=
  ⟨fun hh => hh.bits_le hmax, fun hbits => hilbertCurve_hilbertC2i hpos hmax hbits⟩

/-- In three dimensions it takes coordinates of 21 bits, and none of 22. -/
theorem hilbertCurve_hilbertC2i_cube : HilbertCurve hilbertC2i 3 21 ∧ ¬HilbertCurve hilbertC2i 3 22 :=
  ⟨(hilbertCurve_hilbertC2i_iff (by decide) (by decide)).2 (by decide),
    fun h => absurd ((hilbertCurve_hilbertC2i_iff (by decide) (by decide)).1 h) (by decide)⟩

end Cube

end DataSpaces
