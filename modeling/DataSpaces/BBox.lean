import Mathlib.Algebra.BigOperators.Fin
import Mathlib.Data.Nat.Bitwise
import DataSpaces.Lib.Cover
import DataSpaces.Lib.Grid

/-!
# BBox — bounding boxes (`bbox.c`, `bbox.h`)

A `struct bbox` keeps its two corners in arrays of `BBOX_MAX_NDIM` 64-bit values, of which only the
first `num_dims` count.  The operations loop over those, in unsigned 64-bit arithmetic.  What a box
means is its set of cells (`BBox.cells`); the coordinates past `num_dims` are pinned to `0` there, so
that boxes of one dimensionality live in one type of cells.
-/

namespace DataSpaces

abbrev BBOX_MAX_NDIM : Nat := 10

/-- The largest `int`. -/
abbrev INT_MAX : Nat := 2147483647

/-- `struct coord`: a fixed array of 64-bit values. -/
structure Coord where
  arr : Fin BBOX_MAX_NDIM → UInt64
  deriving DecidableEq

namespace Coord

/-- `x.c[i]`. -/
def c (x : Coord) (i : Nat) : UInt64 :=
  if h : i < BBOX_MAX_NDIM then x.arr ⟨i, h⟩ else 0

def ofFn (f : Nat → UInt64) : Coord where
  arr i := f i

/-- `x.c[i] = v`. -/
def set (x : Coord) (i : Nat) (v : UInt64) : Coord :=
  ofFn fun k => if k = i then v else x.c k

@[simp] theorem c_ofFn (f : Nat → UInt64) {i : Nat} (h : i < BBOX_MAX_NDIM) : (ofFn f).c i = f i := by
  simp [c, ofFn, h]

theorem c_set (x : Coord) (i : Nat) (v : UInt64) {k : Nat} (h : k < BBOX_MAX_NDIM) :
    (x.set i v).c k = if k = i then v else x.c k := by
  simp [set, h]

end Coord

/-- `struct bbox`. -/
structure BBox where
  numDims : Nat
  lb : Coord
  ub : Coord
  deriving DecidableEq

/-- The one-dimensional box `[lo, hi]`. -/
def BBox.line (lo hi : UInt64) : BBox where
  numDims := 1
  lb := Coord.ofFn fun i => if i = 0 then lo else 0
  ub := Coord.ofFn fun i => if i = 0 then hi else 0

/-! ## The operations -/

def coordDist (c0 c1 : Coord) (dim : Nat) : UInt64 :=
  c1.c dim - c0.c dim + 1

def bboxDist (bb : BBox) (dim : Nat) : UInt64 :=
  coordDist bb.lb bb.ub dim

/-- Split `b0` in two along dimension `dim`. -/
def bboxDivideIn2Ondim (b0 : BBox) (dim : Nat) : BBox × BBox :=
  let n := (b0.lb.c dim + b0.ub.c dim) >>> 1
  ({ b0 with ub := b0.ub.set dim n }, { b0 with lb := b0.lb.set dim (n + 1) })

/-- Sub-box number `i` of the split of `b0` in `2 ^ num_dims`: bit `j` of `i` picks the half along
dimension `j`. -/
def bboxDivideNth (b0 : BBox) (i : Nat) : BBox where
  numDims := b0.numDims
  lb := Coord.ofFn fun j =>
    if j < b0.numDims then
      if i.testBit j then (b0.lb.c j + b0.ub.c j) / 2 + 1 else b0.lb.c j
    else 0
  ub := Coord.ofFn fun j =>
    if j < b0.numDims then
      if i.testBit j then b0.ub.c j else (b0.lb.c j + b0.ub.c j) / 2
    else 0

def bboxDivide (b0 : BBox) : List BBox :=
  (List.range (2 ^ b0.numDims)).map (bboxDivideNth b0)

def bboxIncludeOndim (b0 b1 : BBox) (dim : Nat) : Bool :=
  b0.lb.c dim ≤ b1.lb.c dim && b0.ub.c dim ≥ b1.ub.c dim

def bboxInclude (b0 b1 : BBox) : Bool :=
  (List.range b0.numDims).all (bboxIncludeOndim b0 b1)

def bboxIntersectOndim (b0 b1 : BBox) (dim : Nat) : Bool :=
  (b0.lb.c dim ≤ b1.lb.c dim && b1.lb.c dim ≤ b0.ub.c dim) ||
    (b1.lb.c dim ≤ b0.lb.c dim && b0.lb.c dim ≤ b1.ub.c dim)

def bboxDoesIntersect (b0 b1 : BBox) : Bool :=
  (List.range b0.numDims).all (bboxIntersectOndim b0 b1)

/-- The box `bbox_intersect` stores in `b2`.  It is computed coordinate by coordinate, so it is the
same when `b2` is `b0` or `b1`. -/
def bboxIntersect (b0 b1 : BBox) : BBox where
  numDims := b0.numDims
  lb := Coord.ofFn fun i =>
    if i < b0.numDims then if b0.lb.c i > b1.lb.c i then b0.lb.c i else b1.lb.c i else 0
  ub := Coord.ofFn fun i =>
    if i < b0.numDims then if b0.ub.c i < b1.ub.c i then b0.ub.c i else b1.ub.c i else 0

def bboxEquals (bb0 bb1 : BBox) : Bool :=
  bb0.numDims == bb1.numDims &&
    (List.range bb0.numDims).all fun i =>
      !(bb0.lb.c i != bb1.lb.c i || bb0.ub.c i != bb1.ub.c i)

def bboxVolume (bb : BBox) : UInt64 :=
  (List.range bb.numDims).foldl (fun n i => n * coordDist bb.lb bb.ub i) 1

/-! ## Cells -/

/-- A cell of the grid; the coordinates past the dimensionality of a box are `0`. -/
abbrev Cell : Type := Fin BBOX_MAX_NDIM → ℕ

namespace BBox

/-- The box as a product of intervals of naturals. -/
def rect (b : BBox) : Grid.Rect (Fin BBOX_MAX_NDIM) where
  lo i := if i.val < b.numDims then (b.lb.c i).toNat else 0
  hi i := if i.val < b.numDims then (b.ub.c i).toNat else 0

/-- The cells a box denotes. -/
def cells (b : BBox) : Finset Cell :=
  b.rect.cells

/-- A usable dimensionality. -/
def DimsOk (b : BBox) : Prop :=
  1 ≤ b.numDims ∧ b.numDims ≤ BBOX_MAX_NDIM

/-- `lb <= ub` in every dimension. -/
structure Valid (b : BBox) : Prop where
  dims : b.DimsOk
  le : ∀ i < b.numDims, b.lb.c i ≤ b.ub.c i

/-- `lb <= ub + 1` in every dimension: valid, or empty by exactly one cell, as the upper half of a
box of one cell is. -/
structure NearValid (b : BBox) : Prop where
  dims : b.DimsOk
  le : ∀ i < b.numDims, (b.lb.c i).toNat ≤ (b.ub.c i).toNat + 1

theorem Valid.nearValid {b : BBox} (h : b.Valid) : b.NearValid where
  dims := h.dims
  le i hi := by
    have := UInt64.le_iff_toNat_le.1 (h.le i hi)
    omega

theorem mem_cells {b : BBox} {x : Cell} :
    x ∈ b.cells ↔
      (∀ i : Fin BBOX_MAX_NDIM, i.val < b.numDims →
        (b.lb.c i).toNat ≤ x i ∧ x i ≤ (b.ub.c i).toNat) ∧
      ∀ i : Fin BBOX_MAX_NDIM, b.numDims ≤ i.val → x i = 0 := by
  simp only [cells, Grid.Rect.mem_cells, rect]
  constructor
  · intro h
    refine ⟨fun i hi => by simpa [hi] using h i, fun i hi => ?_⟩
    have := h i
    simp only [Nat.not_lt.2 hi, if_false] at this
    omega
  · rintro ⟨hin, hout⟩ i
    by_cases hi : i.val < b.numDims
    · simpa [hi] using hin i hi
    · have := hout i (Nat.le_of_not_lt hi)
      simp [hi, this]

theorem Valid.cells_nonempty {b : BBox} (h : b.Valid) : b.cells.Nonempty := by
  refine Grid.Rect.cells_nonempty.2 fun i => ?_
  simp only [rect]
  split
  · next hi => exact UInt64.le_iff_toNat_le.1 (h.le i hi)
  · exact le_rfl

end BBox

theorem BBox.line_valid {lo hi : UInt64} (h : lo ≤ hi) : (BBox.line lo hi).Valid := by
  refine ⟨⟨le_refl 1, show 1 ≤ BBOX_MAX_NDIM by decide⟩, fun i hi' => ?_⟩
  obtain rfl : i = 0 := Nat.lt_one_iff.1 hi'
  exact h

/-! ## What the operations mean on cells -/

/-- Corner-wise minimum and maximum is intersection of cells, whatever the two boxes are. -/
theorem bboxIntersect_cells {b0 b1 : BBox} (hd : b0.numDims = b1.numDims) :
    (bboxIntersect b0 b1).cells = b0.cells ∩ b1.cells := by
  have hrect : (bboxIntersect b0 b1).rect = b0.rect.inter b1.rect := by
    have hlo : (bboxIntersect b0 b1).rect.lo = (b0.rect.inter b1.rect).lo := by
      funext i
      simp only [BBox.rect, Grid.Rect.inter, bboxIntersect, ← hd]
      by_cases hi : i.val < b0.numDims
      · -- the larger of the two lower bounds
        simp only [hi, if_true, Coord.c_ofFn _ i.isLt]
        split
        · next hgt =>
            have := UInt64.lt_iff_toNat_lt.1 hgt
            omega
        · next hgt =>
            have := UInt64.le_iff_toNat_le.1 (UInt64.not_lt.1 hgt)
            omega
      · simp [hi]
    have hhi : (bboxIntersect b0 b1).rect.hi = (b0.rect.inter b1.rect).hi := by
      funext i
      simp only [BBox.rect, Grid.Rect.inter, bboxIntersect, ← hd]
      by_cases hi : i.val < b0.numDims
      · -- the smaller of the two upper ones
        simp only [hi, if_true, Coord.c_ofFn _ i.isLt]
        split
        · next hlt =>
            have := UInt64.lt_iff_toNat_lt.1 hlt
            omega
        · next hlt =>
            have := UInt64.le_iff_toNat_le.1 (UInt64.not_lt.1 hlt)
            omega
      · simp [hi]
    cases h1 : (bboxIntersect b0 b1).rect
    cases h2 : b0.rect.inter b1.rect
    simp_all
  rw [BBox.cells, hrect, Grid.Rect.cells_inter]
  rfl

theorem bboxIntersectOndim_iff {b0 b1 : BBox} {dim : Nat} :
    bboxIntersectOndim b0 b1 dim = true ↔
      ((b0.lb.c dim).toNat ≤ (b1.lb.c dim).toNat ∧ (b1.lb.c dim).toNat ≤ (b0.ub.c dim).toNat) ∨
        ((b1.lb.c dim).toNat ≤ (b0.lb.c dim).toNat ∧
          (b0.lb.c dim).toNat ≤ (b1.ub.c dim).toNat) := by
  simp [bboxIntersectOndim, UInt64.le_iff_toNat_le]

theorem bboxDoesIntersect_iff_ondim {b0 b1 : BBox} :
    bboxDoesIntersect b0 b1 = true ↔ ∀ i < b0.numDims, bboxIntersectOndim b0 b1 i = true := by
  simp [bboxDoesIntersect]

/-- Two boxes that share a cell are always reported as intersecting. -/
theorem bboxDoesIntersect_of_mem {b0 b1 : BBox} (hd : b0.numDims = b1.numDims)
    (hdims : b0.DimsOk) {x : Cell} (h0 : x ∈ b0.cells) (h1 : x ∈ b1.cells) :
    bboxDoesIntersect b0 b1 = true := by
  refine bboxDoesIntersect_iff_ondim.2 fun i hi => bboxIntersectOndim_iff.2 ?_
  have hlt : i < BBOX_MAX_NDIM := lt_of_lt_of_le hi hdims.2
  have hx0 := (BBox.mem_cells.1 h0).1 ⟨i, hlt⟩ hi
  have hx1 := (BBox.mem_cells.1 h1).1 ⟨i, hlt⟩ (hd ▸ hi)
  simp only at hx0 hx1
  omega

/-- On valid boxes `bbox_does_intersect` says whether they share a cell. -/
theorem bboxDoesIntersect_iff {b0 b1 : BBox} (h0 : b0.Valid) (h1 : b1.Valid)
    (hd : b0.numDims = b1.numDims) :
    bboxDoesIntersect b0 b1 = true ↔ (b0.cells ∩ b1.cells).Nonempty := by
  constructor
  · intro h
    refine (Grid.Rect.inter_nonempty_iff b0.rect b1.rect).2 fun i => ?_
    simp only [BBox.rect, ← hd]
    by_cases hi : i.val < b0.numDims
    · have hov := bboxIntersectOndim_iff.1 (bboxDoesIntersect_iff_ondim.1 h i hi)
      have hle0 := UInt64.le_iff_toNat_le.1 (h0.le i hi)
      have hle1 := UInt64.le_iff_toNat_le.1 (h1.le i (hd ▸ hi))
      simp only [hi, if_true]
      omega
    · simp [hi]
  · rintro ⟨x, hx⟩
    exact bboxDoesIntersect_of_mem hd h0.dims (Finset.mem_inter.1 hx).1 (Finset.mem_inter.1 hx).2

theorem disjoint_of_bboxDoesIntersect {b0 b1 : BBox} (hdims : b0.DimsOk)
    (hd : b0.numDims = b1.numDims) (h : bboxDoesIntersect b0 b1 = false) :
    Disjoint b0.cells b1.cells := by
  rw [Finset.disjoint_left]
  intro x h0 h1
  rw [bboxDoesIntersect_of_mem hd hdims h0 h1] at h
  cases h

/-- The intersection with a valid box of a box that is reported to meet it is at worst empty by one
cell. -/
theorem bboxIntersect_nearValid {b0 b1 : BBox} (h0 : b0.Valid) (h1 : b1.NearValid)
    (hd : b0.numDims = b1.numDims) (h : bboxDoesIntersect b0 b1 = true) :
    (bboxIntersect b0 b1).NearValid := by
  refine ⟨h0.dims, fun i hi => ?_⟩
  have hi0 : i < b0.numDims := hi
  have hlt : i < BBOX_MAX_NDIM := lt_of_lt_of_le hi0 h0.dims.2
  have hov := bboxIntersectOndim_iff.1 (bboxDoesIntersect_iff_ondim.1 h i hi0)
  have hle0 := UInt64.le_iff_toNat_le.1 (h0.le i hi0)
  have hle1 := h1.le i (hd ▸ hi0)
  simp only [bboxIntersect, Coord.c_ofFn _ hlt, hi0, if_true]
  split <;> split <;> simp_all only [gt_iff_lt, UInt64.lt_iff_toNat_lt] <;> omega

theorem bboxIntersect_valid {b0 b1 : BBox} (h0 : b0.Valid) (h1 : b1.Valid)
    (hd : b0.numDims = b1.numDims) (h : bboxDoesIntersect b0 b1 = true) :
    (bboxIntersect b0 b1).Valid := by
  refine ⟨h0.dims, fun i hi => UInt64.le_iff_toNat_le.2 ?_⟩
  have hi0 : i < b0.numDims := hi
  have hlt : i < BBOX_MAX_NDIM := lt_of_lt_of_le hi0 h0.dims.2
  have hov := bboxIntersectOndim_iff.1 (bboxDoesIntersect_iff_ondim.1 h i hi0)
  have hle0 := UInt64.le_iff_toNat_le.1 (h0.le i hi0)
  have hle1 := UInt64.le_iff_toNat_le.1 (h1.le i (hd ▸ hi0))
  simp only [bboxIntersect, Coord.c_ofFn _ hlt, hi0, if_true]
  split <;> split <;> simp_all only [gt_iff_lt, UInt64.lt_iff_toNat_lt] <;> omega

theorem bboxInclude_iff_ondim {b0 b1 : BBox} : bboxInclude b0 b1 = true ↔ ∀ j < b0.numDims,
    (b0.lb.c j).toNat ≤ (b1.lb.c j).toNat ∧ (b1.ub.c j).toNat ≤ (b0.ub.c j).toNat := by
  simp [bboxInclude, bboxIncludeOndim, UInt64.le_iff_toNat_le]

theorem bboxInclude_iff {b0 b1 : BBox} (h1 : b1.Valid) (hd : b0.numDims = b1.numDims) :
    bboxInclude b0 b1 = true ↔ b1.cells ⊆ b0.cells := by
  rw [BBox.cells, BBox.cells, Grid.Rect.cells_subset_iff h1.cells_nonempty, bboxInclude_iff_ondim]
  simp only [BBox.rect, ← hd]
  constructor
  · intro h i
    by_cases hi : i.val < b0.numDims
    · simpa [hi] using h i hi
    · simp [hi]
  · intro h i hi
    have hlt : i < BBOX_MAX_NDIM := lt_of_lt_of_le hi (hd ▸ h1.dims.2)
    simpa [hi] using h ⟨i, hlt⟩

theorem bboxEquals_iff {b0 b1 : BBox} :
    bboxEquals b0 b1 = true ↔
      b0.numDims = b1.numDims ∧
        ∀ i < b0.numDims, b0.lb.c i = b1.lb.c i ∧ b0.ub.c i = b1.ub.c i := by
  simp [bboxEquals]

theorem bboxEquals_refl (b : BBox) : bboxEquals b b = true := by
  simp [bboxEquals_iff]

theorem bboxEquals_symm {b0 b1 : BBox} (h : bboxEquals b0 b1 = true) : bboxEquals b1 b0 = true := by
  obtain ⟨hd, hc⟩ := bboxEquals_iff.1 h
  exact bboxEquals_iff.2 ⟨hd.symm, fun i hi => ⟨(hc i (hd ▸ hi)).1.symm, (hc i (hd ▸ hi)).2.symm⟩⟩

theorem bboxEquals_trans {b0 b1 b2 : BBox} (h : bboxEquals b0 b1 = true)
    (h' : bboxEquals b1 b2 = true) : bboxEquals b0 b2 = true := by
  obtain ⟨hd, hc⟩ := bboxEquals_iff.1 h
  obtain ⟨hd', hc'⟩ := bboxEquals_iff.1 h'
  refine bboxEquals_iff.2 ⟨hd.trans hd', fun i hi => ?_⟩
  have h1 := hc i hi
  have h2 := hc' i (hd ▸ hi)
  exact ⟨h1.1.trans h2.1, h1.2.trans h2.2⟩

/-- Boxes that `bbox_equals` identifies have the same cells. -/
theorem cells_eq_of_bboxEquals {b0 b1 : BBox} (h : bboxEquals b0 b1 = true) :
    b0.cells = b1.cells := by
  rcases bboxEquals_iff.1 h with ⟨hd, hc⟩
  ext x
  simp only [BBox.mem_cells, ← hd]
  constructor
  · rintro ⟨hin, hout⟩
    refine ⟨fun i hi => ?_, hout⟩
    rw [← (hc i hi).1, ← (hc i hi).2]
    exact hin i hi
  · rintro ⟨hin, hout⟩
    refine ⟨fun i hi => ?_, hout⟩
    rw [(hc i hi).1, (hc i hi).2]
    exact hin i hi

/-! ## Volume -/

theorem toNat_coordDist {c0 c1 : Coord} {i : Nat}
    (h : (c0.c i).toNat ≤ (c1.c i).toNat + 1) :
    coordDist c0 c1 i = UInt64.ofNat ((c1.c i).toNat + 1 - (c0.c i).toNat) := by
  apply UInt64.toNat_inj.1
  have hlt0 := (c0.c i).toNat_lt
  have hlt1 := (c1.c i).toNat_lt
  simp only [coordDist, UInt64.toNat_add, UInt64.toNat_sub, UInt64.toNat_ofNat', UInt64.toNat_one]
  omega

/-- The side of a box along dimension `i`, as a natural. -/
def BBox.side (b : BBox) (i : Nat) : ℕ :=
  (b.ub.c i).toNat + 1 - (b.lb.c i).toNat

theorem BBox.card_cells {b : BBox} (hdims : b.numDims ≤ BBOX_MAX_NDIM) :
    b.cells.card = ∏ i ∈ Finset.range b.numDims, b.side i := by
  rw [BBox.cells, Grid.Rect.card_cells]
  have hext : ∏ i ∈ Finset.range b.numDims, b.side i =
      ∏ i ∈ Finset.range BBOX_MAX_NDIM, if i < b.numDims then b.side i else 1 := by
    rw [← Finset.prod_filter]
    congr 1
    ext i
    simp only [Finset.mem_range, Finset.mem_filter]
    omega
  rw [hext, Finset.prod_range]
  refine Finset.prod_congr rfl fun i _ => ?_
  simp only [BBox.rect, BBox.side]
  split <;> rfl

theorem foldl_mul_ofNat (f : Nat → UInt64) (g : Nat → ℕ) (l : List Nat)
    (h : ∀ i ∈ l, f i = UInt64.ofNat (g i)) (a : ℕ) :
    l.foldl (fun n i => n * f i) (UInt64.ofNat a) = UInt64.ofNat (a * (l.map g).prod) := by
  induction l generalizing a with
  | nil => simp
  | cons i l ih =>
      have hi : f i = UInt64.ofNat (g i) := h i (by simp)
      have htail := ih (fun k hk => h k (by simp [hk])) (a * g i)
      simp only [List.foldl_cons, List.map_cons, List.prod_cons]
      rw [hi, ← UInt64.ofNat_mul, htail, mul_assoc]

/-- `bbox_volume` is the number of cells, in 64-bit arithmetic. -/
theorem bboxVolume_eq {b : BBox} (h : b.NearValid) :
    bboxVolume b = UInt64.ofNat b.cells.card := by
  have hfold := foldl_mul_ofNat (coordDist b.lb b.ub) b.side (List.range b.numDims)
    (fun i hi => toNat_coordDist (h.le i (List.mem_range.1 hi))) 1
  have hprod : ((List.range b.numDims).map b.side).prod =
      ∏ i ∈ Finset.range b.numDims, b.side i := by
    rw [← List.prod_toFinset b.side List.nodup_range, List.toFinset_range]
  rw [one_mul, hprod, ← BBox.card_cells h.dims.2] at hfold
  exact hfold

/-! ## Halving along one dimension -/

section DivideIn2

variable {b : BBox} {dim : Nat}

/-- The middle point, when the sum of the corners does not wrap. -/
theorem toNat_middle {x y : UInt64} (h : x.toNat + y.toNat < 2 ^ 64) :
    ((x + y) >>> 1).toNat = (x.toNat + y.toNat) / 2 := by
  have hsum : (x + y).toNat = x.toNat + y.toNat := by
    rw [UInt64.toNat_add]
    exact Nat.mod_eq_of_lt h
  rw [UInt64.toNat_shiftRight, hsum]
  rfl

/-- The two halves are the cuts of the box of naturals at the middle point. -/
theorem bboxDivideIn2Ondim_rect (hb : b.NearValid) (hdim : dim < b.numDims)
    (hsum : (b.lb.c dim).toNat + (b.ub.c dim).toNat < 2 ^ 64) :
    ∃ (j : Fin BBOX_MAX_NDIM) (n : ℕ), n ≤ b.rect.hi j ∧ b.rect.lo j ≤ n + 1 ∧
      (bboxDivideIn2Ondim b dim).1.rect = b.rect.below j n ∧
      (bboxDivideIn2Ondim b dim).2.rect = b.rect.above j n := by
  have hlt : dim < BBOX_MAX_NDIM := lt_of_lt_of_le hdim hb.dims.2
  have hle := hb.le dim hdim
  have hmid := toNat_middle hsum
  have hmid1 : (((b.lb.c dim + b.ub.c dim) >>> 1) + 1).toNat =
      ((b.lb.c dim).toNat + (b.ub.c dim).toNat) / 2 + 1 := by
    rw [UInt64.toNat_add, hmid, UInt64.toNat_one]
    omega
  -- the sum of the bounds does not wrap, so the cut is at their middle
  refine ⟨⟨dim, hlt⟩, ((b.lb.c dim).toNat + (b.ub.c dim).toNat) / 2, ?_, ?_, ?_, ?_⟩
  · simp only [BBox.rect, hdim, if_true]
    omega
  · simp only [BBox.rect, hdim, if_true]
    omega
  · simp only [bboxDivideIn2Ondim, BBox.rect, Grid.Rect.below, Grid.Rect.mk.injEq]
    refine ⟨rfl, ?_⟩
    funext i
    by_cases hij : i = ⟨dim, hlt⟩
    · subst hij
      simp [Coord.c_set _ _ _ hlt, hdim, hmid]
    · have hne : i.val ≠ dim := fun h => hij (Fin.ext h)
      simp [Coord.c_set, hij, hne]
  · simp only [bboxDivideIn2Ondim, BBox.rect, Grid.Rect.above, Grid.Rect.mk.injEq]
    refine ⟨?_, rfl⟩
    funext i
    by_cases hij : i = ⟨dim, hlt⟩
    · subst hij
      simp [Coord.c_set _ _ _ hlt, hdim, hmid1]
    · have hne : i.val ≠ dim := fun h => hij (Fin.ext h)
      simp [Coord.c_set, hij, hne]

variable (hb : b.NearValid) (hdim : dim < b.numDims)
  (hsum : (b.lb.c dim).toNat + (b.ub.c dim).toNat < 2 ^ 64)

include hb hdim hsum

/-- The two halves have the cells of the box. -/
theorem bboxDivideIn2Ondim_cells_union :
    (bboxDivideIn2Ondim b dim).1.cells ∪ (bboxDivideIn2Ondim b dim).2.cells = b.cells := by
  obtain ⟨j, n, hhi, hlo, h1, h2⟩ := bboxDivideIn2Ondim_rect hb hdim hsum
  rw [BBox.cells, BBox.cells, h1, h2]
  exact Grid.Rect.cells_below_union_above hhi hlo

theorem bboxDivideIn2Ondim_disjoint :
    Disjoint (bboxDivideIn2Ondim b dim).1.cells (bboxDivideIn2Ondim b dim).2.cells := by
  obtain ⟨j, n, hhi, hlo, h1, h2⟩ := bboxDivideIn2Ondim_rect hb hdim hsum
  rw [BBox.cells, BBox.cells, h1, h2]
  exact Grid.Rect.disjoint_below_above hhi hlo

end DivideIn2

/-! ## Halving along every dimension -/

section Divide

variable {b : BBox} (hb : b.Valid)
  (hsum : ∀ j < b.numDims, (b.lb.c j).toNat + (b.ub.c j).toNat < 2 ^ 64)

include hb hsum

/-- The corners of a part; bit `j` of its number says which half of side `j` it keeps. -/
theorem divideNth_corners (i : Nat) {j : Nat} (hj : j < b.numDims) :
    ((bboxDivideNth b i).lb.c j).toNat =
        (if i.testBit j then ((b.lb.c j).toNat + (b.ub.c j).toNat) / 2 + 1 else (b.lb.c j).toNat) ∧
      ((bboxDivideNth b i).ub.c j).toNat =
        (if i.testBit j then (b.ub.c j).toNat else ((b.lb.c j).toNat + (b.ub.c j).toNat) / 2) := by
  have hlt : j < BBOX_MAX_NDIM := lt_of_lt_of_le hj hb.dims.2
  have hadd : (b.lb.c j + b.ub.c j).toNat = (b.lb.c j).toNat + (b.ub.c j).toNat := by
    rw [UInt64.toNat_add, Nat.mod_eq_of_lt (hsum j hj)]
  have hmid : ((b.lb.c j + b.ub.c j) / 2).toNat = ((b.lb.c j).toNat + (b.ub.c j).toNat) / 2 := by
    rw [UInt64.toNat_div, hadd]
    rfl
  have hmid1 : ((b.lb.c j + b.ub.c j) / 2 + 1).toNat =
      ((b.lb.c j).toNat + (b.ub.c j).toNat) / 2 + 1 := by
    have hsmall := hsum j hj
    rw [UInt64.toNat_add, hmid, UInt64.toNat_one, Nat.mod_eq_of_lt (by omega)]
  simp only [bboxDivideNth, Coord.c_ofFn _ hlt, hj, if_true]
  cases i.testBit j with
  | true => exact ⟨hmid1, rfl⟩
  | false => exact ⟨rfl, hmid⟩

/-- A cell of the box is in part number `i` iff the bits of `i` say in which halves it lies. -/
theorem mem_divideNth_iff {i : Nat} {x : Cell} (hx : x ∈ b.cells) :
    x ∈ (bboxDivideNth b i).cells ↔
      ∀ j : Fin BBOX_MAX_NDIM, j.val < b.numDims →
        i.testBit j = decide (((b.lb.c j).toNat + (b.ub.c j).toNat) / 2 < x j) := by
  rcases BBox.mem_cells.1 hx with ⟨hin, hout⟩
  have hnd : (bboxDivideNth b i).numDims = b.numDims := rfl
  rw [BBox.mem_cells, hnd]
  constructor
  · rintro ⟨hxi, -⟩ j hj
    have hxj := hxi j hj
    obtain ⟨hlb, hub⟩ := divideNth_corners hb hsum i hj
    cases hbit : i.testBit j with
    | true =>
        simp only [hbit, if_true] at hlb
        exact (decide_eq_true (by omega)).symm
    | false =>
        simp only [hbit, Bool.false_eq_true, if_false] at hub
        exact (decide_eq_false (by omega)).symm
  · intro hbits
    refine ⟨fun j hj => ?_, hout⟩
    have hxj := hin j hj
    obtain ⟨hlb, hub⟩ := divideNth_corners hb hsum i hj
    have hbit := hbits j hj
    by_cases hup : ((b.lb.c j).toNat + (b.ub.c j).toNat) / 2 < x j
    · rw [decide_eq_true hup] at hbit
      simp only [hbit, if_true] at hlb hub
      omega
    · rw [decide_eq_false hup] at hbit
      simp only [hbit, Bool.false_eq_true, if_false] at hlb hub
      omega

theorem divideNth_subset (i : Nat) : (bboxDivideNth b i).cells ⊆ b.cells := by
  intro x hx
  rcases BBox.mem_cells.1 hx with ⟨hin, hout⟩
  refine BBox.mem_cells.2 ⟨fun j hj => ?_, hout⟩
  have hxj := hin j hj
  have hle := UInt64.le_iff_toNat_le.1 (hb.le j hj)
  obtain ⟨hlb, hub⟩ := divideNth_corners hb hsum i hj
  split at hlb
  case isTrue hbit =>
    rw [if_pos hbit] at hub
    omega
  case isFalse hbit =>
    rw [if_neg hbit] at hub
    omega

/-- The parts cover the box. -/
theorem union_bboxDivide : Cover.union BBox.cells (bboxDivide b) = b.cells := by
  ext x
  rw [Cover.mem_union]
  constructor
  · rintro ⟨b', hb', hx⟩
    obtain ⟨i, -, rfl⟩ := List.mem_map.1 hb'
    exact divideNth_subset hb hsum i hx
  · intro hx
    -- the part is named by the halves in which `x` lies
    let bits : Fin b.numDims → Bool := fun j =>
      decide (((b.lb.c j).toNat + (b.ub.c j).toNat) / 2 < x ⟨j, lt_of_lt_of_le j.isLt hb.dims.2⟩)
    refine ⟨bboxDivideNth b (Nat.ofBits bits), List.mem_map.2 ⟨_, ?_, rfl⟩, ?_⟩
    · rw [List.mem_range]
      exact Nat.ofBits_lt_two_pow bits
    · refine (mem_divideNth_iff hb hsum hx).2 fun j hj => ?_
      rw [Nat.testBit_ofBits_lt _ _ hj]

/-- The parts do not overlap. -/
theorem apart_bboxDivide : Cover.Apart BBox.cells (bboxDivide b) := by
  refine List.pairwise_map.2 ?_
  refine List.Pairwise.imp_of_mem ?_ (List.nodup_range (n := 2 ^ b.numDims))
  intro i i' hi hi' hne
  rw [List.mem_range] at hi hi'
  rw [Finset.disjoint_left]
  intro x hx hx'
  have hxb := divideNth_subset hb hsum i hx
  have hbits := (mem_divideNth_iff hb hsum hxb).1 hx
  have hbits' := (mem_divideNth_iff hb hsum hxb).1 hx'
  refine hne (Nat.eq_of_testBit_eq fun j => ?_)
  by_cases hj : j < b.numDims
  · have hj10 : j < BBOX_MAX_NDIM := lt_of_lt_of_le hj hb.dims.2
    exact (hbits ⟨j, hj10⟩ hj).trans (hbits' ⟨j, hj10⟩ hj).symm
  · have hpow : 2 ^ b.numDims ≤ 2 ^ j := Nat.pow_le_pow_right Nat.zero_lt_two (Nat.le_of_not_lt hj)
    rw [Nat.testBit_lt_two_pow (hi.trans_le hpow), Nat.testBit_lt_two_pow (hi'.trans_le hpow)]

/-- The parts of a box with sides of two cells or more are valid. -/
theorem divideNth_valid (hside : ∀ j < b.numDims, (b.lb.c j).toNat < (b.ub.c j).toNat) (i : Nat) :
    (bboxDivideNth b i).Valid := by
  refine ⟨hb.dims, fun j hj => UInt64.le_iff_toNat_le.2 ?_⟩
  have hlt := hside j hj
  obtain ⟨hlb, hub⟩ := divideNth_corners hb hsum i hj
  rw [hlb, hub]
  split <;> omega

end Divide

end DataSpaces
