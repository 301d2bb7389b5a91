import Mathlib.Data.Int.ModEq
import DataSpaces.Copy

/-!
# SubArray — when `ssd_copy` copies the right cells

Up to nine dimensions the nest of loops in `matrix_copy` copies the common cells of two boxes.  The
outermost of its ten loops computes the position in the source from the index of the target
(`bloc9 = a9 * b->dist[8]`).  All rows are then read a fixed distance away from where they are, and
the copy is right exactly when that distance is zero as a 64-bit number.
-/

namespace DataSpaces

/-! ## The distance -/

section Shift

variable {a b : Matrix} {y : ℕ → ℕ}

/-- The bytes between neighbours along dimension `k`, as the loops multiply them up. -/
def layerBytes (b : Matrix) (se : UInt64) : Nat → UInt64
  | 0 => se
  | k + 1 => b.dist.c k * layerBytes b se k

theorem layerBytes_eq (b : Matrix) (se : UInt64) (k : Nat) :
    layerBytes b se k = UInt64.ofNat (Radix.weight b.side k * se.toNat) := by
  induction k with
  | zero => simp [layerBytes]
  | succ k ih =>
      have hdist : b.dist.c k = UInt64.ofNat (b.side k) := UInt64.ofNat_toNat.symm
      rw [layerBytes, ih, Radix.weight_succ, hdist, ← UInt64.ofNat_mul]
      congr 1
      ring

/-- A start that lies off by `off` elements of dimension `k` moves every row. -/
theorem srcRow_shift (a b : Matrix) (y : ℕ → ℕ) (k : Nat) :
    ∀ bloc off : UInt64, srcRow a b y k (bloc + off) =
      srcRow a b y k bloc + off * layerBytes b a.sizeElem k := by
  induction k with
  | zero =>
      intro bloc off
      simp only [srcRow, layerBytes]
      grind
  | succ k ih =>
      intro bloc off
      have hstart : ∀ x : UInt64, (bloc + off + x) * b.dist.c k =
          (bloc + x) * b.dist.c k + off * b.dist.c k := by
        intro x
        grind
      rw [srcRow, srcRow, hstart, ih, layerBytes, UInt64.mul_assoc]

/-- The loops as they should be: the source moved through by its own index in every dimension. -/
def Matrix.own (a b : Matrix) : Matrix :=
  { b with sizeElem := a.sizeElem }

/-- Below dimension 9 the loops do move by that index. -/
theorem srcRow_own (a b : Matrix) (y : ℕ → ℕ) (k : Nat) (hk : k < 9) :
    ∀ bloc : UInt64, srcRow a b y k bloc = srcRow (a.own b) b y k bloc := by
  induction k with
  | zero =>
      intro bloc
      rfl
  | succ k ih =>
      intro bloc
      have hne : ¬ k + 1 = 9 := by omega
      rw [srcRow, srcRow, if_neg hne, if_neg hne]
      exact ih (by omega) _

/-- With ten dimensions every row is read at the distance between the two starts in dimension 9. -/
theorem srcRow_nine (a b : Matrix) (y : ℕ → ℕ) :
    srcRow a b y 9 0 = srcRow (a.own b) b y 9 0 +
      (a.matView.lb.c 9 - b.matView.lb.c 9) * layerBytes b a.sizeElem 9 := by
  have hstart : (0 + (a.matView.lb.c 9 + UInt64.ofNat (y 9))) * b.dist.c 8 =
      (0 + (b.matView.lb.c 9 + UInt64.ofNat (y 9))) * b.dist.c 8 +
        (a.matView.lb.c 9 - b.matView.lb.c 9) * b.dist.c 8 := by
    grind
  have hleft : srcRow a b y 9 0 =
      srcRow a b y 8 ((0 + (a.matView.lb.c 9 + UInt64.ofNat (y 9))) * b.dist.c 8) := rfl
  have hright : srcRow (a.own b) b y 9 0 =
      srcRow (a.own b) b y 8 ((0 + (b.matView.lb.c 9 + UInt64.ofNat (y 9))) * b.dist.c 8) := rfl
  rw [hleft, hright, hstart, srcRow_shift, srcRow_own a b y 8 (by norm_num), UInt64.mul_assoc]
  rfl

end Shift

/-- A product of a difference is zero in 64 bits iff the word size divides it. -/
theorem sub_mul_eq_zero_iff (x z : UInt64) (n : ℕ) :
    (x - z) * UInt64.ofNat n = 0 ↔ (2 ^ 64 : ℤ) ∣ ((x.toNat : ℤ) - z.toNat) * n := by
  -- the operations of words are those of integers up to the word size
  have hsub : ((x - z).toNat : ℤ) ≡ (x.toNat : ℤ) - z.toNat [ZMOD 2 ^ 64] := by
    have hz := z.toNat_lt
    have hcast : ((2 ^ 64 - z.toNat + x.toNat : ℕ) : ℤ) = (x.toNat : ℤ) - z.toNat + 2 ^ 64 := by
      omega
    rw [UInt64.toNat_sub, Int.natCast_mod, hcast]
    exact (Int.mod_modEq _ _).trans (Int.add_modEq_right)
  have hofNat : ((UInt64.ofNat n).toNat : ℤ) ≡ n [ZMOD 2 ^ 64] := by
    rw [UInt64.toNat_ofNat', Int.natCast_mod]
    exact Int.mod_modEq _ _
  have hmul : (((x - z) * UInt64.ofNat n).toNat : ℤ) ≡ ((x.toNat : ℤ) - z.toNat) * n [ZMOD 2 ^ 64] := by
    rw [UInt64.toNat_mul, Int.natCast_mod, Nat.cast_mul]
    exact (Int.mod_modEq _ _).trans (hsub.mul hofNat)
  have hlt := ((x - z) * UInt64.ofNat n).toNat_lt
  rw [← Int.modEq_zero_iff_dvd, ← UInt64.toNat_inj, UInt64.toNat_zero]
  constructor
  · intro h
    rw [h] at hmul
    exact hmul.symm
  · intro h
    have hdvd := Int.modEq_zero_iff_dvd.1 (hmul.trans h)
    omega

/-! ## The copy -/

section Copies

variable {toObj fromObj : ObjData}

/-- The boxes of two objects can be copied between: they meet, and both arrays can be addressed with
the element size of the target. -/
structure Copyable (bbT bbF : BBox) (s : UInt64) : Prop where
  target : bbT.Valid
  source : bbF.Valid
  dims : bbT.numDims = bbF.numDims
  meet : bboxDoesIntersect bbT bbF = true
  size : 0 < s.toNat
  sizeTarget : bbT.cells.card * s.toNat < 2 ^ 64
  sizeSource : bbF.cells.card * s.toNat < 2 ^ 64

namespace Copyable

variable {bbT bbF : BBox} {s : UInt64} (h : Copyable bbT bbF s)

include h

theorem side_target {i : ℕ} (hi : i < bbT.numDims) : bbT.side i < 2 ^ 64 :=
  ((h.target.side_le_card hi).trans (Nat.le_mul_of_pos_right _ h.size)).trans_lt h.sizeTarget

theorem side_source {i : ℕ} (hi : i < bbF.numDims) : bbF.side i < 2 ^ 64 :=
  ((h.source.side_le_card hi).trans (Nat.le_mul_of_pos_right _ h.size)).trans_lt h.sizeSource

end Copyable

section Rows

variable {loc : BBox} (h : Copyable toObj.objDesc.bb fromObj.objDesc.bb toObj.objDesc.size)
  (hto : loc.PartOf toObj.objDesc.bb) (hfrom : loc.PartOf fromObj.objDesc.bb)

include h hto hfrom

/-- Every cell of the view is written, with the bytes of the row that the loops compute. -/
theorem copyLevel_mat_rows :
    ∃ s', copyLevel (toObj.mat loc) (fromObj.mat loc) (toObj.objDesc.bb.numDims - 1) 0 0
        ⟨toObj.data, 0⟩ = some s' ∧
      WroteFrom (toObj.mat loc) toObj.objDesc.size.toNat (toObj.mat loc).turns
        (toObj.objDesc.bb.numDims - 1) 0
        (fun y c => fromObj.data ((srcRow (toObj.mat loc) (fromObj.mat loc) y
          (toObj.objDesc.bb.numDims - 1) 0).toNat + y 0 * toObj.objDesc.size.toNat + c))
        ⟨toObj.data, 0⟩ s' := by
  have hsideTo : ∀ i < toObj.objDesc.bb.numDims, toObj.objDesc.bb.side i < 2 ^ 64 :=
    fun i hi => h.side_target hi
  have hfits := viewFits_mat hto hfrom hsideTo fun i hi => h.side_source hi
  exact copyLevel_rows (b := fromObj.mat loc) h.size h.sizeTarget (toObj.objDesc.bb.numDims - 1)
    hfits.le hfits.target 0 0 ⟨toObj.data, 0⟩ (room_mat hto hsideTo)

/-- The row in which the elements of the source lie. -/
theorem toNat_srcRow_own {y : ℕ → ℕ}
    (hy : ∀ i ≤ toObj.objDesc.bb.numDims - 1, y i < (toObj.mat loc).turns i) :
    (srcRow ((toObj.mat loc).own (fromObj.mat loc)) (fromObj.mat loc) y
        (toObj.objDesc.bb.numDims - 1) 0).toNat + y 0 * toObj.objDesc.size.toNat =
      (fromObj.mat loc).elem y (toObj.objDesc.bb.numDims - 1) 0 * toObj.objDesc.size.toNat := by
  have hsideFrom : ∀ i < fromObj.objDesc.bb.numDims, fromObj.objDesc.bb.side i < 2 ^ 64 :=
    fun i hi => h.side_source hi
  have hfits := viewFits_mat hto hfrom (fun i hi => h.side_target hi) hsideFrom
  have hten : toObj.objDesc.bb.numDims ≤ 10 := h.target.dims.2
  have hroom := room_mat hfrom hsideFrom
  rw [← h.dims] at hroom
  refine toNat_srcRow (a := (toObj.mat loc).own (fromObj.mat loc)) (b := fromObj.mat loc) h.size
    h.sizeSource (toObj.objDesc.bb.numDims - 1) (fun hk => ⟨by omega, rfl⟩) (fun i hi => ?_) 0 hroom
  have := hfits.source i hi
  have := hy i hi
  omega

/-- How far from their place the rows are read. -/
theorem srcRow_mat_ten (hten : toObj.objDesc.bb.numDims = 10) (y : ℕ → ℕ) :
    srcRow (toObj.mat loc) (fromObj.mat loc) y 9 0 =
      srcRow ((toObj.mat loc).own (fromObj.mat loc)) (fromObj.mat loc) y 9 0 +
      (fromObj.objDesc.bb.lb.c 9 - toObj.objDesc.bb.lb.c 9) *
        UInt64.ofNat ((∏ i ∈ Finset.range 9, fromObj.objDesc.bb.side i) *
          toObj.objDesc.size.toNat) := by
  have hdims := h.dims
  have hweight : Radix.weight (fromObj.mat loc).side 9 =
      ∏ i ∈ Finset.range 9, fromObj.objDesc.bb.side i :=
    Radix.weight_congr fun i hi => side_mat hfrom (by omega) (h.side_source (by omega))
  -- the start of the common box cancels
  have hgap : (toObj.mat loc).matView.lb.c 9 - (fromObj.mat loc).matView.lb.c 9 =
      fromObj.objDesc.bb.lb.c 9 - toObj.objDesc.bb.lb.c 9 := by
    rw [lb_mat hto (by omega), lb_mat hfrom (by omega)]
    grind
  have hsize : (toObj.mat loc).sizeElem = toObj.objDesc.size := rfl
  rw [srcRow_nine, layerBytes_eq, hweight, hgap, hsize]

end Rows

/-- When no row is read from a wrong place, the common cells are copied. -/
theorem copied_of_rows {loc : BBox}
    (hloc : bboxIntersect toObj.objDesc.bb fromObj.objDesc.bb = loc)
    (h : Copyable toObj.objDesc.bb fromObj.objDesc.bb toObj.objDesc.size)
    (hcount : (toObj.objDesc.bb.cells ∩ fromObj.objDesc.bb.cells).card < 2 ^ 31)
    (hrows : ∀ y : ℕ → ℕ,
      srcRow (toObj.mat loc) (fromObj.mat loc) y (toObj.objDesc.bb.numDims - 1) 0 =
        srcRow ((toObj.mat loc).own (fromObj.mat loc)) (fromObj.mat loc) y
          (toObj.objDesc.bb.numDims - 1) 0) :
    ∃ r n, ssdCopy toObj fromObj = some (r, n) ∧ Copied toObj fromObj r ∧
      n.toInt = (toObj.objDesc.bb.cells ∩ fromObj.objDesc.bb.cells).card := by
  subst hloc
  rcases partOf_bboxIntersect h.target h.source h.dims h.meet with ⟨hto, hfrom⟩
  have hcells := bboxIntersect_cells h.dims
  rcases copyLevel_mat_rows h hto hfrom with ⟨s', hrun, hwrote⟩
  have hplaced : Wrote _ (fromObj.mat _) _ _ _ 0 0 _ _ := hwrote.wrote fun y hy c _ => by
    rw [hrows, toNat_srcRow_own h hto hfrom hy]
    rfl
  refine ⟨_, _, ssdCopy_of_level h.target.dims.1 h.target.dims.2 hrun,
    hplaced.copied_cells hto hfrom hcells (fun i hi => h.side_target hi)
      (fun i hi => h.side_source hi) _ rfl rfl, ?_⟩
  rw [hplaced.copied, prod_turns_mat hto, hcells, UInt64.zero_add]
  exact toInt_int_ofNat hcount

/-- A copied object shows where the first row was read, if that byte alone is marked in the source. -/
theorem srcRow_of_copied {loc : BBox} {x : Cell} {r : ObjData} {n : Int32}
    (hloc : bboxIntersect toObj.objDesc.bb fromObj.objDesc.bb = loc)
    (h : Copyable toObj.objDesc.bb fromObj.objDesc.bb toObj.objDesc.size)
    (hx : x = loc.cellAt fun _ => 0)
    (hmark : ∀ p, fromObj.data p = 1 → p = fromObj.objDesc.bb.offset x * toObj.objDesc.size.toNat)
    (hmarked : fromObj.data (fromObj.objDesc.bb.offset x * toObj.objDesc.size.toNat) = 1)
    (hrun : ssdCopy toObj fromObj = some (r, n)) (hcopied : Copied toObj fromObj r) :
    srcRow (toObj.mat loc) (fromObj.mat loc) (fun _ => 0) (toObj.objDesc.bb.numDims - 1) 0 =
      srcRow ((toObj.mat loc).own (fromObj.mat loc)) (fromObj.mat loc) (fun _ => 0)
        (toObj.objDesc.bb.numDims - 1) 0 := by
  subst hloc
  rcases partOf_bboxIntersect h.target h.source h.dims h.meet with ⟨hto, hfrom⟩
  have hcells := bboxIntersect_cells h.dims
  have hpos := hto.valid.side_pos
  have hmem := BBox.cellAt_mem hpos
  rw [← hx] at hmem
  have hrel : ∀ i < (bboxIntersect toObj.objDesc.bb fromObj.objDesc.bb).numDims,
      (0 : ℕ) = (bboxIntersect toObj.objDesc.bb fromObj.objDesc.bb).rel x i := fun i hi => by
    rw [hx]
    exact (BBox.rel_cellAt hto.valid.dims.2 (fun _ => 0) hi).symm
  have hturns : ∀ i ≤ toObj.objDesc.bb.numDims - 1,
      0 < (toObj.mat (bboxIntersect toObj.objDesc.bb fromObj.objDesc.bb)).turns i := by
    intro i hi
    have hi' := Nat.lt_of_le_sub_one h.target.dims.1 hi
    rw [turns_mat hto hi']
    exact hpos i (hto.dims.symm ▸ hi')
  rcases copyLevel_mat_rows h hto hfrom with ⟨s', hlevel, hwrote⟩
  have hdata : r.data = s'.buf := by
    rw [ssdCopy_of_level h.target.dims.1 h.target.dims.2 hlevel] at hrun
    simp only [Option.some.injEq, Prod.mk.injEq] at hrun
    rw [← hrun.1]
  -- the byte of the cell in the target, by what the copy means and by what the loops do
  have hwant := hcopied.inside x (hcells ▸ hmem) 0 h.size
  have hgot := hwrote.inside (fun _ => 0) hturns 0 h.size
  have hown := toNat_srcRow_own h hto hfrom hturns
  rw [elem_mat hto (fun i hi => h.side_target hi) hmem fun i hi => hrel i (hto.dims.symm ▸ hi),
    ← hdata, hwant] at hgot
  rw [h.dims, elem_mat hfrom (fun i hi => h.side_source hi) hmem
    fun i hi => hrel i (hfrom.dims.symm ▸ hi), ← h.dims] at hown
  simp only [Nat.zero_mul, Nat.add_zero] at hgot hown
  apply UInt64.toNat_inj.1
  rw [hown]
  exact hmark _ (hgot.symm.trans hmarked)

/-- `ssd_copy` between objects on these two boxes copies every common cell, leaves every other byte
of the target alone and returns the number of common cells, whatever the objects contain. -/
def CopiesCommon (bbT bbF : BBox) (s : UInt64) : Prop :=
  ∀ toObj fromObj : ObjData, toObj.objDesc.bb = bbT → toObj.objDesc.size = s →
    fromObj.objDesc.bb = bbF → fromObj.objDesc.size = s →
      ∃ r n, ssdCopy toObj fromObj = some (r, n) ∧ Copied toObj fromObj r ∧
        n.toInt = (bbT.cells ∩ bbF.cells).card

/-- An object with a given box, element size and content. -/
def objOn (bb : BBox) (s : UInt64) (data : Buf) : ObjData where
  objDesc := { plainDesc 0 bb with size := s }
  gdim := ⟨0, Coord.ofFn fun _ => 0⟩
  data := data

/-- In ten dimensions a copy that is right for all contents reads its rows where they are. -/
theorem CopiesCommon.gap_eq_zero {bbT bbF : BBox} {s : UInt64} (h : Copyable bbT bbF s)
    (hdims : bbT.numDims = 10) (hcopies : CopiesCommon bbT bbF s) :
    (bbF.lb.c 9 - bbT.lb.c 9) *
      UInt64.ofNat ((∏ i ∈ Finset.range 9, bbF.side i) * s.toNat) = 0 := by
  -- one marked byte in the source, at the lower corner of the common box
  let x : Cell := (bboxIntersect bbT bbF).cellAt fun _ => 0
  let fromObj := objOn bbF s fun p => if p = bbF.offset x * s.toNat then 1 else 0
  let toObj := objOn bbT s fun _ => 0
  have h' : Copyable toObj.objDesc.bb fromObj.objDesc.bb toObj.objDesc.size := h
  obtain ⟨r, n, hrun, hcopied, -⟩ := hcopies toObj fromObj rfl rfl rfl rfl
  have hmark : ∀ p, fromObj.data p = 1 →
      p = fromObj.objDesc.bb.offset x * toObj.objDesc.size.toNat := by
    intro p hp
    by_contra hne
    have hzero : fromObj.data p = 0 := if_neg hne
    rw [hzero] at hp
    exact absurd hp (by decide)
  have hrow := srcRow_of_copied rfl h' (x := x) rfl hmark (if_pos rfl) hrun hcopied
  rcases partOf_bboxIntersect h'.target h'.source h'.dims h'.meet with ⟨hto, hfrom⟩
  have hnine : toObj.objDesc.bb.numDims - 1 = 9 := by
    change bbT.numDims - 1 = 9
    omega
  rw [hnine, srcRow_mat_ten h' hto hfrom hdims] at hrow
  have hcancel : ∀ u v : UInt64, u + v = u → v = 0 := by
    intro u v huv
    grind
  exact hcancel _ _ hrow

/-- `ssd_copy` is right exactly up to nine dimensions, and in ten when the distance between the two
lower bounds in dimension 9 vanishes in 64 bits after it is multiplied by the bytes of a layer. -/
theorem copiesCommon_iff {bbT bbF : BBox} {s : UInt64} (h : Copyable bbT bbF s)
    (hcount : (bbT.cells ∩ bbF.cells).card < 2 ^ 31) :
    CopiesCommon bbT bbF s ↔ bbT.numDims < 10 ∨
      (2 ^ 64 : ℤ) ∣ ((bbF.lb.c 9).toNat - (bbT.lb.c 9).toNat) *
        ((∏ i ∈ Finset.range 9, bbF.side i) * s.toNat : ℕ) := by
  have hten : bbT.numDims ≤ 10 := h.target.dims.2
  have hone := h.target.dims.1
  rw [← sub_mul_eq_zero_iff]
  constructor
  · intro hcopies
    rcases Nat.lt_or_ge bbT.numDims 10 with hlt | hge
    · exact Or.inl hlt
    · exact Or.inr (hcopies.gap_eq_zero h (by omega))
  · rintro hcond toObj fromObj rfl rfl rfl -
    refine copied_of_rows rfl h hcount fun y => ?_
    rcases partOf_bboxIntersect h.target h.source h.dims h.meet with ⟨hto, hfrom⟩
    -- only the loop over dimension 9 can read a row from a wrong place
    rcases Nat.lt_or_ge toObj.objDesc.bb.numDims 10 with hlt | hge
    · exact srcRow_own _ _ y _ (by omega) 0
    · have hnine : toObj.objDesc.bb.numDims - 1 = 9 := by omega
      rw [hnine, srcRow_mat_ten h hto hfrom (by omega), hcond.resolve_left (by omega),
        UInt64.add_zero]

/-- A ten-dimensional box that is one cell wide except in dimension 9. -/
def tenLine (lo hi : UInt64) : BBox where
  numDims := 10
  lb := Coord.ofFn fun i => if i = 9 then lo else 0
  ub := Coord.ofFn fun i => if i = 9 then hi else 0

theorem tenLine_valid {lo hi : UInt64} (hle : lo ≤ hi) : (tenLine lo hi).Valid := by
  refine ⟨⟨show 1 ≤ 10 by decide, show 10 ≤ BBOX_MAX_NDIM by decide⟩, fun i hi => ?_⟩
  rw [tenLine, Coord.c_ofFn _ hi, Coord.c_ofFn _ hi]
  split
  · exact hle
  · exact UInt64.le_refl 0

theorem card_tenLine (lo hi : UInt64) : (tenLine lo hi).cells.card = hi.toNat + 1 - lo.toNat := by
  rw [BBox.card_cells (show 10 ≤ BBOX_MAX_NDIM by decide)]
  have hside : ∀ i ∈ Finset.range 9, (tenLine lo hi).side i = 1 := by
    intro i hi
    have hi := Finset.mem_range.1 hi
    have hlt : i < BBOX_MAX_NDIM := hi.trans (by decide)
    rw [BBox.side, tenLine, Coord.c_ofFn _ hlt, Coord.c_ofFn _ hlt, if_neg (by omega), if_neg (by omega)]
    rfl
  have hdims : (tenLine lo hi).numDims = 9 + 1 := rfl
  rw [hdims, Finset.prod_range_succ, Finset.prod_eq_one hside, Nat.one_mul]
  rfl

theorem copyable_tenLine {lo hi lo' hi' : UInt64} (hle : lo ≤ hi) (hle' : lo' ≤ hi')
    (hmeet : bboxDoesIntersect (tenLine lo hi) (tenLine lo' hi') = true)
    (hlt : hi.toNat + 1 - lo.toNat < 2 ^ 64) (hlt' : hi'.toNat + 1 - lo'.toNat < 2 ^ 64) :
    Copyable (tenLine lo hi) (tenLine lo' hi') 1 := by
  refine ⟨tenLine_valid hle, tenLine_valid hle', rfl, hmeet, by decide, ?_, ?_⟩
  · rw [card_tenLine, UInt64.toNat_one, Nat.mul_one]
    exact hlt
  · rw [card_tenLine, UInt64.toNat_one, Nat.mul_one]
    exact hlt'

/-- Equal lower bounds in dimension 9. -/
theorem copiesCommon_tenLine : CopiesCommon (tenLine 1 3) (tenLine 1 2) 1 := by
  have hcopyable : Copyable (tenLine 1 3) (tenLine 1 2) 1 :=
    copyable_tenLine (by decide) (by decide) (by decide) (by decide) (by decide)
  refine (copiesCommon_iff hcopyable ?_).2 (Or.inr ?_)
  · refine lt_of_le_of_lt (Finset.card_le_card Finset.inter_subset_left) ?_
    rw [BBox.card_cells (by decide)]
    decide
  · rw [show (tenLine 1 2).lb.c 9 = (tenLine 1 3).lb.c 9 from rfl, sub_self, zero_mul]
    exact dvd_zero _

/-- The target covers cell 1 and the source the cells 0 and 1 of dimension 9: the target is given the
byte of cell 0. -/
theorem not_copiesCommon_tenLine :
    bboxDoesIntersect (tenLine 1 1) (tenLine 0 1) = true ∧
      (ssdCopy (objOn (tenLine 1 1) 1 fun _ => 9) (objOn (tenLine 0 1) 1 UInt8.ofNat)).map
        (fun r => (r.1.data 0, r.2)) = some (0, 1) ∧
      ¬ CopiesCommon (tenLine 1 1) (tenLine 0 1) 1 := by
  have hcopyable : Copyable (tenLine 1 1) (tenLine 0 1) 1 :=
    copyable_tenLine (by decide) (by decide) (by decide) (by decide) (by decide)
  refine ⟨by decide, by decide +kernel, fun h => ?_⟩
  have hgap := h.gap_eq_zero hcopyable rfl
  exact absurd hgap (by decide +kernel)

end Copies

end DataSpaces
