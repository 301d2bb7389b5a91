import DataSpaces.SfcCells

/-!
# Exactness — a box and the intervals of its indices

`bbox_to_intv` returns exactly the indices of the cells that a box has in the virtual cube, in the
fewest intervals, and `bbox_to_intv2` returns the same table: turn by turn its circular table holds
the boxes of the linked queue.  Both count the pending sub-cubes and the intervals with `int`s, and are
right exactly as long as these suffice.
-/

namespace DataSpaces

section Exact

variable {hilbertC2i : HilbertC2i} {k d : Nat} {dimVirt : UInt64} {bb : BBox}

/-- In a sorted table the sizes add up to the number of indices. -/
theorem sum_intvSize {tab : List Intv} (hs : Seg.Sorted (tab.map Intv.seg))
    (hcard : (indices tab).card < 2 ^ 64) :
    (tab.map fun i => (intvSize i).toNat).sum = (indices tab).card := by
  induction tab with
  | nil => rfl
  | cons t ts ih =>
      obtain ⟨ht, -, hts⟩ := Seg.sorted_cons.1 hs
      have hsum := card_indices_cons hs
      rw [List.map_cons, List.sum_cons, ih hts (by omega), hsum, toNat_intvSize ht (by omega)]

/-- An index is in the table iff one of the intervals has it. -/
theorem mem_indices {tab : List Intv} {p : ℕ} :
    p ∈ indices tab ↔ ∃ i ∈ tab, i.lb.toNat ≤ p ∧ p ≤ i.ub.toNat := by
  rw [indices, Cover.mem_union]
  constructor
  · rintro ⟨s, hs, hp⟩
    obtain ⟨i, hi, rfl⟩ := List.mem_map.1 hs
    exact ⟨i, hi, Seg.mem_points.1 hp⟩
  · rintro ⟨i, hi, hp⟩
    exact ⟨i.seg, List.mem_map_of_mem hi, Seg.mem_points.2 hp⟩

/-- There are as many indices as cells. -/
theorem card_boxIndices (hd : CubeDims k bb.numDims) (hdim : dimVirt.toNat = 2 ^ k)
    (hh : HilbertCurve hilbertC2i bb.numDims (k + 1)) :
    (boxIndices hilbertC2i dimVirt bb).card =
      (bb.cells ∩ (bbVirt bb.numDims dimVirt).cells).card := by
  have hbits : computeBits dimVirt = k + 1 := computeBits_two_pow hdim hd.bits
  rw [boxIndices, hbits]
  refine Finset.card_image_of_injOn ((curveIndex_injOn hd hdim hh).mono ?_)
  exact_mod_cast Finset.inter_subset_right

/-- The table of the indices that the cells of a box have in the virtual cube of side `2 ^ k`: its intervals are
nonempty and sorted, with a gap between any two of them, its points are the indices, and the sizes add up to
the number of the cells. -/
structure ExactTab (hilbertC2i : HilbertC2i) (k : Nat) (bb : BBox) (dimVirt : UInt64) (tab : List Intv) :
    Prop where
  nonempty : ∀ i ∈ tab, i.lb ≤ i.ub
  sorted : tab.Pairwise fun i j => i.lb < j.lb
  gapped : tab.Pairwise fun i j => i.ub.toNat + 1 < j.lb.toNat
  points : ∀ p : ℕ, (∃ i ∈ tab, i.lb.toNat ≤ p ∧ p ≤ i.ub.toNat) ↔
    ∃ x ∈ bb.cells ∩ (bbVirt bb.numDims dimVirt).cells,
      (hilbertC2i bb.numDims (k + 1) (cellCoord bb.numDims x)).toNat = p
  sizes : (tab.map fun i => (intvSize i).toNat).sum = (bb.cells ∩ (bbVirt bb.numDims dimVirt).cells).card

/-- The subdivision returns that table. -/
theorem cutIntv_exact (hbb : bb.Valid) (hdim : dimVirt.toNat = 2 ^ k)
    (hbits : bb.numDims * (k + 1) ≤ 64) (hh : HilbertCurve hilbertC2i bb.numDims (k + 1))
    (hmeet : (bb.cells ∩ (bbVirt bb.numDims dimVirt).cells).Nonempty) :
    ∃ tab, (∀ uninit, cutIntv hilbertC2i uninit bb dimVirt = tab) ∧
      ExactTab hilbertC2i k bb dimVirt tab := by
  have hd := CubeDims.of_valid hbb hdim
  obtain ⟨tab, htab, hsorted, hind, hgap⟩ := cutIntv_spec hd hdim hh hbb rfl hmeet
  have hne : ∀ i ∈ tab, i.lb.toNat ≤ i.ub.toNat := fun i hi =>
    hsorted.nonempty i.seg (List.mem_map_of_mem hi)
  have hcard : (indices tab).card = (bb.cells ∩ (bbVirt bb.numDims dimVirt).cells).card := by
    rw [hind, card_boxIndices hd hdim hh]
  have hlt : (indices tab).card < 2 ^ 64 := by
    rw [hcard]
    exact lt_of_le_of_lt (Finset.card_le_card Finset.inter_subset_right)
      (card_bbVirt_lt hd hdim hbits)
  refine ⟨tab, htab, fun i hi => UInt64.le_iff_toNat_le.2 (hne i hi), ?_, hgap, fun p => ?_, ?_⟩
  · refine List.Pairwise.imp_of_mem (fun {i j} hi _ hij => ?_) hgap
    have := hne i hi
    exact UInt64.lt_iff_toNat_lt.2 (by omega)
  · rw [← mem_indices, hind, boxIndices, computeBits_two_pow hdim hd.bits, Finset.mem_image]
    rfl
  · rw [sum_intvSize hsorted hlt, hcard]

/-- For every box that meets a virtual cube whose indices fit 64 bits, `bbox_to_intv` returns that table iff the
queues can count. -/
theorem bboxToIntv_exact_iff (hbb : bb.Valid) (hdim : dimVirt.toNat = 2 ^ k)
    (hbits : bb.numDims * (k + 1) ≤ 64) (hh : HilbertCurve hilbertC2i bb.numDims (k + 1))
    (hmeet : (bb.cells ∩ (bbVirt bb.numDims dimVirt).cells).Nonempty) :
    (∃ tab, (∀ uninit, bboxToIntv hilbertC2i uninit bb dimVirt = some tab) ∧
      ExactTab hilbertC2i k bb dimVirt tab) ↔ QueueFits bb dimVirt := by
  have hd := CubeDims.of_valid hbb hdim
  constructor
  · rintro ⟨tab, htab, -⟩
    exact ((bboxToIntv_iff hbb hd hdim).1 (htab ⟨0, 0⟩)).2
  · intro hfits
    obtain ⟨tab, htab, hexact⟩ := cutIntv_exact hbb hdim hbits hh hmeet
    exact ⟨tab, fun uninit => (bboxToIntv_iff hbb hd hdim).2 ⟨htab uninit, hfits⟩, hexact⟩

theorem line_meets_bbVirt :
    ((BBox.line 1 2).cells ∩ (bbVirt 1 4).cells).Nonempty := by
  have hsub : (BBox.line 1 2).cells ⊆ (bbVirt 1 4).cells :=
    cells_subset_bbVirt (k := 2) ⟨by decide, by decide, by decide⟩ rfl rfl
      fun j hj => by obtain rfl : j = 0 := Nat.lt_one_iff.1 hj; decide
  rw [Finset.inter_eq_left.2 hsub]
  exact (BBox.line_valid (by decide)).cells_nonempty

theorem ringFits_line : RingFits (BBox.line 1 2) 4 :=
  .of_countP (by decide +kernel) (by decide +kernel)

/-- The interval `[1, 2]` of the line `[0, 3]`. -/
theorem bboxToIntv_exact_line :
    ∃ tab, (∀ uninit, bboxToIntv lineC2i uninit (BBox.line 1 2) 4 = some tab) ∧
      ExactTab lineC2i 2 (BBox.line 1 2) 4 tab :=
  (bboxToIntv_exact_iff (BBox.line_valid (by decide)) (show (4 : UInt64).toNat = 2 ^ 2 from rfl)
    (by decide) (hilbertCurve_lineC2i (by decide)) line_meets_bbVirt).2
    (ringFits_line.queueFits (show 1 ≤ BBOX_MAX_NDIM by decide))

end Exact

/-! ## A row of cells -/

section Row

variable {k : Nat} {dimVirt : UInt64} {bb : BBox}

/-- A box of width one in some dimension holds no sub-cube but its cells. -/
theorem countP_include_of_thin (hbb : bb.Valid) (hdim : dimVirt.toNat = 2 ^ k) {j : Nat}
    (hj : j < bb.numDims) (hthin : bb.lb.c j = bb.ub.c j) :
    (subCubes bb dimVirt).countP (bboxInclude bb) = (bb.cells ∩ (bbVirt bb.numDims dimVirt).cells).card := by
  have hd := CubeDims.of_valid hbb hdim
  obtain ⟨hcubes, hap, hcov⟩ := innerCubes_spec hd hbb hdim
  -- every cube in the box is one cell
  have hcell : ∀ b ∈ innerCubes bb dimVirt, ((bb.cells ∩ (bbVirt bb.numDims dimVirt).cells) ∩ b.cells).card = 1 := by
    intro b hb
    have hsub : b.cells ⊆ bb.cells ∩ (bbVirt bb.numDims dimVirt).cells := by
      rw [← hcov]
      exact fun x hx => Cover.mem_union.2 ⟨b, hb, hx⟩
    obtain ⟨l, hcube⟩ := hcubes b hb
    have hincl := bboxInclude_iff_ondim.1 ((bboxInclude_iff (hcube.valid hd) hcube.dims.symm).2
      (hsub.trans Finset.inter_subset_left)) j hj
    have hside := hcube.side j hj
    have hl := Nat.two_pow_pos l
    have hpow : 2 ^ l = 2 ^ 0 := by
      rw [hthin] at hincl
      omega
    obtain rfl : l = 0 := Nat.pow_right_injective le_rfl hpow
    obtain ⟨x, hx⟩ := (hcube.valid hd).cells_nonempty
    rw [Finset.inter_eq_right.2 hsub, Finset.card_eq_one]
    exact ⟨x, Finset.eq_singleton_iff_unique_mem.2 ⟨hx, fun y hy => hcube.eq_of_mem_zero hy hx⟩⟩
  have hsum := hap.sum_card_inter (bb.cells ∩ (bbVirt bb.numDims dimVirt).cells)
  rw [hcov, Finset.inter_self] at hsum
  rw [List.countP_eq_length_filter, ← innerCubes, ← hsum, List.map_congr_left hcell, List.map_const',
    List.sum_replicate, smul_eq_mul, mul_one]

/-- `2 ^ 31` cells next to each other. -/
def cellRow : BBox where
  numDims := 2
  lb := Coord.ofFn fun _ => 0
  ub := Coord.ofFn fun i => if i = 0 then 0x7fffffff else 0

theorem cellRow_valid : cellRow.Valid :=
  ⟨⟨by decide, by decide⟩, by decide⟩

theorem cellRow_cubeDims : CubeDims 31 cellRow.numDims :=
  ⟨by decide, by decide, by decide⟩

/-- All of them are in the virtual cube of that side. -/
theorem cellRow_subset : cellRow.cells ⊆ (bbVirt cellRow.numDims 0x80000000).cells :=
  cells_subset_bbVirt cellRow_cubeDims rfl rfl (by decide)

theorem cellRow_meets : (cellRow.cells ∩ (bbVirt cellRow.numDims 0x80000000).cells).Nonempty := by
  rw [Finset.inter_eq_left.2 cellRow_subset]
  exact cellRow_valid.cells_nonempty

theorem countP_cellRow : (subCubes cellRow 0x80000000).countP (bboxInclude cellRow) = 2 ^ 31 := by
  rw [countP_include_of_thin cellRow_valid (k := 31) rfl (j := 1) (by decide) (by decide),
    Finset.inter_eq_left.2 cellRow_subset, BBox.card_cells cellRow_valid.dims.2]
  decide

/-- In a plane whose indices have 64 bits the row has more cells than an `int` counts. -/
theorem not_bboxToIntv_exact_row :
    HilbertCurve hilbertC2i 2 32 ∧ cellRow.Valid ∧
      (cellRow.cells ∩ (bbVirt 2 0x80000000).cells).Nonempty ∧
      ∀ uninit, bboxToIntv hilbertC2i uninit cellRow 0x80000000 = none := by
  refine ⟨hilbertCurve_hilbertC2i (by decide) (by decide) (by decide), cellRow_valid, cellRow_meets,
    fun uninit => Option.eq_none_iff_forall_ne_some.2 fun tab htab => ?_⟩
  have hfits := ((bboxToIntv_iff cellRow_valid cellRow_cubeDims rfl).1 htab).2
  have hinside := hfits.inside
  rw [countP_cellRow] at hinside
  exact absurd hinside (by decide)

end Row

/-! ## The two functions -/

section Ring

variable {k : Nat} {dimVirt : UInt64} {bb : BBox}

/-- A box that misses the virtual cube is looked at once. -/
theorem ringFits_of_miss (hbb : bb.Valid) (hdim : dimVirt.toNat = 2 ^ k)
    (hmiss : ¬ (bb.cells ∩ (bbVirt bb.numDims dimVirt).cells).Nonempty) : RingFits bb dimVirt := by
  have hd := CubeDims.of_valid hbb hdim
  have hvirt := (bbVirt_isCube hd hdim).valid hd
  have hdims : bb.numDims = (bbVirt bb.numDims dimVirt).numDims := rfl
  refine (ringRuns_bbVirt hd hbb hdim).1 (ringRuns_of_miss (fun hincl => hmiss ?_) fun hmeet =>
    hmiss ((bboxDoesIntersect_iff hbb hvirt hdims).1 hmeet))
  rw [Finset.inter_eq_right.2 ((bboxInclude_iff hvirt hdims).1 hincl)]
  exact hvirt.cells_nonempty

/-- And returned as one interval of uninitialised memory. -/
theorem bboxToIntv2_of_miss {hilbertC2i : HilbertC2i} (hbb : bb.Valid) (hdim : dimVirt.toNat = 2 ^ k)
    (hmiss : ¬ (bb.cells ∩ (bbVirt bb.numDims dimVirt).cells).Nonempty) (uninit : Intv) :
    bboxToIntv2 hilbertC2i uninit bb dimVirt = some [uninit] := by
  have hd := CubeDims.of_valid hbb hdim
  obtain ⟨hcubes, -, hcov⟩ := innerCubes_spec hd hbb hdim
  -- a sub-cube inside would have a cell in both
  have hnil : innerCubes bb dimVirt = [] := by
    refine List.eq_nil_iff_forall_not_mem.2 fun b hb => ?_
    obtain ⟨l, hcube⟩ := hcubes b hb
    obtain ⟨x, hx⟩ := (hcube.valid hd).cells_nonempty
    have hx' : x ∈ Cover.union BBox.cells (innerCubes bb dimVirt) := Cover.mem_union.2 ⟨b, hb, hx⟩
    rw [hcov] at hx'
    exact hmiss ⟨x, hx'⟩
  refine (bboxToIntv2_iff hbb hd hdim).2 ⟨?_, ringFits_of_miss hbb hdim hmiss⟩
  rw [cutIntv, hnil]
  simp [intvFinish, intvCompact]

/-- For every side `2 ^ k` and every box that meets the virtual cube: `bbox_to_intv` and `bbox_to_intv2` return
the same table, and after any number of turns the boxes from `bb_head` to `bb_tail` are the boxes of the queue,
in the same order, iff the circular table has room for them. -/
theorem bboxToIntv2_refines_iff (hilbertC2i : HilbertC2i) (hbb : bb.Valid) (hdim : dimVirt.toNat = 2 ^ k)
    (hmeet : (bb.cells ∩ (bbVirt bb.numDims dimVirt).cells).Nonempty) :
    ((∃ tab, ∀ uninit uninit', bboxToIntv hilbertC2i uninit bb dimVirt = some tab ∧
        bboxToIntv2 hilbertC2i uninit' bb dimVirt = some tab) ∧
      ∀ i, ∃ s, ringAfter (bboxFlat hilbertC2i (computeBits dimVirt)) bb dimVirt i = some s ∧
        s.1.waiting = (queueTurn bb)^[i] [bbVirt bb.numDims dimVirt]) ↔ RingFits bb dimVirt := by
  have hd := CubeDims.of_valid hbb hdim
  constructor
  · rintro ⟨⟨tab, htab⟩, -⟩
    exact ((bboxToIntv2_iff hbb hd hdim).1 (htab ⟨0, 0⟩ ⟨0, 0⟩).2).2
  · intro hfits
    have hqueue := hfits.queueFits hd.le
    obtain ⟨tab, htab⟩ := cutIntv_eq_of_meets hilbertC2i hbb hdim hmeet
    exact ⟨⟨tab, fun uninit uninit' => ⟨(bboxToIntv_iff hbb hd hdim).2 ⟨htab uninit, hqueue⟩,
        (bboxToIntv2_iff hbb hd hdim).2 ⟨htab uninit', hfits⟩⟩⟩,
      ringAfter_waiting hd.le ((ringRuns_bbVirt hd hbb hdim).2 hfits)⟩

/-- The interval `[1, 2]` again: after three turns the four cells of the line are pending. -/
theorem bboxToIntv2_refines_line :
    (∃ tab, ∀ uninit uninit', bboxToIntv lineC2i uninit (BBox.line 1 2) 4 = some tab ∧
      bboxToIntv2 lineC2i uninit' (BBox.line 1 2) 4 = some tab) ∧
    ∃ s, ringAfter (bboxFlat lineC2i 3) (BBox.line 1 2) 4 3 = some s ∧
      s.1.waiting = (queueTurn (BBox.line 1 2))^[3] [bbVirt 1 4] := by
  have h := (bboxToIntv2_refines_iff lineC2i (BBox.line_valid (show (1 : UInt64) ≤ 2 by decide))
    (show (4 : UInt64).toNat = 2 ^ 2 from rfl) line_meets_bbVirt).2 ringFits_line
  exact ⟨h.1, h.2 3⟩

/-- The row of `2 ^ 31` cells has more intervals than the table of `bbox_to_intv2` holds. -/
theorem not_bboxToIntv2_refines_row :
    cellRow.Valid ∧ (cellRow.cells ∩ (bbVirt 2 0x80000000).cells).Nonempty ∧
      ∀ uninit, bboxToIntv2 hilbertC2i uninit cellRow 0x80000000 = none := by
  refine ⟨cellRow_valid, cellRow_meets, fun uninit => Option.eq_none_iff_forall_ne_some.2 fun tab htab => ?_⟩
  have hfits := ((bboxToIntv2_iff cellRow_valid cellRow_cubeDims rfl).1 htab).2
  have hinside := hfits.inside
  rw [countP_cellRow] at hinside
  exact absurd hinside (by decide +kernel)

end Ring

end DataSpaces
