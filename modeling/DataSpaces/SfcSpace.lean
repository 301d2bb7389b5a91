import DataSpaces.SfcCells
import DataSpaces.SpaceLookup

/-!
# SfcSpace — boxes and spaces on the curve of `sfc.h`

With the curve at hand nothing is left to assume: the intervals of a box are walks through its cells, and a v1
space shares its domain out among the servers.
-/

namespace DataSpaces

/-! ## The cells of a box along the curve -/

section Walk

variable {k : ℕ} {dimVirt : UInt64} {bb : BBox}

theorem mem_cellCoord {d nBits : ℕ} {x : Cell} (hx : InGrid d nBits x) (hmax : d ≤ BBOX_MAX_NDIM)
    (hbits : nBits ≤ 64) : ∀ c ∈ cellCoord d x, c.toNat < 2 ^ nBits := by
  intro c hc
  rcases List.mem_map.1 hc with ⟨j, hj, rfl⟩
  have hlt := hx.lt hmax (List.mem_range.1 hj)
  have hlt' := hlt.trans_le (Nat.pow_le_pow_right Nat.two_pos hbits)
  rwa [UInt64.toNat_ofNat', Nat.mod_eq_of_lt hlt']

/-- For every box that meets a virtual cube whose indices fit a word, and whose sub-cubes the queues can count,
`hilbert_i2c` takes the indices in the table of `bbox_to_intv` to the cells of the box in the cube, each of them
from one index; and through the cells of one interval it goes from neighbour to neighbour. -/
theorem bboxToIntv_walks (hbb : bb.Valid) (hdim : dimVirt.toNat = 2 ^ k) (hbits : bb.numDims * (k + 1) ≤ 64)
    (hmeet : (bb.cells ∩ (bbVirt bb.numDims dimVirt).cells).Nonempty) (hqueues : QueueFits bb dimVirt) :
    ∃ tab, (∀ uninit, bboxToIntv hilbertC2i uninit bb dimVirt = some tab) ∧
      (∀ x ∈ bb.cells ∩ (bbVirt bb.numDims dimVirt).cells, ∃! p : UInt64,
        (∃ i ∈ tab, i.lb ≤ p ∧ p ≤ i.ub) ∧ hilbertI2c bb.numDims (k + 1) p = cellCoord bb.numDims x) ∧
      ∀ i ∈ tab, ∀ p, i.lb ≤ p → p ≤ i.ub →
        (∃ x ∈ bb.cells ∩ (bbVirt bb.numDims dimVirt).cells,
          hilbertI2c bb.numDims (k + 1) p = cellCoord bb.numDims x) ∧
        (p < i.ub → CellsTouch bb.numDims (hilbertI2c bb.numDims (k + 1) p)
          (hilbertI2c bb.numDims (k + 1) (p + 1))) := by
  have hd := CubeDims.of_valid hbb hdim
  have hcurve := hilbertCurve_hilbertC2i hd.pos hd.le hbits
  have h32 : bb.numDims ≤ 32 := hd.le.trans (by decide)
  have h64 : k + 1 ≤ 64 := (Nat.le_mul_of_pos_left (k + 1) hd.pos).trans hbits
  obtain ⟨tab, hcut, -, hind, -⟩ := cutIntv_spec hd hdim hcurve hbb rfl hmeet
  have htab : ∀ uninit, bboxToIntv hilbertC2i uninit bb dimVirt = some tab :=
    fun uninit => (bboxToIntv_iff hbb hd hdim).2 ⟨hcut uninit, hqueues⟩
  have hgrid : ∀ x ∈ bb.cells ∩ (bbVirt bb.numDims dimVirt).cells, InGrid bb.numDims (k + 1) x :=
    fun x hx => (bbVirt_isCube hd hdim).inGrid_of_mem (Nat.le_succ k) (Finset.mem_inter.1 hx).2
  have hcell : ∀ x ∈ bb.cells ∩ (bbVirt bb.numDims dimVirt).cells,
      hilbertI2c bb.numDims (k + 1) (hilbertC2i bb.numDims (k + 1) (cellCoord bb.numDims x)) =
        cellCoord bb.numDims x := fun x hx =>
    hilbertI2c_hilbertC2i hd.pos h32 (Nat.succ_pos k) hbits (by simp [cellCoord])
      (mem_cellCoord (hgrid x hx) hd.le h64)
  -- an index of the table is that of a cell of the box
  have hindex : ∀ p : UInt64, (∃ i ∈ tab, i.lb ≤ p ∧ p ≤ i.ub) ↔
      ∃ x ∈ bb.cells ∩ (bbVirt bb.numDims dimVirt).cells,
        hilbertC2i bb.numDims (k + 1) (cellCoord bb.numDims x) = p := by
    intro p
    have hp : p.toNat ∈ indices tab ↔ ∃ i ∈ tab, i.lb ≤ p ∧ p ≤ i.ub := mem_indices
    rw [← hp, hind, boxIndices, computeBits_two_pow hdim hd.bits, Finset.mem_image]
    simp only [curveIndex, UInt64.toNat_inj]
  refine ⟨tab, htab, fun x hx => ?_, fun i hi p hlb hub => ⟨?_, fun hlt => ?_⟩⟩
  · refine ⟨hilbertC2i bb.numDims (k + 1) (cellCoord bb.numDims x),
      ⟨(hindex _).2 ⟨x, hx, rfl⟩, hcell x hx⟩, ?_⟩
    rintro q ⟨hq, hqx⟩
    obtain ⟨y, hy, rfl⟩ := (hindex q).1 hq
    rw [hcell y hy] at hqx
    rw [hqx]
  · obtain ⟨x, hx, rfl⟩ := (hindex p).1 ⟨i, hi, hlb, hub⟩
    exact ⟨x, hx, hcell x hx⟩
  · obtain ⟨y, hy, hlast⟩ := (hindex i.ub).1 ⟨i, hi, UInt64.le_trans hlb hub, UInt64.le_refl i.ub⟩
    have hbound := hilbertC2i_lt hd.pos h32 (Nat.succ_pos k) hbits (by simp [cellCoord])
      (mem_cellCoord (hgrid y hy) hd.le h64)
    rw [hlast] at hbound
    have hstep := UInt64.lt_iff_toNat_lt.1 hlt
    exact cellsTouch_hilbertI2c hd.pos h32 (Nat.succ_pos k) hbits (by omega)

/-- The interval `[1, 2]` of the line `[0, 3]`. -/
theorem bboxToIntv_walks_line :
    ∃ tab, (∀ uninit, bboxToIntv hilbertC2i uninit (BBox.line 1 2) 4 = some tab) ∧
      ∀ i ∈ tab, ∀ p, i.lb ≤ p → p < i.ub → CellsTouch 1 (hilbertI2c 1 3 p) (hilbertI2c 1 3 (p + 1)) := by
  obtain ⟨tab, htab, -, hwalk⟩ := bboxToIntv_walks (BBox.line_valid (show (1 : UInt64) ≤ 2 by decide))
    (show (4 : UInt64).toNat = 2 ^ 2 from rfl) (by decide) line_meets_bbVirt
    (ringFits_line.queueFits (by decide))
  exact ⟨tab, htab, fun i hi p hlb hub => (hwalk i hi p hlb (UInt64.le_of_lt hub)).2 hub⟩

end Walk

/-! ## A space cut along the curve -/

section Space

variable {dom : BBox} {numNodes maxVersions : Nat}

/-- When the virtual cube covers the domain and no server stays without a cell, `ssd_alloc_v1` returns a space
that the curve fits. -/
theorem exists_spaceBuilt_v1 (maxVersions : Nat) (hdom : dom.Valid) (horigin : ∀ j < dom.numDims, dom.lb.c j = 0)
    (hpos : 1 ≤ numNodes) (hint : numNodes < 2 ^ 31) (henough : numNodes ≤ dom.cells.card)
    (hcovers : Coverable dom) (uninit : Intv) :
    ∃ ss, ssdAllocV1 hilbertC2i uninit dom numNodes maxVersions = some ss ∧ ss.bbGlbDomain = dom ∧
      SpaceBuilt hilbertC2i uninit dom numNodes maxVersions .v1 ss := by
  have hends := (@ssdAllocV1_ends_iff hilbertC2i dom numNodes maxVersions hdom horigin hpos hint
    fun n _ hn => hilbertCurve_hilbertC2i hdom.dims.1 hdom.dims.2 hn).2 hcovers
  obtain ⟨ss, hss⟩ := Option.isSome_iff_exists.1 (hends.1 uninit)
  obtain ⟨hmax, hdomain⟩ := ssdAllocV1_fields hss
  obtain ⟨k, hk, hpk, -, -⟩ := nextPow2V2_some hmax
  have hbits := bits_of_callsFit hdom hpk (meets_bbVirt_of_origin horigin _) (hends.2 _ hmax)
  have hcomp : computeBits ss.maxDim = k + 1 := computeBits_two_pow hpk hk
  have hcurve : HilbertCurve hilbertC2i dom.numDims (computeBits ss.maxDim) := by
    rw [hcomp]
    exact hilbertCurve_hilbertC2i hdom.dims.1 hdom.dims.2 hbits
  have hbelow := ub_lt_of_ssdAllocV1 hdom horigin hpos hint hss hcurve
  exact ⟨ss, hss, hdomain, hdom, fun j hj => Or.inl (horigin j hj), hpos, hint, hss,
    Or.inr ⟨ssdAllocV1_version hss, ⟨hbelow, by rwa [hcomp], hcurve⟩, henough⟩⟩

/-- It shares the cells of the domain out among the servers; the counts and the hashes of all boxes agree with
it. -/
theorem ssdAllocV1_partitions (hdom : dom.Valid) (horigin : ∀ j < dom.numDims, dom.lb.c j = 0)
    (hpos : 1 ≤ numNodes) (hint : numNodes < 2 ^ 31) (henough : numNodes ≤ dom.cells.card)
    (hcovers : Coverable dom) :
    ∀ uninit, ∃ ss, ssdAllocV1 hilbertC2i uninit dom numNodes maxVersions = some ss ∧
      ss.bbGlbDomain = dom ∧ Partitioned hilbertC2i ss numNodes := by
  intro uninit
  obtain ⟨ss, hss, hdomain, hbuilt⟩ := exists_spaceBuilt_v1 maxVersions hdom horigin hpos hint henough hcovers uninit
  exact ⟨ss, hss, hdomain, hbuilt.partitioned⟩

theorem six_ne_two_pow (a : Nat) : 6 ≠ 2 ^ a := by
  intro h
  rcases a with _ | a
  · omega
  · rw [Nat.pow_succ] at h
    exact ne_two_pow_of_odd (n := 3) rfl (by decide) a (by omega)

theorem coverable_square : Coverable (gdimDomain (.cube 2 7)) :=
  .of_ringFits ⟨by decide, by decide⟩ (p := 8) (by decide) (by decide) six_ne_two_pow
    (.of_countP (by decide +kernel) (by decide +kernel))

/-- Three servers and a square of side 7. -/
theorem ssdAllocV1_partitions_square :
    ∃ ss, ssdAllocV1 hilbertC2i ⟨0, 0⟩ (gdimDomain (.cube 2 7)) 3 1 = some ss ∧
      Partitioned hilbertC2i ss 3 := by
  have hdom : (gdimDomain (.cube 2 7)).Valid := gdimDomain_valid (by decide) (by decide)
  have hcard : 3 ≤ (gdimDomain (.cube 2 7)).cells.card := by
    rw [BBox.card_cells hdom.dims.2]
    decide
  obtain ⟨ss, hss, -, hpart⟩ := ssdAllocV1_partitions hdom (gdimDomain_origin (by decide))
    (by decide) (by decide) hcard coverable_square ⟨0, 0⟩
  exact ⟨ss, hss, hpart⟩

end Space

/-! ## Every cell is counted once -/

section Count

/-- On every space of any number of servers, cut up along a curve or by bisection: the counts of a box inside
the domain add up to its volume, and a server with a non-zero count is in its hash, iff the tables of
`bbox_to_intv2` have room for the box or are not used; and so for the server that two boxes with a common cell
share. -/
theorem sshHashElemCount_partition_iff {c2i : HilbertC2i} {uninit : Intv} {bbDomain : BBox}
    {numNodes maxVersions : Nat} {hashVersion : HashVersion} {ss : SSpace}
    (hss : SpaceBuilt c2i uninit bbDomain numNodes maxVersions hashVersion ss) :
    (∀ bb : BBox, bb.Inside bbDomain →
      (CountedOnce c2i ss numNodes bb ↔ (ss.hashVersion = .v1 → RingFits bb ss.maxDim))) ∧
    ∀ bb bb' : BBox, bb.Inside bbDomain → bb'.Inside bbDomain → (bb.cells ∩ bb'.cells).Nonempty →
      (ShareServer c2i ss bb bb' ↔
        (ss.hashVersion = .v1 → RingFits bb ss.maxDim ∧ RingFits bb' ss.maxDim)) := by
  have hpart := hss.partitioned
  have hdomain := ssdAlloc_domain hss.built
  have hwithin : ∀ {bb : BBox}, bb.Inside bbDomain → (ss.hashVersion = .v1 → RingFits bb ss.maxDim) →
      ss.Within bb := fun hbb hring =>
    ⟨⟨hbb.valid, by rw [hdomain, hbb.dims], hring⟩, by rw [hdomain]; exact hbb.subset⟩
  -- a box that is hashed has room
  have hring : ∀ {bb : BBox}, bb.Inside bbDomain → ∀ {uninit' r},
      ssdHash c2i uninit' 0 ss bb [] = some r → ss.hashVersion = .v1 → RingFits bb ss.maxDim := by
    intro bb hbb uninit' r hhash hv
    rcases ssdAlloc_cases hss.built with ⟨hv', -⟩ | ⟨-, halloc⟩ | ⟨hv', -⟩
    · exact nomatch hv.symm.trans hv'
    · obtain ⟨k, -, hside, -⟩ := nextPow2V2_some (ssdAllocV1_fields halloc).1
      exact ringFits_of_ssdHash hv hbb.valid (CubeDims.of_valid hbb.valid hside) hside hhash
    · exact nomatch hv.symm.trans hv'
  refine ⟨fun bb hbb => ⟨fun h hv => ?_, fun h => hpart.countedOnce (hwithin hbb h)⟩,
    fun bb bb' hbb hbb' hshare => ⟨fun h hv => ?_, fun h => ?_⟩⟩
  · obtain ⟨deTab, sfc, hhash, -⟩ := h.hashed ⟨0, 0⟩
    exact hring hbb hhash hv
  · obtain ⟨deTab, sfc, deTab', sfc', hhash, hhash', -⟩ := h ⟨0, 0⟩ ⟨0, 0⟩
    exact ⟨hring hbb hhash hv, hring hbb' hhash' hv⟩
  · exact hpart.shareServer (hwithin hbb fun hv => (h hv).1) (hwithin hbb' fun hv => (h hv).2) hshare

/-- The box `[1, 2]` in a space of each kind. -/
theorem sshHashElemCount_partition_line :
    CountedOnce lineC2i lineSpaceV1 2 (BBox.line 1 2) ∧ CountedOnce lineC2i lineSpaceV2 2 (BBox.line 1 2) := by
  have hle : (1 : UInt64) ≤ 2 := by decide
  have hinside : ∀ {hi : UInt64}, bboxInclude (BBox.line 0 hi) (BBox.line 1 2) = true →
      (BBox.line 1 2).Inside (BBox.line 0 hi) := fun {hi} h =>
    have hdims : (BBox.line 0 hi).numDims = (BBox.line 1 2).numDims := rfl
    ⟨BBox.line_valid hle, rfl, (bboxInclude_iff (BBox.line_valid hle) hdims).1 h⟩
  exact ⟨((sshHashElemCount_partition_iff spaceBuilt_lineSpaceV1).1 _ (hinside (by decide))).2
      fun _ => ringFits_line,
    ((sshHashElemCount_partition_iff spaceBuilt_lineSpaceV2).1 _ (hinside (by decide))).2
      fun hv => nomatch hv⟩

theorem coverable_plane : Coverable (gdimDomain (.cube 2 0x80000000)) :=
  .of_ringFits ⟨by decide, by decide⟩ (p := 0x80000000) (by decide +kernel) (by decide)
    (ne_two_pow_of_odd (by decide) (by decide)) (.of_countP (by decide +kernel) (by decide +kernel))

/-- One server and a plane of `2 ^ 62` cells: the row of `2 ^ 31` cells is not counted. -/
theorem not_countedOnce_row :
    ∃ ss, SpaceBuilt hilbertC2i ⟨0, 0⟩ (gdimDomain (.cube 2 0x80000000)) 1 1 .v1 ss ∧
      cellRow.Inside (gdimDomain (.cube 2 0x80000000)) ∧ ¬ CountedOnce hilbertC2i ss 1 cellRow := by
  have hdom : (gdimDomain (.cube 2 0x80000000)).Valid := gdimDomain_valid (by decide) (by decide)
  have hdims : (gdimDomain (.cube 2 0x80000000)).numDims = cellRow.numDims := rfl
  obtain ⟨ss, hss, -, hbuilt⟩ := exists_spaceBuilt_v1 1 hdom (gdimDomain_origin (by decide))
    le_rfl (by decide) (Finset.card_pos.2 hdom.cells_nonempty) coverable_plane ⟨0, 0⟩
  have hinside : cellRow.Inside (gdimDomain (.cube 2 0x80000000)) :=
    ⟨cellRow_valid, rfl, (bboxInclude_iff cellRow_valid hdims).1 (by decide)⟩
  refine ⟨ss, hbuilt, hinside, fun hcount => ?_⟩
  obtain ⟨deTab, sfc, hhash, -⟩ := hcount.hashed ⟨0, 0⟩
  have hside : nextPow2V2 (maxUb (gdimDomain (.cube 2 0x80000000))) = some 0x80000000 := by decide +kernel
  have hmax : ss.maxDim = 0x80000000 :=
    Option.some.inj ((ssdAllocV1_fields hss).1.symm.trans hside)
  have hfits := ringFits_of_ssdHash (ssdAllocV1_version hss) cellRow_valid cellRow_cubeDims
    (by rw [hmax]; rfl) hhash
  rw [hmax] at hfits
  have hcells := hfits.inside
  rw [countP_cellRow] at hcells
  exact absurd hcells (by decide +kernel)

end Count

end DataSpaces
