import DataSpaces.DhtTable
import DataSpaces.Ownership

/-!
# Coverage — what the lookup of a query counts

A server answers a query for the cells it owns.  It starts from the number of these cells and takes
off what every matching descriptor covers of them; since the descriptors of one name and version are
disjoint, what is left is the number of cells that none of them covers (`uncovered`), as a `long`.
-/

namespace DataSpaces

/-- The cells of the box among `owned` that none of the boxes covers. -/
def uncovered (owned : Finset Cell) (bb : BBox) (covering : List BBox) : Finset Cell :=
  (bb.cells ∩ owned) \ Cover.union BBox.cells covering

/-- On boxes inside the domain `count` counts the cells of `owned`. -/
def Counts (count : BBox → Option Int64) (ss : SSpace) (owned : Finset Cell) : Prop :=
  ∀ bb, ss.Within bb → count bb = some (Int64.ofNat (bb.cells ∩ owned).card)

theorem Partitioned.counts {hilbertC2i : HilbertC2i} {ss : SSpace} {numNodes : Nat}
    (h : Partitioned hilbertC2i ss numNodes) (uninit : Intv) {de : DhtEntry} (hde : de ∈ ss.entTab) :
    Counts (sshHashElemCount hilbertC2i uninit ss de) ss (de.owned hilbertC2i ss) :=
  fun _ hbb => h.count uninit hde hbb

/-- The nodes of the table that match a query. -/
def DhtTable.found (de : DhtTable) (qOdsc : ObjDesc) : List Slot :=
  (de.odscHash (de.index qOdsc)).filter fun s => objDescEqualsIntersect s.odsc qOdsc

/-- The matching descriptors are valid boxes of the dimensionality of the query, and disjoint. -/
structure DhtTable.Separate (de : DhtTable) (qOdsc : ObjDesc) : Prop where
  valid : ∀ s ∈ de.found qOdsc, s.odsc.bb.Valid
  dims : ∀ s ∈ de.found qOdsc, s.odsc.bb.numDims = qOdsc.bb.numDims
  apart : Cover.Apart (fun s : Slot => s.odsc.bb.cells) (de.found qOdsc)

theorem bboxDoesIntersect_comm {b0 b1 : BBox} (hd : b0.numDims = b1.numDims) :
    bboxDoesIntersect b0 b1 = bboxDoesIntersect b1 b0 := by
  rw [Bool.eq_iff_iff, bboxDoesIntersect_iff_ondim, bboxDoesIntersect_iff_ondim, ← hd]
  refine forall₂_congr fun i _ => ?_
  rw [bboxIntersectOndim_iff, bboxIntersectOndim_iff, or_comm]

section Scan

variable {count : BBox → Option Int64} {ss : SSpace} {owned : Finset Cell} {qOdsc : ObjDesc}

/-- The count of the part of a query inside a matching descriptor. -/
theorem Counts.inter (hcount : Counts count ss owned) (hq : ss.InDomain qOdsc.bb) {odsc : ObjDesc}
    (hv : odsc.bb.Valid) (hd : odsc.bb.numDims = qOdsc.bb.numDims)
    (hm : bboxDoesIntersect odsc.bb qOdsc.bb = true) :
    count (bboxIntersect qOdsc.bb odsc.bb) =
        some (Int64.ofNat (qOdsc.bb.cells ∩ owned ∩ odsc.bb.cells).card) ∧
      count (bboxIntersect odsc.bb qOdsc.bb) =
        some (Int64.ofNat (qOdsc.bb.cells ∩ owned ∩ odsc.bb.cells).card) := by
  have hm' : bboxDoesIntersect qOdsc.bb odsc.bb = true := bboxDoesIntersect_comm hd ▸ hm
  have hin : ss.InDomain (bboxIntersect qOdsc.bb odsc.bb) := hq.inter hv hd hm'
  have hin' : ss.InDomain (bboxIntersect odsc.bb qOdsc.bb) :=
    { valid := bboxIntersect_valid hv hq.valid hd hm
      dims := hd.trans hq.dims
      subset := by
        rw [bboxIntersect_cells hd]
        exact Finset.inter_subset_right.trans hq.subset
      ring := fun hv part hpart hdims hsub => by
        rw [bboxIntersect_cells hd] at hsub
        exact hq.ring hv part hpart (hdims.trans hd) (hsub.trans Finset.inter_subset_right) }
  -- the code makes the two intersections in different orders
  have hcells : (bboxIntersect qOdsc.bb odsc.bb).cells ∩ owned =
      qOdsc.bb.cells ∩ owned ∩ odsc.bb.cells := by
    rw [bboxIntersect_cells hd.symm, Finset.inter_right_comm]
  have hcells' : (bboxIntersect odsc.bb qOdsc.bb).cells ∩ owned =
      qOdsc.bb.cells ∩ owned ∩ odsc.bb.cells := by
    rw [bboxIntersect_cells hd, Finset.inter_comm odsc.bb.cells, Finset.inter_right_comm]
  exact ⟨by rw [hcount _ hin.within, hcells], by rw [hcount _ hin'.within, hcells']⟩

/-- The scan takes the part of every matching descriptor off `num_elem`. -/
theorem dhtScan_spec (hcount : Counts count ss owned) (hq : ss.InDomain qOdsc.bb) (l : List Slot) :
    ∀ numElem : Int64,
      (∀ s ∈ l, objDescEqualsIntersect s.odsc qOdsc = true →
        s.odsc.bb.Valid ∧ s.odsc.bb.numDims = qOdsc.bb.numDims) →
      dhtScan count qOdsc l numElem =
        some ((l.filter fun s => objDescEqualsIntersect s.odsc qOdsc).map Slot.id,
          numElem - Int64.ofNat
            (((l.filter fun s => objDescEqualsIntersect s.odsc qOdsc).map fun s =>
              (qOdsc.bb.cells ∩ owned ∩ s.odsc.bb.cells).card).sum)) := by
  induction l with
  | nil =>
      intro numElem _
      simp [dhtScan]
  | cons s l ih =>
      intro numElem hl
      rw [dhtScan]
      by_cases hm : objDescEqualsIntersect s.odsc qOdsc = true
      · -- a match goes into the table, and its part is taken off
        rcases hl s (by simp) hm with ⟨hv, hd⟩
        have hmeet := (objDescEqualsIntersect_iff.1 hm).2.2
        rw [if_pos hm, (hcount.inter hq hv hd hmeet).1]
        simp only [Option.bind_eq_bind, Option.bind_some]
        rw [ih _ fun s' hs' => hl s' (by simp [hs'])]
        simp [hm, Int64.ofNat_add, Int64.sub_sub]
      · rw [if_neg hm, ih _ fun s' hs' => hl s' (by simp [hs'])]
        simp [hm]

/-- What is left after the scan is the number of uncovered cells. -/
theorem card_uncovered (owned : Finset Cell) (qOdsc : ObjDesc) {l : List Slot}
    (hap : Cover.Apart (fun s : Slot => s.odsc.bb.cells) l) :
    (uncovered owned qOdsc.bb (l.map fun s => s.odsc.bb)).card +
      (l.map fun s => (qOdsc.bb.cells ∩ owned ∩ s.odsc.bb.cells).card).sum =
        (qOdsc.bb.cells ∩ owned).card := by
  rw [hap.sum_card_inter, uncovered, Cover.union_map]
  exact Finset.card_sdiff_add_card_inter _ _

/-- `dht_find_entry_all` decides on the number of uncovered cells. -/
theorem dhtFindEntryAll_eq {de : DhtTable} (hcount : Counts count ss owned)
    (hq : ss.InDomain qOdsc.bb) (hsep : de.Separate qOdsc) (timeout : Int) :
    dhtFindEntryAll count de qOdsc timeout =
      some (
        let left := Int64.ofNat
          (uncovered owned qOdsc.bb ((de.found qOdsc).map fun s => s.odsc.bb)).card
        let odscTab := (de.found qOdsc).map Slot.id
        if timeout = -1 then if left > 0 then .wait odscTab left else .done odscTab
        else if left > 0 then .done [] else .done odscTab) := by
  have hscan := dhtScan_spec hcount hq (de.odscHash (de.index qOdsc))
    (Int64.ofNat (qOdsc.bb.cells ∩ owned).card) fun s hs hm =>
      ⟨hsep.valid s (List.mem_filter.2 ⟨hs, hm⟩), hsep.dims s (List.mem_filter.2 ⟨hs, hm⟩)⟩
  have hcard := card_uncovered owned qOdsc hsep.apart
  -- the matches are apart, so that what is left is the number of uncovered cells
  have hleft : Int64.ofNat (qOdsc.bb.cells ∩ owned).card - Int64.ofNat
      (((de.found qOdsc).map fun s => (qOdsc.bb.cells ∩ owned ∩ s.odsc.bb.cells).card).sum) =
        Int64.ofNat (uncovered owned qOdsc.bb ((de.found qOdsc).map fun s => s.odsc.bb)).card := by
    rw [← Int64.ofNat_sub _ _ (by omega)]
    congr 1
    omega
  rw [DhtTable.found] at hleft
  rw [hleft] at hscan
  simp only [dhtFindEntryAll, hcount _ hq.within, Option.bind_eq_bind, Option.bind_some, hscan,
    DhtTable.found]
  by_cases ht : timeout = -1
  · simp only [ht, if_true]
    rfl
  · simp only [ht, if_false]
    rfl

end Scan

/-! ## Counts as `long`s -/

theorem int64_ofNat_pos {n : ℕ} (h : n < 2 ^ 63) : Int64.ofNat n > 0 ↔ 0 < n := by
  rw [gt_iff_lt, Int64.lt_iff_toInt_lt, Int64.toInt_ofNat_of_lt h]
  simp

end DataSpaces
