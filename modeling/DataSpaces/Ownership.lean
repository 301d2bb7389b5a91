import DataSpaces.HashCache
import DataSpaces.Intervals

/-!
# Ownership — what a shared space is for

A shared space is a partition of the cells of its domain among the entries, together with two ways to
consult it: `ssd_hash` lists at least the entries that own a cell of a box, and
`ssh_hash_elem_count` counts the cells of a box that one entry owns.  `Partitioned` says so; most
modules above this one use a space through it and never look at how the space was cut up.
-/

namespace DataSpaces

/-- The cells an entry is in charge of. -/
def DhtEntry.owned (hilbertC2i : HilbertC2i) (ss : SSpace) (de : DhtEntry) : Finset Cell :=
  match ss.hashVersion with
  | .v0 => ss.bbGlbDomain.cells
  | .v1 => ss.bbGlbDomain.cells.filter fun x =>
      curveIndex hilbertC2i ss.bbGlbDomain.numDims (computeBits ss.maxDim) x ∈ indices de.iTab
  | .v2 => Cover.union BBox.cells de.bbTab
  | .auto => ∅

/-- A valid box with the dimensionality of the domain, for which the tables of `bbox_to_intv2` have room. -/
structure SSpace.Fits (ss : SSpace) (bb : BBox) : Prop where
  valid : bb.Valid
  dims : bb.numDims = ss.bbGlbDomain.numDims
  ring : ss.hashVersion = .v1 → RingFits bb ss.maxDim

/-- Such a box inside the domain. -/
structure SSpace.Within (ss : SSpace) (bb : BBox) : Prop extends ss.Fits bb where
  subset : bb.cells ⊆ ss.bbGlbDomain.cells

/-- A valid box inside the domain, for which and for whose parts the tables of `bbox_to_intv2` have room. -/
structure SSpace.InDomain (ss : SSpace) (bb : BBox) : Prop where
  valid : bb.Valid
  dims : bb.numDims = ss.bbGlbDomain.numDims
  subset : bb.cells ⊆ ss.bbGlbDomain.cells
  ring : ss.hashVersion = .v1 → ∀ part : BBox, part.Valid → part.numDims = bb.numDims →
    part.cells ⊆ bb.cells → RingFits part ss.maxDim

/-- The entry has what `ssh_hash_elem_count` reads: on a v1 space, a hull of at least one interval. -/
def SSpace.Counted (ss : SSpace) (de : DhtEntry) : Prop :=
  ss.hashVersion = .v1 → de.iTab ≠ []

/-- The space is a partition of its domain among `numNodes` entries, the hash agrees with it, and so does
the count of the entries that have intervals. -/
structure Shared (hilbertC2i : HilbertC2i) (ss : SSpace) (numNodes : Nat) : Prop where
  ranks : ss.entTab.map DhtEntry.rank = List.range numNodes
  apart : Cover.Apart (DhtEntry.owned hilbertC2i ss) ss.entTab
  union : Cover.union (DhtEntry.owned hilbertC2i ss) ss.entTab = ss.bbGlbDomain.cells
  countOf : ∀ (uninit : Intv), ∀ de ∈ ss.entTab, ss.Counted de → ∀ bb, ss.Within bb →
    sshHashElemCount hilbertC2i uninit ss de bb =
      some (Int64.ofNat (bb.cells ∩ de.owned hilbertC2i ss).card)
  hash : ∀ bb, ss.Fits bb → (bb.cells ∩ ss.bbGlbDomain.cells).Nonempty →
    ∃ ranks, (∀ uninit, ssdHashLoop hilbertC2i uninit ss bb = some ranks) ∧
      ranks.Sublist (List.range numNodes) ∧
      ∀ de ∈ ss.entTab, (bb.cells ∩ de.owned hilbertC2i ss).Nonempty → de.rank ∈ ranks

/-- Such a space without entries that have no intervals. -/
structure Partitioned (hilbertC2i : HilbertC2i) (ss : SSpace) (numNodes : Nat) : Prop extends
    Shared hilbertC2i ss numNodes where
  counted : ∀ de ∈ ss.entTab, ss.Counted de

theorem SSpace.Within.meets {ss : SSpace} {bb : BBox} (h : ss.Within bb) :
    (bb.cells ∩ ss.bbGlbDomain.cells).Nonempty := by
  rw [Finset.inter_eq_left.2 h.subset]
  exact h.valid.cells_nonempty

theorem SSpace.InDomain.within {ss : SSpace} {bb : BBox} (h : ss.InDomain bb) : ss.Within bb :=
  ⟨⟨h.valid, h.dims, fun hv => h.ring hv bb h.valid rfl subset_rfl⟩, h.subset⟩

theorem SSpace.InDomain.toFits {ss : SSpace} {bb : BBox} (h : ss.InDomain bb) : ss.Fits bb :=
  h.within.toFits

theorem SSpace.InDomain.meets {ss : SSpace} {bb : BBox} (h : ss.InDomain bb) :
    (bb.cells ∩ ss.bbGlbDomain.cells).Nonempty :=
  h.within.meets

/-- Boxes inside the domain that meet meet in a box inside the domain. -/
theorem SSpace.InDomain.inter {ss : SSpace} {b0 b1 : BBox} (h0 : ss.InDomain b0)
    (h1 : b1.Valid) (hd : b1.numDims = b0.numDims) (hmeet : bboxDoesIntersect b0 b1 = true) :
    ss.InDomain (bboxIntersect b0 b1) where
  valid := bboxIntersect_valid h0.valid h1 hd.symm hmeet
  dims := h0.dims
  subset := by
    rw [bboxIntersect_cells hd.symm]
    exact Finset.inter_subset_left.trans h0.subset
  ring hv part hpart hdims hsub := by
    rw [bboxIntersect_cells hd.symm] at hsub
    exact h0.ring hv part hpart hdims (hsub.trans Finset.inter_subset_left)

namespace Shared

variable {hilbertC2i : HilbertC2i} {ss : SSpace} {numNodes : Nat}

theorem length_entTab (h : Shared hilbertC2i ss numNodes) : ss.entTab.length = numNodes := by
  have := congrArg List.length h.ranks
  simpa using this

/-- Every cell of the domain has an owner. -/
theorem exists_owner (h : Shared hilbertC2i ss numNodes) {x : Cell}
    (hx : x ∈ ss.bbGlbDomain.cells) : ∃ de ∈ ss.entTab, x ∈ de.owned hilbertC2i ss := by
  rw [← h.union] at hx
  exact Cover.mem_union.1 hx

/-- The counts of all entries add up to the cells of the box. -/
theorem sum_card_owned (h : Shared hilbertC2i ss numNodes) {bb : BBox} (hbb : ss.Within bb) :
    (ss.entTab.map fun de => (bb.cells ∩ de.owned hilbertC2i ss).card).sum = bb.cells.card := by
  rw [h.apart.sum_card_inter, h.union, Finset.inter_eq_left.2 hbb.subset]

theorem rank_lt (h : Shared hilbertC2i ss numNodes) {de : DhtEntry} (hde : de ∈ ss.entTab) :
    de.rank < numNodes := by
  have hmem : de.rank ∈ ss.entTab.map DhtEntry.rank := List.mem_map_of_mem hde
  rw [h.ranks] at hmem
  exact List.mem_range.1 hmem

theorem getElem?_entTab (h : Shared hilbertC2i ss numNodes) {r : Nat} (hr : r < numNodes) :
    ∃ de, ss.entTab[r]? = some de ∧ de.rank = r := by
  have hlt : r < ss.entTab.length := h.length_entTab.symm ▸ hr
  refine ⟨ss.entTab[r], List.getElem?_eq_getElem hlt, ?_⟩
  have hget : (ss.entTab.map DhtEntry.rank)[r]? = (List.range numNodes)[r]? := by rw [h.ranks]
  rw [List.getElem?_map, List.getElem?_eq_getElem hlt, List.getElem?_range hr] at hget
  simpa using hget

end Shared

theorem Partitioned.count {hilbertC2i : HilbertC2i} {ss : SSpace} {numNodes : Nat}
    (h : Partitioned hilbertC2i ss numNodes) (uninit : Intv) {de : DhtEntry} (hde : de ∈ ss.entTab)
    {bb : BBox} (hbb : ss.Within bb) : sshHashElemCount hilbertC2i uninit ss de bb =
      some (Int64.ofNat (bb.cells ∩ de.owned hilbertC2i ss).card) :=
  h.countOf uninit de hde (h.counted de hde) bb hbb

/-- A space of one entry that does not hash. -/
theorem partitioned_v0 (hilbertC2i : HilbertC2i) (bbDomain : BBox) (maxVersions : Nat) :
    Partitioned hilbertC2i (ssdAllocV0 bbDomain maxVersions) 1 where
  ranks := rfl
  apart := List.pairwise_singleton _ _
  union := by
    simp [ssdAllocV0, dhtAlloc, Cover.union, DhtEntry.owned]
  countOf := by
    intro uninit de _ _ bb hbb
    have hsub : bb.cells ∩ de.owned hilbertC2i (ssdAllocV0 bbDomain maxVersions) = bb.cells :=
      Finset.inter_eq_left.2 hbb.subset
    rw [hsub]
    simp only [sshHashElemCount, ssdAllocV0, sshHashElemCountV0]
    rw [bboxVolume_eq hbb.valid.nearValid, UInt64.toInt64_ofNat']
  hash := by
    intro bb _ _
    refine ⟨[0], fun _ => rfl, List.Sublist.refl _, fun de hde _ => ?_⟩
    obtain rfl := List.mem_singleton.1 hde
    simp
  counted := by
    intro de _ hv
    cases hv

end DataSpaces
