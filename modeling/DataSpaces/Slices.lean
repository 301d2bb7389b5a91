import Mathlib.Algebra.BigOperators.Intervals
import DataSpaces.Ownership

/-!
# Slices — the entries of a v1 space

`dht_construct_hash` cuts the sorted table of the domain's Hilbert indices into consecutive slices,
one for each server.  A server counts with the hull `i_virt` of its slice: inside the domain this is
the slice itself, because no index of another slice lies between its ends.
-/

namespace DataSpaces

/-- In a sorted table the first interval and the rest are counted separately. -/
theorem card_indices_cons {t : Intv} {ts : List Intv} (h : Seg.Sorted ((t :: ts).map Intv.seg)) :
    (indices (t :: ts)).card = (t.ub.toNat + 1 - t.lb.toNat) + (indices ts).card := by
  have hdis : Disjoint t.seg.points (indices ts) := h.apart.disjoint_union
  rw [indices_cons, Finset.card_union_of_disjoint hdis, card_points]
  rfl

theorem card_indices_append {ts us : List Intv} (h : Seg.Sorted ((ts ++ us).map Intv.seg)) :
    (indices (ts ++ us)).card = (indices ts).card + (indices us).card := by
  rw [List.map_append] at h
  rw [indices_append, Finset.card_union_of_disjoint]
  rw [Finset.disjoint_left]
  intro p hp hp'
  obtain ⟨s, hs, hps⟩ := Cover.mem_union.1 hp
  obtain ⟨u, hu, hpu⟩ := Cover.mem_union.1 hp'
  have hlt := (List.pairwise_append.1 h.increasing).2.2 s hs u hu
  have := Seg.mem_points.1 hps
  have := Seg.mem_points.1 hpu
  omega

theorem toNat_intvSize {t : Intv} (hle : t.lb.toNat ≤ t.ub.toNat)
    (hcard : t.ub.toNat + 1 - t.lb.toNat < 2 ^ 64) :
    (intvSize t).toNat = t.ub.toNat + 1 - t.lb.toNat := by
  have := t.lb.toNat_lt
  have := t.ub.toNat_lt
  simp only [intvSize, UInt64.toNat_add, UInt64.toNat_sub, UInt64.toNat_one]
  omega

/-! ## Taking a slice -/

/-- From a table with enough indices the loop takes exactly `len` of them, and what it takes and what
it leaves are still in order. -/
theorem takeIntv_spec (tab : List Intv) :
    ∀ len : UInt64, Seg.Sorted (tab.map Intv.seg) → (indices tab).card < 2 ^ 64 →
      len.toNat ≤ (indices tab).card →
      ∃ mine rest, takeIntv len tab = some (mine, rest) ∧
        Seg.Sorted ((mine ++ rest).map Intv.seg) ∧ indices (mine ++ rest) = indices tab ∧
        (indices mine).card = len.toNat := by
  induction tab with
  | nil =>
      intro len hs _ hlen
      have hzero : len = 0 := by
        apply UInt64.toNat_inj.1
        simpa using hlen
      exact ⟨[], [], by simp [takeIntv, hzero], hs, rfl, by simp [hzero]⟩
  | cons t ts ih =>
      intro len hs hcard hlen
      obtain ⟨ht, htts, hts⟩ := Seg.sorted_cons.1 hs
      have ht' : t.lb.toNat ≤ t.ub.toNat := ht
      have hsum := card_indices_cons hs
      have hsize := toNat_intvSize ht' (by omega)
      have hlbt := t.lb.toNat_lt
      have hubt := t.ub.toNat_lt
      by_cases hzero : len = 0
      · exact ⟨[], t :: ts, by simp [takeIntv, hzero], hs, rfl, by simp [hzero]⟩
      have hpos : 0 < len.toNat := by
        rcases Nat.eq_zero_or_pos len.toNat with h | h
        · exact absurd (UInt64.toNat_inj.1 h) hzero
        · exact h
      by_cases hgt : intvSize t > len
      · -- the first interval is longer than what is left to take
        have hgt' := UInt64.lt_iff_toNat_lt.1 hgt
        have hcut : (t.lb + len).toNat = t.lb.toNat + len.toNat := by
          rw [UInt64.toNat_add]
          omega
        have hend : (t.lb + len - 1).toNat = t.lb.toNat + len.toNat - 1 := by
          rw [UInt64.toNat_sub, hcut, UInt64.toNat_one]
          omega
        have hmine : (Intv.seg ⟨t.lb, t.lb + len - 1⟩) =
            ⟨t.lb.toNat, t.lb.toNat + len.toNat - 1⟩ := by
          simp [Intv.seg, hend]
        have hrest : (Intv.seg ⟨t.lb + len, t.ub⟩) = ⟨t.lb.toNat + len.toNat, t.ub.toNat⟩ := by
          simp [Intv.seg, hcut]
        refine ⟨[⟨t.lb, t.lb + len - 1⟩], ⟨t.lb + len, t.ub⟩ :: ts, ?_, ?_, ?_, ?_⟩
        · simp only [takeIntv]
          rw [if_neg hzero, if_pos hgt]
        · simp only [List.cons_append, List.nil_append, List.map_cons, hmine, hrest]
          refine Seg.sorted_cons.2 ⟨by simp only; omega, fun s hs' => ?_, Seg.sorted_cons.2
            ⟨by simp only; omega, htts, hts⟩⟩
          rcases List.mem_cons.1 hs' with rfl | hs'
          · simp only
            omega
          · have := htts s hs'
            simp only [Intv.seg] at this ⊢
            omega
        · rw [List.singleton_append, indices_cons, indices_cons, indices_cons, hmine, hrest,
            ← Finset.union_assoc]
          congr 1
          ext p
          simp only [Finset.mem_union, Seg.mem_points, Intv.seg]
          omega
        · rw [indices_cons, indices_nil, Finset.union_empty, hmine, card_points]
          simp only
          omega
      · have hle := UInt64.le_iff_toNat_le.1 (UInt64.not_lt.1 hgt)
        have hsub : (len - intvSize t).toNat = len.toNat - (intvSize t).toNat :=
          UInt64.toNat_sub_of_le _ _ (UInt64.not_lt.1 hgt)
        obtain ⟨mine, rest, htake, hsorted, hun, hmine⟩ :=
          ih (len - intvSize t) hts (by omega) (by omega)
        have hall : Seg.Sorted ((t :: mine ++ rest).map Intv.seg) := by
          refine Seg.sorted_cons.2 ⟨ht, fun s hs' => ?_, hsorted⟩
          -- the left end of a slice of the rest is an index of the rest
          have hsne := hsorted.nonempty s hs'
          have hmem : s.lo ∈ indices (mine ++ rest) :=
            Cover.mem_union.2 ⟨s, hs', Seg.mem_points.2 ⟨le_rfl, hsne⟩⟩
          rw [hun] at hmem
          obtain ⟨u, hu, hsu⟩ := Cover.mem_union.1 hmem
          have := htts u hu
          have := Seg.mem_points.1 hsu
          omega
        refine ⟨t :: mine, rest, ?_, hall, ?_, ?_⟩
        · simp only [takeIntv]
          rw [if_neg hzero, if_neg hgt, htake]
          rfl
        · rw [List.cons_append, indices_cons, hun, indices_cons]
        · have hmineSorted : Seg.Sorted ((t :: mine).map Intv.seg) := by
            have hinc := hall.increasing
            rw [List.map_append, List.pairwise_append] at hinc
            exact ⟨fun s hs' => hall.nonempty s (by
              rw [List.map_append]
              exact List.mem_append_left _ hs'), hinc.1⟩
          rw [card_indices_cons hmineSorted, hmine, hsub, hsize]
          omega

/-! ## All slices -/

/-- The slices of the entries, one after the other, are the table; each has the size asked for. -/
theorem sliceEntries_spec (uninit : Intv) (sn : Nat → UInt64) (is : List Nat) :
    ∀ tab : List Intv, Seg.Sorted (tab.map Intv.seg) → (indices tab).card < 2 ^ 64 →
      (is.map fun i => (sn i).toNat).sum ≤ (indices tab).card →
      ∃ ents rest, sliceEntries uninit sn is tab = some ents ∧ ents.map DhtEntry.rank = is ∧
        (∀ de ∈ ents, de.iVirt = hullOf uninit de.iTab ∧
          (indices de.iTab).card = (sn de.rank).toNat) ∧
        Seg.Sorted ((ents.flatMap DhtEntry.iTab ++ rest).map Intv.seg) ∧
        indices (ents.flatMap DhtEntry.iTab ++ rest) = indices tab ∧
        (indices rest).card = (indices tab).card - (is.map fun i => (sn i).toNat).sum := by
  induction is with
  | nil =>
      intro tab hs _ _
      exact ⟨[], tab, rfl, rfl, by simp, hs, rfl, by simp⟩
  | cons i is ih =>
      intro tab hs hcard hsum
      simp only [List.map_cons, List.sum_cons] at hsum
      obtain ⟨mine, tab', htake, hsorted, hun, hmine⟩ :=
        takeIntv_spec tab (sn i) hs hcard (by omega)
      have hsplit : (indices tab).card = (sn i).toNat + (indices tab').card := by
        rw [← hun, card_indices_append hsorted, hmine]
      rw [List.map_append] at hsorted
      obtain ⟨ents, rest, hslice, hranks, hents, hsorted', hun', hrest⟩ :=
        ih tab' hsorted.append_right (by omega) (by omega)
      refine ⟨⟨i, hullOf uninit mine, mine, []⟩ :: ents, rest, ?_, ?_, ?_, ?_, ?_, ?_⟩
      · simp [sliceEntries, htake, hslice]
      · simp [hranks]
      · intro de hde
        rcases List.mem_cons.1 hde with rfl | hde
        · exact ⟨rfl, hmine⟩
        · exact hents de hde
      · -- the slices of the other entries lie in what this one left
        rw [List.flatMap_cons, List.append_assoc, List.map_append]
        refine ⟨fun s hs' => ?_, List.pairwise_append.2
          ⟨hsorted.append_left.increasing, hsorted'.increasing, fun s hs' u hu => ?_⟩⟩
        · rcases List.mem_append.1 hs' with hs' | hs'
          · exact hsorted.append_left.nonempty s hs'
          · exact hsorted'.nonempty s hs'
        · have hune := hsorted'.nonempty u hu
          have hmem : u.lo ∈ indices (ents.flatMap DhtEntry.iTab ++ rest) :=
            Cover.mem_union.2 ⟨u, hu, Seg.mem_points.2 ⟨le_rfl, hune⟩⟩
          rw [hun'] at hmem
          obtain ⟨v, hv, huv⟩ := Cover.mem_union.1 hmem
          have := (List.pairwise_append.1 hsorted.increasing).2.2 s hs' v hv
          have := Seg.mem_points.1 huv
          omega
      · rw [List.flatMap_cons, List.append_assoc, indices_append, hun', ← hun, indices_append]
      · rw [hrest, List.map_cons, List.sum_cons]
        omega

/-- A table with too few indices is read past its end. -/
theorem takeIntv_none (tab : List Intv) :
    ∀ len : UInt64, Seg.Sorted (tab.map Intv.seg) → (indices tab).card < len.toNat →
      takeIntv len tab = none := by
  induction tab with
  | nil =>
      intro len _ hlen
      rw [indices_nil, Finset.card_empty] at hlen
      have hne : len ≠ 0 := by
        rintro rfl
        rw [UInt64.toNat_zero] at hlen
        omega
      rw [takeIntv, if_neg hne]
  | cons t ts ih =>
      intro len hs hlen
      obtain ⟨ht, -, hts⟩ := Seg.sorted_cons.1 hs
      have ht' : t.lb.toNat ≤ t.ub.toNat := ht
      have hsum := card_indices_cons hs
      have hlt := len.toNat_lt
      have hsize := toNat_intvSize ht' (by omega)
      have hne : len ≠ 0 := by
        rintro rfl
        rw [UInt64.toNat_zero] at hlen
        omega
      have hle : intvSize t ≤ len := UInt64.le_iff_toNat_le.2 (by omega)
      have hrest : (indices ts).card < (len - intvSize t).toNat := by
        rw [UInt64.toNat_sub_of_le _ _ hle]
        omega
      rw [takeIntv, if_neg hne, if_neg (UInt64.not_lt.2 hle), ih _ hts hrest]
      rfl

theorem sliceEntries_none (uninit : Intv) (sn : Nat → UInt64) (is : List Nat) :
    ∀ tab : List Intv, Seg.Sorted (tab.map Intv.seg) → (indices tab).card < 2 ^ 64 →
      (indices tab).card < (is.map fun i => (sn i).toNat).sum →
      sliceEntries uninit sn is tab = none := by
  induction is with
  | nil =>
      intro tab _ _ hsum
      simp at hsum
  | cons i is ih =>
      intro tab hs hcard hsum
      simp only [List.map_cons, List.sum_cons] at hsum
      rw [sliceEntries]
      rcases Nat.lt_or_ge (indices tab).card (sn i).toNat with hlt | hge
      · rw [takeIntv_none tab (sn i) hs hlt]
        rfl
      · -- this entry gets its share, and less than the other shares is left
        obtain ⟨mine, rest, htake, hsorted, hun, hmine⟩ := takeIntv_spec tab (sn i) hs hcard hge
        have hsplit := card_indices_append hsorted
        rw [hun, hmine] at hsplit
        rw [List.map_append] at hsorted
        have hrest := ih rest hsorted.append_right (by omega) (by omega)
        simp only [htake, hrest, Option.bind_eq_bind, Option.bind_some, Option.bind_none]

/-- The shares of the entries. -/
theorem toNat_snAt {vol : UInt64} {n : Nat} (hn : 1 ≤ n) (hint : n < 2 ^ 31) (i : Nat) :
    (snAt vol n i).toNat = vol.toNat / n + if i < vol.toNat % n then 1 else 0 := by
  have hnum : (UInt64.ofNat n).toNat = n := by
    rw [UInt64.toNat_ofNat']
    exact Nat.mod_eq_of_lt (by omega)
  have hvol := vol.toNat_lt
  have hdiv := Nat.div_le_self vol.toNat n
  have hdm := Nat.div_add_mod vol.toNat n
  rw [snAt, UInt64.toNat_mod, hnum]
  split
  · next hlt =>
      have hstep : vol.toNat / n + 1 ≤ vol.toNat := by
        have hmul : vol.toNat / n ≤ n * (vol.toNat / n) := Nat.le_mul_of_pos_left _ (by omega)
        omega
      rw [UInt64.toNat_add, UInt64.toNat_div, hnum, UInt64.toNat_one]
      exact Nat.mod_eq_of_lt (by omega)
  · rw [UInt64.toNat_div, hnum, Nat.add_zero]

theorem sum_snAt {vol : UInt64} {n : Nat} (hn : 1 ≤ n) (hint : n < 2 ^ 31) :
    ((List.range n).map fun i => (snAt vol n i).toNat).sum = vol.toNat := by
  have hmod := Nat.mod_lt vol.toNat hn
  simp only [toNat_snAt hn hint]
  rw [← List.sum_toFinset _ List.nodup_range, List.toFinset_range, Finset.sum_add_distrib,
    Finset.sum_const, Finset.card_range, smul_eq_mul, Finset.sum_ite, Finset.sum_const_zero,
    Finset.sum_const, smul_eq_mul, Nat.mul_one, Nat.add_zero]
  have hfilter : (Finset.range n).filter (fun i => i < vol.toNat % n) =
      Finset.range (vol.toNat % n) := by
    ext i
    simp only [Finset.mem_filter, Finset.mem_range]
    omega
  rw [hfilter, Finset.card_range]
  exact Nat.div_add_mod vol.toNat n

/-! ## Counting with the hull -/

theorem card_points_inter (s t : Seg) :
    (s.points ∩ t.points).card = min s.hi t.hi + 1 - max s.lo t.lo := by
  have hinter : s.points ∩ t.points = Finset.Icc (max s.lo t.lo) (min s.hi t.hi) := by
    ext p
    simp only [Finset.mem_inter, Seg.mem_points, Finset.mem_Icc]
    omega
  rw [hinter, Nat.card_Icc]

/-- The overlap of two nonempty intervals, as `long`. -/
theorem elemOverlap_eq {iSelf i : Intv} (hself : iSelf.lb.toNat ≤ iSelf.ub.toNat)
    (hi : i.lb.toNat ≤ i.ub.toNat) :
    elemOverlap iSelf i = Int64.ofNat (i.seg.points ∩ iSelf.seg.points).card := by
  have hlt1 := iSelf.ub.toNat_lt
  have hlt2 := i.ub.toNat_lt
  rw [card_points_inter]
  simp only [Intv.seg, elemOverlap]
  split
  · next hmeet =>
      simp only [Bool.and_eq_true, decide_eq_true_eq, ge_iff_le, UInt64.le_iff_toNat_le] at hmeet
      rw [← UInt64.toInt64_ofNat']
      -- both ends of the overlap are one of two, compared as words
      split <;> split <;> simp only [← UInt64.toInt64_sub, gt_iff_lt, UInt64.lt_iff_toNat_lt] at *
      all_goals
        congr 1
        apply UInt64.toNat_inj.1
        simp only [UInt64.toNat_add, UInt64.toNat_sub, UInt64.toNat_ofNat', UInt64.toNat_one]
        omega
  · next hmiss =>
      simp only [Bool.and_eq_true, decide_eq_true_eq, ge_iff_le, UInt64.le_iff_toNat_le,
        not_and_or, not_le] at hmiss
      have hzero : min i.ub.toNat iSelf.ub.toNat + 1 - max i.lb.toNat iSelf.lb.toNat = 0 := by omega
      rw [hzero]
      rfl

/-- The loop of `ssh_hash_elem_count_v1` counts the indices of the table inside the hull. -/
theorem foldl_elemOverlap {iSelf : Intv} (hself : iSelf.lb.toNat ≤ iSelf.ub.toNat) {tab : List Intv}
    (hs : Seg.Sorted (tab.map Intv.seg)) :
    tab.foldl (fun numElem i => numElem + elemOverlap iSelf i) 0 =
      Int64.ofNat (indices tab ∩ iSelf.seg.points).card := by
  have hfold : ∀ (l : List Intv) (n : ℕ), (∀ i ∈ l, i.lb.toNat ≤ i.ub.toNat) →
      l.foldl (fun numElem i => numElem + elemOverlap iSelf i) (Int64.ofNat n) =
        Int64.ofNat (n + (l.map fun i => (iSelf.seg.points ∩ i.seg.points).card).sum) := by
    intro l
    induction l with
    | nil =>
        intro n _
        simp
    | cons i l ih =>
        intro n hl
        simp only [List.foldl_cons, List.map_cons, List.sum_cons]
        rw [elemOverlap_eq hself (hl i (by simp)), ← Int64.ofNat_add,
          ih _ fun j hj => hl j (by simp [hj]), Nat.add_assoc, Finset.inter_comm i.seg.points]
  -- the intervals of the table are apart, so that the overlaps add up
  have hap : Cover.Apart (fun i : Intv => i.seg.points) tab := by
    have hpw := hs.apart
    rw [Cover.Apart, List.pairwise_map] at hpw
    exact hpw
  have hrun := hfold tab 0 fun i hi => hs.nonempty i.seg (List.mem_map_of_mem hi)
  rw [Nat.zero_add, hap.sum_card_inter, Finset.inter_comm] at hrun
  rw [indices, Cover.union_map]
  exact hrun

/-! ## A v1 space -/

/-- The conditions under which a v1 space works: the domain lies in the virtual cube, the Hilbert
indices fit 64 bits, and the curve is one. -/
structure CurveHolds (hilbertC2i : HilbertC2i) (bbDomain : BBox) (maxDim : UInt64) : Prop where
  below : ∀ j < bbDomain.numDims, bbDomain.ub.c j < maxDim
  bits : bbDomain.numDims * computeBits maxDim ≤ 64
  curve : HilbertCurve hilbertC2i bbDomain.numDims (computeBits maxDim)

/-- And every server gets a cell. -/
structure CurveFits (hilbertC2i : HilbertC2i) (bbDomain : BBox) (maxDim : UInt64)
    (numNodes : Nat) : Prop extends CurveHolds hilbertC2i bbDomain maxDim where
  enough : numNodes ≤ bbDomain.cells.card

section V1

variable {hilbertC2i : HilbertC2i} {bbDomain : BBox} {maxDim : UInt64} {k d : Nat}

/-- A domain below `max_dim` lies in the virtual cube. -/
theorem cells_subset_bbVirt (hd : CubeDims k d) (hdim : maxDim.toNat = 2 ^ k) {bb : BBox}
    (hbd : bb.numDims = d) (hbelow : ∀ j < d, bb.ub.c j < maxDim) :
    bb.cells ⊆ (bbVirt d maxDim).cells := by
  have hcube := bbVirt_isCube hd hdim
  intro x hx
  obtain ⟨hin, hout⟩ := BBox.mem_cells.1 hx
  refine BBox.mem_cells.2 ⟨fun j hj => ?_, fun j hj => hout j (by rw [hbd]; exact hj)⟩
  have hjd : j.val < d := hj
  have hxj := hin j (hbd.symm ▸ hjd)
  have hlt := UInt64.lt_iff_toNat_lt.1 (hbelow j hjd)
  have hside := hcube.side j hjd
  have hlow : ((bbVirt d maxDim).lb.c j).toNat = 0 := by
    simp [j.isLt]
  omega

/-- On the cells of the virtual cube the index is injective. -/
theorem curveIndex_injOn (hd : CubeDims k d) (hdim : maxDim.toNat = 2 ^ k)
    (hh : HilbertCurve hilbertC2i d (k + 1)) :
    Set.InjOn (curveIndex hilbertC2i d (k + 1)) (bbVirt d maxDim).cells := by
  have hcube := bbVirt_isCube hd hdim
  intro x hx y hy hxy
  exact hh.injective x y (hcube.inGrid_of_mem (Nat.le_succ k) hx)
    (hcube.inGrid_of_mem (Nat.le_succ k) hy) hxy

/-- There are fewer than `2 ^ 64` cells. -/
theorem card_bbVirt_lt (hd : CubeDims k d) (hdim : maxDim.toNat = 2 ^ k) (hbits : d * (k + 1) ≤ 64) :
    (bbVirt d maxDim).cells.card < 2 ^ 64 := by
  have hcube := bbVirt_isCube hd hdim
  have hcard : (bbVirt d maxDim).cells.card = ∏ _j ∈ Finset.range d, 2 ^ k := by
    rw [BBox.card_cells hd.le]
    refine Finset.prod_congr rfl fun j hj => ?_
    have := hcube.side j (Finset.mem_range.1 hj)
    simp only [BBox.side]
    omega
  rw [hcard, Finset.prod_const, Finset.card_range, ← Nat.pow_mul]
  refine Nat.pow_lt_pow_right (by norm_num) ?_
  have := hd.pos
  have : k * d + d = d * (k + 1) := by ring
  omega

/-- What `ssd_alloc_v1` builds when the curve holds: consecutive slices of the indices of the domain, each
with its hull if it is not empty. -/
structure Sliced (hilbertC2i : HilbertC2i) (ss : SSpace) (k : Nat) : Prop where
  version : ss.hashVersion = .v1
  domain : ss.bbGlbDomain.Valid
  dims : CubeDims k ss.bbGlbDomain.numDims
  maxDim : ss.maxDim.toNat = 2 ^ k
  below : ∀ j < ss.bbGlbDomain.numDims, ss.bbGlbDomain.ub.c j < ss.maxDim
  curve : HilbertCurve hilbertC2i ss.bbGlbDomain.numDims (k + 1)
  sorted : Seg.Sorted ((ss.entTab.flatMap DhtEntry.iTab).map Intv.seg)
  all : indices (ss.entTab.flatMap DhtEntry.iTab) =
    ss.bbGlbDomain.cells.image (curveIndex hilbertC2i ss.bbGlbDomain.numDims (k + 1))
  hull : ∀ de ∈ ss.entTab, de.iTab ≠ [] → ∃ first last, de.iTab.head? = some first ∧
    de.iTab.getLast? = some last ∧ de.iVirt = ⟨first.lb, last.ub⟩

/-- No index is left over when the shares add up to the table. -/
theorem eq_nil_of_card_indices {tab : List Intv} (hs : Seg.Sorted (tab.map Intv.seg))
    (hcard : (indices tab).card = 0) : tab = [] := by
  cases tab with
  | nil => rfl
  | cons t ts =>
      have hmem : t.seg.lo ∈ indices (t :: ts) := by
        rw [indices_cons]
        exact Finset.mem_union_left _ (Seg.mem_points.2 ⟨le_rfl, hs.nonempty t.seg (by simp)⟩)
      rw [Finset.card_eq_zero.1 hcard] at hmem
      simp at hmem

/-- What `ssd_alloc_v1` builds on a domain inside the virtual cube: consecutive slices of the indices of
the domain, of the sizes of the shares.  A share may be `0`. -/
theorem ssdAllocV1_tables {numNodes maxVersions : Nat} {uninit : Intv} {ss : SSpace}
    (hdom : bbDomain.Valid) (hpos : 1 ≤ numNodes) (hint : numNodes < 2 ^ 31)
    (h : ssdAllocV1 hilbertC2i uninit bbDomain numNodes maxVersions = some ss)
    (hbelow : ∀ j < bbDomain.numDims, bbDomain.ub.c j < ss.maxDim)
    (hbits : bbDomain.numDims * computeBits ss.maxDim ≤ 64)
    (hcurve : HilbertCurve hilbertC2i bbDomain.numDims (computeBits ss.maxDim)) :
    ss.hashVersion = .v1 ∧ ss.bbGlbDomain = bbDomain ∧
      ss.entTab.map DhtEntry.rank = List.range numNodes ∧
      ∃ k, CubeDims k bbDomain.numDims ∧ ss.maxDim.toNat = 2 ^ k ∧
        Seg.Sorted ((ss.entTab.flatMap DhtEntry.iTab).map Intv.seg) ∧
        indices (ss.entTab.flatMap DhtEntry.iTab) =
          bbDomain.cells.image (curveIndex hilbertC2i bbDomain.numDims (k + 1)) ∧
        ∀ de ∈ ss.entTab, de.iVirt = hullOf uninit de.iTab ∧
          (indices de.iTab).card = (snAt (UInt64.ofNat bbDomain.cells.card) numNodes de.rank).toNat := by
  simp only [ssdAllocV1] at h
  obtain ⟨maxDim, hmax, h⟩ := Option.bind_eq_some_iff.1 h
  obtain ⟨entTab, hconstr, h⟩ := Option.bind_eq_some_iff.1 h
  simp only [Option.pure_def, Option.some.injEq] at h
  subst h
  obtain ⟨k, hk, hdim, -, -⟩ := nextPow2V2_some hmax
  have hcomp : computeBits maxDim = k + 1 := computeBits_two_pow hdim hk
  simp only [hcomp] at hbelow hbits hcurve
  have hd : CubeDims k bbDomain.numDims := ⟨hdom.dims.1, hdom.dims.2, hk⟩
  have hsub := cells_subset_bbVirt hd hdim rfl hbelow
  have hinj := curveIndex_injOn hd hdim hcurve
  -- the table of the domain
  obtain ⟨tab, hcut, hsorted, hind, -⟩ := cutIntv_spec hd hdim hcurve hdom rfl (by
    rw [Finset.inter_eq_left.2 hsub]
    exact hdom.cells_nonempty)
  have htab : bboxToIntv hilbertC2i uninit bbDomain maxDim = some tab := by
    obtain ⟨tab', htab', -⟩ := Option.bind_eq_some_iff.1 hconstr
    exact (bboxToIntv_iff hdom hd hdim).2 ⟨hcut uninit, ((bboxToIntv_iff hdom hd hdim).1 htab').2⟩
  rw [boxIndices, hcomp, Finset.inter_eq_left.2 hsub] at hind
  have hcardTab : (indices tab).card = bbDomain.cells.card := by
    rw [hind, Finset.card_image_of_injOn (hinj.mono (by exact_mod_cast hsub))]
  have hlt64 : bbDomain.cells.card < 2 ^ 64 :=
    lt_of_le_of_lt (Finset.card_le_card hsub) (card_bbVirt_lt hd hdim hbits)
  have hvol : (bboxVolume bbDomain).toNat = bbDomain.cells.card := by
    rw [bboxVolume_eq hdom.nearValid, UInt64.toNat_ofNat']
    exact Nat.mod_eq_of_lt hlt64
  -- the slices
  have hsum : ((List.range numNodes).map
      fun i => (snAt (bboxVolume bbDomain) numNodes i).toNat).sum = bbDomain.cells.card := by
    rw [sum_snAt hpos hint, hvol]
  obtain ⟨ents, rest, hslice, hranks, hents, hall, hun, hrest⟩ :=
    sliceEntries_spec uninit (snAt (bboxVolume bbDomain) numNodes) (List.range numNodes) tab hsorted
      (by omega) (by omega)
  have hnil : rest = [] := by
    rw [List.map_append] at hall
    exact eq_nil_of_card_indices hall.append_right (by omega)
  rw [hnil, List.append_nil] at hall hun
  have hentTab : entTab = ents := by
    rw [dhtConstructHash, htab] at hconstr
    exact Option.some.inj (hconstr.symm.trans hslice)
  subst hentTab
  rw [bboxVolume_eq hdom.nearValid] at hents
  exact ⟨rfl, rfl, hranks, k, hd, hdim, hall, hun.trans hind, hents⟩

theorem ssdAllocV1_spec {numNodes maxVersions : Nat} {uninit : Intv} {ss : SSpace}
    (hdom : bbDomain.Valid) (hpos : 1 ≤ numNodes) (hint : numNodes < 2 ^ 31)
    (h : ssdAllocV1 hilbertC2i uninit bbDomain numNodes maxVersions = some ss)
    (hholds : CurveHolds hilbertC2i bbDomain ss.maxDim) :
    ss.bbGlbDomain = bbDomain ∧ ss.entTab.map DhtEntry.rank = List.range numNodes ∧
      ∃ k, Sliced hilbertC2i ss k := by
  obtain ⟨hbelow, hbits, hcurve⟩ := hholds
  obtain ⟨hv, hdomain, hranks, k, hd, hdim, hall, hun, hents⟩ :=
    ssdAllocV1_tables hdom hpos hint h hbelow hbits hcurve
  rw [computeBits_two_pow hdim hd.bits] at hcurve
  subst hdomain
  refine ⟨rfl, hranks, k, hv, hdom, hd, hdim, hbelow, hcurve, hall, hun, fun de hde hne => ?_⟩
  refine ⟨de.iTab.head hne, de.iTab.getLast hne, List.head?_eq_some_head hne,
    List.getLast?_eq_some_getLast hne, ?_⟩
  rw [(hents de hde).1, hullOf, List.head?_eq_some_head hne, List.getLast?_eq_some_getLast hne]
  rfl

/-- With no more servers than cells every entry has intervals. -/
theorem iTab_ne_nil {numNodes maxVersions : Nat} {uninit : Intv} {ss : SSpace}
    (hdom : bbDomain.Valid) (hpos : 1 ≤ numNodes) (hint : numNodes < 2 ^ 31)
    (h : ssdAllocV1 hilbertC2i uninit bbDomain numNodes maxVersions = some ss)
    (hfits : CurveFits hilbertC2i bbDomain ss.maxDim numNodes) : ∀ de ∈ ss.entTab, de.iTab ≠ [] := by
  obtain ⟨⟨hbelow, hbits, hcurve⟩, henough⟩ := hfits
  obtain ⟨-, -, -, k, hd, hdim, -, -, hents⟩ := ssdAllocV1_tables hdom hpos hint h hbelow hbits hcurve
  rw [computeBits_two_pow hdim hd.bits] at hbits
  have hlt64 : bbDomain.cells.card < 2 ^ 64 :=
    lt_of_le_of_lt (Finset.card_le_card (cells_subset_bbVirt hd hdim rfl hbelow))
      (card_bbVirt_lt hd hdim hbits)
  intro de hde hempty
  have hcard := (hents de hde).2
  rw [hempty, indices_nil, Finset.card_empty, toNat_snAt hpos hint, UInt64.toNat_ofNat',
    Nat.mod_eq_of_lt hlt64] at hcard
  have := Nat.div_pos henough hpos
  omega

namespace Sliced

variable {ss : SSpace} (h : Sliced hilbertC2i ss k)

include h

theorem computeBits_maxDim : computeBits ss.maxDim = k + 1 :=
  computeBits_two_pow h.maxDim h.dims.bits

theorem mem_owned {de : DhtEntry} {x : Cell} :
    x ∈ de.owned hilbertC2i ss ↔ x ∈ ss.bbGlbDomain.cells ∧
      curveIndex hilbertC2i ss.bbGlbDomain.numDims (k + 1) x ∈ indices de.iTab := by
  simp only [DhtEntry.owned, h.version, h.computeBits_maxDim, Finset.mem_filter]

/-- A cell of the domain has its index in the hull of an entry exactly when the entry owns it. -/
theorem mem_owned_iff_hull {de : DhtEntry} (hde : de ∈ ss.entTab) (hne : de.iTab ≠ []) {x : Cell}
    (hx : x ∈ ss.bbGlbDomain.cells) :
    x ∈ de.owned hilbertC2i ss ↔
      curveIndex hilbertC2i ss.bbGlbDomain.numDims (k + 1) x ∈ de.iVirt.seg.points := by
  obtain ⟨first, last, hfirst, hlast, hvirt⟩ := h.hull de hde hne
  obtain ⟨before, after, hsplit⟩ := List.append_of_mem hde
  -- the intervals of the entry are a block of the sorted table
  have hlist : (ss.entTab.flatMap DhtEntry.iTab).map Intv.seg =
      (before.flatMap DhtEntry.iTab).map Intv.seg ++ de.iTab.map Intv.seg ++
        (after.flatMap DhtEntry.iTab).map Intv.seg := by
    rw [hsplit]
    simp
  have hsorted := h.sorted
  rw [hlist] at hsorted
  have hp : curveIndex hilbertC2i ss.bbGlbDomain.numDims (k + 1) x ∈
      Cover.union Seg.points ((before.flatMap DhtEntry.iTab).map Intv.seg ++
        de.iTab.map Intv.seg ++ (after.flatMap DhtEntry.iTab).map Intv.seg) := by
    rw [← hlist]
    have hall := h.all
    rw [indices] at hall
    rw [hall]
    exact Finset.mem_image_of_mem _ hx
  have hfirst' : (de.iTab.map Intv.seg).head? = some first.seg := by simp [hfirst]
  have hlast' : (de.iTab.map Intv.seg).getLast? = some last.seg := by simp [hlast]
  have hblock := Seg.mem_block_iff hsorted hfirst' hlast' hp
  rw [h.mem_owned, and_iff_right hx, indices, hblock, hvirt, Seg.mem_points]
  rfl

/-- The hull of an entry is not empty. -/
theorem iVirt_le {de : DhtEntry} (hde : de ∈ ss.entTab) (hne : de.iTab ≠ []) :
    de.iVirt.lb.toNat ≤ de.iVirt.ub.toNat := by
  obtain ⟨first, last, hfirst, -, -⟩ := h.hull de hde hne
  have hmemFirst : first ∈ de.iTab := List.mem_of_mem_head? hfirst
  have hflat : first ∈ ss.entTab.flatMap DhtEntry.iTab := List.mem_flatMap.2 ⟨de, hde, hmemFirst⟩
  have hle := h.sorted.nonempty first.seg (List.mem_map_of_mem hflat)
  have hpoint : first.seg.lo ∈ first.seg.points := Seg.mem_points.2 ⟨le_rfl, hle⟩
  have hall : first.seg.lo ∈ indices (ss.entTab.flatMap DhtEntry.iTab) :=
    Cover.mem_union.2 ⟨first.seg, List.mem_map_of_mem hflat, hpoint⟩
  rw [h.all] at hall
  obtain ⟨x, hx, hxp⟩ := Finset.mem_image.1 hall
  have hown : x ∈ de.owned hilbertC2i ss := by
    refine h.mem_owned.2 ⟨hx, ?_⟩
    rw [hxp]
    exact Cover.mem_union.2 ⟨first.seg, List.mem_map_of_mem hmemFirst, hpoint⟩
  have := Seg.mem_points.1 ((h.mem_owned_iff_hull hde hne hx).1 hown)
  simp only [Intv.seg] at this
  omega

theorem domain_subset : ss.bbGlbDomain.cells ⊆ (bbVirt ss.bbGlbDomain.numDims ss.maxDim).cells :=
  cells_subset_bbVirt h.dims h.maxDim rfl h.below

/-- The table of a box that meets the domain. -/
theorem bboxToIntv2_spec {bb : BBox} (hbb : ss.Fits bb)
    (hmeet : (bb.cells ∩ ss.bbGlbDomain.cells).Nonempty) :
    ∃ tab, (∀ uninit, bboxToIntv2 hilbertC2i uninit bb ss.maxDim = some tab) ∧
      Seg.Sorted (tab.map Intv.seg) ∧
      indices tab = (bb.cells ∩ (bbVirt ss.bbGlbDomain.numDims ss.maxDim).cells).image
        (curveIndex hilbertC2i ss.bbGlbDomain.numDims (k + 1)) := by
  obtain ⟨tab, htab, hsorted, hind, -⟩ := cutIntv_spec h.dims h.maxDim h.curve hbb.valid hbb.dims
    (hmeet.mono (Finset.inter_subset_inter_left h.domain_subset))
  refine ⟨tab, fun uninit => ?_, hsorted, ?_⟩
  · exact (bboxToIntv2_iff hbb.valid (hbb.dims ▸ h.dims) h.maxDim).2 ⟨htab uninit, hbb.ring h.version⟩
  · rw [hind, boxIndices, hbb.dims, h.computeBits_maxDim]

theorem count {uninit : Intv} {de : DhtEntry} (hde : de ∈ ss.entTab) (hne : de.iTab ≠ []) {bb : BBox}
    (hbb : ss.Within bb) :
    sshHashElemCountV1 hilbertC2i uninit ss de bb =
      some (Int64.ofNat (bb.cells ∩ de.owned hilbertC2i ss).card) := by
  obtain ⟨tab, htab, hsorted, hind⟩ := h.bboxToIntv2_spec hbb.toFits hbb.meets
  have hvirt := hbb.subset.trans h.domain_subset
  rw [Finset.inter_eq_left.2 hvirt] at hind
  have hinj := curveIndex_injOn h.dims h.maxDim h.curve
  -- an index of the box is in the hull iff the entry owns its cell
  have himg : indices tab ∩ de.iVirt.seg.points =
      (bb.cells ∩ de.owned hilbertC2i ss).image
        (curveIndex hilbertC2i ss.bbGlbDomain.numDims (k + 1)) := by
    ext p
    simp only [hind, Finset.mem_inter, Finset.mem_image]
    constructor
    · rintro ⟨⟨x, hx, rfl⟩, hp⟩
      exact ⟨x, ⟨hx, (h.mem_owned_iff_hull hde hne (hbb.subset hx)).2 hp⟩, rfl⟩
    · rintro ⟨x, ⟨hx, hown⟩, rfl⟩
      exact ⟨⟨x, hx, rfl⟩, (h.mem_owned_iff_hull hde hne (hbb.subset hx)).1 hown⟩
  have hcard : ((bb.cells ∩ de.owned hilbertC2i ss).image
      (curveIndex hilbertC2i ss.bbGlbDomain.numDims (k + 1))).card =
        (bb.cells ∩ de.owned hilbertC2i ss).card := by
    refine Finset.card_image_of_injOn (hinj.mono fun x hx => ?_)
    exact hvirt (Finset.mem_inter.1 hx).1
  rw [sshHashElemCountV1, htab uninit, Option.map_some,
    foldl_elemOverlap (h.iVirt_le hde hne) hsorted, himg, hcard]

/-- An entry that owns a cell of the box is found by its intervals. -/
theorem dhtIntersect_of_owned {de : DhtEntry} (hde : de ∈ ss.entTab) {x : Cell}
    (hx : x ∈ de.owned hilbertC2i ss) {itv : Intv}
    (hitv : curveIndex hilbertC2i ss.bbGlbDomain.numDims (k + 1) x ∈ itv.seg.points) :
    dhtIntersect de itv = true := by
  obtain ⟨hdom, hidx⟩ := h.mem_owned.1 hx
  obtain ⟨s, hs, hps⟩ := Cover.mem_union.1 hidx
  obtain ⟨i, hi, rfl⟩ := List.mem_map.1 hs
  have hhull := Seg.mem_points.1 ((h.mem_owned_iff_hull hde (List.ne_nil_of_mem hi) hdom).1 hx)
  have hin := Seg.mem_points.1 hitv
  have hps := Seg.mem_points.1 hps
  simp only [Intv.seg] at hhull hin hps
  have hout : (de.iVirt.lb > itv.ub || de.iVirt.ub < itv.lb) = false := by
    simp only [Bool.or_eq_false_iff, decide_eq_false_iff_not, gt_iff_lt, UInt64.lt_iff_toNat_lt]
    omega
  rw [dhtIntersect, hout, if_neg (by simp)]
  refine List.any_eq_true.2 ⟨i, hi, ?_⟩
  simp only [intvDoIntersect, Bool.or_eq_true, Bool.and_eq_true, decide_eq_true_eq,
    UInt64.le_iff_toNat_le]
  omega

/-- An entry that is found has a cell of the box. -/
theorem owned_of_dhtIntersect {bb : BBox} (hbb : ss.Within bb) {tab : List Intv}
    (hsorted : Seg.Sorted (tab.map Intv.seg))
    (hind : indices tab = bb.cells.image (curveIndex hilbertC2i ss.bbGlbDomain.numDims (k + 1)))
    {de : DhtEntry} (hde : de ∈ ss.entTab) {itv : Intv} (hitv : itv ∈ tab)
    (hfound : dhtIntersect de itv = true) : (bb.cells ∩ de.owned hilbertC2i ss).Nonempty := by
  rw [dhtIntersect] at hfound
  split at hfound
  · cases hfound
  obtain ⟨i, hi, hmeet⟩ := List.any_eq_true.1 hfound
  -- the two intervals have an index in common
  have hflat : i ∈ ss.entTab.flatMap DhtEntry.iTab := List.mem_flatMap.2 ⟨de, hde, hi⟩
  have hlei := h.sorted.nonempty i.seg (List.mem_map_of_mem hflat)
  have hlet := hsorted.nonempty itv.seg (List.mem_map_of_mem hitv)
  obtain ⟨p, hpi, hpt⟩ : ∃ p, p ∈ i.seg.points ∧ p ∈ itv.seg.points := by
    refine ⟨max i.seg.lo itv.seg.lo, ?_⟩
    simp only [intvDoIntersect, Bool.or_eq_true, Bool.and_eq_true, decide_eq_true_eq,
      UInt64.le_iff_toNat_le] at hmeet
    simp only [Intv.seg, Seg.mem_points] at hlei hlet ⊢
    omega
  have hpde : p ∈ indices de.iTab := Cover.mem_union.2 ⟨i.seg, List.mem_map_of_mem hi, hpi⟩
  have hptab : p ∈ indices tab := Cover.mem_union.2 ⟨itv.seg, List.mem_map_of_mem hitv, hpt⟩
  rw [hind] at hptab
  obtain ⟨x, hx, rfl⟩ := Finset.mem_image.1 hptab
  exact ⟨x, Finset.mem_inter.2 ⟨hx, h.mem_owned.2 ⟨hbb.subset hx, hpde⟩⟩⟩

end Sliced

/-- A v1 space shares its domain out. -/
theorem shared_v1 {numNodes maxVersions : Nat} {uninit : Intv} {ss : SSpace}
    (hdom : bbDomain.Valid) (hpos : 1 ≤ numNodes) (hint : numNodes < 2 ^ 31)
    (h : ssdAllocV1 hilbertC2i uninit bbDomain numNodes maxVersions = some ss)
    (hholds : CurveHolds hilbertC2i bbDomain ss.maxDim) :
    Shared hilbertC2i ss numNodes := by
  obtain ⟨-, hranks, k, hsl⟩ := ssdAllocV1_spec hdom hpos hint h hholds
  refine ⟨hranks, ?_, ?_, ?_, ?_⟩
  · -- entries with disjoint intervals own disjoint cells
    have hap : Cover.Apart (fun i : Intv => i.seg.points) (ss.entTab.flatMap DhtEntry.iTab) := by
      have hpw := hsl.sorted.apart
      rw [Cover.Apart, List.pairwise_map] at hpw
      exact hpw
    refine hap.groups.imp fun {de de'} hdis => ?_
    rw [Finset.disjoint_left]
    intro x hx hx'
    have h1 := (hsl.mem_owned.1 hx).2
    have h2 := (hsl.mem_owned.1 hx').2
    rw [indices, Cover.union_map] at h1 h2
    exact Finset.disjoint_left.1 hdis h1 h2
  · -- every cell of the domain has its index in the interval of some entry
    ext x
    rw [Cover.mem_union]
    constructor
    · rintro ⟨de, -, hx⟩
      exact (hsl.mem_owned.1 hx).1
    · intro hx
      have hidx : curveIndex hilbertC2i ss.bbGlbDomain.numDims (k + 1) x ∈
          indices (ss.entTab.flatMap DhtEntry.iTab) := by
        rw [hsl.all]
        exact Finset.mem_image_of_mem _ hx
      obtain ⟨s, hs, hps⟩ := Cover.mem_union.1 hidx
      obtain ⟨i, hi, rfl⟩ := List.mem_map.1 hs
      obtain ⟨de, hde, hi⟩ := List.mem_flatMap.1 hi
      exact ⟨de, hde, hsl.mem_owned.2 ⟨hx, Cover.mem_union.2 ⟨i.seg, List.mem_map_of_mem hi, hps⟩⟩⟩
  · intro uninit de hde hcounted bb hbb
    simp only [sshHashElemCount, hsl.version]
    exact hsl.count hde (hcounted hsl.version) hbb
  · -- an entry that owns a cell of the box has an interval that meets those of the box
    intro bb hbb hmeet
    obtain ⟨tab, htab, -, hind⟩ := hsl.bboxToIntv2_spec hbb hmeet
    refine ⟨(ss.entTab.filter fun de => tab.any (dhtIntersect de)).map DhtEntry.rank,
      fun uninit => ?_, ?_, fun de hde hown => ?_⟩
    · simp only [ssdHashLoop, hsl.version, ssdHashV1Loop, htab uninit, Option.map_some]
    · rw [← hranks]
      exact List.filter_sublist.map _
    · obtain ⟨x, hx⟩ := hown
      rw [Finset.mem_inter] at hx
      have hidx : curveIndex hilbertC2i ss.bbGlbDomain.numDims (k + 1) x ∈ indices tab := by
        rw [hind]
        exact Finset.mem_image_of_mem _
          (Finset.mem_inter.2 ⟨hx.1, hsl.domain_subset (hsl.mem_owned.1 hx.2).1⟩)
      obtain ⟨s, hs, hps⟩ := Cover.mem_union.1 hidx
      obtain ⟨itv, hitv, rfl⟩ := List.mem_map.1 hs
      refine List.mem_map.2 ⟨de, List.mem_filter.2 ⟨hde, ?_⟩, rfl⟩
      exact List.any_eq_true.2 ⟨itv, hitv, hsl.dhtIntersect_of_owned hde hx.2 hps⟩

/-- With no more servers than cells it is a partition. -/
theorem partitioned_v1 {numNodes maxVersions : Nat} {uninit : Intv} {ss : SSpace}
    (hdom : bbDomain.Valid) (hpos : 1 ≤ numNodes) (hint : numNodes < 2 ^ 31)
    (h : ssdAllocV1 hilbertC2i uninit bbDomain numNodes maxVersions = some ss)
    (hfits : CurveFits hilbertC2i bbDomain ss.maxDim numNodes) : Partitioned hilbertC2i ss numNodes :=
  ⟨shared_v1 hdom hpos hint h hfits.toCurveHolds,
    fun de hde _ => iTab_ne_nil hdom hpos hint h hfits de hde⟩

end V1

end DataSpaces
