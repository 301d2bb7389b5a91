import Mathlib.Algebra.Order.BigOperators.GroupWithZero.Finset
import DataSpaces.VirtualCube

/-!
# Outside — boxes that share no cell with the domain

The servers take an empty hash for a box outside the domain.  Three things get in the way.  A v1 space
looks at the box through the virtual cube: when the box misses the cube too, `intv_compact` still reports
one interval and the entries are compared with uninitialised memory; and `ssh_hash_elem_count_v1` counts
the hull of an entry, which may hold indices of cells that lie in the cube but not in the domain.  A v2
space may have boxes without cells in its tables, and `bbox_does_intersect` can report these.
-/

namespace DataSpaces

/-- A space of a server process, hashed along the curve or by bisection.  Both callers of `ssd_alloc`
leave the lower corner of the domain at the origin. -/
structure HashedSpace (uninit : Intv) (bbDomain : BBox) (numNodes maxVersions : Nat)
    (hashVersion : HashVersion) (ss : SSpace) : Prop where
  domain : bbDomain.Valid
  origin : ∀ j < bbDomain.numDims, bbDomain.lb.c j = 0
  pos : 1 ≤ numNodes
  int : numNodes < 2 ^ 31
  built : ssdAlloc hilbertC2i uninit bbDomain numNodes maxVersions hashVersion = some ss
  hashed : ss.hashVersion ≠ .v0

/-- The hash lists no entry and no entry counts a cell of the box, whatever uninitialised memory
holds. -/
def ReportsNobody (hilbertC2i : HilbertC2i) (ss : SSpace) (bb : BBox) : Prop :=
  ∀ uninit, (∀ id, ∃ sfc, ssdHash hilbertC2i uninit id ss bb [] = some ([], sfc)) ∧
    ∀ de ∈ ss.entTab, sshHashElemCount hilbertC2i uninit ss de bb = some 0

/-- So it is on the curve of `sfc.h`, and the calls for the domain, when a v1 space was made, and for the box
fit the word: beyond it the shifts of `hilbert_c2i` are not defined. -/
structure HashesToNobody (ss : SSpace) (bb : BBox) : Prop where
  calls : ss.hashVersion = .v1 → CallsFit ss.bbGlbDomain ss.maxDim ∧ CallsFit bb ss.maxDim
  nobody : ReportsNobody hilbertC2i ss bb

/-- No index of `S` is counted for the hull `v`.  The hull of an entry without cells is whatever memory
held: one with `lb > ub + 1` counts an interval that reaches from `ub` to `lb`. -/
def HullMisses (v : Intv) (S : Finset ℕ) : Prop :=
  if v.lb ≤ v.ub then ∀ p ∈ S, ¬ (v.lb.toNat ≤ p ∧ p ≤ v.ub.toNat)
  else v.lb.toNat = v.ub.toNat + 1 ∨ ∃ p, v.ub.toNat ≤ p ∧ p ≤ v.lb.toNat ∧ p ∉ S

/-- The indices fit the word, the box reaches into the virtual cube, the tables of `bbox_to_intv2` have room
for it, and its indices miss the hulls of all entries; or no box without cells is reported to intersect it. -/
def MissesEntries (ss : SSpace) (bb : BBox) : Prop :=
  match ss.hashVersion with
  | .v1 => bb.numDims * computeBits ss.maxDim ≤ 64 ∧ (bb.cells ∩ (bbVirt bb.numDims ss.maxDim).cells).Nonempty ∧
      RingFits bb ss.maxDim ∧ ∀ de ∈ ss.entTab, HullMisses de.iVirt (boxIndices hilbertC2i ss.maxDim bb)
  | .v2 => ∀ de ∈ ss.entTab, ∀ b ∈ de.bbTab, b.cells = ∅ → bboxDoesIntersect bb b = false
  | .v0 | .auto => False

/-! ## A v1 space that was returned -/

section Returned

variable {hilbertC2i : HilbertC2i} {uninit : Intv} {dom : BBox} {numNodes maxVersions : Nat} {ss : SSpace}

/-- With an upper bound at the side of the cube the volume of the domain still fits the word. -/
theorem card_cells_lt {k : Nat} (hdims : dom.DimsOk) (htop : dom.top ≤ 2 ^ k)
    (hbits : dom.numDims * (k + 1) ≤ 64) : dom.cells.card < 2 ^ 64 := by
  have hside : dom.cells.card ≤ (2 ^ k + 1) ^ dom.numDims := by
    have hpow : (2 ^ k + 1) ^ dom.numDims = ∏ _j ∈ Finset.range dom.numDims, (2 ^ k + 1) := by
      rw [Finset.prod_const, Finset.card_range]
    rw [BBox.card_cells hdims.2, hpow]
    refine Finset.prod_le_prod (fun j _ => Nat.zero_le _) fun j hj => ?_
    have := dom.le_top (Finset.mem_range.1 hj)
    simp only [BBox.side]
    omega
  have hne : dom.numDims ≠ 0 := by
    have := hdims.1
    omega
  refine lt_of_le_of_lt hside ?_
  rcases Nat.eq_zero_or_pos k with rfl | hk
  · calc (2 ^ 0 + 1) ^ dom.numDims ≤ 2 ^ 10 := Nat.pow_le_pow_right (by norm_num) hdims.2
      _ < 2 ^ 64 := by norm_num
  · have hlt : 2 ^ k + 1 < 2 ^ (k + 1) := by
      have := Nat.pow_le_pow_right (show 0 < 2 by norm_num) hk
      rw [Nat.pow_succ]
      omega
    calc (2 ^ k + 1) ^ dom.numDims < (2 ^ (k + 1)) ^ dom.numDims := Nat.pow_lt_pow_left hlt hne
      _ = 2 ^ (dom.numDims * (k + 1)) := by rw [← Nat.pow_mul, Nat.mul_comm]
      _ ≤ 2 ^ 64 := Nat.pow_le_pow_right (by norm_num) hbits

/-- The cells of the domain that lie in the cube are fewer when a bound is not below the side. -/
theorem card_inter_bbVirt_lt {k : Nat} {p : UInt64} (hdom : dom.Valid) (hp : p.toNat = 2 ^ k)
    (hd : CubeDims k dom.numDims) {j : Nat} (hj : j < dom.numDims) (hge : p ≤ dom.ub.c j) :
    (dom.cells ∩ (bbVirt dom.numDims p).cells).card < dom.cells.card := by
  have hlt : j < BBOX_MAX_NDIM := lt_of_lt_of_le hj hdom.dims.2
  -- the upper corner is behind the cube
  let x : Cell := fun i => if i.val < dom.numDims then (dom.ub.c i).toNat else 0
  have hx : x ∈ dom.cells := by
    refine BBox.mem_cells.2 ⟨fun i hi => ?_, fun i hi => if_neg (Nat.not_lt.2 hi)⟩
    have := UInt64.le_iff_toNat_le.1 (hdom.le i hi)
    simp only [x, hi, if_true]
    omega
  have hout : x ∉ (bbVirt dom.numDims p).cells := by
    intro hin
    have hxj := (BBox.mem_cells.1 hin).1 ⟨j, hlt⟩ hj
    have hbound := (bbVirt_isCube hd hp).bound j hj
    have := UInt64.le_iff_toNat_le.1 hge
    simp only [x, hj, if_true] at hxj
    omega
  refine Finset.card_lt_card (Finset.ssubset_iff_subset_ne.2 ⟨Finset.inter_subset_left, fun heq => ?_⟩)
  rw [← heq] at hx
  exact hout (Finset.mem_inter.1 hx).2

/-- A domain that starts at the origin shares it with the cube. -/
theorem meets_bbVirt_of_origin (horigin : ∀ j < dom.numDims, dom.lb.c j = 0) (p : UInt64) :
    (dom.cells ∩ (bbVirt dom.numDims p).cells).Nonempty := by
  refine ⟨0, Finset.mem_inter.2 ⟨BBox.mem_cells.2 ⟨fun i hi => ?_, fun i _ => rfl⟩,
    BBox.mem_cells.2 ⟨fun i hi => ?_, fun i _ => rfl⟩⟩⟩
  · rw [horigin i hi]
    exact ⟨le_rfl, Nat.zero_le _⟩
  · simp [i.isLt]

/-- `ssd_alloc_v1` returns only when the domain lies inside the virtual cube: the shares of a larger one
add up to more indices than its table has. -/
theorem ub_lt_of_ssdAllocV1 (hdom : dom.Valid) (horigin : ∀ j < dom.numDims, dom.lb.c j = 0)
    (hpos : 1 ≤ numNodes) (hint : numNodes < 2 ^ 31)
    (h : ssdAllocV1 hilbertC2i uninit dom numNodes maxVersions = some ss)
    (hcurve : HilbertCurve hilbertC2i dom.numDims (computeBits ss.maxDim)) :
    ∀ j < dom.numDims, dom.ub.c j < ss.maxDim := by
  simp only [ssdAllocV1] at h
  obtain ⟨maxDim, hmax, h⟩ := Option.bind_eq_some_iff.1 h
  obtain ⟨entTab, hconstr, h⟩ := Option.bind_eq_some_iff.1 h
  simp only [Option.pure_def, Option.some.injEq] at h
  subst h
  obtain ⟨k, hk, hp, hround, -⟩ := nextPow2V2_some hmax
  rw [toNat_maxUb hdom.dims.1] at hround
  have hbits := hcurve.bits_le hdom.dims.2
  rw [computeBits_two_pow hp hk] at hcurve hbits
  have hd : CubeDims k dom.numDims := CubeDims.of_valid hdom hp
  -- otherwise the table has fewer indices than the shares add up to
  by_contra hcon
  push Not at hcon
  obtain ⟨j, hj, hge⟩ := hcon
  have hmeet := meets_bbVirt_of_origin horigin maxDim
  obtain ⟨tab, hcut, hsorted, hind, -⟩ := cutIntv_spec hd hp hcurve hdom rfl hmeet
  have htab : bboxToIntv hilbertC2i uninit dom maxDim = some tab := by
    obtain ⟨tab', htab', -⟩ := Option.bind_eq_some_iff.1 hconstr
    exact (bboxToIntv_iff hdom hd hp).2 ⟨hcut uninit, ((bboxToIntv_iff hdom hd hp).1 htab').2⟩
  have hfew : (indices tab).card < dom.cells.card := by
    rw [hind, card_boxIndices hd hp hcurve]
    exact card_inter_bbVirt_lt hdom hp hd hj (UInt64.not_lt.1 hge)
  have hlt64 : dom.cells.card < 2 ^ 64 := card_cells_lt hdom.dims (by omega) hbits
  have hvol : (bboxVolume dom).toNat = dom.cells.card := by
    rw [bboxVolume_eq hdom.nearValid, UInt64.toNat_ofNat']
    exact Nat.mod_eq_of_lt hlt64
  have hnone := sliceEntries_none uninit (snAt (bboxVolume dom) numNodes) (List.range numNodes) tab
    hsorted (by omega) (by
      rw [sum_snAt hpos hint, hvol]
      exact hfew)
  rw [dhtConstructHash, htab, Option.bind_eq_bind, Option.bind_some, hnone] at hconstr
  cases hconstr

end Returned

/-! ## Hashing and counting with a table -/

section Table

variable {hilbertC2i : HilbertC2i} {uninit : Intv} {ss : SSpace} {bb : BBox}

/-- With an empty cache the answer of `ssd_hash` is empty iff no entry is found to meet the box. -/
theorem ssdHash_nil_iff (hv : ss.hashVersion = .v1 ∨ ss.hashVersion = .v2) (id : Nat) :
    (∃ sfc, ssdHash hilbertC2i uninit id ss bb [] = some ([], sfc)) ↔
      hashesNowhere hilbertC2i uninit ss bb := by
  have huses : (HashCall.mk id bb uninit).usesCache (fun _ => ss) = true := by
    simp [HashCall.usesCache, hv]
  have hnil : (HashCall.mk id bb uninit).uncached hilbertC2i (fun _ => ss) = some [] ↔
      hashesNowhere hilbertC2i uninit ss bb := HashCall.uncached_eq_nil_iff huses
  have hrun : ssdHash hilbertC2i uninit id ss bb [] =
      ssdHashCached ((HashCall.mk id bb uninit).uncached hilbertC2i fun _ => ss) bb [] :=
    HashCall.run_usesCache huses []
  rw [← hnil, hrun, ssdHashCached]
  simp [shFind]

/-- Intervals with no common index are not found to intersect. -/
theorem dhtIntersect_eq_false {de : DhtEntry} {itv : Intv} (hde : ∀ i ∈ de.iTab, i.lb.toNat ≤ i.ub.toNat)
    (hitv : itv.lb.toNat ≤ itv.ub.toNat)
    (hdis : ∀ i ∈ de.iTab, Disjoint i.seg.points itv.seg.points) : dhtIntersect de itv = false := by
  rw [dhtIntersect]
  split
  · rfl
  · refine List.any_eq_false.2 fun i hi hmeet => ?_
    have hle := hde i hi
    simp only [intvDoIntersect, Bool.or_eq_true, Bool.and_eq_true, decide_eq_true_eq,
      UInt64.le_iff_toNat_le] at hmeet
    -- the larger of the two left ends is common to both
    have hpoint : max i.lb.toNat itv.lb.toNat ∈ i.seg.points ∧
        max i.lb.toNat itv.lb.toNat ∈ itv.seg.points := by
      simp only [Seg.mem_points, Intv.seg]
      omega
    exact Finset.disjoint_left.1 (hdis i hi) hpoint.1 hpoint.2

/-- Tables without a common index have no intervals that are found to intersect. -/
theorem dhtIntersect_of_disjoint {l tab : List Intv} (hl : Seg.Sorted (l.map Intv.seg))
    (ht : Seg.Sorted (tab.map Intv.seg)) (hdis : Disjoint (indices l) (indices tab)) {de : DhtEntry}
    (hde : ∀ i ∈ de.iTab, i ∈ l) {itv : Intv} (hitv : itv ∈ tab) : dhtIntersect de itv = false := by
  have hsegs : ∀ i ∈ de.iTab, i.seg ∈ l.map Intv.seg := fun i hi => List.mem_map_of_mem (hde i hi)
  have hseg : itv.seg ∈ tab.map Intv.seg := List.mem_map_of_mem hitv
  refine dhtIntersect_eq_false (fun i hi => hl.nonempty i.seg (hsegs i hi)) (ht.nonempty itv.seg hseg) fun i hi => ?_
  rw [Finset.disjoint_left]
  intro q hq hq'
  exact Finset.disjoint_left.1 hdis (Cover.mem_union.2 ⟨_, hsegs i hi, hq⟩) (Cover.mem_union.2 ⟨_, hseg, hq'⟩)

/-- An interval counts for a hull with `lb > ub` only if it reaches from `ub` to `lb`. -/
theorem elemOverlap_inverted {v i : Intv} (hv : v.ub.toNat < v.lb.toNat) :
    elemOverlap v i = if i.lb ≤ v.ub ∧ v.lb ≤ i.ub then (v.ub - v.lb + 1).toInt64 else 0 := by
  simp only [elemOverlap]
  by_cases hmeet : i.lb ≤ v.ub ∧ v.lb ≤ i.ub
  · have hlb := UInt64.le_iff_toNat_le.1 hmeet.1
    have hub := UInt64.le_iff_toNat_le.1 hmeet.2
    have hleft : i.lb < v.lb := UInt64.lt_iff_toNat_lt.2 (by omega)
    have hright : ¬ v.ub > i.ub := UInt64.not_lt.2 (UInt64.le_iff_toNat_le.2 (by omega))
    rw [if_pos (by simp [hmeet.1, hmeet.2]), if_pos hmeet, if_pos hleft, if_neg hright,
      ← UInt64.toInt64_sub]
    congr 1
    apply UInt64.toNat_inj.1
    have := v.ub.toNat_lt
    have := i.ub.toNat_lt
    simp only [UInt64.toNat_add, UInt64.toNat_sub, UInt64.toNat_one]
    omega
  · rw [if_neg hmeet, if_neg]
    simp only [Bool.and_eq_true, decide_eq_true_eq, ge_iff_le]
    exact fun h => hmeet ⟨h.2, h.1⟩

theorem toInt64_eq_zero_iff {x : UInt64} : x.toInt64 = 0 ↔ x.toNat = 0 := by
  constructor
  · intro h
    have hword : x = 0 := congrArg Int64.toUInt64 h
    rw [hword, UInt64.toNat_zero]
  · intro h
    rw [UInt64.toNat_inj.1 (h.trans UInt64.toNat_zero.symm)]
    rfl

/-- Neighbouring indices of a table with gaps lie in one of its intervals. -/
theorem Gapped.exists_reaching {tab : List Intv} (hgap : Gapped tab) {lo hi : ℕ} (hle : lo ≤ hi)
    (hall : ∀ p, lo ≤ p → p ≤ hi → p ∈ indices tab) :
    ∃ i ∈ tab, i.lb.toNat ≤ lo ∧ hi ≤ i.ub.toNat := by
  obtain ⟨i, hi', hlo⟩ := mem_indices.1 (hall lo le_rfl hle)
  refine ⟨i, hi', hlo.1, ?_⟩
  by_contra hcon
  -- the index behind the interval would lie in another one
  obtain ⟨j, hj, hnext⟩ := mem_indices.1 (hall (i.ub.toNat + 1) (by omega) (by omega))
  obtain ⟨n, hn, rfl⟩ := List.mem_iff_getElem.1 hi'
  obtain ⟨m, hm, rfl⟩ := List.mem_iff_getElem.1 hj
  rcases Nat.lt_trichotomy n m with hlt | rfl | hgt
  · have := List.pairwise_iff_getElem.1 hgap n m hn hm hlt
    omega
  · omega
  · have := List.pairwise_iff_getElem.1 hgap m n hm hn hgt
    omega

/-- Intervals that do not reach from `ub` to `lb` leave the count alone. -/
theorem foldl_elemOverlap_inverted {v : Intv} (hinv : v.ub.toNat < v.lb.toNat) (l : List Intv) :
    ∀ n : Int64, (∀ i ∈ l, ¬ (i.lb ≤ v.ub ∧ v.lb ≤ i.ub)) →
      l.foldl (fun numElem i => numElem + elemOverlap v i) n = n := by
  induction l with
  | nil =>
      intro n _
      rfl
  | cons i l ih =>
      intro n hl
      rw [List.foldl_cons, elemOverlap_inverted hinv, if_neg (hl i (by simp)), Int64.add_zero]
      exact ih n fun j hj => hl j (by simp [hj])

/-- At most one interval of a table with gaps reaches from `ub` to `lb`, and it alone is counted. -/
theorem foldl_elemOverlap_reaching {v i : Intv} (hinv : v.ub.toNat < v.lb.toNat) {tab : List Intv}
    (hgap : Gapped tab) (hi : i ∈ tab) (hmeet : i.lb ≤ v.ub ∧ v.lb ≤ i.ub) :
    tab.foldl (fun numElem i => numElem + elemOverlap v i) 0 = (v.ub - v.lb + 1).toInt64 := by
  have hlb := UInt64.le_iff_toNat_le.1 hmeet.1
  have hub := UInt64.le_iff_toNat_le.1 hmeet.2
  obtain ⟨before, after, rfl⟩ := List.append_of_mem hi
  rw [Gapped, List.pairwise_append, List.pairwise_cons] at hgap
  have hothers : ∀ j ∈ before ++ after, ¬ (j.lb ≤ v.ub ∧ v.lb ≤ j.ub) := by
    rintro j hj ⟨hjlb, hjub⟩
    rw [UInt64.le_iff_toNat_le] at hjlb hjub
    rcases List.mem_append.1 hj with hj | hj
    · have := hgap.2.2 j hj i (by simp)
      omega
    · have := hgap.2.1.1 j hj
      omega
  rw [List.foldl_append, List.foldl_cons,
    foldl_elemOverlap_inverted hinv before 0 fun j hj => hothers j (by simp [hj]),
    foldl_elemOverlap_inverted hinv after _ fun j hj => hothers j (by simp [hj]),
    elemOverlap_inverted hinv, if_pos hmeet, Int64.zero_add]

/-- The loop of `ssh_hash_elem_count_v1` comes to `0` exactly on a hull that the table misses. -/
theorem foldl_elemOverlap_eq_zero_iff {tab : List Intv} {v : Intv} (hs : Seg.Sorted (tab.map Intv.seg))
    (hgap : Gapped tab) (hcard : (indices tab).card < 2 ^ 64) :
    tab.foldl (fun numElem i => numElem + elemOverlap v i) 0 = 0 ↔ HullMisses v (indices tab) := by
  rw [HullMisses]
  by_cases hle : v.lb ≤ v.ub
  · have hlt : (indices tab ∩ v.seg.points).card < 2 ^ 64 :=
      lt_of_le_of_lt (Finset.card_le_card Finset.inter_subset_left) hcard
    rw [if_pos hle, foldl_elemOverlap (UInt64.le_iff_toNat_le.1 hle) hs, ← UInt64.toInt64_ofNat',
      toInt64_eq_zero_iff, UInt64.toNat_ofNat', Nat.mod_eq_of_lt hlt, Finset.card_eq_zero,
      ← Finset.disjoint_iff_inter_eq_empty, Finset.disjoint_left]
    simp only [Seg.mem_points, Intv.seg]
  · have hinv : v.ub.toNat < v.lb.toNat := UInt64.lt_iff_toNat_lt.1 (UInt64.not_le.1 hle)
    have hlt := v.lb.toNat_lt
    rw [if_neg hle]
    by_cases hreach : ∃ i ∈ tab, i.lb ≤ v.ub ∧ v.lb ≤ i.ub
    · obtain ⟨i, hi, hmeet⟩ := hreach
      have hlb := UInt64.le_iff_toNat_le.1 hmeet.1
      have hub := UInt64.le_iff_toNat_le.1 hmeet.2
      have hword : (v.ub - v.lb + 1).toNat = 0 ↔ v.lb.toNat = v.ub.toNat + 1 := by
        simp only [UInt64.toNat_add, UInt64.toNat_sub, UInt64.toNat_one]
        omega
      rw [foldl_elemOverlap_reaching hinv hgap hi hmeet, toInt64_eq_zero_iff, hword]
      exact ⟨Or.inl, fun h => h.resolve_right fun ⟨p, h1, h2, hp⟩ =>
        hp (mem_indices.2 ⟨i, hi, by omega, by omega⟩)⟩
    · -- some index between `ub` and `lb` is missing, or one interval would reach over all of them
      push Not at hreach
      rw [foldl_elemOverlap_inverted hinv tab 0 fun i hi h => hreach i hi h.1 h.2]
      refine iff_of_true rfl (Or.inr ?_)
      by_contra hcon
      push Not at hcon
      obtain ⟨i, hi, hlb, hub⟩ := hgap.exists_reaching hinv.le hcon
      exact hreach i hi (UInt64.le_iff_toNat_le.2 hlb) (UInt64.le_iff_toNat_le.2 hub)

end Table

/-! ## v1 -/

section V1

variable {hilbertC2i : HilbertC2i} {uninit : Intv} {dom : BBox} {numNodes maxVersions : Nat} {ss : SSpace}
  {bb : BBox}

/-- Uninitialised memory that spans all indices meets any entry with an interval. -/
theorem dhtIntersect_all {de : DhtEntry} (hne : de.iTab ≠ []) :
    dhtIntersect de ⟨0, 0xffffffffffffffff⟩ = true := by
  obtain ⟨i, is, hcons⟩ := List.exists_cons_of_ne_nil hne
  have hmax : ∀ x : UInt64, x ≤ 0xffffffffffffffff := fun x => by
    have := x.toNat_lt
    exact UInt64.le_iff_toNat_le.2 (by
      have hword : (0xffffffffffffffff : UInt64).toNat = 2 ^ 64 - 1 := rfl
      omega)
  rw [dhtIntersect, if_neg]
  · simp [hcons, intvDoIntersect, hmax]
  · simp [hmax]

/-- On the curve the cells of a box outside the domain have other indices than the domain. -/
theorem disjoint_boxIndices {k : Nat} {p : UInt64} (hd : CubeDims k bb.numDims) (hp : p.toNat = 2 ^ k)
    (hcurve : HilbertCurve hilbertC2i bb.numDims (k + 1))
    (hsub : dom.cells ⊆ (bbVirt bb.numDims p).cells) (hout : Disjoint bb.cells dom.cells) :
    Disjoint (boxIndices hilbertC2i p bb) (dom.cells.image (curveIndex hilbertC2i bb.numDims (k + 1))) := by
  rw [boxIndices, computeBits_two_pow hp hd.bits, Finset.disjoint_left]
  intro q hq hq'
  obtain ⟨x, hx, rfl⟩ := Finset.mem_image.1 hq
  obtain ⟨y, hy, hyx⟩ := Finset.mem_image.1 hq'
  have hinter := Finset.mem_inter.1 hx
  have heq : y = x := curveIndex_injOn hd hp hcurve (hsub hy) hinter.2 hyx
  rw [heq] at hy
  exact Finset.disjoint_left.1 hout hinter.1 hy

theorem exists_iTab_ne_nil {X : Finset ℕ} (hX : X.Nonempty)
    (hall : indices (ss.entTab.flatMap DhtEntry.iTab) = X) : ∃ de ∈ ss.entTab, de.iTab ≠ [] := by
  by_contra hcon
  push Not at hcon
  have hnil : ss.entTab.flatMap DhtEntry.iTab = [] := List.flatMap_eq_nil_iff.2 hcon
  rw [hnil, indices_nil] at hall
  exact hX.ne_empty hall.symm

/-- On a v1 space. -/
theorem hashesToNobody_v1_iff (hdom : dom.Valid) (horigin : ∀ j < dom.numDims, dom.lb.c j = 0)
    (hpos : 1 ≤ numNodes) (hint : numNodes < 2 ^ 31)
    (h : ssdAllocV1 hilbertC2i uninit dom numNodes maxVersions = some ss)
    (hcurve : HilbertCurve hilbertC2i dom.numDims (computeBits ss.maxDim)) (hbb : bb.Valid)
    (hdims : bb.numDims = dom.numDims) (hout : Disjoint bb.cells dom.cells) :
    ReportsNobody hilbertC2i ss bb ↔ (bb.cells ∩ (bbVirt bb.numDims ss.maxDim).cells).Nonempty ∧
      RingFits bb ss.maxDim ∧ ∀ de ∈ ss.entTab, HullMisses de.iVirt (boxIndices hilbertC2i ss.maxDim bb) := by
  have hbelow := ub_lt_of_ssdAllocV1 hdom horigin hpos hint h hcurve
  have hbits := hcurve.bits_le hdom.dims.2
  obtain ⟨hv, -, -, k, hd, hp, hsorted, hall, -⟩ :=
    ssdAllocV1_tables hdom hpos hint h hbelow hbits hcurve
  have hcomp : computeBits ss.maxDim = k + 1 := computeBits_two_pow hp hd.bits
  rw [hcomp] at hcurve hbits
  rw [← hdims] at hd
  rw [← hdims] at hcurve hbits
  simp only [ReportsNobody, ssdHash_nil_iff (Or.inl hv), sshHashElemCount, hv, sshHashElemCountV1,
    hashesNowhere]
  by_cases hmeet : (bb.cells ∩ (bbVirt bb.numDims ss.maxDim).cells).Nonempty
  · rw [and_iff_right hmeet]
    obtain ⟨tab, hcut, hs, hind, hgap⟩ := cutIntv_spec hd hp hcurve hbb rfl hmeet
    have htab : ∀ uninit itvs, bboxToIntv2 hilbertC2i uninit bb ss.maxDim = some itvs ↔
        itvs = tab ∧ RingFits bb ss.maxDim := fun uninit itvs => by
      rw [bboxToIntv2_iff hbb hd hp, hcut uninit, eq_comm]
    have hcard : (indices tab).card < 2 ^ 64 := by
      rw [hind, card_boxIndices hd hp hcurve]
      exact lt_of_le_of_lt (Finset.card_le_card Finset.inter_subset_right) (card_bbVirt_lt hd hp hbits)
    have hcount : ∀ de : DhtEntry, (tab.foldl (fun numElem i => numElem + elemOverlap de.iVirt i) 0 = 0 ↔
        HullMisses de.iVirt (boxIndices hilbertC2i ss.maxDim bb)) := fun de => by
      rw [foldl_elemOverlap_eq_zero_iff hs hgap hcard, hind]
    constructor
    · intro h
      obtain ⟨itvs, hitvs, -⟩ := (h ⟨0, 0⟩).1 0
      obtain ⟨-, hfits⟩ := (htab _ _).1 hitvs
      refine ⟨hfits, fun de hde => (hcount de).1 ?_⟩
      have hzero := (h ⟨0, 0⟩).2 de hde
      rw [(htab _ _).2 ⟨rfl, hfits⟩, Option.map_some] at hzero
      exact Option.some.inj hzero
    rintro ⟨hfits, hhulls⟩ uninit
    have htab2 := (htab uninit tab).2 ⟨rfl, hfits⟩
    refine ⟨fun _ => ⟨tab, htab2, fun de hde itv hitv => ?_⟩, fun de hde => ?_⟩
    swap
    · rw [htab2, Option.map_some, (hcount de).2 (hhulls de hde)]
    have hsub : dom.cells ⊆ (bbVirt bb.numDims ss.maxDim).cells :=
      cells_subset_bbVirt hd hp hdims.symm (by rwa [hdims])
    have hdis : Disjoint (indices (ss.entTab.flatMap DhtEntry.iTab)) (indices tab) := by
      rw [hall, ← hdims, hind]
      exact (disjoint_boxIndices hd hp hcurve hsub hout).symm
    exact dhtIntersect_of_disjoint hsorted hs hdis (fun i hi => List.mem_flatMap.2 ⟨de, hde, hi⟩) hitv
  · -- memory that spans all indices is met by an entry with an interval
    refine iff_of_false (fun hno => ?_) fun h => hmeet h.1
    obtain ⟨de, hde, hne⟩ := exists_iTab_ne_nil (hdom.cells_nonempty.image _) hall
    obtain ⟨iTab, htab, hnone⟩ := (hno ⟨0, 0xffffffffffffffff⟩).1 0
    rw [bboxToIntv2_of_miss hbb hp hmeet] at htab
    cases htab
    have := hnone de hde _ (List.mem_singleton_self _)
    rw [dhtIntersect_all hne] at this
    cases this

end V1

/-! ## v2 -/

section V2

variable {dom : BBox} {numNodes maxVersions : Nat} {ss : SSpace} {bb : BBox}

theorem BBox.valid_of_nonempty {b : BBox} (hdims : b.DimsOk) (h : b.cells.Nonempty) : b.Valid := by
  obtain ⟨x, hx⟩ := h
  refine ⟨hdims, fun i hi => UInt64.le_iff_toNat_le.2 ?_⟩
  have hxi := (BBox.mem_cells.1 hx).1 ⟨i, lt_of_lt_of_le hi hdims.2⟩ hi
  simp only at hxi
  omega

/-- On a v2 space no cell is counted, and only boxes without cells can be reported. -/
theorem hashesToNobody_v2_iff (hilbertC2i : HilbertC2i) (hdom : dom.Valid)
    (horigin : ∀ j < dom.numDims, dom.lb.c j = 0) (hpos : 1 ≤ numNodes) (hint : numNodes < 2 ^ 31)
    (h : ssdAllocV2 dom numNodes maxVersions = some ss) (hbb : bb.Valid)
    (hdims : bb.numDims = dom.numDims) (hout : Disjoint bb.cells dom.cells) :
    ReportsNobody hilbertC2i ss bb ↔
      ∀ de ∈ ss.entTab, ∀ b ∈ de.bbTab, b.cells = ∅ → bboxDoesIntersect bb b = false := by
  obtain ⟨hv, -, -, -, hpieces⟩ :=
    ssdAllocV2_spec hdom (fun j hj => Or.inl (horigin j hj)) hpos hint h
  have hpiece : ∀ de ∈ ss.entTab, ∀ b ∈ de.bbTab, Piece dom.numDims 0 b ∧ Disjoint bb.cells b.cells := by
    intro de hde b hb
    have hmem : b ∈ ss.entTab.flatMap DhtEntry.bbTab := List.mem_flatMap.2 ⟨de, hde, hb⟩
    refine ⟨hpieces.piece b hmem, hout.mono_right ?_⟩
    rw [← hpieces.union]
    exact fun x hx => Cover.mem_union.2 ⟨b, hmem, hx⟩
  have hcount : ∀ de ∈ ss.entTab, sshHashElemCountV2 de bb = 0 := by
    intro de hde
    have hempty : bb.cells ∩ Cover.union BBox.cells de.bbTab = ∅ := by
      rw [← Finset.disjoint_iff_inter_eq_empty, Finset.disjoint_right]
      intro x hx hxb
      obtain ⟨b, hb, hx⟩ := Cover.mem_union.1 hx
      exact Finset.disjoint_left.1 (hpiece de hde b hb).2 hxb hx
    rw [sshHashElemCountV2_eq hbb hdims (fun b hb => (hpiece de hde b hb).1)
      (hpieces.apart.of_flatMap hde), hempty]
    rfl
  simp only [ReportsNobody, ssdHash_nil_iff (Or.inr hv), sshHashElemCount, hv, hashesNowhere,
    Option.some.injEq]
  constructor
  · exact fun h de hde b hb _ => (h ⟨0, 0⟩).1 0 de hde b hb
  · refine fun h _ => ⟨fun _ de hde b hb => ?_, hcount⟩
    obtain ⟨hp, hdis⟩ := hpiece de hde b hb
    rcases b.cells.eq_empty_or_nonempty with hempty | hne
    · exact h de hde b hb hempty
    · -- a box with cells is reported only if it shares one
      rw [Bool.eq_false_iff]
      intro hmeet
      rw [bboxDoesIntersect_iff hbb (BBox.valid_of_nonempty hp.near.dims hne) (hdims.trans hp.dims.symm),
        Finset.disjoint_iff_inter_eq_empty.1 hdis] at hmeet
      exact Finset.not_nonempty_empty hmeet

end V2

/-! ## Main results -/

/-- On every v1 or v2 space of any number of servers, a valid box that shares no cell with the domain
hashes to nobody iff it misses the entries: on v1 it reaches into the virtual cube and its indices miss
the hulls, on v2 no box without cells is reported. -/
theorem hashesToNobody_iff {uninit : Intv} {bbDomain : BBox} {numNodes maxVersions : Nat}
    {hashVersion : HashVersion} {ss : SSpace} {bb : BBox}
    (hss : HashedSpace uninit bbDomain numNodes maxVersions hashVersion ss) (hbb : bb.Valid)
    (hdims : bb.numDims = bbDomain.numDims) (hout : bb.cells ∩ bbDomain.cells = ∅) :
    HashesToNobody ss bb ↔ MissesEntries ss bb := by
  have hdis := Finset.disjoint_iff_inter_eq_empty.2 hout
  rcases ssdAlloc_cases hss.built with ⟨hv, -⟩ | ⟨hv, halloc⟩ | ⟨hv, halloc⟩
  · exact absurd hv hss.hashed
  · obtain ⟨hmax, hdomain⟩ := ssdAllocV1_fields halloc
    obtain ⟨k, hk, hp, -, -⟩ := nextPow2V2_some hmax
    have hbits : computeBits ss.maxDim = k + 1 := computeBits_two_pow hp hk
    have hiff := fun hword : bb.numDims * (k + 1) ≤ 64 =>
      hashesToNobody_v1_iff hss.domain hss.origin hss.pos hss.int halloc (by
        rw [hbits]
        exact hilbertCurve_hilbertC2i hss.domain.dims.1 hss.domain.dims.2 (hdims ▸ hword)) hbb hdims hdis
    rw [MissesEntries, hv, hbits]
    constructor
    · rintro ⟨hcalls, hnobody⟩
      -- the domain starts in the cube, so calls were made for it
      have hdom := (hcalls hv).1
      rw [hdomain] at hdom
      have hword := bits_of_callsFit hss.domain hp (meets_bbVirt_of_origin hss.origin ss.maxDim) hdom
      rw [← hdims] at hword
      exact ⟨hword, (hiff hword).1 hnobody⟩
    · rintro ⟨hword, hmisses⟩
      refine ⟨fun _ => ⟨?_, callsFit_of_bits hbb hp hword⟩, (hiff hword).2 hmisses⟩
      rw [hdomain]
      exact callsFit_of_bits hss.domain hp (hdims ▸ hword)
  · have hiff := hashesToNobody_v2_iff hilbertC2i hss.domain hss.origin hss.pos hss.int halloc hbb hdims hdis
    have hne : ss.hashVersion ≠ .v1 := by rw [hv]; decide
    rw [MissesEntries, hv]
    exact ⟨fun h => hiff.1 h.nobody, fun h => ⟨fun hv1 => absurd hv1 hne, hiff.2 h⟩⟩

theorem disjoint_lines {lo hi lo' hi' : UInt64}
    (h : bboxDoesIntersect (BBox.line lo hi) (BBox.line lo' hi') = false) :
    (BBox.line lo hi).cells ∩ (BBox.line lo' hi').cells = ∅ :=
  Finset.disjoint_iff_inter_eq_empty.1
    (disjoint_of_bboxDoesIntersect ⟨le_refl 1, show 1 ≤ BBOX_MAX_NDIM by decide⟩ rfl h)

theorem hashedSpace_lineSpaceV1 : HashedSpace ⟨0, 0⟩ (BBox.line 0 3) 2 1 .auto lineSpaceV1 where
  domain := BBox.line_valid (by decide)
  origin j hj := by obtain rfl : j = 0 := Nat.lt_one_iff.1 hj; rfl
  pos := by norm_num
  int := by norm_num
  built := by decide +kernel
  hashed := by decide

theorem hashedSpace_lineSpaceV2 : HashedSpace ⟨0, 0⟩ (BBox.line 0 2) 2 1 .auto lineSpaceV2 where
  domain := BBox.line_valid (by decide)
  origin j hj := by obtain rfl : j = 0 := Nat.lt_one_iff.1 hj; rfl
  pos := by norm_num
  int := by norm_num
  built := rfl
  hashed := by decide

/-- Two servers and the domain `[0, 2]`: both boxes have cells, and `[7, 8]` meets neither. -/
theorem hashesToNobody_line : HashesToNobody lineSpaceV2 (BBox.line 7 8) :=
  (hashesToNobody_iff hashedSpace_lineSpaceV2 (BBox.line_valid (by decide))
    (show (BBox.line 7 8).numDims = (BBox.line 0 2).numDims from rfl)
    (disjoint_lines (by decide))).2 fun de hde b hb _ => by
      have hall : ∀ de ∈ lineSpaceV2.entTab, ∀ b ∈ de.bbTab,
          bboxDoesIntersect (BBox.line 7 8) b = false := by decide
      exact hall de hde b hb

/-- The box `[4, 5]` misses the virtual cube of the domain `[0, 3]`, and with memory that spans all
indices it is hashed to both servers.  Four servers on the domain `[0, 2]` get the boxes `[0, 0]`,
`[1, 1]`, `[2, 2]` and `[3, 2]`, of which the last is reported to meet `[3, 3]`. -/
theorem not_hashesToNobody_lines :
    (HashedSpace ⟨0, 0⟩ (BBox.line 0 3) 2 1 .auto lineSpaceV1 ∧
      (BBox.line 4 5).Valid ∧ (BBox.line 4 5).cells ∩ (BBox.line 0 3).cells = ∅ ∧
      ¬ HashesToNobody lineSpaceV1 (BBox.line 4 5)) ∧
    ∃ ss, HashedSpace ⟨0, 0⟩ (BBox.line 0 2) 4 1 .auto ss ∧
      (BBox.line 3 3).Valid ∧ (BBox.line 3 3).cells ∩ (BBox.line 0 2).cells = ∅ ∧
      ¬ HashesToNobody ss (BBox.line 3 3) := by
  refine ⟨⟨hashedSpace_lineSpaceV1, BBox.line_valid (by decide), disjoint_lines (by decide), fun h => ?_⟩,
    _, ⟨BBox.line_valid (by decide), fun j hj => ?_, by norm_num, by norm_num, rfl, by decide⟩,
    BBox.line_valid (by decide), disjoint_lines (by decide), fun h => ?_⟩
  · obtain ⟨sfc, hsfc⟩ := (h.nobody ⟨0, 0xffffffffffffffff⟩).1 0
    have hboth : (ssdHash hilbertC2i ⟨0, 0xffffffffffffffff⟩ 0 lineSpaceV1 (BBox.line 4 5) []).map Prod.fst =
        some [⟨0, 0⟩, ⟨0, 1⟩] := by decide +kernel
    rw [hsfc] at hboth
    cases hboth
  · obtain rfl : j = 0 := Nat.lt_one_iff.1 hj
    rfl
  · obtain ⟨sfc, hsfc⟩ := (h.nobody ⟨0, 0⟩).1 0
    cases hsfc

end DataSpaces
