import Mathlib.Data.Nat.Log
import DataSpaces.Curve
import DataSpaces.LinearizeRing

/-!
# Intervals — what `bbox_to_intv` computes

The table of intervals that the two functions return is sorted, its intervals do not touch, and its
points are the Hilbert indices of the cells the box has in the virtual cube.
-/

namespace DataSpaces

/-- The indices listed in a table of intervals. -/
def indices (tab : List Intv) : Finset ℕ :=
  Cover.union Seg.points (tab.map Intv.seg)

@[simp] theorem indices_nil : indices [] = ∅ := rfl

theorem indices_cons (t : Intv) (ts : List Intv) : indices (t :: ts) = t.seg.points ∪ indices ts :=
  rfl

theorem indices_append (ts us : List Intv) : indices (ts ++ us) = indices ts ∪ indices us := by
  rw [indices, List.map_append, Cover.union_append]
  rfl

theorem card_points (s : Seg) : s.points.card = s.hi + 1 - s.lo :=
  Nat.card_Icc s.lo s.hi

/-! ## The number of bits of a side -/

theorem computeBitsLoop_two_pow (fuel : Nat) :
    ∀ (k : Nat) (n : UInt64) (nrBits : Nat), n.toNat = 2 ^ k → k < fuel →
      computeBitsLoop fuel n nrBits = nrBits + k + 1 := by
  induction fuel with
  | zero =>
      intro k n nrBits _ hk
      omega
  | succ fuel ih =>
      intro k n nrBits hn hk
      have hne : n ≠ 0 := by
        rintro rfl
        have := Nat.two_pow_pos k
        rw [UInt64.toNat_zero] at hn
        omega
      have hshift : (n >>> 1).toNat = n.toNat / 2 := by
        rw [UInt64.toNat_shiftRight]
        rfl
      rw [computeBitsLoop, if_neg hne]
      -- 1 is the last number that counts
      cases k with
      | zero =>
          have hzero : n >>> 1 = 0 := by
            apply UInt64.toNat_inj.1
            rw [hshift, hn]
            rfl
          rw [hzero]
          cases fuel <;> simp [computeBitsLoop]
      | succ k =>
          have hhalf : (n >>> 1).toNat = 2 ^ k := by
            rw [hshift, hn, Nat.pow_succ]
            omega
          rw [ih k _ _ hhalf (by omega)]
          omega

theorem computeBits_two_pow {n : UInt64} {k : Nat} (hn : n.toNat = 2 ^ k) (hk : k ≤ 63) :
    computeBits n = k + 1 := by
  rw [computeBits, computeBitsLoop_two_pow 64 k n 0 hn (by omega)]
  omega

/-! ## Sorting and joining -/

/-- Sorting disjoint nonempty intervals by their left ends puts them in increasing order. -/
theorem mergeSort_sorted {tab : List Intv} (hne : ∀ i ∈ tab, i.seg.lo ≤ i.seg.hi)
    (hap : Cover.Apart (fun i : Intv => i.seg.points) tab) :
    Seg.Sorted ((tab.mergeSort intvCompar).map Intv.seg) := by
  have hperm := List.mergeSort_perm tab intvCompar
  have hle : (tab.mergeSort intvCompar).Pairwise fun a b => intvCompar a b = true := by
    refine List.pairwise_mergeSort (fun a b c hab hbc => ?_) (fun a b => ?_) tab
    · simp only [intvCompar, decide_eq_true_eq] at hab hbc ⊢
      exact UInt64.le_trans hab hbc
    · simp only [intvCompar, Bool.or_eq_true, decide_eq_true_eq]
      exact UInt64.le_total a.lb b.lb
  refine Seg.sorted_of_apart ?_ ?_ ?_
  · intro s hs
    obtain ⟨i, hi, rfl⟩ := List.mem_map.1 hs
    exact hne i (hperm.mem_iff.1 hi)
  · exact List.pairwise_map.2 (hap.perm hperm.symm)
  · refine List.pairwise_map.2 (hle.imp fun {a b} hab => ?_)
    simpa [intvCompar, Intv.seg, UInt64.le_iff_toNat_le] using hab

/-- Intervals with a gap of at least one index between any two neighbours. -/
def Gapped (tab : List Intv) : Prop :=
  tab.Pairwise fun a b => a.ub.toNat + 1 < b.lb.toNat

/-- Joining neighbours keeps the points, the order and the first left end, and leaves a gap between
any two intervals. -/
theorem intvCompactFrom_spec (ts : List Intv) :
    ∀ cur : Intv, Seg.Sorted ((cur :: ts).map Intv.seg) →
      Seg.Sorted ((intvCompactFrom cur ts).map Intv.seg) ∧
        Cover.union Seg.points ((intvCompactFrom cur ts).map Intv.seg) =
          Cover.union Seg.points ((cur :: ts).map Intv.seg) ∧
        Gapped (intvCompactFrom cur ts) ∧ ∀ i ∈ intvCompactFrom cur ts, cur.lb.toNat ≤ i.lb.toNat := by
  induction ts with
  | nil =>
      intro cur hs
      exact ⟨hs, rfl, List.pairwise_singleton _ _, by simp [intvCompactFrom]⟩
  | cons t ts ih =>
      intro cur hs
      obtain ⟨hcur, hcurts, htail⟩ := Seg.sorted_cons.1 hs
      obtain ⟨ht, htts, hrest⟩ := Seg.sorted_cons.1 htail
      have hlt : cur.ub.toNat < t.lb.toNat := hcurts t.seg (by simp)
      have hcur' : cur.lb.toNat ≤ cur.ub.toNat := hcur
      have ht' : t.lb.toNat ≤ t.ub.toNat := ht
      -- `t` lies behind `cur`, so the end of `cur` is not the last index
      have hsucc : (cur.ub + 1).toNat = cur.ub.toNat + 1 := by
        have := t.lb.toNat_lt
        rw [UInt64.toNat_add, UInt64.toNat_one]
        omega
      rw [intvCompactFrom]
      by_cases hadj : cur.ub + 1 = t.lb
      · -- `t` is joined to `cur`
        have hadj' : cur.ub.toNat + 1 = t.lb.toNat := by rw [← hsucc, hadj]
        have hjoin : Seg.Sorted (({ cur with ub := t.ub } :: ts).map Intv.seg) :=
          Seg.sorted_cons.2 ⟨show cur.lb.toNat ≤ t.ub.toNat by omega, htts, hrest⟩
        obtain ⟨hsorted, hpoints, hgap, hlb⟩ := ih _ hjoin
        rw [if_pos hadj]
        refine ⟨hsorted, ?_, hgap, hlb⟩
        rw [hpoints, List.map_cons, List.map_cons, List.map_cons, Cover.union, Cover.union,
          Cover.union, ← Finset.union_assoc, ← Seg.points_join hcur ht hadj']
        rfl
      · -- `cur` is finished, and what follows starts at `t` or later
        have hgap' : cur.ub.toNat + 1 < t.lb.toNat := by
          rcases Nat.lt_or_ge (cur.ub.toNat + 1) t.lb.toNat with h | h
          · exact h
          · refine absurd (UInt64.toNat_inj.1 ?_) hadj
            omega
        obtain ⟨hsorted, hpoints, hgap, hlb⟩ := ih t htail
        rw [if_neg hadj]
        refine ⟨Seg.sorted_cons.2 ⟨hcur, fun s hs' => ?_, hsorted⟩, ?_, ?_, ?_⟩
        · obtain ⟨i, hi, rfl⟩ := List.mem_map.1 hs'
          have hi' := hlb i hi
          simp only [Intv.seg]
          omega
        · rw [List.map_cons, Cover.union, hpoints]
          rfl
        · refine List.pairwise_cons.2 ⟨fun i hi => ?_, hgap⟩
          have hi' := hlb i hi
          omega
        · intro i hi
          rcases List.mem_cons.1 hi with rfl | hi
          · exact le_rfl
          · have hi' := hlb i hi
            omega

/-- A nonempty table of disjoint intervals comes out sorted, with the same points and with gaps, and
nothing uninitialised is read. -/
theorem intvFinish_spec {tab : List Intv} (hnil : tab ≠ [])
    (hne : ∀ i ∈ tab, i.seg.lo ≤ i.seg.hi)
    (hap : Cover.Apart (fun i : Intv => i.seg.points) tab) :
    ∃ fin, (∀ uninit, intvFinish uninit tab = fin) ∧ Seg.Sorted (fin.map Intv.seg) ∧
      Cover.union Seg.points (fin.map Intv.seg) =
        Cover.union (fun i : Intv => i.seg.points) tab ∧
      Gapped fin := by
  have hsorted := mergeSort_sorted hne hap
  have hperm := List.mergeSort_perm tab intvCompar
  simp only [intvFinish]
  cases hcase : tab.mergeSort intvCompar with
  | nil =>
      rw [hcase] at hperm
      exact absurd hperm.nil_eq.symm hnil
  | cons t ts =>
      rw [hcase] at hsorted hperm
      obtain ⟨h1, h2, h3, -⟩ := intvCompactFrom_spec ts t hsorted
      refine ⟨intvCompactFrom t ts, fun _ => rfl, h1, ?_, h3⟩
      rw [h2, Cover.union_map, Cover.union_perm hperm]

/-! ## The virtual cube -/

section Spec

variable {k d : Nat} {dimVirt : UInt64}

theorem bbVirt_isCube (hd : CubeDims k d) (hdim : dimVirt.toNat = 2 ^ k) :
    IsCube k d k (bbVirt d dimVirt) := by
  have hpos := Nat.two_pow_pos k
  have hlb : ∀ j < d, (bbVirt d dimVirt).lb.c j = 0 := fun j hj =>
    bbVirt_lb_c d dimVirt (lt_of_lt_of_le hj hd.le)
  have hub : ∀ j < d, ((bbVirt d dimVirt).ub.c j).toNat = 2 ^ k - 1 := fun j hj => by
    rw [bbVirt_ub_toNat hd.le (by omega) hj, hdim]
  refine ⟨rfl, fun j hj => ?_, fun j hj => ?_, fun j hj => ?_⟩
  · simp [hlb j hj]
  · rw [hlb j hj, hub j hj, UInt64.toNat_zero]
    omega
  · rw [hub j hj]
    omega

theorem IsCube.inGrid_of_mem {l : Nat} {b : BBox} (h : IsCube k d l b) {nBits : Nat}
    (hbits : k ≤ nBits) {x : Cell} (hx : x ∈ b.cells) : InGrid d nBits x := by
  obtain ⟨hin, hout⟩ := BBox.mem_cells.1 hx
  have hpow : 2 ^ k ≤ 2 ^ nBits := Nat.pow_le_pow_right (by norm_num) hbits
  intro j
  by_cases hj : j.val < d
  · have hxj := hin j (h.dims ▸ hj)
    have hb := h.bound j hj
    simp only [hj, if_true]
    omega
  · simpa [hj] using hout j (h.dims ▸ Nat.le_of_not_lt hj)

/-- The step budget is enough for the whole virtual cube. -/
theorem cubeSteps_le_intvFuel (hd : CubeDims k d) (hdim : dimVirt.toNat = 2 ^ k) :
    (([k] : List Nat).map (cubeSteps d)).sum ≤ intvFuel d dimVirt := by
  have hsteps := cubeSteps_lt hd.pos k
  have hpow : intvFuel d dimVirt = 2 ^ (d * (k + 1)) := by
    rw [intvFuel, hdim, Nat.mul_comm d, Nat.pow_mul, Nat.pow_succ, Nat.mul_comm 2]
  simp only [List.map_cons, List.map_nil, List.sum_cons, List.sum_nil]
  omega

end Spec

/-! ## The sub-cubes in the box -/

section Inner

variable {k : Nat} {dimVirt : UInt64} {bb : BBox}

/-- The cells are the last layer of sub-cubes. -/
theorem layer_bbVirt_eq_nil (hd : CubeDims k bb.numDims) (hbb : bb.Valid) (hdim : dimVirt.toNat = 2 ^ k) :
    Layers.layer (cutParts bb) (k + 1) [bbVirt bb.numDims dimVirt] = [] :=
  layer_cutParts_eq_nil hd hbb rfl k fun b hb => by
    rw [List.mem_singleton.1 hb]
    exact bbVirt_isCube hd hdim

theorem order_bbVirt (hd : CubeDims k bb.numDims) (hdim : dimVirt.toNat = 2 ^ k) :
    Layers.order (cutParts bb) (k + 1) [bbVirt bb.numDims dimVirt] = subCubes bb dimVirt := by
  rw [subCubes, computeBits_two_pow hdim hd.bits]

/-- The subdivision emits the sub-cubes in the box. -/
theorem eq_of_cutLoop (hd : CubeDims k bb.numDims) (hbb : bb.Valid) (hdim : dimVirt.toNat = 2 ^ k) {γ : Type}
    {emit : BBox → γ} {fuel : ℕ} {r : List γ}
    (h : cutLoop emit bb fuel [bbVirt bb.numDims dimVirt] [] = some r) : r = (innerCubes bb dimVirt).map emit := by
  obtain ⟨t, done, hturn, rfl⟩ := cutLoop_turns emit bb fuel h
  obtain ⟨queue, pre, suf, hturn', horder, hhead, -⟩ :=
    Layers.exists_split (layer_bbVirt_eq_nil hd hbb hdim) t
  rw [hturn] at hturn'
  cases hturn'
  obtain rfl : suf = [] := List.head?_eq_none_iff.1 hhead.symm
  rw [order_bbVirt hd hdim, List.append_nil] at horder
  rw [innerCubes, horder, List.nil_append]

/-- These are cubes without common cells, and have the cells of the box in the virtual cube. -/
theorem innerCubes_spec (hd : CubeDims k bb.numDims) (hbb : bb.Valid) (hdim : dimVirt.toNat = 2 ^ k) :
    (∀ b ∈ innerCubes bb dimVirt, ∃ l, IsCube k bb.numDims l b) ∧
      Cover.Apart BBox.cells (innerCubes bb dimVirt) ∧
      Cover.union BBox.cells (innerCubes bb dimVirt) = bb.cells ∩ (bbVirt bb.numDims dimVirt).cells := by
  obtain ⟨good, hrun, hcubes, hgap, hcov⟩ :=
    cutLoop_spec id hd hbb rfl (intvFuel bb.numDims dimVirt) [k] [bbVirt bb.numDims dimVirt] []
      (by simpa using bbVirt_isCube hd hdim) (cubeSteps_le_intvFuel hd hdim) (List.pairwise_singleton _ _)
  have hgood := eq_of_cutLoop hd hbb hdim hrun
  rw [List.nil_append, List.map_id, List.map_id] at hgood
  rw [← hgood]
  exact ⟨hcubes, hgap, by simpa [Cover.union] using hcov⟩

/-- The step budget is enough to emit all of them. -/
theorem cutLoop_eq {γ : Type} (emit : BBox → γ) (hd : CubeDims k bb.numDims) (hbb : bb.Valid)
    (hdim : dimVirt.toNat = 2 ^ k) :
    cutLoop emit bb (intvFuel bb.numDims dimVirt) [bbVirt bb.numDims dimVirt] [] =
      some ((innerCubes bb dimVirt).map emit) := by
  obtain ⟨good, hrun, -⟩ :=
    cutLoop_spec emit hd hbb rfl (intvFuel bb.numDims dimVirt) [k] [bbVirt bb.numDims dimVirt] []
      (by simpa using bbVirt_isCube hd hdim) (cubeSteps_le_intvFuel hd hdim) (List.pairwise_singleton _ _)
  rw [hrun, eq_of_cutLoop hd hbb hdim hrun]

end Inner

/-! ## The whole function -/

section Spec

variable {hilbertC2i : HilbertC2i} {k d : Nat} {dimVirt : UInt64}

/-- The indices of the cells that a box has in the virtual cube. -/
def boxIndices (hilbertC2i : HilbertC2i) (dimVirt : UInt64) (bb : BBox) : Finset ℕ :=
  (bb.cells ∩ (bbVirt bb.numDims dimVirt).cells).image
    (curveIndex hilbertC2i bb.numDims (computeBits dimVirt))

/-- What `bbox_to_intv` and `bbox_to_intv2` return if no counter overflows. -/
def cutIntv (hilbertC2i : HilbertC2i) (uninit : Intv) (bb : BBox) (dimVirt : UInt64) : List Intv :=
  intvFinish uninit ((innerCubes bb dimVirt).map (bboxFlat hilbertC2i (computeBits dimVirt)))

/-- On a curve, and for a box that reaches into the virtual cube, the table is a sorted list of intervals with
gaps between them whose points are the indices of the cells.  It does not depend on what uninitialised memory
holds. -/
theorem cutIntv_spec (hd : CubeDims k d) (hdim : dimVirt.toNat = 2 ^ k)
    (hh : HilbertCurve hilbertC2i d (k + 1)) {bb : BBox} (hbb : bb.Valid) (hbd : bb.numDims = d)
    (hmeet : (bb.cells ∩ (bbVirt d dimVirt).cells).Nonempty) :
    ∃ tab, (∀ uninit, cutIntv hilbertC2i uninit bb dimVirt = tab) ∧
      Seg.Sorted (tab.map Intv.seg) ∧
      indices tab = boxIndices hilbertC2i dimVirt bb ∧
      Gapped tab := by
  have hbits : computeBits dimVirt = k + 1 := computeBits_two_pow hdim hd.bits
  subst hbd
  obtain ⟨hcubes, hgap, hcov⟩ := innerCubes_spec hd hbb hdim
  have hflat : ∀ b ∈ innerCubes bb dimVirt, (bboxFlat hilbertC2i (k + 1) b).seg.points =
      b.cells.image (curveIndex hilbertC2i bb.numDims (k + 1)) ∧
        (bboxFlat hilbertC2i (k + 1) b).seg.lo ≤ (bboxFlat hilbertC2i (k + 1) b).seg.hi := by
    intro b hb
    obtain ⟨l, hl⟩ := hcubes b hb
    exact bboxFlat_points hh hd hl (Nat.le_succ k)
  have hnil : (innerCubes bb dimVirt).map (bboxFlat hilbertC2i (k + 1)) ≠ [] := by
    obtain ⟨x, hx⟩ := hmeet
    rw [← hcov] at hx
    obtain ⟨b, hb, -⟩ := Cover.mem_union.1 hx
    intro hempty
    rw [List.map_eq_nil_iff] at hempty
    simp [hempty] at hb
  have hne : ∀ i ∈ (innerCubes bb dimVirt).map (bboxFlat hilbertC2i (k + 1)), i.seg.lo ≤ i.seg.hi := by
    intro i hi
    obtain ⟨b, hb, rfl⟩ := List.mem_map.1 hi
    exact (hflat b hb).2
  have hap : Cover.Apart (fun i : Intv => i.seg.points)
      ((innerCubes bb dimVirt).map (bboxFlat hilbertC2i (k + 1))) := by
    -- cubes apart on an injective curve have disjoint sets of indices
    refine List.pairwise_map.2 (List.Pairwise.imp_of_mem ?_ hgap)
    intro b b' hb hb' hdis
    simp only
    rw [(hflat b hb).1, (hflat b' hb').1, Finset.disjoint_left]
    intro p hp hp'
    obtain ⟨x, hx, rfl⟩ := Finset.mem_image.1 hp
    obtain ⟨y, hy, hxy⟩ := Finset.mem_image.1 hp'
    obtain ⟨l, hl⟩ := hcubes b hb
    obtain ⟨l', hl'⟩ := hcubes b' hb'
    have heq := hh.injective y x (hl'.inGrid_of_mem (Nat.le_succ k) hy)
      (hl.inGrid_of_mem (Nat.le_succ k) hx) hxy
    rw [heq] at hy
    exact Finset.disjoint_left.1 hdis hx hy
  obtain ⟨fin, hfin, h1, h2, h3⟩ := intvFinish_spec hnil hne hap
  refine ⟨fin, fun uninit => ?_, h1, ?_, h3⟩
  · rw [cutIntv, hbits, hfin]
  · rw [indices, h2, Cover.union_map, boxIndices, hbits, ← hcov]
    ext p
    simp only [Cover.mem_union, Finset.mem_image]
    constructor
    · rintro ⟨b, hb, hp⟩
      rw [(hflat b hb).1] at hp
      obtain ⟨x, hx, rfl⟩ := Finset.mem_image.1 hp
      exact ⟨x, ⟨b, hb, hx⟩, rfl⟩
    · rintro ⟨x, ⟨b, hb, hx⟩, rfl⟩
      refine ⟨b, hb, ?_⟩
      rw [(hflat b hb).1]
      exact Finset.mem_image_of_mem _ hx

end Spec

/-! ## The counters -/

theorem tabLimit_le {d : ℕ} (hd : d ≤ 10) : tabLimit (2 ^ d) ≤ INT_MAX := by
  interval_cases d <;> decide +kernel

section Counters

variable {k : Nat} {dimVirt : UInt64} {bb : BBox}

theorem queueRuns_bbVirt (hd : CubeDims k bb.numDims) (hbb : bb.Valid) (hdim : dimVirt.toNat = 2 ^ k) :
    QueueRuns bb [bbVirt bb.numDims dimVirt] 0 ↔ QueueFits bb dimVirt := by
  have hdims : (bbVirt bb.numDims dimVirt).numDims = bb.numDims := rfl
  rw [queueRuns_iff hdims (layer_bbVirt_eq_nil hd hbb hdim), order_bbVirt hd hdim]
  exact ⟨fun ⟨hpending, hinside⟩ => ⟨hpending, hinside⟩, fun h => ⟨h.pending, h.inside⟩⟩

theorem ringRuns_bbVirt (hd : CubeDims k bb.numDims) (hbb : bb.Valid) (hdim : dimVirt.toNat = 2 ^ k) :
    RingRuns bb [bbVirt bb.numDims dimVirt] [] ↔ RingFits bb dimVirt := by
  have hdims : (bbVirt bb.numDims dimVirt).numDims = bb.numDims := rfl
  rw [ringRuns_iff hdims (layer_bbVirt_eq_nil hd hbb hdim), order_bbVirt hd hdim]
  exact ⟨fun ⟨hpending, hinside⟩ => ⟨hpending, hinside⟩, fun h => ⟨h.pending, h.inside⟩⟩

/-- A box for which the circular table has room fits into the linked queues. -/
theorem RingFits.queueFits (h : RingFits bb dimVirt) (hdims : bb.numDims ≤ BBOX_MAX_NDIM) :
    QueueFits bb dimVirt := by
  have hlimit := tabLimit_le hdims
  have hpos := Nat.two_pow_pos bb.numDims
  refine ⟨fun pre => ?_, h.inside.trans (tabLimit_le (d := 0) (by omega))⟩
  induction pre using List.reverseRecOn with
  | nil =>
      intro suf _
      simp
  | append_singleton pre b ih =>
      intro suf horder
      rw [List.append_assoc] at horder
      have hbefore := ih _ horder
      rw [List.countP_append, List.countP_singleton, List.length_append, List.length_singleton]
      split
      · next hstraddles =>
          have hroom := h.pending pre b suf horder hstraddles
          have hgroups := Nat.mul_div_le (pre.length + 2 ^ bb.numDims - 1) (2 ^ bb.numDims)
          rw [Nat.mul_add] at hroom ⊢
          omega
      · rw [Nat.add_zero]
        omega

section Loops

variable {γ : Type} {emit : BBox → γ} {r : List γ} (hd : CubeDims k bb.numDims) (hbb : bb.Valid)
  (hdim : dimVirt.toNat = 2 ^ k)

include hd hbb hdim

/-- The loop of `bbox_to_intv` emits the sub-cubes in the box, when the queues can count. -/
theorem bboxToIntvLoop_iff :
    bboxToIntvLoop emit bb (intvFuel bb.numDims dimVirt) [bbVirt bb.numDims dimVirt] [] = some r ↔
      (innerCubes bb dimVirt).map emit = r ∧ QueueFits bb dimVirt := by
  rw [bboxToIntvLoop_eq_some emit _ (Nat.le_of_ble_eq_true rfl) (Nat.zero_le _),
    ← queueRuns_bbVirt hd hbb hdim, cutLoop_eq emit hd hbb hdim, Option.some.injEq]
  rfl

/-- The loop of `bbox_to_intv2` emits the same sub-cubes, when the tables have room. -/
theorem bboxToIntv2Loop_iff :
    bboxToIntv2Loop emit bb (2 ^ bb.numDims) (intvFuel bb.numDims dimVirt)
        (bbRingInit bb.numDims dimVirt, intvTabInit γ) = some r ↔
      (innerCubes bb dimVirt).map emit = r ∧ RingFits bb dimVirt := by
  have hrun : cutLoop emit bb (intvFuel bb.numDims dimVirt) [bbVirt bb.numDims dimVirt]
      (intvTabInit γ).iTab = some ((innerCubes bb dimVirt).map emit) := cutLoop_eq emit hd hbb hdim
  rw [bboxToIntv2Loop_eq_some hd.le _ (ringHolds_init dimVirt hd.le), hrun, Option.some.injEq,
    ringRuns_bbVirt hd hbb hdim]

end Loops

variable {hilbertC2i : HilbertC2i} {uninit : Intv} {tab : List Intv}

theorem bboxToIntv_iff (hbb : bb.Valid) (hd : CubeDims k bb.numDims) (hdim : dimVirt.toNat = 2 ^ k) :
    bboxToIntv hilbertC2i uninit bb dimVirt = some tab ↔
      cutIntv hilbertC2i uninit bb dimVirt = tab ∧ QueueFits bb dimVirt := by
  simp only [bboxToIntv, cutIntv, Option.map_eq_some_iff, bboxToIntvLoop_iff hd hbb hdim, and_assoc,
    exists_eq_left']
  exact and_comm

theorem bboxToIntv2_iff (hbb : bb.Valid) (hd : CubeDims k bb.numDims) (hdim : dimVirt.toNat = 2 ^ k) :
    bboxToIntv2 hilbertC2i uninit bb dimVirt = some tab ↔
      cutIntv hilbertC2i uninit bb dimVirt = tab ∧ RingFits bb dimVirt := by
  simp only [bboxToIntv2, cutIntv, Option.map_eq_some_iff, bboxToIntv2Loop_iff hd hbb hdim, and_assoc,
    exists_eq_left']
  exact and_comm

end Counters

/-! ## Boxes that meet the virtual cube -/

section Meets

variable {dimVirt : UInt64} {k : Nat} {bb : BBox}

/-- The side of a virtual cube is a word. -/
theorem exp_le_of_toNat {x : UInt64} {k : Nat} (h : x.toNat = 2 ^ k) : k ≤ 63 := by
  have hlt := x.toNat_lt
  rw [h] at hlt
  have := (Nat.pow_lt_pow_iff_right (by norm_num)).1 hlt
  omega

theorem CubeDims.of_valid (hbb : bb.Valid) (hdim : dimVirt.toNat = 2 ^ k) :
    CubeDims k bb.numDims where
  pos := hbb.dims.1
  le := hbb.dims.2
  bits := exp_le_of_toNat hdim

/-- A box that meets the virtual cube has some of its sub-cubes inside. -/
theorem innerCubes_ne_nil (hbb : bb.Valid) (hdim : dimVirt.toNat = 2 ^ k)
    (hmeet : (bb.cells ∩ (bbVirt bb.numDims dimVirt).cells).Nonempty) : innerCubes bb dimVirt ≠ [] := by
  obtain ⟨-, -, hcov⟩ := innerCubes_spec (CubeDims.of_valid hbb hdim) hbb hdim
  intro hnil
  rw [hnil] at hcov
  rw [← hcov] at hmeet
  exact Finset.not_nonempty_empty hmeet

/-- So nothing uninitialised is read. -/
theorem cutIntv_eq_of_meets (hilbertC2i : HilbertC2i) (hbb : bb.Valid) (hdim : dimVirt.toNat = 2 ^ k)
    (hmeet : (bb.cells ∩ (bbVirt bb.numDims dimVirt).cells).Nonempty) :
    ∃ tab, ∀ uninit, cutIntv hilbertC2i uninit bb dimVirt = tab := by
  obtain ⟨b, bs, hcons⟩ := List.exists_cons_of_ne_nil (innerCubes_ne_nil hbb hdim hmeet)
  -- the sorted table is not empty either, so `intv_compact` starts at one of its intervals
  have hlen : 0 < (((b :: bs).map (bboxFlat hilbertC2i (computeBits dimVirt))).mergeSort
      intvCompar).length := by
    rw [List.length_mergeSort]
    simp
  obtain ⟨t, ts, hsort⟩ := List.exists_cons_of_length_pos hlen
  refine ⟨intvCompactFrom t ts, fun uninit => ?_⟩
  rw [cutIntv, hcons, intvFinish, hsort]
  rfl

end Meets

end DataSpaces
