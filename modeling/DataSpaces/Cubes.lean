import Mathlib.Data.Nat.Bitwise
import Mathlib.Tactic.Ring
import Mathlib.Tactic.NormNum
import DataSpaces.Subdivision
import DataSpaces.Lib.Cover

/-!
# Cubes — aligned sub-cubes of the virtual cube

The boxes that `bbox_to_intv` handles are aligned cubes with a power of two as side.  `bbox_divide`
cuts such a cube into `2 ^ num_dims` cubes of half the side, so the pending cubes stay disjoint, keep
covering what has not been decided yet, and the levels bound the number of steps.
-/

namespace DataSpaces

/-- An aligned cube of side `2 ^ l` inside `[0, 2 ^ k - 1] ^ d`. -/
structure IsCube (k d l : Nat) (b : BBox) : Prop where
  dims : b.numDims = d
  aligned : ∀ j < d, 2 ^ l ∣ (b.lb.c j).toNat
  side : ∀ j < d, (b.ub.c j).toNat + 1 = (b.lb.c j).toNat + 2 ^ l
  bound : ∀ j < d, (b.ub.c j).toNat < 2 ^ k

/-- The dimensionalities and the exponents of the virtual side that occur. -/
structure CubeDims (k d : Nat) : Prop where
  pos : 1 ≤ d
  le : d ≤ BBOX_MAX_NDIM
  bits : k ≤ 63

namespace IsCube

variable {k d l : Nat} {b : BBox}

theorem valid (hd : CubeDims k d) (h : IsCube k d l b) : b.Valid where
  dims := by
    rw [BBox.DimsOk, h.dims]
    exact ⟨hd.pos, hd.le⟩
  le j hj := by
    have := h.side j (h.dims ▸ hj)
    have := Nat.two_pow_pos l
    exact UInt64.le_iff_toNat_le.2 (by omega)

/-- A cube of side one is a single cell. -/
theorem eq_of_mem_zero (h : IsCube k d 0 b) {x y : Cell} (hx : x ∈ b.cells) (hy : y ∈ b.cells) :
    x = y := by
  rcases BBox.mem_cells.1 hx with ⟨hxin, hxout⟩
  rcases BBox.mem_cells.1 hy with ⟨hyin, hyout⟩
  funext j
  by_cases hj : j.val < b.numDims
  · have := hxin j hj
    have := hyin j hj
    have := h.side j (h.dims ▸ hj)
    omega
  · rw [hxout j (by omega), hyout j (by omega)]

/-- So it does not straddle the boundary of a box. -/
theorem not_straddles (hd : CubeDims k d) (h : IsCube k d 0 b) {bb : BBox} (hbb : bb.Valid)
    (hbd : bb.numDims = d) : straddles bb b = false := by
  have hdim : bb.numDims = b.numDims := hbd.trans h.dims.symm
  rw [straddles, Bool.and_eq_false_iff, Bool.not_eq_false']
  by_cases hmeet : bboxDoesIntersect bb b = true
  · obtain ⟨x, hx⟩ := (bboxDoesIntersect_iff hbb (h.valid hd) hdim).1 hmeet
    rw [Finset.mem_inter] at hx
    refine Or.inl ((bboxInclude_iff (h.valid hd) hdim).2 fun y hy => ?_)
    rw [h.eq_of_mem_zero hy hx.2]
    exact hx.1
  · exact Or.inr (Bool.eq_false_iff.2 hmeet)

/-! ## Cutting a cube -/

section Divide

variable (hd : CubeDims k d) (h : IsCube k d (l + 1) b)

include hd h

theorem toNat_mid {j : Nat} (hj : j < d) :
    ((b.lb.c j + b.ub.c j) / 2).toNat = (b.lb.c j).toNat + 2 ^ l - 1 := by
  have hside := h.side j hj
  have hbound := h.bound j hj
  have hk : 2 ^ k ≤ 2 ^ 63 := Nat.pow_le_pow_right (by norm_num) hd.bits
  have hl := Nat.two_pow_pos l
  have hsum : (b.lb.c j + b.ub.c j).toNat = (b.lb.c j).toNat + (b.ub.c j).toNat := by
    rw [UInt64.toNat_add, Nat.mod_eq_of_lt (by omega)]
  have htwo : (2 : UInt64).toNat = 2 := rfl
  rw [pow_succ] at hside
  rw [UInt64.toNat_div, hsum, htwo]
  omega

theorem divideNth_bounds (i : Nat) {j : Nat} (hj : j < d) :
    ((bboxDivideNth b i).lb.c j).toNat =
        (b.lb.c j).toNat + (if i.testBit j then 2 ^ l else 0) ∧
      ((bboxDivideNth b i).ub.c j).toNat + 1 =
        (b.lb.c j).toNat + (if i.testBit j then 2 ^ l else 0) + 2 ^ l := by
  have hlt : j < BBOX_MAX_NDIM := lt_of_lt_of_le hj hd.le
  have hjb : j < b.numDims := h.dims ▸ hj
  have hmid := toNat_mid hd h hj
  have hside := h.side j hj
  have hbound := h.bound j hj
  have hk : 2 ^ k ≤ 2 ^ 63 := Nat.pow_le_pow_right (by norm_num) hd.bits
  have hl := Nat.two_pow_pos l
  rw [pow_succ] at hside
  simp only [bboxDivideNth, Coord.c_ofFn _ hlt, hjb, if_true]
  -- bit `j` of the number of the part says which half of side `j` it is
  cases hbit : i.testBit j with
  | true =>
      simp only [if_true]
      rw [UInt64.toNat_add, hmid, UInt64.toNat_one]
      omega
  | false =>
      simp only [Bool.false_eq_true, if_false]
      rw [hmid]
      omega

/-- The parts of a cube are cubes of half the side. -/
theorem divideNth (i : Nat) : IsCube k d l (bboxDivideNth b i) where
  dims := h.dims
  aligned j hj := by
    obtain ⟨hlb, -⟩ := divideNth_bounds hd h i hj
    have hdvd : 2 ^ l ∣ (b.lb.c j).toNat :=
      dvd_trans (pow_dvd_pow 2 (Nat.le_succ l)) (h.aligned j hj)
    rw [hlb]
    split
    · exact Nat.dvd_add hdvd (Nat.dvd_refl _)
    · exact hdvd
  side j hj := by
    obtain ⟨hlb, hub⟩ := divideNth_bounds hd h i hj
    omega
  bound j hj := by
    obtain ⟨hlb, hub⟩ := divideNth_bounds hd h i hj
    have hside := h.side j hj
    have hbound := h.bound j hj
    have hl := Nat.two_pow_pos l
    rw [pow_succ] at hside
    split at hub <;> omega

theorem sum_lt {j : Nat} (hj : j < b.numDims) : (b.lb.c j).toNat + (b.ub.c j).toNat < 2 ^ 64 := by
  have hjd : j < d := h.dims ▸ hj
  have hbound := h.bound j hjd
  have hle := UInt64.le_iff_toNat_le.1 ((h.valid hd).le j hj)
  have hk : 2 ^ k ≤ 2 ^ 63 := Nat.pow_le_pow_right (by norm_num) hd.bits
  omega

/-- The parts cover the cube. -/
theorem union_divide : Cover.union BBox.cells (bboxDivide b) = b.cells :=
  union_bboxDivide (h.valid hd) fun _ hj => h.sum_lt hd hj

/-- The parts of a cube do not overlap. -/
theorem apart_divide : Cover.Apart BBox.cells (bboxDivide b) :=
  apart_bboxDivide (h.valid hd) fun _ hj => h.sum_lt hd hj

end Divide

end IsCube

/-! ## The work loop -/

/-- Steps that a cube of level `l` can cause. -/
def cubeSteps (d : Nat) : Nat → Nat
  | 0 => 1
  | l + 1 => 1 + 2 ^ d * cubeSteps d l

theorem cubeSteps_pos (d l : Nat) : 1 ≤ cubeSteps d l := by
  cases l with
  | zero => exact le_rfl
  | succ l => exact Nat.le_add_right _ _

theorem cubeSteps_lt {d : Nat} (hd : 1 ≤ d) (l : Nat) : cubeSteps d l + 1 ≤ 2 ^ (d * (l + 1)) := by
  have h2 : 2 ^ 1 ≤ 2 ^ d := Nat.pow_le_pow_right (by norm_num) hd
  induction l with
  | zero => simpa [cubeSteps] using h2
  | succ l ih =>
      have hpow : 2 ^ (d * (l + 1 + 1)) = 2 ^ d * 2 ^ (d * (l + 1)) := by
        rw [← Nat.pow_add]
        congr 1
        ring
      have hmul := Nat.mul_le_mul_left (2 ^ d) ih
      rw [Nat.mul_add, Nat.mul_one] at hmul
      rw [hpow, cubeSteps]
      omega

section Loop

variable {γ : Type} {k d : Nat} (emit : BBox → γ) {bb : BBox}

/-- From disjoint pending cubes, and with a step for every cube that can still come up, the loop
emits disjoint cubes that cover exactly what the box has in common with the pending ones. -/
theorem cutLoop_spec (hd : CubeDims k d) (hbb : bb.Valid) (hbd : bb.numDims = d)
    (fuel : Nat) :
    ∀ (ls : List Nat) (qCan : List BBox) (qGood : List γ),
      List.Forall₂ (IsCube k d) ls qCan → (ls.map (cubeSteps d)).sum ≤ fuel →
      Cover.Apart BBox.cells qCan →
      ∃ good : List BBox,
        cutLoop emit bb fuel qCan qGood = some (qGood ++ good.map emit) ∧
        (∀ b ∈ good, ∃ l, IsCube k d l b) ∧ Cover.Apart BBox.cells good ∧
        Cover.union BBox.cells good = bb.cells ∩ Cover.union BBox.cells qCan := by
  induction fuel with
  | zero =>
      intro ls qCan qGood hcubes hfuel _
      cases hcubes with
      | nil => exact ⟨[], by simp [cutLoop], by simp, List.Pairwise.nil, by simp [Cover.union]⟩
      | @cons l b ls qCan hb hcubes =>
          have := cubeSteps_pos d l
          simp only [List.map_cons, List.sum_cons] at hfuel
          omega
  | succ fuel ih =>
      intro ls qCan qGood hcubes hfuel hap
      cases hcubes with
      | nil => exact ⟨[], by simp [cutLoop], by simp, List.Pairwise.nil, by simp [Cover.union]⟩
      | @cons l b ls qCan hb hcubes =>
          have hbv := hb.valid hd
          have hdim : bb.numDims = b.numDims := hbd.trans hb.dims.symm
          simp only [List.map_cons, List.sum_cons] at hfuel
          have hpos := cubeSteps_pos d l
          rw [cutLoop, emitted]
          by_cases hincl : bboxInclude bb b = true
          · -- the cube lies inside the box
            have hsub : b.cells ⊆ bb.cells := (bboxInclude_iff hbv hdim).1 hincl
            obtain ⟨good, hrun, hgood, hgap, hcov⟩ :=
              ih ls qCan (qGood ++ [emit b]) hcubes (by omega) hap.tail
            refine ⟨b :: good, ?_, ?_, ?_, ?_⟩
            · rw [if_pos hincl, cutParts_of_include hincl, List.append_nil, hrun]
              simp
            · intro b' hb'
              rcases List.mem_cons.1 hb' with rfl | hb'
              · exact ⟨l, hb⟩
              · exact hgood b' hb'
            · refine List.pairwise_cons.2 ⟨fun b' hb' => ?_, hgap⟩
              refine hap.disjoint_union.mono_right fun x hx => ?_
              have hxg : x ∈ Cover.union BBox.cells good := Cover.mem_union.2 ⟨b', hb', hx⟩
              rw [hcov] at hxg
              exact (Finset.mem_inter.1 hxg).2
            · simp only [Cover.union, hcov, Finset.inter_union_distrib_left]
              rw [Finset.inter_eq_right.2 hsub]
          · by_cases hmeet : bboxDoesIntersect bb b = true
            · -- the cube straddles the boundary, so it has more than one cell
              cases l with
              | zero =>
                  have hnot := hb.not_straddles hd hbb hbd
                  simp [straddles, hincl, hmeet] at hnot
              | succ l =>
                  have hcov' : Cover.union BBox.cells (qCan ++ bboxDivide b) =
                      Cover.union BBox.cells (b :: qCan) := by
                    rw [Cover.union_append, IsCube.union_divide hd hb, Finset.union_comm]
                    rfl
                  have hcubes' : List.Forall₂ (IsCube k d)
                      (ls ++ List.replicate (2 ^ d) l) (qCan ++ bboxDivide b) := by
                    refine List.rel_append hcubes ?_
                    rw [List.forall₂_iff_get]
                    refine ⟨by simp [bboxDivide, hb.dims], fun i hi hi' => ?_⟩
                    simp only [bboxDivide, List.get_eq_getElem, List.getElem_replicate,
                      List.getElem_map, List.getElem_range]
                    exact IsCube.divideNth hd hb i
                  obtain ⟨good, hrun, hgood, hgap, hcov⟩ :=
                    ih _ _ qGood hcubes' (by
                      simp only [List.map_append, List.sum_append, List.map_replicate,
                        List.sum_replicate, smul_eq_mul]
                      simp only [cubeSteps] at hfuel
                      omega)
                      (hap.replace (IsCube.apart_divide hd hb)
                        (IsCube.union_divide hd hb).subset)
                  refine ⟨good, ?_, hgood, hgap, ?_⟩
                  · rw [if_neg hincl, cutParts_of_meet hincl hmeet, List.append_nil, hrun]
                  · rw [hcov, hcov']
            · -- the cube misses the box
              have hdis : bb.cells ∩ b.cells = ∅ := by
                rw [← Finset.not_nonempty_iff_eq_empty]
                exact fun hne => hmeet ((bboxDoesIntersect_iff hbb hbv hdim).2 hne)
              obtain ⟨good, hrun, hgood, hgap, hcov⟩ :=
                ih ls qCan qGood hcubes (by omega) hap.tail
              refine ⟨good, ?_, hgood, hgap, ?_⟩
              · rw [if_neg hincl, cutParts_of_miss hmeet, List.append_nil, List.append_nil, hrun]
              · simp only [Cover.union, hcov, Finset.inter_union_distrib_left, hdis,
                  Finset.empty_union]

/-- No cube is left below the cells. -/
theorem layer_cutParts_eq_nil (hd : CubeDims k d) (hbb : bb.Valid) (hbd : bb.numDims = d) (l : Nat) :
    ∀ {bs : List BBox}, (∀ b ∈ bs, IsCube k d l b) → Layers.layer (cutParts bb) (l + 1) bs = [] := by
  induction l with
  | zero =>
      intro bs hbs
      refine List.flatMap_eq_nil_iff.2 fun b hb => ?_
      rw [cutParts, (hbs b hb).not_straddles hd hbb hbd, if_neg Bool.false_ne_true]
  | succ l ih =>
      intro bs hbs
      refine ih fun b' hb' => ?_
      obtain ⟨b, hb, hb'⟩ := List.mem_flatMap.1 hb'
      rw [cutParts] at hb'
      split at hb'
      · obtain ⟨i, -, rfl⟩ := List.mem_map.1 hb'
        exact IsCube.divideNth hd (hbs b hb) i
      · cases hb'

end Loop

end DataSpaces
