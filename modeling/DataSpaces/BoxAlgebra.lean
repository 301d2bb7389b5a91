import DataSpaces.BBox

/-!
# BoxAlgebra — boxes as sets of cells

`bbox_intersect` writes its result while it reads its arguments, and `get_query_odscs` has it overwrite one
of them, so here it works on a memory of boxes.  A turn of its loop only reads coordinates that no turn
before it has written; so the result is the one that is computed from the boxes as they were.
-/

namespace DataSpaces

/-! ## `bbox_intersect` in memory -/

/-- A turn of the loop of `bbox_intersect`. -/
def intersectTurn (b0 b1 b2 : Nat) (mem : Nat → BBox) (i : Nat) : Nat → BBox :=
  let lo := if (mem b0).lb.c i > (mem b1).lb.c i then (mem b0).lb.c i else (mem b1).lb.c i
  let mem := Function.update mem b2 { mem b2 with lb := (mem b2).lb.set i lo }
  let hi := if (mem b0).ub.c i < (mem b1).ub.c i then (mem b0).ub.c i else (mem b1).ub.c i
  Function.update mem b2 { mem b2 with ub := (mem b2).ub.set i hi }

/-- `bbox_intersect` on the boxes at three addresses. -/
def bboxIntersectAt (b0 b1 b2 : Nat) (mem : Nat → BBox) : Nat → BBox :=
  let mem := Function.update mem b2 { mem b2 with numDims := (mem b0).numDims }
  (List.range (mem b0).numDims).foldl (intersectTurn b0 b1 b2) mem

section InMemory

variable {b0 b1 b2 : Nat} {mem : Nat → BBox}

/-- The upper corners are read before the turn writes one. -/
theorem intersectTurn_eq (i : Nat) :
    intersectTurn b0 b1 b2 mem i =
      Function.update mem b2 { mem b2 with
        lb := (mem b2).lb.set i
          (if (mem b0).lb.c i > (mem b1).lb.c i then (mem b0).lb.c i else (mem b1).lb.c i)
        ub := (mem b2).ub.set i
          (if (mem b0).ub.c i < (mem b1).ub.c i then (mem b0).ub.c i else (mem b1).ub.c i) } := by
  have hub : ∀ (lb : Coord) (q : Nat),
      (Function.update mem b2 { mem b2 with lb := lb } q).ub = (mem q).ub := by
    intro lb q
    by_cases hq : q = b2
    · rw [hq, Function.update_self]
    · rw [Function.update_of_ne hq]
  simp only [intersectTurn, hub, Function.update_idem, Function.update_self]

/-- The memory after the turns below `k`. -/
structure IntersectedBelow (b0 b1 b2 : Nat) (mem : Nat → BBox) (k : Nat) (mem' : Nat → BBox) : Prop where
  others : ∀ q, q ≠ b2 → mem' q = mem q
  dims : (mem' b2).numDims = (mem b0).numDims
  lb : ∀ j < BBOX_MAX_NDIM, (mem' b2).lb.c j =
    if j < k then (bboxIntersect (mem b0) (mem b1)).lb.c j else (mem b2).lb.c j
  ub : ∀ j < BBOX_MAX_NDIM, (mem' b2).ub.c j =
    if j < k then (bboxIntersect (mem b0) (mem b1)).ub.c j else (mem b2).ub.c j

namespace IntersectedBelow

/-- Before the loop. -/
theorem start (b0 b1 b2 : Nat) (mem : Nat → BBox) :
    IntersectedBelow b0 b1 b2 mem 0
      (Function.update mem b2 { mem b2 with numDims := (mem b0).numDims }) where
  others q hq := Function.update_of_ne hq _ _
  dims := by rw [Function.update_self]
  lb j _ := by
    rw [Function.update_self, if_neg (Nat.not_lt_zero j)]
  ub j _ := by
    rw [Function.update_self, if_neg (Nat.not_lt_zero j)]

variable {k : Nat} {mem' : Nat → BBox} (h : IntersectedBelow b0 b1 b2 mem k mem')

include h

/-- What a turn reads is what was there at first, also where the result is written. -/
theorem read (hmax : k < BBOX_MAX_NDIM) (q : Nat) :
    (mem' q).lb.c k = (mem q).lb.c k ∧ (mem' q).ub.c k = (mem q).ub.c k := by
  by_cases hq : q = b2
  · rw [hq, h.lb k hmax, h.ub k hmax, if_neg (Nat.lt_irrefl k), if_neg (Nat.lt_irrefl k)]
    exact ⟨rfl, rfl⟩
  · rw [h.others q hq]
    exact ⟨rfl, rfl⟩

theorem turn (hk : k < (mem b0).numDims) (hmax : k < BBOX_MAX_NDIM) :
    IntersectedBelow b0 b1 b2 mem (k + 1) (intersectTurn b0 b1 b2 mem' k) := by
  obtain ⟨hlb0, hub0⟩ := h.read hmax b0
  obtain ⟨hlb1, hub1⟩ := h.read hmax b1
  rw [intersectTurn_eq, hlb0, hub0, hlb1, hub1]
  refine ⟨fun q hq => ?_, ?_, fun j hj => ?_, fun j hj => ?_⟩
  · rw [Function.update_of_ne hq, h.others q hq]
  · rw [Function.update_self]
    exact h.dims
  · rw [Function.update_self, Coord.c_set _ _ _ hj, h.lb j hj]
    rcases eq_or_ne j k with rfl | hjk
    · rw [if_pos rfl, if_pos (Nat.lt_succ_self j)]
      simp only [bboxIntersect, Coord.c_ofFn _ hmax, hk, if_true]
    · rw [if_neg hjk]
      exact if_congr (by omega) rfl rfl
  · rw [Function.update_self, Coord.c_set _ _ _ hj, h.ub j hj]
    rcases eq_or_ne j k with rfl | hjk
    · rw [if_pos rfl, if_pos (Nat.lt_succ_self j)]
      simp only [bboxIntersect, Coord.c_ofFn _ hmax, hk, if_true]
    · rw [if_neg hjk]
      exact if_congr (by omega) rfl rfl

end IntersectedBelow

/-- The turns below `k`, one after the other. -/
theorem intersectedBelow_foldl {mem' : Nat → BBox} (h : IntersectedBelow b0 b1 b2 mem 0 mem')
    (hdims : (mem b0).numDims ≤ BBOX_MAX_NDIM) (k : Nat) (hk : k ≤ (mem b0).numDims) :
    IntersectedBelow b0 b1 b2 mem k ((List.range k).foldl (intersectTurn b0 b1 b2) mem') := by
  induction k with
  | zero => exact h
  | succ k ih =>
      rw [List.range_succ, List.foldl_append]
      exact (ih (Nat.le_of_succ_le hk)).turn hk (lt_of_lt_of_le hk hdims)

/-- The box that is written is the intersection of the boxes that were there; nothing else changes. -/
theorem bboxIntersectAt_spec (b1 b2 : Nat) (hdims : (mem b0).numDims ≤ BBOX_MAX_NDIM) :
    (∀ q, q ≠ b2 → bboxIntersectAt b0 b1 b2 mem q = mem q) ∧
      bboxEquals (bboxIntersectAt b0 b1 b2 mem b2) (bboxIntersect (mem b0) (mem b1)) = true := by
  have hcount : (Function.update mem b2 { mem b2 with numDims := (mem b0).numDims } b0).numDims =
      (mem b0).numDims := by
    by_cases hb : b0 = b2
    · rw [hb, Function.update_self]
    · rw [Function.update_of_ne hb]
  have hloop : IntersectedBelow b0 b1 b2 mem (mem b0).numDims (bboxIntersectAt b0 b1 b2 mem) := by
    simp only [bboxIntersectAt, hcount]
    exact intersectedBelow_foldl (IntersectedBelow.start b0 b1 b2 mem) hdims _ (le_refl _)
  refine ⟨hloop.others, bboxEquals_iff.2 ⟨hloop.dims, fun i hi => ?_⟩⟩
  rw [hloop.dims] at hi
  have hmax : i < BBOX_MAX_NDIM := lt_of_lt_of_le hi hdims
  exact ⟨(hloop.lb i hmax).trans (if_pos hi), (hloop.ub i hmax).trans (if_pos hi)⟩

end InMemory

theorem BBox.Valid.of_bboxEquals {b b' : BBox} (h : b.Valid) (heq : bboxEquals b' b = true) : b'.Valid := by
  obtain ⟨hd, hc⟩ := bboxEquals_iff.1 heq
  refine ⟨⟨hd ▸ h.dims.1, hd ▸ h.dims.2⟩, fun i hi => ?_⟩
  rw [(hc i hi).1, (hc i hi).2]
  exact h.le i (hd ▸ hi)

/-! ## The property -/

/-- The listed boxes are valid, do not overlap, and have the cells of the box together. -/
structure Splits (b : BBox) (parts : List BBox) : Prop where
  valid : ∀ b' ∈ parts, b'.Valid ∧ b'.numDims = b.numDims
  apart : Cover.Apart BBox.cells parts
  union : Cover.union BBox.cells parts = b.cells

/-- The operations on two boxes are the ones on their sets of cells. -/
structure SetAlgebra (b0 b1 : BBox) : Prop where
  meets : bboxDoesIntersect b0 b1 = true ↔ (b0.cells ∩ b1.cells).Nonempty
  /-- `p2` may be `p0` or `p1` -/
  intersect : (b0.cells ∩ b1.cells).Nonempty → ∀ (mem : Nat → BBox) (p0 p1 p2 : Nat),
    mem p0 = b0 → mem p1 = b1 →
      (bboxIntersectAt p0 p1 p2 mem p2).Valid ∧
        (bboxIntersectAt p0 p1 p2 mem p2).cells = b0.cells ∩ b1.cells ∧
          ∀ q, q ≠ p2 → bboxIntersectAt p0 p1 p2 mem q = mem q
  includes : bboxInclude b0 b1 = true ↔ b1.cells ⊆ b0.cells
  divideIn2 : ∀ dim < b0.numDims, 2 ≤ b0.side dim → (b0.ub.c dim).toNat < 2 ^ 62 →
    Splits b0 [(bboxDivideIn2Ondim b0 dim).1, (bboxDivideIn2Ondim b0 dim).2]
  divide : (∀ j < b0.numDims, 2 ≤ b0.side j ∧ (b0.ub.c j).toNat < 2 ^ 62) → Splits b0 (bboxDivide b0)
  volume : b0.cells.card < 2 ^ 64 → (bboxVolume b0).toNat = b0.cells.card

/-! ## Splitting -/

section Split

variable {b : BBox} (hb : b.Valid)

include hb

theorem splits_bboxDivideIn2Ondim {dim : Nat} (hdim : dim < b.numDims) (hside : 2 ≤ b.side dim)
    (hub : (b.ub.c dim).toNat < 2 ^ 62) :
    Splits b [(bboxDivideIn2Ondim b dim).1, (bboxDivideIn2Ondim b dim).2] := by
  have hlt : (b.lb.c dim).toNat < (b.ub.c dim).toNat := by
    rw [BBox.side] at hside
    omega
  have hsum : (b.lb.c dim).toNat + (b.ub.c dim).toNat < 2 ^ 64 := by
    omega
  -- below `2 ^ 62` the sum of the corners does not wrap around
  have hmid := toNat_middle hsum
  have hmid1 : (((b.lb.c dim + b.ub.c dim) >>> 1) + 1).toNat =
      ((b.lb.c dim).toNat + (b.ub.c dim).toNat) / 2 + 1 := by
    rw [UInt64.toNat_add, hmid, UInt64.toNat_one, Nat.mod_eq_of_lt (by omega)]
  have hlower : (bboxDivideIn2Ondim b dim).1.Valid := by
    refine ⟨hb.dims, fun i hi => ?_⟩
    simp only [bboxDivideIn2Ondim, Coord.c_set _ _ _ (lt_of_lt_of_le hi hb.dims.2)]
    split
    case isTrue hdim =>
      rw [hdim, UInt64.le_iff_toNat_le, hmid]
      omega
    case isFalse => exact hb.le i hi
  have hupper : (bboxDivideIn2Ondim b dim).2.Valid := by
    refine ⟨hb.dims, fun i hi => ?_⟩
    simp only [bboxDivideIn2Ondim, Coord.c_set _ _ _ (lt_of_lt_of_le hi hb.dims.2)]
    split
    case isTrue hdim =>
      rw [hdim, UInt64.le_iff_toNat_le, hmid1]
      omega
    case isFalse => exact hb.le i hi
  refine ⟨?_, ?_, ?_⟩
  · intro b' hb'
    rcases List.mem_pair.1 hb' with rfl | rfl
    · exact ⟨hlower, rfl⟩
    · exact ⟨hupper, rfl⟩
  · exact List.pairwise_pair.2 (bboxDivideIn2Ondim_disjoint hb.nearValid hdim hsum)
  · rw [Cover.union, Cover.union, Cover.union, Finset.union_empty]
    exact bboxDivideIn2Ondim_cells_union hb.nearValid hdim hsum

theorem splits_bboxDivide (h : ∀ j < b.numDims, 2 ≤ b.side j ∧ (b.ub.c j).toNat < 2 ^ 62) :
    Splits b (bboxDivide b) := by
  have hsum : ∀ j < b.numDims, (b.lb.c j).toNat + (b.ub.c j).toNat < 2 ^ 64 := by
    intro j hj
    have hle := UInt64.le_iff_toNat_le.1 (hb.le j hj)
    have hub := (h j hj).2
    omega
  have hlt : ∀ j < b.numDims, (b.lb.c j).toNat < (b.ub.c j).toNat := by
    intro j hj
    have hside := (h j hj).1
    rw [BBox.side] at hside
    omega
  refine ⟨fun b' hb' => ?_, apart_bboxDivide hb hsum, union_bboxDivide hb hsum⟩
  obtain ⟨i, -, rfl⟩ := List.mem_map.1 hb'
  exact ⟨divideNth_valid hb hsum hlt i, rfl⟩

end Split

/-- On valid boxes the operations of `bbox.c` are operations on sets of cells. -/
theorem setAlgebra {b0 b1 : BBox} (h0 : b0.Valid) (h1 : b1.Valid) (hd : b0.numDims = b1.numDims) :
    SetAlgebra b0 b1 where
  meets := bboxDoesIntersect_iff h0 h1 hd
  intersect hcommon mem p0 p1 p2 hp0 hp1 := by
    have hdims : (mem p0).numDims ≤ BBOX_MAX_NDIM := hp0 ▸ h0.dims.2
    obtain ⟨hothers, heq⟩ := bboxIntersectAt_spec p1 p2 hdims
    rw [hp0, hp1] at heq
    have hvalid := bboxIntersect_valid h0 h1 hd ((bboxDoesIntersect_iff h0 h1 hd).2 hcommon)
    refine ⟨hvalid.of_bboxEquals heq, ?_, hothers⟩
    rw [cells_eq_of_bboxEquals heq, bboxIntersect_cells hd]
  includes := bboxInclude_iff h1 hd
  divideIn2 dim hdim hside hub := splits_bboxDivideIn2Ondim h0 hdim hside hub
  divide h := splits_bboxDivide h0 h
  volume hcard := by
    rw [bboxVolume_eq h0.nearValid, UInt64.toNat_ofNat', Nat.mod_eq_of_lt hcard]

/-- The lines `[0, 3]` and `[2, 5]`. -/
theorem setAlgebra_line : SetAlgebra (BBox.line 0 3) (BBox.line 2 5) :=
  setAlgebra (BBox.line_valid (by decide)) (BBox.line_valid (by decide)) rfl

end DataSpaces
