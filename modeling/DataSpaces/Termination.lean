import DataSpaces.Exactness

/-!
# Termination — the work loop of `bbox_to_intv2` on any box

Servers hash the boxes that clients send without looking at them.  A dimension with `lb > ub` includes
nothing, but `bbox_intersect_ondim` still reports that it meets an interval around its `lb`.  When the
lower corner of such a box lies in the virtual cube, one of the pending cubes always holds that corner:
it is never included, it is divided, and one of its parts holds the corner again, down to a single cell
and for ever after.
-/

namespace DataSpaces

/-- The loop of `bbox_to_intv2` comes to `bb_head == bb_tail`. -/
def Ends (hilbertC2i : HilbertC2i) (bb : BBox) (dimVirt : UInt64) : Prop :=
  ∃ i s, ringAfter (bboxFlat hilbertC2i (computeBits dimVirt)) bb dimVirt i = some s ∧ s.1.head = s.1.tail

/-! ## The loop ends when the queue is empty -/

section Turns

variable {γ : Type} {emit : BBox → γ} {bb : BBox} {dimVirt : UInt64}

/-- A later state is reached through the earlier ones. -/
theorem ringAfter_isSome_of_le {t u : ℕ} (hle : t ≤ u) (h : (ringAfter emit bb dimVirt u).isSome) :
    (ringAfter emit bb dimVirt t).isSome := by
  induction u, hle using Nat.le_induction with
  | base => exact h
  | succ u _ ih =>
      obtain ⟨s', hs'⟩ := Option.isSome_iff_exists.1 h
      obtain ⟨s, hs, -⟩ := Option.bind_eq_some_iff.1 hs'
      exact ih (by rw [hs]; rfl)

/-- The loop goes on from a state that the turns reach. -/
theorem isSome_bboxToIntv2Loop (t : ℕ) : ∀ {s : BBRing × IntvTab γ} {fuel : ℕ},
    ringAfter emit bb dimVirt t = some s → (bboxToIntv2Loop emit bb (2 ^ bb.numDims) fuel s).isSome →
      (bboxToIntv2Loop emit bb (2 ^ bb.numDims) (t + fuel)
        (bbRingInit bb.numDims dimVirt, intvTabInit γ)).isSome := by
  induction t with
  | zero =>
      intro s fuel hs hrun
      cases hs
      rwa [Nat.zero_add]
  | succ t ih =>
      intro s fuel hs hrun
      obtain ⟨s₀, hs₀, hturn⟩ := Option.bind_eq_some_iff.1 hs
      rw [Nat.add_assoc, Nat.add_comm 1]
      refine ih hs₀ ?_
      rw [bboxToIntv2Loop]
      by_cases hend : s₀.1.head = s₀.1.tail
      · rw [if_pos hend]
        rfl
      · rw [if_neg hend] at hturn ⊢
        rwa [hturn, Option.bind_some]

/-- And a loop that comes to its end has made turns. -/
theorem exists_ringAfter_of_loop (fuel : ℕ) : ∀ {t : ℕ} {s : BBRing × IntvTab γ},
    ringAfter emit bb dimVirt t = some s → (bboxToIntv2Loop emit bb (2 ^ bb.numDims) fuel s).isSome →
      ∃ i s', ringAfter emit bb dimVirt i = some s' ∧ s'.1.head = s'.1.tail := by
  induction fuel with
  | zero =>
      intro t s hs hrun
      by_cases hend : s.1.head = s.1.tail
      · exact ⟨t, s, hs, hend⟩
      · rw [bboxToIntv2Loop, if_neg hend] at hrun
        cases hrun
  | succ fuel ih =>
      intro t s hs hrun
      by_cases hend : s.1.head = s.1.tail
      · exact ⟨t, s, hs, hend⟩
      · rw [bboxToIntv2Loop, if_neg hend] at hrun
        obtain ⟨out, hout⟩ := Option.isSome_iff_exists.1 hrun
        obtain ⟨s', hturn, hloop⟩ := Option.bind_eq_some_iff.1 hout
        refine ih (t := t + 1) (s := s') ?_ (by rw [hloop]; rfl)
        rw [ringAfter, hs, Option.bind_some, if_neg hend, hturn]

end Turns

section Queue

variable {hilbertC2i : HilbertC2i} {bb : BBox} {dimVirt : UInt64}

/-- The loop ends iff its tables have room in all turns and the queue gets empty. -/
theorem ends_iff_queue (hdims : bb.numDims ≤ BBOX_MAX_NDIM) :
    Ends hilbertC2i bb dimVirt ↔ RingRuns bb [bbVirt bb.numDims dimVirt] [] ∧
      ∃ i, (queueTurn bb)^[i] [bbVirt bb.numDims dimVirt] = [] := by
  simp only [iterate_queueTurn _ _ []]
  constructor
  · rintro ⟨i, s, hs, hend⟩
    refine ⟨(ringAfter_isSome_iff (bboxFlat hilbertC2i (computeBits dimVirt)) hdims).1 fun t => ?_,
      i, ((RingHolds.of_ringAfter hdims i hs).head_eq_tail_iff).1 hend⟩
    -- before the end there is a next state, and at the end it is kept
    have hstays : ∀ t, ringAfter (bboxFlat hilbertC2i (computeBits dimVirt)) bb dimVirt (i + t) = some s := by
      intro t
      induction t with
      | zero => exact hs
      | succ t ih => rw [← Nat.add_assoc, ringAfter, ih, Option.bind_some, if_pos hend]
    exact ringAfter_isSome_of_le (Nat.le_add_left t i) (by rw [hstays t]; rfl)
  · rintro ⟨hruns, i, hempty⟩
    obtain ⟨s, hs⟩ := Option.isSome_iff_exists.1
      ((ringAfter_isSome_iff (bboxFlat hilbertC2i (computeBits dimVirt)) hdims).2 hruns i)
    exact ⟨i, s, hs, ((RingHolds.of_ringAfter hdims i hs).head_eq_tail_iff).2 hempty⟩

/-- The loop ends iff some number of steps is enough for it. -/
theorem ends_iff_loop :
    Ends hilbertC2i bb dimVirt ↔ ∃ fuel, (bboxToIntv2Loop (bboxFlat hilbertC2i (computeBits dimVirt)) bb
      (2 ^ bb.numDims) fuel (bbRingInit bb.numDims dimVirt, intvTabInit Intv)).isSome := by
  constructor
  · rintro ⟨i, s, hs, hend⟩
    refine ⟨i + 0, isSome_bboxToIntv2Loop i hs ?_⟩
    rw [bboxToIntv2Loop, if_pos hend]
    rfl
  · rintro ⟨fuel, hrun⟩
    obtain ⟨i, s, hs, hend⟩ := exists_ringAfter_of_loop fuel (t := 0) rfl hrun
    exact ⟨i, s, hs, hend⟩

/-- The queue of a box with `lb <= ub` everywhere gets empty. -/
theorem queue_empties {k : Nat} (hbb : bb.Valid) (hdim : dimVirt.toNat = 2 ^ k) :
    ∃ i, (queueTurn bb)^[i] [bbVirt bb.numDims dimVirt] = [] := by
  have hend := layer_bbVirt_eq_nil (CubeDims.of_valid hbb hdim) hbb hdim
  obtain ⟨queue, hturn, hhead, -⟩ := Layers.iterate_length hend (List.append_nil _).symm
  refine ⟨(Layers.order (cutParts bb) (k + 1) [bbVirt bb.numDims dimVirt]).length, ?_⟩
  rw [iterate_queueTurn _ _ [], hturn]
  exact List.head?_eq_none_iff.1 hhead

/-- So its loop ends if the tables have room. -/
theorem ends_iff_of_valid {k : Nat} (hbb : bb.Valid) (hdim : dimVirt.toNat = 2 ^ k) :
    Ends hilbertC2i bb dimVirt ↔ RingFits bb dimVirt := by
  rw [ends_iff_queue hbb.dims.2, ringRuns_bbVirt (CubeDims.of_valid hbb hdim) hbb hdim,
    and_iff_left (queue_empties hbb hdim)]

end Queue

/-! ## A cube that holds the lower corner -/

/-- The box has the cell at the lower corner of `bb`, and bounds whose sum fits a word. -/
structure HoldsCorner (bb b : BBox) : Prop where
  dims : b.numDims = bb.numDims
  below : ∀ j < bb.numDims, (b.lb.c j).toNat ≤ (bb.lb.c j).toNat
  above : ∀ j < bb.numDims, (bb.lb.c j).toNat ≤ (b.ub.c j).toNat
  small : ∀ j < bb.numDims, (b.ub.c j).toNat < 2 ^ 63

namespace HoldsCorner

variable {bb b : BBox} (h : HoldsCorner bb b)

include h

/-- The corner counts as an intersection, also in a dimension with `lb > ub`. -/
theorem doesIntersect : bboxDoesIntersect bb b = true :=
  bboxDoesIntersect_iff_ondim.2 fun j hj => bboxIntersectOndim_iff.2 (Or.inr ⟨h.below j hj, h.above j hj⟩)

/-- Nothing is included in a dimension with `lb > ub`. -/
theorem not_include {j : Nat} (hj : j < bb.numDims) (hinv : bb.ub.c j < bb.lb.c j) :
    ¬ bboxInclude bb b = true := by
  intro hincl
  have hall := bboxInclude_iff_ondim.1 hincl j hj
  have := UInt64.lt_iff_toNat_lt.1 hinv
  have := h.above j hj
  omega

theorem toNat_mid {j : Nat} (hj : j < bb.numDims) :
    ((b.lb.c j + b.ub.c j) / 2).toNat = ((b.lb.c j).toNat + (b.ub.c j).toNat) / 2 := by
  have hlb := h.below j hj
  have hub := h.above j hj
  have hsmall := h.small j hj
  have hsum : (b.lb.c j + b.ub.c j).toNat = (b.lb.c j).toNat + (b.ub.c j).toNat := by
    rw [UInt64.toNat_add, Nat.mod_eq_of_lt (by omega)]
  rw [UInt64.toNat_div, hsum]
  rfl

/-- One of the parts holds the corner. -/
theorem divide (hdims : bb.numDims ≤ BBOX_MAX_NDIM) : ∃ b' ∈ bboxDivide b, HoldsCorner bb b' := by
  -- the part is named by the halves in which the corner lies
  let bits : Fin bb.numDims → Bool := fun j =>
    decide (((b.lb.c j).toNat + (b.ub.c j).toNat) / 2 < (bb.lb.c j).toNat)
  refine ⟨bboxDivideNth b (Nat.ofBits bits), List.mem_map.2 ⟨_, ?_, rfl⟩, ?_⟩
  · rw [List.mem_range, h.dims]
    exact Nat.ofBits_lt_two_pow bits
  · have hbit : ∀ j (hj : j < bb.numDims), (Nat.ofBits bits).testBit j =
        decide (((b.lb.c j).toNat + (b.ub.c j).toNat) / 2 < (bb.lb.c j).toNat) :=
      fun j hj => Nat.testBit_ofBits_lt _ _ hj
    have hpart : ∀ j < bb.numDims,
        ((bboxDivideNth b (Nat.ofBits bits)).lb.c j).toNat ≤ (bb.lb.c j).toNat ∧
        (bb.lb.c j).toNat ≤ ((bboxDivideNth b (Nat.ofBits bits)).ub.c j).toNat ∧
        ((bboxDivideNth b (Nat.ofBits bits)).ub.c j).toNat < 2 ^ 63 := by
      intro j hj
      have hlt : j < BBOX_MAX_NDIM := lt_of_lt_of_le hj hdims
      have hjb : j < b.numDims := h.dims ▸ hj
      have hlb := h.below j hj
      have hub := h.above j hj
      have hsmall := h.small j hj
      have hmid := h.toNat_mid hj
      simp only [bboxDivideNth, Coord.c_ofFn _ hlt, hjb, if_true, hbit j hj]
      by_cases hup : ((b.lb.c j).toNat + (b.ub.c j).toNat) / 2 < (bb.lb.c j).toNat
      · simp only [hup, decide_true, if_true, UInt64.toNat_add, hmid, UInt64.toNat_one]
        omega
      · simp only [hup, decide_false, Bool.false_eq_true, if_false, hmid]
        omega
    exact ⟨h.dims, fun j hj => (hpart j hj).1, fun j hj => (hpart j hj).2.1, fun j hj => (hpart j hj).2.2⟩

end HoldsCorner

section Inverted

variable {hilbertC2i : HilbertC2i} {bb : BBox}

/-- A queue with such a box has one again after a turn. -/
theorem exists_holdsCorner_turn (hdims : bb.numDims ≤ BBOX_MAX_NDIM) {j : Nat} (hj : j < bb.numDims)
    (hinv : bb.ub.c j < bb.lb.c j) {q : List BBox} (h : ∃ b ∈ q, HoldsCorner bb b) :
    ∃ b ∈ queueTurn bb q, HoldsCorner bb b := by
  obtain ⟨b, hb, hcorner⟩ := h
  cases q with
  | nil => cases hb
  | cons pbb q =>
      rw [queueTurn]
      rcases List.mem_cons.1 hb with rfl | hb
      · -- the box is at the head: it is divided
        obtain ⟨b', hb', hcorner'⟩ := hcorner.divide hdims
        rw [if_neg (hcorner.not_include hj hinv), if_pos hcorner.doesIntersect]
        exact ⟨b', List.mem_append_right _ hb', hcorner'⟩
      · -- a box behind the head stays in every case
        refine ⟨b, ?_, hcorner⟩
        split
        · exact hb
        · split
          · exact List.mem_append_left _ hb
          · exact hb

/-- The virtual cube holds the lower corner if all its coordinates are below the side. -/
theorem holdsCorner_bbVirt {dimVirt : UInt64} {k : Nat} (hdims : bb.numDims ≤ BBOX_MAX_NDIM)
    (hdim : dimVirt.toNat = 2 ^ k) (hk : k ≤ 63) (hbelow : ∀ j < bb.numDims, bb.lb.c j < dimVirt) :
    HoldsCorner bb (bbVirt bb.numDims dimVirt) := by
  have hpow : 2 ^ k ≤ 2 ^ 63 := Nat.pow_le_pow_right (by norm_num) hk
  have hpos := Nat.two_pow_pos k
  have hub : ∀ j < bb.numDims, ((bbVirt bb.numDims dimVirt).ub.c j).toNat = 2 ^ k - 1 := fun j hj => by
    rw [bbVirt_ub_toNat hdims (by omega) hj, hdim]
  refine ⟨rfl, fun j hj => ?_, fun j hj => ?_, fun j hj => ?_⟩
  · rw [bbVirt_lb_c _ _ (lt_of_lt_of_le hj hdims)]
    exact Nat.zero_le _
  · have := UInt64.lt_iff_toNat_lt.1 (hbelow j hj)
    rw [hub j hj]
    omega
  · rw [hub j hj]
    omega

/-- An inverted box whose lower corner lies in the cube keeps the loop running. -/
theorem not_ends_of_inverted {dimVirt : UInt64} {k : Nat} (hdims : bb.numDims ≤ BBOX_MAX_NDIM)
    (hdim : dimVirt.toNat = 2 ^ k) (hk : k ≤ 63) (hbelow : ∀ j < bb.numDims, bb.lb.c j < dimVirt)
    {j : Nat} (hj : j < bb.numDims) (hinv : bb.ub.c j < bb.lb.c j) : ¬ Ends hilbertC2i bb dimVirt := by
  rw [ends_iff_queue hdims]
  rintro ⟨-, i, hi⟩
  have hall : ∀ i, ∃ b ∈ (queueTurn bb)^[i] [bbVirt bb.numDims dimVirt], HoldsCorner bb b := by
    intro i
    induction i with
    | zero => exact ⟨_, List.mem_singleton_self _, holdsCorner_bbVirt hdims hdim hk hbelow⟩
    | succ i ih =>
        rw [Function.iterate_succ_apply']
        exact exists_holdsCorner_turn hdims hj hinv ih
  obtain ⟨b, hb, -⟩ := hall i
  rw [hi] at hb
  cases hb

/-- A box that begins behind the cube in some dimension is dropped with the cube. -/
theorem ends_of_behind {dimVirt : UInt64} {k : Nat} (hdims : bb.numDims ≤ BBOX_MAX_NDIM)
    (hdim : dimVirt.toNat = 2 ^ k) {j : Nat} (hj : j < bb.numDims) (hbehind : dimVirt ≤ bb.lb.c j) :
    Ends hilbertC2i bb dimVirt := by
  have hpos := Nat.two_pow_pos k
  have hle := UInt64.le_iff_toNat_le.1 hbehind
  have hlb : ((bbVirt bb.numDims dimVirt).lb.c j).toNat = 0 := by
    rw [bbVirt_lb_c _ _ (lt_of_lt_of_le hj hdims), UInt64.toNat_zero]
  have hub : ((bbVirt bb.numDims dimVirt).ub.c j).toNat = dimVirt.toNat - 1 :=
    bbVirt_ub_toNat hdims (by omega) hj
  have hmiss : ¬ bboxDoesIntersect bb (bbVirt bb.numDims dimVirt) = true := by
    intro h
    have := bboxIntersectOndim_iff.1 (bboxDoesIntersect_iff_ondim.1 h j hj)
    omega
  have hnot : ¬ bboxInclude bb (bbVirt bb.numDims dimVirt) = true := by
    intro h
    have hall := bboxInclude_iff_ondim.1 h j hj
    omega
  refine (ends_iff_queue hdims).2 ⟨ringRuns_of_miss hnot hmiss, 1, ?_⟩
  rw [Function.iterate_one, queueTurn_cons, cutParts_of_miss hmiss]
  rfl

end Inverted

/-! ## Main results -/

/-- For every side `2 ^ k` and every box of up to ten dimensions, whatever its bounds are, the loop ends
iff `lb <= ub` in all dimensions and the tables have room, or `lb` is at or behind the side in some
dimension. -/
theorem ends_iff {hilbertC2i : HilbertC2i} {bb : BBox} {dimVirt : UInt64} {k : Nat} (hdims : bb.DimsOk)
    (hdim : dimVirt.toNat = 2 ^ k) :
    Ends hilbertC2i bb dimVirt ↔ ((∀ j < bb.numDims, bb.lb.c j ≤ bb.ub.c j) ∧ RingFits bb dimVirt) ∨
      ∃ j < bb.numDims, dimVirt ≤ bb.lb.c j := by
  have hk : k ≤ 63 := exp_le_of_toNat hdim
  constructor
  · intro hends
    by_cases hle : ∀ j < bb.numDims, bb.lb.c j ≤ bb.ub.c j
    · exact Or.inl ⟨hle, (ends_iff_of_valid ⟨hdims, hle⟩ hdim).1 hends⟩
    · refine Or.inr ?_
      push Not at hle
      obtain ⟨j, hj, hinv⟩ := hle
      by_contra hcon
      push Not at hcon
      exact not_ends_of_inverted hdims.2 hdim hk (fun j hj => UInt64.not_le.1 (hcon j hj)) hj
        (UInt64.not_le.1 hinv) hends
  · rintro (⟨hle, hfits⟩ | ⟨j, hj, hbehind⟩)
    · exact (ends_iff_of_valid ⟨hdims, hle⟩ hdim).2 hfits
    · exact ends_of_behind hdims.2 hdim hj hbehind

/-- The box `[6, 5]` is behind the cube `[0, 3]`. -/
theorem ends_behind_line : Ends lineC2i (BBox.line 6 5) 4 :=
  (@ends_iff lineC2i (BBox.line 6 5) 4 2 ⟨le_refl 1, show 1 ≤ BBOX_MAX_NDIM by decide⟩ rfl).2
    (Or.inr ⟨0, by decide, by decide⟩)

/-- The box `[1, 0]` in the cube `[0, 1]`: the loop divides the cell `1` for ever. -/
theorem not_ends_line : ¬ Ends lineC2i (BBox.line 1 0) 2 :=
  not_ends_of_inverted (show 1 ≤ BBOX_MAX_NDIM by decide) (show (2 : UInt64).toNat = 2 ^ 1 from rfl)
    (by norm_num) (fun j hj => by obtain rfl : j = 0 := Nat.lt_one_iff.1 hj; decide)
    (show 0 < 1 by norm_num) (by decide)

end DataSpaces
