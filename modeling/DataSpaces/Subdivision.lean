import DataSpaces.Lib.Layers
import DataSpaces.Linearize

/-!
# Subdivision — the sub-cubes of a virtual cube that a box needs

What `bbox_to_intv` and `bbox_to_intv2` do, without queues and tables: the virtual cube is halved in every
dimension, and again those of its parts that straddle the boundary of the box, the larger ones first.
`subCubes` lists all sub-cubes that are looked at.  `cutLoop` looks at them with a queue that never
overflows, and the loops of the source do the same as long as their `int`s suffice, which is said of the list
alone: `QueueFits` for the linked queue, `RingFits` for the circular table.
-/

namespace DataSpaces

/-- A sub-cube that lies partly in the box. -/
def straddles (bb b : BBox) : Bool :=
  !bboxInclude bb b && bboxDoesIntersect bb b

/-- The parts that are looked at. -/
def cutParts (bb b : BBox) : List BBox :=
  if straddles bb b then bboxDivide b else []

/-- The sub-cubes of the virtual cube that are looked at: the cube itself and the parts of those that straddle
the boundary, the largest first. -/
def subCubes (bb : BBox) (dimVirt : UInt64) : List BBox :=
  Layers.order (cutParts bb) (computeBits dimVirt) [bbVirt bb.numDims dimVirt]

/-- Those that lie in the box: they are handed to `bbox_flat`. -/
def innerCubes (bb : BBox) (dimVirt : UInt64) : List BBox :=
  (subCubes bb dimVirt).filter (bboxInclude bb)

/-- The linked queues have room: before any of the sub-cubes is looked at, those that came in (the cube and
`2 ^ num_dims` for each that straddles) less those that went out are an `int`; so are those in the box. -/
structure QueueFits (bb : BBox) (dimVirt : UInt64) : Prop where
  pending : ∀ pre suf, subCubes bb dimVirt = pre ++ suf →
    1 + 2 ^ bb.numDims * pre.countP (straddles bb) ≤ INT_MAX + pre.length
  inside : (subCubes bb dimVirt).countP (bboxInclude bb) ≤ INT_MAX

/-- The size of a table that grows by one half, in whole groups of `n`, as long as it is an `int`. -/
def nextSize (n size : Nat) : Nat :=
  let tmpSize := size + size / 2
  if tmpSize ≤ INT_MAX then tmpSize - tmpSize % n else size

/-- The largest size of a table that starts with 4096 slots. -/
def tabLimit (n : Nat) : Nat :=
  (nextSize n)^[40] 4096

/-- The tables have room: whenever a sub-cube straddles, the groups of `2 ^ num_dims` that are in use, the one
that is kept free and the new one fit into the largest table; so do the sub-cubes in the box. -/
structure RingFits (bb : BBox) (dimVirt : UInt64) : Prop where
  pending : ∀ pre b suf, subCubes bb dimVirt = pre ++ b :: suf → straddles bb b = true →
    2 ^ bb.numDims * (pre.countP (straddles bb) + 3) ≤
      tabLimit (2 ^ bb.numDims) + 2 ^ bb.numDims * ((pre.length + 2 ^ bb.numDims - 1) / 2 ^ bb.numDims)
  inside : (subCubes bb dimVirt).countP (bboxInclude bb) ≤ tabLimit 1

/-- The tables have room when few sub-cubes straddle. -/
theorem RingFits.of_countP {bb : BBox} {dimVirt : UInt64}
    (hpending : 2 ^ bb.numDims * ((subCubes bb dimVirt).countP (straddles bb) + 3) ≤ tabLimit (2 ^ bb.numDims))
    (hinside : (subCubes bb dimVirt).countP (bboxInclude bb) ≤ tabLimit 1) : RingFits bb dimVirt := by
  refine ⟨fun pre b suf horder _ => ?_, hinside⟩
  have hcount : pre.countP (straddles bb) ≤ (subCubes bb dimVirt).countP (straddles bb) := by
    rw [horder, List.countP_append]
    exact Nat.le_add_right _ _
  have hmul := Nat.mul_le_mul_left (2 ^ bb.numDims) (Nat.add_le_add_right hcount 3)
  omega

section Cut

variable {γ : Type} (emit : BBox → γ) (bb : BBox)

/-- What is emitted for a sub-cube. -/
def emitted (b : BBox) : List γ :=
  if bboxInclude bb b then [emit b] else []

/-- The subdivision with a queue that never overflows. -/
def cutLoop : Nat → List BBox → List γ → Option (List γ)
  | _, [], out => some out
  | 0, _ :: _, _ => none
  | fuel + 1, b :: queue, out => cutLoop fuel (queue ++ cutParts bb b) (out ++ emitted emit bb b)

/-- The sub-cubes of a run that comes to its end. -/
theorem cutLoop_turns (fuel : ℕ) : ∀ {queue : List BBox} {out r : List γ},
    cutLoop emit bb fuel queue out = some r →
      ∃ t done, (Layers.turn (cutParts bb))^[t] (queue, []) = ([], done) ∧
        r = out ++ (done.filter (bboxInclude bb)).map emit := by
  induction fuel with
  | zero =>
      intro queue out r h
      cases queue with
      | nil =>
          cases h
          exact ⟨0, [], rfl, (List.append_nil _).symm⟩
      | cons b queue => cases h
  | succ fuel ih =>
      intro queue out r h
      cases queue with
      | nil =>
          cases h
          exact ⟨0, [], rfl, (List.append_nil _).symm⟩
      | cons b queue =>
          obtain ⟨t, done, hturn, rfl⟩ := ih h
          refine ⟨t + 1, b :: done, ?_, ?_⟩
          · rw [Function.iterate_succ_apply, Layers.turn_cons, Layers.iterate_turn_append, hturn]
            rfl
          · rw [List.append_assoc, List.filter_cons, emitted]
            split
            · rfl
            · rfl

end Cut

section Parts

variable {bb b : BBox}

theorem cutParts_of_include (h : bboxInclude bb b = true) : cutParts bb b = [] := by
  simp [cutParts, straddles, h]

theorem cutParts_of_meet (h : ¬ bboxInclude bb b = true) (hmeet : bboxDoesIntersect bb b = true) :
    cutParts bb b = bboxDivide b := by
  simp [cutParts, straddles, h, hmeet]

theorem cutParts_of_miss (hmiss : ¬ bboxDoesIntersect bb b = true) : cutParts bb b = [] := by
  simp [cutParts, straddles, hmiss]

theorem numDims_of_mem_bboxDivide {b' : BBox} (h : b' ∈ bboxDivide b) : b'.numDims = b.numDims := by
  obtain ⟨i, -, rfl⟩ := List.mem_map.1 h
  rfl

theorem length_bboxDivide (b : BBox) : (bboxDivide b).length = 2 ^ b.numDims := by
  rw [bboxDivide, List.length_map, List.length_range]

/-- All sub-cubes have the dimensions of the box. -/
theorem numDims_of_mem_order {d : ℕ} (m : ℕ) : ∀ {bs : List BBox}, (∀ b ∈ bs, b.numDims = d) →
    ∀ b ∈ Layers.order (cutParts bb) m bs, b.numDims = d := by
  induction m with
  | zero =>
      intro bs _ b hb
      cases hb
  | succ m ih =>
      intro bs hbs b hb
      rcases List.mem_append.1 hb with hb | hb
      · exact hbs b hb
      · refine ih (fun b' hb' => ?_) b hb
        obtain ⟨b₀, hb₀, hb'⟩ := List.mem_flatMap.1 hb'
        rw [cutParts] at hb'
        split at hb'
        · exact (numDims_of_mem_bboxDivide hb').trans (hbs b₀ hb₀)
        · cases hb'

theorem length_flatMap_cutParts {d : ℕ} {bs : List BBox} (hbs : ∀ b ∈ bs, b.numDims = d) :
    (bs.flatMap (cutParts bb)).length = 2 ^ d * bs.countP (straddles bb) := by
  induction bs with
  | nil => rfl
  | cons b bs ih =>
      rw [List.flatMap_cons, List.length_append, ih fun b' hb' => hbs b' (List.mem_cons_of_mem _ hb'),
        List.countP_cons, cutParts]
      split
      · rw [length_bboxDivide, hbs b List.mem_cons_self, Nat.mul_succ, Nat.add_comm]
      · rw [List.length_nil, Nat.zero_add, Nat.add_zero]

end Parts

/-! ## The linked queue -/

section Queue

variable {bb : BBox}

/-- The queues of a run count with `int`s; `m` sub-cubes were emitted before. -/
def QueueRuns (bb : BBox) (queue : List BBox) (m : ℕ) : Prop :=
  ∀ t, ((Layers.turn (cutParts bb))^[t] (queue, [])).1.length ≤ INT_MAX ∧
    m + ((Layers.turn (cutParts bb))^[t] (queue, [])).2.countP (bboxInclude bb) ≤ INT_MAX

theorem queueRuns_nil {m : ℕ} : QueueRuns bb [] m ↔ m ≤ INT_MAX := by
  simp [QueueRuns, Layers.iterate_turn_nil]

theorem queueRuns_cons {b : BBox} {queue : List BBox} {m : ℕ} :
    QueueRuns bb (b :: queue) m ↔ (queue.length + 1 ≤ INT_MAX ∧ m ≤ INT_MAX) ∧
      QueueRuns bb (queue ++ cutParts bb b) (m + if bboxInclude bb b then 1 else 0) := by
  have hturn : ∀ t, (Layers.turn (cutParts bb))^[t + 1] (b :: queue, []) =
      (((Layers.turn (cutParts bb))^[t] (queue ++ cutParts bb b, [])).1,
        b :: ((Layers.turn (cutParts bb))^[t] (queue ++ cutParts bb b, [])).2) := by
    intro t
    rw [Function.iterate_succ_apply, Layers.turn_cons, Layers.iterate_turn_append]
    rfl
  constructor
  · intro h
    refine ⟨by simpa using h 0, fun t => ?_⟩
    have ht := h (t + 1)
    rw [hturn, List.countP_cons] at ht
    exact ⟨ht.1, by omega⟩
  · rintro ⟨h0, h⟩ t
    cases t with
    | zero => simpa using h0
    | succ t =>
        have ht := h t
        rw [hturn, List.countP_cons]
        exact ⟨ht.1, by omega⟩

/-- The parts of a sub-cube are put into the queue as long as they can be counted. -/
theorem foldlM_queueEnqueue {α : Type} (objs : List α) : ∀ {q : List α}, q.length ≤ INT_MAX →
    objs.foldlM queueEnqueue q = if (q ++ objs).length ≤ INT_MAX then some (q ++ objs) else none := by
  induction objs with
  | nil =>
      intro q hq
      rw [List.append_nil, if_pos hq]
      rfl
  | cons obj objs ih =>
      intro q hq
      rw [List.foldlM_cons, queueEnqueue]
      split
      · next hlt =>
          rw [Option.bind_eq_bind, Option.bind_some, ih (by rw [List.length_append]; exact hlt),
            List.append_assoc]
          rfl
      · next hge =>
          rw [if_neg]
          · rfl
          · rw [List.length_append, List.length_cons]
            omega

/-- The loop of `bbox_to_intv` does what the subdivision does, as long as the queues can count. -/
theorem bboxToIntvLoop_eq_some {γ : Type} (emit : BBox → γ) (fuel : ℕ) :
    ∀ {q : List BBox} {out r : List γ}, q.length ≤ INT_MAX → out.length ≤ INT_MAX →
      (bboxToIntvLoop emit bb fuel q out = some r ↔
        cutLoop emit bb fuel q out = some r ∧ QueueRuns bb q out.length) := by
  induction fuel with
  | zero =>
      intro q out r hq hout
      cases q with
      | nil => simp [bboxToIntvLoop, cutLoop, queueRuns_nil, hout]
      | cons b q => simp [bboxToIntvLoop, cutLoop]
  | succ fuel ih =>
      intro q out r hq hout
      cases q with
      | nil => simp [bboxToIntvLoop, cutLoop, queueRuns_nil, hout]
      | cons b q =>
          have hq' : q.length ≤ INT_MAX := by
            rw [List.length_cons] at hq
            omega
          rw [List.length_cons] at hq
          rw [bboxToIntvLoop, cutLoop, queueRuns_cons,
            and_iff_right (⟨hq, hout⟩ : q.length + 1 ≤ INT_MAX ∧ out.length ≤ INT_MAX), emitted]
          by_cases hincl : bboxInclude bb b = true
          · rw [if_pos hincl, if_pos hincl, if_pos hincl, cutParts_of_include hincl, List.append_nil,
              queueEnqueue]
            have hlen : (out ++ [emit b]).length = out.length + 1 := by simp
            by_cases hroom : out.length < INT_MAX
            · rw [if_pos hroom, Option.bind_some, ih hq' (by omega), hlen]
            · -- one interval too many
              rw [if_neg hroom, Option.bind_none]
              refine iff_of_false (by simp) fun h => ?_
              have hzero := (h.2 0).2
              simp only [Function.iterate_zero, id_eq, List.countP_nil] at hzero
              omega
          · rw [if_neg hincl, if_neg hincl, if_neg hincl, List.append_nil, Nat.add_zero]
            by_cases hmeet : bboxDoesIntersect bb b = true
            · rw [if_pos hmeet, cutParts_of_meet hincl hmeet, foldlM_queueEnqueue _ hq']
              by_cases hroom : (q ++ bboxDivide b).length ≤ INT_MAX
              · rw [if_pos hroom, Option.bind_some, ih hroom hout]
              · -- one box too many
                rw [if_neg hroom, Option.bind_none]
                exact iff_of_false (by simp) fun h => hroom (h.2 0).1
            · rw [if_neg hmeet, cutParts_of_miss hmeet, List.append_nil, ih hq' hout]

/-- Whether the queues can count is seen from the sub-cubes. -/
theorem queueRuns_iff {m : ℕ} {root : BBox} (hdims : root.numDims = bb.numDims)
    (hend : Layers.layer (cutParts bb) (m + 1) [root] = []) :
    QueueRuns bb [root] 0 ↔
      (∀ pre suf, Layers.order (cutParts bb) (m + 1) [root] = pre ++ suf →
        1 + 2 ^ bb.numDims * pre.countP (straddles bb) ≤ INT_MAX + pre.length) ∧
        (Layers.order (cutParts bb) (m + 1) [root]).countP (bboxInclude bb) ≤ INT_MAX := by
  have hparts : ∀ pre suf, Layers.order (cutParts bb) (m + 1) [root] = pre ++ suf →
      (pre.flatMap (cutParts bb)).length = 2 ^ bb.numDims * pre.countP (straddles bb) := by
    intro pre suf horder
    refine length_flatMap_cutParts fun b hb => ?_
    have hroot : ∀ b ∈ [root], b.numDims = bb.numDims := fun b hb => by rw [List.mem_singleton.1 hb, hdims]
    exact numDims_of_mem_order (m + 1) hroot b (by rw [horder]; simp [hb])
  -- turn `t` has the queue that the order of the sub-cubes leaves after its first `t`
  constructor
  · intro h
    refine ⟨fun pre suf horder => ?_, ?_⟩
    · obtain ⟨queue, hturn, -, hlength⟩ := Layers.iterate_length hend horder
      have ht := (h pre.length).1
      rw [hturn] at ht
      change queue.length ≤ INT_MAX at ht
      rw [hparts pre suf horder, List.length_singleton] at hlength
      omega
    · obtain ⟨queue, hturn, -⟩ := Layers.iterate_length hend (List.append_nil _).symm
      have ht := (h (Layers.order (cutParts bb) (m + 1) [root]).length).2
      rw [hturn, Nat.zero_add] at ht
      exact ht
  · rintro ⟨hpending, hinside⟩ t
    obtain ⟨queue, pre, suf, hturn, horder, -, hlength⟩ := Layers.exists_split hend t
    rw [hparts pre suf horder, List.length_singleton] at hlength
    have hpre := hpending pre suf horder
    rw [horder, List.countP_append] at hinside
    rw [hturn]
    change queue.length ≤ INT_MAX ∧ 0 + pre.countP (bboxInclude bb) ≤ INT_MAX
    omega

end Queue

end DataSpaces
