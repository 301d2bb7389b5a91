import Mathlib.Data.Fintype.BigOperators
import Mathlib.Order.Interval.Finset.Nat
import Mathlib.Data.Fintype.Pi

/-!
# Grid — boxes of integer cells

A box over an index type `ι` is a product of closed intervals of naturals, and what it is *for* is
its finite set of cells.  Everything here is stated over that set: intersection, inclusion,
disjointness and the number of cells.  A box may be empty (`hi i < lo i` for some `i`); the
statements below say so where it matters.
-/

namespace Grid

/-- A box, given by its two corners. -/
structure Rect (ι : Type*) where
  lo : ι → ℕ
  hi : ι → ℕ

namespace Rect

variable {ι : Type*} [Fintype ι] [DecidableEq ι]

/-- The cells of a box. -/
def cells (R : Rect ι) : Finset (ι → ℕ) :=
  Fintype.piFinset fun i => Finset.Icc (R.lo i) (R.hi i)

@[simp] theorem mem_cells {R : Rect ι} {x : ι → ℕ} :
    x ∈ R.cells ↔ ∀ i, R.lo i ≤ x i ∧ x i ≤ R.hi i := by
  simp [cells, Fintype.mem_piFinset]

theorem card_cells (R : Rect ι) : R.cells.card = ∏ i, (R.hi i + 1 - R.lo i) := by
  simp [cells, Fintype.card_piFinset]

theorem cells_nonempty {R : Rect ι} : R.cells.Nonempty ↔ ∀ i, R.lo i ≤ R.hi i := by
  constructor
  · rintro ⟨x, hx⟩ i
    have hxi := mem_cells.1 hx i
    exact hxi.1.trans hxi.2
  · intro h
    exact ⟨R.lo, mem_cells.2 fun i => ⟨le_rfl, h i⟩⟩

/-! ## Intersection and inclusion -/

/-- Corner-wise intersection. -/
def inter (R S : Rect ι) : Rect ι where
  lo i := max (R.lo i) (S.lo i)
  hi i := min (R.hi i) (S.hi i)

theorem cells_inter (R S : Rect ι) : (R.inter S).cells = R.cells ∩ S.cells := by
  ext x
  simp only [mem_cells, inter, Finset.mem_inter, max_le_iff, le_min_iff]
  constructor
  · intro h
    exact ⟨fun i => ⟨(h i).1.1, (h i).2.1⟩, fun i => ⟨(h i).1.2, (h i).2.2⟩⟩
  · rintro ⟨hR, hS⟩ i
    exact ⟨⟨(hR i).1, (hS i).1⟩, ⟨(hR i).2, (hS i).2⟩⟩

theorem cells_subset_iff {R S : Rect ι} (hS : S.cells.Nonempty) :
    S.cells ⊆ R.cells ↔ ∀ i, R.lo i ≤ S.lo i ∧ S.hi i ≤ R.hi i := by
  have hle := cells_nonempty.1 hS
  constructor
  · intro h i
    have hlo := mem_cells.1 (h (mem_cells.2 fun i => ⟨le_rfl, hle i⟩)) i
    have hhi := mem_cells.1 (h (mem_cells.2 fun i => ⟨hle i, le_rfl⟩)) i
    exact ⟨hlo.1, hhi.2⟩
  · intro h x hx
    refine mem_cells.2 fun i => ?_
    have hxi := mem_cells.1 hx i
    exact ⟨(h i).1.trans hxi.1, hxi.2.trans (h i).2⟩

/-- Two boxes share a cell iff their corners overlap in every direction. -/
theorem inter_nonempty_iff (R S : Rect ι) :
    (R.cells ∩ S.cells).Nonempty ↔ ∀ i, max (R.lo i) (S.lo i) ≤ min (R.hi i) (S.hi i) := by
  rw [← cells_inter]
  exact cells_nonempty

/-! ## Cutting a box in two -/

/-- The part of a box at or below `n` in direction `j`. -/
def below (R : Rect ι) (j : ι) (n : ℕ) : Rect ι where
  lo := R.lo
  hi := Function.update R.hi j n

/-- The part of a box above `n` in direction `j`. -/
def above (R : Rect ι) (j : ι) (n : ℕ) : Rect ι where
  lo := Function.update R.lo j (n + 1)
  hi := R.hi

theorem mem_cells_below {R : Rect ι} {j : ι} {n : ℕ} (hn : n ≤ R.hi j) {x : ι → ℕ} :
    x ∈ (R.below j n).cells ↔ x ∈ R.cells ∧ x j ≤ n := by
  simp only [mem_cells, below]
  constructor
  · intro h
    have hj : x j ≤ n := by simpa using (h j).2
    refine ⟨fun i => ⟨(h i).1, ?_⟩, hj⟩
    by_cases hij : i = j
    · subst hij
      exact hj.trans hn
    · simpa [hij] using (h i).2
  · rintro ⟨h, hj⟩ i
    refine ⟨(h i).1, ?_⟩
    by_cases hij : i = j
    · subst hij
      simpa using hj
    · simpa [hij] using (h i).2

theorem mem_cells_above {R : Rect ι} {j : ι} {n : ℕ} (hn : R.lo j ≤ n + 1) {x : ι → ℕ} :
    x ∈ (R.above j n).cells ↔ x ∈ R.cells ∧ n < x j := by
  simp only [mem_cells, above]
  constructor
  · intro h
    have hj : n + 1 ≤ x j := by simpa using (h j).1
    refine ⟨fun i => ⟨?_, (h i).2⟩, hj⟩
    by_cases hij : i = j
    · subst hij
      exact hn.trans hj
    · simpa [hij] using (h i).1
  · rintro ⟨h, hj⟩ i
    refine ⟨?_, (h i).2⟩
    by_cases hij : i = j
    · subst hij
      rw [Function.update_self]
      exact hj
    · simpa [hij] using (h i).1

theorem cells_below_union_above {R : Rect ι} {j : ι} {n : ℕ} (hhi : n ≤ R.hi j)
    (hlo : R.lo j ≤ n + 1) :
    (R.below j n).cells ∪ (R.above j n).cells = R.cells := by
  ext x
  rw [Finset.mem_union, mem_cells_below hhi, mem_cells_above hlo]
  constructor
  · rintro (h | h) <;> exact h.1
  · intro h
    rcases Nat.lt_or_ge n (x j) with hx | hx
    · exact Or.inr ⟨h, hx⟩
    · exact Or.inl ⟨h, hx⟩

theorem disjoint_below_above {R : Rect ι} {j : ι} {n : ℕ} (hhi : n ≤ R.hi j)
    (hlo : R.lo j ≤ n + 1) :
    Disjoint (R.below j n).cells (R.above j n).cells := by
  rw [Finset.disjoint_left]
  intro x hx hx'
  have hle := ((mem_cells_below hhi).1 hx).2
  have hlt := ((mem_cells_above hlo).1 hx').2
  omega

end Rect

end Grid
