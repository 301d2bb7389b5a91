import Mathlib.Order.Interval.Finset.Nat
import DataSpaces.Lib.Cover

/-!
# Segments — sorted lists of disjoint integer intervals

Intervals of naturals kept in increasing order.  The list stands for the set of its points; the
lemmas say when a list sorted by left ends is sorted in the strong sense, that joining adjacent
neighbours keeps the points, how to cut a number of points off the front, and that a block of a
sorted list is recovered from the hull of the block.
-/

/-- A closed interval of naturals. -/
structure Seg where
  lo : ℕ
  hi : ℕ

namespace Seg

def points (s : Seg) : Finset ℕ :=
  Finset.Icc s.lo s.hi

@[simp] theorem mem_points {s : Seg} {p : ℕ} : p ∈ s.points ↔ s.lo ≤ p ∧ p ≤ s.hi := by
  simp [points]

/-- Nonempty intervals in increasing order, none touching the next. -/
structure Sorted (l : List Seg) : Prop where
  nonempty : ∀ s ∈ l, s.lo ≤ s.hi
  increasing : l.Pairwise fun a b => a.hi < b.lo

theorem Sorted.nil : Sorted [] := ⟨by simp, List.Pairwise.nil⟩

theorem sorted_cons {s : Seg} {l : List Seg} :
    Sorted (s :: l) ↔ s.lo ≤ s.hi ∧ (∀ t ∈ l, s.hi < t.lo) ∧ Sorted l := by
  constructor
  · rintro ⟨hne, hinc⟩
    rw [List.pairwise_cons] at hinc
    exact ⟨hne s (by simp), hinc.1, fun t ht => hne t (by simp [ht]), hinc.2⟩
  · rintro ⟨hs, hst, hne, hinc⟩
    refine ⟨fun t ht => ?_, List.pairwise_cons.2 ⟨hst, hinc⟩⟩
    rcases List.mem_cons.1 ht with rfl | ht
    · exact hs
    · exact hne t ht

theorem Sorted.apart {l : List Seg} (h : Sorted l) : Cover.Apart points l := by
  refine h.increasing.imp fun {a b} hab => ?_
  rw [Finset.disjoint_left]
  intro p hpa hpb
  have := mem_points.1 hpa
  have := mem_points.1 hpb
  omega

theorem Sorted.append_left {l₁ l₂ : List Seg} (h : Sorted (l₁ ++ l₂)) : Sorted l₁ :=
  ⟨fun s hs => h.nonempty s (by simp [hs]), (List.pairwise_append.1 h.increasing).1⟩

theorem Sorted.append_right {l₁ l₂ : List Seg} (h : Sorted (l₁ ++ l₂)) : Sorted l₂ :=
  ⟨fun s hs => h.nonempty s (by simp [hs]), (List.pairwise_append.1 h.increasing).2.1⟩

/-- Nonempty disjoint intervals ordered by their left ends are sorted. -/
theorem sorted_of_apart {l : List Seg} (hne : ∀ s ∈ l, s.lo ≤ s.hi)
    (hap : Cover.Apart points l) (hle : l.Pairwise fun a b => a.lo ≤ b.lo) : Sorted l := by
  induction l with
  | nil => exact Sorted.nil
  | cons s l ih =>
      have hs := hne s (by simp)
      have htail : Sorted l :=
        ih (fun t ht => hne t (by simp [ht])) hap.tail (List.pairwise_cons.1 hle).2
      refine sorted_cons.2 ⟨hs, fun t ht => ?_, htail⟩
      have hst := (List.pairwise_cons.1 hle).1 t ht
      have htne := hne t (by simp [ht])
      by_contra hcon
      have hdis := (List.pairwise_cons.1 hap).1 t ht
      have hin : t.lo ∈ s.points := mem_points.2 ⟨hst, by omega⟩
      exact Finset.disjoint_left.1 hdis hin (mem_points.2 ⟨le_rfl, htne⟩)

/-- Joining a segment with the next one when they are adjacent. -/
theorem points_join {s t : Seg} (hs : s.lo ≤ s.hi) (ht : t.lo ≤ t.hi) (hadj : s.hi + 1 = t.lo) :
    (Seg.mk s.lo t.hi).points = s.points ∪ t.points := by
  ext p
  simp only [mem_points, Finset.mem_union]
  omega

/-- A block of a sorted list is what the list has between the ends of the block. -/
theorem mem_block_iff {l₁ blk l₂ : List Seg} (h : Sorted (l₁ ++ blk ++ l₂)) {first last : Seg}
    (hfirst : blk.head? = some first) (hlast : blk.getLast? = some last) {p : ℕ}
    (hp : p ∈ Cover.union points (l₁ ++ blk ++ l₂)) :
    p ∈ Cover.union points blk ↔ first.lo ≤ p ∧ p ≤ last.hi := by
  have hinc := h.increasing
  rw [List.pairwise_append, List.pairwise_append] at hinc
  obtain ⟨⟨-, hblk, h1b⟩, -, hb2⟩ := hinc
  have hfm : first ∈ blk := List.mem_of_mem_head? hfirst
  have hlm : last ∈ blk := List.mem_of_mem_getLast? hlast
  have hfne := h.nonempty first (by simp [hfm])
  have hlne := h.nonempty last (by simp [hlm])
  constructor
  · -- the segment of `p` lies between the first and the last one of the block
    intro hpb
    obtain ⟨s, hs, hps⟩ := Cover.mem_union.1 hpb
    have hps := mem_points.1 hps
    have hsne := h.nonempty s (by simp [hs])
    have hlo : first.lo ≤ s.lo := by
      cases hblkEq : blk with
      | nil => simp [hblkEq] at hs
      | cons a l =>
          rw [hblkEq, List.head?_cons, Option.some.injEq] at hfirst
          subst hfirst
          rw [hblkEq] at hs hblk
          rcases List.mem_cons.1 hs with rfl | hs
          · exact le_rfl
          · have := (List.pairwise_cons.1 hblk).1 s hs
            omega
    have hhi : s.hi ≤ last.hi := by
      obtain ⟨l, rfl⟩ : ∃ l, blk = l ++ [last] := by
        refine ⟨blk.dropLast, ?_⟩
        have hne : blk ≠ [] := List.ne_nil_of_mem hs
        rw [List.getLast?_eq_some_getLast hne, Option.some.injEq] at hlast
        rw [← hlast, List.dropLast_append_getLast hne]
      rcases List.mem_append.1 hs with hs | hs
      · have := (List.pairwise_append.1 hblk).2.2 s hs last (by simp)
        omega
      · rw [List.mem_singleton.1 hs]
    omega
  · rintro ⟨hlo, hhi⟩
    obtain ⟨s, hs, hps⟩ := Cover.mem_union.1 hp
    have hps' := mem_points.1 hps
    -- segments before the block end before it begins, those after it begin after it ends
    rcases List.mem_append.1 hs with hs | hs
    · rcases List.mem_append.1 hs with hs | hs
      · have := h1b s hs first hfm
        omega
      · exact Cover.mem_union.2 ⟨s, hs, hps⟩
    · have := hb2 last (by simp [hlm]) s hs
      omega

end Seg
