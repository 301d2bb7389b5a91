import Mathlib.Algebra.GroupWithZero.Nat
import Mathlib.Data.Finset.Card
import Mathlib.Data.List.Perm.Basic
import Mathlib.Data.Finset.Lattice.Fold
import Mathlib.Algebra.BigOperators.Group.List.Basic

/-!
# Cover — finite sets covered by a list of parts

A list of things, each of which denotes a finite set, covers the union of these sets.  When the parts
are pairwise disjoint, what they cover of any set `X` can be counted part by part.
-/

namespace Cover

variable {α β : Type*} [DecidableEq β] (f : α → Finset β)

/-- What the listed parts cover together. -/
def union : List α → Finset β
  | [] => ∅
  | a :: l => f a ∪ union l

/-- The listed parts do not overlap. -/
def Apart (l : List α) : Prop :=
  l.Pairwise fun a b => Disjoint (f a) (f b)

variable {f}

@[simp] theorem mem_union {l : List α} {x : β} : x ∈ union f l ↔ ∃ a ∈ l, x ∈ f a := by
  induction l with
  | nil => simp [union]
  | cons a l ih => simp [union, ih]

theorem union_append (l₁ l₂ : List α) : union f (l₁ ++ l₂) = union f l₁ ∪ union f l₂ := by
  ext x
  simp only [mem_union, Finset.mem_union, List.mem_append, or_and_right, exists_or]

theorem union_perm {l₁ l₂ : List α} (h : l₁.Perm l₂) : union f l₁ = union f l₂ := by
  ext x
  simp only [mem_union, h.mem_iff]

theorem union_map {γ : Type*} (g : γ → α) (l : List γ) :
    union f (l.map g) = union (fun c => f (g c)) l := by
  ext x
  simp

omit [DecidableEq β] in
theorem Apart.perm {l₁ l₂ : List α} (h : Apart f l₁) (hp : l₁.Perm l₂) : Apart f l₂ :=
  hp.pairwise h fun hab => hab.symm

/-- The first part is disjoint from what the others cover. -/
theorem Apart.disjoint_union {a : α} {l : List α} (h : Apart f (a :: l)) :
    Disjoint (f a) (union f l) := by
  rw [Finset.disjoint_left]
  intro x hxa hxl
  obtain ⟨b, hb, hxb⟩ := mem_union.1 hxl
  exact Finset.disjoint_left.1 ((List.pairwise_cons.1 h).1 b hb) hxa hxb

omit [DecidableEq β] in
theorem Apart.tail {a : α} {l : List α} (h : Apart f (a :: l)) : Apart f l :=
  (List.pairwise_cons.1 h).2

omit [DecidableEq β] in
/-- A point lies in one of the parts only. -/
theorem Apart.index_unique {l : List α} (h : Apart f l) {i j : ℕ} {a b : α} (hi : l[i]? = some a)
    (hj : l[j]? = some b) {x : β} (ha : x ∈ f a) (hb : x ∈ f b) : i = j := by
  obtain ⟨hilt, rfl⟩ := List.getElem?_eq_some_iff.1 hi
  obtain ⟨hjlt, rfl⟩ := List.getElem?_eq_some_iff.1 hj
  by_contra hne
  have hdis : Disjoint (f l[i]) (f l[j]) := by
    rcases Nat.lt_or_gt_of_ne hne with hlt | hgt
    · exact List.pairwise_iff_getElem.1 h i j hilt hjlt hlt
    · exact (List.pairwise_iff_getElem.1 h j i hjlt hilt hgt).symm
  exact Finset.disjoint_left.1 hdis ha hb

/-- Disjoint parts count what they cover of `X`. -/
theorem Apart.sum_card_inter {l : List α} (h : Apart f l) (X : Finset β) :
    (l.map fun a => (X ∩ f a).card).sum = (X ∩ union f l).card := by
  induction l with
  | nil => simp [union]
  | cons a l ih =>
      have hdis : Disjoint (X ∩ f a) (X ∩ union f l) :=
        (h.disjoint_union.mono Finset.inter_subset_right Finset.inter_subset_right)
      simp only [List.map_cons, List.sum_cons, union, Finset.inter_union_distrib_left]
      rw [ih h.tail, Finset.card_union_of_disjoint hdis]

/-- Replacing a part by smaller ones that cover it keeps everything apart. -/
theorem Apart.replace {a : α} {bs l : List α} (h : Apart f (a :: l)) (hbs : Apart f bs)
    (hsub : union f bs ⊆ f a) : Apart f (l ++ bs) := by
  refine List.pairwise_append.2 ⟨h.tail, hbs, fun c hc b hb => ?_⟩
  have hca : Disjoint (f a) (f c) := (List.pairwise_cons.1 h).1 c hc
  refine hca.symm.mono_right fun x hx => hsub ?_
  exact mem_union.2 ⟨b, hb, hx⟩

/-! ## Parts made of smaller parts -/

section FlatMap

variable {γ : Type*} {g : γ → List α} {l : List γ}

theorem union_flatMap : union f (l.flatMap g) = union (fun c => union f (g c)) l := by
  ext x
  simp only [mem_union, List.mem_flatMap]
  constructor
  · rintro ⟨a, ⟨c, hc, ha⟩, hx⟩
    exact ⟨c, hc, a, ha, hx⟩
  · rintro ⟨c, hc, a, ha, hx⟩
    exact ⟨a, ⟨c, hc, ha⟩, hx⟩

omit [DecidableEq β] in
theorem Apart.of_flatMap (h : Apart f (l.flatMap g)) {c : γ} (hc : c ∈ l) : Apart f (g c) :=
  (List.pairwise_flatMap.1 h).1 c hc

/-- Groups of disjoint parts are disjoint. -/
theorem Apart.groups (h : Apart f (l.flatMap g)) : Apart (fun c => union f (g c)) l := by
  refine (List.pairwise_flatMap.1 h).2.imp fun {c c'} hcc => ?_
  rw [Finset.disjoint_left]
  intro x hx hx'
  obtain ⟨a, ha, hxa⟩ := mem_union.1 hx
  obtain ⟨a', ha', hxa'⟩ := mem_union.1 hx'
  exact Finset.disjoint_left.1 (hcc a ha a' ha') hxa hxa'

end FlatMap

end Cover
