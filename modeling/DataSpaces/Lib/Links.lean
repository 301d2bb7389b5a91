import Mathlib.Logic.Function.Basic
import Mathlib.Data.List.Nodup

/-!
# Links — singly linked lists with a head variable

Where a link is stored is `none` for the head variable and `some a` for the link inside node `a`; the
memory is a function from places to what is stored there.  The place after the nodes of a list is then the
last of them, or the head variable.
-/

namespace Links

variable {α : Type*} {links links' : Option α → Option α}

/-- From place `p` the links lead through the nodes of the list. -/
def Path (links : Option α → Option α) : Option α → List α → Prop
  | _, [] => True
  | p, a :: l => links p = some a ∧ Path links (some a) l

/-- From place `p` the links lead through the nodes of the list and end there. -/
def Chain (links : Option α → Option α) : Option α → List α → Prop
  | p, [] => links p = none
  | p, a :: l => links p = some a ∧ Chain links (some a) l

/-- The place after the nodes of a list that starts at `p`. -/
def tip : Option α → List α → Option α
  | p, [] => p
  | _, a :: l => tip (some a) l

@[simp] theorem tip_nil (p : Option α) : tip p [] = p := rfl

@[simp] theorem tip_cons (p : Option α) (a : α) (l : List α) : tip p (a :: l) = tip (some a) l := rfl

theorem tip_some (l : List α) : ∀ a : α, tip (some a) l = (a :: l).getLast? := by
  induction l with
  | nil =>
      intro a
      rfl
  | cons b l ih =>
      intro a
      rw [tip_cons, ih b, List.getLast?_cons_cons]

@[simp] theorem tip_none (l : List α) : tip none l = l.getLast? := by
  cases l with
  | nil => rfl
  | cons a l => exact tip_some l a

theorem tip_mem {p : Option α} {l : List α} : tip p l = p ∨ ∃ a ∈ l, tip p l = some a := by
  cases l with
  | nil => exact Or.inl rfl
  | cons a l =>
      refine Or.inr ⟨(a :: l).getLast (by simp), List.getLast_mem _, ?_⟩
      rw [tip_cons, tip_some, List.getLast?_eq_some_getLast (by simp)]

theorem chain_append (l l' : List α) :
    ∀ p, Chain links p (l ++ l') ↔ Path links p l ∧ Chain links (tip p l) l' := by
  induction l with
  | nil =>
      intro p
      exact (and_iff_right trivial).symm
  | cons a l ih =>
      intro p
      rw [List.cons_append, Chain, Path, ih, and_assoc]
      rfl

theorem Chain.congr {l : List α} : ∀ {p}, Chain links p l → links p = links' p →
    (∀ a ∈ l, links (some a) = links' (some a)) → Chain links' p l := by
  induction l with
  | nil =>
      intro p h hp _
      exact hp.symm.trans h
  | cons a l ih =>
      intro p h hp hl
      exact ⟨hp ▸ h.1, ih h.2 (hl a (by simp)) fun b hb => hl b (by simp [hb])⟩

/-- A place with the same link is the start of the same list. -/
theorem Chain.transfer {l : List α} {p q : Option α} (h : Chain links p l) (hp : links p = links' q)
    (hl : ∀ a ∈ l, links (some a) = links' (some a)) : Chain links' q l := by
  cases l with
  | nil => exact hp.symm.trans h
  | cons a l => exact ⟨hp ▸ h.1, h.2.congr (hl a (by simp)) fun b hb => hl b (by simp [hb])⟩

theorem Chain.head {p : Option α} {l : List α} (h : Chain links p l) : links p = l.head? := by
  cases l with
  | nil => exact h
  | cons a l => exact h.1

/-- A place has one chain. -/
theorem Chain.unique {l : List α} : ∀ {l' : List α} {p}, Chain links p l → Chain links p l' → l = l' := by
  induction l with
  | nil =>
      intro l' p h h'
      have hhead := h.head.symm.trans h'.head
      exact (List.head?_eq_none_iff.1 hhead.symm).symm
  | cons a l ih =>
      intro l' p h h'
      obtain ⟨l', rfl⟩ := List.head?_eq_some_iff.1 (h'.head.symm.trans h.1)
      rw [ih h.2 h'.2]

section Update

variable [DecidableEq α]

/-- A link at the end of a path can be redirected. -/
theorem Path.redirect {l : List α} {t : Option α} : ∀ {p}, Path links p l → l.Nodup →
    (∀ a, p = some a → a ∉ l) → Path (Function.update links (tip p l) t) p l := by
  induction l with
  | nil =>
      intro p _ _ _
      trivial
  | cons a l ih =>
      intro p h hnodup hp
      rw [List.nodup_cons] at hnodup
      have hne : p ≠ tip (some a) l := by
        intro heq
        rcases tip_mem (p := some a) (l := l) with htip | ⟨b, hb, htip⟩
        · exact hp a (heq.trans htip) (by simp)
        · exact hp b (heq.trans htip) (by simp [hb])
      refine ⟨(Function.update_of_ne hne _ _).trans h.1, ih h.2 hnodup.2 ?_⟩
      intro b hb
      rw [← Option.some.inj hb]
      exact hnodup.1

/-- A chain goes on where the link at the end of the path leads. -/
theorem Path.chain_redirect {l l' : List α} {t : Option α} (h : Path links none l)
    (hnodup : l.Nodup) (hl' : Chain (Function.update links (tip none l) t) (tip none l) l') :
    Chain (Function.update links (tip none l) t) none (l ++ l') :=
  (chain_append l l' none).2 ⟨h.redirect hnodup (fun _ hp => nomatch hp), hl'⟩

/-- Take a node out of a chain: the link before it gets the link in it. -/
theorem Chain.unlink {l l' : List α} {a : α} (h : Chain links none (l ++ a :: l'))
    (hnodup : (l ++ a :: l').Nodup) :
    Chain (Function.update links l.getLast? (links (some a))) none (l ++ l') := by
  obtain ⟨hpath, hchain⟩ := (chain_append l (a :: l') none).1 h
  rw [← tip_none]
  refine hpath.chain_redirect (List.Nodup.of_append_left hnodup) ?_
  -- the nodes after `a` keep their links
  have hkeep : ∀ b ∈ l', tip none l ≠ some b := by
    intro b hb heq
    rcases tip_mem (p := none) (l := l) with htip | ⟨c, hc, htip⟩
    · exact nomatch heq.symm.trans htip
    · have hbc : b = c := Option.some.inj (heq.symm.trans htip)
      exact List.disjoint_of_nodup_append hnodup (hbc ▸ hc) (by simp [hb])
  cases l' with
  | nil => exact (Function.update_self _ _ _).trans (show links (some a) = none from hchain.2)
  | cons b l' =>
      refine ⟨(Function.update_self _ _ _).trans hchain.2.1, ?_⟩
      refine hchain.2.2.congr (Function.update_of_ne (hkeep b (by simp)).symm _ _).symm fun c hc => ?_
      exact (Function.update_of_ne (hkeep c (by simp [hc])).symm _ _).symm

/-- Put a node at the end of a chain. -/
theorem Chain.snoc {l : List α} {a : α} (h : Chain links none l) (hnodup : l.Nodup) (ha : a ∉ l)
    (hend : links (some a) = none) :
    Chain (Function.update links l.getLast? (some a)) none (l ++ [a]) := by
  have hpath := ((chain_append l [] none).1 (by rwa [List.append_nil])).1
  rw [← tip_none]
  refine hpath.chain_redirect hnodup ⟨Function.update_self _ _ _, ?_⟩
  refine (Function.update_of_ne ?_ _ _).trans hend
  intro heq
  rcases tip_mem (p := none) (l := l) with htip | ⟨b, hb, htip⟩
  · exact nomatch heq.trans htip
  · rw [Option.some.inj (heq.trans htip)] at ha
    exact ha hb

end Update

end Links
