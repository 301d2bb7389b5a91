import Mathlib.Logic.Function.Basic
import Mathlib.Logic.Relation
import Mathlib.Data.List.Nodup

/-!
# Rings — doubly linked lists with a head

The head of a list is a node like the ones of its elements, and the last element is followed by the head
again.  A memory says what the nodes hold; it holds nothing of a node that is not allocated, and a step that
follows a null pointer or touches such a node is undefined.
-/

namespace Rings

variable {ν : Type}

/-- The two pointers of a node; `none` is the null pointer. -/
structure Node (ν : Type) where
  next : Option ν
  prev : Option ν

abbrev Memory (ν : Type) : Type := ν → Option (Node ν)

def next (m : Memory ν) (x : ν) : Option ν := (m x).bind Node.next

def prev (m : Memory ν) (x : ν) : Option ν := (m x).bind Node.prev

/-! ## Operations -/

section Operations

variable [DecidableEq ν]

def setNext (m : Memory ν) (x : ν) (v : Option ν) : Option (Memory ν) :=
  (m x).map fun node => Function.update m x (some { node with next := v })

def setPrev (m : Memory ν) (x : ν) (v : Option ν) : Option (Memory ν) :=
  (m x).map fun node => Function.update m x (some { node with prev := v })

/-- Put a node between two others. -/
def insert (m : Memory ν) (np prev next : ν) : Option (Memory ν) := do
  let m ← setNext m np (some next)
  let m ← setPrev m np (some prev)
  let m ← setNext m prev (some np)
  setPrev m next (some np)

/-- Put a node behind the head. -/
def add (m : Memory ν) (np head : ν) : Option (Memory ν) := do
  let first ← next m head
  insert m np head first

/-- Unlink a node from its list. -/
def del (m : Memory ν) (old : ν) : Option (Memory ν) := do
  let before ← prev m old
  let m ← setNext m before (next m old)
  let after ← next m old
  let m ← setPrev m after (prev m old)
  let m ← setNext m old none
  setPrev m old none

/-! ## Loops -/

variable {β : Type}

/-- Go on from a node until the head, or until the body leaves the loop with a result; in at most `fuel`
turns. -/
def findFrom (m : Memory ν) (head : ν) (body : ν → Option (Option β)) : Nat → ν → Option (Option β)
  | 0, _ => none
  | fuel + 1, pos =>
      if pos = head then some none
      else
        (body pos).bind fun r =>
          match r with
          | some r => some (some r)
          | none => (next m pos).bind (findFrom m head body fuel)

/-- Leave the loop over a list with the first result of the body. -/
def find (m : Memory ν) (head : ν) (body : ν → Option (Option β)) (fuel : Nat) : Option (Option β) :=
  (next m head).bind (findFrom m head body fuel)

/-- Go on from a node until the head; in at most `fuel` turns. -/
def foldFrom (m : Memory ν) (head : ν) (body : β → ν → Option β) : Nat → β → ν → Option β
  | 0, _, _ => none
  | fuel + 1, b, pos =>
      if pos = head then some b
      else (body b pos).bind fun b => (next m pos).bind (foldFrom m head body fuel b)

/-- The loop over a list. -/
def fold (m : Memory ν) (head : ν) (body : β → ν → Option β) (fuel : Nat) (b : β) : Option β :=
  (next m head).bind (foldFrom m head body fuel b)

def length (m : Memory ν) (head : ν) (fuel : Nat) : Option Nat :=
  fold m head (fun len _ => some (len + 1)) fuel 0

end Operations

/-! ## Segments -/

/-- The two nodes point at each other. -/
def Linked (m : Memory ν) (x y : ν) : Prop :=
  next m x = some y ∧ prev m y = some x

/-- From the first node through those of the list to the last one. -/
def Seg (m : Memory ν) : ν → List ν → ν → Prop
  | x, [], y => Linked m x y
  | x, a :: l, y => Linked m x a ∧ Seg m a l y

section Segment

variable {m m' : Memory ν} {x y : ν} {l l₁ l₂ : List ν}

theorem seg_append {b : ν} : Seg m x (l₁ ++ b :: l₂) y ↔ Seg m x l₁ b ∧ Seg m b l₂ y := by
  induction l₁ generalizing x with
  | nil => exact Iff.rfl
  | cons a l₁ ih =>
      calc Seg m x (a :: l₁ ++ b :: l₂) y
          ↔ Linked m x a ∧ Seg m a l₁ b ∧ Seg m b l₂ y := and_congr_right fun _ => ih
        _ ↔ Seg m x (a :: l₁) b ∧ Seg m b l₂ y := and_assoc.symm

/-- A segment reads the next nodes of all but the last one, and the previous ones of all but the first. -/
theorem Seg.congr (h : Seg m x l y) (hnext : ∀ z ∈ x :: l, next m' z = next m z)
    (hprev : ∀ z ∈ l ++ [y], prev m' z = prev m z) : Seg m' x l y := by
  induction l generalizing x with
  | nil =>
      refine ⟨?_, ?_⟩
      · rw [hnext x List.mem_cons_self, h.1]
      · rw [hprev y List.mem_cons_self, h.2]
  | cons a l ih =>
      refine ⟨⟨?_, ?_⟩, ih h.2 ?_ ?_⟩
      · rw [hnext x List.mem_cons_self, h.1.1]
      · rw [hprev a List.mem_cons_self, h.1.2]
      · exact fun z hz => hnext z (List.mem_cons_of_mem x hz)
      · exact fun z hz => hprev z (List.mem_cons_of_mem a hz)

theorem Seg.exists_next (h : Seg m x l y) : ∃ z ∈ l ++ [y], next m x = some z := by
  cases l with
  | nil => exact ⟨y, List.mem_cons_self, h.1⟩
  | cons a l => exact ⟨a, List.mem_cons_self, h.1.1⟩

theorem Seg.exists_prev (h : Seg m x l y) : ∃ z ∈ x :: l, prev m y = some z := by
  induction l generalizing x with
  | nil => exact ⟨x, List.mem_cons_self, h.2⟩
  | cons a l ih =>
      obtain ⟨z, hz, hprev⟩ := ih h.2
      exact ⟨z, List.mem_cons_of_mem x hz, hprev⟩

theorem isSome_of_next {z : ν} (h : next m x = some z) : (m x).isSome :=
  Option.isSome_iff_exists.2 ((Option.bind_eq_some_iff.1 h).imp fun _ => And.left)

theorem Seg.isSome (h : Seg m x l y) : ∀ z ∈ x :: l, (m z).isSome := by
  induction l generalizing x with
  | nil =>
      intro z hz
      rw [List.mem_singleton.1 hz]
      exact isSome_of_next h.1
  | cons a l ih =>
      intro z hz
      rcases List.mem_cons.1 hz with rfl | hz
      · exact isSome_of_next h.1.1
      · exact ih h.2 z hz

end Segment

/-! ## Writing -/

section Write

variable [DecidableEq ν] {m m' : Memory ν} {x y : ν} {l l₁ l₂ : List ν}

theorem setNext_spec (hx : (m x).isSome) (v : Option ν) :
    ∃ m', setNext m x v = some m' ∧ next m' = Function.update (next m) x v ∧ prev m' = prev m ∧
      ∀ z, (m' z).isSome = (m z).isSome := by
  obtain ⟨node, hnode⟩ := Option.isSome_iff_exists.1 hx
  refine ⟨_, by rw [setNext, hnode, Option.map_some], ?_, ?_, ?_⟩
  · funext z
    rcases eq_or_ne z x with rfl | hz
    · simp [next]
    · simp [next, hz]
  · funext z
    rcases eq_or_ne z x with rfl | hz
    · simp [prev, hnode]
    · simp [prev, hz]
  · intro z
    rcases eq_or_ne z x with rfl | hz
    · simp [hnode]
    · simp [hz]

theorem setPrev_spec (hx : (m x).isSome) (v : Option ν) :
    ∃ m', setPrev m x v = some m' ∧ next m' = next m ∧ prev m' = Function.update (prev m) x v ∧
      ∀ z, (m' z).isSome = (m z).isSome := by
  obtain ⟨node, hnode⟩ := Option.isSome_iff_exists.1 hx
  refine ⟨_, by rw [setPrev, hnode, Option.map_some], ?_, ?_, ?_⟩
  · funext z
    rcases eq_or_ne z x with rfl | hz
    · simp [next, hnode]
    · simp [next, hz]
  · funext z
    rcases eq_or_ne z x with rfl | hz
    · simp [prev]
    · simp [prev, hz]
  · intro z
    rcases eq_or_ne z x with rfl | hz
    · simp [hnode]
    · simp [hz]

theorem insert_spec {np before after : ν} (hnp : (m np).isSome) (hbefore : (m before).isSome)
    (hafter : (m after).isSome) :
    ∃ m', insert m np before after = some m' ∧
      next m' = Function.update (Function.update (next m) np (some after)) before (some np) ∧
      prev m' = Function.update (Function.update (prev m) np (some before)) after (some np) ∧
      ∀ z, (m' z).isSome = (m z).isSome := by
  obtain ⟨m₁, h₁, hnext₁, hprev₁, hlive₁⟩ := setNext_spec hnp (some after)
  obtain ⟨m₂, h₂, hnext₂, hprev₂, hlive₂⟩ := setPrev_spec (m := m₁) (x := np) (by rwa [hlive₁]) (some before)
  obtain ⟨m₃, h₃, hnext₃, hprev₃, hlive₃⟩ :=
    setNext_spec (m := m₂) (x := before) (by rwa [hlive₂, hlive₁]) (some np)
  obtain ⟨m₄, h₄, hnext₄, hprev₄, hlive₄⟩ :=
    setPrev_spec (m := m₃) (x := after) (by rwa [hlive₃, hlive₂, hlive₁]) (some np)
  refine ⟨m₄, ?_, ?_, ?_, fun z => ?_⟩
  · simp only [insert, h₁, h₂, h₃, h₄, Option.bind_eq_bind, Option.bind_some]
  · rw [hnext₄, hnext₃, hnext₂, hnext₁]
  · rw [hprev₄, hprev₃, hprev₂, hprev₁]
  · rw [hlive₄, hlive₃, hlive₂, hlive₁]

theorem del_spec {old before after : ν} (hold : (m old).isSome) (hbefore : (m before).isSome)
    (hafter : (m after).isSome) (hprev : prev m old = some before) (hnext : next m old = some after)
    (hne : old ≠ before) :
    ∃ m', del m old = some m' ∧
      next m' = Function.update (Function.update (next m) before (some after)) old none ∧
      prev m' = Function.update (Function.update (prev m) after (some before)) old none ∧
      ∀ z, (m' z).isSome = (m z).isSome := by
  obtain ⟨m₁, h₁, hnext₁, hprev₁, hlive₁⟩ := setNext_spec hbefore (some after)
  obtain ⟨m₂, h₂, hnext₂, hprev₂, hlive₂⟩ :=
    setPrev_spec (m := m₁) (x := after) (by rwa [hlive₁]) (some before)
  obtain ⟨m₃, h₃, hnext₃, hprev₃, hlive₃⟩ :=
    setNext_spec (m := m₂) (x := old) (by rwa [hlive₂, hlive₁]) none
  obtain ⟨m₄, h₄, hnext₄, hprev₄, hlive₄⟩ :=
    setPrev_spec (m := m₃) (x := old) (by rwa [hlive₃, hlive₂, hlive₁]) none
  -- writing before the node does not change what it points at
  have hnext' : next m₁ old = some after := by
    rw [hnext₁, Function.update_of_ne hne, hnext]
  have hprev' : prev m₁ old = some before := by
    rw [hprev₁, hprev]
  refine ⟨m₄, ?_, ?_, ?_, fun z => ?_⟩
  · simp only [del, hprev, hnext, h₁, hnext', hprev', h₂, h₃, h₄, Option.bind_eq_bind, Option.bind_some]
  · rw [hnext₄, hnext₃, hnext₂, hnext₁]
  · rw [hprev₄, hprev₃, hprev₂, hprev₁]
  · rw [hlive₄, hlive₃, hlive₂, hlive₁]

/-- Put behind the first node of a segment. -/
theorem Seg.insert {np first : ν} (h : Seg m x l y) (hfirst : next m x = some first)
    (hnp : np ∉ x :: l) (hy : np ≠ y) (hyl : y ∉ l) (hnodup : (x :: l).Nodup)
    (hnext : next m' = Function.update (Function.update (next m) np (some first)) x (some np))
    (hprev : prev m' = Function.update (Function.update (prev m) np (some x)) first (some np)) :
    Seg m' x (np :: l) y := by
  have hx : x ≠ np := fun heq => hnp (heq ▸ List.mem_cons_self)
  -- what stays behind the new node keeps its pointers
  have hkeep : ∀ z ∈ l, next m' z = next m z := by
    intro z hz
    have hzx : z ≠ x := fun heq => (List.nodup_cons.1 hnodup).1 (heq ▸ hz)
    have hznp : z ≠ np := fun heq => hnp (heq ▸ List.mem_cons_of_mem x hz)
    rw [hnext, Function.update_of_ne hzx, Function.update_of_ne hznp]
  have hlink : first ≠ np → Linked m' x np ∧ Linked m' np first := by
    intro hne
    refine ⟨⟨?_, ?_⟩, ?_, ?_⟩
    · rw [hnext, Function.update_self]
    · rw [hprev, Function.update_of_ne hne.symm, Function.update_self]
    · rw [hnext, Function.update_of_ne hx.symm, Function.update_self]
    · rw [hprev, Function.update_self]
  cases l with
  | nil =>
      obtain rfl : y = first := Option.some.inj (h.1.symm.trans hfirst)
      exact hlink hy.symm
  | cons a l =>
      obtain rfl : a = first := Option.some.inj (h.1.1.symm.trans hfirst)
      have hne : a ≠ np := fun heq =>
        hnp (heq ▸ List.mem_cons_of_mem x List.mem_cons_self)
      refine ⟨(hlink hne).1, (hlink hne).2, h.2.congr hkeep ?_⟩
      intro z hz
      have hza : z ≠ a := by
        rintro rfl
        rcases List.mem_append.1 hz with hz | hz
        · exact (List.nodup_cons.1 (List.nodup_cons.1 hnodup).2).1 hz
        · exact hyl (List.mem_singleton.1 hz ▸ List.mem_cons_self)
      have hznp : z ≠ np := by
        rintro rfl
        rcases List.mem_append.1 hz with hz | hz
        · exact hnp (List.mem_cons_of_mem x (List.mem_cons_of_mem a hz))
        · exact hy (List.mem_singleton.1 hz)
      rw [hprev, Function.update_of_ne hza, Function.update_of_ne hznp]

/-- Take out the first node behind another one. -/
theorem Seg.unlink_first {e after : ν} (h : Seg m e l y) (hafter : next m e = some after)
    (hnodup : (x :: e :: l).Nodup) (hy : y ∉ e :: l)
    (hnext : next m' = Function.update (Function.update (next m) x (some after)) e none)
    (hprev : prev m' = Function.update (Function.update (prev m) after (some x)) e none) :
    Seg m' x l y := by
  obtain ⟨hxl, hel⟩ := List.nodup_cons.1 hnodup
  have hxe : x ≠ e := fun heq => hxl (heq ▸ List.mem_cons_self)
  have hye : y ≠ e := fun heq => hy (heq ▸ List.mem_cons_self)
  have hlink : after ≠ e → Linked m' x after := by
    intro hne
    refine ⟨?_, ?_⟩
    · rw [hnext, Function.update_of_ne hxe, Function.update_self]
    · rw [hprev, Function.update_of_ne hne, Function.update_self]
  cases l with
  | nil =>
      obtain rfl : y = after := Option.some.inj (h.1.symm.trans hafter)
      exact hlink hye
  | cons c l =>
      obtain rfl : c = after := Option.some.inj (h.1.1.symm.trans hafter)
      obtain ⟨hce, hc⟩ := List.nodup_cons.1 hel
      -- the rest has neither of the nodes whose pointers change
      refine ⟨hlink fun heq => hce (heq ▸ List.mem_cons_self), h.2.congr ?_ ?_⟩
      · intro z hz
        have hzx : z ≠ x := fun heq => hxl (heq ▸ List.mem_cons_of_mem e hz)
        have hze : z ≠ e := fun heq => hce (heq ▸ hz)
        rw [hnext, Function.update_of_ne hze, Function.update_of_ne hzx]
      · intro z hz
        have hzc : z ≠ c ∧ z ≠ e := by
          rcases List.mem_append.1 hz with hz | hz
          · exact ⟨fun heq => (List.nodup_cons.1 hc).1 (heq ▸ hz),
              fun heq => hce (heq ▸ List.mem_cons_of_mem c hz)⟩
          · rw [List.mem_singleton.1 hz]
            exact ⟨fun heq => hy (heq ▸ List.mem_cons_of_mem e List.mem_cons_self), hye⟩
        rw [hprev, Function.update_of_ne hzc.2, Function.update_of_ne hzc.1]

/-- Take out a node of a segment. -/
theorem Seg.unlink {e before after : ν} (h₁ : Seg m x l₁ e) (h₂ : Seg m e l₂ y)
    (hbefore : prev m e = some before) (hafter : next m e = some after)
    (hnodup : (x :: (l₁ ++ e :: l₂)).Nodup) (hy : y ∉ l₁ ++ e :: l₂)
    (hnext : next m' = Function.update (Function.update (next m) before (some after)) e none)
    (hprev : prev m' = Function.update (Function.update (prev m) after (some before)) e none) :
    Seg m' x (l₁ ++ l₂) y := by
  induction l₁ generalizing x with
  | nil =>
      obtain rfl : x = before := Option.some.inj (h₁.2.symm.trans hbefore)
      exact h₂.unlink_first hafter hnodup hy hnext hprev
  | cons a l₁ ih =>
      obtain ⟨hx, ha⟩ := List.nodup_cons.1 hnodup
      have hmem : e ∈ l₁ ++ e :: l₂ := List.mem_append_right l₁ List.mem_cons_self
      -- neither end of the cut is before the node `a`
      obtain ⟨b, hb, hprev'⟩ := h₁.2.exists_prev
      obtain rfl : b = before := Option.some.inj (hprev'.symm.trans hbefore)
      obtain ⟨c, hc, hnext'⟩ := h₂.exists_next
      obtain rfl : c = after := Option.some.inj (hnext'.symm.trans hafter)
      have hxe : x ≠ e := by
        rintro rfl
        exact hx (List.mem_cons_of_mem a hmem)
      have hae : a ≠ e := fun heq => (List.nodup_cons.1 ha).1 (heq ▸ hmem)
      have hxb : x ≠ b := by
        rintro rfl
        exact hx (List.mem_append_left (e :: l₂) hb)
      have hac : a ≠ c := by
        rintro rfl
        rcases List.mem_append.1 hc with hc | hc
        · exact (List.nodup_cons.1 ha).1 (List.mem_append_right l₁ (List.mem_cons_of_mem e hc))
        · exact hy (List.mem_singleton.1 hc ▸ List.mem_cons_self)
      refine ⟨⟨?_, ?_⟩, ih h₁.2 ha fun hmem => hy (List.mem_cons_of_mem a hmem)⟩
      · rw [hnext, Function.update_of_ne hxe, Function.update_of_ne hxb, h₁.1.1]
      · rw [hprev, Function.update_of_ne hae, Function.update_of_ne hac, h₁.1.2]

end Write

/-! ## Rings -/

/-- The nodes of the list are the ones of the ring behind the head. -/
structure Ring (m : Memory ν) (head : ν) (l : List ν) : Prop where
  seg : Seg m head l head
  nodup : (head :: l).Nodup

/-- Both pointers of the node are as they were. -/
def Same (m m' : Memory ν) (z : ν) : Prop :=
  next m' z = next m z ∧ prev m' z = prev m z

theorem same_of_update [DecidableEq ν] {m m' : Memory ν} {a b c d z : ν} {u v u' v' : Option ν}
    (hnext : next m' = Function.update (Function.update (next m) a u) b v)
    (hprev : prev m' = Function.update (Function.update (prev m) c u') d v')
    (ha : z ≠ a) (hb : z ≠ b) (hc : z ≠ c) (hd : z ≠ d) : Same m m' z := by
  refine ⟨?_, ?_⟩
  · rw [hnext, Function.update_of_ne hb, Function.update_of_ne ha]
  · rw [hprev, Function.update_of_ne hd, Function.update_of_ne hc]

/-- The node follows another one, at some distance. -/
def Reaches (m : Memory ν) (x y : ν) : Prop :=
  Relation.TransGen (fun u v => next m u = some v) x y

theorem Seg.next_mem {m : Memory ν} {x y z w : ν} {l : List ν} (h : Seg m x l y) (hz : z ∈ x :: l)
    (hnext : next m z = some w) : w ∈ l ++ [y] := by
  induction l generalizing x with
  | nil =>
      rw [List.mem_singleton.1 hz, h.1] at hnext
      exact Option.some.inj hnext ▸ List.mem_cons_self
  | cons a l ih =>
      rcases List.mem_cons.1 hz with rfl | hz
      · rw [h.1.1] at hnext
        exact Option.some.inj hnext ▸ List.mem_cons_self
      · exact List.mem_cons_of_mem a (ih h.2 hz)

theorem Seg.reaches {m : Memory ν} {x y z : ν} {l : List ν} (h : Seg m x l y) (hz : z ∈ l ++ [y]) :
    Reaches m x z := by
  induction l generalizing x with
  | nil =>
      rw [List.mem_singleton.1 hz]
      exact Relation.TransGen.single h.1
  | cons a l ih =>
      rcases List.mem_cons.1 hz with rfl | hz
      · exact Relation.TransGen.single h.1.1
      · exact Relation.TransGen.head h.1.1 (ih h.2 hz)

/-- The head is in front of the other nodes and behind them. -/
theorem mem_append_head {head z : ν} {l : List ν} : z ∈ l ++ [head] ↔ z ∈ head :: l := by
  rw [List.mem_append, List.mem_singleton, List.mem_cons, or_comm]

section Ring

variable {m m' : Memory ν} {head : ν} {l : List ν} (h : Ring m head l)

include h

theorem Ring.congr (hsame : ∀ z ∈ head :: l, Same m m' z) : Ring m' head l where
  seg := h.seg.congr (fun z hz => (hsame z hz).1) fun z hz => (hsame z (mem_append_head.1 hz)).2
  nodup := h.nodup

/-- The nodes that follow the head are the ones of the ring. -/
theorem Ring.reaches_iff {z : ν} : Reaches m head z ↔ z ∈ head :: l := by
  constructor
  · intro hz
    induction hz with
    | single hnext => exact mem_append_head.1 (h.seg.next_mem List.mem_cons_self hnext)
    | tail _ hnext ih => exact mem_append_head.1 (h.seg.next_mem ih hnext)
  · intro hz
    exact h.seg.reaches (mem_append_head.2 hz)

variable [DecidableEq ν]

theorem Ring.add {np : ν} (hnp : np ∉ head :: l) (hlive : (m np).isSome) :
    ∃ m', add m np head = some m' ∧ Ring m' head (np :: l) ∧
      (∀ z ∉ head :: np :: l, Same m m' z) ∧ ∀ z, (m' z).isSome = (m z).isSome := by
  obtain ⟨first, hmem, hfirst⟩ := h.seg.exists_next
  obtain ⟨hhead, hl⟩ := List.nodup_cons.1 h.nodup
  have hfirst' : first ∈ head :: l := mem_append_head.1 hmem
  obtain ⟨m', hrun, hnext, hprev, hlive'⟩ :=
    insert_spec hlive (isSome_of_next hfirst) (h.seg.isSome first hfirst')
  -- the new node is none of those that are written
  have hne : np ≠ head := fun heq => hnp (heq ▸ List.mem_cons_self)
  refine ⟨m', ?_, ⟨?_, ?_⟩, ?_, hlive'⟩
  · rw [Rings.add, hfirst]
    exact hrun
  · exact h.seg.insert hfirst hnp hne hhead h.nodup hnext hprev
  · refine List.nodup_cons.2 ⟨?_, List.nodup_cons.2 ⟨?_, hl⟩⟩
    · intro hmem
      rcases List.mem_cons.1 hmem with heq | hmem
      · exact hne heq.symm
      · exact hhead hmem
    · exact fun hmem => hnp (List.mem_cons_of_mem head hmem)
  · intro z hz
    have hzhead : z ≠ head := fun heq => hz (heq ▸ List.mem_cons_self)
    have hznp : z ≠ np := fun heq => hz (heq ▸ List.mem_cons_of_mem head List.mem_cons_self)
    have hzfirst : z ≠ first := by
      rintro rfl
      rcases List.mem_cons.1 hfirst' with heq | hmem
      · exact hzhead heq
      · exact hz (List.mem_cons_of_mem head (List.mem_cons_of_mem np hmem))
    exact same_of_update hnext hprev hznp hzhead hznp hzfirst

theorem Ring.del {e : ν} (he : e ∈ l) :
    ∃ m', del m e = some m' ∧ Ring m' head (l.erase e) ∧
      (∀ z ∉ head :: l, Same m m' z) ∧ ∀ z, (m' z).isSome = (m z).isSome := by
  obtain ⟨l₁, l₂, rfl⟩ := List.append_of_mem he
  obtain ⟨h₁, h₂⟩ := seg_append.1 h.seg
  obtain ⟨before, hbefore, hprev⟩ := h₁.exists_prev
  obtain ⟨after, hafter, hnext⟩ := h₂.exists_next
  obtain ⟨hhead, hl⟩ := List.nodup_cons.1 h.nodup
  -- the node is in the list once
  have hel₁ : e ∉ l₁ := fun hmem => (List.nodup_append.1 hl).2.2 e hmem e List.mem_cons_self rfl
  have hbefore' : before ∈ head :: (l₁ ++ e :: l₂) := List.mem_append_left (e :: l₂) hbefore
  have hafter' : after ∈ head :: (l₁ ++ e :: l₂) := by
    rcases List.mem_cons.1 (mem_append_head.1 hafter) with rfl | hmem
    · exact List.mem_cons_self
    · exact List.mem_cons_of_mem head (List.mem_append_right l₁ (List.mem_cons_of_mem e hmem))
  have hne : e ≠ before := by
    rintro rfl
    rcases List.mem_cons.1 hbefore with heq | hmem
    · exact hhead (heq ▸ he)
    · exact hel₁ hmem
  obtain ⟨m', hrun, hnext', hprev', hlive'⟩ :=
    del_spec (isSome_of_next hnext) (h.seg.isSome before hbefore') (h.seg.isSome after hafter')
      hprev hnext hne
  have herase : (l₁ ++ e :: l₂).erase e = l₁ ++ l₂ := by
    rw [List.erase_append_right (e :: l₂) hel₁, List.erase_cons_head]
  refine ⟨m', hrun, ⟨?_, ?_⟩, ?_, hlive'⟩
  · rw [herase]
    exact h₁.unlink h₂ hprev hnext h.nodup hhead hnext' hprev'
  · exact h.nodup.sublist (List.Sublist.cons_cons head List.erase_sublist)
  · intro z hz
    have hze : z ≠ e := by
      rintro rfl
      exact hz (List.mem_cons_of_mem head he)
    have hzbefore : z ≠ before := fun heq => hz (heq ▸ hbefore')
    have hzafter : z ≠ after := fun heq => hz (heq ▸ hafter')
    exact same_of_update hnext' hprev' hzbefore hze hzafter hze

end Ring

/-! ## Loops over a ring -/

section Loops

variable [DecidableEq ν] {m : Memory ν} {head x : ν} {α β : Type} {l : List α} {f : α → ν} {fuel : Nat}

theorem Seg.find {body : ν → Option (Option β)} {t : α → Option β} (h : Seg m x (l.map f) head)
    (hhead : head ∉ l.map f) (hbody : ∀ a ∈ l, body (f a) = some (t a)) (hfuel : l.length < fuel) :
    (next m x).bind (findFrom m head body fuel) = some (l.findSome? t) := by
  induction l generalizing x fuel with
  | nil =>
      cases fuel with
      | zero => exact absurd hfuel (Nat.not_lt_zero _)
      | succ fuel => rw [h.1, Option.bind_some, findFrom, if_pos rfl, List.findSome?_nil]
  | cons a l ih =>
      cases fuel with
      | zero => exact absurd hfuel (Nat.not_lt_zero _)
      | succ fuel =>
          have hne : f a ≠ head := fun heq => hhead (heq ▸ List.mem_cons_self)
          have hrest : (next m (f a)).bind (findFrom m head body fuel) = some (l.findSome? t) :=
            ih h.2 (fun hmem => hhead (List.mem_cons_of_mem (f a) hmem))
              (fun b hb => hbody b (List.mem_cons_of_mem a hb)) (Nat.lt_of_succ_lt_succ hfuel)
          rw [h.1.1, Option.bind_some, findFrom, if_neg hne, hbody a List.mem_cons_self,
            Option.bind_some, List.findSome?_cons]
          cases t a with
          | none => exact hrest
          | some r => rfl

theorem Ring.find {body : ν → Option (Option β)} {t : α → Option β} (h : Ring m head (l.map f))
    (hbody : ∀ a ∈ l, body (f a) = some (t a)) (hfuel : l.length < fuel) :
    find m head body fuel = some (l.findSome? t) :=
  h.seg.find (List.nodup_cons.1 h.nodup).1 hbody hfuel

theorem Seg.fold {body : β → ν → Option β} (h : Seg m x (l.map f) head) (hhead : head ∉ l.map f)
    (hfuel : l.length < fuel) (b : β) :
    (next m x).bind (foldFrom m head body fuel b) = l.foldlM (fun b a => body b (f a)) b := by
  induction l generalizing x fuel b with
  | nil =>
      cases fuel with
      | zero => exact absurd hfuel (Nat.not_lt_zero _)
      | succ fuel =>
          rw [h.1, Option.bind_some, foldFrom, if_pos rfl]
          rfl
  | cons a l ih =>
      cases fuel with
      | zero => exact absurd hfuel (Nat.not_lt_zero _)
      | succ fuel =>
          have hne : f a ≠ head := fun heq => hhead (heq ▸ List.mem_cons_self)
          rw [h.1.1, Option.bind_some, foldFrom, if_neg hne, List.foldlM_cons]
          refine Option.bind_congr fun b' _ => ?_
          exact ih h.2 (fun hmem => hhead (List.mem_cons_of_mem (f a) hmem))
            (Nat.lt_of_succ_lt_succ hfuel) b'

theorem Ring.fold {body : β → ν → Option β} (h : Ring m head (l.map f)) (hfuel : l.length < fuel)
    (b : β) : fold m head body fuel b = l.foldlM (fun b a => body b (f a)) b :=
  h.seg.fold (List.nodup_cons.1 h.nodup).1 hfuel b

theorem Ring.length (h : Ring m head (l.map f)) (hfuel : l.length < fuel) :
    length m head fuel = some l.length := by
  calc Rings.length m head fuel
      = l.foldlM (fun len _ => pure (len + 1)) 0 := h.fold hfuel 0
    _ = some (l.foldl (fun len _ => len + 1) 0) := List.foldlM_pure
    _ = some l.length := by rw [List.foldl_add_const, Nat.one_mul, Nat.zero_add]

/-- A loop that left with fewer turns allowed leaves with the same result. -/
theorem findFrom_mono {body : ν → Option (Option β)} {fuel' : Nat} {r : Option β} (hle : fuel ≤ fuel')
    (h : findFrom m head body fuel x = some r) : findFrom m head body fuel' x = some r := by
  induction fuel generalizing fuel' x with
  | zero => cases h
  | succ fuel ih =>
      cases fuel' with
      | zero => exact absurd hle (Nat.not_succ_le_zero fuel)
      | succ fuel' =>
          rw [findFrom] at h ⊢
          split
          · next heq => rwa [if_pos heq] at h
          · next hne =>
              rw [if_neg hne] at h
              obtain ⟨res, hbody, h⟩ := Option.bind_eq_some_iff.1 h
              rw [hbody, Option.bind_some]
              cases res with
              | some res => exact h
              | none =>
                  obtain ⟨y, hnext, h⟩ := Option.bind_eq_some_iff.1 h
                  exact Option.bind_eq_some_iff.2 ⟨y, hnext, ih (Nat.le_of_succ_le_succ hle) h⟩

theorem find_mono {body : ν → Option (Option β)} {fuel' : Nat} {r : Option β} (hle : fuel ≤ fuel')
    (h : find m head body fuel = some r) : find m head body fuel' = some r := by
  obtain ⟨y, hnext, h⟩ := Option.bind_eq_some_iff.1 h
  exact Option.bind_eq_some_iff.2 ⟨y, hnext, findFrom_mono hle h⟩

end Loops

end Rings
