import Mathlib.Data.List.Basic

/-!
# Fill — arrays that are filled from the front

An array has room for so many entries; writing behind its end is undefined.
-/

namespace Fill

variable {α β ι : Type} {room : Int}

/-- Write the next entry. -/
def push (room : Int) (tab : List β) (b : β) : Option (List β) :=
  if (tab.length : Int) < room then some (tab ++ [b]) else none

theorem push_eq {tab : List β} {b : β} (hroom : (tab.length : Int) < room) :
    push room tab b = some (tab ++ [b]) :=
  if_pos hroom

/-- A loop that writes an entry for every element that passes a test. -/
theorem foldlM_pushIf {test : α → Bool} {g : α → β} {l : List α} (tab : List β)
    (hroom : (tab.length : Int) + (l.filter test).length ≤ room) :
    l.foldlM (fun tab a => if test a then push room tab (g a) else some tab) tab =
      some (tab ++ (l.filter test).map g) := by
  induction l generalizing tab with
  | nil => exact congrArg some (List.append_nil tab).symm
  | cons a l ih =>
      rw [List.foldlM_cons]
      cases htest : test a with
      | true =>
          rw [List.filter_cons_of_pos htest, List.length_cons] at hroom
          have hrest := ih (tab ++ [g a]) (by rw [List.length_append, List.length_singleton]; omega)
          rw [if_pos rfl, push_eq (by omega), List.filter_cons_of_pos htest]
          rw [List.append_assoc] at hrest
          exact hrest
      | false =>
          have hneg : ¬ test a = true := by simp [htest]
          rw [List.filter_cons_of_neg hneg] at hroom ⊢
          rw [if_neg Bool.false_ne_true]
          exact ih tab hroom

/-- A loop that writes every element. -/
theorem foldlM_push {l : List β} (tab : List β) (hroom : (tab.length : Int) + l.length ≤ room) :
    l.foldlM (push room) tab = some (tab ++ l) := by
  induction l generalizing tab with
  | nil => exact congrArg some (List.append_nil tab).symm
  | cons b l ih =>
      rw [List.length_cons] at hroom
      have hrest := ih (tab ++ [b]) (by rw [List.length_append, List.length_singleton]; omega)
      rw [List.append_assoc] at hrest
      rw [List.foldlM_cons, push_eq (by omega)]
      exact hrest

/-- A loop around loops that write the entries of one part each. -/
theorem foldlM_flatMap (room : Int) {parts : List ι} {f : ι → List β} {turn : List β → ι → Option (List β)}
    (hturn : ∀ i ∈ parts, ∀ tab : List β, (tab.length : Int) + (f i).length ≤ room →
      turn tab i = some (tab ++ f i))
    (tab : List β) (hroom : (tab.length : Int) + (parts.flatMap f).length ≤ room) :
    parts.foldlM turn tab = some (tab ++ parts.flatMap f) := by
  induction parts generalizing tab with
  | nil => exact congrArg some (List.append_nil tab).symm
  | cons i parts ih =>
      rw [List.flatMap_cons, List.length_append] at hroom
      have hrest := ih (fun j hj => hturn j (List.mem_cons_of_mem i hj)) (tab ++ f i)
        (by rw [List.length_append]; omega)
      rw [List.append_assoc] at hrest
      rw [List.foldlM_cons, hturn i List.mem_cons_self tab (by omega), List.flatMap_cons]
      exact hrest

end Fill
