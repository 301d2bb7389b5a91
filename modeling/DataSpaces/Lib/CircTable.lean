import Mathlib.Data.Nat.Basic
import Mathlib.Data.List.Basic
import Mathlib.Tactic.Ring
import Mathlib.Data.Nat.ModEq

/-!
# CircTable — the queue held by a circular table

A circular table is a memory `tab`, a `size`, and a cursor `head`; `count` occupied slots follow the
cursor, wrapping at `size`.  `contents` reads them off as a list, and the lemmas below say what
removing the first slot, writing behind the last one, and moving the table do to that list.
-/

namespace CircTable

variable {α : Type*}

/-- The occupied slots in order. -/
def contents (tab : ℕ → α) (size head count : ℕ) : List α :=
  (List.range count).map fun k => tab ((head + k) % size)

@[simp] theorem contents_zero (tab : ℕ → α) (size head : ℕ) : contents tab size head 0 = [] := rfl

/-- Taking the first slot moves the cursor by one. -/
theorem contents_succ (tab : ℕ → α) (size head count : ℕ) :
    contents tab size head (count + 1) =
      tab (head % size) :: contents tab size ((head + 1) % size) count := by
  simp only [contents, List.range_succ_eq_map, List.map_cons, List.map_map, Nat.add_zero]
  congr 1
  refine List.map_congr_left fun k _ => ?_
  simp only [Function.comp, Nat.mod_add_mod]
  congr 2
  omega

/-- Two tables that agree on the occupied slots, each by its own layout, hold the same list. -/
theorem contents_congr {tab tab' : ℕ → α} {size size' head head' count : ℕ}
    (h : ∀ k < count, tab' ((head' + k) % size') = tab ((head + k) % size)) :
    contents tab' size' head' count = contents tab size head count :=
  List.map_congr_left fun k hk => h k (List.mem_range.1 hk)

/-- Writing `n` slots behind the last one appends. -/
theorem contents_append {tab tab' : ℕ → α} {size head count n : ℕ} {f : ℕ → α}
    (hold : ∀ k < count, tab' ((head + k) % size) = tab ((head + k) % size))
    (hnew : ∀ k < n, tab' ((head + (count + k)) % size) = f k) :
    contents tab' size head (count + n) = contents tab size head count ++ (List.range n).map f := by
  simp only [contents, List.range_add, List.map_append, List.map_map]
  congr 1
  · exact List.map_congr_left fun k hk => hold k (List.mem_range.1 hk)
  · exact List.map_congr_left fun k hk => hnew k (List.mem_range.1 hk)

/-- Slots at different distances below `size` from the cursor are different. -/
theorem slot_ne (size head : ℕ) {j k : ℕ} (hjk : j < k) (hk : k < size) :
    (head + j) % size ≠ (head + k) % size := by
  intro h
  have hmod : j ≡ k [MOD size] := Nat.ModEq.add_left_cancel' head h
  have hj : j % size = j := Nat.mod_eq_of_lt (hjk.trans hk)
  have hk' : k % size = k := Nat.mod_eq_of_lt hk
  have : j = k := by
    rw [← hj, ← hk']
    exact hmod
  omega

end CircTable
