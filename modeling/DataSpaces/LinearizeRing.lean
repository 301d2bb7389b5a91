import Mathlib.Tactic.IntervalCases
import DataSpaces.Subdivision
import DataSpaces.Lib.CircTable

/-!
# LinearizeRing — the circular table of `bbox_to_intv2` is a queue

The table is written in groups of `n = 2 ^ num_dims` slots, and `bb_tail` only ever points at the
start of a group, while `bb_head` walks through the slots one by one.  The invariant counts the
pending boxes and says that the group `bb_head` is in, the pending ones and one free group fit into
the table.  From it the loop over the table and the subdivision with a queue agree turn by turn, up to the
first growth of a table whose new size is not an `int`.
-/

namespace DataSpaces

/-! ## The sizes of a table -/

/-- A size that the table has at some time. -/
def Grown (n size : ℕ) : Prop :=
  ∃ j, size = (nextSize n)^[j] 4096

section Sizes

variable {n d size : ℕ}

theorem le_nextSize (hn : 0 < n) (h : 2 * n ≤ size) : size ≤ nextSize n size := by
  have := Nat.mod_lt (size + size / 2) hn
  rw [nextSize]
  split <;> omega

theorem le_iterate_nextSize (hn : 0 < n) (j : ℕ) :
    ∀ {size : ℕ}, 2 * n ≤ size → size ≤ (nextSize n)^[j] size := by
  induction j with
  | zero =>
      intro size _
      rfl
  | succ j ih =>
      intro size h
      have hle := le_nextSize hn h
      rw [Function.iterate_succ_apply]
      exact hle.trans (ih (h.trans hle))

/-- A table of the largest size does not grow. -/
theorem nextSize_tabLimit (hd : d ≤ 10) : nextSize (2 ^ d) (tabLimit (2 ^ d)) = tabLimit (2 ^ d) := by
  interval_cases d <;> decide +kernel

theorem two_pow_le_of_dims (hd : d ≤ 10) : 2 ^ d ≤ 1024 :=
  Nat.pow_le_pow_right (by norm_num) hd

/-- A size at which the table cannot grow is the largest one. -/
theorem eq_tabLimit_of_fixed (hd : d ≤ 10) (hgrown : Grown (2 ^ d) size) (hfix : nextSize (2 ^ d) size = size) :
    size = tabLimit (2 ^ d) := by
  obtain ⟨j, rfl⟩ := hgrown
  rcases Nat.le_total j 40 with hj | hj
  · obtain ⟨i, hi⟩ := Nat.exists_eq_add_of_le hj
    rw [tabLimit, hi, Nat.add_comm, Function.iterate_add_apply, Function.iterate_fixed hfix]
  · obtain ⟨i, rfl⟩ := Nat.exists_eq_add_of_le hj
    rw [Nat.add_comm, Function.iterate_add_apply]
    exact Function.iterate_fixed (nextSize_tabLimit hd) i

theorem Grown.le_size (hd : d ≤ 10) (hgrown : Grown (2 ^ d) size) : 4096 ≤ size := by
  obtain ⟨j, rfl⟩ := hgrown
  have := two_pow_le_of_dims hd
  exact le_iterate_nextSize (Nat.two_pow_pos d) j (by omega)

theorem Grown.le_tabLimit (hd : d ≤ 10) (hgrown : Grown (2 ^ d) size) : size ≤ tabLimit (2 ^ d) := by
  have hle := hgrown.le_size hd
  have hn := two_pow_le_of_dims hd
  obtain ⟨j, rfl⟩ := hgrown
  rcases Nat.le_total j 40 with hj | hj
  · obtain ⟨i, hi⟩ := Nat.exists_eq_add_of_le hj
    rw [tabLimit, hi, Nat.add_comm, Function.iterate_add_apply]
    exact le_iterate_nextSize (Nat.two_pow_pos d) i (by omega)
  · obtain ⟨i, rfl⟩ := Nat.exists_eq_add_of_le hj
    rw [Nat.add_comm, Function.iterate_add_apply]
    exact (Function.iterate_fixed (nextSize_tabLimit hd) i).le

theorem Grown.next (hgrown : Grown n size) : Grown n (nextSize n size) := by
  obtain ⟨j, rfl⟩ := hgrown
  exact ⟨j + 1, (Function.iterate_succ_apply' _ _ _).symm⟩

/-- The table can grow iff the largest one has room for another group. -/
theorem Grown.int_iff (hd : d ≤ 10) (hgrown : Grown (2 ^ d) size) :
    size + size / 2 ≤ INT_MAX ↔ size + 2 ^ d ≤ tabLimit (2 ^ d) := by
  have hsize := hgrown.le_size hd
  have hn := two_pow_le_of_dims hd
  have hmod := Nat.mod_lt (size + size / 2) (Nat.two_pow_pos d)
  constructor
  · intro hint
    have hnext := hgrown.next.le_tabLimit hd
    rw [nextSize] at hnext
    rw [if_pos hint] at hnext
    omega
  · intro hle
    by_contra hint
    have hfix : nextSize (2 ^ d) size = size := by
      rw [nextSize]
      exact if_neg hint
    have := eq_tabLimit_of_fixed hd hgrown hfix
    have := Nat.two_pow_pos d
    omega

end Sizes

namespace BBRing

/-- `r` holds `count` pending boxes, in groups of `n`. -/
structure Inv (n : Nat) (r : BBRing) (count : Nat) : Prop where
  npos : 0 < n
  groups : ∃ m, 4 ≤ m ∧ r.size = m * n
  head_lt : r.head < r.size
  tail_eq : r.tail = (r.head + count) % r.size
  tail_dvd : n ∣ r.tail
  room : r.head % n + count + n ≤ r.size
  grown : Grown n r.size

variable {n : Nat} {r : BBRing} {count : Nat}

/-- The pending boxes, first to be handled first. -/
def pending (r : BBRing) (count : Nat) : List BBox :=
  CircTable.contents r.tab r.size r.head count

namespace Inv

theorem size_pos (h : Inv n r count) : 0 < r.size :=
  lt_of_le_of_lt (Nat.zero_le _) h.head_lt

theorem size_dvd (h : Inv n r count) : n ∣ r.size := by
  obtain ⟨m, -, hm⟩ := h.groups
  exact ⟨m, by rw [hm, Nat.mul_comm]⟩

theorem tail_lt (h : Inv n r count) : r.tail < r.size := by
  rw [h.tail_eq]
  exact Nat.mod_lt _ h.size_pos

theorem count_lt (h : Inv n r count) : count < r.size := by
  have := h.room
  have := h.npos
  omega

/-- The table is empty iff the cursors meet. -/
theorem head_eq_tail_iff (h : Inv n r count) : r.head = r.tail ↔ count = 0 := by
  rw [h.tail_eq]
  constructor
  · intro heq
    by_contra hc
    have hne := CircTable.slot_ne r.size r.head
      (Nat.pos_of_ne_zero hc) h.count_lt
    rw [Nat.add_zero, Nat.mod_eq_of_lt h.head_lt] at hne
    exact hne heq
  · rintro rfl
    rw [Nat.add_zero, Nat.mod_eq_of_lt h.head_lt]

/-- Whether or not the occupied slots wrap around. -/
theorem tail_cases (h : Inv n r count) :
    (r.head + count < r.size ∧ r.tail = r.head + count) ∨
      (r.size ≤ r.head + count ∧ r.tail + r.size = r.head + count) := by
  have htail := h.tail_eq
  have hcount := h.count_lt
  have hhead := h.head_lt
  rcases Nat.lt_or_ge (r.head + count) r.size with hlt | hge
  · left
    rw [Nat.mod_eq_of_lt hlt] at htail
    exact ⟨hlt, htail⟩
  · right
    rw [Nat.mod_eq_sub_mod hge, Nat.mod_eq_of_lt (by omega)] at htail
    exact ⟨hge, by omega⟩

/-- The occupied slots from the start of the head's group on fill whole groups. -/
theorem dvd_used (h : Inv n r count) : n ∣ r.head % n + count := by
  have hsum : n ∣ r.head + count := by
    rcases h.tail_cases with ⟨-, ht⟩ | ⟨-, ht⟩
    · exact ht ▸ h.tail_dvd
    · exact ht ▸ (Nat.dvd_add h.tail_dvd h.size_dvd)
  have hsplit : r.head + count = (r.head % n + count) + n * (r.head / n) := by
    have := Nat.mod_add_div r.head n
    omega
  exact (Nat.dvd_add_left (Nat.dvd_mul_right n _)).1 (hsplit ▸ hsum)

/-- The test for a full table is true iff only one group is free. -/
theorem full_iff (h : Inv n r count) :
    (r.tail + n) % r.size = r.head - r.head % n ↔ r.head % n + count + n = r.size := by
  have hroom := h.room
  have hmod : r.head % n ≤ r.head := Nat.mod_le _ _
  have hhead := h.head_lt
  have hnpos := h.npos
  -- the tail, counted from the start of the group that the head is in
  have hkey : (r.tail + n) % r.size = (r.head - r.head % n + (r.head % n + count + n)) % r.size := by
    rw [h.tail_eq, Nat.mod_add_mod]
    congr 1
    omega
  rw [hkey]
  constructor
  · intro heq
    by_contra hne
    have hlt : r.head % n + count + n < r.size := by omega
    have hslot := CircTable.slot_ne r.size (r.head - r.head % n)
      (j := 0) (by omega : 0 < r.head % n + count + n) hlt
    rw [Nat.add_zero, Nat.mod_eq_of_lt (by omega)] at hslot
    exact hslot heq.symm
  · intro heq
    rw [heq, Nat.add_mod_right, Nat.mod_eq_of_lt (by omega)]

/-! ## The moves -/

theorem advance (h : Inv n r (count + 1)) : Inv n r.advance count where
  npos := h.npos
  groups := h.groups
  head_lt := Nat.mod_lt _ h.size_pos
  tail_eq := by
    have ht := h.tail_eq
    simp only [BBRing.advance]
    rw [ht, Nat.mod_add_mod]
    congr 1
    omega
  tail_dvd := h.tail_dvd
  room := by
    have hroom := h.room
    have hle : (r.head + 1) % r.size % n ≤ r.head % n + 1 := by
      rw [Nat.mod_mod_of_dvd _ h.size_dvd, Nat.add_mod]
      refine (Nat.mod_le _ _).trans ?_
      exact Nat.add_le_add_left (Nat.mod_le _ _) _
    simp only [BBRing.advance]
    omega
  grown := h.grown

theorem pending_advance (h : Inv n r (count + 1)) :
    r.pending (count + 1) = r.tab r.head :: r.advance.pending count := by
  rw [pending, CircTable.contents_succ, Nat.mod_eq_of_lt h.head_lt]
  rfl

/-- The slots `push` writes are the `n` slots behind the last occupied one. -/
theorem slot_behind (h : Inv n r count) {k : Nat} (hk : k < n) :
    (r.head + (count + k)) % r.size = r.tail + k := by
  obtain ⟨q, hq⟩ := h.tail_dvd
  obtain ⟨m, -, hm⟩ := h.groups
  have hlt : r.tail + k < r.size := by
    have htail := h.tail_lt
    rw [hq, hm, Nat.mul_comm m n] at htail
    have hqm : q + 1 ≤ m := Nat.lt_of_mul_lt_mul_left htail
    have := Nat.mul_le_mul_left n hqm
    rw [Nat.mul_add, Nat.mul_one] at this
    rw [hq, hm, Nat.mul_comm m n]
    omega
  rw [← Nat.add_assoc, ← Nat.mod_add_mod, ← h.tail_eq, Nat.mod_eq_of_lt hlt]

theorem push (h : Inv n r count) (hroom : r.head % n + count + n + n ≤ r.size)
    (bs : Nat → BBox) : Inv n (r.push n bs) (count + n) where
  npos := h.npos
  groups := h.groups
  head_lt := h.head_lt
  tail_eq := by
    simp only [BBRing.push]
    rw [h.tail_eq, Nat.mod_add_mod]
    congr 1
    omega
  tail_dvd := by
    simp only [BBRing.push]
    exact (Nat.dvd_mod_iff h.size_dvd).2 (Nat.dvd_add h.tail_dvd (Nat.dvd_refl n))
  room := by
    simp only [BBRing.push]
    omega
  grown := h.grown

theorem pending_push (h : Inv n r count) (hroom : r.head % n + count + n + n ≤ r.size)
    (bs : Nat → BBox) :
    (r.push n bs).pending (count + n) = r.pending count ++ (List.range n).map bs := by
  have hnpos := h.npos
  refine CircTable.contents_append (fun k hk => ?_) fun k hk => ?_
  · -- an occupied slot is none of the written ones
    have hout : ¬(r.tail ≤ (r.head + k) % r.size ∧ (r.head + k) % r.size < r.tail + n) := by
      rintro ⟨hle, hlt⟩
      obtain ⟨j, hj⟩ := Nat.exists_eq_add_of_le hle
      have hbehind := h.slot_behind (k := j) (by omega)
      have hne := CircTable.slot_ne r.size r.head
        (j := k) (k := count + j) (by omega) (by omega)
      exact hne (by rw [hbehind, hj])
    simp only [BBRing.push, hout, if_false]
  · simp only [BBRing.push]
    rw [h.slot_behind hk]
    simp [hk]

/-- Growing a full table keeps the pending boxes and makes room for another group. -/
theorem moved (h : Inv n r count) (hfull : r.head % n + count + n = r.size)
    (hint : r.size + r.size / 2 ≤ INT_MAX) :
    Inv n (r.moved n) count ∧ (r.moved n).pending count = r.pending count ∧
      (r.moved n).head % n + count + n + n ≤ (r.moved n).size ∧
      (r.moved n).head % n = r.head % n ∧
      (0 < count → (r.moved n).tab (r.moved n).head = r.tab r.head) := by
  obtain ⟨m, hm4, hm⟩ := h.groups
  have hnpos := h.npos
  have hhead := h.head_lt
  have hmodlt : r.head % n < n := Nat.mod_lt _ hnpos
  have hmodle : r.head % n ≤ r.head := Nat.mod_le _ _
  -- the new size is a multiple of `n`, at least two groups larger
  have hsize : ∃ m', m + 2 ≤ m' ∧ (r.moved n).size = m' * n := by
    refine ⟨(r.size + r.size / 2) / n, ?_, ?_⟩
    · refine (Nat.le_div_iff_mul_le hnpos).2 ?_
      have h4 : 4 * n ≤ m * n := Nat.mul_le_mul_right n hm4
      rw [Nat.add_mul, ← hm]
      omega
    · have := Nat.div_add_mod (r.size + r.size / 2) n
      simp only [BBRing.moved]
      rw [Nat.mul_comm]
      omega
  obtain ⟨m', hm', hsize'⟩ := hsize
  have hbig : r.size + 2 * n ≤ (r.moved n).size := by
    have := Nat.mul_le_mul_right n hm'
    rw [Nat.add_mul, ← hm, ← hsize'] at this
    exact this
  have hheadEq : (r.moved n).head = r.head % n := rfl
  -- where the occupied slots go
  have htab : ∀ k < count, (r.moved n).tab (r.head % n + k) = r.tab ((r.head + k) % r.size) := by
    intro k hk
    have htailLt := h.tail_lt
    simp only [BBRing.moved]
    rcases h.tail_cases with ⟨hlt, ht⟩ | ⟨hge, ht⟩
    · have hgt : r.tail > r.head := by omega
      have hin : r.head % n + k < r.tail - (r.head - r.head % n) := by omega
      have hslot : (r.head + k) % r.size = r.head + k := Nat.mod_eq_of_lt (by omega)
      rw [if_pos hgt, if_pos hin, hslot]
      congr 1
      omega
    · have hngt : ¬r.tail > r.head := by omega
      rw [if_neg hngt]
      by_cases hin : r.head % n + k < r.size - (r.head - r.head % n)
      · have hslot : (r.head + k) % r.size = r.head + k := Nat.mod_eq_of_lt (by omega)
        rw [if_pos hin, hslot]
        congr 1
        omega
      · have hin' : r.head % n + k < r.size - (r.head - r.head % n) + r.tail := by omega
        have hslot : (r.head + k) % r.size = r.head + k - r.size := by
          rw [Nat.mod_eq_sub_mod (by omega)]
          exact Nat.mod_eq_of_lt (by omega)
        rw [if_neg hin, if_pos hin', hslot]
        congr 1
        omega
  refine ⟨⟨hnpos, ⟨m', by omega, hsize'⟩, ?_, ?_, ?_, ?_, ?_⟩, ?_, ?_, Nat.mod_mod _ _, ?_⟩
  · rw [hheadEq]
    omega
  · have hslot : (r.head % n + count) % (r.moved n).size = r.head % n + count :=
      Nat.mod_eq_of_lt (by omega)
    rw [hheadEq, hslot]
    simp only [BBRing.moved]
    omega
  · simp only [BBRing.moved]
    exact Nat.dvd_sub h.size_dvd (Nat.dvd_refl n)
  · rw [hheadEq, Nat.mod_mod]
    omega
  · have hnext := h.grown.next
    rw [nextSize] at hnext
    rwa [if_pos hint] at hnext
  · refine CircTable.contents_congr fun k hk => ?_
    have hslot : (r.head % n + k) % (r.moved n).size = r.head % n + k :=
      Nat.mod_eq_of_lt (by omega)
    rw [hheadEq, hslot]
    exact htab k hk
  · rw [hheadEq, Nat.mod_mod]
    omega
  · intro hpos
    have := htab 0 hpos
    rw [Nat.add_zero, Nat.add_zero, Nat.mod_eq_of_lt hhead] at this
    rw [hheadEq]
    exact this

/-- If one group is not all that is free, by divisibility a whole further group is. -/
theorem room_of_ne (h : Inv n r count) (hne : r.head % n + count + n ≠ r.size) :
    r.head % n + count + n + n ≤ r.size := by
  obtain ⟨a, ha⟩ := h.dvd_used
  obtain ⟨m, -, hm⟩ := h.groups
  have hle := h.room
  rw [ha, hm] at hle hne ⊢
  have hlt : n * (a + 1) < n * m := by
    rw [Nat.mul_add, Nat.mul_one, Nat.mul_comm n m]
    omega
  have hlt' : a + 1 + 1 ≤ m := Nat.lt_of_mul_lt_mul_left hlt
  have := Nat.mul_le_mul_left n hlt'
  rw [Nat.mul_add, Nat.mul_add, Nat.mul_one, Nat.mul_comm n m] at this
  exact this

/-- Dividing the box at the head puts its parts behind the pending boxes, if the table has room or can
grow. -/
theorem divide {d : ℕ} (hd : d ≤ 10) (hn : n = 2 ^ d) (h : Inv n r count) (hpos : 0 < count)
    (hfits : r.head % n + count + n + n ≤ tabLimit n) :
    ∃ r', r.divide n = some r' ∧ Inv n r' (count + n) ∧
      r'.pending (count + n) = r.pending count ++ (List.range n).map (bboxDivideNth (r.tab r.head)) ∧
      r'.head % n = r.head % n := by
  by_cases hfull : (r.tail + n) % r.size = r.head - r.head % n
  · have hroom := h.full_iff.1 hfull
    have hint : r.size + r.size / 2 ≤ INT_MAX := by
      subst hn
      exact (h.grown.int_iff hd).2 (by omega)
    obtain ⟨hinv, hpend, hroom', hoffset, hhead⟩ := h.moved hroom hint
    refine ⟨_, by rw [BBRing.divide, if_pos hfull, BBRing.grow, if_pos hint, Option.map_some],
      hinv.push hroom' _, ?_, hoffset⟩
    rw [hinv.pending_push hroom', hpend, hhead hpos]
  · refine ⟨_, by rw [BBRing.divide, if_neg hfull, Option.map_some], ?_⟩
    have hroom := h.room_of_ne fun heq => hfull (h.full_iff.2 heq)
    exact ⟨h.push hroom _, h.pending_push hroom _, rfl⟩

/-- A full table of the largest size ends the run. -/
theorem divide_eq_none {d : ℕ} (hd : d ≤ 10) (hn : n = 2 ^ d) (h : Inv n r count)
    (hfits : ¬ r.head % n + count + n + n ≤ tabLimit n) : r.divide n = none := by
  have hle : r.size ≤ tabLimit n := by
    subst hn
    exact h.grown.le_tabLimit hd
  -- otherwise another group would fit into this table
  have hfull : r.head % n + count + n = r.size := by
    by_contra hne
    exact hfits ((h.room_of_ne hne).trans hle)
  have hint : ¬ r.size + r.size / 2 ≤ INT_MAX := by
    subst hn
    rw [h.grown.int_iff hd]
    omega
  rw [BBRing.divide, if_pos (h.full_iff.2 hfull), BBRing.grow, if_neg hint, Option.map_none]

end Inv
end BBRing

/-! ## The table of intervals -/

section IntvTab

variable {γ : Type} {t : IntvTab γ}

/-- The entries fit into a size that the table has at some time. -/
structure IntvTab.Inv (t : IntvTab γ) : Prop where
  room : t.iTab.length ≤ t.iSize
  grown : Grown 1 t.iSize

theorem intvTabInit_inv : (intvTabInit γ).Inv :=
  ⟨Nat.zero_le _, 0, rfl⟩

theorem IntvTab.Inv.push (h : t.Inv) (itv : γ) (hfits : t.iTab.length + 1 ≤ tabLimit 1) :
    ∃ t', t.push itv = some t' ∧ t'.iTab = t.iTab ++ [itv] ∧ t'.Inv := by
  have hroom := h.room
  rw [IntvTab.push]
  by_cases hfull : t.iTab.length = t.iSize
  · have hint : t.iSize + t.iSize / 2 ≤ INT_MAX := by
      refine (Grown.int_iff (d := 0) (by omega) h.grown).2 ?_
      rw [Nat.pow_zero]
      omega
    rw [if_pos hfull, if_pos hint]
    have hnext := h.grown.next
    rw [nextSize] at hnext
    rw [if_pos hint, Nat.mod_one, Nat.sub_zero] at hnext
    have hsize := Grown.le_size (d := 0) (by omega) h.grown
    refine ⟨_, rfl, rfl, ?_, hnext⟩
    change (t.iTab ++ [itv]).length ≤ t.iSize + t.iSize / 2
    rw [List.length_append, List.length_singleton]
    omega
  · rw [if_neg hfull]
    refine ⟨_, rfl, rfl, ?_, h.grown⟩
    change (t.iTab ++ [itv]).length ≤ t.iSize
    rw [List.length_append, List.length_singleton]
    omega

theorem IntvTab.Inv.push_eq_none (h : t.Inv) (itv : γ) (hfits : ¬ t.iTab.length + 1 ≤ tabLimit 1) :
    t.push itv = none := by
  have hroom := h.room
  have hle := Grown.le_tabLimit (d := 0) (by omega) h.grown
  rw [Nat.pow_zero] at hle
  have hint : ¬ t.iSize + t.iSize / 2 ≤ INT_MAX := by
    intro hint
    have := (Grown.int_iff (d := 0) (by omega) h.grown).1 hint
    rw [Nat.pow_zero] at this
    omega
  rw [IntvTab.push, if_pos (by omega), if_neg hint]

end IntvTab

/-! ## One turn of the loops -/

/-- What a turn of the loop of `bbox_to_intv` does to the queue: the first candidate leaves it, and
the parts of one that straddles the boundary of `bb` enter. -/
def queueTurn (bb : BBox) : List BBox → List BBox
  | [] => []
  | pbb :: qCan =>
      if bboxInclude bb pbb then qCan
      else if bboxDoesIntersect bb pbb then qCan ++ bboxDivide pbb
      else qCan

theorem queueTurn_cons (bb pbb : BBox) (qCan : List BBox) :
    queueTurn bb (pbb :: qCan) = qCan ++ cutParts bb pbb := by
  rw [queueTurn]
  by_cases hincl : bboxInclude bb pbb = true
  · rw [if_pos hincl, cutParts_of_include hincl, List.append_nil]
  · rw [if_neg hincl]
    by_cases hmeet : bboxDoesIntersect bb pbb = true
    · rw [if_pos hmeet, cutParts_of_meet hincl hmeet]
    · rw [if_neg hmeet, cutParts_of_miss hmeet, List.append_nil]

/-- The boxes from `bb_head` up to `bb_tail`. -/
def BBRing.waiting (r : BBRing) : List BBox :=
  r.pending ((r.tail + r.size - r.head) % r.size)

/-- The cursors tell how many boxes are pending. -/
theorem BBRing.Inv.waiting_eq {n count : ℕ} {r : BBRing} (h : BBRing.Inv n r count) :
    r.waiting = r.pending count := by
  have hhead := h.head_lt
  have hcount := h.count_lt
  have hdist : (r.tail + r.size - r.head) % r.size = count := by
    rcases h.tail_cases with ⟨hlt, ht⟩ | ⟨hge, ht⟩
    · have hsum : r.tail + r.size - r.head = count + r.size := by omega
      rw [hsum, Nat.add_mod_right, Nat.mod_eq_of_lt hcount]
    · have hsum : r.tail + r.size - r.head = count := by omega
      rw [hsum, Nat.mod_eq_of_lt hcount]
  rw [BBRing.waiting, hdist]

section Turn

variable {γ : Type} (emit : BBox → γ) (bb : BBox)

/-- The tables hold the queue of a subdivision in which `done` was looked at. -/
structure RingHolds (s : BBRing × IntvTab γ) (queue done : List BBox) : Prop where
  inv : BBRing.Inv (2 ^ bb.numDims) s.1 queue.length
  pending : s.1.pending queue.length = queue
  dims : ∀ b ∈ queue, b.numDims = bb.numDims
  offset : s.1.head % 2 ^ bb.numDims = (done.length + 2 ^ bb.numDims - 1) % 2 ^ bb.numDims
  iTab : s.2.Inv
  count : s.2.iTab.length = done.countP (bboxInclude bb)

/-- The tables have room for what a turn does with the first of the queue. -/
def TurnFits (b : BBox) (queue done : List BBox) : Prop :=
  (bboxInclude bb b = true → done.countP (bboxInclude bb) + 1 ≤ tabLimit 1) ∧
    (straddles bb b = true → (done.length + 2 ^ bb.numDims - 1) % 2 ^ bb.numDims + (queue.length + 1) +
      2 ^ bb.numDims + 2 ^ bb.numDims ≤ tabLimit (2 ^ bb.numDims))

variable {emit bb} {s : BBRing × IntvTab γ} {b : BBox} {queue done : List BBox}

theorem RingHolds.head_eq_tail_iff (h : RingHolds bb s queue done) : s.1.head = s.1.tail ↔ queue = [] := by
  rw [h.inv.head_eq_tail_iff, List.length_eq_zero_iff]

theorem RingHolds.head (h : RingHolds bb s (b :: queue) done) :
    s.1.tab s.1.head = b ∧ s.1.advance.pending queue.length = queue := by
  have hpend := h.inv.pending_advance
  have hqueue : s.1.pending (queue.length + 1) = b :: queue := h.pending
  rw [hqueue] at hpend
  exact ⟨(List.cons_eq_cons.1 hpend).1.symm, (List.cons_eq_cons.1 hpend).2.symm⟩

/-- The head moves on by one slot. -/
theorem offset_advance {n count : ℕ} {r : BBRing} (h : BBRing.Inv n r count) {k : ℕ}
    (hoffset : r.head % n = (k + n - 1) % n) : r.advance.head % n = (k + 1 + n - 1) % n := by
  have hn := h.npos
  have hk : k + 1 + n - 1 = k + n - 1 + 1 := by omega
  rw [BBRing.advance, Nat.mod_mod_of_dvd _ h.size_dvd, hk, Nat.add_mod, hoffset, ← Nat.add_mod]

/-- A turn on the tables is a turn of the subdivision, if there is room. -/
theorem RingHolds.turn (emit : BBox → γ) (hd : bb.numDims ≤ BBOX_MAX_NDIM) (h : RingHolds bb s (b :: queue) done)
    (hfits : TurnFits bb b queue done) :
    ∃ s', bboxToIntv2Turn emit bb (2 ^ bb.numDims) s = some s' ∧ s'.2.iTab = s.2.iTab ++ emitted emit bb b ∧
      RingHolds bb s' (queue ++ cutParts bb b) (done ++ [b]) := by
  obtain ⟨hhead, hrest⟩ := h.head
  have hoffset := offset_advance h.inv h.offset
  have hdims : ∀ b' ∈ queue, b'.numDims = bb.numDims := fun b' hb' => h.dims b' (List.mem_cons_of_mem _ hb')
  rw [bboxToIntv2Turn, hhead, emitted]
  by_cases hincl : bboxInclude bb b = true
  · obtain ⟨iTab, hpush, hiTab, hinv⟩ := h.iTab.push (emit b) (by rw [h.count]; exact hfits.1 hincl)
    refine ⟨(s.1.advance, iTab), by simp only [hincl, if_true, hpush, Option.map_some],
      by rw [if_pos hincl, hiTab], ?_⟩
    rw [cutParts_of_include hincl, List.append_nil]
    refine ⟨h.inv.advance, hrest, hdims, by simpa using hoffset, hinv, ?_⟩
    rw [hiTab, List.length_append, h.count, List.countP_append]
    simp [hincl]
  · have hkept : ∀ {r : BBRing}, ((r, s.2) : BBRing × IntvTab γ).2.iTab.length =
        (done ++ [b]).countP (bboxInclude bb) := by
      intro r
      rw [List.countP_append, h.count]
      simp [hincl]
    by_cases hmeet : bboxDoesIntersect bb b = true
    · have hstraddles : straddles bb b = true := by simp [straddles, hincl, hmeet]
      have hroom := hfits.2 hstraddles
      have hbdims := h.dims b List.mem_cons_self
      obtain ⟨r', hdivide, hinv, hpush, hoffset'⟩ := h.inv.divide hd rfl (Nat.succ_pos _)
        (by rw [h.offset]; exact hroom)
      have hinv' : BBRing.Inv (2 ^ bb.numDims) r' (queue.length + 2 ^ bb.numDims + 1) := by
        rw [List.length_cons, Nat.add_right_comm] at hinv
        exact hinv
      -- the box at the head is divided before it is taken off the table, in the list after it
      have hq : r'.advance.pending (queue ++ cutParts bb b).length = queue ++ cutParts bb b := by
        have hcons := hinv'.pending_advance
        rw [Nat.add_right_comm, ← List.length_cons (a := b), hpush, h.pending, hhead, List.cons_append] at hcons
        have htail := (List.cons_eq_cons.1 hcons).2
        rw [cutParts_of_meet hincl hmeet, List.length_append, length_bboxDivide, hbdims, ← htail, bboxDivide,
          hbdims]
      refine ⟨(r'.advance, s.2), by simp only [hincl, hmeet, if_true, if_false, Bool.false_eq_true, hdivide,
        Option.map_some], by rw [if_neg hincl, List.append_nil], ?_, hq, ?_, ?_, h.iTab, hkept⟩
      · rw [cutParts_of_meet hincl hmeet, List.length_append, length_bboxDivide, hbdims]
        exact hinv'.advance
      · intro b' hb'
        rcases List.mem_append.1 hb' with hb' | hb'
        · exact hdims b' hb'
        · rw [cutParts_of_meet hincl hmeet] at hb'
          exact (numDims_of_mem_bboxDivide hb').trans hbdims
      · rw [List.length_append, List.length_singleton]
        exact offset_advance hinv' (hoffset'.trans h.offset)
    · refine ⟨(s.1.advance, s.2), by simp only [hincl, hmeet, if_false, Bool.false_eq_true],
        by rw [if_neg hincl, List.append_nil], ?_⟩
      rw [cutParts_of_miss hmeet, List.append_nil]
      exact ⟨h.inv.advance, hrest, hdims, by simpa using hoffset, h.iTab, hkept⟩

/-- Without room there is no turn. -/
theorem RingHolds.turn_eq_none (hd : bb.numDims ≤ BBOX_MAX_NDIM) (h : RingHolds bb s (b :: queue) done)
    (hfits : ¬ TurnFits bb b queue done) : bboxToIntv2Turn emit bb (2 ^ bb.numDims) s = none := by
  obtain ⟨hhead, -⟩ := h.head
  rw [TurnFits, not_and_or, Classical.not_imp, Classical.not_imp] at hfits
  rw [bboxToIntv2Turn, hhead]
  rcases hfits with ⟨hincl, hfull⟩ | ⟨hstraddles, hfull⟩
  · have hpush := h.iTab.push_eq_none (emit b) (by rw [h.count]; exact hfull)
    simp only [hincl, if_true, hpush, Option.map_none]
  · rw [straddles, Bool.and_eq_true, Bool.not_eq_true'] at hstraddles
    have hdivide := h.inv.divide_eq_none hd rfl (by rw [h.offset]; exact hfull)
    simp only [hstraddles.1, hstraddles.2, if_true, if_false, Bool.false_eq_true, hdivide, Option.map_none]

end Turn

/-! ## The loop -/

section Loop

variable {γ : Type} {emit : BBox → γ} {bb : BBox}

/-- The tables have room in all turns of a run. -/
def RingRuns (bb : BBox) (queue done : List BBox) : Prop :=
  ∀ t b queue' done', (Layers.turn (cutParts bb))^[t] (queue, done) = (b :: queue', done') →
    TurnFits bb b queue' done'

theorem ringRuns_nil {done : List BBox} : RingRuns bb [] done := by
  intro t b queue' done' h
  rw [Layers.iterate_turn_nil] at h
  cases h

theorem ringRuns_cons {b : BBox} {queue done : List BBox} :
    RingRuns bb (b :: queue) done ↔
      TurnFits bb b queue done ∧ RingRuns bb (queue ++ cutParts bb b) (done ++ [b]) := by
  constructor
  · intro h
    refine ⟨h 0 b queue done rfl, fun t b' queue' done' hturn => h (t + 1) b' queue' done' ?_⟩
    rw [Function.iterate_succ_apply, Layers.turn_cons, hturn]
  · rintro ⟨h0, h⟩ t b' queue' done' hturn
    cases t with
    | zero =>
        cases hturn
        exact h0
    | succ t =>
        rw [Function.iterate_succ_apply, Layers.turn_cons] at hturn
        exact h t b' queue' done' hturn

/-- A sub-cube that does not meet the box takes no room. -/
theorem ringRuns_of_miss {b : BBox} (hincl : ¬ bboxInclude bb b = true)
    (hmiss : ¬ bboxDoesIntersect bb b = true) : RingRuns bb [b] [] := by
  refine ringRuns_cons.2 ⟨⟨fun h => absurd h hincl, fun h => ?_⟩, ?_⟩
  · simp [straddles, hmiss] at h
  · rw [cutParts_of_miss hmiss]
    exact ringRuns_nil

/-- The loop of `bbox_to_intv2` does what the subdivision does, as long as the tables have room. -/
theorem bboxToIntv2Loop_eq_some (hd : bb.numDims ≤ BBOX_MAX_NDIM) (fuel : ℕ) :
    ∀ {s : BBRing × IntvTab γ} {queue done : List BBox} {r : List γ}, RingHolds bb s queue done →
      (bboxToIntv2Loop emit bb (2 ^ bb.numDims) fuel s = some r ↔
        cutLoop emit bb fuel queue s.2.iTab = some r ∧ RingRuns bb queue done) := by
  induction fuel with
  | zero =>
      intro s queue done r h
      rw [bboxToIntv2Loop]
      cases queue with
      | nil => simp [h.head_eq_tail_iff, cutLoop, ringRuns_nil]
      | cons b queue => simp [h.head_eq_tail_iff, cutLoop]
  | succ fuel ih =>
      intro s queue done r h
      rw [bboxToIntv2Loop]
      cases queue with
      | nil => simp [h.head_eq_tail_iff, cutLoop, ringRuns_nil]
      | cons b queue =>
          rw [if_neg (by simp [h.head_eq_tail_iff]), cutLoop, ringRuns_cons]
          by_cases hfits : TurnFits bb b queue done
          · obtain ⟨s', hturn, hiTab, h'⟩ := h.turn emit hd hfits
            rw [hturn, Option.bind_some, ih h', hiTab, and_iff_right hfits]
          · rw [h.turn_eq_none hd hfits, Option.bind_none]
            exact iff_of_false (by simp) fun hr => hfits hr.2.1

/-- The tables after `t` turns. -/
def ringAfter (emit : BBox → γ) (bb : BBox) (dimVirt : UInt64) : ℕ → Option (BBRing × IntvTab γ)
  | 0 => some (bbRingInit bb.numDims dimVirt, intvTabInit γ)
  | t + 1 => (ringAfter emit bb dimVirt t).bind fun s =>
      if s.1.head = s.1.tail then some s else bboxToIntv2Turn emit bb (2 ^ bb.numDims) s

/-- The table that `bbox_to_intv2` starts from holds the virtual cube. -/
theorem bbRingInit_inv {numDims : Nat} (dimVirt : UInt64) (hdims : numDims ≤ BBOX_MAX_NDIM) :
    BBRing.Inv (2 ^ numDims) (bbRingInit numDims dimVirt) 1 := by
  have hten : numDims ≤ 10 := hdims
  have hpos : 0 < 2 ^ numDims := Nat.two_pow_pos _
  -- the table has room for four divisions at least, and its size is a multiple of what one adds
  have hsplit : 4096 = 2 ^ (12 - numDims) * 2 ^ numDims := by
    rw [← Nat.pow_add, Nat.sub_add_cancel (by omega)]
  have hquarter : 4 ≤ 2 ^ (12 - numDims) := by
    calc 4 = 2 ^ 2 := rfl
      _ ≤ 2 ^ (12 - numDims) := Nat.pow_le_pow_right (by norm_num) (by omega)
  have hlast : 4095 % 2 ^ numDims = 2 ^ numDims - 1 := by
    have : 4095 = (2 ^ numDims - 1) + 2 ^ numDims * (2 ^ (12 - numDims) - 1) := by
      rw [Nat.mul_sub, Nat.mul_one, Nat.mul_comm, ← hsplit]
      have : 2 ^ numDims ≤ 4096 := by
        rw [hsplit]
        exact Nat.le_mul_of_pos_left _ (by omega)
      omega
    rw [this, Nat.add_mul_mod_self_left, Nat.mod_eq_of_lt (by omega)]
  refine ⟨hpos, ⟨_, hquarter, hsplit⟩, ?_, ?_, ?_, ?_, ⟨0, rfl⟩⟩
  · simp [bbRingInit]
  · simp [bbRingInit]
  · simp [bbRingInit]
  · have h4 := Nat.mul_le_mul_right (2 ^ numDims) hquarter
    rw [← hsplit] at h4
    simp only [bbRingInit, hlast]
    omega

theorem ringHolds_init (dimVirt : UInt64) (hdims : bb.numDims ≤ BBOX_MAX_NDIM) :
    RingHolds bb (bbRingInit bb.numDims dimVirt, intvTabInit γ) [bbVirt bb.numDims dimVirt] [] := by
  have hinv := bbRingInit_inv dimVirt hdims
  refine ⟨hinv, rfl, fun b hb => by rw [List.mem_singleton.1 hb]; rfl, ?_, intvTabInit_inv, rfl⟩
  -- the last slot is the last of its group
  have hoffset : 4095 % 2 ^ bb.numDims + 1 + 2 ^ bb.numDims ≤ 4096 := hinv.room
  have hgroup : 2 ^ bb.numDims ∣ 4095 % 2 ^ bb.numDims + 1 := hinv.dvd_used
  have hpos := Nat.two_pow_pos bb.numDims
  have hlt := Nat.mod_lt 4095 hpos
  have hle := Nat.le_of_dvd (Nat.succ_pos _) hgroup
  change 4095 % 2 ^ bb.numDims = (0 + 2 ^ bb.numDims - 1) % 2 ^ bb.numDims
  rw [Nat.mod_eq_of_lt (a := 0 + 2 ^ bb.numDims - 1) (by omega)]
  omega

/-- Turn by turn the tables hold the queue of the subdivision, as long as they have room. -/
theorem RingHolds.of_ringAfter {dimVirt : UInt64} (hdims : bb.numDims ≤ BBOX_MAX_NDIM) (t : ℕ) :
    ∀ {s : BBRing × IntvTab γ}, ringAfter emit bb dimVirt t = some s →
      RingHolds bb s ((Layers.turn (cutParts bb))^[t] ([bbVirt bb.numDims dimVirt], [])).1
        ((Layers.turn (cutParts bb))^[t] ([bbVirt bb.numDims dimVirt], [])).2 := by
  induction t with
  | zero =>
      intro s hs
      cases hs
      exact ringHolds_init dimVirt hdims
  | succ t ih =>
      intro s' hs'
      obtain ⟨s, hs, hturn⟩ := Option.bind_eq_some_iff.1 hs'
      have h := ih hs
      rw [Function.iterate_succ_apply']
      generalize (Layers.turn (cutParts bb))^[t] ([bbVirt bb.numDims dimVirt], []) = state at h
      obtain ⟨queue, done⟩ := state
      cases queue with
      | nil =>
          rw [if_pos (h.head_eq_tail_iff.2 rfl)] at hturn
          cases hturn
          exact h
      | cons b queue =>
          rw [if_neg (by simp [h.head_eq_tail_iff])] at hturn
          by_cases hfits : TurnFits bb b queue done
          · obtain ⟨s₁, hs₁, -, h'⟩ := h.turn emit hdims hfits
            rw [hs₁] at hturn
            cases hturn
            exact h'
          · rw [h.turn_eq_none hdims hfits] at hturn
            cases hturn

/-- No turn overflows exactly when there is room in all of them. -/
theorem ringAfter_isSome_iff (emit : BBox → γ) {dimVirt : UInt64} (hdims : bb.numDims ≤ BBOX_MAX_NDIM) :
    (∀ t, (ringAfter emit bb dimVirt t).isSome) ↔ RingRuns bb [bbVirt bb.numDims dimVirt] [] := by
  constructor
  · intro h t b queue done hturn
    obtain ⟨s, hs⟩ := Option.isSome_iff_exists.1 (h t)
    have hholds := RingHolds.of_ringAfter hdims t hs
    rw [hturn] at hholds
    by_contra hfits
    have hnext := h (t + 1)
    rw [ringAfter, hs, Option.bind_some, if_neg (by simp [hholds.head_eq_tail_iff]),
      hholds.turn_eq_none hdims hfits] at hnext
    cases hnext
  · intro hruns t
    induction t with
    | zero => rfl
    | succ t ih =>
        obtain ⟨s, hs⟩ := Option.isSome_iff_exists.1 ih
        have h := RingHolds.of_ringAfter hdims t hs
        have hfits := hruns t
        rw [ringAfter, hs, Option.bind_some]
        generalize (Layers.turn (cutParts bb))^[t] ([bbVirt bb.numDims dimVirt], []) = state at h hfits
        obtain ⟨queue, done⟩ := state
        cases queue with
        | nil =>
            rw [if_pos (h.head_eq_tail_iff.2 rfl)]
            rfl
        | cons b queue =>
            rw [if_neg (by simp [h.head_eq_tail_iff])]
            obtain ⟨s', hturn, -, -⟩ := h.turn emit hdims (hfits b queue done rfl)
            rw [hturn]
            rfl

/-- Without the numbers of handled sub-cubes the turns are those of the linked queue. -/
theorem iterate_queueTurn (t : ℕ) : ∀ queue done : List BBox,
    (queueTurn bb)^[t] queue = ((Layers.turn (cutParts bb))^[t] (queue, done)).1 := by
  induction t with
  | zero =>
      intro queue done
      rfl
  | succ t ih =>
      intro queue done
      rw [Function.iterate_succ_apply, Function.iterate_succ_apply]
      cases queue with
      | nil => exact ih [] done
      | cons b queue =>
          rw [queueTurn_cons, Layers.turn_cons]
          exact ih _ _

/-- So the boxes between the cursors are those of the linked queue. -/
theorem ringAfter_waiting {dimVirt : UInt64} (hdims : bb.numDims ≤ BBOX_MAX_NDIM)
    (hruns : RingRuns bb [bbVirt bb.numDims dimVirt] []) (t : ℕ) :
    ∃ s, ringAfter emit bb dimVirt t = some s ∧
      s.1.waiting = (queueTurn bb)^[t] [bbVirt bb.numDims dimVirt] := by
  obtain ⟨s, hs⟩ := Option.isSome_iff_exists.1 ((ringAfter_isSome_iff emit hdims).2 hruns t)
  have h := RingHolds.of_ringAfter hdims t hs
  refine ⟨s, hs, ?_⟩
  rw [h.inv.waiting_eq, h.pending, iterate_queueTurn t _ []]

/-- Whether the tables have room is seen from the sub-cubes. -/
theorem ringRuns_iff {m : ℕ} {root : BBox} (hdims : root.numDims = bb.numDims)
    (hend : Layers.layer (cutParts bb) (m + 1) [root] = []) :
    RingRuns bb [root] [] ↔
      (∀ pre b suf, Layers.order (cutParts bb) (m + 1) [root] = pre ++ b :: suf → straddles bb b = true →
        2 ^ bb.numDims * (pre.countP (straddles bb) + 3) ≤ tabLimit (2 ^ bb.numDims) +
          2 ^ bb.numDims * ((pre.length + 2 ^ bb.numDims - 1) / 2 ^ bb.numDims)) ∧
        (Layers.order (cutParts bb) (m + 1) [root]).countP (bboxInclude bb) ≤ tabLimit 1 := by
  have hpos := Nat.two_pow_pos bb.numDims
  -- the groups in use, in slots and in groups
  have hslots : ∀ {pre suf queue : List BBox}, Layers.order (cutParts bb) (m + 1) [root] = pre ++ suf →
      queue.length + 1 + pre.length = [root].length + (pre.flatMap (cutParts bb)).length →
      ((pre.length + 2 ^ bb.numDims - 1) % 2 ^ bb.numDims + (queue.length + 1) + 2 ^ bb.numDims +
          2 ^ bb.numDims ≤ tabLimit (2 ^ bb.numDims) ↔
        2 ^ bb.numDims * (pre.countP (straddles bb) + 3) ≤ tabLimit (2 ^ bb.numDims) +
          2 ^ bb.numDims * ((pre.length + 2 ^ bb.numDims - 1) / 2 ^ bb.numDims)) := by
    intro pre suf queue horder hlength
    have hparts : (pre.flatMap (cutParts bb)).length = 2 ^ bb.numDims * pre.countP (straddles bb) := by
      refine length_flatMap_cutParts fun b hb => ?_
      have hroot : ∀ b ∈ [root], b.numDims = bb.numDims := fun b hb => by rw [List.mem_singleton.1 hb, hdims]
      exact numDims_of_mem_order (m + 1) hroot b (by rw [horder]; simp [hb])
    have hsplit := Nat.mod_add_div (pre.length + 2 ^ bb.numDims - 1) (2 ^ bb.numDims)
    rw [hparts, List.length_singleton] at hlength
    rw [Nat.mul_add]
    omega
  constructor
  · intro h
    have hturn : ∀ {pre b suf}, Layers.order (cutParts bb) (m + 1) [root] = pre ++ b :: suf →
        ∃ queue, TurnFits bb b queue pre ∧
          queue.length + 1 + pre.length = [root].length + (pre.flatMap (cutParts bb)).length := by
      intro pre b suf horder
      obtain ⟨queue, hturn, hhead, hlength⟩ := Layers.iterate_length hend horder
      cases queue with
      | nil => cases hhead
      | cons b' queue =>
          obtain rfl : b' = b := by simpa using hhead
          exact ⟨queue, h _ _ _ _ hturn, hlength⟩
    refine ⟨fun pre b suf horder hstraddles => ?_, ?_⟩
    · obtain ⟨queue, hfits, hlength⟩ := hturn horder
      exact (hslots horder hlength).1 (hfits.2 hstraddles)
    · -- up to any sub-cube the intervals fit
      have hprefix : ∀ pre suf, Layers.order (cutParts bb) (m + 1) [root] = pre ++ suf →
          pre.countP (bboxInclude bb) ≤ tabLimit 1 := by
        intro pre
        induction pre using List.reverseRecOn with
        | nil => exact fun _ _ => Nat.zero_le _
        | append_singleton pre b ih =>
            intro suf horder
            rw [List.append_assoc] at horder
            obtain ⟨queue, hfits, -⟩ := hturn horder
            rw [List.countP_append, List.countP_singleton]
            split
            · next hincl => exact hfits.1 hincl
            · exact ih _ horder
      exact hprefix _ [] (List.append_nil _).symm
  · rintro ⟨hpending, hinside⟩ t b queue done hturn
    obtain ⟨queue', pre, suf, hturn', horder, hhead, hlength⟩ := Layers.exists_split hend t
    rw [hturn] at hturn'
    cases hturn'
    cases suf with
    | nil => cases hhead
    | cons b' suf =>
        obtain rfl : b = b' := by simpa using hhead
        refine ⟨fun hincl => ?_, fun hstraddles => ?_⟩
        · rw [horder, List.countP_append, List.countP_cons, if_pos hincl] at hinside
          omega
        · exact (hslots horder hlength).2 (hpending _ _ _ horder hstraddles)

end Loop

end DataSpaces
