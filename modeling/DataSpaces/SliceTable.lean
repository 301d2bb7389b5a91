import DataSpaces.Exactness

/-!
# SliceTable — the slicing loop of `dht_construct_hash` on its table

The loop reads the interval table at an index `j` that it carries from entry to entry, shortens the
interval at `j` in place when an entry takes only a part of it, and writes what the entry takes into
`num_intv` slots allocated for it.  Here the table, the index and the slots are as in the source; `none`
is a read at or past `num_intv` or a write past the slots.  The loop takes from the rest of the table
what `takeIntv` takes from a list, so that the shares and their order can be read off the slices.
-/

namespace DataSpaces

/-- The variables of the `while` loop: the table, the index, what is left to take, and the first
`de->num_intv` slots of `de->i_tab`. -/
structure SliceLoop where
  iTab : List Intv
  j : Nat
  len : UInt64
  mine : List Intv

/-- One turn of the loop, with `numIntv` slots for the entry. -/
def sliceTurn (numIntv : Nat) (s : SliceLoop) : Option SliceLoop := do
  let t ← s.iTab[s.j]?
  if s.mine.length < numIntv then
    if intvSize t > s.len then
      -- the interval is cut, and its rest stays at `j`
      let intv : Intv := ⟨t.lb, t.lb + s.len - 1⟩
      return { iTab := s.iTab.set s.j ⟨t.lb + s.len, t.ub⟩
               j := s.j
               len := s.len - intvSize intv
               mine := s.mine ++ [intv] }
    else
      return { s with
        j := s.j + 1
        len := s.len - intvSize t
        mine := s.mine ++ [t] }
  else none

/-- `while(len > 0)`.  A turn moves `j` on or is the last one, so that as many turns as there are
intervals are enough. -/
def sliceWhile (numIntv : Nat) : Nat → SliceLoop → Option SliceLoop
  | fuel, s =>
      if s.len = 0 then some s
      else
        match fuel with
        | 0 => none
        | fuel + 1 => (sliceTurn numIntv s).bind (sliceWhile numIntv fuel)

section Slice

variable (hilbertC2i : HilbertC2i) (uninit : Intv)

/-- The loop over the entries, from the index `j` on. -/
def sliceTab (numIntv : Nat) (sn : Nat → UInt64) : List Nat → List Intv → Nat → Option (List DhtEntry)
  | [], _, _ => some []
  | i :: is, iTab, j => do
      let s ← sliceWhile numIntv numIntv ⟨iTab, j, sn i, []⟩
      let rest ← sliceTab numIntv sn is s.iTab s.j
      return { rank := i, iVirt := hullOf uninit s.mine, iTab := s.mine, bbTab := [] } :: rest

/-- `dht_construct_hash` with its table. -/
def dhtConstructHashTab (bbGlbDomain : BBox) (maxDim : UInt64) (numEntries : Nat) :
    Option (List DhtEntry) := do
  let iTab ← bboxToIntv hilbertC2i uninit bbGlbDomain maxDim
  sliceTab uninit iTab.length (snAt (bboxVolume bbGlbDomain) numEntries) (List.range numEntries) iTab 0

end Slice

/-! ## The table as a list -/

/-- What the entry has, and what is left of the table. -/
def SliceLoop.view (s : SliceLoop) : List Intv × List Intv :=
  (s.mine, s.iTab.drop s.j)

/-- A part of an interval that ends a share has the length that was left to take. -/
theorem intvSize_cut (lb len : UInt64) : intvSize ⟨lb, lb + len - 1⟩ = len := by
  simp only [intvSize]
  grind

section While

variable {n : Nat}

theorem sliceWhile_done (fuel : Nat) {s : SliceLoop} (h : s.len = 0) :
    sliceWhile n fuel s = some s := by
  cases fuel <;> rw [sliceWhile, if_pos h]

/-- Behind the table there is nothing to take. -/
theorem sliceWhile_past (fuel : Nat) {s : SliceLoop} (hj : s.iTab.length ≤ s.j) :
    (sliceWhile n fuel s).map SliceLoop.view =
      (takeIntv s.len (s.iTab.drop s.j)).map fun r => (s.mine ++ r.1, r.2) := by
  have hdrop := List.drop_eq_nil_of_le hj
  rw [hdrop, takeIntv]
  by_cases hzero : s.len = 0
  · rw [sliceWhile_done fuel hzero, if_pos hzero]
    simp [SliceLoop.view, hdrop]
  · rw [if_neg hzero]
    cases fuel with
    | zero =>
        rw [sliceWhile, if_neg hzero]
        rfl
    | succ fuel =>
        rw [sliceWhile, if_neg hzero]
        simp [sliceTurn, List.getElem?_eq_none hj]

/-- The rest of an interval stays at its index. -/
theorem drop_set_self {l : List Intv} {j : Nat} (hj : j < l.length) (t : Intv) :
    (l.set j t).drop j = t :: l.drop (j + 1) := by
  rw [List.drop_eq_getElem_cons (by simpa using hj), List.getElem_set_self, List.drop_set_of_lt (by omega)]

/-- An entry never has more intervals than were passed over in the table, so that its slots last, and the
loop takes what `takeIntv` takes. -/
theorem sliceWhile_view (fuel : Nat) :
    ∀ s : SliceLoop, s.iTab.length = n → s.mine.length ≤ s.j → n ≤ s.j + fuel →
      (sliceWhile n fuel s).map SliceLoop.view =
        (takeIntv s.len (s.iTab.drop s.j)).map fun r => (s.mine ++ r.1, r.2) := by
  induction fuel with
  | zero =>
      intro s hlen _ hfuel
      exact sliceWhile_past 0 (by omega)
  | succ fuel ih =>
      intro s hlen hmine hfuel
      rcases Nat.lt_or_ge s.j s.iTab.length with hj | hj
      · obtain ⟨iTab, j, len, mine⟩ := s
        simp only at hlen hmine hfuel hj
        rw [sliceWhile]
        simp only
        rw [List.drop_eq_getElem_cons hj, takeIntv]
        by_cases hzero : len = 0
        · rw [if_pos hzero, if_pos hzero, Option.map_some, Option.map_some, SliceLoop.view,
            List.append_nil]
          simp only [List.drop_eq_getElem_cons hj]
        rw [if_neg hzero, if_neg hzero]
        simp only [sliceTurn, List.getElem?_eq_getElem hj, Option.bind_eq_bind, Option.bind_some,
          if_pos (show mine.length < n by omega)]
        by_cases hgt : intvSize iTab[j] > len
        · -- the last turn
          rw [if_pos hgt, if_pos hgt, intvSize_cut, UInt64.sub_self]
          simp only [pure, Option.bind_some]
          rw [sliceWhile_done fuel rfl, Option.map_some, Option.map_some, SliceLoop.view, drop_set_self hj]
        · rw [if_neg hgt, if_neg hgt]
          simp only [pure, Option.bind_some]
          rw [ih _ hlen (by simp; omega) (by simp; omega)]
          simp only [Option.map_map]
          congr 1
          funext r
          simp
      · exact sliceWhile_past (fuel + 1) hj

theorem sliceTurn_length {s s' : SliceLoop} (h : sliceTurn n s = some s') :
    s'.iTab.length = s.iTab.length ∧ s'.mine.length ≤ n := by
  simp only [sliceTurn, Option.bind_eq_bind] at h
  obtain ⟨t, -, h⟩ := Option.bind_eq_some_iff.1 h
  split at h
  · split at h
    · simp only [pure, Option.some.injEq] at h
      subst h
      exact ⟨by simp, by simp; omega⟩
    · simp only [pure, Option.some.injEq] at h
      subst h
      exact ⟨rfl, by simp; omega⟩
  · cases h

/-- The table keeps its length, and the entry has no more intervals than slots. -/
theorem sliceWhile_length (fuel : Nat) :
    ∀ s s' : SliceLoop, s.mine.length ≤ n → sliceWhile n fuel s = some s' →
      s'.iTab.length = s.iTab.length ∧ s'.mine.length ≤ n := by
  induction fuel with
  | zero =>
      intro s s' hmine h
      rw [sliceWhile] at h
      split at h
      · cases h
        exact ⟨rfl, hmine⟩
      · cases h
  | succ fuel ih =>
      intro s s' hmine h
      rw [sliceWhile] at h
      split at h
      · cases h
        exact ⟨rfl, hmine⟩
      · obtain ⟨s₁, hturn, h⟩ := Option.bind_eq_some_iff.1 h
        obtain ⟨hlen₁, hmine₁⟩ := sliceTurn_length hturn
        obtain ⟨hlen, hmine'⟩ := ih s₁ s' hmine₁ h
        exact ⟨hlen.trans hlen₁, hmine'⟩

end While

section Entries

variable {n : Nat} (hilbertC2i : HilbertC2i) (uninit : Intv)

/-- The loop over the entries is the one over the rest of the table. -/
theorem sliceTab_eq (sn : Nat → UInt64) (is : List Nat) :
    ∀ (iTab : List Intv) (j : Nat), iTab.length = n →
      sliceTab uninit n sn is iTab j = sliceEntries uninit sn is (iTab.drop j) := by
  induction is with
  | nil =>
      intro iTab j _
      rfl
  | cons i is ih =>
      intro iTab j hlen
      have hview := sliceWhile_view (n := n) n ⟨iTab, j, sn i, []⟩ hlen (by simp) (by simp)
      simp only [List.nil_append, Option.map_id'] at hview
      rw [sliceTab, sliceEntries, ← hview]
      cases hwhile : sliceWhile n n ⟨iTab, j, sn i, []⟩ with
      | none => rfl
      | some s =>
          have hlen' := (sliceWhile_length n _ s (by simp) hwhile).1
          simp only [Option.bind_eq_bind, Option.bind_some, Option.map_some, SliceLoop.view]
          rw [ih s.iTab s.j (hlen'.trans hlen)]

/-- No read is past the table when the list of the slices lasts, and no write is past the slots. -/
theorem dhtConstructHashTab_eq (bbGlbDomain : BBox) (maxDim : UInt64) (numEntries : Nat) :
    dhtConstructHashTab hilbertC2i uninit bbGlbDomain maxDim numEntries =
      dhtConstructHash hilbertC2i uninit bbGlbDomain maxDim numEntries := by
  simp only [dhtConstructHashTab, dhtConstructHash, Option.bind_eq_bind]
  congr 1
  funext iTab
  exact sliceTab_eq uninit _ _ iTab 0 rfl

theorem length_iTab_of_sliceTab (sn : Nat → UInt64) (is : List Nat) :
    ∀ (iTab : List Intv) (j : Nat) ents, sliceTab uninit n sn is iTab j = some ents →
      ∀ de ∈ ents, de.iTab.length ≤ n := by
  induction is with
  | nil =>
      intro iTab j ents h
      cases h
      simp
  | cons i is ih =>
      intro iTab j ents h
      rw [sliceTab] at h
      obtain ⟨s, hwhile, h⟩ := Option.bind_eq_some_iff.1 h
      obtain ⟨rest, hrest, h⟩ := Option.bind_eq_some_iff.1 h
      cases h
      intro de hde
      rcases List.mem_cons.1 hde with rfl | hde
      · exact (sliceWhile_length n _ s (by simp) hwhile).2
      · exact ih _ _ rest hrest de hde

end Entries

/-! ## Main results -/

/-- The number of indices in a sorted table. -/
theorem card_indices_eq_sum {tab : List Intv} (hs : Seg.Sorted (tab.map Intv.seg)) :
    (indices tab).card = (tab.map fun i => i.ub.toNat + 1 - i.lb.toNat).sum := by
  induction tab with
  | nil => rfl
  | cons t ts ih => rw [card_indices_cons hs, ih (Seg.sorted_cons.1 hs).2.2, List.map_cons, List.sum_cons]

/-- Nonempty disjoint intervals in increasing order. -/
structure InOrder (tab : List Intv) : Prop where
  nonempty : ∀ i ∈ tab, i.lb ≤ i.ub
  increasing : tab.Pairwise fun i j => i.ub < j.lb

theorem inOrder_iff {tab : List Intv} : InOrder tab ↔ Seg.Sorted (tab.map Intv.seg) := by
  constructor
  · rintro ⟨hne, hinc⟩
    refine ⟨fun s hs => ?_, List.pairwise_map.2 (hinc.imp fun h => UInt64.lt_iff_toNat_lt.1 h)⟩
    obtain ⟨i, hi, rfl⟩ := List.mem_map.1 hs
    exact UInt64.le_iff_toNat_le.1 (hne i hi)
  · rintro ⟨hne, hinc⟩
    exact ⟨fun i hi => UInt64.le_iff_toNat_le.2 (hne i.seg (List.mem_map_of_mem hi)),
      (List.pairwise_map.1 hinc).imp fun h => UInt64.lt_iff_toNat_lt.2 h⟩

/-- The indices of the table `tab` shared out among `numEntries` entries, in the order of their ranks. -/
structure SharedOut (tab : List Intv) (numEntries : Nat) (ents : List DhtEntry) : Prop where
  ranks : ents.map DhtEntry.rank = List.range numEntries
  order : InOrder (ents.flatMap DhtEntry.iTab)
  union : ∀ p : ℕ, (∃ i ∈ ents.flatMap DhtEntry.iTab, i.lb.toNat ≤ p ∧ p ≤ i.ub.toNat) ↔
    ∃ i ∈ tab, i.lb.toNat ≤ p ∧ p ≤ i.ub.toNat
  slots : ∀ de ∈ ents, de.iTab.length ≤ tab.length

/-- For every table that `bbox_to_intv` returns in order and with sizes that add up to the volume of the
domain, and every number of entries, `dht_construct_hash` reads inside the table and writes inside its
slots, the tables of the entries one after the other are in order and have the points of that table, and
every entry gets its share of the volume. -/
theorem dhtConstructHash_shares {hilbertC2i : HilbertC2i} {uninit : Intv} {dom : BBox} {maxDim : UInt64}
    {tab : List Intv} {numEntries : Nat} (hpos : 1 ≤ numEntries) (hint : numEntries < 2 ^ 31)
    (htab : bboxToIntv hilbertC2i uninit dom maxDim = some tab) (horder : InOrder tab)
    (hsizes : (tab.map fun i => i.ub.toNat + 1 - i.lb.toNat).sum = (bboxVolume dom).toNat) :
    ∃ ents, dhtConstructHashTab hilbertC2i uninit dom maxDim numEntries = some ents ∧
      SharedOut tab numEntries ents ∧
      ∀ de ∈ ents, (de.iTab.map fun i => i.ub.toNat + 1 - i.lb.toNat).sum =
        (bboxVolume dom).toNat / numEntries +
          if de.rank < (bboxVolume dom).toNat % numEntries then 1 else 0 := by
  have hsorted := inOrder_iff.1 horder
  have hcard : (indices tab).card = (bboxVolume dom).toNat := (card_indices_eq_sum hsorted).trans hsizes
  have hlt := (bboxVolume dom).toNat_lt
  have hsum := @sum_snAt (bboxVolume dom) numEntries hpos hint
  obtain ⟨ents, rest, hslice, hranks, hents, hall, hun, hrest⟩ :=
    sliceEntries_spec uninit (snAt (bboxVolume dom) numEntries) (List.range numEntries) tab hsorted
      (by omega) (by omega)
  -- the shares add up to the volume, so that nothing of the table is left
  have hnil : rest = [] := by
    rw [List.map_append] at hall
    exact eq_nil_of_card_indices hall.append_right (by omega)
  rw [hnil, List.append_nil] at hall hun
  have hsliceTab : sliceTab uninit tab.length (snAt (bboxVolume dom) numEntries) (List.range numEntries)
      tab 0 = some ents := (sliceTab_eq uninit _ _ tab 0 rfl).trans hslice
  refine ⟨ents, ?_, ⟨hranks, inOrder_iff.2 hall, fun p => ?_,
    length_iTab_of_sliceTab uninit _ _ tab 0 ents hsliceTab⟩, fun de hde => ?_⟩
  · rw [dhtConstructHashTab, htab, Option.bind_eq_bind, Option.bind_some]
    exact hsliceTab
  · rw [← mem_indices, ← mem_indices, hun]
  · -- the intervals of one entry are a part of the sorted list
    have hmine : Seg.Sorted (de.iTab.map Intv.seg) := by
      obtain ⟨before, after, rfl⟩ := List.append_of_mem hde
      simp only [List.flatMap_append, List.flatMap_cons, List.map_append] at hall
      exact hall.append_right.append_left
    rw [← card_indices_eq_sum hmine, (hents de hde).2, toNat_snAt hpos hint]

/-- Five entries for the four cells of `[0, 3]`: the last one gets none. -/
theorem dhtConstructHash_shares_line :
    ∃ ents, dhtConstructHashTab lineC2i ⟨0, 0⟩ (BBox.line 0 3) 4 5 = some ents ∧
      SharedOut [⟨0, 3⟩] 5 ents := by
  obtain ⟨ents, hents, hshared, -⟩ := @dhtConstructHash_shares lineC2i ⟨0, 0⟩ (BBox.line 0 3) 4
    [⟨0, 3⟩] 5 (by norm_num) (by norm_num) (by decide +kernel) ⟨by decide, List.pairwise_singleton _ _⟩
    (by decide)
  exact ⟨ents, hents, hshared⟩

end DataSpaces
