import DataSpaces.Bisection

/-!
# Rounds — the queues and tables of `ssd_alloc_v2`

`ssd_alloc_v2` halves the boxes of one queue into a second one and changes the roles of the two after
every round, and then deals the boxes out to tables `bb_tab` of a size computed beforehand.  Here both
are as the source has them: a round finds its source queue by looking which of the two is empty, and a
table is only written below its size.  `none` stands for a round that finds no source queue and for a
write past the end of a table.  Neither happens, so that this is `ssdAllocV2`.
-/

namespace DataSpaces

/-- The queues `q1` and `q2`. -/
structure BBoxQueues where
  q1 : List BBox
  q2 : List BBox
  deriving DecidableEq

namespace BBoxQueues

/-- The boxes of both queues, of which one is empty. -/
def all (q : BBoxQueues) : List BBox :=
  q.q1 ++ q.q2

/-- Exactly one of the queues is empty. -/
def OneEmpty (q : BBoxQueues) : Prop :=
  Xor (q.q1 = []) (q.q2 = [])

end BBoxQueues

/-- The `while` loop of a round: `src_q` is drained into `dst_q`. -/
def drainQueue : Nat → List BBox → List BBox → Nat × List BBox
  | dim, [], dstQ => (dim, dstQ)
  | dim, bb :: srcQ, dstQ =>
      let dim' := (getBboxMaxDimSize bb dim).2
      let bTab := bboxDivideIn2Ondim bb dim'
      drainQueue dim' srcQ (dstQ ++ [bTab.1, bTab.2])

/-- One round.  When both queues are empty or neither is, `src_q` and `dst_q` have no value. -/
def divideRound (dim : Nat) (q : BBoxQueues) : Option (Nat × BBoxQueues) :=
  if !q.q1.isEmpty && q.q2.isEmpty then
    let next := drainQueue dim q.q1 q.q2
    some (next.1, ⟨[], next.2⟩)
  else if !q.q2.isEmpty && q.q1.isEmpty then
    let next := drainQueue dim q.q2 q.q1
    some (next.1, ⟨next.2, []⟩)
  else none

/-- The state of `dim` and of the queues after a number of rounds. -/
def queueRounds : Nat → Nat → BBoxQueues → Option (Nat × BBoxQueues)
  | 0, dim, q => some (dim, q)
  | numDivideIteration + 1, dim, q =>
      (divideRound dim q).bind fun next => queueRounds numDivideIteration next.1 next.2

/-- The queue that is dealt out; with both empty it has no value. -/
def BBoxQueues.last (q : BBoxQueues) : Option (List BBox) :=
  if !q.q1.isEmpty then some q.q1
  else if !q.q2.isEmpty then some q.q2
  else none

/-- `ceil(total_num_bbox * 1.0 / num_entries)`.  Both are `int`s, so that a quotient which is no integer
is further from one than a `double` rounds. -/
def sizeBbTab (totalNumBbox numEntries : Nat) : Nat :=
  (totalNumBbox + numEntries - 1) / numEntries

/-- The mapping loop, from box number `i` on, into tables of `n` boxes. -/
def mapRoundRobinTab (n : Nat) : Nat → List BBox → List DhtEntry → Option (List DhtEntry)
  | _, [], entTab => some entTab
  | i, bb :: q, entTab => do
      let j := i % entTab.length
      let de ← entTab[j]?
      -- `k = num_bbox++` is an index of the table
      if de.bbTab.length < n then
        mapRoundRobinTab n (i + 1) q (entTab.set j { de with bbTab := de.bbTab ++ [bb] })
      else none

/-- `ssd_alloc_v2` with its queues and tables. -/
def ssdAllocV2Queues (bbDomain : BBox) (numNodes maxVersions : Nat) : Option SSpace := do
  let (maxDim0, dim) := getBboxMaxDim bbDomain 0
  let maxDim ← nextPow2V2 maxDim0
  let pow ← nextPow2V2 (UInt64.ofNat numNodes)
  -- one round for each bit: every round doubles the number of boxes
  let (_, qs) ← queueRounds (computeBitsV2 pow) dim ⟨[bbDomain], []⟩
  let q ← qs.last
  let entTab ← mapRoundRobinTab (sizeBbTab q.length numNodes) 0 q (dhtAlloc numNodes)
  return { hashVersion := .v2
           maxDim := maxDim
           bbGlbDomain := bbDomain
           entTab := entTab
           odscSize := maxVersions }

/-! ## The rounds -/

theorem drainQueue_eq (srcQ : List BBox) :
    ∀ dim dstQ, drainQueue dim srcQ dstQ = ((divideQueue dim srcQ).1, dstQ ++ (divideQueue dim srcQ).2) := by
  induction srcQ with
  | nil =>
      intro dim dstQ
      simp [drainQueue, divideQueue]
  | cons bb srcQ ih =>
      intro dim dstQ
      rw [drainQueue, divideQueue]
      simp only [ih, List.append_assoc, List.cons_append, List.nil_append]

/-- A round doubles the number of boxes. -/
theorem length_divideQueue (q : List BBox) : ∀ dim, (divideQueue dim q).2.length = 2 * q.length := by
  induction q with
  | nil =>
      intro dim
      rfl
  | cons bb q ih =>
      intro dim
      simp only [divideQueue, List.length_cons, ih]
      omega

theorem length_divideRounds (n : Nat) :
    ∀ dim (q : List BBox), (divideRounds n dim q).length = 2 ^ n * q.length := by
  induction n with
  | zero =>
      intro dim q
      simp [divideRounds]
  | succ n ih =>
      intro dim q
      rw [divideRounds, ih, length_divideQueue, pow_succ]
      ring

namespace BBoxQueues

variable {q : BBoxQueues}

/-- A round of two queues of which one is empty divides the boxes of the other, and leaves one empty. -/
theorem OneEmpty.round (h : q.OneEmpty) (dim : Nat) :
    ∃ q', divideRound dim q = some ((divideQueue dim q.all).1, q') ∧ q'.OneEmpty ∧
      q'.all = (divideQueue dim q.all).2 := by
  obtain ⟨q1, q2⟩ := q
  have hne : ∀ l : List BBox, l ≠ [] → (divideQueue dim l).2 ≠ [] := by
    intro l hl hnil
    have hlen := length_divideQueue l dim
    rw [hnil, List.length_nil] at hlen
    have := List.length_pos_of_ne_nil hl
    omega
  rcases h with ⟨h1, h2⟩ | ⟨h2, h1⟩
  · simp only at h1 h2
    subst h1
    refine ⟨⟨(divideQueue dim q2).2, []⟩, ?_, Or.inr ⟨rfl, hne q2 h2⟩, by simp [all]⟩
    simp [divideRound, all, drainQueue_eq, h2]
  · simp only at h1 h2
    subst h2
    refine ⟨⟨[], (divideQueue dim q1).2⟩, ?_, Or.inl ⟨rfl, hne q1 h1⟩, by simp [all]⟩
    simp [divideRound, all, drainQueue_eq, h1]

/-- The queues after any number of rounds: again one is empty, and the boxes are those of
`divideRounds`. -/
theorem OneEmpty.rounds (n : Nat) :
    ∀ {q : BBoxQueues} (dim : Nat), q.OneEmpty →
      ∃ dim' q', queueRounds n dim q = some (dim', q') ∧ q'.OneEmpty ∧
        q'.all = divideRounds n dim q.all := by
  induction n with
  | zero =>
      intro q dim h
      exact ⟨dim, q, rfl, h, rfl⟩
  | succ n ih =>
      intro q dim h
      obtain ⟨q₁, hround, h₁, hall⟩ := h.round dim
      obtain ⟨dim', q', hrounds, h', hall'⟩ := ih (divideQueue dim q.all).1 h₁
      refine ⟨dim', q', ?_, h', ?_⟩
      · rw [queueRounds, hround, Option.bind_some]
        exact hrounds
      · rw [hall', hall, divideRounds]

/-- The queue that is not empty has all the boxes. -/
theorem OneEmpty.last_eq (h : q.OneEmpty) : q.last = some q.all := by
  obtain ⟨q1, q2⟩ := q
  rcases h with ⟨h1, h2⟩ | ⟨h2, h1⟩
  · simp only at h1 h2
    subst h1
    simp [last, all, h2]
  · simp only at h1 h2
    subst h2
    simp [last, all, h1]

end BBoxQueues

/-! ## The tables -/

/-- After `i` boxes entry `j` of `n` has every `n`-th of them. -/
def dealt (i n j : Nat) : Nat :=
  (i + n - 1 - j) / n

theorem dealt_zero {n j : Nat} (hj : j < n) : dealt 0 n j = 0 :=
  Nat.div_eq_of_lt (by omega)

theorem mul_add_div_of_lt {n q r : Nat} (hr : r < n) : (n * q + r) / n = q := by
  rw [Nat.mul_add_div (by omega), Nat.div_eq_of_lt hr, Nat.add_zero]

/-- The entry whose turn it is has one box for every full circle. -/
theorem dealt_mod {n : Nat} (hn : 0 < n) (i : Nat) : dealt i n (i % n) = i / n := by
  have hmod := Nat.mod_lt i hn
  have hsum := Nat.div_add_mod i n
  have hsplit : i + n - 1 - i % n = n * (i / n) + (n - 1) := by omega
  rw [dealt, hsplit, mul_add_div_of_lt (by omega)]

/-- Box number `i` goes to entry `i % n`. -/
theorem dealt_succ {n j : Nat} (hj : j < n) (i : Nat) :
    dealt (i + 1) n j = dealt i n j + if i % n = j then 1 else 0 := by
  have hn : 0 < n := by omega
  have hmod := Nat.mod_lt i hn
  have hsum := Nat.div_add_mod i n
  have hcircle : n * (i / n + 1) = n * (i / n) + n := Nat.mul_succ n (i / n)
  by_cases hij : i % n = j
  · have hsplit : i + 1 + n - 1 - j = n * (i / n + 1) + 0 := by omega
    have hold := dealt_mod hn i
    rw [hij] at hold
    rw [if_pos hij, hold, dealt, hsplit, mul_add_div_of_lt hn]
  · -- the entries behind `i % n` wait for the current circle, the ones before it for the next
    rw [if_neg hij, Nat.add_zero (dealt i n j), dealt, dealt]
    rcases Nat.lt_or_gt_of_ne hij with hlt | hgt
    · have h1 : i + 1 + n - 1 - j = n * (i / n) + (i % n + n - j) := by omega
      have h2 : i + n - 1 - j = n * (i / n) + (i % n + n - 1 - j) := by omega
      rw [h1, h2, mul_add_div_of_lt (by omega), mul_add_div_of_lt (by omega)]
    · have h1 : i + 1 + n - 1 - j = n * (i / n + 1) + (i % n - j) := by omega
      have h2 : i + n - 1 - j = n * (i / n + 1) + (i % n - 1 - j) := by omega
      rw [h1, h2, mul_add_div_of_lt (by omega), mul_add_div_of_lt (by omega)]

/-- The tables after `i` boxes. -/
def Dealt (i : Nat) (entTab : List DhtEntry) : Prop :=
  ∀ j (hj : j < entTab.length), entTab[j].bbTab.length = dealt i entTab.length j

theorem dealt_dhtAlloc (n : Nat) : Dealt 0 (dhtAlloc n) := by
  intro j hj
  rw [dealt_zero hj]
  simp [dhtAlloc]

theorem Dealt.modify {i : Nat} {entTab : List DhtEntry} (h : Dealt i entTab) (bb : BBox) :
    Dealt (i + 1) (entTab.modify (i % entTab.length) fun de => { de with bbTab := de.bbTab ++ [bb] }) := by
  intro j hj
  have hj' : j < entTab.length := by simpa using hj
  rw [List.length_modify, dealt_succ hj', ← h j hj', List.getElem_modify]
  split
  · simp
  · simp

/-- With tables for all boxes that are still to come every write is in bounds, and the loop is
`mapRoundRobin`. -/
theorem mapRoundRobinTab_eq {n : Nat} (q : List BBox) :
    ∀ (i : Nat) (entTab : List DhtEntry), 0 < entTab.length → Dealt i entTab →
      i + q.length ≤ n * entTab.length →
        mapRoundRobinTab n i q entTab = some (mapRoundRobin i q entTab) ∧
          Dealt (i + q.length) (mapRoundRobin i q entTab) := by
  induction q with
  | nil =>
      intro i entTab _ h _
      exact ⟨rfl, h⟩
  | cons bb q ih =>
      intro i entTab hlen h hroom
      have hj := Nat.mod_lt i hlen
      simp only [List.length_cons] at hroom
      have hk : entTab[i % entTab.length].bbTab.length < n := by
        rw [h _ hj, dealt_mod hlen, Nat.div_lt_iff_lt_mul hlen]
        omega
      obtain ⟨hmap, hdealt⟩ := ih (i + 1) _ (by simpa using hlen) (h.modify bb) (by
        rw [List.length_modify]
        omega)
      have hset : entTab.set (i % entTab.length)
          { entTab[i % entTab.length] with bbTab := entTab[i % entTab.length].bbTab ++ [bb] } =
            entTab.modify (i % entTab.length) fun de => { de with bbTab := de.bbTab ++ [bb] } := by
        rw [List.modify_eq_set_getElem?, List.getElem?_eq_getElem hj]
        rfl
      rw [mapRoundRobinTab, mapRoundRobin]
      refine ⟨?_, ?_⟩
      · simp only [List.getElem?_eq_getElem hj, Option.bind_eq_bind, Option.bind_some, if_pos hk, hset]
        exact hmap
      · rw [List.length_cons, show i + (q.length + 1) = i + 1 + q.length by omega]
        exact hdealt

/-! ## Main results -/

section Alloc

variable {bbDomain : BBox} {numNodes maxVersions : Nat}

theorem oneEmpty_start (bbDomain : BBox) : (BBoxQueues.mk [bbDomain] []).OneEmpty :=
  Or.inr ⟨rfl, by simp⟩

/-- Tables of `ceil(total / n)` boxes hold all of them. -/
theorem le_sizeBbTab {total n : Nat} (hn : 0 < n) : total ≤ sizeBbTab total n * n := by
  have hmod := Nat.mod_lt (total + n - 1) hn
  have hsum := Nat.div_add_mod (total + n - 1) n
  rw [sizeBbTab, Nat.mul_comm]
  omega

/-- The mapping loop writes within the tables of the entries. -/
theorem mapRoundRobinTab_dhtAlloc (hpos : 0 < numNodes) (q : List BBox) :
    mapRoundRobinTab (sizeBbTab q.length numNodes) 0 q (dhtAlloc numNodes) =
        some (mapRoundRobin 0 q (dhtAlloc numNodes)) ∧
      Dealt q.length (mapRoundRobin 0 q (dhtAlloc numNodes)) := by
  have hlen : (dhtAlloc numNodes).length = numNodes := by simp [dhtAlloc]
  have hmap := mapRoundRobinTab_eq (n := sizeBbTab q.length numNodes) q 0 (dhtAlloc numNodes)
    (by omega) (dealt_dhtAlloc numNodes) (by
      rw [hlen, Nat.zero_add]
      exact le_sizeBbTab hpos)
  rwa [Nat.zero_add] at hmap

/-- No round lacks its source queue and no table is written past its end. -/
theorem ssdAllocV2Queues_eq (hpos : 0 < numNodes) :
    ssdAllocV2Queues bbDomain numNodes maxVersions = ssdAllocV2 bbDomain numNodes maxVersions := by
  simp only [ssdAllocV2Queues, ssdAllocV2, Option.bind_eq_bind]
  congr 1
  funext maxDim
  congr 1
  funext pow
  obtain ⟨dim', q, hrounds, hempty, hall⟩ :=
    (oneEmpty_start bbDomain).rounds (computeBitsV2 pow) (getBboxMaxDim bbDomain 0).2
  rw [hrounds, Option.bind_some, hempty.last_eq, Option.bind_some, hall,
    (mapRoundRobinTab_dhtAlloc hpos _).1, Option.bind_some]
  rfl

/-- What is returned when both powers of two exist. -/
theorem ssdAllocV2_some {maxDim pow : UInt64}
    (hmaxDim : nextPow2V2 (getBboxMaxDim bbDomain 0).1 = some maxDim)
    (hpow : nextPow2V2 (UInt64.ofNat numNodes) = some pow) :
    ssdAllocV2 bbDomain numNodes maxVersions = some
      { hashVersion := .v2
        maxDim := maxDim
        bbGlbDomain := bbDomain
        entTab := mapRoundRobin 0 (divideRounds (computeBitsV2 pow) (getBboxMaxDim bbDomain 0).2 [bbDomain])
          (dhtAlloc numNodes)
        odscSize := maxVersions } := by
  simp only [ssdAllocV2, hmaxDim, hpow, Option.bind_eq_bind, Option.bind_some]
  rfl

/-- What `ssd_alloc_v2` is for: every cell of the domain lies in one box of one entry, the boxes have no
other cells, and the entries have about the same number of boxes, at least one each, in tables with room
for them. -/
structure Bisected (bbDomain : BBox) (numNodes numBbox sizeBbTab : Nat) (entTab : List DhtEntry) :
    Prop where
  ranks : entTab.map DhtEntry.rank = List.range numNodes
  total : (entTab.map fun de => de.bbTab.length).sum = numBbox
  once : ∀ x ∈ bbDomain.cells, ∃! p : ℕ × ℕ, ∃ de b, entTab[p.1]? = some de ∧
    de.bbTab[p.2]? = some b ∧ x ∈ b.cells
  inside : ∀ de ∈ entTab, ∀ b ∈ de.bbTab, b.cells ⊆ bbDomain.cells
  share : ∀ de ∈ entTab, 1 ≤ de.bbTab.length
  even : ∀ de ∈ entTab, ∀ de' ∈ entTab, de.bbTab.length ≤ de'.bbTab.length + 1
  room : ∀ de ∈ entTab, de.bbTab.length ≤ sizeBbTab

/-- A cell is found in one place of the tables. -/
theorem existsUnique_place {entTab : List DhtEntry} {x : Cell}
    (hap : Cover.Apart BBox.cells (entTab.flatMap DhtEntry.bbTab))
    (hx : x ∈ Cover.union BBox.cells (entTab.flatMap DhtEntry.bbTab)) :
    ∃! p : ℕ × ℕ, ∃ de b, entTab[p.1]? = some de ∧ de.bbTab[p.2]? = some b ∧ x ∈ b.cells := by
  obtain ⟨b, hb, hxb⟩ := Cover.mem_union.1 hx
  obtain ⟨de, hde, hb⟩ := List.mem_flatMap.1 hb
  obtain ⟨i, hi⟩ := List.mem_iff_getElem?.1 hde
  obtain ⟨k, hk⟩ := List.mem_iff_getElem?.1 hb
  refine ⟨(i, k), ⟨de, b, hi, hk, hxb⟩, ?_⟩
  rintro ⟨i', k'⟩ ⟨de', b', hi', hk', hxb'⟩
  -- the entries do not share cells, and neither do the boxes of one entry
  obtain rfl : i' = i := hap.groups.index_unique hi' hi
    (Cover.mem_union.2 ⟨b', List.mem_of_getElem? hk', hxb'⟩)
    (Cover.mem_union.2 ⟨b, List.mem_of_getElem? hk, hxb⟩)
  obtain rfl : de' = de := Option.some.inj (hi'.symm.trans hi)
  obtain rfl : k' = k := (hap.of_flatMap hde).index_unique hk' hk hxb' hxb
  rfl

/-- The shares of the entries when `total` boxes, at least one for each of `n` entries, are dealt out. -/
theorem dealt_bounds {total n j : Nat} (hj : j < n) :
    total / n ≤ dealt total n j ∧ dealt total n j ≤ sizeBbTab total n ∧
      dealt total n j ≤ total / n + 1 := by
  have hn : 0 < n := by omega
  refine ⟨Nat.div_le_div_right (by omega), Nat.div_le_div_right (by omega), ?_⟩
  rw [dealt, ← Nat.add_div_right total hn]
  exact Nat.div_le_div_right (by omega)

/-- Dealing out pieces of the domain, at least one for each server. -/
theorem bisected_mapRoundRobin {q : List BBox} (hpos : 0 < numNodes) (henough : numNodes ≤ q.length)
    (hap : Cover.Apart BBox.cells ((mapRoundRobin 0 q (dhtAlloc numNodes)).flatMap DhtEntry.bbTab))
    (hun : Cover.union BBox.cells ((mapRoundRobin 0 q (dhtAlloc numNodes)).flatMap DhtEntry.bbTab) =
      bbDomain.cells) :
    Bisected bbDomain numNodes q.length (sizeBbTab q.length numNodes)
      (mapRoundRobin 0 q (dhtAlloc numNodes)) := by
  have hranks : (mapRoundRobin 0 q (dhtAlloc numNodes)).map DhtEntry.rank = List.range numNodes := by
    rw [mapRoundRobin_ranks, dhtAlloc_ranks]
  have hlen : (mapRoundRobin 0 q (dhtAlloc numNodes)).length = numNodes := by
    rw [← List.length_map (f := DhtEntry.rank), hranks, List.length_range]
  have hdealt := (mapRoundRobinTab_dhtAlloc hpos q).2
  -- the servers get the boxes in turn, so that two differ by one at most
  have hbounds : ∀ de ∈ mapRoundRobin 0 q (dhtAlloc numNodes),
      q.length / numNodes ≤ de.bbTab.length ∧ de.bbTab.length ≤ sizeBbTab q.length numNodes ∧
        de.bbTab.length ≤ q.length / numNodes + 1 := by
    intro de hde
    obtain ⟨j, hj, rfl⟩ := List.getElem_of_mem hde
    rw [hdealt j hj, hlen]
    exact dealt_bounds (hlen ▸ hj)
  have hone : 1 ≤ q.length / numNodes := (Nat.le_div_iff_mul_le hpos).2 (by omega)
  refine ⟨hranks, ?_, fun x hx => ?_, fun de hde b hb x hx => ?_, fun de hde => ?_,
    fun de hde de' hde' => ?_, fun de hde => (hbounds de hde).2.1⟩
  · have hempty : (dhtAlloc numNodes).flatMap DhtEntry.bbTab = [] := by
      simp [dhtAlloc, List.flatMap_eq_nil_iff]
    have hperm := (mapRoundRobin_perm q 0 (dhtAlloc numNodes) (by simp [dhtAlloc, hpos])).length_eq
    rwa [hempty, List.append_nil, List.length_flatMap] at hperm
  · exact existsUnique_place hap (hun.symm ▸ hx)
  · rw [← hun]
    exact Cover.mem_union.2 ⟨b, List.mem_flatMap.2 ⟨de, hde, hb⟩, hx⟩
  · exact hone.trans (hbounds de hde).1
  · have := (hbounds de hde).2.2
    have := (hbounds de' hde').1
    omega

/-- The largest upper bound is one of them. -/
theorem getBboxMaxDim_attained (bb : BBox) :
    (getBboxMaxDim bb 0).1 = 0 ∨ ∃ i < bb.numDims, (getBboxMaxDim bb 0).1 = bb.ub.c i := by
  have hfold : ∀ (l : List Nat) (s : UInt64 × Nat), (l.foldl (maxDimStep bb) s).1 = s.1 ∨
      ∃ i ∈ l, (l.foldl (maxDimStep bb) s).1 = bb.ub.c i := by
    intro l
    induction l with
    | nil =>
        intro s
        exact Or.inl rfl
    | cons i l ih =>
        intro s
        rw [List.foldl_cons]
        rcases ih (maxDimStep bb s i) with hsame | ⟨j, hj, hval⟩
        · rw [hsame, maxDimStep]
          split
          · exact Or.inr ⟨i, by simp, rfl⟩
          · exact Or.inl rfl
        · exact Or.inr ⟨j, by simp [hj], hval⟩
  rcases hfold (List.range bb.numDims) (0, 0) with h | ⟨i, hi, h⟩
  · exact Or.inl h
  · exact Or.inr ⟨i, List.mem_range.1 hi, h⟩

/-- For every domain with upper bounds below `2 ^ 63` and every number of servers up to `2 ^ 30`,
`ssd_alloc_v2` returns `next_pow_2_v2(num_nodes)` boxes that partition the domain; and at the start of
every round exactly one of the two queues is empty. -/
theorem ssdAllocV2_bisects (hdom : bbDomain.Valid)
    (hub : ∀ j < bbDomain.numDims, (bbDomain.ub.c j).toNat < 2 ^ 63) (hpos : 1 ≤ numNodes)
    (hnodes : numNodes ≤ 2 ^ 30) :
    ∃ pow ss, nextPow2V2 (UInt64.ofNat numNodes) = some pow ∧
      ssdAllocV2Queues bbDomain numNodes maxVersions = some ss ∧
      Bisected bbDomain numNodes pow.toNat (sizeBbTab pow.toNat numNodes) ss.entTab ∧
      ∀ i < computeBitsV2 pow, ∃ dim q,
        queueRounds i (getBboxMaxDim bbDomain 0).2 ⟨[bbDomain], []⟩ = some (dim, q) ∧ q.OneEmpty := by
  have hnum : (UInt64.ofNat numNodes).toNat = numNodes := by
    rw [UInt64.toNat_ofNat']
    exact Nat.mod_eq_of_lt (by omega)
  obtain ⟨pow, hpow⟩ := Option.isSome_iff_exists.1 (nextPow2V2_isSome_iff.2
    (show (UInt64.ofNat numNodes).toNat ≤ 2 ^ 63 by omega))
  obtain ⟨k, hk, hpowk, hle, -⟩ := nextPow2V2_some hpow
  obtain ⟨maxDim, hmaxDim⟩ : ∃ p, nextPow2V2 (getBboxMaxDim bbDomain 0).1 = some p := by
    refine Option.isSome_iff_exists.1 (nextPow2V2_isSome_iff.2 ?_)
    rcases getBboxMaxDim_attained bbDomain with h | ⟨i, hi, h⟩
    · rw [h, UInt64.toNat_zero]
      omega
    · rw [h]
      exact (hub i hi).le
  have hss : ssdAllocV2 bbDomain numNodes maxVersions = some _ := ssdAllocV2_some hmaxDim hpow
  obtain ⟨-, -, -, hranks, hpieces⟩ := ssdAllocV2_spec hdom (fun j hj => Or.inr (hub j hj)) hpos
    (by omega) hss
  refine ⟨pow, _, hpow, (ssdAllocV2Queues_eq hpos).trans hss, ?_, fun i _ => ?_⟩
  · -- as many boxes as the rounded number of servers
    have hlenQ : (divideRounds (computeBitsV2 pow) (getBboxMaxDim bbDomain 0).2 [bbDomain]).length =
        pow.toNat := by
      rw [length_divideRounds, computeBitsV2_two_pow hpowk hk, hpowk, List.length_singleton, Nat.mul_one]
    rw [← hlenQ]
    exact bisected_mapRoundRobin hpos (by omega) hpieces.apart hpieces.union
  · obtain ⟨dim', q, hrounds, hempty, -⟩ :=
      (oneEmpty_start bbDomain).rounds i (getBboxMaxDim bbDomain 0).2
    exact ⟨dim', q, hrounds, hempty⟩

/-- Three servers and the two cells of `[0, 1]`: four boxes, of which two have no cell. -/
theorem ssdAllocV2_bisects_pair :
    ∃ pow ss, nextPow2V2 (UInt64.ofNat 3) = some pow ∧
      ssdAllocV2Queues (BBox.line 0 1) 3 1 = some ss ∧
      Bisected (BBox.line 0 1) 3 pow.toNat (sizeBbTab pow.toNat 3) ss.entTab := by
  have hub : ∀ j < (BBox.line 0 1).numDims, ((BBox.line 0 1).ub.c j).toNat < 2 ^ 63 := by
    intro j hj
    obtain rfl : j = 0 := Nat.lt_one_iff.1 hj
    decide
  obtain ⟨pow, ss, hpow, hss, hbis, -⟩ := @ssdAllocV2_bisects (BBox.line 0 1) 3 1
    (BBox.line_valid (show (0 : UInt64) ≤ 1 by decide)) hub (by norm_num) (by norm_num)
  exact ⟨pow, ss, hpow, hss, hbis⟩

end Alloc

end DataSpaces
