import DataSpaces.BBox

/-!
# Linearize — from boxes to intervals of a space-filling curve (`bbox.c`)

`bbox_to_intv` and `bbox_to_intv2` cut the virtual cube `[0, dim_virt - 1] ^ num_dims` into aligned
sub-cubes until each lies inside the box or misses it, and turn every sub-cube inside the box into an
interval of Hilbert indices.  The first keeps the pending sub-cubes in a linked queue, the second in
a circular table that it grows when it is full.

The curve itself (`hilbert_c2i` of `sfc.h`) is third-party code and a parameter here.  The second
thing outside the model is the content of freshly allocated memory: `intv_compact` reports one
interval even when it was given none, so `i_tab[0]` is then read uninitialised (`uninit`).

The queues count their elements in an `int`, and the sizes of the tables are `int`s.  A number that
would pass `INT_MAX` overflows, which C leaves undefined (a table is then given a negative size, and
no memory); the functions here are `none`.  Either loop can also run forever (on a box with
`lb > ub`).  The loops take a step budget, which `intvFuel` sets beyond what any terminating run
needs; `none` stands for a loop that does not end, too.
-/

namespace DataSpaces

/-- `struct intv`. -/
structure Intv where
  lb : UInt64
  ub : UInt64
  deriving DecidableEq

/-- `hilbert_c2i(nDims, nBits, coord)`. -/
abbrev HilbertC2i : Type := Nat → Nat → List UInt64 → UInt64

def intvSize (i : Intv) : UInt64 :=
  i.ub - i.lb + 1

def intvDoIntersect (i0 i1 : Intv) : Bool :=
  (i0.lb ≤ i1.lb && i1.lb ≤ i0.ub) || (i1.lb ≤ i0.lb && i0.lb ≤ i1.ub)

def computeBitsLoop : Nat → UInt64 → Nat → Nat
  | 0, _, nrBits => nrBits
  | fuel + 1, n, nrBits => if n = 0 then nrBits else computeBitsLoop fuel (n >>> 1) (nrBits + 1)

/-- Number of bits of `n`; a 64-bit value is shifted out after 64 rounds. -/
def computeBits (n : UInt64) : Nat :=
  computeBitsLoop 64 n 0

/-! ## One sub-cube -/

/-- Corner number `i` of a box: bit `j` of `i` picks the bound along dimension `j`. -/
def sfcCoord (bb : BBox) (i : Nat) : List UInt64 :=
  (List.range bb.numDims).map fun j => if i.testBit j then bb.ub.c j else bb.lb.c j

/-- One corner's index widens the interval downwards or else upwards, never both. -/
def flatStep (itv : Intv) (index : UInt64) : Intv :=
  if index < itv.lb then { itv with lb := index }
  else if index > itv.ub then { itv with ub := index }
  else itv

def bboxFlat (hilbertC2i : HilbertC2i) (bpd : Nat) (bb : BBox) : Intv :=
  ((List.range (2 ^ bb.numDims)).map fun i => hilbertC2i bb.numDims bpd (sfcCoord bb i)).foldl
    flatStep { lb := 0xffffffffffffffff, ub := 0 }

/-! ## Sorting and joining -/

def intvCompar (i0 i1 : Intv) : Bool :=
  i0.lb ≤ i1.lb

def intvCompactFrom (cur : Intv) : List Intv → List Intv
  | [] => [cur]
  | t :: ts =>
      if cur.ub + 1 = t.lb then intvCompactFrom { cur with ub := t.ub } ts
      else cur :: intvCompactFrom t ts

/-- `intv_compact` returns `i + 1` entries, also for an empty table. -/
def intvCompact (uninit : Intv) : List Intv → List Intv
  | [] => [uninit]
  | t :: ts => intvCompactFrom t ts

/-! ## The linked queue -/

/-- The virtual cube. -/
def bbVirt (numDims : Nat) (dimVirt : UInt64) : BBox where
  numDims := numDims
  lb := Coord.ofFn fun _ => 0
  ub := Coord.ofFn fun i => if i < numDims then dimVirt - 1 else 0

@[simp] theorem bbVirt_lb_c (numDims : Nat) (dimVirt : UInt64) {j : Nat} (hj : j < BBOX_MAX_NDIM) :
    (bbVirt numDims dimVirt).lb.c j = 0 := by
  rw [bbVirt, Coord.c_ofFn _ hj]

theorem bbVirt_ub_toNat {numDims : Nat} {dimVirt : UInt64} (hdims : numDims ≤ BBOX_MAX_NDIM)
    (hpos : 0 < dimVirt.toNat) {j : Nat} (hj : j < numDims) :
    ((bbVirt numDims dimVirt).ub.c j).toNat = dimVirt.toNat - 1 := by
  have hle : (1 : UInt64) ≤ dimVirt := UInt64.le_iff_toNat_le.2 hpos
  rw [bbVirt, Coord.c_ofFn _ (lt_of_lt_of_le hj hdims), if_pos hj, UInt64.toNat_sub_of_le _ _ hle,
    UInt64.toNat_one]

/-- More steps than a run that ends can take. -/
def intvFuel (numDims : Nat) (dimVirt : UInt64) : Nat :=
  (2 * dimVirt.toNat) ^ numDims

/-- `queue_enqueue`; the `int` `num_elem` counts the elements. -/
def queueEnqueue {α : Type} (q : List α) (obj : α) : Option (List α) :=
  if q.length < INT_MAX then some (q ++ [obj]) else none

section Loops

variable {γ : Type} (emit : BBox → γ) (bb : BBox)

/-- The work loop of `bbox_to_intv`: `qCan` is the queue of candidates, `qGood` what has been
emitted. -/
def bboxToIntvLoop : Nat → List BBox → List γ → Option (List γ)
  | _, [], qGood => some qGood
  | 0, _ :: _, _ => none
  | fuel + 1, pbb :: qCan, qGood =>
      if bboxInclude bb pbb then (queueEnqueue qGood (emit pbb)).bind (bboxToIntvLoop fuel qCan)
      else if bboxDoesIntersect bb pbb then
        ((bboxDivide pbb).foldlM queueEnqueue qCan).bind fun qCan => bboxToIntvLoop fuel qCan qGood
      else bboxToIntvLoop fuel qCan qGood

/-! ## The circular table -/

/-- The table `bb_tab` of `bbox_to_intv2` with its size and its two cursors. -/
structure BBRing where
  tab : Nat → BBox
  size : Nat
  head : Nat
  tail : Nat

namespace BBRing

/-- Move the table to one half as large again, rounded down to whole groups of `n`, with the group
of `bb_head` first. -/
def moved (r : BBRing) (n : Nat) : BBRing :=
  let tmpSize := r.size + r.size / 2
  let nhead := r.head - r.head % n
  { tab := fun k =>
      if r.tail > r.head then
        if k < r.tail - nhead then r.tab (nhead + k) else r.tab k
      -- the slots in use wrap around: first those from the head to the end
      else if k < r.size - nhead then r.tab (nhead + k)
      else if k < r.size - nhead + r.tail then r.tab (k - (r.size - nhead))
      else r.tab k
    size := tmpSize - tmpSize % n
    head := r.head % n
    tail := r.size - n }

/-- The table can be moved if `tmp_size` is an `int`. -/
def grow (r : BBRing) (n : Nat) : Option BBRing :=
  if r.size + r.size / 2 ≤ INT_MAX then some (r.moved n) else none

/-- `bbox_divide(pbb, &bb_tab[bb_tail])` and the move of `bb_tail`. -/
def push (r : BBRing) (n : Nat) (bs : Nat → BBox) : BBRing :=
  { r with
    tab := fun k => if r.tail ≤ k ∧ k < r.tail + n then bs (k - r.tail) else r.tab k
    tail := (r.tail + n) % r.size }

def advance (r : BBRing) : BBRing :=
  { r with head := (r.head + 1) % r.size }

/-- Divide the box at `bb_head` into the slots at `bb_tail`, after growing the table if these are
the last free ones. -/
def divide (r : BBRing) (n : Nat) : Option BBRing :=
  (if (r.tail + n) % r.size = r.head - r.head % n then r.grow n else some r).map fun r =>
    r.push n (bboxDivideNth (r.tab r.head))

end BBRing

/-- The table `i_tab` of `bbox_to_intv2`, in which `i_num` is the number of entries. -/
structure IntvTab (γ : Type) where
  iTab : List γ
  iSize : Nat

/-- An entry is written behind the others, after growing the table if it is full. -/
def IntvTab.push (t : IntvTab γ) (itv : γ) : Option (IntvTab γ) :=
  if t.iTab.length = t.iSize then
    if t.iSize + t.iSize / 2 ≤ INT_MAX then some ⟨t.iTab ++ [itv], t.iSize + t.iSize / 2⟩ else none
  else some ⟨t.iTab ++ [itv], t.iSize⟩

/-- A turn of the work loop of `bbox_to_intv2`. -/
def bboxToIntv2Turn (n : Nat) (s : BBRing × IntvTab γ) : Option (BBRing × IntvTab γ) :=
  let pbb := s.1.tab s.1.head
  if bboxInclude bb pbb then (s.2.push (emit pbb)).map fun iTab => (s.1.advance, iTab)
  else if bboxDoesIntersect bb pbb then (s.1.divide n).map fun r => (r.advance, s.2)
  else some (s.1.advance, s.2)

/-- The work loop of `bbox_to_intv2`. -/
def bboxToIntv2Loop (n : Nat) : Nat → BBRing × IntvTab γ → Option (List γ)
  | fuel, s =>
      if s.1.head = s.1.tail then some s.2.iTab
      else
        match fuel with
        | 0 => none
        | fuel + 1 => (bboxToIntv2Turn emit bb n s).bind (bboxToIntv2Loop n fuel)

end Loops

/-- The table of boxes that `bbox_to_intv2` starts from: 4096 slots, the virtual cube in the last one. -/
def bbRingInit (numDims : Nat) (dimVirt : UInt64) : BBRing where
  tab := fun _ => bbVirt numDims dimVirt
  size := 4096
  head := 4095
  tail := 0

/-- The table of intervals that it starts from. -/
def intvTabInit (γ : Type) : IntvTab γ := ⟨[], 4096⟩

section ToIntv

variable (hilbertC2i : HilbertC2i) (uninit : Intv)

/-- `qsort` by `intv_compar`, then `intv_compact`. -/
def intvFinish (iTab : List Intv) : List Intv :=
  intvCompact uninit (iTab.mergeSort intvCompar)

def bboxToIntv (bb : BBox) (dimVirt : UInt64) : Option (List Intv) :=
  (bboxToIntvLoop (bboxFlat hilbertC2i (computeBits dimVirt)) bb (intvFuel bb.numDims dimVirt)
    [bbVirt bb.numDims dimVirt] []).map (intvFinish uninit)

def bboxToIntv2 (bb : BBox) (dimVirt : UInt64) : Option (List Intv) :=
  (bboxToIntv2Loop (bboxFlat hilbertC2i (computeBits dimVirt)) bb (2 ^ bb.numDims)
    (intvFuel bb.numDims dimVirt) (bbRingInit bb.numDims dimVirt, intvTabInit Intv)).map
      (intvFinish uninit)

end ToIntv

end DataSpaces
