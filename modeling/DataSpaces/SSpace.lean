import Mathlib.Tactic.NormNum
import DataSpaces.Linearize

/-!
# SSpace — the shared space and its hash (`ss_data.c`)

A shared space spreads the cells of a global domain over the servers of a group.  `ssd_alloc` cuts
the domain up once, in one of three ways: not at all (v0), into slices of a space-filling curve (v1),
or by recursive bisection with the pieces dealt out in turn (v2).  `ssd_hash` then names the servers
that a box concerns, and `ssh_hash_elem_count` counts the cells of a box that one server is in charge
of.

Only the part of a `dht_entry` that `ssd_alloc` fixes is here; the table of descriptors that a server
keeps in its own entry is in `DhtTable`.  Every function returns `none` where the source does not
return (`next_pow_2_v2` of a value above `2 ^ 63`, a linearization that does not end) or reads past
the end of a table.
-/

namespace DataSpaces

/-- `enum sspace_hash_version`. -/
inductive HashVersion
  | auto
  | v0
  | v1
  | v2
  deriving DecidableEq

/-- The geometry of a `struct dht_entry`: `i_virt` and `i_tab` are for v1, `bb_tab` for v2. -/
structure DhtEntry where
  rank : Nat
  iVirt : Intv
  iTab : List Intv
  bbTab : List BBox
  deriving DecidableEq

/-- `struct sspace` with its `struct dht`. -/
structure SSpace where
  hashVersion : HashVersion
  maxDim : UInt64
  bbGlbDomain : BBox
  entTab : List DhtEntry
  odscSize : Nat
  deriving DecidableEq

/-! ## Powers of two -/

def nextPow2Loop : Nat → UInt64 → UInt64 → Option UInt64
  | 0, _, _ => none
  | fuel + 1, n, i => if i < n then nextPow2Loop fuel n (i <<< 1) else some i

/-- `next_pow_2_v2`: after 64 doublings `i` is `0` for good. -/
def nextPow2V2 (n : UInt64) : Option UInt64 :=
  nextPow2Loop 65 n 1

def computeBitsV2Loop : Nat → UInt64 → Nat → Nat
  | 0, _, nrBits => nrBits
  | fuel + 1, n, nrBits => if n > 1 then computeBitsV2Loop fuel (n >>> 1) (nrBits + 1) else nrBits

def computeBitsV2 (n : UInt64) : Nat :=
  computeBitsV2Loop 64 n 0

theorem nextPow2Loop_zero {n : UInt64} (hn : 0 < n) (fuel : Nat) : nextPow2Loop fuel n 0 = none := by
  induction fuel with
  | zero => rfl
  | succ fuel ih =>
      rw [nextPow2Loop, if_pos hn]
      exact ih

theorem toNat_double {i : UInt64} {k : Nat} (hi : i.toNat = 2 ^ k) (hk : k < 63) :
    (i <<< 1).toNat = 2 ^ (k + 1) := by
  have hlt : 2 ^ (k + 1) < 2 ^ 64 := Nat.pow_lt_pow_right (by norm_num) (by omega)
  rw [UInt64.toNat_shiftLeft, hi]
  have hone : (1 : UInt64).toNat % 64 = 1 := rfl
  rw [hone, Nat.shiftLeft_eq, ← Nat.pow_succ]
  exact Nat.mod_eq_of_lt hlt

theorem double_top {i : UInt64} (hi : i.toNat = 2 ^ 63) : i <<< 1 = 0 := by
  apply UInt64.toNat_inj.1
  rw [UInt64.toNat_shiftLeft, hi]
  rfl

/-- What the loop returns is the first power of two that is not below `n`. -/
theorem nextPow2Loop_some (fuel : Nat) :
    ∀ (k : Nat) (n i p : UInt64), i.toNat = 2 ^ k → k ≤ 63 → nextPow2Loop fuel n i = some p →
      ∃ k', k' ≤ 63 ∧ p.toNat = 2 ^ k' ∧ n.toNat ≤ 2 ^ k' ∧ ∀ j, k ≤ j → j < k' → 2 ^ j < n.toNat := by
  induction fuel with
  | zero =>
      intro k n i p _ _ h
      simp [nextPow2Loop] at h
  | succ fuel ih =>
      intro k n i p hi hk h
      rw [nextPow2Loop] at h
      by_cases hlt : i < n
      · rw [if_pos hlt] at h
        have hlt' := UInt64.lt_iff_toNat_lt.1 hlt
        rcases Nat.lt_or_ge k 63 with hk63 | hk63
        · obtain ⟨k', hk', hp, hn, hbelow⟩ := ih (k + 1) n _ p (toNat_double hi hk63) hk63 h
          refine ⟨k', hk', hp, hn, fun j hkj hj => ?_⟩
          rcases Nat.eq_or_lt_of_le hkj with rfl | hkj
          · omega
          · exact hbelow j hkj hj
        · -- doubling the top bit gives zero, from where the loop does not end
          have hk63' : k = 63 := by omega
          subst hk63'
          have hn : 0 < n := UInt64.lt_iff_toNat_lt.2 (by rw [UInt64.toNat_zero]; omega)
          rw [double_top hi, nextPow2Loop_zero hn] at h
          exact absurd h (by simp)
      · rw [if_neg hlt, Option.some.injEq] at h
        subst h
        have hle := UInt64.le_iff_toNat_le.1 (UInt64.not_lt.1 hlt)
        exact ⟨k, hk, hi, by omega, fun j hkj hj => by omega⟩

theorem nextPow2Loop_isSome (fuel : Nat) :
    ∀ (k : Nat) (n i : UInt64), i.toNat = 2 ^ k → k ≤ 63 → 64 ≤ fuel + k → n.toNat ≤ 2 ^ 63 →
      ∃ p, nextPow2Loop fuel n i = some p := by
  induction fuel with
  | zero =>
      intro k n i _ hk hfuel
      omega
  | succ fuel ih =>
      intro k n i hi hk hfuel hn
      rw [nextPow2Loop]
      by_cases hlt : i < n
      · have hlt' := UInt64.lt_iff_toNat_lt.1 hlt
        -- the top bit is not below `n`
        have hk63 : k < 63 := by
          by_contra hcon
          have hk63' : k = 63 := by omega
          subst hk63'
          omega
        rw [if_pos hlt]
        exact ih (k + 1) n _ (toNat_double hi hk63) hk63 (by omega) hn
      · exact ⟨i, if_neg hlt⟩

theorem nextPow2V2_some {n p : UInt64} (h : nextPow2V2 n = some p) :
    ∃ k, k ≤ 63 ∧ p.toNat = 2 ^ k ∧ n.toNat ≤ 2 ^ k ∧ ∀ j < k, 2 ^ j < n.toNat := by
  obtain ⟨k, hk, hp, hn, hbelow⟩ := nextPow2Loop_some 65 0 n 1 p rfl (by omega) h
  exact ⟨k, hk, hp, hn, fun j hj => hbelow j (Nat.zero_le j) hj⟩

/-- `next_pow_2_v2` returns exactly on values up to `2 ^ 63`. -/
theorem nextPow2V2_isSome_iff {n : UInt64} : (nextPow2V2 n).isSome ↔ n.toNat ≤ 2 ^ 63 := by
  rw [Option.isSome_iff_exists]
  constructor
  · rintro ⟨p, hp⟩
    obtain ⟨k, hk, -, hn, -⟩ := nextPow2V2_some hp
    exact hn.trans (Nat.pow_le_pow_right (by norm_num) hk)
  · exact nextPow2Loop_isSome 65 0 n 1 rfl (by omega) (by omega)

theorem computeBitsV2Loop_two_pow (fuel : Nat) :
    ∀ (k : Nat) (n : UInt64) (nrBits : Nat), n.toNat = 2 ^ k → k < fuel →
      computeBitsV2Loop fuel n nrBits = nrBits + k := by
  induction fuel with
  | zero =>
      intro k n nrBits _ hk
      omega
  | succ fuel ih =>
      intro k n nrBits hn hk
      rw [computeBitsV2Loop]
      cases k with
      | zero =>
          have hle : ¬ n > 1 := by
            rw [gt_iff_lt, UInt64.lt_iff_toNat_lt, hn, UInt64.toNat_one]
            omega
          rw [if_neg hle, Nat.add_zero]
      | succ k =>
          have hpos := Nat.two_pow_pos k
          have hgt : n > 1 := by
            rw [gt_iff_lt, UInt64.lt_iff_toNat_lt, hn, UInt64.toNat_one, Nat.pow_succ]
            omega
          -- one more bit, and half of the number
          have hhalf : (n >>> 1).toNat = 2 ^ k := by
            have hshift : (n >>> 1).toNat = n.toNat / 2 := by
              rw [UInt64.toNat_shiftRight]
              rfl
            rw [hshift, hn, Nat.pow_succ]
            omega
          rw [if_pos hgt, ih k _ _ hhalf (by omega)]
          omega

theorem computeBitsV2_two_pow {n : UInt64} {k : Nat} (hn : n.toNat = 2 ^ k) (hk : k ≤ 63) :
    computeBitsV2 n = k := by
  rw [computeBitsV2, computeBitsV2Loop_two_pow 64 k n 0 hn (by omega)]
  omega

/-- For an `int` number of servers there are at most 31 rounds. -/
theorem computeBitsV2_nextPow2_le {numNodes : Nat} {p : UInt64} (hn : numNodes < 2 ^ 31)
    (h : nextPow2V2 (UInt64.ofNat numNodes) = some p) : computeBitsV2 p ≤ 31 := by
  obtain ⟨k, hk, hp, -, hbelow⟩ := nextPow2V2_some h
  rw [computeBitsV2_two_pow hp hk]
  by_contra hcon
  have hlt := hbelow 31 (by omega)
  rw [UInt64.toNat_ofNat', Nat.mod_eq_of_lt (by omega)] at hlt
  omega

/-! ## v2: recursive bisection -/

/-- One turn of the loop of `get_bbox_max_dim_size`. -/
def maxDimSizeStep (bb : BBox) (s : UInt64 × Nat) (i : Nat) : UInt64 × Nat :=
  let size := bb.ub.c i - bb.lb.c i + 1
  if s.1 < size then (size, i) else s

/-- The largest side and its dimension.  `dim` is the caller's variable, which keeps its value when no
side is larger than `0`. -/
def getBboxMaxDimSize (bb : BBox) (dim : Nat) : UInt64 × Nat :=
  (List.range bb.numDims).foldl (maxDimSizeStep bb) (0, dim)

def maxDimStep (bb : BBox) (s : UInt64 × Nat) (i : Nat) : UInt64 × Nat :=
  if s.1 < bb.ub.c i then (bb.ub.c i, i) else s

/-- The largest upper bound and its dimension. -/
def getBboxMaxDim (bb : BBox) (dim : Nat) : UInt64 × Nat :=
  (List.range bb.numDims).foldl (maxDimStep bb) (0, dim)

/-- Drain the source queue, halving every box along its largest side into the other queue. -/
def divideQueue : Nat → List BBox → Nat × List BBox
  | dim, [] => (dim, [])
  | dim, bb :: srcQ =>
      let dim' := (getBboxMaxDimSize bb dim).2
      let bTab := bboxDivideIn2Ondim bb dim'
      let rest := divideQueue dim' srcQ
      (rest.1, bTab.1 :: bTab.2 :: rest.2)

/-- The rounds of bisection.  The two queues of the source change roles after each round and one of
them is empty then. -/
def divideRounds : Nat → Nat → List BBox → List BBox
  | 0, _, q => q
  | numDivideIteration + 1, dim, q =>
      let next := divideQueue dim q
      divideRounds numDivideIteration next.1 next.2

/-- `dht_alloc`, with the ranks the callers fill in. -/
def dhtAlloc (numNodes : Nat) : List DhtEntry :=
  (List.range numNodes).map fun i => { rank := i, iVirt := ⟨0, 0⟩, iTab := [], bbTab := [] }

/-- Simple round-robin mapping of the boxes to the entries, from entry `i % num_entries` on. -/
def mapRoundRobin : Nat → List BBox → List DhtEntry → List DhtEntry
  | _, [], entTab => entTab
  | i, bb :: q, entTab =>
      mapRoundRobin (i + 1) q
        (entTab.modify (i % entTab.length) fun de => { de with bbTab := de.bbTab ++ [bb] })

def ssdAllocV2 (bbDomain : BBox) (numNodes maxVersions : Nat) : Option SSpace := do
  -- `dim` starts uninitialised; a valid domain sets it before it is used
  let (maxDim0, dim) := getBboxMaxDim bbDomain 0
  let maxDim ← nextPow2V2 maxDim0
  let pow ← nextPow2V2 (UInt64.ofNat numNodes)
  let q := divideRounds (computeBitsV2 pow) dim [bbDomain]
  return { hashVersion := .v2
           maxDim := maxDim
           bbGlbDomain := bbDomain
           entTab := mapRoundRobin 0 q (dhtAlloc numNodes)
           odscSize := maxVersions }

/-! ## v1: slices of the curve -/

section V1

variable (hilbertC2i : HilbertC2i) (uninit : Intv)

/-- The `while` loop that moves `len` indices from the front of the interval table to an entry. -/
def takeIntv (len : UInt64) : List Intv → Option (List Intv × List Intv)
  | [] => if len = 0 then some ([], []) else none
  | t :: ts =>
      if len = 0 then some ([], t :: ts)
      else if intvSize t > len then
        some ([⟨t.lb, t.lb + len - 1⟩], ⟨t.lb + len, t.ub⟩ :: ts)
      else (takeIntv (len - intvSize t) ts).map fun s => (t :: s.1, s.2)

/-- The share of entry `i`. -/
def snAt (vol : UInt64) (numEntries i : Nat) : UInt64 :=
  if i < (vol % UInt64.ofNat numEntries).toNat then vol / UInt64.ofNat numEntries + 1
  else vol / UInt64.ofNat numEntries

/-- `i_virt`, from the first and the last interval of the entry. -/
def hullOf (iTab : List Intv) : Intv :=
  ⟨(iTab.head?.getD uninit).lb, (iTab.getLast?.getD uninit).ub⟩

/-- Hand the table out to the entries with the listed ranks. -/
def sliceEntries (sn : Nat → UInt64) : List Nat → List Intv → Option (List DhtEntry)
  | [], _ => some []
  | i :: is, iTab => do
      let (mine, iTab') ← takeIntv (sn i) iTab
      let rest ← sliceEntries sn is iTab'
      return { rank := i, iVirt := hullOf uninit mine, iTab := mine, bbTab := [] } :: rest

def dhtConstructHash (bbGlbDomain : BBox) (maxDim : UInt64) (numEntries : Nat) :
    Option (List DhtEntry) := do
  let iTab ← bboxToIntv hilbertC2i uninit bbGlbDomain maxDim
  sliceEntries uninit (snAt (bboxVolume bbGlbDomain) numEntries) (List.range numEntries) iTab

/-- The largest upper bound of the domain, and `1` for a domain of one cell at the origin. -/
def maxUb (bbDomain : BBox) : UInt64 :=
  let maxDim := (List.range' 1 (bbDomain.numDims - 1)).foldl
    (fun m i => if bbDomain.ub.c i > m then bbDomain.ub.c i else m) (bbDomain.ub.c 0)
  if maxDim = 0 then 1 else maxDim

def ssdAllocV1 (bbDomain : BBox) (numNodes maxVersions : Nat) : Option SSpace := do
  let maxDim ← nextPow2V2 (maxUb bbDomain)
  let entTab ← dhtConstructHash hilbertC2i uninit bbDomain maxDim numNodes
  return { hashVersion := .v1
           maxDim := maxDim
           bbGlbDomain := bbDomain
           entTab := entTab
           odscSize := maxVersions }

end V1

/-! ## v0 and the choice -/

/-- One entry, whatever the number of servers is. -/
def ssdAllocV0 (bbDomain : BBox) (maxVersions : Nat) : SSpace where
  hashVersion := .v0
  maxDim := 0
  bbGlbDomain := bbDomain
  entTab := dhtAlloc 1
  odscSize := maxVersions

def ssdChooseHash (bbDomain : BBox) : HashVersion :=
  if bbDomain.numDims = 1 ∧ bbDomain.ub.c 0 = 0 then .v0
  else if (List.range bbDomain.numDims).any fun i =>
      (bbDomain.ub.c i &&& (bbDomain.ub.c i + 1)) != 0 then .v2
  else .v1

section Hash

variable (hilbertC2i : HilbertC2i) (uninit : Intv)

def ssdAlloc (bbDomain : BBox) (numNodes maxVersions : Nat) (hashVersion : HashVersion) :
    Option SSpace :=
  match if hashVersion = .auto then ssdChooseHash bbDomain else hashVersion with
  | .v0 => some (ssdAllocV0 bbDomain maxVersions)
  | .v1 => ssdAllocV1 hilbertC2i uninit bbDomain numNodes maxVersions
  | .v2 => ssdAllocV2 bbDomain numNodes maxVersions
  | .auto => none

/-! ## Hashing a box to entries -/

def dhtIntersect (de : DhtEntry) (itv : Intv) : Bool :=
  if de.iVirt.lb > itv.ub || de.iVirt.ub < itv.lb then false
  else de.iTab.any fun i => intvDoIntersect i itv

/-- The loop of `ssd_hash_v1`, without the cache. -/
def ssdHashV1Loop (ss : SSpace) (bb : BBox) : Option (List Nat) :=
  (bboxToIntv2 hilbertC2i uninit bb ss.maxDim).map fun iTab =>
    (ss.entTab.filter fun de => iTab.any (dhtIntersect de)).map DhtEntry.rank

/-- The loop of `ssd_hash_v2`, without the cache. -/
def ssdHashV2Loop (ss : SSpace) (bb : BBox) : List Nat :=
  (ss.entTab.filter fun de => de.bbTab.any (bboxDoesIntersect bb)).map DhtEntry.rank

/-- The ranks of the entries that the box hashes to when nothing is cached. -/
def ssdHashLoop (ss : SSpace) (bb : BBox) : Option (List Nat) :=
  match ss.hashVersion with
  | .v0 => some [0]
  | .v1 => ssdHashV1Loop hilbertC2i uninit ss bb
  | .v2 => some (ssdHashV2Loop ss bb)
  | .auto => some []

/-! ## Counting the cells of an entry -/

/-- What one interval of the box contributes to the count of `ssh_hash_elem_count_v1`. -/
def elemOverlap (iSelf i : Intv) : Int64 :=
  if iSelf.lb ≤ i.ub && iSelf.ub ≥ i.lb then
    let overlap := ((iSelf.ub - i.lb) + 1).toInt64
    let overlap := if i.lb < iSelf.lb then overlap - (iSelf.lb - i.lb).toInt64 else overlap
    if iSelf.ub > i.ub then overlap - (iSelf.ub - i.ub).toInt64 else overlap
  else 0

def sshHashElemCountV0 (bb : BBox) : Int64 :=
  (bboxVolume bb).toInt64

def sshHashElemCountV1 (ss : SSpace) (entSelf : DhtEntry) (bb : BBox) : Option Int64 :=
  (bboxToIntv2 hilbertC2i uninit bb ss.maxDim).map fun iTab =>
    iTab.foldl (fun numElem i => numElem + elemOverlap entSelf.iVirt i) 0

def sshHashElemCountV2 (entSelf : DhtEntry) (bb : BBox) : Int64 :=
  entSelf.bbTab.foldl (fun numElem entBb =>
    if bboxDoesIntersect bb entBb then numElem + (bboxVolume (bboxIntersect bb entBb)).toInt64
    else numElem) 0

/-- The number of cells of `bb` that hash to the entry `ent_self`. -/
def sshHashElemCount (ss : SSpace) (entSelf : DhtEntry) (bb : BBox) : Option Int64 :=
  match ss.hashVersion with
  | .v0 => some (sshHashElemCountV0 bb)
  | .v1 => sshHashElemCountV1 hilbertC2i uninit ss entSelf bb
  | .v2 => some (sshHashElemCountV2 entSelf bb)
  | .auto => some 0

end Hash

end DataSpaces
