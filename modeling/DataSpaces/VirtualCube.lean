import Mathlib.Order.Lattice.Nat
import DataSpaces.Exactness

/-!
# VirtualCube — the cube of a v1 space against its domain

`ssd_alloc_v1` rounds the largest upper bound of the domain up to a power of two and takes that as
the side of the virtual cube.  Upper bounds are inclusive, so a bound that already is a power of two
lies one cell outside: the table of the domain then misses cells, and `dht_construct_hash` reads past
its end.  `bbox_flat` asks the curve for indices of `compute_bits(max_dim)` bits per dimension,
which is one more than the side needs and does not always fit the word.
-/

namespace DataSpaces

/-! ## The largest upper bound -/

/-- The largest upper bound of a box. -/
def BBox.top (b : BBox) : ℕ :=
  (Finset.range b.numDims).sup fun j => (b.ub.c j).toNat

theorem BBox.le_top (b : BBox) {j : Nat} (hj : j < b.numDims) : (b.ub.c j).toNat ≤ b.top :=
  Finset.le_sup (f := fun j => (b.ub.c j).toNat) (Finset.mem_range.2 hj)

theorem BBox.exists_top {b : BBox} (hb : 1 ≤ b.numDims) :
    ∃ j < b.numDims, (b.ub.c j).toNat = b.top := by
  obtain ⟨j, hj, htop⟩ := Finset.exists_mem_eq_sup (Finset.range b.numDims)
    ⟨0, Finset.mem_range.2 hb⟩ fun j => (b.ub.c j).toNat
  exact ⟨j, Finset.mem_range.1 hj, htop.symm⟩

/-- A running maximum is one of the values and bounds them all. -/
theorem foldl_running_max (f : Nat → UInt64) (l : List Nat) :
    ∀ m : UInt64, m ≤ l.foldl (fun m i => if f i > m then f i else m) m ∧
      (∀ i ∈ l, f i ≤ l.foldl (fun m i => if f i > m then f i else m) m) ∧
      (l.foldl (fun m i => if f i > m then f i else m) m = m ∨
        ∃ i ∈ l, l.foldl (fun m i => if f i > m then f i else m) m = f i) := by
  induction l with
  | nil =>
      intro m
      simp
  | cons i l ih =>
      intro m
      rw [List.foldl_cons]
      -- the turn keeps `m` or takes the value in its place
      by_cases hgt : f i > m
      · rw [if_pos hgt]
        obtain ⟨hle, hall, hone⟩ := ih (f i)
        refine ⟨UInt64.le_trans (UInt64.le_of_lt hgt) hle, fun j hj => ?_, Or.inr ?_⟩
        · rcases List.mem_cons.1 hj with rfl | hj
          · exact hle
          · exact hall j hj
        · rcases hone with hone | ⟨j, hj, hone⟩
          · exact ⟨i, by simp, hone⟩
          · exact ⟨j, by simp [hj], hone⟩
      · rw [if_neg hgt]
        obtain ⟨hle, hall, hone⟩ := ih m
        refine ⟨hle, fun j hj => ?_, ?_⟩
        · rcases List.mem_cons.1 hj with rfl | hj
          · exact UInt64.le_trans (UInt64.not_lt.1 hgt) hle
          · exact hall j hj
        · rcases hone with hone | ⟨j, hj, hone⟩
          · exact Or.inl hone
          · exact Or.inr ⟨j, by simp [hj], hone⟩

/-- What `ssd_alloc_v1` rounds up. -/
theorem toNat_maxUb {b : BBox} (hb : 1 ≤ b.numDims) : (maxUb b).toNat = max 1 b.top := by
  obtain ⟨hle, hall, hone⟩ :=
    foldl_running_max (fun i => b.ub.c i) (List.range' 1 (b.numDims - 1)) (b.ub.c 0)
  simp only [maxUb]
  -- the loop starts at dimension 0 and goes on from 1
  generalize (List.range' 1 (b.numDims - 1)).foldl
    (fun m i => if b.ub.c i > m then b.ub.c i else m) (b.ub.c 0) = m at hle hall hone ⊢
  have htop : m.toNat = b.top := by
    apply Nat.le_antisymm
    · rcases hone with rfl | ⟨i, hi, rfl⟩
      · exact b.le_top hb
      · have hi := List.mem_range'_1.1 hi
        exact b.le_top (by omega)
    · obtain ⟨j, hj, htop⟩ := BBox.exists_top hb
      rw [← htop]
      rcases Nat.eq_zero_or_pos j with rfl | hpos
      · exact UInt64.le_iff_toNat_le.1 hle
      · exact UInt64.le_iff_toNat_le.1 (hall j (List.mem_range'_1.2 (by omega)))
  by_cases hzero : m = 0
  · subst hzero
    rw [if_pos rfl, ← htop]
    rfl
  · have hne : m.toNat ≠ 0 := fun h => hzero (UInt64.toNat_inj.1 h)
    rw [if_neg hzero, ← htop]
    omega

/-- Rounding up gets past a bound that is no power of two, and only past such a bound. -/
theorem top_lt_iff {b : BBox} (hb : 1 ≤ b.numDims) {p : UInt64}
    (hp : nextPow2V2 (maxUb b) = some p) : b.top < p.toNat ↔ ∀ a, b.top ≠ 2 ^ a := by
  obtain ⟨k, -, hpk, hle, hleast⟩ := nextPow2V2_some hp
  rw [toNat_maxUb hb] at hle hleast
  rw [hpk]
  constructor
  · intro hlt a ha
    have hak : a < k := by
      rw [ha] at hlt
      exact (Nat.pow_lt_pow_iff_right (by norm_num)).1 hlt
    have := hleast a hak
    have := Nat.two_pow_pos a
    omega
  · intro hne
    have := hne k
    omega

/-- `next_pow_2_v2` of the largest bound returns unless the bound is above `2 ^ 63`. -/
theorem nextPow2V2_maxUb {b : BBox} (hb : 1 ≤ b.numDims) :
    (∃ p, nextPow2V2 (maxUb b) = some p) ↔ b.top ≤ 2 ^ 63 := by
  rw [← Option.isSome_iff_exists, nextPow2V2_isSome_iff, toNat_maxUb hb]
  omega

/-- The side of the smallest cube that the bound rounds up to. -/
def BBox.cubeSide (b : BBox) : UInt64 :=
  UInt64.ofNat (2 ^ Nat.clog 2 b.top)

theorem eq_cubeSide {b : BBox} (hb : 1 ≤ b.numDims) {p : UInt64} (hp : nextPow2V2 (maxUb b) = some p) :
    p = b.cubeSide := by
  obtain ⟨k, -, hpk, hle, hleast⟩ := nextPow2V2_some hp
  rw [toNat_maxUb hb] at hle hleast
  have hclog : Nat.clog 2 b.top = k := by
    refine Nat.le_antisymm (Nat.clog_le_of_le_pow ((Nat.le_max_right _ _).trans hle)) ?_
    by_contra hcon
    have hlt := hleast _ (Nat.lt_of_not_le hcon)
    have hpow := Nat.le_pow_clog Nat.one_lt_two b.top
    have hpos := Nat.two_pow_pos (Nat.clog 2 b.top)
    omega
  rw [BBox.cubeSide, hclog, ← hpk, UInt64.ofNat_toNat]

theorem ub_lt_iff_top_lt {b : BBox} (hb : 1 ≤ b.numDims) {p : UInt64} :
    (∀ j < b.numDims, b.ub.c j < p) ↔ b.top < p.toNat := by
  constructor
  · intro h
    obtain ⟨j, hj, htop⟩ := BBox.exists_top hb
    rw [← htop]
    exact UInt64.lt_iff_toNat_lt.1 (h j hj)
  · intro h j hj
    exact UInt64.lt_iff_toNat_lt.2 (lt_of_le_of_lt (b.le_top hj) h)

/-! ## Fitting the word -/

/-- The arguments of a call of `hilbert_c2i`. -/
structure HilbertCall where
  nDims : Nat
  nBits : Nat
  coord : List UInt64

/-- The calls that `bbox_flat` makes, one for each corner. -/
def bboxFlatCalls (bpd : Nat) (bb : BBox) : List HilbertCall :=
  (List.range (2 ^ bb.numDims)).map fun i => ⟨bb.numDims, bpd, sfcCoord bb i⟩

/-- `bbox_flat` reads the curve through these calls only. -/
theorem bboxFlat_eq_calls (hilbertC2i : HilbertC2i) (bpd : Nat) (bb : BBox) :
    bboxFlat hilbertC2i bpd bb =
      ((bboxFlatCalls bpd bb).map fun c => hilbertC2i c.nDims c.nBits c.coord).foldl flatStep
        { lb := 0xffffffffffffffff, ub := 0 } := by
  rw [bboxFlatCalls, List.map_map]
  rfl

/-- The calls for the sub-cubes that lie in the box. -/
def bboxToIntvCalls (bb : BBox) (dimVirt : UInt64) : List HilbertCall :=
  (innerCubes bb dimVirt).flatMap (bboxFlatCalls (computeBits dimVirt))

/-- The documented assumption of `hilbert_c2i` for every one of the calls. -/
def CallsFit (bb : BBox) (dimVirt : UInt64) : Prop :=
  ∀ c ∈ bboxToIntvCalls bb dimVirt, c.nDims * c.nBits ≤ 64

/-- `ssd_alloc_v1` finds a side for the cube, and for the domain and every other box of its
dimensionality the calls of `bbox_flat` fit the word. -/
def IndexFits (dom : BBox) : Prop :=
  ∃ maxDim, nextPow2V2 (maxUb dom) = some maxDim ∧
    ∀ bb : BBox, bb.Valid → bb.numDims = dom.numDims → CallsFit bb maxDim

section Fits

variable {dom bb : BBox} {p : UInt64} {k : Nat}

/-- These are the calls of `bbox_to_intv`, when the queues can count. -/
theorem bboxToIntvLoop_calls (hbb : bb.Valid) (hp : p.toNat = 2 ^ k) {calls : List (List HilbertCall)}
    (h : bboxToIntvLoop (bboxFlatCalls (computeBits p)) bb (intvFuel bb.numDims p)
      [bbVirt bb.numDims p] [] = some calls) : calls.flatten = bboxToIntvCalls bb p := by
  obtain ⟨rfl, -⟩ := (bboxToIntvLoop_iff (CubeDims.of_valid hbb hp) hbb hp).1 h
  rfl

/-- And those of `bbox_to_intv2`, when its tables have room. -/
theorem bboxToIntv2Loop_calls (hbb : bb.Valid) (hp : p.toNat = 2 ^ k) {calls : List (List HilbertCall)}
    (h : bboxToIntv2Loop (bboxFlatCalls (computeBits p)) bb (2 ^ bb.numDims) (intvFuel bb.numDims p)
      (bbRingInit bb.numDims p, intvTabInit _) = some calls) : calls.flatten = bboxToIntvCalls bb p := by
  obtain ⟨rfl, -⟩ := (bboxToIntv2Loop_iff (CubeDims.of_valid hbb hp) hbb hp).1 h
  rfl

/-- Every call is made with the dimensionality of the box and the bits of the side. -/
theorem args_of_mem_bboxToIntvCalls (hbb : bb.Valid) (hp : p.toNat = 2 ^ k) {c : HilbertCall}
    (hc : c ∈ bboxToIntvCalls bb p) : c.nDims = bb.numDims ∧ c.nBits = k + 1 := by
  have hd := CubeDims.of_valid hbb hp
  obtain ⟨b, hb, hc⟩ := List.mem_flatMap.1 hc
  obtain ⟨i, -, rfl⟩ := List.mem_map.1 hc
  obtain ⟨l, hcube⟩ := (innerCubes_spec hd hbb hp).1 b hb
  exact ⟨hcube.dims, computeBits_two_pow hp hd.bits⟩

/-- A box that meets the cube has a sub-cube inside, and that cube has a first corner. -/
theorem bboxToIntvCalls_ne_nil (hbb : bb.Valid) (hp : p.toNat = 2 ^ k)
    (hmeet : (bb.cells ∩ (bbVirt bb.numDims p).cells).Nonempty) : bboxToIntvCalls bb p ≠ [] := by
  obtain ⟨b, bs, hcons⟩ := List.exists_cons_of_ne_nil (innerCubes_ne_nil hbb hp hmeet)
  have hcall : (⟨b.numDims, computeBits p, sfcCoord b 0⟩ : HilbertCall) ∈ bboxToIntvCalls bb p :=
    List.mem_flatMap.2 ⟨b, by rw [hcons]; exact List.mem_cons_self,
      List.mem_map.2 ⟨0, List.mem_range.2 (Nat.two_pow_pos _), rfl⟩⟩
  exact List.ne_nil_of_mem hcall

theorem callsFit_of_bits (hbb : bb.Valid) (hp : p.toNat = 2 ^ k) (hbits : bb.numDims * (k + 1) ≤ 64) :
    CallsFit bb p := by
  intro c hc
  obtain ⟨hdims, hnBits⟩ := args_of_mem_bboxToIntvCalls hbb hp hc
  rwa [hdims, hnBits]

/-- The calls for a box that meets the cube fit only if the word has the bits. -/
theorem bits_of_callsFit (hbb : bb.Valid) (hp : p.toNat = 2 ^ k)
    (hmeet : (bb.cells ∩ (bbVirt bb.numDims p).cells).Nonempty) (h : CallsFit bb p) :
    bb.numDims * (k + 1) ≤ 64 := by
  obtain ⟨c, hc⟩ := List.exists_mem_of_ne_nil _ (bboxToIntvCalls_ne_nil hbb hp hmeet)
  obtain ⟨hdims, hnBits⟩ := args_of_mem_bboxToIntvCalls hbb hp hc
  have hfit := h c hc
  rwa [hdims, hnBits] at hfit

theorem callsFit_domain (hdom : dom.Valid) (hp : p.toNat = 2 ^ k)
    (hbelow : ∀ j < dom.numDims, dom.ub.c j < p) (h : CallsFit dom p) :
    dom.numDims * (k + 1) ≤ 64 := by
  have hsub := cells_subset_bbVirt (CubeDims.of_valid hdom hp) hp rfl hbelow
  refine bits_of_callsFit hdom hp ?_ h
  rw [Finset.inter_eq_left.2 hsub]
  exact hdom.cells_nonempty

/-- The bits of the cube around a domain fit the word iff the largest bound is below the side that the
word has room for. -/
theorem bits_le_iff (hdims : dom.DimsOk) (hp : nextPow2V2 (maxUb dom) = some p)
    (hpk : p.toNat = 2 ^ k) (hbelow : dom.top < p.toNat) :
    dom.numDims * (k + 1) ≤ 64 ↔ dom.top < 2 ^ (64 / dom.numDims - 1) := by
  have hpos := hdims.1
  have hten : dom.numDims ≤ 10 := hdims.2
  have hsix : 6 ≤ 64 / dom.numDims := (Nat.le_div_iff_mul_le hpos).2 (by omega)
  obtain ⟨k', -, hpk', -, hleast⟩ := nextPow2V2_some hp
  obtain rfl : k' = k := Nat.pow_right_injective (le_refl 2) (hpk'.symm.trans hpk)
  rw [toNat_maxUb hpos] at hleast
  rw [Nat.mul_comm, ← Nat.le_div_iff_mul_le hpos]
  constructor
  · intro h
    calc dom.top < 2 ^ k' := hpk ▸ hbelow
      _ ≤ 2 ^ (64 / dom.numDims - 1) := Nat.pow_le_pow_right (by norm_num) (by omega)
  · intro h
    by_contra hcon
    have hlt := hleast (64 / dom.numDims - 1) (by omega)
    have hone : 1 ≤ 2 ^ (64 / dom.numDims - 1) := Nat.two_pow_pos _
    omega

end Fits

/-! ## Covering the domain -/

section Covers

variable {hilbertC2i : HilbertC2i} {dom : BBox} {hashVersion : HashVersion}

/-- The version that `ssd_alloc` takes: the configured one, or the one `ssd_choose_hash` picks. -/
def ssdVersion (dom : BBox) (hashVersion : HashVersion) : HashVersion :=
  if hashVersion = .auto then ssdChooseHash dom else hashVersion

theorem ssdAlloc_of_v1 (hv : ssdVersion dom hashVersion = .v1) (uninit : Intv)
    (numNodes maxVersions : Nat) :
    ssdAlloc hilbertC2i uninit dom numNodes maxVersions hashVersion =
      ssdAllocV1 hilbertC2i uninit dom numNodes maxVersions := by
  rw [ssdVersion] at hv
  rw [ssdAlloc, hv]

/-- A domain below `max_dim` whose sub-cubes the queues can count is cut into intervals that add up to its
volume, and these are enough for the shares of all servers. -/
theorem dhtConstructHash_isSome {p : UInt64} {k : Nat} (hdom : dom.Valid) (hp : p.toNat = 2 ^ k)
    (hbelow : ∀ j < dom.numDims, dom.ub.c j < p)
    (hh : HilbertCurve hilbertC2i dom.numDims (k + 1)) (hfits : QueueFits dom p) (uninit : Intv) :
    ∃ tab, bboxToIntv hilbertC2i uninit dom p = some tab ∧
      (tab.map fun i => (intvSize i).toNat).sum = (bboxVolume dom).toNat ∧
      ∀ numNodes < 2 ^ 31, ∃ ents, dhtConstructHash hilbertC2i uninit dom p numNodes = some ents := by
  have hd := CubeDims.of_valid hdom hp
  have hsub := cells_subset_bbVirt hd hp rfl hbelow
  have hinter := Finset.inter_eq_left.2 hsub
  obtain ⟨tab, hcut, hsorted, hind, -⟩ := cutIntv_spec hd hp hh hdom rfl (by
    rw [hinter]
    exact hdom.cells_nonempty)
  have htab : ∀ uninit, bboxToIntv hilbertC2i uninit dom p = some tab :=
    fun uninit => (bboxToIntv_iff hdom hd hp).2 ⟨hcut uninit, hfits⟩
  have hcard : (indices tab).card = dom.cells.card := by
    rw [hind, card_boxIndices hd hp hh, hinter]
  have hlt : dom.cells.card < 2 ^ 64 := lt_of_le_of_lt (Finset.card_le_card hsub)
    (card_bbVirt_lt hd hp (hh.bits_le hd.le))
  have hvol : (bboxVolume dom).toNat = dom.cells.card := by
    rw [bboxVolume_eq hdom.nearValid, UInt64.toNat_ofNat']
    exact Nat.mod_eq_of_lt hlt
  refine ⟨tab, htab uninit, ?_, fun numNodes hint => ?_⟩
  · rw [sum_intvSize hsorted (by omega), hcard, hvol]
  · rcases Nat.eq_zero_or_pos numNodes with rfl | hpos
    · exact ⟨[], by rw [dhtConstructHash, htab uninit]; rfl⟩
    · -- the shares add up to the volume, so that the table lasts for all of them
      have hsum : ((List.range numNodes).map
          fun i => (snAt (bboxVolume dom) numNodes i).toNat).sum = dom.cells.card := by
        rw [sum_snAt hpos hint, hvol]
      obtain ⟨ents, -, hslice, -⟩ := sliceEntries_spec uninit (snAt (bboxVolume dom) numNodes)
        (List.range numNodes) tab hsorted (by omega) (by omega)
      exact ⟨ents, by rw [dhtConstructHash, htab uninit]; exact hslice⟩

end Covers

section Real

variable {dom : BBox} {hashVersion : HashVersion}

/-- Every upper bound of the domain is below the `max_dim` that `ssd_alloc_v1` computes, and the calls of
`hilbert_c2i` fit the word; `ssd_alloc` returns for any number of servers, the intervals of the domain add up
to its volume, and `dht_construct_hash` finds every index it asks for inside the table. -/
def CubeCovers (dom : BBox) (hashVersion : HashVersion) : Prop :=
  ∃ maxDim, nextPow2V2 (maxUb dom) = some maxDim ∧ (∀ j < dom.numDims, dom.ub.c j < maxDim) ∧
    CallsFit dom maxDim ∧ ∀ (uninit : Intv) (numNodes maxVersions : Nat), numNodes < 2 ^ 31 →
      ∃ ss tab, ssdAlloc hilbertC2i uninit dom numNodes maxVersions hashVersion = some ss ∧
        ss.maxDim = maxDim ∧ bboxToIntv hilbertC2i uninit dom maxDim = some tab ∧
        (tab.map fun i => (intvSize i).toNat).sum = (bboxVolume dom).toNat ∧
        dhtConstructHash hilbertC2i uninit dom maxDim numNodes = some ss.entTab

/-- What is asked of a domain: its indices fit the word, its largest bound is no power of two, and the queues
of `bbox_to_intv` can count its sub-cubes. -/
structure Coverable (dom : BBox) : Prop where
  top_lt : dom.top < 2 ^ (64 / dom.numDims - 1)
  top_ne : ∀ a, dom.top ≠ 2 ^ a
  queues : QueueFits dom dom.cubeSide

/-- Domains for which the tables of `bbox_to_intv2` have room. -/
theorem Coverable.of_ringFits (hdims : dom.DimsOk) {p : UInt64} (hside : nextPow2V2 (maxUb dom) = some p)
    (htop : dom.top < 2 ^ (64 / dom.numDims - 1)) (hne : ∀ a, dom.top ≠ 2 ^ a) (hfits : RingFits dom p) :
    Coverable dom := by
  refine ⟨htop, hne, ?_⟩
  rw [← eq_cubeSide hdims.1 hside]
  exact hfits.queueFits hdims.2

/-- The side of such a domain. -/
theorem Coverable.side (hdom : dom.Valid) (h : Coverable dom) : ∃ p k, nextPow2V2 (maxUb dom) = some p ∧
    p.toNat = 2 ^ k ∧ (∀ j < dom.numDims, dom.ub.c j < p) ∧ dom.numDims * (k + 1) ≤ 64 ∧ QueueFits dom p := by
  have hpos := hdom.dims.1
  have hexp : 64 / dom.numDims - 1 ≤ 63 := by
    have := Nat.div_le_self 64 dom.numDims
    omega
  have hle : dom.top ≤ 2 ^ 63 := h.top_lt.le.trans (Nat.pow_le_pow_right (by norm_num) hexp)
  obtain ⟨p, hp⟩ := (nextPow2V2_maxUb hpos).2 hle
  obtain ⟨k, -, hpk, -, -⟩ := nextPow2V2_some hp
  have hbelow := (top_lt_iff hpos hp).2 h.top_ne
  refine ⟨p, k, hp, hpk, (ub_lt_iff_top_lt hpos).2 hbelow, (bits_le_iff hdom.dims hp hpk hbelow).2 h.top_lt, ?_⟩
  rw [eq_cubeSide hpos hp]
  exact h.queues

/-- The virtual cube of a v1 space covers exactly these domains. -/
theorem cubeCovers_iff (hdom : dom.Valid) (hv : ssdVersion dom hashVersion = .v1) :
    CubeCovers dom hashVersion ↔ Coverable dom := by
  have hpos := hdom.dims.1
  constructor
  · rintro ⟨p, hp, hbelow, hcalls, hrun⟩
    obtain ⟨k, -, hpk, -, -⟩ := nextPow2V2_some hp
    obtain ⟨-, tab, -, -, htab, -⟩ := hrun ⟨0, 0⟩ 0 0 (by norm_num)
    have htop := (ub_lt_iff_top_lt hpos).1 hbelow
    refine ⟨(bits_le_iff hdom.dims hp hpk htop).1 (callsFit_domain hdom hpk hbelow hcalls),
      (top_lt_iff hpos hp).1 htop, ?_⟩
    rw [← eq_cubeSide hpos hp]
    exact ((bboxToIntv_iff hdom (CubeDims.of_valid hdom hpk) hpk).1 htab).2
  · intro h
    obtain ⟨p, k, hp, hpk, hbelow, hbits, hfits⟩ := h.side hdom
    refine ⟨p, hp, hbelow, callsFit_of_bits hdom hpk hbits, fun uninit numNodes maxVersions hint => ?_⟩
    obtain ⟨tab, htab, hsum, hents⟩ := dhtConstructHash_isSome hdom hpk hbelow
      (hilbertCurve_hilbertC2i hdom.dims.1 hdom.dims.2 hbits) hfits uninit
    obtain ⟨ents, hents⟩ := hents numNodes hint
    refine ⟨⟨.v1, p, dom, ents, maxVersions⟩, tab, ?_, rfl, htab, hsum, hents⟩
    rw [ssdAlloc_of_v1 hv, ssdAllocV1, hp, Option.bind_eq_bind, Option.bind_some, hents]
    rfl

/-- An odd number is no power of two unless it is one. -/
theorem ne_two_pow_of_odd {n : Nat} (hodd : n % 2 = 1) (hone : n ≠ 1) (a : Nat) : n ≠ 2 ^ a := by
  intro h
  rcases a with _ | a
  · exact hone h
  · rw [Nat.pow_succ] at h
    omega

theorem coverable_line : Coverable (BBox.line 0 3) :=
  .of_ringFits ⟨by decide, by decide⟩ (p := 4) (by decide) (by decide)
    (ne_two_pow_of_odd (by decide) (by decide))
    (.of_countP (by decide +kernel) (by decide +kernel))

/-- The domain `[0, 3]`, for which `ssd_choose_hash` picks v1, with five servers. -/
theorem cubeCovers_line :
    ∃ ss, ssdAlloc hilbertC2i ⟨0, 0⟩ (BBox.line 0 3) 5 1 .auto = some ss ∧
      ∀ j < 1, (BBox.line 0 3).ub.c j < ss.maxDim := by
  obtain ⟨p, -, hbelow, -, hrun⟩ : CubeCovers (BBox.line 0 3) .auto :=
    (cubeCovers_iff (BBox.line_valid (by decide)) (by decide)).2 coverable_line
  obtain ⟨ss, -, halloc, hmax, -⟩ := hrun ⟨0, 0⟩ 5 1 (by norm_num)
  exact ⟨ss, halloc, by rw [hmax]; exact hbelow⟩

/-- The domain `[0, 1]`: `ssd_choose_hash` picks v1, the virtual cube is the one cell `0`, and a
single server asks for two indices where the table has one. -/
theorem not_cubeCovers_pair :
    ssdChooseHash (BBox.line 0 1) = .v1 ∧ nextPow2V2 (maxUb (BBox.line 0 1)) = some 1 ∧
      bboxToIntv hilbertC2i ⟨0, 0⟩ (BBox.line 0 1) 1 = some [⟨0, 0⟩] ∧
      bboxVolume (BBox.line 0 1) = 2 ∧
      dhtConstructHash hilbertC2i ⟨0, 0⟩ (BBox.line 0 1) 1 1 = none ∧
      ¬ CubeCovers (BBox.line 0 1) .auto := by
  have hmax : nextPow2V2 (maxUb (BBox.line 0 1)) = some 1 := by decide
  refine ⟨by decide, hmax, by decide +kernel, by decide, by decide +kernel, ?_⟩
  rintro ⟨p, hp, hbelow, -⟩
  obtain rfl : (1 : UInt64) = p := Option.some.inj (hmax.symm.trans hp)
  exact absurd (hbelow 0 (by decide)) (by decide)

end Real

/-! ## Domains that are hashed as v1 by choice -/

section Chosen

variable {dom : BBox}

/-- The sides of a domain for which v1 is chosen are powers of two. -/
theorem ssdChooseHash_v1 (hv : ssdChooseHash dom = .v1) {j : Nat} (hj : j < dom.numDims) :
    ∃ a ≤ 64, (dom.ub.c j).toNat + 1 = 2 ^ a := by
  have hzero : dom.ub.c j &&& (dom.ub.c j + 1) = 0 := by
    rw [ssdChooseHash] at hv
    split at hv
    · cases hv
    · split at hv
      · cases hv
      · next hany =>
          simp only [List.any_eq_true, List.mem_range, bne_iff_ne, ne_eq, not_exists, not_and,
            not_not] at hany
          exact hany j hj
  have hnat := congrArg UInt64.toNat hzero
  rw [UInt64.toNat_and, UInt64.toNat_add, UInt64.toNat_one, UInt64.toNat_zero] at hnat
  have hlt := (dom.ub.c j).toNat_lt
  rcases Nat.lt_or_ge ((dom.ub.c j).toNat + 1) (2 ^ 64) with hsmall | hbig
  · rw [Nat.mod_eq_of_lt hsmall, Nat.and_comm] at hnat
    obtain ⟨a, ha⟩ := (Nat.and_sub_one_eq_zero_iff_isPowerOfTwo (Nat.succ_ne_zero _)).1 hnat
    rw [Nat.succ_eq_add_one] at ha
    refine ⟨a, ?_, ha⟩
    rw [ha] at hsmall
    exact ((Nat.pow_lt_pow_iff_right (by norm_num)).1 hsmall).le
  · -- the sum wraps for the last word only
    exact ⟨64, le_rfl, by omega⟩

/-- The bits of the side that `ssd_alloc_v1` picks for such a domain. -/
theorem nextPow2V2_of_v1 (hdom : dom.Valid) {a : Nat} (htop : dom.top + 1 = 2 ^ a) (ha : a ≤ 63) :
    ∃ p k, nextPow2V2 (maxUb dom) = some p ∧ p.toNat = 2 ^ k ∧ k ≤ a ∧
      (2 ≤ a → k = a ∧ ∀ j < dom.numDims, dom.ub.c j < p) := by
  have hpos := hdom.dims.1
  have hle : (2 : ℕ) ^ a ≤ 2 ^ 63 := Nat.pow_le_pow_right (by norm_num) ha
  obtain ⟨p, hp⟩ := (nextPow2V2_maxUb hpos).2 (show dom.top ≤ 2 ^ 63 by omega)
  obtain ⟨k, -, hpk, hround, hleast⟩ := nextPow2V2_some hp
  rw [toNat_maxUb hpos] at hround hleast
  have hka : k ≤ a := by
    by_contra hcon
    have := hleast a (by omega)
    have := Nat.two_pow_pos a
    omega
  refine ⟨p, k, hp, hpk, hka, fun h2 => ?_⟩
  have h4 : (2 : ℕ) ^ 2 ≤ 2 ^ a := Nat.pow_le_pow_right (by norm_num) h2
  -- `2 ^ a - 1` is above every smaller power of two from 3 on
  have hak : a ≤ k := by
    by_contra hcon
    have hhalf : (2 : ℕ) ^ k ≤ 2 ^ (a - 1) := Nat.pow_le_pow_right (by norm_num) (by omega)
    have hsplit : (2 : ℕ) ^ a = 2 ^ (a - 1) * 2 := by
      rw [← Nat.pow_succ, Nat.succ_eq_add_one, Nat.sub_add_cancel (by omega)]
    omega
  obtain rfl : k = a := by omega
  exact ⟨rfl, (ub_lt_iff_top_lt hpos).2 (by omega)⟩

/-- For a domain that is hashed as v1 by choice, the Hilbert indices fit their word iff every side is
at most `2 ^ (64 / num_dims - 1)`. -/
theorem indexFits_iff (hdom : dom.Valid) (hv : ssdChooseHash dom = .v1) :
    IndexFits dom ↔ ∀ j < dom.numDims, (dom.ub.c j).toNat < 2 ^ (64 / dom.numDims - 1) := by
  have hpos := hdom.dims.1
  have hten : dom.numDims ≤ 10 := hdom.dims.2
  obtain ⟨j, hj, htop⟩ := BBox.exists_top hpos
  obtain ⟨a, ha64, ha⟩ := ssdChooseHash_v1 hv hj
  rw [htop] at ha
  -- the largest side is `2 ^ a`
  have hsix : 6 ≤ 64 / dom.numDims := (Nat.le_div_iff_mul_le hpos).2 (by omega)
  have hcond : (∀ j < dom.numDims, (dom.ub.c j).toNat < 2 ^ (64 / dom.numDims - 1)) ↔
      dom.numDims * (a + 1) ≤ 64 := by
    have hall : (∀ j < dom.numDims, (dom.ub.c j).toNat < 2 ^ (64 / dom.numDims - 1)) ↔
        2 ^ a ≤ 2 ^ (64 / dom.numDims - 1) := by
      rw [← ha, Nat.succ_le_iff]
      exact ⟨fun h => htop ▸ h j hj, fun h i hi => lt_of_le_of_lt (dom.le_top hi) h⟩
    rw [hall, Nat.pow_le_pow_iff_right (by norm_num), Nat.mul_comm,
      ← Nat.le_div_iff_mul_le hpos]
    omega
  rw [hcond]
  constructor
  · rintro ⟨p, hp, hfit⟩
    have hle := (nextPow2V2_maxUb hpos).1 ⟨p, hp⟩
    have ha63 : a ≤ 63 := by
      by_contra hcon
      obtain rfl : a = 64 := by omega
      omega
    obtain ⟨p', k, hp', hpk, hka, hbig⟩ := nextPow2V2_of_v1 hdom ha ha63
    obtain rfl : p' = p := Option.some.inj (hp'.symm.trans hp)
    -- sides up to 2 take two bits at most, in each of at most ten dimensions
    rcases Nat.lt_or_ge a 2 with hsmall | h2
    · calc dom.numDims * (a + 1) ≤ 10 * 2 := Nat.mul_le_mul hten (by omega)
        _ ≤ 64 := by norm_num
    · obtain ⟨rfl, hbelow⟩ := hbig h2
      exact callsFit_domain hdom hpk hbelow (hfit dom hdom rfl)
  · intro hbits
    have ha63 : a ≤ 63 := by
      have := Nat.le_mul_of_pos_left (a + 1) hpos
      omega
    obtain ⟨p, k, hp, hpk, hka, -⟩ := nextPow2V2_of_v1 hdom ha ha63
    refine ⟨p, hp, fun bb hbb hdims => callsFit_of_bits hbb hpk ?_⟩
    rw [hdims]
    exact (Nat.mul_le_mul_left _ (by omega)).trans hbits

/-- The domain `[0, 3]`. -/
theorem indexFits_line : IndexFits (BBox.line 0 3) :=
  (indexFits_iff (BBox.line_valid (by decide)) (by decide)).2 fun j hj => by
    obtain rfl : j = 0 := Nat.lt_one_iff.1 hj
    decide

/-- A row of 64 cells in ten dimensions. -/
def rowDomain : BBox where
  numDims := 10
  lb := Coord.ofFn fun _ => 0
  ub := Coord.ofFn fun i => if i = 0 then 63 else 0

/-- `ssd_choose_hash` picks v1 for the row, which has 64 cells, and the calls for it ask for
`10 * 7` bits. -/
theorem not_indexFits_row :
    rowDomain.Valid ∧ rowDomain.cells.card < 2 ^ 63 ∧ ssdChooseHash rowDomain = .v1 ∧
      ¬ IndexFits rowDomain := by
  have hvalid : rowDomain.Valid := ⟨⟨by decide, by decide⟩, by decide⟩
  refine ⟨hvalid, ?_, by decide, ?_⟩
  · rw [BBox.card_cells hvalid.dims.2]
    decide
  · rintro ⟨p, hp, hfit⟩
    have h64 : nextPow2V2 (maxUb rowDomain) = some 64 := by decide
    obtain rfl : (64 : UInt64) = p := Option.some.inj (h64.symm.trans hp)
    have := callsFit_domain (k := 6) hvalid rfl (by decide) (hfit rowDomain hvalid rfl)
    exact absurd this (by decide)

end Chosen

end DataSpaces
