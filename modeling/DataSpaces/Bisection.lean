import DataSpaces.Ownership

/-!
# Bisection — the pieces of a v2 space

Halving the domain a number of times along the largest side leaves boxes that are disjoint and have
the cells of the domain, and dealing them out in turn loses none.  A piece can be empty, when a box of
one cell was halved; it is then empty by exactly one cell along the dimension of the cut, which is
what keeps `bbox_volume` of its intersections at `0`.
-/

namespace DataSpaces

/-! ## The largest side -/

theorem getBboxMaxDimSize_lt {bb : BBox} {dim : Nat} (hdim : dim < bb.numDims) :
    (getBboxMaxDimSize bb dim).2 < bb.numDims := by
  have hfold : ∀ (l : List Nat) (s : UInt64 × Nat), (∀ i ∈ l, i < bb.numDims) → s.2 < bb.numDims →
      (l.foldl (maxDimSizeStep bb) s).2 < bb.numDims := by
    intro l
    induction l with
    | nil =>
        intro s _ hs
        exact hs
    | cons i l ih =>
        intro s hl hs
        refine ih _ (fun j hj => hl j (by simp [hj])) ?_
        simp only [maxDimSizeStep]
        split
        · exact hl i (by simp)
        · exact hs
  exact hfold _ _ (fun i hi => List.mem_range.1 hi) hdim

theorem foldl_maxDimStep (bb : BBox) (l : List Nat) :
    ∀ s : UInt64 × Nat, (∀ i ∈ l, i < bb.numDims) →
      s.1 ≤ (l.foldl (maxDimStep bb) s).1 ∧ (∀ i ∈ l, bb.ub.c i ≤ (l.foldl (maxDimStep bb) s).1) ∧
        (s.2 < bb.numDims → (l.foldl (maxDimStep bb) s).2 < bb.numDims) := by
  induction l with
  | nil =>
      intro s _
      exact ⟨UInt64.le_refl _, by simp, id⟩
  | cons i l ih =>
      intro s hl
      obtain ⟨h1, h2, h3⟩ := ih (maxDimStep bb s i) fun j hj => hl j (by simp [hj])
      -- one turn takes the larger of the two
      have hstep : s.1 ≤ (maxDimStep bb s i).1 ∧ bb.ub.c i ≤ (maxDimStep bb s i).1 := by
        simp only [maxDimStep]
        split
        · next hlt => exact ⟨UInt64.le_of_lt hlt, UInt64.le_refl _⟩
        · next hlt => exact ⟨UInt64.le_refl _, UInt64.not_lt.1 hlt⟩
      refine ⟨UInt64.le_trans hstep.1 h1, fun j hj => ?_, fun hs => h3 ?_⟩
      · rcases List.mem_cons.1 hj with rfl | hj
        · exact UInt64.le_trans hstep.2 h1
        · exact h2 j hj
      · simp only [maxDimStep]
        split
        · exact hl i (by simp)
        · exact hs

/-- `get_bbox_max_dim` bounds every upper corner, and the dimension it leaves is one of the box. -/
theorem getBboxMaxDim_spec {bb : BBox} (hdims : bb.DimsOk) :
    (∀ i < bb.numDims, bb.ub.c i ≤ (getBboxMaxDim bb 0).1) ∧
      (getBboxMaxDim bb 0).2 < bb.numDims := by
  obtain ⟨-, h2, h3⟩ := foldl_maxDimStep bb (List.range bb.numDims) (0, 0)
    fun i hi => List.mem_range.1 hi
  exact ⟨fun i hi => h2 i (List.mem_range.2 hi), h3 hdims.1⟩

/-! ## Pieces -/

/-- Where the middle point of a side is computed without wrap after `t` more halvings: the side ends
below `2 ^ 63`, or it ends at `2 ^ 63` and is still long. -/
def Roomy (t : Nat) (lo hi : ℕ) : Prop :=
  hi < 2 ^ 63 ∨ (hi = 2 ^ 63 ∧ lo + 2 ^ t ≤ hi + 1)

theorem Roomy.sum_lt {t lo hi : ℕ} (h : Roomy (t + 1) lo hi) (hle : lo ≤ hi + 1) :
    lo + hi < 2 ^ 64 := by
  have hpos := Nat.two_pow_pos t
  rcases h with h | ⟨h, hlong⟩
  · omega
  · rw [Nat.pow_succ] at hlong
    omega

/-- A box that can still be halved `t` times. -/
structure Piece (d t : Nat) (b : BBox) : Prop where
  dims : b.numDims = d
  near : b.NearValid
  roomy : ∀ j < d, Roomy t (b.lb.c j).toNat (b.ub.c j).toNat

namespace Piece

variable {d t dim : Nat} {b : BBox}

theorem sum_lt (h : Piece d (t + 1) b) (hdim : dim < d) :
    (b.lb.c dim).toNat + (b.ub.c dim).toNat < 2 ^ 64 :=
  (h.roomy dim hdim).sum_lt (h.near.le dim (h.dims ▸ hdim))

/-- The bounds of the two halves. -/
theorem divide_bounds (h : Piece d (t + 1) b) (hdim : dim < d) {j : Nat} (hj : j < d) :
    ((bboxDivideIn2Ondim b dim).1.lb.c j).toNat = (b.lb.c j).toNat ∧
    ((bboxDivideIn2Ondim b dim).1.ub.c j).toNat =
      (if j = dim then ((b.lb.c j).toNat + (b.ub.c j).toNat) / 2 else (b.ub.c j).toNat) ∧
    ((bboxDivideIn2Ondim b dim).2.lb.c j).toNat =
      (if j = dim then ((b.lb.c j).toNat + (b.ub.c j).toNat) / 2 + 1 else (b.lb.c j).toNat) ∧
    ((bboxDivideIn2Ondim b dim).2.ub.c j).toNat = (b.ub.c j).toNat := by
  have hlt : j < BBOX_MAX_NDIM := lt_of_lt_of_le hj (h.dims ▸ h.near.dims.2)
  have hsum := h.sum_lt hdim
  -- the sum of the bounds does not wrap, so that the middle is between them
  have hmid := toNat_middle hsum
  have hmid1 : (((b.lb.c dim + b.ub.c dim) >>> 1) + 1).toNat =
      ((b.lb.c dim).toNat + (b.ub.c dim).toNat) / 2 + 1 := by
    rw [UInt64.toNat_add, hmid, UInt64.toNat_one]
    omega
  refine ⟨rfl, ?_, ?_, rfl⟩
  · simp only [bboxDivideIn2Ondim, Coord.c_set _ _ _ hlt]
    split
    · next heq => rw [heq, hmid]
    · rfl
  · simp only [bboxDivideIn2Ondim, Coord.c_set _ _ _ hlt]
    split
    · next heq => rw [heq, hmid1]
    · rfl

/-- Both halves of a piece are pieces with one halving less to go. -/
theorem divide (h : Piece d (t + 1) b) (hdim : dim < d) :
    Piece d t (bboxDivideIn2Ondim b dim).1 ∧ Piece d t (bboxDivideIn2Ondim b dim).2 := by
  have hpow : 2 ^ (t + 1) = 2 ^ t * 2 := Nat.pow_succ 2 t
  have hside : ∀ j < d, (b.lb.c j).toNat ≤ (b.ub.c j).toNat + 1 ∧
      Roomy (t + 1) (b.lb.c j).toNat (b.ub.c j).toNat :=
    fun j hj => ⟨h.near.le j (h.dims ▸ hj), h.roomy j hj⟩
  -- only the side that is halved changes
  constructor
  · refine ⟨h.dims, ⟨h.near.dims, fun j hj => ?_⟩, fun j hj => ?_⟩
    · obtain ⟨hlb, hub, -, -⟩ := h.divide_bounds hdim (j := j) (h.dims ▸ hj)
      have hj' := (hside j (h.dims ▸ hj)).1
      rw [hlb, hub]
      split <;> omega
    · obtain ⟨hlb, hub, -, -⟩ := h.divide_bounds hdim hj
      obtain ⟨hle, hroom⟩ := hside j hj
      simp only [Roomy] at hroom ⊢
      rw [hlb, hub]
      split <;> omega
  · refine ⟨h.dims, ⟨h.near.dims, fun j hj => ?_⟩, fun j hj => ?_⟩
    · obtain ⟨-, -, hlb, hub⟩ := h.divide_bounds hdim (j := j) (h.dims ▸ hj)
      have hj' := (hside j (h.dims ▸ hj)).1
      rw [hlb, hub]
      split <;> omega
    · obtain ⟨-, -, hlb, hub⟩ := h.divide_bounds hdim hj
      obtain ⟨hle, hroom⟩ := hside j hj
      simp only [Roomy] at hroom ⊢
      rw [hlb, hub]
      split <;> omega

theorem divide_union (h : Piece d (t + 1) b) (hdim : dim < d) :
    (bboxDivideIn2Ondim b dim).1.cells ∪ (bboxDivideIn2Ondim b dim).2.cells = b.cells :=
  bboxDivideIn2Ondim_cells_union h.near (h.dims ▸ hdim) (h.sum_lt hdim)

theorem divide_disjoint (h : Piece d (t + 1) b) (hdim : dim < d) :
    Disjoint (bboxDivideIn2Ondim b dim).1.cells (bboxDivideIn2Ondim b dim).2.cells :=
  bboxDivideIn2Ondim_disjoint h.near (h.dims ▸ hdim) (h.sum_lt hdim)

end Piece

/-! ## The rounds -/

/-- A queue of disjoint pieces that cover a set of cells. -/
structure Pieces (d t : Nat) (X : Finset Cell) (q : List BBox) : Prop where
  piece : ∀ b ∈ q, Piece d t b
  apart : Cover.Apart BBox.cells q
  union : Cover.union BBox.cells q = X

theorem Pieces.nil (d t : Nat) : Pieces d t ∅ [] :=
  ⟨by simp, List.Pairwise.nil, rfl⟩

/-- One round keeps the cells. -/
theorem divideQueue_pieces {d t : Nat} (q : List BBox) :
    ∀ (dim : Nat) (X : Finset Cell), dim < d → Pieces d (t + 1) X q →
      (divideQueue dim q).1 < d ∧ Pieces d t X (divideQueue dim q).2 := by
  induction q with
  | nil =>
      intro dim X hdim hq
      have hX : X = ∅ := by rw [← hq.union, Cover.union]
      exact ⟨hdim, hX ▸ Pieces.nil d t⟩
  | cons bb q ih =>
      intro dim X hdim hq
      have hbb := hq.piece bb (by simp)
      have hdim' : (getBboxMaxDimSize bb dim).2 < d := by
        have hlt : (getBboxMaxDimSize bb dim).2 < bb.numDims :=
          getBboxMaxDimSize_lt (hbb.dims ▸ hdim)
        rwa [hbb.dims] at hlt
      -- the dimension of the last division is where the search for the next one starts
      obtain ⟨hlast, hrest⟩ := ih (getBboxMaxDimSize bb dim).2 _ hdim'
        ⟨fun b hb => hq.piece b (by simp [hb]), hq.apart.tail, rfl⟩
      obtain ⟨hp1, hp2⟩ := hbb.divide hdim'
      have hun := hbb.divide_union hdim'
      have hdis := hq.apart.disjoint_union
      rw [← hrest.union, ← hun, Finset.disjoint_union_left] at hdis
      refine ⟨hlast, ?_, ?_, ?_⟩
      · intro b hb
        simp only [divideQueue, List.mem_cons] at hb
        rcases hb with rfl | rfl | hb
        · exact hp1
        · exact hp2
        · exact hrest.piece b hb
      · simp only [divideQueue]
        refine List.pairwise_cons.2 ⟨fun b hb => ?_, List.pairwise_cons.2 ⟨fun b hb => ?_, hrest.apart⟩⟩
        · rcases List.mem_cons.1 hb with rfl | hb
          · exact hbb.divide_disjoint hdim'
          · exact hdis.1.mono_right fun x hx => Cover.mem_union.2 ⟨b, hb, hx⟩
        · exact hdis.2.mono_right fun x hx => Cover.mem_union.2 ⟨b, hb, hx⟩
      · simp only [divideQueue, Cover.union]
        rw [hrest.union, ← Finset.union_assoc, hun, ← hq.union]
        rfl

/-- The rounds keep the cells. -/
theorem divideRounds_pieces {d t : Nat} {X : Finset Cell} (n : Nat) :
    ∀ (dim : Nat) (q : List BBox), dim < d → Pieces d (t + n) X q →
      Pieces d t X (divideRounds n dim q) := by
  induction n with
  | zero =>
      intro dim q _ hq
      exact hq
  | succ n ih =>
      intro dim q hdim hq
      obtain ⟨hdim', hq'⟩ := divideQueue_pieces q dim X hdim hq
      exact ih _ _ hdim' hq'

/-! ## Dealing out the pieces -/

theorem flatMap_modify_perm {α β : Type} (f : α → List β) (g : α → α) (x : β)
    (hg : ∀ a, (f (g a)).Perm (x :: f a)) (l : List α) :
    ∀ i, i < l.length → ((l.modify i g).flatMap f).Perm (x :: l.flatMap f) := by
  induction l with
  | nil =>
      intro i hi
      simp at hi
  | cons a l ih =>
      intro i hi
      cases i with
      | zero =>
          simp only [List.modify_zero_cons, List.flatMap_cons]
          exact (hg a).append_right _
      | succ i =>
          simp only [List.modify_succ_cons, List.flatMap_cons]
          refine ((ih i (by simpa using hi)).append_left _).trans ?_
          exact List.perm_middle

/-- Every piece ends up with exactly one entry. -/
theorem mapRoundRobin_perm (q : List BBox) :
    ∀ (i : Nat) (entTab : List DhtEntry), 0 < entTab.length →
      ((mapRoundRobin i q entTab).flatMap DhtEntry.bbTab).Perm
        (q ++ entTab.flatMap DhtEntry.bbTab) := by
  induction q with
  | nil =>
      intro i entTab _
      exact List.Perm.refl _
  | cons bb q ih =>
      intro i entTab hlen
      have hmod := flatMap_modify_perm DhtEntry.bbTab
        (fun de : DhtEntry => { de with bbTab := de.bbTab ++ [bb] }) bb
        (fun de => List.perm_append_singleton bb de.bbTab) entTab (i % entTab.length)
        (Nat.mod_lt _ hlen)
      refine (ih (i + 1) _ (by simpa using hlen)).trans ?_
      refine (hmod.append_left q).trans ?_
      exact List.perm_middle

theorem mapRoundRobin_ranks (q : List BBox) :
    ∀ (i : Nat) (entTab : List DhtEntry),
      (mapRoundRobin i q entTab).map DhtEntry.rank = entTab.map DhtEntry.rank := by
  induction q with
  | nil =>
      intro i entTab
      rfl
  | cons bb q ih =>
      intro i entTab
      rw [mapRoundRobin, ih]
      apply List.ext_getElem?
      intro j
      simp only [List.getElem?_map, List.getElem?_modify]
      cases entTab[j]? with
      | none => rfl
      | some de =>
          simp only [Option.map_some, Option.map_eq_map]
          split <;> rfl

theorem dhtAlloc_ranks (n : Nat) : (dhtAlloc n).map DhtEntry.rank = List.range n := by
  simp [dhtAlloc, Function.comp_def]

/-- What `ssd_alloc_v2` builds: ranked entries that share out disjoint pieces of the domain. -/
theorem ssdAllocV2_spec {bbDomain : BBox} {numNodes maxVersions : Nat} {ss : SSpace}
    (hdom : bbDomain.Valid)
    (hlow : ∀ j < bbDomain.numDims, bbDomain.lb.c j = 0 ∨ (bbDomain.ub.c j).toNat < 2 ^ 63)
    (hpos : 1 ≤ numNodes) (hint : numNodes < 2 ^ 31)
    (h : ssdAllocV2 bbDomain numNodes maxVersions = some ss) :
    ss.hashVersion = .v2 ∧ ss.bbGlbDomain = bbDomain ∧ ss.odscSize = maxVersions ∧
      ss.entTab.map DhtEntry.rank = List.range numNodes ∧
      Pieces bbDomain.numDims 0 bbDomain.cells (ss.entTab.flatMap DhtEntry.bbTab) := by
  obtain ⟨hub, hdim⟩ := getBboxMaxDim_spec hdom.dims
  simp only [ssdAllocV2] at h
  obtain ⟨maxDim, hmax, h⟩ := Option.bind_eq_some_iff.1 h
  obtain ⟨pow, hpow, h⟩ := Option.bind_eq_some_iff.1 h
  have hrounds := computeBitsV2_nextPow2_le hint hpow
  have htop : (getBboxMaxDim bbDomain 0).1.toNat ≤ 2 ^ 63 :=
    nextPow2V2_isSome_iff.1 (Option.isSome_iff_exists.2 ⟨maxDim, hmax⟩)
  -- the domain itself has room for all rounds: with an upper bound of 2 ^ 63 it starts at 0
  have hroot : Pieces bbDomain.numDims (0 + computeBitsV2 pow) bbDomain.cells [bbDomain] := by
    refine ⟨fun b hb => ?_, List.pairwise_singleton _ _, by simp [Cover.union]⟩
    obtain rfl := List.mem_singleton.1 hb
    refine ⟨rfl, hdom.nearValid, fun j hj => ?_⟩
    have hj63 := (UInt64.le_iff_toNat_le.1 (hub j hj)).trans htop
    rcases Nat.lt_or_ge (b.ub.c j).toNat (2 ^ 63) with hlt | hge
    · exact Or.inl hlt
    · have hlb : (b.lb.c j).toNat = 0 := by
        rcases hlow j hj with h0 | hlt
        · rw [h0, UInt64.toNat_zero]
        · omega
      have h31 : 2 ^ (0 + computeBitsV2 pow) ≤ 2 ^ 31 := Nat.pow_le_pow_right (by norm_num) (by omega)
      exact Or.inr ⟨by omega, by omega⟩
  have hpieces := divideRounds_pieces (computeBitsV2 pow) _ _ hdim hroot
  have hlen : 0 < (dhtAlloc numNodes).length := by
    rw [dhtAlloc, List.length_map, List.length_range]
    omega
  -- dealing the pieces out keeps every piece
  have hperm := mapRoundRobin_perm
    (divideRounds (computeBitsV2 pow) (getBboxMaxDim bbDomain 0).2 [bbDomain]) 0 _ hlen
  have hempty : (dhtAlloc numNodes).flatMap DhtEntry.bbTab = [] := by
    simp [dhtAlloc, List.flatMap_eq_nil_iff]
  rw [hempty, List.append_nil] at hperm
  simp only [Option.pure_def, Option.some.injEq] at h
  subst h
  refine ⟨rfl, rfl, rfl, ?_, ?_, ?_, ?_⟩
  · rw [mapRoundRobin_ranks, dhtAlloc_ranks]
  · exact fun b hb => hpieces.piece b (hperm.mem_iff.1 hb)
  · exact hpieces.apart.perm hperm.symm
  · rw [Cover.union_perm hperm]
    exact hpieces.union

/-! ## Counting and hashing by pieces -/

/-- The pieces of one entry count the cells of a box that lie in them. -/
theorem sshHashElemCountV2_eq {d : Nat} {de : DhtEntry} {bb : BBox} (hbb : bb.Valid)
    (hd : bb.numDims = d) (hpiece : ∀ b ∈ de.bbTab, Piece d 0 b)
    (hap : Cover.Apart BBox.cells de.bbTab) :
    sshHashElemCountV2 de bb =
      Int64.ofNat (bb.cells ∩ Cover.union BBox.cells de.bbTab).card := by
  rw [← hap.sum_card_inter bb.cells]
  -- the sum may wrap, and so does the cast of the count
  have hfold : ∀ (l : List BBox) (n : ℕ), (∀ b ∈ l, Piece d 0 b) →
      l.foldl (fun numElem entBb =>
        if bboxDoesIntersect bb entBb then numElem + (bboxVolume (bboxIntersect bb entBb)).toInt64
        else numElem) (Int64.ofNat n) =
        Int64.ofNat (n + (l.map fun b => (bb.cells ∩ b.cells).card).sum) := by
    intro l
    induction l with
    | nil =>
        intro n _
        simp
    | cons b l ih =>
        intro n hl
        have hb := hl b (by simp)
        have hdim : bb.numDims = b.numDims := hd.trans hb.dims.symm
        have hstep : (if bboxDoesIntersect bb b
            then Int64.ofNat n + (bboxVolume (bboxIntersect bb b)).toInt64 else Int64.ofNat n) =
            Int64.ofNat (n + (bb.cells ∩ b.cells).card) := by
          by_cases hmeet : bboxDoesIntersect bb b = true
          · rw [if_pos hmeet, bboxVolume_eq (bboxIntersect_nearValid hbb hb.near hdim hmeet),
              bboxIntersect_cells hdim, UInt64.toInt64_ofNat', Int64.ofNat_add]
          · have hempty : bb.cells ∩ b.cells = ∅ := by
              rw [← Finset.not_nonempty_iff_eq_empty]
              rintro ⟨x, hx⟩
              exact hmeet (bboxDoesIntersect_of_mem hdim hbb.dims (Finset.mem_inter.1 hx).1
                (Finset.mem_inter.1 hx).2)
            rw [if_neg hmeet, hempty, Finset.card_empty, Nat.add_zero]
        simp only [List.foldl_cons, List.map_cons, List.sum_cons]
        rw [hstep, ih _ fun c hc => hl c (by simp [hc]), Nat.add_assoc]
  have hrun := hfold de.bbTab 0 hpiece
  rw [Nat.zero_add] at hrun
  exact hrun

/-- A v2 space is a partition of its domain. -/
theorem partitioned_v2 (hilbertC2i : HilbertC2i) {bbDomain : BBox} {numNodes maxVersions : Nat}
    {ss : SSpace} (hdom : bbDomain.Valid)
    (hlow : ∀ j < bbDomain.numDims, bbDomain.lb.c j = 0 ∨ (bbDomain.ub.c j).toNat < 2 ^ 63)
    (hpos : 1 ≤ numNodes) (hint : numNodes < 2 ^ 31)
    (h : ssdAllocV2 bbDomain numNodes maxVersions = some ss) :
    Partitioned hilbertC2i ss numNodes := by
  obtain ⟨hv, hd, -, hranks, hpieces⟩ := ssdAllocV2_spec hdom hlow hpos hint h
  have howned : DhtEntry.owned hilbertC2i ss = fun de => Cover.union BBox.cells de.bbTab := by
    funext de
    simp only [DhtEntry.owned, hv]
  have hpiece : ∀ de ∈ ss.entTab, ∀ b ∈ de.bbTab, Piece bbDomain.numDims 0 b :=
    fun de hde b hb => hpieces.piece b (List.mem_flatMap.2 ⟨de, hde, hb⟩)
  refine ⟨⟨hranks, ?_, ?_, ?_, ?_⟩, fun de _ hv1 => by rw [hv] at hv1; cases hv1⟩
  · rw [howned]
    exact hpieces.apart.groups
  · rw [howned, hd, ← hpieces.union, Cover.union_flatMap]
  · intro uninit de hde _ bb hbb
    simp only [sshHashElemCount, hv, howned]
    rw [sshHashElemCountV2_eq hbb.valid (hbb.dims.trans (by rw [hd])) (hpiece de hde)
      (hpieces.apart.of_flatMap hde)]
  · -- an entry that owns a cell of the box has a piece that meets the box
    intro bb hbb _
    refine ⟨ssdHashV2Loop ss bb, fun _ => by simp only [ssdHashLoop, hv], ?_, fun de hde hx => ?_⟩
    · rw [← hranks]
      exact List.filter_sublist.map _
    · obtain ⟨x, hx⟩ := hx
      rw [howned, Finset.mem_inter] at hx
      obtain ⟨b, hb, hxb⟩ := Cover.mem_union.1 hx.2
      have hdim : bb.numDims = b.numDims := by
        rw [hbb.dims, hd, (hpiece de hde b hb).dims]
      refine List.mem_map.2 ⟨de, List.mem_filter.2 ⟨hde, ?_⟩, rfl⟩
      exact List.any_eq_true.2 ⟨b, hb, bboxDoesIntersect_of_mem hdim hbb.valid.dims hx.1 hxb⟩

end DataSpaces
