import DataSpaces.Bisection
import DataSpaces.Slices

/-!
# CellCount — every cell is counted by one server and hashed to it

The spaces that `ssd_alloc` returns are partitions of their domains, both the ones cut along the
curve (v1) and the ones cut by bisection (v2).  So the counts of all servers add up to the volume of
a box, a server that counts a cell is in the hash of the box, and boxes that share a cell share a
server.
-/

namespace DataSpaces

/-- A space returned by `ssd_alloc` for `numNodes` servers, cut up as v2, or as v1 over a domain that
the curve fits.  Both callers leave the lower corner of the domain at the origin; it only matters in
a dimension that reaches up to `2 ^ 63`. -/
structure SpaceBuilt (hilbertC2i : HilbertC2i) (uninit : Intv) (bbDomain : BBox)
    (numNodes maxVersions : Nat) (hashVersion : HashVersion) (ss : SSpace) : Prop where
  domain : bbDomain.Valid
  origin : ∀ j < bbDomain.numDims, bbDomain.lb.c j = 0 ∨ (bbDomain.ub.c j).toNat < 2 ^ 63
  pos : 1 ≤ numNodes
  int : numNodes < 2 ^ 31
  built : ssdAlloc hilbertC2i uninit bbDomain numNodes maxVersions hashVersion = some ss
  usable : ss.hashVersion = .v2 ∨
    (ss.hashVersion = .v1 ∧ CurveFits hilbertC2i bbDomain ss.maxDim numNodes)

/-- Such a space with any number of servers: on v1 some of them may have no cell. -/
structure SpaceCut (hilbertC2i : HilbertC2i) (uninit : Intv) (bbDomain : BBox)
    (numNodes maxVersions : Nat) (hashVersion : HashVersion) (ss : SSpace) : Prop where
  domain : bbDomain.Valid
  origin : ∀ j < bbDomain.numDims, bbDomain.lb.c j = 0 ∨ (bbDomain.ub.c j).toNat < 2 ^ 63
  pos : 1 ≤ numNodes
  int : numNodes < 2 ^ 31
  built : ssdAlloc hilbertC2i uninit bbDomain numNodes maxVersions hashVersion = some ss
  usable : ss.hashVersion = .v2 ∨ (ss.hashVersion = .v1 ∧ CurveHolds hilbertC2i bbDomain ss.maxDim)

/-- The box meets what the entry of the rank is in charge of: on a v1 space it has one of the cells, on a
v2 space it is found to intersect one of the boxes, which may be a box without cells. -/
def SSpace.MeetsAt (hilbertC2i : HilbertC2i) (ss : SSpace) (bb : BBox) (rank : Nat) : Prop :=
  ∃ de ∈ ss.entTab, de.rank = rank ∧
    match ss.hashVersion with
    | .v1 => (bb.cells ∩ de.owned hilbertC2i ss).Nonempty
    | .v2 => ∃ b ∈ de.bbTab, bboxDoesIntersect bb b = true
    | .v0 | .auto => True

section Built

variable {hilbertC2i : HilbertC2i} {uninit : Intv} {bbDomain : BBox}
  {numNodes maxVersions : Nat} {hashVersion : HashVersion} {ss : SSpace}

theorem ssdAllocV1_version
    (h : ssdAllocV1 hilbertC2i uninit bbDomain numNodes maxVersions = some ss) :
    ss.hashVersion = .v1 := by
  simp only [ssdAllocV1] at h
  obtain ⟨maxDim, -, h⟩ := Option.bind_eq_some_iff.1 h
  obtain ⟨entTab, -, h⟩ := Option.bind_eq_some_iff.1 h
  simp only [Option.pure_def, Option.some.injEq] at h
  rw [← h]

theorem ssdAllocV1_fields (h : ssdAllocV1 hilbertC2i uninit bbDomain numNodes maxVersions = some ss) :
    nextPow2V2 (maxUb bbDomain) = some ss.maxDim ∧ ss.bbGlbDomain = bbDomain := by
  obtain ⟨maxDim, hmax, h⟩ := Option.bind_eq_some_iff.1 h
  obtain ⟨entTab, -, h⟩ := Option.bind_eq_some_iff.1 h
  cases h
  exact ⟨hmax, rfl⟩

theorem ssdAllocV2_version (h : ssdAllocV2 bbDomain numNodes maxVersions = some ss) :
    ss.hashVersion = .v2 := by
  simp only [ssdAllocV2] at h
  obtain ⟨maxDim, -, h⟩ := Option.bind_eq_some_iff.1 h
  obtain ⟨pow, -, h⟩ := Option.bind_eq_some_iff.1 h
  simp only [Option.pure_def, Option.some.injEq] at h
  rw [← h]

/-- The version of the space tells which allocation built it. -/
theorem ssdAlloc_cases (h : ssdAlloc hilbertC2i uninit bbDomain numNodes maxVersions hashVersion =
    some ss) :
    (ss.hashVersion = .v0 ∧ ss = ssdAllocV0 bbDomain maxVersions) ∨
    (ss.hashVersion = .v1 ∧
      ssdAllocV1 hilbertC2i uninit bbDomain numNodes maxVersions = some ss) ∨
    (ss.hashVersion = .v2 ∧ ssdAllocV2 bbDomain numNodes maxVersions = some ss) := by
  simp only [ssdAlloc] at h
  split at h
  · cases h
    exact Or.inl ⟨rfl, rfl⟩
  · exact Or.inr (Or.inl ⟨ssdAllocV1_version h, h⟩)
  · exact Or.inr (Or.inr ⟨ssdAllocV2_version h, h⟩)
  · cases h

theorem SpaceBuilt.partitioned
    (h : SpaceBuilt hilbertC2i uninit bbDomain numNodes maxVersions hashVersion ss) :
    Partitioned hilbertC2i ss numNodes := by
  rcases ssdAlloc_cases h.built with ⟨hv, -⟩ | ⟨hv, halloc⟩ | ⟨-, halloc⟩
  · rcases h.usable with hu | ⟨hu, -⟩ <;> rw [hv] at hu <;> cases hu
  · rcases h.usable with hu | ⟨-, hfits⟩
    · rw [hv] at hu
      cases hu
    · exact partitioned_v1 h.domain h.pos h.int halloc hfits
  · exact partitioned_v2 hilbertC2i h.domain h.origin h.pos h.int halloc

theorem SpaceBuilt.cut (h : SpaceBuilt hilbertC2i uninit bbDomain numNodes maxVersions hashVersion ss) :
    SpaceCut hilbertC2i uninit bbDomain numNodes maxVersions hashVersion ss :=
  ⟨h.domain, h.origin, h.pos, h.int, h.built, h.usable.imp id fun hu => ⟨hu.1, hu.2.toCurveHolds⟩⟩

theorem SpaceCut.shared (h : SpaceCut hilbertC2i uninit bbDomain numNodes maxVersions hashVersion ss) :
    Shared hilbertC2i ss numNodes := by
  rcases ssdAlloc_cases h.built with ⟨hv, -⟩ | ⟨hv, halloc⟩ | ⟨-, halloc⟩
  · rcases h.usable with hu | ⟨hu, -⟩ <;> rw [hv] at hu <;> cases hu
  · rcases h.usable with hu | ⟨-, hholds⟩
    · rw [hv] at hu
      cases hu
    · exact shared_v1 h.domain h.pos h.int halloc hholds
  · exact (partitioned_v2 hilbertC2i h.domain h.origin h.pos h.int halloc).toShared

/-- The hash of a box inside the domain selects the entries that it meets. -/
theorem SpaceCut.hash_iff (h : SpaceCut hilbertC2i uninit bbDomain numNodes maxVersions hashVersion ss)
    {bb : BBox} (hbb : ss.Within bb) :
    ∃ ranks, (∀ uninit, ssdHashLoop hilbertC2i uninit ss bb = some ranks) ∧
      ∀ rank, rank ∈ ranks ↔ ss.MeetsAt hilbertC2i bb rank := by
  rcases h.usable with hv | ⟨hv, hholds⟩
  · refine ⟨ssdHashV2Loop ss bb, fun _ => by simp only [ssdHashLoop, hv], fun rank => ?_⟩
    simp only [ssdHashV2Loop, List.mem_map, List.mem_filter, List.any_eq_true, SSpace.MeetsAt, hv,
      and_assoc]
    exact exists_congr fun de => and_congr_right fun _ => and_comm
  · rcases ssdAlloc_cases h.built with ⟨hv', -⟩ | ⟨-, halloc⟩ | ⟨hv', -⟩
    · rw [hv] at hv'
      cases hv'
    · obtain ⟨-, -, k, hsl⟩ := ssdAllocV1_spec h.domain h.pos h.int halloc hholds
      obtain ⟨tab, htab, hsorted, hind⟩ := hsl.bboxToIntv2_spec hbb.toFits hbb.meets
      rw [Finset.inter_eq_left.2 (hbb.subset.trans hsl.domain_subset)] at hind
      refine ⟨(ss.entTab.filter fun de => tab.any (dhtIntersect de)).map DhtEntry.rank, fun uninit => ?_,
        fun rank => ?_⟩
      · simp only [ssdHashLoop, hv, ssdHashV1Loop, htab uninit, Option.map_some]
      · simp only [List.mem_map, List.mem_filter, List.any_eq_true, SSpace.MeetsAt, hv, and_assoc]
        refine exists_congr fun de => and_congr_right fun hde => ?_
        rw [and_comm]
        refine and_congr_right fun _ => ⟨?_, ?_⟩
        -- an entry that is found for an interval owns a cell of the box, and the other way round
        · rintro ⟨itv, hitv, hfound⟩
          exact hsl.owned_of_dhtIntersect hbb hsorted hind hde hitv hfound
        · rintro ⟨x, hx⟩
          rw [Finset.mem_inter] at hx
          have hidx : curveIndex hilbertC2i ss.bbGlbDomain.numDims (k + 1) x ∈ indices tab := by
            rw [hind]
            exact Finset.mem_image_of_mem _ hx.1
          obtain ⟨s, hs, hps⟩ := Cover.mem_union.1 hidx
          obtain ⟨itv, hitv, rfl⟩ := List.mem_map.1 hs
          exact ⟨itv, hitv, hsl.dhtIntersect_of_owned hde hx.2 hps⟩
    · rw [hv] at hv'
      cases hv'

end Built

/-! ## What does not depend on unwritten memory -/

section Unwritten

/-- The same entry but for the hull of a table without intervals. -/
structure DhtEntry.SameShare (de de' : DhtEntry) : Prop where
  rank : de'.rank = de.rank
  iTab : de'.iTab = de.iTab
  bbTab : de'.bbTab = de.bbTab
  iVirt : de.iTab ≠ [] → de'.iVirt = de.iVirt

/-- The same space but for such hulls. -/
structure SSpace.SameShares (ss ss' : SSpace) : Prop where
  hashVersion : ss'.hashVersion = ss.hashVersion
  maxDim : ss'.maxDim = ss.maxDim
  bbGlbDomain : ss'.bbGlbDomain = ss.bbGlbDomain
  odscSize : ss'.odscSize = ss.odscSize
  entries : List.Forall₂ DhtEntry.SameShare ss.entTab ss'.entTab

theorem DhtEntry.SameShare.refl (de : DhtEntry) : de.SameShare de := ⟨rfl, rfl, rfl, fun _ => rfl⟩

theorem SSpace.SameShares.refl (ss : SSpace) : ss.SameShares ss :=
  ⟨rfl, rfl, rfl, rfl, List.forall₂_same.2 fun de _ => DhtEntry.SameShare.refl de⟩

theorem hullOf_eq {iTab : List Intv} (hne : iTab ≠ []) (uninit uninit' : Intv) :
    hullOf uninit' iTab = hullOf uninit iTab := by
  rw [hullOf, hullOf, List.head?_eq_some_head hne, List.getLast?_eq_some_getLast hne]
  rfl

theorem sliceEntries_sameShares (uninit uninit' : Intv) (sn : Nat → UInt64) (is : List Nat) :
    ∀ (tab : List Intv) (ents : List DhtEntry), sliceEntries uninit sn is tab = some ents →
      ∃ ents', sliceEntries uninit' sn is tab = some ents' ∧ List.Forall₂ DhtEntry.SameShare ents ents' := by
  induction is with
  | nil =>
      intro tab ents h
      cases h
      exact ⟨[], rfl, List.Forall₂.nil⟩
  | cons i is ih =>
      intro tab ents h
      obtain ⟨⟨mine, tab'⟩, htake, h⟩ := Option.bind_eq_some_iff.1 h
      obtain ⟨rest, hrest, h⟩ := Option.bind_eq_some_iff.1 h
      cases h
      obtain ⟨rest', hrest', hall⟩ := ih tab' rest hrest
      refine ⟨⟨i, hullOf uninit' mine, mine, []⟩ :: rest', ?_,
        List.Forall₂.cons ⟨rfl, rfl, rfl, fun hne => hullOf_eq hne uninit uninit'⟩ hall⟩
      rw [sliceEntries, htake]
      simp only [Option.bind_eq_bind, Option.bind_some, hrest']
      rfl

variable {hilbertC2i : HilbertC2i} {bbDomain : BBox} {numNodes maxVersions : Nat} {hashVersion : HashVersion}
  {ss : SSpace}

/-- Whatever `malloc` leaves, `ssd_alloc` returns the same space up to the hulls. -/
theorem ssdAlloc_sameShares {uninit : Intv} (hdom : bbDomain.Valid)
    (hmeet : ss.hashVersion = .v1 → ∀ p, nextPow2V2 (maxUb bbDomain) = some p →
      (bbDomain.cells ∩ (bbVirt bbDomain.numDims p).cells).Nonempty)
    (h : ssdAlloc hilbertC2i uninit bbDomain numNodes maxVersions hashVersion = some ss) (uninit' : Intv) :
    ∃ ss', ssdAlloc hilbertC2i uninit' bbDomain numNodes maxVersions hashVersion = some ss' ∧
      ss.SameShares ss' := by
  simp only [ssdAlloc] at h ⊢
  split at h
  · exact ⟨ss, h, SSpace.SameShares.refl ss⟩
  · obtain ⟨p, hp, h⟩ := Option.bind_eq_some_iff.1 h
    obtain ⟨ents, hents, h⟩ := Option.bind_eq_some_iff.1 h
    cases h
    obtain ⟨tab, htab, hslice⟩ := Option.bind_eq_some_iff.1 hents
    obtain ⟨k, hk, hside, -, -⟩ := nextPow2V2_some hp
    have hd := CubeDims.of_valid hdom hside
    -- the table of the domain is the same
    obtain ⟨tab', hcut⟩ := cutIntv_eq_of_meets hilbertC2i hdom hside (hmeet rfl p hp)
    obtain ⟨heq, hfits⟩ := (bboxToIntv_iff hdom hd hside).1 htab
    have htab' : bboxToIntv hilbertC2i uninit' bbDomain p = some tab :=
      (bboxToIntv_iff hdom hd hside).2 ⟨by rw [hcut uninit', ← hcut uninit, heq], hfits⟩
    obtain ⟨ents', hslice', hall⟩ := sliceEntries_sameShares uninit uninit' _ _ _ _ hslice
    refine ⟨{ hashVersion := .v1, maxDim := p, bbGlbDomain := bbDomain, entTab := ents',
              odscSize := maxVersions }, ?_, rfl, rfl, rfl, rfl, hall⟩
    simp only [ssdAllocV1, dhtConstructHash, hp, htab', hslice', Option.bind_eq_bind, Option.bind_some,
      Option.pure_def]
  · exact ⟨ss, h, SSpace.SameShares.refl ss⟩
  · cases h

/-- Where no entry is without intervals, it is the same space. -/
theorem SSpace.SameShares.eq {ss' : SSpace} (h : ss.SameShares ss') (hne : ∀ de ∈ ss.entTab, de.iTab ≠ []) :
    ss' = ss := by
  have hents : ss'.entTab = ss.entTab := by
    obtain ⟨-, -, -, -, hall⟩ := h
    generalize ss.entTab = ents at hall hne
    generalize ss'.entTab = ents' at hall
    induction hall with
    | nil => rfl
    | @cons de de' ents ents' hsame _ ih =>
        have hde : de' = de := by
          obtain ⟨hrank, hiTab, hbbTab, hiVirt⟩ := hsame
          have hhull := hiVirt (hne de List.mem_cons_self)
          cases de
          cases de'
          rw [DhtEntry.mk.injEq]
          exact ⟨hrank, hhull, hiTab, hbbTab⟩
        rw [hde, ih fun d hd => hne d (List.mem_cons_of_mem _ hd)]
  have hversion := h.hashVersion
  have hmax := h.maxDim
  have hdomain := h.bbGlbDomain
  have hsize := h.odscSize
  cases ss
  cases ss'
  rw [SSpace.mk.injEq]
  exact ⟨hversion, hmax, hdomain, hents, hsize⟩

namespace SSpace.SameShares

variable {ss' : SSpace}

/-- What an entry owns does not depend on the hulls. -/
theorem owned_eq (h : ss.SameShares ss') {de de' : DhtEntry} (hde : de.SameShare de') :
    de'.owned hilbertC2i ss' = de.owned hilbertC2i ss := by
  simp only [DhtEntry.owned, h.hashVersion, h.bbGlbDomain, h.maxDim, hde.iTab, hde.bbTab]

theorem within (h : ss.SameShares ss') {bb : BBox} (hbb : ss.Within bb) : ss'.Within bb := by
  refine ⟨⟨hbb.valid, ?_, fun hv => ?_⟩, ?_⟩
  · rw [h.bbGlbDomain, hbb.dims]
  · rw [h.maxDim]
    exact hbb.ring (h.hashVersion ▸ hv)
  · rw [h.bbGlbDomain]
    exact hbb.subset

theorem inDomain (h : ss.SameShares ss') {bb : BBox} (hbb : ss.InDomain bb) : ss'.InDomain bb := by
  refine ⟨hbb.valid, ?_, ?_, fun hv => ?_⟩
  · rw [h.bbGlbDomain, hbb.dims]
  · rw [h.bbGlbDomain]
    exact hbb.subset
  · rw [h.maxDim]
    exact hbb.ring (h.hashVersion ▸ hv)

end SSpace.SameShares

/-- The domain of a v1 space lies in the virtual cube. -/
theorem SpaceCut.meets_bbVirt {uninit : Intv}
    (h : SpaceCut hilbertC2i uninit bbDomain numNodes maxVersions hashVersion ss)
    (hv : ss.hashVersion = .v1) (p : UInt64) (hp : nextPow2V2 (maxUb bbDomain) = some p) :
    (bbDomain.cells ∩ (bbVirt bbDomain.numDims p).cells).Nonempty := by
  rcases h.usable with hu | ⟨-, hholds⟩
  · rw [hv] at hu
    cases hu
  rcases ssdAlloc_cases h.built with ⟨hv', -⟩ | ⟨-, halloc⟩ | ⟨hv', -⟩
  · rw [hv] at hv'
    cases hv'
  · have hmax := (ssdAllocV1_fields halloc).1
    rw [hmax, Option.some.injEq] at hp
    obtain ⟨k, hk, hside, -⟩ := nextPow2V2_some hmax
    rw [← hp, Finset.inter_eq_left.2 (cells_subset_bbVirt (CubeDims.of_valid h.domain hside) hside rfl
      hholds.below)]
    exact h.domain.cells_nonempty
  · rw [hv] at hv'
    cases hv'

/-- All servers build the space alike up to the hulls. -/
theorem SpaceCut.sameShares {uninit uninit' : Intv} {ss' : SSpace}
    (h : SpaceCut hilbertC2i uninit bbDomain numNodes maxVersions hashVersion ss)
    (h' : SpaceCut hilbertC2i uninit' bbDomain numNodes maxVersions hashVersion ss') : ss.SameShares ss' := by
  obtain ⟨ss'', hss'', hsame⟩ := ssdAlloc_sameShares h.domain h.meets_bbVirt h.built uninit'
  rw [h'.built, Option.some.injEq] at hss''
  rwa [hss'']

/-- With no more servers than cells they build the same space. -/
theorem SpaceBuilt.alloc {uninit : Intv}
    (h : SpaceBuilt hilbertC2i uninit bbDomain numNodes maxVersions hashVersion ss) (uninit' : Intv) :
    ssdAlloc hilbertC2i uninit' bbDomain numNodes maxVersions hashVersion = some ss := by
  obtain ⟨ss', hss', hsame⟩ := ssdAlloc_sameShares h.domain h.cut.meets_bbVirt h.built uninit'
  rcases ssdAlloc_cases h.built with ⟨hv, -⟩ | ⟨hv, halloc⟩ | ⟨hv, halloc⟩
  · rcases h.usable with hu | ⟨hu, -⟩ <;> rw [hv] at hu <;> cases hu
  · rcases h.usable with hu | ⟨-, hfits⟩
    · rw [hv] at hu
      cases hu
    rw [hss', hsame.eq (iTab_ne_nil h.domain h.pos h.int halloc hfits)]
  · have hbuilt := h.built
    simp only [ssdAlloc] at hbuilt ⊢
    split at hbuilt
    · exact hbuilt
    · rw [ssdAllocV1_version hbuilt] at hv
      cases hv
    · exact hbuilt
    · cases hbuilt

theorem SpaceBuilt.cutAt {uninit : Intv}
    (h : SpaceBuilt hilbertC2i uninit bbDomain numNodes maxVersions hashVersion ss) (uninit' : Intv) :
    SpaceCut hilbertC2i uninit' bbDomain numNodes maxVersions hashVersion ss :=
  { h.cut with built := h.alloc uninit' }

end Unwritten

/-! ## Adding up the counts -/

theorem mapM_eq_some_map {α β : Type} {f : α → Option β} {g : α → β} (l : List α)
    (h : ∀ a ∈ l, f a = some (g a)) : l.mapM f = some (l.map g) := by
  induction l with
  | nil => rfl
  | cons a l ih =>
      rw [List.mapM_cons, h a (by simp), ih fun b hb => h b (by simp [hb])]
      rfl

theorem sum_int64_ofNat {α : Type} (f : α → ℕ) (l : List α) :
    (l.map fun a => Int64.ofNat (f a)).sum = Int64.ofNat (l.map f).sum := by
  induction l with
  | nil => rfl
  | cons a l ih => rw [List.map_cons, List.sum_cons, ih, List.map_cons, List.sum_cons, Int64.ofNat_add]

theorem sum_toInt_ofNat {α : Type} (f : α → ℕ) (l : List α) (h : (l.map f).sum < 2 ^ 63) :
    ((l.map fun a => Int64.ofNat (f a)).map Int64.toInt).sum = ((l.map f).sum : ℕ) := by
  induction l with
  | nil => rfl
  | cons a l ih =>
      simp only [List.map_cons, List.sum_cons] at h ⊢
      rw [ih (by omega), Int64.toInt_ofNat_of_lt (by omega), Nat.cast_add]

namespace Partitioned

variable {hilbertC2i : HilbertC2i} {ss : SSpace} {numNodes : Nat}

/-- The counts of all entries, as `long`s. -/
theorem mapM_count (h : Partitioned hilbertC2i ss numNodes) (uninit : Nat → Intv) {bb : BBox}
    (hbb : ss.Within bb) :
    ∃ counts, ss.entTab.mapM (fun de => sshHashElemCount hilbertC2i (uninit de.rank) ss de bb) = some counts ∧
      counts.length = numNodes ∧ counts.sum = (bboxVolume bb).toInt64 ∧
      (bb.cells.card < 2 ^ 63 → (counts.map Int64.toInt).sum = (bboxVolume bb).toNat) := by
  have hsum := h.sum_card_owned hbb
  have hvol := bboxVolume_eq hbb.valid.nearValid
  refine ⟨_, mapM_eq_some_map ss.entTab fun de hde => h.count (uninit de.rank) hde hbb, ?_, ?_,
    fun hlt => ?_⟩
  · rw [List.length_map, h.length_entTab]
  · rw [sum_int64_ofNat, hsum, hvol, UInt64.toInt64_ofNat']
  · rw [sum_toInt_ofNat _ _ (by omega), hsum, hvol, UInt64.toNat_ofNat', Nat.mod_eq_of_lt (by omega)]

/-- With an empty cache `ssd_hash` returns the computed entries. -/
theorem ssdHash_nil (h : Partitioned hilbertC2i ss numNodes) {bb : BBox} (hbb : ss.Fits bb)
    (hmeet : (bb.cells ∩ ss.bbGlbDomain.cells).Nonempty) :
    ∃ ranks : List Nat, (∀ uninit id, ∃ sfc, ssdHash hilbertC2i uninit id ss bb [] =
        some (ranks.map (DePtr.mk id), sfc)) ∧
      ∀ de ∈ ss.entTab, (bb.cells ∩ de.owned hilbertC2i ss).Nonempty → de.rank ∈ ranks := by
  obtain ⟨ranks, hranks, -, howned⟩ := h.hash bb hbb hmeet
  refine ⟨ranks, fun uninit id => ?_, howned⟩
  have hun : ssdHashUncached hilbertC2i uninit id ss bb = some (ranks.map (DePtr.mk id)) := by
    rw [ssdHashUncached, hranks uninit, Option.map_some]
  simp only [ssdHash, hun]
  cases ss.hashVersion with
  | auto => exact ⟨_, rfl⟩
  | v0 => exact ⟨_, rfl⟩
  | v1 => exact ⟨_, rfl⟩
  | v2 => exact ⟨_, rfl⟩

end Partitioned

/-- A valid box inside the domain. -/
structure BBox.Inside (bb dom : BBox) : Prop where
  valid : bb.Valid
  dims : bb.numDims = dom.numDims
  subset : bb.cells ⊆ dom.cells

/-- The counts of all servers, each with its own uninitialised memory, add up to the volume of the box, and a
server with a non-zero count is in the hash of the box. -/
structure CountedOnce (hilbertC2i : HilbertC2i) (ss : SSpace) (numNodes : Nat) (bb : BBox) : Prop where
  counts : ∀ uninit : Nat → Intv, ∃ counts,
    ss.entTab.mapM (fun de => sshHashElemCount hilbertC2i (uninit de.rank) ss de bb) = some counts ∧
    counts.length = numNodes ∧ counts.sum = (bboxVolume bb).toInt64 ∧
    (bb.cells.card < 2 ^ 63 → (counts.map Int64.toInt).sum = (bboxVolume bb).toNat)
  hashed : ∀ uninit, ∃ deTab sfc, ssdHash hilbertC2i uninit 0 ss bb [] = some (deTab, sfc) ∧
    ∀ de ∈ ss.entTab, ∀ uninit' n, sshHashElemCount hilbertC2i uninit' ss de bb = some n → n ≠ 0 →
      ⟨0, de.rank⟩ ∈ deTab

/-- Two boxes are hashed to a common server. -/
def ShareServer (hilbertC2i : HilbertC2i) (ss : SSpace) (bb bb' : BBox) : Prop :=
  ∀ uninit uninit', ∃ deTab sfc deTab' sfc', ssdHash hilbertC2i uninit 0 ss bb [] = some (deTab, sfc) ∧
    ssdHash hilbertC2i uninit' 0 ss bb' [] = some (deTab', sfc') ∧ ∃ de, de ∈ deTab ∧ de ∈ deTab'

namespace Partitioned

variable {hilbertC2i : HilbertC2i} {ss : SSpace} {numNodes : Nat} {bb bb' : BBox}

theorem countedOnce (h : Partitioned hilbertC2i ss numNodes) (hbb : ss.Within bb) :
    CountedOnce hilbertC2i ss numNodes bb := by
  refine ⟨fun uninit => h.mapM_count uninit hbb, fun uninit => ?_⟩
  -- a server with a count owns a cell of the box
  obtain ⟨ranks, hhash, howned⟩ := h.ssdHash_nil hbb.toFits hbb.meets
  obtain ⟨sfc, hsfc⟩ := hhash uninit 0
  refine ⟨_, sfc, hsfc, fun de hde uninit' n hn hne => ?_⟩
  rw [h.count uninit' hde hbb, Option.some.injEq] at hn
  refine List.mem_map_of_mem (howned de hde ?_)
  rw [Finset.nonempty_iff_ne_empty]
  intro hempty
  rw [hempty] at hn
  exact hne hn.symm

theorem shareServer (h : Partitioned hilbertC2i ss numNodes) (hbb : ss.Within bb) (hbb' : ss.Within bb')
    (hshare : (bb.cells ∩ bb'.cells).Nonempty) : ShareServer hilbertC2i ss bb bb' := by
  intro uninit uninit'
  obtain ⟨ranks, hhash, howned⟩ := h.ssdHash_nil hbb.toFits hbb.meets
  -- both boxes are hashed to the owner of a cell that they share
  obtain ⟨ranks', hhash', howned'⟩ := h.ssdHash_nil hbb'.toFits hbb'.meets
  obtain ⟨sfc, hsfc⟩ := hhash uninit 0
  obtain ⟨sfc', hsfc'⟩ := hhash' uninit' 0
  obtain ⟨x, hx⟩ := hshare
  rw [Finset.mem_inter] at hx
  obtain ⟨de, hde, hown⟩ := h.exists_owner (hbb.subset hx.1)
  refine ⟨_, sfc, _, sfc', hsfc, hsfc', ⟨0, de.rank⟩, ?_, ?_⟩
  · exact List.mem_map_of_mem (howned de hde ⟨x, Finset.mem_inter.2 ⟨hx.1, hown⟩⟩)
  · exact List.mem_map_of_mem (howned' de hde ⟨x, Finset.mem_inter.2 ⟨hx.2, hown⟩⟩)

end Partitioned

/-- A box that is hashed along the curve has room in the tables. -/
theorem ringFits_of_ssdHash {hilbertC2i : HilbertC2i} {uninit : Intv} {ss : SSpace} {bb : BBox} {k : Nat}
    (hv : ss.hashVersion = .v1) (hbb : bb.Valid) (hd : CubeDims k bb.numDims) (hside : ss.maxDim.toNat = 2 ^ k)
    {id : Nat} {r : List DePtr × SfcHashList} (h : ssdHash hilbertC2i uninit id ss bb [] = some r) :
    RingFits bb ss.maxDim := by
  simp only [ssdHash, hv, ssdHashCached, shFind] at h
  obtain ⟨deTab, hdeTab, -⟩ := Option.map_eq_some_iff.1 h
  simp only [ssdHashUncached, ssdHashLoop, hv, ssdHashV1Loop, Option.map_eq_some_iff] at hdeTab
  obtain ⟨-, ⟨iTab, htab, -⟩, -⟩ := hdeTab
  exact ((bboxToIntv2_iff hbb hd hside).1 htab).2

/-! ## One dimension -/

/-- In one dimension the Hilbert index is the coordinate. -/
def lineC2i : HilbertC2i := fun _ _ coord => coord.headD 0

theorem curveIndex_lineC2i {nBits : Nat} (hbits : nBits ≤ 64) {x : Cell} (hx : InGrid 1 nBits x) :
    curveIndex lineC2i 1 nBits x = x 0 := by
  have hx0 : x 0 < 2 ^ nBits := by simpa using hx 0
  have hpow : 2 ^ nBits ≤ 2 ^ 64 := Nat.pow_le_pow_right (by norm_num) hbits
  have hval : (UInt64.ofNat (x 0)).toNat = x 0 := by
    rw [UInt64.toNat_ofNat']
    exact Nat.mod_eq_of_lt (by omega)
  simpa [curveIndex, lineC2i, cellCoord, cellAt] using hval

theorem eq_of_inGrid_one {nBits : Nat} {x y : Cell} (hx : InGrid 1 nBits x) (hy : InGrid 1 nBits y)
    (h : x 0 = y 0) : x = y := by
  funext j
  by_cases hj : j = 0
  · rw [hj, h]
  · have hne : ¬ j.val < 1 := by
      have : j.val ≠ 0 := fun h0 => hj (Fin.ext h0)
      omega
    have hxj := hx j
    have hyj := hy j
    rw [if_neg hne] at hxj hyj
    rw [hxj, hyj]

theorem hilbertCurve_lineC2i {nBits : Nat} (hbits : nBits ≤ 64) : HilbertCurve lineC2i 1 nBits where
  injective := by
    intro x y hx hy hxy
    rw [curveIndex_lineC2i hbits hx, curveIndex_lineC2i hbits hy] at hxy
    exact eq_of_inGrid_one hx hy hxy
  subcube := by
    intro base l hbase haligned
    have hl := Nat.two_pow_pos l
    have hroom : base 0 + 2 ^ l ≤ 2 ^ nBits := (haligned 0 (by simp)).2
    -- on a line a subcube is an interval of cells, from `base` to `last`
    let last : Cell := fun j => if j = 0 then base 0 + 2 ^ l - 1 else 0
    have hlast : InGrid 1 nBits last := by
      intro j
      by_cases hj : j = 0
      · subst hj
        simp only [last, if_true]
        simp
        omega
      · have hne : ¬ j.val < 1 := fun h => hj (Fin.ext (by simpa using h))
        simp [last, hj, hne]
    have hcube : ∀ x ∈ cubeAt 1 base l, InGrid 1 nBits x ∧ base 0 ≤ x 0 ∧ x 0 ≤ base 0 + 2 ^ l - 1 := by
      intro x hx
      rw [cubeAt, Grid.Rect.mem_cells] at hx
      have hx0 := hx 0
      simp only [Fin.val_zero, zero_lt_one, if_true] at hx0
      refine ⟨fun j => ?_, hx0⟩
      by_cases hj : j.val < 1
      · obtain rfl : j = 0 := Fin.ext (by simpa using hj)
        rw [if_pos hj]
        omega
      · have hxj := hx j
        simp only [hj, if_false] at hxj ⊢
        omega
    refine ⟨base, last, fun j => ?_, fun j => ?_, ?_, fun hpos heq => ?_⟩
    · have hj := hbase j
      split
      · exact Or.inl rfl
      · next h => rwa [if_neg h] at hj
    · by_cases hj : j.val < 1
      · obtain rfl : j = 0 := Fin.ext (by simpa using hj)
        rw [if_pos hj]
        exact Or.inr rfl
      · have hne : j ≠ 0 := fun h => hj (by simp [h])
        simp [last, hj, hne]
    · rw [curveIndex_lineC2i hbits hbase, curveIndex_lineC2i hbits hlast]
      ext p
      simp only [Finset.mem_image, Finset.mem_Icc, last, if_true]
      constructor
      · rintro ⟨x, hx, rfl⟩
        obtain ⟨hgrid, hrange⟩ := hcube x hx
        rw [curveIndex_lineC2i hbits hgrid]
        exact hrange
      · intro hp
        -- the cell at a given index of the interval
        let x : Cell := fun j => if j = 0 then p else 0
        have hx : x ∈ cubeAt 1 base l := by
          rw [cubeAt, Grid.Rect.mem_cells]
          intro j
          by_cases hj : j = 0
          · subst hj
            simpa [x] using hp
          · have hne : ¬ j.val < 1 := fun h => hj (Fin.ext (by simpa using h))
            simp [x, hj, hne]
        refine ⟨x, hx, ?_⟩
        rw [curveIndex_lineC2i hbits (hcube x hx).1]
        simp [x]
    · -- an interval of more than one cell does not end where it begins
      have h0 := congrFun heq 0
      have h2 : 2 ^ 1 ≤ 2 ^ l := Nat.pow_le_pow_right (by norm_num) hpos
      simp only [last, if_true] at h0
      omega

theorem line_inDomain {ss : SSpace} {lo hi lo' hi' : UInt64} (hv2 : ss.hashVersion = .v2)
    (hd : ss.bbGlbDomain = BBox.line lo hi) (hle : lo' ≤ hi')
    (hin : bboxInclude (BBox.line lo hi) (BBox.line lo' hi') = true) :
    ss.InDomain (BBox.line lo' hi') where
  valid := BBox.line_valid hle
  dims := by rw [hd]; rfl
  subset := by
    have hdims : (BBox.line lo hi).numDims = (BBox.line lo' hi').numDims := rfl
    rw [hd]
    exact (bboxInclude_iff (BBox.line_valid hle) hdims).1 hin
  ring hv := nomatch hv2.symm.trans hv

theorem card_line (lo hi : UInt64) :
    (BBox.line lo hi).cells.card = hi.toNat + 1 - lo.toNat := by
  have hdims : (BBox.line lo hi).numDims ≤ BBOX_MAX_NDIM := show 1 ≤ BBOX_MAX_NDIM by decide
  rw [BBox.card_cells hdims]
  simp [BBox.line, BBox.side, Coord.c, Coord.ofFn]

/-- Two servers and the domain `[0, 3]`, cut along the curve. -/
def lineSpaceV1 : SSpace where
  hashVersion := .v1
  maxDim := 4
  bbGlbDomain := BBox.line 0 3
  entTab := [⟨0, ⟨0, 1⟩, [⟨0, 1⟩], []⟩, ⟨1, ⟨2, 3⟩, [⟨2, 3⟩], []⟩]
  odscSize := 1

theorem spaceBuilt_lineSpaceV1 :
    SpaceBuilt lineC2i ⟨0, 0⟩ (BBox.line 0 3) 2 1 .auto lineSpaceV1 where
  domain := BBox.line_valid (by decide)
  origin j hj := Or.inl (by obtain rfl : j = 0 := Nat.lt_one_iff.1 hj; rfl)
  pos := by norm_num
  int := by norm_num
  built := by decide +kernel
  usable := by
    refine Or.inr ⟨rfl, ⟨fun j hj => ?_, by decide, hilbertCurve_lineC2i (by decide)⟩, ?_⟩
    · obtain rfl : j = 0 := Nat.lt_one_iff.1 hj
      decide
    · rw [card_line]
      decide

/-- Two servers and the domain `[0, 2]`, cut by bisection. -/
def lineSpaceV2 : SSpace where
  hashVersion := .v2
  maxDim := 2
  bbGlbDomain := BBox.line 0 2
  entTab := [⟨0, ⟨0, 0⟩, [], [(bboxDivideIn2Ondim (BBox.line 0 2) 0).1]⟩,
    ⟨1, ⟨0, 0⟩, [], [(bboxDivideIn2Ondim (BBox.line 0 2) 0).2]⟩]
  odscSize := 1

theorem spaceBuilt_lineSpaceV2 :
    SpaceBuilt lineC2i ⟨0, 0⟩ (BBox.line 0 2) 2 1 .auto lineSpaceV2 where
  domain := BBox.line_valid (by decide)
  origin j hj := Or.inl (by obtain rfl : j = 0 := Nat.lt_one_iff.1 hj; rfl)
  pos := by norm_num
  int := by norm_num
  built := rfl
  usable := Or.inl rfl

end DataSpaces
