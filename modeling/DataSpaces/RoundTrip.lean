import DataSpaces.Agreement
import DataSpaces.Spread
import DataSpaces.Fetch

/-!
# RoundTrip — what was put is what a query gets

After any run in which the puts of one variable have disjoint boxes, and when all updates have arrived, a
query inside the union of these boxes lacks nothing at any server, is answered with the part of every put
that it meets, and the fetches that follow fill every cell of the buffer with the bytes that were put for
it.
-/

namespace DataSpaces

/-! ## The answers when nothing is lacking -/

section Answers

variable {hilbertC2i : HilbertC2i} {uninit : Nat → Unwritten} {conf : Conf} {ssd : SSpace}

/-- A server that owns a cell of a box is one of those the box hashes to. -/
theorem Partitioned.mem_ssdHashV2Loop {numNodes : Nat} (hpart : Partitioned hilbertC2i ssd numNodes)
    (hv2 : ssd.hashVersion = .v2) {bb : BBox} (hbb : ssd.InDomain bb) {x : Cell} (hx : x ∈ bb.cells)
    {r : Nat} (hr : r < numNodes) (hown : x ∈ ssd.ownedAt hilbertC2i r) : r ∈ ssdHashV2Loop ssd bb := by
  rcases hpart.hash bb hbb.toFits hbb.meets with ⟨ranks, hranks, -, howned⟩
  rcases hpart.getElem?_entTab hr with ⟨de, hde, hrank⟩
  have hloop : ssdHashV2Loop ssd bb = ranks := by
    have := hranks ⟨0, 0⟩
    simpa only [ssdHashLoop, hv2, Option.some.injEq] using this
  rw [SSpace.ownedAt, hde] at hown
  rw [hloop, ← hrank]
  exact howned de (List.mem_of_getElem? hde) ⟨x, Finset.mem_inter.2 ⟨hx, hown⟩⟩

variable (uninit) in
/-- A server that has descriptors for all cells that it owns of the query returns them, whether the query
waits or not. -/
theorem answer_of_covered {numNodes : Nat} (hpart : Partitioned hilbertC2i ssd numNodes)
    {qOdsc : ObjDesc} (hq : ssd.InDomain qOdsc.bb) {tables : Nat → DhtTable} {rank : Nat}
    (hrank : rank < numNodes) (hok : (tables rank).Ok) (hsep : (tables rank).Separate qOdsc)
    (hcov : lackingAt hilbertC2i ssd tables qOdsc rank = ∅) (timeout : Int) :
    answer hilbertC2i uninit (fun _ => ssd) tables qOdsc timeout rank =
      some (((tables rank).found qOdsc).map fun s => clipOdsc qOdsc s.odsc) := by
  have hfind := dhtFindEntryAll_eq (hpart.countsAt (uninit rank) hrank) hq hsep timeout
  rw [lackingAt] at hcov
  have hnone : ¬ Int64.ofNat (∅ : Finset Cell).card > 0 := by
    rw [Finset.card_empty]
    decide
  rw [hcov] at hfind
  simp only [hnone, if_false, ite_self] at hfind
  rw [answer, Server.findOdscs, hfind]
  simp only [Option.bind_eq_bind, Option.bind_some]
  rw [hok.filterMap_read]
  rfl

end Answers

/-! ## The descriptors of a variable that are all in place -/

section Placed

variable {hilbertC2i : HilbertC2i} {uninit : Nat → Unwritten} {conf : Conf} {ssd : SSpace} {nm : CStr}
  {ver : UInt32} {maxVersions : Nat} {puts : List ObjData} {p : Plane} {qOdsc : ObjDesc}

/-- When nothing is on its way, the tables hold exactly the puts. -/
theorem Spread.mem_named (h : Spread ssd nm ver maxVersions puts p) (hnet : p.net = []) {r : Nat}
    {odsc : ObjDesc} : odsc ∈ (p.tab r).named (ver.toNat % maxVersions) nm ↔
      (∃ od ∈ puts, od.objDesc = odsc) ∧ r ∈ ssdHashV2Loop ssd odsc.bb := by
  have hplaced := h.placed r
  have hnone : pendingTo p.net nm (ver.toNat % maxVersions) maxVersions r = [] := by
    rw [hnet]
    rfl
  rw [hnone, List.append_nil] at hplaced
  rw [hplaced.mem_iff, List.mem_filter, List.mem_map, decide_eq_true_eq]

variable (h : Spread ssd nm ver maxVersions puts p) (hnet : p.net = []) (hputs : VarPuts ssd puts)
  (hver : ∀ od ∈ puts, od.objDesc.version = ver) (hname : qOdsc.name = nm) (hqver : qOdsc.version = ver)
  (hq : ssd.InDomain qOdsc.bb)

include h hnet hver hname hqver in
/-- The nodes that match the query are the puts that meet it. -/
theorem Spread.mem_found {r : Nat} {odsc : ObjDesc} :
    odsc ∈ ((p.tab r).found qOdsc).map Slot.odsc ↔
      (∃ od ∈ puts, od.objDesc = odsc) ∧ r ∈ ssdHashV2Loop ssd odsc.bb ∧
        bboxDoesIntersect odsc.bb qOdsc.bb = true := by
  have hindex : (p.tab r).index qOdsc = ver.toNat % maxVersions := by
    rw [DhtTable.index, h.tabSize, hqver]
  -- with nothing on its way, the bin holds what the puts stored
  have hnamed : odsc ∈ (p.tab r).named (ver.toNat % maxVersions) nm ↔ _ := h.mem_named hnet
  rw [DhtTable.mem_named] at hnamed
  constructor
  · intro hmem
    rcases List.mem_map.1 hmem with ⟨s, hs, rfl⟩
    rcases TableAfter.mem_found.1 hs with ⟨hbin, hmatch⟩
    rcases objDescEqualsIntersect_iff.1 hmatch with ⟨hsname, -, hmeet⟩
    rw [hindex] at hbin
    rcases hnamed.1 ⟨⟨s, hbin, rfl⟩, hsname.trans hname⟩ with ⟨hput, hrank⟩
    exact ⟨hput, hrank, hmeet⟩
  · rintro ⟨hput, hrank, hmeet⟩
    rcases hnamed.2 ⟨hput, hrank⟩ with ⟨⟨s, hbin, rfl⟩, hsname⟩
    rcases hput with ⟨od, hod, hodsc⟩
    refine List.mem_map_of_mem (TableAfter.mem_found.2 ⟨hindex.symm ▸ hbin, ?_⟩)
    exact objDescEqualsIntersect_iff.2 ⟨hsname.trans hname.symm, by rw [hqver, ← hodsc, hver od hod], hmeet⟩

include h hputs hname hqver hq in
/-- The matching nodes are disjoint boxes of the dimensionality of the query. -/
theorem Spread.separate (r : Nat) : (p.tab r).Separate qOdsc := by
  have hindex : (p.tab r).index qOdsc = ver.toNat % maxVersions := by
    rw [DhtTable.index, h.tabSize, hqver]
  have hput : ∀ s ∈ (p.tab r).found qOdsc, s.odsc ∈ (p.tab r).named (ver.toNat % maxVersions) nm := by
    intro s hs
    rcases TableAfter.mem_found.1 hs with ⟨hbin, hmatch⟩
    rw [hindex] at hbin
    exact DhtTable.mem_named.2 ⟨⟨s, hbin, rfl⟩, (objDescEqualsIntersect_iff.1 hmatch).1.trans hname⟩
  have hin : ∀ s ∈ (p.tab r).found qOdsc, ssd.InDomain s.odsc.bb := by
    intro s hs
    rcases h.mem_placed (List.mem_append_left _ (hput s hs)) with ⟨od, hod, hodsc⟩
    rw [← hodsc]
    exact hputs.inDomain od hod
  refine ⟨fun s hs => (hin s hs).valid, fun s hs => (hin s hs).dims.trans hq.dims.symm, ?_⟩
  -- the matching nodes are among the descriptors of the name, which are disjoint
  have hdis := (List.pairwise_append.1 (h.placed_disjoint hputs r)).1
  rw [DhtTable.named, List.filter_map, List.pairwise_map, ← hindex] at hdis
  refine hdis.sublist ?_
  rw [DhtTable.found]
  refine List.monotone_filter_right _ fun s hs => ?_
  simpa [hname] using (objDescEqualsIntersect_iff.1 hs).1

include h hnet hputs hver hname hqver hq in
/-- No server lacks a cell of a query inside the union of the puts. -/
theorem Spread.lackingAt_eq_empty {numNodes : Nat} (hpart : Partitioned hilbertC2i ssd numNodes)
    (hv2 : ssd.hashVersion = .v2)
    (hcover : qOdsc.bb.cells ⊆ Cover.union (fun od : ObjData => od.objDesc.bb.cells) puts) {r : Nat}
    (hr : r < numNodes) : lackingAt hilbertC2i ssd p.tab qOdsc r = ∅ := by
  rw [lackingAt, uncovered, Finset.sdiff_eq_empty_iff_subset]
  intro x hx
  rcases Finset.mem_inter.1 hx with ⟨hxq, hown⟩
  rcases Cover.mem_union.1 (hcover hxq) with ⟨od, hod, hxo⟩
  have hin := hputs.inDomain od hod
  have hmeet : bboxDoesIntersect od.objDesc.bb qOdsc.bb = true :=
    bboxDoesIntersect_of_mem (hin.dims.trans hq.dims.symm) hin.valid.dims hxo hxq
  have hfound := (h.mem_found hnet hver hname hqver (r := r)).2
    ⟨⟨od, hod, rfl⟩, hpart.mem_ssdHashV2Loop hv2 hin hxo hr hown, hmeet⟩
  rcases List.mem_map.1 hfound with ⟨s, hs, hsodsc⟩
  refine Cover.mem_union.2 ⟨s.odsc.bb, List.mem_map_of_mem hs, ?_⟩
  rw [hsodsc]
  exact hxo

/-- Puts that share a cell are one put. -/
theorem VarPuts.eq_of_mem (hputs : VarPuts ssd puts) {od od' : ObjData} (hod : od ∈ puts)
    (hod' : od' ∈ puts) {x : Cell} (hx : x ∈ od.objDesc.bb.cells) (hx' : x ∈ od'.objDesc.bb.cells) :
    od = od' := by
  by_contra hne
  have hsymm : Std.Symm fun od od' : ObjData => Disjoint od.objDesc.bb.cells od'.objDesc.bb.cells :=
    ⟨fun _ _ hd => hd.symm⟩
  have hdis := hputs.disjoint.forall hod hod' hne
  exact Finset.disjoint_left.1 hdis hx hx'

end Placed

/-! ## The query -/

section Query

variable {hilbertC2i : HilbertC2i} {uninit : Nat → Unwritten} {conf : Conf} {ssd : SSpace}
  {gdim : GlobalDimension} {nm : CStr} {ver : UInt32} {puts : List ObjData} {g : Group} {p : Plane}
  {qOdsc : ObjDesc}

/-- The query is answered with the part of every put that it meets. -/
theorem Spread.getQueryOdscs_eq (h : Spread ssd nm ver conf.maxVersions puts p) (hnet : p.net = [])
    (hputs : VarPuts ssd puts) (hver : ∀ od ∈ puts, od.objDesc.version = ver)
    (hshows : Shows hilbertC2i uninit conf ssd gdim g p)
    (hpart : Partitioned hilbertC2i ssd conf.sizeSp)
    (hssd : conf.SpacesFor hilbertC2i uninit gdim fun _ => ssd) (hv2 : ssd.hashVersion = .v2)
    (hremotes : conf.remotes = none) (hname : qOdsc.name = nm) (hqver : qOdsc.version = ver)
    (hq : ssd.InDomain qOdsc.bb)
    (hcover : qOdsc.bb.cells ⊆ Cover.union (fun od : ObjData => od.objDesc.bb.cells) puts) (self : Nat)
    (timeout : Int) :
    ∃ odscs g', getQueryOdscs hilbertC2i uninit conf g self qOdsc gdim timeout = some (odscs, g') ∧
      Shows hilbertC2i uninit conf ssd gdim g' p ∧
      (∀ odsc ∈ odscs, ∃ od ∈ puts, odsc = clipOdsc qOdsc od.objDesc ∧
        bboxDoesIntersect od.objDesc.bb qOdsc.bb = true) ∧
      ∀ od ∈ puts, (od.objDesc.bb.cells ∩ qOdsc.bb.cells).Nonempty →
        clipOdsc qOdsc od.objDesc ∈ odscs := by
  have hlocal : (g.server self).localResponsibility conf qOdsc = true := by
    simp [Server.localResponsibility, hremotes]
  have hranks : (g.server self).hashRanks hilbertC2i (uninit self) gdim ssd qOdsc.bb =
      some (ssdHashV2Loop ssd qOdsc.bb) := by
    rcases ssdHash_of_cacheRight hilbertC2i (uninit self) hv2 (hshows.cache self)
      ((g.server self).spaceId gdim) qOdsc.bb with ⟨deTab, sfc, hhash, hranks, -⟩
    rw [Server.hashRanks, hhash, Option.map_some, hranks]
  have hne : ssdHashV2Loop ssd qOdsc.bb ≠ [] := by
    have hsel : ssdHashLoop hilbertC2i ⟨0, 0⟩ ssd qOdsc.bb ≠ some [] :=
      ssdHashLoop_ne_nil hpart hq.toFits hq.meets _
    simpa only [ssdHashLoop, hv2, ne_eq, Option.some.injEq] using hsel
  have hlt : ∀ r ∈ ssdHashV2Loop ssd qOdsc.bb, r < conf.sizeSp := by
    intro r hr
    rcases List.mem_map.1 hr with ⟨de, hde, rfl⟩
    exact hpart.rank_lt (List.mem_filter.1 hde).1
  have hasked : askedRanks self (ssdHashV2Loop ssd qOdsc.bb) = ssdHashV2Loop ssd qOdsc.bb := by
    rw [askedRanks, if_neg (by simpa using hne)]
  have htables : (fun rank => (g.server rank).tableOf conf gdim) = p.tab := funext hshows.tab
  have hanswers := mapM_eq_some_map (ssdHashV2Loop ssd qOdsc.bb) fun r hr =>
    answer_of_covered uninit hpart hq (hlt r hr) (h.nodes r) (h.separate hputs hname hqver hq r)
      (h.lackingAt_eq_empty hnet hputs hver hname hqver hq hpart hv2 hcover (hlt r hr)) timeout
  have hspec := getQueryOdscs_local hshows.ok hssd hlocal timeout
  simp only [queryAnswer, hranks, Option.bind_some, hasked, htables, hanswers, Option.map_some] at hspec
  rcases hspec with ⟨g', hget, -, -⟩
  refine ⟨_, g', hget, hshows.query hssd hv2 hremotes ⟨rfl, fun _ _ => rfl⟩ hget, ?_, ?_⟩
  · intro odsc hodsc
    rcases List.mem_flatten.1 (mem_of_mem_dedup hodsc) with ⟨l, hl, hodsc⟩
    rcases List.mem_map.1 hl with ⟨r, -, rfl⟩
    rcases List.mem_map.1 hodsc with ⟨s, hs, rfl⟩
    rcases (h.mem_found hnet hver hname hqver).1 (List.mem_map_of_mem hs) with ⟨⟨od, hod, hods⟩, -, hmeet⟩
    rw [← hods] at hmeet ⊢
    exact ⟨od, hod, rfl, hmeet⟩
  · rintro od hod ⟨x, hx⟩
    rcases Finset.mem_inter.1 hx with ⟨hxo, hxq⟩
    have hin := hputs.inDomain od hod
    -- the owner of a common cell is asked and has the descriptor
    rcases hpart.exists_ownedAt (hq.subset hxq) with ⟨r, hr, hown⟩
    have hmeet : bboxDoesIntersect od.objDesc.bb qOdsc.bb = true :=
      bboxDoesIntersect_of_mem (hin.dims.trans hq.dims.symm) hin.valid.dims hxo hxq
    have hfound := (h.mem_found hnet hver hname hqver (r := r)).2
      ⟨⟨od, hod, rfl⟩, hpart.mem_ssdHashV2Loop hv2 hin hxo hr hown, hmeet⟩
    rcases List.mem_map.1 hfound with ⟨s, hs, hsodsc⟩
    have hflat : clipOdsc qOdsc od.objDesc ∈ ((ssdHashV2Loop ssd qOdsc.bb).map fun r =>
        ((p.tab r).found qOdsc).map fun s => clipOdsc qOdsc s.odsc).flatten := by
      refine List.mem_flatten.2 ⟨_, List.mem_map_of_mem (hpart.mem_ssdHashV2Loop hv2 hq hxq hr hown), ?_⟩
      exact List.mem_map.2 ⟨s, hs, by rw [hsodsc]⟩
    rcases exists_mem_dedup hflat with ⟨odsc, hodsc, hlike⟩
    -- what the merge kept instead is the part of the same put
    rcases List.mem_flatten.1 (mem_of_mem_dedup hodsc) with ⟨l, hl, hmem⟩
    rcases List.mem_map.1 hl with ⟨r', -, rfl⟩
    rcases List.mem_map.1 hmem with ⟨s', hs', rfl⟩
    rcases (h.mem_found hnet hver hname hqver).1 (List.mem_map_of_mem hs') with ⟨⟨od', hod', hods'⟩, -, -⟩
    have hcells := cells_eq_of_bboxEquals (objDescEqualsNoOwner_iff.1 hlike).2.2
    have hin' := hputs.inDomain od' hod'
    rw [← hods', clipOdsc, clipOdsc, bboxIntersect_cells (hq.dims.trans hin'.dims.symm),
      bboxIntersect_cells (hq.dims.trans hin.dims.symm)] at hcells
    have hxo' : x ∈ od'.objDesc.bb.cells := by
      have hboth : x ∈ qOdsc.bb.cells ∩ od'.objDesc.bb.cells := by
        rw [hcells]
        exact Finset.mem_inter.2 ⟨hxq, hxo⟩
      exact (Finset.mem_inter.1 hboth).2
    rw [hputs.eq_of_mem hod hod' hxo hxo', hods']
    exact hodsc

end Query

/-! ## The round trip -/

section RoundTrip

variable {hilbertC2i : HilbertC2i} {uninit : Nat → Unwritten} {space : Intv} {conf : Conf} {ssd : SSpace}
  {spaces₀ : Nat → SSpace}
  {gdim : GlobalDimension} {nm : CStr} {ver : UInt32} {sz : UInt64} {evs : List GroupEvent}

/-- The puts of a variable in a run: all requests use the global dimensions, other objects have other
names or versions in other bins, and the puts are as the clients of `put_rpc` send them, with disjoint
boxes inside the domain and elements of one size. -/
structure VarRun (conf : Conf) (ssd : SSpace) (gdim : GlobalDimension) (nm : CStr) (ver : UInt32)
    (sz : UInt64) (evs : List GroupEvent) : Prop where
  uses : ∀ ev ∈ evs, ev.Uses gdim
  apart : ∀ ev ∈ evs, ev.Apart nm ver conf.maxVersions
  puts : VarPuts ssd (putsOf nm ver evs)
  nine : ∀ od ∈ putsOf nm ver evs, od.objDesc.bb.numDims ≤ 9
  size : ∀ od ∈ putsOf nm ver evs, od.objDesc.size = sz
  bytes : ∀ od ∈ putsOf nm ver evs, od.objDesc.bb.cells.card * sz.toNat < 2 ^ 31
  flags : ∀ od ∈ putsOf nm ver evs, od.objDesc.flags &&& DS_CLIENT_STORAGE = 0

theorem mem_putsOf {od : ObjData} (h : od ∈ putsOf nm ver evs) :
    od.objDesc.name = nm ∧ od.objDesc.version = ver ∧ ∃ rank, od.objDesc.owner = .server rank := by
  induction evs with
  | nil => simp [putsOf] at h
  | cons ev evs ih =>
      cases ev with
      | put rank odsc gdim' data =>
          rw [putsOf] at h
          split at h
          · next hsame =>
              rcases List.mem_cons.1 h with rfl | h
              · exact ⟨hsame.1, hsame.2, rank, rfl⟩
              · exact ih h
          · exact ih h
      | deliver k => exact ih h
      | query rank qOdsc gdim' => exact ih h

/-- No corner of a box in a space cut up by bisection is the largest 64-bit value. -/
theorem SpaceBuilt.bounded {bbDomain : BBox} {numNodes maxVersions : Nat} {hashVersion : HashVersion}
    (h : SpaceBuilt hilbertC2i space bbDomain numNodes maxVersions hashVersion ssd)
    (hv2 : ssd.hashVersion = .v2) {bb : BBox} (hbb : ssd.InDomain bb) :
    ∀ i < bb.numDims, bb.ub.c i ≠ 0xffffffffffffffff := by
  have halloc : ssdAllocV2 bbDomain numNodes maxVersions = some ssd := by
    rcases ssdAlloc_cases h.built with ⟨hv, -⟩ | ⟨hv, -⟩ | ⟨-, halloc⟩
    · rw [hv] at hv2
      cases hv2
    · rw [hv] at hv2
      cases hv2
    · exact halloc
  have hdom : ssd.bbGlbDomain = bbDomain := (ssdAllocV2_spec h.domain h.origin h.pos h.int halloc).2.1
  -- otherwise `next_pow_2_v2` would not have returned
  have htop : ∀ i < bbDomain.numDims, (bbDomain.ub.c i).toNat ≤ 2 ^ 63 := by
    simp only [ssdAllocV2] at halloc
    rcases Option.bind_eq_some_iff.1 halloc with ⟨maxDim, hmax, -⟩
    have hle : (getBboxMaxDim bbDomain 0).1.toNat ≤ 2 ^ 63 :=
      nextPow2V2_isSome_iff.1 (Option.isSome_iff_exists.2 ⟨maxDim, hmax⟩)
    intro i hi
    exact (UInt64.le_iff_toNat_le.1 ((getBboxMaxDim_spec h.domain.dims).1 i hi)).trans hle
  have hinc := (bboxInclude_iff hbb.valid hbb.dims.symm).2 hbb.subset
  intro i hi hmax
  have hi' : i < ssd.bbGlbDomain.numDims := hbb.dims ▸ hi
  have hdim := bboxInclude_iff_ondim.1 hinc i hi'
  rw [hmax, hdom] at hdim
  have htop' := htop i (hdom ▸ hi')
  have hval : (0xffffffffffffffff : UInt64).toNat = 2 ^ 64 - 1 := rfl
  omega

/-- The byte that the puts say a cell has. -/
def byteOf (puts : List ObjData) (sz : UInt64) (x : Cell) (c : ℕ) : UInt8 :=
  match puts.find? fun od => x ∈ od.objDesc.bb.cells with
  | some od => od.data (od.objDesc.bb.offset x * sz.toNat + c)
  | none => 0

theorem VarPuts.holdsBytes {puts : List ObjData} (h : VarPuts ssd puts) {od : ObjData} (hod : od ∈ puts)
    (sz : UInt64) : HoldsBytes od.objDesc.bb sz.toNat (byteOf puts sz) od.data := by
  intro x hx c _
  rw [byteOf]
  cases hfind : puts.find? fun od => x ∈ od.objDesc.bb.cells with
  | none => exact absurd hx (by simpa using List.find?_eq_none.1 hfind od hod)
  | some od' =>
      have hx' : x ∈ od'.objDesc.bb.cells := by simpa using List.find?_some hfind
      rw [h.eq_of_mem hod (List.mem_of_find?_eq_some hfind) hx hx']

/-- The part of a put that a query is told about lies in the domain, and its cells are the shared ones. -/
theorem VarPuts.inDomain_clip {puts : List ObjData} (h : VarPuts ssd puts) {qOdsc : ObjDesc}
    (hq : ssd.InDomain qOdsc.bb) {od : ObjData} (hod : od ∈ puts)
    (hmeet : bboxDoesIntersect od.objDesc.bb qOdsc.bb = true) :
    ssd.InDomain (clipOdsc qOdsc od.objDesc).bb ∧
      (clipOdsc qOdsc od.objDesc).bb.cells = qOdsc.bb.cells ∩ od.objDesc.bb.cells := by
  have hin := h.inDomain od hod
  have hd : qOdsc.bb.numDims = od.objDesc.bb.numDims := hq.dims.trans hin.dims.symm
  have hmeet' : bboxDoesIntersect qOdsc.bb od.objDesc.bb = true := bboxDoesIntersect_comm hd ▸ hmeet
  exact ⟨hq.inter hin.valid hd.symm hmeet', bboxIntersect_cells hd⟩

/-- The owner of a put finds it again with the part that a query was told about. -/
theorem Spread.lsFind_clip {maxVersions : Nat} {puts : List ObjData} {p : Plane}
    (h : Spread ssd nm ver maxVersions puts p) (hputs : VarPuts ssd puts)
    (hkey : ∀ od ∈ puts, od.objDesc.name = nm ∧ od.objDesc.version = ver) {qOdsc : ObjDesc}
    (hq : ssd.InDomain qOdsc.bb) {od : ObjData} (hod : od ∈ puts) {r : Nat}
    (howner : od.objDesc.owner = .server r)
    (hmeet : bboxDoesIntersect od.objDesc.bb qOdsc.bb = true) :
    (p.ls r).lsFind (clipOdsc qOdsc od.objDesc) = some od := by
  have hin := hputs.inDomain od hod
  rcases hputs.inDomain_clip hq hod hmeet with ⟨hclip, hcells⟩
  have hindex : (p.ls r).index (clipOdsc qOdsc od.objDesc) = ver.toNat % maxVersions := by
    rw [SsStorage.index, h.lsSize]
    exact congrArg (fun v : UInt32 => v.toNat % maxVersions) (hkey od hod).2
  have hself : objDescEqualsIntersect (clipOdsc qOdsc od.objDesc) od.objDesc = true := by
    rcases hclip.valid.cells_nonempty with ⟨x, hx⟩
    have hxo : x ∈ od.objDesc.bb.cells := (Finset.mem_inter.1 (hcells ▸ hx)).2
    exact objDescEqualsIntersect_iff.2 ⟨rfl, rfl,
      bboxDoesIntersect_of_mem (hclip.dims.trans hin.dims.symm) hclip.valid.dims hx hxo⟩
  rw [SsStorage.lsFind, hindex]
  cases hfind : ((p.ls r).objHash (ver.toNat % maxVersions)).find? fun od' =>
      objDescEqualsIntersect (clipOdsc qOdsc od.objDesc) od'.objDesc with
  | none =>
      have hmem := (SsStorage.mem_named.1 (h.mem_stored.2 ⟨hod, howner⟩)).1
      exact absurd hself (by simpa using List.find?_eq_none.1 hfind od hmem)
  | some od' =>
      -- whatever is found meets the part, hence the put, and is the put
      have hmatch : objDescEqualsIntersect (clipOdsc qOdsc od.objDesc) od'.objDesc = true := by
        simpa using List.find?_some hfind
      rcases objDescEqualsIntersect_iff.1 hmatch with ⟨hname', -, hmeet''⟩
      have hnamed : od' ∈ (p.ls r).named (ver.toNat % maxVersions) nm :=
        SsStorage.mem_named.2 ⟨List.mem_of_find?_eq_some hfind, hname'.symm.trans (hkey od hod).1⟩
      have hod' := (h.mem_stored.1 hnamed).1
      have hin' := hputs.inDomain od' hod'
      rcases (bboxDoesIntersect_iff hclip.valid hin'.valid (hclip.dims.trans hin'.dims.symm)).1 hmeet''
        with ⟨x, hx⟩
      rw [hcells] at hx
      simp only [Finset.mem_inter] at hx
      rw [hputs.eq_of_mem hod' hod hx.2 hx.1.2]

/-- A part of a put that a query was told about can be fetched, with the bytes of the put. -/
theorem Spread.fetchObj_clip {p : Plane} {g : Group} {getLocal : ObjDesc → Option Buf}
    {malloced : Nat → Buf} (h : Spread ssd nm ver conf.maxVersions (putsOf nm ver evs) p)
    (hevs : VarRun conf ssd gdim nm ver sz evs)
    (hbounded : ∀ {bb : BBox}, ssd.InDomain bb → ∀ i < bb.numDims, bb.ub.c i ≠ 0xffffffffffffffff)
    (hremotes : conf.remotes = none) (hls : ∀ r, (g.server r).ls = p.ls r) {qOdsc : ObjDesc}
    (hq : ssd.InDomain qOdsc.bb) (hqsize : qOdsc.size = sz) (hholds : qOdsc.bb.Holds qOdsc.size.toNat)
    {od : ObjData} (hod : od ∈ putsOf nm ver evs)
    (hmeet : bboxDoesIntersect od.objDesc.bb qOdsc.bb = true) :
    (clipOdsc qOdsc od.objDesc).bb.Holds qOdsc.size.toNat ∧
      (clipOdsc qOdsc od.objDesc).bb.numDims = qOdsc.bb.numDims ∧
      (clipOdsc qOdsc od.objDesc).bb.cells ⊆ qOdsc.bb.cells ∧
      ∀ i, ∃ od', fetchObj conf g getLocal malloced qOdsc i (clipOdsc qOdsc od.objDesc) = some od' ∧
        od'.objDesc = clipOdsc qOdsc od.objDesc ∧
        HoldsBytes (clipOdsc qOdsc od.objDesc).bb qOdsc.size.toNat (byteOf (putsOf nm ver evs) sz)
          od'.data := by
  have hputs := hevs.puts
  have hin := hputs.inDomain od hod
  have hd : qOdsc.bb.numDims = od.objDesc.bb.numDims := hq.dims.trans hin.dims.symm
  rcases hputs.inDomain_clip hq hod hmeet with ⟨hclip, hcells⟩
  have hsub : (clipOdsc qOdsc od.objDesc).bb.cells ⊆ qOdsc.bb.cells := by
    rw [hcells]
    exact Finset.inter_subset_left
  -- the part and the put fit into memory, as the query does
  have hclipHolds : (clipOdsc qOdsc od.objDesc).bb.Holds qOdsc.size.toNat := by
    refine ⟨hclip.valid, hholds.nine, ?_, hbounded hclip⟩
    exact (Nat.mul_le_mul_right _ (Finset.card_le_card hsub)).trans_lt hholds.bytes
  have hodHolds : od.objDesc.bb.Holds qOdsc.size.toNat := by
    refine ⟨hin.valid, hevs.nine od hod, ?_, hbounded hin⟩
    rw [hqsize]
    exact (hevs.bytes od hod).trans (by decide)
  have hsize : (clipOdsc qOdsc od.objDesc).size = qOdsc.size := (hevs.size od hod).trans hqsize.symm
  have hsmall : (clipOdsc qOdsc od.objDesc).bb.cells.card * (clipOdsc qOdsc od.objDesc).size.toNat < 2 ^ 31 := by
    have hpart : (clipOdsc qOdsc od.objDesc).bb.cells ⊆ od.objDesc.bb.cells := hcells ▸ Finset.inter_subset_right
    rw [hsize, hqsize]
    exact (Nat.mul_le_mul_right _ (Finset.card_le_card hpart)).trans_lt (hevs.bytes od hod)
  have hflags : (clipOdsc qOdsc od.objDesc).flags &&& DS_CLIENT_STORAGE = 0 := hevs.flags od hod
  refine ⟨hclipHolds, rfl, hsub, fun i => ?_⟩
  rcases (mem_putsOf hod).2.2 with ⟨r, howner⟩
  have howner' : (clipOdsc qOdsc od.objDesc).owner = .server r := howner
  have hkey : ∀ od ∈ putsOf nm ver evs, od.objDesc.name = nm ∧ od.objDesc.version = ver :=
    fun od hod => ⟨(mem_putsOf hod).1, (mem_putsOf hod).2.1⟩
  have hfind := h.lsFind_clip hputs hkey hq hod howner hmeet
  rw [← hls] at hfind
  have hbytes : HoldsBytes od.objDesc.bb (clipOdsc qOdsc od.objDesc).size.toNat
      (byteOf (putsOf nm ver evs) sz) od.data := by
    rw [hsize, hqsize]
    exact hputs.holdsBytes hod sz
  rw [← hsize] at hclipHolds hodHolds ⊢
  have hsub' : (clipOdsc qOdsc od.objDesc).bb.cells ⊆ od.objDesc.bb.cells := by
    rw [hcells]
    exact Finset.inter_subset_right
  exact fetchObj_spec hremotes hsmall hflags howner' hfind hsize hclipHolds hodHolds hd hsub' hbytes i

/-- In every run of a group without remotes whose space was cut up by bisection, once all updates have
arrived, a query inside the union of the puts of a variable, at any server, fills its buffer with the bytes
that were put, cell by cell. -/
theorem put_get_round_trip
    (hinit : conf.SpacesFor hilbertC2i uninit conf.defaultGdim spaces₀)
    (hss : SpaceBuilt hilbertC2i space (conf.domainFor gdim) conf.sizeSp conf.maxVersions
      conf.hashVersion ssd)
    (hv2 : ssd.hashVersion = .v2) (hversions : 0 < conf.maxVersions) (hremotes : conf.remotes = none)
    (hevs : VarRun conf ssd gdim nm ver sz evs) {g : Group}
    (hrun : (Group.init conf spaces₀).run hilbertC2i uninit conf evs = some g) (hnet : g.net = [])
    {qOdsc : ObjDesc} (hname : qOdsc.name = nm) (hqver : qOdsc.version = ver) (hqsize : qOdsc.size = sz)
    (hfits : ssd.Fits qOdsc.bb)
    (hcover : qOdsc.bb.cells ⊆
      Cover.union (fun od : ObjData => od.objDesc.bb.cells) (putsOf nm ver evs))
    (hqbytes : qOdsc.bb.cells.card * sz.toNat < 2 ^ 64) (self : Nat) (timeout : Int)
    (getLocal : ObjDesc → Option Buf) (malloced : Nat → Buf) (data : Buf) :
    ∃ odscs g' out, getQueryOdscs hilbertC2i uninit conf g self qOdsc gdim timeout = some (odscs, g') ∧
      getData conf g' getLocal malloced qOdsc odscs data = some out ∧
      ∀ od ∈ putsOf nm ver evs, ∀ x ∈ od.objDesc.bb.cells ∩ qOdsc.bb.cells, ∀ c < sz.toNat,
        out (qOdsc.bb.offset x * sz.toNat + c) = od.data (od.objDesc.bb.offset x * sz.toNat + c) := by
  have hpart := hss.partitioned
  have hputs := hevs.puts
  have hssd := hss.spacesFor uninit
  have hq : ssd.InDomain qOdsc.bb := by
    refine ⟨hfits.valid, hfits.dims, fun x hx => ?_, fun hv => nomatch hv2.symm.trans hv⟩
    rcases Cover.mem_union.1 (hcover hx) with ⟨od, hod, hxo⟩
    exact (hputs.inDomain od hod).subset hxo
  have hsel : ∀ bb, ssd.InDomain bb → ssdHashV2Loop ssd bb ≠ [] := by
    intro bb hbb
    have hsel : ssdHashLoop hilbertC2i ⟨0, 0⟩ ssd bb ≠ some [] :=
      ssdHashLoop_ne_nil hpart hbb.toFits hbb.meets _
    simpa only [ssdHashLoop, hv2, ne_eq, Option.some.injEq] using hsel
  -- the run, seen through the space
  rcases Shows.run hssd hv2 hpart.nodup_ssdHashV2Loop hremotes evs _ g _ (Shows.init hinit)
    hevs.uses hrun with ⟨p, hrunp, hshows⟩
  have hnetp : p.net = [] := hshows.net ▸ hnet
  have hspread : Spread ssd nm ver conf.maxVersions (putsOf nm ver evs) p := by
    have := Spread.run hpart.nodup_ssdHashV2Loop hsel evs [] _ p (Spread.init hversions) hevs.apart
      (by simpa using hputs) hrunp
    simpa using this
  rcases hspread.getQueryOdscs_eq hnetp hputs (fun od hod => (mem_putsOf hod).2.1) hshows hpart hssd hv2
    hremotes hname hqver hq hcover self timeout with ⟨odscs, g', hget, hshows', hparts, hall⟩
  have hholds : qOdsc.bb.Holds qOdsc.size.toNat := by
    rcases hq.valid.cells_nonempty with ⟨x, hx⟩
    rcases Cover.mem_union.1 (hcover hx) with ⟨od, hod, -⟩
    refine ⟨hq.valid, ?_, by rw [hqsize]; exact hqbytes, hss.bounded hv2 hq⟩
    rw [hq.dims, ← (hputs.inDomain od hod).dims]
    exact hevs.nine od hod
  -- every descriptor of the answer can be fetched
  have hfetch : ∀ odsc ∈ odscs, odsc.bb.Holds qOdsc.size.toNat ∧ odsc.bb.numDims = qOdsc.bb.numDims ∧
      odsc.bb.cells ⊆ qOdsc.bb.cells ∧
      ∀ i, ∃ od, fetchObj conf g' getLocal malloced qOdsc i odsc = some od ∧ od.objDesc = odsc ∧
        HoldsBytes odsc.bb qOdsc.size.toNat (byteOf (putsOf nm ver evs) sz) od.data := by
    intro odsc hodsc
    rcases hparts odsc hodsc with ⟨od, hod, rfl, hmeet⟩
    exact hspread.fetchObj_clip hevs (hss.bounded hv2) hremotes hshows'.ls hq hqsize hholds hod hmeet
  rcases getDataLoop_spec hholds odscs 0 (objDataAllocNoData qOdsc data) [] rfl rfl hfetch (by simp) with
    ⟨out, hloop, hright⟩
  refine ⟨odscs, g', out.data, hget, by rw [getData, hloop, Option.map_some], ?_⟩
  intro od hod x hx c hc
  rcases Finset.mem_inter.1 hx with ⟨hxo, hxq⟩
  have hpiece := hall od hod ⟨x, hx⟩
  have hd : qOdsc.bb.numDims = od.objDesc.bb.numDims := hq.dims.trans (hputs.inDomain od hod).dims.symm
  have hcov : x ∈ Cover.union BBox.cells ([] ++ odscs.map ObjDesc.bb) := by
    refine Cover.mem_union.2 ⟨(clipOdsc qOdsc od.objDesc).bb, ?_, ?_⟩
    · exact List.mem_map_of_mem hpiece
    · rw [clipOdsc, bboxIntersect_cells hd]
      exact Finset.mem_inter.2 ⟨hxq, hxo⟩
  have hout := hright x hxq hcov c (hqsize ▸ hc)
  rw [hqsize] at hout
  rw [hout]
  exact (hputs.holdsBytes hod sz x hxo c hc).symm

/-! ### Two puts, each at the server that does not own its cells, and a query of a part of both -/

/-- A put of the cells 0 and 1 with the bytes 7 and 8 at server 1. -/
def lowerBytes : ObjData :=
  ⟨(plainDesc 0 (BBox.line 0 1)).ownedBy 1, lineConf.defaultGdim, fun pos => UInt8.ofNat (7 + pos)⟩

/-- A put of cell 2 with the byte 9 at server 0. -/
def upperBytes : ObjData :=
  ⟨(plainDesc 0 (BBox.line 2 2)).ownedBy 0, lineConf.defaultGdim, fun _ => 9⟩

/-- Both puts, and their updates, which arrive in the order of the puts. -/
def crossedPuts : List GroupEvent :=
  [.put 1 (plainDesc 0 (BBox.line 0 1)) lowerBytes.gdim lowerBytes.data,
    .put 0 (plainDesc 0 (BBox.line 2 2)) upperBytes.gdim upperBytes.data, .deliver 0, .deliver 0]

theorem mem_line {a b : UInt64} {x : Cell} :
    x ∈ (BBox.line a b).cells ↔ (a.toNat ≤ x 0 ∧ x 0 ≤ b.toNat) ∧ ∀ i : Fin BBOX_MAX_NDIM, i ≠ 0 → x i = 0 := by
  rw [BBox.mem_cells]
  constructor
  · rintro ⟨hin, hout⟩
    exact ⟨hin 0 Nat.one_pos, fun i hi => hout i (Nat.one_le_iff_ne_zero.2 fun h => hi (Fin.ext h))⟩
  · rintro ⟨hin, hout⟩
    refine ⟨fun i hi => ?_, fun i hi => hout i ?_⟩
    · obtain rfl : i = 0 := Fin.ext (Nat.lt_one_iff.1 hi)
      exact hin
    · rintro rfl
      exact absurd hi Nat.one_pos.not_ge

theorem varRun_crossedPuts : VarRun lineConf lineSpaceV2 lineConf.defaultGdim [97] 0 1 crossedPuts := by
  have hboth : ∀ {P : ObjData → Prop}, P lowerBytes → P upperBytes → ∀ od ∈ putsOf [97] 0 crossedPuts, P od :=
    fun hlower hupper => List.forall_mem_cons.2 ⟨hlower, List.forall_mem_singleton.2 hupper⟩
  have hdisjoint : Disjoint (BBox.line 0 1).cells (BBox.line 2 2).cells :=
    disjoint_of_bboxDoesIntersect ⟨le_refl 1, show 1 ≤ BBOX_MAX_NDIM by decide⟩ rfl (by decide)
  refine ⟨?_, ?_, ⟨hboth ?_ ?_, List.pairwise_pair.2 hdisjoint⟩, hboth ?_ ?_, hboth rfl rfl, hboth ?_ ?_,
    hboth rfl rfl⟩
  · intro ev hev
    simp only [crossedPuts, List.mem_cons, List.not_mem_nil, or_false] at hev
    rcases hev with rfl | rfl | rfl | rfl
    exacts [⟨rfl, fun _ _ => rfl⟩, ⟨rfl, fun _ _ => rfl⟩, trivial, trivial]
  · intro ev hev
    simp only [crossedPuts, List.mem_cons, List.not_mem_nil, or_false] at hev
    rcases hev with rfl | rfl | rfl | rfl
    exacts [fun _ _ => rfl, fun _ _ => rfl, trivial, trivial]
  · exact line_inDomain rfl rfl (by decide) (by decide)
  · exact line_inDomain rfl rfl (by decide) (by decide)
  · exact (by decide : 1 ≤ 9)
  · exact (by decide : 1 ≤ 9)
  · exact (congrArg (· * (1 : UInt64).toNat) (card_line 0 1)).trans_lt (by decide)
  · exact (congrArg (· * (1 : UInt64).toNat) (card_line 2 2)).trans_lt (by decide)

/-- A cell of a line. -/
def lineCell (i : ℕ) : Cell := fun j => if j.val = 0 then i else 0

theorem lineCell_mem {a b : UInt64} {i : ℕ} (h : a.toNat ≤ i ∧ i ≤ b.toNat) :
    lineCell i ∈ (BBox.line a b).cells :=
  mem_line.2 ⟨h, fun _ hj => if_neg fun hval => hj (Fin.ext hval)⟩

theorem crossedPuts_cover : (BBox.line 1 2).cells ⊆
    Cover.union (fun od : ObjData => od.objDesc.bb.cells) (putsOf [97] 0 crossedPuts) := by
  intro x hx
  rcases mem_line.1 hx with ⟨⟨hlo, hhi⟩, hrest⟩
  rcases Nat.lt_or_ge (x 0) 2 with hlt | hge
  · exact Cover.mem_union.2 ⟨lowerBytes, List.mem_cons_self,
      mem_line.2 ⟨⟨Nat.zero_le _, Nat.lt_succ_iff.1 hlt⟩, hrest⟩⟩
  · exact Cover.mem_union.2 ⟨upperBytes, List.mem_cons_of_mem _ List.mem_cons_self,
      mem_line.2 ⟨⟨hge, hhi⟩, hrest⟩⟩

/-- The query of the cells 1 and 2 gets the second byte of the one put and the byte of the other. -/
theorem put_get_round_trip_crossedPuts :
    ∃ g odscs g' out,
      (Group.init lineConf fun _ => lineSpaceV2).run lineC2i zeroed lineConf crossedPuts = some g ∧
      getQueryOdscs lineC2i zeroed lineConf g 1 (plainDesc 0 (BBox.line 1 2)) lineConf.defaultGdim (-1) =
        some (odscs, g') ∧
      getData lineConf g' (fun _ => none) (fun _ _ => 0) (plainDesc 0 (BBox.line 1 2)) odscs (fun _ => 0) =
        some out ∧ out 0 = 8 ∧ out 1 = 9 := by
  have hnet : ((Group.init lineConf fun _ => lineSpaceV2).run lineC2i zeroed lineConf crossedPuts).map (fun g =>
      g.net.length) = some 0 := by
    decide +kernel
  rcases Option.map_eq_some_iff.1 hnet with ⟨g, hg, hlen⟩
  have hlower : lowerBytes ∈ putsOf [97] 0 crossedPuts := List.mem_cons_self
  have hupper : upperBytes ∈ putsOf [97] 0 crossedPuts := List.mem_cons_of_mem _ List.mem_cons_self
  rcases put_get_round_trip (spaceBuilt_lineConf.spacesFor zeroed) spaceBuilt_lineConf rfl (by decide) rfl
    varRun_crossedPuts hg (List.length_eq_zero_iff.1 hlen)
    (show (plainDesc 0 (BBox.line 1 2)).name = [97] from rfl) rfl rfl
    ⟨BBox.line_valid (by decide), rfl, fun hv => nomatch hv⟩ crossedPuts_cover
    ((congrArg (· * (1 : UInt64).toNat) (card_line 1 2)).trans_lt (by decide)) 1 (-1) (fun _ => none)
    (fun _ _ => 0) (fun _ => 0) with ⟨odscs, g', out, hget, hdata, hout⟩
  refine ⟨g, odscs, g', out, hg, hget, hdata, ?_, ?_⟩
  · have hcell : lineCell 1 ∈ (BBox.line 0 1).cells ∩ (BBox.line 1 2).cells :=
      Finset.mem_inter.2 ⟨lineCell_mem (by decide), lineCell_mem (by decide)⟩
    exact hout _ hlower (lineCell 1) hcell 0 (by decide)
  · have hcell : lineCell 2 ∈ (BBox.line 2 2).cells ∩ (BBox.line 1 2).cells :=
      Finset.mem_inter.2 ⟨lineCell_mem (by decide), lineCell_mem (by decide)⟩
    exact hout _ hupper (lineCell 2) hcell 0 (by decide)

end RoundTrip

end DataSpaces
