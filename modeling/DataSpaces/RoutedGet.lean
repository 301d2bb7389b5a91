import DataSpaces.RoutedAnswer

/-!
# RoutedGet — the array that the client gets

The descriptor that the merge left names a server that has the array, and the client gets it from there, in the
box that the array has, which may be smaller than the box that the client asked for.
-/

namespace DataSpaces

theorem bboxEquals_intersect_self {bb : BBox} (hdims : bb.numDims ≤ BBOX_MAX_NDIM) :
    bboxEquals (bboxIntersect bb bb) bb = true := by
  refine bboxEquals_iff.2 ⟨rfl, fun i hi => ?_⟩
  have hi' : i < bb.numDims := hi
  have hlt : i < BBOX_MAX_NDIM := lt_of_lt_of_le hi' hdims
  simp only [bboxIntersect, Coord.c_ofFn _ hlt, hi', if_true, ite_self, and_self]

section Congr

variable {b0 b1 : BBox} {sz : ℕ} (heq : bboxEquals b0 b1 = true)

include heq

theorem HoldsBytes.congr {byte : Cell → ℕ → UInt8} {data : Buf} (hdims : b0.numDims ≤ BBOX_MAX_NDIM)
    (h : HoldsBytes b0 sz byte data) : HoldsBytes b1 sz byte data := by
  intro x hx c hc
  rw [← offset_congr heq hdims]
  exact h x (cells_eq_of_bboxEquals heq ▸ hx) c hc

theorem BBox.Holds.congr (h : b0.Holds sz) : b1.Holds sz := by
  obtain ⟨hd, hcorners⟩ := bboxEquals_iff.1 heq
  have hdims := h.valid.dims
  rw [BBox.DimsOk, hd] at hdims
  refine ⟨⟨hdims, fun i hi => ?_⟩, hd ▸ h.nine, cells_eq_of_bboxEquals heq ▸ h.bytes, fun i hi => ?_⟩
  all_goals rw [← hd] at hi; rw [← (hcorners i hi).2]
  · rw [← (hcorners i hi).1]
    exact h.valid.le i hi
  · exact h.bounded i hi

end Congr

/-- What `dspaces_aget` gives back when the module made the array. -/
structure Made.Got (m : Made) (qOdsc : ObjDesc) (out : AgetResult) : Prop where
  corners : ∀ i < qOdsc.bb.numDims, out.lb i = (m.box qOdsc.bb).lb.c i ∧ out.ub i = (m.box qOdsc.bb).ub.c i
  bytes : out.bytes = (m.box qOdsc.bb).cells.card * (sizeOfInt m.elemSize).toNat
  data : HoldsBytes (m.box qOdsc.bb) (sizeOfInt m.elemSize).toNat m.byte out.data
  tag : out.tag = m.tag

section Client

variable {hilbertC2i : HilbertC2i} {uninit : Nat → Unwritten} {conf : Conf} {ssd : SSpace} {gdim : GlobalDimension}
  {m : Made} {qOdsc c : ObjDesc} {maxVersions : Nat} {g : Group} {p : Plane}

/-- A look at the descriptor leaves the client with the corners of the array. -/
theorem Made.Told.cropped (h : m.Told qOdsc maxVersions p c) (hdims : qOdsc.bb.numDims ≤ BBOX_MAX_NDIM) :
    bboxEquals (croppedBox qOdsc.bb [c]) (m.box qOdsc.bb) = true ∧
      ∀ i < qOdsc.bb.numDims,
        (croppedArrays (qOdsc.bb.lb.c, qOdsc.bb.ub.c) [c]).1 i = (m.box qOdsc.bb).lb.c i ∧
        (croppedArrays (qOdsc.bb.lb.c, qOdsc.bb.ub.c) [c]).2 i = (m.box qOdsc.bb).ub.c i := by
  obtain ⟨d, st, owner, hpiece, -, -, rfl⟩ := h
  have hself := @bboxEquals_intersect_self (m.box qOdsc.bb) hdims
  have hcorners := (bboxEquals_iff.1 hself).2
  simp only [croppedBox, croppedArrays, List.foldl_cons, List.foldl_nil, hpiece.bb]
  rcases hpiece.cropped with hresized | hsame
  · rw [if_pos hresized, if_pos hresized]
    refine ⟨hself, fun i hi => ?_⟩
    have hi' : i < (bboxIntersect (m.box qOdsc.bb) (m.box qOdsc.bb)).numDims := hi
    simp only [hi', if_true]
    exact hcorners i hi'
  · -- without the flag the array is the whole box
    rw [hsame] at hself hcorners ⊢
    split
    · refine ⟨hself, fun i hi => ?_⟩
      have hi' : i < (bboxIntersect qOdsc.bb qOdsc.bb).numDims := hi
      simp only [hi', if_true]
      exact hcorners i hi'
    · exact ⟨bboxEquals_refl _, fun _ _ => ⟨rfl, rfl⟩⟩

/-- The server that the descriptor names finds its object. -/
theorem Made.Told.lsFind (h : m.Told qOdsc maxVersions p c) (hhosted : Hosted m qOdsc maxVersions p)
    (hbox : (m.box qOdsc.bb).Valid) :
    ∃ owner od, c.owner = .server owner ∧ (p.ls owner).lsFind c = some od ∧ m.Object qOdsc od := by
  obtain ⟨d, st, owner, hpiece, howner, hobjects, rfl⟩ := h
  obtain ⟨x, hx⟩ := hbox.cells_nonempty
  -- every object of the variable is the whole array, which the descriptor meets
  have hmeets : ∀ od ∈ p.objects qOdsc maxVersions owner, objDescEqualsIntersect
      { d with st := st, bb := bboxIntersect d.bb d.bb } od.objDesc = true := by
    intro od hod
    have hobject := (hhosted.stored owner od hod).piece
    refine objDescEqualsIntersect_iff.2 ⟨hpiece.name.trans hobject.name.symm,
      hpiece.version.trans hobject.version.symm, ?_⟩
    rw [hobject.bb, hpiece.bb]
    refine bboxDoesIntersect_of_mem rfl hbox.dims ?_ hx
    rw [bboxIntersect_cells rfl, Finset.inter_self]
    exact hx
  have hindex : (p.ls owner).index { d with st := st, bb := bboxIntersect d.bb d.bb } =
      qOdsc.bin maxVersions := by
    rw [SsStorage.index, hhosted.sizes.ls]
    exact congrArg (fun v : UInt32 => v.toNat % maxVersions) hpiece.version
  obtain ⟨od, hod⟩ := List.exists_mem_of_ne_nil _ hobjects
  cases hfind : (p.ls owner).lsFind { d with st := st, bb := bboxIntersect d.bb d.bb } with
  | none =>
      rw [SsStorage.lsFind, hindex] at hfind
      exact absurd (hmeets od hod) (List.find?_eq_none.1 hfind od (SsStorage.mem_named.1 hod).1)
  | some found =>
      refine ⟨owner, found, howner, hfind, hhosted.stored owner found (SsStorage.mem_named.2 ?_)⟩
      rw [SsStorage.lsFind, hindex] at hfind
      have hmatch : objDescEqualsIntersect { d with st := st, bb := bboxIntersect d.bb d.bb }
          found.objDesc = true := by
        simpa only using List.find?_some hfind
      refine ⟨List.mem_of_find?_eq_some hfind, ?_⟩
      exact (objDescEqualsIntersect_iff.1 hmatch).1.symm.trans hpiece.name

/-- What the descriptor says of the array. -/
theorem Made.Told.desc (h : m.Told qOdsc maxVersions p c) (hdims : qOdsc.bb.numDims ≤ BBOX_MAX_NDIM) :
    c.size = sizeOfInt m.elemSize ∧ c.tag = m.tag ∧ c.flags &&& DS_CLIENT_STORAGE = 0 ∧
      bboxEquals c.bb (m.box qOdsc.bb) = true := by
  obtain ⟨d, st, -, hpiece, -, -, rfl⟩ := h
  refine ⟨hpiece.size, hpiece.tag, hpiece.stored, ?_⟩
  rw [hpiece.bb]
  exact bboxEquals_intersect_self hdims

section Transfer

variable (h : m.Told qOdsc conf.maxVersions p c) (hhosted : Hosted m qOdsc conf.maxVersions p)
  (hls : ∀ r, (g.server r).ls = p.ls r) (hremotes : conf.remotes = none)
  (hholds : (m.box qOdsc.bb).Holds (sizeOfInt m.elemSize).toNat)
  (hsmall : (m.box qOdsc.bb).cells.card * (sizeOfInt m.elemSize).toNat < 2 ^ 31) {reqObj : ObjDesc}
  (hreqSize : reqObj.size = c.size)

include h hhosted hls hremotes hholds hsmall hreqSize

/-- The array is transferred. -/
theorem Made.Told.fetchObj (getLocal : ObjDesc → Option Buf) (malloced : Nat → Buf) (i : Nat) :
    ∃ od, DataSpaces.fetchObj conf g getLocal malloced reqObj i c = some od ∧ od.objDesc = c ∧
      HoldsBytes c.bb reqObj.size.toNat m.byte od.data := by
  obtain ⟨owner, src, howner, hfind, hobject⟩ := h.lsFind hhosted hholds.valid
  obtain ⟨hsize, -, hstored, hboxes⟩ := h.desc hholds.valid.dims.2
  have hsrc : bboxEquals c.bb src.objDesc.bb = true := by
    rw [hobject.piece.bb]
    exact hboxes
  have hfind' : (g.server owner).ls.lsFind c = some src := by
    rw [hls]
    exact hfind
  have hc : c.bb.Holds c.size.toNat := by
    rw [hsize]
    exact hholds.congr (bboxEquals_symm hboxes)
  have hbytes := hobject.data
  rw [← hobject.piece.bb, ← hsize] at hbytes
  rw [hreqSize]
  have hsmall' : c.bb.cells.card * c.size.toNat < 2 ^ 31 := by
    rw [hsize, cells_eq_of_bboxEquals hboxes]
    exact hsmall
  exact fetchObj_spec hremotes hsmall' hstored howner hfind' hreqSize.symm hc (hc.congr hsrc)
    (bboxEquals_iff.1 hsrc).1 (cells_eq_of_bboxEquals hsrc).subset hbytes i

/-- It is copied into the buffer of a request for its box. -/
theorem Made.Told.getData (hreqBox : bboxEquals reqObj.bb (m.box qOdsc.bb) = true)
    (getLocal : ObjDesc → Option Buf) (malloced : Nat → Buf) (fresh : Buf) :
    ∃ data, DataSpaces.getData conf g getLocal malloced reqObj [c] fresh = some data ∧
      HoldsBytes (m.box qOdsc.bb) (sizeOfInt m.elemSize).toNat m.byte data := by
  obtain ⟨hsize, -, -, hboxes⟩ := h.desc hholds.valid.dims.2
  have hsame := bboxEquals_trans hboxes (bboxEquals_symm hreqBox)
  have hcells := cells_eq_of_bboxEquals hsame
  have hreq : reqObj.bb.Holds reqObj.size.toNat := by
    rw [hreqSize, hsize]
    exact hholds.congr (bboxEquals_symm hreqBox)
  have hfetch := h.fetchObj hhosted hls hremotes hholds hsmall hreqSize getLocal malloced
  obtain ⟨out, hloop, hright⟩ := getDataLoop_spec hreq [c] 0 (objDataAllocNoData reqObj fresh) [] rfl rfl
    (fun o ho => by
      rw [List.mem_singleton.1 ho]
      exact ⟨hreq.congr (bboxEquals_symm hsame), (bboxEquals_iff.1 hsame).1, hcells.subset, hfetch⟩)
    (fun _ _ hx => absurd hx (Finset.notMem_empty _))
  -- the one descriptor covers the request
  have hfilled : HoldsBytes reqObj.bb reqObj.size.toNat m.byte out.data := fun x hx =>
    hright x hx (Cover.mem_union.2 ⟨c.bb, List.mem_singleton_self _, hcells ▸ hx⟩)
  refine ⟨out.data, by rw [DataSpaces.getData, hloop, Option.map_some], ?_⟩
  rw [← hsize, ← hreqSize]
  exact hfilled.congr hreqBox hreq.valid.dims.2

end Transfer

/-- The client gets the array. -/
theorem Made.Told.aget (h : m.Told qOdsc conf.maxVersions p c) (hhosted : Hosted m qOdsc conf.maxVersions p)
    (hls : ∀ r, (g.server r).ls = p.ls r) (hremotes : conf.remotes = none)
    (hholds : (m.box qOdsc.bb).Holds (sizeOfInt m.elemSize).toNat)
    (hpos : 1 ≤ (sizeOfInt m.elemSize).toNat)
    (hsmall : (m.box qOdsc.bb).cells.card * (sizeOfInt m.elemSize).toNat < 2 ^ 31)
    (getLocal : ObjDesc → Option Buf) (malloced : Nat → Buf) (fresh : Buf) :
    ∃ out, dspacesAget conf g getLocal malloced fresh qOdsc [c] = some out ∧ m.Got qOdsc out := by
  obtain ⟨hcroppedBox, hcroppedArrays⟩ := h.cropped hholds.valid.dims.2
  obtain ⟨hsize, htag, -, -⟩ := h.desc hholds.valid.dims.2
  rw [← hsize] at hpos
  have hbytes : dspacesAgetBytes qOdsc.bb.numDims qOdsc.bb.lb.c qOdsc.bb.ub.c [c] =
      some ((m.box qOdsc.bb).cells.card * c.size.toNat) :=
    @agetBytes_eq { qOdsc with bb := m.box qOdsc.bb, size := c.size } hholds.valid hpos (hsize ▸ hsmall)
      qOdsc.bb.lb.c qOdsc.bb.ub.c [c] rfl hcroppedArrays
  -- the size of an element goes through an `int` on its way into the request
  have hreqSize : sizeOfInt (intOfSize c.size) = c.size := by
    rw [hsize, intOfSize_sizeOfInt]
  obtain ⟨data, hget, hholdsData⟩ := @Made.Told.getData _ _ _ _ _ _ h hhosted hls hremotes hholds hsmall
    { qOdsc with bb := croppedBox qOdsc.bb [c], size := sizeOfInt (intOfSize c.size) } hreqSize hcroppedBox
    getLocal malloced fresh
  refine ⟨⟨_, _, (m.box qOdsc.bb).cells.card * c.size.toNat, data, c.tag⟩, ?_, hcroppedArrays, ?_, hholdsData,
    htag⟩
  · simp only [dspacesAget, List.head?_cons, Option.bind_eq_bind, Option.bind_some, hbytes, hget]
    rfl
  · rw [hsize]

end Client

/-! ## The whole run -/

/-- A query of the array: it lies in the space, nine dimensions at most, and the array has less than 2 GiB. -/
structure Made.Query (m : Made) (ssd : SSpace) (qOdsc : ObjDesc) : Prop where
  inDomain : ssd.InDomain qOdsc.bb
  fits : m.FitsIn qOdsc.bb
  nine : qOdsc.bb.numDims ≤ 9
  version : qOdsc.version ≠ 0xffffffff
  flags : qOdsc.flags = 0
  small : (m.box qOdsc.bb).cells.card * (sizeOfInt m.elemSize).toNat < 2 ^ 31

section Run

variable {hilbertC2i : HilbertC2i} {uninit : Nat → Unwritten} {conf : Conf} {mods : List DsModule} {space : Intv}
  {ssd : SSpace} {spaces₀ : Nat → SSpace}
  {gdim : GlobalDimension} {m : Made} {qOdsc : ObjDesc} {timeout : Int} {evs : List ModEvent} {s : ModQuery}
  (hinit : conf.SpacesFor hilbertC2i uninit conf.defaultGdim spaces₀)
  (hss : SpaceBuilt hilbertC2i space (conf.domainFor gdim) conf.sizeSp conf.maxVersions conf.hashVersion ssd)
  (hv2 : ssd.hashVersion = .v2) (hversions : 0 < conf.maxVersions) (hremotes : conf.remotes = none)
  (hquery : m.Query ssd qOdsc) (hevs : ∀ ev ∈ evs, ev.Ok m mods conf gdim qOdsc)
  (hrun : (ModQuery.init conf spaces₀).run hilbertC2i uninit conf mods qOdsc gdim timeout evs = some s)

include hinit hss hv2 hversions hremotes hquery hevs hrun

theorem Made.Query.tracked : ∃ p, Tracked hilbertC2i uninit conf ssd gdim m qOdsc s p :=
  Tracked.run hquery.version hquery.fits hquery.flags hss.partitioned.nodup_ssdHashV2Loop
    (hss.spacesFor uninit) hv2 hinit hversions hremotes hss.partitioned hquery.inDomain hevs hrun

/-- Nor does any server wait for another one: from the moment at which it has called the module, whatever else
happens, it can answer, also a query that waits until all is there. -/
theorem answer_of_module {r : Nat} (hrouted : (s.routed r).isSome) (hnone : s.answers r = none) :
    ∃ s', s.step hilbertC2i uninit conf mods qOdsc gdim timeout (.answer r) = some s' := by
  obtain ⟨p, h⟩ := hquery.tracked hinit hss hv2 hversions hremotes hevs hrun
  obtain ⟨odsc, hr⟩ := Option.isSome_iff_exists.1 hrouted
  exact h.answer (ModQuery.Prepared.run hrun) hquery.fits (hss.spacesFor uninit) hv2 hss.partitioned
    hquery.inDomain hr hnone

/-- However often the variable is asked for, a server keeps one object of it at most and one descriptor, and the
descriptor names a server that has the object. -/
theorem one_object_of_module (r : Nat) :
    ((s.group.server r).ls.named (qOdsc.bin conf.maxVersions) qOdsc.name).length ≤ 1 ∧
      (((s.group.server r).tableOf conf gdim).named (qOdsc.bin conf.maxVersions) qOdsc.name).length ≤ 1 ∧
      ∀ odsc ∈ ((s.group.server r).tableOf conf gdim).named (qOdsc.bin conf.maxVersions) qOdsc.name,
        ∃ owner, odsc.owner = .server owner ∧
          ((s.group.server owner).ls.named (qOdsc.bin conf.maxVersions) qOdsc.name).length = 1 := by
  obtain ⟨p, h⟩ := hquery.tracked hinit hss hv2 hversions hremotes hevs hrun
  rw [h.shows.ls, h.shows.tab]
  refine ⟨h.hosted.oneObject r, h.hosted.oneDesc r, fun odsc hodsc => ?_⟩
  obtain ⟨-, owner, howner, hobjects⟩ := h.hosted.placed r odsc (List.mem_append_left _ hodsc)
  refine ⟨owner, howner, ?_⟩
  rw [h.shows.ls]
  exact le_antisymm (h.hosted.oneObject owner) (List.length_pos_iff.2 hobjects)

end Run

/-! ### An array of two cells in the answer to a query of three -/

/-- A module with the namespace `a`. -/
def lineMods : List DsModule := [⟨[109], some [97]⟩]

/-- The cells 0 and 1 with the bytes 7 and 8. -/
def lineMade : Made := ⟨fun _ => 2, 1, 3, fun x _ => UInt8.ofNat (7 + x 0)⟩

def lineExec : ModExec :=
  fun _ _ => some (.array ⟨2, fun _ => 2, 1, 3, 1, fun pos => UInt8.ofNat (7 + pos)⟩)

/-- Both servers call the module, and what the second one made is announced to the first. -/
def lineEvents : List ModEvent :=
  [.ask 1, .route lineExec 1, .route lineExec 0, .group (.deliver 0)]

theorem query_lineMade : lineMade.Query lineSpaceV2 domainQuery := by
  have hcard : domainQuery.bb.cells.card = 3 := card_line 0 2
  have hfits : lineMade.FitsIn domainQuery.bb := by
    refine ⟨BBox.line_valid (by decide), fun i hi => ?_, by decide, by rw [hcard]; decide⟩
    obtain rfl : i = 0 := Nat.lt_one_iff.1 hi
    decide
  refine ⟨line_inDomain rfl rfl (by decide) (by decide), hfits, by decide, by decide, rfl, ?_⟩
  have hle := Finset.card_le_card hfits.box_subset
  rw [hcard] at hle
  exact (Nat.mul_le_mul_right _ hle).trans_lt (by decide)

theorem gives_lineExec : ∃ res, GivesArray lineMods lineExec domainQuery res ∧
    lineMade.Gives domainQuery.bb res := by
  refine ⟨_, ⟨⟨_, rfl, rfl⟩, Or.inr (by decide)⟩, rfl, fun _ _ => rfl, by decide, rfl, rfl, fun x hx c hc => ?_⟩
  -- one byte for each cell, in the order of the coordinate
  obtain rfl : c = 0 := Nat.lt_one_iff.1 hc
  have hoffset : (lineMade.box domainQuery.bb).offset x = x 0 := by
    have hbase : ((lineMade.box domainQuery.bb).lb.c 0).toNat = 0 := by decide
    simp only [BBox.offset, Radix.value, show (lineMade.box domainQuery.bb).numDims = 1 from rfl,
      Finset.sum_range_one, Radix.weight, BBox.rel_eq _ _ (show 0 < BBOX_MAX_NDIM by decide), hbase]
    simp
  rw [hoffset]
  have hsize : (sizeOfInt lineMade.elemSize).toNat = 1 := by decide
  rw [hsize, Nat.mul_one, Nat.add_zero]
  rfl

theorem ok_lineEvents {rest : List ModEvent} (hrest : ∀ ev ∈ rest, ∃ r, ev = .answer r) :
    ∀ ev ∈ lineEvents ++ rest, ev.Ok lineMade lineMods lineConf lineConf.defaultGdim domainQuery := by
  intro ev hev
  rcases List.mem_append.1 hev with hfirst | hlast
  · simp only [lineEvents, List.mem_cons, List.not_mem_nil, or_false] at hfirst
    rcases hfirst with rfl | rfl | rfl | rfl
    · exact trivial
    · exact gives_lineExec
    · exact gives_lineExec
    · exact ⟨trivial, trivial⟩
  · obtain ⟨r, rfl⟩ := hrest ev hlast
    exact trivial

/-- The server that has called the module and owns none of the cells answers. -/
theorem answer_of_module_line :
    ∃ s s', (ModQuery.init lineConf fun _ => lineSpaceV2).run lineC2i zeroed lineConf lineMods domainQuery
        lineConf.defaultGdim (-1) (lineEvents ++ []) = some s ∧
      s.step lineC2i zeroed lineConf lineMods domainQuery lineConf.defaultGdim (-1) (.answer 1) = some s' := by
  have hdone : ((ModQuery.init lineConf fun _ => lineSpaceV2).run lineC2i zeroed lineConf lineMods domainQuery
      lineConf.defaultGdim (-1) (lineEvents ++ [])).map (fun s =>
        ((s.routed 1).isSome, (s.answers 1).isNone)) = some (true, true) := by
    decide +kernel
  obtain ⟨s, hrun, hs⟩ := Option.map_eq_some_iff.1 hdone
  obtain ⟨hrouted, hnone⟩ := Prod.mk.inj hs
  obtain ⟨s', hs'⟩ := answer_of_module (spaceBuilt_lineConf.spacesFor zeroed) spaceBuilt_lineConf rfl (by decide) rfl
    query_lineMade (ok_lineEvents (by simp)) hrun hrouted (Option.isNone_iff_eq_none.1 hnone)
  exact ⟨s, s', hrun, hs'⟩

/-- The first server was told about both objects and has one of them. -/
theorem one_object_of_module_line :
    ∃ s, (ModQuery.init lineConf fun _ => lineSpaceV2).run lineC2i zeroed lineConf lineMods domainQuery
        lineConf.defaultGdim (-1) (lineEvents ++ []) = some s ∧
      ((s.group.server 0).ls.named (domainQuery.bin lineConf.maxVersions) domainQuery.name).length ≤ 1 := by
  have hdone : ((ModQuery.init lineConf fun _ => lineSpaceV2).run lineC2i zeroed lineConf lineMods domainQuery
      lineConf.defaultGdim (-1) (lineEvents ++ [])).isSome := by
    decide +kernel
  obtain ⟨s, hrun⟩ := Option.isSome_iff_exists.1 hdone
  exact ⟨s, hrun, (one_object_of_module (spaceBuilt_lineConf.spacesFor zeroed) spaceBuilt_lineConf rfl (by decide) rfl
    query_lineMade (ok_lineEvents (by simp)) hrun 0).1⟩

end DataSpaces
