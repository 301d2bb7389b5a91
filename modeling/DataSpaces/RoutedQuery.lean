import DataSpaces.Hosted

/-!
# RoutedQuery — the servers that are asked for an array

However the steps of the servers come after one another, each server that is asked has one descriptor of the array
when it looks into its table, if it owns a cell of it.  The answers are all alike, and the merge leaves one of
them.
-/

namespace DataSpaces

/-! ## The box of the array -/

theorem Coord.ext_c {x y : Coord} (h : ∀ i < BBOX_MAX_NDIM, x.c i = y.c i) : x = y := by
  refine congrArg Coord.mk (funext fun i => ?_)
  simpa only [Coord.c, dif_pos i.isLt] using h i i.isLt

namespace Made

/-- The array is not larger than the box that was asked for, and not empty. -/
structure FitsIn (m : Made) (bb : BBox) : Prop where
  valid : bb.Valid
  sides : ∀ i < bb.numDims, 1 ≤ (m.dims i).toNat ∧ (m.dims i).toNat ≤ bb.side i
  elemSize : 0 < m.elemSize
  bytes : bb.cells.card * (sizeOfInt m.elemSize).toNat < 2 ^ 64

/-- A call that gives the array. -/
structure Gives (m : Made) (bb : BBox) (res : ModArray) : Prop where
  ndim : res.ndim = bb.numDims
  dim : ∀ i < bb.numDims, res.dim i = m.dims i
  len : sizeOfInt res.len = bboxVolume (m.box bb)
  elemSize : res.elemSize = m.elemSize
  tag : res.tag = m.tag
  data : HoldsBytes (m.box bb) (sizeOfInt m.elemSize).toNat m.byte res.data

section Box

variable {m : Made} {bb : BBox} (h : m.FitsIn bb)

include h

theorem FitsIn.toNat_ub {i : Nat} (hi : i < bb.numDims) :
    ((m.box bb).ub.c i).toNat = (bb.lb.c i).toNat + ((m.dims i).toNat - 1) := by
  have hlt : i < BBOX_MAX_NDIM := lt_of_lt_of_le hi h.valid.dims.2
  have hside := h.sides i hi
  have hle := UInt64.le_iff_toNat_le.1 (h.valid.le i hi)
  have hub := (bb.ub.c i).toNat_lt
  have hone : (m.dims i - 1).toNat = (m.dims i).toNat - 1 :=
    UInt64.toNat_sub_of_le _ _ (UInt64.le_iff_toNat_le.2 hside.1)
  rw [BBox.side] at hside
  rw [box, Coord.c_ofFn _ hlt, if_pos hi, UInt64.toNat_add, hone, Nat.mod_eq_of_lt (by omega)]

theorem FitsIn.box_valid : (m.box bb).Valid := by
  refine ⟨h.valid.dims, fun i hi => UInt64.le_iff_toNat_le.2 ?_⟩
  rw [h.toNat_ub hi]
  exact Nat.le_add_right _ _

theorem FitsIn.box_subset : (m.box bb).cells ⊆ bb.cells := by
  have hdims : bb.numDims = (m.box bb).numDims := rfl
  refine (bboxInclude_iff h.box_valid hdims).1 (bboxInclude_iff_ondim.2 fun i hi => ?_)
  have hside := h.sides i hi
  have hle := UInt64.le_iff_toNat_le.1 (h.valid.le i hi)
  rw [BBox.side] at hside
  rw [h.toNat_ub hi]
  exact ⟨le_rfl, by omega⟩

/-- An array with as many cells as the box has the box. -/
theorem FitsIn.box_eq (hcard : (m.box bb).cells.card = bb.cells.card) : m.box bb = bb := by
  have hcells := Finset.eq_of_subset_of_card_le h.box_subset hcard.ge
  have hhigh := highCell_eq_of_mem h.box_valid h.box_subset (hcells ▸ h.valid.highCell_mem)
  have hub : (m.box bb).ub = bb.ub := by
    refine Coord.ext_c fun i hlt => ?_
    by_cases hi : i < bb.numDims
    · have hcoord := congrFun hhigh ⟨i, hlt⟩
      simp only [BBox.highCell, BBox.rect, show (m.box bb).numDims = bb.numDims from rfl, if_pos hi] at hcoord
      exact UInt64.toNat_inj.1 hcoord
    · rw [box, Coord.c_ofFn _ hlt, if_neg hi]
  calc m.box bb = { bb with ub := (m.box bb).ub } := rfl
    _ = bb := by rw [hub]

theorem FitsIn.inDomain {ssd : SSpace} (hbb : ssd.InDomain bb) : ssd.InDomain (m.box bb) where
  valid := h.box_valid
  dims := hbb.dims
  subset := h.box_subset.trans hbb.subset
  ring hv part hpart hdims hsub := hbb.ring hv part hpart hdims (hsub.trans h.box_subset)

end Box

end Made

/-! ## The descriptor of the array -/

/-- A request for the variable in the box, as `dspaces_aget` and `dspaces_get_req` send it. -/
structure ObjDesc.Asks (odsc qOdsc : ObjDesc) : Prop where
  name : odsc.name = qOdsc.name
  version : odsc.version = qOdsc.version
  bb : odsc.bb = qOdsc.bb
  flags : odsc.flags = 0

section Fit

variable {m : Made} {qOdsc odsc : ObjDesc} {res : ModArray}

/-- The box of a descriptor that was fitted is the box of the array, and the descriptor says so if it is not the
box that was asked for. -/
theorem fitToArray_spec (hfits : m.FitsIn qOdsc.bb) (hodsc : odsc.Asks qOdsc) (hgives : m.Gives qOdsc.bb res) :
    ∃ flags, fitToArray odsc res =
        { odsc with bb := m.box qOdsc.bb, flags := flags, size := sizeOfInt m.elemSize } ∧
      flags &&& DS_CLIENT_STORAGE = 0 ∧ (flags &&& DS_OBJ_RESIZE ≠ 0 ∨ m.box qOdsc.bb = qOdsc.bb) := by
  obtain ⟨-, -, hbb, hflags⟩ := hodsc
  rw [← hbb] at hfits hgives ⊢
  have hresized : objDataResize { odsc with size := sizeOfInt res.elemSize } res.dim =
      { odsc with bb := m.box odsc.bb, flags := DS_OBJ_RESIZE, size := sizeOfInt m.elemSize } := by
    have hub : (fun i => if i < odsc.bb.numDims then odsc.bb.lb.c i + (res.dim i - 1) else odsc.bb.ub.c i) =
        fun i => if i < odsc.bb.numDims then odsc.bb.lb.c i + (m.dims i - 1) else odsc.bb.ub.c i := by
      funext i
      split
      · next hi => rw [hgives.dim i hi]
      · rfl
    rw [objDataResize, hgives.elemSize, hub, hflags]
    rfl
  rw [fitToArray, hgives.ndim]
  simp only [ne_eq, not_true_eq_false, if_false]
  split
  · exact ⟨DS_OBJ_RESIZE, hresized, by decide, Or.inl (by decide)⟩
  · next hlen =>
      -- as many bytes as the whole box: the array is the box
      have hboxBytes : (m.box odsc.bb).cells.card * (sizeOfInt m.elemSize).toNat < 2 ^ 64 :=
        (Nat.mul_le_mul_right _ (Finset.card_le_card hfits.box_subset)).trans_lt hfits.bytes
      have hsizes : (m.box odsc.bb).cells.card * (sizeOfInt m.elemSize).toNat =
          odsc.bb.cells.card * (sizeOfInt m.elemSize).toNat := by
        have hsame := congrArg UInt64.toNat (not_not.1 hlen)
        rw [hgives.len, hgives.elemSize] at hsame
        have hleft := @toNat_objDataSize { odsc with bb := m.box odsc.bb, size := sizeOfInt m.elemSize }
          hfits.box_valid hboxBytes
        have hright := @toNat_objDataSize { odsc with size := sizeOfInt m.elemSize } hfits.valid hfits.bytes
        exact hleft.symm.trans (hsame.trans hright)
      have hpos : 0 < (sizeOfInt m.elemSize).toNat := by
        rw [toNat_sizeOfInt (Int32.le_of_lt hfits.elemSize)]
        have := Int32.lt_iff_toInt_lt.1 hfits.elemSize
        rw [Int32.toInt_zero] at this
        omega
      have hbox := hfits.box_eq (Nat.eq_of_mul_eq_mul_right hpos hsizes)
      refine ⟨0, ?_, by decide, Or.inr hbox⟩
      rw [hbox, ← hflags, ← hgives.elemSize]

/-- What is stored is an object of the array. -/
theorem object_fitToArray (hfits : m.FitsIn qOdsc.bb) (hodsc : odsc.Asks qOdsc) (hgives : m.Gives qOdsc.bb res)
    (rank : Nat) (gdim : GlobalDimension) :
    m.Object qOdsc ⟨{ fitToArray odsc res with owner := .server rank, tag := res.tag }, gdim, res.data⟩ := by
  obtain ⟨flags, heq, hstored, hcropped⟩ := fitToArray_spec hfits hodsc hgives
  rw [heq]
  exact ⟨⟨hodsc.name, hodsc.version, rfl, rfl, hgives.tag, hstored, hcropped⟩, hgives.data⟩

end Fit

/-! ## A server up to its table -/

section Route

variable {hilbertC2i : HilbertC2i} {uninit : Nat → Unwritten} {conf : Conf} {mods : List DsModule} {ssd : SSpace}
  {gdim gdim' : GlobalDimension} {g g' : Group} {p : Plane} {exec : ModExec} {rank : Nat}
  {odsc odsc' : ObjDesc}

/-- A lookup changes nothing that is seen through the space. -/
theorem Shows.lookup (h : Shows hilbertC2i uninit conf ssd gdim g p) {sv : Server} {e : SpaceEntry}
    (hlook : Server.lookupSspace hilbertC2i (uninit rank) conf (g.server rank) gdim' = some (sv, e)) :
    Shows hilbertC2i uninit conf ssd gdim (g.setServer rank sv) p := by
  obtain ⟨hok, _, _, hspec⟩ := Server.lookupSspace_cases (h.ok rank) hlook
  have hset : g.setServer rank sv = ⟨(g.setServer rank sv).server, p.net⟩ := by
    rw [← h.net]
    rfl
  rw [hset]
  refine h.setServer hok ?_ (fun _ _ => rfl) ?_ (fun _ _ => rfl) ?_ (h.subs rank) h.gdims
  · rw [hspec.same.ls, h.ls]
  · rw [hspec.tables, h.tab]
  · rw [hspec.same.sfcHash]
    exact h.cache rank

/-- The module that the name belongs to gives an array with elements of the size that is asked for. -/
def GivesArray (mods : List DsModule) (exec : ModExec) (odsc : ObjDesc) (res : ModArray) : Prop :=
  (∃ mod, dspacesModByOd mods odsc = some mod ∧ exec mod (buildModuleArgsFromOdsc odsc) = some (.array res)) ∧
    (odsc.size = 0 ∨ odsc.size = sizeOfInt res.elemSize)

/-- `route_request` puts the array at the server itself, or does nothing at all. -/
theorem Server.routeRequest_cases {uninit : Unwritten} {sv sv' : Server} {msgs : List UpdateMsg}
    (h : Server.routeRequest hilbertC2i uninit conf mods exec sv odsc gdim = some (sv', msgs, odsc')) :
    (∃ res, GivesArray mods exec odsc res ∧
      Server.putRpc hilbertC2i uninit conf sv { fitToArray odsc res with tag := res.tag } gdim res.data =
        some (sv', msgs) ∧ ∃ tag, odsc' = { fitToArray odsc res with tag := tag }) ∨
    (∀ res, ¬ GivesArray mods exec odsc res) ∧ sv' = sv ∧ msgs = [] := by
  rw [Server.routeRequest] at h
  -- without an array of the right element size nothing is put
  by_cases harray : ∃ res, GivesArray mods exec odsc res
  · obtain ⟨res, hgives⟩ := harray
    obtain ⟨⟨mod, hmod, hexec⟩, hsize⟩ := hgives
    have hsame : ¬ (odsc.size ≠ 0 ∧ odsc.size ≠ sizeOfInt res.elemSize) := by
      rw [not_and_or, not_not, not_not]
      exact hsize
    simp only [hmod, Option.bind_some, hexec, if_neg hsame] at h
    obtain ⟨r, hupd, hr⟩ := Option.map_eq_some_iff.1 h
    simp only [Prod.mk.injEq] at hr
    obtain ⟨rfl, rfl, rfl⟩ := hr
    refine Or.inl ⟨res, ⟨⟨mod, hmod, hexec⟩, hsize⟩, hupd, ?_⟩
    split <;> exact ⟨_, rfl⟩
  · have hnone := not_exists.1 harray
    refine Or.inr ⟨hnone, ?_⟩
    split at h
    · next res hres =>
        obtain ⟨mod, hmod, hexec⟩ := Option.bind_eq_some_iff.1 hres
        split at h
        · simp only [Option.some.injEq, Prod.mk.injEq] at h
          exact ⟨h.1.symm, h.2.1.symm⟩
        · next hsame =>
            rw [not_and_or, not_not, not_not] at hsame
            exact absurd ⟨⟨mod, hmod, hexec⟩, hsame⟩ (hnone res)
    · simp only [Option.some.injEq, Prod.mk.injEq] at h
      exact ⟨h.1.symm, h.2.1.symm⟩

variable (hssd : conf.SpacesFor hilbertC2i uninit gdim fun _ => ssd) (hv2 : ssd.hashVersion = .v2)
  (hnodup : ∀ bb, (ssdHashV2Loop ssd bb).Nodup)

include hssd hv2 hnodup

/-- What is seen of a server that gets as far as its table. -/
theorem Shows.routeAt (h : Shows hilbertC2i uninit conf ssd gdim g p) (hgdim : gdim'.Same gdim)
    (hroute : g.routeAt hilbertC2i uninit conf mods exec rank odsc gdim' = some (g', odsc')) :
    (∃ res, GivesArray mods exec odsc res ∧
      Shows hilbertC2i uninit conf ssd gdim g'
        (p.put ssd rank { fitToArray odsc res with tag := res.tag } gdim' res.data) ∧
      ∃ tag, odsc' = { fitToArray odsc res with tag := tag }) ∨
    (∀ res, ¬ GivesArray mods exec odsc res) ∧ Shows hilbertC2i uninit conf ssd gdim g' p := by
  obtain ⟨⟨sv, e⟩, hlook, hroute⟩ := Option.bind_eq_some_iff.1 hroute
  obtain ⟨⟨sv', msgs, odsc₁⟩, hrequest, hroute⟩ := Option.bind_eq_some_iff.1 hroute
  simp only [Option.pure_def, Option.some.injEq, Prod.mk.injEq] at hroute
  obtain ⟨rfl, rfl⟩ := hroute
  have hlooked := h.lookup hlook
  rcases Server.routeRequest_cases hrequest with ⟨res, hgives, hput, htag⟩ | ⟨hnone, rfl, rfl⟩
  · refine Or.inl ⟨res, hgives, ?_, htag⟩
    have hserver : (g.setServer rank sv).server rank = sv := Function.update_self _ _ _
    have hstep : (g.setServer rank sv).step hilbertC2i uninit conf
        (.put rank { fitToArray odsc res with tag := res.tag } gdim' res.data) =
          some { g.setServer rank sv' with net := g.net ++ msgs } := by
      rw [Group.step, hserver]
      refine Option.map_eq_some_iff.2 ⟨_, hput, ?_⟩
      simp only [Group.setServer, Function.update_idem]
    exact hlooked.put hssd hv2 hnodup hgdim hstep
  · refine Or.inr ⟨hnone, ?_⟩
    rw [List.append_nil]
    exact hlooked

end Route

/-! ## The answer of a server -/

/-- What a client is told: a descriptor of the array that names a server which has the array. -/
def Made.Told (m : Made) (qOdsc : ObjDesc) (maxVersions : Nat) (p : Plane) (c : ObjDesc) : Prop :=
  ∃ d st owner, m.Piece qOdsc d ∧ d.owner = .server owner ∧ p.objects qOdsc maxVersions owner ≠ [] ∧
    c = { d with st := st, bb := bboxIntersect d.bb d.bb }

theorem Made.Told.mono {m : Made} {qOdsc c : ObjDesc} {maxVersions : Nat} {p p' : Plane}
    (h : m.Told qOdsc maxVersions p c) (hkeeps : p.Keeps qOdsc maxVersions p') : m.Told qOdsc maxVersions p' c := by
  obtain ⟨d, st, owner, hpiece, howner, hobjects, rfl⟩ := h
  exact ⟨d, st, owner, hpiece, howner, hkeeps.objects owner hobjects, rfl⟩

/-- The descriptor of a query that was fitted to the array. -/
structure Made.Sees (m : Made) (qOdsc odsc : ObjDesc) : Prop where
  name : odsc.name = qOdsc.name
  version : odsc.version = qOdsc.version
  bb : odsc.bb = m.box qOdsc.bb

section Answer

variable {hilbertC2i : HilbertC2i} {uninit : Nat → Unwritten} {ssd : SSpace} {m : Made} {qOdsc odsc : ObjDesc}
  {maxVersions numNodes : Nat} {p : Plane}

/-- The matching nodes are the descriptors of the variable. -/
theorem Hosted.map_found (h : Hosted m qOdsc maxVersions p) (hbox : (m.box qOdsc.bb).Valid)
    (hsees : m.Sees qOdsc odsc) (r : Nat) :
    ((p.tab r).found odsc).map Slot.odsc = p.descs qOdsc maxVersions r := by
  have hindex : (p.tab r).index odsc = qOdsc.bin maxVersions := by
    rw [DhtTable.index, h.sizes.tab, hsees.version]
    rfl
  rw [Plane.descs, DhtTable.named, DhtTable.found, hindex, List.filter_map]
  refine congrArg _ (List.filter_congr fun s hs => ?_)
  rw [Bool.eq_iff_iff, objDescEqualsIntersect_iff, Function.comp_apply, decide_eq_true_eq, hsees.name]
  refine ⟨And.left, fun hname => ?_⟩
  have hdesc : s.odsc ∈ p.descs qOdsc maxVersions r := DhtTable.mem_named.2 ⟨⟨s, hs, rfl⟩, hname⟩
  have hpiece := (h.placed r s.odsc (List.mem_append_left _ hdesc)).1
  obtain ⟨x, hx⟩ := hbox.cells_nonempty
  refine ⟨hname, hpiece.version.trans hsees.version.symm, ?_⟩
  rw [hpiece.bb, hsees.bb]
  exact bboxDoesIntersect_of_mem rfl hbox.dims hx hx

variable (uninit) in
/-- A server that has a descriptor if it owns a cell of the array answers with the descriptor. -/
theorem Hosted.findOdscs (h : Hosted m qOdsc maxVersions p) (hpart : Partitioned hilbertC2i ssd numNodes)
    (hv2 : ssd.hashVersion = .v2) (hbox : ssd.InDomain (m.box qOdsc.bb)) (hsees : m.Sees qOdsc odsc) {r : Nat}
    (hr : r < numNodes)
    (hplaced : r ∈ ssdHashV2Loop ssd (m.box qOdsc.bb) → p.descs qOdsc maxVersions r ≠ []) (timeout : Int) :
    ∃ odscs, Server.findOdscs hilbertC2i (uninit r) ssd (p.tab r) r odsc timeout = some odscs ∧
      (∀ c ∈ odscs, m.Told qOdsc maxVersions p c) ∧
      (r ∈ ssdHashV2Loop ssd (m.box qOdsc.bb) → odscs ≠ []) := by
  have hfound := h.map_found hbox.valid hsees r
  have hpiece : ∀ s ∈ (p.tab r).found odsc, m.Piece qOdsc s.odsc ∧ ∃ owner, s.odsc.owner = .server owner ∧
      p.objects qOdsc maxVersions owner ≠ [] := fun s hs =>
    h.placed r s.odsc (List.mem_append_left _ (hfound ▸ List.mem_map_of_mem hs))
  have hone : ((p.tab r).found odsc).length ≤ 1 := by
    have := h.oneDesc r
    rwa [← hfound, List.length_map] at this
  have hsep : (p.tab r).Separate odsc := by
    refine ⟨fun s hs => (hpiece s hs).1.bb ▸ hbox.valid, fun s hs => ?_, ?_⟩
    · rw [(hpiece s hs).1.bb, hsees.bb]
    · rcases Nat.le_one_iff_eq_zero_or_eq_one.1 hone with hzero | hsome
      · rw [List.length_eq_zero_iff.1 hzero]
        exact List.Pairwise.nil
      · obtain ⟨s, hs⟩ := List.length_eq_one_iff.1 hsome
        rw [hs]
        exact List.pairwise_singleton _ _
  have hlacking : lackingAt hilbertC2i ssd p.tab odsc r = ∅ := by
    rw [lackingAt, uncovered, Finset.sdiff_eq_empty_iff_subset]
    intro x hx
    rw [hsees.bb, Finset.mem_inter] at hx
    -- the server owns a cell of the array, so the descriptor is there
    have hdescs := hplaced (hpart.mem_ssdHashV2Loop hv2 hbox hx.1 hr hx.2)
    rw [← hfound, ne_eq, List.map_eq_nil_iff] at hdescs
    obtain ⟨s, hs⟩ := List.exists_mem_of_ne_nil _ hdescs
    refine Cover.mem_union.2 ⟨s.odsc.bb, List.mem_map_of_mem hs, ?_⟩
    rw [(hpiece s hs).1.bb]
    exact hx.1
  refine ⟨_, answer_of_covered uninit hpart (hsees.bb ▸ hbox) hr (h.sizes.nodes r) hsep hlacking timeout,
    fun c hc => ?_, fun hmem => ?_⟩
  · obtain ⟨s, hs, rfl⟩ := List.mem_map.1 hc
    obtain ⟨hp, owner, howner, hobjects⟩ := hpiece s hs
    refine ⟨s.odsc, odsc.st, owner, hp, howner, hobjects, ?_⟩
    rw [clipOdsc, hsees.bb, ← hp.bb]
  · have hdescs := hplaced hmem
    rw [← hfound] at hdescs
    simpa using hdescs

end Answer

/-! ## The steps around a query -/

/-- No put of the variable. -/
def GroupEvent.Elsewhere (qOdsc : ObjDesc) (maxVersions : Nat) : GroupEvent → Prop
  | .put _ odsc _ _ => ¬ (odsc.name = qOdsc.name ∧ odsc.bin maxVersions = qOdsc.bin maxVersions)
  | .deliver _ => True
  | .query _ _ _ => True

/-- Nobody else puts the variable or asks for another box of it.  For this query, each call of the module gives the
array; for the queries of others it may also give nothing. -/
def ModEvent.Ok (m : Made) (mods : List DsModule) (conf : Conf) (gdim : GlobalDimension) (qOdsc : ObjDesc) :
    ModEvent → Prop
  | .group ev => ev.Uses gdim ∧ ev.Elsewhere qOdsc conf.maxVersions
  | .other exec _ odsc gdim' => gdim'.Same gdim ∧
      (odsc.name = qOdsc.name ∧ odsc.bin conf.maxVersions = qOdsc.bin conf.maxVersions →
        odsc.Asks qOdsc ∧ ∀ res, GivesArray mods exec odsc res → m.Gives qOdsc.bb res)
  | .ask _ => True
  | .route exec _ => ∃ res, GivesArray mods exec qOdsc res ∧ m.Gives qOdsc.bb res
  | .answer _ => True

theorem GivesArray.unique {mods : List DsModule} {exec : ModExec} {odsc : ObjDesc} {res res' : ModArray}
    (h : GivesArray mods exec odsc res) (h' : GivesArray mods exec odsc res') : res = res' := by
  obtain ⟨⟨mod, hmod, hexec⟩, -⟩ := h
  obtain ⟨⟨mod', hmod', hexec'⟩, -⟩ := h'
  rw [hmod, Option.some.injEq] at hmod'
  subst hmod'
  rw [hexec] at hexec'
  cases hexec'
  rfl

/-- What a query of the variable, as far as it has come, has to do with the plane. -/
structure Tracked (hilbertC2i : HilbertC2i) (uninit : Nat → Unwritten) (conf : Conf) (ssd : SSpace)
    (gdim : GlobalDimension) (m : Made) (qOdsc : ObjDesc) (s : ModQuery) (p : Plane) : Prop where
  shows : Shows hilbertC2i uninit conf ssd gdim s.group p
  hosted : Hosted m qOdsc conf.maxVersions p
  peers : ∀ peers, s.peers = some peers → peers = ssdHashV2Loop ssd qOdsc.bb
  routed : ∀ r odsc, s.routed r = some odsc → m.Sees qOdsc odsc ∧ r ∈ ssdHashV2Loop ssd qOdsc.bb ∧
    (r ∈ ssdHashV2Loop ssd (m.box qOdsc.bb) → p.descs qOdsc conf.maxVersions r ≠ [])
  answers : ∀ r odscs, s.answers r = some odscs → (∀ c ∈ odscs, m.Told qOdsc conf.maxVersions p c) ∧
    (r ∈ ssdHashV2Loop ssd (m.box qOdsc.bb) → odscs ≠ [])

section Track

variable {hilbertC2i : HilbertC2i} {uninit : Nat → Unwritten} {conf : Conf} {mods : List DsModule} {ssd : SSpace}
  {spaces₀ : Nat → SSpace} {gdim : GlobalDimension} {m : Made} {qOdsc : ObjDesc} {timeout : Int} {s s' : ModQuery}
  {p p' : Plane}

theorem Tracked.init (hinit : conf.SpacesFor hilbertC2i uninit conf.defaultGdim spaces₀)
    (hversions : 0 < conf.maxVersions) :
    Tracked hilbertC2i uninit conf ssd gdim m qOdsc (ModQuery.init conf spaces₀) (Plane.init conf) where
  shows := Shows.init hinit
  hosted := Hosted.init hversions
  peers _ h := nomatch h
  routed _ _ h := nomatch h
  answers _ _ h := nomatch h

/-- Steps of the group that keep what there is of the variable. -/
theorem Tracked.keeps (h : Tracked hilbertC2i uninit conf ssd gdim m qOdsc s p)
    (hkeeps : p.Keeps qOdsc conf.maxVersions p') {g : Group} (hshows : Shows hilbertC2i uninit conf ssd gdim g p')
    (hhosted : Hosted m qOdsc conf.maxVersions p') :
    Tracked hilbertC2i uninit conf ssd gdim m qOdsc { s with group := g } p' where
  shows := hshows
  hosted := hhosted
  peers := h.peers
  routed r odsc hr := by
    obtain ⟨hsees, hmem, hdescs⟩ := h.routed r odsc hr
    exact ⟨hsees, hmem, fun hr => hkeeps.descs r (hdescs hr)⟩
  answers r odscs hr :=
    ⟨fun c hc => ((h.answers r odscs hr).1 c hc).mono hkeeps, (h.answers r odscs hr).2⟩

/-- Another cache that is right. -/
theorem Shows.setCache {g : Group} (h : Shows hilbertC2i uninit conf ssd gdim g p) (rank : Nat)
    {sfc : SfcHashList} (hsfc : CacheRight ssd sfc) :
    Shows hilbertC2i uninit conf ssd gdim (g.setServer rank { g.server rank with sfcHash := sfc }) p := by
  have hset : g.setServer rank { g.server rank with sfcHash := sfc } =
      ⟨(g.setServer rank { g.server rank with sfcHash := sfc }).server, p.net⟩ := by
    rw [← h.net]
    rfl
  rw [hset]
  exact h.setServer ((h.ok rank).congr rfl rfl rfl) (h.ls rank) (fun _ _ => rfl) (h.tab rank) (fun _ _ => rfl)
    hsfc (h.subs rank) h.gdims

/-- The answer of a server that has routed the query and has its space. -/
theorem Tracked.findOdscs (h : Tracked hilbertC2i uninit conf ssd gdim m qOdsc s p) (hfits : m.FitsIn qOdsc.bb)
    (hssd : conf.SpacesFor hilbertC2i uninit gdim fun _ => ssd) (hv2 : ssd.hashVersion = .v2)
    (hpart : Partitioned hilbertC2i ssd conf.sizeSp) (hq : ssd.InDomain qOdsc.bb) {r : Nat} {odsc : ObjDesc}
    (hr : s.routed r = some odsc) {e : SpaceEntry} (he : (s.group.server r).findSspace gdim = some e)
    (timeout : Int) :
    ∃ odscs, Server.findOdscs hilbertC2i (uninit r) e.ssd e.entSelf r odsc timeout = some odscs ∧
      (∀ c ∈ odscs, m.Told qOdsc conf.maxVersions p c) ∧
      (r ∈ ssdHashV2Loop ssd (m.box qOdsc.bb) → odscs ≠ []) := by
  have hspace : ssd = e.ssd := Option.some.inj ((hssd r).symm.trans ((h.shows.ok r).spaceFor he))
  have htable : e.entSelf = p.tab r := by
    have htab := h.shows.tab r
    rwa [Server.tableOf, he] at htab
  obtain ⟨hsees, hmem, hdescs⟩ := h.routed r odsc hr
  obtain ⟨de, hde, hrank⟩ := List.mem_map.1 hmem
  have hlt : r < conf.sizeSp := hrank ▸ hpart.rank_lt (List.mem_filter.1 hde).1
  rw [← hspace, htable]
  exact h.hosted.findOdscs uninit hpart hv2 (hfits.inDomain hq) hsees hlt hdescs timeout

variable (hversion : qOdsc.version ≠ 0xffffffff) (hfits : m.FitsIn qOdsc.bb) (hflags : qOdsc.flags = 0)
  (hnodup : ∀ bb, (ssdHashV2Loop ssd bb).Nodup)

include hversion hfits hnodup

theorem Hosted.step (h : Hosted m qOdsc conf.maxVersions p) {ev : GroupEvent}
    (hev : ev.Elsewhere qOdsc conf.maxVersions) (hstep : p.step ssd ev = some p') :
    Hosted m qOdsc conf.maxVersions p' ∧ p.Keeps qOdsc conf.maxVersions p' := by
  cases ev with
  | put rank odsc gdim data =>
      cases hstep
      exact h.putOther rank odsc gdim data hev (hnodup _)
  | deliver k => exact h.deliver hversion hfits.box_valid hstep
  | query rank odsc gdim =>
      cases hstep
      exact ⟨h, Plane.Keeps.refl p⟩

variable (hssd : conf.SpacesFor hilbertC2i uninit gdim fun _ => ssd) (hv2 : ssd.hashVersion = .v2)

include hssd hv2

/-- Routing a request for the variable. -/
theorem Tracked.routeAt (h : Tracked hilbertC2i uninit conf ssd gdim m qOdsc s p) {exec : ModExec} {rank : Nat}
    {odsc odsc' : ObjDesc} {gdim' : GlobalDimension} (hgdim : gdim'.Same gdim) (hodsc : odsc.Asks qOdsc)
    (hgives : ∀ res, GivesArray mods exec odsc res → m.Gives qOdsc.bb res) {g : Group}
    (hroute : s.group.routeAt hilbertC2i uninit conf mods exec rank odsc gdim' = some (g, odsc')) :
    ∃ p', Tracked hilbertC2i uninit conf ssd gdim m qOdsc { s with group := g } p' ∧
      ((∃ res, GivesArray mods exec odsc res) → m.Sees qOdsc odsc' ∧
        (rank ∈ ssdHashV2Loop ssd (m.box qOdsc.bb) → p'.descs qOdsc conf.maxVersions rank ≠ [])) := by
  rcases h.shows.routeAt hssd hv2 hnodup hgdim hroute with ⟨res, harray, hshows, tag, rfl⟩ | ⟨hnone, hshows⟩
  · have hres := hgives res harray
    obtain ⟨flags, hfit, -⟩ := fitToArray_spec hfits hodsc hres
    have hobject : m.Object qOdsc
        ⟨ObjDesc.ownedBy { fitToArray odsc res with tag := res.tag } rank, gdim', res.data⟩ :=
      object_fitToArray hfits hodsc hres rank gdim'
    obtain ⟨hhosted, hkeeps, hdescs⟩ := h.hosted.putSame hversion hfits.box_valid hobject (hnodup _)
    refine ⟨_, h.keeps hkeeps hshows hhosted, fun _ => ⟨?_, fun hmem => hdescs ?_⟩⟩
    · rw [hfit]
      exact ⟨hodsc.name, hodsc.version, rfl⟩
    · rw [hfit]
      exact hmem
  · exact ⟨p, h.keeps (Plane.Keeps.refl p) hshows h.hosted, fun ⟨res, harray⟩ => absurd harray (hnone res)⟩

include hflags in
/-- One step. -/
theorem Tracked.step (hremotes : conf.remotes = none) (hpart : Partitioned hilbertC2i ssd conf.sizeSp)
    (hq : ssd.InDomain qOdsc.bb) (h : Tracked hilbertC2i uninit conf ssd gdim m qOdsc s p) {ev : ModEvent}
    (hev : ev.Ok m mods conf gdim qOdsc)
    (hstep : s.step hilbertC2i uninit conf mods qOdsc gdim timeout ev = some s') :
    ∃ p', Tracked hilbertC2i uninit conf ssd gdim m qOdsc s' p' := by
  cases ev with
  | group ev =>
      obtain ⟨g, hg, rfl⟩ := Option.map_eq_some_iff.1 hstep
      obtain ⟨p', hp', hshows⟩ := h.shows.step hssd hv2 hnodup hremotes hev.1 hg
      obtain ⟨hhosted, hkeeps⟩ := h.hosted.step hversion hfits hnodup hev.2 hp'
      exact ⟨p', h.keeps hkeeps hshows hhosted⟩
  | other exec rank odsc gdim' =>
      obtain ⟨⟨g, odsc'⟩, hroute, rfl⟩ := Option.map_eq_some_iff.1 hstep
      by_cases hsame : odsc.name = qOdsc.name ∧ odsc.bin conf.maxVersions = qOdsc.bin conf.maxVersions
      · obtain ⟨hodsc, hgives⟩ := hev.2 hsame
        obtain ⟨p', htracked, -⟩ := h.routeAt hversion hfits hnodup hssd hv2 hev.1 hodsc hgives hroute
        exact ⟨p', htracked⟩
      · -- a variable of its own
        rcases h.shows.routeAt hssd hv2 hnodup hev.1 hroute with ⟨res, -, hshows, -⟩ | ⟨-, hshows⟩
        · have hother : ¬ ((fitToArray odsc res).name = qOdsc.name ∧
              (fitToArray odsc res).bin conf.maxVersions = qOdsc.bin conf.maxVersions) := by
            rw [fitToArray]
            split
            · exact hsame
            · split <;> exact hsame
          obtain ⟨hhosted, hkeeps⟩ := h.hosted.putOther rank { fitToArray odsc res with tag := res.tag } gdim'
            res.data hother (hnodup _)
          exact ⟨_, h.keeps hkeeps hshows hhosted⟩
        · exact ⟨p, h.keeps (Plane.Keeps.refl p) hshows h.hosted⟩
  | ask self =>
      rw [ModQuery.step] at hstep
      split at hstep
      · obtain ⟨⟨sv, e⟩, hlook, hstep⟩ := Option.bind_eq_some_iff.1 hstep
        obtain ⟨⟨deTab, sfc⟩, hhash, hstep⟩ := Option.bind_eq_some_iff.1 hstep
        simp only [Option.pure_def, Option.some.injEq] at hstep
        subst hstep
        obtain ⟨-, ssd', hssd', hspec⟩ := Server.lookupSspace_cases (h.shows.ok self) hlook
        have hsame : ssd' = ssd := Option.some.inj (hssd'.symm.trans (hssd self))
        subst hsame
        -- a right cache changes nothing in what the box hashes to
        have hcache : CacheRight ssd' sv.sfcHash := hspec.same.sfcHash ▸ h.shows.cache self
        obtain ⟨deTab', sfc', hhash', hranks, hsfc⟩ :=
          ssdHash_of_cacheRight hilbertC2i (uninit self) hv2 hcache e.id qOdsc.bb
        rw [hspec.ssd, hhash'] at hhash
        cases hhash
        have hserver : (s.group.setServer self sv).server self = sv := Function.update_self _ _ _
        have hshows := (h.shows.lookup hlook).setCache self hsfc
        rw [hserver] at hshows
        simp only [Group.setServer, Function.update_idem] at hshows
        refine ⟨p, hshows, h.hosted, fun peers hpeers => ?_, h.routed, h.answers⟩
        cases hpeers
        -- the box hashes to somebody, so the server does not answer alone
        have hsel : ssdHashLoop hilbertC2i ⟨0, 0⟩ ssd' qOdsc.bb ≠ some [] :=
          ssdHashLoop_ne_nil hpart hq.toFits hq.meets _
        rw [ssdHashLoop, hv2] at hsel
        rw [hranks, askedRanks, if_neg]
        simpa using hsel
      · cases hstep
  | route exec rank =>
      rw [ModQuery.step] at hstep
      split at hstep
      · next hguard =>
          obtain ⟨⟨g, odsc'⟩, hroute, rfl⟩ := Option.map_eq_some_iff.1 hstep
          obtain ⟨res, harray, hgives⟩ := hev
          obtain ⟨p', htracked, hplaced⟩ := h.routeAt hversion hfits hnodup hssd hv2 ⟨rfl, fun _ _ => rfl⟩
            ⟨rfl, rfl, rfl, hflags⟩ (fun res' h' => (harray.unique h') ▸ hgives) hroute
          -- what the other servers have routed stays, this one has its descriptor now
          refine ⟨p', htracked.shows, htracked.hosted, htracked.peers, fun r odsc hr => ?_, htracked.answers⟩
          simp only [Function.update_apply] at hr
          split at hr
          · next hrank =>
              cases hr
              obtain ⟨hsees, hdescs⟩ := hplaced ⟨res, harray⟩
              refine ⟨hsees, ?_, hrank ▸ hdescs⟩
              cases hpeers : s.peers with
              | none => simp [hpeers] at hguard
              | some peers =>
                  rw [hrank, ← h.peers peers hpeers]
                  simpa [hpeers] using hguard.1
          · exact htracked.routed r odsc hr
      · cases hstep
  | answer rank =>
      rw [ModQuery.step] at hstep
      split at hstep
      · obtain ⟨odsc, hodsc, hstep⟩ := Option.bind_eq_some_iff.1 hstep
        obtain ⟨e, he, hstep⟩ := Option.bind_eq_some_iff.1 hstep
        obtain ⟨odscs, hfind, hstep⟩ := Option.bind_eq_some_iff.1 hstep
        simp only [Option.pure_def, Option.some.injEq] at hstep
        subst hstep
        obtain ⟨odscs', hfind', htold⟩ := h.findOdscs hfits hssd hv2 hpart hq hodsc he timeout
        obtain rfl : odscs' = odscs := Option.some.inj (hfind'.symm.trans hfind)
        refine ⟨p, h.shows, h.hosted, h.peers, h.routed, fun r odscs hr => ?_⟩
        simp only [Function.update_apply] at hr
        split at hr
        · next hr' =>
            cases hr
            exact hr' ▸ htold
        · exact h.answers r odscs hr
      · cases hstep

omit hversion hfits hnodup hssd hv2 in
theorem ModQuery.isRun : Runs.IsRun (ModQuery.step hilbertC2i uninit conf mods qOdsc gdim timeout)
    (ModQuery.run hilbertC2i uninit conf mods qOdsc gdim timeout) :=
  ⟨fun _ => rfl, fun _ _ _ => rfl⟩

include hflags in
/-- A whole run. -/
theorem Tracked.run (hinit : conf.SpacesFor hilbertC2i uninit conf.defaultGdim spaces₀)
    (hversions : 0 < conf.maxVersions) (hremotes : conf.remotes = none)
    (hpart : Partitioned hilbertC2i ssd conf.sizeSp) (hq : ssd.InDomain qOdsc.bb) {evs : List ModEvent}
    (hevs : ∀ ev ∈ evs, ev.Ok m mods conf gdim qOdsc)
    (hrun : (ModQuery.init conf spaces₀).run hilbertC2i uninit conf mods qOdsc gdim timeout evs = some s) :
    ∃ p, Tracked hilbertC2i uninit conf ssd gdim m qOdsc s p := by
  have hstep : ∀ s (ev : ModEvent) s', (∃ p, Tracked hilbertC2i uninit conf ssd gdim m qOdsc s p) →
      ev.Ok m mods conf gdim qOdsc → s.step hilbertC2i uninit conf mods qOdsc gdim timeout ev = some s' →
      ∃ p, Tracked hilbertC2i uninit conf ssd gdim m qOdsc s' p := fun s ev s' ⟨p, h⟩ hev hstep =>
    h.step hversion hfits hflags hnodup hssd hv2 hremotes hpart hq hev hstep
  exact ModQuery.isRun.keeps_along hstep evs _ s ⟨_, Tracked.init hinit hversions⟩
    (Runs.along_of_forall hevs _) hrun

end Track

/-! ## The merge -/

/-- Of answers that are all alike the merge leaves the first. -/
theorem dedup_alike {odscs : List ObjDesc} (hne : odscs ≠ [])
    (halike : ∀ c ∈ odscs, ∀ c' ∈ odscs, objDescEqualsNoOwner c c' = true) : ∃ c ∈ odscs, dedup odscs = [c] := by
  obtain ⟨c, rest, rfl⟩ := List.exists_cons_of_ne_nil hne
  refine ⟨c, List.mem_cons_self, ?_⟩
  have hrest : ∀ l : List ObjDesc, (∀ c' ∈ l, objDescEqualsNoOwner c c' = true) → l.foldl dedupStep [c] = [c] := by
    intro l
    induction l with
    | nil => exact fun _ => rfl
    | cons c' l ih =>
        intro hl
        have hany : ([c].any fun r => objDescEqualsNoOwner r c') = true := by
          simp [hl c' List.mem_cons_self]
        rw [List.foldl_cons, dedupStep, if_pos hany]
        exact ih fun o ho => hl o (List.mem_cons_of_mem c' ho)
  exact hrest rest fun c' hc' => halike c List.mem_cons_self c' (List.mem_cons_of_mem c hc')

theorem Made.Told.alike {m : Made} {qOdsc c c' : ObjDesc} {maxVersions : Nat} {p : Plane}
    (h : m.Told qOdsc maxVersions p c) (h' : m.Told qOdsc maxVersions p c') : objDescEqualsNoOwner c c' = true := by
  obtain ⟨d, st, owner, hpiece, -, -, rfl⟩ := h
  obtain ⟨d', st', owner', hpiece', -, -, rfl⟩ := h'
  refine objDescEqualsNoOwner_iff.2 ⟨hpiece.version.trans hpiece'.version.symm,
    hpiece.name.trans hpiece'.name.symm, ?_⟩
  simp only [hpiece.bb, hpiece'.bb]
  exact bboxEquals_refl _

/-- What the elements of a list are mapped to, if all are mapped. -/
theorem mapM_mem {α β : Type} {f : α → Option β} (l : List α) :
    ∀ l', l.mapM f = some l' → (∀ b ∈ l', ∃ a ∈ l, f a = some b) ∧ ∀ a ∈ l, ∃ b ∈ l', f a = some b := by
  induction l with
  | nil =>
      intro l' h
      obtain rfl : [] = l' := Option.some.inj h
      exact ⟨fun _ hb => (List.not_mem_nil hb).elim, fun _ ha => (List.not_mem_nil ha).elim⟩
  | cons a l ih =>
      intro l' h
      rw [List.mapM_cons] at h
      obtain ⟨b, hb, h⟩ := Option.bind_eq_some_iff.1 h
      obtain ⟨bs, hbs, h⟩ := Option.bind_eq_some_iff.1 h
      cases h
      obtain ⟨hfrom, hto⟩ := ih bs hbs
      refine ⟨fun c hc => ?_, fun c hc => ?_⟩
      · rcases List.mem_cons.1 hc with rfl | hc
        · exact ⟨a, List.mem_cons_self, hb⟩
        · obtain ⟨d, hd, hdc⟩ := hfrom c hc
          exact ⟨d, List.mem_cons_of_mem a hd, hdc⟩
      · rcases List.mem_cons.1 hc with rfl | hc
        · exact ⟨b, List.mem_cons_self, hb⟩
        · obtain ⟨d, hd, hcd⟩ := hto c hc
          exact ⟨d, List.mem_cons_of_mem b hd, hcd⟩

section Results

variable {hilbertC2i : HilbertC2i} {uninit : Nat → Unwritten} {conf : Conf} {ssd : SSpace} {gdim : GlobalDimension}
  {m : Made} {qOdsc : ObjDesc} {s : ModQuery} {p : Plane} {odscs : List ObjDesc}

/-- A query whose servers have all answered returns one descriptor. -/
theorem Tracked.results (h : Tracked hilbertC2i uninit conf ssd gdim m qOdsc s p)
    (hpart : Partitioned hilbertC2i ssd conf.sizeSp) (hv2 : ssd.hashVersion = .v2) (hq : ssd.InDomain qOdsc.bb)
    (hfits : m.FitsIn qOdsc.bb) (hresults : s.results = some odscs) :
    ∃ c, odscs = [c] ∧ m.Told qOdsc conf.maxVersions p c := by
  obtain ⟨peers, hpeers, hresults⟩ := Option.bind_eq_some_iff.1 hresults
  obtain ⟨tabs, htabs, hresults⟩ := Option.bind_eq_some_iff.1 hresults
  simp only [Option.pure_def, Option.some.injEq] at hresults
  subst hresults
  obtain ⟨hfrom, hto⟩ := mapM_mem peers tabs htabs
  have hbox := hfits.inDomain hq
  have htold : ∀ c ∈ tabs.flatten, m.Told qOdsc conf.maxVersions p c := by
    intro c hc
    obtain ⟨odscs, hodscs, hc⟩ := List.mem_flatten.1 hc
    obtain ⟨r, -, hanswer⟩ := hfrom odscs hodscs
    exact (h.answers r odscs hanswer).1 c hc
  -- the owner of a cell of the array is among the servers that were asked, and has a descriptor
  have hsome : tabs.flatten ≠ [] := by
    obtain ⟨x, hx⟩ := hbox.valid.cells_nonempty
    obtain ⟨r, hr, hown⟩ := hpart.exists_ownedAt (hbox.subset hx)
    have hpeer : r ∈ peers := by
      rw [h.peers peers hpeers]
      exact hpart.mem_ssdHashV2Loop hv2 hq (hfits.box_subset hx) hr hown
    obtain ⟨odscs, hodscs, hanswer⟩ := hto r hpeer
    obtain ⟨c, hc⟩ := List.exists_mem_of_ne_nil _
      ((h.answers r odscs hanswer).2 (hpart.mem_ssdHashV2Loop hv2 hbox hx hr hown))
    exact List.ne_nil_of_mem (List.mem_flatten.2 ⟨odscs, hodscs, hc⟩)
  obtain ⟨c, hc, hdedup⟩ := dedup_alike hsome fun c hc c' hc' => (htold c hc).alike (htold c' hc')
  exact ⟨c, hdedup, htold c hc⟩

end Results

end DataSpaces
