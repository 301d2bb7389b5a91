import DataSpaces.Group
import DataSpaces.Outside
import DataSpaces.Rounds

/-!
# SpaceLookup — the space that `lookup_sspace` picks

A server compares the global dimensions of a request with those of its default space, then with those of
the spaces it made before, and else makes a new space.  The second comparison looks at the number of
dimensions, the first one does not; and `ssd_init` takes the entry of the server's rank from the table,
which has a single entry in a v0 space.  Below, what a sequence of calls returns when these two do not
come into play, and when making a space comes to an end.
-/

namespace DataSpaces

/-! ## The tables of the three allocators -/

section Tables

variable {hilbertC2i : HilbertC2i} {uninit : Intv} {dom : BBox} {numNodes maxVersions rank : Nat}
  {hashVersion : HashVersion} {ss : SSpace}

theorem sliceEntries_ranks (sn : Nat → UInt64) (is : List Nat) :
    ∀ (tab : List Intv) (ents : List DhtEntry), sliceEntries uninit sn is tab = some ents →
      ents.map DhtEntry.rank = is := by
  induction is with
  | nil =>
      intro tab ents h
      cases h
      rfl
  | cons i is ih =>
      intro tab ents h
      obtain ⟨⟨mine, tab'⟩, -, h⟩ := Option.bind_eq_some_iff.1 h
      obtain ⟨rest, hrest, h⟩ := Option.bind_eq_some_iff.1 h
      cases h
      rw [List.map_cons, ih tab' rest hrest]

/-- The version of the space is the one that `ssd_alloc` takes. -/
theorem ssdAlloc_version
    (h : ssdAlloc hilbertC2i uninit dom numNodes maxVersions hashVersion = some ss) :
    ss.hashVersion = ssdVersion dom hashVersion := by
  rw [ssdAlloc] at h
  rw [ssdVersion]
  split at h
  · next hv =>
      cases h
      exact hv.symm
  · next hv => exact (ssdAllocV1_version h).trans hv.symm
  · next hv => exact (ssdAllocV2_version h).trans hv.symm
  · cases h

theorem ssdAlloc_domain
    (h : ssdAlloc hilbertC2i uninit dom numNodes maxVersions hashVersion = some ss) :
    ss.bbGlbDomain = dom := by
  rcases ssdAlloc_cases h with ⟨-, rfl⟩ | ⟨-, h⟩ | ⟨-, h⟩
  · rfl
  · obtain ⟨maxDim, -, h⟩ := Option.bind_eq_some_iff.1 h
    obtain ⟨entTab, -, h⟩ := Option.bind_eq_some_iff.1 h
    cases h
    rfl
  · obtain ⟨maxDim, -, h⟩ := Option.bind_eq_some_iff.1 h
    obtain ⟨pow, -, h⟩ := Option.bind_eq_some_iff.1 h
    cases h
    rfl

/-- The entries are in the order of their ranks, one for each server but in v0. -/
theorem ssdAlloc_ranks
    (h : ssdAlloc hilbertC2i uninit dom numNodes maxVersions hashVersion = some ss) :
    ss.entTab.map DhtEntry.rank =
      if ssdVersion dom hashVersion = .v0 then [0] else List.range numNodes := by
  rw [← ssdAlloc_version h]
  rcases ssdAlloc_cases h with ⟨-, rfl⟩ | ⟨hv, h⟩ | ⟨hv, h⟩
  · rfl
  · obtain ⟨maxDim, -, h⟩ := Option.bind_eq_some_iff.1 h
    obtain ⟨entTab, hents, h⟩ := Option.bind_eq_some_iff.1 h
    obtain ⟨tab, -, hents⟩ := Option.bind_eq_some_iff.1 hents
    cases h
    exact sliceEntries_ranks _ _ _ _ hents
  · obtain ⟨maxDim, -, h⟩ := Option.bind_eq_some_iff.1 h
    obtain ⟨pow, -, h⟩ := Option.bind_eq_some_iff.1 h
    cases h
    rw [if_neg (by simp)]
    simp only [mapRoundRobin_ranks, dhtAlloc_ranks]

/-- `ssd_init` finds the entry of the server's rank unless the table has only that of rank `0`. -/
theorem entSelf_iff (h : ssdAlloc hilbertC2i uninit dom numNodes maxVersions hashVersion = some ss)
    (hrank : rank < numNodes) :
    (∃ de, ss.entTab[rank]? = some de ∧ de.rank = rank) ↔
      rank = 0 ∨ ssdVersion dom hashVersion ≠ .v0 := by
  have hget : ∀ r, (ss.entTab.map DhtEntry.rank)[rank]? = some r ↔
      ∃ de, ss.entTab[rank]? = some de ∧ de.rank = r := fun r => by
    rw [List.getElem?_map, Option.map_eq_some_iff]
  rw [← hget, ssdAlloc_ranks h]
  by_cases hv : ssdVersion dom hashVersion = .v0
  · simp only [hv, if_true, not_true_eq_false, or_false, ne_eq]
    rcases Nat.eq_zero_or_pos rank with rfl | hpos
    · simp
    · rw [List.getElem?_eq_none (show [0].length ≤ rank from hpos)]
      simp only [reduceCtorEq, false_iff]
      omega
  · simp [hv, hrank]

end Tables

/-! ## Sequences of lookups -/

theorem GlobalDimension.Same.trans {gdim1 gdim2 gdim3 : GlobalDimension} (h : gdim1.Same gdim2)
    (h' : gdim2.Same gdim3) : gdim1.Same gdim3 :=
  ⟨h.1.trans h'.1, fun i hi => (h.2 i hi).trans (h'.2 i (h.1 ▸ hi))⟩

/-- A server and the calls of `lookup_sspace` so far, each with the space it returned. -/
structure Asked where
  sv : Server
  answers : List (GlobalDimension × SpaceEntry)

section Lookups

variable (hilbertC2i : HilbertC2i) (uninit : Unwritten) (conf : Conf)

def Asked.lookup (s : Asked) (gdim : GlobalDimension) : Option Asked :=
  (Server.lookupSspace hilbertC2i uninit conf s.sv gdim).map fun r =>
    ⟨r.1, s.answers ++ [(gdim, r.2)]⟩

def Asked.lookups (gdims : List GlobalDimension) (s : Asked) : Option Asked :=
  gdims.foldlM (Asked.lookup hilbertC2i uninit conf) s

end Lookups

/-- Every call got the space of its own global dimensions, two calls got the same space exactly for the
same dimensions, and every space has the entry of the server in its place. -/
structure ChosenByDims (rank : Nat) (answers : List (GlobalDimension × SpaceEntry)) : Prop where
  dims : ∀ a ∈ answers, a.2.ssd.bbGlbDomain.numDims = a.1.ndim
  domain : ∀ a ∈ answers, ∀ i < a.1.ndim,
    a.2.ssd.bbGlbDomain.lb.c i = 0 ∧ a.2.ssd.bbGlbDomain.ub.c i = a.1.sizes.c i - 1
  same : ∀ a ∈ answers, ∀ b ∈ answers, a.2.id = b.2.id ↔ a.1.Same b.1
  self : ∀ a ∈ answers, ∃ de, a.2.ssd.entTab[rank]? = some de ∧ de.rank = rank

/-- The dimensions do not agree with the default ones as far as they go and have another number, and the
server has an entry of its own in the space for them. -/
def Conf.Distinct (conf : Conf) (rank : Nat) (gdim : GlobalDimension) : Prop :=
  (globalDimensionEqual gdim conf.defaultGdim = true → gdim.ndim = conf.defaultGdim.ndim) ∧
    (rank = 0 ∨ ssdVersion (gdimDomain gdim) conf.hashVersion ≠ .v0)

section Chosen

variable {hilbertC2i : HilbertC2i} {uninit : Unwritten} {conf : Conf} {rank : Nat} {sv sv' : Server}
  {gdim : GlobalDimension} {e : SpaceEntry}

namespace Server

/-- A lookup leaves the spaces that were found before. -/
theorem findSspace_lookupSspace {gdim' : GlobalDimension} {e' : SpaceEntry}
    (hlook : lookupSspace hilbertC2i uninit conf sv gdim = some (sv', e))
    (hfind : sv.findSspace gdim' = some e') : sv'.findSspace gdim' = some e' := by
  rw [lookupSspace] at hlook
  cases hown : sv.findSspace gdim with
  | some e₀ =>
      rw [hown] at hlook
      cases hlook
      exact hfind
  | none =>
      rw [hown] at hlook
      obtain ⟨ssd, -, hlook⟩ := Option.map_eq_some_iff.1 hlook
      cases hlook
      rw [findSspace] at hfind ⊢
      by_cases hd : globalDimensionEqual gdim' sv.dflt.gdim = true
      · rw [if_pos hd] at hfind ⊢
        exact hfind
      · rw [if_neg hd] at hfind
        rw [if_neg hd, List.find?_cons]
        -- the new space is for dimensions that had none
        by_cases hnew : (gdim'.ndim == gdim.ndim && globalDimensionEqual gdim' gdim) = true
        · have hnone : sv.findSspace gdim' = sv.findSspace gdim := findSspace_congr (listed_iff.1 hnew)
          rw [hown, findSspace, if_neg hd, hfind] at hnone
          cases hnone
        · simp only [hnew]
          exact hfind

/-- Who finds the default space has its dimensions, and who finds a listed one is the same. -/
theorem Ok.same_of_find (h : sv.Ok hilbertC2i uninit conf rank) (hfind : sv.findSspace gdim = some e) :
    (e = sv.dflt ∧ globalDimensionEqual gdim conf.defaultGdim = true) ∨
      (e ∈ sv.sspaceList ∧ globalDimensionEqual gdim conf.defaultGdim = false ∧ gdim.Same e.gdim) := by
  rw [findSspace, h.dflt_gdim] at hfind
  by_cases hd : globalDimensionEqual gdim conf.defaultGdim = true
  · rw [if_pos hd] at hfind
    exact Or.inl ⟨(Option.some.inj hfind).symm, hd⟩
  · rw [if_neg hd] at hfind
    have hsame := List.find?_some hfind
    exact Or.inr ⟨List.mem_of_find?_eq_some hfind, by simpa using hd, listed_iff.1 hsame⟩

theorem Ok.dflt_notMem (h : sv.Ok hilbertC2i uninit conf rank) : sv.dflt ∉ sv.sspaceList := by
  intro hmem
  have hpos := (h.numbered _ hmem).1
  rw [h.dflt_id] at hpos
  exact lt_irrefl 0 hpos

/-- The numbers of the spaces tell them apart. -/
theorem Ok.eq_of_id (h : sv.Ok hilbertC2i uninit conf rank) {gdim' : GlobalDimension} {e' : SpaceEntry}
    (hfind : sv.findSspace gdim = some e) (hfind' : sv.findSspace gdim' = some e') (hid : e.id = e'.id) :
    e = e' := by
  rcases h.same_of_find hfind with ⟨rfl, -⟩ | ⟨he, -⟩
  · rcases h.same_of_find hfind' with ⟨rfl, -⟩ | ⟨he', -⟩
    · rfl
    · have hpos := (h.numbered e' he').1
      rw [← hid, h.dflt_id] at hpos
      exact absurd hpos (lt_irrefl 0)
  · rcases h.same_of_find hfind' with ⟨rfl, -⟩ | ⟨he', -⟩
    · have hpos := (h.numbered e he).1
      rw [hid, h.dflt_id] at hpos
      exact absurd hpos (lt_irrefl 0)
    · exact List.inj_on_of_nodup_map h.ids he he' hid

end Server

/-- What holds between calls: the server is in order and still finds every space it returned. -/
structure Asked.Ok (hilbertC2i : HilbertC2i) (uninit : Unwritten) (conf : Conf) (rank : Nat) (s : Asked) :
    Prop where
  sv : s.sv.Ok hilbertC2i uninit conf rank
  found : ∀ a ∈ s.answers, s.sv.findSspace a.1 = some a.2

theorem Asked.Ok.lookup {s s' : Asked} (h : s.Ok hilbertC2i uninit conf rank)
    (hstep : s.lookup hilbertC2i uninit conf gdim = some s') : s'.Ok hilbertC2i uninit conf rank := by
  obtain ⟨⟨sv', e⟩, hlook, rfl⟩ := Option.map_eq_some_iff.1 hstep
  obtain ⟨hok, ssd, -, hlooked⟩ := Server.lookupSspace_cases h.sv hlook
  refine ⟨hok, fun a ha => ?_⟩
  rcases List.mem_append.1 ha with ha | ha
  · exact Server.findSspace_lookupSspace hlook (h.found a ha)
  · obtain rfl := List.mem_singleton.1 ha
    exact hlooked.found

theorem Asked.Ok.lookups {s s' : Asked} (h : s.Ok hilbertC2i uninit conf rank)
    {gdims : List GlobalDimension} (hrun : s.lookups hilbertC2i uninit conf gdims = some s') :
    s'.Ok hilbertC2i uninit conf rank :=
  (Runs.isRun_foldlM (Asked.lookup hilbertC2i uninit conf)).keeps
    (fun _ _ _ hok hstep => hok.lookup hstep) gdims s s' h hrun

/-- Every call is answered. -/
theorem Asked.lookups_gdims (gdims : List GlobalDimension) : ∀ s s' : Asked,
    s.lookups hilbertC2i uninit conf gdims = some s' →
      s'.answers.map Prod.fst = s.answers.map Prod.fst ++ gdims := by
  induction gdims with
  | nil =>
      intro s s' hrun
      cases hrun
      rw [List.append_nil]
  | cons gdim gdims ih =>
      intro s s' hrun
      rw [Asked.lookups, List.foldlM_cons] at hrun
      obtain ⟨s₁, hstep, hrun⟩ := Option.bind_eq_some_iff.1 hrun
      obtain ⟨r, -, rfl⟩ := Option.map_eq_some_iff.1 hstep
      rw [ih _ s' hrun, List.map_append, List.append_assoc]
      rfl

/-- The space of a call was made for its dimensions, unless the default space was taken for fewer
dimensions than it has. -/
theorem Asked.Ok.built {s : Asked} (h : s.Ok hilbertC2i uninit conf rank)
    {a : GlobalDimension × SpaceEntry} (ha : a ∈ s.answers)
    (hndim : globalDimensionEqual a.1 conf.defaultGdim = true → a.1.ndim = conf.defaultGdim.ndim) :
    ssdAlloc hilbertC2i uninit.alloc (gdimDomain a.1) conf.sizeSp conf.maxVersions conf.hashVersion =
      some a.2.ssd := by
  rcases h.sv.same_of_find (h.found a ha) with ⟨he, hd⟩ | ⟨he, -, hsame⟩
  · have hsame : a.1.Same conf.defaultGdim := ⟨hndim hd, globalDimensionEqual_iff.1 hd⟩
    rw [gdimDomain_congr hsame, he]
    exact h.sv.dflt_ssd
  · rw [gdimDomain_congr hsame]
    exact h.sv.listed a.2 he

theorem Asked.Ok.id_eq_iff {s : Asked} (h : s.Ok hilbertC2i uninit conf rank)
    {a b : GlobalDimension × SpaceEntry} (ha : a ∈ s.answers) (hb : b ∈ s.answers)
    (hna : globalDimensionEqual a.1 conf.defaultGdim = true → a.1.ndim = conf.defaultGdim.ndim)
    (hnb : globalDimensionEqual b.1 conf.defaultGdim = true → b.1.ndim = conf.defaultGdim.ndim) :
    a.2.id = b.2.id ↔ a.1.Same b.1 := by
  have hfa := h.found a ha
  have hfb := h.found b hb
  constructor
  · intro hid
    have heq := h.sv.eq_of_id hfa hfb hid
    rcases h.sv.same_of_find hfa with ⟨hea, hda⟩ | ⟨hea, -, hsa⟩
    · rcases h.sv.same_of_find hfb with ⟨-, hdb⟩ | ⟨heb, -⟩
      · -- both agree with the default dimensions in their own number of them, which is the default one
        have hndim : a.1.ndim = b.1.ndim := (hna hda).trans (hnb hdb).symm
        rw [globalDimensionEqual_iff] at hda hdb
        exact ⟨hndim, fun i hi => (hda i hi).trans (hdb i (hndim ▸ hi)).symm⟩
      · rw [← heq, hea] at heb
        exact absurd heb h.sv.dflt_notMem
    · rcases h.sv.same_of_find hfb with ⟨heb, -⟩ | ⟨-, -, hsb⟩
      · rw [heq, heb] at hea
        exact absurd hea h.sv.dflt_notMem
      · rw [← heq] at hsb
        exact hsa.trans hsb.symm
  · intro hsame
    rw [Server.findSspace_congr hsame, hfb, Option.some.injEq] at hfa
    rw [hfa]

/-- The calls were answered right iff none of them meets one of the two exceptions. -/
theorem Asked.Ok.chosenByDims_iff {s : Asked} (h : s.Ok hilbertC2i uninit conf rank)
    (hrank : rank < conf.sizeSp) (hdims : ∀ a ∈ s.answers, a.1.ndim ≤ BBOX_MAX_NDIM) :
    ChosenByDims rank s.answers ↔ ∀ a ∈ s.answers, conf.Distinct rank a.1 := by
  constructor
  · intro hchosen a ha
    have hndim : globalDimensionEqual a.1 conf.defaultGdim = true → a.1.ndim = conf.defaultGdim.ndim := by
      intro hd
      rcases h.sv.same_of_find (h.found a ha) with ⟨he, -⟩ | ⟨-, hno, -⟩
      · rw [← hchosen.dims a ha, he, ssdAlloc_domain h.sv.dflt_ssd]
        rfl
      · rw [hno] at hd
        cases hd
    exact ⟨hndim, (entSelf_iff (h.built ha hndim) hrank).1 (hchosen.self a ha)⟩
  · intro hall
    have hbuilt := fun a ha => h.built ha (hall a ha).1
    have hdomain := fun a ha => ssdAlloc_domain (hbuilt a ha)
    refine ⟨fun a ha => ?_, fun a ha i hi => ?_, fun a ha b hb => ?_, fun a ha => ?_⟩
    · rw [hdomain a ha]
      rfl
    · have hlt : i < BBOX_MAX_NDIM := lt_of_lt_of_le hi (hdims a ha)
      rw [hdomain a ha]
      simp [gdimDomain, Coord.c_ofFn _ hlt, hi]
    · exact h.id_eq_iff ha hb (hall a ha).1 (hall b hb).1
    · exact (entSelf_iff (hbuilt a ha) hrank).2 (hall a ha).2

/-- A server that has just started, before the first call. -/
def Asked.start (conf : Conf) (ssd : SSpace) (rank : Nat) : Asked :=
  ⟨(Group.init conf fun _ => ssd).server rank, []⟩

/-- For every server, whatever its default dimensions are, and every sequence of `lookup_sspace` calls that
return: the spaces are the ones of the global dimensions iff no call agrees with the default dimensions
as far as it goes and has another number of them, and none gets a v0 space on a server other than `0`. -/
theorem lookups_chosenByDims_iff {ssd : SSpace}
    (hssd : conf.spaceFor hilbertC2i uninit conf.defaultGdim = some ssd) (hrank : rank < conf.sizeSp)
    {gdims : List GlobalDimension} (hdims : ∀ gd ∈ gdims, gd.ndim ≤ BBOX_MAX_NDIM) {s : Asked}
    (hrun : (Asked.start conf ssd rank).lookups hilbertC2i uninit conf gdims = some s) :
    ChosenByDims rank s.answers ↔ ∀ gd ∈ gdims, conf.Distinct rank gd := by
  have hsv : ((Group.init conf fun _ => ssd).server rank).Ok hilbertC2i uninit conf rank :=
    Server.ok_init hssd
  have hstart : (Asked.start conf ssd rank).Ok hilbertC2i uninit conf rank :=
    ⟨hsv, by simp [Asked.start]⟩
  have hgdims : s.answers.map Prod.fst = gdims := Asked.lookups_gdims gdims _ s hrun
  have hmem : ∀ P : GlobalDimension → Prop, (∀ gd ∈ gdims, P gd) ↔ ∀ a ∈ s.answers, P a.1 := fun P => by
    rw [← hgdims, List.forall_mem_map]
  rw [hmem] at hdims
  rw [hmem]
  exact (hstart.lookups hrun).chosenByDims_iff hrank hdims

end Chosen

/-- Global dimensions of `ndim` sides of the same size. -/
def GlobalDimension.cube (ndim : Nat) (size : UInt64) : GlobalDimension where
  ndim := ndim
  sizes := Coord.ofFn fun i => if i < ndim then size else 0

/-- Two servers without remotes. -/
def pairConf (defaultGdim : GlobalDimension) : Conf where
  sizeSp := 2
  maxVersions := 1
  hashVersion := .auto
  defaultGdim := defaultGdim
  remotes := none

/-- Server `1` with the default dimensions `3`, asked for `5`, for `3 x 3` and for `5` again: the first and
the last call get the same space. -/
theorem lookups_chosenByDims_pair :
    ∃ ssd s, (pairConf (.cube 1 3)).spaceFor lineC2i (zeroed 0) (.cube 1 3) = some ssd ∧
      (Asked.start (pairConf (.cube 1 3)) ssd 1).lookups lineC2i (zeroed 0) (pairConf (.cube 1 3))
        [.cube 1 5, .cube 2 3, .cube 1 5] = some s ∧
      ChosenByDims 1 s.answers := by
  have hdims : ∀ gd ∈ [GlobalDimension.cube 1 5, .cube 2 3, .cube 1 5], gd.ndim ≤ BBOX_MAX_NDIM := by
    decide
  have hdistinct : ∀ gd ∈ [GlobalDimension.cube 1 5, .cube 2 3, .cube 1 5],
      (pairConf (.cube 1 3)).Distinct 1 gd := by
    unfold Conf.Distinct
    decide
  refine ⟨_, _, rfl, rfl, ?_⟩
  exact (@lookups_chosenByDims_iff lineC2i (zeroed 0) (pairConf (.cube 1 3)) 1 _ rfl (by decide) _ hdims _
    rfl).2 hdistinct

/-- With the default dimensions `3 x 3` a request for `3` gets the default space, of two dimensions; and
server `1` has no entry of its own in the space of the default dimensions `1`. -/
theorem not_chosenByDims_pair :
    (∃ ssd s, (pairConf (.cube 2 3)).spaceFor lineC2i (zeroed 0) (.cube 2 3) = some ssd ∧
      (Asked.start (pairConf (.cube 2 3)) ssd 0).lookups lineC2i (zeroed 0) (pairConf (.cube 2 3))
        [.cube 1 3] = some s ∧
      ¬ ChosenByDims 0 s.answers) ∧
    ∃ ssd s, (pairConf (.cube 1 1)).spaceFor lineC2i (zeroed 0) (.cube 1 1) = some ssd ∧
      (Asked.start (pairConf (.cube 1 1)) ssd 1).lookups lineC2i (zeroed 0) (pairConf (.cube 1 1))
        [.cube 1 1] = some s ∧
      ¬ ChosenByDims 1 s.answers := by
  refine ⟨⟨_, _, rfl, rfl, fun h => ?_⟩, _, _, rfl, rfl, fun h => ?_⟩
  · have hdims := h.dims _ (List.mem_singleton_self _)
    exact absurd hdims (by decide)
  · obtain ⟨de, hde, -⟩ := h.self _ (List.mem_singleton_self _)
    cases hde

/-! ## Does making a space end? -/

section Ends

variable {hilbertC2i : HilbertC2i} {dom : BBox} {numNodes maxVersions : Nat} {hashVersion : HashVersion}

theorem gdimDomain_origin {gdim : GlobalDimension} (hmax : gdim.ndim ≤ BBOX_MAX_NDIM) :
    ∀ j < (gdimDomain gdim).numDims, (gdimDomain gdim).lb.c j = 0 := by
  intro j hj
  have hlt : j < BBOX_MAX_NDIM := lt_of_lt_of_le hj hmax
  simp [gdimDomain, Coord.c_ofFn _ hlt]

theorem gdimDomain_valid {gdim : GlobalDimension} (hpos : 1 ≤ gdim.ndim) (hmax : gdim.ndim ≤ BBOX_MAX_NDIM) :
    (gdimDomain gdim).Valid := by
  refine ⟨⟨hpos, hmax⟩, fun i hi => UInt64.le_iff_toNat_le.2 ?_⟩
  rw [gdimDomain_origin hmax i hi]
  exact Nat.zero_le _

/-- On a curve `ssd_alloc_v1` returns and its calls fit, for every content of memory, iff the virtual cube
covers the domain. -/
theorem ssdAllocV1_ends_iff (hdom : dom.Valid) (horigin : ∀ j < dom.numDims, dom.lb.c j = 0)
    (hpos : 1 ≤ numNodes) (hint : numNodes < 2 ^ 31)
    (hcurve : ∀ n, 1 ≤ n → dom.numDims * n ≤ 64 → HilbertCurve hilbertC2i dom.numDims n) :
    ((∀ uninit, (ssdAllocV1 hilbertC2i uninit dom numNodes maxVersions).isSome) ∧
      ∀ maxDim, nextPow2V2 (maxUb dom) = some maxDim → CallsFit dom maxDim) ↔ Coverable dom := by
  constructor
  · rintro ⟨hsome, hfit⟩
    obtain ⟨ss, hss⟩ := Option.isSome_iff_exists.1 (hsome ⟨0, 0⟩)
    obtain ⟨p, hp, hrest⟩ := Option.bind_eq_some_iff.1 hss
    obtain ⟨entTab, hconstr, hrest⟩ := Option.bind_eq_some_iff.1 hrest
    obtain ⟨tab, htab, -⟩ := Option.bind_eq_some_iff.1 hconstr
    obtain ⟨k, hk, hpk, -, -⟩ := nextPow2V2_some hp
    have hqueues := ((bboxToIntv_iff hdom (CubeDims.of_valid hdom hpk) hpk).1 htab).2
    have hbits := bits_of_callsFit hdom hpk (meets_bbVirt_of_origin horigin p) (hfit p hp)
    have hmax : ss.maxDim = p := by
      cases hrest
      rfl
    -- a space that is returned has its domain below the side
    have hbelow := ub_lt_of_ssdAllocV1 hdom horigin hpos hint hss (by
      rw [hmax, computeBits_two_pow hpk hk]
      exact hcurve (k + 1) (Nat.succ_pos k) hbits)
    rw [hmax, ub_lt_iff_top_lt hdom.dims.1] at hbelow
    refine ⟨(bits_le_iff hdom.dims hp hpk hbelow).1 hbits, (top_lt_iff hdom.dims.1 hp).1 hbelow, ?_⟩
    rwa [← eq_cubeSide hdom.dims.1 hp]
  · intro h
    obtain ⟨p, k, hp, hpk, hbelow, hbits, hqueues⟩ := h.side hdom
    refine ⟨fun uninit => ?_, fun maxDim hmaxDim => ?_⟩
    · obtain ⟨tab, -, -, hents⟩ := dhtConstructHash_isSome hdom hpk hbelow
        (hcurve (k + 1) (Nat.succ_pos k) hbits) hqueues uninit
      obtain ⟨ents, hents⟩ := hents numNodes hint
      rw [ssdAllocV1, hp, Option.bind_eq_bind, Option.bind_some, hents]
      rfl
    · obtain rfl : p = maxDim := Option.some.inj (hp.symm.trans hmaxDim)
      exact callsFit_of_bits hdom hpk hbits

end Ends

end DataSpaces
