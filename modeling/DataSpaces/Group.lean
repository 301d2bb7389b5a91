import DataSpaces.Lib.Runs
import DataSpaces.Server

/-!
# Group — what the servers of a group agree on

All servers make their spaces from the same configuration, so that the space for given global
dimensions is the same everywhere (`Conf.spaceFor`), whether a server has it already or makes it when
it is first asked.  What matters of the list of spaces is the table that a server has for the global
dimensions (`Server.tableOf`): a lookup changes no table.
-/

namespace DataSpaces

theorem globalDimensionEqual_iff {gdim1 gdim2 : GlobalDimension} :
    globalDimensionEqual gdim1 gdim2 = true ↔ ∀ i < gdim1.ndim, gdim1.sizes.c i = gdim2.sizes.c i := by
  simp [globalDimensionEqual]

/-- The same number of dimensions of the same sizes. -/
def GlobalDimension.Same (gdim1 gdim2 : GlobalDimension) : Prop :=
  gdim1.ndim = gdim2.ndim ∧ ∀ i < gdim1.ndim, gdim1.sizes.c i = gdim2.sizes.c i

theorem GlobalDimension.Same.symm {gdim1 gdim2 : GlobalDimension} (h : gdim1.Same gdim2) :
    gdim2.Same gdim1 :=
  ⟨h.1.symm, fun i hi => (h.2 i (h.1 ▸ hi)).symm⟩

theorem GlobalDimension.Same.globalDimensionEqual {gdim1 gdim2 : GlobalDimension}
    (h : gdim1.Same gdim2) (gdim : GlobalDimension) :
    globalDimensionEqual gdim1 gdim = globalDimensionEqual gdim2 gdim := by
  rw [Bool.eq_iff_iff, globalDimensionEqual_iff, globalDimensionEqual_iff, ← h.1]
  refine forall₂_congr fun i hi => ?_
  rw [h.2 i hi]

theorem listed_iff {gdim1 gdim2 : GlobalDimension} :
    (gdim1.ndim == gdim2.ndim && globalDimensionEqual gdim1 gdim2) = true ↔ gdim1.Same gdim2 := by
  rw [Bool.and_eq_true, beq_iff_eq, globalDimensionEqual_iff]
  rfl

theorem gdimDomain_congr {gdim1 gdim2 : GlobalDimension} (h : gdim1.Same gdim2) :
    gdimDomain gdim1 = gdimDomain gdim2 := by
  have hub : (fun i => if i < gdim1.ndim then gdim1.sizes.c i - 1 else 0) =
      fun i => if i < gdim2.ndim then gdim2.sizes.c i - 1 else 0 := by
    funext i
    rw [← h.1]
    split
    · next hi => rw [h.2 i hi]
    · rfl
  rw [gdimDomain, gdimDomain, hub, h.1]

/-- The domain that all servers use for the global dimensions. -/
def Conf.domainFor (conf : Conf) (gdim : GlobalDimension) : BBox :=
  if globalDimensionEqual gdim conf.defaultGdim then gdimDomain conf.defaultGdim
  else gdimDomain gdim

section Entry

variable (e : SpaceEntry) (id : Nat) (table : DhtTable)

@[simp] theorem SpaceEntry.id_setEntSelf : (e.setEntSelf id table).id = e.id := by
  rw [SpaceEntry.setEntSelf]
  split <;> rfl

@[simp] theorem SpaceEntry.gdim_setEntSelf : (e.setEntSelf id table).gdim = e.gdim := by
  rw [SpaceEntry.setEntSelf]
  split <;> rfl

@[simp] theorem SpaceEntry.ssd_setEntSelf : (e.setEntSelf id table).ssd = e.ssd := by
  rw [SpaceEntry.setEntSelf]
  split <;> rfl

end Entry

section Space

variable (hilbertC2i : HilbertC2i) (uninit : Unwritten) (conf : Conf)

/-- The space that a server uses for the global dimensions. -/
def Conf.spaceFor (gdim : GlobalDimension) : Option SSpace :=
  ssdAlloc hilbertC2i uninit.alloc (conf.domainFor gdim) conf.sizeSp conf.maxVersions conf.hashVersion

/-- The table that a server has for the global dimensions; one without entries before the first
request. -/
def Server.tableOf (sv : Server) (gdim : GlobalDimension) : DhtTable :=
  match sv.findSspace gdim with
  | some e => e.entSelf
  | none => dhtEntryAlloc conf.maxVersions

/-- The number of the space for the global dimensions, also when it is still to be made. -/
def Server.spaceId (sv : Server) (gdim : GlobalDimension) : Nat :=
  match sv.findSspace gdim with
  | some e => e.id
  | none => sv.sspaceList.length + 1

/-- A server of the group: its spaces are those of the configuration, and their numbers are
distinct. -/
structure Server.Ok (rank : Nat) (sv : Server) : Prop where
  rank : sv.rank = rank
  dflt_id : sv.dflt.id = 0
  dflt_gdim : sv.dflt.gdim = conf.defaultGdim
  dflt_ssd : ssdAlloc hilbertC2i uninit.alloc (gdimDomain conf.defaultGdim) conf.sizeSp conf.maxVersions
    conf.hashVersion = some sv.dflt.ssd
  ids : (sv.sspaceList.map SpaceEntry.id).Nodup
  numbered : ∀ e ∈ sv.sspaceList, 0 < e.id ∧ e.id ≤ sv.sspaceList.length
  listed : ∀ e ∈ sv.sspaceList, ssdAlloc hilbertC2i uninit.alloc (gdimDomain e.gdim) conf.sizeSp
    conf.maxVersions conf.hashVersion = some e.ssd

/-- What a lookup leaves alone. -/
structure Server.SameStore (sv sv' : Server) : Prop where
  rank : sv'.rank = sv.rank
  ls : sv'.ls = sv.ls
  ps : sv'.ps = sv.ps
  sfcHash : sv'.sfcHash = sv.sfcHash

variable {hilbertC2i uninit conf}

namespace Server

variable {sv sv' : Server} {rank : Nat} {gdim : GlobalDimension} {e : SpaceEntry}

/-- Storage and cache do not matter. -/
theorem Ok.congr (h : sv.Ok hilbertC2i uninit conf rank) (hrank : sv'.rank = sv.rank)
    (hdflt : sv'.dflt = sv.dflt) (hlist : sv'.sspaceList = sv.sspaceList) :
    sv'.Ok hilbertC2i uninit conf rank := by
  refine ⟨hrank.trans h.rank, ?_, ?_, ?_, ?_, ?_, ?_⟩
  · rw [hdflt, h.dflt_id]
  · rw [hdflt, h.dflt_gdim]
  · rw [hdflt, h.dflt_ssd]
  · rw [hlist]
    exact h.ids
  · rw [hlist]
    exact h.numbered
  · rw [hlist]
    exact h.listed

/-- A space the server has is the one of the configuration. -/
theorem Ok.spaceFor (h : sv.Ok hilbertC2i uninit conf rank) (hfind : sv.findSspace gdim = some e) :
    conf.spaceFor hilbertC2i uninit gdim = some e.ssd := by
  rw [findSspace, h.dflt_gdim] at hfind
  rw [Conf.spaceFor, Conf.domainFor]
  split at hfind
  · next hd =>
      cases hfind
      rw [if_pos hd]
      exact h.dflt_ssd
  · next hd =>
      have hsame : (gdim.ndim == e.gdim.ndim && globalDimensionEqual gdim e.gdim) = true := by
        simpa only using List.find?_some hfind
      rw [if_neg hd, gdimDomain_congr (listed_iff.1 hsame)]
      exact h.listed e (List.mem_of_find?_eq_some hfind)

/-- When the server has no space for the global dimensions, the configuration makes one. -/
theorem domainFor_of_none (hg : sv.dflt.gdim = conf.defaultGdim) (hfind : sv.findSspace gdim = none) :
    conf.domainFor gdim = gdimDomain gdim := by
  rw [findSspace, hg] at hfind
  rw [Conf.domainFor]
  split at hfind
  · cases hfind
  · next hd => rw [if_neg hd]

theorem findSspace_congr {gdim' : GlobalDimension} (h : gdim.Same gdim') :
    sv.findSspace gdim = sv.findSspace gdim' := by
  simp only [findSspace, h.globalDimensionEqual, h.1]

/-- The entry that a lookup returns, and the server after it. -/
structure Looked (conf : Conf) (sv : Server) (gdim : GlobalDimension) (ssd : SSpace) (sv' : Server)
    (e : SpaceEntry) : Prop where
  found : sv'.findSspace gdim = some e
  id : e.id = sv.spaceId gdim
  ssd : e.ssd = ssd
  entSelf : e.entSelf = sv.tableOf conf gdim
  same : sv.SameStore sv'
  tables : ∀ gd, sv'.tableOf conf gd = sv.tableOf conf gd

/-- A lookup returns the space of the configuration and the table for it. -/
theorem lookupSspace_spec (h : sv.Ok hilbertC2i uninit conf rank) {ssd : SSpace}
    (hssd : conf.spaceFor hilbertC2i uninit gdim = some ssd) :
    ∃ sv' e, lookupSspace hilbertC2i uninit conf sv gdim = some (sv', e) ∧
      sv'.Ok hilbertC2i uninit conf rank ∧ Looked conf sv gdim ssd sv' e := by
  cases hfind : sv.findSspace gdim with
  | some e =>
      refine ⟨sv, e, by simp only [lookupSspace, hfind], h, hfind, ?_, ?_, ?_, ⟨rfl, rfl, rfl, rfl⟩,
        fun _ => rfl⟩
      · simp only [spaceId, hfind]
      · rw [h.spaceFor hfind, Option.some.injEq] at hssd
        exact hssd
      · simp only [tableOf, hfind]
  | none =>
      rw [Conf.spaceFor, domainFor_of_none h.dflt_gdim hfind] at hssd
      -- the new entry goes to the head of the list
      have hdflt : globalDimensionEqual gdim sv.dflt.gdim = false := by
        rw [findSspace] at hfind
        split at hfind
        · cases hfind
        · next hd => simpa using hd
      refine ⟨{ sv with sspaceList :=
          ⟨sv.sspaceList.length + 1, gdim, ssd, dhtEntryAlloc conf.maxVersions⟩ :: sv.sspaceList },
        ⟨sv.sspaceList.length + 1, gdim, ssd, dhtEntryAlloc conf.maxVersions⟩,
        by simp only [lookupSspace, hfind, hssd, Option.map_some], ?_, ?_, ?_, rfl, ?_,
        ⟨rfl, rfl, rfl, rfl⟩, fun gd => ?_⟩
      · refine ⟨h.rank, h.dflt_id, h.dflt_gdim, h.dflt_ssd, ?_, ?_, ?_⟩
        · refine List.nodup_cons.2 ⟨fun hmem => ?_, h.ids⟩
          rcases List.mem_map.1 hmem with ⟨e, he, hid⟩
          have hle := (h.numbered e he).2
          rw [hid] at hle
          exact absurd hle (by simp)
        · intro e he
          rcases List.mem_cons.1 he with rfl | he
          · exact ⟨Nat.succ_pos _, le_refl _⟩
          · exact ⟨(h.numbered e he).1, (h.numbered e he).2.trans (Nat.le_succ _)⟩
        · intro e he
          rcases List.mem_cons.1 he with rfl | he
          · exact hssd
          · exact h.listed e he
      · have hself : (gdim.ndim == gdim.ndim && globalDimensionEqual gdim gdim) = true :=
          listed_iff.2 ⟨rfl, fun _ _ => rfl⟩
        simp only [findSspace, hdflt, List.find?_cons, hself, Bool.false_eq_true, if_false]
      · simp only [spaceId, hfind]
      · simp only [tableOf, hfind]
      · -- who finds the new entry had none before
        simp only [tableOf, findSspace]
        by_cases hd : globalDimensionEqual gd sv.dflt.gdim = true
        · simp only [hd, if_true]
        · simp only [hd, List.find?_cons]
          by_cases hnew : (gd.ndim == gdim.ndim && globalDimensionEqual gd gdim) = true
          · have hnone : sv.findSspace gd = sv.findSspace gdim :=
              findSspace_congr (listed_iff.1 hnew)
            rw [hfind, findSspace, if_neg hd] at hnone
            simp only [hnew, hnone]
            rfl
          · simp only [hnew]

/-- A lookup that returns has found or made the space of the configuration. -/
theorem lookupSspace_cases (h : sv.Ok hilbertC2i uninit conf rank)
    (hlook : lookupSspace hilbertC2i uninit conf sv gdim = some (sv', e)) :
    sv'.Ok hilbertC2i uninit conf rank ∧
      ∃ ssd, conf.spaceFor hilbertC2i uninit gdim = some ssd ∧ Looked conf sv gdim ssd sv' e := by
  have hspace : ∃ ssd, conf.spaceFor hilbertC2i uninit gdim = some ssd := by
    cases hfind : sv.findSspace gdim with
    | some e' => exact ⟨_, h.spaceFor hfind⟩
    | none =>
        simp only [lookupSspace, hfind] at hlook
        rcases Option.map_eq_some_iff.1 hlook with ⟨ssd, hssd, -⟩
        exact ⟨ssd, by rw [Conf.spaceFor, domainFor_of_none h.dflt_gdim hfind, hssd]⟩
  rcases hspace with ⟨ssd, hssd⟩
  rcases lookupSspace_spec h hssd with ⟨sv'', e', hlook', hok, hspec⟩
  rw [hlook, Option.some.injEq, Prod.mk.injEq] at hlook'
  rcases hlook' with ⟨rfl, rfl⟩
  exact ⟨hok, ssd, hssd, hspec⟩

/-- A new table for a space leaves the server in order. -/
theorem Ok.setEntSelf (h : sv.Ok hilbertC2i uninit conf rank) (id : Nat) (table : DhtTable) :
    (sv.setEntSelf id table).Ok hilbertC2i uninit conf rank := by
  refine ⟨h.rank, ?_, ?_, ?_, ?_, ?_, ?_⟩
  · rw [Server.setEntSelf, SpaceEntry.id_setEntSelf, h.dflt_id]
  · rw [Server.setEntSelf, SpaceEntry.gdim_setEntSelf, h.dflt_gdim]
  · rw [Server.setEntSelf, SpaceEntry.ssd_setEntSelf, h.dflt_ssd]
  · simp only [Server.setEntSelf, List.map_map, Function.comp_def, SpaceEntry.id_setEntSelf]
    exact h.ids
  · intro e he
    rcases List.mem_map.1 he with ⟨e', he', rfl⟩
    simp only [Server.setEntSelf, List.length_map, SpaceEntry.id_setEntSelf]
    exact h.numbered e' he'
  · intro e he
    rcases List.mem_map.1 he with ⟨e', he', rfl⟩
    rw [SpaceEntry.gdim_setEntSelf, SpaceEntry.ssd_setEntSelf]
    exact h.listed e' he'

/-- The table that was set is found again. -/
theorem tableOf_setEntSelf (hfind : sv.findSspace gdim = some e) (table : DhtTable) :
    (sv.setEntSelf e.id table).tableOf conf gdim = table := by
  have hset : (e.setEntSelf e.id table).entSelf = table := by
    rw [SpaceEntry.setEntSelf, if_pos rfl]
  rw [findSspace] at hfind
  simp only [tableOf, findSspace, setEntSelf, SpaceEntry.gdim_setEntSelf]
  split at hfind
  · next hd =>
      cases hfind
      simp only [hd, if_true]
      exact hset
  · next hd =>
      simp only [hd, List.find?_map, Function.comp_def, SpaceEntry.gdim_setEntSelf, hfind]
      exact hset

end Server

end Space

/-! ## Asking the servers -/

section Ask

variable (hilbertC2i : HilbertC2i) (uninit : Nat → Unwritten) (conf : Conf)

def Group.Ok (g : Group) : Prop :=
  ∀ rank, (g.server rank).Ok hilbertC2i (uninit rank) conf rank

/-- The spaces that the servers use for the global dimensions.  They differ at most in what was read for
entries without intervals. -/
def Conf.SpacesFor (gdim : GlobalDimension) (spaces : Nat → SSpace) : Prop :=
  ∀ rank, conf.spaceFor hilbertC2i (uninit rank) gdim = some (spaces rank)

/-- The storage and the tables of all servers are the same, and so are the updates on their way. -/
structure Group.SameData (g g' : Group) : Prop where
  ls : ∀ rank, (g'.server rank).ls = (g.server rank).ls
  tables : ∀ rank gdim, (g'.server rank).tableOf conf gdim = (g.server rank).tableOf conf gdim
  net : g'.net = g.net

/-- The answer of a server, from its space and its table in it. -/
def answer (spaces : Nat → SSpace) (tables : Nat → DhtTable) (qOdsc : ObjDesc) (timeout : Int) (rank : Nat) :
    Option (List ObjDesc) :=
  Server.findOdscs hilbertC2i (uninit rank) (spaces rank) (tables rank) rank qOdsc timeout

/-- The servers that `ssd_hash` selects at a server. -/
def Server.hashRanks (uninit : Unwritten) (sv : Server) (gdim : GlobalDimension) (ssd : SSpace) (bb : BBox) :
    Option (List Nat) :=
  (hashAt hilbertC2i uninit (sv.spaceId gdim) ssd bb sv.sfcHash).map fun r => r.1.map DePtr.rank

/-- Who answers a query when `ssd_hash` selects the given servers. -/
def askedRanks (self : Nat) (ranks : List Nat) : List Nat :=
  if ranks.isEmpty then [self] else ranks

variable {hilbertC2i uninit conf} {g g' : Group} {gdim : GlobalDimension} {spaces : Nat → SSpace}

theorem Group.SameData.trans {g'' : Group} (h : g.SameData conf g') (h' : g'.SameData conf g'') :
    g.SameData conf g'' where
  ls rank := (h'.ls rank).trans (h.ls rank)
  tables rank gdim := (h'.tables rank gdim).trans (h.tables rank gdim)
  net := h'.net.trans h.net

theorem Group.Ok.setServer (h : g.Ok hilbertC2i uninit conf) {rank : Nat} {sv : Server}
    (hsv : sv.Ok hilbertC2i (uninit rank) conf rank) : (g.setServer rank sv).Ok hilbertC2i uninit conf := by
  intro rank'
  rw [Group.setServer]
  by_cases hr : rank' = rank
  · subst hr
    simpa using hsv
  · simpa [Function.update_of_ne hr] using h rank'

/-- A server that only made a space is as good as before. -/
theorem Group.sameData_setServer {rank : Nat} {sv : Server} (hls : sv.ls = (g.server rank).ls)
    (htables : ∀ gd, sv.tableOf conf gd = (g.server rank).tableOf conf gd) :
    g.SameData conf (g.setServer rank sv) := by
  refine ⟨fun rank' => ?_, fun rank' gd => ?_, rfl⟩
  all_goals
    simp only [Group.setServer, Function.update_apply]
    split
  · next hr => rw [hr, hls]
  · rfl
  · next hr => rw [hr, htables]
  · rfl

/-- Every server answers from its own table, whoever asks. -/
theorem askPeers_spec (hssd : conf.SpacesFor hilbertC2i uninit gdim spaces) {self : Nat} {e : SpaceEntry}
    (he : e.ssd = spaces self) {tables : Nat → DhtTable} (hself : e.entSelf = tables self)
    (qOdsc : ObjDesc) (timeout : Int) (ranks : List Nat) :
    ∀ g : Group, g.Ok hilbertC2i uninit conf →
      (∀ rank, (g.server rank).tableOf conf gdim = tables rank) →
      match ranks.mapM (answer hilbertC2i uninit spaces tables qOdsc timeout) with
      | none => askPeers hilbertC2i uninit conf self e qOdsc gdim timeout ranks g = none
      | some tabs => ∃ g', askPeers hilbertC2i uninit conf self e qOdsc gdim timeout ranks g =
          some (tabs, g') ∧ g'.Ok hilbertC2i uninit conf ∧ g.SameData conf g' := by
  induction ranks with
  | nil =>
      intro g hok _
      exact ⟨g, rfl, hok, ⟨fun _ => rfl, fun _ _ => rfl, rfl⟩⟩
  | cons rank ranks ih =>
      intro g hok htables
      rw [List.mapM_cons]
      by_cases hr : rank = self
      · -- the server asks itself
        have hans : Server.findOdscs hilbertC2i (uninit self) e.ssd e.entSelf self qOdsc timeout =
            answer hilbertC2i uninit spaces tables qOdsc timeout rank := by
          rw [answer, he, hself, hr]
        have hrest := ih g hok htables
        rw [askPeers, if_pos hr, hans]
        cases answer hilbertC2i uninit spaces tables qOdsc timeout rank with
        | none => rfl
        | some odscs =>
            cases htabs : ranks.mapM (answer hilbertC2i uninit spaces tables qOdsc timeout) with
            | none =>
                rw [htabs] at hrest
                simp only [Option.bind_eq_bind, Option.bind_some, hrest]
                rfl
            | some tabs =>
                rw [htabs] at hrest
                rcases hrest with ⟨g', hask, hok', hsame⟩
                refine ⟨g', ?_, hok', hsame⟩
                simp only [Option.bind_eq_bind, Option.bind_some, hask]
                rfl
      · rcases Server.lookupSspace_spec (hok rank) (hssd rank) with ⟨sv, e', hlook, hsv, hspec⟩
        have hans : Server.odscInternalRpc hilbertC2i (uninit rank) conf (g.server rank) qOdsc gdim timeout =
            (answer hilbertC2i uninit spaces tables qOdsc timeout rank).map fun odscs => (odscs, sv) := by
          have hrank : sv.rank = rank := hsv.rank
          rw [Server.odscInternalRpc, hlook]
          simp only [Option.bind_eq_bind, Option.bind_some, hspec.ssd, hspec.entSelf, htables, hrank,
            answer]
          cases Server.findOdscs hilbertC2i (uninit rank) (spaces rank) (tables rank) rank qOdsc timeout <;> rfl
        have hquiet : g.SameData conf (g.setServer rank sv) :=
          Group.sameData_setServer hspec.same.ls hspec.tables
        have hrest := ih (g.setServer rank sv) (hok.setServer hsv) fun rank' => by
          rw [hquiet.tables, htables]
        rw [askPeers, if_neg hr, hans]
        cases answer hilbertC2i uninit spaces tables qOdsc timeout rank with
        | none => rfl
        | some odscs =>
            cases htabs : ranks.mapM (answer hilbertC2i uninit spaces tables qOdsc timeout) with
            | none =>
                rw [htabs] at hrest
                simp only [Option.map_some, Option.bind_eq_bind, Option.bind_some, hrest]
                rfl
            | some tabs =>
                rw [htabs] at hrest
                rcases hrest with ⟨g', hask, hok', hsame⟩
                refine ⟨g', ?_, hok', hquiet.trans hsame⟩
                simp only [Option.map_some, Option.bind_eq_bind, Option.bind_some, hask]
                rfl

/-- What a query returns at a server that handles it itself. -/
def queryAnswer (hilbertC2i : HilbertC2i) (uninit : Nat → Unwritten) (conf : Conf) (g : Group) (self : Nat)
    (spaces : Nat → SSpace) (qOdsc : ObjDesc) (gdim : GlobalDimension) (timeout : Int) :
    Option (List ObjDesc) :=
  ((g.server self).hashRanks hilbertC2i (uninit self) gdim (spaces self) qOdsc.bb).bind fun ranks =>
    ((askedRanks self ranks).mapM (answer hilbertC2i uninit spaces
      (fun rank => (g.server rank).tableOf conf gdim) qOdsc timeout)).map fun tabs =>
        dedup tabs.flatten

/-- `get_query_odscs` merges the answers of the selected servers and changes no data. -/
theorem getQueryOdscs_local (hok : g.Ok hilbertC2i uninit conf)
    (hssd : conf.SpacesFor hilbertC2i uninit gdim spaces) {self : Nat} {qOdsc : ObjDesc}
    (hlocal : (g.server self).localResponsibility conf qOdsc = true) (timeout : Int) :
    match queryAnswer hilbertC2i uninit conf g self spaces qOdsc gdim timeout with
    | none => getQueryOdscs hilbertC2i uninit conf g self qOdsc gdim timeout = none
    | some odscs => ∃ g', getQueryOdscs hilbertC2i uninit conf g self qOdsc gdim timeout =
        some (odscs, g') ∧ g'.Ok hilbertC2i uninit conf ∧ g.SameData conf g' := by
  rcases Server.lookupSspace_spec (hok self) (hssd self) with ⟨sv, e, hlook, hsv, hspec⟩
  have hhash : hashAt hilbertC2i (uninit self) e.id e.ssd qOdsc.bb sv.sfcHash =
      hashAt hilbertC2i (uninit self) ((g.server self).spaceId gdim) (spaces self) qOdsc.bb
        (g.server self).sfcHash := by
    rw [hspec.id, hspec.ssd, hspec.same.sfcHash]
  simp only [getQueryOdscs, hlocal, if_true, hlook, Option.bind_eq_bind, Option.bind_some, hhash,
    queryAnswer, Server.hashRanks]
  cases hashAt hilbertC2i (uninit self) ((g.server self).spaceId gdim) (spaces self) qOdsc.bb
      (g.server self).sfcHash with
  | none => rfl
  | some r =>
      rcases r with ⟨deTab, sfc⟩
      simp only [Option.map_some, Option.bind_some]
      -- hashing fills the cache of the server that was asked and nothing else
      have hsv' : Server.Ok hilbertC2i (uninit self) conf self { sv with sfcHash := sfc } :=
        hsv.congr rfl rfl rfl
      have hquiet : g.SameData conf (g.setServer self { sv with sfcHash := sfc }) :=
        Group.sameData_setServer hspec.same.ls hspec.tables
      have hranks : askedRanks self (deTab.map DePtr.rank) =
          if deTab.isEmpty then [self] else deTab.map DePtr.rank := by
        cases deTab <;> rfl
      -- the server that asks answers itself from the entry that the lookup returned
      have hask := askPeers_spec hssd hspec.ssd
        (show e.entSelf = (fun rank => (g.server rank).tableOf conf gdim) self from hspec.entSelf)
        qOdsc timeout (askedRanks self (deTab.map DePtr.rank)) _ (hok.setServer hsv')
        fun rank => hquiet.tables rank gdim
      rw [← hranks]
      cases htabs : (askedRanks self (deTab.map DePtr.rank)).mapM (answer hilbertC2i uninit spaces
          (fun rank => (g.server rank).tableOf conf gdim) qOdsc timeout) with
      | none =>
          rw [htabs] at hask
          simp only [hask, Option.map_none, Option.bind_none]
      | some tabs =>
          rw [htabs] at hask
          rcases hask with ⟨g', hask, hok', hsame⟩
          refine ⟨g', ?_, hok', hquiet.trans hsame⟩
          simp only [hask, Option.bind_some]
          rfl

end Ask

/-! ## Runs -/

section Runs

section Server

variable {hilbertC2i : HilbertC2i} {uninit : Unwritten} {conf : Conf}

theorem Server.Ok.objUpdateLocalDht {sv sv' : Server} {rank : Nat} {e : SpaceEntry} {odsc : ObjDesc}
    (h : sv.Ok hilbertC2i uninit conf rank)
    (hupd : Server.objUpdateLocalDht hilbertC2i uninit sv e odsc = some sv') :
    sv'.Ok hilbertC2i uninit conf rank := by
  rcases Option.map_eq_some_iff.1 hupd with ⟨r, -, rfl⟩
  exact h.setEntSelf e.id r.1

theorem Server.Ok.distribute {rank : Nat} {odsc : ObjDesc} {gdim : GlobalDimension} {e : SpaceEntry}
    (ranks : List Nat) :
    ∀ (sv : Server) (r : Server × List UpdateMsg), sv.Ok hilbertC2i uninit conf rank →
      Server.distribute hilbertC2i uninit odsc gdim e ranks sv = some r →
      r.1.Ok hilbertC2i uninit conf rank := by
  induction ranks with
  | nil =>
      intro sv r h hdist
      cases hdist
      exact h
  | cons dest ranks ih =>
      intro sv r h hdist
      rw [Server.distribute] at hdist
      split at hdist
      · rcases Option.bind_eq_some_iff.1 hdist with ⟨sv', hupd, hdist⟩
        exact ih sv' r (h.objUpdateLocalDht hupd) hdist
      · rcases Option.bind_eq_some_iff.1 hdist with ⟨r', hrest, hr⟩
        cases hr
        exact ih sv r' h hrest

theorem Server.Ok.objUpdateDht {sv : Server} {rank : Nat} {odsc : ObjDesc} {gdim : GlobalDimension}
    {r : Server × List UpdateMsg} (h : sv.Ok hilbertC2i uninit conf rank)
    (hupd : Server.objUpdateDht hilbertC2i uninit conf sv odsc gdim = some r) :
    r.1.Ok hilbertC2i uninit conf rank := by
  rcases Option.bind_eq_some_iff.1 hupd with ⟨⟨sv', e⟩, hlook, hupd⟩
  rcases Option.bind_eq_some_iff.1 hupd with ⟨⟨dhtTab, sfc⟩, -, hupd⟩
  have hsv' := (Server.lookupSspace_cases h hlook).1
  have hsfc : Server.Ok hilbertC2i uninit conf rank { sv' with sfcHash := sfc } :=
    hsv'.congr rfl rfl rfl
  simp only at hupd
  split at hupd
  · rcases Option.bind_eq_some_iff.1 hupd with ⟨sv'', hlocal, hupd⟩
    cases hupd
    exact hsfc.objUpdateLocalDht hlocal
  · exact Server.Ok.distribute _ _ r hsfc hupd

theorem Server.ok_init {spaces : Nat → SSpace} {rank : Nat}
    (hssd : conf.spaceFor hilbertC2i uninit conf.defaultGdim = some (spaces rank)) :
    ((Group.init conf spaces).server rank).Ok hilbertC2i uninit conf rank := by
  have hself : globalDimensionEqual conf.defaultGdim conf.defaultGdim = true :=
    globalDimensionEqual_iff.2 fun _ _ => rfl
  rw [Conf.spaceFor, Conf.domainFor, if_pos hself] at hssd
  exact ⟨rfl, rfl, rfl, hssd, List.nodup_nil, by simp [Group.init], by simp [Group.init]⟩

end Server

variable {hilbertC2i : HilbertC2i} {uninit : Nat → Unwritten} {conf : Conf} {g g' : Group}

/-- The servers that are asked look up the space and change nothing else. -/
theorem Group.Ok.askPeers {self : Nat} {e : SpaceEntry} {qOdsc : ObjDesc} {gdim : GlobalDimension}
    {timeout : Int} (ranks : List Nat) : ∀ {g : Group} {r : List (List ObjDesc) × Group},
      g.Ok hilbertC2i uninit conf →
      askPeers hilbertC2i uninit conf self e qOdsc gdim timeout ranks g = some r →
      r.2.Ok hilbertC2i uninit conf := by
  induction ranks with
  | nil =>
      intro g r h hask
      cases hask
      exact h
  | cons rank ranks ih =>
      intro g r h hask
      rw [DataSpaces.askPeers] at hask
      split at hask
      · rcases Option.bind_eq_some_iff.1 hask with ⟨odscs, -, hask⟩
        rcases Option.bind_eq_some_iff.1 hask with ⟨r', hrest, hr⟩
        cases hr
        exact ih (r := r') h hrest
      · rcases Option.bind_eq_some_iff.1 hask with ⟨⟨odscs, sv⟩, hrpc, hask⟩
        rcases Option.bind_eq_some_iff.1 hask with ⟨r', hrest, hr⟩
        cases hr
        rcases Option.bind_eq_some_iff.1 hrpc with ⟨⟨sv', e'⟩, hlook, hrpc⟩
        rcases Option.bind_eq_some_iff.1 hrpc with ⟨odscs', -, hr'⟩
        cases hr'
        exact ih (r := r') (h.setServer (Server.lookupSspace_cases (h rank) hlook).1) hrest

/-- A query leaves all servers in order. -/
theorem Group.Ok.getQueryOdscs {self : Nat} {qOdsc : ObjDesc} {gdim : GlobalDimension} {timeout : Int}
    {r : List ObjDesc × Group} (h : g.Ok hilbertC2i uninit conf)
    (hquery : getQueryOdscs hilbertC2i uninit conf g self qOdsc gdim timeout = some r) :
    r.2.Ok hilbertC2i uninit conf := by
  rw [DataSpaces.getQueryOdscs] at hquery
  simp only at hquery
  split at hquery
  · rcases Option.bind_eq_some_iff.1 hquery with ⟨⟨sv, e⟩, hlook, hquery⟩
    rcases Option.bind_eq_some_iff.1 hquery with ⟨⟨deTab, sfc⟩, -, hquery⟩
    rcases Option.bind_eq_some_iff.1 hquery with ⟨r', hask, hr⟩
    cases hr
    have hsv := (Server.lookupSspace_cases (h self) hlook).1
    have hsfc : Server.Ok hilbertC2i (uninit self) conf self { sv with sfcHash := sfc } :=
      hsv.congr rfl rfl rfl
    exact Group.Ok.askPeers _ (h.setServer hsfc) hask
  · cases hquery
    refine h.setServer ?_
    rw [Server.queryRemotes]
    split
    · exact (h self).congr rfl rfl rfl
    · exact h self

/-- A step leaves all servers in order. -/
theorem Group.Ok.step (h : g.Ok hilbertC2i uninit conf) {ev : GroupEvent}
    (hstep : g.step hilbertC2i uninit conf ev = some g') : g'.Ok hilbertC2i uninit conf := by
  cases ev with
  | put rank odsc gdim data =>
      rcases Option.map_eq_some_iff.1 hstep with ⟨r, hput, rfl⟩
      rw [Server.putRpc] at hput
      refine h.setServer (Server.Ok.objUpdateDht ?_ hput)
      exact (h rank).congr rfl rfl rfl
  | deliver k =>
      rcases Option.bind_eq_some_iff.1 hstep with ⟨msg, -, hstep⟩
      rcases Option.map_eq_some_iff.1 hstep with ⟨sv, hupd, rfl⟩
      rcases Option.bind_eq_some_iff.1 hupd with ⟨⟨sv', e⟩, hlook, hupd⟩
      exact h.setServer ((Server.lookupSspace_cases (h msg.dest) hlook).1.objUpdateLocalDht hupd)
  | query rank qOdsc gdim =>
      rcases Option.map_eq_some_iff.1 hstep with ⟨r, hquery, rfl⟩
      exact h.getQueryOdscs hquery

theorem Group.isRun :
    Runs.IsRun (Group.step hilbertC2i uninit conf) (Group.run hilbertC2i uninit conf) :=
  ⟨fun _ => rfl, fun _ _ _ => rfl⟩

theorem Group.Ok.run (evs : List GroupEvent) :
    ∀ g g' : Group, g.Ok hilbertC2i uninit conf → g.run hilbertC2i uninit conf evs = some g' →
      g'.Ok hilbertC2i uninit conf :=
  Group.isRun.keeps (fun _ _ _ h hstep => h.step hstep) evs

theorem Group.ok_init {spaces : Nat → SSpace}
    (hspaces : conf.SpacesFor hilbertC2i uninit conf.defaultGdim spaces) :
    (Group.init conf spaces).Ok hilbertC2i uninit conf :=
  fun rank => Server.ok_init (hspaces rank)

end Runs

end DataSpaces
