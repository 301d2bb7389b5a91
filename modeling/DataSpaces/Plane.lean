import DataSpaces.Query

/-!
# Plane — a group seen through one space

As long as all requests come with the same global dimensions, what matters of a group is one storage
and one table for each server and the updates on their way.  `Plane` is that much of a group, with the
steps it takes: no lists of spaces, no hash cache, no subscriptions.  Every run of a group whose space is
cut up by bisection is a run of its plane (`Shows.run`).
-/

namespace DataSpaces

/-- The storage and the table of every server, and the updates on their way. -/
structure Plane where
  ls : Nat → SsStorage
  tab : Nat → DhtTable
  net : List UpdateMsg

/-- The descriptor of a put at a server. -/
def ObjDesc.ownedBy (odsc : ObjDesc) (rank : Nat) : ObjDesc :=
  { odsc with owner := .server rank }

namespace Plane

def init (conf : Conf) : Plane where
  ls _ := lsAlloc conf.maxVersions
  tab _ := dhtEntryAlloc conf.maxVersions
  net := []

/-- A put stores the object and the descriptor at the server itself, and sends the descriptor to the
other servers that own a part of the box. -/
def put (ssd : SSpace) (rank : Nat) (odsc : ObjDesc) (gdim : GlobalDimension) (data : Buf) (p : Plane) :
    Plane where
  ls := Function.update p.ls rank ((p.ls rank).lsAddObj ⟨odsc.ownedBy rank, gdim, data⟩)
  tab :=
    if rank ∈ askedRanks rank (ssdHashV2Loop ssd odsc.bb) then
      Function.update p.tab rank ((p.tab rank).store (odsc.ownedBy rank))
    else p.tab
  net := p.net ++ ((ssdHashV2Loop ssd odsc.bb).filter fun dest => dest ≠ rank).map fun dest =>
    ⟨dest, odsc.ownedBy rank, gdim⟩

/-- The arrival of the update number `k`. -/
def deliver (k : Nat) (p : Plane) : Option Plane :=
  p.net[k]?.map fun msg =>
    { p with
      tab := Function.update p.tab msg.dest ((p.tab msg.dest).store msg.odsc)
      net := p.net.eraseIdx k }

def step (ssd : SSpace) (p : Plane) : GroupEvent → Option Plane
  | .put rank odsc gdim data => some (p.put ssd rank odsc gdim data)
  | .deliver k => p.deliver k
  | .query _ _ _ => some p

def run (ssd : SSpace) : List GroupEvent → Plane → Option Plane
  | [], p => some p
  | ev :: evs, p => (p.step ssd ev).bind (run ssd evs)

end Plane

/-- The request comes with the global dimensions. -/
def GroupEvent.Uses (gdim : GlobalDimension) : GroupEvent → Prop
  | .put _ _ gdim' _ => gdim'.Same gdim
  | .deliver _ => True
  | .query _ _ gdim' => gdim'.Same gdim

/-! ## The hash without a cache -/

section Hash

variable {hilbertC2i : HilbertC2i} {uninit : Unwritten} {ssd : SSpace}

/-- The cache holds what the hash computes. -/
def CacheRight (ssd : SSpace) (sfc : SfcHashList) : Prop :=
  ∀ shc ∈ sfc, shc.shDeTab.map DePtr.rank = ssdHashV2Loop ssd shc.shBb

theorem ssdHashV2Loop_congr {b0 b1 : BBox} (h : bboxEquals b0 b1 = true) (ssd : SSpace) :
    ssdHashV2Loop ssd b0 = ssdHashV2Loop ssd b1 := by
  have hsame : bboxDoesIntersect b0 = bboxDoesIntersect b1 := funext (bboxDoesIntersect_congr h)
  rw [ssdHashV2Loop, ssdHashV2Loop, hsame]

variable (hilbertC2i uninit) in
/-- With a right cache `ssd_hash` returns what the hash computes. -/
theorem ssdHash_of_cacheRight (hv2 : ssd.hashVersion = .v2) {sfc : SfcHashList}
    (h : CacheRight ssd sfc) (id : Nat) (bb : BBox) :
    ∃ deTab sfc', hashAt hilbertC2i uninit id ssd bb sfc = some (deTab, sfc') ∧
      deTab.map DePtr.rank = ssdHashV2Loop ssd bb ∧ CacheRight ssd sfc' := by
  have hun : ssdHashUncached hilbertC2i (uninit.hash sfc.length) id ssd bb =
      some ((ssdHashV2Loop ssd bb).map (DePtr.mk id)) := by
    simp only [ssdHashUncached, ssdHashLoop, hv2, Option.map_some]
  have hback : ((ssdHashV2Loop ssd bb).map (DePtr.mk id)).map DePtr.rank = ssdHashV2Loop ssd bb := by
    rw [List.map_map]
    exact List.map_id _
  simp only [hashAt, ssdHash, hv2, ssdHashCached, hun]
  split
  · next de deTab hfind =>
      rcases Option.map_eq_some_iff.1 hfind with ⟨shc, hshc, htab⟩
      -- a box that equals a cached one has the same owners
      have heq : bboxEquals bb shc.shBb = true := by simpa using List.find?_some hshc
      refine ⟨_, _, rfl, ?_, h⟩
      rw [← htab, h shc (List.mem_of_find?_eq_some hshc), ssdHashV2Loop_congr heq]
  · refine ⟨_, _, rfl, hback, fun shc hshc => ?_⟩
    rcases List.mem_append.1 hshc with hold | hnew
    · exact h shc hold
    · rw [List.mem_singleton.1 hnew]
      exact hback

/-- The hash names every server once. -/
theorem Partitioned.nodup_ssdHashV2Loop {numNodes : Nat} (h : Partitioned hilbertC2i ssd numNodes)
    (bb : BBox) : (ssdHashV2Loop ssd bb).Nodup := by
  have hranks : (ssd.entTab.map DhtEntry.rank).Nodup := by
    rw [h.ranks]
    exact List.nodup_range
  exact hranks.sublist (List.filter_sublist.map _)

end Hash

/-! ## Updates at one server -/

section Update

variable {hilbertC2i : HilbertC2i} {uninit : Unwritten} {conf : Conf} {ssd : SSpace}

/-- Without subscriptions an update only stores the descriptor. -/
theorem objUpdateLocalDht_eq {sv : Server} {e : SpaceEntry} (hsubs : ∀ n, e.entSelf.dhtSubs n = [])
    (odsc : ObjDesc) :
    Server.objUpdateLocalDht hilbertC2i uninit sv e odsc =
      some (sv.setEntSelf e.id (e.entSelf.store odsc)) := by
  rw [Server.objUpdateLocalDht, dhtAddEntry_of_no_subs _ (hsubs _), Option.map_some]

theorem distribute_eq {odsc : ObjDesc} {gdim : GlobalDimension} {e : SpaceEntry}
    (hsubs : ∀ n, e.entSelf.dhtSubs n = []) (ranks : List Nat) :
    ranks.Nodup → ∀ sv : Server,
      Server.distribute hilbertC2i uninit odsc gdim e ranks sv =
        some (if sv.rank ∈ ranks then sv.setEntSelf e.id (e.entSelf.store odsc) else sv,
          (ranks.filter fun dest => dest ≠ sv.rank).map fun dest => ⟨dest, odsc, gdim⟩) := by
  induction ranks with
  | nil =>
      intro _ sv
      rfl
  | cons rank ranks ih =>
      intro hnodup sv
      rcases List.nodup_cons.1 hnodup with ⟨hnot, hrest⟩
      rw [Server.distribute]
      by_cases hr : rank = sv.rank
      · -- the server itself stores the descriptor and sends nothing
        have hrank : (sv.setEntSelf e.id (e.entSelf.store odsc)).rank = sv.rank := rfl
        rw [if_pos hr, objUpdateLocalDht_eq hsubs]
        simp only [Option.bind_eq_bind, Option.bind_some, ih hrest, hrank]
        subst hr
        simp [hnot]
      · rw [if_neg hr]
        simp only [Option.bind_eq_bind, Option.bind_some, ih hrest]
        simp [hr, Ne.symm hr]

/-- What `obj_update_dht` does with a right cache and without subscriptions. -/
theorem objUpdateDht_spec {rank : Nat} {sv : Server} (hsv : sv.Ok hilbertC2i uninit conf rank)
    {gdim : GlobalDimension} (hssd : conf.spaceFor hilbertC2i uninit gdim = some ssd)
    (hv2 : ssd.hashVersion = .v2) (hnodup : ∀ bb, (ssdHashV2Loop ssd bb).Nodup)
    (hcache : CacheRight ssd sv.sfcHash) (hsubs : ∀ n, (sv.tableOf conf gdim).dhtSubs n = [])
    (odsc : ObjDesc) :
    ∃ sv', Server.objUpdateDht hilbertC2i uninit conf sv odsc gdim =
        some (sv', ((ssdHashV2Loop ssd odsc.bb).filter fun dest => dest ≠ rank).map fun dest =>
          ⟨dest, odsc, gdim⟩) ∧
      sv'.ls = sv.ls ∧ CacheRight ssd sv'.sfcHash ∧
      sv'.tableOf conf gdim =
        if rank ∈ askedRanks rank (ssdHashV2Loop ssd odsc.bb) then (sv.tableOf conf gdim).store odsc
        else sv.tableOf conf gdim := by
  rcases Server.lookupSspace_spec hsv hssd with ⟨sv₁, e, hlook, hsv₁, hspec⟩
  have hcache₁ : CacheRight ssd sv₁.sfcHash := hspec.same.sfcHash ▸ hcache
  rcases ssdHash_of_cacheRight hilbertC2i uninit hv2 hcache₁ e.id odsc.bb with
    ⟨deTab, sfc, hhash, hranks, hsfc⟩
  have hsubs' : ∀ n, e.entSelf.dhtSubs n = [] := fun n => by rw [hspec.entSelf, hsubs]
  have hfound : Server.findSspace { sv₁ with sfcHash := sfc } gdim = some e := hspec.found
  have hstored : (Server.setEntSelf { sv₁ with sfcHash := sfc } e.id (e.entSelf.store odsc)).tableOf
      conf gdim = (sv.tableOf conf gdim).store odsc := by
    rw [Server.tableOf_setEntSelf hfound, hspec.entSelf]
  have hkept : Server.tableOf conf { sv₁ with sfcHash := sfc } gdim = sv.tableOf conf gdim :=
    hspec.tables gdim
  simp only [Server.objUpdateDht, hlook, Option.bind_eq_bind, Option.bind_some, hspec.ssd, hhash]
  cases deTab with
  | nil =>
      -- the box hashes to nobody and the descriptor stays here
      have hnone : ssdHashV2Loop ssd odsc.bb = [] := hranks.symm
      simp only [List.isEmpty_nil, if_true, objUpdateLocalDht_eq hsubs', Option.bind_some, hnone]
      refine ⟨_, rfl, hspec.same.ls, hsfc, ?_⟩
      rw [hstored, if_pos (by simp [askedRanks])]
  | cons de deTab =>
      have hasked : askedRanks rank (ssdHashV2Loop ssd odsc.bb) = ssdHashV2Loop ssd odsc.bb := by
        rw [askedRanks, ← hranks]
        rfl
      have hrank : sv₁.rank = rank := hsv₁.rank
      simp only [List.isEmpty_cons, Bool.false_eq_true, if_false, hranks,
        distribute_eq hsubs' _ (hnodup odsc.bb), hrank]
      refine ⟨_, rfl, ?_, ?_, ?_⟩
      · split
        · exact hspec.same.ls
        · exact hspec.same.ls
      · split
        · exact hsfc
        · exact hsfc
      · rw [hasked]
        split
        · exact hstored
        · exact hkept

end Update

/-! ## The caches of a query -/

section Caches

variable {hilbertC2i : HilbertC2i} {uninit : Nat → Unwritten} {conf : Conf} {ssd : SSpace}

theorem lookupSspace_sfcHash {uninit : Unwritten} {sv sv' : Server} {gdim : GlobalDimension} {e : SpaceEntry}
    (h : Server.lookupSspace hilbertC2i uninit conf sv gdim = some (sv', e)) :
    sv'.sfcHash = sv.sfcHash := by
  rw [Server.lookupSspace] at h
  split at h
  · cases h
    rfl
  · rcases Option.map_eq_some_iff.1 h with ⟨ssd', -, heq⟩
    cases heq
    rfl

/-- Answering a query leaves the caches alone. -/
theorem askPeers_sfcHash {self : Nat} {e : SpaceEntry} {qOdsc : ObjDesc} {gdim : GlobalDimension}
    {timeout : Int} (ranks : List Nat) :
    ∀ (g : Group) (r : List (List ObjDesc) × Group),
      askPeers hilbertC2i uninit conf self e qOdsc gdim timeout ranks g = some r →
      ∀ rank, (r.2.server rank).sfcHash = (g.server rank).sfcHash := by
  induction ranks with
  | nil =>
      intro g r h rank
      cases h
      rfl
  | cons dest ranks ih =>
      intro g r h rank
      rw [askPeers] at h
      split at h
      · rcases Option.bind_eq_some_iff.1 h with ⟨odscs, -, h⟩
        rcases Option.bind_eq_some_iff.1 h with ⟨r', hrest, h⟩
        cases h
        exact ih g r' hrest rank
      · rcases Option.bind_eq_some_iff.1 h with ⟨⟨odscs, sv⟩, hrpc, h⟩
        rcases Option.bind_eq_some_iff.1 h with ⟨r', hrest, h⟩
        cases h
        -- the peer may have made a space
        rcases Option.bind_eq_some_iff.1 hrpc with ⟨⟨sv', e'⟩, hlook, hrpc⟩
        rcases Option.bind_eq_some_iff.1 hrpc with ⟨odscs', -, hrpc⟩
        cases hrpc
        have hpeer := lookupSspace_sfcHash hlook
        refine (ih _ r' hrest rank).trans ?_
        simp only [Group.setServer, Function.update_apply]
        split
        · next hr => rw [hr, hpeer]
        · rfl

/-- A query leaves all caches right. -/
theorem getQueryOdscs_cacheRight {g : Group} (hok : g.Ok hilbertC2i uninit conf)
    {gdim : GlobalDimension} (hssd : conf.SpacesFor hilbertC2i uninit gdim fun _ => ssd)
    (hv2 : ssd.hashVersion = .v2) (hcache : ∀ rank, CacheRight ssd (g.server rank).sfcHash)
    {self : Nat} {qOdsc : ObjDesc} (hlocal : (g.server self).localResponsibility conf qOdsc = true)
    {timeout : Int} {r : List ObjDesc × Group}
    (h : getQueryOdscs hilbertC2i uninit conf g self qOdsc gdim timeout = some r) :
    ∀ rank, CacheRight ssd (r.2.server rank).sfcHash := by
  rcases Server.lookupSspace_spec (hok self) (hssd self) with ⟨sv, e, hlook, -, hspec⟩
  have hself : CacheRight ssd sv.sfcHash := hspec.same.sfcHash ▸ hcache self
  rcases ssdHash_of_cacheRight hilbertC2i (uninit self) hv2 hself e.id qOdsc.bb with
    ⟨deTab, sfc, hhash, -, hsfc⟩
  simp only [getQueryOdscs, hlocal, if_true, hlook, Option.bind_eq_bind, Option.bind_some, hspec.ssd,
    hhash] at h
  rcases Option.bind_eq_some_iff.1 h with ⟨r', hask, h⟩
  cases h
  intro rank
  -- the peers change no cache
  rw [askPeers_sfcHash _ _ r' hask rank]
  simp only [Group.setServer, Function.update_apply]
  split
  · exact hsfc
  · exact hcache rank

end Caches

/-! ## The plane of a group -/

theorem Conf.spaceFor_congr {hilbertC2i : HilbertC2i} {uninit : Unwritten} {conf : Conf}
    {gdim gdim' : GlobalDimension} (h : gdim'.Same gdim) :
    conf.spaceFor hilbertC2i uninit gdim' = conf.spaceFor hilbertC2i uninit gdim := by
  rw [Conf.spaceFor, Conf.spaceFor, Conf.domainFor, Conf.domainFor, h.globalDimensionEqual,
    gdimDomain_congr h]

theorem Server.tableOf_congr {conf : Conf} {sv : Server} {gdim gdim' : GlobalDimension}
    (h : gdim'.Same gdim) : sv.tableOf conf gdim' = sv.tableOf conf gdim := by
  rw [Server.tableOf, Server.tableOf, Server.findSspace_congr h]

/-- The group has the storages, the tables and the updates of the plane; its caches are right and nobody
waits. -/
structure Shows (hilbertC2i : HilbertC2i) (uninit : Nat → Unwritten) (conf : Conf) (ssd : SSpace)
    (gdim : GlobalDimension) (g : Group) (p : Plane) : Prop where
  ok : g.Ok hilbertC2i uninit conf
  ls : ∀ rank, (g.server rank).ls = p.ls rank
  tab : ∀ rank, (g.server rank).tableOf conf gdim = p.tab rank
  net : g.net = p.net
  cache : ∀ rank, CacheRight ssd (g.server rank).sfcHash
  subs : ∀ rank n, (p.tab rank).dhtSubs n = []
  gdims : ∀ msg ∈ p.net, msg.gdim.Same gdim

section Shows

variable {hilbertC2i : HilbertC2i} {uninit : Nat → Unwritten} {conf : Conf} {ssd : SSpace}
  {gdim : GlobalDimension} {g g' : Group} {p : Plane}

theorem Shows.init {spaces₀ : Nat → SSpace}
    (hinit : conf.SpacesFor hilbertC2i uninit conf.defaultGdim spaces₀) :
    Shows hilbertC2i uninit conf ssd gdim (Group.init conf spaces₀) (Plane.init conf) where
  ok := Group.ok_init hinit
  ls _ := rfl
  tab rank := by
    -- a space made later starts with the same empty table
    by_cases hd : globalDimensionEqual gdim conf.defaultGdim = true
    · simp [Server.tableOf, Server.findSspace, Group.init, Plane.init, hd]
    · simp [Server.tableOf, Server.findSspace, Group.init, Plane.init, hd]
  net := rfl
  cache _ shc hshc := by
    simp [Group.init] at hshc
  subs _ _ := rfl
  gdims msg hmsg := by
    simp [Plane.init] at hmsg

/-- The plane stays the plane of the group when one server changes as one of the plane does. -/
theorem Shows.setServer (h : Shows hilbertC2i uninit conf ssd gdim g p) {rank : Nat} {sv : Server}
    {ls : Nat → SsStorage} {tab : Nat → DhtTable} {net : List UpdateMsg}
    (hok : sv.Ok hilbertC2i (uninit rank) conf rank) (hls : sv.ls = ls rank)
    (hlsOther : ∀ r, r ≠ rank → ls r = p.ls r) (htab : sv.tableOf conf gdim = tab rank)
    (htabOther : ∀ r, r ≠ rank → tab r = p.tab r) (hcache : CacheRight ssd sv.sfcHash)
    (hsubs : ∀ n, (tab rank).dhtSubs n = []) (hgdims : ∀ msg ∈ net, msg.gdim.Same gdim) :
    Shows hilbertC2i uninit conf ssd gdim ⟨(g.setServer rank sv).server, net⟩ ⟨ls, tab, net⟩ where
  ok := h.ok.setServer hok
  ls r := by
    simp only [Group.setServer, Function.update_apply]
    split
    · next hr => rw [hr, hls]
    · next hr => rw [hlsOther r hr, h.ls]
  tab r := by
    simp only [Group.setServer, Function.update_apply]
    split
    · next hr => rw [hr, htab]
    · next hr => rw [htabOther r hr, h.tab]
  net := rfl
  cache r := by
    simp only [Group.setServer, Function.update_apply]
    split
    · exact hcache
    · exact h.cache r
  subs r n := by
    by_cases hr : r = rank
    · exact hr ▸ hsubs n
    · exact (congrArg (fun de => de.dhtSubs n) (htabOther r hr)).trans (h.subs r n)
  gdims := hgdims

variable (hssd : conf.SpacesFor hilbertC2i uninit gdim fun _ => ssd) (hv2 : ssd.hashVersion = .v2)
  (hnodup : ∀ bb, (ssdHashV2Loop ssd bb).Nodup)

include hssd hv2 hnodup

theorem Shows.put (h : Shows hilbertC2i uninit conf ssd gdim g p) {rank : Nat} {odsc : ObjDesc}
    {gdim' : GlobalDimension} (hgdim : gdim'.Same gdim) {data : Buf}
    (hstep : g.step hilbertC2i uninit conf (.put rank odsc gdim' data) = some g') :
    Shows hilbertC2i uninit conf ssd gdim g' (p.put ssd rank odsc gdim' data) := by
  rcases Option.map_eq_some_iff.1 hstep with ⟨r, hput, rfl⟩
  have hok := h.ok rank
  have hls₀ := h.ls rank
  have htab₀ := h.tab rank
  have hcache₀ := h.cache rank
  generalize g.server rank = sv at hput hok hls₀ htab₀ hcache₀
  have hput' : Server.objUpdateDht hilbertC2i (uninit rank) conf
      { sv with ls := sv.ls.lsAddObj ⟨odsc.ownedBy rank, gdim', data⟩ } (odsc.ownedBy rank) gdim' =
        some r := by
    have hrank := hok.rank
    rw [← hput, Server.putRpc, hrank]
    rfl
  have hsv : Server.Ok hilbertC2i (uninit rank) conf rank
      { sv with ls := sv.ls.lsAddObj ⟨odsc.ownedBy rank, gdim', data⟩ } := hok.congr rfl rfl rfl
  have htab : Server.tableOf conf
      { sv with ls := sv.ls.lsAddObj ⟨odsc.ownedBy rank, gdim', data⟩ } gdim' = p.tab rank := by
    rw [Server.tableOf_congr hgdim]
    exact htab₀
  -- storing the object first changes neither tables nor caches, so the update is that of the plane
  rcases objUpdateDht_spec hsv ((Conf.spaceFor_congr hgdim).trans (hssd rank)) hv2 hnodup hcache₀
    (fun n => by rw [htab, h.subs]) (odsc.ownedBy rank) with ⟨sv', hupd, hls, hcache, htab'⟩
  have hok' : sv'.Ok hilbertC2i (uninit rank) conf rank := hsv.objUpdateDht hupd
  have hr : r = (sv', ((ssdHashV2Loop ssd odsc.bb).filter fun dest => dest ≠ rank).map fun dest =>
      ⟨dest, odsc.ownedBy rank, gdim'⟩) := Option.some.inj (hput'.symm.trans hupd)
  rw [htab, Server.tableOf_congr hgdim] at htab'
  subst hr
  rw [h.net]
  refine h.setServer hok' ?_ (fun r hr => Function.update_of_ne hr _ _) ?_ (fun r hr => ?_) hcache ?_ ?_
  · rw [hls, Function.update_self, ← hls₀]
  · rw [htab']
    have hbb : (odsc.ownedBy rank).bb = odsc.bb := rfl
    rw [hbb]
    split
    · rw [Function.update_self]
    · rfl
  · split
    · exact Function.update_of_ne hr _ _
    · rfl
  · intro n
    split
    · rw [Function.update_self, DhtTable.dhtSubs_store, h.subs]
    · exact h.subs rank n
  · intro msg hmsg
    rcases List.mem_append.1 hmsg with hold | hnew
    · exact h.gdims msg hold
    · rcases List.mem_map.1 hnew with ⟨dest, -, rfl⟩
      exact hgdim

omit hv2 hnodup in
theorem Shows.deliver (h : Shows hilbertC2i uninit conf ssd gdim g p) {k : Nat}
    (hstep : g.step hilbertC2i uninit conf (.deliver k) = some g') :
    ∃ p', p.deliver k = some p' ∧ Shows hilbertC2i uninit conf ssd gdim g' p' := by
  rcases Option.bind_eq_some_iff.1 hstep with ⟨msg, hmsg, hstep⟩
  rcases Option.map_eq_some_iff.1 hstep with ⟨sv', hupd, rfl⟩
  rw [h.net] at hmsg
  have hgdim : msg.gdim.Same gdim := h.gdims msg (List.mem_of_getElem? hmsg)
  rcases Server.lookupSspace_spec (h.ok msg.dest) ((Conf.spaceFor_congr hgdim).trans (hssd msg.dest)) with
    ⟨sv, e, hlook, hsv, hspec⟩
  -- the table of the space that the message is about
  have hentry : e.entSelf = p.tab msg.dest := by
    rw [hspec.entSelf, Server.tableOf_congr hgdim, h.tab]
  rw [Server.objUpdateRpc, hlook] at hupd
  simp only [Option.bind_eq_bind, Option.bind_some] at hupd
  rw [objUpdateLocalDht_eq (fun n => by rw [hentry, h.subs]), Option.some.injEq] at hupd
  subst hupd
  refine ⟨_, by rw [Plane.deliver, hmsg, Option.map_some], ?_⟩
  rw [h.net]
  refine h.setServer (hsv.setEntSelf _ _) ?_ (fun _ _ => rfl) ?_
    (fun r hr => Function.update_of_ne hr _ _) ?_ ?_ fun m hm => h.gdims m (List.mem_of_mem_eraseIdx hm)
  · exact hspec.same.ls.trans (h.ls _)
  · rw [← Server.tableOf_congr hgdim, Server.tableOf_setEntSelf hspec.found, Function.update_self,
      hentry]
  · have hsame : (sv.setEntSelf e.id (e.entSelf.store msg.odsc)).sfcHash =
        (g.server msg.dest).sfcHash := hspec.same.sfcHash
    rw [hsame]
    exact h.cache _
  · intro n
    rw [Function.update_self, DhtTable.dhtSubs_store, h.subs]

omit hnodup in
theorem Shows.query (h : Shows hilbertC2i uninit conf ssd gdim g p) (hremotes : conf.remotes = none)
    {rank : Nat} {qOdsc : ObjDesc} {gdim' : GlobalDimension} (hgdim : gdim'.Same gdim) {timeout : Int}
    {r : List ObjDesc × Group}
    (hquery : getQueryOdscs hilbertC2i uninit conf g rank qOdsc gdim' timeout = some r) :
    Shows hilbertC2i uninit conf ssd gdim r.2 p := by
  have hlocal : (g.server rank).localResponsibility conf qOdsc = true := by
    simp [Server.localResponsibility, hremotes]
  have hssd' : conf.SpacesFor hilbertC2i uninit gdim' fun _ => ssd := fun r =>
    (Conf.spaceFor_congr hgdim).trans (hssd r)
  have hcache := getQueryOdscs_cacheRight h.ok hssd' hv2 h.cache hlocal hquery
  have hspec := getQueryOdscs_local h.ok hssd' hlocal timeout
  split at hspec
  · rw [hspec] at hquery
    cases hquery
  · rcases hspec with ⟨g₁, hget, hok, hsame⟩
    rw [hget, Option.some.injEq] at hquery
    subst hquery
    exact ⟨hok, fun r => (hsame.ls r).trans (h.ls r), fun r => (hsame.tables r gdim).trans (h.tab r),
      hsame.net.trans h.net, hcache, h.subs, h.gdims⟩

/-- Every step of the group is a step of its plane. -/
theorem Shows.step (h : Shows hilbertC2i uninit conf ssd gdim g p) (hremotes : conf.remotes = none)
    {ev : GroupEvent} (hev : ev.Uses gdim) (hstep : g.step hilbertC2i uninit conf ev = some g') :
    ∃ p', p.step ssd ev = some p' ∧ Shows hilbertC2i uninit conf ssd gdim g' p' := by
  cases ev with
  | put rank odsc gdim' data => exact ⟨_, rfl, h.put hssd hv2 hnodup hev hstep⟩
  | deliver k => exact h.deliver hssd hstep
  | query rank qOdsc gdim' =>
      rcases Option.map_eq_some_iff.1 hstep with ⟨r, hquery, rfl⟩
      exact ⟨p, rfl, h.query hssd hv2 hremotes hev hquery⟩

/-- Every run of the group is a run of its plane. -/
theorem Shows.run (hremotes : conf.remotes = none) (evs : List GroupEvent) :
    ∀ (g g' : Group) (p : Plane), Shows hilbertC2i uninit conf ssd gdim g p →
      (∀ ev ∈ evs, ev.Uses gdim) → g.run hilbertC2i uninit conf evs = some g' →
      ∃ p', p.run ssd evs = some p' ∧ Shows hilbertC2i uninit conf ssd gdim g' p' := by
  have hplane : Runs.IsRun (Plane.step ssd) (Plane.run ssd) := ⟨fun _ => rfl, fun _ _ _ => rfl⟩
  intro g g' p h hevs hrun
  refine Group.isRun.simulates hplane (fun g p ev g' h hev hstep => ?_) evs g p g' h hevs hrun
  exact h.step hssd hv2 hnodup hremotes hev hstep

end Shows

end DataSpaces
