import DataSpaces.HashCache
import DataSpaces.DhtTable

/-!
# Server — the servers of a group (`dspaces-server.c`)

Every server of a group has its own storage, its own list of shared spaces (one for each set of global
dimensions in use, made on demand) and, in each space, the table of its own entry.  A put is stored at
the server that receives it and its descriptor is sent to the servers that `ssd_hash` selects; a query
asks the servers that `ssd_hash` selects and merges their answers.

No module matches a name here, so `route_request` does nothing.  A remote group is what its
`dspaces_get` with timeout `0` returns.
-/

namespace DataSpaces

/-- `dspaces_get` with timeout `0` on a remote group, after `dspaces_define_gdim`. -/
abbrev RemoteGet : Type := ObjDesc → GlobalDimension → Option Buf

/-- What the servers of a group have in common.  `remotes` is the pointer `server->remotes`. -/
structure Conf where
  sizeSp : Nat
  maxVersions : Nat
  hashVersion : HashVersion
  defaultGdim : GlobalDimension
  remotes : Option (List RemoteGet)

/-- `struct sspace_list_entry`: a space by number, with the table of its `ent_self`. -/
structure SpaceEntry where
  id : Nat
  gdim : GlobalDimension
  ssd : SSpace
  entSelf : DhtTable

/-- The `struct ds_gspace` of a server, and its `sfc_hash_list`.  `dflt` is the default space. -/
structure Server where
  rank : Nat
  dflt : SpaceEntry
  sspaceList : List SpaceEntry
  ls : SsStorage
  ps : SsStorage
  sfcHash : SfcHashList

/-- Are the sizes of the first dimensions equal?  The loop runs over the dimensions of `gdim1` only. -/
def globalDimensionEqual (gdim1 gdim2 : GlobalDimension) : Bool :=
  (List.range gdim1.ndim).all fun i => gdim1.sizes.c i == gdim2.sizes.c i

/-- The domain of a space with these global dimensions. -/
def gdimDomain (gdim : GlobalDimension) : BBox where
  numDims := gdim.ndim
  lb := Coord.ofFn fun _ => 0
  ub := Coord.ofFn fun i => if i < gdim.ndim then gdim.sizes.c i - 1 else 0

/-- What `malloc` leaves in the interval tables of a server process.  Every call of `bbox_to_intv2` has a
table of its own: `hash n` is the one of the call whose result becomes entry `n` of `sfc_hash_list`,
`count bb` the one that counts the cells of `bb`.  `alloc` is the memory before the tables of entries
without intervals, which `dht_construct_hash` reads. -/
structure Unwritten where
  alloc : Intv
  hash : Nat → Intv
  count : BBox → Intv

/-- The memory of the processes when it happens to be zero. -/
def zeroed (_ : Nat) : Unwritten := ⟨⟨0, 0⟩, fun _ => ⟨0, 0⟩, fun _ => ⟨0, 0⟩⟩

/-- A message `obj_update_rpc` on its way to a server. -/
structure UpdateMsg where
  dest : Nat
  odsc : ObjDesc
  gdim : GlobalDimension

/-- Another table, when the entry is the one with the number. -/
def SpaceEntry.setEntSelf (e : SpaceEntry) (id : Nat) (table : DhtTable) : SpaceEntry :=
  if e.id = id then { e with entSelf := table } else e

namespace Server

/-- The space that the server has for the global dimensions. -/
def findSspace (sv : Server) (gdim : GlobalDimension) : Option SpaceEntry :=
  -- the default space is compared in the dimensions of `gdim` only
  if globalDimensionEqual gdim sv.dflt.gdim then some sv.dflt
  else sv.sspaceList.find? fun e => gdim.ndim == e.gdim.ndim && globalDimensionEqual gdim e.gdim

/-- The server with another table in the space number `id`. -/
def setEntSelf (sv : Server) (id : Nat) (table : DhtTable) : Server :=
  { sv with
    dflt := sv.dflt.setEntSelf id table
    sspaceList := sv.sspaceList.map fun e => e.setEntSelf id table }

/-- Should the server handle requests for the name itself? -/
def localResponsibility (conf : Conf) (sv : Server) (odsc : ObjDesc) : Bool :=
  conf.remotes.isNone || (sv.ls.lsLookup odsc.name).isSome

/-- `query_remotes`: ask the remotes in turn, and keep what the first one has in the proxy storage. -/
def queryRemotes (conf : Conf) (sv : Server) (qOdsc : ObjDesc) (qGdim : GlobalDimension) :
    List ObjDesc × Server :=
  match (conf.remotes.getD []).findSome? fun get => get qOdsc qGdim with
  | some buffer =>
      -- the descriptor is zeroed and gets no name
      let odsc : ObjDesc :=
        { name := [], st := qOdsc.st, flags := 0, tag := 0, type := 0, owner := .server sv.rank,
          version := qOdsc.version, bb := qOdsc.bb, size := qOdsc.size }
      let od : ObjData := ⟨odsc, ⟨0, Coord.ofFn fun _ => 0⟩, buffer⟩
      ([odsc], { sv with ps := sv.ps.lsAddObj od })
  | none => ([], sv)

end Server

section Space

variable (hilbertC2i : HilbertC2i) (uninit : Unwritten)

/-- `ssh_hash_elem_count` at a server; `ent_self` is the entry of the server's rank. -/
def SSpace.countAt (ssd : SSpace) (rank : Nat) (bb : BBox) : Option Int64 :=
  ssd.entTab[rank]?.bind fun entSelf => sshHashElemCount hilbertC2i (uninit.count bb) ssd entSelf bb

/-- `ssd_hash` with the `sfc_hash_list` of a process. -/
def hashAt (id : Nat) (ssd : SSpace) (bb : BBox) (sfc : SfcHashList) :
    Option (List DePtr × SfcHashList) :=
  ssdHash hilbertC2i (uninit.hash sfc.length) id ssd bb sfc

variable (conf : Conf)

namespace Server

/-- `lookup_sspace`: the space for the global dimensions, made if the server does not have it. -/
def lookupSspace (sv : Server) (gdim : GlobalDimension) : Option (Server × SpaceEntry) :=
  match sv.findSspace gdim with
  | some e => some (sv, e)
  | none =>
      (ssdAlloc hilbertC2i uninit.alloc (gdimDomain gdim) conf.sizeSp conf.maxVersions
        conf.hashVersion).map fun ssd =>
          let e : SpaceEntry :=
            ⟨sv.sspaceList.length + 1, gdim, ssd, dhtEntryAlloc conf.maxVersions⟩
          ({ sv with sspaceList := e :: sv.sspaceList }, e)

/-! ## Updates -/

/-- `obj_update_local_dht`. -/
def objUpdateLocalDht (sv : Server) (e : SpaceEntry) (odsc : ObjDesc) : Option Server :=
  (dhtAddEntry (e.ssd.countAt hilbertC2i uninit sv.rank) e.entSelf odsc).map fun r =>
    sv.setEntSelf e.id r.1

/-- The loop of `obj_update_dht` over the selected servers, which are distinct. -/
def distribute (odsc : ObjDesc) (gdim : GlobalDimension) (e : SpaceEntry) :
    List Nat → Server → Option (Server × List UpdateMsg)
  | [], sv => some (sv, [])
  | rank :: ranks, sv => do
      if rank = sv.rank then
        let sv ← objUpdateLocalDht hilbertC2i uninit sv e odsc
        distribute odsc gdim e ranks sv
      else
        let (sv, msgs) ← distribute odsc gdim e ranks sv
        return (sv, ⟨rank, odsc, gdim⟩ :: msgs)

/-- `obj_update_dht`: the server afterwards and the updates it sends. -/
def objUpdateDht (sv : Server) (odsc : ObjDesc) (gdim : GlobalDimension) :
    Option (Server × List UpdateMsg) := do
  let (sv, e) ← lookupSspace hilbertC2i uninit conf sv gdim
  let (dhtTab, sfc) ← hashAt hilbertC2i uninit e.id e.ssd odsc.bb sv.sfcHash
  let sv := { sv with sfcHash := sfc }
  if dhtTab.isEmpty then
    -- the object could not be distributed and is stored locally
    let sv ← objUpdateLocalDht hilbertC2i uninit sv e odsc
    return (sv, [])
  else distribute hilbertC2i uninit odsc gdim e (dhtTab.map DePtr.rank) sv

/-- `put_rpc`, with the data that arrives. -/
def putRpc (sv : Server) (odsc : ObjDesc) (gdim : GlobalDimension) (data : Buf) :
    Option (Server × List UpdateMsg) :=
  let odsc := { odsc with owner := .server sv.rank }
  objUpdateDht hilbertC2i uninit conf { sv with ls := sv.ls.lsAddObj ⟨odsc, gdim, data⟩ } odsc gdim

/-- `obj_update_rpc`. -/
def objUpdateRpc (sv : Server) (msg : UpdateMsg) : Option Server := do
  let (sv, e) ← lookupSspace hilbertC2i uninit conf sv msg.gdim
  objUpdateLocalDht hilbertC2i uninit sv e msg.odsc

/-! ## Queries -/

/-- The answer of one server: what `dht_find_entry_all` finds in its table, clipped to the query.
A call that would wait does not return in this state. -/
def findOdscs (ssd : SSpace) (entSelf : DhtTable) (rank : Nat) (qOdsc : ObjDesc) (timeout : Int) :
    Option (List ObjDesc) := do
  match ← dhtFindEntryAll (ssd.countAt hilbertC2i uninit rank) entSelf qOdsc timeout with
  | .done odscTab => return odscTab.filterMap fun id => (entSelf.read id).map (clipOdsc qOdsc)
  | .wait _ _ => none

/-- `odsc_internal_rpc`. -/
def odscInternalRpc (sv : Server) (qOdsc : ObjDesc) (qGdim : GlobalDimension) (timeout : Int) :
    Option (List ObjDesc × Server) := do
  let (sv, e) ← lookupSspace hilbertC2i uninit conf sv qGdim
  let odscs ← findOdscs hilbertC2i uninit e.ssd e.entSelf sv.rank qOdsc timeout
  return (odscs, sv)

end Server

end Space

/-- The servers by rank, and the updates on their way. -/
structure Group where
  server : Nat → Server
  net : List UpdateMsg

def Group.setServer (g : Group) (rank : Nat) (sv : Server) : Group :=
  { g with server := Function.update g.server rank sv }

/-- The merge of the answers: a descriptor is dropped when one like it was taken before. -/
def dedup (odscs : List ObjDesc) : List ObjDesc :=
  odscs.foldl (fun results odsc =>
    if results.any fun r => objDescEqualsNoOwner r odsc then results else results ++ [odsc]) []

section Group

variable (hilbertC2i : HilbertC2i) (uninit : Nat → Unwritten) (conf : Conf)

/-- The answers of the selected servers; the asking server looks into its own table itself. -/
def askPeers (self : Nat) (e : SpaceEntry) (qOdsc : ObjDesc) (qGdim : GlobalDimension)
    (timeout : Int) : List Nat → Group → Option (List (List ObjDesc) × Group)
  | [], g => some ([], g)
  | rank :: ranks, g => do
      if rank = self then
        let odscs ← Server.findOdscs hilbertC2i (uninit self) e.ssd e.entSelf self qOdsc timeout
        let (tabs, g) ← askPeers self e qOdsc qGdim timeout ranks g
        return (odscs :: tabs, g)
      else
        let (odscs, sv) ←
          Server.odscInternalRpc hilbertC2i (uninit rank) conf (g.server rank) qOdsc qGdim timeout
        let (tabs, g) ← askPeers self e qOdsc qGdim timeout ranks (g.setServer rank sv)
        return (odscs :: tabs, g)

/-- `get_query_odscs` at the server `self`. -/
def getQueryOdscs (g : Group) (self : Nat) (qOdsc : ObjDesc) (qGdim : GlobalDimension)
    (timeout : Int) : Option (List ObjDesc × Group) := do
  let sv := g.server self
  if sv.localResponsibility conf qOdsc then
    let (sv, e) ← Server.lookupSspace hilbertC2i (uninit self) conf sv qGdim
    let (deTab, sfc) ← hashAt hilbertC2i (uninit self) e.id e.ssd qOdsc.bb sv.sfcHash
    let g := g.setServer self { sv with sfcHash := sfc }
    -- with no peers in the space the server answers alone
    let ranks := if deTab.isEmpty then [self] else deTab.map DePtr.rank
    let (tabs, g) ← askPeers hilbertC2i uninit conf self e qOdsc qGdim timeout ranks g
    return (dedup tabs.flatten, g)
  else
    let (odscs, sv) := sv.queryRemotes conf qOdsc qGdim
    return (odscs, g.setServer self sv)

/-! ## Runs of a group -/

/-- One step of a group: a put that a client sends to a server, the arrival of an update (any one that
is on its way), or an immediate query. -/
inductive GroupEvent
  | put (rank : Nat) (odsc : ObjDesc) (gdim : GlobalDimension) (data : Buf)
  | deliver (k : Nat)
  | query (rank : Nat) (qOdsc : ObjDesc) (qGdim : GlobalDimension)

def Group.step (g : Group) : GroupEvent → Option Group
  | .put rank odsc gdim data =>
      (Server.putRpc hilbertC2i (uninit rank) conf (g.server rank) odsc gdim data).map fun r =>
        { g.setServer rank r.1 with net := g.net ++ r.2 }
  | .deliver k =>
      g.net[k]?.bind fun msg =>
        (Server.objUpdateRpc hilbertC2i (uninit msg.dest) conf (g.server msg.dest) msg).map fun sv =>
          { g.setServer msg.dest sv with net := g.net.eraseIdx k }
  | .query rank qOdsc qGdim =>
      (getQueryOdscs hilbertC2i uninit conf g rank qOdsc qGdim 0).map Prod.snd

def Group.run : List GroupEvent → Group → Option Group
  | [], g => some g
  | ev :: evs, g => (g.step hilbertC2i uninit conf ev).bind (Group.run evs)

/-- A group whose servers have just started, with their default spaces. -/
def Group.init (spaces : Nat → SSpace) : Group where
  server rank :=
    { rank := rank
      dflt := ⟨0, conf.defaultGdim, spaces rank, dhtEntryAlloc conf.maxVersions⟩
      sspaceList := []
      ls := lsAlloc conf.maxVersions
      ps := lsAlloc conf.maxVersions
      sfcHash := [] }
  net := []

end Group

end DataSpaces
