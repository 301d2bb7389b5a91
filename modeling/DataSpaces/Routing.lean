import DataSpaces.ByteCounts
import DataSpaces.ModArgs
import DataSpaces.RoundTrip

/-!
# Routing — variables that a module makes (`route_request`)

A name that starts with the namespace of a module stands for data that the module makes when somebody asks.
Every server that a query selects first calls the module, keeps what it gives as an object of its own, tells the
servers that the box hashes to, and only then looks into its table.  So one query leaves several objects behind,
and several descriptors of one box are on their way while the servers answer.

What the functions of a module do is Python; a call gives nothing, an error or an array.
-/

namespace DataSpaces

/-! ## Modules -/

/-- `struct dspaces_module`, without what is loaded for it. -/
structure DsModule where
  name : CStr
  nspace : Option CStr

/-- `dspaces_mod_by_od`: the first module whose namespace `strstr` finds at the start of the name. -/
def dspacesModByOd (mods : List DsModule) (odsc : ObjDesc) : Option DsModule :=
  mods.find? fun mod => mod.nspace.any fun nspace => nspace.isPrefixOf odsc.name

/-- A corner as an argument.  Row-major order leaves it as it is, the other order turns it around. -/
def cornerArg (name : CStr) (odsc : ObjDesc) (corner : Coord) : ModuleArgs :=
  let ndims := odsc.bb.numDims
  if 0 < ndims then
    ⟨name, .int, Int32.ofNat ndims, .iarray ((List.range ndims).map fun k =>
      (corner.c (if odsc.st = .rowMajor then k else ndims - k - 1)).toInt64)⟩
  else
    -- the length is not set
    ⟨name, .none, 0, .unset⟩

/-- `build_module_args_from_odsc`: `name`, `version`, `lb` and `ub`. -/
def buildModuleArgsFromOdsc (odsc : ObjDesc) : List ModuleArgs :=
  [⟨nameKey, .str, Int32.ofNat (odsc.name.length + 1), .strval odsc.name⟩,
    ⟨versionKey, .int, -1, .bits odsc.version.toUInt64⟩,
    cornerArg [108, 98] odsc odsc.bb.lb,
    cornerArg [117, 98] odsc odsc.bb.ub]

/-- `struct dspaces_module_ret` with an array in it. -/
structure ModArray where
  len : Int32
  dim : Nat → UInt64
  ndim : Nat
  tag : Int32
  elemSize : Int32
  data : Buf

/-- What `dspaces_module_exec` returns when an array is asked for, unless it is `NULL`. -/
inductive ModRet
  | array (res : ModArray)
  | err (code : Int32)

/-- `dspaces_module_exec` with the operation `query`, at one moment. -/
abbrev ModExec : Type :=
  DsModule → List ModuleArgs → Option ModRet

/-! ## Routing a request -/

/-- `obj_data_resize`: the lower corner stays, the sides are new. -/
def objDataResize (objDesc : ObjDesc) (newDims : Nat → UInt64) : ObjDesc :=
  { objDesc with
    bb := { objDesc.bb with
      ub := Coord.ofFn fun i =>
        if i < objDesc.bb.numDims then objDesc.bb.lb.c i + (newDims i - 1) else objDesc.bb.ub.c i }
    flags := objDesc.flags ^^^ DS_OBJ_RESIZE }

/-- The descriptor of the query after it was fitted to the array. -/
def fitToArray (odsc : ObjDesc) (res : ModArray) : ObjDesc :=
  let odsc := { odsc with size := sizeOfInt res.elemSize }
  if odsc.bb.numDims ≠ res.ndim then
    objDataResize { odsc with bb := { odsc.bb with numDims := res.ndim } } res.dim
  else if odsc.size * sizeOfInt res.len ≠ objDataSize odsc then objDataResize odsc res.dim
  else odsc

section Route

variable (hilbertC2i : HilbertC2i) (uninit : Unwritten) (conf : Conf) (mods : List DsModule)

/-- `route_request`: the server afterwards, the updates that it sends and the descriptor of the query, which may
have changed.  Nobody looks at the error that is returned. -/
def Server.routeRequest (exec : ModExec) (sv : Server) (odsc : ObjDesc) (gdim : GlobalDimension) :
    Option (Server × List UpdateMsg × ObjDesc) :=
  match (dspacesModByOd mods odsc).bind fun mod => exec mod (buildModuleArgsFromOdsc odsc) with
  | some (.array res) =>
      if odsc.size ≠ 0 ∧ odsc.size ≠ sizeOfInt res.elemSize then
        -- elements of another size than asked for are not stored
        some (sv, [], odsc)
      else
        let odsc := fitToArray odsc res
        let odOdsc := { odsc with owner := .server sv.rank, tag := res.tag }
        (Server.objUpdateDht hilbertC2i uninit conf { sv with ls := sv.ls.lsAddObj ⟨odOdsc, gdim, res.data⟩ }
          odOdsc gdim).map fun r => (r.1, r.2, if odsc.tag = 0 then { odsc with tag := res.tag } else odsc)
  | _ => some (sv, [], odsc)

end Route

/-- What a server does for a query up to the look into its table. -/
def Group.routeAt (hilbertC2i : HilbertC2i) (uninit : Nat → Unwritten) (conf : Conf) (mods : List DsModule)
    (exec : ModExec) (g : Group) (rank : Nat) (odsc : ObjDesc) (gdim : GlobalDimension) :
    Option (Group × ObjDesc) := do
  let (sv, _) ← Server.lookupSspace hilbertC2i (uninit rank) conf (g.server rank) gdim
  let (sv, msgs, odsc) ← Server.routeRequest hilbertC2i (uninit rank) conf mods exec sv odsc gdim
  return ({ g.setServer rank sv with net := g.net ++ msgs }, odsc)

/-! ## A query of such a variable -/

/-- A query under way: the servers that are asked, the descriptor at each of them after `route_request`, and
their answers. -/
structure ModQuery where
  group : Group
  peers : Option (List Nat)
  routed : Nat → Option ObjDesc
  answers : Nat → Option (List ObjDesc)

/-- The steps around the query.  They come in any order that the steps themselves allow; a call of a module may
give something else each time. -/
inductive ModEvent
  | /-- a request that has to do with no module -/
    group (ev : GroupEvent)
  | /-- a server gets as far as its table for the query of somebody else -/
    other (exec : ModExec) (rank : Nat) (odsc : ObjDesc) (gdim : GlobalDimension)
  | /-- `query_rpc` asks the servers -/
    ask (self : Nat)
  | /-- one of them gets as far as its table -/
    route (exec : ModExec) (rank : Nat)
  | /-- and answers -/
    answer (rank : Nat)

namespace ModQuery

/-- No query yet, and servers that have just started. -/
def init (conf : Conf) (spaces : Nat → SSpace) : ModQuery where
  group := Group.init conf spaces
  peers := none
  routed _ := none
  answers _ := none

section Step

variable (hilbertC2i : HilbertC2i) (uninit : Nat → Unwritten) (conf : Conf) (mods : List DsModule) (qOdsc : ObjDesc)
  (qGdim : GlobalDimension) (timeout : Int)

/-- One step.  The space that a server has looked up for the query is there when it looks into the table. -/
def step (s : ModQuery) : ModEvent → Option ModQuery
  | .group ev => (s.group.step hilbertC2i uninit conf ev).map fun g => { s with group := g }
  | .other exec rank odsc gdim =>
      (s.group.routeAt hilbertC2i uninit conf mods exec rank odsc gdim).map fun r => { s with group := r.1 }
  -- `get_query_odscs` up to the list of servers that it asks
  | .ask self =>
      if s.peers = none ∧ (s.group.server self).localResponsibility conf qOdsc then do
        let (sv, e) ← Server.lookupSspace hilbertC2i (uninit self) conf (s.group.server self) qGdim
        let (deTab, sfc) ← hashAt hilbertC2i (uninit self) e.id e.ssd qOdsc.bb sv.sfcHash
        return { s with
          group := s.group.setServer self { sv with sfcHash := sfc }
          peers := some (askedRanks self (deTab.map DePtr.rank)) }
      else none
  | .route exec rank =>
      if rank ∈ s.peers.getD [] ∧ s.routed rank = none then
        (s.group.routeAt hilbertC2i uninit conf mods exec rank qOdsc qGdim).map fun r =>
          { s with group := r.1, routed := Function.update s.routed rank (some r.2) }
      else none
  -- the look into the table comes after the call of the module
  | .answer rank =>
      if s.answers rank = none then do
        let odsc ← s.routed rank
        let e ← (s.group.server rank).findSspace qGdim
        let odscs ← Server.findOdscs hilbertC2i (uninit rank) e.ssd e.entSelf rank odsc timeout
        return { s with answers := Function.update s.answers rank (some odscs) }
      else none

def run : List ModEvent → ModQuery → Option ModQuery
  | [], s => some s
  | ev :: evs, s => (s.step hilbertC2i uninit conf mods qOdsc qGdim timeout ev).bind (run evs)

end Step

/-- What `query_rpc` returns when all servers have answered. -/
def results (s : ModQuery) : Option (List ObjDesc) := do
  let peers ← s.peers
  let tabs ← peers.mapM s.answers
  return dedup tabs.flatten

end ModQuery

/-! ## The client -/

/-- What `dspaces_aget` gives back: the arrays for the corners, the buffer and its size, and the tag. -/
structure AgetResult where
  lb : Nat → UInt64
  ub : Nat → UInt64
  bytes : Nat
  data : Buf
  tag : Int32

/-- `dspaces_aget` after the query; `fresh` is what is in the memory for the buffer. -/
def dspacesAget (conf : Conf) (g : Group) (getLocal : ObjDesc → Option Buf) (malloced : Nat → Buf) (fresh : Buf)
    (odsc : ObjDesc) (odscTab : List ObjDesc) : Option AgetResult := do
  let first ← odscTab.head?
  let corners := croppedArrays (odsc.bb.lb.c, odsc.bb.ub.c) odscTab
  let bytes ← dspacesAgetBytes odsc.bb.numDims odsc.bb.lb.c odsc.bb.ub.c odscTab
  let reqObj := { odsc with
    bb := croppedBox odsc.bb odscTab
    size := sizeOfInt (intOfSize first.size) }
  let data ← getData conf g getLocal malloced reqObj odscTab fresh
  return ⟨corners.1, corners.2, bytes, data, first.tag⟩

end DataSpaces
