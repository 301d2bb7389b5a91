import DataSpaces.Fetch
import DataSpaces.Query

/-!
# Drain — moving objects from clients to servers (`put_local_rpc`, `drain_thread`)

A client may keep the data of a put and only register the descriptor (`put_local_rpc`).  The server puts
it on a list, and a thread of the server asks the client for the data later, one descriptor after the
other (`get_client_data`).  The servers that have the descriptor are then told the new owner.  The object
that `get_client_data` allocates has no global dimensions, so the update goes to the default space, and
it is sent whether or not the client had the data.
-/

namespace DataSpaces

/-! ## A write through a pointer into a list -/

/-- The list with the first element that satisfies `p` changed. -/
def updateFirst {α : Type} (p : α → Bool) (f : α → α) : List α → List α
  | [] => []
  | a :: l => if p a then f a :: l else a :: updateFirst p f l

section UpdateFirst

variable {α : Type} {p : α → Bool} {f : α → α}

theorem updateFirst_eq_self_iff (l : List α) :
    updateFirst p f l = l ↔ ∀ a, l.find? p = some a → f a = a := by
  induction l with
  | nil => simp [updateFirst]
  | cons b l ih =>
      rw [updateFirst, List.find?_cons]
      by_cases hb : p b = true
      · simp [hb]
      · simp [hb, ih]

theorem mem_updateFirst {l : List α} {x : α} (h : x ∈ updateFirst p f l) :
    x ∈ l ∨ ∃ a, l.find? p = some a ∧ x = f a := by
  induction l with
  | nil => simp [updateFirst] at h
  | cons b l ih =>
      rw [updateFirst] at h
      rw [List.find?_cons]
      by_cases hb : p b = true
      · rw [if_pos hb, List.mem_cons] at h
        simp only [hb]
        rcases h with rfl | h
        · exact Or.inr ⟨b, rfl, rfl⟩
        · exact Or.inl (List.mem_cons_of_mem _ h)
      · -- the first hit comes later
        rw [if_neg hb, List.mem_cons] at h
        simp only [hb]
        rcases h with rfl | h
        · exact Or.inl List.mem_cons_self
        · rcases ih h with hold | hnew
          · exact Or.inl (List.mem_cons_of_mem _ hold)
          · exact Or.inr hnew

/-- The changed element is found again. -/
theorem find?_updateFirst (hp : ∀ a, p (f a) = p a) (l : List α) :
    (updateFirst p f l).find? p = (l.find? p).map f := by
  induction l with
  | nil => rfl
  | cons b l ih =>
      rw [updateFirst]
      by_cases hb : p b = true
      · simp [hb, hp]
      · simp [hb, ih]

end UpdateFirst

/-! ## Ownership -/

/-- `obj_update_t`. -/
inductive ObjUpdateType
  | new
  | owner
  deriving DecidableEq

/-- The descriptor after `dht_update_owner` wrote to it. -/
def ObjDesc.withOwner (odsc : ObjDesc) (owner : Owner) (clearFlag : Bool) : ObjDesc :=
  { odsc with
    owner := owner
    flags := if clearFlag then odsc.flags &&& ~~~DS_CLIENT_STORAGE else odsc.flags }

/-- `dht_update_owner`; without an exact match nothing is changed. -/
def DhtTable.dhtUpdateOwner (de : DhtTable) (odsc : ObjDesc) (clearFlag : Bool) : DhtTable :=
  { de with
    odscHash := Function.update de.odscHash (de.index odsc)
      (updateFirst (fun odscl => objDescEqualsNoOwner odsc odscl.odsc)
        (fun odscl => { odscl with odsc := odscl.odsc.withOwner odsc.owner clearFlag })
        (de.odscHash (de.index odsc))) }

namespace Server

section Update

variable (hilbertC2i : HilbertC2i) (uninit : Unwritten) (conf : Conf)

/-- `obj_update_local_dht`. -/
def objUpdateLocalDhtAs (type : ObjUpdateType) (sv : Server) (e : SpaceEntry) (odsc : ObjDesc) :
    Option Server :=
  match type with
  | .new => objUpdateLocalDht hilbertC2i uninit sv e odsc
  | .owner => some (sv.setEntSelf e.id (e.entSelf.dhtUpdateOwner odsc true))

/-- The loop of `obj_update_dht`. -/
def distributeAs (type : ObjUpdateType) (odsc : ObjDesc) (gdim : GlobalDimension) (e : SpaceEntry) :
    List Nat → Server → Option (Server × List UpdateMsg)
  | [], sv => some (sv, [])
  | rank :: ranks, sv => do
      if rank = sv.rank then
        let sv ← objUpdateLocalDhtAs hilbertC2i uninit type sv e odsc
        distributeAs type odsc gdim e ranks sv
      else
        let (sv, msgs) ← distributeAs type odsc gdim e ranks sv
        return (sv, ⟨rank, odsc, gdim⟩ :: msgs)

/-- `obj_update_dht`. -/
def objUpdateDhtAs (type : ObjUpdateType) (sv : Server) (odsc : ObjDesc) (gdim : GlobalDimension) :
    Option (Server × List UpdateMsg) := do
  let (sv, e) ← lookupSspace hilbertC2i uninit conf sv gdim
  let (dhtTab, sfc) ← hashAt hilbertC2i uninit e.id e.ssd odsc.bb sv.sfcHash
  let sv := { sv with sfcHash := sfc }
  if dhtTab.isEmpty then
    let sv ← objUpdateLocalDhtAs hilbertC2i uninit type sv e odsc
    return (sv, [])
  else distributeAs hilbertC2i uninit type odsc gdim e (dhtTab.map DePtr.rank) sv

/-- `obj_update_rpc`. -/
def objUpdateRpcAs (type : ObjUpdateType) (sv : Server) (msg : UpdateMsg) : Option Server := do
  let (sv, e) ← lookupSspace hilbertC2i uninit conf sv msg.gdim
  objUpdateLocalDhtAs hilbertC2i uninit type sv e msg.odsc

/-- `get_client_data`.  `answer` is what the client does: it fails, or it fills the memory of the new
object. -/
def getClientData (sv : Server) (odsc : ObjDesc) (answer : Option Buf) :
    Option (Server × List UpdateMsg) :=
  (objDataAlloc odsc (answer.getD fun _ => 0)).bind fun od =>
    let od := { od with objDesc.owner := .server sv.rank }
    let sv := if answer.isSome then { sv with ls := sv.ls.lsAddObj od } else sv
    -- the update does not depend on the answer
    objUpdateDhtAs hilbertC2i uninit conf .owner sv od.objDesc od.gdim

/-- Whether or not the client answers only shows in the storage. -/
theorem getClientData_some {sv : Server} {odsc : ObjDesc} {answer : Option Buf}
    {r : Server × List UpdateMsg} (h : getClientData hilbertC2i uninit conf sv odsc answer = some r) :
    (objDataSize odsc).toNat < 2 ^ 31 ∧
      objUpdateDhtAs hilbertC2i uninit conf .owner
        { sv with ls := (answer.map fun data => sv.ls.lsAddObj
            (objDataAllocNoData { odsc with owner := .server sv.rank } data)).getD sv.ls }
        { odsc with owner := .server sv.rank } ⟨0, Coord.ofFn fun _ => 0⟩ = some r := by
  obtain ⟨od, halloc, h⟩ := Option.bind_eq_some_iff.1 h
  obtain ⟨rfl, hsmall⟩ := objDataAlloc_some halloc
  refine ⟨hsmall, ?_⟩
  cases answer with
  | none => exact h
  | some data => exact h

/-- A put is the update of the type `DS_OBJ_NEW`. -/
theorem distributeAs_new (odsc : ObjDesc) (gdim : GlobalDimension) (e : SpaceEntry) (ranks : List Nat) :
    ∀ sv, distributeAs hilbertC2i uninit .new odsc gdim e ranks sv =
      distribute hilbertC2i uninit odsc gdim e ranks sv := by
  induction ranks with
  | nil =>
      intro sv
      rfl
  | cons rank ranks ih =>
      intro sv
      rw [distributeAs, distribute]
      simp only [objUpdateLocalDhtAs, ih]

theorem objUpdateDhtAs_new (sv : Server) (odsc : ObjDesc) (gdim : GlobalDimension) :
    objUpdateDhtAs hilbertC2i uninit conf .new sv odsc gdim =
      objUpdateDht hilbertC2i uninit conf sv odsc gdim := by
  simp only [objUpdateDhtAs, objUpdateDht, objUpdateLocalDhtAs, distributeAs_new]

end Update

end Server

/-- The servers, their lists of descriptors to drain, and the updates on their way. -/
structure DrainGroup where
  server : Nat → Server
  drainList : Nat → List ObjDesc
  net : List (ObjUpdateType × UpdateMsg)

/-- A client registers a descriptor at a server, the drain thread of a server takes a turn, or an update
arrives. -/
inductive DrainEvent
  | putLocal (rank : Nat) (odsc : ObjDesc) (gdim : GlobalDimension)
  | drain (rank : Nat) (answer : Option Buf)
  | deliver (k : Nat)

namespace DrainGroup

section Run

variable (hilbertC2i : HilbertC2i) (uninit : Nat → Unwritten) (conf : Conf)

def setServer (g : DrainGroup) (rank : Nat) (sv : Server) : DrainGroup :=
  { g with server := Function.update g.server rank sv }

/-- `put_local_rpc`. -/
def putLocalRpc (g : DrainGroup) (rank : Nat) (odsc : ObjDesc) (gdim : GlobalDimension) :
    Option DrainGroup :=
  (Server.objUpdateDhtAs hilbertC2i (uninit rank) conf .new (g.server rank) odsc gdim).map fun r =>
    { server := Function.update g.server rank r.1
      drainList := Function.update g.drainList rank (g.drainList rank ++ [odsc])
      net := g.net ++ r.2.map fun msg => (.new, msg) }

/-- One turn of `drain_thread`: the group, and the updates that are sent. -/
def drainTurn (g : DrainGroup) (rank : Nat) (answer : Option Buf) :
    Option (DrainGroup × List (ObjUpdateType × UpdateMsg)) :=
  match g.drainList rank with
  | [] => some (g, [])
  | odsc :: rest =>
      (Server.getClientData hilbertC2i (uninit rank) conf (g.server rank) odsc answer).map fun r =>
        ({ g with
            server := Function.update g.server rank r.1
            -- a descriptor that could not be drained goes back to the end of the list
            drainList := Function.update g.drainList rank
              (if answer.isSome then rest else rest ++ [odsc]) },
          r.2.map fun msg => (.owner, msg))

/-- The arrival of an update. -/
def arrive (g : DrainGroup) (update : ObjUpdateType × UpdateMsg) : Option DrainGroup :=
  (Server.objUpdateRpcAs hilbertC2i (uninit update.2.dest) conf update.1 (g.server update.2.dest) update.2).map
    (g.setServer update.2.dest)

def step (g : DrainGroup) : DrainEvent → Option DrainGroup
  | .putLocal rank odsc gdim => g.putLocalRpc hilbertC2i uninit conf rank odsc gdim
  | .drain rank answer =>
      (g.drainTurn hilbertC2i uninit conf rank answer).map fun r => { r.1 with net := r.1.net ++ r.2 }
  | .deliver k =>
      g.net[k]?.bind fun update =>
        (g.arrive hilbertC2i uninit conf update).map fun g => { g with net := g.net.eraseIdx k }

def run (g : DrainGroup) (evs : List DrainEvent) : Option DrainGroup :=
  evs.foldlM (step hilbertC2i uninit conf) g

/-- The servers have just started. -/
def init (spaces : Nat → SSpace) : DrainGroup where
  server := (Group.init conf spaces).server
  drainList _ := []
  net := []

def Ok (g : DrainGroup) : Prop :=
  ∀ rank, (g.server rank).Ok hilbertC2i (uninit rank) conf rank

end Run

end DrainGroup

/-! ## An update of the owner -/

section Owner

variable {de : DhtTable} {odsc : ObjDesc}

/-- The descriptor is found again, with the new owner. -/
theorem dhtFindExact_dhtUpdateOwner (clearFlag : Bool) :
    (de.dhtUpdateOwner odsc clearFlag).dhtFindExact odsc =
      (de.dhtFindExact odsc).map fun odscl =>
        { odscl with odsc := odscl.odsc.withOwner odsc.owner clearFlag } := by
  have hindex : (de.dhtUpdateOwner odsc clearFlag).index odsc = de.index odsc := rfl
  rw [DhtTable.dhtFindExact, hindex]
  simp only [DhtTable.dhtUpdateOwner, Function.update_self]
  rw [find?_updateFirst]
  · rfl
  · intro odscl
    rfl

theorem dhtUpdateOwner_eq_self_iff (clearFlag : Bool) :
    de.dhtUpdateOwner odsc clearFlag = de ↔
      ∀ odscl, de.dhtFindExact odsc = some odscl →
        odscl.odsc.withOwner odsc.owner clearFlag = odscl.odsc := by
  have hbin := updateFirst_eq_self_iff (p := fun odscl : Slot => objDescEqualsNoOwner odsc odscl.odsc)
    (f := fun odscl => { odscl with odsc := odscl.odsc.withOwner odsc.owner clearFlag })
    (de.odscHash (de.index odsc))
  have hslot : ∀ odscl : Slot, ({ odscl with odsc := odscl.odsc.withOwner odsc.owner clearFlag } : Slot) =
      odscl ↔ odscl.odsc.withOwner odsc.owner clearFlag = odscl.odsc := by
    intro odscl
    rw [Slot.mk.injEq]
    simp
  simp only [hslot] at hbin
  -- only the bin that is searched can change
  rw [DhtTable.dhtFindExact, ← hbin]
  constructor
  · intro h
    have := congrFun (congrArg DhtTable.odscHash h) (de.index odsc)
    simpa only [DhtTable.dhtUpdateOwner, Function.update_self] using this
  · intro h
    rw [DhtTable.dhtUpdateOwner, h, Function.update_eq_self]

theorem dhtUpdateOwner_idem (clearFlag : Bool) :
    (de.dhtUpdateOwner odsc clearFlag).dhtUpdateOwner odsc clearFlag =
      de.dhtUpdateOwner odsc clearFlag := by
  rw [dhtUpdateOwner_eq_self_iff, dhtFindExact_dhtUpdateOwner]
  intro odscl h
  rcases Option.map_eq_some_iff.1 h with ⟨s, -, rfl⟩
  cases clearFlag with
  | false => rfl
  | true =>
      simp only [ObjDesc.withOwner, if_true]
      rw [UInt32.and_assoc, UInt32.and_self]

theorem and_not_flag_eq_self_iff (flags : UInt32) :
    flags &&& ~~~DS_CLIENT_STORAGE = flags ↔ flags &&& DS_CLIENT_STORAGE = 0 := by
  constructor
  · intro h
    rw [← h, UInt32.and_assoc]
    exact UInt32.and_zero
  · intro h
    -- the flag is bit 0
    have hbit : flags.toBitVec.getLsbD 0 = false := by
      have := congrArg (fun x : UInt32 => x.toBitVec.getLsbD 0) h
      simpa using this
    refine UInt32.toBitVec_inj.1 (BitVec.eq_of_getLsbD_eq fun i hi => ?_)
    rw [UInt32.toBitVec_and, UInt32.toBitVec_not, BitVec.getLsbD_and, BitVec.getLsbD_not]
    rcases Nat.eq_zero_or_pos i with rfl | hpos
    · rw [hbit, Bool.false_and]
    · have hone : DS_CLIENT_STORAGE.toBitVec.getLsbD i = false := by
        show (1#32).getLsbD i = false
        rw [BitVec.getLsbD_one]
        simp
        omega
      rw [hone, decide_eq_true hi]
      simp

/-- The owner and the flag are already as the update would leave them. -/
theorem withOwner_eq_self_iff {owner : Owner} :
    odsc.withOwner owner true = odsc ↔ odsc.owner = owner ∧ odsc.flags &&& DS_CLIENT_STORAGE = 0 := by
  rw [← and_not_flag_eq_self_iff]
  constructor
  · intro h
    exact ⟨(congrArg ObjDesc.owner h).symm, congrArg ObjDesc.flags h⟩
  · rintro ⟨howner, hflags⟩
    simp only [ObjDesc.withOwner, if_true, hflags, ← howner]

theorem flags_withOwner (owner : Owner) :
    (odsc.withOwner owner true).flags &&& DS_CLIENT_STORAGE = 0 := by
  simp only [ObjDesc.withOwner, if_true]
  rw [UInt32.and_assoc]
  exact UInt32.and_zero

end Owner

namespace Server

variable {hilbertC2i : HilbertC2i} {uninit : Unwritten} {conf : Conf} {sv : Server}

/-- The owner is updated in the default space. -/
def updateDflt (sv : Server) (odsc : ObjDesc) : Server :=
  sv.setEntSelf sv.dflt.id (sv.dflt.entSelf.dhtUpdateOwner odsc true)

theorem setEntSelf_idem (sv : Server) (id : Nat) (table : DhtTable) :
    (sv.setEntSelf id table).setEntSelf id table = sv.setEntSelf id table := by
  have hentry : ∀ e : SpaceEntry, (e.setEntSelf id table).setEntSelf id table = e.setEntSelf id table := by
    intro e
    simp only [SpaceEntry.setEntSelf]
    split <;> simp
  simp only [setEntSelf, hentry, List.map_map, Function.comp_def]

theorem updateDflt_idem (sv : Server) (odsc : ObjDesc) :
    (sv.updateDflt odsc).updateDflt odsc = sv.updateDflt odsc := by
  have hdflt : (sv.updateDflt odsc).dflt =
      { sv.dflt with entSelf := sv.dflt.entSelf.dhtUpdateOwner odsc true } := by
    simp only [updateDflt, setEntSelf, SpaceEntry.setEntSelf, if_true]
  rw [updateDflt, hdflt]
  simp only [dhtUpdateOwner_idem]
  exact setEntSelf_idem _ _ _

/-- Without global dimensions a lookup returns the default space. -/
theorem lookupSspace_of_ndim_zero {gdim : GlobalDimension} (h : gdim.ndim = 0) :
    lookupSspace hilbertC2i uninit conf sv gdim = some (sv, sv.dflt) := by
  have hfind : sv.findSspace gdim = some sv.dflt := by
    rw [findSspace, if_pos]
    rw [globalDimensionEqual, h]
    rfl
  simp only [lookupSspace, hfind]

theorem objUpdateRpcAs_owner {msg : UpdateMsg} (h : msg.gdim.ndim = 0) :
    objUpdateRpcAs hilbertC2i uninit conf .owner sv msg = some (sv.updateDflt msg.odsc) := by
  simp only [objUpdateRpcAs, lookupSspace_of_ndim_zero h, Option.bind_eq_bind, Option.bind_some]
  rfl

theorem distributeAs_owner (odsc : ObjDesc) (gdim : GlobalDimension) (e : SpaceEntry) (ranks : List Nat) :
    ∀ sv : Server, distributeAs hilbertC2i uninit .owner odsc gdim e ranks sv =
      some (if sv.rank ∈ ranks then sv.setEntSelf e.id (e.entSelf.dhtUpdateOwner odsc true) else sv,
        (ranks.filter fun dest => dest ≠ sv.rank).map fun dest => ⟨dest, odsc, gdim⟩) := by
  induction ranks with
  | nil =>
      intro sv
      rfl
  | cons rank ranks ih =>
      intro sv
      rw [distributeAs]
      by_cases hr : rank = sv.rank
      · have hrank : (sv.setEntSelf e.id (e.entSelf.dhtUpdateOwner odsc true)).rank = sv.rank := rfl
        rw [if_pos hr]
        -- the server itself updates its own table
        simp only [objUpdateLocalDhtAs, Option.bind_eq_bind, Option.bind_some, ih, hrank, setEntSelf_idem]
        subst hr
        simp
      · rw [if_neg hr]
        simp only [Option.bind_eq_bind, Option.bind_some, ih]
        simp [hr, Ne.symm hr]

/-- `obj_update_dht` for an object without global dimensions. -/
theorem objUpdateDhtAs_owner {gdim : GlobalDimension} (h : gdim.ndim = 0) (odsc : ObjDesc) :
    objUpdateDhtAs hilbertC2i uninit conf .owner sv odsc gdim =
      (hashAt hilbertC2i uninit sv.dflt.id sv.dflt.ssd odsc.bb sv.sfcHash).map fun r =>
        let ranks := r.1.map DePtr.rank
        (if sv.rank ∈ askedRanks sv.rank ranks then updateDflt { sv with sfcHash := r.2 } odsc
          else { sv with sfcHash := r.2 },
          (ranks.filter fun dest => dest ≠ sv.rank).map fun dest => ⟨dest, odsc, gdim⟩) := by
  simp only [objUpdateDhtAs, lookupSspace_of_ndim_zero h, Option.bind_eq_bind, Option.bind_some]
  cases hashAt hilbertC2i uninit sv.dflt.id sv.dflt.ssd odsc.bb sv.sfcHash with
  | none => rfl
  | some r =>
      rcases r with ⟨deTab, sfc⟩
      cases deTab with
      | nil => simp [askedRanks, objUpdateLocalDhtAs, updateDflt]
      | cons de deTab =>
          simp only [Option.bind_some, List.isEmpty_cons, Bool.false_eq_true, if_false,
            distributeAs_owner, Option.map_some]
          rfl

/-- The servers that an update of the owner goes to: those that `ssd_hash` selects in the default space, or
the server itself if it selects none. -/
def ownerRanks (hilbertC2i : HilbertC2i) (uninit : Unwritten) (sv : Server) (odsc : ObjDesc) :
    Option (List Nat) :=
  (hashAt hilbertC2i uninit sv.dflt.id sv.dflt.ssd odsc.bb sv.sfcHash).map fun r =>
    askedRanks sv.rank (r.1.map DePtr.rank)

/-- The tables of the server after an update in the default space. -/
theorem Ok.tableOf_updateDflt {rank : Nat} (h : sv.Ok hilbertC2i uninit conf rank) (odsc : ObjDesc)
    (gd : GlobalDimension) :
    (sv.updateDflt odsc).tableOf conf gd =
      if globalDimensionEqual gd conf.defaultGdim then sv.dflt.entSelf.dhtUpdateOwner odsc true
      else sv.tableOf conf gd := by
  -- the other spaces have other numbers
  have hlist : sv.sspaceList.map (fun e => e.setEntSelf sv.dflt.id
      (sv.dflt.entSelf.dhtUpdateOwner odsc true)) = sv.sspaceList := by
    refine (List.map_congr_left fun e he => ?_).trans (List.map_id _)
    have hpos := (h.numbered e he).1
    rw [SpaceEntry.setEntSelf, if_neg (by rw [h.dflt_id]; omega)]
    rfl
  simp only [tableOf, findSspace, updateDflt, Server.setEntSelf, hlist, SpaceEntry.gdim_setEntSelf,
    h.dflt_gdim]
  by_cases hd : globalDimensionEqual gd conf.defaultGdim = true
  · simp [hd, SpaceEntry.setEntSelf]
  · simp only [hd]
    rfl

/-- The server and its updates after `get_client_data`. -/
theorem getClientData_spec {sv' : Server} {self : Nat} (hok : sv.Ok hilbertC2i uninit conf self)
    {odsc : ObjDesc} {deTab : List DePtr} {sfc : SfcHashList}
    (hhash : hashAt hilbertC2i uninit sv.dflt.id sv.dflt.ssd odsc.bb sv.sfcHash = some (deTab, sfc))
    {answer : Option Buf} {msgs : List UpdateMsg}
    (h : getClientData hilbertC2i uninit conf sv odsc answer = some (sv', msgs)) :
    sv'.Ok hilbertC2i uninit conf self ∧
      (∀ gd, sv'.tableOf conf gd =
        if self ∈ askedRanks self (deTab.map DePtr.rank) ∧
            globalDimensionEqual gd conf.defaultGdim = true then
          sv.dflt.entSelf.dhtUpdateOwner { odsc with owner := .server self } true
        else sv.tableOf conf gd) ∧
      sv'.ls = (answer.map fun data => sv.ls.lsAddObj
        (objDataAllocNoData { odsc with owner := .server self } data)).getD sv.ls ∧
      msgs = ((deTab.map DePtr.rank).filter fun dest => dest ≠ self).map fun dest =>
        ⟨dest, { odsc with owner := .server self }, ⟨0, Coord.ofFn fun _ => 0⟩⟩ := by
  obtain rfl := hok.rank
  replace h := (getClientData_some _ _ _ h).2
  rw [objUpdateDhtAs_owner rfl] at h
  generalize (answer.map fun data => sv.ls.lsAddObj
    (objDataAllocNoData { odsc with owner := .server sv.rank } data)).getD sv.ls = ls at h ⊢
  -- what is stored first changes neither tables nor cache
  have hstored : Ok hilbertC2i uninit conf sv.rank { sv with ls := ls, sfcHash := sfc } :=
    hok.congr rfl rfl rfl
  simp only [hhash, Option.map_some, Option.some.injEq, Prod.mk.injEq] at h
  rcases h with ⟨rfl, rfl⟩
  refine ⟨?_, fun gd => ?_, ?_, rfl⟩
  · split
    · exact hstored.setEntSelf _ _
    · exact hstored
  · by_cases hasked : sv.rank ∈ askedRanks sv.rank (deTab.map DePtr.rank)
    · rw [if_pos hasked, hstored.tableOf_updateDflt]
      simp only [hasked, true_and]
      rfl
    · rw [if_neg hasked, if_neg (fun h => hasked h.1)]
      rfl
  · split <;> rfl

end Server

/-! ## A turn of the drain thread -/

namespace DrainGroup

variable {hilbertC2i : HilbertC2i} {uninit : Nat → Unwritten} {conf : Conf} {g : DrainGroup}

/-- Updates of the owner that arrive one after the other; what order they come in does not matter. -/
theorem arriveAll_owner {odsc : ObjDesc} {gdim : GlobalDimension} (h : gdim.ndim = 0)
    (ranks : List Nat) : ∀ g : DrainGroup,
      (ranks.map fun dest => (ObjUpdateType.owner, (⟨dest, odsc, gdim⟩ : UpdateMsg))).foldlM
          (arrive hilbertC2i uninit conf) g =
        some { g with server := fun r =>
          if r ∈ ranks then (g.server r).updateDflt odsc else g.server r } := by
  induction ranks with
  | nil =>
      intro g
      simp
  | cons rank ranks ih =>
      intro g
      have harrive : arrive hilbertC2i uninit conf g (.owner, ⟨rank, odsc, gdim⟩) =
          some (g.setServer rank ((g.server rank).updateDflt odsc)) := by
        rw [arrive, Server.objUpdateRpcAs_owner h, Option.map_some]
      rw [List.map_cons, List.foldlM_cons, harrive, Option.bind_eq_bind, Option.bind_some, ih]
      -- a second update of the same rank changes nothing more
      have hserver : (fun r => if r ∈ ranks then
          ((g.setServer rank ((g.server rank).updateDflt odsc)).server r).updateDflt odsc
          else (g.setServer rank ((g.server rank).updateDflt odsc)).server r) =
          fun r => if r ∈ rank :: ranks then (g.server r).updateDflt odsc else g.server r := by
        funext r
        simp only [setServer, Function.update_apply, List.mem_cons]
        by_cases hr : r = rank
        · subst hr
          simp [Server.updateDflt_idem]
        · simp [hr]
      rw [hserver]
      rfl

/-- The group after a turn of the drain thread of a server and the arrival of its updates. -/
structure Turned (conf : Conf) (g : DrainGroup) (rank : Nat) (odsc : ObjDesc) (rest : List ObjDesc)
    (answer : Option Buf) (asked : List Nat) (g' : DrainGroup) : Prop where
  tables : ∀ r gd, (g'.server r).tableOf conf gd =
    if r ∈ asked ∧ globalDimensionEqual gd conf.defaultGdim = true then
      (g.server r).dflt.entSelf.dhtUpdateOwner { odsc with owner := .server rank } true
    else (g.server r).tableOf conf gd
  ls : ∀ r, (g'.server r).ls = if r = rank then
      (answer.map fun data => (g.server r).ls.lsAddObj
        (objDataAllocNoData { odsc with owner := .server rank } data)).getD (g.server r).ls
    else (g.server r).ls
  drainList : ∀ r, g'.drainList r = if r = rank then
      (if answer.isSome then rest else rest ++ [odsc])
    else g.drainList r

theorem drainTurn_spec (hok : g.Ok hilbertC2i uninit conf) {self : Nat} {odsc : ObjDesc}
    {rest : List ObjDesc} (hlist : g.drainList self = odsc :: rest) {deTab : List DePtr}
    {sfc : SfcHashList}
    (hhash : hashAt hilbertC2i (uninit self) (g.server self).dflt.id (g.server self).dflt.ssd odsc.bb
      (g.server self).sfcHash = some (deTab, sfc))
    {answer : Option Buf} {g₁ g' : DrainGroup} {updates order : List (ObjUpdateType × UpdateMsg)}
    (hturn : g.drainTurn hilbertC2i uninit conf self answer = some (g₁, updates))
    (horder : order.Perm updates)
    (harrive : order.foldlM (arrive hilbertC2i uninit conf) g₁ = some g') :
    Turned conf g self odsc rest answer (askedRanks self (deTab.map DePtr.rank)) g' := by
  have hself := (hok self).rank
  simp only [drainTurn, hlist] at hturn
  rcases Option.map_eq_some_iff.1 hturn with ⟨⟨sv', msgs⟩, hget, heq⟩
  cases heq
  rcases Server.getClientData_spec (hok self) hhash hget with ⟨hok', htables, hls, rfl⟩
  -- whatever the order, the updates are those of the same servers
  have hform : order = (order.map fun up => up.2.dest).map fun dest =>
      (ObjUpdateType.owner, (⟨dest, { odsc with owner := .server self },
        ⟨0, Coord.ofFn fun _ => 0⟩⟩ : UpdateMsg)) := by
    rw [List.map_map]
    refine (List.map_id _).symm.trans (List.map_congr_left fun up hup => ?_)
    have hmem := horder.mem_iff.1 hup
    simp only [List.map_map, List.mem_map, Function.comp_apply] at hmem
    rcases hmem with ⟨dest, -, rfl⟩
    rfl
  have hdests : ∀ r, r ∈ (order.map fun up => up.2.dest) ↔
      r ∈ deTab.map DePtr.rank ∧ r ≠ self := by
    intro r
    rw [(horder.map _).mem_iff]
    simp only [List.map_map, Function.comp_def, List.map_id', List.mem_filter, decide_eq_true_eq]
  rw [hform, arriveAll_owner rfl, Option.some.injEq] at harrive
  have hserver : ∀ r, g'.server r =
      if r ∈ (order.map fun up => up.2.dest) then
        (Function.update g.server self sv' r).updateDflt { odsc with owner := .server self }
      else Function.update g.server self sv' r := by
    intro r
    rw [← harrive]
  have hasked : ∀ r, r ≠ self →
      (r ∈ askedRanks self (deTab.map DePtr.rank) ↔ r ∈ deTab.map DePtr.rank) := by
    intro r hr
    rw [askedRanks]
    split
    · next hnil =>
        rw [List.isEmpty_iff.1 hnil]
        simp [hr]
    · rfl
  refine ⟨fun r gd => ?_, fun r => ?_, fun r => ?_⟩
  · rw [hserver]
    by_cases hr : r = self
    · subst hr
      rw [if_neg (fun h => ((hdests r).1 h).2 rfl), Function.update_self]
      exact htables gd
    · simp only [hdests, Function.update_of_ne hr, ne_eq, hr, not_false_eq_true, and_true, hasked r hr]
      by_cases hin : r ∈ deTab.map DePtr.rank
      · rw [if_pos hin, (hok r).tableOf_updateDflt]
        simp only [hin, true_and]
      · rw [if_neg hin, if_neg (fun h => hin h.1)]
  · rw [hserver]
    by_cases hr : r = self
    · subst hr
      rw [if_neg (fun h => ((hdests r).1 h).2 rfl), if_pos rfl, Function.update_self]
      exact hls
    · rw [if_neg hr, Function.update_of_ne hr]
      split <;> rfl
  · rw [← harrive]
    simp only [Function.update_apply]

/-- A turn that returns has computed the servers to update. -/
theorem exists_hash_of_drainTurn {self : Nat} {odsc : ObjDesc} {rest : List ObjDesc}
    (hlist : g.drainList self = odsc :: rest) {answer : Option Buf}
    {r : DrainGroup × List (ObjUpdateType × UpdateMsg)}
    (hturn : g.drainTurn hilbertC2i uninit conf self answer = some r) :
    ∃ deTab sfc, hashAt hilbertC2i (uninit self) (g.server self).dflt.id (g.server self).dflt.ssd odsc.bb
      (g.server self).sfcHash = some (deTab, sfc) := by
  simp only [drainTurn, hlist] at hturn
  rcases Option.map_eq_some_iff.1 hturn with ⟨r', hget, -⟩
  replace hget := (Server.getClientData_some _ _ _ hget).2
  rw [Server.objUpdateDhtAs_owner rfl] at hget
  rcases Option.map_eq_some_iff.1 hget with ⟨⟨deTab, sfc⟩, hhash, -⟩
  exact ⟨deTab, sfc, hhash⟩

/-! ## All servers stay in order -/

theorem Ok.setServer (hok : g.Ok hilbertC2i uninit conf) {rank : Nat} {sv : Server}
    (hsv : sv.Ok hilbertC2i (uninit rank) conf rank) :
    ∀ r, (Function.update g.server rank sv r).Ok hilbertC2i (uninit r) conf r := by
  intro r
  by_cases hr : r = rank
  · subst hr
    rw [Function.update_self]
    exact hsv
  · rw [Function.update_of_ne hr]
    exact hok r

theorem Ok.drainTurn (hok : g.Ok hilbertC2i uninit conf) {rank : Nat} {answer : Option Buf}
    {r : DrainGroup × List (ObjUpdateType × UpdateMsg)}
    (hturn : g.drainTurn hilbertC2i uninit conf rank answer = some r) :
    r.1.Ok hilbertC2i uninit conf := by
  cases hlist : g.drainList rank with
  | nil =>
      simp only [DrainGroup.drainTurn, hlist, Option.some.injEq] at hturn
      rw [← hturn]
      exact hok
  | cons odsc rest =>
      rcases exists_hash_of_drainTurn hlist hturn with ⟨deTab, sfc, hhash⟩
      simp only [DrainGroup.drainTurn, hlist] at hturn
      rcases Option.map_eq_some_iff.1 hturn with ⟨⟨sv', msgs⟩, hget, rfl⟩
      exact hok.setServer (Server.getClientData_spec (hok rank) hhash hget).1

theorem Ok.arrive (hok : g.Ok hilbertC2i uninit conf) {update : ObjUpdateType × UpdateMsg}
    {g' : DrainGroup} (h : g.arrive hilbertC2i uninit conf update = some g') :
    g'.Ok hilbertC2i uninit conf := by
  rcases update with ⟨type, msg⟩
  rcases Option.map_eq_some_iff.1 h with ⟨sv, hupd, rfl⟩
  rcases Option.bind_eq_some_iff.1 hupd with ⟨⟨sv', e⟩, hlook, hupd⟩
  have hsv' := (Server.lookupSspace_cases (hok msg.dest) hlook).1
  refine hok.setServer ?_
  cases type with
  | new => exact hsv'.objUpdateLocalDht hupd
  | owner =>
      cases hupd
      exact hsv'.setEntSelf _ _

theorem Ok.step (hok : g.Ok hilbertC2i uninit conf) {ev : DrainEvent} {g' : DrainGroup}
    (hstep : g.step hilbertC2i uninit conf ev = some g') : g'.Ok hilbertC2i uninit conf := by
  cases ev with
  | putLocal rank odsc gdim =>
      rcases Option.map_eq_some_iff.1 hstep with ⟨r, hupd, rfl⟩
      rw [Server.objUpdateDhtAs_new] at hupd
      exact hok.setServer ((hok rank).objUpdateDht hupd)
  | drain rank answer =>
      rcases Option.map_eq_some_iff.1 hstep with ⟨r, hturn, rfl⟩
      exact hok.drainTurn hturn
  | deliver k =>
      rcases Option.bind_eq_some_iff.1 hstep with ⟨update, -, hstep⟩
      rcases Option.map_eq_some_iff.1 hstep with ⟨g₁, harrive, rfl⟩
      exact fun r => hok.arrive harrive r

theorem Ok.run (evs : List DrainEvent) :
    ∀ g g' : DrainGroup, g.Ok hilbertC2i uninit conf → g.run hilbertC2i uninit conf evs = some g' →
      g'.Ok hilbertC2i uninit conf :=
  (Runs.isRun_foldlM _).keeps (fun _ _ _ h hstep => h.step hstep) evs

end DrainGroup

/-! ### A put of two cells of server 0 -/

/-- A descriptor that a client registers. -/
def clientDesc : ObjDesc :=
  { plainDesc 0 (BBox.line 0 1) with owner := .client 0, flags := DS_CLIENT_STORAGE }

/-- The group after the client has registered the descriptor. -/
def registered (gdim : GlobalDimension) : Option DrainGroup :=
  (DrainGroup.init lineConf fun _ => lineSpaceV2).run lineC2i zeroed lineConf [.putLocal 0 clientDesc gdim]

end DataSpaces
