import DataSpaces.Drain
import DataSpaces.Retention

/-!
# DrainRuns — what a failed drain changes

`get_client_data` updates the owner in the default space whatever the client answers.  So after a failed
drain a descriptor that is found there names a server that has no data, with the flag
`DS_CLIENT_STORAGE` cleared, although the descriptor is still on the list.  What follows for whole runs
also depends on the eviction at a successful drain, which may take the object of another descriptor.
-/

namespace DataSpaces

/-! ## One failed drain -/

/-- Storages, tables and lists of descriptors to drain are as before. -/
structure DrainGroup.SameAs (conf : Conf) (g g' : DrainGroup) : Prop where
  ls : ∀ r, (g'.server r).ls = (g.server r).ls
  tables : ∀ r gd, (g'.server r).tableOf conf gd = (g.server r).tableOf conf gd
  drainList : ∀ r, (g'.drainList r).Perm (g.drainList r)

section Failed

variable {hilbertC2i : HilbertC2i} {uninit : Nat → Unwritten} {conf : Conf} {g : DrainGroup}

theorem DrainGroup.Ok.tableOf_default (hok : g.Ok hilbertC2i uninit conf) {r : Nat} :
    (g.server r).tableOf conf conf.defaultGdim = (g.server r).dflt.entSelf := by
  rw [Server.tableOf, Server.findSspace, (hok r).dflt_gdim,
    if_pos (globalDimensionEqual_iff.2 fun _ _ => rfl)]

/-- A failed drain changes nothing exactly when the servers it updates do not find the descriptor in their
default table, or find the update already there. -/
theorem failed_drain_sameAs_iff (hok : g.Ok hilbertC2i uninit conf) {self : Nat} {odsc : ObjDesc}
    {rest : List ObjDesc} (hlist : g.drainList self = odsc :: rest) {asked : List Nat}
    (hasked : (g.server self).ownerRanks hilbertC2i (uninit self) odsc = some asked)
    {g₁ g' : DrainGroup} {updates order : List (ObjUpdateType × UpdateMsg)}
    (hturn : g.drainTurn hilbertC2i uninit conf self none = some (g₁, updates))
    (horder : order.Perm updates)
    (harrive : order.foldlM (DrainGroup.arrive hilbertC2i uninit conf) g₁ = some g') :
    DrainGroup.SameAs conf g g' ↔
      ∀ r ∈ asked, ∀ s, (g.server r).dflt.entSelf.dhtFindExact odsc = some s →
        s.odsc.owner = .server self ∧ s.odsc.flags &&& DS_CLIENT_STORAGE = 0 := by
  rcases Option.map_eq_some_iff.1 hasked with ⟨⟨deTab, sfc⟩, hhash, rfl⟩
  have hspec := DrainGroup.drainTurn_spec hok hlist hhash hturn horder harrive
  rw [(hok self).rank]
  have hself : globalDimensionEqual conf.defaultGdim conf.defaultGdim = true :=
    globalDimensionEqual_iff.2 fun _ _ => rfl
  -- the table of a server that is updated stays as it is
  have htable : ∀ r, (g.server r).dflt.entSelf.dhtUpdateOwner { odsc with owner := .server self } true =
      (g.server r).dflt.entSelf ↔
        ∀ s, (g.server r).dflt.entSelf.dhtFindExact odsc = some s →
          s.odsc.owner = .server self ∧ s.odsc.flags &&& DS_CLIENT_STORAGE = 0 := by
    intro r
    rw [dhtUpdateOwner_eq_self_iff]
    simp only [withOwner_eq_self_iff]
    rfl
  constructor
  · intro hsame r hr
    refine (htable r).1 ?_
    have hkept := hsame.tables r conf.defaultGdim
    rw [hspec.tables, if_pos ⟨hr, hself⟩, hok.tableOf_default] at hkept
    exact hkept
  · intro hall
    refine ⟨fun r => ?_, fun r gd => ?_, fun r => ?_⟩
    · rw [hspec.ls]
      split <;> rfl
    · rw [hspec.tables]
      split
      · next h =>
          rw [(htable r).2 (hall r h.1), Server.tableOf, Server.findSspace, (hok r).dflt_gdim, if_pos h.2]
      · rfl
    · rw [hspec.drainList]
      split
      · next hr =>
          subst hr
          rw [hlist]
          exact List.perm_append_singleton _ _
      · exact List.Perm.refl _

end Failed

/-! ## The descriptors of a server -/

/-- A node in one of the tables of the server. -/
def Server.HasSlot (sv : Server) (s : Slot) : Prop :=
  ∃ e ∈ sv.dflt :: sv.sspaceList, ∃ n, s ∈ e.entSelf.odscHash n

section Slots

variable {hilbertC2i : HilbertC2i} {uninit : Unwritten} {conf : Conf} {sv sv' : Server} {odsc : ObjDesc}

theorem hasSlot_setEntSelf {id : Nat} {table : DhtTable} {s : Slot}
    (h : (sv.setEntSelf id table).HasSlot s) : sv.HasSlot s ∨ ∃ n, s ∈ table.odscHash n := by
  have hentry : ∀ (e : SpaceEntry) n, s ∈ (e.setEntSelf id table).entSelf.odscHash n →
      s ∈ e.entSelf.odscHash n ∨ s ∈ table.odscHash n := by
    intro e n hs
    rw [SpaceEntry.setEntSelf] at hs
    split at hs
    · exact Or.inr hs
    · exact Or.inl hs
  rcases h with ⟨e, he, n, hs⟩
  have hsource : ∃ e₀ ∈ sv.dflt :: sv.sspaceList, e = e₀.setEntSelf id table := by
    rcases List.mem_cons.1 he with rfl | he
    · exact ⟨sv.dflt, List.mem_cons_self, rfl⟩
    · rcases List.mem_map.1 he with ⟨e₀, he₀, rfl⟩
      exact ⟨e₀, List.mem_cons_of_mem _ he₀, rfl⟩
  rcases hsource with ⟨e₀, he₀, rfl⟩
  rcases hentry e₀ n hs with hold | hnew
  · exact Or.inl ⟨e₀, he₀, n, hold⟩
  · exact Or.inr ⟨n, hnew⟩

/-- `dht_add_entry` makes no other descriptor than the one it is given. -/
theorem mem_dhtAddEntry {count : BBox → Option Int64} {de : DhtTable} {r : DhtTable × List DhtSub}
    (h : dhtAddEntry count de odsc = some r) {n : Nat} {s : Slot} (hs : s ∈ r.1.odscHash n) :
    s.odsc = odsc ∨ s ∈ de.odscHash n := by
  rcases Option.bind_eq_some_iff.1 h with ⟨notified, -, h⟩
  cases h
  cases hfind : de.dhtFindMatch odsc with
  | none =>
      have hs' : s ∈ (de.store odsc).odscHash n := hs
      -- a new descriptor goes in front
      rw [DhtTable.odscHash_store_of_new hfind] at hs'
      split at hs'
      · rcases List.mem_cons.1 hs' with rfl | hs'
        · exact Or.inl rfl
        · exact Or.inr hs'
      · exact Or.inr hs'
  | some odscl =>
      have hs' : s ∈ (de.store odsc).odscHash n := hs
      -- it takes the place of the one that matches
      rw [DhtTable.odscHash_store_of_match hfind] at hs'
      split at hs'
      · rcases List.mem_map.1 hs' with ⟨s₀, hs₀, rfl⟩
        split
        · exact Or.inl rfl
        · exact Or.inr hs₀
      · exact Or.inr hs'

theorem mem_dhtUpdateOwner {de : DhtTable} {n : Nat} {s : Slot}
    (hs : s ∈ (de.dhtUpdateOwner odsc true).odscHash n) :
    s ∈ de.odscHash n ∨
      ∃ s₀, de.dhtFindExact odsc = some s₀ ∧ s.odsc = s₀.odsc.withOwner odsc.owner true := by
  simp only [DhtTable.dhtUpdateOwner, Function.update_apply] at hs
  split at hs
  · next hn =>
      rw [hn]
      rcases mem_updateFirst hs with hold | ⟨s₀, hs₀, rfl⟩
      · exact Or.inl hold
      · exact Or.inr ⟨s₀, hs₀, rfl⟩
  · exact Or.inl hs

theorem hasSlot_updateDflt {s : Slot} (h : (sv.updateDflt odsc).HasSlot s) :
    sv.HasSlot s ∨ ∃ s₀, sv.dflt.entSelf.dhtFindExact odsc = some s₀ ∧
      s.odsc = s₀.odsc.withOwner odsc.owner true := by
  rcases hasSlot_setEntSelf h with hold | ⟨n, hs⟩
  · exact Or.inl hold
  · rcases mem_dhtUpdateOwner hs with hold | hnew
    · exact Or.inl ⟨sv.dflt, List.mem_cons_self, n, hold⟩
    · exact Or.inr hnew

/-- A lookup makes no descriptor. -/
theorem hasSlot_lookupSspace {gdim : GlobalDimension} {e : SpaceEntry}
    (h : Server.lookupSspace hilbertC2i uninit conf sv gdim = some (sv', e)) :
    (∀ s, sv'.HasSlot s → sv.HasSlot s) ∧ (∀ n, ∀ s ∈ e.entSelf.odscHash n, sv.HasSlot s) ∧
      sv'.ls = sv.ls := by
  rw [Server.lookupSspace] at h
  split at h
  · next e' hfind =>
      cases h
      -- the space is there
      refine ⟨fun s hs => hs, fun n s hs => ?_, rfl⟩
      rw [Server.findSspace] at hfind
      split at hfind
      · cases hfind
        exact ⟨_, List.mem_cons_self, n, hs⟩
      · exact ⟨e, List.mem_cons_of_mem _ (List.mem_of_find?_eq_some hfind), n, hs⟩
  · rcases Option.map_eq_some_iff.1 h with ⟨ssd, -, heq⟩
    cases heq
    -- a new space has an empty table
    refine ⟨?_, fun n s hs => by simp [dhtEntryAlloc] at hs, rfl⟩
    rintro s ⟨e', he', n, hs⟩
    rcases List.mem_cons.1 he' with rfl | he'
    · exact ⟨_, List.mem_cons_self, n, hs⟩
    · rcases List.mem_cons.1 he' with rfl | he'
      · simp [dhtEntryAlloc] at hs
      · exact ⟨e', List.mem_cons_of_mem _ he', n, hs⟩

/-- What holds of the descriptors of a server and of the new one holds after the update. -/
theorem hasSlot_objUpdateLocalDht {P : Slot → Prop} {e : SpaceEntry}
    (h : Server.objUpdateLocalDht hilbertC2i uninit sv e odsc = some sv')
    (hnew : ∀ s : Slot, s.odsc = odsc → P s) (he : ∀ n, ∀ s ∈ e.entSelf.odscHash n, P s)
    (hsv : ∀ s, sv.HasSlot s → P s) : (∀ s, sv'.HasSlot s → P s) ∧ sv'.ls = sv.ls := by
  rcases Option.map_eq_some_iff.1 h with ⟨r, hadd, rfl⟩
  refine ⟨fun s hs => ?_, rfl⟩
  rcases hasSlot_setEntSelf hs with hold | ⟨n, hs⟩
  · exact hsv s hold
  · rcases mem_dhtAddEntry hadd hs with hodsc | hold
    · exact hnew s hodsc
    · exact he n s hold

theorem hasSlot_distribute {P : Slot → Prop} {gdim : GlobalDimension} {e : SpaceEntry}
    (hnew : ∀ s : Slot, s.odsc = odsc → P s) (he : ∀ n, ∀ s ∈ e.entSelf.odscHash n, P s)
    (ranks : List Nat) :
    ∀ (sv : Server) (r : Server × List UpdateMsg),
      Server.distribute hilbertC2i uninit odsc gdim e ranks sv = some r → (∀ s, sv.HasSlot s → P s) →
      (∀ s, r.1.HasSlot s → P s) ∧ r.1.ls = sv.ls ∧ ∀ msg ∈ r.2, msg.odsc = odsc := by
  induction ranks with
  | nil =>
      intro sv r h hsv
      cases h
      exact ⟨hsv, rfl, by simp⟩
  | cons dest ranks ih =>
      intro sv r h hsv
      rw [Server.distribute] at h
      split at h
      · rcases Option.bind_eq_some_iff.1 h with ⟨sv₁, hupd, h⟩
        -- the server itself updates its own table
        have hlocal := hasSlot_objUpdateLocalDht hupd hnew he hsv
        rcases ih sv₁ r h hlocal.1 with ⟨hslots, hls, hmsgs⟩
        exact ⟨hslots, hls.trans hlocal.2, hmsgs⟩
      · rcases Option.bind_eq_some_iff.1 h with ⟨r', hrest, h⟩
        cases h
        rcases ih sv r' hrest hsv with ⟨hslots, hls, hmsgs⟩
        refine ⟨hslots, hls, fun msg hmsg => ?_⟩
        rcases List.mem_cons.1 hmsg with rfl | hmsg
        · rfl
        · exact hmsgs msg hmsg

theorem hasSlot_objUpdateDht {P : Slot → Prop} {gdim : GlobalDimension} {r : Server × List UpdateMsg}
    (h : Server.objUpdateDht hilbertC2i uninit conf sv odsc gdim = some r)
    (hnew : ∀ s : Slot, s.odsc = odsc → P s) (hsv : ∀ s, sv.HasSlot s → P s) :
    (∀ s, r.1.HasSlot s → P s) ∧ r.1.ls = sv.ls ∧ ∀ msg ∈ r.2, msg.odsc = odsc := by
  rcases Option.bind_eq_some_iff.1 h with ⟨⟨sv₁, e⟩, hlook, h⟩
  rcases Option.bind_eq_some_iff.1 h with ⟨⟨dhtTab, sfc⟩, -, h⟩
  rcases hasSlot_lookupSspace hlook with ⟨hslots, hentry, hls⟩
  have he : ∀ n, ∀ s ∈ e.entSelf.odscHash n, P s := fun n s hs => hsv s (hentry n s hs)
  have hsv₁ : ∀ s, Server.HasSlot { sv₁ with sfcHash := sfc } s → P s := fun s hs => hsv s (hslots s hs)
  simp only at h
  split at h
  · rcases Option.bind_eq_some_iff.1 h with ⟨sv₂, hupd, h⟩
    cases h
    have hlocal := hasSlot_objUpdateLocalDht hupd hnew he hsv₁
    exact ⟨hlocal.1, hlocal.2.trans hls, by simp⟩
  · rcases hasSlot_distribute hnew he _ _ r h hsv₁ with ⟨hP, hls', hmsgs⟩
    exact ⟨hP, hls'.trans hls, hmsgs⟩

/-- The server after `get_client_data`: it has stored what it got, and the only new descriptor is the one
that was drained, with the new owner. -/
theorem hasSlot_getClientData {answer : Option Buf} {r : Server × List UpdateMsg}
    (h : Server.getClientData hilbertC2i uninit conf sv odsc answer = some r) :
    r.1.ls = (answer.map fun data => sv.ls.lsAddObj
        (objDataAllocNoData { odsc with owner := .server sv.rank } data)).getD sv.ls ∧
      (∀ msg ∈ r.2, msg.gdim.ndim = 0) ∧
      ∀ s, r.1.HasSlot s → sv.HasSlot s ∨
        (∃ asked, sv.ownerRanks hilbertC2i uninit odsc = some asked ∧ sv.rank ∈ asked) ∧
          ∃ s₀, sv.dflt.entSelf.dhtFindExact odsc = some s₀ ∧
            s.odsc = s₀.odsc.withOwner (.server sv.rank) true := by
  replace h := (Server.getClientData_some _ _ _ h).2
  rw [Server.objUpdateDhtAs_owner rfl] at h
  rcases Option.map_eq_some_iff.1 h with ⟨⟨deTab, sfc⟩, hhash, rfl⟩
  refine ⟨by simp only; split <;> rfl, fun msg hmsg => ?_, fun s hs => ?_⟩
  · rcases List.mem_map.1 hmsg with ⟨dest, -, rfl⟩
    rfl
  · simp only at hs
    split at hs
    · next hasked =>
        rcases hasSlot_updateDflt hs with hold | ⟨s₀, hfind, hodsc⟩
        · exact Or.inl hold
        · exact Or.inr ⟨⟨_, Option.map_eq_some_iff.2 ⟨_, hhash, rfl⟩, hasked⟩, s₀, hfind, hodsc⟩
    · exact Or.inl hs

end Slots

/-! ## Runs -/

/-- The local storage has the object of the descriptor. -/
def Server.Stores (sv : Server) (odsc : ObjDesc) : Prop :=
  ∃ n, ∃ od ∈ sv.ls.objHash n, objDescEqualsNoOwner odsc od.objDesc = true

namespace DrainGroup

/-- The descriptor names a server that stores the object. -/
def Backed (g : DrainGroup) (odsc : ObjDesc) : Prop :=
  ∃ r, odsc.owner = .server r ∧ (g.server r).Stores odsc

/-- A descriptor without the flag `DS_CLIENT_STORAGE` names a server that stores the object. -/
def Right (g : DrainGroup) (s : Slot) : Prop :=
  s.odsc.flags &&& DS_CLIENT_STORAGE = 0 → g.Backed s.odsc

section Safe

variable (hilbertC2i : HilbertC2i) (uninit : Nat → Unwritten) (g : DrainGroup)

/-- The step does not run into one of the two faults.  A client registers a descriptor with the flag; an
update of the owner that is made for an object its server does not store finds no descriptor; and what a
successful drain evicts is the object of a descriptor without the flag only when the object that it stores
has the same name, version and box. -/
def DrainSafe : DrainEvent → Prop
  | .putLocal _ odsc _ => odsc.flags &&& DS_CLIENT_STORAGE ≠ 0
  | .drain rank none => ∀ odsc rest, g.drainList rank = odsc :: rest → ∀ asked,
      (g.server rank).ownerRanks hilbertC2i (uninit rank) odsc = some asked → rank ∈ asked →
      (g.server rank).Stores odsc ∨ (g.server rank).dflt.entSelf.dhtFindExact odsc = none
  | .drain rank (some _) => ∀ odsc rest, g.drainList rank = odsc :: rest → ∀ victim,
      (g.server rank).ls.lsFindNoVersion odsc = some victim →
      ∀ r s, (g.server r).HasSlot s → s.odsc.flags &&& DS_CLIENT_STORAGE = 0 →
        s.odsc.owner = .server rank → objDescEqualsNoOwner s.odsc victim.objDesc = true →
        objDescEqualsNoOwner s.odsc odsc = true
  | .deliver k => ∀ msg, g.net[k]? = some (.owner, msg) →
      g.Backed msg.odsc ∨ (g.server msg.dest).dflt.entSelf.dhtFindExact msg.odsc = none

end Safe

/-- All descriptors are right, and the updates on their way are of the two kinds that are sent. -/
structure Held (g : DrainGroup) : Prop where
  right : ∀ r s, (g.server r).HasSlot s → g.Right s
  new : ∀ msg, (ObjUpdateType.new, msg) ∈ g.net → msg.odsc.flags &&& DS_CLIENT_STORAGE ≠ 0
  owner : ∀ msg, (ObjUpdateType.owner, msg) ∈ g.net → msg.gdim.ndim = 0

theorem held_init (conf : Conf) (spaces : Nat → SSpace) : (init conf spaces).Held where
  right := by
    rintro r s ⟨e, he, n, hs⟩
    simp only [init, Group.init, List.mem_cons, List.not_mem_nil, or_false] at he
    rw [he] at hs
    simp [dhtEntryAlloc] at hs
  new := by simp [init]
  owner := by simp [init]

section Steps

variable {hilbertC2i : HilbertC2i} {uninit : Nat → Unwritten} {conf : Conf} {g g' : DrainGroup}

/-- Only the storages matter. -/
theorem Backed.congr {odsc : ObjDesc} (h : g.Backed odsc)
    (hls : ∀ r, (g'.server r).ls = (g.server r).ls) : g'.Backed odsc := by
  rcases h with ⟨r, howner, n, od, hod, heq⟩
  refine ⟨r, howner, n, od, ?_, heq⟩
  rw [hls r]
  exact hod

theorem Right.congr {s : Slot} (h : g.Right s) (hls : ∀ r, (g'.server r).ls = (g.server r).ls) :
    g'.Right s :=
  fun hflag => (h hflag).congr hls

/-- One server changes, but not its storage. -/
theorem right_update {rank : Nat} {sv : Server} (hserver : g'.server = Function.update g.server rank sv)
    (hls : sv.ls = (g.server rank).ls) (hright : ∀ r s, (g.server r).HasSlot s → g.Right s)
    (hslots : ∀ s, sv.HasSlot s → g.Right s) : ∀ r s, (g'.server r).HasSlot s → g'.Right s := by
  have hlsAll : ∀ r, (g'.server r).ls = (g.server r).ls := by
    intro r
    rw [hserver]
    by_cases hr : r = rank
    · subst hr
      rw [Function.update_self, hls]
    · rw [Function.update_of_ne hr]
  intro r s hs
  refine Right.congr (g := g) ?_ hlsAll
  rw [hserver] at hs
  by_cases hr : r = rank
  · subst hr
    rw [Function.update_self] at hs
    exact hslots s hs
  · rw [Function.update_of_ne hr] at hs
    exact hright r s hs

/-- After an update of the owner the descriptor is backed if the object is stored. -/
theorem right_of_withOwner {odsc : ObjDesc} {s s₀ : Slot} {rank : Nat} (howner : odsc.owner = .server rank)
    {de : DhtTable} (hfind : de.dhtFindExact odsc = some s₀)
    (hs : s.odsc = s₀.odsc.withOwner odsc.owner true) (hstores : (g.server rank).Stores odsc) :
    g.Right s := by
  intro _
  rcases hstores with ⟨n, od, hod, heq⟩
  have hexact : objDescEqualsNoOwner odsc s₀.odsc = true := by
    simpa using List.find?_some hfind
  refine ⟨rank, by rw [hs]; exact howner, n, od, hod, ?_⟩
  rw [hs]
  exact objDescEqualsNoOwner_trans (o := s₀.odsc.withOwner odsc.owner true)
    (objDescEqualsNoOwner_symm hexact) heq

theorem Held.putLocal (h : g.Held) {rank : Nat} {odsc : ObjDesc} {gdim : GlobalDimension}
    (hsafe : odsc.flags &&& DS_CLIENT_STORAGE ≠ 0)
    (hstep : g.putLocalRpc hilbertC2i uninit conf rank odsc gdim = some g') : g'.Held := by
  rcases Option.map_eq_some_iff.1 hstep with ⟨r, hupd, rfl⟩
  rw [Server.objUpdateDhtAs_new] at hupd
  have hflagged : ∀ s : Slot, s.odsc = odsc → g.Right s := by
    intro s hs hflag
    rw [hs] at hflag
    exact absurd hflag hsafe
  rcases hasSlot_objUpdateDht hupd hflagged (h.right rank) with ⟨hslots, hls, hmsgs⟩
  -- tables, then the messages of both kinds
  refine ⟨right_update rfl hls h.right hslots, fun msg hmsg => ?_, fun msg hmsg => ?_⟩
  · rcases List.mem_append.1 hmsg with hmsg | hmsg
    · exact h.new msg hmsg
    · rcases List.mem_map.1 hmsg with ⟨msg', hmsg', heq⟩
      cases heq
      rw [hmsgs msg hmsg']
      exact hsafe
  · rcases List.mem_append.1 hmsg with hmsg | hmsg
    · exact h.owner msg hmsg
    · rcases List.mem_map.1 hmsg with ⟨msg', hmsg', heq⟩
      cases heq

theorem Held.deliver (h : g.Held) (k : Nat) (hsafe : g.DrainSafe hilbertC2i uninit (.deliver k))
    (hstep : g.step hilbertC2i uninit conf (.deliver k) = some g') : g'.Held := by
  rcases Option.bind_eq_some_iff.1 hstep with ⟨⟨type, msg⟩, hk, hstep⟩
  rcases Option.map_eq_some_iff.1 hstep with ⟨g₁, harrive, rfl⟩
  rcases Option.map_eq_some_iff.1 harrive with ⟨sv, hupd, rfl⟩
  have hmem : (type, msg) ∈ g.net := List.mem_of_getElem? hk
  -- the descriptors of the server that the update arrived at
  have hserver : (∀ s, sv.HasSlot s → g.Right s) ∧ sv.ls = (g.server msg.dest).ls := by
    cases type with
    | new =>
        rcases Option.bind_eq_some_iff.1 hupd with ⟨⟨sv₁, e⟩, hlook, hupd⟩
        rcases hasSlot_lookupSspace hlook with ⟨hslots, hentry, hls⟩
        have hflagged : ∀ s : Slot, s.odsc = msg.odsc → g.Right s := by
          intro s hs hflag
          rw [hs] at hflag
          exact absurd hflag (h.new msg hmem)
        have hlocal := hasSlot_objUpdateLocalDht hupd hflagged
          (fun n s hs => h.right msg.dest s (hentry n s hs)) fun s hs => h.right msg.dest s (hslots s hs)
        exact ⟨hlocal.1, hlocal.2.trans hls⟩
    | owner =>
        rw [Server.objUpdateRpcAs_owner (h.owner msg hmem)] at hupd
        cases hupd
        refine ⟨fun s hs => ?_, rfl⟩
        rcases hasSlot_updateDflt hs with hold | ⟨s₀, hfind, hodsc⟩
        · exact h.right msg.dest s hold
        · rcases hsafe msg hk with ⟨rank, howner, hstores⟩ | hnone
          · exact right_of_withOwner howner hfind hodsc hstores
          · rw [hnone] at hfind
            cases hfind
  refine ⟨right_update rfl hserver.2 h.right hserver.1, fun msg' hmsg' => ?_, fun msg' hmsg' => ?_⟩
  · exact h.new msg' (List.mem_of_mem_eraseIdx hmsg')
  · exact h.owner msg' (List.mem_of_mem_eraseIdx hmsg')

/-- What an `ls_add_obj` leaves: everything but the object that `ls_find_no_version` finds. -/
theorem mem_lsAddObj_or_victim {ls : SsStorage} (od : ObjData) {old : ObjData} {n : Nat}
    (hold : old ∈ ls.objHash n) :
    old ∈ (ls.lsAddObj od).objHash n ∨ ls.lsFindNoVersion od.objDesc = some old := by
  by_cases hn : n = ls.index od.objDesc
  · subst hn
    rw [SsStorage.objHash_lsAddObj, if_pos rfl]
    cases hfind : ls.lsFindNoVersion od.objDesc with
    | none =>
        rw [List.eraseP_of_forall_not (List.find?_eq_none.1 hfind)]
        exact Or.inl (List.mem_cons_of_mem _ hold)
    | some victim =>
        -- only the first hit is evicted
        rcases Node.After.eraseP_cases hfind with ⟨l₁, l₂, hl, herase⟩
        rw [hl] at hold
        rw [herase]
        simp only [List.mem_append, List.mem_cons] at hold ⊢
        rcases hold with hold | rfl | hold
        · exact Or.inl (Or.inr (Or.inl hold))
        · exact Or.inr rfl
        · exact Or.inl (Or.inr (Or.inr hold))
  · rw [SsStorage.objHash_lsAddObj, if_neg hn]
    exact Or.inl hold

/-- The descriptors stay right when a drained object is stored. -/
theorem Held.stored (h : g.Held) {rank : Nat} {odsc : ObjDesc} {rest : List ObjDesc} {data : Buf}
    (hlist : g.drainList rank = odsc :: rest)
    (hsafe : g.DrainSafe hilbertC2i uninit (.drain rank (some data))) {od : ObjData}
    (hod : od.objDesc = { odsc with owner := .server rank })
    (hserver : g'.server = Function.update g.server rank
      { g.server rank with ls := (g.server rank).ls.lsAddObj od }) :
    ∀ r s, (g'.server r).HasSlot s → g'.Right s := by
  intro r s hs hflag
  have hs' : (g.server r).HasSlot s := by
    rw [hserver] at hs
    by_cases hr : r = rank
    · subst hr
      rw [Function.update_self] at hs
      exact hs
    · rwa [Function.update_of_ne hr] at hs
  rcases h.right r s hs' hflag with ⟨r', howner, n, old, hold, heq⟩
  refine ⟨r', howner, ?_⟩
  -- the object that the descriptor stands for may be evicted at the server that drained only
  rw [hserver]
  by_cases hr : r' = rank
  · subst hr
    rw [Function.update_self]
    rcases mem_lsAddObj_or_victim od hold with hkept | hvictim
    · exact ⟨n, old, hkept, heq⟩
    · rw [hod] at hvictim
      have hsame := hsafe odsc rest hlist old hvictim r s hs' hflag howner heq
      -- the new object stands for the descriptor as well
      refine ⟨_, od, SsStorage.mem_lsAddObj_self _ _, ?_⟩
      rw [hod]
      exact hsame
  · rw [Function.update_of_ne hr]
    exact ⟨n, old, hold, heq⟩

/-- The server that has stored an object. -/
theorem exists_stored (sv : Server) (od : ObjData) :
    ∃ sv₀ : Server, sv₀ = { sv with ls := sv.ls.lsAddObj od } ∧
      (∀ s, sv₀.HasSlot s ↔ sv.HasSlot s) ∧ sv₀.ls = sv.ls.lsAddObj od :=
  ⟨_, rfl, fun _ => Iff.rfl, rfl⟩

theorem Held.drain (h : g.Held) (hok : g.Ok hilbertC2i uninit conf) {rank : Nat} {answer : Option Buf}
    (hsafe : g.DrainSafe hilbertC2i uninit (.drain rank answer))
    (hstep : g.step hilbertC2i uninit conf (.drain rank answer) = some g') : g'.Held := by
  rcases Option.map_eq_some_iff.1 hstep with ⟨r, hturn, rfl⟩
  cases hlist : g.drainList rank with
  | nil =>
      simp only [drainTurn, hlist, Option.some.injEq] at hturn
      rw [← hturn]
      simp only [List.append_nil]
      exact h
  | cons odsc rest =>
      have hrank := (hok rank).rank
      simp only [drainTurn, hlist] at hturn
      rcases Option.map_eq_some_iff.1 hturn with ⟨⟨sv', msgs⟩, hget, rfl⟩
      rcases hasSlot_getClientData hget with ⟨hls, hmsgs, hslots⟩
      rw [hrank] at hls hslots
      refine ⟨?_, fun msg hmsg => ?_, fun msg hmsg => ?_⟩
      · cases answer with
        | none =>
            refine right_update rfl hls h.right fun s hs => ?_
            rcases hslots s hs with hold | ⟨⟨asked, hasked, hin⟩, s₀, hfind, hodsc⟩
            · exact h.right rank s hold
            · rcases hsafe odsc rest hlist asked hasked hin with hstores | hnone
              · have howned : ({ odsc with owner := .server rank } : ObjDesc).owner = .server rank := rfl
                exact right_of_withOwner howned hfind hodsc hstores
              · rw [hnone] at hfind
                cases hfind
        | some data =>
            -- first the object is stored, then the owner is updated
            rcases exists_stored (g.server rank) (objDataAllocNoData { odsc with owner := .server rank } data) with
              ⟨sv₀, hsv₀, hslots₀, hls₀⟩
            have hstored : ∀ r s, ((g.setServer rank sv₀).server r).HasSlot s →
                (g.setServer rank sv₀).Right s :=
              h.stored hlist hsafe rfl (by rw [hsv₀]; rfl)
            have hself : (g.setServer rank sv₀).server rank = sv₀ := Function.update_self _ _ _
            have hserver : Function.update g.server rank sv' =
                Function.update (g.setServer rank sv₀).server rank sv' :=
              (Function.update_idem _ _ _).symm
            refine right_update hserver (by rw [hself, hls₀]; exact hls) hstored fun s hs => ?_
            rcases hslots s hs with hold | ⟨-, s₀, hfind, hodsc⟩
            · refine hstored rank s ?_
              rw [hself, hslots₀]
              exact hold
            · have howned : ({ odsc with owner := .server rank } : ObjDesc).owner = .server rank := rfl
              refine right_of_withOwner howned hfind hodsc ?_
              rw [hself, Server.Stores, hls₀]
              refine ⟨_, _, SsStorage.mem_lsAddObj_self _ _, ?_⟩
              exact objDescEqualsNoOwner_iff.2 ⟨rfl, rfl, bboxEquals_refl _⟩
      · rcases List.mem_append.1 hmsg with hmsg | hmsg
        · exact h.new msg hmsg
        · rcases List.mem_map.1 hmsg with ⟨_, -, heq⟩
          cases heq
      · rcases List.mem_append.1 hmsg with hmsg | hmsg
        · exact h.owner msg hmsg
        · rcases List.mem_map.1 hmsg with ⟨msg', hmsg', heq⟩
          cases heq
          exact hmsgs msg hmsg'

theorem Held.step (h : g.Held) (hok : g.Ok hilbertC2i uninit conf) {ev : DrainEvent}
    (hsafe : g.DrainSafe hilbertC2i uninit ev) (hstep : g.step hilbertC2i uninit conf ev = some g') :
    g'.Held := by
  cases ev with
  | putLocal rank odsc gdim => exact h.putLocal hsafe hstep
  | drain rank answer => exact h.drain hok hsafe hstep
  | deliver k => exact h.deliver k hsafe hstep

/-- The steps of a run are all safe where they are taken. -/
def SafeRun (hilbertC2i : HilbertC2i) (uninit : Nat → Unwritten) (conf : Conf) (g : DrainGroup)
    (evs : List DrainEvent) : Prop :=
  ∀ before ev after g₁, evs = before ++ ev :: after →
    g.run hilbertC2i uninit conf before = some g₁ → g₁.DrainSafe hilbertC2i uninit ev

theorem Held.run (evs : List DrainEvent) :
    ∀ g g' : DrainGroup, g.Ok hilbertC2i uninit conf → g.Held → g.SafeRun hilbertC2i uninit conf evs →
      g.run hilbertC2i uninit conf evs = some g' → g'.Held := by
  intro g g' hok h hsafe hrun
  -- a drain is safe for `Held` only where the spaces of the servers are in order
  have hstep : ∀ (g : DrainGroup) (ev : DrainEvent) (g' : DrainGroup),
      g.Ok hilbertC2i uninit conf ∧ g.Held → g.DrainSafe hilbertC2i uninit ev →
      g.step hilbertC2i uninit conf ev = some g' → g'.Ok hilbertC2i uninit conf ∧ g'.Held :=
    fun g ev g' hg hev hstep => ⟨hg.1.step hstep, hg.2.step hg.1 hev hstep⟩
  exact ((Runs.isRun_foldlM _).keeps_along hstep evs g g' ⟨hok, h⟩ hsafe hrun).2

end Steps

end DrainGroup

/-- A failed drain changes nothing exactly when the servers it updates do not find the descriptor in their
default table, or find the update already there.  And in a run of safe steps each descriptor without the
flag names a server that stores the object. -/
theorem failed_drain_kept {hilbertC2i : HilbertC2i} {uninit : Nat → Unwritten} {conf : Conf} {spaces : Nat → SSpace}
    (hssd : conf.SpacesFor hilbertC2i uninit conf.defaultGdim spaces) :
    (∀ (g g₁ g' : DrainGroup) (self : Nat) (odsc : ObjDesc) (rest : List ObjDesc) (asked : List Nat)
        (updates order : List (ObjUpdateType × UpdateMsg)),
      g.Ok hilbertC2i uninit conf → g.drainList self = odsc :: rest →
      (g.server self).ownerRanks hilbertC2i (uninit self) odsc = some asked →
      g.drainTurn hilbertC2i uninit conf self none = some (g₁, updates) → order.Perm updates →
      order.foldlM (DrainGroup.arrive hilbertC2i uninit conf) g₁ = some g' →
      (DrainGroup.SameAs conf g g' ↔
        ∀ r ∈ asked, ∀ s, (g.server r).dflt.entSelf.dhtFindExact odsc = some s →
          s.odsc.owner = .server self ∧ s.odsc.flags &&& DS_CLIENT_STORAGE = 0)) ∧
    ∀ evs g, (DrainGroup.init conf spaces).run hilbertC2i uninit conf evs = some g →
      (DrainGroup.init conf spaces).SafeRun hilbertC2i uninit conf evs →
      ∀ r s, (g.server r).HasSlot s → s.odsc.flags &&& DS_CLIENT_STORAGE = 0 →
        ∃ r', s.odsc.owner = .server r' ∧ (g.server r').Stores s.odsc := by
  constructor
  · intro g g₁ g' self odsc rest asked updates order hok hlist hasked hturn horder harrive
    exact failed_drain_sameAs_iff hok hlist hasked hturn horder harrive
  · intro evs g hrun hsafe r s hs hflag
    have hok : (DrainGroup.init conf spaces).Ok hilbertC2i uninit conf := Group.ok_init hssd
    exact (DrainGroup.Held.run evs _ g hok (DrainGroup.held_init conf spaces) hsafe hrun).right r s hs hflag

/-! ### A drain of two cells of server 0 -/

/-- The client has lost the data.  The drain leaves a descriptor that names server 0, which stores
nothing. -/
theorem failed_drain_not_kept :
    ∃ g g', registered lineConf.defaultGdim = some g ∧
      g.run lineC2i zeroed lineConf [.drain 0 none] = some g' ∧ g'.net = [] ∧
      ¬ DrainGroup.SameAs lineConf g g' ∧
      ∃ s, (g'.server 0).HasSlot s ∧ s.odsc.flags &&& DS_CLIENT_STORAGE = 0 ∧
        ¬ ∃ r, s.odsc.owner = .server r ∧ (g'.server r).Stores s.odsc := by
  have hls : ((registered lineConf.defaultGdim).bind fun g =>
      (g.run lineC2i zeroed lineConf [.drain 0 none]).map fun g' =>
        ((g'.server 0).ls.objHash, g'.net)) = some (fun _ => [], []) := rfl
  have hslot : ((registered lineConf.defaultGdim).bind fun g =>
      (g.run lineC2i zeroed lineConf [.drain 0 none]).bind fun g' =>
        ((g'.server 0).dflt.entSelf.dhtFindExact clientDesc).map fun s =>
          (s.odsc.owner, s.odsc.flags)) = some (.server 0, 0) := by
    decide +kernel
  have hbefore : ((registered lineConf.defaultGdim).bind fun g =>
      ((g.server 0).dflt.entSelf.dhtFindExact clientDesc).map fun s => s.odsc.owner) =
        some (.client 0) := by
    decide +kernel
  rcases Option.bind_eq_some_iff.1 hls with ⟨g, hg, hls⟩
  rcases Option.map_eq_some_iff.1 hls with ⟨g', hg', hempty⟩
  rw [Prod.mk.injEq] at hempty
  rw [hg, Option.bind_some] at hslot hbefore
  rw [hg', Option.bind_some] at hslot
  rcases Option.map_eq_some_iff.1 hslot with ⟨s, hs, hodsc⟩
  rcases Option.map_eq_some_iff.1 hbefore with ⟨s₀, hs₀, hclient⟩
  rw [Prod.mk.injEq] at hodsc
  have hok : g.Ok lineC2i zeroed lineConf :=
    DrainGroup.Ok.run _ (DrainGroup.init lineConf fun _ => lineSpaceV2) g ok_lineConf hg
  have hok' : g'.Ok lineC2i zeroed lineConf := DrainGroup.Ok.run _ g g' hok hg'
  refine ⟨g, g', hg, hg', hempty.2, fun hsame => ?_, s, ?_, ?_, ?_⟩
  · -- the owner of the descriptor has changed
    have htable := hsame.tables 0 lineConf.defaultGdim
    rw [hok.tableOf_default, hok'.tableOf_default] at htable
    rw [htable, hs₀, Option.some.injEq] at hs
    rw [← hs, hclient] at hodsc
    cases hodsc.1
  · exact ⟨_, List.mem_cons_self, _, List.mem_of_find?_eq_some hs⟩
  · rw [hodsc.2]
    decide
  · rintro ⟨r, howner, n, od, hod, -⟩
    rw [hodsc.1] at howner
    cases howner
    rw [hempty.1] at hod
    cases hod

/-- A drain that succeeds. -/
theorem failed_drain_kept_default :
    (DrainGroup.init lineConf fun _ => lineSpaceV2).SafeRun lineC2i zeroed lineConf
      [.putLocal 0 clientDesc lineConf.defaultGdim, .drain 0 (some fun _ => 0)] ∧
    ∃ g, (DrainGroup.init lineConf fun _ => lineSpaceV2).run lineC2i zeroed lineConf
        [.putLocal 0 clientDesc lineConf.defaultGdim, .drain 0 (some fun _ => 0)] = some g ∧
      ∀ r s, (g.server r).HasSlot s → s.odsc.flags &&& DS_CLIENT_STORAGE = 0 →
        ∃ r', s.odsc.owner = .server r' ∧ (g.server r').Stores s.odsc := by
  have hsafe : (DrainGroup.init lineConf fun _ => lineSpaceV2).SafeRun lineC2i zeroed lineConf
      [.putLocal 0 clientDesc lineConf.defaultGdim, .drain 0 (some fun _ => 0)] := by
    intro before ev after g₁ hevs hbefore
    match before, hevs with
    | [], hevs =>
        cases hevs
        show clientDesc.flags &&& DS_CLIENT_STORAGE ≠ 0
        decide
    | [_], hevs =>
        cases hevs
        -- the storage of the server is still empty
        have hls : (((DrainGroup.init lineConf fun _ => lineSpaceV2).run lineC2i zeroed lineConf
            [.putLocal 0 clientDesc lineConf.defaultGdim]).map fun g => (g.server 0).ls) =
              some (lsAlloc 1) := rfl
        rw [hbefore, Option.map_some, Option.some.injEq] at hls
        intro odsc rest _ victim hvictim
        rw [hls] at hvictim
        cases hvictim
    | _ :: _ :: _ :: _, hevs => simp at hevs
  have hrun : ((DrainGroup.init lineConf fun _ => lineSpaceV2).run lineC2i zeroed lineConf
      [.putLocal 0 clientDesc lineConf.defaultGdim, .drain 0 (some fun _ => 0)]).isSome = true := by
    decide +kernel
  rcases Option.isSome_iff_exists.1 hrun with ⟨g, hg⟩
  exact ⟨hsafe, g, hg, (failed_drain_kept (spaceBuilt_lineConf.spacesFor zeroed)).2 _ g hg hsafe⟩

end DataSpaces
