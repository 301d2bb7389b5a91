import DataSpaces.DhtTable
import DataSpaces.Lib.Locking
import DataSpaces.Metadata

/-!
# Locks — the mutexes of the stores (`ls_mutex`, `hash_mutex`, `meta_mutex`)

The calls of a server run at the same time, each up to the next operation on a mutex.  A call that waits
gives the mutex back until it is served, and takes it again before it goes on.

`dspaces_server_get_objdata` returns without giving `ls_mutex` back when there is no object, or one of
another box, and `dht_add_entry` without giving the mutex of the bin back when there is no memory for an
entry.

A step is `none` when it has to wait for a mutex or for another call, and when the behaviour is undefined.
-/

namespace DataSpaces

open Locking

inductive StoreLock
  | lsMutex
  | hashMutex (n : Nat)
  | metaMutex (n : Nat)
  deriving DecidableEq

/-- `struct dspaces_data_obj`. -/
structure DataObj where
  varName : CStr
  version : Int32
  ndim : Nat
  size : Int32
  lb : Nat → UInt64
  ub : Nat → UInt64

/-- The stores of a server.  `completed` are the subscriptions that updates completed, and `given` is what
the calls that wait for metadata were given. -/
structure Stores where
  ls : SsStorage
  de : DhtTable
  md : MetaStore
  completed : List DhtSub
  given : Nat → Option MetaData

inductive StoreCall
  | getObjdata (obj : DataObj) (buffer : Buf)
  | lsAddMeta (mdata : MetaData)
  | dhtAddEntry (odsc : ObjDesc)
  /-- `entSelf` says whether the table is the one of the server itself -/
  | dhtFindEntryAll (qOdsc : ObjDesc) (timeout : Int) (entSelf : Bool)
  | metaFindEntry (name : CStr) (version : Int) (wait : Bool)
  | metaFindNextEntry (name : CStr) (curr : Int) (wait : Bool)

/-- What a call returns. -/
inductive StoreResult
  | code (ret : Int32)
  | objdata (ret : Int32) (buffer : Buf)
  | odscTab (slots : List Nat)
  | mdata (mdata : Option MetaData)

/-- Where a call is.  After the first operation on a mutex the place says which mutexes are held. -/
inductive StorePc
  | idle
  /-- before the first operation -/
  | begun (call : StoreCall)
  | objLocked (obj : DataObj) (buffer : Buf)
  | metaLocked (mdata : MetaData)
  /-- before the mutex of the bin -/
  | metaNew (mdata : MetaData)
  | metaBin (n : Nat) (mdata : MetaData)
  | metaStored (n : Nat) (mdata : MetaData)
  /-- before the mutex of the calls that wait for any version -/
  | metaAny (mdata : MetaData)
  | metaServe (n : Nat) (mdata : MetaData)
  | metaServed (n : Nat)
  | lsUnlock (res : StoreResult)
  | addLocked (n : Nat) (odsc : ObjDesc)
  | findLocked (n : Nat) (qOdsc : ObjDesc)
  | findWait (n : Nat) (slots : List Nat)
  | hashUnlock (n : Nat) (res : StoreResult)
  | entryLocked (n : Nat) (name : CStr) (version : Int) (wait : Bool)
  /-- the mutexes below `i` are taken -/
  | nextLocking (size i : Nat) (name : CStr) (curr : Int) (wait : Bool)
  | nextLocked (size : Nat) (name : CStr) (curr : Int) (wait : Bool)
  /-- the mutexes below `i` are given back; `res` is `none` if the call is going to wait -/
  | nextUnlocking (size i : Nat) (name : CStr) (res : Option StoreResult)
  | metaWait (n : Nat)
  | metaUnlock (n : Nat) (res : StoreResult)
  | returned (res : StoreResult)

inductive StoreInput
  | begin (call : StoreCall)
  /-- `malloced` says which allocations of the step get memory -/
  | go (malloced : Nat → Bool)

def ENOMEM : Int32 := 12

namespace Stores

/-- The descriptor that `dspaces_server_get_objdata` looks for. -/
def objOdsc (uninit : ObjDesc) (obj : DataObj) : ObjDesc :=
  { uninit with
    name := obj.varName
    version := obj.version.toUInt32
    bb := ⟨obj.ndim, Coord.ofFn fun i => if i < obj.ndim then obj.lb i else uninit.bb.lb.c i,
      Coord.ofFn fun i => if i < obj.ndim then obj.ub i else uninit.bb.ub.c i⟩ }

/-- The object has the box that is asked for. -/
def sameSize (od : ObjData) (obj : DataObj) : Bool :=
  (List.range obj.ndim).all fun i =>
    od.objDesc.bb.lb.c i == obj.lb i && od.objDesc.bb.ub.c i == obj.ub i

/-- `dspaces_server_get_objdata` under the mutex. -/
def getObjdata (st : Stores) (uninit : ObjDesc) (obj : DataObj) (buffer : Buf) : StorePc :=
  match st.ls.lsFind (objOdsc uninit obj) with
  | none => .returned (.objdata (-1) buffer)
  | some od =>
      if sameSize od obj then
        let size := obj.size.toInt64.toUInt64 * bboxVolume (objOdsc uninit obj).bb
        .lsUnlock (.objdata 0 fun p => if p < size.toNat then od.data p else buffer p)
      else .returned (.objdata (-2) buffer)

/-- The loop of `ls_add_meta` over a list of subscriptions. -/
def serve (st : Stores) (index : Nat) (hit : MetaSub → Bool) (mdata : MetaData) : Stores :=
  { st with
    md := { st.md with
      metaSubs := Function.update st.md.metaSubs index
        ((st.md.metaSubs index).filter fun msub => !hit msub) }
    given := fun t =>
      if (st.md.metaSubs index).any fun msub => hit msub && msub.call == t then some mdata
      else st.given t }

/-- A call that waits: `ls_subscribe_meta` and `ls_subscribe_meta_no_version`. -/
def subscribe (st : Stores) (t index : Nat) (version : Int) (name : CStr) : Stores :=
  { st with
    md := { st.md with
      metaSubs := Function.update st.md.metaSubs index (⟨t, version, name⟩ :: st.md.metaSubs index) } }

/-- What the subscription of a call to the table was given, once nothing remains. -/
def dhtReceived (st : Stores) (n t : Nat) : Option (List Nat) :=
  match (st.de.dhtSubs n).find? fun sub => sub.call = t with
  | some sub => if sub.remaining > 0 then none else some sub.recvOdsc
  | none => (st.completed.find? fun sub => sub.call = t).map DhtSub.recvOdsc

end Stores

section Program

variable (count : BBox → Option Int64) (uninit : ObjDesc)

namespace Stores

/-- `dht_add_entry` under the mutex.  Allocation `0` is the one of the entry, if there is no match; the
others are those of the subscriptions. -/
def addEntry (st : Stores) (n : Nat) (odsc : ObjDesc) (malloced : Nat → Bool) : Option (Stores × StorePc) :=
  if (st.de.dhtFindMatch odsc).isNone && !malloced 0 then some (st, .returned (.code (-ENOMEM)))
  else if (List.range ((st.de.dhtSubs n).filter fun sub => sub.wants odsc).length).all
      fun k => malloced (k + 1) then do
    let (de, subs) ← dhtAddEntry count st.de odsc
    return ({ st with de := de, completed := subs ++ st.completed }, .hashUnlock n (.code 0))
  else none

/-- `dht_find_entry_all`; without memory the entries that match have no place to go to. -/
def findEntryAll (st : Stores) (qOdsc : ObjDesc) (timeout : Int) (malloced : Nat → Bool) : Option FindResult :=
  if !malloced 0 && (st.de.odscHash (st.de.index qOdsc)).any
      fun odscl => objDescEqualsIntersect odscl.odsc qOdsc then none
  else dhtFindEntryAll count st.de qOdsc timeout

/-- The first operation of a call. -/
def begun (st : Stores) (malloced : Nat → Bool) :
    StoreCall → Option (Act StoreLock × Stores × StorePc)
  | .getObjdata obj buffer => some (.acquire .lsMutex, st, .objLocked obj buffer)
  | .lsAddMeta mdata => some (.acquire .lsMutex, st, .metaLocked mdata)
  | .dhtAddEntry odsc =>
      let n := st.de.index odsc
      some (.acquire (.hashMutex n), st, .addLocked n odsc)
  | .dhtFindEntryAll qOdsc timeout entSelf => do
      if timeout = -1 ∧ entSelf then
        let n := st.de.index qOdsc
        return (.acquire (.hashMutex n), st, .findLocked n qOdsc)
      else
        -- without a mutex, and without waiting
        match ← st.findEntryAll count qOdsc 0 malloced with
        | .done slots => return (.keep, st, .returned (.odscTab slots))
        | .wait _ _ => none
  | .metaFindEntry name version wait => do
      let n ← st.md.index version
      return (.acquire (.metaMutex n), st, .entryLocked n name version wait)
  | .metaFindNextEntry name curr wait => some (.keep, st, .nextLocking st.md.sizeHash 0 name curr wait)

/-- The next step of call `t`. -/
def go (st : Stores) (t : Nat) (malloced : Nat → Bool) :
    StorePc → Option (Act StoreLock × Stores × StorePc)
  | .idle => none
  | .begun call => st.begun count malloced call
  | .objLocked obj buffer => some (.keep, st, st.getObjdata uninit obj buffer)
  | .metaLocked mdata => do
      match ← st.md.lsFindMeta mdata.name mdata.intVersion with
      | some _ => return (.keep, st, .lsUnlock (.code 0))
      | none => return (.keep, st, .metaNew mdata)
  -- under `ls_mutex` the mutex of the bin is taken and given back, then that of the other list
  | .metaNew mdata =>
      let n := st.md.indexOf mdata
      some (.acquire (.metaMutex n), st, .metaBin n mdata)
  | .metaBin n mdata =>
      let st := serve { st with md := st.md.insert mdata } n
        (fun msub => msub.name = mdata.name ∧ msub.version = mdata.intVersion) mdata
      some (.keep, st, .metaStored n mdata)
  | .metaStored n mdata => some (.release (.metaMutex n), st, .metaAny mdata)
  | .metaAny mdata =>
      let n := st.md.sizeHash
      some (.acquire (.metaMutex n), st, .metaServe n mdata)
  | .metaServe n mdata =>
      some (.keep, st.serve n (fun msub => msub.name = mdata.name) mdata, .metaServed n)
  | .metaServed n => some (.release (.metaMutex n), st, .lsUnlock (.code 0))
  | .lsUnlock res => some (.release .lsMutex, st, .returned res)
  | .addLocked n odsc => do
      let (st, pc) ← st.addEntry count n odsc malloced
      return (.keep, st, pc)
  | .findLocked n qOdsc => do
      match ← st.findEntryAll count qOdsc (-1) malloced with
      | .done slots => return (.keep, st, .hashUnlock n (.odscTab slots))
      -- the wait gives the mutex back, and takes it again at the end
      | .wait slots remaining =>
          return (.release (.hashMutex n), { st with de := dhtLocalSubscribe st.de t qOdsc remaining },
            .findWait n slots)
  | .findWait n slots => do
      let recv ← st.dhtReceived n t
      return (.acquire (.hashMutex n), st, .hashUnlock n (.odscTab (slots ++ recv)))
  | .hashUnlock n res => some (.release (.hashMutex n), st, .returned res)
  | .entryLocked n name version wait => do
      let mdata ← st.md.lsFindMeta name version
      if mdata.isSome ∨ wait = false then return (.keep, st, .metaUnlock n (.mdata mdata))
      else return (.release (.metaMutex n), st.subscribe t n version name, .metaWait n)
  -- all mutexes of the metadata, one after the other
  | .nextLocking size i name curr wait =>
      if i ≤ size then some (.acquire (.metaMutex i), st, .nextLocking size (i + 1) name curr wait)
      else some (.keep, st, .nextLocked size name curr wait)
  | .nextLocked size name curr wait => do
      let mdres ← st.md.scanNext name curr
      let res := if mdres.isSome ∨ wait = false then some (.mdata mdres) else none
      return (.keep, st, .nextUnlocking size 0 name res)
  | .nextUnlocking size i name res =>
      if i < size then some (.release (.metaMutex i), st, .nextUnlocking size (i + 1) name res)
      else
        match res with
        | some res => some (.keep, st, .metaUnlock size res)
        | none => some (.release (.metaMutex size), st.subscribe t size (-1) name, .metaWait size)
  | .metaWait n => do
      let mdata ← st.given t
      return (.acquire (.metaMutex n), st, .metaUnlock n (.mdata (some mdata)))
  | .metaUnlock n res => some (.release (.metaMutex n), st, .returned res)
  | .returned _ => none

end Stores

/-- The mutexes that are held at a place. -/
def StorePc.holds : StorePc → Set StoreLock
  | .objLocked _ _ | .metaLocked _ | .metaNew _ | .metaAny _ | .lsUnlock _ => {.lsMutex}
  | .metaBin n _ | .metaStored n _ | .metaServe n _ | .metaServed n => {.metaMutex n, .lsMutex}
  | .addLocked n _ | .findLocked n _ | .hashUnlock n _ => {.hashMutex n}
  | .entryLocked n _ _ _ | .metaUnlock n _ => {.metaMutex n}
  | .nextLocking size i _ _ _ => {l | ∃ k, k < i ∧ k ≤ size ∧ l = .metaMutex k}
  | .nextLocked size _ _ _ => {l | ∃ k ≤ size, l = .metaMutex k}
  | .nextUnlocking size i _ _ => {l | l = .metaMutex size ∨ ∃ k, i ≤ k ∧ k < size ∧ l = .metaMutex k}
  | .idle | .begun _ | .findWait _ _ | .metaWait _ | .returned _ => ∅

def StorePc.isReturned : StorePc → Prop
  | .returned _ => True
  | _ => False

/-- The calls of a server. -/
def storeProgram : Program StoreLock Stores StorePc StoreInput where
  act st t
    | .begin call, .idle => some (.keep, st, .begun call)
    | .begin _, _ => none
    | .go malloced, pc => st.go count uninit t malloced pc
  holds := StorePc.holds
  ended := StorePc.isReturned

/-! ## The property -/

abbrev StoreSys : Type := Sys StoreLock Stores StorePc

/-- A server with free mutexes and without calls. -/
def StoreSys.start (st : Stores) : StoreSys := ⟨st, fun _ => none, fun _ => .idle⟩

/-- No mutex is taken by a call that has returned; so all are free when no call is on its way. -/
structure StoreSys.Released (s : StoreSys) : Prop where
  taken : ∀ l t, s.owner l = some t → ¬ (s.pc t).isReturned
  free : (∀ t, s.pc t = .idle ∨ (s.pc t).isReturned) → ∀ l, s.owner l = none

/-- `dspaces_server_get_objdata` finds the object with the right box, and `dht_add_entry` an entry that
matches or memory for a new one. -/
def Stores.Succeeds (st : Stores) (malloced : Nat → Bool) : StorePc → Prop
  | .objLocked obj _ =>
      ∃ od, st.ls.lsFind (objOdsc uninit obj) = some od ∧ sameSize od obj = true
  | .addLocked _ odsc => (st.de.dhtFindMatch odsc).isSome ∨ malloced 0 = true
  | _ => True

def StoreSys.Succeeds (s : StoreSys) (e : Nat × StoreInput) : Prop :=
  match e.2 with
  | .begin _ => True
  | .go malloced => s.store.Succeeds uninit malloced (s.pc e.1)

/-! ## Every move keeps to the annotation, or returns too early -/

namespace StorePc

variable {size i : Nat} (name : CStr) (curr : Int) (wait : Bool) (res : Option StoreResult)

theorem holds_nextLocking_succ (hi : i ≤ size) :
    (nextLocking size (i + 1) name curr wait).holds =
      insert (.metaMutex i) (nextLocking size i name curr wait).holds := by
  ext l
  constructor
  · rintro ⟨k, hk, hsize, rfl⟩
    rcases Nat.lt_succ_iff_lt_or_eq.1 hk with hk | rfl
    · exact Or.inr ⟨k, hk, hsize, rfl⟩
    · exact Or.inl rfl
  · rintro (rfl | ⟨k, hk, hsize, rfl⟩)
    · exact ⟨i, Nat.lt_succ_self i, hi, rfl⟩
    · exact ⟨k, Nat.lt_succ_of_lt hk, hsize, rfl⟩

theorem holds_nextLocking_end (hi : size < i) :
    (nextLocking size i name curr wait).holds = (nextLocked size name curr wait).holds := by
  ext l
  constructor
  · rintro ⟨k, -, hsize, rfl⟩
    exact ⟨k, hsize, rfl⟩
  · rintro ⟨k, hsize, rfl⟩
    exact ⟨k, hsize.trans_lt hi, hsize, rfl⟩

theorem holds_nextUnlocking_zero :
    (nextUnlocking size 0 name res).holds = (nextLocked size name curr wait).holds := by
  ext l
  constructor
  · rintro (rfl | ⟨k, -, hsize, rfl⟩)
    · exact ⟨size, Nat.le_refl size, rfl⟩
    · exact ⟨k, hsize.le, rfl⟩
  · rintro ⟨k, hsize, rfl⟩
    rcases Nat.eq_or_lt_of_le hsize with rfl | hlt
    · exact Or.inl rfl
    · exact Or.inr ⟨k, Nat.zero_le k, hlt, rfl⟩

theorem holds_nextUnlocking_succ (hi : i < size) :
    (nextUnlocking size i name res).holds =
      insert (.metaMutex i) (nextUnlocking size (i + 1) name res).holds := by
  ext l
  constructor
  · rintro (rfl | ⟨k, hk, hsize, rfl⟩)
    · exact Or.inr (Or.inl rfl)
    · rcases Nat.eq_or_lt_of_le hk with rfl | hlt
      · exact Or.inl rfl
      · exact Or.inr (Or.inr ⟨k, hlt, hsize, rfl⟩)
  · rintro (rfl | rfl | ⟨k, hk, hsize, rfl⟩)
    · exact Or.inr ⟨i, Nat.le_refl i, hi, rfl⟩
    · exact Or.inl rfl
    · exact Or.inr ⟨k, Nat.le_of_succ_le hk, hsize, rfl⟩

theorem notMem_nextUnlocking_succ (hi : i < size) :
    StoreLock.metaMutex i ∉ (nextUnlocking size (i + 1) name res).holds := by
  rintro (heq | ⟨k, hk, -, heq⟩)
  · cases heq
    exact Nat.lt_irrefl _ hi
  · cases heq
    exact Nat.not_succ_le_self _ hk

theorem holds_nextUnlocking_end (hi : size ≤ i) :
    (nextUnlocking size i name res).holds = {.metaMutex size} := by
  ext l
  constructor
  · rintro (rfl | ⟨k, hk, hsize, -⟩)
    · rfl
    · exact absurd (hk.trans_lt hsize) (Nat.not_lt.2 hi)
  · rintro rfl
    exact Or.inl rfl

end StorePc

namespace Stores

variable {count uninit} {st st' : Stores} {t : Nat} {malloced : Nat → Bool} {pc pc' : StorePc}
  {a : Act StoreLock}

theorem balanced_begun {call : StoreCall} (h : st.begun count malloced call = some (a, st', pc')) :
    (storeProgram count uninit).Balanced (.begun call) a pc' := by
  cases call with
  | getObjdata obj buffer =>
      cases h
      exact Program.balanced_first rfl rfl
  | lsAddMeta mdata =>
      cases h
      exact Program.balanced_first rfl rfl
  | dhtAddEntry odsc =>
      cases h
      exact Program.balanced_first rfl rfl
  | dhtFindEntryAll qOdsc timeout entSelf =>
      simp only [begun] at h
      split at h
      case isTrue =>
        cases h
        exact Program.balanced_first rfl rfl
      case isFalse =>
        obtain ⟨res, -, h⟩ := Option.bind_eq_some_iff.1 h
        cases res with
        | done slots =>
            cases h
            exact Program.balanced_keep rfl
        | wait slots remaining => cases h
  | metaFindEntry name version wait =>
      obtain ⟨n, -, h⟩ := Option.bind_eq_some_iff.1 h
      cases h
      exact Program.balanced_first rfl rfl
  | metaFindNextEntry name curr wait =>
      cases h
      refine Program.balanced_keep (Set.eq_empty_of_forall_notMem ?_)
      rintro l ⟨k, hk, -⟩
      exact Nat.not_lt_zero k hk

/-- The object is found and has the right box, or the call returns with the mutex. -/
theorem getObjdata_cases (st : Stores) (uninit : ObjDesc) (obj : DataObj) (buffer : Buf) :
    ((∃ od, st.ls.lsFind (objOdsc uninit obj) = some od ∧ sameSize od obj = true) ∧
        ∃ res, st.getObjdata uninit obj buffer = .lsUnlock res) ∨
      ((¬ ∃ od, st.ls.lsFind (objOdsc uninit obj) = some od ∧ sameSize od obj = true) ∧
        ∃ res, st.getObjdata uninit obj buffer = .returned res) := by
  rw [getObjdata]
  cases hfind : st.ls.lsFind (objOdsc uninit obj) with
  | none => exact Or.inr ⟨by simp, _, rfl⟩
  | some od =>
      cases hsame : sameSize od obj with
      | true => exact Or.inl ⟨⟨od, rfl, hsame⟩, _, if_pos hsame⟩
      | false => exact Or.inr ⟨by simp [hsame], _, if_neg (by simp [hsame])⟩

/-- There is an entry that matches or memory, or the call returns with the mutex. -/
theorem addEntry_cases {n : Nat} {odsc : ObjDesc}
    (h : st.addEntry count n odsc malloced = some (st', pc')) :
    (((st.de.dhtFindMatch odsc).isSome ∨ malloced 0 = true) ∧ ∃ res, pc' = .hashUnlock n res) ∨
      (¬ ((st.de.dhtFindMatch odsc).isSome ∨ malloced 0 = true) ∧ ∃ res, pc' = .returned res) := by
  rw [addEntry] at h
  split at h
  case isTrue hno =>
    cases h
    right
    simp only [Bool.and_eq_true, Option.isNone_iff_eq_none, Bool.not_eq_true'] at hno
    refine ⟨?_, _, rfl⟩
    rw [hno.1, hno.2]
    simp
  case isFalse hno =>
    split at h
    case isTrue =>
      obtain ⟨⟨de, subs⟩, -, h⟩ := Option.bind_eq_some_iff.1 h
      cases h
      left
      refine ⟨?_, _, rfl⟩
      simp only [Bool.and_eq_true, Option.isNone_iff_eq_none, Bool.not_eq_true', not_and_or,
        Bool.not_eq_false] at hno
      exact hno.imp Option.ne_none_iff_isSome.1 id
    case isFalse => cases h

/-- A turn of the loop that takes the mutexes one after the other. -/
theorem balanced_nextLocking {size i : Nat} {name : CStr} {curr : Int} {wait : Bool}
    (h : st.go count uninit t malloced (.nextLocking size i name curr wait) = some (a, st', pc')) :
    (storeProgram count uninit).Balanced (.nextLocking size i name curr wait) a pc' := by
  simp only [go] at h
  split at h
  case isTrue hi =>
    cases h
    exact Program.balanced_acquire (StorePc.holds_nextLocking_succ name curr wait hi)
  case isFalse hi =>
    cases h
    exact Program.balanced_keep (StorePc.holds_nextLocking_end name curr wait (Nat.lt_of_not_le hi)).symm

/-- A turn of the loop that gives them back, all but the last. -/
theorem balanced_nextUnlocking {size i : Nat} {name : CStr} {res : Option StoreResult}
    (h : st.go count uninit t malloced (.nextUnlocking size i name res) = some (a, st', pc')) :
    (storeProgram count uninit).Balanced (.nextUnlocking size i name res) a pc' := by
  simp only [go] at h
  split at h
  case isTrue hi =>
    cases h
    exact Program.balanced_release (StorePc.holds_nextUnlocking_succ name res hi)
      (StorePc.notMem_nextUnlocking_succ name res hi)
  case isFalse hi =>
    have hlast := StorePc.holds_nextUnlocking_end name res (Nat.le_of_not_lt hi)
    cases res with
    | some res =>
        cases h
        exact Program.balanced_keep hlast.symm
    | none =>
        cases h
        exact Program.balanced_last hlast rfl

/-- Every step that succeeds keeps to the annotation. -/
theorem balanced_go (h : st.go count uninit t malloced pc = some (a, st', pc'))
    (hsucc : st.Succeeds uninit malloced pc) : (storeProgram count uninit).Balanced pc a pc' := by
  cases pc with
  | idle => cases h
  | begun call => exact balanced_begun h
  | objLocked obj buffer =>
      cases h
      rcases getObjdata_cases st uninit obj buffer with ⟨-, res, hres⟩ | ⟨hno, -⟩
      · rw [hres]
        exact Program.balanced_keep rfl
      · exact absurd hsucc hno
  | metaLocked mdata =>
      obtain ⟨found, -, h⟩ := Option.bind_eq_some_iff.1 h
      cases found with
      | some old =>
          cases h
          exact Program.balanced_keep rfl
      | none =>
          cases h
          exact Program.balanced_keep rfl
  | metaNew mdata =>
      cases h
      exact Program.balanced_acquire rfl
  | metaBin n mdata =>
      cases h
      exact Program.balanced_keep rfl
  | metaStored n mdata =>
      cases h
      exact Program.balanced_release rfl (by simp [storeProgram, StorePc.holds])
  | metaAny mdata =>
      cases h
      exact Program.balanced_acquire rfl
  | metaServe n mdata =>
      cases h
      exact Program.balanced_keep rfl
  | metaServed n =>
      cases h
      exact Program.balanced_release rfl (by simp [storeProgram, StorePc.holds])
  | lsUnlock res =>
      cases h
      exact Program.balanced_last rfl rfl
  | addLocked n odsc =>
      obtain ⟨⟨st₁, pc₁⟩, hadd, h⟩ := Option.bind_eq_some_iff.1 h
      cases h
      rcases addEntry_cases hadd with ⟨-, res, rfl⟩ | ⟨hno, -⟩
      · exact Program.balanced_keep rfl
      · exact absurd hsucc hno
  | findLocked n qOdsc =>
      obtain ⟨res, -, h⟩ := Option.bind_eq_some_iff.1 h
      cases res with
      | done slots =>
          cases h
          exact Program.balanced_keep rfl
      | wait slots remaining =>
          cases h
          exact Program.balanced_last rfl rfl
  | findWait n slots =>
      obtain ⟨recv, -, h⟩ := Option.bind_eq_some_iff.1 h
      cases h
      exact Program.balanced_first rfl rfl
  | hashUnlock n res =>
      cases h
      exact Program.balanced_last rfl rfl
  | entryLocked n name version wait =>
      obtain ⟨mdata, -, h⟩ := Option.bind_eq_some_iff.1 h
      split at h
      case isTrue =>
        cases h
        exact Program.balanced_keep rfl
      case isFalse =>
        cases h
        exact Program.balanced_last rfl rfl
  | nextLocking size i name curr wait => exact balanced_nextLocking h
  | nextLocked size name curr wait =>
      obtain ⟨mdres, -, h⟩ := Option.bind_eq_some_iff.1 h
      cases h
      generalize (if mdres.isSome = true ∨ wait = false then some (StoreResult.mdata mdres) else none) = res
      exact Program.balanced_keep (StorePc.holds_nextUnlocking_zero name curr wait res)
  | nextUnlocking size i name res => exact balanced_nextUnlocking h
  | metaWait n =>
      obtain ⟨mdata, -, h⟩ := Option.bind_eq_some_iff.1 h
      cases h
      exact Program.balanced_first rfl rfl
  | metaUnlock n res =>
      cases h
      exact Program.balanced_last rfl rfl
  | returned res => cases h

/-- A call that does not succeed returns with its mutex. -/
theorem leaks_go (h : st.go count uninit t malloced pc = some (a, st', pc'))
    (hno : ¬ st.Succeeds uninit malloced pc) : (storeProgram count uninit).Leaks pc a pc' := by
  cases pc with
  | objLocked obj buffer =>
      cases h
      rcases getObjdata_cases st uninit obj buffer with ⟨hfound, -⟩ | ⟨-, res, hres⟩
      · exact absurd hfound hno
      · rw [hres]
        exact ⟨rfl, trivial, .lsMutex, rfl⟩
  | addLocked n odsc =>
      obtain ⟨⟨st₁, pc₁⟩, hadd, h⟩ := Option.bind_eq_some_iff.1 h
      cases h
      rcases addEntry_cases hadd with ⟨hroom, -⟩ | ⟨-, res, rfl⟩
      · exact absurd hroom hno
      · exact ⟨rfl, trivial, .hashMutex n, rfl⟩
  | _ => exact absurd trivial hno

/-- Nothing keeps a call from returning too early. -/
theorem go_of_not_succeeds (count : BBox → Option Int64) (t : Nat)
    (h : ¬ st.Succeeds uninit malloced pc) : ∃ r, st.go count uninit t malloced pc = some r := by
  cases pc with
  | objLocked obj buffer => exact ⟨_, rfl⟩
  | addLocked n odsc =>
      obtain ⟨hno, hmalloc⟩ := not_or.1 h
      have hfull : ((st.de.dhtFindMatch odsc).isNone && !malloced 0) = true := by
        simpa using And.intro (Option.not_isSome_iff_eq_none.1 hno) hmalloc
      refine ⟨_, Option.bind_eq_some_iff.2 ⟨(st, .returned (.code (-ENOMEM))), ?_, rfl⟩⟩
      rw [addEntry, if_pos hfull]
  | _ => exact absurd trivial h

end Stores

theorem storeProgram_disciplined : (storeProgram count uninit).Disciplined where
  free pc hended l hl := by
    cases pc with
    | returned res => exact hl
    | _ => exact hended
  stops st t i pc hended := by
    cases pc with
    | returned res =>
        cases i with
        | begin call => rfl
        | go malloced => rfl
    | _ => exact absurd hended id
  moves st t i pc a st' pc' h := by
    cases i with
    | begin call =>
        cases pc with
        | idle =>
            cases h
            exact Or.inl (Program.balanced_keep rfl)
        | _ => cases h
    | go malloced =>
        by_cases hsucc : st.Succeeds uninit malloced pc
        · exact Or.inl (Stores.balanced_go h hsucc)
        · exact Or.inr (Stores.leaks_go h hsucc)

/-- The steps that leak are the ones that do not succeed. -/
theorem leakStep_iff (s : StoreSys) (e : Nat × StoreInput) :
    (storeProgram count uninit).LeakStep s e ↔ ¬ s.Succeeds uninit e := by
  obtain ⟨t, i⟩ := e
  cases i with
  | begin call =>
      refine iff_of_false ?_ (fun hno => hno trivial)
      rintro ⟨a, st', pc', hact, hleak⟩
      obtain ⟨l, hl⟩ := hleak.held
      cases hpc : s.pc t with
      | idle =>
          rw [hpc] at hl
          exact hl
      | _ =>
          rw [hpc] at hact
          cases hact
  | go malloced =>
      constructor
      · rintro ⟨a, st', pc', hact, hleak⟩ hsucc
        have hgo : Stores.go count uninit s.store t malloced (s.pc t) = some (a, st', pc') := hact
        have hbal := Stores.balanced_go hgo hsucc
        exact (storeProgram_disciplined count uninit).not_leaks hbal hleak
      · intro hno
        obtain ⟨⟨a, st', pc'⟩, hact⟩ := Stores.go_of_not_succeeds count t hno
        exact ⟨a, st', pc', hact, Stores.leaks_go hact hno⟩

/-- In every run of the calls all mutexes are given back exactly when `dspaces_server_get_objdata` always
finds the object with the right box, and `dht_add_entry` always an entry that matches or memory. -/
theorem released_iff (st : Stores) (es : List (Nat × StoreInput)) (s : StoreSys)
    (hrun : (StoreSys.start st).run (storeProgram count uninit) es = some s) :
    s.Released ↔ Runs.Along (fun es s => Sys.run (storeProgram count uninit) es s)
      (fun s e => StoreSys.Succeeds uninit s e) es (StoreSys.start st) := by
  have hprog := storeProgram_disciplined count uninit
  have hinv : (storeProgram count uninit).Inv (StoreSys.start st) :=
    Program.inv_of_free _ (fun _ => rfl) fun _ _ hl => hl
  have hclean : Sys.Clean (storeProgram count uninit) (StoreSys.start st) := fun _ _ hl => nomatch hl
  have hallowed : (fun s e => ¬ (storeProgram count uninit).LeakStep s e) =
      fun s e => StoreSys.Succeeds uninit s e := by
    funext s e
    exact propext ((not_congr (leakStep_iff count uninit s e)).trans not_not)
  rw [← hallowed, ← Program.clean_iff hprog hinv hclean hrun]
  have hs := (Sys.isRun (storeProgram count uninit)).keeps (P := fun s => (storeProgram count uninit).Inv s)
    (fun s e s' hs h => Program.inv_step hprog hs h) es _ s hinv hrun
  refine ⟨StoreSys.Released.taken, fun hclean => ⟨hclean, fun hidle l => ?_⟩⟩
  cases howner : s.owner l with
  | none => rfl
  | some t =>
      have hheld := (hs.owned t l howner).resolve_right (hclean l t howner)
      rcases hidle t with hpc | hret
      · rw [hpc] at hheld
        exact absurd hheld (Set.notMem_empty l)
      · exact absurd hret (hclean l t howner)

end Program

/-! ## Runs of a few calls -/

def emptyStores : Stores := ⟨lsAlloc 1, dhtEntryAlloc 1, metaAlloc 1, [], fun _ => none⟩

/-- The calls of a server whose table is in charge of no cell. -/
abbrev plainProgram : Program StoreLock Stores StorePc StoreInput :=
  storeProgram (fun _ => some 0) (plainDesc 0 (BBox.line 0 0))

/-- Call `0` waits for the metadata that call `1` adds, while call `2` adds an entry to the table. -/
def waitingCalls : List (Nat × StoreInput) :=
  [(0, .begin (.metaFindEntry [97] 0 true)), (1, .begin (.lsAddMeta ⟨[97], 0, []⟩)),
    (2, .begin (.dhtAddEntry (plainDesc 0 (BBox.line 0 3))))] ++
    -- the call that waits gives its mutex back before the other one takes it
    [0, 1, 0, 1, 1, 2, 1, 2, 1, 0, 1, 0, 1, 2, 1, 1].map fun t => (t, .go fun _ => true)

theorem released_iff_waitingCalls :
    ∃ s, (StoreSys.start emptyStores).run plainProgram waitingCalls = some s ∧
      s.pc 0 = .returned (.mdata (some ⟨[97], 0, []⟩)) ∧ StoreSys.Released s := by
  have hrun := Sys.isRun plainProgram
  obtain ⟨s, hs, hpc⟩ : ∃ s, (StoreSys.start emptyStores).run plainProgram waitingCalls = some s ∧
      s.pc 0 = .returned (.mdata (some ⟨[97], 0, []⟩)) := ⟨_, rfl, rfl⟩
  refine ⟨s, hs, hpc, (released_iff _ _ emptyStores _ s hs).2 ?_⟩
  iterate 10 refine hrun.along_cons trivial rfl ?_
  -- the entry has no match, but memory
  refine hrun.along_cons (Or.inr rfl) rfl ?_
  iterate 8 refine hrun.along_cons trivial rfl ?_
  exact Runs.along_nil _

/-- The object `a`, version `0`, in the cell `0`. -/
def absentObj : DataObj := ⟨[97], 0, 1, 1, fun _ => 0, fun _ => 0⟩

/-- `dspaces_server_get_objdata` of an object that is not there returns with `ls_mutex`, and the next call
cannot take it. -/
theorem not_released_absent :
    ∃ s, (StoreSys.start emptyStores).run plainProgram
        [(0, .begin (.getObjdata absentObj fun _ => 0)), (0, .go fun _ => true), (0, .go fun _ => true),
          (1, .begin (.lsAddMeta ⟨[97], 0, []⟩))] = some s ∧
      (s.pc 0).isReturned ∧ s.step plainProgram (1, .go fun _ => true) = none ∧ ¬ StoreSys.Released s :=
  ⟨_, rfl, trivial, rfl, fun h => h.taken .lsMutex 0 rfl trivial⟩

end DataSpaces
