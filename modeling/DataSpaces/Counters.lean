import Mathlib.Algebra.BigOperators.Group.Finset.Basic
import Mathlib.Data.Finset.Card
import DataSpaces.Storage
import DataSpaces.Subs

/-!
# Counters — what `dspaces_fini` waits for (`pending_sub`, `local_put_count`)

`dspaces_fini` waits until no subscription is pending and no local object is left.  Both counters are
raised before a server is told, and the error returns after that do not lower them again.  An object that
`ls_add_obj` evicts from the local storage stays in `local_put_count`.

An object of the local storage is kept here with a mark that says whether a server was told about it;
without the marks the storage is the `SsStorage` of the other modules.
-/

namespace DataSpaces

/-- An object in the local storage of a client. -/
structure LocalObj where
  od : ObjData
  told : Bool

/-- The local storage of a client. -/
structure LocalStore where
  sizeHash : Nat
  sizeHash_pos : 0 < sizeHash
  varDict : DsStrHash
  objHash : Nat → List LocalObj

namespace LocalStore

def index (ls : LocalStore) (odsc : ObjDesc) : Nat :=
  odsc.version.toNat % ls.sizeHash

/-- The storage without the marks. -/
def toLs (ls : LocalStore) : SsStorage :=
  ⟨ls.sizeHash, ls.varDict, fun n => (ls.objHash n).map LocalObj.od⟩

/-- `ls_find_no_version`. -/
def lsFindNoVersion (ls : LocalStore) (odsc : ObjDesc) : Option LocalObj :=
  (ls.objHash (ls.index odsc)).find? fun obj => objDescByNameIntersect odsc obj.od.objDesc

/-- `ls_add_obj`. -/
def lsAddObj (ls : LocalStore) (obj : LocalObj) : LocalStore :=
  let bin := (ls.objHash (ls.index obj.od.objDesc)).eraseP fun old =>
    objDescByNameIntersect obj.od.objDesc old.od.objDesc
  { ls with
    varDict := dsStrHashAdd ls.varDict obj.od.objDesc.name
    objHash := Function.update ls.objHash (ls.index obj.od.objDesc) (obj :: bin) }

/-- `ls_find`. -/
def lsFind (ls : LocalStore) (odsc : ObjDesc) : Option LocalObj :=
  (ls.objHash (ls.index odsc)).find? fun obj => objDescEqualsIntersect odsc obj.od.objDesc

/-- `ls_try_remove_free` of the object that `ls_find` found. -/
def lsRemoveFound (ls : LocalStore) (odsc : ObjDesc) : LocalStore :=
  { ls with
    objHash := Function.update ls.objHash (ls.index odsc)
      ((ls.objHash (ls.index odsc)).eraseP fun obj => objDescEqualsIntersect odsc obj.od.objDesc) }

/-- The number of objects that a server was told about. -/
def numTold (ls : LocalStore) : Nat :=
  ∑ n ∈ Finset.range ls.sizeHash, (ls.objHash n).countP LocalObj.told

theorem toLs_lsAddObj (ls : LocalStore) (obj : LocalObj) :
    (ls.lsAddObj obj).toLs = ls.toLs.lsAddObj obj.od := by
  have hbins : (fun n => ((ls.lsAddObj obj).objHash n).map LocalObj.od) =
      (ls.toLs.lsAddObj obj.od).objHash := by
    funext n
    have hindex : ls.toLs.index obj.od.objDesc = ls.index obj.od.objDesc := rfl
    rw [SsStorage.objHash_lsAddObj, hindex]
    rcases eq_or_ne n (ls.index obj.od.objDesc) with rfl | hne
    · rw [if_pos rfl]
      simp only [lsAddObj, Function.update_self, List.map_cons, toLs, List.eraseP_map]
      rfl
    · rw [if_neg hne, lsAddObj]
      simp only [Function.update_of_ne hne]
      rfl
  rw [toLs, hbins]
  rfl

theorem toLs_lsFind (ls : LocalStore) (odsc : ObjDesc) :
    ls.toLs.lsFind odsc = (ls.lsFind odsc).map LocalObj.od := by
  rw [SsStorage.lsFind, lsFind, toLs, List.find?_map]
  rfl

theorem toLs_lsFindNoVersion (ls : LocalStore) (odsc : ObjDesc) :
    ls.toLs.lsFindNoVersion odsc = (ls.lsFindNoVersion odsc).map LocalObj.od := by
  rw [SsStorage.lsFindNoVersion, lsFindNoVersion, toLs, List.find?_map]
  rfl

theorem index_lt (ls : LocalStore) (odsc : ObjDesc) : ls.index odsc < ls.sizeHash :=
  Nat.mod_lt _ ls.sizeHash_pos

/-- What a change of one bin does to the number. -/
theorem numTold_update (ls : LocalStore) {n : Nat} (hn : n < ls.sizeHash) (varDict : DsStrHash)
    (bin : List LocalObj) :
    numTold { ls with varDict := varDict, objHash := Function.update ls.objHash n bin } +
        (ls.objHash n).countP LocalObj.told =
      ls.numTold + bin.countP LocalObj.told := by
  have hmem : n ∈ Finset.range ls.sizeHash := Finset.mem_range.2 hn
  have hupdate : (fun m => (Function.update ls.objHash n bin m).countP LocalObj.told) =
      Function.update (fun m => (ls.objHash m).countP LocalObj.told) n (bin.countP LocalObj.told) := by
    funext m
    rcases eq_or_ne m n with rfl | hne
    · rw [Function.update_self, Function.update_self]
    · rw [Function.update_of_ne hne, Function.update_of_ne hne]
  -- the sum over the other bins is the same
  have hnew : numTold { ls with varDict := varDict, objHash := Function.update ls.objHash n bin } =
      bin.countP LocalObj.told + ∑ m ∈ Finset.range ls.sizeHash \ {n}, (ls.objHash m).countP LocalObj.told := by
    rw [numTold]
    simp only [hupdate]
    exact Finset.sum_update_of_mem hmem _ _
  have hold : ls.numTold = (ls.objHash n).countP LocalObj.told +
      ∑ m ∈ Finset.range ls.sizeHash \ {n}, (ls.objHash m).countP LocalObj.told :=
    Finset.sum_eq_add_sum_sdiff_singleton_of_mem hmem _
  omega

/-- A server was told about every object. -/
def AllTold (ls : LocalStore) : Prop :=
  ∀ n, ∀ obj ∈ ls.objHash n, obj.told = true

namespace AllTold

variable {ls : LocalStore}

theorem countP_eq (h : ls.AllTold) {n : Nat} {bin : List LocalObj} (hbin : ∀ obj ∈ bin, obj ∈ ls.objHash n) :
    bin.countP LocalObj.told = bin.length :=
  List.countP_eq_length.2 fun obj hobj => h n obj (hbin obj hobj)

theorem lsAddObj (h : ls.AllTold) {obj : LocalObj} (hobj : obj.told = true) : (ls.lsAddObj obj).AllTold := by
  intro n old hold
  simp only [LocalStore.lsAddObj, Function.update_apply] at hold
  split at hold
  · rcases List.mem_cons.1 hold with rfl | hold
    · exact hobj
    · exact h _ old (List.mem_of_mem_eraseP hold)
  · exact h n old hold

theorem lsRemoveFound (h : ls.AllTold) (odsc : ObjDesc) : (ls.lsRemoveFound odsc).AllTold := by
  intro n old hold
  simp only [LocalStore.lsRemoveFound, Function.update_apply] at hold
  split at hold
  · exact h _ old (List.mem_of_mem_eraseP hold)
  · exact h n old hold

/-- A new object counts iff no other one is evicted for it. -/
theorem numTold_lsAddObj (h : ls.AllTold) (obj : LocalObj) (hobj : obj.told = true) :
    (ls.lsAddObj obj).numTold =
      ls.numTold + if (ls.lsFindNoVersion obj.od.objDesc).isNone then 1 else 0 := by
  have hupdate := ls.numTold_update (ls.index_lt obj.od.objDesc) (dsStrHashAdd ls.varDict obj.od.objDesc.name)
    (obj :: (ls.objHash (ls.index obj.od.objDesc)).eraseP fun old =>
      objDescByNameIntersect obj.od.objDesc old.od.objDesc)
  rw [List.countP_cons_of_pos hobj, h.countP_eq (fun _ hold => hold),
    h.countP_eq (fun _ hold => List.mem_of_mem_eraseP hold)] at hupdate
  have hadd : (ls.lsAddObj obj).numTold = numTold { ls with
      varDict := dsStrHashAdd ls.varDict obj.od.objDesc.name
      objHash := Function.update ls.objHash (ls.index obj.od.objDesc)
        (obj :: (ls.objHash (ls.index obj.od.objDesc)).eraseP fun old =>
          objDescByNameIntersect obj.od.objDesc old.od.objDesc) } := rfl
  rw [hadd]
  cases hfind : ls.lsFindNoVersion obj.od.objDesc with
  | none =>
      have hall := List.find?_eq_none.1 hfind
      rw [List.eraseP_of_forall_not hall] at hupdate ⊢
      simp only [Option.isNone_none, if_true]
      omega
  | some old =>
      -- one object more, and one less
      have hlen := List.length_eraseP_of_mem (List.mem_of_find?_eq_some hfind) (List.find?_some hfind)
      have hpos := List.length_pos_of_mem (List.mem_of_find?_eq_some hfind)
      rw [hlen] at hupdate
      simp only [Option.isNone_some, Bool.false_eq_true, if_false]
      omega

/-- The object that is drained is taken off. -/
theorem numTold_lsRemoveFound (h : ls.AllTold) (odsc : ObjDesc) (hfind : (ls.lsFind odsc).isSome) :
    (ls.lsRemoveFound odsc).numTold + 1 = ls.numTold := by
  obtain ⟨obj, hobj⟩ := Option.isSome_iff_exists.1 hfind
  have hupdate := ls.numTold_update (ls.index_lt odsc) ls.varDict
    ((ls.objHash (ls.index odsc)).eraseP fun obj => objDescEqualsIntersect odsc obj.od.objDesc)
  have hlen := List.length_eraseP_of_mem (List.mem_of_find?_eq_some hobj) (List.find?_some hobj)
  have hpos := List.length_pos_of_mem (List.mem_of_find?_eq_some hobj)
  rw [h.countP_eq (fun _ hold => hold), h.countP_eq (fun _ hold => List.mem_of_mem_eraseP hold), hlen]
    at hupdate
  have hremove : (ls.lsRemoveFound odsc).numTold = numTold { ls with
      objHash := Function.update ls.objHash (ls.index odsc)
        ((ls.objHash (ls.index odsc)).eraseP fun obj => objDescEqualsIntersect odsc obj.od.objDesc) } := rfl
  rw [hremove]
  omega

end AllTold

end LocalStore

/-- What becomes of the request in `dspaces_put_local`: the call that fails, or the answer. -/
inductive PutLocalOutcome
  | createFails
  | forwardFails
  | getOutputFails
  | answered (ret : Int32)
  deriving DecidableEq

/-- What becomes of the transfer in `drain_rpc`. -/
inductive DrainOutcome
  | getInputFails
  | bulkCreateFails
  | bulkTransferFails
  | transferred
  deriving DecidableEq

/-- A client with its subscriptions and its local storage. -/
structure Client where
  subs : SubClient
  ls : LocalStore
  localPutCount : Int

inductive ClientEvent
  | subs (e : SubEvent)
  /-- `dspaces_put_local`, with the object that it makes of its arguments -/
  | putLocal (listens : Bool) (od : ObjData) (outcome : PutLocalOutcome)
  | drain (inOdsc : ObjDesc) (outcome : DrainOutcome)

namespace Client

def init (sizeHash : Nat) (h : 0 < sizeHash) : Client :=
  ⟨.init, ⟨sizeHash, h, dsStrHashInit, fun _ => []⟩, 0⟩

/-- A server was told iff `margo_forward` succeeds. -/
def PutLocalOutcome.told : PutLocalOutcome → Bool
  | .createFails => false
  | .forwardFails => false
  | .getOutputFails => true
  | .answered _ => true

/-- Whether `dspaces_put_local` returns an error for the outcome. -/
def PutLocalOutcome.isError : PutLocalOutcome → Bool
  | .createFails => true
  | .forwardFails => true
  | .getOutputFails => true
  | .answered ret => ret != 0

/-- `dspaces_put_local`, and whether it returns an error. -/
def dspacesPutLocal (c : Client) (listens : Bool) (od : ObjData) (outcome : PutLocalOutcome) : Client × Bool :=
  if !c.subs.listenerInit && !listens then (c, true)
  else
    ({ subs := { c.subs with listenerInit := true }
       localPutCount := c.localPutCount + 1
       ls := c.ls.lsAddObj ⟨od, PutLocalOutcome.told outcome⟩ },
      PutLocalOutcome.isError outcome)

/-- `drain_rpc`, and whether it does not answer with success. -/
def drainRpc (c : Client) (inOdsc : ObjDesc) (outcome : DrainOutcome) : Client × Bool :=
  match outcome with
  | .getInputFails => (c, true)
  | outcome =>
      if (c.ls.lsFind inOdsc).isNone then (c, true)
      else
        match outcome with
        | .transferred =>
            ({ c with ls := c.ls.lsRemoveFound inOdsc, localPutCount := c.localPutCount - 1 }, false)
        | _ => (c, true)

/-- One event, and whether it is a call that returns an error. -/
def step (c : Client) : ClientEvent → Option (Client × Bool)
  | .subs (.sub listens outcome) =>
      (c.subs.step (.sub listens outcome)).map fun subs =>
        ({ c with subs := subs }, (c.subs.dspacesSub listens outcome).2.isNone)
  | .subs e => (c.subs.step e).map fun subs => ({ c with subs := subs }, false)
  | .putLocal listens od outcome => some (c.dspacesPutLocal listens od outcome)
  | .drain inOdsc outcome => some (c.drainRpc inOdsc outcome)

def next (c : Client) (e : ClientEvent) : Option Client :=
  (c.step e).map Prod.fst

def run (evs : List ClientEvent) (c : Client) : Option Client :=
  evs.foldlM next c

/-- `dspaces_fini` waits. -/
def finiWaits (c : Client) : Bool :=
  c.subs.pendingSub > 0 || c.localPutCount > 0

/-! ## What is expected -/

/-- The subscriptions whose request was sent and whose notification was not processed. -/
def unprocessed (subs : SubClient) : Finset Nat :=
  (Finset.range subs.subSerial).filter fun id => subs.sent id = true ∧ subs.pc id ≠ .finished

structure Exact (c : Client) : Prop where
  pendingSub : c.subs.pendingSub = (unprocessed c.subs).card
  localPutCount : c.localPutCount = c.ls.numTold

/-- Counters and lists are as they were. -/
structure Unchanged (c c' : Client) : Prop where
  pendingSub : c'.subs.pendingSub = c.subs.pendingSub
  localPutCount : c'.localPutCount = c.localPutCount
  subLists : c'.subs.subLists = c.subs.subLists
  doneList : c'.subs.doneList = c.subs.doneList

/-- The event leaves exact counters, and nothing changed if it returns an error. -/
def GoodStep (c : Client) (e : ClientEvent) : Prop :=
  ∀ c' isError, c.step e = some (c', isError) → c'.Exact ∧ (isError = true → c.Unchanged c')

/-- `dspaces_init_listener` fails. -/
def ListenerFails (c : Client) (listens : Bool) : Prop :=
  c.subs.listenerInit = false ∧ listens = false

/-- No request fails after a counter was raised, and no local object is evicted. -/
def Clean (c : Client) : ClientEvent → Prop
  | .subs (.sub listens outcome) => c.ListenerFails listens ∨ outcome = .sent
  | .putLocal listens od outcome =>
      c.ListenerFails listens ∨ outcome = .answered 0 ∧ (c.ls.lsFindNoVersion od.objDesc).isNone
  | _ => True

/-! ## Subscriptions -/

/-- Only subscriptions whose request was sent have a notification, and they were registered. -/
structure Counted (subs : SubClient) : Prop where
  started : ∀ a, subs.pc a ≠ .idle → subs.sent a = true
  below : ∀ a, subs.sent a = true → a < subs.subSerial

/-- A step that neither adds nor finishes a subscription. -/
structure Quiet (subs subs' : SubClient) : Prop where
  sent : subs'.sent = subs.sent
  serial : subs'.subSerial = subs.subSerial
  pendingSub : subs'.pendingSub = subs.pendingSub
  pc : ∀ a, subs'.pc a = subs.pc a ∨
    subs.pc a ≠ .finished ∧ subs'.pc a ≠ .finished ∧ (subs.pc a = .idle → subs.sent a = true)

theorem quiet_setPc {subs : SubClient} {id : Nat} {old pc : NotifyPc} (hpc : subs.pc id = old)
    (hold : old ≠ .finished) (hidle : old ≠ .idle) (hnew : pc ≠ .finished) : Quiet subs (subs.setPc id pc) := by
  refine ⟨rfl, rfl, rfl, fun a => ?_⟩
  rcases eq_or_ne a id with rfl | hne
  · exact Or.inr ⟨hpc ▸ hold, by rwa [SubClient.pc_setPc], fun h => absurd (hpc.symm.trans h) hidle⟩
  · exact Or.inl (Function.update_of_ne hne _ _)

theorem quiet_arrive {subs : SubClient} {id : Nat} (hsent : subs.sent id = true) (hpc : subs.pc id = .idle) :
    Quiet subs (subs.setPc id .arrived) := by
  refine ⟨rfl, rfl, rfl, fun a => ?_⟩
  rcases eq_or_ne a id with rfl | hne
  · refine Or.inr ⟨?_, ?_, fun _ => hsent⟩
    · rw [hpc]
      decide
    · rw [SubClient.pc_setPc]
      decide
  · exact Or.inl (Function.update_of_ne hne _ _)

/-- A quiet step may set other fields too. -/
theorem Quiet.of_same {subs mid subs' : SubClient} (h : Quiet subs mid) (hsent : subs'.sent = mid.sent)
    (hserial : subs'.subSerial = mid.subSerial) (hpending : subs'.pendingSub = mid.pendingSub)
    (hpc : subs'.pc = mid.pc) : Quiet subs subs' :=
  ⟨hsent.trans h.sent, hserial.trans h.serial, hpending.trans h.pendingSub, fun a => by
    rw [hpc]
    exact h.pc a⟩

theorem Quiet.refl (subs : SubClient) : Quiet subs subs :=
  ⟨rfl, rfl, rfl, fun _ => Or.inl rfl⟩

/-- Every event is quiet but a new subscription and the last region of a notification. -/
theorem quiet_step {subs subs' : SubClient} {e : SubEvent} (hstep : subs.Step e subs')
    (hsub : ∀ listens outcome, e ≠ .sub listens outcome) (hfinish : ∀ id, e ≠ .finish id) :
    Quiet subs subs' := by
  have hrefl := Quiet.refl subs
  -- what is counted depends on `sent` and `pc` only
  cases hstep with
  | sub listens outcome => exact absurd rfl (hsub listens outcome)
  | finish => exact absurd rfl (hfinish _)
  | cancelFail | checkFail => exact hrefl
  | cancel =>
      rw [SubClient.dspacesCancelSub]
      split
      · exact hrefl.of_same rfl rfl rfl rfl
      · exact hrefl
  | arrive hsent hpc => exact quiet_arrive hsent hpc
  | look _ hpc hlook =>
      rcases SubClient.look_cases hlook with rfl | ⟨-, rfl⟩ | ⟨-, rfl⟩
      · exact hrefl.of_same rfl rfl rfl rfl
      · exact quiet_setPc hpc (by decide) (by decide) (by decide)
      · exact quiet_setPc hpc (by decide) (by decide) (by decide)
  | assign hpc =>
      exact (quiet_setPc hpc (by decide) (by decide) (by decide)).of_same rfl rfl rfl rfl
  | fetch allocated hpc => exact quiet_setPc hpc (by decide) (by decide) (by simp)
  | @settle id _ _ hpc =>
      have hquiet : ∀ data, Quiet subs (subs.setPc id (.settled data)) := fun data =>
        quiet_setPc hpc (by simp) (by simp) (by simp)
      rw [SubClient.settle]
      split
      · exact (hquiet _).of_same rfl rfl rfl rfl
      · exact hquiet false
  | @callback id data ret hpc =>
      have hquiet : Quiet subs (subs.setPc id .called) := quiet_setPc hpc (by simp) (by simp) (by simp)
      cases data with
      | false => exact hquiet
      | true => exact hquiet.of_same rfl rfl rfl rfl
  | check | wake | returnStatus => exact hrefl.of_same rfl rfl rfl rfl
  | readStatus =>
      rw [SubClient.readStatus]
      split
      · exact hrefl.of_same rfl rfl rfl rfl
      · exact hrefl.of_same rfl rfl rfl rfl

theorem Quiet.unprocessed {subs subs' : SubClient} (h : Quiet subs subs') :
    unprocessed subs' = unprocessed subs := by
  rw [Client.unprocessed, Client.unprocessed, h.serial, h.sent]
  refine Finset.filter_congr fun a _ => and_congr_right fun _ => ?_
  rcases h.pc a with hsame | ⟨hold, hnew, -⟩
  · rw [hsame]
  · exact iff_of_true hnew hold

theorem Quiet.counted {subs subs' : SubClient} (h : Quiet subs subs') (hcounted : Counted subs) :
    Counted subs' := by
  refine ⟨fun a ha => ?_, fun a ha => ?_⟩
  · rw [h.sent]
    rcases h.pc a with hsame | ⟨-, -, hsent⟩
    · exact hcounted.started a (hsame ▸ ha)
    · by_cases hidle : subs.pc a = .idle
      · exact hsent hidle
      · exact hcounted.started a hidle
  · rw [h.sent] at ha
    rw [h.serial]
    exact hcounted.below a ha

/-- The last region takes off one subscription. -/
theorem finish_spec {subs : SubClient} {id : Nat} (h : Counted subs) (hpc : subs.pc id = .called) :
    Counted (subs.finish id) ∧ (subs.finish id).pendingSub = subs.pendingSub - 1 ∧
      (unprocessed (subs.finish id)).card + 1 = (unprocessed subs).card := by
  have hsent : subs.sent id = true := h.started id (by rw [hpc]; decide)
  have hsame : (subs.finish id).sent = subs.sent ∧ (subs.finish id).subSerial = subs.subSerial ∧
      (subs.finish id).pendingSub = subs.pendingSub - 1 ∧
      (subs.finish id).pc = Function.update subs.pc id .finished := by
    rw [SubClient.finish, SubClient.dspacesMoveSub]
    dsimp only
    split <;> exact ⟨rfl, rfl, rfl, rfl⟩
  obtain ⟨hsents, hserial, hpending, hpcs⟩ := hsame
  refine ⟨⟨fun a ha => ?_, fun a ha => ?_⟩, hpending, ?_⟩
  · rw [hsents]
    rcases eq_or_ne a id with rfl | hne
    · exact hsent
    · rw [hpcs, Function.update_of_ne hne] at ha
      exact h.started a ha
  · rw [hsents] at ha
    rw [hserial]
    exact h.below a ha
  · -- the notification was on its way until now
    have hmem : id ∈ unprocessed subs :=
      Finset.mem_filter.2 ⟨Finset.mem_range.2 (h.below id hsent), hsent, by rw [hpc]; decide⟩
    have herase : unprocessed (subs.finish id) = (unprocessed subs).erase id := by
      ext a
      rw [unprocessed, unprocessed, Finset.mem_filter, Finset.mem_erase, Finset.mem_filter, hserial, hsents,
        hpcs]
      rcases eq_or_ne a id with rfl | hne
      · simp
      · simp [hne]
    rw [herase]
    exact Finset.card_erase_add_one hmem

theorem listener_ready {subs : SubClient} {listens : Bool}
    (h : ¬ (subs.listenerInit = false ∧ listens = false)) : (!subs.listenerInit && !listens) = false := by
  cases hinit : subs.listenerInit with
  | true => rfl
  | false =>
      cases listens with
      | true => rfl
      | false => exact absurd ⟨hinit, rfl⟩ h

/-- A subscription that gets past the listener is counted, whether or not it is sent. -/
theorem sub_pending {subs : SubClient} {listens : Bool} (outcome : SubOutcome)
    (hlistens : ¬ (subs.listenerInit = false ∧ listens = false)) :
    (subs.dspacesSub listens outcome).1.pendingSub = subs.pendingSub + 1 ∧
      ((subs.dspacesSub listens outcome).2.isNone = true ↔ outcome ≠ .sent) := by
  rw [SubClient.dspacesSub, listener_ready hlistens]
  cases outcome with
  | createFails | iforwardFails => exact ⟨rfl, by simp⟩
  | sent => exact ⟨rfl, by simp⟩

/-- A subscription that is sent is one more that is not processed. -/
theorem sub_sent {subs : SubClient} (h : Counted subs) {listens : Bool}
    (hlistens : ¬ (subs.listenerInit = false ∧ listens = false)) :
    Counted (subs.dspacesSub listens .sent).1 ∧
      (unprocessed (subs.dspacesSub listens .sent).1).card = (unprocessed subs).card + 1 := by
  obtain ⟨hsent, hserial, hpc⟩ :
      (subs.dspacesSub listens .sent).1.sent = Function.update subs.sent subs.subSerial true ∧
        (subs.dspacesSub listens .sent).1.subSerial = subs.subSerial + 1 ∧
        (subs.dspacesSub listens .sent).1.pc = subs.pc := by
    rw [SubClient.dspacesSub, listener_ready hlistens]
    exact ⟨rfl, rfl, rfl⟩
  -- nothing has come for a subscription that is not there yet
  have hidle : subs.pc subs.subSerial = .idle := by
    by_contra hpc
    exact Nat.lt_irrefl _ (h.below _ (h.started _ hpc))
  refine ⟨⟨fun a ha => ?_, fun a ha => ?_⟩, ?_⟩
  · rw [hsent]
    rcases eq_or_ne a subs.subSerial with rfl | hne
    · exact Function.update_self _ _ _
    · rw [Function.update_of_ne hne]
      rw [hpc] at ha
      exact h.started a ha
  · rw [hserial]
    rcases eq_or_ne a subs.subSerial with rfl | hne
    · exact Nat.lt_succ_self _
    · rw [hsent, Function.update_of_ne hne] at ha
      exact Nat.lt_succ_of_lt (h.below a ha)
  · have hnot : subs.subSerial ∉ unprocessed subs := by
      simp [unprocessed]
    have hinsert : unprocessed (subs.dspacesSub listens .sent).1 =
        insert subs.subSerial (unprocessed subs) := by
      ext a
      rw [unprocessed, unprocessed, Finset.mem_filter, Finset.mem_insert, Finset.mem_filter, hsent, hserial,
        hpc, Finset.mem_range, Finset.mem_range]
      rcases eq_or_ne a subs.subSerial with rfl | hne
      · simp [hidle]
      · rw [Function.update_of_ne hne, Nat.lt_succ_iff_lt_or_eq]
        simp [hne]
    rw [hinsert]
    exact Finset.card_insert_of_notMem hnot

/-! ## Runs -/

/-- The counters are exact, and a server was told about every object. -/
structure Inv (c : Client) : Prop where
  exact : c.Exact
  counted : Counted c.subs
  told : c.ls.AllTold

theorem inv_init (sizeHash : Nat) (h : 0 < sizeHash) : (init sizeHash h).Inv := by
  refine ⟨⟨rfl, ?_⟩, ⟨fun a ha => absurd rfl ha, fun a ha => nomatch ha⟩, fun n obj hobj => ?_⟩
  · have hzero : (init sizeHash h).ls.numTold = 0 := Finset.sum_eq_zero fun n _ => rfl
    rw [hzero]
    rfl
  · exact absurd hobj List.not_mem_nil

theorem unchanged_rfl {c : Client} : c.Unchanged c :=
  ⟨rfl, rfl, rfl, rfl⟩

section Step

variable {c c' : Client} {isError : Bool}

theorem goodStep_iff {e : ClientEvent} (hstep : c.step e = some (c', isError)) :
    c.GoodStep e ↔ c'.Exact ∧ (isError = true → c.Unchanged c') := by
  constructor
  · intro h
    exact h c' isError hstep
  · intro h c₁ isError₁ hstep₁
    cases hstep.symm.trans hstep₁
    exact h

/-- `dspaces_sub`. -/
theorem Inv.sub (h : c.Inv) {listens : Bool} {outcome : SubOutcome}
    (hstep : c.step (.subs (.sub listens outcome)) = some (c', isError)) :
    (c.Clean (.subs (.sub listens outcome)) → c'.Inv ∧ (isError = true → c.Unchanged c')) ∧
      (c'.Exact ∧ (isError = true → c.Unchanged c') → c.Clean (.subs (.sub listens outcome))) := by
  simp only [step, SubClient.step, Option.map_eq_some_iff, Option.ite_none_left_eq_some, Option.some.injEq,
    Prod.mk.injEq] at hstep
  obtain ⟨subs, ⟨-, rfl⟩, rfl, rfl⟩ := hstep
  by_cases hlistens : c.ListenerFails listens
  · have hsame : c.subs.dspacesSub listens outcome = (c.subs, none) := by
      rw [SubClient.dspacesSub, hlistens.1, hlistens.2]
      rfl
    rw [hsame]
    exact ⟨fun _ => ⟨h, fun _ => unchanged_rfl⟩, fun _ => Or.inl hlistens⟩
  · obtain ⟨hpending, herror⟩ := sub_pending outcome hlistens
    constructor
    · rintro (hfails | rfl)
      · exact absurd hfails hlistens
      · obtain ⟨hcounted, hcard⟩ := sub_sent h.counted hlistens
        refine ⟨⟨⟨?_, h.exact.localPutCount⟩, hcounted, h.told⟩, fun hnone => absurd rfl (herror.1 hnone)⟩
        rw [hpending, hcard, h.exact.pendingSub]
        rfl
    · -- an error return would leave one more pending
      rintro ⟨-, hunchanged⟩
      refine Or.inr ?_
      by_contra hnot
      have hsame := (hunchanged (herror.2 hnot)).pendingSub
      rw [hpending] at hsame
      omega

/-- The other events of subscriptions. -/
theorem Inv.subs (h : c.Inv) {e : SubEvent} (hsub : ∀ listens outcome, e ≠ .sub listens outcome)
    (hstep : c.step (.subs e) = some (c', isError)) :
    c'.Inv ∧ (isError = true → c.Unchanged c') := by
  -- these events return no error
  have hstep' : ∃ subs, c.subs.step e = some subs ∧ { c with subs := subs } = c' ∧ false = isError := by
    cases e with
    | sub listens outcome => exact absurd rfl (hsub listens outcome)
    | _ =>
        simp only [step, Option.map_eq_some_iff, Prod.mk.injEq] at hstep
        exact hstep
  obtain ⟨subs, hsubs, rfl, rfl⟩ := hstep'
  refine ⟨?_, fun herror => nomatch herror⟩
  by_cases hfinish : ∀ id, e ≠ .finish id
  · have hquiet := quiet_step (SubClient.step_cases hsubs) hsub hfinish
    refine ⟨⟨?_, h.exact.localPutCount⟩, hquiet.counted h.counted, h.told⟩
    rw [hquiet.pendingSub, hquiet.unprocessed]
    exact h.exact.pendingSub
  · simp only [not_forall, not_not] at hfinish
    obtain ⟨id, rfl⟩ := hfinish
    cases SubClient.step_cases hsubs with
    | finish _ hpc =>
        obtain ⟨hcounted, hpending, hcard⟩ := finish_spec h.counted hpc
        refine ⟨⟨?_, h.exact.localPutCount⟩, hcounted, h.told⟩
        have hcard' : ((unprocessed (c.subs.finish id)).card : Int) + 1 = (unprocessed c.subs).card := by
          exact_mod_cast hcard
        rw [hpending, h.exact.pendingSub, ← hcard', Int.add_sub_cancel]

/-- `dspaces_put_local`. -/
theorem Inv.putLocal (h : c.Inv) {listens : Bool} {od : ObjData} {outcome : PutLocalOutcome}
    (hstep : c.step (.putLocal listens od outcome) = some (c', isError)) :
    (c.Clean (.putLocal listens od outcome) → c'.Inv ∧ (isError = true → c.Unchanged c')) ∧
      (c'.Exact ∧ (isError = true → c.Unchanged c') → c.Clean (.putLocal listens od outcome)) := by
  simp only [step, Option.some.injEq] at hstep
  by_cases hlistens : c.ListenerFails listens
  · have hsame : c.dspacesPutLocal listens od outcome = (c, true) := by
      rw [dspacesPutLocal, hlistens.1, hlistens.2]
      rfl
    rw [hsame] at hstep
    cases hstep
    exact ⟨fun _ => ⟨h, fun _ => unchanged_rfl⟩, fun _ => Or.inl hlistens⟩
  · rw [dspacesPutLocal, listener_ready hlistens] at hstep
    simp only [Bool.false_eq_true, if_false, Prod.mk.injEq] at hstep
    obtain ⟨rfl, rfl⟩ := hstep
    constructor
    · rintro (hfails | ⟨rfl, hnone⟩)
      · exact absurd hfails hlistens
      · have hnum := h.told.numTold_lsAddObj ⟨od, true⟩ rfl
        rw [if_pos hnone] at hnum
        refine ⟨⟨⟨h.exact.pendingSub, ?_⟩, ⟨h.counted.started, h.counted.below⟩, h.told.lsAddObj rfl⟩,
          fun herror => absurd herror (by decide)⟩
        show c.localPutCount + 1 = ((c.ls.lsAddObj ⟨od, true⟩).numTold : Int)
        rw [hnum, h.exact.localPutCount]
        rfl
    · rintro ⟨hexact, hunchanged⟩
      refine Or.inr ?_
      cases herror : PutLocalOutcome.isError outcome with
      | true =>
          have hsame := (hunchanged herror).localPutCount
          have hsame' : c.localPutCount + 1 = c.localPutCount := hsame
          omega
      | false =>
          have hanswered : outcome = .answered 0 := by
            cases outcome with
            | answered ret =>
                have hzero : ret = 0 := by simpa [PutLocalOutcome.isError] using herror
                rw [hzero]
            | createFails | forwardFails | getOutputFails => cases herror
          subst hanswered
          refine ⟨rfl, ?_⟩
          -- with an eviction the number of objects is the same as before
          have hnum := h.told.numTold_lsAddObj ⟨od, true⟩ rfl
          have hcount : c.localPutCount + 1 = ((c.ls.lsAddObj ⟨od, true⟩).numTold : Int) := hexact.localPutCount
          by_contra hsome
          rw [if_neg hsome] at hnum
          rw [hnum, h.exact.localPutCount] at hcount
          omega

/-- `drain_rpc`. -/
theorem Inv.drain (h : c.Inv) {inOdsc : ObjDesc} {outcome : DrainOutcome}
    (hstep : c.step (.drain inOdsc outcome) = some (c', isError)) :
    c'.Inv ∧ (isError = true → c.Unchanged c') := by
  simp only [step, Option.some.injEq] at hstep
  have hsame : c.drainRpc inOdsc outcome = (c, true) → c'.Inv ∧ (isError = true → c.Unchanged c') := by
    intro heq
    cases hstep.symm.trans heq
    exact ⟨h, fun _ => unchanged_rfl⟩
  cases hfind : c.ls.lsFind inOdsc with
  | none =>
      -- there is nothing to drain, and the call fails
      refine hsame ?_
      cases outcome <;> simp [drainRpc, hfind]
  | some obj =>
      cases outcome with
      | getInputFails | bulkCreateFails | bulkTransferFails => exact hsame (by simp [drainRpc, hfind])
      | transferred =>
          have hnum := h.told.numTold_lsRemoveFound inOdsc (by rw [hfind]; rfl)
          have hdrained : c.drainRpc inOdsc .transferred =
              ({ c with ls := c.ls.lsRemoveFound inOdsc, localPutCount := c.localPutCount - 1 }, false) := by
            simp [drainRpc, hfind]
          cases hstep.symm.trans hdrained
          refine ⟨⟨⟨h.exact.pendingSub, ?_⟩, h.counted, h.told.lsRemoveFound inOdsc⟩,
            fun herror => nomatch herror⟩
          show c.localPutCount - 1 = ((c.ls.lsRemoveFound inOdsc).numTold : Int)
          rw [h.exact.localPutCount]
          omega

/-- A step keeps the counters exact, and errors without effect, iff it is clean. -/
theorem Inv.step (h : c.Inv) {e : ClientEvent} (hstep : c.step e = some (c', isError)) :
    (c.Clean e → c'.Inv ∧ (isError = true → c.Unchanged c')) ∧
      (c'.Exact ∧ (isError = true → c.Unchanged c') → c.Clean e) := by
  cases e with
  | subs e =>
      cases e with
      | sub listens outcome => exact h.sub hstep
      | _ => exact ⟨fun _ => h.subs (by simp) hstep, fun _ => trivial⟩
  | putLocal listens od outcome => exact h.putLocal hstep
  | drain inOdsc outcome => exact ⟨fun _ => h.drain hstep, fun _ => trivial⟩

end Step

/-! ## Main results -/

/-- In a run every step leaves exact counters, and every call that returns an error leaves counters and
lists as they were, iff no request fails after a counter was raised and no local object is evicted. -/
theorem counters_iff {sizeHash : Nat} (hpos : 0 < sizeHash) {evs : List ClientEvent} {c : Client}
    (hrun : run evs (init sizeHash hpos) = some c) :
    Runs.Along run GoodStep evs (init sizeHash hpos) ↔ Runs.Along run Clean evs (init sizeHash hpos) := by
  have hisRun := Runs.isRun_foldlM next
  have hresult : ∀ (c : Client) (e : ClientEvent), (c.next e).isSome →
      ∃ c' isError, c.step e = some (c', isError) ∧ c.next e = some c' := by
    intro c e hsome
    obtain ⟨c', hnext⟩ := Option.isSome_iff_exists.1 hsome
    obtain ⟨⟨c₁, isError⟩, hstep, rfl⟩ := Option.map_eq_some_iff.1 hnext
    exact ⟨c₁, isError, hstep, hnext⟩
  refine hisRun.along_iff_along (P := Inv) (fun c e h hsome => ?_) (fun c e c' h hsome hclean hnext => ?_) evs _
    (inv_init sizeHash hpos) (hisRun.along_isSome evs _ c hrun)
  · obtain ⟨c', isError, hstep, -⟩ := hresult c e hsome
    rw [goodStep_iff hstep]
    refine ⟨(h.step hstep).2, fun hclean => ?_⟩
    obtain ⟨hinv, hunchanged⟩ := (h.step hstep).1 hclean
    exact ⟨hinv.exact, hunchanged⟩
  · obtain ⟨c₁, isError, hstep, hnext₁⟩ := hresult c e hsome
    obtain rfl : c' = c₁ := Option.some.inj (hnext.symm.trans hnext₁)
    exact ((h.step hstep).1 hclean).1

/-- With exact counters, `dspaces_fini` waits iff there is something left to wait for. -/
theorem Exact.finiWaits_iff {c : Client} (h : c.Exact) :
    c.finiWaits = true ↔ (unprocessed c.subs).Nonempty ∨ 0 < c.ls.numTold := by
  rw [finiWaits, h.pendingSub, h.localPutCount, ← Finset.card_pos]
  simp

/-- An object of two cells. -/
def lineLocal : ObjData := ⟨plainDesc 0 (BBox.line 0 1), ⟨0, Coord.ofFn fun _ => 0⟩, fun _ => 0⟩

/-- A subscription that is notified, a local object that is drained, and a put for which there is no
listener. -/
def cleanEvents : List ClientEvent :=
  [.putLocal false lineLocal (.answered 0), .subs (.sub true .sent), .putLocal true lineLocal (.answered 0),
    .subs (.arrive 0), .subs (.look 0), .subs (.assign 0), .subs (.fetch 0 true), .subs (.settle 0),
    .subs (.callback 0 0), .subs (.finish 0), .drain lineLocal.objDesc .transferred]

theorem clean_cleanEvents : Runs.Along run Clean cleanEvents (init 1 Nat.one_pos) := by
  have skip : ∀ {e : ClientEvent} {es : List ClientEvent} {c c' : Client}, c.Clean e → c.next e = some c' →
      Runs.Along run Clean es c' → Runs.Along run Clean (e :: es) c :=
    (Runs.isRun_foldlM next).along_cons
  refine skip (Or.inl ⟨rfl, rfl⟩) rfl (skip (Or.inr rfl) rfl (skip (Or.inr ⟨rfl, rfl⟩) rfl ?_))
  refine skip trivial rfl (skip trivial rfl (skip trivial rfl (skip trivial rfl (skip trivial rfl ?_))))
  exact skip trivial rfl (skip trivial rfl (skip trivial rfl (Runs.along_nil _)))

theorem counters_clean : Runs.Along run GoodStep cleanEvents (init 1 Nat.one_pos) :=
  (counters_iff Nat.one_pos rfl).2 clean_cleanEvents

/-- A subscription that is not sent stays pending; an object that no server was told about is counted, and
so is one that was evicted. -/
theorem counters_not_exact :
    (∃ c, run [.subs (.sub true .iforwardFails)] (init 1 Nat.one_pos) = some c ∧ c.subs.pendingSub = 1 ∧
        (unprocessed c.subs).card = 0 ∧ c.subs.subLists 0 = [0]) ∧
      (∃ c, run [.putLocal true lineLocal .forwardFails] (init 1 Nat.one_pos) = some c ∧
        c.localPutCount = 1 ∧ c.ls.numTold = 0) ∧
      (∃ c, run [.putLocal true lineLocal (.answered 0), .putLocal true lineLocal (.answered 0)]
        (init 1 Nat.one_pos) = some c ∧ c.localPutCount = 2 ∧ c.ls.numTold = 1) ∧
      ¬ (init 1 Nat.one_pos).GoodStep (.subs (.sub true .iforwardFails)) := by
  refine ⟨⟨_, rfl, rfl, rfl, rfl⟩, ⟨_, rfl, rfl, rfl⟩, ⟨_, rfl, rfl, rfl⟩, fun hgood => ?_⟩
  have hexact := (hgood _ _ rfl).1.pendingSub
  exact absurd hexact (by decide)

end Client

end DataSpaces
