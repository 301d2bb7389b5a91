import Mathlib.Data.List.Basic
import Mathlib.Logic.Function.Basic
import DataSpaces.Lib.Runs

/-!
# Subs — the life of a subscription (`dspaces_sub`, `notify_rpc`, `dspaces_cancel_sub`, `dspaces_check_sub`)

A notification is handled in several steps: three regions under `sub_mutex`, and between them the
assignment of `DSPACES_SUB_TRANSFER`, the transfer and the callback, which no mutex protects.  Calls of
`dspaces_cancel_sub` and `dspaces_check_sub` can come between any two of them.  `dspaces_check_sub` reads
the status twice, without the mutex.

`dspaces_get_sub` does not go on from a node of its list to the next one: it finds a subscription that is
the first one of its list, and does not end, with the mutex held, when it is not.
-/

namespace DataSpaces

/-- `subh->status`. -/
inductive SubStatus
  | done
  | wait
  | err
  | transfer
  | running
  | invalid
  | cancelled
  deriving DecidableEq

/-- `dspaces_check_sub` waits in these states. -/
def SubStatus.pending : SubStatus → Bool
  | .wait => true
  | .transfer => true
  | .running => true
  | _ => false

/-- `struct dspaces_sub_handle`; the result is `none` until the callback sets it. -/
structure SubHandle where
  status : SubStatus
  result : Option Int32

/-- Where `notify_rpc` is for a subscription.  `data` says whether the local variable is not null. -/
inductive NotifyPc
  /-- no notification has come -/
  | idle
  /-- before the first region -/
  | arrived
  /-- the first region found `DSPACES_SUB_WAIT` -/
  | found
  /-- `DSPACES_SUB_TRANSFER` was assigned -/
  | assigned
  /-- before the second region -/
  | fetched (data : Bool)
  /-- after the second region -/
  | settled (data : Bool)
  /-- before the third region -/
  | called
  | finished
  deriving DecidableEq

/-- Where `dspaces_check_sub` is. -/
inductive CheckPc
  | waiting
  /-- before the first read of the status -/
  | reading
  /-- before the second one; with what is in `*result` -/
  | returning (result : Option Int32)
  deriving DecidableEq

/-- What happened to the subscription `id`. -/
inductive SubLog
  /-- `dspaces_cancel_sub` set `DSPACES_SUB_CANCELLED` -/
  | cancelled (id : Nat)
  /-- the callback was started and returned -/
  | called (id : Nat) (ret : Int32)
  /-- `dspaces_check_sub` returned a status, with what is in `*result` -/
  | reported (id : Nat) (status : SubStatus) (result : Option Int32)
  deriving DecidableEq

abbrev SUB_HASH_SIZE : Nat := 16

/-- The part of `struct dspaces_client` that has to do with subscriptions, with the threads that work
on it. -/
structure SubClient where
  listenerInit : Bool
  subh : Nat → SubHandle
  subSerial : Nat
  subLists : Nat → List Nat
  doneList : List Nat
  pendingSub : Int
  /-- `dspaces_get_sub` is in a loop that does not end, and holds `sub_mutex` -/
  stuck : Bool
  /-- the subscriptions whose request was sent to a server -/
  sent : Nat → Bool
  pc : Nat → NotifyPc
  /-- the calls of `dspaces_check_sub` that have not returned -/
  check : Nat → Option (Nat × CheckPc)
  log : List SubLog

/-- What becomes of the request in `dspaces_sub`. -/
inductive SubOutcome
  | createFails
  | iforwardFails
  | sent
  deriving DecidableEq

inductive SubEvent
  /-- `dspaces_sub`; `listens` says whether `dspaces_init_listener` succeeds if it is called -/
  | sub (listens : Bool) (outcome : SubOutcome)
  /-- `dspaces_cancel_sub`; the handle `none` is `DSPACES_SUB_FAIL` -/
  | cancel (subh : Option Nat)
  | arrive (id : Nat)
  /-- the first region of `notify_rpc` -/
  | look (id : Nat)
  /-- `subh->status = DSPACES_SUB_TRANSFER` -/
  | assign (id : Nat)
  /-- the transfer; `allocated` says whether `malloc` gives memory -/
  | fetch (id : Nat) (allocated : Bool)
  /-- the second region -/
  | settle (id : Nat)
  /-- the callback, which returns `ret` if it is called -/
  | callback (id : Nat) (ret : Int32)
  /-- the third region -/
  | finish (id : Nat)
  /-- thread `t` calls `dspaces_check_sub` -/
  | check (t : Nat) (subh : Option Nat) (wait : Bool)
  /-- the wait of thread `t` is over -/
  | wake (t : Nat)
  | readStatus (t : Nat)
  | returnStatus (t : Nat)
  deriving DecidableEq

namespace SubClient

def init : SubClient where
  listenerInit := false
  subh := fun _ => ⟨.wait, none⟩
  subSerial := 0
  subLists := fun _ => []
  doneList := []
  pendingSub := 0
  stuck := false
  sent := fun _ => false
  pc := fun _ => .idle
  check := fun _ => none
  log := []

def setStatus (st : SubClient) (id : Nat) (status : SubStatus) : SubClient :=
  { st with subh := Function.update st.subh id { st.subh id with status := status } }

def setPc (st : SubClient) (id : Nat) (pc : NotifyPc) : SubClient :=
  { st with pc := Function.update st.pc id pc }

def setCheck (st : SubClient) (t : Nat) (call : Option (Nat × CheckPc)) : SubClient :=
  { st with check := Function.update st.check t call }

def addLog (st : SubClient) (entry : SubLog) : SubClient :=
  { st with log := st.log ++ [entry] }

def registerClientSub (st : SubClient) (id : Nat) : SubClient :=
  { st with
    subLists := Function.update st.subLists (id % SUB_HASH_SIZE) (st.subLists (id % SUB_HASH_SIZE) ++ [id]) }

/-- `dspaces_sub`: the handle, or `none` for `DSPACES_SUB_FAIL`. -/
def dspacesSub (st : SubClient) (listens : Bool) (outcome : SubOutcome) : SubClient × Option Nat :=
  if !st.listenerInit && !listens then (st, none)
  else
    let id := st.subSerial
    let st := { st with listenerInit := true, pendingSub := st.pendingSub + 1, subSerial := id + 1 }
    let st := (st.registerClientSub id).setStatus id .wait
    match outcome with
    | .createFails => (st, none)
    | .iforwardFails => (st, none)
    | .sent => ({ st with sent := Function.update st.sent id true }, some id)

/-- What `dspaces_get_sub` comes to. -/
inductive GetSub
  | found
  | null
  | loops

/-- `dspaces_get_sub`: the loop stays at the first node. -/
def dspacesGetSub (st : SubClient) (id : Nat) : GetSub :=
  match st.subLists (id % SUB_HASH_SIZE) with
  | [] => .null
  | first :: _ => if first = id then .found else .loops

/-- `dspaces_move_sub`. -/
def dspacesMoveSub (st : SubClient) (id : Nat) : SubClient :=
  if id ∈ st.subLists (id % SUB_HASH_SIZE) then
    { st with
      subLists := Function.update st.subLists (id % SUB_HASH_SIZE) ((st.subLists (id % SUB_HASH_SIZE)).erase id)
      doneList := id :: st.doneList }
  else st

/-- `dspaces_cancel_sub` with a handle that was returned. -/
def dspacesCancelSub (st : SubClient) (id : Nat) : SubClient :=
  if (st.subh id).status = .wait ∨ (st.subh id).status = .transfer then
    (st.setStatus id .cancelled).addLog (.cancelled id)
  else st

/-- The first region of `notify_rpc`.  A null pointer is dereferenced when there is no subscription. -/
def look (st : SubClient) (id : Nat) : Option SubClient :=
  match st.dspacesGetSub id with
  | .null => none
  | .loops => some { st with stuck := true }
  | .found =>
      if (st.subh id).status = .wait then some (st.setPc id .found)
      else some (st.setPc id (.fetched false))

/-- The second region. -/
def settle (st : SubClient) (id : Nat) (data : Bool) : SubClient :=
  if (st.subh id).status = .transfer then (st.setStatus id .running).setPc id (.settled data)
  else st.setPc id (.settled false)

/-- The callback between the second and the third region. -/
def callback (st : SubClient) (id : Nat) (data : Bool) (ret : Int32) : SubClient :=
  if data then
    let st := { st with subh := Function.update st.subh id { st.subh id with result := some ret } }
    (st.addLog (.called id ret)).setPc id .called
  else st.setPc id .called

/-- The third region. -/
def finish (st : SubClient) (id : Nat) : SubClient :=
  let st := { st with pendingSub := st.pendingSub - 1 }
  ((st.dspacesMoveSub id).setStatus id .done).setPc id .finished

/-- The first read of the status in `dspaces_check_sub`. -/
def readStatus (st : SubClient) (t id : Nat) : SubClient :=
  if (st.subh id).status = .done then st.setCheck t (some (id, .returning (st.subh id).result))
  else st.setCheck t (some (id, .returning none))

/-- One event; `none` if it cannot happen. -/
def step (st : SubClient) : SubEvent → Option SubClient
  | .sub listens outcome => if st.stuck then none else some (st.dspacesSub listens outcome).1
  | .cancel none => some st
  | .cancel (some id) => if st.stuck ∨ st.sent id = false then none else some (st.dspacesCancelSub id)
  | .arrive id => if st.sent id ∧ st.pc id = .idle then some (st.setPc id .arrived) else none
  | .look id => if st.stuck ∨ st.pc id ≠ .arrived then none else st.look id
  | .assign id => if st.pc id = .found then some ((st.setStatus id .transfer).setPc id .assigned) else none
  | .fetch id allocated => if st.pc id = .assigned then some (st.setPc id (.fetched allocated)) else none
  | .settle id =>
      match st.pc id with
      | .fetched data => if st.stuck then none else some (st.settle id data)
      | _ => none
  | .callback id ret =>
      match st.pc id with
      | .settled data => some (st.callback id data ret)
      | _ => none
  | .finish id => if st.stuck ∨ st.pc id ≠ .called then none else some (st.finish id)
  -- `dspaces_check_sub` takes the mutex for its wait only
  | .check _ none _ => some st
  | .check t (some id) wait =>
      if st.check t = none ∧ st.sent id then
        some (st.setCheck t (some (id, if wait then .waiting else .reading)))
      else none
  | .wake t =>
      match st.check t with
      | some (id, .waiting) =>
          if st.stuck ∨ (st.subh id).status.pending then none
          else some (st.setCheck t (some (id, .reading)))
      | _ => none
  | .readStatus t =>
      match st.check t with
      | some (id, .reading) => some (st.readStatus t id)
      | _ => none
  | .returnStatus t =>
      match st.check t with
      | some (id, .returning result) =>
          some ((st.addLog (.reported id (st.subh id).status result)).setCheck t none)
      | _ => none

def run (evs : List SubEvent) (st : SubClient) : Option SubClient :=
  evs.foldlM step st

/-! ## What a step can do -/

/-- The steps of `step`, each with what it needs. -/
inductive Step (st : SubClient) : SubEvent → SubClient → Prop where
  | sub (listens : Bool) (outcome : SubOutcome) (hfree : st.stuck = false) :
      Step st (.sub listens outcome) (st.dspacesSub listens outcome).1
  | cancelFail : Step st (.cancel none) st
  | cancel {id : Nat} (hfree : st.stuck = false) (hsent : st.sent id = true) :
      Step st (.cancel (some id)) (st.dspacesCancelSub id)
  | arrive {id : Nat} (hsent : st.sent id = true) (hpc : st.pc id = .idle) :
      Step st (.arrive id) (st.setPc id .arrived)
  | look {id : Nat} {st' : SubClient} (hfree : st.stuck = false) (hpc : st.pc id = .arrived)
      (hlook : st.look id = some st') : Step st (.look id) st'
  | assign {id : Nat} (hpc : st.pc id = .found) :
      Step st (.assign id) ((st.setStatus id .transfer).setPc id .assigned)
  | fetch {id : Nat} (allocated : Bool) (hpc : st.pc id = .assigned) :
      Step st (.fetch id allocated) (st.setPc id (.fetched allocated))
  | settle {id : Nat} {data : Bool} (hfree : st.stuck = false) (hpc : st.pc id = .fetched data) :
      Step st (.settle id) (st.settle id data)
  | callback {id : Nat} {data : Bool} (ret : Int32) (hpc : st.pc id = .settled data) :
      Step st (.callback id ret) (st.callback id data ret)
  | finish {id : Nat} (hfree : st.stuck = false) (hpc : st.pc id = .called) :
      Step st (.finish id) (st.finish id)
  | checkFail (t : Nat) (wait : Bool) : Step st (.check t none wait) st
  | check {t id : Nat} (wait : Bool) (hnone : st.check t = none) (hsent : st.sent id = true) :
      Step st (.check t (some id) wait) (st.setCheck t (some (id, if wait then .waiting else .reading)))
  | wake {t id : Nat} (ht : st.check t = some (id, .waiting)) (hfree : st.stuck = false)
      (hover : (st.subh id).status.pending = false) :
      Step st (.wake t) (st.setCheck t (some (id, .reading)))
  | readStatus {t id : Nat} (ht : st.check t = some (id, .reading)) :
      Step st (.readStatus t) (st.readStatus t id)
  | returnStatus {t id : Nat} {result : Option Int32} (ht : st.check t = some (id, .returning result)) :
      Step st (.returnStatus t)
        ((st.addLog (.reported id (st.subh id).status result)).setCheck t none)

theorem step_cases {st st' : SubClient} {e : SubEvent} (h : st.step e = some st') : st.Step e st' := by
  cases e with
  | sub listens outcome =>
      obtain ⟨hfree, rfl⟩ := by simpa [step] using h
      exact .sub listens outcome hfree
  | cancel subh =>
      cases subh with
      | none =>
          cases h
          exact .cancelFail
      | some id =>
          obtain ⟨⟨hfree, hsent⟩, rfl⟩ := by simpa [step] using h
          exact .cancel hfree hsent
  | arrive id =>
      obtain ⟨⟨hsent, hpc⟩, rfl⟩ := by simpa [step] using h
      exact .arrive hsent hpc
  | look id =>
      obtain ⟨⟨hfree, hpc⟩, hlook⟩ := by simpa [step] using h
      exact .look hfree hpc hlook
  | assign id =>
      obtain ⟨hpc, rfl⟩ := by simpa [step] using h
      exact .assign hpc
  | fetch id allocated =>
      obtain ⟨hpc, rfl⟩ := by simpa [step] using h
      exact .fetch allocated hpc
  -- what the notification has in its local variable is part of where it is
  | settle id =>
      simp only [step] at h
      split at h
      · next data hpc =>
          obtain ⟨hfree, rfl⟩ := by simpa using h
          exact .settle hfree hpc
      · cases h
  | callback id ret =>
      simp only [step] at h
      split at h
      · next data hpc =>
          cases h
          exact .callback ret hpc
      · cases h
  | finish id =>
      obtain ⟨⟨hfree, hpc⟩, rfl⟩ := by simpa [step] using h
      exact .finish hfree hpc
  | check t subh wait =>
      cases subh with
      | none =>
          cases h
          exact .checkFail t wait
      | some id =>
          obtain ⟨⟨hnone, hsent⟩, rfl⟩ := by simpa [step] using h
          exact .check wait hnone hsent
  -- the calls of `dspaces_check_sub` that have not returned
  | wake t =>
      simp only [step] at h
      split at h
      · next id ht =>
          obtain ⟨⟨hfree, hover⟩, rfl⟩ := by simpa using h
          exact .wake ht hfree hover
      · cases h
  | readStatus t =>
      simp only [step] at h
      split at h
      · next id ht =>
          cases h
          exact .readStatus ht
      · cases h
  | returnStatus t =>
      simp only [step] at h
      split at h
      · next id result ht =>
          cases h
          exact .returnStatus ht
      · cases h

theorem look_cases {st st' : SubClient} {id : Nat} (h : st.look id = some st') :
    st' = { st with stuck := true } ∨
      (st.subh id).status = .wait ∧ st' = st.setPc id .found ∨
      (st.subh id).status ≠ .wait ∧ st' = st.setPc id (.fetched false) := by
  rw [look] at h
  split at h
  · cases h
  · exact Or.inl (Option.some.inj h).symm
  · split at h
    · next hwait => exact Or.inr (Or.inl ⟨hwait, (Option.some.inj h).symm⟩)
    · next hwait => exact Or.inr (Or.inr ⟨hwait, (Option.some.inj h).symm⟩)

/-! ## What is expected -/

/-- What the callback of a subscription returned, for every time it ran. -/
def callsOf (id : Nat) (log : List SubLog) : List Int32 :=
  log.filterMap fun
    | .called id' ret => if id' = id then some ret else none
    | _ => none

/-- The callback of a cancelled subscription is not started, and `DSPACES_SUB_DONE` is reported with the
result of a callback that ran exactly once. -/
structure LifeCycle (log : List SubLog) : Prop where
  cancel : ∀ before id ret after, log = before ++ .called id ret :: after → .cancelled id ∉ before
  done : ∀ before id result after, log = before ++ .reported id .done result :: after →
    ∃ ret, result = some ret ∧ callsOf id before = [ret]

/-- No cancellation between the first region of a notification and its assignment, no notification that
is finished without its data or when the subscription was cancelled, and none that is finished between the
two reads of a `dspaces_check_sub`. -/
def InOrder (st : SubClient) : SubEvent → Prop
  | .cancel (some id) => st.pc id ≠ .found
  | .fetch _ allocated => allocated = true
  | .finish id => (st.subh id).status ≠ .cancelled ∧ ∀ t, st.check t ≠ some (id, .returning none)
  | _ => True

/-! ## The log -/

theorem lifeCycle_nil : LifeCycle [] := by
  refine ⟨fun before id ret after h => ?_, fun before id result after h => ?_⟩
  · exact absurd h.symm (by simp)
  · exact absurd h.symm (by simp)

theorem append_singleton_eq {α : Type} {l before after : List α} {a b : α}
    (h : l ++ [a] = before ++ b :: after) : (∃ after', l = before ++ b :: after') ∨ (l = before ∧ a = b) := by
  rcases List.eq_nil_or_concat after with rfl | ⟨after', c, rfl⟩
  · have := List.append_inj' h rfl
    exact Or.inr ⟨this.1, (List.cons.inj this.2).1⟩
  · rw [List.concat_eq_append, ← List.cons_append, ← List.append_assoc] at h
    exact Or.inl ⟨after', (List.append_inj' h rfl).1⟩

theorem LifeCycle.snoc {log : List SubLog} (h : LifeCycle log) {entry : SubLog}
    (hcalled : ∀ id ret, entry = .called id ret → .cancelled id ∉ log)
    (hreported : ∀ id result, entry = .reported id .done result →
      ∃ ret, result = some ret ∧ callsOf id log = [ret]) : LifeCycle (log ++ [entry]) := by
  refine ⟨fun before id ret after heq => ?_, fun before id result after heq => ?_⟩
  · rcases append_singleton_eq heq with ⟨after', hlog⟩ | ⟨rfl, hentry⟩
    · exact h.cancel before id ret after' hlog
    · exact hcalled id ret hentry
  · rcases append_singleton_eq heq with ⟨after', hlog⟩ | ⟨rfl, hentry⟩
    · exact h.done before id result after' hlog
    · exact hreported id result hentry

@[simp] theorem callsOf_nil (id : Nat) : callsOf id [] = [] := rfl

theorem callsOf_snoc (id : Nat) (log : List SubLog) (entry : SubLog) :
    callsOf id (log ++ [entry]) = callsOf id log ++ callsOf id [entry] :=
  List.filterMap_append

/-! ## The invariant -/

/-- What a subscription is like when its notification is at `pc`. -/
def PhaseOk (subh : SubHandle) (wasCancelled : Prop) (calls : List Int32) : NotifyPc → Prop
  | .idle | .arrived =>
      calls = [] ∧ (subh.status = .wait ∧ ¬ wasCancelled ∨ subh.status = .cancelled)
  | .found => calls = [] ∧ subh.status = .wait ∧ ¬ wasCancelled
  | .assigned => calls = [] ∧ (subh.status = .transfer ∧ ¬ wasCancelled ∨ subh.status = .cancelled)
  | .fetched data =>
      calls = [] ∧ (subh.status = .transfer ∧ ¬ wasCancelled ∧ data = true ∨ subh.status = .cancelled)
  | .settled data =>
      calls = [] ∧ (subh.status = .running ∧ ¬ wasCancelled ∧ data = true ∨
        subh.status = .cancelled ∧ data = false)
  | .called =>
      (∃ ret, calls = [ret] ∧ subh.result = some ret) ∧ subh.status = .running ∨
        calls = [] ∧ subh.status = .cancelled
  | .finished => (∃ ret, calls = [ret] ∧ subh.result = some ret) ∧ subh.status = .done

/-- What a call of `dspaces_check_sub` that has read the status once is like. -/
def CheckOk (subh : SubHandle) (calls : List Int32) : Option Int32 → Prop
  | none => subh.status ≠ .done
  | some ret => calls = [ret]

structure Inv (st : SubClient) : Prop where
  phase : ∀ id, PhaseOk (st.subh id) (.cancelled id ∈ st.log) (callsOf id st.log) (st.pc id)
  check : ∀ t id result, st.check t = some (id, .returning result) →
    CheckOk (st.subh id) (callsOf id st.log) result
  unsent : ∀ id, st.sent id = false → st.pc id = .idle ∧ (st.subh id).status = .wait ∧
    ∀ t pc, st.check t ≠ some (id, pc)
  fresh : ∀ id, st.subSerial ≤ id → st.sent id = false
  log : LifeCycle st.log

theorem inv_init : init.Inv where
  phase _ := ⟨rfl, Or.inl ⟨rfl, List.not_mem_nil⟩⟩
  check _ _ _ h := nomatch h
  unsent _ _ := ⟨rfl, rfl, fun _ _ h => nomatch h⟩
  fresh _ _ := rfl
  log := lifeCycle_nil

@[simp] theorem pc_setPc (st : SubClient) (id : Nat) (pc : NotifyPc) : (st.setPc id pc).pc id = pc :=
  Function.update_self _ _ _

@[simp] theorem subh_setPc (st : SubClient) (id : Nat) (pc : NotifyPc) : (st.setPc id pc).subh = st.subh := rfl

@[simp] theorem subh_setStatus (st : SubClient) (id : Nat) (status : SubStatus) :
    (st.setStatus id status).subh id = { st.subh id with status := status } :=
  Function.update_self _ _ _

@[simp] theorem check_setCheck (st : SubClient) (t : Nat) (call : Option (Nat × CheckPc)) :
    (st.setCheck t call).check t = call :=
  Function.update_self _ _ _

namespace Inv

variable {st st' : SubClient} {id : Nat}

theorem sent_of_pc (h : st.Inv) {pc : NotifyPc} (hpc : st.pc id = pc) (hidle : pc ≠ .idle) :
    st.sent id = true := by
  by_contra hsent
  rw [Bool.not_eq_true] at hsent
  exact hidle (hpc.symm.trans (h.unsent id hsent).1)

theorem phase_at (h : st.Inv) {pc : NotifyPc} (hpc : st.pc id = pc) :
    PhaseOk (st.subh id) (.cancelled id ∈ st.log) (callsOf id st.log) pc :=
  hpc ▸ h.phase id

/-- A step that is about one subscription only. -/
theorem of_local (h : st.Inv) (hsent : st.sent id = true) (hsubh : ∀ a, a ≠ id → st'.subh a = st.subh a)
    (hpc : ∀ a, a ≠ id → st'.pc a = st.pc a) (hcheck : st'.check = st.check) (hsame : st'.sent = st.sent)
    (hserial : st'.subSerial = st.subSerial)
    (hlogged : ∀ a, a ≠ id → (.cancelled a ∈ st'.log ↔ .cancelled a ∈ st.log) ∧
      callsOf a st'.log = callsOf a st.log)
    (hphase : PhaseOk (st'.subh id) (.cancelled id ∈ st'.log) (callsOf id st'.log) (st'.pc id))
    (hchecks : ∀ t result, st.check t = some (id, .returning result) →
      CheckOk (st'.subh id) (callsOf id st'.log) result)
    (hlog : LifeCycle st'.log) : st'.Inv := by
  refine ⟨fun a => ?_, fun t a result ha => ?_, fun a ha => ?_, fun a ha => ?_, hlog⟩
  · rcases eq_or_ne a id with rfl | hne
    · exact hphase
    · rw [hsubh a hne, hpc a hne, (hlogged a hne).2, propext (hlogged a hne).1]
      exact h.phase a
  · rw [hcheck] at ha
    rcases eq_or_ne a id with rfl | hne
    · exact hchecks t result ha
    · rw [hsubh a hne, (hlogged a hne).2]
      exact h.check t a result ha
  · -- a subscription that was not sent is another one
    rw [hsame] at ha
    have hne : a ≠ id := fun heq => by
      rw [heq, hsent] at ha
      cases ha
    rw [hpc a hne, hsubh a hne, hcheck]
    exact h.unsent a ha
  · rw [hsame]
    exact h.fresh a (hserial ▸ ha)

/-- A step of a notification that logs nothing and does not make the subscription done. -/
theorem of_quiet (h : st.Inv) (hsent : st.sent id = true) (hsubh : ∀ a, a ≠ id → st'.subh a = st.subh a)
    (hpc : ∀ a, a ≠ id → st'.pc a = st.pc a) (hcheck : st'.check = st.check) (hsame : st'.sent = st.sent)
    (hserial : st'.subSerial = st.subSerial) (hlog : st'.log = st.log)
    (hphase : PhaseOk (st'.subh id) (.cancelled id ∈ st.log) (callsOf id st.log) (st'.pc id))
    (hdone : (st'.subh id).status = .done → (st.subh id).status = .done) : st'.Inv := by
  refine h.of_local hsent hsubh hpc hcheck hsame hserial (fun a _ => by rw [hlog]; exact ⟨Iff.rfl, rfl⟩)
    (by rw [hlog]; exact hphase) (fun t result ht => ?_) (by rw [hlog]; exact h.log)
  have hold := h.check t id result ht
  rw [hlog]
  cases result with
  | none => exact fun hst' => hold (hdone hst')
  | some ret => exact hold

theorem setPc (h : st.Inv) (hsent : st.sent id = true) {pc : NotifyPc}
    (hphase : PhaseOk (st.subh id) (.cancelled id ∈ st.log) (callsOf id st.log) pc) :
    (st.setPc id pc).Inv := by
  refine h.of_quiet hsent (fun _ _ => rfl) (fun a ha => Function.update_of_ne ha _ _) rfl rfl rfl rfl ?_
    fun hdone => hdone
  rw [pc_setPc, subh_setPc]
  exact hphase

theorem setStatus_setPc (h : st.Inv) (hsent : st.sent id = true) {status : SubStatus} {pc : NotifyPc}
    (hphase : PhaseOk { st.subh id with status := status } (.cancelled id ∈ st.log) (callsOf id st.log) pc)
    (hstatus : status ≠ .done) : ((st.setStatus id status).setPc id pc).Inv := by
  refine h.of_quiet hsent (fun a ha => Function.update_of_ne ha _ _)
    (fun a ha => Function.update_of_ne ha _ _) rfl rfl rfl rfl ?_ fun hdone => ?_
  · rw [pc_setPc, subh_setPc, subh_setStatus]
    exact hphase
  · rw [subh_setPc, subh_setStatus] at hdone
    exact absurd hdone hstatus

theorem look (h : st.Inv) (hpc : st.pc id = .arrived) (hlook : st.look id = some st') : st'.Inv := by
  have hsent := h.sent_of_pc hpc (by decide)
  obtain ⟨hcalls, hstatus⟩ := h.phase_at hpc
  rcases look_cases hlook with rfl | ⟨hwait, rfl⟩ | ⟨hwait, rfl⟩
  · exact ⟨h.phase, h.check, h.unsent, h.fresh, h.log⟩
  · rcases hstatus with hstatus | hstatus
    · exact h.setPc hsent ⟨hcalls, hwait, hstatus.2⟩
    · rw [hstatus] at hwait
      cases hwait
  · -- a subscription that does not wait has been cancelled
    exact h.setPc hsent ⟨hcalls, Or.inr (hstatus.resolve_left fun hw => hwait hw.1)⟩

theorem assign (h : st.Inv) (hpc : st.pc id = .found) :
    ((st.setStatus id .transfer).setPc id .assigned).Inv := by
  obtain ⟨hcalls, -, hcancelled⟩ := h.phase_at hpc
  exact h.setStatus_setPc (h.sent_of_pc hpc (by decide)) ⟨hcalls, Or.inl ⟨rfl, hcancelled⟩⟩ (by decide)

theorem fetch (h : st.Inv) (hpc : st.pc id = .assigned) : (st.setPc id (.fetched true)).Inv := by
  obtain ⟨hcalls, hstatus⟩ := h.phase_at hpc
  refine h.setPc (h.sent_of_pc hpc (by decide)) ⟨hcalls, hstatus.imp (fun hw => ?_) fun hw => hw⟩
  exact ⟨hw.1, hw.2, rfl⟩

theorem settle (h : st.Inv) {data : Bool} (hpc : st.pc id = .fetched data) : (st.settle id data).Inv := by
  have hsent := h.sent_of_pc hpc (by simp)
  obtain ⟨hcalls, hstatus⟩ := h.phase_at hpc
  rw [SubClient.settle]
  split
  · next htransfer =>
      rcases hstatus with ⟨-, hcancelled, hdata⟩ | hstatus
      · exact h.setStatus_setPc hsent ⟨hcalls, Or.inl ⟨rfl, hcancelled, hdata⟩⟩ (by decide)
      · rw [htransfer] at hstatus
        cases hstatus
  · next htransfer =>
      exact h.setPc hsent ⟨hcalls, Or.inr ⟨hstatus.resolve_left fun hw => htransfer hw.1, rfl⟩⟩

theorem callback (h : st.Inv) {data : Bool} (ret : Int32) (hpc : st.pc id = .settled data) :
    (st.callback id data ret).Inv := by
  have hsent := h.sent_of_pc hpc (by simp)
  obtain ⟨hcalls, hstatus⟩ := h.phase_at hpc
  have hsubh : (st.callback id true ret).subh id = { st.subh id with result := some ret } :=
    Function.update_self _ _ _
  cases data with
  | false => exact h.setPc hsent (Or.inr ⟨hcalls, (hstatus.resolve_left fun hw => nomatch hw.2.2).1⟩)
  | true =>
      obtain ⟨hrunning, hcancelled, -⟩ := hstatus.resolve_right fun hw => nomatch hw.2
      have hcallsNow : callsOf id (st.log ++ [.called id ret]) = [ret] := by
        rw [callsOf_snoc, hcalls]
        simp [callsOf]
      refine h.of_local hsent (fun a ha => Function.update_of_ne ha _ _)
        (fun a ha => Function.update_of_ne ha _ _) rfl rfl rfl (fun a ha => ⟨?_, ?_⟩) ?_
        (fun t result ht => ?_) ?_
      · simp [SubClient.callback, addLog, SubClient.setPc]
      · show callsOf a (st.log ++ [.called id ret]) = _
        rw [callsOf_snoc]
        simp [callsOf, ha.symm]
      · have hpc' : (st.callback id true ret).pc id = .called := Function.update_self _ _ _
        rw [hpc', hsubh]
        exact Or.inl ⟨⟨ret, hcallsNow, rfl⟩, hrunning⟩
      · have hold := h.check t id result ht
        rw [hsubh]
        cases result with
        | none => exact hold
        | some ret' =>
            -- no call has read a result before the callback returned
            rw [CheckOk, hcalls] at hold
            cases hold
      · refine h.log.snoc (fun a ret' heq => ?_) fun a result heq => nomatch heq
        cases heq
        exact hcancelled

theorem finish (h : st.Inv) (hpc : st.pc id = .called) (horder : st.InOrder (.finish id)) :
    (st.finish id).Inv := by
  have hsent := h.sent_of_pc hpc (by decide)
  -- in order, the subscription is not cancelled, so its callback ran
  obtain ⟨⟨ret, hcalls, hresult⟩, -⟩ := (h.phase_at hpc).resolve_right fun hw => horder.1 hw.2
  generalize hmoved : dspacesMoveSub { st with pendingSub := st.pendingSub - 1 } id = moved
  have hsame : moved.subh = st.subh ∧ moved.pc = st.pc ∧ moved.check = st.check ∧ moved.sent = st.sent ∧
      moved.subSerial = st.subSerial ∧ moved.log = st.log := by
    rw [← hmoved, dspacesMoveSub]
    split <;> exact ⟨rfl, rfl, rfl, rfl, rfl, rfl⟩
  obtain ⟨hsubh, hpcs, hcheck, hsents, hserial, hlog⟩ := hsame
  have hfinish : st.finish id = (moved.setStatus id .done).setPc id .finished := by
    rw [SubClient.finish, hmoved]
  have hlog' : ((moved.setStatus id .done).setPc id .finished).log = st.log := hlog
  rw [hfinish]
  refine h.of_local hsent (fun a ha => ?_) (fun a ha => ?_) hcheck hsents hserial (fun a _ => ?_) ?_
    (fun t result ht => ?_) ?_
  · exact (Function.update_of_ne ha _ _).trans (congrFun hsubh a)
  · exact (Function.update_of_ne ha _ _).trans (congrFun hpcs a)
  · rw [hlog']
    exact ⟨Iff.rfl, rfl⟩
  · rw [hlog', pc_setPc, subh_setPc, subh_setStatus, hsubh]
    exact ⟨⟨ret, hcalls, hresult⟩, rfl⟩
  · rw [hlog']
    cases result with
    | none => exact absurd ht (horder.2 t)
    | some ret' => exact h.check t id (some ret') ht
  · rw [hlog']
    exact h.log

theorem cancel (h : st.Inv) (hsent : st.sent id = true) (horder : st.InOrder (.cancel (some id))) :
    (st.dspacesCancelSub id).Inv := by
  rw [dspacesCancelSub]
  split
  · next hstatus =>
      have hcalls : ∀ a, callsOf a (st.log ++ [.cancelled id]) = callsOf a st.log := by
        intro a
        rw [callsOf_snoc]
        simp [callsOf]
      refine h.of_local hsent (fun a ha => Function.update_of_ne ha _ _) (fun _ _ => rfl) rfl rfl rfl
        (fun a ha => ⟨?_, hcalls a⟩) ?_ (fun t result ht => ?_) ?_
      · simp [addLog, setStatus, ha]
      · show PhaseOk ((st.setStatus id .cancelled).subh id) _ (callsOf id (st.log ++ [.cancelled id])) (st.pc id)
        rw [hcalls, subh_setStatus]
        cases hpc : st.pc id with
        | idle | arrived | assigned | fetched => exact ⟨(h.phase_at hpc).1, Or.inr rfl⟩
        | found => exact absurd hpc horder
        -- from the second region on the status is another one
        | settled data =>
            rcases (h.phase_at hpc).2 with ⟨hrunning, -⟩ | ⟨hcancelled, -⟩
            · simp [hrunning] at hstatus
            · simp [hcancelled] at hstatus
        | called =>
            rcases h.phase_at hpc with ⟨-, hrunning⟩ | ⟨-, hcancelled⟩
            · simp [hrunning] at hstatus
            · simp [hcancelled] at hstatus
        | finished => simp [(h.phase_at hpc).2] at hstatus
      · show CheckOk ((st.setStatus id .cancelled).subh id) (callsOf id (st.log ++ [.cancelled id])) result
        rw [hcalls, subh_setStatus]
        cases result with
        | none => exact fun hdone => nomatch hdone
        | some ret => exact h.check t id (some ret) ht
      · exact h.log.snoc (fun a ret heq => nomatch heq) fun a result heq => nomatch heq
  · exact h

/-- A new subscription. -/
theorem sub (h : st.Inv) (listens : Bool) (outcome : SubOutcome) : (st.dspacesSub listens outcome).1.Inv := by
  rw [dspacesSub]
  split
  · exact h
  · have hold := h.unsent st.subSerial (h.fresh _ (Nat.le_refl _))
    -- the handle was never used, and is as it was created
    have hself : Function.update st.subh st.subSerial { st.subh st.subSerial with status := .wait } =
        st.subh := by
      rw [Function.update_eq_self_iff, ← hold.2.1]
    have hcommon : ∀ sent : Nat → Bool, (∀ a, a ≠ st.subSerial → sent a = st.sent a) →
        ∀ lists pending, Inv { st with
          listenerInit := true, pendingSub := pending, subSerial := st.subSerial + 1, subLists := lists,
          subh := Function.update st.subh st.subSerial { st.subh st.subSerial with status := .wait },
          sent := sent } := by
      intro sent hsame lists pending
      rw [hself]
      refine ⟨h.phase, h.check, fun a ha => ?_, fun a ha => ?_, h.log⟩
      · rcases eq_or_ne a st.subSerial with rfl | hne
        · exact hold
        · exact h.unsent a ((hsame a hne).symm.trans ha)
      · have hlt : st.subSerial < a := ha
        exact (hsame a (Nat.ne_of_gt hlt)).trans (h.fresh a (Nat.le_of_lt hlt))
    cases outcome with
    | createFails | iforwardFails => exact hcommon st.sent (fun _ _ => rfl) _ _
    | sent => exact hcommon _ (fun a ha => Function.update_of_ne ha _ _) _ _

/-- A step of a `dspaces_check_sub` that has not returned. -/
theorem setCheck (h : st.Inv) {t : Nat} {call : Option (Nat × CheckPc)}
    (hsent : ∀ a pc, call = some (a, pc) → st.sent a = true)
    (hcall : ∀ a result, call = some (a, .returning result) →
      CheckOk (st.subh a) (callsOf a st.log) result) : (st.setCheck t call).Inv := by
  refine ⟨h.phase, fun t' a result ht' => ?_, fun a ha => ?_, h.fresh, h.log⟩
  · rcases eq_or_ne t' t with rfl | hne
    · rw [check_setCheck] at ht'
      exact hcall a result ht'
    · have hold : st.check t' = some (a, .returning result) := (Function.update_of_ne hne _ _).symm.trans ht'
      exact h.check t' a result hold
  · have hold := h.unsent a ha
    refine ⟨hold.1, hold.2.1, fun t' pc ht' => ?_⟩
    rcases eq_or_ne t' t with rfl | hne
    · rw [check_setCheck] at ht'
      have hsent' : st.sent a = false := ha
      rw [hsent a pc ht'] at hsent'
      cases hsent'
    · exact hold.2.2 t' pc ((Function.update_of_ne hne _ _).symm.trans ht')

theorem sent_of_check (h : st.Inv) {t : Nat} {pc : CheckPc} (ht : st.check t = some (id, pc)) :
    st.sent id = true := by
  by_contra hsent
  rw [Bool.not_eq_true] at hsent
  exact (h.unsent id hsent).2.2 t pc ht

theorem readStatus (h : st.Inv) {t : Nat} (ht : st.check t = some (id, .reading)) :
    (st.readStatus t id).Inv := by
  have hsent := h.sent_of_check ht
  rw [SubClient.readStatus]
  split
  · next hdone =>
      -- a subscription that is done has been called once
      have hphase : ∃ ret, callsOf id st.log = [ret] ∧ (st.subh id).result = some ret := by
        cases hpc : st.pc id with
        | finished => exact (h.phase_at hpc).1
        | idle | arrived | found | assigned | fetched | settled | called =>
            have hphase := h.phase_at hpc
            simp [PhaseOk, hdone] at hphase
      obtain ⟨ret, hcalls, hresult⟩ := hphase
      refine h.setCheck (fun a pc heq => ?_) fun a result heq => ?_
      · cases heq
        exact hsent
      · cases heq
        rw [hresult]
        exact hcalls
  · next hdone =>
      refine h.setCheck (fun a pc heq => ?_) fun a result heq => ?_
      · cases heq
        exact hsent
      · cases heq
        exact hdone

theorem returnStatus (h : st.Inv) {t : Nat} {result : Option Int32}
    (ht : st.check t = some (id, .returning result)) :
    ((st.addLog (.reported id (st.subh id).status result)).setCheck t none).Inv := by
  have hcheck := h.check t id result ht
  have hcalls : ∀ a, callsOf a (st.log ++ [.reported id (st.subh id).status result]) = callsOf a st.log := by
    intro a
    rw [callsOf_snoc]
    simp [callsOf]
  have hlogged : (st.addLog (.reported id (st.subh id).status result)).Inv := by
    refine ⟨fun a => ?_, fun t' a result' ht' => ?_, h.unsent, h.fresh, ?_⟩
    · show PhaseOk (st.subh a) (.cancelled a ∈ st.log ++ [_]) (callsOf a (st.log ++ [_])) (st.pc a)
      rw [hcalls, List.mem_append]
      simpa using h.phase a
    · show CheckOk (st.subh a) (callsOf a (st.log ++ [_])) result'
      rw [hcalls]
      exact h.check t' a result' ht'
    · refine h.log.snoc (fun a ret heq => nomatch heq) fun a result' heq => ?_
      simp only [SubLog.reported.injEq] at heq
      obtain ⟨rfl, hstatus, rfl⟩ := heq
      cases result with
      -- in order, what was not done at the first read is not done now
      | none => exact absurd hstatus hcheck
      | some ret => exact ⟨ret, rfl, hcheck⟩
  exact hlogged.setCheck (fun a pc heq => nomatch heq) fun a result heq => nomatch heq

/-- Every event in order keeps the invariant. -/
theorem step (h : st.Inv) {e : SubEvent} (horder : st.InOrder e) (hstep : st.Step e st') : st'.Inv := by
  cases hstep with
  | sub listens outcome => exact h.sub listens outcome
  | cancelFail | checkFail => exact h
  | cancel _ hsent => exact h.cancel hsent horder
  | arrive hsent hpc =>
      have hphase := h.phase_at hpc
      exact h.setPc hsent hphase
  | look _ hpc hlook => exact h.look hpc hlook
  | assign hpc => exact h.assign hpc
  | fetch allocated hpc =>
      have hallocated : allocated = true := horder
      rw [hallocated]
      exact h.fetch hpc
  | settle _ hpc => exact h.settle hpc
  | callback ret hpc => exact h.callback ret hpc
  | finish _ hpc => exact h.finish hpc horder
  | check wait _ hsent =>
      refine h.setCheck (fun a pc heq => ?_) fun a result heq => ?_
      · cases heq
        exact hsent
      · cases wait <;> cases heq
  | wake ht =>
      refine h.setCheck (fun a pc heq => ?_) fun a result heq => nomatch heq
      cases heq
      exact h.sent_of_check ht
  | readStatus ht => exact h.readStatus ht
  | returnStatus ht => exact h.returnStatus ht

end Inv

/-! ## Main results -/

/-- In every run whose steps are in order, no callback is started after a cancellation, and what is
reported as done was called exactly once and returned what is reported. -/
theorem subscription_lifeCycle {evs : List SubEvent} {st : SubClient} (hrun : run evs init = some st)
    (horder : Runs.Along run InOrder evs init) : LifeCycle st.log :=
  ((Runs.isRun_foldlM step).keeps_along (fun _ _ _ h horder hstep => Inv.step h horder (step_cases hstep)) evs init st
    inv_init horder hrun).log

/-- A subscription that is cancelled during the transfer, and one whose callback runs and is reported. -/
def orderedEvents : List SubEvent :=
  [.sub true .sent, .sub true .sent, .arrive 1, .look 1, .assign 1, .cancel (some 1), .arrive 0, .look 0,
    .assign 0, .fetch 0 true, .settle 0, .callback 0 7, .finish 0, .check 0 (some 0) true, .wake 0,
    .readStatus 0, .returnStatus 0]

theorem inOrder_orderedEvents : Runs.Along run InOrder orderedEvents init := by
  have skip : ∀ {e : SubEvent} {es : List SubEvent} {st st' : SubClient}, st.InOrder e → st.step e = some st' →
      Runs.Along run InOrder es st' → Runs.Along run InOrder (e :: es) st :=
    (Runs.isRun_foldlM step).along_cons
  refine skip trivial rfl (skip trivial rfl (skip trivial rfl (skip trivial rfl (skip trivial rfl ?_))))
  refine skip (show NotifyPc.assigned ≠ .found by decide) rfl ?_
  refine skip trivial rfl (skip trivial rfl (skip trivial rfl (skip rfl rfl ?_)))
  refine skip trivial rfl (skip trivial rfl (skip ⟨by decide, fun t h => nomatch h⟩ rfl ?_))
  refine skip trivial rfl (skip trivial rfl (skip trivial rfl (skip trivial rfl ?_)))
  exact Runs.along_nil _

theorem subscription_lifeCycle_ordered :
    ∃ st, run orderedEvents init = some st ∧ st.log = [.cancelled 1, .called 0 7, .reported 0 .done (some 7)] ∧
      LifeCycle st.log :=
  ⟨_, rfl, rfl, subscription_lifeCycle rfl inOrder_orderedEvents⟩

/-- A cancellation between the first region and the assignment is overwritten, and the callback is
started; a cancelled subscription whose notification comes is reported as done without a callback. -/
theorem subscription_not_lifeCycle :
    (∃ st, run [.sub true .sent, .arrive 0, .look 0, .cancel (some 0), .assign 0, .fetch 0 true, .settle 0,
        .callback 0 7] init = some st ∧ st.log = [.cancelled 0, .called 0 7] ∧ ¬ LifeCycle st.log) ∧
      ∃ st, run [.sub true .sent, .cancel (some 0), .arrive 0, .look 0, .settle 0, .callback 0 7, .finish 0,
        .check 0 (some 0) true, .wake 0, .readStatus 0, .returnStatus 0] init = some st ∧
        st.log = [.cancelled 0, .reported 0 .done none] ∧ ¬ LifeCycle st.log := by
  refine ⟨⟨_, rfl, rfl, fun h => ?_⟩, ⟨_, rfl, rfl, fun h => ?_⟩⟩
  · exact h.cancel [.cancelled 0] 0 7 [] rfl List.mem_cons_self
  · obtain ⟨ret, hresult, -⟩ := h.done [.cancelled 0] 0 none [] rfl
    cases hresult

end SubClient

end DataSpaces
