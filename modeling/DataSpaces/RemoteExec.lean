import Mathlib.Tactic.SplitIfs
import DataSpaces.ByteCounts
import DataSpaces.Lib.Heap
import DataSpaces.Lib.Runs

/-!
# RemoteExec — handing over the result of a remote execution (`pexec_rpc`, `cond_rpc`, `dspaces_pexec`)

A server that has run the function of a client exposes the result and waits, on a condition variable of its own
stack, until the client has it.  The client is told where the mutex and the condition variable are, pulls the
result and sends the two addresses back; `cond_rpc` takes what it is sent for the addresses of a mutex and a
condition variable.  Any number of requests are served at the same time, and addresses are used again.

A thread that waits does not wake up before it is signalled.  What the code does to a mutex or a condition
variable that does not exist, or that it must not do, is a `fault`; so is a look at the bytes that `dumps` has not
made.
-/

namespace DataSpaces

/-- `pexec_out_t`; `handle` is the number of the exposed memory. -/
structure PexecOut where
  handle : Option Nat
  length : Int32
  mtxp : Nat
  condp : Nat

/-- `cond_in_t`. -/
structure CondIn where
  mtxp : Nat
  condp : Nat

/-- What comes of the function of a request. -/
inductive FnRun
  /-- `ls_find_all` does not find the argument -/
  | noInput
  /-- it does not arrive, is not loaded or cannot be called -/
  | notLoaded
  /-- it fails, or its result is `None` -/
  | nothing
  /-- `dumps` makes no bytes of its result -/
  | notDumped
  | result (bytes : List UInt8)
  /-- the memory of its result is not registered -/
  | notExposed

inductive ExecThread
  | handler (r : Nat)
  | condRpc (r : Nat)
  deriving DecidableEq

/-- Where `pexec_rpc` is. -/
inductive ExecHandler
  | idle
  /-- with a result, before `ABT_cond_create` -/
  | ready (out : PexecOut)
  | created (out : PexecOut)
  | locked (out : PexecOut)
  | responded (out : PexecOut)
  | waiting (out : PexecOut)
  /-- signalled; it needs the mutex to go on -/
  | woken (out : PexecOut)
  | signaled (out : PexecOut)
  | unlocked (out : PexecOut)
  | mtxFreed (out : PexecOut)
  /-- it is not going to wait -/
  | replying (out : PexecOut)
  | finished

/-- Where `dspaces_pexec` is. -/
inductive ExecClient
  | idle
  | forwarded
  | gotOutput (out : PexecOut)
  | pulled (out : PexecOut) (data : List UInt8)
  | returned (data : Option (List UInt8))
  | failed

/-- Where `cond_rpc` is. -/
inductive ExecCond
  | idle
  | sent (in2 : CondIn)
  | locked (in2 : CondIn)
  | signaled (in2 : CondIn)
  | done

/-- A request; `ran` keeps what came of its function. -/
structure ExecReq where
  ran : Option FnRun
  handler : ExecHandler
  reply : Option PexecOut
  client : ExecClient
  cond : ExecCond

/-- The clients and a server.  `bulk` is the exposed memory; it is not given back. -/
structure ExecState where
  req : Nat → ExecReq
  bulk : List (List UInt8)
  mutexes : Nat → Option (Option ExecThread)
  conds : Nat → Option (Option Nat)
  fault : Bool

inductive ExecAct
  /-- the client calls `margo_forward` -/
  | forward
  /-- the handler up to the point where `out` is filled; `uninit` is what it was before -/
  | execute (fn : FnRun) (uninit : PexecOut)
  | create (mtxp condp : Nat)
  /-- the handler, `cond_rpc` or the client go on -/
  | handler
  | cond
  | client
  /-- a call of the client fails -/
  | fail

/-- `out` and the exposed memory. -/
def pexecOut (uninit : PexecOut) (bulk : List (List UInt8)) : FnRun → PexecOut × List (List UInt8)
  | .notLoaded => (uninit, bulk)
  | .noInput | .nothing | .notDumped | .notExposed => ({ uninit with handle := none, length := 0 }, bulk)
  | .result bytes =>
      -- the result with the byte that ends it
      let data := bytes ++ [0]
      ({ uninit with handle := some bulk.length, length := intOfSize (UInt64.ofNat data.length) }, bulk ++ [data])

/-- `if(out.length > 0)`. -/
def pexecWaits (out : PexecOut) : FnRun → ExecHandler
  | .notLoaded => .replying out
  | _ => if 0 < out.length then .ready out else .replying { out with handle := none }

/-- `margo_bulk_transfer` of `out.length` bytes. -/
def bulkPull (bulk : List (List UInt8)) (out : PexecOut) : Option (List UInt8) :=
  let rdmaSize := (sizeOfInt out.length).toNat
  (out.handle.bind fun h => bulk[h]?).bind fun data =>
    if rdmaSize ≤ data.length then some (data.take rdmaSize) else none

namespace ExecState

def init : ExecState where
  req _ := ⟨none, .idle, none, .idle, .idle⟩
  bulk := []
  mutexes _ := none
  conds _ := none
  fault := false

def set (s : ExecState) (r : Nat) (q : ExecReq) : ExecState :=
  { s with req := Function.update s.req r q }

def faulted (s : ExecState) : ExecState :=
  { s with fault := true }

/-! ## Mutexes and condition variables -/

/-- `ABT_mutex_lock` by thread `t` of request `r`, which goes on as `q`. -/
def mutexLock (s : ExecState) (m : Nat) (t : ExecThread) (r : Nat) (q : ExecReq) : Option ExecState :=
  match s.mutexes m with
  | none => some s.faulted
  | some none => some { s.set r q with mutexes := Function.update s.mutexes m (some (some t)) }
  | some (some _) => none

def mutexUnlock (s : ExecState) (m : Nat) (t : ExecThread) (r : Nat) (q : ExecReq) : ExecState :=
  if s.mutexes m = some (some t) then
    { s.set r q with mutexes := Function.update s.mutexes m (some none) }
  else s.faulted

/-- `ABT_cond_wait` by the handler of `r`. -/
def condWait (s : ExecState) (out : PexecOut) (r : Nat) (q : ExecReq) : ExecState :=
  if s.mutexes out.mtxp = some (some (.handler r)) ∧ s.conds out.condp = some none then
    { s.set r q with
      mutexes := Function.update s.mutexes out.mtxp (some none)
      conds := Function.update s.conds out.condp (some (some r)) }
  else s.faulted

/-- The thread that waits is told. -/
def wake (s : ExecState) (w : Nat) : ExecState :=
  match (s.req w).handler with
  | .waiting out => s.set w { s.req w with handler := .woken out }
  | _ => s

/-- `ABT_cond_signal`; when nobody waits the signal is lost. -/
def condSignal (s : ExecState) (c r : Nat) (q : ExecReq) : ExecState :=
  match s.conds c with
  | none => s.faulted
  | some none => s.set r q
  | some (some w) => { (s.set r q).wake w with conds := Function.update s.conds c (some none) }

def mutexFree (s : ExecState) (m r : Nat) (q : ExecReq) : ExecState :=
  if s.mutexes m = some none then { s.set r q with mutexes := Function.update s.mutexes m none }
  else s.faulted

def condFree (s : ExecState) (c r : Nat) (q : ExecReq) : ExecState :=
  if s.conds c = some none then { s.set r q with conds := Function.update s.conds c none }
  else s.faulted

/-! ## Steps -/

/-- The handler runs the function; `PyBytes_AsString` and `PyBytes_Size` do not look whether there are bytes. -/
def execute (s : ExecState) (r : Nat) (fn : FnRun) (uninit : PexecOut) : ExecState :=
  match fn with
  | .notDumped => s.faulted
  | fn =>
      let out := pexecOut uninit s.bulk fn
      { s.set r { s.req r with ran := some fn, handler := pexecWaits out.1 fn } with bulk := out.2 }

def handlerStep (s : ExecState) (r : Nat) : Option ExecState :=
  let q := s.req r
  match q.handler with
  | .idle | .ready _ | .waiting _ | .finished => none
  | .created out => s.mutexLock out.mtxp (.handler r) r { q with handler := .locked out }
  -- the answer goes out under the mutex: `cond_rpc` cannot signal before the wait
  | .locked out => some (s.set r { q with handler := .responded out, reply := some out })
  | .responded out => some (s.condWait out r { q with handler := .waiting out })
  | .woken out => s.mutexLock out.mtxp (.handler r) r { q with handler := .signaled out }
  | .signaled out => some (s.mutexUnlock out.mtxp (.handler r) r { q with handler := .unlocked out })
  | .unlocked out => some (s.mutexFree out.mtxp r { q with handler := .mtxFreed out })
  | .mtxFreed out => some (s.condFree out.condp r { q with handler := .finished })
  | .replying out => some (s.set r { q with handler := .finished, reply := some out })

def condStep (s : ExecState) (r : Nat) : Option ExecState :=
  let q := s.req r
  match q.cond with
  | .idle | .done => none
  | .sent in2 => s.mutexLock in2.mtxp (.condRpc r) r { q with cond := .locked in2 }
  | .locked in2 => some (s.condSignal in2.condp r { q with cond := .signaled in2 })
  | .signaled in2 => some (s.mutexUnlock in2.mtxp (.condRpc r) r { q with cond := .done })

def clientStep (s : ExecState) (r : Nat) : Option ExecState :=
  let q := s.req r
  match q.client with
  | .idle | .returned _ | .failed => none
  | .forwarded => q.reply.map fun out => s.set r { q with client := .gotOutput out }
  | .gotOutput out =>
      if sizeOfInt out.length > 0 then
        (bulkPull s.bulk out).map fun data => s.set r { q with client := .pulled out data }
      else some (s.set r { q with client := .returned none })
  -- only now the handler is told to go on
  | .pulled out data =>
      some (s.set r { q with client := .returned (some data), cond := .sent ⟨out.mtxp, out.condp⟩ })

def step (s : ExecState) (e : Nat × ExecAct) : Option ExecState :=
  let q := s.req e.1
  match e.2 with
  | .forward =>
      match q.client with
      | .idle => some (s.set e.1 { q with client := .forwarded })
      | _ => none
  | .execute fn uninit =>
      match q.client, q.handler with
      | .idle, _ => none
      | _, .idle => some (s.execute e.1 fn uninit)
      | _, _ => none
  | .create mtxp condp =>
      match q.handler with
      | .ready out =>
          if s.mutexes mtxp = none ∧ s.conds condp = none then
            some { s.set e.1 { q with handler := .created { out with mtxp := mtxp, condp := condp } } with
              mutexes := Function.update s.mutexes mtxp (some none)
              conds := Function.update s.conds condp (some none) }
          else none
      | _ => none
  | .handler => s.handlerStep e.1
  | .cond => s.condStep e.1
  | .client => s.clientStep e.1
  -- a call of the client fails, and nobody is told
  | .fail =>
      match q.client with
      | .idle | .returned _ | .failed => none
      | _ => some (s.set e.1 { q with client := .failed })

def run (es : List (Nat × ExecAct)) (s : ExecState) : Option ExecState :=
  es.foldlM step s

theorem isRun : Runs.IsRun step run := Runs.isRun_foldlM step

end ExecState

/-! ## The phases of a request -/

/-- What the client pulls of a result. -/
def pulledBytes (bytes : List UInt8) : List UInt8 :=
  (bytes ++ [0]).take (sizeOfInt (intOfSize (UInt64.ofNat (bytes.length + 1)))).toNat

/-- `out` tells where the result is. -/
structure Exposed (bulk : List (List UInt8)) (bytes : List UInt8) (out : PexecOut) : Prop where
  data : ∃ h, out.handle = some h ∧ bulk[h]? = some (bytes ++ [0])
  length : out.length = intOfSize (UInt64.ofNat (bytes.length + 1))
  pos : 0 < out.length

/-- The client is waiting for the reply, or gave up. -/
def ExecClient.Waits (c : ExecClient) : Prop :=
  c = .forwarded ∨ c = .failed

/-- A request between two steps. -/
inductive ExecReq.Phase (bulk : List (List UInt8)) : ExecReq → Prop
  | asks {c : ExecClient} (hc : c = .idle ∨ c.Waits) : Phase bulk ⟨none, .idle, none, c, .idle⟩
  | noResult {fn : FnRun} {out : PexecOut} {c : ExecClient} (hlen : out.length ≤ 0) (hout : out.handle = none)
      (hc : c.Waits) : Phase bulk ⟨some fn, .replying out, none, c, .idle⟩
  | replied {fn : FnRun} {out : PexecOut} {c : ExecClient} (hlen : out.length ≤ 0) (hout : out.handle = none)
      (hc : c.Waits ∨ c = .gotOutput out ∨ c = .returned none) :
      Phase bulk ⟨some fn, .finished, some out, c, .idle⟩
  | prepares {bytes : List UInt8} {out : PexecOut} {h : ExecHandler} {c : ExecClient}
      (hx : Exposed bulk bytes out) (hh : h = .ready out ∨ h = .created out ∨ h = .locked out)
      (hc : c.Waits) : Phase bulk ⟨some (.result bytes), h, none, c, .idle⟩
  | offers {bytes : List UInt8} {out : PexecOut} {h : ExecHandler} {c : ExecClient}
      (hx : Exposed bulk bytes out) (hh : h = .responded out ∨ h = .waiting out)
      (hc : c.Waits ∨ c = .gotOutput out ∨ c = .pulled out (pulledBytes bytes)) :
      Phase bulk ⟨some (.result bytes), h, some out, c, .idle⟩
  | taken {bytes : List UInt8} {out : PexecOut} {h : ExecHandler} (hx : Exposed bulk bytes out)
      (hh : h = .responded out ∨ h = .waiting out) :
      Phase bulk ⟨some (.result bytes), h, some out, .returned (some (pulledBytes bytes)),
        .sent ⟨out.mtxp, out.condp⟩⟩
  | entered {bytes : List UInt8} {out : PexecOut} (hx : Exposed bulk bytes out) :
      Phase bulk ⟨some (.result bytes), .waiting out, some out, .returned (some (pulledBytes bytes)),
        .locked ⟨out.mtxp, out.condp⟩⟩
  | told {bytes : List UInt8} {out : PexecOut} (hx : Exposed bulk bytes out) :
      Phase bulk ⟨some (.result bytes), .woken out, some out, .returned (some (pulledBytes bytes)),
        .signaled ⟨out.mtxp, out.condp⟩⟩
  | ends {bytes : List UInt8} {out : PexecOut} {h : ExecHandler} (hx : Exposed bulk bytes out)
      (hh : h = .woken out ∨ h = .signaled out ∨ h = .unlocked out ∨ h = .mtxFreed out ∨ h = .finished) :
      Phase bulk ⟨some (.result bytes), h, some out, .returned (some (pulledBytes bytes)), .done⟩

/-- Who has the mutex of a request. -/
def ExecReq.owner (q : ExecReq) (r : Nat) : Option ExecThread :=
  match q.handler with
  | .locked _ | .responded _ | .signaled _ => some (.handler r)
  | _ =>
      match q.cond with
      | .locked _ | .signaled _ => some (.condRpc r)
      | _ => none

/-- The mutex of a request. -/
def ExecReq.mutexSlot (q : ExecReq) (r : Nat) : Option (Nat × Option ExecThread) :=
  match q.handler with
  | .created out | .locked out | .responded out | .waiting out | .woken out | .signaled out
  | .unlocked out => some (out.mtxp, q.owner r)
  | _ => none

/-- The condition variable of a request, with the handler that waits. -/
def ExecReq.condSlot (q : ExecReq) (r : Nat) : Option (Nat × Option Nat) :=
  match q.handler with
  | .created out | .locked out | .responded out | .woken out | .signaled out | .unlocked out
  | .mtxFreed out => some (out.condp, none)
  | .waiting out => some (out.condp, some r)
  | _ => none

/-! ## How far a request is -/

@[simp] def ExecHandler.rank : ExecHandler → Nat
  | .idle => 9
  | .ready _ => 8
  | .created _ => 7
  | .locked _ => 6
  | .responded _ => 5
  | .waiting _ | .woken _ => 4
  | .signaled _ => 3
  | .unlocked _ => 2
  | .mtxFreed _ | .replying _ => 1
  | .finished => 0

@[simp] def ExecClient.rank : ExecClient → Nat
  | .idle => 4
  | .forwarded => 3
  | .gotOutput _ => 2
  | .pulled _ _ => 1
  | .returned _ | .failed => 0

@[simp] def ExecCond.rank : ExecCond → Nat
  | .idle | .sent _ => 3
  | .locked _ => 2
  | .signaled _ => 1
  | .done => 0

/-- A bound on the steps that a request can still take. -/
@[simp] def ExecReq.rank (q : ExecReq) : Nat :=
  q.handler.rank + q.client.rank + q.cond.rank

namespace ExecState

def mutexSlots (s : ExecState) (r : Nat) : Option (Nat × Option ExecThread) :=
  (s.req r).mutexSlot r

def condSlots (s : ExecState) (r : Nat) : Option (Nat × Option Nat) :=
  (s.req r).condSlot r

/-- Every request is in a phase, its mutex and condition variable are its own, and there are addresses left
for more of them. -/
structure Inv (s : ExecState) : Prop where
  fault : s.fault = false
  phase : ∀ r, (s.req r).Phase s.bulk
  mutexes : Heap.Agrees s.mutexes s.mutexSlots
  conds : Heap.Agrees s.conds s.condSlots
  mutexesLive : Heap.Finite s.mutexes
  condsLive : Heap.Finite s.conds

/-- A step of request `r`: the other requests are where they were. -/
structure Moves (s : ExecState) (r : Nat) (s' : ExecState) : Prop where
  inv : Inv s'
  own : ∃ q, s'.req = Function.update s.req r q ∧ q.rank < (s.req r).rank

theorem inv_init : Inv init where
  fault := rfl
  phase _ := .asks (Or.inl rfl)
  mutexes := Heap.agrees_empty fun _ => rfl
  conds := Heap.agrees_empty fun _ => rfl
  mutexesLive := ⟨0, fun _ _ => rfl⟩
  condsLive := ⟨0, fun _ _ => rfl⟩

end ExecState

theorem bulkPull_eq_none {bulk : List (List UInt8)} {out : PexecOut} (hout : out.handle = none) :
    bulkPull bulk out = none := by
  rw [bulkPull, hout]
  rfl

theorem Exposed.size_pos {bulk : List (List UInt8)} {bytes : List UInt8} {out : PexecOut}
    (h : Exposed bulk bytes out) : sizeOfInt out.length > 0 := by
  have hpos := Int32.lt_iff_toInt_lt.1 h.pos
  rw [Int32.toInt_zero] at hpos
  have hsize := toNat_sizeOfInt (Int32.le_of_lt h.pos)
  refine UInt64.lt_iff_toNat_lt.2 ?_
  rw [hsize, UInt64.toNat_zero]
  omega

/-- An `int` that is not negative is at most the size it was made from. -/
theorem sizeOfInt_le {n : Nat} (h : 0 < intOfSize (UInt64.ofNat n)) :
    (sizeOfInt (intOfSize (UInt64.ofNat n))).toNat ≤ n := by
  rw [toNat_sizeOfInt (Int32.le_of_lt h), intOfSize, UInt64.toUInt32_ofNat', UInt32.toInt32_ofNat',
    Int32.toInt_ofNat', Int.bmod_def, Int32.size]
  split <;> omega

/-- The client gets as many bytes as it is told there are. -/
theorem Exposed.bulkPull {bulk : List (List UInt8)} {bytes : List UInt8} {out : PexecOut}
    (h : Exposed bulk bytes out) : bulkPull bulk out = some (pulledBytes bytes) := by
  obtain ⟨i, hi, hdata⟩ := h.data
  have hpos := h.pos
  have hlen := h.length
  rw [hlen] at hpos
  have hle := sizeOfInt_le hpos
  rw [DataSpaces.bulkPull, hi]
  simp only [Option.bind_some, hdata]
  rw [hlen, if_pos (by rwa [List.length_append, List.length_singleton]), pulledBytes]

theorem Exposed.mono {bulk bulk' : List (List UInt8)} {bytes : List UInt8} {out : PexecOut}
    (h : Exposed bulk bytes out) (hb : bulk <+: bulk') : Exposed bulk' bytes out := by
  rcases h.data with ⟨i, hi, hdata⟩
  rcases hb with ⟨more, rfl⟩
  refine ⟨⟨i, hi, ?_⟩, h.length, h.pos⟩
  rw [List.getElem?_append_left (List.getElem?_eq_some_iff.1 hdata).1, hdata]

theorem ExecReq.Phase.mono {bulk bulk' : List (List UInt8)} {q : ExecReq} (h : q.Phase bulk)
    (hb : bulk <+: bulk') : q.Phase bulk' := by
  cases h with
  | asks hc => exact .asks hc
  | noResult hlen hout hc => exact .noResult hlen hout hc
  | replied hlen hout hc => exact .replied hlen hout hc
  | prepares hx hh hc => exact .prepares (hx.mono hb) hh hc
  | offers hx hh hc => exact .offers (hx.mono hb) hh hc
  | taken hx hh => exact .taken (hx.mono hb) hh
  | entered hx => exact .entered (hx.mono hb)
  | told hx => exact .told (hx.mono hb)
  | ends hx hh => exact .ends (hx.mono hb) hh

namespace ExecState

variable {s s' : ExecState} {r : Nat} {q : ExecReq}

@[simp] theorem req_set (s : ExecState) (r : Nat) (q : ExecReq) :
    (s.set r q).req = Function.update s.req r q := rfl

theorem slots_update {V : Type} (f : ExecReq → Nat → Option (Nat × V)) (hreq : s'.req = Function.update s.req r q) :
    (fun i => f (s'.req i) i) = Function.update (fun i => f (s.req i) i) r (f q r) := by
  funext i
  rw [hreq]
  by_cases hi : i = r
  · rw [hi, Function.update_self, Function.update_self]
  · rw [Function.update_of_ne hi, Function.update_of_ne hi]

/-- A step of a request leaves the others in their phases. -/
theorem Inv.next (h : Inv s) (hreq : s'.req = Function.update s.req r q) (hfault : s'.fault = s.fault)
    (hbulk : s.bulk <+: s'.bulk) (hphase : q.Phase s'.bulk) (hrank : q.rank < (s.req r).rank)
    (hm : Heap.Agrees s'.mutexes (Function.update s.mutexSlots r (q.mutexSlot r)) ∧ Heap.Finite s'.mutexes)
    (hc : Heap.Agrees s'.conds (Function.update s.condSlots r (q.condSlot r)) ∧ Heap.Finite s'.conds) :
    Moves s r s' := by
  have hmutex : s'.mutexSlots = Function.update s.mutexSlots r (q.mutexSlot r) :=
    slots_update ExecReq.mutexSlot hreq
  have hcond : s'.condSlots = Function.update s.condSlots r (q.condSlot r) :=
    slots_update ExecReq.condSlot hreq
  refine ⟨⟨hfault.trans h.fault, fun i => ?_, by rw [hmutex]; exact hm.1, by rw [hcond]; exact hc.1, hm.2, hc.2⟩,
    q, hreq, hrank⟩
  rw [hreq]
  by_cases hi : i = r
  · rw [hi, Function.update_self]
    exact hphase
  · rw [Function.update_of_ne hi]
    exact (h.phase i).mono hbulk

/-! ### What a step does, as the request knows it -/

section Step

variable {q₀ : ExecReq} {m c : Nat} {t : ExecThread} {v : Option ExecThread} {w : Option Nat}

theorem Inv.mutex (h : Inv s) (hq : s.req r = q₀) (hr : q₀.mutexSlot r = some (m, v)) :
    s.mutexes m = some v := by
  refine h.mutexes.holds r m v ?_
  rwa [mutexSlots, hq]

theorem Inv.condVar (h : Inv s) (hq : s.req r = q₀) (hr : q₀.condSlot r = some (c, w)) :
    s.conds c = some w := by
  refine h.conds.holds r c w ?_
  rwa [condSlots, hq]

/-- The mutex stays as it was. -/
theorem Inv.keepMutex (h : Inv s) (hq : s.req r = q₀) (hm : q.mutexSlot r = q₀.mutexSlot r) :
    Heap.Agrees s.mutexes (Function.update s.mutexSlots r (q.mutexSlot r)) ∧ Heap.Finite s.mutexes :=
  ⟨h.mutexes.keep (by rw [mutexSlots, hq, hm]), h.mutexesLive⟩

theorem Inv.keepCond (h : Inv s) (hq : s.req r = q₀) (hc : q.condSlot r = q₀.condSlot r) :
    Heap.Agrees s.conds (Function.update s.condSlots r (q.condSlot r)) ∧ Heap.Finite s.conds :=
  ⟨h.conds.keep (by rw [condSlots, hq, hc]), h.condsLive⟩

/-- The mutex is given an owner or none. -/
theorem Inv.writeMutex (h : Inv s) {v' : Option ExecThread} (hq : s.req r = q₀)
    (hr : q₀.mutexSlot r = some (m, v)) (hm : q.mutexSlot r = some (m, v')) :
    Heap.Agrees (Function.update s.mutexes m (some v')) (Function.update s.mutexSlots r (q.mutexSlot r)) ∧
      Heap.Finite (Function.update s.mutexes m (some v')) := by
  subst hq
  rw [hm]
  exact ⟨h.mutexes.write hr, h.mutexesLive.update m _⟩

theorem Inv.writeCond (h : Inv s) {w' : Option Nat} (hq : s.req r = q₀)
    (hr : q₀.condSlot r = some (c, w)) (hc : q.condSlot r = some (c, w')) :
    Heap.Agrees (Function.update s.conds c (some w')) (Function.update s.condSlots r (q.condSlot r)) ∧
      Heap.Finite (Function.update s.conds c (some w')) := by
  subst hq
  rw [hc]
  exact ⟨h.conds.write hr, h.condsLive.update c _⟩

/-- The request goes on and exposes memory. -/
theorem Inv.expose (h : Inv s) {bulk : List (List UInt8)} (hq : s.req r = q₀) (hrank : q.rank < q₀.rank)
    (hbulk : s.bulk <+: bulk) (hphase : q.Phase bulk) (hm : q.mutexSlot r = q₀.mutexSlot r)
    (hc : q.condSlot r = q₀.condSlot r) : Moves s r { s.set r q with bulk := bulk } :=
  h.next rfl rfl hbulk hphase (by rwa [hq]) (h.keepMutex hq hm) (h.keepCond hq hc)

/-- The request goes on, and nothing is done to its mutex and its condition variable. -/
theorem Inv.set (h : Inv s) (hq : s.req r = q₀) (hrank : q.rank < q₀.rank) (hphase : q.Phase s.bulk)
    (hm : q.mutexSlot r = q₀.mutexSlot r) (hc : q.condSlot r = q₀.condSlot r) : Moves s r (s.set r q) :=
  h.expose hq hrank (List.prefix_refl _) hphase hm hc

/-- A mutex that is locked was free. -/
theorem Inv.lock (h : Inv s) (hq : s.req r = q₀) (hrank : q.rank < q₀.rank)
    (hr : q₀.mutexSlot r = some (m, none)) (hstep : s.mutexLock m t r q = some s') (hphase : q.Phase s.bulk)
    (hm : q.mutexSlot r = some (m, some t)) (hc : q.condSlot r = q₀.condSlot r) : Moves s r s' := by
  rw [mutexLock, h.mutex hq hr] at hstep
  cases hstep
  exact h.next rfl rfl (List.prefix_refl _) hphase (by rwa [hq]) (h.writeMutex hq hr hm) (h.keepCond hq hc)

theorem Inv.not_lock (h : Inv s) {t' : ExecThread} (hq : s.req r = q₀)
    (hr : q₀.mutexSlot r = some (m, some t')) : s.mutexLock m t r q ≠ some s' := by
  rw [mutexLock, h.mutex hq hr]
  exact fun h => nomatch h

/-- A free mutex can be locked. -/
theorem Inv.lock_ne_none (h : Inv s) (hq : s.req r = q₀) (hr : q₀.mutexSlot r = some (m, none)) :
    s.mutexLock m t r q ≠ none := by
  rw [mutexLock, h.mutex hq hr]
  exact fun h => nomatch h

theorem Inv.unlock (h : Inv s) (hq : s.req r = q₀) (hrank : q.rank < q₀.rank)
    (hr : q₀.mutexSlot r = some (m, some t)) (hphase : q.Phase s.bulk) (hm : q.mutexSlot r = some (m, none))
    (hc : q.condSlot r = q₀.condSlot r) : Moves s r (s.mutexUnlock m t r q) := by
  rw [mutexUnlock, if_pos (h.mutex hq hr)]
  exact h.next rfl rfl (List.prefix_refl _) hphase (by rwa [hq]) (h.writeMutex hq hr hm) (h.keepCond hq hc)

theorem Inv.wait (h : Inv s) {out : PexecOut} (hq : s.req r = q₀) (hrank : q.rank < q₀.rank)
    (hr : q₀.mutexSlot r = some (out.mtxp, some (.handler r))) (hr' : q₀.condSlot r = some (out.condp, none))
    (hphase : q.Phase s.bulk) (hm : q.mutexSlot r = some (out.mtxp, none))
    (hc : q.condSlot r = some (out.condp, some r)) : Moves s r (s.condWait out r q) := by
  rw [condWait, if_pos ⟨h.mutex hq hr, h.condVar hq hr'⟩]
  exact h.next rfl rfl (List.prefix_refl _) hphase (by rwa [hq]) (h.writeMutex hq hr hm) (h.writeCond hq hr' hc)

/-- The signal of `cond_rpc` reaches the handler of its request. -/
theorem Inv.signal (h : Inv s) {out : PexecOut} (hq : s.req r = q₀)
    (hrank : ExecReq.rank { q with handler := .woken out } < q₀.rank)
    (hr : q₀.condSlot r = some (out.condp, some r)) (hw : q.handler = .waiting out)
    (hphase : ExecReq.Phase s.bulk { q with handler := .woken out })
    (hm : ExecReq.mutexSlot { q with handler := .woken out } r = q₀.mutexSlot r) :
    Moves s r (s.condSignal out.condp r q) := by
  have hreq : (s.set r q).req r = q := by
    rw [req_set, Function.update_self]
  have hwake : (s.set r q).wake r = s.set r { q with handler := .woken out } := by
    simp only [wake, hreq, hw]
    rw [ExecState.set, ExecState.set, ExecState.set]
    simp only [Function.update_idem]
  rw [condSignal, h.condVar hq hr]
  simp only
  rw [hwake]
  exact h.next rfl rfl (List.prefix_refl _) hphase (by rwa [hq]) (h.keepMutex hq hm) (h.writeCond hq hr rfl)

theorem Inv.freeMutex (h : Inv s) (hq : s.req r = q₀) (hrank : q.rank < q₀.rank)
    (hr : q₀.mutexSlot r = some (m, none)) (hphase : q.Phase s.bulk) (hm : q.mutexSlot r = none)
    (hc : q.condSlot r = q₀.condSlot r) : Moves s r (s.mutexFree m r q) := by
  rw [mutexFree, if_pos (h.mutex hq hr)]
  refine h.next rfl rfl (List.prefix_refl _) hphase (by rwa [hq]) ⟨?_, h.mutexesLive.update m _⟩ (h.keepCond hq hc)
  subst hq
  rw [hm]
  exact h.mutexes.free hr

theorem Inv.freeCond (h : Inv s) (hq : s.req r = q₀) (hrank : q.rank < q₀.rank)
    (hr : q₀.condSlot r = some (c, none)) (hphase : q.Phase s.bulk) (hm : q.mutexSlot r = q₀.mutexSlot r)
    (hc : q.condSlot r = none) : Moves s r (s.condFree c r q) := by
  rw [condFree, if_pos (h.condVar hq hr)]
  refine h.next rfl rfl (List.prefix_refl _) hphase (by rwa [hq]) (h.keepMutex hq hm) ⟨?_, h.condsLive.update c _⟩
  subst hq
  rw [hc]
  exact h.conds.free hr

end Step

/-! ### The invariant along a run -/

theorem Inv.handlerStep (h : Inv s) (hstep : s.handlerStep r = some s') : Moves s r s' := by
  have hphase := h.phase r
  generalize hq : s.req r = q at hphase
  simp only [ExecState.handlerStep, hq] at hstep
  cases hphase with
  | asks hc => cases hstep
  | noResult hlen hout hc =>
      cases hstep
      exact h.set hq (by simp) (.replied hlen hout (Or.inl hc)) rfl rfl
  | replied hlen hout hc => cases hstep
  | prepares hx hh hc =>
      rcases hh with rfl | rfl | rfl
      · cases hstep
      · exact h.lock hq (by simp) rfl hstep (.prepares hx (Or.inr (Or.inr rfl)) hc) rfl rfl
      · cases hstep
        exact h.set hq (by simp) (.offers hx (Or.inl rfl) (Or.inl hc)) rfl rfl
  | offers hx hh hc =>
      rcases hh with rfl | rfl
      · cases hstep
        exact h.wait hq (by simp) rfl rfl (.offers hx (Or.inr rfl) hc) rfl rfl
      · cases hstep
  | taken hx hh =>
      rcases hh with rfl | rfl
      · cases hstep
        exact h.wait hq (by simp) rfl rfl (.taken hx (Or.inr rfl)) rfl rfl
      · cases hstep
  | entered hx => cases hstep
  | told hx =>
      -- `cond_rpc` still has the mutex
      exact absurd hstep (h.not_lock hq rfl)
  | ends hx hh =>
      rcases hh with rfl | rfl | rfl | rfl | rfl
      · exact h.lock hq (by simp) rfl hstep (.ends hx (Or.inr (Or.inl rfl))) rfl rfl
      · cases hstep
        exact h.unlock hq (by simp) rfl (.ends hx (Or.inr (Or.inr (Or.inl rfl)))) rfl rfl
      · cases hstep
        exact h.freeMutex hq (by simp) rfl (.ends hx (Or.inr (Or.inr (Or.inr (Or.inl rfl))))) rfl rfl
      · cases hstep
        exact h.freeCond hq (by simp) rfl (.ends hx (Or.inr (Or.inr (Or.inr (Or.inr rfl))))) rfl rfl
      · cases hstep

theorem Inv.condStep (h : Inv s) (hstep : s.condStep r = some s') : Moves s r s' := by
  have hphase := h.phase r
  generalize hq : s.req r = q at hphase
  simp only [ExecState.condStep, hq] at hstep
  cases hphase with
  | asks | noResult | replied | prepares | offers | ends => cases hstep
  | taken hx hh =>
      rcases hh with rfl | rfl
      · -- the handler has the mutex until it waits
        exact absurd hstep (h.not_lock hq rfl)
      · exact h.lock hq (by simp) rfl hstep (.entered hx) rfl rfl
  | entered hx =>
      cases hstep
      exact h.signal hq (by simp) rfl rfl (.told hx) rfl
  | told hx =>
      cases hstep
      exact h.unlock hq (by simp) rfl (.ends hx (Or.inl rfl)) rfl rfl

theorem Inv.clientStep (h : Inv s) (hstep : s.clientStep r = some s') : Moves s r s' := by
  have hphase := h.phase r
  generalize hq : s.req r = q at hphase
  simp only [ExecState.clientStep, hq] at hstep
  cases hphase with
  | asks hc => rcases hc with rfl | rfl | rfl <;> cases hstep
  | noResult _ _ hc | prepares _ _ hc => rcases hc with rfl | rfl <;> cases hstep
  | taken | entered | told | ends => cases hstep
  | replied hlen hout hc =>
      rcases hc with (rfl | rfl) | rfl | rfl
      · cases hstep
        exact h.set hq (by simp) (.replied hlen hout (Or.inr (Or.inl rfl))) rfl rfl
      · cases hstep
      · simp only [bulkPull_eq_none hout, Option.map_none] at hstep
        split_ifs at hstep
        cases hstep
        exact h.set hq (by simp) (.replied hlen hout (Or.inr (Or.inr rfl))) rfl rfl
      · cases hstep
  | offers hx hh hc =>
      rcases hc with (rfl | rfl) | rfl | rfl
      · cases hstep
        exact h.set hq (by simp) (.offers hx hh (Or.inr (Or.inl rfl))) rfl rfl
      · cases hstep
      · simp only [if_pos hx.size_pos, hx.bulkPull] at hstep
        cases hstep
        exact h.set hq (by simp) (.offers hx hh (Or.inr (Or.inr rfl))) rfl rfl
      · cases hstep
        rcases hh with rfl | rfl
        · exact h.set hq (by simp) (.taken hx (Or.inl rfl)) rfl rfl
        · exact h.set hq (by simp) (.taken hx (Or.inr rfl)) rfl rfl

theorem Inv.forward (h : Inv s) (hidle : (s.req r).client = .idle) :
    Moves s r (s.set r { s.req r with client := .forwarded }) := by
  have hphase := h.phase r
  generalize hq : s.req r = q at hphase hidle ⊢
  cases hphase with
  | noResult _ _ hc | prepares _ _ hc => rcases hc with rfl | rfl <;> cases hidle
  | replied _ _ hc | offers _ _ hc => rcases hc with (rfl | rfl) | rfl | rfl <;> cases hidle
  | taken | entered | told | ends => cases hidle
  | asks _ =>
      cases hidle
      exact h.set hq (by simp) (.asks (Or.inr (Or.inl rfl))) rfl rfl

/-- A call of the client fails. -/
theorem Inv.fail (h : Inv s) (hret : ∀ data, (s.req r).client ≠ .returned data)
    (hfailed : (s.req r).client ≠ .failed) : Moves s r (s.set r { s.req r with client := .failed }) := by
  have hphase := h.phase r
  have hrank : 0 < (s.req r).client.rank := by
    cases hc : (s.req r).client with
    | returned data => exact absurd hc (hret data)
    | failed => exact absurd hc hfailed
    | idle | forwarded | gotOutput | pulled => simp
  generalize hq : s.req r = q at hphase hret hrank ⊢
  refine h.set hq (by simpa using hrank) ?_ rfl rfl
  cases hphase with
  | asks _ => exact .asks (Or.inr (Or.inr rfl))
  | noResult hlen hout _ => exact .noResult hlen hout (Or.inr rfl)
  | replied hlen hout _ => exact .replied hlen hout (Or.inl (Or.inr rfl))
  | prepares hx hh _ => exact .prepares hx hh (Or.inr rfl)
  | offers hx hh _ => exact .offers hx hh (Or.inl (Or.inr rfl))
  | taken | entered | told | ends => exact absurd rfl (hret _)

theorem Inv.execute (h : Inv s) {fn : FnRun} {uninit : PexecOut} (hload : fn ≠ .notLoaded)
    (hdump : fn ≠ .notDumped) (hhandler : (s.req r).handler = .idle) (hclient : (s.req r).client ≠ .idle) :
    Moves s r (s.execute r fn uninit) := by
  have hphase := h.phase r
  generalize hq : s.req r = q at hphase hhandler hclient ⊢
  cases hphase with
  | noResult | replied | entered | told => cases hhandler
  | prepares hx hh => rcases hh with rfl | rfl | rfl <;> cases hhandler
  | offers hx hh | taken hx hh => rcases hh with rfl | rfl <;> cases hhandler
  | ends hx hh => rcases hh with rfl | rfl | rfl | rfl | rfl <;> cases hhandler
  | asks hc =>
      -- the request is still before its function
      have hwaits := hc.resolve_left hclient
      cases fn with
      | notLoaded => exact absurd rfl hload
      | notDumped => exact absurd rfl hdump
      | noInput | nothing | notExposed =>
          simp only [ExecState.execute, hq]
          exact h.expose hq (by simp [pexecOut, pexecWaits]) (List.prefix_refl _)
            (.noResult (Int32.le_refl 0) rfl hwaits) rfl rfl
      | result bytes =>
          have hprefix : s.bulk <+: s.bulk ++ [bytes ++ [0]] := List.prefix_append _ _
          simp only [ExecState.execute, hq, pexecOut, pexecWaits, List.length_append, List.length_singleton]
          split
          · next hpos =>
              have hx : Exposed (s.bulk ++ [bytes ++ [0]]) bytes
                  { uninit with
                    handle := some s.bulk.length
                    length := intOfSize (UInt64.ofNat (bytes.length + 1)) } :=
                ⟨⟨s.bulk.length, rfl, by simp⟩, rfl, hpos⟩
              exact h.expose hq (by simp) hprefix (.prepares hx (Or.inl rfl) hwaits) rfl rfl
          · next hneg =>
              exact h.expose hq (by simp) hprefix (.noResult (Int32.not_lt.1 hneg) rfl hwaits) rfl rfl

theorem Inv.create (h : Inv s) {out : PexecOut} {mtxp condp : Nat} (hhandler : (s.req r).handler = .ready out)
    (hm : s.mutexes mtxp = none) (hc : s.conds condp = none) :
    Moves s r { s.set r { s.req r with handler := .created { out with mtxp := mtxp, condp := condp } } with
      mutexes := Function.update s.mutexes mtxp (some none)
      conds := Function.update s.conds condp (some none) } := by
  have hphase := h.phase r
  generalize hq : s.req r = q at hphase hhandler ⊢
  cases hphase with
  | asks | noResult | replied | entered | told => cases hhandler
  | offers hx hh | taken hx hh => rcases hh with rfl | rfl <;> cases hhandler
  | ends hx hh => rcases hh with rfl | rfl | rfl | rfl | rfl <;> cases hhandler
  | prepares hx hh hcl =>
      rcases hh with rfl | rfl | rfl
      · cases hhandler
        have hx' : Exposed s.bulk _ { out with mtxp := mtxp, condp := condp } := ⟨hx.data, hx.length, hx.pos⟩
        exact h.next rfl rfl (List.prefix_refl _) (.prepares hx' (Or.inr (Or.inl rfl)) hcl) (by simp [hq])
          ⟨h.mutexes.make hm, h.mutexesLive.update _ _⟩ ⟨h.conds.make hc, h.condsLive.update _ _⟩
      · cases hhandler
      · cases hhandler

/-- The function arrives, is loaded and can be called, and `dumps` makes bytes of its result. -/
def Loads : Nat × ExecAct → Prop
  | (_, .execute .notLoaded _) => False
  | (_, .execute .notDumped _) => False
  | _ => True

theorem Inv.step (h : Inv s) {e : Nat × ExecAct} (hload : Loads e) (hstep : s.step e = some s') :
    Moves s e.1 s' := by
  rcases e with ⟨r, a⟩
  simp only [ExecState.step] at hstep
  cases a with
  | handler => exact h.handlerStep hstep
  | cond => exact h.condStep hstep
  | client => exact h.clientStep hstep
  | forward =>
      simp only at hstep
      split at hstep
      · next hidle =>
          cases hstep
          exact h.forward hidle
      · cases hstep
  | execute fn uninit =>
      simp only at hstep
      split at hstep
      · cases hstep
      · next hhandler hclient =>
          cases hstep
          exact h.execute (by rintro rfl; exact hload) (by rintro rfl; exact hload) hhandler hclient
      · cases hstep
  | create mtxp condp =>
      simp only at hstep
      split at hstep
      · next out hready =>
          split_ifs at hstep with hfree
          cases hstep
          exact h.create hready hfree.1 hfree.2
      · cases hstep
  | fail =>
      simp only at hstep
      split at hstep
      · cases hstep
      · cases hstep
      · cases hstep
      · next _ hret hfailed =>
          cases hstep
          exact h.fail hret hfailed

theorem Inv.run {es : List (Nat × ExecAct)} (hloads : ∀ e ∈ es, Loads e) (hrun : run es init = some s) :
    Inv s :=
  isRun.keeps_along (fun _ _ _ h hload hstep => (h.step hload hstep).inv) es init s inv_init
    (Runs.along_of_forall hloads init) hrun

/-! ## Handing over -/

theorem pulledBytes_of_small {bytes : List UInt8} (h : bytes.length + 1 < 2 ^ 31) :
    pulledBytes bytes = bytes ++ [0] := by
  have hnat : (UInt64.ofNat (bytes.length + 1)).toNat = bytes.length + 1 := by
    rw [UInt64.toNat_ofNat', Nat.mod_eq_of_lt (by omega)]
  rw [pulledBytes, sizeOfInt_intOfSize (by rwa [hnat]), hnat, List.take_of_length_le (by simp)]

/-- For any number of requests and any order of their steps, as long as `Loads` holds of them: no mutex
and no condition variable is used that does not exist or that must not be used; whenever `cond_rpc` signals,
the handler of its request is waiting; what a client gets is the result of its own function; and a handler that
had a result ends only after its client has it. -/
theorem pexec_hands_over {es : List (Nat × ExecAct)} (hloads : ∀ e ∈ es, Loads e)
    (hrun : run es init = some s) :
    s.fault = false ∧
      (∀ r in2, (s.req r).cond = .locked in2 →
        ∃ out, (s.req r).handler = .waiting out ∧ s.conds in2.condp = some (some r)) ∧
      (∀ r data, (s.req r).client = .returned (some data) →
        ∃ bytes, (s.req r).ran = some (.result bytes) ∧ data <+: bytes ++ [0] ∧
          (bytes.length + 1 < 2 ^ 31 → data = bytes ++ [0])) ∧
      ∀ r out, (s.req r).handler = .finished → (s.req r).reply = some out → 0 < out.length →
        ∃ data, (s.req r).client = .returned (some data) := by
  have h := Inv.run hloads hrun
  refine ⟨h.fault, fun r in2 hcond => ?_, fun r data hclient => ?_, fun r out hend hreply hlen => ?_⟩
  -- no other phase has `cond_rpc` before its signal
  · have hphase := h.phase r
    generalize hq : s.req r = q at hphase hcond ⊢
    cases hphase with
    | asks | noResult | replied | prepares | offers | taken | told | ends => cases hcond
    | entered hx =>
        cases hcond
        exact ⟨_, rfl, h.condVar hq rfl⟩
  · have hphase := h.phase r
    have hdata : ∀ bytes, pulledBytes bytes <+: bytes ++ [0] ∧
        (bytes.length + 1 < 2 ^ 31 → pulledBytes bytes = bytes ++ [0]) :=
      fun bytes => ⟨List.take_prefix _ _, pulledBytes_of_small⟩
    generalize s.req r = q at hphase hclient ⊢
    cases hphase with
    | asks hc => rcases hc with rfl | rfl | rfl <;> cases hclient
    | noResult _ _ hc | prepares _ _ hc => rcases hc with rfl | rfl <;> cases hclient
    | replied _ _ hc | offers _ _ hc => rcases hc with (rfl | rfl) | rfl | rfl <;> cases hclient
    | taken | entered | told | ends =>
        cases hclient
        exact ⟨_, rfl, hdata _⟩
  · have hphase := h.phase r
    generalize s.req r = q at hphase hend hreply ⊢
    cases hphase with
    | asks | noResult | entered | told => cases hend
    | prepares hx hh => rcases hh with rfl | rfl | rfl <;> cases hend
    | offers hx hh | taken hx hh => rcases hh with rfl | rfl <;> cases hend
    | replied hle =>
        cases hreply
        exact absurd hlen (Int32.not_lt.2 hle)
    | ends => exact ⟨_, rfl⟩

/-- Two requests: the second is over while the handler of the first waits. -/
def twoRequests : List (Nat × ExecAct) :=
  [(0, .forward), (1, .forward), (0, .execute (.result [7]) ⟨none, 0, 0, 0⟩),
    (1, .execute (.result [8, 9]) ⟨none, 0, 0, 0⟩), (0, .create 100 200), (1, .create 101 201),
    (1, .handler), (1, .handler), (0, .handler), (0, .handler), (1, .client), (1, .client), (1, .client),
    (0, .handler), (1, .handler), (1, .cond), (1, .cond), (1, .cond),
    (1, .handler), (1, .handler), (1, .handler), (1, .handler),
    (0, .client), (0, .client), (0, .client), (0, .cond), (0, .cond)]

theorem loads_twoRequests : ∀ e ∈ twoRequests, Loads e := by
  simp [twoRequests, Loads]

theorem exists_run_twoRequests : ∃ s, run twoRequests init = some s :=
  Option.isSome_iff_exists.1 (by decide)

theorem pexec_hands_over_twoRequests :
    ∃ s, run twoRequests init = some s ∧ s.fault = false ∧
      ∀ r data, (s.req r).client = .returned (some data) →
        ∃ bytes, (s.req r).ran = some (.result bytes) ∧ data <+: bytes ++ [0] ∧
          (bytes.length + 1 < 2 ^ 31 → data = bytes ++ [0]) := by
  rcases exists_run_twoRequests with ⟨s, hrun⟩
  have hsafe := pexec_hands_over loads_twoRequests hrun
  exact ⟨s, hrun, hsafe.1, hsafe.2.2.1⟩

/-! ## Coming to an end -/

/-- Every step of a request is one of the sixteen that it can take. -/
theorem length_steps {es : List (Nat × ExecAct)} (r : Nat) : ∀ {s s' : ExecState}, Inv s →
    (∀ e ∈ es, Loads e) → run es s = some s' →
      (es.filter fun e => e.1 = r).length + (s'.req r).rank ≤ (s.req r).rank := by
  induction es with
  | nil =>
      intro s s' _ _ hrun
      cases hrun
      simp
  | cons e es ih =>
      intro s s' h hloads hrun
      obtain ⟨s₁, hstep, hrun⟩ := isRun.cons_eq_some_iff.1 hrun
      have hmoves := h.step (hloads e List.mem_cons_self) hstep
      have hrest := ih hmoves.inv (fun e he => hloads e (List.mem_cons_of_mem _ he)) hrun
      obtain ⟨q, hreq, hrank⟩ := hmoves.own
      rw [List.filter_cons]
      by_cases hr : e.1 = r
      · rw [hreq, hr, Function.update_self] at hrest
        rw [hr] at hrank
        rw [if_pos (by simpa using hr), List.length_cons]
        omega
      · rw [hreq, Function.update_of_ne (Ne.symm hr)] at hrest
        rwa [if_neg (by simpa using hr)]

/-- No request can go on by itself. -/
def Quiet (s : ExecState) : Prop :=
  ∀ r a, a ≠ .forward → a ≠ .fail → s.step (r, a) = none

/-- A request is over: the client returned, and the handler and `cond_rpc` are at their end. -/
structure Over (q : ExecReq) : Prop where
  handler : q.handler = .finished
  cond : q.cond = .idle ∨ q.cond = .done
  client : ∃ data, q.client = .returned data

/-- The client of a request gives up: a call of it failed, or it has a negative length, with which its transfer
fails.  It never calls `cond_rpc`, so a handler with a result goes on waiting. -/
structure GaveUp (q : ExecReq) : Prop where
  client : q.client = .failed ∨ ∃ out, q.client = .gotOutput out ∧ out.length < 0
  cond : q.cond = .idle
  handler : q.handler = .finished ∨ ∃ out, q.handler = .waiting out

theorem Inv.over_of_quiet (h : Inv s) (hquiet : Quiet s) (hran : (s.req r).ran ≠ none) :
    Over (s.req r) ∨ GaveUp (s.req r) := by
  have hphase := h.phase r
  have hhandler := hquiet r .handler (by simp) (by simp)
  have hclient := hquiet r .client (by simp) (by simp)
  have hcond := hquiet r .cond (by simp) (by simp)
  generalize hq : s.req r = q at hphase hran ⊢
  simp only [ExecState.step, ExecState.handlerStep, ExecState.clientStep, ExecState.condStep, hq]
    at hhandler hclient hcond
  cases hphase with
  | asks => exact absurd rfl hran
  | noResult => cases hhandler
  | replied hlen hout hc =>
      rcases hc with (rfl | rfl) | rfl | rfl
      · cases hclient
      · exact Or.inr ⟨Or.inl rfl, rfl, Or.inl rfl⟩
      · refine Or.inr ⟨Or.inr ⟨_, rfl, ?_⟩, rfl, Or.inl rfl⟩
        simp only [bulkPull_eq_none hout, Option.map_none] at hclient
        split_ifs at hclient with hsize
        refine Int32.lt_of_le_of_ne hlen fun hzero => ?_
        rw [hzero] at hsize
        exact absurd hsize (by decide)
      · exact Or.inl ⟨rfl, Or.inl rfl, ⟨_, rfl⟩⟩
  | prepares hx hh hc =>
      rcases hh with rfl | rfl | rfl
      · obtain ⟨a, hm, hc⟩ := h.mutexesLive.exists_free h.condsLive
        have hcreate := hquiet r (.create a a) (by simp) (by simp)
        simp only [ExecState.step, hq, hm, hc] at hcreate
        cases hcreate
      · exact absurd hhandler (h.lock_ne_none hq rfl)
      · cases hhandler
  | offers hx hh hc =>
      rcases hc with (rfl | rfl) | rfl | rfl
      · cases hclient
      · -- the mutex is given back once the handler waits
        rcases hh with rfl | rfl
        · cases hhandler
        · exact Or.inr ⟨Or.inl rfl, rfl, Or.inr ⟨_, rfl⟩⟩
      · simp only [if_pos hx.size_pos, hx.bulkPull] at hclient
        cases hclient
      · cases hclient
  | taken hx hh =>
      rcases hh with rfl | rfl
      · cases hhandler
      · exact absurd hcond (h.lock_ne_none hq rfl)
  | entered hx => cases hcond
  | told hx => cases hcond
  | ends hx hh =>
      rcases hh with rfl | rfl | rfl | rfl | rfl
      · exact absurd hhandler (h.lock_ne_none hq rfl)
      · cases hhandler
      · cases hhandler
      · cases hhandler
      · exact Or.inl ⟨rfl, Or.inr rfl, ⟨_, rfl⟩⟩

/-- Every request takes at most sixteen steps, and when no request can go on, those whose function was run are
over, unless their client gave up: nobody waits for a mutex for ever, and nobody for a signal of a client that
did not give up. -/
theorem pexec_completes {es : List (Nat × ExecAct)} (hloads : ∀ e ∈ es, Loads e)
    (hrun : run es init = some s) :
    (∀ r, (es.filter fun e => e.1 = r).length ≤ 16) ∧
      (Quiet s → ∀ r, (s.req r).ran ≠ none → Over (s.req r) ∨ GaveUp (s.req r)) := by
  refine ⟨fun r => ?_, fun hquiet r hran => (Inv.run hloads hrun).over_of_quiet hquiet hran⟩
  have hsteps := length_steps r inv_init hloads hrun
  have hinit : (init.req r).rank = 16 := rfl
  omega

/-- Steps of other requests leave a request where it is. -/
theorem req_run {es : List (Nat × ExecAct)} {r : Nat} : ∀ {s s' : ExecState}, Inv s → (∀ e ∈ es, Loads e) →
    (∀ e ∈ es, e.1 ≠ r) → run es s = some s' → s'.req r = s.req r := by
  induction es with
  | nil =>
      intro s s' _ _ _ hrun
      cases hrun
      rfl
  | cons e es ih =>
      intro s s' h hloads hothers hrun
      obtain ⟨s₁, hstep, hrun⟩ := isRun.cons_eq_some_iff.1 hrun
      have hmoves := h.step (hloads e List.mem_cons_self) hstep
      obtain ⟨q, hreq, -⟩ := hmoves.own
      rw [ih hmoves.inv (fun e he => hloads e (List.mem_cons_of_mem _ he))
        (fun e he => hothers e (List.mem_cons_of_mem _ he)) hrun, hreq,
        Function.update_of_ne (hothers e List.mem_cons_self).symm]

/-- A request that has taken all its steps can take no more. -/
theorem Inv.step_eq_none (h : Inv s) (hrank : (s.req r).rank = 0) {a : ExecAct} (hload : Loads (r, a)) :
    s.step (r, a) = none := by
  cases hstep : s.step (r, a) with
  | none => rfl
  | some s' =>
      obtain ⟨q, -, hlt⟩ := (h.step hload hstep).own
      simp only [hrank] at hlt
      exact absurd hlt (Nat.not_lt_zero _)

/-- The two requests to their end. -/
def twoRequestsOver : List (Nat × ExecAct) :=
  twoRequests ++ [(0, .cond), (0, .handler), (0, .handler), (0, .handler), (0, .handler)]

theorem loads_twoRequestsOver : ∀ e ∈ twoRequestsOver, Loads e := by
  simp [twoRequestsOver, twoRequests, Loads]

theorem quiet_twoRequestsOver (hrun : run twoRequestsOver init = some s) : Quiet s := by
  have hinv := Inv.run loads_twoRequestsOver hrun
  have hranks : (run twoRequestsOver init).map (fun s => ((s.req 0).rank, (s.req 1).rank)) = some (0, 0) := by
    decide
  rw [hrun, Option.map_some, Option.some.injEq, Prod.mk.injEq] at hranks
  have hdone : ∀ r, r = 0 ∨ r = 1 → (s.req r).rank = 0 := by
    rintro r (rfl | rfl)
    · exact hranks.1
    · exact hranks.2
  intro r a hforward hfail
  by_cases hr : r = 0 ∨ r = 1
  · have hrank := hdone r hr
    cases a with
    | execute fn uninit =>
        -- the handler is at its end, whatever the function is
        have hhandler : (s.req r).handler.rank = 0 := by
          simp only [ExecReq.rank] at hrank
          omega
        simp only [ExecState.step]
        cases hh : (s.req r).handler with
        | finished => cases (s.req r).client <;> rfl
        | _ => simp [hh] at hhandler
    | forward => exact absurd rfl hforward
    | fail => exact absurd rfl hfail
    | create mtxp condp => exact hinv.step_eq_none hrank trivial
    | handler => exact hinv.step_eq_none hrank trivial
    | cond => exact hinv.step_eq_none hrank trivial
    | client => exact hinv.step_eq_none hrank trivial
  · -- nobody has asked
    have hreq : s.req r = init.req r := by
      have hboth : ∀ e ∈ twoRequestsOver, e.1 = 0 ∨ e.1 = 1 := by
        simp [twoRequestsOver, twoRequests]
      exact req_run inv_init loads_twoRequestsOver (fun e he heq => hr (heq ▸ hboth e he)) hrun
    cases a <;> simp_all [ExecState.step, ExecState.handlerStep, ExecState.condStep, ExecState.clientStep, init]

theorem pexec_completes_twoRequests :
    ∃ s, run twoRequestsOver init = some s ∧ Quiet s ∧ (Over (s.req 0) ∨ GaveUp (s.req 0)) := by
  have hsome : (run twoRequestsOver init).map (fun s => (s.req 0).ran.isSome) = some true := by
    decide
  obtain ⟨s, hrun, hran⟩ := Option.map_eq_some_iff.1 hsome
  have hquiet := quiet_twoRequestsOver hrun
  exact ⟨s, hrun, hquiet, (pexec_completes loads_twoRequestsOver hrun).2 hquiet 0
    (Option.isSome_iff_ne_none.1 hran)⟩

end ExecState

end DataSpaces
