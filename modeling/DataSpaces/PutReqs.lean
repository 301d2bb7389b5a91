import Mathlib.Data.List.Chain
import Mathlib.Data.List.Perm.Subperm
import DataSpaces.Lib.Links
import DataSpaces.Lib.Runs

/-!
# PutReqs — the list of outstanding puts (`dspaces_iput`, `dspaces_check_put`)

A client keeps the requests that it has sent in a singly linked list with a pointer to the last one.
`dspaces_iput` may walk the list first and take out the requests that are completed; `dspaces_check_put`
takes out one.

Nodes are numbers here, in the order of their allocation.  A link is stored in `put_reqs`, which is place
`none`, or in the node `r`, which is place `some r`.  A node that was freed is no longer there; using it
makes a call `none`.

The walk of `dspaces_iput` goes on from the node that it took out.  The node after that one is still
reached by the link before, so that taking it out as well changes a link that nobody follows.
-/

namespace DataSpaces

/-- `struct dspaces_put_req`. -/
structure PutReq where
  next : Option Nat
  finalized : Bool
  ret : Int32

/-- The part of `struct dspaces_client` that has to do with puts. -/
structure PutClient where
  node : Nat → Option PutReq
  /-- the node that is allocated next -/
  fresh : Nat
  putReqs : Option Nat
  putReqsEnd : Option Nat
  /-- the requests that were returned, in this order -/
  issued : List Nat

def dspaces_ERR_MERCURY : Int32 := -3

namespace PutClient

def init : PutClient := ⟨fun _ => none, 0, none, none, []⟩

def setNode (st : PutClient) (r : Nat) (req : Option PutReq) : PutClient :=
  { st with node := Function.update st.node r req }

/-- What is stored in a place. -/
def read (st : PutClient) : Option Nat → Option (Option Nat)
  | none => some st.putReqs
  | some r => (st.node r).map PutReq.next

def write (st : PutClient) (v : Option Nat) : Option Nat → Option PutClient
  | none => some { st with putReqs := v }
  | some r => (st.node r).map fun req => st.setNode r (some { req with next := v })

/-- `finalize_req`; `out` is what `margo_get_output` finds, if it succeeds. -/
def finalizeReq (st : PutClient) (r : Nat) (out : Option Int32) : Option (PutClient × Int32) := do
  let req ← st.node r
  match out with
  | none => return (st, dspaces_ERR_MERCURY)
  | some ret => return (st.setNode r (some { req with finalized := true, ret := ret }), ret)

/-- Taking out `r`: `put_reqs_end` is `ds_req_prev` if `r` has no successor, and the successor is stored
where `ds_req_p` points to. -/
def unlinkReq (st : PutClient) (dsReqPrev dsReqP : Option Nat) (r : Nat) : Option PutClient := do
  let req ← st.node r
  let st := if req.next = none then { st with putReqsEnd := dsReqPrev } else st
  st.write req.next dsReqP

section Walk

variable (reported : Nat → Bool) (outs : Nat → Option Int32)

/-- One turn of the walk of `dspaces_iput`. -/
def pruneTurn (st : PutClient) (dsReqPrev dsReqP : Option Nat) (r : Nat) : Option PutClient := do
  let req ← st.node r
  if !req.finalized && reported r then
    let (st, _) ← st.finalizeReq r (outs r)
    st.unlinkReq dsReqPrev dsReqP r
  else some st

/-- The walk of `dspaces_iput`, of at most `fuel` turns. -/
def pruneLoop : Nat → Option Nat → Option Nat → PutClient → Option PutClient
  | 0, _, _, _ => none
  | fuel + 1, dsReqPrev, dsReqP, st => do
      match ← st.read dsReqP with
      | none => return st
      | some r =>
          let st ← st.pruneTurn reported outs dsReqPrev dsReqP r
          pruneLoop fuel (some r) (some r) st

/-- The part of `dspaces_iput` for completed requests. -/
def prune (check : Bool) (st : PutClient) : Option PutClient :=
  if check then st.pruneLoop reported outs (st.fresh + 1) none none else some st

end Walk

/-- The end of `dspaces_iput`: the new request goes behind the last one. -/
def appendReq (st : PutClient) (r : Nat) : Option PutClient :=
  match st.putReqsEnd with
  | some last => (st.write (some r) (some last)).map fun st => { st with putReqsEnd := some r }
  | none => some { st with putReqs := some r, putReqsEnd := some r }

/-- `dspaces_iput`: `reported` is what `margo_test` finds, and `sent` whether all the calls succeed that
come before the request is put into the list. -/
def iput (st : PutClient) (check : Bool) (reported : Nat → Bool) (outs : Nat → Option Int32) (sent : Bool) :
    Option (PutClient × Option Nat) := do
  let st ← st.prune reported outs check
  let r := st.fresh
  let st := { st.setNode r (some ⟨none, false, 0⟩) with fresh := r + 1 }
  if sent then
    let st ← st.appendReq r
    return ({ st with issued := st.issued ++ [r] }, some r)
  else return (st, none)

/-- The walk of `dspaces_check_put` up to the request, of at most `fuel` turns: `ds_req_prev` and
`ds_req_p` at its end. -/
def findReq (st : PutClient) (req : Nat) : Nat → Option Nat → Option Nat → Option (Option Nat × Option Nat)
  | 0, _, _ => none
  | fuel + 1, dsReqPrev, dsReqP => do
      match ← st.read dsReqP with
      | none => return (dsReqPrev, dsReqP)
      | some r => if r = req then return (dsReqPrev, dsReqP) else findReq st req fuel (some r) (some r)

def freeReq (st : PutClient) (r : Nat) : PutClient :=
  st.setNode r none

/-- What `dspaces_check_put` is told: the result of `margo_wait`, or the flag that `margo_test` sets. -/
inductive Progress
  | wait (hret : Int32)
  | test (flag : Int32)

def Progress.completed : Progress → Bool
  | .wait hret => hret == 0
  | .test flag => flag != 0

/-- What `dspaces_check_put` returns when the request is not completed. -/
def Progress.value : Progress → Int32
  | .wait hret => hret
  | .test flag => flag

/-- What it returns when `finalize_req` returned `ret`. -/
def Progress.result (ret : Int32) : Progress → Int32
  | .wait _ => ret
  | .test flag => flag

/-- `dspaces_check_put`.  The address `ds_req_p` is never null, so that the branch for a request that is
not in the list is not taken. -/
def checkPut (st : PutClient) (req : Nat) (progress : Progress) (out : Option Int32) :
    Option (PutClient × Int32) := do
  let node ← st.node req
  if node.finalized then return (st.freeReq req, node.ret)
  else if progress.completed then
    let (dsReqPrev, dsReqP) ← st.findReq req (st.fresh + 1) none none
    let (st, ret) ← st.finalizeReq req out
    let st ← st.unlinkReq dsReqPrev dsReqP req
    return (st.freeReq req, progress.result ret)
  else return (st, progress.value)

end PutClient

/-! ## Runs -/

/-- A call of a client, with what the calls of Margo report in it. -/
inductive PutCall
  | iput (check : Bool) (reported : Nat → Bool) (outs : Nat → Option Int32) (sent : Bool)
  | checkPut (req : Nat) (progress : PutClient.Progress) (out : Option Int32)

namespace PutClient

def call (st : PutClient) : PutCall → Option PutClient
  | .iput check reported outs sent => (st.iput check reported outs sent).map Prod.fst
  | .checkPut req progress out => (st.checkPut req progress out).map Prod.fst

def run (calls : List PutCall) (st : PutClient) : Option PutClient :=
  calls.foldlM call st

/-- The request is in memory and not finalized. -/
def isOpen (st : PutClient) (r : Nat) : Bool :=
  (st.node r).any fun req => !req.finalized

/-- The requests that were issued and not yet finalized, in the order in which they were issued. -/
def outstanding (st : PutClient) : List Nat :=
  st.issued.filter st.isOpen

/-- Where the links lead. -/
def links (st : PutClient) (p : Option Nat) : Option Nat :=
  (st.read p).join

/-- The list has exactly the outstanding requests, each one once, and `put_reqs_end` is the last one. -/
structure Right (st : PutClient) : Prop where
  once : st.outstanding.Nodup
  chain : Links.Chain st.links none st.outstanding
  last : st.putReqsEnd = st.outstanding.getLast?

/-- `dspaces_check_put` is called with a request that was returned and not yet freed. -/
def Legal (st : PutClient) : PutCall → Prop
  | .iput .. => True
  | .checkPut req _ _ => req ∈ st.issued ∧ (st.node req).isSome

/-- What the walk of `dspaces_iput` may find from a request on; `stale` says that the request before was
taken out.  A request that is found completed has its output, except behind one that was taken out: there
it has none, and another request follows. -/
def WalkRight (reported : Nat → Bool) (outs : Nat → Option Int32) : Bool → List Nat → Prop
  | _, [] => True
  | stale, r :: l =>
      if reported r then
        if stale then outs r = none ∧ l ≠ [] ∧ WalkRight reported outs false l
        else (outs r).isSome ∧ WalkRight reported outs true l
      else WalkRight reported outs false l

def PruneRight (st : PutClient) : PutCall → Prop
  | .iput true reported outs _ => WalkRight reported outs false st.outstanding
  | _ => True

/-- The walk finds no two neighbours of the list completed. -/
def Spaced (st : PutClient) : PutCall → Prop
  | .iput true reported _ _ => st.outstanding.IsChain fun r r' => ¬ (reported r = true ∧ reported r' = true)
  | _ => True

/-- `margo_get_output` succeeds for what the walk finds completed. -/
def OutputsOk (st : PutClient) : PutCall → Prop
  | .iput true reported outs _ => ∀ r ∈ st.outstanding, reported r = true → (outs r).isSome
  | _ => True

/-! ## What the operations do to the links -/

/-- The nodes in memory and the requests returned are the same. -/
structure SameNodes (st st' : PutClient) : Prop where
  live : ∀ a, (st'.node a).isSome = (st.node a).isSome
  fresh : st'.fresh = st.fresh
  issued : st'.issued = st.issued

theorem SameNodes.trans {st st' st'' : PutClient} (h : st.SameNodes st') (h' : st'.SameNodes st'') :
    st.SameNodes st'' :=
  ⟨fun a => (h'.live a).trans (h.live a), h'.fresh.trans h.fresh, h'.issued.trans h.issued⟩

/-- The place is in memory. -/
def HasPlace (st : PutClient) (p : Option Nat) : Prop :=
  ∀ a, p = some a → (st.node a).isSome

theorem read_eq {st : PutClient} {p : Option Nat} (hp : st.HasPlace p) : st.read p = some (st.links p) := by
  cases p with
  | none => rfl
  | some a =>
      obtain ⟨req, hreq⟩ := Option.isSome_iff_exists.1 (hp a rfl)
      simp [links, read, hreq]

theorem links_some {st : PutClient} {r : Nat} {req : PutReq} (h : st.node r = some req) :
    st.links (some r) = req.next := by
  simp [links, read, h]

theorem isOpen_some {st : PutClient} {r : Nat} {req : PutReq} (h : st.node r = some req) :
    st.isOpen r = !req.finalized := by
  simp [isOpen, h]

theorem live_of_isOpen {st : PutClient} {r : Nat} (h : st.isOpen r = true) : (st.node r).isSome := by
  cases hreq : st.node r with
  | none =>
      rw [isOpen, hreq] at h
      cases h
  | some req => rfl

section SetNode

variable (st : PutClient) (r : Nat)

theorem links_setNode (req : PutReq) :
    (st.setNode r (some req)).links = Function.update st.links (some r) req.next := by
  funext p
  cases p with
  | none => simp [links, read, setNode]
  | some a =>
      rcases eq_or_ne a r with rfl | hne
      · simp [links, read, setNode]
      · simp [links, read, setNode, hne]

theorem isOpen_setNode (req : Option PutReq) :
    (st.setNode r req).isOpen = Function.update st.isOpen r (req.any fun req => !req.finalized) := by
  funext a
  rcases eq_or_ne a r with rfl | hne
  · simp [isOpen, setNode]
  · simp [isOpen, setNode, hne]

theorem sameNodes_setNode (hr : (st.node r).isSome) (req : PutReq) : st.SameNodes (st.setNode r (some req)) := by
  refine ⟨fun a => ?_, rfl, rfl⟩
  rcases eq_or_ne a r with rfl | hne
  · simp [setNode, hr]
  · simp [setNode, hne]

end SetNode

/-- The state after a link was changed. -/
structure Rewired (st st' : PutClient) (p v : Option Nat) : Prop where
  links : st'.links = Function.update st.links p v
  isOpen : st'.isOpen = st.isOpen
  last : st'.putReqsEnd = st.putReqsEnd
  same : st.SameNodes st'

theorem write_spec {st : PutClient} {p : Option Nat} (hp : st.HasPlace p) (v : Option Nat) :
    ∃ st', st.write v p = some st' ∧ st.Rewired st' p v := by
  cases p with
  | none =>
      refine ⟨{ st with putReqs := v }, rfl, ?_, rfl, rfl, fun _ => rfl, rfl, rfl⟩
      funext q
      cases q with
      | none => simp [PutClient.links, read]
      | some a => simp [PutClient.links, read]
  | some a =>
      have ha := hp a rfl
      obtain ⟨req, hreq⟩ := Option.isSome_iff_exists.1 ha
      refine ⟨st.setNode a (some { req with next := v }), by rw [write, hreq]; rfl,
        links_setNode st a _, ?_, rfl, sameNodes_setNode st a ha _⟩
      rw [isOpen_setNode, Function.update_eq_self_iff, isOpen_some hreq]
      rfl

/-- Finalizing closes the request, unless its output is not there. -/
theorem finalizeReq_spec {st : PutClient} {r : Nat} (hr : (st.node r).isSome) (out : Option Int32) :
    ∃ st' ret, st.finalizeReq r out = some (st', ret) ∧ st'.links = st.links ∧
      st'.isOpen = (if out.isSome then Function.update st.isOpen r false else st.isOpen) ∧
      st'.putReqsEnd = st.putReqsEnd ∧ st.SameNodes st' := by
  obtain ⟨req, hreq⟩ := Option.isSome_iff_exists.1 hr
  cases out with
  | none => exact ⟨st, _, by rw [finalizeReq, hreq]; rfl, rfl, rfl, rfl, fun _ => rfl, rfl, rfl⟩
  | some ret =>
      refine ⟨st.setNode r (some { req with finalized := true, ret := ret }), ret,
        by rw [finalizeReq, hreq]; rfl, ?_, isOpen_setNode st r _, rfl, sameNodes_setNode st r hr _⟩
      rw [links_setNode, Function.update_eq_self_iff, links_some hreq]

theorem unlinkReq_spec {st : PutClient} (prev : Option Nat) {p : Option Nat} {r : Nat} (hr : (st.node r).isSome)
    (hp : st.HasPlace p) :
    ∃ st', st.unlinkReq prev p r = some st' ∧
      st'.links = Function.update st.links p (st.links (some r)) ∧ st'.isOpen = st.isOpen ∧
      st'.putReqsEnd = (if st.links (some r) = none then prev else st.putReqsEnd) ∧ st.SameNodes st' := by
  obtain ⟨req, hreq⟩ := Option.isSome_iff_exists.1 hr
  rw [links_some hreq]
  by_cases hlast : req.next = none
  · obtain ⟨st', hwrite, hrewired⟩ := write_spec (show HasPlace { st with putReqsEnd := prev } p from hp)
      req.next
    refine ⟨st', ?_, hrewired.links, hrewired.isOpen, ?_, hrewired.same.live, hrewired.same.fresh,
      hrewired.same.issued⟩
    · simp only [unlinkReq, hreq, Option.bind_eq_bind, Option.bind_some, hlast, if_true]
      rwa [hlast] at hwrite
    · rw [if_pos hlast, hrewired.last]
  · obtain ⟨st', hwrite, hrewired⟩ := write_spec hp req.next
    refine ⟨st', ?_, hrewired.links, hrewired.isOpen, ?_, hrewired.same⟩
    · simp only [unlinkReq, hreq, Option.bind_eq_bind, Option.bind_some, hlast, if_false]
      exact hwrite
    · rw [if_neg hlast, hrewired.last]

/-- The state after a request was finalized and taken out at place `p`; without its output it stays
open. -/
structure Unlinked (st st' : PutClient) (prev p : Option Nat) (r : Nat) (out : Option Int32) : Prop where
  links : st'.links = Function.update st.links p (st.links (some r))
  isOpen : st'.isOpen = if out.isSome then Function.update st.isOpen r false else st.isOpen
  last : st'.putReqsEnd = if st.links (some r) = none then prev else st.putReqsEnd
  same : st.SameNodes st'

theorem finalize_unlink {st : PutClient} (prev : Option Nat) {p : Option Nat} {r : Nat}
    (hr : (st.node r).isSome) (hp : st.HasPlace p) (out : Option Int32) :
    ∃ st₁ ret st₂, st.finalizeReq r out = some (st₁, ret) ∧ st₁.unlinkReq prev p r = some st₂ ∧
      st.Unlinked st₂ prev p r out := by
  obtain ⟨st₁, ret, hfin, hlinks, hisOpen, hend, hsame⟩ := finalizeReq_spec hr out
  have hr₁ : (st₁.node r).isSome := by
    rw [hsame.live]
    exact hr
  have hp₁ : st₁.HasPlace p := fun a ha => by
    rw [hsame.live]
    exact hp a ha
  obtain ⟨st₂, hunlink, hlinks', hisOpen', hend', hsame'⟩ := unlinkReq_spec prev hr₁ hp₁
  refine ⟨st₁, ret, st₂, hfin, hunlink, ?_, hisOpen'.trans hisOpen, ?_, hsame.trans hsame'⟩
  · rw [hlinks', hlinks]
  · rw [hend', hlinks, hend]

section Walk

variable {reported : Nat → Bool} {outs : Nat → Option Int32} {st : PutClient} {prev p : Option Nat} {r : Nat}

theorem pruneTurn_completed (prev : Option Nat) (hopen : st.isOpen r = true) (hreported : reported r = true)
    (hp : st.HasPlace p) :
    ∃ st', st.pruneTurn reported outs prev p r = some st' ∧ st.Unlinked st' prev p r (outs r) := by
  have hr := live_of_isOpen hopen
  obtain ⟨st₁, ret, st₂, hfin, hunlink, hst₂⟩ := finalize_unlink prev hr hp (outs r)
  refine ⟨st₂, ?_, hst₂⟩
  obtain ⟨req, hreq⟩ := Option.isSome_iff_exists.1 hr
  have hnot : req.finalized = false := by
    rw [isOpen_some hreq] at hopen
    simpa using hopen
  simp only [pruneTurn, hreq, Option.bind_eq_bind, Option.bind_some, hnot, hreported, Bool.not_false,
    Bool.and_self, if_true, hfin]
  exact hunlink

theorem pruneTurn_pending (hr : (st.node r).isSome) (hreported : reported r = false) :
    st.pruneTurn reported outs prev p r = some st := by
  obtain ⟨req, hreq⟩ := Option.isSome_iff_exists.1 hr
  simp only [pruneTurn, hreq, Option.bind_eq_bind, Option.bind_some, hreported, Bool.and_false,
    Bool.false_eq_true, if_false]

theorem pruneLoop_end {fuel : Nat} (hp : st.HasPlace p) (hlink : st.links p = none) :
    st.pruneLoop reported outs (fuel + 1) prev p = some st := by
  simp only [pruneLoop, read_eq hp, hlink, Option.bind_eq_bind, Option.bind_some]
  rfl

theorem pruneLoop_turn {fuel : Nat} (hp : st.HasPlace p) (hlink : st.links p = some r) :
    st.pruneLoop reported outs (fuel + 1) prev p = (st.pruneTurn reported outs prev p r).bind
      fun st' => st'.pruneLoop reported outs fuel (some r) (some r) := by
  simp only [pruneLoop, read_eq hp, hlink, Option.bind_eq_bind, Option.bind_some]

end Walk

/-! ## The walk -/

/-- The state inside a walk: `kept` are the nodes of the list before the current place, `l` the ones
after it. -/
structure Walking (st : PutClient) (kept l : List Nat) : Prop where
  chain : Links.Chain st.links none (kept ++ l)
  nodup : (kept ++ l).Nodup
  live : ∀ a ∈ kept, (st.node a).isSome
  isOpen : ∀ a ∈ l, st.isOpen a = true

namespace Walking

variable {st st' : PutClient} {kept l : List Nat} {r : Nat} {prev : Option Nat} {out : Option Int32}

theorem hasPlace (h : st.Walking kept l) : st.HasPlace kept.getLast? := fun a ha =>
  h.live a (List.mem_of_getLast? ha)

theorem link (h : st.Walking kept l) : st.links kept.getLast? = l.head? := by
  have hrest := ((Links.chain_append kept l none).1 h.chain).2
  rw [Links.tip_none] at hrest
  exact hrest.head

/-- The link in the node that comes next. -/
theorem link_next (h : st.Walking kept (r :: l)) : st.links (some r) = l.head? := by
  have hrest := ((Links.chain_append kept (r :: l) none).1 h.chain).2
  exact hrest.2.head

theorem next_notMem (h : st.Walking kept (r :: l)) : r ∉ kept ++ l := fun hmem =>
  (List.nodup_cons.1 (List.perm_middle.nodup_iff.1 h.nodup)).1 hmem

theorem split {before : List Nat} (h : st.Walking [] (before ++ l)) : st.Walking before l :=
  ⟨h.chain, h.nodup, fun a ha => live_of_isOpen (h.isOpen a (by simp [ha])),
    fun a ha => h.isOpen a (by simp [ha])⟩

/-- Going on with a node that stays. -/
theorem keep (h : st.Walking kept (r :: l)) : st.Walking (kept ++ [r]) l := by
  have happ : kept ++ [r] ++ l = kept ++ r :: l := by simp
  refine ⟨happ ▸ h.chain, happ ▸ h.nodup, fun a ha => ?_, fun a ha => h.isOpen a (by simp [ha])⟩
  rcases List.mem_append.1 ha with ha | ha
  · exact h.live a ha
  · rw [List.mem_singleton.1 ha]
    exact live_of_isOpen (h.isOpen r (by simp))

theorem isOpen_rest (h : st.Walking kept (r :: l)) {p : Option Nat} (hst : st.Unlinked st' prev p r out) :
    ∀ a ∈ l, st'.isOpen a = true := by
  intro a ha
  have hne : a ≠ r := ne_of_mem_of_not_mem (List.mem_append_right kept ha) h.next_notMem
  have hopen := h.isOpen a (by simp [ha])
  rw [hst.isOpen]
  split
  · rwa [Function.update_of_ne hne]
  · exact hopen

/-- Taking out the node that comes next. -/
theorem unlink (h : st.Walking kept (r :: l)) (hst : st.Unlinked st' prev kept.getLast? r out) :
    st'.Walking kept l := by
  refine ⟨?_, ?_, fun a ha => ?_, h.isOpen_rest hst⟩
  · rw [hst.links]
    exact h.chain.unlink h.nodup
  · exact h.nodup.sublist (List.Sublist.append_left (List.sublist_cons_self r l) kept)
  · rw [hst.same.live]
    exact h.live a ha

/-- The link in the node that was taken out stays. -/
theorem link_unlinked (h : st.Walking kept (r :: l))
    (hst : st.Unlinked st' prev kept.getLast? r out) : st'.links (some r) = l.head? := by
  rw [hst.links, Function.update_of_ne, h.link_next]
  intro heq
  exact h.next_notMem (List.mem_append_left l (List.mem_of_getLast? heq.symm))

theorem last_unlinked (h : st.Walking kept (r :: l)) (hlast : st.putReqsEnd = (kept ++ r :: l).getLast?)
    (hst : st.Unlinked st' kept.getLast? kept.getLast? r out) : st'.putReqsEnd = (kept ++ l).getLast? := by
  rw [hst.last, h.link_next, hlast]
  cases l with
  | nil => simp
  | cons a l => simp [List.getLast?_append]

/-- Changing a link that nobody follows: the node that comes next stays. -/
theorem spare (h : st.Walking kept (r :: l)) {q : Nat} (hq : q ∉ kept ++ r :: l)
    (hst : st.Unlinked st' prev (some q) r out) : st'.Walking (kept ++ [r]) l := by
  have hkeep := h.keep
  refine ⟨?_, hkeep.nodup, fun a ha => ?_, h.isOpen_rest hst⟩
  · refine hkeep.chain.congr ?_ fun a ha => ?_
    · rw [hst.links, Function.update_of_ne (by simp)]
    · have hne : a ≠ q := ne_of_mem_of_not_mem (by simpa using ha) hq
      rw [hst.links, Function.update_of_ne (fun heq => hne (Option.some.inj heq))]
  · rw [hst.same.live]
    exact hkeep.live a ha

end Walking

section Prune

variable (reported : Nat → Bool)

/-- The nodes that stay in the list: a completed one is taken out unless the one before it was. -/
def staying : Bool → List Nat → List Nat
  | _, [] => []
  | stale, r :: l => if !stale && reported r then staying true l else r :: staying false l

/-- The last node is completed, and stays. -/
def lastSpared : Bool → List Nat → Bool
  | _, [] => false
  | stale, r :: l => if l = [] then stale && reported r else lastSpared (!stale && reported r) l

variable {reported}

theorem staying_pending {stale : Bool} {r : Nat} (l : List Nat) (h : reported r = false) :
    staying reported stale (r :: l) = r :: staying reported false l := by
  rw [staying, h, Bool.and_false]
  rfl

theorem staying_taken {r : Nat} (l : List Nat) (h : reported r = true) :
    staying reported false (r :: l) = staying reported true l := by
  rw [staying, h]
  rfl

theorem staying_spared (r : Nat) (l : List Nat) :
    staying reported true (r :: l) = r :: staying reported false l := by
  rw [staying]
  rfl

theorem lastSpared_pending {stale : Bool} {r : Nat} (l : List Nat) (h : reported r = false) :
    lastSpared reported stale (r :: l) = lastSpared reported false l := by
  rw [lastSpared, h, Bool.and_false, Bool.and_false]
  split
  · next hl => rw [hl, lastSpared]
  · rfl

theorem lastSpared_taken {r : Nat} (l : List Nat) (h : reported r = true) :
    lastSpared reported false (r :: l) = lastSpared reported true l := by
  rw [lastSpared, h]
  split
  · next hl => rw [hl, lastSpared, Bool.false_and]
  · rfl

theorem lastSpared_spared (r a : Nat) (l : List Nat) :
    lastSpared reported true (r :: a :: l) = lastSpared reported false (a :: l) := by
  rw [lastSpared, if_neg (List.cons_ne_nil a l)]
  rfl

theorem staying_sublist (l : List Nat) : ∀ stale, (staying reported stale l).Sublist l := by
  induction l with
  | nil =>
      intro stale
      exact List.Sublist.refl _
  | cons r l ih =>
      intro stale
      rw [staying]
      split
      · exact (ih true).cons r
      · exact (ih false).cons_cons r

variable {outs : Nat → Option Int32}

/-- Where the walk is: at the end of the nodes that stay, or in a node that was just taken out. -/
def AtPlace (kept l : List Nat) (p : Option Nat) : Bool → Prop
  | false => p = kept.getLast?
  | true => ∃ q, p = some q ∧ q ∉ kept ++ l

/-- The state after the walk. -/
structure Walked (reported : Nat → Bool) (outs : Nat → Option Int32) (st st' : PutClient) (stale : Bool)
    (kept l : List Nat) : Prop where
  chain : Links.Chain st'.links none (kept ++ staying reported stale l)
  isOpen : ∀ a, st'.isOpen a = (st.isOpen a && !(decide (a ∈ l) && reported a && (outs a).isSome))
  last : lastSpared reported stale l = false →
    st'.putReqsEnd = (kept ++ staying reported stale l).getLast?
  lost : lastSpared reported stale l = true →
    ∃ q, st'.putReqsEnd = some q ∧ (st.node q).isSome ∧ q ∉ kept ++ staying reported stale l
  same : st.SameNodes st'

/-- A turn that takes nothing out. -/
theorem Walked.cons_pending {st st' : PutClient} {stale : Bool} {kept l : List Nat} {r : Nat}
    (h : Walked reported outs st st' false (kept ++ [r]) l) (hreported : reported r = false) :
    Walked reported outs st st' stale kept (r :: l) := by
  have happ : kept ++ staying reported stale (r :: l) = kept ++ [r] ++ staying reported false l := by
    rw [staying_pending l hreported]
    simp
  refine ⟨happ ▸ h.chain, fun a => ?_, ?_, ?_, h.same⟩
  · rw [h.isOpen]
    rcases eq_or_ne a r with rfl | hne
    · simp [hreported]
    · simp [hne]
  · rw [lastSpared_pending l hreported, happ]
    exact h.last
  · rw [lastSpared_pending l hreported, happ]
    exact h.lost

/-- A turn that finds the request completed. -/
theorem Walked.cons_completed {st st₁ st' : PutClient} {stale stale' : Bool} {kept kept' l : List Nat}
    {prev p : Option Nat} {r : Nat} (h : Walked reported outs st₁ st' stale' kept' l)
    (hst₁ : st.Unlinked st₁ prev p r (outs r)) (hreported : reported r = true)
    (happ : kept ++ staying reported stale (r :: l) = kept' ++ staying reported stale' l)
    (hspared : lastSpared reported stale (r :: l) = lastSpared reported stale' l) :
    Walked reported outs st st' stale kept (r :: l) := by
  refine ⟨happ ▸ h.chain, fun a => ?_, ?_, ?_, hst₁.same.trans h.same⟩
  · rw [h.isOpen, hst₁.isOpen]
    rcases eq_or_ne a r with rfl | hne
    · cases hout : outs a with
      | none => simp
      | some ret => simp [hreported]
    · split
      · simp [hne]
      · simp [hne]
  · rw [hspared, happ]
    exact h.last
  · rw [hspared, happ]
    intro hlost
    obtain ⟨q, hend, hlive, hq⟩ := h.lost hlost
    rw [hst₁.same.live] at hlive
    exact ⟨q, hend, hlive, hq⟩

/-- The walk visits every node of the list, whatever it takes out. -/
theorem pruneLoop_spec (reported : Nat → Bool) (outs : Nat → Option Int32) (l : List Nat) :
    ∀ (fuel : Nat) (kept : List Nat) (p : Option Nat) (stale : Bool) (st : PutClient), l.length < fuel →
      st.Walking kept l → st.putReqsEnd = (kept ++ l).getLast? → st.HasPlace p → st.links p = l.head? →
      AtPlace kept l p stale →
      ∃ st', st.pruneLoop reported outs fuel p p = some st' ∧ Walked reported outs st st' stale kept l := by
  induction l with
  | nil =>
      intro fuel kept p stale st hfuel h hlast hp hlink _
      obtain ⟨fuel, rfl⟩ := Nat.exists_eq_succ_of_ne_zero (Nat.ne_of_gt hfuel)
      exact ⟨st, pruneLoop_end hp hlink, h.chain, fun a => by simp, fun _ => hlast, fun hlost => (nomatch hlost),
        fun _ => rfl, rfl, rfl⟩
  | cons r l ih =>
      intro fuel kept p stale st hfuel h hlast hp hlink hplace
      obtain ⟨fuel, rfl⟩ := Nat.exists_eq_succ_of_ne_zero (Nat.ne_of_gt (Nat.zero_lt_of_lt hfuel))
      have hfuel' : l.length < fuel := Nat.lt_of_succ_lt_succ hfuel
      have hopen := h.isOpen r (by simp)
      have hr := live_of_isOpen hopen
      have happ : kept ++ [r] ++ l = kept ++ r :: l := by simp
      rw [pruneLoop_turn hp hlink]
      cases hreported : reported r with
      | false =>
          -- the node stays and is the place for the next turn
          rw [pruneTurn_pending hr hreported]
          obtain ⟨st', hloop, hwalked⟩ := ih fuel (kept ++ [r]) (some r) false st hfuel' h.keep
            (happ.symm ▸ hlast) (fun a ha => Option.some.inj ha ▸ hr) h.link_next (by simp [AtPlace])
          exact ⟨st', hloop, hwalked.cons_pending hreported⟩
      | true =>
          obtain ⟨st₁, hturn, hst₁⟩ := pruneTurn_completed p hopen hreported hp
          rw [hturn]
          have hr₁ : st₁.HasPlace (some r) := fun a ha => by
            rw [hst₁.same.live, ← Option.some.inj ha]
            exact hr
          cases stale with
          | false =>
              -- the node is taken out, and is the place for the next turn all the same
              obtain rfl : p = kept.getLast? := hplace
              obtain ⟨st', hloop, hwalked⟩ := ih fuel kept (some r) true st₁ hfuel' (h.unlink hst₁)
                (h.last_unlinked hlast hst₁) hr₁ (h.link_unlinked hst₁) ⟨r, rfl, h.next_notMem⟩
              exact ⟨st', hloop, hwalked.cons_completed hst₁ hreported
                (by rw [staying_taken l hreported]) (lastSpared_taken l hreported)⟩
          | true =>
              -- the link that is changed is in a node that was taken out
              obtain ⟨q, rfl, hq⟩ := hplace
              have hspared := h.spare hq hst₁
              have hlink₁ : st₁.links (some r) = l.head? := by
                have hlink' := hspared.link
                rwa [List.getLast?_concat] at hlink'
              have happ' : kept ++ staying reported true (r :: l) = kept ++ [r] ++ staying reported false l := by
                rw [staying_spared]
                simp
              cases l with
              | nil =>
                  obtain ⟨fuel, rfl⟩ := Nat.exists_eq_succ_of_ne_zero (Nat.ne_of_gt hfuel')
                  have hend : st₁.putReqsEnd = some q := by
                    have hnext : st.links (some r) = none := h.link_next
                    rw [hst₁.last, if_pos hnext]
                  refine ⟨st₁, pruneLoop_end hr₁ hlink₁, happ' ▸ hspared.chain, fun a => ?_,
                    fun hlost => ?_, fun _ => ⟨q, hend, hp q rfl, hq⟩, hst₁.same⟩
                  · rw [hst₁.isOpen]
                    rcases eq_or_ne a r with rfl | hne
                    · cases hout : outs a with
                      | none => simp
                      | some ret => simp [hreported]
                    · split
                      · simp [hne]
                      · simp [hne]
                  · rw [lastSpared, hreported] at hlost
                    cases hlost
              | cons b l =>
                  have hend : st₁.putReqsEnd = (kept ++ [r] ++ b :: l).getLast? := by
                    rw [hst₁.last, h.link_next, if_neg (by simp), hlast, happ]
                  obtain ⟨st', hloop, hwalked⟩ := ih fuel (kept ++ [r]) (some r) false st₁ hfuel' hspared hend
                    hr₁ hlink₁ (by simp [AtPlace])
                  exact ⟨st', hloop, hwalked.cons_completed hst₁ hreported happ' (lastSpared_spared r b l)⟩

/-- What stays is what is not finalized, and the last node is not spared, iff the walk is right. -/
theorem walkRight_iff (l : List Nat) : ∀ stale, l.Nodup → (WalkRight reported outs stale l ↔
    l.filter (fun a => !(reported a && (outs a).isSome)) = staying reported stale l ∧
      lastSpared reported stale l = false) := by
  induction l with
  | nil =>
      intro stale _
      exact iff_of_true trivial ⟨rfl, rfl⟩
  | cons r l ih =>
      intro stale hnodup
      obtain ⟨hnot, hnodup'⟩ := List.nodup_cons.1 hnodup
      have hgone : ∀ stale', r ∉ staying reported stale' l := fun stale' hmem =>
        hnot ((staying_sublist l stale').subset hmem)
      have hgone' : r ∉ l.filter fun a => !(reported a && (outs a).isSome) := fun hmem =>
        hnot (List.mem_filter.1 hmem).1
      rw [WalkRight, List.filter_cons]
      cases hreported : reported r with
      | false =>
          rw [staying_pending l hreported, lastSpared_pending l hreported]
          simpa using ih false hnodup'
      -- a completed request is finalized iff it has its output, and stays iff the walk is in a node taken out
      | true =>
          cases stale with
          | false =>
              rw [staying_taken l hreported, lastSpared_taken l hreported]
              cases hout : outs r with
              | none =>
                  simp only [if_true, Bool.false_eq_true, if_false, Option.isSome_none, false_and,
                    Bool.and_false, Bool.not_false, false_iff, not_and]
                  intro heq
                  exact absurd (heq ▸ List.mem_cons_self) (hgone true)
              | some ret => simpa using ih true hnodup'
          | true =>
              rw [staying_spared]
              cases hout : outs r with
              | none =>
                  cases l with
                  | nil => simp [lastSpared, hreported]
                  | cons b l =>
                      rw [lastSpared_spared]
                      simpa using ih false hnodup'
              | some ret =>
                  simp only [if_true, reduceCtorEq, false_and, Option.isSome_some, Bool.and_self, Bool.not_true,
                    Bool.false_eq_true, if_false, false_iff, not_and]
                  intro heq
                  exact absurd (heq ▸ List.mem_cons_self) hgone'

/-- With all outputs there, the walk is right iff it finds no two neighbours completed. -/
theorem walkRight_iff_isChain (l : List Nat) (houts : ∀ r ∈ l, reported r = true → (outs r).isSome) :
    (WalkRight reported outs false l ↔ l.IsChain fun r r' => ¬ (reported r = true ∧ reported r' = true)) ∧
      (WalkRight reported outs true l ↔ (∀ r ∈ l.head?, reported r = false) ∧
        l.IsChain fun r r' => ¬ (reported r = true ∧ reported r' = true)) := by
  induction l with
  | nil => simp [WalkRight]
  | cons r l ih =>
      obtain ⟨ihFalse, ihTrue⟩ := ih fun a ha => houts a (by simp [ha])
      have hhead := houts r (by simp)
      rw [WalkRight, WalkRight, List.isChain_cons]
      cases hreported : reported r with
      | false => simp [ihFalse, hreported]
      | true =>
          have hout := hhead hreported
          have hsome : outs r ≠ none := Option.isSome_iff_ne_none.1 hout
          simp [ihTrue, hreported, hout, hsome]

end Prune

theorem pruneRight_iff_spaced {st : PutClient} {c : PutCall} (h : st.OutputsOk c) :
    st.PruneRight c ↔ st.Spaced c := by
  cases c with
  | checkPut => exact Iff.rfl
  | iput check reported outs sent =>
      cases check with
      | false => exact Iff.rfl
      | true => exact (walkRight_iff_isChain st.outstanding h).1

/-! ## What every call keeps -/

/-- Requests are nodes that were allocated, each one once. -/
structure Memory (st : PutClient) : Prop where
  nodup : st.issued.Nodup
  below : ∀ r ∈ st.issued, r < st.fresh
  unused : ∀ r, st.fresh ≤ r → st.node r = none

namespace Memory

variable {st st' : PutClient} {r : Nat}

theorem nodup_outstanding (h : st.Memory) : st.outstanding.Nodup :=
  h.nodup.filter _

/-- A chain is the only one, so that the list is right iff the chain is the one of the outstanding
requests. -/
theorem right_iff (h : st.Memory) {m : List Nat} (hchain : Links.Chain st.links none m) :
    st.Right ↔ st.outstanding = m ∧ st.putReqsEnd = m.getLast? := by
  constructor
  · intro hright
    have hsame := hright.chain.unique hchain
    exact ⟨hsame, hsame ▸ hright.last⟩
  · rintro ⟨hsame, hlast⟩
    exact ⟨h.nodup_outstanding, hsame ▸ hchain, hsame ▸ hlast⟩

/-- The list is shorter than the number of nodes that were allocated. -/
theorem length_lt (h : st.Memory) : st.outstanding.length < st.fresh + 1 := by
  have hsub : st.outstanding ⊆ List.range st.fresh := fun a ha =>
    List.mem_range.2 (h.below a (List.mem_filter.1 ha).1)
  have hle := (List.Nodup.subperm h.nodup_outstanding hsub).length_le
  rw [List.length_range] at hle
  exact Nat.lt_succ_of_le hle

theorem of_sameNodes (h : st.Memory) (hsame : st.SameNodes st') : st'.Memory := by
  refine ⟨hsame.issued ▸ h.nodup, ?_, fun r hr => ?_⟩
  · rw [hsame.issued, hsame.fresh]
    exact h.below
  · rw [hsame.fresh] at hr
    have hlive := hsame.live r
    rw [h.unused r hr] at hlive
    simpa using hlive

theorem freeReq (h : st.Memory) (r : Nat) : (st.freeReq r).Memory := by
  refine ⟨h.nodup, h.below, fun a ha => ?_⟩
  rcases eq_or_ne a r with rfl | hne
  · exact Function.update_self _ _ _
  · exact (Function.update_of_ne hne _ _).trans (h.unused a ha)

end Memory

/-- `calloc` in `dspaces_iput`. -/
def alloc (st : PutClient) : PutClient :=
  { st.setNode st.fresh (some ⟨none, false, 0⟩) with fresh := st.fresh + 1 }

theorem outstanding_congr {st st' : PutClient} (hissued : st'.issued = st.issued)
    (hopen : ∀ a ∈ st.issued, st'.isOpen a = st.isOpen a) : st'.outstanding = st.outstanding := by
  rw [outstanding, outstanding, hissued]
  exact List.filter_congr hopen

section Alloc

variable {st : PutClient}

theorem links_alloc (st : PutClient) : st.alloc.links = Function.update st.links (some st.fresh) none :=
  links_setNode st st.fresh _

theorem isOpen_alloc (st : PutClient) : st.alloc.isOpen = Function.update st.isOpen st.fresh true :=
  isOpen_setNode st st.fresh _

theorem Memory.alloc (h : st.Memory) : st.alloc.Memory := by
  refine ⟨h.nodup, fun a ha => Nat.lt_succ_of_lt (h.below a ha), fun a ha => ?_⟩
  have hlt : st.fresh < a := ha
  exact (Function.update_of_ne (Nat.ne_of_gt hlt) _ _).trans (h.unused a hlt.le)

theorem Memory.outstanding_alloc (h : st.Memory) : st.alloc.outstanding = st.outstanding :=
  outstanding_congr rfl fun a ha => by
    rw [isOpen_alloc, Function.update_of_ne (Nat.ne_of_lt (h.below a ha))]

theorem chain_alloc {m : List Nat} (hchain : Links.Chain st.links none m) (hm : ∀ a ∈ m, a ≠ st.fresh) :
    Links.Chain st.alloc.links none m := by
  rw [links_alloc]
  refine hchain.congr (Function.update_of_ne (by simp) _ _).symm fun a ha => ?_
  exact (Function.update_of_ne (fun heq => hm a ha (Option.some.inj heq)) _ _).symm

theorem appendReq_eq (hp : st.HasPlace st.putReqsEnd) (r : Nat) :
    ∃ st', st.appendReq r = some st' ∧ st'.links = Function.update st.links st.putReqsEnd (some r) ∧
      st'.isOpen = st.isOpen ∧ st'.putReqsEnd = some r ∧ st.SameNodes st' := by
  obtain ⟨st', hwrite, hst'⟩ := write_spec hp (some r)
  cases hend : st.putReqsEnd with
  | none =>
      rw [hend] at hwrite hst'
      cases hwrite
      refine ⟨{ st with putReqs := some r, putReqsEnd := some r }, ?_, hst'.links, rfl, rfl, fun _ => rfl, rfl,
        rfl⟩
      rw [appendReq, hend]
  | some last =>
      rw [hend] at hwrite hst'
      refine ⟨{ st' with putReqsEnd := some r }, ?_, hst'.links, hst'.isOpen, rfl, hst'.same.live,
        hst'.same.fresh, hst'.same.issued⟩
      rw [appendReq, hend]
      simp only [hwrite, Option.map_some]

/-- The list that starts at `put_reqs`, which need not be the right one. -/
structure Listed (st : PutClient) (m : List Nat) : Prop where
  chain : Links.Chain st.links none m
  nodup : m.Nodup
  issued : ∀ a ∈ m, a ∈ st.issued
  live : ∀ a ∈ m, (st.node a).isSome
  last : st.putReqsEnd = m.getLast? ∨ ∃ q, st.putReqsEnd = some q ∧ (st.node q).isSome ∧ q ∉ m

/-- A new request makes no list right that was wrong, and none wrong that was right. -/
theorem Memory.append (h : st.Memory) {m : List Nat} (hm : st.Listed m) :
    ∃ st', st.alloc.appendReq st.fresh = some st' ∧
      Memory { st' with issued := st'.issued ++ [st.fresh] } ∧
      (Right { st' with issued := st'.issued ++ [st.fresh] } ↔ st.Right) := by
  have hnew := h.alloc
  have hne : ∀ a ∈ m, a ≠ st.fresh := fun a ha => Nat.ne_of_lt (h.below a (hm.issued a ha))
  have hfresh : st.fresh ∉ m := fun hmem => hne _ hmem rfl
  have hissued : st.fresh ∉ st.issued := fun hmem => Nat.lt_irrefl _ (h.below _ hmem)
  have hplace : st.alloc.HasPlace st.alloc.putReqsEnd := by
    intro a ha
    have hlive : (st.node a).isSome := by
      rcases hm.last with hlast | ⟨q, hend, hlive, -⟩
      · exact hm.live a (List.mem_of_getLast? (hlast.symm.trans ha))
      · rwa [← Option.some.inj (hend.symm.trans ha)]
    have hlt : a ≠ st.fresh := fun heq => by
      rw [heq, h.unused _ le_rfl] at hlive
      cases hlive
    rw [show st.alloc.node a = st.node a from Function.update_of_ne hlt _ _]
    exact hlive
  obtain ⟨st', happend, hlinks, hisOpen, hend, hsame⟩ := appendReq_eq hplace st.fresh
  -- the new request is open, so that one more is outstanding
  have hout : outstanding { st' with issued := st'.issued ++ [st.fresh] } = st.outstanding ++ [st.fresh] := by
    have hold := h.outstanding_alloc
    rw [outstanding, outstanding] at hold
    rw [outstanding, outstanding, List.filter_append, hsame.issued, ← hold]
    refine congr_arg₂ _ (List.filter_congr fun a _ => congrFun hisOpen a) ?_
    refine List.filter_eq_self.2 fun a ha => ?_
    rw [List.mem_singleton.1 ha]
    refine (congrFun hisOpen _).trans ?_
    rw [isOpen_alloc, Function.update_self]
  have hmemory : Memory { st' with issued := st'.issued ++ [st.fresh] } := by
    have hst' := hnew.of_sameNodes hsame
    refine ⟨?_, fun a ha => ?_, hst'.unused⟩
    · rw [hsame.issued]
      exact List.nodup_append.2 ⟨h.nodup, List.nodup_singleton _, fun a ha b hb heq =>
        hissued (by rw [← List.mem_singleton.1 hb, ← heq]; exact ha)⟩
    · show a < st'.fresh
      rcases List.mem_append.1 ha with ha | ha
      · exact hst'.below a ha
      · rw [List.mem_singleton.1 ha, hsame.fresh]
        exact Nat.lt_succ_self _
  refine ⟨st', happend, hmemory, ?_⟩
  have hchain' := chain_alloc hm.chain hne
  rcases hm.last with hlast | ⟨q, hq, -, hqm⟩
  · -- the new node comes behind the last one
    have hlink : st.alloc.links (some st.fresh) = none := by
      rw [links_alloc, Function.update_self]
    have hsnoc := hchain'.snoc hm.nodup hfresh hlink
    have hwrite : Function.update st.alloc.links m.getLast? (some st.fresh) = st'.links := by
      rw [hlinks, ← hlast]
      rfl
    rw [hwrite] at hsnoc
    rw [hmemory.right_iff hsnoc, h.right_iff hm.chain, hout]
    constructor
    · rintro ⟨hsplit, -⟩
      exact ⟨(List.append_inj' hsplit rfl).1, hlast⟩
    · rintro ⟨hsplit, -⟩
      rw [hsplit, List.getLast?_concat]
      exact ⟨rfl, hend⟩
  · -- the new node comes behind one that is not in the list, and is not in the list either
    have hkeep : ∀ p, p ≠ some q → st.alloc.links p = st'.links p := by
      intro p hp
      have hq' : st.alloc.putReqsEnd = some q := hq
      rw [hlinks, hq', Function.update_of_ne hp]
    have hkept : Links.Chain st'.links none m := by
      refine hchain'.congr (hkeep none (by simp)) fun a ha => hkeep _ fun heq => ?_
      exact hqm (Option.some.inj heq ▸ ha)
    rw [hmemory.right_iff hkept, h.right_iff hm.chain, hout]
    refine iff_of_false (fun hright => hfresh (hright.1 ▸ by simp)) fun hright => ?_
    have hmem := List.mem_of_getLast? (hq.symm.trans hright.2).symm
    exact hqm hmem

end Alloc

/-- The list is right. -/
structure Ok (st : PutClient) : Prop extends Memory st where
  right : st.Right

theorem ok_init : init.Ok := by
  refine ⟨⟨List.nodup_nil, fun r hr => ?_, fun _ _ => rfl⟩, List.nodup_nil, rfl, rfl⟩
  exact absurd hr List.not_mem_nil

theorem isOpen_freeReq (st : PutClient) (r : Nat) :
    (st.freeReq r).isOpen = Function.update st.isOpen r false :=
  isOpen_setNode st r none

/-- A node is freed that is not in the list. -/
theorem chain_freeReq {st : PutClient} {r : Nat} {m : List Nat} (hchain : Links.Chain st.links none m)
    (hr : r ∉ m) : Links.Chain (st.freeReq r).links none m := by
  refine hchain.congr rfl fun a ha => ?_
  have hne : a ≠ r := ne_of_mem_of_not_mem ha hr
  simp [links, read, freeReq, setNode, hne]

/-- The walk of `dspaces_check_put` stops at the link to the request. -/
theorem findReq_eq {req : Nat} (before after : List Nat) : ∀ (fuel : Nat) (kept : List Nat) {st : PutClient},
    before.length < fuel → st.Walking kept (before ++ req :: after) →
    st.findReq req fuel kept.getLast? kept.getLast? =
      some ((kept ++ before).getLast?, (kept ++ before).getLast?) := by
  induction before with
  | nil =>
      intro fuel kept st hfuel h
      obtain ⟨fuel, rfl⟩ := Nat.exists_eq_succ_of_ne_zero (Nat.ne_of_gt hfuel)
      simp [findReq, read_eq h.hasPlace, h.link]
  | cons a before ih =>
      intro fuel kept st hfuel h
      obtain ⟨fuel, rfl⟩ := Nat.exists_eq_succ_of_ne_zero (Nat.ne_of_gt (Nat.zero_lt_of_lt hfuel))
      have hne : a ≠ req := by
        intro heq
        have hnodup := List.Nodup.of_append_right h.nodup
        rw [List.cons_append, List.nodup_cons, heq] at hnodup
        exact hnodup.1 (by simp)
      have hlink : st.links kept.getLast? = some a := h.link
      have hrest := ih fuel (kept ++ [a]) (Nat.lt_of_succ_lt_succ hfuel) h.keep
      rw [List.getLast?_concat] at hrest
      rw [findReq, read_eq h.hasPlace]
      simp only [hlink, Option.bind_eq_bind, Option.bind_some, hne, if_false, hrest]
      simp

namespace Ok

variable {st : PutClient} {r : Nat}

theorem walking (h : st.Ok) : st.Walking [] st.outstanding :=
  ⟨h.right.chain, h.nodup_outstanding, fun _ ha => absurd ha List.not_mem_nil,
    fun _ ha => (List.mem_filter.1 ha).2⟩

/-- The walk of `dspaces_iput`. -/
theorem pruneLoop (h : st.Ok) (reported : Nat → Bool) (outs : Nat → Option Int32) :
    ∃ st' m, PutClient.pruneLoop reported outs (st.fresh + 1) none none st = some st' ∧ st'.Memory ∧
      st'.Listed m ∧ (st'.Right ↔ WalkRight reported outs false st.outstanding) := by
  obtain ⟨st', hloop, hwalked⟩ := pruneLoop_spec reported outs st.outstanding (st.fresh + 1) [] none false st h.length_lt
    h.walking h.right.last (fun _ ha => nomatch ha) h.walking.link rfl
  have hsub : (staying reported false st.outstanding).Sublist st.outstanding := staying_sublist _ _
  have hmemory := h.toMemory.of_sameNodes hwalked.same
  have hlisted : st'.Listed (staying reported false st.outstanding) := by
    refine ⟨hwalked.chain, h.nodup_outstanding.sublist hsub, fun a ha => ?_, fun a ha => ?_, ?_⟩
    · rw [hwalked.same.issued]
      exact (List.mem_filter.1 (hsub.subset ha)).1
    · rw [hwalked.same.live]
      exact live_of_isOpen (List.mem_filter.1 (hsub.subset ha)).2
    · cases hspared : lastSpared reported false st.outstanding with
      | false => exact Or.inl (hwalked.last hspared)
      | true =>
          obtain ⟨q, hend, hlive, hq⟩ := hwalked.lost hspared
          rw [← hwalked.same.live] at hlive
          exact Or.inr ⟨q, hend, hlive, hq⟩
  -- a request is no longer outstanding iff it was finalized
  have hout : st'.outstanding = st.outstanding.filter fun a => !(reported a && (outs a).isSome) := by
    rw [outstanding, outstanding, hwalked.same.issued, List.filter_filter]
    refine List.filter_congr fun a ha => ?_
    rw [hwalked.isOpen]
    cases hopen : st.isOpen a with
    | false => simp
    | true =>
        have hmem : a ∈ st.outstanding := List.mem_filter.2 ⟨ha, hopen⟩
        simp [hmem]
  -- the end is right unless the last request was found completed and stays
  have hend : st'.putReqsEnd = (staying reported false st.outstanding).getLast? ↔
      lastSpared reported false st.outstanding = false := by
    constructor
    · intro hlast
      by_contra hspared
      obtain ⟨q, hq, -, hnot⟩ := hwalked.lost (by simpa using hspared)
      exact hnot (List.mem_of_getLast? (hq.symm.trans hlast).symm)
    · exact hwalked.last
  refine ⟨st', _, hloop, hmemory, hlisted, ?_⟩
  rw [hmemory.right_iff hwalked.chain, walkRight_iff _ _ h.nodup_outstanding, hout]
  exact and_congr_right fun _ => hend

theorem listed (h : st.Ok) : st.Listed st.outstanding :=
  ⟨h.right.chain, h.nodup_outstanding, fun _ ha => (List.mem_filter.1 ha).1,
    fun _ ha => live_of_isOpen (List.mem_filter.1 ha).2, Or.inl h.right.last⟩

/-- `dspaces_iput` leaves a right list iff its walk is right. -/
theorem iput (h : st.Ok) (check sent : Bool) (reported : Nat → Bool) (outs : Nat → Option Int32) :
    ∃ st' ret, st.iput check reported outs sent = some (st', ret) ∧ st'.Memory ∧
      (st'.Right ↔ st.PruneRight (.iput check reported outs sent)) := by
  have hprune : ∃ st₁ m, st.prune reported outs check = some st₁ ∧ st₁.Memory ∧ st₁.Listed m ∧
      (st₁.Right ↔ st.PruneRight (.iput check reported outs sent)) := by
    cases check with
    | false => exact ⟨st, _, rfl, h.toMemory, h.listed, iff_of_true h.right trivial⟩
    | true => exact h.pruneLoop reported outs
  obtain ⟨st₁, m, hpruned, hmemory, hlisted, hright⟩ := hprune
  cases sent with
  | false =>
      -- the node is allocated and not put into the list
      have hne : ∀ a ∈ m, a ≠ st₁.fresh := fun a ha => Nat.ne_of_lt (hmemory.below a (hlisted.issued a ha))
      refine ⟨st₁.alloc, none, ?_, hmemory.alloc, ?_⟩
      · simp only [PutClient.iput, hpruned, Option.bind_eq_bind, Option.bind_some, Bool.false_eq_true, if_false]
        rfl
      · rw [← hright, hmemory.alloc.right_iff (chain_alloc hlisted.chain hne), hmemory.right_iff hlisted.chain,
          hmemory.outstanding_alloc]
        rfl
  | true =>
      obtain ⟨st₂, happend, hmemory₂, hright₂⟩ := hmemory.append hlisted
      refine ⟨_, some st₁.fresh, ?_, hmemory₂, hright₂.trans hright⟩
      rw [alloc] at happend
      simp only [PutClient.iput, hpruned, Option.bind_eq_bind, Option.bind_some, if_true, happend]
      rfl

/-- A request that is finalized is freed. -/
theorem checkPut_finalized (h : st.Ok) {req : PutReq} (hreq : st.node r = some req)
    (hfinal : req.finalized = true) : (st.freeReq r).Ok := by
  have hclosed : st.isOpen r = false := by
    rw [isOpen_some hreq, hfinal]
    rfl
  have hopen : (st.freeReq r).isOpen = st.isOpen := by
    rw [isOpen_freeReq, Function.update_eq_self_iff, hclosed]
  have hnot : r ∉ st.outstanding := fun hmem => by
    rw [h.walking.isOpen r hmem] at hclosed
    cases hclosed
  have hmemory := h.toMemory.freeReq r
  refine ⟨hmemory, (hmemory.right_iff (chain_freeReq h.right.chain hnot)).2 ⟨?_, h.right.last⟩⟩
  exact outstanding_congr rfl fun a _ => congrFun hopen a

/-- A request that is completed is taken out and freed. -/
theorem checkPut_completed (h : st.Ok) (hr : r ∈ st.issued) (hopen : st.isOpen r = true)
    (out : Option Int32) :
    ∃ prev p st₁ ret st₂, st.findReq r (st.fresh + 1) none none = some (prev, p) ∧
      st.finalizeReq r out = some (st₁, ret) ∧ st₁.unlinkReq prev p r = some st₂ ∧ (st₂.freeReq r).Ok := by
  -- the request is in the list, between `before` and `after`
  obtain ⟨before, after, hsplit⟩ := List.append_of_mem (List.mem_filter.2 ⟨hr, hopen⟩)
  have hsplit : st.outstanding = before ++ r :: after := hsplit
  have hwalk : st.Walking [] (before ++ r :: after) := hsplit ▸ h.walking
  have hat := hwalk.split
  have hfuel : before.length < st.fresh + 1 := by
    have hlen := h.length_lt
    rw [hsplit, List.length_append] at hlen
    omega
  have hfind := findReq_eq before after (st.fresh + 1) [] hfuel hwalk
  obtain ⟨st₁, ret, st₂, hfin, hunlink, hst₂⟩ :=
    finalize_unlink before.getLast? (live_of_isOpen hopen) hat.hasPlace out
  -- without its output the request is open, and freed all the same
  have hclosed : (st₂.freeReq r).isOpen = Function.update st.isOpen r false := by
    rw [isOpen_freeReq, hst₂.isOpen]
    split
    · rw [Function.update_idem]
    · rfl
  have hout : (st₂.freeReq r).outstanding = before ++ after := by
    have hissued : (st₂.freeReq r).issued = st.issued := hst₂.same.issued
    have hfilter : (st₂.freeReq r).outstanding = st.outstanding.filter fun a => a ≠ r := by
      rw [outstanding, outstanding, hissued, List.filter_filter]
      refine List.filter_congr fun a _ => ?_
      rw [hclosed]
      rcases eq_or_ne a r with rfl | hne
      · simp
      · simp [hne]
    have hnot := hat.next_notMem
    rw [List.mem_append, not_or] at hnot
    rw [hfilter, hsplit, List.filter_append, List.filter_cons]
    simp only [ne_eq, not_true_eq_false, decide_false, Bool.false_eq_true, if_false]
    exact congr_arg₂ _ (List.filter_eq_self.2 fun a ha => by simpa using ne_of_mem_of_not_mem ha hnot.1)
      (List.filter_eq_self.2 fun a ha => by simpa using ne_of_mem_of_not_mem ha hnot.2)
  have hmemory := (h.toMemory.of_sameNodes hst₂.same).freeReq r
  have hchain := chain_freeReq (hat.unlink hst₂).chain hat.next_notMem
  refine ⟨before.getLast?, before.getLast?, st₁, ret, st₂, hfind, hfin, hunlink, hmemory, ?_⟩
  have hend : st₂.putReqsEnd = (before ++ after).getLast? :=
    hat.last_unlinked (hsplit ▸ h.right.last) hst₂
  exact (hmemory.right_iff hchain).2 ⟨hout, hend⟩

/-- `dspaces_check_put`. -/
theorem checkPut (h : st.Ok) {progress : Progress} {out : Option Int32}
    (hlegal : st.Legal (.checkPut r progress out)) :
    ∃ st' ret, st.checkPut r progress out = some (st', ret) ∧ st'.Ok := by
  obtain ⟨req, hreq⟩ := Option.isSome_iff_exists.1 hlegal.2
  cases hfinal : req.finalized with
  | true =>
      refine ⟨_, req.ret, ?_, h.checkPut_finalized hreq hfinal⟩
      simp only [PutClient.checkPut, hreq, Option.bind_eq_bind, Option.bind_some, hfinal, if_true]
      rfl
  | false =>
      cases hprogress : progress.completed with
      | false =>
          refine ⟨st, progress.value, ?_, h⟩
          simp only [PutClient.checkPut, hreq, Option.bind_eq_bind, Option.bind_some, hfinal, hprogress,
            Bool.false_eq_true, if_false]
          rfl
      | true =>
          have hopen : st.isOpen r = true := by
            rw [isOpen_some hreq, hfinal]
            rfl
          obtain ⟨prev, p, st₁, ret, st₂, hfind, hfin, hunlink, hok⟩ :=
            h.checkPut_completed hlegal.1 hopen out
          refine ⟨_, progress.result ret, ?_, hok⟩
          simp only [PutClient.checkPut, hreq, Option.bind_eq_bind, Option.bind_some, hfinal, hprogress,
            Bool.false_eq_true, if_false, if_true, hfind, hfin, hunlink]
          rfl

/-- A legal call returns, and leaves a right list iff the walk in it is right. -/
theorem call (h : st.Ok) {c : PutCall} (hlegal : st.Legal c) :
    ∃ st', st.call c = some st' ∧ st'.Memory ∧ (st'.Right ↔ st.PruneRight c) := by
  cases c with
  | iput check reported outs sent =>
      obtain ⟨st', ret, hcall, hmemory, hright⟩ := h.iput check sent reported outs
      refine ⟨st', ?_, hmemory, hright⟩
      rw [PutClient.call, hcall]
      rfl
  | checkPut req progress out =>
      obtain ⟨st', ret, hcall, hok⟩ := h.checkPut hlegal
      refine ⟨st', ?_, hok.toMemory, iff_of_true hok.right trivial⟩
      rw [PutClient.call, hcall]
      rfl

end Ok

/-! ## Main results -/

/-- Every call of a run returns with a right list exactly if every walk is right. -/
theorem outstanding_puts_iff {calls : List PutCall} (hlegal : Runs.Along run Legal calls init) :
    Runs.Along run (fun st c => ∃ st', st.call c = some st' ∧ st'.Right) calls init ↔
      Runs.Along run PruneRight calls init := by
  refine (Runs.isRun_foldlM call).along_iff_along (P := Ok) (fun st c hok hlegal => ?_)
    (fun st c st' hok hlegal hright hcall => ?_) calls init ok_init hlegal
  · obtain ⟨st', hcall, -, hright⟩ := hok.call hlegal
    rw [← hright, hcall]
    simp
  · obtain ⟨st₁, hcall₁, hmemory, hright₁⟩ := hok.call hlegal
    obtain rfl : st' = st₁ := Option.some.inj (hcall.symm.trans hcall₁)
    exact ⟨hmemory, hright₁.2 hright⟩

/-- Three puts, of which the third finds the first completed, and a check of the second. -/
def spacedCalls : List PutCall :=
  [.iput false (fun _ => false) (fun _ => some 0) true, .iput false (fun _ => false) (fun _ => some 0) true,
    .iput true (fun r => r == 0) (fun _ => some 0) true, .checkPut 1 (.wait 0) (some 0)]

theorem legal_spacedCalls : Runs.Along run Legal spacedCalls init := by
  have hrun := Runs.isRun_foldlM call
  refine hrun.along_cons trivial rfl (hrun.along_cons trivial rfl (hrun.along_cons trivial rfl ?_))
  exact hrun.along_cons ⟨by decide, by decide⟩ rfl (Runs.along_nil _)

theorem pruneRight_spacedCalls : Runs.Along run PruneRight spacedCalls init := by
  have hrun := Runs.isRun_foldlM call
  refine hrun.along_cons trivial rfl (hrun.along_cons trivial rfl (hrun.along_cons ?_ rfl ?_))
  · refine (pruneRight_iff_spaced ?_).2 ?_
    · intro r _ _
      rfl
    · show List.IsChain _ [0, 1]
      simp
  · exact hrun.along_cons trivial rfl (Runs.along_nil _)

theorem outstanding_puts_spacedCalls :
    Runs.Along run (fun st c => ∃ st', st.call c = some st' ∧ st'.Right) spacedCalls init :=
  (outstanding_puts_iff legal_spacedCalls).2 pruneRight_spacedCalls

/-- Two puts are both completed when a third one is made: the second one stays in the list, and the third
one is behind the first. -/
theorem outstanding_puts_pair :
    ∃ st, run [.iput false (fun _ => false) (fun _ => some 0) true,
        .iput false (fun _ => false) (fun _ => some 0) true,
        .iput true (fun _ => true) (fun _ => some 0) true] init = some st ∧
      st.outstanding = [2] ∧ st.putReqs = some 1 ∧ st.links (some 1) = none ∧ ¬ st.Right := by
  refine ⟨_, rfl, by decide, by decide, by decide, fun hright => ?_⟩
  have hfirst := hright.chain.1
  exact absurd hfirst (by decide)

end PutClient

end DataSpaces
