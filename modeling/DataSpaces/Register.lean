import DataSpaces.Lib.Runs
import DataSpaces.Broadcast

/-!
# Register — registrations at all servers (`reg_rpc`)

A registration goes to all servers along the same heap as other broadcasts.  The first server draws the
id of the registration and passes it on in the message; every handler waits for the replies of the
servers it passed the message to before it processes the registration itself.  The message is passed on
as it came in, source included, so that every server takes it for a request of a client.
-/

namespace DataSpaces

/-- `reg_in_t`. -/
structure RegIn where
  type : CStr
  name : CStr
  regData : CStr
  src : Int
  id : UInt64

/-- A handler of `reg_rpc`: it waits for replies until it processes the registration.  `caller` is the
number of the handler that waits for its reply; a client waits for the first one. -/
structure RegCall where
  rank : Int
  regIn : RegIn
  caller : Option Nat
  waiting : Nat
  finished : Bool

/-- A request on its way. -/
structure RegRequest where
  dest : Int
  regIn : RegIn
  caller : Option Nat

/-- The servers' counters, the handlers by number, the requests and replies on their way, and what was
given to `route_registration` at which rank. -/
structure RegNet where
  localRegId : Int → Int32
  calls : List RegCall
  requests : List RegRequest
  replies : List (Option Nat)
  processed : List (Int × RegIn)

/-- The id that a server draws. -/
def drawId (localRegId : Int32) (rank : Int) : UInt64 :=
  UInt64.ofInt localRegId.toInt + (UInt64.ofInt rank <<< 40)

/-- What can happen next: a request arrives, a handler has all its replies, a reply arrives. -/
inductive RegEvent
  | receive (k : Nat)
  | finish (c : Nat)
  | reply (k : Nat)

/-- `reg_rpc` up to the point where it waits for replies. -/
def RegNet.regRpc (sizeSp : Int) (s : RegNet) (req : RegRequest) : RegNet :=
  let rank := req.dest
  -- only a request of a client draws an id
  let regIn := if req.regIn.src = -1 then
      { req.regIn with id := drawId (s.localRegId rank) rank }
    else req.regIn
  let localRegId := if req.regIn.src = -1 then
      Function.update s.localRegId rank (s.localRegId rank + 1)
    else s.localRegId
  -- the message that goes on is the one that came in
  let targets := ibcastTargets sizeSp rank regIn.src
  { s with
    localRegId := localRegId
    calls := s.calls ++ [⟨rank, regIn, req.caller, targets.length, false⟩]
    requests := s.requests ++ targets.map fun dest => ⟨dest, regIn, some s.calls.length⟩ }

def RegNet.step (sizeSp : Int) (s : RegNet) : RegEvent → Option RegNet
  | .receive k =>
      s.requests[k]?.map fun req =>
        RegNet.regRpc sizeSp { s with requests := s.requests.eraseIdx k } req
  | .finish c =>
      s.calls[c]?.bind fun call =>
        -- the handler answers when all its children have answered
        if call.waiting = 0 ∧ call.finished = false then
          some { s with
            calls := s.calls.set c { call with finished := true }
            replies := s.replies ++ [call.caller]
            processed := s.processed ++ [(call.rank, call.regIn)] }
        else none
  | .reply k =>
      s.replies[k]?.map fun
        | none => { s with replies := s.replies.eraseIdx k }
        | some c =>
            { s with
              replies := s.replies.eraseIdx k
              calls := s.calls.modify c fun call => { call with waiting := call.waiting - 1 } }

def RegNet.run (sizeSp : Int) : List RegEvent → RegNet → Option RegNet
  | [], s => some s
  | ev :: evs, s => (s.step sizeSp ev).bind (RegNet.run sizeSp evs)

/-- A client's registration on its way to the server `r`. -/
def RegNet.init (localRegId : Int → Int32) (r : Nat) (regIn : RegIn) : RegNet where
  localRegId := localRegId
  calls := []
  requests := [⟨r, { regIn with src := -1 }, none⟩]
  replies := []
  processed := []

/-- In every run each server processes the registration at most once and with the id that the first
server drew, and whatever has happened, all servers can still come to process it. -/
def RegAgrees (sizeSp : Nat) (localRegId : Int → Int32) (r : Nat) (regIn : RegIn) : Prop :=
  ∀ evs s, (RegNet.init localRegId r regIn).run sizeSp evs = some s →
    ((s.processed.map Prod.fst).Nodup ∧ ∀ p ∈ s.processed, p.2.id = drawId (localRegId r) r) ∧
    ∃ evs' s', s.run sizeSp evs' = some s' ∧
      ∀ rank : Int, 0 ≤ rank → rank < sizeSp → rank ∈ s'.processed.map Prod.fst

/-! ## More than one server -/

/-- A server that takes the message for a client's passes it on to somebody. -/
theorem ibcastTargets_ne_nil {sizeSp : Nat} (hsize : 1 < sizeSp) {rank : Int} (h0 : 0 ≤ rank)
    (hlt : rank < sizeSp) : ibcastTargets sizeSp rank (-1) ≠ [] := by
  have hcast : ((rank.toNat : Nat) : Int) = rank := by omega
  have hv : rank.toNat < sizeSp := by omega
  -- to the parent, or from rank 0 to the first child
  rcases Nat.eq_zero_or_pos rank.toNat with hz | hpos
  · have hmem : (1 : Int) ∈ ibcastTargets sizeSp rank.toNat (-1) :=
      (mem_ibcastTargets_down hv (Or.inl rfl)).2 (Or.inr ⟨by omega, by omega, by omega⟩)
    rw [hcast] at hmem
    exact List.ne_nil_of_mem hmem
  · have hmem : (heapParent rank.toNat : Int) ∈ ibcastTargets sizeSp rank.toNat (-1) :=
      (mem_ibcastTargets_down hv (Or.inl rfl)).2 (Or.inl ⟨hpos, rfl⟩)
    rw [hcast] at hmem
    exact List.ne_nil_of_mem hmem

/-- Every handler waits, and every message on its way looks like a client's. -/
structure RegNet.Stuck (sizeSp : Nat) (s : RegNet) : Prop where
  waiting : ∀ call ∈ s.calls, 0 < call.waiting
  requests : ∀ req ∈ s.requests, req.regIn.src = -1 ∧ 0 ≤ req.dest ∧ req.dest < sizeSp
  replies : s.replies = []
  processed : s.processed = []

theorem mem_ibcastTargets_rank {sizeSp : Nat} {rank dest : Int} (h0 : 0 ≤ rank) (hlt : rank < sizeSp)
    (h : dest ∈ ibcastTargets sizeSp rank (-1)) : 0 ≤ dest ∧ dest < sizeSp := by
  have hcast : ((rank.toNat : Nat) : Int) = rank := by omega
  rw [← hcast, mem_ibcastTargets_down (by omega) (Or.inl rfl)] at h
  have hle : heapParent rank.toNat ≤ rank.toNat := by
    rw [heapParent]
    omega
  omega

theorem RegNet.Stuck.step {sizeSp : Nat} (hsize : 1 < sizeSp) {s s' : RegNet} (h : s.Stuck sizeSp)
    {ev : RegEvent} (hstep : s.step sizeSp ev = some s') : s'.Stuck sizeSp := by
  cases ev with
  | receive k =>
      rcases Option.map_eq_some_iff.1 hstep with ⟨req, hreq, rfl⟩
      rcases h.requests req (List.mem_of_getElem? hreq) with ⟨hsrc, h0, hlt⟩
      have hne := ibcastTargets_ne_nil hsize h0 hlt
      simp only [RegNet.regRpc, hsrc, if_true]
      refine ⟨fun call hcall => ?_, fun req' hreq' => ?_, h.replies, h.processed⟩
      · rcases List.mem_append.1 hcall with hcall | hcall
        · exact h.waiting call hcall
        · rw [List.mem_singleton.1 hcall]
          exact List.length_pos_iff.2 hne
      · rcases List.mem_append.1 hreq' with hreq' | hreq'
        · exact h.requests req' (List.mem_of_mem_eraseIdx hreq')
        · rcases List.mem_map.1 hreq' with ⟨dest, hdest, rfl⟩
          exact ⟨rfl, mem_ibcastTargets_rank h0 hlt hdest⟩
  | finish c =>
      -- no handler has all its replies
      rcases Option.bind_eq_some_iff.1 hstep with ⟨call, hcall, hfin⟩
      have hwait := h.waiting call (List.mem_of_getElem? hcall)
      rw [if_neg (by omega)] at hfin
      cases hfin
  | reply k =>
      rcases Option.map_eq_some_iff.1 hstep with ⟨caller, hcaller, -⟩
      rw [h.replies] at hcaller
      simp at hcaller

theorem RegNet.isRun (sizeSp : Int) : Runs.IsRun (RegNet.step sizeSp) (RegNet.run sizeSp) :=
  ⟨fun _ => rfl, fun _ _ _ => rfl⟩

theorem RegNet.Stuck.run {sizeSp : Nat} (hsize : 1 < sizeSp) (evs : List RegEvent) :
    ∀ s s' : RegNet, s.Stuck sizeSp → s.run sizeSp evs = some s' → s'.Stuck sizeSp :=
  (RegNet.isRun sizeSp).keeps (fun _ _ _ h hstep => h.step hsize hstep) evs

/-- With more than one server the registration is never processed. -/
theorem not_regAgrees {sizeSp r : Nat} (hsize : 1 < sizeSp) (hr : r < sizeSp)
    (localRegId : Int → Int32) (regIn : RegIn) : ¬ RegAgrees sizeSp localRegId r regIn := by
  intro hagree
  have hinit : (RegNet.init localRegId r regIn).Stuck sizeSp := by
    refine ⟨by simp [RegNet.init], fun req hreq => ?_, rfl, rfl⟩
    rw [List.mem_singleton.1 hreq]
    exact ⟨rfl, by simp, by simpa using hr⟩
  rcases hagree [] _ rfl with ⟨-, evs, s, hrun, hall⟩
  have hmem := hall 0 (le_refl 0) (by omega)
  rw [(RegNet.Stuck.run hsize evs _ s hinit hrun).processed] at hmem
  simp at hmem

/-! ## One server -/

/-- The four states of a registration at a single server: on its way, received, processed, and
answered. -/
inductive RegNet.Single (localRegId : Int → Int32) (regIn : RegIn) : RegNet → Prop
  | sent : Single localRegId regIn (RegNet.init localRegId 0 regIn)
  | received (ids : Int → Int32) : Single localRegId regIn
      ⟨ids, [⟨0, { regIn with src := -1, id := drawId (localRegId 0) 0 }, none, 0, false⟩], [], [], []⟩
  | processed (ids : Int → Int32) : Single localRegId regIn
      ⟨ids, [⟨0, { regIn with src := -1, id := drawId (localRegId 0) 0 }, none, 0, true⟩], [], [none],
        [(0, { regIn with src := -1, id := drawId (localRegId 0) 0 })]⟩
  | answered (ids : Int → Int32) : Single localRegId regIn
      ⟨ids, [⟨0, { regIn with src := -1, id := drawId (localRegId 0) 0 }, none, 0, true⟩], [], [],
        [(0, { regIn with src := -1, id := drawId (localRegId 0) 0 })]⟩

theorem getElem?_singleton_eq_some {α : Type} {a b : α} {k : Nat} (h : [a][k]? = some b) :
    k = 0 ∧ b = a := by
  cases k with
  | zero => exact ⟨rfl, by simpa using h.symm⟩
  | succ k => simp at h

theorem RegNet.Single.step {localRegId : Int → Int32} {regIn : RegIn} {s s' : RegNet}
    (h : s.Single localRegId regIn) {ev : RegEvent} (hstep : s.step 1 ev = some s') :
    s'.Single localRegId regIn := by
  cases h with
  | sent =>
      cases ev with
      | receive k =>
          rcases Option.map_eq_some_iff.1 hstep with ⟨req, hreq, rfl⟩
          rcases getElem?_singleton_eq_some hreq with ⟨rfl, rfl⟩
          exact RegNet.Single.received _
      | finish c => simp [RegNet.step, RegNet.init] at hstep
      | reply k => simp [RegNet.step, RegNet.init] at hstep
  | received ids =>
      cases ev with
      | receive k => simp [RegNet.step] at hstep
      | finish c =>
          rcases Option.bind_eq_some_iff.1 hstep with ⟨call, hcall, hfin⟩
          rcases getElem?_singleton_eq_some hcall with ⟨rfl, rfl⟩
          -- a single server waits for no replies
          rw [if_pos ⟨rfl, rfl⟩] at hfin
          cases hfin
          exact RegNet.Single.processed ids
      | reply k => simp [RegNet.step] at hstep
  | processed ids =>
      cases ev with
      | receive k => simp [RegNet.step] at hstep
      | finish c =>
          rcases Option.bind_eq_some_iff.1 hstep with ⟨call, hcall, hfin⟩
          rcases getElem?_singleton_eq_some hcall with ⟨rfl, rfl⟩
          simp at hfin
      | reply k =>
          rcases Option.map_eq_some_iff.1 hstep with ⟨caller, hcaller, rfl⟩
          rcases getElem?_singleton_eq_some hcaller with ⟨rfl, rfl⟩
          exact RegNet.Single.answered ids
  | answered ids =>
      cases ev with
      | receive k => simp [RegNet.step] at hstep
      | finish c =>
          rcases Option.bind_eq_some_iff.1 hstep with ⟨call, hcall, hfin⟩
          rcases getElem?_singleton_eq_some hcall with ⟨rfl, rfl⟩
          simp at hfin
      | reply k => simp [RegNet.step] at hstep

theorem RegNet.Single.run {localRegId : Int → Int32} {regIn : RegIn} (evs : List RegEvent) :
    ∀ s s' : RegNet, s.Single localRegId regIn → s.run 1 evs = some s' →
      s'.Single localRegId regIn :=
  (RegNet.isRun 1).keeps (fun _ _ _ h hstep => h.step hstep) evs

/-- A single server processes the registration once, with the id it drew. -/
theorem regAgrees_one (localRegId : Int → Int32) (regIn : RegIn) :
    RegAgrees 1 localRegId 0 regIn := by
  intro evs s hrun
  have hs := RegNet.Single.run evs _ s RegNet.Single.sent hrun
  have honly : ∀ rank : Int, 0 ≤ rank → rank < (1 : Nat) → rank = 0 := fun rank _ _ => by omega
  cases hs with
  | sent =>
      refine ⟨⟨by simp [RegNet.init], by simp [RegNet.init]⟩, [.receive 0, .finish 0], _, rfl, ?_⟩
      intro rank h0 hlt
      rw [honly rank h0 hlt]
      exact List.mem_singleton_self _
  | received ids =>
      refine ⟨⟨by simp, by simp⟩, [.finish 0], _, rfl, ?_⟩
      intro rank h0 hlt
      rw [honly rank h0 hlt]
      exact List.mem_singleton_self _
  -- from here on there is nothing left to do
  | processed ids | answered ids =>
      refine ⟨⟨by simp, by simp⟩, [], _, rfl, ?_⟩
      intro rank h0 hlt
      rw [honly rank h0 hlt]
      exact List.mem_singleton_self _

/-- Registrations agree exactly in a group of one server. -/
theorem regAgrees_iff {sizeSp r : Nat} (hr : r < sizeSp) (localRegId : Int → Int32) (regIn : RegIn) :
    RegAgrees sizeSp localRegId r regIn ↔ sizeSp = 1 := by
  constructor
  · intro hagree
    by_contra hne
    exact not_regAgrees (by omega) hr localRegId regIn hagree
  · rintro rfl
    obtain rfl : r = 0 := by omega
    exact regAgrees_one localRegId regIn

/-- A registration at server 0 of one and of two servers. -/
theorem regAgrees_iff_small :
    (RegAgrees 1 (fun _ => 0) 0 ⟨[], [], [], -1, 0⟩ ↔ 1 = 1) ∧
      (RegAgrees 2 (fun _ => 0) 0 ⟨[], [], [], -1, 0⟩ ↔ 2 = 1) :=
  ⟨regAgrees_iff (by decide) _ _, regAgrees_iff (by decide) _ _⟩

/-- With two servers nothing is ever processed. -/
theorem not_regAgrees_two : ¬ RegAgrees 2 (fun _ => 0) 0 ⟨[], [], [], -1, 0⟩ :=
  not_regAgrees (by decide) (by decide) _ _

end DataSpaces
