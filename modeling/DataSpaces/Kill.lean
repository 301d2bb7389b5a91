import Mathlib.Data.List.Perm.Basic
import Mathlib.Tactic.SplitIfs
import DataSpaces.Broadcast

/-!
# Kill — how the servers count `dspaces_kill` (`kill_rpc`)

Every server starts with `num_apps` tokens in `f_kill`.  A client's kill goes to rank 0; a server that
gets a kill takes one token, sends the kill on along the tree and shuts down with its last token.  A
handler gives up `kill_mutex` before it sends, so between the two there may be other handlers.
-/

namespace DataSpaces

/-- A kill on its way: who sent it (`-1` for a client) and to whom. -/
structure KillMsg where
  src : Int
  dest : Int
  deriving DecidableEq, Repr

/-- A `kill_rpc` that took its token and has not sent the kill on yet. -/
structure KillHandler where
  rank : Int
  src : Int
  doKill : Bool
  deriving DecidableEq, Repr

/-- The group.  `delivered`, `consumed` and `destroyed` only count: the clients' kills that rank 0 got,
the tokens that each server took, and how often it started `server_destroy`. -/
structure KillState where
  fKill : Int → Int
  net : List KillMsg
  running : List KillHandler
  delivered : Nat
  consumed : Int → Nat
  destroyed : Int → Nat

inductive KillEvent where
  | kill
  | deliver (k : Nat)
  | forward (k : Nat)
  deriving DecidableEq, Repr

/-- The kills that a handler sends (`ibcast_rpc_start`, with its own rank as the source). -/
def KillHandler.sends (sizeSp : Nat) (h : KillHandler) : List KillMsg :=
  (ibcastTargets sizeSp h.rank h.src).map fun dest => ⟨h.rank, dest⟩

namespace KillState

/-- The group after `dspaces_server_init`. -/
def init (numApps : Nat) : KillState where
  fKill _ := numApps
  net := []
  running := []
  delivered := 0
  consumed _ := 0
  destroyed _ := 0

/-- `dspaces_kill`. -/
def dspacesKill (s : KillState) : KillState :=
  { s with net := s.net ++ [⟨-1, 0⟩] }

/-- `kill_rpc` up to the point where it gives up `kill_mutex`. -/
def killRpc (s : KillState) (msg : KillMsg) : KillState :=
  let delivered := if msg.src = -1 then s.delivered + 1 else s.delivered
  if s.fKill msg.dest = 0 then
    -- already shutting down: the kill is dropped
    { s with delivered := delivered }
  else
    let fKill := s.fKill msg.dest - 1
    { s with
      fKill := Function.update s.fKill msg.dest fKill
      running := s.running ++ [⟨msg.dest, msg.src, decide (fKill = 0)⟩]
      delivered := delivered
      consumed := Function.update s.consumed msg.dest (s.consumed msg.dest + 1) }

/-- The rest of `kill_rpc`: the kill is sent on, then the server shuts down if this was its last
token. -/
def killRpcFinish (sizeSp : Nat) (s : KillState) (h : KillHandler) : KillState :=
  { s with
    net := s.net ++ h.sends sizeSp
    destroyed :=
      if h.doKill then Function.update s.destroyed h.rank (s.destroyed h.rank + 1) else s.destroyed }

/-- One step: a client sends a kill, a kill arrives, or a handler goes on.  The messages arrive and the
handlers go on in any order. -/
def step (sizeSp : Nat) (s : KillState) : KillEvent → KillState
  | .kill => s.dspacesKill
  | .deliver k =>
      match s.net[k]? with
      | none => s
      | some msg => killRpc { s with net := s.net.eraseIdx k } msg
  | .forward k =>
      match s.running[k]? with
      | none => s
      | some h => killRpcFinish sizeSp { s with running := s.running.eraseIdx k } h

def run (sizeSp : Nat) (s : KillState) (es : List KillEvent) : KillState :=
  es.foldl (step sizeSp) s

/-- The kills in flight: those on the net and those that a handler is about to send. -/
def inFlight (sizeSp : Nat) (s : KillState) : List KillMsg :=
  s.net ++ s.running.flatMap (KillHandler.sends sizeSp)

end KillState

/-! ## A kill goes down the tree -/

/-- A kill goes from a client to rank 0 or from a rank to its child. -/
def KillEdge (sizeSp : Nat) (src dest : Int) : Prop :=
  (src = -1 ∧ dest = 0) ∨ ∃ v : Nat, 0 < v ∧ v < sizeSp ∧ dest = v ∧ src = heapParent v

/-- A server that got a kill from above sends it to its children. -/
theorem mem_ibcastTargets_of_edge {sizeSp : Nat} {src rank w : Int} (h : KillEdge sizeSp src rank) :
    w ∈ ibcastTargets sizeSp rank src ↔
      ∃ c : Nat, 0 < c ∧ c < sizeSp ∧ w = c ∧ rank = heapParent c := by
  rcases h with ⟨rfl, rfl⟩ | ⟨v, hpos, hlt, rfl, rfl⟩
  · rcases Nat.eq_zero_or_pos sizeSp with rfl | hsize
    · simp [ibcastTargets]
    · -- the root sends a client's kill down like any other
      have hdown := @mem_ibcastTargets_down sizeSp 0 (-1) w hsize (Or.inl rfl)
      simp only [Nat.cast_zero] at hdown
      rw [hdown]
      constructor
      · rintro (⟨h0, -⟩ | ⟨hw, -, hlt⟩)
        · omega
        · exact ⟨w.toNat, by omega, by omega, by omega, by rw [heapParent]; omega⟩
      · rintro ⟨c, hc, hlt, rfl, hp⟩
        rw [heapParent] at hp
        exact Or.inr ⟨by omega, by omega, by omega⟩
  · rw [mem_ibcastTargets_up hpos]
    constructor
    · rintro ⟨hw, hlt'⟩
      exact ⟨w.toNat, by omega, by omega, by omega, by rw [heapParent]; omega⟩
    · rintro ⟨c, hc, hlt', rfl, hp⟩
      rw [heapParent] at hp
      exact ⟨by omega, by omega⟩

theorem edge_of_mem_sends {sizeSp : Nat} {h : KillHandler} {msg : KillMsg}
    (hedge : KillEdge sizeSp h.src h.rank) (hmsg : msg ∈ h.sends sizeSp) :
    KillEdge sizeSp msg.src msg.dest := by
  rcases List.mem_map.1 hmsg with ⟨w, hw, rfl⟩
  rcases (mem_ibcastTargets_of_edge hedge).1 hw with ⟨c, hpos, hlt, hwc, hrank⟩
  exact Or.inr ⟨c, hpos, hlt, hwc, hrank⟩

/-- A handler sends one kill to each child of its rank, and none to other ranks. -/
theorem countP_sends {sizeSp : Nat} {h : KillHandler} (hedge : KillEdge sizeSp h.src h.rank) {c : Nat}
    (hpos : 0 < c) (hlt : c < sizeSp) :
    (h.sends sizeSp).countP (fun msg => msg.dest = (c : Int)) =
      if h.rank = heapParent c then 1 else 0 := by
  have hrank : ∃ v : Nat, h.rank = v := by
    rcases hedge with ⟨-, h0⟩ | ⟨v, -, -, hv, -⟩
    · exact ⟨0, h0⟩
    · exact ⟨v, hv⟩
  rcases hrank with ⟨v, hv⟩
  have hnodup : (ibcastTargets sizeSp h.rank h.src).Nodup := by
    rw [hv]
    exact nodup_ibcastTargets h.src
  -- no rank is a target twice
  have hcount : (h.sends sizeSp).countP (fun msg => msg.dest = (c : Int)) =
      (ibcastTargets sizeSp h.rank h.src).count (c : Int) := by
    rw [KillHandler.sends, List.countP_map, List.count]
    refine List.countP_congr fun w _ => ?_
    simp
  rw [hcount, hnodup.count]
  refine if_congr ?_ rfl rfl
  rw [mem_ibcastTargets_of_edge hedge]
  constructor
  · rintro ⟨c', -, -, hc', hp⟩
    have : c = c' := by exact_mod_cast hc'
    rw [this]
    exact hp
  · intro hp
    exact ⟨c, hpos, hlt, rfl, hp⟩

/-! ## Where the tokens are -/

namespace KillState

/-- The kills on the net to a rank. -/
def sentTo (s : KillState) (r : Int) : Nat :=
  s.net.countP fun msg => msg.dest = r

/-- The handlers of a rank. -/
def owedBy (s : KillState) (r : Int) : Nat :=
  s.running.countP fun h => h.rank = r

/-- The handlers of a rank that took its last token. -/
def ending (s : KillState) (r : Int) : Nat :=
  s.running.countP fun h => h.rank = r ∧ h.doKill = true

/-- A token that a server took was taken by its parent before, and what the parent took is on the way to
the child or about to be sent, if the child did not take it yet. -/
structure Tokens (numApps sizeSp : Nat) (s : KillState) : Prop where
  net : ∀ msg ∈ s.net, KillEdge sizeSp msg.src msg.dest
  running : ∀ h ∈ s.running, KillEdge sizeSp h.src h.rank
  left : ∀ r, 0 ≤ s.fKill r ∧ s.fKill r + s.consumed r = numApps
  root : s.consumed 0 = min numApps s.delivered
  flow : ∀ v : Nat, 0 < v → v < sizeSp →
    s.consumed v + s.sentTo v + s.owedBy (heapParent v) = s.consumed (heapParent v)
  destroy : ∀ r, s.destroyed r + s.ending r = if s.fKill r = 0 ∧ 0 < s.consumed r then 1 else 0

theorem tokens_init (numApps sizeSp : Nat) : (init numApps).Tokens numApps sizeSp where
  net := by simp [init]
  running := by simp [init]
  left := by simp [init]
  root := by simp [init]
  flow := by simp [init, sentTo, owedBy]
  destroy := by simp [init, ending]

section Steps

variable {numApps sizeSp : Nat} {s : KillState}

theorem Tokens.dspacesKill (h : s.Tokens numApps sizeSp) : s.dspacesKill.Tokens numApps sizeSp where
  net := by
    intro msg hmsg
    rcases List.mem_append.1 hmsg with hmsg | hmsg
    · exact h.net msg hmsg
    · obtain rfl := List.mem_singleton.1 hmsg
      exact Or.inl ⟨rfl, rfl⟩
  running := h.running
  left := h.left
  root := h.root
  flow := by
    intro v hpos hlt
    have hsent : s.dspacesKill.sentTo v = s.sentTo v := by
      have hne : ¬ (0 : Int) = v := by omega
      simp [KillState.dspacesKill, sentTo, hne]
    rw [hsent]
    exact h.flow v hpos hlt
  destroy := h.destroy

/-- A kill that is on its way to a server other than rank 0 finds a token there. -/
theorem Tokens.fKill_pos (h : s.Tokens numApps sizeSp) {v : Nat} (hpos : 0 < v) (hlt : v < sizeSp)
    (hsent : 0 < s.sentTo v) : 0 < s.fKill v := by
  have hflow := h.flow v hpos hlt
  have hv := h.left v
  have hparent := h.left (heapParent v)
  omega

theorem sentTo_of_perm {msg : KillMsg} {net : List KillMsg} (hnet : s.net.Perm (msg :: net)) (r : Int) :
    s.sentTo r = net.countP (fun m => m.dest = r) + if msg.dest = r then 1 else 0 := by
  rw [sentTo, hnet.countP_eq, List.countP_cons]
  simp

section Receive

variable {msg : KillMsg} {net : List KillMsg}

/-- Only a client's kill can find no token: it is dropped, and rank 0 took all tokens before. -/
theorem Tokens.drop (h : s.Tokens numApps sizeSp) (hnet : s.net.Perm (msg :: net))
    (hzero : s.fKill msg.dest = 0) : (KillState.killRpc { s with net := net } msg).Tokens numApps sizeSp := by
  have hroot : msg.src = -1 ∧ msg.dest = 0 := by
    rcases h.net msg (hnet.mem_iff.2 List.mem_cons_self) with hroot | ⟨v, hpos, hlt, hv, -⟩
    · exact hroot
    · -- a kill from the parent finds a token, by the flow of tokens
      have hsent := sentTo_of_perm hnet v
      rw [if_pos hv] at hsent
      have hfound := h.fKill_pos hpos hlt (by omega)
      rw [hv] at hzero
      omega
  rw [KillState.killRpc, if_pos hzero, if_pos hroot.1]
  refine ⟨fun m hm => h.net m (hnet.mem_iff.2 (List.mem_cons_of_mem _ hm)), h.running, h.left, ?_, ?_,
    h.destroy⟩
  · have hleft := h.left msg.dest
    have htaken := h.root
    rw [hroot.2] at hleft hzero
    show s.consumed 0 = min numApps (s.delivered + 1)
    omega
  · intro v hpos hlt
    have hflow := h.flow v hpos hlt
    rw [sentTo_of_perm hnet, if_neg (by omega)] at hflow
    exact hflow

/-- A kill that finds a token turns from a message to the rank into a handler of it. -/
theorem Tokens.flow_take (h : s.Tokens numApps sizeSp) (hnet : s.net.Perm (msg :: net))
    (hd : KillHandler) (hrank : hd.rank = msg.dest) {v : Nat} (hpos : 0 < v) (hlt : v < sizeSp) :
    Function.update s.consumed msg.dest (s.consumed msg.dest + 1) v +
        net.countP (fun m => m.dest = (v : Int)) +
        (s.running ++ [hd]).countP (fun hd => hd.rank = (heapParent v : Int)) =
      Function.update s.consumed msg.dest (s.consumed msg.dest + 1) (heapParent v) := by
  have hflow := h.flow v hpos hlt
  have hlt' := heapParent_lt hpos
  rw [sentTo_of_perm hnet, owedBy] at hflow
  rw [List.countP_append, List.countP_singleton, hrank]
  simp only [decide_eq_true_eq]
  by_cases hv : (v : Int) = msg.dest
  · have hp : ¬ (heapParent v : Int) = msg.dest := by omega
    rw [if_pos hv.symm] at hflow
    rw [if_neg (Ne.symm hp), Function.update_of_ne hp, hv, Function.update_self, ← hv]
    omega
  · rw [if_neg (Ne.symm hv)] at hflow
    rw [Function.update_of_ne hv]
    by_cases hp : (heapParent v : Int) = msg.dest
    · -- what the parent took more it owes now
      rw [if_pos hp.symm, hp, Function.update_self, ← hp]
      omega
    · rw [if_neg (Ne.symm hp), Function.update_of_ne hp]
      omega

/-- The handler that takes the last token of a rank is the first to end it. -/
theorem Tokens.destroy_take (h : s.Tokens numApps sizeSp) (hleft : s.fKill msg.dest ≠ 0) (r : Int) :
    s.destroyed r +
        (s.running ++ [(⟨msg.dest, msg.src, decide (s.fKill msg.dest - 1 = 0)⟩ : KillHandler)]).countP
          (fun hd => hd.rank = r ∧ hd.doKill = true) =
      if Function.update s.fKill msg.dest (s.fKill msg.dest - 1) r = 0 ∧
        0 < Function.update s.consumed msg.dest (s.consumed msg.dest + 1) r then 1 else 0 := by
  have hdestroy := h.destroy r
  rw [ending] at hdestroy
  rw [List.countP_append, List.countP_singleton]
  simp only [decide_eq_true_eq]
  by_cases hr : r = msg.dest
  · subst hr
    rw [if_neg (by omega)] at hdestroy
    simp only [Function.update_self, true_and]
    by_cases hlast : s.fKill msg.dest - 1 = 0
    · -- this handler took the last token, or a later one will
      rw [if_pos hlast, if_pos ⟨hlast, by omega⟩]
      omega
    · rw [if_neg hlast, if_neg (by omega)]
      omega
  · have hne : ¬ (msg.dest = r ∧ s.fKill msg.dest - 1 = 0) := fun hand => hr hand.1.symm
    simp only [Function.update_of_ne hr, if_neg hne]
    exact hdestroy

/-- `kill_rpc` takes a token for the message that arrived. -/
theorem Tokens.take (h : s.Tokens numApps sizeSp) (hnet : s.net.Perm (msg :: net))
    (htoken : s.fKill msg.dest ≠ 0) :
    (KillState.killRpc { s with net := net } msg).Tokens numApps sizeSp := by
  have hedge := h.net msg (hnet.mem_iff.2 List.mem_cons_self)
  rw [KillState.killRpc, if_neg htoken]
  refine ⟨fun m hm => h.net m (hnet.mem_iff.2 (List.mem_cons_of_mem _ hm)), ?_, ?_, ?_,
    fun v hpos hlt => h.flow_take hnet _ rfl hpos hlt, h.destroy_take htoken⟩
  · intro hd hhd
    rcases List.mem_append.1 hhd with hhd | hhd
    · exact h.running hd hhd
    · obtain rfl := List.mem_singleton.1 hhd
      exact hedge
  · intro r
    have hr := h.left r
    by_cases hr' : r = msg.dest
    · subst hr'
      simp only [Function.update_self]
      omega
    · simp only [Function.update_of_ne hr']
      exact hr
  · have hroot := h.root
    have hleft := h.left msg.dest
    rcases hedge with ⟨hsrc, hdest⟩ | ⟨v, hpos, hlt, hv, hsrc⟩
    · rw [hdest] at hleft htoken ⊢
      simp only [hsrc, if_true, Function.update_self]
      omega
    · -- a kill from a parent is not one of the clients' kills, and not for rank 0
      have hne : (0 : Int) ≠ msg.dest := by omega
      have hcl : ¬ msg.src = -1 := by omega
      simp only [if_neg hcl, Function.update_of_ne hne]
      exact hroot

theorem Tokens.killRpc (h : s.Tokens numApps sizeSp) (hnet : s.net.Perm (msg :: net)) :
    (KillState.killRpc { s with net := net } msg).Tokens numApps sizeSp := by
  by_cases hzero : s.fKill msg.dest = 0
  · exact h.drop hnet hzero
  · exact h.take hnet hzero

end Receive

/-- The handler sends its token on to the children. -/
theorem Tokens.killRpcFinish {hd : KillHandler} {running : List KillHandler}
    (h : s.Tokens numApps sizeSp) (hrun : s.running.Perm (hd :: running)) :
    (killRpcFinish sizeSp { s with running := running } hd).Tokens numApps sizeSp := by
  have hedge := h.running hd (hrun.mem_iff.2 List.mem_cons_self)
  refine ⟨?_, ?_, h.left, h.root, ?_, ?_⟩
  · intro msg hmsg
    rcases List.mem_append.1 hmsg with hmsg | hmsg
    · exact h.net msg hmsg
    · exact edge_of_mem_sends hedge hmsg
  · intro hd' hhd'
    exact h.running hd' (hrun.mem_iff.2 (List.mem_cons_of_mem _ hhd'))
  · intro v hpos hlt
    have hflow := h.flow v hpos hlt
    rw [owedBy, hrun.countP_eq, List.countP_cons] at hflow
    -- what was owed to a child is now on its way to it
    have hsends := countP_sends hedge hpos hlt
    simp only [KillState.killRpcFinish, sentTo, owedBy, List.countP_append, hsends]
    simp only [sentTo, decide_eq_true_eq] at hflow
    omega
  · intro r
    have hdestroy := h.destroy r
    rw [ending, hrun.countP_eq, List.countP_cons] at hdestroy
    simp only [KillState.killRpcFinish, ending]
    cases hkill : hd.doKill with
    | false =>
        simp only [hkill, Bool.false_eq_true, and_false, decide_false, if_false] at hdestroy ⊢
        exact hdestroy
    | true =>
        simp only [hkill, and_true, decide_eq_true_eq, if_true] at hdestroy ⊢
        by_cases hr : r = hd.rank
        · subst hr
          -- the rank of this handler is ended now
          rw [if_pos rfl] at hdestroy
          rw [Function.update_self]
          omega
        · rw [if_neg (Ne.symm hr)] at hdestroy
          rw [Function.update_of_ne hr]
          exact hdestroy

theorem Tokens.step (h : s.Tokens numApps sizeSp) (e : KillEvent) :
    (s.step sizeSp e).Tokens numApps sizeSp := by
  cases e with
  | kill => exact h.dspacesKill
  | deliver k =>
      rw [KillState.step]
      split
      · exact h
      · rename_i msg hmsg
        exact h.killRpc (Flood.perm_eraseIdx hmsg)
  | forward k =>
      rw [KillState.step]
      split
      · exact h
      · rename_i hd hhd
        exact h.killRpcFinish (Flood.perm_eraseIdx hhd)

theorem Tokens.run (h : s.Tokens numApps sizeSp) (es : List KillEvent) :
    (s.run sizeSp es).Tokens numApps sizeSp := by
  induction es generalizing s with
  | nil => exact h
  | cons e es ih => exact ih (h.step e)

theorem Tokens.consumed_le (h : s.Tokens numApps sizeSp) {v : Nat} (hpos : 0 < v) (hlt : v < sizeSp) :
    s.consumed v ≤ s.consumed (heapParent v) := by
  have hflow := h.flow v hpos hlt
  omega

theorem Tokens.consumed_le_root (h : s.Tokens numApps sizeSp) {v : Nat} (hlt : v < sizeSp) :
    s.consumed v ≤ s.consumed 0 := by
  induction v using Nat.strong_induction_on with
  | _ v ih =>
      rcases Nat.eq_zero_or_pos v with rfl | hpos
      · exact le_refl _
      · have hp := heapParent_lt hpos
        exact (h.consumed_le hpos hlt).trans (ih _ hp (by omega))

/-- A server that starts `server_destroy` took its last token, or its handler did. -/
theorem Tokens.consumed_of_destroyed (h : s.Tokens numApps sizeSp) {r : Int} (hd : 0 < s.destroyed r) :
    s.consumed r = numApps := by
  have hdestroy := h.destroy r
  have hleft := h.left r
  by_cases hzero : s.fKill r = 0 ∧ 0 < s.consumed r
  · omega
  · rw [if_neg hzero] at hdestroy
    omega

/-- With nothing in flight no handler has anything to send. -/
theorem Tokens.owedBy_eq_zero (h : s.Tokens numApps sizeSp) (hquiet : s.inFlight sizeSp = []) {v : Nat}
    (hpos : 0 < v) (hlt : v < sizeSp) : s.owedBy (heapParent v) = 0 := by
  rw [owedBy, List.countP_eq_zero]
  intro hd hhd hrank
  have hsends : hd.sends sizeSp = [] :=
    List.flatMap_eq_nil_iff.1 (List.append_eq_nil_iff.1 hquiet).2 hd hhd
  have hcount := countP_sends (h.running hd hhd) hpos hlt
  rw [hsends, if_pos (by simpa using hrank)] at hcount
  simp at hcount

theorem Tokens.consumed_eq_root (h : s.Tokens numApps sizeSp) (hquiet : s.inFlight sizeSp = []) {v : Nat}
    (hlt : v < sizeSp) : s.consumed v = s.consumed 0 := by
  have hnet : s.net = [] := (List.append_eq_nil_iff.1 hquiet).1
  induction v using Nat.strong_induction_on with
  | _ v ih =>
      rcases Nat.eq_zero_or_pos v with rfl | hpos
      · rfl
      · have hp := heapParent_lt hpos
        have hflow := h.flow v hpos hlt
        have hsent : s.sentTo v = 0 := by
          rw [sentTo, hnet, List.countP_nil]
        have howed := h.owedBy_eq_zero hquiet hpos hlt
        calc s.consumed v = s.consumed (heapParent v) := by omega
          _ = s.consumed 0 := ih _ hp (by omega)

end Steps

end KillState

/-- In every state of every run, whatever order the kills arrive in: a server took no more tokens than
its parent, rank 0 no more than there are and than clients sent, no server starts `server_destroy` twice
or before rank 0 took all tokens, and with no kill in flight all servers took the same number. -/
theorem kill_tokens (numApps sizeSp : Nat) (es : List KillEvent) :
    let s := (KillState.init numApps).run sizeSp es
    (∀ v : Nat, 0 < v → v < sizeSp → s.consumed v ≤ s.consumed (heapParent v)) ∧
      s.consumed 0 ≤ min numApps s.delivered ∧
      (∀ v : Nat, v < sizeSp → s.destroyed v ≤ 1) ∧
      (∀ v : Nat, v < sizeSp → 0 < s.destroyed v → s.consumed 0 = numApps) ∧
      (s.inFlight sizeSp = [] →
        ∀ v w : Nat, v < sizeSp → w < sizeSp → s.consumed v = s.consumed w) := by
  intro s
  have h : s.Tokens numApps sizeSp := (KillState.tokens_init numApps sizeSp).run es
  refine ⟨fun v hpos hlt => h.consumed_le hpos hlt, h.root.le, fun v _ => ?_, fun v hv hd => ?_,
    fun hquiet v w hv hw => ?_⟩
  · have hdestroy := h.destroy v
    split_ifs at hdestroy <;> omega
  · have hall := h.consumed_of_destroyed hd
    have hle := h.consumed_le_root hv
    have hroot := h.root
    omega
  · rw [h.consumed_eq_root hquiet hv, h.consumed_eq_root hquiet hw]

-- two kills for one application: the second one finds rank 0 shutting down, and nothing is left over
example :
    let s := (KillState.init 1).run 3 [.kill, .kill, .deliver 1, .deliver 0, .forward 0, .deliver 1,
      .deliver 0, .forward 1, .forward 0]
    s.inFlight 3 = [] ∧ [0, 1, 2].map s.consumed = [1, 1, 1] ∧ [0, 1, 2].map s.destroyed = [1, 1, 1] := by
  decide

end DataSpaces
