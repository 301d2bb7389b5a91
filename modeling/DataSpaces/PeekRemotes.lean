import Mathlib.Data.List.Perm.Basic
import DataSpaces.MetaScan

/-!
# PeekRemotes — metadata on remote servers (`peek_meta_remotes`, `query_meta_rpc`)

A server asks all its remotes whether they have metadata of a name, takes their replies in the order in
which they arrive, and forwards the query to one of them.  The loop over the replies keeps its own counter
for a reply 1 and not the number of the remote that sent it, so what is returned is the place of the last
such reply in the order of arrival (`peekMetaRemotes_last`).
-/

namespace DataSpaces

/-- `struct remote`. -/
structure Remote where
  name : CStr
  addrStr : CStr
  deriving DecidableEq

/-- `query_meta_in_t`. -/
structure QueryMetaIn where
  name : CStr
  version : Int
  mode : Nat

/-- `query_meta_out_t`. -/
structure QueryMetaOut where
  mdata : List UInt8
  version : Int
  deriving DecidableEq

/-- The loop of `peek_meta_remotes` over the replies that are still to come: `order` is what
`margo_wait_any` returns one after the other, `resps` the `res` of every remote. -/
def peekLoop (resps : Nat → Int) : List Nat → Nat → Int → Int
  | [], _, ret => ret
  | index :: order, i, ret => peekLoop resps order (i + 1) (if resps index = 1 then i else ret)

def peekMetaRemotes (resps : Nat → Int) (order : List Nat) : Int :=
  peekLoop resps order 0 (-1)

/-- The reply of `peek_meta_rpc`, with what `peek_meta_remotes` returns there. -/
def peekMetaRpc (ls : MetaStore) (nremote : Nat) (name : CStr) (remote : Int) : Option Int := do
  let mdata ← ls.scanNext name (-1)
  if mdata.isSome then return 1
  else if nremote ≠ 0 ∧ remote > -1 then return 1
  else return 0

/-- The reply for metadata that was found, or for none. -/
def metaOut : Option MetaData → QueryMetaOut
  | some mdata => ⟨mdata.data, mdata.intVersion⟩
  | none => ⟨[], -1⟩

/-- The search of `query_meta_rpc` in its own storage; there is no reply while it waits, and none is
defined for an unknown mode. -/
def queryMetaLocal (ls : MetaStore) (req : QueryMetaIn) (fuel : Nat) : Option QueryMetaOut :=
  match req.mode with
  | 1 => (ls.lsFindMeta req.name req.version).map metaOut
  | 2 => do
      let mdata ← ls.scanNext req.name req.version
      mdata.map fun mdata => metaOut (some mdata)
  | 3 => (ls.queryMetaLast req.name req.version fuel).map fun mdata => metaOut (some mdata)
  | _ => none

/-- The remote that `query_meta_rpc` forwards the query to. -/
def queryMetaRemote (remotes : List Remote) (resps : Nat → Int) (order : List Nat) : Option Remote :=
  if remotes.length ≠ 0 then
    let remote := peekMetaRemotes resps order
    if remote > -1 then remotes[remote.toNat]? else none
  else none

/-- `query_meta_rpc`.  `forward` has no reply where `margo_create` or `margo_get_output` fails. -/
def queryMetaRpc (ls : MetaStore) (remotes : List Remote) (resps : Nat → Int) (order : List Nat)
    (forward : Remote → QueryMetaIn → Option QueryMetaOut) (req : QueryMetaIn) (fuel : Nat) :
    Option QueryMetaOut :=
  match (queryMetaRemote remotes resps order).bind fun remote => forward remote req with
  | some out => some out
  | none => queryMetaLocal ls req fuel

/-! ## The loop over the replies -/

section Loop

variable {resps : Nat → Int}

theorem peekLoop_append (l l' : List Nat) : ∀ (i : Nat) (ret : Int),
    peekLoop resps (l ++ l') i ret = peekLoop resps l' (i + l.length) (peekLoop resps l i ret) := by
  induction l with
  | nil =>
      intro i ret
      rfl
  | cons index l ih =>
      intro i ret
      rw [List.cons_append, peekLoop, ih, peekLoop, List.length_cons, Nat.add_right_comm, Nat.add_assoc]

theorem peekLoop_none {l : List Nat} (h : ∀ index ∈ l, resps index ≠ 1) : ∀ (i : Nat) (ret : Int),
    peekLoop resps l i ret = ret := by
  induction l with
  | nil =>
      intro i ret
      rfl
  | cons index l ih =>
      intro i ret
      obtain ⟨hne, hrest⟩ := List.forall_mem_cons.1 h
      rw [peekLoop, if_neg hne]
      exact ih hrest _ _

/-- The last reply 1 of a list of replies. -/
def IsLastReply (resps : Nat → Int) (order before : List Nat) (index : Nat) (after : List Nat) : Prop :=
  order = before ++ index :: after ∧ resps index = 1 ∧ ∀ later ∈ after, resps later ≠ 1

/-- There are as many replies as remotes, so the place of one is the number of another. -/
theorem IsLastReply.length_before_lt {order before after : List Nat} {index nremote : Nat}
    (h : IsLastReply resps order before index after) (hperm : order.Perm (List.range nremote)) :
    before.length < nremote := by
  have hlen := hperm.length_eq
  rw [h.1, List.length_append, List.length_cons, List.length_range] at hlen
  omega

theorem exists_isLastReply (resps : Nat → Int) (order : List Nat) :
    (∀ index ∈ order, resps index ≠ 1) ∨
      ∃ before index after, IsLastReply resps order before index after := by
  induction order with
  | nil => exact Or.inl (by simp)
  | cons first order ih =>
      rcases ih with hnone | ⟨before, index, after, rfl, hone, hlater⟩
      · by_cases hfirst : resps first = 1
        · exact Or.inr ⟨[], first, order, rfl, hfirst, hnone⟩
        · exact Or.inl (List.forall_mem_cons.2 ⟨hfirst, hnone⟩)
      · exact Or.inr ⟨first :: before, index, after, rfl, hone, hlater⟩

/-- What is returned is the place of the last reply 1. -/
theorem peekMetaRemotes_last {order before after : List Nat} {index : Nat}
    (h : IsLastReply resps order before index after) : peekMetaRemotes resps order = before.length := by
  obtain ⟨rfl, hone, hlater⟩ := h
  rw [peekMetaRemotes, peekLoop_append, peekLoop, if_pos hone, peekLoop_none hlater, Nat.zero_add]

theorem peekMetaRemotes_eq_neg_one_iff {order : List Nat} :
    peekMetaRemotes resps order = -1 ↔ ∀ index ∈ order, resps index ≠ 1 := by
  constructor
  · intro h
    rcases exists_isLastReply resps order with hnone | ⟨before, index, after, hlast⟩
    · exact hnone
    · rw [peekMetaRemotes_last hlast] at h
      omega
  · intro hnone
    exact peekLoop_none hnone 0 (-1)

/-- With the replies of all remotes, in any order. -/
theorem peekMetaRemotes_gt_iff {order : List Nat} {nremote : Nat} (hperm : order.Perm (List.range nremote)) :
    nremote ≠ 0 ∧ peekMetaRemotes resps order > -1 ↔ ∃ index < nremote, resps index = 1 := by
  have hmem : ∀ index, index ∈ order ↔ index < nremote := fun index => by
    rw [hperm.mem_iff, List.mem_range]
  constructor
  · rintro ⟨-, hgt⟩
    by_contra hno
    have hnone := peekMetaRemotes_eq_neg_one_iff.2 fun index hin hone => hno ⟨index, (hmem index).1 hin, hone⟩
    omega
  · rintro ⟨index, hlt, hone⟩
    refine ⟨by omega, ?_⟩
    rcases exists_isLastReply resps order with hnone | ⟨before, last, after, hlast⟩
    · exact absurd hone (hnone index ((hmem index).2 hlt))
    · rw [peekMetaRemotes_last hlast]
      omega

end Loop

/-! ## Whether there is metadata -/

/-- The slip does not reach `peek_meta_rpc`, which only asks whether there is a remote. -/
theorem peekMetaRpc_eq_one_iff {ls : MetaStore} (h : ls.Binned) (hsize : ls.sizeHash < 2 ^ 31) (name : CStr)
    {resps : Nat → Int} {order : List Nat} {nremote : Nat} (hperm : order.Perm (List.range nremote)) :
    peekMetaRpc ls nremote name (peekMetaRemotes resps order) = some 1 ↔
      (∃ mdata, ls.Stored mdata ∧ mdata.name = name) ∨ ∃ index < nremote, resps index = 1 := by
  obtain ⟨res, hscan, hleast⟩ := MetaStore.scanNext_least h name (show (-1 : Int) ≤ -1 by omega) (by omega)
  rw [← peekMetaRemotes_gt_iff hperm]
  simp only [peekMetaRpc, hscan, Option.bind_eq_bind, Option.bind_some]
  cases res with
  | some mdata =>
      refine iff_of_true ?_ (Or.inl ⟨mdata, hleast.1.1, hleast.1.2.1⟩)
      simp only [Option.isSome_some, if_true, Option.pure_def]
  | none =>
      have hlocal : ¬ ∃ mdata, ls.Stored mdata ∧ mdata.name = name := by
        rintro ⟨mdata, hstored, hname⟩
        have := h.nonneg mdata hstored
        exact hleast mdata ⟨hstored, hname, by omega⟩
      rw [or_iff_right hlocal]
      simp only [Option.isSome_none, Bool.false_eq_true, if_false, Option.pure_def]
      split
      · next hyes => exact iff_of_true rfl hyes
      · next hno => exact iff_of_false (by decide) hno

/-- Without a reply 1 a query is answered from the own storage. -/
theorem queryMetaRpc_of_none {resps : Nat → Int} {order : List Nat} (hnone : ∀ index ∈ order, resps index ≠ 1)
    (ls : MetaStore) (remotes : List Remote) (forward : Remote → QueryMetaIn → Option QueryMetaOut)
    (req : QueryMetaIn) (fuel : Nat) :
    queryMetaRpc ls remotes resps order forward req fuel = queryMetaLocal ls req fuel := by
  have hremote : queryMetaRemote remotes resps order = none := by
    simp only [queryMetaRemote, peekMetaRemotes_eq_neg_one_iff.2 hnone]
    split
    · rfl
    · rfl
  simp only [queryMetaRpc, hremote, Option.bind_none]

/-! ## Main result -/

/-- The result is -1 without a reply 1, and else the number of a remote that replied 1, to which the query
is forwarded. -/
structure ChosenAnswered (remotes : List Remote) (resps : Nat → Int) (order : List Nat) : Prop where
  none_iff : peekMetaRemotes resps order = -1 ↔ ∀ index < remotes.length, resps index ≠ 1
  chosen : peekMetaRemotes resps order ≠ -1 → ∃ index < remotes.length,
    peekMetaRemotes resps order = index ∧ resps index = 1 ∧
      queryMetaRemote remotes resps order = remotes[index]?

/-- With the replies in one order the query goes to a remote that replied 1 exactly when the place of the last reply
1 is the number of such a remote. -/
theorem chosenAnswered_iff_place (remotes : List Remote) (resps : Nat → Int) {order : List Nat}
    (hperm : order.Perm (List.range remotes.length)) :
    ChosenAnswered remotes resps order ↔
      ∀ before index after, IsLastReply resps order before index after → resps before.length = 1 := by
  have hmem : ∀ index, index ∈ order ↔ index < remotes.length := fun index => by
    rw [hperm.mem_iff, List.mem_range]
  have hnone : peekMetaRemotes resps order = -1 ↔ ∀ index < remotes.length, resps index ≠ 1 := by
    rw [peekMetaRemotes_eq_neg_one_iff]
    simp only [hmem]
  constructor
  · intro h before index after hlast
    have hplace := peekMetaRemotes_last hlast
    obtain ⟨chosen, -, hchosen, hanswer, -⟩ := h.chosen (by omega)
    obtain rfl : before.length = chosen := by omega
    exact hanswer
  · intro h
    refine ⟨hnone, fun hsome => ?_⟩
    rcases exists_isLastReply resps order with hno | ⟨before, index, after, hlast⟩
    · exact absurd (peekMetaRemotes_eq_neg_one_iff.2 hno) hsome
    · have hplace := peekMetaRemotes_last hlast
      have hlt := hlast.length_before_lt hperm
      refine ⟨before.length, hlt, hplace, h before index after hlast, ?_⟩
      simp only [queryMetaRemote, hplace]
      rw [if_pos (by omega), if_pos (by omega), Int.toNat_natCast]

/-- The number of remotes that reply 1. -/
def answering (resps : Nat → Int) (nremote : Nat) : Nat :=
  (List.range nremote).countP (resps · = 1)

/-- All other replies 1 come before the last one. -/
theorem IsLastReply.answering_eq {resps : Nat → Int} {order before after : List Nat} {index nremote : Nat}
    (h : IsLastReply resps order before index after) (hperm : order.Perm (List.range nremote)) :
    answering resps nremote = before.countP (resps · = 1) + 1 := by
  obtain ⟨rfl, hone, hlater⟩ := h
  have hafter : after.countP (resps · = 1) = 0 :=
    List.countP_eq_zero.2 fun later hin heq => hlater later hin (of_decide_eq_true heq)
  have hhead : (index :: after).countP (resps · = 1) = after.countP (resps · = 1) + 1 :=
    List.countP_cons_of_pos (by simp [hone])
  rw [answering, ← hperm.countP_eq, List.countP_append, hhead, hafter, Nat.zero_add]

/-- Behind the other replies 1 the last one may come at any place. -/
theorem exists_order {resps : Nat → Int} {nremote place : Nat} (hplace : place < nremote)
    (hsome : 0 < answering resps nremote) (hothers : answering resps nremote ≤ place + 1) :
    ∃ order before index after, order.Perm (List.range nremote) ∧ IsLastReply resps order before index after ∧
      before.length = place := by
  have hsplit := List.filter_append_perm (fun index => decide (resps index = 1)) (List.range nremote)
  have hzero : ∀ index ∈ (List.range nremote).filter (fun index => !decide (resps index = 1)),
      resps index ≠ 1 := fun index hin => by simpa using (List.mem_filter.1 hin).2
  rw [answering, List.countP_eq_length_filter] at hsome hothers
  generalize (List.range nremote).filter (fun index => !decide (resps index = 1)) = zeros at hsplit hzero
  have hlen := hsplit.length_eq
  cases hones : (List.range nremote).filter fun index => decide (resps index = 1) with
  | nil => simp [hones] at hsome
  | cons last ones =>
      rw [hones] at hsplit hlen hothers
      rw [List.length_append, List.length_cons, List.length_range] at hlen
      rw [List.length_cons] at hothers
      have hlast : resps last = 1 := by
        have hin : last ∈ (List.range nremote).filter fun index => decide (resps index = 1) := by
          rw [hones]
          exact List.mem_cons_self
        simpa using (List.mem_filter.1 hin).2
      -- so many of the other replies come before it
      let gap := place - ones.length
      refine ⟨(ones ++ zeros.take gap) ++ last :: zeros.drop gap, ones ++ zeros.take gap, last, zeros.drop gap,
        ?_, ⟨rfl, hlast, fun later hin => hzero later (List.mem_of_mem_drop hin)⟩, ?_⟩
      · refine List.perm_middle.trans ?_
        rw [List.append_assoc, List.take_append_drop]
        exact hsplit
      · rw [List.length_append, List.length_take]
        omega

/-- For any number of remotes: with their replies given, the query goes to a remote that replied 1 in every order of
arrival exactly when, if `k` remotes reply 1, all remotes from number `k - 1` on are among them; and with the order
given, it does so for all replies exactly when they arrive in the order of the requests. -/
theorem chosenAnswered_iff (remotes : List Remote) :
    (∀ resps, (∀ order, order.Perm (List.range remotes.length) → ChosenAnswered remotes resps order) ↔
      (0 < answering resps remotes.length → ∀ index < remotes.length,
        answering resps remotes.length ≤ index + 1 → resps index = 1)) ∧
      ∀ order, order.Perm (List.range remotes.length) →
        ((∀ resps, ChosenAnswered remotes resps order) ↔ order = List.range remotes.length) := by
  refine ⟨fun resps => ⟨fun h hsome place hplace hothers => ?_, fun h order hperm => ?_⟩,
    fun order hperm => ⟨fun h => ?_, ?_⟩⟩
  · obtain ⟨order, before, index, after, hperm, hlast, rfl⟩ := exists_order hplace hsome hothers
    exact (chosenAnswered_iff_place remotes resps hperm).1 (h order hperm) before index after hlast
  · refine (chosenAnswered_iff_place remotes resps hperm).2 fun before index after hlast => ?_
    have hcount := hlast.answering_eq hperm
    have hle := @List.countP_le_length _ (resps · = 1) before
    exact h (by omega) before.length (hlast.length_before_lt hperm) (by omega)
  · -- only the remote whose reply is at a place answers 1
    refine List.ext_getElem (hperm.length_eq) fun place hplace hplace' => ?_
    rw [List.getElem_range]
    have hnodup : order.Nodup := hperm.nodup_iff.2 List.nodup_range
    have hsplit : order = order.take place ++ order[place] :: order.drop (place + 1) := by
      rw [← List.drop_eq_getElem_cons hplace, List.take_append_drop]
    have hlast : IsLastReply (fun index => if index = order[place] then 1 else 0) order (order.take place)
        order[place] (order.drop (place + 1)) := by
      refine ⟨hsplit, if_pos rfl, fun later hin heq => ?_⟩
      have hlater : later = order[place] := by
        by_contra hne
        simp [hne] at heq
      obtain ⟨k, hk, hget⟩ := List.getElem_of_mem hin
      rw [List.getElem_drop, hlater, hnodup.getElem_inj_iff] at hget
      omega
    have hone := (chosenAnswered_iff_place remotes _ hperm).1 (h _) _ _ _ hlast
    rw [List.length_take_of_le hplace.le] at hone
    by_contra hne
    simp [Ne.symm hne] at hone
  · rintro rfl resps
    refine (chosenAnswered_iff_place remotes resps hperm).2 fun before index after hlast => ?_
    have hindex : index = before.length := by
      have hget := congrArg (·[before.length]?) hlast.1
      simp only [List.getElem?_append_right le_rfl, Nat.sub_self, List.getElem?_cons_zero] at hget
      rw [List.getElem?_range (hlast.length_before_lt hperm)] at hget
      exact (Option.some.inj hget).symm
    exact hindex ▸ hlast.2.1

/-- Two remotes that reply in the order of the requests. -/
theorem chosenAnswered_iff_inOrder : ∀ resps, ChosenAnswered [⟨[97], []⟩, ⟨[98], []⟩] resps [0, 1] :=
  ((chosenAnswered_iff [⟨[97], []⟩, ⟨[98], []⟩]).2 [0, 1] (List.Perm.refl [0, 1])).2 rfl

/-- Of two remotes the second replies first, and it alone has the metadata; the first one is chosen. -/
theorem not_chosenAnswered_swapped :
    [1, 0].Perm (List.range 2) ∧
      ¬ ChosenAnswered [⟨[97], []⟩, ⟨[98], []⟩] (fun index => if index = 1 then 1 else 0) [1, 0] := by
  refine ⟨by decide, fun h => ?_⟩
  have hresult : peekMetaRemotes (fun index => if index = 1 then 1 else 0) [1, 0] = 0 := by decide
  obtain ⟨index, -, hindex, hanswer, -⟩ := h.chosen (by decide)
  obtain rfl : index = 0 := by omega
  exact absurd hanswer (by decide)

end DataSpaces
