import Mathlib.Data.List.GetD
import DataSpaces.Copy
import DataSpaces.Lib.Slots
import DataSpaces.Ops

/-!
# QualName — variable names with a name space (`dspaces_define_gdim`, `copy_var_name_to_odsc`, `fill_req`)

A client with a name space puts it before the names of its variables, with a backslash between them.  The
names are joined in a buffer for the list of global dimensions, and in the array of a descriptor; for a
request the name of the variable is taken out of the descriptor again.
-/

namespace DataSpaces

/-- A text in C, without its terminator. -/
structure CString where
  bytes : CStr
  noNul : 0 ∉ bytes
  deriving DecidableEq

def backslash : UInt8 := 92

/-- The part of `struct dspaces_client` that has to do with names.  The entries of `gdim_list` are the
names with the dimensions, the one that was added last first. -/
structure NameClient where
  nspace : Option CString
  gdimList : List (CStr × GlobalDimension)
  defaultGdim : GlobalDimension

/-- The part of an `obj_descriptor` that a request has to do with, with all the bytes of its name. -/
structure RawDesc where
  name : Nat → UInt8
  version : UInt32
  bb : BBox
  size : UInt64
  tag : Int32

/-- `struct dspaces_req`; `buf` is an address. -/
structure DspacesReq where
  varName : CString
  ver : Int32
  elemSize : Int32
  ndim : Nat
  lb : List UInt64
  ub : List UInt64
  buf : Nat
  tag : Int32

/-- `strlen(s + off)`, if the place is in the text. -/
def strlenFrom (s : CString) (off : Nat) : Option Nat :=
  if off ≤ s.bytes.length then some (s.bytes.length - off) else none

/-! ## The list of global dimensions -/

/-- What `copy_global_dimension` makes of `ndim` values. -/
def copyGlobalDimension (ndim : Nat) (gdim : Nat → UInt64) : GlobalDimension :=
  ⟨ndim, Coord.ofFn fun i => if i < ndim then gdim i else 0⟩

def lookupGdimList (gdimList : List (CStr × GlobalDimension)) (varName : CStr) : Option GlobalDimension :=
  (gdimList.find? fun e => e.1 = varName).map Prod.snd

def updateGdimList (gdimList : List (CStr × GlobalDimension)) (varName : CStr) (ndim : Nat)
    (gdim : Nat → UInt64) : List (CStr × GlobalDimension) :=
  match lookupGdimList gdimList varName with
  | none => (varName, copyGlobalDimension ndim gdim) :: gdimList
  | some _ => gdimList.map fun e => if e.1 = varName then (e.1, copyGlobalDimension ndim gdim) else e

def setGlobalDimension (gdimList : List (CStr × GlobalDimension)) (varName : CStr)
    (defaultGdim : GlobalDimension) : GlobalDimension :=
  (lookupGdimList gdimList varName).getD defaultGdim

namespace NameClient

/-- The size of the buffer that `dspaces_define_gdim` and `dspaces_get_gdim` allocate for the name; there
is none if the length is taken of memory behind the name space. -/
def longVnameSize (client : NameClient) (varName : CString) : Option Nat :=
  match client.nspace with
  -- `strlen(client->nspace + strlen(var_name) + 2)`
  | some nspace => strlenFrom nspace (varName.bytes.length + 2)
  -- the caller's own text
  | none => some (varName.bytes.length + 1)

/-- What `sprintf` writes into this buffer, whether or not it has room for it. -/
def fqVname (client : NameClient) (varName : CString) : CStr :=
  match client.nspace with
  | some nspace => nspace.bytes ++ backslash :: varName.bytes
  | none => varName.bytes

/-- `dspaces_define_gdim`. -/
def defineGdim (client : NameClient) (varName : CString) (ndim : Nat) (gdim : Nat → UInt64) : NameClient :=
  if BBOX_MAX_NDIM < ndim then client
  else { client with gdimList := updateGdimList client.gdimList (client.fqVname varName) ndim gdim }

/-- `dspaces_get_gdim`. -/
def getGdim (client : NameClient) (varName : CString) : Nat × List UInt64 :=
  let gdim := setGlobalDimension client.gdimList (client.fqVname varName) client.defaultGdim
  (gdim.ndim, (List.range gdim.ndim).map gdim.sizes.c)

end NameClient

/-! ## The name of a descriptor -/

/-- `strncpy` to place `off` of a name. -/
def strncpyName (name : Nat → UInt8) (off : Nat) (src : CStr) (n : Nat) : Option (Nat → UInt8) :=
  if off + n ≤ OD_MAX_NAME_LEN then
    some (Slots.store name off (src.take n ++ List.replicate (n - src.length) 0))
  else none

def setName (name : Nat → UInt8) (off : Nat) (b : UInt8) : Option (Nat → UInt8) :=
  if off < OD_MAX_NAME_LEN then some (Slots.store name off [b]) else none

/-- The text from place `off` of a name on. -/
def nameFrom (name : Nat → UInt8) (off : Nat) : Option CString :=
  if off < OD_MAX_NAME_LEN then
    some ⟨Slots.read 0 name (OD_MAX_NAME_LEN - off) off, Slots.nul_notMem_read _ _ _⟩
  else none

namespace NameClient

def copyVarNameToOdsc (client : NameClient) (varName : CString) (name : Nat → UInt8) :
    Option (Nat → UInt8) := do
  let name ← match client.nspace with
    | some nspace => do
        let len := nspace.bytes.length
        let name ← strncpyName name 0 nspace.bytes (OD_MAX_NAME_LEN - 1)
        let name ← setName name len backslash
        strncpyName name (len + 1) varName.bytes ((OD_MAX_NAME_LEN - len) - 1)
    | none => strncpyName name 0 varName.bytes (OD_MAX_NAME_LEN - 1)
  setName name (OD_MAX_NAME_LEN - 1) 0

/-- `fill_odsc`. -/
def fillOdsc (client : NameClient) (varName : CString) (ver : UInt32) (elemSize : Int32) (ndim : Nat)
    (lb ub : List UInt64) (odsc : RawDesc) : Option RawDesc := do
  if ndim ≤ BBOX_MAX_NDIM ∧ ndim ≤ lb.length ∧ ndim ≤ ub.length then
    let name ← client.copyVarNameToOdsc varName odsc.name
    return { odsc with
      name := name
      version := ver
      size := elemSize.toInt64.toUInt64
      bb := ⟨ndim, Coord.ofFn fun i => (lb.take ndim).getD i 0, Coord.ofFn fun i => (ub.take ndim).getD i 0⟩ }
  else none

/-- `odsc_from_req`. -/
def odscFromReq (client : NameClient) (req : DspacesReq) (odsc : RawDesc) : Option RawDesc :=
  client.fillOdsc req.varName req.ver.toUInt32 req.elemSize req.ndim req.lb req.ub odsc

/-- `fill_req`. -/
def fillReq (client : NameClient) (odsc : RawDesc) (data : Nat) : Option DspacesReq := do
  let varName ← match client.nspace with
    | some nspace => nameFrom odsc.name (nspace.bytes.length + 2)
    | none => nameFrom odsc.name 0
  return ⟨varName, odsc.version.toInt32, odsc.size.toUInt32.toInt32, odsc.bb.numDims,
    (List.range odsc.bb.numDims).map odsc.bb.lb.c, (List.range odsc.bb.numDims).map odsc.bb.ub.c, data,
    odsc.tag⟩

/-- The dimensions that `setup_put` sends with an object of this variable. -/
def putGdim (client : NameClient) (varName : CString) (name : Nat → UInt8) : Option GlobalDimension := do
  let name ← client.copyVarNameToOdsc varName name
  let key ← nameFrom name 0
  return setGlobalDimension client.gdimList key.bytes client.defaultGdim

/-! ## The property -/

/-- One call of `dspaces_define_gdim`. -/
structure GdimCall where
  varName : CString
  ndim : Nat
  gdim : Nat → UInt64

def defineAll (client : NameClient) (calls : List GdimCall) : NameClient :=
  calls.foldl (fun client call => client.defineGdim call.varName call.ndim call.gdim) client

/-- What was defined last for a variable. -/
def lastDefined (calls : List GdimCall) (varName : CString) : Option GlobalDimension :=
  (calls.reverse.find? fun call => call.varName = varName ∧ call.ndim ≤ BBOX_MAX_NDIM).map
    fun call => copyGlobalDimension call.ndim call.gdim

/-- The two boxes have the same corners. -/
structure SameBox (bb bb' : BBox) : Prop where
  dims : bb.numDims = bb'.numDims
  lb : ∀ i < bb.numDims, bb.lb.c i = bb'.lb.c i
  ub : ∀ i < bb.numDims, bb.ub.c i = bb'.ub.c i

/-- The request has what the descriptor was made of, and the descriptor that is made of it has the same
name and box, whatever was in memory before. -/
structure Undone (client : NameClient) (varName : CString) (odsc : RawDesc) (elemSize : Int32)
    (req : DspacesReq) : Prop where
  varName : req.varName = varName
  ver : req.ver.toUInt32 = odsc.version
  elemSize : req.elemSize = elemSize
  lb : req.lb = (List.range odsc.bb.numDims).map odsc.bb.lb.c
  ub : req.ub = (List.range odsc.bb.numDims).map odsc.bb.ub.c
  again : ∀ uninit, ∃ odsc', client.odscFromReq req uninit = some odsc' ∧
    nameFrom odsc'.name 0 = nameFrom odsc.name 0 ∧ SameBox odsc'.bb odsc.bb

/-- The names agree and can be undone. -/
structure Qualified (client : NameClient) (varName : CString) : Prop where
  /-- the key of the dimensions is the name of the descriptor -/
  key : ∀ uninit, ∃ name, client.copyVarNameToOdsc varName uninit = some name ∧
    (nameFrom name 0).map CString.bytes = some (client.fqVname varName)
  /-- so the dimensions that were defined last are used -/
  dims : ∀ calls gdim, lastDefined calls varName = some gdim → ∀ uninit,
    (client.defineAll calls).putGdim varName uninit = some gdim ∧
      (client.defineAll calls).getGdim varName = (gdim.ndim, (List.range gdim.ndim).map gdim.sizes.c)
  room : ∃ size, client.longVnameSize varName = some size ∧ (client.fqVname varName).length + 1 ≤ size
  undone : ∀ uninit odsc elemSize data, client.copyVarNameToOdsc varName uninit = some odsc.name →
    odsc.size = Int64.toUInt64 (Int32.toInt64 elemSize) → odsc.bb.numDims ≤ BBOX_MAX_NDIM →
      ∃ req, client.fillReq odsc data = some req ∧ client.Undone varName odsc elemSize req

/-! ## What is in a name -/

section Names

variable {name name' : Nat → UInt8} {client : NameClient} {varName : CString}

theorem store_apply (name : Nat → UInt8) (off : Nat) (l : CStr) (p : Nat) :
    Slots.store name off l p = if off ≤ p ∧ p - off < l.length then l.getD (p - off) 0 else name p := by
  by_cases h : off ≤ p ∧ p - off < l.length
  · rw [Slots.store, dif_pos h, if_pos h, List.getD_eq_getElem _ _ h.2]
    rfl
  · rw [Slots.store, dif_neg h, if_neg h]

/-- `strncpy` writes all `n` places. -/
theorem strncpyName_apply {off n : Nat} {src : CStr} (h : strncpyName name off src n = some name') {p : Nat} :
    name' p = if off ≤ p ∧ p < off + n then (src.take n).getD (p - off) 0 else name p := by
  rw [strncpyName] at h
  split at h
  case isFalse => cases h
  case isTrue =>
    cases h
    have hlength : (src.take n ++ List.replicate (n - src.length) (0 : UInt8)).length = n := by
      rw [List.length_append, List.length_take, List.length_replicate]
      omega
    rw [store_apply, hlength]
    by_cases hp : off ≤ p ∧ p - off < n
    · rw [if_pos hp, if_pos (by omega)]
      rcases Nat.lt_or_ge (p - off) (src.take n).length with hlt | hge
      · rw [List.getD_append _ _ _ _ hlt]
      · rw [List.getD_append_right _ _ _ _ hge, List.getD_eq_default _ _ hge, List.getD_replicate]
        rw [List.length_take] at hge ⊢
        omega
    · rw [if_neg hp, if_neg (by omega)]

theorem setName_apply {off : Nat} {b : UInt8} (h : setName name off b = some name') {p : Nat} :
    name' p = if p = off then b else name p := by
  rw [setName] at h
  split at h
  case isFalse => cases h
  case isTrue =>
    cases h
    rw [store_apply]
    by_cases hp : p = off
    · rw [if_pos hp, if_pos (by simp [hp]), hp, Nat.sub_self]
      rfl
    · rw [if_neg hp, if_neg (by simp; omega)]

theorem strncpyName_isSome (off n : Nat) (src : CStr) (h : off + n ≤ OD_MAX_NAME_LEN) (name : Nat → UInt8) :
    ∃ name', strncpyName name off src n = some name' :=
  ⟨_, if_pos h⟩

theorem setName_isSome (off : Nat) (b : UInt8) (h : off < OD_MAX_NAME_LEN) (name : Nat → UInt8) :
    ∃ name', setName name off b = some name' :=
  ⟨_, if_pos h⟩

theorem getD_take {l : CStr} {n k : Nat} (hk : k < n) : (l.take n).getD k 0 = l.getD k 0 := by
  rw [List.getD_eq_getElem?_getD, List.getD_eq_getElem?_getD, List.getElem?_take, if_pos hk]

/-- The array of a name is filled with the joined name and zeros. -/
theorem copyVarNameToOdsc_spec (hlen : (client.fqVname varName).length ≤ 149) (uninit : Nat → UInt8) :
    ∃ name, client.copyVarNameToOdsc varName uninit = some name ∧
      ∀ p < OD_MAX_NAME_LEN, name p = (client.fqVname varName).getD p 0 := by
  have hmax : OD_MAX_NAME_LEN = 150 := rfl
  cases hns : client.nspace with
  | none =>
      have hfq : client.fqVname varName = varName.bytes := by
        rw [fqVname, hns]
      rw [hfq] at hlen ⊢
      obtain ⟨name₁, h₁⟩ := strncpyName_isSome 0 149 varName.bytes (by decide) uninit
      obtain ⟨name₂, h₂⟩ := setName_isSome 149 0 (by decide) name₁
      refine ⟨name₂, ?_, fun p hp => ?_⟩
      · simp only [copyVarNameToOdsc, hns]
        exact Option.bind_eq_some_iff.2 ⟨name₁, h₁, h₂⟩
      · rw [setName_apply h₂]
        by_cases hlast : p = 149
        · rw [if_pos hlast, List.getD_eq_default]
          omega
        · rw [if_neg hlast, strncpyName_apply h₁, if_pos (by omega), Nat.sub_zero, getD_take (by omega)]
  | some nspace =>
      have hfq : client.fqVname varName = nspace.bytes ++ backslash :: varName.bytes := by
        rw [fqVname, hns]
      rw [hfq] at hlen ⊢
      have hlens : nspace.bytes.length + varName.bytes.length + 1 ≤ 149 := by
        rw [List.length_append, List.length_cons] at hlen
        omega
      obtain ⟨name₁, h₁⟩ := strncpyName_isSome 0 149 nspace.bytes (by decide) uninit
      obtain ⟨name₂, h₂⟩ := setName_isSome nspace.bytes.length backslash (by omega) name₁
      obtain ⟨name₃, h₃⟩ := strncpyName_isSome (nspace.bytes.length + 1)
        (150 - nspace.bytes.length - 1) varName.bytes (by omega) name₂
      obtain ⟨name₄, h₄⟩ := setName_isSome 149 0 (by decide) name₃
      refine ⟨name₄, ?_, fun p hp => ?_⟩
      · simp only [copyVarNameToOdsc, hns]
        refine Option.bind_eq_some_iff.2 ⟨name₁, h₁, Option.bind_eq_some_iff.2 ⟨name₂, h₂, ?_⟩⟩
        exact Option.bind_eq_some_iff.2 ⟨name₃, h₃, h₄⟩
      · rw [setName_apply h₄]
        by_cases hlast : p = 149
        · rw [if_pos hlast, List.getD_eq_default]
          rw [List.length_append, List.length_cons]
          omega
        · rw [if_neg hlast, strncpyName_apply h₃]
          rcases Nat.lt_trichotomy p nspace.bytes.length with hlt | heq | hgt
          · -- a character of the name space
            rw [if_neg (by omega), setName_apply h₂, if_neg (by omega), strncpyName_apply h₁,
              if_pos (by omega), Nat.sub_zero, getD_take (by omega), List.getD_append _ _ _ _ hlt]
          · rw [if_neg (by omega), setName_apply h₂, if_pos heq, List.getD_append_right _ _ _ _ heq.ge,
              heq, Nat.sub_self]
            rfl
          · -- a character of the variable, or a zero after it
            obtain ⟨k, rfl⟩ : ∃ k, p = nspace.bytes.length + 1 + k := ⟨p - nspace.bytes.length - 1, by omega⟩
            rw [if_pos (by omega), getD_take (by omega), List.getD_append_right _ _ _ _ (by omega)]
            rw [show nspace.bytes.length + 1 + k - nspace.bytes.length = k + 1 by omega, List.getD_cons_succ,
              Nat.add_sub_cancel_left]

/-- From every place of the array the rest of the name is read. -/
theorem nameFrom_eq {text : CStr} (hnul : 0 ∉ text) (hlen : text.length ≤ 149)
    (hname : ∀ p < OD_MAX_NAME_LEN, name p = text.getD p 0) {off : Nat} (hoff : off < OD_MAX_NAME_LEN) :
    (nameFrom name off).map CString.bytes = some (text.drop off) := by
  have hmax : OD_MAX_NAME_LEN = 150 := rfl
  rw [nameFrom, if_pos hoff, Option.map_some]
  refine congrArg some (Slots.read_text ?_ ?_ fun k hk => ?_)
  · rw [List.length_drop]
    omega
  · rintro a ha rfl
    exact hnul (List.mem_of_mem_drop ha)
  · have hk' : off + k < OD_MAX_NAME_LEN := by
      rw [List.length_append, List.length_drop, List.length_singleton] at hk
      omega
    rw [hname _ hk', List.get_eq_getElem, ← List.getD_eq_getElem _ 0 hk]
    rcases Nat.lt_or_ge k (text.drop off).length with hlt | hge
    · rw [List.getD_append _ _ _ _ hlt, List.getD_eq_getElem?_getD, List.getD_eq_getElem?_getD,
        List.getElem?_drop]
    · rw [List.getD_append_right _ _ _ _ hge, List.getD_eq_default]
      · rw [List.length_append, List.length_singleton] at hk
        rw [show k - (text.drop off).length = 0 by omega]
        rfl
      · rw [List.length_drop] at hge
        omega

theorem fqVname_noNul (client : NameClient) (varName : CString) : 0 ∉ client.fqVname varName := by
  rw [fqVname]
  cases client.nspace with
  | none => exact varName.noNul
  | some nspace =>
      rw [List.mem_append, List.mem_cons]
      rintro (h | h | h)
      · exact nspace.noNul h
      · exact absurd h (by decide)
      · exact varName.noNul h

theorem fqVname_inj (client : NameClient) {varName' : CString} :
    client.fqVname varName' = client.fqVname varName ↔ varName' = varName := by
  refine ⟨fun h => ?_, fun h => by rw [h]⟩
  have hbytes : varName'.bytes = varName.bytes := by
    rw [fqVname, fqVname] at h
    cases hns : client.nspace with
    | none =>
        rw [hns] at h
        exact h
    | some nspace =>
        rw [hns] at h
        exact (List.cons.inj (List.append_cancel_left h)).2
  cases varName
  cases varName'
  simpa using hbytes

end Names

/-! ## The dimensions of a variable -/

section Dims

variable (client : NameClient) (varName : CString)

theorem lookup_updateGdimList (gdimList : List (CStr × GlobalDimension)) (key name : CStr) (ndim : Nat)
    (gdim : Nat → UInt64) :
    lookupGdimList (updateGdimList gdimList name ndim gdim) key =
      if key = name then some (copyGlobalDimension ndim gdim) else lookupGdimList gdimList key := by
  rw [updateGdimList]
  cases hlook : lookupGdimList gdimList name with
  | none =>
      by_cases hkey : key = name
      · simp [lookupGdimList, hkey]
      · simp [lookupGdimList, hkey, Ne.symm hkey]
  | some old =>
      have hkeys : (fun e : CStr × GlobalDimension => decide (e.1 = key)) ∘
          (fun e => if e.1 = name then (e.1, copyGlobalDimension ndim gdim) else e) =
            fun e => decide (e.1 = key) := by
        funext e
        rw [Function.comp_apply]
        split <;> rfl
      simp only [lookupGdimList, List.find?_map, hkeys, Option.map_map]
      by_cases hkey : key = name
      · rw [if_pos hkey, hkey]
        obtain ⟨e, he, -⟩ := Option.map_eq_some_iff.1 hlook
        have hname : e.1 = name := by simpa using List.find?_some he
        rw [he]
        simp [hname]
      · rw [if_neg hkey]
        cases hfind : gdimList.find? fun e => decide (e.1 = key) with
        | none => rfl
        | some e =>
            have hname : e.1 = key := by simpa using List.find?_some hfind
            simp [hname, hkey]

theorem fqVname_defineGdim (call : CString) (ndim : Nat) (gdim : Nat → UInt64) :
    (client.defineGdim call ndim gdim).fqVname varName = client.fqVname varName := by
  rw [defineGdim]
  split <;> rfl

theorem nspace_defineAll (calls : List GdimCall) : (client.defineAll calls).nspace = client.nspace := by
  induction calls generalizing client with
  | nil => rfl
  | cons call calls ih =>
      rw [defineAll, List.foldl_cons]
      refine (ih _).trans ?_
      rw [defineGdim]
      split <;> rfl

theorem lookup_defineGdim (call : CString) (ndim : Nat) (gdim : Nat → UInt64) :
    lookupGdimList (client.defineGdim call ndim gdim).gdimList (client.fqVname varName) =
      if call = varName ∧ ndim ≤ BBOX_MAX_NDIM then some (copyGlobalDimension ndim gdim)
      else lookupGdimList client.gdimList (client.fqVname varName) := by
  rw [defineGdim]
  by_cases hdim : BBOX_MAX_NDIM < ndim
  · rw [if_pos hdim, if_neg (fun h => Nat.not_le.2 hdim h.2)]
  · rw [if_neg hdim, lookup_updateGdimList]
    refine if_congr ?_ rfl rfl
    rw [eq_comm, fqVname_inj, and_iff_left (Nat.not_lt.1 hdim)]

/-- After any calls of `dspaces_define_gdim` the list has what was defined last under the name. -/
theorem lookup_defineAll (calls : List GdimCall) : ∀ client : NameClient,
    lookupGdimList (client.defineAll calls).gdimList (client.fqVname varName) =
      (lastDefined calls varName).or (lookupGdimList client.gdimList (client.fqVname varName)) := by
  induction calls with
  | nil => exact fun _ => rfl
  | cons call calls ih =>
      intro client
      have hrest := ih (client.defineGdim call.varName call.ndim call.gdim)
      rw [fqVname_defineGdim, lookup_defineGdim] at hrest
      rw [defineAll, List.foldl_cons]
      apply hrest.trans
      rw [lastDefined, lastDefined, List.reverse_cons, List.find?_append, Option.map_or, Option.or_assoc]
      congr 1
      by_cases hcall : call.varName = varName ∧ call.ndim ≤ BBOX_MAX_NDIM
      · simp [hcall]
      · simp [hcall]

end Dims

/-! ## The parts of the property -/

section Parts

variable {client : NameClient} {varName : CString}

theorem copyVarNameToOdsc_nameFrom (hlen : (client.fqVname varName).length ≤ 149) (uninit : Nat → UInt8) :
    ∃ name, client.copyVarNameToOdsc varName uninit = some name ∧
      ∀ off < OD_MAX_NAME_LEN,
        (nameFrom name off).map CString.bytes = some ((client.fqVname varName).drop off) := by
  obtain ⟨name, hcopy, hname⟩ := copyVarNameToOdsc_spec hlen uninit
  exact ⟨name, hcopy, fun off hoff => nameFrom_eq (fqVname_noNul client varName) hlen hname hoff⟩

/-- The descriptor has the name under which the dimensions are stored. -/
theorem key_eq (hlen : (client.fqVname varName).length ≤ 149) (uninit : Nat → UInt8) :
    ∃ name, client.copyVarNameToOdsc varName uninit = some name ∧
      (nameFrom name 0).map CString.bytes = some (client.fqVname varName) := by
  obtain ⟨name, hcopy, hname⟩ := copyVarNameToOdsc_nameFrom hlen uninit
  exact ⟨name, hcopy, hname 0 (by decide)⟩

theorem putGdim_eq (hlen : (client.fqVname varName).length ≤ 149) (uninit : Nat → UInt8) :
    client.putGdim varName uninit =
      some (setGlobalDimension client.gdimList (client.fqVname varName) client.defaultGdim) := by
  obtain ⟨name, hcopy, hkey⟩ := key_eq hlen uninit
  obtain ⟨key, hname, hbytes⟩ := Option.map_eq_some_iff.1 hkey
  rw [← hbytes]
  exact Option.bind_eq_some_iff.2 ⟨name, hcopy, Option.bind_eq_some_iff.2 ⟨key, hname, rfl⟩⟩

/-- A put and a get use the dimensions that were defined last for the variable. -/
theorem dims_eq (hlen : (client.fqVname varName).length ≤ 149) {calls : List GdimCall}
    {gdim : GlobalDimension} (hlast : lastDefined calls varName = some gdim) (uninit : Nat → UInt8) :
    (client.defineAll calls).putGdim varName uninit = some gdim ∧
      (client.defineAll calls).getGdim varName = (gdim.ndim, (List.range gdim.ndim).map gdim.sizes.c) := by
  have hname : (client.defineAll calls).fqVname varName = client.fqVname varName := by
    rw [fqVname, fqVname, nspace_defineAll]
  have hlook := lookup_defineAll varName calls client
  rw [hlast, Option.some_or] at hlook
  constructor
  · rw [putGdim_eq (hname.symm ▸ hlen), hname, setGlobalDimension, hlook]
    rfl
  · rw [getGdim, hname, setGlobalDimension, hlook]
    rfl

/-- A client with a name space never has room for the name. -/
theorem room_iff : (∃ size, client.longVnameSize varName = some size ∧
    (client.fqVname varName).length + 1 ≤ size) ↔ client.nspace = none := by
  cases hns : client.nspace with
  | none =>
      refine iff_of_true ⟨varName.bytes.length + 1, ?_, ?_⟩ rfl
      · rw [longVnameSize, hns]
      · rw [fqVname, hns]
  | some nspace =>
      refine iff_of_false ?_ (Option.some_ne_none _)
      rintro ⟨size, hsize, hroom⟩
      rw [longVnameSize, hns] at hsize
      simp only [strlenFrom] at hsize
      split at hsize
      case isFalse => cases hsize
      case isTrue =>
        cases hsize
        rw [fqVname, hns, List.length_append, List.length_cons] at hroom
        omega

theorem bytes_injective : Function.Injective CString.bytes := by
  rintro ⟨s, _⟩ ⟨s', _⟩ h
  exact (CString.mk.injEq _ _ _ _).mpr h

theorem copied_coord (bb : BBox) (c : Nat → UInt64) (hdims : bb.numDims ≤ BBOX_MAX_NDIM) {i : Nat}
    (hi : i < bb.numDims) :
    (Coord.ofFn fun i => (((List.range bb.numDims).map c).take bb.numDims).getD i 0).c i = c i := by
  rw [Coord.c_ofFn _ (hi.trans_le hdims), List.take_of_length_le (by simp),
    List.getD_eq_getElem _ _ (by simpa using hi)]
  simp

/-- What `odsc_from_req` makes of a request with the fields of the descriptor. -/
theorem odscFromReq_again (hlen : (client.fqVname varName).length ≤ 149) {uninit : Nat → UInt8}
    {odsc : RawDesc} (hcopy : client.copyVarNameToOdsc varName uninit = some odsc.name)
    (hdims : odsc.bb.numDims ≤ BBOX_MAX_NDIM) {req : DspacesReq} (hvar : req.varName = varName)
    (hndim : req.ndim = odsc.bb.numDims) (hlb : req.lb = (List.range odsc.bb.numDims).map odsc.bb.lb.c)
    (hub : req.ub = (List.range odsc.bb.numDims).map odsc.bb.ub.c) (uninit' : RawDesc) :
    ∃ odsc', client.odscFromReq req uninit' = some odsc' ∧
      nameFrom odsc'.name 0 = nameFrom odsc.name 0 ∧ SameBox odsc'.bb odsc.bb := by
  obtain ⟨name', hcopy', hname'⟩ := key_eq hlen uninit'.name
  obtain ⟨name, hcopy₀, hname⟩ := key_eq hlen uninit
  obtain rfl : name = odsc.name := Option.some.inj (hcopy₀.symm.trans hcopy)
  have hsame : nameFrom name' 0 = nameFrom odsc.name 0 :=
    Option.map_injective bytes_injective (hname'.trans hname.symm)
  have hfits : odsc.bb.numDims ≤ BBOX_MAX_NDIM ∧
      odsc.bb.numDims ≤ ((List.range odsc.bb.numDims).map odsc.bb.lb.c).length ∧
      odsc.bb.numDims ≤ ((List.range odsc.bb.numDims).map odsc.bb.ub.c).length := by
    simpa using hdims
  rw [odscFromReq, fillOdsc, hvar, hndim, hlb, hub, if_pos hfits]
  refine ⟨_, Option.bind_eq_some_iff.2 ⟨name', hcopy', rfl⟩, hsame, rfl, fun i hi => ?_, fun i hi => ?_⟩
  · exact copied_coord odsc.bb odsc.bb.lb.c hdims hi
  · exact copied_coord odsc.bb odsc.bb.ub.c hdims hi

/-- The place in a descriptor's name from which `fill_req` takes the name of the variable. -/
def reqOffset (client : NameClient) : Nat :=
  match client.nspace with
  | some nspace => nspace.bytes.length + 2
  | none => 0

theorem fillReq_eq_some {odsc : RawDesc} {data : Nat} {req : DspacesReq}
    (h : client.fillReq odsc data = some req) :
    ∃ name, nameFrom odsc.name client.reqOffset = some name ∧ req = ⟨name, odsc.version.toInt32,
      odsc.size.toUInt32.toInt32, odsc.bb.numDims, (List.range odsc.bb.numDims).map odsc.bb.lb.c,
      (List.range odsc.bb.numDims).map odsc.bb.ub.c, data, odsc.tag⟩ := by
  rw [fillReq] at h
  rw [reqOffset]
  cases hns : client.nspace with
  | none =>
      rw [hns] at h
      obtain ⟨name, hname, heq⟩ := Option.bind_eq_some_iff.1 h
      exact ⟨name, hname, (Option.some.inj heq).symm⟩
  | some nspace =>
      rw [hns] at h
      obtain ⟨name, hname, heq⟩ := Option.bind_eq_some_iff.1 h
      exact ⟨name, hname, (Option.some.inj heq).symm⟩

theorem fillReq_isSome {odsc : RawDesc} {name : CString}
    (hname : nameFrom odsc.name client.reqOffset = some name) (data : Nat) :
    ∃ req, client.fillReq odsc data = some req ∧ req.varName = name := by
  rw [reqOffset] at hname
  rw [fillReq]
  cases hns : client.nspace with
  | none =>
      rw [hns] at hname
      exact ⟨_, Option.bind_eq_some_iff.2 ⟨name, hname, rfl⟩, rfl⟩
  | some nspace =>
      rw [hns] at hname
      exact ⟨_, Option.bind_eq_some_iff.2 ⟨name, hname, rfl⟩, rfl⟩

/-- A request that has the name of the variable has all the rest. -/
theorem undone_of_varName (hlen : (client.fqVname varName).length ≤ 149) {uninit : Nat → UInt8}
    {odsc : RawDesc} {elemSize : Int32} {data : Nat} {req : DspacesReq}
    (hcopy : client.copyVarNameToOdsc varName uninit = some odsc.name)
    (hsize : odsc.size = Int64.toUInt64 (Int32.toInt64 elemSize)) (hdims : odsc.bb.numDims ≤ BBOX_MAX_NDIM)
    (hreq : client.fillReq odsc data = some req) (hvar : req.varName = varName) :
    client.Undone varName odsc elemSize req := by
  obtain ⟨name, -, heq⟩ := fillReq_eq_some hreq
  subst heq
  refine ⟨hvar, UInt32.toUInt32_toInt32 _, ?_, rfl, rfl, fun uninit' => ?_⟩
  · change odsc.size.toUInt32.toInt32 = elemSize
    rw [hsize, toInt32_toUInt64]
  · exact odscFromReq_again hlen hcopy hdims hvar rfl rfl rfl uninit'

/-- From where `fill_req` reads, there is the name of the variable if the client has no name space or the
name is empty. -/
theorem nameFrom_reqOffset (hlen : (client.fqVname varName).length ≤ 149) {uninit name : Nat → UInt8}
    (hcopy : client.copyVarNameToOdsc varName uninit = some name)
    (hoff : client.reqOffset < OD_MAX_NAME_LEN) :
    nameFrom name client.reqOffset = some varName ↔ client.nspace = none ∨ varName.bytes = [] := by
  obtain ⟨name', hcopy', hname⟩ := copyVarNameToOdsc_nameFrom hlen uninit
  obtain rfl : name' = name := Option.some.inj (hcopy'.symm.trans hcopy)
  obtain ⟨text, htext, hbytes⟩ := Option.map_eq_some_iff.1 (hname _ hoff)
  rw [htext, Option.some.injEq, ← bytes_injective.eq_iff, hbytes]
  cases hns : client.nspace with
  | none => simp [fqVname, reqOffset, hns]
  | some nspace =>
      have hdrop : (client.fqVname varName).drop client.reqOffset = varName.bytes.drop 1 := by
        simp only [fqVname, reqOffset, hns]
        rw [List.drop_length_add_append]
        rfl
      rw [hdrop, or_iff_right (Option.some_ne_none _)]
      refine ⟨fun h => ?_, fun h => by rw [h]; rfl⟩
      have hlength := congrArg List.length h
      rw [List.length_drop] at hlength
      exact List.eq_nil_of_length_eq_zero (by omega)

/-- The name is taken out of the descriptor as it was put in, except with a name space: there its first
character is left out. -/
theorem undone_iff (hlen : (client.fqVname varName).length ≤ 149) :
    (∀ uninit odsc elemSize data, client.copyVarNameToOdsc varName uninit = some odsc.name →
      odsc.size = Int64.toUInt64 (Int32.toInt64 elemSize) → odsc.bb.numDims ≤ BBOX_MAX_NDIM →
        ∃ req, client.fillReq odsc data = some req ∧ client.Undone varName odsc elemSize req) ↔
      client.reqOffset < OD_MAX_NAME_LEN ∧ (client.nspace = none ∨ varName.bytes = []) := by
  constructor
  · intro h
    obtain ⟨name, hcopy, -⟩ := key_eq hlen fun _ => 0
    obtain ⟨req, hreq, hundone⟩ := h _ ⟨name, 0, BBox.line 0 0, 0, 0⟩ 0 0 hcopy rfl (Nat.le_of_ble_eq_true rfl)
    obtain ⟨text, htext, heq⟩ := fillReq_eq_some hreq
    have hvar : text = varName := by
      rw [← hundone.varName, heq]
    have hoff : client.reqOffset < OD_MAX_NAME_LEN := by
      by_contra hnot
      rw [nameFrom, if_neg hnot] at htext
      cases htext
    exact ⟨hoff, (nameFrom_reqOffset hlen hcopy hoff).1 (hvar ▸ htext)⟩
  · rintro ⟨hoff, hname⟩ uninit odsc elemSize data hcopy hsize hdims
    have htext := (nameFrom_reqOffset hlen hcopy hoff).2 hname
    obtain ⟨req, hreq, hvar⟩ := fillReq_isSome htext data
    exact ⟨req, hreq, undone_of_varName hlen hcopy hsize hdims hreq hvar⟩

end Parts

/-- The names agree and can be undone exactly for a client without a name space. -/
theorem qualified_iff (client : NameClient) (varName : CString)
    (hlen : (client.fqVname varName).length ≤ 149) : client.Qualified varName ↔ client.nspace = none := by
  refine ⟨fun h => room_iff.1 h.room, fun hns => ⟨key_eq hlen, fun calls gdim => dims_eq hlen,
    room_iff.2 hns, (undone_iff hlen).2 ⟨?_, Or.inl hns⟩⟩⟩
  rw [reqOffset, hns]
  decide

/-- The variable `temp` of a client without a name space. -/
theorem qualified_iff_temp :
    (⟨none, [], ⟨0, Coord.ofFn fun _ => 0⟩⟩ : NameClient).Qualified ⟨[116, 101, 109, 112], by decide⟩ :=
  (qualified_iff _ _ (by decide)).2 rfl

def dsTemp : NameClient × CString :=
  (⟨some ⟨[100, 115], by decide⟩, [], ⟨0, Coord.ofFn fun _ => 0⟩⟩, ⟨[116, 101, 109, 112], by decide⟩)

/-- In the name space `ds` the length for the buffer of the variable `temp` is taken from outside the name
space, and the request that is made of its descriptor has the name `emp`. -/
theorem not_qualified_temp :
    dsTemp.1.longVnameSize dsTemp.2 = none ∧
      ((dsTemp.1.copyVarNameToOdsc dsTemp.2 fun _ => 0).bind fun name =>
        (dsTemp.1.fillReq ⟨name, 0, BBox.line 0 7, 8, 0⟩ 0).map fun req => req.varName.bytes) =
          some [101, 109, 112] ∧
      ¬ dsTemp.1.Qualified dsTemp.2 := by
  refine ⟨by decide, by decide +kernel, fun h => ?_⟩
  obtain ⟨size, hsize, -⟩ := h.room
  cases hsize

end NameClient

end DataSpaces
