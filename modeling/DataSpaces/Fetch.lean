import DataSpaces.Copy
import DataSpaces.Lib.Cover
import DataSpaces.Server

/-!
# Fetch — from descriptors to data (`get_rpc`, `get_data`)

A client that was given descriptors asks the owner of each for the data, and copies what it receives into
the buffer of the caller.  The owner looks its own storage up again with the descriptor and copies the part
that was asked for out of the object it finds.

Transfers, and the compression around them, are lossless here; a transfer that is larger than the memory
that the client registered for it does not take place.
-/

namespace DataSpaces

abbrev DS_CLIENT_STORAGE : UInt32 := 0x01

def objDataSize (objDesc : ObjDesc) : UInt64 :=
  objDesc.size * bboxVolume objDesc.bb

/-- `obj_data_alloc_no_data`. -/
def objDataAllocNoData (odsc : ObjDesc) (data : Buf) : ObjData where
  objDesc := odsc
  gdim := ⟨0, Coord.ofFn fun _ => 0⟩
  data := data

/-- The bytes that `obj_data_alloc` is given by `malloc`, if it is. -/
def objDataAllocBytes (odsc : ObjDesc) : Option Nat :=
  let size := (objDataSize odsc).toUInt32.toInt32
  if size < 0 then none else some size.toInt.toNat

/-- `obj_data_alloc` for an object whose whole data is then written or sent; `malloced` is what is in the
memory that `malloc` returns.  It is `none` when there is no memory, or not enough for the data. -/
def objDataAlloc (odsc : ObjDesc) (malloced : Buf) : Option ObjData := do
  let bytes ← objDataAllocBytes odsc
  if (objDataSize odsc).toNat ≤ bytes then
    return objDataAllocNoData odsc malloced
  else none

/-- `get_rpc`: the memory that is sent.  There is no check that `ls_find` has found anything. -/
def Server.getRpc (conf : Conf) (sv : Server) (inOdsc : ObjDesc) (malloced : Buf) : Option Buf := do
  let fromObj ←
    if conf.remotes.isSome && (sv.ps.lsLookup inOdsc.name).isSome then sv.ps.lsFind inOdsc
    else sv.ls.lsFind inOdsc
  let od ← objDataAlloc inOdsc malloced
  let (od, _) ← ssdCopy od fromObj
  return od.data

section Get

variable (conf : Conf) (g : Group) (getLocal : ObjDesc → Option Buf) (malloced : Nat → Buf)

/-- `od[i]` of `get_data` after the transfer.  `getLocal` is what `get_local_rpc` of a client sends. -/
def fetchObj (reqObj : ObjDesc) (i : Nat) (odsc : ObjDesc) : Option ObjData := do
  let sent ←
    if odsc.flags &&& DS_CLIENT_STORAGE ≠ 0 then getLocal odsc
    else
      match odsc.owner with
      | .server rank => (g.server rank).getRpc conf odsc (malloced (2 * i))
      | .client _ => none
      | .none => none
  let od ← objDataAlloc odsc (malloced (2 * i + 1))
  -- the transfer has the element size of the request, the memory that of the descriptor
  let rdmaSize := reqObj.size * bboxVolume odsc.bb
  if objDataSize odsc ≤ rdmaSize then
    return { od with data := memcpy od.data sent 0 0 (objDataSize odsc).toNat }
  else none

/-- The loop of `get_data` from descriptor number `i` on. -/
def getDataLoop (reqObj : ObjDesc) : List ObjDesc → Nat → ObjData → Option ObjData
  | [], _, returnOd => some returnOd
  | odsc :: odscTab, i, returnOd => do
      let od ← fetchObj conf g getLocal malloced reqObj i odsc
      let (returnOd, _) ← ssdCopy returnOd od
      getDataLoop reqObj odscTab (i + 1) returnOd

/-- `get_data`: the buffer of the caller afterwards. -/
def getData (reqObj : ObjDesc) (odscTab : List ObjDesc) (data : Buf) : Option Buf :=
  (getDataLoop conf g getLocal malloced reqObj odscTab 0 (objDataAllocNoData reqObj data)).map ObjData.data

end Get

/-! ## Copies between boxes that can be addressed -/

/-- A valid box of 1 to 9 dimensions whose elements of `sz` bytes can be addressed. -/
structure BBox.Holds (bb : BBox) (sz : ℕ) : Prop where
  valid : bb.Valid
  nine : bb.numDims ≤ 9
  bytes : bb.cells.card * sz < 2 ^ 64
  bounded : ∀ i < bb.numDims, bb.ub.c i ≠ 0xffffffffffffffff

/-- A valid box whose elements of `sz` bytes can be addressed, of any number of dimensions. -/
structure BBox.InMemory (bb : BBox) (sz : ℕ) : Prop where
  valid : bb.Valid
  bytes : bb.cells.card * sz < 2 ^ 64
  bounded : sz = 0 → ∀ i < bb.numDims, bb.ub.c i ≠ 0xffffffffffffffff

theorem BBox.Holds.inMemory {bb : BBox} {sz : ℕ} (h : bb.Holds sz) : bb.InMemory sz :=
  ⟨h.valid, h.bytes, fun _ => h.bounded⟩

/-- A copy, except in ten dimensions between boxes that start at different places. -/
theorem ssdCopy_inMemory (toObj fromObj : ObjData)
    (hto : toObj.objDesc.bb.InMemory toObj.objDesc.size.toNat)
    (hfrom : fromObj.objDesc.bb.InMemory toObj.objDesc.size.toNat)
    (hd : toObj.objDesc.bb.numDims = fromObj.objDesc.bb.numDims)
    (hten : toObj.objDesc.bb.numDims = 10 → toObj.objDesc.bb.lb.c 9 = fromObj.objDesc.bb.lb.c 9)
    (hmeet : bboxDoesIntersect toObj.objDesc.bb fromObj.objDesc.bb = true) :
    ∃ r n, ssdCopy toObj fromObj = some (r, n) ∧ Copied toObj fromObj r := by
  by_cases hpos : 0 < toObj.objDesc.size.toNat
  · rcases ssdCopy_spec hto.valid hfrom.valid hd hten hmeet hpos hto.bytes hfrom.bytes with
      ⟨r, n, hcopy, hcopied, -⟩
    exact ⟨r, n, hcopy, hcopied⟩
  · have hzero : toObj.objDesc.size.toNat = 0 := Nat.eq_zero_of_not_pos hpos
    refine ssdCopy_no_bytes hto.valid hfrom.valid hd hmeet (UInt64.toNat_inj.1 hzero) fun i hi => ?_
    have hlt := (toObj.objDesc.bb.ub.c i).toNat_lt
    have hne : (toObj.objDesc.bb.ub.c i).toNat ≠ 2 ^ 64 - 1 :=
      fun hmax => hto.bounded hzero i hi (UInt64.toNat_inj.1 hmax)
    rw [BBox.side]
    omega

theorem ssdCopy_holds (toObj fromObj : ObjData) (hto : toObj.objDesc.bb.Holds toObj.objDesc.size.toNat)
    (hfrom : fromObj.objDesc.bb.Holds toObj.objDesc.size.toNat)
    (hd : toObj.objDesc.bb.numDims = fromObj.objDesc.bb.numDims)
    (hmeet : bboxDoesIntersect toObj.objDesc.bb fromObj.objDesc.bb = true) :
    ∃ r n, ssdCopy toObj fromObj = some (r, n) ∧ Copied toObj fromObj r := by
  have hnine := hto.nine
  exact ssdCopy_inMemory toObj fromObj hto.inMemory hfrom.inMemory hd (fun hten => by omega) hmeet

theorem offset_congr {b0 b1 : BBox} (h : bboxEquals b0 b1 = true) (hdims : b0.numDims ≤ BBOX_MAX_NDIM)
    (x : Cell) : b0.offset x = b1.offset x := by
  rcases bboxEquals_iff.1 h with ⟨hd, hc⟩
  rw [BBox.offset, BBox.offset, ← hd]
  refine Radix.value_congr (fun i hi => ?_) fun i hi => ?_
  · rw [BBox.side, BBox.side, (hc i hi).1, (hc i hi).2]
  · have hlt : i < BBOX_MAX_NDIM := lt_of_lt_of_le hi hdims
    rw [BBox.rel_eq _ _ hlt, BBox.rel_eq _ _ hlt, (hc i hi).1]

/-- The memory of an object holds the given bytes at every cell of its box. -/
def HoldsBytes (bb : BBox) (sz : ℕ) (byte : Cell → ℕ → UInt8) (data : Buf) : Prop :=
  ∀ x ∈ bb.cells, ∀ c < sz, data (bb.offset x * sz + c) = byte x c

theorem BBox.offset_lt_card {bb : BBox} (hdims : bb.numDims ≤ BBOX_MAX_NDIM) {x : Cell}
    (hx : x ∈ bb.cells) : bb.offset x < bb.cells.card := by
  rw [BBox.card_eq_weight hdims]
  exact Radix.value_lt (BBox.rel_lt_side hdims hx)

theorem toNat_objDataSize {odsc : ObjDesc} (hv : odsc.bb.Valid)
    (hbytes : odsc.bb.cells.card * odsc.size.toNat < 2 ^ 64) :
    (objDataSize odsc).toNat = odsc.bb.cells.card * odsc.size.toNat := by
  rw [objDataSize, bboxVolume_eq hv.nearValid, UInt64.toNat_mul, UInt64.toNat_ofNat', Nat.mul_mod_mod,
    Nat.mul_comm, Nat.mod_eq_of_lt hbytes]

/-- What `obj_data_alloc` asks for below 2 GiB is the size of the object. -/
theorem objDataAllocBytes_eq {odsc : ObjDesc} (hv : odsc.bb.Valid)
    (hbytes : odsc.bb.cells.card * odsc.size.toNat < 2 ^ 31) :
    objDataAllocBytes odsc = some (odsc.bb.cells.card * odsc.size.toNat) := by
  have hsize : objDataSize odsc = UInt64.ofNat (odsc.bb.cells.card * odsc.size.toNat) := by
    rw [← UInt64.toNat_inj, toNat_objDataSize hv (by omega), UInt64.toNat_ofNat',
      Nat.mod_eq_of_lt (by omega)]
  have hint := toInt_int_ofNat hbytes
  rw [objDataAllocBytes, hsize]
  rw [if_neg, hint, Int.toNat_natCast]
  rw [Int32.lt_iff_toInt_lt, hint, Int32.toInt_zero]
  omega

theorem objDataAllocBytes_lt {odsc : ObjDesc} {cap : ℕ} (h : objDataAllocBytes odsc = some cap) :
    cap < 2 ^ 31 := by
  rw [objDataAllocBytes] at h
  split at h
  · cases h
  · simp only [Option.some.injEq] at h
    have := (objDataSize odsc).toUInt32.toInt32.toInt_lt
    omega

theorem objDataAlloc_eq {odsc : ObjDesc} (hv : odsc.bb.Valid)
    (hbytes : odsc.bb.cells.card * odsc.size.toNat < 2 ^ 31) (malloced : Buf) :
    objDataAlloc odsc malloced = some (objDataAllocNoData odsc malloced) := by
  have hsize := toNat_objDataSize hv (by omega)
  rw [objDataAlloc, objDataAllocBytes_eq hv hbytes, Option.bind_eq_bind, Option.bind_some,
    if_pos hsize.le]
  rfl

theorem objDataAlloc_some {odsc : ObjDesc} {malloced : Buf} {od : ObjData}
    (h : objDataAlloc odsc malloced = some od) :
    od = objDataAllocNoData odsc malloced ∧ (objDataSize odsc).toNat < 2 ^ 31 := by
  obtain ⟨bytes, hbytes, h⟩ := Option.bind_eq_some_iff.1 h
  split at h
  · next hle =>
      cases h
      exact ⟨rfl, hle.trans_lt (objDataAllocBytes_lt hbytes)⟩
  · cases h

section Fetch

variable {conf : Conf} {g : Group} {getLocal : ObjDesc → Option Buf} {malloced : Nat → Buf}
  {reqObj : ObjDesc} {byte : Cell → ℕ → UInt8}

/-- Fetching a descriptor whose owner has an object that covers it. -/
theorem fetchObj_spec {odsc : ObjDesc} {rank : Nat} {src : ObjData} (hremotes : conf.remotes = none)
    (hsmall : odsc.bb.cells.card * odsc.size.toNat < 2 ^ 31)
    (hflags : odsc.flags &&& DS_CLIENT_STORAGE = 0) (howner : odsc.owner = .server rank)
    (hfind : (g.server rank).ls.lsFind odsc = some src) (hsize : odsc.size = reqObj.size)
    (hodsc : odsc.bb.Holds odsc.size.toNat) (hsrc : src.objDesc.bb.Holds odsc.size.toNat)
    (hd : odsc.bb.numDims = src.objDesc.bb.numDims) (hsub : odsc.bb.cells ⊆ src.objDesc.bb.cells)
    (hbytes : HoldsBytes src.objDesc.bb odsc.size.toNat byte src.data) (i : Nat) :
    ∃ od, fetchObj conf g getLocal malloced reqObj i odsc = some od ∧ od.objDesc = odsc ∧
      HoldsBytes odsc.bb odsc.size.toNat byte od.data := by
  rcases hodsc.valid.cells_nonempty with ⟨x₀, hx₀⟩
  have hmeet : bboxDoesIntersect odsc.bb src.objDesc.bb = true :=
    bboxDoesIntersect_of_mem hd hodsc.valid.dims hx₀ (hsub hx₀)
  rcases ssdCopy_holds (objDataAllocNoData odsc (malloced (2 * i))) src hodsc hsrc hd hmeet with
    ⟨r, n, hcopy, hcopied⟩
  have hrpc : (g.server rank).getRpc conf odsc (malloced (2 * i)) = some r.data := by
    simp only [Server.getRpc, hremotes, Option.isSome_none, Bool.false_and, Bool.false_eq_true, if_false,
      hfind, objDataAlloc_eq hodsc.valid hsmall, Option.bind_eq_bind, Option.bind_some, hcopy]
    rfl
  have hrdma : objDataSize odsc ≤ reqObj.size * bboxVolume odsc.bb := by
    rw [objDataSize, hsize]
    exact UInt64.le_refl _
  refine ⟨objDataAllocNoData odsc (memcpy (malloced (2 * i + 1)) r.data 0 0 (objDataSize odsc).toNat), ?_, rfl,
    fun x hx c hc => ?_⟩
  · simp only [fetchObj, hflags, ne_eq, not_true_eq_false, if_false, howner, hrpc,
      objDataAlloc_eq hodsc.valid hsmall, Option.bind_eq_bind, Option.bind_some, hrdma, if_true]
    rfl
  · -- the byte is inside what was sent
    have hpos : odsc.bb.offset x * odsc.size.toNat + c < odsc.bb.cells.card * odsc.size.toNat :=
      calc odsc.bb.offset x * odsc.size.toNat + c
          < odsc.bb.offset x * odsc.size.toNat + odsc.size.toNat := Nat.add_lt_add_left hc _
        _ = (odsc.bb.offset x + 1) * odsc.size.toNat := (Nat.succ_mul _ _).symm
        _ ≤ odsc.bb.cells.card * odsc.size.toNat :=
            Nat.mul_le_mul_right _ (BBox.offset_lt_card hodsc.valid.dims.2 hx)
    have hsent : (0 : ℕ) ≤ odsc.bb.offset x * odsc.size.toNat + c ∧
        odsc.bb.offset x * odsc.size.toNat + c < 0 + (objDataSize odsc).toNat := by
      rw [toNat_objDataSize hodsc.valid hodsc.bytes]
      omega
    have hcopy' := hcopied.inside x (Finset.mem_inter.2 ⟨hx, hsub hx⟩) c hc
    simp only [objDataAllocNoData, memcpy]
    rw [if_pos hsent, Nat.zero_add, Nat.sub_zero]
    exact hcopy'.trans (hbytes x (hsub hx) c hc)

/-- The buffer holds the right bytes at every cell of the request that a descriptor covers, when every
descriptor can be fetched. -/
theorem getDataLoop_spec (hreq : reqObj.bb.Holds reqObj.size.toNat) (odscTab : List ObjDesc) :
    ∀ (i : Nat) (returnOd : ObjData) (boxes : List BBox),
      returnOd.objDesc.bb = reqObj.bb → returnOd.objDesc.size = reqObj.size →
      (∀ odsc ∈ odscTab, odsc.bb.Holds reqObj.size.toNat ∧ odsc.bb.numDims = reqObj.bb.numDims ∧
        odsc.bb.cells ⊆ reqObj.bb.cells ∧
        ∀ i, ∃ od, fetchObj conf g getLocal malloced reqObj i odsc = some od ∧ od.objDesc = odsc ∧
          HoldsBytes odsc.bb reqObj.size.toNat byte od.data) →
      (∀ x ∈ reqObj.bb.cells, x ∈ Cover.union BBox.cells boxes → ∀ c < reqObj.size.toNat,
        returnOd.data (reqObj.bb.offset x * reqObj.size.toNat + c) = byte x c) →
      ∃ out, getDataLoop conf g getLocal malloced reqObj odscTab i returnOd = some out ∧
        ∀ x ∈ reqObj.bb.cells, x ∈ Cover.union BBox.cells (boxes ++ odscTab.map ObjDesc.bb) →
          ∀ c < reqObj.size.toNat,
            out.data (reqObj.bb.offset x * reqObj.size.toNat + c) = byte x c := by
  induction odscTab with
  | nil =>
      intro i returnOd boxes _ _ _ hdone
      exact ⟨returnOd, rfl, by simpa using hdone⟩
  | cons odsc odscTab ih =>
      intro i returnOd boxes hbb hsz hall hdone
      rcases hall odsc (by simp) with ⟨hholds, hd, hsub, hfetch⟩
      rcases hfetch i with ⟨od, hfetch, hodsc, hbytes⟩
      rcases hholds.valid.cells_nonempty with ⟨x₀, hx₀⟩
      have hmeet : bboxDoesIntersect returnOd.objDesc.bb od.objDesc.bb = true := by
        rw [hbb, hodsc]
        exact bboxDoesIntersect_of_mem hd.symm hreq.valid.dims (hsub hx₀) hx₀
      rcases ssdCopy_holds returnOd od (by rw [hbb, hsz]; exact hreq)
        (by rw [hodsc, hsz]; exact hholds) (by rw [hbb, hodsc, hd]) hmeet with ⟨r, n, hcopy, hcopied⟩
      have hboth : returnOd.objDesc.bb.cells ∩ od.objDesc.bb.cells = odsc.bb.cells := by
        rw [hbb, hodsc]
        exact Finset.inter_eq_right.2 hsub
      have hin := hcopied.inside
      have hout := hcopied.outside
      rw [hboth, hbb, hsz, hodsc] at hin
      rw [hboth, hbb, hsz] at hout
      have hdone' : ∀ x ∈ reqObj.bb.cells, x ∈ Cover.union BBox.cells (boxes ++ [odsc.bb]) →
          ∀ c < reqObj.size.toNat,
            r.data (reqObj.bb.offset x * reqObj.size.toNat + c) = byte x c := by
        intro x hx hcov c hc
        by_cases hnew : x ∈ odsc.bb.cells
        · rw [hin x hnew c hc]
          exact hbytes x hnew c hc
        · -- the bytes of other cells stay
          have hold : x ∈ Cover.union BBox.cells boxes := by
            rw [Cover.union_append] at hcov
            rcases Finset.mem_union.1 hcov with hold | hsingle
            · exact hold
            · exact absurd (by simpa [Cover.union] using hsingle) hnew
          rw [hout _ fun x' hx' c' hc' heq => hnew ?_]
          · exact hdone x hx hold c hc
          · have hoff := elem_eq_of_byte_eq hc hc' heq
            rw [BBox.offset_inj hreq.valid.dims.2 hx (hsub hx') hoff]
            exact hx'
      rcases ih (i + 1) r (boxes ++ [odsc.bb]) (hcopied.bb.trans hbb) (hcopied.size.trans hsz)
        (fun o ho => hall o (by simp [ho])) hdone' with ⟨out, hloop, hright⟩
      refine ⟨out, ?_, by simpa using hright⟩
      simp only [getDataLoop, hfetch, Option.bind_eq_bind, Option.bind_some, hcopy]
      exact hloop

end Fetch

end DataSpaces
