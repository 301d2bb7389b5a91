import DataSpaces.Assembly

/-!
# ByteCounts — the size of an object (`obj_data_alloc`, `dspaces_get_req`, `dspaces_aget`, `put_rpc`, `get_rpc`, `get_data`)

The size of an object is the product of the size of an element and the volume of the box.  It is computed
once for every allocation and every transfer, in `size_t` and 64-bit values or in `int`s, and is passed as
an `int` to the compressor.

What the compressor writes is a parameter; the code relies on what it writes having room in the buffer,
and on the decompressor giving back what was compressed.
-/

namespace DataSpaces

abbrev DS_OBJ_RESIZE : UInt32 := 0x02

/-- The first bytes of a memory. -/
def firstBytes (data : Buf) (n : Nat) : List UInt8 :=
  (List.range n).map data

/-- The functions of the compressor. -/
structure Lz4 where
  /-- what `LZ4_compress_default` writes, nothing if it returns `0` -/
  compress (src : Buf) (srcSize dstCapacity : Int32) : List UInt8
  /-- what `LZ4_decompress_safe` writes, unless it returns a negative number -/
  decompress (src : List UInt8) (compressedSize dstCapacity : Int32) : Option (List UInt8)

structure Lz4.Lawful (lz4 : Lz4) : Prop where
  bounded : ∀ src srcSize dstCapacity,
    (lz4.compress src srcSize dstCapacity).length ≤ dstCapacity.toInt.toNat
  inverse : ∀ src srcSize dstCapacity dstCapacity', lz4.compress src srcSize dstCapacity ≠ [] →
    srcSize ≤ dstCapacity' →
      lz4.decompress (lz4.compress src srcSize dstCapacity)
        (Int32.ofNat (lz4.compress src srcSize dstCapacity).length) dstCapacity' =
          some (firstBytes src srcSize.toInt.toNat)

/-! ## Integers -/

/-- A 64-bit value as an `int`. -/
def intOfSize (x : UInt64) : Int32 :=
  x.toUInt32.toInt32

/-- An `int` as a 64-bit value. -/
def sizeOfInt (x : Int32) : UInt64 :=
  x.toInt64.toUInt64

/-- The product of two `int`s, if it is one. -/
def mulInt (a b : Int32) : Option Int32 :=
  if -2 ^ 31 ≤ a.toInt * b.toInt ∧ a.toInt * b.toInt < 2 ^ 31 then some (a * b) else none

/-- The bytes that `malloc` gives for an `int`, if it does. -/
def mallocInt (size : Int32) : Option Nat :=
  if size < 0 then none else some size.toInt.toNat

/-! ## The counts -/

/-- `num_elem`, over the dimensions below `ndim`. -/
def numElem (ndim : Nat) (lb ub : Nat → UInt64) : Int32 :=
  (List.range ndim).foldl (fun n i => intOfSize (sizeOfInt n * (ub i - lb i + 1))) 1

/-- The box of a query after the results have been looked at. -/
def croppedBox (bb : BBox) (odscTab : List ObjDesc) : BBox :=
  odscTab.foldl (fun bb odsc => if odsc.flags &&& DS_OBJ_RESIZE ≠ 0 then odsc.bb else bb) bb

/-- The bytes that `dspaces_get_req` allocates; nothing without results. -/
def dspacesGetReqBytes (bb : BBox) (odscTab : List ObjDesc) : Option Nat := do
  let first ← odscTab.head?
  let elemSize := intOfSize first.size
  let bb := croppedBox bb odscTab
  mallocInt (← mulInt (numElem bb.numDims bb.lb.c bb.ub.c) elemSize)

/-- The caller's arrays after the results have been looked at. -/
def croppedArrays (corners : (Nat → UInt64) × (Nat → UInt64)) (odscTab : List ObjDesc) :
    (Nat → UInt64) × (Nat → UInt64) :=
  odscTab.foldl (fun corners odsc =>
    if odsc.flags &&& DS_OBJ_RESIZE ≠ 0 then
      (fun j => if j < odsc.bb.numDims then odsc.bb.lb.c j else corners.1 j,
        fun j => if j < odsc.bb.numDims then odsc.bb.ub.c j else corners.2 j)
    else corners) corners

/-- The bytes that `dspaces_aget` allocates; nothing without results. -/
def dspacesAgetBytes (ndim : Nat) (lb ub : Nat → UInt64) (odscTab : List ObjDesc) : Option Nat := do
  let first ← odscTab.head?
  let elemSize := intOfSize first.size
  let corners := croppedArrays (lb, ub) odscTab
  mallocInt (← mulInt (numElem ndim corners.1 corners.2) elemSize)

/-- The size of a transfer, in `put_rpc`, `get_rpc` and `get_data`. -/
def rdmaSize (size : UInt64) (bb : BBox) : UInt64 :=
  size * bboxVolume bb

/-- The bytes that `put_rpc` pulls. -/
def putRpcBytes (inOdsc : ObjDesc) : Nat :=
  (rdmaSize inOdsc.size inOdsc.bb).toNat

/-- What `get_rpc` sends, and the length that it reports. -/
structure GetReply where
  sent : List UInt8
  len : UInt64

section Transfers

variable (lz4 : Lz4)

/-- `get_rpc`; `data` is what is in the object. -/
def getRpcReply (inOdsc : ObjDesc) (suppressCompression : Bool) (data : Buf) : GetReply :=
  let size := rdmaSize inOdsc.size inOdsc.bb
  let cbuffer :=
    if suppressCompression then [] else lz4.compress data (intOfSize size) (intOfSize size)
  let csize := Int32.ofNat cbuffer.length
  if csize = 0 then ⟨firstBytes data size.toNat, sizeOfInt csize⟩ else ⟨cbuffer, sizeOfInt csize⟩

/-- What `get_data` does with an answer. -/
inductive GetReceived
  | plain (bytes : Nat)
  /-- what `LZ4_decompress_safe` wrote, and how much is copied back from the other buffer -/
  | unpacked (written : Option (List UInt8)) (copied : Nat)

/-- `get_data`, for one object. -/
def getDataReceive (reqObj odsc : ObjDesc) (resp : GetReply) : GetReceived :=
  let rdma := rdmaSize reqObj.size odsc.bb
  if odsc.flags &&& DS_CLIENT_STORAGE = 0 ∧ resp.len ≠ 0 then
    .unpacked (lz4.decompress resp.sent (intOfSize resp.len) (intOfSize rdma)) rdma.toNat
  else .plain resp.sent.length

end Transfers

/-! ## Values below 2 GiB -/

theorem intOfSize_sizeOfInt (x : Int32) : intOfSize (sizeOfInt x) = x :=
  toInt32_toUInt64 x

theorem toInt_intOfSize {x : UInt64} (h : x.toNat < 2 ^ 31) : (intOfSize x).toInt = x.toNat := by
  have hint := toInt_int_ofNat h
  rwa [UInt64.ofNat_toNat] at hint

theorem toNat_sizeOfInt {x : Int32} (h : 0 ≤ x) : (sizeOfInt x).toNat = x.toInt.toNat := by
  have hx : 0 ≤ x.toInt64 := by
    rw [Int64.le_iff_toInt_le, Int32.toInt_toInt64]
    exact Int32.le_iff_toInt_le.1 h
  rw [sizeOfInt, Int64.toNat_toUInt64_of_le hx, Int64.toNatClampNeg, Int32.toInt_toInt64]

theorem sizeOfInt_intOfSize {x : UInt64} (h : x.toNat < 2 ^ 31) : sizeOfInt (intOfSize x) = x := by
  have hint := toInt_intOfSize h
  have hnonneg : 0 ≤ intOfSize x := by
    rw [Int32.le_iff_toInt_le, hint]
    exact Int.natCast_nonneg _
  apply UInt64.toNat_inj.1
  rw [toNat_sizeOfInt hnonneg, hint, Int.toNat_natCast]

theorem mulInt_eq {a b : Int32} {x y : ℕ} (ha : a.toInt = x) (hb : b.toInt = y) (h : x * y < 2 ^ 31) :
    ∃ c, mulInt a b = some c ∧ c.toInt = (x * y : ℕ) := by
  have hprod : a.toInt * b.toInt = (x * y : ℕ) := by
    rw [ha, hb, Int.natCast_mul]
  refine ⟨a * b, if_pos ?_, ?_⟩
  · rw [hprod]
    omega
  · rw [Int32.toInt_mul, hprod, Int.bmod_eq_of_le (by omega) (by omega)]

theorem mallocInt_eq {c : Int32} {x : ℕ} (hc : c.toInt = x) : mallocInt c = some x := by
  rw [mallocInt, if_neg, hc, Int.toNat_natCast]
  rw [Int32.lt_iff_toInt_lt, hc]
  exact Int.not_lt.2 (Int.natCast_nonneg x)

/-- Cutting a product to an `int` at every step is cutting it at the end. -/
theorem numElem_eq (ndim : Nat) (lb ub : Nat → UInt64) :
    numElem ndim lb ub = intOfSize ((List.range ndim).foldl (fun n i => n * (ub i - lb i + 1)) 1) := by
  have hcut : ∀ x d : UInt64, intOfSize (sizeOfInt (intOfSize x) * d) = intOfSize (x * d) := by
    intro x d
    have hlow : (sizeOfInt (intOfSize x)).toUInt32 = x.toUInt32 := by
      have hint := congrArg Int32.toUInt32 (intOfSize_sizeOfInt (intOfSize x))
      simpa only [intOfSize, UInt32.toUInt32_toInt32] using hint
    unfold intOfSize at hlow ⊢
    rw [UInt64.toUInt32_mul, hlow, ← UInt64.toUInt32_mul]
  have hfold : ∀ (l : List Nat) (x : UInt64),
      l.foldl (fun n i => intOfSize (sizeOfInt n * (ub i - lb i + 1))) (intOfSize x) =
        intOfSize (l.foldl (fun n i => n * (ub i - lb i + 1)) x) := by
    intro l
    induction l with
    | nil => exact fun _ => rfl
    | cons i l ih =>
        intro x
        rw [List.foldl_cons, List.foldl_cons, hcut, ih]
  exact hfold (List.range ndim) 1

/-- `num_elem` is the volume of the box. -/
theorem numElem_bbox (bb : BBox) : numElem bb.numDims bb.lb.c bb.ub.c = intOfSize (bboxVolume bb) :=
  numElem_eq bb.numDims bb.lb.c bb.ub.c

theorem numElem_congr {ndim : Nat} {lb ub lb' ub' : Nat → UInt64}
    (h : ∀ i < ndim, lb i = lb' i ∧ ub i = ub' i) : numElem ndim lb ub = numElem ndim lb' ub' := by
  refine List.foldl_ext _ _ _ fun n i hi => ?_
  obtain ⟨hlb, hub⟩ := h i (List.mem_range.1 hi)
  rw [hlb, hub]

theorem length_firstBytes (data : Buf) (n : Nat) : (firstBytes data n).length = n := by
  rw [firstBytes, List.length_map, List.length_range]

/-! ## The property -/

/-- All counts of an object are `n`. -/
structure Counted (lz4 : Lz4) (odsc : ObjDesc) (n : Nat) : Prop where
  alloc : objDataAllocBytes odsc = some n
  getReq : ∀ bb odscTab, croppedBox bb odscTab = odsc.bb → odscTab.head?.map ObjDesc.size = some odsc.size →
    dspacesGetReqBytes bb odscTab = some n
  aget : ∀ lb ub odscTab, odscTab.head?.map ObjDesc.size = some odsc.size →
    (∀ i < odsc.bb.numDims, (croppedArrays (lb, ub) odscTab).1 i = odsc.bb.lb.c i ∧
      (croppedArrays (lb, ub) odscTab).2 i = odsc.bb.ub.c i) →
        dspacesAgetBytes odsc.bb.numDims lb ub odscTab = some n
  put : putRpcBytes odsc = n
  /-- `get_rpc` sends all bytes, or what it reports as the compressed length -/
  sent : ∀ suppress data, let resp := getRpcReply lz4 odsc suppress data
    resp.len = 0 ∧ resp.sent = firstBytes data n ∨
      resp.len ≠ 0 ∧ resp.sent.length = resp.len.toNat ∧ resp.sent.length ≤ n
  /-- `get_data` gets all bytes; the size of an element went through an `int` -/
  received : odsc.flags &&& DS_CLIENT_STORAGE = 0 → ∀ suppress data,
    let reqObj := { odsc with size := sizeOfInt (intOfSize odsc.size) }
    let resp := getRpcReply lz4 odsc suppress data
    getDataReceive lz4 reqObj odsc resp = .plain n ∨
      getDataReceive lz4 reqObj odsc resp = .unpacked (some (firstBytes data n)) n
  /-- the sizes that are passed to the compressor -/
  size : (intOfSize (rdmaSize odsc.size odsc.bb)).toInt = n

/-! ## Objects below 2 GiB -/

section Small

variable {lz4 : Lz4} {odsc : ObjDesc} (hvalid : odsc.bb.Valid) (hsize : 1 ≤ odsc.size.toNat)
  (hsmall : odsc.bb.cells.card * odsc.size.toNat < 2 ^ 31)

include hvalid hsmall

theorem toNat_rdmaSize : (rdmaSize odsc.size odsc.bb).toNat = odsc.bb.cells.card * odsc.size.toNat :=
  toNat_objDataSize hvalid (by omega)

theorem toInt_rdmaSize :
    (intOfSize (rdmaSize odsc.size odsc.bb)).toInt = (odsc.bb.cells.card * odsc.size.toNat : ℕ) := by
  rw [toInt_intOfSize (by rwa [toNat_rdmaSize hvalid hsmall]), toNat_rdmaSize hvalid hsmall]

theorem size_lt : odsc.size.toNat < 2 ^ 31 := by
  have hcells := Finset.card_pos.2 hvalid.cells_nonempty
  exact (Nat.le_mul_of_pos_left _ hcells).trans_lt hsmall

include hsize

/-- The product of `int`s that `dspaces_get_req` and `dspaces_aget` compute. -/
theorem mulInt_numElem : ∃ c, mulInt (numElem odsc.bb.numDims odsc.bb.lb.c odsc.bb.ub.c) (intOfSize odsc.size) =
    some c ∧ mallocInt c = some (odsc.bb.cells.card * odsc.size.toNat) := by
  have hcard : odsc.bb.cells.card < 2 ^ 31 := (Nat.le_mul_of_pos_right _ hsize).trans_lt hsmall
  have hvolume : (bboxVolume odsc.bb).toNat = odsc.bb.cells.card := by
    rw [bboxVolume_eq hvalid.nearValid, UInt64.toNat_ofNat', Nat.mod_eq_of_lt]
    exact hcard.trans (by decide)
  have helems : (numElem odsc.bb.numDims odsc.bb.lb.c odsc.bb.ub.c).toInt = odsc.bb.cells.card := by
    rw [numElem_bbox, toInt_intOfSize, hvolume]
    rw [hvolume]
    exact hcard
  obtain ⟨c, hmul, hc⟩ := mulInt_eq helems (toInt_intOfSize (size_lt hvalid hsmall)) hsmall
  exact ⟨c, hmul, mallocInt_eq hc⟩

theorem getReqBytes_eq {bb : BBox} {odscTab : List ObjDesc} (hbb : croppedBox bb odscTab = odsc.bb)
    (hfirst : odscTab.head?.map ObjDesc.size = some odsc.size) :
    dspacesGetReqBytes bb odscTab = some (odsc.bb.cells.card * odsc.size.toNat) := by
  obtain ⟨first, hhead, helem⟩ := Option.map_eq_some_iff.1 hfirst
  obtain ⟨c, hmul, hmalloc⟩ := mulInt_numElem hvalid hsize hsmall
  refine Option.bind_eq_some_iff.2 ⟨first, hhead, ?_⟩
  rw [hbb, helem]
  exact Option.bind_eq_some_iff.2 ⟨c, hmul, hmalloc⟩

theorem agetBytes_eq {lb ub : Nat → UInt64} {odscTab : List ObjDesc}
    (hfirst : odscTab.head?.map ObjDesc.size = some odsc.size)
    (hcorners : ∀ i < odsc.bb.numDims, (croppedArrays (lb, ub) odscTab).1 i = odsc.bb.lb.c i ∧
      (croppedArrays (lb, ub) odscTab).2 i = odsc.bb.ub.c i) :
    dspacesAgetBytes odsc.bb.numDims lb ub odscTab = some (odsc.bb.cells.card * odsc.size.toNat) := by
  obtain ⟨first, hhead, helem⟩ := Option.map_eq_some_iff.1 hfirst
  obtain ⟨c, hmul, hmalloc⟩ := mulInt_numElem hvalid hsize hsmall
  rw [← numElem_congr hcorners, ← helem] at hmul
  exact Option.bind_eq_some_iff.2 ⟨first, hhead, Option.bind_eq_some_iff.2 ⟨c, hmul, hmalloc⟩⟩

end Small

/-! ## Compressed answers -/

section Replies

variable {lz4 : Lz4} {odsc : ObjDesc}

theorem csize_toInt {cbuffer : List UInt8} {n : ℕ} (h : cbuffer.length ≤ n) (hn : n < 2 ^ 31) :
    (Int32.ofNat cbuffer.length).toInt = cbuffer.length :=
  Int32.toInt_ofNat_of_lt (h.trans_lt hn)

theorem csize_nonneg {cbuffer : List UInt8} {n : ℕ} (h : cbuffer.length ≤ n) (hn : n < 2 ^ 31) :
    0 ≤ Int32.ofNat cbuffer.length := by
  rw [Int32.le_iff_toInt_le, csize_toInt h hn]
  exact Int.natCast_nonneg _

theorem csize_eq_zero {cbuffer : List UInt8} {n : ℕ} (h : cbuffer.length ≤ n) (hn : n < 2 ^ 31) :
    Int32.ofNat cbuffer.length = 0 ↔ cbuffer = [] := by
  rw [← Int32.toInt_inj, csize_toInt h hn, Int32.toInt_zero, Int.natCast_eq_zero,
    List.length_eq_zero_iff]

/-- `get_rpc` sends all the bytes, or what the compressor wrote. -/
theorem getRpcReply_cases (hlz4 : lz4.Lawful) {n : ℕ} (hsize : (rdmaSize odsc.size odsc.bb).toNat = n)
    (hn : n < 2 ^ 31) (suppress : Bool) (data : Buf) :
    getRpcReply lz4 odsc suppress data = ⟨firstBytes data n, 0⟩ ∨
      ∃ cbuffer, cbuffer = lz4.compress data (intOfSize (rdmaSize odsc.size odsc.bb))
          (intOfSize (rdmaSize odsc.size odsc.bb)) ∧
        cbuffer ≠ [] ∧ cbuffer.length ≤ n ∧
        getRpcReply lz4 odsc suppress data = ⟨cbuffer, sizeOfInt (Int32.ofNat cbuffer.length)⟩ := by
  cases suppress with
  | true =>
      left
      rw [getRpcReply, hsize]
      rfl
  | false =>
      have hbounded := hlz4.bounded data (intOfSize (rdmaSize odsc.size odsc.bb))
        (intOfSize (rdmaSize odsc.size odsc.bb))
      rw [toInt_intOfSize (by rwa [hsize]), hsize, Int.toNat_natCast] at hbounded
      rw [getRpcReply, hsize]
      simp only [Bool.false_eq_true, if_false]
      generalize lz4.compress data (intOfSize (rdmaSize odsc.size odsc.bb))
        (intOfSize (rdmaSize odsc.size odsc.bb)) = cbuffer at hbounded ⊢
      by_cases hnil : cbuffer = []
      · left
        rw [if_pos ((csize_eq_zero hbounded hn).2 hnil), hnil]
        rfl
      · right
        refine ⟨cbuffer, rfl, hnil, hbounded, ?_⟩
        rw [if_neg (fun h => hnil ((csize_eq_zero hbounded hn).1 h))]

theorem toNat_csize {cbuffer : List UInt8} {n : ℕ} (h : cbuffer.length ≤ n) (hn : n < 2 ^ 31) :
    (sizeOfInt (Int32.ofNat cbuffer.length)).toNat = cbuffer.length := by
  rw [toNat_sizeOfInt (csize_nonneg h hn), csize_toInt h hn, Int.toNat_natCast]

theorem csize_ne_zero {cbuffer : List UInt8} {n : ℕ} (h : cbuffer.length ≤ n) (hn : n < 2 ^ 31)
    (hne : cbuffer ≠ []) : sizeOfInt (Int32.ofNat cbuffer.length) ≠ 0 := by
  intro hzero
  have hnat := congrArg UInt64.toNat hzero
  rw [toNat_csize h hn] at hnat
  exact hne (List.eq_nil_of_length_eq_zero hnat)

theorem sent_of_small (hlz4 : lz4.Lawful) {n : ℕ} (hsize : (rdmaSize odsc.size odsc.bb).toNat = n)
    (hn : n < 2 ^ 31) (suppress : Bool) (data : Buf) {resp : GetReply}
    (hresp : getRpcReply lz4 odsc suppress data = resp) :
    resp.len = 0 ∧ resp.sent = firstBytes data n ∨
      resp.len ≠ 0 ∧ resp.sent.length = resp.len.toNat ∧ resp.sent.length ≤ n := by
  rw [← hresp]
  rcases getRpcReply_cases hlz4 hsize hn suppress data with h | ⟨cbuffer, -, hne, hle, h⟩
  · rw [h]
    exact Or.inl ⟨rfl, rfl⟩
  · rw [h]
    exact Or.inr ⟨csize_ne_zero hle hn hne, (toNat_csize hle hn).symm, hle⟩

/-- `get_data` takes the bytes as they are, or unpacks them. -/
theorem received_of_small (hlz4 : lz4.Lawful) {n : ℕ} (hsize : (rdmaSize odsc.size odsc.bb).toNat = n)
    (hn : n < 2 ^ 31) (hserver : odsc.flags &&& DS_CLIENT_STORAGE = 0) (suppress : Bool) (data : Buf)
    {reqObj : ObjDesc} (hreq : reqObj.size = odsc.size) :
    getDataReceive lz4 reqObj odsc (getRpcReply lz4 odsc suppress data) = .plain n ∨
      getDataReceive lz4 reqObj odsc (getRpcReply lz4 odsc suppress data) =
        .unpacked (some (firstBytes data n)) n := by
  have hint : (intOfSize (rdmaSize odsc.size odsc.bb)).toInt = n := by
    rw [toInt_intOfSize (by rwa [hsize]), hsize]
  rcases getRpcReply_cases hlz4 hsize hn suppress data with h | ⟨cbuffer, hbuf, hne, hle, h⟩
  · left
    rw [h, getDataReceive, if_neg (fun h => h.2 rfl), length_firstBytes]
  · right
    have hback := hlz4.inverse data _ _ _ (hbuf ▸ hne) (Int32.le_refl (intOfSize (rdmaSize odsc.size odsc.bb)))
    rw [← hbuf, hint, Int.toNat_natCast] at hback
    rw [h, getDataReceive, if_pos ⟨hserver, csize_ne_zero hle hn hne⟩, intOfSize_sizeOfInt, hreq, hback, hsize]

end Replies

/-- All counts of an object are its size exactly when the size is below 2 GiB. -/
theorem counted_iff (lz4 : Lz4) (hlz4 : lz4.Lawful) (odsc : ObjDesc) (hvalid : odsc.bb.Valid)
    (hsize : 1 ≤ odsc.size.toNat) :
    Counted lz4 odsc (odsc.bb.cells.card * odsc.size.toNat) ↔
      odsc.bb.cells.card * odsc.size.toNat < 2 ^ 31 := by
  refine ⟨fun h => objDataAllocBytes_lt h.alloc, fun hsmall => ?_⟩
  have hrdma := toNat_rdmaSize hvalid hsmall
  have helem := sizeOfInt_intOfSize (size_lt hvalid hsmall)
  exact {
    alloc := objDataAllocBytes_eq hvalid hsmall
    getReq := fun bb odscTab => getReqBytes_eq hvalid hsize hsmall
    aget := fun lb ub odscTab => agetBytes_eq hvalid hsize hsmall
    put := hrdma
    sent := fun suppress data => sent_of_small hlz4 hrdma hsmall suppress data rfl
    received := fun hserver suppress data => received_of_small hlz4 hrdma hsmall hserver suppress data helem
    size := toInt_rdmaSize hvalid hsmall }

/-- The compressor on input that it does not make shorter. -/
def Lz4.incompressible : Lz4 := ⟨fun _ _ _ => [], fun _ _ _ => none⟩

/-- Four bytes. -/
theorem counted_iff_fourBytes :
    Lz4.incompressible.Lawful ∧ (BBox.line 0 3).Valid ∧
      Counted Lz4.incompressible (plainDesc 0 (BBox.line 0 3)) ((BBox.line 0 3).cells.card * 1) := by
  have hlawful : Lz4.incompressible.Lawful :=
    ⟨fun _ _ _ => Nat.zero_le _, fun _ _ _ _ hne => absurd rfl hne⟩
  have hvalid : (BBox.line 0 3).Valid := BBox.line_valid (by decide)
  refine ⟨hlawful, hvalid, (counted_iff _ hlawful (plainDesc 0 (BBox.line 0 3)) hvalid (by decide)).2 ?_⟩
  rw [show (plainDesc 0 (BBox.line 0 3)).bb = BBox.line 0 3 from rfl, card_line]
  decide

/-- For an object of `2 ^ 32 + 8` bytes eight bytes are allocated, and all of it is pulled. -/
theorem not_counted_line :
    objDataAllocBytes (plainDesc 0 (BBox.line 0 0x100000007)) = some 8 ∧
      putRpcBytes (plainDesc 0 (BBox.line 0 0x100000007)) = 2 ^ 32 + 8 ∧
      (BBox.line 0 0x100000007).Valid ∧ (BBox.line 0 0x100000007).cells.card * 1 = 2 ^ 32 + 8 ∧
      ∀ lz4, ¬ Counted lz4 (plainDesc 0 (BBox.line 0 0x100000007))
        ((BBox.line 0 0x100000007).cells.card * 1) := by
  have halloc : objDataAllocBytes (plainDesc 0 (BBox.line 0 0x100000007)) = some 8 := by decide
  have hcard : (BBox.line 0 0x100000007).cells.card * 1 = 2 ^ 32 + 8 := by
    rw [card_line]
    decide
  refine ⟨halloc, by decide, BBox.line_valid (by decide), hcard, fun lz4 h => ?_⟩
  have hcount := h.alloc
  rw [halloc, hcard] at hcount
  exact absurd hcount (by decide)

end DataSpaces
