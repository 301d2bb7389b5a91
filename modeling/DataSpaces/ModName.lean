import Mathlib.Algebra.Order.Ring.Abs
import Mathlib.Data.Nat.Digits.Lemmas
import DataSpaces.Lib.Slots
import DataSpaces.Ops
import DataSpaces.Serial

/-!
# ModName — the name and the version of the result of a module (`get_version_name`, `get_mod_rpc`)

What a module returns is stored under a name and a version that are made from the parameters, unless they
are among the parameters.  Every parameter has a hash.  The version is the product of the hashes, and the
name is made of the hashes in hexadecimal digits, each at its own eight bytes of a buffer.

Printing a hash also prints a terminator.  It is overwritten by the next hash only if it is not within the
eight bytes, so the name ends after the first hash of less than six digits, and the hashes after
that one count only through the product.
-/

namespace DataSpaces

open Slots (store read storeAll joined shown)

/-! ## Hashes -/

/-- `mod`, the same in all functions. -/
abbrev HASH_MOD : Int32 := 1000000007

/-- The number in bytes, lowest first. -/
def leNat : List UInt8 → Nat
  | [] => 0
  | b :: bytes => b.toNat + 256 * leNat bytes

/-- The memory that a `void *` of a dictionary points to. -/
def DictVal.bytes : DictVal → List UInt8
  | .mem bytes => bytes
  | .str s => s.bytes ++ [0]

/-- An unsigned integer of `n` bytes in memory. -/
def DictVal.load (n : Nat) (val : DictVal) : Nat :=
  leNat (val.bytes.take n)

/-- The string in memory, up to the terminating zero. -/
def DictVal.text (val : DictVal) : CStr :=
  val.bytes.takeWhile (· ≠ 0)

/-- `param_hash`.  A product of `int` wraps around, and `char` is signed.  For a type code that is not
accepted, which no decoder lets through, nothing is returned. -/
def paramHash (type : Int8) (val : DictVal) (mod : Int32) : Int32 :=
  if type ∈ [DSP_BOOL, DSP_CHAR, DSP_BYTE, DSP_UINT8, DSP_INT8] then Int32.ofNat (val.load 1)
  else if type ∈ [DSP_UINT16, DSP_INT16] then Int32.ofNat (val.load 2)
  else if type ∈ [DSP_FLOAT, DSP_INT, DSP_UINT, DSP_UINT32, DSP_INT32] then Int32.ofNat (val.load 4)
  else if type ∈ [DSP_LONG, DSP_DOUBLE, DSP_ULONG, DSP_UINT64, DSP_INT64] then
    (UInt64.ofNat (val.load 8) % mod.toInt64.toUInt64).toUInt32.toInt32
  else if type ∈ [DSP_STR, DSP_JSON] then
    val.text.foldl (fun hval c => (hval * c.toInt8.toInt32) % mod) 1
  else 0

/-- The hash of a parameter. -/
def DictEntry.hash (p : DictEntry) : Int32 :=
  paramHash p.type p.val HASH_MOD

/-- The hashes of the parameters. -/
def hashes (params : List DictEntry) : List Int32 :=
  params.map DictEntry.hash

def paramsHash (params : List DictEntry) : UInt32 :=
  (params.foldl (fun hval p => (hval * p.hash.toInt64) % HASH_MOD.toInt64) 1).toUInt64.toUInt32

/-! ## Names -/

/-- A hexadecimal digit. -/
def hexDigit (d : Nat) : UInt8 :=
  UInt8.ofNat (if d < 10 then 48 + d else 87 + d)

/-- `%x`. -/
def hexText (n : Nat) : CStr :=
  if n = 0 then [48] else (Nat.digits 16 n).reverse.map hexDigit

/-- `%x.4`, where `.4` is text. -/
def hashText (hval : Int32) : CStr :=
  hexText hval.toUInt32.toNat ++ [46, 52]

/-- The loop of `write_param_name` from `pstr_start` on. -/
def writeParamName : List DictEntry → Nat → Buf → Buf
  | [], _, name => name
  | p :: params, start, name =>
      writeParamName params (if start + 8 ≥ 136 then 0 else start + 8)
        (store name start (hashText p.hash ++ [0]))

/-- The keys `name` and `version`. -/
def nameKey : CStr := [110, 97, 109, 101]

def versionKey : CStr := [118, 101, 114, 115, 105, 111, 110]

def DictEntry.name? (p : DictEntry) : Option DictVal :=
  if p.type = DSP_STR ∧ p.key.bytes = nameKey then some p.val else none

def DictEntry.version? (p : DictEntry) : Option UInt32 :=
  if p.type = DSP_UINT ∧ p.key.bytes = versionKey then some (UInt32.ofNat (p.val.load 4)) else none

/-- `get_version_name`: the version and the buffer of the name. -/
def getVersionName (params : List DictEntry) (name : Buf) : UInt32 × Buf :=
  ((params.reverse.findSome? DictEntry.version?).getD (paramsHash params),
    match params.reverse.findSome? DictEntry.name? with
    | some val => store name 0 (val.bytes.take 149)
    | none => writeParamName params 0 name)

/-- The name in a descriptor, as a string, and its version, from a buffer of zeros. -/
def resultKey (params : List DictEntry) : CStr × UInt32 :=
  let r := getVersionName params fun _ => 0
  (read 0 r.2 OD_MAX_NAME_LEN 0, r.1)

/-! ### Hexadecimal texts -/

/-- The value of a digit. -/
def unhex (b : UInt8) : Nat :=
  if b.toNat < 58 then b.toNat - 48 else b.toNat - 87

theorem unhex_hexDigit {d : Nat} (hd : d < 16) : unhex (hexDigit d) = d := by
  have hall : ∀ d : Fin 16, unhex (hexDigit d) = d := by
    decide
  exact hall ⟨d, hd⟩

theorem hexDigit_ne {d : Nat} (hd : d < 16) : hexDigit d ≠ 0 ∧ hexDigit d ≠ 46 := by
  have hall : ∀ d : Fin 16, hexDigit d ≠ 0 ∧ hexDigit d ≠ 46 := by
    decide
  exact hall ⟨d, hd⟩

theorem exists_of_mem_hexText {n : Nat} {b : UInt8} (h : b ∈ hexText n) : ∃ d < 16, b = hexDigit d := by
  rw [hexText] at h
  split at h
  · exact ⟨0, by decide, List.mem_singleton.1 h⟩
  · rcases List.mem_map.1 h with ⟨d, hd, rfl⟩
    exact ⟨d, Nat.digits_lt_base (by decide) (List.mem_reverse.1 hd), rfl⟩

/-- A number is read back from its text. -/
theorem ofDigits_hexText (n : Nat) : Nat.ofDigits 16 ((hexText n).map unhex).reverse = n := by
  rw [hexText]
  split
  case isTrue hzero =>
    rw [hzero]
    rfl
  case isFalse =>
    have hback : ((Nat.digits 16 n).reverse.map hexDigit).map unhex = (Nat.digits 16 n).reverse := by
      rw [List.map_map]
      refine (List.map_congr_left fun d hd => ?_).trans (List.map_id _)
      exact unhex_hexDigit (Nat.digits_lt_base (by decide) (List.mem_reverse.1 hd))
    rw [hback, List.reverse_reverse, Nat.ofDigits_digits]

theorem hexText_inj {n m : Nat} (h : hexText n = hexText m) : n = m := by
  rw [← ofDigits_hexText n, h, ofDigits_hexText]

theorem length_hexText_le {n k : Nat} (hk : 0 < k) : (hexText n).length ≤ k ↔ n < 16 ^ k := by
  rw [hexText]
  split
  case isTrue hzero =>
    rw [hzero]
    exact iff_of_true hk (Nat.pow_pos (by decide))
  case isFalse => rw [List.length_map, List.length_reverse, Nat.digits_length_le_iff (by decide)]

/-! ### Texts of hashes -/

theorem hashText_ne_zero (hval : Int32) : ∀ b ∈ hashText hval, b ≠ 0 := by
  intro b hb
  rcases List.mem_append.1 hb with hb | hb
  · rcases exists_of_mem_hexText hb with ⟨d, hd, rfl⟩
    exact (hexDigit_ne hd).1
  · simp at hb
    rcases hb with rfl | rfl <;> decide

theorem length_hexText_hash (hval : Int32) : (hexText hval.toUInt32.toNat).length ≤ 8 :=
  (length_hexText_le (by decide)).2 hval.toUInt32.toNat_lt

theorem length_hashText (hval : Int32) : (hashText hval).length ≤ 10 := by
  have h := length_hexText_hash hval
  rw [hashText, List.length_append]
  exact Nat.add_le_add_right h 2

/-- A hash of less than six digits. -/
theorem length_hashText_lt (hval : Int32) : (hashText hval).length < 8 ↔ hval.toUInt32.toNat < 2 ^ 20 := by
  have h := length_hexText_le (n := hval.toUInt32.toNat) (k := 5) (by decide)
  rw [hashText, List.length_append]
  simp only [List.length_cons, List.length_nil]
  omega

/-- The digits are what comes before the first dot. -/
theorem takeWhile_hashText (hval : Int32) :
    ((hashText hval).take 8).takeWhile (· ≠ 46) = hexText hval.toUInt32.toNat := by
  have hdigits : ∀ b ∈ hexText hval.toUInt32.toNat, decide (b ≠ 46) = true := by
    intro b hb
    rcases exists_of_mem_hexText hb with ⟨d, hd, rfl⟩
    exact decide_eq_true (hexDigit_ne hd).2
  have hdot : ∀ k, (([46, 52] : CStr).take k).takeWhile (· ≠ 46) = [] := by
    intro k
    cases k with
    | zero => rfl
    | succ k => rfl
  calc ((hashText hval).take 8).takeWhile (· ≠ 46)
      = (hexText hval.toUInt32.toNat ++
          ([46, 52] : CStr).take (8 - (hexText hval.toUInt32.toNat).length)).takeWhile (· ≠ 46) := by
        rw [hashText, List.take_append, List.take_of_length_le (length_hexText_hash hval)]
    _ = hexText hval.toUInt32.toNat := by
        rw [List.takeWhile_append_of_pos hdigits, hdot, List.append_nil]

theorem hashText_cut {hval hval' : Int32} (h : (hashText hval).take 8 = (hashText hval').take 8) :
    hval = hval' := by
  have hhex := congrArg (List.takeWhile (· ≠ 46)) h
  rw [takeWhile_hashText, takeWhile_hashText] at hhex
  have hword := congrArg UInt32.toInt32 (UInt32.toNat_inj.1 (hexText_inj hhex))
  rwa [Int32.toInt32_toUInt32, Int32.toInt32_toUInt32] at hword

theorem cutInj_hashText : Slots.CutInj 8 fun t => ∃ hval, t = hashText hval := by
  rintro t t' ⟨hval, rfl⟩ ⟨hval', rfl⟩ h
  rw [hashText_cut h]

/-- The hashes up to the first of less than six digits. -/
def shownHashes : List Int32 → List Int32
  | [] => []
  | hval :: hs => if hval.toUInt32.toNat < 2 ^ 20 then [hval] else hval :: shownHashes hs

theorem shown_map_hashText (hs : List Int32) : shown 8 (hs.map hashText) = (shownHashes hs).map hashText := by
  induction hs with
  | nil => rfl
  | cons hval hs ih =>
      rw [List.map_cons, shownHashes]
      split
      case isTrue hshort => exact Slots.shown_short ((length_hashText_lt hval).2 hshort) _
      case isFalse hlong =>
        rw [Slots.shown_long (fun h => hlong ((length_hashText_lt hval).1 h)), ih, List.map_cons]

/-! ### The name as a string -/

/-- No more than 17 parameters, and the name does not start over. -/
theorem writeParamName_eq (params : List DictEntry) : ∀ (start : Nat) (name : Buf), start + 8 * params.length ≤ 136 →
    writeParamName params start name = storeAll 0 8 name start ((hashes params).map hashText) := by
  induction params with
  | nil => exact fun _ _ _ => rfl
  | cons p params ih =>
      intro start name hlen
      rw [List.length_cons] at hlen
      rw [writeParamName, hashes, List.map_cons, List.map_cons, storeAll]
      by_cases hwrap : start + 8 ≥ 136
      · have hnil : params = [] := List.length_eq_zero_iff.1 (by omega)
        rw [hnil]
        rfl
      · rw [if_neg hwrap]
        exact ih _ _ (by omega)

theorem length_joined_le (hs : List Int32) : (joined 8 (hs.map hashText)).length ≤ 8 * hs.length + 2 := by
  induction hs with
  | nil => simp [joined]
  | cons hval hs ih =>
      rw [List.map_cons, List.length_cons]
      cases hs with
      | nil => exact length_hashText hval
      | cons hval' hs =>
          by_cases hshort : (hashText hval).length < 8
          · rw [Slots.joined_short hshort]
            omega
          · rw [Slots.joined_long hshort (by simp), List.length_append, List.length_take]
            omega

/-- Parameters as they are received, neither a name nor a version among them. -/
structure Unnamed (params : List DictEntry) : Prop where
  typed : ∀ p ∈ params, p.type ∈ dspTypes ∧ p.val.Fits p.type
  name : ∀ p ∈ params, p.name? = none
  version : ∀ p ∈ params, p.version? = none

theorem getVersionName_unnamed {params : List DictEntry} (h : Unnamed params) (name : Buf) :
    getVersionName params name = (paramsHash params, writeParamName params 0 name) := by
  have hname : params.reverse.findSome? DictEntry.name? = none :=
    List.findSome?_eq_none_iff.2 fun p hp => h.name p (List.mem_reverse.1 hp)
  have hversion : params.reverse.findSome? DictEntry.version? = none :=
    List.findSome?_eq_none_iff.2 fun p hp => h.version p (List.mem_reverse.1 hp)
  rw [getVersionName, hname, hversion]
  rfl

theorem resultKey_eq {params : List DictEntry} (hun : Unnamed params) (hlen : params.length ≤ 17) :
    resultKey params = (joined 8 ((hashes params).map hashText), paramsHash params) := by
  rw [resultKey, getVersionName_unnamed hun]
  simp only
  rw [writeParamName_eq params 0 _ (by omega)]
  congr 1
  cases params with
  | nil => rfl
  | cons p params =>
      refine Slots.read_storeAll 8 _ _ _ _ (by simp [hashes]) ?_ ?_
      · have h := length_joined_le (hashes (p :: params))
        rw [hashes, List.length_map] at h
        change _ ≤ 150
        exact h.trans (by omega)
      · intro t ht
        rcases List.mem_map.1 ht with ⟨hval, -, rfl⟩
        exact hashText_ne_zero hval

/-- The names are the same exactly when the same hashes are shown. -/
theorem joined_hashText_eq_iff {hs hs' : List Int32} (hlen : hs.length = hs'.length) :
    joined 8 (hs.map hashText) = joined 8 (hs'.map hashText) ↔ shownHashes hs = shownHashes hs' := by
  have hP : ∀ (hs : List Int32), ∀ t ∈ hs.map hashText, ∃ hval, t = hashText hval := by
    intro hs t ht
    rcases List.mem_map.1 ht with ⟨hval, -, rfl⟩
    exact ⟨hval, rfl⟩
  have hinj : Function.Injective hashText := fun _ _ h => hashText_cut (congrArg (List.take 8) h)
  rw [Slots.joined_inj cutInj_hashText (by simp [hlen]) (hP hs) (hP hs'), shown_map_hashText, shown_map_hashText]
  exact (List.map_injective_iff.2 hinj).eq_iff

/-! ## The version -/

/-- The product of the hashes, in the arithmetic of C. -/
def residue (hs : List Int32) : Int :=
  (hs.map Int32.toInt).prod.tmod 1000000007

/-- A residue as an `unsigned int`. -/
def versionOf (r : Int) : UInt32 :=
  (Int64.ofInt r).toUInt64.toUInt32

/-- The product of a residue and a hash does not overflow. -/
theorem toInt_mul_hash (hval : Int64) (h : Int32) (a : Int) (ha : hval.toInt = a.tmod 1000000007) :
    ((hval * h.toInt64) % HASH_MOD.toInt64).toInt = (a * h.toInt).tmod 1000000007 := by
  have hmod : HASH_MOD.toInt64.toInt = 1000000007 := rfl
  have hres : |a.tmod 1000000007| ≤ 2 ^ 30 := by
    have hhigh := Int.tmod_lt_of_pos a (b := 1000000007) (by decide)
    have hlow := Int.lt_tmod_of_pos a (b := 1000000007) (by decide)
    rw [abs_le]
    omega
  have hhash : |h.toInt| ≤ 2 ^ 31 := by
    have hlow := h.le_toInt
    have hhigh := h.toInt_lt
    rw [abs_le]
    omega
  have hprod : |a.tmod 1000000007 * h.toInt| ≤ 2 ^ 30 * 2 ^ 31 := by
    rw [abs_mul]
    exact mul_le_mul hres hhash (abs_nonneg _) (by decide)
  rw [abs_le] at hprod
  calc ((hval * h.toInt64) % HASH_MOD.toInt64).toInt
      = ((a.tmod 1000000007 * h.toInt).bmod (2 ^ 64)).tmod 1000000007 := by
        rw [Int64.toInt_mod, Int64.toInt_mul, hmod, Int32.toInt_toInt64, ha]
    _ = (a.tmod 1000000007 * h.toInt).tmod 1000000007 := by
        rw [Int.bmod_eq_of_le (by omega) (by omega)]
    _ = (a * h.toInt).tmod 1000000007 := by
        rw [Int.mul_tmod, Int.tmod_tmod, ← Int.mul_tmod]

theorem foldl_hash (params : List DictEntry) : ∀ (hval : Int64) (a : Int), hval.toInt = a.tmod 1000000007 →
    (params.foldl (fun hval p => (hval * p.hash.toInt64) % HASH_MOD.toInt64)
      hval).toInt = (a * ((hashes params).map Int32.toInt).prod).tmod 1000000007 := by
  induction params with
  | nil =>
      intro hval a ha
      simpa [hashes] using ha
  | cons p params ih =>
      intro hval a ha
      rw [List.foldl_cons, ih _ _ (toInt_mul_hash hval _ a ha), Int.mul_assoc]
      rfl

theorem paramsHash_eq (params : List DictEntry) : paramsHash params = versionOf (residue (hashes params)) := by
  have h := foldl_hash params 1 1 rfl
  rw [one_mul] at h
  rw [paramsHash, versionOf, residue, ← h, Int64.ofInt_toInt]

/-! ## The stored results -/

/-- The bin of the version in a storage of so many versions. -/
def versionBin (numVersions : Nat) (hs : List Int32) : Nat :=
  (versionOf (residue hs)).toNat % numVersions

/-- A result that `odsc_from_ret` describes. -/
structure ResultOf (params : List DictEntry) (od : ObjData) : Prop where
  name : od.objDesc.name = (resultKey params).1
  version : od.objDesc.version = (resultKey params).2
  valid : od.objDesc.bb.Valid

/-- With different hashes, the results have different names or versions, and are both found after both
were stored. -/
def Distinct (numVersions : Nat) (params params' : List DictEntry) : Prop :=
  hashes params ≠ hashes params' →
    resultKey params ≠ resultKey params' ∧
    ∀ (ls : SsStorage) (od od' : ObjData), ls.sizeHash = numVersions → ResultOf params od →
      ResultOf params' od' →
        ((ls.lsAddObj od).lsAddObj od').lsFind od.objDesc = some od ∧
        ((ls.lsAddObj od).lsAddObj od').lsFind od'.objDesc = some od'

namespace SsStorage

variable {ls : SsStorage} {od od' : ObjData}

theorem objDescEqualsIntersect_self (hv : od.objDesc.bb.Valid) :
    objDescEqualsIntersect od.objDesc od.objDesc = true := by
  rw [objDescEqualsIntersect_iff, bboxDoesIntersect_iff_ondim]
  refine ⟨rfl, rfl, fun i hi => bboxIntersectOndim_iff.2 ?_⟩
  have hle := UInt64.le_iff_toNat_le.1 (hv.le i hi)
  omega

/-- A new object is found. -/
theorem lsFind_lsAddObj_self (hv : od.objDesc.bb.Valid) : (ls.lsAddObj od).lsFind od.objDesc = some od := by
  rw [lsFind, index_lsAddObj, objHash_lsAddObj, if_pos rfl]
  exact List.find?_cons_of_pos (objDescEqualsIntersect_self hv)

/-- It is still found after another one was added with another name or to another bin. -/
theorem lsFind_lsAddObj_of_ne (hv : od.objDesc.bb.Valid)
    (hne : od.objDesc.name ≠ od'.objDesc.name ∨ ls.index od.objDesc ≠ ls.index od'.objDesc) :
    ((ls.lsAddObj od).lsAddObj od').lsFind od.objDesc = some od := by
  rw [lsFind, index_lsAddObj, index_lsAddObj, objHash_lsAddObj, index_lsAddObj, objHash_lsAddObj,
    if_pos rfl]
  by_cases hbin : ls.index od.objDesc = ls.index od'.objDesc
  · have hname := hne.resolve_right fun h => h hbin
    have hkept : ¬ objDescByNameIntersect od'.objDesc od.objDesc = true := fun h =>
      hname (objDescByNameIntersect_iff.1 h).1.symm
    have hother : ¬ objDescEqualsIntersect od.objDesc od'.objDesc = true := fun h =>
      hname (objDescEqualsIntersect_iff.1 h).1
    rw [if_pos hbin,
      List.eraseP_cons_of_neg (p := fun old : ObjData => objDescByNameIntersect od'.objDesc old.objDesc) hkept]
    rw [List.find?_cons_of_neg (p := fun old : ObjData => objDescEqualsIntersect od.objDesc old.objDesc) hother]
    exact List.find?_cons_of_pos (objDescEqualsIntersect_self hv)
  · rw [if_neg hbin]
    exact List.find?_cons_of_pos (objDescEqualsIntersect_self hv)

/-- It is evicted by one of its name in its bin that intersects it. -/
theorem lsFind_lsAddObj_of_eq (hls : ls.objHash (ls.index od.objDesc) = [])
    (hname : od'.objDesc.name = od.objDesc.name) (hbin : ls.index od.objDesc = ls.index od'.objDesc)
    (hmeet : bboxDoesIntersect od'.objDesc.bb od.objDesc.bb = true) (hdata : od' ≠ od) :
    ((ls.lsAddObj od).lsAddObj od').lsFind od.objDesc ≠ some od := by
  have hevict : objDescByNameIntersect od'.objDesc od.objDesc = true :=
    objDescByNameIntersect_iff.2 ⟨hname, hmeet⟩
  rw [lsFind, index_lsAddObj, index_lsAddObj, objHash_lsAddObj, index_lsAddObj, objHash_lsAddObj,
    if_pos rfl, if_pos hbin, hls, List.eraseP_nil,
    List.eraseP_cons_of_pos (p := fun old : ObjData => objDescByNameIntersect od'.objDesc old.objDesc) hevict]
  intro h
  have hmem := List.mem_of_find?_eq_some h
  exact hdata (List.mem_singleton.1 hmem).symm

end SsStorage

/-- A result of one cell. -/
def cellResult (params : List DictEntry) (b : UInt8) : ObjData where
  objDesc := { plainDesc (resultKey params).2 (BBox.line 0 0) with name := (resultKey params).1 }
  gdim := ⟨1, Coord.ofFn fun _ => 1⟩
  data := fun _ => b

theorem valid_line_zero : (BBox.line 0 0).Valid := by
  refine ⟨⟨by decide, by decide⟩, fun i hi => ?_⟩
  have hzero : i = 0 := Nat.lt_one_iff.1 hi
  rw [hzero]
  decide

theorem resultOf_cellResult (params : List DictEntry) (b : UInt8) : ResultOf params (cellResult params b) :=
  ⟨rfl, rfl, valid_line_zero⟩

/-- The results of two rows of parameters without name and version are distinct exactly when the hashes
that are shown differ, or the bins of the products do. -/
theorem distinct_iff {numVersions : Nat} {params params' : List DictEntry} (hun : Unnamed params)
    (hun' : Unnamed params') (hlen : params.length ≤ 17) (hsame : params.length = params'.length) :
    Distinct numVersions params params' ↔
      (hashes params ≠ hashes params' →
        shownHashes (hashes params) ≠ shownHashes (hashes params') ∨
          versionBin numVersions (hashes params) ≠ versionBin numVersions (hashes params')) := by
  have hkey := resultKey_eq hun hlen
  have hkey' := resultKey_eq hun' (hsame ▸ hlen)
  have hnames : joined 8 ((hashes params).map hashText) = joined 8 ((hashes params').map hashText) ↔
      shownHashes (hashes params) = shownHashes (hashes params') :=
    joined_hashText_eq_iff (by simp [hashes, hsame])
  rw [paramsHash_eq] at hkey hkey'
  refine imp_congr_right fun _ => ?_
  constructor
  · rintro ⟨-, hstored⟩
    by_contra hnot
    rw [not_or, not_not, not_not] at hnot
    -- two results of one cell, in a storage without others
    have hfound := (hstored (lsAlloc numVersions) _ _ rfl (resultOf_cellResult params 0)
      (resultOf_cellResult params' 1)).1
    have hmeet : bboxDoesIntersect (BBox.line 0 0) (BBox.line 0 0) = true := by
      decide
    refine @SsStorage.lsFind_lsAddObj_of_eq (lsAlloc numVersions) _ _ rfl ?_ ?_ hmeet ?_ hfound
    · change (resultKey params').1 = (resultKey params).1
      rw [hkey, hkey']
      exact (hnames.2 hnot.1).symm
    · change (resultKey params).2.toNat % numVersions = (resultKey params').2.toNat % numVersions
      rw [hkey, hkey']
      exact hnot.2
    · intro h
      have hdata : (1 : UInt8) = 0 := congrFun (congrArg ObjData.data h) 0
      exact absurd hdata (by decide)
  · intro hne
    constructor
    · rw [hkey, hkey']
      intro h
      rcases Prod.mk.inj h with ⟨hname, hversion⟩
      rcases hne with hshown | hbin
      · exact hshown (hnames.1 hname)
      · exact hbin (congrArg (fun v : UInt32 => v.toNat % numVersions) hversion)
    · intro ls od od' hls hod hod'
      refine ⟨SsStorage.lsFind_lsAddObj_of_ne hod.valid ?_, SsStorage.lsFind_lsAddObj_self hod'.valid⟩
      rw [hod.name, hod'.name, SsStorage.index, SsStorage.index, hod.version, hod'.version, hls, hkey, hkey']
      exact hne.imp (fun hshown hname => hshown (hnames.1 hname)) id

/-- Two integers under the keys `x` and `y`. -/
def xyParams (x y : List UInt8) : List DictEntry :=
  [⟨DSP_INT, ⟨[120], by decide, by decide⟩, .mem x⟩, ⟨DSP_INT, ⟨[121], by decide, by decide⟩, .mem y⟩]

theorem fits_int {bytes : List UInt8} (h : bytes.length = 4) :
    DSP_INT ∈ dspTypes ∧ (DictVal.mem bytes).Fits DSP_INT := by
  have htype : DSP_INT ∈ dspTypes ∧ DSP_INT ≠ DSP_STR ∧ DSP_INT ≠ DSP_JSON := by
    decide
  refine ⟨htype.1, htype.2.1, htype.2.2, ?_⟩
  rw [h]
  rfl

theorem unnamed_xyParams {x y : List UInt8} (hx : x.length = 4) (hy : y.length = 4) :
    Unnamed (xyParams x y) := by
  constructor
  · intro p hp
    simp only [xyParams, List.mem_cons, List.not_mem_nil, or_false] at hp
    rcases hp with rfl | rfl
    · exact fits_int hx
    · exact fits_int hy
  · intro p hp
    simp only [xyParams, List.mem_cons, List.not_mem_nil, or_false] at hp
    rcases hp with rfl | rfl <;> rfl
  · intro p hp
    simp only [xyParams, List.mem_cons, List.not_mem_nil, or_false] at hp
    rcases hp with rfl | rfl <;> rfl

/-- Numbers of six digits are both in the name. -/
theorem distinct_iff_xyParams : Distinct 10 (xyParams [0, 0, 16, 0] [5, 0, 0, 0])
    (xyParams [0, 0, 16, 0] [7, 0, 0, 0]) := by
  have h5 : Unnamed (xyParams [0, 0, 16, 0] [5, 0, 0, 0]) := unnamed_xyParams rfl rfl
  have h7 : Unnamed (xyParams [0, 0, 16, 0] [7, 0, 0, 0]) := unnamed_xyParams rfl rfl
  exact (distinct_iff h5 h7 (by decide) rfl).2 fun _ => .inl (by decide)

/-- With `x = 0`, the value of `y` is in neither the name nor the version. -/
theorem not_distinct_xyParams :
    ∃ params params' : List DictEntry, params = xyParams [0, 0, 0, 0] [5, 0, 0, 0] ∧
      params' = xyParams [0, 0, 0, 0] [7, 0, 0, 0] ∧ Unnamed params ∧ Unnamed params' ∧
      hashes params ≠ hashes params' ∧ resultKey params = ([48, 46, 52], 0) ∧
      resultKey params' = ([48, 46, 52], 0) ∧ ¬ Distinct 10 params params' := by
  have h5 : Unnamed (xyParams [0, 0, 0, 0] [5, 0, 0, 0]) := unnamed_xyParams rfl rfl
  have h7 : Unnamed (xyParams [0, 0, 0, 0] [7, 0, 0, 0]) := unnamed_xyParams rfl rfl
  have hkey5 : resultKey (xyParams [0, 0, 0, 0] [5, 0, 0, 0]) = ([48, 46, 52], 0) := by
    rw [resultKey_eq h5 (by decide)]
    decide
  have hkey7 : resultKey (xyParams [0, 0, 0, 0] [7, 0, 0, 0]) = ([48, 46, 52], 0) := by
    rw [resultKey_eq h7 (by decide)]
    decide
  have hhash : hashes (xyParams [0, 0, 0, 0] [5, 0, 0, 0]) ≠ hashes (xyParams [0, 0, 0, 0] [7, 0, 0, 0]) := by
    decide
  exact ⟨_, _, rfl, rfl, h5, h7, hhash, hkey5, hkey7, fun h => (h hhash).1 (hkey5.trans hkey7.symm)⟩

end DataSpaces
