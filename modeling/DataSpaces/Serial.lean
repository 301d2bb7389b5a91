import Mathlib.Data.List.TakeDrop
import DataSpaces.BBox
import DataSpaces.Lib.Wire
import DataSpaces.StrHash

/-!
# Serial — the hand-written serializers (`ss_data.h`)

A `hg_proc_*` function of Mercury writes, reads or frees a value, by the operation of its processor.
Here every function of the header is two, one that writes and one that reads.  What Mercury does with
sizes, bytes, strings and raw memory is a parameter (`HgPrims`).

The loops over names and over entries count with an `int`: after the turn with index `INT_MAX` the
index overflows, and what happens then is not defined.
-/

namespace DataSpaces

open Wire (Codec Block ReadsBack)

/-- A string in memory, without its terminating zero. -/
structure HgString where
  bytes : CStr
  noNul : 0 ∉ bytes
  room : bytes.length + 1 < 2 ^ 64

/-- The values that `hg_proc_*` write and read. -/
structure HgPrims where
  size : Codec UInt64
  int8 : Codec Int8
  string : Codec HgString
  raw : (n : Nat) → Codec (Block n)

/-- Why a serializer does not succeed. -/
inductive ProcError
  | invalidParam
  /-- a primitive finds too few bytes -/
  | overflow
  /-- the C program has no meaning -/
  | undefined
  deriving DecidableEq

/-- Reading with a primitive. -/
def recv {α : Type} (c : Codec α) (bytes : List UInt8) : Except ProcError (α × List UInt8) :=
  match c.get bytes with
  | some r => .ok r
  | none => .error .overflow

@[simp] theorem recv_put {α : Type} (c : Codec α) (a : α) (rest : List UInt8) :
    recv c (c.put a ++ rest) = .ok (a, rest) := by
  rw [recv, c.get_put]

/-! ## The loops -/

/-- `i++` on an `int`. -/
def nextIndex (i : Nat) : Except ProcError Nat :=
  if i < INT_MAX then .ok (i + 1) else .error .undefined

section Loops

variable {α : Type} (put : α → Except ProcError (List UInt8))
  (get : List UInt8 → Except ProcError (α × List UInt8))

/-- The loop that writes the elements from index `i` on. -/
def encodeLoop : List α → Nat → Except ProcError (List UInt8)
  | [], _ => .ok []
  | a :: as, i => do
      let bytes ← put a
      let i ← nextIndex i
      let rest ← encodeLoop as i
      return bytes ++ rest

/-- The loop that reads `n` elements from index `i` on. -/
def decodeLoop : (n : Nat) → Nat → List UInt8 →
    Except ProcError ({ as : List α // as.length = n } × List UInt8)
  | 0, _, bytes => .ok (⟨[], rfl⟩, bytes)
  | n + 1, i, bytes => do
      let (a, bytes) ← get bytes
      let i ← nextIndex i
      let (as, bytes) ← decodeLoop n i bytes
      return (⟨a :: as.1, by rw [List.length_cons, as.2]⟩, bytes)

section Rules

variable {put : α → Except ProcError (List UInt8)} {get : List UInt8 → Except ProcError (α × List UInt8)}

/-- As long as the index stays below `INT_MAX`, a loop reads back what the other one wrote. -/
theorem loop_readsBack (l : List α) (h : ∀ a ∈ l, ReadsBack put get a) :
    ∀ (n i : Nat) (hn : l.length = n), i + n ≤ INT_MAX → ∃ bytes, encodeLoop put l i = .ok bytes ∧
      ∀ rest, decodeLoop get n i (bytes ++ rest) = .ok (⟨l, hn⟩, rest) := by
  induction l with
  | nil =>
      rintro n i rfl _
      exact ⟨[], rfl, fun rest => rfl⟩
  | cons a l ih =>
      rintro n i rfl hi
      rw [List.length_cons] at hi
      obtain ⟨bytes, hput, hget⟩ := h a (by simp)
      obtain ⟨more, hloop, hread⟩ := ih (fun b hb => h b (by simp [hb])) l.length (i + 1) rfl (by omega)
      have hnext : nextIndex i = .ok (i + 1) := if_pos (by omega)
      refine ⟨bytes ++ more, ?_, fun rest => ?_⟩
      · simp only [encodeLoop, hput, hnext, hloop, Wire.ok_bind, Wire.pure_eq_ok]
      · simp only [decodeLoop, List.length_cons, List.append_assoc, hget, hnext, hread, Wire.ok_bind,
          Wire.pure_eq_ok]

/-- The loop that writes is undefined when it gets past `INT_MAX` without an error. -/
theorem encodeLoop_undefined (l : List α) :
    ∀ i, i ≤ INT_MAX → INT_MAX < i + l.length →
      (∀ a ∈ l.take (INT_MAX + 1 - i), ∃ bytes, put a = .ok bytes) →
      encodeLoop put l i = .error .undefined := by
  induction l with
  | nil =>
      intro i hi hlen
      rw [List.length_nil] at hlen
      omega
  | cons a l ih =>
      intro i hi hlen hok
      rw [List.length_cons] at hlen
      have htake : INT_MAX + 1 - i = (INT_MAX - i) + 1 := by omega
      rw [htake, List.take_succ_cons] at hok
      obtain ⟨bytes, hput⟩ := hok a (by simp)
      rcases Nat.lt_or_ge i INT_MAX with hlt | hge
      · have hnext : nextIndex i = .ok (i + 1) := if_pos hlt
        have hrest : encodeLoop put l (i + 1) = .error .undefined := by
          refine ih (i + 1) hlt (by omega) fun b hb => hok b ?_
          rw [show INT_MAX + 1 - (i + 1) = INT_MAX - i by omega] at hb
          exact List.mem_cons_of_mem a hb
        simp only [encodeLoop, hput, hnext, hrest, Wire.ok_bind, Wire.error_bind]
      · have hnext : nextIndex i = .error .undefined := if_neg (Nat.not_lt.2 hge)
        simp only [encodeLoop, hput, hnext, Wire.ok_bind, Wire.error_bind]

/-- The loop that writes ends with `HG_INVALID_PARAM` iff one of the elements up to index `INT_MAX`
does. -/
theorem encodeLoop_invalidParam_iff (l : List α)
    (h : ∀ a ∈ l, (∃ bytes, put a = .ok bytes) ∨ put a = .error .invalidParam) :
    ∀ i, i ≤ INT_MAX → (encodeLoop put l i = .error .invalidParam ↔
      ∃ a ∈ l.take (INT_MAX + 1 - i), put a = .error .invalidParam) := by
  induction l with
  | nil =>
      intro i _
      simp [encodeLoop]
  | cons a l ih =>
      intro i hi
      have htake : INT_MAX + 1 - i = (INT_MAX - i) + 1 := by omega
      rw [htake, List.take_succ_cons]
      rcases h a (by simp) with ⟨bytes, hput⟩ | hput
      · have hne : put a ≠ .error .invalidParam := by
          rw [hput]
          exact fun heq => nomatch heq
        rcases Nat.lt_or_ge i INT_MAX with hlt | hge
        · have hnext : nextIndex i = .ok (i + 1) := if_pos hlt
          have hrest := ih (fun b hb => h b (by simp [hb])) (i + 1) hlt
          rw [show INT_MAX + 1 - (i + 1) = INT_MAX - i by omega] at hrest
          have hturn : encodeLoop put (a :: l) i = .error .invalidParam ↔
              encodeLoop put l (i + 1) = .error .invalidParam := by
            simp only [encodeLoop, hput, hnext, Wire.ok_bind, Wire.pure_eq_ok]
            cases encodeLoop put l (i + 1) <;> simp
          rw [hturn, hrest]
          simp [hne]
        · -- the index overflows before another element is written
          have hnext : nextIndex i = .error .undefined := if_neg (Nat.not_lt.2 hge)
          have hzero : INT_MAX - i = 0 := by omega
          simp [encodeLoop, hput, hnext, hzero]
      · simp [encodeLoop, hput]

end Rules

end Loops

/-! ## The values -/

/-- `odsc_hdr`. -/
structure OdscHdr where
  size : UInt64
  rawOdsc : Block size.toNat

/-- `odsc_hdr_with_gdim`; `raw_gdim` may not be set. -/
structure OdscHdrWithGdim where
  size : UInt64
  gdimSize : UInt64
  rawOdsc : Block size.toNat
  rawGdim : Option (Block gdimSize.toNat)

/-- `dsp_buf_t`. -/
structure DspBuf where
  len : UInt64
  buf : Block len.toNat

/-- `name_list_t`. -/
structure NameList where
  count : UInt64
  names : List HgString
  length_names : names.length = count.toNat

/-! ## Typed values -/

abbrev DSP_FLOAT : Int8 := -1
abbrev DSP_INT : Int8 := -2
abbrev DSP_LONG : Int8 := -3
abbrev DSP_DOUBLE : Int8 := -4
abbrev DSP_BOOL : Int8 := -5
abbrev DSP_CHAR : Int8 := -6
abbrev DSP_UINT : Int8 := -7
abbrev DSP_ULONG : Int8 := -8
abbrev DSP_BYTE : Int8 := -9
abbrev DSP_UINT8 : Int8 := -10
abbrev DSP_UINT16 : Int8 := -11
abbrev DSP_UINT32 : Int8 := -12
abbrev DSP_UINT64 : Int8 := -13
abbrev DSP_INT8 : Int8 := -14
abbrev DSP_INT16 : Int8 := -15
abbrev DSP_INT32 : Int8 := -16
abbrev DSP_INT64 : Int8 := -17
abbrev DSP_STR : Int8 := -18
abbrev DSP_JSON : Int8 := -19

/-- The type codes that `dict_encode_val` accepts. -/
def dspTypes : List Int8 :=
  [DSP_FLOAT, DSP_INT, DSP_LONG, DSP_DOUBLE, DSP_BOOL, DSP_CHAR, DSP_UINT, DSP_ULONG, DSP_BYTE, DSP_UINT8,
    DSP_UINT16, DSP_UINT32, DSP_UINT64, DSP_INT8, DSP_INT16, DSP_INT32, DSP_INT64, DSP_STR, DSP_JSON]

def typeToSizeMap : List Nat :=
  [0, 4, 4, 8, 8, 1, 1, 4, 8, 1, 1, 2, 4, 8, 1, 2, 4, 8]

/-- What a `void *` of a dictionary points to. -/
inductive DictVal
  | mem (bytes : List UInt8)
  | str (s : HgString)

/-- The value is of the type that the code names: a string, or memory of the size of the type. -/
def DictVal.Fits (type : Int8) : DictVal → Prop
  | .mem bytes => type ≠ DSP_STR ∧ type ≠ DSP_JSON ∧ typeToSizeMap[(-type).toInt.toNat]? = some bytes.length
  | .str _ => type = DSP_STR ∨ type = DSP_JSON

/-- One entry of a dictionary: an element of `types`, of `keys` and of `vals`. -/
structure DictEntry where
  type : Int8
  key : HgString
  val : DictVal

/-- `dsp_dict_t`. -/
structure DspDict where
  len : UInt64
  entries : List DictEntry
  length_entries : entries.length = len.toNat

/-- Every value whose type code is accepted is of that type. -/
def DspDict.Typed (dict : DspDict) : Prop :=
  ∀ entry ∈ dict.entries, entry.type ∈ dspTypes → entry.val.Fits entry.type

/-! ## The serializers -/

namespace HgPrims

variable (hg : HgPrims)

def encodeOdscHdr (v : OdscHdr) : Except ProcError (List UInt8) :=
  if v.size = 0 then .ok (hg.size.put v.size)
  else .ok (hg.size.put v.size ++ (hg.raw v.size.toNat).put v.rawOdsc)

def decodeOdscHdr (bytes : List UInt8) : Except ProcError (OdscHdr × List UInt8) := do
  let (size, bytes) ← recv hg.size bytes
  if h : size = 0 then return (⟨size, ⟨[], by rw [h]; rfl⟩⟩, bytes)
  else
    let (rawOdsc, bytes) ← recv (hg.raw size.toNat) bytes
    return (⟨size, rawOdsc⟩, bytes)

def encodeOdscHdrWithGdim (v : OdscHdrWithGdim) : Except ProcError (List UInt8) :=
  if v.size = 0 then .ok (hg.size.put v.size ++ hg.size.put v.gdimSize)
  else
    match v.rawGdim with
    | some rawGdim =>
        .ok (hg.size.put v.size ++ (hg.size.put v.gdimSize ++
          ((hg.raw v.size.toNat).put v.rawOdsc ++ (hg.raw v.gdimSize.toNat).put rawGdim)))
    | none => .error .undefined

/-- What `hg_proc_hg_size_t` returns for the first size is not looked at; when there are too few bytes
for it, there are too few for the second. -/
def decodeOdscHdrWithGdim (bytes : List UInt8) : Except ProcError (OdscHdrWithGdim × List UInt8) := do
  let (size, bytes) ← recv hg.size bytes
  let (gdimSize, bytes) ← recv hg.size bytes
  if h : size = 0 then return (⟨size, gdimSize, ⟨[], by rw [h]; rfl⟩, none⟩, bytes)
  else
    let (rawOdsc, bytes) ← recv (hg.raw size.toNat) bytes
    let (rawGdim, bytes) ← recv (hg.raw gdimSize.toNat) bytes
    return (⟨size, gdimSize, rawOdsc, some rawGdim⟩, bytes)

def encodeDspBuf (v : DspBuf) : Except ProcError (List UInt8) :=
  .ok (hg.size.put v.len ++ (hg.raw v.len.toNat).put v.buf)

def decodeDspBuf (bytes : List UInt8) : Except ProcError (DspBuf × List UInt8) := do
  let (len, bytes) ← recv hg.size bytes
  let (buf, bytes) ← recv (hg.raw len.toNat) bytes
  return (⟨len, buf⟩, bytes)

def encodeNameList (v : NameList) : Except ProcError (List UInt8) := do
  let names ← encodeLoop (fun name => .ok (hg.string.put name)) v.names 0
  return hg.size.put v.count ++ names

def decodeNameList (bytes : List UInt8) : Except ProcError (NameList × List UInt8) := do
  let (count, bytes) ← recv hg.size bytes
  let (names, bytes) ← decodeLoop (recv hg.string) count.toNat 0 bytes
  return (⟨count, names.1, names.2⟩, bytes)

/-- `hg_proc_raw` on a value of a dictionary. -/
def encodeRaw (n : Nat) : DictVal → Except ProcError (List UInt8)
  | .mem bytes => if h : bytes.length = n then .ok ((hg.raw n).put ⟨bytes, h⟩) else .error .undefined
  | .str _ => .error .undefined

def decodeRaw (n : Nat) (bytes : List UInt8) : Except ProcError (DictVal × List UInt8) := do
  let (block, bytes) ← recv (hg.raw n) bytes
  return (.mem block.1, bytes)

/-- `hg_proc_hg_string_t` on a value of a dictionary. -/
def encodeString : DictVal → Except ProcError (List UInt8)
  | .mem _ => .error .undefined
  | .str s => .ok (hg.string.put s)

def decodeString (bytes : List UInt8) : Except ProcError (DictVal × List UInt8) := do
  let (s, bytes) ← recv hg.string bytes
  return (.str s, bytes)

def dictEncodeVal (type : Int8) (val : DictVal) : Except ProcError (List UInt8) :=
  if type ∈ [DSP_BOOL, DSP_CHAR, DSP_BYTE, DSP_UINT8, DSP_INT8] then hg.encodeRaw 1 val
  else if type ∈ [DSP_UINT16, DSP_INT16] then hg.encodeRaw 2 val
  else if type ∈ [DSP_FLOAT, DSP_INT, DSP_UINT, DSP_UINT32, DSP_INT32] then hg.encodeRaw 4 val
  else if type ∈ [DSP_LONG, DSP_DOUBLE, DSP_ULONG, DSP_UINT64, DSP_INT64] then hg.encodeRaw 8 val
  else if type ∈ [DSP_STR, DSP_JSON] then hg.encodeString val
  else .error .invalidParam

def dictDecodeVal (type : Int8) (bytes : List UInt8) : Except ProcError (DictVal × List UInt8) :=
  if type ∈ [DSP_BOOL, DSP_CHAR, DSP_BYTE, DSP_UINT8, DSP_INT8] then hg.decodeRaw 1 bytes
  else if type ∈ [DSP_UINT16, DSP_INT16] then hg.decodeRaw 2 bytes
  else if type ∈ [DSP_FLOAT, DSP_INT, DSP_UINT, DSP_UINT32, DSP_INT32] then hg.decodeRaw 4 bytes
  else if type ∈ [DSP_LONG, DSP_DOUBLE, DSP_ULONG, DSP_UINT64, DSP_INT64] then hg.decodeRaw 8 bytes
  else if type ∈ [DSP_STR, DSP_JSON] then hg.decodeString bytes
  else .error .invalidParam

/-- One turn of the loop of `hg_proc_dsp_dict_t`. -/
def encodeEntry (entry : DictEntry) : Except ProcError (List UInt8) := do
  let val ← hg.dictEncodeVal entry.type entry.val
  return hg.int8.put entry.type ++ (hg.string.put entry.key ++ val)

def decodeEntry (bytes : List UInt8) : Except ProcError (DictEntry × List UInt8) := do
  let (type, bytes) ← recv hg.int8 bytes
  let (key, bytes) ← recv hg.string bytes
  let (val, bytes) ← hg.dictDecodeVal type bytes
  return (⟨type, key, val⟩, bytes)

def encodeDspDict (v : DspDict) : Except ProcError (List UInt8) := do
  let entries ← encodeLoop hg.encodeEntry v.entries 0
  return hg.size.put v.len ++ entries

def decodeDspDict (bytes : List UInt8) : Except ProcError (DspDict × List UInt8) := do
  let (len, bytes) ← recv hg.size bytes
  let (entries, bytes) ← decodeLoop hg.decodeEntry len.toNat 0 bytes
  return (⟨len, entries.1, entries.2⟩, bytes)

/-! ## Reading back one value -/

theorem odscHdr_readsBack (v : OdscHdr) : ReadsBack hg.encodeOdscHdr hg.decodeOdscHdr v := by
  obtain ⟨size, rawOdsc, hlen⟩ := v
  by_cases hzero : size = 0
  · subst hzero
    obtain rfl : rawOdsc = [] := List.length_eq_zero_iff.1 hlen
    exact ⟨_, rfl, fun rest => by simp [decodeOdscHdr]⟩
  · refine ⟨_, if_neg hzero, fun rest => ?_⟩
    simp [decodeOdscHdr, hzero]

theorem odscHdrWithGdim_readsBack (v : OdscHdrWithGdim) (hsize : 0 < v.size) (hgdim : v.rawGdim.isSome) :
    ReadsBack hg.encodeOdscHdrWithGdim hg.decodeOdscHdrWithGdim v := by
  obtain ⟨size, gdimSize, rawOdsc, rawGdim⟩ := v
  have hne : size ≠ 0 := (UInt64.ne_of_lt hsize).symm
  cases rawGdim with
  | none => cases hgdim
  | some rawGdim =>
      refine ⟨_, if_neg hne, fun rest => ?_⟩
      simp [decodeOdscHdrWithGdim, hne]

theorem dspBuf_readsBack (v : DspBuf) : ReadsBack hg.encodeDspBuf hg.decodeDspBuf v :=
  ⟨_, rfl, fun rest => by simp [decodeDspBuf]⟩

theorem raw_readsBack {n : Nat} {bytes : List UInt8} (h : bytes.length = n) :
    ReadsBack (hg.encodeRaw n) (hg.decodeRaw n) (.mem bytes) :=
  ⟨_, dif_pos h, fun rest => by simp [decodeRaw]⟩

theorem string_readsBack (s : HgString) : ReadsBack hg.encodeString hg.decodeString (.str s) :=
  ⟨_, rfl, fun rest => by simp [decodeString]⟩

/-- Reader and writer give every accepted type the width that it has. -/
theorem dictVal_readsBack {type : Int8} {val : DictVal} (htype : type ∈ dspTypes)
    (hfits : val.Fits type) : ReadsBack (hg.dictEncodeVal type) (hg.dictDecodeVal type) val := by
  cases val with
  | mem bytes =>
      obtain ⟨hstr, hjson, hsize⟩ := hfits
      simp only [dspTypes, List.mem_cons, List.not_mem_nil, or_false] at htype
      have hlen : ∀ n, some n = some bytes.length → bytes.length = n := fun n hn =>
        (Option.some.inj hn).symm
      rcases htype with rfl | rfl | rfl | rfl | rfl | rfl | rfl | rfl | rfl | rfl | rfl | rfl | rfl | rfl |
        rfl | rfl | rfl | rfl | rfl
      all_goals first
        | exact absurd rfl hstr
        | exact absurd rfl hjson
        | exact hg.raw_readsBack (hlen _ hsize)
  | str s =>
      rcases hfits with rfl | rfl
      · exact hg.string_readsBack s
      · exact hg.string_readsBack s

theorem dictEncodeVal_other {type : Int8} (htype : type ∉ dspTypes) (val : DictVal) :
    hg.dictEncodeVal type val = .error .invalidParam := by
  simp only [dspTypes, List.mem_cons, List.not_mem_nil, or_false, not_or] at htype
  simp [dictEncodeVal, htype]

theorem entry_readsBack {entry : DictEntry} (htype : entry.type ∈ dspTypes)
    (hfits : entry.val.Fits entry.type) : ReadsBack hg.encodeEntry hg.decodeEntry entry := by
  obtain ⟨bytes, hput, hget⟩ := hg.dictVal_readsBack htype hfits
  refine ⟨hg.int8.put entry.type ++ (hg.string.put entry.key ++ bytes), ?_, fun rest => ?_⟩
  · simp [encodeEntry, hput]
  · simp [decodeEntry, hget]

theorem encodeEntry_other {entry : DictEntry} (htype : entry.type ∉ dspTypes) :
    hg.encodeEntry entry = .error .invalidParam := by
  simp [encodeEntry, hg.dictEncodeVal_other htype]

theorem encodeEntry_invalidParam_iff {entry : DictEntry}
    (hfits : entry.type ∈ dspTypes → entry.val.Fits entry.type) :
    hg.encodeEntry entry = .error .invalidParam ↔ entry.type ∉ dspTypes := by
  constructor
  · intro herror htype
    obtain ⟨bytes, hput, -⟩ := hg.entry_readsBack htype (hfits htype)
    rw [hput] at herror
    cases herror
  · exact hg.encodeEntry_other

/-! ## Reading back lists -/

theorem name_readsBack (name : HgString) :
    ReadsBack (fun name => .ok (hg.string.put name)) (recv hg.string) name :=
  ⟨_, rfl, fun _ => recv_put _ _ _⟩

/-- A list of names is read back iff its loop ends before the index overflows. -/
theorem nameList_readsBack_iff (v : NameList) :
    ReadsBack hg.encodeNameList hg.decodeNameList v ↔ v.count.toNat ≤ INT_MAX := by
  obtain ⟨count, names, hlen⟩ := v
  constructor
  · rintro ⟨bytes, hput, -⟩
    by_contra hlong
    have hloop : encodeLoop (fun name => .ok (hg.string.put name)) names 0 = .error .undefined :=
      encodeLoop_undefined names 0 (Nat.zero_le _) (by simp only at hlong; omega) fun name _ => ⟨_, rfl⟩
    simp [encodeNameList, hloop] at hput
  · intro hshort
    obtain ⟨bytes, hloop, hread⟩ := loop_readsBack names (fun name _ => hg.name_readsBack name) _ 0 hlen
      (by simp only at hshort; omega)
    refine ⟨hg.size.put count ++ bytes, ?_, fun rest => ?_⟩
    · simp [encodeNameList, hloop]
    · simp [decodeNameList, hread]

/-- A dictionary with accepted types only is read back when its loop ends before the index overflows. -/
theorem dspDict_readsBack {v : DspDict} (htyped : v.Typed) (hall : ∀ entry ∈ v.entries, entry.type ∈ dspTypes)
    (hshort : v.len.toNat ≤ INT_MAX) : ReadsBack hg.encodeDspDict hg.decodeDspDict v := by
  obtain ⟨len, entries, hlen⟩ := v
  obtain ⟨bytes, hloop, hread⟩ := loop_readsBack entries
    (fun entry he => hg.entry_readsBack (hall entry he) (htyped entry he (hall entry he))) _ 0 hlen
    (by simp only at hshort; omega)
  refine ⟨hg.size.put len ++ bytes, ?_, fun rest => ?_⟩
  · simp [encodeDspDict, hloop]
  · simp [decodeDspDict, hread]

theorem encodeDspDict_error_iff (v : DspDict) (e : ProcError) :
    hg.encodeDspDict v = .error e ↔ encodeLoop hg.encodeEntry v.entries 0 = .error e := by
  rw [encodeDspDict]
  cases encodeLoop hg.encodeEntry v.entries 0 <;> simp

/-- Writing a dictionary ends with `HG_INVALID_PARAM` iff one of the entries up to index `INT_MAX` has a
type code that is not accepted. -/
theorem encodeDspDict_invalidParam_iff {v : DspDict} (htyped : v.Typed) :
    hg.encodeDspDict v = .error .invalidParam ↔
      ∃ entry ∈ v.entries.take (INT_MAX + 1), entry.type ∉ dspTypes := by
  have hentry : ∀ entry ∈ v.entries, (∃ bytes, hg.encodeEntry entry = .ok bytes) ∨
      hg.encodeEntry entry = .error .invalidParam := by
    intro entry he
    by_cases htype : entry.type ∈ dspTypes
    · obtain ⟨bytes, hput, -⟩ := hg.entry_readsBack htype (htyped entry he htype)
      exact Or.inl ⟨bytes, hput⟩
    · exact Or.inr (hg.encodeEntry_other htype)
  rw [hg.encodeDspDict_error_iff, encodeLoop_invalidParam_iff v.entries hentry 0 (Nat.zero_le _), Nat.sub_zero]
  refine exists_congr fun entry => and_congr_right fun he => ?_
  exact hg.encodeEntry_invalidParam_iff (htyped entry (List.mem_of_mem_take he))

theorem encodeDspDict_undefined {v : DspDict} (htyped : v.Typed) (hlong : INT_MAX < v.len.toNat)
    (hall : ∀ entry ∈ v.entries.take (INT_MAX + 1), entry.type ∈ dspTypes) :
    hg.encodeDspDict v = .error .undefined := by
  refine (hg.encodeDspDict_error_iff v _).2 (encodeLoop_undefined v.entries 0 (Nat.zero_le _)
    (by rw [v.length_entries]; omega) fun entry he => ?_)
  have hmem := List.mem_of_mem_take he
  obtain ⟨bytes, hput, -⟩ := hg.entry_readsBack (hall entry he) (htyped entry hmem (hall entry he))
  exact ⟨bytes, hput⟩

/-- What is expected of the serializer of dictionaries. -/
structure DictRight (v : DspDict) : Prop where
  readsBack : (∀ entry ∈ v.entries, entry.type ∈ dspTypes) →
    ReadsBack hg.encodeDspDict hg.decodeDspDict v
  invalidParam : hg.encodeDspDict v = .error .invalidParam ↔ ∃ entry ∈ v.entries, entry.type ∉ dspTypes

theorem dictRight_iff {v : DspDict} (htyped : v.Typed) :
    hg.DictRight v ↔ v.len.toNat ≤ INT_MAX ∨
      ∃ entry ∈ v.entries.take (INT_MAX + 1), entry.type ∉ dspTypes := by
  constructor
  · intro hright
    by_contra hneither
    simp only [not_or, Nat.not_le, not_exists, not_and, not_not] at hneither
    obtain ⟨hlong, hall⟩ := hneither
    have hundefined := hg.encodeDspDict_undefined htyped hlong hall
    by_cases hbad : ∃ entry ∈ v.entries, entry.type ∉ dspTypes
    · have hinvalid := hright.invalidParam.2 hbad
      rw [hundefined] at hinvalid
      cases hinvalid
    · simp only [not_exists, not_and, not_not] at hbad
      obtain ⟨bytes, hput, -⟩ := hright.readsBack hbad
      rw [hundefined] at hput
      cases hput
  · rintro (hshort | ⟨entry, he, htype⟩)
    · refine ⟨fun hall => hg.dspDict_readsBack htyped hall hshort, ?_⟩
      rw [hg.encodeDspDict_invalidParam_iff htyped,
        List.take_of_length_le (by rw [v.length_entries]; omega)]
    · have hmem := List.mem_of_mem_take he
      refine ⟨fun hall => absurd (hall entry hmem) htype, ?_⟩
      exact iff_of_true ((hg.encodeDspDict_invalidParam_iff htyped).2 ⟨entry, he, htype⟩)
        ⟨entry, hmem, htype⟩

/-! ## Main results -/

/-- Headers and buffers are always read back; a list of names is iff it has at most `INT_MAX` names, and
the serializer of dictionaries is right iff there are at most `INT_MAX` entries or the loop stops at an
entry before. -/
theorem serializers_iff :
    (∀ v : OdscHdr, ReadsBack hg.encodeOdscHdr hg.decodeOdscHdr v) ∧
      (∀ v : OdscHdrWithGdim, 0 < v.size → v.rawGdim.isSome →
        ReadsBack hg.encodeOdscHdrWithGdim hg.decodeOdscHdrWithGdim v) ∧
      (∀ v : DspBuf, ReadsBack hg.encodeDspBuf hg.decodeDspBuf v) ∧
      (∀ v : NameList, ReadsBack hg.encodeNameList hg.decodeNameList v ↔ v.count.toNat ≤ INT_MAX) ∧
      ∀ v : DspDict, v.Typed → (hg.DictRight v ↔ v.len.toNat ≤ INT_MAX ∨
        ∃ entry ∈ v.entries.take (INT_MAX + 1), entry.type ∉ dspTypes) :=
  ⟨hg.odscHdr_readsBack, hg.odscHdrWithGdim_readsBack, hg.dspBuf_readsBack, hg.nameList_readsBack_iff,
    fun _ htyped => hg.dictRight_iff htyped⟩

end HgPrims

/-! ## Concrete values -/

/-- A string goes as its length with the terminating zero and its bytes. -/
def hgString : Codec HgString where
  put s := Wire.uint64.put (UInt64.ofNat (s.bytes.length + 1)) ++ (s.bytes ++ [0])
  get bytes :=
    (Wire.uint64.get bytes).bind fun r =>
      -- what follows the length has to be a string with its terminating zero
      let s := r.2.take (r.1.toNat - 1)
      if h : 0 ∉ s ∧ s.length + 1 < 2 ^ 64 ∧ r.1.toNat ≤ r.2.length then
        some (⟨s, h.1, h.2.1⟩, r.2.drop r.1.toNat)
      else none
  get_put s rest := by
    obtain ⟨bytes, noNul, room⟩ := s
    have hlen : (UInt64.ofNat (bytes.length + 1)).toNat = bytes.length + 1 := by
      rw [UInt64.toNat_ofNat', Nat.mod_eq_of_lt room]
    have htake : ((bytes ++ [0]) ++ rest).take bytes.length = bytes := by
      rw [List.append_assoc, List.take_left]
    have hdrop : ((bytes ++ [0]) ++ rest).drop (bytes.length + 1) = rest :=
      List.drop_left' (by simp)
    rw [List.append_assoc, Codec.get_put, Option.bind_some]
    simp only [hlen, Nat.add_sub_cancel, htake, hdrop]
    exact dif_pos ⟨noNul, room, by simp⟩

def plainPrims : HgPrims where
  size := Wire.uint64
  int8 := .word 1 (fun a => a.toUInt8.toNat) (fun x => (UInt8.ofNat x).toInt8) (fun a => a.toUInt8.toNat_lt)
    fun a => by rw [UInt8.ofNat_toNat, Int8.toInt8_toUInt8]
  string := hgString
  raw := Wire.raw

def nameA : HgString := ⟨[97], by decide, by decide⟩

/-- A dictionary with a value of two bytes, a string, and a value of a type that does not exist. -/
def threeEntries : DspDict where
  len := 3
  entries := [⟨DSP_UINT16, nameA, .mem [1, 2]⟩, ⟨DSP_JSON, nameA, .str nameA⟩, ⟨7, nameA, .mem []⟩]
  length_entries := rfl

theorem typed_threeEntries : threeEntries.Typed := by
  intro entry he htype
  simp only [threeEntries, List.mem_cons, List.not_mem_nil, or_false] at he
  rcases he with rfl | rfl | rfl
  · exact ⟨by decide, by decide, rfl⟩
  · exact Or.inr rfl
  · exact absurd htype (by decide)

theorem serializers_plain :
    ReadsBack plainPrims.encodeOdscHdrWithGdim plainPrims.decodeOdscHdrWithGdim
        ⟨2, 1, ⟨[5, 6], rfl⟩, some ⟨[7], rfl⟩⟩ ∧
      ReadsBack plainPrims.encodeNameList plainPrims.decodeNameList ⟨2, [nameA, nameA], rfl⟩ ∧
      plainPrims.DictRight threeEntries :=
  have h := plainPrims.serializers_iff
  ⟨h.2.1 _ (by decide) rfl, (h.2.2.2.1 _).2 (by decide),
    (h.2.2.2.2 _ typed_threeEntries).2 (Or.inl (by decide))⟩

/-- One name more than the index can count. -/
def manyNames : NameList where
  count := 2147483648
  names := List.replicate 2147483648 nameA
  length_names := List.length_replicate

theorem not_readsBack_manyNames :
    ¬ ReadsBack plainPrims.encodeNameList plainPrims.decodeNameList manyNames := by
  rw [HgPrims.nameList_readsBack_iff]
  decide

end DataSpaces
