import DataSpaces.Lib.Wire
import DataSpaces.Storage

/-!
# Ops — expressions over objects and their encoding (`dspaces-ops.h`, `dspaces-ops.c`)

A client builds an expression over stored objects and constants with a few constructors and sends it to a
server, which computes it.  `hg_proc_ds_expr_t` writes a node as its operator, its type and its size, and
then what belongs to the operator: the record of the object, the constant, or the number of
subexpressions and the subexpressions.

What Mercury does with one value is a parameter (`HgProc`): a value is read back as it was written.  The
record of an object is copied as memory, so its type is a parameter too.
-/

namespace DataSpaces

open Wire (Codec)

/-! ## Expressions -/

/-- `ds_op_t`.  A variable of the type may also hold a byte that is no operator. -/
inductive DsOp
  | obj
  | iconst
  | rconst
  | add
  | sub
  | mult
  | div
  | pow
  | arctan
  | other (byte : { b : UInt8 // 8 < b })
  deriving DecidableEq

/-- `ds_val_t`, or a byte that is no type. -/
inductive DsVal
  | int
  | real
  | other (byte : { b : UInt8 // 1 < b })
  deriving DecidableEq

namespace DsOp

/-- The operator as a byte. -/
def toByte : DsOp → UInt8
  | .obj => 0
  | .iconst => 1
  | .rconst => 2
  | .add => 3
  | .sub => 4
  | .mult => 5
  | .div => 6
  | .pow => 7
  | .arctan => 8
  | .other byte => byte.1

def ofByte (b : UInt8) : DsOp :=
  if h : 8 < b then .other ⟨b, h⟩
  else if b = 0 then .obj
  else if b = 1 then .iconst
  else if b = 2 then .rconst
  else if b = 3 then .add
  else if b = 4 then .sub
  else if b = 5 then .mult
  else if b = 6 then .div
  else if b = 7 then .pow
  else .arctan

@[simp] theorem ofByte_toByte (op : DsOp) : ofByte op.toByte = op := by
  cases op with
  | other byte => exact dif_pos byte.2
  | _ => rfl

/-- Between `DS_OP_ADD` and `DS_OP_POW`. -/
def isBinary : DsOp → Bool
  | .add | .sub | .mult | .div | .pow => true
  | _ => false

end DsOp

namespace DsVal

def toByte : DsVal → UInt8
  | .int => 0
  | .real => 1
  | .other byte => byte.1

def ofByte (b : UInt8) : DsVal :=
  if h : 1 < b then .other ⟨b, h⟩ else if b = 0 then .int else .real

@[simp] theorem ofByte_toByte (type : DsVal) : ofByte type.toByte = type := by
  cases type with
  | other byte => exact dif_pos byte.2
  | _ => rfl

end DsVal

/-- `struct ds_data_expr`.  The member of the union that is set goes with the operator, except in a node
(`node`), where none is; `rval` is the bits of a `double`. -/
inductive DsDataExpr (α : Type)
  | obj (type : DsVal) (size : UInt64) (od : α)
  | iconst (type : DsVal) (size : UInt64) (ival : Int64)
  | rconst (type : DsVal) (size : UInt64) (rval : Int64)
  | node (op : DsOp) (type : DsVal) (size : UInt64) (subExpr : List (DsDataExpr α))

namespace DsDataExpr

variable {α : Type}

def type : DsDataExpr α → DsVal
  | .obj type _ _ | .iconst type _ _ | .rconst type _ _ | .node _ type _ _ => type

def size : DsDataExpr α → UInt64
  | .obj _ size _ | .iconst _ size _ | .rconst _ size _ | .node _ _ size _ => size

end DsDataExpr

/-! ## Constructors -/

/-- `OD_MAX_NAME_LEN`. -/
abbrev OD_MAX_NAME_LEN : Nat := 150

section Constructors

variable {α : Type}

/-- The size of an element; other types are unknown. -/
def DsVal.elemSize : DsVal → Option UInt64
  | .int => some 4
  | .real => some 8
  | .other _ => none

/-- `dspaces_op_new_obj`.  `fill` is the new `struct obj_data` with the members that are set, and `getGdim`
is `dspaces_get_gdim`.  More than `BBOX_MAX_NDIM` bounds would not fit into the descriptor. -/
def dspacesOpNewObj (fill : CStr → UInt32 → UInt64 → BBox → GlobalDimension → α)
    (getGdim : CStr → GlobalDimension) (varName : CStr) (ver : UInt32) (type : DsVal) (ndim : Nat)
    (lb ub : Coord) : Option (DsDataExpr α) :=
  type.elemSize.bind fun size =>
    let bb : BBox :=
      { numDims := ndim
        lb := Coord.ofFn fun i => if i < ndim then lb.c i else 0
        ub := Coord.ofFn fun i => if i < ndim then ub.c i else 0 }
    let gdim := getGdim varName
    if ndim ≤ BBOX_MAX_NDIM ∧ gdim.ndim = ndim then
      some (.obj type (size * bboxVolume bb)
        (fill (varName.take (OD_MAX_NAME_LEN - 1)) ver size bb gdim))
    else none

def dspacesOpNewIconst (val : Int64) : DsDataExpr α :=
  .iconst .int 4 val

/-- `dspaces_op_new_1arg`.  Any other operator than `DS_OP_ARCTAN` is reported and then used. -/
def dspacesOpNew1arg (op : DsOp) (expr1 : DsDataExpr α) : DsDataExpr α :=
  .node op (if op = .arctan ∨ op = .div then .real else expr1.type) expr1.size [expr1]

def dspacesOpNew2arg (op : DsOp) (expr1 expr2 : DsDataExpr α) : Option (DsDataExpr α) :=
  if op.isBinary then
    some (.node op (if expr1.type = .real ∨ expr2.type = .real then .real else .int)
      (if expr1.size > expr2.size then expr1.size else expr2.size) [expr1, expr2])
  else none

/-- The calls that build an expression. -/
inductive OpTerm
  | obj (varName : CStr) (ver : UInt32) (type : DsVal) (ndim : Nat) (lb ub : Coord)
  | iconst (val : Int64)
  | oneArg (op : DsOp) (expr1 : OpTerm)
  | twoArg (op : DsOp) (expr1 expr2 : OpTerm)

/-- The expression that the calls return; `none` when one returns no expression. -/
def OpTerm.build (fill : CStr → UInt32 → UInt64 → BBox → GlobalDimension → α)
    (getGdim : CStr → GlobalDimension) : OpTerm → Option (DsDataExpr α)
  | .obj varName ver type ndim lb ub => dspacesOpNewObj fill getGdim varName ver type ndim lb ub
  | .iconst val => some (dspacesOpNewIconst val)
  | .oneArg op expr1 => do
      let expr1 ← expr1.build fill getGdim
      return dspacesOpNew1arg op expr1
  | .twoArg op expr1 expr2 => do
      let expr1 ← expr1.build fill getGdim
      let expr2 ← expr2.build fill getGdim
      dspacesOpNew2arg op expr1 expr2

/-- The height of the tree. -/
def OpTerm.depth : OpTerm → Nat
  | .obj .. | .iconst _ => 1
  | .oneArg _ expr1 => expr1.depth + 1
  | .twoArg _ expr1 expr2 => max expr1.depth expr2.depth + 1

end Constructors

/-! ## Encoding -/

/-- The values that `hg_proc_*` write and read. -/
structure HgProc (α : Type) where
  uint8 : Codec UInt8
  int32 : Codec Int32
  int64 : Codec Int64
  uint64 : Codec UInt64
  raw : Codec α

/-- `hg_return_t`, as far as it is returned here. -/
inductive HgReturn
  | success
  | invalidParam
  | protocolError
  deriving DecidableEq

namespace HgProc

variable {α : Type} (hg : HgProc α)

/-- What every node starts with. -/
def header (op : DsOp) (type : DsVal) (size : UInt64) : List UInt8 :=
  hg.uint8.put op.toByte ++ (hg.uint8.put type.toByte ++ hg.uint64.put size)

/-- `hg_proc_ds_expr_t` with `HG_ENCODE`: what it returns and what it writes.  It is `none` when it reads
a subexpression or a member of the union that is not there.  What it returns for a subexpression is not
looked at. -/
def encode : DsDataExpr α → Option (HgReturn × List UInt8)
  | .obj type size od => some (.success, hg.header .obj type size ++ hg.raw.put od)
  -- the constant goes through a variable of 32 bits
  | .iconst type size ival => some (.success, hg.header .iconst type size ++ hg.int32.put ival.toInt32)
  | .rconst type size rval => some (.success, hg.header .rconst type size ++ hg.int64.put rval)
  | .node op type size subExpr =>
      match op, subExpr with
      | .arctan, expr0 :: _ =>
          (encode expr0).map fun r =>
            (.success, hg.header .arctan type size ++ (hg.uint8.put 1 ++ r.2))
      | .add, expr0 :: expr1 :: _ | .sub, expr0 :: expr1 :: _ | .mult, expr0 :: expr1 :: _
      | .div, expr0 :: expr1 :: _ | .pow, expr0 :: expr1 :: _ =>
          (encode expr0).bind fun r0 => (encode expr1).map fun r1 =>
            (.success, hg.header op type size ++ (hg.uint8.put 2 ++ (r0.2 ++ r1.2)))
      | .other _, _ => some (.invalidParam, hg.header op type size)
      | _, _ => none

/-- The loop over the subexpressions. -/
def decodeSubs (decode : List UInt8 → Option (HgReturn × DsDataExpr α × List UInt8)) :
    Nat → List UInt8 → Option (List (DsDataExpr α) × List UInt8)
  | 0, bytes => some ([], bytes)
  | n + 1, bytes => do
      let (_, expr, bytes) ← decode bytes
      let (subExpr, bytes) ← decodeSubs decode n bytes
      return (expr :: subExpr, bytes)

/-- `hg_proc_ds_expr_t` with `HG_DECODE`: what it returns, the new tree and the bytes it leaves.  It is
`none` when there are not enough bytes.  `depth` bounds the nesting of the calls. -/
def decode : Nat → List UInt8 → Option (HgReturn × DsDataExpr α × List UInt8)
  | 0, _ => none
  | depth + 1, bytes => do
      let (byte, bytes) ← hg.uint8.get bytes
      let op := DsOp.ofByte byte
      let (byte, bytes) ← hg.uint8.get bytes
      let type := DsVal.ofByte byte
      let (size, bytes) ← hg.uint64.get bytes
      match op with
      | .obj =>
          let (od, bytes) ← hg.raw.get bytes
          return (.success, .obj type size od, bytes)
      | .iconst =>
          let (word, bytes) ← hg.int32.get bytes
          return (.success, .iconst type size word.toInt64, bytes)
      | .rconst =>
          let (rval, bytes) ← hg.int64.get bytes
          return (.success, .rconst type size rval, bytes)
      | .arctan | .add | .sub | .mult | .div | .pow =>
          let (byte, bytes) ← hg.uint8.get bytes
          -- the number of subexpressions is signed
          let n := if byte < 128 then byte.toNat else 0
          let (subExpr, bytes) ← decodeSubs (decode depth) n bytes
          return (.success, .node op type size subExpr, bytes)
      | .other _ => return (.protocolError, .node op type size [], bytes)

/-! ## Reading back what was written -/

theorem decode_obj (depth : Nat) (type : DsVal) (size : UInt64) (od : α) (rest : List UInt8) :
    hg.decode (depth + 1) (hg.header .obj type size ++ hg.raw.put od ++ rest) =
      some (.success, .obj type size od, rest) := by
  simp [decode, header]

theorem decode_iconst (depth : Nat) (type : DsVal) (size : UInt64) (word : Int32) (rest : List UInt8) :
    hg.decode (depth + 1) (hg.header .iconst type size ++ hg.int32.put word ++ rest) =
      some (.success, .iconst type size word.toInt64, rest) := by
  simp [decode, header]

theorem decode_other (depth : Nat) (byte : { b : UInt8 // 8 < b }) (type : DsVal) (size : UInt64)
    (rest : List UInt8) :
    hg.decode (depth + 1) (hg.header (.other byte) type size ++ rest) =
      some (.protocolError, .node (.other byte) type size [], rest) := by
  simp [decode, header]

theorem decode_arctan {depth : Nat} {type : DsVal} {size : UInt64} {expr : DsDataExpr α} {status : HgReturn}
    {bytes rest : List UInt8} (h : hg.decode depth (bytes ++ rest) = some (status, expr, rest)) :
    hg.decode (depth + 1) (hg.header .arctan type size ++ (hg.uint8.put 1 ++ bytes) ++ rest) =
      some (.success, .node .arctan type size [expr], rest) := by
  simp [decode, header, decodeSubs, h]

theorem decode_binary {op : DsOp} (hop : op.isBinary = true) {depth : Nat} {type : DsVal} {size : UInt64}
    {expr0 expr1 : DsDataExpr α} {status0 status1 : HgReturn} {bytes0 bytes1 rest : List UInt8}
    (h0 : hg.decode depth (bytes0 ++ (bytes1 ++ rest)) = some (status0, expr0, bytes1 ++ rest))
    (h1 : hg.decode depth (bytes1 ++ rest) = some (status1, expr1, rest)) :
    hg.decode (depth + 1) (hg.header op type size ++ (hg.uint8.put 2 ++ (bytes0 ++ bytes1)) ++ rest) =
      some (.success, .node op type size [expr0, expr1], rest) := by
  cases op with
  | add | sub | mult | div | pow => simp [decode, header, decodeSubs, h0, h1]
  | obj | iconst | rconst | arctan | other => cases hop

theorem encode_arctan {type : DsVal} {size : UInt64} {expr0 : DsDataExpr α} :
    hg.encode (.node .arctan type size [expr0]) =
      (hg.encode expr0).map fun r =>
        (.success, hg.header .arctan type size ++ (hg.uint8.put 1 ++ r.2)) :=
  rfl

theorem encode_binary {op : DsOp} (hop : op.isBinary = true) {type : DsVal} {size : UInt64}
    {expr0 expr1 : DsDataExpr α} :
    hg.encode (.node op type size [expr0, expr1]) =
      (hg.encode expr0).bind fun r0 => (hg.encode expr1).map fun r1 =>
        (.success, hg.header op type size ++ (hg.uint8.put 2 ++ (r0.2 ++ r1.2))) := by
  cases op with
  | add | sub | mult | div | pow => rfl
  | obj | iconst | rconst | arctan | other => cases hop

/-- The tree comes back from the bytes that it is encoded to, whatever comes after them. -/
def RoundTrip (expr : DsDataExpr α) : Prop :=
  ∃ bytes, hg.encode expr = some (.success, bytes) ∧
    ∃ enough, ∀ depth, enough ≤ depth → ∀ rest,
      hg.decode depth (bytes ++ rest) = some (.success, expr, rest)

end HgProc

/-- Every integer constant has at most 32 bits, and the only operator of one argument is
`DS_OP_ARCTAN`. -/
def OpTerm.Fits : OpTerm → Prop
  | .obj .. => True
  | .iconst val => -2 ^ 31 ≤ val.toInt ∧ val.toInt < 2 ^ 31
  | .oneArg op expr1 => op = .arctan ∧ expr1.Fits
  | .twoArg _ expr1 expr2 => expr1.Fits ∧ expr2.Fits

theorem toInt64_toInt32_eq_iff (val : Int64) :
    val.toInt32.toInt64 = val ↔ -2 ^ 31 ≤ val.toInt ∧ val.toInt < 2 ^ 31 := by
  rw [← Int64.toInt_inj, Int32.toInt_toInt64, Int64.toInt_toInt32]
  constructor
  · intro h
    have hle := Int.bmod_lt (x := val.toInt) (m := 2 ^ 32) (by decide)
    have hge := Int.le_bmod (x := val.toInt) (m := 2 ^ 32) (by decide)
    rw [h] at hle hge
    constructor
    · simpa using hge
    · simpa using hle
  · rintro ⟨hge, hle⟩
    rw [Int.bmod_eq_of_le (by simpa using hge) (by simpa using hle)]

/-! ### The tree that is read -/

section Read

variable {α : Type} (hg : HgProc α) {fill : CStr → UInt32 → UInt64 → BBox → GlobalDimension → α}
  {getGdim : CStr → GlobalDimension}

/-- What comes of a tree that is sent: it cannot be encoded, or some tree is read from exactly the bytes
that were written, which is the same tree if everything fits. -/
inductive Sent (t : OpTerm) (expr : DsDataExpr α) : Prop
  | undefined (hnone : hg.encode expr = none) (hfits : ¬ t.Fits)
  | read (status status' : HgReturn) (bytes : List UInt8) (expr' : DsDataExpr α)
      (hencode : hg.encode expr = some (status, bytes))
      (hdecode : ∀ depth, t.depth ≤ depth → ∀ rest,
        hg.decode depth (bytes ++ rest) = some (status', expr', rest))
      (hsame : expr' = expr ↔ t.Fits) (hok : t.Fits → status = .success ∧ status' = .success)

/-- A leaf with some record. -/
theorem exists_of_dspacesOpNewObj {varName : CStr} {ver : UInt32} {type : DsVal} {ndim : Nat}
    {lb ub : Coord} {expr : DsDataExpr α}
    (h : dspacesOpNewObj fill getGdim varName ver type ndim lb ub = some expr) :
    ∃ size od, expr = .obj type size od := by
  rcases Option.bind_eq_some_iff.1 h with ⟨size, -, h⟩
  simp only at h
  split at h
  · cases h
    exact ⟨_, _, rfl⟩
  · cases h

theorem succ_pred_of_depth_le (t : OpTerm) {depth : Nat} (h : t.depth ≤ depth) :
    ∃ below, depth = below + 1 ∧ t.depth ≤ below + 1 := by
  have hpos : 0 < t.depth := by
    cases t <;> simp [OpTerm.depth]
  exact ⟨depth - 1, by omega, by omega⟩

theorem sent_iconst (val : Int64) : Sent hg (.iconst val) (dspacesOpNewIconst val) := by
  refine .read .success .success _ (.iconst .int 4 val.toInt32.toInt64) rfl (fun depth hdepth rest => ?_)
    ?_ fun _ => ⟨rfl, rfl⟩
  · rcases succ_pred_of_depth_le _ hdepth with ⟨below, rfl, -⟩
    exact hg.decode_iconst below _ _ _ _
  · rw [OpTerm.Fits, ← toInt64_toInt32_eq_iff, dspacesOpNewIconst]
    simp

theorem Sent.oneArg {t : OpTerm} {expr1 : DsDataExpr α} (h : Sent hg t expr1) (op : DsOp) :
    Sent hg (.oneArg op t) (dspacesOpNew1arg op expr1) := by
  cases op with
  | arctan =>
      cases h with
      | undefined hnone hfits =>
          refine .undefined ?_ fun h => hfits h.2
          rw [dspacesOpNew1arg, hg.encode_arctan, hnone]
          rfl
      | read status status' bytes expr' hencode hdecode hsame hok =>
          have hwritten : hg.encode (dspacesOpNew1arg .arctan expr1) = some (.success,
              hg.header .arctan .real expr1.size ++ (hg.uint8.put 1 ++ bytes)) := by
            rw [dspacesOpNew1arg, hg.encode_arctan, hencode]
            rfl
          refine .read .success .success _ (.node .arctan .real expr1.size [expr']) hwritten
            (fun depth hdepth rest => ?_) ?_ fun _ => ⟨rfl, rfl⟩
          · rcases succ_pred_of_depth_le _ hdepth with ⟨below, rfl, hbelow⟩
            exact hg.decode_arctan (hdecode below (Nat.le_of_succ_le_succ hbelow) rest)
          · simp only [dspacesOpNew1arg, true_or, if_true, OpTerm.Fits, DsDataExpr.node.injEq, true_and,
              List.cons.injEq, and_true]
            exact hsame
  | other byte =>
      -- only the header is written, and the subexpression is lost
      refine .read .invalidParam .protocolError _
        (.node (.other byte) (dspacesOpNew1arg (.other byte) expr1).type expr1.size []) rfl
        (fun depth hdepth rest => ?_) ?_ fun h => absurd h.1 (by simp)
      · rcases succ_pred_of_depth_le _ hdepth with ⟨below, rfl, -⟩
        exact hg.decode_other below _ _ _ _
      · simp [dspacesOpNew1arg, OpTerm.Fits]
  | obj | iconst | rconst | add | sub | mult | div | pow =>
      exact .undefined rfl fun h => absurd h.1 (by simp)

theorem Sent.twoArg {t1 t2 : OpTerm} {expr1 expr2 : DsDataExpr α} (h1 : Sent hg t1 expr1)
    (h2 : Sent hg t2 expr2) {op : DsOp} (hop : op.isBinary = true) (type : DsVal) (size : UInt64) :
    Sent hg (.twoArg op t1 t2) (.node op type size [expr1, expr2]) := by
  cases h1 with
  | undefined hnone hfits =>
      refine .undefined ?_ fun h => hfits h.1
      rw [hg.encode_binary hop, hnone]
      rfl
  | read status1 status1' bytes1 expr1' hencode1 hdecode1 hsame1 hok1 =>
      cases h2 with
      | undefined hnone hfits =>
          refine .undefined ?_ fun h => hfits h.2
          rw [hg.encode_binary hop, hencode1, hnone]
          rfl
      | read status2 status2' bytes2 expr2' hencode2 hdecode2 hsame2 hok2 =>
          have hwritten : hg.encode (.node op type size [expr1, expr2]) = some (.success,
              hg.header op type size ++ (hg.uint8.put 2 ++ (bytes1 ++ bytes2))) := by
            rw [hg.encode_binary hop, hencode1, hencode2]
            rfl
          refine .read .success .success _ (.node op type size [expr1', expr2']) hwritten
            (fun depth hdepth rest => ?_) ?_ fun _ => ⟨rfl, rfl⟩
          · -- both operands are read one level below
            rcases succ_pred_of_depth_le _ hdepth with ⟨below, rfl, hbelow⟩
            have hmax := Nat.le_of_succ_le_succ hbelow
            exact hg.decode_binary hop (hdecode1 below ((le_max_left _ _).trans hmax) _)
              (hdecode2 below ((le_max_right _ _).trans hmax) rest)
          · simp only [OpTerm.Fits, DsDataExpr.node.injEq, true_and, List.cons.injEq, and_true]
            exact and_congr hsame1 hsame2

theorem sent_of_build (t : OpTerm) : ∀ expr, t.build fill getGdim = some expr → Sent hg t expr := by
  induction t with
  | obj varName ver type ndim lb ub =>
      intro expr hbuild
      rcases exists_of_dspacesOpNewObj hbuild with ⟨size, od, rfl⟩
      refine .read .success .success _ (.obj type size od) rfl (fun depth hdepth rest => ?_) ?_
        fun _ => ⟨rfl, rfl⟩
      · rcases succ_pred_of_depth_le _ hdepth with ⟨below, rfl, -⟩
        exact hg.decode_obj below _ _ _ _
      · simp [OpTerm.Fits]
  | iconst val =>
      intro expr hbuild
      cases hbuild
      exact sent_iconst hg val
  | oneArg op expr1 ih =>
      intro expr hbuild
      rcases Option.bind_eq_some_iff.1 hbuild with ⟨e1, he1, hbuild⟩
      cases hbuild
      exact (ih e1 he1).oneArg hg op
  | twoArg op expr1 expr2 ih1 ih2 =>
      intro expr hbuild
      rcases Option.bind_eq_some_iff.1 hbuild with ⟨e1, he1, hbuild⟩
      rcases Option.bind_eq_some_iff.1 hbuild with ⟨e2, he2, hbuild⟩
      -- a wrong operator makes no expression
      rw [dspacesOpNew2arg] at hbuild
      split at hbuild
      · next hop =>
          cases hbuild
          exact (ih1 e1 he1).twoArg hg (ih2 e2 he2) hop _ _
      · cases hbuild

end Read

/-- An expression that the constructors build comes back from its encoding exactly when its integer
constants have at most 32 bits and no constructor was called with a wrong operator of one argument. -/
theorem expr_roundTrip_iff {α : Type} (hg : HgProc α)
    {fill : CStr → UInt32 → UInt64 → BBox → GlobalDimension → α} {getGdim : CStr → GlobalDimension}
    {t : OpTerm} {expr : DsDataExpr α} (hbuild : t.build fill getGdim = some expr) :
    hg.RoundTrip expr ↔ t.Fits := by
  cases sent_of_build hg t expr hbuild with
  | undefined hnone hfits =>
      refine iff_of_false ?_ hfits
      rintro ⟨bytes, hencode, -⟩
      rw [hnone] at hencode
      cases hencode
  | read status status' bytes expr' hencode hdecode hsame hok =>
      constructor
      · -- enough turns for both readings
        rintro ⟨bytes', hencode', enough, hdecode'⟩
        rw [hencode, Option.some.injEq, Prod.mk.injEq] at hencode'
        have hread := hdecode' (max enough t.depth) (le_max_left _ _) []
        rw [← hencode'.2, hdecode _ (le_max_right _ _), Option.some.injEq, Prod.mk.injEq,
          Prod.mk.injEq] at hread
        exact hsame.1 hread.2.1
      · intro hfits
        rcases hok hfits with ⟨rfl, rfl⟩
        refine ⟨bytes, hencode, t.depth, fun depth hdepth rest => ?_⟩
        rw [hdecode depth hdepth rest, hsame.2 hfits]

/-! ### On a machine with little-endian integers -/

/-- The bytes as they are in memory, with a record of 8 bytes. -/
def plainProc : HgProc (Wire.Block 8) :=
  ⟨Wire.uint8, Wire.int32, Wire.int64, Wire.uint64, Wire.raw 8⟩

/-- A record with its version and its size. -/
def plainFill (_ : CStr) (ver : UInt32) (size : UInt64) (_ : BBox) (_ : GlobalDimension) : Wire.Block 8 :=
  ⟨Wire.putLE 4 ver.toNat ++ Wire.putLE 4 size.toNat, rfl⟩

def plainGdim (_ : CStr) : GlobalDimension := ⟨1, Coord.ofFn fun _ => 4⟩

/-- The constant `2 ^ 31` comes back as `-2 ^ 31`. -/
theorem expr_not_roundTrip :
    ∃ expr bytes, (OpTerm.iconst (2 ^ 31)).build plainFill plainGdim = some expr ∧
      plainProc.encode expr = some (.success, bytes) ∧
      (∀ depth rest, plainProc.decode (depth + 1) (bytes ++ rest) =
        some (.success, .iconst .int 4 (-2 ^ 31), rest)) ∧
      ¬ plainProc.RoundTrip expr := by
  have hdecode : ∀ depth rest, plainProc.decode (depth + 1)
      (plainProc.header .iconst .int 4 ++ plainProc.int32.put (2 ^ 31 : Int64).toInt32 ++ rest) =
        some (.success, .iconst .int 4 (-2 ^ 31), rest) :=
    fun depth rest => plainProc.decode_iconst depth .int 4 _ rest
  refine ⟨_, _, rfl, rfl, hdecode, ?_⟩
  rintro ⟨bytes, hencode, enough, hread⟩
  cases hencode
  have hsame := hread (enough + 1) (Nat.le_succ _) []
  rw [hdecode, dspacesOpNewIconst] at hsame
  simp only [Option.some.injEq, Prod.mk.injEq, DsDataExpr.iconst.injEq, true_and, and_true] at hsame
  exact absurd hsame (by decide)

/-- `1 - arctan a` for a variable of four cells. -/
def arctanTerm : OpTerm :=
  .twoArg .sub (.iconst 1)
    (.oneArg .arctan (.obj [97] 0 .real 1 (Coord.ofFn fun _ => 0) (Coord.ofFn fun _ => 3)))

theorem expr_roundTrip_iff_arctan :
    ∃ expr, arctanTerm.build plainFill plainGdim = some expr ∧ plainProc.RoundTrip expr := by
  have hsome : (arctanTerm.build plainFill plainGdim).isSome = true := by
    decide
  rcases Option.isSome_iff_exists.1 hsome with ⟨expr, hbuild⟩
  have hone : -2 ^ 31 ≤ (1 : Int64).toInt ∧ (1 : Int64).toInt < 2 ^ 31 := by
    decide
  exact ⟨expr, hbuild, (expr_roundTrip_iff plainProc hbuild).2 ⟨hone, rfl, trivial⟩⟩

end DataSpaces
