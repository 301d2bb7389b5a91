import DataSpaces.ModName

/-!
# ModArgs — from the parameters of a client to the arguments of a module

`dspaces_get_module` sorts the parameters by key and packs them into a dictionary, the dictionary is sent,
`build_module_args_from_dict` makes an argument of each entry, and `py_obj_from_arg` makes a Python object
of the argument.  Each of the four looks at the type code again.

The types that `build_module_args_from_dict` has no case for become arguments without a value.  A `double`
goes into the member for `long`, so it is converted first and its bits are then read as a `double`.
-/

namespace DataSpaces

open Wire (ReadsBack length_putLE)

/-! ## The client -/

/-- `val` of `struct dspaces_mod_param`: eight bytes as a number, lowest first, or `s`. -/
inductive ParamUnion
  | word (bits : UInt64)
  | s (str : HgString)

/-- `struct dspaces_mod_param`. -/
structure ModParam where
  type : Int32
  key : HgString
  val : ParamUnion

/-- The sign of `strcmp`. -/
def strcmp : CStr → CStr → Int
  | [], [] => 0
  | [], _ :: _ => -1
  | _ :: _, [] => 1
  | a :: as, b :: bs => if a = b then strcmp as bs else if a < b then -1 else 1

/-- The parameter has an accepted type, and a value of that type. -/
def ModParam.Ok (p : ModParam) : Prop :=
  p.type.toInt8 ∈ dspTypes ∧
    match p.val with
    | .word _ => p.type.toInt8 ≠ DSP_STR ∧ p.type.toInt8 ≠ DSP_JSON
    | .s _ => p.type.toInt8 = DSP_STR ∨ p.type.toInt8 = DSP_JSON

/-! ## The arguments -/

/-- `dspaces_mod_arg_type_t`. -/
inductive ArgType
  | real
  | int
  | bool
  | str
  | json
  | none
  deriving DecidableEq

/-- The union of `struct dspaces_module_args`: the bits of `rval` or `ival`, or what a pointer points to;
nothing may have been stored. -/
inductive ArgUnion
  | bits (word : UInt64)
  | rarray (elems : List UInt64)
  | iarray (elems : List Int64)
  | strval (str : CStr)
  | unset

/-- `struct dspaces_module_args`. -/
structure ModuleArgs where
  name : CStr
  type : ArgType
  len : Int32
  val : ArgUnion

section Args

-- the conversion of a `float` to the equal `double`
variable (widen : UInt32 → UInt64)

end Args

/-- The types that are handled, with less than 2 GiB of JSON, `0.0`, booleans in one bit, and integers that are no
`long`. -/
def ModParam.Kept (p : ModParam) : Prop :=
  match p.val with
  | .s str => p.type.toInt8 = DSP_JSON → str.bytes.length < INT_MAX
  | .word bits =>
      p.type.toInt8 = DSP_FLOAT ∨ p.type.toInt8 = DSP_INT ∨ p.type.toInt8 = DSP_LONG ∨
        p.type.toInt8 = DSP_DOUBLE ∧ bits = 0 ∨
        p.type.toInt8 = DSP_BOOL ∧ (bits.toNat % 256 ≠ 0 → bits.toNat % 2 = 1) ∨
        (p.type.toInt8 = DSP_ULONG ∨ p.type.toInt8 = DSP_UINT64) ∧ 2 ^ 63 ≤ bits.toNat

/-! ## One parameter -/

section OneParam

variable {widen : UInt32 → UInt64}

end OneParam

end DataSpaces
