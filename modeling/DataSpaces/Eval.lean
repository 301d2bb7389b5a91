import DataSpaces.OpSize

/-!
# Eval — computing an expression at a position (`dspaces-ops.c`)

`ds_op_calc_ival` computes the value of an integer expression at one position of its result, and
`ds_op_calc_rval` that of a real one; each calls the other for operands of the other type.  They return
through `res` whether there was an error.

What a machine makes of a `double` is a parameter (`Doubles`), on the bits of the values.  What ends the
program, or is not determined by the source, is `none`: a byte outside of what may be read, a member
that is not set, and the divisions that a machine does not do.  The other operators on `long` wrap around.
-/

namespace DataSpaces

/-- Induction on a tree: a node from its subexpressions. -/
theorem DsDataExpr.induction {α : Type} {motive : DsDataExpr α → Prop}
    (obj : ∀ type size od, motive (.obj type size od))
    (iconst : ∀ type size ival, motive (.iconst type size ival))
    (rconst : ∀ type size rval, motive (.rconst type size rval))
    (node : ∀ op type size subExpr, (∀ expr ∈ subExpr, motive expr) → motive (.node op type size subExpr)) :
    ∀ expr, motive expr
  | .obj type size od => obj type size od
  | .iconst type size ival => iconst type size ival
  | .rconst type size rval => rconst type size rval
  | .node op type size subExpr =>
      node op type size subExpr fun expr _ => DsDataExpr.induction obj iconst rconst node expr

/-! ## Values in memory -/

/-- The operators on `double`, and the conversions from and to `long`. -/
structure Doubles where
  add : Int64 → Int64 → Int64
  sub : Int64 → Int64 → Int64
  mul : Int64 → Int64 → Int64
  div : Int64 → Int64 → Int64
  pow : Int64 → Int64 → Int64
  atan : Int64 → Int64
  ofLong : Int64 → Int64
  toLong : Int64 → Int64

/-- The number in `n` bytes, lowest first. -/
def loadLE : Nat → Buf → Nat
  | 0, _ => 0
  | n + 1, data => (data 0).toNat + 256 * loadLE n fun k => data (k + 1)

/-- `((int *)data)[pos]`. -/
def loadInt (data : Buf) (pos : Nat) : Int32 :=
  Int32.ofNat (loadLE 4 fun k => data (4 * pos + k))

/-- `((double *)data)[pos]`. -/
def loadDouble (data : Buf) (pos : Nat) : Int64 :=
  Int64.ofNat (loadLE 8 fun k => data (8 * pos + k))

/-- What an evaluator returns, and `*res`. -/
abbrev Outcome : Type := Option (Int64 × Int32)

namespace Outcome

/-- A value without an error. -/
def ofValue (v : Int64) : Outcome := some (v, 0)

def error : Outcome := some (0, -1)

/-- Go on with the value of an operand; its error is passed on. -/
def andThen (x : Outcome) (f : Int64 → Outcome) : Outcome :=
  x.bind fun r => if r.2 < 0 then some (0, r.2) else f r.1

/-- The conversion of the value. -/
def conv (f : Int64 → Int64) (x : Outcome) : Outcome :=
  x.map fun r => (f r.1, r.2)

/-- An operand goes to the evaluator of its type; with no such type, its value is not set. -/
def operand (type : DsVal) (rval ival : Outcome) : Outcome :=
  match type with
  | .real => rval
  | .int => ival
  | .other _ => none

@[simp] theorem none_andThen (f : Int64 → Outcome) : andThen none f = none := rfl

@[simp] theorem ofValue_andThen (v : Int64) (f : Int64 → Outcome) : (ofValue v).andThen f = f v := rfl

@[simp] theorem conv_ofValue (f : Int64 → Int64) (v : Int64) : (ofValue v).conv f = ofValue (f v) := rfl

end Outcome

/-- The last `switch` of `ds_op_calc_rval`. -/
def Doubles.op2 (dbl : Doubles) (op : DsOp) (subval1 subval2 : Int64) : Outcome :=
  match op with
  | .add => .ofValue (dbl.add subval1 subval2)
  | .sub => .ofValue (dbl.sub subval1 subval2)
  | .mult => .ofValue (dbl.mul subval1 subval2)
  | .div => .ofValue (dbl.div subval1 subval2)
  | .pow => .ofValue (dbl.pow subval1 subval2)
  | _ => .error

/-- The last `switch` of `ds_op_calc_ival`. -/
def longOp2 (dbl : Doubles) (op : DsOp) (subval1 subval2 : Int64) : Outcome :=
  match op with
  | .add => .ofValue (subval1 + subval2)
  | .sub => .ofValue (subval1 - subval2)
  | .mult => .ofValue (subval1 * subval2)
  | .div =>
      -- neither is checked before the operator
      if subval2 = 0 ∨ subval1 = Int64.minValue ∧ subval2 = -1 then none
      else .ofValue (subval1 / subval2)
  | .pow => .ofValue (dbl.toLong (dbl.pow (dbl.ofLong subval1) (dbl.ofLong subval2)))
  | _ => .error

/-! ## The evaluators -/

section Calc

variable (dbl : Doubles) (readable : ObjData → Nat → Bool) (pos : Nat)

/-- `((double *)od->data)[pos]`, when all of its bytes may be read. -/
def readDouble (od : ObjData) : Option Int64 :=
  if (List.range 8).all fun k => readable od (8 * pos + k) then some (loadDouble od.data pos) else none

mutual

def dsOpCalcRval : DsDataExpr ObjData → Outcome
  | .obj type _ od =>
      if type ≠ .real then .error else (readDouble readable pos od).bind Outcome.ofValue
  | .iconst _ _ _ => .error
  | .rconst type _ rval => if type ≠ .real then .error else .ofValue rval
  | .node op type _ subExpr =>
      if type ≠ .real then .error
      else
        match op, subExpr with
        | .obj, _ | .rconst, _ => none
        | .iconst, _ | .other _, _ => .error
        | .arctan, expr0 :: _ =>
            (Outcome.operand expr0.type (dsOpCalcRval expr0)
              ((dsOpCalcIval expr0).conv dbl.ofLong)).andThen fun subval1 => .ofValue (dbl.atan subval1)
        | _, [] => none
        | _, [expr0] =>
            (Outcome.operand expr0.type (dsOpCalcRval expr0)
              ((dsOpCalcIval expr0).conv dbl.ofLong)).andThen fun _ => none
        | op, expr0 :: expr1 :: _ =>
            (Outcome.operand expr0.type (dsOpCalcRval expr0)
              ((dsOpCalcIval expr0).conv dbl.ofLong)).andThen fun subval1 =>
                (Outcome.operand expr1.type (dsOpCalcRval expr1)
                  ((dsOpCalcIval expr1).conv dbl.ofLong)).andThen fun subval2 =>
                    dbl.op2 op subval1 subval2

def dsOpCalcIval : DsDataExpr ObjData → Outcome
  | .obj type _ od =>
      -- read as a `double` here, too
      if type ≠ .int then .error else (readDouble readable pos od).bind fun v => Outcome.ofValue (dbl.toLong v)
  | .rconst _ _ _ => .error
  | .iconst type _ ival => if type ≠ .int then .error else .ofValue ival
  | .node op type _ subExpr =>
      if type ≠ .int then .error
      else
        match op, subExpr with
        | .obj, _ | .iconst, _ => none
        | .rconst, _ | .arctan, _ | .other _, _ => .error
        | _, [] => none
        | _, [expr0] =>
            (Outcome.operand expr0.type ((dsOpCalcRval expr0).conv dbl.toLong)
              (dsOpCalcIval expr0)).andThen fun _ => none
        | op, expr0 :: expr1 :: _ =>
            (Outcome.operand expr0.type ((dsOpCalcRval expr0).conv dbl.toLong)
              (dsOpCalcIval expr0)).andThen fun subval1 =>
                (Outcome.operand expr1.type ((dsOpCalcRval expr1).conv dbl.toLong)
                  (dsOpCalcIval expr1)).andThen fun subval2 =>
                    longOp2 dbl op subval1 subval2

end

theorem calcRval_binary {op : DsOp} (hop : op.isBinary = true) (size : UInt64)
    (expr0 expr1 : DsDataExpr ObjData) (rest : List (DsDataExpr ObjData)) :
    dsOpCalcRval dbl readable pos (.node op .real size (expr0 :: expr1 :: rest)) =
      (Outcome.operand expr0.type (dsOpCalcRval dbl readable pos expr0)
        ((dsOpCalcIval dbl readable pos expr0).conv dbl.ofLong)).andThen fun subval1 =>
          (Outcome.operand expr1.type (dsOpCalcRval dbl readable pos expr1)
            ((dsOpCalcIval dbl readable pos expr1).conv dbl.ofLong)).andThen fun subval2 =>
              dbl.op2 op subval1 subval2 := by
  cases op with
  | add | sub | mult | div | pow => rfl
  | obj | iconst | rconst | arctan | other => cases hop

theorem calcIval_binary {op : DsOp} (hop : op.isBinary = true) (size : UInt64)
    (expr0 expr1 : DsDataExpr ObjData) (rest : List (DsDataExpr ObjData)) :
    dsOpCalcIval dbl readable pos (.node op .int size (expr0 :: expr1 :: rest)) =
      (Outcome.operand expr0.type ((dsOpCalcRval dbl readable pos expr0).conv dbl.toLong)
        (dsOpCalcIval dbl readable pos expr0)).andThen fun subval1 =>
          (Outcome.operand expr1.type ((dsOpCalcRval dbl readable pos expr1).conv dbl.toLong)
            (dsOpCalcIval dbl readable pos expr1)).andThen fun subval2 =>
              longOp2 dbl op subval1 subval2 := by
  cases op with
  | add | sub | mult | div | pow => rfl
  | obj | iconst | rconst | arctan | other => cases hop

end Calc

end DataSpaces
