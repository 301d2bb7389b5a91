import DataSpaces.Eval

/-!
# IntEval — integer expressions and their values (`ds_op_calc_ival`)

An expression over integer objects, integer constants and `+`, `-`, `*`, `/` has a value at a position in
the integers: each object stands for the number in its cell there, which has four bytes.
`ds_op_calc_ival` computes with the same operators, but takes eight bytes for a cell of an object and
reads them as a `double`.  So it computes the value when there is no object, and reads past the cell when
there is one.
-/

namespace DataSpaces

/-! ## Values in the integers -/

/-- A result that fits into 64 bits. -/
def inLong (v : Int) : Option Int :=
  if -2 ^ 63 ≤ v ∧ v < 2 ^ 63 then some v else none

/-- The operators on integers, where they neither divide by `0` nor overflow. -/
def intOp2 (op : DsOp) (v1 v2 : Int) : Option Int :=
  match op with
  | .add => inLong (v1 + v2)
  | .sub => inLong (v1 - v2)
  | .mult => inLong (v1 * v2)
  | .div => if v2 = 0 then none else inLong (v1.tdiv v2)
  | _ => none

namespace DsDataExpr

/-- The value at a position. -/
def intValue (pos : Nat) : DsDataExpr ObjData → Option Int
  | .obj _ _ od => some (loadInt od.data pos).toInt
  | .iconst _ _ ival => some ival.toInt
  | .rconst .. => none
  | .node op _ _ subExpr =>
      match subExpr with
      | [expr0, expr1] =>
          (intValue pos expr0).bind fun v1 => (intValue pos expr1).bind fun v2 => intOp2 op v1 v2
      | _ => none

/-- Integer objects with cells of four bytes, integer constants, and the four operators. -/
inductive IsInt : DsDataExpr ObjData → Prop
  | obj (size : UInt64) (od : ObjData) (helem : od.objDesc.size = 4) : IsInt (.obj .int size od)
  | iconst (size : UInt64) (ival : Int64) : IsInt (.iconst .int size ival)
  | node {op : DsOp} (hop : op.isBinary = true) (hpow : op ≠ .pow) (size : UInt64)
      {expr0 expr1 : DsDataExpr ObjData} (h0 : IsInt expr0) (h1 : IsInt expr1) :
      IsInt (.node op .int size [expr0, expr1])

theorem IsInt.type {expr : DsDataExpr ObjData} (h : expr.IsInt) : expr.type = .int := by
  cases h <;> rfl

/-- Some leaf is an object. -/
def hasObj : DsDataExpr ObjData → Bool
  | .obj .. => true
  | .iconst .. | .rconst .. => false
  | .node _ _ _ subExpr =>
      match subExpr with
      | [expr0, expr1] => hasObj expr0 || hasObj expr1
      | _ => false

end DsDataExpr

/-- The constructors build such expressions of integer objects, constants and the four operators. -/
def OpTerm.IsInt : OpTerm → Prop
  | .obj _ _ type _ _ _ => type = .int
  | .iconst _ => True
  | .oneArg _ _ => False
  | .twoArg op expr1 expr2 => op ≠ .pow ∧ expr1.IsInt ∧ expr2.IsInt

theorem isInt_of_build {unset : ObjData} {getGdim : CStr → GlobalDimension} (t : OpTerm) :
    ∀ expr, t.build (newOpObj unset) getGdim = some expr → t.IsInt → expr.IsInt := by
  induction t with
  | obj varName ver type ndim lb ub =>
      rintro expr hbuild rfl
      rw [OpTerm.build, dspacesOpNewObj] at hbuild
      rcases Option.bind_eq_some_iff.1 hbuild with ⟨elem, helem, hbuild⟩
      simp only at hbuild
      split at hbuild
      · cases hbuild
        cases helem
        exact .obj _ _ rfl
      · cases hbuild
  | iconst val =>
      intro expr hbuild _
      cases hbuild
      exact .iconst 4 val
  | oneArg => exact fun _ _ h => h.elim
  | twoArg op expr1 expr2 ih1 ih2 =>
      rintro expr hbuild ⟨hpow, hint1, hint2⟩
      rcases Option.bind_eq_some_iff.1 hbuild with ⟨e1, he1, hbuild⟩
      rcases Option.bind_eq_some_iff.1 hbuild with ⟨e2, he2, hbuild⟩
      have h1 := ih1 e1 he1 hint1
      have h2 := ih2 e2 he2 hint2
      rw [dspacesOpNew2arg] at hbuild
      split at hbuild
      case isFalse => cases hbuild
      case isTrue hop =>
        rw [h1.type, h2.type] at hbuild
        cases hbuild
        exact .node hop hpow _ h1 h2

/-! ## The evaluator -/

/-- The cell of an object at a position. -/
def cellBytes (pos : Nat) (_ : ObjData) (k : Nat) : Bool :=
  decide (4 * pos ≤ k ∧ k < 4 * pos + 4)

/-- The evaluator returns the value, without an error, and reads nothing but the cells at the position. -/
def Pointwise (dbl : Doubles) (pos : Nat) (expr : DsDataExpr ObjData) (v : Int) : Prop :=
  ∃ ival, dsOpCalcIval dbl (cellBytes pos) pos expr = .ofValue ival ∧ ival.toInt = v

/-- Eight bytes are no cell. -/
theorem readDouble_cellBytes (pos : Nat) (od : ObjData) : readDouble (cellBytes pos) pos od = none := by
  rw [readDouble, if_neg]
  intro hall
  have hlast := List.all_eq_true.1 hall 7 (by decide)
  simp only [cellBytes, decide_eq_true_eq] at hlast
  have hfirst := List.all_eq_true.1 hall 0 (by decide)
  simp only [cellBytes, decide_eq_true_eq] at hfirst
  omega

theorem toInt_of_inLong {a : Int64} {v w : Int} (hin : inLong v = some w) (ha : a.toInt = v.bmod (2 ^ 64)) :
    a.toInt = w := by
  rw [inLong] at hin
  split at hin
  next hrange =>
    cases hin
    rw [ha]
    exact Int.bmod_eq_of_le (by omega) (by omega)
  next => cases hin

/-- The operators on `long` are those on integers. -/
theorem longOp2_eq (dbl : Doubles) {op : DsOp} {a b : Int64} {v : Int}
    (hv : intOp2 op a.toInt b.toInt = some v) : ∃ c, longOp2 dbl op a b = .ofValue c ∧ c.toInt = v := by
  cases op with
  | add => exact ⟨a + b, rfl, toInt_of_inLong hv (Int64.toInt_add a b)⟩
  | sub => exact ⟨a - b, rfl, toInt_of_inLong hv (Int64.toInt_sub a b)⟩
  | mult => exact ⟨a * b, rfl, toInt_of_inLong hv (Int64.toInt_mul a b)⟩
  | div =>
      rw [intOp2] at hv
      split at hv
      case isTrue => cases hv
      case isFalse hzero =>
        refine ⟨a / b, ?_, toInt_of_inLong hv (Int64.toInt_div a b)⟩
        rw [longOp2, if_neg]
        rintro (rfl | ⟨rfl, rfl⟩)
        · exact hzero rfl
        · have hover : inLong (Int64.minValue.toInt.tdiv (-1 : Int64).toInt) = none := by
            decide
          rw [hover] at hv
          cases hv
  | obj | iconst | rconst | pow | arctan | other => cases hv

variable {dbl : Doubles} {pos : Nat}

/-- Without objects, the evaluator computes the value. -/
theorem pointwise_of_no_obj {expr : DsDataExpr ObjData} (hint : expr.IsInt) :
    ∀ v, expr.intValue pos = some v → expr.hasObj = false → Pointwise dbl pos expr v := by
  induction hint with
  | obj =>
      intro v _ hobj
      cases hobj
  | iconst size ival =>
      intro v hv _
      exact ⟨ival, rfl, Option.some.inj hv⟩
  | node hop hpow size h0 h1 ih0 ih1 =>
      intro v hv hobj
      rcases Option.bind_eq_some_iff.1 hv with ⟨v1, hv1, hv⟩
      rcases Option.bind_eq_some_iff.1 hv with ⟨v2, hv2, hv⟩
      rcases Bool.or_eq_false_iff.1 hobj with ⟨hobj1, hobj2⟩
      rcases ih0 v1 hv1 hobj1 with ⟨a, ha, rfl⟩
      rcases ih1 v2 hv2 hobj2 with ⟨b, hb, rfl⟩
      rcases longOp2_eq dbl hv with ⟨c, hc, hvalue⟩
      refine ⟨c, ?_, hvalue⟩
      rw [calcIval_binary dbl _ pos hop, h0.type, h1.type, Outcome.operand, Outcome.operand, ha, hb]
      -- both operands have a value
      rw [Outcome.ofValue_andThen, Outcome.ofValue_andThen, hc]

/-- With an object, the evaluator reads past its cell. -/
theorem calcIval_none_of_obj {expr : DsDataExpr ObjData} (hint : expr.IsInt) :
    ∀ v, expr.intValue pos = some v → expr.hasObj = true →
      dsOpCalcIval dbl (cellBytes pos) pos expr = none := by
  induction hint with
  | obj size od =>
      intro v _ _
      rw [dsOpCalcIval, readDouble_cellBytes]
      rfl
  | iconst =>
      intro v _ hobj
      cases hobj
  | @node op hop hpow size expr0 expr1 h0 h1 ih0 ih1 =>
      intro v hv hobj
      rcases Option.bind_eq_some_iff.1 hv with ⟨v1, hv1, hv⟩
      rcases Option.bind_eq_some_iff.1 hv with ⟨v2, hv2, hv⟩
      rw [calcIval_binary dbl _ pos hop, h0.type, h1.type, Outcome.operand, Outcome.operand]
      cases hobj0 : expr0.hasObj with
      | true =>
          rw [ih0 v1 hv1 hobj0]
          rfl
      | false =>
          -- the left operand has a value, so the right one is computed
          have hleft : Pointwise dbl pos expr0 v1 := pointwise_of_no_obj h0 v1 hv1 hobj0
          rcases hleft with ⟨a, ha, -⟩
          have hobj1 : expr1.hasObj = true := by
            simpa [DsDataExpr.hasObj, hobj0] using hobj
          rw [ha, Outcome.ofValue_andThen, ih1 v2 hv2 hobj1]
          rfl

/-- Where an integer expression has a value, the evaluator computes it from the cells at the position
exactly when there is no object in the expression. -/
theorem pointwise_iff {dbl : Doubles} {pos : Nat} {expr : DsDataExpr ObjData} (hint : expr.IsInt) {v : Int}
    (hv : expr.intValue pos = some v) : Pointwise dbl pos expr v ↔ expr.hasObj = false := by
  constructor
  · rintro ⟨ival, hival, -⟩
    by_contra hobj
    rw [calcIval_none_of_obj hint v hv (by simpa using hobj)] at hival
    cases hival
  · exact pointwise_of_no_obj hint v hv

/-- `-7 / 2 + 10`. -/
def constExpr : DsDataExpr ObjData :=
  .node .add .int 4 [.node .div .int 4 [.iconst .int 4 (-7), .iconst .int 4 2], .iconst .int 4 10]

theorem pointwise_iff_const : constExpr.intValue 5 = some 7 ∧ ∀ dbl, Pointwise dbl 5 constExpr 7 := by
  have hint : constExpr.IsInt :=
    .node rfl (by decide) 4 (.node rfl (by decide) 4 (.iconst 4 _) (.iconst 4 _)) (.iconst 4 _)
  have hv : constExpr.intValue 5 = some 7 := by
    decide
  exact ⟨hv, fun dbl => (pointwise_iff hint hv).2 rfl⟩

/-- Four cells with the integers `1`, `2`, `3` and `4`. -/
def fourInts : ObjData where
  objDesc := ⟨[97], .rowMajor, 0, 0, 0, .none, 0, BBox.line 0 3, 4⟩
  gdim := ⟨1, Coord.ofFn fun _ => 4⟩
  data k := if k % 4 = 0 then UInt8.ofNat (k / 4 + 1) else 0

/-- The value of the first cell is computed from the first two, and that of the third and the fourth from
memory behind the buffer. -/
theorem not_pointwise_fourInts :
    ∃ expr : DsDataExpr ObjData, expr = .obj .int 16 fourInts ∧ expr.IsInt ∧ expr.intValue 0 = some 1 ∧
      ∀ dbl, ¬ Pointwise dbl 0 expr 1 ∧
        dsOpCalcIval dbl (fun _ k => decide (k < 16)) 0 expr = .ofValue (dbl.toLong 0x200000001) ∧
        dsOpCalcIval dbl (fun _ k => decide (k < 16)) 2 expr = none := by
  refine ⟨_, rfl, .obj 16 fourInts rfl, by decide, fun dbl => ⟨?_, ?_, ?_⟩⟩
  · rintro ⟨ival, hival, -⟩
    rw [dsOpCalcIval, readDouble_cellBytes] at hival
    cases hival
  · have hread : readDouble (fun _ k => decide (k < 16)) 0 fourInts = some 0x200000001 := by
      decide
    rw [dsOpCalcIval, hread]
    rfl
  · have hread : readDouble (fun _ k => decide (k < 16)) 2 fourInts = none := by
      decide
    rw [dsOpCalcIval, hread]
    rfl

end DataSpaces
