import DataSpaces.Eval
import DataSpaces.Fetch

/-!
# EvalErrors — errors while a result is computed (`ds_op_calc_ival`, `do_ops_rpc`)

The evaluators pass the error of an operand on, so that an error anywhere is an error at the root.
`do_ops_rpc` computes the positions of the result one after the other into one error variable, which it
does not read: it answers `dspaces_SUCCESS` when the transfer of the result is one.  And not every failure is an error to
the evaluators: they divide without looking at the divisor, and read an object where its buffer may have
ended.

So failures are reported only when there are none, which is when the expression is sound (`Sound`) at each
position.
-/

namespace DataSpaces

/-! ## The server -/

/-- What is answered. -/
inductive OpsRet
  | success
  | errMercury
  deriving DecidableEq

/-- The result in its buffer. -/
inductive OpsBuffer
  | ints (buffer : List Int32)
  | reals (buffer : List Int64)

/-- The loop of `do_ops_rpc` after a number of turns: the values, and the error of the last of them. -/
def opsLoop (compute : Nat → Outcome) : Nat → Option (List Int64 × Option Int32)
  | 0 => some ([], none)
  | i + 1 => do
      let (buffer, _) ← opsLoop compute i
      let (value, err) ← compute i
      return (buffer ++ [value], some err)

/-- The bytes of the buffer that `obj_data_alloc` makes. -/
def inBuffer (od : ObjData) (k : Nat) : Bool :=
  decide (k < (objDataSize od.objDesc).toNat)

/-- `do_ops_rpc`, once the data of the objects is there: its answers, and the result.  `create` and
`transfer` say whether `margo_bulk_create` and `margo_bulk_transfer` succeed. -/
def doOpsRpc (dbl : Doubles) (expr : DsDataExpr ObjData) (create transfer : Bool) :
    Option (List OpsRet × Option OpsBuffer) :=
  let resBufSize := expr.size.toNat
  -- a failure is answered, and the handler goes on and answers again
  let answers := (if create then [] else [OpsRet.errMercury]) ++
    [if transfer then OpsRet.success else OpsRet.errMercury]
  match expr.type with
  | .int => do
      let (buffer, _) ← opsLoop (fun i => dsOpCalcIval dbl inBuffer i expr) (resBufSize / 4)
      return (answers, some (.ints (buffer.map Int64.toInt32)))
  | .real => do
      let (buffer, _) ← opsLoop (fun i => dsOpCalcRval dbl inBuffer i expr) (resBufSize / 8)
      return (answers, some (.reals buffer))
  | .other _ => some ([], none)

/-- The loop ends when each turn does. -/
theorem opsLoop_isSome_iff {compute : Nat → Outcome} (n : Nat) :
    (opsLoop compute n).isSome = true ↔ ∀ i < n, (compute i).isSome = true := by
  induction n with
  | zero => simp [opsLoop]
  | succ n ih =>
      rw [opsLoop, Nat.forall_lt_succ_right, ← ih]
      cases opsLoop compute n with
      | none => simp
      | some r => cases compute n <;> simp

/-! ## Errors of operands -/

namespace Outcome

/-- There is an error, through `*res`. -/
def IsError (x : Outcome) : Prop :=
  ∃ v err, x = some (v, err) ∧ err < 0

theorem isError_error : error.IsError :=
  ⟨0, -1, rfl, by decide⟩

theorem not_isError_ofValue (v : Int64) : ¬ (ofValue v).IsError := by
  rintro ⟨v', err, heq, hneg⟩
  cases heq
  exact absurd hneg (by decide)

theorem IsError.andThen {x : Outcome} (h : x.IsError) (f : Int64 → Outcome) : (x.andThen f).IsError := by
  rcases h with ⟨v, err, rfl, hneg⟩
  exact ⟨0, err, if_pos hneg, hneg⟩

theorem IsError.conv {x : Outcome} (h : x.IsError) (f : Int64 → Int64) : (x.conv f).IsError := by
  rcases h with ⟨v, err, rfl, hneg⟩
  exact ⟨f v, err, rfl, hneg⟩

theorem andThen_of_not_neg {v : Int64} {err : Int32} (h : ¬ err < 0) (f : Int64 → Outcome) :
    andThen (some (v, err)) f = f v :=
  if_neg h

end Outcome

section Errors

variable (dbl : Doubles) (readable : ObjData → Nat → Bool) (pos : Nat)

/-- An expression through the evaluator of its type. -/
def calcVal (expr : DsDataExpr ObjData) : Outcome :=
  .operand expr.type (dsOpCalcRval dbl readable pos expr) (dsOpCalcIval dbl readable pos expr)

/-- The conversion to a type from another one. -/
def Doubles.convert (dbl : Doubles) (toType fromType : DsVal) (v : Int64) : Int64 :=
  match toType, fromType with
  | .real, .int => dbl.ofLong v
  | .int, .real => dbl.toLong v
  | _, _ => v

/-- The operators of two arguments in both evaluators. -/
def valOp2 (dbl : Doubles) (type : DsVal) (op : DsOp) (subval1 subval2 : Int64) : Outcome :=
  if type = .real then dbl.op2 op subval1 subval2 else longOp2 dbl op subval1 subval2

theorem realOperand_eq (expr : DsDataExpr ObjData) :
    Outcome.operand expr.type (dsOpCalcRval dbl readable pos expr)
      ((dsOpCalcIval dbl readable pos expr).conv dbl.ofLong) =
        (calcVal dbl readable pos expr).conv (dbl.convert .real expr.type) := by
  rw [calcVal]
  cases expr.type with
  | int => rfl
  | real => cases hr : dsOpCalcRval dbl readable pos expr <;> rfl
  | other => rfl

theorem intOperand_eq (expr : DsDataExpr ObjData) :
    Outcome.operand expr.type ((dsOpCalcRval dbl readable pos expr).conv dbl.toLong)
      (dsOpCalcIval dbl readable pos expr) =
        (calcVal dbl readable pos expr).conv (dbl.convert .int expr.type) := by
  rw [calcVal]
  cases expr.type with
  | int => cases hi : dsOpCalcIval dbl readable pos expr <;> rfl
  | real => rfl
  | other => rfl

/-- Either evaluator computes one operand, then the other, then the value. -/
theorem calcVal_binary {op : DsOp} (hop : op.isBinary = true) {type : DsVal}
    (htype : type = .int ∨ type = .real) (size : UInt64) (expr0 expr1 : DsDataExpr ObjData)
    (rest : List (DsDataExpr ObjData)) :
    calcVal dbl readable pos (.node op type size (expr0 :: expr1 :: rest)) =
      ((calcVal dbl readable pos expr0).conv (dbl.convert type expr0.type)).andThen fun subval1 =>
        ((calcVal dbl readable pos expr1).conv (dbl.convert type expr1.type)).andThen fun subval2 =>
          valOp2 dbl type op subval1 subval2 := by
  rcases htype with rfl | rfl
  · rw [← intOperand_eq, ← intOperand_eq]
    exact calcIval_binary dbl readable pos hop size expr0 expr1 rest
  · rw [← realOperand_eq, ← realOperand_eq]
    exact calcRval_binary dbl readable pos hop size expr0 expr1 rest

/-- The right operand is not there. -/
theorem calcVal_single {op : DsOp} (hop : op.isBinary = true) {type : DsVal}
    (htype : type = .int ∨ type = .real) (size : UInt64) (expr0 : DsDataExpr ObjData) :
    calcVal dbl readable pos (.node op type size [expr0]) =
      ((calcVal dbl readable pos expr0).conv (dbl.convert type expr0.type)).andThen fun _ => none := by
  rcases htype with rfl | rfl
  · rw [← intOperand_eq]
    cases op with
    | add | sub | mult | div | pow => rfl
    | obj | iconst | rconst | arctan | other => cases hop
  · rw [← realOperand_eq]
    cases op with
    | add | sub | mult | div | pow => rfl
    | obj | iconst | rconst | arctan | other => cases hop

theorem calcVal_arctan (size : UInt64) (expr0 : DsDataExpr ObjData) (rest : List (DsDataExpr ObjData)) :
    calcVal dbl readable pos (.node .arctan .real size (expr0 :: rest)) =
      ((calcVal dbl readable pos expr0).conv (dbl.convert .real expr0.type)).andThen fun subval1 =>
        .ofValue (dbl.atan subval1) := by
  rw [← realOperand_eq]
  rfl

/-- The subexpressions that are evaluated for the value of an expression: the right operand only after the
left one without an error. -/
inductive Evaluated : DsDataExpr ObjData → DsDataExpr ObjData → Prop
  | self (expr : DsDataExpr ObjData) : Evaluated expr expr
  | left {op : DsOp} {type : DsVal} {size : UInt64} {expr0 sub : DsDataExpr ObjData}
      {rest : List (DsDataExpr ObjData)} (hop : op.isBinary = true) (htype : type = .int ∨ type = .real)
      (hsub : Evaluated sub expr0) : Evaluated sub (.node op type size (expr0 :: rest))
  | right {op : DsOp} {type : DsVal} {size : UInt64} {expr0 expr1 sub : DsDataExpr ObjData}
      {rest : List (DsDataExpr ObjData)} (hop : op.isBinary = true) (htype : type = .int ∨ type = .real)
      (hleft : ∃ v err, calcVal dbl readable pos expr0 = some (v, err) ∧ ¬ err < 0)
      (hsub : Evaluated sub expr1) : Evaluated sub (.node op type size (expr0 :: expr1 :: rest))
  | arctan {size : UInt64} {expr0 sub : DsDataExpr ObjData} {rest : List (DsDataExpr ObjData)}
      (hsub : Evaluated sub expr0) : Evaluated sub (.node .arctan .real size (expr0 :: rest))

/-- An error of a subexpression that is evaluated is an error of the expression. -/
theorem Evaluated.isError {sub expr : DsDataExpr ObjData} (h : Evaluated dbl readable pos sub expr)
    (herr : (calcVal dbl readable pos sub).IsError) : (calcVal dbl readable pos expr).IsError := by
  induction h with
  | self => exact herr
  | @left op type size expr0 sub rest hop htype hsub ih =>
      cases rest with
      | nil =>
          rw [calcVal_single dbl readable pos hop htype]
          exact ((ih herr).conv _).andThen _
      | cons expr1 rest =>
          rw [calcVal_binary dbl readable pos hop htype]
          exact ((ih herr).conv _).andThen _
  | @right op type size expr0 expr1 sub rest hop htype hleft hsub ih =>
      rcases hleft with ⟨v, err, hleft, hneg⟩
      rw [calcVal_binary dbl readable pos hop htype, hleft, Outcome.conv, Option.map_some,
        Outcome.andThen_of_not_neg hneg]
      exact ((ih herr).conv _).andThen _
  | arctan hsub ih =>
      rw [calcVal_arctan]
      exact ((ih herr).conv _).andThen _

end Errors

/-! ## Sound expressions -/

section Sound

variable (dbl : Doubles) (pos : Nat)

/-- The value of the operators of two arguments. -/
def Doubles.apply2 (dbl : Doubles) (type : DsVal) (op : DsOp) (a b : Int64) : Int64 :=
  match type, op with
  | .real, .add => dbl.add a b
  | .real, .sub => dbl.sub a b
  | .real, .mult => dbl.mul a b
  | .real, .div => dbl.div a b
  | .real, .pow => dbl.pow a b
  | _, .add => a + b
  | _, .sub => a - b
  | _, .mult => a * b
  | _, .div => a / b
  -- a power of integers is computed with doubles
  | _, .pow => dbl.toLong (dbl.pow (dbl.ofLong a) (dbl.ofLong b))
  | _, _ => 0

/-- What an expression stands for at a position, with an object read as a `double`. -/
def DsDataExpr.value : DsDataExpr ObjData → Int64
  | .obj type _ od => dbl.convert type .real (loadDouble od.data pos)
  | .iconst _ _ ival => ival
  | .rconst _ _ rval => rval
  | .node op type _ subExpr =>
      match op, subExpr with
      | .arctan, expr0 :: _ => dbl.atan (dbl.convert .real expr0.type expr0.value)
      | op, expr0 :: expr1 :: _ =>
          dbl.apply2 type op (dbl.convert type expr0.type expr0.value)
            (dbl.convert type expr1.type expr1.value)
      | _, _ => 0

/-- A division that a machine does. -/
def DivOk (a b : Int64) : Prop :=
  b ≠ 0 ∧ ¬ (a = Int64.minValue ∧ b = -1)

/-- Every operator has its operands and goes with its type, every object has eight bytes at the position,
and every division of integers can be done. -/
def DsDataExpr.Sound : DsDataExpr ObjData → Prop
  | .obj type _ od => (type = .int ∨ type = .real) ∧ 8 * pos + 8 ≤ (objDataSize od.objDesc).toNat
  | .iconst type _ _ => type = .int
  | .rconst type _ _ => type = .real
  | .node op type _ subExpr =>
      match op, subExpr with
      | .arctan, expr0 :: _ => type = .real ∧ expr0.Sound
      | op, expr0 :: expr1 :: _ =>
          op.isBinary = true ∧ (type = .int ∨ type = .real) ∧ expr0.Sound ∧ expr1.Sound ∧
            (type = .int → op = .div →
              DivOk (dbl.convert type expr0.type (expr0.value dbl pos))
                (dbl.convert type expr1.type (expr1.value dbl pos)))
      | _, _ => False

/-- What an outcome is for a value that is there or not. -/
def Outcome.Spec (x : Outcome) (sound : Prop) (v : Int64) : Prop :=
  (sound → x = .ofValue v) ∧ (¬ sound → x = none ∨ x.IsError)

theorem Outcome.Spec.conv {x : Outcome} {sound : Prop} {v : Int64} (h : x.Spec sound v)
    (f : Int64 → Int64) : (x.conv f).Spec sound (f v) := by
  constructor
  · intro hsound
    rw [h.1 hsound, conv_ofValue]
  · intro hsound
    rcases h.2 hsound with rfl | herr
    · exact .inl rfl
    · exact .inr (herr.conv f)

/-- Two steps are sound when both are. -/
theorem Outcome.Spec.andThen {x : Outcome} {sound sound' : Prop} {v v' : Int64} {f : Int64 → Outcome}
    (h : x.Spec sound v) (hf : (f v).Spec sound' v') : (x.andThen f).Spec (sound ∧ sound') v' := by
  constructor
  · rintro ⟨hsound, hsound'⟩
    rw [h.1 hsound, ofValue_andThen]
    exact hf.1 hsound'
  · intro hnot
    by_cases hsound : sound
    · rw [h.1 hsound, ofValue_andThen]
      exact hf.2 fun hsound' => hnot ⟨hsound, hsound'⟩
    · rcases h.2 hsound with rfl | herr
      · exact .inl rfl
      · exact .inr (herr.andThen f)

theorem readDouble_inBuffer (od : ObjData) :
    readDouble inBuffer pos od =
      if 8 * pos + 8 ≤ (objDataSize od.objDesc).toNat then some (loadDouble od.data pos) else none := by
  have hiff : ((List.range 8).all fun k => inBuffer od (8 * pos + k)) = true ↔
      8 * pos + 8 ≤ (objDataSize od.objDesc).toNat := by
    rw [List.all_eq_true]
    constructor
    · intro h
      have hlast := of_decide_eq_true (h 7 (by decide))
      omega
    · intro h k hk
      have hk := List.mem_range.1 hk
      exact decide_eq_true (by omega)
  rw [readDouble]
  exact if_congr hiff rfl rfl

theorem Outcome.spec_ofValue {sound : Prop} (h : sound) (v : Int64) : (ofValue v).Spec sound v :=
  ⟨fun _ => rfl, fun hnot => absurd h hnot⟩

theorem Outcome.spec_none {sound : Prop} (h : ¬ sound) (v : Int64) : Outcome.Spec none sound v :=
  ⟨fun hsound => absurd hsound h, fun _ => .inl rfl⟩

theorem Outcome.spec_error {sound : Prop} (h : ¬ sound) (v : Int64) : error.Spec sound v :=
  ⟨fun hsound => absurd hsound h, fun _ => .inr isError_error⟩

theorem longDiv_spec (a b : Int64) : (longOp2 dbl .div a b).Spec (DivOk a b) (a / b) := by
  rw [longOp2]
  split
  case isTrue hbad =>
    refine Outcome.spec_none ?_ _
    rintro ⟨hzero, hover⟩
    exact hbad.elim hzero hover
  case isFalse hgood =>
    rcases not_or.1 hgood with ⟨hzero, hover⟩
    exact Outcome.spec_ofValue ⟨hzero, hover⟩ _

/-- Only the division of integers can fail. -/
theorem valOp2_spec {type : DsVal} (htype : type = .int ∨ type = .real) {op : DsOp}
    (hop : op.isBinary = true) (a b : Int64) :
    (valOp2 dbl type op a b).Spec (type = .int → op = .div → DivOk a b) (dbl.apply2 type op a b) := by
  rcases htype with rfl | rfl
  · cases op with
    | div =>
        have hdiv : (DsVal.int = .int → DsOp.div = .div → DivOk a b) ↔ DivOk a b := by
          simp
        rw [hdiv]
        exact longDiv_spec dbl a b
    | add | sub | mult | pow => exact Outcome.spec_ofValue (fun _ h => by cases h) _
    | obj | iconst | rconst | arctan | other => cases hop
  · cases op with
    | add | sub | mult | div | pow => exact Outcome.spec_ofValue (fun h => by cases h) _
    | obj | iconst | rconst | arctan | other => cases hop

/-! ### Every node -/

/-- The evaluator of its type computes the value of an expression if it is sound, and otherwise reports an
error or does not return. -/
def Computed (expr : DsDataExpr ObjData) : Prop :=
  (calcVal dbl inBuffer pos expr).Spec (expr.Sound dbl pos) (expr.value dbl pos)

theorem computed_obj (type : DsVal) (size : UInt64) (od : ObjData) :
    Computed dbl pos (.obj type size od) := by
  have hread := readDouble_inBuffer pos od
  cases type with
  | int =>
      change Outcome.Spec ((readDouble inBuffer pos od).bind _) _ _
      rw [hread]
      split
      case isTrue hin => exact Outcome.spec_ofValue ⟨.inl rfl, hin⟩ _
      case isFalse hout => exact Outcome.spec_none (fun h => hout h.2) _
  | real =>
      change Outcome.Spec ((readDouble inBuffer pos od).bind _) _ _
      rw [hread]
      split
      case isTrue hin => exact Outcome.spec_ofValue ⟨.inr rfl, hin⟩ _
      case isFalse hout => exact Outcome.spec_none (fun h => hout h.2) _
  | other byte => exact Outcome.spec_none (fun h => by simp [DsDataExpr.Sound] at h) _

theorem computed_iconst (type : DsVal) (size : UInt64) (ival : Int64) :
    Computed dbl pos (.iconst type size ival) := by
  cases type with
  | int => exact Outcome.spec_ofValue rfl _
  | real => exact Outcome.spec_error (fun h => by cases h) _
  | other byte => exact Outcome.spec_none (fun h => by cases h) _

theorem computed_rconst (type : DsVal) (size : UInt64) (rval : Int64) :
    Computed dbl pos (.rconst type size rval) := by
  cases type with
  | int => exact Outcome.spec_error (fun h => by cases h) _
  | real => exact Outcome.spec_ofValue rfl _
  | other byte => exact Outcome.spec_none (fun h => by cases h) _

theorem sound_binary {op : DsOp} (hop : op.isBinary = true) {type : DsVal} {size : UInt64}
    {expr0 expr1 : DsDataExpr ObjData} {rest : List (DsDataExpr ObjData)} :
    (DsDataExpr.node op type size (expr0 :: expr1 :: rest)).Sound dbl pos ↔
      (type = .int ∨ type = .real) ∧ expr0.Sound dbl pos ∧ expr1.Sound dbl pos ∧
        (type = .int → op = .div →
          DivOk (dbl.convert type expr0.type (expr0.value dbl pos))
            (dbl.convert type expr1.type (expr1.value dbl pos))) := by
  cases op with
  | add | sub | mult | div | pow => simp [DsDataExpr.Sound, DsOp.isBinary]
  | obj | iconst | rconst | arctan | other => cases hop

theorem value_binary {op : DsOp} (hop : op.isBinary = true) {type : DsVal} {size : UInt64}
    {expr0 expr1 : DsDataExpr ObjData} {rest : List (DsDataExpr ObjData)} :
    (DsDataExpr.node op type size (expr0 :: expr1 :: rest)).value dbl pos =
      dbl.apply2 type op (dbl.convert type expr0.type (expr0.value dbl pos))
        (dbl.convert type expr1.type (expr1.value dbl pos)) := by
  cases op with
  | add | sub | mult | div | pow => rfl
  | obj | iconst | rconst | arctan | other => cases hop

theorem computed_binary {op : DsOp} (hop : op.isBinary = true) {type : DsVal}
    (htype : type = .int ∨ type = .real) (size : UInt64) {expr0 expr1 : DsDataExpr ObjData}
    (rest : List (DsDataExpr ObjData)) (h0 : Computed dbl pos expr0) (h1 : Computed dbl pos expr1) :
    Computed dbl pos (.node op type size (expr0 :: expr1 :: rest)) := by
  rw [Computed, calcVal_binary dbl inBuffer pos hop htype, sound_binary dbl pos hop, value_binary dbl pos hop,
    and_iff_right htype]
  exact (h0.conv _).andThen ((h1.conv _).andThen (valOp2_spec dbl htype hop _ _))

/-- Without a right operand, the left one is computed and then there is no value. -/
theorem computed_single {op : DsOp} (hop : op.isBinary = true) {type : DsVal}
    (htype : type = .int ∨ type = .real) (size : UInt64) {expr0 : DsDataExpr ObjData}
    (h0 : Computed dbl pos expr0) : Computed dbl pos (.node op type size [expr0]) := by
  have hsound : (DsDataExpr.node op type size [expr0]).Sound dbl pos ↔ expr0.Sound dbl pos ∧ False := by
    cases op with
    | add | sub | mult | div | pow => simp [DsDataExpr.Sound]
    | obj | iconst | rconst | arctan | other => cases hop
  rw [Computed, calcVal_single dbl inBuffer pos hop htype, hsound]
  exact (h0.conv _).andThen (Outcome.spec_none (fun h => h) _)

theorem computed_nil {op : DsOp} (hop : op.isBinary = true) {type : DsVal}
    (htype : type = .int ∨ type = .real) (size : UInt64) :
    Computed dbl pos (.node op type size []) := by
  rcases htype with rfl | rfl
  · cases op with
    | add | sub | mult | div | pow => exact Outcome.spec_none (fun h => h) _
    | obj | iconst | rconst | arctan | other => cases hop
  · cases op with
    | add | sub | mult | div | pow => exact Outcome.spec_none (fun h => h) _
    | obj | iconst | rconst | arctan | other => cases hop

theorem not_sound_of_not_binary {op : DsOp} (hop : op.isBinary = false) (hatan : op ≠ .arctan)
    (type : DsVal) (size : UInt64) (subExpr : List (DsDataExpr ObjData)) :
    ¬ (DsDataExpr.node op type size subExpr).Sound dbl pos := by
  rcases subExpr with _ | ⟨expr0, _ | ⟨expr1, rest⟩⟩ <;> cases op <;>
    simp_all [DsDataExpr.Sound, DsOp.isBinary]

theorem computed_arctan {type : DsVal} (htype : type = .int ∨ type = .real) (size : UInt64)
    (subExpr : List (DsDataExpr ObjData)) (ih : ∀ expr ∈ subExpr, Computed dbl pos expr) :
    Computed dbl pos (.node .arctan type size subExpr) := by
  rcases htype with rfl | rfl
  · exact Outcome.spec_error (fun h => by cases subExpr <;> simp [DsDataExpr.Sound] at h) _
  · cases subExpr with
    | nil => exact Outcome.spec_none (fun h => h) _
    | cons expr0 rest =>
        have h0 := ih expr0 (by simp)
        have hsound : (DsDataExpr.node .arctan .real size (expr0 :: rest)).Sound dbl pos ↔
            expr0.Sound dbl pos ∧ True := by
          simp [DsDataExpr.Sound]
        rw [Computed, calcVal_arctan, hsound]
        exact (h0.conv _).andThen (Outcome.spec_ofValue trivial _)

theorem computed_node (op : DsOp) {type : DsVal} (htype : type = .int ∨ type = .real) (size : UInt64)
    (subExpr : List (DsDataExpr ObjData)) (ih : ∀ expr ∈ subExpr, Computed dbl pos expr) :
    Computed dbl pos (.node op type size subExpr) := by
  cases hop : op.isBinary with
  | true =>
      rcases subExpr with _ | ⟨expr0, _ | ⟨expr1, rest⟩⟩
      · exact computed_nil dbl pos hop htype size
      · exact computed_single dbl pos hop htype size (ih expr0 (by simp))
      · exact computed_binary dbl pos hop htype size rest (ih expr0 (by simp)) (ih expr1 (by simp))
  | false =>
      by_cases hatan : op = .arctan
      · rw [hatan]
        exact computed_arctan dbl pos htype size subExpr ih
      · have hnot := not_sound_of_not_binary dbl pos hop hatan type size subExpr
        rcases htype with rfl | rfl
        · cases op with
          | obj | iconst => exact Outcome.spec_none hnot _
          | rconst | other => exact Outcome.spec_error hnot _
          | add | sub | mult | div | pow => cases hop
          | arctan => exact absurd rfl hatan
        · cases op with
          | obj | rconst => exact Outcome.spec_none hnot _
          | iconst | other => exact Outcome.spec_error hnot _
          | add | sub | mult | div | pow => cases hop
          | arctan => exact absurd rfl hatan

theorem not_sound_of_type (op : DsOp) {type : DsVal} (htype : ¬ (type = .int ∨ type = .real))
    (size : UInt64) (subExpr : List (DsDataExpr ObjData)) :
    ¬ (DsDataExpr.node op type size subExpr).Sound dbl pos := by
  rcases subExpr with _ | ⟨expr0, _ | ⟨expr1, rest⟩⟩ <;> cases op <;> simp_all [DsDataExpr.Sound]

theorem calcVal_spec (expr : DsDataExpr ObjData) : Computed dbl pos expr := by
  induction expr using DsDataExpr.induction with
  | obj type size od => exact computed_obj dbl pos type size od
  | iconst type size ival => exact computed_iconst dbl pos type size ival
  | rconst type size rval => exact computed_rconst dbl pos type size rval
  | node op type size subExpr ih =>
      by_cases htype : type = .int ∨ type = .real
      · exact computed_node dbl pos op htype size subExpr ih
      · have hnot := not_sound_of_type dbl pos op htype size subExpr
        cases type with
        | int => exact absurd (.inl rfl) htype
        | real => exact absurd (.inr rfl) htype
        | other byte => exact Outcome.spec_none hnot _

end Sound

/-! ## What is reported -/

/-- At every position of the result, the evaluator of an integer expression returns; an error of a
subexpression that it evaluates is an error of the expression; and then `do_ops_rpc` does not answer
`dspaces_SUCCESS`. -/
def ErrorsReported (dbl : Doubles) (expr : DsDataExpr ObjData) : Prop :=
  (∀ pos < expr.size.toNat / 4, ∃ v err, dsOpCalcIval dbl inBuffer pos expr = some (v, err) ∧
    (err = 0 ∨ err < 0)) ∧
  (∀ pos sub, Evaluated dbl inBuffer pos sub expr → (calcVal dbl inBuffer pos sub).IsError →
    (dsOpCalcIval dbl inBuffer pos expr).IsError) ∧
  ∀ pos < expr.size.toNat / 4, (dsOpCalcIval dbl inBuffer pos expr).IsError →
    ∀ create transfer answers buffer, doOpsRpc dbl expr create transfer = some (answers, buffer) →
      OpsRet.success ∉ answers

/-- Whatever the errors, the answer is that of the transfer. -/
theorem success_mem_doOpsRpc {dbl : Doubles} {expr : DsDataExpr ObjData} (htype : expr.type = .int)
    (hall : ∀ pos < expr.size.toNat / 4, (dsOpCalcIval dbl inBuffer pos expr).isSome = true) :
    ∃ answers buffer, doOpsRpc dbl expr true true = some (answers, buffer) ∧
      OpsRet.success ∈ answers := by
  rcases Option.isSome_iff_exists.1 ((opsLoop_isSome_iff _).2 hall) with ⟨⟨buffer, err⟩, hloop⟩
  refine ⟨[.success], some (.ints (buffer.map Int64.toInt32)), ?_, by simp⟩
  rw [doOpsRpc, htype]
  simp only [hloop]
  rfl

/-- All failures of an integer expression are reported exactly when it is sound at every position of its
result. -/
theorem errorsReported_iff {dbl : Doubles} {expr : DsDataExpr ObjData} (htype : expr.type = .int) :
    ErrorsReported dbl expr ↔ ∀ pos < expr.size.toNat / 4, expr.Sound dbl pos := by
  have hval : ∀ pos, calcVal dbl inBuffer pos expr = dsOpCalcIval dbl inBuffer pos expr := by
    intro pos
    rw [calcVal, htype]
    rfl
  constructor
  · rintro ⟨hreturns, -, hanswer⟩
    by_contra hnot
    rcases not_forall.1 hnot with ⟨pos, hnot⟩
    rcases Classical.not_imp.1 hnot with ⟨hpos, hsound⟩
    rcases hreturns pos hpos with ⟨v, err, hreturn, -⟩
    rcases (calcVal_spec dbl pos expr).2 hsound with hnone | herror
    · rw [hval, hreturn] at hnone
      cases hnone
    · rw [hval] at herror
      -- the loop goes on after the error
      have hall : ∀ pos < expr.size.toNat / 4, (dsOpCalcIval dbl inBuffer pos expr).isSome = true := by
        intro i hi
        rcases hreturns i hi with ⟨w, err', hi, -⟩
        rw [hi]
        rfl
      rcases success_mem_doOpsRpc htype hall with ⟨answers, buffer, hrpc, hmem⟩
      exact hanswer pos hpos herror true true answers buffer hrpc hmem
  · intro hsound
    have hvalue : ∀ pos < expr.size.toNat / 4,
        dsOpCalcIval dbl inBuffer pos expr = .ofValue (expr.value dbl pos) := by
      intro pos hpos
      rw [← hval]
      exact (calcVal_spec dbl pos expr).1 (hsound pos hpos)
    refine ⟨fun pos hpos => ⟨_, 0, hvalue pos hpos, .inl rfl⟩, fun pos sub hsub herror => ?_, ?_⟩
    · rw [← hval]
      exact hsub.isError dbl inBuffer pos herror
    · intro pos hpos herror
      rw [hvalue pos hpos] at herror
      exact absurd herror (Outcome.not_isError_ofValue _)

/-- `7 / 2` at one position. -/
def divExpr (b : Int64) : DsDataExpr ObjData :=
  .node .div .int 4 [.iconst .int 4 7, .iconst .int 4 b]

theorem errorsReported_iff_div :
    (divExpr 2).type = .int ∧ ∀ dbl, ErrorsReported dbl (divExpr 2) := by
  have hdiv : DivOk 7 2 := ⟨by decide, by decide⟩
  exact ⟨rfl, fun dbl => (errorsReported_iff rfl).2 fun pos _ =>
    ⟨rfl, .inl rfl, rfl, rfl, fun _ _ => hdiv⟩⟩

/-- An operator that has no integer value. -/
def arctanExpr : DsDataExpr ObjData :=
  .node .arctan .int 4 [.iconst .int 4 7]

/-- `7 / 0` ends the server, and an error of the evaluator is answered with `dspaces_SUCCESS`. -/
theorem not_errorsReported_div :
    ((divExpr 0).type = .int ∧
      ∀ dbl, doOpsRpc dbl (divExpr 0) true true = none ∧ ¬ ErrorsReported dbl (divExpr 0)) ∧
    arctanExpr.type = .int ∧
      ∀ dbl, dsOpCalcIval dbl inBuffer 0 arctanExpr = .error ∧
        doOpsRpc dbl arctanExpr true true = some ([.success], some (.ints [0])) ∧
        ¬ ErrorsReported dbl arctanExpr := by
  refine ⟨⟨rfl, fun dbl => ⟨rfl, ?_⟩⟩, rfl, fun dbl => ⟨rfl, rfl, ?_⟩⟩
  · rintro ⟨hreturns, -⟩
    rcases hreturns 0 (by decide) with ⟨v, err, hreturn, -⟩
    cases hreturn
  · rintro ⟨-, -, hanswer⟩
    exact hanswer 0 (by decide) Outcome.isError_error true true _ _ rfl (by decide)

end DataSpaces
