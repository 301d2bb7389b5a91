import DataSpaces.Ops

/-!
# OpSize — the size of an expression and the size of its result (`dspaces-ops.c`)

An expression carries its type and the bytes of its result.  Both are computed bottom-up, each on its own:
the bytes of a node are those of its larger operand, and its type is real if an operand is.  The server
allocates as many bytes and computes one value for each element that fits into them
(`do_ops_rpc`), and the client reads the dimensions of the result off the tree
(`dspaces_op_get_result_size`).

They are in step when the bytes are those of one element for each cell.  A node of `DS_OP_ARCTAN` is real
but keeps the bytes of its operand, which is in step only if these already are bytes of reals.
-/

namespace DataSpaces

/-! ## Dimensions, turns and reads -/

/-- The number of cells along each dimension. -/
def BBox.sides (bb : BBox) : List UInt64 :=
  (List.range bb.numDims).map fun i => (bb.ub.c i - bb.lb.c i) + 1

/-- The product of the sides. -/
def dimsProd (dims : List UInt64) : Nat :=
  (dims.map UInt64.toNat).prod

namespace DsDataExpr

/-- `dspaces_op_get_result_size`: `dims`, with `ndim` as its length.  It is `none` when a subexpression or
an object is read that is not there, and for an unknown operator, where both stay unset. -/
def dspacesOpGetResultSize : DsDataExpr ObjData → Option (List UInt64)
  | .obj _ _ od => some od.objDesc.bb.sides
  | .iconst .. | .rconst .. => some []
  | .node op _ _ subExpr =>
      match op, subExpr with
      | .iconst, _ | .rconst, _ => some []
      | .add, expr0 :: expr1 :: _ | .sub, expr0 :: expr1 :: _ | .mult, expr0 :: expr1 :: _
      | .div, expr0 :: expr1 :: _ | .pow, expr0 :: expr1 :: _ =>
          (dspacesOpGetResultSize expr0).bind fun ldims =>
            (dspacesOpGetResultSize expr1).map fun rdims =>
              -- the one with more dimensions, whatever their sizes
              if ldims.length > rdims.length then ldims else rdims
      | .arctan, expr0 :: _ => dspacesOpGetResultSize expr0
      | _, _ => none

/-- The objects that are read for the value at a position, an element of each, when every node is computed
under its own type.  It is `none` when a node has no value: its operator does not go with its type, or what
belongs to the operator is not there. -/
def readObjs : DsDataExpr ObjData → Option (List ObjData)
  | .obj type _ od => if type = .int ∨ type = .real then some [od] else none
  | .iconst type _ _ => if type = .int then some [] else none
  | .rconst type _ _ => if type = .real then some [] else none
  | .node op type _ subExpr =>
      match op, subExpr with
      | .add, expr0 :: expr1 :: _ | .sub, expr0 :: expr1 :: _ | .mult, expr0 :: expr1 :: _
      | .div, expr0 :: expr1 :: _ | .pow, expr0 :: expr1 :: _ =>
          if type = .int ∨ type = .real then
            (readObjs expr0).bind fun ods0 => (readObjs expr1).map fun ods1 => ods0 ++ ods1
          else none
      | .arctan, expr0 :: _ => if type = .real then readObjs expr0 else none
      | _, _ => none

/-- The turns of the loop of `do_ops_rpc`, which computes an element at every turn. -/
def turns (expr : DsDataExpr ObjData) : Option Nat :=
  expr.type.elemSize.map fun elem => expr.size.toNat / elem.toNat

/-- The bytes are those of one element of the type for each cell; the loop computes a value for each cell,
and reads no object past its volume. -/
def SizeLaw (expr : DsDataExpr ObjData) : Prop :=
  ∃ dims elem ods, expr.dspacesOpGetResultSize = some dims ∧ expr.type.elemSize = some elem ∧
    expr.readObjs = some ods ∧
    expr.size.toNat = elem.toNat * dimsProd dims ∧
    expr.turns = some (dimsProd dims) ∧
    ∀ od ∈ ods, ∀ pos < dimsProd dims, pos < (bboxVolume od.objDesc.bb).toNat

theorem getResultSize_binary {op : DsOp} (hop : op.isBinary = true) {type : DsVal} {size : UInt64}
    {expr0 expr1 : DsDataExpr ObjData} :
    (DsDataExpr.node op type size [expr0, expr1]).dspacesOpGetResultSize =
      expr0.dspacesOpGetResultSize.bind fun ldims => expr1.dspacesOpGetResultSize.map fun rdims =>
        if ldims.length > rdims.length then ldims else rdims := by
  cases op with
  | add | sub | mult | div | pow => rfl
  | obj | iconst | rconst | arctan | other => cases hop

theorem readObjs_binary {op : DsOp} (hop : op.isBinary = true) {type : DsVal} {size : UInt64}
    {expr0 expr1 : DsDataExpr ObjData} :
    (DsDataExpr.node op type size [expr0, expr1]).readObjs =
      if type = .int ∨ type = .real then
        expr0.readObjs.bind fun ods0 => expr1.readObjs.map fun ods1 => ods0 ++ ods1
      else none := by
  cases op with
  | add | sub | mult | div | pow => rfl
  | obj | iconst | rconst | arctan | other => cases hop

end DsDataExpr

/-! ## What the leaves are -/

namespace OpTerm

/-- Some leaf is an object of the type. -/
def hasObj (type : DsVal) : OpTerm → Bool
  | .obj _ _ leaf _ _ _ => leaf == type
  | .iconst _ => false
  | .oneArg _ expr1 => expr1.hasObj type
  | .twoArg _ expr1 expr2 => expr1.hasObj type || expr2.hasObj type

/-- Some leaf is a constant. -/
def hasConst : OpTerm → Bool
  | .obj .. => false
  | .iconst _ => true
  | .oneArg _ expr1 => expr1.hasConst
  | .twoArg _ expr1 expr2 => expr1.hasConst || expr2.hasConst

/-- Some node has one argument. -/
def hasOneArg : OpTerm → Bool
  | .obj .. | .iconst _ => false
  | .oneArg .. => true
  | .twoArg _ expr1 expr2 => expr1.hasOneArg || expr2.hasOneArg

/-- The operator of one argument is always the one that there is. -/
def OneArgOk : OpTerm → Prop
  | .obj .. | .iconst _ => True
  | .oneArg op expr1 => op = .arctan ∧ expr1.OneArgOk
  | .twoArg _ expr1 expr2 => expr1.OneArgOk ∧ expr2.OneArgOk

/-- The box of an object of `dspaces_op_new_obj`. -/
def leafBox (ndim : Nat) (lb ub : Coord) : BBox where
  numDims := ndim
  lb := Coord.ofFn fun i => if i < ndim then lb.c i else 0
  ub := Coord.ofFn fun i => if i < ndim then ub.c i else 0

/-- The objects all have the box. -/
def SameBox (bb : BBox) : OpTerm → Prop
  | .obj _ _ _ ndim lb ub => leafBox ndim lb ub = bb
  | .iconst _ => True
  | .oneArg _ expr1 => expr1.SameBox bb
  | .twoArg _ expr1 expr2 => expr1.SameBox bb ∧ expr2.SameBox bb

/-- Some leaf is an object. -/
def hasCells (t : OpTerm) : Bool :=
  t.hasObj .int || t.hasObj .real

/-- What keeps bytes and type in step: a constant is no larger than objects without cells, and elsewhere
`DS_OP_ARCTAN` comes with an object of reals. -/
def InStep (volume : Nat) (t : OpTerm) : Prop :=
  t.OneArgOk ∧
    if volume = 0 ∧ t.hasCells = true then t.hasConst = false
    else t.hasOneArg = true → t.hasObj .real = true

/-- The bytes of the largest leaf. -/
def bytes (volume : Nat) (t : OpTerm) : Nat :=
  max (bif t.hasConst then 4 else 0)
    (max (bif t.hasObj .int then 4 * volume else 0) (bif t.hasObj .real then 8 * volume else 0))

theorem hasCells_twoArg (op : DsOp) (t1 t2 : OpTerm) :
    (twoArg op t1 t2).hasCells = (t1.hasCells || t2.hasCells) := by
  simp only [hasCells, hasObj]
  ac_rfl

theorem cond_or_eq_max (a b : Bool) (n : Nat) :
    (bif a || b then n else 0) = max (bif a then n else 0) (bif b then n else 0) := by
  cases a <;> cases b <;> simp

theorem bytes_twoArg (volume : Nat) (op : DsOp) (t1 t2 : OpTerm) :
    (twoArg op t1 t2).bytes volume = max (t1.bytes volume) (t2.bytes volume) := by
  simp only [bytes, hasConst, hasObj, cond_or_eq_max]
  ac_rfl

end OpTerm

/-! ## Volumes -/

theorem bboxVolume_toNat {bb : BBox} (hvol : dimsProd bb.sides < 2 ^ 64) :
    (bboxVolume bb).toNat = dimsProd bb.sides := by
  have hfold := foldl_mul_ofNat (coordDist bb.lb bb.ub) (fun i => (coordDist bb.lb bb.ub i).toNat)
    (List.range bb.numDims) (fun i _ => UInt64.ofNat_toNat.symm) 1
  have hprod : ((List.range bb.numDims).map fun i => (coordDist bb.lb bb.ub i).toNat).prod =
      dimsProd bb.sides := by
    rw [dimsProd, BBox.sides, List.map_map]
    rfl
  rw [one_mul, hprod] at hfold
  rw [bboxVolume]
  exact (congrArg UInt64.toNat hfold).trans (UInt64.toNat_ofNat_of_lt' hvol)

/-! ## What a tree carries -/

section Built

variable {unset : ObjData} {getGdim : CStr → GlobalDimension}

/-- The new `struct obj_data` of `dspaces_op_new_obj`, where the other members are not set. -/
def newOpObj (unset : ObjData) (varName : CStr) (ver : UInt32) (size : UInt64) (bb : BBox)
    (gdim : GlobalDimension) : ObjData :=
  { unset with
    objDesc := { unset.objDesc with name := varName, version := ver, size := size, bb := bb }
    gdim := gdim }

/-- What is known of the expression that the calls build over one box. -/
structure Carries (bb : BBox) (t : OpTerm) (expr : DsDataExpr ObjData) : Prop where
  dims : expr.dspacesOpGetResultSize = some (if t.hasCells = true then bb.sides else [])
  size : expr.size.toNat = t.bytes (dimsProd bb.sides)
  type : expr.type = if t.hasOneArg = true ∨ t.hasObj .real = true then .real else .int
  reads : ∃ ods, expr.readObjs = some ods ∧ (∀ od ∈ ods, od.objDesc.bb = bb) ∧
    (ods ≠ [] → t.hasCells = true)
  leaf : t.hasCells = true ∨ t.hasConst = true

theorem Carries.oneArg {bb : BBox} {t : OpTerm} {expr1 : DsDataExpr ObjData} (h : Carries bb t expr1) :
    Carries bb (.oneArg .arctan t) (dspacesOpNew1arg .arctan expr1) where
  dims := h.dims
  size := h.size
  type := rfl
  reads := h.reads
  leaf := h.leaf

theorem Carries.twoArg {bb : BBox} {t1 t2 : OpTerm} {expr1 expr2 expr : DsDataExpr ObjData}
    (h1 : Carries bb t1 expr1) (h2 : Carries bb t2 expr2) {op : DsOp}
    (hbuild : dspacesOpNew2arg op expr1 expr2 = some expr) : Carries bb (.twoArg op t1 t2) expr := by
  rw [dspacesOpNew2arg] at hbuild
  split at hbuild
  case isFalse => cases hbuild
  case isTrue hop =>
    cases hbuild
    constructor
    · -- without dimensions, the box has none either
      rw [DsDataExpr.getResultSize_binary hop, h1.dims, h2.dims]
      rw [OpTerm.hasCells_twoArg]
      cases h1c : t1.hasCells with
      | false => cases t2.hasCells <;> simp
      | true =>
          cases t2.hasCells with
          | true => simp
          | false =>
              cases hs : bb.sides with
              | nil => simp
              | cons side sides => simp
    · rw [OpTerm.bytes_twoArg, ← h1.size, ← h2.size, DsDataExpr.size]
      split
      next hlt =>
        have hlt := UInt64.lt_iff_toNat_lt.1 hlt
        omega
      next hle =>
        have hle := UInt64.le_iff_toNat_le.1 (UInt64.not_lt.1 hle)
        omega
    · rw [DsDataExpr.type, h1.type, h2.type]
      simp only [OpTerm.hasOneArg, OpTerm.hasObj, Bool.or_eq_true]
      split_ifs <;> simp_all
    · rcases h1.reads with ⟨ods1, hods1, hbox1, hcells1⟩
      rcases h2.reads with ⟨ods2, hods2, hbox2, hcells2⟩
      refine ⟨ods1 ++ ods2, ?_, ?_, ?_⟩
      · rw [DsDataExpr.readObjs_binary hop, hods1, hods2]
        split_ifs <;> simp_all
      · intro od hod
        rcases List.mem_append.1 hod with hod | hod
        · exact hbox1 od hod
        · exact hbox2 od hod
      · rw [Ne, List.append_eq_nil_iff, not_and_or, OpTerm.hasCells_twoArg, Bool.or_eq_true]
        exact Or.imp hcells1 hcells2
    · rw [OpTerm.hasCells_twoArg, OpTerm.hasConst, Bool.or_eq_true, Bool.or_eq_true]
      exact h1.leaf.imp .inl .inl

theorem carries_obj {bb : BBox} {varName : CStr} {ver : UInt32} {type : DsVal} {ndim : Nat}
    {lb ub : Coord} {expr : DsDataExpr ObjData}
    (hbuild : dspacesOpNewObj (newOpObj unset) getGdim varName ver type ndim lb ub = some expr)
    (hbox : OpTerm.leafBox ndim lb ub = bb) (hvol : dimsProd bb.sides * 8 < 2 ^ 63) :
    Carries bb (.obj varName ver type ndim lb ub) expr := by
  rcases Option.bind_eq_some_iff.1 hbuild with ⟨elem, helem, hbuild⟩
  simp only at hbuild
  rw [← OpTerm.leafBox, hbox] at hbuild
  split at hbuild
  case isFalse => cases hbuild
  case isTrue =>
    cases hbuild
    have hvolume : (bboxVolume bb).toNat = dimsProd bb.sides := bboxVolume_toNat (by omega)
    cases type with
    | int =>
        cases helem
        refine ⟨rfl, ?_, rfl, ⟨[_], rfl, ?_, fun _ => rfl⟩, .inl rfl⟩
        · change (4 * bboxVolume bb : UInt64).toNat = max 0 (max (4 * _) 0)
          rw [UInt64.toNat_mul, hvolume, Nat.mod_eq_of_lt (by change 4 * _ < _; omega)]
          simp
        · simp [newOpObj]
    | real =>
        cases helem
        refine ⟨rfl, ?_, rfl, ⟨[_], rfl, ?_, fun _ => rfl⟩, .inl rfl⟩
        · change (8 * bboxVolume bb : UInt64).toNat = max 0 (max 0 (8 * _))
          rw [UInt64.toNat_mul, hvolume, Nat.mod_eq_of_lt (by change 8 * _ < _; omega)]
          simp
        · simp [newOpObj]
    | other byte => cases helem

theorem carries_of_build {bb : BBox} (hvol : dimsProd bb.sides * 8 < 2 ^ 63) (t : OpTerm) :
    ∀ expr, t.build (newOpObj unset) getGdim = some expr → t.SameBox bb → t.OneArgOk →
      Carries bb t expr := by
  induction t with
  | obj varName ver type ndim lb ub =>
      intro expr hbuild hbox _
      exact carries_obj hbuild hbox hvol
  | iconst val =>
      intro expr hbuild _ _
      cases hbuild
      exact ⟨rfl, rfl, rfl, ⟨[], rfl, by simp, fun h => absurd rfl h⟩, .inr rfl⟩
  | oneArg op expr1 ih =>
      intro expr hbuild hbox hok
      rcases Option.bind_eq_some_iff.1 hbuild with ⟨e1, he1, hbuild⟩
      rcases hok with ⟨rfl, hok⟩
      cases hbuild
      exact (ih e1 he1 hbox hok).oneArg
  | twoArg op expr1 expr2 ih1 ih2 =>
      intro expr hbuild hbox hok
      rcases Option.bind_eq_some_iff.1 hbuild with ⟨e1, he1, hbuild⟩
      rcases Option.bind_eq_some_iff.1 hbuild with ⟨e2, he2, hbuild⟩
      exact (ih1 e1 he1 hbox.1 hok.1).twoArg (ih2 e2 he2 hbox.2 hok.2) hbuild

/-- After a wrong operator of one argument, the dimensions or the values are not determined. -/
theorem not_oneArgOk (t : OpTerm) :
    ∀ expr, t.build (newOpObj unset) getGdim = some expr → ¬ t.OneArgOk →
      expr.dspacesOpGetResultSize = none ∨ expr.readObjs = none := by
  induction t with
  | obj | iconst =>
      intro expr _ hok
      exact absurd trivial hok
  | oneArg op expr1 ih =>
      intro expr hbuild hok
      rcases Option.bind_eq_some_iff.1 hbuild with ⟨e1, he1, hbuild⟩
      cases hbuild
      cases op with
      | arctan => exact ih e1 he1 fun h => hok ⟨rfl, h⟩
      | obj | iconst | rconst => exact .inr rfl
      | add | sub | mult | div | pow | other => exact .inl rfl
  | twoArg op expr1 expr2 ih1 ih2 =>
      intro expr hbuild hok
      rcases Option.bind_eq_some_iff.1 hbuild with ⟨e1, he1, hbuild⟩
      rcases Option.bind_eq_some_iff.1 hbuild with ⟨e2, he2, hbuild⟩
      rw [dspacesOpNew2arg] at hbuild
      split at hbuild
      case isFalse => cases hbuild
      case isTrue hop =>
        cases hbuild
        rw [DsDataExpr.getResultSize_binary hop, DsDataExpr.readObjs_binary hop]
        -- the wrong operator is in one of the two operands
        have hsub : (e1.dspacesOpGetResultSize = none ∨ e1.readObjs = none) ∨
            e2.dspacesOpGetResultSize = none ∨ e2.readObjs = none := by
          by_cases hok1 : expr1.OneArgOk
          · exact .inr (ih2 e2 he2 fun h => hok ⟨hok1, h⟩)
          · exact .inl (ih1 e1 he1 hok1)
        rcases hsub with (h | h) | h | h
        · exact .inl (by simp [h])
        · exact .inr (by simp [h])
        · exact .inl (by simp [h])
        · exact .inr (by simp [h])

/-- What else the law says follows from the number of bytes. -/
theorem Carries.hasSize_iff {bb : BBox} {t : OpTerm} {expr : DsDataExpr ObjData} (h : Carries bb t expr)
    (hvol : dimsProd bb.sides < 2 ^ 64) :
    expr.SizeLaw ↔ t.bytes (dimsProd bb.sides) =
      (if t.hasOneArg = true ∨ t.hasObj .real = true then 8 else 4) *
        (if t.hasCells = true then dimsProd bb.sides else 1) := by
  have helem : ∃ elem, expr.type.elemSize = some elem ∧ 0 < elem.toNat ∧
      elem.toNat = if t.hasOneArg = true ∨ t.hasObj .real = true then 8 else 4 := by
    rw [h.type]
    split_ifs
    · exact ⟨8, rfl, by decide, rfl⟩
    · exact ⟨4, rfl, by decide, rfl⟩
  have hprod : dimsProd (if t.hasCells = true then bb.sides else []) =
      if t.hasCells = true then dimsProd bb.sides else 1 := by
    split_ifs <;> rfl
  rcases helem with ⟨elem, helem, hpos, helemNat⟩
  rcases h.reads with ⟨ods, hods, hbox, hcells⟩
  rw [← h.size, ← helemNat, ← hprod]
  constructor
  · rintro ⟨dims, elem', ods', hdims, helem', -, hsize, -, -⟩
    rw [h.dims, Option.some.injEq] at hdims
    rw [helem, Option.some.injEq] at helem'
    rw [hdims, helem']
    exact hsize
  · intro hsize
    refine ⟨_, elem, ods, h.dims, helem, hods, hsize, ?_, ?_⟩
    · rw [DsDataExpr.turns, helem, Option.map_some, hsize, Nat.mul_div_cancel_left _ hpos]
    · intro od hod pos hlt
      rw [hprod, if_pos (hcells (List.ne_nil_of_mem hod))] at hlt
      rwa [hbox od hod, bboxVolume_toNat hvol]

end Built

/-- The bytes of the largest leaf are those of the result in just the trees that are in step. -/
theorem OpTerm.bytes_eq_iff {t : OpTerm} (hleaf : t.hasCells = true ∨ t.hasConst = true) (volume : Nat) :
    t.bytes volume = (if t.hasOneArg = true ∨ t.hasObj .real = true then 8 else 4) *
        (if t.hasCells = true then volume else 1) ↔
      if volume = 0 ∧ t.hasCells = true then t.hasConst = false
      else t.hasOneArg = true → t.hasObj .real = true := by
  revert hleaf
  rw [hasCells, bytes]
  -- one case for each choice of leaves, linear in the volume
  cases t.hasObj .int <;> cases t.hasObj .real <;> cases t.hasConst <;> cases t.hasOneArg <;>
    simp <;> omega

/-- The law holds of the expression that the calls build exactly when they use no wrong operator of one
argument and, where there are cells, no `DS_OP_ARCTAN` without an object of reals. -/
theorem sizeLaw_iff {unset : ObjData} {getGdim : CStr → GlobalDimension} {t : OpTerm}
    {expr : DsDataExpr ObjData} (hbuild : t.build (newOpObj unset) getGdim = some expr) {bb : BBox}
    (hbox : t.SameBox bb) (hvol : dimsProd bb.sides * 8 < 2 ^ 63) :
    expr.SizeLaw ↔ t.InStep (dimsProd bb.sides) := by
  by_cases hok : t.OneArgOk
  · have hcarries := carries_of_build hvol t expr hbuild hbox hok
    rw [hcarries.hasSize_iff (by omega), OpTerm.bytes_eq_iff hcarries.leaf, OpTerm.InStep]
    exact (and_iff_right hok).symm
  · refine iff_of_false ?_ fun h => hok h.1
    rintro ⟨dims, elem, ods, hdims, -, hods, -⟩
    rcases not_oneArgOk t expr hbuild hok with h | h
    · rw [h] at hdims
      cases hdims
    · rw [h] at hods
      cases hods

/-- The variables of two dimensions are read as they were written in `test_calc.c`. -/
def calcGdim (_ : CStr) : GlobalDimension := ⟨2, Coord.ofFn fun _ => 10⟩

def calcLeaf (name : CStr) (type : DsVal) : OpTerm :=
  .obj name 0 type 2 (Coord.ofFn fun _ => 0) (Coord.ofFn fun _ => 9)

/-- `1 - (a + b)` with two variables of reals. -/
def calcTerm : OpTerm :=
  .twoArg .sub (.iconst 1) (.twoArg .add (calcLeaf [97] .real) (calcLeaf [98] .real))

def emptyObj : ObjData where
  objDesc := ⟨[], .rowMajor, 0, 0, 0, .none, 0, ⟨0, Coord.ofFn fun _ => 0, Coord.ofFn fun _ => 0⟩, 0⟩
  gdim := ⟨0, Coord.ofFn fun _ => 0⟩
  data := fun _ => 0

def calcBox : BBox :=
  OpTerm.leafBox 2 (Coord.ofFn fun _ => 0) (Coord.ofFn fun _ => 9)

theorem sizeLaw_iff_calc :
    ∃ expr, calcTerm.build (newOpObj emptyObj) calcGdim = some expr ∧ expr.SizeLaw := by
  have hsome : (calcTerm.build (newOpObj emptyObj) calcGdim).isSome = true := by
    decide
  rcases Option.isSome_iff_exists.1 hsome with ⟨expr, hbuild⟩
  have hbox : calcTerm.SameBox calcBox := ⟨trivial, rfl, rfl⟩
  exact ⟨expr, hbuild, (sizeLaw_iff hbuild hbox (by decide)).2 ⟨⟨trivial, trivial, trivial⟩, fun _ => rfl⟩⟩

/-- The arc tangent of a variable of 100 integers has 400 bytes, and its result is 100 reals. -/
theorem not_sizeLaw_arctan :
    ∃ expr, (OpTerm.oneArg .arctan (calcLeaf [97] .int)).build (newOpObj emptyObj) calcGdim = some expr ∧
      expr.size = 400 ∧ expr.type = .real ∧ expr.dspacesOpGetResultSize = some [10, 10] ∧
      ¬ expr.SizeLaw := by
  refine ⟨_, rfl, by decide, rfl, by decide, ?_⟩
  rintro ⟨dims, elem, ods, hdims, helem, -, hsize, -⟩
  cases hdims
  cases helem
  exact absurd hsize (by decide)

end DataSpaces
