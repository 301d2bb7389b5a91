import DataSpaces.Binding
import DataSpaces.BoxAlgebra
import DataSpaces.ByteCounts
import DataSpaces.EvalErrors

/-!
# Calc — an expression from the client to the server and back (`dspaces_op_calc`, `do_ops_rpc`)

The client sends the tree, the server reads it, puts the data of the variables into its leaves, computes one
value for each cell and sends them back, compressed if they get shorter.  What the client gets is compared with
what the calls that built the expression stand for (`OpTerm.meaning`).
-/

namespace DataSpaces

/-! ## Trees with other objects -/

namespace DsDataExpr

variable {α β : Type}

mutual

/-- The tree with other objects in its leaves. -/
def map (f : α → β) : DsDataExpr α → DsDataExpr β
  | .obj type size od => .obj type size (f od)
  | .iconst type size ival => .iconst type size ival
  | .rconst type size rval => .rconst type size rval
  | .node op type size subExpr => .node op type size (mapSubs f subExpr)

def mapSubs (f : α → β) : List (DsDataExpr α) → List (DsDataExpr β)
  | [] => []
  | expr :: subExpr => map f expr :: mapSubs f subExpr

end

@[simp] theorem map_one (f : α → β) (op : DsOp) (type : DsVal) (size : UInt64) (expr0 : DsDataExpr α) :
    (node op type size [expr0]).map f = node op type size [expr0.map f] := rfl

@[simp] theorem map_two (f : α → β) (op : DsOp) (type : DsVal) (size : UInt64) (expr0 expr1 : DsDataExpr α) :
    (node op type size [expr0, expr1]).map f = node op type size [expr0.map f, expr1.map f] := rfl

@[simp] theorem type_map (f : α → β) (expr : DsDataExpr α) : (expr.map f).type = expr.type := by
  cases expr <;> rfl

@[simp] theorem size_map (f : α → β) (expr : DsDataExpr α) : (expr.map f).size = expr.size := by
  cases expr <;> rfl

theorem Shaped.objs_map {expr : DsDataExpr α} (h : expr.Shaped) (f : α → β) :
    (expr.map f).objs = expr.objs.map f := by
  induction h with
  | obj => rfl
  | iconst => rfl
  | rconst => rfl
  | arctan type size h0 ih0 => exact ih0
  | binary hop type size h0 h1 ih0 ih1 =>
      rw [map_two, DsDataExpr.objs, DsDataExpr.objs, ih0, ih1, List.map_append]

theorem Shaped.map {expr : DsDataExpr α} (h : expr.Shaped) (f : α → β) : (expr.map f).Shaped := by
  induction h with
  | obj => exact .obj _ _ _
  | iconst => exact .iconst _ _ _
  | rconst => exact .rconst _ _ _
  | arctan type size h0 ih0 => exact .arctan type size ih0
  | binary hop type size h0 h1 ih0 ih1 => exact .binary hop type size ih0 ih1

theorem Shaped.map_map {γ : Type} {expr : DsDataExpr α} (h : expr.Shaped) (f : α → β) (g : β → γ) :
    (expr.map f).map g = expr.map (g ∘ f) := by
  induction h with
  | obj => rfl
  | iconst => rfl
  | rconst => rfl
  | arctan type size h0 ih0 => simp only [map_one, ih0]
  | binary hop type size h0 h1 ih0 ih1 => simp only [map_two, ih0, ih1]

theorem Shaped.map_id {expr : DsDataExpr α} (h : expr.Shaped) : expr.map id = expr := by
  induction h with
  | obj => rfl
  | iconst => rfl
  | rconst => rfl
  | arctan type size h0 ih0 => simp only [map_one, ih0]
  | binary hop type size h0 h1 ih0 ih1 => simp only [map_two, ih0, ih1]

end DsDataExpr

/-! ## What the calls stand for -/

namespace OpTerm

/-- `type` of what the calls build. -/
def resultType : OpTerm → DsVal
  | .obj _ _ type _ _ _ => type
  | .iconst _ => .int
  | .oneArg .. => .real
  | .twoArg _ expr1 expr2 => if expr1.resultType = .real ∨ expr2.resultType = .real then .real else .int

/-- The names, as far as they are kept, and the versions of the variables. -/
def leaves : OpTerm → List (CStr × UInt32)
  | .obj varName ver _ _ _ _ => [(varName.take (OD_MAX_NAME_LEN - 1), ver)]
  | .iconst _ => []
  | .oneArg _ expr1 => expr1.leaves
  | .twoArg _ expr1 expr2 => expr1.leaves ++ expr2.leaves

section Meaning

variable (dbl : Doubles) (cell : CStr × UInt32 → Int64)

/-- The value with the given values of the variables; each operator on the type of its result. -/
def meaning : OpTerm → Int64
  | .obj varName ver _ _ _ _ => cell (varName.take (OD_MAX_NAME_LEN - 1), ver)
  | .iconst val => val
  | .oneArg _ expr1 => dbl.atan (dbl.convert .real expr1.resultType expr1.meaning)
  | .twoArg op expr1 expr2 =>
      let type := (twoArg op expr1 expr2).resultType
      dbl.apply2 type op (dbl.convert type expr1.resultType expr1.meaning)
        (dbl.convert type expr2.resultType expr2.meaning)

/-- The divisions of integers can be done. -/
def Divides : OpTerm → Prop
  | .obj .. | .iconst _ => True
  | .oneArg _ expr1 => expr1.Divides
  | .twoArg op expr1 expr2 => expr1.Divides ∧ expr2.Divides ∧
      let type := (twoArg op expr1 expr2).resultType
      type = .int → op = .div →
        DivOk (dbl.convert type expr1.resultType (expr1.meaning dbl cell))
          (dbl.convert type expr2.resultType (expr2.meaning dbl cell))

end Meaning

end OpTerm

/-! ### The tree that is built has this value -/

section Value

variable {unset : ObjData} {getGdim : CStr → GlobalDimension} {bb : BBox}

/-- The descriptor of a variable of reals. -/
def leafDesc (unset : ObjDesc) (bb : BBox) (leaf : CStr × UInt32) : ObjDesc :=
  { unset with name := leaf.1, version := leaf.2, size := 8, bb := bb }

theorem build_twoArg {α : Type} {fill : CStr → UInt32 → UInt64 → BBox → GlobalDimension → α} {op : DsOp}
    {t1 t2 : OpTerm} {expr : DsDataExpr α} (h : (OpTerm.twoArg op t1 t2).build fill getGdim = some expr) :
    ∃ e1 e2, t1.build fill getGdim = some e1 ∧ t2.build fill getGdim = some e2 ∧ op.isBinary = true ∧
      expr = .node op (if e1.type = .real ∨ e2.type = .real then .real else .int)
        (if e1.size > e2.size then e1.size else e2.size) [e1, e2] := by
  rcases Option.bind_eq_some_iff.1 h with ⟨e1, he1, h⟩
  rcases Option.bind_eq_some_iff.1 h with ⟨e2, he2, h⟩
  rw [dspacesOpNew2arg] at h
  split at h
  · next hop =>
      cases h
      exact ⟨e1, e2, he1, he2, hop, rfl⟩
  · cases h

/-- A leaf of reals. -/
theorem build_obj_real {varName : CStr} {ver : UInt32} {type : DsVal} {ndim : Nat} {lb ub : Coord}
    {expr : DsDataExpr ObjData}
    (h : (OpTerm.obj varName ver type ndim lb ub).build (newOpObj unset) getGdim = some expr)
    (hint : type ≠ .int) (hbox : OpTerm.leafBox ndim lb ub = bb) :
    type = .real ∧ ∃ size od, expr = .obj .real size od ∧
      od.objDesc = leafDesc unset.objDesc bb (varName.take (OD_MAX_NAME_LEN - 1), ver) := by
  rcases Option.bind_eq_some_iff.1 h with ⟨size, hsize, h⟩
  cases type with
  | int => exact absurd rfl hint
  | other byte => cases hsize
  | real =>
      cases hsize
      simp only at h
      split at h
      · cases h
        exact ⟨rfl, _, _, rfl, by rw [← hbox]; rfl⟩
      · cases h

theorem hasObj_int_of_ne {varName : CStr} {ver : UInt32} {type : DsVal} {ndim : Nat} {lb ub : Coord}
    (h : (OpTerm.obj varName ver type ndim lb ub).hasObj .int = false) : type ≠ .int := by
  rintro rfl
  cases h

/-- The objects of the leaves, when they are all of reals in one box. -/
theorem objDesc_of_build (t : OpTerm) : ∀ expr, t.build (newOpObj unset) getGdim = some expr →
    t.Fits → t.hasObj .int = false → t.SameBox bb →
      expr.objs.map ObjData.objDesc = t.leaves.map (leafDesc unset.objDesc bb) := by
  induction t with
  | obj varName ver type ndim lb ub =>
      intro expr hbuild _ hint hbox
      rcases build_obj_real hbuild (hasObj_int_of_ne hint) hbox with ⟨-, size, od, rfl, hod⟩
      exact congrArg (· :: []) hod
  | iconst val =>
      intro expr hbuild _ _ _
      cases hbuild
      rfl
  | oneArg op expr1 ih =>
      intro expr hbuild hfits hint hbox
      rcases Option.bind_eq_some_iff.1 hbuild with ⟨e1, he1, hbuild⟩
      cases hbuild
      exact ih e1 he1 hfits.2 hint hbox
  | twoArg op expr1 expr2 ih1 ih2 =>
      intro expr hbuild hfits hint hbox
      rcases build_twoArg hbuild with ⟨e1, e2, he1, he2, -, rfl⟩
      rw [OpTerm.hasObj, Bool.or_eq_false_iff] at hint
      rw [DsDataExpr.objs, List.map_append, OpTerm.leaves, List.map_append,
        ih1 e1 he1 hfits.1 hint.1 hbox.1, ih2 e2 he2 hfits.2 hint.2 hbox.2]

theorem type_of_build (t : OpTerm) : ∀ expr, t.build (newOpObj unset) getGdim = some expr → t.Fits →
    expr.type = t.resultType := by
  induction t with
  | obj varName ver type ndim lb ub =>
      intro expr hbuild _
      rcases Option.bind_eq_some_iff.1 hbuild with ⟨size, hsize, hbuild⟩
      simp only at hbuild
      split at hbuild
      · cases hbuild
        rfl
      · cases hbuild
  | iconst val =>
      intro expr hbuild _
      cases hbuild
      rfl
  | oneArg op expr1 ih =>
      intro expr hbuild hfits
      rcases Option.bind_eq_some_iff.1 hbuild with ⟨e1, he1, hbuild⟩
      cases hbuild
      exact if_pos (Or.inl hfits.1)
  | twoArg op expr1 expr2 ih1 ih2 =>
      intro expr hbuild hfits
      rcases build_twoArg hbuild with ⟨e1, e2, he1, he2, -, rfl⟩
      rw [DsDataExpr.type, ih1 e1 he1 hfits.1, ih2 e2 he2 hfits.2, OpTerm.resultType]

/-- With the value of each variable in its objects, the tree is sound and has the value that the calls stand
for. -/
theorem value_of_build {f : ObjData → ObjData} {dbl : Doubles} {pos : Nat} {cell : CStr × UInt32 → Int64}
    (t : OpTerm) : ∀ expr, t.build (newOpObj unset) getGdim = some expr → t.Fits → t.hasObj .int = false →
      (∀ od ∈ expr.objs, loadDouble (f od).data pos = cell (od.objDesc.name, od.objDesc.version) ∧
        8 * pos + 8 ≤ (objDataSize (f od).objDesc).toNat) → t.Divides dbl cell →
      (expr.map f).Sound dbl pos ∧ (expr.map f).value dbl pos = t.meaning dbl cell := by
  induction t with
  | obj varName ver type ndim lb ub =>
      intro expr hbuild _ hint hcells _
      rcases build_obj_real hbuild (hasObj_int_of_ne hint) rfl with ⟨-, size, od, rfl, hod⟩
      obtain ⟨hval, hlen⟩ := hcells od (List.mem_singleton_self od)
      refine ⟨⟨Or.inr rfl, hlen⟩, hval.trans ?_⟩
      rw [hod]
      rfl
  | iconst val =>
      intro expr hbuild _ _ _ _
      cases hbuild
      exact ⟨rfl, rfl⟩
  | oneArg op expr1 ih =>
      intro expr hbuild hfits hint hcells hdiv
      rcases Option.bind_eq_some_iff.1 hbuild with ⟨e1, he1, hbuild⟩
      cases hbuild
      rcases hfits with ⟨rfl, hfits⟩
      obtain ⟨hsound, hval⟩ := ih e1 he1 hfits hint hcells hdiv
      refine ⟨⟨rfl, hsound⟩, ?_⟩
      change dbl.atan (dbl.convert .real (e1.map f).type ((e1.map f).value dbl pos)) = _
      rw [hval, DsDataExpr.type_map, type_of_build expr1 e1 he1 hfits]
      rfl
  | twoArg op expr1 expr2 ih1 ih2 =>
      intro expr hbuild hfits hint hcells hdiv
      have htype := type_of_build _ expr hbuild hfits
      rcases build_twoArg hbuild with ⟨e1, e2, he1, he2, hop, rfl⟩
      rw [OpTerm.hasObj, Bool.or_eq_false_iff] at hint
      rw [DsDataExpr.type] at htype
      obtain ⟨hsound1, hval1⟩ := ih1 e1 he1 hfits.1 hint.1
        (fun od hod => hcells od (List.mem_append_left _ hod)) hdiv.1
      obtain ⟨hsound2, hval2⟩ := ih2 e2 he2 hfits.2 hint.2
        (fun od hod => hcells od (List.mem_append_right _ hod)) hdiv.2.1
      have htype1 := type_of_build expr1 e1 he1 hfits.1
      have htype2 := type_of_build expr2 e2 he2 hfits.2
      have hkind : (OpTerm.twoArg op expr1 expr2).resultType = .int ∨
          (OpTerm.twoArg op expr1 expr2).resultType = .real := by
        rw [OpTerm.resultType]
        split
        · exact Or.inr rfl
        · exact Or.inl rfl
      -- both operands have their values; the type of the node decides how they are converted
      constructor
      · rw [DsDataExpr.map_two, sound_binary dbl pos hop, htype, hval1, hval2, DsDataExpr.type_map,
          DsDataExpr.type_map, htype1, htype2]
        exact ⟨hkind, hsound1, hsound2, hdiv.2.2⟩
      · rw [DsDataExpr.map_two, value_binary dbl pos hop, htype, hval1, hval2, DsDataExpr.type_map,
          DsDataExpr.type_map, htype1, htype2, OpTerm.meaning]

end Value

/-! ## The data of the variables -/

section Bind

variable {hilbertC2i : HilbertC2i} {uninit : Nat → Unwritten} {conf : Conf} {self : Nat} {malloced : Nat → Buf}
  {g : Group} {expr : DsDataExpr ObjData}

theorem updateExprObjs_eq_map (h : expr.Shaped) (od : ObjData) : updateExprObjs expr od =
    some (expr.map fun o => if od.objDesc.name = o.objDesc.name then od else o) := by
  induction h with
  | obj => rfl
  | iconst => rfl
  | rconst => rfl
  | arctan type size h0 ih0 =>
      rw [updateExprObjs_arctan, ih0]
      rfl
  | binary hop type size h0 h1 ih0 ih1 =>
      rw [updateExprObjs_binary hop, ih0, ih1]
      rfl

/-- The loop changes nothing but the objects. -/
theorem bindLoop_eq_map (odl : List ObjData) : ∀ (i : Nat) (g : Group) (expr : DsDataExpr ObjData)
    (r : Group × DsDataExpr ObjData), expr.Shaped →
      bindLoop hilbertC2i uninit conf self malloced odl i g expr = some r → ∃ f, r.2 = expr.map f := by
  induction odl with
  | nil =>
      intro i g expr r hshaped hloop
      cases hloop
      exact ⟨id, hshaped.map_id.symm⟩
  | cons od odl ih =>
      intro i g expr r hshaped hloop
      rw [bindLoop] at hloop
      obtain ⟨resOd, -, hloop⟩ := Option.bind_eq_some_iff.1 hloop
      obtain ⟨stage, -, hloop⟩ := Option.bind_eq_some_iff.1 hloop
      obtain ⟨res, -, hloop⟩ := Option.bind_eq_some_iff.1 hloop
      rw [updateExprObjs_eq_map hshaped, Option.bind_some] at hloop
      obtain ⟨f, hf⟩ := ih _ _ _ r (hshaped.map _) hloop
      rw [hshaped.map_map] at hf
      exact ⟨_, hf⟩

/-- When all leaves of one name are for one object, each gets the data of its own. -/
theorem exists_bindObjs (hshaped : expr.Shaped)
    (hstored : ∀ od ∈ expr.objs, ∃ src, StoredFor (g.server self).ls od.objDesc src ∧
      TenAligned od.objDesc src) (hone : OneObjPerName expr)
    (hsmall : SmallLeaves expr) :
    ∃ r f, bindObjs hilbertC2i uninit conf self malloced g expr = some r ∧ r.2 = expr.map f ∧
      ∀ od ∈ expr.objs, Bound (g.server self).ls od (f od) := by
  obtain ⟨odl, hgather, hspec⟩ := gatherOpOds_spec hshaped []
  have hmem : ∀ od ∈ odl, od ∈ expr.objs :=
    fun od hod => (hspec.source od hod).resolve_left List.not_mem_nil
  have hfound : ∀ od ∈ odl, ∃ src, (g.server self).ls.lsFind od.objDesc = some src := by
    intro od hod
    obtain ⟨src, hsrc, -⟩ := hstored od (hmem od hod)
    exact ⟨src, hsrc.found⟩
  have hcopies : ∀ od ∈ odl, ∀ m, ∃ src resOd res n, (g.server self).ls.lsFind od.objDesc = some src ∧
      objDataAlloc od.objDesc m = some resOd ∧ ssdCopy resOd src = some (res, n) := by
    intro od hod m
    obtain ⟨src, hsrc, hten⟩ := hstored od (hmem od hod)
    obtain ⟨res, n, hcopy, -⟩ := hsrc.copy hten m
    exact ⟨src, _, res, n, hsrc.found, objDataAlloc_eq hsrc.inMemory.valid (hsmall od (hmem od hod)) m, hcopy⟩
  obtain ⟨r, hloop⟩ := @exists_bindLoop hilbertC2i uninit conf self malloced g odl 0 expr hshaped hcopies
  obtain ⟨f, hf⟩ := bindLoop_eq_map odl 0 g expr r hshaped hloop
  obtain ⟨f', hobjs, -, hcopied⟩ := bindLoop_spec odl 0 expr r hshaped (hspec.nodup List.nodup_nil) hfound hloop
  refine ⟨r, f, by rw [bindObjs, hgather, Option.bind_some, hloop], hf, fun od hod => ?_⟩
  have hsame : f od = f' od := by
    rw [hf, hshaped.objs_map] at hobjs
    exact List.map_inj_left.1 hobjs od hod
  -- the copy was made for the object that was collected for the name
  obtain ⟨rep, hrep, hname⟩ := hspec.named od hod
  have hobj := hone od hod rep (hmem rep hrep) hname.symm
  obtain ⟨src, hsrc, -⟩ := hstored od hod
  obtain ⟨src', hsrc', hten'⟩ := hstored rep (hmem rep hrep)
  have heq : src' = src := by
    have hfind := hsrc'.found
    rw [← hobj.lsFind_eq hname.symm, hsrc.found, Option.some.injEq] at hfind
    exact hfind.symm
  subst heq
  rw [hsame]
  exact (hcopied od rep hrep hname).bound hname hobj hsrc hsrc' hten'

end Bind

/-! ## The result -/

/-- A memory that starts with the bytes. -/
def overwrite (bytes : List UInt8) (mem : Buf) : Buf :=
  fun k => bytes.getD k (mem k)

/-- The memory of the result. -/
def OpsBuffer.bytes : OpsBuffer → List UInt8
  | .ints buffer => buffer.flatMap Wire.int32.put
  | .reals buffer => buffer.flatMap Wire.int64.put

section Reply

variable (lz4 : Lz4)

/-- How `do_ops_rpc` sends the result. -/
def doOpsReply (size : UInt64) (buffer : Buf) : GetReply :=
  let cbuffer := lz4.compress buffer (intOfSize size) (intOfSize size)
  let csize := Int32.ofNat cbuffer.length
  if csize = 0 then ⟨firstBytes buffer size.toNat, sizeOfInt csize⟩ else ⟨cbuffer, sizeOfInt csize⟩

/-- What `dspaces_op_calc` makes of the answer, in memory from `malloc`. -/
def opCalcReceive (size : UInt64) (resp : GetReply) (malloced : Buf) : Option Buf :=
  if resp.len ≠ 0 then
    (lz4.decompress resp.sent (intOfSize resp.len) (intOfSize size)).map fun bytes => overwrite bytes malloced
  else some (overwrite resp.sent malloced)

end Reply

section Calc

variable {α : Type} (hg : HgProc α) (lz4 : Lz4) (dbl : Doubles) (view : α → ObjData)
  (hilbertC2i : HilbertC2i) (uninit : Nat → Unwritten) (conf : Conf) (self : Nat) (malloced : Nat → Buf)

/-- `dspaces_op_calc`, answered by server `self`; the transfers succeed.  The object in a leaf is sent as it is
in the memory of the client, where the server reads the members (`view`). -/
def dspacesOpCalc (depth : Nat) (g : Group) (expr : DsDataExpr α) (cbuf buffer : Buf) : Option Buf := do
  let (ret, bytes) ← hg.encode expr
  let (hret, inExpr, _) ← if ret = .success then hg.decode depth bytes else none
  let (_, bound) ← if hret = .success then
    bindObjs hilbertC2i uninit conf self malloced g (inExpr.map view) else none
  let (_, result) ← doOpsRpc dbl bound true true
  let result ← result
  opCalcReceive lz4 expr.size (doOpsReply lz4 bound.size (overwrite result.bytes buffer)) cbuf

end Calc

/-! ### Values in the buffer -/

theorem loadLE_congr {n : ℕ} : ∀ {data data' : Buf}, (∀ k < n, data k = data' k) →
    loadLE n data = loadLE n data' := by
  induction n with
  | zero => intros; rfl
  | succ n ih =>
      intro data data' h
      rw [loadLE, loadLE, h 0 (Nat.succ_pos n), ih fun k hk => h (k + 1) (Nat.succ_lt_succ hk)]

theorem loadLE_putLE (n : ℕ) : ∀ x, x < 256 ^ n → loadLE n (fun k => (Wire.putLE n x).getD k 0) = x := by
  induction n with
  | zero =>
      intro x hx
      rw [Nat.pow_zero, Nat.lt_one_iff] at hx
      rw [hx, loadLE]
  | succ n ih =>
      intro x hx
      have hhigh : x / 256 < 256 ^ n := by
        rw [Nat.pow_succ] at hx
        exact Nat.div_lt_of_lt_mul (by rwa [Nat.mul_comm])
      have hlow : (UInt8.ofNat x).toNat = x % 256 := UInt8.toNat_ofNat'
      rw [loadLE, Wire.putLE, List.getD_cons_zero]
      simp only [List.getD_cons_succ]
      rw [ih _ hhigh, hlow, Nat.mod_add_div]

theorem overwrite_append_left {bytes rest : List UInt8} {k : ℕ} (h : k < bytes.length) (mem mem' : Buf) :
    overwrite (bytes ++ rest) mem k = overwrite bytes mem' k := by
  rw [overwrite, overwrite, List.getD_append _ _ _ _ h, List.getD_eq_getElem _ _ h, List.getD_eq_getElem _ _ h]

theorem overwrite_append_right (bytes rest : List UInt8) (mem : Buf) (k : ℕ) :
    overwrite (bytes ++ rest) mem (bytes.length + k) = overwrite rest (fun k => mem (bytes.length + k)) k := by
  rw [overwrite, overwrite, List.getD_append_right _ _ _ _ (Nat.le_add_right _ _), Nat.add_sub_cancel_left]

theorem loadDouble_congr {data data' : Buf} {i : ℕ} (h : ∀ k < 8, data (8 * i + k) = data' (8 * i + k)) :
    loadDouble data i = loadDouble data' i := by
  rw [loadDouble, loadDouble, loadLE_congr h]

theorem loadDouble_put (v : Int64) (rest : List UInt8) (mem : Buf) :
    loadDouble (overwrite (Wire.int64.put v ++ rest) mem) 0 = v := by
  have hput : ∀ k < 8, overwrite (Wire.int64.put v ++ rest) mem (8 * 0 + k) =
      (Wire.putLE 8 v.toUInt64.toNat).getD k 0 := by
    intro k hk
    rw [Nat.mul_zero, Nat.zero_add]
    exact overwrite_append_left (hk.trans_eq (Wire.length_putLE 8 _).symm) mem fun _ => 0
  rw [loadDouble, loadLE_congr hput, loadLE_putLE 8 _ v.toUInt64.toNat_lt]
  exact (congrArg UInt64.toInt64 UInt64.ofNat_toNat).trans (Int64.toInt64_toUInt64 v)

/-- The value at a position of the buffer. -/
theorem loadDouble_overwrite (values : List Int64) : ∀ (mem : Buf) (i : ℕ) (hi : i < values.length),
    loadDouble (overwrite (values.flatMap Wire.int64.put) mem) i = values[i] := by
  induction values with
  | nil =>
      intro mem i hi
      exact absurd hi (Nat.not_lt_zero i)
  | cons v values ih =>
      intro mem i hi
      rw [List.flatMap_cons]
      cases i with
      | zero => exact loadDouble_put v _ mem
      | succ i =>
          have hlen : (Wire.int64.put v).length = 8 := Wire.length_putLE 8 _
          rw [List.getElem_cons_succ, ← ih (fun k => mem (8 + k)) i (Nat.lt_of_succ_lt_succ hi)]
          rw [loadDouble, loadDouble, loadLE_congr fun k _ => ?_]
          have hpos : 8 * (i + 1) + k = (Wire.int64.put v).length + (8 * i + k) := by
            rw [hlen]
            ring
          rw [hpos, overwrite_append_right, hlen]

/-! ### The answer -/

theorem opsLoop_eq {compute : Nat → Outcome} {value : Nat → Int64} (n : Nat)
    (h : ∀ i < n, compute i = .ofValue (value i)) :
    ∃ err, opsLoop compute n = some ((List.range n).map value, err) := by
  induction n with
  | zero => exact ⟨none, rfl⟩
  | succ n ih =>
      obtain ⟨err, hloop⟩ := ih fun i hi => h i (Nat.lt_succ_of_lt hi)
      refine ⟨some 0, ?_⟩
      rw [opsLoop, hloop, h n (Nat.lt_succ_self n), List.range_succ, List.map_append]
      rfl

/-- The values of a sound expression of reals. -/
theorem doOpsRpc_real {dbl : Doubles} {expr : DsDataExpr ObjData} (htype : expr.type = .real)
    (hsound : ∀ i < expr.size.toNat / 8, expr.Sound dbl i) :
    ∃ answers, doOpsRpc dbl expr true true = some (answers, some (.reals
      ((List.range (expr.size.toNat / 8)).map fun i => expr.value dbl i))) := by
  have hcalc : ∀ i < expr.size.toNat / 8,
      dsOpCalcRval dbl inBuffer i expr = .ofValue (expr.value dbl i) := by
    intro i hi
    have hval := (calcVal_spec dbl i expr).1 (hsound i hi)
    rwa [calcVal, htype] at hval
  obtain ⟨err, hloop⟩ := opsLoop_eq _ hcalc
  refine ⟨[.success], ?_⟩
  rw [doOpsRpc, htype]
  simp only [hloop]
  rfl

/-- The client gets the memory of the server, whether it was compressed or not. -/
theorem opCalcReceive_doOpsReply {lz4 : Lz4} (hlz4 : lz4.Lawful) {size : UInt64} (hsize : size.toNat < 2 ^ 31)
    (buffer cbuf : Buf) : ∃ out, opCalcReceive lz4 size (doOpsReply lz4 size buffer) cbuf = some out ∧
      ∀ k < size.toNat, out k = buffer k := by
  have hfirst : ∀ k < size.toNat, overwrite (firstBytes buffer size.toNat) cbuf k = buffer k := by
    intro k hk
    rw [overwrite, List.getD_eq_getElem _ _ (by rwa [length_firstBytes])]
    simp [firstBytes]
  have hint := toInt_intOfSize hsize
  have hbounded := hlz4.bounded buffer (intOfSize size) (intOfSize size)
  have hinverse := hlz4.inverse buffer (intOfSize size) (intOfSize size) (intOfSize size)
  rw [hint, Int.toNat_natCast] at hbounded hinverse
  rw [doOpsReply]
  generalize lz4.compress buffer (intOfSize size) (intOfSize size) = cbuffer at hbounded hinverse ⊢
  by_cases hnil : cbuffer = []
  · refine ⟨_, ?_, hfirst⟩
    rw [hnil]
    rfl
  · refine ⟨_, ?_, hfirst⟩
    have hlen := csize_ne_zero hbounded hsize hnil
    simp only [if_neg fun h => hnil ((csize_eq_zero hbounded hsize).1 h)]
    rw [opCalcReceive, if_pos hlen, intOfSize_sizeOfInt, hinverse hnil (Int32.le_refl _), Option.map_some]

/-! ## The client gets the values of the calls -/

theorem dimsProd_sides {bb : BBox} (h : bb.Valid) (hcard : bb.cells.card < 2 ^ 64) :
    dimsProd bb.sides = bb.cells.card := by
  have hside : ∀ i ∈ List.range bb.numDims, (coordDist bb.lb bb.ub i).toNat = bb.side i := by
    intro i hi
    have hi := List.mem_range.1 hi
    rw [toNat_coordDist (Nat.le_succ_of_le (UInt64.le_iff_toNat_le.1 (h.le i hi)))]
    exact UInt64.toNat_ofNat_of_lt' ((h.side_le_card hi).trans_lt hcard)
  have hmap := congrArg List.prod (List.map_congr_left hside)
  rw [dimsProd, BBox.sides, List.map_map, BBox.card_cells h.dims.2]
  refine hmap.trans ?_
  rw [← List.prod_toFinset bb.side List.nodup_range, List.toFinset_range]

/-- Every position of the array is that of a cell. -/
theorem BBox.exists_offset {bb : BBox} (hdims : bb.numDims ≤ BBOX_MAX_NDIM) {i : ℕ}
    (hi : i < bb.cells.card) : ∃ x ∈ bb.cells, bb.offset x = i := by
  have hsub : bb.cells.image bb.offset ⊆ Finset.range bb.cells.card := by
    intro k hk
    obtain ⟨x, hx, rfl⟩ := Finset.mem_image.1 hk
    exact Finset.mem_range.2 (BBox.offset_lt_card hdims hx)
  have hcard : (bb.cells.image bb.offset).card = bb.cells.card :=
    Finset.card_image_of_injOn fun x hx y hy h => BBox.offset_inj hdims hx hy h
  have heq := Finset.eq_of_subset_of_card_le hsub (by rw [hcard, Finset.card_range])
  exact Finset.mem_image.1 (heq ▸ Finset.mem_range.2 hi)

theorem OpTerm.Fits.oneArgOk {t : OpTerm} (h : t.Fits) : t.OneArgOk := by
  induction t with
  | obj => trivial
  | iconst => trivial
  | oneArg op expr1 ih => exact ⟨h.1, ih h.2⟩
  | twoArg op expr1 expr2 ih1 ih2 => exact ⟨ih1 h.1, ih2 h.2⟩

/-- The double that is stored for a cell. -/
def storedDouble (ls : SsStorage) (odsc : ObjDesc) (x : Cell) : Int64 :=
  match ls.lsFind odsc with
  | some src => loadDouble src.data (src.objDesc.bb.offset x)
  | none => 0

/-- The copy is as large as the object of the leaf. -/
theorem Bound.toNat_objDataSize {ls : SsStorage} {od od' : ObjData} (h : Bound ls od od')
    (hv : od.objDesc.bb.Valid) (hbytes : od.objDesc.bb.cells.card * od.objDesc.size.toNat < 2 ^ 64) :
    (objDataSize od'.objDesc).toNat = od.objDesc.bb.cells.card * od.objDesc.size.toNat := by
  have hcells := cells_eq_of_bboxEquals h.same.bb
  rw [hcells, h.same.size] at hbytes ⊢
  exact DataSpaces.toNat_objDataSize (hv.of_bboxEquals (bboxEquals_symm h.same.bb)) hbytes

theorem Bound.loadDouble_eq {ls : SsStorage} {od od' : ObjData} (h : Bound ls od od')
    (hsize : od.objDesc.size = 8) {x : Cell} (hx : x ∈ od.objDesc.bb.cells) :
    loadDouble od'.data (od.objDesc.bb.offset x) = storedDouble ls od.objDesc x := by
  obtain ⟨src, hfind, -, hbytes⟩ := h.data
  rw [hsize] at hbytes
  simp only [storedDouble, hfind, loadDouble]
  refine congrArg Int64.ofNat (loadLE_congr fun k hk => ?_)
  rw [Nat.mul_comm 8 (od.objDesc.bb.offset x), Nat.mul_comm 8 (src.objDesc.bb.offset x)]
  exact hbytes x hx k hk

section Client

variable {α : Type} {hg : HgProc α} {lz4 : Lz4} {dbl : Doubles} {view : α → ObjData} {unset : ObjData}
  {hilbertC2i : HilbertC2i} {uninit : Nat → Unwritten} {conf : Conf} {self : Nat} {malloced : Nat → Buf}
  {fill : CStr → UInt32 → UInt64 → BBox → GlobalDimension → α} {getGdim : CStr → GlobalDimension}
  {t : OpTerm} {expr : DsDataExpr α} {g : Group} {bb : BBox}

/-- What the leaves of the calls are once the server has put the stored data into them. -/
theorem exists_bindObjs_of_build {e : DsDataExpr ObjData} (hbuild : t.build (newOpObj unset) getGdim = some e)
    (hfits : t.Fits) (hint : t.hasObj .int = false) (hbox : t.SameBox bb)
    (hstored : ∀ leaf ∈ t.leaves, ∃ src, StoredFor (g.server self).ls (leafDesc unset.objDesc bb leaf) src ∧
      TenAligned (leafDesc unset.objDesc bb leaf) src)
    (hone : ∀ leaf ∈ t.leaves, ∀ leaf' ∈ t.leaves, leaf.1 = leaf'.1 → leaf = leaf')
    (hsmall : bb.cells.card * 8 < 2 ^ 31) :
    ∃ r f, bindObjs hilbertC2i uninit conf self malloced g e = some r ∧ r.2 = e.map f ∧
      ∀ od ∈ e.objs, Bound (g.server self).ls od (f od) ∧
        od.objDesc = leafDesc unset.objDesc bb (od.objDesc.name, od.objDesc.version) := by
  have hdescs := objDesc_of_build t e hbuild hfits hint hbox
  have hleaf : ∀ od ∈ e.objs, ∃ leaf ∈ t.leaves, leafDesc unset.objDesc bb leaf = od.objDesc :=
    fun od hod => List.mem_map.1 (hdescs ▸ List.mem_map_of_mem hod)
  have hfound : ∀ od ∈ e.objs, ∃ src, StoredFor (g.server self).ls od.objDesc src ∧
      TenAligned od.objDesc src := by
    intro od hod
    obtain ⟨leaf, hmem, hdesc⟩ := hleaf od hod
    rw [← hdesc]
    exact hstored leaf hmem
  -- one version of each name: leaves of one name have one descriptor
  have hsame : OneObjPerName e := by
    intro od hod od' hod' hname
    obtain ⟨leaf, hmem, hdesc⟩ := hleaf od hod
    obtain ⟨leaf', hmem', hdesc'⟩ := hleaf od' hod'
    rw [← hdesc, ← hdesc'] at hname ⊢
    rw [hone leaf hmem leaf' hmem' hname]
    exact ⟨rfl, rfl, bboxEquals_refl _⟩
  have hleaves : SmallLeaves e := by
    intro od hod
    obtain ⟨leaf, -, hdesc⟩ := hleaf od hod
    rw [← hdesc]
    exact hsmall
  obtain ⟨r, f, hbind, hf, hbound⟩ := @exists_bindObjs hilbertC2i uninit conf self malloced g e
    (shaped_of_build t hfits e hbuild) hfound hsame hleaves
  refine ⟨r, f, hbind, hf, fun od hod => ⟨hbound od hod, ?_⟩⟩
  obtain ⟨leaf, -, hdesc⟩ := hleaf od hod
  rw [← hdesc]
  rfl

/-- The client calls for an expression with variables of reals in one box, which the server stores, one version
of each name; the constants have at most 32 bits.  Then `dspaces_op_calc` returns for each cell of the box the
value that the calls stand for, with the stored doubles of the cell for the variables. -/
theorem dspacesOpCalc_meaning (hbuild : t.build fill getGdim = some expr)
    (hview : t.build (newOpObj unset) getGdim = some (expr.map view)) (hfits : t.Fits)
    (hint : t.hasObj .int = false) (hreal : t.hasObj .real = true) (hbox : t.SameBox bb) (hbb : bb.Valid)
    (hsmall : bb.cells.card * 8 < 2 ^ 31)
    (hstored : ∀ leaf ∈ t.leaves, ∃ src, StoredFor (g.server self).ls (leafDesc unset.objDesc bb leaf) src ∧
      TenAligned (leafDesc unset.objDesc bb leaf) src)
    (hone : ∀ leaf ∈ t.leaves, ∀ leaf' ∈ t.leaves, leaf.1 = leaf'.1 → leaf = leaf')
    (hdiv : ∀ x ∈ bb.cells, t.Divides dbl fun leaf =>
      storedDouble (g.server self).ls (leafDesc unset.objDesc bb leaf) x)
    (hlz4 : lz4.Lawful) {depth : Nat} (hdepth : t.depth ≤ depth) (cbuf buffer : Buf) :
    ∃ out, dspacesOpCalc hg lz4 dbl view hilbertC2i uninit conf self malloced depth g expr cbuf buffer =
        some out ∧
      ∀ x ∈ bb.cells, loadDouble out (bb.offset x) = t.meaning dbl fun leaf =>
        storedDouble (g.server self).ls (leafDesc unset.objDesc bb leaf) x := by
  have hcard : 0 < bb.cells.card := Finset.card_pos.2 hbb.cells_nonempty
  have hdims : dimsProd bb.sides = bb.cells.card := dimsProd_sides hbb (by omega)
  obtain ⟨r, f, hbind, hf, hleaves⟩ := @exists_bindObjs_of_build unset hilbertC2i uninit conf self malloced
    getGdim t g bb _ hview hfits hint hbox hstored hone hsmall
  have hcarries := carries_of_build (by rw [hdims]; omega) t _ hview hbox hfits.oneArgOk
  have htype : ((expr.map view).map f).type = .real := by
    rw [DsDataExpr.type_map, hcarries.type, if_pos (Or.inr hreal)]
  have hsize : expr.size.toNat = 8 * bb.cells.card := by
    have hbytes := hcarries.size
    rw [DsDataExpr.size_map, OpTerm.bytes, hint, hreal, hdims] at hbytes
    rw [hbytes]
    cases t.hasConst
    · simp
    · simp only [cond_true, cond_false]
      omega
  -- at each cell the tree is sound and has the value of the calls
  have hvalue : ∀ x ∈ bb.cells, ((expr.map view).map f).Sound dbl (bb.offset x) ∧
      ((expr.map view).map f).value dbl (bb.offset x) = t.meaning dbl fun leaf =>
        storedDouble (g.server self).ls (leafDesc unset.objDesc bb leaf) x := by
    intro x hx
    refine value_of_build t _ hview hfits hint (fun od hod => ?_) (hdiv x hx)
    obtain ⟨hbound, hdesc⟩ := hleaves od hod
    have hbox : od.objDesc.bb = bb := by rw [hdesc]; rfl
    have helem : od.objDesc.size = 8 := by rw [hdesc]; rfl
    constructor
    · have hload := hbound.loadDouble_eq helem (hbox ▸ hx)
      rwa [hbox, hdesc] at hload
    · have hoff := BBox.offset_lt_card hbb.dims.2 hx
      have hlen := hbound.toNat_objDataSize (hbox ▸ hbb) (by rw [hbox, helem]; change _ * 8 < _; omega)
      rw [hlen, hbox, helem]
      change 8 * bb.offset x + 8 ≤ bb.cells.card * 8
      omega
  have hturns : ((expr.map view).map f).size.toNat / 8 = bb.cells.card := by
    rw [DsDataExpr.size_map, DsDataExpr.size_map, hsize, Nat.mul_div_cancel_left _ (by decide)]
  have hsound : ∀ i < ((expr.map view).map f).size.toNat / 8, ((expr.map view).map f).Sound dbl i := by
    intro i hi
    obtain ⟨x, hx, rfl⟩ := BBox.exists_offset hbb.dims.2 (hturns ▸ hi)
    exact (hvalue x hx).1
  obtain ⟨answers, hrpc⟩ := doOpsRpc_real htype hsound
  rw [hturns] at hrpc
  -- the tree arrives as it was sent
  obtain ⟨bytes, hencode, hdecode⟩ : ∃ bytes, hg.encode expr = some (.success, bytes) ∧
      hg.decode depth bytes = some (.success, expr, []) := by
    cases sent_of_build hg t expr hbuild with
    | undefined _ hnot => exact absurd hfits hnot
    | read status status' bytes expr' hencode hdecode hsame hok =>
        obtain ⟨rfl, rfl⟩ := hok hfits
        have hread := hdecode depth hdepth []
        rw [List.append_nil, hsame.2 hfits] at hread
        exact ⟨bytes, hencode, hread⟩
  have hlt : expr.size.toNat < 2 ^ 31 := by omega
  obtain ⟨out, hreceive, hout⟩ := opCalcReceive_doOpsReply hlz4 hlt
    (overwrite (OpsBuffer.reals ((List.range bb.cells.card).map fun i =>
      ((expr.map view).map f).value dbl i)).bytes buffer) cbuf
  refine ⟨out, ?_, fun x hx => ?_⟩
  · rw [dspacesOpCalc, hencode]
    simp only [Option.bind_eq_bind, Option.bind_some, if_true, hdecode, hbind, hf, hrpc, DsDataExpr.size_map]
    exact hreceive
  · have hoff := BBox.offset_lt_card hbb.dims.2 hx
    rw [loadDouble_congr fun k _ => hout _ (by omega), OpsBuffer.bytes,
      loadDouble_overwrite _ _ _ (by rwa [List.length_map, List.length_range])]
    rw [List.getElem_map, List.getElem_range]
    exact (hvalue x hx).2

end Client

/-! ### `1 - arctan a` in two cells -/

def twoCells : BBox :=
  OpTerm.leafBox 1 (Coord.ofFn fun _ => 0) (Coord.ofFn fun _ => 1)

def oneMinusArctan : OpTerm :=
  .twoArg .sub (.iconst 1)
    (.oneArg .arctan (.obj [97] 0 .real 1 (Coord.ofFn fun _ => 0) (Coord.ofFn fun _ => 1)))

/-- A record of `plainFill` for the variable `a`. -/
def plainView (block : Wire.Block 8) : ObjData :=
  newOpObj emptyObj [97] (UInt32.ofNat ((Wire.getLE 4 block.1).elim 0 Prod.fst)) 8 twoCells (plainGdim [97])

def aStored : ObjData :=
  ⟨leafDesc emptyObj.objDesc twoCells ([97], 0), plainGdim [97], fun k => UInt8.ofNat (63 + k)⟩

/-- Every server stores `a`. -/
def calcGroup : Group where
  server rank :=
    { (Group.init lineConf fun _ => lineSpaceV2).server rank with ls := (lsAlloc 2).lsAddObj aStored }
  net := []

theorem dspacesOpCalc_meaning_arctan : ∃ expr, oneMinusArctan.build plainFill plainGdim = some expr ∧
    ∀ dbl cbuf buffer, ∃ out, dspacesOpCalc plainProc Lz4.incompressible dbl plainView lineC2i zeroed lineConf 0
      (fun _ _ => 0) 3 calcGroup expr cbuf buffer = some out ∧
        ∀ x ∈ twoCells.cells, loadDouble out (twoCells.offset x) =
          dbl.sub (dbl.ofLong 1) (dbl.atan (storedDouble (calcGroup.server 0).ls aStored.objDesc x)) := by
  have hview : oneMinusArctan.build (newOpObj emptyObj) plainGdim =
      (oneMinusArctan.build plainFill plainGdim).map (DsDataExpr.map plainView) := rfl
  obtain ⟨expr, hbuild⟩ := Option.isSome_iff_exists.1
    (by decide : (oneMinusArctan.build plainFill plainGdim).isSome = true)
  rw [hbuild, Option.map_some] at hview
  have hvalid : twoCells.Valid := ⟨⟨by decide, by decide⟩, by decide⟩
  have hcard : twoCells.cells.card = 2 := by
    rw [BBox.card_cells hvalid.dims.2]
    rfl
  have hmem : twoCells.InMemory 8 := ⟨hvalid, by rw [hcard]; decide, fun h => absurd h (by decide)⟩
  have hleaf : ∀ leaf ∈ oneMinusArctan.leaves, leaf = ([97], 0) := by
    intro leaf hleaf
    exact List.mem_singleton.1 hleaf
  have hone : -2 ^ 31 ≤ (1 : Int64).toInt ∧ (1 : Int64).toInt < 2 ^ 31 := by
    decide
  have hsmall : twoCells.cells.card * 8 < 2 ^ 31 := by
    rw [hcard]
    decide
  refine ⟨expr, hbuild, fun dbl cbuf buffer => ?_⟩
  refine dspacesOpCalc_meaning hbuild hview ⟨hone, rfl, trivial⟩ rfl rfl ⟨trivial, rfl⟩ hvalid hsmall
    (fun leaf h => ?_) (fun leaf h leaf' h' _ => ?_)
    (fun _ _ => ⟨trivial, trivial, fun h => nomatch h⟩)
    ⟨fun _ _ _ => Nat.zero_le _, fun _ _ _ _ hne => absurd rfl hne⟩ (by decide) cbuf buffer
  · rw [hleaf leaf h]
    exact ⟨aStored, ⟨rfl, rfl, rfl, fun _ hx => hx, hmem, hmem⟩, fun h => absurd h (by decide)⟩
  · rw [hleaf leaf h, hleaf leaf' h']

end DataSpaces
