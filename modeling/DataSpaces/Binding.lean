import DataSpaces.Fetch
import DataSpaces.Ops
import DataSpaces.Query

/-!
# Binding — the data of the variables of an expression (`do_ops_rpc`)

Before it computes an expression a server collects the objects of its leaves (`gather_op_ods`), looks each
one up in its storage, copies the part that is asked for, and puts the copy into the leaves
(`update_expr_objs`).  Both passes tell objects apart by their names only.
-/

namespace DataSpaces

/-! ## The passes over the tree -/

/-- `gather_op_ods`.  It is `none` when it reads a subexpression or an object that is not there. -/
def gatherOpOds : DsDataExpr ObjData → List ObjData → Option (List ObjData)
  | .obj _ _ exprOd, exprOdl =>
      -- only the names are compared
      some (if exprOdl.any fun od => od.objDesc.name == exprOd.objDesc.name then exprOdl
        else exprOd :: exprOdl)
  | .iconst .., exprOdl => some exprOdl
  | .rconst .., exprOdl => some exprOdl
  | .node op _ _ subExpr, exprOdl =>
      match op, subExpr with
      | .add, expr0 :: expr1 :: _ | .sub, expr0 :: expr1 :: _ | .mult, expr0 :: expr1 :: _
      | .div, expr0 :: expr1 :: _ | .pow, expr0 :: expr1 :: _ =>
          (gatherOpOds expr0 exprOdl).bind (gatherOpOds expr1)
      | .arctan, expr0 :: _ => gatherOpOds expr0 exprOdl
      | .iconst, _ | .rconst, _ | .other _, _ => some exprOdl
      | _, _ => none

/-- `update_expr_objs`. -/
def updateExprObjs : DsDataExpr ObjData → ObjData → Option (DsDataExpr ObjData)
  | .obj type size exprOd, od =>
      -- again only the names: every leaf of the name gets this object
      some (.obj type size (if od.objDesc.name = exprOd.objDesc.name then od else exprOd))
  | .iconst type size ival, _ => some (.iconst type size ival)
  | .rconst type size rval, _ => some (.rconst type size rval)
  | .node op type size subExpr, od =>
      match op, subExpr with
      | .add, expr0 :: expr1 :: rest | .sub, expr0 :: expr1 :: rest | .mult, expr0 :: expr1 :: rest
      | .div, expr0 :: expr1 :: rest | .pow, expr0 :: expr1 :: rest =>
          (updateExprObjs expr0 od).bind fun expr0 => (updateExprObjs expr1 od).map fun expr1 =>
            .node op type size (expr0 :: expr1 :: rest)
      | .arctan, expr0 :: rest =>
          (updateExprObjs expr0 od).map fun expr0 => .node op type size (expr0 :: rest)
      | .iconst, _ | .rconst, _ | .other _, _ => some (.node op type size subExpr)
      | _, _ => none

section DoOps

variable (hilbertC2i : HilbertC2i) (uninit : Nat → Unwritten) (conf : Conf) (self : Nat) (malloced : Nat → Buf)

/-- `stage_od`: the object in the storage of the server, or what the proxy storage has after a query.  The
timeout that the other servers get is not set in the source; here it is that of the query. -/
def stageOd (g : Group) (od : ObjData) : Option (ObjData × Group) :=
  match (g.server self).ls.lsFind od.objDesc with
  | some stageOd => some (stageOd, g)
  | none =>
      (getQueryOdscs hilbertC2i uninit conf g self od.objDesc od.gdim (-1)).bind fun r =>
        ((r.2.server self).ps.lsFind od.objDesc).map fun stageOd => (stageOd, r.2)

/-- The loop of `do_ops_rpc` over the collected objects. -/
def bindLoop : List ObjData → Nat → Group → DsDataExpr ObjData → Option (Group × DsDataExpr ObjData)
  | [], _, g, expr => some (g, expr)
  | od :: odl, i, g, expr =>
      (objDataAlloc od.objDesc (malloced i)).bind fun resOd =>
        (stageOd hilbertC2i uninit conf self g od).bind fun r =>
          (ssdCopy resOd r.1).bind fun res =>
            (updateExprObjs expr res.1).bind (bindLoop odl (i + 1) r.2)

/-- The part of `do_ops_rpc` before the computation: the expression with its data. -/
def bindObjs (g : Group) (expr : DsDataExpr ObjData) : Option (Group × DsDataExpr ObjData) :=
  (gatherOpOds expr []).bind fun odl => bindLoop hilbertC2i uninit conf self malloced odl 0 g expr

end DoOps

/-! ## Trees whose operators have their arguments -/

namespace DsDataExpr

variable {α : Type}

/-- Every operator has the arguments that it needs. -/
inductive Shaped : DsDataExpr α → Prop
  | obj (type : DsVal) (size : UInt64) (od : α) : Shaped (.obj type size od)
  | iconst (type : DsVal) (size : UInt64) (ival : Int64) : Shaped (.iconst type size ival)
  | rconst (type : DsVal) (size : UInt64) (rval : Int64) : Shaped (.rconst type size rval)
  | arctan (type : DsVal) (size : UInt64) {expr0 : DsDataExpr α} (h0 : Shaped expr0) :
      Shaped (.node .arctan type size [expr0])
  | binary {op : DsOp} (hop : op.isBinary = true) (type : DsVal) (size : UInt64)
      {expr0 expr1 : DsDataExpr α} (h0 : Shaped expr0) (h1 : Shaped expr1) :
      Shaped (.node op type size [expr0, expr1])

/-- The objects of the leaves, from left to right. -/
def objs : DsDataExpr α → List α
  | .obj _ _ od => [od]
  | .iconst .. | .rconst .. => []
  | .node _ _ _ [expr0] => expr0.objs
  | .node _ _ _ [expr0, expr1] => expr0.objs ++ expr1.objs
  | .node .. => []

end DsDataExpr

/-- What the constructors build is such a tree, if they are not called with a wrong operator. -/
theorem shaped_of_build {α : Type} {fill : CStr → UInt32 → UInt64 → BBox → GlobalDimension → α}
    {getGdim : CStr → GlobalDimension} (t : OpTerm) (hfits : t.Fits) :
    ∀ expr, t.build fill getGdim = some expr → expr.Shaped := by
  induction t with
  | obj varName ver type ndim lb ub =>
      intro expr hbuild
      rcases exists_of_dspacesOpNewObj hbuild with ⟨size, od, rfl⟩
      exact .obj type size od
  | iconst val =>
      intro expr hbuild
      cases hbuild
      exact .iconst _ _ _
  | oneArg op expr1 ih =>
      intro expr hbuild
      rcases Option.bind_eq_some_iff.1 hbuild with ⟨e1, he1, hbuild⟩
      cases hbuild
      rcases hfits with ⟨rfl, hfits⟩
      exact .arctan _ _ (ih hfits e1 he1)
  | twoArg op expr1 expr2 ih1 ih2 =>
      intro expr hbuild
      rcases Option.bind_eq_some_iff.1 hbuild with ⟨e1, he1, hbuild⟩
      rcases Option.bind_eq_some_iff.1 hbuild with ⟨e2, he2, hbuild⟩
      -- a wrong operator makes no expression
      rw [dspacesOpNew2arg] at hbuild
      split at hbuild
      · next hop =>
          cases hbuild
          exact .binary hop _ _ (ih1 hfits.1 e1 he1) (ih2 hfits.2 e2 he2)
      · cases hbuild

section Passes

variable {expr : DsDataExpr ObjData}

theorem updateExprObjs_arctan {type : DsVal} {size : UInt64} {expr0 : DsDataExpr ObjData} {od : ObjData} :
    updateExprObjs (.node .arctan type size [expr0]) od =
      (updateExprObjs expr0 od).map fun expr0 => .node .arctan type size [expr0] :=
  rfl

theorem updateExprObjs_binary {op : DsOp} (hop : op.isBinary = true) {type : DsVal} {size : UInt64}
    {expr0 expr1 : DsDataExpr ObjData} {od : ObjData} :
    updateExprObjs (.node op type size [expr0, expr1]) od =
      (updateExprObjs expr0 od).bind fun expr0 => (updateExprObjs expr1 od).map fun expr1 =>
        .node op type size [expr0, expr1] := by
  cases op with
  | add | sub | mult | div | pow => rfl
  | obj | iconst | rconst | arctan | other => cases hop

theorem gatherOpOds_obj {type : DsVal} {size : UInt64} {exprOd : ObjData} {exprOdl : List ObjData} :
    gatherOpOds (.obj type size exprOd) exprOdl =
      some (if exprOdl.any fun od => od.objDesc.name == exprOd.objDesc.name then exprOdl
        else exprOd :: exprOdl) :=
  rfl

theorem gatherOpOds_binary {op : DsOp} (hop : op.isBinary = true) {type : DsVal} {size : UInt64}
    {expr0 expr1 : DsDataExpr ObjData} {exprOdl : List ObjData} :
    gatherOpOds (.node op type size [expr0, expr1]) exprOdl =
      (gatherOpOds expr0 exprOdl).bind (gatherOpOds expr1) := by
  cases op with
  | add | sub | mult | div | pow => rfl
  | obj | iconst | rconst | arctan | other => cases hop

/-- The object replaces all objects of its name. -/
theorem updateExprObjs_spec (h : expr.Shaped) (od : ObjData) :
    ∃ expr', updateExprObjs expr od = some expr' ∧ expr'.Shaped ∧
      expr'.objs = expr.objs.map fun o => if od.objDesc.name = o.objDesc.name then od else o := by
  induction h with
  | obj type size exprOd => exact ⟨_, rfl, .obj _ _ _, rfl⟩
  | iconst type size ival => exact ⟨_, rfl, .iconst _ _ _, rfl⟩
  | rconst type size rval => exact ⟨_, rfl, .rconst _ _ _, rfl⟩
  | arctan type size h0 ih =>
      rcases ih with ⟨expr0', hupd, hshaped, hobjs⟩
      refine ⟨.node .arctan type size [expr0'], ?_, .arctan _ _ hshaped, hobjs⟩
      rw [updateExprObjs_arctan, hupd]
      rfl
  | binary hop type size h0 h1 ih0 ih1 =>
      rcases ih0 with ⟨expr0', hupd0, hshaped0, hobjs0⟩
      rcases ih1 with ⟨expr1', hupd1, hshaped1, hobjs1⟩
      refine ⟨.node _ type size [expr0', expr1'], ?_, .binary hop _ _ hshaped0 hshaped1, ?_⟩
      · rw [updateExprObjs_binary hop, hupd0, hupd1]
        rfl
      · simp only [DsDataExpr.objs, hobjs0, hobjs1, List.map_append]

/-- The collected objects: one of each name. -/
structure Gathered (expr : DsDataExpr ObjData) (exprOdl odl : List ObjData) : Prop where
  keeps : ∀ od ∈ exprOdl, od ∈ odl
  source : ∀ od ∈ odl, od ∈ exprOdl ∨ od ∈ expr.objs
  named : ∀ od ∈ expr.objs, ∃ od' ∈ odl, od'.objDesc.name = od.objDesc.name
  nodup : (exprOdl.map fun od => od.objDesc.name).Nodup → (odl.map fun od => od.objDesc.name).Nodup

theorem gatherOpOds_spec (h : expr.Shaped) :
    ∀ exprOdl, ∃ odl, gatherOpOds expr exprOdl = some odl ∧ Gathered expr exprOdl odl := by
  induction h with
  | obj type size exprOd =>
      intro exprOdl
      by_cases hfound : (exprOdl.any fun od => od.objDesc.name == exprOd.objDesc.name) = true
      · -- an object of this name was collected before
        refine ⟨exprOdl, by rw [gatherOpOds_obj, if_pos hfound], fun _ h => h, fun _ h => Or.inl h, ?_,
          fun h => h⟩
        rcases List.any_eq_true.1 hfound with ⟨od', hod', hname⟩
        intro od hod
        rw [List.mem_singleton.1 hod]
        exact ⟨od', hod', by simpa using hname⟩
      · refine ⟨exprOd :: exprOdl, by rw [gatherOpOds_obj, if_neg hfound],
          fun _ h => List.mem_cons_of_mem _ h,
          fun od hod => ?_, fun od hod => ?_, fun hnodup => ?_⟩
        · rcases List.mem_cons.1 hod with rfl | hod
          · exact Or.inr (List.mem_singleton_self _)
          · exact Or.inl hod
        · exact ⟨od, by rw [List.mem_singleton.1 hod]; exact List.mem_cons_self, rfl⟩
        · rw [List.map_cons, List.nodup_cons]
          refine ⟨fun hin => hfound ?_, hnodup⟩
          rcases List.mem_map.1 hin with ⟨od', hod', hname⟩
          exact List.any_eq_true.2 ⟨od', hod', by simpa using hname⟩
  | iconst type size ival =>
      intro exprOdl
      exact ⟨exprOdl, rfl, fun _ h => h, fun _ h => Or.inl h, by simp [DsDataExpr.objs], fun h => h⟩
  | rconst type size rval =>
      intro exprOdl
      exact ⟨exprOdl, rfl, fun _ h => h, fun _ h => Or.inl h, by simp [DsDataExpr.objs], fun h => h⟩
  | arctan type size h0 ih =>
      intro exprOdl
      rcases ih exprOdl with ⟨odl, hgather, hspec⟩
      exact ⟨odl, hgather, hspec.keeps, hspec.source, hspec.named, hspec.nodup⟩
  | binary hop type size h0 h1 ih0 ih1 =>
      intro exprOdl
      -- the second operand starts from what the first one collected
      rcases ih0 exprOdl with ⟨odl0, hgather0, hspec0⟩
      rcases ih1 odl0 with ⟨odl1, hgather1, hspec1⟩
      refine ⟨odl1, by rw [gatherOpOds_binary hop, hgather0]; exact hgather1,
        fun od hod => hspec1.keeps od (hspec0.keeps od hod), fun od hod => ?_, fun od hod => ?_,
        fun hnodup => hspec1.nodup (hspec0.nodup hnodup)⟩
      · rcases hspec1.source od hod with hod | hod
        · rcases hspec0.source od hod with hod | hod
          · exact Or.inl hod
          · exact Or.inr (List.mem_append_left _ hod)
        · exact Or.inr (List.mem_append_right _ hod)
      · rcases List.mem_append.1 hod with hod | hod
        · rcases hspec0.named od hod with ⟨od', hod', hname⟩
          exact ⟨od', hspec1.keeps od' hod', hname⟩
        · exact hspec1.named od hod

end Passes

/-! ## The loop -/

/-- An object whose data was copied for the object `od`. -/
def CopiedFor (ls : SsStorage) (od res : ObjData) : Prop :=
  ∃ src m resOd n, ls.lsFind od.objDesc = some src ∧ objDataAlloc od.objDesc m = some resOd ∧
    ssdCopy resOd src = some (res, n)

/-- What identifies the object of a leaf. -/
structure SameObj (odsc odsc' : ObjDesc) : Prop where
  version : odsc.version = odsc'.version
  size : odsc.size = odsc'.size
  bb : bboxEquals odsc.bb odsc'.bb = true

/-- A copy keeps the descriptor up to the tag and the type. -/
theorem CopiedFor.sameObj {ls : SsStorage} {od res : ObjData} (h : CopiedFor ls od res) :
    res.objDesc.name = od.objDesc.name ∧ SameObj od.objDesc res.objDesc := by
  rcases h with ⟨src, m, resOd, n, -, halloc, hcopy⟩
  rw [(objDataAlloc_some halloc).1] at hcopy
  rcases Option.map_eq_some_iff.1 hcopy with ⟨s, -, heq⟩
  cases heq
  exact ⟨rfl, rfl, rfl, bboxEquals_refl _⟩

section Loop

variable {hilbertC2i : HilbertC2i} {uninit : Nat → Unwritten} {conf : Conf} {self : Nat} {malloced : Nat → Buf}
  {g : Group}

/-- The leaves after the loop: those with the name of a collected object have the copy for it. -/
theorem bindLoop_spec (odl : List ObjData) :
    ∀ (i : Nat) (expr : DsDataExpr ObjData) (r : Group × DsDataExpr ObjData), expr.Shaped →
      (odl.map fun od => od.objDesc.name).Nodup →
      (∀ od ∈ odl, ∃ src, (g.server self).ls.lsFind od.objDesc = some src) →
      bindLoop hilbertC2i uninit conf self malloced odl i g expr = some r →
      ∃ f : ObjData → ObjData, r.2.objs = expr.objs.map f ∧
        (∀ o, (∀ od ∈ odl, od.objDesc.name ≠ o.objDesc.name) → f o = o) ∧
        ∀ o, ∀ od ∈ odl, od.objDesc.name = o.objDesc.name → CopiedFor (g.server self).ls od (f o) := by
  induction odl with
  | nil =>
      intro i expr r _ _ _ hloop
      cases hloop
      exact ⟨id, (List.map_id _).symm, fun _ _ => rfl, by simp⟩
  | cons od odl ih =>
      intro i expr r hshaped hnodup hstored hloop
      rw [List.map_cons, List.nodup_cons] at hnodup
      rcases hstored od List.mem_cons_self with ⟨src, hfind⟩
      -- the object is in the local storage, so that nothing is fetched
      have hstage : stageOd hilbertC2i uninit conf self g od = some (src, g) := by
        rw [stageOd, hfind]
      rw [bindLoop, hstage] at hloop
      rcases Option.bind_eq_some_iff.1 hloop with ⟨resOd, halloc, hloop⟩
      rw [Option.bind_some] at hloop
      rcases Option.bind_eq_some_iff.1 hloop with ⟨⟨res, n⟩, hcopy, hloop⟩
      rcases updateExprObjs_spec hshaped res with ⟨expr', hupd, hshaped', hobjs'⟩
      rw [hupd, Option.bind_some] at hloop
      rcases ih (i + 1) expr' r hshaped' hnodup.2 (fun od' hod' => hstored od' (List.mem_cons_of_mem _ hod'))
        hloop with ⟨f, hobjs, hother, hcopied⟩
      have hres : CopiedFor (g.server self).ls od res :=
        ⟨src, malloced i, resOd, n, hfind, halloc, hcopy⟩
      have hname := hres.sameObj.1
      -- no later object has the name of this one
      have hlater : ∀ od' ∈ odl, od'.objDesc.name ≠ od.objDesc.name := by
        intro od' hod' heq
        exact hnodup.1 (List.mem_map.2 ⟨od', hod', heq⟩)
      refine ⟨fun o => f (if res.objDesc.name = o.objDesc.name then res else o), ?_, fun o ho => ?_,
        fun o od' hod' heq => ?_⟩
      · rw [hobjs, hobjs', List.map_map]
        rfl
      · have hne := ho od List.mem_cons_self
        simp only [hname, hne, if_false]
        exact hother o fun od' hod' => ho od' (List.mem_cons_of_mem _ hod')
      · rcases List.mem_cons.1 hod' with rfl | hod'
        · simp only [hname, heq, if_true]
          rw [hother res fun od'' hod'' => by rw [hname]; exact hlater od'' hod'']
          exact hres
        · have hne : od.objDesc.name ≠ o.objDesc.name := fun h => hlater od' hod' (heq.trans h.symm)
          simp only [hname, hne, if_false]
          exact hcopied o od' hod' heq

/-- The loop ends when every object can be copied. -/
theorem exists_bindLoop (odl : List ObjData) :
    ∀ (i : Nat) (expr : DsDataExpr ObjData), expr.Shaped →
      (∀ od ∈ odl, ∀ m, ∃ src resOd res n, (g.server self).ls.lsFind od.objDesc = some src ∧
        objDataAlloc od.objDesc m = some resOd ∧ ssdCopy resOd src = some (res, n)) →
      ∃ r, bindLoop hilbertC2i uninit conf self malloced odl i g expr = some r := by
  induction odl with
  | nil =>
      intro i expr _ _
      exact ⟨_, rfl⟩
  | cons od odl ih =>
      intro i expr hshaped hcopies
      rcases hcopies od List.mem_cons_self (malloced i) with
        ⟨src, resOd, res, n, hfind, halloc, hcopy⟩
      rcases updateExprObjs_spec hshaped res with ⟨expr', hupd, hshaped', -⟩
      rcases ih (i + 1) expr' hshaped' fun od' hod' => hcopies od' (List.mem_cons_of_mem _ hod') with
        ⟨r, hloop⟩
      have hstage : stageOd hilbertC2i uninit conf self g od = some (src, g) := by
        rw [stageOd, hfind]
      refine ⟨r, ?_⟩
      rw [bindLoop, halloc, Option.bind_some, hstage, Option.bind_some, hcopy, Option.bind_some, hupd]
      exact hloop

end Loop

/-! ## Every leaf has its own data -/

/-- The object of a leaf is stored: the object of its name and version that `ls_find` finds has elements of
the same size and covers it, and both can be addressed. -/
structure StoredFor (ls : SsStorage) (odsc : ObjDesc) (src : ObjData) : Prop where
  found : ls.lsFind odsc = some src
  size : odsc.size = src.objDesc.size
  dims : odsc.bb.numDims = src.objDesc.bb.numDims
  covers : odsc.bb.cells ⊆ src.objDesc.bb.cells
  inMemory : odsc.bb.InMemory odsc.size.toNat
  srcInMemory : src.objDesc.bb.InMemory odsc.size.toNat

/-- The leaf that had the object `od` has now an object of the same name, version, element size and box,
with the bytes of the stored object at every cell. -/
structure Bound (ls : SsStorage) (od od' : ObjData) : Prop where
  name : od'.objDesc.name = od.objDesc.name
  same : SameObj od.objDesc od'.objDesc
  data : ∃ src, ls.lsFind od.objDesc = some src ∧ src.objDesc.size = od.objDesc.size ∧
    HoldsBytes od.objDesc.bb od.objDesc.size.toNat
      (fun x k => src.data (src.objDesc.bb.offset x * od.objDesc.size.toNat + k)) od'.data

/-- All leaves of one name are for the same object. -/
def OneObjPerName (expr : DsDataExpr ObjData) : Prop :=
  ∀ od ∈ expr.objs, ∀ od' ∈ expr.objs, od.objDesc.name = od'.objDesc.name →
    SameObj od.objDesc od'.objDesc

theorem SameObj.symm {odsc odsc' : ObjDesc} (h : SameObj odsc odsc') : SameObj odsc' odsc :=
  ⟨h.version.symm, h.size.symm, bboxEquals_symm h.bb⟩

theorem SameObj.trans {odsc odsc' odsc'' : ObjDesc} (h : SameObj odsc odsc') (h' : SameObj odsc' odsc'') :
    SameObj odsc odsc'' :=
  ⟨h.version.trans h'.version, h.size.trans h'.size, bboxEquals_trans h.bb h'.bb⟩

theorem SameObj.lsFind_eq {odsc odsc' : ObjDesc} (h : SameObj odsc odsc') (hname : odsc.name = odsc'.name)
    (ls : SsStorage) : ls.lsFind odsc = ls.lsFind odsc' := by
  have hbin : ls.index odsc = ls.index odsc' := by
    rw [SsStorage.index, SsStorage.index, h.version]
  have hlike : ∀ o : ObjDesc, objDescEqualsIntersect odsc o = objDescEqualsIntersect odsc' o := by
    intro o
    rw [objDescEqualsIntersect, objDescEqualsIntersect, hname, h.version, bboxDoesIntersect_congr h.bb]
  simp only [SsStorage.lsFind, hbin, hlike]

section Data

variable {ls : SsStorage} {od res : ObjData} {src : ObjData}

/-- In ten dimensions `matrix_copy` needs the two boxes to start at the same place in the last one. -/
def TenAligned (odsc : ObjDesc) (src : ObjData) : Prop :=
  odsc.bb.numDims = 10 → odsc.bb.lb.c 9 = src.objDesc.bb.lb.c 9

theorem StoredFor.copy (h : StoredFor ls od.objDesc src) (hten : TenAligned od.objDesc src) (m : Buf) :
    ∃ res n, ssdCopy (objDataAllocNoData od.objDesc m) src = some (res, n) ∧
      HoldsBytes od.objDesc.bb od.objDesc.size.toNat
        (fun x k => src.data (src.objDesc.bb.offset x * od.objDesc.size.toNat + k)) res.data := by
  rcases h.inMemory.valid.cells_nonempty with ⟨x₀, hx₀⟩
  have hmeet : bboxDoesIntersect od.objDesc.bb src.objDesc.bb = true :=
    bboxDoesIntersect_of_mem h.dims h.inMemory.valid.dims hx₀ (h.covers hx₀)
  rcases ssdCopy_inMemory (objDataAllocNoData od.objDesc m) src h.inMemory h.srcInMemory h.dims hten hmeet with
    ⟨res, n, hcopy, hcopied⟩
  refine ⟨res, n, hcopy, fun x hx k hk => ?_⟩
  exact hcopied.inside x (Finset.mem_inter.2 ⟨hx, h.covers hx⟩) k hk

/-- A copy for the object of one leaf serves a leaf for the same object. -/
theorem CopiedFor.bound {od' : ObjData} (hcopied : CopiedFor ls od' res)
    (hname : od'.objDesc.name = od.objDesc.name) (hsame : SameObj od.objDesc od'.objDesc)
    (hstored : StoredFor ls od.objDesc src) (hstored' : StoredFor ls od'.objDesc src)
    (hten : TenAligned od'.objDesc src) : Bound ls od res := by
  rcases hcopied.sameObj with ⟨hres, hsameRes⟩
  refine ⟨hres.trans hname, hsame.trans hsameRes, src, hstored.found, hstored.size.symm, fun x hx k hk => ?_⟩
  rcases hcopied with ⟨src', m, resOd, n, hfind, halloc, hcopy⟩
  rw [(objDataAlloc_some halloc).1] at hcopy
  rw [hstored'.found, Option.some.injEq] at hfind
  subst hfind
  rcases hstored'.copy hten m with ⟨res', n', hcopy', hbytes⟩
  rw [hcopy, Option.some.injEq, Prod.mk.injEq] at hcopy'
  rw [hcopy'.1, offset_congr hsame.bb hstored.inMemory.valid.dims.2, hsame.size]
  rw [cells_eq_of_bboxEquals hsame.bb] at hx
  rw [hsame.size] at hk
  exact hbytes x hx k hk

end Data

/-- Every leaf has less than 2 GiB. -/
def SmallLeaves (expr : DsDataExpr ObjData) : Prop :=
  ∀ od ∈ expr.objs, od.objDesc.bb.cells.card * od.objDesc.size.toNat < 2 ^ 31

/-- A server collects the objects of the leaves of an expression and copies their data, which it stores.
Then every leaf has the data of its own object only if all leaves of one name are for the same version,
element size and box, and have less than 2 GiB; and if they are and have, it has. -/
theorem leaves_bound_iff {hilbertC2i : HilbertC2i} {uninit : Nat → Unwritten} {conf : Conf} {self : Nat}
    {malloced : Nat → Buf} {g : Group} {expr : DsDataExpr ObjData} (hshaped : expr.Shaped)
    (hstored : ∀ od ∈ expr.objs, ∃ src, StoredFor (g.server self).ls od.objDesc src) :
    ((∃ r, bindObjs hilbertC2i uninit conf self malloced g expr = some r ∧
        List.Forall₂ (Bound (g.server self).ls) expr.objs r.2.objs) → OneObjPerName expr ∧ SmallLeaves expr) ∧
      ((∀ od ∈ expr.objs, ∀ src, (g.server self).ls.lsFind od.objDesc = some src →
          TenAligned od.objDesc src) →
        ((∃ r, bindObjs hilbertC2i uninit conf self malloced g expr = some r ∧
          List.Forall₂ (Bound (g.server self).ls) expr.objs r.2.objs) ↔
            OneObjPerName expr ∧ SmallLeaves expr)) := by
  rcases gatherOpOds_spec hshaped [] with ⟨odl, hgather, hspec⟩
  have hmem : ∀ od ∈ odl, od ∈ expr.objs := by
    intro od hod
    exact (hspec.source od hod).resolve_left (List.not_mem_nil)
  have hloopSpec : ∀ r, bindObjs hilbertC2i uninit conf self malloced g expr = some r →
      ∃ f : ObjData → ObjData, r.2.objs = expr.objs.map f ∧
        ∀ o, ∀ od ∈ odl, od.objDesc.name = o.objDesc.name → CopiedFor (g.server self).ls od (f o) := by
    intro r hbind
    rw [bindObjs, hgather, Option.bind_some] at hbind
    have hfound : ∀ od ∈ odl, ∃ src, (g.server self).ls.lsFind od.objDesc = some src := by
      intro od hod
      rcases hstored od (hmem od hod) with ⟨src, hsrc⟩
      exact ⟨src, hsrc.found⟩
    rcases bindLoop_spec odl 0 expr r hshaped (hspec.nodup List.nodup_nil) hfound hbind with
      ⟨f, hobjs, -, hcopied⟩
    exact ⟨f, hobjs, hcopied⟩
  have hone : (∃ r, bindObjs hilbertC2i uninit conf self malloced g expr = some r ∧
      List.Forall₂ (Bound (g.server self).ls) expr.objs r.2.objs) → OneObjPerName expr := by
    rintro ⟨r, hbind, hall⟩ od hod od' hod' hname
    rcases hloopSpec r hbind with ⟨f, hobjs, hcopied⟩
    rw [hobjs, List.forall₂_map_right_iff, List.forall₂_same] at hall
    -- both leaves have the copy for the collected object of their name
    rcases hspec.named od hod with ⟨rep, hrep, hrepName⟩
    have hof : ∀ o ∈ expr.objs, rep.objDesc.name = o.objDesc.name → SameObj o.objDesc rep.objDesc :=
      fun o ho ho' => (hall o ho).same.trans (hcopied o rep hrep ho').sameObj.2.symm
    exact (hof od hod hrepName).trans (hof od' hod' (hrepName.trans hname)).symm
  have hsmall : (∃ r, bindObjs hilbertC2i uninit conf self malloced g expr = some r ∧
      List.Forall₂ (Bound (g.server self).ls) expr.objs r.2.objs) → SmallLeaves expr := by
    intro hbound od hod
    rcases hspec.named od hod with ⟨rep, hrep, hname⟩
    have hsame := hone hbound od hod rep (hmem rep hrep) hname.symm
    -- memory was allocated for the collected object
    obtain ⟨r, hbind, -⟩ := hbound
    rcases hloopSpec r hbind with ⟨f, -, hcopied⟩
    obtain ⟨-, m, resOd, n, -, halloc, -⟩ := hcopied od rep hrep hname
    obtain ⟨src, hsrc⟩ := hstored rep (hmem rep hrep)
    have hbytes := (objDataAlloc_some halloc).2
    rw [toNat_objDataSize hsrc.inMemory.valid hsrc.inMemory.bytes] at hbytes
    rwa [cells_eq_of_bboxEquals hsame.bb, hsame.size]
  refine ⟨fun h => ⟨hone h, hsmall h⟩, fun hten => ⟨fun h => ⟨hone h, hsmall h⟩, fun ⟨hone, hsmall⟩ => ?_⟩⟩
  have hcopies : ∀ od ∈ odl, ∀ m, ∃ src resOd res n, (g.server self).ls.lsFind od.objDesc = some src ∧
      objDataAlloc od.objDesc m = some resOd ∧ ssdCopy resOd src = some (res, n) := by
    intro od hod m
    rcases hstored od (hmem od hod) with ⟨src, hsrc⟩
    rcases hsrc.copy (hten od (hmem od hod) src hsrc.found) m with ⟨res, n, hcopy, -⟩
    exact ⟨src, _, res, n, hsrc.found, objDataAlloc_eq hsrc.inMemory.valid (hsmall od (hmem od hod)) m, hcopy⟩
  rcases @exists_bindLoop hilbertC2i uninit conf self malloced g odl 0 expr hshaped hcopies with
    ⟨r, hloop⟩
  have hbind : bindObjs hilbertC2i uninit conf self malloced g expr = some r := by
    rw [bindObjs, hgather]
    exact hloop
  refine ⟨r, hbind, ?_⟩
  rcases hloopSpec r hbind with ⟨f, hobjs, hcopied⟩
  rw [hobjs, List.forall₂_map_right_iff, List.forall₂_same]
  intro od hod
  rcases hspec.named od hod with ⟨rep, hrep, hrepName⟩
  have hsame := hone od hod rep (hmem rep hrep) hrepName.symm
  rcases hstored od hod with ⟨src, hsrc⟩
  rcases hstored rep (hmem rep hrep) with ⟨src', hsrc'⟩
  -- the same object is found for both
  have heq : src' = src := by
    have hfind := hsame.lsFind_eq hrepName.symm (g.server self).ls
    rw [hsrc.found, hsrc'.found, Option.some.injEq] at hfind
    exact hfind.symm
  subst heq
  exact (hcopied od rep hrep hrepName).bound hrepName hsame hsrc hsrc'
    (hten rep (hmem rep hrep) src' hsrc'.found)

/-! ### Two versions of a variable -/

/-- The variable `a` in two cells with elements of 4 bytes. -/
def stepDesc (version : UInt32) : ObjDesc := { plainDesc version (BBox.line 0 1) with size := 4 }

/-- An object that has the byte `b` everywhere. -/
def stepObj (version : UInt32) (b : UInt8) : ObjData := ⟨stepDesc version, lineConf.defaultGdim, fun _ => b⟩

/-- Server 0 stores version 0, with the byte 0 everywhere, and version 1, with the byte 1. -/
def stepGroup : Group where
  server rank :=
    { (Group.init lineConf fun _ => lineSpaceV2).server rank with
      ls := ((lsAlloc 2).lsAddObj (stepObj 0 0)).lsAddObj (stepObj 1 1) }
  net := []

/-- The difference of two leaves of `a`. -/
def stepExpr (version version' : UInt32) : DsDataExpr ObjData :=
  .node .sub .int 8 [.obj .int 8 (stepObj version 255), .obj .int 8 (stepObj version' 255)]

theorem shaped_stepExpr (version version' : UInt32) : (stepExpr version version').Shaped :=
  .binary rfl _ _ (.obj _ _ _) (.obj _ _ _)

theorem inMemory_stepDesc (version : UInt32) : (stepDesc version).bb.InMemory 4 := by
  refine ⟨BBox.line_valid (by decide), ?_, fun h => absurd h (by decide)⟩
  rw [stepDesc, plainDesc, card_line]
  decide

theorem storedFor_stepGroup {version : UInt32} {b : UInt8}
    (hfind : (stepGroup.server 0).ls.lsFind (stepDesc version) = some (stepObj version b)) :
    StoredFor (stepGroup.server 0).ls (stepDesc version) (stepObj version b) :=
  ⟨hfind, rfl, rfl, fun _ h => h, inMemory_stepDesc version, inMemory_stepDesc version⟩

/-- In the difference of version 1 and version 0 both leaves have the data of version 1. -/
theorem leaves_not_bound :
    (stepExpr 1 0).Shaped ∧
      (∀ od ∈ (stepExpr 1 0).objs, ∃ src, StoredFor (stepGroup.server 0).ls od.objDesc src) ∧
      ∃ r, bindObjs lineC2i zeroed lineConf 0 (fun _ _ => 0) stepGroup (stepExpr 1 0) = some r ∧
        (r.2.objs.map fun od => (od.objDesc.version, od.data 0)) = [(1, 1), (1, 1)] ∧
        ¬ List.Forall₂ (Bound (stepGroup.server 0).ls) (stepExpr 1 0).objs r.2.objs := by
  have hrun : (bindObjs lineC2i zeroed lineConf 0 (fun _ _ => 0) stepGroup (stepExpr 1 0)).map (fun r =>
      r.2.objs.map fun od => (od.objDesc.version, od.data 0)) = some [(1, 1), (1, 1)] := by
    decide +kernel
  rcases Option.map_eq_some_iff.1 hrun with ⟨r, hr, hobjs⟩
  refine ⟨shaped_stepExpr 1 0, fun od hod => ?_, r, hr, hobjs, fun hall => ?_⟩
  · rcases List.mem_pair.1 hod with rfl | rfl
    · exact ⟨_, storedFor_stepGroup rfl⟩
    · exact ⟨_, storedFor_stepGroup rfl⟩
  · -- the leaves ask for two different versions
    have hversions : List.Forall₂ (fun od v => od.objDesc.version = v) (stepExpr 1 0).objs
        ((r.2.objs.map fun od => (od.objDesc.version, od.data 0)).map Prod.fst) := by
      rw [List.map_map, List.forall₂_map_right_iff]
      exact hall.imp fun _ _ h => h.same.version
    rw [hobjs] at hversions
    exact absurd hversions (by decide)

/-- A variable minus itself. -/
theorem leaves_bound_iff_same :
    ∃ r, bindObjs lineC2i zeroed lineConf 0 (fun _ _ => 0) stepGroup (stepExpr 1 1) = some r ∧
      List.Forall₂ (Bound (stepGroup.server 0).ls) (stepExpr 1 1).objs r.2.objs := by
  have hobjs : ∀ od ∈ (stepExpr 1 1).objs, od = stepObj 1 255 := by
    intro od hod
    rcases List.mem_pair.1 hod with rfl | rfl <;> rfl
  refine ((leaves_bound_iff (shaped_stepExpr 1 1) fun od hod => ?_).2 fun od hod src _ => ?_).2
    ⟨fun od hod od' hod' _ => ?_, fun od hod => ?_⟩
  · rw [hobjs od hod]
    exact ⟨_, storedFor_stepGroup rfl⟩
  · rw [hobjs od hod]
    exact fun h => absurd h (by decide)
  · rw [hobjs od hod, hobjs od' hod']
    exact ⟨rfl, rfl, bboxEquals_refl _⟩
  · rw [hobjs od hod]
    change (BBox.line 0 1).cells.card * 4 < 2 ^ 31
    rw [card_line]
    decide

end DataSpaces
