import Mathlib.Order.Interval.Finset.Nat
import DataSpaces.Coherence

/-!
# Retention — which objects a server still has

A put drops at most one older object: the first of its name in its bin that the new box meets.  So an
object stays as long as no later put of its name and bin meets its box (`puts_retained`).  For the same
reason the number of versions of a cell is bounded only as long as the new box never meets two stored
objects at once (`adds_bounded_iff`).
-/

namespace DataSpaces

/-! ## Boxes that do not meet -/

/-- `bbox_does_intersect` finds no intersection, in either order. -/
def BBox.Apart (b b' : BBox) : Prop :=
  bboxDoesIntersect b b' = false ∧ bboxDoesIntersect b' b = false

namespace BBox.Apart

instance (b b' : BBox) : Decidable (b.Apart b') :=
  inferInstanceAs (Decidable (_ ∧ _))

variable {b b' : BBox}

theorem symm (h : b.Apart b') : b'.Apart b :=
  ⟨h.2, h.1⟩

/-- Boxes that do not meet share no cell.  The check goes over the dimensions of one box, so the order
with the fewer dimensions decides. -/
theorem disjoint_cells (h : b.Apart b') : Disjoint b.cells b'.cells := by
  have key : ∀ c c' : BBox, c.numDims ≤ c'.numDims → ∀ x ∈ c.cells, x ∈ c'.cells →
      bboxDoesIntersect c c' = true := by
    intro c c' hle x hx hx'
    refine bboxDoesIntersect_iff_ondim.2 fun i hi => bboxIntersectOndim_iff.2 ?_
    by_cases hlt : i < BBOX_MAX_NDIM
    · -- the coordinate of the common cell lies between the bounds of both
      have hin := (BBox.mem_cells.1 hx).1 ⟨i, hlt⟩ hi
      have hin' := (BBox.mem_cells.1 hx').1 ⟨i, hlt⟩ (by simp only; omega)
      simp only at hin hin'
      omega
    · simp [Coord.c, hlt]
  rw [Finset.disjoint_left]
  intro x hx hx'
  rcases Nat.le_total b.numDims b'.numDims with hle | hle
  · have := key b b' hle x hx hx'
    rw [h.1] at this
    cases this
  · have := key b' b hle x hx' hx
    rw [h.2] at this
    cases this

end BBox.Apart

theorem BBox.Valid.intersects_of_equals {b b' : BBox} (h : b.Valid) (heq : bboxEquals b b' = true) :
    bboxDoesIntersect b b' = true := by
  rcases h.cells_nonempty with ⟨x, hx⟩
  refine bboxDoesIntersect_of_mem (bboxEquals_iff.1 heq).1 h.dims hx ?_
  rw [← cells_eq_of_bboxEquals heq]
  exact hx

/-! ## What a put leaves alone -/

theorem SsStorage.mem_lsAddObj_self (ls : SsStorage) (od : ObjData) :
    od ∈ (ls.lsAddObj od).objHash (ls.index od.objDesc) := by
  rw [objHash_lsAddObj, if_pos rfl]
  exact List.mem_cons_self

theorem SsStorage.mem_lsAddObj_of_not_met {ls : SsStorage} {od old : ObjData} {n : Nat}
    (hold : old ∈ ls.objHash n)
    (hmet : n = ls.index od.objDesc → ¬ objDescByNameIntersect od.objDesc old.objDesc = true) :
    old ∈ (ls.lsAddObj od).objHash n := by
  rw [objHash_lsAddObj]
  split
  · next hn =>
      have hkeep := List.mem_eraseP_of_neg (l := ls.objHash n)
        (p := fun old => objDescByNameIntersect od.objDesc old.objDesc) (hmet hn)
      exact List.mem_cons_of_mem _ (hkeep.2 hold)
  · exact hold

theorem DhtTable.Ok.mem_store_of_not_met {de : DhtTable} (h : de.Ok) {odsc : ObjDesc} {s : Slot} {n : Nat}
    (hs : s ∈ de.odscHash n)
    (hmet : n = de.index odsc → ¬ objDescByNameIntersect odsc s.odsc = true) :
    s ∈ (de.store odsc).odscHash n := by
  refine h.mem_store.2 (Or.inr ⟨hs, fun hid => ?_⟩)
  -- a node that is overwritten was found by `dht_find_match`
  rcases h.bin_of_slotFor hs hid with ⟨hn, hfind⟩
  exact hmet hn (DhtTable.dhtFindMatch_some hfind).2

/-! ## Retention -/

namespace Node

/-- The server after the puts `done`: what it stores and describes was put. -/
structure FromPuts (maxVersions : Nat) (done : List ObjData) (nd : Node) : Prop where
  sizes : nd.ls.sizeHash = maxVersions ∧ nd.de.odscSize = maxVersions
  ok : nd.de.Ok
  noSubs : ∀ n, nd.de.dhtSubs n = []
  stored : ∀ n, ∀ od ∈ nd.ls.objHash n, od ∈ done
  described : ∀ n, ∀ s ∈ nd.de.odscHash n, ∃ od ∈ done, s.odsc = od.objDesc

/-- The object is in the storage and its descriptor in the table. -/
def Has (nd : Node) (od : ObjData) : Prop :=
  od ∈ nd.ls.objHash (nd.ls.index od.objDesc) ∧
    ∃ s ∈ nd.de.odscHash (nd.de.index od.objDesc), s.odsc = od.objDesc

/-- The object is found with its own descriptor, and its descriptor is found. -/
def Finds (nd : Node) (od : ObjData) : Prop :=
  nd.ls.lsFind od.objDesc = some od ∧
    (nd.de.dhtFindExact od.objDesc).map Slot.odsc = some od.objDesc

theorem fromPuts_init {maxVersions : Nat} (h : 0 < maxVersions) :
    (init maxVersions).FromPuts maxVersions [] where
  sizes := ⟨rfl, rfl⟩
  ok := DhtTable.ok_dhtEntryAlloc h
  noSubs := fun _ => rfl
  stored := by simp [init, lsAlloc]
  described := by simp [init, dhtEntryAlloc]

section Step

variable {maxVersions : Nat} {done : List ObjData} {nd : Node} (count : BBox → Option Int64)

theorem FromPuts.put_eq (h : nd.FromPuts maxVersions done) (od : ObjData) :
    nd.put count od = some ⟨nd.ls.lsAddObj od, nd.de.store od.objDesc⟩ := by
  rw [Node.put, dhtAddEntry_of_no_subs count (h.noSubs _)]
  rfl

theorem FromPuts.step (h : nd.FromPuts maxVersions done) (od : ObjData) :
    (⟨nd.ls.lsAddObj od, nd.de.store od.objDesc⟩ : Node).FromPuts maxVersions (done ++ [od]) where
  sizes := by simpa using h.sizes
  ok := h.ok.store od.objDesc
  noSubs := by
    intro n
    rw [DhtTable.dhtSubs_store]
    exact h.noSubs n
  stored := SsStorage.stored_lsAddObj h.stored od
  described := h.ok.described_store h.described od

theorem FromPuts.has_put (h : nd.FromPuts maxVersions done) (od : ObjData) :
    (⟨nd.ls.lsAddObj od, nd.de.store od.objDesc⟩ : Node).Has od := by
  refine ⟨nd.ls.mem_lsAddObj_self od, ⟨nd.de.slotFor od.objDesc, od.objDesc⟩, ?_, rfl⟩
  rw [DhtTable.index_store]
  exact h.ok.mem_store.2 (Or.inl ⟨rfl, rfl⟩)

/-- A put of another bin leaves the object, and so does one that does not meet it. -/
theorem FromPuts.has_step (h : nd.FromPuts maxVersions done) {od old : ObjData} (hold : nd.Has old)
    (hmet : old.objDesc.version.toNat % maxVersions = od.objDesc.version.toNat % maxVersions →
      ¬ objDescByNameIntersect od.objDesc old.objDesc = true) :
    (⟨nd.ls.lsAddObj od, nd.de.store od.objDesc⟩ : Node).Has old := by
  rcases hold with ⟨hls, s, hs, hsold⟩
  refine ⟨SsStorage.mem_lsAddObj_of_not_met hls fun hn => ?_, s, ?_, hsold⟩
  · rw [SsStorage.index_lsAddObj, SsStorage.index, SsStorage.index, h.sizes.1] at hn
    exact hmet hn
  · rw [DhtTable.index_store]
    refine h.ok.mem_store_of_not_met hs fun hn => ?_
    rw [DhtTable.index, DhtTable.index, h.sizes.2] at hn
    rw [hsold]
    exact hmet hn

/-- What a sequence of puts leaves. -/
theorem FromPuts.puts (ods : List ObjData) :
    ∀ (done : List ObjData) (nd : Node), nd.FromPuts maxVersions done →
      ∃ nd', nd.puts count ods = some nd' ∧ nd'.FromPuts maxVersions (done ++ ods) ∧
        ∀ old, nd.Has old →
          (∀ od ∈ ods,
            old.objDesc.version.toNat % maxVersions = od.objDesc.version.toNat % maxVersions →
              ¬ objDescByNameIntersect od.objDesc old.objDesc = true) → nd'.Has old := by
  induction ods with
  | nil =>
      intro done nd h
      exact ⟨nd, rfl, by simpa using h, fun old hold _ => hold⟩
  | cons od ods ih =>
      intro done nd h
      rcases ih (done ++ [od]) _ (h.step od) with ⟨nd', hrun, hfrom, hkeep⟩
      refine ⟨nd', ?_, by simpa using hfrom, fun old hold hmet => ?_⟩
      · rw [Node.puts, h.put_eq count]
        exact hrun
      · refine hkeep old (h.has_step hold (hmet od List.mem_cons_self)) fun od' hod' => ?_
        exact hmet od' (List.mem_cons_of_mem _ hod')

end Step

end Node

/-- The puts of one name and version have boxes that do not meet. -/
def PutsApart (ods : List ObjData) : Prop :=
  ods.Pairwise fun od od' =>
    od.objDesc.name = od'.objDesc.name → od.objDesc.version = od'.objDesc.version →
      od.objDesc.bb.Apart od'.objDesc.bb

namespace PutsApart

variable {before after : List ObjData} {od od' : ObjData}

/-- Another put of the same name and version does not meet the object. -/
theorem eq_or_apart (h : PutsApart (before ++ od :: after)) (hod' : od' ∈ before ++ od :: after)
    (hname : od.objDesc.name = od'.objDesc.name) (hver : od.objDesc.version = od'.objDesc.version) :
    od' = od ∨ od.objDesc.bb.Apart od'.objDesc.bb := by
  rw [PutsApart, List.pairwise_append, List.pairwise_cons] at h
  rcases List.mem_append.1 hod' with hmem | hmem
  · exact Or.inr (h.2.2 od' hmem od List.mem_cons_self hname.symm hver.symm).symm
  · rcases List.mem_cons.1 hmem with rfl | hmem
    · exact Or.inl rfl
    · exact Or.inr (h.2.1.1 od' hmem hname hver)

/-- A later put of the same name that meets the object has another version. -/
theorem not_met_of_after (h : PutsApart (before ++ od :: after)) (hod' : od' ∈ after)
    (hver : od.objDesc.version = od'.objDesc.version) :
    ¬ objDescByNameIntersect od'.objDesc od.objDesc = true := by
  intro hmet
  rcases objDescByNameIntersect_iff.1 hmet with ⟨hname, hbb⟩
  rw [PutsApart, List.pairwise_append, List.pairwise_cons] at h
  have hapart := h.2.1.1 od' hod' hname.symm hver
  rw [hapart.2] at hbb
  cases hbb

end PutsApart

/-- An object that the server has is the one that is found with its descriptor. -/
theorem Node.FromPuts.finds {maxVersions : Nat} {before after : List ObjData} {od : ObjData} {nd : Node}
    (h : nd.FromPuts maxVersions (before ++ od :: after)) (hputs : PutsApart (before ++ od :: after))
    (hvalid : od.objDesc.bb.Valid) (hod : nd.Has od) : nd.Finds od := by
  have hself : bboxDoesIntersect od.objDesc.bb od.objDesc.bb = true :=
    hvalid.intersects_of_equals (bboxEquals_refl _)
  -- what meets the object under its name and version is the object
  have honly : ∀ od' ∈ before ++ od :: after, od.objDesc.name = od'.objDesc.name →
      od.objDesc.version = od'.objDesc.version →
      bboxDoesIntersect od.objDesc.bb od'.objDesc.bb = true → od' = od := by
    intro od' hod' hname hver hmeet
    rcases hputs.eq_or_apart hod' hname hver with heq | hapart
    · exact heq
    · rw [hapart.1] at hmeet
      cases hmeet
  rcases hod with ⟨hls, s, hs, hsod⟩
  constructor
  · have hsome : (nd.ls.lsFind od.objDesc).isSome = true := by
      rw [SsStorage.lsFind, List.find?_isSome]
      exact ⟨od, hls, objDescEqualsIntersect_iff.2 ⟨rfl, rfl, hself⟩⟩
    rcases Option.isSome_iff_exists.1 hsome with ⟨od', hfind⟩
    have hp : objDescEqualsIntersect od.objDesc od'.objDesc = true := by
      simpa using List.find?_some hfind
    rcases objDescEqualsIntersect_iff.1 hp with ⟨hname, hver, hmeet⟩
    have hmem := h.stored _ od' (List.mem_of_find?_eq_some hfind)
    rw [hfind, honly od' hmem hname hver hmeet]
  · have hsome : (nd.de.dhtFindExact od.objDesc).isSome = true := by
      rw [DhtTable.dhtFindExact, List.find?_isSome]
      exact ⟨s, hs, objDescEqualsNoOwner_iff.2 (by simp [hsod, bboxEquals_refl])⟩
    rcases Option.isSome_iff_exists.1 hsome with ⟨s', hfind⟩
    have hp : objDescEqualsNoOwner od.objDesc s'.odsc = true := by
      simpa using List.find?_some hfind
    rcases objDescEqualsNoOwner_iff.1 hp with ⟨hver, hname, hbb⟩
    rcases h.described _ s' (List.mem_of_find?_eq_some hfind) with ⟨od', hod', hs'⟩
    rw [hs'] at hver hname hbb
    rw [hfind, Option.map_some, hs', honly od' hod' hname hver (hvalid.intersects_of_equals hbb)]

/-- An object that no later put of its bin meets is still there. -/
theorem Node.has_of_not_met (count : BBox → Option Int64) {maxVersions : Nat}
    (hversions : 0 < maxVersions) {before after : List ObjData} {od : ObjData} {nd : Node}
    (hrun : (Node.init maxVersions).puts count (before ++ od :: after) = some nd)
    (hmet : ∀ od' ∈ after,
      od.objDesc.version.toNat % maxVersions = od'.objDesc.version.toNat % maxVersions →
        ¬ objDescByNameIntersect od'.objDesc od.objDesc = true) : nd.Has od := by
  rcases (fromPuts_init hversions).puts count before [] _ with ⟨nd₁, hrun₁, hfrom₁, -⟩
  rcases (hfrom₁.step od).puts count after _ _ with ⟨nd₂, hrun₂, -, hkeep⟩
  have hnd : nd₂ = nd := by
    rw [Node.puts_append, hrun₁, Option.bind_some, Node.puts, hfrom₁.put_eq count, Option.bind_some,
      hrun₂] at hrun
    exact Option.some.inj hrun
  rw [← hnd]
  exact hkeep od (hfrom₁.has_put od) hmet

/-- An object that was put is found with its own descriptor, in the storage and in the table, as long as
no later put of its name has another version of the same bin and meets its box.  So nothing of a name is
dropped while its versions lie within `maxVersions` consecutive values. -/
theorem puts_retained (count : BBox → Option Int64) {maxVersions : Nat} (hversions : 0 < maxVersions)
    {ods : List ObjData} (hputs : PutsApart ods) :
    ∃ nd, (Node.init maxVersions).puts count ods = some nd ∧
      (∀ before od after, ods = before ++ od :: after → od.objDesc.bb.Valid →
        (∀ od' ∈ after, od'.objDesc.name = od.objDesc.name →
          od'.objDesc.version ≠ od.objDesc.version →
          od'.objDesc.version.toNat % maxVersions = od.objDesc.version.toNat % maxVersions →
          bboxDoesIntersect od'.objDesc.bb od.objDesc.bb = false) → nd.Finds od) ∧
      ∀ name base, (∀ od ∈ ods, od.objDesc.name = name →
          base ≤ od.objDesc.version.toNat ∧ od.objDesc.version.toNat < base + maxVersions) →
        ∀ od ∈ ods, od.objDesc.name = name → od.objDesc.bb.Valid → nd.Finds od := by
  rcases (Node.fromPuts_init hversions).puts count ods [] _ with ⟨nd, hrun, hfrom, -⟩
  have hkept : ∀ before od after, ods = before ++ od :: after → od.objDesc.bb.Valid →
      (∀ od' ∈ after, od'.objDesc.name = od.objDesc.name →
        od'.objDesc.version ≠ od.objDesc.version →
        od'.objDesc.version.toNat % maxVersions = od.objDesc.version.toNat % maxVersions →
        bboxDoesIntersect od'.objDesc.bb od.objDesc.bb = false) → nd.Finds od := by
    intro before od after hsplit hvalid hlater
    subst hsplit
    refine hfrom.finds hputs hvalid (Node.has_of_not_met count hversions hrun ?_)
    intro od' hod' hbin hmet
    -- puts of one version keep apart, and of the other versions of the bin none meets the object
    by_cases hver : od.objDesc.version = od'.objDesc.version
    · exact hputs.not_met_of_after hod' hver hmet
    · rcases objDescByNameIntersect_iff.1 hmet with ⟨hname, hbb⟩
      rw [hlater od' hod' hname (Ne.symm hver) hbin.symm] at hbb
      cases hbb
  refine ⟨nd, hrun, hkept, fun name base hrange od hod hname hvalid => ?_⟩
  rcases List.append_of_mem hod with ⟨before, after, hsplit⟩
  refine hkept before od after hsplit hvalid fun od' hod' hname' hver hbin => absurd ?_ hver
  -- two values of one window that agree modulo its length are equal
  have hin := hrange od hod hname
  have hin' := hrange od' (by rw [hsplit]; simp [hod']) (hname'.trans hname)
  have hwindow := Nat.mod_injOn_Ico base maxVersions
  simp only [Finset.coe_Ico] at hwindow
  exact UInt32.toNat_inj.1 (hwindow ⟨hin'.1, hin'.2⟩ ⟨hin.1, hin.2⟩ hbin)

/-- The same at three versions, two of them in one bin. -/
theorem puts_retained_line :
    let ods := [plainObj 1 (BBox.line 0 3), plainObj 2 (BBox.line 0 3), plainObj 3 (BBox.line 4 7)]
    PutsApart ods ∧ ∃ nd, (Node.init 2).puts (fun _ => some 0) ods = some nd ∧
      nd.Finds (plainObj 1 (BBox.line 0 3)) := by
  intro ods
  have hputs : PutsApart ods := by
    rw [PutsApart]
    decide
  rcases puts_retained (fun _ => some 0) (show 0 < 2 by decide) hputs with ⟨nd, hrun, hfinds, -⟩
  refine ⟨hputs, nd, hrun, ?_⟩
  refine hfinds [] _ _ rfl (BBox.line_valid (by decide)) ?_
  decide

/-! ## How many objects contain a cell -/

namespace SsStorage

/-- Objects added one after the other. -/
def lsAddObjs (ls : SsStorage) (ods : List ObjData) : SsStorage :=
  ods.foldl lsAddObj ls

/-- The objects of one name in one bin have boxes that do not meet. -/
def BinsApart (ls : SsStorage) : Prop :=
  ∀ n, (ls.objHash n).Pairwise fun od od' =>
    od.objDesc.name = od'.objDesc.name → od.objDesc.bb.Apart od'.objDesc.bb

/-- How many stored objects of the name contain the cell. -/
def copies (ls : SsStorage) (name : CStr) (x : Cell) : Nat :=
  ((List.range ls.sizeHash).map fun i =>
    (ls.objHash i).countP fun od => od.objDesc.name = name ∧ x ∈ od.objDesc.bb.cells).sum

/-- The stored object has the name of the new one and their boxes meet, in some order of
`bbox_does_intersect`. -/
def Meets (od old : ObjData) : Prop :=
  od.objDesc.name = old.objDesc.name ∧ ¬ od.objDesc.bb.Apart old.objDesc.bb

instance (od old : ObjData) : Decidable (Meets od old) :=
  inferInstanceAs (Decidable (_ ∧ _))

/-- The new object meets at most one object of its bin, and `ls_find_no_version` looks for it.  Boxes of
one dimensionality meet in both orders or in none, so the second part is about names whose puts differ
in dimensionality. -/
def MeetsOne (ls : SsStorage) (od : ObjData) : Prop :=
  (ls.objHash (ls.index od.objDesc)).countP (fun old => Meets od old) ≤ 1 ∧
    ∀ old ∈ ls.objHash (ls.index od.objDesc), Meets od old →
      objDescByNameIntersect od.objDesc old.objDesc = true

instance (ls : SsStorage) (od : ObjData) : Decidable (ls.MeetsOne od) :=
  inferInstanceAs (Decidable (_ ∧ _))

theorem meets_of_byNameIntersect {od old : ObjData}
    (h : objDescByNameIntersect od.objDesc old.objDesc = true) : Meets od old := by
  rcases objDescByNameIntersect_iff.1 h with ⟨hname, hbb⟩
  refine ⟨hname, fun hapart => ?_⟩
  rw [hapart.1] at hbb
  cases hbb

/-- Nothing that the new object meets is left exactly when it met at most one object, and the eviction
looks for that one. -/
theorem countP_eraseP_eq_zero_iff {od : ObjData} (bin : List ObjData) :
    (bin.eraseP fun old => objDescByNameIntersect od.objDesc old.objDesc).countP
        (fun old => Meets od old) = 0 ↔
      bin.countP (fun old => Meets od old) ≤ 1 ∧
        ∀ old ∈ bin, Meets od old → objDescByNameIntersect od.objDesc old.objDesc = true := by
  cases hfind : bin.find? fun old => objDescByNameIntersect od.objDesc old.objDesc with
  | none =>
      -- nothing is evicted
      have hnone := List.find?_eq_none.1 hfind
      rw [List.eraseP_of_forall_not hnone]
      constructor
      · intro hzero
        refine ⟨by omega, fun old hold hmeets => ?_⟩
        exact absurd (by simpa using hmeets) (List.countP_eq_zero.1 hzero old hold)
      · rintro ⟨-, hlooks⟩
        refine List.countP_eq_zero.2 fun old hold hmeets => ?_
        exact hnone old hold (hlooks old hold (by simpa using hmeets))
  | some victim =>
      have hvictim : objDescByNameIntersect od.objDesc victim.objDesc = true := by
        simpa using List.find?_some hfind
      -- one object is evicted, and it is one that the new object meets
      rcases Node.After.eraseP_cases hfind with ⟨l₁, l₂, hl, herase⟩
      have hcount : bin.countP (fun old => Meets od old) =
          (l₁ ++ l₂).countP (fun old => Meets od old) + 1 := by
        rw [hl, List.countP_append, List.countP_cons, List.countP_append]
        simp only [meets_of_byNameIntersect hvictim, decide_true, if_true]
        omega
      rw [herase, hcount]
      constructor
      · intro hzero
        refine ⟨by omega, fun old hold hmeets => ?_⟩
        by_cases hrest : old ∈ l₁ ++ l₂
        · exact absurd (by simpa using hmeets) (List.countP_eq_zero.1 hzero old hrest)
        · have : old = victim := by
            rw [hl] at hold
            simp only [List.mem_append, List.mem_cons] at hold hrest
            tauto
          rw [this]
          exact hvictim
      · rintro ⟨hone, -⟩
        omega

/-- One call keeps the bins in order exactly when the new object meets at most one of its bin. -/
theorem BinsApart.step_iff {ls : SsStorage} (h : ls.BinsApart) (od : ObjData) :
    (ls.lsAddObj od).BinsApart ↔ ls.MeetsOne od := by
  rw [MeetsOne, ← countP_eraseP_eq_zero_iff, List.countP_eq_zero]
  constructor
  · intro hnext old hold hmeets
    have hbin := hnext (ls.index od.objDesc)
    rw [objHash_lsAddObj, if_pos rfl, List.pairwise_cons] at hbin
    have hm : Meets od old := by simpa using hmeets
    exact hm.2 (hbin.1 old hold hm.1)
  · intro hrest n
    rw [objHash_lsAddObj]
    split
    · next hn =>
        subst hn
        refine List.pairwise_cons.2 ⟨fun old hold hname => ?_, (h _).sublist List.eraseP_sublist⟩
        by_contra hmeets
        exact hrest old hold (by simpa using ⟨hname, hmeets⟩)
    · exact h n

theorem BinsApart.countP_le_one {ls : SsStorage} (h : ls.BinsApart) (name : CStr) (x : Cell) (i : Nat) :
    (ls.objHash i).countP (fun od => od.objDesc.name = name ∧ x ∈ od.objDesc.bb.cells) ≤ 1 := by
  rw [List.countP_eq_length_filter]
  have hsub := (h i).sublist (List.filter_sublist
    (p := fun od => decide (od.objDesc.name = name ∧ x ∈ od.objDesc.bb.cells)))
  have hall : ∀ od ∈ (ls.objHash i).filter fun od =>
      od.objDesc.name = name ∧ x ∈ od.objDesc.bb.cells, od.objDesc.name = name ∧
        x ∈ od.objDesc.bb.cells := by
    intro od hod
    simpa using (List.mem_filter.1 hod).2
  generalize (ls.objHash i).filter
    (fun od => decide (od.objDesc.name = name ∧ x ∈ od.objDesc.bb.cells)) = l at hsub hall ⊢
  -- two objects of the list would both contain the cell
  match l with
  | [] => exact Nat.zero_le 1
  | [_] => exact le_refl 1
  | od :: od' :: l =>
      have hod := hall od (by simp)
      have hod' := hall od' (by simp)
      have hapart := (List.pairwise_cons.1 hsub).1 od' (by simp) (hod.1.trans hod'.1.symm)
      exact absurd hod'.2 (Finset.disjoint_left.1 hapart.disjoint_cells hod.2)

/-- With the bins in order each bin has at most one object of a name for a cell. -/
theorem BinsApart.copies_le {ls : SsStorage} (h : ls.BinsApart) (name : CStr) (x : Cell) :
    ls.copies name x ≤ ls.sizeHash := by
  rw [copies]
  induction ls.sizeHash with
  | zero => simp
  | succ k ih =>
      rw [List.range_succ, List.map_append, List.sum_append]
      have hk := h.countP_le_one name x k
      simp only [List.map_cons, List.map_nil, List.sum_cons, List.sum_nil]
      omega

theorem sizeHash_lsAddObjs (ls : SsStorage) (ods : List ObjData) :
    (ls.lsAddObjs ods).sizeHash = ls.sizeHash := by
  induction ods generalizing ls with
  | nil => rfl
  | cons od ods ih => exact ih (ls.lsAddObj od)

theorem lsAddObjs_append_singleton (ls : SsStorage) (ods : List ObjData) (od : ObjData) :
    ls.lsAddObjs (ods ++ [od]) = (ls.lsAddObjs ods).lsAddObj od := by
  rw [lsAddObjs, List.foldl_append]
  rfl

theorem binsApart_lsAlloc (maxVersions : Nat) : (lsAlloc maxVersions).BinsApart := by
  intro n
  simp [lsAlloc]

end SsStorage

/-- After every call the objects of one name in one bin have boxes that do not meet, and no cell is in
more than `maxVersions` objects of a name, exactly when every new object meets at most one object of its
bin. -/
theorem adds_bounded_iff (maxVersions : Nat) (ods : List ObjData) :
    (∀ done rest, ods = done ++ rest →
      ((lsAlloc maxVersions).lsAddObjs done).BinsApart ∧
        ∀ name x, ((lsAlloc maxVersions).lsAddObjs done).copies name x ≤ maxVersions) ↔
    ∀ done od rest, ods = done ++ od :: rest → ((lsAlloc maxVersions).lsAddObjs done).MeetsOne od := by
  constructor
  · intro hall done od rest hsplit
    have hbefore := (hall done (od :: rest) hsplit).1
    have hafter := (hall (done ++ [od]) rest (by rw [hsplit]; simp)).1
    rw [SsStorage.lsAddObjs_append_singleton] at hafter
    exact (hbefore.step_iff od).1 hafter
  · intro hone
    -- by induction on the calls that were made: each keeps the bins in order
    have happart : ∀ done rest, ods = done ++ rest →
        ((lsAlloc maxVersions).lsAddObjs done).BinsApart := by
      intro done
      induction done using List.reverseRecOn with
      | nil =>
          intro rest _
          exact SsStorage.binsApart_lsAlloc maxVersions
      | append_singleton done od ih =>
          intro rest hsplit
          have hsplit' : ods = done ++ od :: rest := by simpa using hsplit
          rw [SsStorage.lsAddObjs_append_singleton]
          exact ((ih _ hsplit').step_iff od).2 (hone done od rest hsplit')
    intro done rest hsplit
    refine ⟨happart done rest hsplit, fun name x => ?_⟩
    have hle := (happart done rest hsplit).copies_le name x
    rw [SsStorage.sizeHash_lsAddObjs] at hle
    exact hle

/-- Version 1 in halves, then version 2 of the whole. -/
def mergingPuts : List ObjData :=
  [plainObj 1 (BBox.line 0 0), plainObj 1 (BBox.line 1 1), plainObj 2 (BBox.line 0 1)]

/-- The last of these puts meets both halves and evicts one of them, so that with one version to cache
two versions of the other half's cell are stored. -/
theorem adds_not_bounded :
    PutsApart mergingPuts ∧
    ¬ ∀ done rest, mergingPuts = done ++ rest →
      ((lsAlloc 1).lsAddObjs done).BinsApart ∧
        ∀ name x, ((lsAlloc 1).lsAddObjs done).copies name x ≤ 1 := by
  refine ⟨?_, fun hall => ?_⟩
  · rw [PutsApart]
    decide
  · have hcopies := (hall mergingPuts [] (by simp)).2 [97] fun _ => 0
    exact absurd hcopies (by decide +kernel)

end DataSpaces
