import DataSpaces.CellCount
import DataSpaces.Fetch
import DataSpaces.SubArray

/-!
# Assembly — the argument of a remote execution (`ls_find_all`, `pexec_rpc`)

`ls_find_all` collects the objects that a query meets and subtracts the volumes of their parts from
the volume of the query: what is left is zero iff the query is covered.  `pexec_rpc` then copies the
part of every object into the argument, through an object of its own.

Both the argument and the parts are allocated by `obj_data_alloc`, which holds the number of bytes in
an `int`.  From 2 GiB on it asks for a negative number of bytes, which `malloc` refuses, or for too
few.
-/

namespace DataSpaces

/-! ## Finding the objects -/

/-- One turn of the loop of `ls_find_all`: the objects found and the `long` that counts down. -/
def lsFindAllStep (odsc : ObjDesc) (s : List ObjData × Int64) (od : ObjData) : List ObjData × Int64 :=
  if objDescEqualsIntersect odsc od.objDesc then
    (s.1 ++ [od], s.2 - (bboxVolume (bboxIntersect odsc.bb od.objDesc.bb)).toInt64)
  else s

/-- `ls_find_all`; `none` stands for the return value `-1`. -/
def lsFindAll (ls : SsStorage) (odsc : ObjDesc) : Option (List ObjData) :=
  let s := (ls.objHash (ls.index odsc)).foldl (lsFindAllStep odsc) ([], (bboxVolume odsc.bb).toInt64)
  if s.2 ≠ 0 then none else some s.1

/-! ## The argument -/

/-- The upper corner of a box. -/
def BBox.highCell (bb : BBox) : Cell :=
  bb.rect.hi

/-- Where the last byte that `ssd_copy` writes ends: at the upper corner of the common box. -/
def copyEnd (toObj fromObj : ObjData) : Nat :=
  (toObj.objDesc.bb.offset (bboxIntersect toObj.objDesc.bb fromObj.objDesc.bb).highCell + 1) *
    toObj.objDesc.size.toNat

/-- `ssd_copy` into an allocation of `cap` bytes; `none` if it writes past the end. -/
def ssdCopyInto (cap : Nat) (toObj fromObj : ObjData) : Option ObjData :=
  if copyEnd toObj fromObj ≤ cap then (ssdCopy toObj fromObj).map Prod.fst else none

/-- The loop of `pexec_rpc` over the objects, from number `i` on; `cap` bytes were allocated for
`arg_obj`. -/
def pexecLoop (inOdsc : ObjDesc) (cap : Nat) (malloced : Nat → Buf) :
    List ObjData → Nat → ObjData → Option ObjData
  | [], _, argObj => some argObj
  | fromObj :: fromObjs, i, argObj => do
      let odsc := { fromObj.objDesc with bb := bboxIntersect inOdsc.bb fromObj.objDesc.bb }
      let odCap ← objDataAllocBytes odsc
      let od ← ssdCopyInto odCap (objDataAllocNoData odsc (malloced i)) fromObj
      let argObj ← ssdCopyInto cap argObj od
      pexecLoop inOdsc cap malloced fromObjs (i + 1) argObj

/-- The part of `pexec_rpc` under `ls_mutex`: `arg_obj`, or `some none` if there is no input object.
A null pointer or memory past an allocation that is written to make it `none`. -/
def pexecArg (ls : SsStorage) (inOdsc : ObjDesc) (mallocedArg : Buf) (malloced : Nat → Buf) :
    Option (Option ObjData) :=
  match lsFindAll ls inOdsc with
  | none => some none
  | some [] => some none
  | some (fromObj :: fromObjs) => do
      let cap ← objDataAllocBytes inOdsc
      let argObj ← pexecLoop inOdsc cap malloced (fromObj :: fromObjs) 0 (objDataAllocNoData inOdsc mallocedArg)
      return some argObj

/-! ## Counting down -/

/-- The loop finds the objects that the query meets and subtracts their parts. -/
theorem foldl_lsFindAllStep (odsc : ObjDesc) (l : List ObjData) :
    ∀ s : List ObjData × Int64, l.foldl (lsFindAllStep odsc) s =
      (s.1 ++ l.filter (fun od => objDescEqualsIntersect odsc od.objDesc),
        (l.filter fun od => objDescEqualsIntersect odsc od.objDesc).foldl
          (fun n od => n - (bboxVolume (bboxIntersect odsc.bb od.objDesc.bb)).toInt64) s.2) := by
  induction l with
  | nil =>
      intro s
      simp
  | cons od l ih =>
      intro s
      rw [List.foldl_cons, ih, lsFindAllStep]
      by_cases hmeet : objDescEqualsIntersect odsc od.objDesc = true
      · rw [if_pos hmeet, List.filter_cons, if_pos hmeet, List.foldl_cons, List.append_assoc]
        rfl
      · rw [if_neg hmeet, List.filter_cons, if_neg hmeet]

/-- Subtracting parts of a `long` one by one. -/
theorem foldl_sub_int64 {α : Type} (f : α → Int64) (g : α → ℕ) (l : List α)
    (h : ∀ a ∈ l, f a = Int64.ofNat (g a)) :
    ∀ n : ℕ, (l.map g).sum ≤ n →
      l.foldl (fun n a => n - f a) (Int64.ofNat n) = Int64.ofNat (n - (l.map g).sum) := by
  induction l with
  | nil =>
      intro n _
      rfl
  | cons a l ih =>
      intro n hn
      rw [List.map_cons, List.sum_cons] at hn
      have hsub : Int64.ofNat n - Int64.ofNat (g a) = Int64.ofNat (n - g a) := by
        have hadd : Int64.ofNat n = Int64.ofNat (n - g a) + Int64.ofNat (g a) := by
          rw [← Int64.ofNat_add, Nat.sub_add_cancel (by omega)]
        rw [hadd, Int64.add_sub_cancel]
      rw [List.foldl_cons, h a (by simp), hsub, ih (fun b hb => h b (by simp [hb])) _ (by omega),
        List.map_cons, List.sum_cons, Nat.sub_sub]

/-! ## The storage and the query -/

/-- The object is in one of the bins. -/
def SsStorage.Stored (ls : SsStorage) (od : ObjData) : Prop :=
  ∃ n, od ∈ ls.objHash n

/-- The object is stored under the name and the version of the query. -/
structure SsStorage.HoldsFor (ls : SsStorage) (q : ObjDesc) (od : ObjData) : Prop where
  stored : ls.Stored od
  name : od.objDesc.name = q.name
  version : od.objDesc.version = q.version

/-- Every cell of the query lies in an object stored under its name and version. -/
def SsStorage.Covers (ls : SsStorage) (q : ObjDesc) : Prop :=
  ∀ x ∈ q.bb.cells, ∃ od, ls.HoldsFor q od ∧ x ∈ od.objDesc.bb.cells

/-- A storage in which objects of one name and version are apart, and a query of one to nine
dimensions for objects of its own dimensionality and element size. -/
structure Answers (ls : SsStorage) (q : ObjDesc) : Prop where
  binned : ls.Binned
  apart : ∀ n, (ls.objHash n).Pairwise fun od od' => od.objDesc.name = od'.objDesc.name →
    od.objDesc.version = od'.objDesc.version →
      Disjoint od.objDesc.bb.cells od'.objDesc.bb.cells
  valid : q.bb.Valid
  nine : q.bb.numDims ≤ 9
  volume : q.bb.cells.card < 2 ^ 63
  objValid : ∀ od, ls.HoldsFor q od → od.objDesc.bb.Valid
  objDims : ∀ od, ls.HoldsFor q od → od.objDesc.bb.numDims = q.bb.numDims
  objSize : ∀ od, ls.HoldsFor q od → od.objDesc.size = q.size
  objBytes : ∀ od, ls.HoldsFor q od → od.objDesc.bb.cells.card * q.size.toNat < 2 ^ 64

namespace Answers

variable {ls : SsStorage} {q : ObjDesc} (h : Answers ls q)

/-- The objects that the query meets, in the order of the bin. -/
def found (ls : SsStorage) (q : ObjDesc) : List ObjData :=
  (ls.objHash (ls.index q)).filter fun od => objDescEqualsIntersect q od.objDesc

include h

theorem mem_found {od : ObjData} : od ∈ found ls q ↔
    ls.HoldsFor q od ∧ (q.bb.cells ∩ od.objDesc.bb.cells).Nonempty := by
  have hmeets : ∀ {od : ObjData}, ls.HoldsFor q od →
      (bboxDoesIntersect q.bb od.objDesc.bb = true ↔
        (q.bb.cells ∩ od.objDesc.bb.cells).Nonempty) := fun {od} hod =>
    bboxDoesIntersect_iff h.valid (h.objValid od hod) (h.objDims od hod).symm
  rw [found, List.mem_filter, objDescEqualsIntersect_iff]
  constructor
  · rintro ⟨hmem, hname, hversion, hmeet⟩
    have hod : ls.HoldsFor q od := ⟨⟨_, hmem⟩, hname.symm, hversion.symm⟩
    exact ⟨hod, (hmeets hod).1 hmeet⟩
  · rintro ⟨hod, hne⟩
    obtain ⟨n, hmem⟩ := hod.stored
    -- an object of the query's version is in the bin that is searched
    have hbin : n = ls.index q := by
      rw [← h.binned n od hmem, SsStorage.index, SsStorage.index, hod.version]
    exact ⟨hbin ▸ hmem, hod.name.symm, hod.version.symm, (hmeets hod).2 hne⟩

theorem apart_found : Cover.Apart (fun od : ObjData => od.objDesc.bb.cells) (found ls q) := by
  refine List.Pairwise.imp_of_mem ?_ ((h.apart (ls.index q)).filter _)
  intro od od' hod hod' hdis
  have hod := (h.mem_found.1 hod).1
  have hod' := (h.mem_found.1 hod').1
  exact hdis (hod.name.trans hod'.name.symm) (hod.version.trans hod'.version.symm)

/-- The parts of the objects that the query meets. -/
theorem part_cells {od : ObjData} (hod : od ∈ found ls q) :
    (bboxIntersect q.bb od.objDesc.bb).Valid ∧
      (bboxIntersect q.bb od.objDesc.bb).cells = q.bb.cells ∩ od.objDesc.bb.cells := by
  obtain ⟨hod, hne⟩ := h.mem_found.1 hod
  have hd := (h.objDims od hod).symm
  exact ⟨bboxIntersect_valid h.valid (h.objValid od hod) hd
    ((bboxDoesIntersect_iff h.valid (h.objValid od hod) hd).2 hne), bboxIntersect_cells hd⟩

/-- The query is covered iff the objects found cover it. -/
theorem covers_iff : ls.Covers q ↔
    q.bb.cells ⊆ Cover.union (fun od : ObjData => od.objDesc.bb.cells) (found ls q) := by
  constructor
  · intro hcov x hx
    obtain ⟨od, hod, hxod⟩ := hcov x hx
    exact Cover.mem_union.2 ⟨od, h.mem_found.2 ⟨hod, x, Finset.mem_inter.2 ⟨hx, hxod⟩⟩, hxod⟩
  · intro hsub x hx
    obtain ⟨od, hod, hxod⟩ := Cover.mem_union.1 (hsub hx)
    exact ⟨od, (h.mem_found.1 hod).1, hxod⟩

/-- What is left of the volume is zero iff the query is covered. -/
theorem lsFindAll_eq : lsFindAll ls q = some (found ls q) ∧ ls.Covers q ∨
    lsFindAll ls q = none ∧ ¬ ls.Covers q := by
  have hsum := h.apart_found.sum_card_inter q.bb.cells
  have hsub : q.bb.cells ∩ Cover.union (fun od : ObjData => od.objDesc.bb.cells) (found ls q) ⊆
      q.bb.cells := Finset.inter_subset_left
  have hle := Finset.card_le_card hsub
  have hparts : ∀ od ∈ found ls q, (bboxVolume (bboxIntersect q.bb od.objDesc.bb)).toInt64 =
      Int64.ofNat (q.bb.cells ∩ od.objDesc.bb.cells).card := by
    intro od hod
    obtain ⟨hvalid, hcells⟩ := h.part_cells hod
    rw [bboxVolume_eq hvalid.nearValid, hcells, UInt64.toInt64_ofNat']
  -- the objects are apart, so that their parts add up to the part of the query that they cover
  have hcount := foldl_sub_int64 _ _ (found ls q) hparts q.bb.cells.card (by rw [hsum]; exact hle)
  rw [hsum] at hcount
  have hrun : lsFindAll ls q = if Int64.ofNat (q.bb.cells.card - (q.bb.cells ∩
      Cover.union (fun od : ObjData => od.objDesc.bb.cells) (found ls q)).card) ≠ 0 then none
      else some (found ls q) := by
    rw [lsFindAll, foldl_lsFindAllStep]
    simp only [List.nil_append]
    rw [bboxVolume_eq h.valid.nearValid, UInt64.toInt64_ofNat', ← hcount]
    rfl
  have hvol := h.volume
  -- nothing is left iff the part is the whole query
  have hzero : Int64.ofNat (q.bb.cells.card - (q.bb.cells ∩
      Cover.union (fun od : ObjData => od.objDesc.bb.cells) (found ls q)).card) = 0 ↔
        ls.Covers q := by
    rw [← Int64.toInt_inj, Int64.toInt_ofNat_of_lt (by omega), h.covers_iff,
      ← Finset.inter_eq_left]
    constructor
    · intro hz
      refine Finset.eq_of_subset_of_card_le Finset.inter_subset_left ?_
      have hz' := Int.ofNat.inj (hz.trans (show Int64.toInt 0 = Int.ofNat 0 from rfl))
      omega
    · intro heq
      rw [heq, Nat.sub_self]
      rfl
  by_cases hcov : ls.Covers q
  · refine Or.inl ⟨?_, hcov⟩
    rw [hrun, if_neg (not_not.2 (hzero.2 hcov))]
  · refine Or.inr ⟨?_, hcov⟩
    rw [hrun, if_pos fun hz => hcov (hzero.1 hz)]

end Answers

/-! ## Room for the bytes -/

/-- Copies between valid boxes of up to nine dimensions. -/
theorem ssdCopy_nine {toObj fromObj : ObjData} (hto : toObj.objDesc.bb.Valid)
    (hfrom : fromObj.objDesc.bb.Valid) (hd : toObj.objDesc.bb.numDims = fromObj.objDesc.bb.numDims)
    (hnine : toObj.objDesc.bb.numDims ≤ 9)
    (hmeet : bboxDoesIntersect toObj.objDesc.bb fromObj.objDesc.bb = true)
    (hcard : toObj.objDesc.bb.cells.card < 2 ^ 64)
    (hsizeTo : toObj.objDesc.bb.cells.card * toObj.objDesc.size.toNat < 2 ^ 64)
    (hsizeFrom : fromObj.objDesc.bb.cells.card * toObj.objDesc.size.toNat < 2 ^ 64) :
    ∃ r n, ssdCopy toObj fromObj = some (r, n) ∧ Copied toObj fromObj r := by
  rcases Nat.eq_zero_or_pos toObj.objDesc.size.toNat with hzero | hpos
  · exact ssdCopy_no_bytes hto hfrom hd hmeet (UInt64.toNat_inj.1 hzero) fun i hi =>
      (hto.side_le_card hi).trans_lt hcard
  · rcases ssdCopy_spec hto hfrom hd (fun hten => by omega) hmeet hpos hsizeTo hsizeFrom with
      ⟨r, n, hcopy, hcopied, -⟩
    exact ⟨r, n, hcopy, hcopied⟩

theorem BBox.Valid.highCell_mem {bb : BBox} (h : bb.Valid) : bb.highCell ∈ bb.cells := by
  have hle := Grid.Rect.cells_nonempty.1 h.cells_nonempty
  exact Grid.Rect.mem_cells.2 fun i => ⟨hle i, le_rfl⟩

/-- The upper corner is the last cell of the array. -/
theorem BBox.Valid.offset_highCell {bb : BBox} (h : bb.Valid) :
    bb.offset bb.highCell + 1 = bb.cells.card := by
  have hdigits : ∀ i < bb.numDims, bb.rel bb.highCell i = bb.side i - 1 := by
    intro i hi
    have hle := UInt64.le_iff_toNat_le.1 (h.le i hi)
    rw [BBox.rel_eq _ _ (lt_of_lt_of_le hi h.dims.2), BBox.highCell, BBox.rect, BBox.side]
    simp only [hi, if_true]
    omega
  rw [BBox.offset, Radix.value_congr (fun _ _ => rfl) hdigits,
    Radix.value_top _ h.side_pos, ← BBox.card_eq_weight h.dims.2]

/-- A part that has the upper corner has it as its upper corner. -/
theorem highCell_eq_of_mem {loc glb : BBox} (hloc : loc.Valid) (hsub : loc.cells ⊆ glb.cells)
    (hmem : glb.highCell ∈ loc.cells) : loc.highCell = glb.highCell := by
  have hup := Grid.Rect.mem_cells.1 (hsub hloc.highCell_mem)
  have hdown := Grid.Rect.mem_cells.1 hmem
  funext i
  exact Nat.le_antisymm (hup i).2 (hdown i).2

theorem ssdCopyInto_some {cap : ℕ} {toObj fromObj r : ObjData}
    (h : ssdCopyInto cap toObj fromObj = some r) :
    copyEnd toObj fromObj ≤ cap ∧ r.objDesc.bb = toObj.objDesc.bb ∧
      r.objDesc.size = toObj.objDesc.size := by
  rw [ssdCopyInto] at h
  split at h
  · next hle =>
      obtain ⟨⟨r', n⟩, hcopy, rfl⟩ := Option.map_eq_some_iff.1 h
      obtain ⟨s, -, hs⟩ := Option.map_eq_some_iff.1 hcopy
      simp only [Prod.mk.injEq] at hs
      rw [← hs.1]
      exact ⟨hle, rfl, rfl⟩
  · cases h

/-- A copy does not leave the array of the target. -/
theorem copyEnd_le {toObj fromObj : ObjData}
    (hpart : (bboxIntersect toObj.objDesc.bb fromObj.objDesc.bb).Valid)
    (hsub : (bboxIntersect toObj.objDesc.bb fromObj.objDesc.bb).cells ⊆ toObj.objDesc.bb.cells) :
    copyEnd toObj fromObj ≤ toObj.objDesc.bb.cells.card * toObj.objDesc.size.toNat :=
  Nat.mul_le_mul_right _
    (BBox.offset_lt_card (show toObj.objDesc.bb.numDims ≤ _ from hpart.dims.2)
      (hsub hpart.highCell_mem))

/-- A copy into an allocation that has the whole array of the target. -/
theorem ssdCopyInto_nine (toObj fromObj : ObjData) (cap : ℕ) (hto : toObj.objDesc.bb.Valid)
    (hfrom : fromObj.objDesc.bb.Valid) (hd : toObj.objDesc.bb.numDims = fromObj.objDesc.bb.numDims)
    (hnine : toObj.objDesc.bb.numDims ≤ 9)
    (hmeet : bboxDoesIntersect toObj.objDesc.bb fromObj.objDesc.bb = true)
    (hcard : toObj.objDesc.bb.cells.card < 2 ^ 64)
    (hcap : toObj.objDesc.bb.cells.card * toObj.objDesc.size.toNat ≤ cap) (hlt : cap < 2 ^ 31)
    (hsizeFrom : fromObj.objDesc.bb.cells.card * toObj.objDesc.size.toNat < 2 ^ 64) :
    ∃ r, ssdCopyInto cap toObj fromObj = some r ∧ Copied toObj fromObj r := by
  obtain ⟨r, n, hcopy, hcopied⟩ := ssdCopy_nine hto hfrom hd hnine hmeet hcard (by omega) hsizeFrom
  have hend := copyEnd_le (bboxIntersect_valid hto hfrom hd hmeet)
    ((bboxIntersect_cells hd).trans_subset Finset.inter_subset_left)
  refine ⟨r, ?_, hcopied⟩
  rw [ssdCopyInto, if_pos (hend.trans hcap), hcopy]
  rfl

/-! ## The loop -/

/-- The memory of the argument holds the bytes of an object at the common cells. -/
def HoldsPart (argObj od : ObjData) : Prop :=
  ∀ x ∈ argObj.objDesc.bb.cells ∩ od.objDesc.bb.cells, ∀ c < argObj.objDesc.size.toNat,
    argObj.data (argObj.objDesc.bb.offset x * argObj.objDesc.size.toNat + c) =
      od.data (od.objDesc.bb.offset x * argObj.objDesc.size.toNat + c)

namespace Answers

variable {ls : SsStorage} {q : ObjDesc} (h : Answers ls q)

include h

/-- One turn of the loop below 2 GiB: the common cells are written with the bytes of the object and no
other cell is. -/
theorem pexecLoop_turn {od argObj : ObjData} (hod : od ∈ found ls q)
    (hbytes : q.bb.cells.card * q.size.toNat < 2 ^ 31) (hbb : argObj.objDesc.bb = q.bb)
    (hsz : argObj.objDesc.size = q.size) (malloced : Nat → Buf) (l : List ObjData) (i : Nat) :
    ∃ r, pexecLoop q (q.bb.cells.card * q.size.toNat) malloced (od :: l) i argObj =
        pexecLoop q (q.bb.cells.card * q.size.toNat) malloced l (i + 1) r ∧
      Copied argObj od r := by
  obtain ⟨hholds, hne⟩ := h.mem_found.1 hod
  obtain ⟨hvalid, hcells⟩ := h.part_cells hod
  have hd := h.objDims od hholds
  have hodv := h.objValid od hholds
  have hvol := h.volume
  have hsub : (bboxIntersect q.bb od.objDesc.bb).cells ⊆ q.bb.cells :=
    hcells.trans_subset Finset.inter_subset_left
  have hpartBytes : (bboxIntersect q.bb od.objDesc.bb).cells.card * q.size.toNat ≤
      q.bb.cells.card * q.size.toNat := Nat.mul_le_mul_right _ (Finset.card_le_card hsub)
  have hpartCard := Finset.card_le_card hsub
  obtain ⟨x₀, hx₀⟩ := hne
  have hx₀part : x₀ ∈ (bboxIntersect q.bb od.objDesc.bb).cells := hcells ▸ hx₀
  -- the part is allocated
  have halloc : objDataAllocBytes { od.objDesc with bb := bboxIntersect q.bb od.objDesc.bb } =
      some ((bboxIntersect q.bb od.objDesc.bb).cells.card * q.size.toNat) := by
    rw [← h.objSize od hholds]
    refine objDataAllocBytes_eq hvalid ?_
    rw [h.objSize od hholds]
    exact hpartBytes.trans_lt hbytes
  -- the object is copied into the part
  obtain ⟨part, hpart, hcopied⟩ := ssdCopyInto_nine
    (objDataAllocNoData { od.objDesc with bb := bboxIntersect q.bb od.objDesc.bb } (malloced i)) od
    ((bboxIntersect q.bb od.objDesc.bb).cells.card * q.size.toNat) hvalid hodv hd.symm h.nine
    (bboxDoesIntersect_of_mem hd.symm hvalid.dims hx₀part (Finset.mem_inter.1 hx₀).2)
    (hpartCard.trans_lt (by omega))
    (Nat.mul_le_mul_left _ (le_of_eq (congrArg UInt64.toNat (h.objSize od hholds))))
    (by omega) (by
      show od.objDesc.bb.cells.card * od.objDesc.size.toNat < 2 ^ 64
      rw [h.objSize od hholds]
      exact h.objBytes od hholds)
  have hpartBB : part.objDesc.bb = bboxIntersect q.bb od.objDesc.bb := hcopied.bb
  have hpartSize : part.objDesc.size = q.size := hcopied.size.trans (h.objSize od hholds)
  -- the part is copied into the argument
  obtain ⟨r, hr, hcopied'⟩ := ssdCopyInto_nine argObj part (q.bb.cells.card * q.size.toNat)
    (hbb ▸ h.valid) (hpartBB ▸ hvalid) (by rw [hbb, hpartBB]; rfl)
    (hbb ▸ h.nine) (by
      rw [hbb, hpartBB]
      exact bboxDoesIntersect_of_mem rfl h.valid.dims (hsub hx₀part) hx₀part)
    (by rw [hbb]; omega) (by rw [hbb, hsz]) hbytes (by rw [hpartBB, hsz]; omega)
  refine ⟨r, ?_, hcopied'.bb, hcopied'.size, ?_, ?_⟩
  · rw [pexecLoop]
    simp only [halloc, Option.bind_eq_bind, Option.bind_some, hpart, hr]
  · intro x hx c hc
    have hxpart : x ∈ (bboxIntersect q.bb od.objDesc.bb).cells := by
      rw [hcells, ← hbb]
      exact hx
    have hto := hcopied'.inside x (Finset.mem_inter.2 ⟨(Finset.mem_inter.1 hx).1, hpartBB ▸ hxpart⟩) c hc
    have hfrom := hcopied.inside x (Finset.mem_inter.2 ⟨hxpart, (Finset.mem_inter.1 hx).2⟩) c (by
      rw [hsz] at hc
      exact (h.objSize od hholds).symm ▸ hc)
    have hsizes : (objDataAllocNoData { od.objDesc with bb := bboxIntersect q.bb od.objDesc.bb }
        (malloced i)).objDesc.size = argObj.objDesc.size := (h.objSize od hholds).trans hsz.symm
    rw [hsizes] at hfrom
    rw [hpartBB] at hto
    exact hto.trans hfrom
  · intro p hp
    refine hcopied'.outside p fun x hx c hc => hp x ?_ c hc
    rw [hpartBB, hcells] at hx
    exact Finset.mem_inter.2 ⟨(Finset.mem_inter.1 hx).1, (Finset.mem_inter.1 (Finset.mem_inter.1 hx).2).2⟩

/-- The loop below 2 GiB over some of the objects that the query meets: at the end the argument holds
the bytes of all of them, and what it held at the other cells. -/
theorem pexecLoop_spec (hbytes : q.bb.cells.card * q.size.toNat < 2 ^ 31) (malloced : Nat → Buf)
    (l : List ObjData) (hapart : Cover.Apart (fun od : ObjData => od.objDesc.bb.cells) l)
    (hl : ∀ od ∈ l, od ∈ found ls q) :
    ∀ (i : Nat) (argObj : ObjData), argObj.objDesc.bb = q.bb → argObj.objDesc.size = q.size →
      ∃ r, pexecLoop q (q.bb.cells.card * q.size.toNat) malloced l i argObj = some r ∧
        r.objDesc.bb = q.bb ∧ r.objDesc.size = q.size ∧ (∀ od ∈ l, HoldsPart r od) ∧
        ∀ x ∈ q.bb.cells, x ∉ Cover.union (fun od : ObjData => od.objDesc.bb.cells) l →
          ∀ c < q.size.toNat, r.data (q.bb.offset x * q.size.toNat + c) =
            argObj.data (q.bb.offset x * q.size.toNat + c) := by
  induction l with
  | nil =>
      intro i argObj hbb hsz
      exact ⟨argObj, rfl, hbb, hsz, fun od hod => absurd hod (List.not_mem_nil), fun _ _ _ _ _ => rfl⟩
  | cons od l ih =>
      intro i argObj hbb hsz
      obtain ⟨r₁, hturn, hcopied⟩ := h.pexecLoop_turn (hl od (by simp)) hbytes hbb hsz malloced l i
      obtain ⟨r, hloop, hrbb, hrsz, hheld, hkept⟩ := ih hapart.tail (fun o ho => hl o (by simp [ho]))
        (i + 1) r₁ (hcopied.bb.trans hbb) (hcopied.size.trans hsz)
      refine ⟨r, hturn.trans hloop, hrbb, hrsz, ?_, ?_⟩
      · intro o ho
        rcases List.mem_cons.1 ho with rfl | ho
        · intro x hx c hc
          rw [hrbb, hrsz] at *
          -- the objects after it are apart from it, so that its cells are kept
          have hnot : x ∉ Cover.union (fun od : ObjData => od.objDesc.bb.cells) l := fun hxl =>
            Finset.disjoint_left.1 hapart.disjoint_union (Finset.mem_inter.1 hx).2 hxl
          rw [hkept x (Finset.mem_inter.1 hx).1 hnot c hc]
          have hin := hcopied.inside x (by rwa [hbb]) c (by rwa [hsz])
          rwa [hbb, hsz] at hin
        · exact hheld o ho
      · intro x hx hnot c hc
        rw [hkept x hx (fun hxl => hnot ?_) c hc]
        · refine hcopied.outside _ fun x' hx' c' hc' heq => hnot ?_
          rw [hbb] at hx' heq
          rw [hsz] at hc' heq
          have hoff := elem_eq_of_byte_eq hc hc' heq
          rw [BBox.offset_inj h.valid.dims.2 hx (Finset.mem_inter.1 hx').1 hoff]
          exact Cover.mem_union.2 ⟨od, by simp, (Finset.mem_inter.1 hx').2⟩
        · obtain ⟨o, ho, hxo⟩ := Cover.mem_union.1 hxl
          exact Cover.mem_union.2 ⟨o, by simp [ho], hxo⟩

/-- A loop that ends has stayed inside the allocation with every object. -/
theorem copyEnd_le_of_pexecLoop {cap : ℕ} {malloced : Nat → Buf} (l : List ObjData)
    (hl : ∀ od ∈ l, od ∈ found ls q) :
    ∀ (i : Nat) (argObj r : ObjData), argObj.objDesc.bb = q.bb → argObj.objDesc.size = q.size →
      pexecLoop q cap malloced l i argObj = some r →
      ∀ od ∈ l, q.bb.highCell ∈ od.objDesc.bb.cells → q.bb.cells.card * q.size.toNat ≤ cap := by
  induction l with
  | nil =>
      intro i argObj r _ _ _ od hod
      exact absurd hod List.not_mem_nil
  | cons od l ih =>
      intro i argObj r hbb hsz hloop o ho hhigh
      simp only [pexecLoop, Option.bind_eq_bind, Option.bind_eq_some_iff] at hloop
      obtain ⟨odCap, -, part, hpart, arg', harg, hrest⟩ := hloop
      obtain ⟨-, hpartBB, -⟩ := ssdCopyInto_some hpart
      obtain ⟨hend, hargBB, hargSize⟩ := ssdCopyInto_some harg
      rcases List.mem_cons.1 ho with rfl | ho
      · obtain ⟨hvalid, hcells⟩ := h.part_cells (hl o (by simp))
        have hpartBB : part.objDesc.bb = bboxIntersect q.bb o.objDesc.bb := hpartBB
        have hd : q.bb.numDims = (bboxIntersect q.bb o.objDesc.bb).numDims := rfl
        -- the part of this object ends at the last cell of the query
        have hmem : q.bb.highCell ∈ (bboxIntersect q.bb o.objDesc.bb).cells := by
          rw [hcells]
          exact Finset.mem_inter.2 ⟨h.valid.highCell_mem, hhigh⟩
        have hcommon : (bboxIntersect q.bb (bboxIntersect q.bb o.objDesc.bb)).cells =
            q.bb.cells ∩ (bboxIntersect q.bb o.objDesc.bb).cells := bboxIntersect_cells hd
        have hvalid' : (bboxIntersect q.bb (bboxIntersect q.bb o.objDesc.bb)).Valid :=
          bboxIntersect_valid h.valid hvalid hd
            (bboxDoesIntersect_of_mem hd h.valid.dims h.valid.highCell_mem hmem)
        have hcorner := highCell_eq_of_mem hvalid'
          (hcommon.trans_subset Finset.inter_subset_left)
          (by rw [hcommon]; exact Finset.mem_inter.2 ⟨h.valid.highCell_mem, hmem⟩)
        rw [copyEnd, hbb, hsz, hpartBB, hcorner, h.valid.offset_highCell] at hend
        exact hend
      · exact ih (fun o' ho' => hl o' (by simp [ho'])) (i + 1) arg' r (hargBB.trans hbb)
          (hargSize.trans hsz) hrest o ho hhigh

end Answers

/-! ## Main results -/

/-- What is expected of `ls_find_all` and of the loop of `pexec_rpc`. -/
structure Assembles (ls : SsStorage) (q : ObjDesc) : Prop where
  count : (lsFindAll ls q).isSome ↔ ls.Covers q
  found : ∀ ods, lsFindAll ls q = some ods → ods.Sublist (ls.objHash (ls.index q)) ∧
    ∀ od, od ∈ ods ↔ ls.HoldsFor q od ∧ (q.bb.cells ∩ od.objDesc.bb.cells).Nonempty
  argument : ls.Covers q → ∀ (mallocedArg : Buf) (malloced : Nat → Buf), ∃ argObj,
    pexecArg ls q mallocedArg malloced = some (some argObj) ∧
      ∀ x ∈ q.bb.cells, ∀ od, ls.HoldsFor q od → x ∈ od.objDesc.bb.cells → ∀ c < q.size.toNat,
        argObj.data (q.bb.offset x * q.size.toNat + c) =
          od.data (od.objDesc.bb.offset x * q.size.toNat + c)

/-- The argument of a covered query, in terms of the objects found. -/
theorem Answers.pexecArg_eq {ls : SsStorage} {q : ObjDesc} (h : Answers ls q) (hcov : ls.Covers q)
    (mallocedArg : Buf) (malloced : Nat → Buf) :
    pexecArg ls q mallocedArg malloced = (do
      let cap ← objDataAllocBytes q
      let argObj ← pexecLoop q cap malloced (Answers.found ls q) 0 (objDataAllocNoData q mallocedArg)
      return some argObj) := by
  have hfind : lsFindAll ls q = some (Answers.found ls q) := by
    rcases h.lsFindAll_eq with ⟨hfind, -⟩ | ⟨-, hnot⟩
    · exact hfind
    · exact absurd hcov hnot
  rw [pexecArg, hfind]
  cases hl : Answers.found ls q with
  | nil =>
      -- the query has a cell, which an object found contains
      obtain ⟨x, hx⟩ := h.valid.cells_nonempty
      obtain ⟨od, hod, -⟩ := Cover.mem_union.1 (h.covers_iff.1 hcov hx)
      rw [hl] at hod
      exact absurd hod List.not_mem_nil
  | cons od l => rfl

/-- The objects found are right in every case, and the argument is right iff the query takes less than
2 GiB. -/
theorem assembles_iff {ls : SsStorage} {q : ObjDesc} (h : Answers ls q) :
    Assembles ls q ↔ q.bb.cells.card * q.size.toNat < 2 ^ 31 ∨ ¬ ls.Covers q := by
  constructor
  · intro hright
    by_cases hcov : ls.Covers q
    · refine Or.inl ?_
      obtain ⟨argObj, harg, -⟩ := hright.argument hcov (fun _ => 0) fun _ _ => 0
      rw [h.pexecArg_eq hcov] at harg
      simp only [Option.bind_eq_bind, Option.bind_eq_some_iff] at harg
      obtain ⟨cap, hcap, r, hloop, -⟩ := harg
      -- the object with the upper corner of the query is written up to the end
      obtain ⟨od, hod, hhigh⟩ := Cover.mem_union.1 (h.covers_iff.1 hcov h.valid.highCell_mem)
      have hroom := h.copyEnd_le_of_pexecLoop _ (fun _ ho => ho) 0 _ r rfl rfl hloop od hod hhigh
      exact hroom.trans_lt (objDataAllocBytes_lt hcap)
    · exact Or.inr hcov
  · intro hsmall
    refine ⟨?_, ?_, ?_⟩
    · rcases h.lsFindAll_eq with ⟨hfind, hcov⟩ | ⟨hfind, hcov⟩
      · simp [hfind, hcov]
      · simp [hfind, hcov]
    · intro ods hods
      obtain rfl : Answers.found ls q = ods := by
        rcases h.lsFindAll_eq with ⟨hfind, -⟩ | ⟨hfind, -⟩
        · exact Option.some.inj (hfind.symm.trans hods)
        · rw [hfind] at hods
          cases hods
      exact ⟨List.filter_sublist, fun od => h.mem_found⟩
    · intro hcov mallocedArg malloced
      have hbytes := hsmall.resolve_right (not_not.2 hcov)
      obtain ⟨r, hloop, hbb, hsz, hheld, -⟩ := h.pexecLoop_spec hbytes malloced _ h.apart_found
        (fun _ hod => hod) 0 (objDataAllocNoData q mallocedArg) rfl rfl
      refine ⟨r, ?_, ?_⟩
      · rw [h.pexecArg_eq hcov, objDataAllocBytes_eq h.valid hbytes]
        simp only [Option.bind_eq_bind, Option.bind_some, hloop]
        rfl
      · intro x hx od hod hxod c hc
        have hpart := hheld od (h.mem_found.2 ⟨hod, x, Finset.mem_inter.2 ⟨hx, hxod⟩⟩) x
        rw [hbb, hsz] at hpart
        exact hpart (Finset.mem_inter.2 ⟨hx, hxod⟩) c hc

/-! ## Lines -/

/-- A storage of one bin with objects of one byte a cell on two lines that meet at `mid`. -/
def lineStorage (mid hi : UInt64) : SsStorage where
  sizeHash := 1
  varDict := dsStrHashInit
  objHash n :=
    if n = 0 then
      [objOn (BBox.line 0 (mid - 1)) 1 fun _ => 7, objOn (BBox.line mid hi) 1 fun _ => 8]
    else []

theorem holdsFor_lineStorage {mid hi : UInt64} {od : ObjData}
    (h : (lineStorage mid hi).HoldsFor (plainDesc 0 (BBox.line 0 hi)) od) :
    od = objOn (BBox.line 0 (mid - 1)) 1 (fun _ => 7) ∨ od = objOn (BBox.line mid hi) 1 fun _ => 8 := by
  obtain ⟨n, hn⟩ := h.stored
  simp only [lineStorage] at hn
  split at hn
  · simpa using hn
  · exact absurd hn List.not_mem_nil

theorem answers_lineStorage {mid hi : UInt64} (hmid : 0 < mid) (hle : mid ≤ hi)
    (hhi : hi.toNat < 2 ^ 62) : Answers (lineStorage mid hi) (plainDesc 0 (BBox.line 0 hi)) := by
  have hpos := UInt64.lt_iff_toNat_lt.1 hmid
  have hle' := UInt64.le_iff_toNat_le.1 hle
  have hpred : (mid - 1).toNat = mid.toNat - 1 :=
    UInt64.toNat_sub_of_le _ _ (UInt64.le_iff_toNat_le.2 hpos)
  have hlow : (BBox.line 0 (mid - 1)).Valid := BBox.line_valid UInt64.zero_le
  -- no cell is up to `mid - 1` and from `mid` on
  have hdisjoint : Disjoint (BBox.line 0 (mid - 1)).cells (BBox.line mid hi).cells := by
    refine Finset.disjoint_left.2 fun x hx hx' => ?_
    have hx0 := ((BBox.mem_cells.1 hx).1 0 Nat.one_pos).2
    have hx0' := ((BBox.mem_cells.1 hx').1 0 Nat.one_pos).1
    have h1 : x 0 ≤ (mid - 1).toNat := hx0
    have h2 : mid.toNat ≤ x 0 := hx0'
    rw [hpred] at h1
    omega
  refine ⟨?_, ?_, BBox.line_valid UInt64.zero_le,
    show 1 ≤ 9 by decide, ?_, ?_, ?_, ?_, ?_⟩
  · intro n od hod
    simp only [lineStorage] at hod
    split at hod
    · next hn => rw [hn, SsStorage.index, lineStorage, Nat.mod_one]
    · exact absurd hod List.not_mem_nil
  · intro n
    simp only [lineStorage]
    split
    · exact List.pairwise_pair.2 fun _ _ => hdisjoint
    · exact List.Pairwise.nil
  · rw [show (plainDesc 0 (BBox.line 0 hi)).bb = BBox.line 0 hi from rfl, card_line]
    omega
  · intro od hod
    rcases holdsFor_lineStorage hod with rfl | rfl
    · exact hlow
    · exact BBox.line_valid hle
  · intro od hod
    rcases holdsFor_lineStorage hod with rfl | rfl <;> rfl
  · intro od hod
    rcases holdsFor_lineStorage hod with rfl | rfl <;> rfl
  · intro od hod
    have hone : (plainDesc 0 (BBox.line 0 hi)).size.toNat = 1 := rfl
    rw [hone, Nat.mul_one]
    rcases holdsFor_lineStorage hod with rfl | rfl
    · rw [show (objOn (BBox.line 0 (mid - 1)) 1 fun _ => 7).objDesc.bb = BBox.line 0 (mid - 1) from rfl,
        card_line, hpred]
      omega
    · rw [show (objOn (BBox.line mid hi) 1 fun _ => 8).objDesc.bb = BBox.line mid hi from rfl, card_line]
      omega

/-- Two cells of each object. -/
theorem assembles_lineStorage : Assembles (lineStorage 2 3) (plainDesc 0 (BBox.line 0 3)) :=
  (assembles_iff (answers_lineStorage (by decide) (by decide) (by decide))).2 (Or.inl (by
    rw [show (plainDesc 0 (BBox.line 0 3)).bb = BBox.line 0 3 from rfl, card_line]
    decide))

/-- Two objects of 1 GiB: both are found, and the allocation of the argument fails. -/
theorem not_assembles_lineStorage :
    Answers (lineStorage 0x40000000 0x7fffffff) (plainDesc 0 (BBox.line 0 0x7fffffff)) ∧
      (lsFindAll (lineStorage 0x40000000 0x7fffffff)
        (plainDesc 0 (BBox.line 0 0x7fffffff))).map List.length = some 2 ∧
      (∀ mallocedArg malloced, pexecArg (lineStorage 0x40000000 0x7fffffff)
        (plainDesc 0 (BBox.line 0 0x7fffffff)) mallocedArg malloced = none) ∧
      ¬ Assembles (lineStorage 0x40000000 0x7fffffff) (plainDesc 0 (BBox.line 0 0x7fffffff)) := by
  have hanswers : Answers (lineStorage 0x40000000 0x7fffffff) (plainDesc 0 (BBox.line 0 0x7fffffff)) :=
    answers_lineStorage (by decide) (by decide) (by decide)
  have hcount : (lsFindAll (lineStorage 0x40000000 0x7fffffff)
      (plainDesc 0 (BBox.line 0 0x7fffffff))).map List.length = some 2 := by decide
  have hcov : (lineStorage 0x40000000 0x7fffffff).Covers (plainDesc 0 (BBox.line 0 0x7fffffff)) := by
    rcases hanswers.lsFindAll_eq with ⟨-, hcov⟩ | ⟨hnone, -⟩
    · exact hcov
    · rw [hnone] at hcount
      cases hcount
  have hnone : ∀ mallocedArg malloced, pexecArg (lineStorage 0x40000000 0x7fffffff)
      (plainDesc 0 (BBox.line 0 0x7fffffff)) mallocedArg malloced = none := by
    intro mallocedArg malloced
    -- the number of bytes is negative as an `int`
    have halloc : objDataAllocBytes (plainDesc 0 (BBox.line 0 0x7fffffff)) = none := by decide
    rw [hanswers.pexecArg_eq hcov, halloc]
    rfl
  refine ⟨hanswers, hcount, hnone, fun hright => ?_⟩
  obtain ⟨argObj, harg, -⟩ := hright.argument hcov (fun _ => 0) fun _ _ => 0
  rw [hnone] at harg
  cases harg

end DataSpaces
