import Mathlib.Logic.Function.Basic
import DataSpaces.BBox
import DataSpaces.StrHash

/-!
# Storage — object descriptors and the local storage of a server (`ss_data.c`)

A server keeps the objects it was given in bins by version modulo the number of versions.  Adding an
object first evicts one object of the same name that intersects it, whatever its version is, and puts
the new one at the head of its bin.

Every function that would count references to an object finds the count at `0`: nothing in the
repository increments `refcnt`, so an eviction is never delayed.
-/

namespace DataSpaces

/-- `enum storage_type`. -/
inductive StorageType
  | rowMajor
  | columnMajor
  deriving DecidableEq

/-- The address string in `odsc->owner`, by whose address it is. -/
inductive Owner
  | none
  | server (rank : Nat)
  | client (id : Nat)
  deriving DecidableEq

/-- `obj_descriptor`. -/
structure ObjDesc where
  name : CStr
  st : StorageType
  flags : UInt32
  tag : Int32
  type : Int32
  owner : Owner
  version : UInt32
  bb : BBox
  size : UInt64
  deriving DecidableEq

/-- `struct global_dimension`. -/
structure GlobalDimension where
  ndim : Nat
  sizes : Coord
  deriving DecidableEq

/-- The memory behind a `void *`, from the address on. -/
abbrev Buf : Type := Nat → UInt8

/-- `struct obj_data`. -/
structure ObjData where
  objDesc : ObjDesc
  gdim : GlobalDimension
  data : Buf

/-! ## Comparing descriptors -/

/-- Same name, same version, intersecting boxes. -/
def objDescEqualsIntersect (odsc1 odsc2 : ObjDesc) : Bool :=
  odsc1.name == odsc2.name && odsc1.version == odsc2.version &&
    bboxDoesIntersect odsc1.bb odsc2.bb

/-- Same name, intersecting boxes. -/
def objDescByNameIntersect (odsc1 odsc2 : ObjDesc) : Bool :=
  odsc1.name == odsc2.name && bboxDoesIntersect odsc1.bb odsc2.bb

/-- Same version, name and box. -/
def objDescEqualsNoOwner (odsc1 odsc2 : ObjDesc) : Bool :=
  odsc1.version == odsc2.version && odsc1.name == odsc2.name && bboxEquals odsc1.bb odsc2.bb

/-- What a query is told about a descriptor: the part inside the query, in the storage order of the
query. -/
def clipOdsc (qOdsc odsc : ObjDesc) : ObjDesc :=
  { odsc with
    st := qOdsc.st
    bb := bboxIntersect qOdsc.bb odsc.bb }

theorem objDescEqualsIntersect_iff {odsc1 odsc2 : ObjDesc} :
    objDescEqualsIntersect odsc1 odsc2 = true ↔
      odsc1.name = odsc2.name ∧ odsc1.version = odsc2.version ∧
        bboxDoesIntersect odsc1.bb odsc2.bb = true := by
  simp [objDescEqualsIntersect, and_assoc]

theorem objDescByNameIntersect_iff {odsc1 odsc2 : ObjDesc} :
    objDescByNameIntersect odsc1 odsc2 = true ↔
      odsc1.name = odsc2.name ∧ bboxDoesIntersect odsc1.bb odsc2.bb = true := by
  simp [objDescByNameIntersect]

theorem objDescEqualsNoOwner_iff {odsc1 odsc2 : ObjDesc} :
    objDescEqualsNoOwner odsc1 odsc2 = true ↔
      odsc1.version = odsc2.version ∧ odsc1.name = odsc2.name ∧
        bboxEquals odsc1.bb odsc2.bb = true := by
  simp [objDescEqualsNoOwner, and_assoc]

/-! ## Local storage -/

/-- `ss_storage`, with the bins of objects. -/
structure SsStorage where
  sizeHash : Nat
  varDict : DsStrHash
  objHash : Nat → List ObjData

def lsAlloc (maxVersions : Nat) : SsStorage where
  sizeHash := maxVersions
  varDict := dsStrHashInit
  objHash := fun _ => []

namespace SsStorage

/-- The bin of a version. -/
def index (ls : SsStorage) (odsc : ObjDesc) : Nat :=
  odsc.version.toNat % ls.sizeHash

/-- The first object with the name and the version of the descriptor that intersects it. -/
def lsFind (ls : SsStorage) (odsc : ObjDesc) : Option ObjData :=
  (ls.objHash (ls.index odsc)).find? fun od => objDescEqualsIntersect odsc od.objDesc

/-- The first object of the bin with the name of the descriptor that intersects it. -/
def lsFindNoVersion (ls : SsStorage) (odsc : ObjDesc) : Option ObjData :=
  (ls.objHash (ls.index odsc)).find? fun od => objDescByNameIntersect odsc od.objDesc

/-- The first object with the name, in any bin. -/
def lsLookup (ls : SsStorage) (name : CStr) : Option ObjData :=
  (List.range ls.sizeHash).findSome? fun i =>
    (ls.objHash i).find? fun od => od.objDesc.name == name

/-- The descriptors of all objects with the name. -/
def lsFindAllNoVersion (ls : SsStorage) (varName : CStr) : List ObjDesc :=
  (List.range ls.sizeHash).flatMap fun i =>
    ((ls.objHash i).filter fun od => od.objDesc.name == varName).map ObjData.objDesc

def lsGetVarNames (ls : SsStorage) : List CStr :=
  dsStrHashGetAll ls.varDict

/-- Add an object; the object that `ls_find_no_version` finds for it is evicted. -/
def lsAddObj (ls : SsStorage) (od : ObjData) : SsStorage :=
  let bin := (ls.objHash (ls.index od.objDesc)).eraseP fun old =>
    objDescByNameIntersect od.objDesc old.objDesc
  { ls with
    varDict := dsStrHashAdd ls.varDict od.objDesc.name
    objHash := Function.update ls.objHash (ls.index od.objDesc) (od :: bin) }

@[simp] theorem sizeHash_lsAddObj (ls : SsStorage) (od : ObjData) :
    (ls.lsAddObj od).sizeHash = ls.sizeHash := rfl

@[simp] theorem index_lsAddObj (ls : SsStorage) (od : ObjData) (odsc : ObjDesc) :
    (ls.lsAddObj od).index odsc = ls.index odsc := rfl

theorem objHash_lsAddObj (ls : SsStorage) (od : ObjData) (n : Nat) :
    (ls.lsAddObj od).objHash n =
      if n = ls.index od.objDesc then
        od :: (ls.objHash n).eraseP fun old => objDescByNameIntersect od.objDesc old.objDesc
      else ls.objHash n := by
  simp only [lsAddObj, Function.update_apply]
  split
  · next h => rw [h]
  · rfl

/-- Every object sits in the bin of its version. -/
def Binned (ls : SsStorage) : Prop :=
  ∀ n, ∀ od ∈ ls.objHash n, ls.index od.objDesc = n

theorem binned_lsAlloc (maxVersions : Nat) : (lsAlloc maxVersions).Binned := by
  intro n od hod
  simp [lsAlloc] at hod

theorem Binned.lsAddObj {ls : SsStorage} (h : ls.Binned) (od : ObjData) :
    (ls.lsAddObj od).Binned := by
  intro n od' hod'
  rw [objHash_lsAddObj] at hod'
  split at hod'
  · next hn =>
      rcases List.mem_cons.1 hod' with rfl | hold
      · exact hn.symm
      · exact h n od' (List.mem_of_mem_eraseP hold)
  · exact h n od' hod'

end SsStorage

/-- A descriptor in which only version and box matter, for concrete runs. -/
def plainDesc (version : UInt32) (bb : BBox) : ObjDesc :=
  ⟨[97], .rowMajor, 0, 0, 0, .server 0, version, bb, 1⟩

end DataSpaces
