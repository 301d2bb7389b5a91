import Mathlib.Data.List.Perm.Basic
import DataSpaces.Lib.Fill
import DataSpaces.Lib.Rings
import DataSpaces.Assembly

/-!
# ObjStore — the object storage with its lists and reference counts (`ss_data.c`)

The bins are lists with a head that run through the objects, and an object is named by its address.  Adding
an object first evicts one of its bin that has the same name and meets its box; while somebody counts on
that one, it is only marked and stays.

A function returns nothing where the source would follow a pointer that leads nowhere, use an object that was
freed, or write behind the slots it allocated.
-/

namespace DataSpaces

/-- `struct obj_data`; `obj_entry` is kept with the other nodes of the lists. -/
structure CountedObj extends ObjData where
  refcnt : Int32
  fFree : Bool

/-- The heads of the bins, and `obj_entry` of the object at an address. -/
inductive StoreNode
  | bin (i : Nat)
  | objEntry (od : Nat)
  deriving DecidableEq

/-- `ss_storage` with the memory behind it. -/
structure ObjStore where
  numObj : Int
  sizeHash : Nat
  varDict : DsStrHash
  entries : Rings.Memory StoreNode
  objs : Nat → Option CountedObj

namespace ObjStore

def lsAlloc (maxVersions : Nat) : ObjStore where
  numObj := 0
  sizeHash := maxVersions
  varDict := dsStrHashInit
  entries := fun node =>
    match node with
    | .bin i => if i < maxVersions then some ⟨some (.bin i), some (.bin i)⟩ else none
    | .objEntry _ => none
  objs := fun _ => none

/-- The bin of a version. -/
def index (ls : ObjStore) (odsc : ObjDesc) : Nat :=
  odsc.version.toNat % ls.sizeHash

/-- The object that an entry belongs to. -/
def objAt (ls : ObjStore) : StoreNode → Option (Nat × CountedObj)
  | .bin _ => none
  | .objEntry od => (ls.objs od).map fun obj => (od, obj)

/-! ## Searching -/

/-- The first object of a bin that passes a test. -/
def findIn (ls : ObjStore) (fuel list : Nat) (test : CountedObj → Bool) : Option (Option Nat) :=
  Rings.find ls.entries (.bin list)
    (fun pos => (ls.objAt pos).map fun od => if test od.2 then some od.1 else none) fuel

def lsFind (ls : ObjStore) (fuel : Nat) (odsc : ObjDesc) : Option (Option Nat) :=
  ls.findIn fuel (ls.index odsc) fun od => objDescEqualsIntersect odsc od.objDesc

def lsFindNoVersion (ls : ObjStore) (fuel : Nat) (odsc : ObjDesc) : Option (Option Nat) :=
  ls.findIn fuel (ls.index odsc) fun od => objDescByNameIntersect odsc od.objDesc

/-- A turn of the loop of `ls_find_all`: the slots that are written, of `num_obj` ones, and the `long` that
counts down. -/
def findAllTurn (ls : ObjStore) (odsc : ObjDesc) (s : List Nat × Int64) (od : Nat × CountedObj) :
    Option (List Nat × Int64) :=
  if objDescEqualsIntersect odsc od.2.objDesc then
    (Fill.push ls.numObj s.1 od.1).map fun tab =>
      (tab, s.2 - (bboxVolume (bboxIntersect odsc.bb od.2.objDesc.bb)).toInt64)
  else some s

/-- `ls_find_all`; the inner `none` stands for the return value `-1`. -/
def lsFindAll (ls : ObjStore) (fuel : Nat) (odsc : ObjDesc) : Option (Option (List Nat)) :=
  let start := ([], (bboxVolume odsc.bb).toInt64)
  (Rings.fold ls.entries (.bin (ls.index odsc))
    (fun s pos => (ls.objAt pos).bind (ls.findAllTurn odsc s)) fuel start).map fun s =>
      if s.2 ≠ 0 then none else some s.1

/-- A turn of the inner loop of `ls_find_all_no_version`. -/
def findAllNoVersionTurn (ls : ObjStore) (varName : CStr) (tab : List Nat) (od : Nat × CountedObj) :
    Option (List Nat) :=
  if od.2.objDesc.name = varName then Fill.push ls.numObj tab od.1 else some tab

/-- `ls_find_all_no_version`; a descriptor is named by the address of its object. -/
def lsFindAllNoVersion (ls : ObjStore) (fuel : Nat) (varName : CStr) : Option (List Nat) :=
  (List.range ls.sizeHash).foldlM (fun tab i =>
    Rings.fold ls.entries (.bin i)
      (fun tab pos => (ls.objAt pos).bind (ls.findAllNoVersionTurn varName tab)) fuel tab) []

/-! ## Changing -/

/-- `obj_data_free`. -/
def objDataFree (ls : ObjStore) (od : Nat) : Option ObjStore :=
  (ls.objs od).map fun _ =>
    { ls with
      objs := Function.update ls.objs od none
      entries := Function.update ls.entries (.objEntry od) none }

def lsRemove (ls : ObjStore) (od : Nat) : Option ObjStore :=
  (Rings.del ls.entries (.objEntry od)).map fun entries =>
    { ls with entries := entries, numObj := ls.numObj - 1 }

def lsTryRemoveFree (ls : ObjStore) (od : Nat) : Option ObjStore :=
  (ls.objs od).bind fun obj =>
    if obj.refcnt = 0 then (ls.lsRemove od).bind fun ls => ls.objDataFree od
    else some ls

/-- Write an object. -/
def setObj (ls : ObjStore) (od : Nat) (obj : CountedObj) : ObjStore :=
  { ls with objs := Function.update ls.objs od (some obj) }

/-- What `ls_add_obj` does to the object it finds. -/
def evict (ls : ObjStore) (od : Nat) : Option ObjStore :=
  (ls.objs od).bind fun obj =>
    let ls := ls.setObj od { obj with fFree := true }
    if obj.refcnt = 0 then (ls.lsRemove od).bind fun ls => ls.objDataFree od
    else some ls

/-- Put an object first in its bin. -/
def putFirst (ls : ObjStore) (od : Nat) : Option ObjStore :=
  (ls.objs od).bind fun obj =>
    (Rings.add ls.entries (.objEntry od) (.bin (ls.index obj.objDesc))).map fun entries =>
      { ls with entries := entries, numObj := ls.numObj + 1 }

def lsAddObj (ls : ObjStore) (fuel od : Nat) : Option ObjStore := do
  let obj ← ls.objs od
  let ls := { ls with varDict := dsStrHashAdd ls.varDict obj.objDesc.name }
  let odExisting ← ls.lsFindNoVersion fuel obj.objDesc
  let ls ←
    match odExisting with
    | some old => ls.evict old
    | none => some ls
  ls.putFirst od

/-! ## Runs -/

/-- What a user of the storage does next. -/
inductive Event
  /-- Add the object at an address; its entry holds anything. -/
  | add (od : Nat) (obj : CountedObj) (entry : Rings.Node StoreNode)
  | remove (od : Nat)
  | tryRemoveFree (od : Nat)
  /-- Count the references to an object anew. -/
  | setRefcnt (od : Nat) (refcnt : Int32)

/-- The object at the address, before it is added. -/
def withObj (ls : ObjStore) (od : Nat) (obj : CountedObj) (entry : Rings.Node StoreNode) : ObjStore :=
  { ls.setObj od obj with entries := Function.update ls.entries (.objEntry od) (some entry) }

def step (ls : ObjStore) (fuel : Nat) : Event → Option ObjStore
  | .add od obj entry => (ls.withObj od obj entry).lsAddObj fuel od
  | .remove od => ls.lsRemove od
  | .tryRemoveFree od => ls.lsTryRemoveFree od
  | .setRefcnt od refcnt => (ls.objs od).map fun obj => ls.setObj od { obj with refcnt := refcnt }

/-- The object is linked into the bin. -/
def InBin (ls : ObjStore) (i od : Nat) : Prop :=
  Rings.Reaches ls.entries (.bin i) (.objEntry od)

/-- The object is linked into some bin. -/
def Stored (ls : ObjStore) (od : Nat) : Prop :=
  ∃ i < ls.sizeHash, ls.InBin i od

/-- Only objects that are not stored are added, and only stored ones are removed. -/
def Allowed (ls : ObjStore) : Event → Prop
  | .add od _ _ => ¬ ls.Stored od
  | .remove od => ls.Stored od
  | .tryRemoveFree od => ls.Stored od
  | .setRefcnt od _ => ls.Stored od

/-- The storages that a run leads to. -/
inductive Reachable (maxVersions : Nat) : ObjStore → Prop
  | start : Reachable maxVersions (lsAlloc maxVersions)
  | step {ls ls' : ObjStore} {ev : Event} {fuel : Nat} :
      Reachable maxVersions ls → ls.Allowed ev → ls.step fuel ev = some ls' → Reachable maxVersions ls'

end ObjStore

/-! ## The objects in a list -/

/-- The stored objects with their addresses, the newest first. -/
abbrev Shelf : Type := List (Nat × CountedObj)

namespace Shelf

/-- The objects of a bin. -/
def bin (n i : Nat) (S : Shelf) : Shelf :=
  S.filter fun p => p.2.objDesc.version.toNat % n = i

def without (od : Nat) (S : Shelf) : Shelf :=
  S.filter fun p => p.1 ≠ od

/-- Write the object at an address. -/
def set (od : Nat) (obj : CountedObj) (S : Shelf) : Shelf :=
  S.map fun p => if p.1 = od then (od, obj) else p

def findNoVersion (n : Nat) (odsc : ObjDesc) (S : Shelf) : Option (Nat × CountedObj) :=
  (S.bin n (odsc.version.toNat % n)).find? fun p => objDescByNameIntersect odsc p.2.objDesc

/-- The objects with the name and the version of the descriptor that meet its box. -/
def matching (odsc : ObjDesc) (S : Shelf) : Shelf :=
  S.filter fun p => objDescEqualsIntersect odsc p.2.objDesc

/-- What the countdown of `ls_find_all` leaves. -/
def leftOver (odsc : ObjDesc) (left : Int64) (S : Shelf) : Int64 :=
  (S.matching odsc).foldl
    (fun left p => left - (bboxVolume (bboxIntersect odsc.bb p.2.objDesc.bb)).toInt64) left

/-- The objects with the name. -/
def named (varName : CStr) (S : Shelf) : Shelf :=
  S.filter fun p => p.2.objDesc.name = varName

def tryRemove (S : Shelf) (p : Nat × CountedObj) : Shelf :=
  if p.2.refcnt = 0 then S.without p.1 else S

def evict (S : Shelf) (p : Nat × CountedObj) : Shelf :=
  if p.2.refcnt = 0 then S.without p.1 else S.set p.1 { p.2 with fFree := true }

/-- Add an object; the one found for it is evicted. -/
def add (n od : Nat) (obj : CountedObj) (S : Shelf) : Shelf :=
  match S.findNoVersion n obj.objDesc with
  | some p => (od, obj) :: S.evict p
  | none => (od, obj) :: S

/-- The object at an address. -/
def atAddr (od : Nat) (S : Shelf) : Option (Nat × CountedObj) :=
  S.find? fun p => p.1 = od

/-- What an event means for the list. -/
def step (n : Nat) (S : Shelf) : ObjStore.Event → Shelf
  | .add od obj _ => S.add n od obj
  | .remove od => S.without od
  | .tryRemoveFree od => ((S.atAddr od).map S.tryRemove).getD S
  | .setRefcnt od refcnt => ((S.atAddr od).map fun p => S.set od { p.2 with refcnt := refcnt }).getD S

variable {n i od : Nat} {obj : CountedObj} {S : Shelf}

theorem mem_bin {p : Nat × CountedObj} :
    p ∈ S.bin n i ↔ p ∈ S ∧ p.2.objDesc.version.toNat % n = i := by
  rw [bin, List.mem_filter, decide_eq_true_iff]

theorem mem_of_mem_matching {odsc : ObjDesc} {p : Nat × CountedObj}
    (hp : p ∈ (S.bin n i).matching odsc) : p ∈ S :=
  (mem_bin.1 (List.mem_filter.1 hp).1).1

theorem mem_without {p : Nat × CountedObj} : p ∈ S.without od ↔ p ∈ S ∧ p.1 ≠ od := by
  rw [without, List.mem_filter, decide_eq_true_iff]

theorem bin_cons (p : Nat × CountedObj) :
    Shelf.bin n i (p :: S) = if p.2.objDesc.version.toNat % n = i then p :: S.bin n i else S.bin n i := by
  simp only [bin, List.filter_cons, decide_eq_true_iff]

theorem nodup_bin (hnodup : (S.map Prod.fst).Nodup) : ((S.bin n i).map Prod.fst).Nodup :=
  hnodup.sublist (List.filter_sublist.map Prod.fst)

theorem bin_without : (S.without od).bin n i = (S.bin n i).without od := by
  rw [bin, without, without, bin, List.filter_filter, List.filter_filter]
  exact List.filter_congr fun p _ => Bool.and_comm _ _

theorem map_fst_set : (S.set od obj).map Prod.fst = S.map Prod.fst := by
  rw [set, List.map_map]
  refine List.map_congr_left fun p _ => ?_
  rw [Function.comp_apply]
  split
  · next h => exact h.symm
  · rfl

theorem mem_set {p : Nat × CountedObj} (hp : p ∈ S.set od obj) : p = (od, obj) ∨ p ∈ S ∧ p.1 ≠ od := by
  obtain ⟨q, hq, rfl⟩ := List.mem_map.1 hp
  split
  · exact Or.inl rfl
  · next h => exact Or.inr ⟨hq, h⟩

/-- Only the object changes, and it stays in its bin. -/
theorem bin_set (h : ∀ p ∈ S, p.1 = od → p.2.objDesc = obj.objDesc) :
    (S.set od obj).bin n i = (S.bin n i).set od obj := by
  induction S with
  | nil => rfl
  | cons p S ih =>
      have ih' := ih fun q hq => h q (List.mem_cons_of_mem p hq)
      rw [set, List.map_cons, bin_cons, bin_cons, ← set, ih']
      by_cases hp : p.1 = od
      · rw [if_pos hp, h p List.mem_cons_self hp]
        split
        · rw [set, set, List.map_cons, if_pos hp]
        · rfl
      · rw [if_neg hp]
        split
        · rw [set, set, List.map_cons, if_neg hp]
        · rfl

theorem map_fst_without (hnodup : (S.map Prod.fst).Nodup) :
    (S.without od).map Prod.fst = (S.map Prod.fst).erase od := by
  rw [hnodup.erase_eq_filter, List.filter_map, without]
  refine congrArg (List.map Prod.fst) (List.filter_congr fun p _ => ?_)
  rw [Function.comp_apply, bne, beq_eq_decide]
  exact decide_not

theorem length_without (hnodup : (S.map Prod.fst).Nodup) {p : Nat × CountedObj} (hp : p ∈ S) :
    (S.without p.1).length + 1 = S.length := by
  have hmem : p.1 ∈ S.map Prod.fst := List.mem_map_of_mem hp
  calc (S.without p.1).length + 1
      = ((S.map Prod.fst).erase p.1).length + 1 := by rw [← map_fst_without hnodup, List.length_map]
    _ = (S.map Prod.fst).length := List.length_erase_add_one hmem
    _ = S.length := List.length_map _

theorem without_set : (S.set od obj).without od = S.without od := by
  induction S with
  | nil => rfl
  | cons p S ih =>
      have ih' : (S.map fun p => if p.1 = od then (od, obj) else p).filter (fun p => p.1 ≠ od) =
          S.filter fun p => p.1 ≠ od := ih
      rw [set, List.map_cons, without, without, List.filter_cons, List.filter_cons, ih']
      by_cases hp : p.1 = od
      · simp [hp]
      · simp [hp]

theorem not_mem_evict {p : Nat × CountedObj} (hod : od ∉ S.map Prod.fst) :
    od ∉ (S.evict p).map Prod.fst := by
  rw [evict]
  split
  · exact fun hmem => hod ((List.filter_sublist.map Prod.fst).subset hmem)
  · rwa [map_fst_set]

/-- No two objects have one address. -/
theorem eq_of_nodup {p q : Nat × CountedObj} (hnodup : (S.map Prod.fst).Nodup) (hp : p ∈ S)
    (hq : q ∈ S) (h : p.1 = q.1) : p = q :=
  List.inj_on_of_nodup_map hnodup hp hq h

theorem without_of_not_mem (hod : od ∉ S.map Prod.fst) : S.without od = S :=
  List.filter_eq_self.2 fun _ hp => decide_eq_true fun heq => hod (heq ▸ List.mem_map_of_mem hp)

/-- The bins of other versions keep their objects. -/
theorem bin_without_of_ne (hnodup : (S.map Prod.fst).Nodup) {p : Nat × CountedObj} (hp : p ∈ S)
    (hne : p.2.objDesc.version.toNat % n ≠ i) : (S.bin n i).without p.1 = S.bin n i := by
  apply without_of_not_mem
  intro hmem
  obtain ⟨q, hq, heq⟩ := List.mem_map.1 hmem
  obtain ⟨hq, hqi⟩ := mem_bin.1 hq
  exact hne (eq_of_nodup hnodup hq hp heq ▸ hqi)

theorem mem_bins {k : Nat} {p : Nat × CountedObj} (hp : p ∈ (List.range k).flatMap fun i => S.bin n i) :
    p ∈ S := by
  obtain ⟨i, -, hp⟩ := List.mem_flatMap.1 hp
  exact (mem_bin.1 hp).1

theorem nodup_bins (hnodup : (S.map Prod.fst).Nodup) (k : Nat) :
    ((List.range k).flatMap fun i => S.bin n i).Nodup := by
  refine List.nodup_flatMap.2 ⟨fun i _ => hnodup.of_map.filter _, ?_⟩
  refine List.Pairwise.imp ?_ (List.nodup_range (n := k))
  intro i j hij p hpi hpj
  exact hij ((mem_bin.1 hpi).2.symm.trans (mem_bin.1 hpj).2)

theorem length_bins_le (hnodup : (S.map Prod.fst).Nodup) (k : Nat) :
    ((List.range k).flatMap fun i => S.bin n i).length ≤ S.length :=
  ((nodup_bins hnodup k).subperm fun _ => mem_bins).length_le

/-- The bins hold what is stored. -/
theorem perm_bins (hn : 0 < n) (hnodup : (S.map Prod.fst).Nodup) :
    ((List.range n).flatMap fun i => S.bin n i).Perm S := by
  refine (List.perm_ext_iff_of_nodup (nodup_bins hnodup n) hnodup.of_map).2 fun p => ⟨mem_bins, fun hp => ?_⟩
  exact List.mem_flatMap.2 ⟨_, List.mem_range.2 (Nat.mod_lt _ hn), mem_bin.2 ⟨hp, rfl⟩⟩

theorem atAddr_eq (hnodup : (S.map Prod.fst).Nodup) {p : Nat × CountedObj} (hp : p ∈ S) :
    S.atAddr p.1 = some p := by
  cases hfind : S.atAddr p.1 with
  | none => exact absurd (decide_eq_true rfl) (List.find?_eq_none.1 hfind p hp)
  | some q =>
      rw [atAddr] at hfind
      have hq : q.1 = p.1 := by simpa using List.find?_some hfind
      exact congrArg some (eq_of_nodup hnodup (List.mem_of_find?_eq_some hfind) hp hq)

/-- Taking out the first object that passes is taking out the one at its address. -/
theorem eraseP_eq_without {test : Nat × CountedObj → Bool} {T : Shelf} (hnodup : (T.map Prod.fst).Nodup)
    {p : Nat × CountedObj} (hp : T.find? test = some p) : T.eraseP test = T.without p.1 := by
  induction T with
  | nil => cases hp
  | cons q T ih =>
      obtain ⟨hq, hT⟩ := List.nodup_cons.1 hnodup
      cases htest : test q with
      | true =>
          rw [List.find?_cons_of_pos htest] at hp
          obtain rfl := Option.some.inj hp
          have hhead : without q.1 (q :: T) = without q.1 T :=
            List.filter_cons_of_neg (by simp)
          rw [List.eraseP_cons_of_pos htest, hhead, without_of_not_mem hq]
      | false =>
          have hneg : ¬ test q = true := by simp [htest]
          rw [List.find?_cons_of_neg hneg] at hp
          have hne : q.1 ≠ p.1 := by
            intro heq
            exact hq (heq ▸ List.mem_map_of_mem (List.mem_of_find?_eq_some hp))
          have hhead : without p.1 (q :: T) = q :: without p.1 T :=
            List.filter_cons_of_pos (decide_eq_true hne)
          rw [List.eraseP_cons_of_neg hneg, ih hT hp, hhead]

/-- While nobody counts on an object, the first match of the bin makes room for the new one. -/
theorem bin_add (hfree : ∀ p ∈ S, p.2.refcnt = 0) (hnodup : (S.map Prod.fst).Nodup) :
    (S.add n od obj).bin n i =
      if obj.objDesc.version.toNat % n = i then
        (od, obj) :: (S.bin n i).eraseP fun p => objDescByNameIntersect obj.objDesc p.2.objDesc
      else S.bin n i := by
  rw [add]
  cases hfind : S.findNoVersion n obj.objDesc with
  | none =>
      rw [bin_cons]
      split
      · next hi =>
          rw [findNoVersion, hi] at hfind
          rw [List.eraseP_of_forall_not (List.find?_eq_none.1 hfind)]
      · rfl
  | some p =>
      obtain ⟨hp, hpi⟩ := mem_bin.1 (List.mem_of_find?_eq_some hfind)
      dsimp only
      rw [evict, if_pos (hfree p hp), bin_cons, bin_without]
      split
      · next hi =>
          rw [findNoVersion, hi] at hfind
          rw [eraseP_eq_without (nodup_bin hnodup) hfind]
      · next hi => rw [bin_without_of_ne hnodup hp (hpi ▸ hi)]

end Shelf

/-! ## The lists hold the objects of the list -/

namespace ObjStore

/-- The node of an object. -/
def nodeOf (p : Nat × CountedObj) : StoreNode :=
  .objEntry p.1

/-- What the list of a bin runs through, from its head on. -/
def nodes (n i : Nat) (S : Shelf) : List StoreNode :=
  .bin i :: (S.bin n i).map nodeOf

section Nodes

variable {n i k od : Nat} {S : Shelf}

theorem objEntry_mem_nodes : StoreNode.objEntry od ∈ nodes n i S ↔ ∃ p ∈ S.bin n i, p.1 = od := by
  rw [nodes, List.mem_cons, List.mem_map]
  constructor
  · rintro (heq | ⟨p, hp, heq⟩)
    · cases heq
    · exact ⟨p, hp, StoreNode.objEntry.inj heq⟩
  · rintro ⟨p, hp, rfl⟩
    exact Or.inr ⟨p, hp, rfl⟩

theorem objEntry_not_mem_nodes (hod : od ∉ S.map Prod.fst) : StoreNode.objEntry od ∉ nodes n i S := by
  intro hmem
  obtain ⟨p, hp, rfl⟩ := objEntry_mem_nodes.1 hmem
  exact hod (List.mem_map_of_mem (Shelf.mem_bin.1 hp).1)

/-- No node is in the lists of two bins. -/
theorem nodes_disjoint (hnodup : (S.map Prod.fst).Nodup) (hik : k ≠ i) {node : StoreNode}
    (hnode : node ∈ nodes n k S) : node ∉ nodes n i S := by
  intro hnode'
  cases node with
  | bin j =>
      have hhead : ∀ l, StoreNode.bin j ∈ nodes n l S → j = l := by
        intro l hl
        rcases List.mem_cons.1 hl with heq | hl
        · exact StoreNode.bin.inj heq
        · obtain ⟨p, -, heq⟩ := List.mem_map.1 hl
          cases heq
      exact hik ((hhead k hnode).symm.trans (hhead i hnode'))
  | objEntry od =>
      obtain ⟨p, hp, hpod⟩ := objEntry_mem_nodes.1 hnode
      obtain ⟨q, hq, hqod⟩ := objEntry_mem_nodes.1 hnode'
      obtain ⟨hp, hk⟩ := Shelf.mem_bin.1 hp
      obtain ⟨hq, hi⟩ := Shelf.mem_bin.1 hq
      obtain rfl := Shelf.eq_of_nodup hnodup hp hq (hpod.trans hqod.symm)
      exact hik (hk.symm.trans hi)

theorem map_nodeOf (T : Shelf) : T.map nodeOf = (T.map Prod.fst).map StoreNode.objEntry := by
  rw [List.map_map]
  rfl

theorem map_nodeOf_set {obj : CountedObj} : (S.set od obj).map nodeOf = S.map nodeOf := by
  rw [map_nodeOf, map_nodeOf, Shelf.map_fst_set]

theorem map_nodeOf_without (hnodup : (S.map Prod.fst).Nodup) :
    (S.without od).map nodeOf = (S.map nodeOf).erase (.objEntry od) := by
  have hinj : Function.Injective StoreNode.objEntry := fun _ _ => StoreNode.objEntry.inj
  rw [map_nodeOf, map_nodeOf, Shelf.map_fst_without hnodup, List.map_erase hinj]

end Nodes

/-- The bins run through the objects of the list, and the count, the memory and the dictionary go with it. -/
structure Rep (n : Nat) (ls : ObjStore) (S : Shelf) : Prop where
  pos : 0 < n
  size : ls.sizeHash = n
  count : ls.numObj = S.length
  rings : ∀ i < n, Rings.Ring ls.entries (.bin i) ((S.bin n i).map nodeOf)
  objs : ∀ p ∈ S, ls.objs p.1 = some p.2
  nodup : (S.map Prod.fst).Nodup
  names : ∀ p ∈ S, p.2.objDesc.name ∈ dsStrHashGetAll ls.varDict

/-- The object at the address can be put into a bin. -/
structure Aside (ls : ObjStore) (od : Nat) (obj : CountedObj) : Prop where
  holds : ls.objs od = some obj
  entry : (ls.entries (.objEntry od)).isSome
  named : obj.objDesc.name ∈ dsStrHashGetAll ls.varDict

theorem rep_lsAlloc {maxVersions : Nat} (h : 0 < maxVersions) : Rep maxVersions (lsAlloc maxVersions) [] where
  pos := h
  size := rfl
  count := rfl
  rings i hi := by
    have hnode : (lsAlloc maxVersions).entries (.bin i) = some ⟨some (.bin i), some (.bin i)⟩ :=
      if_pos hi
    refine ⟨⟨?_, ?_⟩, List.nodup_singleton _⟩
    · rw [Rings.next, hnode]
      rfl
    · rw [Rings.prev, hnode]
      rfl
  objs := by simp
  nodup := List.nodup_nil
  names := by simp

/-! ### Filling an array of `num_obj` slots -/

section Fill

variable {ls : ObjStore}

theorem findAllTurns (odsc : ObjDesc) (T : Shelf) (tab : List Nat) (left : Int64)
    (hroom : (tab.length : Int) + (T.matching odsc).length ≤ ls.numObj) :
    T.foldlM (ls.findAllTurn odsc) (tab, left) =
      some (tab ++ (T.matching odsc).map Prod.fst, T.leftOver odsc left) := by
  induction T generalizing tab left with
  | nil => exact congrArg (fun tab => some (tab, left)) (List.append_nil tab).symm
  | cons p T ih =>
      rw [List.foldlM_cons, findAllTurn, Shelf.leftOver]
      by_cases htest : objDescEqualsIntersect odsc p.2.objDesc = true
      · have hcons : Shelf.matching odsc (p :: T) = p :: Shelf.matching odsc T :=
          List.filter_cons_of_pos htest
        rw [hcons, List.length_cons] at hroom
        have hrest := ih (tab ++ [p.1])
          (left - (bboxVolume (bboxIntersect odsc.bb p.2.objDesc.bb)).toInt64)
          (by rw [List.length_append, List.length_singleton]; push_cast at hroom ⊢; omega)
        rw [hcons, if_pos htest, Fill.push_eq (by dsimp only; omega)]
        rw [List.append_assoc] at hrest
        exact hrest
      · have hcons : Shelf.matching odsc (p :: T) = Shelf.matching odsc T := List.filter_cons_of_neg htest
        rw [hcons] at hroom ⊢
        rw [if_neg htest]
        exact ih tab left hroom

theorem findAllNoVersionTurns (varName : CStr) (T : Shelf) (tab : List Nat)
    (hroom : (tab.length : Int) + (T.named varName).length ≤ ls.numObj) :
    T.foldlM (ls.findAllNoVersionTurn varName) tab = some (tab ++ (T.named varName).map Prod.fst) := by
  have hturn : ls.findAllNoVersionTurn varName = fun tab p =>
      if decide (p.2.objDesc.name = varName) = true then Fill.push ls.numObj tab p.1 else some tab := by
    funext tab p
    exact if_congr decide_eq_true_iff.symm rfl rfl
  rw [hturn]
  exact Fill.foldlM_pushIf tab hroom

end Fill

namespace Rep

variable {n : Nat} {ls : ObjStore} {S : Shelf} {od : Nat} {obj : CountedObj} (h : Rep n ls S)

include h

theorem index_eq (odsc : ObjDesc) : ls.index odsc = odsc.version.toNat % n := by
  rw [ObjStore.index, h.size]

theorem index_lt (odsc : ObjDesc) : ls.index odsc < n :=
  h.index_eq odsc ▸ Nat.mod_lt _ h.pos

/-- What is written outside the bins is not seen in them. -/
theorem of_outside {ls' : ObjStore} (hsize : ls'.sizeHash = ls.sizeHash) (hcount : ls'.numObj = ls.numObj)
    (hod : od ∉ S.map Prod.fst) (hentries : ∀ node, node ≠ .objEntry od → ls'.entries node = ls.entries node)
    (hobjs : ∀ a, a ≠ od → ls'.objs a = ls.objs a)
    (hdict : ∀ s ∈ dsStrHashGetAll ls.varDict, s ∈ dsStrHashGetAll ls'.varDict) : Rep n ls' S where
  pos := h.pos
  size := hsize.trans h.size
  count := hcount.trans h.count
  rings i hi := by
    refine (h.rings i hi).congr fun z hz => ?_
    have hne : z ≠ .objEntry od := by
      rintro rfl
      exact objEntry_not_mem_nodes hod hz
    refine ⟨?_, ?_⟩
    · rw [Rings.next, Rings.next, hentries z hne]
    · rw [Rings.prev, Rings.prev, hentries z hne]
  objs p hp := by
    have hne : p.1 ≠ od := by
      rintro rfl
      exact hod (List.mem_map_of_mem hp)
    rw [hobjs p.1 hne, h.objs p hp]
  nodup := h.nodup
  names p hp := hdict _ (h.names p hp)

/-- An object that is going to be added, when its name is in the dictionary. -/
theorem withObj (hod : od ∉ S.map Prod.fst) (obj : CountedObj) (entry : Rings.Node StoreNode) :
    let ls' := { ls.withObj od obj entry with varDict := dsStrHashAdd ls.varDict obj.objDesc.name }
    Rep n ls' S ∧ Aside ls' od obj := by
  refine ⟨h.of_outside rfl rfl hod (fun node hnode => ?_) (fun a ha => ?_) fun s hs => ?_, ?_, ?_, ?_⟩
  · exact Function.update_of_ne hnode _ _
  · exact Function.update_of_ne ha _ _
  · exact mem_dsStrHashGetAll_add.2 (Or.inl hs)
  · exact Function.update_self _ _ _
  · exact Option.isSome_iff_exists.2 ⟨entry, Function.update_self _ _ _⟩
  · exact mem_dsStrHashGetAll_add.2 (Or.inr rfl)

theorem objDataFree (hod : od ∉ S.map Prod.fst) (hobj : ls.objs od = some obj) :
    ∃ ls', ls.objDataFree od = some ls' ∧ Rep n ls' S ∧ ∀ a o, a ≠ od → Aside ls a o → Aside ls' a o := by
  have hrun : ls.objDataFree od = some { ls with
      objs := Function.update ls.objs od none
      entries := Function.update ls.entries (.objEntry od) none } := by
    rw [ObjStore.objDataFree, hobj, Option.map_some]
  refine ⟨_, hrun, h.of_outside rfl rfl hod (fun node hnode => ?_) (fun a ha => ?_) fun s hs => hs,
    fun a o ha haside => ⟨?_, ?_, haside.named⟩⟩
  · exact Function.update_of_ne hnode _ _
  · exact Function.update_of_ne ha _ _
  · exact (Function.update_of_ne ha _ _).trans haside.holds
  · have hne : StoreNode.objEntry a ≠ .objEntry od := fun heq => ha (StoreNode.objEntry.inj heq)
    exact (congrArg Option.isSome (Function.update_of_ne hne _ _)).trans haside.entry

theorem setObj {old : CountedObj} (hold : (od, old) ∈ S) (obj : CountedObj)
    (hdesc : obj.objDesc = old.objDesc) :
    Rep n (ls.setObj od obj) (S.set od obj) ∧
      ∀ a o, a ≠ od → Aside ls a o → Aside (ls.setObj od obj) a o := by
  have hsame : ∀ p ∈ S, p.1 = od → p.2.objDesc = obj.objDesc := by
    intro p hp hpod
    rw [Shelf.eq_of_nodup h.nodup hp hold hpod, hdesc]
  refine ⟨⟨h.pos, h.size, ?_, fun i hi => ?_, fun p hp => ?_, ?_, fun p hp => ?_⟩,
    fun a o ha haside => ⟨?_, haside.entry, haside.named⟩⟩
  · rw [Shelf.set, List.length_map]
    exact h.count
  · rw [Shelf.bin_set hsame, map_nodeOf_set]
    exact h.rings i hi
  · rcases Shelf.mem_set hp with rfl | ⟨hp, hne⟩
    · exact Function.update_self _ _ _
    · exact (Function.update_of_ne hne _ _).trans (h.objs p hp)
  · rw [Shelf.map_fst_set]
    exact h.nodup
  · rcases Shelf.mem_set hp with rfl | ⟨hp, -⟩
    · exact (congrArg ObjDesc.name hdesc).symm ▸ h.names _ hold
    · exact h.names p hp
  · exact (Function.update_of_ne ha _ _).trans haside.holds

theorem lsRemove {p : Nat × CountedObj} (hp : p ∈ S) :
    ∃ ls', ls.lsRemove p.1 = some ls' ∧ Rep n ls' (S.without p.1) ∧ ls'.objs = ls.objs ∧
      ∀ a o, Aside ls a o → Aside ls' a o := by
  have hi : p.2.objDesc.version.toNat % n < n := Nat.mod_lt _ h.pos
  have hbin : p ∈ S.bin n (p.2.objDesc.version.toNat % n) := Shelf.mem_bin.2 ⟨hp, rfl⟩
  obtain ⟨entries, hrun, hring, hsame, hlive⟩ := (h.rings _ hi).del (List.mem_map_of_mem (f := nodeOf) hbin)
  refine ⟨{ ls with entries := entries, numObj := ls.numObj - 1 }, ?_,
    ⟨h.pos, h.size, ?_, fun k hk => ?_, fun q hq => ?_, ?_, fun q hq => ?_⟩, rfl,
    fun a o haside => ⟨haside.holds, ?_, haside.named⟩⟩
  · rw [ObjStore.lsRemove]
    exact congrArg (Option.map _) hrun
  · show ls.numObj - 1 = _
    rw [h.count, ← Shelf.length_without h.nodup hp]
    omega
  · rw [Shelf.bin_without]
    by_cases hik : k = p.2.objDesc.version.toNat % n
    · rw [hik, map_nodeOf_without (Shelf.nodup_bin h.nodup)]
      exact hring
    · -- the other bins are not touched
      rw [Shelf.bin_without_of_ne h.nodup hp (Ne.symm hik)]
      exact (h.rings k hk).congr fun z hz => hsame z (nodes_disjoint h.nodup hik hz)
  · exact h.objs q (Shelf.mem_without.1 hq).1
  · exact h.nodup.sublist (List.filter_sublist.map Prod.fst)
  · exact h.names q (Shelf.mem_without.1 hq).1
  · exact (hlive _).trans haside.entry

theorem putFirst (haside : Aside ls od obj) (hod : od ∉ S.map Prod.fst) :
    ∃ ls', ls.putFirst od = some ls' ∧ Rep n ls' ((od, obj) :: S) := by
  obtain ⟨entries, hrun, hring, hsame, -⟩ :=
    (h.rings _ (h.index_lt obj.objDesc)).add (objEntry_not_mem_nodes hod) haside.entry
  refine ⟨{ ls with entries := entries, numObj := ls.numObj + 1 }, ?_,
    ⟨h.pos, h.size, ?_, fun k hk => ?_, fun p hp => ?_, ?_, fun p hp => ?_⟩⟩
  · rw [ObjStore.putFirst, haside.holds, Option.bind_some, hrun, Option.map_some]
  · show ls.numObj + 1 = _
    rw [h.count, List.length_cons]
    omega
  · rw [Shelf.bin_cons, ← h.index_eq]
    by_cases hik : ls.index obj.objDesc = k
    · rw [if_pos hik, ← hik]
      exact hring
    · -- the nodes of another bin are neither in this one nor the new node
      rw [if_neg hik]
      refine (h.rings k hk).congr fun z hz => hsame z ?_
      intro hz'
      rcases List.mem_cons.1 hz' with heq | hz'
      · exact nodes_disjoint h.nodup (Ne.symm hik) hz (heq ▸ List.mem_cons_self)
      · rcases List.mem_cons.1 hz' with heq | hz'
        · exact objEntry_not_mem_nodes hod (heq ▸ hz)
        · exact nodes_disjoint h.nodup (Ne.symm hik) hz (List.mem_cons_of_mem _ hz')
  · rcases List.mem_cons.1 hp with rfl | hp
    · exact haside.holds
    · exact h.objs p hp
  · exact List.nodup_cons.2 ⟨hod, h.nodup⟩
  · rcases List.mem_cons.1 hp with rfl | hp
    · exact haside.named
    · exact h.names p hp

/-! ### Searching -/

theorem objAt_nodeOf {p : Nat × CountedObj} (hp : p ∈ S) : ls.objAt (nodeOf p) = some p := by
  rw [nodeOf, ObjStore.objAt, h.objs p hp]
  rfl

theorem findIn {i fuel : Nat} (hi : i < n) (hfuel : S.length < fuel) (test : CountedObj → Bool) :
    ls.findIn fuel i test = some (((S.bin n i).find? fun p => test p.2).map Prod.fst) := by
  have hlen : (S.bin n i).length < fuel := Nat.lt_of_le_of_lt (List.length_filter_le _ _) hfuel
  have hbody : ∀ p ∈ S.bin n i, ((ls.objAt (nodeOf p)).map fun od => if test od.2 then some od.1 else none) =
      some (if test p.2 then some p.1 else none) := by
    intro p hp
    rw [h.objAt_nodeOf (Shelf.mem_bin.1 hp).1, Option.map_some]
  rw [ObjStore.findIn, (h.rings i hi).find hbody hlen]
  refine congrArg some ?_
  induction S.bin n i with
  | nil => rfl
  | cons p T ih =>
      rw [List.findSome?_cons, List.find?_cons]
      cases test p.2 with
      | true => rfl
      | false => exact ih

theorem lsFindNoVersion {fuel : Nat} (hfuel : S.length < fuel) (odsc : ObjDesc) :
    ls.lsFindNoVersion fuel odsc = some ((S.findNoVersion n odsc).map Prod.fst) := by
  rw [ObjStore.lsFindNoVersion, h.findIn (h.index_lt odsc) hfuel, h.index_eq]
  rfl

/-- A loop over a bin sees its objects. -/
theorem fold {β : Type} {i fuel : Nat} (hi : i < n) (hfuel : S.length < fuel)
    (turn : β → Nat × CountedObj → Option β) (b : β) :
    Rings.fold ls.entries (.bin i) (fun b pos => (ls.objAt pos).bind (turn b)) fuel b =
      (S.bin n i).foldlM turn b := by
  have hlen : (S.bin n i).length < fuel := Nat.lt_of_le_of_lt (List.length_filter_le _ _) hfuel
  rw [(h.rings i hi).fold hlen]
  have hobj : ∀ p ∈ S.bin n i, ls.objAt (nodeOf p) = some p := fun p hp =>
    h.objAt_nodeOf (Shelf.mem_bin.1 hp).1
  generalize S.bin n i = T at hobj
  clear hlen
  induction T generalizing b with
  | nil => rfl
  | cons p T ih =>
      rw [List.foldlM_cons, List.foldlM_cons, hobj p List.mem_cons_self, Option.bind_some]
      exact Option.bind_congr fun b' _ => ih b' fun q hq => hobj q (List.mem_cons_of_mem p hq)

theorem lsFind {fuel : Nat} (hfuel : S.length < fuel) (odsc : ObjDesc) :
    ls.lsFind fuel odsc = some (((S.bin n (ls.index odsc)).matching odsc).head?.map Prod.fst) := by
  rw [ObjStore.lsFind, h.findIn (h.index_lt odsc) hfuel, Shelf.matching, List.head?_filter]

/-- The countdown decides whether the array is handed out. -/
theorem lsFindAll {fuel : Nat} (hfuel : S.length < fuel) (odsc : ObjDesc) :
    ls.lsFindAll fuel odsc = some
      (if (S.bin n (ls.index odsc)).leftOver odsc (bboxVolume odsc.bb).toInt64 ≠ 0 then none
      else some (((S.bin n (ls.index odsc)).matching odsc).map Prod.fst)) := by
  have hlen : ((S.bin n (ls.index odsc)).matching odsc).length ≤ S.length :=
    (List.filter_sublist.trans List.filter_sublist).length_le
  have hroom : (([] : List Nat).length : Int) + ((S.bin n (ls.index odsc)).matching odsc).length ≤
      ls.numObj := by
    rw [h.count, List.length_nil]
    omega
  rw [ObjStore.lsFindAll, h.fold (h.index_lt odsc) hfuel, findAllTurns _ _ _ _ hroom, Option.map_some]
  rfl

theorem lsFindAllNoVersion {fuel : Nat} (hfuel : S.length < fuel) (varName : CStr) :
    ls.lsFindAllNoVersion fuel varName =
      some ((Shelf.named varName ((List.range n).flatMap fun i => S.bin n i)).map Prod.fst) := by
  have hparts : (Shelf.named varName ((List.range n).flatMap fun i => S.bin n i)).map Prod.fst =
      (List.range n).flatMap fun i => ((S.bin n i).named varName).map Prod.fst := by
    rw [Shelf.named, List.filter_flatMap, List.map_flatMap]
    rfl
  have hlen : ((Shelf.named varName ((List.range n).flatMap fun i => S.bin n i)).map Prod.fst).length ≤
      S.length := by
    rw [List.length_map]
    exact (List.length_filter_le _ _).trans (Shelf.length_bins_le h.nodup n)
  rw [hparts] at hlen ⊢
  rw [ObjStore.lsFindAllNoVersion, h.size]
  refine Fill.foldlM_flatMap ls.numObj (fun i hi tab hroom => ?_) [] ?_
  · rw [h.fold (List.mem_range.1 hi) hfuel]
    exact findAllNoVersionTurns varName _ tab (by rwa [List.length_map] at hroom)
  · rw [h.count, List.length_nil]
    omega

/-! ### Steps -/

/-- Unlinked, then freed. -/
theorem lsRemove_objDataFree {p : Nat × CountedObj} (hp : p ∈ S) :
    ∃ ls', ((ls.lsRemove p.1).bind fun ls => ls.objDataFree p.1) = some ls' ∧ Rep n ls' (S.without p.1) ∧
      ∀ a o, a ≠ p.1 → Aside ls a o → Aside ls' a o := by
  obtain ⟨ls₁, hrun₁, h₁, hobjs, haside₁⟩ := h.lsRemove hp
  have hout : p.1 ∉ (S.without p.1).map Prod.fst := by
    intro hmem
    obtain ⟨q, hq, heq⟩ := List.mem_map.1 hmem
    exact (Shelf.mem_without.1 hq).2 heq
  obtain ⟨ls₂, hrun₂, h₂, haside₂⟩ := h₁.objDataFree hout (hobjs ▸ h.objs p hp)
  refine ⟨ls₂, ?_, h₂, fun a o ha haside => haside₂ a o ha (haside₁ a o haside)⟩
  rw [hrun₁, Option.bind_some, hrun₂]

theorem lsTryRemoveFree {p : Nat × CountedObj} (hp : p ∈ S) :
    ∃ ls', ls.lsTryRemoveFree p.1 = some ls' ∧ Rep n ls' (S.tryRemove p) := by
  rw [ObjStore.lsTryRemoveFree, h.objs p hp, Option.bind_some, Shelf.tryRemove]
  split
  · obtain ⟨ls', hrun, h', -⟩ := h.lsRemove_objDataFree hp
    exact ⟨ls', hrun, h'⟩
  · exact ⟨ls, rfl, h⟩

theorem evict {p : Nat × CountedObj} (hp : p ∈ S) :
    ∃ ls', ls.evict p.1 = some ls' ∧ Rep n ls' (S.evict p) ∧
      ∀ a o, a ≠ p.1 → Aside ls a o → Aside ls' a o := by
  obtain ⟨h₁, haside₁⟩ := h.setObj hp { p.2 with fFree := true } rfl
  rw [ObjStore.evict, h.objs p hp, Option.bind_some, Shelf.evict]
  dsimp only
  split
  · have hmem : (p.1, { p.2 with fFree := true }) ∈ S.set p.1 { p.2 with fFree := true } :=
      List.mem_map.2 ⟨p, hp, if_pos rfl⟩
    obtain ⟨ls₂, hrun, h₂, haside₂⟩ := h₁.lsRemove_objDataFree hmem
    rw [Shelf.without_set] at h₂
    exact ⟨ls₂, hrun, h₂, fun a o ha haside => haside₂ a o ha (haside₁ a o ha haside)⟩
  · exact ⟨_, rfl, h₁, haside₁⟩

theorem lsAddObj {fuel : Nat} (hfuel : S.length < fuel) (hod : od ∉ S.map Prod.fst) (obj : CountedObj)
    (entry : Rings.Node StoreNode) :
    ∃ ls', (ls.withObj od obj entry).lsAddObj fuel od = some ls' ∧ Rep n ls' (S.add n od obj) := by
  obtain ⟨h₁, haside⟩ := h.withObj hod obj entry
  have hobj : (ls.withObj od obj entry).objs od = some obj := haside.holds
  have hfind := h₁.lsFindNoVersion hfuel obj.objDesc
  simp only [ObjStore.lsAddObj, hobj, Option.bind_eq_bind, Option.bind_some]
  rw [show (ls.withObj od obj entry).varDict = ls.varDict from rfl, hfind, Option.bind_some, Shelf.add]
  cases hold : S.findNoVersion n obj.objDesc with
  | none => exact h₁.putFirst haside hod
  | some p =>
      have hp : p ∈ S := (Shelf.mem_bin.1 (List.mem_of_find?_eq_some hold)).1
      have hne : od ≠ p.1 := by
        rintro rfl
        exact hod (List.mem_map_of_mem hp)
      obtain ⟨ls₂, hrun, h₂, haside₂⟩ := h₁.evict hp
      rw [Option.map_some]
      dsimp only
      rw [hrun, Option.bind_some]
      exact h₂.putFirst (haside₂ od obj hne haside) (Shelf.not_mem_evict hod)

/-- What is linked into the bins is what the list has. -/
theorem inBin_iff {i : Nat} (hi : i < n) : ls.InBin i od ↔ ∃ p ∈ S.bin n i, p.1 = od :=
  (h.rings i hi).reaches_iff.trans objEntry_mem_nodes

theorem stored_iff : ls.Stored od ↔ ∃ p ∈ S, p.1 = od := by
  constructor
  · rintro ⟨i, hi, hin⟩
    obtain ⟨p, hp, rfl⟩ := (h.inBin_iff (h.size ▸ hi)).1 hin
    exact ⟨p, (Shelf.mem_bin.1 hp).1, rfl⟩
  · rintro ⟨p, hp, rfl⟩
    have hi : p.2.objDesc.version.toNat % n < n := Nat.mod_lt _ h.pos
    exact ⟨_, h.size.symm ▸ hi, (h.inBin_iff hi).2 ⟨p, Shelf.mem_bin.2 ⟨hp, rfl⟩, rfl⟩⟩

/-- Every allowed event returns, and does to the list what it means for it. -/
theorem step {ev : Event} {fuel : Nat} (hev : ls.Allowed ev) (hfuel : S.length < fuel) :
    ∃ ls', ls.step fuel ev = some ls' ∧ Rep n ls' (S.step n ev) := by
  cases ev with
  | add od obj entry =>
      refine h.lsAddObj hfuel (fun hmem => hev (h.stored_iff.2 ?_)) obj entry
      exact List.mem_map.1 hmem
  | remove od =>
      obtain ⟨p, hp, rfl⟩ := h.stored_iff.1 hev
      obtain ⟨ls', hrun, h', -⟩ := h.lsRemove hp
      exact ⟨ls', hrun, h'⟩
  | tryRemoveFree od =>
      obtain ⟨p, hp, rfl⟩ := h.stored_iff.1 hev
      rw [Shelf.step, Shelf.atAddr_eq h.nodup hp]
      exact h.lsTryRemoveFree hp
  | setRefcnt od refcnt =>
      obtain ⟨p, hp, rfl⟩ := h.stored_iff.1 hev
      rw [Shelf.step, Shelf.atAddr_eq h.nodup hp, ObjStore.step, h.objs p hp]
      exact ⟨_, rfl, (h.setObj hp { p.2 with refcnt := refcnt } rfl).1⟩

end Rep

/-- A step that returned within fewer turns returns the same. -/
theorem step_mono {ls ls' : ObjStore} {ev : Event} {fuel fuel' : Nat} (hle : fuel ≤ fuel')
    (h : ls.step fuel ev = some ls') : ls.step fuel' ev = some ls' := by
  cases ev with
  | add od obj entry =>
      simp only [step, lsAddObj, Option.bind_eq_bind, Option.bind_eq_some_iff] at h ⊢
      obtain ⟨o, hobj, old, hfind, h⟩ := h
      exact ⟨o, hobj, old, Rings.find_mono hle hfind, h⟩
  | remove od => exact h
  | tryRemoveFree od => exact h
  | setRefcnt od refcnt => exact h

/-- A run keeps the lists in step with the list of the objects. -/
theorem Reachable.rep {n : Nat} (hn : 0 < n) {ls : ObjStore} (h : Reachable n ls) : ∃ S, Rep n ls S := by
  induction h with
  | start => exact ⟨[], rep_lsAlloc hn⟩
  | @step ls ls' ev fuel _ hev hrun ih =>
      obtain ⟨S, hS⟩ := ih
      obtain ⟨ls'', hrun', hS'⟩ := hS.step hev (Nat.lt_succ_of_le (Nat.le_max_right fuel S.length))
      have hrun'' := step_mono (Nat.le_succ_of_le (Nat.le_max_left fuel S.length)) hrun
      obtain rfl : ls' = ls'' := Option.some.inj (hrun''.symm.trans hrun')
      exact ⟨_, hS'⟩

/-! ## The storage at any time -/

/-- The object is stored and has the name and the version of the descriptor, and its box meets the one of
the descriptor. -/
def Sought (ls : ObjStore) (odsc : ObjDesc) (od : Nat) : Prop :=
  ls.Stored od ∧ ∃ obj, ls.objs od = some obj ∧ odsc.name = obj.objDesc.name ∧
    odsc.version = obj.objDesc.version ∧ bboxDoesIntersect odsc.bb obj.objDesc.bb = true

structure WellFormed (n : Nat) (ls : ObjStore) : Prop where
  /-- Every operation comes to its end. -/
  returns : ∀ ev, ls.Allowed ev → ∀ fuel : Nat, ls.numObj < fuel → ∃ ls', ls.step fuel ev = some ls'
  counted : ∃ len : Nat → Nat, ls.numObj = ((List.range n).map len).sum ∧
    ∀ i < n, ∀ fuel : Nat, ls.numObj < fuel → Rings.length ls.entries (.bin i) fuel = some (len i)
  placed : ∀ od, ls.Stored od → ∃ obj, ls.objs od = some obj ∧
    (∀ i < n, ls.InBin i od ↔ i = obj.objDesc.version.toNat % n) ∧
    dsStrHashFind ls.varDict obj.objDesc.name = true
  found : ∀ odsc : ObjDesc, ∀ fuel : Nat, ls.numObj < fuel → ∃ r, ls.lsFind fuel odsc = some r ∧
    (r.isSome ↔ ∃ od, ls.Sought odsc od) ∧ ∀ od, r = some od → ls.Sought odsc od
  /-- Among valid boxes, the ones that share a cell with the one of the descriptor are found. -/
  foundShared : ∀ odsc : ObjDesc, ∀ fuel : Nat, ls.numObj < fuel → odsc.bb.Valid →
    (∀ od, ls.Stored od → ∀ obj, ls.objs od = some obj → odsc.name = obj.objDesc.name →
      obj.objDesc.bb.Valid ∧ odsc.bb.numDims = obj.objDesc.bb.numDims) →
    ((∃ od, ls.lsFind fuel odsc = some (some od)) ↔ ∃ od, ls.Stored od ∧ ∃ obj, ls.objs od = some obj ∧
      odsc.name = obj.objDesc.name ∧ odsc.version = obj.objDesc.version ∧
      (odsc.bb.cells ∩ obj.objDesc.bb.cells).Nonempty)
  foundAll : ∀ odsc : ObjDesc, ∀ fuel : Nat, ls.numObj < fuel → ∃ r, ls.lsFindAll fuel odsc = some r ∧
    ∀ tab, r = some tab → tab.length ≤ ls.numObj ∧ tab.Nodup ∧ ∀ od, od ∈ tab ↔ ls.Sought odsc od
  foundAllNoVersion : ∀ varName : CStr, ∀ fuel : Nat, ls.numObj < fuel →
    ∃ tab, ls.lsFindAllNoVersion fuel varName = some tab ∧ tab.length ≤ ls.numObj ∧ tab.Nodup ∧
      ∀ od, od ∈ tab ↔ ls.Stored od ∧ ∃ obj, ls.objs od = some obj ∧ obj.objDesc.name = varName

namespace Rep

variable {n : Nat} {ls : ObjStore} {S : Shelf} (h : Rep n ls S)

include h

theorem lt_fuel {fuel : Nat} (hfuel : ls.numObj < fuel) : S.length < fuel := by
  rw [h.count] at hfuel
  exact_mod_cast hfuel

theorem counted {i fuel : Nat} (hi : i < n) (hfuel : S.length < fuel) :
    Rings.length ls.entries (.bin i) fuel = some (S.bin n i).length :=
  (h.rings i hi).length (Nat.lt_of_le_of_lt (List.length_filter_le _ _) hfuel)

theorem numObj_eq_sum : ls.numObj = ((List.range n).map fun i => (S.bin n i).length).sum := by
  calc ls.numObj
      = S.length := h.count
    _ = ((List.range n).flatMap fun i => S.bin n i).length := by
        rw [(Shelf.perm_bins h.pos h.nodup).length_eq]
    _ = ((List.range n).map fun i => (S.bin n i).length).sum := by rw [List.length_flatMap]

/-- What is stored at an address is what the list has there. -/
theorem stored_and_iff {od : Nat} {P : CountedObj → Prop} :
    (ls.Stored od ∧ ∃ obj, ls.objs od = some obj ∧ P obj) ↔ ∃ p ∈ S, p.1 = od ∧ P p.2 := by
  constructor
  · rintro ⟨hstored, obj, hobj, hP⟩
    obtain ⟨p, hp, rfl⟩ := h.stored_iff.1 hstored
    obtain rfl : p.2 = obj := Option.some.inj ((h.objs p hp).symm.trans hobj)
    exact ⟨p, hp, rfl, hP⟩
  · rintro ⟨p, hp, rfl, hP⟩
    exact ⟨h.stored_iff.2 ⟨p, hp, rfl⟩, p.2, h.objs p hp, hP⟩

/-- Only the bin of the version has what the descriptor asks for. -/
theorem sought_iff {odsc : ObjDesc} {od : Nat} :
    ls.Sought odsc od ↔ ∃ p ∈ (S.bin n (ls.index odsc)).matching odsc, p.1 = od := by
  rw [Sought, h.stored_and_iff]
  constructor
  · rintro ⟨p, hp, hod, hname, hversion, hmeets⟩
    refine ⟨p, List.mem_filter.2 ⟨Shelf.mem_bin.2 ⟨hp, ?_⟩, ?_⟩, hod⟩
    · rw [h.index_eq, hversion]
    · exact objDescEqualsIntersect_iff.2 ⟨hname, hversion, hmeets⟩
  · rintro ⟨p, hp, hod⟩
    obtain ⟨hp, htest⟩ := List.mem_filter.1 hp
    exact ⟨p, (Shelf.mem_bin.1 hp).1, hod, objDescEqualsIntersect_iff.1 htest⟩

theorem mem_map_matching {odsc : ObjDesc} {od : Nat} :
    od ∈ ((S.bin n (ls.index odsc)).matching odsc).map Prod.fst ↔ ls.Sought odsc od := by
  rw [h.sought_iff, List.mem_map]

theorem found {fuel : Nat} (hfuel : S.length < fuel) (odsc : ObjDesc) :
    ∃ r, ls.lsFind fuel odsc = some r ∧ (r.isSome ↔ ∃ od, ls.Sought odsc od) ∧
      ∀ od, r = some od → ls.Sought odsc od := by
  refine ⟨_, h.lsFind hfuel odsc, ?_⟩
  have hsought : ∀ od, ls.Sought odsc od ↔ _ := fun od => h.mem_map_matching.symm
  simp only [hsought, ← List.head?_map]
  constructor
  · rw [List.isSome_head?]
    exact ⟨List.exists_mem_of_ne_nil _, fun hmem => List.ne_nil_of_mem hmem.choose_spec⟩
  · exact fun od hod => List.mem_of_head? hod

theorem foundAllNoVersion {fuel : Nat} (hfuel : S.length < fuel) (varName : CStr) :
    ∃ tab, ls.lsFindAllNoVersion fuel varName = some tab ∧ tab.length ≤ ls.numObj ∧ tab.Nodup ∧
      ∀ od, od ∈ tab ↔ ls.Stored od ∧ ∃ obj, ls.objs od = some obj ∧ obj.objDesc.name = varName := by
  have hperm : (Shelf.named varName ((List.range n).flatMap fun i => S.bin n i)).Perm (S.named varName) :=
    (Shelf.perm_bins h.pos h.nodup).filter _
  refine ⟨_, h.lsFindAllNoVersion hfuel varName, ?_, ?_, fun od => ?_⟩
  · rw [h.count, List.length_map, hperm.length_eq]
    exact_mod_cast List.length_filter_le _ _
  · exact (hperm.map Prod.fst).nodup_iff.2 (h.nodup.sublist (List.filter_sublist.map Prod.fst))
  · rw [(hperm.map Prod.fst).mem_iff, h.stored_and_iff, List.mem_map]
    constructor
    · rintro ⟨p, hp, rfl⟩
      obtain ⟨hp, hname⟩ := List.mem_filter.1 hp
      exact ⟨p, hp, rfl, of_decide_eq_true hname⟩
    · rintro ⟨p, hp, rfl, hname⟩
      exact ⟨p, List.mem_filter.2 ⟨hp, decide_eq_true hname⟩, rfl⟩

theorem placed {od : Nat} (hod : ls.Stored od) :
    ∃ obj, ls.objs od = some obj ∧ (∀ i < n, ls.InBin i od ↔ i = obj.objDesc.version.toNat % n) ∧
      dsStrHashFind ls.varDict obj.objDesc.name = true := by
  obtain ⟨p, hp, rfl⟩ := h.stored_iff.1 hod
  refine ⟨p.2, h.objs p hp, fun i hi => ?_, ?_⟩
  · rw [h.inBin_iff hi]
    constructor
    · rintro ⟨q, hq, heq⟩
      obtain ⟨hq, hqi⟩ := Shelf.mem_bin.1 hq
      rw [← hqi, Shelf.eq_of_nodup h.nodup hq hp heq]
    · intro heq
      exact ⟨p, Shelf.mem_bin.2 ⟨hp, heq.symm⟩, rfl⟩
  · exact List.contains_iff_mem.2 (mem_dsStrHashGetAll.1 (h.names p hp))

theorem foundShared {fuel : Nat} (hfuel : S.length < fuel) {odsc : ObjDesc} (hodsc : odsc.bb.Valid)
    (hvalid : ∀ od, ls.Stored od → ∀ obj, ls.objs od = some obj → odsc.name = obj.objDesc.name →
      obj.objDesc.bb.Valid ∧ odsc.bb.numDims = obj.objDesc.bb.numDims) :
    (∃ od, ls.lsFind fuel odsc = some (some od)) ↔ ∃ od, ls.Stored od ∧ ∃ obj, ls.objs od = some obj ∧
      odsc.name = obj.objDesc.name ∧ odsc.version = obj.objDesc.version ∧
      (odsc.bb.cells ∩ obj.objDesc.bb.cells).Nonempty := by
  obtain ⟨r, hrun, hsome, -⟩ := h.found hfuel odsc
  calc (∃ od, ls.lsFind fuel odsc = some (some od))
      ↔ r.isSome := by simp only [hrun, Option.some.injEq, Option.isSome_iff_exists]
    _ ↔ ∃ od, ls.Sought odsc od := hsome
    _ ↔ _ := by
        refine exists_congr fun od => and_congr_right fun hod => exists_congr fun obj => ?_
        refine and_congr_right fun hobj => and_congr_right fun hname => and_congr_right fun _ => ?_
        obtain ⟨hbb, hdims⟩ := hvalid od hod obj hobj hname
        exact bboxDoesIntersect_iff hodsc hbb hdims

theorem foundAll {fuel : Nat} (hfuel : S.length < fuel) (odsc : ObjDesc) :
    ∃ r, ls.lsFindAll fuel odsc = some r ∧
      ∀ tab, r = some tab → tab.length ≤ ls.numObj ∧ tab.Nodup ∧ ∀ od, od ∈ tab ↔ ls.Sought odsc od := by
  refine ⟨_, h.lsFindAll hfuel odsc, fun tab htab => ?_⟩
  split at htab
  · cases htab
  · obtain rfl := Option.some.inj htab
    refine ⟨?_, ?_, fun od => h.mem_map_matching⟩
    · rw [h.count, List.length_map]
      exact_mod_cast (List.filter_sublist.trans List.filter_sublist).length_le
    · exact h.nodup.sublist ((List.filter_sublist.trans List.filter_sublist).map Prod.fst)

theorem wellFormed : WellFormed n ls where
  returns ev hev fuel hfuel := by
    obtain ⟨ls', hrun, -⟩ := h.step hev (h.lt_fuel hfuel)
    exact ⟨ls', hrun⟩
  counted := ⟨_, h.numObj_eq_sum, fun i hi fuel hfuel => h.counted hi (h.lt_fuel hfuel)⟩
  placed od hod := h.placed hod
  found odsc fuel hfuel := h.found (h.lt_fuel hfuel) odsc
  foundShared odsc fuel hfuel hodsc hvalid := h.foundShared (h.lt_fuel hfuel) hodsc hvalid
  foundAll odsc fuel hfuel := h.foundAll (h.lt_fuel hfuel) odsc
  foundAllNoVersion varName fuel hfuel := h.foundAllNoVersion (h.lt_fuel hfuel) varName

end Rep

/-- In every state that a run leads to, the count, the bins and the dictionary are in step. -/
theorem wellFormed_of_reachable {n : Nat} (hn : 1 ≤ n) {ls : ObjStore} (h : Reachable n ls) :
    WellFormed n ls := by
  obtain ⟨S, hrep⟩ := h.rep hn
  exact hrep.wellFormed

/-- Add a line of cells that nobody counts on. -/
def lineAdd (od : Nat) (version : UInt32) (hi : UInt64) : Event :=
  .add od ⟨⟨plainDesc version (BBox.line 0 hi), ⟨1, Coord.ofFn fun _ => 10⟩, fun _ => 0⟩, 0, false⟩
    ⟨none, none⟩

/-- Adding a longer line evicts the shorter one. -/
theorem wellFormed_of_reachable_line :
    ∃ ls, Reachable 1 ls ∧ ls.numObj = 1 ∧ WellFormed 1 ls := by
  have hzero : (lsAlloc 1).Allowed (lineAdd 0 0 4) := by
    intro hstored
    obtain ⟨p, hp, -⟩ := (rep_lsAlloc Nat.one_pos).stored_iff.1 hstored
    exact List.not_mem_nil hp
  obtain ⟨ls₁, hrun₁, h₁⟩ := (rep_lsAlloc Nat.one_pos).step hzero (Nat.lt_succ_self _)
  have hone : ls₁.Allowed (lineAdd 1 3 6) := by
    intro hstored
    obtain ⟨p, hp, hod⟩ := h₁.stored_iff.1 hstored
    obtain rfl := List.mem_singleton.1 hp
    cases hod
  obtain ⟨ls₂, hrun₂, h₂⟩ := h₁.step hone (Nat.lt_succ_self _)
  have hreach : Reachable 1 ls₂ := .step (.step .start hzero hrun₁) hone hrun₂
  exact ⟨ls₂, hreach, h₂.count.trans (by decide), wellFormed_of_reachable le_rfl hreach⟩

/-! ## Without references -/

/-- The storage that only has what the bins hold. -/
def toSs (ls : ObjStore) (S : Shelf) : SsStorage where
  sizeHash := ls.sizeHash
  varDict := ls.varDict
  objHash := fun i => (S.bin ls.sizeHash i).map fun p => p.2.toObjData

theorem varDict_lsRemove {ls ls' : ObjStore} {od : Nat} (h : ls.lsRemove od = some ls') :
    ls'.varDict = ls.varDict := by
  obtain ⟨entries, -, rfl⟩ := Option.map_eq_some_iff.1 h
  rfl

theorem varDict_objDataFree {ls ls' : ObjStore} {od : Nat} (h : ls.objDataFree od = some ls') :
    ls'.varDict = ls.varDict := by
  obtain ⟨obj, -, rfl⟩ := Option.map_eq_some_iff.1 h
  rfl

theorem varDict_evict {ls ls' : ObjStore} {od : Nat} (h : ls.evict od = some ls') :
    ls'.varDict = ls.varDict := by
  obtain ⟨obj, -, h⟩ := Option.bind_eq_some_iff.1 h
  dsimp only at h
  split at h
  · obtain ⟨ls₁, h₁, h₂⟩ := Option.bind_eq_some_iff.1 h
    rw [varDict_objDataFree h₂, varDict_lsRemove h₁]
    rfl
  · obtain rfl := Option.some.inj h
    rfl

theorem varDict_putFirst {ls ls' : ObjStore} {od : Nat} (h : ls.putFirst od = some ls') :
    ls'.varDict = ls.varDict := by
  obtain ⟨obj, -, h⟩ := Option.bind_eq_some_iff.1 h
  obtain ⟨entries, -, rfl⟩ := Option.map_eq_some_iff.1 h
  rfl

theorem varDict_lsAddObj {ls ls' : ObjStore} {fuel od : Nat} {obj : CountedObj} (hobj : ls.objs od = some obj)
    (h : ls.lsAddObj fuel od = some ls') :
    ls'.varDict = dsStrHashAdd ls.varDict obj.objDesc.name := by
  simp only [lsAddObj, hobj, Option.bind_eq_bind, Option.bind_some, Option.bind_eq_some_iff] at h
  obtain ⟨old, -, h⟩ := h
  cases old with
  | none => exact varDict_putFirst h
  | some old =>
      obtain ⟨ls₁, hevict, hput⟩ := Option.bind_eq_some_iff.1 h
      exact (varDict_putFirst hput).trans (varDict_evict hevict)

/-- While nobody counts on an object, adding one is what it is without the counts. -/
theorem Rep.lsAddObj_toSs {n : Nat} {ls : ObjStore} {S : Shelf} {fuel od : Nat} (h : Rep n ls S)
    (hfree : ∀ p ∈ S, p.2.refcnt = 0) (hfuel : S.length < fuel) (hod : od ∉ S.map Prod.fst)
    (obj : CountedObj) (entry : Rings.Node StoreNode) :
    ∃ ls', (ls.withObj od obj entry).lsAddObj fuel od = some ls' ∧ Rep n ls' (S.add n od obj) ∧
      ls'.toSs (S.add n od obj) = (ls.toSs S).lsAddObj obj.toObjData := by
  obtain ⟨ls', hrun, h'⟩ := h.lsAddObj hfuel hod obj entry
  have hobj : (ls.withObj od obj entry).objs od = some obj := Function.update_self _ _ _
  have hdict := varDict_lsAddObj hobj hrun
  refine ⟨ls', hrun, h', ?_⟩
  have hbins : (fun i => ((S.add n od obj).bin n i).map fun p => p.2.toObjData) =
      ((ls.toSs S).lsAddObj obj.toObjData).objHash := by
    funext i
    have hindex : (ls.toSs S).index obj.objDesc = obj.objDesc.version.toNat % n := h.index_eq obj.objDesc
    have hbin : (ls.toSs S).objHash i = (S.bin n i).map fun p => p.2.toObjData := by
      rw [toSs, h.size]
    rw [SsStorage.objHash_lsAddObj, Shelf.bin_add hfree h.nodup, hindex, hbin, List.eraseP_map]
    by_cases hi : obj.objDesc.version.toNat % n = i
    · rw [if_pos hi, if_pos hi.symm]
      rfl
    · rw [if_neg hi, if_neg (Ne.symm hi)]
  rw [toSs, hdict, h'.size, hbins, ← h.size]
  rfl

section ToSs

variable {n : Nat} {ls : ObjStore} {S : Shelf} {fuel : Nat} (h : Rep n ls S) (hfuel : S.length < fuel)

include h

theorem Rep.objHash_toSs (i : Nat) :
    (ls.toSs S).objHash i = (S.bin n i).map fun p => p.2.toObjData := by
  rw [toSs, h.size]

theorem Rep.matching_toSs (odsc : ObjDesc) (i : Nat) :
    ((ls.toSs S).objHash i).filter (fun od => objDescEqualsIntersect odsc od.objDesc) =
      ((S.bin n i).matching odsc).map fun p => p.2.toObjData := by
  rw [h.objHash_toSs, List.filter_map]
  rfl

include hfuel

theorem Rep.lsFind_toSs (odsc : ObjDesc) :
    ∃ r, ls.lsFind fuel odsc = some r ∧
      (ls.toSs S).lsFind odsc = r.bind fun od => (ls.objs od).map CountedObj.toObjData := by
  refine ⟨_, h.lsFind hfuel odsc, ?_⟩
  have hfind : (ls.toSs S).lsFind odsc =
      ((S.bin n (ls.index odsc)).matching odsc).head?.map fun p => p.2.toObjData := by
    rw [SsStorage.lsFind, ← List.head?_filter, h.matching_toSs, List.head?_map]
    rfl
  rw [hfind]
  cases hhead : ((S.bin n (ls.index odsc)).matching odsc).head? with
  | none => rfl
  | some p =>
      rw [Option.map_some, Option.map_some, Option.bind_some,
        h.objs p (Shelf.mem_of_mem_matching (List.mem_of_head? hhead)), Option.map_some]

theorem Rep.lsFindAll_toSs (odsc : ObjDesc) :
    ∃ r, ls.lsFindAll fuel odsc = some r ∧
      DataSpaces.lsFindAll (ls.toSs S) odsc =
        r.map fun tab => tab.filterMap fun od => (ls.objs od).map CountedObj.toObjData := by
  refine ⟨_, h.lsFindAll hfuel odsc, ?_⟩
  have hobjs : (((S.bin n (ls.index odsc)).matching odsc).map Prod.fst).filterMap
      (fun od => (ls.objs od).map CountedObj.toObjData) =
        ((S.bin n (ls.index odsc)).matching odsc).map fun p => p.2.toObjData := by
    rw [List.filterMap_map, ← List.filterMap_eq_map]
    refine List.filterMap_congr fun p hp => ?_
    rw [Function.comp_apply, h.objs p (Shelf.mem_of_mem_matching hp)]
    rfl
  have hrun : DataSpaces.lsFindAll (ls.toSs S) odsc =
      if (S.bin n (ls.index odsc)).leftOver odsc (bboxVolume odsc.bb).toInt64 ≠ 0 then none
      else some (((S.bin n (ls.index odsc)).matching odsc).map fun p => p.2.toObjData) := by
    rw [DataSpaces.lsFindAll, foldl_lsFindAllStep, h.matching_toSs, List.foldl_map, List.nil_append]
    rfl
  rw [hrun]
  split
  · rfl
  · rw [Option.map_some, hobjs]

end ToSs

end ObjStore

end DataSpaces
