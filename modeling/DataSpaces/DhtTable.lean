import DataSpaces.Storage

/-!
# DhtTable — the descriptors a server keeps for its part of the space (`ss_data.c`)

The table of a `dht_entry` has one list of descriptors for each version modulo `odsc_size`.  A list
node is allocated once and never freed, and `dht_add_entry` may overwrite the descriptor in it, so
what a query gets from `dht_find_entry_all` is a list of nodes (`Slot` numbers here), not of
descriptors.  A blocking query that does not find all cells it needs leaves a subscription behind;
each `dht_add_entry` of a matching descriptor then adds its node to the subscription and takes the
cells it brings off what remains.

How many cells of a box the server is in charge of is a parameter (`count`); `none` is a count that
does not return.
-/

namespace DataSpaces

/-- `struct obj_desc_list`: a list node, by its number, with the descriptor in it. -/
structure Slot where
  id : Nat
  odsc : ObjDesc

/-- `struct dht_sub_list_entry`, with the number of the call that waits on it. -/
structure DhtSub where
  call : Nat
  odsc : ObjDesc
  remaining : Int64
  pubCount : Nat
  recvOdsc : List Nat

/-- The table of a `dht_entry`.  The nodes allocated so far are those below `fresh`. -/
structure DhtTable where
  odscSize : Nat
  odscHash : Nat → List Slot
  dhtSubs : Nat → List DhtSub
  fresh : Nat

def dhtEntryAlloc (sizeHash : Nat) : DhtTable where
  odscSize := sizeHash
  odscHash := fun _ => []
  dhtSubs := fun _ => []
  fresh := 0

namespace DhtTable

/-- The bin of a version. -/
def index (de : DhtTable) (odsc : ObjDesc) : Nat :=
  odsc.version.toNat % de.odscSize

/-- The first node of the bin whose descriptor matches by name and coordinates, but not version.  A
version of `-1` is taken for an unset one and matches nothing. -/
def dhtFindMatch (de : DhtTable) (odsc : ObjDesc) : Option Slot :=
  if odsc.version = 0xffffffff then none
  else (de.odscHash (de.index odsc)).find? fun odscl => objDescByNameIntersect odsc odscl.odsc

/-- The first node of the bin whose descriptor has the version, the name and the box of the given one. -/
def dhtFindExact (de : DhtTable) (odsc : ObjDesc) : Option Slot :=
  (de.odscHash (de.index odsc)).find? fun odscl => objDescEqualsNoOwner odsc odscl.odsc

/-- The descriptor that is now in a node. -/
def read (de : DhtTable) (id : Nat) : Option ObjDesc :=
  (List.range de.odscSize).findSome? fun n =>
    ((de.odscHash n).find? fun odscl => odscl.id == id).map Slot.odsc

/-- The node that `dht_add_entry` uses for the descriptor: the match, or a new one. -/
def slotFor (de : DhtTable) (odsc : ObjDesc) : Nat :=
  match de.dhtFindMatch odsc with
  | some odscl => odscl.id
  | none => de.fresh

/-- The first half of `dht_add_entry`: overwrite the matching node or put a new one in front. -/
def store (de : DhtTable) (odsc : ObjDesc) : DhtTable :=
  let n := de.index odsc
  match de.dhtFindMatch odsc with
  | some odscl =>
      { de with
        odscHash := Function.update de.odscHash n ((de.odscHash n).map fun s =>
          if s.id = odscl.id then { s with odsc := odsc } else s) }
  | none =>
      { de with
        odscHash := Function.update de.odscHash n (⟨de.fresh, odsc⟩ :: de.odscHash n)
        fresh := de.fresh + 1 }

end DhtTable

/-- Does an update concern a subscription? -/
def DhtSub.wants (sub : DhtSub) (odsc : ObjDesc) : Bool :=
  bboxDoesIntersect odsc.bb sub.odsc.bb && odsc.name == sub.odsc.name &&
    odsc.version == sub.odsc.version

section Count

variable (count : BBox → Option Int64)

/-- One turn of the loop over the subscriptions.  The flag says that the subscription is complete and
leaves the list. -/
def DhtSub.notify (odsc : ObjDesc) (slot : Nat) (sub : DhtSub) : Option (DhtSub × Bool) :=
  if sub.wants odsc then
    (count (bboxIntersect odsc.bb sub.odsc.bb)).map fun n =>
      ({ sub with
          recvOdsc := slot :: sub.recvOdsc
          pubCount := sub.pubCount + 1
          remaining := sub.remaining - n }, sub.remaining - n == 0)
  else some (sub, false)

/-- `dht_add_entry`: the new table and the subscriptions that the call completed. -/
def dhtAddEntry (de : DhtTable) (odsc : ObjDesc) : Option (DhtTable × List DhtSub) := do
  let n := de.index odsc
  let notified ← (de.dhtSubs n).mapM (DhtSub.notify count odsc (de.slotFor odsc))
  let stored := de.store odsc
  return ({ stored with
      dhtSubs := Function.update de.dhtSubs n
        ((notified.filter fun r => !r.2).map Prod.fst) },
    (notified.filter fun r => r.2).map Prod.fst)

/-- The scan of `dht_find_entry_all` over the bin: the matching nodes, and what they leave of
`num_elem`. -/
def dhtScan (qOdsc : ObjDesc) : List Slot → Int64 → Option (List Nat × Int64)
  | [], numElem => some ([], numElem)
  | odscl :: rest, numElem =>
      if objDescEqualsIntersect odscl.odsc qOdsc then do
        let n ← count (bboxIntersect qOdsc.bb odscl.odsc.bb)
        let (odscTab, left) ← dhtScan qOdsc rest (numElem - n)
        return (odscl.id :: odscTab, left)
      else dhtScan qOdsc rest numElem

/-- What `dht_find_entry_all` does after the scan: it returns, or it waits for the rest. -/
inductive FindResult
  | done (odscTab : List Nat)
  | wait (odscTab : List Nat) (remaining : Int64)
deriving DecidableEq

/-- `dht_find_entry_all` up to the point where it returns or starts to wait; `timeout` is `-1` for a
call that blocks. -/
def dhtFindEntryAll (de : DhtTable) (qOdsc : ObjDesc) (timeout : Int) : Option FindResult := do
  let numElem ← count qOdsc.bb
  let (odscTab, left) ← dhtScan count qOdsc (de.odscHash (de.index qOdsc)) numElem
  if timeout = -1 then
    return if left > 0 then .wait odscTab left else .done odscTab
  else return if left > 0 then .done [] else .done odscTab

end Count

/-- The subscription that `dht_local_subscribe` puts at the head of the bin's list. -/
def dhtLocalSubscribe (de : DhtTable) (call : Nat) (qOdsc : ObjDesc) (remaining : Int64) : DhtTable :=
  let sub : DhtSub := ⟨call, qOdsc, remaining, 0, []⟩
  { de with
    dhtSubs := Function.update de.dhtSubs (de.index qOdsc) (sub :: de.dhtSubs (de.index qOdsc)) }

/-! ## The list nodes -/

namespace DhtTable

/-- Nodes sit in the bin of their version, are numbered below `fresh`, and no number is used twice. -/
structure Ok (de : DhtTable) : Prop where
  size_pos : 0 < de.odscSize
  binned : ∀ n, ∀ s ∈ de.odscHash n, de.index s.odsc = n
  below : ∀ n, ∀ s ∈ de.odscHash n, s.id < de.fresh
  unique : ∀ n, ((de.odscHash n).map Slot.id).Nodup
  apart : ∀ n n' s s', s ∈ de.odscHash n → s' ∈ de.odscHash n' → s.id = s'.id → n = n'

variable {de : DhtTable} {odsc : ObjDesc}

theorem ok_dhtEntryAlloc {sizeHash : Nat} (h : 0 < sizeHash) : (dhtEntryAlloc sizeHash).Ok where
  size_pos := h
  binned := by simp [dhtEntryAlloc]
  below := by simp [dhtEntryAlloc]
  unique := by simp [dhtEntryAlloc]
  apart := by simp [dhtEntryAlloc]

@[simp] theorem odscSize_store : (de.store odsc).odscSize = de.odscSize := by
  rw [store]
  cases de.dhtFindMatch odsc <;> rfl

@[simp] theorem index_store (odsc' : ObjDesc) : (de.store odsc).index odsc' = de.index odsc' := by
  simp only [index, odscSize_store]

@[simp] theorem dhtSubs_store : (de.store odsc).dhtSubs = de.dhtSubs := by
  rw [store]
  cases de.dhtFindMatch odsc <;> rfl

theorem odscHash_store_of_match {odscl : Slot} (h : de.dhtFindMatch odsc = some odscl) (n : Nat) :
    (de.store odsc).odscHash n =
      if n = de.index odsc then (de.odscHash n).map fun s =>
        if s.id = odscl.id then { s with odsc := odsc } else s
      else de.odscHash n := by
  simp only [store, h, Function.update_apply]
  by_cases hn : n = de.index odsc
  · subst hn
    rfl
  · rw [if_neg hn, if_neg hn]

theorem odscHash_store_of_new (h : de.dhtFindMatch odsc = none) (n : Nat) :
    (de.store odsc).odscHash n =
      if n = de.index odsc then ⟨de.fresh, odsc⟩ :: de.odscHash n else de.odscHash n := by
  simp only [store, h, Function.update_apply]
  by_cases hn : n = de.index odsc
  · subst hn
    rfl
  · rw [if_neg hn, if_neg hn]

/-- The match is a node of the bin with the name of the descriptor and a box that meets it. -/
theorem dhtFindMatch_some {odscl : Slot} (h : de.dhtFindMatch odsc = some odscl) :
    odscl ∈ de.odscHash (de.index odsc) ∧ objDescByNameIntersect odsc odscl.odsc = true := by
  rw [dhtFindMatch] at h
  split at h
  · cases h
  · exact ⟨List.mem_of_find?_eq_some h, by simpa using List.find?_some h⟩

namespace Ok

/-- Nodes with one number are one node. -/
theorem eq_of_id (h : de.Ok) {n n' : Nat} {s s' : Slot} (hs : s ∈ de.odscHash n)
    (hs' : s' ∈ de.odscHash n') (hid : s.id = s'.id) : s = s' := by
  have hn := h.apart n n' s s' hs hs' hid
  subst hn
  exact List.inj_on_of_nodup_map (h.unique n) hs hs' hid

/-- After an update the table has the new descriptor in its node and all other nodes as before. -/
theorem mem_store (h : de.Ok) {n : Nat} {s : Slot} :
    s ∈ (de.store odsc).odscHash n ↔
      (s = ⟨de.slotFor odsc, odsc⟩ ∧ n = de.index odsc) ∨
        (s ∈ de.odscHash n ∧ s.id ≠ de.slotFor odsc) := by
  cases hfind : de.dhtFindMatch odsc with
  | some odscl =>
      rcases dhtFindMatch_some hfind with ⟨hmem, -⟩
      have hslot : de.slotFor odsc = odscl.id := by simp only [slotFor, hfind]
      rw [odscHash_store_of_match hfind, hslot]
      by_cases hn : n = de.index odsc
      · subst hn
        rw [if_pos rfl, List.mem_map]
        constructor
        · rintro ⟨s', hs', rfl⟩
          by_cases hid : s'.id = odscl.id
          · left
            rw [if_pos hid, hid]
            exact ⟨rfl, rfl⟩
          · right
            rw [if_neg hid]
            exact ⟨hs', hid⟩
        · rintro (⟨rfl, -⟩ | ⟨hs, hid⟩)
          · exact ⟨odscl, hmem, by rw [if_pos rfl]⟩
          · exact ⟨s, hs, by rw [if_neg hid]⟩
      · -- the node that is overwritten is in another bin
        rw [if_neg hn]
        constructor
        · intro hs
          exact Or.inr ⟨hs, fun hid => hn (h.apart n _ s odscl hs hmem hid)⟩
        · rintro (⟨-, hn'⟩ | ⟨hs, -⟩)
          · exact absurd hn' hn
          · exact hs
  | none =>
      have hslot : de.slotFor odsc = de.fresh := by simp only [slotFor, hfind]
      have hold : ∀ s' ∈ de.odscHash n, s'.id ≠ de.fresh :=
        fun s' hs' => Nat.ne_of_lt (h.below n s' hs')
      rw [odscHash_store_of_new hfind, hslot]
      by_cases hn : n = de.index odsc
      · rw [if_pos hn, List.mem_cons]
        constructor
        · rintro (rfl | hs)
          · exact Or.inl ⟨rfl, hn⟩
          · exact Or.inr ⟨hs, hold s hs⟩
        · rintro (⟨rfl, -⟩ | ⟨hs, -⟩)
          · exact Or.inl rfl
          · exact Or.inr hs
      · rw [if_neg hn]
        constructor
        · intro hs
          exact Or.inr ⟨hs, hold s hs⟩
        · rintro (⟨-, hn'⟩ | ⟨hs, -⟩)
          · exact absurd hn' hn
          · exact hs

theorem slotFor_lt (h : de.Ok) (odsc : ObjDesc) :
    de.slotFor odsc < (de.store odsc).fresh := by
  cases hfind : de.dhtFindMatch odsc with
  | some odscl =>
      have hlt := h.below _ odscl (dhtFindMatch_some hfind).1
      simpa only [slotFor, store, hfind] using hlt
  | none => simp [slotFor, store, hfind]

theorem fresh_le_store (_ : de.Ok) (odsc : ObjDesc) : de.fresh ≤ (de.store odsc).fresh := by
  cases hfind : de.dhtFindMatch odsc with
  | some odscl => simp [store, hfind]
  | none => simp [store, hfind]

/-- The node for the update is either new or already in the bin of the update. -/
theorem bin_of_slotFor (h : de.Ok) {n : Nat} {s : Slot} (hs : s ∈ de.odscHash n)
    (hid : s.id = de.slotFor odsc) : n = de.index odsc ∧ de.dhtFindMatch odsc = some s := by
  cases hfind : de.dhtFindMatch odsc with
  | some odscl =>
      rcases dhtFindMatch_some hfind with ⟨hmem, -⟩
      simp only [slotFor, hfind] at hid
      have hseq := h.eq_of_id hs hmem hid
      exact ⟨h.apart n _ s odscl hs hmem hid, by rw [hseq]⟩
  | none =>
      simp only [slotFor, hfind] at hid
      exact absurd hid (Nat.ne_of_lt (h.below n s hs))

/-- An update keeps the nodes in order. -/
theorem store (h : de.Ok) (odsc : ObjDesc) : (de.store odsc).Ok where
  size_pos := by
    rw [odscSize_store]
    exact h.size_pos
  binned := by
    intro n s hs
    rw [index_store]
    rcases h.mem_store.1 hs with ⟨rfl, hn⟩ | ⟨hs, -⟩
    · exact hn.symm
    · exact h.binned n s hs
  below := by
    intro n s hs
    rcases h.mem_store.1 hs with ⟨rfl, -⟩ | ⟨hs, -⟩
    · exact h.slotFor_lt odsc
    · exact lt_of_lt_of_le (h.below n s hs) (h.fresh_le_store odsc)
  unique := by
    intro n
    cases hfind : de.dhtFindMatch odsc with
    | some odscl =>
        rw [odscHash_store_of_match hfind]
        split
        · -- overwriting does not change the numbers
          have hids : ((de.odscHash n).map fun s =>
              if s.id = odscl.id then { s with odsc := odsc } else s).map Slot.id =
                (de.odscHash n).map Slot.id := by
            rw [List.map_map]
            refine List.map_congr_left fun s _ => ?_
            simp only [Function.comp_apply]
            split <;> rfl
          rw [hids]
          exact h.unique n
        · exact h.unique n
    | none =>
        rw [odscHash_store_of_new hfind]
        split
        · refine List.nodup_cons.2 ⟨fun hmem => ?_, h.unique n⟩
          rcases List.mem_map.1 hmem with ⟨s, hs, hid⟩
          exact Nat.ne_of_lt (h.below n s hs) hid
        · exact h.unique n
  apart := by
    intro n n' s s' hs hs' hid
    rcases h.mem_store.1 hs with ⟨rfl, hn⟩ | ⟨hs, hne⟩
    · rcases h.mem_store.1 hs' with ⟨rfl, hn'⟩ | ⟨-, hne'⟩
      · exact hn.trans hn'.symm
      · exact absurd hid.symm hne'
    · rcases h.mem_store.1 hs' with ⟨rfl, -⟩ | ⟨hs', -⟩
      · exact absurd hid hne
      · exact h.apart n n' s s' hs hs' hid

/-- Reading a node gives the descriptor in it. -/
theorem read_eq_some (h : de.Ok) {id : Nat} {odsc : ObjDesc} :
    de.read id = some odsc ↔ ∃ n, ⟨id, odsc⟩ ∈ de.odscHash n := by
  constructor
  · intro hread
    rcases List.exists_of_findSome?_eq_some hread with ⟨n, -, hn⟩
    rcases Option.map_eq_some_iff.1 hn with ⟨s, hs, rfl⟩
    have hid : s.id = id := by simpa using List.find?_some hs
    refine ⟨n, ?_⟩
    rw [← hid]
    exact List.mem_of_find?_eq_some hs
  · rintro ⟨n, hmem⟩
    have hlt : n < de.odscSize := by
      rw [← h.binned n _ hmem]
      exact Nat.mod_lt _ h.size_pos
    rw [read]
    cases hread : (List.range de.odscSize).findSome? fun n =>
        ((de.odscHash n).find? fun odscl => odscl.id == id).map Slot.odsc with
    | none =>
        have hnone := List.findSome?_eq_none_iff.1 hread n (List.mem_range.2 hlt)
        rw [Option.map_eq_none_iff, List.find?_eq_none] at hnone
        exact absurd (hnone _ hmem) (by simp)
    | some odsc' =>
        rcases List.exists_of_findSome?_eq_some hread with ⟨n', -, hn'⟩
        rcases Option.map_eq_some_iff.1 hn' with ⟨s, hs, rfl⟩
        -- only one node has this id
        have hid : s.id = id := by simpa using List.find?_some hs
        rw [h.eq_of_id (List.mem_of_find?_eq_some hs) hmem hid]

end Ok

end DhtTable

/-! ## The scan -/

section Scan

variable {count : BBox → Option Int64} {qOdsc : ObjDesc}

/-- The scan returns the nodes of the bin that match the query. -/
theorem dhtScan_eq_filter (l : List Slot) :
    ∀ (numElem : Int64) (r : List Nat × Int64), dhtScan count qOdsc l numElem = some r →
      r.1 = (l.filter fun s => objDescEqualsIntersect s.odsc qOdsc).map Slot.id := by
  induction l with
  | nil =>
      intro numElem r h
      cases h
      rfl
  | cons s l ih =>
      intro numElem r h
      rw [dhtScan] at h
      by_cases hm : objDescEqualsIntersect s.odsc qOdsc = true
      · rw [if_pos hm] at h
        rcases Option.bind_eq_some_iff.1 h with ⟨n, -, h⟩
        rcases Option.bind_eq_some_iff.1 h with ⟨r', hr', h⟩
        cases h
        simp [hm, ih _ _ hr']
      · rw [if_neg hm] at h
        simp [hm, ih _ _ h]

end Scan

/-! ## Updates without subscriptions -/

theorem dhtAddEntry_of_no_subs (count : BBox → Option Int64) {de : DhtTable} {odsc : ObjDesc}
    (h : de.dhtSubs (de.index odsc) = []) :
    dhtAddEntry count de odsc = some (de.store odsc, []) := by
  have hsubs : Function.update de.dhtSubs (de.index odsc) [] = (de.store odsc).dhtSubs := by
    rw [DhtTable.dhtSubs_store, ← h, Function.update_eq_self]
  have hrun : dhtAddEntry count de odsc =
      some ({ de.store odsc with dhtSubs := Function.update de.dhtSubs (de.index odsc) [] }, []) := by
    simp only [dhtAddEntry, h, List.mapM_nil]
    rfl
  rw [hrun, hsubs]

end DataSpaces
