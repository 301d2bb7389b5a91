import DataSpaces.Routing

/-!
# Hosted — where the data of a module is

Several servers make the same array for one box.  Each keeps it as an object of its own and announces it to all
servers that the box hashes to.  An object or a descriptor with the name replaces the one that is there, so no
storage and no table ever has two of them (`Hosted`), and every descriptor, in a table or on its way, names a
server that has the object.
-/

namespace DataSpaces

/-! ## One object of a name -/

section Single

variable {ls : SsStorage} {de : DhtTable} {n : Nat} {nm : CStr}

/-- An object takes the place of the only one of its name when the two meet. -/
theorem SsStorage.named_lsAddObj_meets {od : ObjData} (hn : ls.index od.objDesc = n)
    (hname : od.objDesc.name = nm) (hone : (ls.named n nm).length ≤ 1)
    (hmeet : ∀ old ∈ ls.named n nm, bboxDoesIntersect od.objDesc.bb old.objDesc.bb = true) :
    (ls.lsAddObj od).named n nm = [od] := by
  -- what matches the object has its name
  have hmatch : (fun old : ObjData => objDescByNameIntersect od.objDesc old.objDesc &&
      decide (old.objDesc.name = nm)) = fun old => objDescByNameIntersect od.objDesc old.objDesc := by
    funext old
    rw [Bool.and_eq_left_iff_imp]
    intro h
    exact decide_eq_true ((objDescByNameIntersect_iff.1 h).1.symm.trans hname)
  have hrest : (ls.named n nm).eraseP (fun old => objDescByNameIntersect od.objDesc old.objDesc) = [] := by
    cases hlist : ls.named n nm with
    | nil => rfl
    | cons old olds =>
        rw [hlist, List.length_cons, Nat.succ_le_succ_iff, Nat.le_zero, List.length_eq_zero_iff] at hone
        have hold : old ∈ ls.named n nm := by
          rw [hlist]
          exact List.mem_cons_self
        have hsame : objDescByNameIntersect od.objDesc old.objDesc = true :=
          objDescByNameIntersect_iff.2 ⟨hname.trans (SsStorage.mem_named.1 hold).2.symm, hmeet old hold⟩
        rw [hone]
        simp [hsame]
  rw [SsStorage.named, List.eraseP_filter, hmatch] at hrest
  rw [SsStorage.named, SsStorage.objHash_lsAddObj, if_pos hn.symm, List.filter_cons_of_pos (by simpa using hname),
    hrest]

/-- So does a descriptor. -/
theorem DhtTable.Ok.named_store_meets (hok : de.Ok) {odsc : ObjDesc} (hn : de.index odsc = n)
    (hname : odsc.name = nm) (hver : odsc.version ≠ 0xffffffff) (hone : (de.named n nm).length ≤ 1)
    (hmeet : ∀ old ∈ de.named n nm, bboxDoesIntersect odsc.bb old.bb = true) :
    (de.store odsc).named n nm = [odsc] := by
  cases hfind : de.dhtFindMatch odsc with
  | none =>
      -- nothing of the name is there, since it would meet the descriptor
      have hnone : de.named n nm = [] := by
        refine List.eq_nil_iff_forall_not_mem.2 fun old hold => ?_
        rcases DhtTable.mem_named.1 hold with ⟨⟨s, hs, rfl⟩, hsname⟩
        rw [DhtTable.dhtFindMatch, if_neg hver, hn, List.find?_eq_none] at hfind
        exact hfind s hs (objDescByNameIntersect_iff.2 ⟨hname.trans hsname.symm, hmeet _ hold⟩)
      rw [DhtTable.named_store_apart hn hname (by simp [hnone]), hnone]
  | some odscl =>
      have hstore := DhtTable.odscHash_store_of_match hfind n
      rw [if_pos hn.symm] at hstore
      have hmatch := (DhtTable.dhtFindMatch_some hfind).2
      have hsame : odscl.odsc.name = nm := (objDescByNameIntersect_iff.1 hmatch).1.symm.trans hname
      rw [DhtTable.dhtFindMatch, if_neg hver, hn, List.find?_eq_some_iff_append] at hfind
      obtain ⟨-, before, after, hsplit, -⟩ := hfind
      have hmiddle : (de.odscHash n).Perm (odscl :: (before ++ after)) := hsplit ▸ List.perm_middle
      -- no other node has the number or the name of the one that is overwritten
      have hids := (hmiddle.map Slot.id).nodup_iff.1 (hok.unique n)
      have hnames : ∀ s ∈ before ++ after, s.odsc.name ≠ nm := by
        have hlength := ((hmiddle.map Slot.odsc).filter fun odsc => odsc.name = nm).length_eq
        rw [List.map_cons, List.filter_cons_of_pos (by simpa using hsame), List.length_cons] at hlength
        have hnil := List.eq_nil_of_length_eq_zero (Nat.le_zero.1 (Nat.le_of_succ_le_succ (hlength ▸ hone)))
        intro s hs hsname
        exact List.filter_eq_nil_iff.1 hnil s.odsc (List.mem_map_of_mem hs) (decide_eq_true hsname)
      have hkept : ∀ s ∈ before ++ after, (if s.id = odscl.id then { s with odsc := odsc } else s) = s := by
        intro s hs
        refine if_neg fun hid => (List.nodup_cons.1 hids).1 ?_
        rw [← hid]
        exact List.mem_map_of_mem hs
      have hother : ∀ l : List Slot, (∀ s ∈ l, s ∈ before ++ after) →
          ((l.map fun s => if s.id = odscl.id then { s with odsc := odsc } else s).map Slot.odsc).filter
            (fun odsc => odsc.name = nm) = [] := by
        intro l hl
        rw [List.map_congr_left fun s hs => hkept s (hl s hs), List.map_id', List.filter_eq_nil_iff]
        intro old hold
        obtain ⟨s, hs, rfl⟩ := List.mem_map.1 hold
        simpa using hnames s (hl s hs)
      rw [DhtTable.named, hstore, hsplit, List.map_append, List.map_append, List.map_cons, List.map_cons,
        List.filter_append, hother before fun s hs => List.mem_append_left _ hs, if_pos rfl,
        List.filter_cons_of_pos (by simpa using hname), hother after fun s hs => List.mem_append_right _ hs,
        List.nil_append]

end Single

/-! ## The array of a module -/

/-- What a module makes for a box: the sides of the array, the size and the tag of its elements, and their
bytes. -/
structure Made where
  dims : Nat → UInt64
  elemSize : Int32
  tag : Int32
  byte : Cell → ℕ → UInt8

namespace Made

/-- The box of the array, at the lower corner of the box that was asked for. -/
def box (m : Made) (bb : BBox) : BBox :=
  { bb with
    ub := Coord.ofFn fun i => if i < bb.numDims then bb.lb.c i + (m.dims i - 1) else bb.ub.c i }

/-- A descriptor of the array. -/
structure Piece (m : Made) (qOdsc odsc : ObjDesc) : Prop where
  name : odsc.name = qOdsc.name
  version : odsc.version = qOdsc.version
  bb : odsc.bb = m.box qOdsc.bb
  size : odsc.size = sizeOfInt m.elemSize
  tag : odsc.tag = m.tag
  stored : odsc.flags &&& DS_CLIENT_STORAGE = 0
  cropped : odsc.flags &&& DS_OBJ_RESIZE ≠ 0 ∨ m.box qOdsc.bb = qOdsc.bb

/-- The array as an object. -/
structure Object (m : Made) (qOdsc : ObjDesc) (od : ObjData) : Prop where
  piece : m.Piece qOdsc od.objDesc
  data : HoldsBytes (m.box qOdsc.bb) (sizeOfInt m.elemSize).toNat m.byte od.data

theorem Piece.ownedBy {m : Made} {qOdsc odsc : ObjDesc} (h : m.Piece qOdsc odsc) (rank : Nat) :
    m.Piece qOdsc (odsc.ownedBy rank) :=
  ⟨h.name, h.version, h.bb, h.size, h.tag, h.stored, h.cropped⟩

/-- Two descriptors of the array meet. -/
theorem Piece.meets {m : Made} {qOdsc odsc odsc' : ObjDesc} (h : m.Piece qOdsc odsc)
    (hbox : (m.box qOdsc.bb).Valid) (h' : m.Piece qOdsc odsc') :
    bboxDoesIntersect odsc.bb odsc'.bb = true := by
  obtain ⟨x, hx⟩ := hbox.cells_nonempty
  rw [h.bb, h'.bb]
  exact bboxDoesIntersect_of_mem rfl hbox.dims hx hx

end Made

/-! ## One variable in a plane -/

/-- The place of the version in storages and tables. -/
def ObjDesc.bin (odsc : ObjDesc) (maxVersions : Nat) : Nat :=
  odsc.version.toNat % maxVersions

/-- The objects of the variable at a server. -/
def Plane.objects (p : Plane) (qOdsc : ObjDesc) (maxVersions r : Nat) : List ObjData :=
  (p.ls r).named (qOdsc.bin maxVersions) qOdsc.name

/-- Its descriptors in the table of a server. -/
def Plane.descs (p : Plane) (qOdsc : ObjDesc) (maxVersions r : Nat) : List ObjDesc :=
  (p.tab r).named (qOdsc.bin maxVersions) qOdsc.name

/-- Those that are on their way to the server. -/
def Plane.onWay (p : Plane) (qOdsc : ObjDesc) (maxVersions r : Nat) : List ObjDesc :=
  pendingTo p.net qOdsc.name (qOdsc.bin maxVersions) maxVersions r

/-- Storages and tables have as many bins as versions are kept, and the nodes are in order. -/
structure Plane.Sizes (maxVersions : Nat) (p : Plane) : Prop where
  ls : ∀ r, (p.ls r).sizeHash = maxVersions
  tab : ∀ r, (p.tab r).odscSize = maxVersions
  nodes : ∀ r, (p.tab r).Ok

/-- A server keeps at most one object of the variable and at most one descriptor, and every descriptor names a
server that has the object. -/
structure Hosted (m : Made) (qOdsc : ObjDesc) (maxVersions : Nat) (p : Plane) : Prop where
  sizes : p.Sizes maxVersions
  oneObject : ∀ r, (p.objects qOdsc maxVersions r).length ≤ 1
  oneDesc : ∀ r, (p.descs qOdsc maxVersions r).length ≤ 1
  stored : ∀ r, ∀ od ∈ p.objects qOdsc maxVersions r, m.Object qOdsc od
  placed : ∀ r, ∀ odsc ∈ p.descs qOdsc maxVersions r ++ p.onWay qOdsc maxVersions r,
    m.Piece qOdsc odsc ∧ ∃ owner, odsc.owner = .server owner ∧ p.objects qOdsc maxVersions owner ≠ []

/-- What there is of the variable does not go away. -/
structure Plane.Keeps (qOdsc : ObjDesc) (maxVersions : Nat) (p p' : Plane) : Prop where
  objects : ∀ r, p.objects qOdsc maxVersions r ≠ [] → p'.objects qOdsc maxVersions r ≠ []
  descs : ∀ r, p.descs qOdsc maxVersions r ≠ [] → p'.descs qOdsc maxVersions r ≠ []

section Hosted

variable {m : Made} {ssd : SSpace} {qOdsc : ObjDesc} {conf : Conf} {maxVersions : Nat} {p p' : Plane}

theorem Plane.Keeps.refl (p : Plane) : p.Keeps qOdsc maxVersions p :=
  ⟨fun _ h => h, fun _ h => h⟩

theorem Hosted.init (hversions : 0 < conf.maxVersions) :
    Hosted m qOdsc conf.maxVersions (Plane.init conf) where
  sizes := ⟨fun _ => rfl, fun _ => rfl, fun _ => DhtTable.ok_dhtEntryAlloc hversions⟩
  oneObject _ := Nat.zero_le 1
  oneDesc _ := Nat.zero_le 1
  stored _ _ hod := nomatch hod
  placed _ _ hodsc := nomatch hodsc

/-! ### What a put and an arrival change -/

section Change

variable (h : p.Sizes maxVersions)

include h

/-- A server that adds an object and stores a descriptor. -/
theorem Plane.Sizes.put (rank : Nat) (odsc : ObjDesc) (gdim : GlobalDimension) (data : Buf) :
    (p.put ssd rank odsc gdim data).Sizes maxVersions := by
  refine ⟨fun r => ?_, fun r => ?_, fun r => ?_⟩
  · simp only [Plane.put, Function.update_apply]
    split
    · exact h.ls rank
    · exact h.ls r
  all_goals simp only [Plane.put]; split
  · rw [Function.update_apply]
    split
    · rw [DhtTable.odscSize_store, h.tab]
    · exact h.tab r
  · exact h.tab r
  · rw [Function.update_apply]
    split
    · exact (h.nodes rank).store _
    · exact h.nodes r
  · exact h.nodes r

theorem Plane.Sizes.deliver {k : Nat} (hstep : p.deliver k = some p') : p'.Sizes maxVersions := by
  obtain ⟨msg, -, rfl⟩ := Option.map_eq_some_iff.1 hstep
  refine ⟨h.ls, fun r => ?_, fun r => ?_⟩
  all_goals simp only [Function.update_apply]; split
  · rw [DhtTable.odscSize_store, h.tab]
  · exact h.tab r
  · exact (h.nodes msg.dest).store _
  · exact h.nodes r

/-- A put of something else. -/
theorem Plane.Sizes.put_foreign (rank : Nat) (odsc : ObjDesc) (gdim : GlobalDimension) (data : Buf)
    (hother : ¬ (odsc.name = qOdsc.name ∧ odsc.bin maxVersions = qOdsc.bin maxVersions))
    (hnodup : (ssdHashV2Loop ssd odsc.bb).Nodup) (r : Nat) :
    (p.put ssd rank odsc gdim data).objects qOdsc maxVersions r = p.objects qOdsc maxVersions r ∧
      (p.put ssd rank odsc gdim data).descs qOdsc maxVersions r = p.descs qOdsc maxVersions r ∧
      (p.put ssd rank odsc gdim data).onWay qOdsc maxVersions r = p.onWay qOdsc maxVersions r := by
  have hls : ¬ ((odsc.ownedBy rank).name = qOdsc.name ∧
      (p.ls rank).index (odsc.ownedBy rank) = qOdsc.bin maxVersions) := by
    rw [SsStorage.index, h.ls]
    exact hother
  have htab : ¬ ((odsc.ownedBy rank).name = qOdsc.name ∧
      (p.tab rank).index (odsc.ownedBy rank) = qOdsc.bin maxVersions) := by
    rw [DhtTable.index, h.tab]
    exact hother
  -- what is stored, what the tables say and what is on its way, each by name and bin
  refine ⟨?_, ?_, ?_⟩
  · simp only [Plane.objects, Plane.put, Function.update_apply]
    split
    · next hr => rw [hr, SsStorage.named_lsAddObj_foreign hls]
    · rfl
  · simp only [Plane.descs, Plane.put]
    split
    · rw [Function.update_apply]
      split
      · next hr => rw [hr, (h.nodes rank).named_store_foreign htab]
      · rfl
    · rfl
  · have hmiss : [odsc.ownedBy rank].filter (fun odsc => odsc.name = qOdsc.name ∧
        odsc.version.toNat % maxVersions = qOdsc.bin maxVersions) = [] :=
      List.filter_cons_of_neg fun hhits => hother (of_decide_eq_true hhits)
    rw [Plane.onWay, Plane.put, Spread.pendingTo_append, Spread.pendingTo_copies hnodup, hmiss, ite_self,
      List.append_nil, Plane.onWay]

end Change

namespace Hosted

/-- A put of something else does not matter. -/
theorem putOther (h : Hosted m qOdsc maxVersions p) (rank : Nat) (odsc : ObjDesc) (gdim : GlobalDimension)
    (data : Buf) (hother : ¬ (odsc.name = qOdsc.name ∧ odsc.bin maxVersions = qOdsc.bin maxVersions))
    (hnodup : (ssdHashV2Loop ssd odsc.bb).Nodup) :
    Hosted m qOdsc maxVersions (p.put ssd rank odsc gdim data) ∧
      p.Keeps qOdsc maxVersions (p.put ssd rank odsc gdim data) := by
  have hsame := fun r => h.sizes.put_foreign rank odsc gdim data hother hnodup r
  refine ⟨⟨h.sizes.put rank odsc gdim data, fun r => ?_, fun r => ?_, fun r => ?_, fun r => ?_⟩, fun r => ?_,
    fun r => ?_⟩
  all_goals simp only [hsame]
  · exact h.oneObject r
  · exact h.oneDesc r
  · exact h.stored r
  · exact h.placed r
  · exact id
  · exact id

section Same

variable (hversion : qOdsc.version ≠ 0xffffffff) (hbox : (m.box qOdsc.bb).Valid)

include hversion hbox

/-- A server keeps the array. -/
theorem putSame (h : Hosted m qOdsc maxVersions p) {rank : Nat} {odsc : ObjDesc} {gdim : GlobalDimension}
    {data : Buf} (hod : m.Object qOdsc ⟨odsc.ownedBy rank, gdim, data⟩)
    (hnodup : (ssdHashV2Loop ssd odsc.bb).Nodup) :
    Hosted m qOdsc maxVersions (p.put ssd rank odsc gdim data) ∧
      p.Keeps qOdsc maxVersions (p.put ssd rank odsc gdim data) ∧
      (rank ∈ ssdHashV2Loop ssd odsc.bb → (p.put ssd rank odsc gdim data).descs qOdsc maxVersions rank ≠ []) := by
  have hpiece := hod.piece
  have hindex : (odsc.ownedBy rank).version.toNat % maxVersions = qOdsc.bin maxVersions :=
    congrArg (fun v : UInt32 => v.toNat % maxVersions) hpiece.version
  have hlsIndex : (p.ls rank).index (odsc.ownedBy rank) = qOdsc.bin maxVersions := by
    rw [SsStorage.index, h.sizes.ls, hindex]
  have htabIndex : (p.tab rank).index (odsc.ownedBy rank) = qOdsc.bin maxVersions := by
    rw [DhtTable.index, h.sizes.tab, hindex]
  have hobjects : ∀ r, (p.put ssd rank odsc gdim data).objects qOdsc maxVersions r =
      if r = rank then [⟨odsc.ownedBy rank, gdim, data⟩] else p.objects qOdsc maxVersions r := by
    intro r
    simp only [Plane.objects, Plane.put, Function.update_apply]
    split
    · exact SsStorage.named_lsAddObj_meets hlsIndex hpiece.name (h.oneObject rank) fun old hold =>
        hpiece.meets hbox (h.stored rank old hold).piece
    · rfl
  have hdescs : ∀ r, (p.put ssd rank odsc gdim data).descs qOdsc maxVersions r =
      if r = rank ∧ rank ∈ askedRanks rank (ssdHashV2Loop ssd odsc.bb) then [odsc.ownedBy rank]
      else p.descs qOdsc maxVersions r := by
    intro r
    simp only [Plane.descs, Plane.put]
    by_cases hasked : rank ∈ askedRanks rank (ssdHashV2Loop ssd odsc.bb)
    · rw [if_pos hasked, Function.update_apply]
      by_cases hr : r = rank
      · rw [if_pos hr, if_pos ⟨hr, hasked⟩]
        exact (h.sizes.nodes rank).named_store_meets htabIndex hpiece.name (hpiece.version ▸ hversion)
          (h.oneDesc rank) fun old hold =>
            hpiece.meets hbox (h.placed rank old (List.mem_append_left _ hold)).1
      · rw [if_neg hr, if_neg fun hand => hr hand.1]
    · rw [if_neg hasked, if_neg fun hand => hasked hand.2]
  have honWay : ∀ r, (p.put ssd rank odsc gdim data).onWay qOdsc maxVersions r =
      p.onWay qOdsc maxVersions r ++
        if r ∈ ssdHashV2Loop ssd odsc.bb ∧ r ≠ rank then [odsc.ownedBy rank] else [] := by
    intro r
    have hhits : [odsc.ownedBy rank].filter (fun odsc => odsc.name = qOdsc.name ∧
        odsc.version.toNat % maxVersions = qOdsc.bin maxVersions) = [odsc.ownedBy rank] :=
      List.filter_cons_of_pos (decide_eq_true ⟨hpiece.name, hindex⟩)
    rw [Plane.onWay, Plane.put, Spread.pendingTo_append, Spread.pendingTo_copies hnodup, hhits, Plane.onWay]
  -- the server of a descriptor still has an object
  have hkeeps : p.Keeps qOdsc maxVersions (p.put ssd rank odsc gdim data) := by
    refine ⟨fun r hr => ?_, fun r hr => ?_⟩
    · rw [hobjects]
      split
      · exact List.cons_ne_nil _ _
      · exact hr
    · rw [hdescs]
      split
      · exact List.cons_ne_nil _ _
      · exact hr
  have hnew : m.Piece qOdsc (odsc.ownedBy rank) ∧ ∃ owner, (odsc.ownedBy rank).owner = .server owner ∧
      (p.put ssd rank odsc gdim data).objects qOdsc maxVersions owner ≠ [] := by
    refine ⟨hpiece, rank, rfl, ?_⟩
    rw [hobjects, if_pos rfl]
    exact List.cons_ne_nil _ _
  refine ⟨⟨h.sizes.put rank odsc gdim data, fun r => ?_, fun r => ?_, fun r od hmem => ?_,
    fun r o hmem => ?_⟩, hkeeps, fun hmem => ?_⟩
  · rw [hobjects]
    split
    · exact le_rfl
    · exact h.oneObject r
  · rw [hdescs]
    split
    · exact le_rfl
    · exact h.oneDesc r
  · rw [hobjects] at hmem
    split at hmem
    · rw [List.mem_singleton.1 hmem]
      exact hod
    · exact h.stored r od hmem
  · have hcases : o = odsc.ownedBy rank ∨ o ∈ p.descs qOdsc maxVersions r ++ p.onWay qOdsc maxVersions r := by
      rw [hdescs, honWay] at hmem
      grind
    rcases hcases with rfl | hold
    · exact hnew
    · obtain ⟨hp, owner, howner, hne⟩ := h.placed r o hold
      exact ⟨hp, owner, howner, hkeeps.objects owner hne⟩
  · have hasked : rank ∈ askedRanks rank (ssdHashV2Loop ssd odsc.bb) := by
      rw [askedRanks, if_neg (by simpa using List.ne_nil_of_mem hmem)]
      exact hmem
    rw [hdescs, if_pos ⟨rfl, hasked⟩]
    exact List.cons_ne_nil _ _

/-- The arrival of an update. -/
theorem deliver (h : Hosted m qOdsc maxVersions p) {k : Nat} (hstep : p.deliver k = some p') :
    Hosted m qOdsc maxVersions p' ∧ p.Keeps qOdsc maxVersions p' := by
  have hsizes := h.sizes.deliver hstep
  obtain ⟨msg, hmsg, rfl⟩ := Option.map_eq_some_iff.1 hstep
  have honWay : ∀ r, ∀ o ∈ pendingTo (p.net.eraseIdx k) qOdsc.name (qOdsc.bin maxVersions) maxVersions r,
      o ∈ p.onWay qOdsc maxVersions r := fun r =>
    ((((List.eraseIdx_sublist p.net k).filter _).map _).filter _).subset
  have hindex : (p.tab msg.dest).index msg.odsc = msg.odsc.bin maxVersions := by
    rw [DhtTable.index, h.sizes.tab, ObjDesc.bin]
  by_cases hhits : msg.odsc.name = qOdsc.name ∧ msg.odsc.bin maxVersions = qOdsc.bin maxVersions
  · -- the descriptor takes the place of the one in the table
    have hway : msg.odsc ∈ p.onWay qOdsc maxVersions msg.dest := by
      refine List.mem_filter.2 ⟨List.mem_map_of_mem (List.mem_filter.2 ⟨List.mem_of_getElem? hmsg, ?_⟩), ?_⟩
      · exact decide_eq_true rfl
      · exact decide_eq_true hhits
    have hmoved := h.placed msg.dest msg.odsc (List.mem_append_right _ hway)
    have hstore := (h.sizes.nodes msg.dest).named_store_meets (hindex.trans hhits.2) hhits.1
      (hmoved.1.version ▸ hversion) (h.oneDesc msg.dest) fun old hold =>
        hmoved.1.meets hbox (h.placed msg.dest old (List.mem_append_left _ hold)).1
    have hdescs : ∀ r, Plane.descs ⟨p.ls, Function.update p.tab msg.dest ((p.tab msg.dest).store msg.odsc),
        p.net.eraseIdx k⟩ qOdsc maxVersions r =
          if r = msg.dest then [msg.odsc] else p.descs qOdsc maxVersions r := by
      intro r
      simp only [Plane.descs, Function.update_apply]
      split
      · exact hstore
      · rfl
    refine ⟨⟨hsizes, h.oneObject, fun r => ?_, h.stored, fun r o hmem => ?_⟩, fun _ hr => hr, fun r hr => ?_⟩
    · rw [hdescs]
      split
      · exact le_rfl
      · exact h.oneDesc r
    · rcases List.mem_append.1 hmem with hold | hold
      · rw [hdescs] at hold
        split at hold
        · rw [List.mem_singleton.1 hold]
          exact hmoved
        · exact h.placed r o (List.mem_append_left _ hold)
      · exact h.placed r o (List.mem_append_right _ (honWay r o hold))
    · rw [hdescs]
      split
      · exact List.cons_ne_nil _ _
      · exact hr
  · have hdescs : ∀ r, Plane.descs ⟨p.ls, Function.update p.tab msg.dest ((p.tab msg.dest).store msg.odsc),
        p.net.eraseIdx k⟩ qOdsc maxVersions r = p.descs qOdsc maxVersions r := by
      intro r
      simp only [Plane.descs, Function.update_apply]
      split
      · next hr => rw [hr, (h.sizes.nodes msg.dest).named_store_foreign (hindex ▸ hhits)]
      · rfl
    refine ⟨⟨hsizes, h.oneObject, fun r => ?_, h.stored, fun r o hmem => ?_⟩, fun _ hr => hr, fun r hr => ?_⟩
    · rw [hdescs]
      exact h.oneDesc r
    · rcases List.mem_append.1 hmem with hold | hold
      · rw [hdescs] at hold
        exact h.placed r o (List.mem_append_left _ hold)
      · exact h.placed r o (List.mem_append_right _ (honWay r o hold))
    · rw [hdescs]
      exact hr

end Same

end Hosted

end Hosted

end DataSpaces
