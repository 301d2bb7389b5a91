import DataSpaces.Plane

/-!
# Spread — where the descriptors of one variable are

The puts of one name and version, with disjoint boxes, are followed through a run of a plane.  An object
stays at the server that received it; its descriptor is, for every server that the box hashes to, either
in the table of that server or on its way to it, and it is there once (`Spread`).  Puts under other names,
or of versions in other bins, do not interfere.
-/

namespace DataSpaces

/-! ## One name in one bin -/

/-- The objects of a name in a bin of a storage. -/
def SsStorage.named (ls : SsStorage) (n : Nat) (nm : CStr) : List ObjData :=
  (ls.objHash n).filter fun od => od.objDesc.name = nm

/-- The descriptors of a name in a bin of a table. -/
def DhtTable.named (de : DhtTable) (n : Nat) (nm : CStr) : List ObjDesc :=
  ((de.odscHash n).map Slot.odsc).filter fun odsc => odsc.name = nm

/-- A map that only changes elements outside of a selection leaves the selection alone. -/
theorem filter_map_of_kept {α β : Type} {f : α → α} {g : α → β} {sel : β → Bool} {l : List α}
    (h : ∀ a ∈ l, f a = a ∨ sel (g (f a)) = false ∧ sel (g a) = false) :
    ((l.map f).map g).filter sel = (l.map g).filter sel := by
  induction l with
  | nil => rfl
  | cons a l ih =>
      have htail := ih fun b hb => h b (List.mem_cons_of_mem a hb)
      simp only [List.map_cons]
      rcases h a (by simp) with hsame | ⟨hnew, hold⟩
      · rw [hsame, List.filter_cons, List.filter_cons, htail]
      · rw [List.filter_cons_of_neg (by simp [hnew]), List.filter_cons_of_neg (by simp [hold]), htail]

section Named

variable {ls : SsStorage} {de : DhtTable} {n : Nat} {nm : CStr}

theorem SsStorage.mem_named {od : ObjData} :
    od ∈ ls.named n nm ↔ od ∈ ls.objHash n ∧ od.objDesc.name = nm := by
  simp [SsStorage.named]

theorem DhtTable.mem_named {odsc : ObjDesc} :
    odsc ∈ de.named n nm ↔ (∃ s ∈ de.odscHash n, s.odsc = odsc) ∧ odsc.name = nm := by
  simp [DhtTable.named]

/-- An object that meets no stored one of its name only joins the bin. -/
theorem SsStorage.named_lsAddObj_apart {od : ObjData} (hn : ls.index od.objDesc = n)
    (hname : od.objDesc.name = nm)
    (hapart : ∀ old ∈ ls.named n nm, bboxDoesIntersect od.objDesc.bb old.objDesc.bb = false) :
    (ls.lsAddObj od).named n nm = od :: ls.named n nm := by
  have hnone : ∀ old ∈ ls.objHash n, ¬ objDescByNameIntersect od.objDesc old.objDesc = true := by
    intro old hold hmatch
    rcases objDescByNameIntersect_iff.1 hmatch with ⟨hsame, hmeet⟩
    rw [hapart old (SsStorage.mem_named.2 ⟨hold, hsame.symm.trans hname⟩)] at hmeet
    cases hmeet
  rw [SsStorage.named, SsStorage.objHash_lsAddObj, if_pos hn.symm, List.eraseP_of_forall_not hnone,
    List.filter_cons_of_pos (by simpa using hname)]
  rfl

/-- Objects of other names or of versions in other bins do not interfere. -/
theorem SsStorage.named_lsAddObj_foreign {od : ObjData}
    (h : ¬ (od.objDesc.name = nm ∧ ls.index od.objDesc = n)) :
    (ls.lsAddObj od).named n nm = ls.named n nm := by
  rw [SsStorage.named, SsStorage.objHash_lsAddObj]
  split
  · next hn =>
      have hname : od.objDesc.name ≠ nm := fun hname => h ⟨hname, hn.symm⟩
      rw [List.filter_cons_of_neg (by simpa using hname)]
      -- what is evicted has the name of the new object
      rcases List.exists_or_eq_self_of_eraseP (fun old => objDescByNameIntersect od.objDesc old.objDesc)
        (ls.objHash n) with hself | ⟨old, l₁, l₂, -, hmatch, hsplit, herase⟩
      · rw [hself]
        rfl
      · have hold : old.objDesc.name ≠ nm :=
          fun heq => hname ((objDescByNameIntersect_iff.1 hmatch).1.trans heq)
        rw [herase, SsStorage.named, hsplit, List.filter_append, List.filter_append,
          List.filter_cons_of_neg (by simpa using hold)]
  · rfl

/-- A descriptor that meets none of its name in the table gets a node of its own. -/
theorem DhtTable.named_store_apart {odsc : ObjDesc} (hn : de.index odsc = n) (hname : odsc.name = nm)
    (hapart : ∀ old ∈ de.named n nm, bboxDoesIntersect odsc.bb old.bb = false) :
    (de.store odsc).named n nm = odsc :: de.named n nm := by
  have hnone : de.dhtFindMatch odsc = none := by
    rw [DhtTable.dhtFindMatch]
    split
    · rfl
    · refine List.find?_eq_none.2 fun s hs hmatch => ?_
      rcases objDescByNameIntersect_iff.1 hmatch with ⟨hsame, hmeet⟩
      rw [hapart s.odsc (DhtTable.mem_named.2 ⟨⟨s, hn ▸ hs, rfl⟩, hsame.symm.trans hname⟩)] at hmeet
      cases hmeet
  rw [DhtTable.named, DhtTable.odscHash_store_of_new hnone, if_pos hn.symm, List.map_cons,
    List.filter_cons_of_pos (by simpa using hname)]
  rfl

theorem DhtTable.Ok.named_store_foreign (hok : de.Ok) {odsc : ObjDesc}
    (h : ¬ (odsc.name = nm ∧ de.index odsc = n)) : (de.store odsc).named n nm = de.named n nm := by
  cases hfind : de.dhtFindMatch odsc with
  | none =>
      rw [DhtTable.named, DhtTable.odscHash_store_of_new hfind]
      split
      · next hn =>
          have hname : odsc.name ≠ nm := fun hname => h ⟨hname, hn.symm⟩
          rw [List.map_cons, List.filter_cons_of_neg (by simpa using hname)]
          rfl
      · rfl
  | some odscl =>
      rcases DhtTable.dhtFindMatch_some hfind with ⟨hmem, hmatch⟩
      rw [DhtTable.named, DhtTable.odscHash_store_of_match hfind]
      split
      · next hn =>
          have hname : odsc.name ≠ nm := fun hname => h ⟨hname, hn.symm⟩
          have hold : odscl.odsc.name ≠ nm :=
            fun heq => hname ((objDescByNameIntersect_iff.1 hmatch).1.trans heq)
          -- the node that is overwritten had another name too
          refine filter_map_of_kept fun s hs => ?_
          by_cases hid : s.id = odscl.id
          · have hseq : s = odscl := hok.eq_of_id (hn ▸ hs) hmem hid
            exact Or.inr (by simp [hseq, hname, hold])
          · exact Or.inl (if_neg hid)
      · rfl

end Named

/-! ## The puts of one variable -/

/-- The objects that a run puts under a name and version. -/
def putsOf (nm : CStr) (ver : UInt32) : List GroupEvent → List ObjData
  | [] => []
  | .put rank odsc gdim data :: evs =>
      if odsc.name = nm ∧ odsc.version = ver then
        ⟨odsc.ownedBy rank, gdim, data⟩ :: putsOf nm ver evs
      else putsOf nm ver evs
  | .deliver _ :: evs => putsOf nm ver evs
  | .query _ _ _ :: evs => putsOf nm ver evs

/-- Puts under the name have the version or one in another bin. -/
def GroupEvent.Apart (nm : CStr) (ver : UInt32) (maxVersions : Nat) : GroupEvent → Prop
  | .put _ odsc _ _ => odsc.name = nm →
      odsc.version.toNat % maxVersions = ver.toNat % maxVersions → odsc.version = ver
  | .deliver _ => True
  | .query _ _ _ => True

/-- The boxes are inside the domain and disjoint. -/
structure VarPuts (ssd : SSpace) (ods : List ObjData) : Prop where
  inDomain : ∀ od ∈ ods, ssd.InDomain od.objDesc.bb
  disjoint : ods.Pairwise fun od od' => Disjoint od.objDesc.bb.cells od'.objDesc.bb.cells

theorem VarPuts.left {ssd : SSpace} {ods ods' : List ObjData} (h : VarPuts ssd (ods ++ ods')) :
    VarPuts ssd ods where
  inDomain od hod := h.inDomain od (List.mem_append_left _ hod)
  disjoint := (List.pairwise_append.1 h.disjoint).1

theorem bboxDoesIntersect_of_disjoint {ssd : SSpace} {b0 b1 : BBox} (h0 : ssd.InDomain b0)
    (h1 : ssd.InDomain b1) (h : Disjoint b0.cells b1.cells) : bboxDoesIntersect b0 b1 = false := by
  by_contra hmeet
  rw [Bool.not_eq_false, bboxDoesIntersect_iff h0.valid h1.valid (h0.dims.trans h1.dims.symm)] at hmeet
  rw [Finset.disjoint_iff_inter_eq_empty.1 h] at hmeet
  exact Finset.not_nonempty_empty hmeet

/-- The descriptors under the name and for the bin that are on their way to a server. -/
def pendingTo (net : List UpdateMsg) (nm : CStr) (n maxVersions rank : Nat) : List ObjDesc :=
  ((net.filter fun msg => msg.dest = rank).map UpdateMsg.odsc).filter fun odsc =>
    odsc.name = nm ∧ odsc.version.toNat % maxVersions = n

/-- The puts `done` of a variable are where they should be: the objects at the servers that received
them, the descriptors at, or on their way to, the servers that the boxes hash to. -/
structure Spread (ssd : SSpace) (nm : CStr) (ver : UInt32) (maxVersions : Nat) (done : List ObjData)
    (p : Plane) : Prop where
  lsSize : ∀ r, (p.ls r).sizeHash = maxVersions
  tabSize : ∀ r, (p.tab r).odscSize = maxVersions
  nodes : ∀ r, (p.tab r).Ok
  stored : ∀ r, ((p.ls r).named (ver.toNat % maxVersions) nm).Perm
    (done.filter fun od => od.objDesc.owner = .server r)
  placed : ∀ r, ((p.tab r).named (ver.toNat % maxVersions) nm ++
    pendingTo p.net nm (ver.toNat % maxVersions) maxVersions r).Perm
      ((done.map ObjData.objDesc).filter fun odsc => r ∈ ssdHashV2Loop ssd odsc.bb)

section Spread

variable {ssd : SSpace} {nm : CStr} {ver : UInt32} {conf : Conf} {done : List ObjData} {p p' : Plane}

theorem Spread.init (hversions : 0 < conf.maxVersions) :
    Spread ssd nm ver conf.maxVersions [] (Plane.init conf) where
  lsSize _ := rfl
  tabSize _ := rfl
  nodes _ := DhtTable.ok_dhtEntryAlloc hversions
  stored _ := List.Perm.nil
  placed _ := List.Perm.nil

namespace Spread

variable {maxVersions : Nat}

theorem mem_stored (h : Spread ssd nm ver maxVersions done p) {r : Nat} {od : ObjData} :
    od ∈ (p.ls r).named (ver.toNat % maxVersions) nm ↔ od ∈ done ∧ od.objDesc.owner = .server r := by
  rw [(h.stored r).mem_iff]
  simp

/-- Everything in a table or on its way under the name is one of the puts. -/
theorem mem_placed (h : Spread ssd nm ver maxVersions done p) {r : Nat} {odsc : ObjDesc}
    (hodsc : odsc ∈ (p.tab r).named (ver.toNat % maxVersions) nm ++
      pendingTo p.net nm (ver.toNat % maxVersions) maxVersions r) : ∃ od ∈ done, od.objDesc = odsc := by
  have hmem := (h.placed r).mem_iff.1 hodsc
  simpa using (List.mem_filter.1 hmem).1

/-- A box apart from all puts meets no descriptor in a table. -/
theorem apart_named (h : Spread ssd nm ver maxVersions done p) {od : ObjData}
    (hputs : VarPuts ssd (done ++ [od])) (r : Nat) :
    ∀ old ∈ (p.tab r).named (ver.toNat % maxVersions) nm,
      bboxDoesIntersect od.objDesc.bb old.bb = false := by
  intro old hold
  rcases h.mem_placed (List.mem_append_left _ hold) with ⟨od', hod', rfl⟩
  refine bboxDoesIntersect_of_disjoint (hputs.inDomain od (by simp)) (hputs.inDomain od' (by simp [hod']))
    (Disjoint.symm ?_)
  exact (List.pairwise_append.1 hputs.disjoint).2.2 od' hod' od (by simp)

/-- One of the copies of a descriptor that are sent to distinct servers is for a given server, unless it
is the sender. -/
theorem pendingTo_copies {ranks : List Nat} (hnodup : ranks.Nodup) (rank r n : Nat) (odsc : ObjDesc)
    (gdim : GlobalDimension) :
    pendingTo ((ranks.filter fun dest => dest ≠ rank).map fun dest => ⟨dest, odsc, gdim⟩) nm n
        maxVersions r =
      if r ∈ ranks ∧ r ≠ rank then
        [odsc].filter fun odsc => odsc.name = nm ∧ odsc.version.toNat % maxVersions = n
      else [] := by
  -- each rank is a target once
  have hone : (ranks.filter fun dest => dest ≠ rank).filter (fun dest => dest = r) =
      if r ∈ ranks ∧ r ≠ rank then [r] else [] := by
    rw [List.filter_eq, List.Nodup.count (hnodup.filter _)]
    by_cases hr : r ∈ ranks ∧ r ≠ rank
    · rw [if_pos hr, if_pos (List.mem_filter.2 ⟨hr.1, by simpa using hr.2⟩)]
      rfl
    · rw [if_neg hr, if_neg fun hmem => hr ⟨(List.mem_filter.1 hmem).1, by
        simpa using (List.mem_filter.1 hmem).2⟩]
      rfl
  have hdest : ((fun msg : UpdateMsg => decide (msg.dest = r)) ∘
      fun dest => (⟨dest, odsc, gdim⟩ : UpdateMsg)) = fun dest => decide (dest = r) := rfl
  have hto : ((ranks.filter fun dest => dest ≠ rank).map fun dest =>
      (⟨dest, odsc, gdim⟩ : UpdateMsg)).filter (fun msg => msg.dest = r) =
        (if r ∈ ranks ∧ r ≠ rank then [r] else []).map fun dest => ⟨dest, odsc, gdim⟩ := by
    rw [List.filter_map, hdest, hone]
  rw [pendingTo, hto]
  split <;> rfl

theorem pendingTo_append (net msgs : List UpdateMsg) (n r : Nat) :
    pendingTo (net ++ msgs) nm n maxVersions r =
      pendingTo net nm n maxVersions r ++ pendingTo msgs nm n maxVersions r := by
  simp only [pendingTo, List.filter_append, List.map_append]

/-- Sizes and nodes stay in order when a server adds an object and stores a descriptor. -/
theorem sizes_put (h : Spread ssd nm ver maxVersions done p) (rank : Nat) (odsc : ObjDesc)
    (gdim : GlobalDimension) (data : Buf) (r : Nat) :
    ((p.put ssd rank odsc gdim data).ls r).sizeHash = maxVersions ∧
      ((p.put ssd rank odsc gdim data).tab r).odscSize = maxVersions ∧
      ((p.put ssd rank odsc gdim data).tab r).Ok := by
  refine ⟨?_, ?_, ?_⟩
  · simp only [Plane.put, Function.update_apply]
    split
    · exact h.lsSize rank
    · exact h.lsSize r
  · simp only [Plane.put]
    split
    · rw [Function.update_apply]
      split
      · rw [DhtTable.odscSize_store, h.tabSize]
      · exact h.tabSize r
    · exact h.tabSize r
  · simp only [Plane.put]
    split
    · rw [Function.update_apply]
      split
      · exact (h.nodes rank).store _
      · exact h.nodes r
    · exact h.nodes r

/-- A put of the variable. -/
theorem putSame (h : Spread ssd nm ver maxVersions done p) {rank : Nat} {odsc : ObjDesc}
    {gdim : GlobalDimension} {data : Buf} (hname : odsc.name = nm) (hver : odsc.version = ver)
    (hputs : VarPuts ssd (done ++ [⟨odsc.ownedBy rank, gdim, data⟩]))
    (hnodup : (ssdHashV2Loop ssd odsc.bb).Nodup) (hsel : ssdHashV2Loop ssd odsc.bb ≠ []) :
    Spread ssd nm ver maxVersions (done ++ [⟨odsc.ownedBy rank, gdim, data⟩])
      (p.put ssd rank odsc gdim data) := by
  have hasked : askedRanks rank (ssdHashV2Loop ssd odsc.bb) = ssdHashV2Loop ssd odsc.bb := by
    rw [askedRanks, if_neg (by simpa using hsel)]
  have hlsIndex : ∀ r, (p.ls r).index (odsc.ownedBy rank) = ver.toNat % maxVersions := fun r => by
    rw [SsStorage.index, h.lsSize]
    exact congrArg (fun v : UInt32 => v.toNat % maxVersions) hver
  have htabIndex : ∀ r, (p.tab r).index (odsc.ownedBy rank) = ver.toNat % maxVersions := fun r => by
    rw [DhtTable.index, h.tabSize]
    exact congrArg (fun v : UInt32 => v.toNat % maxVersions) hver
  refine ⟨fun r => (h.sizes_put rank odsc gdim data r).1, fun r => (h.sizes_put rank odsc gdim data r).2.1,
    fun r => (h.sizes_put rank odsc gdim data r).2.2, fun r => ?_, fun r => ?_⟩
  · -- the object goes to the server of the put
    rw [List.filter_append]
    simp only [Plane.put]
    by_cases hr : r = rank
    · subst hr
      have hapart : ∀ old ∈ (p.ls r).named (ver.toNat % maxVersions) nm,
          bboxDoesIntersect odsc.bb old.objDesc.bb = false := by
        intro old hold
        have hdone := (h.mem_stored.1 hold).1
        refine bboxDoesIntersect_of_disjoint
          (hputs.inDomain ⟨odsc.ownedBy r, gdim, data⟩ (by simp)) (hputs.inDomain old (by simp [hdone]))
          (Disjoint.symm ?_)
        exact (List.pairwise_append.1 hputs.disjoint).2.2 old hdone ⟨odsc.ownedBy r, gdim, data⟩ (by simp)
      rw [Function.update_self, SsStorage.named_lsAddObj_apart (hlsIndex r) hname hapart,
        List.filter_cons_of_pos (by simp [ObjDesc.ownedBy])]
      exact ((h.stored r).cons _).trans (List.perm_append_singleton _ _).symm
    · have hother : ¬ (Owner.server rank = Owner.server r) := fun heq => hr (Owner.server.inj heq).symm
      rw [Function.update_of_ne hr, List.filter_cons_of_neg (by simpa [ObjDesc.ownedBy] using hother)]
      simpa using h.stored r
  · have hnet : pendingTo (p.put ssd rank odsc gdim data).net nm (ver.toNat % maxVersions) maxVersions r =
        pendingTo p.net nm (ver.toNat % maxVersions) maxVersions r ++
          if r ∈ ssdHashV2Loop ssd odsc.bb ∧ r ≠ rank then [odsc.ownedBy rank] else [] := by
      have hhits : [odsc.ownedBy rank].filter (fun odsc => odsc.name = nm ∧
          odsc.version.toNat % maxVersions = ver.toNat % maxVersions) = [odsc.ownedBy rank] := by
        simp [ObjDesc.ownedBy, hname, hver]
      rw [Plane.put, pendingTo_append, pendingTo_copies hnodup, hhits]
    have hnew : ([(⟨odsc.ownedBy rank, gdim, data⟩ : ObjData)].map ObjData.objDesc).filter
        (fun o => r ∈ ssdHashV2Loop ssd o.bb) =
          if r ∈ ssdHashV2Loop ssd odsc.bb then [odsc.ownedBy rank] else [] := by
      by_cases hr : r ∈ ssdHashV2Loop ssd odsc.bb
      · simp [ObjDesc.ownedBy, hr]
      · simp [ObjDesc.ownedBy, hr]
    have htab : ((p.put ssd rank odsc gdim data).tab r).named (ver.toNat % maxVersions) nm =
        (if r ∈ ssdHashV2Loop ssd odsc.bb ∧ r = rank then [odsc.ownedBy rank] else []) ++
          (p.tab r).named (ver.toNat % maxVersions) nm := by
      simp only [Plane.put, hasked]
      by_cases hr : r = rank
      · subst hr
        by_cases hmem : r ∈ ssdHashV2Loop ssd odsc.bb
        · have hapart := h.apart_named hputs r
          rw [if_pos hmem, if_pos ⟨hmem, rfl⟩, Function.update_self,
            DhtTable.named_store_apart (htabIndex r) hname hapart]
          rfl
        · rw [if_neg hmem, if_neg fun hand => hmem hand.1]
          rfl
      · have hnot : ¬ (r ∈ ssdHashV2Loop ssd odsc.bb ∧ r = rank) := fun hand => hr hand.2
        rw [if_neg hnot, List.nil_append]
        split
        · rw [Function.update_of_ne hr]
        · rfl
    rw [hnet, htab, List.map_append, List.filter_append, hnew]
    -- the new descriptor is in the table, on its way, or not for this server
    have hold := h.placed r
    by_cases hmem : r ∈ ssdHashV2Loop ssd odsc.bb
    · by_cases hr : r = rank
      · rw [if_pos ⟨hmem, hr⟩, if_neg fun hand => hand.2 hr, if_pos hmem, List.append_nil]
        exact (hold.cons _).trans (List.perm_append_singleton _ _).symm
      · rw [if_neg fun hand => hr hand.2, if_pos ⟨hmem, hr⟩, if_pos hmem, List.nil_append,
          ← List.append_assoc]
        exact hold.append_right _
    · rw [if_neg fun hand => hmem hand.1, if_neg fun hand => hmem hand.1, if_neg hmem, List.nil_append,
        List.append_nil, List.append_nil]
      exact hold

/-- A put under another name or of a version in another bin. -/
theorem putOther (h : Spread ssd nm ver maxVersions done p) {rank : Nat} {odsc : ObjDesc}
    {gdim : GlobalDimension} {data : Buf}
    (hother : ¬ (odsc.name = nm ∧ odsc.version.toNat % maxVersions = ver.toNat % maxVersions))
    (hnodup : (ssdHashV2Loop ssd odsc.bb).Nodup) :
    Spread ssd nm ver maxVersions done (p.put ssd rank odsc gdim data) := by
  -- neither its object nor its descriptor comes into the bin under the name
  have hls : ¬ ((odsc.ownedBy rank).name = nm ∧
      (p.ls rank).index (odsc.ownedBy rank) = ver.toNat % maxVersions) := by
    rw [SsStorage.index, h.lsSize]
    exact hother
  have htab : ¬ ((odsc.ownedBy rank).name = nm ∧
      (p.tab rank).index (odsc.ownedBy rank) = ver.toNat % maxVersions) := by
    rw [DhtTable.index, h.tabSize]
    exact hother
  refine ⟨fun r => (h.sizes_put rank odsc gdim data r).1, fun r => (h.sizes_put rank odsc gdim data r).2.1,
    fun r => (h.sizes_put rank odsc gdim data r).2.2, fun r => ?_, fun r => ?_⟩
  · simp only [Plane.put, Function.update_apply]
    split
    · next hr =>
        rw [hr, SsStorage.named_lsAddObj_foreign hls]
        exact h.stored rank
    · exact h.stored r
  · have hnet : pendingTo (p.put ssd rank odsc gdim data).net nm (ver.toNat % maxVersions) maxVersions r =
        pendingTo p.net nm (ver.toNat % maxVersions) maxVersions r := by
      have hmiss : [odsc.ownedBy rank].filter (fun odsc => odsc.name = nm ∧
          odsc.version.toNat % maxVersions = ver.toNat % maxVersions) = [] := by
        simpa [ObjDesc.ownedBy] using hother
      rw [Plane.put, pendingTo_append, pendingTo_copies hnodup, hmiss, ite_self, List.append_nil]
    have hnamed : ((p.put ssd rank odsc gdim data).tab r).named (ver.toNat % maxVersions) nm =
        (p.tab r).named (ver.toNat % maxVersions) nm := by
      simp only [Plane.put]
      split
      · rw [Function.update_apply]
        split
        · next hr => rw [hr, (h.nodes rank).named_store_foreign htab]
        · rfl
      · rfl
    rw [hnet, hnamed]
    exact h.placed r

theorem pendingTo_cons (msg : UpdateMsg) (net : List UpdateMsg) (n r : Nat) :
    pendingTo (msg :: net) nm n maxVersions r =
      (if msg.dest = r ∧ msg.odsc.name = nm ∧ msg.odsc.version.toNat % maxVersions = n then [msg.odsc]
        else []) ++ pendingTo net nm n maxVersions r := by
  by_cases hdest : msg.dest = r
  · by_cases hhits : msg.odsc.name = nm ∧ msg.odsc.version.toNat % maxVersions = n
    · simp [pendingTo, hdest, hhits]
    · simp [pendingTo, hdest, hhits]
  · simp [pendingTo, hdest]

/-- The descriptors that are placed at a server are disjoint. -/
theorem placed_disjoint (h : Spread ssd nm ver maxVersions done p) (hputs : VarPuts ssd done) (r : Nat) :
    ((p.tab r).named (ver.toNat % maxVersions) nm ++
      pendingTo p.net nm (ver.toNat % maxVersions) maxVersions r).Pairwise
        fun o o' => Disjoint o.bb.cells o'.bb.cells := by
  rw [(h.placed r).pairwise_iff fun hd => hd.symm]
  have hdescs : (done.map ObjData.objDesc).Pairwise fun o o' => Disjoint o.bb.cells o'.bb.cells :=
    List.pairwise_map.2 hputs.disjoint
  exact hdescs.sublist List.filter_sublist

/-- The arrival of an update. -/
theorem deliver (h : Spread ssd nm ver maxVersions done p) (hputs : VarPuts ssd done) {k : Nat}
    (hstep : p.deliver k = some p') : Spread ssd nm ver maxVersions done p' := by
  rcases Option.map_eq_some_iff.1 hstep with ⟨msg, hmsg, rfl⟩
  have hperm : p.net.Perm (msg :: p.net.eraseIdx k) := by
    rcases List.getElem?_eq_some_iff.1 hmsg with ⟨hlt, rfl⟩
    exact (List.getElem_cons_eraseIdx_perm hlt).symm
  have hpending : ∀ r, (pendingTo p.net nm (ver.toNat % maxVersions) maxVersions r).Perm
      (pendingTo (msg :: p.net.eraseIdx k) nm (ver.toNat % maxVersions) maxVersions r) := fun r =>
    ((hperm.filter _).map _).filter _
  refine ⟨h.lsSize, fun r => ?_, fun r => ?_, h.stored, fun r => ?_⟩
  · simp only [Function.update_apply]
    split
    · rw [DhtTable.odscSize_store, h.tabSize]
    · exact h.tabSize r
  · simp only [Function.update_apply]
    split
    · exact (h.nodes msg.dest).store _
    · exact h.nodes r
  · have hold := h.placed r
    have hmove := hpending r
    rw [pendingTo_cons] at hmove
    by_cases hr : r = msg.dest
    · subst hr
      simp only [Function.update_self]
      by_cases hhits : msg.odsc.name = nm ∧
          msg.odsc.version.toNat % maxVersions = ver.toNat % maxVersions
      · -- the descriptor moves from the way into the table
        rw [if_pos ⟨rfl, hhits⟩] at hmove
        have hmem : msg.odsc ∈ pendingTo p.net nm (ver.toNat % maxVersions) maxVersions msg.dest :=
          hmove.mem_iff.2 (by simp)
        rcases h.mem_placed (List.mem_append_right _ hmem) with ⟨od, hod, hodsc⟩
        have hapart : ∀ old ∈ (p.tab msg.dest).named (ver.toNat % maxVersions) nm,
            bboxDoesIntersect msg.odsc.bb old.bb = false := by
          intro old hold'
          rcases h.mem_placed (List.mem_append_left _ hold') with ⟨od', hod', rfl⟩
          have hdis := (List.pairwise_append.1 (h.placed_disjoint hputs msg.dest)).2.2 _ hold' _ hmem
          exact bboxDoesIntersect_of_disjoint (hodsc ▸ hputs.inDomain od hod) (hputs.inDomain od' hod')
            hdis.symm
        have hindex : (p.tab msg.dest).index msg.odsc = ver.toNat % maxVersions := by
          rw [DhtTable.index, h.tabSize]
          exact hhits.2
        rw [DhtTable.named_store_apart hindex hhits.1 hapart, List.cons_append]
        refine List.Perm.trans ?_ hold
        exact List.perm_middle.symm.trans (hmove.symm.append_left _)
      · rw [if_neg fun hand => hhits hand.2, List.nil_append] at hmove
        have hforeign : ¬ (msg.odsc.name = nm ∧
            (p.tab msg.dest).index msg.odsc = ver.toNat % maxVersions) := by
          rw [DhtTable.index, h.tabSize]
          exact hhits
        rw [(h.nodes msg.dest).named_store_foreign hforeign]
        exact (hmove.symm.append_left _).trans hold
    · rw [if_neg fun hand => hr hand.1.symm, List.nil_append] at hmove
      simp only [Function.update_of_ne hr]
      exact (hmove.symm.append_left _).trans hold

/-- What one step does to the puts of the variable. -/
theorem step (h : Spread ssd nm ver maxVersions done p) {ev : GroupEvent}
    (hnodup : ∀ bb, (ssdHashV2Loop ssd bb).Nodup)
    (hsel : ∀ bb, ssd.InDomain bb → ssdHashV2Loop ssd bb ≠ []) (hev : ev.Apart nm ver maxVersions)
    (hputs : VarPuts ssd (done ++ putsOf nm ver [ev])) (hstep : p.step ssd ev = some p') :
    Spread ssd nm ver maxVersions (done ++ putsOf nm ver [ev]) p' := by
  cases ev with
  | put rank odsc gdim data =>
      cases hstep
      simp only [putsOf] at hputs ⊢
      by_cases hsame : odsc.name = nm ∧ odsc.version = ver
      · -- a put of the variable, or of another one
        rw [if_pos hsame] at hputs ⊢
        have hin : ssd.InDomain odsc.bb := hputs.inDomain ⟨odsc.ownedBy rank, gdim, data⟩ (by simp)
        exact h.putSame hsame.1 hsame.2 hputs (hnodup _) (hsel _ hin)
      · rw [if_neg hsame, List.append_nil]
        refine h.putOther (fun hhits => hsame ⟨hhits.1, hev hhits.1 hhits.2⟩) (hnodup _)
  | deliver k =>
      simp only [putsOf, List.append_nil] at hputs ⊢
      exact h.deliver hputs hstep
  | query rank qOdsc gdim =>
      cases hstep
      simpa only [putsOf, List.append_nil] using h

/-- What a whole run does to the puts of the variable. -/
theorem run (hnodup : ∀ bb, (ssdHashV2Loop ssd bb).Nodup)
    (hsel : ∀ bb, ssd.InDomain bb → ssdHashV2Loop ssd bb ≠ []) (evs : List GroupEvent) :
    ∀ (done : List ObjData) (p p' : Plane), Spread ssd nm ver maxVersions done p →
      (∀ ev ∈ evs, ev.Apart nm ver maxVersions) → VarPuts ssd (done ++ putsOf nm ver evs) →
      p.run ssd evs = some p' → Spread ssd nm ver maxVersions (done ++ putsOf nm ver evs) p' := by
  induction evs with
  | nil =>
      intro done p p' h _ _ hrun
      cases hrun
      simpa only [putsOf, List.append_nil] using h
  | cons ev evs ih =>
      intro done p p' h hevs hputs hrun
      rcases Option.bind_eq_some_iff.1 hrun with ⟨p₁, hstep, hrun⟩
      -- the puts of the first event come first
      have hsplit : putsOf nm ver (ev :: evs) = putsOf nm ver [ev] ++ putsOf nm ver evs := by
        cases ev with
        | put rank odsc gdim data =>
            simp only [putsOf]
            split <;> rfl
        | deliver k => rfl
        | query rank qOdsc gdim => rfl
      rw [hsplit, ← List.append_assoc] at hputs ⊢
      exact ih _ p₁ p' (h.step hnodup hsel (hevs ev (by simp)) hputs.left hstep)
        (fun ev' hev' => hevs ev' (by simp [hev'])) hputs hrun

end Spread

end Spread

end DataSpaces
