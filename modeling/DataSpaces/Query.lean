import DataSpaces.CellCount
import DataSpaces.DhtEvents
import DataSpaces.Group

/-!
# Query — what the merged answers of the servers cover

Every selected server decides for itself whether it has the cells of the query that it owns, and
returns all its matching descriptors or none.  `get_query_odscs` merges these answers, so that a query
may come back with some descriptors although another server had to return none.  The results here say
what one server answers, what the merge keeps, and exactly when the result is all or nothing.
-/

namespace DataSpaces

/-! ## The merge -/

section Dedup

theorem objDescEqualsNoOwner_refl (odsc : ObjDesc) : objDescEqualsNoOwner odsc odsc = true :=
  objDescEqualsNoOwner_iff.2 ⟨rfl, rfl, bboxEquals_iff.2 ⟨rfl, fun _ _ => ⟨rfl, rfl⟩⟩⟩

/-- One turn of the loop: the descriptor is dropped when one like it is there. -/
def dedupStep (results : List ObjDesc) (odsc : ObjDesc) : List ObjDesc :=
  if results.any fun r => objDescEqualsNoOwner r odsc then results else results ++ [odsc]

theorem mem_foldl_dedupStep (odscs : List ObjDesc) :
    ∀ results : List ObjDesc,
      (∀ r ∈ odscs.foldl dedupStep results, r ∈ results ∨ r ∈ odscs) ∧
      (∀ r ∈ results, r ∈ odscs.foldl dedupStep results) ∧
      ∀ odsc ∈ odscs, ∃ r ∈ odscs.foldl dedupStep results, objDescEqualsNoOwner r odsc = true := by
  induction odscs with
  | nil =>
      intro results
      exact ⟨fun r hr => Or.inl hr, fun r hr => hr, by simp⟩
  | cons odsc odscs ih =>
      intro results
      rcases ih (dedupStep results odsc) with ⟨hsub, hkeep, hlike⟩
      -- one turn: nothing is lost, and something like the descriptor is there
      have hstep : (∀ r ∈ dedupStep results odsc, r ∈ results ∨ r = odsc) ∧
          (∀ r ∈ results, r ∈ dedupStep results odsc) ∧
          ∃ r ∈ dedupStep results odsc, objDescEqualsNoOwner r odsc = true := by
        rw [dedupStep]
        split
        · next hany =>
            rcases List.any_eq_true.1 hany with ⟨r, hr, hrd⟩
            exact ⟨fun r hr => Or.inl hr, fun r hr => hr, r, hr, hrd⟩
        · exact ⟨by simp, fun r hr => List.mem_append_left _ hr, odsc, by simp,
            objDescEqualsNoOwner_refl odsc⟩
      refine ⟨fun r hr => ?_, fun r hr => hkeep r (hstep.2.1 r hr), fun o ho => ?_⟩
      · rcases hsub r hr with hr | hr
        · rcases hstep.1 r hr with hr | rfl
          · exact Or.inl hr
          · exact Or.inr (by simp)
        · exact Or.inr (by simp [hr])
      · rcases List.mem_cons.1 ho with rfl | ho
        · rcases hstep.2.2 with ⟨r, hr, hrd⟩
          exact ⟨r, hkeep r hr, hrd⟩
        · exact hlike o ho

theorem mem_of_mem_dedup {odscs : List ObjDesc} {r : ObjDesc} (h : r ∈ dedup odscs) : r ∈ odscs := by
  rcases (mem_foldl_dedupStep odscs []).1 r h with h | h
  · simp at h
  · exact h

theorem exists_mem_dedup {odscs : List ObjDesc} {odsc : ObjDesc} (h : odsc ∈ odscs) :
    ∃ r ∈ dedup odscs, objDescEqualsNoOwner r odsc = true :=
  (mem_foldl_dedupStep odscs []).2.2 odsc h

/-- The merge keeps what the descriptors cover. -/
theorem union_dedup (odscs : List ObjDesc) :
    Cover.union (fun o : ObjDesc => o.bb.cells) (dedup odscs) =
      Cover.union (fun o : ObjDesc => o.bb.cells) odscs := by
  ext x
  simp only [Cover.mem_union]
  constructor
  · rintro ⟨r, hr, hx⟩
    exact ⟨r, mem_of_mem_dedup hr, hx⟩
  · rintro ⟨odsc, hodsc, hx⟩
    rcases exists_mem_dedup hodsc with ⟨r, hr, hrd⟩
    refine ⟨r, hr, ?_⟩
    rw [cells_eq_of_bboxEquals (objDescEqualsNoOwner_iff.1 hrd).2.2]
    exact hx

theorem dedup_eq_nil {odscs : List ObjDesc} : dedup odscs = [] ↔ odscs = [] := by
  constructor
  · intro h
    by_contra hne
    rcases List.exists_mem_of_ne_nil _ hne with ⟨odsc, hodsc⟩
    rcases exists_mem_dedup hodsc with ⟨r, hr, -⟩
    rw [h] at hr
    simp at hr
  · rintro rfl
    rfl

end Dedup

/-! ## The answer of one server -/

section Answer

variable {hilbertC2i : HilbertC2i} {uninit : Nat → Unwritten} {ssd : SSpace} {numNodes : Nat} {qOdsc : ObjDesc}

/-- The cells that the server of a rank owns. -/
def SSpace.ownedAt (hilbertC2i : HilbertC2i) (ssd : SSpace) (rank : Nat) : Finset Cell :=
  match ssd.entTab[rank]? with
  | some de => de.owned hilbertC2i ssd
  | none => ∅

/-- The entry of the rank has what `ssh_hash_elem_count` reads. -/
def SSpace.CountedAt (ssd : SSpace) (rank : Nat) : Prop :=
  ∀ de, ssd.entTab[rank]? = some de → ssd.Counted de

theorem Shared.countsAt (h : Shared hilbertC2i ssd numNodes) (uninit : Unwritten) {rank : Nat}
    (hrank : rank < numNodes) (hcounted : ssd.CountedAt rank) :
    Counts (ssd.countAt hilbertC2i uninit rank) ssd (ssd.ownedAt hilbertC2i rank) := by
  rcases h.getElem?_entTab hrank with ⟨de, hde, -⟩
  intro bb hbb
  simp only [SSpace.countAt, SSpace.ownedAt, hde, Option.bind_some]
  exact h.countOf (uninit.count bb) de (List.mem_of_getElem? hde) (hcounted de hde) bb hbb

theorem Partitioned.countedAt (h : Partitioned hilbertC2i ssd numNodes) (rank : Nat) : ssd.CountedAt rank :=
  fun de hde => h.counted de (List.mem_of_getElem? hde)

theorem Partitioned.countsAt (h : Partitioned hilbertC2i ssd numNodes) (uninit : Unwritten) {rank : Nat}
    (hrank : rank < numNodes) :
    Counts (ssd.countAt hilbertC2i uninit rank) ssd (ssd.ownedAt hilbertC2i rank) :=
  h.toShared.countsAt uninit hrank (h.countedAt rank)

/-- What a server owns does not depend on the hulls. -/
theorem SSpace.SameShares.ownedAt_eq {ssd' : SSpace} (h : ssd.SameShares ssd') (rank : Nat) :
    ssd'.ownedAt hilbertC2i rank = ssd.ownedAt hilbertC2i rank := by
  have hlen := h.entries.length_eq
  rcases Nat.lt_or_ge rank ssd.entTab.length with hlt | hge
  · have hsame := h.entries.get hlt (hlen ▸ hlt)
    simp only [SSpace.ownedAt, List.getElem?_eq_getElem hlt,
      List.getElem?_eq_getElem (show rank < ssd'.entTab.length from hlen ▸ hlt)]
    exact h.owned_eq hsame
  · simp only [SSpace.ownedAt, List.getElem?_eq_none hge,
      List.getElem?_eq_none (show ssd'.entTab.length ≤ rank from hlen ▸ hge)]

theorem SSpace.SameShares.countedAt {ssd' : SSpace} (h : ssd.SameShares ssd') {rank : Nat}
    (hcounted : ssd.CountedAt rank) : ssd'.CountedAt rank := by
  intro de' hde' hv
  have hlen := h.entries.length_eq
  obtain ⟨hlt, rfl⟩ := List.getElem?_eq_some_iff.1 hde'
  have hlt' : rank < ssd.entTab.length := hlen ▸ hlt
  have hsame : ssd'.entTab[rank].iTab = ssd.entTab[rank].iTab := (h.entries.get hlt' hlt).iTab
  rw [hsame]
  exact hcounted _ (List.getElem?_eq_getElem hlt') (h.hashVersion ▸ hv)

/-- Every cell of the domain is owned at some rank. -/
theorem Shared.exists_ownedAt (h : Shared hilbertC2i ssd numNodes) {x : Cell}
    (hx : x ∈ ssd.bbGlbDomain.cells) : ∃ rank < numNodes, x ∈ ssd.ownedAt hilbertC2i rank := by
  rcases h.exists_owner hx with ⟨de, hde, hown⟩
  rcases List.mem_iff_getElem?.1 hde with ⟨rank, hget⟩
  refine ⟨rank, ?_, by simpa only [SSpace.ownedAt, hget] using hown⟩
  rw [← h.length_entTab]
  exact (List.getElem?_eq_some_iff.1 hget).1

/-- The nodes of a scan are read back as the descriptors in them. -/
theorem DhtTable.Ok.filterMap_read {table : DhtTable} (h : table.Ok) (f : ObjDesc → ObjDesc) :
    ((table.found qOdsc).map Slot.id).filterMap (fun id => (table.read id).map f) =
      (table.found qOdsc).map fun s => f s.odsc := by
  rw [List.filterMap_map]
  have hread : ∀ s ∈ table.found qOdsc,
      ((fun id => (table.read id).map f) ∘ Slot.id) s = some (f s.odsc) := by
    intro s hs
    have hs' : table.read s.id = some s.odsc :=
      h.read_eq_some.2 ⟨_, (TableAfter.mem_found.1 hs).1⟩
    simp [hs']
  rw [List.filterMap_congr hread, List.filterMap_eq_map']

/-- The cells of the query that the server owns and has no descriptor for. -/
def lackingAt (hilbertC2i : HilbertC2i) (ssd : SSpace) (tables : Nat → DhtTable) (qOdsc : ObjDesc)
    (rank : Nat) : Finset Cell :=
  uncovered (ssd.ownedAt hilbertC2i rank) qOdsc.bb
    (((tables rank).found qOdsc).map fun s => s.odsc.bb)

/-- The server lacks no cell of its share of the query.  A `long` holds the number of them, so that
`2 ^ 63` and more count as none. -/
def CompleteAt (hilbertC2i : HilbertC2i) (ssd : SSpace) (tables : Nat → DhtTable) (qOdsc : ObjDesc)
    (rank : Nat) : Prop :=
  (lackingAt hilbertC2i ssd tables qOdsc rank).card % 2 ^ 64 = 0 ∨
    2 ^ 63 ≤ (lackingAt hilbertC2i ssd tables qOdsc rank).card % 2 ^ 64

instance (tables : Nat → DhtTable) (rank : Nat) :
    Decidable (CompleteAt hilbertC2i ssd tables qOdsc rank) :=
  inferInstanceAs (Decidable (_ ∨ _))

/-- The sign of a count of cells. -/
theorem int64_ofNat_pos_iff (n : ℕ) : Int64.ofNat n > 0 ↔ 0 < n % 2 ^ 64 ∧ n % 2 ^ 64 < 2 ^ 63 := by
  have hsize : Int64.size = 2 ^ 64 := rfl
  rw [gt_iff_lt, Int64.lt_iff_toInt_lt, Int64.toInt_ofNat', Int64.toInt_zero, hsize, Int.bmod_def]
  split <;> omega

theorem completeAt_iff {tables : Nat → DhtTable} {rank : Nat} :
    CompleteAt hilbertC2i ssd tables qOdsc rank ↔
      ¬ Int64.ofNat (lackingAt hilbertC2i ssd tables qOdsc rank).card > 0 := by
  rw [int64_ofNat_pos_iff, CompleteAt]
  omega

/-- An immediate query gets all matching descriptors of a server, clipped, or none. -/
theorem answer_eq {spaces : Nat → SSpace} {rank : Nat} (hrank : rank < numNodes)
    (hshared : Shared hilbertC2i (spaces rank) numNodes) (hcounted : (spaces rank).CountedAt rank)
    (hq : (spaces rank).InDomain qOdsc.bb) {tables : Nat → DhtTable} {adds : List ObjDesc}
    (htab : TableAfter qOdsc adds (tables rank)) (hadds : AddsOk qOdsc adds) :
    answer hilbertC2i uninit spaces tables qOdsc 0 rank =
      some (if CompleteAt hilbertC2i (spaces rank) tables qOdsc rank then
        ((tables rank).found qOdsc).map fun s => clipOdsc qOdsc s.odsc
      else []) := by
  have hfind := dhtFindEntryAll_eq (hshared.countsAt (uninit rank) hrank hcounted) hq (htab.separate hadds) 0
  rw [answer, Server.findOdscs, hfind]
  -- the server answers iff nothing of its part is left uncovered
  by_cases hans : CompleteAt hilbertC2i (spaces rank) tables qOdsc rank
  · have hleft : ¬ Int64.ofNat (uncovered ((spaces rank).ownedAt hilbertC2i rank) qOdsc.bb
        (((tables rank).found qOdsc).map fun s => s.odsc.bb)).card > 0 := completeAt_iff.1 hans
    rw [if_pos hans]
    simp only [Option.bind_eq_bind, Option.bind_some, hleft, if_false, ite_self]
    rw [htab.ok.filterMap_read]
    rfl
  · have hleft : Int64.ofNat (uncovered ((spaces rank).ownedAt hilbertC2i rank) qOdsc.bb
        (((tables rank).found qOdsc).map fun s => s.odsc.bb)).card > 0 :=
      not_not.1 fun h => hans (completeAt_iff.2 h)
    rw [if_neg hans]
    simp only [Option.bind_eq_bind, Option.bind_some, hleft, if_true]
    rfl

end Answer

/-! ## All or nothing -/

section Cover

variable {hilbertC2i : HilbertC2i} {uninit : Nat → Unwritten} {conf : Conf} {ssd : SSpace} {g : Group}
  {qOdsc : ObjDesc} {gdim : GlobalDimension} {sv : Server}

theorem SpaceBuilt.spacesFor {space : Intv}
    (hss : SpaceBuilt hilbertC2i space (conf.domainFor gdim) conf.sizeSp conf.maxVersions conf.hashVersion ssd)
    (uninit : Nat → Unwritten) : conf.SpacesFor hilbertC2i uninit gdim fun _ => ssd :=
  fun rank => hss.alloc (uninit rank).alloc

/-- The cache holds entries of servers of the group that have what `ssh_hash_elem_count` reads. -/
def CacheOk (conf : Conf) (ssd : SSpace) (sfc : SfcHashList) : Prop :=
  ∀ shc ∈ sfc, ∀ de ∈ shc.shDeTab, de.rank < conf.sizeSp ∧ ssd.CountedAt de.rank

/-- The server asks the rank for the box: the rank is in the list that is cached for the box, or nothing
is cached and the box meets the entry of the rank. -/
def Server.Asks (hilbertC2i : HilbertC2i) (sv : Server) (ssd : SSpace) (bb : BBox) (rank : Nat) : Prop :=
  match shFind sv.sfcHash bb with
  | some (de :: deTab) => rank ∈ (de :: deTab).map DePtr.rank
  | _ => ssd.MeetsAt hilbertC2i bb rank

/-- A rank that the box meets has a cell, or a box, of the space. -/
theorem SSpace.MeetsAt.lt {numNodes : Nat} (hshared : Shared hilbertC2i ssd numNodes) {bb : BBox} {rank : Nat}
    (h : ssd.MeetsAt hilbertC2i bb rank) : rank < numNodes ∧ ssd.CountedAt rank := by
  rcases h with ⟨de, hde, rfl, hmeet⟩
  refine ⟨hshared.rank_lt hde, fun de' hde' hv => ?_⟩
  -- the entries are in the order of their ranks
  rcases hshared.getElem?_entTab (hshared.rank_lt hde) with ⟨de'', hde'', hrank⟩
  have heq : de' = de := by
    rw [hde''] at hde'
    cases hde'
    have hnodup : (ssd.entTab.map DhtEntry.rank).Nodup := hshared.ranks ▸ List.nodup_range
    exact List.inj_on_of_nodup_map hnodup (List.mem_of_getElem? hde'') hde hrank
  rw [hv] at hmeet
  rcases hmeet with ⟨x, hx⟩
  have hown := (Finset.mem_inter.1 hx).2
  intro hnil
  rw [heq] at hnil
  simp [DhtEntry.owned, hv, hnil] at hown

/-- Whatever is in the cache, `ssd_hash` selects at least one server for a box inside the domain. -/
theorem hashRanks_inDomain {space : Intv}
    (hss : SpaceCut hilbertC2i space (conf.domainFor gdim) conf.sizeSp conf.maxVersions conf.hashVersion ssd)
    (hq : ssd.InDomain qOdsc.bb) (hcache : CacheOk conf ssd sv.sfcHash) (unwritten : Unwritten) :
    ∃ ranks, sv.hashRanks hilbertC2i unwritten gdim ssd qOdsc.bb = some ranks ∧ ranks ≠ [] ∧
      (∀ rank ∈ ranks, rank < conf.sizeSp ∧ ssd.CountedAt rank) ∧
      ∀ rank, rank ∈ ranks ↔ sv.Asks hilbertC2i ssd qOdsc.bb rank := by
  have hshared := hss.shared
  rcases hss.hash_iff hq.within with ⟨ranks, hranks, hmeets⟩
  have hne : ranks ≠ [] := by
    rcases hshared.hash qOdsc.bb hq.toFits hq.meets with ⟨ranks', hranks', -, howned⟩
    obtain rfl : ranks' = ranks := Option.some.inj ((hranks' ⟨0, 0⟩).symm.trans (hranks ⟨0, 0⟩))
    rcases hq.valid.cells_nonempty with ⟨x, hx⟩
    rcases hshared.exists_owner (hq.subset hx) with ⟨de, hde, hown⟩
    exact List.ne_nil_of_mem (howned de hde ⟨x, Finset.mem_inter.2 ⟨hx, hown⟩⟩)
  have hun : ssdHashUncached hilbertC2i (unwritten.hash sv.sfcHash.length) (sv.spaceId gdim) ssd qOdsc.bb =
      some (ranks.map (DePtr.mk (sv.spaceId gdim))) := by
    rw [ssdHashUncached, hranks, Option.map_some]
  have hback : (ranks.map (DePtr.mk (sv.spaceId gdim))).map DePtr.rank = ranks := by
    rw [List.map_map]
    exact List.map_id ranks
  -- v1 and v2 alike: a hit comes from the cache, anything else is computed
  have hcached : sv.hashRanks hilbertC2i unwritten gdim ssd qOdsc.bb =
      (ssdHashCached (some (ranks.map (DePtr.mk (sv.spaceId gdim)))) qOdsc.bb sv.sfcHash).map
        fun r => r.1.map DePtr.rank := by
    rw [Server.hashRanks, hashAt, ssdHash]
    rcases hss.usable with hv | ⟨hv, -⟩
    · simp only [hv, hun]
    · simp only [hv, hun]
  have hlt : ∀ rank ∈ ranks, rank < conf.sizeSp ∧ ssd.CountedAt rank := fun rank hrank =>
    ((hmeets rank).1 hrank).lt hshared
  rw [hcached, ssdHashCached]
  simp only [Server.Asks]
  cases hfind : shFind sv.sfcHash qOdsc.bb with
  | none => exact ⟨ranks, by simp only [Option.map_some, hback], hne, hlt, hmeets⟩
  | some l =>
      cases l with
      | nil => exact ⟨ranks, by simp only [Option.map_some, hback], hne, hlt, hmeets⟩
      | cons de deTab =>
          refine ⟨(de :: deTab).map DePtr.rank, rfl, by simp, fun rank hrank => ?_, fun rank => Iff.rfl⟩
          rcases Option.map_eq_some_iff.1 hfind with ⟨shc, hshc, htab⟩
          rcases List.mem_map.1 hrank with ⟨de', hde', rfl⟩
          exact hcache shc (List.mem_of_find?_eq_some hshc) de' (htab ▸ hde')

/-- The table of a server is one that a history of updates and queries leads to, in which descriptors of
the name and version of the query are disjoint. -/
def ReachedTable (conf : Conf) (qOdsc : ObjDesc) (table : DhtTable) : Prop :=
  ∃ count evs, dhtRun count evs (dhtEntryAlloc conf.maxVersions) = some table ∧ AddsOk qOdsc (addsOf evs)

theorem ReachedTable.tableAfter {table : DhtTable} (h : ReachedTable conf qOdsc table)
    (hversions : 0 < conf.maxVersions) : ∃ adds, TableAfter qOdsc adds table ∧ AddsOk qOdsc adds := by
  rcases h with ⟨count, evs, hrun, hadds⟩
  refine ⟨addsOf evs, ?_, hadds⟩
  have := TableAfter.run evs [] _ table (TableAfter.init hversions qOdsc) (by simpa using hadds) hrun
  simpa using this

/-- The cells for which the query depends on other servers than their owner: all it owns when the owner
is not asked or lacks some of them, and what it lacks otherwise. -/
def openAt (hilbertC2i : HilbertC2i) (ssd : SSpace) (tables : Nat → DhtTable) (qOdsc : ObjDesc)
    (asked : Nat → Prop) (rank : Nat) : Set Cell :=
  { x | x ∈ qOdsc.bb.cells ∩ ssd.ownedAt hilbertC2i rank ∧
    (asked rank → CompleteAt hilbertC2i ssd tables qOdsc rank → x ∈ lackingAt hilbertC2i ssd tables qOdsc rank) }

/-- A cell is in a matching descriptor at a server that is asked and lacks nothing. -/
def CoveredBy (hilbertC2i : HilbertC2i) (ssd : SSpace) (tables : Nat → DhtTable) (qOdsc : ObjDesc)
    (asked : Nat → Prop) (x : Cell) : Prop :=
  ∃ rank, asked rank ∧ CompleteAt hilbertC2i ssd tables qOdsc rank ∧
    ∃ s ∈ (tables rank).found qOdsc, x ∈ s.odsc.bb.cells

/-- The merged answers when the given servers are asked. -/
theorem merged_eq {spaces : Nat → SSpace} (hsame : ∀ rank, ssd.SameShares (spaces rank))
    (hshared : ∀ rank, Shared hilbertC2i (spaces rank) conf.sizeSp) (hq : ssd.InDomain qOdsc.bb)
    {tables : Nat → DhtTable} {ranks : List Nat}
    (hranks : ∀ rank ∈ ranks, rank < conf.sizeSp ∧ ssd.CountedAt rank)
    (htables : ∀ rank < conf.sizeSp, ∃ adds, TableAfter qOdsc adds (tables rank) ∧
      AddsOk qOdsc adds) (uninit : Nat → Unwritten) :
    ∃ tabs, ranks.mapM (answer hilbertC2i uninit spaces tables qOdsc 0) = some tabs ∧
      (tabs.flatten = [] ↔ ∀ rank ∈ ranks, CompleteAt hilbertC2i ssd tables qOdsc rank →
        (tables rank).found qOdsc = []) ∧
      ∀ x ∈ qOdsc.bb.cells, x ∈ Cover.union (fun o : ObjDesc => o.bb.cells) tabs.flatten ↔
        CoveredBy hilbertC2i ssd tables qOdsc (· ∈ ranks) x := by
  have hans : ∀ rank ∈ ranks, answer hilbertC2i uninit spaces tables qOdsc 0 rank =
      some (if CompleteAt hilbertC2i ssd tables qOdsc rank then
        ((tables rank).found qOdsc).map fun s => clipOdsc qOdsc s.odsc else []) := by
    intro rank hrank
    rcases htables rank (hranks rank hrank).1 with ⟨adds, htab, hadds⟩
    -- the server counts in its own copy of the space
    have hown : (spaces rank).ownedAt hilbertC2i rank = ssd.ownedAt hilbertC2i rank :=
      (hsame rank).ownedAt_eq rank
    have hcomplete : CompleteAt hilbertC2i (spaces rank) tables qOdsc rank ↔
        CompleteAt hilbertC2i ssd tables qOdsc rank := by
      simp only [CompleteAt, lackingAt, hown]
    rw [answer_eq (hranks rank hrank).1 (hshared rank) ((hsame rank).countedAt (hranks rank hrank).2)
      ((hsame rank).inDomain hq) htab hadds]
    simp only [hcomplete]
  refine ⟨_, mapM_eq_some_map ranks hans, ?_, fun x hx => ?_⟩
  · -- nothing comes back exactly when every server that answers has found nothing
    rw [List.flatten_eq_nil_iff]
    constructor
    · intro h rank hrank hfull
      have := h _ (List.mem_map_of_mem hrank)
      rw [if_pos hfull, List.map_eq_nil_iff] at this
      exact this
    · rintro h l hl
      rcases List.mem_map.1 hl with ⟨rank, hrank, rfl⟩
      by_cases hfull : CompleteAt hilbertC2i ssd tables qOdsc rank
      · rw [if_pos hfull, h rank hrank hfull]
        rfl
      · rw [if_neg hfull]
  · -- clipping to the query loses no cell of the query
    simp only [Cover.mem_union, List.mem_flatten, List.mem_map]
    constructor
    · rintro ⟨odsc, ⟨l, ⟨rank, hrank, rfl⟩, hodsc⟩, hxo⟩
      split at hodsc
      · next hfull =>
          rcases List.mem_map.1 hodsc with ⟨s, hs, rfl⟩
          rcases htables rank (hranks rank hrank).1 with ⟨adds, htab, hadds⟩
          have hd := (htab.separate hadds).dims s hs
          refine ⟨rank, hrank, hfull, s, hs, ?_⟩
          rw [clipOdsc, bboxIntersect_cells hd.symm] at hxo
          exact (Finset.mem_inter.1 hxo).2
      · simp at hodsc
    · rintro ⟨rank, hrank, hfull, s, hs, hxs⟩
      rcases htables rank (hranks rank hrank).1 with ⟨adds, htab, hadds⟩
      have hd := (htab.separate hadds).dims s hs
      refine ⟨clipOdsc qOdsc s.odsc, ⟨_, ⟨rank, hrank, rfl⟩, ?_⟩, ?_⟩
      · rw [if_pos hfull]
        exact List.mem_map_of_mem hs
      · rw [clipOdsc, bboxIntersect_cells hd.symm]
        exact Finset.mem_inter.2 ⟨hx, hxs⟩

/-- The server passes the query on to the remotes, or no asked server that lacks nothing has a matching
descriptor, or such servers have descriptors for the cells that are open. -/
def AllOrNothing (hilbertC2i : HilbertC2i) (conf : Conf) (ssd : SSpace) (g : Group) (self : Nat)
    (qOdsc : ObjDesc) (gdim : GlobalDimension) : Prop :=
  let tables := fun rank => (g.server rank).tableOf conf gdim
  let asked := (g.server self).Asks hilbertC2i ssd qOdsc.bb
  (g.server self).localResponsibility conf qOdsc = false ∨
  (∀ rank, asked rank → CompleteAt hilbertC2i ssd tables qOdsc rank → (tables rank).found qOdsc = []) ∨
  ∀ rank < conf.sizeSp, ∀ x ∈ openAt hilbertC2i ssd tables qOdsc asked rank,
    CoveredBy hilbertC2i ssd tables qOdsc asked x

/-- An immediate query is all or nothing exactly under this condition on the tables. -/
theorem getQueryOdscs_covers_iff {spaces : Nat → SSpace}
    (hss : ∀ rank, SpaceCut hilbertC2i (uninit rank).alloc (conf.domainFor gdim) conf.sizeSp conf.maxVersions
      conf.hashVersion (spaces rank))
    (hok : g.Ok hilbertC2i uninit conf) (hversions : 0 < conf.maxVersions) {self : Nat}
    (hq : (spaces self).InDomain qOdsc.bb)
    (htables : ∀ rank < conf.sizeSp, ReachedTable conf qOdsc ((g.server rank).tableOf conf gdim))
    (hcache : CacheOk conf (spaces self) (g.server self).sfcHash) :
    ∃ odscs g', getQueryOdscs hilbertC2i uninit conf g self qOdsc gdim 0 = some (odscs, g') ∧
      ((odscs ≠ [] → qOdsc.bb.cells ⊆ Cover.union (fun o : ObjDesc => o.bb.cells) odscs) ↔
        AllOrNothing hilbertC2i conf (spaces self) g self qOdsc gdim) := by
  cases hlocal : (g.server self).localResponsibility conf qOdsc with
  | false =>
      -- a remote answers for the whole box
      refine ⟨((g.server self).queryRemotes conf qOdsc gdim).1,
        g.setServer self ((g.server self).queryRemotes conf qOdsc gdim).2, ?_, ?_⟩
      · simp only [getQueryOdscs, hlocal, Bool.false_eq_true, if_false]
        rfl
      · refine iff_of_true ?_ (Or.inl hlocal)
        rw [Server.queryRemotes]
        split
        · intro _ x hx
          exact Cover.mem_union.2 ⟨_, List.mem_singleton_self _, hx⟩
        · exact fun hnil => absurd rfl hnil
  | true =>
      have hafter : ∀ rank < conf.sizeSp, ∃ adds,
          TableAfter qOdsc adds ((g.server rank).tableOf conf gdim) ∧ AddsOk qOdsc adds :=
        fun rank hrank => (htables rank hrank).tableAfter hversions
      rcases hashRanks_inDomain (hss self) hq hcache (uninit self) with ⟨ranks, hranks, hne, hlt, hasks⟩
      rcases merged_eq (fun rank => (hss self).sameShares (hss rank)) (fun rank => (hss rank).shared) hq hlt
        hafter uninit with ⟨tabs, htabs, hnil, hcov⟩
      have hspaces : conf.SpacesFor hilbertC2i uninit gdim spaces := fun rank => (hss rank).built
      have hspec := getQueryOdscs_local hok hspaces hlocal 0
      have hasked : askedRanks self ranks = ranks := by
        rw [askedRanks, if_neg (by simpa using hne)]
      simp only [queryAnswer, hranks, Option.bind_some, hasked, htabs, Option.map_some] at hspec
      rcases hspec with ⟨g', hget, -, -⟩
      refine ⟨dedup tabs.flatten, g', hget, ?_⟩
      simp only [hasks, CoveredBy] at hnil hcov
      rw [union_dedup, Ne, dedup_eq_nil, hnil, AllOrNothing, hlocal]
      simp only [Bool.true_eq_false, false_or]
      constructor
      · intro h
        refine or_iff_not_imp_left.2 fun hsome rank _ x hx => ?_
        have hxq : x ∈ qOdsc.bb.cells := (Finset.mem_inter.1 hx.1).1
        exact (hcov x hxq).1 (h hsome hxq)
      · rintro (hempty | hopen) hsome
        · exact absurd hempty hsome
        · intro x hx
          rw [hcov x hx]
          rcases (hss self).shared.exists_ownedAt (hq.subset hx) with ⟨rank, hrank, hown⟩
          by_cases hheld : (g.server self).Asks hilbertC2i (spaces self) qOdsc.bb rank ∧
              CompleteAt hilbertC2i (spaces self) (fun r => (g.server r).tableOf conf gdim) qOdsc rank ∧
              x ∉ lackingAt hilbertC2i (spaces self) (fun r => (g.server r).tableOf conf gdim) qOdsc rank
          · -- the owner has a descriptor for the cell
            rcases hheld with ⟨hask, hfull, hlack⟩
            rw [lackingAt, uncovered, Finset.mem_sdiff, not_and, not_not] at hlack
            rcases Cover.mem_union.1 (hlack (Finset.mem_inter.2 ⟨hx, hown⟩)) with ⟨bb, hbb, hxbb⟩
            rcases List.mem_map.1 hbb with ⟨s, hs, rfl⟩
            exact ⟨rank, hask, hfull, s, hs, hxbb⟩
          · refine hopen rank hrank x ⟨Finset.mem_inter.2 ⟨hx, hown⟩, fun hask hfull => ?_⟩
            by_contra hlack
            exact hheld ⟨hask, hfull, hlack⟩

/-! ### A group of two servers on a line -/

/-- Two servers, the default domain `[0, 2]`, one version a bin and no remotes. -/
def lineConf : Conf := ⟨2, 1, .auto, ⟨1, Coord.ofFn fun i => if i = 0 then 3 else 0⟩, none⟩

/-- The domain of a single dimension. -/
theorem gdimDomain_line (size : UInt64) :
    gdimDomain ⟨1, Coord.ofFn fun i => if i = 0 then size else 0⟩ = BBox.line 0 (size - 1) := by
  have hlb : (fun _ : Nat => (0 : UInt64)) = fun i => if i = 0 then 0 else 0 := by
    funext i
    simp
  have hub : (fun i => if i < 1 then (Coord.ofFn fun i => if i = 0 then size else 0).c i - 1 else 0) =
      fun i => if i = 0 then size - 1 else 0 := by
    funext i
    by_cases hi : i = 0
    · subst hi
      rfl
    · rw [if_neg (fun h => hi (Nat.lt_one_iff.1 h)), if_neg hi]
  rw [gdimDomain, BBox.line, hub, hlb]

theorem domainFor_lineConf : lineConf.domainFor lineConf.defaultGdim = BBox.line 0 2 := by
  rw [Conf.domainFor, if_pos (by decide)]
  exact gdimDomain_line 3

theorem spaceBuilt_lineConf : SpaceBuilt lineC2i ⟨0, 0⟩
    (lineConf.domainFor lineConf.defaultGdim) lineConf.sizeSp lineConf.maxVersions
      lineConf.hashVersion lineSpaceV2 := by
  rw [domainFor_lineConf]
  exact spaceBuilt_lineSpaceV2

theorem ok_lineConf : (Group.init lineConf fun _ => lineSpaceV2).Ok lineC2i zeroed lineConf :=
  Group.ok_init (spaceBuilt_lineConf.spacesFor zeroed)

/-- A put of the cells of server 0. -/
def lowerPut : GroupEvent := .put 0 (plainDesc 0 (BBox.line 0 1)) lineConf.defaultGdim fun _ => 0

/-- A query of all three cells. -/
def domainQuery : ObjDesc := plainDesc 0 (BBox.line 0 2)

theorem run_lowerPut : ∃ g, (Group.init lineConf fun _ => lineSpaceV2).run lineC2i zeroed lineConf [lowerPut] =
    some g := by
  rw [← Option.isSome_iff_exists]
  decide +kernel

/-- Only the cells of server 0 are there: server 1 has to return nothing, and the query comes back
with the descriptor of server 0. -/
theorem getQueryOdscs_partial :
    ∃ g odscs g', (Group.init lineConf fun _ => lineSpaceV2).run lineC2i zeroed lineConf [lowerPut] = some g ∧
      getQueryOdscs lineC2i zeroed lineConf g 0 domainQuery lineConf.defaultGdim 0 =
        some (odscs, g') ∧
      lineSpaceV2.InDomain domainQuery.bb ∧ odscs ≠ [] ∧
      ¬ domainQuery.bb.cells ⊆ Cover.union (fun o : ObjDesc => o.bb.cells) odscs := by
  rcases run_lowerPut with ⟨g, hg⟩
  have hget : ((Group.init lineConf fun _ => lineSpaceV2).run lineC2i zeroed lineConf [lowerPut]).bind (fun g =>
      (getQueryOdscs lineC2i zeroed lineConf g 0 domainQuery lineConf.defaultGdim 0).map fun r =>
        r.1.map fun o => bboxEquals o.bb (BBox.line 0 1)) = some [true] := by
    decide +kernel
  rw [hg, Option.bind_some] at hget
  rcases Option.map_eq_some_iff.1 hget with ⟨⟨odscs, g'⟩, hquery, hboxes⟩
  rcases List.map_eq_cons_iff.1 hboxes with ⟨odsc, l, rfl, hbox, hl⟩
  obtain rfl := List.map_eq_nil_iff.1 hl
  refine ⟨g, [odsc], g', hg, hquery, line_inDomain rfl rfl (by decide) (by decide), by simp, ?_⟩
  intro hsub
  -- two of the three cells
  have hcells : Cover.union (fun o : ObjDesc => o.bb.cells) [odsc] = (BBox.line 0 1).cells := by
    rw [← cells_eq_of_bboxEquals hbox]
    simp [Cover.union]
  rw [hcells] at hsub
  have hcard := Finset.card_le_card hsub
  rw [show domainQuery.bb = BBox.line 0 2 from rfl, card_line, card_line] at hcard
  exact absurd hcard (by decide)

theorem addsOk_lowerPut : AddsOk domainQuery
    (addsOf [.add { plainDesc 0 (BBox.line 0 1) with owner := .server 0 }]) := by
  refine ⟨fun odsc hodsc _ => ?_, fun odsc hodsc _ => ?_, List.pairwise_singleton _ _⟩
  · rw [List.mem_singleton.1 hodsc]
    exact BBox.line_valid (by decide)
  · rw [List.mem_singleton.1 hodsc]
    rfl

/-- The condition at that state of the group. -/
theorem getQueryOdscs_covers_iff_lowerPut :
    ∃ g odscs g', (Group.init lineConf fun _ => lineSpaceV2).run lineC2i zeroed lineConf [lowerPut] =
        some g ∧
      getQueryOdscs lineC2i zeroed lineConf g 0 domainQuery lineConf.defaultGdim 0 =
        some (odscs, g') ∧
      ((odscs ≠ [] →
          domainQuery.bb.cells ⊆ Cover.union (fun o : ObjDesc => o.bb.cells) odscs) ↔
        AllOrNothing lineC2i lineConf lineSpaceV2 g 0 domainQuery lineConf.defaultGdim) := by
  rcases run_lowerPut with ⟨g, hg⟩
  have hlower : ((Group.init lineConf fun _ => lineSpaceV2).run lineC2i zeroed lineConf [lowerPut]).map (fun g =>
      (g.server 0).tableOf lineConf lineConf.defaultGdim) =
        dhtRun (lineSpaceV2.countAt lineC2i (zeroed 0) 0)
          [.add { plainDesc 0 (BBox.line 0 1) with owner := .server 0 }] (dhtEntryAlloc 1) := rfl
  have hupper : ((Group.init lineConf fun _ => lineSpaceV2).run lineC2i zeroed lineConf [lowerPut]).map (fun g =>
      (g.server 1).tableOf lineConf lineConf.defaultGdim) = some (dhtEntryAlloc 1) := rfl
  have hcache : ((Group.init lineConf fun _ => lineSpaceV2).run lineC2i zeroed lineConf [lowerPut]).map (fun g =>
      (g.server 0).sfcHash.all fun shc => shc.shDeTab.all fun de => de.rank < 2) = some true := by
    decide +kernel
  rw [hg, Option.map_some] at hlower hupper hcache
  -- both tables come from calls of their servers
  have htables : ∀ rank < lineConf.sizeSp, ReachedTable lineConf domainQuery
      ((g.server rank).tableOf lineConf lineConf.defaultGdim) := by
    intro rank hrank
    have hcases : rank = 0 ∨ rank = 1 := by
      have : rank < 2 := hrank
      omega
    rcases hcases with rfl | rfl
    · exact ⟨_, _, hlower.symm, addsOk_lowerPut⟩
    · refine ⟨fun _ => none, [], ?_, by simp [addsOf], by simp [addsOf], List.Pairwise.nil⟩
      rw [Option.some.injEq] at hupper
      rw [hupper]
      rfl
  have hsmall : CacheOk lineConf lineSpaceV2 (g.server 0).sfcHash := by
    intro shc hshc de hde
    have hall := List.all_eq_true.1 (Option.some.inj hcache) shc hshc
    exact ⟨of_decide_eq_true (List.all_eq_true.1 hall de hde),
      spaceBuilt_lineConf.partitioned.countedAt de.rank⟩
  rcases @getQueryOdscs_covers_iff lineC2i zeroed lineConf g domainQuery lineConf.defaultGdim
    (fun _ => lineSpaceV2) (fun rank => spaceBuilt_lineConf.cutAt (zeroed rank).alloc)
    (ok_lineConf.run [lowerPut] _ g hg) (by decide) 0 (line_inDomain rfl rfl (by decide) (by decide)) htables
    hsmall with ⟨odscs, g', hget, hiff⟩
  exact ⟨g, odscs, g', hg, hget, hiff⟩

end Cover

end DataSpaces
