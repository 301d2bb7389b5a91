import DataSpaces.Blocking

/-!
# Handout — what the nodes of an answer hold

A query gets pointers to list nodes, and an update of another version in the same bin may overwrite
such a node while the query waits.  The answer matches the query as long as this does not happen.
-/

namespace DataSpaces

section Answer

variable {count : BBox → Option Int64} {me : Nat} {qOdsc : ObjDesc} {found : List Slot}
  {w w' : Watch}

/-- The node now holds a descriptor of the name and version of the query whose box meets it. -/
def DhtTable.Matches (de : DhtTable) (qOdsc : ObjDesc) (id : Nat) : Prop :=
  ∃ odsc, de.read id = some odsc ∧ odsc.name = qOdsc.name ∧ odsc.version = qOdsc.version ∧
    bboxDoesIntersect odsc.bb qOdsc.bb = true

theorem DhtTable.Ok.matches_iff {de : DhtTable} (h : de.Ok) {id : Nat} :
    de.Matches qOdsc id ↔
      ∃ n odsc, ⟨id, odsc⟩ ∈ de.odscHash n ∧ objDescEqualsIntersect odsc qOdsc = true := by
  simp only [DhtTable.Matches, h.read_eq_some, objDescEqualsIntersect_iff]
  constructor
  · rintro ⟨odsc, ⟨n, hn⟩, hm⟩
    exact ⟨n, odsc, hn, hm⟩
  · rintro ⟨n, odsc, hn, hm⟩
    exact ⟨odsc, ⟨n, hn⟩, hm⟩

/-- The scan gives nodes that match. -/
theorem DhtTable.Ok.matches_found {de : DhtTable} (h : de.Ok) {id : Nat}
    (hid : id ∈ (de.found qOdsc).map Slot.id) : de.Matches qOdsc id := by
  rcases List.mem_map.1 hid with ⟨s, hs, rfl⟩
  rcases TableAfter.mem_found.1 hs with ⟨hs, hm⟩
  exact h.matches_iff.2 ⟨_, s.odsc, hs, hm⟩

/-- No update stores a descriptor that does not match in a node that the query has. -/
def NoForeign (qOdsc : ObjDesc) (found : List Slot) (w : Watch) (ev : DhtEvent) : Prop :=
  ∀ odsc, ev = .add odsc → w.de.slotFor odsc ∈ (found ++ w.pub).map Slot.id →
    objDescEqualsIntersect odsc qOdsc = true

/-- The query has its subscription, and all its nodes match. -/
structure Watch.Sound (me : Nat) (qOdsc : ObjDesc) (found : List Slot) (w : Watch) : Prop where
  ok : w.de.Ok
  linked : ∃ sub waiting, w.Linked me qOdsc sub waiting
  reads : ∀ id ∈ (found ++ w.pub).map Slot.id, w.de.Matches qOdsc id

/-- A node that matches still does after an update, unless something foreign is stored in it. -/
theorem DhtTable.Matches.store {de : DhtTable} {odsc : ObjDesc} {id : Nat} (hok : de.Ok)
    (h : de.Matches qOdsc id)
    (hnew : id = de.slotFor odsc → objDescEqualsIntersect odsc qOdsc = true) :
    (de.store odsc).Matches qOdsc id := by
  rcases hok.matches_iff.1 h with ⟨n, odsc', hmem, hm⟩
  refine (hok.store odsc).matches_iff.2 ?_
  by_cases hid : id = de.slotFor odsc
  · exact ⟨de.index odsc, odsc, hok.mem_store.2 (Or.inl ⟨by rw [hid], rfl⟩), hnew hid⟩
  · exact ⟨n, odsc', hok.mem_store.2 (Or.inr ⟨hmem, hid⟩), hm⟩

theorem DhtTable.Matches.congr {de de' : DhtTable} {id : Nat} (h : de.Matches qOdsc id)
    (hsize : de'.odscSize = de.odscSize) (hhash : de'.odscHash = de.odscHash) :
    de'.Matches qOdsc id := by
  rw [DhtTable.Matches, DhtTable.read, hsize, hhash]
  exact h

theorem Watch.Sound.step {ev : DhtEvent} (h : w.Sound me qOdsc found)
    (hclean : NoForeign qOdsc found w ev) (hcall : ∀ call q, ev = .find call q → call ≠ me)
    (hstep : w.step count me qOdsc ev = some w') : w'.Sound me qOdsc found := by
  rcases h.linked with ⟨sub, waiting, hlinked⟩
  have hcases := Watch.step_cases hlinked hstep hcall
  rcases Option.map_eq_some_iff.1 hstep with ⟨r, hr, hw'⟩
  have hde : w'.de = r.1 := by rw [← hw']
  -- the nodes the query had before the step still match
  have hkept : ∀ id ∈ (found ++ w.pub).map Slot.id, w'.de.Matches qOdsc id := by
    intro id hid
    rw [hde]
    cases ev with
    | add odsc =>
        rcases dhtAddEntry_cases hr with ⟨notified, hadd⟩
        exact ((h.reads id hid).store h.ok fun heq => hclean odsc rfl (heq ▸ hid)).congr
          hadd.size hadd.hash
    | find call q =>
        rcases find_step hr with ⟨hsize, hhash, -⟩
        exact (h.reads id hid).congr hsize hhash
  refine ⟨by rw [hde]; exact h.ok.step hr, ?_, ?_⟩
  · rcases hcases with ⟨hlinked', -, -⟩ | ⟨odsc, n, -, -, -, -, -, hlinked'⟩
    · exact ⟨sub, waiting, hlinked'⟩
    · exact ⟨_, _, hlinked'⟩
  · rcases hcases with ⟨-, hpub, -⟩ | ⟨odsc, n, rfl, -, hm, -, hpub, -⟩
    · rw [hpub]
      exact hkept
    · intro id hid
      rw [hpub, List.map_append, List.map_cons, List.mem_append, List.mem_cons] at hid
      by_cases hnew : id = w.de.slotFor odsc
      · rcases dhtAddEntry_cases hr with ⟨notified, hadd⟩
        have hstored : (w.de.store odsc).Matches qOdsc id :=
          (h.ok.store odsc).matches_iff.2
            ⟨w.de.index odsc, odsc, h.ok.mem_store.2 (Or.inl ⟨by rw [hnew], rfl⟩), hm⟩
        rw [hde]
        exact hstored.congr hadd.size hadd.hash
      · refine hkept id ?_
        rw [List.map_append, List.mem_append]
        rcases hid with hid | hid | hid
        · exact Or.inl hid
        · exact absurd hid hnew
        · exact Or.inr hid

/-- A blocking query gets the matching nodes from the scan, whether it returns or waits. -/
theorem dhtFindEntryAll_found {de : DhtTable} {res : FindResult}
    (h : dhtFindEntryAll count de qOdsc (-1) = some res) :
    res = .done ((de.found qOdsc).map Slot.id) ∨
      ∃ remaining, res = .wait ((de.found qOdsc).map Slot.id) remaining := by
  rcases Option.bind_eq_some_iff.1 h with ⟨numElem, -, h⟩
  rcases Option.bind_eq_some_iff.1 h with ⟨r, hscan, h⟩
  have htab : r.1 = (de.found qOdsc).map Slot.id := dhtScan_eq_filter _ _ _ hscan
  simp only [if_true, Option.pure_def, Option.some.injEq] at h
  rw [← h, htab]
  split
  · exact Or.inr ⟨_, rfl⟩
  · exact Or.inl rfl

/-- When a blocking query returns, its nodes hold descriptors that match it, provided that from the
scan on no update stored anything else in them. -/
theorem dhtFindEntryAll_matches {sizeHash : Nat} (hsize : 0 < sizeHash) {before after : List DhtEvent}
    {de : DhtTable} (hde : dhtRun count before (dhtEntryAlloc sizeHash) = some de)
    (hcalls : OtherCalls me (before ++ after)) :
    (∀ odscTab, dhtFindEntryAll count de qOdsc (-1) = some (.done odscTab) →
      ∀ id ∈ odscTab, de.Matches qOdsc id) ∧
    ∀ odscTab remaining, dhtFindEntryAll count de qOdsc (-1) = some (.wait odscTab remaining) →
      Watch.Along count me qOdsc (NoForeign qOdsc (de.found qOdsc)) after
        (Watch.start de me qOdsc remaining) →
      ∀ w, (Watch.start de me qOdsc remaining).run count me qOdsc after = some w →
        ∀ sub ∈ w.fin, ∀ id ∈ odscTab ++ sub.recvOdsc, w.de.Matches qOdsc id := by
  have hok : de.Ok := DhtTable.Ok.run before _ de (DhtTable.ok_dhtEntryAlloc hsize) hde
  have hnone := mine_run_nil before (dhtEntryAlloc sizeHash) de
    (by simp [DhtTable.mine, dhtEntryAlloc]) (fun call q hmem => hcalls call q (by simp [hmem])) hde
  refine ⟨fun odscTab hfind id hid => ?_, fun odscTab remaining hfind halong w hw sub hsub id hid => ?_⟩
  · -- a query that does not wait returns what its scan found
    rcases dhtFindEntryAll_found hfind with htab | ⟨_, htab⟩
    · cases htab
      exact hok.matches_found hid
    · cases htab
  · have hstart : (Watch.start de me qOdsc remaining).Sound me qOdsc (de.found qOdsc) := by
      refine ⟨hok.congr rfl rfl rfl, ⟨_, true, Watch.linked_start hnone remaining⟩, fun id hid => ?_⟩
      rw [show (Watch.start de me qOdsc remaining).pub = [] from rfl, List.append_nil] at hid
      exact (hok.matches_found hid).congr rfl rfl
    have hsound : w.Sound me qOdsc (de.found qOdsc) :=
      @Watch.run_keeps count me qOdsc _ (fun _ w => w.Sound me qOdsc (de.found qOdsc)) (fun _ => True)
        (fun _ _ h => h) (fun _ w w' ev hinv hallow _ hcall hstep => hinv.step hallow hcall hstep)
        after [] _ w hstart halong trivial (fun call q hmem => hcalls call q (by simp [hmem])) hw
    -- the only subscription that completes for this call is its own
    rcases hsound.linked with ⟨sub', waiting, hlinked⟩
    have hfin := hlinked.fin
    have hsub' : sub = sub' := by
      cases waiting with
      | true =>
          rw [hfin] at hsub
          simp at hsub
      | false =>
          rw [hfin] at hsub
          simpa using hsub
    have htab : odscTab = (de.found qOdsc).map Slot.id := by
      rcases dhtFindEntryAll_found hfind with htab | ⟨_, htab⟩ <;> cases htab
      rfl
    refine hsound.reads id ?_
    rw [htab, hsub', hlinked.held.recv, ← List.map_append] at hid
    exact hid

/-- Version 1 of the lower cell. -/
def newerAdd : List DhtEvent := [.add (plainDesc 1 (BBox.line 0 0))]

/-- While the query waits for the upper cell, version 1 overwrites the node of the lower cell, and the
query returns with it. -/
theorem dhtFindEntryAll_foreign :
    (addsOf (lowerAdd ++ (newerAdd ++ upperAdd))).Pairwise (fun o o' =>
      o.name = o'.name → o.version = o'.version → Disjoint o.bb.cells o'.bb.cells) ∧
    OtherCalls 0 (lowerAdd ++ (newerAdd ++ upperAdd)) ∧
    ∃ de w sub, dhtRun lineCount lowerAdd (dhtEntryAlloc lineSpaceV2.odscSize) = some de ∧
      dhtFindEntryAll lineCount de lineQuery (-1) = some (.wait [0] 1) ∧
      (Watch.start de 0 lineQuery 1).run lineCount 0 lineQuery (newerAdd ++ upperAdd) = some w ∧
      sub ∈ w.fin ∧ ∃ id ∈ [0] ++ sub.recvOdsc, ¬ w.de.Matches lineQuery id := by
  have hhalves : Disjoint (BBox.line 0 0).cells (BBox.line 1 1).cells :=
    disjoint_of_bboxDoesIntersect (BBox.line_valid (by decide)).dims rfl (by decide)
  refine ⟨by simp [addsOf, lowerAdd, newerAdd, upperAdd, plainDesc, hhalves],
    by simp [OtherCalls, lowerAdd, newerAdd, upperAdd], ?_⟩
  have htotal : ∀ bb, (lineCount bb).isSome := isSome_sshHashElemCount_v2 rfl lineEntry
  rcases Option.isSome_iff_exists.1 (dhtRun_isSome htotal lowerAdd
    (dhtEntryAlloc lineSpaceV2.odscSize)) with ⟨de, hde⟩
  rcases Option.isSome_iff_exists.1 (Watch.run_isSome htotal lineQuery (newerAdd ++ upperAdd)
    (Watch.start de 0 lineQuery 1)) with ⟨w, hw⟩
  have hfind : (dhtRun lineCount lowerAdd (dhtEntryAlloc lineSpaceV2.odscSize)).bind (fun de =>
      dhtFindEntryAll lineCount de lineQuery (-1)) = some (.wait [0] 1) := by
    decide +kernel
  have hread : (dhtRun lineCount lowerAdd (dhtEntryAlloc lineSpaceV2.odscSize)).bind (fun de =>
      ((Watch.start de 0 lineQuery 1).run lineCount 0 lineQuery (newerAdd ++ upperAdd)).map fun w =>
        (w.fin.length, (w.de.read 0).map ObjDesc.version)) = some (1, some 1) := by
    decide +kernel
  rw [hde, Option.bind_some] at hfind hread
  rw [hw, Option.map_some, Option.some.injEq, Prod.mk.injEq] at hread
  rcases List.length_eq_one_iff.1 hread.1 with ⟨sub, hsub⟩
  refine ⟨de, w, sub, hde, hfind, hw, by simp [hsub], 0, by simp, ?_⟩
  -- the node that was found first has version 1 by now
  rintro ⟨odsc, hodsc, -, hversion, -⟩
  rw [hodsc, Option.map_some, hversion] at hread
  exact absurd hread.2 (by decide)

/-- Without the update of version 1 the query returns with the two halves of version 0. -/
theorem dhtFindEntryAll_matches_halves :
    ∃ de w, dhtRun lineCount lowerAdd (dhtEntryAlloc lineSpaceV2.odscSize) = some de ∧
      dhtFindEntryAll lineCount de lineQuery (-1) = some (.wait [0] 1) ∧
      (Watch.start de 0 lineQuery 1).run lineCount 0 lineQuery upperAdd = some w ∧
      w.fin.length = 1 ∧ ∀ sub ∈ w.fin, ∀ id ∈ [0] ++ sub.recvOdsc, w.de.Matches lineQuery id := by
  have htotal : ∀ bb, (lineCount bb).isSome := isSome_sshHashElemCount_v2 rfl lineEntry
  rcases Option.isSome_iff_exists.1 (dhtRun_isSome htotal lowerAdd
    (dhtEntryAlloc lineSpaceV2.odscSize)) with ⟨de, hde⟩
  rcases Option.isSome_iff_exists.1 (Watch.run_isSome htotal lineQuery upperAdd
    (Watch.start de 0 lineQuery 1)) with ⟨w, hw⟩
  have hfind : (dhtRun lineCount lowerAdd (dhtEntryAlloc lineSpaceV2.odscSize)).bind (fun de =>
      dhtFindEntryAll lineCount de lineQuery (-1)) = some (.wait [0] 1) := by
    decide +kernel
  have hfin : (dhtRun lineCount lowerAdd (dhtEntryAlloc lineSpaceV2.odscSize)).bind (fun de =>
      ((Watch.start de 0 lineQuery 1).run lineCount 0 lineQuery upperAdd).map fun w =>
        w.fin.length) = some 1 := by
    decide +kernel
  rw [hde, Option.bind_some] at hfind hfin
  rw [hw, Option.map_some, Option.some.injEq] at hfin
  have hcalls : OtherCalls 0 (lowerAdd ++ upperAdd) := by simp [OtherCalls, lowerAdd, upperAdd]
  have hmatches := (dhtFindEntryAll_matches (by decide) hde hcalls).2 [0] 1 hfind
  refine ⟨de, w, hde, hfind, hw, hfin, hmatches ⟨?_, fun _ _ => trivial⟩ w hw⟩
  intro odsc hodsc _
  cases hodsc
  decide

end Answer

end DataSpaces
