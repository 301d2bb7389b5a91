import DataSpaces.CellCount
import DataSpaces.Watch

/-!
# Blocking — what a blocking query waits for

The counter of the subscription is a `long` from which every matching update takes off what it covers.
Against any interleaving of updates it is the number of cells of the query that the server owns and
that nothing covers yet, the subscription is gone exactly when there are none, and the query is given
every node once -- unless an update that matches is stored in a node that the query already has.
-/

namespace DataSpaces

/-! ## The counter of the subscription -/

section Counter

variable {count : BBox → Option Int64} {ss : SSpace} {owned : Finset Cell} {me : Nat}
  {qOdsc : ObjDesc} {found : List Slot} {w w' : Watch}

/-- The cells of the query that this server is in charge of and that no descriptor of the scan or
added since covers. -/
def Watch.missing (owned : Finset Cell) (qOdsc : ObjDesc) (found : List Slot) (w : Watch) :
    Finset Cell :=
  uncovered owned qOdsc.bb ((w.pub ++ found).map fun s => s.odsc.bb)

/-- What is promised of the query at every moment: it waits exactly while cells are missing, the
counter is their number, and no node is handed out twice. -/
structure Watch.Right (owned : Finset Cell) (me : Nat) (qOdsc : ObjDesc) (found : List Slot)
    (w : Watch) : Prop where
  waits : 0 < (w.missing owned qOdsc found).card → ∃ sub, w.subs me qOdsc = [sub] ∧ w.fin = [] ∧
    Held me qOdsc w.pub sub ∧ sub.remaining.toInt = (w.missing owned qOdsc found).card
  returns : w.missing owned qOdsc found = ∅ → w.subs me qOdsc = [] ∧
    ∃ sub, w.fin = [sub] ∧ Held me qOdsc w.pub sub
  once : ((found ++ w.pub).map Slot.id).Nodup

/-- An update that matches the query is not stored in a node that the query already has. -/
def NewNode (me : Nat) (qOdsc : ObjDesc) (found : List Slot) (w : Watch) (ev : DhtEvent) : Prop :=
  ∀ odsc, ev = .add odsc → w.subs me qOdsc ≠ [] → objDescEqualsIntersect odsc qOdsc = true →
    w.de.slotFor odsc ∉ (found ++ w.pub).map Slot.id

theorem card_uncovered_cons (owned : Finset Cell) (bb b : BBox) {covering : List BBox}
    (h : ∀ b' ∈ covering, Disjoint b.cells b'.cells) :
    (uncovered owned bb (b :: covering)).card + (bb.cells ∩ owned ∩ b.cells).card =
      (uncovered owned bb covering).card := by
  have hnew : uncovered owned bb (b :: covering) = uncovered owned bb covering \ b.cells := by
    ext x
    simp only [uncovered, Finset.mem_sdiff, Cover.mem_union, List.mem_cons]
    constructor
    · rintro ⟨hx, hno⟩
      exact ⟨⟨hx, fun ⟨b', hb', hxb'⟩ => hno ⟨b', Or.inr hb', hxb'⟩⟩,
        fun hxb => hno ⟨b, Or.inl rfl, hxb⟩⟩
    · rintro ⟨⟨hx, hno⟩, hxb⟩
      refine ⟨hx, ?_⟩
      rintro ⟨b', rfl | hb', hxb'⟩
      · exact hxb hxb'
      · exact hno ⟨b', hb', hxb'⟩
  -- none of the new box was covered before
  have hpart : uncovered owned bb covering ∩ b.cells = bb.cells ∩ owned ∩ b.cells := by
    ext x
    simp only [uncovered, Finset.mem_inter, Finset.mem_sdiff, Cover.mem_union]
    constructor
    · rintro ⟨⟨hx, -⟩, hxb⟩
      exact ⟨hx, hxb⟩
    · rintro ⟨hx, hxb⟩
      refine ⟨⟨hx, ?_⟩, hxb⟩
      rintro ⟨b', hb', hxb'⟩
      exact Finset.disjoint_left.1 (h b' hb') hxb hxb'
  rw [hnew, ← hpart]
  exact Finset.card_sdiff_add_card_inter _ _

/-- The state of the query together with what the promise rests on: the descriptors of the table and
those the query was given were added, and are disjoint from what will be added. -/
structure Watch.Counted (owned : Finset Cell) (me : Nat) (qOdsc : ObjDesc) (found : List Slot)
    (adds : List ObjDesc) (w : Watch) : Prop where
  linked : ∃ sub, w.Linked me qOdsc sub (decide (0 < (w.missing owned qOdsc found).card)) ∧
    sub.remaining.toInt = (w.missing owned qOdsc found).card
  given : ∀ s ∈ w.pub ++ found, s.odsc ∈ adds ∧ SameKey s.odsc qOdsc
  once : ((found ++ w.pub).map Slot.id).Nodup

theorem Watch.Counted.right {adds : List ObjDesc} (h : w.Counted owned me qOdsc found adds) :
    w.Right owned me qOdsc found := by
  rcases h.linked with ⟨sub, hlinked, hrem⟩
  refine ⟨fun hpos => ?_, fun hempty => ?_, h.once⟩
  · exact ⟨sub, by simpa [hpos] using hlinked.subs, by simpa [hpos] using hlinked.fin, hlinked.held,
      hrem⟩
  · exact ⟨by simpa [hempty] using hlinked.subs, sub, by simpa [hempty] using hlinked.fin,
      hlinked.held⟩

/-- A step that keeps to new nodes keeps the promise. -/
theorem Watch.Counted.step (hcount : Counts count ss owned) (hq : ss.InDomain qOdsc.bb)
    {adds : List ObjDesc} {ev : DhtEvent} (h : w.Counted owned me qOdsc found adds)
    (hnew : NewNode me qOdsc found w ev) (hadds : AddsOk qOdsc (adds ++ addsOf [ev]))
    (hcall : ∀ call q, ev = .find call q → call ≠ me)
    (hstep : w.step count me qOdsc ev = some w') :
    w'.Counted owned me qOdsc found (adds ++ addsOf [ev]) := by
  rcases h.linked with ⟨sub, hlinked, hrem⟩
  rcases Watch.step_cases hlinked hstep hcall with
    ⟨hlinked', hpub, -⟩ | ⟨odsc, n, rfl, hwait, hm, hn, hpub, hlinked'⟩
  · have hmiss : w'.missing owned qOdsc found = w.missing owned qOdsc found := by
      rw [Watch.missing, Watch.missing, hpub]
    refine ⟨⟨sub, ?_, ?_⟩, ?_, hpub ▸ h.once⟩
    · rw [hmiss]
      exact hlinked'
    · rw [hmiss]
      exact hrem
    · intro s hs
      rw [hpub] at hs
      exact ⟨List.mem_append_left _ (h.given s hs).1, (h.given s hs).2⟩
  · have hkey : SameKey odsc qOdsc := TableAfter.sameKey_of_match hm
    have hin : odsc ∈ adds ++ addsOf [.add odsc] := by simp [addsOf]
    have hold : ∀ b ∈ (w.pub ++ found).map fun s => s.odsc.bb, Disjoint odsc.bb.cells b.cells := by
      intro b hb
      rcases List.mem_map.1 hb with ⟨s, hs, rfl⟩
      rcases h.given s hs with ⟨hsin, hskey⟩
      exact ((List.pairwise_append.1 hadds.disjoint).2.2 _ hsin odsc (by simp [addsOf])
        hskey hkey).symm
    have hcard := card_uncovered_cons owned qOdsc.bb odsc.bb hold
    have hmiss : w'.missing owned qOdsc found =
        uncovered owned qOdsc.bb (odsc.bb :: (w.pub ++ found).map fun s => s.odsc.bb) := by
      rw [Watch.missing, hpub]
      rfl
    rw [← hmiss, ← Watch.missing] at hcard
    -- what the update takes off the counter are the missing cells it covers
    have hnval : n = Int64.ofNat (qOdsc.bb.cells ∩ owned ∩ odsc.bb.cells).card := by
      have := (hcount.inter hq (hadds.valid odsc hin hkey) (hadds.dims odsc hin hkey)
        (objDescEqualsIntersect_iff.1 hm).2.2).2
      rw [hn] at this
      exact Option.some.inj this
    have hlt : (w.missing owned qOdsc found).card < 2 ^ 63 := by
      have := Int64.toInt_lt sub.remaining
      rw [hrem] at this
      exact_mod_cast this
    have hremaining : sub.remaining - n = Int64.ofNat (w'.missing owned qOdsc found).card := by
      have hsub : sub.remaining = Int64.ofNat (w.missing owned qOdsc found).card := by
        rw [← Int64.toInt_inj, hrem, Int64.toInt_ofNat_of_lt hlt]
      rw [hsub, hnval, ← Int64.ofNat_sub _ _ (by omega)]
      congr 1
      omega
    have hrem' : (sub.remaining - n).toInt = (w'.missing owned qOdsc found).card := by
      rw [hremaining, Int64.toInt_ofNat_of_lt (by omega)]
    have hflag : (!(sub.remaining - n == 0)) =
        decide (0 < (w'.missing owned qOdsc found).card) := by
      rw [Bool.eq_iff_iff]
      simp only [Bool.not_eq_true', beq_eq_false_iff_ne, ne_eq, decide_eq_true_eq,
        ← Int64.toInt_inj, hrem']
      simp [Nat.pos_iff_ne_zero]
    rw [hflag] at hlinked'
    refine ⟨⟨_, hlinked', hrem'⟩, ?_, ?_⟩
    · intro s hs
      rw [hpub] at hs
      rcases List.mem_cons.1 hs with rfl | hs
      · exact ⟨hin, hkey⟩
      · exact ⟨List.mem_append_left _ (h.given s hs).1, (h.given s hs).2⟩
    · have hfresh := hnew odsc rfl (by rw [hlinked.subs, hwait]; simp) hm
      rw [hpub, List.map_append, List.map_cons, List.nodup_middle, ← List.map_append]
      exact List.nodup_cons.2 ⟨hfresh, h.once⟩

end Counter

/-! ## The whole query -/

/-- What a query is promised at a server that has the table `de` when it scans and goes through the
steps `after` from then on.  A query with all its cells present returns at once; else it waits, and is
right after every step.  A query that does not wait gets everything or nothing. -/
structure BlockingOk (count : BBox → Option Int64) (owned : Finset Cell) (me : Nat) (qOdsc : ObjDesc)
    (de : DhtTable) (after : List DhtEvent) : Prop where
  now : uncovered owned qOdsc.bb ((de.found qOdsc).map fun s => s.odsc.bb) = ∅ →
    dhtFindEntryAll count de qOdsc (-1) = some (.done ((de.found qOdsc).map Slot.id))
  later : (uncovered owned qOdsc.bb ((de.found qOdsc).map fun s => s.odsc.bb)).Nonempty →
    ∃ remaining, dhtFindEntryAll count de qOdsc (-1) =
        some (.wait ((de.found qOdsc).map Slot.id) remaining) ∧
      ∀ evs, evs <+: after → ∃ w, (Watch.start de me qOdsc remaining).run count me qOdsc evs = some w ∧
        w.Right owned me qOdsc (de.found qOdsc)
  once : ((de.found qOdsc).map Slot.id).Nodup
  poll : dhtFindEntryAll count de qOdsc 0 = some (.done (
    if uncovered owned qOdsc.bb ((de.found qOdsc).map fun s => s.odsc.bb) = ∅ then
      (de.found qOdsc).map Slot.id
    else []))

section Query

variable {count : BBox → Option Int64} {ss : SSpace} {owned : Finset Cell} {me : Nat}
  {qOdsc : ObjDesc}

/-- At the start the counter is what the scan left. -/
theorem Watch.counted_start {adds : List ObjDesc} {de : DhtTable} {remaining : Int64}
    (htab : TableAfter qOdsc adds de) (hnone : ∀ n, de.mine n me = [])
    (hsome : (uncovered owned qOdsc.bb ((de.found qOdsc).map fun s => s.odsc.bb)).Nonempty)
    (hrem : remaining.toInt =
      (uncovered owned qOdsc.bb ((de.found qOdsc).map fun s => s.odsc.bb)).card) :
    (Watch.start de me qOdsc remaining).Counted owned me qOdsc (de.found qOdsc) adds := by
  have hmiss : (Watch.start de me qOdsc remaining).missing owned qOdsc (de.found qOdsc) =
      uncovered owned qOdsc.bb ((de.found qOdsc).map fun s => s.odsc.bb) := rfl
  refine ⟨⟨⟨me, qOdsc, remaining, 0, []⟩, ?_, ?_⟩, ?_, ?_⟩
  · rw [hmiss, decide_eq_true (Finset.card_pos.2 hsome)]
    exact Watch.linked_start hnone remaining
  · rw [hmiss]
    exact hrem
  · intro s hs
    rcases TableAfter.mem_found.1 (show s ∈ de.found qOdsc from hs) with ⟨hs, hm⟩
    exact ⟨htab.added _ s hs, TableAfter.sameKey_of_match hm⟩
  · rw [show (Watch.start de me qOdsc remaining).pub = [] from rfl, List.append_nil]
    exact htab.found_nodup

/-- The query is as promised when updates that match it keep to new nodes. -/
theorem blockingOk_of_newNode (hcount : Counts count ss owned) (htotal : ∀ bb, (count bb).isSome)
    (hq : ss.InDomain qOdsc.bb) {adds : List ObjDesc} {de : DhtTable} {after : List DhtEvent}
    (htab : TableAfter qOdsc adds de) (hnone : ∀ n, de.mine n me = [])
    (hadds : AddsOk qOdsc (adds ++ addsOf after)) (hcalls : OtherCalls me after)
    (hsmall : (uncovered owned qOdsc.bb ((de.found qOdsc).map fun s => s.odsc.bb)).card < 2 ^ 63)
    (hnew : ∀ remaining, dhtFindEntryAll count de qOdsc (-1) =
        some (.wait ((de.found qOdsc).map Slot.id) remaining) →
      Watch.Along count me qOdsc (NewNode me qOdsc (de.found qOdsc)) after
        (Watch.start de me qOdsc remaining)) :
    BlockingOk count owned me qOdsc de after := by
  have hfind := dhtFindEntryAll_eq hcount hq (htab.separate hadds.left)
  have hpos := int64_ofNat_pos hsmall
  refine ⟨fun hempty => ?_, fun hsome => ?_, htab.found_nodup, ?_⟩
  · rw [hfind, hempty]
    rfl
  · have hwait : dhtFindEntryAll count de qOdsc (-1) =
        some (.wait ((de.found qOdsc).map Slot.id) (Int64.ofNat
          (uncovered owned qOdsc.bb ((de.found qOdsc).map fun s => s.odsc.bb)).card)) := by
      rw [hfind]
      simp only [if_true, if_pos (hpos.2 (Finset.card_pos.2 hsome))]
    refine ⟨_, hwait, fun evs hevs => ?_⟩
    -- the query is followed through every part of the history
    rcases hevs with ⟨rest, rfl⟩
    rw [addsOf_append, ← List.append_assoc] at hadds
    rcases Option.isSome_iff_exists.1 (Watch.run_isSome htotal qOdsc evs
      (Watch.start de me qOdsc (Int64.ofNat
        (uncovered owned qOdsc.bb ((de.found qOdsc).map fun s => s.odsc.bb)).card))) with ⟨w, hw⟩
    refine ⟨w, hw, ?_⟩
    -- what the query still waits for is what its nodes leave uncovered, in every state
    have hstart := Watch.counted_start htab hnone hsome (Int64.toInt_ofNat_of_lt hsmall)
    have hkept := Watch.run_keeps (fun _ _ => AddsOk.left)
      (fun adds w w' ev hinv hallow hok hcall hstep =>
        Watch.Counted.step hcount hq hinv hallow hok hcall hstep)
      evs adds _ w hstart ((hnew _ hwait).left evs rest) hadds.left
      (fun call q hmem => hcalls call q (by simp [hmem])) hw
    exact hkept.right
  · rw [hfind]
    by_cases hempty : uncovered owned qOdsc.bb ((de.found qOdsc).map fun s => s.odsc.bb) = ∅
    · rw [if_pos hempty, hempty]
      rfl
    · have hleft := hpos.2 (Finset.card_pos.2 (Finset.nonempty_iff_ne_empty.2 hempty))
      rw [if_neg hempty]
      simp [hleft]

end Query

section Space

variable {hilbertC2i : HilbertC2i} {uninit : Intv} {bbDomain : BBox} {numNodes maxVersions : Nat}
  {hashVersion : HashVersion} {ss : SSpace}

theorem isSome_sshHashElemCount_v2 (hv : ss.hashVersion = .v2) (self : DhtEntry) (bb : BBox) :
    (sshHashElemCount hilbertC2i uninit ss self bb).isSome := by
  rw [sshHashElemCount, hv]
  rfl

/-- A blocking query in a space cut by bisection: whatever happens at the server before and while it
waits, it is as promised unless more than `LONG_MAX` cells are missing or a matching update is stored
in a node that the query already has. -/
theorem dhtFindEntryAll_blocking
    (hss : SpaceBuilt hilbertC2i uninit bbDomain numNodes maxVersions hashVersion ss)
    (hv : ss.hashVersion = .v2) (hversions : 0 < ss.odscSize) {self : DhtEntry}
    (hself : self ∈ ss.entTab) {qOdsc : ObjDesc} (hq : ss.InDomain qOdsc.bb) {me : Nat}
    {before after : List DhtEvent} (hadds : AddsOk qOdsc (addsOf (before ++ after)))
    (hcalls : OtherCalls me (before ++ after)) :
    ∃ de, dhtRun (sshHashElemCount hilbertC2i uninit ss self) before (dhtEntryAlloc ss.odscSize) =
        some de ∧
      ((uncovered (self.owned hilbertC2i ss) qOdsc.bb
          ((de.found qOdsc).map fun s => s.odsc.bb)).card < 2 ^ 63 →
        (∀ remaining, dhtFindEntryAll (sshHashElemCount hilbertC2i uninit ss self) de qOdsc (-1) =
            some (.wait ((de.found qOdsc).map Slot.id) remaining) →
          Watch.Along (sshHashElemCount hilbertC2i uninit ss self) me qOdsc
            (NewNode me qOdsc (de.found qOdsc)) after (Watch.start de me qOdsc remaining)) →
        BlockingOk (sshHashElemCount hilbertC2i uninit ss self) (self.owned hilbertC2i ss) me qOdsc
          de after) := by
  have htotal : ∀ bb, (sshHashElemCount hilbertC2i uninit ss self bb).isSome :=
    isSome_sshHashElemCount_v2 hv self
  rcases Option.isSome_iff_exists.1 (dhtRun_isSome htotal before (dhtEntryAlloc ss.odscSize)) with
    ⟨de, hde⟩
  refine ⟨de, hde, fun hsmall hnew => ?_⟩
  rw [addsOf_append] at hadds
  -- before the query: the table has what was added, and no subscription of this call
  have htab : TableAfter qOdsc (addsOf before) de := by
    have := TableAfter.run before [] _ de (TableAfter.init hversions qOdsc)
      (by simpa using hadds.left) hde
    simpa using this
  have hnone := mine_run_nil before (dhtEntryAlloc ss.odscSize) de (by simp [DhtTable.mine, dhtEntryAlloc])
    (fun call q hmem => hcalls call q (by simp [hmem])) hde
  exact blockingOk_of_newNode (hss.partitioned.counts uninit hself) htotal hq htab hnone hadds
    (fun call q hmem => hcalls call q (by simp [hmem])) hsmall hnew

/-- The lower server of the line, in charge of the cells 0 and 1. -/
def lineEntry : DhtEntry := ⟨0, ⟨0, 0⟩, [], [(bboxDivideIn2Ondim (BBox.line 0 2) 0).1]⟩

def lineCount : BBox → Option Int64 := sshHashElemCount lineC2i ⟨0, 0⟩ lineSpaceV2 lineEntry

/-- A query of both cells of the server. -/
def lineQuery : ObjDesc := plainDesc 0 (BBox.line 0 1)

/-- Version 0 of the lower cell. -/
def lowerAdd : List DhtEvent := [.add (plainDesc 0 (BBox.line 0 0))]

/-- Version 0 of the upper cell. -/
def upperAdd : List DhtEvent := [.add (plainDesc 0 (BBox.line 1 1))]

/-- Version 0 in two halves, with updates of other versions between them. -/
theorem addsOk_halves {evs : List DhtEvent} (hevs : ∀ odsc ∈ addsOf evs, odsc.version ≠ 0) :
    AddsOk lineQuery (addsOf (lowerAdd ++ (evs ++ upperAdd))) := by
  have hhalves : Disjoint (BBox.line 0 0).cells (BBox.line 1 1).cells :=
    disjoint_of_bboxDoesIntersect (BBox.line_valid (by decide)).dims rfl (by decide)
  have hforeign : ∀ odsc ∈ addsOf evs, ¬ SameKey odsc lineQuery := fun odsc hodsc hkey =>
    hevs odsc hodsc hkey.2
  have hadds : addsOf (lowerAdd ++ (evs ++ upperAdd)) =
      plainDesc 0 (BBox.line 0 0) :: (addsOf evs ++ [plainDesc 0 (BBox.line 1 1)]) := by
    rw [addsOf_append, addsOf_append]
    rfl
  have hmem : ∀ odsc ∈ addsOf (lowerAdd ++ (evs ++ upperAdd)), SameKey odsc lineQuery →
      odsc.bb = BBox.line 0 0 ∨ odsc.bb = BBox.line 1 1 := by
    intro odsc hodsc hkey
    rw [hadds] at hodsc
    simp only [List.mem_cons, List.mem_append, List.not_mem_nil, or_false] at hodsc
    rcases hodsc with rfl | hodsc | rfl
    · exact Or.inl rfl
    · exact absurd hkey (hforeign odsc hodsc)
    · exact Or.inr rfl
  refine ⟨fun odsc hodsc hkey => ?_, fun odsc hodsc hkey => ?_, ?_⟩
  · rcases hmem odsc hodsc hkey with h | h <;> rw [h] <;> exact BBox.line_valid (by decide)
  · rcases hmem odsc hodsc hkey with h | h <;> rw [h] <;> rfl
  · rw [hadds]
    -- of each pair that matches the query one is the lower and one the upper half
    refine List.pairwise_cons.2 ⟨fun odsc hodsc _ hkey => ?_,
      List.pairwise_append.2 ⟨?_, by simp, fun odsc hodsc _ _ hkey => ?_⟩⟩
    · rcases List.mem_append.1 hodsc with hodsc | hodsc
      · exact absurd hkey (hforeign odsc hodsc)
      · rw [List.mem_singleton.1 hodsc]
        exact hhalves
    · exact List.Pairwise.imp_of_mem (fun hodsc _ _ hkey => absurd hkey (hforeign _ hodsc))
        (List.pairwise_of_forall fun _ _ => trivial)
    · exact absurd hkey (hforeign odsc hodsc)

theorem inDomain_lineQuery : lineSpaceV2.InDomain lineQuery.bb :=
  line_inDomain rfl rfl (by decide) (by decide)

theorem mem_lineEntry : lineEntry ∈ lineSpaceV2.entTab := by
  simp [lineSpaceV2, lineEntry]

/-- Version 1 of both cells. -/
def bothAdd : List DhtEvent := [.add (plainDesc 1 (BBox.line 0 1))]

/-- While the query waits, version 1 of both cells overwrites the node that the scan found, and
version 0 of the upper cell then overwrites it again: the query is given this node twice. -/
theorem dhtFindEntryAll_blocking_twice :
    AddsOk lineQuery (addsOf (lowerAdd ++ (bothAdd ++ upperAdd))) ∧
    OtherCalls 0 (lowerAdd ++ (bothAdd ++ upperAdd)) ∧
    ∃ de, dhtRun lineCount lowerAdd (dhtEntryAlloc lineSpaceV2.odscSize) = some de ∧
      ¬ BlockingOk lineCount (lineEntry.owned lineC2i lineSpaceV2) 0 lineQuery de
        (bothAdd ++ upperAdd) := by
  refine ⟨addsOk_halves (by simp [bothAdd, addsOf, plainDesc]),
    by simp [OtherCalls, lowerAdd, bothAdd, upperAdd], ?_⟩
  have htotal : ∀ bb, (lineCount bb).isSome := isSome_sshHashElemCount_v2 rfl lineEntry
  rcases Option.isSome_iff_exists.1 (dhtRun_isSome htotal lowerAdd
    (dhtEntryAlloc lineSpaceV2.odscSize)) with ⟨de, hde⟩
  refine ⟨de, hde, fun hok => ?_⟩
  -- the scan finds node 0 and waits for one cell; the run then hands out node 0 once more
  have hfind : (dhtRun lineCount lowerAdd (dhtEntryAlloc lineSpaceV2.odscSize)).bind (fun de =>
      dhtFindEntryAll lineCount de lineQuery (-1)) = some (.wait [0] 1) := by
    decide +kernel
  have htwice : (dhtRun lineCount lowerAdd (dhtEntryAlloc lineSpaceV2.odscSize)).bind (fun de =>
      ((Watch.start de 0 lineQuery 1).run lineCount 0 lineQuery (bothAdd ++ upperAdd)).map fun w =>
        (de.found lineQuery ++ w.pub).map Slot.id) = some [0, 0] := by
    decide +kernel
  rw [hde, Option.bind_some] at hfind htwice
  by_cases hempty : uncovered (lineEntry.owned lineC2i lineSpaceV2) lineQuery.bb
      ((de.found lineQuery).map fun s => s.odsc.bb) = ∅
  · rw [hok.now hempty] at hfind
    cases hfind
  · rcases hok.later (Finset.nonempty_iff_ne_empty.2 hempty) with ⟨remaining, hwait, hright⟩
    rw [hwait, Option.some.injEq, FindResult.wait.injEq] at hfind
    rw [hfind.2] at hright
    rcases hright _ (List.prefix_rfl) with ⟨w, hw, hw'⟩
    have honce := hw'.once
    rw [hw, Option.map_some, Option.some.injEq] at htwice
    rw [htwice] at honce
    exact absurd honce (by decide)

/-- Without the update of version 1 the query gets both halves. -/
theorem dhtFindEntryAll_blocking_halves :
    ∃ de, dhtRun lineCount lowerAdd (dhtEntryAlloc lineSpaceV2.odscSize) = some de ∧
      BlockingOk lineCount (lineEntry.owned lineC2i lineSpaceV2) 0 lineQuery de upperAdd := by
  have hadds : AddsOk lineQuery (addsOf (lowerAdd ++ ([] ++ upperAdd))) :=
    addsOk_halves (by simp [addsOf])
  have hcalls : OtherCalls 0 (lowerAdd ++ ([] ++ upperAdd)) := by
    simp [OtherCalls, lowerAdd, upperAdd]
  rcases dhtFindEntryAll_blocking spaceBuilt_lineSpaceV2 rfl (by decide) mem_lineEntry
    inDomain_lineQuery hadds hcalls with ⟨de, hde, hok⟩
  refine ⟨de, hde, hok ?_ fun remaining hwait => ⟨?_, fun _ _ => trivial⟩⟩
  · refine lt_of_le_of_lt (Finset.card_le_card
      (Finset.sdiff_subset.trans Finset.inter_subset_left)) ?_
    rw [show lineQuery.bb = BBox.line 0 1 from rfl, card_line]
    decide
  · rintro odsc hodsc - -
    cases hodsc
    -- the upper half gets a node of its own
    have hslot : (dhtRun lineCount lowerAdd (dhtEntryAlloc lineSpaceV2.odscSize)).map (fun de =>
        decide (de.slotFor (plainDesc 0 (BBox.line 1 1)) ∈ (de.found lineQuery).map Slot.id)) =
          some false := by
      decide +kernel
    rw [show dhtRun lineCount lowerAdd (dhtEntryAlloc lineSpaceV2.odscSize) = some de from hde,
      Option.map_some, Option.some.injEq, decide_eq_false_iff_not] at hslot
    rw [show (Watch.start de 0 lineQuery remaining).pub = [] from rfl, List.append_nil]
    exact hslot

end Space

end DataSpaces
