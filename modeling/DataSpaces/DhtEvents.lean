import DataSpaces.Lib.Runs
import DataSpaces.Coverage

/-!
# DhtEvents — interleavings of updates and blocking queries on one table

Every operation on a bin of the table runs under the bin's `hash_mutex`, so a history is a sequence of
whole updates (`dht_add_entry`) and of the first halves of blocking queries (scan and subscribe).
What a query waits for is traced by the number of its call.
-/

namespace DataSpaces

/-- One step on the table: an update, or a blocking query up to the point where it waits. -/
inductive DhtEvent
  | add (odsc : ObjDesc)
  | find (call : Nat) (qOdsc : ObjDesc)

/-- The descriptors that a history adds. -/
def addsOf : List DhtEvent → List ObjDesc
  | [] => []
  | .add odsc :: evs => odsc :: addsOf evs
  | .find _ _ :: evs => addsOf evs

theorem addsOf_append (evs evs' : List DhtEvent) : addsOf (evs ++ evs') = addsOf evs ++ addsOf evs' := by
  induction evs with
  | nil => rfl
  | cons ev evs ih =>
      cases ev with
      | add odsc => simp [addsOf, ih]
      | find call qOdsc => simpa [addsOf] using ih

/-- None of the queries of the history is the call `me`. -/
def OtherCalls (me : Nat) (evs : List DhtEvent) : Prop :=
  ∀ call qOdsc, DhtEvent.find call qOdsc ∈ evs → call ≠ me

section Steps

variable (count : BBox → Option Int64)

/-- The table after the step, and the subscriptions that the step completed. -/
def DhtEvent.step (de : DhtTable) : DhtEvent → Option (DhtTable × List DhtSub)
  | .add odsc => dhtAddEntry count de odsc
  | .find call qOdsc =>
      (dhtFindEntryAll count de qOdsc (-1)).map fun
        | .done _ => (de, [])
        | .wait _ remaining => (dhtLocalSubscribe de call qOdsc remaining, [])

/-- The table after a history. -/
def dhtRun : List DhtEvent → DhtTable → Option DhtTable
  | [], de => some de
  | ev :: evs, de => (ev.step count de).bind fun r => dhtRun evs r.1

end Steps

/-! ## The descriptors in the table -/

/-- Two tables that differ in their subscriptions only. -/
theorem DhtTable.Ok.congr {de de' : DhtTable} (h : de.Ok) (hsize : de'.odscSize = de.odscSize)
    (hhash : de'.odscHash = de.odscHash) (hfresh : de'.fresh = de.fresh) : de'.Ok := by
  have hindex : ∀ odsc, de'.index odsc = de.index odsc := fun odsc => by
    rw [DhtTable.index, DhtTable.index, hsize]
  refine ⟨?_, ?_, ?_, ?_, ?_⟩
  · rw [hsize]
    exact h.size_pos
  · intro n s hs
    rw [hindex]
    exact h.binned n s (hhash ▸ hs)
  · intro n s hs
    rw [hfresh]
    exact h.below n s (hhash ▸ hs)
  · rw [hhash]
    exact h.unique
  · rw [hhash]
    exact h.apart

/-- The descriptor has the name and the version of the query. -/
def SameKey (odsc qOdsc : ObjDesc) : Prop :=
  odsc.name = qOdsc.name ∧ odsc.version = qOdsc.version

/-- Descriptors with the name and version of the query have valid boxes of its dimensionality, and
they are pairwise disjoint. -/
structure AddsOk (qOdsc : ObjDesc) (adds : List ObjDesc) : Prop where
  valid : ∀ odsc ∈ adds, SameKey odsc qOdsc → odsc.bb.Valid
  dims : ∀ odsc ∈ adds, SameKey odsc qOdsc → odsc.bb.numDims = qOdsc.bb.numDims
  disjoint : adds.Pairwise fun o o' =>
    SameKey o qOdsc → SameKey o' qOdsc → Disjoint o.bb.cells o'.bb.cells

theorem AddsOk.left {qOdsc : ObjDesc} {adds adds' : List ObjDesc} (h : AddsOk qOdsc (adds ++ adds')) :
    AddsOk qOdsc adds where
  valid odsc hodsc := h.valid odsc (List.mem_append_left _ hodsc)
  dims odsc hodsc := h.dims odsc (List.mem_append_left _ hodsc)
  disjoint := (List.pairwise_append.1 h.disjoint).1

/-- The table after the descriptors `adds` were added: it holds only those, and different nodes with
the name and version of the query hold disjoint boxes. -/
structure TableAfter (qOdsc : ObjDesc) (adds : List ObjDesc) (de : DhtTable) : Prop where
  ok : de.Ok
  added : ∀ n, ∀ s ∈ de.odscHash n, s.odsc ∈ adds
  disjoint : ∀ n n' s s', s ∈ de.odscHash n → s' ∈ de.odscHash n' → s.id ≠ s'.id →
    SameKey s.odsc qOdsc → SameKey s'.odsc qOdsc → Disjoint s.odsc.bb.cells s'.odsc.bb.cells

namespace TableAfter

variable {qOdsc : ObjDesc} {adds : List ObjDesc} {de : DhtTable}

theorem init {sizeHash : Nat} (h : 0 < sizeHash) (qOdsc : ObjDesc) :
    TableAfter qOdsc [] (dhtEntryAlloc sizeHash) where
  ok := DhtTable.ok_dhtEntryAlloc h
  added := by simp [dhtEntryAlloc]
  disjoint := by simp [dhtEntryAlloc]

/-- An update keeps the table in this shape. -/
theorem store (h : TableAfter qOdsc adds de) {odsc : ObjDesc} (hadds : AddsOk qOdsc (adds ++ [odsc])) :
    TableAfter qOdsc (adds ++ [odsc]) (de.store odsc) where
  ok := h.ok.store odsc
  added := by
    intro n s hs
    rcases h.ok.mem_store.1 hs with ⟨rfl, -⟩ | ⟨hs, -⟩
    · simp
    · exact List.mem_append_left _ (h.added n s hs)
  disjoint := by
    intro n n' s s' hs hs' hid hk hk'
    -- what is older than the new descriptor is disjoint from it
    have hnew : ∀ m s'', s'' ∈ de.odscHash m → SameKey s''.odsc qOdsc → SameKey odsc qOdsc →
        Disjoint s''.odsc.bb.cells odsc.bb.cells := fun m s'' hs'' =>
      (List.pairwise_append.1 hadds.disjoint).2.2 _ (h.added m s'' hs'') odsc (by simp)
    rcases h.ok.mem_store.1 hs with ⟨rfl, -⟩ | ⟨hs, -⟩
    · rcases h.ok.mem_store.1 hs' with ⟨rfl, -⟩ | ⟨hs', -⟩
      · exact absurd rfl hid
      · exact (hnew n' s' hs' hk' hk).symm
    · rcases h.ok.mem_store.1 hs' with ⟨rfl, -⟩ | ⟨hs', -⟩
      · exact hnew n s hs hk hk'
      · exact h.disjoint n n' s s' hs hs' hid hk hk'

theorem mem_found {s : Slot} : s ∈ de.found qOdsc ↔
    s ∈ de.odscHash (de.index qOdsc) ∧ objDescEqualsIntersect s.odsc qOdsc = true :=
  List.mem_filter

theorem sameKey_of_match {odsc : ObjDesc} (h : objDescEqualsIntersect odsc qOdsc = true) :
    SameKey odsc qOdsc := by
  rcases objDescEqualsIntersect_iff.1 h with ⟨hname, hver, -⟩
  exact ⟨hname, hver⟩

/-- The nodes that match the query are in order. -/
theorem separate (h : TableAfter qOdsc adds de) (hadds : AddsOk qOdsc adds) : de.Separate qOdsc where
  valid s hs := by
    rcases mem_found.1 hs with ⟨hs, hm⟩
    exact hadds.valid _ (h.added _ s hs) (sameKey_of_match hm)
  dims s hs := by
    rcases mem_found.1 hs with ⟨hs, hm⟩
    exact hadds.dims _ (h.added _ s hs) (sameKey_of_match hm)
  apart := by
    have hids : ((de.found qOdsc).map Slot.id).Nodup :=
      (h.ok.unique _).sublist (List.filter_sublist.map _)
    rw [List.Nodup, List.pairwise_map] at hids
    refine List.Pairwise.imp_of_mem ?_ hids
    intro s s' hs hs' hid
    rcases mem_found.1 hs with ⟨hs, hm⟩
    rcases mem_found.1 hs' with ⟨hs', hm'⟩
    exact h.disjoint _ _ s s' hs hs' hid (sameKey_of_match hm) (sameKey_of_match hm')

theorem found_nodup (h : TableAfter qOdsc adds de) : ((de.found qOdsc).map Slot.id).Nodup :=
  (h.ok.unique _).sublist (List.filter_sublist.map _)

/-- Two tables that differ in their subscriptions only. -/
theorem congr {de' : DhtTable} (h : TableAfter qOdsc adds de) (hsize : de'.odscSize = de.odscSize)
    (hhash : de'.odscHash = de.odscHash) (hfresh : de'.fresh = de.fresh) :
    TableAfter qOdsc adds de' where
  ok := h.ok.congr hsize hhash hfresh
  added := hhash ▸ h.added
  disjoint := hhash ▸ h.disjoint

end TableAfter

/-! ## One step -/

section Step

variable {count : BBox → Option Int64} {de : DhtTable}

/-- What an update does: it stores the descriptor, and notifies the subscriptions of its bin. -/
structure Added (count : BBox → Option Int64) (de : DhtTable) (odsc : ObjDesc)
    (notified : List (DhtSub × Bool)) (r : DhtTable × List DhtSub) : Prop where
  notify : (de.dhtSubs (de.index odsc)).mapM (DhtSub.notify count odsc (de.slotFor odsc)) =
    some notified
  size : r.1.odscSize = (de.store odsc).odscSize
  hash : r.1.odscHash = (de.store odsc).odscHash
  fresh : r.1.fresh = (de.store odsc).fresh
  subs : r.1.dhtSubs = Function.update de.dhtSubs (de.index odsc)
    ((notified.filter fun r => !r.2).map Prod.fst)
  completed : r.2 = (notified.filter fun r => r.2).map Prod.fst

theorem dhtAddEntry_cases {odsc : ObjDesc} {r : DhtTable × List DhtSub}
    (h : dhtAddEntry count de odsc = some r) : ∃ notified, Added count de odsc notified r := by
  simp only [dhtAddEntry] at h
  rcases Option.bind_eq_some_iff.1 h with ⟨notified, hnot, h⟩
  simp only [Option.pure_def, Option.some.injEq] at h
  subst h
  exact ⟨notified, hnot, rfl, rfl, rfl, rfl, rfl⟩

/-- A query leaves the nodes as they are. -/
theorem find_step {call : Nat} {q : ObjDesc} {r : DhtTable × List DhtSub}
    (h : (DhtEvent.find call q).step count de = some r) :
    r.1.odscSize = de.odscSize ∧ r.1.odscHash = de.odscHash ∧ r.1.fresh = de.fresh := by
  rcases Option.map_eq_some_iff.1 h with ⟨res, -, rfl⟩
  cases res with
  | done odscTab => exact ⟨rfl, rfl, rfl⟩
  | wait odscTab remaining => exact ⟨rfl, rfl, rfl⟩

/-- The nodes are in order after any step. -/
theorem DhtTable.Ok.step (h : de.Ok) {ev : DhtEvent} {r : DhtTable × List DhtSub}
    (hstep : ev.step count de = some r) : r.1.Ok := by
  cases ev with
  | add odsc =>
      rcases dhtAddEntry_cases hstep with ⟨notified, hr⟩
      exact (h.store odsc).congr hr.size hr.hash hr.fresh
  | find call q =>
      rcases find_step hstep with ⟨hsize, hhash, hfresh⟩
      exact h.congr hsize hhash hfresh

theorem isRun_dhtRun :
    Runs.IsRun (fun de (ev : DhtEvent) => (ev.step count de).map Prod.fst) (dhtRun count) where
  nil _ := rfl
  cons ev evs de := by
    rw [dhtRun, Option.bind_map]
    rfl

/-- The nodes are in order after any history. -/
theorem DhtTable.Ok.run (evs : List DhtEvent) :
    ∀ de de' : DhtTable, de.Ok → dhtRun count evs de = some de' → de'.Ok := by
  refine isRun_dhtRun.keeps (fun de ev de' h hstep => ?_) evs
  rcases Option.map_eq_some_iff.1 hstep with ⟨r, hr, rfl⟩
  exact h.step hr

/-- The descriptors after any step. -/
theorem TableAfter.step {qOdsc : ObjDesc} {adds : List ObjDesc} (h : TableAfter qOdsc adds de)
    {ev : DhtEvent} {r : DhtTable × List DhtSub} (hstep : ev.step count de = some r)
    (hadds : AddsOk qOdsc (adds ++ addsOf [ev])) : TableAfter qOdsc (adds ++ addsOf [ev]) r.1 := by
  cases ev with
  | add odsc =>
      rcases dhtAddEntry_cases hstep with ⟨notified, hr⟩
      exact (h.store hadds).congr hr.size hr.hash hr.fresh
  | find call q =>
      simp only [addsOf, List.append_nil]
      rcases find_step hstep with ⟨hsize, hhash, hfresh⟩
      exact h.congr hsize hhash hfresh

/-- The descriptors after a history. -/
theorem TableAfter.run {qOdsc : ObjDesc} (evs : List DhtEvent) :
    ∀ (adds : List ObjDesc) (de de' : DhtTable), TableAfter qOdsc adds de →
      AddsOk qOdsc (adds ++ addsOf evs) → dhtRun count evs de = some de' →
      TableAfter qOdsc (adds ++ addsOf evs) de' := by
  induction evs with
  | nil =>
      intro adds de de' h _ hrun
      cases hrun
      simpa [addsOf] using h
  | cons ev evs ih =>
      intro adds de de' h hadds hrun
      rcases Option.bind_eq_some_iff.1 hrun with ⟨r, hstep, hrun⟩
      have hsplit : adds ++ addsOf (ev :: evs) = (adds ++ addsOf [ev]) ++ addsOf evs := by
        rw [show ev :: evs = [ev] ++ evs from rfl, addsOf_append, List.append_assoc]
      rw [hsplit] at hadds ⊢
      exact ih _ r.1 de' (h.step hstep hadds.left) hadds hrun

/-! ## The subscription of one call -/

/-- The subscriptions of the call `me` in a bin. -/
def DhtTable.mine (de : DhtTable) (n me : Nat) : List DhtSub :=
  (de.dhtSubs n).filter fun sub => sub.call == me

/-- Running a partial map and filtering commute when the map keeps what is filtered by. -/
theorem mapM_filter {α β : Type} {f : α → Option β} {p : α → Bool} {r : β → Bool}
    (hp : ∀ a b, f a = some b → r b = p a) (l : List α) :
    ∀ l', l.mapM f = some l' → (l.filter p).mapM f = some (l'.filter r) := by
  induction l with
  | nil =>
      intro l' h
      cases h
      rfl
  | cons a l ih =>
      intro l' h
      rw [List.mapM_cons] at h
      rcases Option.bind_eq_some_iff.1 h with ⟨b, hb, h⟩
      rcases Option.bind_eq_some_iff.1 h with ⟨bs, hbs, h⟩
      cases h
      have htail := ih bs hbs
      by_cases hpa : p a = true
      · rw [List.filter_cons_of_pos hpa, List.filter_cons_of_pos (by rw [hp a b hb]; exact hpa),
          List.mapM_cons, hb, htail]
        rfl
      · rw [List.filter_cons_of_neg hpa, List.filter_cons_of_neg (by rw [hp a b hb]; exact hpa)]
        exact htail

theorem DhtSub.notify_call {odsc : ObjDesc} {slot : Nat} {sub : DhtSub} {r : DhtSub × Bool}
    (h : sub.notify count odsc slot = some r) : r.1.call = sub.call := by
  rw [DhtSub.notify] at h
  split at h
  · rcases Option.map_eq_some_iff.1 h with ⟨n, -, rfl⟩
    rfl
  · cases h
    rfl

/-- Updates in other bins leave the subscriptions of a bin alone. -/
theorem mine_add_of_ne {odsc : ObjDesc} {r : DhtTable × List DhtSub} {n me : Nat}
    (h : dhtAddEntry count de odsc = some r) (hn : de.index odsc ≠ n) :
    r.1.mine n me = de.mine n me := by
  rcases dhtAddEntry_cases h with ⟨notified, hr⟩
  rw [DhtTable.mine, DhtTable.mine, hr.subs, Function.update_of_ne (Ne.symm hn)]

/-- An update in the bin notifies the subscriptions of the call and nothing else happens to them. -/
theorem mine_add {odsc : ObjDesc} {r : DhtTable × List DhtSub} (me : Nat)
    (h : dhtAddEntry count de odsc = some r) :
    ∃ mine, (de.mine (de.index odsc) me).mapM (DhtSub.notify count odsc (de.slotFor odsc)) =
        some mine ∧
      r.1.mine (de.index odsc) me = (mine.filter fun r => !r.2).map Prod.fst ∧
      r.2.filter (fun sub => sub.call == me) = (mine.filter fun r => r.2).map Prod.fst := by
  rcases dhtAddEntry_cases h with ⟨notified, hr⟩
  have hcall : ∀ (sub : DhtSub) (r : DhtSub × Bool),
      sub.notify count odsc (de.slotFor odsc) = some r → (r.1.call == me) = (sub.call == me) :=
    fun sub r hsub => by rw [DhtSub.notify_call hsub]
  refine ⟨_, mapM_filter hcall _ _ hr.notify, ?_, ?_⟩
  · rw [DhtTable.mine, hr.subs, Function.update_self, List.filter_map, List.filter_filter,
      List.filter_filter]
    congr 1
    refine List.filter_congr fun x _ => ?_
    exact Bool.and_comm _ _
  · rw [hr.completed, List.filter_map, List.filter_filter, List.filter_filter]
    congr 1
    refine List.filter_congr fun x _ => ?_
    exact Bool.and_comm _ _

/-- A query of another call leaves the subscriptions of the call alone. -/
theorem mine_find {call : Nat} {q : ObjDesc} {r : DhtTable × List DhtSub} {n me : Nat}
    (h : (DhtEvent.find call q).step count de = some r) (hcall : call ≠ me) :
    r.1.mine n me = de.mine n me ∧ r.2 = [] := by
  rcases Option.map_eq_some_iff.1 h with ⟨res, -, rfl⟩
  cases res with
  | done odscTab => exact ⟨rfl, rfl⟩
  | wait odscTab remaining =>
      refine ⟨?_, rfl⟩
      simp only [dhtLocalSubscribe, DhtTable.mine, Function.update_apply]
      split
      · next hn => simp [hn, hcall]
      · rfl

theorem index_step {ev : DhtEvent} {r : DhtTable × List DhtSub} (h : ev.step count de = some r)
    (odsc : ObjDesc) : r.1.index odsc = de.index odsc := by
  cases ev with
  | add odsc' =>
      rcases dhtAddEntry_cases h with ⟨notified, hr⟩
      rw [DhtTable.index, DhtTable.index, hr.size, DhtTable.odscSize_store]
  | find call q =>
      rcases Option.map_eq_some_iff.1 h with ⟨res, -, rfl⟩
      cases res <;> rfl

theorem isSome_mapM_notify (htotal : ∀ bb, (count bb).isSome) (odsc : ObjDesc) (slot : Nat)
    (subs : List DhtSub) : (subs.mapM (DhtSub.notify count odsc slot)).isSome := by
  induction subs with
  | nil => rfl
  | cons sub subs ih =>
      have hsub : (sub.notify count odsc slot).isSome := by
        rw [DhtSub.notify]
        split
        · simpa using htotal _
        · rfl
      rcases Option.isSome_iff_exists.1 hsub with ⟨b, hb⟩
      rcases Option.isSome_iff_exists.1 ih with ⟨bs, hbs⟩
      rw [List.mapM_cons, hb, hbs]
      rfl

theorem isSome_dhtScan (htotal : ∀ bb, (count bb).isSome) (q : ObjDesc) (odscs : List Slot) :
    ∀ numElem : Int64, (dhtScan count q odscs numElem).isSome := by
  induction odscs with
  | nil =>
      intro numElem
      rfl
  | cons s odscs ih =>
      intro numElem
      rw [dhtScan]
      split
      · rcases Option.isSome_iff_exists.1 (htotal (bboxIntersect q.bb s.odsc.bb)) with ⟨n, hn⟩
        rcases Option.isSome_iff_exists.1 (ih (numElem - n)) with ⟨t, ht⟩
        rw [hn]
        simp [ht]
      · exact ih numElem

/-- When every count returns, every step returns. -/
theorem step_isSome (htotal : ∀ bb, (count bb).isSome) (ev : DhtEvent) (de : DhtTable) :
    (ev.step count de).isSome := by
  cases ev with
  | add odsc =>
      rcases Option.isSome_iff_exists.1 (isSome_mapM_notify htotal odsc (de.slotFor odsc)
        (de.dhtSubs (de.index odsc))) with ⟨notified, hnot⟩
      simp only [DhtEvent.step, dhtAddEntry, hnot]
      rfl
  | find call q =>
      rcases Option.isSome_iff_exists.1 (htotal q.bb) with ⟨numElem, hnum⟩
      rcases Option.isSome_iff_exists.1 (isSome_dhtScan htotal q (de.odscHash (de.index q)) numElem) with
        ⟨t, ht⟩
      simp only [DhtEvent.step, dhtFindEntryAll, hnum, Option.bind_eq_bind, Option.bind_some, ht,
        Option.isSome_map]
      split <;> rfl

end Step

end DataSpaces
