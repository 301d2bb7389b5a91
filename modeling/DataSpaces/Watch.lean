import DataSpaces.DhtEvents

/-!
# Watch — following one blocking query

A blocking query (`dht_find_entry_all` with timeout `-1` on `ent_self`) scans the table and, when cells
are missing, waits on a subscription that later updates fill.  `Watch` follows one such query from its
scan on: the table, the nodes that matching updates were stored in while the query waited, and its
subscription once it is complete.  The call then returns the nodes of the scan and those of the
subscription.

All that a step can do to the query is said once (`Watch.step_cases`); what holds of the query in every
run is derived from it with `Watch.run_keeps`.
-/

namespace DataSpaces

/-- A table with one blocking query under watch; `pub` has the latest update first. -/
structure Watch where
  de : DhtTable
  pub : List Slot
  fin : List DhtSub

section Run

variable (count : BBox → Option Int64) (me : Nat) (qOdsc : ObjDesc)

/-- The subscriptions of the query in the bin of its version. -/
def Watch.subs (w : Watch) : List DhtSub :=
  w.de.mine (w.de.index qOdsc) me

def Watch.step (w : Watch) (ev : DhtEvent) : Option Watch :=
  (ev.step count w.de).map fun r =>
    { de := r.1
      pub := match ev with
        | .add odsc =>
            if !(w.subs me qOdsc).isEmpty && objDescEqualsIntersect odsc qOdsc then
              ⟨w.de.slotFor odsc, odsc⟩ :: w.pub
            else w.pub
        | .find _ _ => w.pub
      fin := w.fin ++ r.2.filter fun sub => sub.call == me }

def Watch.run : List DhtEvent → Watch → Option Watch
  | [], w => some w
  | ev :: evs, w => (w.step count me qOdsc ev).bind (Watch.run evs)

end Run

/-- The query as it starts to wait. -/
def Watch.start (de : DhtTable) (me : Nat) (qOdsc : ObjDesc) (remaining : Int64) : Watch where
  de := dhtLocalSubscribe de me qOdsc remaining
  pub := []
  fin := []

/-! ## All that a step does to the query -/

section Cases

variable {count : BBox → Option Int64} {me : Nat} {qOdsc : ObjDesc} {w w' : Watch}

/-- The subscription is the one of the query and has the nodes that were published to it. -/
structure Held (me : Nat) (qOdsc : ObjDesc) (pub : List Slot) (sub : DhtSub) : Prop where
  call : sub.call = me
  odsc : sub.odsc = qOdsc
  recv : sub.recvOdsc = pub.map Slot.id
  pubCount : sub.pubCount = sub.recvOdsc.length

/-- The query has one subscription: it waits on it, or the subscription is complete. -/
structure Watch.Linked (me : Nat) (qOdsc : ObjDesc) (w : Watch) (sub : DhtSub) (waiting : Bool) :
    Prop where
  elsewhere : ∀ n, n ≠ w.de.index qOdsc → w.de.mine n me = []
  held : Held me qOdsc w.pub sub
  subs : w.subs me qOdsc = if waiting then [sub] else []
  fin : w.fin = if waiting then [] else [sub]

/-- The subscription after a matching update. -/
def DhtSub.receive (sub : DhtSub) (slot : Nat) (n : Int64) : DhtSub :=
  { sub with
    recvOdsc := slot :: sub.recvOdsc
    pubCount := sub.pubCount + 1
    remaining := sub.remaining - n }

theorem DhtSub.wants_eq (sub : DhtSub) (odsc : ObjDesc) :
    sub.wants odsc = objDescEqualsIntersect odsc sub.odsc := by
  rw [Bool.eq_iff_iff, objDescEqualsIntersect_iff]
  simp only [DhtSub.wants, Bool.and_eq_true, beq_iff_eq]
  constructor
  · rintro ⟨⟨hbox, hname⟩, hversion⟩
    exact ⟨hname, hversion, hbox⟩
  · rintro ⟨hname, hversion, hbox⟩
    exact ⟨⟨hbox, hname⟩, hversion⟩

theorem DhtSub.notify_eq (sub : DhtSub) (odsc : ObjDesc) (slot : Nat) :
    sub.notify count odsc slot =
      if objDescEqualsIntersect odsc sub.odsc then
        (count (bboxIntersect odsc.bb sub.odsc.bb)).map fun n =>
          (sub.receive slot n, sub.remaining - n == 0)
      else some (sub, false) := by
  rw [DhtSub.notify, DhtSub.wants_eq]
  rfl

theorem index_eq_of_match {de : DhtTable} {odsc : ObjDesc}
    (h : objDescEqualsIntersect odsc qOdsc = true) : de.index odsc = de.index qOdsc := by
  rw [DhtTable.index, DhtTable.index, (objDescEqualsIntersect_iff.1 h).2.1]

theorem Held.receive {pub : List Slot} {sub : DhtSub} (h : Held me qOdsc pub sub) (slot : Nat)
    (odsc : ObjDesc) (n : Int64) : Held me qOdsc (⟨slot, odsc⟩ :: pub) (sub.receive slot n) where
  call := h.call
  odsc := h.odsc
  recv := by simp [DhtSub.receive, h.recv]
  pubCount := by simp [DhtSub.receive, h.pubCount]

/-- A step either passes the query by, or it is a matching update of a query that waits. -/
theorem Watch.step_cases {sub : DhtSub} {waiting : Bool} {ev : DhtEvent}
    (h : w.Linked me qOdsc sub waiting) (hstep : w.step count me qOdsc ev = some w')
    (hcall : ∀ call q, ev = .find call q → call ≠ me) :
    (w'.Linked me qOdsc sub waiting ∧ w'.pub = w.pub ∧
      ∀ odsc, ev = .add odsc → waiting = true → objDescEqualsIntersect odsc qOdsc = false) ∨
    ∃ odsc n, ev = .add odsc ∧ waiting = true ∧ objDescEqualsIntersect odsc qOdsc = true ∧
      count (bboxIntersect odsc.bb qOdsc.bb) = some n ∧
      w'.pub = ⟨w.de.slotFor odsc, odsc⟩ :: w.pub ∧
      w'.Linked me qOdsc (sub.receive (w.de.slotFor odsc) n) (!(sub.remaining - n == 0)) := by
  rcases Option.map_eq_some_iff.1 hstep with ⟨r, hr, rfl⟩
  have hindex := index_step hr qOdsc
  have hsubs := h.subs
  rw [Watch.subs] at hsubs
  cases ev with
  | find call q =>
      have hmine : ∀ n, r.1.mine n me = w.de.mine n me := fun n =>
        (mine_find hr (hcall call q rfl)).1
      have hfin : r.2 = [] := (mine_find (n := 0) hr (hcall call q rfl)).2
      refine Or.inl ⟨⟨?_, h.held, ?_, ?_⟩, rfl, by simp⟩
      · intro n hn
        rw [hmine]
        exact h.elsewhere n (by rwa [hindex] at hn)
      · simp only [Watch.subs, hindex, hmine, hsubs]
      · simp [hfin, h.fin]
  | add odsc =>
      rcases mine_add me hr with ⟨mine, hmap, hmine, hfin⟩
      have hother : ∀ n, n ≠ w.de.index odsc → r.1.mine n me = w.de.mine n me :=
        fun n hn => mine_add_of_ne hr (Ne.symm hn)
      by_cases hbin : w.de.index odsc = w.de.index qOdsc
      · rw [hbin, hsubs] at hmap
        have helse : ∀ n, n ≠ r.1.index qOdsc → r.1.mine n me = [] := by
          intro n hn
          rw [hindex] at hn
          rw [hother n (hbin ▸ hn)]
          exact h.elsewhere n hn
        cases waiting with
        | false =>
            -- the query is no longer subscribed
            have hnil : mine = [] := by simpa using hmap.symm
            subst hnil
            refine Or.inl ⟨⟨helse, ?_, ?_, ?_⟩, ?_, by simp⟩
            · simpa [Watch.subs, hsubs] using h.held
            · simpa [Watch.subs, hindex, hbin] using hmine
            · simpa [h.fin] using hfin
            · simp [Watch.subs, hsubs]
        | true =>
            simp only [if_true, List.mapM_cons, List.mapM_nil, DhtSub.notify_eq, h.held.odsc] at hmap
            by_cases hm : objDescEqualsIntersect odsc qOdsc = true
            · simp only [hm, if_true] at hmap
              rcases Option.bind_eq_some_iff.1 hmap with ⟨r₁, hr₁, hmap⟩
              rcases Option.map_eq_some_iff.1 hr₁ with ⟨n, hn, rfl⟩
              cases hmap
              refine Or.inr ⟨odsc, n, rfl, rfl, hm, hn, ?_, helse, ?_, ?_, ?_⟩
              · simp [Watch.subs, hsubs, hm]
              · simpa [Watch.subs, hsubs, hm] using h.held.receive (w.de.slotFor odsc) odsc n
              · rw [hbin] at hmine
                simp only [Watch.subs, hindex, hmine]
                cases sub.remaining - n == 0 <;> rfl
              · simp only [h.fin, if_true, List.nil_append, hfin]
                cases sub.remaining - n == 0 <;> rfl
            · simp only [hm, Bool.false_eq_true, if_false] at hmap
              cases hmap
              refine Or.inl ⟨⟨helse, ?_, ?_, ?_⟩, ?_, fun odsc' hodsc' _ => ?_⟩
              · simpa [hm] using h.held
              · rw [hbin] at hmine
                simp [Watch.subs, hindex, hmine]
              · simp [h.fin, hfin]
              · simp [hm]
              · cases hodsc'
                simpa using hm
      · -- an update in another bin
        have hm : objDescEqualsIntersect odsc qOdsc = false := by
          by_contra hne
          exact hbin (index_eq_of_match (by simpa using hne))
        rw [h.elsewhere _ hbin] at hmap
        have hnil : mine = [] := by simpa using hmap.symm
        subst hnil
        refine Or.inl ⟨⟨?_, ?_, ?_, ?_⟩, ?_, fun odsc' hodsc' _ => ?_⟩
        · intro n hn
          rw [hindex] at hn
          by_cases hn' : n = w.de.index odsc
          · subst hn'
            simpa using hmine
          · rw [hother n hn']
            exact h.elsewhere n hn
        · simpa [hm] using h.held
        · simp only [Watch.subs, hindex, hother _ (Ne.symm hbin), hsubs]
        · simp [h.fin, hfin]
        · simp [hm]
        · cases hodsc'
          exact hm

theorem Watch.linked_start {de : DhtTable} (hnone : ∀ n, de.mine n me = []) (remaining : Int64) :
    (Watch.start de me qOdsc remaining).Linked me qOdsc ⟨me, qOdsc, remaining, 0, []⟩ true where
  elsewhere := by
    intro n hn
    have hn' : n ≠ de.index qOdsc := hn
    have := hnone n
    simp only [DhtTable.mine] at this
    simp [Watch.start, dhtLocalSubscribe, DhtTable.mine, Function.update_of_ne hn', this]
  held := ⟨rfl, rfl, rfl, rfl⟩
  subs := by
    have := hnone (de.index qOdsc)
    simp only [DhtTable.mine] at this
    simp [Watch.start, Watch.subs, dhtLocalSubscribe, DhtTable.mine, DhtTable.index] at this ⊢
    simpa using this
  fin := rfl

end Cases

/-! ## Conditions on the steps of a run -/

section Along

variable (count : BBox → Option Int64) (me : Nat) (qOdsc : ObjDesc)

/-- Every step of the run starts from a state in which it is allowed. -/
def Watch.Along (allowed : Watch → DhtEvent → Prop) : List DhtEvent → Watch → Prop
  | [], _ => True
  | ev :: evs, w => allowed w ev ∧
      ∀ w', w.step count me qOdsc ev = some w' → Watch.Along allowed evs w'

variable {count me qOdsc}

/-- What every allowed step keeps holds after the run; `good` is what is known of the updates. -/
theorem Watch.run_keeps {allowed : Watch → DhtEvent → Prop} {inv : List ObjDesc → Watch → Prop}
    {good : List ObjDesc → Prop} (hgood : ∀ adds adds', good (adds ++ adds') → good adds)
    (hstep : ∀ (adds : List ObjDesc) (w w' : Watch) (ev : DhtEvent), inv adds w → allowed w ev →
      good (adds ++ addsOf [ev]) → (∀ call q, ev = .find call q → call ≠ me) →
      w.step count me qOdsc ev = some w' → inv (adds ++ addsOf [ev]) w')
    (evs : List DhtEvent) :
    ∀ (adds : List ObjDesc) (w w' : Watch), inv adds w → Watch.Along count me qOdsc allowed evs w →
      good (adds ++ addsOf evs) → OtherCalls me evs →
      w.run count me qOdsc evs = some w' → inv (adds ++ addsOf evs) w' := by
  induction evs with
  | nil =>
      intro adds w w' hinv _ _ _ hrun
      cases hrun
      simpa [addsOf] using hinv
  | cons ev evs ih =>
      intro adds w w' hinv halong hadds hcalls hrun
      rcases Option.bind_eq_some_iff.1 hrun with ⟨w₁, hw₁, hrun⟩
      -- the updates of the first event are counted before the others
      have hsplit : adds ++ addsOf (ev :: evs) = (adds ++ addsOf [ev]) ++ addsOf evs := by
        rw [show ev :: evs = [ev] ++ evs from rfl, addsOf_append, List.append_assoc]
      rw [hsplit] at hadds ⊢
      have hev : ∀ call q, ev = .find call q → call ≠ me := by
        rintro call q rfl
        exact hcalls call q (by simp)
      exact ih _ w₁ w' (hstep adds w w₁ ev hinv halong.1 (hgood _ _ hadds) hev hw₁)
        (halong.2 w₁ hw₁) hadds
        (fun call q hmem => hcalls call q (by simp [hmem])) hrun

theorem Watch.Along.left {allowed : Watch → DhtEvent → Prop} (evs evs' : List DhtEvent) :
    ∀ w : Watch, Watch.Along count me qOdsc allowed (evs ++ evs') w →
      Watch.Along count me qOdsc allowed evs w := by
  induction evs with
  | nil =>
      intro w _
      trivial
  | cons ev evs ih =>
      rintro w ⟨hev, hrest⟩
      exact ⟨hev, fun w' hw' => ih w' (hrest w' hw')⟩

end Along

/-! ## Before the query -/

section Before

variable {count : BBox → Option Int64} {me : Nat}

theorem mine_step_nil {de : DhtTable} {ev : DhtEvent} {r : DhtTable × List DhtSub}
    (h : ∀ n, de.mine n me = []) (hcall : ∀ call q, ev = .find call q → call ≠ me)
    (hstep : ev.step count de = some r) (n : Nat) : r.1.mine n me = [] := by
  cases ev with
  | find call q => rw [(mine_find hstep (hcall call q rfl)).1, h]
  | add odsc =>
      by_cases hn : de.index odsc = n
      · rcases mine_add me hstep with ⟨mine, hmap, hmine, -⟩
        rw [h] at hmap
        have hnil : mine = [] := by simpa using hmap.symm
        rw [← hn, hmine, hnil]
        rfl
      · rw [mine_add_of_ne hstep hn, h]

/-- A call that has not been made has no subscription. -/
theorem mine_run_nil (evs : List DhtEvent) :
    ∀ de de' : DhtTable, (∀ n, de.mine n me = []) → OtherCalls me evs →
      dhtRun count evs de = some de' → ∀ n, de'.mine n me = [] := by
  intro de de' h hcalls
  have hothers : ∀ ev ∈ evs, ∀ call q, ev = .find call q → call ≠ me := by
    rintro _ hev call q rfl
    exact hcalls call q hev
  refine isRun_dhtRun.keeps_along (P := fun de => ∀ n, de.mine n me = []) (fun de ev de' h hev hstep => ?_)
    evs de de' h (Runs.along_of_forall hothers de)
  rcases Option.map_eq_some_iff.1 hstep with ⟨r, hr, rfl⟩
  exact mine_step_nil h hev hr

theorem dhtRun_isSome (htotal : ∀ bb, (count bb).isSome) (evs : List DhtEvent) :
    ∀ de : DhtTable, (dhtRun count evs de).isSome := by
  refine isRun_dhtRun.isSome (fun de ev => ?_) evs
  rw [Option.isSome_map]
  exact step_isSome htotal ev de

theorem Watch.run_isSome (htotal : ∀ bb, (count bb).isSome) (qOdsc : ObjDesc) (evs : List DhtEvent) :
    ∀ w : Watch, (w.run count me qOdsc evs).isSome := by
  have hrun : Runs.IsRun (Watch.step count me qOdsc) (Watch.run count me qOdsc) :=
    ⟨fun _ => rfl, fun _ _ _ => rfl⟩
  refine hrun.isSome (fun w ev => ?_) evs
  simp only [Watch.step, Option.isSome_map]
  exact step_isSome htotal ev w.de

end Before

end DataSpaces
