import DataSpaces.DhtTable

/-!
# Coherence — the table of descriptors against the local storage

On a server that is alone in its space every put adds the object to the local storage and its
descriptor to the table of the server's own entry (`put_rpc`, `obj_update_dht`).  Both make room by
dropping one older object or descriptor of the same name that intersects the new one: the storage
takes the first in a list where new objects come first, the table the first in a list where a
descriptor is overwritten in place.  The results say what follows: the table keeps describing only
stored objects exactly as long as the two victims agree.
-/

namespace DataSpaces

/-- The local storage and the table of one server. -/
structure Node where
  ls : SsStorage
  de : DhtTable

namespace Node

def init (maxVersions : Nat) : Node :=
  ⟨lsAlloc maxVersions, dhtEntryAlloc maxVersions⟩

section Run

variable (count : BBox → Option Int64)

/-- One put: `ls_add_obj`, then `dht_add_entry` of the same descriptor. -/
def put (nd : Node) (od : ObjData) : Option Node :=
  (dhtAddEntry count nd.de od.objDesc).map fun r => ⟨nd.ls.lsAddObj od, r.1⟩

/-- Puts processed one after the other. -/
def puts : List ObjData → Node → Option Node
  | [], nd => some nd
  | od :: ods, nd => (nd.put count od).bind (puts ods)

end Run

/-- Every descriptor in the table has a stored object of the same name, version and box. -/
def Coherent (nd : Node) : Prop :=
  ∀ n, ∀ s ∈ nd.de.odscHash n, ∃ od ∈ nd.ls.objHash n,
    objDescEqualsNoOwner s.odsc od.objDesc = true

/-- The same as a test on one bin. -/
def coherentBin (n : Nat) (nd : Node) : Bool :=
  (nd.de.odscHash n).all fun s =>
    (nd.ls.objHash n).any fun od => objDescEqualsNoOwner s.odsc od.objDesc

theorem Coherent.coherentBin {nd : Node} (h : nd.Coherent) (n : Nat) :
    nd.coherentBin n = true := by
  simpa [Node.coherentBin] using h n

/-- `get_rpc` finds an object for every descriptor that a query got from `dht_find_entry_all`. -/
def Answers (count : BBox → Option Int64) (d : Nat) (nd : Node) : Prop :=
  ∀ qOdsc timeout odscTab, qOdsc.bb.Valid → qOdsc.bb.numDims = d →
    dhtFindEntryAll count nd.de qOdsc timeout = some (.done odscTab) →
    ∀ id ∈ odscTab, ∀ odsc, nd.de.read id = some odsc →
      (nd.ls.lsFind (clipOdsc qOdsc odsc)).isSome

/-- The object that `ls_find_no_version` picks for the put has no descriptor in the table, or it is the
one that `dht_find_match` picks. -/
def SameVictim (nd : Node) (od : ObjData) : Prop :=
  ∀ victim, nd.ls.lsFindNoVersion od.objDesc = some victim →
    ∀ n, ∀ s ∈ nd.de.odscHash n, objDescEqualsNoOwner s.odsc victim.objDesc = true →
      nd.de.dhtFindMatch od.objDesc = some s

end Node

/-! ## Puts -/

/-- The puts of a run: valid boxes of one dimensionality, those of one name and version
disjoint. -/
structure PutsOk (d : Nat) (ods : List ObjData) : Prop where
  valid : ∀ od ∈ ods, od.objDesc.bb.Valid
  dims : ∀ od ∈ ods, od.objDesc.bb.numDims = d
  disjoint : ods.Pairwise fun od od' =>
    od.objDesc.name = od'.objDesc.name → od.objDesc.version = od'.objDesc.version →
      Disjoint od.objDesc.bb.cells od'.objDesc.bb.cells

/-- No object of such puts has the name, version and box of another. -/
theorem PutsOk.ne_of_append {d : Nat} {done rest : List ObjData} {od old : ObjData}
    (h : PutsOk d (done ++ od :: rest)) (hold : old ∈ done) :
    ¬ objDescEqualsNoOwner old.objDesc od.objDesc = true := by
  intro heq
  rcases objDescEqualsNoOwner_iff.1 heq with ⟨hver, hname, hbb⟩
  have hdis := (List.pairwise_append.1 h.disjoint).2.2 old hold od (by simp) hname hver
  rw [cells_eq_of_bboxEquals hbb, disjoint_self, Finset.bot_eq_empty] at hdis
  have hne := (h.valid od (by simp)).cells_nonempty
  rw [hdis] at hne
  exact Finset.not_nonempty_empty hne

theorem objDescEqualsNoOwner_symm {o o' : ObjDesc} (h : objDescEqualsNoOwner o o' = true) :
    objDescEqualsNoOwner o' o = true := by
  rcases objDescEqualsNoOwner_iff.1 h with ⟨hver, hname, hbb⟩
  exact objDescEqualsNoOwner_iff.2 ⟨hver.symm, hname.symm, bboxEquals_symm hbb⟩

theorem objDescEqualsNoOwner_trans {o o' o'' : ObjDesc} (h : objDescEqualsNoOwner o o' = true)
    (h' : objDescEqualsNoOwner o' o'' = true) : objDescEqualsNoOwner o o'' = true := by
  rcases objDescEqualsNoOwner_iff.1 h with ⟨hver, hname, hbb⟩
  rcases objDescEqualsNoOwner_iff.1 h' with ⟨hver', hname', hbb'⟩
  exact objDescEqualsNoOwner_iff.2
    ⟨hver.trans hver', hname.trans hname', bboxEquals_trans hbb hbb'⟩

/-! ## What holds after any puts -/

section PutFields

variable {done : List ObjData}

/-- What is stored was put, also after one more put. -/
theorem SsStorage.stored_lsAddObj {ls : SsStorage} (h : ∀ n, ∀ od ∈ ls.objHash n, od ∈ done) (od : ObjData) :
    ∀ n, ∀ od' ∈ (ls.lsAddObj od).objHash n, od' ∈ done ++ [od] := by
  intro n od' hod'
  rw [SsStorage.objHash_lsAddObj] at hod'
  split at hod'
  · rcases List.mem_cons.1 hod' with rfl | hold
    · exact List.mem_append_right done List.mem_cons_self
    · exact List.mem_append_left [od] (h n od' (List.mem_of_mem_eraseP hold))
  · exact List.mem_append_left [od] (h n od' hod')

/-- What is described was put, also after one more put. -/
theorem DhtTable.Ok.described_store {de : DhtTable} (hok : de.Ok)
    (h : ∀ n, ∀ s ∈ de.odscHash n, ∃ od ∈ done, s.odsc = od.objDesc) (od : ObjData) :
    ∀ n, ∀ s ∈ (de.store od.objDesc).odscHash n, ∃ od' ∈ done ++ [od], s.odsc = od'.objDesc := by
  intro n s hs
  rcases hok.mem_store.1 hs with ⟨rfl, -⟩ | ⟨hs, -⟩
  · exact ⟨od, List.mem_append_right done List.mem_cons_self, rfl⟩
  · obtain ⟨od', hod', heq⟩ := h n s hs
    exact ⟨od', List.mem_append_left [od] hod', heq⟩

end PutFields

/-- The state of the server after the puts `done`: what is stored and described was put, and no two
stored objects have the same name, version and box. -/
structure Node.After (d maxVersions : Nat) (done : List ObjData) (nd : Node) : Prop where
  sizes : nd.ls.sizeHash = maxVersions ∧ nd.de.odscSize = maxVersions
  binned : nd.ls.Binned
  ok : nd.de.Ok
  noSubs : ∀ n, nd.de.dhtSubs n = []
  stored : ∀ n, ∀ od ∈ nd.ls.objHash n, od ∈ done
  described : ∀ n, ∀ s ∈ nd.de.odscHash n, ∃ od ∈ done, s.odsc = od.objDesc
  distinct : ∀ n, (nd.ls.objHash n).Pairwise fun od od' =>
    ¬ objDescEqualsNoOwner od.objDesc od'.objDesc = true

namespace Node.After

variable {d maxVersions : Nat} {done rest : List ObjData} {nd : Node} {od : ObjData}

theorem init (h : 0 < maxVersions) : Node.After d maxVersions [] (Node.init maxVersions) where
  sizes := ⟨rfl, rfl⟩
  binned := SsStorage.binned_lsAlloc maxVersions
  ok := DhtTable.ok_dhtEntryAlloc h
  noSubs := fun _ => rfl
  stored := by simp [Node.init, lsAlloc]
  described := by simp [Node.init, dhtEntryAlloc]
  distinct := by simp [Node.init, lsAlloc]

theorem index_eq (h : Node.After d maxVersions done nd) (odsc : ObjDesc) :
    nd.ls.index odsc = nd.de.index odsc := by
  rw [SsStorage.index, DhtTable.index, h.sizes.1, h.sizes.2]

/-- A put always returns. -/
theorem put_eq (h : Node.After d maxVersions done nd) (count : BBox → Option Int64) :
    nd.put count od = some ⟨nd.ls.lsAddObj od, nd.de.store od.objDesc⟩ := by
  rw [Node.put, dhtAddEntry_of_no_subs count (h.noSubs _)]
  rfl

/-- What one put preserves. -/
theorem step (h : Node.After d maxVersions done nd) (hputs : PutsOk d (done ++ od :: rest)) :
    Node.After d maxVersions (done ++ [od]) ⟨nd.ls.lsAddObj od, nd.de.store od.objDesc⟩ where
  sizes := by simpa using h.sizes
  binned := h.binned.lsAddObj od
  ok := h.ok.store od.objDesc
  noSubs := by
    intro n
    rw [DhtTable.dhtSubs_store]
    exact h.noSubs n
  stored := SsStorage.stored_lsAddObj h.stored od
  described := h.ok.described_store h.described od
  distinct := by
    intro n
    rw [SsStorage.objHash_lsAddObj]
    split
    · refine List.pairwise_cons.2 ⟨fun old hold heq => ?_, ?_⟩
      · -- an older object with the box of the new one was put before it
        have hmem := h.stored n old (List.mem_of_mem_eraseP hold)
        exact hputs.ne_of_append hmem (objDescEqualsNoOwner_symm heq)
      · exact (h.distinct n).sublist List.eraseP_sublist
    · exact h.distinct n

/-- What eviction leaves of a bin: everything but the first intersecting object. -/
theorem eraseP_cases {p : ObjData → Bool} {l : List ObjData} {victim : ObjData}
    (hfind : l.find? p = some victim) :
    ∃ l₁ l₂, l = l₁ ++ victim :: l₂ ∧ l.eraseP p = l₁ ++ l₂ := by
  rcases List.find?_eq_some_iff_append.1 hfind with ⟨hp, l₁, l₂, rfl, hl₁⟩
  refine ⟨l₁, l₂, rfl, ?_⟩
  rw [List.eraseP_append_right _ (by simpa using hl₁), List.eraseP_cons_of_pos hp]

/-- One put keeps the table coherent exactly when both victims agree. -/
theorem coherent_step_iff (h : Node.After d maxVersions done nd)
    (hputs : PutsOk d (done ++ od :: rest)) (hco : nd.Coherent) :
    Node.Coherent ⟨nd.ls.lsAddObj od, nd.de.store od.objDesc⟩ ↔ nd.SameVictim od := by
  have hindex := h.index_eq od.objDesc
  constructor
  · intro hco' victim hvictim n s hs hsv
    by_contra hmatch
    -- `s` stays in the table, so some stored object must have its name, version and box
    have hid : s.id ≠ nd.de.slotFor od.objDesc :=
      fun hid => hmatch (h.ok.bin_of_slotFor hs hid).2
    rcases hco' n s (h.ok.mem_store.2 (Or.inr ⟨hs, hid⟩)) with ⟨o, ho, hso⟩
    have hvmem := List.mem_of_find?_eq_some hvictim
    have hbin : n = nd.ls.index od.objDesc := by
      rcases objDescEqualsNoOwner_iff.1 hsv with ⟨hver, -, -⟩
      have hvidx := h.binned _ victim hvmem
      rw [← h.ok.binned n s hs, ← hvidx, DhtTable.index, SsStorage.index, hver, h.sizes.1,
        h.sizes.2]
    subst hbin
    have hov := objDescEqualsNoOwner_trans (objDescEqualsNoOwner_symm hsv) hso
    rw [SsStorage.objHash_lsAddObj, if_pos rfl] at ho
    rcases List.mem_cons.1 ho with rfl | ho
    · exact hputs.ne_of_append (h.stored _ victim hvmem) hov
    · -- the victim is gone, and no other object equals it
      rcases eraseP_cases hvictim with ⟨l₁, l₂, hl, herase⟩
      have hdist := h.distinct (nd.ls.index od.objDesc)
      rw [hl, List.pairwise_append, List.pairwise_cons] at hdist
      rw [herase] at ho
      rcases List.mem_append.1 ho with ho | ho
      · exact hdist.2.2 o ho victim (by simp) (objDescEqualsNoOwner_symm hov)
      · exact hdist.2.1.1 o ho hov
  · intro hsame n s hs
    rcases h.ok.mem_store.1 hs with ⟨rfl, hn⟩ | ⟨hs, hid⟩
    · refine ⟨od, ?_, objDescEqualsNoOwner_iff.2 ⟨rfl, rfl, bboxEquals_refl _⟩⟩
      rw [SsStorage.objHash_lsAddObj, if_pos (hn.trans hindex.symm)]
      exact List.mem_cons_self
    · rcases hco n s hs with ⟨o, ho, hso⟩
      by_cases hn : n = nd.ls.index od.objDesc
      · subst hn
        rw [SsStorage.objHash_lsAddObj, if_pos rfl]
        cases hvictim : nd.ls.lsFindNoVersion od.objDesc with
        | none =>
            refine ⟨o, List.mem_cons_of_mem _ ?_, hso⟩
            rw [List.eraseP_of_forall_not fun a ha => ?_]
            · exact ho
            · exact List.find?_eq_none.1 hvictim a ha
        | some victim =>
            rcases eraseP_cases hvictim with ⟨l₁, l₂, hl, herase⟩
            rw [hl] at ho
            rw [herase]
            rcases List.mem_append.1 ho with ho | ho
            · exact ⟨o, List.mem_cons_of_mem _ (List.mem_append_left _ ho), hso⟩
            · rcases List.mem_cons.1 ho with rfl | ho
              · -- the object of `s` is evicted, so `s` itself is overwritten
                have hmatch := hsame _ hvictim _ s hs hso
                refine absurd ?_ hid
                simp only [DhtTable.slotFor, hmatch]
              · exact ⟨o, List.mem_cons_of_mem _ (List.mem_append_right _ ho), hso⟩
      · refine ⟨o, ?_, hso⟩
        rw [SsStorage.objHash_lsAddObj, if_neg hn]
        exact ho

/-- In a coherent node every descriptor that a query gets leads to an object. -/
theorem answers_of_coherent (h : Node.After d maxVersions done nd) (hputs : PutsOk d done)
    (hco : nd.Coherent) (count : BBox → Option Int64) : nd.Answers count d := by
  intro qOdsc timeout odscTab hq hqd hfind id hid odsc hread
  -- the nodes that are handed out match the query
  have hslot : ∃ s ∈ nd.de.odscHash (nd.de.index qOdsc), s.id = id ∧
      objDescEqualsIntersect s.odsc qOdsc = true := by
    simp only [dhtFindEntryAll] at hfind
    rcases Option.bind_eq_some_iff.1 hfind with ⟨numElem, -, hfind⟩
    rcases Option.bind_eq_some_iff.1 hfind with ⟨r, hscan, hfind⟩
    have htab : odscTab = r.1 ∨ odscTab = [] := by
      simp only [Option.pure_def] at hfind
      split at hfind <;> split at hfind <;> simp_all
    have hmem : id ∈ r.1 := by
      rcases htab with rfl | rfl
      · exact hid
      · simp at hid
    rw [dhtScan_eq_filter _ _ _ hscan] at hmem
    rcases List.mem_map.1 hmem with ⟨s, hs, hsid⟩
    rcases List.mem_filter.1 hs with ⟨hs, hsq⟩
    exact ⟨s, hs, hsid, hsq⟩
  rcases hslot with ⟨s, hs, rfl, hsq⟩
  rcases (h.ok.read_eq_some).1 hread with ⟨n, hmem⟩
  have hsodsc : s.odsc = odsc := by rw [h.ok.eq_of_id hs hmem rfl]
  rcases hco _ s hs with ⟨o, ho, hso⟩
  rcases objDescEqualsIntersect_iff.1 hsq with ⟨hname, hver, hmeet⟩
  rcases objDescEqualsNoOwner_iff.1 hso with ⟨hover, honame, hobb⟩
  rcases h.described _ s hs with ⟨put, hput, hsput⟩
  have hsv : s.odsc.bb.Valid := hsput ▸ hputs.valid put hput
  have hsd : s.odsc.bb.numDims = d := hsput ▸ hputs.dims put hput
  -- the part of the descriptor inside the query lies in the box of the stored object
  rcases (bboxDoesIntersect_iff hsv hq (hsd.trans hqd.symm)).1 hmeet with ⟨x, hx⟩
  rw [Finset.mem_inter] at hx
  have hxclip : x ∈ (bboxIntersect qOdsc.bb s.odsc.bb).cells := by
    rw [bboxIntersect_cells (hqd.trans hsd.symm), Finset.mem_inter]
    exact ⟨hx.2, hx.1⟩
  have hxo : x ∈ o.objDesc.bb.cells := by
    rw [← cells_eq_of_bboxEquals hobb]
    exact hx.1
  have hod : o.objDesc.bb.numDims = d := by
    rw [← (bboxEquals_iff.1 hobb).1]
    exact hsd
  have hclip : bboxDoesIntersect (bboxIntersect qOdsc.bb s.odsc.bb) o.objDesc.bb = true :=
    bboxDoesIntersect_of_mem (hqd.trans hod.symm) hq.dims hxclip hxo
  have hindex : nd.ls.index (clipOdsc qOdsc odsc) = nd.de.index qOdsc := by
    rw [h.index_eq, DhtTable.index, DhtTable.index, ← hver, hsodsc]
    rfl
  rw [SsStorage.lsFind, hindex, List.find?_isSome]
  refine ⟨o, ho, objDescEqualsIntersect_iff.2 ⟨?_, ?_, ?_⟩⟩
  · rw [← honame, hsodsc]
    rfl
  · rw [← hover, hsodsc]
    rfl
  · rw [← hsodsc]
    exact hclip

/-- What whole sequences of puts preserve. -/
theorem puts (count : BBox → Option Int64) (ods : List ObjData) :
    ∀ (done : List ObjData) (nd : Node), Node.After d maxVersions done nd →
      PutsOk d (done ++ ods) →
      ∃ nd', nd.puts count ods = some nd' ∧ Node.After d maxVersions (done ++ ods) nd' := by
  induction ods with
  | nil =>
      intro done nd h _
      exact ⟨nd, rfl, by simpa using h⟩
  | cons od ods ih =>
      intro done nd h hputs
      have hnext := h.step hputs
      rcases ih (done ++ [od]) _ hnext (by simpa using hputs) with ⟨nd', hrun, hafter⟩
      refine ⟨nd', ?_, by simpa using hafter⟩
      rw [Node.puts, h.put_eq count]
      exact hrun

/-- Agreeing victims at every put keep the table coherent to the end. -/
theorem coherent_puts (count : BBox → Option Int64) (ods : List ObjData) :
    ∀ (done : List ObjData) (nd : Node), Node.After d maxVersions done nd → nd.Coherent →
      PutsOk d (done ++ ods) →
      (∀ before od after nd', ods = before ++ od :: after →
        nd.puts count before = some nd' → nd'.SameVictim od) →
      ∀ nd', nd.puts count ods = some nd' → nd'.Coherent := by
  induction ods with
  | nil =>
      intro done nd _ hco _ _ nd' hrun
      cases hrun
      exact hco
  | cons od ods ih =>
      intro done nd h hco hputs hsame nd' hrun
      have hfirst := hsame [] od ods nd rfl rfl
      rw [Node.puts, h.put_eq count] at hrun
      refine ih (done ++ [od]) _ (h.step hputs) ((h.coherent_step_iff hputs hco).2 hfirst)
        (by simpa using hputs) ?_ nd' hrun
      -- a later put of the rest is a later put of the whole
      intro before od' after nd'' hsplit hbefore
      refine hsame (od :: before) od' after nd'' (by rw [hsplit]; rfl) ?_
      rw [Node.puts, h.put_eq count]
      exact hbefore

end Node.After

theorem Node.puts_append (count : BBox → Option Int64) (ods ods' : List ObjData) :
    ∀ nd : Node, nd.puts count (ods ++ ods') = (nd.puts count ods).bind (Node.puts count ods') := by
  induction ods with
  | nil =>
      intro nd
      rfl
  | cons od ods ih =>
      intro nd
      simp only [List.cons_append, Node.puts]
      cases nd.put count od with
      | none => rfl
      | some nd' => exact ih nd'

/-- After every put each descriptor of the table has its object in the storage, so that no query is
sent to an object that is gone, exactly when at every put the object the storage evicts has no
descriptor or the one the table overwrites. -/
theorem puts_coherent_iff (count : BBox → Option Int64) {d maxVersions : Nat}
    (hversions : 0 < maxVersions) {ods : List ObjData} (hputs : PutsOk d ods) :
    (∀ done rest, ods = done ++ rest →
      ∃ nd, (Node.init maxVersions).puts count done = some nd ∧ nd.Coherent ∧
        nd.Answers count d) ↔
    ∀ done od rest nd, ods = done ++ od :: rest →
      (Node.init maxVersions).puts count done = some nd → nd.SameVictim od := by
  have hinit : Node.After d maxVersions [] (Node.init maxVersions) := Node.After.init hversions
  have hbegin : ∀ done rest, ods = done ++ rest → PutsOk d done := by
    rintro done rest rfl
    exact ⟨fun od hod => hputs.valid od (by simp [hod]), fun od hod => hputs.dims od (by simp [hod]),
      (List.pairwise_append.1 hputs.disjoint).1⟩
  constructor
  · intro hall done od rest nd hsplit hrun
    rcases hall done (od :: rest) hsplit with ⟨nd', hrun', hco, -⟩
    rw [hrun, Option.some.injEq] at hrun'
    subst hrun'
    rcases hinit.puts count done [] _ (hbegin done _ hsplit) with ⟨nd', hrun', hafter⟩
    rw [hrun, Option.some.injEq] at hrun'
    subst hrun'
    -- the state after the put is coherent too
    rcases hall (done ++ [od]) rest (by rw [hsplit]; simp) with ⟨nd', hnext, hco', -⟩
    rw [Node.puts_append, hrun] at hnext
    simp only [Option.bind_some, Node.puts, List.nil_append] at hafter hnext
    rw [hafter.put_eq count] at hnext
    cases hnext
    exact (hafter.coherent_step_iff (hsplit ▸ hputs) hco).1 hco'
  · intro hsame done rest hsplit
    have hdone := hbegin done rest hsplit
    rcases hinit.puts count done [] _ hdone with ⟨nd, hrun, hafter⟩
    have hco : nd.Coherent := by
      refine hinit.coherent_puts count done [] _ (by simp [Node.init, Node.Coherent, dhtEntryAlloc])
        hdone ?_ nd hrun
      intro before od after nd' hbefore hrun'
      exact hsame before od (after ++ rest) nd' (by rw [hsplit, hbefore]; simp) hrun'
    exact ⟨nd, hrun, hco, hafter.answers_of_coherent hdone hco count⟩

/-- An object without content, for concrete runs. -/
def plainObj (version : UInt32) (bb : BBox) : ObjData where
  objDesc := plainDesc version bb
  gdim := ⟨1, Coord.ofFn fun _ => 0⟩
  data := fun _ => 0

/-- Two versions in one bin with a changing decomposition: version 1 in halves, version 2 of the lower
half, version 3 of the whole. -/
def changingPuts : List ObjData :=
  [plainObj 1 (BBox.line 0 0), plainObj 1 (BBox.line 1 1), plainObj 2 (BBox.line 0 0),
    plainObj 3 (BBox.line 0 1)]

theorem putsOk_changingPuts : PutsOk 1 changingPuts where
  valid := by
    intro od hod
    simp only [changingPuts, List.mem_cons, List.not_mem_nil, or_false] at hod
    rcases hod with rfl | rfl | rfl | rfl <;> exact BBox.line_valid (by decide)
  dims := by
    intro od hod
    simp only [changingPuts, List.mem_cons, List.not_mem_nil, or_false] at hod
    rcases hod with rfl | rfl | rfl | rfl <;> rfl
  disjoint := by
    have hhalves : Disjoint (BBox.line 0 0).cells (BBox.line 1 1).cells :=
      disjoint_of_bboxDoesIntersect (BBox.line_valid (by decide)).dims rfl (by decide)
    simp [changingPuts, plainObj, plainDesc, hhalves]

/-- The last put evicts the object of version 2 and overwrites the descriptor of version 1, so that
the descriptor of version 2 is left without an object. -/
theorem puts_not_coherent :
    PutsOk 1 changingPuts ∧
    ¬ ∀ done rest, changingPuts = done ++ rest →
      ∃ nd, (Node.init 1).puts (fun _ => some 0) done = some nd ∧ nd.Coherent ∧
        nd.Answers (fun _ => some 0) 1 := by
  refine ⟨putsOk_changingPuts, fun hall => ?_⟩
  rcases hall changingPuts [] (by simp) with ⟨nd, hrun, hco, -⟩
  have hbin : ((Node.init 1).puts (fun _ => some 0) changingPuts).map (Node.coherentBin 0) =
      some false := by
    decide +kernel
  rw [hrun, Option.map_some, hco.coherentBin 0] at hbin
  cases hbin

/-- The condition for these puts. -/
theorem puts_coherent_iff_changingPuts :
    (∀ done rest, changingPuts = done ++ rest →
      ∃ nd, (Node.init 1).puts (fun _ => some 0) done = some nd ∧ nd.Coherent ∧
        nd.Answers (fun _ => some 0) 1) ↔
    ∀ done od rest nd, changingPuts = done ++ od :: rest →
      (Node.init 1).puts (fun _ => some 0) done = some nd → nd.SameVictim od :=
  puts_coherent_iff (fun _ => some 0) (by decide) putsOk_changingPuts

end DataSpaces
