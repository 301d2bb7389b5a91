import Mathlib.Data.List.Nodup
import Mathlib.Data.List.Perm.Basic
import DataSpaces.Lib.Runs
import DataSpaces.Metadata

/-!
# MetaNext — calls that wait for metadata (`meta_find_next_entry`, `ls_add_meta`)

`ls_add_meta` has two steps with other calls in between: it inserts the metadata and serves the calls
that wait for its version, under the mutex of the bin, and then it serves the calls that wait for any
version, under one more mutex.  That mutex is held by `meta_find_next_entry` from before its scan until
it waits.  So no post is missed (`next_not_missed`); but the second step looks only at the name, so a
call that waits may be given metadata that is not newer than what it has (`next_newer_iff`).
-/

namespace DataSpaces

/-- What a call asks for: one version, or anything after `curr`. -/
inductive MetaQuery where
  | entry (version : Int)
  | next (curr : Int)
  deriving DecidableEq

/-- A call of `meta_find_entry` or `meta_find_next_entry`; `result` is `none` while it waits. -/
structure MetaRead where
  call : Nat
  name : CStr
  query : MetaQuery
  result : Option (Option MetaData)
  deriving DecidableEq

/-- The storage, the `ls_add_meta` calls between their two steps, and the reading calls.  `received`
only records what was assigned to the subscription of which call. -/
structure MetaState where
  ls : MetaStore
  adding : List MetaData
  reads : List MetaRead
  received : List (Nat × MetaData)

inductive MetaEvent where
  | add (mdata : MetaData)
  | deliver (k : Nat)
  | next (name : CStr) (curr : Int) (wait : Bool)
  | entry (name : CStr) (version : Int) (wait : Bool)

namespace MetaState

def init (maxVersions : Nat) : MetaState where
  ls := metaAlloc maxVersions
  adding := []
  reads := []
  received := []

/-- The loop of `ls_add_meta` over a list of subscriptions: those that match are given the metadata and
leave the list. -/
def serve (s : MetaState) (index : Nat) (hit : MetaSub → Bool) (mdata : MetaData) : MetaState :=
  let subs := (s.ls.metaSubs index).filter hit
  { s with
    ls := { s.ls with
      metaSubs := Function.update s.ls.metaSubs index
        ((s.ls.metaSubs index).filter fun msub => !hit msub) }
    reads := s.reads.map fun r =>
      if subs.any fun msub => msub.call == r.call then { r with result := some (some mdata) } else r
    received := s.received ++ subs.map fun msub => (msub.call, mdata) }

/-- The first step of `ls_add_meta`. -/
def lsAddMeta (s : MetaState) (mdata : MetaData) : Option MetaState := do
  let found ← s.ls.lsFindMeta mdata.name mdata.intVersion
  match found with
  | some _ => return s
  | none =>
      let served := MetaState.serve { s with ls := s.ls.insert mdata } (s.ls.indexOf mdata)
        (fun msub => msub.name = mdata.name ∧ msub.version = mdata.intVersion) mdata
      return { served with adding := served.adding ++ [mdata] }

/-- The second step of `ls_add_meta`. -/
def lsAddMetaFinish (s : MetaState) (mdata : MetaData) : MetaState :=
  s.serve s.ls.sizeHash (fun msub => msub.name = mdata.name) mdata

/-- A call that has its result. -/
def answer (s : MetaState) (name : CStr) (query : MetaQuery) (mdata : Option MetaData) : MetaState :=
  { s with reads := s.reads ++ [⟨s.reads.length, name, query, some mdata⟩] }

/-- A call that waits: `ls_subscribe_meta` and `ls_subscribe_meta_no_version`. -/
def subscribe (s : MetaState) (name : CStr) (query : MetaQuery) (index : Nat) (version : Int) :
    MetaState :=
  { s with
    ls := { s.ls with
      metaSubs := Function.update s.ls.metaSubs index
        (⟨s.reads.length, version, name⟩ :: s.ls.metaSubs index) }
    reads := s.reads ++ [⟨s.reads.length, name, query, none⟩] }

/-- `meta_find_next_entry` up to the point where it returns or waits. -/
def metaFindNextEntry (s : MetaState) (name : CStr) (curr : Int) (wait : Bool) : Option MetaState := do
  let mdres ← s.ls.scanNext name curr
  if mdres.isSome ∨ wait = false then return s.answer name (.next curr) mdres
  else return s.subscribe name (.next curr) s.ls.sizeHash (-1)

/-- `meta_find_entry` up to the point where it returns or waits. -/
def metaFindEntry (s : MetaState) (name : CStr) (version : Int) (wait : Bool) : Option MetaState := do
  let index ← s.ls.index version
  let mdata ← s.ls.lsFindMeta name version
  if mdata.isSome ∨ wait = false then return s.answer name (.entry version) mdata
  else return s.subscribe name (.entry version) index version

def step (s : MetaState) : MetaEvent → Option MetaState
  | .add mdata => s.lsAddMeta mdata
  | .deliver k =>
      match s.adding[k]? with
      | none => some s
      | some mdata => some (lsAddMetaFinish { s with adding := s.adding.eraseIdx k } mdata)
  | .next name curr wait => s.metaFindNextEntry name curr wait
  | .entry name version wait => s.metaFindEntry name version wait

def run (s : MetaState) (es : List MetaEvent) : Option MetaState :=
  es.foldlM step s

end MetaState

/-! ## Calls and their subscriptions -/

/-- A call that waits for any version. -/
def MetaRead.Waits (curr : Int) (r : MetaRead) : Prop :=
  r.query = .next curr ∧ r.result = none

/-- The list of subscriptions that a call waits in. -/
def MetaStore.home (ls : MetaStore) : MetaQuery → Option Nat
  | .entry version => ls.index version
  | .next _ => some ls.sizeHash

/-- What a call looks for before it waits. -/
def MetaStore.lookup (ls : MetaStore) (name : CStr) : MetaQuery → Option (Option MetaData)
  | .entry version => ls.lsFindMeta name version
  | .next curr => ls.scanNext name curr

/-- The version in the subscription of a call. -/
def MetaQuery.subVersion : MetaQuery → Int
  | .entry version => version
  | .next _ => -1

namespace MetaState

/-- Calls are numbered in order, every call that waits has one subscription, in the list it waits in,
and what was served is not waiting. -/
structure Ok (s : MetaState) : Prop where
  size_pos : 0 < s.ls.sizeHash
  calls : s.reads.map MetaRead.call = List.range s.reads.length
  subs : ∀ n, ∀ msub ∈ s.ls.metaSubs n, ∃ r ∈ s.reads, r.call = msub.call ∧ r.name = msub.name ∧
    r.result = none ∧ s.ls.home r.query = some n
  waiting : ∀ r ∈ s.reads, r.result = none →
    ∃ n, s.ls.home r.query = some n ∧ ∃ msub ∈ s.ls.metaSubs n, msub.call = r.call
  distinct : ∀ n, ((s.ls.metaSubs n).map MetaSub.call).Nodup
  binned : ∀ n, ∀ mdata ∈ s.ls.metaHash n, n < s.ls.sizeHash
  served : ∀ p ∈ s.received, ∃ r ∈ s.reads, r.call = p.1 ∧ r.result ≠ none
  once : (s.received.map Prod.fst).Nodup

theorem ok_init {maxVersions : Nat} (h : 0 < maxVersions) : (init maxVersions).Ok where
  size_pos := h
  calls := rfl
  subs := by simp [init, metaAlloc]
  waiting := by simp [init]
  distinct := by simp [init, metaAlloc]
  binned := by simp [init, metaAlloc]
  served := by simp [init]
  once := by simp [init]

section Reads

variable {s : MetaState}

theorem Ok.call_lt (h : s.Ok) {r : MetaRead} (hr : r ∈ s.reads) : r.call < s.reads.length := by
  have : r.call ∈ s.reads.map MetaRead.call := List.mem_map_of_mem hr
  rw [h.calls] at this
  exact List.mem_range.1 this

/-- Calls with one number are one call. -/
theorem Ok.eq_of_call (h : s.Ok) {r r' : MetaRead} (hr : r ∈ s.reads) (hr' : r' ∈ s.reads)
    (hcall : r.call = r'.call) : r = r' := by
  refine List.inj_on_of_nodup_map ?_ hr hr' hcall
  rw [h.calls]
  exact List.nodup_range

/-- The calls after a list of subscriptions was served. -/
theorem mem_reads_serve {index : Nat} {hit : MetaSub → Bool} {mdata : MetaData} {r' : MetaRead} :
    r' ∈ (s.serve index hit mdata).reads ↔
      (∃ r ∈ s.reads, (∃ msub ∈ s.ls.metaSubs index, hit msub = true ∧ msub.call = r.call) ∧
        r' = { r with result := some (some mdata) }) ∨
      (r' ∈ s.reads ∧
        ∀ msub ∈ s.ls.metaSubs index, hit msub = true → msub.call ≠ r'.call) := by
  have hserved : ∀ r : MetaRead, (((s.ls.metaSubs index).filter hit).any fun msub =>
      msub.call == r.call) = true ↔
        ∃ msub ∈ s.ls.metaSubs index, hit msub = true ∧ msub.call = r.call := by
    intro r
    simp [List.any_eq_true]
  simp only [serve, List.mem_map]
  constructor
  · rintro ⟨r, hr, rfl⟩
    -- the call was served, or its entry is as it was
    by_cases hany : (((s.ls.metaSubs index).filter hit).any fun msub =>
        msub.call == r.call) = true
    · rw [if_pos hany]
      exact Or.inl ⟨r, hr, (hserved r).1 hany, rfl⟩
    · rw [if_neg hany]
      refine Or.inr ⟨hr, fun msub hmsub hm hcall => hany ((hserved r).2 ⟨msub, hmsub, hm, hcall⟩)⟩
  · rintro (⟨r, hr, hsub, rfl⟩ | ⟨hr, hno⟩)
    · exact ⟨r, hr, by rw [if_pos ((hserved r).2 hsub)]⟩
    · refine ⟨r', hr, ?_⟩
      rw [if_neg]
      intro hany
      rcases (hserved r').1 hany with ⟨msub, hmsub, hm, hcall⟩
      exact hno msub hmsub hm hcall

/-- The subscriptions after a list was served. -/
theorem of_mem_metaSubs_serve {index n : Nat} {hit : MetaSub → Bool} {mdata : MetaData} {msub : MetaSub}
    (h : msub ∈ (s.serve index hit mdata).ls.metaSubs n) :
    msub ∈ s.ls.metaSubs n ∧ (n = index → hit msub = false) := by
  simp only [serve, Function.update_apply] at h
  split at h
  · next hn =>
      rw [hn]
      rcases List.mem_filter.1 h with ⟨hmem, hnot⟩
      exact ⟨hmem, fun _ => by simpa using hnot⟩
  · next hn => exact ⟨h, fun hn' => absurd hn' hn⟩

/-- The subscriptions with that of a new call. -/
theorem of_mem_metaSubs_subscribe {name : CStr} {query : MetaQuery} {index n : Nat} {version : Int}
    {msub : MetaSub} (h : msub ∈ (s.subscribe name query index version).ls.metaSubs n) :
    (n = index ∧ msub = ⟨s.reads.length, version, name⟩) ∨ msub ∈ s.ls.metaSubs n := by
  simp only [subscribe, Function.update_apply] at h
  split at h
  · next hn =>
      rw [hn]
      exact (List.mem_cons.1 h).imp_left fun hnew => ⟨rfl, hnew⟩
  · exact Or.inr h

theorem Ok.sub_call_lt (h : s.Ok) {n : Nat} {msub : MetaSub} (hmsub : msub ∈ s.ls.metaSubs n) :
    msub.call < s.reads.length := by
  rcases h.subs n msub hmsub with ⟨r, hr, hcall, -⟩
  rw [← hcall]
  exact h.call_lt hr

/-- A subscription that is served belongs to a call that waits. -/
theorem Ok.waits_of_sub (h : s.Ok) {n : Nat} {msub : MetaSub} {r : MetaRead}
    (hmsub : msub ∈ s.ls.metaSubs n) (hr : r ∈ s.reads) (hcall : msub.call = r.call) :
    r.name = msub.name ∧ r.result = none ∧ s.ls.home r.query = some n := by
  rcases h.subs n msub hmsub with ⟨r', hr', hcall', hname, hres, hhome⟩
  have hrr := h.eq_of_call hr hr' (hcall.symm.trans hcall'.symm)
  rw [hrr]
  exact ⟨hname, hres, hhome⟩

end Reads

/-! ## Every step keeps calls and subscriptions in order -/

section Steps

variable {s : MetaState}

theorem Ok.serve (h : s.Ok) (index : Nat) (hit : MetaSub → Bool) (mdata : MetaData) :
    (s.serve index hit mdata).Ok where
  size_pos := h.size_pos
  calls := by
    have hcalls : (s.serve index hit mdata).reads.map MetaRead.call = s.reads.map MetaRead.call := by
      simp only [MetaState.serve, List.map_map]
      refine List.map_congr_left fun r _ => ?_
      simp only [Function.comp_apply]
      split <;> rfl
    rw [hcalls, h.calls]
    simp [MetaState.serve]
  subs := by
    intro n msub hmsub
    have hold := of_mem_metaSubs_serve hmsub
    rcases h.subs n msub hold.1 with ⟨r, hr, hcall, hname, hres, hhome⟩
    refine ⟨r, mem_reads_serve.2 (Or.inr ⟨hr, fun msub' hmsub' hhit hcall' => ?_⟩), hcall, hname, hres,
      hhome⟩
    -- the call waits in one list and has one subscription there
    have hn : n = index := by
      have := (h.waits_of_sub hmsub' hr hcall').2.2
      rw [hhome, Option.some.injEq] at this
      exact this
    subst hn
    have heq := List.inj_on_of_nodup_map (h.distinct n) hmsub' hold.1 (hcall'.trans hcall)
    rw [heq, hold.2 rfl] at hhit
    cases hhit
  waiting := by
    intro r hr hres
    rcases mem_reads_serve.1 hr with ⟨r₀, -, -, rfl⟩ | ⟨hr, hno⟩
    · cases hres
    · rcases h.waiting r hr hres with ⟨n, hhome, msub, hmsub, hcall⟩
      refine ⟨n, hhome, msub, ?_, hcall⟩
      simp only [MetaState.serve, Function.update_apply]
      split
      · next hn =>
          subst hn
          refine List.mem_filter.2 ⟨hmsub, ?_⟩
          cases hhit : hit msub with
          | false => rfl
          | true => exact absurd hcall (hno msub hmsub hhit)
      · exact hmsub
  distinct := by
    intro n
    simp only [MetaState.serve, Function.update_apply]
    split
    · next hn =>
        subst hn
        exact (h.distinct n).sublist (List.filter_sublist.map _)
    · exact h.distinct n
  binned := h.binned
  served := by
    intro p hp
    rcases List.mem_append.1 hp with hp | hp
    · rcases h.served p hp with ⟨r, hr, hcall, hres⟩
      by_cases hany : ∃ msub ∈ s.ls.metaSubs index, hit msub = true ∧ msub.call = r.call
      · exact ⟨_, mem_reads_serve.2 (Or.inl ⟨r, hr, hany, rfl⟩), hcall, by simp⟩
      · refine ⟨r, mem_reads_serve.2 (Or.inr ⟨hr, fun msub hmsub hhit hcall' => ?_⟩), hcall, hres⟩
        exact hany ⟨msub, hmsub, hhit, hcall'⟩
    · rcases List.mem_map.1 hp with ⟨msub, hmsub, rfl⟩
      rcases List.mem_filter.1 hmsub with ⟨hmsub, hhit⟩
      rcases h.subs index msub hmsub with ⟨r, hr, hcall, -⟩
      exact ⟨_, mem_reads_serve.2 (Or.inl ⟨r, hr, ⟨msub, hmsub, hhit, hcall.symm⟩, rfl⟩), hcall,
        by simp⟩
  once := by
    simp only [MetaState.serve, List.map_append, List.map_map]
    refine List.Nodup.append h.once ((h.distinct index).sublist (List.filter_sublist.map _)) ?_
    -- what was served before is no longer waiting
    intro c hc hc'
    rcases List.mem_map.1 hc with ⟨p, hp, rfl⟩
    rcases List.mem_map.1 hc' with ⟨msub, hmsub, hcall⟩
    rcases h.served p hp with ⟨r, hr, hrcall, hres⟩
    have hcall' : msub.call = r.call := hcall.trans hrcall.symm
    exact hres (h.waits_of_sub (List.mem_filter.1 hmsub).1 hr hcall').2.1

theorem Ok.insert (h : s.Ok) (mdata : MetaData) :
    MetaState.Ok { s with ls := s.ls.insert mdata } where
  size_pos := h.size_pos
  calls := h.calls
  subs := h.subs
  waiting := h.waiting
  distinct := h.distinct
  binned := by
    intro n m hm
    rcases MetaStore.mem_insert.1 hm with ⟨rfl, -⟩ | hm
    · exact Nat.mod_lt _ h.size_pos
    · exact h.binned n m hm
  served := h.served
  once := h.once

/-- Which metadata are between the two steps plays no part. -/
theorem Ok.withAdding (h : s.Ok) (adding : List MetaData) : MetaState.Ok { s with adding := adding } :=
  ⟨h.size_pos, h.calls, h.subs, h.waiting, h.distinct, h.binned, h.served, h.once⟩

theorem map_call_append (h : s.Ok) (name : CStr) (query : MetaQuery) (result : Option (Option MetaData)) :
    (s.reads ++ [(⟨s.reads.length, name, query, result⟩ : MetaRead)]).map MetaRead.call =
      List.range (s.reads ++ [(⟨s.reads.length, name, query, result⟩ : MetaRead)]).length := by
  simp [h.calls, List.range_succ]

theorem Ok.answer (h : s.Ok) (name : CStr) (query : MetaQuery) (mdata : Option MetaData) :
    (s.answer name query mdata).Ok where
  size_pos := h.size_pos
  calls := map_call_append h name query (some mdata)
  subs := by
    intro n msub hmsub
    rcases h.subs n msub hmsub with ⟨r, hr, hrest⟩
    exact ⟨r, List.mem_append_left _ hr, hrest⟩
  waiting := by
    intro r hr hres
    rcases List.mem_append.1 hr with hr | hr
    · exact h.waiting r hr hres
    · obtain rfl := List.mem_singleton.1 hr
      cases hres
  distinct := h.distinct
  binned := h.binned
  served := by
    intro p hp
    rcases h.served p hp with ⟨r, hr, hrest⟩
    exact ⟨r, List.mem_append_left _ hr, hrest⟩
  once := h.once

theorem Ok.subscribe (h : s.Ok) (name : CStr) {query : MetaQuery} {index : Nat} (version : Int)
    (hhome : s.ls.home query = some index) : (s.subscribe name query index version).Ok where
  size_pos := h.size_pos
  calls := map_call_append h name query none
  subs := by
    intro n msub hmsub
    rcases of_mem_metaSubs_subscribe hmsub with ⟨rfl, rfl⟩ | hold
    · exact ⟨_, List.mem_append_right _ List.mem_cons_self, rfl, rfl, rfl, hhome⟩
    · rcases h.subs n msub hold with ⟨r, hr, hrest⟩
      exact ⟨r, List.mem_append_left _ hr, hrest⟩
  waiting := by
    intro r hr hres
    rcases List.mem_append.1 hr with hr | hr
    · rcases h.waiting r hr hres with ⟨n, hn, msub, hmsub, hcall⟩
      refine ⟨n, hn, msub, ?_, hcall⟩
      simp only [MetaState.subscribe, Function.update_apply]
      split
      · next hn' =>
          rw [← hn']
          exact List.mem_cons_of_mem _ hmsub
      · exact hmsub
    · obtain rfl := List.mem_singleton.1 hr
      refine ⟨index, hhome, ⟨s.reads.length, version, name⟩, ?_, rfl⟩
      simp [MetaState.subscribe]
  distinct := by
    intro n
    simp only [MetaState.subscribe, Function.update_apply]
    split
    · rw [List.map_cons]
      refine List.nodup_cons.2 ⟨fun hmem => ?_, h.distinct index⟩
      -- the number of the call is new
      rcases List.mem_map.1 hmem with ⟨msub, hmsub, hcall⟩
      have hlt := h.sub_call_lt hmsub
      rw [hcall] at hlt
      exact Nat.lt_irrefl _ hlt
    · exact h.distinct n
  binned := h.binned
  served := by
    intro p hp
    rcases h.served p hp with ⟨r, hr, hrest⟩
    exact ⟨r, List.mem_append_left _ hr, hrest⟩
  once := h.once

/-- The state between the two steps of `ls_add_meta`. -/
def inserted (s : MetaState) (mdata : MetaData) : MetaState :=
  let served := MetaState.serve { s with ls := s.ls.insert mdata } (s.ls.indexOf mdata)
    (fun msub => msub.name = mdata.name ∧ msub.version = mdata.intVersion) mdata
  { served with adding := served.adding ++ [mdata] }

theorem step_add_of_none {s : MetaState} {mdata : MetaData}
    (h : s.ls.lsFindMeta mdata.name mdata.intVersion = some none) :
    s.step (.add mdata) = some (s.inserted mdata) := by
  simp only [step, lsAddMeta, h, Option.bind_eq_bind, Option.bind_some, Option.pure_def]
  rfl

/-- The event is not the second step of an `ls_add_meta` that is under way. -/
def NoDelivery (s : MetaState) (e : MetaEvent) : Prop :=
  ∀ k, e = .deliver k → s.adding[k]? = none

/-- All that a step can do. -/
theorem step_cases {e : MetaEvent} {s' : MetaState} (h : s.step e = some s') :
    (s.NoDelivery e ∧ s' = s) ∨
      (∃ mdata, e = .add mdata ∧ s.ls.lsFindMeta mdata.name mdata.intVersion = some none ∧
        s' = s.inserted mdata) ∨
      (∃ k mdata, e = .deliver k ∧ s.adding[k]? = some mdata ∧
        s' = lsAddMetaFinish { s with adding := s.adding.eraseIdx k } mdata) ∨
      (∃ name query mdata, s.NoDelivery e ∧ s.ls.lookup name query = some mdata ∧
        s' = s.answer name query mdata) ∨
      ∃ name query index, s.NoDelivery e ∧ s.ls.home query = some index ∧
        s.ls.lookup name query = some none ∧ s' = s.subscribe name query index query.subVersion := by
  have hempty : ∀ {mdres : Option MetaData} {wait : Bool}, ¬ (mdres.isSome = true ∨ wait = false) →
      mdres = none := by
    intro mdres wait hmd
    cases mdres with
    | none => rfl
    | some _ => simp at hmd
  cases e with
  | add mdata =>
      have hno : s.NoDelivery (.add mdata) := by
        rintro k ⟨⟩
      rcases Option.bind_eq_some_iff.1 h with ⟨found, hfind, h⟩
      cases found with
      | some _ =>
          cases h
          exact Or.inl ⟨hno, rfl⟩
      | none =>
          cases h
          exact Or.inr (Or.inl ⟨mdata, rfl, hfind, rfl⟩)
  | deliver k =>
      rw [step] at h
      cases hk : s.adding[k]? with
      | none =>
          simp only [hk, Option.some.injEq] at h
          refine Or.inl ⟨?_, h.symm⟩
          rintro _ ⟨⟩
          exact hk
      | some mdata =>
          simp only [hk, Option.some.injEq] at h
          exact Or.inr (Or.inr (Or.inl ⟨k, mdata, rfl, hk, h.symm⟩))
  | next name curr wait =>
      have hno : s.NoDelivery (.next name curr wait) := by
        rintro k ⟨⟩
      rcases Option.bind_eq_some_iff.1 h with ⟨mdres, hscan, h⟩
      refine Or.inr (Or.inr (Or.inr ?_))
      split at h
      · cases h
        -- the scan found something, or the caller does not want to wait
        exact Or.inl ⟨name, .next curr, mdres, hno, hscan, rfl⟩
      · next hmd =>
          cases h
          -- a call waits only after a scan that found nothing
          rw [hempty hmd] at hscan
          exact Or.inr ⟨name, .next curr, _, hno, rfl, hscan, rfl⟩
  | entry name version wait =>
      have hno : s.NoDelivery (.entry name version wait) := by
        rintro k ⟨⟩
      rcases Option.bind_eq_some_iff.1 h with ⟨index, hindex, h⟩
      rcases Option.bind_eq_some_iff.1 h with ⟨mdres, hfind, h⟩
      refine Or.inr (Or.inr (Or.inr ?_))
      split at h
      · cases h
        exact Or.inl ⟨name, .entry version, mdres, hno, hfind, rfl⟩
      · next hmd =>
          cases h
          rw [hempty hmd] at hfind
          exact Or.inr ⟨name, .entry version, index, hno, hindex, hfind, rfl⟩

theorem Ok.inserted (h : s.Ok) (mdata : MetaData) : (s.inserted mdata).Ok :=
  ((h.insert mdata).serve _ _ mdata).withAdding _

theorem Ok.step (h : s.Ok) {e : MetaEvent} {s' : MetaState} (hstep : s.step e = some s') : s'.Ok := by
  rcases step_cases hstep with ⟨-, rfl⟩ | ⟨mdata, -, -, rfl⟩ | ⟨k, mdata, -, -, rfl⟩ |
    ⟨name, query, mdata, -, -, rfl⟩ | ⟨name, query, index, -, hhome, -, rfl⟩
  · exact h
  · exact h.inserted mdata
  · exact (h.withAdding _).serve _ _ mdata
  · exact h.answer name query mdata
  · exact h.subscribe name query.subVersion hhome

end Steps

/-! ## No post is missed -/

/-- A call that waits for any version has seen all newer metadata of its name but what is between the
two steps of `ls_add_meta`. -/
def NotMissed (s : MetaState) : Prop :=
  ∀ r ∈ s.reads, ∀ curr, r.Waits curr → ∀ n, ∀ mdata ∈ s.ls.metaHash n, mdata.IsNext r.name curr →
    mdata ∈ s.adding

section Missed

variable {s : MetaState}

/-- Calls that wait after a list was served waited before. -/
theorem mem_reads_of_waits {index : Nat} {hit : MetaSub → Bool} {mdata : MetaData} {r : MetaRead}
    {curr : Int} (hr : r ∈ (s.serve index hit mdata).reads) (hw : r.Waits curr) :
    r ∈ s.reads ∧ ∀ msub ∈ s.ls.metaSubs index, hit msub = true → msub.call ≠ r.call := by
  rcases mem_reads_serve.1 hr with ⟨r₀, -, -, rfl⟩ | hold
  · cases hw.2
  · exact hold

theorem NotMissed.step (hm : s.NotMissed) (h : s.Ok) {e : MetaEvent} {s' : MetaState}
    (hstep : s.step e = some s') : s'.NotMissed := by
  rcases step_cases hstep with ⟨-, rfl⟩ | ⟨mdata, -, -, rfl⟩ | ⟨k, mdata, -, hk, rfl⟩ |
    ⟨name, query, mdata, -, -, rfl⟩ | ⟨name, query, index, -, -, hscan, rfl⟩
  · exact hm
  · intro r hr curr hw n m hmem hnext
    have hold := (mem_reads_of_waits (s := { s with ls := s.ls.insert mdata }) hr hw).1
    refine List.mem_append.2 ?_
    rcases MetaStore.mem_insert.1 hmem with ⟨-, rfl⟩ | hmem
    · exact Or.inr List.mem_cons_self
    · exact Or.inl (hm r hold curr hw n m hmem hnext)
  · intro r hr curr hw n m hmem hnext
    rcases mem_reads_of_waits hr hw with ⟨hold, hno⟩
    have hadding := hm r hold curr hw n m hmem hnext
    have hne : m ≠ mdata := by
      rintro rfl
      -- the call would have been served
      rcases h.waiting r hold hw.2 with ⟨n', hhome, msub, hmsub, hcall⟩
      rw [hw.1, MetaStore.home, Option.some.injEq] at hhome
      subst hhome
      have hname := (h.waits_of_sub hmsub hold hcall).1
      exact hno msub hmsub (by simp [← hname, hnext.1]) hcall
    rcases List.getElem?_eq_some_iff.1 hk with ⟨hlt, rfl⟩
    rw [← (List.getElem_cons_eraseIdx_perm hlt).mem_iff, List.mem_cons] at hadding
    exact hadding.resolve_left hne
  · intro r hr curr hw n m hmem hnext
    rcases List.mem_append.1 hr with hr | hr
    · exact hm r hr curr hw n m hmem hnext
    · obtain rfl := List.mem_singleton.1 hr
      cases hw.2
  · intro r hr curr hw n m hmem hnext
    rcases List.mem_append.1 hr with hr | hr
    · exact hm r hr curr hw n m hmem hnext
    · -- the scan of the new call found nothing
      obtain rfl := List.mem_singleton.1 hr
      obtain rfl : query = .next curr := hw.1
      have hnone := (MetaStore.scanNext_spec hscan).2 rfl
      exact absurd hnext (hnone n (h.binned n m hmem) m hmem)

end Missed

/-! ## Newer metadata -/

/-- What the calls of `meta_find_next_entry` returned has the name and is newer than `curr`. -/
def Forward (s : MetaState) : Prop :=
  ∀ r ∈ s.reads, ∀ curr, r.query = .next curr → ∀ mdata, r.result = some (some mdata) →
    mdata.IsNext r.name curr

/-- If the step is the second one of an `ls_add_meta`, its metadata is newer than what the waiting calls
of its name have. -/
def Newer (s : MetaState) : MetaEvent → Prop
  | .deliver k => ∀ mdata, s.adding[k]? = some mdata → ∀ r ∈ s.reads, ∀ curr, r.Waits curr →
      r.name = mdata.name → curr < mdata.intVersion
  | _ => True

section Newer

variable {s : MetaState}

/-- In the list at `size_hash` the calls that are served are those that wait for any version of the
name. -/
theorem Ok.served_iff (h : s.Ok) {mdata : MetaData} {r : MetaRead} (hr : r ∈ s.reads) :
    (∃ msub ∈ s.ls.metaSubs s.ls.sizeHash, decide (msub.name = mdata.name) = true ∧
      msub.call = r.call) ↔ r.name = mdata.name ∧ ∃ curr, r.Waits curr := by
  constructor
  · rintro ⟨msub, hmsub, hname, hcall⟩
    rcases h.waits_of_sub hmsub hr hcall with ⟨hrname, hres, hhome⟩
    refine ⟨hrname.trans (by simpa using hname), ?_⟩
    cases hq : r.query with
    | next curr => exact ⟨curr, hq, hres⟩
    | entry version =>
        -- the index of a version is below `size_hash`
        rw [hq, MetaStore.home] at hhome
        have := MetaStore.lt_of_index h.size_pos hhome
        omega
  · rintro ⟨hname, curr, hw⟩
    rcases h.waiting r hr hw.2 with ⟨n, hhome, msub, hmsub, hcall⟩
    rw [hw.1, MetaStore.home, Option.some.injEq] at hhome
    subst hhome
    have hmname := (h.waits_of_sub hmsub hr hcall).1
    exact ⟨msub, hmsub, by simp [← hmname, hname], hcall⟩

/-- A call of `meta_find_next_entry` is not served in a bin. -/
theorem Ok.not_served_in_bin (h : s.Ok) {n : Nat} (hn : n < s.ls.sizeHash) {r : MetaRead} {curr : Int}
    (hr : r ∈ s.reads) (hq : r.query = .next curr) {msub : MetaSub} (hmsub : msub ∈ s.ls.metaSubs n) :
    msub.call ≠ r.call := by
  intro hcall
  have hhome := (h.waits_of_sub hmsub hr hcall).2.2
  rw [hq, MetaStore.home, Option.some.injEq] at hhome
  omega

theorem newer_of_noDelivery {e : MetaEvent} (h : s.NoDelivery e) : s.Newer e := by
  cases e with
  | deliver k =>
      intro mdata hk
      rw [h k rfl] at hk
      cases hk
  | add _ => trivial
  | next _ _ _ => trivial
  | entry _ _ _ => trivial

/-- Insertion changes no call of `meta_find_next_entry`. -/
theorem Ok.forward_inserted_iff (h : s.Ok) (mdata : MetaData) :
    (s.inserted mdata).Forward ↔ s.Forward := by
  have hbin : s.ls.indexOf mdata < s.ls.sizeHash := Nat.mod_lt _ h.size_pos
  constructor
  · intro hf r hr curr hq
    refine hf r ?_ curr hq
    refine mem_reads_serve.2 (Or.inr ⟨hr, fun msub hmsub _ => ?_⟩)
    exact h.not_served_in_bin hbin hr hq hmsub
  · intro hf r hr curr hq
    rcases mem_reads_serve.1 hr with ⟨r₀, hr₀, ⟨msub, hmsub, -, hcall⟩, rfl⟩ | ⟨hr, -⟩
    · exact absurd hcall (h.not_served_in_bin hbin hr₀ hq hmsub)
    · exact hf r hr curr hq

/-- The second step gives its metadata to the calls that wait for any version of the name. -/
theorem Ok.forward_finish_iff (h : s.Ok) (mdata : MetaData) :
    (s.lsAddMetaFinish mdata).Forward ↔
      s.Forward ∧ ∀ r ∈ s.reads, ∀ curr, r.Waits curr → r.name = mdata.name →
        curr < mdata.intVersion := by
  constructor
  · intro hf
    refine ⟨fun r hr curr hq m hres => ?_, fun r hr curr hw hname => ?_⟩
    · refine hf r (mem_reads_serve.2 (Or.inr ⟨hr, fun msub hmsub _ hcall => ?_⟩)) curr hq m hres
      -- a call that has a result does not wait
      rw [(h.waits_of_sub hmsub hr hcall).2.1] at hres
      cases hres
    · -- a call that waits for the name is given the metadata, whatever it has already
      have hserved := (h.served_iff hr).2 ⟨hname, curr, hw⟩
      exact (hf _ (mem_reads_serve.2 (Or.inl ⟨r, hr, hserved, rfl⟩)) curr hw.1 mdata rfl).2
  · rintro ⟨hf, hnewer⟩ r hr curr hq m hres
    rcases mem_reads_serve.1 hr with ⟨r₀, hr₀, hserved, rfl⟩ | ⟨hr, -⟩
    · rcases (h.served_iff hr₀).1 hserved with ⟨hname, curr', hw⟩
      cases hres
      have hcurr : curr' = curr := by
        have hq' := hw.1
        rw [hq] at hq'
        cases hq'
        rfl
      subst hcurr
      exact ⟨hname.symm, hnewer r₀ hr₀ curr' hw hname⟩
    · exact hf r hr curr hq m hres

theorem forward_append_iff (r : MetaRead) (hr : ∀ curr, r.query = .next curr → ∀ mdata,
    r.result = some (some mdata) → mdata.IsNext r.name curr) (ls : MetaStore) :
    MetaState.Forward { s with ls := ls, reads := s.reads ++ [r] } ↔ s.Forward := by
  constructor
  · intro hf r' hr'
    exact hf r' (List.mem_append_left _ hr')
  · intro hf r' hr'
    rcases List.mem_append.1 hr' with hr' | hr'
    · exact hf r' hr'
    · obtain rfl := List.mem_singleton.1 hr'
      exact hr

theorem Ok.forward_step_iff (h : s.Ok) {e : MetaEvent} {s' : MetaState} (hstep : s.step e = some s') :
    s'.Forward ↔ s.Forward ∧ s.Newer e := by
  rcases step_cases hstep with ⟨hno, rfl⟩ | ⟨mdata, rfl, -, rfl⟩ | ⟨k, mdata, rfl, hk, rfl⟩ |
    ⟨name, query, mdata, hno, hscan, rfl⟩ | ⟨name, query, index, hno, -, -, rfl⟩
  · simp [newer_of_noDelivery hno]
  · simp [h.forward_inserted_iff mdata, Newer]
  -- only a delivery can make a read go back
  · rw [(h.withAdding _).forward_finish_iff mdata]
    refine and_congr Iff.rfl ?_
    simp [Newer, hk]
  · have hnext : ∀ curr, query = .next curr → ∀ m, some mdata = some (some m) →
        m.IsNext name curr := by
      rintro curr rfl m hm
      exact (MetaStore.scanNext_spec hscan).1 m (Option.some.inj hm)
    have := forward_append_iff (s := s) ⟨s.reads.length, name, query, some mdata⟩ hnext s.ls
    simp [newer_of_noDelivery hno, MetaState.answer, this]
  · have hnext : ∀ curr, query = .next curr → ∀ m : MetaData, none = some (some m) →
        m.IsNext name curr := by
      rintro _ - _ ⟨⟩
    have := forward_append_iff (s := s) ⟨s.reads.length, name, query, none⟩ hnext
      (s.subscribe name query index query.subVersion).ls
    simp only [newer_of_noDelivery hno, and_true]
    exact this

end Newer

/-! ## Runs -/

theorem isRun : Runs.IsRun step fun es s => s.run es :=
  Runs.isRun_foldlM step

/-- Exactly the second steps decide what the calls of a whole run are given. -/
theorem Ok.forward_run_iff (es : List MetaEvent) :
    ∀ s s' : MetaState, s.Ok → s.run es = some s' →
      (s'.Forward ↔ s.Forward ∧ ∀ done e rest mid, es = done ++ e :: rest →
        s.run done = some mid → mid.Newer e) :=
  isRun.keeps_iff (fun _ _ _ h hstep => h.step hstep) (fun _ _ _ h hstep => h.forward_step_iff hstep) es

end MetaState

/-- In every state of every run, whatever the calls and `ls_add_meta` are interleaved like: a call that
still waits for something newer than `curr` has missed no stored metadata except those whose second step
is still to come, and nothing is assigned to a subscription twice. -/
theorem next_not_missed {maxVersions : Nat} (hversions : 0 < maxVersions) {es : List MetaEvent}
    {s : MetaState} (hrun : (MetaState.init maxVersions).run es = some s) :
    (∀ r ∈ s.reads, ∀ curr, r.query = .next curr → r.result = none →
      ∀ n, ∀ mdata ∈ s.ls.metaHash n, mdata.name = r.name → curr < mdata.intVersion →
        mdata ∈ s.adding) ∧
      (s.received.map Prod.fst).Nodup := by
  have hinit : (MetaState.init maxVersions).Ok ∧ (MetaState.init maxVersions).NotMissed :=
    ⟨MetaState.ok_init hversions, by simp [MetaState.NotMissed, MetaState.init]⟩
  rcases MetaState.isRun.keeps (P := fun s => s.Ok ∧ s.NotMissed)
    (fun s e s' hs hstep => ⟨hs.1.step hstep, hs.2.step hs.1 hstep⟩) es _ s hinit hrun with ⟨hok, hmiss⟩
  refine ⟨fun r hr curr hq hres n mdata hmem hname hlt => ?_, hok.once⟩
  exact hmiss r hr curr ⟨hq, hres⟩ n mdata hmem ⟨hname, hlt⟩

/-- A reader waits for something newer than version 3, and then version 4 is stored. -/
def newVersion : List MetaEvent :=
  [.next [97] 3 true, .add ⟨[97], 4, []⟩]

/-- What the reader has not been given yet is about to be handed out. -/
theorem next_not_missed_newVersion :
    ∃ s r, (MetaState.init 2).run newVersion = some s ∧ r ∈ s.reads ∧ r.query = .next 3 ∧ r.result = none ∧
      ⟨[97], 4, []⟩ ∈ s.ls.metaHash 0 ∧ ⟨[97], 4, []⟩ ∈ s.adding := by
  have hreads : ((MetaState.init 2).run newVersion).map (fun s => (s.reads, s.ls.metaHash 0)) =
      some ([⟨0, [97], .next 3, none⟩], [⟨[97], 4, []⟩]) := by
    decide +kernel
  rcases Option.map_eq_some_iff.1 hreads with ⟨s, hs, heq⟩
  rw [Prod.mk.injEq] at heq
  have hr : ⟨0, [97], .next 3, none⟩ ∈ s.reads := by rw [heq.1]; exact List.mem_cons_self
  have hstored : ⟨[97], 4, []⟩ ∈ s.ls.metaHash 0 := by rw [heq.2]; exact List.mem_cons_self
  exact ⟨s, _, hs, hr, rfl, rfl, hstored,
    (next_not_missed (by decide) hs).1 _ hr 3 rfl rfl 0 _ hstored rfl (by decide)⟩

/-- A reader that has version 3 asks for the next while the post of version 3 is between its two steps. -/
def lateDelivery : List MetaEvent :=
  [.add ⟨[97], 3, []⟩, .next [97] 3 true, .deliver 0]

/-- What `meta_find_next_entry` returns has the name and is newer than `curr`, in every call of a run,
exactly when no second step of an `ls_add_meta` runs for metadata that is not newer than what a waiting
call of its name has. -/
theorem next_newer_iff {maxVersions : Nat} (hversions : 0 < maxVersions) {es : List MetaEvent}
    {s : MetaState} (hrun : (MetaState.init maxVersions).run es = some s) :
    (∀ r ∈ s.reads, ∀ curr, r.query = .next curr → ∀ mdata, r.result = some (some mdata) →
      mdata.name = r.name ∧ curr < mdata.intVersion) ↔
    ∀ done e rest s', es = done ++ e :: rest → (MetaState.init maxVersions).run done = some s' →
      s'.Newer e := by
  have hforward : (MetaState.init maxVersions).Forward := by simp [MetaState.Forward, MetaState.init]
  have h := MetaState.Ok.forward_run_iff es _ s (MetaState.ok_init hversions) hrun
  constructor
  · intro hall
    exact (h.1 hall).2
  · intro hnewer
    exact h.2 ⟨hforward, hnewer⟩

theorem next_newer_iff_lateDelivery :
    ∃ s, (MetaState.init 2).run lateDelivery = some s ∧
      ((∀ r ∈ s.reads, ∀ curr, r.query = .next curr → ∀ mdata, r.result = some (some mdata) →
        mdata.name = r.name ∧ curr < mdata.intVersion) ↔
      ∀ done e rest s', lateDelivery = done ++ e :: rest → (MetaState.init 2).run done = some s' →
        s'.Newer e) := by
  have hrun : ((MetaState.init 2).run lateDelivery).isSome = true := by decide +kernel
  rcases Option.isSome_iff_exists.1 hrun with ⟨s, hs⟩
  exact ⟨s, hs, next_newer_iff (by decide) hs⟩

/-- The reader is given version 3 again. -/
theorem next_not_newer :
    ∃ s, (MetaState.init 2).run lateDelivery = some s ∧
      ¬ ∀ r ∈ s.reads, ∀ curr, -1 ≤ curr → r.query = .next curr → ∀ mdata,
        r.result = some (some mdata) → mdata.name = r.name ∧ curr < mdata.intVersion := by
  have hreads : ((MetaState.init 2).run lateDelivery).map MetaState.reads =
      some [⟨0, [97], .next 3, some (some ⟨[97], 3, []⟩)⟩] := by
    decide +kernel
  rcases Option.map_eq_some_iff.1 hreads with ⟨s, hs, hr⟩
  refine ⟨s, hs, fun hall => ?_⟩
  have hnewer := hall _ (by rw [hr]; exact List.mem_cons_self) 3 (by decide) rfl _ rfl
  exact absurd hnewer.2 (by decide)

end DataSpaces
