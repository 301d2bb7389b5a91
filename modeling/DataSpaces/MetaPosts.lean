import Mathlib.Data.List.Pairwise
import DataSpaces.MetaBins

/-!
# MetaPosts — metadata is written once (`put_meta_rpc`)

`ls_add_meta` looks for metadata of the name and version before it inserts, without the mutex of the bin.
Nothing is inserted in between because the handlers of `put_meta_rpc` take `ls_mutex` first.  So a run of
the handlers step by step is a run in which each test and insertion is one step
(`PostState.Inv.reach`), and for those runs every name and version is stored once (`Single`) and no call
waits for what is stored (`NoneWaits`).
-/

namespace DataSpaces

/-- Metadata of a name and a version. -/
def MetaData.IsEntry (name : CStr) (version : Int) (mdata : MetaData) : Prop :=
  mdata.name = name ∧ mdata.intVersion = version

namespace MetaStore

variable {ls : MetaStore} {name : CStr} {version : Int}

/-- All metadata of a storage. -/
def entries (ls : MetaStore) : List MetaData :=
  (List.range ls.sizeHash).flatMap ls.metaHash

theorem stored_of_lsFindMeta {mdata : MetaData} (h : ls.lsFindMeta name version = some (some mdata)) :
    ls.Stored mdata ∧ mdata.IsEntry name version := by
  obtain ⟨index, -, hfind⟩ := Option.map_eq_some_iff.1 h
  have hfound := List.find?_some hfind
  rw [decide_eq_true_eq] at hfound
  exact ⟨⟨index, List.mem_of_find?_eq_some hfind⟩, hfound.1.symm, hfound.2⟩

/-- What is in the bin of its version is found. -/
theorem not_isEntry_of_lsFindMeta (hsize : 0 < ls.sizeHash) {n : Nat} {mdata : MetaData}
    (hmem : mdata ∈ ls.metaHash n) (hbin : ls.indexOf mdata = n) (hnonneg : 0 ≤ mdata.intVersion)
    (h : ls.lsFindMeta name version = some none) : ¬ mdata.IsEntry name version := by
  rintro ⟨rfl, rfl⟩
  have hindex := (index_eq_indexOf_iff hsize).2 (Or.inl hnonneg)
  obtain ⟨m, hfind, -⟩ := lsFindMeta_of_mem hindex (by rw [hbin]; exact hmem)
  rw [hfind] at h
  cases h

theorem isSome_lsFindMeta (ls : MetaStore) (name : CStr) {version : Int} (h : 0 ≤ version) :
    (ls.lsFindMeta name version).isSome := by
  rw [lsFindMeta, index_of_nonneg h]
  rfl

end MetaStore

/-- A post of a version that is not negative. -/
def MetaEvent.PostNonneg : MetaEvent → Prop
  | .add mdata => 0 ≤ mdata.intVersion
  | _ => True

namespace MetaState

/-- Metadata is in the bin of its version, once for every name and version, and the calls for one version
are given what is stored. -/
structure Single (s : MetaState) : Prop where
  bin : ∀ n, ∀ mdata ∈ s.ls.metaHash n, s.ls.indexOf mdata = n
  nonneg : ∀ mdata, s.ls.Stored mdata → 0 ≤ mdata.intVersion
  once : ∀ n, (s.ls.metaHash n).Pairwise fun a b => ¬ (a.name = b.name ∧ a.intVersion = b.intVersion)
  given : ∀ r ∈ s.reads, ∀ version, r.query = .entry version → ∀ mdata, r.result = some (some mdata) →
    s.ls.Stored mdata ∧ mdata.IsEntry r.name version
  subs : ∀ n, ∀ msub ∈ s.ls.metaSubs n, ∀ r ∈ s.reads, msub.call = r.call → ∀ version,
    r.query = .entry version → msub.version = version

/-- No call waits for a version that is stored. -/
def NoneWaits (s : MetaState) : Prop :=
  ∀ r ∈ s.reads, ∀ version, r.query = .entry version → r.result = none →
    ∀ mdata, s.ls.Stored mdata → ¬ mdata.IsEntry r.name version

theorem single_init (n : Nat) : (init n).Single where
  bin := by simp [init, metaAlloc]
  nonneg := by simp [init, metaAlloc, MetaStore.Stored]
  once := by simp [init, metaAlloc]
  given := by simp [init]
  subs := by simp [init, metaAlloc]

variable {s s' : MetaState}

/-! ## Every step keeps the metadata single -/

theorem Single.withAdding (h : s.Single) (adding : List MetaData) :
    MetaState.Single { s with adding := adding } :=
  ⟨h.bin, h.nonneg, h.once, h.given, h.subs⟩

/-- A list of subscriptions may be served with stored metadata that its calls ask for. -/
theorem Single.serve (h : s.Single) {index : Nat} {hit : MetaSub → Bool} {mdata : MetaData}
    (hserved : ∀ r ∈ s.reads, (∃ msub ∈ s.ls.metaSubs index, hit msub = true ∧ msub.call = r.call) →
      ∀ version, r.query = .entry version → s.ls.Stored mdata ∧ mdata.IsEntry r.name version) :
    (s.serve index hit mdata).Single where
  bin := h.bin
  nonneg := h.nonneg
  once := h.once
  given := by
    intro r hr version hq m hres
    rcases mem_reads_serve.1 hr with ⟨r₀, hr₀, hsub, rfl⟩ | ⟨hold, -⟩
    · cases hres
      exact hserved r₀ hr₀ hsub version hq
    · exact h.given r hold version hq m hres
  subs := by
    intro n msub hmsub r hr hcall version hq
    have hold := (of_mem_metaSubs_serve hmsub).1
    rcases mem_reads_serve.1 hr with ⟨r₀, hr₀, -, rfl⟩ | ⟨hr, -⟩
    · exact h.subs n msub hold r₀ hr₀ hcall version hq
    · exact h.subs n msub hold r hr hcall version hq

theorem Single.insert (h : s.Single) (hok : s.Ok) {mdata : MetaData} (hnonneg : 0 ≤ mdata.intVersion)
    (hfind : s.ls.lsFindMeta mdata.name mdata.intVersion = some none) :
    MetaState.Single { s with ls := s.ls.insert mdata } where
  bin := by
    intro n m hm
    rcases MetaStore.mem_insert.1 hm with ⟨rfl, rfl⟩ | hm
    · rfl
    · exact h.bin n m hm
  nonneg := by
    intro m hm
    rcases MetaStore.stored_insert.1 hm with rfl | hm
    · exact hnonneg
    · exact h.nonneg m hm
  once := by
    intro n
    simp only [MetaStore.insert, Function.update_apply]
    split
    · refine List.pairwise_cons.2 ⟨fun m hm heq => ?_, h.once _⟩
      -- the test would have found it
      exact MetaStore.not_isEntry_of_lsFindMeta hok.size_pos hm (h.bin _ m hm) (h.nonneg m ⟨_, hm⟩) hfind
        ⟨heq.1.symm, heq.2.symm⟩
    · exact h.once n
  given := by
    intro r hr version hq m hres
    obtain ⟨hstored, hentry⟩ := h.given r hr version hq m hres
    exact ⟨MetaStore.stored_insert.2 (Or.inr hstored), hentry⟩
  subs := h.subs

/-- In a bin the calls are served that ask for the name and the version of the metadata. -/
theorem Single.inserted (h : s.Single) (hok : s.Ok) {mdata : MetaData} (hnonneg : 0 ≤ mdata.intVersion)
    (hfind : s.ls.lsFindMeta mdata.name mdata.intVersion = some none) : (s.inserted mdata).Single := by
  refine Single.withAdding ((h.insert hok hnonneg hfind).serve ?_) _
  rintro r hr ⟨msub, hmsub, hhit, hcall⟩ version hq
  rw [decide_eq_true_eq] at hhit
  have hname := (hok.waits_of_sub hmsub hr hcall).1
  have hversion := h.subs _ msub hmsub r hr hcall version hq
  exact ⟨MetaStore.stored_insert.2 (Or.inl rfl), hhit.1.symm.trans hname.symm, hhit.2.symm.trans hversion⟩

/-- The second step of `ls_add_meta` serves no call for one version. -/
theorem Single.finish (h : s.Single) (hok : s.Ok) (mdata : MetaData) : (s.lsAddMetaFinish mdata).Single := by
  refine h.serve ?_
  rintro r hr hsub version hq
  obtain ⟨-, curr, hw⟩ := (hok.served_iff hr).1 hsub
  rw [hw.1] at hq
  cases hq

theorem Single.answer (h : s.Single) {name : CStr} {query : MetaQuery} {mdata : Option MetaData} (hok : s.Ok)
    (hlook : s.ls.lookup name query = some mdata) : (s.answer name query mdata).Single where
  bin := h.bin
  nonneg := h.nonneg
  once := h.once
  given := by
    intro r hr version hq m hres
    rcases List.mem_append.1 hr with hr | hr
    · exact h.given r hr version hq m hres
    · obtain rfl := List.mem_singleton.1 hr
      obtain rfl : query = .entry version := hq
      obtain rfl : mdata = some m := Option.some.inj hres
      exact MetaStore.stored_of_lsFindMeta hlook
  subs := by
    intro n msub hmsub r hr hcall version hq
    rcases List.mem_append.1 hr with hr | hr
    · exact h.subs n msub hmsub r hr hcall version hq
    · -- the number of the call is new
      obtain rfl := List.mem_singleton.1 hr
      exact absurd hcall (Nat.ne_of_lt (hok.sub_call_lt hmsub))

theorem Single.subscribe (h : s.Single) (hok : s.Ok) (name : CStr) (query : MetaQuery) (index : Nat) :
    (s.subscribe name query index query.subVersion).Single where
  bin := h.bin
  nonneg := h.nonneg
  once := h.once
  given := by
    intro r hr version hq m hres
    rcases List.mem_append.1 hr with hr | hr
    · exact h.given r hr version hq m hres
    · obtain rfl := List.mem_singleton.1 hr
      cases hres
  subs := by
    intro n msub hmsub r hr hcall version hq
    rcases List.mem_append.1 hr with hr | hr
    · rcases of_mem_metaSubs_subscribe hmsub with ⟨-, rfl⟩ | hold
      · exact absurd hcall.symm (Nat.ne_of_lt (hok.call_lt hr))
      · exact h.subs n msub hold r hr hcall version hq
    · obtain rfl := List.mem_singleton.1 hr
      rcases of_mem_metaSubs_subscribe hmsub with ⟨-, rfl⟩ | hold
      · obtain rfl : query = .entry version := hq
        rfl
      · exact absurd hcall (Nat.ne_of_lt (hok.sub_call_lt hold))

/-! ## No call waits for what is stored -/

theorem NoneWaits.inserted (hnone : s.NoneWaits) (h : s.Single) (hok : s.Ok) {mdata : MetaData}
    (hnonneg : 0 ≤ mdata.intVersion) : (s.inserted mdata).NoneWaits := by
  intro r hr version hq hres m hstored hentry
  obtain ⟨hold, hno⟩ : r ∈ s.reads ∧ ∀ msub ∈ s.ls.metaSubs (s.ls.indexOf mdata),
      decide (msub.name = mdata.name ∧ msub.version = mdata.intVersion) = true → msub.call ≠ r.call := by
    rcases mem_reads_serve.1 hr with ⟨r₀, -, -, rfl⟩ | hold
    · cases hres
    · exact hold
  rcases MetaStore.stored_insert.1 hstored with rfl | hstored
  · -- the call waits in the bin of the metadata and was served
    obtain ⟨n, hhome, msub, hmsub, hcall⟩ := hok.waiting r hold hres
    have hindex := (MetaStore.index_eq_indexOf_iff hok.size_pos).2 (Or.inl hnonneg)
    rw [hq, MetaStore.home, ← hentry.2, hindex, Option.some.injEq] at hhome
    subst hhome
    have hname := (hok.waits_of_sub hmsub hold hcall).1
    have hversion := h.subs _ msub hmsub r hold hcall version hq
    refine hno msub hmsub ?_ hcall
    rw [decide_eq_true_eq]
    exact ⟨hname.symm.trans hentry.1.symm, hversion.trans hentry.2.symm⟩
  · exact hnone r hold version hq hres m hstored hentry

theorem NoneWaits.finish (hnone : s.NoneWaits) (mdata : MetaData) : (s.lsAddMetaFinish mdata).NoneWaits := by
  intro r hr version hq hres m hstored
  rcases mem_reads_serve.1 hr with ⟨r₀, -, -, rfl⟩ | ⟨hold, -⟩
  · cases hres
  · exact hnone r hold version hq hres m hstored

theorem NoneWaits.answer (hnone : s.NoneWaits) (name : CStr) (query : MetaQuery) (mdata : Option MetaData) :
    (s.answer name query mdata).NoneWaits := by
  intro r hr version hq hres m hstored
  rcases List.mem_append.1 hr with hr | hr
  · exact hnone r hr version hq hres m hstored
  · obtain rfl := List.mem_singleton.1 hr
    cases hres

theorem NoneWaits.subscribe (hnone : s.NoneWaits) (h : s.Single) (hok : s.Ok) {name : CStr} {query : MetaQuery}
    (index : Nat) (hlook : s.ls.lookup name query = some none) :
    (s.subscribe name query index query.subVersion).NoneWaits := by
  intro r hr version hq hres m hstored
  rcases List.mem_append.1 hr with hr | hr
  · exact hnone r hr version hq hres m hstored
  · -- the call has just looked for it
    obtain rfl := List.mem_singleton.1 hr
    obtain rfl : query = .entry version := hq
    have hnonneg := h.nonneg m hstored
    obtain ⟨n, hm⟩ := hstored
    exact MetaStore.not_isEntry_of_lsFindMeta hok.size_pos hm (h.bin n m hm) hnonneg hlook

/-! ## Runs in which test and insertion are one step -/

/-- A state between whole steps of `ls_add_meta` and of the readers. -/
structure Settled (s : MetaState) : Prop where
  ok : s.Ok
  single : s.Single
  noneWaits : s.NoneWaits

theorem Settled.step (h : s.Settled) {e : MetaEvent} (hpost : e.PostNonneg) (hstep : s.step e = some s') :
    s'.Settled := by
  refine ⟨h.ok.step hstep, ?_, ?_⟩
  · rcases step_cases hstep with ⟨-, rfl⟩ | ⟨mdata, rfl, hfind, rfl⟩ | ⟨k, mdata, -, -, rfl⟩ |
      ⟨name, query, mdata, -, hlook, rfl⟩ | ⟨name, query, index, -, -, hlook, rfl⟩
    · exact h.single
    · exact h.single.inserted h.ok hpost hfind
    · exact (h.single.withAdding _).finish (h.ok.withAdding _) mdata
    · exact h.single.answer h.ok hlook
    · exact h.single.subscribe h.ok name query index
  · rcases step_cases hstep with ⟨-, rfl⟩ | ⟨mdata, rfl, -, rfl⟩ | ⟨k, mdata, -, -, rfl⟩ |
      ⟨name, query, mdata, -, -, rfl⟩ | ⟨name, query, index, -, -, hlook, rfl⟩
    · exact h.noneWaits
    · exact h.noneWaits.inserted h.single h.ok hpost
    · exact NoneWaits.finish (s := { s with adding := s.adding.eraseIdx k }) h.noneWaits mdata
    · exact h.noneWaits.answer name query mdata
    · exact h.noneWaits.subscribe h.single h.ok index hlook

theorem settled_run {n : Nat} (hn : 0 < n) {es : List MetaEvent} (hes : ∀ e ∈ es, e.PostNonneg)
    (hrun : (init n).run es = some s) : s.Settled := by
  have hinit : (init n).Settled := ⟨ok_init hn, single_init n, by simp [NoneWaits, init]⟩
  exact isRun.keeps_along (P := Settled) (fun s e s' hs hpost hstep => hs.step hpost hstep) es _ s hinit
    (Runs.along_of_forall hes _) hrun

/-! ## What a settled state shows -/

/-- No two entries of the whole storage have the same name and version. -/
theorem Single.entries_pairwise (h : s.Single) :
    s.ls.entries.Pairwise fun a b => ¬ (a.name = b.name ∧ a.intVersion = b.intVersion) := by
  refine List.pairwise_flatMap.2 ⟨fun n _ => h.once n, ?_⟩
  refine List.pairwise_lt_range.imp fun {i j} hlt a ha b hb heq => ?_
  -- one version has one bin
  have hversion : a.version.toNat = b.version.toNat := by
    have hab := heq.2
    rw [MetaData.intVersion_eq (h.nonneg a ⟨i, ha⟩), MetaData.intVersion_eq (h.nonneg b ⟨j, hb⟩)] at hab
    exact Int.ofNat_inj.1 hab
  have hij : i = j :=
    calc
      i = s.ls.indexOf a := (h.bin i a ha).symm
      _ = s.ls.indexOf b := by rw [MetaStore.indexOf, MetaStore.indexOf, hversion]
      _ = j := h.bin j b hb
  omega

theorem Ok.mem_entries_iff (h : s.Ok) {mdata : MetaData} : mdata ∈ s.ls.entries ↔ s.ls.Stored mdata := by
  simp only [MetaStore.entries, List.mem_flatMap, List.mem_range]
  constructor
  · rintro ⟨n, -, hm⟩
    exact ⟨n, hm⟩
  · rintro ⟨n, hm⟩
    exact ⟨n, h.binned n mdata hm, hm⟩

/-- The entry of a name and a version. -/
theorem Single.entry_unique (h : s.Single) (hok : s.Ok) {name : CStr} {version : Int} {a b : MetaData}
    (ha : s.ls.Stored a) (hb : s.ls.Stored b) (hae : a.IsEntry name version) (hbe : b.IsEntry name version) :
    a = b := by
  by_contra hne
  have : Std.Symm fun a b : MetaData => ¬ (a.name = b.name ∧ a.intVersion = b.intVersion) :=
    ⟨fun _ _ hab heq => hab ⟨heq.1.symm, heq.2.symm⟩⟩
  exact h.entries_pairwise.forall (hok.mem_entries_iff.2 ha) (hok.mem_entries_iff.2 hb) hne
    ⟨hae.1.trans hbe.1.symm, hae.2.trans hbe.2.symm⟩

/-- In the bins are the subscriptions of calls for one version. -/
theorem Settled.not_entry_of_sub (h : s.Settled) {n : Nat} (hn : n < s.ls.sizeHash) {msub : MetaSub}
    (hmsub : msub ∈ s.ls.metaSubs n) {mdata : MetaData} (hstored : s.ls.Stored mdata) :
    ¬ mdata.IsEntry msub.name msub.version := by
  obtain ⟨r, hr, hcall, hname, hres, hhome⟩ := h.ok.subs n msub hmsub
  cases hq : r.query with
  | next curr =>
      rw [hq, MetaStore.home, Option.some.injEq] at hhome
      omega
  | entry version =>
      rw [← hname, h.single.subs n msub hmsub r hr hcall.symm version hq]
      exact h.noneWaits r hr version hq hres mdata hstored

end MetaState

/-! ## The handlers of `put_meta_rpc` -/

/-- Where a handler of `put_meta_rpc` is: before it has `ls_mutex`, before and after the test of
`ls_add_meta`, between its two steps, before it gives `ls_mutex` back, and after that. -/
inductive PostPc where
  | start
  | locked
  | tested
  | inserted
  | added
  | done
  deriving DecidableEq

structure MetaPost where
  mdata : MetaData
  pc : PostPc
  deriving DecidableEq

/-- The storage with its readers, the handler that has `ls_mutex`, and all handlers. -/
structure PostState where
  base : MetaState
  lsMutex : Option Nat
  posts : List MetaPost

inductive PostEvent where
  | post (mdata : MetaData)
  | handler (k : Nat)
  | entry (name : CStr) (version : Int) (wait : Bool)
  | next (name : CStr) (curr : Int) (wait : Bool)

namespace PostState

def init (maxVersions : Nat) : PostState where
  base := MetaState.init maxVersions
  lsMutex := none
  posts := []

/-- Handler `k` goes on to `pc`. -/
def goTo (s : PostState) (k : Nat) (post : MetaPost) (pc : PostPc) : PostState :=
  { s with posts := s.posts.set k { post with pc := pc } }

/-- The next step of a handler; one that finds `ls_mutex` taken does nothing yet. -/
def putMeta (s : PostState) (k : Nat) (post : MetaPost) : Option PostState :=
  match post.pc with
  | .start =>
      if s.lsMutex = none then some { s.goTo k post .locked with lsMutex := some k } else some s
  | .locked => do
      let found ← s.base.ls.lsFindMeta post.mdata.name post.mdata.intVersion
      match found with
      -- the name and the version are there already, and nothing is stored
      | some _ => return s.goTo k post .added
      | none => return s.goTo k post .tested
  | .tested => some { s.goTo k post .inserted with base := s.base.inserted post.mdata }
  | .inserted =>
      let base := { s.base with adding := s.base.adding.erase post.mdata }
      some { s.goTo k post .added with base := base.lsAddMetaFinish post.mdata }
  | .added => some { s.goTo k post .done with lsMutex := none }
  | .done => some s

def step (s : PostState) : PostEvent → Option PostState
  | .post mdata => some { s with posts := s.posts ++ [⟨mdata, .start⟩] }
  | .handler k =>
      match s.posts[k]? with
      | none => some s
      | some post => s.putMeta k post
  | .entry name version wait => (s.base.metaFindEntry name version wait).map fun base => { s with base := base }
  | .next name curr wait => (s.base.metaFindNextEntry name curr wait).map fun base => { s with base := base }

def run (s : PostState) (es : List PostEvent) : Option PostState :=
  es.foldlM step s

end PostState

/-- A handler that has `ls_mutex`. -/
def PostPc.Inside : PostPc → Prop
  | .start => False
  | .locked => True
  | .tested => True
  | .inserted => True
  | .added => True
  | .done => False

/-- A post of a version that is not negative. -/
def PostEvent.Nonneg : PostEvent → Prop
  | .post mdata => 0 ≤ mdata.intVersion
  | _ => True

/-- What a handler inside has found or done. -/
def MetaPost.Seen (base : MetaState) (post : MetaPost) : Prop :=
  match post.pc with
  | .tested => base.ls.lsFindMeta post.mdata.name post.mdata.intVersion = some none
  | .inserted => post.mdata ∈ base.adding
  | _ => True

theorem MetaPost.seen_of_not_inside {base : MetaState} {post : MetaPost} (h : ¬ post.pc.Inside) :
    post.Seen base := by
  rw [MetaPost.Seen]
  cases hpc : post.pc with
  | tested => exact absurd (by rw [hpc]; trivial) h
  | inserted => exact absurd (by rw [hpc]; trivial) h
  | start => trivial
  | locked => trivial
  | added => trivial
  | done => trivial

namespace PostState

/-- The storage and its readers are at the end of a run in which test and insertion are one step, and
what the handler inside has found still holds. -/
structure Inv (n : Nat) (s : PostState) : Prop where
  reach : ∃ es, (∀ e ∈ es, e.PostNonneg) ∧ (MetaState.init n).run es = some s.base
  nonneg : ∀ post ∈ s.posts, 0 ≤ post.mdata.intVersion
  owner : ∀ (k : Nat) (post : MetaPost), s.posts[k]? = some post → post.pc.Inside → s.lsMutex = some k
  seen : ∀ post ∈ s.posts, post.Seen s.base

variable {n : Nat} {s s' : PostState}

theorem inv_init (n : Nat) : (init n).Inv n where
  reach := ⟨[], by simp, rfl⟩
  nonneg := by simp [init]
  owner := by simp [init]
  seen := by simp [init]

/-- One more step of the run in which test and insertion are one step. -/
theorem Inv.reach_step (h : s.Inv n) {e : MetaEvent} {base : MetaState} (hpost : e.PostNonneg)
    (hstep : s.base.step e = some base) :
    ∃ es, (∀ e ∈ es, e.PostNonneg) ∧ (MetaState.init n).run es = some base := by
  obtain ⟨es, hes, hrun⟩ := h.reach
  refine ⟨es ++ [e], List.forall_mem_append.2 ⟨hes, by simpa using hpost⟩, ?_⟩
  rw [MetaState.run, List.foldlM_append]
  rw [MetaState.run] at hrun
  simp only [hrun, Option.bind_eq_bind, Option.bind_some, List.foldlM_cons, hstep, List.foldlM_nil,
    Option.pure_def]

/-- Handler `k` goes on while no other one is inside. -/
theorem Inv.goTo (h : s.Inv n) {k : Nat} {post : MetaPost} (hk : s.posts[k]? = some post) {pc : PostPc}
    {base : MetaState} {lsMutex : Option Nat}
    (halone : ∀ (k' : Nat) (post' : MetaPost), s.posts[k']? = some post' → post'.pc.Inside → k' = k)
    (hreach : ∃ es, (∀ e ∈ es, e.PostNonneg) ∧ (MetaState.init n).run es = some base)
    (howner : pc.Inside → lsMutex = some k) (hseen : MetaPost.Seen base { post with pc := pc }) :
    PostState.Inv n { s.goTo k post pc with base := base, lsMutex := lsMutex } := by
  have hget : ∀ (k' : Nat) (post' : MetaPost), (s.posts.set k { post with pc := pc })[k']? = some post' →
      (k' = k ∧ post' = { post with pc := pc }) ∨ (k' ≠ k ∧ s.posts[k']? = some post') := by
    intro k' post' hpost'
    rw [List.getElem?_set] at hpost'
    split at hpost'
    · next heq =>
        split at hpost'
        · exact Or.inl ⟨heq.symm, (Option.some.inj hpost').symm⟩
        · cases hpost'
    · next hne => exact Or.inr ⟨Ne.symm hne, hpost'⟩
  refine ⟨hreach, fun post' hpost' => ?_, fun k' post' hpost' hinside => ?_, fun post' hpost' => ?_⟩
  · rcases List.mem_or_eq_of_mem_set hpost' with hpost' | rfl
    · exact h.nonneg post' hpost'
    · exact h.nonneg post (List.mem_of_getElem? hk)
  · rcases hget k' post' hpost' with ⟨rfl, rfl⟩ | ⟨hne, hold⟩
    · exact howner hinside
    · exact absurd (halone k' post' hold hinside) hne
  · obtain ⟨k', hk'⟩ := List.getElem?_of_mem hpost'
    rcases hget k' post' hk' with ⟨-, rfl⟩ | ⟨hne, hold⟩
    · exact hseen
    · exact MetaPost.seen_of_not_inside fun hinside => hne (halone k' post' hold hinside)

/-- While handler `k` is inside no other one is. -/
theorem Inv.alone (h : s.Inv n) {k : Nat} {post : MetaPost} (hk : s.posts[k]? = some post)
    (hinside : post.pc.Inside) (k' : Nat) (post' : MetaPost) (hk' : s.posts[k']? = some post')
    (hinside' : post'.pc.Inside) : k' = k := by
  have howner := h.owner k post hk hinside
  rw [h.owner k' post' hk' hinside', Option.some.injEq] at howner
  exact howner

/-- The test of a handler still holds, so that test and insertion can be one step. -/
theorem Inv.step_add (h : s.Inv n) {post : MetaPost} (hmem : post ∈ s.posts) (hpc : post.pc = .tested) :
    s.base.step (.add post.mdata) = some (s.base.inserted post.mdata) := by
  have hseen := h.seen post hmem
  simp only [MetaPost.Seen, hpc] at hseen
  exact MetaState.step_add_of_none hseen

/-- What a handler has inserted is one of the `ls_add_meta` that are under way. -/
theorem Inv.step_deliver (h : s.Inv n) {post : MetaPost} (hmem : post ∈ s.posts) (hpc : post.pc = .inserted) :
    s.base.step (.deliver (s.base.adding.idxOf post.mdata)) =
      some (MetaState.lsAddMetaFinish { s.base with adding := s.base.adding.erase post.mdata } post.mdata) := by
  have hadding := h.seen post hmem
  simp only [MetaPost.Seen, hpc] at hadding
  have hlt := List.idxOf_lt_length_of_mem hadding
  have hget : s.base.adding[s.base.adding.idxOf post.mdata]? = some post.mdata := by
    rw [List.getElem?_eq_getElem hlt, List.getElem_idxOf hlt]
  rw [List.erase_eq_eraseIdx_of_idxOf rfl, MetaState.step]
  simp only [hget]

theorem Inv.putMeta (h : s.Inv n) {k : Nat} {post : MetaPost} (hk : s.posts[k]? = some post)
    (hstep : s.putMeta k post = some s') : s'.Inv n := by
  have hmem := List.mem_of_getElem? hk
  rw [PostState.putMeta] at hstep
  cases hpc : post.pc with
  | start =>
      simp only [hpc] at hstep
      split at hstep
      · next hfree =>
          cases hstep
          -- without an owner nobody is inside
          have hnobody : ∀ (k' : Nat) (post' : MetaPost), s.posts[k']? = some post' →
              post'.pc.Inside → k' = k := by
            intro k' post' hk' hinside
            have howner := h.owner k' post' hk' hinside
            rw [hfree] at howner
            cases howner
          exact h.goTo hk hnobody h.reach (fun _ => rfl) trivial
      · cases hstep
        exact h
  | locked =>
      have hinside : post.pc.Inside := by rw [hpc]; trivial
      simp only [hpc] at hstep
      obtain ⟨found, hfind, hstep⟩ := Option.bind_eq_some_iff.1 hstep
      have howner : ∀ pc : PostPc, pc.Inside → s.lsMutex = some k := fun _ _ => h.owner k post hk hinside
      cases found with
      | some _ =>
          cases hstep
          exact h.goTo hk (h.alone hk hinside) h.reach (howner _) trivial
      | none =>
          cases hstep
          exact h.goTo hk (h.alone hk hinside) h.reach (howner _) hfind
  | tested =>
      have hinside : post.pc.Inside := by rw [hpc]; trivial
      simp only [hpc, Option.some.injEq] at hstep
      subst hstep
      refine h.goTo hk (h.alone hk hinside)
        (h.reach_step (e := .add post.mdata) (h.nonneg post hmem) (h.step_add hmem hpc))
        (fun _ => h.owner k post hk hinside) ?_
      exact List.mem_append_right _ List.mem_cons_self
  | inserted =>
      have hinside : post.pc.Inside := by rw [hpc]; trivial
      simp only [hpc, Option.some.injEq] at hstep
      subst hstep
      exact h.goTo hk (h.alone hk hinside) (h.reach_step (e := .deliver _) trivial (h.step_deliver hmem hpc))
        (fun _ => h.owner k post hk hinside) trivial
  | added =>
      have hinside : post.pc.Inside := by rw [hpc]; trivial
      simp only [hpc, Option.some.injEq] at hstep
      subst hstep
      exact h.goTo hk (h.alone hk hinside) h.reach False.elim trivial
  | done =>
      simp only [hpc, Option.some.injEq] at hstep
      rw [← hstep]
      exact h

/-- A reader changes neither what is stored nor which `ls_add_meta` are under way. -/
theorem Inv.read (h : s.Inv n) {e : MetaEvent} (hadd : ∀ mdata, e ≠ .add mdata) (hdeliver : ∀ k, e ≠ .deliver k)
    {base : MetaState} (hstep : s.base.step e = some base) : PostState.Inv n { s with base := base } := by
  have hsame : base.ls.sizeHash = s.base.ls.sizeHash ∧ base.ls.metaHash = s.base.ls.metaHash ∧
      base.adding = s.base.adding := by
    rcases MetaState.step_cases hstep with ⟨-, rfl⟩ | ⟨mdata, he, -, -⟩ | ⟨k, mdata, he, -, -⟩ |
      ⟨name, query, mdata, -, -, rfl⟩ | ⟨name, query, index, -, -, -, rfl⟩
    · exact ⟨rfl, rfl, rfl⟩
    · exact absurd he (hadd mdata)
    · exact absurd he (hdeliver k)
    · exact ⟨rfl, rfl, rfl⟩
    · exact ⟨rfl, rfl, rfl⟩
  have hpost : e.PostNonneg := by
    cases e with
    | add mdata => exact absurd rfl (hadd mdata)
    | deliver _ => trivial
    | next _ _ _ => trivial
    | entry _ _ _ => trivial
  refine ⟨h.reach_step hpost hstep, h.nonneg, h.owner, fun post hmem => ?_⟩
  have hseen := h.seen post hmem
  have hfind : base.ls.lsFindMeta = s.base.ls.lsFindMeta := by
    funext name version
    simp only [MetaStore.lsFindMeta, MetaStore.index, hsame.1, hsame.2.1]
  simp only [MetaPost.Seen, hfind, hsame.2.2] at hseen ⊢
  exact hseen

theorem Inv.step (h : s.Inv n) {e : PostEvent} (hpost : e.Nonneg) (hstep : s.step e = some s') : s'.Inv n := by
  cases e with
  | post mdata =>
      cases hstep
      refine ⟨h.reach, ?_, fun k post hk hinside => ?_, ?_⟩
      · exact List.forall_mem_append.2 ⟨h.nonneg, List.forall_mem_singleton.2 hpost⟩
      · rw [List.getElem?_append] at hk
        split at hk
        · exact h.owner k post hk hinside
        · -- the new handler has not started
          obtain rfl := List.mem_singleton.1 (List.mem_of_getElem? hk)
          exact hinside.elim
      · exact List.forall_mem_append.2 ⟨h.seen, by simp [MetaPost.Seen]⟩
  | handler k =>
      rw [PostState.step] at hstep
      cases hk : s.posts[k]? with
      | none =>
          simp only [hk, Option.some.injEq] at hstep
          rw [← hstep]
          exact h
      | some post =>
          simp only [hk] at hstep
          exact h.putMeta hk hstep
  | entry name version wait =>
      obtain ⟨base, hbase, rfl⟩ := Option.map_eq_some_iff.1 hstep
      exact h.read (e := .entry name version wait) (by simp) (by simp) hbase
  | next name curr wait =>
      obtain ⟨base, hbase, rfl⟩ := Option.map_eq_some_iff.1 hstep
      exact h.read (e := .next name curr wait) (by simp) (by simp) hbase

theorem inv_run {es : List PostEvent} (hes : ∀ e ∈ es, e.Nonneg) (hrun : (init n).run es = some s) : s.Inv n :=
  (Runs.isRun_foldlM step).keeps_along (P := Inv n) (fun _ _ _ h hpost hstep => h.step hpost hstep) es _ s
    (inv_init n) (Runs.along_of_forall hes _) hrun

/-! ## No step is undefined -/

theorem Inv.isSome_handler (h : s.Inv n) (k : Nat) : (s.step (.handler k)).isSome := by
  rw [PostState.step]
  cases hk : s.posts[k]? with
  | none => rfl
  | some post =>
      have hnonneg := h.nonneg post (List.mem_of_getElem? hk)
      simp only [PostState.putMeta]
      cases post.pc with
      | start =>
          simp only
          split
          · rfl
          · rfl
      | locked =>
          obtain ⟨found, hfind⟩ :=
            Option.isSome_iff_exists.1 (MetaStore.isSome_lsFindMeta s.base.ls post.mdata.name hnonneg)
          simp only [hfind, Option.bind_eq_bind, Option.bind_some]
          cases found with
          | none => rfl
          | some _ => rfl
      | tested => rfl
      | inserted => rfl
      | added => rfl
      | done => rfl

theorem isSome_entry (s : PostState) (name : CStr) {version : Int} (wait : Bool) (h : 0 ≤ version) :
    (s.step (.entry name version wait)).isSome := by
  obtain ⟨found, hfind⟩ := Option.isSome_iff_exists.1 (MetaStore.isSome_lsFindMeta s.base.ls name h)
  simp only [PostState.step, MetaState.metaFindEntry, MetaStore.index_of_nonneg h, hfind, Option.bind_eq_bind,
    Option.bind_some, Option.isSome_map]
  split
  · rfl
  · rfl

end PostState

/-! ## Main result -/

/-- In every state of every run of any number of handlers and readers, whatever the order of their steps
and with versions that are not negative: no two entries have the same name and version; the readers of one
name and version that have metadata have the same, which is stored; no reader waits, in a bin or by its
result, for a version that is stored; and no handler and no reader of a version that is not negative is
stuck. -/
theorem putMeta_once {n : Nat} (hn : 1 ≤ n) {es : List PostEvent} (hes : ∀ e ∈ es, e.Nonneg) {s : PostState}
    (hrun : (PostState.init n).run es = some s) :
    (s.base.ls.entries.Pairwise fun a b => ¬ (a.name = b.name ∧ a.intVersion = b.intVersion)) ∧
    (∀ r ∈ s.base.reads, ∀ r' ∈ s.base.reads, r.name = r'.name → ∀ version, r.query = .entry version →
      r'.query = .entry version → ∀ m m', r.result = some (some m) → r'.result = some (some m') →
        m = m' ∧ m ∈ s.base.ls.entries ∧ m.name = r.name ∧ m.intVersion = version) ∧
    (∀ r ∈ s.base.reads, ∀ version, r.query = .entry version → r.result = none →
      ∀ m ∈ s.base.ls.entries, ¬ (m.name = r.name ∧ m.intVersion = version)) ∧
    (∀ i < n, ∀ msub ∈ s.base.ls.metaSubs i, ∀ m ∈ s.base.ls.entries,
      ¬ (m.name = msub.name ∧ m.intVersion = msub.version)) ∧
    (∀ k, (s.step (.handler k)).isSome) ∧
    ∀ name version wait, 0 ≤ version → (s.step (.entry name version wait)).isSome := by
  have hinv := PostState.inv_run hes hrun
  obtain ⟨es', hes', hrun'⟩ := hinv.reach
  have h := MetaState.settled_run hn hes' hrun'
  have hsize := MetaState.sizeHash_run hrun'
  refine ⟨h.single.entries_pairwise, ?_, ?_, ?_, hinv.isSome_handler, fun name version wait =>
    s.isSome_entry name wait⟩
  · intro r hr r' hr' hname version hq hq' m m' hres hres'
    obtain ⟨hstored, hentry⟩ := h.single.given r hr version hq m hres
    obtain ⟨hstored', hentry'⟩ := h.single.given r' hr' version hq' m' hres'
    rw [← hname] at hentry'
    exact ⟨h.single.entry_unique h.ok hstored hstored' hentry hentry', h.ok.mem_entries_iff.2 hstored,
      hentry.1, hentry.2⟩
  · intro r hr version hq hres m hm
    exact h.noneWaits r hr version hq hres m (h.ok.mem_entries_iff.1 hm)
  · intro i hi msub hmsub m hm
    exact h.not_entry_of_sub (by rw [hsize]; exact hi) hmsub (h.ok.mem_entries_iff.1 hm)

/-- A reader waits for version 3 while two handlers post it with different data. -/
def twoPosts : List PostEvent :=
  [.post ⟨[97], 3, [1]⟩, .post ⟨[97], 3, [2]⟩, .entry [97] 3 true, .handler 1, .handler 0, .handler 1,
    .handler 1, .entry [97] 3 true, .handler 1, .handler 1, .handler 0, .handler 0, .handler 0]

theorem putMeta_once_twoPosts :
    ∃ s, (PostState.init 2).run twoPosts = some s ∧
      (s.base.ls.entries.Pairwise fun a b => ¬ (a.name = b.name ∧ a.intVersion = b.intVersion)) ∧
      (∀ r ∈ s.base.reads, ∀ r' ∈ s.base.reads, r.name = r'.name → ∀ version, r.query = .entry version →
        r'.query = .entry version → ∀ m m', r.result = some (some m) → r'.result = some (some m') →
          m = m' ∧ m ∈ s.base.ls.entries ∧ m.name = r.name ∧ m.intVersion = version) ∧
      (∀ r ∈ s.base.reads, ∀ version, r.query = .entry version → r.result = none →
        ∀ m ∈ s.base.ls.entries, ¬ (m.name = r.name ∧ m.intVersion = version)) ∧
      (∀ i < 2, ∀ msub ∈ s.base.ls.metaSubs i, ∀ m ∈ s.base.ls.entries,
        ¬ (m.name = msub.name ∧ m.intVersion = msub.version)) ∧
      (∀ k, (s.step (.handler k)).isSome) ∧
      ∀ name version wait, 0 ≤ version → (s.step (.entry name version wait)).isSome := by
  have hrun : ((PostState.init 2).run twoPosts).isSome = true := by decide +kernel
  obtain ⟨s, hs⟩ := Option.isSome_iff_exists.1 hrun
  have hnonneg : ∀ e ∈ twoPosts, e.Nonneg := by
    simp only [twoPosts, List.forall_mem_cons, PostEvent.Nonneg]
    refine ⟨by decide, by decide, ?_⟩
    simp
  exact ⟨s, hs, putMeta_once (by decide) hnonneg hs⟩

end DataSpaces
