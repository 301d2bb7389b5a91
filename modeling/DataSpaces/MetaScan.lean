import Mathlib.Data.Int.ConditionallyCompleteOrder
import Mathlib.Order.ConditionallyCompleteLattice.Basic
import DataSpaces.Lib.Least
import DataSpaces.MetaNext

/-!
# MetaScan — which metadata the scan of `meta_find_next_entry` finds

The scan goes through the bins from that of `curr + 1` on and leaves a bin at the first candidate below
`curr + size_hash`.  Two versions of one bin that are newer than `curr` differ by a multiple of
`size_hash`, so that this candidate is the least of its bin, and the candidate that is left in the end is
the least of all.  `META_MODE_LAST` repeats the scan from what it found, up to the largest version.
-/

namespace DataSpaces

/-- Metadata in some bin. -/
def MetaStore.Stored (ls : MetaStore) (mdata : MetaData) : Prop :=
  ∃ n, mdata ∈ ls.metaHash n

/-- Every record is in the bin of its version, and its version is an `int` with room for the number of
bins. -/
structure MetaStore.Binned (ls : MetaStore) : Prop where
  size_pos : 0 < ls.sizeHash
  bin : ∀ n, ∀ mdata ∈ ls.metaHash n, ls.indexOf mdata = n
  nonneg : ∀ mdata, ls.Stored mdata → 0 ≤ mdata.intVersion
  room : ∀ mdata, ls.Stored mdata → mdata.intVersion + ls.sizeHash < 2 ^ 31

/-- The `int` with the bits of an `unsigned int`. -/
theorem MetaData.intVersion_cond (mdata : MetaData) : mdata.intVersion =
    if 2 * mdata.version.toNat < 2 ^ 32 then (mdata.version.toNat : Int) else mdata.version.toNat - (2 ^ 32 : Nat) :=
  BitVec.toInt_eq_toNat_cond mdata.version.toBitVec

theorem MetaData.intVersion_eq {mdata : MetaData} (h : 0 ≤ mdata.intVersion) :
    mdata.intVersion = mdata.version.toNat := by
  have hlt := mdata.version.toNat_lt
  rw [MetaData.intVersion_cond] at h ⊢
  split at h
  · next hsmall => rw [if_pos hsmall]
  · omega

/-- Versions that are not negative compare alike as `int` and as `unsigned int`. -/
theorem MetaData.version_lt_iff {mdata mdata' : MetaData} (h : 0 ≤ mdata.intVersion) (h' : 0 ≤ mdata'.intVersion) :
    mdata.version < mdata'.version ↔ mdata.intVersion < mdata'.intVersion := by
  rw [MetaData.intVersion_eq h, MetaData.intVersion_eq h', UInt32.lt_iff_toNat_lt, Int.ofNat_lt]

namespace MetaStore

section Scan

variable {ls : MetaStore} {name : CStr} {curr : Int} {sizeHash : Nat}

/-- Through one bin, in which a candidate below `curr + size_hash` is the least one. -/
theorem nextInBin_least (name : CStr) (hbound : curr + sizeHash < 2 ^ 31) (hcurr : -1 ≤ curr) (l : List MetaData) :
    ∀ (C : MetaData → Prop) (mdres : Option MetaData), LeastBy MetaData.intVersion C mdres →
      (∀ mdata, C mdata → 0 ≤ mdata.intVersion) → (∀ mdata ∈ l, 0 ≤ mdata.intVersion) →
      (∀ mdata ∈ l, mdata.IsNext name curr → mdata.intVersion < curr + sizeHash →
        ∀ mdata' ∈ l, mdata'.IsNext name curr → mdata.intVersion ≤ mdata'.intVersion) →
      ∃ res, nextInBin name curr sizeHash l mdres = some res ∧
        LeastBy MetaData.intVersion (fun m => C m ∨ (m ∈ l ∧ m.IsNext name curr)) res := by
  induction l with
  | nil =>
      intro C mdres h _ _ _
      exact ⟨mdres, rfl, h.congr fun m => by simp⟩
  | cons mdata l ih =>
      intro C mdres h hC hl hfirst
      have hnonneg := hl mdata List.mem_cons_self
      have hfirst' : ∀ m ∈ l, m.IsNext name curr → m.intVersion < curr + sizeHash →
          ∀ m' ∈ l, m'.IsNext name curr → m.intVersion ≤ m'.intVersion :=
        fun m hm hnext hlt m' hm' => hfirst m (List.mem_cons_of_mem _ hm) hnext hlt m' (List.mem_cons_of_mem _ hm')
      have hl' : ∀ m ∈ l, 0 ≤ m.intVersion := fun m hm => hl m (List.mem_cons_of_mem _ hm)
      rw [nextInBin]
      by_cases hc : mdata.name = name ∧ mdata.intVersion > curr ∧
          (mdres.all fun old => mdata.version < old.version) = true
      · -- a new candidate, below the old one
        rw [if_pos hc, cInt, if_pos (by omega), Option.bind_eq_bind, Option.bind_some]
        have hnext : mdata.IsNext name curr := ⟨hc.1, hc.2.1⟩
        have hlt : ∀ old, mdres = some old → mdata.intVersion ≤ old.intVersion := by
          rintro old rfl
          have hver : mdata.version < old.version := by simpa using hc.2.2
          exact ((MetaData.version_lt_iff hnonneg (hC old h.1)).1 hver).le
        by_cases hstop : mdata.intVersion < curr + sizeHash
        · -- the rest of the bin is not looked at
          rw [if_pos hstop]
          refine ⟨some mdata, rfl, h.replace (Or.inr ⟨List.mem_cons_self, hnext⟩) (fun m hm => ?_) hlt⟩
          exact hm.imp_right fun hm => hfirst mdata List.mem_cons_self hnext hstop m hm.1 hm.2
        · rw [if_neg hstop]
          have h' : LeastBy MetaData.intVersion (fun m => C m ∨ m = mdata) (some mdata) :=
            h.replace (Or.inr rfl) (fun m hm => hm.imp_right fun hm => by rw [hm]) hlt
          obtain ⟨res, hres, hleast⟩ := ih _ _ h' (fun m hm => hm.elim (hC m) fun hm => hm ▸ hnonneg) hl' hfirst'
          exact ⟨res, hres, hleast.congr fun m => by grind⟩
      · rw [if_neg hc]
        by_cases hnext : mdata.IsNext name curr
        · -- the candidate so far is not above it
          have hold : ∃ old, mdres = some old ∧ ¬ mdata.version < old.version := by
            cases mdres with
            | none => exact absurd ⟨hnext.1, hnext.2, rfl⟩ hc
            | some old => exact ⟨old, rfl, fun hlt => hc ⟨hnext.1, hnext.2, by simpa using hlt⟩⟩
          obtain ⟨old, rfl, hge⟩ := hold
          have hle : old.intVersion ≤ mdata.intVersion :=
            Int.not_lt.1 fun hlt => hge ((MetaData.version_lt_iff hnonneg (hC old h.1)).2 hlt)
          have h' : LeastBy MetaData.intVersion (fun m => C m ∨ m = mdata) (some old) :=
            h.keep (fun m hm => Or.inl hm) fun m hm => hm.imp_right fun hm => by rw [hm]; exact hle
          obtain ⟨res, hres, hleast⟩ := ih _ _ h' (fun m hm => hm.elim (hC m) fun hm => hm ▸ hnonneg) hl' hfirst'
          exact ⟨res, hres, hleast.congr fun m => by grind⟩
        · obtain ⟨res, hres, hleast⟩ := ih C mdres h hC hl' hfirst'
          exact ⟨res, hres, hleast.congr fun m => by grind⟩

/-- Below `curr + size_hash` a bin has one version that is newer than `curr`. -/
theorem Binned.le_of_next (h : ls.Binned) {n : Nat} {mdata mdata' : MetaData}
    (hm : mdata ∈ ls.metaHash n) (hm' : mdata' ∈ ls.metaHash n) (hnext' : mdata'.IsNext name curr)
    (hlt : mdata.intVersion < curr + ls.sizeHash) : mdata.intVersion ≤ mdata'.intVersion := by
  have hnonneg := h.nonneg mdata ⟨n, hm⟩
  have hnonneg' := h.nonneg mdata' ⟨n, hm'⟩
  have hnew := hnext'.2
  rw [MetaData.intVersion_eq hnonneg] at hlt ⊢
  rw [MetaData.intVersion_eq hnonneg'] at hnew ⊢
  by_contra hcon
  -- the versions of a bin differ by a multiple of the number of bins
  have hmod : mdata.version.toNat % ls.sizeHash = mdata'.version.toNat % ls.sizeHash :=
    calc
      mdata.version.toNat % ls.sizeHash = n := h.bin n mdata hm
      _ = mdata'.version.toNat % ls.sizeHash := (h.bin n mdata' hm').symm
  have hdvd : ls.sizeHash ∣ mdata.version.toNat - mdata'.version.toNat :=
    Nat.dvd_of_mod_eq_zero (Nat.sub_mod_eq_zero_of_mod_eq hmod)
  have := Nat.le_of_dvd (by omega) hdvd
  omega

theorem scanFold_least (h : ls.Binned) (name : CStr) (hcurr : -1 ≤ curr) (hbound : curr + ls.sizeHash < 2 ^ 31)
    (is : List Nat) :
    ∀ (C : MetaData → Prop) (mdres : Option MetaData), (∀ i ∈ is, i < ls.sizeHash) →
      LeastBy MetaData.intVersion C mdres → (∀ mdata, C mdata → 0 ≤ mdata.intVersion) →
      ∃ res, is.foldlM (fun mdres (i : Nat) => do
          let version ← cInt (curr + i + 1)
          let index ← ls.index version
          nextInBin name curr ls.sizeHash (ls.metaHash index) mdres) mdres = some res ∧
        LeastBy MetaData.intVersion (fun m => C m ∨ ∃ i ∈ is,
          m ∈ ls.metaHash ((curr + i + 1) % ls.sizeHash).toNat ∧ m.IsNext name curr) res := by
  induction is with
  | nil =>
      intro C mdres _ hleast _
      exact ⟨mdres, rfl, hleast.congr fun m => by simp⟩
  | cons i is ih =>
      intro C mdres his hleast hC
      have hi := his i List.mem_cons_self
      -- the bin of `curr + i + 1` adds its newer metadata to the candidates
      obtain ⟨mid, hmid, hleast⟩ := nextInBin_least name hbound hcurr
        (ls.metaHash ((curr + i + 1) % ls.sizeHash).toNat) C mdres hleast hC
        (fun m hm => h.nonneg m ⟨_, hm⟩)
        fun m hm hnext hlt m' hm' hnext' => h.le_of_next hm hm' hnext' hlt
      obtain ⟨res, hres, hleast⟩ := ih _ mid (fun j hj => his j (List.mem_cons_of_mem _ hj)) hleast
        fun m hm => hm.elim (hC m) fun hm => h.nonneg m ⟨_, hm.1⟩
      refine ⟨res, ?_, hleast.congr fun m => ?_⟩
      · have hver : cInt (curr + i + 1) = some (curr + i + 1) := if_pos (by omega)
        have hindex : ls.index (curr + i + 1) = some ((curr + i + 1) % ls.sizeHash).toNat :=
          index_of_nonneg (by omega)
        simp only [List.foldlM_cons, hver, hindex, Option.bind_eq_bind, Option.bind_some, hmid]
        exact hres
      · simp only [List.exists_mem_cons_iff, or_assoc]

/-- The scan finds the least of the newer metadata of the name. -/
theorem scanNext_least (h : ls.Binned) (name : CStr) (hcurr : -1 ≤ curr)
    (hbound : curr + ls.sizeHash < 2 ^ 31) :
    ∃ res, ls.scanNext name curr = some res ∧
      LeastBy MetaData.intVersion (fun m => ls.Stored m ∧ m.IsNext name curr) res := by
  have hnone : LeastBy MetaData.intVersion (fun _ : MetaData => False) none := fun _ => id
  obtain ⟨res, hres, hleast⟩ := scanFold_least h name hcurr hbound (List.range ls.sizeHash) _ none
    (fun i hi => List.mem_range.1 hi) hnone fun _ => False.elim
  refine ⟨res, hres, hleast.congr fun m => ?_⟩
  constructor
  · rintro (hfalse | ⟨i, -, hm, hnext⟩)
    · exact hfalse.elim
    · exact ⟨⟨_, hm⟩, hnext⟩
  · rintro ⟨⟨n, hm⟩, hnext⟩
    -- every bin is one of those that the scan goes through
    have hn : n < ls.sizeHash := by
      rw [← h.bin n m hm]
      exact Nat.mod_lt _ h.size_pos
    have hdefined : ∀ i < ls.sizeHash, ∃ index, ls.index (curr + i + 1) = some index :=
      fun i _ => ⟨_, index_of_nonneg (by omega)⟩
    obtain ⟨i, hi, hindex⟩ := exists_index_of_defined hdefined hn
    rw [index_of_nonneg (by omega), Option.some.injEq] at hindex
    exact Or.inr ⟨i, List.mem_range.2 hi, by rw [hindex]; exact hm, hnext⟩

end Scan

/-! ## The last version -/

/-- The loop of `META_MODE_LAST` in `query_meta_rpc`, from the metadata of its first call on. -/
def lastLoop (ls : MetaStore) (name : CStr) : Nat → MetaData → Option MetaData
  | 0, _ => none
  | fuel + 1, mdlatest => do
      match ← ls.scanNext name mdlatest.intVersion with
      | none => return mdlatest
      | some mdnext => lastLoop ls name fuel mdnext

/-- `META_MODE_LAST` on a store that does not change meanwhile.  With nothing newer than `curr` the first
call waits and there is no result. -/
def queryMetaLast (ls : MetaStore) (name : CStr) (curr : Int) (fuel : Nat) : Option MetaData := do
  match ← ls.scanNext name curr with
  | none => none
  | some mdlatest => ls.lastLoop name fuel mdlatest

section Last

variable {ls : MetaStore} {name : CStr} {curr : Int}

/-- Stored metadata of the name with the largest version. -/
def IsLast (ls : MetaStore) (name : CStr) (last : MetaData) : Prop :=
  ls.Stored last ∧ last.name = name ∧
    ∀ mdata, ls.Stored mdata → mdata.name = name → mdata.intVersion ≤ last.intVersion

/-- A loop that has ended does not look at the rest of its fuel. -/
theorem lastLoop_add (k fuel : Nat) : ∀ mdlatest last : MetaData, ls.lastLoop name fuel mdlatest = some last →
    ls.lastLoop name (fuel + k) mdlatest = some last := by
  induction fuel with
  | zero =>
      intro _ _ h
      cases h
  | succ fuel ih =>
      intro mdlatest last h
      obtain ⟨res, hscan, h⟩ := Option.bind_eq_some_iff.1 h
      rw [Nat.add_right_comm, lastLoop, hscan]
      cases res with
      | none => exact h
      | some mdnext => exact ih mdnext last h

/-- Every turn of the loop gets to a larger version, and all versions are below `2 ^ 31`. -/
theorem lastLoop_spec (h : ls.Binned) (fuel : Nat) :
    ∀ mdlatest : MetaData, ls.Stored mdlatest → mdlatest.name = name →
      2 ^ 31 ≤ mdlatest.intVersion + fuel → ∃ last, ls.lastLoop name fuel mdlatest = some last ∧
        ls.IsLast name last := by
  induction fuel with
  | zero =>
      intro mdlatest hstored _ hfuel
      have := h.room mdlatest hstored
      omega
  | succ fuel ih =>
      intro mdlatest hstored hname hfuel
      have hnonneg := h.nonneg mdlatest hstored
      obtain ⟨res, hscan, hleast⟩ := scanNext_least h name (show -1 ≤ mdlatest.intVersion by omega)
        (h.room mdlatest hstored)
      cases res with
      | none =>
          refine ⟨mdlatest, ?_, hstored, hname, fun m hm hmname => ?_⟩
          · simp only [lastLoop, hscan, Option.bind_eq_bind, Option.bind_some, Option.pure_def]
          · exact Int.not_lt.1 fun hlt => hleast m ⟨hm, hmname, hlt⟩
      | some mdnext =>
          obtain ⟨hstored', hname', hlt⟩ := hleast.1
          obtain ⟨last, hlast, his⟩ := ih mdnext hstored' hname' (by omega)
          refine ⟨last, ?_, his⟩
          simp only [lastLoop, hscan, Option.bind_eq_bind, Option.bind_some, hlast]

end Last

end MetaStore

/-! ## Stores built by `ls_add_meta` -/

section Built

variable {ls ls' : MetaStore} {mdata : MetaData}

/-- The subscriptions play no part. -/
theorem MetaStore.Binned.congr (h : ls.Binned) (hsize : ls'.sizeHash = ls.sizeHash)
    (hhash : ls'.metaHash = ls.metaHash) : ls'.Binned := by
  have hstored : ∀ m, ls'.Stored m → ls.Stored m := fun m ⟨n, hm⟩ => ⟨n, hhash ▸ hm⟩
  refine ⟨hsize ▸ h.size_pos, fun n m hm => ?_, fun m hm => h.nonneg m (hstored m hm), fun m hm => ?_⟩
  · rw [hhash] at hm
    rw [MetaStore.indexOf, hsize]
    exact h.bin n m hm
  · rw [hsize]
    exact h.room m (hstored m hm)

theorem MetaStore.stored_insert {m : MetaData} : (ls.insert mdata).Stored m ↔ m = mdata ∨ ls.Stored m := by
  simp only [MetaStore.Stored, MetaStore.mem_insert]
  constructor
  · rintro ⟨n, ⟨-, rfl⟩ | hm⟩
    · exact Or.inl rfl
    · exact Or.inr ⟨n, hm⟩
  · rintro (rfl | ⟨n, hm⟩)
    · exact ⟨_, Or.inl ⟨rfl, rfl⟩⟩
    · exact ⟨n, Or.inr hm⟩

theorem MetaStore.Binned.insert (h : ls.Binned) (hnonneg : 0 ≤ mdata.intVersion)
    (hroom : mdata.intVersion + ls.sizeHash < 2 ^ 31) : (ls.insert mdata).Binned := by
  refine ⟨h.size_pos, fun n m hm => ?_, fun m hm => ?_, fun m hm => ?_⟩
  · rcases MetaStore.mem_insert.1 hm with ⟨rfl, rfl⟩ | hm
    · rfl
    · exact h.bin n m hm
  · rcases MetaStore.stored_insert.1 hm with rfl | hm
    · exact hnonneg
    · exact h.nonneg m hm
  · rcases MetaStore.stored_insert.1 hm with rfl | hm
    · exact hroom
    · exact h.room m hm

variable {s s' : MetaState}

/-- Only a new post changes what is stored. -/
theorem MetaState.step_stored {e : MetaEvent} (hstep : s.step e = some s') :
    (s'.ls.sizeHash = s.ls.sizeHash ∧ s'.ls.metaHash = s.ls.metaHash) ∨
      ∃ mdata, e = .add mdata ∧ s' = s.inserted mdata := by
  rcases step_cases hstep with ⟨-, rfl⟩ | ⟨mdata, he, -, rfl⟩ | ⟨k, mdata, -, -, rfl⟩ |
    ⟨name, query, mdata, -, -, rfl⟩ | ⟨name, query, index, -, -, -, rfl⟩
  · exact Or.inl ⟨rfl, rfl⟩
  · exact Or.inr ⟨mdata, he, rfl⟩
  · exact Or.inl ⟨rfl, rfl⟩
  · exact Or.inl ⟨rfl, rfl⟩
  · exact Or.inl ⟨rfl, rfl⟩

/-- A post has a version that is not negative and leaves room for the number of bins. -/
def MetaEvent.PostFits (n : Nat) : MetaEvent → Prop
  | .add mdata => 0 ≤ mdata.intVersion ∧ mdata.intVersion + (n : Int) < 2 ^ 31
  | _ => True

theorem binned_run {n : Nat} (hn : 1 ≤ n) {es : List MetaEvent} (hes : ∀ e ∈ es, e.PostFits n)
    (hrun : (MetaState.init n).run es = some s) : s.ls.Binned ∧ s.ls.sizeHash = n := by
  have hinit : (MetaState.init n).ls.Binned ∧ (MetaState.init n).ls.sizeHash = n :=
    ⟨⟨hn, by simp [MetaState.init, metaAlloc], by simp [MetaState.init, metaAlloc, MetaStore.Stored],
      by simp [MetaState.init, metaAlloc, MetaStore.Stored]⟩, rfl⟩
  have hallowed : Runs.Along (fun es s => MetaState.run s es) (fun _ e => e.PostFits n) es
      (MetaState.init n) :=
    Runs.along_of_forall hes _
  refine MetaState.isRun.keeps_along (P := fun s : MetaState => s.ls.Binned ∧ s.ls.sizeHash = n) ?_ es _ s
    hinit hallowed hrun
  rintro s e s' ⟨hbinned, hsize⟩ hfit hstep
  rcases MetaState.step_stored hstep with ⟨hs, hh⟩ | ⟨mdata, rfl, rfl⟩
  · exact ⟨hbinned.congr hs hh, hs.trans hsize⟩
  · obtain ⟨hnonneg, hroom⟩ := hfit
    exact ⟨(hbinned.insert hnonneg (by rw [hsize]; exact hroom)).congr rfl rfl, hsize⟩

end Built

/-! ## Main result -/

/-- For every store that `ls_add_meta` built, with any number of bins and any calls in between, and every
`curr`: `meta_find_next_entry` without waiting returns the stored metadata of the name with the smallest
version greater than `curr`, and nothing iff there is none; and if there is some, the loop of
`META_MODE_LAST` ends with the metadata of the largest version of the name. -/
theorem metaFindNextEntry_least {n : Nat} (hn : 1 ≤ n) {es : List MetaEvent} (hes : ∀ e ∈ es, e.PostFits n)
    {s : MetaState} (hrun : (MetaState.init n).run es = some s) (name : CStr) {curr : Int}
    (hcurr : -1 ≤ curr) (hbound : curr + n < 2 ^ 31) :
    (∃ res, s.metaFindNextEntry name curr false = some (s.answer name (.next curr) res) ∧
      (res = none ↔ ∀ mdata, s.ls.Stored mdata → mdata.name = name → mdata.intVersion ≤ curr) ∧
      ∀ mdata, res = some mdata → s.ls.Stored mdata ∧ mdata.name = name ∧ curr < mdata.intVersion ∧
        ∀ mdata', s.ls.Stored mdata' → mdata'.name = name → curr < mdata'.intVersion →
          mdata.intVersion ≤ mdata'.intVersion) ∧
    ((∃ mdata, s.ls.Stored mdata ∧ mdata.name = name ∧ curr < mdata.intVersion) →
      ∃ last turns, s.ls.IsLast name last ∧
        ∀ fuel, turns ≤ fuel → s.ls.queryMetaLast name curr fuel = some last) := by
  obtain ⟨hbinned, hsize⟩ := binned_run hn hes hrun
  obtain ⟨res, hscan, hleast⟩ := MetaStore.scanNext_least hbinned name hcurr (by rw [hsize]; exact hbound)
  constructor
  · refine ⟨res, ?_, ?_, fun mdata hres => ?_⟩
    · simp only [MetaState.metaFindNextEntry, hscan, Option.bind_eq_bind, Option.bind_some, or_true, if_true]
      rfl
    · rw [hleast.none_iff]
      exact ⟨fun h m hm hname => Int.not_lt.1 fun hlt => h m ⟨hm, hname, hlt⟩,
        fun h m hm => Int.not_lt.2 (h m hm.1 hm.2.1) hm.2.2⟩
    · rw [hres] at hleast
      obtain ⟨⟨hstored, hname, hlt⟩, hmin⟩ := hleast
      exact ⟨hstored, hname, hlt, fun m hm hmname hmlt => hmin m ⟨hm, hmname, hmlt⟩⟩
  · rintro ⟨mdata, hstored, hname, hlt⟩
    cases res with
    | none => exact absurd ⟨hstored, hname, hlt⟩ (hleast mdata)
    -- the versions grow with every turn and are below `2 ^ 31`
    | some mdlatest =>
        obtain ⟨hstored', hname', hlt'⟩ := hleast.1
        have hnonneg := hbinned.nonneg mdlatest hstored'
        obtain ⟨last, hlast, his⟩ :=
          MetaStore.lastLoop_spec hbinned (2 ^ 31) mdlatest hstored' hname' (by omega)
        refine ⟨last, 2 ^ 31, his, fun fuel hfuel => ?_⟩
        obtain ⟨k, rfl⟩ := Nat.exists_eq_add_of_le hfuel
        have hmore := MetaStore.lastLoop_add k (2 ^ 31) mdlatest last hlast
        simp only [MetaStore.queryMetaLast, hscan, Option.bind_eq_bind, Option.bind_some, hmore]

/-- Versions 5 and 2 of one name in three bins; a reader has version 1. -/
theorem metaFindNextEntry_least_sparse :
    ∃ s, (MetaState.init 3).run [.add ⟨[97], 5, []⟩, .add ⟨[97], 2, []⟩] = some s ∧
      (∃ res, s.metaFindNextEntry [97] 1 false = some (s.answer [97] (.next 1) res) ∧
        (res = none ↔ ∀ mdata, s.ls.Stored mdata → mdata.name = [97] → mdata.intVersion ≤ 1) ∧
        ∀ mdata, res = some mdata → s.ls.Stored mdata ∧ mdata.name = [97] ∧ 1 < mdata.intVersion ∧
          ∀ mdata', s.ls.Stored mdata' → mdata'.name = [97] → 1 < mdata'.intVersion →
            mdata.intVersion ≤ mdata'.intVersion) ∧
      ((∃ mdata, s.ls.Stored mdata ∧ mdata.name = [97] ∧ 1 < mdata.intVersion) →
        ∃ last turns, s.ls.IsLast [97] last ∧
          ∀ fuel, turns ≤ fuel → s.ls.queryMetaLast [97] 1 fuel = some last) := by
  have hrun : ((MetaState.init 3).run [.add ⟨[97], 5, []⟩, .add ⟨[97], 2, []⟩]).isSome = true := by
    decide +kernel
  obtain ⟨s, hs⟩ := Option.isSome_iff_exists.1 hrun
  have hfits : ∀ e ∈ [MetaEvent.add ⟨[97], 5, []⟩, MetaEvent.add ⟨[97], 2, []⟩], e.PostFits 3 := by
    intro e he
    rcases List.mem_pair.1 he with rfl | rfl
    · exact ⟨by decide, by decide⟩
    · exact ⟨by decide, by decide⟩
  exact ⟨s, hs, metaFindNextEntry_least (by decide) hfits hs [97] (by decide) (by decide)⟩

end DataSpaces
