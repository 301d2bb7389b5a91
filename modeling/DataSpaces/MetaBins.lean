import Mathlib.Data.Int.Order.Basic
import DataSpaces.MetaScan

/-!
# MetaBins — the bin of a version

The remainder modulo `size_hash` is written with an `unsigned int` version where metadata is inserted, and
with an `int` version where it is looked for.  From 0 on the two are the same bin.  Below 0 the signed one
is in front of the first bin, or it is bin 0, which the unsigned one is only if `size_hash` divides `2 ^ 32`.
-/

namespace DataSpaces

theorem MetaData.intVersion_of_neg {mdata : MetaData} (h : mdata.intVersion < 0) :
    mdata.intVersion = mdata.version.toNat - 2 ^ 32 := by
  rw [MetaData.intVersion_cond] at h ⊢
  split at h
  · omega
  · next hbig =>
      rw [if_neg hbig]
      rfl

namespace MetaStore

variable {ls : MetaStore} {curr : Int}

/-- Inserting and looking for a version use the same bin. -/
theorem index_eq_indexOf_iff {mdata : MetaData} (hsize : 0 < ls.sizeHash) :
    ls.index mdata.intVersion = some (ls.indexOf mdata) ↔
      0 ≤ mdata.intVersion ∨ ((ls.sizeHash : Int) ∣ mdata.intVersion ∧ ls.sizeHash ∣ 2 ^ 32) := by
  rcases Int.lt_or_le mdata.intVersion 0 with hneg | hnonneg
  · have hver := MetaData.intVersion_of_neg hneg
    have hdvd_iff : (ls.sizeHash : Int) ∣ mdata.intVersion →
        (ls.sizeHash ∣ mdata.version.toNat ↔ ls.sizeHash ∣ 2 ^ 32) := by
      intro hdvd
      rw [← Int.natCast_dvd_natCast, ← Int.natCast_dvd_natCast (n := 2 ^ 32)]
      have hsum : (mdata.version.toNat : Int) = mdata.intVersion + (2 ^ 32 : Nat) := by omega
      rw [hsum]
      exact (Int.dvd_add_right hdvd)
    constructor
    · intro h
      have hzero := emod_eq_zero_of_index hneg h hsize
      have hdvd := Int.dvd_neg.1 (Int.dvd_of_emod_eq_zero hzero)
      rw [index_of_dvd hdvd, Option.some.injEq] at h
      exact Or.inr ⟨hdvd, (hdvd_iff hdvd).1 (Nat.dvd_of_mod_eq_zero h.symm)⟩
    · rintro (hnonneg | ⟨hdvd, hpow⟩)
      · omega
      · rw [index_of_dvd hdvd, indexOf, Nat.mod_eq_zero_of_dvd ((hdvd_iff hdvd).2 hpow)]
  · refine iff_of_true ?_ (Or.inl hnonneg)
    rw [index_of_nonneg hnonneg, MetaData.intVersion_eq hnonneg, indexOf]
    rfl

/-- The indices of the scan from `curr + 1` on. -/
theorem scan_index_iff (hsize : 0 < ls.sizeHash) (hcurr : -2 ^ 31 ≤ curr) :
    (∀ i < ls.sizeHash, ∃ version, cInt (curr + i + 1) = some version ∧
      ∃ index < ls.sizeHash, ls.index version = some index) ↔
    curr + ls.sizeHash < 2 ^ 31 ∧ (-1 ≤ curr ∨ ls.sizeHash = 1) := by
  constructor
  · intro h
    have hdefined : ∀ i < ls.sizeHash, curr + i + 1 < 2 ^ 31 ∧
        ∃ index, ls.index (curr + i + 1) = some index := by
      intro i hi
      obtain ⟨version, hver, index, -, hindex⟩ := h i hi
      rw [cInt] at hver
      split at hver
      · next hint =>
          cases hver
          exact ⟨hint.2, index, hindex⟩
      · cases hver
    have hlast := (hdefined (ls.sizeHash - 1) (by omega)).1
    refine ⟨by omega, (curr_of_defined fun i hi => (hdefined i hi).2).imp_right fun hone => by omega⟩
  · rintro ⟨hbound, hfirst⟩ i hi
    refine ⟨curr + i + 1, if_pos (by omega), ?_⟩
    rcases hfirst with hfirst | hone
    · have hindex : ls.index (curr + i + 1) = some ((curr + i + 1) % ls.sizeHash).toNat :=
        index_of_nonneg (by omega)
      exact ⟨_, lt_of_index hsize hindex, hindex⟩
    · exact ⟨0, hsize, index_of_one hone⟩

theorem lsFindMeta_of_mem {mdata : MetaData} {index : Nat} (hindex : ls.index mdata.intVersion = some index)
    (hmem : mdata ∈ ls.metaHash index) : ∃ m, ls.lsFindMeta mdata.name mdata.intVersion = some (some m) ∧
      m.name = mdata.name ∧ m.intVersion = mdata.intVersion := by
  have hsome : ((ls.metaHash index).find? fun m =>
      mdata.name = m.name ∧ m.intVersion = mdata.intVersion).isSome = true :=
    List.find?_isSome.2 ⟨mdata, hmem, by simp⟩
  obtain ⟨m, hm⟩ := Option.isSome_iff_exists.1 hsome
  have hfound := List.find?_some hm
  rw [decide_eq_true_eq] at hfound
  exact ⟨m, by rw [lsFindMeta, hindex, Option.map_some, hm], hfound.1.symm, hfound.2⟩

end MetaStore

/-! ## Metadata stays where it is -/

namespace MetaState

variable {s s' : MetaState}

/-- No step removes metadata from a bin. -/
theorem keeps_mem {index : Nat} {mdata : MetaData} {es : List MetaEvent}
    (hmem : mdata ∈ s.ls.metaHash index) (hrun : s.run es = some s') :
    s'.ls.sizeHash = s.ls.sizeHash ∧ mdata ∈ s'.ls.metaHash index := by
  refine isRun.keeps
    (P := fun s₁ : MetaState => s₁.ls.sizeHash = s.ls.sizeHash ∧ mdata ∈ s₁.ls.metaHash index) ?_ es s s'
    ⟨rfl, hmem⟩ hrun
  rintro s₁ e s₂ ⟨hsize, hmem⟩ hstep
  rcases step_stored hstep with ⟨hs, hh⟩ | ⟨new, -, rfl⟩
  · exact ⟨hs.trans hsize, by rw [hh]; exact hmem⟩
  · exact ⟨hsize, MetaStore.mem_insert.2 (Or.inr hmem)⟩

theorem sizeHash_run {n : Nat} {es : List MetaEvent} (hrun : (init n).run es = some s) : s.ls.sizeHash = n := by
  refine isRun.keeps (P := fun s₁ : MetaState => s₁.ls.sizeHash = n) ?_ es (init n) s rfl hrun
  intro s₁ e s₂ hsize hstep
  rcases step_stored hstep with ⟨hs, -⟩ | ⟨new, -, rfl⟩
  · exact hs.trans hsize
  · exact hsize

/-- After a post there is metadata with its name and version in the bin where it is looked for. -/
theorem step_add_mem {mdata : MetaData}
    (hbin : s.ls.index mdata.intVersion = some (s.ls.indexOf mdata)) :
    ∃ s', s.step (.add mdata) = some s' ∧ s'.ls.sizeHash = s.ls.sizeHash ∧
      ∃ m ∈ s'.ls.metaHash (s.ls.indexOf mdata), m.name = mdata.name ∧ m.intVersion = mdata.intVersion := by
  cases hfind : s.ls.lsFindMeta mdata.name mdata.intVersion with
  | none =>
      rw [MetaStore.lsFindMeta, hbin] at hfind
      cases hfind
  | some found =>
      cases found with
      | some m =>
          refine ⟨s, ?_, rfl, ?_⟩
          · simp only [step, lsAddMeta, hfind, Option.bind_eq_bind, Option.bind_some, Option.pure_def]
          · rw [MetaStore.lsFindMeta, hbin, Option.map_some, Option.some.injEq] at hfind
            have hfound := List.find?_some hfind
            rw [decide_eq_true_eq] at hfound
            exact ⟨m, List.mem_of_find?_eq_some hfind, hfound.1.symm, hfound.2⟩
      | none =>
          exact ⟨s.inserted mdata, step_add_of_none hfind, rfl, mdata,
            MetaStore.mem_insert.2 (Or.inl ⟨rfl, rfl⟩), rfl, rfl⟩

end MetaState

/-! ## Main result -/

/-- The bins of a version and of the scan from `curr + 1` on are bins of the storage, metadata is inserted
in the bin where it is looked for, and from its post on it is found. -/
structure BinsAgree (n : Nat) (mdata : MetaData) (curr : Int) : Prop where
  bin_lt : (metaAlloc n).indexOf mdata < n
  bin : (metaAlloc n).index mdata.intVersion = some ((metaAlloc n).indexOf mdata)
  scan : ∀ i < n, ∃ version, cInt (curr + i + 1) = some version ∧
    ∃ index < n, (metaAlloc n).index version = some index
  found : ∀ es s, (MetaState.init n).run es = some s → ∃ s', s.step (.add mdata) = some s' ∧
    ∀ es' s'', s'.run es' = some s'' → ∃ m,
      s''.ls.lsFindMeta mdata.name mdata.intVersion = some (some m) ∧
      m.name = mdata.name ∧ m.intVersion = mdata.intVersion ∧
      ∀ wait, s''.metaFindEntry mdata.name mdata.intVersion wait =
        some (s''.answer mdata.name (.entry mdata.intVersion) (some m))

theorem MetaState.found_of_bin {n : Nat} {mdata : MetaData}
    (hbin : (metaAlloc n).index mdata.intVersion = some ((metaAlloc n).indexOf mdata))
    {es : List MetaEvent} {s : MetaState} (hrun : (init n).run es = some s) :
    ∃ s', s.step (.add mdata) = some s' ∧ ∀ es' s'', s'.run es' = some s'' → ∃ m,
      s''.ls.lsFindMeta mdata.name mdata.intVersion = some (some m) ∧
      m.name = mdata.name ∧ m.intVersion = mdata.intVersion ∧
      ∀ wait, s''.metaFindEntry mdata.name mdata.intVersion wait =
        some (s''.answer mdata.name (.entry mdata.intVersion) (some m)) := by
  have hsize := sizeHash_run hrun
  have hindex : ∀ ls : MetaStore, ls.sizeHash = n → ls.index mdata.intVersion = some (ls.indexOf mdata) := by
    intro ls hls
    rw [MetaStore.index, MetaStore.indexOf, hls]
    exact hbin
  obtain ⟨s', hstep, hsize', m₀, hmem, hname, hver⟩ := step_add_mem (hindex s.ls hsize)
  refine ⟨s', hstep, fun es' s'' hrun' => ?_⟩
  obtain ⟨hsize'', hmem''⟩ := keeps_mem hmem hrun'
  have hsame : s''.ls.indexOf mdata = s.ls.indexOf mdata :=
    calc
      s''.ls.indexOf mdata = mdata.version.toNat % s'.ls.sizeHash := by rw [MetaStore.indexOf, hsize'']
      _ = s.ls.indexOf mdata := by rw [hsize', MetaStore.indexOf]
  have hhome := hindex s''.ls (by rw [hsize'', hsize', hsize])
  rw [hsame, ← hver] at hhome
  obtain ⟨m, hfind, hmname, hmver⟩ := MetaStore.lsFindMeta_of_mem hhome hmem''
  rw [hname, hver] at hfind
  refine ⟨m, hfind, hmname.trans hname, hmver.trans hver, fun wait => ?_⟩
  rw [hver] at hhome
  simp only [metaFindEntry, hhome, hfind, Option.bind_eq_bind, Option.bind_some, Option.isSome_some,
    true_or, if_true, Option.pure_def]

/-- For every version, every number of bins and every `curr`: the five places agree and stay in the table
exactly when the version is not negative, or is a multiple of the number of bins and that number divides
`2 ^ 32`, and the scan stays in an `int` and starts at a version that is not negative, or there is one
bin. -/
theorem binsAgree_iff {n : Nat} (hn : 1 ≤ n) (mdata : MetaData) {curr : Int} (hcurr : -2 ^ 31 ≤ curr) :
    BinsAgree n mdata curr ↔
      (0 ≤ mdata.intVersion ∨ ((n : Int) ∣ mdata.intVersion ∧ n ∣ 2 ^ 32)) ∧
        curr + n < 2 ^ 31 ∧ (-1 ≤ curr ∨ n = 1) := by
  have hbin := @MetaStore.index_eq_indexOf_iff (metaAlloc n) mdata hn
  have hscan := @MetaStore.scan_index_iff (metaAlloc n) curr hn hcurr
  constructor
  · intro h
    exact ⟨hbin.1 h.bin, hscan.1 h.scan⟩
  · rintro ⟨hversion, hrest⟩
    exact ⟨Nat.mod_lt _ hn, hbin.2 hversion, hscan.2 hrest,
      fun es s hrun => MetaState.found_of_bin (hbin.2 hversion) hrun⟩

theorem binsAgree_iff_five : BinsAgree 10 ⟨[97], 5, []⟩ (-1) ↔
    (0 ≤ MetaData.intVersion ⟨[97], 5, []⟩ ∨
      (((10 : Nat) : Int) ∣ MetaData.intVersion ⟨[97], 5, []⟩ ∧ 10 ∣ 2 ^ 32)) ∧
    (-1 : Int) + (10 : Nat) < 2 ^ 31 ∧ ((-1 : Int) ≤ -1 ∨ 10 = 1) :=
  binsAgree_iff (by decide) ⟨[97], 5, []⟩ (by decide)

/-- Version -10 goes to bin 6 and is looked for in bin 0; version -1 has no bin. -/
theorem not_binsAgree_negative :
    ¬ BinsAgree 10 ⟨[97], 4294967286, []⟩ (-1) ∧ ¬ BinsAgree 10 ⟨[97], 4294967295, []⟩ (-1) := by
  constructor
  · intro h
    exact absurd h.bin (by decide)
  · intro h
    exact absurd h.bin (by decide)

end DataSpaces
