import Mathlib.Algebra.Group.Int.Defs
import Mathlib.Logic.Function.Basic
import DataSpaces.StrHash

/-!
# Metadata — named, versioned records (`ss_data.c`)

A storage keeps metadata in bins by version modulo `size_hash`, with a list of waiting calls for each
bin and one more list, at index `size_hash`, for the calls that wait for any version.  Versions are
`unsigned int` in a record and `int` everywhere else.  A result of `none` stands for undefined
behaviour: an `int` that overflows or an index before the first bin.
-/

namespace DataSpaces

/-- `struct meta_data`. -/
structure MetaData where
  name : CStr
  version : UInt32
  data : List UInt8
  deriving DecidableEq

/-- `(int)mdata->version`. -/
def MetaData.intVersion (mdata : MetaData) : Int :=
  mdata.version.toInt32.toInt

/-- `struct meta_sub_list_entry`, with the number of the call whose stack it is on. -/
structure MetaSub where
  call : Nat
  version : Int
  name : CStr
  deriving DecidableEq

/-- The metadata of an `ss_storage`. -/
structure MetaStore where
  sizeHash : Nat
  metaHash : Nat → List MetaData
  metaSubs : Nat → List MetaSub

def metaAlloc (maxVersions : Nat) : MetaStore where
  sizeHash := maxVersions
  metaHash _ := []
  metaSubs _ := []

/-- The value of an `int` expression. -/
def cInt (x : Int) : Option Int :=
  if -2 ^ 31 ≤ x ∧ x < 2 ^ 31 then some x else none

namespace MetaStore

/-- `version % ls->size_hash` for an `int` version, as an index. -/
def index (ls : MetaStore) (version : Int) : Option Nat :=
  let index := version.tmod ls.sizeHash
  if 0 ≤ index then some index.toNat else none

/-- `mdata->version % ls->size_hash`. -/
def indexOf (ls : MetaStore) (mdata : MetaData) : Nat :=
  mdata.version.toNat % ls.sizeHash

def lsFindMeta (ls : MetaStore) (name : CStr) (version : Int) : Option (Option MetaData) :=
  (ls.index version).map fun index =>
    (ls.metaHash index).find? fun mdata => name = mdata.name ∧ mdata.intVersion = version

/-- `list_add(&mdata->entry, list)`. -/
def insert (ls : MetaStore) (mdata : MetaData) : MetaStore :=
  { ls with
    metaHash := Function.update ls.metaHash (ls.indexOf mdata) (mdata :: ls.metaHash (ls.indexOf mdata)) }

/-- The scan of `meta_find_next_entry` over one bin, which it leaves at a candidate below
`curr + size_hash`. -/
def nextInBin (name : CStr) (curr : Int) (sizeHash : Nat) :
    List MetaData → Option MetaData → Option (Option MetaData)
  | [], mdres => some mdres
  | mdata :: rest, mdres =>
      if mdata.name = name ∧ mdata.intVersion > curr ∧
          (mdres.all fun old => mdata.version < old.version) = true then do
        let bound ← cInt (curr + sizeHash)
        if mdata.intVersion < bound then return some mdata
        else nextInBin name curr sizeHash rest (some mdata)
      else nextInBin name curr sizeHash rest mdres

/-- The scan over all bins, from the bin of `curr + 1` on. -/
def scanNext (ls : MetaStore) (name : CStr) (curr : Int) : Option (Option MetaData) :=
  (List.range ls.sizeHash).foldlM (fun mdres (i : Nat) => do
    let version ← cInt (curr + i + 1)
    let index ← ls.index version
    nextInBin name curr ls.sizeHash (ls.metaHash index) mdres) none

end MetaStore

/-! ## What the scan finds -/

/-- Metadata of the name that is newer than `curr`. -/
def MetaData.IsNext (name : CStr) (curr : Int) (mdata : MetaData) : Prop :=
  mdata.name = name ∧ curr < mdata.intVersion

namespace MetaStore

variable {name : CStr} {curr : Int} {sizeHash : Nat}

theorem mem_insert {ls : MetaStore} {mdata m : MetaData} {n : Nat} :
    m ∈ (ls.insert mdata).metaHash n ↔ (n = ls.indexOf mdata ∧ m = mdata) ∨ m ∈ ls.metaHash n := by
  simp only [insert, Function.update_apply]
  split
  · next hn => simp [hn]
  · next hn => simp [hn]

/-- A bin changes the candidate only for metadata that was asked for. -/
theorem nextInBin_spec (l : List MetaData) :
    ∀ mdres res, nextInBin name curr sizeHash l mdres = some res →
      (res = mdres ∧ (mdres = none → ∀ mdata ∈ l, ¬ mdata.IsNext name curr)) ∨
        ∃ mdata ∈ l, res = some mdata ∧ mdata.IsNext name curr := by
  induction l with
  | nil =>
      intro mdres res h
      simp only [nextInBin, Option.some.injEq] at h
      exact Or.inl ⟨h.symm, by simp⟩
  | cons mdata l ih =>
      intro mdres res h
      rw [nextInBin] at h
      by_cases hc : mdata.name = name ∧ mdata.intVersion > curr ∧
          (mdres.all fun old => mdata.version < old.version) = true
      · rw [if_pos hc] at h
        have hnext : mdata.IsNext name curr := ⟨hc.1, hc.2.1⟩
        -- below the bound the scan of the bin stops at this candidate, else a later one may replace it
        rcases Option.bind_eq_some_iff.1 h with ⟨bound, -, h⟩
        right
        split at h
        · cases h
          exact ⟨mdata, by simp, rfl, hnext⟩
        · rcases ih _ _ h with ⟨rfl, -⟩ | ⟨m, hm, rfl, hmnext⟩
          · exact ⟨mdata, by simp, rfl, hnext⟩
          · exact ⟨m, by simp [hm], rfl, hmnext⟩
      · rw [if_neg hc] at h
        rcases ih _ _ h with ⟨rfl, hnone⟩ | ⟨m, hm, rfl, hmnext⟩
        · refine Or.inl ⟨rfl, fun hres m hm hmnext => ?_⟩
          rcases List.mem_cons.1 hm with rfl | hm
          · -- with no candidate yet the comparison of versions does not matter
            exact hc ⟨hmnext.1, hmnext.2, by simp [hres]⟩
          · exact hnone hres m hm hmnext
        · exact Or.inr ⟨m, by simp [hm], rfl, hmnext⟩

section Scan

variable {ls : MetaStore}

theorem scanFold_spec (is : List Nat) :
    ∀ mdres res,
      is.foldlM (fun mdres (i : Nat) => do
        let version ← cInt (curr + i + 1)
        let index ← ls.index version
        nextInBin name curr ls.sizeHash (ls.metaHash index) mdres) mdres = some res →
      (res = mdres ∨ ∃ mdata, res = some mdata ∧ mdata.IsNext name curr) ∧
        ∀ i ∈ is, ∃ index, ls.index (curr + i + 1) = some index ∧
          (res = none → ∀ mdata ∈ ls.metaHash index, ¬ mdata.IsNext name curr) := by
  induction is with
  | nil =>
      intro mdres res h
      simp only [List.foldlM_nil, Option.pure_def, Option.some.injEq] at h
      exact ⟨Or.inl h.symm, by simp⟩
  | cons i is ih =>
      intro mdres res h
      rw [List.foldlM_cons] at h
      rcases Option.bind_eq_some_iff.1 h with ⟨mid, hmid, h⟩
      rcases Option.bind_eq_some_iff.1 hmid with ⟨version, hver, hmid⟩
      rcases Option.bind_eq_some_iff.1 hmid with ⟨index, hindex, hbin⟩
      have hversion : version = curr + i + 1 := by
        rw [cInt] at hver
        split at hver
        · exact (Option.some.inj hver).symm
        · cases hver
      rw [hversion] at hindex
      rcases ih _ _ h with ⟨hres, hrest⟩
      refine ⟨?_, fun i' hi' => ?_⟩
      · rcases hres with rfl | hres
        · rcases nextInBin_spec _ _ _ hbin with ⟨rfl, -⟩ | ⟨mdata, -, hm, hnext⟩
          · exact Or.inl rfl
          · exact Or.inr ⟨mdata, hm, hnext⟩
        · exact Or.inr hres
      · rcases List.mem_cons.1 hi' with rfl | hi'
        · refine ⟨index, hindex, fun hnone => ?_⟩
          -- a candidate is never given up, so there was none in this bin
          have hmidNone : mid = none := by
            rcases hres with rfl | ⟨mdata, hm, -⟩
            · exact hnone
            · rw [hnone] at hm
              cases hm
          rcases nextInBin_spec _ _ _ hbin with ⟨hsame, hbin⟩ | ⟨mdata, -, hm, -⟩
          · exact hbin (hsame.symm.trans hmidNone)
          · rw [hmidNone] at hm
            cases hm
        · exact hrest i' hi'

theorem index_of_nonneg {version : Int} (h : 0 ≤ version) :
    ls.index version = some (version % ls.sizeHash).toNat := by
  have hmod : version.tmod ls.sizeHash = version % ls.sizeHash := Int.tmod_eq_emod_of_nonneg h
  have hnonneg := Int.tmod_nonneg (ls.sizeHash : Int) h
  rw [index]
  simp only [hmod] at hnonneg ⊢
  rw [if_pos hnonneg]

theorem lt_of_index {version : Int} {n : Nat} (hsize : 0 < ls.sizeHash)
    (h : ls.index version = some n) : n < ls.sizeHash := by
  have hlt := Int.tmod_lt_of_pos version (show (0 : Int) < ls.sizeHash by omega)
  rw [index] at h
  split at h
  · cases h
    omega
  · cases h

/-- A negative version has an index only if it is a multiple of `size_hash`. -/
theorem emod_eq_zero_of_index {version : Int} {n : Nat} (hneg : version < 0)
    (h : ls.index version = some n) (hsize : 0 < ls.sizeHash) : (-version) % ls.sizeHash = 0 := by
  have hmod : version.tmod ls.sizeHash = -((-version) % ls.sizeHash) := by
    have := Int.tmod_eq_emod_of_nonneg (b := (ls.sizeHash : Int)) (show 0 ≤ -version by omega)
    rw [← this, Int.neg_tmod, Int.neg_neg]
  rw [index] at h
  simp only [hmod] at h
  split at h
  · next hle =>
      have := Int.emod_nonneg (-version) (show (ls.sizeHash : Int) ≠ 0 by omega)
      omega
  · cases h

/-- Below `-1` one of the first two indices of a scan is negative, unless there is only one bin. -/
theorem curr_of_defined (h : ∀ i < ls.sizeHash, ∃ index, ls.index (curr + i + 1) = some index) :
    -1 ≤ curr ∨ ls.sizeHash ≤ 1 := by
  by_contra hcon
  -- two neighbouring versions would both be multiples of the number of bins
  rcases h 0 (by omega) with ⟨n₀, hn₀⟩
  rcases h 1 (by omega) with ⟨n₁, hn₁⟩
  have hzero := emod_eq_zero_of_index (by omega) hn₀ (by omega)
  have hdvd := Int.dvd_of_emod_eq_zero hzero
  have hdvd₁ : (ls.sizeHash : Int) ∣ 1 := by
    by_cases hlast : curr = -2
    · rw [hlast] at hdvd
      simpa using hdvd
    · have hzero₁ := emod_eq_zero_of_index (by omega) hn₁ (by omega)
      have := Int.dvd_sub hdvd (Int.dvd_of_emod_eq_zero hzero₁)
      have hdiff : -(curr + (0 : Nat) + 1) - -(curr + (1 : Nat) + 1) = 1 := by omega
      rwa [hdiff] at this
  have := Int.le_of_dvd (by omega) hdvd₁
  omega

theorem index_of_dvd {version : Int} (h : (ls.sizeHash : Int) ∣ version) : ls.index version = some 0 := by
  rw [index]
  simp only [Int.tmod_eq_zero_of_dvd h, Int.le_refl, if_true, Int.toNat_zero]

/-- With one bin every version has the same index. -/
theorem index_of_one {version : Int} (hone : ls.sizeHash = 1) : ls.index version = some 0 := by
  refine index_of_dvd ?_
  rw [hone]
  exact Int.one_dvd version

/-- A scan that is defined visits every bin. -/
theorem exists_index_of_defined
    (h : ∀ i < ls.sizeHash, ∃ index, ls.index (curr + i + 1) = some index) {n : Nat}
    (hn : n < ls.sizeHash) : ∃ i < ls.sizeHash, ls.index (curr + i + 1) = some n := by
  have hsize : (0 : Int) < ls.sizeHash := by omega
  by_cases hcurr : -1 ≤ curr
  · -- the offset of the bin from the first one that is scanned
    have hnonneg := Int.emod_nonneg ((n : Int) - (curr + 1)) (show (ls.sizeHash : Int) ≠ 0 by omega)
    have hlt := Int.emod_lt_of_pos ((n : Int) - (curr + 1)) hsize
    refine ⟨(((n : Int) - (curr + 1)) % ls.sizeHash).toNat, by omega, ?_⟩
    rw [index_of_nonneg (by omega)]
    have hcast : ((((n : Int) - (curr + 1)) % ls.sizeHash).toNat : Int) =
        ((n : Int) - (curr + 1)) % ls.sizeHash := Int.toNat_of_nonneg hnonneg
    have hsum : (curr + ((n : Int) - (curr + 1)) % ls.sizeHash + 1) % ls.sizeHash = n :=
      calc
        (curr + ((n : Int) - (curr + 1)) % ls.sizeHash + 1) % ls.sizeHash
            = (curr + 1 + ((n : Int) - (curr + 1)) % ls.sizeHash) % ls.sizeHash := by
              rw [Int.add_right_comm]
        _ = (curr + 1 + ((n : Int) - (curr + 1))) % ls.sizeHash := Int.add_emod_emod ..
        _ = (n : Int) % ls.sizeHash := by rw [Int.add_comm, Int.sub_add_cancel]
        _ = n := Int.emod_eq_of_lt (by omega) (by omega)
    rw [hcast, hsum, Int.toNat_natCast]
  · have hone := (curr_of_defined h).resolve_left hcurr
    refine ⟨0, by omega, ?_⟩
    rw [index_of_one (by omega)]
    congr 1
    omega

/-- What the scan returns was asked for; if it returns nothing there is nothing. -/
theorem scanNext_spec {res : Option MetaData} (h : ls.scanNext name curr = some res) :
    (∀ mdata, res = some mdata → mdata.IsNext name curr) ∧
      (res = none → ∀ n < ls.sizeHash, ∀ mdata ∈ ls.metaHash n, ¬ mdata.IsNext name curr) := by
  rcases scanFold_spec _ _ _ h with ⟨hres, hbins⟩
  refine ⟨fun mdata hm => ?_, fun hnone n hn => ?_⟩
  · rcases hres with hres | ⟨m, hres, hnext⟩
    · rw [hres] at hm
      cases hm
    · rw [hres, Option.some.injEq] at hm
      rw [← hm]
      exact hnext
  · rcases exists_index_of_defined
      (fun i hi => (hbins i (List.mem_range.2 hi)).imp fun _ h => h.1) hn with ⟨i, hi, hin⟩
    rcases hbins i (List.mem_range.2 hi) with ⟨index, hindex, hnext⟩
    rw [hin, Option.some.injEq] at hindex
    rw [hindex]
    exact hnext hnone

end Scan

end MetaStore

end DataSpaces
