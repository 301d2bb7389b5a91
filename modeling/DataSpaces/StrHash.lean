import Mathlib.Algebra.Group.Nat.Defs
import Mathlib.Data.List.Nodup

/-!
# StrHash — the hash set of variable names (`str_hash.h`)

A fixed number of chains.  A string sits in the chain of its hash and is appended only if it is not
there yet; the structure carries that, so the set can be read off as a list without repetitions.
-/

namespace DataSpaces

/-- A C string, without its terminating zero. -/
abbrev CStr : Type := List UInt8

abbrev DS_TABLE_SIZE : Nat := 100

/-- A `char` as an `int`: it is signed on the platforms the code is built for. -/
def charVal (c : UInt8) : UInt64 :=
  if c.toNat < 128 then UInt64.ofNat c.toNat else UInt64.ofNat (2 ^ 64 - 256 + c.toNat)

/-- The chain of a string (`hash * 33 + c` over the characters, from 5381). -/
def strHash (str : CStr) : Nat :=
  (str.foldl (fun (hash : UInt64) c => ((hash <<< 5) + hash) + charVal c) 5381).toNat %
    DS_TABLE_SIZE

theorem strHash_lt (str : CStr) : strHash str < DS_TABLE_SIZE :=
  Nat.mod_lt _ (by decide)

/-- `ds_str_hash`. -/
structure DsStrHash where
  table : Nat → List CStr
  numEntries : Nat
  placed : ∀ i, ∀ s ∈ table i, strHash s = i
  nodup : ∀ i, (table i).Nodup
  counted : numEntries = ((List.range DS_TABLE_SIZE).flatMap table).length

def dsStrHashInit : DsStrHash where
  table := fun _ => []
  numEntries := 0
  placed := by simp
  nodup := by simp
  counted := by simp

/-- Get all entries in the set. -/
def dsStrHashGetAll (set : DsStrHash) : List CStr :=
  (List.range DS_TABLE_SIZE).flatMap set.table

/-- Is the string present? -/
def dsStrHashFind (set : DsStrHash) (str : CStr) : Bool :=
  (set.table (strHash str)).contains str

/-- Appending to one chain makes the whole one longer by one. -/
theorem length_flatMap_append_at {α : Type} (table : Nat → List α) (i : Nat) (x : α) (n : Nat)
    (hi : i < n) :
    ((List.range n).flatMap fun k => if k = i then table k ++ [x] else table k).length =
      ((List.range n).flatMap table).length + 1 := by
  induction n with
  | zero => exact absurd hi (Nat.not_lt_zero i)
  | succ n ih =>
      simp only [List.range_succ, List.flatMap_append, List.length_append, List.flatMap_cons,
        List.flatMap_nil, List.length_nil, Nat.add_zero]
      rcases Nat.lt_succ_iff_lt_or_eq.1 hi with hlt | heq
      · have hne : n ≠ i := Ne.symm (Nat.ne_of_lt hlt)
        rw [ih hlt, if_neg hne]
        omega
      · -- the chain is the last one; the others are unchanged
        subst heq
        have hrest : ((List.range i).flatMap fun k => if k = i then table k ++ [x] else table k) =
            (List.range i).flatMap table := by
          refine List.flatMap_congr fun k hk => ?_
          rw [if_neg (Nat.ne_of_lt (List.mem_range.1 hk))]
        rw [hrest, if_pos rfl, List.length_append]
        simp [Nat.add_assoc]

/-- Add a string to the set; a duplicate is a no-op. -/
def dsStrHashAdd (set : DsStrHash) (str : CStr) : DsStrHash :=
  if hin : str ∈ set.table (strHash str) then set
  else
    { table := fun i => if i = strHash str then set.table i ++ [str] else set.table i
      numEntries := set.numEntries + 1
      placed := by
        intro i s hs
        -- only the bin of the string changes
        by_cases hi : i = strHash str
        · rw [if_pos hi] at hs
          rcases List.mem_append.1 hs with hs | hs
          · exact set.placed i s hs
          · rw [List.mem_singleton.1 hs, hi]
        · rw [if_neg hi] at hs
          exact set.placed i s hs
      nodup := by
        intro i
        by_cases hi : i = strHash str
        · rw [if_pos hi, hi]
          exact List.nodup_append.2
            ⟨set.nodup _, List.nodup_singleton str, by
              rintro s hs t ht rfl
              exact hin (List.mem_singleton.1 ht ▸ hs)⟩
        · rw [if_neg hi]
          exact set.nodup i
      counted := by
        rw [length_flatMap_append_at set.table (strHash str) str DS_TABLE_SIZE (strHash_lt str),
          set.counted] }

/-! ## The set of strings -/

theorem mem_dsStrHashGetAll {set : DsStrHash} {s : CStr} :
    s ∈ dsStrHashGetAll set ↔ s ∈ set.table (strHash s) := by
  simp only [dsStrHashGetAll, List.mem_flatMap, List.mem_range]
  constructor
  · rintro ⟨i, -, hs⟩
    rwa [set.placed i s hs]
  · intro hs
    exact ⟨strHash s, strHash_lt s, hs⟩

theorem nodup_dsStrHashGetAll (set : DsStrHash) : (dsStrHashGetAll set).Nodup := by
  refine List.nodup_flatMap.2 ⟨fun i _ => set.nodup i, ?_⟩
  refine List.Pairwise.imp ?_ (List.nodup_range (n := DS_TABLE_SIZE))
  intro i j hij s hsi hsj
  exact hij ((set.placed i s hsi).symm.trans (set.placed j s hsj))

/-- The returned count is the number of returned strings. -/
theorem numEntries_eq_length (set : DsStrHash) :
    set.numEntries = (dsStrHashGetAll set).length :=
  set.counted

@[simp] theorem dsStrHashGetAll_init : dsStrHashGetAll dsStrHashInit = [] := by
  simp [dsStrHashGetAll, dsStrHashInit]

@[simp] theorem mem_dsStrHashGetAll_add {set : DsStrHash} {str s : CStr} :
    s ∈ dsStrHashGetAll (dsStrHashAdd set str) ↔ s ∈ dsStrHashGetAll set ∨ s = str := by
  rw [mem_dsStrHashGetAll, mem_dsStrHashGetAll, dsStrHashAdd]
  split
  · next hin =>
      constructor
      · exact Or.inl
      · rintro (hs | rfl)
        · exact hs
        · exact hin
  · by_cases hh : strHash s = strHash str
    · simp [hh]
    · -- strings with different hashes are in different chains
      have hne : s ≠ str := fun h => hh (by rw [h])
      simp [hh, hne]

theorem mem_dsStrHashGetAll_foldl (l : List CStr) :
    ∀ (set : DsStrHash) (s : CStr),
      s ∈ dsStrHashGetAll (l.foldl dsStrHashAdd set) ↔ s ∈ dsStrHashGetAll set ∨ s ∈ l := by
  induction l with
  | nil => simp
  | cons a l ih =>
      intro set s
      simp only [List.foldl_cons, ih, mem_dsStrHashGetAll_add, List.mem_cons]
      tauto

end DataSpaces
