import DataSpaces.Lib.Fill
import DataSpaces.ModArgs
import DataSpaces.StrHash

/-!
# StrTable — the hash table of names as it is walked (`str_hash.h`)

The table is an array of chains, and a chain is walked with `strcmp` up to the string or to its end.  An
index outside the array and an entry behind the `num_entries` that `ds_str_hash_get_all` allocates are
undefined.  The table goes through the states of the set of names.
-/

namespace DataSpaces

/-- `ds_str_hash`. -/
structure StrTable where
  table : List (List CStr)
  numEntries : Nat

namespace StrTable

def init : StrTable where
  table := List.replicate DS_TABLE_SIZE []
  numEntries := 0

/-- Put a string at the end of a chain, unless the chain has it. -/
def chainAdd (str : CStr) : List CStr → Option (List CStr)
  | [] => some [str]
  | key :: next =>
      if strcmp key str = 0 then none
      else (chainAdd str next).map fun next => key :: next

/-- `ds_str_hash_add`, with the value it returns. -/
def add (set : StrTable) (str : CStr) : Option (StrTable × Int) :=
  (set.table[strHash str]?).map fun chain =>
    match chainAdd str chain with
    | none => (set, 0)
    | some chain =>
        ({ table := set.table.set (strHash str) chain, numEntries := set.numEntries + 1 }, 1)

def chainFind (str : CStr) : List CStr → Int
  | [] => 0
  | key :: next => if strcmp key str = 0 then 1 else chainFind str next

/-- `ds_str_hash_find`. -/
def find (set : StrTable) (str : CStr) : Option Int :=
  (set.table[strHash str]?).map (chainFind str)

/-- `ds_str_hash_get_all`: the value it returns and the entries it writes. -/
def getAll (set : StrTable) : Option (Nat × List CStr) :=
  ((List.range DS_TABLE_SIZE).foldlM (fun entries i =>
    (set.table[i]?).bind fun chain => chain.foldlM (Fill.push set.numEntries) entries) []).map
      fun entries => (set.numEntries, entries)

/-- Add one string after the other. -/
def addAll (set : StrTable) (strs : List CStr) : Option StrTable :=
  strs.foldlM (fun set str => (set.add str).map Prod.fst) set

/-! ## Chains -/

theorem strcmp_eq_zero_iff : ∀ {a b : CStr}, strcmp a b = 0 ↔ a = b
  | [], [] => by simp [strcmp]
  | [], _ :: _ => by simp [strcmp]
  | _ :: _, [] => by simp [strcmp]
  | a :: as, b :: bs => by
      rw [strcmp, List.cons.injEq]
      by_cases hab : a = b
      · rw [if_pos hab, strcmp_eq_zero_iff]
        exact (and_iff_right hab).symm
      · rw [if_neg hab]
        refine iff_of_false ?_ fun h => hab h.1
        split <;> decide

theorem chainAdd_eq (str : CStr) (chain : List CStr) :
    chainAdd str chain = if str ∈ chain then none else some (chain ++ [str]) := by
  induction chain with
  | nil => rfl
  | cons key next ih =>
      rw [chainAdd, ih]
      by_cases hkey : key = str
      · rw [if_pos (strcmp_eq_zero_iff.2 hkey), if_pos (hkey ▸ List.mem_cons_self)]
      · rw [if_neg (mt strcmp_eq_zero_iff.1 hkey)]
        by_cases hnext : str ∈ next
        · rw [if_pos hnext, if_pos (List.mem_cons_of_mem key hnext), Option.map_none]
        · have hmem : str ∉ key :: next := fun h => (List.mem_cons.1 h).elim (hkey ·.symm) hnext
          rw [if_neg hnext, if_neg hmem, Option.map_some]
          rfl

theorem chainFind_eq (str : CStr) (chain : List CStr) :
    chainFind str chain = if str ∈ chain then 1 else 0 := by
  induction chain with
  | nil => rfl
  | cons key next ih =>
      rw [chainFind, ih]
      by_cases hkey : key = str
      · rw [if_pos (strcmp_eq_zero_iff.2 hkey), if_pos (hkey ▸ List.mem_cons_self)]
      · rw [if_neg (mt strcmp_eq_zero_iff.1 hkey)]
        refine if_congr ?_ rfl rfl
        rw [List.mem_cons, or_iff_right (Ne.symm hkey)]

/-! ## The set behind the table -/

/-- The table that holds a set. -/
def ofSet (set : DsStrHash) : StrTable where
  table := (List.range DS_TABLE_SIZE).map set.table
  numEntries := set.numEntries

theorem ofSet_init : ofSet dsStrHashInit = init := by
  have htable : (List.range DS_TABLE_SIZE).map dsStrHashInit.table = List.replicate DS_TABLE_SIZE [] := by
    refine List.eq_replicate_iff.2 ⟨?_, fun chain hchain => ?_⟩
    · rw [List.length_map, List.length_range]
    · obtain ⟨i, -, rfl⟩ := List.mem_map.1 hchain
      rfl
  rw [ofSet, htable]
  rfl

/-- The index of every string is one of the array. -/
theorem getElem?_ofSet (set : DsStrHash) {i : Nat} (hi : i < DS_TABLE_SIZE) :
    (ofSet set).table[i]? = some (set.table i) := by
  rw [ofSet, List.getElem?_map, List.getElem?_range hi, Option.map_some]

/-- Writing one chain of the array. -/
theorem set_map_range (table : Nat → List CStr) (i : Nat) (chain : List CStr) :
    ((List.range DS_TABLE_SIZE).map table).set i chain =
      (List.range DS_TABLE_SIZE).map fun k => if k = i then chain else table k := by
  refine List.ext_getElem (by simp) fun k hk hk' => ?_
  rw [List.getElem_set, List.getElem_map, List.getElem_map, List.getElem_range]
  exact if_congr eq_comm rfl rfl

theorem add_ofSet (set : DsStrHash) (str : CStr) :
    (ofSet set).add str =
      some (ofSet (dsStrHashAdd set str), if str ∈ dsStrHashGetAll set then 0 else 1) := by
  rw [add, getElem?_ofSet set (strHash_lt str), Option.map_some, chainAdd_eq, dsStrHashAdd]
  by_cases hin : str ∈ set.table (strHash str)
  · rw [if_pos hin, dif_pos hin, if_pos (mem_dsStrHashGetAll.2 hin)]
  · have hchain : (fun k => if k = strHash str then set.table (strHash str) ++ [str] else set.table k) =
        fun k => if k = strHash str then set.table k ++ [str] else set.table k := by
      funext k
      split
      · next hk => rw [hk]
      · rfl
    rw [if_neg hin, dif_neg hin, if_neg (mt mem_dsStrHashGetAll.1 hin)]
    dsimp only
    rw [ofSet, set_map_range, hchain]
    rfl

theorem find_ofSet (set : DsStrHash) (str : CStr) :
    (ofSet set).find str = some (if str ∈ dsStrHashGetAll set then 1 else 0) := by
  rw [find, getElem?_ofSet set (strHash_lt str), Option.map_some, chainFind_eq]
  exact congrArg some (if_congr mem_dsStrHashGetAll.symm rfl rfl)

theorem getAll_ofSet (set : DsStrHash) :
    (ofSet set).getAll = some (set.numEntries, dsStrHashGetAll set) := by
  have hrun : (List.range DS_TABLE_SIZE).foldlM (fun entries i =>
      ((ofSet set).table[i]?).bind fun chain => chain.foldlM (Fill.push set.numEntries) entries) [] =
      some (dsStrHashGetAll set) := by
    refine Fill.foldlM_flatMap set.numEntries (fun i hi entries hroom => ?_) [] ?_
    · rw [getElem?_ofSet set (List.mem_range.1 hi), Option.bind_some]
      exact Fill.foldlM_push entries hroom
    · rw [set.counted, List.length_nil]
      omega
  rw [getAll]
  exact congrArg (Option.map _) hrun

theorem addAll_ofSet (strs : List CStr) (set : DsStrHash) :
    (ofSet set).addAll strs = some (ofSet (strs.foldl dsStrHashAdd set)) := by
  induction strs generalizing set with
  | nil => rfl
  | cons str strs ih =>
      rw [addAll, List.foldlM_cons, add_ofSet, Option.map_some, List.foldl_cons]
      exact ih _

/-! ## The table is a set -/

/-- The table keeps the strings that were added to it, each once. -/
structure Holds (strs : List CStr) (set : StrTable) : Prop where
  add : ∀ str, ∃ set', set.add str = some (set', if str ∈ strs then 0 else 1)
  find : ∀ str, set.find str = some (if str ∈ strs then 1 else 0)
  getAll : ∃ entries, set.getAll = some (set.numEntries, entries) ∧ entries.length = set.numEntries ∧
    entries.Nodup ∧ ∀ str, str ∈ entries ↔ str ∈ strs

theorem holds_addAll (strs : List CStr) : ∃ set, init.addAll strs = some set ∧ Holds strs set := by
  have hmem : ∀ str, str ∈ dsStrHashGetAll (strs.foldl dsStrHashAdd dsStrHashInit) ↔ str ∈ strs := by
    intro str
    rw [mem_dsStrHashGetAll_foldl, dsStrHashGetAll_init]
    exact or_iff_right List.not_mem_nil
  have hrun : init.addAll strs = some (ofSet (strs.foldl dsStrHashAdd dsStrHashInit)) := by
    rw [← ofSet_init, addAll_ofSet]
  refine ⟨_, hrun, fun str => ⟨ofSet (dsStrHashAdd (strs.foldl dsStrHashAdd dsStrHashInit) str), ?_⟩,
    fun str => ?_, _, getAll_ofSet _, (numEntries_eq_length _).symm, nodup_dsStrHashGetAll _, hmem⟩
  · rw [add_ofSet]
    exact congrArg (fun r => some (_, r)) (if_congr (hmem str) rfl rfl)
  · rw [find_ofSet]
    exact congrArg some (if_congr (hmem str) rfl rfl)

end StrTable

end DataSpaces
