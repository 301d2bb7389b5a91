import DataSpaces.BBox
import DataSpaces.Lib.Runs
import DataSpaces.StrHash

/-!
# ConfFile — the options of a server (`parse_conf`, `parse_conf_toml`)

A `struct ds_conf` is a row of 32-bit words with more memory behind it.  Both readers store the coordinates
of `dims` one after the other for as long as there are any, and look at their number afterwards, so the
eleventh coordinate is stored over `max_versions` and `hash_version`.
-/

namespace DataSpaces

def EINVAL : Int32 := 22

/-- The fields of `struct ds_conf`. -/
inductive ConfField
  | ndim
  | dims
  | maxVersions
  | hashVersion
  | numApps
  | dirs
  | remotes
  | nremote
  | mods
  deriving DecidableEq

namespace ConfField

/-- Where a field starts, in words. -/
def offset : ConfField → Nat
  | ndim => 0
  | dims => 2
  | maxVersions => 22
  | hashVersion => 23
  | numApps => 24
  | dirs => 26
  | remotes => 28
  | nremote => 30
  | mods => 32

/-- The number of words of a field. -/
def words : ConfField → Nat
  | dims => 2 * BBOX_MAX_NDIM
  | dirs | remotes | mods => 2
  | ndim | maxVersions | hashVersion | numApps | nremote => 1

/-- The word belongs to the field. -/
def Has (f : ConfField) (w : Nat) : Prop :=
  f.offset ≤ w ∧ w < f.offset + f.words

end ConfField

/-- A `struct ds_conf` with the memory behind it.  `stored` are the indices at which coordinates were
stored, the last one first. -/
structure ConfState where
  mem : Nat → UInt32
  stored : List Nat

namespace ConfState

/-- A field that is an `int`. -/
def int (conf : ConfState) (f : ConfField) : Int32 :=
  (conf.mem f.offset).toInt32

def setInt (conf : ConfState) (f : ConfField) (v : Int32) : ConfState :=
  { conf with mem := Function.update conf.mem f.offset v.toUInt32 }

/-- `dims.c[idx] = v`. -/
def setCoord (conf : ConfState) (idx : Nat) (v : UInt64) : ConfState where
  mem w :=
    if w = ConfField.dims.offset + 2 * idx then v.toUInt32
    else if w = ConfField.dims.offset + 2 * idx + 1 then (v >>> 32).toUInt32
    else conf.mem w
  stored := idx :: conf.stored

/-- Store coordinates from an index on; returns the index after the last one. -/
def storeCoords (conf : ConfState) (idx : Nat) : List UInt64 → ConfState × Nat
  | [] => (conf, idx)
  | v :: vs => storeCoords (conf.setCoord idx v) (idx + 1) vs

end ConfState

/-! ## Texts -/

def comma : UInt8 := 44

/-- The digits at the beginning, after the number `n`. -/
def digitsFrom (n : Nat) : CStr → Nat
  | [] => n
  | b :: t => if 48 ≤ b ∧ b ≤ 57 then digitsFrom (10 * n + (b.toNat - 48)) t else n

/-- The nearest `long`. -/
def clampLong (v : Int) : Int64 :=
  Int64.ofInt (max (-2 ^ 63) (min v (2 ^ 63 - 1)))

/-- `strtol` to the base ten, and `atoll`. -/
def atoll : CStr → Int64
  | [] => 0
  | b :: t =>
      if b = 32 ∨ 9 ≤ b ∧ b ≤ 13 then atoll t
      else if b = 45 then clampLong (-(digitsFrom 0 t))
      else if b = 43 then clampLong (digitsFrom 0 t)
      else clampLong (digitsFrom 0 (b :: t))

/-- `atoi`, as the C library has it. -/
def atoi (s : CStr) : Int32 :=
  (atoll s).toInt32

def eatSpaces : CStr → CStr
  | [] => []
  | b :: t => if b ≠ 32 ∧ b ≠ 9 ∧ b ≠ 10 then b :: eatSpaces t else eatSpaces t

/-- `strtok(s, ",")`: the first token, and the text after the comma that ends it. -/
def strtok (s : CStr) : Option (CStr × CStr) :=
  match s.dropWhile (· = comma) with
  | [] => none
  | b :: t => some ((b :: t).takeWhile (· ≠ comma), ((b :: t).dropWhile (· ≠ comma)).drop 1)

/-- The tokens of a text after the beginning of a token. -/
def strtoksFrom (crd : CStr) : CStr → List CStr
  | [] => if crd = [] then [] else [crd]
  | b :: t =>
      if b = comma then
        if crd = [] then strtoksFrom [] t else crd :: strtoksFrom [] t
      else strtoksFrom (crd ++ [b]) t

/-- What one call of `strtok` after the other returns. -/
def strtoks (s : CStr) : List CStr :=
  strtoksFrom [] s

theorem strtoksFrom_of_ne_nil (t : CStr) : ∀ crd, crd ≠ [] →
    strtoksFrom crd t =
      (crd ++ t.takeWhile (· ≠ comma)) :: strtoks ((t.dropWhile (· ≠ comma)).drop 1) := by
  induction t with
  | nil =>
      intro crd hcrd
      simp [strtoksFrom, strtoks, hcrd]
  | cons b t ih =>
      intro crd hcrd
      by_cases hb : b = comma
      · simp [strtoksFrom, strtoks, hcrd, hb]
      · rw [strtoksFrom, if_neg hb, ih (crd ++ [b]) (by simp)]
        simp [hb]

/-- The tokens are those that `strtok` finds. -/
theorem strtoks_eq (s : CStr) :
    strtoks s = match strtok s with
      | none => []
      | some (crd, rest) => crd :: strtoks rest := by
  induction s with
  | nil => rfl
  | cons b t ih =>
      by_cases hb : b = comma
      · have hskip : strtok (b :: t) = strtok t := by
          simp [strtok, hb]
        have htoks : strtoks (b :: t) = strtoks t := by
          simp [strtoks, strtoksFrom, hb]
        rw [hskip, htoks, ih]
      · have hfound : strtok (b :: t) =
            some (b :: t.takeWhile (· ≠ comma), (t.dropWhile (· ≠ comma)).drop 1) := by
          simp [strtok, hb]
        have htoks : strtoks (b :: t) = strtoksFrom [b] t := by
          simp [strtoks, strtoksFrom, hb]
        rw [hfound, htoks, strtoksFrom_of_ne_nil t [b] (by simp)]
        rfl

/-! ## Lines -/

/-- `"dims"`. -/
def dimsOpt : CStr := [100, 105, 109, 115]

/-- The options of `parse_line`. -/
def options : List (CStr × ConfField) :=
  [([110, 100, 105, 109], .ndim),
    (dimsOpt, .dims),
    -- `"max_versions"`
    ([109, 97, 120, 95, 118, 101, 114, 115, 105, 111, 110, 115], .maxVersions),
    -- `"hash_version"`
    ([104, 97, 115, 104, 95, 118, 101, 114, 115, 105, 111, 110], .hashVersion),
    -- `"num_apps"`
    ([110, 117, 109, 95, 97, 112, 112, 115], .numApps)]

/-- The loop of `parse_line` over the options, for a line with the name `key` and the text `t`. -/
def optionLoop (conf : ConfState) (key t : CStr) : List (CStr × ConfField) → ConfState × Int32
  -- the option is not known
  | [] => (conf, 0)
  | (opt, f) :: rest =>
      if key = dimsOpt then
        let (conf, idx) := conf.storeCoords 0 ((strtoks t).map fun crd => (atoll crd).toUInt64)
        if Int32.ofNat idx ≠ conf.int .ndim then (conf, -EINVAL) else (conf, 0)
      else if key = opt then (conf.setInt f (atoi t), 0)
      else optionLoop conf key t rest

/-- `parse_line`. -/
def parseLine (conf : ConfState) (line : CStr) : ConfState × Int32 :=
  if line.head? = some 35 then (conf, 0)
  else match line.dropWhile (· ≠ 61) with
    | [] => if eatSpaces line = [] then (conf, 0) else (conf, -EINVAL)
    | _ :: t => optionLoop conf (eatSpaces (line.takeWhile (· ≠ 61))) t options

/-- One call of `parse_line` after the other. -/
def parseLines (lines : List CStr) (conf : ConfState) : ConfState :=
  lines.foldl (fun conf line => (parseLine conf line).1) conf

/-- The loop of `parse_conf` over the buffers that `fgets` fills. -/
def parseConf (conf : ConfState) : List (List UInt8) → ConfState × Int32
  | [] => (conf, 0)
  | buff :: buffs =>
      let (conf, err) := parseLine conf (buff.takeWhile (· ≠ 0))
      if err < 0 then (conf, err) else parseConf conf buffs

/-! ## Tables -/

/-- The table `server`.  An element of `dims` is `none` if it is no integer.  Of the other keys there is
the number of the datum, if the key exists. -/
structure ServerTable where
  dims : Option (List (Option Int64))
  maxVersions : Option Int64
  hashVersion : Option Int64
  numApps : Option Int64

/-- A file with its `server` table, and with the number of tables in `remotes`. -/
structure TomlConf where
  server : Option ServerTable
  remotes : Option Nat

namespace ConfState

/-- The loop of `get_toml_arr_ui64` from an index on. -/
def arrLoop (conf : ConfState) (i : Nat) : List (Option Int64) → ConfState × Nat
  | [] | none :: _ => (conf, i)
  | some v :: arr => arrLoop (conf.setCoord i v.toUInt64) (i + 1) arr

/-- `get_toml_arr_ui64` with `conf->dims.c`. -/
def getTomlArrUi64 (conf : ConfState) : Option (List (Option Int64)) → ConfState × Nat
  | none => (conf, 0)
  | some arr => conf.arrLoop 0 arr

def getTomlInt (conf : ConfState) (f : ConfField) : Option Int64 → ConfState
  | none => conf
  | some i => conf.setInt f i.toInt32

end ConfState

/-- `parse_conf_toml`, as far as it stores in the `struct ds_conf` itself. -/
def parseConfToml (conf : ConfState) (toml : TomlConf) : ConfState × Int32 :=
  match toml.server with
  | none => (conf, -1)
  | some server =>
      let (conf, ndim) := conf.getTomlArrUi64 server.dims
      -- set even when there is no such array in the file
      let conf := conf.setInt .ndim (Int32.ofNat ndim)
      let conf := conf.getTomlInt .maxVersions server.maxVersions
      let conf := conf.getTomlInt .hashVersion server.hashVersion
      let conf := conf.getTomlInt .numApps server.numApps
      match toml.remotes with
      | none => (conf, 0)
      | some ntab => (conf.setInt .nremote (Int32.ofNat ntab), 0)

/-! ## What is named -/

/-- The name and the text of a line that sets an option. -/
def assignment (line : CStr) : Option (CStr × CStr) :=
  if line.head? = some 35 then none
  else match line.dropWhile (· ≠ 61) with
    | [] => none
    | _ :: t => some (eatSpaces (line.takeWhile (· ≠ 61)), t)

/-- The field that a line names. -/
def namedField (line : CStr) : Option ConfField :=
  (assignment line).bind fun a => options.lookup a.1

/-- The coordinates in a line that sets `dims`. -/
def coordTexts (line : CStr) : List CStr :=
  match assignment line with
  | none => []
  | some (key, t) => if key = dimsOpt then strtoks t else []

/-- The coordinates in a file: the integers that come before anything else. -/
def leadingInts : List (Option Int64) → List Int64
  | [] | none :: _ => []
  | some v :: arr => v :: leadingInts arr

def TomlConf.coords (toml : TomlConf) : List Int64 :=
  match toml.server.bind ServerTable.dims with
  | none => []
  | some arr => leadingInts arr

/-- The fields that a file names; `ndim` is the length of `dims`. -/
def TomlConf.Names (toml : TomlConf) : ConfField → Prop
  | .ndim => toml.server.isSome
  | .dims => (toml.server.bind ServerTable.dims).isSome
  | .maxVersions => (toml.server.bind ServerTable.maxVersions).isSome
  | .hashVersion => (toml.server.bind ServerTable.hashVersion).isSome
  | .numApps => (toml.server.bind ServerTable.numApps).isSome
  | .nremote => toml.remotes.isSome
  | .dirs | .remotes | .mods => False

/-- Only words of named fields are changed, and no coordinate is stored behind `dims`. -/
structure Kept (named : ConfField → Prop) (conf conf' : ConfState) : Prop where
  frame : ∀ w, (∀ f, named f → ¬ f.Has w) → conf'.mem w = conf.mem w
  inDims : ∃ idxs, conf'.stored = idxs ++ conf.stored ∧ ∀ idx ∈ idxs, idx < BBOX_MAX_NDIM

/-- A line changes only what it names, whatever came before it, and all lines change only what one of them
names. -/
structure LinesKept (lines : List CStr) (conf : ConfState) : Prop where
  each : Runs.Along (fun lines conf => some (parseLines lines conf))
    (fun conf line => Kept (fun f => namedField line = some f) conf (parseLine conf line).1) lines conf
  all : Kept (fun f => ∃ line ∈ lines, namedField line = some f) conf (parseLines lines conf)

/-- `get_toml_arr_ui64` changes only `dims`, and the file only what it names. -/
structure TomlKept (toml : TomlConf) (conf : ConfState) : Prop where
  dims : ∀ server ∈ toml.server, Kept (· = .dims) conf (conf.getTomlArrUi64 server.dims).1
  all : Kept toml.Names conf (parseConfToml conf toml).1

/-! ## Words -/

theorem ConfField.has_offset (f : ConfField) : f.Has f.offset := by
  refine ⟨Nat.le_refl _, ?_⟩
  cases f <;> decide

/-- A word belongs to one field at most. -/
theorem ConfField.Has.unique {f g : ConfField} {w : Nat} (hf : f.Has w) (hg : g.Has w) : f = g := by
  have hf : f.offset ≤ w ∧ w < f.offset + f.words := hf
  have hg : g.offset ≤ w ∧ w < g.offset + g.words := hg
  cases f <;> cases g <;>
    first | rfl | (dsimp only [ConfField.offset, ConfField.words, BBOX_MAX_NDIM] at hf hg; omega)

namespace Kept

variable {named named' : ConfField → Prop} {conf conf' conf'' : ConfState}

theorem refl (named : ConfField → Prop) (conf : ConfState) : Kept named conf conf :=
  ⟨fun _ _ => rfl, [], rfl, by simp⟩

theorem trans (h : Kept named conf conf') (h' : Kept named conf' conf'') : Kept named conf conf'' := by
  obtain ⟨idxs, hidxs, hlt⟩ := h.inDims
  obtain ⟨idxs', hidxs', hlt'⟩ := h'.inDims
  refine ⟨fun w hw => (h'.frame w hw).trans (h.frame w hw), idxs' ++ idxs, ?_, ?_⟩
  · rw [hidxs', hidxs, List.append_assoc]
  · intro idx hidx
    rcases List.mem_append.1 hidx with hidx | hidx
    · exact hlt' idx hidx
    · exact hlt idx hidx

theorem mono (h : Kept named conf conf') (hle : ∀ f, named f → named' f) : Kept named' conf conf' :=
  ⟨fun w hw => h.frame w fun f hf => hw f (hle f hf), h.inDims⟩

/-- A field that is not named keeps its words. -/
theorem field (h : Kept named conf conf') {f : ConfField} (hf : ¬ named f) {w : Nat} (hw : f.Has w) :
    conf'.mem w = conf.mem w :=
  h.frame w fun _ hg hgw => hf (hgw.unique hw ▸ hg)

theorem int (h : Kept named conf conf') {f : ConfField} (hf : ¬ named f) : conf'.int f = conf.int f :=
  congrArg UInt32.toInt32 (h.field hf f.has_offset)

end Kept

namespace ConfState

theorem kept_setInt (conf : ConfState) (f : ConfField) (v : Int32) : Kept (· = f) conf (conf.setInt f v) := by
  refine ⟨fun w hw => ?_, [], rfl, by simp⟩
  have hne : w ≠ f.offset := by
    rintro rfl
    exact hw f rfl f.has_offset
  exact Function.update_of_ne hne _ _

/-- Coordinates within `dims` change nothing else. -/
theorem kept_storeCoords (vs : List UInt64) : ∀ (conf : ConfState) (idx : Nat),
    idx + vs.length ≤ BBOX_MAX_NDIM → Kept (· = .dims) conf (conf.storeCoords idx vs).1 := by
  induction vs with
  | nil => exact fun conf _ _ => Kept.refl _ conf
  | cons v vs ih =>
      intro conf idx hidx
      rw [List.length_cons] at hidx
      have hstep : Kept (· = .dims) conf (conf.setCoord idx v) := by
        refine ⟨fun w hw => ?_, [idx], rfl, by simp; omega⟩
        have hout : ¬ (ConfField.dims.offset ≤ w ∧ w < ConfField.dims.offset + 2 * BBOX_MAX_NDIM) :=
          hw .dims rfl
        have hlow : w ≠ ConfField.dims.offset + 2 * idx := by
          omega
        have hhigh : w ≠ ConfField.dims.offset + 2 * idx + 1 := by
          omega
        exact (if_neg hlow).trans (if_neg hhigh)
      exact hstep.trans (ih _ _ (by omega))

/-- Coordinates are stored at all the indices from the first on. -/
theorem stored_storeCoords (vs : List UInt64) : ∀ (conf : ConfState) (idx : Nat),
    (conf.storeCoords idx vs).1.stored = (List.range' idx vs.length).reverse ++ conf.stored := by
  induction vs with
  | nil => exact fun _ _ => rfl
  | cons v vs ih =>
      intro conf idx
      calc (conf.storeCoords idx (v :: vs)).1.stored
          = (List.range' (idx + 1) vs.length).reverse ++ ([idx] ++ conf.stored) := ih (conf.setCoord idx v) (idx + 1)
        _ = (List.range' idx (vs.length + 1)).reverse ++ conf.stored := by
            rw [List.range'_succ, List.reverse_cons, List.append_assoc]

/-- All of the coordinates are stored within `dims` only if there are few enough. -/
theorem length_le_of_kept {named : ConfField → Prop} {conf : ConfState} {vs : List UInt64}
    (h : Kept named conf (conf.storeCoords 0 vs).1) : vs.length ≤ BBOX_MAX_NDIM := by
  obtain ⟨idxs, hidxs, hlt⟩ := h.inDims
  rw [stored_storeCoords] at hidxs
  have hall : (List.range' 0 vs.length).reverse = idxs := List.append_cancel_right hidxs
  by_contra hlong
  have hmem : BBOX_MAX_NDIM ∈ idxs := by
    rw [← hall, List.mem_reverse, List.mem_range']
    exact ⟨BBOX_MAX_NDIM, by omega, by simp⟩
  exact absurd (hlt _ hmem) (Nat.lt_irrefl _)

theorem kept_storeCoords_iff (conf : ConfState) (vs : List UInt64) :
    Kept (· = .dims) conf (conf.storeCoords 0 vs).1 ↔ vs.length ≤ BBOX_MAX_NDIM :=
  ⟨length_le_of_kept, fun h => kept_storeCoords vs conf 0 (by omega)⟩

end ConfState

namespace Kept

variable {named : ConfField → Prop} {conf conf' : ConfState} {f : ConfField}

theorem setInt (h : Kept named conf conf') (hf : named f) (v : Int32) :
    Kept named conf (conf'.setInt f v) := by
  refine h.trans ((conf'.kept_setInt f v).mono ?_)
  rintro g rfl
  exact hf

theorem getTomlInt (h : Kept named conf conf') {i : Option Int64} (hf : i.isSome → named f) :
    Kept named conf (conf'.getTomlInt f i) := by
  cases i with
  | none => exact h
  | some i => exact h.setInt (hf rfl) _

end Kept

/-! ## Lines change what they name -/

theorem lookup_dimsOpt : options.lookup dimsOpt = some .dims := by
  decide

/-- The first turn of the loop finds `dims`. -/
theorem optionLoop_dims (conf : ConfState) (t : CStr) :
    (optionLoop conf dimsOpt t options).1 =
      (conf.storeCoords 0 ((strtoks t).map fun crd => (atoll crd).toUInt64)).1 := by
  rw [options, optionLoop, if_pos rfl]
  dsimp only
  split <;> rfl

/-- Any other option is looked up. -/
theorem optionLoop_ne_dims (conf : ConfState) {key : CStr} (hkey : key ≠ dimsOpt) (t : CStr)
    (opts : List (CStr × ConfField)) :
    (optionLoop conf key t opts).1 =
      match opts.lookup key with
      | none => conf
      | some f => conf.setInt f (atoi t) := by
  induction opts with
  | nil => rfl
  | cons o opts ih =>
      obtain ⟨opt, f⟩ := o
      rw [optionLoop, if_neg hkey, List.lookup_cons]
      by_cases hopt : key = opt
      · rw [if_pos hopt, hopt, beq_self_eq_true]
      · rw [if_neg hopt, ih, beq_false_of_ne hopt]

theorem parseLine_none {line : CStr} (h : assignment line = none) (conf : ConfState) :
    (parseLine conf line).1 = conf := by
  rw [assignment] at h
  rw [parseLine]
  split at h
  case isTrue hcomment => rw [if_pos hcomment]
  case isFalse hcomment =>
    rw [if_neg hcomment]
    split at h
    case h_1 => split <;> rfl
    case h_2 => cases h

theorem parseLine_some {line key t : CStr} (h : assignment line = some (key, t)) (conf : ConfState) :
    parseLine conf line = optionLoop conf key t options := by
  rw [assignment] at h
  rw [parseLine]
  split at h
  case isTrue => cases h
  case isFalse hcomment =>
    rw [if_neg hcomment]
    split at h
    case h_1 => cases h
    case h_2 =>
      cases h
      rfl

/-- What a line can do: nothing, store an `int`, or store coordinates. -/
theorem parseLine_cases (conf : ConfState) (line : CStr) :
    (coordTexts line = [] ∧ (parseLine conf line).1 = conf) ∨
      (∃ f v, coordTexts line = [] ∧ namedField line = some f ∧ (parseLine conf line).1 = conf.setInt f v) ∨
        namedField line = some .dims ∧ (parseLine conf line).1 =
          (conf.storeCoords 0 ((coordTexts line).map fun crd => (atoll crd).toUInt64)).1 := by
  cases ha : assignment line with
  | none =>
      left
      exact ⟨by rw [coordTexts, ha], parseLine_none ha conf⟩
  | some a =>
      obtain ⟨key, t⟩ := a
      have hnamed : namedField line = options.lookup key := by
        rw [namedField, ha]
        rfl
      rw [parseLine_some ha, hnamed]
      by_cases hkey : key = dimsOpt
      · right; right
        have hcoords : coordTexts line = strtoks t := by
          rw [coordTexts, ha]
          exact if_pos hkey
        rw [hkey, hcoords]
        exact ⟨lookup_dimsOpt, optionLoop_dims conf t⟩
      · have hcoords : coordTexts line = [] := by
          rw [coordTexts, ha]
          exact if_neg hkey
        rw [optionLoop_ne_dims conf hkey]
        cases hf : options.lookup key with
        | none => exact Or.inl ⟨hcoords, rfl⟩
        | some f => exact Or.inr (Or.inl ⟨f, atoi t, hcoords, rfl, rfl⟩)

theorem parseLine_kept_iff (conf : ConfState) (line : CStr) :
    Kept (fun f => namedField line = some f) conf (parseLine conf line).1 ↔
      (coordTexts line).length ≤ BBOX_MAX_NDIM := by
  rcases parseLine_cases conf line with ⟨hnone, h⟩ | ⟨f, v, hnone, hf, h⟩ | ⟨hdims, h⟩
  · rw [h, hnone]
    exact iff_of_true (Kept.refl _ conf) (Nat.zero_le _)
  · rw [h, hnone]
    refine iff_of_true ((conf.kept_setInt f v).mono ?_) (Nat.zero_le _)
    rintro g rfl
    exact hf
  · have hnamed : (fun f => namedField line = some f) = (· = .dims) := by
      funext f
      rw [hdims, Option.some.injEq, eq_iff_iff]
      exact eq_comm
    rw [h, hnamed, ConfState.kept_storeCoords_iff, List.length_map]

/-- Calls of `parse_line` are the steps of a run. -/
theorem isRun_parseLines :
    Runs.IsRun (fun conf line => some (parseLine conf line).1)
      (fun lines conf => some (parseLines lines conf)) where
  nil _ := rfl
  cons _ _ _ := rfl

/-- Lines with at most ten coordinates each change what they name. -/
theorem parseLines_kept {lines : List CStr} (hlen : ∀ line ∈ lines, (coordTexts line).length ≤ BBOX_MAX_NDIM)
    (conf : ConfState) :
    Kept (fun f => ∃ line ∈ lines, namedField line = some f) conf (parseLines lines conf) := by
  refine isRun_parseLines.keeps_along (fun c line c' h hline hstep => ?_) lines conf _ (Kept.refl _ conf)
    (Runs.along_of_forall (Q := (· ∈ lines)) (fun _ h => h) conf) rfl
  obtain rfl : (parseLine c line).1 = c' := Option.some.inj hstep
  exact h.trans (((parseLine_kept_iff c line).2 (hlen line hline)).mono fun f hf => ⟨line, hline, hf⟩)

theorem linesKept_iff (conf : ConfState) (lines : List CStr) :
    LinesKept lines conf ↔ ∀ line ∈ lines, (coordTexts line).length ≤ BBOX_MAX_NDIM := by
  constructor
  · intro h line hline
    obtain ⟨done, rest, hsplit⟩ := List.append_of_mem hline
    exact (parseLine_kept_iff _ line).1 (h.each done line rest _ hsplit rfl)
  · intro hlen
    refine ⟨fun done line rest c hsplit _ => ?_, parseLines_kept hlen conf⟩
    refine (parseLine_kept_iff c line).2 (hlen line ?_)
    rw [hsplit]
    simp

/-- `parse_conf` reads the lines up to the first that is not accepted. -/
theorem parseConf_eq (buffs : List (List UInt8)) : ∀ conf, ∃ n,
    (parseConf conf buffs).1 = parseLines ((buffs.take n).map fun buff => buff.takeWhile (· ≠ 0)) conf := by
  induction buffs with
  | nil => exact fun conf => ⟨0, rfl⟩
  | cons buff buffs ih =>
      intro conf
      by_cases herr : (parseLine conf (buff.takeWhile (· ≠ 0))).2 < 0
      · refine ⟨1, ?_⟩
        rw [parseConf]
        simp only [if_pos herr]
        rfl
      · obtain ⟨n, hn⟩ := ih (parseLine conf (buff.takeWhile (· ≠ 0))).1
        refine ⟨n + 1, ?_⟩
        rw [parseConf]
        simp only [if_neg herr]
        exact hn

/-- A field that no line of the file names is what it was before `parse_conf`. -/
theorem parseConf_field {buffs : List (List UInt8)}
    (hlen : ∀ buff ∈ buffs, (coordTexts (buff.takeWhile (· ≠ 0))).length ≤ BBOX_MAX_NDIM) {f : ConfField}
    (hf : ∀ buff ∈ buffs, namedField (buff.takeWhile (· ≠ 0)) ≠ some f) (conf : ConfState) {w : Nat}
    (hw : f.Has w) : (parseConf conf buffs).1.mem w = conf.mem w := by
  obtain ⟨n, hn⟩ := parseConf_eq buffs conf
  rw [hn]
  have hread : ∀ line ∈ (buffs.take n).map (fun buff => buff.takeWhile (· ≠ 0)),
      ∃ buff ∈ buffs, buff.takeWhile (· ≠ 0) = line := by
    intro line hline
    obtain ⟨buff, hbuff, rfl⟩ := List.mem_map.1 hline
    exact ⟨buff, List.mem_of_mem_take hbuff, rfl⟩
  refine (parseLines_kept ?_ conf).field ?_ hw
  · intro line hline
    obtain ⟨buff, hbuff, rfl⟩ := hread line hline
    exact hlen buff hbuff
  · rintro ⟨line, hline, hnamed⟩
    obtain ⟨buff, hbuff, rfl⟩ := hread line hline
    exact hf buff hbuff hnamed

/-! ## Files change what they name -/

theorem arrLoop_eq (arr : List (Option Int64)) : ∀ (conf : ConfState) (i : Nat),
    conf.arrLoop i arr = conf.storeCoords i ((leadingInts arr).map Int64.toUInt64) := by
  induction arr with
  | nil => exact fun _ _ => rfl
  | cons v arr ih =>
      intro conf i
      cases v with
      | none => rfl
      | some v => exact ih _ _

theorem getTomlArrUi64_eq (conf : ConfState) (toml : TomlConf) {server : ServerTable}
    (h : toml.server = some server) :
    conf.getTomlArrUi64 server.dims = conf.storeCoords 0 (toml.coords.map Int64.toUInt64) := by
  rw [TomlConf.coords, h, Option.bind_some]
  cases server.dims with
  | none => rfl
  | some arr => exact arrLoop_eq arr conf 0

theorem getTomlArrUi64_kept_iff (conf : ConfState) {toml : TomlConf} {server : ServerTable}
    (h : toml.server = some server) :
    Kept (· = .dims) conf (conf.getTomlArrUi64 server.dims).1 ↔ toml.coords.length ≤ BBOX_MAX_NDIM := by
  rw [getTomlArrUi64_eq conf toml h, ConfState.kept_storeCoords_iff, List.length_map]

/-- If the coordinates fit, the table `server` and the number of remotes change what they name. -/
theorem parseConfToml_kept (conf : ConfState) {toml : TomlConf} (h : toml.coords.length ≤ BBOX_MAX_NDIM) :
    Kept toml.Names conf (parseConfToml conf toml).1 := by
  rcases toml with ⟨_ | server, remotes⟩
  · exact Kept.refl _ conf
  · let toml : TomlConf := ⟨some server, remotes⟩
    have hserver : toml.server = some server := rfl
    have hdims : Kept toml.Names conf (conf.getTomlArrUi64 server.dims).1 := by
      cases hd : server.dims with
      | none => exact Kept.refl _ conf
      | some arr =>
          rw [← hd]
          refine ((getTomlArrUi64_kept_iff conf hserver).2 h).mono ?_
          rintro f rfl
          exact congrArg Option.isSome hd
    have hndim := hdims.setInt (f := .ndim) rfl (Int32.ofNat (conf.getTomlArrUi64 server.dims).2)
    have hmax := hndim.getTomlInt (f := .maxVersions) (i := server.maxVersions) id
    have hhash := hmax.getTomlInt (f := .hashVersion) (i := server.hashVersion) id
    have happs := hhash.getTomlInt (f := .numApps) (i := server.numApps) id
    cases remotes with
    | none => exact happs
    | some ntab => exact happs.setInt (f := .nremote) rfl _

theorem tomlKept_iff (conf : ConfState) (toml : TomlConf) :
    TomlKept toml conf ↔ toml.coords.length ≤ BBOX_MAX_NDIM := by
  constructor
  · intro h
    cases hserver : toml.server with
    | none => simp [TomlConf.coords, hserver]
    | some server => exact (getTomlArrUi64_kept_iff conf hserver).1 (h.dims server hserver)
  · intro h
    exact ⟨fun server hserver => (getTomlArrUi64_kept_iff conf hserver).2 h, parseConfToml_kept conf h⟩

/-- Reading lines and a file changes only what they name exactly when no line that sets `dims`, and no
file, has more than ten coordinates. -/
theorem confKept_iff (conf conf' : ConfState) (lines : List CStr) (toml : TomlConf) :
    LinesKept lines conf ∧ TomlKept toml conf' ↔
      (∀ line ∈ lines, (coordTexts line).length ≤ BBOX_MAX_NDIM) ∧ toml.coords.length ≤ BBOX_MAX_NDIM :=
  and_congr (linesKept_iff conf lines) (tomlKept_iff conf' toml)

/-- `"ndim=11"`. -/
def ndimLine : CStr := [110, 100, 105, 109, 61, 49, 49]

/-- `"dims=1,2,3,4,5,6,7,8,9,1,7"`. -/
def elevenLine : CStr :=
  [100, 105, 109, 115, 61, 49, 44, 50, 44, 51, 44, 52, 44, 53, 44, 54, 44, 55, 44, 56, 44, 57, 44, 49, 44, 55]

/-- Both lines are accepted, and the second one, which names `dims`, sets `max_versions` to `7`. -/
theorem not_confKept_eleven :
    let conf : ConfState := ⟨fun _ => 0, []⟩
    let conf' := (parseLine conf ndimLine).1
    (parseLine conf ndimLine).2 = 0 ∧ (parseLine conf' elevenLine).2 = 0 ∧
      namedField elevenLine = some .dims ∧ conf'.int .maxVersions = 0 ∧
        (parseLine conf' elevenLine).1.int .maxVersions = 7 ∧
          ∀ toml conf₁, ¬ (LinesKept [ndimLine, elevenLine] conf ∧ TomlKept toml conf₁) := by
  intro conf conf'
  have hbefore : conf'.int .maxVersions = 0 := by decide
  have hafter : (parseLine conf' elevenLine).1.int .maxVersions = 7 := by decide
  have hnamed : namedField elevenLine ≠ some .maxVersions := by decide
  refine ⟨by decide, by decide, by decide, hbefore, hafter, fun toml conf₁ h => ?_⟩
  have hkept := h.1.each [ndimLine] elevenLine [] conf' rfl rfl
  have hsame : (parseLine conf' elevenLine).1.int .maxVersions = conf'.int .maxVersions :=
    hkept.int hnamed
  rw [hbefore, hafter] at hsame
  exact absurd hsame (by decide)

end DataSpaces
