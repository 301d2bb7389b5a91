import DataSpaces.SSpace

/-!
# HashCache — the cache in front of the spatial hash (`sh_add`, `sh_find`, `ssd_hash`)

A server process keeps one list `sfc_hash_list` of boxes with the entries they were hashed to.  The
list is looked up by box alone, but the process has one shared space for each set of global
dimensions, and `ssd_hash_v1` and `ssd_hash_v2` of all of them use this one list.  The results below
say what a lookup finds after any history of calls, and when one call cannot tell that there is a
cache.  `Transparency` goes on to whole histories.
-/

namespace DataSpaces

/-- A `struct dht_entry *`: entry `rank` of the space with number `ss`. -/
structure DePtr where
  ss : Nat
  rank : Nat
  deriving DecidableEq

/-- `struct sfc_hash_cache`. -/
structure ShEntry where
  shBb : BBox
  shDeTab : List DePtr

/-- The list `sfc_hash_list`. -/
abbrev SfcHashList : Type := List ShEntry

def shAdd (sfc : SfcHashList) (bb : BBox) (deTab : List DePtr) : SfcHashList :=
  sfc ++ [⟨bb, deTab⟩]

/-- `sh_find`; `none` is the return value `-1`. -/
def shFind (sfc : SfcHashList) (bb : BBox) : Option (List DePtr) :=
  (sfc.find? fun shc => bboxEquals bb shc.shBb).map ShEntry.shDeTab

/-- The common body of `ssd_hash_v1` and `ssd_hash_v2`: a lookup that finds at least one entry is
returned, anything else is computed and added to the list. -/
def ssdHashCached (computed : Option (List DePtr)) (bb : BBox) (sfc : SfcHashList) :
    Option (List DePtr × SfcHashList) :=
  match shFind sfc bb with
  | some (de :: deTab) => some (de :: deTab, sfc)
  | _ => computed.map fun deTab => (deTab, shAdd sfc bb deTab)

section Hash

variable (hilbertC2i : HilbertC2i) (uninit : Intv)

/-- The entries of space number `id` that the box hashes to, computed afresh. -/
def ssdHashUncached (id : Nat) (ss : SSpace) (bb : BBox) : Option (List DePtr) :=
  (ssdHashLoop hilbertC2i uninit ss bb).map fun ranks => ranks.map (DePtr.mk id)

/-- `ssd_hash` on space number `id`; only v1 and v2 go through the cache. -/
def ssdHash (id : Nat) (ss : SSpace) (bb : BBox) (sfc : SfcHashList) :
    Option (List DePtr × SfcHashList) :=
  match ss.hashVersion with
  | .v0 | .auto => (ssdHashUncached hilbertC2i uninit id ss bb).map fun deTab => (deTab, sfc)
  | .v1 | .v2 => ssdHashCached (ssdHashUncached hilbertC2i uninit id ss bb) bb sfc

end Hash

/-! ## Boxes that `bbox_equals` identifies -/

section Congr

variable {b0 b1 : BBox} (h : bboxEquals b0 b1 = true)

include h

theorem bboxDoesIntersect_congr (b : BBox) :
    bboxDoesIntersect b0 b = bboxDoesIntersect b1 b := by
  obtain ⟨hd, hc⟩ := bboxEquals_iff.1 h
  rw [Bool.eq_iff_iff, bboxDoesIntersect_iff_ondim, bboxDoesIntersect_iff_ondim, ← hd]
  refine forall₂_congr fun i hi => ?_
  rw [bboxIntersectOndim_iff, bboxIntersectOndim_iff, (hc i hi).1, (hc i hi).2]

theorem bboxInclude_congr (b : BBox) : bboxInclude b0 b = bboxInclude b1 b := by
  obtain ⟨hd, hc⟩ := bboxEquals_iff.1 h
  rw [Bool.eq_iff_iff]
  simp only [bboxInclude, List.all_eq_true, List.mem_range, bboxIncludeOndim, ← hd]
  refine forall₂_congr fun i hi => ?_
  rw [(hc i hi).1, (hc i hi).2]

theorem bboxToIntv2Loop_congr {γ : Type} (emit : BBox → γ) (n : Nat) :
    bboxToIntv2Loop emit b0 n = bboxToIntv2Loop emit b1 n := by
  have hturn : bboxToIntv2Turn emit b0 n = bboxToIntv2Turn emit b1 n := by
    funext s
    simp only [bboxToIntv2Turn, bboxInclude_congr h, bboxDoesIntersect_congr h]
  funext fuel
  induction fuel with
  | zero =>
      funext s
      simp only [bboxToIntv2Loop]
  | succ fuel ih =>
      funext s
      simp only [bboxToIntv2Loop, hturn, ih]

/-- The hash does not tell the two boxes apart. -/
theorem ssdHashLoop_congr (hilbertC2i : HilbertC2i) (uninit : Intv) (ss : SSpace) :
    ssdHashLoop hilbertC2i uninit ss b0 = ssdHashLoop hilbertC2i uninit ss b1 := by
  have hd := (bboxEquals_iff.1 h).1
  have hv1 : bboxToIntv2 hilbertC2i uninit b0 ss.maxDim =
      bboxToIntv2 hilbertC2i uninit b1 ss.maxDim := by
    rw [bboxToIntv2, bboxToIntv2, hd, bboxToIntv2Loop_congr h]
  have hv2 : bboxDoesIntersect b0 = bboxDoesIntersect b1 := funext (bboxDoesIntersect_congr h)
  simp only [ssdHashLoop, ssdHashV1Loop, ssdHashV2Loop, hv1, hv2]

end Congr

/-! ## Histories of calls -/

/-- One call of `ssd_hash` in a process: the number of the space, the box, and what `malloc` leaves in
the interval table of this call. -/
structure HashCall where
  ss : Nat
  bb : BBox
  uninit : Intv

section History

variable (hilbertC2i : HilbertC2i) (ssds : Nat → SSpace)

def HashCall.run (c : HashCall) (sfc : SfcHashList) : Option (List DePtr × SfcHashList) :=
  ssdHash hilbertC2i c.uninit c.ss (ssds c.ss) c.bb sfc

def HashCall.uncached (c : HashCall) : Option (List DePtr) :=
  ssdHashUncached hilbertC2i c.uninit c.ss (ssds c.ss) c.bb

/-- Whether the call goes through the cache. -/
def HashCall.usesCache (c : HashCall) : Bool :=
  (ssds c.ss).hashVersion = .v1 ∨ (ssds c.ss).hashVersion = .v2

/-- The cache after a history of calls that have all returned. -/
def cacheAfter : List HashCall → SfcHashList → Option SfcHashList
  | [], sfc => some sfc
  | c :: cs, sfc => (c.run hilbertC2i ssds sfc).bind fun r => cacheAfter cs r.2

/-- The first call of a history that could have cached the box. -/
def firstCall (calls : List HashCall) (bb : BBox) : Option HashCall :=
  calls.find? fun c => c.usesCache ssds && bboxEquals bb c.bb

/-- The cache holds, for every box, what the first call with that box computed. -/
def Remembers (calls : List HashCall) (sfc : SfcHashList) : Prop :=
  ∀ bb, match firstCall ssds calls bb with
    | none => shFind sfc bb = none
    | some c => ∃ deTab, c.uncached hilbertC2i ssds = some deTab ∧ shFind sfc bb = some deTab

variable {hilbertC2i ssds}

theorem shFind_shAdd (sfc : SfcHashList) (bb bb' : BBox) (deTab : List DePtr) :
    shFind (shAdd sfc bb deTab) bb' =
      (shFind sfc bb').or (if bboxEquals bb' bb then some deTab else none) := by
  simp only [shFind, shAdd, List.find?_append]
  cases hfind : sfc.find? fun shc => bboxEquals bb' shc.shBb with
  | none =>
      cases heq : bboxEquals bb' bb with
      | false => simp [heq]
      | true => simp [heq]
  | some shc => simp

theorem firstCall_append (calls : List HashCall) (c : HashCall) (bb : BBox) :
    firstCall ssds (calls ++ [c]) bb =
      (firstCall ssds calls bb).or
        (if c.usesCache ssds && bboxEquals bb c.bb then some c else none) := by
  simp only [firstCall, List.find?_append]
  congr 1
  cases hc : c.usesCache ssds && bboxEquals bb c.bb with
  | false => simp [hc]
  | true => simp [hc]

/-- What a call does to the cache: a call that bypasses it or hits it leaves it alone, any other adds
what it computes. -/
theorem HashCall.run_cases {c : HashCall} {sfc : SfcHashList} {r : List DePtr × SfcHashList}
    (h : c.run hilbertC2i ssds sfc = some r) :
    (c.usesCache ssds = false ∧ c.uncached hilbertC2i ssds = some r.1 ∧ r.2 = sfc) ∨
    (c.usesCache ssds = true ∧ shFind sfc c.bb = some r.1 ∧ r.1 ≠ [] ∧ r.2 = sfc) ∨
    (c.usesCache ssds = true ∧ (shFind sfc c.bb = none ∨ shFind sfc c.bb = some []) ∧
      c.uncached hilbertC2i ssds = some r.1 ∧ r.2 = shAdd sfc c.bb r.1) := by
  -- an empty list in the cache counts as a miss
  have hcached : ssdHashCached (c.uncached hilbertC2i ssds) c.bb sfc = some r →
      (shFind sfc c.bb = some r.1 ∧ r.1 ≠ [] ∧ r.2 = sfc) ∨
      ((shFind sfc c.bb = none ∨ shFind sfc c.bb = some []) ∧
        c.uncached hilbertC2i ssds = some r.1 ∧ r.2 = shAdd sfc c.bb r.1) := by
    intro h
    simp only [ssdHashCached] at h
    split at h
    · next de deTab hfind =>
        cases h
        exact Or.inl ⟨hfind, by simp, rfl⟩
    · next hmiss =>
        obtain ⟨deTab, hcomp, rfl⟩ := Option.map_eq_some_iff.1 h
        refine Or.inr ⟨?_, hcomp, rfl⟩
        cases hfind : shFind sfc c.bb with
        | none => exact Or.inl rfl
        | some l =>
            cases l with
            | nil => exact Or.inr rfl
            | cons de deTab' => exact absurd hfind (hmiss de deTab')
  have hplain : (c.uncached hilbertC2i ssds).map (fun deTab => (deTab, sfc)) = some r →
      c.uncached hilbertC2i ssds = some r.1 ∧ r.2 = sfc := by
    intro h
    obtain ⟨deTab, hcomp, rfl⟩ := Option.map_eq_some_iff.1 h
    exact ⟨hcomp, rfl⟩
  simp only [HashCall.run, ssdHash] at h
  cases hv : (ssds c.ss).hashVersion with
  | auto =>
      rw [hv] at h
      exact Or.inl ⟨by simp [HashCall.usesCache, hv], hplain h⟩
  | v0 =>
      rw [hv] at h
      exact Or.inl ⟨by simp [HashCall.usesCache, hv], hplain h⟩
  | v1 =>
      rw [hv] at h
      have huses : c.usesCache ssds = true := by simp [HashCall.usesCache, hv]
      exact Or.inr ((hcached h).imp (And.intro huses) (And.intro huses))
  | v2 =>
      rw [hv] at h
      have huses : c.usesCache ssds = true := by simp [HashCall.usesCache, hv]
      exact Or.inr ((hcached h).imp (And.intro huses) (And.intro huses))

/-- One call keeps the cache in step with the history. -/
theorem Remembers.step {calls : List HashCall} {c : HashCall} {sfc : SfcHashList}
    {r : List DePtr × SfcHashList} (hrem : Remembers hilbertC2i ssds calls sfc)
    (h : c.run hilbertC2i ssds sfc = some r) :
    Remembers hilbertC2i ssds (calls ++ [c]) r.2 := by
  intro bb
  have hbb := hrem bb
  rw [firstCall_append]
  rcases HashCall.run_cases h with ⟨huses, -, hsfc⟩ | ⟨huses, hhit, -, hsfc⟩ | ⟨huses, hmiss, hcomp, hsfc⟩
  · rw [huses, hsfc]
    simpa using hbb
  · rw [hsfc]
    cases hfirst : firstCall ssds calls bb with
    | some c' => simpa [hfirst] using hbb
    | none =>
        -- a box equal to the one that hit would have been in the history before
        have hne : bboxEquals bb c.bb = false := by
          by_contra hcon
          rw [Bool.not_eq_false] at hcon
          have hc := hrem c.bb
          cases hfc : firstCall ssds calls c.bb with
          | none =>
              rw [hfc] at hc
              simp [hhit] at hc
          | some c' =>
              have hmem := List.mem_of_find?_eq_some hfc
              have hprop := List.find?_some hfc
              rw [Bool.and_eq_true] at hprop
              have hnone := List.find?_eq_none.1 hfirst c' hmem
              rw [hprop.1, bboxEquals_trans hcon hprop.2] at hnone
              exact hnone rfl
        rw [hfirst] at hbb
        simpa [hne] using hbb
  · rw [hsfc, huses, Bool.true_and]
    cases hfirst : firstCall ssds calls bb with
    | some c' =>
        rw [hfirst] at hbb
        obtain ⟨deTab, hc', hfind⟩ := hbb
        exact ⟨deTab, hc', by rw [shFind_shAdd, hfind]; rfl⟩
    | none =>
        rw [hfirst] at hbb
        simp only at hbb
        rw [Option.none_or, shFind_shAdd, hbb, Option.none_or]
        cases heq : bboxEquals bb c.bb with
        | false => simp
        | true => exact ⟨r.1, hcomp, by simp⟩

/-- A whole history keeps the cache in step. -/
theorem remembers_cacheAfter (calls : List HashCall) :
    ∀ (done : List HashCall) (sfc sfc' : SfcHashList), Remembers hilbertC2i ssds done sfc →
      cacheAfter hilbertC2i ssds calls sfc = some sfc' →
      Remembers hilbertC2i ssds (done ++ calls) sfc' := by
  induction calls with
  | nil =>
      intro done sfc sfc' hrem h
      cases h
      simpa using hrem
  | cons c calls ih =>
      intro done sfc sfc' hrem h
      obtain ⟨r, hr, h⟩ := Option.bind_eq_some_iff.1 h
      have := ih (done ++ [c]) r.2 sfc' (hrem.step hr) h
      simpa using this

theorem remembers_nil : Remembers hilbertC2i ssds [] [] := by
  intro bb
  rfl

/-! ## When the cache cannot be noticed -/

variable (hilbertC2i ssds)

/-- No entry of the space is found to meet the box. -/
def hashesNowhere (uninit : Intv) (ss : SSpace) (bb : BBox) : Prop :=
  match ss.hashVersion with
  | .v1 => ∃ iTab, bboxToIntv2 hilbertC2i uninit bb ss.maxDim = some iTab ∧
      ∀ de ∈ ss.entTab, ∀ itv ∈ iTab, dhtIntersect de itv = false
  | .v2 => ∀ de ∈ ss.entTab, ∀ b ∈ de.bbTab, bboxDoesIntersect bb b = false
  | .v0 | .auto => False

/-- The call returns what it would compute without the cache. -/
def HashCall.Transparent (c : HashCall) (sfc : SfcHashList) : Prop :=
  (c.run hilbertC2i ssds sfc).map Prod.fst = c.uncached hilbertC2i ssds

/-- The history `calls` comes to the call `c` after the calls `done`, which have all returned and
left the cache `sfc`. -/
def Reaches (calls done : List HashCall) (c : HashCall) (sfc : SfcHashList) : Prop :=
  (∃ rest, calls = done ++ c :: rest) ∧ cacheAfter hilbertC2i ssds done [] = some sfc

variable {hilbertC2i ssds}

theorem HashCall.uncached_eq_nil_iff {c : HashCall} (hc : c.usesCache ssds = true) :
    c.uncached hilbertC2i ssds = some [] ↔
      hashesNowhere hilbertC2i c.uninit (ssds c.ss) c.bb := by
  cases hv : (ssds c.ss).hashVersion with
  | auto => simp [HashCall.usesCache, hv] at hc
  | v0 => simp [HashCall.usesCache, hv] at hc
  | v1 =>
      simp only [HashCall.uncached, ssdHashUncached, ssdHashLoop, hashesNowhere, hv, ssdHashV1Loop,
        Option.map_map, Option.map_eq_some_iff, Function.comp_apply, List.map_eq_nil_iff,
        List.filter_eq_nil_iff, List.any_eq_true, not_exists, not_and, Bool.not_eq_true]
  | v2 =>
      simp only [HashCall.uncached, ssdHashUncached, ssdHashLoop, hashesNowhere, hv, ssdHashV2Loop,
        Option.map_some, Option.some.injEq, List.map_eq_nil_iff, List.filter_eq_nil_iff,
        List.any_eq_true, not_exists, not_and, Bool.not_eq_true]

/-- The entries a call computes belong to its own space. -/
theorem HashCall.uncached_ss {c : HashCall} {deTab : List DePtr}
    (h : c.uncached hilbertC2i ssds = some deTab) : ∀ de ∈ deTab, de.ss = c.ss := by
  obtain ⟨ranks, -, rfl⟩ := Option.map_eq_some_iff.1 h
  intro de hde
  obtain ⟨r, -, rfl⟩ := List.mem_map.1 hde
  rfl

theorem HashCall.run_usesCache {c : HashCall} (hc : c.usesCache ssds = true) (sfc : SfcHashList) :
    c.run hilbertC2i ssds sfc =
      ssdHashCached (c.uncached hilbertC2i ssds) c.bb sfc := by
  rw [HashCall.run, ssdHash]
  cases hv : (ssds c.ss).hashVersion with
  | auto => simp [HashCall.usesCache, hv] at hc
  | v0 => simp [HashCall.usesCache, hv] at hc
  | v1 => rfl
  | v2 => rfl

/-- A call goes unnoticed by the cache iff the first call with its box found no entry or what this call
would find. -/
theorem HashCall.transparent_iff {done : List HashCall} {sfc : SfcHashList}
    (hrem : Remembers hilbertC2i ssds done sfc) (c : HashCall) :
    c.Transparent hilbertC2i ssds sfc ↔
      (c.usesCache ssds = true → ∀ c', firstCall ssds done c.bb = some c' →
        hashesNowhere hilbertC2i c'.uninit (ssds c'.ss) c'.bb ∨
          c'.uncached hilbertC2i ssds = c.uncached hilbertC2i ssds) := by
  cases huses : c.usesCache ssds with
  | false =>
      have hplain : c.run hilbertC2i ssds sfc =
          (c.uncached hilbertC2i ssds).map fun deTab => (deTab, sfc) := by
        rw [HashCall.run, ssdHash]
        cases hv : (ssds c.ss).hashVersion with
        | auto => rfl
        | v0 => rfl
        | v1 => simp [HashCall.usesCache, hv] at huses
        | v2 => simp [HashCall.usesCache, hv] at huses
      simp [HashCall.Transparent, hplain, Function.comp_def]
  | true =>
      have hbb := hrem c.bb
      rw [HashCall.Transparent, HashCall.run_usesCache huses, ssdHashCached]
      -- the cache has what the first call with this box computed
      cases hfirst : firstCall ssds done c.bb with
      | none =>
          rw [hfirst] at hbb
          simp only at hbb
          simp [hbb, Function.comp_def]
      | some c' =>
          rw [hfirst] at hbb
          obtain ⟨deTab, hcomp, hfind⟩ := hbb
          have hprop := List.find?_some hfirst
          rw [Bool.and_eq_true] at hprop
          have hnil : c'.uncached hilbertC2i ssds = some [] ↔
              hashesNowhere hilbertC2i c'.uninit (ssds c'.ss) c'.bb :=
            HashCall.uncached_eq_nil_iff hprop.1
          cases deTab with
          | nil => simp [hfind, Function.comp_def, hnil.1 hcomp]
          | cons de deTab =>
              have hsome : ¬ hashesNowhere hilbertC2i c'.uninit (ssds c'.ss) c'.bb := by
                rw [← hnil, hcomp]
                simp
              simp only [hfind, Option.map_some, forall_const, Option.some.injEq, forall_eq', hsome,
                false_or, hcomp]

end History

end DataSpaces
