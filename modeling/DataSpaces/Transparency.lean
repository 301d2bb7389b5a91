import DataSpaces.SpaceLookup
import DataSpaces.Termination

/-!
# Transparency — when nobody can tell that there is a cache

The cache of `ssd_hash` is looked up by box alone, so that a box that was hashed on one space is answered
with the entries of that space on every other.  On the same space the cached answer is the computed one,
but for a box that misses the virtual cube of a v1 space: it has no intervals, and `bbox_to_intv2` returns
one that it never wrote, whatever `malloc` left there for this call.
-/

namespace DataSpaces

/-! ## Boxes that miss the virtual cube -/

section Cube

variable {hilbertC2i : HilbertC2i} {bb : BBox} {dimVirt : UInt64} {k : Nat}

/-- A box that includes the cube meets it. -/
theorem bboxInclude_bbVirt (hdims : bb.numDims ≤ BBOX_MAX_NDIM) (hdim : dimVirt.toNat = 2 ^ k)
    (hincl : bboxInclude bb (bbVirt bb.numDims dimVirt) = true) :
    bboxDoesIntersect bb (bbVirt bb.numDims dimVirt) = true := by
  have hpos := Nat.two_pow_pos k
  refine bboxDoesIntersect_iff_ondim.2 fun j hj => bboxIntersectOndim_iff.2 (Or.inl ?_)
  have hall := bboxInclude_iff_ondim.1 hincl j hj
  have hub := bbVirt_ub_toNat hdims (show 0 < dimVirt.toNat by omega) hj
  have hlb := bbVirt_lb_c bb.numDims dimVirt (lt_of_lt_of_le hj hdims)
  rw [hlb] at hall ⊢
  have hzero : (0 : UInt64).toNat = 0 := rfl
  omega

/-- The table after one turn that leaves no sub-cube. -/
theorem cutLoop_once {γ : Type} (emit : BBox → γ) {b : BBox} (hparts : cutParts bb b = []) (fuel : ℕ) :
    cutLoop emit bb (fuel + 1) [b] [] = some (emitted emit bb b) := by
  rw [cutLoop, hparts]
  cases fuel with
  | zero => rfl
  | succ fuel => rfl

theorem intvFuel_pos (hdim : dimVirt.toNat = 2 ^ k) (numDims : Nat) :
    ∃ fuel, intvFuel numDims dimVirt = fuel + 1 := by
  have hpos : 0 < intvFuel numDims dimVirt := by
    rw [intvFuel, hdim]
    positivity
  exact ⟨intvFuel numDims dimVirt - 1, by omega⟩

/-- What `bbox_to_intv2` returns of a box that misses the cube is what `malloc` left there. -/
theorem bboxToIntv2_of_apart (hdims : bb.numDims ≤ BBOX_MAX_NDIM) (hdim : dimVirt.toNat = 2 ^ k)
    (hapart : bboxDoesIntersect bb (bbVirt bb.numDims dimVirt) = false) (uninit : Intv) :
    bboxToIntv2 hilbertC2i uninit bb dimVirt = some [uninit] := by
  have hmiss : ¬ bboxDoesIntersect bb (bbVirt bb.numDims dimVirt) = true := by rw [hapart]; simp
  have hnot : ¬ bboxInclude bb (bbVirt bb.numDims dimVirt) = true := fun hincl =>
    hmiss (bboxInclude_bbVirt hdims hdim hincl)
  obtain ⟨fuel, hfuel⟩ := intvFuel_pos hdim bb.numDims
  -- the cube is dropped in the first turn
  have hloop : bboxToIntv2Loop (bboxFlat hilbertC2i (computeBits dimVirt)) bb (2 ^ bb.numDims) (fuel + 1)
      (bbRingInit bb.numDims dimVirt, intvTabInit Intv) = some [] := by
    refine (bboxToIntv2Loop_eq_some hdims _ (ringHolds_init dimVirt hdims)).2
      ⟨(cutLoop_once _ (cutParts_of_miss hmiss) fuel).trans ?_, ringRuns_of_miss hnot hmiss⟩
    rw [emitted, if_neg hnot]
  rw [bboxToIntv2, hfuel, hloop]
  simp [intvFinish, intvCompact]

/-- A box of no dimensions includes the cube, which has the one index `0`. -/
theorem bboxToIntv2_of_point (hdims : bb.numDims = 0) (hdim : dimVirt.toNat = 2 ^ k) {uninit : Intv}
    {tab : List Intv} (h : bboxToIntv2 hilbertC2i uninit bb dimVirt = some tab) (uninit' : Intv) :
    bboxToIntv2 hilbertC2i uninit' bb dimVirt = some tab := by
  have hle : bb.numDims ≤ BBOX_MAX_NDIM := by rw [hdims]; exact Nat.zero_le _
  have hincl : bboxInclude bb (bbVirt bb.numDims dimVirt) = true :=
    bboxInclude_iff_ondim.2 fun j hj => absurd hj (by omega)
  obtain ⟨fuel, hfuel⟩ := intvFuel_pos hdim bb.numDims
  obtain ⟨cut, hcut, rfl⟩ := Option.map_eq_some_iff.1 h
  have hone := ((bboxToIntv2Loop_eq_some hle _ (ringHolds_init dimVirt hle)).1 hcut).1
  rw [hfuel] at hone
  rw [bboxToIntv2, hcut, Option.map_some]
  have hcube := hone.symm.trans (cutLoop_once _ (cutParts_of_include hincl) fuel)
  rw [emitted, if_pos hincl, Option.some.injEq] at hcube
  rw [hcube]
  simp [intvFinish, intvCompact]

/-- What it returns of any other box it has written itself. -/
theorem bboxToIntv2_of_meets (hdims : bb.numDims ≤ BBOX_MAX_NDIM) (hdim : dimVirt.toNat = 2 ^ k)
    (hmeet : bboxDoesIntersect bb (bbVirt bb.numDims dimVirt) = true) {uninit : Intv} {tab : List Intv}
    (h : bboxToIntv2 hilbertC2i uninit bb dimVirt = some tab) (uninit' : Intv) :
    bboxToIntv2 hilbertC2i uninit' bb dimVirt = some tab := by
  rcases Nat.eq_zero_or_pos bb.numDims with hzero | hpos
  · exact bboxToIntv2_of_point hzero hdim h uninit'
  have hok : bb.DimsOk := ⟨hpos, hdims⟩
  have hends : Ends hilbertC2i bb dimVirt := by
    obtain ⟨cut, hcut, -⟩ := Option.map_eq_some_iff.1 h
    exact ends_iff_loop.2 ⟨_, by rw [hcut]; rfl⟩
  rcases (ends_iff hok hdim).1 hends with ⟨hle, -⟩ | ⟨j, hj, hbehind⟩
  · have hbb : bb.Valid := ⟨hok, hle⟩
    have hd := CubeDims.of_valid hbb hdim
    have hcells := (bboxDoesIntersect_iff hbb ((bbVirt_isCube hd hdim).valid hd) rfl).1 hmeet
    obtain ⟨tab', htab'⟩ := cutIntv_eq_of_meets hilbertC2i hbb hdim hcells
    obtain ⟨hcut, hfits⟩ := (bboxToIntv2_iff hbb hd hdim).1 h
    exact (bboxToIntv2_iff hbb hd hdim).2 ⟨by rw [htab' uninit', ← htab' uninit, hcut], hfits⟩
  · -- a box behind the cube does not meet it
    have hle := UInt64.le_iff_toNat_le.1 hbehind
    have hpow := Nat.two_pow_pos k
    have hub := bbVirt_ub_toNat hdims (show 0 < dimVirt.toNat by omega) hj
    have hlb := bbVirt_lb_c bb.numDims dimVirt (lt_of_lt_of_le hj hdims)
    have hzero : (0 : UInt64).toNat = 0 := rfl
    have hcase := bboxIntersectOndim_iff.1 (bboxDoesIntersect_iff_ondim.1 hmeet j hj)
    rw [hlb] at hcase
    omega

end Cube

/-! ## Spaces and unwritten memory -/

section Spaces

variable {hilbertC2i : HilbertC2i}

/-- A space that `ssd_alloc` returned. -/
def SSpace.Allocated (hilbertC2i : HilbertC2i) (ss : SSpace) : Prop :=
  ∃ uninit bbDomain numNodes maxVersions hashVersion,
    ssdAlloc hilbertC2i uninit bbDomain numNodes maxVersions hashVersion = some ss

/-- Is the box one for which the hash compares the entries with memory that it never wrote? -/
def SSpace.readsUnwritten (ss : SSpace) (bb : BBox) : Bool :=
  ss.hashVersion = .v1 ∧ bboxDoesIntersect bb (bbVirt bb.numDims ss.maxDim) = false

theorem SSpace.Allocated.side {ss : SSpace} (h : ss.Allocated hilbertC2i) (hv : ss.hashVersion = .v1) :
    ∃ k, ss.maxDim.toNat = 2 ^ k := by
  obtain ⟨uninit, dom, numNodes, maxVersions, hashVersion, hss⟩ := h
  rcases ssdAlloc_cases hss with ⟨hv0, -⟩ | ⟨-, halloc⟩ | ⟨hv2, -⟩
  · rw [hv] at hv0
    cases hv0
  · obtain ⟨k, -, hp, -⟩ := nextPow2V2_some (ssdAllocV1_fields halloc).1
    exact ⟨k, hp⟩
  · rw [hv] at hv2
    cases hv2

/-- No two entries have one rank. -/
theorem SSpace.Allocated.nodup {ss : SSpace} (h : ss.Allocated hilbertC2i) :
    (ss.entTab.map DhtEntry.rank).Nodup := by
  obtain ⟨uninit, dom, numNodes, maxVersions, hashVersion, hss⟩ := h
  rw [ssdAlloc_ranks hss]
  split
  · exact List.nodup_singleton 0
  · exact List.nodup_range

end Spaces

/-! ## Calls with the same box on the same space -/

section Calls

variable {hilbertC2i : HilbertC2i} {ssds : Nat → SSpace}

/-- Two selections of entries have the same ranks iff they are the same. -/
theorem map_rank_filter_eq_iff {entTab : List DhtEntry} (hnodup : (entTab.map DhtEntry.rank).Nodup)
    {f g : DhtEntry → Bool} : (entTab.filter f).map DhtEntry.rank = (entTab.filter g).map DhtEntry.rank ↔
      ∀ de ∈ entTab, f de = g de := by
  induction entTab with
  | nil => simp
  | cons de entTab ih =>
      rw [List.map_cons, List.nodup_cons] at hnodup
      have hfresh : ∀ p : DhtEntry → Bool, de.rank ∉ (entTab.filter p).map DhtEntry.rank := fun p hp => by
        obtain ⟨de', hde', heq⟩ := List.mem_map.1 hp
        exact hnodup.1 (heq ▸ List.mem_map_of_mem (List.mem_of_mem_filter hde'))
      rw [List.forall_mem_cons, ← ih hnodup.2]
      cases hf : f de with
      | false =>
          cases hg : g de with
          | false => simp [hf, hg]
          | true =>
              simp only [List.filter_cons, hf, hg, Bool.false_eq_true, if_false, if_true, List.map_cons,
                false_and, iff_false]
              exact fun heq => hfresh f (heq ▸ List.mem_cons_self)
      | true =>
          cases hg : g de with
          | false =>
              simp only [List.filter_cons, hf, hg, Bool.false_eq_true, if_false, if_true, List.map_cons,
                Bool.true_eq_false, false_and, iff_false]
              exact fun heq => hfresh g (heq ▸ List.mem_cons_self)
          | true => simp [hf, hg]

/-- Two calls on one space with equal boxes compute the same entries, unless they compare the entries with
unwritten memory that these tell apart. -/
theorem HashCall.uncached_eq_iff {c c' : HashCall} (hspace : (ssds c.ss).Allocated hilbertC2i)
    (hdims : c.bb.numDims ≤ BBOX_MAX_NDIM) (hss : c'.ss = c.ss) (hbb : bboxEquals c.bb c'.bb = true)
    (hsome : (c'.uncached hilbertC2i ssds).isSome) :
    c'.uncached hilbertC2i ssds = c.uncached hilbertC2i ssds ↔
      ((ssds c.ss).readsUnwritten c.bb = true →
        ∀ de ∈ (ssds c.ss).entTab, dhtIntersect de c'.uninit = dhtIntersect de c.uninit) := by
  have hbox : c'.uncached hilbertC2i ssds =
      ssdHashUncached hilbertC2i c'.uninit c.ss (ssds c.ss) c.bb := by
    rw [HashCall.uncached, ssdHashUncached, ssdHashUncached, hss, ssdHashLoop_congr hbb]
  have hinj : Function.Injective (List.map (DePtr.mk c.ss)) :=
    List.map_injective_iff.2 fun _ _ heq => (DePtr.mk.inj heq).2
  rw [hbox] at hsome ⊢
  rw [HashCall.uncached]
  simp only [ssdHashUncached, ssdHashLoop, SSpace.readsUnwritten, decide_eq_true_eq] at hsome ⊢
  cases hv : (ssds c.ss).hashVersion with
  | auto => simp
  | v0 => simp
  | v2 => simp
  | v1 =>
      obtain ⟨k, hp⟩ := hspace.side hv
      simp only [hv, ssdHashV1Loop] at hsome ⊢
      cases hmeet : bboxDoesIntersect c.bb (bbVirt c.bb.numDims (ssds c.ss).maxDim) with
      | true =>
          -- both calls have the same intervals
          obtain ⟨tab, htab⟩ : ∃ tab,
              bboxToIntv2 hilbertC2i c'.uninit c.bb (ssds c.ss).maxDim = some tab := by
            rw [← Option.isSome_iff_exists]
            simpa using hsome
          rw [htab, bboxToIntv2_of_meets hdims hp hmeet htab c.uninit]
          simp
      | false =>
          rw [bboxToIntv2_of_apart hdims hp hmeet, bboxToIntv2_of_apart hdims hp hmeet]
          simp only [Option.map_some, Option.some.injEq, hinj.eq_iff, List.any_cons, List.any_nil,
            Bool.or_false, map_rank_filter_eq_iff hspace.nodup, and_self, forall_const]

/-- Calls on different spaces compute the same only if it is nothing. -/
theorem HashCall.uncached_ne {c c' : HashCall} (hc : c'.usesCache ssds = true)
    (hsome : (c'.uncached hilbertC2i ssds).isSome)
    (hany : ¬ hashesNowhere hilbertC2i c'.uninit (ssds c'.ss) c'.bb)
    (heq : c'.uncached hilbertC2i ssds = c.uncached hilbertC2i ssds) : c'.ss = c.ss := by
  obtain ⟨deTab, hcomp⟩ := Option.isSome_iff_exists.1 hsome
  rw [← HashCall.uncached_eq_nil_iff hc, hcomp, Option.some.injEq] at hany
  obtain ⟨de, hde⟩ := List.exists_mem_of_ne_nil _ hany
  -- both results point into the table of their own space
  have h := HashCall.uncached_ss hcomp de hde
  rw [← h]
  exact HashCall.uncached_ss (heq.symm.trans hcomp) de hde

end Calls

/-! ## Whole histories -/

/-- The two calls are on one space and, on a v1 space whose virtual cube the box misses, the entries do not
tell their unwritten memory apart. -/
def HashCall.SameSpace (ssds : Nat → SSpace) (c c' : HashCall) : Prop :=
  c'.ss = c.ss ∧ ((ssds c.ss).readsUnwritten c.bb = true →
    ∀ de ∈ (ssds c.ss).entTab, dhtIntersect de c'.uninit = dhtIntersect de c.uninit)

/-- Every call of a history returns what it would compute afresh, exactly when the first call with an equal
box found no entry or was on the same space. -/
theorem ssdHash_transparent_iff {hilbertC2i : HilbertC2i} {ssds : Nat → SSpace}
    (hspaces : ∀ id, (ssds id).Allocated hilbertC2i) {calls : List HashCall}
    (hdims : ∀ c ∈ calls, c.bb.numDims ≤ BBOX_MAX_NDIM) :
    (∀ done c sfc, Reaches hilbertC2i ssds calls done c sfc → c.Transparent hilbertC2i ssds sfc) ↔
      ∀ done c sfc, Reaches hilbertC2i ssds calls done c sfc → c.usesCache ssds = true →
        ∀ c', firstCall ssds done c.bb = some c' →
          hashesNowhere hilbertC2i c'.uninit (ssds c'.ss) c'.bb ∨ c.SameSpace ssds c' := by
  refine forall₃_congr fun done c sfc => forall_congr' fun hreach => ?_
  have hrem := remembers_cacheAfter done [] [] sfc remembers_nil hreach.2
  rw [List.nil_append] at hrem
  rw [HashCall.transparent_iff hrem c]
  refine forall_congr' fun _ => forall₂_congr fun c' hfirst => or_congr_right' fun hany => ?_
  have hprop := List.find?_some hfirst
  rw [Bool.and_eq_true] at hprop
  -- the first call has returned
  have hsome : (c'.uncached hilbertC2i ssds).isSome := by
    have hc' := hrem c.bb
    rw [hfirst] at hc'
    obtain ⟨deTab, hcomp, -⟩ := hc'
    rw [hcomp]
    rfl
  have hmem : c ∈ calls := by
    obtain ⟨rest, rfl⟩ := hreach.1
    simp
  rw [HashCall.SameSpace]
  constructor
  · intro heq
    have hss := HashCall.uncached_ne hprop.1 hsome hany heq
    exact ⟨hss, (HashCall.uncached_eq_iff (hspaces c.ss) (hdims c hmem) hss hprop.2 hsome).1 heq⟩
  · rintro ⟨hss, hsame⟩
    exact (HashCall.uncached_eq_iff (hspaces c.ss) (hdims c hmem) hss hprop.2 hsome).2 hsame

/-- The line `[0, 2]` cut by bisection and the line `[0, 3]` cut along the curve. -/
def lineSpaces (id : Nat) : SSpace := if id = 0 then lineSpaceV2 else lineSpaceV1

theorem allocated_lineSpaces (id : Nat) : (lineSpaces id).Allocated lineC2i := by
  rw [lineSpaces]
  split
  · exact ⟨_, _, _, _, _, spaceBuilt_lineSpaceV2.built⟩
  · exact ⟨_, _, _, _, _, spaceBuilt_lineSpaceV1.built⟩

/-- A box that misses the cube of the second space, with memory that only the first server meets. -/
def missedCall : HashCall := ⟨1, BBox.line 4 5, ⟨1, 1⟩⟩

/-- A box hashed on the first space, the other box hashed on the second one twice, and the first box again. -/
def lineCalls : List HashCall :=
  [⟨0, BBox.line 2 2, ⟨0, 0⟩⟩, ⟨1, BBox.line 4 5, ⟨0, 0⟩⟩, missedCall, ⟨0, BBox.line 2 2, ⟨7, 7⟩⟩]

/-- The third call is answered from the cache, with what it would compute itself. -/
theorem ssdHash_transparent_iff_line :
    ∃ sfc, Reaches lineC2i lineSpaces lineCalls (lineCalls.take 2) missedCall sfc ∧
      missedCall.Transparent lineC2i lineSpaces sfc := by
  have hdims : ∀ c ∈ lineCalls, c.bb.numDims ≤ BBOX_MAX_NDIM := by decide
  -- any two of the calls with equal boxes are on one space, and meet memory that looks the same
  have hall : ∀ c ∈ lineCalls, ∀ c' ∈ lineCalls, bboxEquals c.bb c'.bb = true →
      c'.ss = c.ss ∧ ((lineSpaces c.ss).readsUnwritten c.bb = true →
        ∀ de ∈ (lineSpaces c.ss).entTab, dhtIntersect de c'.uninit = dhtIntersect de c.uninit) := by
    decide +kernel
  have hcache : (cacheAfter lineC2i lineSpaces (lineCalls.take 2) []).isSome = true := by decide +kernel
  obtain ⟨sfc, hsfc⟩ := Option.isSome_iff_exists.1 hcache
  have hreach : Reaches lineC2i lineSpaces lineCalls (lineCalls.take 2) missedCall sfc :=
    ⟨⟨lineCalls.drop 3, rfl⟩, hsfc⟩
  refine ⟨sfc, hreach, (ssdHash_transparent_iff allocated_lineSpaces hdims).2
    (fun done c sfc hreach _ c' hfirst => Or.inr ?_) _ _ _ hreach⟩
  obtain ⟨rest, hcalls⟩ := hreach.1
  have hprop := List.find?_some hfirst
  rw [Bool.and_eq_true] at hprop
  refine hall c (by rw [hcalls]; simp) c' ?_ hprop.2
  rw [hcalls]
  exact List.mem_append_left _ (List.mem_of_find?_eq_some hfirst)

/-- Two servers, global dimensions `[0, 2]` and then `[0, 4]`: the box `[2, 2]` belongs to entry `1` of
the first space and to entry `0` of the second, but the second call is answered with the entry of the
first space.  And a box that misses the virtual cube is answered with what the memory of the first call
met. -/
theorem ssdHash_not_transparent :
    (∃ s0 s1 : SSpace,
      ssdAlloc lineC2i ⟨0, 0⟩ (BBox.line 0 2) 2 1 .auto = some s0 ∧
      ssdAlloc lineC2i ⟨0, 0⟩ (BBox.line 0 4) 2 1 .auto = some s1 ∧
      ¬ ∀ done c sfc,
        Reaches lineC2i (fun id => if id = 0 then s0 else s1)
          [⟨0, BBox.line 2 2, ⟨0, 0⟩⟩, ⟨1, BBox.line 2 2, ⟨0, 0⟩⟩] done c sfc →
        c.Transparent lineC2i (fun id => if id = 0 then s0 else s1) sfc) ∧
    ¬ ∀ done c sfc,
      Reaches lineC2i lineSpaces [⟨1, BBox.line 4 5, ⟨0, 0⟩⟩, ⟨1, BBox.line 4 5, ⟨2, 2⟩⟩] done c sfc →
      c.Transparent lineC2i lineSpaces sfc := by
  constructor
  · refine ⟨_, _, rfl, rfl, fun hall => ?_⟩
    have hsecond := hall [⟨0, BBox.line 2 2, ⟨0, 0⟩⟩] ⟨1, BBox.line 2 2, ⟨0, 0⟩⟩
      [⟨BBox.line 2 2, [⟨0, 1⟩]⟩] ⟨⟨[], rfl⟩, rfl⟩
    revert hsecond
    simp only [HashCall.Transparent]
    decide +kernel
  · intro hall
    have hrun : (cacheAfter lineC2i lineSpaces [⟨1, BBox.line 4 5, ⟨0, 0⟩⟩] []).map (fun sfc =>
        ((HashCall.mk 1 (BBox.line 4 5) ⟨2, 2⟩).run lineC2i lineSpaces sfc).map Prod.fst) =
          some (some [⟨1, 0⟩]) := by decide +kernel
    have huncached : (HashCall.mk 1 (BBox.line 4 5) ⟨2, 2⟩).uncached lineC2i lineSpaces =
        some [⟨1, 1⟩] := by decide +kernel
    obtain ⟨sfc, hcache, hcached⟩ := Option.map_eq_some_iff.1 hrun
    have hsecond := hall [⟨1, BBox.line 4 5, ⟨0, 0⟩⟩] ⟨1, BBox.line 4 5, ⟨2, 2⟩⟩ sfc ⟨⟨[], rfl⟩, hcache⟩
    rw [HashCall.Transparent, hcached, huncached] at hsecond
    exact absurd hsecond (by decide)

end DataSpaces
