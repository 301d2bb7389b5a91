import Mathlib.Order.Interval.Finset.Nat
import DataSpaces.Lib.Flood
import DataSpaces.Storage

/-!
# Broadcast — requests that go to all servers (`ibcast_rpc_start`)

The ranks of a group form a binary heap.  A server that gets a request from a client (`src` is `-1`)
sends it to its parent and its children, and a server that gets it from another server sends it to its
other neighbours, always with its own rank as the source.  Seen from the server that the client asked,
this is a tree: `towards r w` is the neighbour of `w` on the way to `r`.
-/

namespace DataSpaces

/-- The ranks that `ibcast_rpc_start` sends to: the parent, then the children. -/
def ibcastTargets (sizeSp rank src : Int) : List Int :=
  let parent := (rank - 1).tdiv 2
  let child1 := rank * 2 + 1
  let child2 := child1 + 1
  if sizeSp = 1 ∨ (src = parent ∧ child1 ≥ sizeSp) then []
  else
    (if (src = -1 ∨ src > rank) ∧ rank > 0 then [parent] else []) ++
      (if child1 ≠ src ∧ child1 < sizeSp then [child1] else []) ++
      (if child2 ≠ src ∧ child2 < sizeSp then [child2] else [])

/-- The reply of `get_vars_rpc`: the names of the server and of the replies it waited for. -/
def getVarsReply (ls : Int → SsStorage) (rank : Int) (out : List (List CStr)) : List CStr :=
  dsStrHashGetAll (((ls rank).lsGetVarNames ++ out.flatten).foldl dsStrHashAdd dsStrHashInit)

/-- `get_vars_rpc`; a server that waits for replies makes calls of its own. -/
def getVarsRpc (sizeSp : Int) (ls : Int → SsStorage) : Nat → Int → Int → Option (List CStr) :=
  Flood.gather (ibcastTargets sizeSp) (getVarsReply ls)

/-- The reply of `get_var_objs_rpc`. -/
def getVarObjsReply (ls : Int → SsStorage) (varName : CStr) (rank : Int) (out : List (List ObjDesc)) :
    List ObjDesc :=
  (ls rank).lsFindAllNoVersion varName ++ out.flatten

/-- `get_var_objs_rpc`. -/
def getVarObjsRpc (sizeSp : Int) (ls : Int → SsStorage) (varName : CStr) :
    Nat → Int → Int → Option (List ObjDesc) :=
  Flood.gather (ibcastTargets sizeSp) (getVarObjsReply ls varName)

/-! ## The heap -/

def heapParent (w : Nat) : Nat :=
  (w - 1) / 2

theorem heapParent_lt {w : Nat} (h : 0 < w) : heapParent w < w := by
  rw [heapParent]
  omega

theorem heapParent_eq {w v : Nat} (h : 0 < w) : heapParent w = v ↔ w = 2 * v + 1 ∨ w = 2 * v + 2 := by
  rw [heapParent]
  omega

/-- `w` is `r` or above it. -/
def Above (w r : Nat) : Prop :=
  if r ≤ w then r = w else Above w (heapParent r)
termination_by r
decreasing_by exact heapParent_lt (by omega)

/-- The neighbour of `w` on the way to `r`. -/
def towards (r w : Nat) : Nat :=
  if r ≤ w then heapParent w
  else if heapParent r = w then r else towards (heapParent r) w
termination_by r
decreasing_by exact heapParent_lt (by omega)

/-- The number of steps between two ranks. -/
def heapDist (r w : Nat) : Nat :=
  if r = w then 0
  else if r < w then heapDist r (heapParent w) + 1
  else heapDist (heapParent r) w + 1
termination_by r + w
decreasing_by
  · have := heapParent_lt (show 0 < w by omega)
    omega
  · have := heapParent_lt (show 0 < r by omega)
    omega

theorem above_self (r : Nat) : Above r r := by
  rw [Above, if_pos (le_refl r)]

theorem above_of_le {w r : Nat} (h : r ≤ w) : Above w r ↔ r = w := by
  rw [Above, if_pos h]

theorem above_of_lt {w r : Nat} (h : w < r) : Above w r ↔ Above w (heapParent r) := by
  rw [Above, if_neg (by omega)]

theorem Above.le {w r : Nat} (h : Above w r) : w ≤ r := by
  by_contra hlt
  rw [above_of_le (by omega)] at h
  omega

theorem above_zero (r : Nat) : Above 0 r := by
  induction r using Nat.strong_induction_on with
  | _ r ih =>
      rcases Nat.eq_zero_or_pos r with rfl | hr
      · exact above_self 0
      · exact (above_of_lt hr).2 (ih _ (heapParent_lt hr))

/-- Above is closed under going up. -/
theorem Above.parent {w r : Nat} (h : Above w r) : Above (heapParent w) r := by
  induction r using Nat.strong_induction_on with
  | _ r ih =>
      rcases Nat.eq_zero_or_pos w with rfl | hw
      · exact h
      · rcases Nat.lt_or_ge w r with hlt | hge
        · rw [above_of_lt hlt] at h
          have hp := heapParent_lt hw
          rw [above_of_lt (by omega)]
          exact ih _ (heapParent_lt (by omega)) h
        · obtain rfl := (above_of_le hge).1 h
          rw [above_of_lt (heapParent_lt hw)]
          exact above_self _

/-- Of the children of a rank at most one is above `r`. -/
theorem above_unique {c c' r : Nat} (hc : Above c r) (hc' : Above c' r) (hpos : 0 < c) (hpos' : 0 < c')
    (hp : heapParent c = heapParent c') : c = c' := by
  induction r using Nat.strong_induction_on with
  | _ r ih =>
      have hlt := heapParent_lt hpos
      have hlt' := heapParent_lt hpos'
      rcases Nat.lt_or_ge c r with hcr | hcr
      · rcases Nat.lt_or_ge c' r with hcr' | hcr'
        · exact ih _ (heapParent_lt (by omega)) ((above_of_lt hcr).1 hc) ((above_of_lt hcr').1 hc')
        · -- `c' = r`, and the parent of `c'` is not below `c`
          obtain rfl := (above_of_le hcr').1 hc'
          have hle := ((above_of_lt hcr).1 hc).le
          omega
      · obtain rfl := (above_of_le hcr).1 hc
        rcases Nat.lt_or_ge c' r with hcr' | hcr'
        · have hle := ((above_of_lt hcr').1 hc').le
          omega
        · exact (above_of_le hcr').1 hc'

/-- A rank above `r` sends towards its child above `r`. -/
theorem towards_of_above {r w : Nat} (h : Above w r) (hne : w ≠ r) :
    Above (towards r w) r ∧ heapParent (towards r w) = w ∧ w < towards r w := by
  induction r using Nat.strong_induction_on with
  | _ r ih =>
      have hlt : w < r := lt_of_le_of_ne h.le hne
      rw [towards, if_neg (by omega)]
      by_cases hp : heapParent r = w
      · rw [if_pos hp]
        exact ⟨above_self r, hp, hlt⟩
      · rw [if_neg hp]
        have hpr := heapParent_lt (show 0 < r by omega)
        rcases ih _ hpr ((above_of_lt hlt).1 h) (Ne.symm hp) with ⟨ha, hpar, hgt⟩
        have hle := ha.le
        exact ⟨(above_of_lt (by omega)).2 ha, hpar, hgt⟩

/-- Any other rank sends to its parent. -/
theorem towards_of_not_above {r w : Nat} (h : ¬ Above w r) : 0 < w ∧ towards r w = heapParent w := by
  refine ⟨?_, ?_⟩
  · rcases Nat.eq_zero_or_pos w with rfl | hw
    · exact absurd (above_zero r) h
    · exact hw
  · induction r using Nat.strong_induction_on with
    | _ r ih =>
        rw [towards]
        rcases Nat.lt_or_ge w r with hlt | hge
        · rw [if_neg (by omega)]
          rw [above_of_lt hlt] at h
          have hp : heapParent r ≠ w := by
            rintro rfl
            exact h (above_self _)
          rw [if_neg hp]
          exact ih _ (heapParent_lt (by omega)) h
        · rw [if_pos hge]

theorem towards_le {r w : Nat} : towards r w ≤ max r w := by
  by_cases h : Above w r
  · by_cases hne : w = r
    · subst hne
      rw [towards, if_pos (le_refl w), heapParent]
      omega
    · have := (towards_of_above h hne).1.le
      omega
  · rcases towards_of_not_above h with ⟨hw, heq⟩
    have := heapParent_lt hw
    omega

/-- Every step towards `r` is a step closer. -/
theorem heapDist_towards {r w : Nat} (hne : w ≠ r) : heapDist r (towards r w) < heapDist r w := by
  induction r using Nat.strong_induction_on with
  | _ r ih =>
      rw [heapDist.eq_def r w, if_neg (Ne.symm hne)]
      rcases Nat.lt_or_ge w r with hlt | hge
      · have hpr := heapParent_lt (show 0 < r by omega)
        rw [if_neg (by omega), towards, if_neg (by omega)]
        by_cases hp : heapParent r = w
        · rw [if_pos hp, heapDist, if_pos rfl]
          omega
        · rw [if_neg hp]
          have hcloser := ih _ hpr (Ne.symm hp)
          have hle := @towards_le (heapParent r) w
          -- the step is taken below `r`, so the distance to `r` is one more than to its parent
          rw [heapDist.eq_def r, if_neg (by omega), if_neg (by omega)]
          omega
      · rw [if_pos (by omega), towards, if_pos hge]
        omega

/-! ## The broadcast is a flood along a tree -/

/-- The ranks of a group. -/
def ranksOf (sizeSp : Nat) : Finset Int :=
  (Finset.range sizeSp).image fun n : Nat => (n : Int)

theorem mem_ranksOf {sizeSp : Nat} {w : Int} : w ∈ ranksOf sizeSp ↔ 0 ≤ w ∧ w < sizeSp := by
  simp only [ranksOf, Finset.mem_image, Finset.mem_range]
  constructor
  · rintro ⟨n, hn, rfl⟩
    omega
  · rintro ⟨h0, hlt⟩
    exact ⟨w.toNat, by omega, by omega⟩

theorem card_ranksOf (sizeSp : Nat) : (ranksOf sizeSp).card = sizeSp := by
  rw [ranksOf, Finset.card_image_of_injective _ Nat.cast_injective, Finset.card_range]

theorem tdiv_parent (v : Nat) : ((v : Int) - 1).tdiv 2 = (heapParent v : Int) := by
  rw [heapParent]
  rcases Nat.eq_zero_or_pos v with rfl | hv
  · rfl
  · rw [Int.tdiv_eq_ediv_of_nonneg (by omega)]
    omega

section Targets

variable {sizeSp v : Nat} {src : Int}

theorem nodup_ibcastTargets (src : Int) : (ibcastTargets sizeSp v src).Nodup := by
  have hparent := tdiv_parent v
  have hle : heapParent v ≤ v := by
    rw [heapParent]
    omega
  rw [ibcastTargets]
  split
  · exact List.nodup_nil
  · split <;> split <;> split <;> simp <;> omega

/-- A rank above the server that was asked gets the message from its child on the way, or from the
client. -/
theorem mem_ibcastTargets_down {w : Int} (hv : v < sizeSp) (hsrc : src = -1 ∨ (v : Int) < src) :
    w ∈ ibcastTargets sizeSp v src ↔
      (0 < v ∧ w = heapParent v) ∨
        ((w = 2 * v + 1 ∨ w = 2 * v + 2) ∧ w ≠ src ∧ w < sizeSp) := by
  have hparent := tdiv_parent v
  have hle : heapParent v ≤ v := by
    rw [heapParent]
    omega
  simp only [ibcastTargets, hparent]
  by_cases hone : (sizeSp : Int) = 1
  · rw [if_pos (Or.inl hone)]
    simp only [List.not_mem_nil, false_iff]
    omega
  · rw [if_neg (by omega)]
    simp only [List.mem_append]
    constructor
    · rintro ((hw | hw) | hw)
      all_goals
        split at hw
        · simp only [List.mem_singleton] at hw
          omega
        · simp at hw
    · -- the parent, the left child, the right child
      rintro (⟨hpos, rfl⟩ | ⟨rfl | rfl, hne, hlt⟩)
      · rw [if_pos (by omega)]
        simp
      · rw [if_pos (show (v : Int) * 2 + 1 ≠ src ∧ (v : Int) * 2 + 1 < sizeSp by omega)]
        simp
        omega
      · rw [if_pos (show (v : Int) * 2 + 1 + 1 ≠ src ∧ (v : Int) * 2 + 1 + 1 < sizeSp by omega)]
        simp
        omega

/-- Any other rank gets it from its parent. -/
theorem mem_ibcastTargets_up {w : Int} (hpos : 0 < v) :
    w ∈ ibcastTargets sizeSp v (heapParent v) ↔
      (w = 2 * v + 1 ∨ w = 2 * v + 2) ∧ w < sizeSp := by
  have hparent := tdiv_parent v
  have hlt := heapParent_lt hpos
  simp only [ibcastTargets, hparent]
  -- the code leaves at once for a leaf that heard of it from its parent
  by_cases hleaf : (v : Int) * 2 + 1 ≥ sizeSp
  · rw [if_pos (Or.inr ⟨trivial, hleaf⟩)]
    simp only [List.not_mem_nil, false_iff]
    omega
  · rw [if_neg (by omega), if_neg (by omega)]
    simp only [List.nil_append, List.mem_append]
    constructor
    · rintro (hw | hw)
      all_goals
        split at hw
        · simp only [List.mem_singleton] at hw
          omega
        · simp at hw
    · rintro ⟨rfl | rfl, hw⟩
      · rw [if_pos (show (v : Int) * 2 + 1 ≠ heapParent v ∧ (v : Int) * 2 + 1 < sizeSp by omega)]
        simp
        omega
      · rw [if_pos (show (v : Int) * 2 + 1 + 1 ≠ heapParent v ∧ (v : Int) * 2 + 1 + 1 < sizeSp by
          omega)]
        simp
        omega

end Targets

section Tree

variable {sizeSp r : Nat}

/-- The neighbour on the way to `r`, as the ranks in messages. -/
def towardsInt (r : Nat) (w : Int) : Int :=
  towards r w.toNat

/-- Who sends to whom: from `v` the message goes to the ranks whose way to `r` begins with `v`. -/
theorem mem_ibcastTargets_iff {v : Nat} (hv : v < sizeSp) (hr : r < sizeSp) {w : Nat} :
    (w : Int) ∈ ibcastTargets sizeSp v (Flood.source (r : Int) (-1) (towardsInt r) v) ↔
      w < sizeSp ∧ w ≠ r ∧ towards r w = v := by
  by_cases habove : Above v r
  · -- the source is the client or the child of `v` above `r`
    have hsrc : Flood.source (r : Int) (-1) (towardsInt r) v = -1 ∧ v = r ∨
        Flood.source (r : Int) (-1) (towardsInt r) v = towards r v ∧ v ≠ r := by
      by_cases hvr : v = r
      · exact Or.inl ⟨by rw [Flood.source, if_pos (by exact_mod_cast hvr)], hvr⟩
      · exact Or.inr ⟨by rw [Flood.source, if_neg (by exact_mod_cast hvr)]; rfl, hvr⟩
    have hgt : Flood.source (r : Int) (-1) (towardsInt r) v = -1 ∨
        (v : Int) < Flood.source (r : Int) (-1) (towardsInt r) v := by
      rcases hsrc with ⟨hs, -⟩ | ⟨hs, hvr⟩
      · exact Or.inl hs
      · have := (towards_of_above habove hvr).2.2
        exact Or.inr (by rw [hs]; exact_mod_cast this)
    rw [mem_ibcastTargets_down hv hgt]
    by_cases hw : Above w r
    · -- above `r` only the parent of `v` begins its way with `v`
      constructor
      · rintro (⟨hpos, hwp⟩ | ⟨hchild, hne, -⟩)
        · have hwp' : w = heapParent v := by exact_mod_cast hwp
          subst hwp'
          have hlt := heapParent_lt hpos
          have hle := habove.le
          rcases towards_of_above habove.parent (by omega) with ⟨hta, htp, htgt⟩
          exact ⟨by omega, by omega, above_unique hta habove (by omega) hpos htp⟩
        · -- a child of `v` above `r` is the source itself
          exfalso
          have hpar : heapParent w = v := by
            rw [heapParent]
            omega
          rcases hsrc with ⟨-, hvr⟩ | ⟨hs, hvr⟩
          · have := hw.le
            omega
          · rcases towards_of_above habove hvr with ⟨hta, htp, htgt⟩
            refine hne ?_
            rw [hs]
            exact_mod_cast above_unique hw hta (by omega) (by omega) (hpar.trans htp.symm)
      · rintro ⟨-, hwr, htow⟩
        rcases towards_of_above hw hwr with ⟨-, htp, htgt⟩
        rw [htow] at htp htgt
        exact Or.inl ⟨by omega, by rw [htp]⟩
    · rcases towards_of_not_above hw with ⟨hwpos, hwtow⟩
      rw [hwtow, heapParent_eq hwpos]
      constructor
      · rintro (⟨hpos, hwp⟩ | ⟨hchild, -, hlt⟩)
        · have hwp' : w = heapParent v := by exact_mod_cast hwp
          exact absurd (hwp' ▸ habove.parent) hw
        · refine ⟨by omega, fun hwr => hw (hwr ▸ above_self r), by omega⟩
      · rintro ⟨hlt, -, hchild⟩
        refine Or.inr ⟨by omega, fun hs => ?_, by omega⟩
        rcases hsrc with ⟨hs', -⟩ | ⟨hs', hvr⟩
        · omega
        · have hws : w = towards r v := by
            rw [hs'] at hs
            exact_mod_cast hs
          exact hw (hws ▸ (towards_of_above habove hvr).1)
  · rcases towards_of_not_above habove with ⟨hpos, htow⟩
    have hvr : v ≠ r := fun hvr => habove (hvr ▸ above_self r)
    have hsrc : Flood.source (r : Int) (-1) (towardsInt r) v = heapParent v := by
      rw [Flood.source, if_neg (by exact_mod_cast hvr), towardsInt, Int.toNat_natCast, htow]
    rw [hsrc, mem_ibcastTargets_up hpos]
    -- what is below `v` is not above `r`
    constructor
    · rintro ⟨hchild, hlt⟩
      have hwpos : 0 < w := by omega
      have hpar : heapParent w = v := by
        rw [heapParent]
        omega
      have hw : ¬ Above w r := fun hw => habove (hpar ▸ hw.parent)
      exact ⟨by omega, fun hwr => hw (hwr ▸ above_self r), (towards_of_not_above hw).2.trans hpar⟩
    · rintro ⟨hlt, hwr, htw⟩
      have hw : ¬ Above w r := fun hw => habove (htw ▸ (towards_of_above hw hwr).1)
      rcases towards_of_not_above hw with ⟨hwpos, hwtow⟩
      rw [hwtow, heapParent_eq hwpos] at htw
      exact ⟨by omega, by omega⟩

/-- The forwarding rule follows a tree around the server that was asked. -/
theorem isTree_ibcast (hr : r < sizeSp) :
    Flood.IsTree (ibcastTargets sizeSp) (ranksOf sizeSp) (r : Int) (-1) (towardsInt r)
      fun w => heapDist r w.toNat where
  root_mem := mem_ranksOf.2 (by omega)
  up_mem := by
    intro v hv _
    rcases mem_ranksOf.1 hv with ⟨h0, hlt⟩
    have hle := @towards_le r v.toNat
    refine mem_ranksOf.2 ⟨by rw [towardsInt]; omega, ?_⟩
    rw [towardsInt]
    omega
  depth_up := by
    intro v hv hne
    rcases mem_ranksOf.1 hv with ⟨h0, -⟩
    rw [towardsInt, Int.toNat_natCast]
    exact heapDist_towards (by omega)
  nodup := by
    intro v hv
    rcases mem_ranksOf.1 hv with ⟨h0, -⟩
    have hcast : ((v.toNat : Nat) : Int) = v := by omega
    have hnodup := @nodup_ibcastTargets sizeSp v.toNat (Flood.source (r : Int) (-1) (towardsInt r) v)
    rwa [hcast] at hnodup
  mem_fwd := by
    intro v hv w
    rcases mem_ranksOf.1 hv with ⟨h0, hlt⟩
    have hcast : ((v.toNat : Nat) : Int) = v := by omega
    have hiff := fun w' : Nat => @mem_ibcastTargets_iff sizeSp r v.toNat (by omega) hr w'
    simp only [hcast] at hiff
    constructor
    · intro hw
      -- only ranks are sent to
      have hnonneg : 0 ≤ w := by
        have hparent := tdiv_parent v.toNat
        rw [hcast] at hparent
        simp only [ibcastTargets, hparent] at hw
        split at hw
        · simp at hw
        · simp only [List.mem_append] at hw
          rcases hw with (hw | hw) | hw
          all_goals
            split at hw
            · simp only [List.mem_singleton] at hw
              omega
            · simp at hw
      have hwcast : ((w.toNat : Nat) : Int) = w := by omega
      rw [← hwcast, hiff] at hw
      rcases hw with ⟨hwlt, hwr, htow⟩
      refine ⟨mem_ranksOf.2 (by omega), by omega, ?_⟩
      rw [towardsInt, htow, hcast]
    · rintro ⟨hw, hne, hup⟩
      rcases mem_ranksOf.1 hw with ⟨hw0, hwlt⟩
      have hwcast : ((w.toNat : Nat) : Int) = w := by omega
      rw [← hwcast, hiff]
      refine ⟨by omega, by omega, ?_⟩
      rw [towardsInt] at hup
      omega

/-- Distances in the heap are small. -/
theorem heapDist_le (r w : Nat) : heapDist r w ≤ r + w := by
  induction hn : r + w using Nat.strong_induction_on generalizing r w with
  | _ n ih =>
      rw [heapDist]
      split
      · omega
      · split
        · have hlt := heapParent_lt (show 0 < w by omega)
          have hle := ih (r + heapParent w) (by omega) r (heapParent w) rfl
          omega
        · have hlt := heapParent_lt (show 0 < r by omega)
          have hle := ih (heapParent r + w) (by omega) (heapParent r) w rfl
          omega

/-! ## Replies -/

/-- Names are combined without repetition. -/
theorem getVarsReply_spec (ls : Int → SsStorage) (v : Int) (outs : List (List CStr))
    (hs : List (List Int))
    (h : List.Forall₂ (fun out l => out.Nodup ∧
      ∀ name, name ∈ out ↔ ∃ rank ∈ l, name ∈ (ls rank).lsGetVarNames) outs hs) :
    (getVarsReply ls v outs).Nodup ∧
      ∀ name, name ∈ getVarsReply ls v outs ↔
        ∃ rank ∈ v :: hs.flatten, name ∈ (ls rank).lsGetVarNames := by
  have hflat : ∀ name, name ∈ outs.flatten ↔ ∃ rank ∈ hs.flatten, name ∈ (ls rank).lsGetVarNames := by
    induction h with
    | nil => simp
    | cons hout _ ih =>
        intro name
        rw [List.flatten_cons, List.mem_append, hout.2 name, ih name]
        simp only [List.flatten_cons, List.mem_append, or_and_right, exists_or]
  refine ⟨nodup_dsStrHashGetAll _, fun name => ?_⟩
  rw [getVarsReply, mem_dsStrHashGetAll_foldl, List.mem_append, hflat name]
  simp only [dsStrHashGetAll_init, List.not_mem_nil, false_or, List.mem_cons, or_and_right, exists_or, exists_eq_left]

/-- Descriptors are put one after the other. -/
theorem getVarObjsReply_perm (ls : Int → SsStorage) (varName : CStr) (v : Int)
    (outs : List (List ObjDesc)) (hs : List (List Int))
    (h : List.Forall₂ (fun out l =>
      out.Perm (l.flatMap fun rank => (ls rank).lsFindAllNoVersion varName)) outs hs) :
    (getVarObjsReply ls varName v outs).Perm
      ((v :: hs.flatten).flatMap fun rank => (ls rank).lsFindAllNoVersion varName) := by
  have hflat : outs.flatten.Perm
      (hs.flatten.flatMap fun rank => (ls rank).lsFindAllNoVersion varName) := by
    induction h with
    | nil => exact List.Perm.refl _
    | cons hout _ ih =>
        rw [List.flatten_cons, List.flatten_cons, List.flatMap_append]
        exact hout.append ih
  rw [getVarObjsReply, List.flatMap_cons]
  exact hflat.append_left _

/-- A broadcast from any server: in every order of deliveries each other server gets the message once
and the server that was asked never does, so that it stops after `sizeSp - 1` messages; and the replies
bring back the names and the descriptors of every server, each once. -/
theorem ibcast_exactly_once (hr : r < sizeSp) :
    (∀ ks n, Flood.deliverAll (ibcastTargets sizeSp) ks
        (Flood.start (ibcastTargets sizeSp) (r : Int) (-1)) = some n →
      ((n.done ++ n.pending).map Prod.snd).Nodup ∧
      (r : Int) ∉ (n.done ++ n.pending).map Prod.snd ∧
      ks.length ≤ sizeSp - 1 ∧ (n.pending = [] ↔ ks.length = sizeSp - 1) ∧
      (n.pending = [] → ∀ w, w ∈ n.done.map Prod.snd ↔ (0 ≤ w ∧ w < sizeSp) ∧ w ≠ r)) ∧
    ∀ (ls : Int → SsStorage) (fuel : Nat), 2 * sizeSp ≤ fuel →
      (∃ out, getVarsRpc sizeSp ls fuel r (-1) = some out ∧ out.Nodup ∧
        ∀ name, name ∈ out ↔ ∃ rank : Int, (0 ≤ rank ∧ rank < sizeSp) ∧
          name ∈ (ls rank).lsGetVarNames) ∧
      ∀ varName, ∃ out, getVarObjsRpc sizeSp ls varName fuel r (-1) = some out ∧
        out.Perm ((List.range sizeSp).flatMap fun rank : Nat =>
          (ls rank).lsFindAllNoVersion varName) := by
  have htree := isTree_ibcast hr
  refine ⟨fun ks n hks => ?_, fun ls fuel hfuel => ?_⟩
  · rcases htree.spreads_deliverAll ks _ n htree.spreads_start hks with ⟨hn, hlen⟩
    rw [show (Flood.start (ibcastTargets sizeSp) (r : Int) (-1)).done.length = 0 from rfl,
      Nat.zero_add] at hlen
    rcases htree.length_done hn with ⟨hle, heq⟩
    rw [card_ranksOf, hlen] at hle heq
    refine ⟨hn.once, fun hmem => ?_, by omega, ⟨heq, fun hall => ?_⟩, fun hempty w => ?_⟩
    · rcases List.mem_map.1 hmem with ⟨m, hm, hroot⟩
      exact (hn.sender m hm).2.1 hroot
    · exact List.length_eq_zero_iff.1 (by omega)
    · rw [htree.mem_done hn hempty, mem_ranksOf]
  · have hbound : ∀ v ∈ ranksOf sizeSp, heapDist r v.toNat ≤ 2 * sizeSp - 1 := by
      intro v hv
      rcases mem_ranksOf.1 hv with ⟨h0, hlt⟩
      have hle := heapDist_le r v.toNat
      omega
    rcases htree.handlers_root hbound (show 2 * sizeSp - 1 < fuel by omega) with
      ⟨l, hl, hnodup, hmem⟩
    refine ⟨?_, fun varName => ?_⟩
    · rcases Flood.IsTree.gather_of_handlers (getVarsReply_spec ls) fuel _ _ l hl with
        ⟨out, hout, hdup, hnames⟩
      refine ⟨out, hout, hdup, fun name => ?_⟩
      rw [hnames name]
      simp only [hmem, mem_ranksOf]
    · rcases Flood.IsTree.gather_of_handlers (getVarObjsReply_perm ls varName) fuel _ _ l hl with
        ⟨out, hout, hperm⟩
      refine ⟨out, hout, hperm.trans ?_⟩
      -- the servers that were asked are all servers, in another order
      have hranks : l.Perm ((List.range sizeSp).map fun n : Nat => (n : Int)) := by
        refine (List.perm_ext_iff_of_nodup hnodup ?_).2 fun w => ?_
        · exact List.nodup_range.map Nat.cast_injective
        · rw [hmem, ranksOf]
          simp
      have hflat := hranks.flatMap_right fun rank => (ls rank).lsFindAllNoVersion varName
      rwa [List.flatMap_map] at hflat

/-- Server 1 of three servers is asked: its message to server 0 and then that to server 2 arrive. -/
theorem ibcast_exactly_once_three :
    ∃ n, Flood.deliverAll (ibcastTargets (3 : Nat)) [0, 0]
        (Flood.start (ibcastTargets (3 : Nat)) ((1 : Nat) : Int) (-1)) = some n ∧
      ((n.done ++ n.pending).map Prod.snd).Nodup ∧ n.pending = [] := by
  refine ⟨_, rfl, ?_⟩
  rcases (ibcast_exactly_once (show 1 < 3 by decide)).1 [0, 0] _ rfl with ⟨hnodup, -, -, hiff, -⟩
  exact ⟨hnodup, hiff.2 rfl⟩

end Tree

end DataSpaces
