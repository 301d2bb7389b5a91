import DataSpaces.Lib.Radix
import DataSpaces.Storage

/-!
# Copy — copying the common cells of two objects (`matrix_copy`, `ssd_copy`)

The data of an object is an array over its box with dimension 0 fastest.  `ssd_copy` copies the cells
that two boxes share with nested loops, one for each dimension above 0, and copies a row along
dimension 0 with one `memcpy`.  The source jumps into the nest at the loop of the highest dimension;
here the nest is one recursive function on the level.

A loop over `a_k <= ub` with `ub` the largest 64-bit value does not end; the copy is `none` then.
-/

namespace DataSpaces

/-- `struct matrix_view`. -/
structure MatrixView where
  lb : Coord
  ub : Coord

/-- `struct matrix`. -/
structure Matrix where
  dist : Coord
  numDims : Nat
  sizeElem : UInt64
  matStorage : StorageType
  matView : MatrixView
  pdata : Buf

def matrixInit (st : StorageType) (bbGlb bbLoc : BBox) (pdata : Buf) (se : UInt64) : Matrix where
  dist := Coord.ofFn fun i => if i < bbGlb.numDims then bboxDist bbGlb i else 0
  numDims := bbGlb.numDims
  sizeElem := se
  matStorage := st
  matView :=
    { lb := Coord.ofFn fun i => if i < bbGlb.numDims then bbLoc.lb.c i - bbGlb.lb.c i else 0
      ub := Coord.ofFn fun i => if i < bbGlb.numDims then bbLoc.ub.c i - bbGlb.lb.c i else 0 }
  pdata := pdata

/-- `memcpy` of `n` bytes from `src` at `srcOff` to `dst` at `dstOff`. -/
def memcpy (dst src : Buf) (dstOff srcOff n : Nat) : Buf := fun p =>
  if dstOff ≤ p ∧ p < dstOff + n then src (srcOff + (p - dstOff)) else dst p

/-- What the copy changes: the target memory and `num_copied_elem`. -/
structure CopyState where
  buf : Buf
  copied : UInt64

/-- A loop with `n` turns that counts `a_k` and `b_k` up together. -/
def copyLoop (body : UInt64 → UInt64 → CopyState → Option CopyState) :
    Nat → UInt64 → UInt64 → CopyState → Option CopyState
  | 0, _, _, s => some s
  | n + 1, ak, bk, s => (body ak bk s).bind (copyLoop body n (ak + 1) (bk + 1))

section Copy

variable (a b : Matrix)

/-- The number of turns of the loop over dimension `i`. -/
def Matrix.turns (i : Nat) : Nat :=
  (a.matView.ub.c i).toNat + 1 - (a.matView.lb.c i).toNat

/-- The loops from dimension `k` down, when the loops above are at `aloc` and `bloc`. -/
def copyLevel : Nat → UInt64 → UInt64 → CopyState → Option CopyState
  | 0, aloc1, bloc1, s =>
      let numelem := (a.matView.ub.c 0 - a.matView.lb.c 0) + 1
      let aloc := aloc1 + a.matView.lb.c 0
      let bloc := bloc1 + b.matView.lb.c 0
      some
        { buf := memcpy s.buf b.pdata (aloc * a.sizeElem).toNat (bloc * a.sizeElem).toNat
            (a.sizeElem * numelem).toNat
          copied := s.copied + numelem }
  | k + 1, aloc, bloc, s =>
      if a.matView.ub.c (k + 1) = 0xffffffffffffffff then none
      else
        copyLoop (fun ak bk =>
            copyLevel k ((aloc + ak) * a.dist.c k)
              -- the outermost loop moves in the source by the index of the target
              ((bloc + if k + 1 = 9 then ak else bk) * b.dist.c k))
          (a.turns (k + 1)) (a.matView.lb.c (k + 1)) (b.matView.lb.c (k + 1)) s

/-- `matrix_copy`; a number of dimensions that no case names starts at the outermost loop. -/
def matrixCopy : Option CopyState :=
  copyLevel a b (if 1 ≤ a.numDims ∧ a.numDims ≤ 10 then a.numDims - 1 else 9) 0 0 ⟨a.pdata, 0⟩

end Copy

/-- The matrix of an object with a view of a part of it. -/
def ObjData.mat (od : ObjData) (bbcom : BBox) : Matrix :=
  matrixInit od.objDesc.st od.objDesc.bb bbcom od.data od.objDesc.size

/-- `ssd_copy`: the target object afterwards, and the number of elements it returns. -/
def ssdCopy (toObj fromObj : ObjData) : Option (ObjData × Int32) :=
  let bbcom := bboxIntersect toObj.objDesc.bb fromObj.objDesc.bb
  (matrixCopy (toObj.mat bbcom) (fromObj.mat bbcom)).map fun s =>
    ({ toObj with
        objDesc :=
          { toObj.objDesc with tag := fromObj.objDesc.tag, type := fromObj.objDesc.type }
        data := s.buf },
      s.copied.toUInt32.toInt32)

/-! ## The loops -/

section Loops

variable {a b : Matrix} {s s' s'' : CopyState}

/-- What every turn keeps, the loop keeps. -/
theorem copyLoop_rule (body : UInt64 → UInt64 → CopyState → Option CopyState)
    (inv : Nat → CopyState → Prop) (n : Nat) :
    ∀ (done : Nat) (ak bk : UInt64) (s : CopyState), inv done s →
      (∀ j < n, ∀ s, inv (done + j) s →
        ∃ s', body (ak + UInt64.ofNat j) (bk + UInt64.ofNat j) s = some s' ∧ inv (done + j + 1) s') →
      ∃ s', copyLoop body n ak bk s = some s' ∧ inv (done + n) s' := by
  induction n with
  | zero =>
      intro done ak bk s h _
      exact ⟨s, rfl, h⟩
  | succ n ih =>
      intro done ak bk s h hturn
      rcases hturn 0 (Nat.succ_pos n) s h with ⟨s₁, hbody, h₁⟩
      -- the counters of the next turn, counted from this one
      have hak : ∀ (x : UInt64) (j : Nat), x + 1 + UInt64.ofNat j = x + UInt64.ofNat (j + 1) := by
        intro x j
        rw [UInt64.ofNat_add, UInt64.add_assoc, UInt64.add_comm 1]
        rfl
      rcases ih (done + 1) (ak + 1) (bk + 1) s₁ h₁ fun j hj s hs => by
        rw [hak, hak, show done + 1 + j = done + (j + 1) by omega] at *
        exact hturn (j + 1) (by omega) s hs with ⟨s₂, hloop, h₂⟩
      refine ⟨s₂, ?_, by rwa [show done + (n + 1) = done + 1 + n by omega]⟩
      have hzero : ∀ x : UInt64, x + UInt64.ofNat 0 = x := UInt64.add_zero
      rw [hzero, hzero] at hbody
      rw [copyLoop, hbody]
      exact hloop

end Loops

/-! ## What the loops write -/

/-- The sides of the array. -/
def Matrix.side (m : Matrix) (i : Nat) : ℕ :=
  (m.dist.c i).toNat

/-- Where the view starts. -/
def Matrix.start (m : Matrix) (i : Nat) : ℕ :=
  (m.matView.lb.c i).toNat

/-- The element that the loops from dimension `k` down come to after `y i` turns of the loop over
dimension `i`, when the loops above are at `loc`. -/
def Matrix.elem (m : Matrix) (y : ℕ → ℕ) (k loc : ℕ) : ℕ :=
  Radix.horner m.side (fun i => m.start i + y i) k loc

/-- The elements of `n i` turns of every loop from dimension `k` down are written with the bytes that
`src` names for the turns, and no other byte is. -/
structure WroteFrom (a : Matrix) (sz : ℕ) (n : ℕ → ℕ) (k aloc : ℕ) (src : (ℕ → ℕ) → ℕ → UInt8)
    (s s' : CopyState) : Prop where
  inside : ∀ y : ℕ → ℕ, (∀ i ≤ k, y i < n i) → ∀ c < sz,
    s'.buf (a.elem y k aloc * sz + c) = src y c
  outside : ∀ p, (∀ y : ℕ → ℕ, (∀ i ≤ k, y i < n i) → ∀ c < sz, p ≠ a.elem y k aloc * sz + c) →
    s'.buf p = s.buf p
  copied : s'.copied = s.copied + UInt64.ofNat (∏ i ∈ Finset.range (k + 1), n i)

/-- The address of the row that the loops read after `y i` turns of the loop over dimension `i`, as it
is computed.  The loop over dimension 9 moves in the source by the index of the target. -/
def srcRow (a b : Matrix) (y : ℕ → ℕ) : Nat → UInt64 → UInt64
  | 0, bloc => (bloc + b.matView.lb.c 0) * a.sizeElem
  | k + 1, bloc =>
      srcRow a b y k ((bloc + ((if k + 1 = 9 then a.matView.lb.c (k + 1) else b.matView.lb.c (k + 1)) +
        UInt64.ofNat (y (k + 1)))) * b.dist.c k)

theorem srcRow_congr (a b : Matrix) {y y' : ℕ → ℕ} (k : ℕ) :
    ∀ bloc, (∀ i ≤ k, y i = y' i) → srcRow a b y k bloc = srcRow a b y' k bloc := by
  induction k with
  | zero =>
      intro bloc _
      rfl
  | succ k ih =>
      intro bloc h
      rw [srcRow, srcRow, h (k + 1) le_rfl]
      exact ih _ fun i hi => h i (Nat.le_succ_of_le hi)

/-- The elements of `n i` turns of every loop from dimension `k` down are written, with the elements of
the source in the same turns, and no other byte is. -/
structure Wrote (a b : Matrix) (sz : ℕ) (n : ℕ → ℕ) (k aloc bloc : ℕ) (s s' : CopyState) : Prop where
  inside : ∀ y : ℕ → ℕ, (∀ i ≤ k, y i < n i) → ∀ c < sz,
    s'.buf (a.elem y k aloc * sz + c) = b.pdata (b.elem y k bloc * sz + c)
  outside : ∀ p, (∀ y : ℕ → ℕ, (∀ i ≤ k, y i < n i) → ∀ c < sz, p ≠ a.elem y k aloc * sz + c) →
    s'.buf p = s.buf p
  copied : s'.copied = s.copied + UInt64.ofNat (∏ i ∈ Finset.range (k + 1), n i)

theorem WroteFrom.wrote {a b : Matrix} {sz k aloc bloc : ℕ} {n : ℕ → ℕ}
    {src : (ℕ → ℕ) → ℕ → UInt8} {s s' : CopyState} (h : WroteFrom a sz n k aloc src s s')
    (hsrc : ∀ y : ℕ → ℕ, (∀ i ≤ k, y i < n i) → ∀ c < sz,
      src y c = b.pdata (b.elem y k bloc * sz + c)) : Wrote a b sz n k aloc bloc s s' where
  inside y hy c hc := (h.inside y hy c hc).trans (hsrc y hy c hc)
  outside := h.outside
  copied := h.copied

/-- The view of the target is a box inside the target, and as large it is inside the source. -/
structure ViewFits (a b : Matrix) (k : ℕ) : Prop where
  le : ∀ i ≤ k, a.matView.lb.c i ≤ a.matView.ub.c i
  target : ∀ i ≤ k, a.start i + a.turns i ≤ a.side i
  source : ∀ i ≤ k, b.start i + a.turns i ≤ b.side i

theorem ViewFits.below {a b : Matrix} {k : ℕ} (h : ViewFits a b (k + 1)) : ViewFits a b k where
  le i hi := h.le i (Nat.le_succ_of_le hi)
  target i hi := h.target i (Nat.le_succ_of_le hi)
  source i hi := h.source i (Nat.le_succ_of_le hi)

/-- A byte belongs to one element. -/
theorem elem_eq_of_byte_eq {e e' sz c c' : ℕ} (hc : c < sz) (hc' : c' < sz)
    (h : e * sz + c = e' * sz + c') : e = e' := by
  have hdiv := congrArg (· / sz) h
  simpa [Nat.mul_comm _ sz, Nat.mul_add_div (Nat.zero_lt_of_lt hc), Nat.div_eq_of_lt hc,
    Nat.div_eq_of_lt hc'] using hdiv

/-- One `memcpy` writes a row of elements. -/
theorem memcpy_row (dst src : Buf) (a0 b0 n sz : ℕ) :
    (∀ y < n, ∀ c < sz, memcpy dst src (a0 * sz) b0 (sz * n) ((a0 + y) * sz + c) =
      src (b0 + y * sz + c)) ∧
    ∀ p, (∀ y < n, ∀ c < sz, p ≠ (a0 + y) * sz + c) →
      memcpy dst src (a0 * sz) b0 (sz * n) p = dst p := by
  constructor
  · intro y hy c hc
    have hrow : y * sz + c < sz * n := by
      calc y * sz + c < y * sz + sz := Nat.add_lt_add_left hc _
        _ = sz * (y + 1) := by ring
        _ ≤ sz * n := Nat.mul_le_mul_left _ hy
    have hin : a0 * sz ≤ (a0 + y) * sz + c ∧ (a0 + y) * sz + c < a0 * sz + sz * n := by
      rw [Nat.add_mul]
      omega
    rw [memcpy, if_pos hin]
    congr 1
    rw [Nat.add_mul]
    omega
  · intro p hp
    rw [memcpy, if_neg]
    rintro ⟨hle, hlt⟩
    -- the byte would belong to an element of the row
    have hsz : 0 < sz := by
      by_contra hzero
      simp only [Nat.le_zero.1 (Nat.le_of_not_lt hzero), Nat.zero_mul, Nat.mul_zero] at hle hlt
      omega
    refine hp ((p - a0 * sz) / sz) ?_ ((p - a0 * sz) % sz) (Nat.mod_lt _ hsz) ?_
    · rw [Nat.div_lt_iff_lt_mul hsz, Nat.mul_comm n]
      omega
    · have hdiv := Nat.div_add_mod (p - a0 * sz) sz
      rw [Nat.add_mul, Nat.mul_comm ((p - a0 * sz) / sz)]
      omega

section Levels

variable {a b : Matrix} {sz aloc bloc : ℕ} {n : ℕ → ℕ} {k : ℕ} {s₀ s s' : CopyState}
  {src : (ℕ → ℕ) → ℕ → UInt8}

/-- Before the first turn of the loop over dimension `k + 1`. -/
theorem WroteFrom.start : WroteFrom a sz (Function.update n (k + 1) 0) (k + 1) aloc src s s where
  inside y hy := by
    have := hy (k + 1) le_rfl
    simp at this
  outside _ _ := rfl
  copied := by
    simp [Finset.prod_range_succ _ (k + 1)]

/-- Elements in different turns of the loop over dimension `k + 1` are different. -/
theorem elem_ne_of_turn {y y' : ℕ → ℕ} (hy : ∀ i ≤ k, a.start i + y i < a.side i)
    (hy' : ∀ i ≤ k, a.start i + y' i < a.side i) (hne : y (k + 1) ≠ y' (k + 1)) :
    a.elem y (k + 1) aloc ≠ a.elem y' (k + 1) aloc := by
  intro heq
  have hblock := congrArg (· / Radix.weight a.side (k + 1)) heq
  simp only [Matrix.elem, Radix.horner] at hblock
  rw [Radix.horner_div hy, Radix.horner_div hy'] at hblock
  omega

/-- The elements of one turn, with the number of that turn put in. -/
theorem elem_update (m : Matrix) (y : ℕ → ℕ) (j loc : ℕ) :
    m.elem (Function.update y (k + 1) j) (k + 1) loc =
      m.elem y k ((loc + (m.start (k + 1) + j)) * m.side k) := by
  have hsame : ∀ i ≤ k, m.start i + Function.update y (k + 1) j i = m.start i + y i := by
    intro i hi
    rw [Function.update_of_ne (by omega)]
  rw [Matrix.elem, Radix.horner, Function.update_self, Radix.horner_congr k hsame]
  rfl

/-- One more turn of the loop over dimension `k + 1`. -/
theorem WroteFrom.turn {j : ℕ} (hfits : ∀ i ≤ k, a.start i + n i ≤ a.side i)
    (h : WroteFrom a sz (Function.update n (k + 1) j) (k + 1) aloc src s₀ s)
    (hturn : WroteFrom a sz n k ((aloc + (a.start (k + 1) + j)) * a.side k)
      (fun y => src (Function.update y (k + 1) j)) s s') :
    WroteFrom a sz (Function.update n (k + 1) (j + 1)) (k + 1) aloc src s₀ s' := by
  have hlow : ∀ {y : ℕ → ℕ} {m : ℕ}, (∀ i ≤ k + 1, y i < Function.update n (k + 1) m i) →
      ∀ i ≤ k, y i < n i := by
    intro y m hy i hi
    have := hy i (by omega)
    rwa [Function.update_of_ne (by omega)] at this
  have htop : ∀ {y : ℕ → ℕ} {m : ℕ}, (∀ i ≤ k + 1, y i < Function.update n (k + 1) m i) →
      y (k + 1) < m := by
    intro y m hy
    simpa using hy (k + 1) le_rfl
  have hside : ∀ {y : ℕ → ℕ}, (∀ i ≤ k, y i < n i) → ∀ i ≤ k, a.start i + y i < a.side i :=
    fun hy i hi => lt_of_lt_of_le (Nat.add_lt_add_left (hy i hi) _) (hfits i hi)
  refine ⟨fun y hy c hc => ?_, fun p hp => ?_, ?_⟩
  · rcases Nat.lt_succ_iff_lt_or_eq.1 (htop hy) with hold | hnow
    · -- written in an earlier turn and not touched by this one
      have hkeep : s'.buf (a.elem y (k + 1) aloc * sz + c) =
          s.buf (a.elem y (k + 1) aloc * sz + c) := by
        refine hturn.outside _ fun y' hy' c' hc' heq => ?_
        have helem : a.elem y (k + 1) aloc = a.elem (Function.update y' (k + 1) j) (k + 1) aloc := by
          rw [elem_update]
          exact elem_eq_of_byte_eq hc hc' heq
        refine elem_ne_of_turn (hside (hlow hy)) (fun i hi => ?_) ?_ helem
        · rw [Function.update_of_ne (by omega)]
          exact hside hy' i hi
        · rw [Function.update_self]
          omega
      rw [hkeep]
      refine h.inside y (fun i hi => ?_) c hc
      by_cases hik : i = k + 1
      · subst hik
        simpa using hold
      · rw [Function.update_of_ne hik]
        exact hlow hy i (by omega)
    · have hy' : y = Function.update y (k + 1) j := by
        rw [← hnow, Function.update_eq_self]
      rw [hy', elem_update]
      exact hturn.inside y (hlow hy) c hc
  · have hthis : s'.buf p = s.buf p := by
      refine hturn.outside p fun y hy c hc => ?_
      rw [← elem_update]
      refine hp _ (fun i hi => ?_) c hc
      by_cases hik : i = k + 1
      · subst hik
        simp
      · rw [Function.update_of_ne hik, Function.update_of_ne hik]
        exact hy i (by omega)
    rw [hthis]
    refine h.outside p fun y hy c hc => hp y (fun i hi => ?_) c hc
    by_cases hik : i = k + 1
    · subst hik
      have := htop hy
      rw [Function.update_self]
      omega
    · rw [Function.update_of_ne hik]
      exact hlow hy i (by omega)
  · have hprod : ∀ m, ∏ i ∈ Finset.range (k + 1 + 1), Function.update n (k + 1) m i =
        (∏ i ∈ Finset.range (k + 1), n i) * m := by
      intro m
      rw [Finset.prod_range_succ, Function.update_self]
      congr 1
      refine Finset.prod_congr rfl fun i hi => ?_
      rw [Function.update_of_ne (Nat.ne_of_lt (Finset.mem_range.1 hi))]
    rw [hturn.copied, h.copied, hprod, hprod, Nat.mul_succ, UInt64.ofNat_add, UInt64.add_assoc]

/-- When the elements below a bound can be addressed, nothing wraps on the way down. -/
theorem toNat_descend {loc ak dist : UInt64} {w bound : ℕ} (hw : 0 < w) (hdist : 0 < dist.toNat)
    (hbound : bound < 2 ^ 64)
    (hroom : ((loc.toNat + ak.toNat) * dist.toNat + dist.toNat) * w ≤ bound) :
    ((loc + ak) * dist).toNat = (loc.toNat + ak.toNat) * dist.toNat := by
  have hprod : (loc.toNat + ak.toNat) * dist.toNat ≤ bound :=
    calc (loc.toNat + ak.toNat) * dist.toNat
        ≤ (loc.toNat + ak.toNat) * dist.toNat + dist.toNat := Nat.le_add_right _ _
      _ ≤ ((loc.toNat + ak.toNat) * dist.toNat + dist.toNat) * w := Nat.le_mul_of_pos_right _ hw
      _ ≤ bound := hroom
  have hsum : loc.toNat + ak.toNat ≤ (loc.toNat + ak.toNat) * dist.toNat :=
    Nat.le_mul_of_pos_right _ hdist
  rw [UInt64.toNat_mul, UInt64.toNat_add, Nat.mod_eq_of_lt (a := loc.toNat + ak.toNat) (by omega),
    Nat.mod_eq_of_lt (by omega)]

/-- The row that the innermost level writes. -/
theorem copyLevel_zero_rows (hle : a.matView.lb.c 0 ≤ a.matView.ub.c 0)
    (htarget : a.start 0 + a.turns 0 ≤ a.side 0) {aloc : UInt64} {boundA : ℕ}
    (hA : boundA * a.sizeElem.toNat < 2 ^ 64) (hsz : 0 < a.sizeElem.toNat)
    (hroomA : aloc.toNat + a.side 0 ≤ boundA) (bloc : UInt64) (s : CopyState) :
    ∃ s', copyLevel a b 0 aloc bloc s = some s' ∧
      WroteFrom a a.sizeElem.toNat a.turns 0 aloc.toNat
        (fun y c => b.pdata ((srcRow a b y 0 bloc).toNat + y 0 * a.sizeElem.toNat + c)) s s' := by
  have hle' := UInt64.le_iff_toNat_le.1 hle
  have hboundA : boundA ≤ boundA * a.sizeElem.toNat := Nat.le_mul_of_pos_right _ hsz
  simp only [Matrix.start, Matrix.turns] at htarget
  have hnum : (a.matView.ub.c 0 - a.matView.lb.c 0 + 1).toNat = a.turns 0 := by
    have hlt := (a.matView.ub.c 0).toNat_lt
    rw [UInt64.toNat_add, UInt64.toNat_sub_of_le _ _ hle, UInt64.toNat_one,
      Matrix.turns, Nat.mod_eq_of_lt (by omega)]
    omega
  -- nothing below the bound wraps
  have haddr : ((aloc + a.matView.lb.c 0) * a.sizeElem).toNat =
      (aloc.toNat + a.start 0) * a.sizeElem.toNat := by
    have hmul : (aloc.toNat + a.start 0) * a.sizeElem.toNat ≤ boundA * a.sizeElem.toNat :=
      Nat.mul_le_mul_right _ (by rw [Matrix.start]; omega)
    rw [Matrix.start] at hmul ⊢
    rw [UInt64.toNat_mul, UInt64.toNat_add,
      Nat.mod_eq_of_lt (a := aloc.toNat + (a.matView.lb.c 0).toNat) (by omega),
      Nat.mod_eq_of_lt (by omega)]
  have hlen : (a.sizeElem * (a.matView.ub.c 0 - a.matView.lb.c 0 + 1)).toNat =
      a.sizeElem.toNat * a.turns 0 := by
    have hmul : a.turns 0 * a.sizeElem.toNat ≤ boundA * a.sizeElem.toNat :=
      Nat.mul_le_mul_right _ (by rw [Matrix.turns]; omega)
    rw [UInt64.toNat_mul, hnum, Nat.mod_eq_of_lt (by rw [Nat.mul_comm]; omega)]
  have hrow := memcpy_row s.buf b.pdata (aloc.toNat + a.start 0)
    ((bloc + b.matView.lb.c 0) * a.sizeElem).toNat (a.turns 0) a.sizeElem.toNat
  -- one `memcpy` writes the row
  refine ⟨_, rfl, ?_⟩
  rw [haddr, hlen]
  have helem : ∀ (y : ℕ → ℕ) (loc : ℕ), a.elem y 0 loc = loc + a.start 0 + y 0 :=
    fun y loc => (Nat.add_assoc _ _ _).symm
  refine ⟨fun y hy c hc => ?_, fun p hp => ?_, ?_⟩
  · rw [helem]
    exact hrow.1 (y 0) (hy 0 le_rfl) c hc
  · refine hrow.2 p fun y hy c hc => ?_
    have := hp (fun _ => y) (fun i hi => by rw [Nat.le_zero.1 hi]; exact hy) c hc
    rwa [helem] at this
  · have hofNat : UInt64.ofNat (a.turns 0) = a.matView.ub.c 0 - a.matView.lb.c 0 + 1 := by
      rw [← hnum, UInt64.ofNat_toNat]
    rw [zero_add, Finset.prod_range_one, hofNat]

/-- The loops from dimension `k` down write the view of the target, as long as the target can be
addressed.  Where the bytes come from is what the source indices compute, wrapped or not. -/
theorem copyLevel_rows (hsz : 0 < a.sizeElem.toNat) {boundA : ℕ}
    (hA : boundA * a.sizeElem.toNat < 2 ^ 64) (k : ℕ) :
    (∀ i ≤ k, a.matView.lb.c i ≤ a.matView.ub.c i) → (∀ i ≤ k, a.start i + a.turns i ≤ a.side i) →
      ∀ (aloc bloc : UInt64) (s : CopyState),
      (aloc.toNat + a.side k) * Radix.weight a.side k ≤ boundA →
      ∃ s', copyLevel a b k aloc bloc s = some s' ∧
        WroteFrom a a.sizeElem.toNat a.turns k aloc.toNat
          (fun y c => b.pdata ((srcRow a b y k bloc).toNat + y 0 * a.sizeElem.toNat + c)) s s' := by
  have hboundA : boundA < 2 ^ 64 := lt_of_le_of_lt (Nat.le_mul_of_pos_right _ hsz) hA
  induction k with
  | zero =>
      intro hle htarget aloc bloc s hroomA
      rw [Radix.weight_zero, Nat.mul_one] at hroomA
      exact copyLevel_zero_rows (hle 0 le_rfl) (htarget 0 le_rfl) hA hsz hroomA bloc s
  | succ k ih =>
      intro hle htarget aloc bloc s hroomA
      have hturns : ∀ i ≤ k + 1, 0 < a.turns i := by
        intro i hi
        have := UInt64.le_iff_toNat_le.1 (hle i hi)
        rw [Matrix.turns]
        omega
      have hposA : ∀ i ≤ k + 1, 0 < a.side i := fun i hi => by
        have := htarget i hi
        have := hturns i hi
        omega
      have hweightA : 0 < Radix.weight a.side k := Radix.weight_pos fun i hi => hposA i (by omega)
      have hfit := htarget (k + 1) le_rfl
      have hub : a.matView.ub.c (k + 1) ≠ 0xffffffffffffffff := by
        intro hmax
        have hlt := (a.dist.c (k + 1)).toNat_lt
        simp only [Matrix.turns, Matrix.start, Matrix.side, hmax] at hfit
        have htop : (0xffffffffffffffff : UInt64).toNat = 2 ^ 64 - 1 := rfl
        omega
      rw [copyLevel, if_neg hub]
      -- the counter of a turn
      have hcounter : ∀ {j : ℕ}, j < a.turns (k + 1) →
          (a.matView.lb.c (k + 1) + UInt64.ofNat j).toNat = a.start (k + 1) + j := by
        intro j hj
        have hlt : a.side (k + 1) < 2 ^ 64 := (a.dist.c (k + 1)).toNat_lt
        rw [UInt64.toNat_add, UInt64.toNat_ofNat', Nat.mod_eq_of_lt (a := j) (by omega), Nat.mod_eq_of_lt]
        · rfl
        · simp only [Matrix.start] at hfit
          omega
      have hloop := copyLoop_rule
        (fun ak bk => copyLevel a b k ((aloc + ak) * a.dist.c k)
          ((bloc + if k + 1 = 9 then ak else bk) * b.dist.c k))
        (fun j s' => WroteFrom a a.sizeElem.toNat (Function.update a.turns (k + 1) j) (k + 1)
          aloc.toNat
          (fun y c => b.pdata ((srcRow a b y (k + 1) bloc).toNat + y 0 * a.sizeElem.toNat + c)) s s')
        (a.turns (k + 1)) 0 (a.matView.lb.c (k + 1)) (b.matView.lb.c (k + 1)) s WroteFrom.start ?_
      · rcases hloop with ⟨s', hrun, hwrote⟩
        refine ⟨s', hrun, ?_⟩
        simpa using hwrote
      · intro j hj s₁ hinv
        rw [Nat.zero_add] at hinv ⊢
        have hjA := hcounter hj
        have hroomA' := Radix.room_step (x := a.start (k + 1) + j) (by omega) hroomA
        have hlocA : ((aloc + (a.matView.lb.c (k + 1) + UInt64.ofNat j)) * a.dist.c k).toNat =
            (aloc.toNat + (a.start (k + 1) + j)) * a.side k := by
          rw [← hjA] at hroomA' ⊢
          exact toNat_descend hweightA (hposA k (by omega)) hboundA hroomA'
        rcases ih (fun i hi => hle i (by omega)) (fun i hi => htarget i (by omega)) _
          ((bloc + if k + 1 = 9 then a.matView.lb.c (k + 1) + UInt64.ofNat j
            else b.matView.lb.c (k + 1) + UInt64.ofNat j) * b.dist.c k) s₁
          (by rw [hlocA]; exact hroomA') with ⟨s₂, hrun, hwrote⟩
        rw [hlocA] at hwrote
        refine ⟨s₂, hrun, hinv.turn (fun i hi => htarget i (by omega)) ?_⟩
        -- the rows read in turn `j` are those with `j` put in
        have hsrc : (fun (y : ℕ → ℕ) (c : ℕ) =>
              b.pdata ((srcRow a b (Function.update y (k + 1) j) (k + 1) bloc).toNat +
                Function.update y (k + 1) j 0 * a.sizeElem.toNat + c)) =
            fun y c => b.pdata ((srcRow a b y k ((bloc + if k + 1 = 9 then
                a.matView.lb.c (k + 1) + UInt64.ofNat j
              else b.matView.lb.c (k + 1) + UInt64.ofNat j) * b.dist.c k)).toNat +
                y 0 * a.sizeElem.toNat + c) := by
          funext y c
          rw [srcRow, Function.update_self, Function.update_of_ne (by omega), ← ite_add,
            srcRow_congr a b k _ fun i hi => Function.update_of_ne (by omega) j y]
        rw [hsrc]
        exact hwrote

/-- As long as the source can be addressed and no loop mixes up the indices, the rows are read from
where they are in the source. -/
theorem toNat_srcRow (hsz : 0 < a.sizeElem.toNat) {boundB : ℕ}
    (hB : boundB * a.sizeElem.toNat < 2 ^ 64) {y : ℕ → ℕ} (k : ℕ) :
    (9 ≤ k → k = 9 ∧ a.matView.lb.c 9 = b.matView.lb.c 9) →
      (∀ i ≤ k, b.start i + y i < b.side i) → ∀ bloc : UInt64,
      (bloc.toNat + b.side k) * Radix.weight b.side k ≤ boundB →
      (srcRow a b y k bloc).toNat + y 0 * a.sizeElem.toNat =
        b.elem y k bloc.toNat * a.sizeElem.toNat := by
  have hboundB : boundB < 2 ^ 64 := lt_of_le_of_lt (Nat.le_mul_of_pos_right _ hsz) hB
  induction k with
  | zero =>
      intro _ hfits bloc hroomB
      have hfit := hfits 0 le_rfl
      rw [Radix.weight_zero, Nat.mul_one] at hroomB
      have hmul : (bloc.toNat + b.start 0) * a.sizeElem.toNat ≤ boundB * a.sizeElem.toNat :=
        Nat.mul_le_mul_right _ (by omega)
      -- the address of the row does not wrap
      have hrow : (srcRow a b y 0 bloc).toNat = (bloc.toNat + b.start 0) * a.sizeElem.toNat := by
        rw [Matrix.start] at hmul hfit ⊢
        rw [srcRow, UInt64.toNat_mul, UInt64.toNat_add,
          Nat.mod_eq_of_lt (a := bloc.toNat + (b.matView.lb.c 0).toNat) (by omega),
          Nat.mod_eq_of_lt (by omega)]
      have helem : b.elem y 0 bloc.toNat = bloc.toNat + b.start 0 + y 0 := (Nat.add_assoc _ _ _).symm
      rw [hrow, helem, ← Nat.add_mul]
  | succ k ih =>
      intro hk hfits bloc hroomB
      -- in dimension 9 the loop moves by the index of the target, which is the same here
      have hindex : (if k + 1 = 9 then a.matView.lb.c (k + 1) else b.matView.lb.c (k + 1)) =
          b.matView.lb.c (k + 1) := by
        split
        · next hnine => rw [hnine, (hk (by omega)).2]
        · rfl
      have hposB : ∀ i ≤ k + 1, 0 < b.side i := fun i hi => Nat.zero_lt_of_lt (hfits i hi)
      have hweightB : 0 < Radix.weight b.side k := Radix.weight_pos fun i hi => hposB i (by omega)
      have hfit := hfits (k + 1) le_rfl
      have hcounter : (b.matView.lb.c (k + 1) + UInt64.ofNat (y (k + 1))).toNat =
          b.start (k + 1) + y (k + 1) := by
        have hlt : b.side (k + 1) < 2 ^ 64 := (b.dist.c (k + 1)).toNat_lt
        rw [UInt64.toNat_add, UInt64.toNat_ofNat', Nat.mod_eq_of_lt (a := y (k + 1)) (by omega),
          Nat.mod_eq_of_lt]
        · rfl
        · simp only [Matrix.start] at hfit
          omega
      have hroomB' := Radix.room_step hfit hroomB
      -- nor does the index that the next loop starts from
      have hlocB : ((bloc + (b.matView.lb.c (k + 1) + UInt64.ofNat (y (k + 1)))) * b.dist.c k).toNat =
          (bloc.toNat + (b.start (k + 1) + y (k + 1))) * b.side k := by
        rw [← hcounter] at hroomB' ⊢
        exact toNat_descend hweightB (hposB k (by omega)) hboundB hroomB'
      rw [srcRow, hindex, ih (fun h => absurd (hk (by omega)).1 (by omega))
        (fun i hi => hfits i (by omega)) _ (by rw [hlocB]; exact hroomB'), hlocB]
      rfl

/-- The loops from dimension `k` down write what they should, as long as the two arrays can be
addressed.  The loop over dimension 9 moves in the source by the index of the target, so both have to
start at the same index there. -/
theorem copyLevel_spec (hsz : 0 < a.sizeElem.toNat) {boundA boundB : ℕ}
    (hA : boundA * a.sizeElem.toNat < 2 ^ 64) (hB : boundB * a.sizeElem.toNat < 2 ^ 64) (k : ℕ)
    (hk : 9 ≤ k → k = 9 ∧ a.matView.lb.c 9 = b.matView.lb.c 9) (hfits : ViewFits a b k)
    (aloc bloc : UInt64) (s : CopyState)
    (hroomA : (aloc.toNat + a.side k) * Radix.weight a.side k ≤ boundA)
    (hroomB : (bloc.toNat + b.side k) * Radix.weight b.side k ≤ boundB) :
    ∃ s', copyLevel a b k aloc bloc s = some s' ∧
      Wrote a b a.sizeElem.toNat a.turns k aloc.toNat bloc.toNat s s' := by
  rcases copyLevel_rows (b := b) hsz hA k hfits.le hfits.target aloc bloc s hroomA with ⟨s', hrun, hwrote⟩
  refine ⟨s', hrun, hwrote.wrote fun y hy c hc => ?_⟩
  rw [toNat_srcRow hsz hB k hk (fun i hi => ?_) bloc hroomB]
  have := hfits.source i hi
  have := hy i hi
  omega

/-- Elements of no bytes: the loops only count. -/
theorem copyLevel_no_bytes (hsz : a.sizeElem = 0) (k : ℕ)
    (hle : ∀ i ≤ k, a.matView.lb.c i ≤ a.matView.ub.c i)
    (hub : ∀ i ≤ k, a.matView.ub.c i ≠ 0xffffffffffffffff) :
    ∀ (aloc bloc : UInt64) (s : CopyState), ∃ s', copyLevel a b k aloc bloc s = some s' ∧
      s'.buf = s.buf ∧
      s'.copied = s.copied + UInt64.ofNat (∏ i ∈ Finset.range (k + 1), a.turns i) := by
  induction k with
  | zero =>
      intro aloc bloc s
      have hlt := (a.matView.ub.c 0).toNat_lt
      have hle0 := UInt64.le_iff_toNat_le.1 (hle 0 le_rfl)
      have hnum : a.matView.ub.c 0 - a.matView.lb.c 0 + 1 = UInt64.ofNat (a.turns 0) := by
        apply UInt64.toNat_inj.1
        rw [UInt64.toNat_add, UInt64.toNat_sub_of_le _ _ (hle 0 le_rfl), UInt64.toNat_one,
          UInt64.toNat_ofNat', Matrix.turns]
        omega
      refine ⟨_, rfl, ?_, ?_⟩
      · -- a copy of no bytes
        funext p
        have hnone : ¬ ((aloc + a.matView.lb.c 0) * a.sizeElem).toNat ≤ p ∨
            ¬ p < ((aloc + a.matView.lb.c 0) * a.sizeElem).toNat +
              (a.sizeElem * (a.matView.ub.c 0 - a.matView.lb.c 0 + 1)).toNat := by
          rw [hsz, UInt64.zero_mul, UInt64.toNat_zero]
          omega
        simp only [memcpy, if_neg (not_and_or.2 hnone)]
      · rw [zero_add, Finset.prod_range_one, hnum]
  | succ k ih =>
      intro aloc bloc s
      rw [copyLevel, if_neg (hub (k + 1) le_rfl)]
      have hloop := copyLoop_rule
        (fun ak bk => copyLevel a b k ((aloc + ak) * a.dist.c k)
          ((bloc + if k + 1 = 9 then ak else bk) * b.dist.c k))
        (fun j s' => s'.buf = s.buf ∧
          s'.copied = s.copied + UInt64.ofNat ((∏ i ∈ Finset.range (k + 1), a.turns i) * j))
        (a.turns (k + 1)) 0 (a.matView.lb.c (k + 1)) (b.matView.lb.c (k + 1)) s
        ⟨rfl, by rw [Nat.mul_zero]; exact (UInt64.add_zero _).symm⟩ ?_
      · rcases hloop with ⟨s', hrun, hbuf, hcount⟩
        rw [Nat.zero_add, ← Finset.prod_range_succ] at hcount
        exact ⟨s', hrun, hbuf, hcount⟩
      · rintro j - s₁ ⟨hbuf, hcount⟩
        rcases ih (fun i hi => hle i (by omega)) (fun i hi => hub i (by omega)) _ _ s₁ with
          ⟨s₂, hrun, hbuf', hcount'⟩
        refine ⟨s₂, hrun, hbuf'.trans hbuf, ?_⟩
        rw [hcount', hcount, Nat.zero_add, Nat.mul_succ, UInt64.ofNat_add, UInt64.add_assoc]

end Levels

/-! ## What a copy does to an object -/

/-- How far a cell is from the lower corner of the box along dimension `i`. -/
def BBox.rel (bb : BBox) (x : Cell) (i : ℕ) : ℕ :=
  if h : i < BBOX_MAX_NDIM then x ⟨i, h⟩ - (bb.lb.c i).toNat else 0

/-- The position of a cell in the array of a box, with dimension 0 fastest. -/
def BBox.offset (bb : BBox) (x : Cell) : ℕ :=
  Radix.value bb.side (bb.rel x) bb.numDims

theorem BBox.rel_eq (bb : BBox) (x : Cell) {i : ℕ} (h : i < BBOX_MAX_NDIM) :
    bb.rel x i = x ⟨i, h⟩ - (bb.lb.c i).toNat := by
  rw [BBox.rel, dif_pos h]

theorem BBox.rel_lt_side {bb : BBox} (hdims : bb.numDims ≤ BBOX_MAX_NDIM) {x : Cell}
    (hx : x ∈ bb.cells) : ∀ i < bb.numDims, bb.rel x i < bb.side i := by
  intro i hi
  have hlt : i < BBOX_MAX_NDIM := lt_of_lt_of_le hi hdims
  have hxi := (BBox.mem_cells.1 hx).1 ⟨i, hlt⟩ hi
  simp only at hxi
  rw [BBox.rel_eq bb x hlt, BBox.side]
  omega

/-- Different cells of a box have different positions. -/
theorem BBox.offset_inj {bb : BBox} (hdims : bb.numDims ≤ BBOX_MAX_NDIM) {x x' : Cell}
    (hx : x ∈ bb.cells) (hx' : x' ∈ bb.cells) (h : bb.offset x = bb.offset x') : x = x' := by
  have hrel := Radix.digit_eq_of_value_eq (BBox.rel_lt_side hdims hx) (BBox.rel_lt_side hdims hx') h
  funext i
  by_cases hi : i.val < bb.numDims
  · have hxi := (BBox.mem_cells.1 hx).1 i hi
    have hxi' := (BBox.mem_cells.1 hx').1 i hi
    have := hrel i hi
    rw [BBox.rel_eq bb x i.isLt, BBox.rel_eq bb x' i.isLt] at this
    simp only [Fin.eta] at this
    omega
  · rw [(BBox.mem_cells.1 hx).2 i (Nat.le_of_not_lt hi), (BBox.mem_cells.1 hx').2 i (Nat.le_of_not_lt hi)]

/-- The number of cells is the weight that a further dimension would have. -/
theorem BBox.card_eq_weight {bb : BBox} (hdims : bb.numDims ≤ BBOX_MAX_NDIM) :
    bb.cells.card = Radix.weight bb.side bb.numDims :=
  BBox.card_cells hdims

theorem BBox.Valid.side_pos {bb : BBox} (h : bb.Valid) : ∀ i < bb.numDims, 0 < bb.side i := by
  intro i hi
  have := UInt64.le_iff_toNat_le.1 (h.le i hi)
  rw [BBox.side]
  omega

theorem BBox.Valid.side_le_card {bb : BBox} (h : bb.Valid) {i : ℕ} (hi : i < bb.numDims) :
    bb.side i ≤ bb.cells.card := by
  rw [BBox.card_cells h.dims.2]
  exact Finset.single_le_prod' (fun k hk => h.side_pos k (Finset.mem_range.1 hk))
    (Finset.mem_range.2 hi)

/-- The target after the common cells were copied into it: their bytes are those of the source, all
other bytes are as before. -/
structure Copied (toObj fromObj r : ObjData) : Prop where
  bb : r.objDesc.bb = toObj.objDesc.bb
  size : r.objDesc.size = toObj.objDesc.size
  inside : ∀ x ∈ toObj.objDesc.bb.cells ∩ fromObj.objDesc.bb.cells, ∀ c < toObj.objDesc.size.toNat,
    r.data (toObj.objDesc.bb.offset x * toObj.objDesc.size.toNat + c) =
      fromObj.data (fromObj.objDesc.bb.offset x * toObj.objDesc.size.toNat + c)
  outside : ∀ p, (∀ x ∈ toObj.objDesc.bb.cells ∩ fromObj.objDesc.bb.cells,
      ∀ c < toObj.objDesc.size.toNat,
        p ≠ toObj.objDesc.bb.offset x * toObj.objDesc.size.toNat + c) → r.data p = toObj.data p

section SsdCopy

/-- The intersection lies inside both boxes. -/
theorem bboxIntersect_bounds {b0 b1 : BBox} (hdims : b0.numDims ≤ BBOX_MAX_NDIM) {i : ℕ}
    (hi : i < b0.numDims) :
    (b0.lb.c i ≤ (bboxIntersect b0 b1).lb.c i ∧ (bboxIntersect b0 b1).ub.c i ≤ b0.ub.c i) ∧
      b1.lb.c i ≤ (bboxIntersect b0 b1).lb.c i ∧ (bboxIntersect b0 b1).ub.c i ≤ b1.ub.c i := by
  have hlt : i < BBOX_MAX_NDIM := lt_of_lt_of_le hi hdims
  simp only [bboxIntersect, Coord.c_ofFn _ hlt, hi, if_true]
  split <;> split <;> simp_all only [gt_iff_lt, UInt64.lt_iff_toNat_lt, UInt64.le_iff_toNat_le] <;> omega

/-- What a box has to satisfy to be a view of an object. -/
structure BBox.PartOf (loc glb : BBox) : Prop where
  dims : loc.numDims = glb.numDims
  valid : loc.Valid
  lb : ∀ i < glb.numDims, glb.lb.c i ≤ loc.lb.c i
  ub : ∀ i < glb.numDims, loc.ub.c i ≤ glb.ub.c i

section View

variable {od : ObjData} {loc : BBox} (h : loc.PartOf od.objDesc.bb) {i : ℕ}
  (hi : i < od.objDesc.bb.numDims)

include h hi

theorem BBox.PartOf.index_lt : i < BBOX_MAX_NDIM :=
  lt_of_lt_of_le hi (h.dims ▸ h.valid.dims.2)

theorem lb_mat : (od.mat loc).matView.lb.c i = loc.lb.c i - od.objDesc.bb.lb.c i := by
  simp only [ObjData.mat, matrixInit, Coord.c_ofFn _ (h.index_lt hi), hi, if_true]

theorem start_mat : (od.mat loc).start i = (loc.lb.c i).toNat - (od.objDesc.bb.lb.c i).toNat := by
  rw [Matrix.start, lb_mat h hi, UInt64.toNat_sub_of_le _ _ (h.lb i hi)]

theorem toNat_ub_mat : ((od.mat loc).matView.ub.c i).toNat =
    (loc.ub.c i).toNat - (od.objDesc.bb.lb.c i).toNat := by
  have hub : (od.mat loc).matView.ub.c i = loc.ub.c i - od.objDesc.bb.lb.c i := by
    simp only [ObjData.mat, matrixInit, Coord.c_ofFn _ (h.index_lt hi), hi, if_true]
  rw [hub, UInt64.toNat_sub_of_le _ _
    (UInt64.le_trans (h.lb i hi) (h.valid.le i (h.dims.symm ▸ hi)))]

theorem side_mat (hside : od.objDesc.bb.side i < 2 ^ 64) :
    (od.mat loc).side i = od.objDesc.bb.side i := by
  have hdist : (od.mat loc).dist.c i = bboxDist od.objDesc.bb i := by
    simp only [ObjData.mat, matrixInit, Coord.c_ofFn _ (h.index_lt hi), hi, if_true]
  have hlb := UInt64.le_iff_toNat_le.1 (h.lb i hi)
  have hub := UInt64.le_iff_toNat_le.1 (h.ub i hi)
  have hle := UInt64.le_iff_toNat_le.1 (h.valid.le i (h.dims.symm ▸ hi))
  rw [Matrix.side, hdist, bboxDist, toNat_coordDist (by omega), UInt64.toNat_ofNat',
    ← BBox.side, Nat.mod_eq_of_lt hside]

theorem turns_mat : (od.mat loc).turns i = loc.side i := by
  have hstart := start_mat h hi
  have hlb := UInt64.le_iff_toNat_le.1 (h.lb i hi)
  have hle := UInt64.le_iff_toNat_le.1 (h.valid.le i (h.dims.symm ▸ hi))
  rw [Matrix.start] at hstart
  rw [Matrix.turns, toNat_ub_mat h hi, hstart, BBox.side]
  omega

theorem le_mat : (od.mat loc).matView.lb.c i ≤ (od.mat loc).matView.ub.c i := by
  have hstart := start_mat h hi
  have hlb := UInt64.le_iff_toNat_le.1 (h.lb i hi)
  have hle := UInt64.le_iff_toNat_le.1 (h.valid.le i (h.dims.symm ▸ hi))
  rw [Matrix.start] at hstart
  rw [UInt64.le_iff_toNat_le, toNat_ub_mat h hi, hstart]
  omega

/-- The view is inside the array. -/
theorem fits_mat (hside : od.objDesc.bb.side i < 2 ^ 64) :
    (od.mat loc).start i + loc.side i ≤ (od.mat loc).side i := by
  have hlb := UInt64.le_iff_toNat_le.1 (h.lb i hi)
  have hub := UInt64.le_iff_toNat_le.1 (h.ub i hi)
  have hle := UInt64.le_iff_toNat_le.1 (h.valid.le i (h.dims.symm ▸ hi))
  rw [start_mat h hi, side_mat h hi hside, BBox.side, BBox.side]
  omega

omit hi in
/-- In the turns that lead to a cell of the view the loops come to the position of the cell. -/
theorem elem_mat (hside : ∀ i < od.objDesc.bb.numDims, od.objDesc.bb.side i < 2 ^ 64) {x : Cell}
    (hx : x ∈ loc.cells) {y : ℕ → ℕ} (hy : ∀ i < od.objDesc.bb.numDims, y i = loc.rel x i) :
    (od.mat loc).elem y (od.objDesc.bb.numDims - 1) 0 = od.objDesc.bb.offset x := by
  have hdims : 1 ≤ od.objDesc.bb.numDims := h.dims ▸ h.valid.dims.1
  rw [Matrix.elem, Radix.horner_eq, Nat.zero_mul, Nat.zero_add, Nat.sub_add_cancel hdims, BBox.offset]
  refine Radix.value_congr (fun i hi => side_mat h hi (hside i hi)) fun i hi => ?_
  have hlt := h.index_lt hi
  have hxi := (BBox.mem_cells.1 hx).1 ⟨i, hlt⟩ (h.dims.symm ▸ hi)
  have hlb := UInt64.le_iff_toNat_le.1 (h.lb i hi)
  simp only at hxi
  rw [start_mat h hi, hy i hi, BBox.rel_eq _ _ hlt, BBox.rel_eq _ _ hlt]
  omega

end View

/-- The turns of all loops are the cells of the view. -/
theorem prod_turns_mat {od : ObjData} {loc : BBox} (h : loc.PartOf od.objDesc.bb) :
    ∏ i ∈ Finset.range (od.objDesc.bb.numDims - 1 + 1), (od.mat loc).turns i = loc.cells.card := by
  rw [Nat.sub_add_cancel (h.dims ▸ h.valid.dims.1), BBox.card_cells h.valid.dims.2, h.dims]
  exact Finset.prod_congr rfl fun i hi => turns_mat h (Finset.mem_range.1 hi)

/-- The views of the common box in two objects. -/
theorem viewFits_mat {toObj fromObj : ObjData} {loc : BBox} (hto : loc.PartOf toObj.objDesc.bb)
    (hfrom : loc.PartOf fromObj.objDesc.bb)
    (hsideTo : ∀ i < toObj.objDesc.bb.numDims, toObj.objDesc.bb.side i < 2 ^ 64)
    (hsideFrom : ∀ i < fromObj.objDesc.bb.numDims, fromObj.objDesc.bb.side i < 2 ^ 64) :
    ViewFits (toObj.mat loc) (fromObj.mat loc) (toObj.objDesc.bb.numDims - 1) := by
  have hone := hto.valid.dims.1
  have hdTo := hto.dims
  have hdFrom := hfrom.dims
  refine ⟨fun i hi => ?_, fun i hi => ?_, fun i hi => ?_⟩
  · exact le_mat hto (by omega)
  · rw [turns_mat hto (by omega)]
    exact fits_mat hto (by omega) (hsideTo i (by omega))
  · rw [turns_mat hto (by omega)]
    exact fits_mat hfrom (by omega) (hsideFrom i (by omega))

/-- The whole array is the block that the outermost loop starts in. -/
theorem room_mat {od : ObjData} {loc : BBox} (h : loc.PartOf od.objDesc.bb)
    (hside : ∀ i < od.objDesc.bb.numDims, od.objDesc.bb.side i < 2 ^ 64) :
    (0 + (od.mat loc).side (od.objDesc.bb.numDims - 1)) *
      Radix.weight (od.mat loc).side (od.objDesc.bb.numDims - 1) ≤ od.objDesc.bb.cells.card := by
  have hone : 1 ≤ od.objDesc.bb.numDims := h.dims ▸ h.valid.dims.1
  have hmax : od.objDesc.bb.numDims ≤ BBOX_MAX_NDIM := h.dims ▸ h.valid.dims.2
  have hbases : ∀ i < od.objDesc.bb.numDims, (od.mat loc).side i = od.objDesc.bb.side i :=
    fun i hi => side_mat h hi (hside i hi)
  have hblock := Radix.weight_succ (od.mat loc).side (od.objDesc.bb.numDims - 1)
  rw [Nat.sub_add_cancel hone, Radix.weight_congr hbases, ← BBox.card_eq_weight hmax] at hblock
  rw [Nat.zero_add, Nat.mul_comm, ← hblock]

/-- The cell that is `y i` away from the lower corner along dimension `i`. -/
def BBox.cellAt (bb : BBox) (y : ℕ → ℕ) : Cell := fun i =>
  if i.val < bb.numDims then (bb.lb.c i).toNat + y i else 0

theorem BBox.cellAt_mem {bb : BBox} {y : ℕ → ℕ} (hy : ∀ i < bb.numDims, y i < bb.side i) :
    bb.cellAt y ∈ bb.cells := by
  refine BBox.mem_cells.2 ⟨fun i hi => ?_, fun i hi => ?_⟩
  · have := hy i hi
    rw [BBox.side] at this
    rw [BBox.cellAt, if_pos hi]
    omega
  · rw [BBox.cellAt, if_neg (Nat.not_lt.2 hi)]

theorem BBox.rel_cellAt {bb : BBox} (hdims : bb.numDims ≤ BBOX_MAX_NDIM) (y : ℕ → ℕ) {i : ℕ}
    (hi : i < bb.numDims) : bb.rel (bb.cellAt y) i = y i := by
  have hlt : i < BBOX_MAX_NDIM := lt_of_lt_of_le hi hdims
  rw [BBox.rel_eq _ _ hlt, BBox.cellAt, if_pos hi]
  exact Nat.add_sub_cancel_left _ _

variable {toObj fromObj : ObjData}

/-- The common box is a part of both. -/
theorem partOf_bboxIntersect {b0 b1 : BBox} (h0 : b0.Valid) (h1 : b1.Valid)
    (hd : b0.numDims = b1.numDims) (hmeet : bboxDoesIntersect b0 b1 = true) :
    (bboxIntersect b0 b1).PartOf b0 ∧ (bboxIntersect b0 b1).PartOf b1 := by
  have hvalid := bboxIntersect_valid h0 h1 hd hmeet
  refine ⟨⟨rfl, hvalid, fun i hi => ?_, fun i hi => ?_⟩, ⟨hd, hvalid, fun i hi => ?_, fun i hi => ?_⟩⟩
  · exact (bboxIntersect_bounds h0.dims.2 hi).1.1
  · exact (bboxIntersect_bounds h0.dims.2 hi).1.2
  · exact (bboxIntersect_bounds h0.dims.2 (hd.symm ▸ hi)).2.1
  · exact (bboxIntersect_bounds h0.dims.2 (hd.symm ▸ hi)).2.2

/-- What the loops write, in terms of cells. -/
theorem Wrote.copied_cells {bbcom : BBox} (hto : bbcom.PartOf toObj.objDesc.bb)
    (hfrom : bbcom.PartOf fromObj.objDesc.bb)
    (hcells : bbcom.cells = toObj.objDesc.bb.cells ∩ fromObj.objDesc.bb.cells)
    (hsideTo : ∀ i < toObj.objDesc.bb.numDims, toObj.objDesc.bb.side i < 2 ^ 64)
    (hsideFrom : ∀ i < fromObj.objDesc.bb.numDims, fromObj.objDesc.bb.side i < 2 ^ 64)
    {s' : CopyState} (h : Wrote (toObj.mat bbcom) (fromObj.mat bbcom) toObj.objDesc.size.toNat
      (toObj.mat bbcom).turns (toObj.objDesc.bb.numDims - 1) 0 0 ⟨toObj.data, 0⟩ s')
    (objDesc : ObjDesc) (hbb : objDesc.bb = toObj.objDesc.bb) (hsize : objDesc.size = toObj.objDesc.size) :
    Copied toObj fromObj { toObj with objDesc := objDesc, data := s'.buf } := by
  have hdims : toObj.objDesc.bb.numDims = fromObj.objDesc.bb.numDims := hto.dims.symm.trans hfrom.dims
  have hpos : 1 ≤ toObj.objDesc.bb.numDims := hto.dims ▸ hto.valid.dims.1
  -- the turns inside the view are the cells of the view
  have hturns : ∀ {x : Cell}, x ∈ bbcom.cells →
      ∀ i ≤ toObj.objDesc.bb.numDims - 1, bbcom.rel x i < (toObj.mat bbcom).turns i := by
    intro x hx i hi
    have hi' : i < toObj.objDesc.bb.numDims := by omega
    rw [turns_mat hto hi']
    exact BBox.rel_lt_side hto.valid.dims.2 hx i (hto.dims.symm ▸ hi')
  refine ⟨hbb, hsize, fun x hx c hc => ?_, fun p hp => ?_⟩
  · rw [← hcells] at hx
    have hwrote := h.inside (bbcom.rel x) (hturns hx) c hc
    rw [elem_mat hto hsideTo hx fun _ _ => rfl, hdims, elem_mat hfrom hsideFrom hx fun _ _ => rfl] at hwrote
    exact hwrote
  · refine h.outside p fun y hy c hc => ?_
    have hin : ∀ i < bbcom.numDims, y i < bbcom.side i := by
      intro i hi
      have hi' : i < toObj.objDesc.bb.numDims := hto.dims ▸ hi
      have := hy i (by omega)
      rwa [turns_mat hto hi'] at this
    have hmem := BBox.cellAt_mem hin
    have helem := elem_mat hto hsideTo hmem (y := y) fun i hi =>
      (BBox.rel_cellAt hto.valid.dims.2 y (hto.dims.symm ▸ hi)).symm
    rw [helem]
    exact hp _ (hcells ▸ hmem) c hc

/-- A number below `2 ^ 31` as an `int`. -/
theorem toInt_int_ofNat {n : ℕ} (h : n < 2 ^ 31) :
    (UInt64.ofNat n).toUInt32.toInt32.toInt = n := by
  rw [UInt64.toUInt32_ofNat', UInt32.toInt32_ofNat', Int32.toInt_ofNat_of_lt h]

/-- An `int` is the same after it was a 64-bit value. -/
theorem toInt32_toUInt64 (x : Int32) : (Int64.toUInt64 (Int32.toInt64 x)).toUInt32.toInt32 = x := by
  have hnarrow : ∀ y : Int64, y.toUInt64.toUInt32.toInt32 = y.toInt32 := by
    intro y
    apply Int32.toBitVec_inj.1
    simp [BitVec.signExtend_eq_setWidth_of_le]
  rw [hnarrow, Int32.toInt32_toInt64]

theorem ssdCopy_of_level (hone : 1 ≤ toObj.objDesc.bb.numDims) (hten : toObj.objDesc.bb.numDims ≤ 10)
    {s' : CopyState}
    (hrun : copyLevel (toObj.mat (bboxIntersect toObj.objDesc.bb fromObj.objDesc.bb))
      (fromObj.mat (bboxIntersect toObj.objDesc.bb fromObj.objDesc.bb))
      (toObj.objDesc.bb.numDims - 1) 0 0 ⟨toObj.data, 0⟩ = some s') :
    ssdCopy toObj fromObj = some
      ({ toObj with
          objDesc := { toObj.objDesc with tag := fromObj.objDesc.tag, type := fromObj.objDesc.type }
          data := s'.buf },
        s'.copied.toUInt32.toInt32) := by
  have hlevel : matrixCopy (toObj.mat (bboxIntersect toObj.objDesc.bb fromObj.objDesc.bb))
      (fromObj.mat (bboxIntersect toObj.objDesc.bb fromObj.objDesc.bb)) = some s' := by
    rw [matrixCopy]
    exact (congrArg (fun k => copyLevel _ _ k 0 0 _) (if_pos ⟨hone, hten⟩)).trans hrun
  rw [ssdCopy]
  simp only [hlevel, Option.map_some]

/-- When both arrays can be addressed, `ssd_copy` copies exactly the common cells. -/
theorem ssdCopy_spec (hto : toObj.objDesc.bb.Valid) (hfrom : fromObj.objDesc.bb.Valid)
    (hd : toObj.objDesc.bb.numDims = fromObj.objDesc.bb.numDims)
    (hten : toObj.objDesc.bb.numDims = 10 → toObj.objDesc.bb.lb.c 9 = fromObj.objDesc.bb.lb.c 9)
    (hmeet : bboxDoesIntersect toObj.objDesc.bb fromObj.objDesc.bb = true)
    (hpos : 0 < toObj.objDesc.size.toNat)
    (hsizeTo : toObj.objDesc.bb.cells.card * toObj.objDesc.size.toNat < 2 ^ 64)
    (hsizeFrom : fromObj.objDesc.bb.cells.card * toObj.objDesc.size.toNat < 2 ^ 64) :
    ∃ r n, ssdCopy toObj fromObj = some (r, n) ∧ Copied toObj fromObj r ∧
      n = (UInt64.ofNat
        (toObj.objDesc.bb.cells ∩ fromObj.objDesc.bb.cells).card).toUInt32.toInt32 := by
  rcases partOf_bboxIntersect hto hfrom hd hmeet with ⟨hpartTo, hpartFrom⟩
  have hcells := bboxIntersect_cells hd
  have hone : 1 ≤ toObj.objDesc.bb.numDims := hto.dims.1
  have hself : ∀ n : ℕ, n ≤ n * toObj.objDesc.size.toNat := fun n => Nat.le_mul_of_pos_right n hpos
  have hsideTo : ∀ i < toObj.objDesc.bb.numDims, toObj.objDesc.bb.side i < 2 ^ 64 := fun i hi =>
    ((hto.side_le_card hi).trans (hself _)).trans_lt hsizeTo
  have hsideFrom : ∀ i < fromObj.objDesc.bb.numDims, fromObj.objDesc.bb.side i < 2 ^ 64 := fun i hi =>
    ((hfrom.side_le_card hi).trans (hself _)).trans_lt hsizeFrom
  have hmax : toObj.objDesc.bb.numDims ≤ 10 := hto.dims.2
  -- in ten dimensions the views start at the same index of dimension 9
  have hstart : 9 ≤ toObj.objDesc.bb.numDims - 1 → toObj.objDesc.bb.numDims - 1 = 9 ∧
      (toObj.mat (bboxIntersect toObj.objDesc.bb fromObj.objDesc.bb)).matView.lb.c 9 =
        (fromObj.mat (bboxIntersect toObj.objDesc.bb fromObj.objDesc.bb)).matView.lb.c 9 := by
    intro hk
    have hdims : toObj.objDesc.bb.numDims = 10 := by omega
    refine ⟨by omega, UInt64.toNat_inj.1 ?_⟩
    rw [← Matrix.start, ← Matrix.start, start_mat hpartTo (by omega), start_mat hpartFrom (by omega),
      hten hdims]
  rcases copyLevel_spec hpos hsizeTo hsizeFrom (toObj.objDesc.bb.numDims - 1) hstart
    (viewFits_mat hpartTo hpartFrom hsideTo hsideFrom) 0 0 ⟨toObj.data, 0⟩ (room_mat hpartTo hsideTo)
    (by rw [hd]; exact room_mat hpartFrom hsideFrom) with ⟨s', hrun, hwrote⟩
  refine ⟨_, _, ssdCopy_of_level hone hmax hrun,
    hwrote.copied_cells hpartTo hpartFrom hcells hsideTo hsideFrom _ rfl rfl, ?_⟩
  rw [hwrote.copied, prod_turns_mat hpartTo, hcells]
  exact congrArg (fun n : UInt64 => n.toUInt32.toInt32) (UInt64.zero_add _)

/-- Elements of no bytes: nothing is written. -/
theorem ssdCopy_no_bytes (hto : toObj.objDesc.bb.Valid) (hfrom : fromObj.objDesc.bb.Valid)
    (hd : toObj.objDesc.bb.numDims = fromObj.objDesc.bb.numDims)
    (hmeet : bboxDoesIntersect toObj.objDesc.bb fromObj.objDesc.bb = true)
    (hzero : toObj.objDesc.size = 0)
    (hend : ∀ i < toObj.objDesc.bb.numDims, toObj.objDesc.bb.side i < 2 ^ 64) :
    ∃ r n, ssdCopy toObj fromObj = some (r, n) ∧ Copied toObj fromObj r := by
  rcases partOf_bboxIntersect hto hfrom hd hmeet with ⟨hpart, -⟩
  have hone : 1 ≤ toObj.objDesc.bb.numDims := hto.dims.1
  have hub : ∀ i < toObj.objDesc.bb.numDims,
      (toObj.mat (bboxIntersect toObj.objDesc.bb fromObj.objDesc.bb)).matView.ub.c i ≠
        0xffffffffffffffff := by
    intro i hi hmax
    -- a loop up to the largest value would not end
    have hval := toNat_ub_mat hpart hi
    have hle := UInt64.le_iff_toNat_le.1 (hpart.ub i hi)
    have htop : (0xffffffffffffffff : UInt64).toNat = 2 ^ 64 - 1 := rfl
    have hside := hend i hi
    rw [BBox.side] at hside
    rw [hmax, htop] at hval
    omega
  rcases copyLevel_no_bytes (b := fromObj.mat (bboxIntersect toObj.objDesc.bb fromObj.objDesc.bb))
    hzero (toObj.objDesc.bb.numDims - 1) (fun i hi => le_mat hpart (by omega))
    (fun i hi => hub i (by omega)) 0 0 ⟨toObj.data, 0⟩ with ⟨s', hrun, hbuf, -⟩
  refine ⟨_, _, ssdCopy_of_level hone hto.dims.2 hrun, rfl, rfl, fun x _ c hc => ?_, fun p _ => ?_⟩
  · rw [hzero] at hc
    exact absurd hc (Nat.not_lt_zero c)
  · exact congrFun hbuf p

end SsdCopy

end DataSpaces
