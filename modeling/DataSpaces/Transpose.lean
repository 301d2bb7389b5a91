import DataSpaces.Lib.Fields
import DataSpaces.Sfc

/-!
# Transpose — the bits of fields next to each other (`bitTranspose`)

`bitTranspose` takes `nDims` fields of `nBits` bits to `nBits` fields of `nDims` bits.  The plain version
moves bit after bit.  The other one keeps groups of fields: a group has fields for the same consecutive bits,
and it lies where these bits have to be in the end.  A round cuts the bits of every group in two halves, and a
bit in the middle that is left over goes to its place.  When the fields have one bit, all are in place.
-/

namespace DataSpaces

/-! ## Ones -/

theorem toNat_ones {w k : ℕ} (hw : 1 < w) (hk : 0 < k) (hkw : k ≤ w) : (ones w k).toNat = 2 ^ k - 1 := by
  have hone : 1 < 2 ^ w := Nat.one_lt_two_pow (by omega)
  have hshift : 2 * 2 ^ (k - 1) = 2 ^ k := by
    rw [Nat.mul_comm, ← Nat.pow_succ, Nat.succ_eq_add_one, Nat.sub_add_cancel hk]
  have hpow := Nat.two_pow_pos k
  rw [ones, BitVec.toNat_sub, BitVec.toNat_shiftLeft, Nat.shiftLeft_eq, BitVec.toNat_ofNat,
    BitVec.toNat_ofNat, Nat.mod_mul_mod, hshift, Nat.mod_eq_of_lt hone]
  rcases Nat.lt_or_eq_of_le hkw with hlt | rfl
  · have hle : 2 ^ k < 2 ^ w := Nat.pow_lt_pow_right Nat.one_lt_two hlt
    rw [Nat.mod_eq_of_lt hle, show 2 ^ w - 1 + 2 ^ k = 2 ^ k - 1 + 2 ^ w by omega, Nat.add_mod_right,
      Nat.mod_eq_of_lt (by omega)]
  · rw [Nat.mod_self, Nat.add_zero, Nat.mod_eq_of_lt (by omega)]

theorem getLsbD_ones {w k : ℕ} (hw : 1 < w) (hk : 0 < k) (hkw : k ≤ w) (i : ℕ) :
    (ones w k).getLsbD i = decide (i < k) := by
  rw [← BitVec.testBit_toNat, toNat_ones hw hk hkw, Nat.testBit_two_pow_sub_one]

/-! ## Groups of fields -/

/-- The groups after every group was cut in two. -/
def halves (groups : Finset ℕ) (utB : ℕ) : Finset ℕ :=
  groups ∪ groups.image (· + utB)

theorem mem_halves {groups : Finset ℕ} {utB lo : ℕ} :
    lo ∈ halves groups utB ↔ lo ∈ groups ∨ ∃ lo' ∈ groups, lo = lo' + utB := by
  simp only [halves, Finset.mem_union, Finset.mem_image, eq_comm]

theorem apart_halves {groups : Finset ℕ} {len utB m : ℕ} (h : Fields.Apart groups len m)
    (hlen : 2 * utB ≤ len) : Fields.Apart (halves groups utB) utB m := by
  refine ⟨fun a ha b hb hab => ?_, fun a ha => ?_⟩
  · rcases mem_halves.1 ha with ha | ⟨a', ha', rfl⟩ <;> rcases mem_halves.1 hb with hb | ⟨b', hb', rfl⟩
    · have := h.apart a ha b hb hab
      omega
    · rcases Nat.lt_trichotomy a b' with hlt | rfl | hgt
      · have := h.apart a ha b' hb' hlt
        omega
      · exact le_rfl
      · have := h.apart b' hb' a ha hgt
        omega
    · have := h.apart a' ha' b hb (by omega)
      omega
    · have := h.apart a' ha' b' hb' (by omega)
      omega
  · rcases mem_halves.1 ha with ha | ⟨a', ha', rfl⟩
    · have := h.below a ha
      omega
    · have := h.below a' ha'
      omega

/-- Bit `k` of field `d`, when the fields have `m` bits. -/
def fieldBit (m : ℕ) (x : Bitmask) (d k : ℕ) : Bool :=
  x.getLsbD (m * d + k)

/-- The fields of `n` dimensions for the bits of every group, next to each other where the bits have to be. -/
structure Grouped (n m : ℕ) (x : Bitmask) (groups : Finset ℕ) (s : TransposeState) : Prop where
  apart : Fields.Apart groups s.inB m
  fieldEnds : ∀ p, s.inFieldEnds.getLsbD p = true ↔ ∃ lo ∈ groups, p = n * lo
  mask : ∀ p, s.inMask.getLsbD p = true ↔ ∃ lo ∈ groups, ∃ i < s.inB, p = n * lo + i
  fields : ∀ p, s.inCoords.getLsbD p = true ↔ ∃ lo ∈ groups, ∃ d < n, ∃ i < s.inB,
    p = n * lo + (d * s.inB + i) ∧ fieldBit m x d (lo + i) = true
  placed : ∀ p, s.coords.getLsbD p = true ↔ ∃ d < n, ∃ k < m, p = n * k + d ∧
    (∀ lo ∈ groups, ¬(lo ≤ k ∧ k < lo + s.inB)) ∧ fieldBit m x d k = true

section Round

variable {n m : ℕ} {x : Bitmask} {groups : Finset ℕ} {s : TransposeState}

/-- The groups take their places without overlap. -/
theorem Grouped.place_unique (h : Grouped n m x groups s) {lo lo' y y' : ℕ}
    (hlo : lo ∈ groups) (hlo' : lo' ∈ groups) (hy : y < n * s.inB) (hy' : y' < n * s.inB)
    (heq : n * lo + y = n * lo' + y') : lo = lo' ∧ y = y' := by
  have hlo_eq : lo = lo' := by
    rcases Nat.lt_trichotomy lo lo' with hlt | rfl | hgt
    · have hle := Nat.mul_le_mul_left n (h.apart.apart lo hlo lo' hlo' hlt)
      rw [Nat.mul_add] at hle
      omega
    · rfl
    · have hle := Nat.mul_le_mul_left n (h.apart.apart lo' hlo' lo hlo hgt)
      rw [Nat.mul_add] at hle
      omega
  exact ⟨hlo_eq, by rw [hlo_eq] at heq; omega⟩

theorem Grouped.place_lt (h : Grouped n m x groups s) (hm : n * m ≤ 64) {lo y : ℕ} (hlo : lo ∈ groups)
    (hy : y < n * s.inB) : n * lo + y < 64 := by
  have hle := Nat.mul_le_mul_left n (h.apart.below lo hlo)
  rw [Nat.mul_add] at hle
  omega

/-- A bit of a field is within its group. -/
theorem field_lt {n d inB i : ℕ} (hd : d < n) (hi : i < inB) : d * inB + i < n * inB := by
  have hle := Nat.mul_le_mul_right inB hd
  rw [Nat.succ_mul] at hle
  omega

/-- The bits of field `d` of every group. -/
theorem Grouped.getLsbD_field (h : Grouped n m x groups s) {d : ℕ} (hd : d < n) (p : ℕ) :
    (s.inCoords >>> (d * s.inB) &&& s.inMask).getLsbD p = true ↔
      ∃ lo ∈ groups, ∃ i < s.inB, p = n * lo + i ∧ fieldBit m x d (lo + i) = true := by
  rw [BitVec.getLsbD_and, Bool.and_eq_true, BitVec.getLsbD_ushiftRight, h.fields, h.mask]
  constructor
  · rintro ⟨⟨lo', hlo', d', hd', i', hi', heq, hbit⟩, lo, hlo, i, hi, rfl⟩
    have hplace := h.place_unique hlo hlo' (field_lt hd hi) (field_lt hd' hi') (by omega)
    have hdigit : d = d' ∧ i = i' := by
      have hpos : 0 < s.inB := Nat.zero_lt_of_lt hi
      have hquot := congrArg (· / s.inB) hplace.2
      have hrem := congrArg (· % s.inB) hplace.2
      simp only [Nat.mul_comm _ s.inB, Nat.mul_add_div hpos, Nat.div_eq_of_lt hi, Nat.div_eq_of_lt hi',
        Nat.add_zero, Nat.mul_add_mod, Nat.mod_eq_of_lt hi, Nat.mod_eq_of_lt hi'] at hquot hrem
      exact ⟨hquot, hrem⟩
    obtain ⟨rfl, rfl⟩ := hdigit
    obtain ⟨rfl, -⟩ := hplace
    exact ⟨lo, hlo, i, hi, rfl, hbit⟩
  · rintro ⟨lo, hlo, i, hi, rfl, hbit⟩
    exact ⟨⟨lo, hlo, d, hd, i, hi, by omega, hbit⟩, lo, hlo, i, hi, rfl⟩

/-- The starts of the groups after they were cut in two. -/
theorem Grouped.getLsbD_utFieldEnds (h : Grouped n m x groups s) (hm : n * m ≤ 64) (hn : 2 ≤ n)
    (hut : 0 < s.inB / 2) (p : ℕ) :
    (s.inFieldEnds ||| s.inFieldEnds <<< ((n - 1) * (s.inB / 2) + s.inB / 2)).getLsbD p = true ↔
      ∃ lo ∈ halves groups (s.inB / 2), p = n * lo := by
  have hwidth : (n - 1) * (s.inB / 2) + s.inB / 2 = n * (s.inB / 2) := by
    rw [← Nat.succ_mul, Nat.succ_eq_add_one, Nat.sub_add_cancel (by omega)]
  rw [BitVec.getLsbD_or, Bool.or_eq_true, BitVec.getLsbD_shiftLeft, Bool.and_eq_true, Bool.and_eq_true,
    h.fieldEnds, h.fieldEnds, hwidth]
  constructor
  · rintro (⟨lo, hlo, rfl⟩ | ⟨⟨-, hge⟩, lo, hlo, heq⟩)
    · exact ⟨lo, mem_halves.2 (Or.inl hlo), rfl⟩
    · have hge : ¬p < n * (s.inB / 2) := by simpa using hge
      exact ⟨lo + s.inB / 2, mem_halves.2 (Or.inr ⟨lo, hlo, rfl⟩), by rw [Nat.mul_add]; omega⟩
  · rintro ⟨lo, hlo, rfl⟩
    rcases mem_halves.1 hlo with hlo | ⟨lo', hlo', rfl⟩
    · exact Or.inl ⟨lo, hlo, rfl⟩
    · refine Or.inr ⟨⟨?_, ?_⟩, lo', hlo', by rw [Nat.mul_add]; omega⟩
      · have hlt : n * (s.inB / 2) < n * s.inB := Nat.mul_lt_mul_of_pos_left (by omega) (by omega)
        have hplace := h.place_lt hm hlo' hlt
        rw [Nat.mul_add]
        exact decide_eq_true hplace
      · rw [Nat.mul_add]
        simp

/-- The mask of the fields after the cut. -/
theorem Grouped.getLsbD_utMask (h : Grouped n m x groups s) (hm : n * m ≤ 64) (hn : 2 ≤ n)
    (hut : 0 < s.inB / 2) {utFieldEnds : Bitmask}
    (hends : ∀ p, utFieldEnds.getLsbD p = true ↔ ∃ lo ∈ halves groups (s.inB / 2), p = n * lo) (p : ℕ) :
    (utFieldEnds <<< (s.inB / 2) - utFieldEnds).getLsbD p = true ↔
      ∃ lo ∈ halves groups (s.inB / 2), ∃ i < s.inB / 2, p = n * lo + i := by
  have hhalves := apart_halves h.apart (Nat.mul_div_le s.inB 2)
  have hle : s.inB / 2 ≤ n * (s.inB / 2) := Nat.le_mul_of_pos_left _ (by omega)
  have hstarts : Fields.Apart ((halves groups (s.inB / 2)).image (n * ·)) (s.inB / 2) 64 := by
    refine ⟨fun a ha b hb hab => ?_, fun a ha => ?_⟩
    · rcases Finset.mem_image.1 ha with ⟨lo, hlo, rfl⟩
      rcases Finset.mem_image.1 hb with ⟨lo', hlo', rfl⟩
      have hmul := Nat.mul_le_mul_left n (hhalves.apart lo hlo lo' hlo' (Nat.lt_of_mul_lt_mul_left hab))
      rw [Nat.mul_add] at hmul
      omega
    · rcases Finset.mem_image.1 ha with ⟨lo, hlo, rfl⟩
      have hmul := Nat.mul_le_mul_left n (hhalves.below lo hlo)
      rw [Nat.mul_add] at hmul
      omega
  rw [hstarts.getLsbD_mask hut fun p => ?_]
  · constructor
    · rintro ⟨a, ha, i, hi, rfl⟩
      rcases Finset.mem_image.1 ha with ⟨lo, hlo, rfl⟩
      exact ⟨lo, hlo, i, hi, rfl⟩
    · rintro ⟨lo, hlo, i, hi, rfl⟩
      exact ⟨n * lo, Finset.mem_image_of_mem _ hlo, i, hi, rfl⟩
  · rw [hends, Finset.mem_image]
    exact ⟨fun ⟨lo, hlo, heq⟩ => ⟨lo, hlo, heq.symm⟩, fun ⟨lo, hlo, heq⟩ => ⟨lo, hlo, heq.symm⟩⟩

/-- The lower halves stay where they are and the upper halves are shifted; what else the shift moves is not
under the mask. -/
theorem Grouped.getLsbD_halved (h : Grouped n m x groups s) (hm : n * m ≤ 64) (hn : 2 ≤ n) {d : ℕ}
    {rest utMask : Bitmask}
    (hrest : ∀ p, rest.getLsbD p = true ↔ ∃ lo ∈ groups, ∃ i < 2 * (s.inB / 2),
      p = n * lo + i ∧ fieldBit m x d (lo + i) = true)
    (hmask : ∀ p, utMask.getLsbD p = true ↔
      ∃ lo ∈ halves groups (s.inB / 2), ∃ i < s.inB / 2, p = n * lo + i) (p : ℕ) :
    ((rest ||| rest <<< ((n - 1) * (s.inB / 2))) &&& utMask).getLsbD p = true ↔
      ∃ lo ∈ halves groups (s.inB / 2), ∃ i < s.inB / 2,
        p = n * lo + i ∧ fieldBit m x d (lo + i) = true := by
  have hwidth : (n - 1) * (s.inB / 2) + s.inB / 2 = n * (s.inB / 2) := by
    rw [← Nat.succ_mul, Nat.succ_eq_add_one, Nat.sub_add_cancel (by omega)]
  have hshift : s.inB / 2 ≤ (n - 1) * (s.inB / 2) := Nat.le_mul_of_pos_left _ (by omega)
  have hgroup : 2 * (n * (s.inB / 2)) ≤ n * s.inB := by
    rw [Nat.mul_left_comm]
    exact Nat.mul_le_mul_left n (Nat.mul_div_le s.inB 2)
  rw [BitVec.getLsbD_and, Bool.and_eq_true, BitVec.getLsbD_or, Bool.or_eq_true, BitVec.getLsbD_shiftLeft,
    Bool.and_eq_true, Bool.and_eq_true, hmask, hrest, hrest]
  constructor
  · rintro ⟨hbits, lo, hlo, i, hi, rfl⟩
    refine ⟨lo, hlo, i, hi, rfl, ?_⟩
    rcases mem_halves.1 hlo with hlow | ⟨lo', hlo', rfl⟩
    · rcases hbits with ⟨lo₂, hlo₂, i₂, hi₂, heq, hbit⟩ | ⟨⟨-, hge⟩, lo₂, hlo₂, i₂, hi₂, heq, hbit⟩
      · obtain ⟨rfl, rfl⟩ := h.place_unique hlow hlo₂ (by omega) (by omega) heq
        exact hbit
      · -- an upper half does not get here
        have hge : ¬n * lo + i < (n - 1) * (s.inB / 2) := by simpa using hge
        have hplace := h.place_unique hlow hlo₂ (show i < n * s.inB by omega)
          (show i₂ + (n - 1) * (s.inB / 2) < n * s.inB by omega) (by omega)
        omega
    · rcases hbits with ⟨lo₂, hlo₂, i₂, hi₂, heq, hbit⟩ | ⟨⟨-, hge⟩, lo₂, hlo₂, i₂, hi₂, heq, hbit⟩
      · -- nor does a lower half get there
        have hplace := h.place_unique hlo' hlo₂ (show n * (s.inB / 2) + i < n * s.inB by omega)
          (show i₂ < n * s.inB by omega) (by rw [← heq, Nat.mul_add]; omega)
        omega
      · have hge : ¬n * (lo' + s.inB / 2) + i < (n - 1) * (s.inB / 2) := by simpa using hge
        obtain ⟨rfl, rfl⟩ := h.place_unique hlo' hlo₂ (show s.inB / 2 + i < n * s.inB by omega)
          (show i₂ < n * s.inB by omega) (by rw [Nat.mul_add] at heq hge; omega)
        rwa [Nat.add_assoc]
  · rintro ⟨lo, hlo, i, hi, rfl, hbit⟩
    refine ⟨?_, lo, hlo, i, hi, rfl⟩
    rcases mem_halves.1 hlo with hlow | ⟨lo', hlo', rfl⟩
    · exact Or.inl ⟨lo, hlow, i, by omega, rfl, hbit⟩
    · refine Or.inr ⟨⟨?_, ?_⟩, lo', hlo', s.inB / 2 + i, by omega, ?_, by rwa [← Nat.add_assoc]⟩
      · have hplace := h.place_lt hm hlo' (show n * (s.inB / 2) + i < n * s.inB by omega)
        rw [Nat.mul_add]
        exact decide_eq_true (by omega)
      · rw [Nat.mul_add]
        simp only [Bool.not_eq_true', decide_eq_false_iff_not]
        omega
      · rw [Nat.mul_add]
        omega

/-! ## The loop over the fields -/

/-- The highest bits of the fields of every group. -/
theorem Grouped.getLsbD_inFieldStarts (h : Grouped n m x groups s) (hm : n * m ≤ 64) (hn : 2 ≤ n)
    (hpos : 0 < s.inB) (p : ℕ) :
    (s.inFieldEnds <<< (s.inB - 1)).getLsbD p = true ↔ ∃ lo ∈ groups, p = n * lo + (s.inB - 1) := by
  have hle : s.inB ≤ n * s.inB := Nat.le_mul_of_pos_left _ (by omega)
  rw [BitVec.getLsbD_shiftLeft, Bool.and_eq_true, Bool.and_eq_true, h.fieldEnds]
  constructor
  · rintro ⟨⟨-, hge⟩, lo, hlo, heq⟩
    have hge : ¬p < s.inB - 1 := by simpa using hge
    exact ⟨lo, hlo, by omega⟩
  · rintro ⟨lo, hlo, rfl⟩
    have hplace := h.place_lt hm hlo (show s.inB - 1 < n * s.inB by omega)
    exact ⟨⟨decide_eq_true hplace, by simp⟩, lo, hlo, by omega⟩

/-- The fields up to `d` are cut. -/
structure CutUpTo (n m : ℕ) (x : Bitmask) (groups : Finset ℕ) (s : TransposeState) (d : ℕ)
    (r : FieldState) : Prop where
  inCoords : r.inCoords = s.inCoords >>> (d * s.inB)
  coords : ∀ p, r.coords.getLsbD p = true ↔ s.coords.getLsbD p = true ∨
    s.inB % 2 = 1 ∧ ∃ lo ∈ groups, ∃ d' < d, p = n * (lo + (s.inB - 1)) + d' ∧
      fieldBit m x d' (lo + (s.inB - 1)) = true
  utCoords : ∀ p, r.utCoords.getLsbD p = true ↔ ∃ lo ∈ halves groups (s.inB / 2), ∃ d' < d,
    ∃ i < s.inB / 2, p = n * lo + (d' * (s.inB / 2) + i) ∧ fieldBit m x d' (lo + i) = true

/-- The halves of field `d` are added to those of the fields before. -/
theorem CutUpTo.utCoords_step {d : ℕ} {r : FieldState} (hr : CutUpTo n m x groups s d r)
    (h : Grouped n m x groups s) (hm : n * m ≤ 64) (hd : d < n) {halved : Bitmask}
    (hhalved : ∀ p, halved.getLsbD p = true ↔ ∃ lo ∈ halves groups (s.inB / 2), ∃ i < s.inB / 2,
      p = n * lo + i ∧ fieldBit m x d (lo + i) = true) (p : ℕ) :
    (r.utCoords ||| halved <<< (d * (s.inB / 2))).getLsbD p = true ↔
      ∃ lo ∈ halves groups (s.inB / 2), ∃ d' < d + 1, ∃ i < s.inB / 2,
        p = n * lo + (d' * (s.inB / 2) + i) ∧ fieldBit m x d' (lo + i) = true := by
  rw [BitVec.getLsbD_or, Bool.or_eq_true, BitVec.getLsbD_shiftLeft, Bool.and_eq_true, Bool.and_eq_true,
    hr.utCoords, hhalved]
  constructor
  · rintro (⟨lo, hlo, d', hd', hrest⟩ | ⟨⟨-, hge⟩, lo, hlo, i, hi, heq, hbit⟩)
    · exact ⟨lo, hlo, d', by omega, hrest⟩
    · have hge : ¬p < d * (s.inB / 2) := by simpa using hge
      exact ⟨lo, hlo, d, Nat.lt_succ_self d, i, hi, by omega, hbit⟩
  · rintro ⟨lo, hlo, d', hd', i, hi, rfl, hbit⟩
    rcases Nat.lt_or_eq_of_le (Nat.lt_succ_iff.1 hd') with hlt | rfl
    · exact Or.inl ⟨lo, hlo, d', hlt, i, hi, rfl, hbit⟩
    · refine Or.inr ⟨⟨decide_eq_true ?_, by simp; omega⟩, lo, hlo, i, hi, by omega, hbit⟩
      have hhalves := apart_halves h.apart (Nat.mul_div_le s.inB 2)
      have hfield := field_lt hd hi
      have hle := Nat.mul_le_mul_left n (hhalves.below lo hlo)
      rw [Nat.mul_add] at hle
      omega

/-- The bits of field `d` without the highest one of an odd number. -/
theorem Grouped.getLsbD_rest (h : Grouped n m x groups s) (hm : n * m ≤ 64) (hn : 2 ≤ n)
    (hodd : s.inB % 2 = 1) {d : ℕ} {field : Bitmask}
    (hfield : ∀ p, field.getLsbD p = true ↔ ∃ lo ∈ groups, ∃ i < s.inB,
      p = n * lo + i ∧ fieldBit m x d (lo + i) = true) (p : ℕ) :
    (field &&& ~~~(s.inFieldEnds <<< (s.inB - 1))).getLsbD p = true ↔
      ∃ lo ∈ groups, ∃ i < 2 * (s.inB / 2), p = n * lo + i ∧ fieldBit m x d (lo + i) = true := by
  have hstarts := h.getLsbD_inFieldStarts hm hn (by omega) p
  have hle : s.inB ≤ n * s.inB := Nat.le_mul_of_pos_left _ (by omega)
  rw [BitVec.getLsbD_and, Bool.and_eq_true, hfield, BitVec.getLsbD_not, Bool.and_eq_true,
    Bool.not_eq_true', Bool.eq_false_iff, ne_eq, hstarts]
  constructor
  · rintro ⟨⟨lo, hlo, i, hi, rfl, hbit⟩, -, hnot⟩
    refine ⟨lo, hlo, i, ?_, rfl, hbit⟩
    by_contra hge
    exact hnot ⟨lo, hlo, by omega⟩
  · rintro ⟨lo, hlo, i, hi, rfl, hbit⟩
    refine ⟨⟨lo, hlo, i, by omega, rfl, hbit⟩, ?_, ?_⟩
    · exact decide_eq_true (h.place_lt hm hlo (show i < n * s.inB by omega))
    · rintro ⟨lo', hlo', heq⟩
      have hplace := h.place_unique hlo hlo' (show i < n * s.inB by omega)
        (show s.inB - 1 < n * s.inB by omega) heq
      omega

/-- The highest bit of field `d`, moved to its place. -/
theorem Grouped.getLsbD_moved (h : Grouped n m x groups s) (hm : n * m ≤ 64) (hn : 2 ≤ n)
    (hodd : s.inB % 2 = 1) {d : ℕ} (hd : d < n) {field : Bitmask}
    (hfield : ∀ p, field.getLsbD p = true ↔ ∃ lo ∈ groups, ∃ i < s.inB,
      p = n * lo + i ∧ fieldBit m x d (lo + i) = true) (p : ℕ) :
    ((field &&& s.inFieldEnds <<< (s.inB - 1)) <<< (2 * ((n - 1) * (s.inB / 2)) + d)).getLsbD p = true ↔
      ∃ lo ∈ groups, p = n * (lo + (s.inB - 1)) + d ∧ fieldBit m x d (lo + (s.inB - 1)) = true := by
  have hstarts := h.getLsbD_inFieldStarts hm hn (by omega)
  have hle : s.inB ≤ n * s.inB := Nat.le_mul_of_pos_left _ (by omega)
  have hwidth : 2 * ((n - 1) * (s.inB / 2)) + (s.inB - 1) = n * (s.inB - 1) := by
    have hhalf : s.inB - 1 = 2 * (s.inB / 2) := by omega
    rw [hhalf, Nat.mul_left_comm 2, ← Nat.succ_mul, Nat.succ_eq_add_one, Nat.sub_add_cancel (by omega)]
  rw [BitVec.getLsbD_shiftLeft, Bool.and_eq_true, Bool.and_eq_true, BitVec.getLsbD_and, Bool.and_eq_true,
    hfield, hstarts]
  constructor
  · rintro ⟨⟨-, hge⟩, ⟨lo, hlo, i, hi, heq, hbit⟩, lo', hlo', heq'⟩
    have hge : ¬p < 2 * ((n - 1) * (s.inB / 2)) + d := by simpa using hge
    obtain ⟨rfl, rfl⟩ := h.place_unique hlo hlo' (show i < n * s.inB by omega)
      (show s.inB - 1 < n * s.inB by omega) (heq.symm.trans heq')
    exact ⟨lo, hlo, by rw [Nat.mul_add]; omega, hbit⟩
  · rintro ⟨lo, hlo, rfl, hbit⟩
    have hlast : n * (s.inB - 1) + n = n * s.inB := by
      rw [← Nat.mul_succ, Nat.succ_eq_add_one, Nat.sub_add_cancel (by omega)]
    have hplace := h.place_lt hm hlo (show n * (s.inB - 1) + d < n * s.inB by omega)
    rw [Nat.mul_add]
    refine ⟨⟨decide_eq_true (by omega), ?_⟩, ⟨lo, hlo, s.inB - 1, by omega, by omega, hbit⟩, lo, hlo,
      by omega⟩
    simp only [Bool.not_eq_true', decide_eq_false_iff_not]
    omega

theorem CutUpTo.step {d : ℕ} {r : FieldState} (hr : CutUpTo n m x groups s d r)
    (h : Grouped n m x groups s) (hm : n * m ≤ 64) (hn : 2 ≤ n) (hd : d < n)
    {utMask : Bitmask} (hmask : ∀ p, utMask.getLsbD p = true ↔
      ∃ lo ∈ halves groups (s.inB / 2), ∃ i < s.inB / 2, p = n * lo + i) :
    CutUpTo n m x groups s (d + 1)
      (splitField ((n - 1) * (s.inB / 2)) s.inB (s.inB / 2) s.inFieldEnds s.inMask utMask r d) := by
  have hfield := h.getLsbD_field hd
  rw [← hr.inCoords] at hfield
  have hshifted : r.inCoords >>> s.inB = s.inCoords >>> ((d + 1) * s.inB) := by
    rw [hr.inCoords, ← BitVec.shiftRight_add, Nat.succ_mul]
  rw [splitField]
  split
  · next hodd =>
      have hrest := h.getLsbD_rest hm hn hodd hfield
      have hmoved := h.getLsbD_moved hm hn hodd hd hfield
      refine ⟨hshifted, fun p => ?_, hr.utCoords_step h hm hd (h.getLsbD_halved hm hn hrest hmask)⟩
      rw [BitVec.getLsbD_or, Bool.or_eq_true, hr.coords, hmoved, or_assoc]
      refine or_congr_right ?_
      constructor
      · rintro (⟨-, lo, hlo, d', hd', hrest⟩ | ⟨lo, hlo, hrest⟩)
        · exact ⟨hodd, lo, hlo, d', by omega, hrest⟩
        · exact ⟨hodd, lo, hlo, d, Nat.lt_succ_self d, hrest⟩
      · rintro ⟨-, lo, hlo, d', hd', hbit⟩
        rcases Nat.lt_or_eq_of_le (Nat.lt_succ_iff.1 hd') with hlt | rfl
        · exact Or.inl ⟨hodd, lo, hlo, d', hlt, hbit⟩
        · exact Or.inr ⟨lo, hlo, hbit⟩
  · next heven =>
      have hrest : ∀ p, (r.inCoords &&& s.inMask).getLsbD p = true ↔
          ∃ lo ∈ groups, ∃ i < 2 * (s.inB / 2), p = n * lo + i ∧ fieldBit m x d (lo + i) = true := by
        rw [show 2 * (s.inB / 2) = s.inB by omega]
        exact hfield
      refine ⟨hshifted, fun p => ?_, hr.utCoords_step h hm hd (h.getLsbD_halved hm hn hrest hmask)⟩
      rw [hr.coords]
      simp [heven]

theorem cutUpTo (h : Grouped n m x groups s) (hm : n * m ≤ 64) (hn : 2 ≤ n) {utMask : Bitmask}
    (hmask : ∀ p, utMask.getLsbD p = true ↔
      ∃ lo ∈ halves groups (s.inB / 2), ∃ i < s.inB / 2, p = n * lo + i) {d : ℕ} (hd : d ≤ n) :
    CutUpTo n m x groups s d
      ((List.range d).foldl
        (splitField ((n - 1) * (s.inB / 2)) s.inB (s.inB / 2) s.inFieldEnds s.inMask utMask)
        { inCoords := s.inCoords, coords := s.coords, utCoords := 0 }) := by
  induction d with
  | zero => exact ⟨by simp, by simp, by simp⟩
  | succ d ih =>
      rw [List.range_succ, List.foldl_append]
      exact (ih (by omega)).step h hm hn (by omega) hmask

/-- A round keeps the bits in groups. -/
theorem Grouped.halveFields (h : Grouped n m x groups s) (hm : n * m ≤ 64) (hn : 2 ≤ n)
    (hut : 0 < s.inB / 2) :
    Grouped n m x (halves groups (s.inB / 2)) (DataSpaces.halveFields n s) := by
  have hends := h.getLsbD_utFieldEnds hm hn hut
  have hmask := h.getLsbD_utMask hm hn hut hends
  have hcut := cutUpTo h hm hn hmask le_rfl
  refine ⟨apart_halves h.apart (Nat.mul_div_le s.inB 2), hends, hmask, hcut.utCoords, fun p => ?_⟩
  refine (hcut.coords p).trans ?_
  rw [h.placed]
  constructor
  · rintro (⟨d, hd, k, hk, rfl, hout, hbit⟩ | ⟨hodd, lo, hlo, d, hd, rfl, hbit⟩)
    · refine ⟨d, hd, k, hk, rfl, fun lo hlo hin => ?_, hbit⟩
      simp only [DataSpaces.halveFields] at hin
      rcases mem_halves.1 hlo with hlo | ⟨lo', hlo', rfl⟩
      · exact hout lo hlo (by omega)
      · exact hout lo' hlo' (by omega)
    · have hbelow := h.apart.below lo hlo
      refine ⟨d, hd, lo + (s.inB - 1), by omega, rfl, fun lo₂ hlo₂ hin => ?_, hbit⟩
      simp only [DataSpaces.halveFields] at hin
      rcases mem_halves.1 hlo₂ with hlo₂ | ⟨lo', hlo', rfl⟩
      · have hplace := h.apart.unique hlo hlo₂ (show s.inB - 1 < s.inB by omega)
          (show lo + (s.inB - 1) - lo₂ < s.inB by omega) (by omega)
        omega
      · have hplace := h.apart.unique hlo hlo' (show s.inB - 1 < s.inB by omega)
          (show lo + (s.inB - 1) - lo' < s.inB by omega) (by omega)
        omega
  · rintro ⟨d, hd, k, hk, rfl, hout, hbit⟩
    by_cases hgroup : ∃ lo ∈ groups, lo ≤ k ∧ k < lo + s.inB
    · -- in no half of its group, so the bit between them
      rcases hgroup with ⟨lo, hlo, hle, hlt⟩
      have hlow := hout lo (mem_halves.2 (Or.inl hlo))
      have hhigh := hout (lo + s.inB / 2) (mem_halves.2 (Or.inr ⟨lo, hlo, rfl⟩))
      simp only [DataSpaces.halveFields] at hlow hhigh
      have hk_eq : k = lo + (s.inB - 1) := by omega
      exact Or.inr ⟨by omega, lo, hlo, d, hd, by rw [hk_eq], by rw [← hk_eq]; exact hbit⟩
    · exact Or.inl ⟨d, hd, k, hk, rfl, fun lo hlo hin => hgroup ⟨lo, hlo, hin⟩, hbit⟩

/-- The loop ends with fields of at most one bit. -/
theorem Grouped.transposeLoop (hm : n * m ≤ 64) (hn : 2 ≤ n) {fuel : ℕ} :
    ∀ {groups : Finset ℕ} {s : TransposeState}, Grouped n m x groups s → s.inB < 2 ^ (fuel + 1) →
      ∃ groups', Grouped n m x groups' (transposeLoop n fuel s) ∧
        (DataSpaces.transposeLoop n fuel s).inB / 2 = 0 ∧
        (0 < s.inB → 0 < (DataSpaces.transposeLoop n fuel s).inB) := by
  induction fuel with
  | zero =>
      intro groups s h hlt
      have hlt : s.inB < 2 := hlt
      exact ⟨groups, h, by show s.inB / 2 = 0; omega, fun hpos => hpos⟩
  | succ fuel ih =>
      intro groups s h hlt
      rw [DataSpaces.transposeLoop]
      split
      · next hzero => exact ⟨groups, h, hzero, fun hpos => hpos⟩
      · next hpos =>
          have hut : 0 < s.inB / 2 := Nat.pos_of_ne_zero hpos
          have hround := h.halveFields hm hn hut
          rcases ih hround (by show s.inB / 2 < _; rw [Nat.pow_succ] at hlt; omega) with
            ⟨groups', hg, hend, hpos'⟩
          exact ⟨groups', hg, hend, fun _ => hpos' hut⟩

end Round

/-! ## The transposition -/

/-- Bit `k` of field `d` becomes bit `d` of field `k`. -/
theorem getLsbD_bitTranspose {n m : ℕ} (hn : 2 ≤ n) (hpos : 0 < m) (hm : n * m ≤ 64) {x : Bitmask}
    (hx : ∀ p, n * m ≤ p → x.getLsbD p = false) (p : ℕ) :
    (bitTranspose n m x).getLsbD p = true ↔
      ∃ d < n, ∃ k < m, p = n * k + d ∧ x.getLsbD (m * d + k) = true := by
  have hmle : m ≤ 64 := (Nat.le_mul_of_pos_left m (by omega)).trans hm
  -- before the loop there is one group, which starts at bit 0
  have hstart : Grouped n m x {0} (transposeStart m x) := by
    refine ⟨⟨?_, ?_⟩, fun p => ?_, fun p => ?_, fun p => ?_, fun p => ?_⟩
    · intro a ha b hb hab
      rw [Finset.mem_singleton.1 ha, Finset.mem_singleton.1 hb] at hab
      exact absurd hab (Nat.lt_irrefl 0)
    · intro a ha
      rw [Finset.mem_singleton.1 ha, Nat.zero_add]
      exact le_rfl
    · simp [transposeStart, BitVec.getLsbD_one]
    · simp only [transposeStart]
      rw [getLsbD_ones (by decide) hpos hmle]
      simp
    · simp only [transposeStart]
      constructor
      · intro hp
        have hlt : p < n * m := by
          by_contra hge
          rw [hx p (Nat.not_lt.1 hge)] at hp
          exact Bool.false_ne_true hp
        refine ⟨0, Finset.mem_singleton_self 0, p / m, ?_, p % m, Nat.mod_lt p hpos, ?_, ?_⟩
        · rwa [Nat.div_lt_iff_lt_mul hpos]
        · rw [Nat.mul_zero, Nat.zero_add, Nat.div_add_mod']
        · rw [fieldBit, Nat.zero_add, Nat.div_add_mod]
          exact hp
      · rintro ⟨lo, hlo, d, -, i, -, rfl, hbit⟩
        rw [Finset.mem_singleton.1 hlo] at hbit ⊢
        rw [Nat.mul_zero, Nat.zero_add, Nat.mul_comm d m]
        rwa [fieldBit, Nat.zero_add] at hbit
    · simp only [transposeStart]
      constructor
      · intro hp
        rw [BitVec.ofNat_eq_ofNat, BitVec.getLsbD_zero] at hp
        cases hp
      · rintro ⟨d, -, k, hk, -, hout, -⟩
        exact absurd ⟨Nat.zero_le k, by rwa [Nat.zero_add]⟩ (hout 0 (Finset.mem_singleton_self 0))
  -- the loop ends with groups of one bit, each in its place
  have hfuel : m < 2 ^ (m + 1) := Nat.lt_two_pow_self.trans (Nat.pow_lt_pow_right Nat.one_lt_two (by omega))
  rcases hstart.transposeLoop hm hn hfuel with ⟨groups, h, hend, hinB⟩
  have hone : (transposeLoop n m (transposeStart m x)).inB = 1 := by
    have := hinB hpos
    omega
  rw [bitTranspose, BitVec.getLsbD_or, Bool.or_eq_true, h.placed, h.fields, hone]
  constructor
  · rintro (⟨d, hd, k, hk, rfl, -, hbit⟩ | ⟨lo, hlo, d, hd, i, hi, rfl, hbit⟩)
    · exact ⟨d, hd, k, hk, rfl, hbit⟩
    · have hbelow := h.apart.below lo hlo
      rw [Nat.lt_one_iff.1 hi] at hbit ⊢
      exact ⟨d, hd, lo, by omega, by omega, hbit⟩
  · rintro ⟨d, hd, k, hk, rfl, hbit⟩
    by_cases hgroup : k ∈ groups
    · exact Or.inr ⟨k, hgroup, d, hd, 0, Nat.one_pos, by omega, hbit⟩
    · refine Or.inl ⟨d, hd, k, hk, rfl, fun lo hlo hin => hgroup ?_, hbit⟩
      rwa [show k = lo by omega]

theorem getLsbD_bitTranspose_field {n m : ℕ} (hn : 2 ≤ n) (hpos : 0 < m) (hm : n * m ≤ 64) {x : Bitmask}
    (hx : ∀ p, n * m ≤ p → x.getLsbD p = false) {d k : ℕ} (hd : d < n) (hk : k < m) :
    (bitTranspose n m x).getLsbD (n * k + d) = x.getLsbD (m * d + k) := by
  rw [Bool.eq_iff_iff, getLsbD_bitTranspose hn hpos hm hx]
  constructor
  · rintro ⟨d', hd', k', hk', heq, hbit⟩
    have hquot := congrArg (· / n) heq
    have hrem := congrArg (· % n) heq
    simp only [Nat.mul_add_div (show 0 < n by omega), Nat.div_eq_of_lt hd, Nat.div_eq_of_lt hd',
      Nat.add_zero, Nat.mul_add_mod, Nat.mod_eq_of_lt hd, Nat.mod_eq_of_lt hd'] at hquot hrem
    rwa [hquot, hrem]
  · intro hbit
    exact ⟨d, hd, k, hk, rfl, hbit⟩

/-! ## The plain version -/

theorem getLsbD_rdbit (x : Bitmask) (k p : ℕ) :
    (rdbit x k).getLsbD p = true ↔ p = 0 ∧ x.getLsbD k = true := by
  rw [rdbit, BitVec.getLsbD_and, Bool.and_eq_true, BitVec.getLsbD_ushiftRight]
  have hone : (1 : Bitmask).getLsbD p = true ↔ p = 0 := by simp [BitVec.getLsbD_one]
  rw [hone]
  constructor
  · rintro ⟨hbit, rfl⟩
    exact ⟨rfl, by rwa [Nat.add_zero] at hbit⟩
  · rintro ⟨rfl, hbit⟩
    exact ⟨by rwa [Nat.add_zero], rfl⟩

/-- The bits of one field, when those from bit `b` on are there. -/
theorem getLsbD_spreadField {n m : ℕ} (hn : 0 < n) (hm : n * m ≤ 64) (field : Bitmask) {b : ℕ} :
    ∀ (out : Bitmask), b ≤ m →
      (∀ p, out.getLsbD p = true ↔ ∃ k, b ≤ k ∧ k < m ∧ p = n * (k - b) ∧ field.getLsbD k = true) →
      ∀ p, (spreadField n field b out).getLsbD p = true ↔ ∃ k < m, p = n * k ∧ field.getLsbD k = true := by
  induction b with
  | zero =>
      intro out _ hout p
      rw [spreadField, hout]
      simp
  | succ b ih =>
      intro out hb hout
      refine ih _ (by omega) fun p => ?_
      rw [BitVec.getLsbD_or, Bool.or_eq_true, BitVec.getLsbD_shiftLeft, Bool.and_eq_true,
        Bool.and_eq_true, hout, getLsbD_rdbit]
      constructor
      · rintro (⟨⟨-, hge⟩, k, hbk, hk, heq, hbit⟩ | ⟨rfl, hbit⟩)
        · have hge : ¬p < n := by simpa using hge
          refine ⟨k, by omega, hk, ?_, hbit⟩
          rw [show k - b = k - (b + 1) + 1 by omega, Nat.mul_succ]
          omega
        · exact ⟨b, le_rfl, hb, by rw [Nat.sub_self, Nat.mul_zero], hbit⟩
      · rintro ⟨k, hbk, hk, rfl, hbit⟩
        rcases Nat.lt_or_eq_of_le hbk with hlt | rfl
        · have hplace : n * (k - b) < n * m := Nat.mul_lt_mul_of_pos_left (by omega) hn
          have hstep : n * (k - b) = n * (k - (b + 1)) + n := by
            rw [← Nat.mul_succ, Nat.succ_eq_add_one, show k - (b + 1) + 1 = k - b by omega]
          refine Or.inl ⟨⟨decide_eq_true (by omega), ?_⟩, k, hlt, hk, by omega, hbit⟩
          simp only [Bool.not_eq_true', decide_eq_false_iff_not]
          omega
        · exact Or.inr ⟨by rw [Nat.sub_self, Nat.mul_zero], hbit⟩

theorem getLsbD_bitTransposePlain {n m : ℕ} (hn : 0 < n) (hpos : 0 < m) (hm : n * m ≤ 64) (x : Bitmask)
    (p : ℕ) : (bitTransposePlain n m x).getLsbD p = true ↔
      ∃ d < n, ∃ k < m, p = n * k + d ∧ x.getLsbD (m * d + k) = true := by
  have hmle : m ≤ 64 := (Nat.le_mul_of_pos_left m hn).trans hm
  -- after the fields below `d` the word holds their bits and no other
  have hloop : ∀ d ≤ n, ∃ coords : Bitmask,
      (List.range d).foldl (fun (s : Bitmask × Bitmask) d =>
        (s.1 >>> m, s.2 ||| spreadField n (s.1 &&& ones 64 m) m 0 <<< d)) (x, 0) =
        (x >>> (d * m), coords) ∧
      ∀ p, coords.getLsbD p = true ↔ ∃ d' < d, ∃ k < m, p = n * k + d' ∧ x.getLsbD (m * d' + k) = true := by
    intro d
    induction d with
    | zero => exact fun _ => ⟨0, by simp, by simp⟩
    | succ d ih =>
        intro hd
        rcases ih (by omega) with ⟨coords, hfold, hcoords⟩
        rw [List.range_succ, List.foldl_append, hfold]
        refine ⟨_, Prod.ext ?_ rfl, fun p => ?_⟩
        · rw [List.foldl_cons, List.foldl_nil, ← BitVec.shiftRight_add, Nat.succ_mul]
        · have hfield : ∀ k, (x >>> (d * m) &&& ones 64 m).getLsbD k = true ↔
              k < m ∧ x.getLsbD (m * d + k) = true := by
            intro k
            rw [BitVec.getLsbD_and, Bool.and_eq_true, BitVec.getLsbD_ushiftRight,
              getLsbD_ones (by decide) hpos hmle, decide_eq_true_eq, and_comm, Nat.mul_comm d m]
          have hspread := getLsbD_spreadField hn hm (x >>> (d * m) &&& ones 64 m) 0 le_rfl
            (fun p => by
              simp only [BitVec.ofNat_eq_ofNat, BitVec.getLsbD_zero, Bool.false_eq_true, false_iff]
              rintro ⟨k, hmk, hk, -⟩
              omega)
          simp only [List.foldl_cons, List.foldl_nil]
          rw [BitVec.getLsbD_or, Bool.or_eq_true, hcoords, BitVec.getLsbD_shiftLeft, Bool.and_eq_true,
            Bool.and_eq_true, hspread]
          constructor
          · rintro (⟨d', hd', hrest⟩ | ⟨⟨-, hge⟩, k, hk, heq, hbit⟩)
            · exact ⟨d', by omega, hrest⟩
            · have hge : ¬p < d := by simpa using hge
              exact ⟨d, Nat.lt_succ_self d, k, hk, by omega, ((hfield k).1 hbit).2⟩
          · rintro ⟨d', hd', k, hk, rfl, hbit⟩
            rcases Nat.lt_or_eq_of_le (Nat.lt_succ_iff.1 hd') with hlt | rfl
            · exact Or.inl ⟨d', hlt, k, hk, rfl, hbit⟩
            · have hplace := Nat.mul_le_mul_left n hk
              rw [Nat.mul_succ] at hplace
              exact Or.inr ⟨⟨decide_eq_true (by omega), by simp⟩, k, hk, by omega,
                (hfield k).2 ⟨hk, hbit⟩⟩
  rcases hloop n le_rfl with ⟨coords, hfold, hcoords⟩
  rw [bitTransposePlain, hfold]
  exact hcoords p

/-- The two versions agree. -/
theorem bitTranspose_eq_plain {n m : ℕ} (hn : 2 ≤ n) (hpos : 0 < m) (hm : n * m ≤ 64) {x : Bitmask}
    (hx : ∀ p, n * m ≤ p → x.getLsbD p = false) : bitTranspose n m x = bitTransposePlain n m x := by
  refine BitVec.eq_of_getLsbD_eq fun p _ => Bool.eq_iff_iff.2 ?_
  rw [getLsbD_bitTranspose hn hpos hm hx, getLsbD_bitTransposePlain (by omega) hpos hm]

/-- Five fields of twelve bits. -/
theorem bitTranspose_eq_plain_fields :
    bitTranspose 5 12 0x123456789abcdef#64 = bitTransposePlain 5 12 0x123456789abcdef#64 :=
  bitTranspose_eq_plain (by decide) (by decide) (by decide) fun _ hp =>
    Nat.testBit_lt_two_pow (lt_of_lt_of_le (by decide : 0x123456789abcdef < 2 ^ 60)
      (Nat.pow_le_pow_right (by decide) hp))

end DataSpaces
