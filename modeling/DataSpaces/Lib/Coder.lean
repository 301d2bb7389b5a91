import Mathlib.Data.Nat.Digits.Defs
import Mathlib.Logic.Equiv.Defs

/-!
# Coder — recoding a number digit by digit

A coder replaces the digits of a number one after the other, from the highest one down.  How it replaces a
digit depends on the digits above it and can be undone.  So the numbers with given highest digits, which are
consecutive, stay together: they become all the numbers with the replaced digits.
-/

/-- A coder replaces a digit according to its state, and the digit decides on the next state. -/
structure Coder (σ α β : Type*) where
  out : σ → α ≃ β
  next : σ → α → σ

namespace Coder

/-! ## Numbers from their digits -/

variable {B : ℕ}

/-- The number with the given digits, the highest one first. -/
def number (ds : List (Fin B)) : ℕ :=
  Nat.ofDigits B (ds.map Fin.val).reverse

@[simp] theorem number_nil : number ([] : List (Fin B)) = 0 := rfl

theorem number_cons (d : Fin B) (ds : List (Fin B)) :
    number (d :: ds) = d * B ^ ds.length + number ds := by
  rw [number, List.map_cons, Nat.ofDigits_reverse_cons, number, List.length_map, Nat.mul_comm,
    Nat.add_comm]

theorem number_append (ds es : List (Fin B)) :
    number (ds ++ es) = number ds * B ^ es.length + number es := by
  rw [number, List.map_append, List.reverse_append, Nat.ofDigits_append, List.length_reverse,
    List.length_map, Nat.mul_comm, Nat.add_comm]
  rfl

theorem number_lt (ds : List (Fin B)) : number ds < B ^ ds.length := by
  induction ds with
  | nil => simp
  | cons d ds ih =>
      have hd : (d : ℕ) + 1 ≤ B := d.isLt
      calc number (d :: ds) = d * B ^ ds.length + number ds := number_cons d ds
        _ < (d + 1) * B ^ ds.length := by rw [Nat.succ_mul]; exact Nat.add_lt_add_left ih _
        _ ≤ B * B ^ ds.length := Nat.mul_le_mul_right _ hd
        _ = B ^ (d :: ds).length := by rw [List.length_cons, Nat.pow_succ, Nat.mul_comm]

/-- The highest digit and the rest of the number. -/
theorem number_cons_div (d : Fin B) (ds : List (Fin B)) :
    number (d :: ds) / B ^ ds.length = d ∧ number (d :: ds) % B ^ ds.length = number ds := by
  have hpos : 0 < B ^ ds.length := Nat.zero_lt_of_lt (number_lt ds)
  rw [number_cons, Nat.add_comm]
  exact ⟨by rw [Nat.add_mul_div_right _ _ hpos, Nat.div_eq_of_lt (number_lt ds), Nat.zero_add],
    by rw [Nat.add_mul_mod_self_right, Nat.mod_eq_of_lt (number_lt ds)]⟩

theorem number_injective {ds : List (Fin B)} : ∀ {es : List (Fin B)}, ds.length = es.length →
    number ds = number es → ds = es := by
  induction ds with
  | nil =>
      intro es hlen _
      exact (List.length_eq_zero_iff.1 hlen.symm).symm
  | cons d ds ih =>
      intro es hlen hnum
      cases es with
      | nil => cases hlen
      | cons e es =>
          have hlen' : ds.length = es.length := Nat.succ.inj hlen
          have hd := number_cons_div d ds
          have he := number_cons_div e es
          rw [hnum, hlen'] at hd
          have hde : d = e := Fin.ext (hd.1.symm.trans he.1)
          rw [hde, ih hlen' (hd.2.symm.trans he.2)]

/-- Every number below the power of the base has digits. -/
theorem exists_number {l : ℕ} : ∀ {m : ℕ}, m < B ^ l → ∃ ds : List (Fin B), ds.length = l ∧ number ds = m := by
  induction l with
  | zero =>
      intro m hm
      rw [Nat.pow_zero, Nat.lt_one_iff] at hm
      exact ⟨[], rfl, hm.symm⟩
  | succ l ih =>
      intro m hm
      have hpos : 0 < B ^ l := by
        refine Nat.pos_of_ne_zero fun hzero => ?_
        rw [Nat.pow_succ, hzero, Nat.zero_mul] at hm
        exact Nat.not_lt_zero _ hm
      rcases ih (Nat.mod_lt m hpos) with ⟨ds, hlen, hnum⟩
      have hdigit : m / B ^ l < B := by
        rw [Nat.div_lt_iff_lt_mul hpos, Nat.mul_comm, ← Nat.pow_succ]
        exact hm
      refine ⟨⟨m / B ^ l, hdigit⟩ :: ds, by rw [List.length_cons, hlen], ?_⟩
      rw [number_cons, hlen, hnum]
      exact Nat.div_add_mod' m (B ^ l)

/-! ## Consecutive numbers -/

theorem number_replicate_top {top : Fin B} (htop : (top : ℕ) + 1 = B) (l : ℕ) :
    number (List.replicate l top) + 1 = B ^ l := by
  induction l with
  | zero => rfl
  | succ l ih =>
      rw [List.replicate_succ, number_cons, List.length_replicate, Nat.add_assoc, ih, ← Nat.succ_mul,
        Nat.succ_eq_add_one, htop, Nat.pow_succ, Nat.mul_comm]

theorem number_replicate_zero {zero : Fin B} (hzero : (zero : ℕ) = 0) (l : ℕ) :
    number (List.replicate l zero) = 0 := by
  induction l with
  | zero => rfl
  | succ l ih => rw [List.replicate_succ, number_cons, ih, hzero, Nat.zero_mul]

/-- The number with the digit one everywhere is what the largest number is divided by the largest digit. -/
theorem number_replicate_one {one : Fin B} (hone : (one : ℕ) = 1) (l : ℕ) :
    number (List.replicate l one) * (B - 1) + 1 = B ^ l := by
  have hB : B = (B - 1) + 1 := by
    have := one.isLt
    omega
  induction l with
  | zero => rw [List.replicate_zero, number_nil, Nat.zero_mul, Nat.pow_zero]
  | succ l ih =>
      rw [List.replicate_succ, number_cons, List.length_replicate, hone, Nat.one_mul, Nat.add_mul,
        Nat.add_assoc, ih, ← Nat.mul_succ, Nat.succ_eq_add_one, ← hB, Nat.pow_succ]

/-- A number and the next one: they agree up to a digit, which becomes the next one, and below it the largest
digits become zeros. -/
theorem exists_carry {top zero : Fin B} (htop : (top : ℕ) + 1 = B) (hzero : (zero : ℕ) = 0)
    {ds : List (Fin B)} : ∀ {es : List (Fin B)}, ds.length = es.length → number es = number ds + 1 →
    ∃ (p : List (Fin B)) (d e : Fin B) (m : ℕ), (e : ℕ) = d + 1 ∧
      ds = p ++ d :: List.replicate m top ∧ es = p ++ e :: List.replicate m zero := by
  induction ds with
  | nil =>
      intro es hlen hnum
      rw [List.length_eq_zero_iff.1 hlen.symm] at hnum
      cases hnum
  | cons d ds ih =>
      intro es hlen hnum
      cases es with
      | nil => cases hlen
      | cons e es =>
          have hlen' : ds.length = es.length := Nat.succ.inj hlen
          have hd := number_cons_div d ds
          have he := number_cons_div e es
          rw [hnum, number_cons, ← hlen', Nat.add_assoc] at he
          rcases Nat.lt_or_ge (number ds + 1) (B ^ ds.length) with hlt | hge
          · -- the carry stays below the highest digit
            have hpos : 0 < B ^ ds.length := Nat.zero_lt_of_lt hlt
            rw [Nat.mul_comm, Nat.mul_add_div hpos, Nat.div_eq_of_lt hlt, Nat.mul_add_mod,
              Nat.mod_eq_of_lt hlt] at he
            rcases ih hlen' he.2.symm with ⟨p, d', e', m, hde, hds', hes'⟩
            refine ⟨d :: p, d', e', m, hde, by rw [hds', List.cons_append], ?_⟩
            rw [hes', Fin.ext he.1.symm, List.cons_append]
          · -- the carry reaches it
            have hfull : number ds + 1 = B ^ ds.length := le_antisymm (number_lt ds) hge
            have hpos : 0 < B ^ ds.length := hfull ▸ Nat.succ_pos _
            rw [hfull, ← Nat.succ_mul, Nat.mul_div_cancel _ hpos, Nat.mul_mod_left] at he
            refine ⟨[], d, e, ds.length, he.1.symm, ?_, ?_⟩
            · rw [List.nil_append, List.cons.injEq]
              refine ⟨rfl, number_injective (List.length_replicate).symm ?_⟩
              exact Nat.succ.inj (hfull.trans (number_replicate_top htop _).symm)
            · rw [List.nil_append, List.cons.injEq]
              refine ⟨rfl, number_injective (hlen'.symm.trans (List.length_replicate).symm) ?_⟩
              rw [← he.2, number_replicate_zero hzero]

/-! ## Recoding -/

section Recoding

variable {σ α β : Type*} (c : Coder σ α β)

/-- The digits in place of the given ones. -/
def encode : σ → List α → List β
  | _, [] => []
  | s, a :: as => c.out s a :: encode (c.next s a) as

/-- The digits that others are in place of. -/
def decode : σ → List β → List α
  | _, [] => []
  | s, b :: bs => (c.out s).symm b :: decode (c.next s ((c.out s).symm b)) bs

/-- The state after the given digits. -/
def after : σ → List α → σ :=
  List.foldl c.next

@[simp] theorem length_encode (as : List α) : ∀ s, (c.encode s as).length = as.length := by
  induction as with
  | nil => exact fun _ => rfl
  | cons a as ih =>
      intro s
      rw [encode, List.length_cons, List.length_cons, ih]

@[simp] theorem length_decode (bs : List β) : ∀ s, (c.decode s bs).length = bs.length := by
  induction bs with
  | nil => exact fun _ => rfl
  | cons b bs ih =>
      intro s
      rw [decode, List.length_cons, List.length_cons, ih]

@[simp] theorem decode_encode (as : List α) : ∀ s, c.decode s (c.encode s as) = as := by
  induction as with
  | nil => exact fun _ => rfl
  | cons a as ih =>
      intro s
      rw [encode, decode, Equiv.symm_apply_apply, ih]

@[simp] theorem encode_decode (bs : List β) : ∀ s, c.encode s (c.decode s bs) = bs := by
  induction bs with
  | nil => exact fun _ => rfl
  | cons b bs ih =>
      intro s
      rw [decode, encode, Equiv.apply_symm_apply, ih]

theorem encode_append (as as' : List α) :
    ∀ s, c.encode s (as ++ as') = c.encode s as ++ c.encode (c.after s as) as' := by
  induction as with
  | nil => exact fun _ => rfl
  | cons a as ih =>
      intro s
      rw [List.cons_append, encode, ih, encode, List.cons_append]
      rfl

theorem decode_append (bs bs' : List β) :
    ∀ s, c.decode s (bs ++ bs') = c.decode s bs ++ c.decode (c.after s (c.decode s bs)) bs' := by
  induction bs with
  | nil => exact fun _ => rfl
  | cons b bs ih =>
      intro s
      rw [List.cons_append, decode, ih, decode, List.cons_append]
      rfl

theorem encode_injective {s : σ} {as as' : List α} (h : c.encode s as = c.encode s as') : as = as' := by
  rw [← c.decode_encode as s, h, c.decode_encode]

/-- The numbers whose highest digits are those of `as`: they become consecutive numbers. -/
theorem mem_block {B : ℕ} {c : Coder σ α (Fin B)} {s : σ} {as : List α} {l m : ℕ} :
    (∃ t : List α, t.length = l ∧ number (c.encode s (as ++ t)) = m) ↔
      number (c.encode s as) * B ^ l ≤ m ∧ m < (number (c.encode s as) + 1) * B ^ l := by
  constructor
  · rintro ⟨t, rfl, rfl⟩
    have hlt := number_lt (c.encode (c.after s as) t)
    rw [encode_append, number_append, Nat.succ_mul]
    rw [length_encode] at hlt ⊢
    exact ⟨Nat.le_add_right _ _, Nat.add_lt_add_left hlt _⟩
  · rintro ⟨hle, hlt⟩
    rw [Nat.succ_mul] at hlt
    rcases exists_number (show m - number (c.encode s as) * B ^ l < B ^ l by omega) with ⟨ds, hlen, hnum⟩
    refine ⟨c.decode (c.after s as) ds, by rw [length_decode, hlen], ?_⟩
    rw [encode_append, encode_decode, number_append, hlen, hnum]
    exact Nat.add_sub_cancel' hle

end Recoding

end Coder
