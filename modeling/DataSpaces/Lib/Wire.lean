import Mathlib.Algebra.Group.Nat.Defs
import Mathlib.Data.Nat.Basic

/-!
# Wire — values in a stream of bytes

A `Codec` puts a value in front of any other bytes and reads it back from there, leaving the other bytes.
Integers of a fixed width go through their bytes with the lowest first, and memory of a fixed length goes
as it is.
-/

namespace Wire

/-- A value is read back from where it was put. -/
structure Codec (α : Type) where
  put : α → List UInt8
  get : List UInt8 → Option (α × List UInt8)
  get_put : ∀ a rest, get (put a ++ rest) = some (a, rest)

attribute [simp] Codec.get_put

/-- What a writer that can fail writes for the value is read back from in front of any other bytes. -/
def ReadsBack {ε α : Type} (put : α → Except ε (List UInt8))
    (get : List UInt8 → Except ε (α × List UInt8)) (a : α) : Prop :=
  ∃ bytes, put a = .ok bytes ∧ ∀ rest, get (bytes ++ rest) = .ok (a, rest)

section Bind

variable {ε α β : Type}

@[simp] theorem ok_bind (a : α) (f : α → Except ε β) : (Except.ok a >>= f) = f a := rfl

@[simp] theorem error_bind (e : ε) (f : α → Except ε β) : (Except.error e >>= f) = Except.error e := rfl

@[simp] theorem pure_eq_ok (a : α) : (pure a : Except ε α) = .ok a := rfl

end Bind

/-! ## Integers of a fixed width -/

/-- The lowest `n` bytes of a number, lowest first. -/
def putLE : Nat → Nat → List UInt8
  | 0, _ => []
  | n + 1, x => UInt8.ofNat x :: putLE n (x / 256)

def getLE : Nat → List UInt8 → Option (Nat × List UInt8)
  | 0, bytes => some (0, bytes)
  | _ + 1, [] => none
  | n + 1, b :: bytes => (getLE n bytes).map fun r => (b.toNat + 256 * r.1, r.2)

theorem length_putLE (n : Nat) : ∀ x, (putLE n x).length = n := by
  induction n with
  | zero => exact fun _ => rfl
  | succ n ih => exact fun x => congrArg Nat.succ (ih _)

theorem getLE_putLE (n : Nat) : ∀ (x : Nat) (rest : List UInt8), x < 256 ^ n →
    getLE n (putLE n x ++ rest) = some (x, rest) := by
  induction n with
  | zero =>
      intro x rest hx
      rw [Nat.pow_zero, Nat.lt_one_iff] at hx
      rw [hx]
      rfl
  | succ n ih =>
      intro x rest hx
      have hhigh : x / 256 < 256 ^ n := by
        rw [Nat.pow_succ] at hx
        exact Nat.div_lt_of_lt_mul (by rwa [Nat.mul_comm])
      rw [putLE, List.cons_append, getLE, ih _ rest hhigh]
      have hlow : (UInt8.ofNat x).toNat = x % 256 := UInt8.toNat_ofNat'
      rw [Option.map_some, hlow, Nat.mod_add_div]

/-- The codec of a type whose values are the numbers below `256 ^ n`. -/
def Codec.word {α : Type} (n : Nat) (toNat : α → Nat) (ofNat : Nat → α) (hlt : ∀ a, toNat a < 256 ^ n)
    (hinv : ∀ a, ofNat (toNat a) = a) : Codec α where
  put a := putLE n (toNat a)
  get bytes := (getLE n bytes).map fun r => (ofNat r.1, r.2)
  get_put a rest := by
    rw [getLE_putLE n _ rest (hlt a), Option.map_some, hinv]

def uint8 : Codec UInt8 :=
  .word 1 UInt8.toNat UInt8.ofNat (fun a => a.toNat_lt) fun _ => UInt8.ofNat_toNat

def uint64 : Codec UInt64 :=
  .word 8 UInt64.toNat UInt64.ofNat (fun a => a.toNat_lt) fun _ => UInt64.ofNat_toNat

def int32 : Codec Int32 :=
  .word 4 (fun a => a.toUInt32.toNat) (fun x => (UInt32.ofNat x).toInt32) (fun a => a.toUInt32.toNat_lt)
    fun a => by rw [UInt32.ofNat_toNat, Int32.toInt32_toUInt32]

def int64 : Codec Int64 :=
  .word 8 (fun a => a.toUInt64.toNat) (fun x => (UInt64.ofNat x).toInt64) (fun a => a.toUInt64.toNat_lt)
    fun a => by rw [UInt64.ofNat_toNat, Int64.toInt64_toUInt64]

/-! ## Memory -/

/-- Memory of `n` bytes. -/
abbrev Block (n : Nat) : Type := { bytes : List UInt8 // bytes.length = n }

def raw (n : Nat) : Codec (Block n) where
  put block := block.1
  get bytes := if h : n ≤ bytes.length then some (⟨bytes.take n, by simp [h]⟩, bytes.drop n) else none
  get_put block rest := by
    rcases block with ⟨bytes, rfl⟩
    simp

end Wire
