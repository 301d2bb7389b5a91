import Mathlib.Data.List.Basic
import Mathlib.Logic.Basic

/-!
# Slots — texts at fixed offsets of one memory

Texts are stored one after the other, each followed by a terminator, at offsets that are a fixed width
apart.  Whatever of a text is longer than the width is overwritten by the next one.  Read as one text up to
the first terminator, the memory shows the texts cut to the width, up to and including the first text that
is shorter than it (`shown`).

If texts are determined by what is left of them after the cut, two rows of texts of one length read the
same exactly when they show the same.
-/

namespace Slots

variable {α : Type} (nul : α)

/-- Store a list from an offset on. -/
def store (mem : Nat → α) (off : Nat) (l : List α) : Nat → α := fun p =>
  if h : off ≤ p ∧ p - off < l.length then l.get ⟨p - off, h.2⟩ else mem p

/-- The text from an offset on, up to the terminator and in at most `n` places. -/
def read [DecidableEq α] (mem : Nat → α) : Nat → Nat → List α
  | 0, _ => []
  | n + 1, off => if mem off = nul then [] else mem off :: read mem n (off + 1)

/-- The texts with their terminators, `width` apart. -/
def storeAll (width : Nat) (mem : Nat → α) : Nat → List (List α) → Nat → α
  | _, [] => mem
  | off, t :: ts => storeAll width (store mem off (t ++ [nul])) (off + width) ts

/-- The texts one after the other, each but the last cut to the width, until one is shorter. -/
def joined (width : Nat) : List (List α) → List α
  | [] => []
  | [t] => t
  | t :: ts => if t.length < width then t else t.take width ++ joined width ts

/-- The texts up to the first that is shorter than the width. -/
def shown (width : Nat) : List (List α) → List (List α)
  | [] => []
  | t :: ts => if t.length < width then [t] else t :: shown width ts

variable {nul} {width : Nat} {t : List α}

theorem shown_short (h : t.length < width) (ts : List (List α)) : shown width (t :: ts) = [t] :=
  if_pos h

theorem shown_long (h : ¬ t.length < width) (ts : List (List α)) :
    shown width (t :: ts) = t :: shown width ts :=
  if_neg h

theorem joined_short (h : t.length < width) (ts : List (List α)) : joined width (t :: ts) = t := by
  cases ts with
  | nil => rfl
  | cons s ss => exact if_pos h

theorem joined_long (h : ¬ t.length < width) {ts : List (List α)} (hne : ts ≠ []) :
    joined width (t :: ts) = t.take width ++ joined width ts := by
  cases ts with
  | nil => exact absurd rfl hne
  | cons s ss => exact if_neg h

/-! ## Reading what was stored -/

theorem store_get (mem : Nat → α) (off : Nat) (l : List α) {k : Nat} (hk : k < l.length) :
    store mem off l (off + k) = l.get ⟨k, hk⟩ := by
  have hin : off ≤ off + k ∧ off + k - off < l.length := by
    omega
  rw [store, dif_pos hin]
  congr
  omega

theorem storeAll_of_lt (width : Nat) (ts : List (List α)) :
    ∀ (mem : Nat → α) (off p : Nat), p < off → storeAll nul width mem off ts p = mem p := by
  induction ts with
  | nil => exact fun _ _ _ _ => rfl
  | cons t ts ih =>
      intro mem off p hp
      rw [storeAll, ih _ _ _ (Nat.lt_add_right width hp), store, dif_neg]
      omega

variable [DecidableEq α]

/-- A text without terminator that is in memory is read before anything else. -/
theorem read_of_eq (mem : Nat → α) (l : List α) : ∀ (n off : Nat), l.length ≤ n →
    (∀ a ∈ l, a ≠ nul) → (∀ k (hk : k < l.length), mem (off + k) = l.get ⟨k, hk⟩) →
      read nul mem n off = l ++ read nul mem (n - l.length) (off + l.length) := by
  induction l with
  | nil => exact fun _ _ _ _ _ => rfl
  | cons a l ih =>
      intro n off hn hnul hmem
      cases n with
      | zero => exact absurd hn (by simp)
      | succ n =>
          have hfirst : mem off = a := hmem 0 (by simp)
          have hrest := ih n (off + 1) (Nat.le_of_succ_le_succ hn) (fun b hb => hnul b (by simp [hb]))
            fun k hk => by
              rw [Nat.add_assoc, Nat.add_comm 1]
              exact hmem (k + 1) (Nat.succ_lt_succ hk)
          calc read nul mem (n + 1) off
              = a :: read nul mem n (off + 1) := by
                rw [read, hfirst, if_neg (hnul a (by simp))]
            _ = a :: (l ++ read nul mem (n - l.length) (off + 1 + l.length)) := by
                rw [hrest]
            _ = (a :: l) ++ read nul mem (n + 1 - (a :: l).length) (off + (a :: l).length) := by
                rw [List.length_cons, List.cons_append, Nat.add_sub_add_right, Nat.add_assoc, Nat.add_comm 1]

theorem nul_notMem_read (mem : Nat → α) (n : Nat) : ∀ off, nul ∉ read nul mem n off := by
  induction n with
  | zero => exact fun _ => List.not_mem_nil
  | succ n ih =>
      intro off
      rw [read]
      split
      case isTrue => exact List.not_mem_nil
      case isFalse h => exact List.not_mem_cons_of_ne_of_not_mem (Ne.symm h) (ih (off + 1))

theorem read_of_nul {mem : Nat → α} {off : Nat} (h : mem off = nul) (n : Nat) : read nul mem n off = [] := by
  cases n with
  | zero => rfl
  | succ n => rw [read, if_pos h]

/-- A text with its terminator. -/
theorem read_text {mem : Nat → α} {off n : Nat} {t : List α} (hn : t.length ≤ n) (hnul : ∀ a ∈ t, a ≠ nul)
    (hmem : ∀ k (hk : k < (t ++ [nul]).length), mem (off + k) = (t ++ [nul]).get ⟨k, hk⟩) :
    read nul mem n off = t := by
  have hend : mem (off + t.length) = nul := by
    rw [hmem t.length (by simp)]
    simp
  have hread := read_of_eq mem t n off hn hnul fun k hk => by
    rw [hmem k (by simp; omega)]
    simp [hk]
  rw [hread, read_of_nul hend, List.append_nil]

/-- The row of texts reads as they are joined. -/
theorem read_storeAll (width : Nat) (ts : List (List α)) :
    ∀ (mem : Nat → α) (off n : Nat), ts ≠ [] → (joined width ts).length ≤ n →
      (∀ t ∈ ts, ∀ a ∈ t, a ≠ nul) → read nul (storeAll nul width mem off ts) n off = joined width ts := by
  induction ts with
  | nil => exact fun _ _ _ h => absurd rfl h
  | cons t ts ih =>
      intro mem off n _ hn hnul
      have htext := hnul t (by simp)
      cases ts with
      | nil => exact read_text hn htext fun k hk => store_get _ _ _ hk
      | cons t' ts =>
          have hkeep : ∀ k, k < width → ∀ hk : k < (t ++ [nul]).length,
              storeAll nul width mem off (t :: t' :: ts) (off + k) = (t ++ [nul]).get ⟨k, hk⟩ := by
            intro k hwidth hk
            rw [storeAll, storeAll_of_lt _ _ _ _ _ (Nat.add_lt_add_left hwidth off), store_get _ _ _ hk]
          -- a short text ends the reading, a longer one is cut and runs into the next
          by_cases hshort : t.length < width
          case pos =>
            rw [joined_short hshort] at hn ⊢
            exact read_text hn htext fun k hk => hkeep k (by simp at hk; omega) hk
          case neg =>
            have hcut : (t.take width).length = width := by
              rw [List.length_take]
              omega
            rw [joined_long hshort (by simp)] at hn ⊢
            rw [List.length_append, hcut] at hn
            have hread := @read_of_eq α nul _ (storeAll nul width mem off (t :: t' :: ts)) (t.take width) n off
              (by omega) (fun a ha => htext a (List.mem_of_mem_take ha)) fun k hk => by
                have hkt : k < t.length := by
                  rw [List.length_take] at hk
                  omega
                rw [hkeep k (by omega) (by simp; omega)]
                simp [hkt]
            rw [hread, hcut, storeAll]
            congr 1
            exact ih _ _ _ (by simp) (by omega) fun s hs => hnul s (by simp [hs])

/-! ## What a row of texts shows -/

omit [DecidableEq α]

theorem shown_ne_nil {width : Nat} {ts : List (List α)} (h : ts ≠ []) : shown width ts ≠ [] := by
  cases ts with
  | nil => exact absurd rfl h
  | cons t ts =>
      rw [shown]
      split <;> simp

/-- Only what is shown is read. -/
theorem joined_shown (width : Nat) (ts : List (List α)) : joined width (shown width ts) = joined width ts := by
  induction ts with
  | nil => rfl
  | cons t ts ih =>
      by_cases hshort : t.length < width
      · rw [shown_short hshort, joined_short hshort, joined_short hshort]
      · rw [shown_long hshort]
        cases ts with
        | nil => rfl
        | cons s ss =>
            rw [joined_long hshort (shown_ne_nil (by simp)), joined_long hshort (by simp), ih]

/-- Texts that differ still do so after the cut. -/
def CutInj (width : Nat) (P : List α → Prop) : Prop :=
  ∀ t t', P t → P t' → t.take width = t'.take width → t = t'

/-- A row that ends with a short text is read in fewer places than one that goes on. -/
theorem joined_ne_of_short {t' : List α} {ts ts' : List (List α)} (hne : ts' ≠ [])
    (hshort : t.length < width) (hlong : ¬ t'.length < width) :
    joined width (t :: ts) ≠ joined width (t' :: ts') := by
  intro heq
  have hlen := congrArg List.length heq
  rw [joined_short hshort, joined_long hlong hne, List.length_append, List.length_take] at hlen
  omega

/-- Two rows that read the same and go on after their first texts have the same first text. -/
theorem joined_long_inj {P : List α → Prop} (hcut : CutInj width P) {t' : List α} {ts ts' : List (List α)}
    (ht : P t) (ht' : P t') (hlong : ¬ t.length < width) (hlong' : ¬ t'.length < width) (hne : ts ≠ [])
    (hne' : ts' ≠ []) (heq : joined width (t :: ts) = joined width (t' :: ts')) :
    t = t' ∧ joined width ts = joined width ts' := by
  rw [joined_long hlong hne, joined_long hlong' hne'] at heq
  have hcutLen : (t.take width).length = (t'.take width).length := by
    rw [List.length_take, List.length_take]
    omega
  rcases List.append_inj heq hcutLen with ⟨hhead, htail⟩
  exact ⟨hcut t t' ht ht' hhead, htail⟩

/-- Rows of one length read the same exactly when they show the same texts. -/
theorem joined_inj {P : List α → Prop} (hcut : CutInj width P) {ts ts' : List (List α)}
    (hlen : ts.length = ts'.length) (hP : ∀ t ∈ ts, P t) (hP' : ∀ t ∈ ts', P t) :
    joined width ts = joined width ts' ↔ shown width ts = shown width ts' := by
  constructor
  case mpr =>
    intro hshown
    rw [← joined_shown, hshown, joined_shown]
  case mp =>
    induction ts generalizing ts' with
    | nil =>
        intro _
        rw [List.length_eq_zero_iff.1 hlen.symm]
    | cons t ts ih =>
        cases ts' with
        | nil => cases hlen
        | cons t' ts' =>
            intro heq
            have hlen := Nat.succ.inj hlen
            by_cases hnil : ts = []
            · have hnil' : ts' = [] := by
                rwa [hnil, eq_comm, List.length_nil, List.length_eq_zero_iff] at hlen
              rw [hnil, hnil'] at heq ⊢
              exact congrArg (fun t => shown width [t]) heq
            have hnil' : ts' ≠ [] := by
              rintro rfl
              exact hnil (List.length_eq_zero_iff.1 hlen)
            -- both first texts are cut, or neither, since what is read goes on after a cut one
            by_cases hshort : t.length < width
            · by_cases hshort' : t'.length < width
              · rw [joined_short hshort, joined_short hshort'] at heq
                rw [shown_short hshort, shown_short hshort', heq]
              · exact absurd heq (joined_ne_of_short hnil' hshort hshort')
            · by_cases hshort' : t'.length < width
              · exact absurd heq.symm (joined_ne_of_short hnil hshort' hshort)
              · rcases joined_long_inj hcut (hP t (by simp)) (hP' t' (by simp)) hshort hshort' hnil hnil' heq with
                  ⟨htext, htail⟩
                have hrest := ih hlen (fun r hr => hP r (by simp [hr]))
                  (fun r hr => hP' r (by simp [hr])) htail
                rw [shown_long hshort, shown_long hshort', htext, hrest]

end Slots
