import Mathlib.Data.Set.Insert
import Mathlib.Logic.Function.Basic
import DataSpaces.Lib.Runs

/-!
# Locking — threads that take locks and give them back

A program says for every place of a thread what it does next: it takes a lock, gives one back, or does
neither.  A lock has the thread that took it as its owner, and only a free lock can be taken.  A program
is annotated with the locks that are held at every place.

If every move keeps to the annotation, or ends the thread while locks are held (`Leaks`), then in every
run the locks of ended threads are free exactly when no move of the run leaks (`clean_iff`): a lock that
an ended thread owns is never given back.
-/

namespace Locking

variable {L σ π ι : Type*}

inductive Act (L : Type*)
  | acquire (l : L)
  | release (l : L)
  | keep

/-- What a thread at a place does with an input, and the locks that are held there. -/
structure Program (L σ π ι : Type*) where
  act : σ → Nat → ι → π → Option (Act L × σ × π)
  holds : π → Set L
  ended : π → Prop

/-- The state of all threads, with the owners of the locks. -/
structure Sys (L σ π : Type*) where
  store : σ
  owner : L → Option Nat
  pc : Nat → π

namespace Sys

variable [DecidableEq L] (prog : Program L σ π ι)

/-- A thread takes a step with an input. -/
def step (s : Sys L σ π) (e : Nat × ι) : Option (Sys L σ π) :=
  (prog.act s.store e.1 e.2 (s.pc e.1)).bind fun r =>
    match r.1 with
    | .acquire l =>
        -- a mutex that is taken stops the thread, also when the thread itself took it
        if s.owner l = none then
          some ⟨r.2.1, Function.update s.owner l (some e.1), Function.update s.pc e.1 r.2.2⟩
        else none
    | .release l =>
        if s.owner l = some e.1 then
          some ⟨r.2.1, Function.update s.owner l none, Function.update s.pc e.1 r.2.2⟩
        else none
    | .keep => some ⟨r.2.1, s.owner, Function.update s.pc e.1 r.2.2⟩

def run (es : List (Nat × ι)) (s : Sys L σ π) : Option (Sys L σ π) :=
  es.foldlM (step prog) s

theorem isRun : Runs.IsRun (step prog) (run prog) := Runs.isRun_foldlM (step prog)

/-- No thread that has ended owns a lock. -/
def Clean (s : Sys L σ π) : Prop :=
  ∀ l t, s.owner l = some t → ¬ prog.ended (s.pc t)

end Sys

namespace Program

variable (prog : Program L σ π ι)

/-- The annotation after a move is what the move makes of the one before. -/
def Balanced (pc : π) (a : Act L) (pc' : π) : Prop :=
  match a with
  | .acquire l => ∀ x, x ∈ prog.holds pc' ↔ x = l ∨ x ∈ prog.holds pc
  | .release l => ∀ x, x ∈ prog.holds pc' ↔ x ≠ l ∧ x ∈ prog.holds pc
  | .keep => ∀ x, x ∈ prog.holds pc' ↔ x ∈ prog.holds pc

/-- The move ends the thread while it holds a lock. -/
structure Leaks (pc : π) (a : Act L) (pc' : π) : Prop where
  keep : a = .keep
  ended : prog.ended pc'
  held : ∃ l, l ∈ prog.holds pc

/-- The step of the thread ends it while it holds a lock. -/
def LeakStep (s : Sys L σ π) (e : Nat × ι) : Prop :=
  ∃ a store pc, prog.act s.store e.1 e.2 (s.pc e.1) = some (a, store, pc) ∧ prog.Leaks (s.pc e.1) a pc

/-- Threads that have ended hold nothing and do nothing, and every move keeps to the annotation or
leaks. -/
structure Disciplined : Prop where
  free : ∀ pc, prog.ended pc → ∀ l, l ∉ prog.holds pc
  stops : ∀ st t i pc, prog.ended pc → prog.act st t i pc = none
  moves : ∀ st t i pc a st' pc', prog.act st t i pc = some (a, st', pc') →
    prog.Balanced pc a pc' ∨ prog.Leaks pc a pc'

/-- The owners are the ones that the annotation names, or have ended. -/
structure Inv (s : Sys L σ π) : Prop where
  held : ∀ t l, l ∈ prog.holds (s.pc t) → s.owner l = some t
  owned : ∀ t l, s.owner l = some t → l ∈ prog.holds (s.pc t) ∨ prog.ended (s.pc t)

theorem inv_of_free {s : Sys L σ π} (howner : ∀ l, s.owner l = none)
    (hpc : ∀ t l, l ∉ prog.holds (s.pc t)) : prog.Inv s where
  held t l hl := absurd hl (hpc t l)
  owned _ l hl := nomatch (howner l).symm.trans hl

variable {prog} {s s' : Sys L σ π} {t : Nat} {i : ι}

section Balanced

variable {pc pc' : π} {l : L}

theorem balanced_keep (h : prog.holds pc' = prog.holds pc) : prog.Balanced pc .keep pc' :=
  fun _ => by rw [h]

theorem balanced_acquire (h : prog.holds pc' = insert l (prog.holds pc)) :
    prog.Balanced pc (.acquire l) pc' := by
  intro x
  rw [h, Set.mem_insert_iff]

theorem balanced_release (h : prog.holds pc = insert l (prog.holds pc')) (hl : l ∉ prog.holds pc') :
    prog.Balanced pc (.release l) pc' := by
  intro x
  rw [h, Set.mem_insert_iff]
  constructor
  · intro hx
    exact ⟨fun hxl => hl (hxl ▸ hx), Or.inr hx⟩
  · rintro ⟨hne, hx⟩
    exact hx.resolve_left hne

/-- The first lock of a thread. -/
theorem balanced_first (h : prog.holds pc = ∅) (h' : prog.holds pc' = {l}) :
    prog.Balanced pc (.acquire l) pc' := by
  apply balanced_acquire
  rw [h, h', insert_empty_eq]

/-- The last lock of a thread. -/
theorem balanced_last (h : prog.holds pc = {l}) (h' : prog.holds pc' = ∅) :
    prog.Balanced pc (.release l) pc' := by
  apply balanced_release
  · rw [h, h', insert_empty_eq]
  · rw [h']
    exact Set.notMem_empty l

end Balanced

theorem Disciplined.not_ended (hprog : prog.Disciplined) {st st' : σ} {pc pc' : π} {a : Act L}
    (h : prog.act st t i pc = some (a, st', pc')) : ¬ prog.ended pc := by
  intro hended
  rw [hprog.stops st t i pc hended] at h
  cases h

theorem Disciplined.not_leaks (hprog : prog.Disciplined) {pc pc' : π} {a : Act L}
    (h : prog.Balanced pc a pc') : ¬ prog.Leaks pc a pc' := by
  rintro ⟨rfl, hended, l, hl⟩
  exact hprog.free pc' hended l ((h l).2 hl)

/-- For a thread that has not ended the annotation names exactly the locks that it owns. -/
theorem Inv.holds_iff (hs : prog.Inv s) (ht : ¬ prog.ended (s.pc t)) (l : L) :
    l ∈ prog.holds (s.pc t) ↔ s.owner l = some t :=
  ⟨hs.held t l, fun h => (hs.owned t l h).resolve_right ht⟩

variable [DecidableEq L]

/-- What a move of thread `t` does to the owners, if it can be made. -/
def Moved (a : Act L) (t : Nat) (owner owner' : L → Option Nat) : Prop :=
  match a with
  | .acquire l => owner l = none ∧ owner' = Function.update owner l (some t)
  | .release l => owner l = some t ∧ owner' = Function.update owner l none
  | .keep => owner' = owner

theorem step_cases (h : s.step prog (t, i) = some s') :
    ∃ a st pc, prog.act s.store t i (s.pc t) = some (a, st, pc) ∧ s'.pc = Function.update s.pc t pc ∧
      Moved a t s.owner s'.owner := by
  obtain ⟨⟨a, st, pc⟩, hact, hstep⟩ := Option.bind_eq_some_iff.1 h
  refine ⟨a, st, pc, hact, ?_⟩
  cases a with
  | acquire l =>
      simp only at hstep
      split at hstep
      case isTrue hfree =>
        cases hstep
        exact ⟨rfl, hfree, rfl⟩
      case isFalse => cases hstep
  | release l =>
      simp only at hstep
      split at hstep
      case isTrue howner =>
        cases hstep
        exact ⟨rfl, howner, rfl⟩
      case isFalse => cases hstep
  | keep =>
      cases hstep
      exact ⟨rfl, rfl⟩

section Moved

variable {a : Act L} {owner owner' : L → Option Nat}

/-- A move changes nothing for the other threads. -/
theorem Moved.other (h : Moved a t owner owner') {t' : Nat} (hne : t' ≠ t) (l : L) :
    owner' l = some t' ↔ owner l = some t' := by
  cases a with
  | acquire l' =>
      obtain ⟨hfree, rfl⟩ := h
      rcases eq_or_ne l l' with rfl | hl
      · simp [hfree, Ne.symm hne]
      · rw [Function.update_of_ne hl]
  | release l' =>
      obtain ⟨howner, rfl⟩ := h
      rcases eq_or_ne l l' with rfl | hl
      · simp [howner, Ne.symm hne]
      · rw [Function.update_of_ne hl]
  | keep => rw [show owner' = owner from h]

/-- A balanced move keeps the annotation true for the thread itself. -/
theorem Moved.self (h : Moved a t owner owner') {pc pc' : π} (hbal : prog.Balanced pc a pc')
    (hpc : ∀ l, l ∈ prog.holds pc ↔ owner l = some t) (l : L) :
    l ∈ prog.holds pc' ↔ owner' l = some t := by
  cases a with
  | acquire l' =>
      obtain ⟨-, rfl⟩ := h
      rw [hbal l, hpc]
      rcases eq_or_ne l l' with rfl | hl
      · simp
      · simp [hl]
  | release l' =>
      obtain ⟨-, rfl⟩ := h
      rw [hbal l, hpc]
      rcases eq_or_ne l l' with rfl | hl
      · simp
      · simp [hl]
  | keep =>
      rw [hbal l, hpc, show owner' = owner from h]

end Moved

theorem inv_step (hprog : prog.Disciplined) (hs : prog.Inv s) (h : s.step prog (t, i) = some s') :
    prog.Inv s' := by
  obtain ⟨a, st, pc, hact, hpc, hmoved⟩ := step_cases h
  have hrun := hprog.not_ended hact
  have hother : ∀ t' ≠ t, s'.pc t' = s.pc t' := fun t' hne => by rw [hpc, Function.update_of_ne hne]
  have hself : s'.pc t = pc := by rw [hpc, Function.update_self]
  rcases hprog.moves _ _ _ _ _ _ _ hact with hbal | hleak
  · have hiff := hmoved.self hbal (hs.holds_iff hrun)
    refine ⟨fun t' l hl => ?_, fun t' l hl => ?_⟩
    · rcases eq_or_ne t' t with rfl | hne
      · rw [hself] at hl
        exact (hiff l).1 hl
      · rw [hother t' hne] at hl
        exact (hmoved.other hne l).2 (hs.held t' l hl)
    · rcases eq_or_ne t' t with rfl | hne
      · rw [hself]
        exact Or.inl ((hiff l).2 hl)
      · rw [hother t' hne]
        exact hs.owned t' l ((hmoved.other hne l).1 hl)
  · refine ⟨fun t' l hl => ?_, fun t' l hl => ?_⟩
    · rcases eq_or_ne t' t with rfl | hne
      · rw [hself] at hl
        exact absurd hl (hprog.free pc hleak.ended l)
      · rw [hother t' hne] at hl
        exact (hmoved.other hne l).2 (hs.held t' l hl)
    · rcases eq_or_ne t' t with rfl | hne
      · rw [hself]
        exact Or.inr hleak.ended
      · rw [hother t' hne]
        exact hs.owned t' l ((hmoved.other hne l).1 hl)

/-- A step keeps the locks of ended threads free exactly when it does not leak. -/
theorem clean_step (hprog : prog.Disciplined) (hs : prog.Inv s) (h : s.step prog (t, i) = some s') :
    s'.Clean prog ↔ s.Clean prog ∧ ¬ prog.LeakStep s (t, i) := by
  obtain ⟨a, st, pc, hact, hpc, hmoved⟩ := step_cases h
  have hrun := hprog.not_ended hact
  have hs' := inv_step hprog hs h
  have hother : ∀ t' ≠ t, s'.pc t' = s.pc t' := fun t' hne => by rw [hpc, Function.update_of_ne hne]
  have hself : s'.pc t = pc := by rw [hpc, Function.update_self]
  have hback : s'.Clean prog → s.Clean prog := by
    intro hclean l t' hl
    rcases eq_or_ne t' t with rfl | hne
    · exact hrun
    · rw [← hother t' hne]
      exact hclean l t' ((hmoved.other hne l).2 hl)
  constructor
  · refine fun hclean => ⟨hback hclean, ?_⟩
    rintro ⟨a', st', pc', hact', hleak⟩
    cases hact.symm.trans hact'
    obtain ⟨l, hl⟩ := hleak.held
    -- the lock stays with the thread, which has ended
    have howner : s'.owner l = some t := by
      have hkeep := hmoved
      rw [hleak.keep] at hkeep
      rw [show s'.owner = s.owner from hkeep]
      exact hs.held t l hl
    exact hclean l t howner (hself ▸ hleak.ended)
  · rintro ⟨hclean, hno⟩ l t' hl
    rcases eq_or_ne t' t with rfl | hne
    · rcases hprog.moves _ _ _ _ _ _ _ hact with hbal | hleak
      · intro hended
        rw [hself] at hended
        exact hprog.free pc hended l ((hmoved.self hbal (hs.holds_iff hrun) l).2 hl)
      · exact absurd ⟨a, st, pc, hact, hleak⟩ hno
    · rw [hother t' hne]
      exact hclean l t' ((hmoved.other hne l).1 hl)

/-- In a run from free locks no ended thread owns a lock exactly when no step of the run leaks. -/
theorem clean_iff (hprog : prog.Disciplined) (hs : prog.Inv s) (hclean : s.Clean prog)
    {es : List (Nat × ι)} (hrun : s.run prog es = some s') :
    s'.Clean prog ↔ Runs.Along (fun es s => Sys.run prog es s) (fun s e => ¬ prog.LeakStep s e) es s := by
  have hiff := (Sys.isRun prog).keeps_iff (P := fun s => prog.Inv s) (Q := fun s => s.Clean prog)
    (fun s e s' hs h => inv_step hprog hs h) (fun s e s' hs h => clean_step hprog hs h) es s s' hs hrun
  rw [hiff]
  exact and_iff_right hclean

end Program

end Locking
