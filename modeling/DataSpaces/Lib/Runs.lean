import Mathlib.Logic.Basic

/-!
# Runs — what a partial step function keeps

A run takes the steps of a list of events one after the other, and has no state where a step has none.
`IsRun` says so of a run function, however it was written.  Each rule is one induction over the events; a
system that uses it only has to look at a single step.
-/

namespace Runs

variable {σ τ ε : Type*}

/-- `run` takes the steps one after the other. -/
structure IsRun (step : σ → ε → Option σ) (run : List ε → σ → Option σ) : Prop where
  nil : ∀ s, run [] s = some s
  cons : ∀ e es s, run (e :: es) s = (step s e).bind (run es)

/-- Every event of the run is allowed in the state in which it happens. -/
def Along (run : List ε → σ → Option σ) (allowed : σ → ε → Prop) (es : List ε) (s : σ) : Prop :=
  ∀ done e rest s', es = done ++ e :: rest → run done s = some s' → allowed s' e

/-- Folding the step over the events is a run. -/
theorem isRun_foldlM (step : σ → ε → Option σ) : IsRun step fun es s => es.foldlM step s where
  nil _ := rfl
  cons _ _ _ := List.foldlM_cons

theorem along_nil {run : List ε → σ → Option σ} {allowed : σ → ε → Prop} (s : σ) :
    Along run allowed [] s := by
  intro done e rest s' hes _
  exact absurd hes.symm (List.append_ne_nil_of_right_ne_nil _ (by simp))

/-- A condition on events that does not look at the states. -/
theorem along_of_forall {run : List ε → σ → Option σ} {Q : ε → Prop} {es : List ε} (h : ∀ e ∈ es, Q e)
    (s : σ) : Along run (fun _ e => Q e) es s := by
  intro done e rest s' hes _
  refine h e ?_
  rw [hes]
  simp

namespace IsRun

variable {step : σ → ε → Option σ} {run : List ε → σ → Option σ}

theorem cons_eq_some_iff (h : IsRun step run) {e : ε} {es : List ε} {s s' : σ} :
    run (e :: es) s = some s' ↔ ∃ s₁, step s e = some s₁ ∧ run es s₁ = some s' := by
  rw [h.cons, Option.bind_eq_some_iff]

theorem along_cons_iff (h : IsRun step run) {allowed : σ → ε → Prop} {e : ε} {es : List ε} {s : σ} :
    Along run allowed (e :: es) s ↔
      allowed s e ∧ ∀ s₁, step s e = some s₁ → Along run allowed es s₁ := by
  constructor
  · intro hall
    refine ⟨hall [] e es s rfl (h.nil s), fun s₁ hstep done e' rest s' hes hrun => ?_⟩
    refine hall (e :: done) e' rest s' (by rw [hes, List.cons_append]) ?_
    exact h.cons_eq_some_iff.2 ⟨s₁, hstep, hrun⟩
  · rintro ⟨hfirst, hlater⟩ done e' rest s' hes hrun
    cases done with
    | nil =>
        cases hes
        rw [h.nil, Option.some.injEq] at hrun
        rw [← hrun]
        exact hfirst
    | cons e₁ done =>
        cases hes
        rcases h.cons_eq_some_iff.1 hrun with ⟨s₁, hstep, hrun⟩
        exact hlater s₁ hstep done e' rest s' rfl hrun

theorem along_cons (h : IsRun step run) {allowed : σ → ε → Prop} {e : ε} {es : List ε} {s s' : σ}
    (hfirst : allowed s e) (hstep : step s e = some s') (hrest : Along run allowed es s') :
    Along run allowed (e :: es) s := by
  refine h.along_cons_iff.2 ⟨hfirst, fun s₁ h₁ => ?_⟩
  obtain rfl : s' = s₁ := Option.some.inj (hstep.symm.trans h₁)
  exact hrest

/-- What every allowed step keeps holds after a run of allowed steps. -/
theorem keeps_along (h : IsRun step run) {P : σ → Prop} {allowed : σ → ε → Prop}
    (hstep : ∀ s e s', P s → allowed s e → step s e = some s' → P s') (es : List ε) :
    ∀ s s', P s → Along run allowed es s → run es s = some s' → P s' := by
  induction es with
  | nil =>
      intro s s' hs _ hrun
      rw [h.nil, Option.some.injEq] at hrun
      rw [← hrun]
      exact hs
  | cons e es ih =>
      intro s s' hs hall hrun
      rcases h.cons_eq_some_iff.1 hrun with ⟨s₁, he, hrun⟩
      rcases h.along_cons_iff.1 hall with ⟨hfirst, hlater⟩
      exact ih s₁ s' (hstep s e s₁ hs hfirst he) (hlater s₁ he) hrun

/-- What every step keeps holds after every run. -/
theorem keeps (h : IsRun step run) {P : σ → Prop}
    (hstep : ∀ s e s', P s → step s e = some s' → P s') (es : List ε) :
    ∀ s s', P s → run es s = some s' → P s' := by
  intro s s' hs
  have hall : Along run (fun _ _ => True) es s := along_of_forall (fun _ _ => trivial) s
  exact h.keeps_along (fun s e s' hs _ => hstep s e s' hs) es s s' hs hall

/-- If a step keeps `Q` exactly when it is allowed, a run does exactly when all its steps are. -/
theorem keeps_iff (h : IsRun step run) {P Q : σ → Prop} {allowed : σ → ε → Prop}
    (hkeeps : ∀ s e s', P s → step s e = some s' → P s')
    (hiff : ∀ s e s', P s → step s e = some s' → (Q s' ↔ Q s ∧ allowed s e)) (es : List ε) :
    ∀ s s', P s → run es s = some s' → (Q s' ↔ Q s ∧ Along run allowed es s) := by
  induction es with
  | nil =>
      intro s s' _ hrun
      rw [h.nil, Option.some.injEq] at hrun
      rw [← hrun]
      exact ⟨fun hq => ⟨hq, along_nil s⟩, And.left⟩
  | cons e es ih =>
      intro s s' hs hrun
      rcases h.cons_eq_some_iff.1 hrun with ⟨s₁, he, hrun⟩
      rw [ih s₁ s' (hkeeps s e s₁ hs he) hrun, hiff s e s₁ hs he, and_assoc, h.along_cons_iff]
      simp only [he, Option.some.injEq, forall_eq']

/-- A run that comes to a state has a state after every step. -/
theorem along_isSome (h : IsRun step run) (es : List ε) : ∀ s s', run es s = some s' →
    Along run (fun s e => (step s e).isSome) es s := by
  induction es with
  | nil =>
      intro s _ _
      exact along_nil s
  | cons e es ih =>
      intro s s' hrun
      obtain ⟨s₁, he, hrun⟩ := h.cons_eq_some_iff.1 hrun
      refine h.along_cons_iff.2 ⟨by rw [he]; rfl, fun s₂ he₂ => ?_⟩
      obtain rfl : s₁ = s₂ := Option.some.inj (he.symm.trans he₂)
      exact ih s₁ s' hrun

/-- Two conditions on steps that are the same in every state with `P`, which steps under the second one
keep, are the same along legal runs. -/
theorem along_iff_along (h : IsRun step run) {P : σ → Prop} {legal A B : σ → ε → Prop}
    (hiff : ∀ s e, P s → legal s e → (A s e ↔ B s e))
    (hkeeps : ∀ s e s', P s → legal s e → B s e → step s e = some s' → P s') (es : List ε) :
    ∀ s, P s → Along run legal es s → (Along run A es s ↔ Along run B es s) := by
  induction es with
  | nil =>
      intro s _ _
      exact iff_of_true (along_nil s) (along_nil s)
  | cons e es ih =>
      intro s hs hlegal
      obtain ⟨hfirst, hlater⟩ := h.along_cons_iff.1 hlegal
      rw [h.along_cons_iff, h.along_cons_iff, hiff s e hs hfirst]
      refine and_congr_right fun hB => forall_congr' fun s₁ => forall_congr' fun he => ?_
      exact ih s₁ (hkeeps s e s₁ hs hfirst hB he) (hlater s₁ he)

/-- A relation that every step of the first system carries over to the second one relates their runs. -/
theorem simulates (h : IsRun step run) {step' : τ → ε → Option τ} {run' : List ε → τ → Option τ}
    (h' : IsRun step' run') {R : σ → τ → Prop} {Q : ε → Prop}
    (hstep : ∀ s t e s', R s t → Q e → step s e = some s' → ∃ t', step' t e = some t' ∧ R s' t')
    (es : List ε) :
    ∀ s t s', R s t → (∀ e ∈ es, Q e) → run es s = some s' → ∃ t', run' es t = some t' ∧ R s' t' := by
  induction es with
  | nil =>
      intro s t s' hr _ hrun
      rw [h.nil, Option.some.injEq] at hrun
      rw [← hrun]
      exact ⟨t, h'.nil t, hr⟩
  | cons e es ih =>
      intro s t s' hr hall hrun
      rcases h.cons_eq_some_iff.1 hrun with ⟨s₁, he, hrun⟩
      rcases hstep s t e s₁ hr (hall e List.mem_cons_self) he with ⟨t₁, he', hr₁⟩
      rcases ih s₁ t₁ s' hr₁ (fun e' he' => hall e' (List.mem_cons_of_mem _ he')) hrun with
        ⟨t', hrun', hr'⟩
      exact ⟨t', h'.cons_eq_some_iff.2 ⟨t₁, he', hrun'⟩, hr'⟩

/-- Steps that always have a state make runs that always have one. -/
theorem isSome (h : IsRun step run) (hstep : ∀ s e, (step s e).isSome) (es : List ε) :
    ∀ s, (run es s).isSome := by
  induction es with
  | nil =>
      intro s
      rw [h.nil]
      rfl
  | cons e es ih =>
      intro s
      rcases Option.isSome_iff_exists.1 (hstep s e) with ⟨s₁, he⟩
      rw [h.cons, he]
      exact ih s₁

end IsRun

end Runs
