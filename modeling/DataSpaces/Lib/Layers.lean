import Mathlib.Data.List.Basic
import Mathlib.Logic.Function.Iterate

/-!
# Layers — what a work queue handles, layer by layer

A work queue handles its first element and puts the parts of that element behind the others.  The elements
it starts with are layer 0, their parts are layer 1, and so on; the queue handles one layer after the other,
each from left to right.  When some layer is empty the queue gets empty, and what has been handled before any
turn, and how much is waiting then, can be read off the layers.
-/

namespace Layers

variable {α : Type*} (parts : α → List α)

/-- A turn of the queue, with what has been handled so far. -/
def turn : List α × List α → List α × List α
  | ([], done) => ([], done)
  | (x :: queue, done) => (queue ++ parts x, done ++ [x])

/-- Layer number `m` below the given one. -/
def layer : ℕ → List α → List α
  | 0, xs => xs
  | m + 1, xs => layer m (xs.flatMap parts)

/-- The first `m` layers, one after the other. -/
def order : ℕ → List α → List α
  | 0, _ => []
  | m + 1, xs => xs ++ order m (xs.flatMap parts)

variable {parts}

@[simp] theorem turn_nil (done : List α) : turn parts ([], done) = ([], done) := rfl

@[simp] theorem turn_cons (x : α) (queue done : List α) :
    turn parts (x :: queue, done) = (queue ++ parts x, done ++ [x]) := rfl

@[simp] theorem order_nil (m : ℕ) : order parts m [] = [] := by
  induction m with
  | zero => rfl
  | succ m ih => rw [order, List.flatMap_nil, ih, List.append_nil]

/-- What was handled before stays in front. -/
theorem iterate_turn_append (t : ℕ) : ∀ queue done : List α,
    (turn parts)^[t] (queue, done) =
      (((turn parts)^[t] (queue, [])).1, done ++ ((turn parts)^[t] (queue, [])).2) := by
  induction t with
  | zero =>
      intro queue done
      simp
  | succ t ih =>
      intro queue done
      rw [Function.iterate_succ_apply, Function.iterate_succ_apply]
      cases queue with
      | nil => exact ih [] done
      | cons x queue =>
          rw [turn_cons, turn_cons, ih _ (done ++ [x]), ih _ ([] ++ [x])]
          simp

theorem iterate_turn_nil (t : ℕ) (done : List α) : (turn parts)^[t] ([], done) = ([], done) :=
  Function.iterate_fixed (turn_nil done) t

/-- What a queue has still to handle: the rest of a layer, whose parts are in the queue as far as it was
handled, and all layers below. -/
def Rest (parts : α → List α) (queue todo : List α) : Prop :=
  ∃ m pre suf, layer parts m ((pre ++ suf).flatMap parts) = [] ∧ queue = suf ++ pre.flatMap parts ∧
    todo = suf ++ order parts m ((pre ++ suf).flatMap parts)

theorem rest_start {m : ℕ} {xs : List α} (hend : layer parts (m + 1) xs = []) :
    Rest parts xs (order parts (m + 1) xs) :=
  ⟨m, [], xs, hend, by simp, rfl⟩

theorem Rest.nil {todo : List α} (h : Rest parts [] todo) : todo = [] := by
  obtain ⟨m, pre, suf, -, hqueue, rfl⟩ := h
  obtain ⟨rfl, hpre⟩ := List.append_eq_nil_iff.1 hqueue.symm
  rw [List.append_nil, hpre, order_nil, List.append_nil]

/-- The first of the queue is the first that is left to handle, and a turn leaves the others. -/
theorem Rest.cons {x : α} {queue todo : List α} (h : Rest parts (x :: queue) todo) :
    ∃ todo', todo = x :: todo' ∧ Rest parts (queue ++ parts x) todo' := by
  obtain ⟨m, pre, suf, hend, hqueue, rfl⟩ := h
  cases suf with
  | cons y suf =>
      obtain ⟨rfl, rfl⟩ := List.cons_eq_cons.1 hqueue
      refine ⟨_, rfl, m, pre ++ [x], suf, ?_, ?_, ?_⟩
      · rwa [List.append_assoc]
      · simp
      · rw [List.append_assoc]
        rfl
  | nil =>
      -- the queue holds the next layer
      simp only [List.append_nil, List.nil_append] at hend hqueue ⊢
      rw [← hqueue] at hend ⊢
      cases m with
      | zero => cases hend
      | succ m => exact ⟨_, rfl, m, [x], queue, hend, by simp, rfl⟩

theorem Rest.head? {queue todo : List α} (h : Rest parts queue todo) : queue.head? = todo.head? := by
  cases queue with
  | nil => rw [h.nil]
  | cons x queue =>
      obtain ⟨todo', rfl, -⟩ := h.cons
      rfl

/-- After `t` turns the first `t` elements that were left are handled. -/
theorem Rest.iterate (t : ℕ) : ∀ {queue todo : List α} (done : List α), Rest parts queue todo →
    ∃ queue', (turn parts)^[t] (queue, done) = (queue', done ++ todo.take t) ∧
      Rest parts queue' (todo.drop t) := by
  induction t with
  | zero =>
      intro queue todo done h
      exact ⟨queue, by simp, h⟩
  | succ t ih =>
      intro queue todo done h
      rw [Function.iterate_succ_apply]
      cases queue with
      | nil =>
          obtain rfl := h.nil
          obtain ⟨queue', hturn, hrest⟩ := ih done h
          exact ⟨queue', by simpa using hturn, by simpa using hrest⟩
      | cons x queue =>
          obtain ⟨todo', rfl, hrest⟩ := h.cons
          obtain ⟨queue', hturn, hrest'⟩ := ih (done ++ [x]) hrest
          exact ⟨queue', by rw [turn_cons, hturn]; simp, hrest'⟩

/-- As many elements wait as have been put into the queue and not handled. -/
theorem length_iterate_turn (parts : α → List α) (t : ℕ) : ∀ queue done : List α,
    ((turn parts)^[t] (queue, done)).1.length + ((turn parts)^[t] (queue, done)).2.length +
        (done.flatMap parts).length =
      queue.length + done.length + (((turn parts)^[t] (queue, done)).2.flatMap parts).length := by
  induction t with
  | zero =>
      intro queue done
      rfl
  | succ t ih =>
      intro queue done
      rw [Function.iterate_succ_apply]
      cases queue with
      | nil => exact ih [] done
      | cons x queue =>
          have h := ih (queue ++ parts x) (done ++ [x])
          rw [turn_cons]
          simp only [List.length_append, List.flatMap_append, List.flatMap_singleton, List.length_cons,
            List.length_nil] at h ⊢
          omega

section Ends

variable {m : ℕ} {xs : List α} (hend : layer parts (m + 1) xs = [])

include hend

/-- The state of the queue after some turn: a beginning of all layers is handled, and the first element that
waits is the next one. -/
theorem exists_split (t : ℕ) : ∃ queue pre suf, (turn parts)^[t] (xs, []) = (queue, pre) ∧
    order parts (m + 1) xs = pre ++ suf ∧ queue.head? = suf.head? ∧
      queue.length + pre.length = xs.length + (pre.flatMap parts).length := by
  obtain ⟨queue, hturn, hrest⟩ := (rest_start hend).iterate t []
  have hlength := length_iterate_turn parts t xs []
  rw [hturn] at hlength
  refine ⟨queue, (order parts (m + 1) xs).take t, (order parts (m + 1) xs).drop t, hturn,
    (List.take_append_drop _ _).symm, hrest.head?, by simpa using hlength⟩

/-- And every beginning of all layers is handled after some turn. -/
theorem iterate_length {pre suf : List α} (h : order parts (m + 1) xs = pre ++ suf) :
    ∃ queue, (turn parts)^[pre.length] (xs, []) = (queue, pre) ∧ queue.head? = suf.head? ∧
      queue.length + pre.length = xs.length + (pre.flatMap parts).length := by
  obtain ⟨queue, hturn, hrest⟩ := (rest_start hend).iterate pre.length []
  have hlength := length_iterate_turn parts pre.length xs []
  rw [h, List.nil_append, List.take_left] at hturn
  rw [h, List.drop_left] at hrest
  rw [hturn] at hlength
  exact ⟨queue, hturn, hrest.head?, by simpa using hlength⟩

end Ends

end Layers
