import DotProperties.Cancellation
import Mathlib.Data.Nat.Find

/-!
# Runs against a checker

`Step.run` hands out the results of its steps one by one. A run that no poll ended has
handed out all of them (`Step.run_results`), whatever the checker did with its state. A
checker that never answers with `true` ends no run (`Step.run_of_never`), and one that does
to a part of its state what another checker does to the whole of its own leads to the same
results (`Step.run_map`).

So a checker counts for no more than the row of its answers (`Step.run_eq_answering`). Either
they let all polls of the steps pass, and the run hands out everything (`Step.run_of_all_pass`),
or one of them is the first that does not, and the run ends there with what comes before it
(`Step.run_of_first`).
-/

namespace DotProperties

namespace Step

variable {σ α : Type}

@[simp] theorem results_nil : results ([] : List (Step α)) = [] := rfl

@[simp] theorem results_poll_cons (steps : List (Step α)) :
    results (poll :: steps) = results steps := rfl

@[simp] theorem results_yield_cons (a : α) (steps : List (Step α)) :
    results (yield a :: steps) = a :: results steps := rfl

@[simp] theorem results_append (steps steps' : List (Step α)) :
    results (steps ++ steps') = results steps ++ results steps' := by
  simp [results]

@[simp] theorem results_map_yield (as : List α) : results (as.map yield) = as := by
  induction as with
  | nil => rfl
  | cons a as ih => rw [List.map_cons, results_yield_cons, ih]

theorem runFrom_results (check : Checker σ) :
    ∀ (s : σ) (done : List α) (steps : List (Step α)),
      (runFrom check s done steps).cancelled = false →
        (runFrom check s done steps).results = done.reverse ++ results steps
  | s, done, [], _ => by simp [runFrom]
  | s, done, poll :: steps, h => by
    rcases hc : check s with ⟨_ | _, s'⟩
    · simp only [runFrom, hc] at h ⊢
      exact runFrom_results check s' done steps h
    · simp [runFrom, hc] at h
  | s, done, yield a :: steps, h => by
    simp only [runFrom] at h ⊢
    simpa using runFrom_results check s (a :: done) steps h

/-- A run that is not cancelled hands out everything. -/
theorem run_results {check : Checker σ} {s : σ} {steps : List (Step α)}
    (h : (run check s steps).cancelled = false) : (run check s steps).results = results steps :=
  runFrom_results check s [] steps h

theorem runFrom_of_never {check : Checker σ} (h : ∀ s, (check s).1 = false) :
    ∀ (s : σ) (done : List α) (steps : List (Step α)),
      (runFrom check s done steps).cancelled = false
  | s, done, [] => rfl
  | s, done, poll :: steps => by
    rcases hc : check s with ⟨_ | _, s'⟩
    · simp only [runFrom, hc]
      exact runFrom_of_never h s' done steps
    · simpa [hc] using h s
  | s, done, yield a :: steps => runFrom_of_never h s (a :: done) steps

/-- A checker that lets every poll pass cancels nothing. -/
theorem run_of_never {check : Checker σ} (h : ∀ s, (check s).1 = false) (s : σ)
    (steps : List (Step α)) : (run check s steps).cancelled = false :=
  runFrom_of_never h s [] steps

end Step

/-- The outcome with the state that `g` gives. -/
def Outcome.mapState {σ τ α : Type} (g : τ → σ) (o : Outcome τ α) : Outcome σ α :=
  ⟨o.results, o.cancelled, g o.state⟩

namespace Step

variable {σ τ α : Type} {check : Checker σ} {check' : Checker τ} {g : τ → σ}

theorem runFrom_map (h : ∀ t, check (g t) = ((check' t).1, g (check' t).2)) :
    ∀ (t : τ) (done : List α) (steps : List (Step α)),
      runFrom check (g t) done steps = (runFrom check' t done steps).mapState g
  | t, done, [] => rfl
  | t, done, poll :: steps => by
    rcases hc : check' t with ⟨_ | _, t'⟩
    · have hg := h t
      rw [hc] at hg
      simp only [runFrom, hg, hc]
      exact runFrom_map h t' done steps
    · have hg := h t
      rw [hc] at hg
      simp only [runFrom, hg, hc, Outcome.mapState]
  | t, done, yield a :: steps => runFrom_map h t (a :: done) steps

/-- A checker that does to the state `g t` what `check'` does to `t` leads to the same
results. -/
theorem run_map (h : ∀ t, check (g t) = ((check' t).1, g (check' t).2)) (t : τ)
    (steps : List (Step α)) : run check (g t) steps = (run check' t steps).mapState g :=
  runFrom_map h t [] steps

end Step

/-! ## Checkers by their answers -/

namespace Checker

variable {σ : Type}

/-- The state after the first `k` polls, if none of them ends the run. -/
def state (check : Checker σ) (s : σ) : Nat → σ
  | 0 => s
  | k + 1 => (check (check.state s k)).2

/-- The answer to the poll number `k`, counted from zero. -/
def answer (check : Checker σ) (s : σ) (k : Nat) : Bool := (check (check.state s k)).1

end Checker

namespace Step

variable {σ α : Type} {answers : Nat → Bool} {k : Nat}

/-- Of a checker only the answers matter, and the state it is left in tells how often it was
asked. -/
theorem run_eq_answering (check : Checker σ) (s : σ) (steps : List (Step α)) :
    run check s steps =
      (run (.answering (check.answer s)) 0 steps).mapState (check.state s) :=
  run_map (g := check.state s) (fun _ => rfl) 0 steps

/-- Number of polls. -/
def polls : List (Step α) → Nat
  | [] => 0
  | poll :: steps => polls steps + 1
  | yield _ :: steps => polls steps

/-- What is handed out before the poll number `k`, counted from zero. -/
def before : Nat → List (Step α) → List α
  | _, [] => []
  | 0, poll :: _ => []
  | k + 1, poll :: steps => before k steps
  | k, yield a :: steps => a :: before k steps

@[simp] theorem polls_nil : polls ([] : List (Step α)) = 0 := rfl

@[simp] theorem polls_poll_cons (steps : List (Step α)) :
    polls (poll :: steps) = polls steps + 1 := rfl

@[simp] theorem polls_yield_cons (a : α) (steps : List (Step α)) :
    polls (yield a :: steps) = polls steps := rfl

@[simp] theorem polls_append (steps steps' : List (Step α)) :
    polls (steps ++ steps') = polls steps + polls steps' := by
  induction steps with
  | nil => exact (Nat.zero_add _).symm
  | cons step steps ih =>
    cases step with
    | yield a => exact ih
    | poll =>
      rw [List.cons_append, polls_poll_cons, polls_poll_cons, ih]
      omega

@[simp] theorem polls_map_yield (as : List α) : polls (as.map yield) = 0 := by
  induction as with
  | nil => rfl
  | cons a as ih => exact ih

@[simp] theorem before_zero_poll_cons (steps : List (Step α)) : before 0 (poll :: steps) = [] := rfl

@[simp] theorem before_succ_poll_cons (k : Nat) (steps : List (Step α)) :
    before (k + 1) (poll :: steps) = before k steps := rfl

@[simp] theorem before_yield_cons (k : Nat) (a : α) (steps : List (Step α)) :
    before k (yield a :: steps) = a :: before k steps := by
  cases k <;> rfl

@[simp] theorem before_map_yield_append (k : Nat) (as : List α) (steps : List (Step α)) :
    before k (as.map yield ++ steps) = as ++ before k steps := by
  induction as with
  | nil => rfl
  | cons a as ih => rw [List.map_cons, List.cons_append, before_yield_cons, ih, List.cons_append]

theorem before_prefix (k : Nat) (steps : List (Step α)) : before k steps <+: results steps := by
  induction steps generalizing k with
  | nil => exact List.prefix_rfl
  | cons step steps ih =>
    cases step with
    | yield a =>
      rw [before_yield_cons, results_yield_cons]
      exact (List.prefix_cons_inj a).mpr (ih k)
    | poll =>
      cases k with
      | zero => exact List.nil_prefix
      | succ k => exact ih k

/-- A run of which the poll number `k` is answered with `true` first. The polls of `steps` have
the numbers from `i` on. -/
theorem runFrom_of_first (h : answers k = true) :
    ∀ {i : Nat} (done : List α) (steps : List (Step α)), i ≤ k → k < i + polls steps →
      (∀ j, i ≤ j → j < k → answers j = false) →
      runFrom (.answering answers) i done steps =
        ⟨done.reverse ++ before (k - i) steps, true, k + 1⟩
  | i, done, [], hi, hk, _ => absurd hk (Nat.not_lt.mpr hi)
  | i, done, yield a :: steps, hi, hk, hfirst => by
    rw [runFrom, runFrom_of_first h (a :: done) steps hi hk hfirst]
    simp
  | i, done, poll :: steps, hi, hk, hfirst => by
    rcases Nat.eq_or_lt_of_le hi with rfl | hlt
    · simp [runFrom, Checker.answering, h]
    · have hnext : k - i = k - (i + 1) + 1 := by omega
      rw [polls_poll_cons] at hk
      simp only [runFrom, Checker.answering, hfirst i le_rfl hlt]
      rw [hnext, before_succ_poll_cons]
      exact runFrom_of_first h done steps hlt (by omega)
        fun j hj => hfirst j (Nat.le_of_succ_le hj)

/-- The first poll that is answered with `true` ends the run. -/
theorem run_of_first {steps : List (Step α)} (hk : k < polls steps) (h : answers k = true)
    (hfirst : ∀ j < k, answers j = false) :
    run (.answering answers) 0 steps = ⟨before k steps, true, k + 1⟩ :=
  runFrom_of_first h [] steps (Nat.zero_le k) (by omega) fun j _ => hfirst j

theorem runFrom_of_all_pass :
    ∀ {i : Nat} (done : List α) (steps : List (Step α)),
      (∀ j, i ≤ j → j < i + polls steps → answers j = false) →
      runFrom (.answering answers) i done steps =
        ⟨done.reverse ++ results steps, false, i + polls steps⟩
  | i, done, [], _ => by simp [runFrom]
  | i, done, yield a :: steps, h => by
    rw [runFrom, runFrom_of_all_pass (a :: done) steps h]
    simp
  | i, done, poll :: steps, h => by
    rw [polls_poll_cons] at h
    simp only [runFrom, Checker.answering, h i le_rfl (by omega)]
    refine (runFrom_of_all_pass done steps fun j hj hlt => h j (by omega) (by omega)).trans ?_
    rw [results_poll_cons, polls_poll_cons, Nat.add_assoc, Nat.add_comm 1]

/-- A run of which no poll is answered with `true`. -/
theorem run_of_all_pass {steps : List (Step α)} (h : ∀ j < polls steps, answers j = false) :
    run (.answering answers) 0 steps = ⟨results steps, false, polls steps⟩ := by
  have hrun := runFrom_of_all_pass [] steps (i := 0) fun j _ hj => h j (by omega)
  rwa [Nat.zero_add] at hrun

/-- Either every poll passes, or one of them is the first that does not. -/
theorem all_pass_or_first (n : Nat) (answers : Nat → Bool) :
    (∀ j < n, answers j = false) ∨
      ∃ k < n, answers k = true ∧ ∀ j < k, answers j = false := by
  by_cases h : ∃ k < n, answers k = true
  · obtain ⟨hlt, hk⟩ := Nat.find_spec h
    refine Or.inr ⟨Nat.find h, hlt, hk, fun j hj => ?_⟩
    simpa [Nat.lt_trans hj hlt] using Nat.find_min h hj
  · refine Or.inl fun j hj => ?_
    simpa using fun hanswer => h ⟨j, hj, hanswer⟩

theorem cancelled_run_iff {steps : List (Step α)} :
    (run (.answering answers) 0 steps).cancelled = true ↔ ∃ k < polls steps, answers k = true := by
  rcases all_pass_or_first (polls steps) answers with hpass | ⟨k, hk, h, hfirst⟩
  · rw [run_of_all_pass hpass]
    refine iff_of_false nofun ?_
    rintro ⟨k, hk, h⟩
    exact nomatch (hpass k hk).symm.trans h
  · rw [run_of_first hk h hfirst]
    exact iff_of_true rfl ⟨k, hk, h⟩

end Step

end DotProperties
