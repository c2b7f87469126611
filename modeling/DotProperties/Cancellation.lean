/-!
# Cancellation

A long computation asks at fixed points whether its result is still wanted. It is
written down as a list of `Step`s, in the order in which they happen : a `poll`, or a
result that is handed out. Nothing in such a list depends on the answers, so one list
describes the computation under every checker.

`Step.run` carries the list out against a checker. The checker has a state, which every
poll may change : a count of the polls, or a whole workspace in which other requests
are served while the poll is under way. The first poll that is answered with `true` ends
the run, and what was handed out before it is kept.

A `TokenPool` holds the flags that cancellation tokens share : a clone has the flag of
the token it was made from.
-/

namespace DotProperties

/-- One step of a computation that can be cancelled. -/
inductive Step (α : Type) where
  /-- Ask whether to go on. -/
  | poll
  /-- Hand out a result. -/
  | yield (a : α)
  deriving DecidableEq

/-- Tells at a poll whether to stop, and changes its state. -/
abbrev Checker (σ : Type) := σ → Bool × σ

/-- How the run of a computation ended. -/
structure Outcome (σ α : Type) where
  /-- The results handed out, in order. -/
  results : List α
  /-- A poll ended the run. -/
  cancelled : Bool
  /-- The checker's state at the end. -/
  state : σ

namespace Step

variable {σ α : Type}

/-- Carry out `steps` from the state `s`, after the results `done`, latest first. -/
def runFrom (check : Checker σ) (s : σ) (done : List α) : List (Step α) → Outcome σ α
  | [] => ⟨done.reverse, false, s⟩
  | poll :: steps =>
    match check s with
    | (true, s') => ⟨done.reverse, true, s'⟩
    | (false, s') => runFrom check s' done steps
  | yield a :: steps => runFrom check s (a :: done) steps

/-- Carry out `steps` from the state `s`. -/
def run (check : Checker σ) (s : σ) (steps : List (Step α)) : Outcome σ α :=
  runFrom check s [] steps

/-- The result of a step, if it hands one out. -/
def result? : Step α → Option α
  | poll => none
  | yield a => some a

/-- Everything `steps` hand out when nothing cancels them. -/
def results (steps : List (Step α)) : List α := steps.filterMap result?

end Step

/-- Answers the polls from a list of answers by their number, and counts them. -/
def Checker.answering (answers : Nat → Bool) : Checker Nat := fun k => (answers k, k + 1)

/-- Lets the first `limit` polls pass, and counts all of them. Without a limit every poll
passes. -/
def Checker.after (limit : Option Nat) : Checker Nat :=
  .answering fun k => limit.any (· ≤ k)

/-- Cancellation tokens : the flag that each token shares, and which flags are raised. -/
structure TokenPool where
  /-- The flag of each token, in the order the tokens were made. -/
  tokens : List Nat
  /-- Whether each flag is raised. -/
  flags : List Bool

namespace TokenPool

/-- One token with a flag of its own. -/
def start : TokenPool := ⟨[0], [false]⟩

/-- Add a token with a new flag. -/
def create (p : TokenPool) : TokenPool :=
  ⟨p.tokens ++ [p.flags.length], p.flags ++ [false]⟩

/-- Add a token with the flag of the token `i`. -/
def clone? (p : TokenPool) (i : Nat) : Option TokenPool :=
  p.tokens[i]?.map fun flag => { p with tokens := p.tokens ++ [flag] }

/-- Raise the flag of the token `i`. -/
def cancel? (p : TokenPool) (i : Nat) : Option TokenPool :=
  p.tokens[i]?.map fun flag => { p with flags := p.flags.set flag true }

/-- Whether each token is cancelled. -/
def cancelled (p : TokenPool) : List Bool :=
  p.tokens.map fun flag => p.flags[flag]?.getD false

end TokenPool

/-- What is told about a request that was cancelled. -/
def cancelledMessage : String := "the request was cancelled"

end DotProperties
