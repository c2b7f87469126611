import DotProperties.Proofs.Event.Origin

/-!
# What is open

An event opens a construct, closes one, or does neither (`Event.change`), so a row of events leaves
some number of constructs of each kind open (`level`). A scan knows these constructs : they follow
from its mode (`Mode.stack`), which keeps up with the events of every character
(`Mode.Reads.nests`).

The events of a character stand at the character, unless it is a brace that closes an expression.
So behind any other character a scan knows what is open at that offset (`Event.levelAt_ofText`).
-/

namespace DotProperties

open Event

/-! ## Levels -/

/-- How many more constructs `k` are open behind the event than before it. -/
def Event.change (k : Construct) : Event → Int
  | start c _ => if c = k then 1 else 0
  | stop c _ => if c = k then -1 else 0
  | _ => 0

/-- How many more constructs `k` are open behind the events than before them. -/
def level (k : Construct) : List Event → Int
  | [] => 0
  | e :: es => e.change k + level k es

section

variable (k : Construct)

@[simp] theorem level_nil : level k [] = 0 := rfl

@[simp] theorem level_cons (e : Event) (es : List Event) :
    level k (e :: es) = e.change k + level k es := rfl

@[simp] theorem level_append (es es' : List Event) :
    level k (es ++ es') = level k es + level k es' := by
  induction es with
  | nil => simp
  | cons e es ih => rw [List.cons_append, level_cons, level_cons, ih, Int.add_assoc]

theorem level_report (p : Place) (c : Char) : level k (report p c) = 0 := by
  unfold report
  split_ifs <;> rfl

theorem level_map_stop (ks : List Construct) (o : Nat) :
    level k (ks.map (.stop · o)) = -(ks.count k : Int) := by
  induction ks with
  | nil => rfl
  | cons c ks ih =>
    rw [List.map_cons, level_cons, ih, List.count_cons]
    by_cases hc : c = k
    · simp only [change, hc, if_true, BEq.rfl]
      omega
    · simp [change, hc]

end

/-- How many constructs `k` the events up to the offset `i` leave open. -/
def levelAt (k : Construct) (i : Nat) (es : List Event) : Int := level k (es.filter (·.offset ≤ i))

section

variable (k : Construct) (i : Nat)

@[simp] theorem levelAt_nil : levelAt k i [] = 0 := rfl

@[simp] theorem levelAt_cons (e : Event) (es : List Event) : levelAt k i (e :: es) =
    (if e.offset ≤ i then e.change k else 0) + levelAt k i es := by
  unfold levelAt
  split_ifs with h
  · rw [List.filter_cons_of_pos (by simpa using h), level_cons]
  · rw [List.filter_cons_of_neg (by simpa using h), Int.zero_add]

@[simp] theorem levelAt_append (es es' : List Event) :
    levelAt k i (es ++ es') = levelAt k i es + levelAt k i es' := by
  rw [levelAt, List.filter_append, level_append]
  rfl

variable {k i}

theorem levelAt_of_le {es : List Event} (h : ∀ e ∈ es, e.offset ≤ i) :
    levelAt k i es = level k es := by
  rw [levelAt, List.filter_eq_self.mpr fun e he => decide_eq_true (h e he)]

theorem levelAt_of_lt {es : List Event} (h : ∀ e ∈ es, i < e.offset) : levelAt k i es = 0 := by
  rw [levelAt, List.filter_eq_nil_iff.mpr fun e he => by simpa using h e he, level_nil]

end

/-! ## The constructs of a mode -/

/-- The events turn the constructs `before` that are open into those `behind`, as far as `k`
goes. -/
def Nests (k : Construct) (before : List Construct) (es : List Event) (behind : List Construct) :
    Prop :=
  before.count k + level k es = behind.count k

section

variable {k : Construct} {before mid behind : List Construct} {es es' : List Event}

theorem Nests.append (h : Nests k before es mid) (h' : Nests k mid es' behind) :
    Nests k before (es ++ es') behind := by
  unfold Nests at *
  rw [level_append]
  omega

theorem Nests.cons {e : Event} (he : Nests k before [e] mid) (h : Nests k mid es behind) :
    Nests k before (e :: es) behind := he.append h

/-- Events that are about no construct `k` change nothing. -/
theorem Nests.refl (h : level k es = 0) : Nests k before es before := by
  rw [Nests, h, Int.add_zero]

end

namespace Mode

variable {k : Construct} {p : Place} {c : Char} {m m' : Mode} {es : List Event}

theorem nests_close (m : Mode) (o : Nat) : Nests k m.stack (m.close o) [] := by
  rw [Nests, close, level_map_stop, List.count_reverse, List.count_nil]
  omega

theorem nests_onTextEnd (m : Mode) (o : Nat) : Nests k m.stack (m.onTextEnd o) [] := by
  obtain hend | ⟨-, hend⟩ := m.onTextEnd_cases <;> rw [hend]
  · exact nests_close m o
  · exact (nests_close m o).append (.refl rfl)

theorem EndsLine.nests {o : Nat} {outcome : List Event × Option Run} (h : EndsLine o m outcome) :
    Nests k m.stack outcome.1 (pendingStack outcome.2) := by
  cases h with
  | continued => exact .refl rfl
  | value => exact .cons (by cases k <;> rfl) (nests_close between o)
  | blank => exact (nests_close m o).append (.refl rfl)
  | closed => exact nests_close m o

theorem Turns.nests (h : Turns p c m es m') : Nests k m.stack es m'.stack := by
  cases h with
  | start | lineStart | afterReturn | resume | skip => exact .refl rfl
  | property | key | value | literal | dollar => cases k <;> rfl

theorem Takes.nests (h : Takes p c m es m') : Nests k m.stack es m'.stack := by
  cases h with
  | feed | mark | indent | backslash | opening | beforeAssign | behindAssign | skipped
  | inComment => exact .refl rfl
  | lineEnd _ _ hend =>
    rw [apply_nextLine stack rfl]
    exact hend.nests
  | comment q => exact (nests_close (.indent q) p.offset).append (by cases k <;> rfl)
  | escaped | part => exact .refl (level_report k p c)
  | literal | dollar | closing | assign => cases k <;> rfl

/-- The events of a character turn what is open before it into what is open behind it. -/
theorem Reads.nests (h : Reads p c m es m') : Nests k m.stack es m'.stack := by
  induction h with
  | take h => exact h.nests
  | turn h _ ih => exact h.nests.append ih

end Mode

/-- The events of a text turn what is open before it into what is open behind it. -/
theorem Scanner.nests_events (k : Construct) (s : Scanner) (t : Text) :
    Nests k s.mode.stack (s.events t) (s.after t).mode.stack := by
  induction t generalizing s with
  | nil => exact .refl rfl
  | cons c t ih => exact (s.mode.reads_read s.place c).nests.append (ih (s.next c))

/-! ## What is open at an offset -/

namespace Event

/-- The events up to a character stand at it or before it, if it closes no expression. -/
theorem offset_le_of_mem_concat {u : Text} {c : Char}
    (hc : (Scanner.initial.after (u ++ [c])).mode ≠ .between) {e : Event}
    (h : e ∈ start .document 0 :: Scanner.initial.events (u ++ [c])) : e.offset ≤ u.length := by
  rw [Scanner.events_append, ← List.cons_append] at h
  rcases List.mem_append.mp h with h | h
  · exact offset_le_of_mem_events h
  · rw [Scanner.events, Scanner.events, List.append_nil] at h
    rcases (Mode.reads_read _ _ c).emitsAt e h with hoffset | ⟨-, hbetween⟩
    · rw [hoffset, Scanner.offset_after_initial]
    · rw [Scanner.after_append] at hc
      exact (hc hbetween).elim

/-- Behind a character that closes no expression a scan knows what is open at the character. -/
theorem levelAt_ofText {k : Construct} (hk : k ≠ .document) {u : Text} {c : Char}
    (hc : (Scanner.initial.after (u ++ [c])).mode ≠ .between) (v : Text) :
    levelAt k u.length (ofText (u ++ c :: v)) =
      (Scanner.initial.after (u ++ [c])).mode.stack.count k := by
  have hbehind : ∀ e ∈ Step.results ((Scanner.initial.after (u ++ [c])).scan v),
      u.length < e.offset := by
    intro e he
    have hle := ((Scanner.initial.after (u ++ [c])).placed_scan v).lo_le e he
    rwa [Scanner.offset_after_initial, List.length_append, List.length_singleton] at hle
  have hnests := Scanner.initial.nests_events k (u ++ [c])
  have hdocument : (start .document 0).change k = 0 := if_neg hk.symm
  rw [List.append_cons, ofText_eq, Scanner.results_scan_append, ← List.cons_append, levelAt_append,
    levelAt_of_lt hbehind, levelAt_of_le fun e => offset_le_of_mem_concat hc, level_cons, hdocument,
    Int.zero_add, Int.add_zero]
  simpa [Nests, Scanner.initial, Mode.stack] using hnests

end Event

end DotProperties
