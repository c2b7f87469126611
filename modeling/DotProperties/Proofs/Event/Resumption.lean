import DotProperties.Proofs.Event.Locality
import DotProperties.Proofs.Event.Placement
import DotProperties.Proofs.Text.Continuation
import Mathlib.Data.List.Induction

/-!
# Scans behind a continuation

A continuation that is put inside a key or a value changes where the rest of the text stands and
nothing else, but for the fragments of the value. So the comparison is made on outlines
(`Event.isOutline`), which leave fragments out (`Event.outline_ofText_insert`).

The mode of a scan knows as much of the text before it as that takes. Behind an odd number of
backslashes it is an escape, unless the text there is skipped, and behind a `$` that starts an
expression it says so (`Mode.Follows`). The last event of the outline tells whether a key or a
value is open (`Mode.Reads.inside`). In either one, and behind no odd backslash, a scan has a run
that it goes on with behind a continuation (`Mode.resumed`).
-/

namespace DotProperties

open Event

/-! ## Outlines -/

/-- The event says where a construct other than a fragment starts or stops, or where a delimiter
stands. -/
def Event.isOutline : Event → Bool
  | start .literal _ | stop .literal _ | start .expression _ | stop .expression _ => false
  | blankLine _ | invalid _ => false
  | _ => true

/-- The events without fragments and reports. -/
def outline (es : List Event) : List Event := es.filter isOutline

@[simp] theorem outline_append (es es' : List Event) :
    outline (es ++ es') = outline es ++ outline es' := List.filter_append es es'

theorem outline_report (p : Place) (c : Char) : outline (report p c) = [] := by
  unfold report
  split_ifs <;> rfl

theorem isOutline_relocate (f : Nat → Nat) (g : Position → Position) (e : Event) :
    (e.relocate f g).isOutline = e.isOutline := by
  rcases e with ⟨_ | _, _⟩ | ⟨_ | _, _⟩ | _ | _ | _ <;> rfl

/-- The outline of moved events. Positions do not matter to it. -/
theorem outline_map_relocate (n : Nat) (g : Position → Position) (es : List Event) :
    outline (es.map (relocate (· + n) g)) = (outline es).map (shift n 0) := by
  have hsame : isOutline ∘ relocate (· + n) g = isOutline := funext (isOutline_relocate _ g)
  rw [outline, List.filter_map, hsame]
  refine List.map_congr_left fun e he => ?_
  cases e with
  | invalid error => simp [isOutline] at he
  | start | stop | assign | blankLine => rfl

theorem Place.moves_of_offset {n : Nat} {p p' : Place} (h : p'.offset = p.offset + n) :
    p.Moves (· + n) (fun _ => p'.position) p' where
  offset := h.symm
  behind := by
    rw [h]
    exact Nat.add_right_comm p.offset 1 n
  position := rfl

/-- A text that is read further on has the same outline further on, on whichever line it
stands. -/
theorem Scanner.outline_scan_moved {n : Nat} {s s' : Scanner} (hmode : s'.mode = s.mode)
    (hoffset : s'.place.offset = s.place.offset + n) (t : Text) :
    outline (Step.results (s'.scan t)) =
      (outline (Step.results (s.scan t))).map (shift n 0) := by
  have hmoves := Place.moves_of_offset hoffset
  induction t generalizing s s' with
  | nil =>
    have hend := Mode.onTextEnd_relocate hmoves s.mode
    rw [results_scan_nil, results_scan_nil, outline_append, outline_append, List.map_append, hmode,
      hend, outline_map_relocate, hoffset]
    rfl
  | cons c t ih =>
    have hread := Mode.read_relocate hmoves s.mode c
    have hnext : (s'.next c).mode = (s.next c).mode := by
      rw [next, next, hmode, hread]
    have hbehind : (s'.next c).place.offset = (s.next c).place.offset + n := hmoves.behind.symm
    rw [results_scan_cons, results_scan_cons, outline_append, outline_append, List.map_append,
      ih hnext hbehind (Place.moves_of_offset hbehind), hmode, hread, outline_map_relocate]

/-! ## What the mode knows of the text -/

namespace Mode

/-- The mode is one that a scan may have behind the text `t`. -/
def Follows (t : Text) : Mode → Prop
  | escape _ => t.trailingBackslashes % 2 = 1
  | dollar => t.getLast? = some '$'
  | skipped | comment => True
  | _ => t.trailingBackslashes % 2 = 0

variable {t : Text} {p : Place} {c : Char} {m m' : Mode} {es : List Event}

theorem Turns.follows (h : Turns p c m es m') (hm : m.Follows t) : m'.Follows t := by
  cases h with
  | start | lineStart | afterReturn | resume | property | key | value | literal => exact hm
  | skip => trivial
  | dollar =>
    obtain ⟨t, rfl⟩ := List.getLast?_eq_some_iff.mp hm
    exact Text.trailingBackslashes_concat_of_ne t (by decide)

theorem Takes.follows (h : Takes p c m es m') (hm : m.Follows t) : m'.Follows (t ++ [c]) := by
  cases h with
  | backslash r hc =>
    have heven : t.trailingBackslashes % 2 = 0 := hm
    show Text.trailingBackslashes (t ++ [c]) % 2 = 1
    rw [Text.trailingBackslashes_concat, if_pos hc]
    omega
  | escaped r =>
    have hodd : t.trailingBackslashes % 2 = 1 := hm
    show Text.trailingBackslashes (t ++ [c]) % 2 = 0
    rw [Text.trailingBackslashes_concat]
    split_ifs <;> omega
  | part r hc => exact t.trailingBackslashes_concat_of_ne hc
  | lineEnd hc =>
    rw [apply_nextLine (Follows _) rfl]
    refine t.trailingBackslashes_concat_of_ne ?_
    rintro rfl
    cases hc
  | literal hc | dollar hc =>
    subst hc
    exact List.getLast?_concat
  | feed q hc | mark hc | opening hc | closing hc =>
    exact t.trailingBackslashes_concat_of_ne (by rw [hc]; decide)
  | indent q hc | beforeAssign hc | behindAssign hc =>
    exact t.trailingBackslashes_concat_of_ne (by rintro rfl; cases hc)
  | assign hc =>
    exact t.trailingBackslashes_concat_of_ne (by rintro rfl; simp at hc)
  | comment | skipped | inComment => trivial

theorem Reads.follows (h : Reads p c m es m') (hm : m.Follows t) : m'.Follows (t ++ [c]) := by
  induction h with
  | take h => exact h.follows hm
  | turn h _ ih => exact ih (h.follows hm)

end Mode

/-- A scan has a mode that fits the text before it. -/
theorem Scanner.follows_after (t : Text) : (initial.after t).mode.Follows t := by
  induction t using List.reverseRecOn with
  | nil => rfl
  | append_singleton t c ih =>
    rw [after_append]
    exact (Mode.reads_read _ _ c).follows ih

/-! ## Keys and values that are open -/

/-- The key or value that a run is part of. -/
def Run.part : Run → Construct
  | .key => .key
  | .literal | .expression => .value

/-- The key or value that is open. -/
def Mode.inside : Mode → Option Construct
  | lineStart pending | afterReturn pending | indent pending => pending.map Run.part
  | run r | escape r => some r.part
  | between | dollar => some .value
  | start | afterKey | skipped | afterAssign | comment => none

/-- The key or value that is open behind an event. -/
def Event.inside (before : Option Construct) : Event → Option Construct
  | start .key _ => some .key
  | start .value _ => some .value
  | e => if e.isOutline then none else before

theorem foldl_inside_report (p : Place) (c : Char) (before : Option Construct) :
    (report p c).foldl Event.inside before = before := by
  unfold report
  split <;> rfl

/-- Only the outline decides what is open. -/
theorem foldl_inside_outline (es : List Event) (before : Option Construct) :
    (outline es).foldl Event.inside before = es.foldl Event.inside before := by
  induction es generalizing before with
  | nil => rfl
  | cons e es ih =>
    rw [List.foldl_cons, ← ih]
    by_cases h : e.isOutline
    · simp [outline, h]
    · have hbefore : e.inside before = before := by
        rcases e with ⟨_ | _, _⟩ | ⟨_ | _, _⟩ | _ | _ | _ <;> simp_all [isOutline, Event.inside]
      simp [outline, h, hbefore]

/-- Where a key or value is open behind events that start none, they have no outline. -/
theorem outline_eq_nil {es : List Event} {before : Option Construct} {part : Construct}
    (h : es.foldl Event.inside before = some part)
    (hstart : ∀ o, start .key o ∉ es ∧ start .value o ∉ es) : outline es = [] := by
  rw [← foldl_inside_outline] at h
  rcases List.eq_nil_or_concat (outline es) with hnil | ⟨fs, e, hes⟩
  · exact hnil
  · obtain ⟨hmem, houtline⟩ := List.mem_filter.mp (show e ∈ outline es by simp [hes])
    rw [hes, List.concat_eq_append, List.foldl_append] at h
    rcases e with ⟨k, o⟩ | _ | _ | _ | _
    · cases k with
      | key => exact ((hstart o).1 hmem).elim
      | value => exact ((hstart o).2 hmem).elim
      | _ => simp_all [Event.inside, isOutline]
    all_goals simp_all [Event.inside]

namespace Mode

variable {p : Place} {c : Char} {m m' : Mode} {es : List Event}

/-- Behind the end of all that is open neither a key nor a value is. -/
theorem foldl_inside_close (m : Mode) (o : Nat) :
    (m.close o).foldl Event.inside m.inside = none := by
  cases m with
  | lineStart q | afterReturn q | indent q => rcases q with _ | _ | _ | _ <;> rfl
  | run r | escape r => cases r <;> rfl
  | start | afterKey | skipped | afterAssign | between | dollar | comment => rfl

theorem EndsLine.inside {o : Nat} {outcome : List Event × Option Run} (h : EndsLine o m outcome) :
    outcome.1.foldl Event.inside m.inside = outcome.2.map Run.part := by
  cases h with
  | continued | value => rfl
  | blank =>
    rw [List.foldl_append, foldl_inside_close]
    rfl
  | closed => exact foldl_inside_close m o

theorem Turns.inside (h : Turns p c m es m') : es.foldl Event.inside m.inside = m'.inside := by
  cases h <;> rfl

theorem Takes.inside (h : Takes p c m es m') : es.foldl Event.inside m.inside = m'.inside := by
  cases h with
  | lineEnd _ _ hend => exact hend.inside.trans (apply_nextLine inside rfl c).symm
  | comment q =>
    rw [List.foldl_append, foldl_inside_close]
    rfl
  | escaped | part => exact foldl_inside_report p c _
  | _ => rfl

/-- The events of a character tell what is open behind it. -/
theorem Reads.inside (h : Reads p c m es m') : es.foldl Event.inside m.inside = m'.inside := by
  induction h with
  | take h => exact h.inside
  | turn h _ ih => rw [List.foldl_append, h.inside, ih]

end Mode

/-- Within a line, only spacing at its start leaves a run waiting for the line to go on. -/
theorem Mode.Reads.pending {p : Place} {c : Char} {m m' : Mode} {es : List Event}
    (h : Reads p c m es m') (hc : isTerminator c = false) {r : Run} (hr : m'.pending = some r) :
    isSpacing c = true ∧ m.pending = some r := by
  induction h with
  | take h =>
    cases h with
    | feed q hfeed =>
      subst hfeed
      cases hc
    | lineEnd hterminator => exact Bool.noConfusion (hc.symm.trans hterminator)
    | indent q hspacing => exact ⟨hspacing, hr⟩
    | _ => cases hr
  | turn h _ ih =>
    obtain ⟨hspacing, hpending⟩ := ih hr
    cases h with
    | lineStart | afterReturn => exact ⟨hspacing, hpending⟩
    | _ => cases hpending

/-- Only a backslash leads behind a backslash. -/
theorem Mode.Reads.eq_backslash {p : Place} {c : Char} {m m' : Mode} {es : List Event}
    (h : Reads p c m es m') {r : Run} (hm' : m' = escape r) : c = '\\' := by
  induction h with
  | take h =>
    cases h with
    | backslash r hc => exact hc
    | lineEnd =>
      unfold nextLine at hm'
      split_ifs at hm'
    | _ => cases hm'
  | turn _ _ ih => exact ih hm'

/-- The events of a text tell what is open behind it. -/
theorem Scanner.inside_after (s : Scanner) (t : Text) :
    (s.events t).foldl Event.inside s.mode.inside = (s.after t).mode.inside := by
  induction t generalizing s with
  | nil => rfl
  | cons c t ih =>
    rw [events, List.foldl_append, (s.mode.reads_read s.place c).inside, after_cons, ← ih, next]

/-! ## Behind a continuation -/

namespace Mode

/-- The run that goes on behind a continuation that is put here. -/
def resumed : Mode → Option Run
  | run r => some r
  | lineStart pending | afterReturn pending | indent pending => pending
  | between | dollar => some .literal
  | _ => none

/-- Where a key or a value is open behind an even number of backslashes, there is a run that goes
on. -/
theorem exists_resumed {m : Mode} {t : Text} (h : m.Follows t)
    (heven : t.trailingBackslashes % 2 = 0) {part : Construct} (hinside : m.inside = some part) :
    ∃ r, m.resumed = some r := by
  cases m with
  | lineStart pending | afterReturn pending | indent pending =>
    obtain ⟨r, hr, -⟩ := Option.map_eq_some_iff.mp hinside
    exact ⟨r, hr⟩
  | run r => exact ⟨r, rfl⟩
  | escape r =>
    have hodd : t.trailingBackslashes % 2 = 1 := h
    omega
  | between | dollar => exact ⟨.literal, rfl⟩
  | start | afterKey | skipped | afterAssign | comment => simp [inside] at hinside

variable {m : Mode} {r : Run}

theorem eq_of_pending (h : m.pending = some r) :
    m = lineStart (some r) ∨ m = afterReturn (some r) ∨ m = indent (some r) := by
  cases m <;> simp_all [pending]

theorem resumed_of_pending (h : m.pending = some r) : m.resumed = some r := by
  rcases eq_of_pending h with rfl | rfl | rfl <;> rfl

theorem eq_of_resumed (h : m.resumed = some r) :
    m = run r ∨ m.pending = some r ∨ r = .literal ∧ (m = between ∨ m = dollar) := by
  cases m <;> simp_all [resumed, pending]

theorem read_backslash (h : m.resumed = some r) (p : Place) :
    outline (m.read p '\\').1 = [] ∧ (m.read p '\\').2 = escape r := by
  rcases eq_of_resumed h with rfl | hpending | ⟨rfl, rfl | rfl⟩
  · exact ⟨rfl, rfl⟩
  · rcases eq_of_pending hpending with rfl | rfl | rfl <;> exact ⟨rfl, rfl⟩
  · exact ⟨rfl, rfl⟩
  · exact ⟨rfl, rfl⟩

theorem read_spacing (h : m.pending = some r) {c : Char} (hc : isSpacing c = true) (p : Place) :
    m.read p c = ([], indent (some r)) := by
  rcases eq_of_pending h with rfl | rfl | rfl <;>
    rcases Text.isSpacing_iff.mp hc with rfl | rfl <;> rfl

/-- A line goes on with the run that is open. -/
theorem read_of_pending (h : m.pending = some r) {c : Char} (hc : isContent c = true) (p : Place) :
    m.read p c = (run r).read p c := by
  have hresume := (Turns.resume (p := p) r hc).read_eq
  rcases eq_of_pending h with rfl | rfl | rfl
  · exact (Turns.lineStart _).read_eq.trans hresume
  · refine (Turns.afterReturn _ ?_).read_eq.trans hresume
    rintro rfl
    cases hc
  · exact hresume

/-- Where no fragment is open, a character gives the outline that it gives in a literal. -/
theorem read_between {c : Char} (hc : isTerminator c = false) (p : Place) :
    outline (between.read p c).1 = outline ((run .literal).read p c).1 ∧
      (between.read p c).2 = ((run .literal).read p c).2 := by
  by_cases hdollar : c = '$'
  · subst hdollar
    exact ⟨rfl, rfl⟩
  · rw [(Turns.literal hc hdollar).read_eq]
    exact ⟨rfl, rfl⟩

/-- A character that is neither blank nor the start of a comment is read by the run that goes
on. -/
theorem read_resumed (h : m.resumed = some r) {c : Char} (hblank : isBlank c = false)
    (hcomment : c ≠ '#' ∧ c ≠ ';') (hdollar : m = dollar → c ≠ '{') (p : Place) :
    outline (m.read p c).1 = outline ((run r).read p c).1 ∧
      (m.read p c).2 = ((run r).read p c).2 := by
  have hterminator := Text.not_isTerminator_of_not_blank hblank
  rcases eq_of_resumed h with rfl | hpending | ⟨rfl, rfl | rfl⟩
  · exact ⟨rfl, rfl⟩
  · have hcontent : isContent c = true :=
      isContent_iff.mpr ⟨Text.not_isSpacing_of_not_blank hblank, hterminator, hcomment⟩
    rw [read_of_pending hpending hcontent]
    exact ⟨rfl, rfl⟩
  · exact read_between hterminator p
  · rw [(Turns.dollar (hdollar rfl)).read_eq]
    exact read_between hterminator p

end Mode

namespace Scanner

variable {s : Scanner} {r : Run}

theorem after_terminator (h : s.mode = .escape r) {terminator : Text}
    (hterminator : terminator ∈ [['\n'], ['\r', '\n'], ['\r']]) :
    s.events terminator = [] ∧ (s.after terminator).mode.pending = some r := by
  obtain ⟨m, p⟩ := s
  obtain rfl : m = .escape r := h
  simp only [List.mem_cons, List.not_mem_nil, or_false] at hterminator
  rcases hterminator with rfl | rfl | rfl <;> exact ⟨rfl, rfl⟩

theorem after_spacing (h : s.mode.pending = some r) {w : Text}
    (hw : ∀ c ∈ w, isSpacing c = true) :
    s.events w = [] ∧ (s.after w).mode.pending = some r := by
  induction w generalizing s with
  | nil => exact ⟨rfl, h⟩
  | cons c w ih =>
    rw [List.forall_mem_cons] at hw
    have hread := Mode.read_spacing h hw.1 s.place
    have hnext : (s.next c).mode.pending = some r := by
      rw [next, hread]
      rfl
    rw [events, hread, after_cons]
    exact ih hnext hw.2

/-- Behind a continuation a line goes on with the run. -/
theorem after_continuation (h : s.mode.resumed = some r) {inserted : Text}
    (hinserted : inserted.IsContinuation) :
    outline (s.events inserted) = [] ∧ (s.after inserted).mode.pending = some r := by
  obtain ⟨hterminator, hspacing⟩ := hinserted
  obtain ⟨hfirst, hescape⟩ := Mode.read_backslash h s.place
  obtain ⟨hsecond, hpending⟩ := after_terminator (s := s.next '\\') hescape hterminator
  obtain ⟨hthird, hpending⟩ := after_spacing hpending hspacing
  rw [events, events_append, hsecond, hthird, after_cons, after_append]
  rw [List.append_nil, List.append_nil]
  exact ⟨hfirst, hpending⟩

/-- A continuation that is put inside a key or a value moves the outline of what is behind it. -/
theorem outline_scan_insert {part : Construct} (hinside : s.mode.inside = some part) {t : Text}
    (hfollows : s.mode.Follows t) {c : Char} (hc : t.Continuable c) {inserted : Text}
    (hinserted : inserted.IsContinuation) (u : Text) :
    outline (Step.results (s.scan (inserted ++ c :: u))) =
      (outline (Step.results (s.scan (c :: u)))).map (shift inserted.length 0) := by
  obtain ⟨r, hr⟩ := Mode.exists_resumed hfollows hc.even hinside
  obtain ⟨hnone, hpending⟩ := after_continuation hr hinserted
  have hoffset := s.after_offset inserted
  rw [results_scan_append, outline_append, hnone, List.nil_append]
  generalize s.after inserted = s' at hpending hoffset
  have hdollar : s.mode = .dollar → c ≠ '{' := by
    intro hmode hbrace
    rw [hmode] at hfollows
    exact hc.dollar ⟨hfollows, hbrace⟩
  have hdollar' : s'.mode = .dollar → c ≠ '{' := by
    rcases Mode.eq_of_pending hpending with hmode | hmode | hmode <;> simp [hmode]
  -- In both scans the run reads `c`, at two places.
  obtain ⟨hevents, hmode⟩ := Mode.read_resumed hr hc.blank hc.comment hdollar s.place
  obtain ⟨hevents', hmode'⟩ :=
    Mode.read_resumed (Mode.resumed_of_pending hpending) hc.blank hc.comment hdollar' s'.place
  have hmoves := Place.moves_of_offset hoffset
  have hmoved := Mode.read_relocate hmoves (.run r) c
  have hsame : (s'.next c).mode = (s.next c).mode := by
    rw [next, next, hmode, hmode', hmoved]
  rw [results_scan_cons, results_scan_cons, outline_append, outline_append, List.map_append,
    hevents, hevents', hmoved, outline_scan_moved hsame hmoves.behind.symm, outline_map_relocate]

end Scanner

/-! ## Texts -/

namespace Event

/-- A list is cut in one place only between `e` and `f`, if `e` does not stand in the second part
and `f` not in the first one. -/
theorem eq_of_append_eq_of_not_mem {es es' fs fs' : List Event} {e f : Event}
    (h : es ++ es' = fs ++ e :: f :: fs') (he : e ∉ es') (hf : f ∉ es) :
    es = fs ++ [e] ∧ es' = f :: fs' := by
  rw [List.append_cons] at h
  rcases List.append_eq_append_iff.mp h with ⟨gs, hgs, hrest⟩ | ⟨gs, hgs, hrest⟩
  · -- The first part stops before `e`, if at all.
    rcases List.eq_nil_or_concat gs with rfl | ⟨gs, x, rfl⟩
    · exact ⟨by rw [hgs, List.append_nil], hrest⟩
    · rw [List.concat_eq_append] at hgs hrest
      rw [← List.append_assoc] at hgs
      obtain ⟨-, hx⟩ := List.append_inj' hgs rfl
      refine (he ?_).elim
      rw [hrest, List.singleton_inj.mp hx]
      simp
  · -- The second part starts behind `f`, if at all.
    cases gs with
    | nil => exact ⟨by rw [hgs, List.append_nil], hrest.symm⟩
    | cons x gs =>
      obtain ⟨rfl, -⟩ := List.cons.inj hrest
      exact (hf (by simp [hgs])).elim

/-- A list of events is cut in one place only between an event before `k` and one behind it, if
no event of the first part stands behind `k` and no event of the second part before it. -/
theorem eq_of_append_eq {es es' fs fs' : List Event} {e f : Event} {k : Nat}
    (h : es ++ es' = fs ++ e :: f :: fs') (hes : ∀ x ∈ es, x.offset ≤ k)
    (hes' : ∀ x ∈ es', k ≤ x.offset) (he : e.offset < k) (hf : k < f.offset) :
    es = fs ++ [e] ∧ es' = f :: fs' :=
  eq_of_append_eq_of_not_mem h (fun hmem => Nat.not_le.mpr he (hes' e hmem))
    fun hmem => Nat.not_le.mpr hf (hes f hmem)

theorem outline_ofText_append (t u : Text) : outline (ofText (t ++ u)) =
    outline (start .document 0 :: Scanner.initial.events t) ++
      outline (Step.results ((Scanner.initial.after t).scan u)) := by
  rw [ofText_eq, Scanner.results_scan_append, ← List.cons_append, outline_append]

theorem offset_le_of_mem_events {t : Text} {e : Event}
    (h : e ∈ start .document 0 :: Scanner.initial.events t) : e.offset ≤ t.length := by
  refine (placed_ofText t).le_hi e ?_
  have hscan := Scanner.initial.results_scan_append t []
  rw [List.append_nil] at hscan
  rw [ofText_eq, hscan, ← List.cons_append]
  exact List.mem_append_left _ h

theorem offset_le_of_mem_outline {t : Text} {e : Event}
    (h : e ∈ outline (start .document 0 :: Scanner.initial.events t)) : e.offset ≤ t.length :=
  offset_le_of_mem_events (List.mem_filter.mp h).1

theorem le_offset_of_mem_outline {t u : Text} {e : Event}
    (h : e ∈ outline (Step.results ((Scanner.initial.after t).scan u))) :
    t.length ≤ e.offset := by
  have hplaced := (Scanner.initial.after t).placed_scan u
  rw [Scanner.after_offset, show Scanner.initial.place.offset = 0 from rfl, Nat.zero_add] at hplaced
  exact hplaced.lo_le e (List.mem_filter.mp h).1

theorem inside_of_outline {part : Construct} (hpart : part = .key ∨ part = .value) {t : Text}
    {o : Nat} {es : List Event}
    (h : outline (start .document 0 :: Scanner.initial.events t) = es ++ [start part o]) :
    (Scanner.initial.after t).mode.inside = some part := by
  have hinside := foldl_inside_outline (start .document 0 :: Scanner.initial.events t) none
  rw [h, List.foldl_append] at hinside
  refine (Scanner.initial.inside_after t).symm.trans (hinside.symm.trans ?_)
  rcases hpart with rfl | rfl <;> rfl

/-- A continuation inside a key or a value moves the outline of a text from the end of the key
or value on. -/
theorem outline_ofText_insert {part : Construct} (hpart : part = .key ∨ part = .value)
    {t u : Text} {c : Char} {o o' : Nat} {es es' : List Event}
    (h : outline (ofText (t ++ c :: u)) = es ++ start part o :: stop part o' :: es')
    (ho : o < t.length) (ho' : t.length < o') (hc : t.Continuable c) {inserted : Text}
    (hinserted : inserted.IsContinuation) :
    outline (ofText (t ++ (inserted ++ c :: u))) =
      es ++ start part o :: (stop part o' :: es').map (shift inserted.length 0) := by
  rw [outline_ofText_append] at h
  obtain ⟨hbefore, hbehind⟩ := eq_of_append_eq h (fun e => offset_le_of_mem_outline)
    (fun e => le_offset_of_mem_outline) ho ho'
  have hrest := Scanner.outline_scan_insert (inside_of_outline hpart hbefore)
    (Scanner.follows_after t) hc hinserted u
  rw [outline_ofText_append, hrest, hbefore, hbehind, List.append_assoc]
  rfl

end Event

end DotProperties
