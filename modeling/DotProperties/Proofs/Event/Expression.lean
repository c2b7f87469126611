import DotProperties.Proofs.Event.Origin

/-!
# How expressions stop

An expression that is more than a `$` stops at the first brace that no backslash escapes, or else
where its line ends, where the line that it is continued on turns out to be blank or a comment, or
at the end of the text (`StopsExpression`). A character in an expression is part of it and reports
nothing, or it is such a brace, or it breaks the expression off (`Mode.expressionRead`).

So a scan that reports the end of an expression only behind `w` has read `w` in it, but for the
last character if that is its brace (`Scanner.dwells_of_scan`), and what it does report tells how
the expression was stopped (`Event.readsExpression`).
-/

namespace DotProperties

open Event

/-- What may stop an expression. -/
inductive Stopper where
  /-- Its closing brace. -/
  | brace
  /-- The end of the line. -/
  | lineEnd
  /-- A blank line that it is continued on. -/
  | blankLine
  /-- A comment line that it is continued on. -/
  | comment
  /-- The end of the text. -/
  | textEnd
  /-- Anything but an opening brace, behind the `$`. -/
  | alone
  deriving DecidableEq

namespace Mode

/-- In an expression, behind its opening brace. -/
def InExpression (m : Mode) : Prop :=
  m = run .expression ∨ m = escape .expression ∨ m.pending = some .expression

/-- The character `c` breaks an expression off. -/
inductive BreaksOff (m : Mode) (c : Char) : Stopper → Prop
  /-- It ends the line. -/
  | lineEnd : m = run .expression → isTerminator c = true → BreaksOff m c .lineEnd
  /-- It ends a line that has only spacing before it. -/
  | blankLine : m.pending = some .expression → isTerminator c = true →
      m.completesTerminator c = false → BreaksOff m c .blankLine
  /-- It starts a comment on a line that has only spacing before it. -/
  | comment : m.pending = some .expression → c = '#' ∨ c = ';' → BreaksOff m c .comment

end Mode

/-- What stops an expression at the cut between `u` and `v`. -/
inductive StopsExpression (u v : Text) : Stopper → Prop
  /-- A brace before the cut that is in the expression and not behind a backslash. -/
  | brace (u' : Text) : u = u' ++ ['}'] → (Scanner.initial.after u').mode.InExpression →
      (Scanner.initial.after u').mode ≠ .escape .expression → StopsExpression u v .brace
  /-- The character behind the cut. -/
  | character (c : Char) (k : Stopper) : v.head? = some c →
      (Scanner.initial.after u).mode.BreaksOff c k → StopsExpression u v k
  /-- The end of the text. -/
  | textEnd : v = [] → (Scanner.initial.after u).mode.InExpression → StopsExpression u v .textEnd
  /-- There is a `$` before the cut and no opening brace behind it. -/
  | alone : (Scanner.initial.after u).mode = .dollar → v.head? ≠ some '{' →
      StopsExpression u v .alone

/-! ## Characters in an expression -/

namespace Mode

/-- What the character `c` does in an expression. -/
inductive ExpressionRead (m : Mode) (p : Place) (c : Char) : Prop
  /-- It is part of the expression, which goes on. -/
  | part : (∀ o, Event.stop .expression o ∉ (m.read p c).1) → (m.read p c).2.InExpression →
      ExpressionRead m p c
  /-- It is the closing brace. -/
  | brace : c = '}' → m ≠ escape .expression →
      m.read p c = ([.stop .expression (p.offset + 1)], between) → ExpressionRead m p c
  /-- It is not part of the expression, which it breaks off. -/
  | breaksOff (k : Stopper) : m.BreaksOff c k → .stop .expression p.offset ∈ (m.read p c).1 →
      ExpressionRead m p c

variable {m : Mode} {p : Place} {c : Char}

theorem ExpressionRead.of_eq {es : List Event} {m' : Mode} (h : m.read p c = (es, m'))
    (hes : ∀ o, Event.stop .expression o ∉ es) (hm' : m'.InExpression) : m.ExpressionRead p c := by
  refine .part ?_ ?_ <;> rw [h]
  · exact hes
  · exact hm'

theorem not_stop_mem_report {k : Construct} {o : Nat} : Event.stop k o ∉ report p c := by
  unfold report
  split_ifs <;> simp

theorem InExpression.stop_mem_close (h : m.InExpression) (o : Nat) :
    Event.stop .expression o ∈ m.close o := by
  rcases h with rfl | rfl | h
  · exact List.mem_cons_self
  · exact List.mem_cons_self
  · rcases eq_of_pending h with rfl | rfl | rfl <;> exact List.mem_cons_self

theorem EndsLine.expressionRead {outcome : List Event × Option Run}
    (h : EndsLine p.offset m outcome) (hm : m.InExpression) (hc : isTerminator c = true)
    (hread : m.read p c = (outcome.1, nextLine c outcome.2))
    (hcompletes : m.completesTerminator c = false) : m.ExpressionRead p c := by
  have hstop := hm.stop_mem_close p.offset
  cases h with
  | continued r =>
    obtain rfl : r = .expression := by simpa [InExpression, pending] using hm
    refine .of_eq hread (fun _ => List.not_mem_nil) (Or.inr (Or.inr ?_))
    exact apply_nextLine Mode.pending rfl c
  | value => simp [InExpression, pending] at hm
  | blank hblank =>
    have hpending : m.pending = some .expression := by
      rcases hm with rfl | rfl | hm
      · cases hblank
      · cases hblank
      · exact hm
    refine .breaksOff .blankLine (.blankLine hpending hc hcompletes) ?_
    rw [hread]
    exact List.mem_append_left _ hstop
  | closed hblank _ hescape =>
    have hrun : m = run .expression := by
      rcases hm with hm | hm | hm
      · exact hm
      · exact (hescape _ hm).elim
      · rcases eq_of_pending hm with rfl | rfl | rfl <;> cases hblank
    refine .breaksOff .lineEnd (.lineEnd hrun hc) ?_
    rw [hread]
    exact hstop

theorem Takes.expressionRead {m' : Mode} {es : List Event} (h : Takes p c m es m')
    (hm : m.InExpression) : m.ExpressionRead p c := by
  have hread := h.read_eq
  cases h with
  | feed q | indent q =>
    have hq : q = some .expression := by simpa [InExpression, pending] using hm
    exact .of_eq hread (fun _ => List.not_mem_nil) (Or.inr (Or.inr hq))
  | lineEnd hc hcompletes hend => exact hend.expressionRead hm hc hread hcompletes
  | comment q hc =>
    have hq : q = some .expression := by simpa [InExpression, pending] using hm
    refine .breaksOff .comment (.comment hq hc) ?_
    rw [hread]
    exact List.mem_append_left _ (hm.stop_mem_close p.offset)
  | backslash r =>
    obtain rfl : r = .expression := by simpa [InExpression, pending] using hm
    exact .of_eq hread (fun _ => List.not_mem_nil) (Or.inr (Or.inl rfl))
  | escaped r | part r =>
    obtain rfl : r = .expression := by simpa [InExpression, pending] using hm
    exact .of_eq hread (fun _ => not_stop_mem_report) (Or.inl rfl)
  | closing hc => exact .brace hc (by simp) hread
  | _ => simp [InExpression, pending] at hm

theorem Turns.breaksOff {m' : Mode} {es : List Event} (h : Turns p c m es m') {k : Stopper}
    (hk : m'.BreaksOff c k) : m.BreaksOff c k := by
  cases hk with
  | lineEnd hm' hc =>
    subst hm'
    cases h with
    | resume r hcontent => simp [isContent, hc] at hcontent
  | blankLine hm' hc =>
    cases h with
    | lineStart q => exact .blankLine hm' hc rfl
    | afterReturn q hfeed => exact .blankLine hm' hc (beq_false_of_ne hfeed)
    | _ => cases hm'
  | comment hm' hc =>
    cases h with
    | lineStart q | afterReturn q => exact .comment hm' hc
    | _ => cases hm'

/-- What a character does in an expression it does where a line goes on with the expression. -/
theorem Turns.expressionRead {m' : Mode} {es : List Event} (h : Turns p c m es m')
    (hm : m.InExpression) (hm' : m'.InExpression → m'.ExpressionRead p c) :
    m.ExpressionRead p c := by
  obtain ⟨rfl, hin, hescape⟩ : es = [] ∧ m'.InExpression ∧ m ≠ escape .expression := by
    cases h with
    | lineStart q | afterReturn q | resume r =>
      exact ⟨rfl, by simpa [InExpression, pending] using hm, by simp⟩
    | _ => simp [InExpression, pending] at hm
  have hread : m.read p c = m'.read p c := h.read_eq
  cases hm' hin with
  | part hstop hmode => exact .part (hread ▸ hstop) (hread ▸ hmode)
  | brace hc _ hbrace => exact .brace hc hescape (hread.trans hbrace)
  | breaksOff k hk hstop => exact .breaksOff k (h.breaksOff hk) (hread ▸ hstop)

/-- A character that is read in an expression is part of it, closes it or breaks it off. -/
theorem expressionRead (h : m.InExpression) (p : Place) (c : Char) : m.ExpressionRead p c := by
  have hreads := m.reads_read p c
  generalize (m.read p c).1 = es, (m.read p c).2 = m' at hreads
  induction hreads with
  | take htakes => exact htakes.expressionRead h
  | turn hturns _ ih => exact hturns.expressionRead h ih

/-- A brace that no backslash escapes closes the expression. -/
theorem read_brace (h : m.InExpression) (hm : m ≠ escape .expression) (p : Place) :
    m.read p '}' = ([.stop .expression (p.offset + 1)], between) := by
  rcases h with rfl | rfl | h
  · rfl
  · exact (hm rfl).elim
  · rcases eq_of_pending h with rfl | rfl | rfl <;> rfl

/-! ## The start of an expression -/

theorem Takes.eq_dollar {m' : Mode} {es : List Event} (h : Takes p c m es m') {o : Nat}
    (ho : Event.start .expression o ∈ es) : m' = .dollar := by
  cases h with
  | literal | dollar => rfl
  | lineEnd _ _ hend => cases (hend.starts ho).1
  | comment q =>
    rcases List.mem_append.mp ho with ho | ho
    · exact (not_start_mem_close _ _ ho).elim
    · simp at ho
  | escaped | part => exact (not_start_mem_report ho).elim
  | _ => simp at ho

/-- Where an expression starts, its `$` was read. -/
theorem Reads.eq_dollar {m' : Mode} {es : List Event} (h : Reads p c m es m') {o : Nat}
    (ho : Event.start .expression o ∈ es) : m' = dollar := by
  induction h with
  | take h => exact h.eq_dollar ho
  | turn h _ ih =>
    rcases List.mem_append.mp ho with ho | ho
    · cases h <;> simp at ho
    · exact ih ho

/-- Behind the `$` an opening brace goes on with the expression, and anything else stops it. -/
theorem read_dollar (p : Place) (c : Char) :
    c = '{' ∧ dollar.read p c = ([], run .expression) ∨
      c ≠ '{' ∧ .stop .expression p.offset ∈ (dollar.read p c).1 := by
  by_cases hbrace : c = '{'
  · subst hbrace
    exact Or.inl ⟨rfl, rfl⟩
  refine Or.inr ⟨hbrace, ?_⟩
  rw [(Turns.dollar hbrace).read_eq]
  exact List.mem_cons_self

end Mode

/-! ## Whole expressions -/

namespace Scanner

/-- The scan stays in an expression while it reads a text. -/
def Dwells (s : Scanner) : Text → Prop
  | [] => s.mode.InExpression
  | c :: w => s.mode.InExpression ∧ (s.next c).Dwells w

theorem Dwells.head {s : Scanner} {w : Text} (h : s.Dwells w) : s.mode.InExpression := by
  cases w with
  | nil => exact h
  | cons c w => exact h.1

theorem Dwells.after {s : Scanner} {w : Text} (h : s.Dwells w) : (s.after w).mode.InExpression := by
  induction w generalizing s with
  | nil => exact h
  | cons c w ih => exact ih h.2

/-- A scan that reports no end of an expression before `w` is read stays in it until then, or until
the brace that `w` ends with. -/
theorem dwells_of_scan {s : Scanner} (hs : s.mode.InExpression) {w v : Text}
    (h : ∀ o, stop .expression o ∈ Step.results (s.scan (w ++ v)) → s.place.offset + w.length ≤ o) :
    s.Dwells w ∨ ∃ w', w = w' ++ ['}'] ∧ s.Dwells w' ∧ (s.after w').mode ≠ .escape .expression := by
  induction w generalizing s with
  | nil => exact Or.inl hs
  | cons c w ih =>
    rw [List.cons_append, results_scan_cons] at h
    cases Mode.expressionRead hs s.place c with
    | part _ hnext =>
      have hrest : ∀ o, stop .expression o ∈ Step.results ((s.next c).scan (w ++ v)) →
          (s.next c).place.offset + w.length ≤ o := by
        intro o ho
        have hle := h o (List.mem_append_right _ ho)
        rw [List.length_cons] at hle
        rw [next_offset]
        omega
      rcases ih (s := s.next c) hnext hrest with hdwells | ⟨w', rfl, hdwells, hescape⟩
      · exact Or.inl ⟨hs, hdwells⟩
      · exact Or.inr ⟨c :: w', rfl, ⟨hs, hdwells⟩, hescape⟩
    | brace hc hescape hread =>
      have hle := h _ (List.mem_append_left _ (by rw [hread]; exact List.mem_cons_self))
      obtain rfl : w = [] := by
        refine List.eq_nil_of_length_eq_zero ?_
        rw [List.length_cons] at hle
        omega
      exact Or.inr ⟨[], by rw [hc]; rfl, hs, hescape⟩
    | breaksOff k _ hstop =>
      have hle := h _ (List.mem_append_left _ hstop)
      rw [List.length_cons] at hle
      omega

end Scanner

/-! ## One stopper -/

namespace Mode

variable {m : Mode} {c : Char} {k : Stopper}

theorem InExpression.ne (h : m.InExpression) : m ≠ between ∧ m ≠ dollar := by
  constructor <;> rintro rfl <;> rcases h with h | h | h <;> exact nomatch h

theorem BreaksOff.inExpression (h : m.BreaksOff c k) : m.InExpression := by
  cases h with
  | lineEnd hm => exact Or.inl hm
  | blankLine hm | comment hm => exact Or.inr (Or.inr hm)

theorem BreaksOff.mem (h : m.BreaksOff c k) :
    k ∈ [.lineEnd, .blankLine, .comment, .textEnd] := by
  cases h <;> decide

theorem BreaksOff.unique {k' : Stopper} (h : m.BreaksOff c k) (h' : m.BreaksOff c k') : k = k' := by
  cases h with
  | lineEnd hm =>
    subst hm
    cases h' with
    | lineEnd => rfl
    | blankLine hm | comment hm => exact nomatch hm
  | blankLine hm hc =>
    cases h' with
    | lineEnd hm' => exact nomatch hm' ▸ hm
    | blankLine => rfl
    | comment _ hc' => rcases hc' with rfl | rfl <;> exact nomatch hc
  | comment hm hc =>
    cases h' with
    | lineEnd hm' => exact nomatch hm' ▸ hm
    | blankLine _ hc' => rcases hc with rfl | rfl <;> exact nomatch hc'
    | comment => rfl

end Mode

namespace StopsExpression

variable {u v : Text} {k k' : Stopper}

theorem mode_of_brace (h : StopsExpression u v .brace) :
    (Scanner.initial.after u).mode = .between := by
  cases h with
  | brace u' hu hm hescape =>
    subst hu
    rw [Scanner.after_append]
    exact congrArg Prod.snd (Mode.read_brace hm hescape _)
  | character c k _ hk => exact nomatch hk

/-- An expression that is not closed by a brace stops where a scan is in it or behind its `$`. -/
theorem mode_of_ne_brace (h : StopsExpression u v k) (hk : k ≠ .brace) :
    (Scanner.initial.after u).mode ≠ .between := by
  cases h with
  | brace => exact (hk rfl).elim
  | character c k _ hm => exact hm.inExpression.ne.1
  | textEnd _ hm => exact hm.ne.1
  | alone hm =>
    rw [hm]
    exact nofun

/-- Nothing else stops an expression. -/
theorem unique (h : StopsExpression u v k) (h' : StopsExpression u v k') : k = k' := by
  by_cases hk : k = .brace
  · subst hk
    by_contra hk'
    exact h'.mode_of_ne_brace (Ne.symm hk') h.mode_of_brace
  by_cases hk' : k' = .brace
  · subst hk'
    exact (h.mode_of_ne_brace hk h'.mode_of_brace).elim
  cases h with
  | brace => exact (hk rfl).elim
  | character c k hv hm =>
    cases h' with
    | brace => exact (hk' rfl).elim
    | character c' k' hv' hm' =>
      obtain rfl := Option.some.inj (hv.symm.trans hv')
      exact hm.unique hm'
    | textEnd hv' => exact nomatch hv' ▸ hv
    | alone hm' => exact (hm.inExpression.ne.2 hm').elim
  | textEnd hv hm =>
    cases h' with
    | brace => exact (hk' rfl).elim
    | character c' k' hv' => exact nomatch hv ▸ hv'
    | textEnd => rfl
    | alone hm' => exact (hm.ne.2 hm').elim
  | alone hm =>
    cases h' with
    | brace => exact (hk' rfl).elim
    | character c' k' _ hm' => exact (hm'.inExpression.ne.2 hm).elim
    | textEnd _ hm' => exact (hm'.ne.2 hm).elim
    | alone => rfl

end StopsExpression

/-! ## The text of an expression -/

namespace Event

variable {u w v : Text}

theorem mem_ofText_of_mem_scan {e : Event}
    (h : e ∈ Step.results ((Scanner.initial.after u).scan v)) : e ∈ ofText (u ++ v) := by
  rw [ofText_eq, Scanner.results_scan_append]
  exact List.mem_cons_of_mem _ (List.mem_append_right _ h)

/-- An expression that stops where a scan is still in it was broken off or is at the end of the
text. -/
theorem exists_stops_of_inExpression (hm : (Scanner.initial.after u).mode.InExpression)
    (h : stop .expression u.length ∈ ofText (u ++ v)) :
    ∃ k ∈ [.lineEnd, .blankLine, .comment, .textEnd], StopsExpression u v k := by
  cases exists_origin h rfl with
  | start hstart => exact nomatch hstart
  | character c v' hv hmem =>
    subst hv
    cases Mode.expressionRead hm (Scanner.initial.after u).place c with
    | part hquiet _ => exact (hquiet _ hmem).elim
    | brace _ _ hread =>
      rw [hread, Scanner.offset_after_initial] at hmem
      simp at hmem
    | breaksOff k hk _ => exact ⟨k, hk.mem, .character c k rfl hk⟩
  | brace _ hbetween =>
    rw [hbetween] at hm
    rcases hm with hm | hm | hm <;> exact nomatch hm
  | textEnd hv _ => exact ⟨.textEnd, by decide, .textEnd hv hm⟩

/-- How the text of an expression between `u` and `v` is read. -/
inductive ReadsExpression (u v : Text) : Text → Prop
  /-- It is a `$` alone. -/
  | alone : StopsExpression (u ++ ['$']) v .alone → ReadsExpression u v ['$']
  /-- It goes on up to its brace. -/
  | closed (w : Text) : (Scanner.initial.after (u ++ ['$', '{'])).mode = .run .expression →
      (Scanner.initial.after (u ++ ['$', '{'])).Dwells w →
      ((Scanner.initial.after (u ++ ['$', '{'])).after w).mode ≠ .escape .expression →
      ReadsExpression u v ('$' :: '{' :: (w ++ ['}']))
  /-- It goes on up to something else. -/
  | unclosed (w : Text) (k : Stopper) :
      (Scanner.initial.after (u ++ ['$', '{'])).mode = .run .expression →
      (Scanner.initial.after (u ++ ['$', '{'])).Dwells w →
      k ∈ [.lineEnd, .blankLine, .comment, .textEnd] →
      StopsExpression (u ++ '$' :: '{' :: w) v k → ReadsExpression u v ('$' :: '{' :: w)

/-- Behind an opening brace an expression goes on up to its end. -/
theorem readsExpression_of_run
    (hm : (Scanner.initial.after (u ++ ['$', '{'])).mode = .run .expression)
    (hstop : stop .expression (u.length + ('$' :: '{' :: w).length) ∈
      ofText (u ++ ('$' :: '{' :: w ++ v)))
    (honly : ∀ o, stop .expression o ∈ ofText (u ++ ('$' :: '{' :: w ++ v)) →
      o ≤ u.length ∨ u.length + ('$' :: '{' :: w).length ≤ o) :
    ReadsExpression u v ('$' :: '{' :: w) := by
  have hsplit : u ++ ('$' :: '{' :: w ++ v) = u ++ ['$', '{'] ++ (w ++ v) := by simp
  have hoffset := Scanner.offset_after_initial (u ++ ['$', '{'])
  have hstops : ∀ o, stop .expression o ∈
      Step.results ((Scanner.initial.after (u ++ ['$', '{'])).scan (w ++ v)) →
        (Scanner.initial.after (u ++ ['$', '{'])).place.offset + w.length ≤ o := by
    intro o ho
    have hlo : _ ≤ o := (Scanner.placed_scan _ (w ++ v)).lo_le _ ho
    have hle := honly o (hsplit ▸ mem_ofText_of_mem_scan ho)
    simp only [hoffset, List.length_append, List.length_cons, List.length_nil] at hlo hle ⊢
    omega
  rcases Scanner.dwells_of_scan (Or.inl hm) hstops with hdwells | ⟨w', rfl, hdwells, hescape⟩
  · have hend := hdwells.after
    have hjoin : u ++ ['$', '{'] ++ w = u ++ '$' :: '{' :: w := by simp
    rw [← Scanner.after_append, hjoin] at hend
    obtain ⟨k, hk, hstops⟩ := exists_stops_of_inExpression (v := v) hend (by simpa using hstop)
    exact .unclosed w k hm hdwells hk hstops
  · exact .closed w' hm hdwells hescape

/-- The text of an expression, whose end is reported behind it and nowhere in it. -/
theorem readsExpression (hstart : start .expression u.length ∈ ofText (u ++ (w ++ v)))
    (hstop : stop .expression (u.length + w.length) ∈ ofText (u ++ (w ++ v)))
    (honly : ∀ o, stop .expression o ∈ ofText (u ++ (w ++ v)) →
      o ≤ u.length ∨ u.length + w.length ≤ o) (hw : w ≠ []) : ReadsExpression u v w := by
  obtain ⟨c, w, rfl⟩ := List.exists_cons_of_ne_nil hw
  obtain ⟨rfl, -⟩ : c = '$' ∧ _ := starts_of_mem_ofText (by decide) hstart
  have hdollar : (Scanner.initial.after (u ++ ['$'])).mode = .dollar := by
    cases exists_origin hstart rfl with
    | start h => exact nomatch h
    | character d v' hv hmem =>
      obtain ⟨rfl, -⟩ := List.cons.inj hv
      rw [Scanner.after_append]
      exact (Mode.reads_read _ _ _).eq_dollar hmem
    | brace h => exact nomatch h
    | textEnd h => exact nomatch h
  have hoffset := Scanner.offset_after_initial (u ++ ['$'])
  cases w with
  | nil =>
    refine .alone (.alone hdollar fun hhead => ?_)
    obtain ⟨v', rfl⟩ := List.head?_eq_some_iff.mp hhead
    have hstop' : stop .expression (u ++ ['$']).length ∈ ofText (u ++ ['$'] ++ '{' :: v') := by
      simpa using hstop
    cases exists_origin hstop' rfl with
    | start h => exact nomatch h
    | character d v'' hv hmem =>
      obtain ⟨rfl, -⟩ := List.cons.inj hv
      rw [hdollar] at hmem
      exact nomatch hmem
    | brace _ hbetween => exact nomatch hdollar.symm.trans hbetween
    | textEnd h => exact nomatch h
  | cons c w =>
    rcases Mode.read_dollar (Scanner.initial.after (u ++ ['$'])).place c with
      ⟨rfl, hread⟩ | ⟨-, hmem⟩
    · refine readsExpression_of_run ?_ hstop honly
      have hsplit : u ++ ['$', '{'] = u ++ ['$'] ++ ['{'] := by simp
      rw [hsplit, Scanner.after_append]
      show (Mode.read _ _ '{').2 = _
      rw [hdollar, hread]
    · have hmem' : stop .expression (u ++ ['$']).length ∈ ofText (u ++ ['$'] ++ c :: (w ++ v)) := by
        refine mem_ofText_of_mem_scan ?_
        rw [Scanner.results_scan_cons, hdollar]
        exact List.mem_append_left _ (hoffset ▸ hmem)
      have hle := honly _ (by simpa using hmem')
      simp only [List.length_cons] at hle
      omega

end Event

end DotProperties
