import DotProperties.Proofs.Document.Content
import DotProperties.Proofs.Document.Ranges
import DotProperties.Proofs.Event.Expression

/-!
# Expressions and their braces

Whether an expression is closed is decided twice. A scan stops it at the first brace that no
backslash escapes, or breaks it off (`StopsExpression`). A document looks at its logical text, which
is closed if its last character is a brace (`Document.isClosed`), whatever stands before that brace.

The logical text keeps every backslash that escapes a character and no other one at its end. So
behind an expression that was not stopped by a brace it ends in a brace only if that one is escaped
(`Mode.Tracks`), and before a brace that did stop it there is an even number of backslashes. The two
decisions agree exactly if the logical text does not end in an escaped brace
(`Document.judgesBrace_iff`).
-/

namespace DotProperties

open Event

/-! ## Escaped characters of a logical text -/

namespace Mode

/-- The next character is escaped. A backslash before a terminator escapes nothing, since the two
are a continuation. -/
def escapes (next : Option Char) : Mode → Bool
  | escape _ => !next.any isTerminator
  | _ => false

/-- The logical text `t` of the part of an expression that was read, with `next` behind it. -/
structure Tracks (m : Mode) (next : Option Char) (trimming : Bool) (t : Text) : Prop where
  /-- The backslashes at its end escape each other, but for the one that escapes the next
  character. -/
  parity : t.trailingBackslashes % 2 = if m.escapes next then 1 else 0
  /-- An escaped character is not dropped. -/
  kept : m.escapes next = true → trimming = false
  /-- A brace at its end is escaped. -/
  brace : ∀ u, t = u ++ ['}'] → u.trailingBackslashes % 2 = 1

variable {m : Mode} {p : Place} {c : Char} {next : Option Char} {trimming : Bool} {t : Text}

theorem escapes_of_continuing (h : m.continuing next = true) : m.escapes next = false := by
  cases m with
  | escape r => simpa [continuing, escapes] using h
  | _ => rfl

/-- An escaped character is part of the run. -/
theorem read_of_escapes (hm : m.InExpression) (h : m.escapes (some c) = true) :
    (m.read p c).2 = run .expression := by
  rcases hm with rfl | rfl | hm
  · exact nomatch h
  · have hc : isTerminator c = false := by simpa [escapes] using h
    rw [read_of_not_terminator hc]
    rfl
  · rcases eq_of_pending hm with rfl | rfl | rfl <;> exact nomatch h

theorem not_escapes_of_read (hc : c ≠ '\\') : (m.read p c).2.escapes next = false := by
  cases hmode : (m.read p c).2 with
  | escape r => exact (hc ((m.reads_read p c).eq_backslash hmode)).elim
  | _ => rfl

/-- A backslash that is not escaped leads behind it. -/
theorem read_backslash_of_not_escapes (hm : m.InExpression) (h : m.escapes (some '\\') = false) :
    (m.read p '\\').2 = escape .expression := by
  rcases hm with rfl | rfl | hm
  · rfl
  · exact nomatch h
  · exact (read_backslash (resumed_of_pending hm) p).2

/-- An expression goes on behind a brace only if that one is escaped. -/
theorem escapes_of_brace (hm : m.InExpression) (h : (m.read p '}').2.InExpression) :
    m.escapes (some '}') = true := by
  by_contra hescapes
  have hne : m ≠ escape .expression := by
    rintro rfl
    exact hescapes rfl
  rw [read_brace hm hne] at h
  exact h.ne.1 rfl

namespace Tracks

/-- A character that is left out escapes nothing and is not escaped. -/
theorem skip (h : m.Tracks (some c) trimming t) (hm : m.escapes (some c) = false) {m' : Mode}
    (hm' : m'.escapes next = false) : m'.Tracks next true t := by
  refine ⟨?_, ?_, h.brace⟩
  · rw [h.parity, hm, hm']
  · rw [hm']
    exact nofun

/-- A character of a continuation is left out. -/
theorem continuation (h : m.Tracks (some c) trimming t) (hm : m.InExpression)
    (hc : (m.read p c).2.continuing next = true) : (m.read p c).2.Tracks next true t := by
  refine h.skip (Bool.eq_false_iff.mpr fun hescapes => ?_) (escapes_of_continuing hc)
  rw [read_of_escapes hm hescapes] at hc
  exact nomatch hc

/-- A blank behind a continuation is left out. -/
theorem blank (h : m.Tracks (some c) trimming t) (hc : (trimming && isBlank c) = true) :
    (m.read p c).2.Tracks next true t := by
  rw [Bool.and_eq_true] at hc
  refine h.skip (Bool.eq_false_iff.mpr fun hescapes => ?_) (not_escapes_of_read ?_)
  · exact Bool.noConfusion ((h.kept hescapes).symm.trans hc.1)
  · rintro rfl
    exact nomatch hc.2

/-- Any other character is kept. -/
theorem keep (h : m.Tracks (some c) trimming t) (hm : m.InExpression)
    (hnext : (m.read p c).2.InExpression) (hc : (m.read p c).2.continuing next = false) :
    (m.read p c).2.Tracks next false (t ++ [c]) := by
  have hparity := h.parity
  refine ⟨?_, fun _ => rfl, fun u hu => ?_⟩
  · rw [Text.trailingBackslashes_concat]
    by_cases hbackslash : c = '\\'
    · subst hbackslash
      rw [if_pos rfl]
      cases hescapes : m.escapes (some '\\') with
      | true =>
        -- It makes a pair with the backslash before it.
        have hescapes' : escapes next (run .expression) = false := rfl
        rw [hescapes, if_pos rfl] at hparity
        rw [read_of_escapes hm hescapes, hescapes', if_neg Bool.false_ne_true]
        omega
      | false =>
        -- It escapes the next character, since otherwise it would be part of a continuation.
        rw [hescapes, if_neg Bool.false_ne_true] at hparity
        rw [read_backslash_of_not_escapes hm hescapes] at hc ⊢
        have hescapes' : escapes next (escape .expression) = true := by
          simpa [escapes, continuing] using hc
        rw [hescapes', if_pos rfl]
        omega
    · rw [if_neg hbackslash, not_escapes_of_read hbackslash, if_neg Bool.false_ne_true]
  · obtain ⟨rfl, hlast⟩ := List.append_inj hu (by simpa using congrArg List.length hu)
    obtain rfl := List.singleton_inj.mp hlast
    rw [hparity, escapes_of_brace hm hnext, if_pos rfl]

end Tracks

end Mode

namespace Scanner

/-- What is left of the part of an expression that is read, behind what is left of the part before
it. -/
theorem tracks_strip {s : Scanner} {w : Text} (h : s.Dwells w) (v : Text) {trimming : Bool}
    {t : Text} (ht : s.mode.Tracks (w ++ v).head? trimming t) :
    ∃ trimming', (s.after w).mode.Tracks v.head? trimming'
      (t ++ strip trimming ((s.tagged (w ++ v)).take w.length)) := by
  induction w generalizing s trimming t with
  | nil => exact ⟨trimming, by simpa [strip] using ht⟩
  | cons c w ih =>
    obtain ⟨hs, hrest⟩ := h
    rw [List.cons_append, tagged, List.length_cons, List.take_succ_cons]
    cases htag : (s.next c).mode.continuing (w ++ v).head? with
    | true => exact ih hrest (ht.continuation hs htag)
    | false =>
      rw [strip]
      split_ifs with hblank
      · exact ih hrest (ht.blank hblank)
      · obtain ⟨trimming', h⟩ := ih hrest (ht.keep hs hrest.head htag)
        exact ⟨trimming', by simpa using h⟩

theorem take_tagged_concat (s : Scanner) (w : Text) (c : Char) (v : Text) :
    (s.tagged (w ++ c :: v)).take (w.length + 1) =
      (s.tagged (w ++ c :: v)).take w.length ++
        [(c, ((s.after w).next c).mode.continuing v.head?)] := by
  induction w generalizing s with
  | nil => rfl
  | cons d w ih =>
    rw [List.cons_append, tagged, List.length_cons, List.take_succ_cons, List.take_succ_cons, ih]
    rfl

end Scanner

theorem strip_concat {c : Char} (hc : isBlank c = false) (trimming : Bool)
    (w : List (Char × Bool)) : strip trimming (w ++ [(c, false)]) = strip trimming w ++ [c] := by
  fun_induction strip trimming w with
  | case1 trimming => simp [strip, hc]
  | case2 trimming d w ih => exact ih
  | case3 trimming d w h ih => rw [List.cons_append, strip, if_pos h, ih]
  | case4 trimming d w h ih => rw [List.cons_append, strip, if_neg h, ih, List.cons_append]

/-! ## The text of an expression -/

/-- The text ends in a brace behind an odd number of backslashes. -/
def Text.EndsInEscapedBrace (t : Text) : Prop :=
  t.getLast? = some '}' ∧ trailingBackslashes t.dropLast % 2 = 1

instance (t : Text) : Decidable t.EndsInEscapedBrace :=
  inferInstanceAs (Decidable (t.getLast? = some '}' ∧ Text.trailingBackslashes t.dropLast % 2 = 1))

theorem Text.endsInEscapedBrace_iff {t : Text} :
    t.EndsInEscapedBrace ↔ ∃ u : Text, t = u ++ ['}'] ∧ u.trailingBackslashes % 2 = 1 := by
  rw [EndsInEscapedBrace, List.getLast?_eq_some_iff]
  constructor
  · rintro ⟨⟨u, rfl⟩, hodd⟩
    exact ⟨u, rfl, by rwa [List.dropLast_concat] at hodd⟩
  · rintro ⟨u, rfl, hodd⟩
    exact ⟨⟨u, rfl⟩, by rwa [List.dropLast_concat]⟩

/-- What stops an expression of a text. -/
def Text.Stops (t : Text) (s : Span) (k : Stopper) : Prop :=
  StopsExpression (t.take s.stop) (t.drop s.stop) k

theorem Text.stops_iff {u w v : Text} {k : Stopper} :
    (u ++ (w ++ v)).Stops ⟨u.length, u.length + w.length⟩ k ↔ StopsExpression (u ++ w) v k := by
  have hlength : u.length + w.length = (u ++ w).length := List.length_append.symm
  rw [Stops, ← List.append_assoc, hlength, List.take_left, List.drop_left]

namespace Tree

variable {t : Text} {f : Fragment}

/-- No construct starts or stops in an expression. -/
theorem infix_marksOf (hf : .fragment f ∈ (ofEvents (ofText t)).nodes)
    (hkind : f.kind = .expression) :
    [start .expression f.span.start, stop .expression f.span.stop] <:+: marksOf (ofText t) := by
  have hinfix := Node.marks_within hf
  rwa [← marks_ofText, Node.marks_eq, Node.marks_fragment, hkind] at hinfix

/-- An expression is not empty. -/
theorem start_lt_stop (hf : .fragment f ∈ (ofEvents (ofText t)).nodes)
    (hkind : f.kind = .expression) : f.span.start < f.span.stop := by
  have hchain := List.IsChain.infix (isChain_ofText t) (infix_marksOf hf hkind)
  exact (List.isChain_cons_cons.mp hchain).1

/-- No expression stops in an expression. -/
theorem stop_le_or_le (hf : .fragment f ∈ (ofEvents (ofText t)).nodes)
    (hkind : f.kind = .expression) {o : Nat} (ho : stop .expression o ∈ ofText t) :
    o ≤ f.span.start ∨ f.span.stop ≤ o := by
  obtain ⟨es, es', hes⟩ := infix_marksOf hf hkind
  have hordered : (marksOf (ofText t)).Pairwise fun e e' => e.offset ≤ e'.offset :=
    (placed_ofText t).pairwise.filter _
  have hmem : stop .expression o ∈ marksOf (ofText t) := List.mem_filter.mpr ⟨ho, rfl⟩
  rw [← hes, List.append_assoc] at hordered hmem
  obtain ⟨-, hbehind, hbefore⟩ := List.pairwise_append.mp hordered
  rcases List.mem_append.mp hmem with hmem | hmem
  · exact Or.inl (hbefore _ hmem _ List.mem_cons_self)
  · refine Or.inr ?_
    have hmem : stop .expression o ∈ stop .expression f.span.stop :: es' :=
      (List.mem_cons.mp hmem).resolve_left nofun
    have hbehind : ∀ e ∈ es', f.span.stop ≤ e.offset :=
      (List.pairwise_cons.mp (List.pairwise_cons.mp hbehind).2).1
    rcases List.mem_cons.mp hmem with heq | hmem
    · exact Nat.le_of_eq (Event.stop.inj heq).2.symm
    · exact hbehind _ hmem

end Tree

namespace Scanner

theorem ready_of_run {s : Scanner} {r : Run} (h : s.mode = .run r) (trimming : Bool) (w : Text) :
    s.Ready trimming w := by
  refine ⟨?_, ?_, ?_⟩ <;> rintro ⟨r', hr'⟩ <;> rw [h] at hr' <;> exact nomatch hr'

variable {s : Scanner} {w v : Text} (hs : s.mode = .run .expression) (hw : s.Dwells w)
include hs hw

/-- What is left of an expression behind its opening brace, in front of `v`. -/
theorem tracks_opening :
    ∃ trimming, (s.after w).mode.Tracks v.head? trimming
      (['$', '{'] ++ strip false ((s.tagged (w ++ v)).take w.length)) := by
  refine tracks_strip hw v ⟨?_, fun _ => rfl, fun u hu => ?_⟩
  · rw [hs]
    rfl
  · have hlast := congrArg List.getLast? hu
    simp at hlast

/-- The logical text of an expression that is not closed ends in no brace but an escaped one. -/
theorem odd_of_dwells (hunbroken : s.Unbroken w)
    (hend : (∃ r, (s.after w).mode = .escape r) → ∀ c ∈ v.head?, isTerminator c = false) {u : Text}
    (hu : ['$', '{'] ++ Text.joinFrom false w = u ++ ['}']) : u.trailingBackslashes % 2 = 1 := by
  obtain ⟨trimming, htracks⟩ := tracks_opening (v := v) hs hw
  refine htracks.brace u ?_
  rwa [← joinFrom_eq_strip v hunbroken (ready_of_run hs false w) hend]

/-- The logical text of an expression that is closed ends in its brace, which is not escaped. -/
theorem even_of_dwells (hunbroken : s.Unbroken (w ++ ['}']))
    (hescape : (s.after w).mode ≠ .escape .expression) :
    ∃ u : Text, ['$', '{'] ++ Text.joinFrom false (w ++ ['}']) = u ++ ['}'] ∧
      u.trailingBackslashes % 2 = 0 := by
  obtain ⟨trimming, htracks⟩ := tracks_opening (v := ['}']) hs hw
  have hread := Mode.read_brace hw.after hescape (s.after w).place
  have hbetween : ((s.after w).next '}').mode = .between := congrArg Prod.snd hread
  have htag : Mode.between.continuing [].head? = false := rfl
  have hjoin := joinFrom_eq_strip [] hunbroken (ready_of_run hs false _) (by
    rw [after_append]
    rintro ⟨r, hr⟩
    exact nomatch hbetween.symm.trans hr)
  rw [List.append_nil, List.length_append, List.length_singleton, take_tagged_concat, hbetween,
    htag, strip_concat rfl] at hjoin
  refine ⟨_, by rw [hjoin, List.append_assoc], htracks.parity.trans (if_neg fun hescapes => ?_)⟩
  exact nomatch (Mode.read_of_escapes hw.after hescapes).symm.trans hbetween

end Scanner

/-- The text of an expression and its logical text, by what stops it. -/
inductive Expresses : Stopper → Text → Text → Prop
  /-- It is a `$` alone. -/
  | alone : Expresses .alone ['$'] ['$']
  /-- It ends in its brace. -/
  | closed (w t : Text) :
      (∃ u : Text, '$' :: '{' :: t = u ++ ['}'] ∧ u.trailingBackslashes % 2 = 0) →
      Expresses .brace ('$' :: '{' :: w) ('$' :: '{' :: t)
  /-- It ends in no brace, unless that one is escaped. -/
  | unclosed (k : Stopper) (w t : Text) : k ∈ [.lineEnd, .blankLine, .comment, .textEnd] →
      (∀ u : Text, '$' :: '{' :: t = u ++ ['}'] → u.trailingBackslashes % 2 = 1) →
      Expresses k ('$' :: '{' :: w) ('$' :: '{' :: t)

theorem Event.ReadsExpression.exists_expresses {u w v : Text} (h : ReadsExpression u v w)
    (hunbroken : (Scanner.initial.after u).Unbroken w)
    (hend : (∃ r, ((Scanner.initial.after u).after w).mode = .escape r) →
      ∀ c ∈ v.head?, isTerminator c = false) :
    ∃ k, StopsExpression (u ++ w) v k ∧ Expresses k w w.join := by
  have hjoin (w : Text) : Text.join ('$' :: '{' :: w) = '$' :: '{' :: Text.joinFrom false w := rfl
  cases h with
  | alone hstops => exact ⟨.alone, hstops, .alone⟩
  | closed w hm hdwells hescape =>
    have hunbroken' := Scanner.Unbroken.right (x := ['$', '{']) hunbroken
    rw [← Scanner.after_append] at hunbroken'
    refine ⟨.brace, .brace (u ++ ['$', '{'] ++ w) (by simp) ?_ ?_, ?_⟩
    · rw [Scanner.after_append]
      exact hdwells.after
    · rwa [Scanner.after_append]
    · rw [hjoin]
      exact .closed _ _ (Scanner.even_of_dwells hm hdwells hunbroken' hescape)
  | unclosed w k hm hdwells hk hstops =>
    have hunbroken' := Scanner.Unbroken.right (x := ['$', '{']) hunbroken
    rw [← Scanner.after_append] at hunbroken'
    refine ⟨k, hstops, ?_⟩
    rw [hjoin]
    refine .unclosed k _ _ hk fun u' hu' => ?_
    refine Scanner.odd_of_dwells hm hdwells hunbroken' (v := v) ?_ hu'
    rw [Scanner.after_append]
    exact hend

namespace Document

variable {b : Buffer} {f : Fragment}

/-- An expression of a document is stopped by something, which its logical text tells. -/
theorem exists_expresses (hf : .fragment f ∈ (ofBuffer b).tree.nodes)
    (hkind : f.kind = .expression) : ∃ k, b.text.Stops f.span k ∧
      Expresses k ((ofBuffer b).raw f.span) ((ofBuffer b).logical f.span) := by
  have hnode : (Node.fragment f).kind = .expression := by
    obtain ⟨_, s⟩ := f
    obtain rfl := hkind
    rfl
  obtain ⟨hstart, hstop⟩ := Tree.bounds_mem_ofText hf (congrArg NodeKind.construct? hnode)
  obtain ⟨u, w, v, ht, hspan, hunbroken⟩ := Tree.exists_unbroken hf (by rw [hnode]; decide)
  have honly : ∀ o, stop .expression o ∈ ofText b.text → o ≤ f.span.start ∨ f.span.stop ≤ o :=
    fun o => Tree.stop_le_or_le hf hkind
  have hlt := Tree.start_lt_stop hf hkind
  have hspan : f.span = ⟨u.length, u.length + w.length⟩ := hspan
  have hraw : (ofBuffer b).raw f.span = w := by
    rw [raw_eq_slice, hspan]
    exact Text.slice_of_eq ht rfl
  have hstops (k : Stopper) : b.text.Stops f.span k ↔ StopsExpression (u ++ w) v k := by
    rw [ht, hspan]
    exact Text.stops_iff
  simp only [Node.span] at hstart hstop
  rw [ht, hspan] at hstart hstop honly
  have hw : w ≠ [] := by
    rintro rfl
    simp [hspan] at hlt
  obtain ⟨k, hk, hexpresses⟩ := (readsExpression hstart hstop honly hw).exists_expresses hunbroken
    (not_terminator_of_stop hstop)
  refine ⟨k, (hstops k).mpr hk, ?_⟩
  rwa [logical, hraw]

/-! ## Closed expressions -/

theorem isClosed_iff {d : Document} {t : Text} (h : d.logical f.span = '$' :: '{' :: t) :
    d.isClosed f = true ↔ ∃ u, '$' :: '{' :: t = u ++ ['}'] := by
  have hclosed : d.isClosed f = decide (t.getLast? = some '}') := by
    rw [isClosed, h]
    rfl
  rw [hclosed, decide_eq_true_iff, ← List.getLast?_eq_some_iff]
  cases t <;> simp

/-- An expression counts as closed if a brace stopped it or its logical text ends in an escaped one,
and not for both reasons. -/
theorem isClosed_iff_of_expresses {d : Document} {k : Stopper} {raw : Text}
    (h : Expresses k raw (d.logical f.span)) :
    (d.isClosed f = true ↔ k = .brace ∨ (d.logical f.span).EndsInEscapedBrace) ∧
      (k = .brace → ¬(d.logical f.span).EndsInEscapedBrace) := by
  rw [Text.endsInEscapedBrace_iff]
  generalize hl : d.logical f.span = l at h
  cases h with
  | alone =>
    refine ⟨iff_of_false (by simp [isClosed, hl]) ?_, nofun⟩
    rintro (h | ⟨u, hu, -⟩)
    · exact nomatch h
    · cases u <;> simp at hu
  | closed w t hbrace =>
    obtain ⟨u, hu, heven⟩ := hbrace
    refine ⟨iff_of_true ((isClosed_iff hl).mpr ⟨u, hu⟩) (Or.inl rfl), ?_⟩
    rintro - ⟨u', hu', hodd⟩
    obtain rfl := List.append_cancel_right (hu.symm.trans hu')
    omega
  | unclosed k w t hk hbrace =>
    have hne : k ≠ .brace := by
      rintro rfl
      simp at hk
    refine ⟨(isClosed_iff hl).trans ?_, fun h => (hne h).elim⟩
    exact ⟨fun ⟨u, hu⟩ => Or.inr ⟨u, hu, hbrace u hu⟩,
      fun h => (h.resolve_left hne).imp fun u hu => hu.1⟩

/-- An expression refers to a name if it has an opening brace. -/
theorem isSome_reference?_iff {d : Document} {k : Stopper} {raw : Text}
    (h : Expresses k raw (d.logical f.span)) :
    ((d.reference? f).isSome = true ↔ k ≠ .alone) ∧ (raw.take 2 = ['$', '{'] ↔ k ≠ .alone) := by
  generalize hl : d.logical f.span = l at h
  rw [reference?, hl, Option.isSome_map]
  cases h with
  | alone => exact ⟨iff_of_false nofun (· rfl), iff_of_false nofun (· rfl)⟩
  | closed w t => exact ⟨iff_of_true rfl nofun, iff_of_true rfl nofun⟩
  | unclosed k w t hk =>
    have hne : k ≠ .alone := by
      rintro rfl
      simp at hk
    exact ⟨iff_of_true rfl hne, iff_of_true rfl hne⟩

/-! ## Reports on missing braces -/

/-- A missing brace is reported at the span. -/
def ReportsMissingBrace (d : Document) (c : Catalog) (s : Settings) (span : Span) : Prop :=
  ∃ g ∈ d.diagnostics c s, g.rule = .expression ∧ g.span = span ∧ g.message = "Missing '\x7d'"

section

variable {d : Document} {c : Catalog} {names : List Text} {x : Finding}

theorem quoteName_ne_missing (name : Text) :
    quoteName "Unknown referenced property" name ≠ "Missing '\x7d'" := by
  intro h
  have hhead := congrArg (fun s : String => s.toList.head?) h
  simp [quoteName] at hhead

/-- The rule finds a missing brace in the expressions that have an opening one and do not count as
closed. -/
theorem expressionFinding?_missing_iff : (∃ x, d.expressionFinding? c names f = some x ∧
    x.message = "Missing '\x7d'") ↔ (d.reference? f).isSome = true ∧ d.isClosed f = false := by
  rw [expressionFinding?]
  cases d.reference? f with
  | none => simp
  | some reference =>
    cases hclosed : d.isClosed f with
    | false => simp
    | true =>
      simp only [Option.bind_eq_bind, Option.bind_some, Bool.not_true, Bool.false_eq_true, if_false]
      refine iff_of_false ?_ (by simp)
      rintro ⟨x, hx, hmessage⟩
      obtain ⟨-, hx⟩ := Option.ite_none_left_eq_some.mp hx
      obtain rfl := Option.some.inj hx
      exact quoteName_ne_missing reference hmessage

theorem mem_expressionFindings_iff {globs : List NameGlob} : x ∈ d.expressionFindings c globs ↔
    ∃ p ∈ d.properties, d.isExcluded globs p = false ∧ ∃ v, p.value? = some v ∧
      ∃ f ∈ v.expressions,
        d.expressionFinding? c (d.properties.map d.name).eraseDups f = some x := by
  refine List.mem_flatMap.trans (exists_congr fun p => and_congr_right fun _ => ?_)
  cases p.value? with
  | none => simp
  | some v => cases d.isExcluded globs p <;> simp

end

/-- The expressions among the nodes are those of the values. -/
theorem mem_nodes_expression_iff :
    .fragment f ∈ (ofBuffer b).tree.nodes ∧ f.kind = .expression ↔
      ∃ p ∈ (ofBuffer b).properties, ∃ v, p.value? = some v ∧ f ∈ v.expressions := by
  have hkind (f : Fragment) : f.isExpression = true ↔ f.kind = .expression := beq_iff_eq
  constructor
  · rintro ⟨hf, hexpression⟩
    obtain ⟨p, hp, hn | ⟨v, hv, hn | ⟨f', hf', hn⟩⟩⟩ :=
      Tree.exists_property_of_part hf (by obtain ⟨_ | _, s⟩ := f <;> simp [Node.kind])
    · cases hn
    · cases hn
    · obtain rfl := Node.fragment.inj hn
      exact ⟨p, Tree.mem_properties_iff.mpr hp, v, hv,
        List.mem_filter.mpr ⟨hf', (hkind f).mpr hexpression⟩⟩
  · rintro ⟨p, hp, v, hv, hf⟩
    obtain ⟨hf, hexpression⟩ := List.mem_filter.mp hf
    refine ⟨Tree.mem_nodes_iff.mpr (Or.inr (Or.inr ⟨p, Tree.mem_properties_iff.mp hp, ?_⟩)),
      (hkind f).mp hexpression⟩
    exact Or.inr (Or.inr ⟨v, hv, Or.inr ⟨f, hf, rfl⟩⟩)

/-- A missing brace is reported at expressions only. -/
theorem exists_of_reportsMissingBrace {c : Catalog} {s : Settings} {span : Span}
    (h : (ofBuffer b).ReportsMissingBrace c s span) :
    ∃ f, (.fragment f ∈ (ofBuffer b).tree.nodes ∧ f.kind = .expression) ∧ f.span = span ∧
      ((ofBuffer b).reference? f).isSome = true ∧ (ofBuffer b).isClosed f = false := by
  obtain ⟨g, hg, hrule, hspan, hmessage⟩ := h
  obtain ⟨-, -, x, hx, hplace⟩ := mem_diagnostics_iff.mp hg
  rw [hrule] at hx
  obtain ⟨p, hp, -, v, hv, f, hf, hfinding⟩ := mem_expressionFindings_iff.mp hx
  obtain ⟨range, -, hg'⟩ := exists_of_place? hplace
  have hspan' : g.span = x.span := congrArg Diagnostic.span hg'
  have hmessage' : g.message = x.message := congrArg Diagnostic.message hg'
  refine ⟨f, mem_nodes_expression_iff.mpr ⟨p, hp, v, hv, hf⟩, ?_,
    expressionFinding?_missing_iff.mp ⟨x, hfinding, hmessage'.symm.trans hmessage⟩⟩
  rw [← span_of_expressionFinding? hfinding, ← hspan', hspan]

/-- With the rule on and nothing left alone, a missing brace is reported at every expression that
has an opening one and does not count as closed. -/
theorem reportsMissingBrace_iff (hf : .fragment f ∈ (ofBuffer b).tree.nodes)
    (hkind : f.kind = .expression) (c : Catalog) {s : Settings} (henabled : s.enabled = true)
    (hrule : (s.rule .expression).isEnabled = true)
    (hexcluded : (s.rule .expression).excluded = []) :
    (ofBuffer b).ReportsMissingBrace c s f.span ↔
      ((ofBuffer b).reference? f).isSome = true ∧ (ofBuffer b).isClosed f = false := by
  constructor
  · intro h
    obtain ⟨⟨kind, span⟩, ⟨-, hkind'⟩, hspan, hmissing⟩ := exists_of_reportsMissingBrace h
    obtain ⟨kind', span'⟩ := f
    obtain rfl : kind = kind' := hkind'.trans hkind.symm
    obtain rfl : span = span' := hspan
    exact hmissing
  · intro h
    obtain ⟨x, hfinding, hmessage⟩ := expressionFinding?_missing_iff.mpr h
    obtain ⟨p, hp, v, hv, hf⟩ := mem_nodes_expression_iff.mp ⟨hf, hkind⟩
    have hexclusions : (s.rule .expression).exclusions = [] := by
      rw [RuleSettings.exclusions, hexcluded]
      rfl
    have hx : x ∈ (ofBuffer b).findings c (s.rule .expression).exclusions .expression := by
      rw [hexclusions]
      exact mem_expressionFindings_iff.mpr ⟨p, hp, rfl, v, hv, f, hf, hfinding⟩
    obtain ⟨range, -, hplace⟩ := exists_place_of_bounds (bounds_of_mem_findings hx) .expression
      (s.rule .expression).severity
    refine ⟨⟨range, x.span, (s.rule .expression).severity, .expression, x.message,
      x.propertyName⟩, ?_, rfl, span_of_expressionFinding? hfinding, hmessage⟩
    exact mem_diagnostics_iff.mpr ⟨henabled, hrule, x, hx, hplace⟩

/-! ## The two decisions -/

/-- A document judges the end of an expression as a scan does. -/
structure JudgesBrace (b : Buffer) (f : Fragment) : Prop where
  /-- It counts as closed exactly if a brace stopped it that is not escaped. -/
  closed : (ofBuffer b).isClosed f = true ↔ b.text.Stops f.span .brace
  /-- With the rule on and nothing left alone, a missing brace is reported exactly if the expression
  has an opening one and something else stopped it. -/
  reported : ∀ (c : Catalog) (s : Settings), s.enabled = true →
    (s.rule .expression).isEnabled = true → (s.rule .expression).excluded = [] →
      ((ofBuffer b).ReportsMissingBrace c s f.span ↔
        ((ofBuffer b).raw f.span).take 2 = ['$', '{'] ∧
          ∃ k ∈ [.lineEnd, .blankLine, .comment, .textEnd], b.text.Stops f.span k)

/-- Every expression is stopped by one thing, and the document judges its end as the scan does
exactly if its logical text does not end in an escaped brace. A missing brace is reported at
expressions only. -/
theorem judgesBrace_iff (b : Buffer) :
    (∀ f, .fragment f ∈ (ofBuffer b).tree.nodes → f.kind = .expression →
      (∃! k, b.text.Stops f.span k) ∧
        (JudgesBrace b f ↔ ¬((ofBuffer b).logical f.span).EndsInEscapedBrace)) ∧
    ∀ c s span, (ofBuffer b).ReportsMissingBrace c s span →
      ∃ f, .fragment f ∈ (ofBuffer b).tree.nodes ∧ f.kind = .expression ∧ f.span = span := by
  refine ⟨fun f hf hkind => ?_, fun c s span h => ?_⟩
  · obtain ⟨k, hk, hexpresses⟩ := exists_expresses hf hkind
    have hunique : ∀ k', b.text.Stops f.span k' ↔ k' = k := fun k' =>
      ⟨fun hk' => StopsExpression.unique hk' hk, fun hk' => hk' ▸ hk⟩
    obtain ⟨hclosed, hnot⟩ := isClosed_iff_of_expresses hexpresses
    obtain ⟨hreference, hraw⟩ := isSome_reference?_iff hexpresses
    refine ⟨⟨k, hk, fun k' => (hunique k').mp⟩, fun h hescaped => ?_, fun hescaped => ⟨?_, ?_⟩⟩
    · have hbrace := h.closed.mp (hclosed.mpr (Or.inr hescaped))
      exact hnot ((hunique _).mp hbrace).symm hescaped
    · rw [hclosed, hunique, or_iff_left hescaped, eq_comm]
    · intro c s henabled hrule hexcluded
      rw [reportsMissingBrace_iff hf hkind c henabled hrule hexcluded, hreference, hraw,
        ← Bool.not_eq_true, hclosed, or_iff_left hescaped]
      simp only [hunique]
      cases k <;> decide
  · obtain ⟨f, ⟨hf, hkind⟩, hspan, -⟩ := exists_of_reportsMissingBrace h
    exact ⟨f, hf, hkind, hspan⟩

/-- An expression that is closed on the line that it is continued on, and one that is continued on a
comment line, where its brace is missing. -/
theorem judgesBrace_continued : ∃ (b : Buffer) (f f' : Fragment),
    b.text = ['a', '=', '$', '{', '\\', '}', '\\', '\n', ' ', '}', '\n',
      'b', '=', '$', '{', 'a', '\\', '\n', '#'] ∧
      .fragment f ∈ (ofBuffer b).tree.nodes ∧ f.kind = .expression ∧
      (ofBuffer b).isClosed f = true ∧ b.text.Stops f.span .brace ∧
      .fragment f' ∈ (ofBuffer b).tree.nodes ∧ f'.kind = .expression ∧
      (ofBuffer b).ReportsMissingBrace .empty {} f'.span ∧ b.text.Stops f'.span .comment := by
  let b : Buffer := ⟨"u", ['a', '=', '$', '{', '\\', '}', '\\', '\n', ' ', '}', '\n',
      'b', '=', '$', '{', 'a', '\\', '\n', '#'], 1⟩
  let f : Fragment := ⟨.expression, 2, 10⟩
  let f' : Fragment := ⟨.expression, 13, 18⟩
  have hf : .fragment f ∈ (ofBuffer b).tree.nodes := by decide
  have hf' : .fragment f' ∈ (ofBuffer b).tree.nodes := by decide
  have hclosed : (ofBuffer b).isClosed f = true := by decide
  have hcomment : b.text.Stops f'.span .comment :=
    .character '#' .comment rfl (.comment (by decide) (Or.inl rfl))
  have hjudges := ((judgesBrace_iff b).1 f hf rfl).2.mpr (by decide)
  have hjudges' := ((judgesBrace_iff b).1 f' hf' rfl).2.mpr (by decide)
  refine ⟨b, f, f', rfl, hf, rfl, hclosed, hjudges.closed.mp hclosed, hf', rfl, ?_, hcomment⟩
  exact (hjudges'.reported .empty {} rfl rfl rfl).mpr ⟨by decide, .comment, by decide, hcomment⟩

/-- The end of the text stops an expression behind an escaped brace. The expression counts as closed
all the same, and no missing brace is reported. -/
theorem exists_not_judgesBrace : ∃ (b : Buffer) (f : Fragment),
    b.text = ['a', '=', '$', '{', 'b', '\\', '}'] ∧ .fragment f ∈ (ofBuffer b).tree.nodes ∧
      f.kind = .expression ∧ ((ofBuffer b).raw f.span).take 2 = ['$', '{'] ∧
      b.text.Stops f.span .textEnd ∧ ¬b.text.Stops f.span .brace ∧
      (ofBuffer b).isClosed f = true ∧ ¬(ofBuffer b).ReportsMissingBrace .empty {} f.span := by
  let b : Buffer := ⟨"u", ['a', '=', '$', '{', 'b', '\\', '}'], 1⟩
  have htextEnd : b.text.Stops ⟨2, 7⟩ .textEnd := .textEnd rfl (Or.inl (by decide))
  have hmessages : ∀ g ∈ (ofBuffer b).diagnostics .empty {}, g.message ≠ "Missing '\x7d'" := by
    decide
  refine ⟨b, ⟨.expression, 2, 7⟩, rfl, by decide, rfl, by decide, htextEnd, fun hbrace => ?_,
    by decide, fun ⟨g, hg, _, _, hmessage⟩ => hmessages g hg hmessage⟩
  exact nomatch StopsExpression.unique hbrace htextEnd

end Document

end DotProperties
