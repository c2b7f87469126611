import DotProperties.Proofs.Document.Diagnosis
import DotProperties.Proofs.Event.Boundary

/-!
# Spans and ranges

Every diagnostic and every edit names its place twice, by offset and by position. The two agree
(`Buffer.Agrees`) : the span lies in the text, the range is that of the span, and the span is
found again from the range. So no finding and no edit is dropped (`Document.agrees_of_findings`).

A span of a finding or an edit lies between boundaries of the text (`Text.Bounds`). Keys, values
and fragments start and stop where events stand, and an invalid character ends no line. An
insertion comes behind a character that is not blank.
-/

namespace DotProperties

open Event

/-! ## Nodes -/

namespace Tree

variable {t : Text} {p : Property}

/-- A node that is a construct lies between boundaries. -/
theorem bounds_node {n : Node} (hn : n ∈ (ofEvents (ofText t)).nodes) {k : Construct}
    (hk : n.kind.construct? = some k) : t.Bounds n.span := by
  obtain ⟨hstart, hstop⟩ := bounds_mem_ofText hn hk
  exact ⟨(fits_ofText t n hn).ordered, isBoundary_offset hstart, isBoundary_offset hstop⟩

variable (hp : p ∈ (ofEvents (ofText t)).properties)
include hp

theorem bounds_key : t.Bounds p.key :=
  bounds_node (n := .key p.key) (k := .key)
    (mem_nodes_iff.mpr (Or.inr (Or.inr ⟨p, mem_properties_iff.mp hp, Or.inl rfl⟩))) rfl

theorem bounds_value {v : Value} (hv : p.value? = some v) : t.Bounds v.span :=
  bounds_node (n := .value v) (k := .value) (mem_nodes_iff.mpr (Or.inr (Or.inr
    ⟨p, mem_properties_iff.mp hp, Or.inr (Or.inr ⟨v, hv, Or.inl rfl⟩)⟩))) rfl

theorem bounds_fragment {v : Value} (hv : p.value? = some v) {f : Fragment}
    (hf : f ∈ v.fragments) : t.Bounds f.span := by
  have hnode : .fragment f ∈ (ofEvents (ofText t)).nodes := mem_nodes_iff.mpr (Or.inr (Or.inr
    ⟨p, mem_properties_iff.mp hp, Or.inr (Or.inr ⟨v, hv, Or.inr ⟨f, hf, rfl⟩⟩)⟩))
  obtain ⟨_ | _, s⟩ := f
  · exact bounds_node hnode (k := .literal) rfl
  · exact bounds_node hnode (k := .expression) rfl

end Tree

/-! ## Findings -/

namespace Document

/-- A finding on an expression is about all of it. -/
theorem span_of_expressionFinding? {d : Document} {c : Catalog} {names : List Text} {x : Fragment}
    {f : Finding} (h : d.expressionFinding? c names x = some f) : f.span = x.span := by
  obtain ⟨reference, -, h⟩ := Option.bind_eq_some_iff.mp h
  split_ifs at h
  · obtain rfl := Option.some.inj h
    rfl
  · obtain rfl := Option.some.inj h
    rfl

variable {b : Buffer} {c : Catalog} {g : Diagnostic}

/-- The span of a finding lies between boundaries, whatever the rule leaves alone. -/
theorem bounds_of_mem_findings {globs : List NameGlob} {r : Rule} {f : Finding}
    (h : f ∈ (ofBuffer b).findings c globs r) : b.text.Bounds f.span := by
  cases r with
  | form =>
    rcases List.mem_append.mp h with h | h
    · obtain ⟨p, hp, hf⟩ := List.mem_filterMap.mp h
      rw [missingDelimiter?] at hf
      obtain ⟨-, hf⟩ := Option.ite_none_left_eq_some.mp hf
      obtain ⟨-, hf⟩ := Option.ite_none_left_eq_some.mp hf
      obtain rfl := Option.some.inj hf
      exact Tree.bounds_key hp
    · obtain ⟨x, hx, rfl⟩ := List.mem_map.mp h
      obtain ⟨e, he, hinvalid⟩ := List.mem_filterMap.mp hx
      obtain rfl := invalid?_eq_some.mp hinvalid
      exact bounds_of_invalid he
  | unknown =>
    obtain ⟨p, hp, -, -, -, rfl⟩ := mem_unknownFindings_iff.mp h
    exact Tree.bounds_key hp
  | duplicate =>
    obtain ⟨p, hp, hf⟩ := List.mem_filterMap.mp h
    rw [duplicateKey?] at hf
    obtain ⟨-, hf⟩ := Option.ite_none_left_eq_some.mp hf
    obtain rfl := Option.some.inj hf
    exact Tree.bounds_key hp
  | value =>
    obtain ⟨p, hp, v, hv, -, -, hspan, -⟩ := exists_of_mem_valueFindings h
    rw [hspan]
    exact Tree.bounds_value hp hv
  | required =>
    obtain ⟨name, -, rfl⟩ := List.mem_map.mp h
    exact ⟨Nat.le_refl 0, Text.isBoundary_zero _, Text.isBoundary_zero _⟩
  | expression =>
    obtain ⟨p, hp, hf⟩ := List.mem_flatMap.mp h
    split at hf
    · rename_i v hv
      split_ifs at hf
      · exact nomatch hf
      · obtain ⟨x, hx, hf⟩ := List.mem_filterMap.mp hf
        rw [span_of_expressionFinding? hf]
        exact Tree.bounds_fragment hp hv (List.mem_of_mem_filter hx)
    · exact nomatch hf

theorem bounds_of_mem_diagnostics {s : Settings} (h : g ∈ (ofBuffer b).diagnostics c s) :
    b.text.Bounds g.span := by
  obtain ⟨f, hf, hspan, -⟩ := exists_finding h
  rw [hspan]
  exact bounds_of_mem_findings hf

end Document

/-! ## Places that agree -/

/-- A span and a range are the same place in a text. -/
structure Buffer.Agrees (b : Buffer) (s : Span) (range : Range) : Prop where
  /-- The ends of the span are in order. -/
  ordered : s.start ≤ s.stop
  /-- The span does not leave the text. -/
  within : s.stop ≤ b.length
  /-- The range is that of the span. -/
  rangeOf : b.rangeOf s = .ok range
  /-- The span is that of the range. -/
  spanOf : b.spanOf range = .ok s

namespace Document

variable {b : Buffer} {c : Catalog} {g : Diagnostic} {a : Action} {es : List Edit}

theorem agrees_of_bounds {s : Span} (h : b.text.Bounds s) {range : Range}
    (hrange : b.rangeOf s = .ok range) : b.Agrees s range := by
  obtain ⟨range', hrange', hspan⟩ := Buffer.exists_rangeOf_bounds h
  obtain rfl := Except.ok.inj (hrange.symm.trans hrange')
  exact ⟨h.ordered, h.stop.le_length, hrange, hspan⟩

/-- A finding has its diagnostic. -/
theorem exists_place_of_bounds {f : Finding} (h : b.text.Bounds f.span) (r : Rule)
    (severity : Severity) : ∃ range, b.Agrees f.span range ∧
      (ofBuffer b).place? r severity f =
        some ⟨range, f.span, severity, r, f.message, f.propertyName⟩ := by
  obtain ⟨range, hrange, -⟩ := Buffer.exists_rangeOf_bounds h
  have hbuffer : (ofBuffer b).buffer.rangeOf f.span = .ok range := hrange
  exact ⟨range, agrees_of_bounds h hrange, by rw [place?, hbuffer]⟩

/-- A replacement has its action. -/
theorem isSome_replacement? {s : Span} (h : b.text.Bounds s) (title : String) (kind : ActionKind)
    (new : Text) : ((ofBuffer b).replacement? g title kind s new).isSome = true := by
  obtain ⟨range, hrange, -⟩ := Buffer.exists_rangeOf_bounds h
  have hbuffer : (ofBuffer b).buffer.rangeOf s = .ok range := hrange
  rw [replacement?, hbuffer]
  rfl

theorem mem_properties_of_keyAt? {d : Document} {o : Nat} {p : Property}
    (h : d.keyAt? o = some p) : p ∈ d.properties := by
  rw [keyAt?] at h
  split at h
  · obtain ⟨i, hi, hp⟩ := Option.bind_eq_some_iff.mp h
    exact List.mem_filterMap.mpr ⟨i, List.mem_of_getElem? hi, hp⟩
  · cases h

/-- The edits for a diagnostic are in their place. -/
theorem agrees_of_mem_fixesFor {s : Settings} {fs : FixSettings}
    (hg : g ∈ (ofBuffer b).diagnostics c s) (ha : a ∈ Step.results ((ofBuffer b).fixesFor c fs g))
    (hes : a.remedy = .edits es) : ∀ e ∈ es, b.Agrees e.span e.range := by
  rw [fixesFor, Step.results_poll_cons] at ha
  split at ha
  · rw [unknownFixes] at ha
    split at ha
    · rename_i p hp
      split at ha
      · obtain ⟨range, hrange, t, -, rfl⟩ := (exists_of_mem_keyFixes ha).2 es hes
        refine List.forall_mem_singleton.mpr (agrees_of_bounds ?_ hrange)
        exact Tree.bounds_key (mem_properties_of_keyAt? hp)
      · cases ha
    · cases ha
  · cases hat : (ofBuffer b).valueAt? g.span.start with
    | none =>
      rw [valueFixes, hat] at ha
      cases ha
    | some found =>
      obtain ⟨range, hrange, t, -, rfl⟩ := (exists_of_mem_valueFixes hat ha).2 es hes
      exact List.forall_mem_singleton.mpr
        (agrees_of_bounds (bounds_of_mem_diagnostics hg) hrange)
  · cases ha

/-- The insertion of required properties is in its place. -/
theorem agrees_of_addRequired? {fs : FixSettings} {required : List Diagnostic}
    (ha : (ofBuffer b).addRequired? fs required = some a) (hes : a.remedy = .edits es) :
    ∀ e ∈ es, b.Agrees e.span e.range := by
  rw [addRequired?] at ha
  split at ha
  · rename_i range hrange
    obtain rfl := Option.some.inj ha
    obtain rfl := Remedy.edits.inj hes
    have hend : b.text.IsBoundary (ofBuffer b).contentEnd := b.text.isBoundary_trimEnd
    exact List.forall_mem_singleton.mpr
      (agrees_of_bounds ⟨Nat.le_refl _, hend, hend⟩ hrange)
  · cases ha

/-- No finding and no edit is dropped or misplaced. Every finding of a rule becomes a diagnostic,
every edit for a diagnostic has its action, and wherever a span and a range stand side by side they
are the same place in the text. -/
theorem agrees_of_findings (b : Buffer) (c : Catalog) (s : Settings) (fs : FixSettings)
    {gs : List Diagnostic} (hgs : ∀ g ∈ gs, g ∈ (ofBuffer b).diagnostics c s) :
    (∀ r, ∀ f ∈ (ofBuffer b).findings c (s.rule r).exclusions r, ∃ range, b.Agrees f.span range ∧
      (ofBuffer b).place? r (s.rule r).severity f =
        some ⟨range, f.span, (s.rule r).severity, r, f.message, f.propertyName⟩) ∧
    (∀ a ∈ Step.results ((ofBuffer b).fixes c fs gs), ∀ es, a.remedy = .edits es →
      ∀ e ∈ es, b.Agrees e.span e.range) ∧
    (∀ g ∈ gs, ∀ title kind new,
      ((ofBuffer b).replacement? g title kind g.span new).isSome = true ∧
      ∀ p, (ofBuffer b).keyAt? g.span.start = some p →
        ((ofBuffer b).replacement? g title kind p.key new).isSome = true) ∧
    ∀ required, ((ofBuffer b).addRequired? fs required).isSome = true := by
  refine ⟨fun r f hf => ?_, fun a ha es hes => ?_, fun g hg title kind new => ⟨?_, ?_⟩, ?_⟩
  · exact exists_place_of_bounds (bounds_of_mem_findings hf) r _
  · rw [fixes, Step.results_poll_cons, Step.results_append, Step.results_map_yield,
      Step.results_flatMap] at ha
    rcases List.mem_append.mp ha with ha | ha
    · rw [Option.mem_toList] at ha
      exact agrees_of_addRequired? (Option.ite_none_left_eq_some.mp ha).2 hes
    · obtain ⟨g, hg, ha⟩ := List.mem_flatMap.mp ha
      exact agrees_of_mem_fixesFor (hgs g hg) ha hes
  · exact isSome_replacement? (bounds_of_mem_diagnostics (hgs g hg)) title kind new
  · intro p hp
    exact isSome_replacement? (Tree.bounds_key (mem_properties_of_keyAt? hp)) title kind new
  · intro required
    obtain ⟨range, haction⟩ := (ofBuffer b).exists_addRequired? fs required
    rw [haction]
    rfl

/-- A key that is continued on a blank line stops behind a terminator of two characters, and a
property is added right before another one. -/
theorem agrees_of_findings_continued :
    ∃ (b : Buffer) (c : Catalog) (f : Finding) (a : Action) (e : Edit),
      b.text = ['a', '\x01', '=', 'b', '\r', '\n', 'k', '\\', '\r', '\n', '\r', '\n'] ∧
      ((ofBuffer b).diagnostics c {}).length = 5 ∧
      f ∈ (ofBuffer b).findings c [] .unknown ∧ f.span = ⟨6, 10⟩ ∧
      b.Agrees f.span ⟨⟨1, 0⟩, ⟨2, 0⟩⟩ ∧
      a ∈ Step.results ((ofBuffer b).fixes c {} ((ofBuffer b).diagnostics c {})) ∧
      a.remedy = .edits [e] ∧ e.span = ⟨8, 8⟩ ∧ b.Agrees e.span e.range := by
  let b : Buffer :=
    ⟨"u", ['a', '\x01', '=', 'b', '\r', '\n', 'k', '\\', '\r', '\n', '\r', '\n'], 1⟩
  let c : Catalog := ⟨[{ name := ['r'], required := true }], []⟩
  let f : Finding := ⟨⟨6, 10⟩, "Unknown property 'k'", some ['k']⟩
  let e : Edit := ⟨⟨⟨1, 2⟩, ⟨1, 2⟩⟩, ⟨8, 8⟩, ['\r', '\n', 'r', ' ', '=', ' ']⟩
  let a : Action := ⟨"Add all missing required properties?", .addRequired,
    ((ofBuffer b).diagnostics c {}).filter fun g => g.rule == .required, .edits [e]⟩
  have hgs : ∀ g ∈ (ofBuffer b).diagnostics c {}, g ∈ (ofBuffer b).diagnostics c {} :=
    fun _ hg => hg
  obtain ⟨hfindings, hedits, -⟩ := agrees_of_findings b c {} {} hgs
  have hf : f ∈ (ofBuffer b).findings c [] .unknown := by decide
  have ha : a ∈ Step.results ((ofBuffer b).fixes c {} ((ofBuffer b).diagnostics c {})) := by decide
  obtain ⟨range, hagrees, -⟩ := hfindings .unknown f hf
  obtain rfl : range = ⟨⟨1, 0⟩, ⟨2, 0⟩⟩ := Except.ok.inj (hagrees.rangeOf.symm.trans (by decide))
  exact ⟨b, c, f, a, e, rfl, by decide, hf, rfl, hagrees, ha, rfl, rfl,
    hedits a ha [e] rfl e List.mem_cons_self⟩

end Document

end DotProperties
