import DotProperties.Proofs.Document.Content
import DotProperties.Proofs.Document.Ranges
import DotProperties.Proofs.Document.Relocation
import DotProperties.Proofs.Event.LineEnds

/-!
# Documents and line ends

Two texts that are made of the same lines, with terminators of any kind between them, are read
alike (`Document.alike_of_joins`) : they have the same properties, with the same names, values and
fragments, the same invalid characters at the same positions, and the same diagnostics at the same
ranges. Only offsets tell them apart.

Both of them are mirrored by the document of the unified text (`Document.mirrors_unified`). No
terminator is left in the logical text of a key, a value or a fragment, since lines go on in them
only behind continuations (`Tree.not_terminator_of_mem_join`).
-/

namespace DotProperties

open Event

/-! ## No terminators in logical texts -/

theorem mem_of_mem_strip {trimming : Bool} {w : List (Char × Bool)} {c : Char}
    (h : c ∈ strip trimming w) : (c, false) ∈ w := by
  fun_induction strip trimming w with
  | case1 => cases h
  | case2 trimming d w ih | case3 trimming d w hd ih => exact List.mem_cons_of_mem _ (ih h)
  | case4 trimming d w hd ih =>
    rcases List.mem_cons.mp h with rfl | h
    · exact List.mem_cons_self
    · exact List.mem_cons_of_mem _ (ih h)

/-- A terminator at which a line goes on is part of a continuation. -/
theorem Mode.continuing_of_continues {m : Mode} {c : Char} (h : m.Continues c)
    (hc : isTerminator c = true) (p : Place) (next : Option Char) :
    (m.read p c).2.continuing next = true := by
  rcases h with ⟨r, rfl⟩ | ⟨rfl, r, rfl⟩
  · rcases Text.isTerminator_iff.mp hc with rfl | rfl <;> rfl
  · rfl

/-- The terminators of a text whose lines go on are parts of continuations. -/
theorem Scanner.Unbroken.not_terminator {s : Scanner} {w v : Text} (h : s.Unbroken w) {c : Char}
    (hc : (c, false) ∈ (s.tagged (w ++ v)).take w.length) : isTerminator c = false := by
  induction w generalizing s with
  | nil => exact nomatch hc
  | cons d w ih =>
    rw [List.cons_append, tagged, List.length_cons, List.take_succ_cons] at hc
    rcases List.mem_cons.mp hc with hc | hc
    · obtain ⟨rfl, hcontinuing⟩ := Prod.mk.inj hc
      refine Bool.eq_false_iff.mpr fun hterminator => ?_
      have htrue := Mode.continuing_of_continues (h [] c w rfl hterminator) hterminator s.place
        (w ++ v).head?
      exact Bool.noConfusion (hcontinuing.trans htrue)
    · exact ih (h.right (x := [d])) hc

namespace Tree

variable {t : Text}

theorem exists_construct {n : Node} (hkind : n.kind ∈ [.key, .value, .literal, .expression]) :
    ∃ k, n.kind.construct? = some k ∧ k ∈ [.key, .value, .literal, .expression] := by
  simp only [List.mem_cons, List.not_mem_nil, or_false] at hkind
  rcases hkind with hkind | hkind | hkind | hkind <;> rw [hkind] <;> exact ⟨_, rfl, by decide⟩

/-- No terminator is left in the logical text of a key, a value or a fragment. -/
theorem not_terminator_of_mem_join {n : Node} (hn : n ∈ (ofEvents (ofText t)).nodes)
    (hkind : n.kind ∈ [.key, .value, .literal, .expression]) :
    ∀ c ∈ (t.slice n.span).join, isTerminator c = false := by
  obtain ⟨k, hconstruct, hk⟩ := exists_construct hkind
  obtain ⟨hstart, hstop⟩ := bounds_mem_ofText hn hconstruct
  obtain ⟨u, w, v, rfl, hspan, hunbroken⟩ := exists_unbroken hn hkind
  rw [hspan] at hstart hstop ⊢
  rw [Text.slice_of_eq rfl rfl]
  intro c hc
  rw [Text.join, Scanner.joinFrom_eq_strip v hunbroken (ready_of_start hk hstart)
    (not_terminator_of_stop hstop)] at hc
  exact hunbroken.not_terminator (mem_of_mem_strip hc)

/-- The spans of a property that have a text are those of its key, its value and its fragments. -/
theorem exists_node_of_mem_spans {p : Property} (hp : p ∈ (ofEvents (ofText t)).properties)
    {s : Span} (hs : s ∈ p.spans) : ∃ n ∈ (ofEvents (ofText t)).nodes,
      n.kind ∈ [.key, .value, .literal, .expression] ∧ n.span = s := by
  have hitem := mem_properties_iff.mp hp
  rcases List.mem_cons.mp hs with rfl | hs
  · exact ⟨.key p.key, mem_nodes_iff.mpr (Or.inr (Or.inr ⟨p, hitem, Or.inl rfl⟩)),
      List.mem_cons_self, rfl⟩
  · obtain ⟨v, hv, hs⟩ := List.mem_flatMap.mp hs
    have hv := Option.mem_toList.mp hv
    rcases List.mem_cons.mp hs with rfl | hs
    · exact ⟨.value v, mem_nodes_iff.mpr (Or.inr (Or.inr
        ⟨p, hitem, Or.inr (Or.inr ⟨v, hv, Or.inl rfl⟩)⟩)),
        List.mem_cons_of_mem _ List.mem_cons_self, rfl⟩
    · obtain ⟨x, hx, rfl⟩ := List.mem_map.mp hs
      refine ⟨.fragment x, mem_nodes_iff.mpr (Or.inr (Or.inr
        ⟨p, hitem, Or.inr (Or.inr ⟨v, hv, Or.inr ⟨x, hx, rfl⟩⟩)⟩)), ?_, rfl⟩
      obtain ⟨_ | _, s⟩ := x <;> simp [Node.kind]

/-- A span of a property that has a text lies between boundaries. -/
theorem bounds_of_mem_spans {p : Property} (hp : p ∈ (ofEvents (ofText t)).properties)
    {s : Span} (hs : s ∈ p.spans) : t.Bounds s := by
  obtain ⟨n, hn, hkind, rfl⟩ := exists_node_of_mem_spans hp hs
  obtain ⟨k, hconstruct, -⟩ := exists_construct hkind
  exact bounds_node hn hconstruct

end Tree

/-! ## The unified text -/

/-- The diagnostic with its span moved. -/
def Diagnostic.relocate (f : Nat → Nat) (g : Diagnostic) : Diagnostic :=
  { g with span := g.span.relocate f }

/-- What a diagnostic says, without its span. -/
def Diagnostic.report (g : Diagnostic) : Range × Severity × Rule × String × Option Text :=
  (g.range, g.severity, g.rule, g.message, g.propertyName)

namespace Document

variable {b b' : Buffer} (hb : b'.text = b.text.unified)
include hb

/-- The document of the unified text says what the document of the text says. -/
theorem mirrors_unified : (ofBuffer b).Mirrors b.text.unifiedOffset (ofBuffer b') := by
  have hzero := b.text.unifiedOffset_zero
  have hevents : ofText b'.text = (ofText b.text).map (relocate b.text.unifiedOffset id) := by
    rw [hb, ofText_unified]
  -- What stands in a span of a property is unified, and no terminator of it is a logical one.
  have hraw {p : Property} (hp : p ∈ (ofBuffer b).properties) {s : Span} (hs : s ∈ p.spans) :
      (ofBuffer b').raw (s.relocate b.text.unifiedOffset) = Text.unified ((ofBuffer b).raw s) := by
    rw [raw_eq_slice, raw_eq_slice]
    change b'.text.slice _ = Text.unified (b.text.slice s)
    rw [hb]
    exact Text.slice_unified (Tree.bounds_of_mem_spans hp hs)
  have hclear {p : Property} (hp : p ∈ (ofBuffer b).properties) {s : Span} (hs : s ∈ p.spans) :
      ∀ c ∈ ((ofBuffer b).raw s).join, isTerminator c = false := by
    obtain ⟨n, hn, hkind, rfl⟩ := Tree.exists_node_of_mem_spans hp hs
    rw [raw_eq_slice]
    exact Tree.not_terminator_of_mem_join hn hkind
  refine ⟨?_, ?_, fun p hp => ?_, fun p hp s hs => ?_, fun p hp => ?_, hzero, fun e he => ?_⟩
  · change (Tree.ofEvents (ofText b'.text)).properties = _
    rw [hevents, Tree.ofEvents_relocate _ hzero, Tree.properties_relocate]
    rfl
  · change (ofText b'.text).filterMap invalid? = _
    rw [hevents, filterMap_invalid?_relocate]
    rfl
  · have hkey : p.key ∈ p.spans := List.mem_cons_self
    rw [name?_eq, name?_eq]
    change Text.nameOf ((ofBuffer b').raw (p.key.relocate b.text.unifiedOffset)) = _
    rw [hraw hp hkey, Text.nameOf_unified (hclear hp hkey)]
  · rw [logical, hraw hp hs, logical]
    exact Text.joinFrom_unified (hclear hp hs)
  · exact decide_eq_decide.mpr (Text.unifiedOffset_le_iff (Tree.bounds_key hp))
  · obtain ⟨event, hevent, hinvalid⟩ := List.mem_filterMap.mp he
    obtain rfl := invalid?_eq_some.mp hinvalid
    obtain ⟨u, v, ht, hoffset, hc⟩ := exists_of_invalid hevent
    rw [ht, hoffset]
    exact Text.unifiedOffset_behind u v hc

theorem rangeOf_unified {s : Span} (h : b.text.Bounds s) :
    b'.rangeOf (s.relocate b.text.unifiedOffset) = b.rangeOf s := by
  have hposition {o : Nat} (ho : b.text.IsBoundary o) :
      b'.positionAt (b.text.unifiedOffset o) = b.positionAt o := by
    obtain ⟨p, hp, -⟩ := Text.exists_positionAt ho
    rw [Buffer.positionAt, hb, Text.positionAt?_unified ho, Buffer.positionAt, hp]
  rw [Buffer.rangeOf, Span.relocate, hposition h.start, hposition h.stop, Buffer.rangeOf]

/-- The unified text has the same diagnostics, moved. -/
theorem diagnostics_unified (c : Catalog) (s : Settings) : (ofBuffer b').diagnostics c s =
    ((ofBuffer b).diagnostics c s).map (Diagnostic.relocate b.text.unifiedOffset) := by
  have hmirrors := mirrors_unified hb
  have hplace (r : Rule) {globs : List NameGlob} {x : Finding}
      (hx : x ∈ (ofBuffer b).findings c globs r) (severity : Severity) :
      (ofBuffer b').place? r severity (x.relocate b.text.unifiedOffset) =
        ((ofBuffer b).place? r severity x).map (Diagnostic.relocate b.text.unifiedOffset) := by
    have hrange : (ofBuffer b').buffer.rangeOf (x.relocate b.text.unifiedOffset).span =
        (ofBuffer b).buffer.rangeOf x.span := rangeOf_unified hb (bounds_of_mem_findings hx)
    rw [place?, hrange, place?]
    cases (ofBuffer b).buffer.rangeOf x.span <;> rfl
  have hrule (r : Rule) : (ofBuffer b').ruleDiagnostics c s r =
      ((ofBuffer b).ruleDiagnostics c s r).map (Diagnostic.relocate b.text.unifiedOffset) := by
    rw [ruleDiagnostics, ruleDiagnostics, hmirrors.findings, List.filterMap_map]
    split_ifs
    · rw [List.map_filterMap]
      exact List.filterMap_congr fun x hx => hplace r hx _
    · rfl
  rw [diagnostics, diagnostics, validation, validation]
  split_ifs
  · simp only [Step.results_flatMap, Step.results_poll_cons, Step.results_map_yield, hrule,
      List.map_flatMap]
  · rfl

end Document

/-! ## Texts of the same lines -/

namespace Document

/-- Two documents say the same and get the same diagnostics, but for the offsets. -/
structure Alike (d d' : Document) : Prop where
  /-- They have the same properties, with the same names, values and fragments. -/
  readings : d.properties.map d.reading = d'.properties.map d'.reading
  /-- They have the same invalid characters at the same positions. -/
  errors : (d.errors.map fun e => (e.character, e.position)) =
    d'.errors.map fun e => (e.character, e.position)
  /-- They have the same diagnostics at the same ranges. -/
  diagnostics : ∀ c s, (d.diagnostics c s).map Diagnostic.report =
    (d'.diagnostics c s).map Diagnostic.report

theorem Alike.symm {d d' : Document} (h : d.Alike d') : d'.Alike d :=
  ⟨h.readings.symm, h.errors.symm, fun c s => (h.diagnostics c s).symm⟩

theorem Alike.trans {d d' d'' : Document} (h : d.Alike d') (h' : d'.Alike d'') : d.Alike d'' :=
  ⟨h.readings.trans h'.readings, h.errors.trans h'.errors,
    fun c s => (h.diagnostics c s).trans (h'.diagnostics c s)⟩

theorem alike_unified {b b' : Buffer} (hb : b'.text = b.text.unified) :
    (ofBuffer b).Alike (ofBuffer b') := by
  have hmirrors := mirrors_unified hb
  refine ⟨?_, ?_, fun c s => ?_⟩
  · exact (hmirrors.map_properties fun p hp => hmirrors.reading hp).symm
  · rw [hmirrors.errors, List.map_map]
    rfl
  · rw [diagnostics_unified hb, List.map_map]
    rfl

/-- Texts of the same lines are read alike, whichever terminators stand between the lines. -/
theorem alike_of_joins {lines : List Text}
    (hlines : ∀ line ∈ lines, ∀ c ∈ line, isTerminator c = false) {b b' : Buffer}
    (h : Text.Joins lines b.text) (h' : Text.Joins lines b'.text) :
    (ofBuffer b).Alike (ofBuffer b') := by
  let unified : Buffer := ⟨b.uri, (lines.intersperse ['\n']).flatten, b.version⟩
  have hunified : (ofBuffer b).Alike (ofBuffer unified) := alike_unified (h.unified_eq hlines).symm
  have hunified' : (ofBuffer b').Alike (ofBuffer unified) :=
    alike_unified (h'.unified_eq hlines).symm
  exact hunified.trans hunified'.symm

/-- A key that goes on on its second line, a control character, and a line that is empty. The two
texts get the same three diagnostics, at other offsets. -/
theorem alike_of_joins_mixed :
    ∃ (lines : List Text) (b b' : Buffer),
      lines = [['a', '\\'], ['b', '=', '\x01'], [], ['k', '=', '1']] ∧
      b.text = ['a', '\\', '\r', '\n', 'b', '=', '\x01', '\r', '\r', '\n', 'k', '=', '1'] ∧
      b'.text = ['a', '\\', '\r', 'b', '=', '\x01', '\n', '\n', 'k', '=', '1'] ∧
      Text.Joins lines b.text ∧ Text.Joins lines b'.text ∧
      ((ofBuffer b).diagnostics .empty {}).map Diagnostic.span =
        [⟨6, 7⟩, ⟨0, 5⟩, ⟨10, 11⟩] ∧
      ((ofBuffer b').diagnostics .empty {}).map Diagnostic.span =
        [⟨5, 6⟩, ⟨0, 4⟩, ⟨8, 9⟩] ∧
      (ofBuffer b).Alike (ofBuffer b') := by
  let lines : List Text := [['a', '\\'], ['b', '=', '\x01'], [], ['k', '=', '1']]
  let b : Buffer :=
    ⟨"u", ['a', '\\', '\r', '\n', 'b', '=', '\x01', '\r', '\r', '\n', 'k', '=', '1'], 1⟩
  let b' : Buffer := ⟨"u", ['a', '\\', '\r', 'b', '=', '\x01', '\n', '\n', 'k', '=', '1'], 1⟩
  have hjoins : Text.Joins lines b.text :=
    .cons _ .both nofun (.cons _ .carriageReturn nofun (.cons _ .both nofun (.last _) nofun)
      fun _ => by decide) nofun
  have hjoins' : Text.Joins lines b'.text :=
    .cons _ .carriageReturn nofun (.cons _ .lineFeed nofun
      (.cons _ .lineFeed nofun (.last _) nofun) nofun) fun _ => by decide
  have hlines : ∀ line ∈ lines, ∀ c ∈ line, isTerminator c = false := by
    simp [lines, isTerminator]
  exact ⟨lines, b, b', rfl, rfl, rfl, hjoins, hjoins', by decide, by decide,
    alike_of_joins hlines hjoins hjoins'⟩

end Document

end DotProperties
