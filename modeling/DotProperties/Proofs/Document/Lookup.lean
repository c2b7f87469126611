import DotProperties.Proofs.Document.Ranges

/-!
# Lookup from a diagnostic

An action on a diagnostic starts from the offset at which the diagnostic starts, and looks up the
node there. Two nodes may meet at an offset, and the first one answers. It is the right one all the
same : a diagnostic on a key is found at the key it names, and one on a value at that value or at a
fragment of it (`Document.found_of_diagnostic`). So the name on offer to be left alone is the name
in the diagnostic, every edit replaces the span of the diagnostic, and a value with choices has at
least one edit.
-/

namespace DotProperties

open Event

namespace Document

/-- The actions after a list of diagnostics that settle one of them alone. -/
def actionsOn (d : Document) (c : Catalog) (fs : FixSettings) (gs : List Diagnostic)
    (g : Diagnostic) : List Action :=
  (Step.results (d.fixes c fs gs)).filter fun a => a.diagnostics == [g]

section

variable {d : Document} {c : Catalog} {fs : FixSettings} {g : Diagnostic} {gs : List Diagnostic}
  {a : Action}

theorem mem_actionsOn_iff : a ∈ d.actionsOn c fs gs g ↔
    a ∈ Step.results (d.fixes c fs gs) ∧ a.diagnostics = [g] := by
  rw [actionsOn, List.mem_filter, beq_iff_eq]

theorem mem_actionsOn_of_fixesFor (hg : g ∈ gs) (ha : a ∈ Step.results (d.fixesFor c fs g)) :
    a ∈ d.actionsOn c fs gs g := by
  refine mem_actionsOn_iff.mpr ⟨?_, diagnostics_of_mem_fixesFor ha⟩
  rw [fixes, Step.results_poll_cons, Step.results_append, Step.results_flatMap]
  exact List.mem_append_right _ (List.mem_flatMap.mpr ⟨g, hg, ha⟩)

end

variable {b : Buffer} {c : Catalog} {s : Settings} {fs : FixSettings} {g : Diagnostic}
  {gs : List Diagnostic} {p : Property}

/-- The name of an unknown key is on offer to be left alone. -/
theorem exclude_mem_actionsOn (hg : g ∈ gs) (hrule : g.rule = .unknown)
    (hp : p ∈ (ofBuffer b).properties) (hspan : g.span = p.key) {name : Text}
    (hname : (ofBuffer b).name? p = some name) :
    Action.exclude g name ∈ (ofBuffer b).actionsOn c fs gs g := by
  refine mem_actionsOn_of_fixesFor hg ?_
  have hat := keyAt?_start hp
  rw [← hspan] at hat
  simp only [fixesFor, hrule, Step.results_poll_cons, unknownFixes, hat, hname]
  refine Step.mem_results_polled.mpr (List.mem_append_right _ ?_)
  exact List.mem_map_of_mem List.mem_cons_self

/-- A value of a property with choices has an edit. -/
theorem exists_edit_mem_actionsOn (hg : g ∈ gs) (hrule : g.rule = .value)
    (hbounds : b.text.Bounds g.span) (hp : p ∈ (ofBuffer b).properties) {v : Value}
    (hv : p.value? = some v) (hspan : g.span = v.span) {known : KnownProperty}
    (hknown : c.find? ((ofBuffer b).name p) = some known) {choices : List Choice}
    (hchoices : c.choices? known = some choices) (hne : choices ≠ []) :
    ∃ a ∈ (ofBuffer b).actionsOn c fs gs g, ∃ e, a.remedy = .edits [e] := by
  have hat := valueAt?_start hp hv
  rw [← hspan] at hat
  -- Any replacement among the actions will do, and there is one for each choice.
  have hedit {title : String} {kind : ActionKind} {new : Text}
      (hmem : ∀ a, (ofBuffer b).replacement? g title kind g.span new = some a →
        a ∈ Step.results ((ofBuffer b).valueFixes c g)) :
      ∃ a ∈ (ofBuffer b).actionsOn c fs gs g, ∃ e, a.remedy = .edits [e] := by
    obtain ⟨a, ha⟩ :=
      Option.isSome_iff_exists.mp (isSome_replacement? (g := g) hbounds title kind new)
    obtain ⟨-, range, -, hremedy⟩ := eq_of_replacement? ha
    refine ⟨a, mem_actionsOn_of_fixesFor hg ?_, _, hremedy⟩
    simpa only [fixesFor, hrule, Step.results_poll_cons] using hmem a ha
  simp only [valueFixes, hat, hknown, hchoices, Option.getD_some, Step.mem_results_polled] at hedit
  split_ifs at hedit with hsimilar
  · obtain ⟨choice, rest, rfl⟩ := List.exists_cons_of_ne_nil hne
    exact hedit fun a ha => List.mem_map.mpr ⟨_, List.mem_map_of_mem List.mem_cons_self, ha⟩
  · obtain ⟨t, rest, hcons⟩ := List.exists_cons_of_ne_nil (mt List.isEmpty_iff.mpr hsimilar)
    refine hedit fun a ha => List.mem_map.mpr ⟨t, ?_, ha⟩
    rw [hcons]
    exact List.mem_cons_self

/-- The lookup at the start of a diagnostic finds what the diagnostic is about. At an unknown key it
finds the key, and the actions leave the name alone that the diagnostic gives. At a value it finds
the value or a fragment of it, and if the property has choices some action edits the text. All the
edits replace the span of the diagnostic. -/
theorem found_of_diagnostic (b : Buffer) (c : Catalog) (s : Settings) (fs : FixSettings)
    {g : Diagnostic} {gs : List Diagnostic} (hg : g ∈ (ofBuffer b).diagnostics c s)
    (hgs : g ∈ gs) :
    (g.rule = .unknown → ∃ i p name, (ofBuffer b).tree.items[i]? = some (.property p) ∧
      p.key = g.span ∧ (ofBuffer b).tree.find g.span.start = ([i, 0], .key p.key) ∧
      (ofBuffer b).name? p = some name ∧ g.propertyName = some name ∧
      ∃ a ∈ (ofBuffer b).actionsOn c fs gs g, a.remedy = .excludeUnknown name) ∧
    (g.rule = .value → ∃ i p v name, (ofBuffer b).tree.items[i]? = some (.property p) ∧
      p.value? = some v ∧ v.span = g.span ∧
      ((ofBuffer b).tree.find g.span.start = ([i, 2], .value v) ∨
        ∃ k, ∃ f ∈ v.fragments, (ofBuffer b).tree.find g.span.start = ([i, 2, k], .fragment f)) ∧
      (ofBuffer b).name? p = some name ∧ g.propertyName = some name ∧
      ∀ known choices, c.find? name = some known → c.choices? known = some choices →
        choices ≠ [] → ∃ a ∈ (ofBuffer b).actionsOn c fs gs g, ∃ e, a.remedy = .edits [e]) ∧
    (g.rule = .unknown ∨ g.rule = .value → ∀ a ∈ (ofBuffer b).actionsOn c fs gs g,
      ∀ es, a.remedy = .edits es → ∀ e ∈ es, e.span = g.span) := by
  refine ⟨fun hrule => ?_, fun hrule => ?_, fun hrule a ha es hes => ?_⟩
  · obtain ⟨p, hp, hspan, hname, hne⟩ := exists_of_unknown hg hrule
    obtain ⟨i, hitem, hfind⟩ := exists_find_key hp
    have hname? := name?_of_ne_nil hne
    rw [← hspan] at hfind
    exact ⟨i, p, (ofBuffer b).name p, hitem, hspan.symm, hspan ▸ hfind, hname?, hname, _,
      exclude_mem_actionsOn hgs hrule hp hspan hname?, rfl⟩
  · obtain ⟨p, hp, v, hv, hspan, hname, hne, -⟩ := exists_of_value hg hrule
    obtain ⟨i, hitem, hfind⟩ := exists_find_value hp hv
    rw [← hspan] at hfind
    refine ⟨i, p, v, (ofBuffer b).name p, hitem, hv, hspan.symm, ?_, name?_of_ne_nil hne, hname,
      fun known choices hknown hchoices hchoices' => ?_⟩
    · exact hfind.imp_right fun ⟨k, f, hf, hfound⟩ => ⟨k, f, hf, hfound⟩
    · exact exists_edit_mem_actionsOn hgs hrule (bounds_of_mem_diagnostics hg) hp hv hspan hknown
        hchoices hchoices'
  · obtain ⟨ha, hfor⟩ := mem_actionsOn_iff.mp ha
    obtain ⟨-, -, -, -, -, range, t, -, rfl⟩ := exists_correction hg hrule ha hfor hes
    exact List.forall_mem_singleton.mpr rfl

/-- A key that is continued and a value that starts with a literal, each found from its
diagnostic. -/
theorem found_of_diagnostic_continued :
    ∃ (b : Buffer) (c : Catalog) (g g' : Diagnostic),
      b.text = ['u', '\\', '\n', '=', '1', '\n', 'a', '=', 'x'] ∧
      (ofBuffer b).diagnostics c {} = [g, g'] ∧ g.rule = .unknown ∧ g'.rule = .value ∧
      (∃ i, (ofBuffer b).tree.find 0 = ([i, 0], .key g.span)) ∧
      (∃ a ∈ (ofBuffer b).actionsOn c {} [g, g'] g, a.remedy = .excludeUnknown ['u']) ∧
      ∃ a ∈ (ofBuffer b).actionsOn c {} [g, g'] g', ∃ e, a.remedy = .edits [e] ∧
        e.span = ⟨8, 9⟩ := by
  let b : Buffer := ⟨"u", ['u', '\\', '\n', '=', '1', '\n', 'a', '=', 'x'], 1⟩
  let choice : Choice := { value := ['b', 'a', 'r'] }
  let c : Catalog := ⟨[{ name := ['a'], hintRef := some ['h'] }],
    [{ name := ['h'], choices := [choice] }]⟩
  let g : Diagnostic := ⟨⟨⟨0, 0⟩, ⟨1, 0⟩⟩, ⟨0, 3⟩, .warning, .unknown, "Unknown property 'u'",
    some ['u']⟩
  let g' : Diagnostic := ⟨⟨⟨2, 2⟩, ⟨2, 3⟩⟩, ⟨8, 9⟩, .error, .value,
    "Invalid enum value: 'x' is invalid for type String", some ['a']⟩
  have hgs : (ofBuffer b).diagnostics c {} = [g, g'] := by decide
  have hg : g ∈ [g, g'] := List.mem_cons_self
  have hg' : g' ∈ [g, g'] := List.mem_cons_of_mem g List.mem_cons_self
  obtain ⟨hunknown, -, -⟩ := found_of_diagnostic b c {} {} (hgs ▸ hg) hg
  obtain ⟨-, hvalue, hedits⟩ := found_of_diagnostic b c {} {} (hgs ▸ hg') hg'
  obtain ⟨i, p, name, -, hkey, hfind, -, hname, hexclude⟩ := hunknown rfl
  obtain rfl : ['u'] = name := Option.some.inj hname
  obtain ⟨i', p', v, name', -, -, -, -, -, hname', hchoices⟩ := hvalue rfl
  obtain rfl : ['a'] = name' := Option.some.inj hname'
  obtain ⟨a, ha, e, he⟩ := hchoices _ [choice] rfl rfl nofun
  rw [hkey] at hfind
  exact ⟨b, c, g, g', rfl, hgs, rfl, rfl, ⟨i, hfind⟩, hexclude, a, ha, e, he,
    hedits (Or.inr rfl) a ha [e] he e List.mem_cons_self⟩

end Document

end DotProperties
