import Mathlib.Data.Bool.AllAny
import Mathlib.Data.List.DropRight
import DotProperties.Proofs.Document.Beginning
import DotProperties.Proofs.Document.Diagnosis
import DotProperties.Proofs.Document.Replacement

/-!
# Completing a document

The action that adds required properties writes a line for each name behind the content. The
document is completed by it : it has the properties that it had, up to blanks behind their values,
and then one for each name (`Document.Completes`). That is so exactly if the content does not end
in a backslash that is open (`Document.completes_iff`).

If it does not, the line that it ends in can be closed (`Text.isClosable_trimEnd_iff`), and each
line that is added starts a property of its own (`Text.extends_nextLines`). Behind an open
backslash the terminator in front of the first line is part of a continuation, and the line goes on
with the key or value before it (`Scanner.after_escape_line`). Then one property is missing.
-/

namespace DotProperties

open Event

/-! ## Lines that are added -/

/-- A property whose value is empty. -/
def Wording.empty (name : Text) : Wording := ⟨name, some (some [])⟩

namespace Text

variable {t delimiter : Text}

theorem isTerminator_of_mem (hdelimiter : delimiter ∈ [['\n'], ['\r', '\n'], ['\r']]) :
    ∀ c ∈ delimiter, isTerminator c = true := by
  simp only [List.mem_cons, List.not_mem_nil, or_false] at hdelimiter
  rcases hdelimiter with rfl | rfl | rfl <;> simp [isTerminator]

theorem isFresh_append_terminator (hm : (Scanner.initial.after t).mode.isClosable = true)
    (hdelimiter : delimiter ∈ [['\n'], ['\r', '\n'], ['\r']]) :
    (Scanner.initial.after (t ++ delimiter)).mode.isFresh = true := by
  have hone : ∀ {t : Text} {c : Char}, isTerminator c = true →
      (Scanner.initial.after t).mode.isClosable = true →
        (Scanner.initial.after (t ++ [c])).mode.isFresh = true := by
    intro t c hc hm
    rw [after_concat_mode]
    exact (Mode.isFresh_read_terminator hm _ hc).1
  simp only [List.mem_cons, List.not_mem_nil, or_false] at hdelimiter
  rcases hdelimiter with rfl | rfl | rfl
  · exact hone rfl hm
  · rw [List.append_cons]
    exact hone rfl (Mode.isClosable_of_isFresh (hone rfl hm))
  · exact hone rfl hm

/-- A plain name at the start of a line is a key. -/
theorem after_name (hm : (Scanner.initial.after t).mode.isFresh = true) {name : Text}
    (hname : name.isPlain = true) :
    (Scanner.initial.after (t ++ name)).mode = .run .key ∧ (t ++ name).draft =
      { t.draft with property := t.length, assign := none, value := none, leaf := t.length } := by
  obtain ⟨hne, hall⟩ := isPlain_iff.mp hname
  obtain ⟨c, w, rfl⟩ := List.exists_cons_of_ne_nil hne
  obtain ⟨hc, hw⟩ := List.forall_mem_cons.mp hall
  have hoffset := Scanner.offset_after_initial t
  obtain ⟨hevents, hmode⟩ :=
    Mode.read_ordinary_fresh (isOrdinary_of_isPlain hc) hm (Scanner.initial.after t).place
  rw [← after_concat_mode] at hmode
  obtain ⟨hrest, hlast⟩ := Scanner.after_plain hmode hw
  rw [List.append_cons, Scanner.after_append, draft_append, hrest, draft_concat, hevents, hoffset]
  exact ⟨hlast, rfl⟩

/-- What is written behind a name that is added. -/
def assigned (spaced : Bool) : Text := if spaced then [' ', '=', ' '] else ['=']

theorem after_assigned (hm : (Scanner.initial.after t).mode = .run .key) (spaced : Bool) :
    (Scanner.initial.after (t ++ assigned spaced)).mode = .afterAssign ∧
      ∃ o, (t ++ assigned spaced).draft =
        { t.draft with key := ⟨t.draft.leaf, t.length⟩, assign := some o } := by
  have hoffset := Scanner.offset_after_initial t
  rw [Scanner.after_append, draft_append, ← hoffset]
  generalize Scanner.initial.after t = s at hm
  obtain ⟨m, p⟩ := s
  obtain rfl : m = .run .key := hm
  cases spaced with
  | true => exact ⟨rfl, p.offset + 1, rfl⟩
  | false => exact ⟨rfl, p.offset, rfl⟩

/-- A line with a plain name and a delimiter adds a property. -/
theorem lineWordings_line (hm : (Scanner.initial.after t).mode.isFresh = true) {name : Text}
    (hname : name.isPlain = true) (spaced : Bool) :
    (Scanner.initial.after (t ++ (name ++ assigned spaced))).mode.isClosable = true ∧
      (t ++ (name ++ assigned spaced)).lineWordings = t.lineWordings ++ [.empty name] := by
  obtain ⟨hkey, hdraft⟩ := after_name hm hname
  obtain ⟨hmode, o, hdraft'⟩ := after_assigned hkey spaced
  have hwordings : Draft.wordings (t ++ (name ++ assigned spaced)) t.draft = t.draft.wordings t :=
    t.within_draft.wordings_append _
  have hslice : Text.slice (t ++ (name ++ assigned spaced)) ⟨t.length, (t ++ name).length⟩ =
      name := by
    rw [List.length_append]
    exact slice_of_eq rfl rfl
  have hnone : ∀ (u : Text) (o : Nat), u.slice ⟨o, o⟩ = [] := by simp [slice, Span.length]
  have hbefore : t.lineWordings = t.draft.wordings t := by
    rw [lineWordings, Mode.wordings, Mode.openProperty?_of_isFresh hm]
    exact List.append_nil _
  rw [List.append_assoc] at hmode hdraft'
  rw [hbefore, ← hwordings, lineWordings, hmode, hdraft', hdraft]
  refine ⟨rfl, congrArg (_ ++ ·) (congrArg (fun r => [r]) ?_)⟩
  simp only [Property.wording, Draft.finishProperty, hslice, hnone, Option.map_some, Wording.empty]

/-- Lines that set each of `names` to nothing, behind the delimiters that end the lines before
them. -/
def nextLines (delimiter : Text) (spaced : Bool) (names : List Text) : Text :=
  names.flatMap fun name => delimiter ++ (name ++ assigned spaced)

theorem insertedLines_cons (name : Text) (names : List Text) (delimiter : Text) (spaced : Bool) :
    Document.insertedLines (name :: names) delimiter spaced =
      name ++ assigned spaced ++ nextLines delimiter spaced names := by
  induction names generalizing name with
  | nil => cases spaced <;> simp [Document.insertedLines, assigned, nextLines]
  | cons name' names ih =>
    have hcons : Document.insertedLines (name :: name' :: names) delimiter spaced =
        name ++ assigned spaced ++
          (delimiter ++ Document.insertedLines (name' :: names) delimiter spaced) := by
      cases spaced <;> simp [Document.insertedLines, assigned]
    rw [hcons, ih, nextLines, nextLines, List.flatMap_cons]
    simp only [List.append_assoc]

section NextLines

variable (hdelimiter : delimiter ∈ [['\n'], ['\r', '\n'], ['\r']])
include hdelimiter

/-- A line with a plain name behind a line that can be closed adds a property. -/
theorem extends_nextLine (hm : (Scanner.initial.after t).mode.isClosable = true) {name : Text}
    (hname : name.isPlain = true) (spaced : Bool) :
    (Scanner.initial.after (t ++ (delimiter ++ (name ++ assigned spaced)))).mode.isClosable = true ∧
      List.Forall₂ Wording.Extends (t.lineWordings ++ [.empty name])
        (t ++ (delimiter ++ (name ++ assigned spaced))).lineWordings := by
  obtain ⟨-, hextends⟩ := extends_append hm
    fun c hc => Or.inr (isTerminator_of_mem hdelimiter c hc)
  obtain ⟨hclosable, hwordings⟩ :=
    lineWordings_line (isFresh_append_terminator hm hdelimiter) hname spaced
  rw [← List.append_assoc, hwordings]
  exact ⟨hclosable, List.rel_append hextends (Wording.extends_refl _)⟩

/-- Lines with plain names behind a line that can be closed, and blanks behind them, add a property
each, in order. -/
theorem extends_nextLines {tail : Text}
    (htail : ∀ c ∈ tail, isSpacing c = true ∨ isTerminator c = true) (spaced : Bool)
    {names : List Text} (hnames : ∀ name ∈ names, name.isPlain = true)
    (hm : (Scanner.initial.after t).mode.isClosable = true) :
    List.Forall₂ Wording.Extends (t.lineWordings ++ names.map Wording.empty)
      (t ++ (nextLines delimiter spaced names ++ tail)).wordings := by
  induction names generalizing t with
  | nil =>
    obtain ⟨hclosable, hextends⟩ := extends_append hm htail
    rw [List.map_nil, List.append_nil]
    exact Wording.extends_trans hextends (extends_wordings hclosable)
  | cons name names ih =>
    obtain ⟨hname, hnames⟩ := List.forall_mem_cons.mp hnames
    obtain ⟨hclosable, hextends⟩ := extends_nextLine hdelimiter hm hname spaced
    have htext : t ++ (nextLines delimiter spaced (name :: names) ++ tail) =
        t ++ (delimiter ++ (name ++ assigned spaced)) ++
          (nextLines delimiter spaced names ++ tail) := by
      simp only [nextLines, List.flatMap_cons, List.append_assoc]
    rw [htext, List.map_cons, List.append_cons]
    exact Wording.extends_trans (List.rel_append hextends (Wording.extends_refl _))
      (ih hnames hclosable)

end NextLines

end Text

/-! ## Lines behind a backslash -/

namespace Text

/-- The properties of a text start in it. -/
theorem length_wordings (t : Text) :
    t.wordings.length = (Scanner.initial.events t).countP (isStart .property) := by
  have houtline := outline_ofText_append t []
  rw [List.append_nil, Scanner.outline_scan] at houtline
  rw [wordings, List.length_map, Tree.length_properties_ofText, houtline, List.countP_append,
    countP_map_shift, Mode.countP_outlineOf_nil (Or.inr rfl), countP_outline (Or.inr rfl)]
  rfl

theorem length_wordings_append (t u : Text) : (t ++ u).wordings.length =
    t.wordings.length + ((Scanner.initial.after t).events u).countP (isStart .property) := by
  rw [length_wordings, length_wordings, Scanner.events_append, List.countP_append]

end Text

namespace Scanner

/-- No property starts with a blank. -/
theorem countP_events_blank (s : Scanner) {w : Text}
    (hw : ∀ c ∈ w, isSpacing c = true ∨ isTerminator c = true) :
    (s.events w).countP (isStart .property) = 0 := by
  refine List.countP_eq_zero.mpr fun e he hstart => ?_
  obtain ⟨x, c, y, rfl, hread⟩ := exists_of_mem_events he
  obtain ⟨o, rfl⟩ : ∃ o, e = start .property o := by
    rcases e with ⟨_ | _, o⟩ | _ | _ | _ | _ <;> simp_all [isStart]
  obtain ⟨hfresh, hc⟩ := (Mode.reads_read _ _ c).starts hread
  have hspacing : isSpacing c = true := (hw c (by simp)).resolve_right (by simp [hc])
  rw [Mode.read_spacing_fresh hfresh _ hspacing] at hread
  exact List.not_mem_nil hread

/-- A plain name goes on with a run that is pending. -/
theorem after_pending_name {s : Scanner} {r : Run} (hs : s.mode.pending = some r) {name : Text}
    (hname : name.isPlain = true) :
    (s.after name).mode = .run r ∧ outline (s.events name) = [] := by
  obtain ⟨hne, hall⟩ := Text.isPlain_iff.mp hname
  obtain ⟨c, w, rfl⟩ := List.exists_cons_of_ne_nil hne
  obtain ⟨hc, hw⟩ := List.forall_mem_cons.mp hall
  have hordinary := isOrdinary_of_isPlain hc
  obtain ⟨hevents, hmode⟩ := Mode.read_ordinary_run hordinary r s.place
  rw [← Mode.read_of_pending hs (isContent_of_isOrdinary hordinary)] at hevents hmode
  obtain ⟨hrest, hlast⟩ := after_plain (s := s.next c) hmode hw
  rw [events, outline_append, hevents, hrest]
  exact ⟨hlast, rfl⟩

/-- A line that is added behind a backslash goes on with the run before it. -/
theorem after_escape_line {s : Scanner} {r : Run} (hs : s.mode = .escape r) {delimiter name : Text}
    (hdelimiter : delimiter ∈ [['\n'], ['\r', '\n'], ['\r']]) (hname : name.isPlain = true)
    (spaced : Bool) :
    (s.after (delimiter ++ (name ++ Text.assigned spaced))).mode.isClosable = true ∧
      (s.events (delimiter ++ (name ++ Text.assigned spaced))).countP (isStart .property) = 0 := by
  obtain ⟨hnone, hpending⟩ := after_terminator hs hdelimiter
  obtain ⟨hrun, hkept⟩ := after_pending_name hpending hname
  rw [after_append, after_append, events_append, events_append, hnone, List.nil_append,
    List.countP_append, ← countP_outline (Or.inr rfl), hkept]
  generalize ((s.after delimiter).after name) = s at hrun
  obtain ⟨m, p⟩ := s
  obtain rfl : m = .run r := hrun
  cases r <;> cases spaced <;> exact ⟨rfl, rfl⟩

end Scanner

/-! ## The end of the content -/

namespace Text

/-- Behind the content there are blanks only. -/
theorem exists_tail {t : Text} (ht : ∀ c ∈ t, isBlank c = true → c ∈ [' ', '\t', '\r', '\n']) :
    ∃ tail : Text, t = t.trimEnd ++ tail ∧
      ∀ c ∈ tail, isSpacing c = true ∨ isTerminator c = true := by
  have hsplit : t.rdropWhile isBlank ++ t.rtakeWhile isBlank = t :=
    List.rdropWhile_append_rtakeWhile
  refine ⟨t.rtakeWhile isBlank, hsplit.symm, fun c hc => ?_⟩
  have hmem : c ∈ t := by
    rw [← hsplit]
    exact List.mem_append_right _ hc
  have hblank := ht c hmem (List.mem_rtakeWhile_imp hc)
  simp only [List.mem_cons, List.not_mem_nil, or_false] at hblank
  rcases hblank with rfl | rfl | rfl | rfl <;> decide

theorem splice_append (u v new : Text) :
    splice (u ++ v) ⟨u.length, u.length⟩ new = u ++ (new ++ v) := splice_stretch u [] v new

/-- Blanks behind a text are trimmed. -/
theorem trimEnd_append {s : Text} (hs : ∀ c ∈ s, isBlank c = true) (w : Text) :
    trimEnd (w ++ s) = w.trimEnd := by
  rw [trimEnd, List.reverse_append, List.dropWhile_append_of_pos (by simpa using hs)]
  rfl

end Text

namespace Mode

/-- Behind a character that is not blank no run is pending. -/
theorem pending_read (m : Mode) (p : Place) {c : Char} (hc : isBlank c = false) :
    (m.read p c).2.pending = none := by
  refine Option.eq_none_iff_forall_ne_some.mpr fun r hr => ?_
  have hterminator := Text.not_isTerminator_of_not_blank hc
  obtain ⟨hspacing, -⟩ := (m.reads_read p c).pending hterminator hr
  exact Bool.noConfusion (hspacing.symm.trans (Text.not_isSpacing_of_not_blank hc))

theorem isClosable_iff {m : Mode} (h : m.pending = none) :
    m.isClosable = true ↔ ∀ r, m ≠ escape r := by
  cases m with
  | lineStart pending | afterReturn pending | indent pending =>
    obtain rfl : pending = none := h
    exact ⟨fun _ => nofun, fun _ => rfl⟩
  | escape r => exact ⟨nofun, fun h => (h r rfl).elim⟩
  | _ => exact ⟨fun _ => nofun, fun _ => rfl⟩

end Mode

/-- The line that the content of a text ends in can be closed, unless it ends in a backslash that
takes away the meaning of what comes next. -/
theorem Text.isClosable_trimEnd_iff (t : Text) :
    (Scanner.initial.after t.trimEnd).mode.isClosable = true ↔
      ∀ r, (Scanner.initial.after t.trimEnd).mode ≠ .escape r := by
  refine Mode.isClosable_iff ?_
  rcases List.eq_nil_or_concat' t.trimEnd with hnil | ⟨u, c, hconcat⟩
  · rw [hnil]
    rfl
  · rw [hconcat, after_concat_mode]
    exact Mode.pending_read _ _ (not_isBlank_of_trimEnd hconcat)

/-! ## Completed documents -/

theorem Text.isBlank_of_isSpacing {c : Char} (h : isSpacing c = true) : isBlank c = true := by
  rcases isSpacing_iff.mp h with rfl | rfl <;> decide

namespace Wording

/-- What a property says, up to blanks behind its value. -/
def setting (r : Wording) : Text × Text := (r.key.join, r.value.join.trimEnd)

theorem Extends.setting {r r' : Wording} (h : r.Extends r') : r'.setting = r.setting := by
  obtain ⟨s, hs, hvalue⟩ := h.value
  obtain ⟨s', hs', hjoin⟩ := Text.exists_join_append_spacing hs r.value
  have htrim := Text.trimEnd_append (fun c hc => Text.isBlank_of_isSpacing (hs' c hc)) r.value.join
  rw [Wording.setting, Wording.setting, h.key, hvalue, hjoin, htrim]

/-- The name of a property, and if it has a delimiter. -/
def assignedName (r : Wording) : Text × Bool := (r.key.join, r.assigned.isSome)

theorem Extends.assignedName {r r' : Wording} (h : r.Extends r') :
    r'.assignedName = r.assignedName := by
  rw [Wording.assignedName, Wording.assignedName, h.key, h.assigned]

theorem map_eq_of_extends {α : Type} {f : Wording → α}
    (hf : ∀ {r r' : Wording}, r.Extends r' → f r' = f r) {rs rs' : List Wording}
    (h : List.Forall₂ Extends rs rs') : rs'.map f = rs.map f := by
  induction h with
  | nil => rfl
  | cons hr _ ih => rw [List.map_cons, List.map_cons, hf hr, ih]

end Wording

namespace Document

/-- What a property says, up to blanks behind its value. No value counts as an empty one. -/
def setting (d : Document) (p : Property) : Text × Text :=
  (d.fullName p, ((d.value? p).getD []).trimEnd)

/-- The document `d'` has the properties of `d` and, behind them, one with a delimiter for each of
`names`. -/
structure Completes (d d' : Document) (names : List Text) : Prop where
  /-- The first properties say what they said before. -/
  kept : (d'.properties.take d.properties.length).map d'.setting = d.properties.map d.setting
  /-- The others have the names and delimiters. -/
  added : (d'.properties.drop d.properties.length).map
    (fun p => (d'.fullName p, p.assignment.isSome)) = names.map fun name => (name, true)

theorem Completes.length {d d' : Document} {names : List Text} (h : d.Completes d' names) :
    d'.properties.length = d.properties.length + names.length := by
  have hkept := congrArg List.length h.kept
  have hadded := congrArg List.length h.added
  simp only [List.length_map, List.length_take, List.length_drop] at hkept hadded
  omega

theorem setting_eq (b : Buffer) (p : Property) :
    (ofBuffer b).setting p = (p.wording b.text).setting := by
  rw [setting, fullName_eq_join, value?_eq_join]
  rcases p with ⟨s, k, _ | ⟨o, _ | v⟩⟩ <;> rfl

theorem map_setting (b : Buffer) :
    (ofBuffer b).properties.map (ofBuffer b).setting = b.text.wordings.map Wording.setting := by
  rw [Text.wordings, List.map_map]
  exact List.map_congr_left fun p _ => setting_eq b p

theorem map_assignedName (b : Buffer) : (ofBuffer b).properties.map
    (fun p => ((ofBuffer b).fullName p, p.assignment.isSome)) =
      b.text.wordings.map Wording.assignedName := by
  rw [Text.wordings, List.map_map]
  refine List.map_congr_left fun p _ => ?_
  rw [fullName_eq_join]
  exact congrArg (_, ·) Option.isSome_map.symm

/-- A document is completed if its properties are, as they are written, up to spacing. -/
theorem completes_of_extends {b b' : Buffer} {rs : List Wording} {names : List Text}
    (hnames : ∀ name ∈ names, name.isPlain = true)
    (h : List.Forall₂ Wording.Extends rs b.text.wordings)
    (h' : List.Forall₂ Wording.Extends (rs ++ names.map Wording.empty) b'.text.wordings) :
    (ofBuffer b).Completes (ofBuffer b') names := by
  have hlength : (ofBuffer b).properties.length = rs.length := by
    rw [h.length_eq, Text.wordings, List.length_map]
    rfl
  refine ⟨?_, ?_⟩
  · have hold := Wording.map_eq_of_extends Wording.Extends.setting h
    have hnew := Wording.map_eq_of_extends Wording.Extends.setting h'
    rw [List.map_take, map_setting, map_setting, hold, hnew, List.map_append,
      List.take_left' (by rw [List.length_map, hlength])]
  · have hnew := Wording.map_eq_of_extends Wording.Extends.assignedName h'
    have hempty : (names.map Wording.empty).map Wording.assignedName =
        names.map fun name => (name, true) := by
      rw [List.map_map]
      exact List.map_congr_left fun name hname =>
        congrArg (·, true) (Text.join_of_isPlain (hnames name hname))
    rw [List.map_drop, map_assignedName, hnew, List.map_append, hempty,
      List.drop_left' (by rw [List.length_map, hlength])]

end Document

theorem Text.mem_of_terminator? {t delimiter : Text} (h : t.terminator? = some delimiter) :
    delimiter ∈ [['\n'], ['\r', '\n'], ['\r']] := by
  rw [terminator?] at h
  split at h
  · obtain rfl := Option.some.inj h
    simp
  · rename_i c rest _ hdrop
    obtain rfl := Option.some.inj h
    have hc : isTerminator c = true := by
      have hhead := List.head?_dropWhile_not (fun c => !isTerminator c) t
      rw [hdrop] at hhead
      simpa using hhead
    rcases isTerminator_iff.mp hc with rfl | rfl <;> simp
  · exact nomatch h

theorem Buffer.lineDelimiter_mem (b : Buffer) (line : Nat) :
    b.lineDelimiter line ∈ [['\n'], ['\r', '\n'], ['\r']] := by
  have hmem : ∀ {line : Nat} {delimiter : Text}, b.terminator? line = some delimiter →
      delimiter ∈ [['\n'], ['\r', '\n'], ['\r']] := by
    intro line delimiter h
    obtain ⟨_, -, hterminator⟩ := Option.bind_eq_some_iff.mp h
    exact Text.mem_of_terminator? hterminator
  rw [lineDelimiter]
  cases hline : b.terminator? line with
  | some delimiter => exact hmem hline
  | none =>
    cases hfirst : b.terminator? 0 with
    | some delimiter => exact hmem hfirst
    | none => simp

namespace Document

section Insertion

variable (b : Buffer) (fs : FixSettings) (name : Text)

/-- The first line that is inserted. -/
def firstLine : Text :=
  (if 0 < (ofBuffer b).contentEnd then b.lineDelimiter 0 else []) ++
    (name ++ Text.assigned fs.spaced)

theorem insertion_cons (names : List Text) : (ofBuffer b).insertion fs (name :: names) =
    firstLine b fs name ++ Text.nextLines (b.lineDelimiter 0) fs.spaced names := by
  rw [firstLine, List.append_assoc, ← Text.insertedLines_cons]
  rfl

variable {b name} (hname : name.isPlain = true)
include hname

/-- Behind a line that can be closed, the first line that is inserted adds a property. -/
theorem extends_firstLine (hm : (Scanner.initial.after b.text.trimEnd).mode.isClosable = true) :
    (Scanner.initial.after (b.text.trimEnd ++ firstLine b fs name)).mode.isClosable = true ∧
      List.Forall₂ Wording.Extends (b.text.trimEnd.lineWordings ++ [.empty name])
        (b.text.trimEnd ++ firstLine b fs name).lineWordings := by
  rw [firstLine]
  split_ifs with hcontent
  · exact Text.extends_nextLine (b.lineDelimiter_mem 0) hm hname fs.spaced
  · have hnil : b.text.trimEnd = [] :=
      List.eq_nil_of_length_eq_zero (Nat.eq_zero_of_not_pos hcontent)
    obtain ⟨hclosable, hwordings⟩ := Text.lineWordings_line (t := []) rfl hname fs.spaced
    rw [hnil, List.nil_append, hwordings]
    exact ⟨hclosable, Wording.extends_refl _⟩

/-- Behind a backslash, the first line that is inserted adds no property. -/
theorem length_firstLine {r : Run}
    (hr : (Scanner.initial.after b.text.trimEnd).mode = .escape r) :
    (Scanner.initial.after (b.text.trimEnd ++ firstLine b fs name)).mode.isClosable = true ∧
      (b.text.trimEnd ++ firstLine b fs name).lineWordings.length =
        b.text.trimEnd.wordings.length := by
  have hcontent : 0 < (ofBuffer b).contentEnd := by
    refine List.length_pos_iff.mpr fun hnil => ?_
    rw [show b.text.trimEnd = [] from hnil] at hr
    exact nomatch hr
  rw [firstLine, if_pos hcontent]
  obtain ⟨hclosable, hcount⟩ :=
    Scanner.after_escape_line hr (b.lineDelimiter_mem 0) hname fs.spaced
  rw [← Scanner.after_append] at hclosable
  refine ⟨hclosable, ?_⟩
  rw [(Text.extends_wordings hclosable).length_eq, Text.length_wordings_append, hcount,
    Nat.add_zero]

end Insertion

/-- The insertion completes the document, unless the content ends in a backslash that takes away the
meaning of what comes next. -/
theorem completes_insertion_iff {b b' : Buffer} (fs : FixSettings)
    (hblank : ∀ x ∈ b.text, isBlank x = true → x ∈ [' ', '\t', '\r', '\n']) {names : List Text}
    (hne : names ≠ []) (hnames : ∀ name ∈ names, name.isPlain = true)
    (hb' : b'.text = b.text.splice ⟨(ofBuffer b).contentEnd, (ofBuffer b).contentEnd⟩
      ((ofBuffer b).insertion fs names)) :
    (ofBuffer b).Completes (ofBuffer b') names ↔
      ∀ r, (Scanner.initial.after b.text.trimEnd).mode ≠ .escape r := by
  obtain ⟨name, names, rfl⟩ := List.exists_cons_of_ne_nil hne
  obtain ⟨hname, hrest⟩ := List.forall_mem_cons.mp hnames
  obtain ⟨tail, htext, htail⟩ := Text.exists_tail hblank
  have htext' : b'.text = b.text.trimEnd ++ firstLine b fs name ++
      (Text.nextLines (b.lineDelimiter 0) fs.spaced names ++ tail) := by
    have hsplice := b.text.trimEnd.splice_append tail ((ofBuffer b).insertion fs (name :: names))
    rw [← htext] at hsplice
    rw [hb', contentEnd, show (ofBuffer b).buffer = b from rfl, hsplice, insertion_cons]
    simp only [List.append_assoc]
  have hlines := fun hm => Text.extends_nextLines (b.lineDelimiter_mem 0) htail fs.spaced hrest
    (t := b.text.trimEnd ++ firstLine b fs name) hm
  rw [← htext'] at hlines
  refine ⟨fun hcompletes r hr => ?_, fun hescape => ?_⟩
  · -- The first line starts no property, and neither do the blanks, so one property is missing.
    obtain ⟨hclosable, hfirst⟩ := length_firstLine fs hname hr
    have hlength' := (hlines hclosable).length_eq
    have hlength := b.text.trimEnd.length_wordings_append tail
    rw [← htext, Scanner.countP_events_blank _ htail] at hlength
    have hcompleted := hcompletes.length
    have hproperties : ∀ b : Buffer, b.text.wordings.length = (ofBuffer b).properties.length :=
      fun b => List.length_map _
    rw [← hproperties, ← hproperties, List.length_cons] at hcompleted
    rw [List.length_append, List.length_map] at hlength'
    omega
  · -- Both texts go on from the content, the one with blanks and the other with the lines.
    have hm := b.text.isClosable_trimEnd_iff.mpr hescape
    obtain ⟨hclosable, hfirst⟩ := extends_firstLine fs hname hm
    obtain ⟨hend, hold⟩ := Text.extends_append hm htail
    have hold := Wording.extends_trans hold (Text.extends_wordings hend)
    rw [← htext] at hold
    refine completes_of_extends hnames hold ?_
    rw [List.map_cons, List.append_cons]
    exact Wording.extends_trans (List.rel_append hfirst (Wording.extends_refl _)) (hlines hclosable)

/-- If required properties are missing, the first action adds them. In a text whose blanks are
spacing and line terminators, and with plain names, it completes the document, unless the content
ends in a backslash that takes away the meaning of what comes next. -/
theorem completes_iff {b : Buffer} {c : Catalog} {s : Settings} (fs : FixSettings)
    {gs : List Diagnostic}
    (hblank : ∀ x ∈ b.text, isBlank x = true → x ∈ [' ', '\t', '\r', '\n'])
    (hplain : ∀ k ∈ c.properties, k.required = true → k.name.isPlain = true)
    (hgs : ∀ g ∈ gs, g ∈ (ofBuffer b).diagnostics c s) (hrequired : ∃ g ∈ gs, g.rule = .required) :
    ∃ (a : Action) (e : Edit) (names : List Text),
      (Step.results ((ofBuffer b).fixes c fs gs)).head? = some a ∧ a.kind = .addRequired ∧
      a.diagnostics = gs.filter (fun g => g.rule == .required) ∧
      a.diagnostics.map Diagnostic.propertyName = names.map some ∧ a.remedy = .edits [e] ∧
      ∀ b' : Buffer, b'.text = b.text.splice e.span e.newText →
        ((ofBuffer b).Completes (ofBuffer b') names ↔
          ∀ r, (Scanner.initial.after b.text.trimEnd).mode ≠ .escape r) := by
  obtain ⟨range, haction⟩ :=
    (ofBuffer b).exists_addRequired? fs (gs.filter fun g => g.rule == .required)
  have hall : ∀ g ∈ gs.filter (fun g => g.rule == .required),
      g ∈ (ofBuffer b).diagnostics c s ∧ g.rule = .required := by
    intro g hg
    obtain ⟨hmem, hrule⟩ := List.mem_filter.mp hg
    exact ⟨hgs g hmem, by simpa using hrule⟩
  obtain ⟨hnames, hknown⟩ := exists_names_of_required hall
  refine ⟨_, _, _, (head?_fixes hrequired).trans haction, rfl, rfl, hnames, rfl, fun b' hb' =>
    completes_insertion_iff fs hblank (fun hnil => ?_) (fun name hname => ?_) hb'⟩
  · obtain ⟨g, hg, hrule⟩ := hrequired
    rw [hnil, List.map_nil, List.map_eq_nil_iff] at hnames
    exact List.filter_eq_nil_iff.mp hnames g hg (by simpa using hrule)
  · obtain ⟨k, hk, hkrequired, rfl⟩ := hknown name hname
    exact hplain k hk hkrequired

/-- Two names behind a comment, in a text with a continuation, carriage returns and blank lines. -/
theorem completes_iff_comment :
    ∃ (b b' : Buffer) (c : Catalog) (a : Action) (e : Edit),
      b.text = ['a', '=', 'b', '\\', '\r', '\n', ' ', 'c', ' ', '\r', '\n', '#', 'x', '\r', '\n',
        '\t', '\r', '\n'] ∧
      b'.text = ['a', '=', 'b', '\\', '\r', '\n', ' ', 'c', ' ', '\r', '\n', '#', 'x', '\r', '\n',
        'r', ' ', '=', ' ', '\r', '\n', 's', ' ', '=', ' ', '\r', '\n', '\t', '\r', '\n'] ∧
      (∀ x ∈ b.text, isBlank x = true → x ∈ [' ', '\t', '\r', '\n']) ∧
      (∀ k ∈ c.properties, k.required = true → k.name.isPlain = true) ∧
      (∃ g ∈ (ofBuffer b).diagnostics c {}, g.rule = .required) ∧
      (Step.results ((ofBuffer b).fixes c {} ((ofBuffer b).diagnostics c {}))).head? = some a ∧
      a.kind = .addRequired ∧ a.remedy = .edits [e] ∧ b'.text = b.text.splice e.span e.newText ∧
      (ofBuffer b).Completes (ofBuffer b') [['r'], ['s']] := by
  let b : Buffer := ⟨"u", ['a', '=', 'b', '\\', '\r', '\n', ' ', 'c', ' ', '\r', '\n', '#', 'x',
    '\r', '\n', '\t', '\r', '\n'], 1⟩
  let b' : Buffer := ⟨"u", ['a', '=', 'b', '\\', '\r', '\n', ' ', 'c', ' ', '\r', '\n', '#', 'x',
    '\r', '\n', 'r', ' ', '=', ' ', '\r', '\n', 's', ' ', '=', ' ', '\r', '\n', '\t', '\r', '\n'],
    2⟩
  let c : Catalog := ⟨[{ name := ['a'] }, { name := ['r'], required := true },
    { name := ['s'], required := true }], []⟩
  let e : Edit := ⟨⟨⟨2, 2⟩, ⟨2, 2⟩⟩, ⟨13, 13⟩,
    ['\r', '\n', 'r', ' ', '=', ' ', '\r', '\n', 's', ' ', '=', ' ']⟩
  have hblank : ∀ x ∈ b.text, isBlank x = true → x ∈ [' ', '\t', '\r', '\n'] :=
    List.all_iff_forall_prop.mp (by decide)
  have hplain : ∀ k ∈ c.properties, k.required = true → k.name.isPlain = true := by decide
  have hrequired : ∃ g ∈ (ofBuffer b).diagnostics c {}, g.rule = .required := by decide
  obtain ⟨a, e', names, ha, hkind, -, hnames, he, hiff⟩ :=
    completes_iff {} hblank hplain (fun _ hg => hg) hrequired
  have hremedy : (Step.results ((ofBuffer b).fixes c {} ((ofBuffer b).diagnostics c {}))).head?.map
      (fun a => (a.remedy, a.diagnostics.map Diagnostic.propertyName)) =
        some (.edits [e], [['r'], ['s']].map some) := by decide
  rw [ha, Option.map_some, he, hnames] at hremedy
  obtain ⟨hedit, hsome⟩ := Prod.mk.inj (Option.some.inj hremedy)
  obtain rfl := List.singleton_inj.mp (Remedy.edits.inj hedit)
  obtain rfl := (List.map_inj_right fun _ _ => Option.some.inj).mp hsome
  exact ⟨b, b', c, a, e, rfl, rfl, hblank, hplain, hrequired, ha, hkind, he, rfl,
    (hiff b' rfl).mpr fun r => by cases r <;> decide⟩

/-- Behind a value that ends in a backslash, the first name becomes part of the value. -/
theorem exists_not_completes :
    ∃ (b b' : Buffer) (c : Catalog) (a : Action) (e : Edit),
      b.text = ['a', '=', 'b', '\\'] ∧
      b'.text = ['a', '=', 'b', '\\', '\n', 'r', ' ', '=', ' '] ∧
      (∀ x ∈ b.text, isBlank x = true → x ∈ [' ', '\t', '\r', '\n']) ∧
      (∀ k ∈ c.properties, k.required = true → k.name.isPlain = true) ∧
      (Step.results ((ofBuffer b).fixes c {} ((ofBuffer b).diagnostics c {}))).head? = some a ∧
      a.kind = .addRequired ∧ a.diagnostics.map Diagnostic.propertyName = [some ['r']] ∧
      a.remedy = .edits [e] ∧ b'.text = b.text.splice e.span e.newText ∧
      (ofBuffer b).properties.map (ofBuffer b).value? = [some ['b', '\\']] ∧
      (ofBuffer b').properties.map (ofBuffer b').value? = [some ['b', 'r', ' ', '=', ' ']] ∧
      ¬(ofBuffer b).Completes (ofBuffer b') [['r']] := by
  let b : Buffer := ⟨"u", ['a', '=', 'b', '\\'], 1⟩
  let b' : Buffer := ⟨"u", ['a', '=', 'b', '\\', '\n', 'r', ' ', '=', ' '], 2⟩
  let c : Catalog := ⟨[{ name := ['a'] }, { name := ['r'], required := true }], []⟩
  let e : Edit := ⟨⟨⟨0, 4⟩, ⟨0, 4⟩⟩, ⟨4, 4⟩, ['\n', 'r', ' ', '=', ' ']⟩
  let a : Action := ⟨"Add all missing required properties?", .addRequired,
    (ofBuffer b).diagnostics c {}, .edits [e]⟩
  have hblank : ∀ x ∈ b.text, isBlank x = true → x ∈ [' ', '\t', '\r', '\n'] :=
    List.all_iff_forall_prop.mp (by decide)
  refine ⟨b, b', c, a, e, rfl, rfl, hblank, by decide, by decide, rfl, by decide, rfl, rfl,
    by decide, by decide, fun h => ?_⟩
  have hlength : (ofBuffer b').properties.length = 1 ∧ (ofBuffer b).properties.length = 1 := by
    decide
  have hcompleted := h.length
  rw [hlength.1, hlength.2] at hcompleted
  exact absurd hcompleted (by decide)

end Document

end DotProperties
