import DotProperties.Fix
import DotProperties.Proofs.Document.Order
import DotProperties.Proofs.Document.Transparency
import DotProperties.Proofs.Event.Ordinary

/-!
# Replacing a key or a value

A key or a value that is not empty is taken out of its site, and a plain text, one of letters,
digits, dots, hyphens and underscores, is put in. Its first character starts the key or value as
the old one did and leaves a run of it open (`Site.Opens`), and a run reads plain characters on and
on (`Scanner.after_plain`). What stands behind the site ends the old key or value. It ends the run
as well, with the same outline (`Mode.outlineOf_closing`), so that the rest of the document is
kept (`Site.Opens.outlines`).

A comment is the exception. It ends a key or value that a continuation has left open, but in a run
its first character is one like any other. So it is lost if it stands right behind what is
replaced (`Site.Opens.commentCount`). Where comments start depends on the lines alone
(`Mode.countP_outlineOf`), so no other one comes or goes.
-/

namespace DotProperties

open Event

/-! ## Plain texts -/

/-- An ASCII letter or digit, a dot, a hyphen or an underscore. -/
def isPlain (c : Char) : Bool := c.isAlphanum || c == '.' || c == '-' || c == '_'

/-- A text of plain characters, and not an empty one. -/
def Text.isPlain (t : Text) : Bool := !t.isEmpty && t.all DotProperties.isPlain

theorem Text.isPlain_iff {t : Text} :
    t.isPlain = true ↔ t ≠ [] ∧ ∀ c ∈ t, DotProperties.isPlain c = true := by
  simp [Text.isPlain]

theorem ne_of_isPlain {c d : Char} (hc : isPlain c = true) (hd : isPlain d = false) : c ≠ d := by
  rintro rfl
  exact Bool.noConfusion (hc.symm.trans hd)

/-- A plain text joins no lines. -/
theorem Text.join_of_isPlain {t : Text} (h : t.isPlain = true) : t.join = t := by
  refine joinFrom_of_not_mem fun hmem => ?_
  exact ne_of_isPlain ((isPlain_iff.mp h).2 _ hmem) (by decide) rfl

theorem isOrdinary_of_isPlain {c : Char} (hc : isPlain c = true) : isOrdinary c = true :=
  isOrdinary_of (by decide) hc

/-- A run reads plain characters on and on. -/
theorem Scanner.after_plain {s : Scanner} {r : Run} (hs : s.mode = .run r) {w : Text}
    (hw : ∀ c ∈ w, isPlain c = true) :
    outline (s.events w) = [] ∧ (s.after w).mode = .run r := by
  induction w generalizing s with
  | nil => exact ⟨rfl, hs⟩
  | cons c w ih =>
    obtain ⟨hc, hw⟩ := List.forall_mem_cons.mp hw
    obtain ⟨hevents, hmode⟩ := Mode.read_ordinary_run (isOrdinary_of_isPlain hc) r s.place
    have hnext : (s.next c).mode = .run r := by
      rw [next, hs]
      exact hmode
    obtain ⟨hrest, hlast⟩ := ih hnext hw
    refine ⟨?_, hlast⟩
    rw [events, hs, outline_append, hevents, hrest]
    rfl

/-! ## The start of a key or a value -/

namespace Mode

variable {m m' : Mode} {p : Place} {c : Char} {es : List Event} {part : Construct}

/-- A key or value that is open behind a character, and did not start there, goes on. -/
theorem Reads.outline_within (h : Reads p c m es m') (hfresh : m.isFresh = false)
    (hassign : m ≠ afterAssign) (hm' : m'.inside = some part) : outline es = [] := by
  refine outline_eq_nil (h.inside.trans hm') fun o => ⟨fun hkey => ?_, fun hvalue => ?_⟩
  · exact Bool.noConfusion (hfresh.symm.trans (h.starts hkey).1)
  · exact hassign (h.starts hvalue)

/-- A key starts together with its property. -/
theorem Reads.outline_property (h : Reads p c (indent none) es m') (hc : isTerminator c = false)
    (hm' : m'.inside = some part) :
    outline es = [Event.start .property p.offset, Event.start .key p.offset] := by
  cases h with
  | take h =>
    cases h with
    | lineEnd hterminator => exact Bool.noConfusion (hc.symm.trans hterminator)
    | indent | comment => cases hm'
  | turn h hrest =>
    cases h with
    | property =>
      rw [outline_append, hrest.outline_within rfl (by simp) hm']
      rfl

theorem Reads.outline_value (h : Reads p c afterAssign es m') (hm' : m'.inside = some part) :
    outline es = [Event.start .value p.offset] := by
  cases h with
  | take h =>
    cases h with
    | lineEnd _ _ hend =>
      rw [apply_nextLine Mode.inside rfl] at hm'
      cases hend with
      | value | blank | closed => cases hm'
    | behindAssign => cases hm'
  | turn h hrest =>
    cases h with
    | value =>
      rw [outline_append, hrest.outline_within rfl (by simp) hm']
      rfl

/-- A character at which a key or a value starts and that is part of it gives the outline that a
plain character gives there. -/
theorem read_plain_starting {d : Char} (hstarts : m.Starts d part)
    (hpart : part = .key ∨ part = .value) (hinside : (m.read p d).2.inside = some part)
    (hc : isPlain c = true) :
    ∃ r : Run, r ≠ .expression ∧ r.part = part ∧ (m.read p c).2 = run r ∧
      outline (m.read p c).1 = outline (m.read p d).1 := by
  rcases hpart with rfl | rfl
  · obtain ⟨hfresh, hd⟩ : m.isFresh = true ∧ isTerminator d = false := hstarts
    obtain ⟨hevents, hmode⟩ :=
      read_ordinary_fresh (isOrdinary_of_isPlain hc) hfresh p
    refine ⟨.key, by simp, rfl, hmode, hevents.trans ?_⟩
    cases hmark : m.isByteOrderMark d with
    | true =>
      obtain ⟨rfl, rfl⟩ : m = start ∧ d = '\uFEFF' := by simpa [isByteOrderMark] using hmark
      cases hinside
    | false =>
      rw [read_of_isFresh hfresh hmark hd] at hinside ⊢
      exact ((reads_read _ p d).outline_property hd hinside).symm
  · obtain rfl : m = afterAssign := hstarts
    obtain ⟨hevents, hmode⟩ := read_ordinary_afterAssign (isOrdinary_of_isPlain hc) p
    refine ⟨.literal, by simp, rfl, hmode, hevents.trans ?_⟩
    exact ((reads_read _ p d).outline_value hinside).symm

end Mode

/-! ## The end of a key or a value -/

namespace Mode

variable {m m' : Mode} {p : Place} {c : Char} {es : List Event} {part : Construct}

/-- The end of a key or value is the end of its property. -/
theorem outline_close (h : m.inside = some part) (o : Nat) :
    outline (m.close o) = [Event.stop part o, Event.stop .property o] := by
  cases m with
  | lineStart q | afterReturn q | indent q =>
    obtain ⟨r, rfl, rfl⟩ := Option.map_eq_some_iff.mp h
    cases r <;> rfl
  | run r | escape r =>
    obtain rfl := Option.some.inj h
    cases r <;> rfl
  | between | dollar =>
    obtain rfl := Option.some.inj h
    rfl
  | start | afterKey | skipped | afterAssign | comment => cases h

/-- Where a key or value ends with the text, its property does. -/
theorem outline_onTextEnd (h : m.inside = some part) (o : Nat) :
    outline (m.onTextEnd o) = [Event.stop part o, Event.stop .property o] := by
  have hclose := outline_close h o
  obtain hend | ⟨-, hend⟩ := m.onTextEnd_cases <;> rw [hend]
  · exact hclose
  · rw [outline_append, hclose]
    rfl

/-- A line end that ends a key or value leaves nothing open. -/
theorem EndsLine.closing {o : Nat} {outcome : List Event × Option Run} (h : EndsLine o m outcome)
    (hm : m.inside = some part) (hend : outline outcome.1 ≠ []) :
    outline outcome.1 = [Event.stop part o, Event.stop .property o] ∧ outcome.2 = none := by
  have hclose := outline_close hm o
  cases h with
  | continued => exact (hend rfl).elim
  | value => cases hm
  | blank =>
    rw [outline_append, hclose]
    exact ⟨rfl, rfl⟩
  | closed => exact ⟨hclose, rfl⟩

/-- Within a line nothing but a key ends, unless a comment starts, and a run of the key reads the
character that ends it. -/
theorem Reads.closing (h : Reads p c m es m') (hc : isTerminator c = false)
    (hcomment : m.pending ≠ none → c ≠ '#' ∧ c ≠ ';') (hm : m.inside = some part)
    (hes : outline es ≠ []) : part = .key ∧ m.read p c = (run .key).read p c := by
  induction h with
  | take h =>
    cases h with
    | feed q hfeed =>
      subst hfeed
      cases hc
    | lineEnd hterminator => exact Bool.noConfusion (hc.symm.trans hterminator)
    | comment q hsign =>
      have hpending : q ≠ none := by
        rintro rfl
        cases hm
      obtain ⟨hhash, hsemicolon⟩ := hcomment hpending
      exact (hsign.elim hhash hsemicolon).elim
    | escaped | part => exact (hes (outline_report p c)).elim
    | assign => cases hm
    | _ => exact (hes rfl).elim
  | turn h _ ih =>
    have hread := h.read_eq
    have hrun (hnone : Mode.pending _ = none) := ih fun hpending => (hpending hnone).elim
    cases h with
    | lineStart q | afterReturn q =>
      obtain ⟨hkey, hsame⟩ := ih hcomment hm hes
      exact ⟨hkey, hread.trans hsame⟩
    | resume r =>
      obtain ⟨hkey, hsame⟩ := hrun rfl hm hes
      exact ⟨hkey, hread.trans hsame⟩
    | key => exact ⟨(Option.some.inj hm).symm, rfl⟩
    | literal | dollar =>
      -- A value does not end within a line.
      obtain ⟨rfl, -⟩ := hrun rfl hm hes
      cases hm
    | start | property | skip | value => cases hm

/-- A character at which a key or value ends, other than the first one of a comment, is read as by
a run of it. -/
theorem read_closing {r : Run} (hr : r ≠ .expression) (h : m.inside = some r.part)
    (hcomment : c ≠ '#' ∧ c ≠ ';') (hread : outline (m.read p c).1 ≠ []) :
    outline (m.read p c).1 = outline ((run r).read p c).1 ∧
      (m.read p c).2 = ((run r).read p c).2 := by
  cases hc : isTerminator c with
  | true =>
    cases hcompletes : m.completesTerminator c with
    | true =>
      have hquiet : (m.read p c).1 = [] := by rw [read, hcompletes]; rfl
      exact (hread (by rw [hquiet]; rfl)).elim
    | false =>
      rw [read_of_terminator hcompletes hc] at hread ⊢
      obtain ⟨hevents, hnone⟩ := (m.endsLine_onLineEnd p.offset).closing h hread
      have hrun : (run r).onLineEnd p.offset = ((run r).close p.offset, none) :=
        congrArg (·, none) (close_eq r p.offset)
      rw [read_of_terminator rfl hc, hnone, hevents, hrun, outline_close (m := run r) rfl]
      exact ⟨rfl, rfl⟩
  | false =>
    obtain ⟨hkey, hsame⟩ := (m.reads_read p c).closing hc (fun _ => hcomment) h hread
    obtain rfl : r = .key := by cases r <;> first | rfl | cases hkey
    rw [hsame]
    exact ⟨rfl, rfl⟩

end Mode

/-- The outline of a text that is read in the mode `m`, as if nothing stood before it. -/
def Mode.outlineOf (m : Mode) (t : Text) : List Event :=
  outline (Step.results (Scanner.scan ⟨m, 0, 0, 0⟩ t))

theorem Scanner.outline_scan (s : Scanner) (t : Text) :
    outline (Step.results (s.scan t)) = (s.mode.outlineOf t).map (shift s.place.offset 0) := by
  have hoffset : s.place.offset = (⟨s.mode, 0, 0, 0⟩ : Scanner).place.offset + s.place.offset :=
    (Nat.zero_add _).symm
  have hmode : s.mode = (⟨s.mode, 0, 0, 0⟩ : Scanner).mode := rfl
  exact outline_scan_moved hmode hoffset t

theorem Mode.outlineOf_cons (m : Mode) (c : Char) (t : Text) :
    m.outlineOf (c :: t) = outline (m.read ⟨0, 0, 0⟩ c).1 ++
      ((m.read ⟨0, 0, 0⟩ c).2.outlineOf t).map (shift 1 0) := by
  rw [outlineOf, Scanner.results_scan_cons, outline_append, Scanner.outline_scan]
  rfl

/-- What ends here ends with the next character, since the events of later ones stand further
on. -/
theorem Mode.outline_read_ne_nil {m : Mode} {part : Construct} {c : Char} {t : Text}
    {es : List Event} (h : m.outlineOf (c :: t) = Event.stop part 0 :: es) :
    outline (m.read ⟨0, 0, 0⟩ c).1 ≠ [] := by
  intro hnil
  rw [outlineOf_cons, hnil, List.nil_append] at h
  obtain ⟨e, es', -, he, -⟩ := List.map_eq_cons_iff.mp h
  have hoffset := congrArg Event.offset he
  cases e <;> simp [shift, relocate, offset] at hoffset

/-- What stands behind a key or a value that ends here, if it is no comment, is read as behind a
run of it. -/
theorem Mode.outlineOf_closing {m : Mode} {r : Run} (hr : r ≠ .expression)
    (h : m.inside = some r.part) {t : Text} {es : List Event}
    (ht : m.outlineOf t = Event.stop r.part 0 :: es)
    (hcomment : ∀ c ∈ t.head?, c ≠ '#' ∧ c ≠ ';') :
    (run r).outlineOf t = Event.stop r.part 0 :: es := by
  rw [← ht]
  cases t with
  | nil =>
    have hend := (outline_onTextEnd h 0).trans (outline_onTextEnd (m := run r) rfl 0).symm
    rw [outlineOf, outlineOf, Scanner.results_scan_nil, Scanner.results_scan_nil, outline_append,
      outline_append]
    exact congrArg (· ++ _) hend.symm
  | cons c t =>
    obtain ⟨hevents, hmode⟩ := read_closing hr h (hcomment c rfl) (outline_read_ne_nil ht)
    rw [outlineOf_cons, outlineOf_cons, hevents, hmode]

theorem map_shift_injective (n : Nat) : Function.Injective (List.map (shift n 0)) := by
  refine List.map_injective_iff.mpr fun e e' h => ?_
  rcases e with _ | _ | _ | _ | ⟨c, o, ⟨l, k⟩⟩ <;>
    rcases e' with _ | _ | _ | _ | ⟨c', o', ⟨l', k'⟩⟩ <;> simp_all [shift, relocate]

/-! ## Another key or value in its place -/

namespace Site

variable {s : Site} {w x y t : Text}

/-- The outline up to a character of the key or value, and behind it. -/
theorem outline_cut (h : Layout.Outlines s.mark (s.fill w) t) (hx : x ≠ []) (hw : w = x ++ y) :
    outline (start .document 0 :: Scanner.initial.events (s.front ++ x)) =
        s.opening ++ [start s.slot.construct s.front.length] ∧
      outline (Step.results ((Scanner.initial.after (s.front ++ x)).scan (y ++ s.back))) =
        stop s.slot.construct (s.front.length + w.length) ::
          s.closing (s.front.length + w.length) := by
  obtain ⟨ht, hevents⟩ := s.outlines_iff.mp h
  have hpos := List.length_pos_iff.mpr hx
  have hsplit : t = s.front ++ x ++ (y ++ s.back) := by
    rw [ht, hw]
    simp
  rw [hsplit] at hevents
  refine Event.outline_cut (by simp [hx]) hevents ?_ ?_
  · simp only [offset, List.length_append]
    omega
  · simp only [hw, offset, List.length_append]
    omega

/-- The text `x` may be the first characters of a key or value, and leaves a run of it open. -/
structure Opens (s : Site) (x : Text) (r : Run) : Prop where
  /-- The outline is the one before the key or value, and its start. -/
  outline : outline (start .document 0 :: Scanner.initial.events (s.front ++ x)) =
    s.opening ++ [start s.slot.construct s.front.length]
  /-- The run is open. -/
  mode : (Scanner.initial.after (s.front ++ x)).mode = .run r
  /-- It is part of the key or value. -/
  part : r.part = s.slot.construct
  /-- It is not an expression, which would go on up to a brace. -/
  ne_expression : r ≠ .expression

/-- A plain character may stand in the place of the first one of a key or value. -/
theorem opens_plain (h : Layout.Outlines s.mark (s.fill w) t) (hw : w ≠ []) {c : Char}
    (hc : isPlain c = true) : ∃ r, s.Opens [c] r := by
  obtain ⟨d, w, rfl⟩ := List.exists_cons_of_ne_nil hw
  obtain ⟨hbefore, -⟩ := outline_cut (x := [d]) h (by simp) rfl
  have hinside := inside_of_outline s.slot.construct_eq hbefore
  obtain ⟨rfl, hevents⟩ := s.outlines_iff.mp h
  have hstart : start s.slot.construct s.front.length ∈ ofText (s.front ++ (d :: w ++ s.back)) :=
    List.mem_of_mem_filter (p := isOutline) (by rw [← DotProperties.outline, hevents]; simp)
  have hdocument : s.slot.construct ≠ .document := by
    rcases s.slot.construct_eq with hslot | hslot <;> simp [hslot]
  have hstarts := starts_of_mem_ofText hdocument hstart
  rw [Scanner.after_append] at hinside
  obtain ⟨r, hr, hpart, hmode, hread⟩ := Mode.read_plain_starting hstarts s.slot.construct_eq
    (p := (Scanner.initial.after s.front).place) hinside hc
  refine ⟨r, ?_, ?_, hpart, hr⟩
  · rw [← hbefore, Scanner.events_append, Scanner.events_append, ← List.cons_append,
      ← List.cons_append, outline_append, outline_append]
    simp only [Scanner.events, List.append_nil, hread]
  · rw [Scanner.after_append]
    exact hmode

/-- A key may be cut behind a plain character of it. -/
theorem opens_key (h : Layout.Outlines s.mark (s.fill w) t) (hslot : s.slot.construct = .key)
    {c : Char} (hc : isPlain c = true) (hw : w = x ++ c :: y) : s.Opens (x ++ [c]) .key := by
  obtain ⟨hbefore, -⟩ := outline_cut (x := x ++ [c]) (y := y) h (by simp) (by rw [hw]; simp)
  have hinside := inside_of_outline s.slot.construct_eq hbefore
  refine ⟨hbefore, ?_, hslot.symm, nofun⟩
  rw [← List.append_assoc, Scanner.after_append] at hinside ⊢
  rcases Mode.read_ordinary (isOrdinary_of_isPlain hc) (Scanner.initial.after (s.front ++ x)).mode
    (Scanner.initial.after (s.front ++ x)).place with ⟨r, hr⟩ | hnone
  · have hmode : ((Scanner.initial.after (s.front ++ x)).after [c]).mode = .run r := hr
    rw [hmode, hslot] at hinside
    rw [hmode]
    cases r with
    | key => rfl
    | literal | expression => exact nomatch hinside
  · exact nomatch hinside.symm.trans hnone

/-- What stands behind a key or value ends it. -/
theorem outlineOf_back (h : Layout.Outlines s.mark (s.fill w) t) (hw : w ≠ []) :
    (Scanner.initial.after (s.front ++ w)).mode.inside = some s.slot.construct ∧
      (Scanner.initial.after (s.front ++ w)).mode.outlineOf s.back =
        stop s.slot.construct 0 :: s.closing 0 := by
  obtain ⟨hbefore, hclosing⟩ := outline_cut h hw (List.append_nil w).symm
  refine ⟨inside_of_outline s.slot.construct_eq hbefore, ?_⟩
  refine map_shift_injective (s.front.length + w.length) ?_
  have hmoved := (Scanner.initial.after (s.front ++ w)).outline_scan s.back
  rw [Scanner.offset_after_initial, List.length_append] at hmoved
  rw [← hmoved, List.map_cons, shift_closing, Nat.zero_add]
  exact hclosing.trans (by simp [shift, relocate])

/-- The outline with another key or value put in, one that goes on with plain characters. -/
theorem Opens.outline_ofText {r : Run} (h : s.Opens x r) (hy : ∀ c ∈ y, isPlain c = true) :
    DotProperties.outline (ofText (s.front ++ (x ++ y ++ s.back))) =
      s.opening ++ start s.slot.construct s.front.length ::
        ((Mode.run r).outlineOf s.back).map (shift (s.front.length + (x ++ y).length) 0) := by
  obtain ⟨hnone, hlast⟩ := Scanner.after_plain h.mode hy
  have hsplit : s.front ++ (x ++ y ++ s.back) = s.front ++ x ++ (y ++ s.back) := by simp
  have hoffset : ((Scanner.initial.after (s.front ++ x)).after y).place.offset =
      s.front.length + (x ++ y).length := by
    rw [Scanner.after_offset, Scanner.offset_after_initial, List.length_append,
      List.length_append, Nat.add_assoc]
  rw [hsplit, outline_ofText_append, h.outline, Scanner.results_scan_append, outline_append, hnone,
    List.nil_append, Scanner.outline_scan, hlast, hoffset, List.append_assoc]
  rfl

/-- A key or value that goes on with plain characters may be put in the place of another one,
unless a comment stands right behind it. -/
theorem Opens.outlines {r : Run} (hx : s.Opens x r) (hy : ∀ c ∈ y, isPlain c = true)
    (h : Layout.Outlines s.mark (s.fill w) t) (hw : w ≠ [])
    (hback : ∀ c ∈ s.back.head?, c ≠ '#' ∧ c ≠ ';') :
    Layout.Outlines s.mark (s.fill (x ++ y)) (s.front ++ (x ++ y ++ s.back)) := by
  obtain ⟨hinside, hzero⟩ := outlineOf_back h hw
  rw [← hx.part] at hzero hinside
  have hrun := Mode.outlineOf_closing hx.ne_expression hinside hzero hback
  refine s.outlines_iff.mpr ⟨rfl, ?_⟩
  rw [hx.outline_ofText hy, hrun, List.map_cons, shift_closing, Nat.zero_add, ← hx.part]
  simp [shift, relocate]

end Site

/-! ## Counting comments and properties -/

/-- What a part of a document is. -/
def Item.construct : Item → Construct
  | comment _ => .comment
  | property _ => .property

/-- Number of comments. -/
def Tree.commentCount (t : Tree) : Nat := t.items.countP fun i => i.construct = .comment

/-- The event is the start of a construct. -/
def Event.isStart (part : Construct) : Event → Bool
  | start c _ => c = part
  | _ => false

section Count

variable {part : Construct} (hpart : part = .comment ∨ part = .property)
include hpart

theorem Block.countP_starts (b : Block) (o : Nat) :
    (b.items o).countP (fun i => i.construct = part) =
      (outline (b.marks o)).countP (isStart part) := by
  rcases hpart with rfl | rfl
  all_goals
    cases b with
    | gap | comment => rfl
    | property key ending =>
      rcases ending with rest | ⟨before, delimiter, behind, _ | ps⟩
      · rfl
      · rfl
      · rw [outline_property, outline_assigned, outline_valueMarks]
        rfl

theorem Layout.countP_starts (l : Layout) (o : Nat) :
    (l.items o).countP (fun i => i.construct = part) =
      (outline (l.marks o)).countP (isStart part) := by
  induction l generalizing o with
  | nil => rfl
  | cons b l ih =>
    simp only [Layout.marks, Layout.items] at ih ⊢
    rw [layOut, layOut, outline_append, List.countP_append, List.countP_append, ih,
      Block.countP_starts hpart]

/-- The outline of a text tells the numbers of its comments and of its properties. -/
theorem Tree.countP_ofText (t : Text) :
    (Tree.ofEvents (ofText t)).items.countP (fun i => i.construct = part) =
      (outline (ofText t)).countP (isStart part) := by
  obtain ⟨mark, l, h⟩ := Layout.exists_describes t
  rw [h.items, h.outlines.events, l.countP_starts hpart, List.countP_cons, List.countP_append]
  rcases hpart with rfl | rfl <;> rfl

theorem countP_outline (es : List Event) :
    (outline es).countP (isStart part) = es.countP (isStart part) := by
  rw [outline, List.countP_filter]
  refine List.countP_congr fun e _ => ?_
  rcases hpart with rfl | rfl <;>
    rcases e with ⟨_ | _, _⟩ | _ | _ | _ | _ <;> simp [isStart, isOutline]

end Count

theorem countP_map_shift (part : Construct) (n : Nat) (es : List Event) :
    (es.map (shift n 0)).countP (isStart part) = es.countP (isStart part) := by
  rw [List.countP_map]
  refine List.countP_congr fun e _ => ?_
  cases e <;> rfl

theorem Tree.commentCount_ofText (t : Text) :
    (Tree.ofEvents (ofText t)).commentCount = (outline (ofText t)).countP (isStart .comment) :=
  Tree.countP_ofText (Or.inl rfl) t

theorem Tree.length_properties_ofText (t : Text) :
    (Tree.ofEvents (ofText t)).properties.length =
      (outline (ofText t)).countP (isStart .property) := by
  rw [← Tree.countP_ofText (Or.inr rfl), properties, List.length_filterMap_eq_countP]
  refine List.countP_congr fun i _ => ?_
  cases i <;> simp [Item.property?, Item.construct]

theorem Mode.countP_close (m : Mode) (part : Construct) (o : Nat) :
    (m.close o).countP (isStart part) = 0 := by
  refine List.countP_eq_zero.mpr fun e he => ?_
  obtain ⟨k, rfl⟩ := exists_of_mem_close he
  exact Bool.false_ne_true

/-- No comment starts where a line ends. -/
theorem Mode.EndsLine.countP_comment {m : Mode} {o : Nat} {outcome : List Event × Option Run}
    (h : EndsLine o m outcome) : outcome.1.countP (isStart .comment) = 0 := by
  cases h with
  | continued | value => rfl
  | blank =>
    rw [List.countP_append, countP_close]
    rfl
  | closed => exact countP_close m _ o

section Rest

variable {part : Construct} (hpart : part = .comment ∨ part = .property) (m : Mode)
include hpart

theorem Mode.countP_outlineOf_nil : (m.outlineOf []).countP (isStart part) = 0 := by
  rw [outlineOf, countP_outline hpart, Scanner.results_scan_nil, List.countP_append]
  obtain hend | ⟨-, hend⟩ := m.onTextEnd_cases <;> rw [hend]
  · rw [countP_close]
    rfl
  · rw [List.countP_append, countP_close]
    rfl

theorem Mode.countP_outlineOf_cons (c : Char) (t : Text) :
    (m.outlineOf (c :: t)).countP (isStart part) = (m.read ⟨0, 0, 0⟩ c).1.countP (isStart part) +
      ((m.read ⟨0, 0, 0⟩ c).2.outlineOf t).countP (isStart part) := by
  rw [outlineOf_cons, List.countP_append, countP_outline hpart, countP_map_shift]

end Rest

namespace Mode

/-- A comment may start with the next character. -/
def isLineHead : Mode → Bool
  | lineStart _ | afterReturn _ | indent _ => true
  | _ => false

/-- A character gave these events and led to this mode, `n` comments started, and the next
character is the first one of a line or not. -/
structure Leads (n : Nat) (head : Bool) (outcome : List Event × Mode) : Prop where
  /-- So many comments started. -/
  count : outcome.1.countP (isStart .comment) = n
  /-- The next character is the first one of a line or not. -/
  head : outcome.2.isLineHead = head
  /-- The text has been begun. -/
  begun : outcome.2 ≠ start

variable {p : Place} {c : Char} {m m' : Mode} {es : List Event}

theorem countP_report (p : Place) (c : Char) : (report p c).countP (isStart .comment) = 0 := by
  unfold report
  split_ifs <;> rfl

theorem Takes.leads (h : Takes p c m es m') (hm : m ≠ start) :
    Leads (m.isLineHead && (c == '#' || c == ';')).toNat
      (isTerminator c || m.isLineHead && isSpacing c) (es, m') := by
  cases h with
  | feed q hc =>
    subst hc
    exact ⟨rfl, rfl, nofun⟩
  | lineEnd hc _ hend =>
    have hcomment : (c == '#' || c == ';') = false := by
      rcases Text.isTerminator_iff.mp hc with rfl | rfl <;> rfl
    rw [hc, hcomment, Bool.and_false, Bool.true_or]
    refine ⟨hend.countP_comment, apply_nextLine isLineHead rfl c, fun hstart => ?_⟩
    have hhead := congrArg isLineHead hstart
    rw [apply_nextLine isLineHead rfl] at hhead
    cases hhead
  | mark => exact (hm rfl).elim
  | indent q hc => rcases Text.isSpacing_iff.mp hc with rfl | rfl <;> exact ⟨rfl, rfl, nofun⟩
  | comment q hc =>
    have hcount : ((Mode.indent q).close p.offset ++ [Event.start .comment p.offset]).countP
        (isStart .comment) = 1 := by
      rw [List.countP_append, countP_close]
      rfl
    rcases hc with rfl | rfl <;> exact ⟨hcount, rfl, nofun⟩
  | escaped r hc =>
    rw [hc]
    exact ⟨countP_report p c, rfl, nofun⟩
  | part r _ hc =>
    rw [hc]
    exact ⟨countP_report p c, rfl, nofun⟩
  | backslash _ hc | literal hc | dollar hc | opening hc | closing hc =>
    subst hc
    exact ⟨rfl, rfl, nofun⟩
  | assign hc => rcases hc with rfl | rfl <;> exact ⟨rfl, rfl, nofun⟩
  | beforeAssign hc | behindAssign hc =>
    rcases Text.isSpacing_iff.mp hc with rfl | rfl <;> exact ⟨rfl, rfl, nofun⟩
  | skipped hc | inComment hc =>
    rw [hc]
    exact ⟨rfl, rfl, nofun⟩

theorem Reads.leads (h : Reads p c m es m') (hm : m ≠ start) :
    Leads (m.isLineHead && (c == '#' || c == ';')).toNat
      (isTerminator c || m.isLineHead && isSpacing c) (es, m') := by
  induction h with
  | take h => exact h.leads hm
  | turn h _ ih =>
    cases h with
    | start => exact (hm rfl).elim
    | lineStart | afterReturn => exact ih nofun
    | resume r hc =>
      obtain ⟨hspacing, -, hcomment⟩ := isContent_iff.mp hc
      obtain ⟨hcount, hhead, hbegun⟩ := ih nofun
      rw [hspacing, beq_false_of_ne hcomment.1, beq_false_of_ne hcomment.2]
      exact ⟨hcount, hhead, hbegun⟩
    | property hc =>
      obtain ⟨hspacing, -, hcomment⟩ := isContent_iff.mp hc
      obtain ⟨hcount, hhead, hbegun⟩ := ih nofun
      rw [hspacing, beq_false_of_ne hcomment.1, beq_false_of_ne hcomment.2]
      exact ⟨hcount, hhead, hbegun⟩
    | key | skip | value | literal | dollar =>
      obtain ⟨hcount, hhead, hbegun⟩ := ih nofun
      exact ⟨hcount, hhead, hbegun⟩

/-- Behind the first character of a text, where comments start depends on the lines alone, and not
on what is open. -/
theorem leads_read (p : Place) (c : Char) (hm : m ≠ start) :
    Leads (m.isLineHead && (c == '#' || c == ';')).toNat
      (isTerminator c || m.isLineHead && isSpacing c) (m.read p c) :=
  (m.reads_read p c).leads hm

/-- The comments behind a place depend on the lines alone. -/
theorem countP_outlineOf {m m' : Mode} (hm : m ≠ start) (hm' : m' ≠ start)
    (h : m.isLineHead = m'.isLineHead) (t : Text) :
    (m.outlineOf t).countP (isStart .comment) = (m'.outlineOf t).countP (isStart .comment) := by
  induction t generalizing m m' with
  | nil => rw [countP_outlineOf_nil (Or.inl rfl), countP_outlineOf_nil (Or.inl rfl)]
  | cons c t ih =>
    have hread := leads_read ⟨0, 0, 0⟩ c hm
    have hread' := leads_read ⟨0, 0, 0⟩ c hm'
    rw [countP_outlineOf_cons (Or.inl rfl), countP_outlineOf_cons (Or.inl rfl), hread.count,
      hread'.count, h, ih hread.begun hread'.begun (by rw [hread.head, hread'.head, h])]

/-- A comment that ends a key or value is lost where a run of the key or value goes on. -/
theorem countP_outlineOf_comment {m : Mode} {r : Run} (h : m.inside = some r.part) {c : Char}
    (hc : c = '#' ∨ c = ';') {t : Text} {es : List Event}
    (ht : m.outlineOf (c :: t) = Event.stop r.part 0 :: es) :
    (m.outlineOf (c :: t)).countP (isStart .comment) =
      ((run r).outlineOf (c :: t)).countP (isStart .comment) + 1 := by
  have hbegun : m ≠ start := by
    rintro rfl
    simp [inside] at h
  have hhead : m.isLineHead = true := by
    have hread := outline_read_ne_nil ht
    cases m with
    | lineStart | afterReturn | indent => rfl
    | run r' | escape r' =>
      refine (hread ?_).elim
      rcases hc with rfl | rfl <;> cases r' <;> rfl
    | between | dollar =>
      refine (hread ?_).elim
      rcases hc with rfl | rfl <;> rfl
    | start | afterKey | skipped | afterAssign | comment => simp [inside] at h
  have hread := leads_read ⟨0, 0, 0⟩ c hbegun
  have hread' := leads_read ⟨0, 0, 0⟩ c (m := run r) (by simp)
  have hcomment : (c == '#' || c == ';') = true := by simpa using hc
  have hline : isTerminator c = false ∧ isSpacing c = false := by
    rcases hc with rfl | rfl <;> exact ⟨rfl, rfl⟩
  have hrest := countP_outlineOf hread.begun hread'.begun
    (by rw [hread.head, hread'.head, hline.1, hline.2, Bool.and_false, Bool.and_false]) t
  rw [countP_outlineOf_cons (Or.inl rfl), countP_outlineOf_cons (Or.inl rfl), hread.count,
    hread'.count, hrest, hcomment, hhead]
  show 1 + _ = 0 + _ + 1
  omega

end Mode

theorem Slot.not_isStart_comment (slot : Slot) (o : Nat) :
    isStart .comment (start slot.construct o) = false := by
  cases slot <;> rfl

namespace Site

variable {s : Site} {w x y t : Text}

/-- The number of comments does not depend on the key or value. -/
theorem commentCount (h : Layout.Outlines s.mark (s.fill w) t) :
    (Tree.ofEvents (ofText t)).commentCount =
      s.opening.countP (isStart .comment) + (s.closing 0).countP (isStart .comment) := by
  have hstart := s.slot.not_isStart_comment s.front.length
  have hstop : ∀ o, isStart .comment (stop s.slot.construct o) = false := fun _ => rfl
  have hmoved := shift_closing (s.front.length + w.length) 0 s
  obtain ⟨-, hevents⟩ := s.outlines_iff.mp h
  rw [Tree.commentCount_ofText, hevents, List.countP_append,
    List.countP_cons_of_neg (by simp [hstart]), List.countP_cons_of_neg (by simp [hstop]),
    ← Nat.zero_add (s.front.length + w.length), ← hmoved, countP_map_shift]

/-- A comment right behind a key or value is lost with what stands in front of it. -/
theorem Opens.commentCount {r : Run} (hx : s.Opens x r) (hy : ∀ c ∈ y, isPlain c = true)
    (h : Layout.Outlines s.mark (s.fill w) t) (hw : w ≠ []) {c : Char}
    (hback : s.back.head? = some c) (hc : c = '#' ∨ c = ';') :
    (Tree.ofEvents (ofText t)).commentCount =
      (Tree.ofEvents (ofText (s.front ++ (x ++ y ++ s.back)))).commentCount + 1 := by
  obtain ⟨hinside, hzero⟩ := outlineOf_back h hw
  rw [← hx.part] at hinside
  obtain ⟨back, hcons⟩ := List.head?_eq_some_iff.mp hback
  have hlost := Mode.countP_outlineOf_comment hinside hc (by rw [← hcons, hzero, hx.part])
  rw [← hcons, hzero, List.countP_cons_of_neg (by simp [isStart])] at hlost
  have hstart := s.slot.not_isStart_comment s.front.length
  rw [Site.commentCount h, Tree.commentCount_ofText, hx.outline_ofText hy, List.countP_append,
    List.countP_cons_of_neg (by simp [hstart]), countP_map_shift, hlost, Nat.add_assoc]

end Site

end DotProperties
