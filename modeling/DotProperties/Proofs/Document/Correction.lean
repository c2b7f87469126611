import DotProperties.Proofs.Document.Diagnosis
import DotProperties.Proofs.Document.Replacement

/-!
# Corrections

An action for a diagnostic on a key or a value corrects the document : the property gets the
suggested name or value, keeps the rest, and all other properties and all comments stay as they
are (`Document.Corrects`). For a plain suggestion it does so exactly if no comment starts right
behind the key or value (`Document.corrects_iff`).

A key is renamed behind its profile, if it has one, so what is written in its place is plain
from the start or behind a dot that the old key has too (`Text.renews_rename`). Both may be put
into the site of the key or value (`Tree.splice_part`).
-/

namespace DotProperties

open Event

/-! ## The site of a property -/

/-- The property with the number `i` of a layout. -/
theorem Layout.exists_of_getElem? {l : Layout} {o i : Nat} {p : Property}
    (h : ((l.items o).filterMap Item.property?)[i]? = some p) :
    ∃ (l₁ : Layout) (key : Text) (ending : Ending) (l₂ : Layout),
      l = l₁ ++ .property key ending :: l₂ ∧ p = ending.property (o + l₁.text.length) key ∧
        l₁.contents.length = i := by
  induction l generalizing o i with
  | nil => simp [Layout.items, layOut] at h
  | cons b l ih =>
    have hitems : items o (b :: l) = b.items o ++ items (o + b.text.length) l := rfl
    have hlater : ∀ k, ((items (o + b.text.length) l).filterMap Item.property?)[k]? = some p →
        k + b.contents.length = i → ∃ (l₁ : Layout) (key : Text) (ending : Ending) (l₂ : Layout),
          b :: l = l₁ ++ .property key ending :: l₂ ∧
            p = ending.property (o + l₁.text.length) key ∧ l₁.contents.length = i := by
      intro k hk hi
      obtain ⟨l₁, key, ending, l₂, rfl, rfl, hlength⟩ := ih hk
      refine ⟨b :: l₁, key, ending, l₂, rfl, ?_, ?_⟩
      · simp only [text, List.flatMap_cons, List.length_append, Nat.add_assoc]
      · rw [← hi, ← hlength]
        simp only [contents, List.flatMap_cons, List.length_append]
        omega
    rw [hitems, List.filterMap_append] at h
    cases b with
    | gap | comment => exact hlater i h rfl
    | property key ending =>
      cases i with
      | zero => exact ⟨[], key, ending, l, rfl, (Option.some.inj h).symm, rfl⟩
      | succ i => exact hlater i h rfl

/-! ## Another key or value -/

/-- The characters of a key and a value, with `w` in the place of one of the two. -/
def withPart (part : Construct) (w : Text) (content : Text × Option Text) : Text × Option Text :=
  match part with
  | .key => (w, content.2)
  | _ => (content.1, some w)

theorem Slot.content_eq (slot : Slot) (w w' : Text) :
    slot.content w' = withPart slot.construct w' (slot.content w) := by
  cases slot <;> rfl

/-- The text `new` may be written in the place of the key or value `old` : it is plain, or it is
a key that is plain behind a dot and has what `old` has before it. -/
inductive Renews (part : Construct) (old : Text) : Text → Prop
  | whole {new : Text} : new.isPlain = true → Renews part old new
  | behindDot {x y z : Text} : part = .key → old = x ++ '.' :: y → z.isPlain = true →
      Renews part old (x ++ '.' :: z)

namespace Site

variable {s : Site} {w new t : Text}

theorem exists_opens (h : Layout.Outlines s.mark (s.fill w) t) (hw : w ≠ [])
    (hnew : Renews s.slot.construct w new) :
    ∃ x y r, new = x ++ y ∧ s.Opens x r ∧ ∀ c ∈ y, isPlain c = true := by
  cases hnew with
  | whole hplain =>
    obtain ⟨hne, hall⟩ := Text.isPlain_iff.mp hplain
    obtain ⟨c, y, rfl⟩ := List.exists_cons_of_ne_nil hne
    obtain ⟨hc, hy⟩ := List.forall_mem_cons.mp hall
    obtain ⟨r, hr⟩ := opens_plain h hw hc
    exact ⟨[c], y, r, rfl, hr, hy⟩
  | @behindDot x y z hpart hold hplain =>
    have hopens := opens_key h hpart (c := '.') rfl hold
    exact ⟨x ++ ['.'], z, .key, by simp, hopens, (Text.isPlain_iff.mp hplain).2⟩

/-- The site of the key or the value of the property number `i`. -/
theorem exists_of_getElem? {i : Nat} {p : Property} {part : Construct} {span : Span}
    (hp : (Tree.ofEvents (ofText t)).properties[i]? = some p) (hspan : p.part? part = some span) :
    ∃ (s : Site) (w : Text), s.slot.construct = part ∧ Layout.Outlines s.mark (s.fill w) t ∧
      span = ⟨s.front.length, s.front.length + w.length⟩ ∧ s.before.contents.length = i := by
  obtain ⟨mark, l, h⟩ := Layout.exists_describes t
  rw [Tree.properties, h.items] at hp
  obtain ⟨before, key, ending, behind, rfl, rfl, hi⟩ := Layout.exists_of_getElem? hp
  cases part with
  | key =>
    obtain rfl := Option.some.inj hspan
    refine ⟨⟨mark, before, .key ending, behind⟩, key, rfl, h.outlines, ?_, hi⟩
    rw [length_front]
    rfl
  | value =>
    rcases ending with rest | ⟨before', delimiter, behind', _ | ps⟩
    · cases hspan
    · cases hspan
    · obtain rfl := Option.some.inj hspan
      obtain ⟨htext, houtline⟩ := Slot.fill_value key before' delimiter behind' ps
      refine ⟨⟨mark, before, .value key before' delimiter behind', behind⟩, piecesText ps, rfl,
        h.outlines.exchange htext houtline, ?_, hi⟩
      rw [length_front, Slot.add_length_front_value]
      rfl
  | document | property | literal | expression | comment => cases hspan

theorem contents_modify (s : Site) (w new : Text) :
    (s.fill new).contents =
      (s.fill w).contents.modify s.before.contents.length (withPart s.slot.construct new) := by
  rw [contents_fill, contents_fill, s.slot.content_eq w new]
  exact (List.modifyTailIdx_add (List.modifyHead (withPart s.slot.construct new)) 0
    s.before.contents (s.slot.content w :: s.behind.contents)).symm

end Site

/-- Another key or value in the place of one that is not empty changes nothing else if there is no
comment right behind it. If there is one, it is lost. -/
theorem Tree.splice_part {t new : Text} {i : Nat} {p : Property} {part : Construct} {span : Span}
    (hp : (Tree.ofEvents (ofText t)).properties[i]? = some p) (hspan : p.part? part = some span)
    (hne : t.slice span ≠ []) (hnew : Renews part (t.slice span) new) :
    ((∀ c ∈ t[span.stop]?, c ≠ '#' ∧ c ≠ ';') →
      (ofEvents (ofText (t.splice span new))).properties.map
          (Property.content (t.splice span new)) =
          ((ofEvents (ofText t)).properties.map (Property.content t)).modify i (withPart part new) ∧
        (ofEvents (ofText (t.splice span new))).commentCount =
          (ofEvents (ofText t)).commentCount) ∧
      ((∃ c ∈ t[span.stop]?, c = '#' ∨ c = ';') →
        (ofEvents (ofText t)).commentCount =
          (ofEvents (ofText (t.splice span new))).commentCount + 1) := by
  obtain ⟨s, w, rfl, h, rfl, rfl⟩ := Site.exists_of_getElem? hp hspan
  have htext := h.text
  rw [Site.text_fill] at htext
  have hslice : t.slice ⟨s.front.length, s.front.length + w.length⟩ = w :=
    Text.slice_of_eq htext rfl
  have hsplice : t.splice ⟨s.front.length, s.front.length + w.length⟩ new =
      s.front ++ (new ++ s.back) := by
    rw [htext, Text.splice_stretch]
  have hback : t[s.front.length + w.length]? = s.back.head? := by
    rw [htext, List.head?_eq_getElem?, ← List.append_assoc,
      List.getElem?_append_right (by simp)]
    simp
  rw [hslice] at hne hnew
  rw [hsplice]
  dsimp only
  rw [hback]
  obtain ⟨x, y, r, rfl, hopens, hy⟩ := Site.exists_opens h hne hnew
  refine ⟨fun hcomment => ?_, ?_⟩
  · have h' := hopens.outlines hy h hne hcomment
    rw [h.contents, h'.contents, s.contents_modify w, Site.commentCount h, Site.commentCount h']
    exact ⟨rfl, rfl⟩
  · rintro ⟨c, hc, hcomment⟩
    exact hopens.commentCount hy h hne hc hcomment

/-! ## Names and profiles -/

namespace Text

/-- The profile of a raw key. -/
def profileOf (key : Text) : Option Text :=
  (Document.profileLength? key).map fun n => (key.take n).drop 1

/-- A raw key with another name behind its profile. -/
def rename (key name : Text) : Text :=
  match key.profileOf with
  | some profile => '%' :: profile ++ '.' :: name
  | none => name

theorem profileOf_cons (t : Text) : profileOf ('%' :: t) = some (t.takeWhile (· != '.')) := by
  have hbegins := List.takeWhile_prefix (l := t) (· != '.')
  have htake := (List.prefix_iff_eq_take.mp hbegins).symm
  simp [profileOf, Document.profileLength?, htake]

theorem profileOf_of_head {key : Text} (h : key.head? ≠ some '%') : key.profileOf = none := by
  simp [profileOf, Document.profileLength?, h]

/-- A key that has a name has a dot behind its profile. -/
theorem exists_of_profileOf {key name profile : Text} (hname : nameOf key = some name)
    (hprofile : key.profileOf = some profile) :
    (∀ c ∈ profile, (c != '.') = true) ∧ ∃ rest, key = '%' :: profile ++ '.' :: rest := by
  by_cases hhead : key.head? = some '%'
  · obtain ⟨t, rfl⟩ := List.head?_eq_some_iff.mp hhead
    rw [profileOf_cons] at hprofile
    obtain rfl := Option.some.inj hprofile
    refine ⟨fun c => List.all_eq_true.mp List.all_takeWhile c, ?_⟩
    rw [nameOf, if_pos hhead, List.dropWhile_cons_of_pos (by decide)] at hname
    have hsplit := List.takeWhile_append_dropWhile (p := (· != '.')) (l := t)
    cases hrest : t.dropWhile (· != '.') with
    | nil =>
      rw [hrest] at hname
      exact nomatch hname
    | cons c rest =>
      have hdot : (c != '.') = false := by
        have hhead := List.head?_dropWhile_not (· != '.') t
        rwa [hrest] at hhead
      obtain rfl : c = '.' := by simpa using hdot
      refine ⟨rest, ?_⟩
      rw [List.cons_append, ← hrest, hsplit]
  · rw [profileOf_of_head hhead] at hprofile
    exact nomatch hprofile

section Rename

variable {name : Text} (hplain : name.isPlain = true)
include hplain

theorem head?_ne_of_isPlain : name.head? ≠ some '%' := by
  obtain ⟨hne, hall⟩ := isPlain_iff.mp hplain
  obtain ⟨c, t, rfl⟩ := List.exists_cons_of_ne_nil hne
  have hc := ne_of_isPlain (hall c List.mem_cons_self) (d := '%') (by decide)
  simpa using hc

variable {key old : Text} (hold : nameOf key = some old)
include hold

theorem renews_rename : Renews .key key (key.rename name) := by
  rw [rename]
  cases hprofile : key.profileOf with
  | none => exact .whole hplain
  | some profile =>
    obtain ⟨-, rest, hkey⟩ := exists_of_profileOf hold hprofile
    exact .behindDot rfl hkey hplain

theorem nameOf_rename : nameOf (key.rename name) = some name := by
  rw [rename]
  cases hprofile : key.profileOf with
  | none => simp [nameOf, head?_ne_of_isPlain hplain, join_of_isPlain hplain]
  | some profile =>
    obtain ⟨hdots, -⟩ := exists_of_profileOf hold hprofile
    simp [nameOf, List.dropWhile_append_of_pos hdots, join_of_isPlain hplain]

theorem profileOf_rename : (key.rename name).profileOf = key.profileOf := by
  rw [rename]
  cases hprofile : key.profileOf with
  | none => exact profileOf_of_head (head?_ne_of_isPlain hplain)
  | some profile =>
    obtain ⟨hdots, -⟩ := exists_of_profileOf hold hprofile
    simp [profileOf_cons, List.takeWhile_append_of_pos hdots]

end Rename

end Text

/-! ## Corrected documents -/

namespace Document

/-- The document `d'` is `d` after a correction of its property number `i` to `t`. A diagnostic
of the rule `r` was to be settled, so that `t` is a name or a value. -/
structure Corrects (d d' : Document) (r : Rule) (i : Nat) (t : Text) : Prop where
  /-- There are as many comments as before. -/
  comments : d'.tree.commentCount = d.tree.commentCount
  /-- There are as many properties as before. -/
  length : d'.properties.length = d.properties.length
  /-- The property has the suggested name or value, and the rest of it is as before. -/
  edited : ∃ p p', d.properties[i]? = some p ∧ d'.properties[i]? = some p' ∧
    match r with
    | .value => d'.value? p' = some t ∧ d'.fullName p' = d.fullName p
    | _ => d'.name? p' = some t ∧ d'.profile? p' = d.profile? p ∧ d'.value? p' = d.value? p
  /-- Every other property has its name and its value. -/
  others : ∀ j p, j ≠ i → d.properties[j]? = some p → ∃ p', d'.properties[j]? = some p' ∧
    d'.fullName p' = d.fullName p ∧ d'.value? p' = d.value? p

section Contents

variable (b : Buffer) (p : Property)

theorem profile?_eq_profileOf : (ofBuffer b).profile? p = (p.content b.text).1.profileOf :=
  congrArg Text.profileOf (raw_eq_slice (ofBuffer b) p.key)

theorem renamed_eq_rename (t : Text) :
    (ofBuffer b).renamed p t = (p.content b.text).1.rename t := by
  have hprofile := profile?_eq_profileOf b p
  cases hkey : (p.content b.text).1.profileOf <;> simp [renamed, Text.rename, hprofile, hkey]

end Contents

section Corrects

variable {b b' : Buffer} {i : Nat} {p : Property} {r : Rule} {t : Text}

/-- What the catalog suggests may be written in the place of the key or value. -/
theorem renews_correction (hr : r = .unknown ∨ r = .value) (ht : t.isPlain = true)
    (hname : r = .unknown → (ofBuffer b).name p ≠ []) {span : Span}
    (hspan : p.part? r.part = some span) :
    Renews r.part (b.text.slice span) ((ofBuffer b).correction p r t) := by
  rcases hr with rfl | rfl
  · obtain rfl := Option.some.inj hspan
    have hold := name?_of_ne_nil (hname rfl)
    rw [name?_eq_nameOf] at hold
    have hrenews := Text.renews_rename ht hold
    rw [← renamed_eq_rename] at hrenews
    exact hrenews
  · exact .whole ht

/-- A document is corrected if its keys and values are, and no comment comes or goes. -/
theorem corrects_of_contents (hr : r = .unknown ∨ r = .value) (ht : t.isPlain = true)
    (hp : (ofBuffer b).properties[i]? = some p)
    (hname : r = .unknown → (ofBuffer b).name p ≠ [])
    (hcontents : (ofBuffer b').properties.map (Property.content b'.text) =
      ((ofBuffer b).properties.map (Property.content b.text)).modify i
        (withPart r.part ((ofBuffer b).correction p r t)))
    (hcomments : (ofBuffer b').tree.commentCount = (ofBuffer b).tree.commentCount) :
    (ofBuffer b).Corrects (ofBuffer b') r i t := by
  have hat : ∀ j q, (ofBuffer b).properties[j]? = some q →
      ∃ q', (ofBuffer b').properties[j]? = some q' ∧ q'.content b'.text =
        if i = j then withPart r.part ((ofBuffer b).correction p r t) (q.content b.text)
        else q.content b.text := by
    intro j q hq
    have hj := congrArg (·[j]?) hcontents
    simp only [List.getElem?_map, List.getElem?_modify, hq] at hj
    exact Option.map_eq_some_iff.mp hj
  refine ⟨hcomments, ?_, ?_, ?_⟩
  · simpa using congrArg List.length hcontents
  · obtain ⟨p', hp', hcontent⟩ := hat i p hp
    rw [if_pos rfl] at hcontent
    refine ⟨p, p', hp, hp', ?_⟩
    rcases hr with rfl | rfl
    · have hold := name?_of_ne_nil (hname rfl)
      rw [name?_eq_nameOf] at hold
      have hkey : (p'.content b'.text).1 = (p.content b.text).1.rename t := by
        rw [hcontent, ← renamed_eq_rename]
        rfl
      have hvalue : (p'.content b'.text).2 = (p.content b.text).2 := by
        rw [hcontent]
        rfl
      dsimp only
      rw [name?_eq_nameOf, profile?_eq_profileOf, profile?_eq_profileOf, value?_eq_join,
        value?_eq_join, hkey, hvalue]
      exact ⟨Text.nameOf_rename ht hold, Text.profileOf_rename ht hold, rfl⟩
    · dsimp only
      rw [fullName_eq_join, fullName_eq_join, value?_eq_join, hcontent]
      exact ⟨congrArg some (Text.join_of_isPlain ht), rfl⟩
  · intro j q hj hq
    obtain ⟨q', hq', hcontent⟩ := hat j q hq
    rw [if_neg hj.symm] at hcontent
    refine ⟨q', hq', ?_⟩
    rw [fullName_eq_join, fullName_eq_join, value?_eq_join, value?_eq_join, hcontent]
    exact ⟨rfl, rfl⟩

end Corrects

/-- An action that edits the document for a diagnostic on a key or a value writes a suggestion of
the catalog in its place. If the suggestion is plain, the document is corrected and nothing else
of it changes, unless a comment starts right behind the key or value. -/
theorem corrects_iff {b : Buffer} {c : Catalog} {s : Settings} {fs : FixSettings}
    {gs : List Diagnostic} {g : Diagnostic} {a : Action} {es : List Edit}
    (hg : g ∈ (ofBuffer b).diagnostics c s) (hrule : g.rule = .unknown ∨ g.rule = .value)
    (ha : a ∈ Step.results ((ofBuffer b).fixes c fs gs)) (hfor : a.diagnostics = [g])
    (hes : a.remedy = .edits es) :
    ∃ (i : Nat) (p : Property) (t : Text) (e : Edit),
      (ofBuffer b).properties[i]? = some p ∧ p.part? g.rule.part = some e.span ∧
      (ofBuffer b).Suggests c p g.rule t ∧ es = [e] ∧
      e.newText = (ofBuffer b).correction p g.rule t ∧
      (t.isPlain = true → ∀ b' : Buffer, b'.text = b.text.splice e.span e.newText →
        ((ofBuffer b).Corrects (ofBuffer b') g.rule i t ↔
          ∀ x ∈ b.text[e.span.stop]?, x ≠ '#' ∧ x ≠ ';')) := by
  obtain ⟨p, hp, hspan, hraw, hname, range, t, hsuggests, rfl⟩ :=
    exists_correction hg hrule ha hfor hes
  obtain ⟨i, hi⟩ := List.getElem?_of_mem hp
  refine ⟨i, p, t, _, hi, hspan, hsuggests, rfl, rfl, fun ht b' hb' => ?_⟩
  rw [raw_eq_slice] at hraw
  obtain ⟨hkept, hlost⟩ :=
    Tree.splice_part hi hspan hraw (renews_correction hrule ht hname hspan)
  rw [← hb'] at hkept hlost
  refine ⟨fun hcorrects x hx => ?_, fun hback => ?_⟩
  · by_contra hcomment
    have hcount := hlost ⟨x, hx, (not_and_or.mp hcomment).imp not_not.mp not_not.mp⟩
    have hsame : (Tree.ofEvents (ofText b'.text)).commentCount =
        (Tree.ofEvents (ofText b.text)).commentCount := hcorrects.comments
    omega
  · obtain ⟨hcontents, hcomments⟩ := hkept hback
    exact corrects_of_contents hrule ht hi hname hcontents hcomments

/-- A key with a profile that is continued on a second line, with a comment on the third. -/
theorem corrects_iff_profile :
    ∃ (b b' : Buffer) (c : Catalog) (g : Diagnostic) (a : Action) (e : Edit),
      b.text = ['%', 'd', '.', 'a', 'p', '\\', '\n', 'p', 'l', '=', '1', '\n', '#', 'c'] ∧
      b'.text = ['%', 'd', '.', 'a', 'p', 'p', 'l', 'e', '=', '1', '\n', '#', 'c'] ∧
      g ∈ (ofBuffer b).diagnostics c {} ∧ g.rule = .unknown ∧
      a ∈ Step.results ((ofBuffer b).fixes c {} [g]) ∧ a.diagnostics = [g] ∧
      a.remedy = .edits [e] ∧ b'.text = b.text.splice e.span e.newText ∧
      (ofBuffer b).Corrects (ofBuffer b') .unknown 0 ['a', 'p', 'p', 'l', 'e'] := by
  let b : Buffer :=
    ⟨"u", ['%', 'd', '.', 'a', 'p', '\\', '\n', 'p', 'l', '=', '1', '\n', '#', 'c'], 1⟩
  let b' : Buffer := ⟨"u", ['%', 'd', '.', 'a', 'p', 'p', 'l', 'e', '=', '1', '\n', '#', 'c'], 2⟩
  let c : Catalog := ⟨[{ name := ['a', 'p', 'p', 'l', 'e'] }], []⟩
  let g : Diagnostic := ⟨⟨⟨0, 0⟩, ⟨1, 2⟩⟩, ⟨0, 9⟩, .warning, .unknown, "Unknown property 'appl'",
    some ['a', 'p', 'p', 'l']⟩
  let e : Edit := ⟨⟨⟨0, 0⟩, ⟨1, 2⟩⟩, ⟨0, 9⟩, ['%', 'd', '.', 'a', 'p', 'p', 'l', 'e']⟩
  let a : Action := ⟨"Did you mean 'apple' ?", .similarKey, [g], .edits [e]⟩
  let q : Property := ⟨⟨0, 11⟩, ⟨0, 9⟩, some ⟨9, some ⟨⟨10, 11⟩, [⟨.literal, 10, 11⟩]⟩⟩⟩
  have hg : g ∈ (ofBuffer b).diagnostics c {} := by decide
  have ha : a ∈ Step.results ((ofBuffer b).fixes c {} [g]) := by decide
  refine ⟨b, b', c, g, a, e, rfl, rfl, hg, rfl, ha, rfl, rfl, rfl, ?_⟩
  obtain ⟨i, p, t, e', hp, -, -, he, hnew, hiff⟩ := corrects_iff hg (Or.inl rfl) ha rfl rfl
  obtain rfl := List.singleton_inj.mp he
  obtain ⟨rfl, rfl⟩ : i = 0 ∧ p = q := by
    rw [show (ofBuffer b).properties = [q] by decide] at hp
    cases i with
    | zero => exact ⟨rfl, (Option.some.inj hp).symm⟩
    | succ i => exact nomatch hp
  obtain rfl : t = ['a', 'p', 'p', 'l', 'e'] := by
    have hprofile : (ofBuffer b).profile? q = some ['d'] := by decide
    simpa [correction, renamed, hprofile, e, g] using hnew.symm
  refine (hiff (by decide) b' rfl).mpr fun x hx => ?_
  obtain rfl := Option.some.inj hx
  decide

/-- A value that is continued on a line that is a comment stops behind the terminator. It is
replaced together with the terminator, and the comment becomes part of the new value. -/
theorem exists_not_corrects :
    ∃ (b b' : Buffer) (c : Catalog) (g : Diagnostic) (a : Action) (e : Edit),
      b.text = ['a', '=', 'f', 'o', 'o', '\\', '\n', '#', 'c'] ∧
      b'.text = ['a', '=', 'b', 'a', 'r', '#', 'c'] ∧
      g ∈ (ofBuffer b).diagnostics c {} ∧ g.rule = .value ∧
      a ∈ Step.results ((ofBuffer b).fixes c {} [g]) ∧ a.diagnostics = [g] ∧
      a.remedy = .edits [e] ∧ e.newText.isPlain = true ∧
      b'.text = b.text.splice e.span e.newText ∧
      (ofBuffer b').properties.map (ofBuffer b').value? = [some ['b', 'a', 'r', '#', 'c']] ∧
      ∀ i, ¬(ofBuffer b).Corrects (ofBuffer b') .value i e.newText := by
  let b : Buffer := ⟨"u", ['a', '=', 'f', 'o', 'o', '\\', '\n', '#', 'c'], 1⟩
  let b' : Buffer := ⟨"u", ['a', '=', 'b', 'a', 'r', '#', 'c'], 2⟩
  let c : Catalog := ⟨[{ name := ['a'], hintRef := some ['h'] }],
    [{ name := ['h'], choices := [{ value := ['b', 'a', 'r'] }] }]⟩
  let g : Diagnostic := ⟨⟨⟨0, 2⟩, ⟨1, 0⟩⟩, ⟨2, 7⟩, .error, .value,
    "Invalid enum value: 'foo' is invalid for type String", some ['a']⟩
  let e : Edit := ⟨⟨⟨0, 2⟩, ⟨1, 0⟩⟩, ⟨2, 7⟩, ['b', 'a', 'r']⟩
  let a : Action := ⟨"Replace with 'bar'?", .anyValue, [g], .edits [e]⟩
  refine ⟨b, b', c, g, a, e, rfl, rfl, by decide, rfl, by decide, rfl, rfl, by decide, rfl,
    by decide, fun i h => ?_⟩
  have hcomments : (ofBuffer b').tree.commentCount ≠ (ofBuffer b).tree.commentCount := by decide
  exact hcomments h.comments

end Document

end DotProperties
