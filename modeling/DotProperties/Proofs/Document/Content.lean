import DotProperties.Proofs.Document.Order
import DotProperties.Proofs.Document.Transparency
import DotProperties.Proofs.Event.Origin
import DotProperties.Proofs.Text.Lines

/-!
# Logical texts and continuations

A scan knows which characters are part of a continuation : a backslash in front of a line
terminator, the terminator, and the spacing at the start of the next line (`Mode.continuing`).
The logical text of a key, a value or a fragment is found from its characters alone. It leaves out
the characters of the continuations, and besides all blanks that stand right behind one
(`Scanner.joinFrom_eq_strip`). A line may go on with a blank that is no spacing, so the two are
the same exactly where no line of the node does so (`Document.text?_eq_kept_iff`).
-/

namespace DotProperties

open Event

/-! ## Characters of continuations -/

/-- The character read last is part of a continuation, if `next` comes behind it. -/
def Mode.continuing (next : Option Char) : Mode → Bool
  | escape _ => next.any isTerminator
  | lineStart (some _) | afterReturn (some _) | indent (some _) => true
  | _ => false

/-- The characters of a text, each with whether it is part of a continuation. -/
def Scanner.tagged (s : Scanner) : Text → List (Char × Bool)
  | [] => []
  | c :: t => (c, (s.next c).mode.continuing t.head?) :: (s.next c).tagged t

/-- The characters of a span of a text, each with whether it is part of a continuation. -/
def Text.tagged (t : Text) (s : Span) : List (Char × Bool) :=
  ((Scanner.initial.tagged t).drop s.start).take s.length

/-- The characters that are not part of a continuation. -/
def kept (w : List (Char × Bool)) : Text := (w.filter fun x => !x.2).map Prod.fst

/-- The characters that are neither part of a continuation nor blanks right behind one. `trimming`
says that one has just come to an end. -/
def strip (trimming : Bool) : List (Char × Bool) → Text
  | [] => []
  | (_, true) :: w => strip true w
  | (c, false) :: w => if trimming && isBlank c then strip true w else c :: strip false w

/-- A character behind one of a continuation is another one or is not blank. -/
def FollowsContinuation (x y : Char × Bool) : Prop := x.2 = true → y.2 = false → isBlank y.1 = false

instance : DecidableRel FollowsContinuation :=
  fun x y => inferInstanceAs (Decidable (x.2 = true → y.2 = false → isBlank y.1 = false))

namespace Scanner

variable (s : Scanner)

theorem map_fst_tagged (t : Text) : (s.tagged t).map Prod.fst = t := by
  induction t generalizing s with
  | nil => rfl
  | cons c t ih => rw [tagged, List.map_cons, ih]

theorem drop_tagged_append (u t : Text) :
    (s.tagged (u ++ t)).drop u.length = (s.after u).tagged t := by
  induction u generalizing s with
  | nil => rfl
  | cons c u ih => exact ih (s.next c)

end Scanner

theorem Text.tagged_append (u w v : Text) :
    (u ++ (w ++ v)).tagged ⟨u.length, u.length + w.length⟩ =
      ((Scanner.initial.after u).tagged (w ++ v)).take w.length := by
  rw [tagged, Scanner.drop_tagged_append, Span.length, Nat.add_sub_cancel_left]

theorem Text.map_fst_tagged (t : Text) (s : Span) : (t.tagged s).map Prod.fst = t.slice s := by
  rw [tagged, List.map_take, List.map_drop, Scanner.map_fst_tagged]
  rfl

/-! ## Blanks behind continuations -/

theorem length_strip_le (trimming : Bool) (w : List (Char × Bool)) :
    (strip trimming w).length ≤ (kept w).length := by
  fun_induction strip trimming w with
  | case1 => exact Nat.le_refl _
  | case2 trimming c w ih => exact ih
  | case3 trimming c w h ih => exact Nat.le_succ_of_le ih
  | case4 trimming c w h ih => exact Nat.succ_le_succ ih

/-- Nothing more is stripped if no blank stands behind a continuation. -/
theorem strip_eq_kept_iff (trimming : Bool) (w : List (Char × Bool)) :
    strip trimming w = kept w ↔ ((' ', trimming) :: w).IsChain FollowsContinuation := by
  fun_induction strip trimming w with
  | case1 => simp [kept]
  | case2 trimming c w ih =>
    have hkept : kept ((c, true) :: w) = kept w := rfl
    have hhead : FollowsContinuation (' ', trimming) (c, true) := fun _ h => Bool.noConfusion h
    rw [hkept, ih, List.isChain_cons_cons, List.isChain_cons, List.isChain_cons]
    simp only [hhead, true_and]
    rfl
  | case3 trimming c w h ih =>
    have hlength := length_strip_le true w
    have hblank : ¬FollowsContinuation (' ', trimming) (c, false) := by
      rw [Bool.and_eq_true] at h
      intro hfollows
      exact Bool.noConfusion (h.2.symm.trans (hfollows h.1 rfl))
    refine iff_of_false (fun heq => ?_) fun hchain => hblank (List.isChain_cons_cons.mp hchain).1
    have := congrArg List.length heq
    simp only [kept, List.filter_cons, Bool.not_false, if_true, List.map_cons, List.length_cons]
      at this hlength
    omega
  | case4 trimming c w h ih =>
    have hkept : kept ((c, false) :: w) = c :: kept w := rfl
    have hhead : FollowsContinuation (' ', trimming) (c, false) := by
      intro htrimming _
      simpa [show trimming = true from htrimming] using h
    rw [hkept, List.cons_inj_right, ih, List.isChain_cons_cons, List.isChain_cons,
      List.isChain_cons]
    simp only [hhead, true_and]
    rfl

/-! ## Reading and joining -/

namespace Scanner

/-- The scan stands where `joinFrom trimming` may start on `w`. -/
structure Ready (trimming : Bool) (s : Scanner) (w : Text) : Prop where
  /-- It is not inside a continuation, between the backslash and the terminator. -/
  escape : (∃ r, s.mode = .escape r) → ∀ c ∈ w.head?, isTerminator c = false
  /-- It is not inside a continuation, between the two characters of a terminator. -/
  terminator : (∃ r, s.mode = .afterReturn (some r)) → w.head? ≠ some '\n'
  /-- Where spacing would be skipped, it would be dropped. -/
  pending : (∃ r, s.mode.pending = some r) → trimming = true ∨ ∀ c ∈ w.head?, isSpacing c = false

variable {s : Scanner} {trimming : Bool} {c : Char} {w : Text}

/-- In front of a line end a backslash is not escaped. -/
theorem escape_of_unbroken {d : Char} (h : s.Unbroken ('\\' :: d :: w))
    (hd : isTerminator d = true) : ∃ r, (s.next '\\').mode = .escape r := by
  rcases h ['\\'] d w rfl hd with hescape | ⟨-, r, hreturn⟩
  · exact hescape
  · have hnot := Mode.not_completes_read s.place '\\' '\n' s.mode rfl
    have hmode : (s.mode.read s.place '\\').2 = .afterReturn (some r) := hreturn
    rw [hmode] at hnot
    exact Bool.noConfusion hnot

/-- A scan that is ready does not stand in front of a line end. -/
theorem Ready.not_terminator (h : s.Ready trimming (c :: w)) (hw : s.Unbroken (c :: w)) :
    isTerminator c = false := by
  refine Bool.eq_false_iff.mpr fun hc => ?_
  rcases hw [] c w rfl hc with hescape | ⟨rfl, hreturn⟩
  · exact Bool.noConfusion (hc.symm.trans (h.escape hescape c rfl))
  · exact h.terminator hreturn rfl

theorem Ready.of_pending {r : Run} (h : s.mode.pending = some r)
    (hterminator : s.mode = .afterReturn (some r) → w.head? ≠ some '\n') : s.Ready true w where
  escape := by
    rintro ⟨r', hr'⟩
    rw [hr'] at h
    exact nomatch h
  terminator := by
    rintro ⟨r', hr'⟩
    rw [hr'] at h
    exact hterminator (hr'.trans (congrArg _ h))
  pending := fun _ => Or.inl rfl

/-- Spacing that a scan skips at the start of a line is dropped. -/
theorem Ready.trimming_of_pending (h : s.Ready trimming (c :: w)) (hw : s.Unbroken (c :: w))
    {r : Run} (hr : (s.next c).mode.pending = some r) : (trimming && isBlank c) = true := by
  obtain ⟨hspacing, hpending⟩ := (s.mode.reads_read s.place c).pending (h.not_terminator hw) hr
  rcases h.pending ⟨r, hpending⟩ with rfl | hhead
  · rcases Text.isSpacing_iff.mp hspacing with rfl | rfl <;> rfl
  · exact Bool.noConfusion (hspacing.symm.trans (hhead c rfl))

/-- Behind a character that starts no continuation a scan is ready again. -/
theorem Ready.next (h : s.Ready trimming (c :: w)) (hw : s.Unbroken (c :: w))
    (hclear : c = '\\' → ∀ d ∈ w.head?, isTerminator d = false) :
    (s.next c).Ready (trimming && isBlank c) w := by
  refine ⟨?_, ?_, ?_⟩
  · rintro ⟨r, hr⟩
    exact hclear ((s.mode.reads_read s.place c).eq_backslash hr)
  · rintro ⟨r, hr⟩
    have hmode : (s.mode.read s.place c).2 = .afterReturn (some r) := hr
    have hnot := Mode.not_completes_read s.place c '\n' s.mode (h.not_terminator hw)
    rw [hmode] at hnot
    exact Bool.noConfusion hnot
  · rintro ⟨r, hr⟩
    exact Or.inl (h.trimming_of_pending hw hr)

theorem after_terminator_mode {r : Run} (hr : s.mode = .escape r) {terminator : Text}
    (hterminator : terminator ∈ [['\n'], ['\r', '\n'], ['\r']])
    (h : (s.after terminator).mode = .afterReturn (some r)) : terminator = ['\r'] := by
  obtain ⟨m, p⟩ := s
  obtain rfl : m = .escape r := hr
  simp only [List.mem_cons, List.not_mem_nil, or_false] at hterminator
  rcases hterminator with rfl | rfl | rfl
  · exact nomatch h
  · exact nomatch h
  · rfl

/-- Behind a backslash the characters of a terminator are part of a continuation. -/
theorem strip_tagged_terminator {r : Run} (hr : s.mode = .escape r) {terminator : Text}
    (hterminator : terminator ∈ [['\n'], ['\r', '\n'], ['\r']]) (w v : Text) :
    strip true ((s.tagged (terminator ++ w ++ v)).take (terminator ++ w).length) =
      strip true (((s.after terminator).tagged (w ++ v)).take w.length) := by
  obtain ⟨m, p⟩ := s
  obtain rfl : m = .escape r := hr
  simp only [List.mem_cons, List.not_mem_nil, or_false] at hterminator
  rcases hterminator with rfl | rfl | rfl <;> rfl

/-- A continuation is left out by both. -/
theorem joinFrom_eq_strip_continuation (terminator : Text)
    (hterminator : terminator ∈ [['\n'], ['\r', '\n'], ['\r']])
    (hfeed : terminator = ['\r'] → w.head? ≠ some '\n') (v : Text)
    (hw : s.Unbroken ('\\' :: (terminator ++ w)))
    (ih : ∀ s' : Scanner, s'.Unbroken w → s'.Ready true w →
      s'.after w = s.after ('\\' :: (terminator ++ w)) →
        Text.joinFrom true w = strip true ((s'.tagged (w ++ v)).take w.length)) :
    Text.joinFrom true w = strip trimming ((s.tagged ('\\' :: (terminator ++ w) ++ v)).take
      ('\\' :: (terminator ++ w)).length) := by
  have hescape : ∃ r, (s.next '\\').mode = .escape r := by
    simp only [List.mem_cons, List.not_mem_nil, or_false] at hterminator
    rcases hterminator with rfl | rfl | rfl <;> exact escape_of_unbroken hw rfl
  obtain ⟨r, hr⟩ := hescape
  have htag : (s.next '\\').mode.continuing (terminator ++ w ++ v).head? = true := by
    rw [hr]
    simp only [List.mem_cons, List.not_mem_nil, or_false] at hterminator
    rcases hterminator with rfl | rfl | rfl <;> rfl
  have hunbroken : ((s.next '\\').after terminator).Unbroken w :=
    Unbroken.right (x := '\\' :: terminator) hw
  have hready : ((s.next '\\').after terminator).Ready true w :=
    .of_pending (after_terminator hr hterminator).2
      fun hreturn => hfeed (after_terminator_mode hr hterminator hreturn)
  rw [ih _ hunbroken hready (after_append ..).symm, ← strip_tagged_terminator hr hterminator,
    List.cons_append, tagged, List.length_cons, List.take_succ_cons, htag, strip]

/-- A character that starts no continuation and is not dropped is not part of one. -/
theorem Ready.continuing_eq_false (h : s.Ready trimming (c :: w)) (hw : s.Unbroken (c :: w))
    (hclear : c = '\\' → ∀ d ∈ w.head?, isTerminator d = false) {v : Text}
    (hend : (∃ r, (s.after (c :: w)).mode = .escape r) → ∀ d ∈ v.head?, isTerminator d = false)
    (hkeep : (trimming && isBlank c) = false) :
    (s.next c).mode.continuing (w ++ v).head? = false := by
  have hpending : ∀ r, (s.next c).mode.pending ≠ some r :=
    fun r hr => Bool.noConfusion (hkeep.symm.trans (h.trimming_of_pending hw hr))
  have hescape := (h.next hw hclear).escape
  rw [after_cons] at hend
  generalize s.next c = s' at hpending hescape hend ⊢
  obtain ⟨m, p⟩ := s'
  cases m with
  | escape r =>
    cases w with
    | nil =>
      cases v with
      | nil => rfl
      | cons d v => exact hend ⟨r, rfl⟩ d rfl
    | cons d w => exact hescape ⟨r, rfl⟩ d rfl
  | lineStart pending | afterReturn pending | indent pending =>
    cases pending with
    | none => rfl
    | some r => exact (hpending r rfl).elim
  | start | run | afterKey | skipped | afterAssign | between | dollar | comment => rfl

theorem clear_of_not_continuation (hfeed : ∀ t, c = '\\' → w = '\n' :: t → False)
    (hreturn : ∀ t, c = '\\' → w = '\r' :: t → False) :
    c = '\\' → ∀ d ∈ w.head?, isTerminator d = false := by
  intro hc d hd
  obtain ⟨w', rfl⟩ := List.head?_eq_some_iff.mp hd
  refine Bool.eq_false_iff.mpr fun hterminator => ?_
  rcases Text.isTerminator_iff.mp hterminator with rfl | rfl
  · exact hfeed w' hc rfl
  · exact hreturn w' hc rfl

/-- The logical text of `w`, if only continuations break it, is what is left of it in the eyes of
a scan, without the blanks behind continuations. -/
theorem joinFrom_eq_strip (v : Text) (hw : s.Unbroken w) (hready : s.Ready trimming w)
    (hend : (∃ r, (s.after w).mode = .escape r) → ∀ c ∈ v.head?, isTerminator c = false) :
    Text.joinFrom trimming w = strip trimming ((s.tagged (w ++ v)).take w.length) := by
  fun_induction Text.joinFrom trimming w generalizing s with
  | case1 => rfl
  | case2 trimming w ih =>
    refine joinFrom_eq_strip_continuation ['\n'] (by simp) (by simp) v hw ?_
    exact fun s' hw' hready' hafter => ih hw' hready' (hafter ▸ hend)
  | case3 trimming w ih =>
    refine joinFrom_eq_strip_continuation ['\r', '\n'] (by simp) (by simp) v hw ?_
    exact fun s' hw' hready' hafter => ih hw' hready' (hafter ▸ hend)
  | case4 trimming w hfeed ih =>
    refine joinFrom_eq_strip_continuation ['\r'] (by simp) (fun _ hhead => ?_) v hw
      fun s' hw' hready' hafter => ih hw' hready' (hafter ▸ hend)
    obtain ⟨w', rfl⟩ := List.head?_eq_some_iff.mp hhead
    exact hfeed w' rfl
  | case5 trimming c w hfeed _ hreturn hc ih =>
    have hnext := hready.next hw (clear_of_not_continuation hfeed hreturn)
    have hrest : (s.next c).Unbroken w := hw.right (x := [c])
    rw [hc] at hnext
    rw [ih hrest hnext hend, List.cons_append, tagged, List.length_cons,
      List.take_succ_cons]
    -- The character is dropped, whether it is part of a continuation or stands behind one.
    cases (s.next c).mode.continuing (w ++ v).head? with
    | true => rfl
    | false => rw [strip, if_pos hc]
  | case6 trimming c w hfeed _ hreturn hc ih =>
    have hclear := clear_of_not_continuation hfeed hreturn
    have hkeep := Bool.eq_false_iff.mpr hc
    have hnext := hready.next hw hclear
    have hrest : (s.next c).Unbroken w := hw.right (x := [c])
    rw [hkeep] at hnext
    rw [ih hrest hnext hend, List.cons_append, tagged, List.length_cons,
      List.take_succ_cons, hready.continuing_eq_false hw hclear hend hkeep, strip, if_neg hc]

end Scanner

/-! ## The nodes of a text -/

theorem Mode.Starts.ready {m : Mode} {c : Char} {k : Construct} (h : m.Starts c k)
    (hk : k ∈ [.key, .value, .literal, .expression]) :
    (∀ r, m ≠ escape r) ∧ ∀ r, m.pending = some r → c = '$' := by
  simp only [List.mem_cons, List.not_mem_nil, or_false] at hk
  rcases hk with rfl | rfl | rfl | rfl
  · have hfresh : m.isFresh = true := h.1
    rcases eq_of_isFresh hfresh with rfl | rfl | rfl | rfl <;> simp [pending]
  · obtain rfl : m = afterAssign := h
    simp [pending]
  · rcases h.1 with rfl | rfl | rfl <;> simp [pending]
  · exact ⟨h.2, fun _ _ => h.1⟩

namespace Event

variable {u w v : Text} {k : Construct}

/-- Where a key, a value or a fragment starts, a scan is ready. -/
theorem ready_of_start (hk : k ∈ [.key, .value, .literal, .expression])
    (h : start k u.length ∈ ofText (u ++ (w ++ v))) : (Scanner.initial.after u).Ready false w := by
  cases w with
  | nil => exact ⟨fun _ => nofun, fun _ => nofun, fun _ => Or.inr nofun⟩
  | cons c w =>
    have hdocument : k ≠ .document := by
      rintro rfl
      simp at hk
    obtain ⟨hescape, hpending⟩ := (starts_of_mem_ofText hdocument h).ready hk
    refine ⟨fun ⟨r, hr⟩ => (hescape r hr).elim, fun ⟨r, hr⟩ => ?_, fun ⟨r, hr⟩ => Or.inr ?_⟩
    · obtain rfl := hpending r (by rw [hr]; rfl)
      simp
    · obtain rfl := hpending r hr
      rintro _ ⟨⟩
      rfl

/-- Where a construct stops, no continuation has just begun. -/
theorem not_terminator_of_stop (h : stop k (u.length + w.length) ∈ ofText (u ++ (w ++ v)))
    (hescape : ∃ r, ((Scanner.initial.after u).after w).mode = .escape r) :
    ∀ c ∈ v.head?, isTerminator c = false := by
  obtain ⟨r, hr⟩ := hescape
  rw [← Scanner.after_append] at hr
  rw [← List.append_assoc] at h
  have horigin : (stop k (u.length + w.length)).Origin (u ++ w) v :=
    exists_origin h List.length_append.symm
  cases horigin with
  | start hstart => cases hstart
  | character c v' hv hmem =>
    subst hv
    rintro _ ⟨⟩
    refine Bool.eq_false_iff.mpr fun hc => ?_
    rw [hr] at hmem
    simp [Mode.read, Mode.completesTerminator, hc, Mode.onLineEnd] at hmem
  | brace _ hbetween => cases hr.symm.trans hbetween
  | textEnd hnil =>
    subst hnil
    rintro _ ⟨⟩

end Event

namespace Tree

variable {t : Text} {p : Property}

/-- The first character of a value is no line end. -/
theorem not_terminator_of_value {u w v : Text}
    (hp : .property p ∈ (ofEvents (ofText (u ++ (w ++ v)))).items) {value : Value}
    (hvalue : p.value? = some value) (hspan : value.span = ⟨u.length, u.length + w.length⟩) :
    ∀ c ∈ w.head?, isTerminator c = false := by
  have htiled := tiled_value hp hvalue
  intro c hc
  obtain ⟨w, rfl⟩ := List.head?_eq_some_iff.mp hc
  obtain ⟨f, fs, hfragments⟩ : ∃ f fs, value.fragments = f :: fs := by
    refine List.exists_cons_of_ne_nil fun hnil => ?_
    have hempty := htiled.nil_iff.mp hnil
    simp [hspan] at hempty
  have hstart : f.span.start = u.length := by
    have htile := htiled.tile
    rw [hfragments, hspan] at htile
    exact htile.1
  have hnode : .fragment f ∈ (ofEvents (ofText (u ++ (c :: w ++ v)))).nodes :=
    mem_nodes_iff.mpr (Or.inr (Or.inr ⟨p, hp, Or.inr (Or.inr ⟨value, hvalue,
      Or.inr ⟨f, by simp [hfragments], rfl⟩⟩)⟩))
  obtain ⟨_ | _, s⟩ := f
  · have hbounds := (bounds_mem_ofText hnode (c := .literal) rfl).1
    rw [Node.span, hstart] at hbounds
    exact (starts_of_mem_ofText (by decide) hbounds).2
  · have hbounds := (bounds_mem_ofText hnode (c := .expression) rfl).1
    rw [Node.span, hstart] at hbounds
    obtain ⟨rfl, -⟩ : _ ∧ _ := starts_of_mem_ofText (by decide) hbounds
    rfl

/-- The first character of a key is no line end. -/
theorem not_terminator_of_key {u w v : Text}
    (hp : .property p ∈ (ofEvents (ofText (u ++ (w ++ v)))).items)
    (hspan : p.key.start = u.length) : ∀ c ∈ w.head?, isTerminator c = false := by
  intro c hc
  obtain ⟨w, rfl⟩ := List.head?_eq_some_iff.mp hc
  have hnode : .key p.key ∈ (ofEvents (ofText (u ++ (c :: w ++ v)))).nodes :=
    mem_nodes_iff.mpr (Or.inr (Or.inr ⟨p, hp, Or.inl rfl⟩))
  have hbounds := (bounds_mem_ofText hnode (c := .key) rfl).1
  rw [Node.span, hspan] at hbounds
  exact (starts_of_mem_ofText (by decide) hbounds).2

/-- In the key and in the value of a property lines end in continuations only. -/
theorem exists_unbroken_of_span (hp : .property p ∈ (ofEvents (ofText t)).items) {span : Span}
    (hspan : span = p.key ∨ p.value?.map Value.span = some span) :
    ∃ u w v, t = u ++ (w ++ v) ∧ span = ⟨u.length, u.length + w.length⟩ ∧
      (Scanner.initial.after u).Unbroken w := by
  have hmem : p ∈ (ofEvents (ofText t)).properties := List.mem_filterMap.mpr ⟨_, hp, rfl⟩
  obtain ⟨s, w, houtlines, rfl⟩ := Site.exists_of_span hmem hspan
  obtain ⟨rfl, hevents⟩ := s.outlines_iff.mp houtlines
  refine ⟨s.front, w, s.back, rfl, rfl, ?_⟩
  refine Scanner.unbroken_of_outline s.slot.construct_eq hevents ?_
  rcases hspan with hkey | hvalue
  · exact not_terminator_of_key hp (by rw [← hkey])
  · obtain ⟨value, hvalue, hspan⟩ := Option.map_eq_some_iff.mp hvalue
    exact not_terminator_of_value hp hvalue hspan

/-- In a key, a value or a fragment lines end in continuations only. -/
theorem exists_unbroken {n : Node} (hn : n ∈ (ofEvents (ofText t)).nodes)
    (hkind : n.kind ∈ [.key, .value, .literal, .expression]) :
    ∃ u w v, t = u ++ (w ++ v) ∧ n.span = ⟨u.length, u.length + w.length⟩ ∧
      (Scanner.initial.after u).Unbroken w := by
  obtain ⟨p, hp, rfl | ⟨value, hvalue, rfl | ⟨f, hf, rfl⟩⟩⟩ := exists_property_of_part hn hkind
  · exact exists_unbroken_of_span hp (Or.inl rfl)
  · exact exists_unbroken_of_span hp (Or.inr (by rw [hvalue]; rfl))
  · -- A fragment is a stretch of its value.
    obtain ⟨u, w, v, ht, hspan, hw⟩ :=
      exists_unbroken_of_span hp (Or.inr (congrArg (Option.map Value.span) hvalue))
    have htile := (tiled_value hp hvalue).tile
    rw [hspan] at htile
    obtain ⟨hstart, hordered, hstop⟩ := htile.bounds f hf
    dsimp only at hstart hstop
    obtain ⟨x, y, z, rfl, hx, hy⟩ := Text.exists_split (w := w)
      (Nat.sub_le_sub_right hordered u.length) (Nat.sub_le_iff_le_add'.mpr hstop)
    have hleft : (u ++ x).length = f.span.start := by
      rw [List.length_append]
      omega
    have hright : (u ++ x).length + y.length = f.span.stop := by
      rw [List.length_append]
      omega
    refine ⟨u ++ x, y, z ++ v, by rw [ht]; simp, ?_, ?_⟩
    · rw [hright, hleft]
      rfl
    · rw [Scanner.after_append]
      exact hw.right.left

end Tree

namespace Document

/-- The text of a key, a value or a fragment as it is written holds the characters of its
continuations. Its logical text holds all other ones and nothing else, unless one of its lines
goes on with a blank behind its leading spacing. -/
theorem text?_eq_kept_iff (b : Buffer) {n : Node} (hn : n ∈ (ofBuffer b).tree.nodes)
    (hkind : n.kind ∈ [.key, .value, .literal, .expression]) :
    (ofBuffer b).text? n.span false = some ((b.text.tagged n.span).map Prod.fst) ∧
      ((ofBuffer b).text? n.span true = some (kept (b.text.tagged n.span)) ↔
        (b.text.tagged n.span).IsChain FollowsContinuation) := by
  have hfits := Tree.fits_ofText b.text n hn
  have hslice : (ofBuffer b).buffer.slice? n.span = some (b.text.slice n.span) :=
    if_pos ⟨hfits.ordered, hfits.within⟩
  obtain ⟨k, hconstruct, hk⟩ : ∃ k, n.kind.construct? = some k ∧
      k ∈ [.key, .value, .literal, .expression] := by
    simp only [List.mem_cons, List.not_mem_nil, or_false] at hkind
    rcases hkind with hkind | hkind | hkind | hkind <;> rw [hkind] <;>
      exact ⟨_, rfl, by decide⟩
  obtain ⟨hstart, hstop⟩ := Tree.bounds_mem_ofText hn hconstruct
  obtain ⟨u, w, v, ht, hspan, hunbroken⟩ := Tree.exists_unbroken hn hkind
  have htext : b.text.slice n.span = w := by
    rw [hspan]
    exact Text.slice_of_eq ht rfl
  rw [ht] at hstart hstop
  rw [hspan] at hstart hstop
  have hjoin : w.join = strip false (b.text.tagged n.span) := by
    rw [ht, hspan, Text.tagged_append]
    exact Scanner.joinFrom_eq_strip v hunbroken (ready_of_start hk hstart)
      (not_terminator_of_stop hstop)
  refine ⟨?_, ?_⟩
  · rw [text?, hslice, Text.map_fst_tagged]
    rfl
  · have hhead : ∀ y ∈ (b.text.tagged n.span).head?, FollowsContinuation (' ', false) y :=
      fun _ _ h => Bool.noConfusion h
    rw [text?, hslice, htext, Option.map_some, if_pos rfl, Option.some_inj, hjoin,
      strip_eq_kept_iff, List.isChain_cons]
    exact and_iff_right hhead

/-- A key that goes on behind two line ends and spacing. The blanks `\u00a0` of the value stand
behind other characters, and one of its two backslashes is escaped. -/
theorem text?_eq_kept_spacing :
    ∃ (b : Buffer) (n m : Node), b.text =
        ['a', '\\', '\n', ' ', '\\', '\r', '\t', 'b', '=', 'c', '\u00a0', '\\', '\\', '\u00a0'] ∧
      n ∈ (ofBuffer b).tree.nodes ∧ n.kind = .key ∧
      (ofBuffer b).text? n.span true = some ['a', 'b'] ∧
      m ∈ (ofBuffer b).tree.nodes ∧ m.kind = .value ∧
      (ofBuffer b).text? m.span true = some ['c', '\u00a0', '\\', '\\', '\u00a0'] := by
  refine ⟨⟨"a", ['a', '\\', '\n', ' ', '\\', '\r', '\t', 'b', '=', 'c', '\u00a0', '\\', '\\',
    '\u00a0'], 1⟩, .key ⟨0, 8⟩, .value ⟨⟨9, 14⟩, [⟨.literal, 9, 14⟩]⟩, rfl, by decide, rfl, ?_,
    by decide, rfl, ?_⟩
  · exact (text?_eq_kept_iff _ (by decide) (by decide)).2.mpr (by decide)
  · exact (text?_eq_kept_iff _ (by decide) (by decide)).2.mpr (by decide)

/-- The no-break space that the second line of a value goes on with is part of the value and is no
spacing, but the logical text drops it. -/
theorem exists_text?_ne_kept :
    ∃ (b : Buffer) (n : Node), b.text = ['a', '=', 'b', '\\', '\n', '\u00a0', 'c'] ∧
      n ∈ (ofBuffer b).tree.nodes ∧ n.kind = .value ∧
      kept (b.text.tagged n.span) = ['b', '\u00a0', 'c'] ∧
      (ofBuffer b).text? n.span true = some ['b', 'c'] :=
  ⟨⟨"a", ['a', '=', 'b', '\\', '\n', '\u00a0', 'c'], 1⟩, .value ⟨⟨2, 7⟩, [⟨.literal, 2, 7⟩]⟩, rfl,
    by decide, rfl, by decide, by decide⟩

end Document

end DotProperties
