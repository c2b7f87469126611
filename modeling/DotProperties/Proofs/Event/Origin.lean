import DotProperties.Proofs.Event.Resumption

/-!
# Where events come from

An event of a text comes from the character at its offset, read in the mode that the characters
before it lead to, or from the end of the text. Only an expression that stops behind its brace
reports an offset that its character is not at (`Event.exists_origin`). So the first event of a
construct tells the mode that it starts in (`Mode.Reads.starts`).

In a key or a value a line may end only behind a backslash : any other line end would close it,
and the event that does so stands at the line end (`Scanner.unbroken_of_outline`).
-/

namespace DotProperties

open Event

/-! ## The character of an event -/

namespace Mode

/-- The event stands at the offset, or it is the end of an expression right behind it, in the mode
that follows an expression. -/
def EmitsAt (o : Nat) (m : Mode) (e : Event) : Prop :=
  e.offset = o ∨ e = Event.stop .expression (o + 1) ∧ m = between

theorem emitsAt_report {p : Place} {c : Char} (m : Mode) :
    ∀ e ∈ report p c, EmitsAt p.offset m e := by
  unfold report
  split_ifs <;> simp [EmitsAt, offset]

variable {m m' : Mode} {p : Place} {c : Char} {es : List Event}

theorem offset_close (m : Mode) (o : Nat) : ∀ e ∈ m.close o, e.offset = o := by
  intro e he
  obtain ⟨k, rfl⟩ := exists_of_mem_close he
  rfl

theorem EndsLine.offset {o : Nat} {outcome : List Event × Option Run} (h : EndsLine o m outcome) :
    ∀ e ∈ outcome.1, e.offset = o := by
  cases h with
  | continued => exact nofun
  | value => exact List.forall_mem_cons.mpr ⟨rfl, offset_close between o⟩
  | blank =>
    exact List.forall_mem_append.mpr ⟨offset_close m o, List.forall_mem_singleton.mpr rfl⟩
  | closed => exact offset_close m o

theorem Turns.offset (h : Turns p c m es m') : ∀ e ∈ es, e.offset = p.offset := by
  cases h <;> simp [Event.offset]

theorem Takes.emitsAt (h : Takes p c m es m') : ∀ e ∈ es, EmitsAt p.offset m' e := by
  cases h with
  | lineEnd _ _ hend => exact fun e he => Or.inl (hend.offset e he)
  | comment q =>
    refine List.forall_mem_append.mpr ⟨fun e he => Or.inl (offset_close _ _ e he), ?_⟩
    exact List.forall_mem_singleton.mpr (Or.inl rfl)
  | escaped | part => exact emitsAt_report _
  | literal | dollar | assign => simp [EmitsAt, offset]
  | closing => simp [EmitsAt]
  | _ => exact List.forall_mem_nil _

/-- The events of a character stand at it, but for the end of an expression. -/
theorem Reads.emitsAt (h : Reads p c m es m') : ∀ e ∈ es, EmitsAt p.offset m' e := by
  induction h with
  | take h => exact h.emitsAt
  | turn h _ ih => exact List.forall_mem_append.mpr ⟨fun e he => Or.inl (h.offset e he), ih⟩

/-- The outline of a character stands at it. -/
theorem offset_of_mem_outline_read {m : Mode} {p : Place} {c : Char} {e : Event}
    (h : e ∈ outline (m.read p c).1) : e.offset = p.offset := by
  obtain ⟨hmem, houtline⟩ := List.mem_filter.mp h
  rcases (m.reads_read p c).emitsAt e hmem with hoffset | ⟨rfl, -⟩
  · exact hoffset
  · exact Bool.noConfusion houtline

end Mode

theorem Scanner.exists_of_mem_events {s : Scanner} {t : Text} {e : Event} (h : e ∈ s.events t) :
    ∃ u c v, t = u ++ c :: v ∧ e ∈ ((s.after u).mode.read (s.after u).place c).1 := by
  induction t generalizing s with
  | nil => exact nomatch h
  | cons c t ih =>
    rcases List.mem_append.mp h with h | h
    · exact ⟨[], c, t, rfl, h⟩
    · obtain ⟨u, d, v, rfl, hd⟩ := ih h
      exact ⟨c :: u, d, v, rfl, hd⟩

namespace Event

/-- What an event at the cut between `u` and `v` comes from. -/
inductive Origin (u v : Text) (e : Event) : Prop
  /-- The start of the text. -/
  | start : e = start .document 0 → Origin u v e
  /-- The character behind the cut. -/
  | character (c : Char) (v' : Text) : v = c :: v' →
      e ∈ ((Scanner.initial.after u).mode.read (Scanner.initial.after u).place c).1 → Origin u v e
  /-- The brace before the cut. -/
  | brace : e = stop .expression u.length → (Scanner.initial.after u).mode = .between →
      Origin u v e
  /-- The end of the text. -/
  | textEnd : v = [] → e ∈ (Scanner.initial.after u).mode.onTextEnd u.length ++
      [stop .document u.length] → Origin u v e

/-- Every event of a text comes from somewhere. -/
theorem exists_origin {u v : Text} {e : Event} (h : e ∈ ofText (u ++ v))
    (hoffset : e.offset = u.length) : e.Origin u v := by
  have hlength := Scanner.offset_after_initial u
  rw [ofText_eq, Scanner.results_scan_append] at h
  rcases List.mem_cons.mp h with rfl | h
  · exact .start rfl
  rcases List.mem_append.mp h with h | h
  · -- The character stands before the cut, so that only a brace can report the cut.
    obtain ⟨x, c, y, rfl, he⟩ := Scanner.exists_of_mem_events h
    have hx := Scanner.offset_after_initial x
    rw [List.length_append, List.length_cons] at hoffset
    rcases (Mode.reads_read _ _ c).emitsAt e he with hat | ⟨rfl, hbetween⟩
    · omega
    · have hy : y = [] := by
        refine List.eq_nil_of_length_eq_zero ?_
        simp only [offset] at hoffset
        omega
      subst hy
      refine .brace (by simp [hx]) ?_
      rw [Scanner.after_append]
      exact hbetween
  · cases v with
    | nil =>
      rw [Scanner.results_scan_nil, hlength] at h
      exact .textEnd rfl h
    | cons c v =>
      rw [Scanner.results_scan_cons] at h
      rcases List.mem_append.mp h with h | h
      · exact .character c v rfl h
      · have hbehind := (((Scanner.initial.after u).next c).placed_scan v).lo_le e h
        rw [Scanner.next_offset, hlength] at hbehind
        omega

end Event

/-! ## The mode that a construct starts in -/

namespace Mode

/-- No key or value is open, and what comes next is the start of a line. -/
def isFresh : Mode → Bool
  | start | lineStart none | afterReturn none | indent none => true
  | _ => false

theorem eq_of_isFresh {m : Mode} (h : m.isFresh = true) :
    m = start ∨ m = lineStart none ∨ m = afterReturn none ∨ m = indent none := by
  rcases m with _ | (_ | _) | (_ | _) | (_ | _) | _ | _ | _ | _ | _ | _ | _ | _ <;>
    simp_all [isFresh]

/-- Where a line starts with nothing open, the spacing that it starts with says no more. -/
theorem read_of_isFresh {m : Mode} (hm : m.isFresh = true) {c : Char}
    (hmark : m.isByteOrderMark c = false) (hc : isTerminator c = false) (p : Place) :
    m.read p c = (indent none).read p c := by
  rcases eq_of_isFresh hm with rfl | rfl | rfl | rfl
  · exact (Turns.start (by simpa [isByteOrderMark] using hmark)).read_eq
  · exact (Turns.lineStart none).read_eq
  · refine (Turns.afterReturn none ?_).read_eq
    rintro rfl
    cases hc
  · rfl

/-- A construct that may start at the character `c` if it is read in the mode `m`. -/
def Starts (m : Mode) (c : Char) : Construct → Prop
  | .document => False
  | .comment => True
  | .property | .key => m.isFresh = true ∧ isTerminator c = false
  | .value => m = afterAssign
  | .literal => (m = afterAssign ∨ m = between ∨ m = dollar) ∧ isTerminator c = false
  | .expression => c = '$' ∧ ∀ r, m ≠ escape r

variable {k : Construct} {o : Nat} {p : Place} {c : Char} {m m' : Mode} {es : List Event}

theorem not_start_mem_report : Event.start k o ∉ report p c := by
  unfold report
  split_ifs <;> simp

theorem not_start_mem_close (m : Mode) (o' : Nat) : Event.start k o ∉ m.close o' := by
  intro h
  obtain ⟨k', hk'⟩ := exists_of_mem_close h
  cases hk'

theorem EndsLine.starts {o' : Nat} {outcome : List Event × Option Run}
    (h : EndsLine o' m outcome) (hk : Event.start k o ∈ outcome.1) :
    k = .value ∧ m = afterAssign := by
  cases h with
  | continued => cases hk
  | value =>
    rcases List.mem_cons.mp hk with hk | hk
    · cases hk
      exact ⟨rfl, rfl⟩
    · exact (not_start_mem_close between o' hk).elim
  | blank =>
    rcases List.mem_append.mp hk with hk | hk
    · exact (not_start_mem_close m o' hk).elim
    · simp at hk
  | closed => exact (not_start_mem_close m o' hk).elim

theorem Turns.starts (h : Turns p c m es m') (hk : Event.start k o ∈ es) : m.Starts c k := by
  cases h with
  | property hc =>
    have hterminator := (isContent_iff.mp hc).2.1
    simp only [List.mem_cons, Event.start.injEq, List.not_mem_nil, or_false] at hk
    rcases hk with ⟨rfl, -⟩ | ⟨rfl, -⟩ <;> exact ⟨rfl, hterminator⟩
  | value =>
    obtain ⟨rfl, -⟩ : k = .value ∧ _ := by simpa using hk
    exact rfl
  | literal hc =>
    obtain ⟨rfl, -⟩ : k = .literal ∧ _ := by simpa using hk
    exact ⟨Or.inr (Or.inl rfl), hc⟩
  | start | lineStart | afterReturn | resume | skip => cases hk
  | key | dollar => simp at hk

/-- What may start in a mode may start in the mode that turned to it. -/
theorem Turns.starts_of_starts (h : Turns p c m es m') (hk : m'.Starts c k) : m.Starts c k := by
  cases h with
  | lineStart q | afterReturn q => cases q <;> cases k <;> simp_all [Starts, isFresh]
  | _ => cases k <;> simp_all [Starts, isFresh]

theorem Takes.starts (h : Takes p c m es m') (hk : Event.start k o ∈ es) : m.Starts c k := by
  cases h with
  | lineEnd _ _ hend =>
    obtain ⟨rfl, hm⟩ := hend.starts hk
    exact hm
  | comment q =>
    rcases List.mem_append.mp hk with hk | hk
    · exact (not_start_mem_close _ _ hk).elim
    · obtain ⟨rfl, -⟩ : k = .comment ∧ _ := by simpa using hk
      trivial
  | escaped | part => exact (not_start_mem_report hk).elim
  | literal hc | dollar hc =>
    obtain ⟨rfl, -⟩ : k = .expression ∧ _ := by simpa using hk
    exact ⟨hc, nofun⟩
  | closing | assign => simp at hk
  | _ => cases hk

/-- A character at which a construct starts is read in a mode that allows it. -/
theorem Reads.starts (h : Reads p c m es m') (hk : Event.start k o ∈ es) : m.Starts c k := by
  induction h with
  | take h => exact h.starts hk
  | turn h _ ih =>
    rcases List.mem_append.mp hk with hk | hk
    · exact h.starts hk
    · exact h.starts_of_starts (ih hk)

end Mode

namespace Event

/-- The first character of a construct is read in a mode that it starts in. -/
theorem starts_of_mem_ofText {k : Construct} {u w : Text} {c : Char} (hk : k ≠ .document)
    (h : start k u.length ∈ ofText (u ++ c :: w)) : (Scanner.initial.after u).mode.Starts c k := by
  cases exists_origin h rfl with
  | start hstart => simp_all
  | character d w' hw hmem =>
    obtain ⟨rfl, -⟩ := List.cons.inj hw
    exact (Mode.reads_read _ _ _).starts hmem
  | brace hbrace => exact nomatch hbrace
  | textEnd hnil => exact nomatch hnil

/-! ## Outlines that are cut -/

/-- The outline of the first characters of a text stands on these. -/
theorem offset_lt_of_mem_outline {t : Text} (ht : t ≠ []) {e : Event}
    (h : e ∈ outline (start .document 0 :: Scanner.initial.events t)) : e.offset < t.length := by
  have hpos := List.length_pos_iff.mpr ht
  obtain ⟨hmem, houtline⟩ := List.mem_filter.mp h
  rcases List.mem_cons.mp hmem with rfl | hmem
  · exact hpos
  · obtain ⟨u, c, v, rfl, he⟩ := Scanner.exists_of_mem_events hmem
    have hoffset := Mode.offset_of_mem_outline_read (List.mem_filter.mpr ⟨he, houtline⟩)
    rw [Scanner.offset_after_initial] at hoffset
    rw [hoffset, List.length_append, List.length_cons]
    omega

/-- Where the characters of a text are cut, its outline is cut. -/
theorem outline_cut {u v : Text} (hu : u ≠ []) {es es' : List Event} {e f : Event}
    (h : outline (ofText (u ++ v)) = es ++ e :: f :: es') (he : e.offset < u.length)
    (hf : u.length ≤ f.offset) :
    outline (start .document 0 :: Scanner.initial.events u) = es ++ [e] ∧
      outline (Step.results ((Scanner.initial.after u).scan v)) = f :: es' := by
  rw [outline_ofText_append] at h
  exact eq_of_append_eq_of_not_mem h
    (fun hmem => Nat.not_le.mpr he (le_offset_of_mem_outline hmem))
    fun hmem => Nat.not_le.mpr (offset_lt_of_mem_outline hu hmem) hf

end Event

/-! ## Lines that go on -/

namespace Mode

/-- The line end `c` is part of a continuation. -/
def Continues (m : Mode) (c : Char) : Prop :=
  (∃ r, m = escape r) ∨ c = '\n' ∧ ∃ r, m = afterReturn (some r)

/-- A line end in a key or a value closes it or is part of a continuation. -/
theorem continues_of_inside {m : Mode} {part : Construct} (hinside : m.inside = some part)
    {p : Place} {c : Char} (hc : isTerminator c = true) (h : outline (m.read p c).1 = []) :
    m.Continues c := by
  cases hcompletes : m.completesTerminator c with
  | true =>
    cases m with
    | afterReturn q =>
      obtain ⟨r, rfl, -⟩ := Option.map_eq_some_iff.mp hinside
      exact Or.inr ⟨eq_of_beq hcompletes, r, rfl⟩
    | _ => cases hcompletes
  | false =>
    rw [read_of_terminator hcompletes hc] at h
    have hend := m.endsLine_onLineEnd p.offset
    generalize m.onLineEnd p.offset = outcome at h hend
    -- Without an event of the outline nothing stops, so that a run has to be left open.
    have hsame := hend.inside
    rw [← foldl_inside_outline, h, hinside] at hsame
    cases hend with
    | continued r => exact Or.inl ⟨r, rfl⟩
    | value | blank | closed => cases hsame

end Mode

namespace Scanner

/-- Lines of `w` end in continuations only. -/
def Unbroken (s : Scanner) (w : Text) : Prop :=
  ∀ x c y, w = x ++ c :: y → isTerminator c = true → (s.after x).mode.Continues c

variable {s : Scanner} {w : Text}

theorem Unbroken.right {x : Text} (h : s.Unbroken (x ++ w)) : (s.after x).Unbroken w := by
  rintro y c z rfl hc
  rw [← after_append]
  exact h (x ++ y) c z (by rw [List.append_assoc]) hc

theorem Unbroken.left {y : Text} (h : s.Unbroken (w ++ y)) : s.Unbroken w := by
  rintro x c z rfl hc
  exact h x c (z ++ y) (by simp) hc

/-- In a key or a value lines end in continuations only. -/
theorem unbroken_of_outline {part : Construct} (hpart : part = .key ∨ part = .value) {u w v : Text}
    {es es' : List Event}
    (h : outline (ofText (u ++ (w ++ v))) =
      es ++ start part u.length :: stop part (u.length + w.length) :: es')
    (hfirst : ∀ c ∈ w.head?, isTerminator c = false) : (initial.after u).Unbroken w := by
  rintro x c y rfl hc
  have hx : x ≠ [] := by
    rintro rfl
    exact Bool.noConfusion (hc.symm.trans (hfirst c rfl))
  have hpos := List.length_pos_iff.mpr hx
  have hsplit : u ++ (x ++ c :: y ++ v) = u ++ x ++ c :: (y ++ v) := by simp
  rw [hsplit] at h
  obtain ⟨hbefore, hbehind⟩ := outline_cut (by simp [hx]) h
    (by simp only [offset, List.length_append]; omega)
    (by simp only [offset, List.length_append]; omega)
  rw [← after_append]
  refine Mode.continues_of_inside (inside_of_outline hpart hbefore)
    (p := (initial.after (u ++ x)).place) hc ?_
  -- An event of the line end would be the end of the key or value, which lies further on.
  rw [results_scan_cons, outline_append] at hbehind
  refine List.eq_nil_iff_forall_not_mem.mpr fun e he => ?_
  obtain ⟨e', es'', hes⟩ := List.exists_cons_of_ne_nil (List.ne_nil_of_mem he)
  rw [hes] at hbehind
  obtain ⟨rfl, -⟩ := List.cons.inj hbehind
  have hoffset := Mode.offset_of_mem_outline_read (hes ▸ List.mem_cons_self)
  rw [offset_after_initial] at hoffset
  simp only [offset, List.length_append, List.length_cons] at hoffset
  omega

end Scanner

end DotProperties
