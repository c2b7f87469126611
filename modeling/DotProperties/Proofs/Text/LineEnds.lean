import DotProperties.Proofs.Text.Continuation
import DotProperties.Proofs.Text.Lines

/-!
# Line ends

Lines can be put together with any of the three terminators between them (`Text.Joins`). The texts
that come of it differ in their terminators only, so they have the same text in common
(`Text.unified`), in which every terminator is a line feed (`Text.Joins.unified_eq`).

An offset of a text has its counterpart in the unified text (`Text.unifiedOffset`). At a boundary
the two have the same position, and between two boundaries stands the unified text of what stood
there. The logical text of a stretch is the same if its lines end in continuations only
(`Text.joinFrom_unified`), and so is the name of a key (`Text.nameOf_unified`).
-/

namespace DotProperties

/-- How a line can end. -/
inductive LineEnd where
  /-- With a line feed. -/
  | lineFeed
  /-- With a carriage return. -/
  | carriageReturn
  /-- With a carriage return and a line feed. -/
  | both

/-- The terminator of a line. -/
def LineEnd.text : LineEnd → Text
  | lineFeed => ['\n']
  | carriageReturn => ['\r']
  | both => ['\r', '\n']

namespace Text

/-- The text is made of the lines, with a terminator between each two of them. No line feed stands
right behind a carriage return that is a terminator alone. -/
inductive Joins : List Text → Text → Prop
  | nil : Joins [] []
  | last (line : Text) : Joins [line] line
  | cons (line : Text) (e : LineEnd) {lines : List Text} {t : Text} : lines ≠ [] →
      Joins lines t → (e = .carriageReturn → t.head? ≠ some '\n') →
        Joins (line :: lines) (line ++ (e.text ++ t))

/-- The text with a line feed for every terminator. -/
def unified : Text → Text
  | [] => []
  | '\r' :: '\n' :: t => '\n' :: unified t
  | '\r' :: t => '\n' :: unified t
  | c :: t => c :: unified t

/-- The offset in the unified text. Offsets behind the text stay as far behind it. -/
def unifiedOffset (t : Text) (o : Nat) : Nat := (unified (t.take o)).length + (o - t.length)

theorem head?_ne_feed {t : Text} (h : ∀ t', t = '\n' :: t' → False) : t.head? ≠ some '\n' := by
  intro hhead
  obtain ⟨t', ht⟩ := List.head?_eq_some_iff.mp hhead
  exact h t' ht

theorem unified_return {t : Text} (h : t.head? ≠ some '\n') :
    unified ('\r' :: t) = '\n' :: t.unified := by
  cases t with
  | nil => rfl
  | cons c t =>
    have hc : c ≠ '\n' := by simpa using h
    simp [unified, hc]

theorem unified_cons {c : Char} (h : c ≠ '\r') (t : Text) :
    unified (c :: t) = c :: t.unified := by
  rw [unified]
  · rintro t' rfl
    exact (h rfl).elim
  · rintro rfl
    exact (h rfl).elim

theorem Severs.append_left {u v : Text} (h : Severs u v) (x : Text) : Severs (x ++ u) v :=
  ⟨by rw [List.getLast?_append, h.1]; rfl, h.2⟩

theorem Severs.append_right {u v : Text} (h : Severs u v) (x : Text) : Severs u (v ++ x) :=
  ⟨h.1, by rw [List.head?_append, h.2]; rfl⟩

/-- A carriage return that no line feed follows stays one if a terminator is not cut. -/
theorem head?_append_ne {u v : Text} (hu : ∀ u', u = '\n' :: u' → False)
    (h : ¬Severs ('\r' :: u) v) : (u ++ v).head? ≠ some '\n' := by
  cases u with
  | nil => exact fun hv => h ⟨rfl, hv⟩
  | cons c u => exact fun hc => hu u (by rw [Option.some.inj hc])

theorem unified_append {u v : Text} (h : ¬Severs u v) :
    unified (u ++ v) = u.unified ++ v.unified := by
  fun_induction unified u with
  | case1 => rfl
  | case2 u ih => exact congrArg ('\n' :: ·) (ih fun hu => h (hu.append_left ['\r', '\n']))
  | case3 u hu ih =>
    rw [List.cons_append, unified_return (head?_append_ne hu h),
      ih fun hu => h (hu.append_left ['\r']), List.cons_append]
  | case4 c u _ hc ih =>
    rw [List.cons_append, unified_cons hc, ih fun hu => h (hu.append_left [c]), List.cons_append]

theorem unified_of_not_mem {t : Text} (h : '\r' ∉ t) : t.unified = t := by
  induction t with
  | nil => rfl
  | cons c t ih =>
    obtain ⟨hc, ht⟩ := not_or.mp (mt List.mem_cons.mpr h)
    rw [unified_cons (Ne.symm hc), ih ht]

/-- Texts that are made of the same lines are the same with a line feed for every terminator. -/
theorem Joins.unified_eq {lines : List Text} {t : Text} (h : Joins lines t)
    (hlines : ∀ line ∈ lines, ∀ c ∈ line, isTerminator c = false) :
    t.unified = (lines.intersperse ['\n']).flatten := by
  have hline {line : Text} (hfree : ∀ c ∈ line, isTerminator c = false) : '\r' ∉ line :=
    fun hmem => ne_return (hfree _ hmem) rfl
  induction h with
  | nil => rfl
  | last line =>
    have hfree := hline (hlines line List.mem_cons_self)
    simp [unified_of_not_mem hfree]
  | @cons line e lines t hne _ halone ih =>
    obtain ⟨hfree, hrest⟩ := List.forall_mem_cons.mp hlines
    obtain ⟨next, lines, rfl⟩ := List.exists_cons_of_ne_nil hne
    have hend : unified (e.text ++ t) = '\n' :: t.unified := by
      cases e with
      | lineFeed => exact unified_cons (by decide) t
      | carriageReturn => exact unified_return (halone rfl)
      | both => rfl
    have hwhole : ¬Severs line (e.text ++ t) := fun hsevers =>
      hline hfree (List.mem_of_getLast? hsevers.1)
    rw [unified_append hwhole, unified_of_not_mem (hline hfree), hend, ih hrest,
      List.intersperse_cons_cons]
    rfl

/-! ## Offsets -/

theorem unifiedOffset_append (u v : Text) : unifiedOffset (u ++ v) u.length = u.unified.length := by
  simp [unifiedOffset]

theorem unifiedOffset_zero (t : Text) : t.unifiedOffset 0 = 0 := by
  simp [unifiedOffset, unified]

theorem unifiedOffset_one (t : Text) : t.unifiedOffset 1 = 1 := by
  cases t with
  | nil => rfl
  | cons c t =>
    by_cases hc : c = '\r'
    · simp [unifiedOffset, hc, unified]
    · simp [unifiedOffset, unified_cons hc, unified]

theorem unifiedOffset_cons {c : Char} {t : Text} (h : c = '\r' → t.head? ≠ some '\n') (k : Nat) :
    unifiedOffset (c :: t) (k + 1) = t.unifiedOffset k + 1 := by
  have hlength : (unified (c :: t.take k)).length = (unified (t.take k)).length + 1 := by
    by_cases hc : c = '\r'
    · have halone : (t.take k).head? ≠ some '\n' := by
        cases t with
        | nil => simp
        | cons d t => cases k <;> simp_all
      rw [hc, unified_return halone, List.length_cons]
    · rw [unified_cons hc, List.length_cons]
  rw [unifiedOffset, List.take_succ_cons, hlength, unifiedOffset, List.length_cons]
  omega

theorem unifiedOffset_pair (t : Text) (k : Nat) :
    unifiedOffset ('\r' :: '\n' :: t) (k + 2) = t.unifiedOffset k + 1 := by
  rw [unifiedOffset, List.take_succ_cons, List.take_succ_cons, unified, unifiedOffset,
    List.length_cons, List.length_cons, List.length_cons]
  omega

/-- A character that ends no line is one character of the unified text. -/
theorem unifiedOffset_behind (u v : Text) {c : Char} (hc : isTerminator c = false) :
    unifiedOffset (u ++ c :: v) (u.length + 1) = unifiedOffset (u ++ c :: v) u.length + 1 := by
  have hreturn : '\r' ∉ [c] := fun hmem => ne_return hc (List.mem_singleton.mp hmem).symm
  have hwhole : ¬Severs u [c] := fun hsevers => by
    rw [Option.some.inj hsevers.2] at hc
    exact Bool.noConfusion hc
  have hsplit : u ++ c :: v = (u ++ [c]) ++ v := by simp
  have hbehind := unifiedOffset_append (u ++ [c]) v
  rw [← hsplit, unified_append hwhole, unified_of_not_mem hreturn] at hbehind
  rw [unifiedOffset_append]
  simpa using hbehind

/-- A boundary has the same position in the unified text. -/
theorem walk_unified {u v : Text} (h : ¬Severs u v) (p : Position) :
    walk p (u.unified ++ v.unified) u.unified.length = walk p (u ++ v) u.length := by
  fun_induction unified u generalizing p with
  | case1 => simp [walk]
  | case2 u ih =>
    have hrest := ih fun hu => h (hu.append_left ['\r', '\n'])
    simp [walk, Position.after, endsLine, hrest]
  | case3 u hu ih =>
    have hrest := ih fun hu => h (hu.append_left ['\r'])
    have hends : endsLine '\r' (u ++ v).head? = true := by
      simpa [endsLine] using head?_append_ne hu h
    rw [List.cons_append, List.cons_append, List.length_cons, List.length_cons, walk, walk, hends,
      ← hrest]
    rfl
  | case4 c u _ hc ih =>
    have hrest := ih fun hu => h (hu.append_left [c])
    have hends (next : Option Char) : endsLine c next = (c == '\n') := by
      have hreturn : c ≠ '\r' := hc
      simp [endsLine, hreturn]
    rw [List.cons_append, List.cons_append, List.length_cons, List.length_cons, walk, walk, hends,
      hends, hrest]

theorem positionAt?_unified {t : Text} {o : Nat} (h : t.IsBoundary o) :
    t.unified.positionAt? (t.unifiedOffset o) = t.positionAt? o := by
  obtain ⟨u, v, rfl, rfl, hwhole⟩ := h
  rw [positionAt?, positionAt?, unifiedOffset_append, unified_append hwhole, walk_unified hwhole]

/-- A span between two boundaries cuts no terminator. -/
theorem Bounds.exists_split {t : Text} {s : Span} (h : t.Bounds s) :
    ∃ u w v, t = u ++ w ++ v ∧ s = ⟨u.length, (u ++ w).length⟩ ∧ ¬Severs u w ∧
      ¬Severs (u ++ w) v := by
  obtain ⟨hordered, ⟨u, x, rfl, hu, hstart⟩, ⟨y, v, ht, hy, hstop⟩⟩ := h
  obtain ⟨w, rfl⟩ : ∃ w, y = u ++ w :=
    (List.prefix_of_prefix_length_le ⟨x, rfl⟩ ⟨v, ht.symm⟩ (by omega)).imp fun _ => Eq.symm
  obtain rfl : x = w ++ v := List.append_cancel_left (ht.trans (List.append_assoc ..))
  refine ⟨u, w, v, ht, ?_, fun hsevers => hstart (hsevers.append_right v), hstop⟩
  rw [hu, hy]

/-- Between two boundaries the unified text has the unified text of what stands there. -/
theorem slice_unified {t : Text} {s : Span} (h : t.Bounds s) :
    t.unified.slice ⟨t.unifiedOffset s.start, t.unifiedOffset s.stop⟩ = (t.slice s).unified := by
  obtain ⟨u, w, v, rfl, rfl, hstart, hstop⟩ := h.exists_split
  rw [unifiedOffset_append, List.append_assoc, unifiedOffset_append, ← List.append_assoc,
    unified_append hstop, unified_append hstart]
  simp [slice, Span.length]

/-- Between two boundaries something is left in the unified text if something stands there. -/
theorem unifiedOffset_le_iff {t : Text} {s : Span} (h : t.Bounds s) :
    t.unifiedOffset s.stop ≤ t.unifiedOffset s.start ↔ s.stop ≤ s.start := by
  obtain ⟨u, w, v, rfl, rfl, hstart, hstop⟩ := h.exists_split
  have hnil : w.unified.length = 0 ↔ w.length = 0 := by
    fun_cases unified w <;> simp
  rw [unifiedOffset_append, List.append_assoc, unifiedOffset_append, unified_append hstart]
  simp only [List.length_append]
  omega

/-! ## Logical texts -/

theorem isTerminator_head?_unified {t : Text} (h : ∀ c ∈ t.head?, isTerminator c = false) :
    ∀ c ∈ t.unified.head?, isTerminator c = false := by
  cases t with
  | nil => exact h
  | cons c t =>
    rw [unified_cons (ne_return (h c rfl))]
    exact h

/-- The logical text is the same if no terminator is left in it. -/
theorem joinFrom_unified {trimming : Bool} {w : Text}
    (h : ∀ c ∈ joinFrom trimming w, isTerminator c = false) :
    joinFrom trimming w.unified = joinFrom trimming w := by
  fun_induction joinFrom trimming w with
  | case1 => rfl
  | case2 trimming w ih => exact ih h
  | case3 trimming w ih => exact ih h
  | case4 trimming w hw ih =>
    rw [unified_cons (by decide), unified_return (head?_ne_feed hw)]
    exact ih h
  | case5 trimming c w hfeed _ hreturn hc ih =>
    have hrest := ih h
    obtain ⟨rfl, hblank⟩ := Bool.and_eq_true_iff.mp hc
    by_cases hc' : c = '\r'
    · -- A terminator behind a continuation is dropped, whether it is one character or two.
      subst hc'
      by_cases hhead : w.head? = some '\n'
      · obtain ⟨w, rfl⟩ := List.head?_eq_some_iff.mp hhead
        exact hrest
      · rw [unified_return hhead, ← hrest]
        rfl
    · have hclear : c = '\\' → ∀ d ∈ (unified w).head?, isTerminator d = false := by
        rintro rfl
        exact Bool.noConfusion hblank
      rw [unified_cons hc', joinFrom_cons hclear, if_pos hc, hrest]
  | case6 trimming c w hfeed _ hreturn hc ih =>
    obtain ⟨hkept, hrest⟩ := List.forall_mem_cons.mp h
    have hclear : c = '\\' → ∀ d ∈ (unified w).head?, isTerminator d = false := by
      rintro rfl
      refine isTerminator_head?_unified fun d hd => Bool.eq_false_iff.mpr fun hterminator => ?_
      obtain ⟨w', rfl⟩ := List.head?_eq_some_iff.mp hd
      rcases isTerminator_iff.mp hterminator with rfl | rfl
      · exact hfeed w' rfl rfl
      · exact hreturn w' rfl rfl
    rw [unified_cons (ne_return hkept), joinFrom_cons hclear, if_neg hc, ih hrest]

theorem dropWhile_unified {p : Char → Bool} (hfeed : p '\n' = true) (hreturn : p '\r' = true)
    (t : Text) : t.unified.dropWhile p = unified (t.dropWhile p) := by
  fun_induction unified t with
  | case1 => rfl
  | case2 t ih => simp [hfeed, hreturn, ih]
  | case3 t ht ih => simp [hfeed, hreturn, ih]
  | case4 c t _ hc ih =>
    cases hp : p c with
    | true => simp [hp, ih]
    | false => simp [hp, unified_cons hc]

/-- What is behind the first dot joins to what is behind it in the logical text. -/
theorem mem_join_of_mem_tail {key rest : Text} (h : key.dropWhile (· != '.') = '.' :: rest) :
    ∀ c ∈ rest.join, c ∈ key.join := by
  have hsplit : key.takeWhile (· != '.') ++ '.' :: rest = key := by
    rw [← h, List.takeWhile_append_dropWhile]
  obtain ⟨trimming, hjoin⟩ := exists_joinFrom_append false (key.takeWhile (· != '.'))
  intro c hc
  have hdot : joinFrom trimming ('.' :: rest) = '.' :: rest.join := by
    have hne : '.' ≠ '\\' := by decide
    rw [joinFrom_cons fun heq => (hne heq).elim, if_neg (by cases trimming <;> decide)]
    rfl
  rw [join, ← hsplit, hjoin _ (by simp [isTerminator]), hdot]
  simp [hc]

/-- The name of a key is the same if no terminator is left in its logical text. -/
theorem nameOf_unified {key : Text} (h : ∀ c ∈ key.join, isTerminator c = false) :
    nameOf key.unified = nameOf key := by
  have hhead : key.unified.head? = some '%' ↔ key.head? = some '%' := by
    fun_cases unified key <;> simp
  have hrest := dropWhile_unified (p := (· != '.')) rfl rfl key
  unfold nameOf
  rw [if_congr hhead rfl rfl, hrest]
  split_ifs with hprofile
  · cases hbehind : key.dropWhile (· != '.') with
    | nil => rfl
    | cons c rest =>
      obtain rfl : c = '.' := by
        have hnot := List.head?_dropWhile_not (· != '.') key
        simpa [hbehind] using hnot
      rw [unified_cons (by decide)]
      have hjoin : join (unified rest) = join rest :=
        joinFrom_unified fun c hc => h c (mem_join_of_mem_tail hbehind c hc)
      exact congrArg some hjoin
  · exact congrArg some (joinFrom_unified h)

end Text

end DotProperties
