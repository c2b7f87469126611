import DotProperties.Proofs.Text.LineEnds

/-!
# Positions and back

Going from an offset to its position and from a position to its offset undo each other
(`Buffer.locates`). Every offset up to the end of the text has a position, a later one for a later
offset (`Text.before_of_walk`). A position has an offset if its line exists and is long enough, and
then it is the position of that offset (`Text.of_offsetAt`). Only the place between the two
characters of a terminator has a position without an offset.

The lines are what stands between the terminators (`Text.contents`, `Text.getElem?_contents`).
The line that a position is looked up on starts behind as many of them, at a boundary of the text
(`Text.exists_of_lineFrom?`).
-/

namespace DotProperties

/-- The position is on an earlier line, or before the other on the same line. -/
def Position.Before (p q : Position) : Prop :=
  p.line < q.line ∨ p.line = q.line ∧ p.character < q.character

namespace Position

variable {p q r : Position}

theorem before_after (p : Position) (ends : Bool) : p.Before (p.after ends) := by
  cases ends
  · exact Or.inr ⟨rfl, Nat.lt_succ_self _⟩
  · exact Or.inl (Nat.lt_succ_self _)

theorem Before.trans (h : p.Before q) (h' : q.Before r) : p.Before r := by
  unfold Before at *
  omega

theorem not_before_self (p : Position) : ¬p.Before p := by
  unfold Before
  omega

end Position

namespace Text

/-! ## Walking -/

/-- A walk goes on where a shorter one stopped. -/
theorem walk_append (p : Position) (u v : Text) (k : Nat) :
    walk p (u ++ v) (u.length + k) = (walk p (u ++ v) u.length).bind fun q => walk q v k := by
  induction u generalizing p with
  | nil =>
    rw [List.nil_append, List.length_nil, Nat.zero_add]
    cases v <;> rfl
  | cons c u ih =>
    rw [List.cons_append, List.length_cons, Nat.add_right_comm, walk, walk, ih]

theorem walk_cons_one (p : Position) (c : Char) (t : Text) :
    walk p (c :: t) 1 = some (p.after (endsLine c t.head?)) := by
  cases t <;> rfl

theorem le_length_of_walk {p q : Position} {t : Text} {o : Nat} (h : walk p t o = some q) :
    o ≤ t.length := by
  induction t generalizing p o with
  | nil =>
    cases o with
    | zero => exact Nat.le_refl 0
    | succ o => exact nomatch h
  | cons c t ih =>
    cases o with
    | zero => exact Nat.zero_le _
    | succ o => exact Nat.succ_le_succ (ih h)

/-- A walk over some characters leads to a later position. -/
theorem before_of_walk {p q : Position} {t : Text} {o : Nat} (h : walk p t (o + 1) = some q) :
    p.Before q := by
  induction t generalizing p o with
  | nil => exact nomatch h
  | cons c t ih =>
    have hstep := p.before_after (endsLine c t.head?)
    cases o with
    | zero =>
      obtain rfl := Option.some.inj ((walk_cons_one p c t).symm.trans h)
      exact hstep
    | succ o => exact hstep.trans (ih h)

/-- A later offset has a later position. -/
theorem before_of_positionAt? {t : Text} {o o' : Nat} {p p' : Position}
    (h : t.positionAt? o = some p) (h' : t.positionAt? o' = some p') (hlt : o < o') :
    p.Before p' := by
  obtain ⟨k, rfl⟩ := Nat.exists_eq_add_of_lt hlt
  have hle : o ≤ t.length := le_length_of_walk h
  have hlength : (t.take o).length = o := List.length_take_of_le hle
  have hwalk := walk_append ⟨0, 0⟩ (t.take o) (t.drop o) (k + 1)
  rw [List.take_append_drop, hlength] at hwalk
  rw [positionAt?] at h h'
  rw [Nat.add_assoc, hwalk, h] at h'
  exact before_of_walk h'

theorem positionAt?_inj {t : Text} {o o' : Nat} {p : Position} (h : t.positionAt? o = some p)
    (h' : t.positionAt? o' = some p) : o = o' := by
  rcases Nat.lt_trichotomy o o' with hlt | heq | hlt
  · exact (p.not_before_self (before_of_positionAt? h h' hlt)).elim
  · exact heq
  · exact (p.not_before_self (before_of_positionAt? h' h hlt)).elim

/-- No walk leaves the lines of a text. -/
theorem line_le_of_walk {p q : Position} {t : Text} {o : Nat} (h : walk p t o = some q) :
    q.line ≤ p.line + t.breaks := by
  induction t generalizing p o with
  | nil =>
    cases o with
    | zero =>
      obtain rfl := Option.some.inj h
      exact Nat.le_refl _
    | succ o => exact nomatch h
  | cons c t ih =>
    cases o with
    | zero =>
      obtain rfl := Option.some.inj h
      exact Nat.le_add_right _ _
    | succ o =>
      have hle := ih h
      rw [Position.after] at hle
      rw [breaks]
      split_ifs at hle ⊢ with hends
      · simp only at hle
        omega
      · simpa using hle

/-- Inside a line the character alone counts on. -/
theorem walk_content {t : Text} {k : Nat} (h : k ≤ t.content.length) (p : Position) :
    walk p t k = some ⟨p.line, p.character + k⟩ := by
  induction t generalizing p k with
  | nil =>
    obtain rfl := Nat.le_zero.mp h
    rfl
  | cons c t ih =>
    cases k with
    | zero => rfl
    | succ k =>
      cases hc : isTerminator c with
      | true =>
        rw [content_of_terminator hc] at h
        exact absurd h (Nat.not_succ_le_zero k)
      | false =>
        rw [content_cons hc] at h
        rw [walk, endsLine_of_not_terminator hc, ih (Nat.le_of_succ_le_succ h)]
        simp only [Position.after, Bool.false_eq_true, if_false]
        congr 2
        omega

/-! ## Lines -/

/-- The text in front of the line `n + 1` is not empty and leads to the start of that line. -/
theorem exists_of_lineFrom?_succ {b n start : Nat} {t rest : Text}
    (h : lineFrom? b t (n + 1) = some (start, rest)) :
    ∃ u, t = u ++ rest ∧ u ≠ [] ∧ start = b + u.length ∧ ¬Severs u rest ∧
      ∀ p, walk p t u.length = some ⟨p.line + (n + 1), 0⟩ := by
  induction t generalizing b n with
  | nil => exact nomatch h
  | cons c t ih =>
    rw [lineFrom?] at h
    split_ifs at h with hends
    · cases n with
      | zero =>
        rw [lineFrom?_zero] at h
        obtain ⟨rfl, rfl⟩ := Prod.mk.inj (Option.some.inj h)
        refine ⟨[c], rfl, List.cons_ne_nil c [], rfl, ?_, fun p => ?_⟩
        · rintro ⟨hc, hfeed⟩
          obtain rfl : c = '\r' := by simpa using hc
          rw [hfeed] at hends
          exact Bool.noConfusion hends
        · rw [List.length_singleton, walk_cons_one, hends]
          rfl
      | succ n =>
        obtain ⟨u, rfl, hne, rfl, hwhole, hwalk⟩ := ih h
        refine ⟨c :: u, rfl, List.cons_ne_nil c u, ?_, ?_, fun p => ?_⟩
        · rw [List.length_cons]
          omega
        · rwa [Severs, List.getLast?_cons_of_ne_nil hne]
        · rw [List.length_cons, walk, hwalk, hends]
          simp only [Position.after, if_true, Option.some.injEq, Position.mk.injEq, and_true]
          omega
    · obtain ⟨u, rfl, hne, rfl, hwhole, hwalk⟩ := ih h
      refine ⟨c :: u, rfl, List.cons_ne_nil c u, ?_, ?_, fun p => ?_⟩
      · rw [List.length_cons]
        omega
      · rwa [Severs, List.getLast?_cons_of_ne_nil hne]
      · rw [List.length_cons, walk, hwalk, Position.after, if_neg hends]

/-- A line starts at a boundary, and the position there is its first one. -/
theorem exists_of_lineFrom? {n start : Nat} {t rest : Text}
    (h : lineFrom? 0 t n = some (start, rest)) :
    ∃ u, t = u ++ rest ∧ start = u.length ∧ ¬Severs u rest ∧
      t.positionAt? u.length = some ⟨n, 0⟩ := by
  cases n with
  | zero =>
    rw [lineFrom?_zero] at h
    obtain ⟨rfl, rfl⟩ := Prod.mk.inj (Option.some.inj h)
    refine ⟨[], rfl, rfl, nofun, ?_⟩
    cases t <;> rfl
  | succ n =>
    obtain ⟨u, hu, -, hstart, hwhole, hwalk⟩ := exists_of_lineFrom?_succ h
    refine ⟨u, hu, hstart.trans (Nat.zero_add _), hwhole, ?_⟩
    rw [positionAt?, hwalk, Nat.zero_add]

/-- There are as many lines to start as there are line ends, and the first one. -/
theorem isSome_lineFrom?_iff {b n : Nat} {t : Text} :
    (lineFrom? b t n).isSome = true ↔ n ≤ t.breaks := by
  induction t generalizing b n with
  | nil => cases n <;> simp [lineFrom?, breaks]
  | cons c t ih =>
    cases n with
    | zero => simp [lineFrom?]
    | succ n =>
      rw [lineFrom?, ih, breaks]
      split_ifs <;> omega

/-! ## The contents of lines -/

/-- The lines of a text without their terminators. What stands behind the last terminator is a line,
even if it is empty. -/
def contents (t : Text) : List Text := t.unified.splitOn '\n'

theorem splitOn_feed (t : Text) : ('\n' :: t).splitOn '\n' = [] :: t.splitOn '\n' := by
  rw [List.splitOn_eq_splitOnP, List.splitOnP_cons_eq_if_modifyHead]
  rfl

theorem splitOn_cons {c : Char} (h : c ≠ '\n') (t : Text) :
    (c :: t).splitOn '\n' = (t.splitOn '\n').modifyHead (c :: ·) := by
  rw [List.splitOn_eq_splitOnP, List.splitOnP_cons_eq_if_modifyHead, if_neg (by simpa using h)]
  rfl

/-- A line has the content that stands in front of the first terminator behind its start. -/
theorem getElem?_contents (t : Text) (b n : Nat) :
    t.contents[n]? = (lineFrom? b t n).map fun line => line.2.content := by
  unfold contents
  fun_induction unified t generalizing b n with
  | case1 => cases n <;> rfl
  | case2 t ih =>
    rw [splitOn_feed]
    cases n with
    | zero => rfl
    | succ n => exact ih (b + 2) n
  | case3 t hfeed ih =>
    have hends : endsLine '\r' t.head? = true := by
      simpa [endsLine] using head?_ne_feed hfeed
    rw [splitOn_feed]
    cases n with
    | zero => rfl
    | succ n =>
      rw [List.getElem?_cons_succ, lineFrom?, if_pos hends]
      exact ih (b + 1) n
  | case4 c t _ hreturn ih =>
    have hreturn : c ≠ '\r' := hreturn
    by_cases hc : c = '\n'
    · subst hc
      rw [splitOn_feed]
      cases n with
      | zero => rfl
      | succ n => exact ih (b + 1) n
    · have hends : ¬endsLine c t.head? = true := by simp [endsLine, hc, hreturn]
      have hplain : isTerminator c = false := by simp [isTerminator, hc, hreturn]
      rw [splitOn_cons hc]
      cases n with
      | zero =>
        have hfirst := ih (b + 1) 0
        rw [lineFrom?_zero] at hfirst ⊢
        rw [List.getElem?_modifyHead_zero, hfirst]
        exact congrArg some (content_cons hplain t).symm
      | succ n =>
        rw [List.getElem?_modifyHead_succ, lineFrom?, if_neg hends]
        exact ih (b + 1) (n + 1)

/-- There are as many contents as lines. -/
theorem length_contents (t : Text) : t.contents.length = t.lineCount := by
  have hbeyond (n : Nat) : t.contents.length ≤ n ↔ t.lineCount ≤ n := by
    rw [← List.getElem?_eq_none_iff, getElem?_contents t 0, Option.map_eq_none_iff,
      ← Option.not_isSome_iff_eq_none, isSome_lineFrom?_iff, Nat.not_le, lineCount, Nat.succ_le_iff]
  exact Nat.le_antisymm ((hbeyond _).mpr (Nat.le_refl _)) ((hbeyond _).mp (Nat.le_refl _))

/-! ## Offsets of positions -/

/-- The offset stands between the two characters of a terminator. -/
def InTerminator (t : Text) (o : Nat) : Prop :=
  ∃ u v, t = u ++ '\r' :: '\n' :: v ∧ o = u.length + 1

theorem isBoundary_iff {t : Text} {o : Nat} :
    t.IsBoundary o ↔ o ≤ t.length ∧ ¬t.InTerminator o := by
  constructor
  · intro h
    refine ⟨h.le_length, ?_⟩
    rintro ⟨u, v, rfl, rfl⟩
    obtain ⟨u', v', ht, hlength, hwhole⟩ := h
    have hcut : u ++ ['\r'] ++ '\n' :: v = u' ++ v' := by
      rw [← ht, List.append_assoc]
      rfl
    obtain ⟨rfl, rfl⟩ := List.append_inj hcut (by simp [hlength])
    exact hwhole ⟨List.getLast?_concat, rfl⟩
  · rintro ⟨hle, hwhole⟩
    refine ⟨t.take o, t.drop o, (List.take_append_drop ..).symm, List.length_take_of_le hle, ?_⟩
    rintro ⟨hreturn, hfeed⟩
    obtain ⟨u, hu⟩ := List.getLast?_eq_some_iff.mp hreturn
    obtain ⟨v, hv⟩ := List.head?_eq_some_iff.mp hfeed
    refine hwhole ⟨u, v, ?_, ?_⟩
    · rw [List.append_cons, ← hu, ← hv, List.take_append_drop]
    · rw [← List.length_take_of_le hle, hu, List.length_append, List.length_singleton]

/-- Inside the content of a line no terminator is cut, nor at its ends. -/
theorem not_severs_content {u rest : Text} (h : ¬Severs u rest) {k : Nat}
    (hk : k ≤ rest.content.length) : ¬Severs (u ++ rest.take k) (rest.drop k) := by
  cases k with
  | zero => simpa using h
  | succ k =>
    have htake : rest.take (k + 1) <+: rest.content :=
      List.prefix_of_prefix_length_le (List.take_prefix ..) (List.takeWhile_prefix _)
        ((List.length_take_le ..).trans hk)
    have hne : rest.take (k + 1) ≠ [] := by
      rintro hnil
      obtain rfl := (List.take_eq_nil_iff.mp hnil).resolve_left (Nat.succ_ne_zero k)
      exact Nat.not_succ_le_zero k hk
    rintro ⟨hreturn, -⟩
    rw [List.getLast?_append_of_ne_nil _ hne] at hreturn
    have hmem := htake.subset (List.mem_of_getLast? hreturn)
    have hplain := List.mem_takeWhile_imp hmem
    exact Bool.noConfusion hplain

/-- What the offset of a position can be : there is none on a line that does not exist or is too
short, and else it is a boundary that has the position. -/
theorem offsetAt_cases (t : Text) (p : Position) :
    t.lineCount ≤ p.line ∧ t.offsetAt p = .error (.line p.line t.lineCount) ∨
    ∃ line, t.contents[p.line]? = some line ∧
      (line.length < p.character ∧
        t.offsetAt p = .error (.character p.line p.character line.length) ∨
      p.character ≤ line.length ∧
        ∃ o, t.offsetAt p = .ok o ∧ t.IsBoundary o ∧ t.positionAt? o = some p) := by
  rcases hfrom : lineFrom? 0 t p.line with _ | ⟨start, rest⟩
  · refine Or.inl ⟨?_, by rw [offsetAt, hfrom]⟩
    rw [lineCount, Nat.succ_le_iff, ← Nat.not_le, ← isSome_lineFrom?_iff (b := 0), hfrom]
    exact Bool.false_ne_true
  · refine Or.inr ⟨rest.content, by rw [getElem?_contents t 0, hfrom]; rfl, ?_⟩
    rw [offsetAt, hfrom]
    rcases Nat.lt_or_ge rest.content.length p.character with hlt | hle
    · exact Or.inl ⟨hlt, if_neg (Nat.not_le.mpr hlt)⟩
    · obtain ⟨u, rfl, rfl, hwhole, hposition⟩ := exists_of_lineFrom? hfrom
      refine Or.inr ⟨hle, u.length + p.character, if_pos hle, ?_, ?_⟩
      · have hlength : p.character ≤ rest.length :=
          hle.trans (List.takeWhile_prefix _).length_le
        refine ⟨u ++ rest.take p.character, rest.drop p.character, by simp, ?_,
          not_severs_content hwhole hle⟩
        rw [List.length_append, List.length_take_of_le hlength]
      · rw [positionAt?] at hposition ⊢
        rw [walk_append, hposition, Option.bind_some, walk_content hle, Nat.zero_add]

theorem offsetAt_eq_error_iff {t : Text} {p : Position} {e : LocationError} :
    t.offsetAt p = .error e ↔ t.lineCount ≤ p.line ∧ e = .line p.line t.lineCount ∨
    ∃ line, t.contents[p.line]? = some line ∧ line.length < p.character ∧
      e = .character p.line p.character line.length := by
  have hexists {line : Text} (h : t.contents[p.line]? = some line) : ¬t.lineCount ≤ p.line := by
    rw [← length_contents, Nat.not_le]
    exact (List.getElem?_eq_some_iff.mp h).1
  obtain ⟨hbeyond, hoffset⟩ | ⟨line, hline, ⟨hlong, hoffset⟩ | ⟨hfits, o, hoffset, -⟩⟩ :=
    t.offsetAt_cases p
  · have hnone : t.contents[p.line]? = none :=
      List.getElem?_eq_none (t.length_contents ▸ hbeyond)
    rw [hoffset, hnone]
    simp [hbeyond, eq_comm]
  · rw [hoffset, hline]
    simp [hexists hline, hlong, eq_comm]
  · rw [hoffset, hline]
    simp [hexists hline, Nat.not_lt.mpr hfits]

theorem of_offsetAt {t : Text} {p : Position} {o : Nat} (h : t.offsetAt p = .ok o) :
    t.IsBoundary o ∧ t.positionAt? o = some p := by
  obtain ⟨-, hoffset⟩ | ⟨line, -, ⟨-, hoffset⟩ | ⟨-, o', hoffset, hplace⟩⟩ := t.offsetAt_cases p
  · exact nomatch h.symm.trans hoffset
  · exact nomatch h.symm.trans hoffset
  · obtain rfl := Except.ok.inj (h.symm.trans hoffset)
    exact hplace

end Text

/-! ## Buffers -/

/-- Offsets and positions name the same places of a buffer, but for the places inside a
terminator. -/
structure Buffer.Locates (b : Buffer) : Prop where
  /-- The offsets up to the length have a position, and no others. -/
  positions : ∀ o, (∃ p, b.positionAt o = .ok p) ↔ o ≤ b.length
  /-- A later offset has a later position. -/
  increasing : ∀ o o' p p', b.positionAt o = .ok p → b.positionAt o' = .ok p' → o < o' →
    p.Before p'
  /-- The position of an offset leads back to it, if the offset stands in no terminator. -/
  back : ∀ o p, b.positionAt o = .ok p → ¬b.text.InTerminator o → b.offsetAt p = .ok o
  /-- In a terminator the position is behind the content of its line. -/
  stray : ∀ o p, b.positionAt o = .ok p → b.text.InTerminator o →
    ∃ length, b.offsetAt p = .error (.character p.line p.character length)
  /-- The offset of a position lies in the text and leads back to the position. -/
  offsets : ∀ p o, b.offsetAt p = .ok o → o ≤ b.length ∧ b.positionAt o = .ok p
  /-- The lines that are counted are those between the terminators. -/
  lines : b.lineCount = b.text.contents.length
  /-- A position has no offset if and only if its line does not exist or is too short. -/
  refused : ∀ p e, b.offsetAt p = .error e ↔
    b.lineCount ≤ p.line ∧ e = .line p.line b.lineCount ∨
    ∃ line, b.text.contents[p.line]? = some line ∧ line.length < p.character ∧
      e = .character p.line p.character line.length

namespace Buffer

variable {b : Buffer} {o : Nat} {p : Position}

theorem positionAt_eq_ok_iff : b.positionAt o = .ok p ↔ b.text.positionAt? o = some p := by
  unfold positionAt
  split
  next q hq => simp [hq]
  next hnone => simp [hnone]

/-- In every buffer offsets and positions name the same places. -/
theorem locates (b : Buffer) : b.Locates where
  positions o := by
    simp only [positionAt_eq_ok_iff]
    constructor
    · rintro ⟨p, hp⟩
      exact Text.le_length_of_walk hp
    · exact fun hle => Option.isSome_iff_exists.mp (Text.isSome_walk hle ⟨0, 0⟩)
  increasing o o' p p' hp hp' hlt :=
    Text.before_of_positionAt? (positionAt_eq_ok_iff.mp hp) (positionAt_eq_ok_iff.mp hp') hlt
  back o p hp hwhole := by
    rw [positionAt_eq_ok_iff] at hp
    have hboundary := Text.isBoundary_iff.mpr ⟨Text.le_length_of_walk hp, hwhole⟩
    obtain ⟨q, hq, hoffset⟩ := Text.exists_positionAt hboundary
    obtain rfl := Option.some.inj (hp.symm.trans hq)
    exact hoffset
  stray o p hp hinside := by
    rw [positionAt_eq_ok_iff] at hp
    obtain ⟨hbeyond, -⟩ | ⟨line, -, ⟨-, hoffset⟩ | ⟨-, o', -, hboundary, hp'⟩⟩ :=
      b.text.offsetAt_cases p
    · have hline := Text.line_le_of_walk hp
      rw [Nat.zero_add] at hline
      exact absurd hbeyond (Nat.not_le.mpr (Nat.lt_succ_of_le hline))
    · exact ⟨line.length, hoffset⟩
    · -- The offset of the position would be the offset that it came from, and that is no boundary.
      obtain rfl := Text.positionAt?_inj hp hp'
      exact ((Text.isBoundary_iff.mp hboundary).2 hinside).elim
  offsets p o h := by
    obtain ⟨hboundary, hp⟩ := Text.of_offsetAt h
    exact ⟨hboundary.le_length, positionAt_eq_ok_iff.mpr hp⟩
  lines := b.text.length_contents.symm
  refused p e := Text.offsetAt_eq_error_iff

/-- Between the two characters of a terminator, and behind the last one. -/
example : (⟨"u", ['a', '\r', '\n'], 1⟩ : Buffer).positionAt 2 = .ok ⟨0, 2⟩ ∧
    (⟨"u", ['a', '\r', '\n'], 1⟩ : Buffer).offsetAt ⟨0, 2⟩ = .error (.character 0 2 1) ∧
    (⟨"u", ['a', '\r', '\n'], 1⟩ : Buffer).offsetAt ⟨1, 0⟩ = .ok 3 := by decide

end Buffer

end DotProperties
