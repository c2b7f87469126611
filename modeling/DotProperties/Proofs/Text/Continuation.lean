import DotProperties.Document.Basic

/-!
# Continuations and logical texts

A continuation (`Text.IsContinuation`) is a backslash, a line terminator and the spacing at the
start of the next line. It can be put in front of any character that is not blank, and the
logical text stays the same (`Text.join_insert`), as does the name that a key stands for behind
its profile (`Text.nameOf_insert`).

What `Text.joinFrom` does with the characters before a place depends on what comes behind it
only if that completes a terminator (`Text.exists_joinFrom_append`). So two ends of a text that
join alike, and start with no terminator, may be exchanged (`Text.joinFrom_append_congr`).
-/

namespace DotProperties

namespace Text

/-- A backslash, a line terminator, and spacing. -/
inductive IsContinuation : Text → Prop
  | intro {terminator spacing : Text} : terminator ∈ [['\n'], ['\r', '\n'], ['\r']] →
      (∀ c ∈ spacing, isSpacing c = true) → IsContinuation ('\\' :: (terminator ++ spacing))

/-- Number of backslashes at the end of a text. -/
def trailingBackslashes (t : Text) : Nat := (t.reverse.takeWhile (· == '\\')).length

theorem trailingBackslashes_concat (t : Text) (c : Char) :
    trailingBackslashes (t ++ [c]) = if c = '\\' then t.trailingBackslashes + 1 else 0 := by
  by_cases h : c = '\\' <;> simp [trailingBackslashes, h]

theorem trailingBackslashes_concat_of_ne (t : Text) {c : Char} (hc : c ≠ '\\') :
    trailingBackslashes (t ++ [c]) % 2 = 0 := by
  rw [trailingBackslashes_concat, if_neg hc]

/-- A continuation may be put between the text `t` and the character `c` behind it. -/
structure Continuable (t : Text) (c : Char) : Prop where
  /-- The character would not be dropped at the start of a line. -/
  blank : isBlank c = false
  /-- The character would not start a comment. -/
  comment : c ≠ '#' ∧ c ≠ ';'
  /-- The backslash would not lose its meaning. -/
  even : t.trailingBackslashes % 2 = 0
  /-- The place is not inside the `${` of an expression. -/
  dollar : ¬(t.getLast? = some '$' ∧ c = '{')

theorem isSpacing_iff {c : Char} : isSpacing c = true ↔ c = ' ' ∨ c = '\t' := by
  simp [isSpacing]

theorem isTerminator_iff {c : Char} : isTerminator c = true ↔ c = '\n' ∨ c = '\r' := by
  simp [isTerminator]

theorem endsLine_of_not_terminator {c : Char} (hc : isTerminator c = false) (next : Option Char) :
    endsLine c next = false := by
  simp only [isTerminator, Bool.or_eq_false_iff] at hc
  simp [endsLine, hc]

theorem not_isTerminator_of_isSpacing {c : Char} (h : isSpacing c = true) :
    isTerminator c = false := by
  rcases isSpacing_iff.mp h with rfl | rfl <;> rfl

theorem not_isSpacing_of_not_blank {c : Char} (h : isBlank c = false) : isSpacing c = false := by
  refine Bool.eq_false_iff.mpr fun hspacing => ?_
  rcases isSpacing_iff.mp hspacing with rfl | rfl <;> exact Bool.noConfusion h

theorem not_isTerminator_of_not_blank {c : Char} (h : isBlank c = false) :
    isTerminator c = false := by
  refine Bool.eq_false_iff.mpr fun hterminator => ?_
  rcases isTerminator_iff.mp hterminator with rfl | rfl <;> exact Bool.noConfusion h

/-! ## Logical texts -/

theorem joinFrom_return {t : Text} (h : t.head? ≠ some '\n') (trimming : Bool) :
    joinFrom trimming ('\\' :: '\r' :: t) = joinFrom true t := by
  cases t with
  | nil => rfl
  | cons c t =>
    have hc : c ≠ '\n' := by simpa using h
    simp [joinFrom, hc]

/-- A character is dropped or kept, unless it is a backslash that joins two lines. -/
theorem joinFrom_cons {c : Char} {t : Text}
    (h : c = '\\' → ∀ d ∈ t.head?, isTerminator d = false) (trimming : Bool) :
    joinFrom trimming (c :: t) =
      if trimming && isBlank c then joinFrom true t else c :: joinFrom false t := by
  rw [joinFrom]
  all_goals
    rintro t' rfl rfl
    exact Bool.noConfusion (h rfl _ rfl)

theorem joinFrom_spacing {w : Text} (hw : ∀ c ∈ w, isSpacing c = true) (t : Text) :
    joinFrom true (w ++ t) = joinFrom true t := by
  induction w with
  | nil => rfl
  | cons c w ih =>
    rw [List.forall_mem_cons] at hw
    rcases isSpacing_iff.mp hw.1 with rfl | rfl
    · exact ih hw.2
    · exact ih hw.2

/-- A character that is not blank is kept, whether a continuation was just removed or not. -/
theorem joinFrom_of_not_blank {c : Char} (hc : isBlank c = false) (trimming : Bool) (t : Text) :
    joinFrom true (c :: t) = joinFrom trimming (c :: t) := by
  unfold joinFrom
  split <;> simp_all

/-- What stands behind a text, if it starts with no terminator, is joined by itself. Only whether
a continuation was just removed depends on the text. -/
theorem exists_joinFrom_append (trimming : Bool) (w : Text) : ∃ trimming', ∀ t : Text,
    (∀ c ∈ t.head?, isTerminator c = false) →
      joinFrom trimming (w ++ t) = joinFrom trimming w ++ joinFrom trimming' t := by
  fun_induction joinFrom trimming w with
  | case1 trimming => exact ⟨trimming, fun t _ => rfl⟩
  | case2 trimming w ih => exact ih
  | case3 trimming w ih => exact ih
  | case4 trimming w hw ih =>
    obtain ⟨trimming', ih⟩ := ih
    refine ⟨trimming', fun t ht => ?_⟩
    -- The carriage return stands alone, also in front of `t`.
    have halone : (w ++ t).head? ≠ some '\n' := by
      cases w with
      | nil => exact fun hn => Bool.noConfusion (ht '\n' hn)
      | cons d w => simpa using fun hd => hw w (by rw [hd])
    rw [List.cons_append, List.cons_append, joinFrom_return halone, ih t ht]
  | case5 trimming c w hw _ hw' hc ih | case6 trimming c w hw _ hw' hc ih =>
    obtain ⟨trimming', ih⟩ := ih
    refine ⟨trimming', fun t ht => ?_⟩
    -- If `c` is a backslash, it joins no lines, also in front of `t`.
    have hclear : c = '\\' → ∀ d ∈ (w ++ t).head?, isTerminator d = false := by
      rintro rfl
      cases w with
      | nil => exact ht
      | cons d w =>
        have hd : d ≠ '\n' ∧ d ≠ '\r' := by
          refine ⟨?_, ?_⟩
          · rintro rfl
            exact hw w rfl rfl
          · rintro rfl
            exact hw' w rfl rfl
        simpa [isTerminator] using hd
    rw [List.cons_append, joinFrom_cons hclear]
    simp [hc, ih t ht]

/-- Two ends of a text that join alike and start with no terminator may be exchanged. -/
theorem joinFrom_append_congr {t t' : Text} (ht : ∀ c ∈ t.head?, isTerminator c = false)
    (ht' : ∀ c ∈ t'.head?, isTerminator c = false)
    (h : ∀ trimming, joinFrom trimming t = joinFrom trimming t') (trimming : Bool) (w : Text) :
    joinFrom trimming (w ++ t) = joinFrom trimming (w ++ t') := by
  obtain ⟨trimming', hjoin⟩ := exists_joinFrom_append trimming w
  rw [hjoin t ht, hjoin t' ht', h]

/-- A text without backslashes joins no lines. -/
theorem joinFrom_of_not_mem {t : Text} (h : '\\' ∉ t) : joinFrom false t = t := by
  induction t with
  | nil => rfl
  | cons c t ih =>
    obtain ⟨hc, ht⟩ := not_or.mp (mt List.mem_cons.mpr h)
    rw [joinFrom_cons fun hc' => (hc hc'.symm).elim, Bool.false_and, if_neg Bool.false_ne_true,
      ih ht]

/-- Spacing behind a text stays spacing. -/
theorem exists_join_append_spacing {s : Text} (hs : ∀ c ∈ s, isSpacing c = true) (w : Text) :
    ∃ s' : Text, (∀ c ∈ s', isSpacing c = true) ∧ join (w ++ s) = join w ++ s' := by
  have hhead : ∀ c ∈ s.head?, isTerminator c = false := fun c hc =>
    not_isTerminator_of_isSpacing (hs c (List.mem_of_mem_head? hc))
  obtain ⟨trimming, hjoin⟩ := exists_joinFrom_append false w
  cases trimming with
  | true =>
    have hnone := joinFrom_spacing hs []
    rw [List.append_nil] at hnone
    exact ⟨[], nofun, (hjoin s hhead).trans (congrArg (_ ++ ·) hnone)⟩
  | false =>
    have hall := joinFrom_of_not_mem fun hmem => Bool.noConfusion (hs '\\' hmem)
    exact ⟨s, hs, (hjoin s hhead).trans (congrArg (_ ++ ·) hall)⟩

section Insert

variable {inserted : Text} (h : inserted.IsContinuation) {c : Char} (hc : isBlank c = false)
include h hc

/-- A continuation in front of a character that is not blank is removed. -/
theorem joinFrom_continuation (trimming : Bool) (t : Text) :
    joinFrom trimming (inserted ++ c :: t) = joinFrom trimming (c :: t) := by
  obtain @⟨terminator, spacing, hterminator, hspacing⟩ := h
  have hrest : joinFrom true (spacing ++ c :: t) = joinFrom trimming (c :: t) := by
    rw [joinFrom_spacing hspacing, joinFrom_of_not_blank hc]
  have hhead : (spacing ++ c :: t).head? ≠ some '\n' := by
    have hline : ∀ d ∈ (spacing ++ c :: t).head?, isTerminator d = false := by
      cases spacing with
      | nil => simpa using not_isTerminator_of_not_blank hc
      | cons d w => simpa using not_isTerminator_of_isSpacing (hspacing d (by simp))
    exact fun hn => Bool.noConfusion (hline '\n' hn)
  rw [← hrest]
  simp only [List.mem_cons, List.not_mem_nil, or_false] at hterminator
  rcases hterminator with rfl | rfl | rfl
  · rfl
  · rfl
  · exact joinFrom_return hhead trimming

/-- The logical text is the same with a continuation in front of a character that is not
blank. -/
theorem join_insert (w t : Text) : join (w ++ (inserted ++ c :: t)) = join (w ++ c :: t) := by
  refine joinFrom_append_congr ?_ ?_ (fun trimming => joinFrom_continuation h hc trimming t) _ w
  · obtain ⟨-, -⟩ := h
    simp [isTerminator]
  · simpa using not_isTerminator_of_not_blank hc

end Insert

/-! ## Names -/

/-- The name of a raw key : its logical text, or what is behind the first dot if the key starts
with a profile. -/
def nameOf (key : Text) : Option Text :=
  if key.head? = some '%' then (key.dropWhile (· != '.')).tail?.map join else some key.join

theorem IsContinuation.ne_dot {inserted : Text} (h : inserted.IsContinuation) :
    ∀ c ∈ inserted, (c != '.') = true := by
  obtain @⟨terminator, spacing, hterminator, hspacing⟩ := h
  have hfirst : ∀ c ∈ terminator, (c != '.') = true := by
    simp only [List.mem_cons, List.not_mem_nil, or_false] at hterminator
    rcases hterminator with rfl | rfl | rfl <;> simp
  have hsecond : ∀ c ∈ spacing, (c != '.') = true := by
    intro c hc
    rcases isSpacing_iff.mp (hspacing c hc) with rfl | rfl <;> rfl
  rw [List.forall_mem_cons, List.forall_mem_append]
  exact ⟨rfl, hfirst, hsecond⟩

/-- The name is the same with a continuation inside the key, in front of a character that is not
blank. -/
theorem nameOf_insert {inserted : Text} (h : inserted.IsContinuation) {c : Char}
    (hc : isBlank c = false) {w : Text} (hw : w ≠ []) (t : Text) :
    nameOf (w ++ (inserted ++ c :: t)) = nameOf (w ++ c :: t) := by
  have hjoin := join_insert h hc
  have hhead (v : Text) : (w ++ v).head? = w.head? := by
    obtain ⟨d, w, rfl⟩ := List.exists_cons_of_ne_nil hw
    rfl
  have hskip : (inserted ++ c :: t).dropWhile (· != '.') = (c :: t).dropWhile (· != '.') :=
    List.dropWhile_append_of_pos h.ne_dot
  unfold nameOf
  rw [hhead, hhead, hjoin, List.dropWhile_append, hskip, List.dropWhile_append]
  -- The dot that ends the profile stands behind the continuation or before it.
  cases w.dropWhile (· != '.') with
  | nil => rfl
  | cons d w' => simp [hjoin]

end Text

theorem Document.name?_eq (d : Document) (p : Property) :
    d.name? p = Text.nameOf (d.raw p.key) := by
  unfold name? profileLength? Text.nameOf
  generalize d.raw p.key = key
  by_cases hkey : key.head? = some '%'
  · have hsplit : key.takeWhile (· != '.') ++ key.dropWhile (· != '.') = key :=
      List.takeWhile_append_dropWhile
    simp only [hkey, if_true]
    generalize key.takeWhile (· != '.') = profile at hsplit ⊢
    generalize key.dropWhile (· != '.') = rest at hsplit ⊢
    subst hsplit
    cases rest <;> simp
  · simp [hkey]

end DotProperties
