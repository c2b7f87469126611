import Mathlib.Data.List.Induction
import DotProperties.Catalog.Placeholder
import DotProperties.Proofs.Text.Bytes

/-!
# What a pattern stands for

A pattern is a list of characters and slots (`Text.parts`). The matcher never goes back : a slot
takes the first segment of what is left of the name, whatever follows in the pattern
(`Text.Takes`, `Text.matchesPattern_iff_takes`). So the segments are determined by the name.

The names of a pattern are described on their own by `Text.Fills`, over bytes : the pattern with
each slot replaced by a chunk (`Text.Chunk`), which may be cut from the name in any way. If each
slot stands before a dot or at the end, going on without going back loses no name
(`Text.matchesPattern_iff_fills`), since no chunk but the first segment has such a dot, or
nothing, behind it.

A segment is never empty, so one that starts at a dot takes it. Apart from these and from dots that
are quoted or escaped, a name has the dots of its pattern (`Text.count_dot_eq_iff`).
-/

namespace DotProperties

/-- A part of a pattern. -/
inductive PatternPart where
  /-- A character that stands for itself. -/
  | literal (c : Char)
  /-- A placeholder. -/
  | slot
  deriving DecidableEq

namespace Text

/-- The parts of a pattern. Placeholders are found from left to right. -/
def parts : (pattern : Text) → List PatternPart
  | [] => []
  | '{' :: '*' :: '}' :: pattern => .slot :: parts pattern
  | '[' :: '*' :: ']' :: pattern => .slot :: parts pattern
  | c :: pattern => .literal c :: parts pattern

/-- Only a dot stands behind a slot, or nothing. -/
def IsSeparated (pattern : Text) : Prop :=
  pattern.parts.IsChain fun p q => p = .slot → q = .literal '.'

instance (pattern : Text) : Decidable pattern.IsSeparated :=
  inferInstanceAs (Decidable (List.IsChain _ _))

/-! ## The run of the matcher -/

/-- The slots of `ps` take the segments `ss` of the name `t`, each of them the first segment of what
is left. -/
inductive Takes : (ps : List PatternPart) → (ss : List Text) → (t : Text) → Prop
  | nil : Takes [] [] []
  | literal {c : Char} {ps : List PatternPart} {ss : List Text} {t : Text} :
      Takes ps ss t → Takes (.literal c :: ps) ss (c :: t)
  | slot {s : Text} {ps : List PatternPart} {ss : List Text} {t : Text} :
      afterSegment? (s ++ t) = some t → Takes ps ss t → Takes (.slot :: ps) (s :: ss) (s ++ t)

theorem afterPlainSegment_suffix (last : Char) (t : Text) : afterPlainSegment last t <:+ t := by
  induction t generalizing last with
  | nil => exact List.suffix_rfl
  | cons c t ih =>
    rw [afterPlainSegment]
    split_ifs
    · exact List.suffix_rfl
    · exact (ih c).trans (List.suffix_cons c t)

theorem afterSegment?_suffix {t rest : Text} (h : afterSegment? t = some rest) : rest <:+ t := by
  revert h
  fun_cases afterSegment? t with
  | case1 => exact nofun
  | case2 t =>
    rintro ⟨⟩
    exact ((List.drop_suffix 1 _).trans (List.dropWhile_suffix _)).trans (List.suffix_cons _ t)
  | case3 c t hc =>
    rintro ⟨⟩
    exact (afterPlainSegment_suffix c t).trans (List.suffix_cons c t)

theorem afterSegment?_of_ne {c : Char} (hc : c ≠ '"') (t : Text) :
    afterSegment? (c :: t) = some (afterPlainSegment c t) := by
  rw [afterSegment?]
  exact hc

/-- A segment is not empty. -/
theorem afterSegment?_ne_self (t : Text) : afterSegment? t ≠ some t := by
  fun_cases afterSegment? t with
  | case1 => exact nofun
  | case2 t =>
    intro h
    have hle := (List.dropWhile_suffix (· != '"') (l := t)).length_le
    have hlength := congrArg List.length (Option.some.inj h)
    rw [List.length_drop, List.length_cons] at hlength
    omega
  | case3 c t hc =>
    intro h
    have hle := (afterPlainSegment_suffix c t).length_le
    rw [Option.some.inj h, List.length_cons] at hle
    omega

theorem takes_nil_iff {t : Text} : (∃ ss, Takes [] ss t) ↔ t = [] := by
  constructor
  · rintro ⟨_, ⟨⟩⟩
    rfl
  · rintro rfl
    exact ⟨[], .nil⟩

theorem takes_slot_iff {ps : List PatternPart} {t : Text} : (∃ ss, Takes (.slot :: ps) ss t) ↔
    ∃ rest, afterSegment? t = some rest ∧ ∃ ss, Takes ps ss rest := by
  constructor
  · rintro ⟨_, _ | _ | ⟨hs, h⟩⟩
    exact ⟨_, hs, _, h⟩
  · rintro ⟨rest, hrest, ss, h⟩
    obtain ⟨s, rfl⟩ := afterSegment?_suffix hrest
    exact ⟨s :: ss, .slot hrest h⟩

theorem takes_literal_iff {c : Char} {ps : List PatternPart} {t : Text} :
    (∃ ss, Takes (.literal c :: ps) ss t) ↔ ∃ rest, t = c :: rest ∧ ∃ ss, Takes ps ss rest := by
  constructor
  · rintro ⟨ss, _ | h⟩
    exact ⟨_, rfl, ss, h⟩
  · rintro ⟨rest, rfl, ss, h⟩
    exact ⟨ss, .literal h⟩

/-- A name matches if the matcher has a run over it. -/
theorem matchesPattern_iff_takes (pattern t : Text) :
    pattern.matchesPattern t = true ↔ ∃ ss, Takes pattern.parts ss t := by
  fun_induction parts pattern generalizing t with
  | case1 => rw [matchesPattern, List.isEmpty_iff, takes_nil_iff]
  | case2 pattern ih | case3 pattern ih =>
    rw [matchesPattern, takes_slot_iff, Option.any_eq_true]
    simp only [ih]
  | case4 c pattern hbrace hbracket ih =>
    rw [takes_literal_iff]
    cases t with
    | nil =>
      have hstop : matchesPattern (c :: pattern) [] = false := by
        rw [matchesPattern] <;> assumption
      simp [hstop]
    | cons d t =>
      have hstep : matchesPattern (c :: pattern) (d :: t) =
          (c == d && matchesPattern pattern t) := by
        rw [matchesPattern] <;> assumption
      rw [hstep, Bool.and_eq_true, beq_iff_eq, ih]
      constructor
      · rintro ⟨rfl, h⟩
        exact ⟨t, rfl, h⟩
      · rintro ⟨_, ⟨⟩, h⟩
        exact ⟨rfl, h⟩

/-- The matcher has one run over a name. -/
theorem Takes.unique {ps : List PatternPart} {ss ss' : List Text} {t : Text} (h : Takes ps ss t)
    (h' : Takes ps ss' t) : ss' = ss := by
  induction h generalizing ss' with
  | nil =>
    cases h'
    rfl
  | literal _ ih =>
    cases h' with
    | literal h' => exact ih h'
  | @slot s ps ss t hs h ih =>
    generalize hname : s ++ t = name at h'
    cases h' with
    | @slot s' _ ss' t' hs' h' =>
      rw [← hname, hs, Option.some_inj] at hs'
      subst hs'
      rw [List.append_cancel_right hname, ih h']

/-! ## The names of a pattern -/

/-- What stands for a slot in the bytes of a name, `rest` being the bytes behind it and `final`
saying that the slot is the last part of the pattern. -/
inductive Chunk (final : Prop) (rest : List UInt8) : List UInt8 → Prop
  /-- Any bytes between double quotes. -/
  | quoted {u : List UInt8} : 0x22 ∉ u → Chunk final rest (0x22 :: (u ++ [0x22]))
  /-- A double quote that is not closed up to the end. -/
  | unclosed {u : List UInt8} : final → 0x22 ∉ u → Chunk final rest (0x22 :: u)
  /-- Bytes with a backslash before each dot but a first one, and none before what follows. -/
  | plain {u : List UInt8} : u ≠ [] → u.head? ≠ some 0x22 →
      u.IsChain (fun x y => y = 0x2e → x = 0x5c) → (u.getLast? = some 0x5c → rest = []) →
      Chunk final rest u

/-- The bytes are those of a pattern, with the parts `ps`, in which each slot is replaced by a
chunk. -/
inductive Fills : (ps : List PatternPart) → List UInt8 → Prop
  | nil : Fills [] []
  | literal {c : Char} {ps : List PatternPart} {rest : List UInt8} :
      Fills ps rest → Fills (.literal c :: ps) (String.utf8EncodeChar c ++ rest)
  | slot {ps : List PatternPart} {u rest : List UInt8} :
      Chunk (ps = []) rest u → Fills ps rest → Fills (.slot :: ps) (u ++ rest)

/-! ## Segments and chunks -/

theorem utf8EncodeChar_quote : String.utf8EncodeChar '"' = [0x22] := by decide

theorem utf8EncodeChar_dot : String.utf8EncodeChar '.' = [0x2e] := by decide

theorem utf8EncodeChar_backslash : String.utf8EncodeChar '\\' = [0x5c] := by decide

theorem dropWhile_append_of_not_quote {u : Text} (hu : '"' ∉ u) (t : Text) :
    (u ++ t).dropWhile (· != '"') = t.dropWhile (· != '"') := by
  refine List.dropWhile_append_of_pos fun c hc => bne_iff_ne.mpr ?_
  rintro rfl
  exact hu hc

/-- A quoted segment ends with the next quote, or with the name. -/
theorem drop_dropWhile_quote_iff {u t : Text} : ((u ++ t).dropWhile (· != '"')).drop 1 = t ↔
    (∃ v, u = v ++ ['"'] ∧ '"' ∉ v) ∨ t = [] ∧ '"' ∉ u := by
  by_cases hu : '"' ∈ u
  · obtain ⟨v, w, rfl, hv⟩ := List.eq_append_cons_of_mem hu
    rw [List.append_assoc, dropWhile_append_of_not_quote hv, List.cons_append,
      List.dropWhile_cons_of_neg (by simp), List.drop_one, List.tail_cons, List.append_left_eq_self]
    constructor
    · rintro rfl
      exact .inl ⟨v, rfl, hv⟩
    · rintro (⟨v', hv', hfree⟩ | ⟨-, hfree⟩)
      · by_contra hw
        obtain ⟨w', c, rfl⟩ := (List.eq_nil_or_concat w).resolve_left hw
        have hsplit : (v ++ '"' :: w') ++ [c] = v' ++ ['"'] := by simpa using hv'
        rw [← (List.append_inj' hsplit rfl).1] at hfree
        simp at hfree
      · exact absurd hu hfree
  · have hclose : ¬∃ v, u = v ++ ['"'] ∧ '"' ∉ v := by
      rintro ⟨v, rfl, -⟩
      simp at hu
    rw [dropWhile_append_of_not_quote hu]
    constructor
    · intro h
      have hle := (List.dropWhile_suffix (· != '"') (l := t)).length_le
      have hlength := congrArg List.length h
      rw [List.length_drop] at hlength
      exact .inr ⟨List.length_eq_zero_iff.mp (by omega), hu⟩
    · rintro (h | ⟨rfl, -⟩)
      · exact absurd h hclose
      · rfl

section Chunks

variable {final : Prop} {rest : List UInt8} {u : Text}

theorem chunk_quote_iff : Chunk final rest (bytes ('"' :: u)) ↔
    (∃ v, u = v ++ ['"'] ∧ '"' ∉ v) ∨ final ∧ '"' ∉ u := by
  have hcons : bytes ('"' :: u) = 0x22 :: bytes u := rfl
  rw [hcons]
  constructor
  · generalize hw : 0x22 :: bytes u = w
    rintro (@⟨v, hv⟩ | @⟨v, hfinal, hv⟩ | ⟨-, hhead, -, -⟩)
    · obtain ⟨v', rfl, rfl⟩ := (bytes_eq_concat_iff utf8EncodeChar_quote).mp (List.cons.inj hw).2
      exact .inl ⟨v', rfl, mt (mem_bytes_iff utf8EncodeChar_quote).mpr hv⟩
    · rw [← (List.cons.inj hw).2, mem_bytes_iff utf8EncodeChar_quote] at hv
      exact .inr ⟨hfinal, hv⟩
    · rw [← hw] at hhead
      exact absurd rfl hhead
  · rintro (⟨v, rfl, hv⟩ | ⟨hfinal, hu⟩)
    · rw [bytes_append]
      exact .quoted (mt (mem_bytes_iff utf8EncodeChar_quote).mp hv)
    · exact .unclosed hfinal (mt (mem_bytes_iff utf8EncodeChar_quote).mp hu)

theorem chunk_plain_iff {c : Char} (hc : c ≠ '"') : Chunk final rest (bytes (c :: u)) ↔
    (c :: u).IsChain (fun c d => d = '.' → c = '\\') ∧
      ((c :: u).getLast? = some '\\' → rest = []) := by
  have hhead : (bytes (c :: u)).head? ≠ some 0x22 := by
    rw [ne_eq, head?_bytes_iff utf8EncodeChar_quote]
    simpa using hc
  rw [← isChain_bytes_iff utf8EncodeChar_dot utf8EncodeChar_backslash,
    ← getLast?_bytes_iff utf8EncodeChar_backslash]
  constructor
  · generalize hw : bytes (c :: u) = w at hhead
    rintro (_ | _ | ⟨-, -, hdots, hlast⟩)
    · exact absurd rfl hhead
    · exact absurd rfl hhead
    · exact ⟨hdots, hlast⟩
  · rintro ⟨hdots, hlast⟩
    exact .plain (mt bytes_eq_nil_iff.mp (List.cons_ne_nil c u)) hhead hdots hlast

end Chunks

section Segments

variable {t : Text} (ht : t = [] ∨ t.head? = some '.')
include ht

theorem afterPlainSegment_append_iff {last : Char} {u : Text} :
    afterPlainSegment last (u ++ t) = t ↔
      (last :: u).IsChain (fun c d => d = '.' → c = '\\') ∧
        ((last :: u).getLast? = some '\\' → t = []) := by
  induction u generalizing last with
  | nil =>
    rcases ht with rfl | ht
    · simp [afterPlainSegment]
    · obtain ⟨t, rfl⟩ := List.head?_eq_some_iff.mp ht
      by_cases hlast : last = '\\'
      · have hpast : afterPlainSegment '.' t ≠ '.' :: t := fun h =>
          afterSegment?_ne_self ('.' :: t) (by rw [afterSegment?_of_ne (by decide), h])
        simp [afterPlainSegment, hlast, hpast]
      · simp [afterPlainSegment, hlast]
  | cons c u ih =>
    rw [List.cons_append, afterPlainSegment, List.isChain_cons_cons, List.getLast?_cons_cons]
    by_cases hstop : c = '.' ∧ last ≠ '\\'
    · have hlong : c :: (u ++ t) ≠ t := fun h => by
        have hlength := congrArg List.length h
        simp at hlength
        omega
      obtain ⟨rfl, hlast⟩ := hstop
      simp [hlast, hlong]
    · rw [if_neg (by simpa using hstop), ih, and_assoc]
      tauto

/-- The first segment of a name that goes on with a dot or with nothing. -/
theorem afterSegment?_append_iff {s : Text} :
    afterSegment? (s ++ t) = some t ↔ Chunk (t = []) t.bytes s.bytes := by
  cases s with
  | nil =>
    refine iff_of_false (afterSegment?_ne_self t) ?_
    generalize hw : bytes [] = w
    rintro (_ | _ | ⟨hne, -⟩)
    · exact nomatch hw
    · exact nomatch hw
    · exact hne hw.symm
  | cons c u =>
    by_cases hc : c = '"'
    · subst hc
      rw [chunk_quote_iff, ← drop_dropWhile_quote_iff]
      exact Option.some_inj
    · rw [chunk_plain_iff hc, bytes_eq_nil_iff, ← afterPlainSegment_append_iff ht,
        List.cons_append, afterSegment?_of_ne hc, Option.some_inj]

end Segments

/-! ## Names that match -/

section Names

variable {ps : List PatternPart} {t : Text}

theorem fills_nil_iff : Fills [] t.bytes ↔ t = [] := by
  rw [← bytes_eq_nil_iff]
  constructor
  · generalize t.bytes = w
    rintro ⟨⟩
    rfl
  · intro h
    rw [h]
    exact .nil

theorem fills_literal_iff {c : Char} :
    Fills (.literal c :: ps) t.bytes ↔ ∃ rest, t = c :: rest ∧ Fills ps (bytes rest) := by
  constructor
  · generalize hw : t.bytes = w
    rintro (_ | h)
    cases t with
    | nil => exact absurd (List.append_eq_nil_iff.mp hw.symm).1 String.utf8EncodeChar_ne_nil
    | cons d t =>
      obtain rfl := eq_of_encode_append_eq hw
      rw [← List.append_cancel_left hw] at h
      exact ⟨t, rfl, h⟩
  · rintro ⟨rest, rfl, h⟩
    exact .literal h

variable (hps : ∀ p ∈ ps.head?, p = .literal '.')
include hps

theorem fills_slot_iff : Fills (.slot :: ps) t.bytes ↔
    ∃ s rest, t = s ++ rest ∧ Chunk (ps = []) (bytes rest) (bytes s) ∧ Fills ps (bytes rest) := by
  constructor
  · generalize hw : t.bytes = w
    rintro (_ | _ | @⟨_, u, v, hu, h⟩)
    -- What follows the chunk starts with the byte of a dot, so the cut is one between characters.
    have hv : ∀ b ∈ v.head?, b.IsUTF8FirstByte := by
      intro b hb
      cases h with
      | nil => exact nomatch hb
      | literal =>
        cases hps _ rfl
        cases hb
        decide
      | slot => exact nomatch hps _ rfl
    obtain ⟨s, rest, rfl, rfl, rfl⟩ := exists_of_bytes_eq_append hw hv
    exact ⟨s, rest, rfl, hu, h⟩
  · rintro ⟨s, rest, rfl, hs, h⟩
    rw [bytes_append]
    exact .slot hs h

theorem Takes.follows {ss : List Text} (h : Takes ps ss t) :
    (ps = [] ↔ t = []) ∧ (t = [] ∨ t.head? = some '.') := by
  cases h with
  | nil => exact ⟨iff_of_true rfl rfl, .inl rfl⟩
  | literal h =>
    cases hps _ rfl
    exact ⟨by simp, .inr rfl⟩
  | slot => exact nomatch hps _ rfl

/-- The segment that a slot takes is the chunk that stands for it. -/
theorem takes_slot_iff_chunk : (∃ ss, Takes (.slot :: ps) ss t) ↔ ∃ s rest, t = s ++ rest ∧
    Chunk (ps = []) (bytes rest) (bytes s) ∧ ∃ ss, Takes ps ss rest := by
  constructor
  · rintro ⟨_, _ | _ | @⟨s, _, ss, rest, hs, h⟩⟩
    obtain ⟨hfinal, hrest⟩ := h.follows hps
    rw [afterSegment?_append_iff hrest, ← hfinal] at hs
    exact ⟨s, rest, rfl, hs, ss, h⟩
  · rintro ⟨s, rest, rfl, hs, ss, h⟩
    obtain ⟨hfinal, hrest⟩ := h.follows hps
    rw [hfinal, ← afterSegment?_append_iff hrest] at hs
    exact ⟨s :: ss, .slot hs h⟩

end Names

/-- Under a separated pattern the matcher takes the names that fill it. -/
theorem fills_bytes_iff {ps : List PatternPart} {t : Text}
    (hsep : ps.IsChain fun p q => p = .slot → q = .literal '.') :
    Fills ps t.bytes ↔ ∃ ss, Takes ps ss t := by
  induction ps generalizing t with
  | nil => rw [fills_nil_iff, takes_nil_iff]
  | cons p ps ih =>
    obtain ⟨hnext, htail⟩ := List.isChain_cons.mp hsep
    cases p with
    | literal c => simp only [fills_literal_iff, takes_literal_iff, ih htail]
    | slot =>
      have hps : ∀ q ∈ ps.head?, q = .literal '.' := fun q hq => hnext q hq rfl
      simp only [fills_slot_iff hps, takes_slot_iff_chunk hps, ih htail]

theorem takes_literals_iff {u t : Text} : (∃ ss, Takes (u.map .literal) ss t) ↔ t = u := by
  induction u generalizing t with
  | nil => exact takes_nil_iff
  | cons c u ih =>
    rw [List.map_cons, takes_literal_iff]
    simp only [ih, exists_eq_right]

theorem parts_of_not_hasPlaceholder {pattern : Text} (h : pattern.hasPlaceholder = false) :
    pattern.parts = pattern.map .literal := by
  fun_induction parts pattern with
  | case1 => rfl
  | case2 | case3 => simp [hasPlaceholder, afterPlaceholder?] at h
  | case4 c pattern _ _ ih =>
    rw [hasPlaceholder, Bool.or_eq_false_iff] at h
    rw [ih h.2, List.map_cons]

/-- A separated pattern stands for the names that fill it. Taking the first segment for each slot
is enough : a name matches if it can be cut in any way into the characters of the pattern and a
chunk for each slot. A pattern without placeholders stands for itself. -/
theorem matchesPattern_iff_fills (pattern t : Text) :
    (pattern.IsSeparated →
      (pattern.matchesPattern t = true ↔ Fills pattern.parts t.bytes)) ∧
      (pattern.hasPlaceholder = false → (pattern.matchesPattern t = true ↔ t = pattern)) := by
  constructor
  · intro hsep
    rw [matchesPattern_iff_takes, fills_bytes_iff hsep]
  · intro hplain
    rw [matchesPattern_iff_takes, parts_of_not_hasPlaceholder hplain, takes_literals_iff]

/-- A name with a quoted segment and an escaped one, and a name that is its own pattern. -/
theorem matchesPattern_iff_fills_quoted :
    IsSeparated "a.\x7b*\x7d.b.[*]".toList ∧
      Fills (parts "a.\x7b*\x7d.b.[*]".toList) (bytes "a.\"x.y\".b.é\\.z".toList) ∧
      matchesPattern "a.b".toList "a.b".toList = true :=
  have hsep : IsSeparated "a.\x7b*\x7d.b.[*]".toList := by decide
  have hfills := (matchesPattern_iff_fills _ "a.\"x.y\".b.é\\.z".toList).1 hsep
  have hplain := (matchesPattern_iff_fills "a.b".toList "a.b".toList).2 (by decide)
  ⟨hsep, hfills.mp (by decide), hplain.mpr rfl⟩

/-! ## Dots -/

theorem count_dot_parts (pattern : Text) :
    pattern.parts.count (.literal '.') = pattern.count '.' := by
  fun_induction parts pattern with
  | case1 => rfl
  | case2 pattern ih | case3 pattern ih => simpa using ih
  | case4 c pattern _ _ ih => simp [List.count_cons, ih]

/-- Without backslashes no dot stands in an unquoted segment behind its first character. -/
theorem dot_not_mem_of_afterPlainSegment {last : Char} {u t : Text}
    (h : afterPlainSegment last (u ++ t) = t) (hbackslash : '\\' ∉ last :: u) : '.' ∉ u := by
  induction u generalizing last with
  | nil => exact List.not_mem_nil
  | cons c u ih =>
    rw [List.mem_cons, not_or] at hbackslash
    obtain ⟨hlast, hu⟩ := hbackslash
    rw [List.cons_append, afterPlainSegment] at h
    split_ifs at h with hstop
    · have hlength := congrArg List.length h
      simp at hlength
      omega
    · have hc : c ≠ '.' := fun hc => hstop (by simpa [hc] using Ne.symm hlast)
      exact List.not_mem_cons_of_ne_of_not_mem hc.symm (ih h hu)

theorem count_dot_of_afterSegment? {s t : Text} (h : afterSegment? (s ++ t) = some t)
    (hquote : '"' ∉ s) (hbackslash : '\\' ∉ s) :
    s.count '.' = if s.head? == some '.' then 1 else 0 := by
  cases s with
  | nil => exact absurd h (afterSegment?_ne_self t)
  | cons c u =>
    have hc : c ≠ '"' := fun hc => hquote (hc ▸ List.mem_cons_self)
    rw [List.cons_append, afterSegment?_of_ne hc, Option.some_inj] at h
    have hu : u.count '.' = 0 :=
      List.count_eq_zero.mpr (dot_not_mem_of_afterPlainSegment h hbackslash)
    rw [List.count_cons, hu, Nat.zero_add]
    rfl

/-- Each dot of a name is one of the pattern or the first character of a segment. -/
theorem Takes.count_dot {ps : List PatternPart} {ss : List Text} {t : Text} (h : Takes ps ss t)
    (hquote : '"' ∉ t) (hbackslash : '\\' ∉ t) :
    t.count '.' = ps.count (.literal '.') + ss.countP (·.head? == some '.') := by
  induction h with
  | nil => rfl
  | literal h ih =>
    rw [List.count_cons, List.count_cons, ih (List.not_mem_of_not_mem_cons hquote)
      (List.not_mem_of_not_mem_cons hbackslash)]
    simp only [beq_iff_eq, PatternPart.literal.injEq]
    omega
  | slot hs h ih =>
    rw [List.mem_append, not_or] at hquote hbackslash
    rw [List.count_append, List.countP_cons, ih hquote.2 hbackslash.2,
      count_dot_of_afterSegment? hs hquote.1 hbackslash.1, List.count_cons_of_ne (by decide)]
    omega

/-- Without quotes and backslashes a name that matches has the dots of its pattern, and one more for
each slot whose segment starts with a dot. -/
theorem count_dot_eq_iff {pattern t : Text} (h : pattern.matchesPattern t = true)
    (hquote : '"' ∉ t) (hbackslash : '\\' ∉ t) :
    ∃ ss, (∀ ss', Takes pattern.parts ss' t ↔ ss' = ss) ∧
      t.count '.' = pattern.count '.' + ss.countP (·.head? == some '.') ∧
      (t.count '.' = pattern.count '.' ↔ ∀ s ∈ ss, s.head? ≠ some '.') := by
  obtain ⟨ss, htakes⟩ := (matchesPattern_iff_takes pattern t).mp h
  have hcount := htakes.count_dot hquote hbackslash
  rw [count_dot_parts] at hcount
  refine ⟨ss, fun ss' => ⟨htakes.unique, fun hss => hss ▸ htakes⟩, hcount, ?_⟩
  rw [hcount, Nat.add_eq_left, List.countP_eq_zero]
  simp

/-- One slot takes a segment, the other a dot and the segment behind it. -/
theorem count_dot_eq_iff_bracket :
    matchesPattern "a.[*].b[*].c".toList "a.x.b.y.c".toList = true ∧ ∃ ss,
      (∀ ss', Takes (parts "a.[*].b[*].c".toList) ss' "a.x.b.y.c".toList ↔ ss' = ss) ∧
        "a.x.b.y.c".toList.count '.' =
          "a.[*].b[*].c".toList.count '.' + ss.countP (·.head? == some '.') ∧
        ("a.x.b.y.c".toList.count '.' = "a.[*].b[*].c".toList.count '.' ↔
          ∀ s ∈ ss, s.head? ≠ some '.') :=
  have h : matchesPattern "a.[*].b[*].c".toList "a.x.b.y.c".toList = true := by decide
  ⟨h, count_dot_eq_iff h (by decide) (by decide)⟩

/-- A slot behind other characters takes the dot behind them. -/
theorem exists_count_dot_ne : ¬∀ pattern t : Text, '"' ∉ t → '\\' ∉ t →
    pattern.matchesPattern t = true → t.count '.' = pattern.count '.' := by
  intro h
  exact absurd (h "a[*].b".toList "a.x.b".toList (by decide) (by decide) (by decide)) (by decide)

end Text

end DotProperties
