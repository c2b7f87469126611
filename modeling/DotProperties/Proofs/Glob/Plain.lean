import Mathlib.Data.List.Induction
import DotProperties.Glob.Parse
import DotProperties.Proofs.Glob.Language

/-!
# Plain names as globs

A text without the characters that globs give a meaning (`isGlobSyntax`) is read as a glob of
literals, and this glob describes the text itself (`NameGlob.exists_parse?_plain`). With a dot and a
star behind it, it describes every name that goes on behind that dot
(`NameGlob.exists_parse?_descendants`). Neither of them needs a file name.

With other characters in it a text may not be a glob at all, or one that describes other names.
-/

namespace DotProperties

/-- The character has a meaning of its own in a glob. -/
def isGlobSyntax (c : Char) : Bool :=
  c == '?' || c == '*' || c == '[' || c == '{' || c == '}' || c == '\\'

/-! ## Reading -/

namespace GlobReader

/-- A character without a meaning of its own is read as itself. -/
theorem read?_plain {c : Char} (hc : isGlobSyntax c = false) (last next : Option Char)
    (parts : List Glob) : read? ⟨.part, last, parts, []⟩ c next =
      some ⟨.part, some c, .literal c :: parts, []⟩ := by
  simp only [isGlobSyntax, Bool.or_eq_false_iff, beq_eq_false_iff_ne] at hc
  have hpart : readPart? ⟨.part, last, parts, []⟩ c next =
      some ⟨.part, last, .literal c :: parts, []⟩ := by
    unfold readPart?
    split <;> simp_all [comma, push, setCurrent, current]
  rw [read?]
  simp [hpart]

theorem exists_readAll?_plain {t : Text} (ht : ∀ c ∈ t, isGlobSyntax c = false) (u : Text)
    (last : Option Char) (parts : List Glob) : ∃ last',
      readAll? ⟨.part, last, parts, []⟩ (t ++ u) =
        readAll? ⟨.part, last', (t.map .literal).reverse ++ parts, []⟩ u := by
  induction t generalizing last parts with
  | nil => exact ⟨last, rfl⟩
  | cons c t ih =>
    obtain ⟨hc, ht⟩ := List.forall_mem_cons.mp ht
    obtain ⟨last', hrest⟩ := ih ht (some c) (.literal c :: parts)
    refine ⟨last', ?_⟩
    rw [List.cons_append, readAll?, read?_plain hc, Option.bind_some, hrest]
    simp

end GlobReader

namespace NameGlob

variable {t : Text} (ht : ∀ c ∈ t, isGlobSyntax c = false)
include ht

theorem parse?_plain : parse? t = some ⟨t.map .literal⟩ := by
  obtain ⟨last, hread⟩ := GlobReader.exists_readAll?_plain ht [] none []
  rw [List.append_nil] at hread
  rw [parse?, GlobReader.initial, hread]
  simp [GlobReader.readAll?, GlobReader.finish?]

theorem parse?_star : parse? (t ++ ['*']) = some ⟨t.map .literal ++ [.star]⟩ := by
  obtain ⟨last, hread⟩ := GlobReader.exists_readAll?_plain ht ['*'] none []
  rw [parse?, GlobReader.initial, hread]
  simp [GlobReader.readAll?, GlobReader.read?, GlobReader.readPart?, GlobReader.push,
    GlobReader.setCurrent, GlobReader.current, GlobReader.finish?]

end NameGlob

/-! ## What is described -/

namespace Glob

theorem sequence_concat (parts : List Glob) (g : Glob) :
    sequence (parts ++ [g]) = .seq (sequence parts) g := by
  simp [sequence]

theorem denotes_sequence_literals (t : Text) : (sequence (t.map .literal)).Denotes t.bytes := by
  induction t using List.reverseRecOn with
  | nil => rfl
  | append_singleton t c ih =>
    rw [List.map_append, List.map_singleton, sequence_concat]
    exact ⟨_, String.utf8EncodeChar c, by simp [Text.bytes], ih, rfl⟩

theorem depth_sequence {parts : List Glob} (h : ∀ g ∈ parts, g.depth = 0) :
    (sequence parts).depth = 0 := by
  induction parts using List.reverseRecOn with
  | nil => rfl
  | append_singleton parts g ih =>
    obtain ⟨hparts, hg⟩ := List.forall_mem_append.mp h
    rw [sequence_concat, depth, ih hparts, hg g List.mem_cons_self]
    rfl

end Glob

namespace NameGlob

/-- The names that a glob for names stands for. -/
def Describes (g : NameGlob) (name : Text) : Prop :=
  g.whole.Denotes name.bytes ∧ (name.hasFileName = true ∨ g.readsFileName = false)

theorem isMatch_iff {g : NameGlob} {name : Text} : g.isMatch name = true ↔ g.Describes name := by
  rw [isMatch, Bool.and_eq_true, Bool.or_eq_true, Bool.not_eq_true', Glob.isMatch,
    Glob.describes_iff, Describes]

theorem whole_of_not_mem {parts : List Glob} (h : .leading ∉ parts) :
    whole ⟨parts⟩ = Glob.sequence parts := by
  refine if_neg fun hparts => h ?_
  obtain rfl : parts = [.leading] := hparts
  exact List.mem_cons_self

theorem inDirectory_of_not_mem {parts : List Glob} (h : .leading ∉ parts) :
    inDirectory ⟨parts⟩ = parts := by
  unfold inDirectory
  split
  · rename_i rest hparts
    obtain rfl : parts = .leading :: rest := hparts
    exact (h List.mem_cons_self).elim
  · rfl

theorem mapM_literal? (t : Text) : (t.map Glob.literal).mapM Glob.literal? = some t := by
  induction t with
  | nil => rfl
  | cons c t ih => simp [ih, Glob.literal?]

variable {t : Text} (ht : ∀ c ∈ t, isGlobSyntax c = false)
include ht

/-- A plain name describes itself. -/
theorem exists_parse?_plain : ∃ g, parse? t = some g ∧ g.depth = 0 ∧ g.Describes t := by
  have hleading : .leading ∉ t.map Glob.literal := by simp
  refine ⟨_, parse?_plain ht, ?_, ?_, Or.inr ?_⟩
  · rw [depth, whole_of_not_mem hleading]
    exact Glob.depth_sequence (List.forall_mem_map.mpr fun c _ => rfl)
  · rw [whole_of_not_mem hleading]
    exact Glob.denotes_sequence_literals t
  · rw [readsFileName, inDirectory_of_not_mem hleading]
    dsimp only
    rw [mapM_literal?]
    simp

/-- A plain name with a dot and a star behind it describes what goes on behind the dot. -/
theorem exists_parse?_descendants (rest : Text) : ∃ g, parse? (t ++ ['.', '*']) = some g ∧
    g.depth = 0 ∧ g.Describes (t ++ '.' :: rest) := by
  have hdot : ∀ c ∈ t ++ ['.'], isGlobSyntax c = false :=
    List.forall_mem_append.mpr ⟨ht, List.forall_mem_singleton.mpr rfl⟩
  have hparse := parse?_star hdot
  have hleading : .leading ∉ (t ++ ['.']).map Glob.literal ++ [.star] := by simp
  rw [List.append_assoc] at hparse
  refine ⟨_, hparse, ?_, ?_, Or.inr ?_⟩
  · rw [depth, whole_of_not_mem hleading]
    refine Glob.depth_sequence (List.forall_mem_append.mpr ⟨?_, List.forall_mem_singleton.mpr rfl⟩)
    exact List.forall_mem_map.mpr fun c _ => rfl
  · rw [whole_of_not_mem hleading, Glob.sequence_concat]
    exact ⟨_, Text.bytes rest, by simp [Text.bytes], Glob.denotes_sequence_literals _, trivial⟩
  · -- The glob is not a fixed text, and it does not end in an extension.
    have hfixed : ((t ++ ['.']).map Glob.literal ++ [Glob.star]).mapM Glob.literal? = none := by
      rw [List.mapM_append, mapM_literal?]
      rfl
    have hextension : Glob.endInExtension ((t ++ ['.']).map Glob.literal ++ [.star]) = false := by
      simp [Glob.endInExtension, Glob.literal?]
    cases t with
    | nil => simp [readsFileName, inDirectory, Glob.endInExtension, Glob.literal?]
    | cons c t =>
      rw [readsFileName, inDirectory_of_not_mem hleading]
      dsimp only
      rw [hfixed]
      exact hextension

end NameGlob

end DotProperties
