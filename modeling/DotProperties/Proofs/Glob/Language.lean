import DotProperties.Glob.Name

/-!
# The language of a glob

A glob stands for a language of byte sequences (`Glob.Denotes`), given part by part. A name is
matched by marks that move over the glob, all readings at once. Each operation on marks moves them
over a language (`Marks.Moves`) : a mark stands behind a stretch of the name if one stood before it
and the stretch is in the language. So marks move over a glob as over its language
(`Glob.moves_advance`), and a glob matches the names that are in it (`Glob.describes_iff`).
-/

namespace DotProperties

/-- The byte sequences that a glob stands for. -/
def Glob.Denotes : Glob → List UInt8 → Prop
  | empty, w => w = []
  | literal c, w => w = String.utf8EncodeChar c
  | any, w => ∃ b, w = [b]
  | byteClass k, w => ∃ b, w = [b] ∧ k.contains b = true
  | star, _ => True
  | leading, w => w = [] ∨ ∃ u, w = u ++ [0x2f]
  | trailing, w => ∃ u, w = 0x2f :: u
  | inner, w => w = [0x2f] ∨ ∃ u, w = 0x2f :: (u ++ [0x2f])
  | seq g h, w => ∃ u v, w = u ++ v ∧ g.Denotes u ∧ h.Denotes v
  | alt g h, w => g.Denotes w ∨ h.Denotes w
  | group g, w => g.Denotes w

namespace Marks

/-- The marks `m` on the places of `w` have moved over the language `L`. -/
structure Moves (w : List UInt8) (L : List UInt8 → Prop) (m m' : Marks) : Prop where
  /-- There is a mark or none for every place. -/
  length : m'.length = w.length + 1
  /-- The marks stand behind the stretches in `L` that had a mark before them. -/
  marked : ∀ j, m'[j]? = some true ↔
    ∃ x u y, w = x ++ (u ++ y) ∧ m[x.length]? = some true ∧ L u ∧ (x ++ u).length = j

namespace Moves

variable {w : List UInt8} {L L' : List UInt8 → Prop} {m m' m'' : Marks}

theorem congr (h : Moves w L m m') (hL : ∀ u, L u ↔ L' u) : Moves w L' m m' := by
  obtain rfl : L = L' := funext fun u => propext (hL u)
  exact h

/-- Marks move over one language and then over another. -/
theorem trans (h : Moves w L m m') (h' : Moves w L' m' m'') :
    Moves w (fun u => ∃ a b, u = a ++ b ∧ L a ∧ L' b) m m'' := by
  refine ⟨h'.length, fun j => ⟨fun hj => ?_, ?_⟩⟩
  · obtain ⟨x', b, y, hw, hx', hb, rfl⟩ := (h'.marked j).mp hj
    obtain ⟨x, a, y', hw', hx, ha, hlength⟩ := (h.marked x'.length).mp hx'
    -- Both marks between the two languages stand at the same place.
    obtain ⟨rfl, -⟩ : x ++ a = x' ∧ y' = b ++ y :=
      List.append_inj (by rw [List.append_assoc, ← hw', hw]) hlength
    exact ⟨x, a ++ b, y, by rw [hw]; simp, hx, ⟨a, b, rfl, ha, hb⟩, by simp⟩
  · rintro ⟨x, _, y, rfl, hx, ⟨a, b, rfl, ha, hb⟩, rfl⟩
    refine (h'.marked _).mpr ⟨x ++ a, b, y, by simp, ?_, hb, by simp⟩
    exact (h.marked _).mpr ⟨x, a, b ++ y, by simp, hx, ha, rfl⟩

/-- Marks move over either of two languages. -/
theorem union (h : Moves w L m m') (h' : Moves w L' m m'') :
    Moves w (fun u => L u ∨ L' u) m (m'.union m'') := by
  refine ⟨by simp [Marks.union, h.length, h'.length], fun j => ?_⟩
  have hmarked : (m'.union m'')[j]? = some true ↔ m'[j]? = some true ∨ m''[j]? = some true := by
    have hsame : m'.length = m''.length := h.length.trans h'.length.symm
    rw [Marks.union, List.getElem?_zipWith_eq_some]
    constructor
    · rintro ⟨_ | _, _ | _, hx, hy, hxy⟩ <;> simp_all
    · intro hj
      have hlt : j < m'.length := by
        rcases hj with hj | hj
        · exact (List.getElem?_eq_some_iff.mp hj).1
        · exact hsame ▸ (List.getElem?_eq_some_iff.mp hj).1
      refine ⟨_, _, List.getElem?_eq_getElem hlt, List.getElem?_eq_getElem (hsame ▸ hlt), ?_⟩
      simpa [List.getElem?_eq_some_iff, hlt, hsame ▸ hlt] using hj
  rw [hmarked, h.marked, h'.marked]
  constructor
  · rintro (⟨x, u, y, hw, hx, hu, rfl⟩ | ⟨x, u, y, hw, hx, hu, rfl⟩)
    · exact ⟨x, u, y, hw, hx, Or.inl hu, rfl⟩
    · exact ⟨x, u, y, hw, hx, Or.inr hu, rfl⟩
  · rintro ⟨x, u, y, hw, hx, hu | hu, rfl⟩
    · exact Or.inl ⟨x, u, y, hw, hx, hu, rfl⟩
    · exact Or.inr ⟨x, u, y, hw, hx, hu, rfl⟩

variable (hm : m.length = w.length + 1)
include hm

theorem refl : Moves w (· = []) m m := by
  refine ⟨hm, fun j => ⟨fun hj => ?_, ?_⟩⟩
  · have hlt : j < m.length := (List.getElem?_eq_some_iff.mp hj).1
    have hlength : (w.take j).length = j := List.length_take_of_le (by omega)
    exact ⟨w.take j, [], w.drop j, (List.take_append_drop j w).symm, by rwa [hlength], rfl,
      by rw [List.append_nil, hlength]⟩
  · rintro ⟨x, u, y, -, hx, rfl, rfl⟩
    rwa [List.append_nil]

/-- Marks move over one byte that passes a test. -/
theorem consume (test : UInt8 → Bool) :
    Moves w (fun u => ∃ b, u = [b] ∧ test b = true) m (m.consume test w) := by
  refine ⟨by simp [Marks.consume, hm], fun j => ⟨fun hj => ?_, ?_⟩⟩
  · cases j with
    | zero => exact nomatch hj
    | succ j =>
      rw [Marks.consume, List.getElem?_cons_succ, List.getElem?_zipWith_eq_some] at hj
      obtain ⟨b, marked, hb, hmarked, htest⟩ := hj
      obtain ⟨rfl, hpass⟩ := Bool.and_eq_true_iff.mp htest
      obtain ⟨hlt, rfl⟩ := List.getElem?_eq_some_iff.mp hb
      have hlength : (w.take j).length = j := List.length_take_of_le (Nat.le_of_lt hlt)
      refine ⟨w.take j, [w[j]], w.drop (j + 1), ?_, by rwa [hlength], ⟨w[j], rfl, hpass⟩, ?_⟩
      · rw [List.singleton_append, List.getElem_cons_drop, List.take_append_drop]
      · rw [List.length_append, hlength, List.length_singleton]
  · rintro ⟨x, _, y, rfl, hx, ⟨b, rfl, hb⟩, rfl⟩
    rw [List.length_append, List.length_singleton, Marks.consume, List.getElem?_cons_succ,
      List.getElem?_zipWith_eq_some]
    exact ⟨b, true, by simp, hx, by simp [hb]⟩

omit hm in
/-- Behind a mark every place is marked. -/
theorem getElem?_spread (seen : Bool) (m : Marks) (j : Nat) : (m.spread seen)[j]? = some true ↔
    j < m.length ∧ (seen = true ∨ ∃ i ≤ j, m[i]? = some true) := by
  induction m generalizing seen j with
  | nil => simp [Marks.spread]
  | cons marked m ih =>
    rw [Marks.spread]
    cases j with
    | zero => simp
    | succ j =>
      rw [List.getElem?_cons_succ, ih, List.length_cons, Nat.add_lt_add_iff_right]
      refine and_congr_right fun _ => ?_
      constructor
      · rintro (hseen | ⟨i, hi, hmarked⟩)
        · rcases Bool.or_eq_true_iff.mp hseen with hseen | rfl
          · exact Or.inl hseen
          · exact Or.inr ⟨0, Nat.zero_le _, rfl⟩
        · exact Or.inr ⟨i + 1, Nat.succ_le_succ hi, hmarked⟩
      · rintro (hseen | ⟨_ | i, hi, hmarked⟩)
        · exact Or.inl (Bool.or_eq_true_iff.mpr (Or.inl hseen))
        · exact Or.inl (Bool.or_eq_true_iff.mpr (Or.inr (Option.some.inj hmarked)))
        · exact Or.inr ⟨i, Nat.le_of_succ_le_succ hi, hmarked⟩

/-- Marks move over any bytes. -/
theorem spread : Moves w (fun _ => True) m (m.spread false) := by
  have hlength (seen : Bool) (m : Marks) : (m.spread seen).length = m.length := by
    induction m generalizing seen with
    | nil => rfl
    | cons marked m ih => rw [Marks.spread, List.length_cons, ih, List.length_cons]
  refine ⟨(hlength false m).trans hm, fun j => ?_⟩
  rw [getElem?_spread]
  constructor
  · rintro ⟨hlt, hseen | ⟨i, hi, hmarked⟩⟩
    · exact Bool.noConfusion hseen
    · have hx : (w.take i).length = i := List.length_take_of_le (by omega)
      have hsplit : w.take i ++ (w.take j).drop i = w.take j := by
        have htake : (w.take j).take i = w.take i := by rw [List.take_take, Nat.min_eq_left hi]
        rw [← htake, List.take_append_drop]
      refine ⟨w.take i, (w.take j).drop i, w.drop j, ?_, by rwa [hx], trivial, ?_⟩
      · rw [← List.append_assoc, hsplit, List.take_append_drop]
      · rw [hsplit]
        exact List.length_take_of_le (by omega)
  · rintro ⟨x, u, y, rfl, hx, -, rfl⟩
    have hlt : (x ++ u).length < m.length := by
      have hsplit : (x ++ (u ++ y)).length = (x ++ u).length + y.length := by
        rw [← List.append_assoc, List.length_append]
      omega
    exact ⟨hlt, Or.inr ⟨x.length, by simp, hx⟩⟩

/-- Marks move over a slash. -/
theorem slash : Moves w (· = [0x2f]) m (m.slash w) :=
  (consume hm (· == 0x2f)).congr fun u => by simp

/-- Marks move over any bytes and a slash. -/
theorem components : Moves w (fun u => ∃ v, u = v ++ [0x2f]) m (m.components w) :=
  ((spread hm).trans (slash (spread hm).length)).congr fun u => by simp

/-- Marks move over fixed bytes. -/
theorem bytes (bytes : List UInt8) :
    Moves w (· = bytes) m (bytes.foldl (fun m a => m.consume (· == a) w) m) := by
  induction bytes generalizing m with
  | nil => exact refl hm
  | cons a bytes ih =>
    have hfirst := consume hm (· == a)
    refine (hfirst.trans (ih hfirst.length)).congr fun u => ⟨?_, ?_⟩
    · rintro ⟨_, _, rfl, ⟨b, rfl, hb⟩, rfl⟩
      rw [beq_iff_eq.mp hb, List.singleton_append]
    · rintro rfl
      exact ⟨[a], bytes, rfl, ⟨a, rfl, beq_self_eq_true a⟩, rfl⟩

end Moves

end Marks

namespace Glob

open Marks

/-- Marks move over a glob as over its language. -/
theorem moves_advance {w : List UInt8} (g : Glob) {m : Marks} (hm : m.length = w.length + 1) :
    Moves w g.Denotes m (g.advance w m) := by
  induction g generalizing m with
  | empty => exact .refl hm
  | literal c => exact .bytes hm (String.utf8EncodeChar c)
  | any => exact (Moves.consume hm fun _ => true).congr fun u => by simp [Denotes]
  | byteClass k => exact .consume hm k.contains
  | star => exact .spread hm
  | leading => exact (Moves.refl hm).union (.components hm)
  | trailing =>
    have hslash := Moves.slash hm
    exact (hslash.trans (.spread hslash.length)).congr fun u => by simp [Denotes]
  | inner =>
    have hslash := Moves.slash hm
    refine (hslash.union (hslash.trans (.components hslash.length))).congr fun u =>
      or_congr_right ⟨?_, ?_⟩
    · rintro ⟨_, _, rfl, rfl, v, rfl⟩
      exact ⟨v, rfl⟩
    · rintro ⟨v, rfl⟩
      exact ⟨[0x2f], v ++ [0x2f], rfl, rfl, v, rfl⟩
  | seq g h ihg ihh => exact (ihg hm).trans (ihh (ihg hm).length)
  | alt g h ihg ihh => exact (ihg hm).union (ihh hm)
  | group g ih => exact ih hm

/-- A glob matches the byte sequences that it stands for. -/
theorem describes_iff {g : Glob} {w : List UInt8} : g.describes w = true ↔ g.Denotes w := by
  have hmoves := g.moves_advance (w := w) (m := atStart w.length) (by simp [atStart])
  have hlast : (g.advance w (atStart w.length)).getLastD false = true ↔
      (g.advance w (atStart w.length))[w.length]? = some true := by
    rw [List.getLastD_eq_getLast?, List.getLast?_eq_getElem?, hmoves.length, Nat.add_sub_cancel]
    cases (g.advance w (atStart w.length))[w.length]? <;> simp
  rw [describes, hlast, hmoves.marked]
  constructor
  · rintro ⟨x, u, y, hw, hx, hu, hlength⟩
    -- The only mark at first stands before the first byte.
    obtain rfl : x = [] := by
      cases x with
      | nil => rfl
      | cons b x =>
        rw [atStart, List.length_cons, List.getElem?_cons_succ] at hx
        exact nomatch List.eq_of_mem_replicate (List.mem_of_getElem? hx)
    obtain rfl : y = [] := by
      rw [hw] at hlength
      simpa using hlength
    rwa [hw, List.nil_append, List.append_nil]
  · exact fun hw => ⟨[], w, [], by simp, rfl, hw, rfl⟩

end Glob

end DotProperties
