import DotProperties.Proofs.Document.Outline
import DotProperties.Proofs.Document.Ranges
import DotProperties.Proofs.Text.Joined

/-!
# Keys cut at their profile

A key that starts with a `%` is cut at its first dot. What stands before the dot is the profile,
taken as it is written; what stands behind it is the name, with continuations removed. The name of
the whole key has its continuations removed too, and it is put together from the two parts
(`Document.profile?_splits`) : a dot is neither blank nor a backslash, so no continuation goes
across it (`Text.join_append_cons`). A key without a dot is all profile and has no name.
-/

namespace DotProperties

namespace Text

/-- The offset `k` is that of the first dot in the span, or the end of the span if it has none. -/
structure FirstDot (t : Text) (s : Span) (k : Nat) : Prop where
  /-- It does not stand before the span. -/
  le : s.start ≤ k
  /-- No dot of the span stands before it. -/
  before : ∀ i, s.start ≤ i → i < k → t[i]? ≠ some '.'
  /-- It is the end of the span, or a dot stands there. -/
  stop_or_dot : k = s.stop ∨ k < s.stop ∧ t[k]? = some '.'

/-- The text in front of and behind a span. -/
theorem exists_append_slice {t : Text} {s : Span} (h : s.start ≤ s.stop) (h' : s.stop ≤ t.length) :
    ∃ x z, t = x ++ (t.slice s ++ z) ∧ x.length = s.start ∧
      s.stop = s.start + (t.slice s).length := by
  obtain ⟨x, y, z, ht, hx, hy⟩ := exists_split h h'
  have hslice : t.slice s = y := by
    have hspan : s = ⟨s.start, s.start + y.length⟩ := by rw [← hx, hy, hx]
    rw [hspan]
    exact slice_of_eq ht hx.symm
  exact ⟨x, z, by rw [hslice, ht], hx, by rw [hslice, ← hy, hx]⟩

/-- The first dot of a span whose text has no dot in `w`, and then a dot or nothing. -/
theorem firstDot_of_slice {t w rest : Text} {s : Span} (h : s.start ≤ s.stop)
    (h' : s.stop ≤ t.length) (hslice : t.slice s = w ++ rest) (hw : '.' ∉ w)
    (hrest : rest = [] ∨ rest.head? = some '.') :
    t.FirstDot s (s.start + w.length) ∧ t.slice ⟨s.start, s.start + w.length⟩ = w := by
  obtain ⟨x, z, ht, hx, hstop⟩ := exists_append_slice h h'
  rw [hslice, List.append_assoc] at ht
  rw [hslice] at hstop
  have hat (j : Nat) : t[s.start + j]? = (w ++ (rest ++ z))[j]? := by
    rw [ht, ← hx, List.getElem?_append_right (Nat.le_add_right _ _), Nat.add_sub_cancel_left]
  refine ⟨⟨Nat.le_add_right _ _, fun i hi hlt hdot => hw ?_, ?_⟩, slice_of_eq ht hx.symm⟩
  · obtain ⟨j, rfl⟩ := Nat.exists_eq_add_of_le hi
    rw [hat, List.getElem?_append_left (by omega)] at hdot
    exact List.mem_of_getElem? hdot
  · rcases hrest with rfl | hdot
    · exact Or.inl (by rw [hstop, List.append_nil])
    · obtain ⟨rest, rfl⟩ := List.head?_eq_some_iff.mp hdot
      refine Or.inr ⟨?_, by simp [hat]⟩
      rw [hstop, List.length_append, List.length_cons]
      omega

/-- A key with a profile is cut at its first dot, if it has one. -/
theorem exists_of_profileLength? {key : Text} {n : Nat}
    (h : Document.profileLength? key = some n) : ∃ profile rest : Text, '.' ∉ profile ∧
      (rest = [] ∨ rest.head? = some '.') ∧ n = ('%' :: profile).length ∧
      key = '%' :: profile ++ rest := by
  obtain ⟨hhead, hn⟩ := Option.ite_none_right_eq_some.mp h
  obtain ⟨t, rfl⟩ := List.head?_eq_some_iff.mp hhead
  obtain rfl := Option.some.inj hn
  refine ⟨t.takeWhile (· != '.'), t.dropWhile (· != '.'), fun hdot => ?_, ?_, ?_, ?_⟩
  · exact absurd (List.all_eq_true.mp List.all_takeWhile '.' hdot) (by decide)
  · have hfirst := List.head?_dropWhile_not (· != '.') t
    cases hrest : t.dropWhile (· != '.') with
    | nil => exact Or.inl rfl
    | cons c rest =>
      rw [hrest] at hfirst
      obtain rfl : c = '.' := by simpa using hfirst
      exact Or.inr rfl
  · rw [List.takeWhile_cons_of_pos (by decide)]
  · rw [List.cons_append, List.takeWhile_append_dropWhile]

/-- The name of a key is what stands behind the first dot, if there is one. -/
theorem nameOf_profile {profile : Text} (h : '.' ∉ profile) (rest : Text) :
    nameOf ('%' :: profile) = none ∧ nameOf ('%' :: profile ++ '.' :: rest) = some rest.join := by
  have hskip : ∀ c ∈ '%' :: profile, (c != '.') = true := by
    refine List.forall_mem_cons.mpr ⟨by decide, fun c hc => ?_⟩
    exact bne_iff_ne.mpr fun hdot => h (hdot ▸ hc)
  constructor
  · rw [nameOf, if_pos (by rfl), List.dropWhile_eq_nil_iff.mpr hskip]
    rfl
  · rw [nameOf, if_pos (by rfl), List.dropWhile_append_of_pos hskip]
    rfl

/-- The logical text of a key that is cut at a dot is made up of those of its parts, and to remove
the continuations of the second part beforehand makes no difference. -/
theorem join_dot (x y : Text) : join (x ++ '.' :: y) = x.join ++ '.' :: y.join ∧
    join (x ++ '.' :: y) = join (x ++ '.' :: y.join) := by
  have hdot := join_append_cons (c := '.') (by decide) (by decide) x
  exact ⟨hdot y, by rw [hdot, hdot, join_join]⟩

end Text

namespace Document

/-- A key with a profile is cut at its first dot. The profile is what stands between the `%` and the
first dot, as it is written, and holds no dot. If the key has no dot, it has no name, and its
logical text is that of the `%` and the profile. Otherwise its logical text is that of the `%`, the
profile, the dot and the name. The offsets in the profile are those up to and including the dot, or
up to the end of the key. -/
theorem profile?_splits (b : Buffer) {p : Property} (hp : p ∈ (ofBuffer b).properties)
    {profile : Text} (h : (ofBuffer b).profile? p = some profile) :
    ∃ k, b.text.FirstDot p.key k ∧ b.text.slice ⟨p.key.start, k⟩ = '%' :: profile ∧
      '.' ∉ profile ∧
      (k = p.key.stop ∧ '.' ∉ (ofBuffer b).raw p.key ∧ (ofBuffer b).name? p = none ∧
          (ofBuffer b).fullName p = Text.join ('%' :: profile) ∨
        k < p.key.stop ∧ ∃ name, (ofBuffer b).name? p = some name ∧
          (ofBuffer b).fullName p = Text.join ('%' :: profile) ++ '.' :: name ∧
          (ofBuffer b).fullName p = Text.join ('%' :: profile ++ '.' :: name)) ∧
      ∀ o, (ofBuffer b).isInProfile p o = true ↔ o ≤ k := by
  have hbounds := Tree.bounds_key hp
  obtain ⟨n, hn, hprofile⟩ := Option.map_eq_some_iff.mp h
  obtain ⟨profile, rest, hdots, hrest, rfl, hkey⟩ := Text.exists_of_profileLength? hn
  rw [hkey, List.take_left] at hprofile
  obtain rfl := hprofile
  have hdots' : '.' ∉ '%' :: profile := by simpa using hdots
  have hraw : b.text.slice p.key = '%' :: profile ++ rest :=
    (raw_eq_slice (ofBuffer b) p.key).symm.trans hkey
  obtain ⟨-, -, -, -, hstop⟩ :=
    Text.exists_append_slice hbounds.ordered hbounds.stop.le_length
  rw [hraw, List.length_append] at hstop
  obtain ⟨hfirst, hslice⟩ := Text.firstDot_of_slice hbounds.ordered hbounds.stop.le_length hraw
    hdots' hrest
  refine ⟨p.key.start + ('%' :: profile).length, hfirst, hslice, hdots, ?_, fun o => ?_⟩
  · rw [name?_eq, fullName, logical, hkey]
    rcases hrest with rfl | hdot
    · rw [List.append_nil]
      exact Or.inl ⟨hstop.symm, hdots', (Text.nameOf_profile hdots []).1, rfl⟩
    · obtain ⟨rest, rfl⟩ := List.head?_eq_some_iff.mp hdot
      obtain ⟨hparts, hagain⟩ := Text.join_dot ('%' :: profile) rest
      refine Or.inr ⟨?_, _, (Text.nameOf_profile hdots rest).2, hparts, hagain⟩
      have hpos : 0 < ('.' :: rest).length := Nat.succ_pos rest.length
      omega
  · rw [isInProfile, hn, Option.any_some, decide_eq_true_iff]

/-- A profile that is continued, and a name that starts behind a continuation. -/
theorem profile?_splits_continued :
    ∃ (b : Buffer) (p : Property),
      b.text = ['%', 'd', '\\', '\n', ' ', 'e', '.', '\\', '\r', '\n', 'n', '\\', '.', '=', 'x'] ∧
      p ∈ (ofBuffer b).properties ∧ p.key = ⟨0, 13⟩ ∧
      (ofBuffer b).profile? p = some ['d', '\\', '\n', ' ', 'e'] ∧
      (ofBuffer b).name? p = some ['n', '\\', '.'] ∧
      (ofBuffer b).fullName p = ['%', 'd', 'e', '.', 'n', '\\', '.'] ∧
      ∀ o, (ofBuffer b).isInProfile p o = true ↔ o ≤ 6 := by
  let b : Buffer :=
    ⟨"u", ['%', 'd', '\\', '\n', ' ', 'e', '.', '\\', '\r', '\n', 'n', '\\', '.', '=', 'x'], 1⟩
  let p : Property := ⟨⟨0, 15⟩, ⟨0, 13⟩, some ⟨13, some ⟨⟨14, 15⟩, [⟨.literal, 14, 15⟩]⟩⟩⟩
  have hp : p ∈ (ofBuffer b).properties := by decide
  have hprofile : (ofBuffer b).profile? p = some ['d', '\\', '\n', ' ', 'e'] := by decide
  obtain ⟨k, -, -, -, ⟨-, -, hnone, -⟩ | ⟨-, name, hname, hfull, -⟩, hin⟩ :=
    profile?_splits b hp hprofile
  · exact absurd hnone (by decide)
  · obtain rfl : name = ['n', '\\', '.'] := Option.some.inj (hname.symm.trans (by decide))
    have hdot : 6 ≤ k := (hin 6).mp (by decide)
    have hbehind : ¬7 ≤ k := mt (hin 7).mpr (by decide)
    obtain rfl : k = 6 := by omega
    exact ⟨b, p, rfl, hp, rfl, hprofile, hname, hfull, hin⟩

end Document

end DotProperties
