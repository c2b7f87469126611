import DotProperties.Glob.Basic
import Mathlib.Data.List.Chain

/-!
# Texts and their bytes

A byte that starts a character says where the bytes of a text may be cut : what stands before it
are the bytes of the characters before that one (`Text.exists_of_bytes_eq_append`). A character that
is written as one byte starts and ends with it, so this byte stands in the bytes of a text exactly
where the character stands in the text (`Text.bytes_eq_append_cons_iff`). What can be said of such
characters with places, neighbours and ends alone can thus be said of bytes as well.
-/

namespace DotProperties

namespace Text

theorem bytes_append (t u : Text) : (t ++ u).bytes = t.bytes ++ u.bytes := List.flatMap_append

theorem bytes_eq_nil_iff {t : Text} : t.bytes = [] ↔ t = [] := by
  cases t with
  | nil => exact iff_of_true rfl rfl
  | cons c t => simp [bytes, String.utf8EncodeChar_ne_nil]

/-- Bytes of a text that go on with the first byte of a character end with a character. -/
theorem exists_of_bytes_eq_append {t : Text} {u v : List UInt8} (h : t.bytes = u ++ v)
    (hv : ∀ b ∈ v.head?, b.IsUTF8FirstByte) :
    ∃ x y : Text, t = x ++ y ∧ x.bytes = u ∧ y.bytes = v := by
  induction t generalizing u with
  | nil =>
    obtain ⟨rfl, rfl⟩ := List.append_eq_nil_iff.mp h.symm
    exact ⟨[], [], rfl, rfl, rfl⟩
  | cons c t ih =>
    have hcons : String.utf8EncodeChar c ++ bytes t = u ++ v := h
    rcases List.append_eq_append_iff.mp hcons with ⟨w, rfl, hw⟩ | ⟨w, hw, rfl⟩
    · obtain ⟨x, y, rfl, hx, hy⟩ := ih hw
      refine ⟨c :: x, y, rfl, ?_, hy⟩
      rw [← hx]
      rfl
    · -- The cut would be inside `c`, where no byte is a first one.
      cases u with
      | nil => exact ⟨[], c :: t, rfl, rfl, by simpa using h⟩
      | cons b u =>
        cases w with
        | nil =>
          refine ⟨[c], t, rfl, ?_, rfl⟩
          simpa [bytes] using hw
        | cons d w =>
          have hlt : (b :: u).length < (String.utf8EncodeChar c).length := by
            rw [hw]
            simp
          have hbyte : (String.utf8EncodeChar c)[(b :: u).length] = d := by simp [hw]
          have hfirst := UInt8.isUTF8FirstByte_getElem_utf8EncodeChar.mp (hbyte ▸ hv d rfl)
          exact nomatch hfirst

theorem eq_of_encode_append_eq {c d : Char} {u v : List UInt8}
    (h : String.utf8EncodeChar c ++ u = String.utf8EncodeChar d ++ v) : c = d := by
  have hdecode := ByteArray.utf8DecodeChar?_utf8EncodeChar_append (c := c) (b := u.toByteArray)
  rw [← List.toByteArray_append, h, List.toByteArray_append,
    ByteArray.utf8DecodeChar?_utf8EncodeChar_append] at hdecode
  exact (Option.some.inj hdecode).symm

section Single

variable {c : Char} {b : UInt8} (hb : String.utf8EncodeChar c = [b]) {t : Text}
include hb

/-- The byte of a character stands where the character does. -/
theorem bytes_eq_append_cons_iff {u v : List UInt8} : t.bytes = u ++ b :: v ↔
    ∃ x y : Text, t = x ++ c :: y ∧ x.bytes = u ∧ y.bytes = v := by
  constructor
  · intro h
    have hfirst : b.IsUTF8FirstByte := by
      have hzero := UInt8.isUTF8FirstByte_getElem_zero_utf8EncodeChar (c := c)
      simpa [hb] using hzero
    obtain ⟨x, y, rfl, hx, hy⟩ := exists_of_bytes_eq_append h (by rintro _ ⟨⟩; exact hfirst)
    cases y with
    | nil => exact nomatch hy
    | cons d y =>
      have hd : String.utf8EncodeChar d ++ bytes y = String.utf8EncodeChar c ++ v := by
        rw [hb]
        exact hy
      obtain rfl := eq_of_encode_append_eq hd
      exact ⟨x, y, rfl, hx, List.append_cancel_left hd⟩
  · rintro ⟨x, y, rfl, rfl, rfl⟩
    have hcons : bytes (c :: y) = b :: bytes y := by
      simp [bytes, hb]
    rw [bytes_append, hcons]

theorem mem_bytes_iff : b ∈ t.bytes ↔ c ∈ t := by
  rw [List.mem_iff_append, List.mem_iff_append]
  constructor
  · rintro ⟨u, v, h⟩
    obtain ⟨x, y, ht, -⟩ := (bytes_eq_append_cons_iff hb).mp h
    exact ⟨x, y, ht⟩
  · rintro ⟨x, y, ht⟩
    exact ⟨bytes x, bytes y, (bytes_eq_append_cons_iff hb).mpr ⟨x, y, ht, rfl, rfl⟩⟩

theorem bytes_eq_cons_iff {v : List UInt8} :
    t.bytes = b :: v ↔ ∃ y : Text, t = c :: y ∧ y.bytes = v := by
  have hcut := bytes_eq_append_cons_iff hb (t := t) (u := []) (v := v)
  simpa [bytes_eq_nil_iff] using hcut

theorem bytes_eq_concat_iff {u : List UInt8} :
    t.bytes = u ++ [b] ↔ ∃ x : Text, t = x ++ [c] ∧ x.bytes = u := by
  have hcut := bytes_eq_append_cons_iff hb (t := t) (u := u) (v := [])
  simpa [bytes_eq_nil_iff] using hcut

theorem head?_bytes_iff : t.bytes.head? = some b ↔ t.head? = some c := by
  rw [List.head?_eq_some_iff, List.head?_eq_some_iff]
  simp only [bytes_eq_cons_iff hb]
  exact ⟨fun ⟨_, y, ht, _⟩ => ⟨y, ht⟩, fun ⟨y, ht⟩ => ⟨bytes y, y, ht, rfl⟩⟩

theorem getLast?_bytes_iff : t.bytes.getLast? = some b ↔ t.getLast? = some c := by
  rw [List.getLast?_eq_some_iff, List.getLast?_eq_some_iff]
  simp only [bytes_eq_concat_iff hb]
  exact ⟨fun ⟨_, x, ht, _⟩ => ⟨x, ht⟩, fun ⟨x, ht⟩ => ⟨bytes x, x, ht, rfl⟩⟩

/-- Each `c` of a text stands right behind a `d` if each byte of a `c` stands right behind that of a
`d`. -/
theorem isChain_bytes_iff {d : Char} {b' : UInt8} (hd : String.utf8EncodeChar d = [b']) :
    t.bytes.IsChain (fun x y => y = b → x = b') ↔ t.IsChain fun x y => y = c → x = d := by
  rw [List.isChain_iff_forall_rel_of_append_cons_cons,
    List.isChain_iff_forall_rel_of_append_cons_cons]
  constructor
  · intro h e c' x y ht hc
    subst hc ht
    have hlast : bytes [e] ≠ [] := mt bytes_eq_nil_iff.mp (List.cons_ne_nil _ _)
    obtain ⟨w, a, hw⟩ := (List.eq_nil_or_concat _).resolve_left hlast
    have hbytes : bytes (x ++ e :: c' :: y) = bytes x ++ w ++ a :: b :: bytes y := by
      have hsplit : x ++ e :: c' :: y = x ++ [e] ++ c' :: y := by simp
      rw [hsplit, (bytes_eq_append_cons_iff hb).mpr ⟨_, y, rfl, rfl, rfl⟩, bytes_append, hw]
      simp
    have ha := h hbytes rfl
    have hhead := (getLast?_bytes_iff hd (t := [e])).mp (by simp [hw, ha])
    simpa using hhead
  · intro h a b₁ u v hbytes hb₁
    subst hb₁
    have hsplit : t.bytes = (u ++ [a]) ++ b₁ :: v := by simpa using hbytes
    obtain ⟨x, y, rfl, hx, -⟩ := (bytes_eq_append_cons_iff hb).mp hsplit
    obtain ⟨w, e, rfl⟩ := (List.eq_nil_or_concat x).resolve_left (by rintro rfl; simp [bytes] at hx)
    have he := h (show w.concat e ++ c :: y = w ++ e :: c :: y by simp) rfl
    rw [List.concat_eq_append, bytes_append] at hx
    simpa [bytes, he, hd] using (congrArg List.getLast? hx).symm

end Single

end Text

end DotProperties
