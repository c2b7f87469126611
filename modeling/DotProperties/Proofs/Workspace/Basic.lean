import DotProperties.Workspace.Flight
import DotProperties.Proofs.Cancellation
import DotProperties.Proofs.Workspace.Entry
import Mathlib.Data.List.Sort

/-!
# Requests that do not overlap

A workspace is a map from names to documents : `Workspace.entry?_insert` and
`Workspace.entry?_erase` say what a name leads to after a document is put in or taken out, and
`Workspace.uris_eq_of_mem_iff` that the names come in their order.

A parse that nobody disturbs reads the buffer under the asker's checker alone
(`Workspace.parse_of_undisturbed`) : the document is neither closed nor at another version,
so every poll is the asker's to answer.
-/

namespace DotProperties

/-! ## Reading a buffer -/

namespace Document

variable {σ τ : Type}

theorem eq_ofBuffer_of_read {check : Checker σ} {s : σ} {b : Buffer} {d : Document}
    (h : (read check s b).1 = some d) : d = .ofBuffer b := by
  simp only [read] at h
  split at h
  next hc => cases h
  next hc =>
    obtain rfl := Option.some.inj h
    rw [Step.run_results (Bool.eq_false_of_not_eq_true hc)]
    rfl

theorem read_of_never {check : Checker σ} (h : ∀ s, (check s).1 = false) (s : σ) (b : Buffer) :
    (read check s b).1 = some (.ofBuffer b) := by
  have hc := Step.run_of_never h s (Event.scan b.text)
  simp only [read, hc, Step.run_results hc]
  rfl

theorem read_map {check : Checker σ} {check' : Checker τ} {g : τ → σ}
    (h : ∀ t, check (g t) = ((check' t).1, g (check' t).2)) (t : τ) (b : Buffer) :
    read check (g t) b = ((read check' t b).1, g (read check' t b).2) := by
  simp only [read, Step.run_map h t]
  rfl

end Document

namespace Workspace

variable {w : Workspace} {uri uri' : String} {e : Entry}

/-! ## Documents by name -/

theorem lookup_filter_ne (uri uri' : String) : ∀ entries : List (String × Entry),
    (entries.filter fun e => e.1 != uri).lookup uri' =
      if uri' = uri then none else entries.lookup uri'
  | [] => by simp
  | (name, e) :: entries => by
    have ih := lookup_filter_ne uri uri' entries
    rcases eq_or_ne name uri with rfl | hne
    · rw [List.filter_cons_of_neg (by simp), ih]
      split
      next => rfl
      next h => rw [List.lookup_cons, beq_false_of_ne h]
    · rw [List.filter_cons_of_pos (by simpa using hne), List.lookup_cons, List.lookup_cons, ih]
      split
      next h => rw [if_neg (by rintro rfl; exact hne (eq_of_beq h).symm)]
      next => rfl

theorem entry?_erase (w : Workspace) (uri uri' : String) :
    Workspace.entry? (w.erase uri) uri' = if uri' = uri then none else w.entry? uri' :=
  lookup_filter_ne uri uri' w.entries

theorem entry?_insert (w : Workspace) (uri : String) (e : Entry) (uri' : String) :
    Workspace.entry? (w.insert uri e) uri' = if uri' = uri then some e else w.entry? uri' := by
  have herase := w.entry?_erase uri uri'
  unfold entry? insert
  rw [List.lookup_cons]
  rcases eq_or_ne uri' uri with rfl | hne
  · rw [beq_self_eq_true, if_pos rfl]
  · rw [beq_false_of_ne hne, if_neg hne]
    rw [if_neg hne] at herase
    exact herase

theorem revise_of_unknown (h : w.entry? uri = none) (version : Int) (r : Revision) :
    w.revise uri version r = (.error (.unknownDocument uri), w) := by
  simp only [revise, entry, h]

theorem revise_of_some (h : w.entry? uri = some e) (version : Int) (r : Revision) :
    w.revise uri version r = ((e.revise version r).1, w.insert uri (e.revise version r).2) := by
  simp only [revise, entry, h]

/-! ## Names -/

/-- Each name stands once. -/
def Distinct (w : Workspace) : Prop := (w.entries.map Prod.fst).Nodup

theorem distinct_empty : empty.Distinct := List.nodup_nil

theorem Distinct.erase (h : w.Distinct) (uri : String) : (w.erase uri).Distinct :=
  h.sublist (List.filter_sublist.map Prod.fst)

theorem Distinct.insert (h : w.Distinct) (uri : String) (e : Entry) :
    (w.insert uri e).Distinct := by
  refine List.nodup_cons.mpr ⟨?_, h.erase uri⟩
  simp [Workspace.erase]

theorem mem_names_iff : uri ∈ w.entries.map Prod.fst ↔ (w.entry? uri).isSome := by
  unfold entry?
  generalize w.entries = entries
  induction entries with
  | nil => simp
  | cons entry entries ih =>
    obtain ⟨name, e⟩ := entry
    rw [List.map_cons, List.mem_cons, ih, List.lookup_cons]
    rcases eq_or_ne uri name with rfl | hne
    · simp
    · simp [hne, beq_false_of_ne hne]

/-- Names in order that are those of the open documents are their names in order. -/
theorem uris_eq_of_mem_iff (h : w.Distinct) {names : List String}
    (hnames : names.Pairwise (· < ·)) (hmem : ∀ uri, uri ∈ names ↔ (w.entry? uri).isSome) :
    w.uris = names := by
  have hnodup : names.Nodup := by
    refine hnames.imp ?_
    rintro a b hlt rfl
    exact String.lt_irrefl a hlt
  have hperm : (w.entries.map Prod.fst).Perm names :=
    (List.perm_ext_iff_of_nodup h hnodup).mpr fun uri => by rw [mem_names_iff, hmem]
  have hsorted : w.uris.Pairwise (· ≤ ·) := by
    refine (List.pairwise_mergeSort ?_ ?_ _).imp fun hle => of_decide_eq_true hle
    · intro a b c hab hbc
      exact decide_eq_true (String.le_trans (of_decide_eq_true hab) (of_decide_eq_true hbc))
    · intro a b
      simpa using String.le_total a b
  exact ((List.mergeSort_perm _ _).trans hperm).eq_of_pairwise
    (fun a b _ _ => String.le_antisymm) hsorted
    (hnames.imp fun hlt => String.not_lt.mp (String.lt_asymm hlt))

/-! ## Asking for the parsed form -/

theorem retrieve_of_unknown (h : w.entry? uri = none) (a : Asker) :
    w.retrieve uri a = { answer := .error (.unknownDocument uri), workspace := w } := by
  simp only [retrieve, entry, h]

theorem retrieve_of_parsed {p : Parsed} (h : w.entry? uri = some e) (hp : e.parsed = some p)
    (a : Asker) : w.retrieve uri a = { answer := .ok p, workspace := w } := by
  simp only [retrieve, entry, h, hp]

theorem retrieve_of_unparsed (h : w.entry? uri = some e) (hp : e.parsed = none) (a : Asker) :
    w.retrieve uri a = w.parse uri e a := by
  simp only [retrieve, entry, h, hp]

/-- A parse that nothing but the answers of the asker can end. -/
theorem parse_of_undisturbed (hclosed : e.closed = false)
    (hversion : e.published = e.buffer.version) (answers : Nat → Bool) :
    w.parse uri e { answers := answers } =
      match Document.read (.answering answers) 0 e.buffer with
      | (some d, polls) =>
        { answer := .ok ⟨w.parses, d⟩
          polls := polls
          workspace :=
            { w with parses := w.parses + 1 }.insert uri { e with parsed := some ⟨w.parses, d⟩ } }
      | (none, polls) => { answer := .error .cancelled, polls := polls, workspace := w } := by
  have hcheck : ∀ polls : Nat,
      Asker.check { answers := answers } e.buffer.version ⟨w, uri, e, true, [], polls, []⟩ =
        ((Checker.answering answers polls).1,
          ⟨w, uri, e, true, [], (Checker.answering answers polls).2, []⟩) := by
    intro polls
    simp [Asker.check, Entry.isOutdated, hclosed, hversion, Checker.answering]
  have hread := Document.read_map hcheck 0 e.buffer
  rw [parse, hread]
  rcases Document.read (Checker.answering answers) 0 e.buffer with ⟨_ | d, polls⟩
  · rfl
  · rfl

end Workspace

end DotProperties
