import Mathlib.Data.List.Basic
import Mathlib.Util.Superscript
import DotProperties.Catalog.Basic

/-!
# Lookups in a catalog

A catalog is made from entries some of which are dropped, but its lookups answer as a search
through all the entries would, one after the other (`Catalog.Searches`). An entry is only dropped
if it has no name, and then no search stops at it, or if an entry before it has the same name, and
then every search that stops at it stops before (`find?_firstByName`).

An `Index` finds entries without a search. It has a row of the properties that are kept, a table
from their names to their numbers in the row, and the numbers of those that are patterns. The three
fit together after every entry (`Index.Coherent.add`), whatever was dropped before it. So an index
and a catalog of the same entries have the same answers (`Catalog.ofEntries_searches`).
-/

namespace DotProperties

/-! ## Entries that are kept -/

/-- The entries that have a name which no entry before them has. -/
def firstsOf {α : Type} (name : α → Text) (l : List α) : List α :=
  (List.range l.length).filterMap fun i =>
    l[i]?.filter fun a => name a ≠ [] ∧ name a ∉ (l.take i).map name

section

variable {α : Type} {name : α → Text} {seen : List Text} {l : List α}

theorem firstByName_cons_of_dropped {a : α} (h : name a = [] ∨ name a ∈ seen) :
    firstByName name seen (a :: l) = firstByName name seen l := by
  rw [firstByName, if_pos (by simpa using h)]

theorem firstByName_cons_of_kept {a : α} (h : ¬(name a = [] ∨ name a ∈ seen)) :
    firstByName name seen (a :: l) = a :: firstByName name (name a :: seen) l := by
  rw [firstByName, if_neg (by simpa using h)]

/-- It does not matter in which order the names were seen. -/
theorem firstByName_congr {seen' : List Text} (h : ∀ t, t ∈ seen ↔ t ∈ seen') :
    firstByName name seen l = firstByName name seen' l := by
  induction l generalizing seen seen' with
  | nil => rfl
  | cons a l ih =>
    have hdropped : (name a = [] ∨ name a ∈ seen) ↔ (name a = [] ∨ name a ∈ seen') :=
      or_congr_right (h (name a))
    by_cases ha : name a = [] ∨ name a ∈ seen
    · rw [firstByName_cons_of_dropped ha, firstByName_cons_of_dropped (hdropped.mp ha), ih h]
    · have hcons : ∀ t, t ∈ name a :: seen ↔ t ∈ name a :: seen' := fun t => by
        rw [List.mem_cons, List.mem_cons, h t]
      rw [firstByName_cons_of_kept ha, firstByName_cons_of_kept (mt hdropped.mpr ha), ih hcons]

/-- The entries that are kept are those with a name which was not seen and which no entry before
them has. -/
theorem firstByName_eq (name : α → Text) (seen : List Text) (l : List α) :
    firstByName name seen l = (List.range l.length).filterMap fun i =>
      l[i]?.filter fun a => name a ≠ [] ∧ name a ∉ seen ++ (l.take i).map name := by
  induction l generalizing seen with
  | nil => rfl
  | cons a l ih =>
    -- Behind `a` its name counts as seen, which it is anyway if `a` is dropped.
    have hrest {seen' : List Text} (h : ∀ t, t ≠ [] → (t ∈ seen' ↔ t ∈ seen ∨ t = name a)) :
        firstByName name seen' l = (List.range l.length).filterMap fun i =>
          l[i]?.filter fun x => name x ≠ [] ∧ name x ∉ seen ++ name a :: (l.take i).map name := by
      rw [ih]
      refine List.filterMap_congr fun i _ =>
        congrFun (congrArg Option.filter (funext fun x => ?_)) _
      refine decide_eq_decide.mpr (and_congr_right fun hnamed => not_congr ?_)
      rw [List.mem_append, List.mem_append, List.mem_cons, h _ hnamed, or_assoc]
    rw [List.length_cons, List.range_succ_eq_map, List.filterMap_cons, List.filterMap_map,
      List.getElem?_cons_zero, Option.filter_some, List.take_zero, List.map_nil, List.append_nil]
    by_cases ha : name a = [] ∨ name a ∈ seen
    · rw [firstByName_cons_of_dropped ha, if_neg (by simpa [or_iff_not_imp_left] using ha)]
      refine hrest fun t hnamed => ⟨Or.inl, ?_⟩
      rintro (hseen | rfl)
      · exact hseen
      · exact ha.resolve_left hnamed
    · rw [firstByName_cons_of_kept ha, if_pos (by simpa [or_iff_not_imp_left] using ha)]
      refine congrArg (a :: ·) (hrest fun t _ => ?_)
      rw [List.mem_cons, or_comm]

theorem firstByName_eq_firstsOf (name : α → Text) (l : List α) :
    firstByName name [] l = firstsOf name l := firstByName_eq name [] l

theorem name_ne_nil_of_mem_firstByName {a : α} (h : a ∈ firstByName name seen l) :
    name a ≠ [] := by
  rw [firstByName_eq] at h
  obtain ⟨i, -, hi⟩ := List.mem_filterMap.mp h
  have hkept := (Option.filter_eq_some_iff.mp hi).2
  exact (of_decide_eq_true hkept).1

/-- A search by name for names that were not seen finds what it finds among all entries. -/
theorem find?_firstByName (test : Text → Bool) (h : ∀ t, test t = true → t ≠ [] ∧ t ∉ seen) :
    (firstByName name seen l).find? (fun a => test (name a)) = l.find? fun a => test (name a) := by
  induction l generalizing seen with
  | nil => rfl
  | cons a l ih =>
    by_cases ha : name a = [] ∨ name a ∈ seen
    · have hfails : test (name a) = false := by
        refine Bool.eq_false_iff.mpr fun htest => ?_
        obtain ⟨hnamed, hnew⟩ := h (name a) htest
        exact ha.elim hnamed hnew
      rw [firstByName_cons_of_dropped ha, List.find?_cons_of_neg (by simp [hfails]), ih h]
    · rw [firstByName_cons_of_kept ha, List.find?_cons, List.find?_cons]
      cases htest : test (name a) with
      | true => rfl
      | false =>
        refine ih fun t ht => ⟨(h t ht).1, ?_⟩
        rw [List.mem_cons, not_or]
        refine ⟨?_, (h t ht).2⟩
        rintro rfl
        exact Bool.noConfusion (htest.symm.trans ht)

/-- The entry of a name is the first one that has it. -/
theorem find?_name_firstByName (name : α → Text) (l : List α) (key : Text) :
    (firstByName name [] l).find? (fun a => name a == key) =
      if key = [] then none else l.find? fun a => name a == key := by
  split_ifs with hkey
  · subst hkey
    refine List.find?_eq_none.mpr fun a ha => ?_
    simpa using name_ne_nil_of_mem_firstByName ha
  · refine find?_firstByName (· == key) fun t ht => ?_
    rw [beq_iff_eq] at ht
    exact ⟨ht ▸ hkey, List.not_mem_nil⟩

end

/-! ## Searches -/

/-- A search through entries, one after the other : the first one of that very name, or else the
first pattern that matches the name. Without a name there is nothing. -/
def search (ps : List KnownProperty) (name : Text) : Option KnownProperty :=
  if name = [] then none
  else
    (ps.find? fun p => p.name == name).or
      (ps.find? fun p => p.isPattern && p.name.matchesPattern name)

/-- The lookups answer as a search through the entries does. -/
structure Catalog.Searches (ps : List KnownProperty) (hs : List Hint)
    (properties : List KnownProperty) (find? : Text → Option KnownProperty)
    (hint? : Text → Option Hint) : Prop where
  /-- The properties are the entries without those that have no name or repeat one. -/
  properties_eq : properties = firstsOf KnownProperty.name ps
  /-- A name stands for the property that a search finds. -/
  find?_eq : ∀ name, find? name = search ps name
  /-- A hint is the first of its name. -/
  hint?_eq : ∀ name, hint? name = if name = [] then none else hs.find? fun h => h.name == name

/-- A search through the entries that are kept finds what one through all of them finds. -/
theorem search_firstByName (ps : List KnownProperty) (name : Text) :
    search (firstByName KnownProperty.name [] ps) name = search ps name := by
  have hpattern : (firstByName KnownProperty.name [] ps).find?
      (fun p => p.isPattern && p.name.matchesPattern name) =
        ps.find? fun p => p.isPattern && p.name.matchesPattern name := by
    refine find?_firstByName (fun t => t.hasPlaceholder && t.matchesPattern name)
      fun t ht => ⟨?_, List.not_mem_nil⟩
    rintro rfl
    exact Bool.noConfusion ht
  rw [search, search, find?_name_firstByName, hpattern]
  split_ifs <;> rfl

theorem Catalog.find?_eq_search (c : Catalog) (name : Text) :
    c.find? name = search c.properties name := by
  simp only [Catalog.find?, search, List.isEmpty_iff, Option.orElse_eq_orElse, Option.orElse_eq_or]

/-! ## Indexes -/

-- The hash of a character, and so of a name, is that of `Mathlib.Util.Superscript`.
/-- The entries of a catalog, with what it takes to find them without a search. -/
structure Index where
  /-- The properties that are kept, in order. -/
  properties : Array KnownProperty := #[]
  /-- Their numbers, by name. -/
  byName : Std.HashMap Text Nat := ∅
  /-- The numbers of those that are patterns, in order. -/
  patterns : Array Nat := #[]
  /-- The hints that are kept, by name. -/
  hints : Std.HashMap Text Hint := ∅

namespace Index

/-- Take in a property, unless it has no name or one that is taken. -/
def add (x : Index) (p : KnownProperty) : Index :=
  if p.name.isEmpty || x.byName.contains p.name then x
  else
    { x with
      properties := x.properties.push p
      byName := x.byName.insert p.name x.properties.size
      patterns := if p.isPattern then x.patterns.push x.properties.size else x.patterns }

/-- Take in a hint, unless it has no name or one that is taken. -/
def addHint (hints : Std.HashMap Text Hint) (h : Hint) : Std.HashMap Text Hint :=
  if h.name.isEmpty then hints else hints.insertIfNew h.name h

/-- The index of the named entries, the first of each name. -/
def ofEntries (ps : List KnownProperty) (hs : List Hint) : Index :=
  { ps.foldl add {} with hints := hs.foldl addHint ∅ }

/-- The property that a name stands for. -/
def find? (x : Index) (name : Text) : Option KnownProperty :=
  if name.isEmpty then none
  else
    match x.byName[name]? with
    | some i => x.properties[i]?
    | none => x.patterns.toList.findSome? fun i =>
      x.properties[i]?.filter fun p => p.name.matchesPattern name

/-- The hint of a name. -/
def hint? (x : Index) (name : Text) : Option Hint := x.hints[name]?

/-- The parts of an index fit together. -/
structure Coherent (x : Index) : Prop where
  /-- A name leads to the first property that has it. -/
  byName : ∀ name, x.byName[name]? = x.properties.toList.findIdx? fun p => p.name == name
  /-- The patterns among the properties are those that have their numbers listed. -/
  patterns : x.patterns.toList.map (x.properties[·]?) =
    (x.properties.toList.filter KnownProperty.isPattern).map some

namespace Coherent

variable {x : Index} (hx : x.Coherent)
include hx

theorem contains_iff (name : Text) :
    x.byName.contains name = true ↔ name ∈ x.properties.toList.map KnownProperty.name := by
  rw [Std.HashMap.contains_eq_isSome_getElem?, hx.byName, List.findIdx?_isSome, List.any_eq_true,
    List.mem_map]
  simp only [beq_iff_eq]

/-- The numbers of patterns stay what they are with one more property. -/
theorem map_push (p : KnownProperty) : x.patterns.toList.map ((x.properties.push p)[·]?) =
    (x.properties.toList.filter KnownProperty.isPattern).map some := by
  rw [← hx.patterns]
  refine List.map_congr_left fun i hi => ?_
  have hmem : x.properties[i]? ∈ (x.properties.toList.filter KnownProperty.isPattern).map some := by
    rw [← hx.patterns]
    exact List.mem_map_of_mem hi
  obtain ⟨q, -, hq⟩ := List.mem_map.mp hmem
  obtain ⟨hlt, -⟩ := Array.getElem?_eq_some_iff.mp hq.symm
  rw [Array.getElem?_push, if_neg (Nat.ne_of_lt hlt)]

/-- The parts still fit together with one more property. -/
theorem add (p : KnownProperty) : (x.add p).Coherent := by
  by_cases hdropped : (p.name.isEmpty || x.byName.contains p.name) = true
  · rw [Index.add, if_pos hdropped]
    exact hx
  rw [Index.add, if_neg hdropped]
  rw [Bool.or_eq_true, not_or, hx.contains_iff] at hdropped
  have hnew : ∀ q ∈ x.properties.toList, (q.name == p.name) = false := fun q hq =>
    beq_eq_false_iff_ne.mpr fun heq => hdropped.2 (heq ▸ List.mem_map_of_mem hq)
  refine ⟨fun name => ?_, ?_⟩
  · dsimp only
    rw [Std.HashMap.getElem?_insert, Array.toList_push, List.findIdx?_append, hx.byName]
    by_cases hname : p.name = name
    · subst hname
      rw [List.findIdx?_eq_none_iff.mpr hnew]
      simp
    · simp [hname]
  · dsimp only
    rw [Array.toList_push, List.filter_append, List.map_append, ← hx.map_push p]
    cases hpattern : p.isPattern <;> simp [hpattern]

/-- An index finds what a search through its properties finds. -/
theorem find?_eq (name : Text) : x.find? name = search x.properties.toList name := by
  have hpatterns : (x.patterns.toList.findSome? fun i =>
      x.properties[i]?.filter fun p => p.name.matchesPattern name) =
        x.properties.toList.find? fun p => p.isPattern && p.name.matchesPattern name := by
    calc _ = (x.patterns.toList.map (x.properties[·]?)).findSome?
          (Option.filter fun p => p.name.matchesPattern name) := List.findSome?_map.symm
      _ = (x.properties.toList.filter KnownProperty.isPattern).findSome?
          (Option.guard fun p => p.name.matchesPattern name) := by
        rw [hx.patterns, List.findSome?_map]
        rfl
      _ = _ := by
        rw [List.findSome?_guard, List.find?_filter]
        simp only [Bool.decide_and, Bool.decide_eq_true]
  have hexact : x.properties.toList.find? (fun p => p.name == name) =
      (x.properties.toList.findIdx? fun p => p.name == name).bind (x.properties.toList[·]?) :=
    List.find?_eq_bind_findIdx?_getElem?
  by_cases hname : name = []
  · rw [find?, search, if_pos (List.isEmpty_iff.mpr hname), if_pos hname]
  · rw [find?, search, if_neg (mt List.isEmpty_iff.mp hname), if_neg hname, hx.byName, hpatterns,
      hexact]
    cases hfound : x.properties.toList.findIdx? fun p => p.name == name with
    | none => rfl
    | some i =>
      obtain ⟨hlt, -⟩ := List.findIdx?_eq_some_iff_getElem.mp hfound
      have hat : x.properties[i]? = some x.properties.toList[i] := by
        rw [← Array.getElem?_toList, List.getElem?_eq_getElem hlt]
      rw [Option.bind_some, List.getElem?_eq_getElem hlt, Option.some_or]
      exact hat

end Coherent

theorem coherent_empty : Coherent {} where
  byName _ := Std.HashMap.getElem?_empty
  patterns := rfl

/-- With all entries taken in, the parts of an index fit together, and it has kept the first entry
of each name. -/
theorem Coherent.foldl_add {x : Index} (hx : x.Coherent) (ps : List KnownProperty) :
    (ps.foldl Index.add x).Coherent ∧ (ps.foldl Index.add x).properties.toList =
      x.properties.toList ++
        firstByName KnownProperty.name (x.properties.toList.map KnownProperty.name) ps := by
  induction ps generalizing x with
  | nil => exact ⟨hx, (List.append_nil _).symm⟩
  | cons p ps ih =>
    obtain ⟨hcoherent, hproperties⟩ := ih (hx.add p)
    refine ⟨hcoherent, hproperties.trans ?_⟩
    have hdropped : (p.name.isEmpty || x.byName.contains p.name) = true ↔
        p.name = [] ∨ p.name ∈ x.properties.toList.map KnownProperty.name := by
      rw [Bool.or_eq_true, List.isEmpty_iff, hx.contains_iff]
    by_cases h : p.name = [] ∨ p.name ∈ x.properties.toList.map KnownProperty.name
    · rw [Index.add, if_pos (hdropped.mpr h), firstByName_cons_of_dropped h]
    · rw [Index.add, if_neg (mt hdropped.mp h), firstByName_cons_of_kept h, Array.toList_push,
        List.append_assoc, List.singleton_append]
      refine congrArg (_ ++ p :: ·) (firstByName_congr fun t => ?_)
      simp [or_comm]

/-- Of the hints with a name the first is kept. -/
theorem getElem?_foldl_addHint (hints : Std.HashMap Text Hint) (hs : List Hint) (name : Text) :
    (hs.foldl addHint hints)[name]? =
      hints[name]?.or (if name = [] then none else hs.find? fun h => h.name == name) := by
  induction hs generalizing hints with
  | nil => simp
  | cons h hs ih =>
    rw [List.foldl_cons, ih, addHint, List.find?_cons]
    by_cases heq : h.name = name
    · subst heq
      by_cases hempty : h.name = []
      · rw [if_pos (List.isEmpty_iff.mpr hempty), if_pos hempty, if_pos hempty]
      · rw [if_neg (mt List.isEmpty_iff.mp hempty), if_neg hempty, if_neg hempty,
          Std.HashMap.getElem?_insertIfNew]
        cases hfound : hints[h.name]? <;>
          simp [Std.HashMap.mem_iff_isSome_getElem?, hfound]
    · have hother : (if h.name.isEmpty then hints else hints.insertIfNew h.name h)[name]? =
          hints[name]? := by
        split_ifs
        · rfl
        · simp [Std.HashMap.getElem?_insertIfNew, heq]
      rw [hother, beq_eq_false_iff_ne.mpr heq]

end Index

/-- Whatever entries a catalog is made from, its lookups and those of an index answer as a search
through all of them does, and their properties are the entries without those that have no name or
repeat one. -/
theorem Catalog.ofEntries_searches (ps : List KnownProperty) (hs : List Hint) :
    Searches ps hs (ofEntries ps hs).properties (ofEntries ps hs).find? (ofEntries ps hs).hint? ∧
      Searches ps hs (Index.ofEntries ps hs).properties.toList (Index.ofEntries ps hs).find?
        (Index.ofEntries ps hs).hint? := by
  obtain ⟨hcoherent, hproperties⟩ := Index.coherent_empty.foldl_add ps
  refine ⟨⟨firstByName_eq_firstsOf _ ps, fun name => ?_, find?_name_firstByName Hint.name hs⟩,
    ⟨hproperties.trans (firstByName_eq_firstsOf _ ps), fun name => ?_, fun name => ?_⟩⟩
  · rw [find?_eq_search]
    exact search_firstByName ps name
  · have hfind : (Index.ofEntries ps hs).find? name = (ps.foldl Index.add {}).find? name := rfl
    rw [hfind, hcoherent.find?_eq, hproperties]
    exact search_firstByName ps name
  · rw [Index.hint?, Index.ofEntries, Index.getElem?_foldl_addHint, Std.HashMap.getElem?_empty,
      Option.none_or]

end DotProperties
