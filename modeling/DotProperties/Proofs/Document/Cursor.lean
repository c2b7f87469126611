import DotProperties.Proofs.Document.Diagnosis

/-!
# The node at a cursor

A cursor stands between two characters, so it may touch the end of one node and the start of the
next. The lookup settles on one of them, for every offset of every text (`Document.finds`) : the
root answers where no item is near, and otherwise the first item near does, with its innermost
node.

Children stand in a row, so a cursor behind the first character of a child and not behind its last
touches no child before it (`firstTouching_of_row`). A lookup that follows such children down
arrives at the node it was sent for (`Node.find_of_descend?`). A property stops where its value
does, and fragments leave no gap in the value, so a value with fragments never answers itself
(`Fragment.Tile.exists_touches`).
-/

namespace DotProperties

/-! ## The path to what is found -/

theorem getElem?_of_firstTouching {α : Type} {span : α → Span} {o i : Nat} {xs : List α} {x : α}
    (h : firstTouching span o 0 xs = some (x, i)) : xs[i]? = some x := by
  obtain ⟨ys, zs, rfl, rfl, -, -⟩ := exists_of_firstTouching h
  simp

namespace Node

theorem descend?_findInValue (v : Value) (o : Nat) :
    (value v).descend? (findInValue v o).1 = some (findInValue v o).2 := by
  rw [findInValue]
  split
  · rename_i f i hfound
    simp [descend?, children, getElem?_of_firstTouching hfound]
  · rfl

theorem descend?_findInProperty (p : Property) (o : Nat) :
    (property p).descend? (findInProperty p o).1 = some (findInProperty p o).2 := by
  have hkey : (property p).descend? [0] = some (key p.key) := rfl
  rw [findInProperty]
  split_ifs
  · exact hkey
  · rcases p with ⟨s, k, _ | ⟨d, _ | v⟩⟩
    · exact hkey
    · rfl
    · dsimp only
      split_ifs
      · exact descend?_findInValue v o
      · rfl

/-- What is found in an item stands at the path that is found with it. -/
theorem descend?_findInItem (i : Item) (o : Nat) :
    i.node.descend? (findInItem i o).1 = some (findInItem i o).2 := by
  cases i with
  | comment s => rfl
  | property p => exact descend?_findInProperty p o

end Node

/-! ## Down to a node -/

/-- Behind the first character of a node in a row, and not behind its last, it is the first that
touches the offset. -/
theorem firstTouching_of_row {α : Type} {node : α → Node} {o i : Nat} {x : α} {lo hi k : Nat}
    {xs : List α} (hrow : Node.Row hi lo (xs.map node)) (hx : xs[i]? = some x)
    (hstart : (node x).span.start < o) (hstop : o ≤ (node x).span.stop) :
    firstTouching (fun y => (node y).span) o k xs = some (x, k + i) := by
  induction xs generalizing lo k i with
  | nil => exact nomatch hx
  | cons y xs ih =>
    obtain ⟨-, -, hrest⟩ := hrow
    rw [firstTouching]
    cases i with
    | zero =>
      obtain rfl := Option.some.inj hx
      rw [if_pos (Span.touches_iff.mpr ⟨Nat.le_of_lt hstart, hstop⟩), Nat.add_zero]
    | succ i =>
      have hmem : x ∈ xs := List.mem_of_getElem? hx
      have hbehind := (hrest.bounds _ (List.mem_map_of_mem hmem)).1
      have htouches : ¬(node y).span.touches o = true := by
        rw [Span.touches_iff]
        omega
      rw [if_neg htouches, ih hrest hx, Nat.add_right_comm, Nat.add_assoc]

namespace Node

theorem findInItem_eq (i : Item) (o : Nat) : findInItem i o = i.node.find o := by cases i <;> rfl

/-- Behind the first character of a child, and not behind its last, the child answers. A delimiter
leaves the place behind it to the value. -/
theorem find_of_child {n m : Node} {i o : Nat} (hrow : Row n.span.stop n.span.start n.children)
    (hm : n.children[i]? = some m) (hkind : m.kind ≠ .assign) (hstart : m.span.start < o)
    (hstop : o ≤ m.span.stop) : n.find o = (i :: (m.find o).1, (m.find o).2) := by
  cases n with
  | document t =>
    rw [children, List.getElem?_map] at hm
    obtain ⟨item, hitem, rfl⟩ := Option.map_eq_some_iff.mp hm
    have hfirst := firstTouching_of_row (k := 0) hrow hitem hstart hstop
    simp only [Item.span_node, Nat.zero_add] at hfirst
    rw [find, hfirst, ← findInItem_eq]
  | property p =>
    obtain ⟨s, k, assignment⟩ := p
    obtain ⟨-, -, hrest⟩ := hrow
    cases i with
    | zero =>
      obtain rfl := Option.some.inj hm
      exact if_pos hstop
    | succ i =>
      rcases assignment with _ | ⟨d, _ | v⟩
      · cases hm
      · obtain rfl := List.mem_singleton.mp (List.mem_of_getElem? hm)
        exact (hkind rfl).elim
      · rcases i with _ | _ | i
        · obtain rfl := Option.some.inj hm
          exact (hkind rfl).elim
        · obtain rfl := Option.some.inj hm
          have hbehind : k.stop ≤ v.span.start :=
            (hrest.bounds (value v) (by simp [Assignment.nodes])).1
          rw [find, findInProperty, if_neg (Nat.not_le.mpr (Nat.lt_of_le_of_lt hbehind hstart))]
          exact if_pos (Nat.le_of_lt hstart)
        · cases hm
  | value v =>
    rw [children, List.getElem?_map] at hm
    obtain ⟨f, hf, rfl⟩ := Option.map_eq_some_iff.mp hm
    have hfirst : firstTouching Fragment.span o 0 v.fragments = some (f, 0 + i) :=
      firstTouching_of_row hrow hf hstart hstop
    rw [find, findInValue, hfirst, Nat.zero_add]
    rfl
  | key | assign | fragment | comment => cases hm

/-- A step down a path, and the rest of it. -/
theorem descend?_cons_eq_some_iff {n m : Node} {i : Nat} {path : Path} :
    n.descend? (i :: path) = some m ↔
      ∃ child, n.children[i]? = some child ∧ child.descend? path = some m :=
  Option.bind_eq_some_iff

/-- A node lies in the nodes above it. -/
theorem within_of_descend? {length : Nat} {n m : Node} {path : Path}
    (hfits : ∀ k ∈ n.preorder, k.Fits length) (hm : n.descend? path = some m) :
    n.span.start ≤ m.span.start ∧ m.span.stop ≤ n.span.stop := by
  induction path generalizing n with
  | nil =>
    obtain rfl := Option.some.inj hm
    exact ⟨Nat.le_refl _, Nat.le_refl _⟩
  | cons i path ih =>
    obtain ⟨child, hchild, hm⟩ := descend?_cons_eq_some_iff.mp hm
    have hmem := List.mem_of_getElem? hchild
    have hrow := (hfits n (by simp [preorder])).children
    obtain ⟨hstart, -, hstop⟩ := hrow.bounds child hmem
    obtain ⟨hstart', hstop'⟩ := ih (fun k hk => hfits k (preorder_subset hmem hk)) hm
    exact ⟨Nat.le_trans hstart hstart', Nat.le_trans hstop' hstop⟩

/-- Behind the first character of a key, a comment or a fragment, and not behind its last, it is
what is found. -/
theorem find_of_descend? {length o : Nat} {n m : Node} {path : Path}
    (hfits : ∀ k ∈ n.preorder, k.Fits length) (hm : n.descend? path = some m)
    (hkind : m.kind ∈ [.key, .comment, .literal, .expression]) (hstart : m.span.start < o)
    (hstop : o ≤ m.span.stop) : n.find o = (path, m) := by
  induction path generalizing n with
  | nil =>
    obtain rfl := Option.some.inj hm
    cases n with
    | document | property | assign | value => simp [kind] at hkind
    | key | fragment | comment => rfl
  | cons i path ih =>
    obtain ⟨child, hchild, hm⟩ := descend?_cons_eq_some_iff.mp hm
    have hmem := List.mem_of_getElem? hchild
    have hbelow : ∀ k ∈ child.preorder, k.Fits length :=
      fun k hk => hfits k (preorder_subset hmem hk)
    obtain ⟨hle, hge⟩ := within_of_descend? hbelow hm
    -- There is nothing below a delimiter, and it is not what is looked for.
    have hassign : child.kind ≠ .assign := by
      cases child with
      | document | property | key | value | comment => simp [kind]
      | fragment f => obtain ⟨_ | _, s⟩ := f <;> simp [kind]
      | assign a =>
        cases path with
        | nil =>
          obtain rfl := Option.some.inj hm
          simp [kind] at hkind
        | cons => cases hm
    have hrow := (hfits n (by simp [preorder])).children
    rw [find_of_child hrow hchild hassign (Nat.lt_of_le_of_lt hle hstart)
      (Nat.le_trans hstop hge), ih hbelow hm]

end Node

/-! ## What is not found -/

/-- Where fragments leave no gap, one of them touches any offset among them. -/
theorem Fragment.Tile.exists_touches {stop o : Nat} :
    ∀ {start : Nat} {fs : List Fragment}, Tile stop start fs → fs ≠ [] → start ≤ o → o ≤ stop →
      ∃ f ∈ fs, f.span.touches o = true
  | start, f :: fs, htile, _, hstart, hstop => by
    obtain ⟨hfirst, hlt, hrest⟩ := htile
    by_cases ho : o ≤ f.span.stop
    · refine ⟨f, List.mem_cons_self, Span.touches_iff.mpr ⟨?_, ho⟩⟩
      rwa [hfirst]
    · have hne : fs ≠ [] := by
        rintro rfl
        exact ho (hrest ▸ hstop)
      obtain ⟨g, hg, htouches⟩ := hrest.exists_touches hne (Nat.le_of_not_le ho) hstop
      exact ⟨g, List.mem_cons_of_mem f hg, htouches⟩

namespace Node

theorem findInValue_cases (v : Value) (o : Nat) :
    (∃ f, (findInValue v o).2 = fragment f) ∨
      (findInValue v o).2 = value v ∧ ∀ f ∈ v.fragments, f.span.touches o = false := by
  rw [findInValue]
  split
  · exact Or.inl ⟨_, rfl⟩
  · rename_i hfirst
    exact Or.inr ⟨rfl, firstTouching_eq_none_iff.mp hfirst⟩

/-- What is found in a property is its key, its delimiter, a fragment, or a value of which no
fragment touches the offset. -/
theorem findInProperty_cases (p : Property) (o : Nat) :
    (findInProperty p o).2 = key p.key ∨ (∃ a, (findInProperty p o).2 = assign a) ∨
      (∃ f, (findInProperty p o).2 = fragment f) ∨
        ∃ v, (findInProperty p o).2 = value v ∧ p.value? = some v ∧ v.span.start ≤ o ∧
          ∀ f ∈ v.fragments, f.span.touches o = false := by
  rw [findInProperty]
  split_ifs
  · exact Or.inl rfl
  · rcases p with ⟨s, k, _ | ⟨d, _ | v⟩⟩
    · exact Or.inl rfl
    · exact Or.inr (Or.inl ⟨_, rfl⟩)
    · dsimp only
      split_ifs with hstart
      · rcases findInValue_cases v o with hfragment | ⟨hvalue, hfragments⟩
        · exact Or.inr (Or.inr (Or.inl hfragment))
        · exact Or.inr (Or.inr (Or.inr ⟨v, hvalue, rfl, hstart, hfragments⟩))
      · exact Or.inr (Or.inl ⟨_, rfl⟩)

theorem kind_findInItem_ne (i : Item) (o : Nat) : (findInItem i o).2.kind ≠ .property := by
  cases i with
  | comment s => exact nofun
  | property p =>
    rw [findInItem]
    rcases findInProperty_cases p o with h | ⟨a, h⟩ | ⟨⟨_ | _, s⟩, h⟩ | ⟨v, h, -⟩ <;> rw [h] <;>
      exact nofun

theorem exists_of_findInItem_value {i : Item} {o : Nat} {v : Value}
    (h : (findInItem i o).2 = value v) :
    ∃ p, i = .property p ∧ p.value? = some v ∧ v.span.start ≤ o ∧
      ∀ f ∈ v.fragments, f.span.touches o = false := by
  cases i with
  | comment s => exact nomatch h
  | property p =>
    rw [findInItem] at h
    rcases findInProperty_cases p o with hfound | ⟨a, hfound⟩ | ⟨f, hfound⟩ | ⟨w, hfound, hw⟩
    · exact nomatch h.symm.trans hfound
    · exact nomatch h.symm.trans hfound
    · exact nomatch h.symm.trans hfound
    · obtain rfl := value.inj (h.symm.trans hfound)
      exact ⟨p, rfl, hw⟩

end Node

/-! ## The answers of a tree -/

/-- The lookup at an offset gives the innermost node of the first item there. -/
structure Tree.Finds (t : Tree) (o : Nat) : Prop where
  /-- The root answers exactly where no item touches the offset. -/
  root : t.find o = ([], .document t) ↔ ∀ i ∈ t.items, i.span.touches o = false
  /-- The first item that touches the offset answers with a node in it. -/
  item : ∀ is i is', t.items = is ++ i :: is' → (∀ j ∈ is, j.span.touches o = false) →
    i.span.touches o = true →
      ∃ path, (t.find o).1 = is.length :: path ∧ i.node.descend? path = some (t.find o).2
  /-- A property leaves the answer to one of its parts. -/
  property : (t.find o).2.kind ≠ .property
  /-- A value leaves the answer to its fragments, if it has any. -/
  value : ∀ v, (t.find o).2 = .value v → v.fragments = []
  /-- A key, a comment or a fragment answers from behind its first character up to its end. -/
  leaf : ∀ path n, t.node? path = some n → n.kind ∈ [.key, .comment, .literal, .expression] →
    n.span.start < o → o ≤ n.span.stop → t.find o = (path, n)

namespace Tree

/-- No item answers, or the first one that touches the offset does. -/
theorem find_cases (t : Tree) (o : Nat) :
    (∀ i ∈ t.items, i.span.touches o = false) ∧ t.find o = ([], .document t) ∨
      ∃ is i is', t.items = is ++ i :: is' ∧ i.span.touches o = true ∧
        t.find o = (is.length :: (Node.findInItem i o).1, (Node.findInItem i o).2) := by
  cases hfirst : firstTouching Item.span o 0 t.items with
  | none =>
    refine Or.inl ⟨firstTouching_eq_none_iff.mp hfirst, ?_⟩
    rw [find, Node.find, hfirst]
  | some found =>
    obtain ⟨is, is', hitems, -, hbefore, htouches⟩ := exists_of_firstTouching hfirst
    exact Or.inr ⟨is, found.1, is', hitems, htouches, find_of_items hitems hbefore htouches⟩

end Tree

namespace Document

/-- A value that touches a place in its property leaves it to a fragment, if it has any. -/
theorem fragments_eq_nil {b : Buffer} {p : Property} {v : Value} {o : Nat}
    (hp : .property p ∈ (ofBuffer b).tree.items) (hv : p.value? = some v)
    (hstart : v.span.start ≤ o) (hstop : o ≤ p.span.stop)
    (hnone : ∀ f ∈ v.fragments, f.span.touches o = false) : v.fragments = [] := by
  by_contra hne
  rw [← Tree.stop_value hp hv] at hstop
  obtain ⟨f, hf, htouches⟩ := (Tree.tiled_value hp hv).tile.exists_touches hne hstart hstop
  exact Bool.false_ne_true ((hnone f hf).symm.trans htouches)

/-- For every text and offset, the lookup gives the innermost node there. -/
theorem finds (b : Buffer) (o : Nat) : (ofBuffer b).tree.Finds o where
  root := by
    constructor
    · intro hroot
      rcases (ofBuffer b).tree.find_cases o with ⟨hnone, -⟩ | ⟨is, i, is', -, -, hfind⟩
      · exact hnone
      · cases hroot.symm.trans hfind
    · intro hnone
      rw [Tree.find, Node.find, firstTouching_eq_none_iff.mpr hnone]
  item is i is' hitems hbefore htouches := by
    rw [Tree.find_of_items hitems hbefore htouches]
    exact ⟨_, rfl, Node.descend?_findInItem i o⟩
  property := by
    rcases (ofBuffer b).tree.find_cases o with ⟨-, hfind⟩ | ⟨is, i, is', -, -, hfind⟩
    · rw [hfind]
      simp [Node.kind]
    · rw [hfind]
      exact Node.kind_findInItem_ne i o
  value v hv := by
    rcases (ofBuffer b).tree.find_cases o with ⟨-, hfind⟩ | ⟨is, i, is', hitems, htouches, hfind⟩
    · rw [hfind] at hv
      cases hv
    · rw [hfind] at hv
      obtain ⟨p, rfl, hvalue, hstart, hnone⟩ := Node.exists_of_findInItem_value hv
      have hp : .property p ∈ (ofBuffer b).tree.items := by simp [hitems]
      exact fragments_eq_nil hp hvalue hstart (Span.touches_iff.mp htouches).2 hnone
  leaf path n hn hkind hstart hstop :=
    Node.find_of_descend? (Tree.fits_ofText b.text) hn hkind hstart hstop

/-- Where a key meets its delimiter the key answers, and where the delimiter meets the value the
value does. -/
example : (ofBuffer ⟨"u", ['a', '=', 'b'], 1⟩).tree.find 1 = ([0, 0], .key ⟨0, 1⟩) ∧
    (ofBuffer ⟨"u", ['a', '=', 'b'], 1⟩).tree.find 2 =
      ([0, 2, 0], .fragment ⟨.literal, 2, 3⟩) := by decide

end Document

end DotProperties
