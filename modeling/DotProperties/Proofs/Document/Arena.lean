import DotProperties.Document.Basic
import DotProperties.Proofs.Cancellation
import DotProperties.Proofs.Document.Order

/-!
# Arenas

An `Arena` keeps the nodes of a document in a row of cells. A cell has the number of its parent
and those of its children, and a stack tells which cells are still open. `Arena.ofEvents` builds
the row event by event : what starts becomes a new cell and a child of the innermost open one,
and what stops closes that one.

The marks of a node add one cell for the node and each node below it, in preorder, and leave open
what was open before (`Arena.foldl_marks`). The events of a text are the marks around the nodes of
its tree, so that its arena is the tree, numbered in preorder (`Arena.ofEvents_ofText`). All that
is known of the places of nodes then holds of cells (`Arena.WellFormed`).
-/

namespace DotProperties

open Event

/-- The node that a construct is. -/
def Construct.kind : Construct → NodeKind
  | document => .document
  | property => .property
  | key => .key
  | value => .value
  | literal => .literal
  | expression => .expression
  | comment => .comment

/-- A node of an arena. -/
structure Cell where
  /-- What it is. -/
  kind : NodeKind
  /-- Where it starts. -/
  start : Nat
  /-- Where it stops, once it is closed. -/
  stop : Option Nat
  /-- The number of its parent. The root has none. -/
  parent : Option Nat
  /-- The numbers of its children, in order. -/
  children : List Nat
  deriving DecidableEq

/-- The nodes of a document under construction. -/
structure Arena where
  /-- The cells, by their number. -/
  cells : List Cell := []
  /-- The numbers of the cells that are open, innermost first. -/
  opened : List Nat := []
  deriving DecidableEq

namespace Arena

/-- The cells, with `j` as one more child of the innermost open one. -/
def linked (a : Arena) (j : Nat) : List Cell :=
  match a.opened with
  | [] => a.cells
  | i :: _ => a.cells.modify i fun c => { c with children := c.children ++ [j] }

/-- Add a cell below the innermost open one. -/
def push (a : Arena) (kind : NodeKind) (start : Nat) (stop : Option Nat) : Arena :=
  { a with cells := a.linked a.cells.length ++ [⟨kind, start, stop, a.opened.head?, []⟩] }

/-- Add a cell and leave it open. -/
def enter (a : Arena) (kind : NodeKind) (start : Nat) : Arena :=
  { a.push kind start none with opened := a.cells.length :: a.opened }

/-- Close the innermost open cell, if it is of this kind. -/
def leave (a : Arena) (kind : NodeKind) (stop : Nat) : Arena :=
  match a.opened with
  | [] => a
  | i :: opened =>
    if a.cells[i]?.any fun c => c.kind = kind then
      ⟨a.cells.modify i fun c => { c with stop := some stop }, opened⟩
    else a

/-- Take in one event. -/
def add (a : Arena) : Event → Arena
  | .start c o => a.enter c.kind o
  | .stop c o => a.leave c.kind o
  | .assign o => a.push .assign o (some (o + 1))
  | .blankLine _ | .invalid _ => a

/-- The arena that a stream of events builds. -/
def ofEvents (events : List Event) : Arena := events.foldl add {}

end Arena

/-! ## Nodes with their numbers -/

namespace Node

/-- The nodes with their numbers, if the first of them has the number `i` and the nodes below a
node come between it and the next. -/
def numbered (i : Nat) : List Node → List (Nat × Node)
  | [] => []
  | n :: ns => (i, n) :: numbered (i + n.preorder.length) ns

/-- The closed cell of the node with the number `i`. -/
def cell (i : Nat) (parent : Option Nat) (n : Node) : Cell :=
  ⟨n.kind, n.span.start, some n.span.stop, parent, (numbered (i + 1) n.children).map Prod.fst⟩

/-- The cell of a node in front of those that `below` gives for its children. -/
def cellsWith (below : Node → Nat → Option Nat → List Cell) (n : Node) (i : Nat)
    (parent : Option Nat) : List Cell :=
  n.cell i parent :: (numbered (i + 1) n.children).flatMap fun x => below x.2 x.1 (some i)

/-- The cells of a node and of all nodes below it, if the node has the number `i`. -/
def cells : Node → Nat → Option Nat → List Cell :=
  cellsWith (cellsWith (cellsWith (cellsWith fun _ _ _ => [])))

@[simp] theorem map_snd_numbered (i : Nat) (ns : List Node) :
    (numbered i ns).map Prod.snd = ns := by
  induction ns generalizing i with
  | nil => rfl
  | cons n ns ih => rw [numbered, List.map_cons, ih]

theorem mem_of_mem_numbered {i : Nat} {ns : List Node} {x : Nat × Node} (h : x ∈ numbered i ns) :
    x.2 ∈ ns := by
  rw [← map_snd_numbered i ns]
  exact List.mem_map_of_mem h

theorem cells_eq (n : Node) (i : Nat) (parent : Option Nat) :
    n.cells i parent = n.cell i parent ::
      (numbered (i + 1) n.children).flatMap fun x => x.2.cells x.1 (some i) := by
  have hcongr : ∀ f g n, (∀ m ∈ n.children, f m = g m) → cellsWith f n = cellsWith g n := by
    intro f g n h
    funext i parent
    refine congrArg (n.cell i parent :: ·) (List.flatMap_congr fun x hx => ?_)
    rw [h x.2 (mem_of_mem_numbered hx)]
  exact congrFun (congrFun (iterate_four_eq hcongr _ n) i) parent

theorem length_flatMap_numbered {ns : List Node}
    (h : ∀ m ∈ ns, ∀ i parent, (m.cells i parent).length = m.preorder.length) (i : Nat)
    (parent : Option Nat) :
    ((numbered i ns).flatMap fun x => x.2.cells x.1 parent).length =
      (ns.flatMap preorder).length := by
  induction ns generalizing i with
  | nil => rfl
  | cons n ns ih =>
    obtain ⟨hn, hns⟩ := List.forall_mem_cons.mp h
    rw [numbered, List.flatMap_cons, List.flatMap_cons, List.length_append, List.length_append,
      hn, ih hns]

/-- There is a cell for every node. -/
theorem length_cells (n : Node) (i : Nat) (parent : Option Nat) :
    (n.cells i parent).length = n.preorder.length := by
  induction n using children_induction generalizing i parent with
  | h n ih =>
    rw [cells_eq, preorder_eq, List.length_cons, List.length_cons, length_flatMap_numbered ih]

end Node

/-! ## Marks add cells -/

namespace Arena

theorem modify_append_cons {α : Type} (f : α → α) (xs : List α) (x : α) (ys : List α) :
    (xs ++ x :: ys).modify xs.length f = xs ++ f x :: ys := by
  induction xs with
  | nil => rfl
  | cons y xs ih => simp [ih]

/-- The marks of the children of an open cell add their numbers to it, and their cells. -/
theorem foldl_children {ns : List Node}
    (h : ∀ m ∈ ns, ∀ a : Arena, m.marks.foldl add a =
      ⟨a.linked a.cells.length ++ m.cells a.cells.length a.opened.head?, a.opened⟩)
    (xs : List Cell) (c : Cell) (ys : List Cell) (opened : List Nat) :
    (ns.flatMap Node.marks).foldl add ⟨xs ++ c :: ys, xs.length :: opened⟩ =
      let new := Node.numbered (xs ++ c :: ys).length ns
      ⟨xs ++ { c with children := c.children ++ new.map Prod.fst } ::
        (ys ++ new.flatMap fun x => x.2.cells x.1 (some xs.length)), xs.length :: opened⟩ := by
  induction ns generalizing c ys with
  | nil => simp [Node.numbered]
  | cons m ns ih =>
    obtain ⟨hm, hns⟩ := List.forall_mem_cons.mp h
    have hcells := m.length_cells (xs ++ c :: ys).length (some xs.length)
    simp only [List.flatMap_cons, List.foldl_append, hm, linked, List.head?_cons,
      modify_append_cons, List.append_assoc, List.cons_append]
    rw [ih hns]
    have hlen : (xs ++ { c with children := c.children ++ [(xs ++ c :: ys).length] } ::
        (ys ++ m.cells (xs ++ c :: ys).length (some xs.length))).length =
          (xs ++ c :: ys).length + m.preorder.length := by
      rw [← hcells]
      simp only [List.length_append, List.length_cons]
      omega
    simp only [hlen, Node.numbered, List.map_cons, List.flatMap_cons, List.append_assoc,
      List.singleton_append]

theorem length_linked (a : Arena) (j : Nat) : (a.linked j).length = a.cells.length := by
  unfold linked
  split <;> simp

/-- The marks of a node add the node and all nodes below it, in preorder, and leave open what was
open before. -/
theorem foldl_marks (n : Node) (a : Arena) :
    n.marks.foldl add a =
      ⟨a.linked a.cells.length ++ n.cells a.cells.length a.opened.head?, a.opened⟩ := by
  induction n using Node.children_induction generalizing a with
  | h n ih =>
    rw [Node.marks_eq, Node.cells_eq]
    cases hc : n.kind.construct? with
    | none =>
      cases n with
      | assign => rfl
      | fragment f => obtain ⟨_ | _, s⟩ := f <;> cases hc
      | _ => cases hc
    | some c =>
      have hkind : c.kind = n.kind := by
        rcases n with _ | _ | _ | _ | _ | ⟨_ | _, s⟩ | _ <;> cases hc <;> rfl
      have hlen := a.length_linked a.cells.length
      have henter : a.add (start c n.span.start) =
          ⟨a.linked a.cells.length ++ [⟨n.kind, n.span.start, none, a.opened.head?, []⟩],
            a.cells.length :: a.opened⟩ := by
        rw [← hkind]
        rfl
      simp only [Node.marksWith, hc, List.foldl_cons, List.foldl_append, List.foldl_nil, henter]
      generalize a.linked a.cells.length = xs at hlen ⊢
      rw [← hlen, foldl_children ih]
      simp [add, leave, hkind, modify_append_cons, Node.cell]

/-- Reports do not matter. -/
theorem foldl_marksOf (es : List Event) (a : Arena) :
    (marksOf es).foldl add a = es.foldl add a := by
  induction es generalizing a with
  | nil => rfl
  | cons e es ih =>
    cases e with
    | blankLine | invalid => exact ih a
    | start | stop | assign => exact ih _

/-- The arena of a text is its tree, numbered in preorder. -/
theorem ofEvents_ofText (t : Text) :
    ofEvents (ofText t) = ⟨(Node.document (Tree.ofEvents (ofText t))).cells 0 none, []⟩ := by
  rw [ofEvents, ← foldl_marksOf, Tree.marks_ofText, foldl_marks]
  rfl

end Arena

/-! ## Cells that hold a tree -/

namespace Node

/-- The cells hold the node as number `i`, and below it all nodes that are below it. -/
inductive StoredIn (cells : List Cell) : Nat → Option Nat → Node → Prop
  | intro {i : Nat} {parent : Option Nat} {n : Node} : cells[i]? = some (n.cell i parent) →
      (∀ x ∈ numbered (i + 1) n.children, StoredIn cells x.1 (some i) x.2) →
        StoredIn cells i parent n

theorem StoredIn.getElem? {cells : List Cell} {i : Nat} {parent : Option Nat} {n : Node}
    (h : n.StoredIn cells i parent) : cells[i]? = some (n.cell i parent) := by
  obtain ⟨h, -⟩ := h
  exact h

theorem StoredIn.children {cells : List Cell} {i : Nat} {parent : Option Nat} {n : Node}
    (h : n.StoredIn cells i parent) :
    ∀ x ∈ numbered (i + 1) n.children, x.2.StoredIn cells x.1 (some i) := by
  obtain ⟨-, h⟩ := h
  exact h

/-- The number of a node is the number of cells before its own. -/
theorem exists_split_of_mem_numbered {i : Nat} {ns : List Node} {x : Nat × Node}
    (parent : Option Nat) (h : x ∈ numbered i ns) :
    ∃ xs ys, ((numbered i ns).flatMap fun x => x.2.cells x.1 parent) =
      xs ++ (x.2.cells x.1 parent ++ ys) ∧ x.1 = i + xs.length := by
  induction ns generalizing i with
  | nil => exact nomatch h
  | cons n ns ih =>
    rcases List.mem_cons.mp h with rfl | h
    · exact ⟨[], _, rfl, rfl⟩
    · obtain ⟨xs, ys, hsplit, hx⟩ := ih h
      refine ⟨n.cells i parent ++ xs, ys, ?_, ?_⟩
      · rw [numbered, List.flatMap_cons, hsplit, List.append_assoc]
      · rw [hx, List.length_append, length_cells, Nat.add_assoc]

theorem storedIn_cells (n : Node) (xs ys : List Cell) (parent : Option Nat) :
    n.StoredIn (xs ++ (n.cells xs.length parent ++ ys)) xs.length parent := by
  induction n using children_induction generalizing xs ys parent with
  | h n ih =>
    rw [cells_eq]
    refine ⟨by simp, fun x hx => ?_⟩
    obtain ⟨xs', ys', hsplit, hnumber⟩ := exists_split_of_mem_numbered (some xs.length) hx
    have hlen : x.1 = (xs ++ n.cell xs.length parent :: xs').length := by
      rw [hnumber, List.length_append, List.length_cons]
      omega
    have hstored := ih x.2 (mem_of_mem_numbered hx) (xs ++ n.cell xs.length parent :: xs')
      (ys' ++ ys) (some xs.length)
    rw [hsplit]
    rw [← hlen] at hstored
    simpa using hstored

/-- A node below one of `ns` has a number behind that of the node in `ns`. -/
theorem exists_numbered_of_getElem? {i k : Nat} {ns : List Node} {m : Node}
    (h : (ns.flatMap preorder)[k]? = some m) :
    ∃ x ∈ numbered i ns, ∃ k', x.2.preorder[k']? = some m ∧ x.1 + k' = i + k := by
  induction ns generalizing i k with
  | nil => simp at h
  | cons n ns ih =>
    rw [List.flatMap_cons] at h
    rcases Nat.lt_or_ge k n.preorder.length with hk | hk
    · rw [List.getElem?_append_left hk] at h
      exact ⟨(i, n), List.mem_cons_self, k, h, rfl⟩
    · rw [List.getElem?_append_right hk] at h
      obtain ⟨x, hx, k', hm, hk'⟩ := ih (i := i + n.preorder.length) h
      exact ⟨x, List.mem_cons_of_mem _ hx, k', hm, by omega⟩

/-- The nodes of a tree that the cells hold are numbered in preorder, and each of them but the
root is a child of its parent. -/
theorem StoredIn.of_preorder {cells : List Cell} {i k : Nat} {parent : Option Nat} {n m : Node}
    (h : n.StoredIn cells i parent) (hm : n.preorder[k]? = some m) :
    ∃ parent', m.StoredIn cells (i + k) parent' ∧ (k = 0 ∧ parent' = parent ∨
      ∃ j c, parent' = some j ∧ cells[j]? = some c ∧ i + k ∈ c.children) := by
  induction n using children_induction generalizing i k parent with
  | h n ih =>
    rw [preorder_eq] at hm
    cases k with
    | zero =>
      obtain rfl : n = m := by simpa using hm
      exact ⟨parent, h, Or.inl ⟨rfl, rfl⟩⟩
    | succ k =>
      rw [List.getElem?_cons_succ] at hm
      obtain ⟨x, hx, k', hk', hnumber⟩ := exists_numbered_of_getElem? (i := i + 1) hm
      obtain ⟨parent', hstored, hparent⟩ :=
        ih x.2 (mem_of_mem_numbered hx) (h.children x hx) hk'
      have hi : x.1 + k' = i + (k + 1) := by omega
      rw [hi] at hstored hparent
      refine ⟨parent', hstored, Or.inr ?_⟩
      rcases hparent with ⟨rfl, rfl⟩ | hparent
      · refine ⟨i, n.cell i parent, rfl, h.getElem?, ?_⟩
        rw [← hi]
        exact List.mem_map_of_mem hx
      · exact hparent

end Node

namespace Arena

/-- A walk along the child links, down first, goes through the cells `visited` if it has the cells
`todo` still before it. -/
inductive Visits (cells : List Cell) : (todo visited : List Nat) → Prop
  | done : Visits cells [] []
  | step {i : Nat} {c : Cell} {todo visited : List Nat} : cells[i]? = some c →
      Visits cells (c.children ++ todo) visited → Visits cells (i :: todo) (i :: visited)

theorem visits_numbered {cells : List Cell} {ns : List Node} {i : Nat} {parent : Option Nat}
    {todo visited : List Nat}
    (h : ∀ x ∈ Node.numbered i ns, x.2.StoredIn cells x.1 parent)
    (ih : ∀ m ∈ ns, ∀ {i parent todo visited}, m.StoredIn cells i parent →
      Visits cells todo visited →
        Visits cells (i :: todo) (List.range' i m.preorder.length ++ visited))
    (hrest : Visits cells todo visited) :
    Visits cells ((Node.numbered i ns).map Prod.fst ++ todo)
      (List.range' i (ns.flatMap Node.preorder).length ++ visited) := by
  induction ns generalizing i with
  | nil => exact hrest
  | cons n ns ih' =>
    obtain ⟨hn, hns⟩ := List.forall_mem_cons.mp h
    obtain ⟨ihn, ihns⟩ := List.forall_mem_cons.mp ih
    have hvisits := ihn hn (ih' hns ihns)
    rw [List.flatMap_cons, List.length_append, ← List.range'_append_1, List.append_assoc]
    exact hvisits

/-- A walk through a tree that the cells hold goes through its cells one after the other. -/
theorem visits_of_storedIn {cells : List Cell} {n : Node} {i : Nat} {parent : Option Nat}
    {todo visited : List Nat} (h : n.StoredIn cells i parent) (hrest : Visits cells todo visited) :
    Visits cells (i :: todo) (List.range' i n.preorder.length ++ visited) := by
  induction n using Node.children_induction generalizing i parent todo visited with
  | h n ih =>
    rw [Node.preorder_eq, List.length_cons, List.range'_succ, List.cons_append]
    exact .step h.getElem? (visits_numbered h.children ih hrest)

/-- The cells lie between the two offsets, one behind the other. -/
def Row (cells : List Cell) (hi : Nat) : Nat → List Nat → Prop
  | lo, [] => lo ≤ hi
  | lo, j :: js => ∃ c stop, cells[j]? = some c ∧ c.stop = some stop ∧
      lo ≤ c.start ∧ c.start ≤ stop ∧ Row cells hi stop js

/-- The arena of a text of `length` characters is in order. -/
structure WellFormed (length : Nat) (a : Arena) : Prop where
  /-- Nothing is open. -/
  closed : a.opened = []
  /-- The cells lie in the text, and the children of a cell lie in it in a row. -/
  placed : ∀ c ∈ a.cells, ∃ stop, c.stop = some stop ∧ c.start ≤ stop ∧ stop ≤ length ∧
    Row a.cells stop c.start c.children
  /-- A cell is a child of its parent and the parent of its children. -/
  linked : ∀ i j, (∃ c : Cell, a.cells[i]? = some c ∧ j ∈ c.children) ↔
    ∃ c : Cell, a.cells[j]? = some c ∧ c.parent = some i
  /-- A property has a key, then possibly a delimiter, and then possibly a value. -/
  parts : ∀ c ∈ a.cells, c.kind = .property →
    (c.children.map fun j => a.cells[j]?.map Cell.kind) ∈
      [[some .key], [some .key, some .assign], [some .key, some .assign, some .value]]
  /-- A walk from the root goes through all cells in the order of their numbers. -/
  preorder : Visits a.cells [0] (List.range a.cells.length)

/-- The cells are the nodes of the tree, under the same numbers. -/
structure Holds (a : Arena) (t : Tree) : Prop where
  /-- There are as many. -/
  length : a.cells.length = t.nodes.length
  /-- A cell is that of the node. -/
  cell : ∀ (i : Nat) (n : Node), t.nodes[i]? = some n →
    ∃ parent, a.cells[i]? = some (n.cell i parent)

theorem row_of_storedIn {cells : List Cell} {hi lo i : Nat} {parent : Option Nat} {ns : List Node}
    (h : ∀ x ∈ Node.numbered i ns, x.2.StoredIn cells x.1 parent) (hrow : Node.Row hi lo ns) :
    Row cells hi lo ((Node.numbered i ns).map Prod.fst) := by
  induction ns generalizing i lo with
  | nil => exact hrow
  | cons n ns ih =>
    obtain ⟨hn, hns⟩ := List.forall_mem_cons.mp h
    exact ⟨_, _, hn.getElem?, rfl, hrow.1, hrow.2.1, ih hns hrow.2.2⟩

theorem map_kind_of_storedIn {cells : List Cell} {i : Nat} {parent : Option Nat} {ns : List Node}
    (h : ∀ x ∈ Node.numbered i ns, x.2.StoredIn cells x.1 parent) :
    ((Node.numbered i ns).map Prod.fst).map (fun j => cells[j]?.map Cell.kind) =
      ns.map fun n => some n.kind := by
  induction ns generalizing i with
  | nil => rfl
  | cons n ns ih =>
    obtain ⟨hn, hns⟩ := List.forall_mem_cons.mp h
    have hhead : cells[i]? = some (n.cell i parent) := hn.getElem?
    rw [Node.numbered, List.map_cons, List.map_cons, List.map_cons, ih hns, hhead]
    rfl

theorem map_kind_property (p : Property) :
    ((Node.property p).children.map fun n => some n.kind) ∈
      [[some .key], [some .key, some .assign], [some NodeKind.key, some .assign, some .value]] := by
  rcases p with ⟨s, k, _ | ⟨o, _ | v⟩⟩ <;>
    simp [Node.children, Assignment.nodes, Node.kind]

theorem exists_property_of_kind {n : Node} (h : n.kind = .property) : ∃ p, n = .property p := by
  cases n with
  | property p => exact ⟨p, rfl⟩
  | fragment f => obtain ⟨_ | _, s⟩ := f <;> cases h
  | _ => cases h

section Tree

variable {a : Arena} {t : Tree}

theorem exists_node_of_cell (hcells : a.cells = (Node.document t).cells 0 none) {i : Nat}
    {c : Cell} (h : a.cells[i]? = some c) : ∃ n, t.nodes[i]? = some n ∧ ∃ parent,
      n.StoredIn a.cells i parent ∧ c = n.cell i parent ∧ (parent = none ∨
        ∃ j c', parent = some j ∧ a.cells[j]? = some c' ∧ i ∈ c'.children) := by
  have hroot : (Node.document t).StoredIn a.cells 0 none := by
    simpa [hcells] using (Node.document t).storedIn_cells [] [] none
  have hi : i < t.nodes.length := by
    have hlt := (List.getElem?_eq_some_iff.mp h).1
    rwa [hcells, Node.length_cells] at hlt
  have hn := List.getElem?_eq_getElem hi
  obtain ⟨parent, hstored, hparent⟩ := hroot.of_preorder hn
  rw [Nat.zero_add] at hstored hparent
  refine ⟨_, hn, parent, hstored, Option.some.inj (h.symm.trans hstored.getElem?), ?_⟩
  exact hparent.imp And.right id

/-- The cells of a tree hold it. -/
theorem holds_of_cells (hcells : a.cells = (Node.document t).cells 0 none) : a.Holds t := by
  have hlength : a.cells.length = t.nodes.length := by rw [hcells, Node.length_cells, Tree.nodes]
  refine ⟨hlength, fun i n hn => ?_⟩
  have hi : i < a.cells.length := hlength ▸ (List.getElem?_eq_some_iff.mp hn).1
  obtain ⟨n', hn', parent, hstored, -⟩ :=
    exists_node_of_cell hcells (List.getElem?_eq_getElem hi)
  obtain rfl := Option.some.inj (hn.symm.trans hn')
  exact ⟨parent, hstored.getElem?⟩

/-- The cells of a tree whose nodes are in place are in order. -/
theorem wellFormed_of_cells {length : Nat} (hcells : a.cells = (Node.document t).cells 0 none)
    (hopened : a.opened = []) (hfits : ∀ n ∈ t.nodes, n.Fits length) : a.WellFormed length where
  closed := hopened
  placed c hc := by
    obtain ⟨i, hi⟩ := List.mem_iff_getElem?.mp hc
    obtain ⟨n, hn, parent, hstored, rfl, -⟩ := exists_node_of_cell hcells hi
    have hfit := hfits n (List.mem_of_getElem? hn)
    exact ⟨n.span.stop, rfl, hfit.ordered, hfit.within,
      row_of_storedIn hstored.children hfit.children⟩
  linked i j := by
    constructor
    · rintro ⟨c, hi, hj⟩
      obtain ⟨n, -, parent, hstored, rfl, -⟩ := exists_node_of_cell hcells hi
      obtain ⟨x, hx, rfl⟩ := List.mem_map.mp hj
      exact ⟨_, (hstored.children x hx).getElem?, rfl⟩
    · rintro ⟨c, hj, hparent⟩
      obtain ⟨n, -, parent, -, rfl, rfl | ⟨i', c', rfl, hi', hmem⟩⟩ := exists_node_of_cell hcells hj
      · exact nomatch hparent
      · obtain rfl := Option.some.inj hparent
        exact ⟨c', hi', hmem⟩
  parts c hc hkind := by
    obtain ⟨i, hi⟩ := List.mem_iff_getElem?.mp hc
    obtain ⟨n, -, parent, hstored, rfl, -⟩ := exists_node_of_cell hcells hi
    obtain ⟨p, rfl⟩ := exists_property_of_kind hkind
    have hkinds := map_kind_of_storedIn hstored.children
    rw [Node.cell, hkinds]
    exact map_kind_property p
  preorder := by
    have hroot : (Node.document t).StoredIn a.cells 0 none := by
      simpa [hcells] using (Node.document t).storedIn_cells [] [] none
    have hvisits := visits_of_storedIn hroot .done
    rw [List.append_nil, ← Tree.nodes, ← (holds_of_cells hcells).length, ← List.range_eq_range']
      at hvisits
    exact hvisits

end Tree

end Arena

/-- A document that was read without being cancelled is in order : no node of it is out of place,
the arena of its events is well formed and holds its nodes in preorder, and the fragments of each
value make it up. -/
theorem Document.read_wellFormed {σ : Type} (check : Checker σ) (s : σ) (b : Buffer)
    (h : (Step.run check s (Event.scan b.text)).cancelled = false) :
    ∃ d, (read check s b).1 = some d ∧ d.tree.violation? b.length = none ∧
      (Arena.ofEvents (Step.run check s (Event.scan b.text)).results).WellFormed b.length ∧
      (Arena.ofEvents (Step.run check s (Event.scan b.text)).results).Holds d.tree ∧
      ∀ v, .value v ∈ d.tree.nodes → v.Tiled := by
  have hresults : (Step.run check s (Event.scan b.text)).results = ofText b.text :=
    Step.run_results h
  have harena := Arena.ofEvents_ofText b.text
  have hcells := congrArg Arena.cells harena
  refine ⟨ofEvents b (ofText b.text), ?_, ?_, ?_, ?_, ?_⟩
  · simp only [read, h, hresults, Bool.false_eq_true, if_false]
  · exact Tree.violation?_ofText b.text
  · rw [hresults]
    exact Arena.wellFormed_of_cells hcells (congrArg Arena.opened harena) (Tree.fits_ofText b.text)
  · rw [hresults]
    exact Arena.holds_of_cells hcells
  · exact fun v hv => Tree.tiled_ofText b.text hv

/-- A checker that lets three polls pass leaves a text of three lines uncancelled. The value that
goes on behind the line end has a literal, an expression and a literal. -/
theorem Document.read_wellFormed_continued :
    ∃ d : Document, d.buffer.text =
        ['a', '=', 'b', '\\', '\n', ' ', '$', '{', 'c', '}', 'd', '\n', '#'] ∧
      (read (.after (some 3)) 0 d.buffer).1 = some d ∧ d.tree.nodes.length = 9 ∧
      d.tree.violation? d.buffer.length = none ∧
      ∀ v, .value v ∈ d.tree.nodes → v.Tiled := by
  obtain ⟨d, hread, hplaced, -, hholds, htiled⟩ := read_wellFormed (.after (some 3)) 0
    ⟨"a", ['a', '=', 'b', '\\', '\n', ' ', '$', '{', 'c', '}', 'd', '\n', '#'], 1⟩ (by decide)
  have hd : d = ofBuffer _ := (Option.some.inj hread).symm
  subst hd
  exact ⟨_, rfl, hread, hholds.length.symm.trans (by decide), hplaced, htiled⟩

end DotProperties
