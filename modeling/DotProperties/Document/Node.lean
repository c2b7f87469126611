import DotProperties.Document.Tree

/-!
# Nodes

A `Node` is any part of a tree, seen alike : it has a kind, a span and children. A node
is addressed by its path, the child indices from the root, and the nodes of a tree are
numbered in preorder.

`Node.find` goes down to the innermost node at an offset. Where two nodes meet, both ends
of a span count, a property answers for its key first, then for its delimiter, and then
for its value.

`Tree.violation?` checks that every node lies in the text and that the children of a
node lie in it, in order and without overlap.
-/

namespace DotProperties

/-- What a node is. -/
inductive NodeKind where
  /-- The root. -/
  | document
  /-- A property. -/
  | property
  /-- A key. -/
  | key
  /-- A delimiter. -/
  | assign
  /-- A value. -/
  | value
  /-- A literal of a value. -/
  | literal
  /-- An expression of a value. -/
  | expression
  /-- A comment. -/
  | comment
  deriving DecidableEq

/-- A part of a tree. -/
inductive Node where
  /-- The root. -/
  | document (tree : Tree)
  /-- A property. -/
  | property (property : Property)
  /-- A key. -/
  | key (span : Span)
  /-- A delimiter. -/
  | assign (assignment : Assignment)
  /-- A value. -/
  | value (value : Value)
  /-- A fragment of a value. -/
  | fragment (fragment : Fragment)
  /-- A comment. -/
  | comment (span : Span)
  deriving DecidableEq

/-- The child indices from a node down to another. -/
abbrev Path := List Nat

/-- The node of a top-level part. -/
def Item.node : Item → Node
  | .comment s => .comment s
  | .property p => .property p

/-- The nodes of a delimiter and the value behind it. -/
def Assignment.nodes (a : Assignment) : List Node :=
  .assign a :: a.value.toList.map .value

/-- The first of `nodes` whose span touches `offset`, with its index. The first node has
the index `index`. -/
def firstTouching {α : Type} (span : α → Span) (offset index : Nat) :
    List α → Option (α × Nat)
  | [] => none
  | n :: nodes =>
    if (span n).touches offset then some (n, index)
    else firstTouching span offset (index + 1) nodes

namespace Node

/-- What the node is. -/
def kind : Node → NodeKind
  | document _ => .document
  | property _ => .property
  | key _ => .key
  | assign _ => .assign
  | value _ => .value
  | fragment f => match f.kind with
    | .literal => .literal
    | .expression => .expression
  | comment _ => .comment

/-- Where the node stands. -/
def span : Node → Span
  | document t => t.span
  | property p => p.span
  | key s => s
  | assign a => a.span
  | value v => v.span
  | fragment f => f.span
  | comment s => s

/-- The children of the node, in order. -/
def children : Node → List Node
  | document t => t.items.map Item.node
  | property p => .key p.key :: p.assignment.toList.flatMap Assignment.nodes
  | value v => v.fragments.map .fragment
  | _ => []

/-- The node at a path. -/
def descend? (n : Node) : Path → Option Node
  | [] => some n
  | i :: path => n.children[i]?.bind fun child => child.descend? path

/-- A node and its children. -/
def withChildren (n : Node) : List Node := n :: n.children

/-- The nodes from a node on down, in preorder. A tree has four levels : the document,
its parts, the parts of a property, and the fragments of a value. -/
def preorder (n : Node) : List Node :=
  n :: n.children.flatMap fun m => m :: m.children.flatMap withChildren

/-! ## Lookup -/

/-- The fragment of a value at `offset`, or the value if none is. -/
def findInValue (v : Value) (offset : Nat) : Path × Node :=
  match firstTouching Fragment.span offset 0 v.fragments with
  | some (f, i) => ([i], fragment f)
  | none => ([], value v)

/-- The part of a property at `offset`. -/
def findInProperty (p : Property) (offset : Nat) : Path × Node :=
  if offset ≤ p.key.stop then ([0], key p.key)
  else
    match p.assignment with
    | none => ([0], key p.key)
    | some a =>
      match a.value with
      | none => ([1], assign a)
      | some v =>
        if v.span.start ≤ offset then
          let (path, node) := findInValue v offset
          (2 :: path, node)
        else ([1], assign a)

/-- The innermost node at `offset` in a top-level part. -/
def findInItem (i : Item) (offset : Nat) : Path × Node :=
  match i with
  | .comment s => ([], comment s)
  | .property p => findInProperty p offset

/-- The innermost node at `offset`, from a node on down, with the path to it. -/
def find (n : Node) (offset : Nat) : Path × Node :=
  match n with
  | document t =>
    match firstTouching Item.span offset 0 t.items with
    | some (item, i) =>
      let (path, node) := findInItem item offset
      (i :: path, node)
    | none => ([], document t)
  | property p => findInProperty p offset
  | value v => findInValue v offset
  | n => ([], n)

end Node

/-! ## Placement -/

/-- A node that is out of place. Nodes are named by their number in preorder. -/
inductive Violation where
  /-- The span of a node is reversed or leaves the text. -/
  | outside (node : Nat) (span : Span) (length : Nat)
  /-- A node starts before the sibling on its left stops, or leaves its parent. -/
  | overlap (node : Nat)
  deriving DecidableEq

/-- What is told about a node that is out of place. -/
def Violation.message : Violation → String
  | .outside n s length =>
    s!"node {n} has span {s.start}..{s.stop} in a text of {length}"
  | .overlap n => s!"node {n} overlaps its siblings or parent"

namespace Node

/-- The first of `children`, the first of which has the number `number`, that starts
before `earliest` or its left sibling's end, or stops behind `latest`. -/
def misplacedChild? (latest : Nat) (earliest number : Nat) : List Node → Option Violation
  | [] => none
  | n :: children =>
    if n.span.start < earliest || latest < n.span.stop then some (.overlap number)
    else misplacedChild? latest n.span.stop (number + n.preorder.length) children

/-- What is wrong with the place of a node or its children in a text of `length`
characters. -/
def violation? (length number : Nat) (n : Node) : Option Violation :=
  let s := n.span
  if s.stop < s.start || length < s.stop then some (.outside number s length)
  else misplacedChild? s.stop s.start (number + 1) n.children

end Node

namespace Tree

/-- The nodes of a tree, by their number. -/
def nodes (t : Tree) : List Node := (Node.document t).preorder

/-- The node at a path from the root. -/
def node? (t : Tree) (path : Path) : Option Node := (Node.document t).descend? path

/-- The innermost node at `offset`, with its path. -/
def find (t : Tree) (offset : Nat) : Path × Node := (Node.document t).find offset

/-- The first node that is out of place in a text of `length` characters. -/
def violation? (t : Tree) (length : Nat) : Option Violation :=
  t.nodes.zipIdx.findSome? fun (n, number) => n.violation? length number

end Tree

end DotProperties
