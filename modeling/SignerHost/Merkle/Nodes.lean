import SignerHost.Merkle.Tree

/-!
# Trees of linked nodes

The tree over a list of leaf hashes as it lies in memory: a node knows its children and its parent
by the places at which they are kept, and a node that is there already gets its parent when it is
joined with its sibling.

* `makeTree` joins the nodes of a part of the leaves, and `Linked.ofLeaves` those of all of them.
* `sibling` asks the parent, which has to know the node as its child.
* `rise` goes from a node to its parent, which is a turn of the way to the root.
-/

namespace SignerHost

/-- The place of a node in memory.  Places are given out in increasing order and never taken
back. -/
abbrev NodeId := Nat

/-- A node of a tree.  A leaf has no children, and only a root has no parent. -/
structure Node where
  left : Option NodeId
  right : Option NodeId
  parent : Option NodeId
  value : Bytes

def Node.ofLeaf (value : Bytes) : Node := { left := none, right := none, parent := none, value }

/-- The nodes in memory, and the first place at which none has been put.  What stands at a place
without a node has no meaning. -/
structure Memory where
  node : NodeId → Node
  next : NodeId

namespace Memory

def empty : Memory := { node := fun _ => .ofLeaf [], next := 0 }

/-- The memory with another node at a place.  All other places stay as they are. -/
def write (m : Memory) (id : NodeId) (node : Node) : Memory :=
  { m with node := fun other => if other = id then node else m.node other }

/-- The memory after a node has got a parent.  Its children and its value stay as they are. -/
def adopt (m : Memory) (child parent : NodeId) : Memory :=
  m.write child { m.node child with parent := some parent }

/-- The other child of the parent.  A parent that knows the node as neither child is refused.  So
is a root, which has no parent to ask. -/
def sibling (m : Memory) (id : NodeId) : Except Failure (Option NodeId) :=
  match (m.node id).parent with
  | none => .error (.bounds .noSibling)
  | some parent =>
      if (m.node parent).left = some id then .ok (m.node parent).right
      else if (m.node parent).right = some id then .ok (m.node parent).left
      else .error (.bounds .notAChild)

/-- One turn of the way up: the value of the sibling, and the parent.  The way ends at a node
without a parent. -/
def rise (m : Memory) (id : NodeId) : Except Failure (Option (Bytes × NodeId)) :=
  match (m.node id).parent with
  | none => .ok none
  | some parent =>
      match m.sibling id with
      | .ok (some sibling) => .ok (some ((m.node sibling).value, parent))
      | .ok none => .error .domain
      | .error failure => .error failure

end Memory

/-- A step that works on the nodes in memory.  A failure leaves the nodes that were made before
it. -/
abbrev Linking := EStateM Failure Memory

namespace Linking

/-- A node at the first free place.  The next place is the first free one then. -/
def allocate (node : Node) : Linking NodeId :=
  modifyGet fun m => (m.next, { m.write m.next node with next := m.next + 1 })

/-- A new node over two nodes, which get it as their parent.  Values that are no digests are
refused before the node is made. -/
def join (left right : NodeId) : Linking NodeId := do
  let m ← get
  let value ← MonadExcept.ofExcept (combine (m.node left).value (m.node right).value)
  let root ← allocate { left := some left, right := some right, parent := none, value }
  modify fun m => (m.adopt left root).adopt right root
  return root

/-- The tree over the part of the leaves that begins at a position.  The left part holds the
largest power of two below the size. -/
def makeTree (leaves : List NodeId) (start size : Nat) : Linking NodeId :=
  if size = 1 then
    match leaves[start]? with
    | some leaf => return leaf
    | none => throw (.bounds .list)
  else if 2 ≤ size then do
    let split := PowerOfTwo.below size
    let left ← makeTree leaves start split
    let right ← makeTree leaves (start + split) (size - split)
    join left right
  else throw .domain
termination_by size
decreasing_by
  · exact PowerOfTwo.below_lt ‹2 ≤ size›
  · have := PowerOfTwo.below_pos ‹2 ≤ size›
    omega

end Linking

/-- A list of leaf hashes as a tree of nodes in memory.  The depth is the one that the number of
the leaves asks for. -/
structure Linked where
  memory : Memory
  leaves : List NodeId
  root? : Option NodeId
  depth? : Option Nat

namespace Linked

/-- The places of the leaves and, unless there are none, the place of the root over them.  Two or
more leaves need values of 32 bytes. -/
def link (hashes : List Bytes) : Linking (List NodeId × Option NodeId) := do
  let leaves ← hashes.mapM fun value => Linking.allocate (.ofLeaf value)
  if leaves = [] then return (leaves, none)
  let root ← Linking.makeTree leaves 0 leaves.length
  return (leaves, some root)

/-- The committed list of leaf hashes. -/
def ofLeaves (hashes : List Bytes) : Except Failure Linked :=
  match (link hashes).run .empty with
  | .ok (leaves, root?) memory =>
      .ok { memory, leaves, root?, depth? := root?.map fun _ => PowerOfTwo.ceilLog leaves.length }
  | .error failure _ => .error failure

/-- The value at the root.  Without leaves it is the root of the empty list. -/
def root (t : Linked) : Bytes :=
  match t.root? with
  | some id => (t.memory.node id).value
  | none => emptyRoot

/-- The leaf at a position, which may be counted from the end.  A position outside of the list is
refused as lists refuse it. -/
def leaf (t : Linked) (i : Int) : Except Failure NodeId :=
  match (position? t.leaves.length i).bind (t.leaves[·]?) with
  | some id => .ok id
  | none => .error (.bounds (if isWord i then .list else .word))

end Linked

end SignerHost
