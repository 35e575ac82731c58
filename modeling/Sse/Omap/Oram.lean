import Sse.Basic.Bid
import Sse.Lib.PathOram
import Sse.Lib.Runs

/-!
# ORAM

The tree of buckets under the oblivious map, the same file in Orion and Horus.  An
operation is `start`, some `ReadNode` and `WriteNode` calls, and `finilize`.  All the
paths it touches are read into `cache` and stay there; `finilize` adds fake reads, gives
every node that was touched a new leaf, repairs the leaves its cached parents keep for it,
and writes the paths back.

A `Node*` returned by `ReadNode` points into the cache, so it is modelled by the key of
its entry; what the caller assigns through it is assigned to that entry (`setNode`).
The leaves `RandomPath` draws are a stream `rnd`.

    ReadNode of a stored block at its leaf finds it               (Mid.readNode)
    WriteNode of a new block puts it into the cache, or throws    (Mid.writeNode_new)
-/

namespace Sse.Omap

open PathOram

/-- `class Node`. -/
structure Node (n : Nat) where
  key : Bid n
  value : List UInt8
  pos : Nat
  leftID : Bid n
  leftPos : Nat
  rightID : Bid n
  rightPos : Nat
  height : Nat
deriving DecidableEq

section

variable {n : Nat}

/-- The blocks of an empty bucket: zero bytes. -/
def dummyNode : Node n := ⟨Bid.zero, List.replicate 16 0, 0, Bid.zero, 0, Bid.zero, 0, 0⟩

theorem isZero_zero : (Bid.zero : Bid n).isZero = true := by
  simp [Bid.isZero, Bid.zero, List.take_replicate]

/-- Four nodes a bucket; `block.id != 0` tells the nodes from the dummies. -/
def layout (depth : Nat) : Layout (Bid n) (Node n) where
  depth := depth
  Z := 4
  key := Node.key
  pos := Node.pos
  real k := !k.isZero
  dummy := dummyNode
  dummy_not_real := by rw [dummyNode, isZero_zero]; rfl

end

/-- What an operation may end with: the three `runtime_error`s, a `NULL` that is followed, and a recursion
deeper than the fuel of the model. -/
inductive Err where
  | noSpace
  | idNotSet
  | notInCache
  | nullNode
  | fuel
deriving DecidableEq

/-- The `ORAM` object: the cache and the buckets are `store`, `modified` is a set, `emptyNodes` the counter
of the `RAMStore`. -/
structure Oram (n : Nat) where
  store : Store (Bid n) (Node n)
  leafList : List Nat
  readviewmap : List Nat
  writeviewmap : List Nat
  modified : List (Bid n)
  readCnt : Nat
  batchWrite : Bool
  emptyNodes : Nat
  rnd : Nat → Nat
  drawn : Nat

namespace Oram

section

variable {n : Nat} (depth : Nat)

/-- `ORAM::ORAM`: all buckets empty. -/
def new (rnd : Nat → Nat) : Oram n where
  store := ⟨SortedMap.empty, fun _ => List.replicate 4 dummyNode⟩
  leafList := []
  readviewmap := []
  writeviewmap := []
  modified := []
  readCnt := 0
  batchWrite := false
  emptyNodes := 4 * (2 ^ (depth + 1) - 1)
  rnd := rnd
  drawn := 0

/-! ## The cache -/

def cache (s : Oram n) : SortedMap (Bid n) (Node n) := s.store.stash

/-- `cache[bid] = node`. -/
def putNode (s : Oram n) (bid : Bid n) (node : Node n) : Oram n :=
  { s with store := { s.store with stash := s.store.stash.insert bid node } }

/-- Assignments through a pointer to the entry `bid`. -/
def setNode (s : Oram n) (bid : Bid n) (f : Node n → Node n) : Oram n :=
  match s.cache.get? bid with
  | some node => s.putNode bid (f node)
  | none => s

/-- `modified.insert(bid)`. -/
def touch (s : Oram n) (bid : Bid n) : Oram n := { s with modified := bid :: s.modified }

/-- A node was read or written in this operation. -/
def Touched (s : Oram n) (bid : Bid n) : Prop := bid ∈ s.modified

theorem mem_modified {s : Oram n} {bid : Bid n} : bid ∈ s.modified ↔ s.Touched bid := Iff.rfl

/-- `leafList.push_back(leaf)`, unless it is there. -/
def pushLeaf (s : Oram n) (leaf : Nat) : Oram n :=
  if leaf ∈ s.leafList then s else { s with leafList := s.leafList ++ [leaf] }

/-- `RandomPath`. -/
def randomPath (s : Oram n) : Nat × Oram n := (s.rnd s.drawn, { s with drawn := s.drawn + 1 })

/-- `FetchPath`. -/
def fetchPath (s : Oram n) (leaf : Nat) : Oram n :=
  let r := (path depth leaf).foldl (fetchOnce (layout depth)) (s.store, s.readviewmap)
  { s with store := r.1, readviewmap := r.2, readCnt := s.readCnt + 1 }

/-! ## Reading and writing nodes -/

/-- `WriteData`. -/
def writeData (s : Oram n) (bid : Bid n) (node : Node n) : Except Err (Oram n) :=
  if 0 < s.emptyNodes then .ok { s.putNode bid node with emptyNodes := s.emptyNodes - 1 } else .error .noSpace

/-- `Access(bid, node, lastLeaf, newLeaf)`. -/
def accessRead (s : Oram n) (bid : Bid n) (lastLeaf newLeaf : Nat) : Option (Bid n) × Oram n :=
  let s1 := fetchPath depth s lastLeaf
  match s1.cache.get? bid with
  | none => (none, s1)
  | some node => (some bid, (s1.putNode bid { node with pos := newLeaf }).pushLeaf lastLeaf)

/-- `Access(bid, node)`. -/
def accessWrite (s : Oram n) (bid : Bid n) (node : Node n) : Except Err (Oram n) := do
  let s1 := if s.batchWrite then s else fetchPath depth s node.pos
  let s2 ← s1.writeData bid node
  return s2.pushLeaf node.pos

/-- `ReadNode(bid, lastLeaf, newLeaf)`. -/
def readNode (s : Oram n) (bid : Bid n) (lastLeaf newLeaf : Nat) : Option (Bid n) × Oram n :=
  if bid.isZero then (none, s)
  else if s.cache.get? bid = none ∨ lastLeaf ∉ s.leafList then
    let r := accessRead depth s bid lastLeaf newLeaf
    match r.1 with
    | some _ => (r.1, r.2.touch bid)
    | none => r
  else (some bid, (s.touch bid).setNode bid fun node => { node with pos := newLeaf })

/-- `ReadNode(bid)`. -/
def readCached (s : Oram n) (bid : Bid n) : Except Err (Bid n) :=
  if bid.isZero then .error .idNotSet
  else if s.cache.get? bid = none then .error .notInCache
  else .ok bid

/-- `WriteNode`. -/
def writeNode (s : Oram n) (bid : Bid n) (node : Node n) : Except Err (Nat × Oram n) :=
  if bid.isZero then .error .idNotSet
  else if s.cache.get? bid = none then do
    let s1 ← accessWrite depth (s.touch bid) bid node
    return (node.pos, s1)
  else .ok (node.pos, s.touch bid)

/-! ## Operations -/

/-- `start`. -/
def start (s : Oram n) (batchWrite : Bool) : Oram n :=
  { s with batchWrite := batchWrite, writeviewmap := [], readviewmap := [], readCnt := 0 }

def fakeRead (s : Oram n) : Oram n :=
  let (rnd, s1) := s.randomPath
  fetchPath depth (s1.pushLeaf rnd) rnd

def fakeReads : Nat → Oram n → Oram n
  | 0, s => s
  | k + 1, s => fakeReads k (fakeRead depth s)

/-- The padding loops: `i` from `readCnt` on, below `1.45 * depth` or `4.35 * depth`. -/
def padding (s : Oram n) (find : Bool) : Oram n :=
  fakeReads depth (((if find then 145 else 435) * depth + 99) / 100 - s.readCnt) s

/-- `if (id != 0 && cache.count(id) > 0)` the leaf of that entry is copied into the entry `k`. -/
def copyPos (s : Oram n) (k id : Bid n) (f : Nat → Node n → Node n) : Oram n :=
  if id.isZero then s
  else match s.cache.get? id with
    | some c => s.setNode k (f c.pos)
    | none => s

/-- The body of the position loop for the entry `k` and height `i`. -/
def moveNode (i : Nat) (s : Oram n) (k : Bid n) : Oram n :=
  match s.cache.get? k with
  | none => s
  | some tmp =>
    if tmp.height = i then
      let s1 := if tmp.key ∈ s.modified then
          let (rnd, s') := s.randomPath
          s'.setNode k fun tmp => { tmp with pos := rnd }
        else s
      let s2 := s1.copyPos k tmp.leftID fun pos tmp => { tmp with leftPos := pos }
      s2.copyPos k tmp.rightID fun pos tmp => { tmp with rightPos := pos }
    else s

/-- The position loop, for `i = 0 .. depth + 2`. -/
def moveNodes (s : Oram n) : Oram n :=
  (List.range (depth + 3)).foldl (fun s i => (s.cache.entries.map Prod.fst).foldl (moveNode i) s) s

/-- The last loop of `finilize`. -/
def writePaths (s : Oram n) : Oram n :=
  let r := writeBack (layout depth) s.leafList (s.store, s.writeviewmap)
  { s with store := r.1, writeviewmap := r.2 }

/-- `finilize`, with the new `rootPos`. -/
def finilize (s : Oram n) (find : Bool) (rootKey : Bid n) (rootPos : Nat) : Nat × Oram n :=
  let s1 := if s.batchWrite then s else padding depth s find
  let s2 := moveNodes depth s1
  let rootPos := match s2.cache.get? rootKey with
    | some root => root.pos
    | none => rootPos
  (rootPos, { writePaths depth s2 with leafList := [], modified := [] })

end

/-! ## What the small steps leave alone -/

section

variable {n depth : Nat} (s : Oram n)

@[simp] theorem pushLeaf_store (leaf : Nat) : (s.pushLeaf leaf).store = s.store := by
  unfold pushLeaf; split_ifs <;> rfl

@[simp] theorem pushLeaf_readviewmap (leaf : Nat) : (s.pushLeaf leaf).readviewmap = s.readviewmap := by
  unfold pushLeaf; split_ifs <;> rfl

@[simp] theorem pushLeaf_writeviewmap (leaf : Nat) : (s.pushLeaf leaf).writeviewmap = s.writeviewmap := by
  unfold pushLeaf; split_ifs <;> rfl

@[simp] theorem pushLeaf_modified (leaf : Nat) : (s.pushLeaf leaf).modified = s.modified := by
  unfold pushLeaf; split_ifs <;> rfl

@[simp] theorem pushLeaf_batchWrite (leaf : Nat) : (s.pushLeaf leaf).batchWrite = s.batchWrite := by
  unfold pushLeaf; split_ifs <;> rfl

@[simp] theorem pushLeaf_emptyNodes (leaf : Nat) : (s.pushLeaf leaf).emptyNodes = s.emptyNodes := by
  unfold pushLeaf; split_ifs <;> rfl

@[simp] theorem pushLeaf_rnd (leaf : Nat) : (s.pushLeaf leaf).rnd = s.rnd := by
  unfold pushLeaf; split_ifs <;> rfl

@[simp] theorem cache_pushLeaf (leaf : Nat) : (s.pushLeaf leaf).cache = s.cache := by
  rw [cache, pushLeaf_store, cache]

@[simp] theorem cache_touch (bid : Bid n) : (s.touch bid).cache = s.cache := rfl

theorem mem_pushLeaf {leaf l : Nat} : l ∈ (s.pushLeaf leaf).leafList ↔ l ∈ s.leafList ∨ l = leaf := by
  unfold pushLeaf
  by_cases hl : leaf ∈ s.leafList
  · rw [if_pos hl]
    constructor
    · exact Or.inl
    · rintro (h | rfl)
      · exact h
      · exact hl
  · rw [if_neg hl, List.mem_append, List.mem_singleton]

theorem mem_nodes_pushLeaf {leaf i : Nat} :
    i ∈ nodes depth (s.pushLeaf leaf).leafList ↔ i ∈ nodes depth s.leafList ∨ i ∈ path depth leaf := by
  simp only [mem_nodes, mem_pushLeaf]
  constructor
  · rintro ⟨l, hl | rfl, hi⟩
    · exact Or.inl ⟨l, hl, hi⟩
    · exact Or.inr hi
  · rintro (⟨l, hl, hi⟩ | hi)
    · exact ⟨l, Or.inl hl, hi⟩
    · exact ⟨leaf, Or.inr rfl, hi⟩

theorem fetchPath_pushLeaf (leaf leaf' : Nat) :
    fetchPath depth (s.pushLeaf leaf) leaf' = (fetchPath depth s leaf').pushLeaf leaf := by
  unfold pushLeaf
  by_cases hl : leaf ∈ s.leafList
  · rw [if_pos hl, if_pos (show leaf ∈ (fetchPath depth s leaf').leafList from hl)]
  · rw [if_neg hl, if_neg (show leaf ∉ (fetchPath depth s leaf').leafList from hl)]
    rfl

theorem putNode_self {bid : Bid n} {node : Node n} (h : s.cache.get? bid = some node) : s.putNode bid node = s := by
  unfold putNode
  rw [show s.store.stash.insert bid node = s.store.stash from SortedMap.insert_self h]

theorem get?_putNode (bid k : Bid n) (node : Node n) :
    (s.putNode bid node).cache.get? k = if k = bid then some node else s.cache.get? k :=
  SortedMap.get?_insert ..

theorem get?_setNode {bid : Bid n} {node : Node n} (h : s.cache.get? bid = some node) (f : Node n → Node n) :
    s.setNode bid f = s.putNode bid (f node) := by
  unfold setNode
  rw [h]

end

/-! ## In the middle of an operation -/

/-- The blocks are those of `m`; the buckets read so far are dead, and their paths will be written back. -/
structure Mid {n : Nat} (depth : Nat) (s : Oram n) (m : Bid n → Option (Node n)) : Prop where
  holds : Holds (layout depth) s.readviewmap.toFinset s.store m
  drained : Drained (layout depth) (s.store, s.readviewmap)
  seen : ∀ i ∈ s.readviewmap, i ∈ nodes depth s.leafList
  leafs : ∀ l ∈ s.leafList, l < 2 ^ depth
  unwritten : s.writeviewmap = []
  touched : ∀ k ∈ s.modified, (s.cache.get? k).isSome = true
  draws : ∀ i, s.rnd i < 2 ^ depth
  covered : s.batchWrite = false → ∀ i ∈ nodes depth s.leafList, i ∈ s.readviewmap

/-- Between operations. -/
structure Rest {n : Nat} (depth : Nat) (s : Oram n) (m : Bid n → Option (Node n)) : Prop where
  holds : Holds (layout depth) ∅ s.store m
  leafs : s.leafList = []
  untouched : s.modified = []
  draws : ∀ i, s.rnd i < 2 ^ depth

section

variable {n depth : Nat} {s : Oram n} {m : Bid n → Option (Node n)}

theorem rest_new {rnd : Nat → Nat} (h : ∀ i, rnd i < 2 ^ depth) :
    Rest depth (new depth rnd : Oram n) fun _ => none :=
  ⟨holds_empty, rfl, rfl, h⟩

theorem Rest.start (h : Rest depth s m) (batchWrite : Bool) : Mid depth (s.start batchWrite) m where
  holds := h.holds
  drained := fun i hi => absurd hi List.not_mem_nil
  seen := fun i hi => absurd hi List.not_mem_nil
  leafs := by
    show ∀ l ∈ s.leafList, l < 2 ^ depth
    rw [h.leafs]
    simp
  unwritten := rfl
  touched := by
    show ∀ k ∈ s.modified, _
    rw [h.untouched]
    simp
  draws := h.draws
  covered := by
    intro _
    show ∀ i ∈ nodes depth s.leafList, _
    rw [h.leafs]
    simp [nodes]

theorem Mid.wf (h : Mid depth s m) {k : Bid n} {node : Node n} (hk : m k = some node) :
    node.key = k ∧ k.isZero = false ∧ node.pos < 2 ^ depth := by
  obtain ⟨h1, h2, h3⟩ := h.holds.wf k node hk
  refine ⟨h1, ?_, h3⟩
  have : (!k.isZero) = true := h2
  simpa using this

/-- An entry of the cache is the block of the map. -/
theorem Mid.of_cache (h : Mid depth s m) {k : Bid n} {node : Node n} (hc : s.cache.get? k = some node) :
    m k = some node := h.holds.stash k node hc

theorem Mid.cached (h : Mid depth s m) {k : Bid n} (hc : (s.cache.get? k).isSome = true) :
    ∃ node, m k = some node ∧ s.cache.get? k = some node := by
  obtain ⟨node, hn⟩ := Option.isSome_iff_exists.1 hc
  exact ⟨node, h.of_cache hn, hn⟩

theorem mem_readviewmap_fetchPath (s : Oram n) (leaf i : Nat) :
    i ∈ (fetchPath depth s leaf).readviewmap ↔ i ∈ s.readviewmap ∨ i ∈ path depth leaf := by
  have := Finset.ext_iff.1 (fetchesOnce_seen (L := layout depth) (s.store, s.readviewmap) (path depth leaf)) i
  rw [Finset.mem_union, List.mem_toFinset, List.mem_toFinset, List.mem_toFinset] at this
  exact this

/-- A path is read. -/
theorem Mid.visit (h : Mid depth s m) {leaf : Nat} (hl : leaf < 2 ^ depth) :
    Mid depth ((fetchPath depth s leaf).pushLeaf leaf) m ∧
      ∀ i ∈ path depth leaf, i ∈ ((fetchPath depth s leaf).pushLeaf leaf).readviewmap := by
  have hh := Holds.fetchesOnce (s := (s.store, s.readviewmap)) h.holds fun i hi => lt_size_of_mem_path hl hi
  have hmem : ∀ i, i ∈ (fetchPath depth s leaf).readviewmap ↔ i ∈ s.readviewmap ∨ i ∈ path depth leaf :=
    mem_readviewmap_fetchPath s leaf
  refine ⟨⟨?_, ?_, ?_, ?_, ?_, ?_, ?_, ?_⟩, ?_⟩
  · rw [pushLeaf_store, pushLeaf_readviewmap]
    exact hh
  · rw [pushLeaf_store, pushLeaf_readviewmap]
    exact h.drained.fetchesOnce _
  · intro i hi
    rw [pushLeaf_readviewmap, hmem] at hi
    rw [mem_nodes_pushLeaf]
    exact hi.imp_left (h.seen i)
  · intro l hl'
    rcases (mem_pushLeaf _).1 hl' with hl' | rfl
    · exact h.leafs l hl'
    · exact hl
  · rw [pushLeaf_writeviewmap]
    exact h.unwritten
  · intro k hk
    rw [pushLeaf_modified] at hk
    rw [cache_pushLeaf]
    obtain ⟨node, hn⟩ := Option.isSome_iff_exists.1 (h.touched k hk)
    have := get?_fetchesOnce_of_some (L := layout depth) (s := (s.store, s.readviewmap)) hn (path depth leaf)
    rw [cache, fetchPath, this]
    rfl
  · rw [pushLeaf_rnd]
    exact h.draws
  · intro hb i hi
    rw [pushLeaf_batchWrite] at hb
    rw [pushLeaf_readviewmap, hmem]
    rw [mem_nodes_pushLeaf] at hi
    exact hi.imp_left (h.covered hb i)
  · intro i hi
    rw [pushLeaf_readviewmap, hmem]
    exact Or.inr hi

/-- Reading takes nothing out of the cache. -/
theorem get?_fetchPath_of_some {k : Bid n} {node : Node n} (h : s.cache.get? k = some node) (leaf : Nat) :
    (fetchPath depth s leaf).cache.get? k = some node :=
  get?_fetchesOnce_of_some (L := layout depth) (s := (s.store, s.readviewmap)) h (path depth leaf)

/-- What is in the cache after a path was read. -/
theorem Mid.isSome_fetchPath (h : Mid depth s m) {k : Bid n} (hz : k.isZero = false) (leaf : Nat) :
    ((fetchPath depth s leaf).cache.get? k).isSome = true ↔
      (s.cache.get? k).isSome = true ∨ ∃ i ∈ path depth leaf, ∃ b ∈ s.store.bucket i, b.key = k := by
  have hreal : (layout depth : Layout (Bid n) (Node n)).real k = true := by
    show (!k.isZero) = true
    rw [hz]
    rfl
  exact isSome_fetchesOnce (L := layout depth) h.drained hreal (path depth leaf)

theorem fetchPath_bucket (leaf : Nat) : (fetchPath depth s leaf).store.bucket = s.store.bucket :=
  fetchesOnce_bucket (L := layout depth) (s.store, s.readviewmap) (path depth leaf)

theorem Mid.touch (h : Mid depth s m) {k : Bid n} (hk : (s.cache.get? k).isSome = true) : Mid depth (s.touch k) m :=
  ⟨h.holds, h.drained, h.seen, h.leafs, h.unwritten, fun j hj => by
    rcases List.mem_cons.1 hj with rfl | hj
    · exact hk
    · exact h.touched j hj, h.draws, h.covered⟩

/-- An entry of the cache is changed, or a new block put in. -/
theorem Mid.putNode (h : Mid depth s m) (node : Node n) (hz : node.key.isZero = false) (hp : node.pos < 2 ^ depth)
    (hk : m node.key = none ∨ (s.cache.get? node.key).isSome = true) :
    Mid depth (s.putNode node.key node) (Function.update m node.key (some node)) := by
  have hsome : ∀ k, (s.cache.get? k).isSome = true → ((s.putNode node.key node).cache.get? k).isSome = true := by
    intro k hk'
    rw [get?_putNode]
    split_ifs
    · rfl
    · exact hk'
  refine ⟨?_, fun i hi b hb hr => hsome _ (h.drained i hi b hb hr), h.seen, h.leafs, h.unwritten,
    fun k hk' => hsome k (h.touched k hk'), h.draws, h.covered⟩
  exact @Holds.put _ _ _ _ (layout depth) _ _ _ _ _ _ _ h.holds node (by show (!node.key.isZero) = true; rw [hz]; rfl) hp hk

/-! ## The calls of an operation -/

/-- What every call leaves alone: the cache only grows, every node in it keeps its leaf, what was read or noted stays
so, and no bucket is written.  `d` leaves are drawn. -/
structure Frame (d : Nat) (s s' : Oram n) : Prop where
  kept : ∀ k node, s.cache.get? k = some node → ∃ node', s'.cache.get? k = some node' ∧ node'.pos = node.pos
  reads : ∀ i ∈ s.readviewmap, i ∈ s'.readviewmap
  leafs : ∀ l ∈ s.leafList, l ∈ s'.leafList
  touches : s.modified <:+ s'.modified
  bucket : s'.store.bucket = s.store.bucket
  batch : s'.batchWrite = s.batchWrite
  rnd : s'.rnd = s.rnd
  drawn : s'.drawn = s.drawn + d

theorem Frame.refl (s : Oram n) : Frame 0 s s :=
  ⟨fun _ node h => ⟨node, h, rfl⟩, fun _ h => h, fun _ h => h, List.suffix_rfl, rfl, rfl, rfl, rfl⟩

theorem Frame.trans {d e : Nat} {s s' s'' : Oram n} (h : Frame d s s') (h' : Frame e s' s'') : Frame (d + e) s s'' where
  kept k node hk := by
    obtain ⟨node', hk', hp⟩ := h.kept k node hk
    obtain ⟨node'', hk'', hp'⟩ := h'.kept k node' hk'
    exact ⟨node'', hk'', hp'.trans hp⟩
  reads i hi := h'.reads i (h.reads i hi)
  leafs l hl := h'.leafs l (h.leafs l hl)
  touches := h.touches.trans h'.touches
  bucket := h'.bucket.trans h.bucket
  batch := h'.batch.trans h.batch
  rnd := h'.rnd.trans h.rnd
  drawn := by rw [h'.drawn, h.drawn, Nat.add_assoc]

/-- As many leaves drawn, the same leaf next. -/
theorem Frame.next {s s' : Oram n} (h : Frame 0 s s') : s'.rnd s'.drawn = s.rnd s.drawn := by
  rw [h.rnd, h.drawn, Nat.add_zero]

theorem Frame.cached {d : Nat} {s s' : Oram n} (h : Frame d s s') {k : Bid n} (hk : (s.cache.get? k).isSome = true) :
    (s'.cache.get? k).isSome = true := by
  obtain ⟨node, hn⟩ := Option.isSome_iff_exists.1 hk
  obtain ⟨node', hn', -⟩ := h.kept k node hn
  rw [hn']
  rfl

theorem frame_fetchPath (s : Oram n) (leaf : Nat) : Frame 0 s (fetchPath depth s leaf) where
  kept _ node hk := ⟨node, get?_fetchPath_of_some hk leaf, rfl⟩
  reads i hi := (mem_readviewmap_fetchPath s leaf i).2 (Or.inl hi)
  leafs _ hl := hl
  touches := List.suffix_rfl
  bucket := fetchPath_bucket leaf
  batch := rfl
  rnd := rfl
  drawn := rfl

theorem frame_pushLeaf (s : Oram n) (leaf : Nat) : Frame 0 s (s.pushLeaf leaf) where
  kept k node hk := ⟨node, by rwa [cache_pushLeaf], rfl⟩
  reads i hi := by rwa [pushLeaf_readviewmap]
  leafs l hl := (mem_pushLeaf s).2 (Or.inl hl)
  touches := by rw [pushLeaf_modified]
  bucket := by rw [pushLeaf_store]
  batch := pushLeaf_batchWrite s leaf
  rnd := pushLeaf_rnd s leaf
  drawn := by
    unfold pushLeaf
    split_ifs <;> rfl

theorem frame_touch (s : Oram n) (bid : Bid n) : Frame 0 s (s.touch bid) :=
  ⟨fun _ node h => ⟨node, h, rfl⟩, fun _ h => h, fun _ h => h, List.suffix_cons .., rfl, rfl, rfl, rfl⟩

/-- A node that is put in has the leaf of the one it replaces. -/
theorem frame_putNode (s : Oram n) {bid : Bid n} {node : Node n} (h : ∀ old, s.cache.get? bid = some old → node.pos = old.pos) :
    Frame 0 s (s.putNode bid node) where
  kept k old hk := by
    rw [get?_putNode]
    split_ifs with he
    · exact ⟨node, rfl, h old (he ▸ hk)⟩
    · exact ⟨old, hk, rfl⟩
  reads _ hi := hi
  leafs _ hl := hl
  touches := List.suffix_rfl
  bucket := rfl
  batch := rfl
  rnd := rfl
  drawn := rfl

theorem frame_randomPath (s : Oram n) : Frame 1 s ({ s with drawn := s.drawn + 1 } : Oram n) :=
  ⟨fun _ node h => ⟨node, h, rfl⟩, fun _ h => h, fun _ h => h, List.suffix_rfl, rfl, rfl, rfl, rfl⟩

/-- **`ReadNode`** of a stored block at its leaf finds it.  The path is read, unless the block is in the cache and its
leaf is noted. -/
theorem Mid.readNode_eq (h : Mid depth s m) {k : Bid n} {node : Node n} (hk : m k = some node) :
    s.readNode depth k node.pos node.pos = (some k, if s.cache.get? k = none ∨ node.pos ∉ s.leafList then
      ((fetchPath depth s node.pos).pushLeaf node.pos).touch k else s.touch k) := by
  obtain ⟨-, hz, hp⟩ := h.wf hk
  unfold Oram.readNode
  rw [hz, if_neg Bool.false_ne_true]
  by_cases hc : s.cache.get? k = none ∨ node.pos ∉ s.leafList
  · rw [if_pos hc, if_pos hc]
    obtain ⟨hv, hpath⟩ := h.visit hp
    have hget : (fetchPath depth s node.pos).cache.get? k = some node := by
      have := hv.holds.get?_of_path hk fun i hi => List.mem_toFinset.2 (hpath i hi)
      rwa [pushLeaf_store] at this
    have hacc : accessRead depth s k node.pos node.pos = (some k, (fetchPath depth s node.pos).pushLeaf node.pos) := by
      unfold accessRead
      simp only [hget, putNode_self _ hget]
    rw [hacc]
  · rw [if_neg hc, if_neg hc]
    rw [not_or, not_not] at hc
    obtain ⟨node', hn⟩ := Option.ne_none_iff_exists'.1 hc.1
    obtain rfl := Option.some.inj (hk.symm.trans (h.of_cache hn))
    rw [get?_setNode (s.touch k) (show (s.touch k).cache.get? k = some node from hn)]
    exact congrArg (Prod.mk (some k)) (putNode_self _ hn)

/-- What it leaves. -/
theorem Mid.readNode (h : Mid depth s m) {k : Bid n} {node : Node n} (hk : m k = some node) :
    ∃ s', s.readNode depth k node.pos node.pos = (some k, s') ∧ Mid depth s' m ∧ Frame 0 s s' ∧
      s'.cache.get? k = some node ∧ s'.modified = k :: s.modified ∧ s'.emptyNodes = s.emptyNodes ∧
      ∀ l, l ∈ s'.leafList ↔ l ∈ s.leafList ∨ l = node.pos := by
  obtain ⟨-, -, hp⟩ := h.wf hk
  refine ⟨_, h.readNode_eq hk, ?_⟩
  by_cases hc : s.cache.get? k = none ∨ node.pos ∉ s.leafList
  · rw [if_pos hc]
    obtain ⟨hv, hpath⟩ := h.visit hp
    have hget : ((fetchPath depth s node.pos).pushLeaf node.pos).cache.get? k = some node :=
      hv.holds.get?_of_path hk fun i hi => List.mem_toFinset.2 (hpath i hi)
    refine ⟨hv.touch (by rw [hget]; rfl), ((frame_fetchPath s node.pos).trans (frame_pushLeaf _ _)).trans (frame_touch _ _),
      hget, ?_, ?_, fun l => mem_pushLeaf _⟩
    · show k :: ((fetchPath depth s node.pos).pushLeaf node.pos).modified = k :: s.modified
      rw [pushLeaf_modified]
      rfl
    · show ((fetchPath depth s node.pos).pushLeaf node.pos).emptyNodes = s.emptyNodes
      rw [pushLeaf_emptyNodes]
      rfl
  · rw [if_neg hc]
    rw [not_or, not_not] at hc
    obtain ⟨node', hn⟩ := Option.ne_none_iff_exists'.1 hc.1
    obtain rfl := Option.some.inj (hk.symm.trans (h.of_cache hn))
    exact ⟨h.touch (by rw [hn]; rfl), frame_touch s k, hn, rfl, rfl, fun l =>
      ⟨Or.inl, fun hl => hl.elim id fun he => he ▸ hc.2⟩⟩

/-- **`WriteNode`** of a cached node only marks it. -/
theorem Mid.writeNode_cached (h : Mid depth s m) {k : Bid n} (hk : (s.cache.get? k).isSome = true) (node : Node n) :
    s.writeNode depth k node = .ok (node.pos, s.touch k) := by
  obtain ⟨node', hm, hc⟩ := h.cached hk
  unfold Oram.writeNode
  rw [(h.wf hm).2.1, if_neg Bool.false_ne_true, hc, if_neg (by simp)]

/-- In `batchWrite` mode the path of a new node is only noted. -/
theorem Mid.pushLeaf (h : Mid depth s m) (hb : s.batchWrite = true) {leaf : Nat} (hl : leaf < 2 ^ depth) :
    Mid depth (s.pushLeaf leaf) m := by
  refine ⟨?_, ?_, ?_, ?_, ?_, ?_, ?_, ?_⟩
  · rw [pushLeaf_store, pushLeaf_readviewmap]
    exact h.holds
  · rw [pushLeaf_store, pushLeaf_readviewmap]
    exact h.drained
  · intro i hi
    rw [pushLeaf_readviewmap] at hi
    exact (mem_nodes_pushLeaf _).2 (Or.inl (h.seen i hi))
  · intro l hl'
    rcases (mem_pushLeaf _).1 hl' with hl' | rfl
    · exact h.leafs l hl'
    · exact hl
  · rw [pushLeaf_writeviewmap]
    exact h.unwritten
  · rw [pushLeaf_modified, cache_pushLeaf]
    exact h.touched
  · rw [pushLeaf_rnd]
    exact h.draws
  · intro hb'
    rw [pushLeaf_batchWrite, hb] at hb'
    cases hb'

theorem pushLeaf_putNode (s : Oram n) (bid : Bid n) (node : Node n) (e leaf : Nat) :
    pushLeaf { s.putNode bid node with emptyNodes := e } leaf =
      { (s.pushLeaf leaf).putNode bid node with emptyNodes := e } := by
  unfold pushLeaf
  by_cases hl : leaf ∈ s.leafList
  · rw [if_pos hl, if_pos (show leaf ∈ ({ s.putNode bid node with emptyNodes := e } : Oram n).leafList from hl)]
  · rw [if_neg hl, if_neg (show leaf ∉ ({ s.putNode bid node with emptyNodes := e } : Oram n).leafList from hl)]
    rfl

theorem pushLeaf_touch (s : Oram n) (bid : Bid n) (leaf : Nat) :
    (s.touch bid).pushLeaf leaf = (s.pushLeaf leaf).touch bid := by
  unfold pushLeaf
  by_cases hl : leaf ∈ s.leafList
  · rw [if_pos hl, if_pos (show leaf ∈ (s.touch bid).leafList from hl)]
  · rw [if_neg hl, if_neg (show leaf ∉ (s.touch bid).leafList from hl)]
    rfl

/-- **`WriteNode`** of a new node puts it into the cache, unless the store is full. -/
theorem Mid.writeNode_new (h : Mid depth s m) {node : Node n} (hm : m node.key = none)
    (hz : node.key.isZero = false) (hp : node.pos < 2 ^ depth) :
    s.writeNode depth node.key node = .error .noSpace ∨
      ∃ s', s.writeNode depth node.key node = .ok (node.pos, s') ∧ Mid depth s' (Function.update m node.key (some node)) ∧
        Frame 0 s s' ∧ s'.cache.get? node.key = some node ∧ s'.modified = node.key :: s.modified ∧
        s'.emptyNodes + 1 = s.emptyNodes ∧ (∀ l, l ∈ s'.leafList ↔ l ∈ s.leafList ∨ l = node.pos) ∧
        (s.batchWrite = true → s'.readviewmap = s.readviewmap ∧ ∀ j ≠ node.key, s'.cache.get? j = s.cache.get? j) := by
  -- the path is read, or only noted
  obtain ⟨x, hx, hmid, hframe, hmod, hempty, hleafs, hbatch⟩ : ∃ x : Oram n,
      (if (s.touch node.key).batchWrite then s.touch node.key else fetchPath depth (s.touch node.key) node.pos) =
        x.touch node.key ∧ Mid depth (x.pushLeaf node.pos) m ∧ Frame 0 s x ∧ x.modified = s.modified ∧
        x.emptyNodes = s.emptyNodes ∧ x.leafList = s.leafList ∧ (s.batchWrite = true → x = s) := by
    cases hb : s.batchWrite with
    | true =>
      refine ⟨s, by rw [if_pos (show (s.touch node.key).batchWrite = true from hb)], h.pushLeaf hb hp, Frame.refl s,
        rfl, rfl, rfl, fun _ => rfl⟩
    | false =>
      refine ⟨fetchPath depth s node.pos, ?_, (h.visit hp).1, frame_fetchPath s node.pos, rfl, rfl, rfl,
        fun h => by cases h⟩
      rw [if_neg (by show ¬ (s.touch node.key).batchWrite = true; rw [show (s.touch node.key).batchWrite = false from hb]; simp)]
      rfl
  have hnone : s.cache.get? node.key = none := by
    cases hc : s.cache.get? node.key with
    | none => rfl
    | some node' =>
      rw [h.of_cache hc] at hm
      cases hm
  unfold Oram.writeNode accessWrite
  rw [hz, if_neg Bool.false_ne_true, if_pos hnone, hx]
  by_cases he : 0 < s.emptyNodes
  · right
    have hput := hmid.putNode node hz hp (Or.inl hm)
    have hcache : (((x.pushLeaf node.pos).putNode node.key node).cache.get? node.key) = some node := by
      rw [get?_putNode, if_pos rfl]
    have hdata : writeData (x.touch node.key) node.key node =
        .ok { (x.touch node.key).putNode node.key node with emptyNodes := s.emptyNodes - 1 } := by
      unfold writeData
      rw [show (x.touch node.key).emptyNodes = s.emptyNodes from hempty, if_pos he]
    have hfin := hput.touch (k := node.key) (by rw [hcache]; rfl)
    refine ⟨{ ((x.pushLeaf node.pos).putNode node.key node).touch node.key with emptyNodes := s.emptyNodes - 1 },
      ?_, ⟨hfin.holds, hfin.drained, hfin.seen, hfin.leafs, hfin.unwritten, hfin.touched, hfin.draws, hfin.covered⟩,
      ?_, hcache, ?_, ?_, ?_, fun hb => ⟨?_, fun j hj => ?_⟩⟩
    · dsimp only
      rw [hdata]
      simp only [Except.bind, bind, pure, Except.pure]
      rw [pushLeaf_putNode, pushLeaf_touch]
      rfl
    · have hput : Frame 0 (x.pushLeaf node.pos) ((x.pushLeaf node.pos).putNode node.key node) :=
        frame_putNode _ fun old ho => by
          have := hmid.of_cache ho
          rw [hm] at this
          cases this
      have hf := (hframe.trans (frame_pushLeaf x node.pos)).trans hput
      exact ⟨hf.kept, hf.reads, hf.leafs, hf.touches.trans (List.suffix_cons ..), hf.bucket, hf.batch, hf.rnd, hf.drawn⟩
    · show node.key :: (x.pushLeaf node.pos).modified = node.key :: s.modified
      rw [pushLeaf_modified, hmod]
    · show s.emptyNodes - 1 + 1 = s.emptyNodes
      omega
    · intro l
      show l ∈ (x.pushLeaf node.pos).leafList ↔ _
      rw [mem_pushLeaf, hleafs]
    · show (x.pushLeaf node.pos).readviewmap = _
      rw [pushLeaf_readviewmap, hbatch hb]
    · show ((x.pushLeaf node.pos).putNode node.key node).cache.get? j = _
      rw [get?_putNode, if_neg hj, cache_pushLeaf, hbatch hb]
  · left
    have hdata : writeData (x.touch node.key) node.key node = .error .noSpace := by
      unfold writeData
      rw [show (x.touch node.key).emptyNodes = s.emptyNodes from hempty, if_neg he]
    dsimp only
    rw [hdata]
    rfl

theorem readNode_isZero {bid : Bid n} (h : bid.isZero = true) (a b : Nat) : s.readNode depth bid a b = (none, s) := by
  unfold Oram.readNode
  rw [if_pos h]

/-- A value assigned through a pointer. -/
theorem Mid.setNode (h : Mid depth s m) {k : Bid n} {node : Node n} (hc : s.cache.get? k = some node)
    {f : Node n → Node n} (hkey : (f node).key = node.key) (hpos : (f node).pos = node.pos) :
    Mid depth (s.setNode k f) (Function.update m k (some (f node))) := by
  obtain ⟨rfl, hz, hlt⟩ := h.wf (h.of_cache hc)
  have hput := h.putNode (f node) (by rw [hkey]; exact hz) (by rw [hpos]; exact hlt)
    (Or.inr (by rw [hkey, hc]; rfl))
  rw [get?_setNode s hc]
  rwa [hkey] at hput

end

end Oram

end Sse.Omap
