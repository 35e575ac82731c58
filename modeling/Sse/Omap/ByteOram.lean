import Sse.Omap.ByteStore

/-!
# The ORAM over its bytes

`ORAM` once more, with the array of byte strings in place of the buckets: every bucket that
`FetchPath` reads is decrypted and cut into nodes, and every one that `WritePath` writes is
put together, encrypted under a new IV and stored.  As long as all nodes fit the types of
their members (`Good`) no assertion fails, and the paths give what they give on buckets.

    Rel s t → FetchPath goes to FetchPath over the buckets             (Rel.fetchPath)
    Rel s t → WritePath goes to WritePath over the buckets             (Rel.writePath)
-/

namespace Sse.Omap

open PathOram Aes

variable {n : Nat}

/-- The object with other buckets. -/
def Oram.withBucket (s : Oram n) (bucket : Nat → List (Node n)) : Oram n :=
  { s with store := { s.store with bucket := bucket } }

/-- The `ORAM` object over the `RAMStore`; the buckets of `core` are not used. -/
structure ByteOram (n : Nat) where
  core : Oram n
  ram : Nat → List UInt8

namespace ByteOram

section

variable (aes : Cbc.Cipher Block) (depth : Nat)

/-- `ORAM::ORAM`; `ivs` are what `GenerateIV` gives. -/
def new (rnd : Nat → Nat) (ivs : Nat → Block) : Option (ByteOram n) := do
  let bucket := List.replicate 4 (List.replicate (blockSize n) 0)
  let ram ← (List.range (2 ^ (depth + 1) - 1)).foldlM
    (fun ram i => do
      let ciphertext ← writeBucket n aes (ivs i) bucket
      return Function.update ram i ciphertext)
    (fun _ => [])
  return ⟨Oram.new depth rnd, ram⟩

/-- The body of the loop of `FetchPath`. -/
def fetchBucket (s : ByteOram n) (node : Nat) : Option (ByteOram n) :=
  if node ∈ s.core.readviewmap then some s
  else do
    let bucket ← readBucket aes (s.ram node)
    return { s with core := { s.core with
      store := { s.core.store with stash := bucket.foldl (take (layout depth)) s.core.store.stash }
      readviewmap := s.core.readviewmap ++ [node] } }

/-- `FetchPath`. -/
def fetchPath (s : ByteOram n) (leaf : Nat) : Option (ByteOram n) := do
  let s1 ← (path depth leaf).foldlM (fetchBucket aes depth) s
  return { s1 with core := { s1.core with readCnt := s1.core.readCnt + 1 } }

/-- `WritePath`. -/
def writePath (iv : Block) (gaps : Node n → Gaps) (s : ByteOram n) (leaf d : Nat) : Option (ByteOram n) :=
  let node := nodeOnPath depth leaf d
  if node ∈ s.core.writeviewmap then some s
  else do
    let validBlocks := candidates (layout depth) s.core.store.stash node d
    let ciphertext ← writeBucket n aes iv (bucketOf gaps (validBlocks.map Prod.snd))
    return {
      core := { s.core with
        store := { s.core.store with stash := validBlocks.foldl (fun c e => c.erase e.1) s.core.store.stash }
        writeviewmap := s.core.writeviewmap ++ [node] }
      ram := Function.update s.ram node ciphertext }

/-- `ReadNode(bid, lastLeaf, newLeaf)`. -/
def readNode (s : ByteOram n) (bid : Bid n) (lastLeaf newLeaf : Nat) : Option (ByteOram n × Option (Bid n)) :=
  if bid.isZero then some (s, none)
  else if s.core.cache.get? bid = none ∨ lastLeaf ∉ s.core.leafList then do
    let s1 ← fetchPath aes depth s lastLeaf
    match s1.core.cache.get? bid with
    | none => return (s1, none)
    | some node =>
      return ({ s1 with core := ((s1.core.putNode bid { node with pos := newLeaf }).pushLeaf lastLeaf).touch bid },
        some bid)
  else some ({ s with core := (s.core.touch bid).setNode bid fun node => { node with pos := newLeaf } }, some bid)

/-- The first lines of `Access(bid, node)`. -/
def fetchSingle (s : ByteOram n) (leaf : Nat) : Option (ByteOram n) :=
  if s.core.batchWrite then some s else fetchPath aes depth s leaf

/-- `WriteNode`; `none` where it throws. -/
def writeNode (s : ByteOram n) (bid : Bid n) (node : Node n) : Option (ByteOram n × Nat) :=
  if bid.isZero then none
  else if s.core.cache.get? bid = none then do
    let s2 ← fetchSingle aes depth { s with core := s.core.touch bid } node.pos
    let core ← (s2.core.writeData bid node).toOption
    return ({ s2 with core := core.pushLeaf node.pos }, node.pos)
  else some ({ s with core := s.core.touch bid }, node.pos)

def fakeReads : Nat → ByteOram n → Option (ByteOram n)
  | 0, s => some s
  | k + 1, s => do
    let (rnd, core) := s.core.randomPath
    let s1 ← fetchPath aes depth { s with core := core.pushLeaf rnd } rnd
    fakeReads k s1

/-- The padding loops of `finilize`. -/
def padding (s : ByteOram n) (find : Bool) : Option (ByteOram n) :=
  if s.core.batchWrite then some s
  else fakeReads aes depth (((if find then 145 else 435) * depth + 99) / 100 - s.core.readCnt) s

/-- The last loop of `finilize`. -/
def writePaths (ivs : Nat → Nat → Block) (gaps : Node n → Gaps) (s : ByteOram n) : Option (ByteOram n) :=
  (List.range (depth + 1)).reverse.foldlM
    (fun s' d => s.core.leafList.foldlM (fun s' leaf => writePath aes depth (ivs d leaf) gaps s' leaf d) s') s

/-- `finilize`. -/
def finilize (ivs : Nat → Nat → Block) (gaps : Node n → Gaps) (s : ByteOram n) (find : Bool) (rootKey : Bid n)
    (rootPos : Nat) : Option (ByteOram n × Nat) := do
  let s1 ← padding aes depth s find
  let s2 := { s1 with core := Oram.moveNodes depth s1.core }
  let rootPos := ((s2.core.cache.get? rootKey).map Node.pos).getD rootPos
  let s3 ← writePaths aes depth ivs gaps s2
  return ({ s3 with core := { s3.core with leafList := [], modified := [] } }, rootPos)

end

end ByteOram

/-! ## What neither looks at the buckets nor changes them -/

/-- A change of the object outside its buckets. -/
def Local (f : Oram n → Oram n) : Prop := ∀ s bucket, f (s.withBucket bucket) = (f s).withBucket bucket

theorem Local.foldl {α : Type} {f : Oram n → α → Oram n} (h : ∀ a, Local fun s => f s a) (l : List α) :
    Local fun s => l.foldl f s := by
  intro s bucket
  induction l generalizing s with
  | nil => rfl
  | cons a l ih => exact (congrArg (fun s' => l.foldl f s') (h a s bucket)).trans (ih (f s a))

section

variable (s : Oram n) (bucket : Nat → List (Node n))

@[simp] theorem cache_withBucket : (s.withBucket bucket).cache = s.cache := rfl

@[simp] theorem modified_withBucket : (s.withBucket bucket).modified = s.modified := rfl

@[simp] theorem leafList_withBucket : (s.withBucket bucket).leafList = s.leafList := rfl

@[simp] theorem randomPath_withBucket :
    (s.withBucket bucket).randomPath = (s.randomPath.1, s.randomPath.2.withBucket bucket) := rfl

@[simp] theorem pushLeaf_withBucket (leaf : Nat) :
    (s.withBucket bucket).pushLeaf leaf = (s.pushLeaf leaf).withBucket bucket := by
  unfold Oram.pushLeaf
  rw [leafList_withBucket]
  split_ifs <;> rfl

@[simp] theorem setNode_withBucket (bid : Bid n) (f : Node n → Node n) :
    (s.withBucket bucket).setNode bid f = (s.setNode bid f).withBucket bucket := by
  unfold Oram.setNode
  rw [cache_withBucket]
  cases s.cache.get? bid <;> rfl

@[simp] theorem copyPos_withBucket (k id : Bid n) (f : Nat → Node n → Node n) :
    (s.withBucket bucket).copyPos k id f = (s.copyPos k id f).withBucket bucket := by
  unfold Oram.copyPos
  rw [cache_withBucket]
  split
  · rfl
  · cases s.cache.get? id with
    | none => rfl
    | some c => exact setNode_withBucket s bucket k (f c.pos)

theorem moveNode_withBucket (i : Nat) (k : Bid n) :
    (s.withBucket bucket).moveNode i k = (s.moveNode i k).withBucket bucket := by
  unfold Oram.moveNode
  rw [cache_withBucket, modified_withBucket]
  cases s.cache.get? k with
  | none => rfl
  | some tmp =>
    simp only [randomPath_withBucket, setNode_withBucket]
    split_ifs
    · rw [copyPos_withBucket, copyPos_withBucket]
    · rw [copyPos_withBucket, copyPos_withBucket]
    · rfl

end

theorem local_moveNodes (depth : Nat) : Local (fun s : Oram n => s.moveNodes depth) := by
  refine Local.foldl (f := fun (s : Oram n) i => (s.cache.entries.map Prod.fst).foldl (Oram.moveNode i) s) ?_ _
  intro i s bucket
  exact Local.foldl (f := fun (s : Oram n) k => s.moveNode i k) (fun k s bucket => moveNode_withBucket s bucket i k) _ s
    bucket

/-! ## Nodes that fit their types -/

/-- The nodes of the cache fit, and the leaves that will be written back or drawn are leaves of the tree. -/
structure Good (depth : Nat) (s : Oram n) : Prop where
  cache : ∀ k node, s.cache.get? k = some node → Sized node
  leafs : ∀ l ∈ s.leafList, l < 2 ^ depth
  draws : ∀ i, s.rnd i < 2 ^ depth

section

variable {depth : Nat} {s : Oram n}

theorem leaf_lt (hdepth : depth < 32) {l : Nat} (hl : l < 2 ^ depth) : l < 2 ^ 31 :=
  hl.trans_le (Nat.pow_le_pow_right (by omega) (by omega))

/-- Other leaves for the node and for its children. -/
theorem Sized.withLeafs {node : Node n} (h : Sized node) {p l r : Nat} (hp : p < 2 ^ 31) (hl : l < 2 ^ 31)
    (hr : r < 2 ^ 31) : Sized { node with pos := p, leftPos := l, rightPos := r } where
  value := h.value
  pos := hp
  leftPos := hl
  rightPos := hr
  height := h.height

theorem Good.touch (h : Good depth s) (bid : Bid n) : Good depth (s.touch bid) := ⟨h.cache, h.leafs, h.draws⟩

theorem Good.randomPath (h : Good depth s) : Good depth s.randomPath.2 := ⟨h.cache, h.leafs, h.draws⟩

theorem Good.pushLeaf (h : Good depth s) {leaf : Nat} (hl : leaf < 2 ^ depth) : Good depth (s.pushLeaf leaf) where
  cache := by
    rw [Oram.cache_pushLeaf]
    exact h.cache
  leafs := by
    intro l hmem
    rcases (Oram.mem_pushLeaf s).1 hmem with hmem | rfl
    · exact h.leafs l hmem
    · exact hl
  draws := by
    rw [Oram.pushLeaf_rnd]
    exact h.draws

theorem Good.putNode (h : Good depth s) (bid : Bid n) {node : Node n} (hnode : Sized node) :
    Good depth (s.putNode bid node) where
  cache := by
    intro k node' hk
    rw [Oram.get?_putNode] at hk
    split at hk
    · cases hk
      exact hnode
    · exact h.cache k node' hk
  leafs := h.leafs
  draws := h.draws

theorem Good.setNode (h : Good depth s) (bid : Bid n) {f : Node n → Node n} (hf : ∀ node, Sized node → Sized (f node)) :
    Good depth (s.setNode bid f) := by
  unfold Oram.setNode
  cases hk : s.cache.get? bid with
  | none => exact h
  | some node => exact h.putNode bid (hf node (h.cache bid node hk))

theorem Good.copyPos (h : Good depth s) (k id : Bid n) {f : Nat → Node n → Node n}
    (hf : ∀ p < 2 ^ 31, ∀ node, Sized node → Sized (f p node)) : Good depth (s.copyPos k id f) := by
  unfold Oram.copyPos
  split
  · exact h
  · cases hk : s.cache.get? id with
    | none => exact h
    | some c => exact h.setNode k (hf c.pos (h.cache id c hk).pos)

theorem Good.moveNode (hdepth : depth < 32) (h : Good depth s) (i : Nat) (k : Bid n) :
    Good depth (s.moveNode i k) := by
  unfold Oram.moveNode
  cases s.cache.get? k with
  | none => exact h
  | some tmp =>
    -- a new leaf, then the leaves of the children
    have hmove : Good depth (s.randomPath.2.setNode k fun tmp => { tmp with pos := s.randomPath.1 }) :=
      h.randomPath.setNode k fun node hnode =>
        hnode.withLeafs (leaf_lt hdepth (h.draws s.drawn)) hnode.leftPos hnode.rightPos
    have hchildren : ∀ s' : Oram n, Good depth s' →
        Good depth ((s'.copyPos k tmp.leftID fun pos tmp => { tmp with leftPos := pos }).copyPos k tmp.rightID
          fun pos tmp => { tmp with rightPos := pos }) := fun s' hs' =>
      (hs'.copyPos k tmp.leftID fun p hp node hnode => hnode.withLeafs hnode.pos hp hnode.rightPos).copyPos k tmp.rightID
        fun p hp node hnode => hnode.withLeafs hnode.pos hnode.leftPos hp
    simp only
    split_ifs
    · exact hchildren _ hmove
    · exact hchildren _ h
    · exact h

theorem Good.foldl {α : Type} {f : Oram n → α → Oram n} (hf : ∀ s a, Good depth s → Good depth (f s a)) (l : List α)
    (h : Good depth s) : Good depth (l.foldl f s) := by
  induction l generalizing s with
  | nil => exact h
  | cons a l ih => exact ih (hf s a h)

theorem Good.moveNodes (hdepth : depth < 32) (h : Good depth s) : Good depth (s.moveNodes depth) :=
  h.foldl (fun _ i h => h.foldl (fun _ k h => h.moveNode hdepth i k) _) _

end

/-! ## Bytes that stand for buckets -/

/-- The byte strings are read as the buckets, and everything fits. -/
structure Rep (aes : Cbc.Cipher Block) (depth : Nat) (s : ByteOram n) (bucket : Nat → List (Node n)) : Prop where
  good : Good depth s.core
  reads : ∀ i < 2 ^ (depth + 1) - 1, readBucket aes (s.ram i) = some (bucket i)
  sized : ∀ i < 2 ^ (depth + 1) - 1, ∀ node ∈ bucket i, Sized node

/-- The object over bytes stands for the one over buckets. -/
def Rel (aes : Cbc.Cipher Block) (depth : Nat) (s : ByteOram n) (t : Oram n) : Prop :=
  ∃ bucket, Rep aes depth s bucket ∧ s.core.withBucket bucket = t

/-- A step over bytes goes through, to what stands for `t`. -/
def Goes (aes : Cbc.Cipher Block) (depth : Nat) (x : Option (ByteOram n)) (t : Oram n) : Prop :=
  ∃ s, x = some s ∧ Rel aes depth s t

section

variable {aes : Cbc.Cipher Block} {depth : Nat} {s : ByteOram n} {t : Oram n}

theorem Rel.goes (h : Rel aes depth s t) : Goes aes depth (some s) t := ⟨s, rfl, h⟩

theorem Goes.bind {x : Option (ByteOram n)} {f : ByteOram n → Option (ByteOram n)} {t' : Oram n}
    (h : Goes aes depth x t) (hf : ∀ s, Rel aes depth s t → Goes aes depth (f s) t') : Goes aes depth (x >>= f) t' := by
  obtain ⟨s, rfl, hR⟩ := h
  exact hf s hR

theorem Goes.foldlM {α : Type} {f : ByteOram n → α → Option (ByteOram n)} {g : Oram n → α → Oram n} {l : List α}
    (hf : ∀ a ∈ l, ∀ s t, Rel aes depth s t → Goes aes depth (f s a) (g t a)) (h : Rel aes depth s t) :
    Goes aes depth (l.foldlM f s) (l.foldl g t) := by
  induction l generalizing s t with
  | nil => exact h.goes
  | cons a l ih =>
    rw [List.foldlM_cons, List.foldl_cons]
    exact (hf a List.mem_cons_self s t h).bind fun s' h' =>
      ih (fun b hb => hf b (List.mem_cons_of_mem _ hb)) h'

theorem Rel.good (h : Rel aes depth s t) : Good depth s.core := by
  obtain ⟨bucket, hrep, -⟩ := h
  exact hrep.good

/-- What does not look at the buckets is the same on both sides. -/
theorem Rel.agree (h : Rel aes depth s t) {α : Type} (f : Oram n → α)
    (hf : ∀ s bucket, f (s.withBucket bucket) = f s) : f s.core = f t := by
  obtain ⟨bucket, -, rfl⟩ := h
  exact (hf s.core bucket).symm

theorem Rel.cache_eq (h : Rel aes depth s t) : s.core.cache = t.cache := h.agree Oram.cache fun _ _ => rfl

/-- A change outside the buckets is the same change on both sides. -/
theorem Rel.change (h : Rel aes depth s t) (f : Oram n → Oram n) (hf : Local f) (hgood : Good depth (f s.core)) :
    Rel aes depth { s with core := f s.core } (f t) := by
  obtain ⟨bucket, hrep, rfl⟩ := h
  exact ⟨bucket, ⟨hgood, hrep.reads, hrep.sized⟩, (hf s.core bucket).symm⟩

/-! ## Paths -/

/-- The body of the loop of `FetchPath`, over buckets. -/
def visit (depth : Nat) (t : Oram n) (i : Nat) : Oram n :=
  let r := fetchOnce (layout depth) (t.store, t.readviewmap) i
  { t with store := r.1, readviewmap := r.2 }

/-- `WritePath`, over buckets. -/
def rewrite (depth : Nat) (leaf d : Nat) (t : Oram n) : Oram n :=
  let r := evictOnce (layout depth) (t.store, t.writeviewmap) (nodeOnPath depth leaf d) d
  { t with store := r.1, writeviewmap := r.2 }

theorem foldl_visit (t : Oram n) (l : List Nat) :
    l.foldl (visit depth) t =
      { t with
        store := (l.foldl (fetchOnce (layout depth)) (t.store, t.readviewmap)).1
        readviewmap := (l.foldl (fetchOnce (layout depth)) (t.store, t.readviewmap)).2 } := by
  induction l generalizing t with
  | nil => rfl
  | cons i l ih => exact ih (visit depth t i)

theorem foldl_rewrite (t : Oram n) (d : Nat) (l : List Nat) :
    l.foldl (fun t leaf => rewrite depth leaf d t) t =
      { t with
        store := (l.foldl (fun r leaf => evictOnce (layout depth) r (nodeOnPath depth leaf d) d)
          (t.store, t.writeviewmap)).1
        writeviewmap := (l.foldl (fun r leaf => evictOnce (layout depth) r (nodeOnPath depth leaf d) d)
          (t.store, t.writeviewmap)).2 } := by
  induction l generalizing t with
  | nil => rfl
  | cons leaf l ih => exact ih (rewrite depth leaf d t)

theorem writePaths_eq (t : Oram n) :
    t.writePaths depth =
      (List.range (depth + 1)).reverse.foldl (fun t' d => t.leafList.foldl (fun t' leaf => rewrite depth leaf d t') t')
        t := by
  suffices h : ∀ (ds : List Nat) (t' : Oram n),
      ds.foldl (fun t' d => t.leafList.foldl (fun t' leaf => rewrite depth leaf d t') t') t' =
        { t' with
          store := (ds.foldl (fun r d => t.leafList.foldl
            (fun r leaf => evictOnce (layout depth) r (nodeOnPath depth leaf d) d) r) (t'.store, t'.writeviewmap)).1
          writeviewmap := (ds.foldl (fun r d => t.leafList.foldl
            (fun r leaf => evictOnce (layout depth) r (nodeOnPath depth leaf d) d) r)
            (t'.store, t'.writeviewmap)).2 } from (h _ t).symm
  intro ds
  induction ds with
  | nil => exact fun t' => rfl
  | cons d ds ih =>
    intro t'
    rw [List.foldl_cons, ih, foldl_rewrite]
    rfl

/-- The nodes of a bucket fit, so the cache fits after it was read. -/
theorem sized_takes {bucket : List (Node n)} (hb : ∀ node ∈ bucket, Sized node) {stash : SortedMap (Bid n) (Node n)}
    (hs : ∀ k node, stash.get? k = some node → Sized node) :
    ∀ k node, (bucket.foldl (take (layout depth)) stash).get? k = some node → Sized node := by
  induction bucket generalizing stash with
  | nil => exact hs
  | cons b bucket ih =>
    refine ih (fun node hnode => hb node (List.mem_cons_of_mem _ hnode)) fun k node hk => ?_
    unfold take at hk
    split at hk
    · unfold SortedMap.insertNew at hk
      split at hk
      · exact hs k node hk
      · rw [SortedMap.get?_insert] at hk
        split at hk
        · cases hk
          exact hb b List.mem_cons_self
        · exact hs k node hk
    · exact hs k node hk

theorem get?_erases {stash : SortedMap (Bid n) (Node n)} {l : List (Bid n × Node n)} {k : Bid n} {node : Node n}
    (h : (l.foldl (fun c e => c.erase e.1) stash).get? k = some node) : stash.get? k = some node := by
  induction l generalizing stash with
  | nil => exact h
  | cons e l ih =>
    have := ih h
    rw [SortedMap.get?_erase] at this
    split at this
    · cases this
    · exact this

theorem Rel.fetchBucket (h : Rel aes depth s t) {i : Nat} (hi : i < 2 ^ (depth + 1) - 1) :
    Goes aes depth (s.fetchBucket aes depth i) (visit depth t i) := by
  obtain ⟨bucket, hrep, rfl⟩ := h
  unfold ByteOram.fetchBucket visit fetchOnce
  by_cases hseen : i ∈ s.core.readviewmap
  · rw [if_pos hseen, if_pos (show i ∈ ((s.core.withBucket bucket).store, (s.core.withBucket bucket).readviewmap).2
      from hseen)]
    exact ⟨s, rfl, bucket, hrep, rfl⟩
  · rw [if_neg hseen, hrep.reads i hi, if_neg (show i ∉ ((s.core.withBucket bucket).store,
      (s.core.withBucket bucket).readviewmap).2 from hseen)]
    exact ⟨_, rfl, bucket, ⟨⟨sized_takes (hrep.sized i hi) hrep.good.cache, hrep.good.leafs, hrep.good.draws⟩,
      hrep.reads, hrep.sized⟩, rfl⟩

/-- **FetchPath.** -/
theorem Rel.fetchPath (h : Rel aes depth s t) {leaf : Nat} (hl : leaf < 2 ^ depth) :
    Goes aes depth (s.fetchPath aes depth leaf) (t.fetchPath depth leaf) := by
  have hpath : Goes aes depth ((path depth leaf).foldlM (ByteOram.fetchBucket aes depth) s)
      ((path depth leaf).foldl (visit depth) t) :=
    Goes.foldlM (fun i hi s t h => h.fetchBucket (lt_size_of_mem_path (L := layout (n := n) depth) hl hi)) h
  obtain ⟨s1, hs1, hR⟩ := hpath
  rw [ByteOram.fetchPath, hs1]
  have hcount := hR.change (fun t => { t with readCnt := t.readCnt + 1 }) (fun _ _ => rfl)
    ⟨hR.good.cache, hR.good.leafs, hR.good.draws⟩
  rw [foldl_visit] at hcount
  exact ⟨_, rfl, hcount⟩

/-- **WritePath.** -/
theorem Rel.writePath (h : Rel aes depth s t) {leaf d : Nat} (hl : leaf < 2 ^ depth) (hd : d ≤ depth) (iv : Block)
    (gaps : Node n → Gaps) : Goes aes depth (s.writePath aes depth iv gaps leaf d) (rewrite depth leaf d t) := by
  obtain ⟨bucket, hrep, rfl⟩ := h
  have hi := nodeOnPath_lt hl hd
  unfold ByteOram.writePath rewrite evictOnce
  set i := nodeOnPath depth leaf d
  by_cases hseen : i ∈ s.core.writeviewmap
  · rw [if_pos hseen, if_pos (show i ∈ ((s.core.withBucket bucket).store, (s.core.withBucket bucket).writeviewmap).2
      from hseen)]
    exact ⟨s, rfl, bucket, hrep, rfl⟩
  · rw [if_neg hseen, if_neg (show i ∉ ((s.core.withBucket bucket).store,
      (s.core.withBucket bucket).writeviewmap).2 from hseen)]
    set c := candidates (layout depth) s.core.store.stash i d with hc
    have hlen : (c.map Prod.snd).length ≤ 4 := by
      rw [List.length_map, hc]
      exact List.length_take_le _ _
    have hsized : ∀ node ∈ c.map Prod.snd, Sized node := by
      intro node hnode
      obtain ⟨e, he, rfl⟩ := List.mem_map.1 hnode
      have hmem := List.mem_of_mem_filter (List.mem_of_mem_take he)
      exact hrep.good.cache e.1 e.2 ((SortedMap.mem_entries _ e.1 e.2).1 hmem)
    obtain ⟨ciphertext, hwrite, hread⟩ := readBucket_writeBucket aes iv gaps hlen hsized
    have hafter : readBucket aes ciphertext = some (c.map Prod.snd ++ List.replicate (4 - c.length) dummyNode) := by
      rw [hread, List.length_map]
    let after : ByteOram n :=
      { core := { s.core with
          store := { s.core.store with stash := c.foldl (fun c e => c.erase e.1) s.core.store.stash }
          writeviewmap := s.core.writeviewmap ++ [i] }
        ram := Function.update s.ram i ciphertext }
    refine ⟨after, ?_, Function.update bucket i (c.map Prod.snd ++ List.replicate (4 - c.length) dummyNode), ?_, rfl⟩
    · simp only [hwrite]
      rfl
    refine ⟨⟨fun k node hk => hrep.good.cache k node (get?_erases hk), hrep.good.leafs, hrep.good.draws⟩, ?_, ?_⟩
    · intro j hj
      by_cases hji : j = i
      · subst hji
        rw [Function.update_self, show after.ram i = ciphertext from Function.update_self ..]
        exact hafter
      · rw [Function.update_of_ne hji, show after.ram j = s.ram j from Function.update_of_ne hji ..]
        exact hrep.reads j hj
    · intro j hj node hnode
      by_cases hji : j = i
      · subst hji
        rw [Function.update_self] at hnode
        rcases List.mem_append.1 hnode with hnode | hnode
        · exact hsized node hnode
        · rw [List.eq_of_mem_replicate hnode]
          exact sized_dummy
      · rw [Function.update_of_ne hji] at hnode
        exact hrep.sized j hj node hnode

/-- **The last loop of finilize.** -/
theorem Rel.writePaths (h : Rel aes depth s t) (ivs : Nat → Nat → Block) (gaps : Node n → Gaps) :
    Goes aes depth (s.writePaths aes depth ivs gaps) (t.writePaths depth) := by
  rw [ByteOram.writePaths, writePaths_eq, ← h.agree Oram.leafList fun _ _ => rfl]
  refine Goes.foldlM (fun d hd s' t' h' => ?_) h
  have hd' : d ≤ depth := by
    have := List.mem_range.1 (List.mem_reverse.1 hd)
    omega
  exact Goes.foldlM (fun leaf hleaf s' t' h' => h'.writePath (h.good.leafs leaf hleaf) hd' _ gaps) h'

end

end Sse.Omap
