import Sse.Omap.ByteOram

/-!
# The calls of the ORAM over its bytes

Each call of the interface is a few paths and some assignments in the cache.  So over the
byte strings it answers what it answers over the buckets, whatever IVs are drawn and
whatever stands in the gaps of the nodes, and so does every list of calls.

    callBytes and callBuckets answer alike, with the same cache, from `new` on   (oram_over_bytes)
-/

namespace Sse.Omap

open PathOram Aes

variable {n : Nat}

/-! ## The calls -/

/-- The constructor writes an empty bucket everywhere. -/
theorem goes_new (aes : Cbc.Cipher Block) {depth : Nat} {rnd : Nat → Nat} (hrnd : ∀ i, rnd i < 2 ^ depth)
    (ivs : Nat → Block) :
    Goes aes depth (ByteOram.new aes depth rnd ivs) (Oram.new depth rnd : Oram n) := by
  let write : (Nat → List UInt8) → Nat → Option (Nat → List UInt8) := fun ram i => do
    let ciphertext ← writeBucket n aes (ivs i) (List.replicate 4 (List.replicate (blockSize n) 0))
    return Function.update ram i ciphertext
  have hfill : ∀ k, ∃ ram, (List.range k).foldlM write (fun _ => []) = some ram ∧
      ∀ i < k, readBucket aes (ram i) = some (List.replicate 4 (dummyNode : Node n)) := by
    intro k
    induction k with
    | zero => exact ⟨_, rfl, fun i hi => absurd hi (Nat.not_lt_zero i)⟩
    | succ k ih =>
      obtain ⟨ram, hram, hreads⟩ := ih
      obtain ⟨ciphertext, hwrite, hread⟩ := readBucket_writeBucket aes (ivs k)
        (fun _ => ⟨List.replicate 8 0, List.replicate 4 0, List.replicate 4 0, rfl, rfl, rfl⟩)
        (show ([] : List (Node n)).length ≤ 4 from Nat.zero_le 4) (fun node hnode => absurd hnode List.not_mem_nil)
      have hstep : write ram k = some (Function.update ram k ciphertext) := congrArg (· >>= _) hwrite
      refine ⟨Function.update ram k ciphertext, ?_, fun i hi => ?_⟩
      · rw [List.range_succ, List.foldlM_append, hram]
        exact congrArg (· >>= fun r => some r) hstep
      · by_cases hik : i = k
        · rw [hik, Function.update_self]
          exact hread
        · rw [Function.update_of_ne hik]
          exact hreads i (by omega)
  obtain ⟨ram, hram, hreads⟩ := hfill (2 ^ (depth + 1) - 1)
  refine ⟨⟨Oram.new depth rnd, ram⟩, congrArg (· >>= _) hram, fun _ => List.replicate 4 dummyNode, ⟨⟨?_, ?_, hrnd⟩,
    hreads, ?_⟩, rfl⟩
  · intro k node hk
    cases hk
  · intro l hl
    cases hl
  · intro i _ node hnode
    rw [List.eq_of_mem_replicate hnode]
    exact sized_dummy

section

variable {aes : Cbc.Cipher Block} {depth : Nat} {s : ByteOram n} {t : Oram n}

/-- **ReadNode.** -/
theorem Rel.readNode (hdepth : depth < 32) (h : Rel aes depth s t) {bid : Bid n} {lastLeaf newLeaf : Nat}
    (hl : bid.isZero = false → lastLeaf < 2 ^ depth ∧ newLeaf < 2 ^ depth) :
    Runs.Matches (Rel aes depth) (s.readNode aes depth bid lastLeaf newLeaf)
      (some (t.readNode depth bid lastLeaf newLeaf).swap) := by
  have hleafs : s.core.leafList = t.leafList := h.agree Oram.leafList fun _ _ => rfl
  unfold ByteOram.readNode Oram.readNode
  rw [← h.cache_eq, ← hleafs]
  cases hz : bid.isZero with
  | true => exact ⟨h, rfl⟩
  | false =>
    obtain ⟨hlast, hnew⟩ := hl hz
    have hpos : ∀ node : Node n, Sized node → Sized { node with pos := newLeaf } := fun node hnode =>
      hnode.withLeafs (leaf_lt hdepth hnew) hnode.leftPos hnode.rightPos
    simp only [Bool.false_eq_true, if_false]
    split
    · obtain ⟨s1, hs1, hR⟩ := h.fetchPath hlast
      have hcache1 := hR.cache_eq
      simp only [hs1, Oram.accessRead, Option.bind_eq_bind, Option.bind_some, ← hcache1]
      cases hk : s1.core.cache.get? bid with
      | none => exact ⟨hR, rfl⟩
      | some node =>
        have hnode := hpos node (hR.good.cache bid node hk)
        refine ⟨hR.change (fun t => ((t.putNode bid { node with pos := newLeaf }).pushLeaf lastLeaf).touch bid)
          (fun s bucket => ?_) (((hR.good.putNode bid hnode).pushLeaf hlast).touch bid), rfl⟩
        exact congrArg (fun t : Oram n => t.touch bid) (pushLeaf_withBucket (s.putNode bid _) bucket lastLeaf)
    · exact ⟨h.change (fun t => (t.touch bid).setNode bid fun node => { node with pos := newLeaf })
        (fun s bucket => setNode_withBucket (s.touch bid) bucket bid _) ((h.good.touch bid).setNode bid hpos), rfl⟩

/-- **WriteNode.** -/
theorem Rel.writeNode (h : Rel aes depth s t) {bid : Bid n} {node : Node n} (hnode : Sized node)
    (hpos : node.pos < 2 ^ depth) :
    Runs.Matches (Rel aes depth) (s.writeNode aes depth bid node)
      ((t.writeNode depth bid node).toOption.map Prod.swap) := by
  have htouch := h.change (fun t => t.touch bid) (fun _ _ => rfl) (h.good.touch bid)
  have hbatch : (s.core.touch bid).batchWrite = (t.touch bid).batchWrite := h.agree Oram.batchWrite fun _ _ => rfl
  unfold ByteOram.writeNode Oram.writeNode
  rw [← h.cache_eq]
  cases hz : bid.isZero with
  | true => trivial
  | false =>
    simp only [Bool.false_eq_true, if_false]
    split
    · have hfetch : Goes aes depth
          (ByteOram.fetchSingle aes depth { s with core := s.core.touch bid } node.pos)
          (if (t.touch bid).batchWrite then t.touch bid else (t.touch bid).fetchPath depth node.pos) := by
        rw [ByteOram.fetchSingle, hbatch]
        split
        · exact htouch.goes
        · exact htouch.fetchPath hpos
      obtain ⟨s2, hs2, hR⟩ := hfetch
      simp only [hs2, Oram.accessWrite, Option.bind_eq_bind, Option.bind_some]
      set t2 := if (t.touch bid).batchWrite then t.touch bid else (t.touch bid).fetchPath depth node.pos with ht2
      have hempty : s2.core.emptyNodes = t2.emptyNodes := hR.agree Oram.emptyNodes fun _ _ => rfl
      by_cases hroom : 0 < s2.core.emptyNodes
      · have hwrite : s2.core.writeData bid node =
            .ok { s2.core.putNode bid node with emptyNodes := s2.core.emptyNodes - 1 } := if_pos hroom
        have hwrite' : t2.writeData bid node = .ok { t2.putNode bid node with emptyNodes := t2.emptyNodes - 1 } :=
          if_pos (hempty ▸ hroom)
        have hput := hR.good.putNode bid hnode
        have hspent : Good depth { s2.core.putNode bid node with emptyNodes := s2.core.emptyNodes - 1 } :=
          ⟨hput.cache, hput.leafs, hput.draws⟩
        have hpushed := hR.change
          (fun t => ({ t.putNode bid node with emptyNodes := t.emptyNodes - 1 } : Oram n).pushLeaf node.pos)
          (fun s bucket =>
            pushLeaf_withBucket { s.putNode bid node with emptyNodes := s.emptyNodes - 1 } bucket node.pos)
          (hspent.pushLeaf hpos)
        rw [hwrite, hwrite']
        exact ⟨hpushed, rfl⟩
      · have hwrite : s2.core.writeData bid node = .error .noSpace := if_neg hroom
        have hwrite' : t2.writeData bid node = .error .noSpace := if_neg (hempty ▸ hroom)
        rw [hwrite, hwrite']
        trivial
    · exact ⟨htouch, rfl⟩

theorem Rel.fakeReads (h : Rel aes depth s t) (k : Nat) :
    Goes aes depth (s.fakeReads aes depth k) (t.fakeReads depth k) := by
  induction k generalizing s t with
  | zero => exact h.goes
  | succ k ih =>
    have hdraw : s.core.randomPath.1 = t.randomPath.1 := h.agree (fun t => t.randomPath.1) fun _ _ => rfl
    have hrnd : t.randomPath.1 < 2 ^ depth := hdraw ▸ h.good.draws s.core.drawn
    have hpush := h.change (fun t' => t'.randomPath.2.pushLeaf t.randomPath.1)
      (fun s bucket => pushLeaf_withBucket s.randomPath.2 bucket _) (h.good.randomPath.pushLeaf hrnd)
    show Goes aes depth (ByteOram.fetchPath aes depth
      { s with core := s.core.randomPath.2.pushLeaf s.core.randomPath.1 } s.core.randomPath.1 >>= _) _
    rw [hdraw]
    exact (hpush.fetchPath hrnd).bind fun s' h' => ih h'

/-- **finilize.** -/
theorem Rel.finilize (hdepth : depth < 32) (h : Rel aes depth s t) (ivs : Nat → Nat → Block) (gaps : Node n → Gaps)
    (find : Bool) (rootKey : Bid n) (rootPos : Nat) :
    Runs.Matches (Rel aes depth) (s.finilize aes depth ivs gaps find rootKey rootPos)
      (some (t.finilize depth find rootKey rootPos).swap) := by
  have hbatch : s.core.batchWrite = t.batchWrite := h.agree Oram.batchWrite fun _ _ => rfl
  have hcnt : s.core.readCnt = t.readCnt := h.agree Oram.readCnt fun _ _ => rfl
  have hpad : Goes aes depth (s.padding aes depth find) (if t.batchWrite then t else t.padding depth find) := by
    rw [ByteOram.padding, hbatch, hcnt]
    split
    · exact h.goes
    · exact h.fakeReads _
  obtain ⟨s1, hs1, h1⟩ := hpad
  have h2 := h1.change _ (local_moveNodes depth) (h1.good.moveNodes hdepth)
  obtain ⟨s3, hs3, h3⟩ := h2.writePaths ivs gaps
  have hcache := h2.cache_eq
  have h4 := h3.change (fun t => { t with leafList := [], modified := [] }) (fun _ _ => rfl)
    ⟨h3.good.cache, fun l hl => absurd hl List.not_mem_nil, h3.good.draws⟩
  unfold ByteOram.finilize Oram.finilize
  simp only [hs1, hs3, Option.bind_eq_bind, Option.bind_some]
  refine ⟨h4, ?_⟩
  simp only [hcache]
  cases (Oram.moveNodes depth (if t.batchWrite then t else t.padding depth find)).cache.get? rootKey with
  | none => rfl
  | some root => rfl

end

/-! ## Runs -/

/-- A call of the interface, or an assignment through a `Node*` that it gave out.  `ivs` and `gaps` are the
IVs and the gaps of the buckets that `finilize` writes. -/
inductive OramCall (n : Nat) where
  | start (batchWrite : Bool)
  | readNode (bid : Bid n) (lastLeaf newLeaf : Nat)
  | writeNode (bid : Bid n) (node : Node n)
  | assign (bid : Bid n) (f : Node n → Node n)
  | finilize (find : Bool) (rootKey : Bid n) (rootPos : Nat) (ivs : Nat → Nat → Block) (gaps : Node n → Gaps)

inductive OramAnswer (n : Nat) where
  | done
  | node (bid : Option (Bid n))
  | pos (p : Nat)

/-- The leaves are leaves of the tree, and the members of the nodes are in the ranges of their types. -/
def OramCall.Fits (depth : Nat) : OramCall n → Prop
  | .start _ => True
  | .readNode bid lastLeaf newLeaf => bid.isZero = false → lastLeaf < 2 ^ depth ∧ newLeaf < 2 ^ depth
  | .writeNode _ node => Sized node ∧ node.pos < 2 ^ depth
  | .assign _ f => ∀ node, Sized node → Sized (f node)
  | .finilize .. => True

/-- A call over the byte strings; with its answer comes the cache, which the caller sees through its pointers. -/
def callBytes (aes : Cbc.Cipher Block) (depth : Nat) (s : ByteOram n) (c : OramCall n) :
    Option (ByteOram n × OramAnswer n × SortedMap (Bid n) (Node n)) :=
  let r : Option (ByteOram n × OramAnswer n) := match c with
    | .start batchWrite => some ({ s with core := s.core.start batchWrite }, .done)
    | .readNode bid lastLeaf newLeaf => (s.readNode aes depth bid lastLeaf newLeaf).map (Prod.map id OramAnswer.node)
    | .writeNode bid node => (s.writeNode aes depth bid node).map (Prod.map id OramAnswer.pos)
    | .assign bid f => some ({ s with core := s.core.setNode bid f }, .done)
    | .finilize find rootKey rootPos ivs gaps =>
      (s.finilize aes depth ivs gaps find rootKey rootPos).map (Prod.map id OramAnswer.pos)
  r.map fun r => (r.1, r.2, r.1.core.cache)

/-- The same call over the buckets. -/
def callBuckets (depth : Nat) (t : Oram n) (c : OramCall n) :
    Option (Oram n × OramAnswer n × SortedMap (Bid n) (Node n)) :=
  let r : Option (Oram n × OramAnswer n) := match c with
    | .start batchWrite => some (t.start batchWrite, .done)
    | .readNode bid lastLeaf newLeaf =>
      (some (t.readNode depth bid lastLeaf newLeaf).swap).map (Prod.map id OramAnswer.node)
    | .writeNode bid node => ((t.writeNode depth bid node).toOption.map Prod.swap).map (Prod.map id OramAnswer.pos)
    | .assign bid f => some (t.setNode bid f, .done)
    | .finilize find rootKey rootPos _ _ =>
      (some (t.finilize depth find rootKey rootPos).swap).map (Prod.map id OramAnswer.pos)
  r.map fun r => (r.1, r.2, r.1.cache)

section

variable {aes : Cbc.Cipher Block} {depth : Nat} {s : ByteOram n} {t : Oram n}

/-- Where the answers are told from the old ones and the cache, they match again. -/
theorem matches_map {α β : Type} {x : Option (ByteOram n × α)} {y : Option (Oram n × α)}
    (h : Runs.Matches (Rel aes depth) x y) (g : α → SortedMap (Bid n) (Node n) → β) :
    Runs.Matches (Rel aes depth) (x.map fun r => (r.1, g r.2 r.1.core.cache))
      (y.map fun r => (r.1, g r.2 r.1.cache)) := by
  cases x with
  | none =>
    cases y with
    | none => trivial
    | some q => exact h.elim
  | some p =>
    cases y with
    | none => exact h.elim
    | some q => exact ⟨h.1, congrArg₂ g h.2 h.1.cache_eq⟩

/-- One call. -/
theorem Rel.call (hdepth : depth < 32) (h : Rel aes depth s t) {c : OramCall n} (hc : c.Fits depth) :
    Runs.Matches (Rel aes depth) (callBytes aes depth s c) (callBuckets depth t c) := by
  refine matches_map ?_ Prod.mk
  cases c with
  | start batchWrite =>
    exact ⟨h.change (fun t => t.start batchWrite) (fun _ _ => rfl) ⟨h.good.cache, h.good.leafs, h.good.draws⟩, rfl⟩
  | readNode bid lastLeaf newLeaf => exact matches_map (h.readNode hdepth hc) fun a _ => OramAnswer.node a
  | writeNode bid node => exact matches_map (h.writeNode hc.1 hc.2) fun a _ => OramAnswer.pos a
  | assign bid f =>
    exact ⟨h.change (fun t => t.setNode bid f) (fun s bucket => setNode_withBucket s bucket bid f)
      (h.good.setNode bid hc), rfl⟩
  | finilize find rootKey rootPos ivs gaps =>
    exact matches_map (h.finilize hdepth ivs gaps find rootKey rootPos) fun a _ => OramAnswer.pos a

end

/-- **The ORAM over its bytes.**  The constructor writes all buckets, and from there on every list of calls gives
the same answers and the same cache over the encrypted byte strings as over the buckets, and throws at the same
call, whatever the IVs and the gaps are. -/
theorem oram_over_bytes (aes : Cbc.Cipher Block) {depth : Nat} (hdepth : depth < 32) {rnd : Nat → Nat}
    (hrnd : ∀ i, rnd i < 2 ^ depth) (ivs : Nat → Block) (calls : List (OramCall n)) (hcalls : ∀ c ∈ calls, c.Fits depth) :
    ∃ s, ByteOram.new aes depth rnd ivs = some s ∧
      Runs.Matches (Rel aes depth) (Runs.run (callBytes aes depth) s calls)
        (Runs.run (callBuckets depth) (Oram.new depth rnd) calls) := by
  obtain ⟨s, hs, hR⟩ := goes_new (n := n) aes hrnd ivs
  have hcall : ∀ (s : ByteOram n) (t : Oram n) (c : OramCall n), c.Fits depth → Rel aes depth s t →
      Runs.Matches (Rel aes depth) (callBytes aes depth s c) (callBuckets depth t c) := fun s t c hc h =>
    h.call hdepth hc
  exact ⟨s, hs, Runs.run_matches (Rel aes depth) (OramCall.Fits depth) hcall hcalls hR⟩

/-- A node is written, the paths are written back, and the node is read. -/
theorem oram_over_bytes_two :
    let aes := aes256 ((List.range 128).map UInt8.ofNat)
    let calls : List (OramCall 16) :=
      [.start false, .writeNode (Bid.ofStr [97]) ⟨Bid.ofStr [97], List.replicate 16 7, 1, Bid.zero, 0, Bid.zero, 0, 1⟩,
        .finilize true (Bid.ofStr [97]) 1 (fun _ _ => Block.zero)
          (fun _ => ⟨List.replicate 8 1, List.replicate 4 2, List.replicate 4 3, rfl, rfl, rfl⟩),
        .start false, .readNode (Bid.ofStr [97]) 0 1]
    ∃ s, ByteOram.new aes 1 (fun _ => 0) (fun _ => Block.zero) = some s ∧
      Runs.Matches (Rel aes 1) (Runs.run (callBytes aes 1) s calls)
        (Runs.run (callBuckets 1) (Oram.new 1 fun _ => 0) calls) := by
  intro aes calls
  refine oram_over_bytes aes (by decide) (fun _ => by decide) (fun _ => Block.zero) calls ?_
  intro c hc
  simp only [calls, List.mem_cons, List.not_mem_nil, or_false] at hc
  rcases hc with rfl | rfl | rfl | rfl | rfl
  · trivial
  · exact ⟨⟨rfl, by decide, by decide, by decide, by decide⟩, by decide⟩
  · trivial
  · trivial
  · exact fun _ => ⟨by decide, by decide⟩

end Sse.Omap
