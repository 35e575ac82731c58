import Sse.Omap.Finilize

/-!
# Runs of ORAM operations

Any caller that reads stored blocks at their leaves, writes new blocks, and changes the
fields that are its own.

    after every `finilize` each block is stored once, on its path, with its last fields   (oram_invariant)
-/

namespace Sse.Omap

open PathOram

/-! ## Runs of operations -/

/-- The fields that belong to the caller. -/
structure Fields (n : Nat) where
  value : List UInt8
  leftID : Bid n
  rightID : Bid n
  height : Nat
deriving DecidableEq

section

variable {n : Nat}

def Node.fields (node : Node n) : Fields n := ⟨node.value, node.leftID, node.rightID, node.height⟩

/-- What the caller does between `start` and `finilize`; `assign` is through the pointer of a node that was
read or written. -/
inductive Call (n : Nat) where
  | read (bid : Bid n) (leaf : Nat)
  | write (node : Node n)
  | assign (bid : Bid n) (fields : Fields n)

structure Operation (n : Nat) where
  calls : List (Call n)
  find : Bool
  rootKey : Bid n

/-- The stored block: the cached one, or the one in a bucket. -/
def Oram.current (depth : Nat) (s : Oram n) (bid : Bid n) : Option (Node n) :=
  match s.cache.get? bid with
  | some node => some node
  | none => ((List.range (2 ^ (depth + 1) - 1)).flatMap s.store.bucket).find? fun node => node.key = bid

/-- One call, if it is of the allowed form and does not throw: reads name a stored block with its leaf,
writes are of new blocks. -/
def Oram.call (depth : Nat) (s : Oram n) : Call n → Option (Oram n)
  | .read bid leaf =>
    if (s.current depth bid).map Node.pos = some leaf then some (s.readNode depth bid leaf leaf).2 else none
  | .write node =>
    if node.key.isZero = false ∧ s.current depth node.key = none ∧ node.pos < 2 ^ depth then
      (s.writeNode depth node.key node).toOption.map Prod.snd
    else none
  | .assign bid f =>
    if bid ∈ s.modified then
      some (s.setNode bid fun node =>
        { node with value := f.value, leftID := f.leftID, rightID := f.rightID, height := f.height })
    else none

/-- `start(false)`, the calls, and `finilize` with a root that was read or written. -/
def Oram.operate (depth : Nat) (s : Oram n) (op : Operation n) : Option (Oram n) := do
  let s1 ← op.calls.foldlM (Oram.call depth) (s.start false)
  if op.rootKey ∈ s1.modified then some (s1.finilize depth op.find op.rootKey 0).2 else none

/-- The fields the caller has given a block last. -/
def Call.put (l : Bid n → Option (Fields n)) : Call n → Bid n → Option (Fields n)
  | .read _ _ => l
  | .write node => Function.update l node.key (some node.fields)
  | .assign bid f => Function.update l bid (some f)

def latest (ops : List (Operation n)) : Bid n → Option (Fields n) :=
  (ops.flatMap Operation.calls).foldl Call.put fun _ => none

/-- How often a block occurs in the cache and in the buckets. -/
def Oram.occurrences (depth : Nat) (s : Oram n) (bid : Bid n) : Nat :=
  (s.cache.get? bid).isSome.toNat +
    ∑ i ∈ Finset.range (2 ^ (depth + 1) - 1), (s.store.bucket i).countP fun node => node.key = bid

end

section

variable {n depth : Nat} {s s' : Oram n} {m : Bid n → Option (Node n)}

theorem Oram.Mid.current (h : Oram.Mid depth s m) {bid : Bid n} (hz : bid.isZero = false) : s.current depth bid = m bid := by
  have hreal : (layout depth : Layout (Bid n) (Node n)).real bid = true := by
    show (!bid.isZero) = true
    rw [hz]
    rfl
  unfold Oram.current
  cases hc : s.cache.get? bid with
  | some node => exact (h.of_cache hc).symm
  | none =>
    -- what a dead bucket holds is cached, so the block found is in a live one
    have hlive : ∀ i < 2 ^ (depth + 1) - 1, ∀ node ∈ s.store.bucket i, node.key = bid → i ∉ s.readviewmap := by
      rintro i - node hnode rfl hi
      have hsome : (s.cache.get? node.key).isSome = true := h.drained i hi node hnode hreal
      rw [hc] at hsome
      cases hsome
    cases hf : ((List.range (2 ^ (depth + 1) - 1)).flatMap s.store.bucket).find? fun node => node.key = bid with
    | some node =>
      obtain ⟨i, hi, hnode⟩ := List.mem_flatMap.1 (List.mem_of_find?_eq_some hf)
      have hkey : node.key = bid := by simpa using List.find?_some hf
      rw [List.mem_range] at hi
      have hm := (h.holds.bucket i hi (by rw [List.mem_toFinset]; exact hlive i hi node hnode hkey) node hnode
        (by show (layout depth : Layout (Bid n) (Node n)).real node.key = true; rw [hkey]; exact hreal)).1
      rw [show (layout depth : Layout (Bid n) (Node n)).key node = bid from hkey] at hm
      exact hm.symm
    | none =>
      have hzero : copies (layout depth) s.readviewmap.toFinset s.store bid = 0 := by
        rw [copies, show s.store.stash.get? bid = none from hc, Finset.sum_eq_zero]
        · rfl
        · intro i hi
          rw [List.countP_eq_zero]
          intro node hnode hkey
          refine List.find?_eq_none.1 hf node (List.mem_flatMap.2 ⟨i, ?_, hnode⟩) hkey
          rw [List.mem_range]
          exact Finset.mem_range.1 (Finset.mem_sdiff.1 hi).1
      rw [h.holds.once bid hreal] at hzero
      cases hm : m bid with
      | none => rfl
      | some node =>
        rw [hm] at hzero
        cases hzero

/-- What is stored between operations. -/
theorem Oram.Rest.current (h : Oram.Rest depth s m) {bid : Bid n} (hz : bid.isZero = false) :
    s.current depth bid = m bid := (h.start false).current hz

/-- The blocks and the fields the caller knows. -/
structure Known (m : Bid n → Option (Node n)) (l : Bid n → Option (Fields n)) : Prop where
  fields : ∀ k, (m k).map Node.fields = l k

theorem Known.update {l : Bid n → Option (Fields n)} (h : Known m l) (k : Bid n) (node : Node n) :
    Known (Function.update m k (some node)) (Function.update l k (some node.fields)) := by
  refine ⟨fun j => ?_⟩
  by_cases he : j = k
  · rw [he, Function.update_self, Function.update_self]
    rfl
  · rw [Function.update_of_ne he, Function.update_of_ne he]
    exact h.fields j

/-- **One call.** -/
theorem Oram.Mid.call (h : Oram.Mid depth s m) {l : Bid n → Option (Fields n)} (hl : Known m l) {c : Call n}
    (hs : s.call depth c = some s') (hb : s.batchWrite = false) :
    ∃ m', Oram.Mid depth s' m' ∧ Known m' (c.put l) ∧ s'.batchWrite = false := by
  cases c with
  | read bid leaf =>
    dsimp only [Oram.call] at hs
    split_ifs at hs with hcur
    obtain rfl := Option.some.inj hs
    cases hz : bid.isZero with
    | true =>
      rw [Oram.readNode_isZero hz]
      exact ⟨m, h, hl, hb⟩
    | false =>
      rw [h.current hz, Option.map_eq_some_iff] at hcur
      obtain ⟨node, hm, rfl⟩ := hcur
      obtain ⟨s1, heq, hmid, hframe, -⟩ := h.readNode hm
      rw [heq]
      exact ⟨m, hmid, hl, hframe.batch.trans hb⟩
  | write node =>
    dsimp only [Oram.call] at hs
    split_ifs at hs with hnew
    obtain ⟨hz, hcur, hpos⟩ := hnew
    rw [h.current hz] at hcur
    rcases h.writeNode_new hcur hz hpos with herr | ⟨s1, heq, hmid, hframe, -⟩
    · rw [herr] at hs
      cases hs
    · rw [heq] at hs
      obtain rfl := Option.some.inj hs
      exact ⟨_, hmid, hl.update node.key node, hframe.batch.trans hb⟩
  | assign bid f =>
    dsimp only [Oram.call] at hs
    split_ifs at hs with hmod
    obtain rfl := Option.some.inj hs
    obtain ⟨node, hm, hc⟩ := h.cached (h.touched bid hmod)
    have hmid := h.setNode hc (f := fun node =>
      { node with value := f.value, leftID := f.leftID, rightID := f.rightID, height := f.height }) rfl rfl
    refine ⟨_, hmid, hl.update bid _, ?_⟩
    rw [Oram.get?_setNode s hc]
    exact hb

/-- **One operation.** -/
theorem Oram.Rest.operate (h : Oram.Rest depth s m) {l : Bid n → Option (Fields n)} (hl : Known m l) {op : Operation n}
    (hs : s.operate depth op = some s') : ∃ m', Oram.Rest depth s' m' ∧ Known m' (op.calls.foldl Call.put l) := by
  unfold Oram.operate at hs
  simp only [Option.bind_eq_bind, Option.bind_eq_some_iff] at hs
  obtain ⟨s1, hcalls, hfin⟩ := hs
  obtain ⟨m1, hmid, hl1, hb⟩ : ∃ m1, Oram.Mid depth s1 m1 ∧ Known m1 (op.calls.foldl Call.put l) ∧
      s1.batchWrite = false := by
    have hstart := h.start false
    have hbatch : (s.start false).batchWrite = false := rfl
    generalize s.start false = x at hcalls hstart hbatch
    clear h hfin
    generalize op.calls = cs at hcalls ⊢
    induction cs generalizing x m l with
    | nil =>
      obtain rfl := Option.some.inj hcalls
      exact ⟨m, hstart, hl, hbatch⟩
    | cons c cs ih =>
      simp only [List.foldlM_cons, Option.bind_eq_bind, Option.bind_eq_some_iff] at hcalls
      obtain ⟨y, hc, hrest⟩ := hcalls
      obtain ⟨m1, h1, h2, h3⟩ := hstart.call hl hc hbatch
      exact ih h2 y h1 h3 hrest
  split_ifs at hfin
  obtain rfl := Option.some.inj hfin
  obtain ⟨m', cached, hrest, hset, -⟩ := hmid.finilize (fun hb' => by rw [hb] at hb'; cases hb') op.find op.rootKey 0
  refine ⟨m', hrest, ⟨fun k => ?_⟩⟩
  rw [← hl1.fields k]
  cases hk : m1 k with
  | none => rw [hset.absent k hk]
  | some node =>
    obtain ⟨node', hk', hsame, -⟩ := hset.entry k node hk
    rw [hk', Option.map_some, Option.map_some, Node.fields, Node.fields, hsame.value, hsame.leftID, hsame.rightID,
      hsame.height]

theorem rest_run {ops : List (Operation n)} {l : Bid n → Option (Fields n)} (h : Oram.Rest depth s m) (hl : Known m l)
    (hs : ops.foldlM (Oram.operate depth) s = some s') :
    ∃ m', Oram.Rest depth s' m' ∧ Known m' ((ops.flatMap Operation.calls).foldl Call.put l) := by
  induction ops generalizing s m l with
  | nil =>
    obtain rfl := Option.some.inj hs
    exact ⟨m, h, hl⟩
  | cons op ops ih =>
    simp only [List.foldlM_cons, Option.bind_eq_bind, Option.bind_eq_some_iff] at hs
    obtain ⟨s1, hop, hrest⟩ := hs
    obtain ⟨m1, h1, hl1⟩ := h.operate hl hop
    rw [List.flatMap_cons, List.foldl_append]
    exact ih h1 hl1 hrest

end

/-- **The Path-ORAM invariant.**  After every operation each block occurs once in the cache and the buckets,
with the fields the caller gave it last; a bucket that holds it is on the path to its leaf, and all other
slots are dummies. -/
theorem oram_invariant {n : Nat} (depth : Nat) (rnd : Nat → Nat) (hrnd : ∀ i, rnd i < 2 ^ depth)
    (ops : List (Operation n)) (s : Oram n) (h : ops.foldlM (Oram.operate depth) (Oram.new depth rnd) = some s) :
    (∀ bid f, latest ops bid = some f → s.occurrences depth bid = 1 ∧
      ∀ node : Node n, node.key = bid →
        s.cache.get? bid = some node ∨ (∃ i < 2 ^ (depth + 1) - 1, node ∈ s.store.bucket i) → node.fields = f) ∧
    ∀ i < 2 ^ (depth + 1) - 1, (s.store.bucket i).length = 4 ∧ ∀ node ∈ s.store.bucket i,
      node = dummyNode ∨ ((latest ops node.key).isSome = true ∧ i ∈ path depth node.pos) := by
  obtain ⟨m, hrest, hl⟩ := rest_run (Oram.rest_new hrnd) ⟨fun _ => rfl⟩ h
  have hfields : ∀ k, (m k).map Node.fields = latest ops k := hl.fields
  have hreal : ∀ k : Bid n, k.isZero = false → (layout depth : Layout (Bid n) (Node n)).real k = true := by
    intro k hz
    show (!k.isZero) = true
    rw [hz]
    rfl
  refine ⟨fun bid f hf => ?_, fun i hi => ⟨(hrest.holds.slots i hi).1, fun node hnode => ?_⟩⟩
  · rw [← hfields bid, Option.map_eq_some_iff] at hf
    obtain ⟨node, hm, rfl⟩ := hf
    obtain ⟨-, hz, -⟩ := hrest.holds.wf bid node hm
    constructor
    · have honce := hrest.holds.once bid hz
      rw [hm, copies, Finset.sdiff_empty] at honce
      exact honce
    · rintro node' rfl (hc | ⟨i, hi, hb⟩)
      · have := hrest.holds.stash _ _ hc
        rw [hm] at this
        rw [Option.some.inj this]
      · have : m node'.key = some node' := (hrest.holds.bucket i hi (Finset.notMem_empty i) node' hb hz).1
        rw [hm] at this
        rw [Option.some.inj this]
  · rcases (hrest.holds.slots i hi).2 node hnode with hz | hd
    · obtain ⟨hm, hp⟩ := hrest.holds.bucket i hi (Finset.notMem_empty i) node hnode hz
      replace hm : m node.key = some node := hm
      refine Or.inr ⟨?_, hp⟩
      rw [← hfields, hm]
      rfl
    · exact Or.inl hd

/-- A block is written, then read at the leaf it was moved to and changed, with a second block. -/
def twoOperations : List (Operation 16) :=
  [⟨[.write ⟨Bid.ofInt 1, [97], 1, Bid.zero, 0, Bid.zero, 0, 1⟩], false, Bid.ofInt 1⟩,
    ⟨[.read (Bid.ofInt 1) 0, .assign (Bid.ofInt 1) ⟨[98], Bid.zero, Bid.ofInt 2, 2⟩,
      .write ⟨Bid.ofInt 2, [99], 0, Bid.zero, 0, Bid.zero, 0, 1⟩], false, Bid.ofInt 1⟩]

theorem oram_invariant_two_operations :
    ∃ s, twoOperations.foldlM (Oram.operate 1) (Oram.new 1 fun _ => 0) = some s ∧
      s.occurrences 1 (Bid.ofInt 1) = 1 := by
  have hrun : (twoOperations.foldlM (Oram.operate 1) (Oram.new 1 fun _ => 0)).isSome = true := by decide +kernel
  obtain ⟨s, hs⟩ := Option.isSome_iff_exists.1 hrun
  have hf : latest twoOperations (Bid.ofInt 1) = some ⟨[98], Bid.zero, Bid.ofInt 2, 2⟩ := by decide +kernel
  exact ⟨s, hs, ((oram_invariant 1 (fun _ => 0) (fun _ => by decide) twoOperations s hs).1 _ _ hf).1⟩

end Sse.Omap
