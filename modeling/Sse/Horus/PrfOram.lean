import Sse.Basic.Bid
import Sse.Lib.PathOram
import Sse.Lib.Runs

/-!
# PRFORAM

A tree of buckets whose leaves are chosen by the caller: every `Bid` is used with its own
leaf.  A single access reads one path and writes it back; a batch reads the paths of all
its blocks, then writes them back.

`Access(Bid, Box*&)` keeps the `Box*` it was given, and reads `box->pos` once for each
level of the path it writes.  `WritePath` deletes the boxes it writes out, so from the
level below on that is a read of freed memory: `stale d` is what it gives at level `d`.

    what is read from a freed box names the bucket its leaf names
      → reads give the last value written, every box is stored once on its path   (prfOram_exact)
-/

namespace Sse.Horus

open PathOram

/-! ## Boxes -/

/-- `class Box`. -/
structure Box where
  key : Bid 24
  value : List UInt8
  pos : Nat
deriving DecidableEq

instance isLinearOrder_24 : Std.IsLinearOrder (Bid 24) := inferInstance

instance lawfulOrderLT_24 : Std.LawfulOrderLT (Bid 24) := inferInstance

/-- `createBid(keyword, val1, val2, val3)`, for a keyword of at most twelve bytes. -/
def createBid (keyword : Str) (val1 val2 val3 : Int32) : Bid 24 :=
  ⟨toBytes val1 ++ (toBytes val2 ++ (toBytes val3 ++ padTo 12 keyword)), by simp⟩

/-- The boxes of an empty bucket: blocks of zero bytes. -/
def dummyBox : Box := ⟨Bid.zero, List.replicate 16 0, 0⟩

/-- Four boxes a bucket; `block.id != 0` tells the boxes from the dummies. -/
def layout (depth : Nat) : Layout (Bid 24) Box where
  depth := depth
  Z := 4
  key := Box.key
  pos := Box.pos
  real k := !k.isZero
  dummy := dummyBox
  dummy_not_real := by decide

/-- `emptyNodes` is the counter of the `RAMStore`. -/
structure PrfOram where
  store : Store (Bid 24) Box
  viewmap : List Nat
  emptyNodes : Nat

section

variable (depth : Nat)

/-- `PRFORAM::PRFORAM`: all buckets empty. -/
def PrfOram.new : PrfOram where
  store := ⟨SortedMap.empty, fun _ => List.replicate 4 dummyBox⟩
  viewmap := []
  emptyNodes := 4 * (2 ^ (depth + 1) - 1)

namespace PrfOram

/-! ## Paths -/

/-- `FetchPath`: only a batch keeps the list of the buckets it has read. -/
def fetchPath (s : PrfOram) (leaf : Nat) (batchRead : Bool) : PrfOram :=
  if batchRead then
    let r := (path depth leaf).foldl (fetchOnce (layout depth)) (s.store, s.viewmap)
    { s with store := r.1, viewmap := r.2 }
  else { s with store := (path depth leaf).foldl (fetch (layout depth)) s.store }

/-- `viewmap.clear()`, then `WritePath(leaf, d)` for `d = depth .. 0` and all the leaves. -/
def writePaths (s : PrfOram) (leafs : List Nat) : PrfOram :=
  let r := writeBack (layout depth) leafs (s.store, [])
  { s with store := r.1, viewmap := r.2 }

/-- The same loop over `box->pos`, where the box may be freed. -/
def writeBoxPath (s : PrfOram) (bid : Bid 24) (stale : Nat → Nat) : PrfOram :=
  let r := (List.range (depth + 1)).reverse.foldl
    (fun r d =>
      -- a box that has left the stash was deleted by `WritePath`
      let pos := match r.1.stash.get? bid with
        | some box => box.pos
        | none => stale d
      evictOnce (layout depth) r (nodeOnPath depth pos d) d)
    (s.store, [])
  { s with store := r.1, viewmap := r.2 }

/-! ## Operations -/

/-- `WriteData`, which throws when the store is full. -/
def writeData (s : PrfOram) (bid : Bid 24) (box : Box) : Option PrfOram :=
  if 0 < s.emptyNodes then
    some { s with store := { s.store with stash := s.store.stash.insert bid box }, emptyNodes := s.emptyNodes - 1 }
  else none

/-- The value of a box, `""` for `NULL`. -/
def readValue (s : PrfOram) (bid : Bid 24) : Str :=
  match s.store.stash.get? bid with
  | some box => cStr box.value
  | none => []

/-- `ReadBox`; `return NULL` throws. -/
def readBox (s : PrfOram) (bid : Bid 24) (pos : Nat) : Option (PrfOram × Str) :=
  if bid.isZero then none
  else match s.store.stash.get? bid with
    | none =>
      let s1 := fetchPath depth s pos false
      some (writePaths depth s1 [pos], readValue s1 bid)
    | some box => some (s, cStr box.value)

/-- `WriteBox`. -/
def writeBox (s : PrfOram) (bid : Bid 24) (value : Str) (pos : Nat) (stale : Nat → Nat) : Option PrfOram := do
  if bid.isZero then none
  let s1 ← writeData (fetchPath depth s pos false) bid ⟨bid, padTo 16 value, pos⟩
  return writeBoxPath depth s1 bid stale

/-- One turn of the loop of `batchRead`; `stash.count(item.second)` looks up a `Bid` made of the leaf. -/
def batchReadTurn (r : PrfOram × SortedMap Nat Unit × List Str) (item : Bid 24 × Nat) :
    PrfOram × SortedMap Nat Unit × List Str :=
  let (s, leafs, result) := r
  match s.store.stash.get? (Bid.ofInt (Int32.ofNat item.2)) with
  | none =>
    let s1 := fetchPath depth s item.2 true
    (s1, leafs.insert item.2 (), result ++ [readValue s1 item.1])
  | some box => (s, leafs, result ++ [cStr box.value])

/-- `batchRead`. -/
def batchRead (s : PrfOram) (batchQuery : List (Bid 24 × Nat)) : PrfOram × List Str :=
  let (s1, leafs, result) := batchQuery.foldl (batchReadTurn depth) ({ s with viewmap := [] }, SortedMap.empty, [])
  (writePaths depth s1 (leafs.keysWhere fun _ => true), result)

/-- One turn of the loop of `batchWrite`. -/
def batchWriteTurn (r : PrfOram × SortedMap Nat Unit) (bid : Bid 24) (value : Str) (pos : Nat) :
    Option (PrfOram × SortedMap Nat Unit) := do
  let (s, leafs) := r
  let (s1, leafs1) := match s.store.stash.get? (Bid.ofInt (Int32.ofNat pos)) with
    | none => (fetchPath depth s pos true, leafs.insert pos ())
    | some _ => (s, leafs)
  let s2 ← writeData s1 bid ⟨bid, padTo 16 value, pos⟩
  return (s2, leafs1)

/-- `batchWrite`: the two maps are walked side by side. -/
def batchWrite (s : PrfOram) (values : SortedMap (Bid 24) Str) (poses : SortedMap (Bid 24) Nat) : Option PrfOram := do
  let (s1, leafs) ← (values.entries.zip poses.entries).foldlM
    (fun r p => batchWriteTurn depth r p.1.1 p.1.2 p.2.2) ({ s with viewmap := [] }, SortedMap.empty)
  return writePaths depth s1 (leafs.keysWhere fun _ => true)

end PrfOram

end

/-! ## Runs -/

/-- A call; `stale` is what the freed box of a `WriteBox` is read as, level by level. -/
inductive BoxOp where
  | writeBox (bid : Bid 24) (value : Str) (pos : Nat) (stale : Nat → Nat)
  | readBox (bid : Bid 24) (pos : Nat)
  | batchRead (batchQuery : List (Bid 24 × Nat))
  | batchWrite (values : SortedMap (Bid 24) Str) (poses : SortedMap (Bid 24) Nat)

/-- One call, with the strings it returns. -/
def boxStep (depth : Nat) (s : PrfOram) : BoxOp → Option (PrfOram × List Str)
  | .writeBox bid value pos stale => (s.writeBox depth bid value pos stale).map fun s' => (s', [])
  | .readBox bid pos => (s.readBox depth bid pos).map fun r => (r.1, [r.2])
  | .batchRead batchQuery => some (s.batchRead depth batchQuery)
  | .batchWrite values poses => (s.batchWrite depth values poses).map fun s' => (s', [])

/-- The same call on a finite map. -/
def mapStep (m : Bid 24 → Option Str) : BoxOp → (Bid 24 → Option Str) × List Str
  | .writeBox bid value _ _ => (Function.update m bid (some value), [])
  | .readBox bid _ => (m, [(m bid).getD []])
  | .batchRead batchQuery => (m, batchQuery.map fun item => (m item.1).getD [])
  | .batchWrite values _ => (values.entries.foldl (fun m e => Function.update m e.1 (some e.2)) m, [])

/-- The identifiers of Horus's boxes. -/
def IsBoxId (bid : Bid 24) : Prop :=
  ∃ keyword u s a, keyword.length ≤ 12 ∧ 1 ≤ u ∧ 1 ≤ a ∧ bid = createBid keyword u s a

/-- A value that fits into a box. -/
def Fits (value : Str) : Prop := NulFree value ∧ value.length ≤ 16

/-- The caller uses each identifier with its own leaf, with values that fit. -/
def BoxOp.Ok (depth : Nat) (leaf : Bid 24 → Nat) : BoxOp → Prop
  | .writeBox bid value pos _ => (IsBoxId bid ∧ pos = leaf bid ∧ pos < 2 ^ depth) ∧ Fits value
  | .readBox bid pos => IsBoxId bid ∧ pos = leaf bid ∧ pos < 2 ^ depth
  | .batchRead batchQuery => ∀ item ∈ batchQuery, IsBoxId item.1 ∧ item.2 = leaf item.1 ∧ item.2 < 2 ^ depth
  | .batchWrite values poses => (∀ k, (values.get? k).isSome = (poses.get? k).isSome) ∧
      (∀ k v, values.get? k = some v → Fits v) ∧
      ∀ k pos, poses.get? k = some pos → IsBoxId k ∧ pos = leaf k ∧ pos < 2 ^ depth

/-- What is read from a freed box still names the bucket of its leaf. -/
def BoxOp.Survives (depth : Nat) : BoxOp → Prop
  | .writeBox _ _ pos stale => ∀ d < depth, nodeOnPath depth (stale d) d = nodeOnPath depth pos d
  | _ => True

/-! ## Identifiers -/

theorem id_createBid_drop (keyword : Str) (u s a : Int32) :
    ((createBid keyword u s a).id.drop 8).take 4 = toBytes a := rfl

theorem id_createBid_take (keyword : Str) (u s a : Int32) : (createBid keyword u s a).id.take 4 = toBytes u := rfl

/-- `bid != 0` for Horus's boxes. -/
theorem IsBoxId.not_isZero {bid : Bid 24} (h : IsBoxId bid) : bid.isZero = false := by
  obtain ⟨w, u, s, a, -, hu, -, rfl⟩ := h
  rw [Bool.eq_false_iff]
  intro hz
  have hbytes : toBytes u = toBytes 0 := by
    rw [Bid.isZero, id_createBid_take, List.all_eq_true] at hz
    rw [show toBytes 0 = List.replicate 4 0 by decide, List.eq_replicate_iff]
    exact ⟨rfl, fun b hb => by simpa using hz b hb⟩
  rw [toBytes_injective hbytes] at hu
  exact absurd hu (by decide)

/-- No box has an identifier made of a leaf. -/
theorem IsBoxId.ne_ofInt {bid : Bid 24} (h : IsBoxId bid) (x : Int32) : bid ≠ Bid.ofInt x := by
  obtain ⟨w, u, s, a, -, -, ha, rfl⟩ := h
  intro he
  have hbytes : toBytes a = toBytes 0 := by
    rw [← id_createBid_drop w u s a, he]
    rfl
  rw [toBytes_injective hbytes] at ha
  exact absurd ha (by decide)

/-! ## The boxes behind a map -/

/-- The boxes that hold a map of values. -/
def boxes (leaf : Bid 24 → Nat) (m : Bid 24 → Option Str) (bid : Bid 24) : Option Box :=
  (m bid).map fun value => ⟨bid, padTo 16 value, leaf bid⟩

theorem boxes_eq_some {leaf : Bid 24 → Nat} {m : Bid 24 → Option Str} {bid : Bid 24} {box : Box} :
    boxes leaf m bid = some box ↔ ∃ value, m bid = some value ∧ box = ⟨bid, padTo 16 value, leaf bid⟩ := by
  rw [boxes, Option.map_eq_some_iff]
  exact exists_congr fun _ => and_congr_right fun _ => eq_comm

theorem boxes_update (leaf : Bid 24 → Nat) (m : Bid 24 → Option Str) (bid : Bid 24) (value : Str) :
    boxes leaf (Function.update m bid (some value)) =
      Function.update (boxes leaf m) bid (some ⟨bid, padTo 16 value, leaf bid⟩) := by
  funext k
  by_cases hk : k = bid
  · rw [hk, boxes, Function.update_self, Function.update_self]
    rfl
  · rw [boxes, Function.update_of_ne hk, Function.update_of_ne hk]
    rfl

/-- The store holds the boxes of the map `m`, the buckets of `D` being read and not yet rewritten. -/
structure Stored (depth : Nat) (leaf : Bid 24 → Nat) (D : Finset Nat) (st : Store (Bid 24) Box)
    (m : Bid 24 → Option Str) : Prop where
  holds : Holds (layout depth) D st (boxes leaf m)
  boxId : ∀ bid value, m bid = some value → IsBoxId bid
  fits : ∀ bid value, m bid = some value → Fits value

section

variable {depth : Nat} {leaf : Bid 24 → Nat} {D : Finset Nat} {st : Store (Bid 24) Box} {m : Bid 24 → Option Str}

theorem stored_new (depth : Nat) (leaf : Bid 24 → Nat) :
    Stored depth leaf ∅ (PrfOram.new depth).store fun _ => none :=
  ⟨holds_empty, fun _ _ h => (nomatch h), fun _ _ h => (nomatch h)⟩

theorem Stored.of_holds (h : Stored depth leaf D st m) {D' : Finset Nat} {st' : Store (Bid 24) Box}
    (h' : Holds (layout depth) D' st' (boxes leaf m)) : Stored depth leaf D' st' m := ⟨h', h.boxId, h.fits⟩

theorem Stored.get?_stash (h : Stored depth leaf D st m) {bid : Bid 24} {box : Box} (hs : st.stash.get? bid = some box) :
    ∃ value, m bid = some value ∧ box = ⟨bid, padTo 16 value, leaf bid⟩ :=
  boxes_eq_some.1 (h.holds.stash bid box hs)

theorem Stored.get?_ofInt (h : Stored depth leaf D st m) (x : Int32) : st.stash.get? (Bid.ofInt x) = none := by
  cases hs : st.stash.get? (Bid.ofInt x) with
  | none => rfl
  | some box =>
    obtain ⟨value, hv, -⟩ := h.get?_stash hs
    exact absurd rfl ((h.boxId _ _ hv).ne_ofInt x)

theorem Stored.cStr_stash (h : Stored depth leaf D st m) {bid : Bid 24} {box : Box} (hs : st.stash.get? bid = some box) :
    cStr box.value = (m bid).getD [] := by
  obtain ⟨value, hv, rfl⟩ := h.get?_stash hs
  rw [hv]
  exact cStr_padTo (h.fits _ _ hv).1 (h.fits _ _ hv).2

/-- With its path read, a box is in the stash if it was written at all. -/
theorem Stored.get?_of_path (h : Stored depth leaf D st m) {bid : Bid 24}
    (hp : ∀ i ∈ path depth (leaf bid), i ∈ D) {value : Str} (hv : m bid = some value) :
    st.stash.get? bid = some ⟨bid, padTo 16 value, leaf bid⟩ :=
  h.holds.get?_of_path (boxes_eq_some.2 ⟨value, hv, rfl⟩) hp

theorem Stored.readValue {s : PrfOram} (h : Stored depth leaf D s.store m) {bid : Bid 24}
    (hp : ∀ i ∈ path depth (leaf bid), i ∈ D) : s.readValue bid = (m bid).getD [] := by
  unfold PrfOram.readValue
  cases hs : s.store.stash.get? bid with
  | some box => exact h.cStr_stash hs
  | none =>
    cases hv : m bid with
    | none => rfl
    | some value =>
      rw [h.get?_of_path hp hv] at hs
      cases hs

/-- `WriteData` after the path was read: no old copy is left in a bucket. -/
theorem Stored.put (h : Stored depth leaf D st m) {bid : Bid 24} (hbid : IsBoxId bid) (hl : leaf bid < 2 ^ depth)
    {value : Str} (hv : Fits value) (hp : ∀ i ∈ path depth (leaf bid), i ∈ D) :
    Stored depth leaf D { st with stash := st.stash.insert bid ⟨bid, padTo 16 value, leaf bid⟩ }
      (Function.update m bid (some value)) := by
  have hstash : boxes leaf m bid = none ∨ (st.stash.get? bid).isSome := by
    cases hm : m bid with
    | none => exact Or.inl (by rw [boxes, hm]; rfl)
    | some v => exact Or.inr (by rw [h.get?_of_path hp hm]; rfl)
  refine ⟨?_, fun k v hk => ?_, fun k v hk => ?_⟩
  · rw [boxes_update]
    exact @Holds.put _ _ _ _ (layout depth) D st (boxes leaf m) _ _ _ _ h.holds ⟨bid, padTo 16 value, leaf bid⟩
      (by show (!bid.isZero) = true; rw [hbid.not_isZero]; rfl) hl hstash
  · by_cases he : k = bid
    · exact he ▸ hbid
    · rw [Function.update_of_ne he] at hk
      exact h.boxId k v hk
  · by_cases he : k = bid
    · rw [he, Function.update_self] at hk
      exact Option.some.inj hk ▸ hv
    · rw [Function.update_of_ne he] at hk
      exact h.fits k v hk

/-! ## Single accesses -/

theorem Stored.fetchPath {s : PrfOram} (h : Stored depth leaf ∅ s.store m) {pos : Nat} (hl : pos < 2 ^ depth) :
    Stored depth leaf (path depth pos).toFinset (s.fetchPath depth pos false).store m := by
  have hf := h.holds.fetches (path_nodup hl) fun i hi => ⟨lt_size_of_mem_path hl hi, Finset.notMem_empty i⟩
  rw [Finset.empty_union] at hf
  exact h.of_holds hf

theorem Stored.writePaths {s : PrfOram} {leafs : List Nat} (h : Stored depth leaf (nodes depth leafs) s.store m)
    (hl : ∀ l ∈ leafs, l < 2 ^ depth) : Stored depth leaf ∅ (s.writePaths depth leafs).store m :=
  h.of_holds (Holds.writeBack hl h.holds)

theorem nodes_singleton (pos : Nat) : nodes depth [pos] = (path depth pos).toFinset := by
  simp [nodes]

/-- The loop over `box->pos` is the loop over the leaf, if a freed box is read as its leaf would be. -/
theorem writeBoxPath_eq {s : PrfOram} {bid : Bid 24} {box : Box} {stale : Nat → Nat}
    (hs : s.store.stash.get? bid = some box)
    (hstale : ∀ d < depth, nodeOnPath depth (stale d) d = nodeOnPath depth box.pos d) :
    s.writeBoxPath depth bid stale = s.writePaths depth [box.pos] := by
  -- the box leaves the stash once; until then it is the one that was put there
  have hloop : ∀ (ds : List Nat), (∀ d ∈ ds, d < depth) → ∀ r : Store (Bid 24) Box × List Nat,
      (∀ b, r.1.stash.get? bid = some b → b.pos = box.pos) →
      ds.foldl (fun r d => evictOnce (layout depth) r (nodeOnPath depth
        (match r.1.stash.get? bid with
          | some box => box.pos
          | none => stale d) d) d) r =
        ds.foldl (fun r d => evictOnce (layout depth) r (nodeOnPath depth box.pos d) d) r := by
    intro ds
    induction ds with
    | nil =>
      intro _ r _
      rfl
    | cons d ds ih =>
      intro hds r hr
      have hnode : nodeOnPath depth (match r.1.stash.get? bid with
          | some box => box.pos
          | none => stale d) d = nodeOnPath depth box.pos d := by
        cases hb : r.1.stash.get? bid with
        | some b => exact congrArg (nodeOnPath depth · d) (hr b hb)
        | none => exact hstale d (hds d List.mem_cons_self)
      rw [List.foldl_cons, List.foldl_cons, hnode]
      refine ih (fun d' hd' => hds d' (List.mem_cons_of_mem _ hd')) _ fun b hb => hr b ?_
      exact get?_of_get?_evictOnce hb
  have hrange : (List.range (depth + 1)).reverse = depth :: (List.range depth).reverse := by
    rw [List.range_succ, List.reverse_append]
    rfl
  unfold PrfOram.writeBoxPath PrfOram.writePaths writeBack
  simp only [layout, hrange, List.foldl_cons, List.foldl_nil, hs]
  have hrest := hloop (List.range depth).reverse (by simp)
    (evictOnce (layout depth) (s.store, []) (nodeOnPath depth box.pos depth) depth) fun b hb => by
      have := get?_of_get?_evictOnce hb
      rw [hs] at this
      rw [Option.some.inj this]
  simp only [layout] at hrest
  rw [hrest]

/-- **`ReadBox`** gives the value last written. -/
theorem Stored.readBox {s s' : PrfOram} {bid : Bid 24} {pos : Nat} {v : Str} (h : Stored depth leaf ∅ s.store m)
    (hok : BoxOp.Ok depth leaf (.readBox bid pos)) (hr : s.readBox depth bid pos = some (s', v)) :
    Stored depth leaf ∅ s'.store m ∧ v = (m bid).getD [] := by
  obtain ⟨hbid, rfl, hl⟩ := hok
  simp only [PrfOram.readBox, hbid.not_isZero, Bool.false_eq_true, if_false] at hr
  cases hs : s.store.stash.get? bid with
  | some box =>
    simp only [hs, Option.some.injEq, Prod.mk.injEq] at hr
    obtain ⟨rfl, rfl⟩ := hr
    exact ⟨h, h.cStr_stash hs⟩
  | none =>
    simp only [hs, Option.some.injEq, Prod.mk.injEq] at hr
    obtain ⟨rfl, rfl⟩ := hr
    have hf := h.fetchPath hl
    refine ⟨?_, hf.readValue fun i hi => List.mem_toFinset.2 hi⟩
    rw [← nodes_singleton] at hf
    exact hf.writePaths (by simpa using hl)

theorem writeData_eq_some {s s' : PrfOram} {bid : Bid 24} {box : Box} (h : s.writeData bid box = some s') :
    s'.store = { s.store with stash := s.store.stash.insert bid box } ∧ s'.viewmap = s.viewmap := by
  unfold PrfOram.writeData at h
  split_ifs at h
  obtain rfl := Option.some.inj h
  exact ⟨rfl, rfl⟩

/-- **`WriteBox`** changes the one entry. -/
theorem Stored.writeBox {s s' : PrfOram} {bid : Bid 24} {value : Str} {pos : Nat} {stale : Nat → Nat}
    (h : Stored depth leaf ∅ s.store m) (hok : BoxOp.Ok depth leaf (.writeBox bid value pos stale))
    (hsv : BoxOp.Survives depth (.writeBox bid value pos stale)) (hr : s.writeBox depth bid value pos stale = some s') :
    Stored depth leaf ∅ s'.store (Function.update m bid (some value)) := by
  obtain ⟨⟨hbid, rfl, hl⟩, hfit⟩ := hok
  simp only [PrfOram.writeBox, hbid.not_isZero, Bool.false_eq_true, if_false, Option.pure_def,
    Option.bind_eq_bind, Option.bind_eq_some_iff, Option.some.injEq] at hr
  obtain ⟨s1, hw, rfl⟩ := hr
  obtain ⟨hst, -⟩ := writeData_eq_some hw
  have hput := (h.fetchPath hl).put hbid hl hfit fun i hi => List.mem_toFinset.2 hi
  rw [← hst, ← nodes_singleton] at hput
  have hbox : s1.store.stash.get? bid = some ⟨bid, padTo 16 value, leaf bid⟩ := by
    rw [hst, SortedMap.get?_insert, if_pos rfl]
  rw [writeBoxPath_eq hbox hsv]
  exact hput.writePaths (by simpa using hl)

/-! ## Batches -/

/-- In the middle of a batch: the buckets read are those on the paths to the leaves so far. -/
structure Batch (depth : Nat) (leaf : Bid 24 → Nat) (s : PrfOram) (leafs : SortedMap Nat Unit)
    (m : Bid 24 → Option Str) : Prop where
  stored : Stored depth leaf s.viewmap.toFinset s.store m
  seen : ∀ i, i ∈ s.viewmap ↔ ∃ l, (leafs.get? l).isSome = true ∧ i ∈ path depth l
  bound : ∀ l, (leafs.get? l).isSome = true → l < 2 ^ depth

variable {s : PrfOram} {leafs : SortedMap Nat Unit}

theorem batch_start (h : Stored depth leaf ∅ s.store m) :
    Batch depth leaf { s with viewmap := [] } SortedMap.empty m :=
  ⟨h, fun i => by simp, fun l hl => by simp at hl⟩

/-- One more path is read. -/
theorem Batch.fetchPath (h : Batch depth leaf s leafs m) {pos : Nat} (hl : pos < 2 ^ depth) :
    Batch depth leaf (s.fetchPath depth pos true) (leafs.insert pos ()) m ∧
      ∀ i ∈ path depth pos, i ∈ (s.fetchPath depth pos true).viewmap := by
  have hh := Holds.fetchesOnce (s := (s.store, s.viewmap)) h.stored.holds fun i hi => lt_size_of_mem_path hl hi
  have hmem : ∀ i, i ∈ (s.fetchPath depth pos true).viewmap ↔ i ∈ s.viewmap ∨ i ∈ path depth pos := by
    intro i
    have := Finset.ext_iff.1 (fetchesOnce_seen (L := layout depth) (s.store, s.viewmap) (path depth pos)) i
    rw [Finset.mem_union, List.mem_toFinset, List.mem_toFinset, List.mem_toFinset] at this
    exact this
  refine ⟨⟨h.stored.of_holds hh, fun i => ?_, fun l hmeml => ?_⟩, fun i hi => (hmem i).2 (Or.inr hi)⟩
  · rw [hmem, h.seen]
    constructor
    · rintro (⟨l, hs, hp⟩ | hp)
      · refine ⟨l, ?_, hp⟩
        rw [SortedMap.get?_insert]
        split_ifs
        · rfl
        · exact hs
      · exact ⟨pos, by rw [SortedMap.get?_insert, if_pos rfl]; rfl, hp⟩
    · rintro ⟨l, hs, hp⟩
      rw [SortedMap.get?_insert] at hs
      by_cases he : l = pos
      · exact Or.inr (he ▸ hp)
      · rw [if_neg he] at hs
        exact Or.inl ⟨l, hs, hp⟩
  · rw [SortedMap.get?_insert] at hmeml
    by_cases he : l = pos
    · exact he ▸ hl
    · rw [if_neg he] at hmeml
      exact h.bound l hmeml

/-- All the paths of a batch are written back. -/
theorem Batch.writePaths (h : Batch depth leaf s leafs m) :
    Stored depth leaf ∅ (s.writePaths depth (leafs.keysWhere fun _ => true)).store m := by
  have hkeys : ∀ l, l ∈ leafs.keysWhere (fun _ => true) ↔ (leafs.get? l).isSome = true := by
    intro l
    rw [SortedMap.mem_keysWhere, Option.isSome_iff_exists]
    simp
  have hset : s.viewmap.toFinset = nodes depth (leafs.keysWhere fun _ => true) := by
    ext i
    rw [List.mem_toFinset, h.seen, mem_nodes]
    simp only [hkeys]
  refine Stored.writePaths ?_ fun l hl => h.bound l ((hkeys l).1 hl)
  rw [← hset]
  exact h.stored

/-- **The loop of `batchRead`**: each query is answered from the map. -/
theorem Batch.reads {q : List (Bid 24 × Nat)} (hq : BoxOp.Ok depth leaf (.batchRead q)) (result : List Str)
    (h : Batch depth leaf s leafs m) :
    Batch depth leaf (q.foldl (PrfOram.batchReadTurn depth) (s, leafs, result)).1
        (q.foldl (PrfOram.batchReadTurn depth) (s, leafs, result)).2.1 m ∧
      (q.foldl (PrfOram.batchReadTurn depth) (s, leafs, result)).2.2 =
        result ++ q.map fun item => (m item.1).getD [] := by
  induction q generalizing s leafs result with
  | nil => exact ⟨h, by simp⟩
  | cons item q ih =>
    obtain ⟨-, hpos, hl⟩ := hq item List.mem_cons_self
    obtain ⟨hb, hpath⟩ := h.fetchPath hl
    have hval : (s.fetchPath depth item.2 true).readValue item.1 = (m item.1).getD [] :=
      hb.stored.readValue fun i hi => List.mem_toFinset.2 (hpath i (hpos ▸ hi))
    have hturn : PrfOram.batchReadTurn depth (s, leafs, result) item =
        (s.fetchPath depth item.2 true, leafs.insert item.2 (), result ++ [(m item.1).getD []]) := by
      simp only [PrfOram.batchReadTurn, h.stored.get?_ofInt, hval]
    rw [List.foldl_cons, hturn]
    obtain ⟨h1, h2⟩ := ih (fun j hj => hq j (List.mem_cons_of_mem _ hj)) _ hb
    refine ⟨h1, ?_⟩
    rw [h2, List.map_cons, List.append_assoc]
    rfl

/-- **The loop of `batchWrite`**: each pair changes its entry of the map. -/
theorem Batch.writes {ps : List ((Bid 24 × Str) × Bid 24 × Nat)}
    (hp : ∀ p ∈ ps, (IsBoxId p.1.1 ∧ p.2.2 = leaf p.1.1 ∧ p.2.2 < 2 ^ depth) ∧ Fits p.1.2)
    {r : PrfOram × SortedMap Nat Unit} (h : Batch depth leaf s leafs m)
    (hr : ps.foldlM (fun r p => PrfOram.batchWriteTurn depth r p.1.1 p.1.2 p.2.2) (s, leafs) = some r) :
    Batch depth leaf r.1 r.2 (ps.foldl (fun m p => Function.update m p.1.1 (some p.1.2)) m) := by
  induction ps generalizing s leafs m with
  | nil =>
    obtain rfl := Option.some.inj hr
    exact h
  | cons p ps ih =>
    obtain ⟨⟨hbid, hpos, hl⟩, hfit⟩ := hp p List.mem_cons_self
    obtain ⟨hb, hpath⟩ := h.fetchPath hl
    simp only [List.foldlM_cons, Option.bind_eq_bind, Option.bind_eq_some_iff] at hr
    obtain ⟨⟨s2, leafs2⟩, hturn, hr⟩ := hr
    simp only [PrfOram.batchWriteTurn, h.stored.get?_ofInt, Option.bind_eq_bind, Option.pure_def,
      Option.bind_eq_some_iff, Option.some.injEq, Prod.mk.injEq] at hturn
    obtain ⟨s3, hw, rfl, rfl⟩ := hturn
    obtain ⟨hst, hvm⟩ := writeData_eq_some hw
    refine ih (fun p' hp' => hp p' (List.mem_cons_of_mem _ hp')) ⟨?_, fun i => ?_, hb.bound⟩ hr
    · rw [hst, hvm, hpos]
      have := hb.stored.put hbid (hpos ▸ hl) hfit fun i hi => List.mem_toFinset.2 (hpath i (hpos ▸ hi))
      rwa [hpos] at this
    · rw [hvm]
      exact hb.seen i

end

/-! ## Every run -/

theorem zip_keys {α β γ : Type} {l : List (α × β)} {l' : List (α × γ)} (h : l.map Prod.fst = l'.map Prod.fst) :
    ∀ p ∈ l.zip l', p.1.1 = p.2.1 := by
  induction l generalizing l' with
  | nil => simp
  | cons e l ih =>
    cases l' with
    | nil => simp
    | cons e' l' =>
      simp only [List.map_cons, List.cons.injEq] at h
      intro p hp
      rcases List.mem_cons.1 hp with rfl | hp
      · exact h.1
      · exact ih h.2 p hp

theorem Stored.batchWrite {depth : Nat} {leaf : Bid 24 → Nat} {m : Bid 24 → Option Str} {s s' : PrfOram}
    {values : SortedMap (Bid 24) Str} {poses : SortedMap (Bid 24) Nat} (h : Stored depth leaf ∅ s.store m)
    (hok : BoxOp.Ok depth leaf (.batchWrite values poses)) (hr : s.batchWrite depth values poses = some s') :
    Stored depth leaf ∅ s'.store (mapStep m (.batchWrite values poses)).1 := by
  obtain ⟨hsame, hfit, hpos⟩ := hok
  have hkeys := SortedMap.keys_eq hsame
  have hlen : values.entries.length ≤ poses.entries.length := by
    have := congrArg List.length hkeys
    rw [List.length_map, List.length_map] at this
    omega
  have hps : ∀ p ∈ values.entries.zip poses.entries,
      (IsBoxId p.1.1 ∧ p.2.2 = leaf p.1.1 ∧ p.2.2 < 2 ^ depth) ∧ Fits p.1.2 := by
    intro p hp
    obtain ⟨hm1, hm2⟩ := List.of_mem_zip hp
    have hv := (SortedMap.mem_entries values p.1.1 p.1.2).1 hm1
    have hq := (SortedMap.mem_entries poses p.2.1 p.2.2).1 hm2
    rw [← zip_keys hkeys p hp] at hq
    exact ⟨hpos _ _ hq, hfit _ _ hv⟩
  simp only [PrfOram.batchWrite, Option.bind_eq_bind, Option.pure_def, Option.bind_eq_some_iff,
    Option.some.injEq] at hr
  obtain ⟨r, hloop, rfl⟩ := hr
  have hb := ((batch_start h).writes hps hloop).writePaths
  have hfold : (values.entries.zip poses.entries).foldl
      (fun (m : Bid 24 → Option Str) p => Function.update m p.1.1 (some p.1.2)) m = (mapStep m (.batchWrite values poses)).1 := by
    show _ = values.entries.foldl (fun (m : Bid 24 → Option Str) e => Function.update m e.1 (some e.2)) m
    conv_rhs => rw [← List.map_fst_zip hlen, List.foldl_map]
  rw [hfold] at hb
  exact hb

theorem boxStep_stored {depth : Nat} {leaf : Bid 24 → Nat} (s : PrfOram) (m : Bid 24 → Option Str) (op : BoxOp)
    (s' : PrfOram) (out : List Str) (hop : op.Ok depth leaf ∧ op.Survives depth) (h : Stored depth leaf ∅ s.store m)
    (hs : boxStep depth s op = some (s', out)) :
    ∃ m', Runs.total mapStep m op = some (m', out) ∧ Stored depth leaf ∅ s'.store m' := by
  cases op with
  | writeBox bid value pos stale =>
    simp only [boxStep, Option.map_eq_some_iff, Prod.mk.injEq] at hs
    obtain ⟨s1, hw, rfl, rfl⟩ := hs
    exact ⟨_, rfl, h.writeBox hop.1 hop.2 hw⟩
  | readBox bid pos =>
    simp only [boxStep, Option.map_eq_some_iff, Prod.mk.injEq] at hs
    obtain ⟨⟨s1, v⟩, hr, rfl, rfl⟩ := hs
    obtain ⟨h1, rfl⟩ := h.readBox hop.1 hr
    exact ⟨m, rfl, h1⟩
  | batchRead q =>
    obtain ⟨hb, hres⟩ := Batch.reads hop.1 [] (batch_start h)
    simp only [boxStep, PrfOram.batchRead, Option.some.injEq, Prod.mk.injEq] at hs
    obtain ⟨rfl, rfl⟩ := hs
    refine ⟨m, ?_, hb.writePaths⟩
    rw [hres]
    rfl
  | batchWrite values poses =>
    simp only [boxStep, Option.map_eq_some_iff, Prod.mk.injEq] at hs
    obtain ⟨s1, hw, rfl, rfl⟩ := hs
    exact ⟨_, rfl, h.batchWrite hop.1 hw⟩

/-- How often an identifier occurs in the stash and in the buckets. -/
def PrfOram.occurrences (depth : Nat) (s : PrfOram) (bid : Bid 24) : Nat :=
  (s.store.stash.get? bid).isSome.toNat +
    ∑ i ∈ Finset.range (2 ^ (depth + 1) - 1), (s.store.bucket i).countP fun box => box.key = bid

/-- **PRFORAM is a map**, as long as no freed box is read as something else: reads give the value last
written, and every identifier written is stored once, in the stash or on the path to its leaf. -/
theorem prfOram_exact (depth : Nat) (leaf : Bid 24 → Nat) (ops : List BoxOp) (hok : ∀ op ∈ ops, op.Ok depth leaf)
    (hsv : ∀ op ∈ ops, op.Survives depth) (s : PrfOram) (outs : List (List Str))
    (h : Runs.run (boxStep depth) (PrfOram.new depth) ops = some (s, outs)) :
    ∃ m, Runs.run (Runs.total mapStep) (fun _ => none) ops = some (m, outs) ∧
      ∀ bid value, m bid = some value → s.occurrences depth bid = 1 ∧
        ∀ i < 2 ^ (depth + 1) - 1, ∀ box ∈ s.store.bucket i, box.key = bid → i ∈ path depth (leaf bid) := by
  obtain ⟨m, hm, hst⟩ := Runs.run_refines (fun s m => Stored depth leaf ∅ s.store m)
    (fun op => op.Ok depth leaf ∧ op.Survives depth) (fun s m op s' out => boxStep_stored s m op s' out)
    (fun op hop => ⟨hok op hop, hsv op hop⟩) (stored_new depth leaf) h
  refine ⟨m, hm, fun bid value hv => ?_⟩
  have hreal : (layout depth).real bid = true := by
    show (!bid.isZero) = true
    rw [(hst.boxId bid value hv).not_isZero]
    rfl
  constructor
  · have honce := hst.holds.once bid hreal
    rw [boxes, hv, copies, Finset.sdiff_empty] at honce
    exact honce
  · rintro i hi box hbox rfl
    obtain ⟨hm, hpath⟩ := hst.holds.bucket i hi (Finset.notMem_empty i) box hbox hreal
    obtain ⟨v, -, he⟩ := boxes_eq_some.1 hm
    have hleaf : box.pos = leaf box.key := by rw [he]
    rw [← hleaf]
    exact hpath

/-- Writing slot `u` of a keyword at a leaf; the freed box reads as zero bytes. -/
def lossWrite (u : Int32) (pos : Nat) : BoxOp := .writeBox (createBid [97] u 0 1) [49] pos fun _ => 0

/-- Five boxes at leaf 0 fill its bucket, so that the fifth lies one level up; a sixth at leaf 3. -/
def lossRun : List BoxOp :=
  [lossWrite 1 0, lossWrite 2 0, lossWrite 3 0, lossWrite 4 0, lossWrite 5 0, lossWrite 6 3,
    .readBox (createBid [97] 5 0 1) 0]

def lossLeaf (bid : Bid 24) : Nat := if bid = createBid [97] 6 0 1 then 3 else 0

theorem prfOram_exact_two_calls :
    ∃ (s : PrfOram) (m : Bid 24 → Option Str), Runs.run (boxStep 2) (PrfOram.new 2)
        [.writeBox (createBid [97] 6 0 1) [49] 3 fun _ => 3, .readBox (createBid [97] 6 0 1) 3] =
          some (s, [[], [[49]]]) ∧ m (createBid [97] 6 0 1) = some [49] ∧
      s.occurrences 2 (createBid [97] 6 0 1) = 1 := by
  have hrun : (Runs.run (boxStep 2) (PrfOram.new 2)
      [.writeBox (createBid [97] 6 0 1) [49] 3 fun _ => 3, .readBox (createBid [97] 6 0 1) 3]).map Prod.snd =
        some [[], [[49]]] := by decide +kernel
  obtain ⟨⟨s, outs⟩, hs, rfl⟩ := Option.map_eq_some_iff.1 hrun
  have hid : IsBoxId (createBid [97] 6 0 1) := ⟨[97], 6, 0, 1, by decide, by decide, by decide, rfl⟩
  obtain ⟨m, hm, hall⟩ := prfOram_exact 2 lossLeaf _ (by
    intro op hop
    simp only [List.mem_cons, List.not_mem_nil, or_false] at hop
    rcases hop with rfl | rfl
    · exact ⟨⟨hid, by decide +kernel, by decide⟩, by decide, by decide⟩
    · exact ⟨hid, by decide +kernel, by decide⟩) (by
    intro op hop
    simp only [List.mem_cons, List.not_mem_nil, or_false] at hop
    rcases hop with rfl | rfl
    · exact fun d _ => rfl
    · trivial) s _ hs
  obtain ⟨hm', -⟩ := Prod.mk.inj (Option.some.inj hm)
  have hv : m (createBid [97] 6 0 1) = some [49] := by
    rw [← hm']
    exact Function.update_self ..
  exact ⟨s, m, hs, hv, (hall _ _ hv).1⟩

/-- The sixth write takes its levels above the leaf from the freed box, and empties a bucket on the path
to leaf 0 that it has not read. -/
theorem prfOram_stale_loses_box :
    (∀ op ∈ lossRun, op.Ok 2 lossLeaf) ∧
      (Runs.run (boxStep 2) (PrfOram.new 2) lossRun).map Prod.snd = some [[], [], [], [], [], [], [[]]] ∧
      (Runs.run (Runs.total mapStep) (fun _ => none) lossRun).map Prod.snd = some [[], [], [], [], [], [], [[49]]] := by
  refine ⟨?_, by decide +kernel, by decide +kernel⟩
  have hid : ∀ u : Int32, 1 ≤ u → IsBoxId (createBid [97] u 0 1) := fun u hu => ⟨[97], u, 0, 1, by decide, hu, by decide, rfl⟩
  have hfit : Fits [49] := ⟨by decide, by decide⟩
  intro op hop
  simp only [lossRun, List.mem_cons, List.not_mem_nil, or_false] at hop
  rcases hop with rfl | rfl | rfl | rfl | rfl | rfl | rfl
  · exact ⟨⟨hid 1 (by decide), by decide +kernel, by decide⟩, hfit⟩
  · exact ⟨⟨hid 2 (by decide), by decide +kernel, by decide⟩, hfit⟩
  · exact ⟨⟨hid 3 (by decide), by decide +kernel, by decide⟩, hfit⟩
  · exact ⟨⟨hid 4 (by decide), by decide +kernel, by decide⟩, hfit⟩
  · exact ⟨⟨hid 5 (by decide), by decide +kernel, by decide⟩, hfit⟩
  · exact ⟨⟨hid 6 (by decide), by decide +kernel, by decide⟩, hfit⟩
  · exact ⟨hid 5 (by decide), by decide +kernel, by decide⟩

end Sse.Horus
