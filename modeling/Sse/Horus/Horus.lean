import Sse.Horus.PrfOram
import Sse.Orion.Slots

/-!
# Horus

The client of Horus, with `OMAP_updt` and `ORAM_srch` taken as finite maps from `Bid` to
the value last written.  `updt` maps a pair (keyword, ind) to `"slot#acc"`, or to
`"-1#acc"` once it is removed, and (keyword, slot) to `"ind#acc"`.  `srch` holds the ind
of a slot under the slot, the search count of the keyword and the access count `acc`:
an update writes the next box and leaves the old one where it is.

The client does not keep the access counts.  `search` finds the last box of every slot by
bisection, reading one box of each slot in a round, and writes what it found under the next
search count.  Where that is not box 1, box 1 is the pointer `"@acc"`.

`taken` counts what the two stores have given out: a node for each new key of `updt`, a
box for each write to `srch`.
-/

namespace Sse.Horus

open Orion (Op live Valid)

/-! ## Keys and entries -/

/-- `createBid(prefix, keyword, number)`, for a keyword of at most nineteen bytes. -/
def createMapBid (tag : UInt8) (keyword : Str) (number : Int32) : Bid 24 :=
  ⟨tag :: (padTo 19 keyword ++ toBytes number), by simp⟩

/-- `to_string(a) + "#" + to_string(b)`. -/
def entry (a b : Int32) : Str := toStr a.toInt ++ 35 :: toStr b.toInt

/-- `tokens[i]` after `split(tokens, resStr, is_any_of("#"))`. -/
def token (resStr : Str) (i : Nat) : Str := (resStr.splitOn 35).getD i []

/-- `"@" + to_string(acc)`. -/
def pointer (acc : Int32) : Str := 64 :: toStr acc.toInt

/-! ## State -/

/-- A map from `Bid` to the value last written. -/
abbrev OMap := Bid 24 → Option Str

/-- Nodes and boxes the stores have given out. -/
structure Taken where
  nodes : Nat
  boxes : Nat
deriving DecidableEq

structure State where
  updt : OMap
  srch : OMap
  updtCnt : Str → Option Int32
  srchCnt : Str → Option Int32
  access : Str → Option Int32
  lastIND : Str → Option Int32
  latestUpdatedCounter : Str → Option Int32
  taken : Taken

def init : State :=
  ⟨fun _ => none, fun _ => none, fun _ => none, fun _ => none, fun _ => none, fun _ => none, fun _ => none, ⟨0, 0⟩⟩

namespace State

/-- `OMAP_updt->find`. -/
def find (st : State) (key : Bid 24) : Str := (st.updt key).getD []

/-- `OMAP_updt->insert`, which takes a node for a new key. -/
def insertNode (st : State) (key : Bid 24) (value : Str) : State :=
  { st with
    updt := Function.update st.updt key (some value)
    taken := ⟨st.taken.nodes + (if (st.updt key).isNone then 1 else 0), st.taken.boxes⟩ }

/-- `ORAM_srch->WriteBox`, which takes a box even if the identifier is not new. -/
def writeBox (st : State) (bid : Bid 24) (value : Str) : State :=
  { st with
    srch := Function.update st.srch bid (some value)
    taken := ⟨st.taken.nodes, st.taken.boxes + 1⟩ }

/-- `ORAM_srch->batchWrite`. -/
def batchWrite (st : State) (values : List (Bid 24 × Str)) : State :=
  values.foldl (fun st e => st.writeBox e.1 e.2) st

/-- `if (acc_cnt > Access[keyword]) Access[keyword] = acc_cnt`. -/
def raiseAccess (st : State) (keyword : Str) (acc_cnt : Int32) : State :=
  let old := (st.access keyword).getD 0
  { st with access := Function.update st.access keyword (some (if old < acc_cnt then acc_cnt else old)) }

/-- The counters `insert` creates. -/
def createCounters (st : State) (keyword : Str) : State :=
  let st1 : State := match st.updtCnt keyword with
    | some _ => st
    | none => { st with
        updtCnt := Function.update st.updtCnt keyword (some 0)
        latestUpdatedCounter := Function.update st.latestUpdatedCounter keyword (some 0)
        srchCnt := Function.update st.srchCnt keyword (some 0) }
  match st1.access keyword with
  | some _ => st1
  | none => { st1 with access := Function.update st1.access keyword (some 1) }

end State

/-! ## Updates -/

/-- The writes of `insert` to slot `cnt`. -/
def fillSlot (st : State) (keyword : Str) (ind cnt acc_cnt : Int32) : State :=
  let srch_cnt := (st.srchCnt keyword).getD 0
  let st1 := st.insertNode (createMapBid 0 keyword ind) (entry cnt acc_cnt)
  let st2 := st1.insertNode (createMapBid 1 keyword cnt) (entry ind acc_cnt)
  let st3 := st2.writeBox (createBid keyword cnt srch_cnt acc_cnt) (toStr ind.toInt)
  let latest := (st3.latestUpdatedCounter keyword).getD 0
  let st4 : State :=
    if latest < cnt then
      let st' : State :=
        { st3 with latestUpdatedCounter := Function.update st3.latestUpdatedCounter keyword (some (latest + 1)) }
      -- the first box of the slot under this search count, and not box 1
      if 1 < acc_cnt then st'.writeBox (createBid keyword cnt srch_cnt 1) (pointer acc_cnt) else st'
    else st3
  { st4 with lastIND := Function.update st4.lastIND keyword (some ind) }

/-- The access count `insert` uses for the slot, which it reads from the slot's entry. -/
def nextAccess (st : State) (keyword : Str) (cnt : Int32) : Option (State × Int32) :=
  let resStr := st.find (createMapBid 1 keyword cnt)
  if resStr = [] then some (st, 1)
  else (stoi (token resStr 1)).map fun acc => (st.raiseAccess keyword (acc + 1), acc + 1)

/-- `Horus::insert`; the second component is `none` where `stoi` throws. -/
def insert (st : State) (keyword : Str) (ind : Int32) : State × Option Unit :=
  let resStr := st.find (createMapBid 0 keyword ind)
  if resStr = [] ∨ token resStr 0 = toStr (-1) then
    let st1 := st.createCounters keyword
    let cnt := (st1.updtCnt keyword).getD 0 + 1
    let st2 : State := { st1 with updtCnt := Function.update st1.updtCnt keyword (some cnt) }
    match nextAccess st2 keyword cnt with
    | none => (st2, none)
    | some (st3, acc_cnt) => (fillSlot st3 keyword ind cnt acc_cnt, some ())
  else (st, some ())

/-- The swap in `Horus::remove`: the last ind moves to the freed slot, under the next access count. -/
def fillHole (st : State) (keyword : Str) (updt_cnt acc_cnt : Int32) : State :=
  let last := (st.lastIND keyword).getD 0
  let st1 := st.raiseAccess keyword acc_cnt
  let st2 := st1.writeBox (createBid keyword updt_cnt ((st.srchCnt keyword).getD 0) acc_cnt) (toStr last.toInt)
  let st3 := st2.insertNode (createMapBid 0 keyword last) (entry updt_cnt acc_cnt)
  let st4 := st3.insertNode (createMapBid 1 keyword updt_cnt) (entry last acc_cnt)
  { st4 with lastIND := Function.update st4.lastIND keyword (some last) }

/-- `Horus::remove`; the second component is `none` where `stoi` throws. -/
def remove (st : State) (keyword : Str) (ind : Int32) : State × Option Unit :=
  let mapKey := createMapBid 0 keyword ind
  let resStr := st.find mapKey
  match stoi (token resStr 0) with
  | none => (st, none)
  | some updt_cnt =>
    if 0 < updt_cnt then
      match stoi (token resStr 1) with
      | none => (st, none)
      | some acc_cnt =>
        let cnt := (st.updtCnt keyword).getD 0 - 1
        let st1 : State := { st.insertNode mapKey (entry (-1) (acc_cnt + 1)) with
          updtCnt := Function.update st.updtCnt keyword (some cnt) }
        if 0 < cnt then
          let st2 := if cnt + 1 ≠ updt_cnt then fillHole st1 keyword updt_cnt (acc_cnt + 1) else st1
          match stoi (token (st2.find (createMapBid 1 keyword cnt)) 0) with
          | none => (st2, none)
          | some last => ({ st2 with lastIND := Function.update st2.lastIND keyword (some last) }, some ())
        else ({ st1 with lastIND := Function.update st1.lastIND keyword none }, some ())
    else (st, some ())

/-! ## Search -/

/-- What `search` keeps for one slot. -/
structure Probe where
  left : Int32
  right : Int32
  curValue : Int32
  lastAcc : Int32
  lastID : Str
  foundItem : Bool
deriving DecidableEq

/-- `(int) floor((double) n / 2.0)`. -/
def floorHalf (n : Int32) : Int32 := Int32.ofInt (n.toInt / 2)

/-- `(int) ceil((double) n / 2.0)`. -/
def ceilHalf (n : Int32) : Int32 := Int32.ofInt ((n.toInt + 1) / 2)

namespace Probe

/-- The first round: box 1 is the pointer to the lowest box or an ind. -/
def first (p : Probe) (id : Str) : Option Probe :=
  if id.head? = some 64 ∧ p.left = 1 then
    (stoi id.tail).map fun left =>
      { p with left := left, curValue := (left + p.right) / 2, lastAcc := (left + p.right) / 2 }
  else some { p with curValue := (p.left + p.right) / 2 }

/-- A later round. -/
def next (p : Probe) (id : Str) : Probe :=
  if id = [] ∨ p.right ≤ p.left then
    if p.right ≤ p.left then
      if p.lastID = [] then { p with foundItem := true, lastID := id, lastAcc := p.curValue }
      else { p with foundItem := true }
    else if p.curValue = p.right then
      { p with curValue := floorHalf (p.left + p.right), right := floorHalf (p.left + p.right) }
    else { p with right := p.curValue, curValue := ceilHalf (p.left + p.curValue) }
  else
    { p with
      lastID := id
      lastAcc := p.curValue
      left := p.curValue
      curValue := if p.curValue = p.left then ceilHalf (p.curValue + p.right) else floorHalf (p.curValue + p.right) }

end Probe

/-- The arguments of a call of `generatePosition`; its value is used as a leaf only. -/
structure PosArgs where
  keyword : Str
  updt_cnt : Int32
  src_cnt : Int32
  acc_cnt : Int32
deriving DecidableEq

/-- The identifier made of the same arguments. -/
def PosArgs.bid (p : PosArgs) : Bid 24 := createBid p.keyword p.updt_cnt p.src_cnt p.acc_cnt

/-- What `search` gathers. -/
structure Scan where
  result : List Int32
  batchWriteQuery : List (Bid 24 × PosArgs)
  batchWriteQueryID : List (Bid 24 × Str)

/-- `map::insert`, which keeps the entry of a key that is there. -/
def emplace {α : Type} (q : List (Bid 24 × α)) (bid : Bid 24) (value : α) : List (Bid 24 × α) :=
  if bid ∈ q.map Prod.fst then q else q ++ [(bid, value)]

/-- A box that will be written, in both maps. -/
def Scan.add (sc : Scan) (pos : PosArgs) (value : Str) : Scan :=
  { sc with
    batchWriteQuery := emplace sc.batchWriteQuery pos.bid pos
    batchWriteQueryID := emplace sc.batchWriteQueryID pos.bid value }

section

variable (keyword : Str) (srch_cnt : Int32)

/-- A slot is found: its ind and its boxes under the next search count. -/
def report (i : Nat) (p : Probe) (sc : Scan) : Option Scan :=
  (stoi p.lastID).map fun ind =>
    let sc1 : Scan := { sc with result := sc.result ++ [ind] }
    let sc2 := sc1.add ⟨keyword, Int32.ofNat (i + 1), srch_cnt + 1, p.lastAcc⟩ p.lastID
    if 1 < p.lastAcc then sc2.add ⟨keyword, Int32.ofNat (i + 1), srch_cnt + 1, 1⟩ (pointer p.lastAcc) else sc2

/-- One slot in one round. -/
def turn (firstRun : Bool) (i : Nat) (p : Probe) (id : Str) (sc : Scan) : Option (Probe × Scan) :=
  if firstRun then (p.first id).map fun p' => (p', sc)
  else if (p.next id).foundItem then (report keyword srch_cnt i (p.next id) sc).map fun sc' => (p.next id, sc')
  else some (p.next id, sc)

/-- The slots of one round, from slot `i + 1` on; `ids` answers for those that are not found. -/
def turns (firstRun : Bool) : Nat → List Probe → List Str → Scan → Option (List Probe × Scan)
  | _, [], _, sc => some ([], sc)
  | i, p :: ps, ids, sc =>
    if p.foundItem then (turns firstRun (i + 1) ps ids sc).map fun r => (p :: r.1, r.2)
    else do
      let (p', sc1) ← turn keyword srch_cnt firstRun i p (ids.headD []) sc
      let (ps', sc') ← turns firstRun (i + 1) ps ids.tail sc1
      return (p' :: ps', sc')

/-- `batchReadQuery`. -/
def batchReadQuery : Nat → List Probe → List (Bid 24)
  | _, [] => []
  | i, p :: ps =>
    if p.foundItem then batchReadQuery (i + 1) ps
    else createBid keyword (Int32.ofNat (i + 1)) srch_cnt p.curValue :: batchReadQuery (i + 1) ps

/-- `ORAM_srch->batchRead`. -/
def batchRead (m : OMap) (query : List (Bid 24)) : List Str := query.map fun bid => (m bid).getD []

/-- `while (!foundAll)`; `none` where `stoi` throws or the fuel runs out. -/
def rounds (m : OMap) : Nat → Bool → List Probe → Scan → Option Scan
  | 0, _, _, _ => none
  | fuel + 1, firstRun, ps, sc =>
    if ps.all Probe.foundItem then some sc
    else do
      let (ps', sc') ← turns keyword srch_cnt firstRun 0 ps (batchRead m (batchReadQuery keyword srch_cnt 0 ps)) sc
      rounds m fuel false ps' sc'

end

/-- `map::operator[]` of a counter. -/
def bracket (m : Str → Option Int32) (keyword : Str) : Str → Option Int32 :=
  Function.update m keyword (some ((m keyword).getD 0))

/-- `Horus::search`. -/
def search (fuel : Nat) (st : State) (keyword : Str) : State × Option (List Int32) :=
  let cnt := (st.updtCnt keyword).getD 0
  let srch_cnt := (st.srchCnt keyword).getD 0
  let right := (st.access keyword).getD 0
  let st1 : State := { st with
    updtCnt := bracket st.updtCnt keyword
    access := if 0 < cnt then bracket st.access keyword else st.access }
  match rounds keyword srch_cnt st.srch fuel true (List.replicate cnt.toInt.toNat ⟨1, right, 1, 0, [], false⟩) ⟨[], [], []⟩ with
  | none => (st1, none)
  | some sc =>
    ({ st1.batchWrite sc.batchWriteQueryID with
        srchCnt := Function.update st.srchCnt keyword (some (srch_cnt + 1))
        latestUpdatedCounter :=
          Function.update st.latestUpdatedCounter keyword (some (Int32.ofNat sc.result.length)) }, some sc.result)

/-! ## Runs -/

/-- One call; the output is `none` for an exception. -/
def step (fuel : Nat) (st : State) : Op → State × Option (List Int32)
  | .insert w ind => ((insert st w ind).1, (insert st w ind).2.map fun _ => [])
  | .remove w ind => ((remove st w ind).1, (remove st w ind).2.map fun _ => [])
  | .search w => search fuel st w

/-- The state after a sequence of calls on a fresh Horus. -/
def after (fuel : Nat) (ops : List Op) : State := ops.foldl (fun st op => (step fuel st op).1) init

@[simp] theorem after_nil (fuel : Nat) : after fuel [] = init := rfl

@[simp] theorem after_concat (fuel : Nat) (ops : List Op) (op : Op) :
    after fuel (ops ++ [op]) = (step fuel (after fuel ops) op).1 := by
  simp [after]

/-! ## Keys -/

theorem createMapBid_eq_iff {t t' : UInt8} {w w' : Str} {a b : Int32} :
    createMapBid t w a = createMapBid t' w' b ↔ t = t' ∧ padTo 19 w = padTo 19 w' ∧ a = b := by
  constructor
  · intro h
    obtain ⟨ht, htail⟩ := List.cons.inj (congrArg Bid.id h)
    obtain ⟨h1, h2⟩ := List.append_inj htail (by simp)
    exact ⟨ht, h1, toBytes_injective h2⟩
  · rintro ⟨rfl, h, rfl⟩
    apply Bid.ext_id
    show t :: (padTo 19 w ++ toBytes a) = t :: (padTo 19 w' ++ toBytes a)
    rw [h]

theorem createBid_eq_iff {w w' : Str} {u s a u' s' a' : Int32} :
    createBid w u s a = createBid w' u' s' a' ↔ padTo 12 w = padTo 12 w' ∧ u = u' ∧ s = s' ∧ a = a' := by
  constructor
  · intro h
    obtain ⟨h1, hrest⟩ := List.append_inj (congrArg Bid.id h) (by simp)
    obtain ⟨h2, hrest⟩ := List.append_inj hrest (by simp)
    obtain ⟨h3, h4⟩ := List.append_inj hrest (by simp)
    exact ⟨h4, toBytes_injective h1, toBytes_injective h2, toBytes_injective h3⟩
  · rintro ⟨h, rfl, rfl, rfl⟩
    apply Bid.ext_id
    show toBytes u ++ (toBytes s ++ (toBytes a ++ padTo 12 w)) = toBytes u ++ (toBytes s ++ (toBytes a ++ padTo 12 w'))
    rw [h]

theorem padTo_ne {n : Nat} {w w' : Str} (hw : Valid w) (hw' : Valid w') (hne : w ≠ w') (hn : 12 ≤ n) :
    padTo n w ≠ padTo n w' := fun h =>
  hne (padTo_injective hw.nulFree hw'.nulFree (hw.fits.trans hn) (hw'.fits.trans hn) h)

/-! ## Entries -/

/-- No digit and no sign is a `'#'`. -/
theorem hash_notMem_toStr (x : Int) : (35 : UInt8) ∉ toStr x := by
  have hnat : ∀ n, (35 : UInt8) ∉ natStr n := fun n h => absurd (isDigit_of_mem_natStr h) (by decide)
  unfold toStr
  split
  · simp [hnat]
  · exact hnat _

theorem splitOn_append_hash {a b : Str} (ha : (35 : UInt8) ∉ a) (hb : (35 : UInt8) ∉ b) :
    (a ++ 35 :: b).splitOn 35 = [a, b] := by
  have hno : ∀ l : Str, (35 : UInt8) ∉ l → ∀ x ∈ l, (x == 35) = false := fun l hl x hx => by
    simpa using fun e : x = 35 => hl (e ▸ hx)
  unfold List.splitOn
  rw [List.splitOnP_append_cons_of_forall_mem (hno a ha) 35 (by simp) b, List.splitOnP_eq_singleton (hno b hb)]

theorem splitOn_entry (a b : Int32) : (entry a b).splitOn 35 = [toStr a.toInt, toStr b.toInt] :=
  splitOn_append_hash (hash_notMem_toStr _) (hash_notMem_toStr _)

@[simp] theorem token_entry_zero (a b : Int32) : token (entry a b) 0 = toStr a.toInt := by
  rw [token, splitOn_entry]
  rfl

@[simp] theorem token_entry_one (a b : Int32) : token (entry a b) 1 = toStr b.toInt := by
  rw [token, splitOn_entry]
  rfl

@[simp] theorem entry_ne_nil (a b : Int32) : entry a b ≠ [] := by
  simp [entry]

end Sse.Horus
