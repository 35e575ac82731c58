import Sse.Horus.Horus
import Sse.Omap.Space

/-!
# Horus over its two ORAMs

The same client, with an `OMAP` over an `ORAM` for `OMAP_updt` and a `PRFORAM` for `ORAM_srch`
instead of finite maps.  Nothing is assumed of them: nodes and boxes may be lost, and a call
may end with any of their exceptions, which ends the run.  Where `stoi` throws the call ends
without an answer, and the run goes on from the state it leaves.
-/

namespace Sse.Horus.Stack

open Omap (Oram Err)
open Orion (Op)

/-! ## State -/

structure State where
  updt : Omap.OMap 24 × Oram 24
  srch : PrfOram
  /-- The number of `WriteBox` calls so far. -/
  writes : Nat
  updtCnt : Str → Option Int32
  srchCnt : Str → Option Int32
  access : Str → Option Int32
  lastIND : Str → Option Int32
  latestUpdatedCounter : Str → Option Int32

/-- What ends a call and the run: an exception or a `NULL` of the `OMAP`, the two exceptions of `WriteBox`, a
`std::copy` behind the end of an identifier or of a value, and more rounds of a search than the model makes. -/
inductive Fault where
  | omap (e : Err)
  | noSpace
  | idNotSet
  | overrun
  | fuel

/-- "There is no more space", in one of the stores. -/
def Fault.isFull : Fault → Bool
  | .omap .noSpace => true
  | .noSpace => true
  | _ => false

/-- What a run does not determine: the size, the leaves drawn in the `OMAP`, `generatePosition`, what the freed box of
the `i`-th `WriteBox` is read as at each level, and the recursion bound of the model. -/
structure Setting where
  maxSize : Nat
  rnd : Nat → Nat
  position : PosArgs → Nat
  stale : Nat → Nat → Nat
  fuel : Nat

/-- `floor(log2(maxSize * INC_FACTOR / Z))`, for both trees. -/
def Setting.depth (S : Setting) : Nat := Nat.log 2 (S.maxSize * 4 / 4)

/-- `Horus::Horus`. -/
def Setting.new (S : Setting) : State where
  updt := (Omap.OMap.new, Oram.new S.depth S.rnd)
  srch := PrfOram.new S.depth
  writes := 0
  updtCnt _ := none
  srchCnt _ := none
  access _ := none
  lastIND _ := none
  latestUpdatedCounter _ := none

/-- Calls that may end with a `Fault`. -/
abbrev Prog (α : Type) := StateT State (Except Fault) α

/-! ## The calls of the stores -/

section

variable (S : Setting)

/-- `OMAP_updt->find(createBid(tag, keyword, number))`. -/
def omapFind (tag : UInt8) (keyword : Str) (number : Int32) : Prog Str := fun st =>
  if 23 < keyword.length then .error .overrun
  else match st.updt.1.find (Oram.treeStore S.depth) S.fuel (createMapBid tag keyword number) st.updt.2 with
    | .ok ((o, value), s) => .ok (value, { st with updt := (o, s) })
    | .error e => .error (.omap e)

/-- `OMAP_updt->insert(createBid(tag, keyword, number), value)`. -/
def omapInsert (tag : UInt8) (keyword : Str) (number : Int32) (value : Str) : Prog Unit := fun st =>
  if 23 < keyword.length ∨ 16 < value.length then .error .overrun
  else match st.updt.1.insert (Oram.treeStore S.depth) S.fuel (createMapBid tag keyword number) value st.updt.2 with
    | .ok (o, s) => .ok ((), { st with updt := (o, s) })
    | .error e => .error (.omap e)

/-- `ORAM_srch->WriteBox`, with the identifier and the position made of the same arguments. -/
def writeBox (p : PosArgs) (value : Str) : Prog Unit := fun st =>
  if 12 < p.keyword.length then .error .overrun
  else if p.bid.isZero then .error .idNotSet
  else match st.srch.writeBox S.depth p.bid value (S.position p) (S.stale st.writes) with
    | some s => .ok ((), { st with srch := s, writes := st.writes + 1 })
    | none => .error .noSpace

/-- `ORAM_srch->batchRead`. -/
def batchRead (query : List PosArgs) : Prog (List Str) := fun st =>
  if query.any fun p => 12 < p.keyword.length then .error .overrun
  else
    let r := st.srch.batchRead S.depth (query.map fun p => (p.bid, S.position p))
    .ok (r.2, { st with srch := r.1 })

/-- `ORAM_srch->batchWrite`. -/
def batchWrite (values : List (Bid 24 × Str)) (poses : List (Bid 24 × PosArgs)) : Prog Unit := fun st =>
  match st.srch.batchWrite S.depth (SortedMap.ofList values)
      (SortedMap.ofList (poses.map fun e => (e.1, S.position e.2))) with
  | some s => .ok ((), { st with srch := s })
  | none => .error .noSpace

end

/-! ## Updates -/

/-- `if (acc_cnt > Access[keyword]) Access[keyword] = acc_cnt`. -/
def State.raiseAccess (st : State) (keyword : Str) (acc_cnt : Int32) : State :=
  let old := (st.access keyword).getD 0
  { st with access := Function.update st.access keyword (some (if old < acc_cnt then acc_cnt else old)) }

/-- The counters `insert` creates. -/
def State.createCounters (st : State) (keyword : Str) : State :=
  let st1 : State := match st.updtCnt keyword with
    | some _ => st
    | none => { st with
        updtCnt := Function.update st.updtCnt keyword (some 0)
        latestUpdatedCounter := Function.update st.latestUpdatedCounter keyword (some 0)
        srchCnt := Function.update st.srchCnt keyword (some 0) }
  match st1.access keyword with
  | some _ => st1
  | none => { st1 with access := Function.update st1.access keyword (some 1) }

def State.setUpdtCnt (st : State) (keyword : Str) (cnt : Int32) : State :=
  { st with updtCnt := Function.update st.updtCnt keyword (some cnt) }

def State.setLastIND (st : State) (keyword : Str) (ind : Option Int32) : State :=
  { st with lastIND := Function.update st.lastIND keyword ind }

section

variable (S : Setting)

/-- The end of the writes of `insert`: a slot that is not yet written under the search count gets a pointer, unless
its box is box 1. -/
def writePointer (keyword : Str) (cnt srch_cnt acc_cnt : Int32) : Prog Unit := do
  let latest := ((← get).latestUpdatedCounter keyword).getD 0
  if latest < cnt then
    modify fun st => { st with
      latestUpdatedCounter := Function.update st.latestUpdatedCounter keyword (some (latest + 1)) }
    if 1 < acc_cnt then writeBox S ⟨keyword, cnt, srch_cnt, 1⟩ (pointer acc_cnt)

/-- The writes of `insert` to slot `cnt`. -/
def fillSlot (keyword : Str) (ind cnt acc_cnt : Int32) : Prog Unit := do
  omapInsert S 0 keyword ind (entry cnt acc_cnt)
  omapInsert S 1 keyword cnt (entry ind acc_cnt)
  let srch_cnt := ((← get).srchCnt keyword).getD 0
  writeBox S ⟨keyword, cnt, srch_cnt, acc_cnt⟩ (toStr ind.toInt)
  writePointer S keyword cnt srch_cnt acc_cnt
  modify fun st => st.setLastIND keyword (some ind)

/-- The access count `insert` uses for the slot, which it reads from the slot's entry; `none` where `stoi` throws. -/
def nextAccess (keyword : Str) (cnt : Int32) : Prog (Option Int32) := do
  let resStr ← omapFind S 1 keyword cnt
  if resStr = [] then return some 1
  else
    match stoi (token resStr 1) with
    | none => return none
    | some acc =>
      modify fun st => st.raiseAccess keyword (acc + 1)
      return some (acc + 1)

/-- `Horus::insert`; the answer is `none` where `stoi` throws. -/
def insert (keyword : Str) (ind : Int32) : Prog (Option Unit) := do
  let resStr ← omapFind S 0 keyword ind
  if resStr = [] ∨ token resStr 0 = toStr (-1) then
    modify fun st => st.createCounters keyword
    let cnt := ((← get).updtCnt keyword).getD 0 + 1
    modify fun st => st.setUpdtCnt keyword cnt
    match ← nextAccess S keyword cnt with
    | none => return none
    | some acc_cnt =>
      fillSlot S keyword ind cnt acc_cnt
      return some ()
  else return some ()

/-- The swap in `Horus::remove`. -/
def fillHole (keyword : Str) (updt_cnt acc_cnt : Int32) : Prog Unit := do
  modify fun st => st.raiseAccess keyword acc_cnt
  let st ← get
  let last := (st.lastIND keyword).getD 0
  writeBox S ⟨keyword, updt_cnt, (st.srchCnt keyword).getD 0, acc_cnt⟩ (toStr last.toInt)
  omapInsert S 0 keyword last (entry updt_cnt acc_cnt)
  omapInsert S 1 keyword updt_cnt (entry last acc_cnt)
  modify fun st => st.setLastIND keyword (some last)

/-- The end of `Horus::remove`: the last ind is read from the last slot. -/
def readLast (keyword : Str) (cnt : Int32) : Prog (Option Unit) := do
  let resStr ← omapFind S 1 keyword cnt
  match stoi (token resStr 0) with
  | none => return none
  | some last =>
    modify fun st => st.setLastIND keyword (some last)
    return some ()

/-- The writes of `Horus::remove` for a pair that is in slot `updt_cnt`. -/
def removePair (keyword : Str) (ind updt_cnt acc_cnt : Int32) : Prog (Option Unit) := do
  omapInsert S 0 keyword ind (entry (-1) (acc_cnt + 1))
  let cnt := ((← get).updtCnt keyword).getD 0 - 1
  modify fun st => st.setUpdtCnt keyword cnt
  if 0 < cnt then
    if cnt + 1 ≠ updt_cnt then fillHole S keyword updt_cnt (acc_cnt + 1)
    readLast S keyword cnt
  else
    modify fun st => st.setLastIND keyword none
    return some ()

/-- `Horus::remove`; the answer is `none` where `stoi` throws. -/
def remove (keyword : Str) (ind : Int32) : Prog (Option Unit) := do
  let resStr ← omapFind S 0 keyword ind
  match stoi (token resStr 0) with
  | none => return none
  | some updt_cnt =>
    if 0 < updt_cnt then
      match stoi (token resStr 1) with
      | none => return none
      | some acc_cnt => removePair S keyword ind updt_cnt acc_cnt
    else return some ()

/-! ## Search -/

/-- The arguments of `batchReadQuery`. -/
def queryArgs (keyword : Str) (srch_cnt : Int32) : Nat → List Probe → List PosArgs
  | _, [] => []
  | i, p :: ps =>
    if p.foundItem then queryArgs keyword srch_cnt (i + 1) ps
    else ⟨keyword, Int32.ofNat (i + 1), srch_cnt, p.curValue⟩ :: queryArgs keyword srch_cnt (i + 1) ps

/-- `while (!foundAll)`; `none` where `stoi` throws. -/
def rounds (keyword : Str) (srch_cnt : Int32) : Nat → Bool → List Probe → Scan → Prog (Option Scan)
  | 0, _, _, _ => throw .fuel
  | fuel + 1, firstRun, ps, sc =>
    if ps.all Probe.foundItem then return some sc
    else do
      let ids ← batchRead S (queryArgs keyword srch_cnt 0 ps)
      match turns keyword srch_cnt firstRun 0 ps ids sc with
      | none => return none
      | some (ps', sc') => rounds keyword srch_cnt fuel false ps' sc'

/-- The end of `Horus::search`. -/
def writeBack (keyword : Str) (srch_cnt : Int32) (sc : Scan) : Prog (List Int32) := do
  modify fun st => { st with srchCnt := Function.update st.srchCnt keyword (some (srch_cnt + 1)) }
  batchWrite S sc.batchWriteQueryID sc.batchWriteQuery
  modify fun st => { st with
    latestUpdatedCounter := Function.update st.latestUpdatedCounter keyword (some (Int32.ofNat sc.result.length)) }
  return sc.result

/-- `Horus::search`; the answer is `none` where `stoi` throws, or `new string[UpdtCnt[keyword]]`. -/
def search (keyword : Str) : Prog (Option (List Int32)) := do
  let st ← get
  let cnt := (st.updtCnt keyword).getD 0
  let srch_cnt := (st.srchCnt keyword).getD 0
  let right := (st.access keyword).getD 0
  set { st with
    updtCnt := bracket st.updtCnt keyword
    access := if 0 < cnt then bracket st.access keyword else st.access }
  if cnt < 0 then return none
  else
    match ← rounds S keyword srch_cnt S.fuel true
        (List.replicate cnt.toInt.toNat ⟨1, right, 1, 0, [], false⟩) ⟨[], [], []⟩ with
    | none => return none
    | some sc => return some (← writeBack S keyword srch_cnt sc)

/-- One call; the answer is `none` for an exception of `stoi`. -/
def call : Op → Prog (Option (List Int32))
  | .insert w ind => do return (← insert S w ind).map fun _ => []
  | .remove w ind => do return (← remove S w ind).map fun _ => []
  | .search w => search S w

end

/-- A run on a new Horus. -/
def run (S : Setting) (ops : List Op) : Except Fault (List (Option (List Int32)) × State) := ops.mapM (call S) S.new

/-- The run ends with "There is no more space". -/
def outOfSpace (S : Setting) (ops : List Op) : Bool :=
  match run S ops with
  | .error e => e.isFull
  | .ok _ => false

end Sse.Horus.Stack
