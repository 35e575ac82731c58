import Sse.Basic.Bid
import Sse.Lib.Runs

/-!
# Orion

The client of Orion over its two oblivious maps, with the maps taken as finite maps
from `Bid` to the value last written (`find` answers `""` for an absent key, as
`OMAP::find` does).  `updt` maps a pair (keyword, ind) to the slot it sits in, or to
`-1` once it is removed; `srch` maps (keyword, slot) to the ind in that slot; `updtCnt`
counts the slots of a keyword and `lastIND` caches the ind of its last slot.

`remove` fills the hole it leaves with the last slot.  An exception of `stoi` leaves
the state as it was at the throw.
-/

namespace Sse.Orion

/-- `Orion::createBid`. -/
def createBid (keyword : Str) (number : Int32) : Bid 16 :=
  (Bid.ofStr keyword).setEnd (toBytes number) (by simp)

/-- A map from `Bid` to the value last inserted. -/
abbrev OMap := Bid 16 → Option Str

/-- `OMAP::find`. -/
def find (m : OMap) (key : Bid 16) : Str := (m key).getD []

/-- `OMAP::insert`. -/
def put (m : OMap) (key : Bid 16) (value : Str) : OMap := Function.update m key (some value)

/-- `OMAP::batchSearch`: the values of the keys that are present.  The source lists them in
the order its tree is walked; results are compared up to order. -/
def batchSearch (m : OMap) (keys : List (Bid 16)) : List Str := keys.filterMap m

structure State where
  srch : OMap
  updt : OMap
  updtCnt : Str → Option Int32
  lastIND : Str → Option Int32

def init : State := ⟨fun _ => none, fun _ => none, fun _ => none, fun _ => none⟩

/-- `Orion::insert`. -/
def insert (st : State) (keyword : Str) (ind : Int32) : State :=
  let mapKey := createBid keyword ind
  if find st.updt mapKey = [] then
    let cnt := (st.updtCnt keyword).getD 0 + 1
    { srch := put st.srch (createBid keyword cnt) (toStr ind.toInt)
      updt := put st.updt mapKey (toStr cnt.toInt)
      updtCnt := Function.update st.updtCnt keyword (some cnt)
      lastIND := Function.update st.lastIND keyword (some ind) }
  else st

/-- The swap in `Orion::remove`: the last ind moves to the freed slot. -/
def fillHole (st : State) (keyword : Str) (slot : Int32) (updt_cnt : Str) : State :=
  let last := (st.lastIND keyword).getD 0
  { st with
    updt := put st.updt (createBid keyword last) updt_cnt
    srch := put st.srch (createBid keyword slot) (toStr last.toInt)
    lastIND := Function.update st.lastIND keyword (some last) }

/-- `Orion::remove`; the second component is `none` where `stoi` throws. -/
def remove (st : State) (keyword : Str) (ind : Int32) : State × Option Unit :=
  let mapKey := createBid keyword ind
  let updt_cnt := find st.updt mapKey
  match stoi updt_cnt with
  | none => (st, none)
  | some slot =>
    if 0 < slot then
      let cnt := (st.updtCnt keyword).getD 0 - 1
      let st1 : State := { st with
        updt := put st.updt mapKey (toStr (-1))
        updtCnt := Function.update st.updtCnt keyword (some cnt) }
      if 0 < cnt then
        let st2 := if cnt + 1 ≠ slot then fillHole st1 keyword slot updt_cnt else st1
        match stoi (find st2.srch (createBid keyword cnt)) with
        | none => (st2, none)
        | some lastID =>
          ({ st2 with lastIND := Function.update st2.lastIND keyword (some lastID) }, some ())
      else ({ st1 with lastIND := Function.update st1.lastIND keyword none }, some ())
    else (st, some ())

/-- The slots `1 .. n` of a keyword, as the loop of `search` counts them. -/
def slotBids (keyword : Str) (n : Int32) : List (Bid 16) :=
  (List.range n.toInt.toNat).map fun i => createBid keyword (Int32.ofNat (i + 1))

/-- `Orion::search`; `none` where `stoi` throws. -/
def search (st : State) (keyword : Str) : Option (List Int32) :=
  let bids := match st.updtCnt keyword with
    | none => []
    | some n => slotBids keyword n
  (batchSearch st.srch bids).mapM stoi

/-- The calls of the public interface. -/
inductive Op where
  | insert (keyword : Str) (ind : Int32)
  | remove (keyword : Str) (ind : Int32)
  | search (keyword : Str)
deriving DecidableEq

def Op.keyword : Op → Str
  | .insert w _ | .remove w _ | .search w => w

/-- One call; the output is `none` for an exception. -/
def step (st : State) : Op → State × Option (List Int32)
  | .insert w ind => (insert st w ind, some [])
  | .remove w ind => ((remove st w ind).1, (remove st w ind).2.map fun _ => [])
  | .search w => (st, search st w)

/-- The state after a sequence of calls on a fresh Orion. -/
def after (ops : List Op) : State := ops.foldl (fun st op => (step st op).1) init

@[simp] theorem after_nil : after [] = init := rfl

@[simp] theorem after_concat (ops : List Op) (op : Op) : after (ops ++ [op]) = (step (after ops) op).1 := by
  simp [after]

/-! ## Keys -/

theorem createBid_id (keyword : Str) (number : Int32) :
    (createBid keyword number).id = padTo 12 keyword ++ toBytes number := by
  simp [createBid, Bid.setEnd, Bid.ofStr, take_padTo]

/-- A key determines the first twelve bytes of its keyword and the number. -/
theorem createBid_eq_iff {w w' : Str} {a b : Int32} :
    createBid w a = createBid w' b ↔ padTo 12 w = padTo 12 w' ∧ a = b := by
  constructor
  · intro h
    have hid := congrArg Bid.id h
    rw [createBid_id, createBid_id] at hid
    obtain ⟨h1, h2⟩ := List.append_inj hid (by simp)
    exact ⟨h1, toBytes_injective h2⟩
  · rintro ⟨h, rfl⟩
    apply Bid.ext_id
    rw [createBid_id, createBid_id, h]

/-- A keyword that `createBid` keeps apart from every other: at most 12 bytes, none of them NUL. -/
structure Valid (w : Str) : Prop where
  nulFree : NulFree w
  fits : w.length ≤ 12

/-! ## The finite maps -/

theorem find_put (m : OMap) (k k' : Bid 16) (v : Str) :
    find (put m k v) k' = if k' = k then v else find m k' := by
  unfold find put
  rw [Function.update_apply]
  split <;> rfl

theorem put_apply (m : OMap) (k k' : Bid 16) (v : Str) :
    put m k v k' = if k' = k then some v else m k' := by
  unfold put
  rw [Function.update_apply]

end Sse.Orion
