import Sse.Diana.Core
import Sse.Lib.Runs

/-!
# DianaInterface

Diana with deletions, on one machine and outside setup mode: one client and server for
the inserted inds, one for the deleted ones, and `delCntMap`, which tells for a hash of
(key, ind) under which counter the ind was inserted last.  A keyword is stored under an
internal key, `keyword + to_string(counter)`; with `deleteResults` every search moves
what it found to the next key.

`none` stands for the end of the process: an abort in `Utilities::decode`, an exception
of `stoi`, a covering list outside its bounds, or a read past an empty token list.
-/

namespace Sse.Diana

/-- The functions outside the interface. -/
structure Setting (B : Type) where
  ins : Prims B UInt64
  del : Prims B B
  /-- `Utilities::encode`. -/
  encode : Str → B
  /-- `Utilities::decode`; `none` where OpenSSL reports an error. -/
  decode : B → Option Str
  /-- A value-initialised block. -/
  zero : B
  usehdd : Bool
  deleteResults : Bool

structure State (B : Type) where
  keywordsToken : Str → Option Str
  keywordsCounter : Str → Option Int32
  ramIns : Str → Option UInt32
  edbIns : B → Option UInt64
  ramDel : Str → Option UInt32
  edbDel : B → Option B
  /-- `delCntMap[key]`; an absent key reads as the zero block. -/
  delCntMap : B → B

section

variable {B : Type} [DecidableEq B] [XorOp B] (S : Setting B)

def init : State B := ⟨fun _ => none, fun _ => none, fun _ => none, fun _ => none, fun _ => none, fun _ => none,
  fun _ => S.zero⟩

/-- `key + "|" + to_string(ind)`. -/
def delString (key : Str) (ind : UInt64) : Str := key ++ 124 :: natStr ind.toNat

/-- The key of a pair in `delCntMap`. -/
def delCntKey (key : Str) (ind : UInt64) : B := S.ins.hash (delString key ind)

omit [DecidableEq B] [XorOp B] in
/-- The internal key an update of the keyword uses; the first update creates it. -/
def updateKey (st : State B) (keyword : Str) : State B × Str :=
  match st.keywordsToken keyword with
  | some key => (st, key)
  | none =>
    let key := keyword ++ toStr 1
    ({ st with
      keywordsCounter := Function.update st.keywordsCounter keyword (some 1)
      keywordsToken := Function.update st.keywordsToken keyword (some key) }, key)

/-- `DianaInterface::insertKeyword`. -/
def insertKeyword (st : State B) (keyword : Str) (ind : UInt64) : State B :=
  let (st1, key) := updateKey st keyword
  let (ram, u_req, kw_counter) := updateRequest S.ins st1.ramIns key ind
  { st1 with
    ramIns := ram
    edbIns := serverUpdate S.usehdd st1.edbIns u_req
    delCntMap := Function.update st1.delCntMap (delCntKey S key ind) (S.encode (natStr kw_counter.toNat)) }

/-- `DianaInterface::deleteKeyword`. -/
def deleteKeyword (st : State B) (keyword : Str) (ind : UInt64) : State B :=
  let (st1, key) := updateKey st keyword
  let (ram, u_req, _) := updateRequest S.del st1.ramDel key (delCntKey S key ind)
  { st1 with
    ramDel := ram
    edbDel := serverUpdate S.usehdd st1.edbDel u_req }

omit [DecidableEq B] [XorOp B] in
/-- The counter in an entry of `delCntMap`: `stoi(Utilities::decode(..))`. -/
def parseCnt (code : B) : Option UInt32 := do
  let cnt ← S.decode code
  let c ← stoi cnt
  return c.toUInt32

omit [DecidableEq B] [XorOp B] in
/-- The change of key after a cleaning search. -/
def rekey (st : State B) (keyword : Str) : State B :=
  let counter := (st.keywordsCounter keyword).getD 0 + 1
  { st with
    keywordsCounter := Function.update st.keywordsCounter keyword (some counter)
    keywordsToken := Function.update st.keywordsToken keyword (some (keyword ++ toStr counter.toInt)) }

/-- The two queries of `searchKeyword`: the deleted inds of the key, their counters, and the
inserted inds at the other counters. -/
def queryKey (st : State B) (key : Str) : Option (List UInt64) := do
  let del_s_req ← searchRequest S.del st.ramDel key
  let resDel ← searchSimpleParallel S.del st.edbDel del_s_req
  let delCnts ← resDel.mapM fun item => parseCnt S (st.delCntMap item)
  let ins_s_req ← searchRequestDel S.ins st.ramIns key delCnts
  searchSimpleParallel S.ins st.edbIns ins_s_req

omit [DecidableEq B] [XorOp B] in
/-- `keywordsToken[keyword]`, which creates an empty entry for an unknown keyword. -/
def touchKey (st : State B) (keyword : Str) : State B × Str :=
  let key := (st.keywordsToken keyword).getD []
  ({ st with keywordsToken := Function.update st.keywordsToken keyword (some key) }, key)

/-- `DianaInterface::searchKeyword`. -/
def searchKeyword (st : State B) (keyword : Str) : Option (State B × List UInt64) := do
  let (st1, key) := touchKey st keyword
  let resIns ← queryKey S st1 key
  if S.deleteResults then
    return (resIns.foldl (fun st item => insertKeyword S st keyword item) (rekey st1 keyword), resIns)
  else return (st1, resIns)

end

/-- The calls of the public interface. -/
inductive Op where
  | insert (keyword : Str) (ind : UInt64)
  | delete (keyword : Str) (ind : UInt64)
  | search (keyword : Str)
deriving DecidableEq

def Op.keyword : Op → Str
  | .insert w _ | .delete w _ | .search w => w

/-- One call; only a search answers with a list. -/
def step {B : Type} [DecidableEq B] [XorOp B] (S : Setting B) (st : State B) : Op → Option (State B × List UInt64)
  | .insert w ind => some (insertKeyword S st w ind, [])
  | .delete w ind => some (deleteKeyword S st w ind, [])
  | .search w => searchKeyword S st w

/-! ## Keys -/

/-- The last bar of the text separates key and ind. -/
theorem delString_inj {k k' : Str} {ind ind' : UInt64} (h : delString k ind = delString k' ind') :
    k = k' ∧ ind = ind' := by
  have key : ∀ (u u' v v' : Str), (124 : UInt8) ∉ v → (124 : UInt8) ∉ v' → u ++ 124 :: v = u' ++ 124 :: v' →
      u = u' ∧ v = v' := by
    intro u
    induction u with
    | nil =>
      intro u' v v' hv _ h
      cases u' with
      | nil => exact ⟨rfl, (List.cons.inj h).2⟩
      | cons a u' =>
        refine absurd ?_ hv
        rw [(List.cons.inj h).2]
        simp
    | cons a u ih =>
      intro u' v v' hv hv' h
      cases u' with
      | nil =>
        refine absurd ?_ hv'
        rw [← (List.cons.inj h).2]
        simp
      | cons b u' =>
        obtain ⟨rfl, h2⟩ := List.cons.inj h
        obtain ⟨rfl, rfl⟩ := ih u' v v' hv hv' h2
        exact ⟨rfl, rfl⟩
  obtain ⟨h1, h2⟩ := key k k' _ _ (natStr_no_bar _) (natStr_no_bar _) h
  exact ⟨h1, UInt64.toNat_inj.1 (natStr_injective h2)⟩

/-- The internal keys that calls on the keywords of `W` can use: the empty one, which a search
of an unknown keyword leaves behind, and the keyword followed by a counter. -/
def keysOf (W : Str → Prop) (k : Str) : Prop := k = [] ∨ ∃ w, W w ∧ ∃ c : Int32, k = w ++ toStr c.toInt

/-- `Hash`, `Prf` and `Prg` do not collide on the inputs made from the keys in `K`: the update
tokens of two leaves differ, and so do the hash values of two pairs. -/
structure CollisionFree {B : Type} [XorOp B] (S : Setting B) (K : Str → Prop) : Prop where
  ins : ∀ k k' i i', K k → K k' → i < 2 ^ 32 → i' < 2 ^ 32 → token S.ins k i = token S.ins k' i' → k = k' ∧ i = i'
  del : ∀ k k' i i', K k → K k' → i < 2 ^ 32 → i' < 2 ^ 32 → token S.del k i = token S.del k' i' → k = k' ∧ i = i'
  hash : ∀ k k' ind ind', K k → K k' → S.ins.hash (delString k ind) = S.ins.hash (delString k' ind') →
    delString k ind = delString k' ind'

theorem CollisionFree.delCntKey_inj {B : Type} [XorOp B] {S : Setting B} {K : Str → Prop}
    (h : CollisionFree S K) {k k' : Str} {ind ind' : UInt64} (hk : K k) (hk' : K k')
    (he : delCntKey S k ind = delCntKey S k' ind') : k = k' ∧ ind = ind' :=
  delString_inj (h.hash k k' ind ind' hk hk' he)

/-- The free instance, with texts as blocks. -/
def freeSetting (usehdd deleteResults : Bool) : Setting Str where
  ins := freePrims fun _ => 9
  del := freePrims fun _ => [9]
  encode := id
  decode := some
  zero := []
  usehdd := usehdd
  deleteResults := deleteResults

theorem collisionFree_free (usehdd deleteResults : Bool) (K : Str → Prop) :
    CollisionFree (freeSetting usehdd deleteResults) K where
  ins _ _ _ _ _ _ hi hi' h := token_free_inj (lt_trans hi (by decide)) (lt_trans hi' (by decide)) h
  del _ _ _ _ _ _ hi hi' h := token_free_inj (lt_trans hi (by decide)) (lt_trans hi' (by decide)) h
  hash _ _ _ _ _ _ h := h

end Sse.Diana
