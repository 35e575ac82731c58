import Sse.Basic.Edb
import Sse.Lib.Runs
import Sse.Lib.Tally

/-!
# Fides

`SophosClient` counts the updates of each keyword; update number `c` is stored under a
token made from the keyword's search token, inverted `c` times with the trapdoor.  The
server walks the chain the other way with the public key.  `FidesClient` stores inserts
and deletions alike, as the text `ind|1` or `ind|0`, and counts them at search time; with
`deleteItems` a search removes what it read and inserts the inds it returns again.

The same client runs against a server of its own process, or as `FidesClientRunner`
against a `FidesServerRunner`; both are modelled here, outside setup mode.

`none` stands for the end of the process: an abort in `Utilities::decode`, an exception
of `stoi`, or a value without a bar.
-/

namespace Sse.Fides

/-- The functions outside the scheme: blocks are a type `B`, search tokens a type `ST`. -/
structure Setting (B ST : Type) where
  /-- The first 16 bytes of `Hash::hash`. -/
  getKeywordIndex : Str → Str
  /-- `generate_array` with the client's `rsa_prg_`. -/
  generateArray : Str → ST
  invertMult : ST → UInt32 → ST
  eval : ST → ST
  /-- `prf_string` of the client's derivation key. -/
  derivationPrf : Str → Str
  /-- The update token and the mask. -/
  genUpdateTokenMasks : Str → ST → B × B
  /-- `Utilities::encode`. -/
  encode : Str → B
  /-- `Utilities::decode`; `none` where OpenSSL reports an error. -/
  decode : B → Option Str
  /-- What an uninitialised search token holds. -/
  junk : ST
  usehdd : Bool
  deleteItems : Bool

structure UpdateRequest (B : Type) where
  token : B
  index : B

structure SearchRequest (ST : Type) where
  token : ST
  derivation_key : Str
  add_count : UInt32

section

variable {B ST : Type} (S : Setting B ST)

/-! ## SophosClient -/

abbrev RamCounter := Str → Option UInt32

/-- `SophosClient::search_request`. -/
def searchRequest (ramCounter : RamCounter) (keyword : Str) : SearchRequest ST :=
  let seed := S.getKeywordIndex keyword
  match ramCounter keyword with
  | none => ⟨S.junk, [], 0⟩
  | some kw_counter =>
    ⟨S.invertMult (S.generateArray seed) kw_counter, S.derivationPrf seed, kw_counter + 1⟩

variable [XorOp B]

/-- `SophosClient::update_request`. -/
def updateRequest (ramCounter : RamCounter) (keyword : Str) (index : B) : RamCounter × UpdateRequest B :=
  let seed := S.getKeywordIndex keyword
  let kw_counter := nextCnt (ramCounter keyword)
  let st := S.generateArray seed
  let st := if kw_counter = 0 then st else S.invertMult st kw_counter
  let deriv_key := S.derivationPrf seed
  let (token, mask) := S.genUpdateTokenMasks deriv_key st
  (Function.update ramCounter keyword (some kw_counter), ⟨token, index ^^^ mask⟩)

variable [DecidableEq B]

/-! ## SophosServer -/

abbrev Edb (B : Type) := B → Option B

omit [XorOp B] in
/-- `SophosServer::update`. -/
def update (usehdd : Bool) (edb : Edb B) (req : UpdateRequest B) : Edb B :=
  serverUpdate usehdd edb (req.token, req.index)

/-- The loop of `SophosServer::search`, with the number of rounds left. -/
def searchLoop (deleteItems : Bool) (derivation_key : Str) : Nat → ST → Edb B → Edb B × List B
  | 0, _, edb => (edb, [])
  | n + 1, st, edb =>
    let (ut, mask) := S.genUpdateTokenMasks derivation_key st
    match edb ut with
    | some r =>
      let edb := if deleteItems then Function.update edb ut none else edb
      let (edb, results) := searchLoop deleteItems derivation_key n (S.eval st) edb
      (edb, (r ^^^ mask) :: results)
    | none => searchLoop deleteItems derivation_key n (S.eval st) edb

/-- `SophosServer::search`. -/
def serverSearch (deleteItems : Bool) (edb : Edb B) (req : SearchRequest ST) : Edb B × List B :=
  searchLoop S deleteItems req.derivation_key req.add_count.toNat req.token edb

/-! ## FidesClient -/

omit [XorOp B] [DecidableEq B] in
/-- The value stored for an update: the ind, a bar, and 1 for an insert. -/
def valueText (ind : UInt64) (ins : Bool) : Str := natStr ind.toNat ++ 124 :: (if ins then [49] else [48])

omit [XorOp B] [DecidableEq B] in
/-- `split(tokens, text, is_any_of("|"))`. -/
def splitBar (text : Str) : List Str := text.splitOn 124

omit [XorOp B] [DecidableEq B] in
/-- The ind of a value and what it adds to the count. -/
def readValue (r : B) : Option (UInt64 × Int32) := do
  let plainValue ← S.decode r
  let tokens := splitBar plainValue
  let finalPlainValue ← stoi (← tokens[0]?)
  let flag ← stoi (← tokens[1]?)
  return (finalPlainValue.toInt64.toUInt64, 2 * flag - 1)

omit [XorOp B] [DecidableEq B] in
/-- The counts of a reply: `remove[finalPlainValue] += ..`, one value after the other. -/
def countReply : SortedMap UInt64 Int32 → List B → Option (SortedMap UInt64 Int32)
  | remove, [] => some remove
  | remove, r :: rs => do
    let (ind, d) ← readValue S r
    countReply (remove.alter ind 0 (· + d)) rs

omit [XorOp B] [DecidableEq B] in
/-- `FidesClient::searchProcess`. -/
def searchProcess (res_ins : List B) : Option (List UInt64) :=
  (countReply S SortedMap.empty res_ins).map fun remove => remove.keysWhere (0 < ·)

omit [DecidableEq B] in
/-- `insertKeyword` and `deleteKeyword` with a request to fill. -/
def keywordRequest (ramCounter : RamCounter) (key : Str) (ind : UInt64) (ins : Bool) :
    RamCounter × UpdateRequest B :=
  updateRequest S ramCounter key (S.encode (valueText ind ins))

/-- A client, and the server of its process. -/
structure State (B : Type) where
  ramCounter : RamCounter
  edb : Edb B

def init (B : Type) : State B := ⟨fun _ => none, fun _ => none⟩

/-- `FidesClient::insertKeyword` and `FidesClient::deleteKeyword`. -/
def updateKeyword (st : State B) (key : Str) (ind : UInt64) (ins : Bool) : State B :=
  let (ramCounter, u_req) := keywordRequest S st.ramCounter key ind ins
  ⟨ramCounter, update S.usehdd st.edb u_req⟩

/-- `FidesClient::searchKeyword`. -/
def searchKeyword (st : State B) (key : Str) : Option (State B × List UInt64) := do
  let s_req_ins := searchRequest S st.ramCounter key
  let (edb, res_ins) := serverSearch S S.deleteItems st.edb s_req_ins
  let remove ← countReply S SortedMap.empty res_ins
  let final_res := remove.keysWhere (0 < ·)
  let st : State B := { st with edb := edb }
  if S.deleteItems then return (final_res.foldl (fun st ind => updateKeyword S st key ind true) st, final_res)
  else return (st, final_res)

end

inductive Op where
  | insert (keyword : Str) (ind : UInt64)
  | delete (keyword : Str) (ind : UInt64)
  | search (keyword : Str)
deriving DecidableEq

def Op.keyword : Op → Str
  | .insert w _ | .delete w _ | .search w => w

section

variable {B ST : Type} [XorOp B] [DecidableEq B] (S : Setting B ST)

/-- One call on the single-machine client; only a search answers with a list. -/
def step (st : State B) : Op → Option (State B × List UInt64)
  | .insert w ind => some (updateKeyword S st w ind true, [])
  | .delete w ind => some (updateKeyword S st w ind false, [])
  | .search w => searchKeyword S st w

/-! ## The runners -/

structure SetupMessage where
  cleaningMode : Bool
  usehdd : Bool

structure UpdateRequestMessage (B : Type) where
  update_token : B
  index : B

structure BatchUpdateRequestMessage (B : Type) where
  update_token : List B
  index : List B

structure SearchRequestMessage (ST : Type) where
  search_token : ST
  derivation_key : Str
  add_count : UInt32

/-- `FidesServerRunner`: its server, and the mode it was set up with. -/
structure ServerRunner (B : Type) where
  usehdd : Bool
  deleteItem : Bool
  edb : Edb B

namespace ServerRunner

omit [XorOp B] [DecidableEq B] in
/-- `FidesServerRunner::setup` on an empty database. -/
def setup (message : SetupMessage) : ServerRunner B :=
  ⟨message.usehdd, message.cleaningMode, fun _ => none⟩

omit [XorOp B] in
/-- `FidesServerRunner::update`. -/
def update (srv : ServerRunner B) (message : UpdateRequestMessage B) : ServerRunner B :=
  { srv with edb := Fides.update srv.usehdd srv.edb ⟨message.update_token, message.index⟩ }

omit [XorOp B] in
/-- `FidesServerRunner::batchUpdate`: `update_token(i)` with `index(i)`. -/
def batchUpdate (srv : ServerRunner B) (message : BatchUpdateRequestMessage B) : ServerRunner B :=
  let reqs := message.update_token.zip message.index
  { srv with edb := reqs.foldl (fun edb r => Fides.update srv.usehdd edb ⟨r.1, r.2⟩) srv.edb }

/-- `FidesServerRunner::search` and its `SearchReply`. -/
def search (srv : ServerRunner B) (message : SearchRequestMessage ST) : ServerRunner B × List B :=
  let req : SearchRequest ST := ⟨message.search_token, message.derivation_key, message.add_count⟩
  let (edb, res_ins) := serverSearch S srv.deleteItem srv.edb req
  ({ srv with edb := edb }, res_ins)

end ServerRunner

/-- `FidesClientRunner` and the `FidesServerRunner` it calls. -/
structure Pair (B : Type) where
  ramCounter : RamCounter
  server : ServerRunner B

namespace Pair

omit [XorOp B] [DecidableEq B] in
/-- A new runner after its `setup`. -/
def start : Pair B := ⟨fun _ => none, .setup ⟨S.deleteItems, S.usehdd⟩⟩

/-- `FidesClientRunner::insertKeyword` and `FidesClientRunner::deleteKeyword`. -/
def updateKeyword (p : Pair B) (keyword : Str) (index : UInt64) (ins : Bool) : Pair B :=
  let (ramCounter, req) := keywordRequest S p.ramCounter keyword index ins
  ⟨ramCounter, p.server.update ⟨req.token, req.index⟩⟩

omit [DecidableEq B] in
/-- The requests for the returned inds, which go into one batch. -/
def batch (keyword : Str) : RamCounter → List UInt64 → RamCounter × List (UpdateRequest B)
  | ramCounter, [] => (ramCounter, [])
  | ramCounter, item :: res =>
    let (ramCounter, breq) := keywordRequest S ramCounter keyword item true
    let (ramCounter, breqs) := batch keyword ramCounter res
    (ramCounter, breq :: breqs)

/-- `FidesClientRunner::searchKeyword`. -/
def searchKeyword (p : Pair B) (keyword : Str) : Option (Pair B × List UInt64) := do
  let req := searchRequest S p.ramCounter keyword
  let (server, ciphers) := p.server.search S ⟨req.token, req.derivation_key, req.add_count⟩
  let res ← searchProcess S ciphers
  if S.deleteItems then
    let (ramCounter, breqs) := batch S keyword p.ramCounter res
    return (⟨ramCounter, server.batchUpdate ⟨breqs.map (·.token), breqs.map (·.index)⟩⟩, res)
  else return (⟨p.ramCounter, server⟩, res)

def step (p : Pair B) : Op → Option (Pair B × List UInt64)
  | .insert w ind => some (p.updateKeyword S w ind true, [])
  | .delete w ind => some (p.updateKeyword S w ind false, [])
  | .search w => p.searchKeyword S w

end Pair

end

end Sse.Fides
