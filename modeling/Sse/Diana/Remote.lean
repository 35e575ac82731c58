import Sse.Diana.Interface

/-!
# Diana over a channel

`DianaClientRunner` keeps the client half of the interface and sends requests to
`DianaServerRunner`, which keeps the two servers and `delCntMap`.  Every call of
`DianaInterface` exists a second time: the update overloads hand out the request instead
of applying it, and `searchKeyword` is split over `searchDeletedKeyword`,
`searchInsertedKeyword`, `processSearch` and one batch of re-insertions.  The copies do
the same, step by step:

    run of the runners = run of the single machine, its state cut in two    (diana_remote_agrees)

Part of an output are the update tokens that the call issues.
-/

namespace Sse.Diana

/-! ## The single machine, with the tokens it issues -/

section

variable {B : Type} [XorOp B] (S : Setting B)

/-- The request of `insertKeyword` to `serverIns`, with its counter. -/
def insertRequest (st : State B) (keyword : Str) (ind : UInt64) : (B × UInt64) × UInt32 :=
  let (st1, key) := updateKey st keyword
  (updateRequest S.ins st1.ramIns key ind).2

/-- The request of `deleteKeyword` to `serverDel`. -/
def deleteRequest (st : State B) (keyword : Str) (ind : UInt64) : (B × B) × UInt32 :=
  let (st1, key) := updateKey st keyword
  (updateRequest S.del st1.ramDel key (delCntKey S key ind)).2

variable [DecidableEq B]

/-- The tokens of the re-insertions of a cleaning search. -/
def reinsertTokens (keyword : Str) : State B → List UInt64 → List B
  | _, [] => []
  | st, item :: items =>
    (insertRequest S st keyword item).1.1 :: reinsertTokens keyword (insertKeyword S st keyword item) items

/-- The update tokens a call issues, with the list it answers. -/
def issued (st : State B) (res : List UInt64) : Op → List B
  | .insert w ind => [(insertRequest S st w ind).1.1]
  | .delete w ind => [(deleteRequest S st w ind).1.1]
  | .search w => if S.deleteResults then reinsertTokens S w (rekey (touchKey st w).1 w) res else []

/-- One call on the single machine, with the tokens it issues. -/
def stepIssued (st : State B) (op : Op) : Option (State B × List UInt64 × List B) :=
  (step S st op).map fun r => (r.1, r.2, issued S st r.2 op)

omit [XorOp B] in
/-- The tokens are those under which the servers store. -/
theorem insertKeyword_edbIns (st : State B) (w : Str) (ind : UInt64) :
    (insertKeyword S st w ind).edbIns = serverUpdate S.usehdd st.edbIns (insertRequest S st w ind).1 := by
  unfold insertKeyword insertRequest updateKey
  cases st.keywordsToken w <;> rfl

theorem deleteKeyword_edbDel (st : State B) (w : Str) (ind : UInt64) :
    (deleteKeyword S st w ind).edbDel = serverUpdate S.usehdd st.edbDel (deleteRequest S st w ind).1 := by
  unfold deleteKeyword deleteRequest updateKey
  cases st.keywordsToken w <;> rfl

end

/-! ## The runners -/

structure InsertRequestMessage (B : Type) where
  update_token : B
  index : UInt64
  delete_key : B
  delete_value : B

structure BatchInsertRequestMessage (B : Type) where
  update_token : List B
  index : List UInt64
  delete_key : List B
  delete_value : List B

structure DeleteRequestMessage (B : Type) where
  update_token : B
  index : B

structure SearchRequestMessage (B : Type) where
  token_list : List (B × Nat)
  add_count : UInt32

/-- The interface of `DianaClientRunner`, which has no servers of its own. -/
structure Client (B : Type) where
  keywordsToken : Str → Option Str
  keywordsCounter : Str → Option Int32
  ramIns : Str → Option UInt32
  ramDel : Str → Option UInt32

namespace Client

variable {B : Type}

/-- The internal key an update uses. -/
def updateKey (c : Client B) (keyword : Str) : Client B × Str :=
  match c.keywordsToken keyword with
  | some key => (c, key)
  | none =>
    let key := keyword ++ toStr 1
    ({ c with
      keywordsCounter := Function.update c.keywordsCounter keyword (some 1)
      keywordsToken := Function.update c.keywordsToken keyword (some key) }, key)

/-- `keywordsToken[keyword]`. -/
def touchKey (c : Client B) (keyword : Str) : Client B × Str :=
  let key := (c.keywordsToken keyword).getD []
  ({ c with keywordsToken := Function.update c.keywordsToken keyword (some key) }, key)

variable [XorOp B] (S : Setting B)

/-- `DianaInterface::insertKeyword` for client and server mode. -/
def insertKeyword (c : Client B) (keyword : Str) (ind : UInt64) : Client B × (B × UInt64) × B × B :=
  let (c1, key) := c.updateKey keyword
  let (ram, u_req, kw_counter) := updateRequest S.ins c1.ramIns key ind
  ({ c1 with ramIns := ram }, u_req, delCntKey S key ind, S.encode (natStr kw_counter.toNat))

/-- `DianaInterface::deleteKeyword` with the request as its result. -/
def deleteKeyword (c : Client B) (keyword : Str) (ind : UInt64) : Client B × B × B :=
  let (c1, key) := c.updateKey keyword
  let (ram, u_req, _) := updateRequest S.del c1.ramDel key (delCntKey S key ind)
  ({ c1 with ramDel := ram }, u_req)

omit [XorOp B] in
/-- `DianaInterface::searchDeletedKeyword`. -/
def searchDeletedKeyword (c : Client B) (keyword : Str) : Option (Client B × SearchRequest B) :=
  let (c1, key) := c.touchKey keyword
  (searchRequest S.del c1.ramDel key).map fun req => (c1, req)

omit [XorOp B] in
/-- `DianaInterface::searchInsertedKeyword`. -/
def searchInsertedKeyword (c : Client B) (keyword : Str) (resDel : List B) : Option (Client B × SearchRequest B) := do
  let (c1, key) := c.touchKey keyword
  let delCnts ← resDel.mapM fun item => parseCnt S item
  let req ← searchRequestDel S.ins c1.ramIns key delCnts
  return (c1, req)

omit [XorOp B] in
/-- `DianaInterface::processSearch`. -/
def processSearch (c : Client B) (keyword : Str) : Client B :=
  if S.deleteResults then
    let counter := (c.keywordsCounter keyword).getD 0 + 1
    { c with
      keywordsCounter := Function.update c.keywordsCounter keyword (some counter)
      keywordsToken := Function.update c.keywordsToken keyword (some (keyword ++ toStr counter.toInt)) }
  else c

/-- The messages of the re-insertions, which go into one batch. -/
def batch (keyword : Str) : Client B → List UInt64 → Client B × List (InsertRequestMessage B)
  | c, [] => (c, [])
  | c, item :: results =>
    let (c1, breq, delCntMapKey, delCntMapValue) := c.insertKeyword S keyword item
    let (c2, messages) := batch keyword c1 results
    (c2, ⟨breq.1, breq.2, delCntMapKey, delCntMapValue⟩ :: messages)

end Client

/-- `DianaServerRunner`. -/
structure ServerRunner (B : Type) where
  edbIns : B → Option UInt64
  edbDel : B → Option B
  delCntMap : B → B

namespace ServerRunner

variable {B : Type} [DecidableEq B] (S : Setting B)

/-- `DianaServerRunner::insertKeyword`. -/
def insertKeyword (srv : ServerRunner B) (mes : InsertRequestMessage B) : ServerRunner B :=
  { srv with
    edbIns := serverUpdate S.usehdd srv.edbIns (mes.update_token, mes.index)
    delCntMap := Function.update srv.delCntMap mes.delete_key mes.delete_value }

/-- `DianaServerRunner::batchInsertKeyword`: the `i`-th entries of the four lists belong together. -/
def batchInsertKeyword (srv : ServerRunner B) (mes : BatchInsertRequestMessage B) : ServerRunner B :=
  let items := (mes.update_token.zip mes.index).zip (mes.delete_key.zip mes.delete_value)
  items.foldl (fun srv i => insertKeyword S srv ⟨i.1.1, i.1.2, i.2.1, i.2.2⟩) srv

/-- `DianaServerRunner::deleteKeyword`. -/
def deleteKeyword (srv : ServerRunner B) (mes : DeleteRequestMessage B) : ServerRunner B :=
  { srv with edbDel := serverUpdate S.usehdd srv.edbDel (mes.update_token, mes.index) }

variable [XorOp B]

/-- `DianaServerRunner::searchDelete`: the server looks up the counters itself. -/
def searchDelete (srv : ServerRunner B) (mes : SearchRequestMessage B) : Option (List B) :=
  (searchSimpleParallel S.del srv.edbDel ⟨mes.token_list, mes.add_count⟩).map fun resDel => resDel.map srv.delCntMap

omit [XorOp B] in
/-- `DianaServerRunner::searchInsert`. -/
def searchInsert (srv : ServerRunner B) (mes : SearchRequestMessage B) : Option (List UInt64) :=
  searchSimpleParallel S.ins srv.edbIns ⟨mes.token_list, mes.add_count⟩

end ServerRunner

/-- `DianaClientRunner` and the `DianaServerRunner` it calls. -/
structure Remote (B : Type) where
  client : Client B
  server : ServerRunner B

namespace Remote

variable {B : Type} [DecidableEq B] [XorOp B] (S : Setting B)

omit [DecidableEq B] [XorOp B] in
def start : Remote B := ⟨⟨fun _ => none, fun _ => none, fun _ => none, fun _ => none⟩,
  ⟨fun _ => none, fun _ => none, fun _ => S.zero⟩⟩

/-- `DianaClientRunner::insertKeyword`. -/
def insertKeyword (p : Remote B) (keyword : Str) (index : UInt64) : Remote B × List B :=
  let (client, req, delCntMapKey, delCntMapValue) := p.client.insertKeyword S keyword index
  (⟨client, p.server.insertKeyword S ⟨req.1, req.2, delCntMapKey, delCntMapValue⟩⟩, [req.1])

/-- `DianaClientRunner::deleteKeyword`. -/
def deleteKeyword (p : Remote B) (keyword : Str) (index : UInt64) : Remote B × List B :=
  let (client, req) := p.client.deleteKeyword S keyword index
  (⟨client, p.server.deleteKeyword S ⟨req.1, req.2⟩⟩, [req.1])

/-- `DianaClientRunner::searchKeyword`. -/
def searchKeyword (p : Remote B) (keyword : Str) : Option (Remote B × List UInt64 × List B) := do
  let (client, delReq) ← p.client.searchDeletedKeyword S keyword
  let ciphers ← p.server.searchDelete S ⟨delReq.token_list, delReq.add_count⟩
  let (client, insReq) ← client.searchInsertedKeyword S keyword ciphers
  let results ← p.server.searchInsert S ⟨insReq.token_list, insReq.add_count⟩
  let client := client.processSearch S keyword
  if S.deleteResults then
    let (client, messages) := client.batch S keyword results
    let batchMessage : BatchInsertRequestMessage B := ⟨messages.map (·.update_token), messages.map (·.index),
      messages.map (·.delete_key), messages.map (·.delete_value)⟩
    return (⟨client, p.server.batchInsertKeyword S batchMessage⟩, results, batchMessage.update_token)
  else return (⟨client, p.server⟩, results, [])

def step (p : Remote B) : Op → Option (Remote B × List UInt64 × List B)
  | .insert w ind => let (p', tokens) := p.insertKeyword S w ind; some (p', [], tokens)
  | .delete w ind => let (p', tokens) := p.deleteKeyword S w ind; some (p', [], tokens)
  | .search w => p.searchKeyword S w

end Remote

/-! ## The two machines in step -/

/-- The state of the single machine, cut into client and server. -/
def State.toRemote {B : Type} (st : State B) : Remote B :=
  ⟨⟨st.keywordsToken, st.keywordsCounter, st.ramIns, st.ramDel⟩, ⟨st.edbIns, st.edbDel, st.delCntMap⟩⟩

section

variable {B : Type} [DecidableEq B] [XorOp B] {S : Setting B}

omit [XorOp B] in
theorem insertKeyword_toRemote (st : State B) (w : Str) (ind : UInt64) :
    st.toRemote.insertKeyword S w ind = ((insertKeyword S st w ind).toRemote, [(insertRequest S st w ind).1.1]) := by
  cases h : st.keywordsToken w with
  | none => simp only [Remote.insertKeyword, Client.insertKeyword, Client.updateKey, ServerRunner.insertKeyword,
      insertKeyword, insertRequest, updateKey, State.toRemote, h]
  | some key => simp only [Remote.insertKeyword, Client.insertKeyword, Client.updateKey, ServerRunner.insertKeyword,
      insertKeyword, insertRequest, updateKey, State.toRemote, h]

theorem deleteKeyword_toRemote (st : State B) (w : Str) (ind : UInt64) :
    st.toRemote.deleteKeyword S w ind = ((deleteKeyword S st w ind).toRemote, [(deleteRequest S st w ind).1.1]) := by
  cases h : st.keywordsToken w with
  | none => simp only [Remote.deleteKeyword, Client.deleteKeyword, Client.updateKey, ServerRunner.deleteKeyword,
      deleteKeyword, deleteRequest, updateKey, State.toRemote, h]
  | some key => simp only [Remote.deleteKeyword, Client.deleteKeyword, Client.updateKey, ServerRunner.deleteKeyword,
      deleteKeyword, deleteRequest, updateKey, State.toRemote, h]

omit [XorOp B] in
/-- The four lists of a batch carry the messages one after the other. -/
theorem batchInsertKeyword_map (srv : ServerRunner B) (ms : List (InsertRequestMessage B)) :
    srv.batchInsertKeyword S ⟨ms.map (·.update_token), ms.map (·.index), ms.map (·.delete_key),
      ms.map (·.delete_value)⟩ = ms.foldl (ServerRunner.insertKeyword S) srv := by
  unfold ServerRunner.batchInsertKeyword
  induction ms generalizing srv with
  | nil => rfl
  | cons m ms ih => exact ih (srv.insertKeyword S m)

omit [XorOp B] in
/-- **A batch of re-insertions** leaves client and server as the calls one by one do. -/
theorem batch_toRemote (w : Str) (st : State B) (results : List UInt64) :
    let b := st.toRemote.client.batch S w results
    b.1 = (results.foldl (fun st item => insertKeyword S st w item) st).toRemote.client ∧
      b.2.foldl (ServerRunner.insertKeyword S) st.toRemote.server =
        (results.foldl (fun st item => insertKeyword S st w item) st).toRemote.server ∧
      b.2.map (·.update_token) = reinsertTokens S w st results := by
  induction results generalizing st with
  | nil => exact ⟨rfl, rfl, rfl⟩
  | cons item results ih =>
    obtain ⟨hp, ht⟩ := Prod.mk.inj (@insertKeyword_toRemote B _ S st w item)
    have hclient := congrArg Remote.client hp
    have hserver := congrArg Remote.server hp
    obtain ⟨h1, h2, h3⟩ := ih (insertKeyword S st w item)
    rw [← hclient] at h1 h2 h3
    rw [← hserver] at h2
    refine ⟨h1, h2, ?_⟩
    show _ :: _ = _ :: _
    rw [h3, (List.cons.inj ht).1]

omit [DecidableEq B] [XorOp B] in
theorem touchKey_toRemote (st : State B) (w : Str) :
    st.toRemote.client.touchKey w = ((touchKey st w).1.toRemote.client, (touchKey st w).2) := rfl

omit [DecidableEq B] [XorOp B] in
/-- Reading the key a second time changes nothing. -/
theorem touchKey_touchKey (st : State B) (w : Str) : touchKey (touchKey st w).1 w = touchKey st w := by
  simp [touchKey]

/-- What is left to do with the results of the two queries. -/
def finish (S : Setting B) (st : State B) (w : Str) (results : List UInt64) : Remote B × List UInt64 × List B :=
  if S.deleteResults then
    ((results.foldl (fun st item => insertKeyword S st w item) (rekey (touchKey st w).1 w)).toRemote, results,
      reinsertTokens S w (rekey (touchKey st w).1 w) results)
  else ((touchKey st w).1.toRemote, results, [])

omit [XorOp B] in
/-- The runner's end of a search. -/
theorem finish_toRemote (st : State B) (w : Str) (results : List UInt64) :
    let client := (touchKey st w).1.toRemote.client.processSearch S w
    let b := client.batch S w results
    let batchMessage : BatchInsertRequestMessage B := ⟨b.2.map (·.update_token), b.2.map (·.index),
      b.2.map (·.delete_key), b.2.map (·.delete_value)⟩
    (if S.deleteResults then
        some (⟨b.1, st.toRemote.server.batchInsertKeyword S batchMessage⟩, results, batchMessage.update_token)
      else some (⟨client, st.toRemote.server⟩, results, [])) = some (finish S st w results) := by
  intro client b batchMessage
  unfold finish
  cases hd : S.deleteResults with
  | false =>
    have hclient : client = (touchKey st w).1.toRemote.client := by
      show Client.processSearch S _ w = _
      unfold Client.processSearch
      rw [hd]
      rfl
    rw [hclient]
    rfl
  | true =>
    have hclient : client = (rekey (touchKey st w).1 w).toRemote.client := by
      show Client.processSearch S _ w = _
      unfold Client.processSearch
      rw [hd]
      rfl
    obtain ⟨h1, h2, h3⟩ := @batch_toRemote B _ S w (rekey (touchKey st w).1 w) results
    rw [← hclient] at h1 h2 h3
    have hserver : st.toRemote.server.batchInsertKeyword S batchMessage =
        (results.foldl (fun st item => insertKeyword S st w item) (rekey (touchKey st w).1 w)).toRemote.server :=
      (batchInsertKeyword_map _ _).trans h2
    simp only [if_true]
    rw [hserver]
    show some (_, _, b.2.map (·.update_token)) = _
    rw [h3, h1]

theorem stepIssued_search (st : State B) (w : Str) :
    ((stepIssued S st (.search w)).map fun r => (r.1.toRemote, r.2)) =
      (queryKey S st (touchKey st w).2).map (finish S st w) := by
  unfold stepIssued step searchKeyword
  show (((queryKey S st (touchKey st w).2).bind _).map _).map _ = _
  cases queryKey S st (touchKey st w).2 with
  | none => rfl
  | some results =>
    unfold finish issued
    cases S.deleteResults <;> rfl

/-- **The split search** does what the search of the single machine does. -/
theorem searchKeyword_toRemote (st : State B) (w : Str) :
    st.toRemote.searchKeyword S w = (stepIssued S st (.search w)).map fun r => (r.1.toRemote, r.2) := by
  rw [stepIssued_search]
  unfold Remote.searchKeyword Client.searchDeletedKeyword Client.searchInsertedKeyword ServerRunner.searchDelete
    ServerRunner.searchInsert queryKey
  simp only [touchKey_toRemote]
  rw [show (touchKey st w).1.toRemote.client.ramDel = st.ramDel from rfl]
  cases searchRequest S.del st.ramDel (touchKey st w).2 with
  | none => rfl
  | some delReq =>
    simp only [Option.map_some, Option.bind_eq_bind, Option.bind_some, touchKey_toRemote, touchKey_touchKey]
    rw [show searchSimpleParallel S.del st.toRemote.server.edbDel ⟨delReq.token_list, delReq.add_count⟩ =
      searchSimpleParallel S.del st.edbDel delReq from rfl]
    cases searchSimpleParallel S.del st.edbDel delReq with
    | none => rfl
    | some resDel =>
      simp only [Option.map_some, Option.bind_some, List.mapM_map]
      rw [show resDel.mapM (fun item => parseCnt S (st.delCntMap item)) =
        resDel.mapM ((fun item => parseCnt S item) ∘ st.toRemote.server.delCntMap) from rfl]
      cases resDel.mapM ((fun item => parseCnt S item) ∘ st.toRemote.server.delCntMap) with
      | none => rfl
      | some delCnts =>
        simp only [Option.bind_some]
        rw [show (touchKey st w).1.toRemote.client.ramIns = st.ramIns from rfl]
        cases searchRequestDel S.ins st.ramIns (touchKey st w).2 delCnts with
        | none => rfl
        | some insReq =>
          simp only [Option.bind_some, Option.pure_def]
          rw [show searchSimpleParallel S.ins st.toRemote.server.edbIns ⟨insReq.token_list, insReq.add_count⟩ =
            searchSimpleParallel S.ins st.edbIns insReq from rfl]
          cases searchSimpleParallel S.ins st.edbIns insReq with
          | none => rfl
          | some results => exact finish_toRemote st w results

/-- **Step.**  From the same state the runners do what the single machine does. -/
theorem remote_step (st : State B) (op : Op) :
    st.toRemote.step S op = (stepIssued S st op).map fun r => (r.1.toRemote, r.2) := by
  cases op with
  | insert w ind =>
    simp only [Remote.step, insertKeyword_toRemote]
    rfl
  | delete w ind =>
    simp only [Remote.step, deleteKeyword_toRemote]
    rfl
  | search w => exact searchKeyword_toRemote st w

end

/-- **Remote mode agrees with the single machine.**  For every sequence of calls either both end, or
they issue the same update tokens, answer the same lists, and the runners hold the state of the
single machine: its client maps, the entries of both servers and `delCntMap`. -/
theorem diana_remote_agrees {B : Type} [DecidableEq B] [XorOp B] (S : Setting B) (ops : List Op) :
    Runs.run (Remote.step S) (Remote.start S) ops =
      (Runs.run (stepIssued S) (init S) ops).map fun r => (r.1.toRemote, r.2) := by
  have key : Runs.Matches (fun (p : Remote B) st => p = st.toRemote) (Runs.run (Remote.step S) (Remote.start S) ops)
      (Runs.run (stepIssued S) (init S) ops) := by
    refine Runs.run_matches _ (fun _ => True) ?_ (fun _ _ => trivial) rfl
    rintro p st op - rfl
    rw [remote_step]
    cases stepIssued S st op with
    | none => trivial
    | some r => exact ⟨rfl, rfl⟩
  cases hl : Runs.run (stepIssued S) (init S) ops with
  | none =>
    cases hr : Runs.run (Remote.step S) (Remote.start S) ops with
    | none => rfl
    | some r => simp [hl, hr, Runs.Matches] at key
  | some r =>
    rw [hl] at key
    obtain ⟨p, hp, rfl⟩ := key.of_some
    rw [hp]
    rfl

end Sse.Diana
