import Sse.Horus.Horus

/-!
# The setup phase of Horus

`setupInsert` and `setupRemove` write to three maps of the client, which `endSetup` hands to
the stores: the entries for `OMAP_updt`, and the values and the positions of the boxes for
`ORAM_srch`.  `batchWrite(values, poses)` walks its two maps side by side and never compares
their keys.

`beginSetup` clears the entries and the values, and leaves the positions of earlier phases
where they are.

    every batchWrite gets two maps with the same keys
      ↔ no endSetup comes with a box of an earlier phase that its own has not staged   (batchWrite_paired_iff)
-/

namespace Sse.Horus

open Orion (Op)

/-! ## Algorithm -/

/-- The client with the maps of a setup phase; a position is kept as the arguments of `generatePosition`. -/
structure Staging where
  state : State
  setupPairs1 : SortedMap (Bid 24) Str
  setupPairs2 : SortedMap (Bid 24) Str
  setupPairsPos : SortedMap (Bid 24) PosArgs

namespace Staging

def init : Staging := ⟨Horus.init, SortedMap.empty, SortedMap.empty, SortedMap.empty⟩

/-- `setupPairs1[key] = value`. -/
def stageNode (h : Staging) (key : Bid 24) (value : Str) : Staging :=
  { h with setupPairs1 := h.setupPairs1.insert key value }

/-- `setupPairs2[oramID] = value; setupPairsPos[oramID] = pos`. -/
def stageBox (h : Staging) (pos : PosArgs) (value : Str) : Staging :=
  { h with setupPairs2 := h.setupPairs2.insert pos.bid value, setupPairsPos := h.setupPairsPos.insert pos.bid pos }

/-- `setupPairs1[key]`, which makes an empty entry for a new key. -/
def stagedNode (h : Staging) (key : Bid 24) : Str := (h.setupPairs1.get? key).getD []

/-- `beginSetup`. -/
def beginSetup (h : Staging) : Staging := { h with setupPairs1 := SortedMap.empty, setupPairs2 := SortedMap.empty }

/-- `setupInsert`. -/
def setupInsert (h : Staging) (keyword : Str) (ind : Int32) : Staging :=
  let st := h.state
  let cnt := (st.updtCnt keyword).getD 0 + 1
  let srch_cnt := (st.srchCnt keyword).getD 0
  let st1 : State := { st with
    updtCnt := Function.update st.updtCnt keyword (some cnt)
    access := Function.update st.access keyword (some ((st.access keyword).getD 1))
    srchCnt := bracket st.srchCnt keyword
    lastIND := Function.update st.lastIND keyword (some ind) }
  let h1 := stageNode { h with state := st1 } (createMapBid 0 keyword ind) (entry cnt 1)
  let h2 := h1.stageNode (createMapBid 1 keyword cnt) (entry ind 1)
  h2.stageBox ⟨keyword, cnt, srch_cnt, 1⟩ (toStr ind.toInt)

/-- The swap in `setupRemove`: the last ind moves to the freed slot, under the next access count. -/
def stageHole (h : Staging) (keyword : Str) (updt_cnt acc_cnt : Int32) : Staging :=
  let st := h.state
  let last := (st.lastIND keyword).getD 0
  let st1 : State := { st.raiseAccess keyword acc_cnt with
    srchCnt := bracket st.srchCnt keyword
    lastIND := Function.update st.lastIND keyword (some last) }
  let h1 := stageBox { h with state := st1 } ⟨keyword, updt_cnt, (st.srchCnt keyword).getD 0, acc_cnt⟩ (toStr last.toInt)
  let h2 := h1.stageNode (createMapBid 0 keyword last) (entry updt_cnt acc_cnt)
  h2.stageNode (createMapBid 1 keyword updt_cnt) (entry last acc_cnt)

/-- `setupRemove`; the second component is `none` where `stoi` throws. -/
def setupRemove (h : Staging) (keyword : Str) (ind : Int32) : Staging × Option Unit :=
  let mapKey := createMapBid 0 keyword ind
  let resStr := h.stagedNode mapKey
  let h0 := h.stageNode mapKey resStr
  match stoi (token resStr 0) with
  | none => (h0, none)
  | some updt_cnt =>
    if 0 < updt_cnt then
      match stoi (token resStr 1) with
      | none => (h0, none)
      | some acc_cnt =>
        let st := h.state
        let cnt := (st.updtCnt keyword).getD 0 - 1
        let st1 : State := { st with updtCnt := Function.update st.updtCnt keyword (some cnt) }
        let h1 := stageNode { h0 with state := st1 } mapKey (entry (-1) (acc_cnt + 1))
        if 0 < cnt then
          let h2 := if cnt + 1 ≠ updt_cnt then h1.stageHole keyword updt_cnt (acc_cnt + 1) else h1
          let resStr2 := h2.stagedNode (createMapBid 1 keyword cnt)
          let h3 := h2.stageNode (createMapBid 1 keyword cnt) resStr2
          match stoi (token resStr2 0) with
          | none => (h3, none)
          | some last =>
            ({ h3 with state := { h3.state with lastIND := Function.update h3.state.lastIND keyword (some last) } }, some ())
        else ({ h1 with state := { st1 with lastIND := Function.update st1.lastIND keyword none } }, some ())
    else (h0, some ())

/-- `endSetup`: `OMAP_updt->batchInsert` and `ORAM_srch->batchWrite`. -/
def endSetup (h : Staging) : Staging :=
  let st1 := h.setupPairs1.entries.foldl (fun st e => st.insertNode e.1 e.2) h.state
  { h with state := st1.batchWrite h.setupPairs2.entries }

end Staging

/-! ## Runs -/

/-- A call of the client: a setup call, or one of the online protocol. -/
inductive Call where
  | beginSetup
  | setupInsert (keyword : Str) (ind : Int32)
  | setupRemove (keyword : Str) (ind : Int32)
  | endSetup
  | online (op : Op)

/-- What the loop of a `search` gathers. -/
def searchScan (fuel : Nat) (st : State) (keyword : Str) : Option Scan :=
  rounds keyword ((st.srchCnt keyword).getD 0) st.srch fuel true
    (List.replicate ((st.updtCnt keyword).getD 0).toInt.toNat ⟨1, (st.access keyword).getD 0, 1, 0, [], false⟩) ⟨[], [], []⟩

/-- The arguments of a call of `ORAM_srch->batchWrite`. -/
abbrev Writes := SortedMap (Bid 24) Str × SortedMap (Bid 24) PosArgs

namespace Staging

/-- One call; the output is `none` for an exception. -/
def call (fuel : Nat) (h : Staging) : Call → Staging × Option (List Int32)
  | .beginSetup => (h.beginSetup, some [])
  | .setupInsert w ind => (h.setupInsert w ind, some [])
  | .setupRemove w ind => ((h.setupRemove w ind).1, (h.setupRemove w ind).2.map fun _ => [])
  | .endSetup => (h.endSetup, some [])
  | .online op => ({ h with state := (step fuel h.state op).1 }, (step fuel h.state op).2)

/-- The calls of `ORAM_srch->batchWrite` that a call makes. -/
def batchWrites (fuel : Nat) (h : Staging) : Call → List Writes
  | .endSetup => [(h.setupPairs2, h.setupPairsPos)]
  | .online (.search w) => (searchScan fuel h.state w).toList.map fun sc =>
      (SortedMap.ofList sc.batchWriteQueryID, SortedMap.ofList sc.batchWriteQuery)
  | _ => []

/-- The client after a sequence of calls. -/
def afterCalls (fuel : Nat) (cs : List Call) : Staging := cs.foldl (fun h c => (h.call fuel c).1) init

@[simp] theorem afterCalls_nil (fuel : Nat) : afterCalls fuel [] = init := rfl

@[simp] theorem afterCalls_concat (fuel : Nat) (cs : List Call) (c : Call) :
    afterCalls fuel (cs ++ [c]) = ((afterCalls fuel cs).call fuel c).1 := by
  simp [afterCalls]

end Staging

/-! ## What is staged -/

namespace Staging

/-- The box that `setupRemove` fills, if it moves an ind. -/
def hole (h : Staging) (keyword : Str) (ind : Int32) : Option PosArgs :=
  let resStr := h.stagedNode (createMapBid 0 keyword ind)
  let cnt := (h.state.updtCnt keyword).getD 0 - 1
  match stoi (token resStr 0), stoi (token resStr 1) with
  | some updt_cnt, some acc_cnt =>
    if 0 < updt_cnt ∧ 0 < cnt ∧ cnt + 1 ≠ updt_cnt then
      some ⟨keyword, updt_cnt, (h.state.srchCnt keyword).getD 0, acc_cnt + 1⟩
    else none
  | _, _ => none

/-- The box that a call stages. -/
def boxOf (h : Staging) : Call → Option PosArgs
  | .setupInsert w _ => some ⟨w, (h.state.updtCnt w).getD 0 + 1, (h.state.srchCnt w).getD 0, 1⟩
  | .setupRemove w ind => h.hole w ind
  | _ => none

/-- The calls `pre` have staged the box `bid`. -/
def Staged (fuel : Nat) (pre : List Call) (bid : Bid 24) : Prop :=
  ∃ l c r pos, pre = l ++ c :: r ∧ (afterCalls fuel l).boxOf c = some pos ∧ pos.bid = bid

/-- And this since the last `beginSetup`. -/
def StagedNow (fuel : Nat) (pre : List Call) (bid : Bid 24) : Prop :=
  ∃ l c r pos, pre = l ++ c :: r ∧ (afterCalls fuel l).boxOf c = some pos ∧ pos.bid = bid ∧ Call.beginSetup ∉ r

variable {fuel : Nat} {pre : List Call} {bid : Bid 24}

theorem staged_concat (c : Call) : Staged fuel (pre ++ [c]) bid ↔
    Staged fuel pre bid ∨ ∃ pos, (afterCalls fuel pre).boxOf c = some pos ∧ pos.bid = bid := by
  constructor
  · rintro ⟨l, d, r, pos, he, hbox, hbid⟩
    rcases List.eq_nil_or_concat r with rfl | ⟨r, e, rfl⟩
    · obtain ⟨rfl, hd⟩ := List.append_inj' he rfl
      exact Or.inr ⟨pos, (List.singleton_inj.1 hd) ▸ hbox, hbid⟩
    · rw [List.concat_eq_append, ← List.cons_append, ← List.append_assoc] at he
      exact Or.inl ⟨l, d, r, pos, (List.append_inj' he rfl).1, hbox, hbid⟩
  · rintro (⟨l, d, r, pos, rfl, hbox, hbid⟩ | ⟨pos, hbox, hbid⟩)
    · exact ⟨l, d, r ++ [c], pos, by simp, hbox, hbid⟩
    · exact ⟨pre, c, [], pos, rfl, hbox, hbid⟩

theorem stagedNow_concat (c : Call) : StagedNow fuel (pre ++ [c]) bid ↔
    (c ≠ .beginSetup ∧ StagedNow fuel pre bid) ∨ ∃ pos, (afterCalls fuel pre).boxOf c = some pos ∧ pos.bid = bid := by
  constructor
  · rintro ⟨l, d, r, pos, he, hbox, hbid, hr⟩
    rcases List.eq_nil_or_concat r with rfl | ⟨r, e, rfl⟩
    · obtain ⟨rfl, hd⟩ := List.append_inj' he rfl
      exact Or.inr ⟨pos, (List.singleton_inj.1 hd) ▸ hbox, hbid⟩
    · rw [List.concat_eq_append, ← List.cons_append, ← List.append_assoc] at he
      obtain ⟨h1, h2⟩ := List.append_inj' he rfl
      rw [List.concat_eq_append, List.mem_append, ← h2] at hr
      refine Or.inl ⟨fun hc => hr (Or.inr ?_), l, d, r, pos, h1, hbox, hbid, fun hb => hr (Or.inl hb)⟩
      rw [hc]
      exact List.mem_singleton_self _
  · rintro (⟨hc, l, d, r, pos, rfl, hbox, hbid, hr⟩ | ⟨pos, hbox, hbid⟩)
    · refine ⟨l, d, r ++ [c], pos, by simp, hbox, hbid, fun hb => ?_⟩
      rcases List.mem_append.1 hb with hb | hb
      · exact hr hb
      · exact hc (List.mem_singleton.1 hb).symm
    · exact ⟨pre, c, [], pos, rfl, hbox, hbid, List.not_mem_nil⟩

theorem StagedNow.staged (h : StagedNow fuel pre bid) : Staged fuel pre bid := by
  obtain ⟨l, c, r, pos, he, hbox, hbid, -⟩ := h
  exact ⟨l, c, r, pos, he, hbox, hbid⟩

/-! ## The maps of a phase -/

/-- `setupRemove` stages the box of the hole, and no other. -/
theorem setupRemove_boxes (h : Staging) (w : Str) (ind : Int32) :
    match h.hole w ind with
    | some pos => ∃ value, (h.setupRemove w ind).1.setupPairs2 = h.setupPairs2.insert pos.bid value ∧
        (h.setupRemove w ind).1.setupPairsPos = h.setupPairsPos.insert pos.bid pos
    | none => (h.setupRemove w ind).1.setupPairs2 = h.setupPairs2 ∧
        (h.setupRemove w ind).1.setupPairsPos = h.setupPairsPos := by
  unfold hole setupRemove
  dsimp only
  cases h0 : stoi (token (h.stagedNode (createMapBid 0 w ind)) 0) with
  | none => exact ⟨rfl, rfl⟩
  | some updt_cnt =>
    cases h1 : stoi (token (h.stagedNode (createMapBid 0 w ind)) 1) with
    | none =>
      dsimp only
      split_ifs
      · exact ⟨rfl, rfl⟩
      · exact ⟨rfl, rfl⟩
    | some acc_cnt =>
      dsimp only
      by_cases hu : 0 < updt_cnt
      · by_cases hc : 0 < (h.state.updtCnt w).getD 0 - 1
        · by_cases hne : (h.state.updtCnt w).getD 0 - 1 + 1 ≠ updt_cnt
          · rw [if_pos ⟨hu, hc, hne⟩, if_pos hu, if_pos hc, if_pos hne]
            dsimp only
            refine ⟨toStr ((h.state.lastIND w).getD 0).toInt, ?_, ?_⟩
            · split <;> rfl
            · split <;> rfl
          · rw [if_neg (fun hall => hne hall.2.2), if_pos hu, if_pos hc, if_neg hne]
            dsimp only
            constructor
            · split <;> rfl
            · split <;> rfl
        · rw [if_neg (fun hall => hc hall.2.1), if_pos hu, if_neg hc]
          exact ⟨rfl, rfl⟩
      · rw [if_neg (fun hall => hu hall.1), if_neg hu]
        exact ⟨rfl, rfl⟩

/-- The two maps of boxes after one call. -/
theorem call_boxes (h : Staging) {c : Call} (hc : c ≠ .beginSetup) :
    match h.boxOf c with
    | some pos => ∃ value, (h.call fuel c).1.setupPairs2 = h.setupPairs2.insert pos.bid value ∧
        (h.call fuel c).1.setupPairsPos = h.setupPairsPos.insert pos.bid pos
    | none => (h.call fuel c).1.setupPairs2 = h.setupPairs2 ∧ (h.call fuel c).1.setupPairsPos = h.setupPairsPos := by
  cases c with
  | beginSetup => exact absurd rfl hc
  | setupInsert w ind => exact ⟨_, rfl, rfl⟩
  | setupRemove w ind => exact setupRemove_boxes h w ind
  | endSetup => exact ⟨rfl, rfl⟩
  | online op => exact ⟨rfl, rfl⟩

/-- The keys of `setupPairs2` are the boxes staged since the last `beginSetup`, those of `setupPairsPos` all that
were ever staged, each with the arguments it is made of. -/
structure Tracked (fuel : Nat) (pre : List Call) (h : Staging) : Prop where
  values : ∀ k, (h.setupPairs2.get? k).isSome = true ↔ StagedNow fuel pre k
  poses : ∀ k, (h.setupPairsPos.get? k).isSome = true ↔ Staged fuel pre k
  own : ∀ k pos, h.setupPairsPos.get? k = some pos → pos.bid = k

theorem tracked_after (fuel : Nat) (pre : List Call) : Tracked fuel pre (afterCalls fuel pre) := by
  induction pre using List.reverseRecOn with
  | nil =>
    refine ⟨fun k => ?_, fun k => ?_, fun k pos hk => nomatch hk⟩
    · simp [init, StagedNow]
    · simp [init, Staged]
  | append_singleton pre c ih =>
    rw [afterCalls_concat]
    by_cases hc : c = .beginSetup
    · subst hc
      refine ⟨fun k => ?_, fun k => ?_, ih.own⟩
      · rw [stagedNow_concat]
        simp [call, beginSetup, boxOf]
      · rw [staged_concat]
        refine (ih.poses k).trans ?_
        simp [boxOf]
    · have hboxes := @call_boxes fuel (afterCalls fuel pre) c hc
      cases hbox : (afterCalls fuel pre).boxOf c with
      | none =>
        rw [hbox] at hboxes
        refine ⟨fun k => ?_, fun k => ?_, fun k pos hk => ih.own k pos (hboxes.2 ▸ hk)⟩
        · rw [stagedNow_concat, hbox, hboxes.1, ih.values]
          simp [hc]
        · rw [staged_concat, hbox, hboxes.2, ih.poses]
          simp
      | some pos =>
        rw [hbox] at hboxes
        obtain ⟨value, h2, hpos⟩ := hboxes
        have hkeys : ∀ k, (∃ p, some pos = some p ∧ p.bid = k) ↔ k = pos.bid := by
          intro k
          constructor
          · rintro ⟨p, hp, rfl⟩
            rw [Option.some.inj hp]
          · rintro rfl
            exact ⟨pos, rfl, rfl⟩
        refine ⟨fun k => ?_, fun k => ?_, fun k p hk => ?_⟩
        · rw [stagedNow_concat, hbox, hkeys, h2, SortedMap.get?_insert, ← ih.values]
          by_cases hk : k = pos.bid
          · simp [hk]
          · simp [hk, hc]
        · rw [staged_concat, hbox, hkeys, hpos, SortedMap.get?_insert, ← ih.poses]
          by_cases hk : k = pos.bid
          · simp [hk]
          · simp [hk]
        · rw [hpos, SortedMap.get?_insert] at hk
          by_cases he : k = pos.bid
          · rw [if_pos he] at hk
            rw [he, Option.some.inj hk]
          · rw [if_neg he] at hk
            exact ih.own k p hk

end Staging

/-! ## What a search writes -/

/-- The two maps that a `search` fills have the same keys, and a position belongs to its key. -/
structure Scan.Paired (sc : Scan) : Prop where
  keys : sc.batchWriteQuery.map Prod.fst = sc.batchWriteQueryID.map Prod.fst
  own : ∀ e ∈ sc.batchWriteQuery, e.2.bid = e.1

theorem emplace_keys {α β : Type} {q : List (Bid 24 × α)} {q' : List (Bid 24 × β)}
    (h : q.map Prod.fst = q'.map Prod.fst) (bid : Bid 24) (a : α) (b : β) :
    (emplace q bid a).map Prod.fst = (emplace q' bid b).map Prod.fst := by
  unfold emplace
  rw [h]
  by_cases hb : bid ∈ q'.map Prod.fst
  · rw [if_pos hb, if_pos hb]
    exact h
  · rw [if_neg hb, if_neg hb, List.map_append, List.map_append, h]
    rfl

theorem Scan.Paired.add {sc : Scan} (h : sc.Paired) (pos : PosArgs) (value : Str) : (sc.add pos value).Paired := by
  refine ⟨emplace_keys h.keys _ _ _, fun e he => ?_⟩
  simp only [Scan.add, emplace] at he
  split_ifs at he
  · exact h.own e he
  · rcases List.mem_append.1 he with he | he
    · exact h.own e he
    · rw [List.mem_singleton.1 he]

section

variable {keyword : Str} {srch_cnt : Int32}

theorem Scan.Paired.report {sc sc' : Scan} (h : sc.Paired) {i : Nat} {p : Probe}
    (hr : Horus.report keyword srch_cnt i p sc = some sc') : sc'.Paired := by
  unfold Horus.report at hr
  obtain ⟨ind, -, rfl⟩ := Option.map_eq_some_iff.1 hr
  have h1 : Scan.Paired { sc with result := sc.result ++ [ind] } := ⟨h.keys, h.own⟩
  dsimp only
  split_ifs
  · exact (h1.add _ _).add _ _
  · exact h1.add _ _

theorem Scan.Paired.turn {sc sc' : Scan} (h : sc.Paired) {firstRun : Bool} {i : Nat} {p p' : Probe} {id : Str}
    (ht : Horus.turn keyword srch_cnt firstRun i p id sc = some (p', sc')) : sc'.Paired := by
  unfold Horus.turn at ht
  split_ifs at ht
  · obtain ⟨q, -, he⟩ := Option.map_eq_some_iff.1 ht
    exact (Prod.mk.inj he).2 ▸ h
  · obtain ⟨q, hr, he⟩ := Option.map_eq_some_iff.1 ht
    exact (Prod.mk.inj he).2 ▸ h.report hr
  · exact (Prod.mk.inj (Option.some.inj ht)).2 ▸ h

/-- One round. -/
theorem Scan.Paired.turns {firstRun : Bool} {ps ps' : List Probe} {sc sc' : Scan} (h : sc.Paired) {i : Nat} {ids : List Str}
    (ht : Horus.turns keyword srch_cnt firstRun i ps ids sc = some (ps', sc')) : sc'.Paired := by
  induction ps generalizing i ids sc ps' with
  | nil =>
    obtain ⟨-, rfl⟩ := Prod.mk.inj (Option.some.inj ht)
    exact h
  | cons p ps ih =>
    unfold Horus.turns at ht
    split_ifs at ht
    · obtain ⟨⟨ps1, sc1⟩, hr, he⟩ := Option.map_eq_some_iff.1 ht
      obtain rfl : sc1 = sc' := (Prod.mk.inj he).2
      exact ih h hr
    · simp only [Option.bind_eq_bind, Option.bind_eq_some_iff, Option.pure_def, Option.some.injEq, Prod.mk.injEq] at ht
      obtain ⟨⟨p1, sc1⟩, h1, ⟨ps2, sc2⟩, h2, -, rfl⟩ := ht
      exact ih (h.turn h1) h2

/-- **The loop of `search`** keeps the two maps together. -/
theorem Scan.Paired.rounds {m : OMap} {fuel : Nat} {firstRun : Bool} {ps : List Probe} {sc sc' : Scan} (h : sc.Paired)
    (hr : Horus.rounds keyword srch_cnt m fuel firstRun ps sc = some sc') : sc'.Paired := by
  induction fuel generalizing firstRun ps sc with
  | zero => cases hr
  | succ fuel ih =>
    unfold Horus.rounds at hr
    split_ifs at hr
    · exact Option.some.inj hr ▸ h
    · simp only [Option.bind_eq_bind, Option.bind_eq_some_iff] at hr
      obtain ⟨⟨ps1, sc1⟩, h1, h2⟩ := hr
      exact ih (h.turns h1) h2

end

/-! ## The calls of batchWrite -/

/-- The two maps of a `batchWrite` have the same keys. -/
def SameKeys (b : Writes) : Prop := ∀ k, (b.1.get? k).isSome = (b.2.get? k).isSome

/-- Walked side by side, to the end of the values, each box gets the position made of its own arguments. -/
def InStep (b : Writes) : Prop :=
  b.1.entries.length ≤ b.2.entries.length ∧ ∀ e ∈ b.1.entries.zip b.2.entries, e.2.2.bid = e.1.1

/-- Maps with the same keys are in step, where each position belongs to its key. -/
theorem SameKeys.inStep {b : Writes} (h : SameKeys b) (hown : ∀ k pos, b.2.get? k = some pos → pos.bid = k) : InStep b := by
  have hkeys := SortedMap.keys_eq h
  constructor
  · have := congrArg List.length hkeys
    rw [List.length_map, List.length_map] at this
    omega
  · intro e he
    obtain ⟨i, hi, rfl⟩ := List.getElem_of_mem he
    rw [List.length_zip] at hi
    rw [List.getElem_zip]
    have h1 : i < b.1.entries.length := by omega
    have h2 : i < b.2.entries.length := by omega
    have hpos : b.2.get? b.2.entries[i].1 = some b.2.entries[i].2 :=
      (SortedMap.mem_entries _ _ _).1 (List.getElem_mem _)
    have hkey : b.1.entries[i].1 = b.2.entries[i].1 := by
      have := congrArg (fun l => l[i]?) hkeys
      rw [List.getElem?_map, List.getElem?_map, List.getElem?_eq_getElem h1, List.getElem?_eq_getElem h2] at this
      exact Option.some.inj this
    rw [hown _ _ hpos]
    exact hkey.symm

/-- The maps of a `search` always have the same keys. -/
theorem search_sameKeys {fuel : Nat} {st : State} {w : Str} {sc : Scan} (h : searchScan fuel st w = some sc) :
    SameKeys (SortedMap.ofList sc.batchWriteQueryID, SortedMap.ofList sc.batchWriteQuery) ∧
      ∀ k pos, (SortedMap.ofList sc.batchWriteQuery).get? k = some pos → pos.bid = k := by
  have hpair : sc.Paired := Scan.Paired.rounds ⟨rfl, fun e he => absurd he List.not_mem_nil⟩ h
  refine ⟨fun k => ?_, fun k pos hk => hpair.own _ (SortedMap.mem_of_ofList hk)⟩
  rw [Bool.eq_iff_iff, SortedMap.isSome_ofList, SortedMap.isSome_ofList, hpair.keys]

/-- **Values and positions.**  In a run of any calls, several setup phases included, the two maps of every
`batchWrite` have the same keys and are in step, if and only if every box that was staged before an `endSetup` has
been staged since the last `beginSetup`. -/
theorem batchWrite_paired_iff (fuel : Nat) (cs : List Call) :
    (∀ pre c post, cs = pre ++ c :: post → ∀ b ∈ (Staging.afterCalls fuel pre).batchWrites fuel c, SameKeys b ∧ InStep b) ↔
      ∀ pre post, cs = pre ++ .endSetup :: post → ∀ bid, Staging.Staged fuel pre bid → Staging.StagedNow fuel pre bid := by
  constructor
  · intro h pre post he bid hbid
    have ht := Staging.tracked_after fuel pre
    have hsame := (h pre .endSetup post he _ (List.mem_singleton_self _)).1 bid
    rw [← ht.values]
    rw [← ht.poses] at hbid
    exact hsame.trans hbid
  · intro h pre c post he b hb
    suffices hsuff : SameKeys b ∧ ∀ k pos, b.2.get? k = some pos → pos.bid = k from ⟨hsuff.1, hsuff.1.inStep hsuff.2⟩
    cases c with
    | endSetup =>
      have ht := Staging.tracked_after fuel pre
      obtain rfl := List.mem_singleton.1 hb
      refine ⟨fun k => ?_, ht.own⟩
      rw [Bool.eq_iff_iff, ht.values, ht.poses]
      exact ⟨Staging.StagedNow.staged, h pre post he k⟩
    | online op =>
      cases op with
      | search w =>
        obtain ⟨sc, hsc, rfl⟩ := List.mem_map.1 hb
        exact search_sameKeys (Option.mem_toList.1 hsc)
      | insert w ind => exact absurd hb List.not_mem_nil
      | remove w ind => exact absurd hb List.not_mem_nil
    | beginSetup => exact absurd hb List.not_mem_nil
    | setupInsert w ind => exact absurd hb List.not_mem_nil
    | setupRemove w ind => exact absurd hb List.not_mem_nil

/-- Two setup phases with one insert each. -/
def twoPhases : List Call :=
  [.beginSetup, .setupInsert [97] 1, .endSetup, .beginSetup, .setupInsert [97] 2]

/-- The second `endSetup` hands over one value and two positions, so that the value gets the position of the box
of the first phase. -/
theorem twoPhases_out_of_step :
    ((Staging.afterCalls 0 twoPhases).batchWrites 0 .endSetup).map (fun b => (b.1.entries, b.2.entries.map Prod.snd)) =
      [([(createBid [97] 2 0 1, [50])], [⟨[97], 1, 0, 1⟩, ⟨[97], 2, 0, 1⟩])] ∧
    ∃ b ∈ (Staging.afterCalls 0 twoPhases).batchWrites 0 .endSetup, ¬ SameKeys b ∧ ¬ InStep b := by
  have hval : ((Staging.afterCalls 0 twoPhases).setupPairs2.get? (createBid [97] 1 0 1)).isSome = false := by decide +kernel
  have hpos : ((Staging.afterCalls 0 twoPhases).setupPairsPos.get? (createBid [97] 1 0 1)).isSome = true := by decide +kernel
  have hstep : ∃ e ∈ (Staging.afterCalls 0 twoPhases).setupPairs2.entries.zip (Staging.afterCalls 0 twoPhases).setupPairsPos.entries,
      e.2.2.bid ≠ e.1.1 := by decide +kernel
  refine ⟨by decide +kernel, _, List.mem_singleton_self _, fun h => ?_, fun h => ?_⟩
  · have := h (createBid [97] 1 0 1)
    rw [hval, hpos] at this
    cases this
  · obtain ⟨e, he, hne⟩ := hstep
    exact hne (h.2 e he)

end Sse.Horus
