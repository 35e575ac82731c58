import Sse.Mitra.Fresh

/-!
# Mitra over a channel

`MitraClientRunner` sends the client's requests to `MitraServerRunner`.  A search is split:
`searchRequest` gives the addresses and the buffer `k_w` as its loop left it, and
`searchProcess` decodes the reply under the search counter it finds at that buffer.  It
runs also when `searchRequest` found no counter, and then makes one.

    deleteFiles = false, or no keyword is updated after a search that came first and no two
    addresses of the run collide
      → the runner's lists are the lists of `Client::search`           (remote_agrees)

No property of `Prg::derive` is assumed beyond the last: `cleaningPairs` is a map, which keeps
the first of two equal addresses, where `Client::search` writes both and keeps the last.
-/

namespace Sse.Mitra

/-! ## The runners -/

/-- The order of the keys of a `map<prf_type, _>`. -/
instance : LE PrfType := ⟨fun a b => a.data ≤ b.data⟩

instance : LT PrfType := ⟨fun a b => a.data < b.data⟩

instance : DecidableLT PrfType := fun a b => inferInstanceAs (Decidable (a.data < b.data))

instance : Std.IsLinearOrder PrfType where
  le_refl a := Std.le_refl a.data
  le_trans a b c h h' := @Std.le_trans _ _ _ a.data b.data c.data h h'
  le_antisymm _ _ h h' := PrfType.ext_data (Std.le_antisymm h h')
  le_total a b := Std.le_total (a := a.data) (b := b.data)

instance : Std.LawfulOrderLT PrfType where
  lt_iff a b := Std.LawfulOrderLT.lt_iff a.data b.data

section

variable (prg : PrfType → PrfType) (deleteFiles : Bool)

/-- `MitraClientRunner::update`; a message that is lost leaves the server as it was. -/
def runnerUpdate (delivered : Bool) (st : State) (op : OP) (keyword : Str) (ind : Int32) (fill : Fill) : State :=
  let (st1, addr, val) := updateRequest prg deleteFiles st op keyword ind fill
  if delivered then { st1 with dictW := Function.update st1.dictW addr val } else st1

/-- `Client::searchRequest`: the buffer and `KList`; nothing for the counters at which `search` gives
no list. -/
def searchRequest (st : State) (keyword : Str) : State × Option (PrfType × List PrfType) :=
  let k_w := keyBuf keyword
  match st.fileCnt k_w with
  | none => (st, some (k_w, []))
  | some fileCnt =>
    let srcCnt := if deleteFiles then (st.srcCnt k_w).getD 0 else 0
    let st1 := touchSrcCnt deleteFiles st k_w
    if fileCnt < 0 ∨ fileCnt = Int32.maxValue then (st1, none)
    else (st1, some (addrLoop prg deleteFiles srcCnt k_w (counters fileCnt)))

/-- The loop that fills `cleaningPairs`. -/
def pairsLoop (srcCnt : Int32) (k_w : PrfType) (fileCnt : Int32) (fills : Nat → Fill)
    (cleaningPairs : SortedMap PrfType PrfType) : List Int32 → PrfType × Int32 × SortedMap PrfType PrfType
  | [] => (k_w, fileCnt, cleaningPairs)
  | ind :: inds =>
    let (k1, addr) := getAESRandomValue prg deleteFiles k_w 0 srcCnt (fileCnt + 1)
    let (k2, rnd) := getAESRandomValue prg deleteFiles k1 1 srcCnt (fileCnt + 1)
    pairsLoop srcCnt k2 (fileCnt + 1) (fun i => fills (i + 1))
      (cleaningPairs.insertNew addr (bitwiseXORInd ind .INS (fills 0) rnd)) inds

/-- `Client::searchProcess`: the new client state, the list and `cleaningPairs`. -/
def searchProcess (st : State) (encIndexes : List PrfType) (k_w : PrfType) (fills : Nat → Fill) :
    State × List Int32 × SortedMap PrfType PrfType :=
  let srcCnt := if deleteFiles then (st.srcCnt k_w).getD 0 else 0
  let st1 := touchSrcCnt deleteFiles st k_w
  let (k1, remove) := decodeLoop prg deleteFiles srcCnt k_w 1 SortedMap.empty encIndexes
  let finalRes := remove.keysWhere (· < 0)
  if deleteFiles then
    let srcCnt' := Function.update st1.srcCnt k1 (some ((st1.srcCnt k1).getD 0 + 1))
    let (k2, fileCnt, cleaningPairs) := pairsLoop prg deleteFiles (srcCnt + 1) k1 0 fills SortedMap.empty finalRes
    ({ st1 with fileCnt := Function.update st1.fileCnt k2 (some fileCnt), srcCnt := srcCnt' }, finalRes, cleaningPairs)
  else (st1, finalRes, SortedMap.empty)

/-- `MitraServerRunner::batchUpdate`. -/
def batchUpdate (dictW : PrfType → PrfType) (pairs : SortedMap PrfType PrfType) : PrfType → PrfType :=
  pairs.entries.foldl (fun d p => Function.update d p.1 p.2) dictW

/-- `MitraClientRunner::search`. -/
def runnerSearch (st : State) (keyword : Str) (fills : Nat → Fill) : State × Option (List Int32) :=
  match searchRequest prg deleteFiles st keyword with
  | (st1, none) => (st1, none)
  | (st1, some (k_w, addresses)) =>
    let tokens := serverSearch st1.dictW addresses
    let (st2, result, cleaningPairs) := searchProcess prg deleteFiles st1 tokens k_w fills
    (if deleteFiles then { st2 with dictW := batchUpdate st2.dictW cleaningPairs } else st2, some result)

/-- One call on the runner, and whether the message of an update arrives. -/
def runnerStep (st : State) : Bool × Op → State × Option (List Int32)
  | (delivered, .update op w ind fill) => (runnerUpdate prg deleteFiles delivered st op w ind fill, some [])
  | (_, .search w fills) => runnerSearch prg deleteFiles st w fills

/-- The state after a sequence of calls on a fresh runner. -/
def runnerAfter (ops : List (Bool × Op)) : State :=
  ops.foldl (fun st op => (runnerStep prg deleteFiles st op).1) init

@[simp] theorem runnerAfter_concat (ops : List (Bool × Op)) (op : Bool × Op) :
    runnerAfter prg deleteFiles (ops ++ [op]) =
      (runnerStep prg deleteFiles (runnerAfter prg deleteFiles ops) op).1 := by
  simp [runnerAfter]

/-- A reliable channel: every message arrives. -/
def reliable (ops : List Op) : List (Bool × Op) := ops.map fun op => (true, op)

end

/-! ## Without cleaning -/

section

variable {prg : PrfType → PrfType}

/-- The split of `search` changes nothing where no counter is advanced. -/
theorem runnerSearch_keeping (st : State) (w : Str) (fills : Nat → Fill) :
    runnerSearch prg false st w fills = search prg false st w fills := by
  unfold runnerSearch searchRequest search
  simp only
  cases st.fileCnt (keyBuf w) with
  | none => rfl
  | some c =>
    by_cases hbad : c < 0 ∨ c = Int32.maxValue
    · simp only [if_pos hbad]
    · simp only [if_neg hbad, searchProcess, query, touchSrcCnt, Bool.false_eq_true, if_false]

end

/-! ## `searchProcess` with cleaning -/

section

variable {prg : PrfType → PrfType} {df : Bool}

theorem runnerUpdate_true (st : State) (op : OP) (w : Str) (ind : Int32) (fill : Fill) :
    runnerUpdate prg df true st op w ind fill = update prg df st op w ind fill := rfl

theorem batchUpdate_apply (dictW : PrfType → PrfType) (pairs : SortedMap PrfType PrfType) (a : PrfType) :
    batchUpdate dictW pairs a = (pairs.get? a).getD (dictW a) :=
  pairs.foldl_update_entries dictW a

/-- A pair under a new address is one more update. -/
theorem batchUpdate_insertNew {dictW : PrfType → PrfType} {pairs : SortedMap PrfType PrfType} {a : PrfType}
    (h : pairs.get? a = none) (v : PrfType) :
    batchUpdate dictW (pairs.insertNew a v) = Function.update (batchUpdate dictW pairs) a v := by
  ext b
  rw [batchUpdate_apply, SortedMap.get?_insertNew h, Function.update_apply, batchUpdate_apply]
  split <;> rfl

/-- **The batch writes what `search` writes.**  The addresses are distinct, so that it does not matter
that the map keeps the first of equal keys and is sent in key order. -/
theorem pairsLoop_eq {S : Set PrfType} (hinj : Set.InjOn prg S) (s : Int32) (k : PrfType) (n : Nat)
    (fills : Nat → Fill) (dictW : PrfType → PrfType) (pairs : SortedMap PrfType PrfType) {inds : List Int32}
    (hlen : n + inds.length < 2 ^ 32)
    (hS : ∀ i, n < i → i ≤ n + inds.length → seed df k 0 s (Int32.ofNat i) ∈ S)
    (hnew : ∀ i, n < i → i ≤ n + inds.length → pairs.get? (prg (seed df k 0 s (Int32.ofNat i))) = none) :
    let p := pairsLoop prg df s k (Int32.ofNat n) fills pairs inds
    let c := cleanLoop prg df s k (Int32.ofNat n) fills (batchUpdate dictW pairs) inds
    p.1 = c.1 ∧ p.2.1 = c.2.1 ∧ batchUpdate dictW p.2.2 = c.2.2 := by
  induction inds generalizing k n fills pairs with
  | nil => exact ⟨rfl, rfl, rfl⟩
  | cons ind inds ih =>
    rw [List.length_cons] at hlen hS hnew
    have hfirst := hnew (n + 1) (by omega) (by omega)
    simp only [pairsLoop, cleanLoop, getAESRandomValue, seed_seed, ofNat_add_one]
    rw [← batchUpdate_insertNew hfirst]
    refine ih (seed df k 1 s (Int32.ofNat (n + 1))) (n + 1) _ _ (by omega) (fun i h1 h2 => ?_) fun i h1 h2 => ?_
    · rw [seed_seed]
      exact hS i (by omega) (by omega)
    · rw [seed_seed, SortedMap.get?_insertNew hfirst, if_neg, hnew i (by omega) (by omega)]
      intro he
      have := ofNat_eq_iff.1 (seed_inj (hinj (hS i (by omega) (by omega)) (hS (n + 1) (by omega) (by omega)) he)).2.2
      omega

/-- What `searchProcess` does when its search counter reads 0, or when it has nothing to decode. -/
theorem searchProcess_spec {S : Set PrfType} (hinj : Set.InjOn prg S) (rt : State) (reply : List PrfType) (k : PrfType)
    (fills : Nat → Fill) (h : (rt.srcCnt k).getD 0 = 0 ∨ reply = []) {d : PrfType × SortedMap Int32 Int32}
    (hd : decodeLoop prg true 0 k 1 SortedMap.empty reply = d) (hlen : (d.2.keysWhere (· < 0)).length < 2 ^ 32)
    (hS : ∀ i, 1 ≤ i → i ≤ (d.2.keysWhere (· < 0)).length → seed true d.1 0 1 (Int32.ofNat i) ∈ S) :
    let c := cleanLoop prg true 1 d.1 0 fills rt.dictW (d.2.keysWhere (· < 0))
    let p := searchProcess prg true rt reply k fills
    p.2.1 = d.2.keysWhere (· < 0) ∧ p.1.fileCnt = Function.update rt.fileCnt c.1 (some c.2.1) ∧
      batchUpdate p.1.dictW p.2.2 = c.2.2 ∧ ∀ j, j ≠ d.1 → (p.1.srcCnt j).getD 0 = (rt.srcCnt j).getD 0 := by
  have hsrc : ∀ (k' : PrfType) (x : Option Int32) (j : PrfType), j ≠ k' →
      (Function.update (Function.update rt.srcCnt k (some ((rt.srcCnt k).getD 0))) k' x j).getD 0 =
        (rt.srcCnt j).getD 0 := by
    intro k' x j hj
    rw [Function.update_of_ne hj, Function.update_apply]
    split_ifs with he
    · rw [he, Option.getD_some]
    · rfl
  by_cases h0 : (rt.srcCnt k).getD 0 = 0
  · intro c p
    obtain ⟨h1, h2, h3⟩ := @pairsLoop_eq prg true S hinj 1 d.1 0 fills rt.dictW SortedMap.empty
      (d.2.keysWhere (· < 0)) (by omega) (fun i hi hi' => hS i hi (by omega)) (fun _ _ _ => rfl)
    simp only [p, searchProcess, touchSrcCnt, if_true, h0, hd]
    refine ⟨trivial, ?_, h3, ?_⟩
    · exact congrArg₂ (fun a b => Function.update rt.fileCnt a (some b)) h1 h2
    · rw [h0] at hsrc
      exact hsrc _ _
  · obtain rfl := h.resolve_left h0
    obtain rfl : (k, SortedMap.empty) = d := hd
    refine ⟨rfl, rfl, rfl, hsrc _ _⟩

/-! ## The buffer between the halves -/

theorem addrLoop_concat (s : Int32) (k : PrfType) (is : List Int32) (i : Int32) :
    (addrLoop prg df s k (is ++ [i])).1 = seed df k 0 s i := by
  induction is generalizing k with
  | nil => rfl
  | cons j is ih =>
    simp only [List.cons_append, addrLoop, getAESRandomValue]
    rw [ih, seed_seed]

theorem counters_of_pos {c : Int32} (h : 0 < c) : ∃ is, counters c = is ++ [c] := by
  have hpos : 0 < c.toInt := Int32.lt_iff_toInt_lt.1 h
  have hlt := Int32.toInt_lt c
  obtain ⟨m, hm⟩ : ∃ m, c.toInt.toNat = m + 1 := ⟨c.toInt.toNat - 1, by omega⟩
  refine ⟨(List.range m).map fun i => Int32.ofNat (i + 1), ?_⟩
  have hlast : Int32.ofNat (m + 1) = c := by
    rw [← Int32.toInt_inj, toInt_ofNat_small (by omega)]
    omega
  rw [counters, hm, List.range_succ, List.map_append, List.map_singleton, hlast]

theorem addrLoop_counters (s : Int32) (k : PrfType) {c : Int32} (h : 0 < c) :
    (addrLoop prg df s k (counters c)).1 = seed df k 0 s c := by
  obtain ⟨is, his⟩ := counters_of_pos h
  rw [his, addrLoop_concat]

theorem dictW_touchSrcCnt (st : State) (k : PrfType) : (touchSrcCnt df st k).dictW = st.dictW := rfl

/-- The search in terms of its halves. -/
theorem runnerSearch_some {rt : State} {w : Str} {c : Int32} (h : rt.fileCnt (keyBuf w) = some c)
    (hok : ¬ (c < 0 ∨ c = Int32.maxValue)) (fills : Nat → Fill) :
    let a := addrLoop prg true (srcOf true rt w) (keyBuf w) (counters c)
    let p := searchProcess prg true (touchSrcCnt true rt (keyBuf w)) (serverSearch rt.dictW a.2) a.1 fills
    runnerSearch prg true rt w fills = ({ p.1 with dictW := batchUpdate p.1.dictW p.2.2 }, some p.2.1) := by
  intro a p
  have hreq : searchRequest prg true rt w = (touchSrcCnt true rt (keyBuf w), some a) := by
    unfold searchRequest
    simp only [h, if_neg hok]
    rfl
  unfold runnerSearch
  rw [hreq]
  simp only [dictW_touchSrcCnt, if_true, p]

theorem runnerSearch_bad {rt : State} {w : Str} {c : Int32} (h : rt.fileCnt (keyBuf w) = some c)
    (hbad : c < 0 ∨ c = Int32.maxValue) (fills : Nat → Fill) :
    runnerSearch prg df rt w fills = (touchSrcCnt df rt (keyBuf w), none) := by
  unfold runnerSearch searchRequest
  simp only [h, if_pos hbad]

theorem searchProcess_nil (rt : State) (k : PrfType) (fills : Nat → Fill) :
    searchProcess prg true rt [] k fills =
      ({ rt with fileCnt := Function.update rt.fileCnt k (some 0),
                 srcCnt := Function.update rt.srcCnt k (some ((rt.srcCnt k).getD 0 + 1)) }, [], SortedMap.empty) := by
  simp only [searchProcess, touchSrcCnt, decodeLoop, if_true]
  rw [Function.update_self, Function.update_idem, Option.getD_some]
  rfl

/-- **A search of a keyword without entries** leaves a file counter of 0 and a search counter. -/
theorem runnerSearch_empty {rt : State} {w : Str}
    (h : rt.fileCnt (keyBuf w) = none ∨ rt.fileCnt (keyBuf w) = some 0) (fills : Nat → Fill) :
    ∃ s, runnerSearch prg true rt w fills =
      ({ rt with fileCnt := Function.update rt.fileCnt (keyBuf w) (some 0),
                 srcCnt := Function.update rt.srcCnt (keyBuf w) (some s) }, some []) := by
  rcases h with h | h
  · refine ⟨(rt.srcCnt (keyBuf w)).getD 0 + 1, ?_⟩
    unfold runnerSearch searchRequest
    simp only [h]
    rw [show serverSearch rt.dictW [] = [] from rfl, searchProcess_nil]
    rfl
  · refine ⟨(rt.srcCnt (keyBuf w)).getD 0 + 1, ?_⟩
    rw [runnerSearch_some h (by decide)]
    rw [show addrLoop prg true (srcOf true rt w) (keyBuf w) (counters 0) = (keyBuf w, []) from rfl]
    rw [show serverSearch rt.dictW [] = [] from rfl, searchProcess_nil]
    simp only [touchSrcCnt, if_true, Function.update_self, Function.update_idem, Option.getD_some]
    rfl

/-! ## Calls on another keyword -/

theorem Own.pairsLoop {w : Str} {k : PrfType} (h : Own df w k) (s c : Int32) (fills : Nat → Fill)
    (pairs : SortedMap PrfType PrfType) (inds : List Int32) : Own df w (pairsLoop prg df s k c fills pairs inds).1 := by
  induction inds generalizing k c fills pairs with
  | nil => exact h
  | cons ind inds ih => exact ih ((h.seed 0 s (c + 1)).seed 1 s (c + 1)) _ _ _

/-- The counters under all buffers of `w` are the same. -/
def SameCounters (w : Str) (st st' : State) : Prop :=
  ∀ k, Own true w k → st'.fileCnt k = st.fileCnt k ∧ st'.srcCnt k = st.srcCnt k

theorem SameCounters.trans {w : Str} {s t u : State} (h : SameCounters w s t) (h' : SameCounters w t u) :
    SameCounters w s u := fun k hk => ⟨(h' k hk).1.trans (h k hk).1, (h' k hk).2.trans (h k hk).2⟩

theorem SameCounters.dictW {w : Str} {s t : State} (h : SameCounters w s t) (d : PrfType → PrfType) :
    SameCounters w s { t with dictW := d } := h

theorem searchProcess_other {w w' : Str} (hne : padTo (width true) w ≠ padTo (width true) w') (rt : State)
    (reply : List PrfType) {k' : PrfType} (hk' : Own true w' k') (fills : Nat → Fill) :
    SameCounters w rt (searchProcess prg true rt reply k' fills).1 := by
  have hdec : Own true w' (decodeLoop prg true ((rt.srcCnt k').getD 0) k' 1 SortedMap.empty reply).1 :=
    hk'.decodeLoop _ _ _ _
  refine fun k hk => ⟨update_own_ne hne (hdec.pairsLoop _ _ _ _ _) _ hk, ?_⟩
  refine (update_own_ne hne hdec _ hk).trans ?_
  exact update_own_ne hne hk' _ hk

/-- **Frame.**  A call on `w'` leaves the counters of `w` alone. -/
theorem runnerStep_counters {w : Str} (rt : State) {op : Op}
    (hne : padTo (width true) w ≠ padTo (width true) op.keyword) :
    SameCounters w rt (runnerStep prg true rt (true, op)).1 := by
  cases op with
  | update op w' ind fill =>
    have hown := own_keyBuf true w'
    show SameCounters w rt (update prg true rt op w' ind fill)
    rw [update_eq]
    exact fun k hk => ⟨update_own_ne hne hown _ hk, update_own_ne hne hown _ hk⟩
  | search w' fills =>
    have hown := own_keyBuf true w'
    show SameCounters w rt (runnerSearch prg true rt w' fills).1
    cases hc : rt.fileCnt (keyBuf w') with
    | none =>
      unfold runnerSearch searchRequest
      simp only [hc, if_true]
      exact (searchProcess_other hne rt _ hown fills).dictW _
    | some c =>
      have htouch : SameCounters w rt (touchSrcCnt true rt (keyBuf w')) := fun k hk =>
        ⟨rfl, update_own_ne hne hown _ hk⟩
      by_cases hbad : c < 0 ∨ c = Int32.maxValue
      · rw [runnerSearch_bad hc hbad]
        exact htouch
      · rw [runnerSearch_some hc hbad]
        exact (htouch.trans (searchProcess_other hne _ _ (hown.addrLoop _ _) fills)).dictW _

end

/-! ## The addresses of a run -/

/-- The seeds of the addresses that a run can use: as many for each keyword as it has updates, under the
search counters 0 and 1. -/
def addrSeeds (ops : List Op) : Set PrfType :=
  {k | ∃ w s i, (s = 0 ∨ s = 1) ∧ 1 ≤ i ∧ i ≤ (entries ops w).length ∧ k = seed true (keyBuf w) 0 s (Int32.ofNat i)}

theorem addrSeeds_mono (ops r : List Op) : addrSeeds ops ⊆ addrSeeds (ops ++ r) := by
  rintro k ⟨w, s, i, hs, h1, h2, rfl⟩
  exact ⟨w, s, i, hs, h1, le_trans h2 (length_entries_append ops r w), rfl⟩

section

variable {prg : PrfType → PrfType}

theorem length_decodeLoop_le {df : Bool} (s c : Int32) (k : PrfType) (m : SortedMap Int32 Int32) (cs : List PrfType) :
    (decodeLoop prg df s k c m cs).2.entries.length ≤ m.entries.length + cs.length := by
  induction cs generalizing k c m with
  | nil => exact Nat.le_refl _
  | cons x cs ih =>
    simp only [decodeLoop, getAESRandomValue, List.length_cons]
    refine le_trans (ih _ _ _) ?_
    have := SortedMap.length_alter_le m (readInt (bitwiseXOR (prg (seed df k 1 s c)) x).data) 0
      (· + (2 * Int32.ofNat ((bitwiseXOR (prg (seed df k 1 s c)) x).data.getD 4 0).toNat - 1))
    omega

/-- A query finds no more inds than the keyword has updates. -/
theorem length_query_le {df : Bool} (dictW : PrfType → PrfType) (s : Int32) (k : PrfType) (n : Nat) :
    ((query prg df dictW s k (Int32.ofNat n)).2.keysWhere (· < 0)).length ≤ n := by
  refine le_trans (SortedMap.length_keysWhere_le _ _) (le_trans (length_decodeLoop_le _ _ _ _ _) ?_)
  rw [addrLoop_snd]
  refine le_trans (Nat.le_of_eq (Nat.zero_add _)) (le_trans (List.length_filter_le _ _) ?_)
  rw [List.length_map, List.length_map, counters, List.length_map, List.length_range]
  exact toNat_toInt_ofNat_le n

theorem length_found_le_entries {ops : List Op} {w : Str} (hcnt : Counted true (after prg true ops) w (entries ops w).length)
    (fills : Nat → Fill) :
    ((search prg true (after prg true ops) w fills).2.getD []).length ≤ (entries ops w).length := by
  unfold search
  simp only [hcnt.cnt]
  by_cases h0 : (entries ops w).length = 0
  · simp only [if_pos h0]
    exact Nat.zero_le _
  · simp only [if_neg h0]
    split
    · exact Nat.zero_le _
    · exact length_query_le _ _ _ _

/-- The writes of one call: an update takes the next tuple, a search the first ones under search counter 1. -/
theorem write_cases {ops : List Op} {o : Op} (hk : ∀ op ∈ ops ++ [o], Short op.keyword)
    (hn : ∀ w, (entries ops w).length < 2 ^ 32) {x : Write} (hx : x ∈ writes prg true (after prg true ops) o) :
    x.keyword = o.keyword ∧ ∃ i, 1 ≤ i ∧ i ≤ (entries (ops ++ [o]) o.keyword).length ∧ x.fileCnt = Int32.ofNat i ∧
      (x.srcCnt = 1 ∨ (x.srcCnt = 0 ∧ (entries ops o.keyword).length < i)) := by
  have hcnt := @counted_after prg true ops (fun op hop => hk op (List.mem_append_left _ hop)) (fun _ => hn) o.keyword
    (hk o (by simp))
  revert hcnt
  cases o with
  | update op w ind fill =>
    intro hcnt
    obtain rfl := List.mem_singleton.1 hx
    refine ⟨rfl, (entries ops w).length + 1, by omega, ?_, hcnt.nextCnt, Or.inr ⟨hcnt.src, Nat.lt_succ_self _⟩⟩
    show _ ≤ (entries _ w).length
    rw [entries_update, if_pos rfl, List.length_append, List.length_singleton]
  | search w fills =>
    intro (hcnt : Counted true (after prg true ops) w (entries ops w).length)
    have ht : x.tuple ∈ (writes prg true (after prg true ops) (.search w fills)).map Write.tuple := List.mem_map_of_mem hx
    simp only [writes, if_true, hcnt.src] at ht
    rw [show ((0 : Int32) + 1) = 1 from rfl, show (0 : Int32) = Int32.ofNat 0 from rfl, cleanWrites_tuple] at ht
    obtain ⟨i, hi, he⟩ := List.mem_map.1 ht
    obtain ⟨hw, hs, hf⟩ : w = x.keyword ∧ (1 : Int32) = x.srcCnt ∧ Int32.ofNat i = x.fileCnt := by
      simpa [Write.tuple] using he
    rw [List.mem_range'_1] at hi
    have hlen := length_found_le_entries hcnt fills
    refine ⟨hw.symm, i, by omega, ?_, hf.symm, Or.inl hs.symm⟩
    show _ ≤ (entries _ w).length
    rw [entries_search]
    omega

theorem foldl_put_frame (ws : List Write) (d : PrfType → PrfType) {a : PrfType}
    (h : ∀ x ∈ ws, x.addr prg true ≠ a) : (ws.foldl (put prg true) d) a = d a := by
  induction ws generalizing d with
  | nil => rfl
  | cons x ws ih =>
    rw [List.foldl_cons, ih _ fun y hy => h y (List.mem_cons_of_mem _ hy)]
    exact Function.update_of_ne (h x List.mem_cons_self).symm _ _

/-- Two dictionaries hold the same at the addresses of the first `n` updates of `w`. -/
def SameAt (prg : PrfType → PrfType) (n : Nat) (w : Str) (d d' : PrfType → PrfType) : Prop :=
  ∀ i, 1 ≤ i → i ≤ n →
    d' (prg (seed true (keyBuf w) 0 0 (Int32.ofNat i))) = d (prg (seed true (keyBuf w) 0 0 (Int32.ofNat i)))

/-- **Frame.**  A call of the local client overwrites no update, its own keyword's included. -/
theorem sameAt_step {ops : List Op} {o : Op} (hinj : Set.InjOn prg (addrSeeds (ops ++ [o])))
    (hk : ∀ op ∈ ops ++ [o], Short op.keyword) (hn : ∀ w, (entries (ops ++ [o]) w).length < 2 ^ 32) {w : Str}
    (hw : Short w) :
    SameAt prg (entries ops w).length w (after prg true ops).dictW (after prg true (ops ++ [o])).dictW := by
  have hpre : ∀ w, (entries ops w).length < 2 ^ 32 := fun w =>
    lt_of_le_of_lt (length_entries_append ops [o] w) (hn w)
  intro i hi1 hi2
  rw [after_concat, step_dictW]
  refine foldl_put_frame _ _ fun x hx he => ?_
  obtain ⟨hxw, j, hj1, hj2, hf, hs⟩ := write_cases hk hpre hx
  have hs01 : x.srcCnt = 0 ∨ x.srcCnt = 1 := by
    rcases hs with h1 | ⟨h0, -⟩
    · exact Or.inr h1
    · exact Or.inl h0
  have hseed := hinj ⟨x.keyword, x.srcCnt, j, hs01, hj1, hxw ▸ hj2, by rw [hf]⟩
    ⟨w, 0, i, Or.inl rfl, hi1, le_trans hi2 (length_entries_append ops [o] w), rfl⟩ he
  obtain ⟨hbuf, -, hfile⟩ := seed_inj hseed
  rcases hs with h1 | ⟨-, hlt⟩
  · have h01 := seed_src_inj hseed
    rw [h1] at h01
    exact absurd h01 (by decide)
  · have hkw : x.keyword = w := by
      by_contra hne
      rw [take_keyBuf, take_keyBuf] at hbuf
      rw [hxw] at hne hbuf
      exact (hk o (by simp)).padTo_ne hw hne true hbuf
    have hj := hn o.keyword
    rw [hf, ofNat_eq_iff] at hfile
    rw [hxw] at hkw
    rw [hkw] at hlt hj2 hj
    omega

end

/-! ## What the runner keeps about a keyword -/

/-- The keyword was searched before its first update. -/
def Early (pre : List Op) (w : Str) : Prop := ∃ l fills r, pre = l ++ .search w fills :: r ∧ entries l w = []

/-- No keyword is updated after a search that came before its first update. -/
def Prompt (pre : List Op) : Op → Prop
  | .update _ w _ _ => ¬ Early pre w
  | .search _ _ => True

/-- The counters are those of `Client::search`, or an early search has made others.  A search counter
at a buffer that `searchRequest` hands over has moved only if there is nothing to decode. -/
structure Far (prg : PrfType → PrfType) (pre : List Op) (rt : State) (w : Str) : Prop where
  counted : Counted true rt w (entries pre w).length ∨
    (entries pre w = [] ∧ rt.fileCnt (keyBuf w) = some 0 ∧ Early pre w)
  shadow : ∀ f : Int32, 0 < f → (rt.srcCnt (seed true (keyBuf w) 0 0 f)).getD 0 ≠ 0 →
    f.toInt ≤ (entries pre w).length ∧
      ∀ i ∈ counters f, rt.dictW (prg (seed true (keyBuf w) 0 0 i)) = notfound

theorem not_early_of_not_searched {pre : List Op} {w : Str} (h : ∀ fills, .search w fills ∉ pre) : ¬ Early pre w := by
  rintro ⟨l, fills, r, rfl, -⟩
  exact h fills (by simp)

theorem not_early_of_updated {o : Op} {pre : List Op} {w : Str} (h : (entries [o] w).length = 1) :
    ¬ Early (o :: pre) w := by
  rintro ⟨l, fills, r, he, hl⟩
  cases l with
  | nil =>
    obtain ⟨rfl, -⟩ := List.cons.inj he
    exact absurd h (by simp [entries])
  | cons a l =>
    obtain ⟨rfl, -⟩ := List.cons.inj he
    have hle := length_entries_append [o] l w
    rw [h, List.singleton_append, hl] at hle
    exact absurd hle (by decide)

theorem early_concat {pre : List Op} {w : Str} (h : Early pre w) (op : Op) : Early (pre ++ [op]) w := by
  obtain ⟨l, fills, r, rfl, hl⟩ := h
  exact ⟨l, fills, r ++ [op], by simp, hl⟩

section

variable {prg : PrfType → PrfType} {pre : List Op} {rt : State} {w : Str}

theorem marked_handed {f : Int32} (hf : 0 < f) : Marked (seed true (keyBuf w) 0 0 f) :=
  (marked_seed _ _ _ _ _).2 fun h => by
    rw [h.2] at hf
    exact absurd hf (by decide)

/-- What stands at the addresses of the updates is all that a moved search counter speaks of. -/
theorem Far.shadow_congr (h : Far prg pre rt w) {d : PrfType → PrfType}
    (hd : SameAt prg (entries pre w).length w rt.dictW d) {f : Int32} (hf : 0 < f)
    (hne : (rt.srcCnt (seed true (keyBuf w) 0 0 f)).getD 0 ≠ 0) :
    f.toInt ≤ (entries pre w).length ∧ ∀ i ∈ counters f, d (prg (seed true (keyBuf w) 0 0 i)) = notfound := by
  obtain ⟨h1, h2⟩ := h.shadow f hf hne
  refine ⟨h1, fun i hi => ?_⟩
  rw [← h2 i hi]
  obtain ⟨j, hj, rfl⟩ := List.mem_map.1 hi
  have hj' := List.mem_range.1 hj
  exact hd (j + 1) (by omega) (by omega)

theorem Far.other {rt' : State} {op : Op} (h : Far prg pre rt w) (ha : SameCounters w rt rt')
    (hd : SameAt prg (entries pre w).length w rt.dictW rt'.dictW) (hop : op.keyword ≠ w) :
    Far prg (pre ++ [op]) rt' w := by
  have hown := own_keyBuf true w
  refine ⟨?_, fun f hf hne => ?_⟩
  · rw [entries_other pre hop, (ha _ hown).1]
    rcases h.counted with hc | ⟨h0, hcnt, hearly⟩
    · refine Or.inl ⟨by rw [(ha _ hown).1]; exact hc.cnt, ?_⟩
      rw [← hc.src, srcOf, srcOf, (ha _ hown).2]
    · exact Or.inr ⟨h0, hcnt, early_concat hearly op⟩
  · rw [(ha _ (hown.seed _ _ _)).2] at hne
    rw [entries_other pre hop]
    exact h.shadow_congr hd hf hne

/-- The counters agree at an update, which no early search has preceded. -/
theorem Far.update (hw : Short w) (h : Far prg pre rt w) (hearly : ¬ Early pre w) (op : OP) (ind : Int32) (fill : Fill)
    (hd : SameAt prg (entries pre w).length w rt.dictW (update prg true rt op w ind fill).dictW) :
    Far prg (pre ++ [.update op w ind fill]) (update prg true rt op w ind fill) w := by
  have hc := h.counted.resolve_right fun hr => hearly hr.2.2
  have h11 : w.length ≤ 11 := by have := hw.fits; omega
  have hlen : (entries (pre ++ [.update op w ind fill]) w).length = (entries pre w).length + 1 := by
    rw [entries_update, if_pos rfl, List.length_append, List.length_singleton]
  refine ⟨Or.inl (by rw [hlen]; exact hc.update op ind fill), fun f hf hne => ?_⟩
  have hsrc : (Mitra.update prg true rt op w ind fill).srcCnt (seed true (keyBuf w) 0 0 f) =
      rt.srcCnt (seed true (keyBuf w) 0 0 f) := by
    simp only [update_eq, if_true]
    exact Function.update_of_ne ((marked_handed hf).ne_keyBuf h11) _ _
  rw [hsrc] at hne
  obtain ⟨h1, h2⟩ := h.shadow_congr hd hf hne
  rw [hlen]
  exact ⟨by omega, h2⟩

/-- The reply to a handed-over buffer whose search counter has moved is empty. -/
theorem Far.reply (h : Far prg pre rt w) {c : Int32} (hc : 0 < c) :
    (rt.srcCnt (seed true (keyBuf w) 0 0 c)).getD 0 = 0 ∨
      serverSearch rt.dictW (addrLoop prg true 0 (keyBuf w) (counters c)).2 = [] := by
  by_cases h0 : (rt.srcCnt (seed true (keyBuf w) 0 0 c)).getD 0 = 0
  · exact Or.inl h0
  · refine Or.inr ?_
    obtain ⟨-, h2⟩ := h.shadow c hc h0
    rw [serverSearch, addrLoop_snd, List.map_map, List.filter_eq_nil_iff]
    intro a ha
    obtain ⟨i, hi, rfl⟩ := List.mem_map.1 ha
    simpa using h2 i hi

theorem decodeLoop_fst {df : Bool} (s c : Int32) (k : PrfType) (m : SortedMap Int32 Int32) {cs : List PrfType}
    (h : cs ≠ []) : ∃ f, (decodeLoop prg df s k c m cs).1 = seed df k 1 s f := by
  induction cs generalizing k c m with
  | nil => exact absurd rfl h
  | cons x cs ih =>
    simp only [decodeLoop, getAESRandomValue]
    by_cases hcs : cs = []
    · rw [hcs]
      exact ⟨c, rfl⟩
    · obtain ⟨f, hf⟩ := ih (c + 1) (seed df k 1 s c)
        (m.alter (readInt (bitwiseXOR (prg (seed df k 1 s c)) x).data) 0
          (· + (2 * Int32.ofNat ((bitwiseXOR (prg (seed df k 1 s c)) x).data.getD 4 0).toNat - 1))) hcs
      exact ⟨f, by rw [hf, seed_seed]⟩

/-- **A search of a keyword with entries** does what `Client::search` does, and moves the search
counter at the buffer of its query only. -/
theorem Far.search_spec (hinj : Set.InjOn prg (addrSeeds pre)) (hw : w.length ≤ 11) (h : Far prg pre rt w)
    (hc : Counted true rt w (entries pre w).length) (h0 : entries pre w ≠ []) (hn : (entries pre w).length < 2 ^ 32)
    {c : Int32} (hcnt : c = Int32.ofNat (entries pre w).length) (hpos : 0 < c) (hmax : c ≠ Int32.maxValue)
    (fills : Nat → Fill)
    {q : PrfType × SortedMap Int32 Int32} (hq : query prg true rt.dictW 0 (keyBuf w) c = q) :
    (runnerSearch prg true rt w fills).2 = some (q.2.keysWhere (· < 0)) ∧
      (runnerSearch prg true rt w fills).1.dictW =
        (cleanLoop prg true 1 q.1 0 fills rt.dictW (q.2.keysWhere (· < 0))).2.2 ∧
      Counted true (runnerSearch prg true rt w fills).1 w (entries pre w).length ∧
      ∀ j, j ≠ q.1 → ((runnerSearch prg true rt w fills).1.srcCnt j).getD 0 = (rt.srcCnt j).getD 0 := by
  have hok : ¬ (c < 0 ∨ c = Int32.maxValue) := not_or.2 ⟨Int32.not_lt.2 (Int32.le_of_lt hpos), hmax⟩
  have hfile : rt.fileCnt (keyBuf w) = some c := by
    rw [hc.cnt, if_neg (by simpa using h0), hcnt]
  have hbuf : (addrLoop prg true 0 (keyBuf w) (counters c)).1 = seed true (keyBuf w) 0 0 c :=
    addrLoop_counters 0 (keyBuf w) hpos
  have htouch : ∀ j, ((touchSrcCnt true rt (keyBuf w)).srcCnt j).getD 0 = (rt.srcCnt j).getD 0 := by
    intro j
    simp only [touchSrcCnt, if_true]
    rw [Function.update_apply]
    split_ifs with he
    · rw [he, Option.getD_some]
    · rfl
  have hm : Marked q.1 := hq ▸ marked_query _ _ _ hpos
  have hread := h.reply hpos
  rw [← hbuf, ← htouch] at hread
  have hdec : decodeLoop prg true 0 (addrLoop prg true 0 (keyBuf w) (counters c)).1 1 SortedMap.empty
      (serverSearch rt.dictW (addrLoop prg true 0 (keyBuf w) (counters c)).2) = q := hq
  have hlen : (q.2.keysWhere (· < 0)).length ≤ (entries pre w).length := by
    rw [← hq, hcnt]
    exact length_query_le _ _ _ _
  have hseed : seed true q.1 = seed true (keyBuf w) := hq ▸ seed_query rt.dictW 0 (keyBuf w) c
  have hspec := searchProcess_spec hinj (touchSrcCnt true rt (keyBuf w)) _ _ fills hread hdec (by omega)
    fun i h1 h2 => ⟨w, 1, i, Or.inr rfl, h1, by omega, by rw [hseed]⟩
  have hsearch := @runnerSearch_some prg rt w c hfile hok fills
  simp only [hc.src] at hsearch
  generalize hp : searchProcess prg true (touchSrcCnt true rt (keyBuf w))
    (serverSearch rt.dictW (addrLoop prg true 0 (keyBuf w) (counters c)).2)
    (addrLoop prg true 0 (keyBuf w) (counters c)).1 fills = p at hspec hsearch
  obtain ⟨h1, h2, h3, h4⟩ := hspec
  rw [hsearch]
  have hfile' : p.1.fileCnt (keyBuf w) = rt.fileCnt (keyBuf w) := by
    rw [h2]
    exact Function.update_of_ne ((marked_cleanLoop _ _ hm _ _ _).ne_keyBuf hw).symm _ _
  have hsrc : ∀ j, j ≠ q.1 → (p.1.srcCnt j).getD 0 = (rt.srcCnt j).getD 0 := fun j hj => (h4 j hj).trans (htouch j)
  refine ⟨congrArg some h1, h3, ⟨hfile'.trans hc.cnt, ?_⟩, hsrc⟩
  rw [← hc.src]
  exact hsrc _ (hm.ne_keyBuf hw).symm

theorem Far.search (hinj : Set.InjOn prg (addrSeeds pre)) (hw : Short w) (h : Far prg pre rt w)
    (hn : (entries pre w).length < 2 ^ 32) (fills : Nat → Fill)
    (hd : SameAt prg (entries pre w).length w rt.dictW (runnerSearch prg true rt w fills).1.dictW) :
    Far prg (pre ++ [.search w fills]) (runnerSearch prg true rt w fills).1 w := by
  have h11 : w.length ≤ 11 := by have := hw.fits; omega
  have hsame : entries (pre ++ [.search w fills]) w = entries pre w := entries_search pre w w fills
  by_cases h0 : entries pre w = []
  · -- the early search: the keyword's own counters are created, the others stay
    have hnone : rt.fileCnt (keyBuf w) = none ∨ rt.fileCnt (keyBuf w) = some 0 := by
      rcases h.counted with hc | ⟨-, hz, -⟩
      · rw [hc.cnt, h0]
        exact Or.inl rfl
      · exact Or.inr hz
    obtain ⟨s, hs⟩ := @runnerSearch_empty prg rt w hnone fills
    rw [hs]
    refine ⟨Or.inr ⟨hsame.trans h0, Function.update_self _ _ _, pre, fills, [], rfl, h0⟩, fun f hf hne => ?_⟩
    simp only [Function.update_of_ne ((marked_handed hf).ne_keyBuf h11)] at hne
    rw [hsame]
    exact h.shadow f hf hne
  · have hc := h.counted.resolve_right fun hr => h0 hr.1
    have hfile : rt.fileCnt (keyBuf w) = some (Int32.ofNat (entries pre w).length) := by
      rw [hc.cnt, if_neg (by simpa using h0)]
    by_cases hbad : Int32.ofNat (entries pre w).length < 0 ∨ Int32.ofNat (entries pre w).length = Int32.maxValue
    · rw [runnerSearch_bad hfile hbad]
      refine ⟨Or.inl ⟨by rw [hsame]; exact hc.cnt, by rw [srcOf_touchSrcCnt]; exact hc.src⟩, fun f hf hne => ?_⟩
      simp only [touchSrcCnt, if_true, Function.update_of_ne ((marked_handed hf).ne_keyBuf h11)] at hne
      rw [hsame]
      exact h.shadow f hf hne
    · have hlen0 : (entries pre w).length ≠ 0 := by simpa using h0
      have hpos := pos_of_counted hlen0 hn fun hneg => hbad (Or.inl hneg)
      obtain ⟨-, -, hcnt, hsrc⟩ := h.search_spec hinj h11 hc h0 hn rfl hpos (fun hm => hbad (Or.inr hm)) fills rfl
      refine ⟨Or.inl (by rw [hsame]; exact hcnt), fun f hf hne => ?_⟩
      rw [hsame]
      by_cases hbuf : seed true (keyBuf w) 0 0 f =
          (query prg true rt.dictW 0 (keyBuf w) (Int32.ofNat (entries pre w).length)).1
      · by_cases hreply : serverSearch rt.dictW
            (addrLoop prg true 0 (keyBuf w) (counters (Int32.ofNat (entries pre w).length))).2 = []
        · -- nothing was decoded, so the query ends in the buffer it was handed
          have hlast : (query prg true rt.dictW 0 (keyBuf w) (Int32.ofNat (entries pre w).length)).1 =
              seed true (keyBuf w) 0 0 (Int32.ofNat (entries pre w).length) := by
            unfold query
            simp only
            rw [hreply]
            exact addrLoop_counters 0 (keyBuf w) hpos
          rw [hlast] at hbuf
          obtain rfl : f = Int32.ofNat (entries pre w).length := (seed_inj hbuf).2.2
          have hle := toNat_toInt_ofNat_le (entries pre w).length
          refine ⟨by omega, fun i hi => ?_⟩
          rw [serverSearch, addrLoop_snd, List.map_map, List.filter_eq_nil_iff] at hreply
          have hread := hreply _ (List.mem_map_of_mem hi)
          obtain ⟨j, hj, rfl⟩ := List.mem_map.1 hi
          have hj' := List.mem_range.1 hj
          rw [hd (j + 1) (by omega) (by omega)]
          simpa using hread
        · exfalso
          obtain ⟨f', hf'⟩ := @decodeLoop_fst prg true 0 1
            (addrLoop prg true 0 (keyBuf w) (counters (Int32.ofNat (entries pre w).length))).1 SortedMap.empty _ hreply
          have hop := (seed_inj (hbuf.trans hf')).2.1
          exact absurd hop (by decide)
      · rw [hsrc _ hbuf] at hne
        exact h.shadow_congr hd hf hne

/-! ## The two searches side by side -/

/-- The local search of a keyword with entries, in terms of its query. -/
theorem search_some {st : State} {c : Int32} (h : st.fileCnt (keyBuf w) = some c) (hsrc : srcOf true st w = 0)
    (hok : ¬ (c < 0 ∨ c = Int32.maxValue)) (fills : Nat → Fill) {q : PrfType × SortedMap Int32 Int32}
    (hq : query prg true st.dictW 0 (keyBuf w) c = q) :
    (Mitra.search prg true st w fills).2 = some (q.2.keysWhere (· < 0)) ∧
      (Mitra.search prg true st w fills).1.dictW =
        (cleanLoop prg true 1 q.1 0 fills st.dictW (q.2.keysWhere (· < 0))).2.2 := by
  have h0 : (st.srcCnt (keyBuf w)).getD 0 = 0 := hsrc
  unfold Mitra.search
  simp only [h, if_neg hok, h0, if_true]
  rw [show (touchSrcCnt true st (keyBuf w)).dictW = st.dictW from rfl, hq]
  exact ⟨rfl, rfl⟩

theorem search_agrees (hinj : Set.InjOn prg (addrSeeds pre)) (hw : w.length ≤ 11) {st : State}
    (hst : Counted true st w (entries pre w).length) (h : Far prg pre rt w) (hd : rt.dictW = st.dictW)
    (hn : (entries pre w).length < 2 ^ 32) (fills : Nat → Fill) :
    (runnerSearch prg true rt w fills).2 = (Mitra.search prg true st w fills).2 ∧
      (runnerSearch prg true rt w fills).1.dictW = (Mitra.search prg true st w fills).1.dictW := by
  by_cases h0 : entries pre w = []
  · have hnone : rt.fileCnt (keyBuf w) = none ∨ rt.fileCnt (keyBuf w) = some 0 := by
      rcases h.counted with hc | ⟨-, hz, -⟩
      · rw [hc.cnt, h0]
        exact Or.inl rfl
      · exact Or.inr hz
    obtain ⟨s, hs⟩ := @runnerSearch_empty prg rt w hnone fills
    have hlocal : Mitra.search prg true st w fills = (st, some []) := by
      have hcnt := hst.cnt
      rw [h0, List.length_nil, if_pos rfl] at hcnt
      unfold Mitra.search
      simp only [hcnt]
    rw [hs, hlocal]
    exact ⟨rfl, hd⟩
  · have hc := h.counted.resolve_right fun hr => h0 hr.1
    have hlen0 : (entries pre w).length ≠ 0 := by simpa using h0
    have hfile : rt.fileCnt (keyBuf w) = some (Int32.ofNat (entries pre w).length) := by rw [hc.cnt, if_neg hlen0]
    have hfile' : st.fileCnt (keyBuf w) = some (Int32.ofNat (entries pre w).length) := by rw [hst.cnt, if_neg hlen0]
    by_cases hbad : Int32.ofNat (entries pre w).length < 0 ∨ Int32.ofNat (entries pre w).length = Int32.maxValue
    · have hlocal : Mitra.search prg true st w fills = (touchSrcCnt true st (keyBuf w), none) := by
        unfold Mitra.search
        simp only [hfile', if_pos hbad]
      rw [runnerSearch_bad hfile hbad, hlocal]
      exact ⟨rfl, hd⟩
    · have hpos := pos_of_counted hlen0 hn fun hneg => hbad (Or.inl hneg)
      obtain ⟨h1, h2, -, -⟩ := h.search_spec hinj hw hc h0 hn rfl hpos (fun hm => hbad (Or.inr hm)) fills rfl
      obtain ⟨h3, h4⟩ := @search_some prg w st _ hfile' hst.src hbad fills _ rfl
      rw [h1, h2, h3, h4, hd]
      exact ⟨rfl, rfl⟩

/-- **The two modes in step**: the servers hold the same, and the runner keeps what it needs. -/
theorem far_after {ops : List Op} (hinj : Set.InjOn prg (addrSeeds ops)) (hk : ∀ op ∈ ops, Short op.keyword)
    (hn : ∀ w, (entries ops w).length < 2 ^ 32) (hprompt : Runs.Each Prompt [] ops) :
    (runnerAfter prg true (reliable ops)).dictW = (after prg true ops).dictW ∧
      ∀ w, Short w → Far prg ops (runnerAfter prg true (reliable ops)) w := by
  induction ops using List.reverseRecOn with
  | nil =>
    refine ⟨rfl, fun w _ => ⟨Or.inl ⟨rfl, rfl⟩, fun f _ hne => ?_⟩⟩
    exact absurd rfl hne
  | append_singleton ops o ih =>
    have hpre : ∀ w, (entries ops w).length < 2 ^ 32 := by
      intro w
      exact lt_of_le_of_lt (length_entries_append ops [o] w) (hn w)
    have hkpre : ∀ op ∈ ops, Short op.keyword := fun op hop => hk op (List.mem_append_left _ hop)
    have hko := hk o (by simp)
    have hinj' := hinj.mono (addrSeeds_mono ops [o])
    have hkeep := fun w (hw : Short w) => sameAt_step hinj hk hn hw
    rw [Runs.each_concat, List.nil_append] at hprompt
    obtain ⟨hd, hfar⟩ := ih hinj' hkpre hpre hprompt.1
    have hst := @counted_after prg true ops hkpre (fun _ => hpre) o.keyword hko
    have ho := hfar o.keyword hko
    rw [reliable, List.map_append, List.map_singleton, ← reliable, runnerAfter_concat]
    -- the server: both clients wrote the same
    have hdict : (runnerStep prg true (runnerAfter prg true (reliable ops)) (true, o)).1.dictW =
        (after prg true (ops ++ [o])).dictW := by
      rw [after_concat]
      cases o with
      | search w fills =>
        have h11 : (Op.search w fills).keyword.length ≤ 11 := by have := hko.fits; omega
        exact (search_agrees hinj' h11 hst ho hd (hpre w) fills).2
      | update op w ind fill =>
        have hc := ho.counted.resolve_right fun hr => hprompt.2 hr.2.2
        have h1 : nextFileCnt ((runnerAfter prg true (reliable ops)).fileCnt (keyBuf w)) = _ := hc.nextCnt
        have h2 : nextFileCnt ((after prg true ops).fileCnt (keyBuf w)) = _ := hst.nextCnt
        have h3 : ((runnerAfter prg true (reliable ops)).srcCnt (keyBuf w)).getD 0 = 0 := hc.src
        have h4 : ((after prg true ops).srcCnt (keyBuf w)).getD 0 = 0 := hst.src
        simp only [runnerStep, runnerUpdate_true, step, update_eq, h1, h2, h3, h4, hd]
    refine ⟨hdict, fun w hw => ?_⟩
    -- the client: what it keeps about `w`
    have hsame := hkeep w hw
    rw [← hd, ← hdict] at hsame
    by_cases he : o.keyword = w
    · subst he
      cases o with
      | search w fills => exact ho.search hinj' hko (hpre w) fills hsame
      | update op w ind fill => exact ho.update hko hprompt.2 op ind fill hsame
    · exact (hfar w hw).other (runnerStep_counters _ (hw.padTo_ne hko (Ne.symm he) true)) hsame he

end

/-! ## Remote and local mode -/

theorem runnerAfter_keeping (prg : PrfType → PrfType) (ops : List Op) :
    runnerAfter prg false (reliable ops) = after prg false ops := by
  induction ops using List.reverseRecOn with
  | nil => rfl
  | append_singleton ops o ih =>
    rw [reliable, List.map_append, List.map_singleton, ← reliable, runnerAfter_concat, after_concat, ih]
    cases o with
    | update op w ind fill => rfl
    | search w fills => exact congrArg Prod.fst (runnerSearch_keeping _ w fills)

/-- Up to `2 ^ 31 - 2` updates the local search gives a list. -/
theorem search_isSome {prg : PrfType → PrfType} {df : Bool} {st : State} {w : Str} {n : Nat} (h : Counted df st w n)
    (hn : n ≤ 2 ^ 31 - 2) (fills : Nat → Fill) : ∃ l, (search prg df st w fills).2 = some l := by
  have hint := toInt_ofNat_small (show n < 2 ^ 31 by omega)
  have hok : ¬ (Int32.ofNat n < 0 ∨ Int32.ofNat n = Int32.maxValue) := by
    rw [Int32.lt_iff_toInt_lt, ← Int32.toInt_inj, hint]
    have h0 : (0 : Int32).toInt = 0 := rfl
    have hmax : Int32.maxValue.toInt = 2147483647 := rfl
    omega
  unfold search
  simp only [h.cnt]
  by_cases h0 : n = 0
  · exact ⟨[], by simp only [if_pos h0]⟩
  · simp only [if_neg h0, if_neg hok]
    exact ⟨_, rfl⟩

/-- **Remote mode agrees with local mode** over a reliable channel, for a keyword with at most `2 ^ 31 - 2`
updates, when cleaning is off, or when no keyword is updated after a search that came before its first
update and no two addresses of the run collide (and `FileCnt` does not wrap). -/
theorem remote_agrees (prg : PrfType → PrfType) (deleteFiles : Bool) (ops : List Op)
    (hk : ∀ op ∈ ops, Short op.keyword)
    (hok : deleteFiles = true → (∀ w, (entries ops w).length < 2 ^ 32) ∧ Runs.Each Prompt [] ops ∧
      Set.InjOn prg (addrSeeds ops))
    (w : Str) (hw : Short w) (hn : (entries ops w).length ≤ 2 ^ 31 - 2) (fills : Nat → Fill) :
    ∃ l, (runnerSearch prg deleteFiles (runnerAfter prg deleteFiles (reliable ops)) w fills).2 = some l ∧
      (search prg deleteFiles (after prg deleteFiles ops) w fills).2 = some l := by
  have hcnt := @counted_after prg deleteFiles ops hk (fun hd => (hok hd).1) w hw
  obtain ⟨l, hl⟩ := @search_isSome prg _ _ _ _ hcnt hn fills
  refine ⟨l, ?_, hl⟩
  rw [← hl]
  cases deleteFiles with
  | false => rw [runnerAfter_keeping, runnerSearch_keeping]
  | true =>
    obtain ⟨hn', hprompt, hinj⟩ := hok rfl
    obtain ⟨hd, hfar⟩ := far_after hinj hk hn' hprompt
    exact (search_agrees hinj (by have := hw.fits; omega) hcnt (hfar w hw) hd (hn' w) fills).1

/-- Updates and searches of the keywords `a` and `b`, with cleaning, the searches of `a` after its first
update. -/
theorem remote_agrees_a :
    let ops : List Op := [.update .INS [97] 5 0, .search [97] 0, .update .INS [98] 5 0, .update .INS [97] 6 0,
      .search [97] 0, .search [98] 0, .update .DEL [97] 5 0]
    ∃ l, (runnerSearch id true (runnerAfter id true (reliable ops)) [97] 0).2 = some l ∧
      (search id true (after id true ops) [97] 0).2 = some l := by
  intro ops
  have hall : ops.all (fun op => decide (Short op.keyword)) = true := by decide
  have hlen : ∀ w, (entries ops w).length ≤ 7 := length_entries_le ops
  refine remote_agrees id true ops (by simpa using hall) (fun _ => ⟨fun w => ?_, ?_, ?_⟩) [97] (by decide) ?_ 0
  · exact lt_of_le_of_lt (hlen w) (by decide)
  · -- `a` is updated first, and `b` is not searched before its update
    have ha : ∀ op pre, ¬ Early (.update .INS [97] 5 0 :: op :: pre) [97] :=
      fun op pre => not_early_of_updated (by decide)
    have hb : ¬ Early [.update .INS [97] 5 0, .search [97] 0] [98] := not_early_of_not_searched (by simp)
    exact ⟨not_early_of_not_searched (by simp), trivial, hb, ha _ _, trivial, trivial, ha _ _, trivial⟩
  · exact Function.injective_id.injOn
  · exact le_trans (hlen _) (by decide)

/-- A `Prg` that turns its block by `n` bytes. -/
def turn (n : Nat) (k : PrfType) : PrfType := ⟨k.data.rotate n, by rw [List.length_rotate, k.size]⟩

theorem turn_injective (n : Nat) : Function.Injective (turn n) := by
  intro a b h
  exact PrfType.ext_data (List.rotate_injective n (congrArg PrfType.data h))

/-- The keyword `a` is searched, then updated and searched again: the runner decodes the entry, stored
under search counter 1, with the pad of search counter 0. -/
theorem remote_differs :
    ¬ ∀ (prg : PrfType → PrfType), Function.Injective prg → ∀ (deleteFiles : Bool) (ops : List Op),
      (∀ op ∈ ops, Short op.keyword ∧ op.keyword ≠ []) → ∀ w, Short w → w ≠ [] → ∀ fills,
      (runnerSearch prg deleteFiles (runnerAfter prg deleteFiles (reliable ops)) w fills).2 =
        (search prg deleteFiles (after prg deleteFiles ops) w fills).2 := by
  intro h
  have hsame := h (turn 7) (turn_injective 7) true [.search [97] 0, .update .INS [97] 5 0] (by
    intro op hop
    simp only [List.mem_cons, List.not_mem_nil, or_false] at hop
    rcases hop with rfl | rfl <;> decide) [97] (by decide) (by decide) 0
  exact absurd hsame (by decide)

end Sse.Mitra
