import Sse.Fides.Client

/-!
# Sophos

The client and the server under Fides.  Update number `i` of a keyword is stored under the
token of its search token, the start of the keyword's chain inverted `i` times; a search
hands out the last search token, and the server goes back with the public key.

What they hold is for every keyword the list of its payloads by counter, with holes where
a search has removed entries (`Stores`).  An update appends a payload, a search walks the
whole list backwards and skips the holes, and with `deleteItems` it leaves only holes.

    search w = the payloads of w that no search has removed, last first      (sophos_search_exact)
-/

namespace Sse.Fides

section

variable {B ST : Type} (S : Setting B ST)

/-- The search token of update number `i`. -/
def chain (w : Str) (i : Nat) : ST := S.invertMult (S.generateArray (S.getKeywordIndex w)) (UInt32.ofNat i)

/-- The update token of update number `i`. -/
def token (w : Str) (i : Nat) : B := (S.genUpdateTokenMasks (S.derivationPrf (S.getKeywordIndex w)) (chain S w i)).1

def mask (w : Str) (i : Nat) : B := (S.genUpdateTokenMasks (S.derivationPrf (S.getKeywordIndex w)) (chain S w i)).2

/-- What `SophosClient` and `SophosServer` rely on: the public key undoes the trapdoor step by step, and the
tokens of the updates of the keywords in `W` differ. -/
structure Chained (W : Str → Prop) : Prop where
  invertMult_zero : ∀ st, S.invertMult st 0 = st
  eval_invertMult : ∀ st i, i + 1 < 2 ^ 32 →
    S.eval (S.invertMult st (UInt32.ofNat (i + 1))) = S.invertMult st (UInt32.ofNat i)
  token_inj : ∀ w w' i i', W w → W w' → i < 2 ^ 32 → i' < 2 ^ 32 → token S w i = token S w' i' → w = w' ∧ i = i'

end

section

variable {B ST : Type} {S : Setting B ST} {W : Str → Prop}

/-! ## The walk of the server -/

variable [XorOp B] [DecidableEq B]

/-- **The walk** meets the tokens of the last `n` counters downwards; with deletion it leaves
none of their entries. -/
theorem searchLoop_eq (hS : Chained S W) {w : Str} (hw : W w) (deleteItems : Bool) {n : Nat} (hn : n ≤ 2 ^ 32)
    {st : ST} (hst : n ≠ 0 → st = chain S w (n - 1)) (edb : Edb B) :
    searchLoop S deleteItems (S.derivationPrf (S.getKeywordIndex w)) n st edb =
      (fun t => if deleteItems = true ∧ ∃ i < n, t = token S w i then none else edb t,
        (List.range n).reverse.filterMap fun i => (edb (token S w i)).map (· ^^^ mask S w i)) := by
  induction n generalizing st edb with
  | zero => simp [searchLoop]
  | succ n ih =>
    have hst' : st = chain S w n := hst (by omega)
    have heval : n ≠ 0 → S.eval st = chain S w (n - 1) := by
      intro h0
      obtain ⟨m, rfl⟩ := Nat.exists_eq_succ_of_ne_zero h0
      rw [hst']
      exact hS.eval_invertMult _ m (by omega)
    have hpair : S.genUpdateTokenMasks (S.derivationPrf (S.getKeywordIndex w)) st = (token S w n, mask S w n) := by
      rw [hst']
      rfl
    have hrange : (List.range (n + 1)).reverse = n :: (List.range n).reverse := by
      rw [List.range_succ, List.reverse_append]
      rfl
    have hne : ∀ i < n, token S w i ≠ token S w n := by
      intro i hi e
      have := (hS.token_inj w w i n hw hw (by omega) (by omega) e).2
      omega
    have hiff : ∀ t, t ≠ token S w n → ((∃ i < n + 1, t = token S w i) ↔ ∃ i < n, t = token S w i) := by
      intro t ht
      constructor
      · rintro ⟨i, hi, e⟩
        refine ⟨i, ?_, e⟩
        rcases Nat.lt_succ_iff_lt_or_eq.1 hi with hlt | rfl
        · exact hlt
        · exact absurd e ht
      · rintro ⟨i, hi, e⟩
        exact ⟨i, by omega, e⟩
    rw [searchLoop, hpair, hrange, List.filterMap_cons]
    cases hget : edb (token S w n) with
    | none =>
      simp only [hget, Option.map_none]
      rw [ih (by omega) heval]
      refine Prod.ext ?_ rfl
      funext t
      show (if _ then none else edb t) = if _ then none else edb t
      -- the token of this round has no entry, so it makes no difference
      by_cases ht : t = token S w n
      · rw [ht, hget, ite_self, ite_self]
      · simp only [hiff t ht]
    | some r =>
      simp only [hget, Option.map_some]
      rw [ih (by omega) heval]
      refine Prod.ext ?_ ?_
      · funext t
        show (if _ then none else _) = if _ then none else edb t
        by_cases ht : t = token S w n
        · subst ht
          cases deleteItems with
          | false => simp
          | true =>
            have hmem : ∃ i < n + 1, token S w n = token S w i := ⟨n, by omega, rfl⟩
            rw [if_pos (show true = true ∧ _ from ⟨rfl, hmem⟩), if_pos rfl, Function.update_self, ite_self]
        · simp only [hiff t ht]
          split
          · rfl
          · split
            · rw [Function.update_of_ne ht]
            · rfl
      · show (r ^^^ mask S w n) :: _ = (r ^^^ mask S w n) :: _
        congr 1
        apply List.filterMap_congr
        intro i hi
        have hin : i < n := by simpa using hi
        split
        · rw [Function.update_of_ne (hne i hin)]
        · rfl

/-! ## What client and server hold -/

/-- The payloads of every keyword by counter; `none` where a search has removed the entry. -/
structure Stores (S : Setting B ST) (W : Str → Prop) (st : State B) (pay : Str → List (Option B)) : Prop where
  small : ∀ w, (pay w).length < 2 ^ 32
  cnt : ∀ w, st.ramCounter w = if pay w = [] then none else some (UInt32.ofNat ((pay w).length - 1))
  entry : ∀ w i, W w → i < 2 ^ 32 → st.edb (token S w i) = ((pay w)[i]?.bind id).map (· ^^^ mask S w i)

omit [DecidableEq B] in
theorem stores_init : Stores S W (init B) fun _ => [] where
  small := by simp
  cnt := by simp [init]
  entry := by simp [init]

variable {st : State B} {pay : Str → List (Option B)} {w : Str}

omit [DecidableEq B] in
theorem Stores.nextCnt_eq (h : Stores S W st pay) (w : Str) :
    nextCnt (st.ramCounter w) = UInt32.ofNat (pay w).length := by
  rw [h.cnt]
  by_cases hp : pay w = []
  · simp [hp, nextCnt]
  · have hpos := List.length_pos_of_ne_nil hp
    rw [if_neg hp]
    show UInt32.ofNat ((pay w).length - 1) + UInt32.ofNat 1 = _
    rw [← UInt32.ofNat_add, Nat.sub_add_cancel hpos]

omit [DecidableEq B] in
theorem Stores.toNat_length (h : Stores S W st pay) (w : Str) :
    (UInt32.ofNat (pay w).length).toNat = (pay w).length := by
  rw [UInt32.toNat_ofNat', Nat.mod_eq_of_lt (h.small w)]

omit [DecidableEq B] in
/-- The request for the next update of a keyword. -/
theorem Stores.updateRequest (h : Stores S W st pay) (hS : Chained S W) (w : Str) (x : B) :
    updateRequest S st.ramCounter w x =
      (Function.update st.ramCounter w (some (UInt32.ofNat (pay w).length)),
        ⟨token S w (pay w).length, x ^^^ mask S w (pay w).length⟩) := by
  unfold Fides.updateRequest
  simp only [h.nextCnt_eq]
  have hst : (if UInt32.ofNat (pay w).length = 0 then S.generateArray (S.getKeywordIndex w)
      else S.invertMult (S.generateArray (S.getKeywordIndex w)) (UInt32.ofNat (pay w).length)) =
        chain S w (pay w).length := by
    unfold chain
    split
    · next e => rw [e, hS.invertMult_zero]
    · rfl
  rw [hst]
  rfl

/-- `SophosClient::update_request` and `SophosServer::update` with its request. -/
def store (S : Setting B ST) (st : State B) (w : Str) (x : B) : State B :=
  let (ramCounter, req) := updateRequest S st.ramCounter w x
  ⟨ramCounter, update S.usehdd st.edb req⟩

/-- **An update** is appended to the payloads of its keyword. -/
theorem Stores.update (h : Stores S W st pay) (hS : Chained S W) (hw : W w) (hlen : (pay w).length + 1 < 2 ^ 32)
    (x : B) : Stores S W (store S st w x) (Function.update pay w (pay w ++ [some x])) := by
  set n := (pay w).length with hn
  have hfree : st.edb (token S w n) = none := by
    rw [h.entry w n hw (by omega), List.getElem?_eq_none (by omega)]
    rfl
  have hst : store S st w x = ⟨Function.update st.ramCounter w (some (UInt32.ofNat n)),
      Function.update st.edb (token S w n) (some (x ^^^ mask S w n))⟩ := by
    unfold store
    simp only [h.updateRequest hS, ← hn, Fides.update]
    rw [serverUpdate_eq, if_pos (Or.inr hfree)]
  rw [hst]
  refine ⟨fun w' => ?_, fun w' => ?_, fun w' i hw' hi => ?_⟩
  · by_cases hww : w' = w
    · rw [hww, Function.update_self, List.length_append, List.length_singleton]
      omega
    · rw [Function.update_of_ne hww]
      exact h.small w'
  · by_cases hww : w' = w
    · subst hww
      simp [← hn]
    · simp only [Function.update_of_ne hww]
      exact h.cnt w'
  · simp only
    by_cases hww : w' = w
    · subst hww
      rw [Function.update_self]
      by_cases hin : i = n
      · subst hin
        rw [Function.update_self, hn, List.getElem?_concat_length]
        rfl
      · have hne : token S w' i ≠ token S w' n := fun e => hin (hS.token_inj w' w' i n hw hw hi (by omega) e).2
        rw [Function.update_of_ne hne, h.entry w' i hw hi]
        rcases Nat.lt_or_gt_of_ne hin with hlt | hgt
        · rw [List.getElem?_append_left hlt]
        · rw [List.getElem?_eq_none (by omega), List.getElem?_eq_none (by simp; omega)]
    · have hne : token S w' i ≠ token S w n := fun e => hww (hS.token_inj w' w i n hw' hw hi (by omega) e).1
      rw [Function.update_of_ne hne, Function.update_of_ne hww]
      exact h.entry w' i hw' hi

theorem filterMap_range_bind {T : Type} (l : List (Option T)) :
    ((List.range l.length).filterMap fun i => l[i]?.bind id) = l.filterMap id := by
  rw [← List.filterMap_filterMap, filterMap_range_getElem?]

/-- **A search** answers with the payloads that are left, last first; with deletion no entry of the keyword
is left. -/
theorem Stores.serverSearch [LawfulXor B] (h : Stores S W st pay) (hS : Chained S W) (hw : W w)
    (deleteItems : Bool) :
    Fides.serverSearch S deleteItems st.edb (searchRequest S st.ramCounter w) =
      (fun t => if deleteItems = true ∧ ∃ i < (pay w).length, t = token S w i then none else st.edb t,
        ((pay w).filterMap id).reverse) := by
  have hread : (List.range (pay w).length).reverse.filterMap (fun i =>
      (st.edb (token S w i)).map (· ^^^ mask S w i)) = ((pay w).filterMap id).reverse := by
    rw [List.filterMap_reverse, ← filterMap_range_bind]
    congr 1
    apply List.filterMap_congr
    intro i hi
    rw [h.entry w i hw (lt_trans (List.mem_range.1 hi) (h.small w))]
    cases (pay w)[i]?.bind id with
    | none => rfl
    | some x => simp [LawfulXor.xor_cancel]
  unfold Fides.serverSearch searchRequest
  have hnext := h.nextCnt_eq w
  rw [h.cnt] at hnext ⊢
  by_cases hp : pay w = []
  · simp only [hp, if_true]
    refine Prod.ext ?_ rfl
    funext t
    simp [searchLoop]
  · have hpos := List.length_pos_of_ne_nil hp
    rw [if_neg hp] at hnext
    have hadd : UInt32.ofNat ((pay w).length - 1) + 1 = UInt32.ofNat (pay w).length := hnext
    simp only [if_neg hp]
    rw [hadd, h.toNat_length]
    have hloop := searchLoop_eq hS hw deleteItems (le_of_lt (h.small w)) (fun _ => rfl) st.edb
    rw [hread] at hloop
    exact hloop

/-- The payloads after a search that deletes are all removed. -/
theorem Stores.removed (h : Stores S W st pay) (hS : Chained S W) (hw : W w) {edb : Edb B}
    (hedb : edb = fun t => if ∃ i < (pay w).length, t = token S w i then none else st.edb t) :
    Stores S W { st with edb := edb } (Function.update pay w (List.replicate (pay w).length none)) := by
  have hlen : ∀ w', (Function.update pay w (List.replicate (pay w).length none) w').length = (pay w').length := by
    intro w'
    by_cases hww : w' = w
    · simp [hww]
    · rw [Function.update_of_ne hww]
  refine ⟨fun w' => ?_, fun w' => ?_, fun w' i hw' hi => ?_⟩
  · rw [hlen]
    exact h.small w'
  · have hnil : Function.update pay w (List.replicate (pay w).length none) w' = [] ↔ pay w' = [] := by
      rw [← List.length_eq_zero_iff, hlen, List.length_eq_zero_iff]
    simp only [hnil, hlen]
    exact h.cnt w'
  · simp only [hedb]
    by_cases hww : w' = w
    · subst hww
      rw [Function.update_self]
      by_cases hin : i < (pay w').length
      · rw [if_pos ⟨i, hin, rfl⟩, List.getElem?_replicate, if_pos hin]
        rfl
      · rw [if_neg, h.entry w' i hw hi, List.getElem?_eq_none (by omega), List.getElem?_eq_none (by simp; omega)]
        rintro ⟨j, hj, e⟩
        have := (hS.token_inj w' w' i j hw hw hi (lt_trans hj (h.small w')) e).2
        omega
    · rw [Function.update_of_ne hww, if_neg]
      · exact h.entry w' i hw' hi
      · rintro ⟨j, hj, e⟩
        exact hww (hS.token_inj w' w i j hw' hw hi (lt_trans hj (h.small w)) e).1

/-! ## Runs -/

/-- The calls a client and its server get; a search is told whether to delete. -/
inductive SophosOp (B : Type) where
  | update (keyword : Str) (index : B)
  | search (keyword : Str) (deleteItems : Bool)

def SophosOp.keyword {B : Type} : SophosOp B → Str
  | .update w _ | .search w _ => w

/-- One call, with what a search returns. -/
def sophosStep (S : Setting B ST) (st : State B) : SophosOp B → State B × List B
  | .update w x => (store S st w x, [])
  | .search w deleteItems =>
    let (edb, results) := serverSearch S deleteItems st.edb (searchRequest S st.ramCounter w)
    ({ st with edb := edb }, results)

/-- The state after a sequence of calls. -/
def sophosAfter (S : Setting B ST) (ops : List (SophosOp B)) : State B :=
  ops.foldl (fun st op => (sophosStep S st op).1) (init B)

/-- The updates of `w`, by counter; `none` once a search of `w` has removed the entry. -/
def updatesOf (ops : List (SophosOp B)) (w : Str) : List (Option B) :=
  ops.foldl (fun l op => match op with
    | .update w' x => if w' = w then l ++ [some x] else l
    | .search w' deleteItems => if w' = w ∧ deleteItems = true then l.map fun _ => none else l) []

omit [XorOp B] [DecidableEq B] in
@[simp] theorem updatesOf_concat_update (ops : List (SophosOp B)) (w' : Str) (x : B) :
    updatesOf (ops ++ [.update w' x]) = Function.update (updatesOf ops) w' (updatesOf ops w' ++ [some x]) := by
  funext w
  rw [Function.update_apply]
  unfold updatesOf
  rw [List.foldl_append]
  by_cases hw : w = w'
  · subst hw
    simp
  · simp [hw, Ne.symm hw]

omit [XorOp B] [DecidableEq B] in
@[simp] theorem updatesOf_concat_search (ops : List (SophosOp B)) (w' : Str) (deleteItems : Bool) :
    updatesOf (ops ++ [.search w' deleteItems]) = if deleteItems = true then
      Function.update (updatesOf ops) w' (List.replicate (updatesOf ops w').length none) else updatesOf ops := by
  funext w
  cases deleteItems with
  | false => simp [updatesOf]
  | true =>
    rw [if_pos rfl, Function.update_apply]
    by_cases hw : w = w'
    · subst hw
      simp [updatesOf, List.map_const']
    · simp [updatesOf, hw, Ne.symm hw]

/-- **Every run** keeps the payloads. -/
theorem stores_after [LawfulXor B] {ops : List (SophosOp B)} (hS : Chained S W) (hW : ∀ op ∈ ops, W op.keyword)
    (hb : ∀ w, (updatesOf ops w).length < 2 ^ 32) : Stores S W (sophosAfter S ops) (updatesOf ops) := by
  induction ops using List.reverseRecOn with
  | nil => exact stores_init
  | append_singleton ops op ih =>
    have hafter : sophosAfter S (ops ++ [op]) = (sophosStep S (sophosAfter S ops) op).1 := by
      unfold sophosAfter
      rw [List.foldl_append]
      rfl
    have hop := hW op (by simp)
    have hpre : ∀ op ∈ ops, W op.keyword := fun o ho => hW o (List.mem_append_left _ ho)
    rw [hafter]
    cases op with
    | update w x =>
      rw [updatesOf_concat_update] at hb ⊢
      have hlen : (updatesOf ops w).length + 1 < 2 ^ 32 := by
        have := hb w
        rwa [Function.update_self, List.length_append] at this
      refine (ih hpre fun w' => ?_).update hS hop hlen x
      have := hb w'
      by_cases hw : w' = w
      · rw [hw]
        omega
      · rwa [Function.update_of_ne hw] at this
    | search w deleteItems =>
      have hkeep : ∀ w', (updatesOf (ops ++ [.search w deleteItems]) w').length = (updatesOf ops w').length := by
        intro w'
        rw [updatesOf_concat_search]
        split_ifs
        · by_cases hw : w' = w
          · rw [hw, Function.update_self, List.length_replicate]
          · rw [Function.update_of_ne hw]
        · rfl
      have h := ih hpre fun w' => by rw [← hkeep w']; exact hb w'
      rw [updatesOf_concat_search]
      have hsearch := h.serverSearch hS (show W w from hop) deleteItems
      simp only [sophosStep, hsearch]
      cases deleteItems with
      | false => simpa using h
      | true =>
        rw [if_pos rfl]
        exact h.removed hS (show W w from hop) (by simp)

/-- **A search is exact** after every run of updates and searches: it returns the payloads of `w` that no
earlier search of `w` has removed, the last first.  A search that deletes takes out the entries of `w`, and a
search never touches another; the entries are, for every keyword, those of the payloads that are left. -/
theorem sophos_search_exact [LawfulXor B] (S : Setting B ST) (ops : List (SophosOp B)) (w : Str) (deleteItems : Bool)
    (hS : Chained S fun w' => ∃ op ∈ ops ++ [.search w deleteItems], op.keyword = w')
    (hb : ∀ w, (updatesOf ops w).length < 2 ^ 32) :
    serverSearch S deleteItems (sophosAfter S ops).edb (searchRequest S (sophosAfter S ops).ramCounter w) =
        (fun t => if deleteItems = true ∧ ∃ i < (updatesOf ops w).length, t = token S w i then none
          else (sophosAfter S ops).edb t, ((updatesOf ops w).filterMap id).reverse) ∧
      ∀ op ∈ ops ++ [.search w deleteItems], ∀ i < 2 ^ 32, (sophosAfter S ops).edb (token S op.keyword i) =
        ((updatesOf ops op.keyword)[i]?.bind id).map (· ^^^ mask S op.keyword i) := by
  have h := stores_after hS (fun op (hop : op ∈ ops) => ⟨op, List.mem_append_left _ hop, rfl⟩) hb
  refine ⟨h.serverSearch hS ⟨.search w deleteItems, by simp, rfl⟩ deleteItems, fun op hop i hi => ?_⟩
  exact h.entry op.keyword i ⟨op, hop, rfl⟩ hi

end

/-! ## A free instance

A search token is a keyword with the number of trapdoor steps; blocks are byte strings of any
length, so no two tokens collide. -/

def freeSetting (usehdd deleteItems : Bool) : Setting Str (Str × UInt32) where
  getKeywordIndex := id
  generateArray seed := (seed, 0)
  invertMult st order := (st.1, st.2 + order)
  eval st := (st.1, st.2 - 1)
  derivationPrf := id
  genUpdateTokenMasks _ st := (st.1 ++ toBytes st.2.toInt32, [9])
  encode := id
  decode := some
  junk := ([], 0)
  usehdd := usehdd
  deleteItems := deleteItems

theorem chained_free (usehdd deleteItems : Bool) (W : Str → Prop) : Chained (freeSetting usehdd deleteItems) W where
  invertMult_zero st := by
    show (st.1, st.2 + 0) = st
    rw [UInt32.add_zero]
  eval_invertMult st i _ := by
    show (st.1, st.2 + UInt32.ofNat (i + 1) - 1) = (st.1, st.2 + UInt32.ofNat i)
    have hone : UInt32.ofNat (i + 1) = UInt32.ofNat i + 1 := by rw [UInt32.ofNat_add]; rfl
    rw [hone, ← UInt32.add_assoc, UInt32.add_sub_cancel]
  token_inj w w' i i' _ _ hi hi' h := by
    have h' : w ++ toBytes (0 + UInt32.ofNat i).toInt32 = w' ++ toBytes (0 + UInt32.ofNat i').toInt32 := h
    obtain ⟨h1, h2⟩ := List.append_inj' h' (by rw [length_toBytes, length_toBytes])
    refine ⟨h1, ?_⟩
    have h3 := congrArg Int32.toUInt32 (toBytes_injective h2)
    rw [UInt32.zero_add, UInt32.zero_add, UInt32.toUInt32_toInt32, UInt32.toUInt32_toInt32] at h3
    have h4 := congrArg UInt32.toNat h3
    rw [UInt32.toNat_ofNat', UInt32.toNat_ofNat', Nat.mod_eq_of_lt hi, Nat.mod_eq_of_lt hi'] at h4
    exact h4

/-- Two updates of `a`, one of `b`, a search of `a` that deletes, and one more update of `a`. -/
theorem sophos_search_exact_ab :
    let S := freeSetting false false
    let ops : List (SophosOp Str) := [.update [97] [1], .update [98] [2], .update [97] [3], .search [97] true,
      .update [97] [4]]
    serverSearch S false (sophosAfter S ops).edb (searchRequest S (sophosAfter S ops).ramCounter [97]) =
        (fun t => if false = true ∧ ∃ i < (updatesOf ops [97]).length, t = token S [97] i then none
          else (sophosAfter S ops).edb t, ((updatesOf ops [97]).filterMap id).reverse) ∧
      ∀ op ∈ ops ++ [.search [97] false], ∀ i < 2 ^ 32, (sophosAfter S ops).edb (token S op.keyword i) =
        ((updatesOf ops op.keyword)[i]?.bind id).map (· ^^^ mask S op.keyword i) := by
  intro S ops
  refine sophos_search_exact S ops [97] false (chained_free false false _) fun w => ?_
  simp only [ops, updatesOf, List.foldl_cons, List.foldl_nil]
  split_ifs <;> simp

end Sse.Fides
