import Sse.Fides.Sophos

/-!
# Exactness of Fides

What the server stores, told without tokens and masks, is for every keyword the list of
its updates by counter, with holes where a cleaning search has removed entries (`Holds`).
A search walks the whole list backwards, skips the holes and counts the rest; a cleaning
search turns all entries into holes and appends the inds it returns.

    ind ∈ search w ↔ 0 < score w ind                                  (fides_search_exact)

The counters of the client are 32-bit, so a keyword can have `2 ^ 32 - 1` updates; with one
more the search finds nothing (`fides_search_wraps`).
-/

namespace Sse.Fides

section

variable {B ST : Type} (S : Setting B ST)

/-- What Fides relies on: the public key undoes the trapdoor step by step, the tokens of the
updates of the keywords in `W` differ, and a value below `10 ^ 9` is decoded to its text. -/
structure Lawful (W : Str → Prop) : Prop where
  invertMult_zero : ∀ st, S.invertMult st 0 = st
  eval_invertMult : ∀ st i, i + 1 < 2 ^ 32 →
    S.eval (S.invertMult st (UInt32.ofNat (i + 1))) = S.invertMult st (UInt32.ofNat i)
  token_inj : ∀ w w' i i', W w → W w' → i < 2 ^ 32 → i' < 2 ^ 32 → token S w i = token S w' i' → w = w' ∧ i = i'
  decode_encode : ∀ (ind : UInt64) (ins : Bool), ind.toNat < 10 ^ 9 →
    S.decode (S.encode (valueText ind ins)) = some (valueText ind ins)

variable {S} in
theorem Lawful.chained {W : Str → Prop} (h : Lawful S W) : Chained S W :=
  ⟨h.invertMult_zero, h.eval_invertMult, h.token_inj⟩

end

/-! ## Values -/

/-- An update, as it is counted. -/
def stepOf (e : UInt64 × Bool) : UInt64 × Int := (e.1, if e.2 then 1 else -1)

theorem abs_stepOf_le (es : List (UInt64 × Bool)) : ∀ e ∈ es.map stepOf, |e.2| ≤ 1 := by
  intro e he
  obtain ⟨x, -, rfl⟩ := List.mem_map.1 he
  simp only [stepOf]
  split <;> decide

theorem splitBar_valueText (ind : UInt64) (ins : Bool) :
    splitBar (valueText ind ins) = [natStr ind.toNat, if ins then [49] else [48]] := by
  unfold splitBar valueText
  rw [List.splitOn_append_cons_of_beq _ _ (by decide), List.splitOn_eq_singleton (natStr_no_bar _)]
  cases ins <;> rfl

theorem toUInt64_ofNat_small {n : Nat} (h : n < 2 ^ 31) : (Int32.ofNat n).toInt64.toUInt64 = UInt64.ofNat n := by
  rw [Int32.toInt64_ofNat' (by rw [Int32.toInt_maxValue]; omega)]
  rfl

section

variable {B ST : Type} {S : Setting B ST} {W : Str → Prop}

theorem readValue_encode (hS : Lawful S W) {e : UInt64 × Bool} (he : e.1.toNat < 10 ^ 9) :
    readValue S (S.encode (valueText e.1 e.2)) = some (e.1, Int32.ofInt (stepOf e).2) := by
  have hsmall : e.1.toNat < 2 ^ 31 := lt_trans he (by decide)
  have hstr : natStr e.1.toNat = toStr (e.1.toNat : Int) := by simp [toStr]
  have hnum : stoi (natStr e.1.toNat) = some (Int32.ofNat e.1.toNat) := by rw [hstr, stoi_slot hsmall]
  have hflag : stoi (if e.2 then [49] else [48]) = some (if e.2 then 1 else 0) := by cases e.2 <;> decide
  have hsign : ∀ ins : Bool, 2 * (if ins then (1 : Int32) else 0) - 1 = Int32.ofInt (if ins then 1 else -1) := by
    decide
  have hdelta : 2 * (if e.2 then (1 : Int32) else 0) - 1 = Int32.ofInt (stepOf e).2 := hsign e.2
  unfold readValue
  simp only [hS.decode_encode e.1 e.2 he, Option.bind_eq_bind, Option.bind_some, splitBar_valueText,
    List.getElem?_cons_zero, List.getElem?_cons_succ, hnum, hflag, Option.pure_def, hdelta,
    toUInt64_ofNat_small hsmall, UInt64.ofNat_toNat]

/-- The reply of the server is counted update by update. -/
theorem countReply_encode (hS : Lawful S W) {es : List (UInt64 × Bool)} (hes : ∀ e ∈ es, e.1.toNat < 10 ^ 9)
    (m : SortedMap UInt64 Int32) :
    countReply S m (es.map fun e => S.encode (valueText e.1 e.2)) = some ((es.map stepOf).foldl Tally.add m) := by
  induction es generalizing m with
  | nil => rfl
  | cons e es ih =>
    rw [List.map_cons, countReply, readValue_encode hS (hes e List.mem_cons_self), Option.bind_eq_bind,
      Option.bind_some]
    exact ih (fun x hx => hes x (List.mem_cons_of_mem _ hx)) (Tally.add m (stepOf e))

variable [XorOp B] [DecidableEq B]

/-! ## What client and server hold -/

/-- The updates of every keyword by counter; `none` where a search has removed the entry. -/
structure Holds (S : Setting B ST) (W : Str → Prop) (st : State B) (ent : Str → List (Option (UInt64 × Bool))) :
    Prop where
  small : ∀ w, (ent w).length < 2 ^ 32
  cnt : ∀ w, st.ramCounter w = if ent w = [] then none else some (UInt32.ofNat ((ent w).length - 1))
  edb : ∀ w i, W w → i < 2 ^ 32 → st.edb (token S w i) =
    ((ent w)[i]?.bind id).map fun e => S.encode (valueText e.1 e.2) ^^^ mask S w i
  inds : ∀ w e, some e ∈ ent w → e.1.toNat < 10 ^ 9

omit [XorOp B] [DecidableEq B] in
/-- The values that are stored for updates. -/
def codes (S : Setting B ST) (l : List (Option (UInt64 × Bool))) : List (Option B) :=
  l.map (Option.map fun e => S.encode (valueText e.1 e.2))

omit [DecidableEq B] in
theorem holds_iff {st : State B} {ent : Str → List (Option (UInt64 × Bool))} :
    Holds S W st ent ↔ Stores S W st (fun w => codes S (ent w)) ∧ ∀ w e, some e ∈ ent w → e.1.toNat < 10 ^ 9 := by
  have hentry : ∀ w i, ((codes S (ent w))[i]?.bind id).map (· ^^^ mask S w i) =
      ((ent w)[i]?.bind id).map fun e => S.encode (valueText e.1 e.2) ^^^ mask S w i := by
    intro w i
    unfold codes
    rw [List.getElem?_map]
    cases (ent w)[i]? with
    | none => rfl
    | some o => cases o <;> rfl
  constructor
  · intro h
    refine ⟨⟨fun w => ?_, fun w => ?_, fun w i hw hi => ?_⟩, h.inds⟩
    · simpa [codes] using h.small w
    · simpa [codes] using h.cnt w
    · rw [hentry]
      exact h.edb w i hw hi
  · rintro ⟨h, hi⟩
    refine ⟨fun w => ?_, fun w => ?_, fun w i hw hi => ?_, hi⟩
    · simpa [codes] using h.small w
    · simpa [codes] using h.cnt w
    · rw [← hentry]
      exact h.entry w i hw hi

omit [DecidableEq B] in
theorem holds_init : Holds S W (init B) fun _ => [] := holds_iff.2 ⟨stores_init, by simp⟩

omit [XorOp B] [DecidableEq B] in
theorem codes_update (ent : Str → List (Option (UInt64 × Bool))) (w : Str) (l : List (Option (UInt64 × Bool))) :
    (fun w' => codes S (Function.update ent w l w')) = Function.update (fun w' => codes S (ent w')) w (codes S l) := by
  funext w'
  exact Function.apply_update (fun _ => codes S) ent w l w'

variable {st : State B} {ent : Str → List (Option (UInt64 × Bool))} {w : Str}

/-- **An update** is appended to the updates of its keyword. -/
theorem Holds.update (h : Holds S W st ent) (hS : Lawful S W) (hw : W w) {ind : UInt64}
    (hind : ind.toNat < 10 ^ 9) (hlen : (ent w).length + 1 < 2 ^ 32) (ins : Bool) :
    Holds S W (updateKeyword S st w ind ins) (Function.update ent w (ent w ++ [some (ind, ins)])) := by
  obtain ⟨hst, hi⟩ := holds_iff.1 h
  refine holds_iff.2 ⟨?_, fun w' e he => ?_⟩
  · have hup := hst.update hS.chained hw (by simpa [codes] using hlen) (S.encode (valueText ind ins))
    rw [codes_update]
    unfold codes at hup ⊢
    rw [List.map_append]
    exact hup
  · by_cases hww : w' = w
    · rw [hww, Function.update_self] at he
      rcases List.mem_append.1 he with he | he
      · exact hi w e he
      · rw [Option.some.inj (List.mem_singleton.1 he)]
        exact hind
    · rw [Function.update_of_ne hww] at he
      exact hi w' e he

/-- The updates that are not removed. -/
def present (l : List (Option (UInt64 × Bool))) : List (UInt64 × Bool) := l.filterMap id

omit [XorOp B] [DecidableEq B] in
theorem filterMap_codes (l : List (Option (UInt64 × Bool))) :
    (codes S l).filterMap id = (present l).map fun e => S.encode (valueText e.1 e.2) := by
  unfold codes present
  rw [List.filterMap_map, List.map_filterMap]
  rfl

/-- **The server's answer** is the present updates, last first; with deletion no entry of the
keyword is left. -/
theorem Holds.serverSearch [LawfulXor B] (h : Holds S W st ent) (hS : Lawful S W) (hw : W w) (deleteItems : Bool) :
    Fides.serverSearch S deleteItems st.edb (searchRequest S st.ramCounter w) =
      (fun t => if deleteItems = true ∧ ∃ i < (ent w).length, t = token S w i then none else st.edb t,
        (present (ent w)).reverse.map fun e => S.encode (valueText e.1 e.2)) := by
  rw [(holds_iff.1 h).1.serverSearch hS.chained hw deleteItems, filterMap_codes, List.map_reverse]
  simp only [codes, List.length_map]

/-- The updates after a search: with deletion they are all removed. -/
theorem Holds.removed (h : Holds S W st ent) (hS : Lawful S W) (hw : W w) {edb : Edb B}
    (hedb : edb = fun t => if ∃ i < (ent w).length, t = token S w i then none else st.edb t) :
    Holds S W { st with edb := edb } (Function.update ent w (List.replicate (ent w).length none)) := by
  obtain ⟨hst, hi⟩ := holds_iff.1 h
  refine holds_iff.2 ⟨?_, fun w' e he => ?_⟩
  · have hrem := hst.removed hS.chained hw (show edb = _ by simpa [codes] using hedb)
    rw [codes_update]
    simpa [codes] using hrem
  · by_cases hww : w' = w
    · rw [hww, Function.update_self] at he
      exact absurd (List.eq_of_mem_replicate he) (by simp)
    · rw [Function.update_of_ne hww] at he
      exact hi w' e he

theorem Holds.updates (h : Holds S W st ent) (hS : Lawful S W) (hw : W w) {inds : List UInt64}
    (hinds : ∀ ind ∈ inds, ind.toNat < 10 ^ 9) (hlen : (ent w).length + inds.length < 2 ^ 32) :
    Holds S W (inds.foldl (fun st ind => updateKeyword S st w ind true) st)
      (Function.update ent w (ent w ++ inds.map fun ind => some (ind, true))) := by
  induction inds generalizing st ent with
  | nil => simpa using h
  | cons ind inds ih =>
    rw [List.length_cons] at hlen
    have h1 := h.update hS hw (hinds ind List.mem_cons_self) (by omega) true
    have h2 := ih h1 (fun x hx => hinds x (List.mem_cons_of_mem _ hx)) (by
      rw [Function.update_self, List.length_append, List.length_singleton]
      omega)
    rw [Function.update_idem, Function.update_self, List.append_assoc] at h2
    exact h2

end

/-! ## What the history says about a keyword -/

/-- The score of every ind of a keyword: its inserts less its deletions, where a cleaning search
counts the inds it returned once and forgets the rest. -/
structure Account where
  score : UInt64 → Int
  /-- The inds updated so far. -/
  inds : Finset UInt64
  /-- The update requests so far, those of cleaning searches included. -/
  requests : Nat
  /-- The requests whose entries the last cleaning search has not removed. -/
  pending : Nat

namespace Account

def start : Account := ⟨fun _ => 0, ∅, 0, 0⟩

/-- The inds a search returns. -/
def found (a : Account) : Finset UInt64 := a.inds.filter fun ind => 0 < a.score ind

def count (a : Account) (ind : UInt64) (d : Int) : Account :=
  ⟨Function.update a.score ind (a.score ind + d), insert ind a.inds, a.requests + 1, a.pending + 1⟩

/-- One more call on the keyword. -/
def note (deleteItems : Bool) (a : Account) : Op → Account
  | .insert _ ind => a.count ind 1
  | .delete _ ind => a.count ind (-1)
  | .search _ =>
    if deleteItems then
      { a with
        score := fun ind => if 0 < a.score ind then 1 else 0
        requests := a.requests + a.found.card
        pending := a.found.card }
    else a

end Account

/-- The account of a keyword after some calls. -/
def account (deleteItems : Bool) (hist : List Op) (w : Str) : Account :=
  (hist.filter (·.keyword == w)).foldl (Account.note deleteItems) .start

/-- The ind is below `10 ^ 9`, and the counters of the keyword do not wrap. -/
def Fits (deleteItems : Bool) (hist : List Op) (op : Op) : Prop :=
  let a := (account deleteItems hist op.keyword).note deleteItems op
  a.requests < 2 ^ 32 ∧ a.pending < 2 ^ 31 ∧
    match op with
    | .insert _ ind | .delete _ ind => ind.toNat < 10 ^ 9
    | .search _ => True

instance (deleteItems : Bool) (hist : List Op) : ∀ op, Decidable (Fits deleteItems hist op)
  | .insert _ _ => inferInstanceAs (Decidable (_ ∧ _ ∧ _))
  | .delete _ _ => inferInstanceAs (Decidable (_ ∧ _ ∧ _))
  | .search _ => inferInstanceAs (Decidable (_ ∧ _ ∧ True))

theorem account_eq_update (deleteItems : Bool) (hist : List Op) (op : Op) :
    account deleteItems (hist ++ [op]) = Function.update (account deleteItems hist) op.keyword
      ((account deleteItems hist op.keyword).note deleteItems op) := by
  funext w
  unfold account
  rw [List.filter_append, List.foldl_append, Function.update_apply]
  by_cases hw : w = op.keyword
  · simp [hw]
  · have hne : ¬ op.keyword = w := fun e => hw e.symm
    simp [hw, hne]

/-- Without cleaning the score is the inserts less the deletions of the whole run. -/
theorem score_keeping (ops : List Op) (w : Str) (ind : UInt64) :
    (account false ops w).score ind = (ops.count (.insert w ind) : Int) - ops.count (.delete w ind) := by
  induction ops using List.reverseRecOn with
  | nil => rfl
  | append_singleton ops op ih =>
    rw [account_eq_update, List.count_append, List.count_append, List.count_singleton, List.count_singleton,
      Function.update_apply]
    cases op with
    | insert w' ind' =>
      by_cases hw : w = w'
      · subst hw
        by_cases hi : ind = ind'
        · subst hi
          simp [Account.note, Account.count, ih, Op.keyword]
          omega
        · have hne : ¬ ind' = ind := fun e => hi e.symm
          simp [Account.note, Account.count, ih, Op.keyword, hi, hne]
      · have hne : ¬ w' = w := fun e => hw e.symm
        simp [ih, Op.keyword, hw, hne]
    | delete w' ind' =>
      by_cases hw : w = w'
      · subst hw
        by_cases hi : ind = ind'
        · subst hi
          simp [Account.note, Account.count, ih, Op.keyword]
          omega
        · have hne : ¬ ind' = ind := fun e => hi e.symm
          simp [Account.note, Account.count, ih, Op.keyword, hi, hne]
      · have hne : ¬ w' = w := fun e => hw e.symm
        simp [ih, Op.keyword, hw, hne]
    | search w' =>
      have hsame : (if w = w' then account false ops w' else account false ops w) = account false ops w := by
        split
        · next e => rw [e]
        · rfl
      simp [Account.note, ih, Op.keyword, hsame]

/-- The present updates of a keyword add up to its account. -/
structure Agrees (a : Account) (l : List (Option (UInt64 × Bool))) : Prop where
  score : ∀ ind, Tally.net ((present l).map stepOf) ind = a.score ind
  inds : ∀ ind, a.score ind ≠ 0 → ind ∈ a.inds
  requests : l.length = a.requests
  pending : (present l).length = a.pending

theorem agrees_start : Agrees .start [] := ⟨fun _ => rfl, fun _ h => absurd rfl h, rfl, rfl⟩

theorem present_concat (l : List (Option (UInt64 × Bool))) (e : UInt64 × Bool) :
    present (l ++ [some e]) = present l ++ [e] := by
  simp [present, List.filterMap_append]

theorem Agrees.count {a : Account} {l : List (Option (UInt64 × Bool))} (h : Agrees a l) (ind : UInt64) (ins : Bool) :
    Agrees (a.count ind (stepOf (ind, ins)).2) (l ++ [some (ind, ins)]) := by
  have hstep : stepOf (ind, ins) = (ind, (stepOf (ind, ins)).2) := rfl
  refine ⟨fun ind' => ?_, fun ind' hne => ?_, ?_, ?_⟩
  · rw [present_concat, List.map_append, Tally.net_append, h.score, List.map_singleton, hstep, Tally.net_singleton]
    simp only [Account.count, Function.update_apply]
    by_cases he : ind' = ind
    · rw [if_pos he.symm, if_pos he, he]
    · rw [if_neg (Ne.symm he), if_neg he, add_zero]
  · simp only [Account.count, Function.update_apply] at hne ⊢
    by_cases he : ind' = ind
    · rw [he]
      exact Finset.mem_insert_self _ _
    · rw [if_neg he] at hne
      exact Finset.mem_insert_of_mem (h.inds ind' hne)
  · simp [Account.count, h.requests]
  · simp [Account.count, present_concat, h.pending]

/-- The inds a search returns, from the updates present. -/
def foundList (l : List (Option (UInt64 × Bool))) : List UInt64 :=
  (Tally.count ((present l).reverse.map stepOf)).keysWhere (0 < ·)

theorem Agrees.mem_foundList {a : Account} {l : List (Option (UInt64 × Bool))} (h : Agrees a l)
    (hp : a.pending < 2 ^ 31) (ind : UInt64) : ind ∈ foundList l ↔ 0 < a.score ind := by
  unfold foundList
  rw [Tally.mem_count_pos (abs_stepOf_le _) (by rw [List.length_map, List.length_reverse, h.pending]; exact hp)]
  rw [Tally.net_perm ((List.reverse_perm _).map stepOf), h.score]

theorem foundList_sorted (l : List (Option (UInt64 × Bool))) : (foundList l).Pairwise (· < ·) :=
  SortedMap.keysWhere_sorted _ _

theorem foundList_nodup (l : List (Option (UInt64 × Bool))) : (foundList l).Nodup :=
  (foundList_sorted l).imp fun {a b} hlt e => absurd hlt (by rw [e]; exact UInt64.lt_irrefl b)

theorem Agrees.length_foundList {a : Account} {l : List (Option (UInt64 × Bool))} (h : Agrees a l)
    (hp : a.pending < 2 ^ 31) : (foundList l).length = a.found.card := by
  rw [← List.toFinset_card_of_nodup (foundList_nodup l)]
  congr 1
  ext ind
  rw [List.mem_toFinset, h.mem_foundList hp, Account.found, Finset.mem_filter]
  constructor
  · intro hpos
    exact ⟨h.inds ind (ne_of_gt hpos), hpos⟩
  · exact fun hm => hm.2

theorem net_inserts {l : List UInt64} (hnd : l.Nodup) (ind : UInt64) :
    Tally.net ((l.map fun ind => (ind, true)).map stepOf) ind = if ind ∈ l then 1 else 0 := by
  induction l with
  | nil => rfl
  | cons x l ih =>
    obtain ⟨hx, hnd⟩ := List.nodup_cons.1 hnd
    have hcons : ((x :: l).map fun ind => (ind, true)).map stepOf =
        [(x, (1 : Int))] ++ (l.map fun ind => (ind, true)).map stepOf := rfl
    rw [hcons, Tally.net_append, Tally.net_singleton, ih hnd]
    by_cases he : x = ind
    · subst he
      simp [hx]
    · have hne : ¬ ind = x := fun e => he e.symm
      simp [he, hne]

/-- A cleaning search: holes, and the returned inds inserted again. -/
theorem Agrees.cleaned {a : Account} {l : List (Option (UInt64 × Bool))} (h : Agrees a l) (hp : a.pending < 2 ^ 31)
    (w : Str) :
    Agrees (a.note true (.search w))
      (List.replicate l.length none ++ (foundList l).map fun ind => some (ind, true)) := by
  have hpres : present (List.replicate l.length none ++ (foundList l).map fun ind => some (ind, true)) =
      (foundList l).map fun ind => (ind, true) := by
    unfold present
    rw [List.filterMap_append, List.filterMap_map]
    have hnil : (List.replicate l.length (none : Option (UInt64 × Bool))).filterMap id = [] := by
      rw [List.filterMap_eq_nil_iff]
      intro o ho
      rw [List.eq_of_mem_replicate ho]
      rfl
    rw [hnil, List.nil_append]
    exact congrFun List.filterMap_eq_map _
  refine ⟨fun ind => ?_, fun ind hne => ?_, ?_, ?_⟩
  · rw [hpres, net_inserts (foundList_nodup l)]
    simp only [h.mem_foundList hp]
    rfl
  · refine h.inds ind fun h0 => hne ?_
    show (if 0 < a.score ind then 1 else 0) = (0 : Int)
    rw [h0]
    rfl
  · show _ = a.requests + a.found.card
    rw [List.length_append, List.length_replicate, List.length_map, h.length_foundList hp, h.requests]
  · show _ = a.found.card
    rw [hpres, List.length_map, h.length_foundList hp]

/-! ## Runs -/

section

variable {B ST : Type} [XorOp B] [DecidableEq B] [LawfulXor B] {S : Setting B ST} {W : Str → Prop}

/-- The updates behind a state add up to the accounts of all keywords. -/
structure Settled (S : Setting B ST) (W : Str → Prop) (hist : List Op) (st : State B) : Prop where
  holds : ∃ ent, Holds S W st ent ∧ ∀ w, Agrees (account S.deleteItems hist w) (ent w)
  pending : ∀ w, (account S.deleteItems hist w).pending < 2 ^ 31

omit [DecidableEq B] [LawfulXor B] in
theorem settled_init : Settled S W [] (init B) :=
  ⟨⟨_, holds_init, fun _ => agrees_start⟩, fun _ => Nat.two_pow_pos 31⟩

/-- **The search of one keyword** counts its present updates. -/
theorem Holds.searchKeyword_eq {st : State B} {ent : Str → List (Option (UInt64 × Bool))} {w : Str}
    (h : Holds S W st ent) (hS : Lawful S W) (hw : W w) :
    Fides.searchKeyword S st w = some (
      if S.deleteItems then
        (foundList (ent w)).foldl (fun st ind => updateKeyword S st w ind true)
          ⟨st.ramCounter, fun t => if ∃ i < (ent w).length, t = token S w i then none else st.edb t⟩
      else st, foundList (ent w)) := by
  have hinds : ∀ e ∈ (present (ent w)).reverse, e.1.toNat < 10 ^ 9 := by
    intro e he
    obtain ⟨o, ho, rfl⟩ := List.mem_filterMap.1 (List.mem_reverse.1 he)
    exact h.inds w e ho
  unfold Fides.searchKeyword
  simp only [h.serverSearch hS hw, countReply_encode hS hinds, Option.bind_eq_bind, Option.bind_some]
  cases S.deleteItems with
  | false =>
    simp only [Bool.false_eq_true, false_and, if_false]
    rfl
  | true =>
    simp only [true_and, if_true]
    rfl

/-- A search whose counters do not wrap. -/
theorem Holds.searchKeyword {st : State B} {ent : Str → List (Option (UInt64 × Bool))} {w : Str} {a : Account}
    (h : Holds S W st ent) (hS : Lawful S W) (hw : W w) (ha : Agrees a (ent w)) (hp : a.pending < 2 ^ 31)
    (hr : (a.note S.deleteItems (.search w)).requests < 2 ^ 32) :
    ∃ st', Fides.searchKeyword S st w = some (st', foundList (ent w)) ∧
      ∃ l, Holds S W st' (Function.update ent w l) ∧ Agrees (a.note S.deleteItems (.search w)) l := by
  refine ⟨_, h.searchKeyword_eq hS hw, ?_⟩
  cases hd : S.deleteItems with
  | false =>
    refine ⟨ent w, ?_, ha⟩
    rw [Function.update_eq_self]
    exact h
  | true =>
    rw [hd] at hr
    have hlen : (ent w).length + (foundList (ent w)).length < 2 ^ 32 := by
      rw [ha.length_foundList hp, ha.requests]
      exact hr
    have hfound : ∀ ind ∈ foundList (ent w), ind.toNat < 10 ^ 9 := by
      intro ind hind
      -- a returned ind has an update
      have hne : Tally.net ((present (ent w)).map stepOf) ind ≠ 0 := by
        rw [ha.score]
        exact ne_of_gt ((ha.mem_foundList hp ind).1 hind)
      obtain ⟨x, hx, rfl⟩ := Tally.exists_of_net_ne_zero hne
      obtain ⟨e, he, rfl⟩ := List.mem_map.1 hx
      obtain ⟨o, ho, rfl⟩ := List.mem_filterMap.1 he
      exact h.inds w e ho
    have h1 := h.removed hS hw rfl
    have h2 := h1.updates hS hw hfound (by rw [Function.update_self, List.length_replicate]; exact hlen)
    rw [Function.update_idem, Function.update_self] at h2
    exact ⟨_, h2, ha.cleaned hp w⟩

omit [XorOp B] [DecidableEq B] [LawfulXor B] in
/-- Only the account of the keyword called changes. -/
theorem agrees_update {A : Str → Account} {ent : Str → List (Option (UInt64 × Bool))} {w : Str} {a : Account}
    {l : List (Option (UInt64 × Bool))} (hA : ∀ w', Agrees (A w') (ent w')) (ha : Agrees a l) (w' : Str) :
    Agrees (Function.update A w a w') (Function.update ent w l w') := by
  by_cases hw : w' = w
  · rw [hw, Function.update_self, Function.update_self]
    exact ha
  · rw [Function.update_of_ne hw, Function.update_of_ne hw]
    exact hA w'

/-- **One call.** -/
theorem Settled.step {hist : List Op} {st : State B} (hS : Lawful S W) (h : Settled S W hist st) {op : Op}
    (hw : W op.keyword) (hok : Fits S.deleteItems hist op) :
    ∃ st' o, Fides.step S st op = some (st', o) ∧ Settled S W (hist ++ [op]) st' ∧
      ∀ w, op = .search w → o.Pairwise (· < ·) ∧ ∀ ind, ind ∈ o ↔ 0 < (account S.deleteItems hist w).score ind := by
  obtain ⟨⟨ent, hent, hA⟩, hpend⟩ := h
  obtain ⟨hreq, hpend', hind⟩ := hok
  have hpending : ∀ w, (account S.deleteItems (hist ++ [op]) w).pending < 2 ^ 31 := by
    intro w
    rw [account_eq_update, Function.update_apply]
    split
    · exact hpend'
    · exact hpend w
  -- an update of either kind
  have hupdate : ∀ w ind ins, op.keyword = w → ind.toNat < 10 ^ 9 →
      (account S.deleteItems hist w).note S.deleteItems op =
        (account S.deleteItems hist w).count ind (stepOf (ind, ins)).2 →
      Settled S W (hist ++ [op]) (updateKeyword S st w ind ins) := by
    rintro w ind ins rfl hlt hnote
    refine ⟨⟨_, hent.update hS hw hlt ?_ ins, ?_⟩, hpending⟩
    · rw [(hA _).requests]
      rw [hnote] at hreq
      exact hreq
    · rw [account_eq_update, hnote]
      exact agrees_update hA ((hA _).count ind ins)
  cases op with
  | insert w ind => exact ⟨_, _, rfl, hupdate w ind true rfl hind rfl, fun _ e => by cases e⟩
  | delete w ind => exact ⟨_, _, rfl, hupdate w ind false rfl hind rfl, fun _ e => by cases e⟩
  | search w =>
    obtain ⟨st', hs, l, hl, hal⟩ := hent.searchKeyword hS hw (hA w) (hpend w) hreq
    refine ⟨st', _, hs, ⟨⟨_, hl, ?_⟩, hpending⟩, ?_⟩
    · rw [account_eq_update]
      exact agrees_update hA hal
    · rintro w' ⟨⟩
      exact ⟨foundList_sorted _, fun ind => (hA w).mem_foundList (hpend w) ind⟩

theorem settled_run (hS : Lawful S W) {ops : List Op} (hW : ∀ op ∈ ops, W op.keyword)
    (hok : Runs.Each (Fits S.deleteItems) [] ops) :
    ∃ st outs, Runs.run (step S) (init B) ops = some (st, outs) ∧ Settled S W ops st := by
  induction ops using List.reverseRecOn with
  | nil => exact ⟨_, _, rfl, settled_init⟩
  | append_singleton ops op ih =>
    obtain ⟨hok, hop⟩ := Runs.each_concat.1 hok
    obtain ⟨st, outs, hrun, h⟩ := ih (fun o ho => hW o (List.mem_append_left _ ho)) hok
    obtain ⟨st', o, hstep, h', -⟩ := h.step hS (hW op (by simp)) hop
    exact ⟨st', _, Runs.run_concat.2 ⟨st, outs, o, hrun, hstep, rfl⟩, h'⟩

end

/-! ## The runners -/

section

variable {B ST : Type} [XorOp B] [DecidableEq B] (S : Setting B ST)

omit [XorOp B] [DecidableEq B] in
/-- The runners in the state of the single machine. -/
def State.toPair (st : State B) : Pair B := ⟨st.ramCounter, ⟨S.usehdd, S.deleteItems, st.edb⟩⟩

/-- The updates of a batch, which the single machine applies one by one. -/
theorem foldl_updateKeyword (w : Str) (inds : List UInt64) (st : State B) :
    inds.foldl (fun st ind => updateKeyword S st w ind true) st =
      ⟨(Pair.batch S w st.ramCounter inds).1,
        (Pair.batch S w st.ramCounter inds).2.foldl (update S.usehdd) st.edb⟩ := by
  induction inds generalizing st with
  | nil => rfl
  | cons ind inds ih =>
    rw [List.foldl_cons, ih]
    rfl

omit [XorOp B] in
theorem batchUpdate_map (srv : ServerRunner B) (reqs : List (UpdateRequest B)) :
    srv.batchUpdate ⟨reqs.map (·.token), reqs.map (·.index)⟩ =
      { srv with edb := reqs.foldl (update srv.usehdd) srv.edb } := by
  unfold ServerRunner.batchUpdate
  simp only [List.zip_map', List.foldl_map]

/-- **One call on the runners** does what it does on the single machine. -/
theorem pair_step (st : State B) (op : Op) :
    Pair.step S (st.toPair S) op = (step S st op).map fun r => (r.1.toPair S, r.2) := by
  cases op with
  | insert w ind => rfl
  | delete w ind => rfl
  | search w =>
    show Pair.searchKeyword S (st.toPair S) w = (searchKeyword S st w).map _
    unfold Pair.searchKeyword searchKeyword searchProcess
    simp only [State.toPair, ServerRunner.search]
    cases serverSearch S S.deleteItems st.edb (searchRequest S st.ramCounter w) with
    | mk edb res_ins =>
      simp only
      cases countReply S SortedMap.empty res_ins with
      | none => rfl
      | some remove =>
        simp only [Option.map_some, Option.bind_eq_bind, Option.bind_some]
        cases S.deleteItems with
        | false => rfl
        | true =>
          simp only [if_true, batchUpdate_map, foldl_updateKeyword, Option.pure_def, Option.map_some]

theorem pair_run (ops : List Op) :
    Runs.Matches (fun (p : Pair B) st => p = st.toPair S) (Runs.run (Pair.step S) (Pair.start S) ops)
      (Runs.run (step S) (init B) ops) := by
  refine Runs.run_matches _ (fun _ => True) ?_ (fun _ _ => trivial) rfl
  rintro p st op - rfl
  rw [pair_step]
  cases step S st op with
  | none => trivial
  | some r => exact ⟨rfl, rfl⟩

end

/-- **Exact search.**  In every run whose counters do not wrap, single machine and runners answer
alike, and a search returns in ascending order the inds with a positive score. -/
theorem fides_search_exact {B ST : Type} [XorOp B] [DecidableEq B] [LawfulXor B] (S : Setting B ST)
    (ops : List Op) (w : Str) (hS : Lawful S fun w' => ∃ op ∈ ops ++ [.search w], op.keyword = w')
    (hok : Runs.Each (Fits S.deleteItems) [] (ops ++ [.search w])) :
    ∃ st outs st' l, Runs.run (step S) (init B) ops = some (st, outs) ∧
      searchKeyword S st w = some (st', l) ∧ l.Pairwise (· < ·) ∧
      (∀ ind, ind ∈ l ↔ 0 < (account S.deleteItems ops w).score ind) ∧
      ∃ p p', Runs.run (Pair.step S) (Pair.start S) ops = some (p, outs) ∧
        p.searchKeyword S w = some (p', l) := by
  obtain ⟨hok, hop⟩ := Runs.each_concat.1 hok
  obtain ⟨st, outs, hrun, h⟩ := settled_run hS (fun op hop => ⟨op, List.mem_append_left _ hop, rfl⟩) hok
  obtain ⟨st', l, hs, -, hl⟩ := h.step hS ⟨.search w, by simp, rfl⟩ hop
  obtain ⟨hsorted, hmem⟩ := hl w rfl
  have hpair := pair_run S ops
  rw [hrun] at hpair
  obtain ⟨p, hp, rfl⟩ := hpair.of_some
  refine ⟨st, outs, st', l, hrun, hs, hsorted, hmem, st.toPair S, st'.toPair S, hp, ?_⟩
  have hlast := pair_step S st (.search w)
  rw [hs] at hlast
  exact hlast

theorem lawful_free (usehdd deleteItems : Bool) (W : Str → Prop) : Lawful (freeSetting usehdd deleteItems) W where
  invertMult_zero := (chained_free usehdd deleteItems W).invertMult_zero
  eval_invertMult := (chained_free usehdd deleteItems W).eval_invertMult
  token_inj := (chained_free usehdd deleteItems W).token_inj
  decode_encode _ _ _ := rfl

/-- Inserts, a deletion and a cleaning search of the keyword `a`. -/
theorem fides_search_exact_a :
    let S := freeSetting false true
    let ops : List Op := [.insert [97] 1, .insert [97] 2, .delete [97] 1, .search [97], .insert [97] 3]
    ∃ st outs st' l, Runs.run (step S) (init Str) ops = some (st, outs) ∧
      searchKeyword S st [97] = some (st', l) ∧ l.Pairwise (· < ·) ∧
      (∀ ind, ind ∈ l ↔ 0 < (account true ops [97]).score ind) ∧
      ∃ p p', Runs.run (Pair.step S) (Pair.start S) ops = some (p, outs) ∧
        p.searchKeyword S [97] = some (p', l) :=
  fides_search_exact (freeSetting false true) _ [97] (lawful_free _ _ _) (by decide +kernel)

/-! ## The counters wrap -/

/-- The search of a keyword after some calls is exact. -/
def ExactAfter {B ST : Type} [XorOp B] [DecidableEq B] (S : Setting B ST) (ops : List Op) (w : Str) : Prop :=
  ∃ st outs st' l, Runs.run (step S) (init B) ops = some (st, outs) ∧ searchKeyword S st w = some (st', l) ∧
    ∀ ind, ind ∈ l ↔ 0 < (account S.deleteItems ops w).score ind

section

variable {B ST : Type} [XorOp B] [DecidableEq B] {S : Setting B ST} {w : Str} {ind : UInt64}

theorem run_replicate (n : Nat) : ∃ st outs,
    Runs.run (step S) (init B) (List.replicate (n + 1) (.insert w ind)) = some (st, outs) ∧
      st.ramCounter w = some (UInt32.ofNat n) := by
  induction n with
  | zero => exact ⟨_, _, rfl, by simp [updateKeyword, keywordRequest, updateRequest, init, nextCnt]⟩
  | succ n ih =>
    obtain ⟨st, outs, hrun, hcnt⟩ := ih
    rw [List.replicate_succ']
    refine ⟨_, _, Runs.run_concat.2 ⟨st, outs, _, hrun, rfl, rfl⟩, ?_⟩
    have hadd : UInt32.ofNat n + 1 = UInt32.ofNat (n + 1) := by rw [UInt32.ofNat_add]; rfl
    show Function.update st.ramCounter w (some (nextCnt (st.ramCounter w))) w = _
    rw [Function.update_self, hcnt, nextCnt, hadd]

omit [XorOp B] [DecidableEq B] in
theorem score_replicate (hd : S.deleteItems = false) (n : Nat) :
    (account S.deleteItems (List.replicate n (.insert w ind)) w).score ind = n := by
  rw [hd, score_keeping, List.count_replicate_self, List.count_eq_zero_of_not_mem]
  · simp
  · intro h
    cases List.eq_of_mem_replicate h

/-- The last counter is followed by 0, and the server walks no step. -/
theorem not_exactAfter_requests (hd : S.deleteItems = false) {n : Nat} (hn : UInt32.ofNat n + 1 = 0) :
    ¬ ExactAfter S (List.replicate (n + 1) (.insert w ind)) w := by
  rintro ⟨st, outs, st', l, hrun, hs, hl⟩
  obtain ⟨st1, outs1, hrun1, hcnt⟩ : ∃ st outs,
      Runs.run (step S) (init B) (List.replicate (n + 1) (.insert w ind)) = some (st, outs) ∧
        st.ramCounter w = some (UInt32.ofNat n) := run_replicate n
  rw [hrun] at hrun1
  obtain ⟨rfl, rfl⟩ := Prod.mk.inj (Option.some.inj hrun1)
  have hsearch : searchKeyword S st w = some (st, []) := by
    simp only [searchKeyword, searchRequest, hcnt, hn, serverSearch, UInt32.toNat_zero, searchLoop, countReply, hd]
    rfl
  rw [hs] at hsearch
  obtain ⟨-, rfl⟩ := Prod.mk.inj (Option.some.inj hsearch)
  have hpos := (hl ind).2 (by rw [score_replicate hd]; omega)
  cases hpos

theorem holds_replicate [LawfulXor B] {W : Str → Prop} (hS : Lawful S W) (hw : W w) (hind : ind.toNat < 10 ^ 9)
    {n : Nat} (hn : n < 2 ^ 32) : ∃ st outs ent,
      Runs.run (step S) (init B) (List.replicate n (.insert w ind)) = some (st, outs) ∧ Holds S W st ent ∧
        ent w = List.replicate n (some (ind, true)) := by
  induction n with
  | zero => exact ⟨_, _, _, rfl, holds_init, rfl⟩
  | succ n ih =>
    obtain ⟨st, outs, ent, hrun, h, hent⟩ := ih (by omega)
    rw [List.replicate_succ']
    refine ⟨_, _, _, Runs.run_concat.2 ⟨st, outs, _, hrun, rfl, rfl⟩, h.update hS hw hind ?_ true, ?_⟩
    · rw [hent, List.length_replicate]
      exact hn
    · rw [Function.update_self, hent, List.replicate_succ']

/-- The count of an ind runs over, in two's complement to a negative value. -/
theorem not_exactAfter_pending [LawfulXor B] (hd : S.deleteItems = false) {W : Str → Prop} (hS : Lawful S W)
    (hw : W w) (hind : ind.toNat < 10 ^ 9) {n : Nat} (hn : n < 2 ^ 32) (hpos : 0 < n)
    (hneg : ¬ 0 < Int32.ofInt (n : Int)) : ¬ ExactAfter S (List.replicate n (.insert w ind)) w := by
  rintro ⟨st, outs, st', l, hrun, hs, hl⟩
  obtain ⟨st1, outs1, ent, hrun1, h, hent⟩ := holds_replicate hS hw hind hn
  rw [hrun] at hrun1
  obtain ⟨rfl, rfl⟩ := Prod.mk.inj (Option.some.inj hrun1)
  rw [h.searchKeyword_eq hS hw] at hs
  obtain ⟨-, rfl⟩ := Prod.mk.inj (Option.some.inj hs)
  have hmem := (hl ind).2 (by rw [score_replicate hd]; omega)
  have hnet : Tally.net ((present (ent w)).reverse.map stepOf) ind = n := by
    rw [hent]
    simp [present, stepOf, Tally.net, List.map_replicate]
  rw [foundList, Tally.mem_count_pos_iff, hnet] at hmem
  exact hneg hmem

end

/-- After `2 ^ 32` inserts of a pair, and also after `2 ^ 31`, the search does not return it. -/
theorem fides_search_wraps :
    let S := freeSetting false false
    ¬ ExactAfter S (List.replicate (2 ^ 32) (.insert [97] 5)) [97] ∧
      ¬ ExactAfter S (List.replicate (2 ^ 31) (.insert [97] 5)) [97] := by
  intro S
  -- the lengths stay variables, so that the lists are never unfolded
  have h32 : ∀ n, n = 2 ^ 32 → ¬ ExactAfter S (List.replicate n (.insert [97] 5)) [97] := by
    intro n hn
    obtain ⟨m, rfl⟩ : ∃ m, n = m + 1 := ⟨n - 1, by omega⟩
    refine not_exactAfter_requests rfl ?_
    rw [show m = 2 ^ 32 - 1 by omega]
    decide
  have h31 : ∀ n, n = 2 ^ 31 → ¬ ExactAfter S (List.replicate n (.insert [97] 5)) [97] := by
    intro n hn
    refine not_exactAfter_pending rfl (lawful_free _ _ fun _ => True) trivial (by decide) (by omega) (by omega) ?_
    rw [hn]
    decide
  exact ⟨h32 _ rfl, h31 _ rfl⟩

end Sse.Fides
