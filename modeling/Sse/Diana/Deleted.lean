import Sse.Diana.Exact

/-!
# Searching a keyword whose pairs are deleted

`add_count` of a request counts the deleted entries too.  When all of them are deleted the
covering list is empty and `add_count` is not, and `search_simple_parallel` reads the first
element of the list.  A search therefore returns the empty list exactly as long as nothing
was inserted under the keyword's current key (`deleted_keyword_search_iff`).  This is about
the maps alone and needs no assumption on collisions.
-/

namespace Sse.Diana

/-! ## One query -/

section

variable {B T : Type} [XorOp T] {P : Prims B T} {ramCounter : Str → Option UInt32} {edb : B → Option T}

omit [XorOp T] in
/-- The nodes of a request for a counted keyword cover some of its leaves. -/
theorem searchRequestDel_leaves (hs : Splits P.derive P.derive32) {k : Str} {c : UInt32} {dels : List UInt32}
    {req : SearchRequest B} (hc : ramCounter k = some c) (h : searchRequestDel P ramCounter k dels = some req) :
    c + 1 ≠ 0 ∧ req.add_count = c + 1 ∧ ∃ is : List Nat, leaves P.derive32 req.token_list = is.map (leaf P k) ∧
      (∀ i ∈ is, i < (c + 1).toNat) ∧ is.length ≤ (c + 1).toNat := by
  have hcap : (c + 1).toNat ≤ 2 ^ kTreeDepth := le_of_lt (lt_trans (c + 1).toNat_lt (by decide))
  unfold searchRequestDel at h
  rw [hc] at h
  obtain ⟨l, hl, rfl⟩ := Option.map_eq_some_iff.1 h
  by_cases hd : dels.length = 0
  · rw [if_pos hd] at hl
    refine ⟨?_, rfl, _, leaves_coveringList hs hcap hl, fun i hi => List.mem_range.1 hi, by simp⟩
    intro hz
    rw [hz, UInt32.toNat_zero, coveringList_zero] at hl
    cases hl
  · rw [if_neg hd] at hl
    have hdne : dels.map UInt32.toNat ≠ [] := by
      intro e
      exact hd (by simpa using e)
    have hcov := leaves_coveringListDel hs (n := (c + 1).toNat) (d := kTreeDepth) hdne (root P k)
    rw [hl, Option.map_some] at hcov
    obtain ⟨is, his, hleaves⟩ := Option.map_eq_some_iff.1 hcov.symm
    refine ⟨?_, rfl, is, hleaves.symm, fun i hi => mem_kept_lt hdne his hi, ?_⟩
    · intro hz
      rw [hz, UInt32.toNat_zero, kept_zero] at his
      cases his
    · rw [(kept_perm hdne his).length_eq]
      exact le_trans (List.length_filter_le _ _) (by simp)

/-- **The query of a counted keyword** never returns the empty list: either a node list is empty
and the server reads past it, or every leaf it visits has an entry. -/
theorem query_ne_nil [DecidableEq B] (hs : Splits P.derive P.derive32) {k : Str} {c : UInt32}
    (hc : ramCounter k = some c) (hfull : ∀ i ≤ c.toNat, edb (token P k i) ≠ none) (dels : List UInt32) :
    (searchRequestDel P ramCounter k dels).bind (searchSimpleParallel P edb) ≠ some [] := by
  intro h
  obtain ⟨req, hreq, hres⟩ := Option.bind_eq_some_iff.1 h
  obtain ⟨hnz, hadd, is, hleaves, hlt, hlen⟩ := searchRequestDel_leaves hs hc hreq
  unfold searchSimpleParallel at hres
  rw [hadd, if_neg hnz] at hres
  cases hts : req.token_list with
  | nil =>
    rw [hts] at hres
    cases hres
  | cons e ts =>
    have hle : (leaves P.derive32 (e :: ts)).length ≤ (c + 1).toNat := by
      rw [← hts, hleaves, List.length_map]
      exact hlen
    rw [hts] at hres hleaves
    simp only [jobKeys_eq hs hle, Option.map_some, searchKeys_keep, Option.some.injEq] at hres
    rw [hleaves, List.filterMap_map, List.filterMap_eq_nil_iff] at hres
    have hne : is ≠ [] := by
      rintro rfl
      cases (leaves_eq_nil hs).1 hleaves
    obtain ⟨i, hi⟩ := List.exists_mem_of_ne_nil _ hne
    have hic : i ≤ c.toNat := by
      have hi' := hlt i hi
      rw [UInt32.toNat_add] at hi'
      have := Nat.mod_le (c.toNat + (1 : UInt32).toNat) (2 ^ 32)
      have h1 : (1 : UInt32).toNat = 1 := rfl
      omega
    have hmiss := hres i hi
    exact hfull i hic (Option.map_eq_none_iff.1 hmiss)

end

section

variable {B : Type} [DecidableEq B] [XorOp B] {S : Setting B} {st st' : State B}

/-- The counters that `searchKeyword` leaves out. -/
def deletedCounters (S : Setting B) (st : State B) (key : Str) : Option (List UInt32) := do
  let del_s_req ← searchRequest S.del st.ramDel key
  let resDel ← searchSimpleParallel S.del st.edbDel del_s_req
  resDel.mapM fun item => parseCnt S (st.delCntMap item)

theorem queryKey_eq (S : Setting B) (st : State B) (key : Str) :
    queryKey S st key = (deletedCounters S st key).bind fun delCnts =>
      (searchRequestDel S.ins st.ramIns key delCnts).bind (searchSimpleParallel S.ins st.edbIns) := by
  unfold queryKey deletedCounters
  simp only [Option.bind_eq_bind, Option.bind_assoc]

/-- Both queries of a search hand over a node wherever there are entries to look at, so the
servers never dereference the end of a list. -/
structure NodesGiven (S : Setting B) (st : State B) (key : Str) : Prop where
  del : ∀ req, searchRequest S.del st.ramDel key = some req → req.add_count ≠ 0 → req.token_list ≠ []
  ins : ∀ delCnts req, deletedCounters S st key = some delCnts →
    searchRequestDel S.ins st.ramIns key delCnts = some req → req.add_count ≠ 0 → req.token_list ≠ []

/-! ## What the maps hold after any run -/

/-- Every counted insert has an entry, and a key with deletions has inserts. -/
structure Backed (S : Setting B) (st : State B) : Prop where
  stored : ∀ k c, st.ramIns k = some c → ∀ i ≤ c.toNat, st.edbIns (token S.ins k i) ≠ none
  del : ∀ k, st.ramIns k = none → st.ramDel k = none

omit [DecidableEq B] [XorOp B] in
/-- Something was inserted under the keyword's current key. -/
def InUse (st : State B) (w : Str) : Prop := ∃ key, st.keywordsToken w = some key ∧ st.ramIns key ≠ none

omit [DecidableEq B] [XorOp B] in
theorem backed_init (S : Setting B) : Backed S (init S) where
  stored _ _ h := by cases h
  del _ _ := rfl

omit [DecidableEq B] [XorOp B] in
/-- An update gives its keyword a key and changes nothing else yet. -/
theorem updateKey_spec (st : State B) (w : Str) :
    (updateKey st w).1.keywordsToken = Function.update st.keywordsToken w (some (updateKey st w).2) ∧
      (updateKey st w).1.ramIns = st.ramIns ∧ (updateKey st w).1.edbIns = st.edbIns ∧
      (updateKey st w).1.ramDel = st.ramDel := by
  unfold updateKey
  split
  · next key h => exact ⟨by rw [← h, Function.update_eq_self], rfl, rfl, rfl⟩
  · exact ⟨rfl, rfl, rfl, rfl⟩

omit [DecidableEq B] [XorOp B] in
theorem updateKey_of_some {w key : Str} (h : st.keywordsToken w = some key) : updateKey st w = (st, key) := by
  simp only [updateKey, h]

omit [XorOp B] in
theorem ramIns_insertKeyword (S : Setting B) (st : State B) (w : Str) (ind : UInt64) :
    (insertKeyword S st w ind).ramIns =
      Function.update st.ramIns (updateKey st w).2 (some (nextCnt (st.ramIns (updateKey st w).2))) := by
  obtain ⟨-, hram, -, -⟩ := updateKey_spec st w
  simp only [insertKeyword, updateRequest, hram]

omit [XorOp B] in
theorem keywordsToken_insertKeyword (S : Setting B) (st : State B) (w : Str) (ind : UInt64) :
    (insertKeyword S st w ind).keywordsToken = Function.update st.keywordsToken w (some (updateKey st w).2) :=
  (updateKey_spec st w).1

omit [XorOp B] in
theorem serverUpdate_keeps {T : Type} (usehdd : Bool) (edb : B → Option T) (req : B × T) {t : B}
    (h : edb t ≠ none) : serverUpdate usehdd edb req t ≠ none := by
  rw [serverUpdate_eq]
  split
  · rw [Function.update_apply]
    split
    · exact Option.some_ne_none _
    · exact h
  · exact h

omit [XorOp B] in
theorem serverUpdate_self {T : Type} (usehdd : Bool) (edb : B → Option T) (req : B × T) :
    serverUpdate usehdd edb req req.1 ≠ none := by
  rw [serverUpdate_eq]
  split
  · rw [Function.update_self]
    exact Option.some_ne_none _
  · next h => exact fun e => h (Or.inr e)

/-- Every counter of a client has an entry. -/
def Filled {T : Type} (P : Prims B T) (ramCounter : Str → Option UInt32) (edb : B → Option T) : Prop :=
  ∀ k c, ramCounter k = some c → ∀ i ≤ c.toNat, edb (token P k i) ≠ none

omit [XorOp B] in
/-- An update takes the next counter and leaves an entry there. -/
theorem Filled.update {T : Type} [XorOp T] {P : Prims B T} {ramCounter : Str → Option UInt32} {edb : B → Option T}
    (h : Filled P ramCounter edb) (usehdd : Bool) (key : Str) (x : T) :
    Filled P (updateRequest P ramCounter key x).1 (serverUpdate usehdd edb (updateRequest P ramCounter key x).2.1) := by
  have hself : (updateRequest P ramCounter key x).2.1.1 = token P key (nextCnt (ramCounter key)).toNat := rfl
  intro k c hk i hi
  have hk' : Function.update ramCounter key (some (nextCnt (ramCounter key))) k = some c := hk
  rw [Function.update_apply] at hk'
  split at hk'
  · next e =>
    subst e
    obtain rfl := Option.some.inj hk'
    rcases Nat.lt_or_eq_of_le hi with hlt | rfl
    · -- a smaller counter than a nonzero new one was counted before
      cases hc : ramCounter k with
      | none =>
        rw [hc] at hlt
        exact absurd hlt (Nat.not_lt_zero _)
      | some c =>
        rw [hc] at hlt
        have hle : i ≤ c.toNat := by
          simp only [nextCnt, UInt32.toNat_add] at hlt
          have := Nat.mod_le (c.toNat + (1 : UInt32).toNat) (2 ^ 32)
          have h1 : (1 : UInt32).toNat = 1 := rfl
          omega
        exact serverUpdate_keeps _ _ _ (h k c hc i hle)
    · rw [← hself]
      exact serverUpdate_self _ _ _
  · exact serverUpdate_keeps _ _ _ (h k c hk' i hi)

omit [XorOp B] in
theorem Backed.insert (h : Backed S st) (w : Str) (ind : UInt64) : Backed S (insertKeyword S st w ind) := by
  obtain ⟨-, hram, hedb, hdel⟩ := updateKey_spec st w
  set key := (updateKey st w).2 with hkey
  have hstored : Filled S.ins st.ramIns st.edbIns := h.stored
  have hnew := hstored.update S.usehdd key ind
  refine ⟨fun k c hk i hi => ?_, fun k hk => ?_⟩
  · have hstore : (insertKeyword S st w ind).edbIns =
        serverUpdate S.usehdd st.edbIns (updateRequest S.ins st.ramIns key ind).2.1 := by
      simp only [insertKeyword, hram, hedb, ← hkey]
    rw [hstore]
    apply hnew k c _ i hi
    rw [ramIns_insertKeyword] at hk
    exact hk
  · have hd : (insertKeyword S st w ind).ramDel = st.ramDel := hdel
    rw [hd]
    apply h.del
    rw [ramIns_insertKeyword, Function.update_apply] at hk
    split at hk
    · cases hk
    · exact hk

omit [XorOp B] in
theorem InUse.insert_self (S : Setting B) (st : State B) (w : Str) (ind : UInt64) :
    InUse (insertKeyword S st w ind) w := by
  refine ⟨(updateKey st w).2, ?_, ?_⟩
  · rw [keywordsToken_insertKeyword, Function.update_self]
  · rw [ramIns_insertKeyword, Function.update_self]
    simp

omit [XorOp B] in
theorem InUse.insert {w' : Str} (h : InUse st w') (S : Setting B) (w : Str) (ind : UInt64) :
    InUse (insertKeyword S st w ind) w' := by
  by_cases hw : w' = w
  · rw [hw]
    exact InUse.insert_self S st w ind
  · obtain ⟨key, hkey, hram⟩ := h
    refine ⟨key, ?_, ?_⟩
    · rw [keywordsToken_insertKeyword, Function.update_of_ne hw]
      exact hkey
    · rw [ramIns_insertKeyword, Function.update_apply]
      split
      · simp
      · exact hram

/-- A deletion under a key in use. -/
theorem Backed.delete (h : Backed S st) {w : Str} (hw : InUse st w) (ind : UInt64) :
    Backed S (deleteKeyword S st w ind) := by
  obtain ⟨key, hkey, hram⟩ := hw
  have hu := updateKey_of_some hkey
  unfold deleteKeyword
  simp only [hu, updateRequest]
  refine ⟨h.stored, fun k hk => ?_⟩
  have hne : k ≠ key := by
    rintro rfl
    exact hram hk
  show Function.update st.ramDel key _ k = none
  rw [Function.update_of_ne hne]
  exact h.del k hk

theorem InUse.delete {w' : Str} (h : InUse st w') (S : Setting B) (w : Str) (ind : UInt64) :
    InUse (deleteKeyword S st w ind) w' := by
  obtain ⟨key, hkey, hram⟩ := h
  obtain ⟨htok, hins, -, -⟩ := updateKey_spec st w
  refine ⟨key, ?_, ?_⟩
  · show (updateKey st w).1.keywordsToken w' = some key
    rw [htok, Function.update_apply]
    split
    · next e =>
      rw [e] at hkey
      rw [updateKey_of_some hkey]
    · exact hkey
  · show (updateKey st w).1.ramIns key ≠ none
    rw [hins]
    exact hram

omit [XorOp B] in
/-- The re-insertions of a cleaning search. -/
theorem Backed.insert_foldl (h : Backed S st) (w : Str) (l : List UInt64) :
    Backed S (l.foldl (fun st item => insertKeyword S st w item) st) := by
  induction l generalizing st with
  | nil => exact h
  | cons ind l ih => exact ih (h.insert w ind)

omit [XorOp B] in
theorem InUse.insert_foldl {w' : Str} (h : InUse st w') (S : Setting B) (w : Str) (l : List UInt64) :
    InUse (l.foldl (fun st item => insertKeyword S st w item) st) w' := by
  induction l generalizing st with
  | nil => exact h
  | cons ind l ih => exact ih (h.insert S w ind)

/-- A search of a key in use never finds nothing. -/
theorem Backed.queryKey_ne_nil (h : Backed S st) (hs : Splits S.ins.derive S.ins.derive32) {key : Str}
    (hkey : st.ramIns key ≠ none) : queryKey S st key ≠ some [] := by
  obtain ⟨c, hc⟩ := Option.ne_none_iff_exists'.1 hkey
  rw [queryKey_eq]
  intro hq
  obtain ⟨dels, -, hd⟩ := Option.bind_eq_some_iff.1 hq
  exact query_ne_nil hs hc (h.stored key c hc) dels hd

omit [DecidableEq B] [XorOp B] in
/-- The key of a keyword in use, as a search reads it. -/
theorem InUse.ramIns_ne_none {w : Str} (h : InUse st w) : st.ramIns ((st.keywordsToken w).getD []) ≠ none := by
  obtain ⟨key, hkey, hram⟩ := h
  rw [hkey]
  exact hram

/-- A search keeps every keyword in use. -/
theorem Backed.search (h : Backed S st) (hs : Splits S.ins.derive S.ins.derive32) {w : Str} {l : List UInt64}
    (hstep : searchKeyword S st w = some (st', l)) : Backed S st' ∧ ∀ w', InUse st w' → InUse st' w' := by
  unfold searchKeyword at hstep
  simp only [Option.bind_eq_bind] at hstep
  obtain ⟨resIns, hq, hres⟩ := Option.bind_eq_some_iff.1 hstep
  have hb : Backed S (touchKey st w).1 := ⟨h.stored, h.del⟩
  split at hres
  · obtain ⟨rfl, rfl⟩ := Prod.mk.inj (Option.some.inj hres)
    have hb' : Backed S (rekey (touchKey st w).1 w) := ⟨h.stored, h.del⟩
    refine ⟨hb'.insert_foldl w resIns, fun w' hw' => ?_⟩
    by_cases hww : w' = w
    · -- what the search found moves the keyword to its next key
      subst hww
      cases hr : resIns with
      | nil =>
        rw [hr] at hq
        exact absurd hq (hb.queryKey_ne_nil hs hw'.ramIns_ne_none)
      | cons ind rest => exact (InUse.insert_self S _ w' ind).insert_foldl S w' rest
    · refine InUse.insert_foldl ?_ S w resIns
      obtain ⟨key, hkey, hram⟩ := hw'
      refine ⟨key, ?_, hram⟩
      simp only [rekey, touchKey, Function.update_of_ne hww]
      exact hkey
  · obtain ⟨rfl, rfl⟩ := Prod.mk.inj (Option.some.inj hres)
    refine ⟨hb, fun w' hw' => ?_⟩
    obtain ⟨key, hkey, hram⟩ := hw'
    refine ⟨key, ?_, hram⟩
    simp only [touchKey, Function.update_apply]
    split
    · next e =>
      rw [← e, hkey]
      rfl
    · exact hkey

/-- A keyword with live pairs, or with an insert in the run, is in use. -/
theorem run_backed (hs : Splits S.ins.derive S.ins.derive32) {ops : List Op} {outs : List (List UInt64)}
    (hok : Runs.Each (WellFormed S.deleteResults) [] ops) (hrun : Runs.run (step S) (init S) ops = some (st, outs)) :
    Backed S st ∧ (∀ w, (account S.deleteResults ops w).live ≠ ∅ → InUse st w) ∧
      ∀ w ind, Op.insert w ind ∈ ops → InUse st w := by
  induction ops using List.reverseRecOn generalizing st outs with
  | nil =>
    simp only [Runs.run_nil, Option.some.injEq, Prod.mk.injEq] at hrun
    obtain ⟨rfl, -⟩ := hrun
    exact ⟨backed_init S, fun w hw => absurd rfl hw, fun _ _ hmem => by cases hmem⟩
  | append_singleton ops op ih =>
    obtain ⟨hok, hop⟩ := Runs.each_concat.1 hok
    obtain ⟨st₁, outs₁, o, hrun₁, hstep, -⟩ := Runs.run_concat.1 hrun
    obtain ⟨hb, hlive, hins⟩ := ih hok hrun₁
    have hacc := account_concat S.deleteResults ops op
    have hold : ∀ {w ind}, Op.insert w ind ∈ ops ++ [op] → Op.insert w ind ∈ ops ∨ op = Op.insert w ind := by
      intro w ind hmem
      rcases List.mem_append.1 hmem with hm | hm
      · exact Or.inl hm
      · exact Or.inr (List.mem_singleton.1 hm).symm
    cases op with
    | insert w ind =>
      obtain ⟨rfl, -⟩ := Prod.mk.inj (Option.some.inj hstep)
      refine ⟨hb.insert w ind, fun w' hw' => ?_, fun w' x hmem => ?_⟩
      · by_cases hww : w' = w
        · rw [hww]
          exact InUse.insert_self S st₁ w ind
        · rw [hacc, if_neg fun e => hww e.symm] at hw'
          exact (hlive w' hw').insert S w ind
      · rcases hold hmem with hm | he
        · exact (hins w' x hm).insert S w ind
        · obtain ⟨rfl, rfl⟩ := Op.insert.inj he
          exact InUse.insert_self S st₁ w ind
    | delete w ind =>
      obtain ⟨rfl, -⟩ := Prod.mk.inj (Option.some.inj hstep)
      have huse : InUse st₁ w := hlive w (Finset.ne_empty_of_mem hop)
      refine ⟨hb.delete huse ind, fun w' hw' => ?_, fun w' x hmem => ?_⟩
      · by_cases hww : w' = w
        · rw [hww]
          exact huse.delete S w ind
        · rw [hacc, if_neg fun e => hww e.symm] at hw'
          exact (hlive w' hw').delete S w ind
      · rcases hold hmem with hm | he
        · exact (hins w' x hm).delete S w ind
        · cases he
    | search w =>
      obtain ⟨hb', hkeep⟩ := hb.search hs hstep
      refine ⟨hb', fun w' hw' => hkeep w' (hlive w' ?_), fun w' x hmem => ?_⟩
      · rw [hacc] at hw'
        split at hw'
        · cases hdr : S.deleteResults <;> simpa [Account.note, hdr] using hw'
        · exact hw'
      · rcases hold hmem with hm | he
        · exact hkeep w' (hins w' x hm)
        · cases he

/-- **Searching a keyword without pairs.**  After a run of well-formed calls the search returns
the empty list, with nodes for every query that has entries, if and only if nothing was inserted
under the keyword's current key; and it never does for a keyword that had an insert. -/
theorem deleted_keyword_search_iff (S : Setting B) (hs : Splits S.ins.derive S.ins.derive32) {ops : List Op}
    {outs : List (List UInt64)} (hok : Runs.Each (WellFormed S.deleteResults) [] ops)
    (hrun : Runs.run (step S) (init S) ops = some (st, outs)) (w : Str) :
    (((∃ st', searchKeyword S st w = some (st', [])) ∧ NodesGiven S st ((st.keywordsToken w).getD [])) ↔
      st.ramIns ((st.keywordsToken w).getD []) = none) ∧
    ∀ ind, Op.insert w ind ∈ ops → st.ramIns ((st.keywordsToken w).getD []) ≠ none := by
  obtain ⟨hb, -, hins⟩ := run_backed hs hok hrun
  refine ⟨⟨?_, fun hnone => ?_⟩, fun ind hmem => (hins w ind hmem).ramIns_ne_none⟩
  · rintro ⟨⟨st', hst'⟩, -⟩
    by_contra hne
    unfold searchKeyword at hst'
    simp only [Option.bind_eq_bind] at hst'
    obtain ⟨resIns, hq, hres⟩ := Option.bind_eq_some_iff.1 hst'
    have hnil : resIns = [] := by
      split at hres
      · exact (Prod.mk.inj (Option.some.inj hres)).2
      · exact (Prod.mk.inj (Option.some.inj hres)).2
    rw [hnil] at hq
    exact hb.queryKey_ne_nil hs hne hq
  · set key := (st.keywordsToken w).getD [] with hkey
    have hdel : searchRequest S.del st.ramDel key = some ⟨[], 0⟩ := by simp only [searchRequest, hb.del key hnone]
    have hreq : ∀ dels, searchRequestDel S.ins st.ramIns key dels = some ⟨[], 0⟩ := by
      intro dels
      simp only [searchRequestDel, hnone]
    have hcnts : deletedCounters S st key = some [] := by
      simp only [deletedCounters, hdel]
      rfl
    have hq : queryKey S st key = some [] := by
      rw [queryKey_eq, hcnts, Option.bind_some, hreq, Option.bind_some]
      rfl
    refine ⟨?_, ⟨fun req h hn => ?_, fun dels req _ h hn => ?_⟩⟩
    · have hq' : queryKey S (touchKey st w).1 (touchKey st w).2 = some [] := hq
      unfold searchKeyword
      simp only [hq', Option.bind_eq_bind, Option.bind_some]
      split
      · exact ⟨_, rfl⟩
      · exact ⟨_, rfl⟩
    · rw [hdel] at h
      obtain rfl := Option.some.inj h
      exact absurd rfl hn
    · rw [hreq] at h
      obtain rfl := Option.some.inj h
      exact absurd rfl hn

end

/-- A keyword that was never inserted, beside one that was and whose pair is deleted. -/
theorem deleted_keyword_search_iff_b :
    ∃ st outs, Runs.run (step (freeSetting false true)) (init (freeSetting false true))
        [.insert [97] 1, .delete [97] 1] = some (st, outs) ∧
      ((∃ st', searchKeyword (freeSetting false true) st [98] = some (st', [])) ∧
        NodesGiven (freeSetting false true) st ((st.keywordsToken [98]).getD [])) ∧
      st.ramIns ((st.keywordsToken [97]).getD []) ≠ none := by
  have hok : Runs.Each (WellFormed true) [] [Op.insert [97] 1, .delete [97] 1] := by decide
  have hnone : (Runs.run (step (freeSetting false true)) (init (freeSetting false true))
      [.insert [97] 1, .delete [97] 1]).any (fun r => (r.1.ramIns ((r.1.keywordsToken [98]).getD [])).isNone) = true := by
    decide +kernel
  obtain ⟨⟨st, outs⟩, hrun, hb⟩ := (Option.any_eq_true _ _).1 hnone
  refine ⟨st, outs, hrun, ?_, ?_⟩
  · exact (deleted_keyword_search_iff _ (freePrims_splits _) hok hrun [98]).1.2 (Option.isNone_iff_eq_none.1 hb)
  · exact (deleted_keyword_search_iff _ (freePrims_splits _) hok hrun [97]).2 1 (by decide)

/-- A keyword whose only pair is deleted: the request has one entry and no node, and the search
reads past the empty list. -/
def DeletedFails (deleteResults : Bool) : Prop :=
  let S := freeSetting false deleteResults
  let ops : List Op := [.insert [97] 1, .delete [97] 1]
  Runs.Each (WellFormed deleteResults) [] ops ∧ (account deleteResults ops [97]).live = ∅ ∧
    ∃ st outs, Runs.run (step S) (init S) ops = some (st, outs) ∧ searchKeyword S st [97] = none ∧
      deletedCounters S st [97, 49] = some [0] ∧ (searchRequestDel S.ins st.ramIns [97, 49] [0]).map (fun r => (r.token_list, r.add_count)) =
        some ([], 1)

/-- Whether found inds are moved or not. -/
theorem deleted_keyword_search_fails : DeletedFails false ∧ DeletedFails true := by
  suffices h : ∀ deleteResults, DeletedFails deleteResults from ⟨h false, h true⟩
  intro deleteResults
  refine ⟨by cases deleteResults <;> decide, by cases deleteResults <;> decide, _, _, rfl, ?_, ?_, ?_⟩
  · apply Option.map_eq_none_iff (f := Prod.snd).1
    cases deleteResults <;> decide +kernel
  · cases deleteResults <;> decide +kernel
  · cases deleteResults <;> decide +kernel

end Sse.Diana
