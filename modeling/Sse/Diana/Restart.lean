import Sse.Diana.Deleted
import Sse.Fides.Restart

/-!
# Diana after a restart

A single-machine `DianaInterface` that finds its key files builds both clients from the keys
of the insert client.  The two databases are there again; the token names, the counters of
both clients and `delCntMap` were fields of the old objects, and start empty.  Every keyword
is unknown then, and its next insert is counter 0 of the same internal key, whose entry it
overwrites (`insert_overwrites`).

    Fides:  restart preserves the index  ↔  no pair was inserted more often than deleted
    Diana:  restart preserves the index  ↔  there was no update at all
                                                                  (restart_preserves_iff)
-/

namespace Sse.Diana

section

variable {B : Type} (S : Setting B)

/-- The functions of a restarted interface: `clientDel` gets the keys of `clientIns`. -/
def Setting.restarted : Setting B := { S with del := { S.del with rootPrf := S.ins.rootPrf } }

/-- `initializeClientAndServer` where the key files exist. -/
def restart (st : State B) : State B :=
  { init S with
    edbIns := if S.usehdd then st.edbIns else fun _ => none
    edbDel := if S.usehdd then st.edbDel else fun _ => none }

/-- A call of `insertKeyword` (true) or `deleteKeyword` (false). -/
abbrev Update := Str × UInt64 × Bool

variable [DecidableEq B] [XorOp B]

def updateKeyword (st : State B) (u : Update) : State B :=
  if u.2.2 then insertKeyword S st u.1 u.2.1 else deleteKeyword S st u.1 u.2.1

/-- A run of updates. -/
def updates (st : State B) (us : List Update) : State B := us.foldl (updateKeyword S) st

/-- A restart after the updates `us` changes no answer, and the updates `later` no entry. -/
structure Preserved (us later : List Update) : Prop where
  search : ∀ w, (searchKeyword S.restarted (restart S (updates S (init S) us)) w).map Prod.snd =
    (searchKeyword S (updates S (init S) us) w).map Prod.snd
  ins : ∀ t v, (updates S (init S) us).edbIns t = some v →
    (updates S.restarted (restart S (updates S (init S) us)) later).edbIns t = some v
  del : ∀ t v, (updates S (init S) us).edbDel t = some v →
    (updates S.restarted (restart S (updates S (init S) us)) later).edbDel t = some v

end

section

variable {B : Type} [DecidableEq B] [XorOp B] {S : Setting B}

/-! ## Before the restart -/

omit [DecidableEq B] [XorOp B] in
/-- Something was deleted under the keyword's current key. -/
def Deleting (st : State B) (w : Str) : Prop := ∃ key, st.keywordsToken w = some key ∧ st.ramDel key ≠ none

omit [DecidableEq B] [XorOp B] in
/-- A keyword keeps its key. -/
theorem updateKey_keeps {st : State B} {w' key : Str} (h : st.keywordsToken w' = some key) (w : Str) :
    (updateKey st w).1.keywordsToken w' = some key := by
  rw [(updateKey_spec st w).1, Function.update_apply]
  split
  · next e =>
    rw [← e, updateKey_of_some h]
  · exact h

theorem ramDel_deleteKeyword (st : State B) (w : Str) (ind : UInt64) :
    (deleteKeyword S st w ind).ramDel =
      Function.update st.ramDel (updateKey st w).2 (some (nextCnt (st.ramDel (updateKey st w).2))) := by
  obtain ⟨-, -, -, hdel⟩ := updateKey_spec st w
  simp only [deleteKeyword, updateRequest, hdel]

omit [XorOp B] in
theorem Deleting.insert {st : State B} {w' : Str} (h : Deleting st w') (w : Str) (ind : UInt64) :
    Deleting (insertKeyword S st w ind) w' := by
  obtain ⟨key, hkey, hram⟩ := h
  refine ⟨key, updateKey_keeps hkey w, ?_⟩
  show (updateKey st w).1.ramDel key ≠ none
  rw [(updateKey_spec st w).2.2.2]
  exact hram

theorem Deleting.delete {st : State B} {w' : Str} (h : Deleting st w') (w : Str) (ind : UInt64) :
    Deleting (deleteKeyword S st w ind) w' := by
  obtain ⟨key, hkey, hram⟩ := h
  refine ⟨key, updateKey_keeps hkey w, ?_⟩
  rw [ramDel_deleteKeyword, Function.update_apply]
  split
  · simp
  · exact hram

theorem Deleting.delete_self (st : State B) (w : Str) (ind : UInt64) : Deleting (deleteKeyword S st w ind) w := by
  refine ⟨(updateKey st w).2, ?_, ?_⟩
  · show (updateKey st w).1.keywordsToken w = _
    rw [(updateKey_spec st w).1, Function.update_self]
  · rw [ramDel_deleteKeyword, Function.update_self]
    simp

/-- What the updates `us` leave behind: entries for all counters, a key in use for every keyword,
and nothing in `delCntMap` if nothing was inserted. -/
structure Updated (S : Setting B) (us : List Update) (st : State B) : Prop where
  ins : Filled S.ins st.ramIns st.edbIns
  del : Filled S.del st.ramDel st.edbDel
  key : ∀ w key, st.keywordsToken w = some key → key = w ++ toStr 1
  inUse : ∀ w ind, (w, ind, true) ∈ us → InUse st w
  deleting : ∀ w ind, (w, ind, false) ∈ us → Deleting st w
  zero : (∀ w ind, (w, ind, true) ∉ us) → st.delCntMap = fun _ => S.zero

omit [DecidableEq B] [XorOp B] in
theorem Updated.key_updateKey {us : List Update} {st : State B} (h : Updated S us st) (w : Str) :
    (updateKey st w).2 = w ++ toStr 1 := by
  unfold updateKey
  cases hkey : st.keywordsToken w with
  | none => rfl
  | some key => exact h.key w key hkey

omit [DecidableEq B] [XorOp B] in
/-- An update of `w` leaves all keys as they should be. -/
theorem Updated.keys {us : List Update} {st : State B} (h : Updated S us st) (w w' key : Str)
    (hkey : (updateKey st w).1.keywordsToken w' = some key) : key = w' ++ toStr 1 := by
  rw [(updateKey_spec st w).1, Function.update_apply] at hkey
  split at hkey
  · next e =>
    rw [e, ← Option.some.inj hkey]
    exact h.key_updateKey w
  · exact h.key w' key hkey

omit [DecidableEq B] [XorOp B] in
theorem updated_init : Updated S [] (init S) where
  ins _ _ h := by cases h
  del _ _ h := by cases h
  key _ _ h := by cases h
  inUse _ _ h := by cases h
  deleting _ _ h := by cases h
  zero _ := rfl

omit [XorOp B] in
theorem Updated.insert {us : List Update} {st : State B} (h : Updated S us st) (w : Str) (ind : UInt64) :
    Updated S (us ++ [(w, ind, true)]) (insertKeyword S st w ind) := by
  obtain ⟨-, hram, hedb, hdel⟩ := updateKey_spec st w
  have hedbDel : (updateKey st w).1.edbDel = st.edbDel := by
    unfold updateKey
    split <;> rfl
  constructor
  · have hnew := h.ins.update S.usehdd (updateKey st w).2 ind
    simp only [insertKeyword, hram, hedb]
    exact hnew
  · show Filled S.del (updateKey st w).1.ramDel (updateKey st w).1.edbDel
    rw [hdel, hedbDel]
    exact h.del
  · exact h.keys w
  · intro w' x hmem
    rcases List.mem_append.1 hmem with hm | hm
    · exact (h.inUse w' x hm).insert S w ind
    · obtain ⟨rfl, -⟩ := Prod.mk.inj (List.mem_singleton.1 hm)
      exact InUse.insert_self S st w' ind
  · intro w' x hmem
    rcases List.mem_append.1 hmem with hm | hm
    · exact (h.deleting w' x hm).insert w ind
    · simp at hm
  · intro hno
    exact absurd (List.mem_append_right us (List.mem_singleton_self _)) (hno w ind)

theorem Updated.delete {us : List Update} {st : State B} (h : Updated S us st) (w : Str) (ind : UInt64) :
    Updated S (us ++ [(w, ind, false)]) (deleteKeyword S st w ind) := by
  obtain ⟨-, hram, hedb, hdel⟩ := updateKey_spec st w
  have hold : (updateKey st w).1.edbDel = st.edbDel ∧ (updateKey st w).1.delCntMap = st.delCntMap := by
    unfold updateKey
    split <;> exact ⟨rfl, rfl⟩
  constructor
  · show Filled S.ins (updateKey st w).1.ramIns (updateKey st w).1.edbIns
    rw [hram, hedb]
    exact h.ins
  · have hnew := h.del.update S.usehdd (updateKey st w).2 (delCntKey S (updateKey st w).2 ind)
    simp only [deleteKeyword, hdel, hold.1]
    exact hnew
  · exact h.keys w
  · intro w' x hmem
    rcases List.mem_append.1 hmem with hm | hm
    · exact (h.inUse w' x hm).delete S w ind
    · simp at hm
  · intro w' x hmem
    rcases List.mem_append.1 hmem with hm | hm
    · exact (h.deleting w' x hm).delete w ind
    · obtain ⟨rfl, -⟩ := Prod.mk.inj (List.mem_singleton.1 hm)
      exact Deleting.delete_self st w' ind
  · intro hno
    show (updateKey st w).1.delCntMap = _
    rw [hold.2]
    exact h.zero fun w' x hm => hno w' x (List.mem_append_left _ hm)

theorem updated_run (us : List Update) : Updated S us (updates S (init S) us) := by
  induction us using List.reverseRecOn with
  | nil => exact updated_init
  | append_singleton us u ih =>
    obtain ⟨w, ind, ins⟩ := u
    rw [updates, List.foldl_append]
    cases ins
    · exact ih.delete w ind
    · exact ih.insert w ind

/-! ## Answers -/

/-- The answer is that of the query of the keyword's key. -/
theorem searchKeyword_snd (st : State B) (w : Str) :
    (searchKeyword S st w).map Prod.snd = queryKey S st ((st.keywordsToken w).getD []) := by
  have hq : queryKey S (touchKey st w).1 (touchKey st w).2 = queryKey S st ((st.keywordsToken w).getD []) := rfl
  unfold searchKeyword
  simp only [hq]
  cases queryKey S st ((st.keywordsToken w).getD []) with
  | none => rfl
  | some resIns =>
    simp only [Option.bind_eq_bind, Option.bind_some]
    split <;> rfl

/-- Nothing is found under a key without counters. -/
theorem queryKey_unknown {st : State B} {key : Str} (hi : st.ramIns key = none) (hd : st.ramDel key = none) :
    queryKey S st key = some [] := by
  have hdel : searchRequest S.del st.ramDel key = some ⟨[], 0⟩ := by simp only [searchRequest, hd]
  have hins : searchRequestDel S.ins st.ramIns key [] = some ⟨[], 0⟩ := by simp only [searchRequestDel, hi]
  have hcnts : deletedCounters S st key = some [] := by
    simp only [deletedCounters, hdel]
    rfl
  rw [queryKey_eq, hcnts, Option.bind_some, hins, Option.bind_some]
  rfl

/-- **A keyword with updates never answers with the empty list**: what was inserted is found or the
process ends, and a deletion without inserts meets the zero block. -/
theorem Updated.answers {us : List Update} {st : State B} (h : Updated S us st)
    (hs : Splits S.ins.derive S.ins.derive32) (hs' : Splits S.del.derive S.del.derive32)
    (hz : parseCnt S S.zero = none) (hne : us ≠ []) :
    ∃ w, queryKey S st ((st.keywordsToken w).getD []) ≠ some [] := by
  by_cases hins : ∃ w ind, (w, ind, true) ∈ us
  · obtain ⟨w, ind, hm⟩ := hins
    obtain ⟨c, hc⟩ := Option.ne_none_iff_exists'.1 (h.inUse w ind hm).ramIns_ne_none
    refine ⟨w, fun hq => ?_⟩
    rw [queryKey_eq] at hq
    obtain ⟨dels, -, hd⟩ := Option.bind_eq_some_iff.1 hq
    exact query_ne_nil hs hc (h.ins _ c hc) dels hd
  · push Not at hins
    obtain ⟨⟨w, ind, ins⟩, us', rfl⟩ := List.exists_cons_of_ne_nil hne
    have hdel : ins = false := by
      cases ins
      · rfl
      · exact absurd List.mem_cons_self (hins w ind)
    subst hdel
    obtain ⟨key, hkey, hram⟩ := h.deleting w ind List.mem_cons_self
    obtain ⟨c, hc⟩ := Option.ne_none_iff_exists'.1 hram
    refine ⟨w, fun hq => ?_⟩
    rw [hkey, Option.getD_some, queryKey_eq] at hq
    obtain ⟨dels, hcnts, -⟩ := Option.bind_eq_some_iff.1 hq
    unfold deletedCounters at hcnts
    simp only [Option.bind_eq_bind] at hcnts
    obtain ⟨req, hreq, hcnts⟩ := Option.bind_eq_some_iff.1 hcnts
    obtain ⟨resDel, hres, hparse⟩ := Option.bind_eq_some_iff.1 hcnts
    -- the deletions are found
    have hsome : resDel ≠ [] := by
      rintro rfl
      apply query_ne_nil hs' hc (h.del key c hc) []
      have hsame : searchRequestDel S.del st.ramDel key [] = searchRequest S.del st.ramDel key := by
        unfold searchRequestDel searchRequest
        rw [hc]
        rfl
      rw [hsame, hreq, Option.bind_some, hres]
    obtain ⟨item, rest, rfl⟩ := List.exists_cons_of_ne_nil hsome
    rw [List.mapM_cons, h.zero hins, hz] at hparse
    cases hparse

/-- **A restart preserves the index** of an interface that was never updated, and of no other. -/
theorem preserved_iff (hs : Splits S.ins.derive S.ins.derive32) (hs' : Splits S.del.derive S.del.derive32)
    (hz : parseCnt S S.zero = none) (us later : List Update) : Preserved S us later ↔ us = [] := by
  have hafter : ∀ w, (searchKeyword S.restarted (restart S (updates S (init S) us)) w).map Prod.snd = some [] := by
    intro w
    rw [searchKeyword_snd]
    exact queryKey_unknown rfl rfl
  constructor
  · intro h
    by_contra hne
    obtain ⟨w, hw⟩ := (updated_run us).answers hs hs' hz hne
    have hsame := h.search w
    rw [hafter, searchKeyword_snd] at hsame
    exact hw hsame.symm
  · rintro rfl
    refine ⟨fun w => ?_, fun t v ht => ?_, fun t v ht => ?_⟩
    · rw [hafter, searchKeyword_snd]
      exact (queryKey_unknown rfl rfl).symm
    · cases ht
    · cases ht

/-- **The first insert after a restart** goes to the token of the first insert before it. -/
theorem insert_overwrites (hdd : S.usehdd = true) {us : List Update} {w : Str} {ind : UInt64}
    (hm : (w, ind, true) ∈ us) (x : UInt64) :
    (updates S (init S) us).edbIns (token S.ins (w ++ toStr 1) 0) ≠ none ∧
      (insertKeyword S.restarted (restart S (updates S (init S) us)) w x).edbIns (token S.ins (w ++ toStr 1) 0) =
        some (x ^^^ S.ins.mask (leaf S.ins (w ++ toStr 1) 0)) := by
  have h := updated_run (S := S) us
  obtain ⟨key, hkey, hram⟩ := h.inUse w ind hm
  obtain rfl := h.key w key hkey
  obtain ⟨c, hc⟩ := Option.ne_none_iff_exists'.1 hram
  refine ⟨h.ins _ c hc 0 (Nat.zero_le _), ?_⟩
  have hnext : (updates S (init S) us).edbIns = (restart S (updates S (init S) us)).edbIns := by
    show _ = if S.usehdd then _ else _
    rw [if_pos hdd]
  have hreq : updateRequest S.ins (restart S (updates S (init S) us)).ramIns (w ++ toStr 1) x =
      (Function.update (fun _ => none) (w ++ toStr 1) (some 0),
        (token S.ins (w ++ toStr 1) 0, x ^^^ S.ins.mask (leaf S.ins (w ++ toStr 1) 0)), 0) := rfl
  show serverUpdate S.usehdd (restart S (updates S (init S) us)).edbIns
    (updateRequest S.ins (restart S (updates S (init S) us)).ramIns (w ++ toStr 1) x).2.1 _ = _
  rw [hreq, serverUpdate_eq, if_pos (Or.inl hdd)]
  exact Function.update_self _ _ _

end

end Sse.Diana

namespace Sse

/-- **A restart preserves the index** of Fides exactly if no pair was inserted more often than it was
deleted, so that there was nothing to find, and that of Diana exactly if it was never updated. -/
theorem restart_preserves_iff {B ST D : Type} [XorOp B] [DecidableEq B] [LawfulXor B] [XorOp D] [DecidableEq D]
    (S : Fides.Setting B ST) (hdd : S.usehdd = true) (emptyKey : Str → ST) (us later : List Fides.Update)
    (hS : Fides.Lawful S fun w => ∃ u ∈ us, u.1 = w) (hind : ∀ u ∈ us, u.2.1.toNat < 10 ^ 9)
    (hlen : us.length < 2 ^ 31) (hfresh : ∀ u ∈ us, ∀ u' ∈ later, ∀ i < 2 ^ 32, ∀ i' < 2 ^ 32,
      Fides.token S u.1 i ≠ Fides.token (S.restarted emptyKey) u'.1 i')
    (T : Diana.Setting D) (hs : Diana.Splits T.ins.derive T.ins.derive32)
    (hs' : Diana.Splits T.del.derive T.del.derive32) (hz : Diana.parseCnt T T.zero = none)
    (dus dlater : List Diana.Update) :
    (Fides.Preserved S emptyKey us later ↔ ∀ w ind, us.count (w, ind, true) ≤ us.count (w, ind, false)) ∧
      (Diana.Preserved T dus dlater ↔ dus = []) :=
  ⟨Fides.preserved_iff hS hdd hind hlen hfresh, Diana.preserved_iff hs hs' hz dus dlater⟩

/-- A generator whose texts are longer than those of the free instance. -/
def otherKey (seed : Str) : Str × UInt32 := (7 :: seed, 0)

/-- An insert that was deleted again, and another one after the restart. -/
theorem restart_preserves_iff_a :
    (Fides.Preserved (Fides.freeSetting true false) otherKey [([97], 1, true), ([97], 1, false)] [([97], 2, true)] ↔
      ∀ w ind, [([97], 1, true), ([97], 1, false)].count ((w, ind, true) : Fides.Update) ≤
        [([97], 1, true), ([97], 1, false)].count ((w, ind, false) : Fides.Update)) ∧
      (Diana.Preserved (Diana.freeSetting true false) [] [([97], 2, true)] ↔ ([] : List Diana.Update) = []) := by
  refine restart_preserves_iff (Fides.freeSetting true false) rfl otherKey _ _ (Fides.lawful_free _ _ _) (by simp)
    (by simp) ?_ (Diana.freeSetting true false) (Diana.freePrims_splits _) (Diana.freePrims_splits _) (by decide) _ _
  intro u hu u' hu' i _ i' _ h
  have hlen := congrArg List.length h
  have h1 : u.1.length = 1 := by
    simp only [List.mem_cons, List.not_mem_nil, or_false] at hu
    rcases hu with rfl | rfl <;> rfl
  have h2 : u'.1.length = 1 := by
    rw [List.mem_singleton.1 hu']
    rfl
  have hl : (Fides.token (Fides.freeSetting true false) u.1 i).length = u.1.length + 4 := List.length_append
  have hr : (Fides.token ((Fides.freeSetting true false).restarted otherKey) u'.1 i').length = u'.1.length + 1 + 4 :=
    List.length_append
  omega

/-- One insert is lost by either scheme, and Diana's next insert takes its place. -/
theorem restart_loses_index :
    ¬ Fides.Preserved (Fides.freeSetting true false) otherKey [([97], 1, true)] [([97], 2, true)] ∧
      ¬ Diana.Preserved (Diana.freeSetting true false) [([97], 1, true)] [([97], 2, true)] := by
  constructor
  · intro h
    exact absurd (h.search [97]) (by decide +kernel)
  · intro h
    exact absurd (h.search [97]) (by decide +kernel)

end Sse
