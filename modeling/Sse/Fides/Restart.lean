import Sse.Fides.Search

/-!
# Fides after a restart

A `FidesClient` that finds its key files builds its client and its server from them.  The
server has its database back; the client has its trapdoor and its derivation key, but its
counters lived in a map that no file holds, and `tdp_prg.key`, which it reads, was never
written.  So every keyword is unknown to the new client, and its updates go to tokens of
another generator.

    every search answers as before  ↔  no pair was inserted more often than deleted
                                                                  (preserved_iff)
-/

namespace Sse.Fides

section

variable {B ST : Type} (S : Setting B ST)

/-- The functions of a restarted client: `rsa_prg_` has the key in a missing file. -/
def Setting.restarted (emptyKey : Str → ST) : Setting B ST := { S with generateArray := emptyKey }

/-- `FidesClient::FidesClient` where the key files exist: an empty client over the database. -/
def restart (st : State B) : State B where
  ramCounter := fun _ => none
  edb := if S.usehdd then st.edb else fun _ => none

/-- A call of `insertKeyword` (true) or `deleteKeyword` (false). -/
abbrev Update := Str × UInt64 × Bool

variable [XorOp B] [DecidableEq B]

/-- A run of updates. -/
def updates (st : State B) (us : List Update) : State B :=
  us.foldl (fun st u => updateKeyword S st u.1 u.2.1 u.2.2) st

/-- A restart after the updates `us` changes no answer, and the updates `later` no entry. -/
structure Preserved (emptyKey : Str → ST) (us later : List Update) : Prop where
  search : ∀ w, (searchKeyword (S.restarted emptyKey) (restart S (updates S (init B) us)) w).map Prod.snd =
    (searchKeyword S (updates S (init B) us) w).map Prod.snd
  entries : ∀ t v, (updates S (init B) us).edb t = some v →
    (updates (S.restarted emptyKey) (restart S (updates S (init B) us)) later).edb t = some v

end

section

variable {B ST : Type} [XorOp B] [DecidableEq B] {S : Setting B ST} {W : Str → Prop}

theorem updates_concat (st : State B) (us : List Update) (u : Update) :
    updates S st (us ++ [u]) = updateKeyword S (updates S st us) u.1 u.2.1 u.2.2 := by
  rw [updates, List.foldl_append]
  rfl

/-! ## Before the restart -/

/-- The updates of a keyword, by counter. -/
def history (us : List Update) (w : Str) : List (Option (UInt64 × Bool)) :=
  (us.filter (·.1 = w)).map fun u => some u.2

theorem history_concat (us : List Update) (u : Update) :
    history (us ++ [u]) = Function.update (history us) u.1 (history us u.1 ++ [some u.2]) := by
  funext w
  rw [Function.update_apply]
  unfold history
  by_cases hw : w = u.1
  · simp [hw]
  · have hne : ¬ u.1 = w := fun e => hw e.symm
    simp [hw, hne]

theorem length_history_le (us : List Update) (w : Str) : (history us w).length ≤ us.length := by
  rw [history, List.length_map]
  exact List.length_filter_le _ _

theorem holds_updates (hS : Lawful S W) {us : List Update} (hW : ∀ u ∈ us, W u.1)
    (hind : ∀ u ∈ us, u.2.1.toNat < 10 ^ 9) (hlen : us.length < 2 ^ 32) :
    Holds S W (updates S (init B) us) (history us) := by
  induction us using List.reverseRecOn with
  | nil => exact holds_init
  | append_singleton us u ih =>
    rw [List.length_append, List.length_singleton] at hlen
    have hu : u ∈ us ++ [u] := by simp
    have h := ih (fun x hx => hW x (List.mem_append_left _ hx)) (fun x hx => hind x (List.mem_append_left _ hx))
      (by omega)
    have hle := length_history_le us u.1
    rw [updates_concat, history_concat]
    exact h.update hS (hW u hu) (hind u hu) (by omega) u.2.2

/-- The steps of an ind add up to its inserts less its deletions. -/
theorem net_history (us : List Update) (w : Str) (ind : UInt64) :
    Tally.net ((present (history us w)).map stepOf) ind =
      (us.count (w, ind, true) : Int) - us.count (w, ind, false) := by
  induction us using List.reverseRecOn with
  | nil => rfl
  | append_singleton us u ih =>
    obtain ⟨w', ind', ins⟩ := u
    rw [history_concat, List.count_append, List.count_append, List.count_singleton, List.count_singleton,
      Function.update_apply]
    by_cases hw : w = w'
    · subst hw
      rw [if_pos rfl, present_concat, List.map_append, List.map_singleton, Tally.net_append, ih, stepOf,
        Tally.net_singleton]
      by_cases hi : ind' = ind
      · subst hi
        cases ins
        · simp
          omega
        · simp
          omega
      · simp [hi]
    · have hne : ¬ w' = w := fun e => hw e.symm
      simp [hw, hne, ih]

/-- **The answers before the restart** are empty for all keywords if no pair is ahead. -/
theorem foundList_history_nil {us : List Update} (hlen : us.length < 2 ^ 31) (w : Str) :
    foundList (history us w) = [] ↔ ∀ ind, us.count (w, ind, true) ≤ us.count (w, ind, false) := by
  have hshort : ((present (history us w)).reverse.map stepOf).length < 2 ^ 31 := by
    have hle := length_history_le us w
    have hp : (present (history us w)).length ≤ (history us w).length := List.length_filterMap_le _ _
    rw [List.length_map, List.length_reverse]
    omega
  have hmem : ∀ ind, ind ∈ foundList (history us w) ↔
      (us.count (w, ind, false) : Int) < us.count (w, ind, true) := by
    intro ind
    rw [foundList, Tally.mem_count_pos (abs_stepOf_le _) hshort, Tally.net_perm ((List.reverse_perm _).map stepOf),
      net_history]
    omega
  rw [List.eq_nil_iff_forall_not_mem]
  apply forall_congr'
  intro ind
  rw [hmem]
  omega

/-! ## After the restart -/

/-- A keyword without a counter. -/
theorem searchKeyword_unknown {st : State B} {w : Str} (h : st.ramCounter w = none) :
    (searchKeyword S st w).map Prod.snd = some [] := by
  have hreply : serverSearch S S.deleteItems st.edb (searchRequest S st.ramCounter w) = (st.edb, []) := by
    unfold searchRequest
    rw [h]
    rfl
  unfold searchKeyword
  simp only [hreply, countReply, Option.bind_eq_bind, Option.bind_some]
  split <;> rfl

/-- The only entry an update writes. -/
theorem updateKeyword_edb (hz : ∀ st, S.invertMult st 0 = st) (hdd : S.usehdd = true) (st : State B) (u : Update) :
    ∃ i < 2 ^ 32, (updateKeyword S st u.1 u.2.1 u.2.2).edb =
      Function.update st.edb (token S u.1 i) (some (S.encode (valueText u.2.1 u.2.2) ^^^ mask S u.1 i)) := by
  refine ⟨(nextCnt (st.ramCounter u.1)).toNat, UInt32.toNat_lt _, ?_⟩
  have hchain : (if nextCnt (st.ramCounter u.1) = 0 then S.generateArray (S.getKeywordIndex u.1)
      else S.invertMult (S.generateArray (S.getKeywordIndex u.1)) (nextCnt (st.ramCounter u.1))) =
        chain S u.1 (nextCnt (st.ramCounter u.1)).toNat := by
    unfold chain
    rw [UInt32.ofNat_toNat]
    split
    · next h0 => rw [h0, hz]
    · rfl
  simp only [updateKeyword, keywordRequest, updateRequest, update, serverUpdate_eq, hdd, true_or, if_true, hchain,
    token, mask]

theorem owned_updates (hz : ∀ st, S.invertMult st 0 = st) (hdd : S.usehdd = true) (us : List Update) {t : B} {v : B}
    (h : (updates S (init B) us).edb t = some v) : ∃ u ∈ us, ∃ i < 2 ^ 32, t = token S u.1 i := by
  induction us using List.reverseRecOn generalizing v with
  | nil => cases h
  | append_singleton us u ih =>
    obtain ⟨i, hi, he⟩ := updateKeyword_edb hz hdd (updates S (init B) us) u
    rw [updates_concat, he, Function.update_apply] at h
    split at h
    · next ht => exact ⟨u, by simp, i, hi, ht⟩
    · obtain ⟨u', hu', rest⟩ := ih h
      exact ⟨u', List.mem_append_left _ hu', rest⟩

theorem updates_keep (hz : ∀ st, S.invertMult st 0 = st) (hdd : S.usehdd = true) (st : State B) (us : List Update) {t : B}
    (hne : ∀ u ∈ us, ∀ i < 2 ^ 32, t ≠ token S u.1 i) : (updates S st us).edb t = st.edb t := by
  induction us using List.reverseRecOn with
  | nil => rfl
  | append_singleton us u ih =>
    obtain ⟨i, hi, he⟩ := updateKeyword_edb hz hdd (updates S st us) u
    rw [updates_concat, he, Function.update_of_ne (hne u (by simp) i hi)]
    exact ih fun u' hu' => hne u' (List.mem_append_left _ hu')

/-- **A restart keeps the answers** exactly if there were none to keep. -/
theorem preserved_iff [LawfulXor B] {emptyKey : Str → ST} {us later : List Update}
    (hS : Lawful S fun w => ∃ u ∈ us, u.1 = w) (hdd : S.usehdd = true) (hind : ∀ u ∈ us, u.2.1.toNat < 10 ^ 9)
    (hlen : us.length < 2 ^ 31) (hfresh : ∀ u ∈ us, ∀ u' ∈ later, ∀ i < 2 ^ 32, ∀ i' < 2 ^ 32,
      token S u.1 i ≠ token (S.restarted emptyKey) u'.1 i') :
    Preserved S emptyKey us later ↔ ∀ w ind, us.count (w, ind, true) ≤ us.count (w, ind, false) := by
  have hafter : ∀ w, (searchKeyword (S.restarted emptyKey) (restart S (updates S (init B) us)) w).map Prod.snd = some [] :=
    fun w => searchKeyword_unknown rfl
  have hent := holds_updates hS (fun u hu => ⟨u, hu, rfl⟩) hind (by omega)
  have hbefore : ∀ w, (searchKeyword S (updates S (init B) us) w).map Prod.snd = some (foundList (history us w)) := by
    intro w
    by_cases hw : ∃ u ∈ us, u.1 = w
    · rw [hent.searchKeyword_eq hS hw]
      rfl
    · -- no update, no counter
      have hnil : history us w = [] := by
        rw [history, List.map_eq_nil_iff, List.filter_eq_nil_iff]
        intro u hu
        simpa using fun e => hw ⟨u, hu, e⟩
      rw [searchKeyword_unknown (by rw [hent.cnt, if_pos hnil]), hnil]
      rfl
  constructor
  · intro h w
    have hw := h.search w
    rw [hafter, hbefore, Option.some.injEq] at hw
    exact (foundList_history_nil hlen w).1 hw.symm
  · intro h
    constructor
    · intro w
      rw [hafter, hbefore, (foundList_history_nil hlen w).2 (h w)]
    · intro t v ht
      obtain ⟨u, hu, i, hi, rfl⟩ := owned_updates hS.invertMult_zero hdd us ht
      rw [updates_keep (S := S.restarted emptyKey) hS.invertMult_zero hdd _ later
        fun u' hu' i' hi' => hfresh u hu u' hu' i hi i' hi']
      show (if S.usehdd then (updates S (init B) us).edb else fun _ => none) (token S u.1 i) = some v
      rw [if_pos hdd]
      exact ht

end

end Sse.Fides
