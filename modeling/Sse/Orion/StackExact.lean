import Sse.Orion.Invariant
import Sse.Orion.Stack

/-!
# Exact searches over the ORAMs

A map has a key for every pair that was ever inserted, and no more slots than pairs (`Counts`).
So an Orion for which fewer than `fib (depth + 5) - 1` pairs are inserted never fails, and its
searches are exact (`stack_search_exact`).
-/

namespace Sse.Orion.Stack

open Omap (Fits)

section

variable {depth fuel : Nat} {a : Orion.State}

/-! ## How many keys there are -/

theorem put_keys {m : OMap} {key : Bid 16} (h : m key ≠ none) (v : Str) (k : Bid 16) : put m key v k ≠ none ↔ m k ≠ none := by
  rw [put_apply]
  split_ifs with hk
  · rw [hk]
    exact ⟨fun _ => h, fun _ => by simp⟩
  · exact Iff.rfl

/-- A removal puts no new keys into the maps. -/
theorem RepAt.remove_keys {w : Str} {l : List Int32} {dead : Int32 → Prop} (h : RepAt a w l dead) (ind : Int32) :
    (∀ k, (Orion.remove a w ind).1.updt k ≠ none ↔ a.updt k ≠ none) ∧
      ∀ k, (Orion.remove a w ind).1.srch k ≠ none ↔ a.srch k ≠ none := by
  by_cases hl : ind ∈ l
  · obtain ⟨i, hi⟩ := List.mem_iff_getElem?.1 hl
    have hlt := lt_of_getElem?_eq_some hi
    have hb := h.bound
    have hind : a.updt (createBid w ind) ≠ none := by
      rw [h.slot i ind hi]
      simp
    have hslot : a.srch (createBid w (Int32.ofNat (i + 1))) ≠ none := by
      rw [h.srch i ind hi]
      simp
    -- the ind that fills the hole has a key of its own
    have hlast : a.updt (createBid w ((a.lastIND w).getD 0)) ≠ none := by
      have hget := getElem?_last (show 0 < l.length by omega)
      rw [h.last, ← List.getLastD_eq_getLast?, h.slot _ _ hget]
      simp
    unfold Orion.remove
    simp only [h.find_live hi, stoi_slot (show i + 1 < 2 ^ 31 by omega)]
    rw [if_pos ((ofNat_pos (by omega)).2 (by omega))]
    set cnt := (a.updtCnt w).getD 0 - 1
    set a1 : Orion.State := { a with
      updt := put a.updt (createBid w ind) (toStr (-1))
      updtCnt := Function.update a.updtCnt w (some cnt) } with ha1
    have hone : ∀ k, a1.updt k ≠ none ↔ a.updt k ≠ none := put_keys hind _
    by_cases hmore : 0 < cnt
    · rw [if_pos hmore]
      set a2 := if cnt + 1 ≠ Int32.ofNat (i + 1) then Orion.fillHole a1 w (Int32.ofNat (i + 1)) (toStr ((i + 1 : Nat) : Int))
        else a1 with ha2
      show (∀ k, (lastOf a2 w cnt).1.updt k ≠ none ↔ _) ∧ ∀ k, (lastOf a2 w cnt).1.srch k ≠ none ↔ _
      rw [(lastOf_maps a2 w cnt).1, (lastOf_maps a2 w cnt).2, ha2]
      split_ifs
      · refine ⟨fun k => (put_keys ?_ _ k).trans (hone k), put_keys hslot _⟩
        exact (hone _).2 hlast
      · exact ⟨hone, fun k => Iff.rfl⟩
    · rw [if_neg hmore]
      exact ⟨hone, fun k => Iff.rfl⟩
  · by_cases hd : dead ind
    · rw [h.remove_dead hl hd]
      exact ⟨fun k => Iff.rfl, fun k => Iff.rfl⟩
    · rw [h.remove_absent hl hd]
      exact ⟨fun k => Iff.rfl, fun k => Iff.rfl⟩

/-- The keys of the pairs that were inserted. -/
def insertedKeys (ops : List Op) : Finset (Bid 16) :=
  (ops.filterMap fun op => match op with
    | .insert w ind => some (createBid w ind)
    | _ => none).toFinset

/-- `updt` has keys of inserted pairs, and `srch` no more keys than `updt`. -/
def Counts (ops : List Op) (a : Orion.State) : Prop :=
  ∃ U V : Finset (Bid 16), (∀ k, k ∈ U ↔ a.updt k ≠ none) ∧ (∀ k, a.srch k ≠ none → k ∈ V) ∧ V.card ≤ U.card ∧
    U ⊆ insertedKeys ops

theorem insertedKeys_concat (ops : List Op) (op : Op) : insertedKeys ops ⊆ insertedKeys (ops ++ [op]) := by
  intro k hk
  rw [insertedKeys, List.mem_toFinset] at hk ⊢
  rw [List.filterMap_append]
  exact List.mem_append_left _ hk

theorem mem_insertedKeys_concat (ops : List Op) (w : Str) (ind : Int32) :
    createBid w ind ∈ insertedKeys (ops ++ [.insert w ind]) := by
  rw [insertedKeys, List.mem_toFinset, List.filterMap_append]
  exact List.mem_append_right _ List.mem_cons_self

theorem Counts.mono {ops : List Op} (h : Counts ops a) {a' : Orion.State} (op : Op)
    (hu : ∀ k, a'.updt k ≠ none ↔ a.updt k ≠ none) (hs : ∀ k, a'.srch k ≠ none ↔ a.srch k ≠ none) :
    Counts (ops ++ [op]) a' := by
  obtain ⟨U, V, hU, hV, hcard, hsub⟩ := h
  exact ⟨U, V, fun k => (hU k).trans (hu k).symm, fun k hk => hV k ((hs k).1 hk), hcard,
    hsub.trans (insertedKeys_concat ops op)⟩

/-- **One call** on a keyword whose slots are in order. -/
theorem Counts.step {ops : List Op} (h : Counts ops a) (op : Op) {l : List Int32} {dead : Int32 → Prop}
    (hrep : RepAt a op.keyword l dead) : Counts (ops ++ [op]) (Orion.step a op).1 := by
  cases op with
  | search w => exact h.mono _ (fun k => Iff.rfl) fun k => Iff.rfl
  | remove w ind =>
    obtain ⟨hu, hs⟩ := RepAt.remove_keys (w := w) hrep ind
    exact h.mono _ hu hs
  | insert w ind =>
    have hrep' : RepAt a w l dead := hrep
    by_cases hp : ind ∈ l ∨ dead ind
    · have hskip : (Orion.step a (.insert w ind)).1 = a := hrep'.insert_skip hp
      rw [hskip]
      exact h.mono _ (fun k => Iff.rfl) fun k => Iff.rfl
    · obtain ⟨hl, hd⟩ := not_or.1 hp
      obtain ⟨U, V, hU, hV, hcard, hsub⟩ := h
      have hnew : createBid w ind ∉ U := by
        rw [hU, hrep'.absent ind hl hd]
        simp
      have hstep : (Orion.step a (.insert w ind)).1 = Orion.insert a w ind := rfl
      rw [hstep, Orion.insert]
      dsimp only
      rw [if_pos ((hrep'.find_eq_nil ind).2 ⟨hl, hd⟩)]
      refine ⟨Insert.insert (createBid w ind) U,
        Insert.insert (createBid w ((a.updtCnt w).getD 0 + 1)) V, fun k => ?_, fun k hk => ?_, ?_, ?_⟩
      · show _ ↔ put a.updt (createBid w ind) _ k ≠ none
        rw [Finset.mem_insert, hU, put_apply]
        split_ifs with hk
        · simp [hk]
        · simp [hk]
      · have hk' : put a.srch (createBid w ((a.updtCnt w).getD 0 + 1)) (toStr ind.toInt) k ≠ none := hk
        rw [put_apply] at hk'
        rw [Finset.mem_insert]
        split_ifs at hk' with he
        · exact Or.inl he
        · exact Or.inr (hV k hk')
      · rw [Finset.card_insert_of_notMem hnew]
        exact (Finset.card_insert_le _ _).trans (Nat.succ_le_succ hcard)
      · intro k hk
        rcases Finset.mem_insert.1 hk with rfl | hk
        · exact mem_insertedKeys_concat ops w ind
        · exact insertedKeys_concat ops _ (hsub hk)

theorem Counts.fits {ops : List Op} (h : Counts ops a) (hfew : (insertedKeys ops).card + 1 < Nat.fib (depth + 5)) :
    FitsBoth depth a := by
  obtain ⟨U, V, hU, hV, hcard, hsub⟩ := h
  have hle := Finset.card_le_card hsub
  constructor
  · intro K hK
    have := Finset.card_le_card (fun k hk => hV k (hK k hk) : K ⊆ V)
    omega
  · intro K hK
    have := Finset.card_le_card (fun k hk => (hU k).2 (hK k hk) : K ⊆ U)
    omega

/-- A keyword has no more slots than there are pairs. -/
theorem Counts.length_le {ops : List Op} (h : Counts ops a) {w : Str} {l : List Int32} {dead : Int32 → Prop}
    (hrep : RepAt a w l dead) : l.length ≤ (insertedKeys ops).card := by
  obtain ⟨U, V, hU, -, -, hsub⟩ := h
  have hinj : (l.map (createBid w)).Nodup := hrep.nodup.map fun x y he => (createBid_inj_right w).1 he
  have hmem : (l.map (createBid w)).toFinset ⊆ U := by
    intro k hk
    rw [List.mem_toFinset] at hk
    obtain ⟨x, hx, rfl⟩ := List.mem_map.1 hk
    obtain ⟨i, hi⟩ := List.mem_iff_getElem?.1 hx
    rw [hU, hrep.slot i x hi]
    simp
  calc l.length = (l.map (createBid w)).toFinset.card := by rw [List.toFinset_card_of_nodup hinj, List.length_map]
    _ ≤ U.card := Finset.card_le_card hmem
    _ ≤ (insertedKeys ops).card := Finset.card_le_card hsub

theorem insertedKeys_mono (pre post : List Op) : insertedKeys pre ⊆ insertedKeys (pre ++ post) := by
  intro k hk
  rw [insertedKeys, List.mem_toFinset] at hk ⊢
  rw [List.filterMap_append]
  exact List.mem_append_left _ hk

/-- The pairs that fit can be counted with an `int`. -/
theorem fib_lt (maxSize : Nat) (h : maxSize * 4 < 2 ^ 31) : Nat.fib (Nat.log 2 maxSize + 5) < 2 ^ 31 - 2 := by
  have hlog : Nat.log 2 maxSize < 29 := Nat.log_lt_of_lt_pow' (by decide) (by omega)
  have hfib : Nat.fib 33 < 2 ^ 31 - 2 := by decide +kernel
  exact lt_of_le_of_lt (Nat.fib_mono (by omega)) hfib

/-- In a run of few pairs every state is reachable and fits. -/
theorem counts_after {ops : List Op} (hops : ∀ op ∈ ops, Keyed op.keyword) (hfew : (insertedKeys ops).card < 2 ^ 31 - 1) :
    Reachable (after ops) ∧ Counts ops (after ops) := by
  induction ops using List.reverseRecOn with
  | nil => exact ⟨.init, ∅, ∅, fun k => by simp [init], fun k hk => absurd rfl hk, le_rfl, by simp⟩
  | append_singleton pre op ih =>
    have hop : Keyed op.keyword := hops op (List.mem_append_right _ List.mem_cons_self)
    have hpre := Finset.card_le_card (insertedKeys_mono pre [op])
    obtain ⟨hreach, hcounts⟩ := ih (fun op hop => hops op (List.mem_append_left _ hop)) (by omega)
    obtain ⟨l, dead, hrep⟩ := hreach.repAt hop.toValid
    have hdef : Defined (after pre) op := by
      cases op with
      | remove w ind => trivial
      | search w => trivial
      | insert w ind =>
        -- the slots of the keyword are counted by its pairs
        intro _ hmaxValue
        have hcnt : ((after pre).updtCnt w).getD 0 = Int32.ofNat l.length := hrep.cnt
        rw [hcnt] at hmaxValue
        have hlen := hcounts.length_le hrep
        have hmaxInt : Int32.ofNat l.length = Int32.ofNat (2 ^ 31 - 1) := hmaxValue
        have := ofNat_inj_small (by omega) (by omega) hmaxInt
        omega
    rw [after_concat]
    exact ⟨hreach.call op hop.toValid hdef, hcounts.step op hrep⟩

/-- Removes of pairs inserted before, and no insert of a pair that was removed. -/
def Once (pre : List Op) : Op → Prop
  | .insert w ind => .remove w ind ∉ pre
  | .remove w ind => .insert w ind ∈ pre
  | .search _ => True

instance decidableOnce (pre : List Op) : ∀ op, Decidable (Once pre op)
  | .insert w ind => inferInstanceAs (Decidable (Op.remove w ind ∉ pre))
  | .remove w ind => inferInstanceAs (Decidable (Op.insert w ind ∈ pre))
  | .search _ => isTrue trivial

theorem length_liveInds_le (ops : List Op) (w : Str) : (liveInds ops w).length ≤ (insertedKeys ops).card := by
  have hnodup : (liveInds ops w).Nodup := List.nodup_dedup _
  have hinj : ((liveInds ops w).map (createBid w)).Nodup := hnodup.map fun x y he => (createBid_inj_right w).1 he
  rw [← List.length_map (createBid w), ← List.toFinset_card_of_nodup hinj]
  refine Finset.card_le_card fun k hk => ?_
  rw [List.mem_toFinset] at hk
  obtain ⟨ind, hind, rfl⟩ := List.mem_map.1 hk
  rw [insertedKeys, List.mem_toFinset]
  exact List.mem_filterMap.2 ⟨_, insert_mem_of_live (mem_liveInds.1 hind), rfl⟩

/-- **Orion over its ORAMs answers every search exactly**: in a run that removes only pairs inserted before, inserts no
removed pair again and inserts fewer than `fib (depth + 5) - 1` pairs, no call throws, and every search returns each
live ind of its keyword once and nothing else. -/
theorem stack_search_exact (maxSize : Nat) (hmax : maxSize * 4 < 2 ^ 31) (rnd1 rnd2 : Nat → Nat)
    (h1 : ∀ i, rnd1 i < 2 ^ Nat.log 2 maxSize) (h2 : ∀ i, rnd2 i < 2 ^ Nat.log 2 maxSize) (ops : List Op)
    (hops : ∀ op ∈ ops, Keyed op.keyword) (honce : Runs.Each Once [] ops)
    (hroom : (insertedKeys ops).card + 1 < Nat.fib (Nat.log 2 maxSize + 5)) (fuel : Nat)
    (hf : Nat.log 2 maxSize + 3 < fuel) :
    ∃ st outs, Runs.run (step (Nat.log 2 maxSize) fuel) (new maxSize rnd1 rnd2) ops = some (st, outs) ∧
      ∀ pre op post, ops = pre ++ op :: post → ∃ l, outs[pre.length]? = some (some l) ∧
        ∀ w, op = .search w → l.Nodup ∧ ∀ ind, ind ∈ l ↔ live pre w ind = true := by
  have hlt := fib_lt maxSize hmax
  have hcard : ∀ pre post, ops = pre ++ post → (insertedKeys pre).card ≤ (insertedKeys ops).card := by
    rintro pre post rfl
    exact Finset.card_le_card (insertedKeys_mono pre post)
  have hkeyed : ∀ pre post, ops = pre ++ post → ∀ op ∈ pre, Keyed op.keyword := by
    rintro pre post rfl op hop
    exact hops op (List.mem_append_left _ hop)
  have hfit : ∀ pre op post, ops = pre ++ op :: post →
      FitsBoth (Nat.log 2 maxSize) (afterFrom init (pre ++ [op])) := by
    intro pre op post he
    have he' : ops = (pre ++ [op]) ++ post := by rw [he, List.append_assoc, List.singleton_append]
    have hle := hcard _ _ he'
    exact (counts_after (hkeyed _ _ he') (by omega)).2.fits (by omega)
  obtain ⟨st, outs, hrun, -, hserves⟩ := (refines_new maxSize h1 h2).run hops hfit hf
  refine ⟨st, outs, hrun, fun pre op post he => ?_⟩
  obtain ⟨out, hout, hrel⟩ := hserves pre op post he
  -- over finite maps, nothing throws and the slots hold what is live
  have hall := Runs.each_iff_split.1 honce
  have hallowed : Runs.Each Allowed [] pre := by
    refine Runs.each_iff_split.2 fun l op' r hl => ?_
    have hop := hkeyed pre _ he op' (by rw [hl]; exact List.mem_append_right _ List.mem_cons_self)
    have h := hall l op' (r ++ op :: post) (by rw [he, hl, List.append_assoc, List.cons_append])
    cases op' with
    | insert w ind => exact hop.toValid
    | remove w ind => exact ⟨hop.toValid, h⟩
    | search w => exact hop.toValid
  have hfresh : Runs.Each Fresh [] pre := by
    refine Runs.each_iff_split.2 fun l op' r hl => ?_
    have h := hall l op' (r ++ op :: post) (by rw [he, hl, List.append_assoc, List.cons_append])
    cases op' with
    | remove w ind => trivial
    | search w => trivial
    | insert w ind =>
      have hle := hcard l (Op.insert w ind :: r ++ op :: post) (by rw [he, hl, List.append_assoc])
      exact ⟨h, lt_of_le_of_lt (length_liveInds_le l w) (by omega)⟩
  have hop : Keyed op.keyword := hops op (by rw [he]; exact List.mem_append_right _ List.mem_cons_self)
  obtain ⟨l, hrep, hlive, -⟩ := slotInv_after pre hallowed hfresh op.keyword hop.toValid
  cases op with
  | insert w ind =>
    cases hrel with
    | some hp => exact ⟨_, hout, fun w' he' => nomatch he'⟩
  | remove w ind =>
    have hret : (Orion.step (afterFrom init pre) (.remove w ind)).2 = some [] := by
      have hins : Op.insert w ind ∈ pre := hall pre _ post he
      have hrep' : RepAt (afterFrom init pre) w l fun ind => Op.remove w ind ∈ pre := hrep
      show (Orion.remove (afterFrom init pre) w ind).2.map _ = _
      by_cases hl : ind ∈ l
      · obtain ⟨i, hi⟩ := List.mem_iff_getElem?.1 hl
        rw [(hrep'.remove hi).1]
        rfl
      · have hdead : Op.remove w ind ∈ pre := by
          by_contra hno
          exact hl ((hlive ind).2 (live_of_not_removed hno hins))
        rw [hrep'.remove_dead hl hdead]
        rfl
    rw [hret] at hrel
    cases hrel with
    | some hp => exact ⟨_, hout, fun w' he' => nomatch he'⟩
  | search w =>
    have hrep' : RepAt (afterFrom init pre) w l fun ind => Op.remove w ind ∈ pre := hrep
    have hs : (Orion.step (afterFrom init pre) (.search w)).2 = some l := hrep'.search
    rw [hs] at hrel
    cases hrel with
    | some hp =>
      refine ⟨_, hout, fun w' he' => ?_⟩
      obtain rfl := Op.search.inj he'
      exact ⟨hp.nodup_iff.2 hrep'.nodup, fun ind => (hp.mem_iff).trans (hlive ind)⟩

/-- Two inserts, a removal and a search. -/
def fourCalls : List Op := [.insert [97] 1, .insert [97] 2, .remove [97] 1, .search [97]]

theorem stack_search_exact_four :
    ∃ st outs l, Runs.run (step 2 6) (new 4 (Omap.mostlyZero 7) (Omap.mostlyZero 5)) fourCalls = some (st, outs) ∧
      outs[3]? = some (some l) ∧ l.Nodup ∧ ∀ ind, ind ∈ l ↔ live (fourCalls.take 3) [97] ind = true := by
  have hops : ∀ op ∈ fourCalls, Keyed op.keyword := by
    intro op hop
    have hw : op.keyword = [97] := by
      simp only [fourCalls, List.mem_cons, List.not_mem_nil, or_false] at hop
      rcases hop with rfl | rfl | rfl | rfl <;> rfl
    rw [hw]
    exact ⟨by decide, by decide⟩
  obtain ⟨st, outs, hrun, hall⟩ := stack_search_exact 4 (by decide) (Omap.mostlyZero 7) (Omap.mostlyZero 5)
    (Omap.mostlyZero_lt 7) (Omap.mostlyZero_lt 5) fourCalls hops (by decide) (by decide +kernel) 6 (by decide +kernel)
  obtain ⟨l, hout, hl⟩ := hall (fourCalls.take 3) (.search [97]) [] rfl
  exact ⟨st, outs, l, hrun, hout, hl [97] rfl⟩

end

end Sse.Orion.Stack
