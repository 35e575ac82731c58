import Sse.Orion.Setup
import Sse.Orion.Stack

/-!
# Setup mode over the ORAMs

The staging maps are iterated in key order when `endSetup` writes them to the oblivious maps.
Fresh oblivious maps then hold what the staging maps held (`endSetup_refines`), so an Orion that
was set up and then used answers as the one over finite maps (`setup_stack_refines`), whatever
was inserted twice.
-/

namespace Sse.Orion.Stack

open Omap (omapStep Holds Fits Short)

instance isLinearOrder_16 : Std.IsLinearOrder (Bid 16) := inferInstance

instance lawfulOrderLT_16 : Std.LawfulOrderLT (Bid 16) := inferInstance

/-! ## The functions -/

/-- An Orion in setup mode. -/
structure Staged where
  state : State
  setupPairs1 : SortedMap (Bid 16) Str
  setupPairs2 : SortedMap (Bid 16) Str

/-- `map::operator[]`, which creates an empty entry. -/
def bracket (m : SortedMap (Bid 16) Str) (key : Bid 16) : SortedMap (Bid 16) Str :=
  match m.get? key with
  | none => m.insert key []
  | some _ => m

/-- What `m[key]` reads. -/
def read (m : SortedMap (Bid 16) Str) (key : Bid 16) : Str := (m.get? key).getD []

/-- `Orion::beginSetup`. -/
def beginSetup (st : State) : Staged := ⟨st, SortedMap.empty, SortedMap.empty⟩

/-- `Orion::setupInsert`. -/
def setupInsert (s : Staged) (keyword : Str) (ind : Int32) : Staged :=
  let cnt := (s.state.updtCnt keyword).getD 0 + 1
  { state := { s.state with
      updtCnt := Function.update s.state.updtCnt keyword (some cnt)
      lastIND := Function.update s.state.lastIND keyword (some ind) }
    setupPairs1 := s.setupPairs1.insert (createBid keyword ind) (toStr cnt.toInt)
    setupPairs2 := s.setupPairs2.insert (createBid keyword cnt) (toStr ind.toInt) }

/-- The swap in `Orion::setupRemove`. -/
def setupFillHole (s : Staged) (keyword : Str) (slot : Int32) (updt_cnt : Str) : Staged :=
  let last := (s.state.lastIND keyword).getD 0
  { state := { s.state with lastIND := Function.update s.state.lastIND keyword (some last) }
    setupPairs1 := s.setupPairs1.insert (createBid keyword last) updt_cnt
    setupPairs2 := s.setupPairs2.insert (createBid keyword slot) (toStr last.toInt) }

/-- The end of `Orion::setupRemove`: the last ind is read from the last slot. -/
def setupReadLast (s : Staged) (keyword : Str) (cnt : Int32) : Staged × Option Unit :=
  let s3 : Staged := { s with setupPairs2 := bracket s.setupPairs2 (createBid keyword cnt) }
  match stoi (read s3.setupPairs2 (createBid keyword cnt)) with
  | none => (s3, none)
  | some lastID =>
    ({ s3 with state := { s3.state with lastIND := Function.update s3.state.lastIND keyword (some lastID) } }, some ())

/-- `Orion::setupRemove`; the second component is `none` where `stoi` throws. -/
def setupRemove (s : Staged) (keyword : Str) (ind : Int32) : Staged × Option Unit :=
  let mapKey := createBid keyword ind
  let s0 : Staged := { s with setupPairs1 := bracket s.setupPairs1 mapKey }
  let updt_cnt := read s0.setupPairs1 mapKey
  match stoi updt_cnt with
  | none => (s0, none)
  | some slot =>
    if 0 < slot then
      let cnt := (s0.state.updtCnt keyword).getD 0 - 1
      let s1 : Staged := { s0 with
        state := { s0.state with updtCnt := Function.update s0.state.updtCnt keyword (some cnt) }
        setupPairs1 := s0.setupPairs1.insert mapKey (toStr (-1)) }
      if 0 < cnt then
        setupReadLast (if cnt + 1 ≠ slot then setupFillHole s1 keyword slot updt_cnt else s1) keyword cnt
      else
        ({ s1 with state := { s1.state with lastIND := Function.update s1.state.lastIND keyword none } }, some ())
    else (s0, some ())

/-- `Orion::endSetup`. -/
def endSetup (depth fuel : Nat) (s : Staged) : Option State := do
  let (updt, _) ← omapStep depth fuel s.state.updt (.batchInsert s.setupPairs1)
  let (srch, _) ← omapStep depth fuel s.state.srch (.batchInsert s.setupPairs2)
  return { s.state with srch := srch, updt := updt }

/-- An update in setup mode; a search is no call of this mode. -/
def setupStep (s : Staged) : Op → Staged × Option Unit
  | .insert w ind => (setupInsert s w ind, some ())
  | .remove w ind => setupRemove s w ind
  | .search _ => (s, some ())

/-- After `beginSetup` and the updates. -/
def setupAfter (st : State) (ops : List Op) : Staged := ops.foldl (fun s op => (setupStep s op).1) (beginSetup st)

theorem setupAfter_concat (st : State) (ops : List Op) (op : Op) :
    setupAfter st (ops ++ [op]) = (setupStep (setupAfter st ops) op).1 := by
  simp [setupAfter]

/-! ## The staging maps -/

section

variable {s : Staged} {b : Orion.Staged} {depth fuel : Nat}

/-- The staging maps are the same finite maps, and so are the counters. -/
structure Stages (s : Staged) (b : Orion.Staged) : Prop where
  setupPairs1 : s.setupPairs1.get? = b.setupPairs1
  setupPairs2 : s.setupPairs2.get? = b.setupPairs2
  updtCnt : s.state.updtCnt = b.state.updtCnt
  lastIND : s.state.lastIND = b.state.lastIND

theorem get?_insert_eq_put (m : SortedMap (Bid 16) Str) (key : Bid 16) (v : Str) :
    (m.insert key v).get? = put m.get? key v := by
  funext k
  rw [SortedMap.get?_insert, put_apply]

theorem get?_bracket (m : SortedMap (Bid 16) Str) (key : Bid 16) : (bracket m key).get? = Orion.bracket m.get? key := by
  unfold bracket Orion.bracket
  cases m.get? key with
  | none => exact get?_insert_eq_put m key []
  | some v => rfl

theorem Stages.insert (h : Stages s b) (w : Str) (ind : Int32) :
    Stages (setupInsert s w ind) (Orion.setupInsert b w ind) := by
  obtain ⟨h1, h2, h3, h4⟩ := h
  unfold setupInsert Orion.setupInsert
  rw [h3, h4, ← h1, ← h2]
  exact ⟨get?_insert_eq_put .., get?_insert_eq_put .., rfl, rfl⟩

theorem Stages.fillHole (h : Stages s b) (w : Str) (slot : Int32) (c : Str) :
    Stages (setupFillHole s w slot c) (Orion.setupFillHole b w slot c) := by
  obtain ⟨h1, h2, h3, h4⟩ := h
  unfold setupFillHole Orion.setupFillHole
  rw [h4, ← h1, ← h2]
  exact ⟨get?_insert_eq_put .., get?_insert_eq_put .., h3, rfl⟩

/-- What `setupRemove` reads last. -/
def stagedLast (b : Orion.Staged) (w : Str) (cnt : Int32) : Orion.Staged × Option Unit :=
  let b3 : Orion.Staged := { b with setupPairs2 := Orion.bracket b.setupPairs2 (createBid w cnt) }
  match stoi (find b3.setupPairs2 (createBid w cnt)) with
  | none => (b3, none)
  | some lastID =>
    ({ b3 with state := { b3.state with lastIND := Function.update b3.state.lastIND w (some lastID) } }, some ())

theorem Stages.readLast (h : Stages s b) (w : Str) (cnt : Int32) :
    Stages (setupReadLast s w cnt).1 (stagedLast b w cnt).1 := by
  obtain ⟨h1, h2, h3, h4⟩ := h
  have hbracket : (bracket s.setupPairs2 (createBid w cnt)).get? = Orion.bracket b.setupPairs2 (createBid w cnt) := by
    rw [get?_bracket, h2]
  unfold setupReadLast stagedLast
  dsimp only
  rw [show read (bracket s.setupPairs2 (createBid w cnt)) (createBid w cnt) =
    find (Orion.bracket b.setupPairs2 (createBid w cnt)) (createBid w cnt) by rw [read, hbracket, find]]
  cases stoi (find (Orion.bracket b.setupPairs2 (createBid w cnt)) (createBid w cnt)) with
  | none => exact ⟨h1, hbracket, h3, h4⟩
  | some lastID => exact ⟨h1, hbracket, h3, congrArg (fun f => Function.update f w (some lastID)) h4⟩

theorem Stages.remove (h : Stages s b) (w : Str) (ind : Int32) :
    Stages (setupRemove s w ind).1 (Orion.setupRemove b w ind).1 := by
  obtain ⟨h1, h2, h3, h4⟩ := h
  have hbracket : (bracket s.setupPairs1 (createBid w ind)).get? = Orion.bracket b.setupPairs1 (createBid w ind) := by
    rw [get?_bracket, h1]
  have hread : read (bracket s.setupPairs1 (createBid w ind)) (createBid w ind) =
      find (Orion.bracket b.setupPairs1 (createBid w ind)) (createBid w ind) := by
    rw [read, hbracket, find]
  unfold setupRemove Orion.setupRemove
  dsimp only
  rw [hread, h3]
  cases stoi (find (Orion.bracket b.setupPairs1 (createBid w ind)) (createBid w ind)) with
  | none => exact ⟨hbracket, h2, h3, h4⟩
  | some slot =>
    dsimp only
    set cnt := (b.state.updtCnt w).getD 0 - 1
    set s1 : Staged := ⟨{ s.state with updtCnt := Function.update b.state.updtCnt w (some cnt) },
      (bracket s.setupPairs1 (createBid w ind)).insert (createBid w ind) (toStr (-1)), s.setupPairs2⟩
    set b1 : Orion.Staged := ⟨{ b.state with updtCnt := Function.update b.state.updtCnt w (some cnt) },
      put (Orion.bracket b.setupPairs1 (createBid w ind)) (createBid w ind) (toStr (-1)), b.setupPairs2⟩
    have h1' : Stages s1 b1 :=
      ⟨(get?_insert_eq_put ..).trans (congrArg (fun m => put m (createBid w ind) (toStr (-1))) hbracket), h2, rfl, h4⟩
    by_cases hpos : 0 < slot
    · rw [if_pos hpos, if_pos hpos]
      by_cases hmore : 0 < cnt
      · rw [if_pos hmore, if_pos hmore]
        by_cases hne : cnt + 1 ≠ slot
        · rw [if_pos hne, if_pos hne]
          exact (h1'.fillHole w slot _).readLast w cnt
        · rw [if_neg hne, if_neg hne]
          exact h1'.readLast w cnt
      · rw [if_neg hmore, if_neg hmore]
        exact ⟨h1'.setupPairs1, h2, rfl, congrArg (fun f => Function.update f w none) h4⟩
    · rw [if_neg hpos, if_neg hpos]
      exact ⟨hbracket, h2, h3, h4⟩

theorem Stages.step (h : Stages s b) (op : Op) : Stages (setupStep s op).1 (Orion.setupStep b op).1 := by
  cases op with
  | insert w ind => exact h.insert w ind
  | remove w ind => exact h.remove w ind
  | search w => exact h

theorem stages_after (st : State) (ops : List Op) {a : Orion.State} (h3 : st.updtCnt = a.updtCnt)
    (h4 : st.lastIND = a.lastIND) :
    Stages (setupAfter st ops) (ops.foldl (fun b op => (Orion.setupStep b op).1) (Orion.beginSetup a)) := by
  induction ops using List.reverseRecOn with
  | nil => exact ⟨rfl, rfl, h3, h4⟩
  | append_singleton ops op ih =>
    rw [setupAfter_concat, List.foldl_append]
    exact ih.step op

/-- The setup functions do not touch the oblivious maps. -/
theorem setupStep_handles (s : Staged) (op : Op) :
    (setupStep s op).1.state.srch = s.state.srch ∧ (setupStep s op).1.state.updt = s.state.updt := by
  have hlast : ∀ (s : Staged) (w : Str) (cnt : Int32), (setupReadLast s w cnt).1.state.srch = s.state.srch ∧
      (setupReadLast s w cnt).1.state.updt = s.state.updt := by
    intro s w cnt
    unfold setupReadLast
    dsimp only
    split <;> exact ⟨rfl, rfl⟩
  cases op with
  | insert w ind => exact ⟨rfl, rfl⟩
  | search w => exact ⟨rfl, rfl⟩
  | remove w ind =>
    simp only [setupStep, setupRemove]
    split
    · exact ⟨rfl, rfl⟩
    · split_ifs
      · exact hlast ..
      · exact hlast ..
      · exact ⟨rfl, rfl⟩
      · exact ⟨rfl, rfl⟩

theorem setupAfter_handles (st : State) (ops : List Op) :
    (setupAfter st ops).state.srch = st.srch ∧ (setupAfter st ops).state.updt = st.updt := by
  induction ops using List.reverseRecOn with
  | nil => exact ⟨rfl, rfl⟩
  | append_singleton ops op ih =>
    rw [setupAfter_concat]
    obtain ⟨h1, h2⟩ := setupStep_handles (setupAfter st ops) op
    exact ⟨h1.trans ih.1, h2.trans ih.2⟩

/-! ## How many keys, and which values -/

/-- At most `k` keys, none of them zero, and values that come back. -/
structure Neat (k : Nat) (m : OMap) : Prop where
  few : ∃ K : Finset (Bid 16), K.card ≤ k ∧ ∀ key, m key ≠ none → key ∈ K
  short : ∀ key v, m key = some v → key.isZero = false ∧ Short v

variable {k : Nat} {m : OMap}

theorem neat_empty : Neat 0 fun _ => none :=
  ⟨⟨∅, le_rfl, fun _ hk => absurd rfl hk⟩, fun _ _ hk => nomatch hk⟩

theorem Neat.mono (h : Neat k m) {k' : Nat} (hk : k ≤ k') : Neat k' m := by
  obtain ⟨⟨K, hcard, hK⟩, hs⟩ := h
  exact ⟨⟨K, hcard.trans hk, hK⟩, hs⟩

theorem Neat.put (h : Neat k m) {key : Bid 16} (hz : key.isZero = false) {v : Str} (hv : Short v) :
    Neat (k + 1) (put m key v) := by
  obtain ⟨⟨K, hcard, hK⟩, hs⟩ := h
  refine ⟨⟨Insert.insert key K, (Finset.card_insert_le key K).trans (Nat.succ_le_succ hcard), fun j hj => ?_⟩,
    fun j w hj => ?_⟩
  · rw [put_apply] at hj
    rw [Finset.mem_insert]
    split_ifs at hj with he
    · exact Or.inl he
    · exact Or.inr (hK j hj)
  · rw [put_apply] at hj
    split_ifs at hj with he
    · obtain rfl := Option.some.inj hj
      rw [he]
      exact ⟨hz, hv⟩
    · exact hs j w hj

theorem short_nil : Short [] := ⟨List.not_mem_nil, Nat.zero_le _⟩

theorem Neat.bracket (h : Neat k m) {key : Bid 16} (hz : key.isZero = false) : Neat (k + 1) (Orion.bracket m key) := by
  unfold Orion.bracket
  cases m key with
  | none => exact h.put hz short_nil
  | some v => exact h.mono (Nat.le_succ k)

theorem put_bracket (m : OMap) (key : Bid 16) (v : Str) : Orion.put (Orion.bracket m key) key v = Orion.put m key v := by
  unfold Orion.bracket
  cases m key with
  | none =>
    funext j
    dsimp only
    rw [put_apply, put_apply, put_apply]
    split_ifs <;> rfl
  | some w => rfl

theorem Neat.find (h : Neat k m) (key : Bid 16) : Short (find m key) := by
  unfold Orion.find
  cases hm : m key with
  | none => exact short_nil
  | some v => exact (h.short key v hm).2

theorem Neat.fits (h : Neat k m) (hk : k + 1 < Nat.fib (depth + 5)) : Fits depth m := by
  obtain ⟨⟨K, hcard, hK⟩, -⟩ := h
  intro J hJ
  have := Finset.card_le_card (fun j hj => hK j (hJ j hj) : J ⊆ K)
  omega

/-- A setup call puts at most two keys into each staging map. -/
theorem Neat.setupStep {b : Orion.Staged} (h1 : Neat k b.setupPairs1) (h2 : Neat k b.setupPairs2) {op : Op}
    (hop : Keyed op.keyword) :
    Neat (k + 2) (Orion.setupStep b op).1.setupPairs1 ∧ Neat (k + 2) (Orion.setupStep b op).1.setupPairs2 := by
  cases op with
  | search w => exact ⟨h1.mono (by omega), h2.mono (by omega)⟩
  | insert w ind =>
    have hw : Keyed w := hop
    exact ⟨(h1.put (hw.isZero ind) (short_toStr _)).mono (by omega),
      (h2.put (hw.isZero _) (short_toStr ind)).mono (by omega)⟩
  | remove w ind =>
    have hw : Keyed w := hop
    have hbracket := h1.bracket (hw.isZero ind)
    have hc := hbracket.find (createBid w ind)
    simp only [Orion.setupStep, Orion.setupRemove]
    rw [put_bracket]
    have hput := h1.put (hw.isZero ind) (short_toStr (-1))
    have hskip : Neat (k + 2) (Orion.bracket b.setupPairs1 (createBid w ind)) ∧ Neat (k + 2) b.setupPairs2 :=
      ⟨hbracket.mono (by omega), h2.mono (by omega)⟩
    split
    · exact hskip
    · rename_i slot _
      split_ifs with hpos hmore hne
      · have hlast := (h2.put (hw.isZero slot) (short_toStr ((b.state.lastIND w).getD 0))).bracket
          (hw.isZero ((b.state.updtCnt w).getD 0 - 1))
        have hmoved := hput.put (hw.isZero ((b.state.lastIND w).getD 0)) hc
        split <;> exact ⟨hmoved, hlast⟩
      · have hlast := h2.bracket (hw.isZero ((b.state.updtCnt w).getD 0 - 1))
        split <;> exact ⟨hput.mono (by omega), hlast.mono (by omega)⟩
      · exact ⟨hput.mono (by omega), h2.mono (by omega)⟩
      · exact hskip

/-- So does a call after the setup. -/
theorem Neat.step {a : Orion.State} (h1 : Neat k a.updt) (h2 : Neat k a.srch) {op : Op} (hop : Keyed op.keyword) :
    Neat (k + 2) (Orion.step a op).1.updt ∧ Neat (k + 2) (Orion.step a op).1.srch := by
  cases op with
  | search w => exact ⟨h1.mono (by omega), h2.mono (by omega)⟩
  | insert w ind =>
    have hw : Keyed w := hop
    simp only [Orion.step, Orion.insert]
    split
    · exact ⟨(h1.put (hw.isZero ind) (short_toStr _)).mono (by omega),
        (h2.put (hw.isZero _) (short_toStr ind)).mono (by omega)⟩
    · exact ⟨h1.mono (by omega), h2.mono (by omega)⟩
  | remove w ind =>
    have hw : Keyed w := hop
    have hc := h1.find (createBid w ind)
    have hput := h1.put (hw.isZero ind) (short_toStr (-1))
    simp only [Orion.step, Orion.remove]
    split
    · exact ⟨h1.mono (by omega), h2.mono (by omega)⟩
    · rename_i slot _
      split_ifs with hpos hmore hne
      · have hmoved := hput.put (hw.isZero ((a.lastIND w).getD 0)) hc
        have hfilled := h2.put (hw.isZero slot) (short_toStr ((a.lastIND w).getD 0))
        split <;> exact ⟨hmoved, hfilled.mono (by omega)⟩
      · split <;> exact ⟨hput.mono (by omega), h2.mono (by omega)⟩
      · exact ⟨hput.mono (by omega), h2.mono (by omega)⟩
      · exact ⟨h1.mono (by omega), h2.mono (by omega)⟩

theorem Neat.after {a : Orion.State} (h1 : Neat k a.updt) (h2 : Neat k a.srch) {ops : List Op}
    (hops : ∀ op ∈ ops, Keyed op.keyword) :
    Neat (k + 2 * ops.length) (afterFrom a ops).updt ∧ Neat (k + 2 * ops.length) (afterFrom a ops).srch := by
  induction ops using List.reverseRecOn with
  | nil => exact ⟨h1, h2⟩
  | append_singleton ops op ih =>
    obtain ⟨ih1, ih2⟩ := ih fun op hop => hops op (List.mem_append_left _ hop)
    rw [afterFrom_concat, List.length_append, List.length_singleton]
    exact ih1.step ih2 (hops op (List.mem_append_right _ List.mem_cons_self))

theorem neat_setupAfter {setup : List Op} (hops : ∀ op ∈ setup, Keyed op.keyword) :
    Neat (2 * setup.length) (Orion.setupAfter setup).setupPairs1 ∧
      Neat (2 * setup.length) (Orion.setupAfter setup).setupPairs2 := by
  induction setup using List.reverseRecOn with
  | nil => exact ⟨neat_empty, neat_empty⟩
  | append_singleton setup op ih =>
    obtain ⟨ih1, ih2⟩ := ih fun op hop => hops op (List.mem_append_left _ hop)
    rw [Orion.setupAfter_concat, List.length_append, List.length_singleton]
    exact ih1.setupStep ih2 (hops op (List.mem_append_right _ List.mem_cons_self))

/-! ## The end of the setup -/

theorem Neat.length_le {p : SortedMap (Bid 16) Str} (h : Neat k p.get?) : p.entries.length ≤ k := by
  obtain ⟨⟨K, hcard, hK⟩, -⟩ := h
  have hnodup : (p.entries.map Prod.fst).Nodup := by
    refine List.pairwise_map.2 (p.sorted.imp fun {a b} hlt he => ?_)
    rw [he] at hlt
    exact Std.lt_irrefl hlt
  rw [← List.length_map Prod.fst, ← List.toFinset_card_of_nodup hnodup]
  refine (Finset.card_le_card fun j hj => hK j ?_).trans hcard
  have hsome := (p.mem_keys j).1 (List.mem_toFinset.1 hj)
  intro hnone
  rw [hnone] at hsome
  cases hsome

/-- A staging map is written to an empty oblivious map. -/
theorem Neat.batchInsert {x : Handle} (hx : Holds depth x fun _ => none) {p : SortedMap (Bid 16) Str}
    (h : Neat k p.get?) (hk : k + 1 < Nat.fib (depth + 5)) (hf : depth + 2 + k < fuel) :
    ∃ x', omapStep depth fuel x (.batchInsert p) = some (x', []) ∧ Holds depth x' p.get? := by
  have hlen := h.length_le
  have hshort : ∀ e ∈ p.entries, e.1.isZero = false ∧ Short e.2 := fun e he => h.short e.1 e.2 ((p.mem_entries e.1 e.2).1 he)
  exact hx.batchInsert p (fun e he => (hshort e he).1) (fun e he => (hshort e he).2) (h.fits hk) (by omega)

/-- **`endSetup`** leaves in the oblivious maps what the staging maps held. -/
theorem endSetup_refines {st : State} (hst : Refines depth st init) {setup : List Op}
    (hops : ∀ op ∈ setup, Keyed op.keyword) (hk : 2 * setup.length + 1 < Nat.fib (depth + 5))
    (hf : depth + 2 + 2 * setup.length < fuel) :
    ∃ st', endSetup depth fuel (setupAfter st setup) = some st' ∧
      Refines depth st' (Orion.endSetup (Orion.setupAfter setup)) := by
  have hstages : Stages (setupAfter st setup) (Orion.setupAfter setup) := stages_after st setup hst.updtCnt hst.lastIND
  obtain ⟨hsrch, hupdt⟩ := setupAfter_handles st setup
  obtain ⟨hasrch, haupdt⟩ := setupAfter_maps setup
  obtain ⟨h1, h2⟩ := neat_setupAfter hops
  rw [← hstages.setupPairs1] at h1
  rw [← hstages.setupPairs2] at h2
  have hx1 : Holds depth (setupAfter st setup).state.updt fun _ => none := by
    rw [hupdt]
    exact hst.updt
  have hx2 : Holds depth (setupAfter st setup).state.srch fun _ => none := by
    rw [hsrch]
    exact hst.srch
  obtain ⟨x1, hstep1, hx1'⟩ := h1.batchInsert hx1 hk hf
  obtain ⟨x2, hstep2, hx2'⟩ := h2.batchInsert hx2 hk hf
  have hor : ∀ m : OMap, Orion.batchInsert (fun _ => none) m = m := fun m => funext fun j => Option.or_none
  refine ⟨{ (setupAfter st setup).state with srch := x2, updt := x1 }, ?_, ?_, ?_, hstages.updtCnt, hstages.lastIND⟩
  · unfold endSetup
    simp only [hstep1, hstep2, Option.bind_eq_bind, Option.bind_some]
    rfl
  · show Holds depth x2 (Orion.batchInsert (Orion.setupAfter setup).state.srch (Orion.setupAfter setup).setupPairs2)
    rw [hasrch, show init.srch = fun _ => none from rfl, hor, ← hstages.setupPairs2]
    exact hx2'
  · show Holds depth x1 (Orion.batchInsert (Orion.setupAfter setup).state.updt (Orion.setupAfter setup).setupPairs1)
    rw [haupdt, show init.updt = fun _ => none from rfl, hor, ← hstages.setupPairs1]
    exact hx1'

/-- **A set-up Orion over its ORAMs is one over finite maps**: after any updates in setup mode, and in any calls that
follow, also those that remove what was never inserted or insert what was removed, no ORAM throws as long as twice the
number of calls is below `fib (depth + 5) - 1`, and every answer is that over finite maps up to its order. -/
theorem setup_stack_refines (maxSize : Nat) (rnd1 rnd2 : Nat → Nat) (h1 : ∀ i, rnd1 i < 2 ^ Nat.log 2 maxSize)
    (h2 : ∀ i, rnd2 i < 2 ^ Nat.log 2 maxSize) (setup ops : List Op) (hsetup : ∀ op ∈ setup, Keyed op.keyword)
    (hops : ∀ op ∈ ops, Keyed op.keyword) (hroom : 2 * (setup.length + ops.length) + 1 < Nat.fib (Nat.log 2 maxSize + 5))
    (fuel : Nat) (hf : Nat.log 2 maxSize + 3 + 2 * setup.length < fuel) :
    ∃ st₀ st outs, endSetup (Nat.log 2 maxSize) fuel (setupAfter (new maxSize rnd1 rnd2) setup) = some st₀ ∧
      Runs.run (step (Nat.log 2 maxSize) fuel) st₀ ops = some (st, outs) ∧
      ∀ pre op post, ops = pre ++ op :: post → ∃ out, outs[pre.length]? = some out ∧
        Option.Rel List.Perm out
          (Orion.step (afterFrom (Orion.endSetup (Orion.setupAfter setup)) pre) op).2 := by
  obtain ⟨st₀, hend, href⟩ := endSetup_refines (refines_new maxSize h1 h2) hsetup (by omega) (show _ < fuel by omega)
  obtain ⟨hn1, hn2⟩ := neat_setupAfter hsetup
  have hn1' : Neat (2 * setup.length) (Orion.endSetup (Orion.setupAfter setup)).updt := by
    show Neat _ (Orion.batchInsert (Orion.setupAfter setup).state.updt (Orion.setupAfter setup).setupPairs1)
    rw [(setupAfter_maps setup).2]
    exact (show Orion.batchInsert init.updt _ = _ from funext fun j => Option.or_none) ▸ hn1
  have hn2' : Neat (2 * setup.length) (Orion.endSetup (Orion.setupAfter setup)).srch := by
    show Neat _ (Orion.batchInsert (Orion.setupAfter setup).state.srch (Orion.setupAfter setup).setupPairs2)
    rw [(setupAfter_maps setup).1]
    exact (show Orion.batchInsert init.srch _ = _ from funext fun j => Option.or_none) ▸ hn2
  have hfit : ∀ pre op post, ops = pre ++ op :: post →
      FitsBoth (Nat.log 2 maxSize) (afterFrom (Orion.endSetup (Orion.setupAfter setup)) (pre ++ [op])) := by
    rintro pre op post rfl
    have hpre : ∀ op' ∈ pre ++ [op], Keyed op'.keyword := by
      intro op' hop'
      refine hops op' ?_
      rw [← List.singleton_append, ← List.append_assoc]
      exact List.mem_append_left _ hop'
    obtain ⟨hu, hs⟩ := hn1'.after hn2' hpre
    rw [List.length_append, List.length_cons] at hroom
    rw [List.length_append, List.length_singleton] at hu hs
    exact ⟨hs.fits (by omega), hu.fits (by omega)⟩
  obtain ⟨st, outs, hrun, -, hserves⟩ := href.run hops hfit (show _ < fuel by omega)
  exact ⟨st₀, st, outs, hend, hrun, hserves⟩

/-- A pair is set up twice, and one of two is removed afterwards. -/
theorem setup_stack_refines_twice :
    ∃ st₀ st outs, endSetup 2 20 (setupAfter (new 4 (Omap.mostlyZero 7) (Omap.mostlyZero 5))
        [.insert [97] 1, .insert [97] 1, .insert [97] 2]) = some st₀ ∧
      Runs.run (step 2 20) st₀ [.remove [97] 2, .search [97]] = some (st, outs) ∧ outs[1]? = some (some [1, 1]) := by
  have hkeyed : ∀ ops : List Op, (∀ op ∈ ops, op.keyword = [97]) → ∀ op ∈ ops, Keyed op.keyword := by
    intro ops hops op hop
    rw [hops op hop]
    exact ⟨by decide, by decide⟩
  obtain ⟨st₀, st, outs, hend, hrun, hall⟩ := setup_stack_refines 4 (Omap.mostlyZero 7) (Omap.mostlyZero 5)
    (Omap.mostlyZero_lt 7) (Omap.mostlyZero_lt 5) [.insert [97] 1, .insert [97] 1, .insert [97] 2]
    [.remove [97] 2, .search [97]] (hkeyed _ (by decide)) (hkeyed _ (by decide)) (by decide +kernel) 20
    (by decide +kernel)
  refine ⟨st₀, st, outs, hend, hrun, ?_⟩
  obtain ⟨out, hout, hrel⟩ := hall [.remove [97] 2] (.search [97]) [] rfl
  have hval : (Orion.step (afterFrom (Orion.endSetup (Orion.setupAfter [.insert [97] 1, .insert [97] 1, .insert [97] 2]))
      [.remove [97] 2]) (.search [97])).2 = some (List.replicate 2 1) := by decide +kernel
  rw [hval] at hrel
  cases hrel with
  | some hp =>
    rw [List.perm_replicate.1 hp] at hout
    exact hout

end

end Sse.Orion.Stack
