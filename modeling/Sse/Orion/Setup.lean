import Sse.Orion.Slots

/-!
# Setup mode of Orion

In setup mode the updates go to two staging maps, which `endSetup` writes to the oblivious
maps at once.  The removal is that of the online mode; the insertion is that of the online
mode without its guard, so it gives a slot to a pair that has one already, and to a pair that
was removed before.

Whatever is inserted twice, the slots hold some list, and every live pair knows a slot of its
own (`Slotted`).  From the number of slots it follows that setup and online mode agree on a
keyword exactly when no live pair was inserted and no live pair was removed before
(`setup_agrees_iff`).
-/

namespace Sse.Orion

/-! ## The functions -/

/-- An Orion in setup mode. -/
structure Staged where
  state : State
  setupPairs1 : OMap
  setupPairs2 : OMap

/-- `map::operator[]`, which creates an empty entry. -/
def bracket (m : OMap) (key : Bid 16) : OMap :=
  match m key with
  | none => put m key []
  | some _ => m

/-- `Orion::beginSetup`. -/
def beginSetup (st : State) : Staged := ⟨st, fun _ => none, fun _ => none⟩

/-- `Orion::setupInsert`. -/
def setupInsert (s : Staged) (keyword : Str) (ind : Int32) : Staged :=
  let cnt := (s.state.updtCnt keyword).getD 0 + 1
  { state := { s.state with
      updtCnt := Function.update s.state.updtCnt keyword (some cnt)
      lastIND := Function.update s.state.lastIND keyword (some ind) }
    setupPairs1 := put s.setupPairs1 (createBid keyword ind) (toStr cnt.toInt)
    setupPairs2 := put s.setupPairs2 (createBid keyword cnt) (toStr ind.toInt) }

/-- The swap in `Orion::setupRemove`. -/
def setupFillHole (s : Staged) (keyword : Str) (slot : Int32) (updt_cnt : Str) : Staged :=
  let last := (s.state.lastIND keyword).getD 0
  { state := { s.state with lastIND := Function.update s.state.lastIND keyword (some last) }
    setupPairs1 := put s.setupPairs1 (createBid keyword last) updt_cnt
    setupPairs2 := put s.setupPairs2 (createBid keyword slot) (toStr last.toInt) }

/-- `Orion::setupRemove`; the second component is `none` where `stoi` throws. -/
def setupRemove (s : Staged) (keyword : Str) (ind : Int32) : Staged × Option Unit :=
  let mapKey := createBid keyword ind
  let s0 : Staged := { s with setupPairs1 := bracket s.setupPairs1 mapKey }
  let updt_cnt := find s0.setupPairs1 mapKey
  match stoi updt_cnt with
  | none => (s0, none)
  | some slot =>
    if 0 < slot then
      let cnt := (s0.state.updtCnt keyword).getD 0 - 1
      let s1 : Staged := { s0 with
        state := { s0.state with updtCnt := Function.update s0.state.updtCnt keyword (some cnt) }
        setupPairs1 := put s0.setupPairs1 mapKey (toStr (-1)) }
      if 0 < cnt then
        let s2 := if cnt + 1 ≠ slot then setupFillHole s1 keyword slot updt_cnt else s1
        let s3 : Staged := { s2 with setupPairs2 := bracket s2.setupPairs2 (createBid keyword cnt) }
        match stoi (find s3.setupPairs2 (createBid keyword cnt)) with
        | none => (s3, none)
        | some lastID =>
          ({ s3 with state := { s3.state with
              lastIND := Function.update s3.state.lastIND keyword (some lastID) } }, some ())
      else
        ({ s1 with state := { s1.state with lastIND := Function.update s1.state.lastIND keyword none } }, some ())
    else (s0, some ())

/-- `OMAP::batchInsert`. -/
def batchInsert (m pairs : OMap) : OMap := fun key => (pairs key).or (m key)

/-- `Orion::endSetup`. -/
def endSetup (s : Staged) : State :=
  { s.state with updt := batchInsert s.state.updt s.setupPairs1, srch := batchInsert s.state.srch s.setupPairs2 }

/-- An update in setup mode; a search is no call of this mode. -/
def setupStep (s : Staged) : Op → Staged × Option Unit
  | .insert w ind => (setupInsert s w ind, some ())
  | .remove w ind => setupRemove s w ind
  | .search _ => (s, some ())

/-- A fresh Orion after `beginSetup` and the updates. -/
def setupAfter (ops : List Op) : Staged := ops.foldl (fun s op => (setupStep s op).1) (beginSetup init)

@[simp] theorem setupAfter_nil : setupAfter [] = beginSetup init := rfl

@[simp] theorem setupAfter_concat (ops : List Op) (op : Op) :
    setupAfter (ops ++ [op]) = (setupStep (setupAfter ops) op).1 := by
  simp [setupAfter]

/-! ## Staging maps in the place of the oblivious maps -/

/-- What the setup functions see. -/
def Staged.view (s : Staged) : State := ⟨s.setupPairs2, s.setupPairs1, s.state.updtCnt, s.state.lastIND⟩

theorem find_bracket (m : OMap) (key key' : Bid 16) : find (bracket m key) key' = find m key' := by
  unfold bracket
  cases h : m key with
  | some v => rfl
  | none =>
    rw [find_put]
    split
    · next e =>
      rw [e]
      simp [find, h]
    · rfl

/-- Nothing is created where a number was read. -/
theorem bracket_of_stoi {m : OMap} {key : Bid 16} {v : Int32} (h : stoi (find m key) = some v) : bracket m key = m := by
  unfold bracket
  cases hm : m key with
  | some v => rfl
  | none =>
    have hempty : stoi [] = none := by decide
    rw [find, hm, Option.getD_none, hempty] at h
    cases h

/-- The setup functions do not touch the oblivious maps. -/
theorem setupStep_maps (s : Staged) (op : Op) :
    (setupStep s op).1.state.srch = s.state.srch ∧ (setupStep s op).1.state.updt = s.state.updt := by
  cases op with
  | insert w ind => exact ⟨rfl, rfl⟩
  | search w => exact ⟨rfl, rfl⟩
  | remove w ind =>
    simp only [setupStep, setupRemove]
    split
    · exact ⟨rfl, rfl⟩
    · split
      · split
        · split
          · split <;> exact ⟨rfl, rfl⟩
          · split <;> exact ⟨rfl, rfl⟩
        · exact ⟨rfl, rfl⟩
      · exact ⟨rfl, rfl⟩

theorem setupAfter_maps (ops : List Op) :
    (setupAfter ops).state.srch = init.srch ∧ (setupAfter ops).state.updt = init.updt := by
  induction ops using List.reverseRecOn with
  | nil => exact ⟨rfl, rfl⟩
  | append_singleton ops op ih =>
    rw [setupAfter_concat]
    obtain ⟨h1, h2⟩ := setupStep_maps (setupAfter ops) op
    exact ⟨h1.trans ih.1, h2.trans ih.2⟩

/-- After `endSetup` a search reads the staging map. -/
theorem search_endSetup (ops : List Op) (w : Str) :
    search (endSetup (setupAfter ops)) w = search (setupAfter ops).view w := by
  have hsrch : (endSetup (setupAfter ops)).srch = (setupAfter ops).view.srch := by
    funext key
    show ((setupAfter ops).setupPairs2 key).or ((setupAfter ops).state.srch key) = (setupAfter ops).setupPairs2 key
    rw [(setupAfter_maps ops).1]
    exact Option.or_none
  unfold search
  rw [hsrch]
  rfl

/-- `setupRemove` does on the staging maps what `remove` does on the oblivious maps. -/
theorem setupRemove_view (s : Staged) (w : Str) (ind : Int32) (h : (remove s.view w ind).2 = some ()) :
    (setupRemove s w ind).1.view = (remove s.view w ind).1 := by
  unfold remove at h ⊢
  unfold setupRemove
  simp only [find_bracket] at h ⊢
  have hv : s.view.updt = s.setupPairs1 := rfl
  rw [hv] at h ⊢
  cases hslot : stoi (find s.setupPairs1 (createBid w ind)) with
  | none =>
    rw [hslot] at h
    cases h
  | some slot =>
    rw [hslot] at h
    simp only [bracket_of_stoi hslot] at h ⊢
    by_cases hpos : 0 < slot
    · rw [if_pos hpos] at h ⊢
      rw [if_pos hpos]
      have hcnt : s.view.updtCnt = s.state.updtCnt := rfl
      rw [hcnt] at h ⊢
      set cnt := (s.state.updtCnt w).getD 0 - 1
      by_cases hmore : 0 < cnt
      · rw [if_pos hmore] at h ⊢
        rw [if_pos hmore]
        set s1 : Staged := { s with
          state := { s.state with updtCnt := Function.update s.state.updtCnt w (some cnt) }
          setupPairs1 := put s.setupPairs1 (createBid w ind) (toStr (-1)) } with hs1
        set st1 : State := { s.view with
          updt := put s.setupPairs1 (createBid w ind) (toStr (-1))
          updtCnt := Function.update s.state.updtCnt w (some cnt) } with hst1
        set s2 := if cnt + 1 ≠ slot then setupFillHole s1 w slot (find s.setupPairs1 (createBid w ind)) else s1 with hs2
        set st2 := if cnt + 1 ≠ slot then fillHole st1 w slot (find s.setupPairs1 (createBid w ind)) else st1 with hst2
        have hview : s2.view = st2 := by
          rw [hs2, hst2]
          split <;> rfl
        have hsrch : s2.setupPairs2 = st2.srch := by rw [← hview]; rfl
        cases hlast : stoi (find st2.srch (createBid w cnt)) with
        | none =>
          rw [hlast] at h
          cases h
        | some lastID =>
          rw [hsrch, hlast]
          simp only [bracket_of_stoi hlast]
          rw [← hview]
          rfl
      · rw [if_neg hmore]
        rw [if_neg hmore]
        rfl
    · rw [if_neg hpos, if_neg hpos]

/-! ## Slots that may hold an ind twice -/

/-- An insert without its guard. -/
def pushSlot (st : State) (keyword : Str) (ind : Int32) : State :=
  let cnt := (st.updtCnt keyword).getD 0 + 1
  { srch := put st.srch (createBid keyword cnt) (toStr ind.toInt)
    updt := put st.updt (createBid keyword ind) (toStr cnt.toInt)
    updtCnt := Function.update st.updtCnt keyword (some cnt)
    lastIND := Function.update st.lastIND keyword (some ind) }

theorem setupInsert_view (s : Staged) (w : Str) (ind : Int32) : (setupInsert s w ind).view = pushSlot s.view w ind := rfl

theorem pushSlot_other {st : State} {w w' : Str} (h : padTo 12 w ≠ padTo 12 w') (ind : Int32) :
    AgreeAt st (pushSlot st w' ind) w := by
  have hw : w ≠ w' := fun e => h (by rw [e])
  exact ⟨fun a => put_other h _ _ _, fun a => put_other h _ _ _, Function.update_of_ne hw _ _,
    Function.update_of_ne hw _ _⟩

/-- The slots hold the list, and every live ind knows a slot of its own. -/
structure Slotted (st : State) (w : Str) (l : List Int32) (held : Int32 → Prop) : Prop where
  slots : SlotsHold st w l
  slot : ∀ x, held x → ∃ i : Nat, l[i]? = some x ∧ st.updt (createBid w x) = some (toStr ((i + 1 : Nat) : Int))

section

variable {st st' : State} {w : Str} {l : List Int32} {held : Int32 → Prop}

theorem SlotsHold.of_agree (h : SlotsHold st w l) (ha : AgreeAt st st' w) : SlotsHold st' w l where
  bound := h.bound
  cnt := by rw [ha.updtCnt]; exact h.cnt
  srch := fun i x hi => by rw [ha.srch]; exact h.srch i x hi
  last := by rw [ha.lastIND]; exact h.last

theorem Slotted.of_agree (h : Slotted st w l held) (ha : AgreeAt st st' w) : Slotted st' w l held where
  slots := h.slots.of_agree ha
  slot := fun x hx => by
    rw [ha.updt]
    exact h.slot x hx

theorem Slotted.congr (h : Slotted st w l held) {held' : Int32 → Prop} (hh : ∀ x, held' x ↔ held x) :
    Slotted st w l held' :=
  ⟨h.slots, fun x hx => h.slot x ((hh x).1 hx)⟩

theorem SlotsHold.push (h : SlotsHold st w l) (hb : l.length + 1 < 2 ^ 31 - 1) (ind : Int32) :
    SlotsHold (pushSlot st w ind) w (l ++ [ind]) where
  bound := by
    rw [List.length_append, List.length_singleton]
    omega
  cnt := by
    simp only [pushSlot, Function.update_self, Option.getD_some, h.cnt, ofNat_add_one, List.length_append,
      List.length_singleton]
  srch := fun i x hi => by
    simp only [pushSlot, h.cnt, ofNat_add_one, put_apply, createBid_inj_right]
    rcases getElem?_concat_cases hi with hi | ⟨rfl, rfl⟩
    · have hlt := lt_of_getElem?_eq_some hi
      rw [if_neg (ofNat_ne_small (by omega) (by omega) (by omega))]
      exact h.srch i x hi
    · rw [if_pos rfl]
  last := by simp [pushSlot]

/-- **An insert without guard appends.** -/
theorem Slotted.push (h : Slotted st w l held) (hb : l.length + 1 < 2 ^ 31 - 1) (ind : Int32) :
    Slotted (pushSlot st w ind) w (l ++ [ind]) fun x => held x ∨ x = ind where
  slots := h.slots.push hb ind
  slot := fun x hx => by
    simp only [pushSlot, h.slots.cnt, ofNat_add_one, put_apply, createBid_inj_right]
    by_cases hxi : x = ind
    · -- the last of its slots
      subst hxi
      refine ⟨l.length, by simp, ?_⟩
      rw [if_pos rfl, toInt_ofNat_small (by omega)]
    · rw [if_neg hxi]
      obtain ⟨i, hi, hupdt⟩ := h.slot x (hx.resolve_right hxi)
      exact ⟨i, by rw [List.getElem?_append_left (lt_of_getElem?_eq_some hi)]; exact hi, hupdt⟩

/-- **A removal drops one slot**, and the others keep theirs. -/
theorem Slotted.remove (h : Slotted st w l held) {ind : Int32} (hind : held ind) :
    ∃ i, l[i]? = some ind ∧ (remove st w ind).2 = some () ∧
      Slotted (Orion.remove st w ind).1 w (fill l i) fun x => held x ∧ x ≠ ind := by
  obtain ⟨i, hi, hptr⟩ := h.slot ind hind
  have hlt := lt_of_getElem?_eq_some hi
  have hlast := getElem?_last (l := l) (by omega)
  obtain ⟨hret, hslots, hupdt⟩ := h.slots.remove hi hptr
  refine ⟨i, hi, hret, hslots, fun x hx => ?_⟩
  obtain ⟨hx, hne⟩ := hx
  obtain ⟨k, hk, hkptr⟩ := h.slot x hx
  have hklt := lt_of_getElem?_eq_some hk
  rw [hupdt]
  by_cases hmoved : i + 1 ≠ l.length ∧ x = l.getLastD 0
  · rw [if_pos hmoved]
    refine ⟨i, ?_, rfl⟩
    rw [getElem?_fill (by omega), if_pos rfl, hmoved.2]
  · rw [if_neg hmoved, if_neg hne]
    have hki : i ≠ k := by
      rintro rfl
      exact hne (Option.some.inj (hk.symm.trans hi))
    have hkl : k ≠ l.length - 1 := by
      rintro rfl
      refine hmoved ⟨by omega, Option.some.inj (hk.symm.trans hlast)⟩
    refine ⟨k, ?_, hkptr⟩
    rw [getElem?_fill (by omega), if_neg hki]
    exact hk

end

/-! ## Runs of updates -/

/-- The runs of the comparison: any inserts, and removals of live pairs. -/
def Updates (pre : List Op) : Op → Prop
  | .insert w _ => Valid w
  | .remove w ind => Valid w ∧ live pre w ind = true
  | .search _ => False

instance (pre : List Op) : ∀ op, Decidable (Updates pre op)
  | .insert w _ => inferInstanceAs (Decidable (Valid w))
  | .remove w ind => inferInstanceAs (Decidable (Valid w ∧ live pre w ind = true))
  | .search _ => inferInstanceAs (Decidable False)

theorem Updates.valid {pre : List Op} {op : Op} (h : Updates pre op) : Valid op.keyword := by
  cases op with
  | insert w ind => exact h
  | remove w ind => exact h.1
  | search w => exact h.elim

/-- No live pair of the keyword is inserted. -/
def NotLive (w : Str) (pre : List Op) (op : Op) : Prop := ∀ ind, op = .insert w ind → live pre w ind = false

theorem length_liveInds {ops : List Op} {w : Str} {l : List Int32} (hn : l.Nodup)
    (hl : ∀ ind, ind ∈ l ↔ live ops w ind = true) : (liveInds ops w).length = l.length :=
  (SlotInv.length_eq hn hl).symm

theorem nodup_liveInds (ops : List Op) (w : Str) : (liveInds ops w).Nodup := List.nodup_dedup _

theorem length_liveInds_insert_new {ops : List Op} {w : Str} {ind : Int32} (h : live ops w ind = false) :
    (liveInds (ops ++ [.insert w ind]) w).length = (liveInds ops w).length + 1 := by
  have hnot : ind ∉ liveInds ops w := by
    rw [mem_liveInds, h]
    simp
  have hmem : ∀ x, x ∈ ind :: liveInds ops w ↔ live (ops ++ [.insert w ind]) w x = true := by
    intro x
    rw [List.mem_cons, mem_liveInds, live_concat]
    by_cases hx : x = ind
    · simp [hx]
    · simp [hx, Ne.symm hx]
  have hperm := length_liveInds (List.nodup_cons.2 ⟨hnot, nodup_liveInds ops w⟩) hmem
  rw [hperm, List.length_cons]

theorem length_liveInds_same {ops : List Op} {op : Op} {w : Str}
    (h : ∀ x, live (ops ++ [op]) w x = live ops w x) :
    (liveInds (ops ++ [op]) w).length = (liveInds ops w).length :=
  length_liveInds (nodup_liveInds ops w) fun x => by rw [mem_liveInds, h]

theorem length_liveInds_insert_old {ops : List Op} {w : Str} {ind : Int32} (h : live ops w ind = true) :
    (liveInds (ops ++ [.insert w ind]) w).length = (liveInds ops w).length := by
  apply length_liveInds_same
  intro x
  rw [live_concat]
  by_cases hx : x = ind
  · simp [hx, h]
  · simp [Ne.symm hx]

theorem length_liveInds_remove {ops : List Op} {w : Str} {ind : Int32} (h : live ops w ind = true) :
    (liveInds (ops ++ [.remove w ind]) w).length = (liveInds ops w).length - 1 := by
  rw [length_liveInds ((nodup_liveInds ops w).erase ind), List.length_erase_of_mem (mem_liveInds.2 h)]
  intro x
  rw [(nodup_liveInds ops w).mem_erase_iff, mem_liveInds, live_concat, if_neg (by simp)]
  by_cases hx : x = ind
  · simp [hx]
  · simp [hx, Ne.symm hx]

/-- What setup mode leaves in the slots of a keyword: a list that is the live inds as long as no
live pair was inserted, and longer otherwise. -/
structure StagedAt (ops : List Op) (s : Staged) (w : Str) (l : List Int32) : Prop where
  slotted : Slotted s.view w l fun x => live ops w x = true
  short : l.length ≤ ops.length
  atLeast : (liveInds ops w).length ≤ l.length
  once : Runs.Each (NotLive w) [] ops → l.Nodup ∧ ∀ x, x ∈ l ↔ live ops w x = true
  twice : ¬ Runs.Each (NotLive w) [] ops → (liveInds ops w).length < l.length

section

variable {pre : List Op} {s : Staged} {w : Str} {l : List Int32}

/-- A call on another keyword. -/
theorem StagedAt.other (h : StagedAt pre s w l) {op : Op} {s' : Staged} (hne : op.keyword ≠ w)
    (ha : AgreeAt s.view s'.view w) : StagedAt (pre ++ [op]) s' w l := by
  have hins : ∀ ind, op ≠ .insert w ind := fun ind e => hne (by rw [e]; rfl)
  have hrem : ∀ ind, op ≠ .remove w ind := fun ind e => hne (by rw [e]; rfl)
  have hlive : ∀ x, live (pre ++ [op]) w x = live pre w x := by
    intro x
    rw [live_concat, if_neg (hins x), if_neg (hrem x)]
  have heach : Runs.Each (NotLive w) [] (pre ++ [op]) ↔ Runs.Each (NotLive w) [] pre := by
    rw [Runs.each_concat, and_iff_left]
    exact fun ind e => absurd e (hins ind)
  have hlen := length_liveInds_same hlive
  refine ⟨(h.slotted.of_agree ha).congr fun x => by rw [hlive], ?_, hlen ▸ h.atLeast, ?_, ?_⟩
  · have := h.short
    rw [List.length_append]
    omega
  · intro he
    obtain ⟨h1, h2⟩ := h.once (heach.1 he)
    exact ⟨h1, fun x => by rw [hlive]; exact h2 x⟩
  · intro he
    rw [hlen]
    exact h.twice fun e => he (heach.2 e)

theorem StagedAt.insert (h : StagedAt pre s w l) (hb : pre.length + 1 < 2 ^ 31 - 1) (ind : Int32) :
    StagedAt (pre ++ [.insert w ind]) (setupInsert s w ind) w (l ++ [ind]) := by
  have hshort := h.short
  have hlive : ∀ x, live (pre ++ [.insert w ind]) w x = true ↔ live pre w x = true ∨ x = ind := by
    intro x
    rw [live_concat]
    by_cases hx : x = ind
    · simp [hx]
    · simp [hx, Ne.symm hx]
  have heach : Runs.Each (NotLive w) [] (pre ++ [.insert w ind]) ↔
      Runs.Each (NotLive w) [] pre ∧ live pre w ind = false := by
    rw [Runs.each_concat, List.nil_append]
    constructor
    · exact fun ⟨h1, h2⟩ => ⟨h1, h2 ind rfl⟩
    · rintro ⟨h1, h2⟩
      refine ⟨h1, fun x e => ?_⟩
      obtain ⟨-, rfl⟩ := Op.insert.inj e
      exact h2
  have hat := h.atLeast
  refine ⟨?_, by simpa using hshort, ?_, ?_, ?_⟩
  · rw [setupInsert_view]
    exact (h.slotted.push (by omega) ind).congr hlive
  · rw [List.length_append, List.length_singleton]
    cases hl : live pre w ind with
    | false =>
      rw [length_liveInds_insert_new hl]
      omega
    | true =>
      rw [length_liveInds_insert_old hl]
      omega
  · intro he
    obtain ⟨he, hl⟩ := heach.1 he
    obtain ⟨hn, hm⟩ := h.once he
    have hnot : ind ∉ l := by
      rw [hm, hl]
      simp
    refine ⟨?_, fun x => by rw [hlive, List.mem_append, hm, List.mem_singleton]⟩
    rw [List.nodup_append]
    refine ⟨hn, List.nodup_singleton _, fun a ha b hb e => hnot ?_⟩
    rw [← List.mem_singleton.1 hb, ← e]
    exact ha
  · intro he
    rw [List.length_append, List.length_singleton]
    by_cases hold : Runs.Each (NotLive w) [] pre
    · -- this insert is the first of a live pair
      have hl : live pre w ind = true := by
        by_contra hf
        exact he (heach.2 ⟨hold, by simpa using hf⟩)
      rw [length_liveInds_insert_old hl]
      omega
    · have htwice := h.twice hold
      cases hl : live pre w ind with
      | false =>
        rw [length_liveInds_insert_new hl]
        omega
      | true =>
        rw [length_liveInds_insert_old hl]
        omega

theorem StagedAt.remove (h : StagedAt pre s w l) {ind : Int32} (hl : live pre w ind = true) :
    ∃ i, (remove s.view w ind).2 = some () ∧
      StagedAt (pre ++ [.remove w ind]) (setupRemove s w ind).1 w (fill l i) := by
  obtain ⟨i, hi, hret, hslotted⟩ := h.slotted.remove hl
  rw [← setupRemove_view s w ind hret] at hslotted
  have hlive : ∀ x, live (pre ++ [.remove w ind]) w x = true ↔ live pre w x = true ∧ x ≠ ind := by
    intro x
    rw [live_concat, if_neg (by simp)]
    by_cases hx : x = ind
    · simp [hx]
    · simp [hx, Ne.symm hx]
  have heach : Runs.Each (NotLive w) [] (pre ++ [.remove w ind]) ↔ Runs.Each (NotLive w) [] pre := by
    rw [Runs.each_concat, and_iff_left]
    exact fun x e => by cases e
  have hlen := length_liveInds_remove hl
  have hpos : 0 < (liveInds pre w).length := List.length_pos_of_mem (mem_liveInds.2 hl)
  have hshort := h.short
  have hat := h.atLeast
  refine ⟨i, hret, hslotted.congr hlive, ?_, ?_, ?_, ?_⟩
  · rw [length_fill, List.length_append]
    omega
  · rw [length_fill, hlen]
    omega
  · intro he
    obtain ⟨hn, hm⟩ := h.once (heach.1 he)
    exact ⟨nodup_fill hn hi, fun x => by rw [mem_fill hn hi, hm, hlive]⟩
  · intro he
    have htwice := h.twice fun e => he (heach.2 e)
    rw [length_fill, hlen]
    omega

end

/-- **Setup mode**, whatever is inserted twice. -/
theorem stagedAt_after (ops : List Op) (ha : Runs.Each Updates [] ops) (hb : ops.length < 2 ^ 31 - 1) (w : Str)
    (hw : Valid w) : ∃ l, StagedAt ops (setupAfter ops) w l := by
  induction ops using List.reverseRecOn generalizing w with
  | nil =>
    refine ⟨[], ⟨⟨by decide, rfl, fun i x h => by simp at h, rfl⟩, fun x hx => by simp [live] at hx⟩, le_rfl, le_rfl,
      fun _ => ⟨List.nodup_nil, fun x => by simp [live]⟩, fun h => (h trivial).elim⟩
  | append_singleton pre op ih =>
    rw [Runs.each_concat, List.nil_append] at ha
    rw [List.length_append, List.length_singleton] at hb
    obtain ⟨ha, hop⟩ := ha
    have ih := fun w hw => ih ha (by omega) w hw
    obtain ⟨l, h⟩ := ih w hw
    rw [setupAfter_concat]
    -- the keys of another short keyword are its own
    have hframe : ∀ w', Valid w' → w' ≠ w → padTo 12 w ≠ padTo 12 w' := fun w' hw' hne e =>
      hne (padTo_injective hw.nulFree hw'.nulFree hw.fits hw'.fits e).symm
    cases op with
    | insert w' ind =>
      by_cases hk : w' = w
      · subst hk
        exact ⟨_, h.insert hb ind⟩
      · refine ⟨l, h.other hk ?_⟩
        rw [setupStep, setupInsert_view]
        exact pushSlot_other (hframe w' hop hk) ind
    | remove w' ind =>
      by_cases hk : w' = w
      · subst hk
        obtain ⟨i, -, h'⟩ := h.remove hop.2
        exact ⟨_, h'⟩
      · refine ⟨l, h.other hk ?_⟩
        obtain ⟨l', h'⟩ := ih w' hop.1
        obtain ⟨-, hret, -⟩ := h'.remove hop.2
        rw [setupStep, setupRemove_view _ _ _ hret]
        exact remove_other (hframe w' hop.1 hk) ind
    | search w' => exact hop.elim

/-- **Online mode**: the slots hold the inds that were inserted and never removed. -/
theorem repAt_after (ops : List Op) (ha : Runs.Each Updates [] ops) (hb : ops.length < 2 ^ 31 - 1) (w : Str)
    (hw : Valid w) : ∃ l, RepAt (after ops) w l (fun ind => Op.remove w ind ∈ ops) ∧ l.length ≤ ops.length ∧
      ∀ ind, ind ∈ l ↔ Op.insert w ind ∈ ops ∧ Op.remove w ind ∉ ops := by
  induction ops using List.reverseRecOn with
  | nil => exact ⟨[], (repAt_init w).congr_dead (by simp), le_rfl, by simp⟩
  | append_singleton pre op ih =>
    rw [Runs.each_concat, List.nil_append] at ha
    rw [List.length_append, List.length_singleton] at hb
    obtain ⟨ha, hop⟩ := ha
    obtain ⟨l, hrep, hlen, hmem⟩ := ih ha (by omega)
    have hremove : ∀ ind, op = .remove w ind → Op.insert w ind ∈ pre := fun ind e =>
      insert_mem_of_live (e ▸ hop : Updates pre (.remove w ind)).2
    obtain ⟨l', hrep', hlen', hmem'⟩ := hrep.call hmem hw hop.valid hremove fun ind _ => by omega
    rw [after_concat, List.length_append, List.length_singleton]
    exact ⟨l', hrep', by omega, hmem'⟩

/-- **Setup mode and online mode.**  The searches of a keyword agree if and only if no live pair of
it was inserted and none of its live pairs was removed before. -/
theorem setup_agrees_iff (ops : List Op) (ha : Runs.Each Updates [] ops) (hb : ops.length < 2 ^ 31 - 1) (w : Str)
    (hw : Valid w) :
    ∃ l l', search (after ops) w = some l ∧ search (endSetup (setupAfter ops)) w = some l' ∧
      (l.Perm l' ↔ Runs.Each (NotLive w) [] ops ∧ ∀ ind, live ops w ind = true → Op.remove w ind ∉ ops) := by
  obtain ⟨l, hrep, -, hmem⟩ := repAt_after ops ha hb w hw
  obtain ⟨l', h⟩ := stagedAt_after ops ha hb w hw
  refine ⟨l, l', hrep.search, by rw [search_endSetup]; exact h.slotted.slots.search, ?_⟩
  have hsub : ∀ ind, ind ∈ l → live ops w ind = true := by
    intro ind hind
    obtain ⟨h1, h2⟩ := (hmem ind).1 hind
    exact live_of_not_removed h2 h1
  by_cases honce : Runs.Each (NotLive w) [] ops
  · obtain ⟨hn, hm⟩ := h.once honce
    rw [List.perm_ext_iff_of_nodup hrep.nodup hn]
    constructor
    · intro hperm
      refine ⟨honce, fun ind hlive => ?_⟩
      exact ((hmem ind).1 ((hperm ind).2 ((hm ind).2 hlive))).2
    · rintro ⟨-, hfresh⟩ ind
      rw [hm]
      exact ⟨hsub ind, fun hlive => (hmem ind).2 ⟨insert_mem_of_live hlive, hfresh ind hlive⟩⟩
  · -- the staged list is longer than the live inds, the online list is not
    have hlong := h.twice honce
    have hshort : l.length ≤ (liveInds ops w).length :=
      (hrep.nodup.subperm fun ind hind => mem_liveInds.2 (hsub ind hind)).length_le
    refine iff_of_false (fun hperm => ?_) fun hc => honce hc.1
    have := hperm.length_eq
    omega

/-- Two inserts and a removal. -/
theorem setup_agrees_iff_two :
    ∃ l l', search (after [.insert [97] 1, .insert [97] 2, .remove [97] 1]) [97] = some l ∧
      search (endSetup (setupAfter [.insert [97] 1, .insert [97] 2, .remove [97] 1])) [97] = some l' ∧
      (l.Perm l' ↔ Runs.Each (NotLive [97]) [] [.insert [97] 1, .insert [97] 2, .remove [97] 1] ∧
        ∀ ind, live [.insert [97] 1, .insert [97] 2, .remove [97] 1] [97] ind = true →
          Op.remove [97] ind ∉ [Op.insert [97] 1, .insert [97] 2, .remove [97] 1]) :=
  setup_agrees_iff _ (by decide) (by decide) [97] (by decide)

/-- Setup mode gives a second slot to a pair inserted twice. -/
theorem setup_inserts_twice :
    Runs.Each Updates [] [.insert [97] 1, .insert [97] 1] ∧
      search (after [.insert [97] 1, .insert [97] 1]) [97] = some [1] ∧
      search (endSetup (setupAfter [.insert [97] 1, .insert [97] 1])) [97] = some [1, 1] := by
  decide

end Sse.Orion
