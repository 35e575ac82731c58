import Sse.Orion.Orion

/-!
# Keywords do not disturb each other

`AgreeAt st st' w` says that two states hold the same about keyword `w`.  A call on a
keyword whose first twelve bytes differ from those of `w` keeps it (`step_other`), a call
on `w` itself reads nothing else (`AgreeAt.step`).  So two keywords are isolated exactly
when they differ within the first twelve bytes: `createBid` lays the number over the
last four of the sixteen.

    w1 ≠ w2 → (Isolated w1 w2 ↔ padTo 12 w1 ≠ padTo 12 w2)        (isolated_iff)
-/

namespace Sse.Orion

/-! ## What a state holds about one keyword -/

structure AgreeAt (st st' : State) (w : Str) : Prop where
  srch : ∀ a, st'.srch (createBid w a) = st.srch (createBid w a)
  updt : ∀ a, st'.updt (createBid w a) = st.updt (createBid w a)
  updtCnt : st'.updtCnt w = st.updtCnt w
  lastIND : st'.lastIND w = st.lastIND w

theorem AgreeAt.refl (st : State) (w : Str) : AgreeAt st st w :=
  ⟨fun _ => rfl, fun _ => rfl, rfl, rfl⟩

theorem AgreeAt.symm {st st' : State} {w : Str} (h : AgreeAt st st' w) : AgreeAt st' st w :=
  ⟨fun a => (h.srch a).symm, fun a => (h.updt a).symm, h.updtCnt.symm, h.lastIND.symm⟩

theorem AgreeAt.trans {s t u : State} {w : Str} (h : AgreeAt s t w) (h' : AgreeAt t u w) :
    AgreeAt s u w :=
  ⟨fun a => (h'.srch a).trans (h.srch a), fun a => (h'.updt a).trans (h.updt a),
    h'.updtCnt.trans h.updtCnt, h'.lastIND.trans h.lastIND⟩

/-- Keys of keywords that differ within the first twelve bytes never meet. -/
theorem put_other {m : OMap} {w w' : Str} (h : padTo 12 w ≠ padTo 12 w') (a b : Int32) (v : Str) :
    put m (createBid w' b) v (createBid w a) = m (createBid w a) := by
  rw [put_apply, if_neg]
  intro e
  exact h (createBid_eq_iff.1 e).1

theorem insert_other {st : State} {w w' : Str} (h : padTo 12 w ≠ padTo 12 w') (ind : Int32) :
    AgreeAt st (insert st w' ind) w := by
  have hw : w ≠ w' := fun e => h (by rw [e])
  unfold insert
  simp only
  split
  · exact ⟨fun a => put_other h _ _ _, fun a => put_other h _ _ _,
      Function.update_of_ne hw _ _, Function.update_of_ne hw _ _⟩
  · exact AgreeAt.refl st w

theorem fillHole_other {st : State} {w w' : Str} (h : padTo 12 w ≠ padTo 12 w') (slot : Int32)
    (updt_cnt : Str) : AgreeAt st (fillHole st w' slot updt_cnt) w := by
  have hw : w ≠ w' := fun e => h (by rw [e])
  exact ⟨fun a => put_other h _ _ _, fun a => put_other h _ _ _, rfl, Function.update_of_ne hw _ _⟩

theorem remove_other {st : State} {w w' : Str} (h : padTo 12 w ≠ padTo 12 w') (ind : Int32) :
    AgreeAt st (remove st w' ind).1 w := by
  have hw : w ≠ w' := fun e => h (by rw [e])
  unfold remove
  simp only
  split
  · exact AgreeAt.refl st w
  · split
    · set cnt := (st.updtCnt w').getD 0 - 1
      set st1 : State := { st with
        updt := put st.updt (createBid w' ind) (toStr (-1))
        updtCnt := Function.update st.updtCnt w' (some cnt) } with hst1
      have h1 : AgreeAt st st1 w :=
        ⟨fun a => rfl, fun a => put_other h _ _ _, Function.update_of_ne hw _ _, rfl⟩
      have hlast : ∀ (s : State) v, AgreeAt s { s with lastIND := Function.update s.lastIND w' v } w :=
        fun s v => ⟨fun _ => rfl, fun _ => rfl, rfl, Function.update_of_ne hw _ _⟩
      split
      · set st2 := if cnt + 1 ≠ _ then fillHole st1 w' _ _ else st1 with hst2
        have h2 : AgreeAt st st2 w := by
          rw [hst2]
          split
          · exact h1.trans (fillHole_other h _ _)
          · exact h1
        split
        · exact h2
        · exact h2.trans (hlast _ _)
      · exact h1.trans (hlast _ _)
    · exact AgreeAt.refl st w

/-- **Frame.**  A call on `w'` leaves what is held about `w` alone. -/
theorem step_other {st : State} {w : Str} {op : Op} (h : padTo 12 w ≠ padTo 12 op.keyword) :
    AgreeAt st (step st op).1 w := by
  cases op with
  | insert w' ind => exact insert_other h ind
  | remove w' ind => exact remove_other h ind
  | search w' => exact AgreeAt.refl st w

theorem AgreeAt.find_updt {st st' : State} {w : Str} (h : AgreeAt st st' w) (a : Int32) :
    find st'.updt (createBid w a) = find st.updt (createBid w a) := by
  unfold find
  rw [h.updt]

theorem AgreeAt.find_srch {st st' : State} {w : Str} (h : AgreeAt st st' w) (a : Int32) :
    find st'.srch (createBid w a) = find st.srch (createBid w a) := by
  unfold find
  rw [h.srch]

theorem put_congr {m m' : OMap} {w : Str} (h : ∀ a, m' (createBid w a) = m (createBid w a)) (k : Bid 16)
    (v : Str) (a : Int32) : put m' k v (createBid w a) = put m k v (createBid w a) := by
  rw [put_apply, put_apply, h]

theorem AgreeAt.insert {st st' : State} {w : Str} (h : AgreeAt st st' w) (ind : Int32) :
    AgreeAt (insert st w ind) (Orion.insert st' w ind) w := by
  unfold Orion.insert
  simp only [h.find_updt, h.updtCnt]
  split
  · exact ⟨put_congr h.srch _ _, put_congr h.updt _ _, by simp, by simp⟩
  · exact h

theorem AgreeAt.fillHole {st st' : State} {w : Str} (h : AgreeAt st st' w) (slot : Int32) (c : Str) :
    AgreeAt (fillHole st w slot c) (Orion.fillHole st' w slot c) w := by
  unfold Orion.fillHole
  rw [h.lastIND]
  exact ⟨put_congr h.srch _ _, put_congr h.updt _ _, h.updtCnt, by simp⟩

theorem AgreeAt.remove {st st' : State} {w : Str} (h : AgreeAt st st' w) (ind : Int32) :
    AgreeAt (remove st w ind).1 (Orion.remove st' w ind).1 w ∧
      (Orion.remove st' w ind).2 = (Orion.remove st w ind).2 := by
  unfold Orion.remove
  simp only [h.find_updt, h.updtCnt]
  cases stoi (find st.updt (createBid w ind)) with
  | none => exact ⟨h, rfl⟩
  | some slot =>
    simp only
    split
    · set cnt := (st.updtCnt w).getD 0 - 1
      have h1 : AgreeAt
          { st with updt := put st.updt (createBid w ind) (toStr (-1))
                    updtCnt := Function.update st.updtCnt w (some cnt) }
          { st' with updt := put st'.updt (createBid w ind) (toStr (-1))
                     updtCnt := Function.update st'.updtCnt w (some cnt) } w :=
        ⟨h.srch, put_congr h.updt _ _, by simp, h.lastIND⟩
      have hlast : ∀ {s t : State} (v : Option Int32), AgreeAt s t w →
          AgreeAt { s with lastIND := Function.update s.lastIND w v }
            { t with lastIND := Function.update t.lastIND w v } w :=
        fun v h => ⟨h.srch, h.updt, h.updtCnt, by simp⟩
      split
      · have h2 := h1.fillHole slot (find st.updt (createBid w ind))
        by_cases hs : cnt + 1 ≠ slot
        · simp only [if_pos hs, h2.find_srch]
          split
          · exact ⟨h2, rfl⟩
          · exact ⟨hlast _ h2, rfl⟩
        · simp only [if_neg hs, h1.find_srch]
          split
          · exact ⟨h1, rfl⟩
          · exact ⟨hlast _ h1, rfl⟩
      · exact ⟨hlast _ h1, rfl⟩
    · exact ⟨h, rfl⟩

theorem AgreeAt.search {st st' : State} {w : Str} (h : AgreeAt st st' w) :
    search st' w = Orion.search st w := by
  have hb : ∀ n, batchSearch st'.srch (slotBids w n) = batchSearch st.srch (slotBids w n) := by
    intro n
    apply List.filterMap_congr
    intro b hb
    obtain ⟨i, -, rfl⟩ := List.mem_map.1 hb
    exact h.srch _
  unfold Orion.search
  rw [h.updtCnt]
  cases st.updtCnt w with
  | none => rfl
  | some n => simp only [hb]

/-- **Locality.**  A call on `w` reads and writes only what is held about `w`. -/
theorem AgreeAt.step {st st' : State} {w : Str} {op : Op} (h : AgreeAt st st' w) (hop : op.keyword = w) :
    AgreeAt (step st op).1 (Orion.step st' op).1 w ∧ (Orion.step st' op).2 = (Orion.step st op).2 := by
  cases op with
  | insert w' ind => obtain rfl : w' = w := hop; exact ⟨h.insert ind, rfl⟩
  | remove w' ind =>
    obtain rfl : w' = w := hop
    have hr := h.remove ind
    exact ⟨hr.1, by simp only [Orion.step, hr.2]⟩
  | search w' => obtain rfl : w' = w := hop; exact ⟨h, h.search⟩

/-! ## Isolation -/

/-- The calls on `w`. -/
def on (w : Str) (op : Op) : Bool := op.keyword == w

/-- Two runs with the same calls on `w2` and any calls on `w1` give `w2` the same answers:
the same sets and the same exceptions. -/
def Isolated (w1 w2 : Str) : Prop :=
  Runs.NonInterfering (Runs.total step) init (on w2) (on w1) (Option.map List.toFinset)

theorem isolated_of_ne {w1 w2 : Str} (h : padTo 12 w1 ≠ padTo 12 w2) : Isolated w1 w2 := by
  refine Runs.nonInterfering_of_view (fun s t => AgreeAt s t w2) (fun s => AgreeAt.refl s w2)
    AgreeAt.symm AgreeAt.trans ?_ ?_ _
  · intro s op s' o hop hs
    obtain ⟨rfl, -⟩ := Runs.total_eq_some.1 hs
    apply step_other
    rw [show op.keyword = w1 by simpa [on] using hop]
    exact h.symm
  · intro s t op s' t' o o' hop hR hs ht
    obtain ⟨rfl, rfl⟩ := Runs.total_eq_some.1 hs
    obtain ⟨rfl, rfl⟩ := Runs.total_eq_some.1 ht
    have hstep := hR.step (show op.keyword = w2 by simpa [on] using hop)
    exact ⟨hstep.1, hstep.2.symm⟩

/-- Keywords with the same first twelve bytes share their keys: inserting an ind under `w1`
makes `insert` take the same ind under `w2` for present. -/
theorem not_isolated_of_eq {w1 w2 : Str} (hne : w1 ≠ w2) (h : padTo 12 w1 = padTo 12 w2) :
    ¬ Isolated w1 w2 := by
  intro hiso
  have hon1 : ∀ ind, on w2 (.insert w1 ind) = false := fun ind => by simp [on, Op.keyword, hne]
  have hon2 : ∀ ind, on w2 (.insert w2 ind) = true := fun ind => by simp [on, Op.keyword]
  have hon3 : on w2 (.search w2) = true := by simp [on, Op.keyword]
  have hkey : ∀ a, createBid w2 a = createBid w1 a := fun a => createBid_eq_iff.2 ⟨h.symm, rfl⟩
  have key := hiso [.insert w2 5, .search w2] [.insert w1 5, .insert w2 5, .search w2]
    (by simp [on, Op.keyword]) (by simp [hon1, hon2, hon3]) _ _ _ _ rfl rfl
  simp only [Runs.outputsOf_cons, hon1, hon2, hon3, if_true, Bool.false_eq_true, if_false,
    List.map_cons, List.cons.injEq, true_and] at key
  -- alone, the search finds the ind; after the insert under `w1` it finds nothing
  have hA : search (insert init w2 5) w2 = some [5] := by
    simp [search, insert, init, find, put, slotBids, batchSearch, Function.update]
    decide
  have hskip : insert (insert init w1 5) w2 5 = insert init w1 5 := by
    have : find (insert init w1 5).updt (createBid w2 5) ≠ [] := by
      rw [hkey]
      simp [insert, init, find, put, toStr_ne_nil]
    rw [insert]
    simp only
    rw [if_neg this]
  have hB : search (insert init w1 5) w2 = some [] := by
    have : (insert init w1 5).updtCnt w2 = none := by
      simp [insert, init, find, Function.update, hne.symm]
    simp [search, this, batchSearch]
  simp [hA, hskip, hB] at key

/-- **Isolation of keywords.**  Exactly the keywords that differ within the first twelve
bytes (zero-filled) are isolated. -/
theorem isolated_iff {w1 w2 : Str} (hne : w1 ≠ w2) : Isolated w1 w2 ↔ padTo 12 w1 ≠ padTo 12 w2 :=
  ⟨fun hiso h => not_isolated_of_eq hne h hiso, isolated_of_ne⟩

/-- The keywords `a` and `b` are isolated. -/
theorem isolated_a_b : Isolated [97] [98] ↔ padTo 12 [97] ≠ padTo 12 [98] := isolated_iff (by decide)

/-- The keywords `aaaaaaaaaaaab` and `aaaaaaaaaaaac` of thirteen bytes are not. -/
theorem not_isolated_thirteen_bytes :
    let w1 : Str := List.replicate 12 97 ++ [98]
    let w2 : Str := List.replicate 12 97 ++ [99]
    w1 ≠ w2 ∧ NulFree w1 ∧ NulFree w2 ∧ w1.length = 13 ∧ w2.length = 13 ∧ ¬ Isolated w1 w2 :=
  ⟨by decide, by decide, by decide, rfl, rfl, not_isolated_of_eq (by decide) (by decide)⟩

end Sse.Orion
