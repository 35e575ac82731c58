import Sse.Orion.Frame

/-!
# The slots of a keyword, and exactness of search

What the four structures of Orion hold about one keyword is a list: the inds in slots
`1 .. n`.  `RepAt st w l dead` says that state `st` represents the list `l` for keyword
`w`, where the pairs in `dead` were removed: `srch` is the list, `updt` its inverse,
`updtCnt` its length and `lastIND` its last element.  `insert` appends (`RepAt.insert`),
`remove` puts the last ind in the place of the removed one and drops the last slot
(`RepAt.remove`), `search` reads the list (`RepAt.search`).

A removed pair stays in `updt` as `-1`, and `insert` looks only for an empty entry: it
takes a removed pair for present and does nothing.  So search is exact in the runs that
never insert a pair again after removing it (`search_exact`), and not in general
(`search_misses_reinserted`).
-/

namespace Sse.Orion

/-! ## The represented list -/

structure RepAt (st : State) (w : Str) (l : List Int32) (dead : Int32 → Prop) : Prop where
  nodup : l.Nodup
  bound : l.length < 2 ^ 31
  cnt : (st.updtCnt w).getD 0 = Int32.ofNat l.length
  srch : ∀ i x, l[i]? = some x → st.srch (createBid w (Int32.ofNat (i + 1))) = some (toStr x.toInt)
  slot : ∀ i x, l[i]? = some x → st.updt (createBid w x) = some (toStr ((i + 1 : Nat) : Int))
  gone : ∀ ind, ind ∉ l → dead ind → st.updt (createBid w ind) = some (toStr (-1))
  absent : ∀ ind, ind ∉ l → ¬ dead ind → st.updt (createBid w ind) = none
  last : st.lastIND w = l.getLast?

theorem repAt_init (w : Str) : RepAt init w [] fun _ => False where
  nodup := List.nodup_nil
  bound := by decide
  cnt := rfl
  srch := fun i x h => by simp at h
  slot := fun i x h => by simp at h
  gone := fun _ _ h => h.elim
  absent := fun _ _ _ => rfl
  last := rfl

theorem RepAt.of_agree {st st' : State} {w : Str} {l : List Int32} {dead : Int32 → Prop}
    (h : RepAt st w l dead) (ha : AgreeAt st st' w) : RepAt st' w l dead where
  nodup := h.nodup
  bound := h.bound
  cnt := by rw [ha.updtCnt]; exact h.cnt
  srch := fun i x hi => by rw [ha.srch]; exact h.srch i x hi
  slot := fun i x hi => by rw [ha.updt]; exact h.slot i x hi
  gone := fun ind hn hd => by rw [ha.updt]; exact h.gone ind hn hd
  absent := fun ind hn hd => by rw [ha.updt]; exact h.absent ind hn hd
  last := by rw [ha.lastIND]; exact h.last

theorem createBid_inj_right (w : Str) {a b : Int32} : createBid w a = createBid w b ↔ a = b := by
  simp [createBid_eq_iff]

/-- What `RepAt` says without the inverse: the slots hold the list. -/
structure SlotsHold (st : State) (w : Str) (l : List Int32) : Prop where
  bound : l.length < 2 ^ 31
  cnt : (st.updtCnt w).getD 0 = Int32.ofNat l.length
  srch : ∀ i x, l[i]? = some x → st.srch (createBid w (Int32.ofNat (i + 1))) = some (toStr x.toInt)
  last : st.lastIND w = l.getLast?

section
variable {st : State} {w : Str} {l : List Int32} {dead : Int32 → Prop}

theorem RepAt.slots (h : RepAt st w l dead) : SlotsHold st w l := ⟨h.bound, h.cnt, h.srch, h.last⟩

theorem RepAt.find_live (h : RepAt st w l dead) {i : Nat} {x : Int32} (hi : l[i]? = some x) :
    find st.updt (createBid w x) = toStr ((i + 1 : Nat) : Int) := by
  simp only [find, h.slot i x hi, Option.getD_some]

/-- A pair is taken for present while it is live and after it was removed. -/
theorem RepAt.find_eq_nil (h : RepAt st w l dead) (ind : Int32) :
    find st.updt (createBid w ind) = [] ↔ ind ∉ l ∧ ¬ dead ind := by
  by_cases hl : ind ∈ l
  · obtain ⟨i, hi⟩ := List.mem_iff_getElem?.1 hl
    simp [h.find_live hi, toStr_ne_nil, hl]
  · by_cases hd : dead ind
    · simp [find, h.gone ind hl hd, toStr_ne_nil, hd]
    · simp [find, h.absent ind hl hd, hd, hl]

theorem RepAt.insert_skip (h : RepAt st w l dead) {ind : Int32} (hp : ind ∈ l ∨ dead ind) :
    insert st w ind = st := by
  unfold Orion.insert
  simp only
  rw [if_neg]
  rw [h.find_eq_nil]
  tauto

/-- **Insert appends.** -/
theorem RepAt.insert (h : RepAt st w l dead) {ind : Int32} (hl : ind ∉ l) (hd : ¬ dead ind)
    (hb : l.length + 1 < 2 ^ 31) : RepAt (insert st w ind) w (l ++ [ind]) dead := by
  unfold Orion.insert
  simp only
  rw [if_pos ((h.find_eq_nil ind).2 ⟨hl, hd⟩), h.cnt, ofNat_add_one]
  constructor
  · rw [List.nodup_append]
    refine ⟨h.nodup, List.nodup_singleton _, fun a ha b hb e => hl ?_⟩
    rw [List.mem_singleton] at hb
    rwa [← hb, ← e]
  · simpa using hb
  · simp
  · intro i x hi
    simp only [put_apply, createBid_inj_right]
    rcases getElem?_concat_cases hi with hi | ⟨rfl, rfl⟩
    · have hlt := lt_of_getElem?_eq_some hi
      rw [if_neg (ofNat_ne_small (by omega) (by omega) (by omega))]
      exact h.srch i x hi
    · rw [if_pos rfl]
  · intro i x hi
    simp only [put_apply, createBid_inj_right]
    rcases getElem?_concat_cases hi with hi | ⟨rfl, rfl⟩
    · have hne : x ≠ ind := fun e => hl (e ▸ List.mem_of_getElem? hi)
      rw [if_neg hne]
      exact h.slot i x hi
    · rw [if_pos rfl, toInt_ofNat_small (by omega)]
  · intro x hx hdx
    simp only [put_apply, createBid_inj_right]
    rw [List.mem_append, List.mem_singleton, not_or] at hx
    rw [if_neg hx.2]
    exact h.gone x hx.1 hdx
  · intro x hx hdx
    simp only [put_apply, createBid_inj_right]
    rw [List.mem_append, List.mem_singleton, not_or] at hx
    rw [if_neg hx.2]
    exact h.absent x hx.1 hdx
  · simp

theorem RepAt.remove_dead (h : RepAt st w l dead) {ind : Int32} (hl : ind ∉ l) (hd : dead ind) :
    remove st w ind = (st, some ()) := by
  have hf : find st.updt (createBid w ind) = toStr (-1) := by simp [find, h.gone ind hl hd]
  have hs : stoi (toStr (-1)) = some (-1) := by decide
  unfold Orion.remove
  simp only [hf, hs]
  rw [if_neg (by decide)]

theorem RepAt.remove_absent (h : RepAt st w l dead) {ind : Int32} (hl : ind ∉ l) (hd : ¬ dead ind) :
    remove st w ind = (st, none) := by
  have hf : find st.updt (createBid w ind) = [] := by simp [find, h.absent ind hl hd]
  have hs : stoi [] = none := by decide
  unfold Orion.remove
  simp only [hf, hs]

/-- The list after slot `i` is filled with the last ind and the last slot is dropped. -/
def fill (l : List Int32) (i : Nat) : List Int32 := (l.set i (l.getLastD 0)).dropLast

theorem length_fill (l : List Int32) (i : Nat) : (fill l i).length = l.length - 1 := by
  simp [fill]

theorem getElem?_last {l : List Int32} (h : 0 < l.length) : l[l.length - 1]? = some (l.getLastD 0) := by
  rw [List.getLastD_eq_getLast?, List.getLast?_eq_getElem?, List.getElem?_eq_getElem (by omega)]
  rfl

theorem getElem?_fill {l : List Int32} {i j : Nat} (hj : j < l.length - 1) :
    (fill l i)[j]? = if i = j then some (l.getLastD 0) else l[j]? := by
  unfold fill
  rw [List.getElem?_dropLast, List.length_set, if_pos hj, List.getElem?_set]
  by_cases hij : i = j
  · rw [if_pos hij, if_pos hij, if_pos (by omega)]
  · rw [if_neg hij, if_neg hij]

/-- An ind of the shorter list filled the hole, or sits where it sat. -/
theorem getElem?_fill_cases {l : List Int32} {i j : Nat} {x : Int32} (h : (fill l i)[j]? = some x) :
    (j = i ∧ x = l.getLastD 0) ∨ (j ≠ i ∧ l[j]? = some x) := by
  have hlt := lt_of_getElem?_eq_some h
  rw [length_fill] at hlt
  rw [getElem?_fill hlt] at h
  by_cases hij : i = j
  · rw [if_pos hij] at h
    exact Or.inl ⟨hij.symm, (Option.some.inj h).symm⟩
  · rw [if_neg hij] at h
    exact Or.inr ⟨fun e => hij e.symm, h⟩

/-- Filling the hole removes one ind and keeps the others. -/
theorem mem_fill {l : List Int32} (hn : l.Nodup) {i : Nat} {ind : Int32} (hi : l[i]? = some ind)
    (x : Int32) : x ∈ fill l i ↔ x ∈ l ∧ x ≠ ind := by
  have hlt := lt_of_getElem?_eq_some hi
  have hlast := getElem?_last (l := l) (by omega)
  constructor
  · intro hx
    obtain ⟨j, hj⟩ := List.mem_iff_getElem?.1 hx
    have hjl := lt_of_getElem?_eq_some hj
    rw [length_fill] at hjl
    rcases getElem?_fill_cases hj with ⟨rfl, rfl⟩ | ⟨hij, hj⟩
    · refine ⟨List.mem_of_getElem? hlast, fun e => ?_⟩
      have := index_unique hn hi (e ▸ hlast)
      omega
    · exact ⟨List.mem_of_getElem? hj, fun e => hij (index_unique hn (e ▸ hj) hi)⟩
  · rintro ⟨hx, hne⟩
    obtain ⟨j, hj⟩ := List.mem_iff_getElem?.1 hx
    have hjl := lt_of_getElem?_eq_some hj
    by_cases hjlast : j = l.length - 1
    · -- the last ind sits in slot `i` now
      subst hjlast
      obtain rfl := Option.some.inj (hj.symm.trans hlast)
      have hil : i < l.length - 1 := by
        by_contra hge
        obtain rfl : i = l.length - 1 := by omega
        exact hne (Option.some.inj (hj.symm.trans hi))
      exact List.mem_of_getElem? ((getElem?_fill hil).trans (if_pos rfl))
    · have hij : i ≠ j := fun e => hne (Option.some.inj ((e ▸ hj).symm.trans hi))
      exact List.mem_of_getElem? (((getElem?_fill (by omega)).trans (if_neg hij)).trans hj)

theorem nodup_fill {l : List Int32} (hn : l.Nodup) {i : Nat} {ind : Int32} (hi : l[i]? = some ind) :
    (fill l i).Nodup := by
  have hlt := lt_of_getElem?_eq_some hi
  have hlast := getElem?_last (l := l) (by omega)
  rw [List.nodup_iff_getElem?_ne_getElem?]
  intro j k hjk hk he
  rw [length_fill] at hk
  rw [getElem?_fill (by omega), getElem?_fill (by omega)] at he
  have hkl : ∃ y, l[k]? = some y := ⟨_, List.getElem?_eq_getElem (by omega)⟩
  have hjl : ∃ y, l[j]? = some y := ⟨_, List.getElem?_eq_getElem (by omega)⟩
  obtain ⟨y, hy⟩ := hkl
  obtain ⟨z, hz⟩ := hjl
  split_ifs at he with h1 h2 h2
  · omega
  · have := index_unique hn hlast he.symm
    omega
  · have := index_unique hn hlast he
    omega
  · have := index_unique hn hz (he.symm.trans hz)
    omega

/-- What `remove` of the ind in slot `i` has to write. -/
theorem RepAt.of_filled (h : RepAt st w l dead) {i : Nat} {ind : Int32} (hi : l[i]? = some ind)
    {st' : State} (hslots : SlotsHold st' w (fill l i))
    (hupdt : ∀ x, st'.updt (createBid w x) =
      if i + 1 ≠ l.length ∧ x = l.getLastD 0 then some (toStr ((i + 1 : Nat) : Int))
      else if x = ind then some (toStr (-1)) else st.updt (createBid w x)) :
    RepAt st' w (fill l i) fun x => dead x ∨ x = ind := by
  have hlt := lt_of_getElem?_eq_some hi
  have hlastl := getElem?_last (l := l) (by omega)
  -- an ind outside the new list is not the one that moved
  have hmoved : ∀ x, x ∉ fill l i → ¬ (i + 1 ≠ l.length ∧ x = l.getLastD 0) := by
    rintro x hx ⟨hne, rfl⟩
    exact hx (List.mem_of_getElem? ((getElem?_fill (by omega)).trans (if_pos rfl)))
  refine ⟨nodup_fill h.nodup hi, hslots.bound, hslots.cnt, hslots.srch, ?_, ?_, ?_, hslots.last⟩
  · intro j x hj
    have hjl := lt_of_getElem?_eq_some hj
    rw [length_fill] at hjl
    have hmem := (mem_fill h.nodup hi x).1 (List.mem_of_getElem? hj)
    rw [hupdt]
    rcases getElem?_fill_cases hj with ⟨rfl, hx⟩ | ⟨-, hj⟩
    · rw [if_pos ⟨by omega, hx⟩]
    · rw [if_neg, if_neg hmem.2]
      · exact h.slot j x hj
      · rintro ⟨-, rfl⟩
        have := index_unique h.nodup hj hlastl
        omega
  · intro x hx hd
    rw [hupdt, if_neg (hmoved x hx)]
    by_cases hxi : x = ind
    · rw [if_pos hxi]
    · rw [if_neg hxi]
      have hxl : x ∉ l := fun hm => hx ((mem_fill h.nodup hi x).2 ⟨hm, hxi⟩)
      exact h.gone x hxl (hd.resolve_right hxi)
  · intro x hx hd
    have hxi : x ≠ ind := fun e => hd (Or.inr e)
    have hxl : x ∉ l := fun hm => hx ((mem_fill h.nodup hi x).2 ⟨hm, hxi⟩)
    rw [hupdt, if_neg (hmoved x hx), if_neg hxi]
    exact h.absent x hxl fun hdx => hd (Or.inl hdx)

/-- **Remove fills the hole with the last slot**, and writes down where the last ind went. -/
theorem SlotsHold.remove (h : SlotsHold st w l) {i : Nat} {ind : Int32} (hi : l[i]? = some ind)
    (hptr : st.updt (createBid w ind) = some (toStr ((i + 1 : Nat) : Int))) :
    (remove st w ind).2 = some () ∧ SlotsHold (Orion.remove st w ind).1 w (fill l i) ∧
      ∀ x, (Orion.remove st w ind).1.updt (createBid w x) =
        if i + 1 ≠ l.length ∧ x = l.getLastD 0 then some (toStr ((i + 1 : Nat) : Int))
        else if x = ind then some (toStr (-1)) else st.updt (createBid w x) := by
  have hlt := lt_of_getElem?_eq_some hi
  have hb := h.bound
  have hgetlast : (st.lastIND w).getD 0 = l.getLastD 0 := by
    rw [h.last, List.getLastD_eq_getLast?]
  have hone : Int32.ofNat (l.length - 1) + 1 = Int32.ofNat l.length := by
    rw [ofNat_add_one, Nat.sub_add_cancel (by omega)]
  have hsame : Int32.ofNat l.length ≠ Int32.ofNat (i + 1) ↔ i + 1 ≠ l.length :=
    ⟨fun hne e => hne (by rw [e]), fun hne e => hne (ofNat_inj_small (by omega) (by omega) e).symm⟩
  have hfind : find st.updt (createBid w ind) = toStr ((i + 1 : Nat) : Int) := by
    simp only [find, hptr, Option.getD_some]
  have hbound : (fill l i).length < 2 ^ 31 := by
    rw [length_fill]
    omega
  unfold Orion.remove
  simp only [hfind, stoi_slot (show i + 1 < 2 ^ 31 by omega), h.cnt,
    ofNat_sub_one (show 0 < l.length by omega), hone]
  rw [if_pos ((ofNat_pos (by omega)).2 (by omega))]
  by_cases hn : 0 < l.length - 1
  · rw [if_pos ((ofNat_pos (by omega)).2 hn)]
    -- the state before `lastIND` is read back from the new last slot
    set st1 : State := { st with
      updt := put st.updt (createBid w ind) (toStr (-1))
      updtCnt := Function.update st.updtCnt w (some (Int32.ofNat (l.length - 1))) } with hst1
    set st2 := if Int32.ofNat l.length ≠ Int32.ofNat (i + 1) then
      fillHole st1 w (Int32.ofNat (i + 1)) (toStr ((i + 1 : Nat) : Int)) else st1 with hst2
    have hcnt2 : st2.updtCnt w = some (Int32.ofNat (l.length - 1)) := by
      rw [hst2]
      split <;> simp [fillHole, hst1]
    have hsrch2 : ∀ j x, (fill l i)[j]? = some x →
        st2.srch (createBid w (Int32.ofNat (j + 1))) = some (toStr x.toInt) := by
      intro j x hj
      have hjl := lt_of_getElem?_eq_some hj
      rw [length_fill] at hjl
      rw [getElem?_fill hjl] at hj
      have hslot : Int32.ofNat (j + 1) = Int32.ofNat (i + 1) ↔ i = j :=
        ⟨fun e => by have := ofNat_inj_small (by omega) (by omega) e; omega, fun e => by rw [e]⟩
      rw [hst2]
      by_cases hsw : i + 1 ≠ l.length
      · rw [if_pos (hsame.2 hsw)]
        simp only [fillHole, put_apply, createBid_inj_right, hst1, hgetlast, hslot]
        split at hj
        · next hij => rw [if_pos hij, Option.some.inj hj]
        · next hij => rw [if_neg hij]; exact h.srch j x hj
      · rw [if_neg (fun e => hsw (hsame.1 e)), hst1]
        rw [if_neg (by omega)] at hj
        exact h.srch j x hj
    have hupdt2 : ∀ x, st2.updt (createBid w x) =
        if i + 1 ≠ l.length ∧ x = l.getLastD 0 then some (toStr ((i + 1 : Nat) : Int))
        else if x = ind then some (toStr (-1)) else st.updt (createBid w x) := by
      intro x
      rw [hst2]
      by_cases hsw : i + 1 ≠ l.length
      · rw [if_pos (hsame.2 hsw)]
        simp only [fillHole, put_apply, createBid_inj_right, hst1, hgetlast, hsw, ne_eq,
          not_false_eq_true, true_and]
      · rw [if_neg (fun e => hsw (hsame.1 e)), if_neg (fun e => hsw e.1), hst1]
        simp only [put_apply, createBid_inj_right]
    have hnew := getElem?_last (l := fill l i) (by rw [length_fill]; exact hn)
    have hread : find st2.srch (createBid w (Int32.ofNat (l.length - 1))) =
        toStr ((fill l i).getLastD 0).toInt := by
      have := hsrch2 _ _ hnew
      rw [length_fill, Nat.sub_add_cancel hn] at this
      simp only [find, this, Option.getD_some]
    rw [hread, stoi_toStr]
    refine ⟨rfl, ⟨hbound, ?_, hsrch2, ?_⟩, hupdt2⟩
    · simp only [hcnt2, Option.getD_some, length_fill]
    · rw [List.getLast?_eq_getElem?, hnew]
      simp
  · -- the only slot
    rw [if_neg fun e => hn ((ofNat_pos (by omega)).1 e)]
    have hfill : fill l i = [] := List.eq_nil_of_length_eq_zero (by rw [length_fill]; omega)
    refine ⟨rfl, ⟨hbound, ?_, ?_, by simp [hfill]⟩, ?_⟩
    · simp [length_fill]
    · intro j x hj
      simp [hfill] at hj
    · intro x
      have hno : ¬ (i + 1 ≠ l.length ∧ x = l.getLastD 0) := by
        rintro ⟨hne, -⟩
        omega
      simp only [put_apply, createBid_inj_right, if_neg hno]

theorem RepAt.remove (h : RepAt st w l dead) {i : Nat} {ind : Int32} (hi : l[i]? = some ind) :
    (remove st w ind).2 = some () ∧
      RepAt (Orion.remove st w ind).1 w (fill l i) fun x => dead x ∨ x = ind := by
  obtain ⟨hret, hslots, hupdt⟩ := h.slots.remove hi (h.slot i ind hi)
  exact ⟨hret, h.of_filled hi hslots hupdt⟩

/-- **Search reads the list.** -/
theorem search_slots (hb : l.length < 2 ^ 31) (hcnt : (st.updtCnt w).getD 0 = Int32.ofNat l.length)
    (hsrch : ∀ i x, l[i]? = some x → st.srch (createBid w (Int32.ofNat (i + 1))) = some (toStr x.toInt)) :
    search st w = some l := by
  have hread : batchSearch st.srch (slotBids w (Int32.ofNat l.length)) = l.map fun x => toStr x.toInt := by
    unfold batchSearch slotBids
    rw [toInt_ofNat_small (by omega), Int.toNat_natCast, List.filterMap_map]
    apply List.ext_getElem?
    intro j
    have hall : (List.range l.length).filterMap (st.srch ∘ fun i => createBid w (Int32.ofNat (i + 1))) =
        (List.range l.length).map fun i => toStr (l.getD i 0).toInt := by
      rw [← List.filterMap_eq_map]
      apply List.filterMap_congr
      intro i hi
      rw [List.mem_range] at hi
      simpa [hi] using hsrch i l[i] (List.getElem?_eq_getElem hi)
    rw [hall, List.getElem?_map, List.getElem?_map]
    by_cases hj : j < l.length
    · simp [hj]
    · rw [List.getElem?_eq_none (by simpa using hj), List.getElem?_eq_none (by omega)]
      rfl
  have hparse : ∀ l : List Int32, (l.map fun x => toStr x.toInt).mapM stoi = some l := by
    intro l
    induction l with
    | nil => rfl
    | cons x l ih => simp [stoi_toStr, ih]
  unfold Orion.search
  cases hc : st.updtCnt w with
  | none =>
    have hlen : l.length = 0 := by
      rw [hc] at hcnt
      have := ofNat_inj_small (by omega) (by omega) (show Int32.ofNat 0 = Int32.ofNat l.length from hcnt)
      omega
    rw [List.eq_nil_of_length_eq_zero hlen]
    rfl
  | some n =>
    rw [hc, Option.getD_some] at hcnt
    simp only [hcnt, hread, hparse]

theorem SlotsHold.search (h : SlotsHold st w l) : Orion.search st w = some l := search_slots h.bound h.cnt h.srch

theorem RepAt.search (h : RepAt st w l dead) : Orion.search st w = some l := h.slots.search

theorem RepAt.congr_dead (h : RepAt st w l dead) {dead' : Int32 → Prop} (hd : ∀ x, dead x ↔ dead' x) :
    RepAt st w l dead' where
  nodup := h.nodup
  bound := h.bound
  cnt := h.cnt
  srch := h.srch
  slot := h.slot
  gone := fun x hx hdx => h.gone x hx ((hd x).2 hdx)
  absent := fun x hx hdx => h.absent x hx fun e => hdx ((hd x).1 e)
  last := h.last

end

/-! ## Histories -/

/-- Whether the last insert or remove call on the pair was an insert. -/
def live (ops : List Op) (w : Str) (ind : Int32) : Bool :=
  ops.foldl (fun b op => if op = .insert w ind then true else if op = .remove w ind then false else b) false

/-- The live inds of a keyword, each once. -/
def liveInds (ops : List Op) (w : Str) : List Int32 :=
  (ops.filterMap fun op => match op with
    | .insert w' ind => if w' = w ∧ live ops w ind = true then some ind else none
    | _ => none).dedup

/-- The calls the scheme is meant for: short keywords, and removes of pairs inserted earlier. -/
def Allowed (pre : List Op) : Op → Prop
  | .insert w _ => Valid w
  | .remove w ind => Valid w ∧ .insert w ind ∈ pre
  | .search w => Valid w

/-- The calls `insert` is right about: the pair was not removed before, and the count of the
keyword's slots stays inside an `int`. -/
def Fresh (pre : List Op) : Op → Prop
  | .insert w ind => .remove w ind ∉ pre ∧ (liveInds pre w).length < 2 ^ 31 - 2
  | _ => True

instance (w : Str) : Decidable (Valid w) :=
  decidable_of_iff (NulFree w ∧ w.length ≤ 12) ⟨fun h => ⟨h.1, h.2⟩, fun h => ⟨h.nulFree, h.fits⟩⟩

instance (pre : List Op) : ∀ op, Decidable (Allowed pre op)
  | .insert w _ => inferInstanceAs (Decidable (Valid w))
  | .remove w ind => inferInstanceAs (Decidable (Valid w ∧ Op.insert w ind ∈ pre))
  | .search w => inferInstanceAs (Decidable (Valid w))

instance (pre : List Op) : ∀ op, Decidable (Fresh pre op)
  | .insert w ind => inferInstanceAs (Decidable (Op.remove w ind ∉ pre ∧ _ < _))
  | .remove _ _ => isTrue trivial
  | .search _ => isTrue trivial

@[simp] theorem live_concat (ops : List Op) (op : Op) (w : Str) (ind : Int32) :
    live (ops ++ [op]) w ind =
      if op = .insert w ind then true else if op = .remove w ind then false else live ops w ind := by
  simp [live]

theorem insert_mem_of_live {ops : List Op} {w : Str} {ind : Int32} (h : live ops w ind = true) :
    Op.insert w ind ∈ ops := by
  induction ops using List.reverseRecOn with
  | nil => simp [live] at h
  | append_singleton ops op ih =>
    rw [live_concat] at h
    split at h
    · next he => simp [he]
    · split at h
      · cases h
      · exact List.mem_append_left _ (ih h)

/-- A pair that was never removed is live once it is inserted. -/
theorem live_of_not_removed {ops : List Op} {w : Str} {ind : Int32} (hr : Op.remove w ind ∉ ops)
    (hi : Op.insert w ind ∈ ops) : live ops w ind = true := by
  induction ops using List.reverseRecOn with
  | nil => simp at hi
  | append_singleton ops op ih =>
    rw [List.mem_append, List.mem_singleton] at hr hi
    rw [live_concat]
    split
    · rfl
    · next hne =>
      rw [if_neg fun e => hr (Or.inr e.symm)]
      exact ih (fun h => hr (Or.inl h)) (hi.resolve_right fun e => hne e.symm)

theorem mem_liveInds {ops : List Op} {w : Str} {ind : Int32} :
    ind ∈ liveInds ops w ↔ live ops w ind = true := by
  unfold liveInds
  rw [List.mem_dedup, List.mem_filterMap]
  constructor
  · rintro ⟨op, hop, h⟩
    cases op with
    | insert w' ind' =>
      simp only [Option.ite_none_right_eq_some, Option.some.injEq] at h
      exact h.2 ▸ h.1.2
    | remove w' ind' => cases h
    | search w' => cases h
  · intro h
    exact ⟨.insert w ind, insert_mem_of_live h, by simp [h]⟩

/-! ## Exactness -/

/-- What a run of fresh calls leaves behind: for every keyword the list of its live inds, and
the removed pairs. -/
def SlotInv (ops : List Op) (st : State) : Prop :=
  ∀ w, Valid w → ∃ l, RepAt st w l (fun ind => Op.remove w ind ∈ ops) ∧
    (∀ ind, ind ∈ l ↔ live ops w ind = true) ∧ ∀ ind ∈ l, Op.remove w ind ∉ ops

theorem SlotInv.length_eq {ops : List Op} {w : Str} {l : List Int32} (hn : l.Nodup)
    (hl : ∀ ind, ind ∈ l ↔ live ops w ind = true) : l.length = (liveInds ops w).length := by
  have hd : (liveInds ops w).Nodup := List.nodup_dedup _
  apply List.Perm.length_eq
  rw [List.perm_ext_iff_of_nodup hn hd]
  intro ind
  rw [hl]
  exact mem_liveInds.symm

/-- **One call** on a keyword whose list is what was inserted and never removed: so it is after the call. -/
theorem RepAt.call {pre : List Op} {st : State} {w : Str} {l : List Int32} {op : Op}
    (h : RepAt st w l fun ind => Op.remove w ind ∈ pre)
    (hmem : ∀ ind, ind ∈ l ↔ Op.insert w ind ∈ pre ∧ Op.remove w ind ∉ pre) (hw : Valid w) (hop : Valid op.keyword)
    (hremove : ∀ ind, op = .remove w ind → Op.insert w ind ∈ pre)
    (hroom : ∀ ind, op = .insert w ind → l.length + 1 < 2 ^ 31) :
    ∃ l', RepAt (step st op).1 w l' (fun ind => Op.remove w ind ∈ pre ++ [op]) ∧ l'.length ≤ l.length + 1 ∧
      ∀ ind, ind ∈ l' ↔ Op.insert w ind ∈ pre ++ [op] ∧ Op.remove w ind ∉ pre ++ [op] := by
  by_cases hk : op.keyword = w
  · cases op with
    | search w' => exact ⟨l, h.congr_dead (by simp), Nat.le_succ _, by simpa using hmem⟩
    | insert w' ind =>
      obtain rfl : w' = w := hk
      have hdead : ∀ x, Op.remove w' x ∈ pre ↔ Op.remove w' x ∈ pre ++ [Op.insert w' ind] := by simp
      by_cases hin : ind ∈ l ∨ Op.remove w' ind ∈ pre
      · refine ⟨l, ?_, Nat.le_succ _, fun x => ?_⟩
        · simp only [step, h.insert_skip hin]
          exact h.congr_dead hdead
        · rw [hmem, ← hdead]
          by_cases hx : x = ind
          · subst hx
            rcases hin with hin | hin
            · simp [(hmem x).1 hin]
            · simp [hin]
          · simp [hx]
      · rw [not_or] at hin
        refine ⟨l ++ [ind], (h.insert hin.1 hin.2 (hroom ind rfl)).congr_dead hdead, by simp, fun x => ?_⟩
        rw [List.mem_append, List.mem_singleton, hmem, ← hdead]
        by_cases hx : x = ind
        · subst hx
          simp [hin.2]
        · simp [hx]
    | remove w' ind =>
      obtain rfl : w' = w := hk
      have hins : Op.insert w' ind ∈ pre := hremove ind rfl
      have hdead : ∀ x, Op.remove w' x ∈ pre ++ [Op.remove w' ind] ↔ Op.remove w' x ∈ pre ∨ x = ind := by simp
      by_cases hin : ind ∈ l
      · obtain ⟨i, hi⟩ := List.mem_iff_getElem?.1 hin
        refine ⟨fill l i, (h.remove hi).2.congr_dead fun x => (hdead x).symm, by rw [length_fill]; omega, fun x => ?_⟩
        rw [mem_fill h.nodup hi, hmem, hdead, not_or, and_assoc]
        simp
      · -- removed before, so it stays `-1`
        have hrem : Op.remove w' ind ∈ pre := by
          by_contra hno
          exact hin ((hmem ind).2 ⟨hins, hno⟩)
        have hsame : ∀ x, Op.remove w' x ∈ pre ++ [Op.remove w' ind] ↔ Op.remove w' x ∈ pre := by
          intro x
          rw [hdead, or_iff_left_iff_imp]
          rintro rfl
          exact hrem
        refine ⟨l, ?_, Nat.le_succ _, fun x => ?_⟩
        · simp only [step, h.remove_dead hin hrem]
          exact h.congr_dead fun x => (hsame x).symm
        · rw [hmem, hsame]
          simp
  · -- a call on another keyword changes neither the list nor the history of `w`
    have hne : padTo 12 w ≠ padTo 12 op.keyword := fun e =>
      hk (padTo_injective hw.nulFree hop.nulFree hw.fits hop.fits e).symm
    have hins : ∀ x, op ≠ .insert w x := fun x e => hk (by rw [e]; rfl)
    have hrem : ∀ x, op ≠ .remove w x := fun x e => hk (by rw [e]; rfl)
    have hmem1 : ∀ x, Op.remove w x ∈ pre ++ [op] ↔ Op.remove w x ∈ pre := by
      intro x
      rw [List.mem_append, List.mem_singleton, or_iff_left fun e => hrem x e.symm]
    have hmem2 : ∀ x, Op.insert w x ∈ pre ++ [op] ↔ Op.insert w x ∈ pre := by
      intro x
      rw [List.mem_append, List.mem_singleton, or_iff_left fun e => hins x e.symm]
    refine ⟨l, (h.of_agree (step_other hne)).congr_dead fun x => (hmem1 x).symm, Nat.le_succ _, fun x => ?_⟩
    rw [hmem1, hmem2]
    exact hmem x

theorem Allowed.valid {pre : List Op} {op : Op} (h : Allowed pre op) : Valid op.keyword := by
  cases op with
  | insert w ind => exact h
  | remove w ind => exact h.1
  | search w => exact h

/-- In a run of fresh calls the live pairs are those that were never removed. -/
theorem live_iff_of_fresh {ops : List Op} (hf : Runs.Each Fresh [] ops) {w : Str} {ind : Int32} :
    live ops w ind = true ↔ Op.insert w ind ∈ ops ∧ Op.remove w ind ∉ ops := by
  refine ⟨fun h => ⟨insert_mem_of_live h, ?_⟩, fun h => live_of_not_removed h.2 h.1⟩
  induction ops using List.reverseRecOn with
  | nil => exact List.not_mem_nil
  | append_singleton pre op ih =>
    rw [Runs.each_concat, List.nil_append] at hf
    rw [List.mem_append, List.mem_singleton, not_or]
    rw [live_concat] at h
    split at h
    · next e =>
      have hfresh : Fresh pre (.insert w ind) := e ▸ hf.2
      exact ⟨hfresh.1, fun hrem => by rw [e] at hrem; cases hrem⟩
    · split at h
      · cases h
      · next hne => exact ⟨ih hf.1 h, fun e => hne e.symm⟩

theorem slotInv_after (ops : List Op) (ha : Runs.Each Allowed [] ops) (hf : Runs.Each Fresh [] ops) :
    SlotInv ops (after ops) := by
  intro w hw
  induction ops using List.reverseRecOn with
  | nil => exact ⟨[], (repAt_init w).congr_dead (by simp), by simp [live], by simp⟩
  | append_singleton pre op ih =>
    have hlive' := @live_iff_of_fresh _ hf w
    rw [Runs.each_concat, List.nil_append] at ha hf
    obtain ⟨l, hrep, hlive, -⟩ := ih ha.1 hf.1
    have hroom : ∀ ind, op = .insert w ind → l.length + 1 < 2 ^ 31 := by
      rintro ind rfl
      have hb : (liveInds pre w).length < 2 ^ 31 - 2 := hf.2.2
      rw [SlotInv.length_eq hrep.nodup hlive]
      omega
    obtain ⟨l', hrep', -, hmem⟩ := hrep.call (fun ind => (hlive ind).trans (live_iff_of_fresh hf.1)) hw ha.2.valid
      (fun ind e => (e ▸ ha.2 : Allowed pre (.remove w ind)).2) hroom
    rw [after_concat]
    exact ⟨l', hrep', fun ind => (hmem ind).trans hlive'.symm, fun ind h => ((hmem ind).1 h).2⟩

/-- **Search is exact** in every run that does not insert a removed pair again: it returns
every live ind once and nothing else. -/
theorem search_exact (ops : List Op) (ha : Runs.Each Allowed [] ops) (hf : Runs.Each Fresh [] ops)
    (w : Str) (hw : Valid w) :
    ∃ l, search (after ops) w = some l ∧ l.Nodup ∧ ∀ ind, ind ∈ l ↔ live ops w ind = true := by
  obtain ⟨l, hrep, hlive, -⟩ := slotInv_after ops ha hf w hw
  exact ⟨l, hrep.search, hrep.nodup, hlive⟩

theorem search_exact_two_inserts :
    ∃ l, search (after [.insert [97] 1, .insert [97] 2, .remove [97] 1]) [97] = some l ∧ l.Nodup ∧
      ∀ ind, ind ∈ l ↔ live [.insert [97] 1, .insert [97] 2, .remove [97] 1] [97] ind = true :=
  search_exact _ (by decide) (by decide) [97] (by decide)

/-- A pair inserted again after its removal is live, and search does not return it. -/
theorem search_misses_reinserted :
    ¬ ∀ ops : List Op, Runs.Each Allowed [] ops → ∀ w, Valid w →
      ∃ l, search (after ops) w = some l ∧ l.Nodup ∧ ∀ ind, ind ∈ l ↔ live ops w ind = true := by
  intro h
  obtain ⟨l, hs, -, hl⟩ := h [.insert [97] 1, .remove [97] 1, .insert [97] 1] (by decide) [97] (by decide)
  have he : search (after [.insert [97] 1, .remove [97] 1, .insert [97] 1]) [97] = some [] := by decide
  have hlive : live [.insert [97] 1, .remove [97] 1, .insert [97] 1] [97] 1 = true := by decide
  rw [he] at hs
  obtain rfl := Option.some.inj hs
  exact List.not_mem_nil ((hl 1).2 hlive)

end Sse.Orion
