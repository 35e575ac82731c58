import Sse.Mitra.Remote

/-!
# Mitra and lost updates

`MitraClientRunner::update` goes on when its message does not arrive, and `FileCnt` has been
advanced by then.  The server leaves an address it does not have out of its reply, and
the client pairs the `i`-th reply with the `i`-th pad.  So the entries of a keyword are
decoded as they were sent as long as those that arrived are the first ones:

    nothing of a keyword arrives after a loss
      → a search counts exactly the updates that arrived               (lossy_search_exact)

One update that arrives after a loss is decoded with the pad of another counter
(`lossy_search_wrong`).
-/

namespace Sse.Mitra

/-- The calls whose message arrived. -/
def arrivals (ops : List (Bool × Op)) : List Op := (ops.filter Prod.fst).map Prod.snd

/-- No update arrives after one of the same keyword was lost. -/
def InOrder (pre : List (Bool × Op)) : Bool × Op → Prop
  | (true, .update _ w _ _) => ∀ op ind fill, (false, Op.update op w ind fill) ∉ pre
  | (false, .update _ _ _ _) => True
  | (_, .search _ _) => True

/-- The ciphertext an update stores is not the block that stands for an absent entry. -/
def VisibleThere (prg : PrfType → PrfType) (pre : List (Bool × Op)) : Bool × Op → Prop
  | (true, .update op w ind fill) => (updateRequest prg false (runnerAfter prg false pre) op w ind fill).2.2 ≠ notfound
  | (false, .update _ _ _ _) => True
  | (_, .search _ _) => True

/-! ## What a keyword keeps -/

/-- Of `n` updates sent the first ones arrived, and they are `es`. -/
structure Arrived (prg : PrfType → PrfType) (st : State) (w : Str) (n : Nat) (es : List Entry) : Prop where
  cnt : st.fileCnt (keyBuf w) = if n = 0 then none else some (Int32.ofNat n)
  holds : HoldsAt prg false st.dictW (keyBuf w) 0 es
  gone : ∀ i, es.length < i → i < 2 ^ 31 → st.dictW (addr prg w i) = notfound
  le : es.length ≤ n

section

variable {prg : PrfType → PrfType} {st : State} {w : Str} {n : Nat} {es : List Entry}

theorem Arrived.nextCnt (h : Arrived prg st w n es) : nextFileCnt (st.fileCnt (keyBuf w)) = Int32.ofNat (n + 1) := by
  rw [h.cnt]
  split_ifs with he
  · rw [he]
    rfl
  · exact ofNat_add_one _

theorem Arrived.other {st' : State} (h : Arrived prg st w n es) (ha : AgreeOn prg false w st st') :
    Arrived prg st' w n es := by
  have hown := own_keyBuf false w
  refine ⟨by rw [ha.fileCnt _ hown]; exact h.cnt, ⟨fun i e hi => ?_, h.holds.found⟩, fun i h1 h2 => ?_, h.le⟩
  · rw [ha.dictW _ (hown.seed 0 _ _)]
    exact h.holds.dict i e hi
  · rw [addr, ha.dictW _ (hown.seed 0 _ _)]
    exact h.gone i h1 h2

/-- **A lost update** is counted, and nothing else. -/
theorem Arrived.lose (h : Arrived prg st w n es) (op : OP) (ind : Int32) (fill : Fill) :
    Arrived prg (runnerUpdate prg false false st op w ind fill) w (n + 1) es := by
  refine ⟨?_, h.holds, h.gone, by have := h.le; omega⟩
  show Function.update _ _ _ _ = _
  rw [Function.update_self, if_neg (by omega), h.nextCnt]

/-- **An update that arrives** after all the others did. -/
theorem Arrived.arrive (hprg : Function.Injective prg) (h : Arrived prg st w n es) (hall : es.length = n)
    (hb : n + 1 < 2 ^ 31) (e : Entry) (hnz : (updateRequest prg false st e.op w e.ind e.fill).2.2 ≠ notfound) :
    Arrived prg (runnerUpdate prg false true st e.op w e.ind e.fill) w (n + 1) (es ++ [e]) := by
  have hval : (updateRequest prg false st e.op w e.ind e.fill).2.2 =
      cipher prg false (keyBuf w) 0 (Int32.ofNat (n + 1)) e := by
    rw [updateRequest_val, h.nextCnt]
    rfl
  have hdict : (runnerUpdate prg false true st e.op w e.ind e.fill).dictW =
      Function.update st.dictW (addr prg w (n + 1)) (cipher prg false (keyBuf w) 0 (Int32.ofNat (n + 1)) e) := by
    rw [runnerUpdate_true]
    simp only [update_eq, h.nextCnt]
    rfl
  have hkeep : ∀ i, i ≠ n → i + 1 < 2 ^ 31 →
      (runnerUpdate prg false true st e.op w e.ind e.fill).dictW (addr prg w (i + 1)) = st.dictW (addr prg w (i + 1)) := by
    intro i hi hlt
    rw [hdict]
    apply Function.update_of_ne
    intro he
    have := ofNat_inj_small hlt hb (seed_inj (hprg he)).2.2
    omega
  refine ⟨?_, ⟨fun i x hi => ?_, fun i x hi => ?_⟩, fun i h1 h2 => ?_, by simp [hall]⟩
  · show Function.update _ _ _ _ = _
    rw [Function.update_self, if_neg (by omega), h.nextCnt]
  · rcases getElem?_concat_cases hi with hi' | ⟨rfl, rfl⟩
    · have hlt := lt_of_getElem?_eq_some hi'
      refine (hkeep i (by omega) (by omega)).trans ?_
      exact h.holds.dict i x hi'
    · rw [hall, hdict]
      exact Function.update_self _ _ _
  · rcases getElem?_concat_cases hi with hi' | ⟨rfl, rfl⟩
    · exact h.holds.found i x hi'
    · rw [hall, ← hval]
      exact hnz
  · rw [List.length_append, List.length_singleton] at h1
    obtain ⟨j, rfl⟩ : ∃ j, i = j + 1 := ⟨i - 1, by omega⟩
    rw [hkeep j (by omega) h2]
    exact h.gone (j + 1) (by omega) h2

/-- The reply: what arrived, in order, and nothing for the rest. -/
theorem Arrived.reply (h : Arrived prg st w n es) (hb : n < 2 ^ 31) :
    serverSearch st.dictW (addrLoop prg false 0 (keyBuf w) (counters (Int32.ofNat n))).2 =
      (es.zipIdx 1).map fun e => cipher prg false (keyBuf w) 0 (Int32.ofNat e.2) e.1 := by
  obtain ⟨d, rfl⟩ := Nat.exists_eq_add_of_le h.le
  have hm : es.length < 2 ^ 31 := by omega
  have hsplit : counters (Int32.ofNat (es.length + d)) =
      counters (Int32.ofNat es.length) ++ (List.range d).map fun i => Int32.ofNat (es.length + i + 1) := by
    rw [counters, counters, toInt_ofNat_small hb, toInt_ofNat_small hm, Int.toNat_natCast, Int.toNat_natCast,
      List.range_add, List.map_append, List.map_map]
    rfl
  have hgone : (((List.range d).map fun i => Int32.ofNat (es.length + i + 1)).map
      (st.dictW ∘ fun i => prg (seed false (keyBuf w) 0 0 i))).filter (fun x => decide (x ≠ notfound)) = [] := by
    rw [List.filter_eq_nil_iff]
    intro a ha
    obtain ⟨c, hc, rfl⟩ := List.mem_map.1 ha
    obtain ⟨i, hi, rfl⟩ := List.mem_map.1 hc
    have hlt := List.mem_range.1 hi
    have := h.gone (es.length + i + 1) (by omega) (by omega)
    simpa [addr] using this
  rw [← h.holds.reply (show (Int32.ofNat es.length).toInt.toNat = es.length by rw [toInt_ofNat_small hm]; simp)]
  rw [serverSearch, serverSearch, addrLoop_snd, addrLoop_snd, hsplit, List.map_map, List.map_map, List.map_append,
    List.filter_append, hgone, List.append_nil]

/-- **Search decodes what arrived.** -/
theorem Arrived.search (h : Arrived prg st w n es) (hb : n < 2 ^ 31 - 1) (fills : Nat → Fill) :
    runnerSearch prg false st w fills = (st, some ((Tally.count (es.map Entry.step)).keysWhere (· < 0))) := by
  have hint := toInt_ofNat_small (show n < 2 ^ 31 by omega)
  rw [runnerSearch_keeping]
  unfold Mitra.search
  simp only [h.cnt, Bool.false_eq_true, if_false, touchSrcCnt]
  by_cases h0 : n = 0
  · have hle := h.le
    obtain rfl : es = [] := List.length_eq_zero_iff.1 (by omega)
    rw [if_pos h0]
    rfl
  · rw [if_neg h0]
    have hok : ¬ (Int32.ofNat n < 0 ∨ Int32.ofNat n = Int32.maxValue) := by
      rw [Int32.lt_iff_toInt_lt, ← Int32.toInt_inj, hint]
      have hz : (0 : Int32).toInt = 0 := rfl
      have hmax : Int32.maxValue.toInt = 2147483647 := rfl
      omega
    have hq : (query prg false st.dictW 0 (keyBuf w) (Int32.ofNat n)).2 = Tally.count (es.map Entry.step) := by
      unfold query
      simp only
      rw [h.reply (by omega)]
      exact decodeLoop_snd prg false 0 (seed_addrLoop prg false 0 _ _) 1 SortedMap.empty es
    simp only [if_neg hok, hq]

end

/-! ## Runs with losses -/

theorem arrivals_concat (ops : List (Bool × Op)) (d : Bool) (op : Op) :
    arrivals (ops ++ [(d, op)]) = if d then arrivals ops ++ [op] else arrivals ops := by
  cases d <;> simp [arrivals]

theorem Valid.padTo_ne {w w' : Str} (hw : Valid w) (hw' : Valid w') (hne : w ≠ w') :
    padTo (width false) w ≠ padTo (width false) w' :=
  fun h => hne (padTo_injective hw.nulFree hw'.nulFree hw.fits hw'.fits h)

section

variable {prg : PrfType → PrfType}

theorem runnerStep_other (hprg : Function.Injective prg) {w : Str} (hw : Valid w) (st : State) {p : Bool × Op}
    (hp : Valid p.2.keyword) (hne : p.2.keyword ≠ w) : AgreeOn prg false w st (runnerStep prg false st p).1 := by
  have hpad := hw.padTo_ne hp (Ne.symm hne)
  obtain ⟨d, op⟩ := p
  cases op with
  | search w' fills =>
    show AgreeOn prg false w st (runnerSearch prg false st w' fills).1
    rw [runnerSearch_keeping]
    exact search_other hpad hprg st fills
  | update op w' ind fill =>
    cases d with
    | true => exact update_other hpad hprg st op ind fill
    | false =>
      refine ⟨fun k hk => ?_, fun k hk => rfl, fun k hk => rfl⟩
      exact update_own_ne hpad (own_keyBuf false w') _ hk

/-- As long as nothing is lost, all that was sent arrived. -/
theorem entries_arrivals {ops : List (Bool × Op)} {w : Str}
    (h : ∀ op ind fill, (false, Op.update op w ind fill) ∉ ops) :
    entries (arrivals ops) w = entries (ops.map Prod.snd) w := by
  induction ops using List.reverseRecOn with
  | nil => rfl
  | append_singleton ops p ih =>
    obtain ⟨d, o⟩ := p
    have ih := ih fun op ind fill hm => h op ind fill (List.mem_append_left _ hm)
    rw [arrivals_concat, List.map_append, List.map_singleton]
    cases d with
    | true => simp only [if_true, entries, List.filterMap_append] at ih ⊢; rw [ih]
    | false =>
      have ho : entries (ops.map Prod.snd ++ [o]) w = entries (ops.map Prod.snd) w := by
        cases o with
        | search w' fills => exact entries_search _ w w' fills
        | update op w' ind fill =>
          rw [entries_update, if_neg]
          rintro rfl
          exact h op ind fill (by simp)
      rw [if_neg (by simp), ih, ho]

/-- Every keyword keeps what arrived of it, in every state reached. -/
theorem arrived_after (hprg : Function.Injective prg) {ops : List (Bool × Op)} (hk : ∀ p ∈ ops, Valid p.2.keyword)
    (hz : Runs.Each (VisibleThere prg) [] ops) (hord : Runs.Each InOrder [] ops)
    (hn : ∀ w, (entries (ops.map Prod.snd) w).length ≤ 2 ^ 31 - 2) {w : Str} (hw : Valid w) :
    Arrived prg (runnerAfter prg false ops) w (entries (ops.map Prod.snd) w).length (entries (arrivals ops) w) := by
  induction ops using List.reverseRecOn with
  | nil => exact ⟨rfl, holdsAt_nil, fun _ _ _ => rfl, le_refl _⟩
  | append_singleton ops p ih =>
    obtain ⟨d, o⟩ := p
    rw [Runs.each_concat, List.nil_append] at hz hord
    have hpre : ∀ w, (entries (ops.map Prod.snd) w).length ≤ 2 ^ 31 - 2 := by
      intro w
      refine le_trans ?_ (hn w)
      rw [List.map_append]
      exact length_entries_append _ _ w
    have hlen := hn w
    have ih := ih (fun p hp => hk p (List.mem_append_left _ hp)) hz.1 hord.1 hpre
    have hko : Valid o.keyword := hk (d, o) (by simp)
    rw [runnerAfter_concat, arrivals_concat]
    rw [List.map_append, List.map_singleton] at hlen ⊢
    by_cases he : o.keyword = w
    · cases o with
      | search w' fills =>
        have hsame : entries (if d then arrivals ops ++ [.search w' fills] else arrivals ops) w =
            entries (arrivals ops) w := by
          cases d with
          | true => exact entries_search _ w w' fills
          | false => rfl
        obtain rfl : w' = w := he
        rw [hsame, entries_search]
        show Arrived prg (runnerSearch prg false _ w' fills).1 _ _ _
        rw [ih.search (by have := hpre w'; omega)]
        exact ih
      | update op w' ind fill =>
        obtain rfl : w' = w := he
        rw [entries_update, if_pos rfl, List.length_append, List.length_singleton] at hlen ⊢
        cases d with
        | true =>
          rw [if_pos rfl, entries_update, if_pos rfl]
          have hall := congrArg List.length (entries_arrivals hord.2)
          exact ih.arrive hprg hall (by omega) ⟨op, ind, fill⟩ hz.2
        | false => exact ih.lose op ind fill
    · have hsame : entries (if d then arrivals ops ++ [o] else arrivals ops) w = entries (arrivals ops) w := by
        cases d with
        | true => exact entries_other _ he
        | false => rfl
      rw [hsame, entries_other _ he]
      exact ih.other (runnerStep_other hprg hw _ hko he)

end

/-- **A search counts the updates that arrived**, when no update of a keyword arrives after one of it
was lost and each keyword has at most `2 ^ 31 - 2` updates. -/
theorem lossy_search_exact (prg : PrfType → PrfType) (hprg : Function.Injective prg) (ops : List (Bool × Op))
    (hk : ∀ p ∈ ops, Valid p.2.keyword) (hz : Runs.Each (VisibleThere prg) [] ops)
    (hord : Runs.Each InOrder [] ops) (hn : ∀ w, (entries (ops.map Prod.snd) w).length ≤ 2 ^ 31 - 2)
    (w : Str) (hw : Valid w) (fills : Nat → Fill) :
    ∃ l, (runnerSearch prg false (runnerAfter prg false ops) w fills).2 = some l ∧ l.Pairwise (· < ·) ∧
      ∀ ind, ind ∈ l ↔ count (arrivals ops) .DEL w ind < count (arrivals ops) .INS w ind := by
  have hst := arrived_after hprg hk hz hord hn hw
  have hlen := hn w
  have hle := hst.le
  refine ⟨_, by rw [hst.search (by omega)], SortedMap.keysWhere_sorted _ _, fun ind => ?_⟩
  rw [Tally.mem_count_neg (abs_step_le _) (by rw [List.length_map]; omega), net_entries]
  omega

/-- Two inserts under the keyword `a`, the second of which is lost. -/
theorem lossy_search_exact_last :
    let ops : List (Bool × Op) := [(true, .update .INS [97] 5 0), (false, .update .INS [97] 6 0)]
    ∃ l, (runnerSearch id false (runnerAfter id false ops) [97] 0).2 = some l ∧ l.Pairwise (· < ·) ∧
      ∀ ind, ind ∈ l ↔ count (arrivals ops) .DEL [97] ind < count (arrivals ops) .INS [97] ind := by
  intro ops
  refine lossy_search_exact id Function.injective_id ops ?_ ⟨show _ ≠ _ by decide, trivial, trivial⟩
    ⟨by simp [InOrder], trivial, trivial⟩ (fun w => le_trans (length_entries_le _ w) (by decide)) [97] (by decide) 0
  intro p hp
  simp only [ops, List.mem_cons, List.not_mem_nil, or_false] at hp
  rcases hp with rfl | rfl <;> decide

/-- The first of two inserts is lost: the second, of ind 6, comes back as 5. -/
theorem lossy_search_wrong :
    ¬ ∀ (prg : PrfType → PrfType), Function.Injective prg → ∀ ops : List (Bool × Op),
      (∀ p ∈ ops, Valid p.2.keyword ∧ p.2.keyword ≠ []) → Runs.Each (VisibleThere prg) [] ops →
      ∀ w, Valid w → w ≠ [] → ∀ fills,
      ∃ l, (runnerSearch prg false (runnerAfter prg false ops) w fills).2 = some l ∧ l.Pairwise (· < ·) ∧
        ∀ ind, ind ∈ l ↔ count (arrivals ops) .DEL w ind < count (arrivals ops) .INS w ind := by
  intro h
  obtain ⟨l, hs, -, hl⟩ := h (turn 12) (turn_injective 12)
    [(false, .update .INS [97] 5 0), (true, .update .INS [97] 6 0)] (by
      intro p hp
      simp only [List.mem_cons, List.not_mem_nil, or_false] at hp
      rcases hp with rfl | rfl <;> decide)
    ⟨trivial, show _ ≠ _ by decide, trivial⟩ [97] (by decide) (by decide) 0
  have hfive : (runnerSearch (turn 12) false (runnerAfter (turn 12) false
      [(false, .update .INS [97] 5 0), (true, .update .INS [97] 6 0)]) [97] 0).2 = some [5] := by decide
  rw [hfive] at hs
  obtain rfl := Option.some.inj hs
  exact absurd ((hl 5).1 (by decide)) (by decide)

end Sse.Mitra
