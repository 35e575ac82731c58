import Sse.Mitra.Isolation

/-!
# Mitra with cleaning

With `deleteFiles = true` a search writes its results back under the next search counter.
It advances `SrcCnt` and `FileCnt` under the buffer the loops have written over, which is
no keyword's buffer as long as `FileCnt` is not 0 (`marked_query`), so the keyword's own
counters stay as they were and the next search reads the same entries again.  In both
modes a search answers by the updates of the keyword alone:

    (search prg deleteFiles (after prg deleteFiles ops) w fills).2 = answer (entries ops w)   (search_answer)

whatever the counters do, also when `FileCnt` wraps.  Up to `2 ^ 31 - 2` updates of the
keyword there is a list, and it is the same in both modes (`mitra_star_agrees`).
-/

namespace Sse.Mitra

/-! ## The entries a counter reaches -/

/-- The last updates of a keyword, as many as its `int` counter says. -/
def window (es : List Entry) : List Entry := es.drop (es.length - (Int32.ofNat es.length).toInt.toNat)

theorem toNat_toInt_ofNat_le (n : Nat) : (Int32.ofNat n).toInt.toNat ≤ n := by
  show (BitVec.ofNat 32 n).toInt.toNat ≤ n
  simp only [BitVec.toInt, BitVec.toNat_ofNat]
  omega

theorem length_window (es : List Entry) : (window es).length = (Int32.ofNat es.length).toInt.toNat := by
  have := toNat_toInt_ofNat_le es.length
  rw [window, List.length_drop]
  omega

theorem length_window_lt (es : List Entry) : (window es).length < 2 ^ 31 := by
  have := Int32.toInt_lt (Int32.ofNat es.length)
  rw [length_window]
  omega

/-- One update more: the window grows by it, or is empty after a wrap. -/
theorem window_concat (es : List Entry) (e : Entry) :
    (window (es ++ [e]) = [] ∧ ¬ 0 < Int32.ofNat (es.length + 1)) ∨
      (window (es ++ [e]) = window es ++ [e] ∧ Int32.ofNat (es.length + 1) = Int32.ofNat ((window es).length + 1)) := by
  have hlen : (es ++ [e]).length = es.length + 1 := by simp
  have hle := toNat_toInt_ofNat_le es.length
  have hzero : (0 : Int32).toInt = 0 := rfl
  by_cases hpos : 0 < Int32.ofNat (es.length + 1)
  · have hpos' : 0 < (Int32.ofNat (es.length + 1)).toInt := by
      rw [Int32.lt_iff_toInt_lt] at hpos
      omega
    have hnext : (Int32.ofNat (es.length + 1)).toInt.toNat = (Int32.ofNat es.length).toInt.toNat + 1 := by
      revert hpos'
      show 0 < (BitVec.ofNat 32 (es.length + 1)).toInt →
        (BitVec.ofNat 32 (es.length + 1)).toInt.toNat = (BitVec.ofNat 32 es.length).toInt.toNat + 1
      simp only [BitVec.toInt, BitVec.toNat_ofNat]
      omega
    refine Or.inr ⟨?_, ?_⟩
    · rw [window, window, hlen, hnext, List.drop_append_of_le_length (by omega)]
      congr 2
      omega
    · have hlt := length_window_lt (es ++ [e])
      rw [length_window, hlen, hnext] at hlt
      have hint := toInt_ofNat_small hlt
      rw [← Int32.toInt_inj, length_window]
      omega
  · refine Or.inl ⟨?_, hpos⟩
    have hnone : (Int32.ofNat (es.length + 1)).toInt.toNat = 0 := by
      rw [Int32.lt_iff_toInt_lt] at hpos
      omega
    rw [window, hlen, hnone, List.drop_eq_nil_iff]
    omega

theorem window_small {es : List Entry} (h : es.length < 2 ^ 31) : window es = es := by
  rw [window, toInt_ofNat_small h, Int.toNat_natCast, Nat.sub_self, List.drop_zero]

/-! ## Buffers that are no keyword's -/

/-- A keyword whose buffer is distinct from every other in both modes: at most 7 bytes, none of them NUL. -/
structure Short (w : Str) : Prop where
  nulFree : NulFree w
  fits : w.length ≤ 7

instance (w : Str) : Decidable (Short w) :=
  decidable_of_iff (NulFree w ∧ w.length ≤ 7) ⟨fun h => ⟨h.1, h.2⟩, fun h => ⟨h.nulFree, h.fits⟩⟩

theorem Short.padTo_ne {w w' : Str} (hw : Short w) (hw' : Short w') (hne : w ≠ w') (df : Bool) :
    padTo (width df) w ≠ padTo (width df) w' := by
  have h7 : 7 ≤ width df := by cases df <;> decide
  have := hw.fits
  have := hw'.fits
  exact fun h => hne (padTo_injective hw.nulFree hw'.nulFree (by omega) (by omega) h)

/-- The operation and file counter bytes are not all zero. -/
def Marked (k : PrfType) : Prop := k.data.drop 11 ≠ List.replicate 5 0

theorem marked_seed (df : Bool) (k : PrfType) (op : UInt8) (s f : Int32) :
    Marked (seed df k op s f) ↔ ¬ (op = 0 ∧ f = 0) := by
  have hdrop : (seed df k op s f).data.drop 11 = op :: toBytes f := by
    cases df
    · rw [seed_data, List.drop_left' (by simp [width, k.size])]
      rfl
    · rw [seed_data, ← List.append_assoc, List.drop_left' (by simp [width, k.size])]
  rw [Marked, hdrop, ne_eq, not_iff_not]
  constructor
  · intro h
    obtain ⟨h1, h2⟩ := List.cons.inj h
    exact ⟨h1, toBytes_injective (h2.trans (by decide))⟩
  · rintro ⟨rfl, rfl⟩
    decide

theorem Marked.ne_keyBuf {k : PrfType} (h : Marked k) {w : Str} (hw : w.length ≤ 11) : k ≠ keyBuf w := by
  rintro rfl
  apply h
  show (padTo 16 w).drop 11 = _
  rw [padTo_of_le (by omega), List.drop_append, List.drop_eq_nil_of_le hw, List.nil_append, List.drop_replicate]
  congr 1
  omega

theorem ne_zero_of_mem_counters {c i : Int32} (h : i ∈ counters c) : i ≠ 0 := by
  obtain ⟨j, hj, rfl⟩ := List.mem_map.1 h
  have := List.mem_range.1 hj
  have := Int32.toInt_lt c
  intro h0
  have := ofNat_inj_small (show j + 1 < 2 ^ 31 by omega) (show 0 < 2 ^ 31 by omega) h0
  omega

section

variable {prg : PrfType → PrfType} {df : Bool}

theorem marked_addrLoop (s : Int32) (k : PrfType) {is : List Int32} (h0 : ∀ i ∈ is, i ≠ 0)
    (h : is ≠ [] ∨ Marked k) : Marked (addrLoop prg df s k is).1 := by
  induction is generalizing k with
  | nil => exact h.resolve_left (by simp)
  | cons i is ih =>
    refine ih _ (fun j hj => h0 j (List.mem_cons_of_mem _ hj)) (Or.inr ?_)
    exact (marked_seed df k 0 s i).2 fun hz => h0 i List.mem_cons_self hz.2

theorem marked_decodeLoop (s c : Int32) {k : PrfType} (h : Marked k) (m : SortedMap Int32 Int32) (cs : List PrfType) :
    Marked (decodeLoop prg df s k c m cs).1 := by
  induction cs generalizing k c m with
  | nil => exact h
  | cons x cs ih => exact ih _ ((marked_seed df k 1 s c).2 (by simp)) _

theorem marked_cleanLoop (s c : Int32) {k : PrfType} (h : Marked k) (fills : Nat → Fill)
    (dictW : PrfType → PrfType) (inds : List Int32) : Marked (cleanLoop prg df s k c fills dictW inds).1 := by
  induction inds generalizing k c fills dictW with
  | nil => exact h
  | cons ind inds ih => exact ih _ ((marked_seed df _ 1 s (c + 1)).2 (by simp)) _ _

/-- **The buffer after a query.**  It is a keyword's only when nothing was asked for. -/
theorem marked_query (dictW : PrfType → PrfType) (s : Int32) (k : PrfType) {c : Int32} (hc : 0 < c) :
    Marked (query prg df dictW s k c).1 := by
  refine marked_decodeLoop s 1 (marked_addrLoop s k (fun i hi => ne_zero_of_mem_counters hi) (Or.inl ?_)) _ _
  rw [counters, ne_eq, List.map_eq_nil_iff, List.range_eq_nil]
  have : 0 < c.toInt := Int32.lt_iff_toInt_lt.1 hc
  omega

end

theorem seed_src_inj {k k' : PrfType} {op op' : UInt8} {s s' f f' : Int32}
    (h : seed true k op s f = seed true k' op' s' f') : s = s' := by
  have hd := congrArg PrfType.data h
  rw [seed_data, seed_data] at hd
  obtain ⟨-, h2⟩ := List.append_inj hd (by simp [k.size, k'.size])
  exact toBytes_injective (List.append_inj h2 (by simp)).1

theorem ne_add_one (s : Int32) : s ≠ s + 1 := by
  intro h
  have hsub : s + 1 - s = 1 := by rw [Int32.add_comm, Int32.add_sub_cancel]
  rw [← h, Int32.sub_self] at hsub
  exact absurd hsub (by decide)

/-- The cleaning writes nothing under the search counter that was read. -/
theorem cleanLoop_src {prg : PrfType → PrfType} (hprg : Function.Injective prg) {s s' : Int32} (hs : s ≠ s')
    (k j : PrfType) (c f : Int32) (fills : Nat → Fill) (dictW : PrfType → PrfType) (inds : List Int32) :
    (cleanLoop prg true s' k c fills dictW inds).2.2 (prg (seed true j 0 s f)) = dictW (prg (seed true j 0 s f)) := by
  induction inds generalizing k c fills dictW with
  | nil => rfl
  | cons ind inds ih =>
    simp only [cleanLoop, getAESRandomValue]
    rw [ih]
    exact Function.update_of_ne (fun e => hs (seed_src_inj (hprg e))) _ _

/-! ## What a keyword keeps -/

/-- The search counter the next call on `w` uses. -/
def srcOf (df : Bool) (st : State) (w : Str) : Int32 := if df then (st.srcCnt (keyBuf w)).getD 0 else 0

structure Kept (prg : PrfType → PrfType) (df : Bool) (st : State) (w : Str) (es : List Entry) : Prop where
  cnt : st.fileCnt (keyBuf w) = if es = [] then none else some (Int32.ofNat es.length)
  holds : HoldsAt prg df st.dictW (keyBuf w) (srcOf df st w) (window es)

/-- What a search answers after the updates `es`: nothing when the counter is negative or at its
largest value, else the inds with more inserts than deletes among the entries it reaches. -/
def answer (es : List Entry) : Option (List Int32) :=
  if Int32.ofNat es.length < 0 ∨ Int32.ofNat es.length = Int32.maxValue then none
  else some ((Tally.count ((window es).map Entry.step)).keysWhere (· < 0))

section

variable {prg : PrfType → PrfType} {df : Bool} {st : State} {w : Str} {es : List Entry}

theorem Kept.nextCnt (h : Kept prg df st w es) :
    nextFileCnt (st.fileCnt (keyBuf w)) = Int32.ofNat (es.length + 1) := by
  rw [h.cnt]
  split_ifs with he
  · rw [he]
    rfl
  · exact ofNat_add_one _

/-- **Frame.** -/
theorem Kept.other {st' : State} (h : Kept prg df st w es) (ha : AgreeOn prg df w st st') : Kept prg df st' w es := by
  have hown := own_keyBuf df w
  have hsrc : srcOf df st' w = srcOf df st w := by rw [srcOf, srcOf, ha.srcCnt _ hown]
  refine ⟨by rw [ha.fileCnt _ hown]; exact h.cnt, ?_⟩
  rw [hsrc]
  refine ⟨fun i e hi => ?_, h.holds.found⟩
  rw [ha.dictW _ (hown.seed 0 _ _)]
  exact h.holds.dict i e hi

theorem srcOf_update (op : OP) (ind : Int32) (fill : Fill) :
    srcOf df (update prg df st op w ind fill) w = srcOf df st w := by
  simp only [srcOf, update_eq]
  cases df <;> simp

/-- **Update appends**, whatever the counter does. -/
theorem Kept.update (hprg : Function.Injective prg) (h : Kept prg df st w es) (e : Entry)
    (hnz : (updateRequest prg df st e.op w e.ind e.fill).2.2 ≠ notfound) :
    Kept prg df (update prg df st e.op w e.ind e.fill) w (es ++ [e]) := by
  have hval : (updateRequest prg df st e.op w e.ind e.fill).2.2 =
      cipher prg df (keyBuf w) (srcOf df st w) (Int32.ofNat (es.length + 1)) e := by
    rw [updateRequest_val, h.nextCnt]
    rfl
  have hdict : (Mitra.update prg df st e.op w e.ind e.fill).dictW =
      Function.update st.dictW (prg (seed df (keyBuf w) 0 (srcOf df st w) (Int32.ofNat (es.length + 1))))
        (cipher prg df (keyBuf w) (srcOf df st w) (Int32.ofNat (es.length + 1)) e) := by
    simp only [update_eq, h.nextCnt]
    rfl
  constructor
  · rw [if_neg (by simp)]
    simp only [update_eq, h.nextCnt, Function.update_self, List.length_append, List.length_singleton]
  · rw [srcOf_update]
    have hlt := length_window_lt (es ++ [e])
    rcases window_concat es e with ⟨hw, -⟩ | ⟨hw, hcnt⟩
    · rw [hw]
      exact holdsAt_nil
    · rw [hw, List.length_append, List.length_singleton] at hlt
      rw [hcnt] at hval hdict
      rw [hw]
      refine ⟨fun i x hi => ?_, fun i x hi => ?_⟩
      · rcases getElem?_concat_cases hi with hi' | ⟨rfl, rfl⟩
        · have hi'' := lt_of_getElem?_eq_some hi'
          rw [hdict, Function.update_of_ne]
          · exact h.holds.dict i x hi'
          · intro he
            have := ofNat_inj_small (by omega) (by omega) (seed_inj (hprg he)).2.2
            omega
        · rw [hdict, Function.update_self]
      · rcases getElem?_concat_cases hi with hi' | ⟨rfl, rfl⟩
        · exact h.holds.found i x hi'
        · rw [← hval]
          exact hnz

theorem srcOf_touchSrcCnt : srcOf df (touchSrcCnt df st (keyBuf w)) w = srcOf df st w := by
  unfold srcOf touchSrcCnt
  cases df <;> simp

theorem Kept.touchSrcCnt (h : Kept prg df st w es) : Kept prg df (touchSrcCnt df st (keyBuf w)) w es :=
  ⟨h.cnt, by rw [srcOf_touchSrcCnt]; exact h.holds⟩

/-- A cleaning leaves what the keyword keeps: its counters advance only when there is nothing to keep. -/
theorem Kept.cleanUp (hprg : Function.Injective prg) (hw : w.length ≤ 11) (h : Kept prg true st w es)
    (hes : es ≠ []) (hneg : ¬ Int32.ofNat es.length < 0) (fills : Nat → Fill) :
    let q := query prg true st.dictW (srcOf true st w) (keyBuf w) (Int32.ofNat es.length)
    Kept prg true (cleanUp prg true st (srcOf true st w) q.1 fills (q.2.keysWhere (· < 0))) w es := by
  intro q
  have hone := ne_add_one (srcOf true st w)
  by_cases h0 : Int32.ofNat es.length = 0
  · -- the loops run over nothing, and both entries of the keyword itself are written
    have hwin : window es = [] := by
      rw [← List.length_eq_zero_iff, length_window, h0]
      rfl
    have hq : q = (keyBuf w, SortedMap.empty) := by
      show query _ _ _ _ _ (Int32.ofNat es.length) = _
      rw [h0]
      rfl
    refine ⟨?_, by rw [hwin]; exact holdsAt_nil⟩
    rw [if_neg hes, h0, hq]
    exact Function.update_self _ _ _
  · have hpos : 0 < Int32.ofNat es.length := by
      rw [Int32.lt_iff_toInt_lt] at hneg ⊢
      rw [← Int32.toInt_inj] at h0
      have : (0 : Int32).toInt = 0 := rfl
      omega
    have hm : Marked q.1 := marked_query _ _ _ hpos
    have hsrc : srcOf true (Mitra.cleanUp prg true st (srcOf true st w) q.1 fills (q.2.keysWhere (· < 0))) w =
        srcOf true st w := by
      simp only [srcOf, Mitra.cleanUp, if_true]
      rw [Function.update_of_ne (hm.ne_keyBuf hw).symm]
    refine ⟨?_, ?_⟩
    · simp only [Mitra.cleanUp]
      rw [Function.update_of_ne ((marked_cleanLoop _ _ hm _ _ _).ne_keyBuf hw).symm]
      exact h.cnt
    · rw [hsrc]
      refine ⟨fun i e hi => ?_, h.holds.found⟩
      simp only [Mitra.cleanUp]
      rw [cleanLoop_src hprg hone]
      exact h.holds.dict i e hi

theorem Kept.search (hprg : Function.Injective prg) (hw : w.length ≤ 11) (h : Kept prg df st w es)
    (fills : Nat → Fill) :
    Kept prg df (search prg df st w fills).1 w es ∧ (Mitra.search prg df st w fills).2 = answer es := by
  have h1 := h.touchSrcCnt
  have hq := h1.holds.query (length_window es).symm
  rw [srcOf_touchSrcCnt] at hq
  unfold Mitra.search
  simp only [h.cnt]
  by_cases hes : es = []
  · rw [if_pos hes]
    refine ⟨h, ?_⟩
    rw [hes]
    rfl
  · rw [if_neg hes]
    simp only [answer]
    by_cases hbad : Int32.ofNat es.length < 0 ∨ Int32.ofNat es.length = Int32.maxValue
    · simp only [if_pos hbad]
      exact ⟨h1, trivial⟩
    · have hclean := fun e : df = true => @Kept.cleanUp prg (Mitra.touchSrcCnt df st (keyBuf w)) w es hprg hw
        (e ▸ h1) hes (fun hn => hbad (Or.inl hn)) fills
      rw [not_or] at hbad
      simp only [if_neg (not_or.2 hbad)]
      refine ⟨?_, congrArg (fun m => some (m.keysWhere (· < 0))) hq⟩
      cases df with
      | false => exact h1
      | true =>
        have := hclean rfl
        rw [srcOf_touchSrcCnt] at this
        rw [if_pos rfl]
        exact this

end

/-! ## Histories -/

/-- The ciphertext an update stores is not the block that stands for an absent entry. -/
def Visible (prg : PrfType → PrfType) (df : Bool) (pre : List Op) : Op → Prop
  | .update op w ind fill => (updateRequest prg df (after prg df pre) op w ind fill).2.2 ≠ notfound
  | .search _ _ => True

/-- Every keyword keeps its updates, in every state reached. -/
theorem kept_after {prg : PrfType → PrfType} (hprg : Function.Injective prg) {df : Bool} {ops : List Op}
    (hk : ∀ op ∈ ops, Short op.keyword) (hz : Runs.Each (Visible prg df) [] ops) {w : Str} (hw : Short w) :
    Kept prg df (after prg df ops) w (entries ops w) := by
  induction ops using List.reverseRecOn with
  | nil => exact ⟨rfl, holdsAt_nil⟩
  | append_singleton ops o ih =>
    rw [Runs.each_concat, List.nil_append] at hz
    have ih := ih (fun op hop => hk op (List.mem_append_left _ hop)) hz.1
    have hko := hk o (by simp)
    have h11 : w.length ≤ 11 := by have := hw.fits; omega
    rw [after_concat]
    by_cases he : o.keyword = w
    · cases o with
      | search w' fills =>
        obtain rfl : w' = w := he
        rw [entries_search]
        exact (ih.search hprg h11 fills).1
      | update op w' ind fill =>
        obtain rfl : w' = w := he
        rw [entries_update, if_pos rfl]
        exact ih.update hprg ⟨op, ind, fill⟩ hz.2
    · have hframe := ih.other (step_frame (hw.padTo_ne hko (Ne.symm he) df) hprg _ rfl)
      rw [entries_other ops he]
      exact hframe

/-- **Search answers by the history**, in both modes. -/
theorem search_answer {prg : PrfType → PrfType} (hprg : Function.Injective prg) {df : Bool} {ops : List Op}
    (hk : ∀ op ∈ ops, Short op.keyword) (hz : Runs.Each (Visible prg df) [] ops) {w : Str} (hw : Short w)
    (fills : Nat → Fill) : (search prg df (after prg df ops) w fills).2 = answer (entries ops w) :=
  ((kept_after hprg hk hz hw).search hprg (by have := hw.fits; omega) fills).2

/-! ## The two modes agree -/

/-- A call without the random bytes it draws. -/
def Op.call : Op → Op
  | .update op w ind _ => .update op w ind 0
  | .search w _ => .search w 0

theorem map_step_entries_call (ops : List Op) (w : Str) :
    (entries (ops.map Op.call) w).map Entry.step = (entries ops w).map Entry.step := by
  induction ops with
  | nil => rfl
  | cons o ops ih =>
    cases o with
    | search w' fills => exact ih
    | update op w' ind fill =>
      by_cases h : w' = w
      · simpa [entries, Op.call, h, Entry.step] using ih
      · simpa [entries, Op.call, h] using ih

theorem answer_congr {es es' : List Entry} (h : es'.map Entry.step = es.map Entry.step) : answer es' = answer es := by
  have hlen : es'.length = es.length := by simpa using congrArg List.length h
  have hwin : (window es').map Entry.step = (window es).map Entry.step := by
    rw [window, window, List.map_drop, List.map_drop, h, hlen]
  rw [answer, answer, hlen, hwin]

theorem keyword_call (op : Op) : op.call.keyword = op.keyword := by
  cases op <;> rfl

theorem answer_small {es : List Entry} (h : es.length < 2 ^ 31 - 1) :
    answer es = some ((Tally.count (es.map Entry.step)).keysWhere (· < 0)) := by
  have hint := toInt_ofNat_small (show es.length < 2 ^ 31 by omega)
  have hok : ¬ (Int32.ofNat es.length < 0 ∨ Int32.ofNat es.length = Int32.maxValue) := by
    rw [Int32.lt_iff_toInt_lt, ← Int32.toInt_inj, hint]
    have h0 : (0 : Int32).toInt = 0 := rfl
    have hmax : Int32.maxValue.toInt = 2147483647 := rfl
    omega
  rw [answer, if_neg hok, window_small (by omega)]

/-- **Mitra with cleaning agrees with Mitra.**  Two clients get the same calls, each draws its own
random bytes: a search of a keyword with at most `2 ^ 31 - 2` updates gives both the same list. -/
theorem mitra_star_agrees (prg : PrfType → PrfType) (hprg : Function.Injective prg) (ops ops' : List Op)
    (hcalls : ops'.map Op.call = ops.map Op.call) (hk : ∀ op ∈ ops, Short op.keyword)
    (hz : Runs.Each (Visible prg false) [] ops) (hz' : Runs.Each (Visible prg true) [] ops')
    (w : Str) (hw : Short w) (hn : (entries ops w).length ≤ 2 ^ 31 - 2) (fills fills' : Nat → Fill) :
    ∃ l, (search prg true (after prg true ops') w fills').2 = some l ∧
      (search prg false (after prg false ops) w fills).2 = some l := by
  have hk' : ∀ op ∈ ops', Short op.keyword := by
    intro op hop
    have hmem : op.call ∈ ops.map Op.call := by
      rw [← hcalls]
      exact List.mem_map_of_mem hop
    obtain ⟨op0, h0, he⟩ := List.mem_map.1 hmem
    rw [← keyword_call, ← he, keyword_call]
    exact hk op0 h0
  have hsteps : (entries ops' w).map Entry.step = (entries ops w).map Entry.step := by
    rw [← map_step_entries_call ops', hcalls, map_step_entries_call]
  refine ⟨(Tally.count ((entries ops w).map Entry.step)).keysWhere (· < 0), ?_, ?_⟩
  · rw [search_answer hprg hk' hz' hw, answer_congr hsteps]
    exact answer_small (by omega)
  · rw [search_answer hprg hk hz hw]
    exact answer_small (by omega)

/-- Inserts, searches and a delete under the keywords `a` and `b`, and then a search of `a`. -/
theorem mitra_star_agrees_a :
    let ops : List Op := [.update .INS [97] 5 0, .search [97] 0, .update .INS [98] 5 0, .update .DEL [97] 5 0,
      .update .INS [97] 6 0, .search [98] 0, .search [97] 0]
    let ops' : List Op := [.update .INS [97] 5 1, .search [97] 0, .update .INS [98] 5 0, .update .DEL [97] 5 0,
      .update .INS [97] 6 2, .search [98] 1, .search [97] 1]
    ∃ l, (search id true (after id true ops') [97] 0).2 = some l ∧
      (search id false (after id false ops) [97] 0).2 = some l := by
  intro ops ops'
  refine mitra_star_agrees id Function.injective_id ops ops' rfl ?_ ?_ ?_ [97] (by decide) ?_ 0 0
  · have hall : ops.all (fun op => decide (Short op.keyword)) = true := by decide
    simpa using hall
  · exact ⟨show _ ≠ _ by decide, trivial, show _ ≠ _ by decide, show _ ≠ _ by decide, show _ ≠ _ by decide, trivial,
      trivial, trivial⟩
  · exact ⟨show _ ≠ _ by decide, trivial, show _ ≠ _ by decide, show _ ≠ _ by decide, show _ ≠ _ by decide, trivial,
      trivial, trivial⟩
  · exact le_trans (length_entries_le _ _) (by decide)

/-! ## At the largest counter -/

/-- Inserts of pairs that are not live, and deletes of pairs that are. -/
def InTurn (pre : List Op) : Op → Prop
  | .update .INS w ind _ => ¬ count pre .DEL w ind < count pre .INS w ind
  | .update .DEL w ind _ => count pre .DEL w ind < count pre .INS w ind
  | .search _ _ => True

/-- `n` updates of one pair, an insert and a delete in turn. -/
def alternate (n : Nat) : List Op :=
  (List.range n).map fun i => .update (if i % 2 = 0 then .INS else .DEL) [97] 5 0

theorem alternate_succ (n : Nat) :
    alternate (n + 1) = alternate n ++ [.update (if n % 2 = 0 then .INS else .DEL) [97] 5 0] := by
  simp [alternate, List.range_succ]

theorem length_entries_alternate (n : Nat) : (entries (alternate n) [97]).length = n := by
  induction n with
  | zero => rfl
  | succ n ih => rw [alternate_succ, entries_update, if_pos rfl, List.length_append, ih, List.length_singleton]

theorem count_append (ops r : List Op) (op : OP) (w : Str) (ind : Int32) :
    count (ops ++ r) op w ind = count ops op w ind + count r op w ind := List.countP_append

theorem count_alternate (n : Nat) :
    count (alternate n) .INS [97] 5 = (n + 1) / 2 ∧ count (alternate n) .DEL [97] 5 = n / 2 := by
  induction n with
  | zero => exact ⟨rfl, rfl⟩
  | succ n ih =>
    obtain ⟨hins, hdel⟩ := ih
    rw [alternate_succ, count_append, count_append, hins, hdel]
    by_cases h : n % 2 = 0
    · simp [count, h]
      omega
    · simp [count, h]
      omega

theorem each_alternate {P : List Op → Op → Prop}
    (h : ∀ n, P (alternate n) (.update (if n % 2 = 0 then .INS else .DEL) [97] 5 0)) (n : Nat) :
    Runs.Each P [] (alternate n) := by
  induction n with
  | zero => trivial
  | succ n ih =>
    rw [alternate_succ, Runs.each_concat]
    exact ⟨ih, h n⟩

theorem inTurn_alternate (n : Nat) : InTurn (alternate n) (.update (if n % 2 = 0 then .INS else .DEL) [97] 5 0) := by
  obtain ⟨hins, hdel⟩ := count_alternate n
  by_cases h : n % 2 = 0
  · rw [if_pos h]
    show ¬ _ < _
    omega
  · rw [if_neg h]
    show _ < _
    omega

/-- After `2 ^ 31 - 1` updates of one pair, inserts and deletes in turn, neither client's search gives
a list: the loop up to `fileCnt` does not end. -/
theorem star_search_fails_at_max :
    ¬ ∀ (prg : PrfType → PrfType), Function.Injective prg → ∀ ops ops' : List Op, ops'.map Op.call = ops.map Op.call →
      (∀ op ∈ ops, Short op.keyword ∧ op.keyword ≠ []) → Runs.Each InTurn [] ops →
      Runs.Each (Visible prg false) [] ops → Runs.Each (Visible prg true) [] ops' →
      ∀ w, Short w → w ≠ [] → ∀ fills fills',
      ∃ l, (search prg true (after prg true ops') w fills').2 = some l ∧
        (search prg false (after prg false ops) w fills).2 = some l := by
  intro h
  -- `n` stays a variable, so that the list is never unfolded
  obtain ⟨n, hn⟩ : ∃ n, Int32.ofNat n = Int32.maxValue := ⟨2 ^ 31 - 1, by decide⟩
  have hkey : ∀ op ∈ alternate n, Short op.keyword ∧ op.keyword ≠ [] := by
    intro op hop
    obtain ⟨i, -, rfl⟩ := List.mem_map.1 hop
    exact ⟨show Short [97] by decide, show [97] ≠ [] by decide⟩
  have hvis : ∀ df, Runs.Each (Visible id df) [] (alternate n) := fun df =>
    each_alternate (fun m => updateRequest_id_ne df (after id df (alternate m)) _ 0) n
  obtain ⟨l, -, hs⟩ := h id Function.injective_id (alternate n) (alternate n) rfl hkey
    (each_alternate inTurn_alternate n) (hvis false) (hvis true) [97] (by decide) (by decide) 0 0
  rw [search_answer Function.injective_id (fun op hop => (hkey op hop).1) (hvis false) (by decide), answer,
    length_entries_alternate, if_pos (Or.inr hn)] at hs
  cases hs

end Sse.Mitra
