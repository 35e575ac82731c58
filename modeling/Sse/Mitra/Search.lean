import Sse.Mitra.Client

/-!
# Exactness of Mitra without cleaning

With `deleteFiles = false` the updates of a keyword sit at the addresses of the counters
`1 .. n`, each masked with the pad of its own counter (`StoredAt`).  The server's reply
is the list of the ciphertexts in that order, so the client, which takes the pads by
position, decodes every update (`decodeLoop_snd`) and counts for each ind the deletions
against the insertions.

    ind ∈ search w ↔ count DEL w ind < count INS w ind              (search_count_exact)

The counters are `int`s: the theorem holds up to `2 ^ 31 - 2` updates of one keyword, and
one past the largest counter no list comes back (`search_fails_after_wrap`).
-/

namespace Sse.Mitra

/-! ## Masks -/

theorem zipWith_xor_cancel {a b : List UInt8} (h : a.length = b.length) :
    List.zipWith (· ^^^ ·) b (List.zipWith (· ^^^ ·) a b) = a := by
  induction a generalizing b with
  | nil => simp
  | cons x a ih =>
    cases b with
    | nil => simp at h
    | cons y b =>
      rw [List.zipWith_cons_cons, List.zipWith_cons_cons, ih (by simpa using h)]
      rw [UInt8.xor_comm x y, ← UInt8.xor_assoc, UInt8.xor_self, UInt8.zero_xor]

/-- The pad takes off what it put on. -/
theorem bitwiseXOR_cancel (p r : PrfType) : bitwiseXOR r (bitwiseXOR p r) = p :=
  PrfType.ext_data (zipWith_xor_cancel (by rw [p.size, r.size]))

theorem readInt_plain (ind : Int32) (op : OP) (fill : Fill) : readInt (plain ind op fill).data = ind :=
  readInt_toBytes ind _

theorem opByte_plain (ind : Int32) (op : OP) (fill : Fill) : (plain ind op fill).data.getD 4 0 = op.code :=
  rfl

/-! ## Decoding -/

/-- One update of a keyword. -/
structure Entry where
  op : OP
  ind : Int32
  fill : Fill

/-- What an update adds to the count of its ind. -/
def OP.delta : OP → Int
  | .INS => -1
  | .DEL => 1

theorem delta_eq (op : OP) : 2 * Int32.ofNat op.code.toNat - 1 = Int32.ofInt op.delta := by
  cases op <;> decide

/-- The step of an update in the client's counts. -/
def Entry.step (e : Entry) : Int32 × Int := (e.ind, e.op.delta)

theorem abs_step_le (es : List Entry) : ∀ e ∈ es.map Entry.step, |e.2| ≤ 1 := by
  intro e he
  obtain ⟨x, -, rfl⟩ := List.mem_map.1 he
  show |x.op.delta| ≤ 1
  cases x.op <;> decide

/-- The ciphertext of an update under counter `i`. -/
def cipher (prg : PrfType → PrfType) (df : Bool) (k : PrfType) (s i : Int32) (e : Entry) : PrfType :=
  bitwiseXORInd e.ind e.op e.fill (prg (seed df k 1 s i))

/-- The client takes the pads by position, from any buffer that holds the keyword. -/
theorem decodeLoop_snd (prg : PrfType → PrfType) (df : Bool) (s : Int32) {k k' : PrfType}
    (hk : seed df k' = seed df k) (c : Nat) (m : SortedMap Int32 Int32) (es : List Entry) :
    (decodeLoop prg df s k' (Int32.ofNat c) m
      ((es.zipIdx c).map fun e => cipher prg df k s (Int32.ofNat e.2) e.1)).2 = (es.map Entry.step).foldl Tally.add m := by
  induction es generalizing c m k' with
  | nil => rfl
  | cons e es ih =>
    have hnext : seed df (seed df k 1 s (Int32.ofNat c)) = seed df k := by
      funext op s' f
      rw [seed_seed]
    simp only [List.zipIdx_cons, List.map_cons, decodeLoop, getAESRandomValue, hk, cipher, bitwiseXORInd,
      bitwiseXOR_cancel, readInt_plain, opByte_plain, delta_eq, ofNat_add_one, List.foldl_cons]
    exact ih hnext (c + 1) (Tally.add m e.step)

/-! ## What a counter's addresses hold -/

/-- The addresses of search counter `s` hold the updates `es`, from file counter 1 on. -/
structure HoldsAt (prg : PrfType → PrfType) (df : Bool) (dictW : PrfType → PrfType) (k : PrfType) (s : Int32)
    (es : List Entry) : Prop where
  dict : ∀ i e, es[i]? = some e →
    dictW (prg (seed df k 0 s (Int32.ofNat (i + 1)))) = cipher prg df k s (Int32.ofNat (i + 1)) e
  found : ∀ i e, es[i]? = some e → cipher prg df k s (Int32.ofNat (i + 1)) e ≠ notfound

section

variable {prg : PrfType → PrfType} {df : Bool} {dictW : PrfType → PrfType} {k : PrfType} {s : Int32} {es : List Entry}

theorem holdsAt_nil : HoldsAt prg df dictW k s [] :=
  ⟨fun i e hi => by simp at hi, fun i e hi => by simp at hi⟩

/-- The reply is the list of the ciphertexts, none of which the server takes for absent. -/
theorem HoldsAt.reply (h : HoldsAt prg df dictW k s es) {c : Int32} (hc : c.toInt.toNat = es.length) :
    serverSearch dictW (addrLoop prg df s k (counters c)).2 =
      (es.zipIdx 1).map fun e => cipher prg df k s (Int32.ofNat e.2) e.1 := by
  have hmap : (addrLoop prg df s k (counters c)).2.map dictW =
      (es.zipIdx 1).map fun e => cipher prg df k s (Int32.ofNat e.2) e.1 := by
    rw [addrLoop_snd, counters, hc, List.map_map, List.map_map]
    apply List.ext_getElem?
    intro i
    rw [List.getElem?_map, List.getElem?_map, List.getElem?_zipIdx]
    cases hi : es[i]? with
    | none => simpa using List.getElem?_eq_none_iff.1 hi
    | some e =>
      have hlt := lt_of_getElem?_eq_some hi
      simpa [hlt, Nat.add_comm 1 i] using h.dict i e hi
  rw [serverSearch, hmap, List.filter_eq_self]
  intro c hc
  obtain ⟨⟨e, j⟩, hej, rfl⟩ := List.mem_map.1 hc
  obtain ⟨hj, hlt, hget⟩ := List.mem_zipIdx hej
  have hsome : es[j - 1]? = some e := by rw [List.getElem?_eq_getElem (by omega), hget]
  have := h.found _ _ hsome
  rw [Nat.sub_add_cancel hj] at this
  simpa using this

theorem HoldsAt.query (h : HoldsAt prg df dictW k s es) {c : Int32} (hc : c.toInt.toNat = es.length) :
    (query prg df dictW s k c).2 = Tally.count (es.map Entry.step) := by
  unfold Mitra.query
  simp only
  rw [h.reply hc]
  exact decodeLoop_snd prg df s (seed_addrLoop prg df s _ _) 1 SortedMap.empty es

end

/-! ## What a keyword stores -/

/-- The address of counter `i`. -/
def addr (prg : PrfType → PrfType) (w : Str) (i : Nat) : PrfType :=
  prg (seed false (keyBuf w) 0 0 (Int32.ofNat i))

structure StoredAt (prg : PrfType → PrfType) (st : State) (w : Str) (es : List Entry) : Prop where
  cnt : st.fileCnt (keyBuf w) = if es = [] then none else some (Int32.ofNat es.length)
  dict : ∀ i e, es[i]? = some e →
    st.dictW (addr prg w (i + 1)) = cipher prg false (keyBuf w) 0 (Int32.ofNat (i + 1)) e
  found : ∀ i e, es[i]? = some e → st.dictW (addr prg w (i + 1)) ≠ notfound

/-- A keyword that Mitra keeps apart from every other: at most 11 bytes, none of them NUL. -/
structure Valid (w : Str) : Prop where
  nulFree : NulFree w
  fits : w.length ≤ 11

instance (w : Str) : Decidable (Valid w) :=
  decidable_of_iff (NulFree w ∧ w.length ≤ 11) ⟨fun h => ⟨h.1, h.2⟩, fun h => ⟨h.nulFree, h.fits⟩⟩

theorem keyBuf_inj {w w' : Str} (hw : Valid w) (hw' : Valid w') (h : keyBuf w = keyBuf w') : w = w' :=
  padTo_injective hw.nulFree hw'.nulFree (by have := hw.fits; omega) (by have := hw'.fits; omega)
    (congrArg PrfType.data h)

theorem addr_inj {prg : PrfType → PrfType} (hprg : Function.Injective prg) {w w' : Str} (hw : Valid w)
    (hw' : Valid w') {i j : Nat} (h : addr prg w i = addr prg w' j) :
    w = w' ∧ Int32.ofNat i = Int32.ofNat j := by
  obtain ⟨h1, -, h2⟩ := seed_inj (hprg h)
  rw [take_keyBuf, take_keyBuf] at h1
  exact ⟨padTo_injective hw.nulFree hw'.nulFree hw.fits hw'.fits h1, h2⟩

section

variable {prg : PrfType → PrfType} {st : State} {w : Str} {es : List Entry}

theorem StoredAt.nextCnt (h : StoredAt prg st w es) :
    nextFileCnt (st.fileCnt (keyBuf w)) = Int32.ofNat (es.length + 1) := by
  rw [h.cnt]
  split_ifs with he
  · rw [he]
    rfl
  · exact ofNat_add_one _

/-- **Update appends.** -/
theorem StoredAt.update (hprg : Function.Injective prg) (hw : Valid w) (h : StoredAt prg st w es) (e : Entry)
    (hb : es.length + 1 < 2 ^ 31)
    (hnz : (updateRequest prg false st e.op w e.ind e.fill).2.2 ≠ notfound) :
    StoredAt prg (update prg false st e.op w e.ind e.fill) w (es ++ [e]) := by
  have hval : (updateRequest prg false st e.op w e.ind e.fill).2.2 =
      cipher prg false (keyBuf w) 0 (Int32.ofNat (es.length + 1)) e := by
    rw [updateRequest_val, h.nextCnt]
    rfl
  have hdict : (Mitra.update prg false st e.op w e.ind e.fill).dictW =
      Function.update st.dictW (addr prg w (es.length + 1))
        (cipher prg false (keyBuf w) 0 (Int32.ofNat (es.length + 1)) e) := by
    simp only [update_eq, h.nextCnt]
    rfl
  have hread : ∀ i x, (es ++ [e])[i]? = some x →
      (Mitra.update prg false st e.op w e.ind e.fill).dictW (addr prg w (i + 1)) =
        if i = es.length then cipher prg false (keyBuf w) 0 (Int32.ofNat (es.length + 1)) e
        else st.dictW (addr prg w (i + 1)) := by
    intro i x hi
    rw [hdict, Function.update_apply]
    have hlt := lt_of_getElem?_eq_some hi
    rw [List.length_append, List.length_singleton] at hlt
    by_cases hie : i = es.length
    · rw [if_pos hie, if_pos (by rw [hie])]
    · rw [if_neg hie, if_neg]
      intro he
      have := ofNat_inj_small (by omega) (by omega) (addr_inj hprg hw hw he).2
      omega
  refine ⟨?_, ?_, ?_⟩
  · rw [if_neg (by simp)]
    simp only [update_eq, h.nextCnt, Function.update_self, List.length_append, List.length_singleton]
  · intro i x hi
    rw [hread i x hi]
    rcases getElem?_concat_cases hi with hi' | ⟨rfl, rfl⟩
    · rw [if_neg (by have := lt_of_getElem?_eq_some hi'; omega)]
      exact h.dict i x hi'
    · rw [if_pos rfl]
  · intro i x hi
    rw [hread i x hi]
    rcases getElem?_concat_cases hi with hi' | ⟨rfl, rfl⟩
    · rw [if_neg (by have := lt_of_getElem?_eq_some hi'; omega)]
      exact h.found i x hi'
    · rw [if_pos rfl, ← hval]
      exact hnz

/-- **Frame.**  An update of another keyword keeps what `w` stores. -/
theorem StoredAt.update_other (hprg : Function.Injective prg) (hw : Valid w) (h : StoredAt prg st w es)
    {w' : Str} (hw' : Valid w') (hne : w' ≠ w) (op : OP) (ind : Int32) (fill : Fill) :
    StoredAt prg (Mitra.update prg false st op w' ind fill) w es := by
  have hdict : ∀ i, (Mitra.update prg false st op w' ind fill).dictW (addr prg w i) =
      st.dictW (addr prg w i) := by
    intro i
    simp only [update_eq]
    apply Function.update_of_ne
    intro he
    obtain ⟨h1, -, -⟩ := seed_inj (hprg he)
    rw [take_keyBuf, take_keyBuf] at h1
    exact hne (padTo_injective hw.nulFree hw'.nulFree hw.fits hw'.fits h1).symm
  refine ⟨?_, fun i e hi => by rw [hdict]; exact h.dict i e hi, fun i e hi => by
    rw [hdict]; exact h.found i e hi⟩
  simp only [update_eq]
  rw [Function.update_of_ne fun he => hne (keyBuf_inj hw hw' he).symm]
  exact h.cnt

/-- The addresses of a keyword that was never searched. -/
theorem StoredAt.holds (h : StoredAt prg st w es) : HoldsAt prg false st.dictW (keyBuf w) 0 es := by
  refine ⟨h.dict, fun i e hi => ?_⟩
  rw [← h.dict i e hi]
  exact h.found i e hi

/-- **Search decodes every update.** -/
theorem StoredAt.search (h : StoredAt prg st w es) (hb : es.length < 2 ^ 31 - 1) (fills : Nat → Fill) :
    search prg false st w fills = (st, some ((Tally.count (es.map Entry.step)).keysWhere (· < 0))) := by
  have hint := toInt_ofNat_small (show es.length < 2 ^ 31 by omega)
  have hq := h.holds.query (show (Int32.ofNat es.length).toInt.toNat = es.length by rw [hint, Int.toNat_natCast])
  unfold Mitra.search
  simp only [h.cnt, Bool.false_eq_true, if_false, touchSrcCnt]
  by_cases he : es = []
  · rw [if_pos he, he]
    rfl
  · rw [if_neg he]
    have hok : ¬ (Int32.ofNat es.length < 0 ∨ Int32.ofNat es.length = Int32.maxValue) := by
      rw [Int32.lt_iff_toInt_lt, ← Int32.toInt_inj, hint]
      rintro (hneg | hmax)
      · have : (0 : Int32).toInt = 0 := rfl
        omega
      · have : Int32.maxValue.toInt = 2147483647 := rfl
        omega
    simp only [if_neg hok, hq]

end

/-! ## Histories -/

/-- The updates of a keyword, in order. -/
def entries (ops : List Op) (w : Str) : List Entry :=
  ops.filterMap fun op => match op with
    | .update op w' ind fill => if w' = w then some ⟨op, ind, fill⟩ else none
    | .search _ _ => none

/-- How often the pair was inserted, or deleted. -/
def count (ops : List Op) (op : OP) (w : Str) (ind : Int32) : Nat :=
  ops.countP fun o => match o with
    | .update op' w' ind' _ => op' = op ∧ w' = w ∧ ind' = ind
    | .search _ _ => false

theorem length_entries_le (ops : List Op) (w : Str) : (entries ops w).length ≤ ops.length :=
  List.length_filterMap_le _ _

theorem entries_update (ops : List Op) (op : OP) (w w' : Str) (ind : Int32) (fill : Fill) :
    entries (ops ++ [.update op w' ind fill]) w =
      if w' = w then entries ops w ++ [⟨op, ind, fill⟩] else entries ops w := by
  by_cases h : w' = w <;> simp [entries, List.filterMap_append, h]

theorem entries_search (ops : List Op) (w w' : Str) (fills : Nat → Fill) :
    entries (ops ++ [.search w' fills]) w = entries ops w := by
  simp [entries, List.filterMap_append]

theorem entries_other (ops : List Op) {op : Op} {w : Str} (h : op.keyword ≠ w) :
    entries (ops ++ [op]) w = entries ops w := by
  cases op with
  | search w' fills => exact entries_search ops w w' fills
  | update op w' ind fill => exact (entries_update ops op w w' ind fill).trans (if_neg h)

theorem length_entries_append (ops r : List Op) (w : Str) : (entries ops w).length ≤ (entries (ops ++ r) w).length := by
  rw [entries, entries, List.filterMap_append, List.length_append]
  exact Nat.le_add_right _ _

theorem net_entries (ops : List Op) (w : Str) (ind : Int32) :
    Tally.net ((entries ops w).map Entry.step) ind = (count ops .DEL w ind : Int) - count ops .INS w ind := by
  induction ops using List.reverseRecOn with
  | nil => rfl
  | append_singleton ops o ih =>
    cases o with
    | search w' fills =>
      rw [entries_search, ih]
      simp [count, List.countP_append]
    | update op w' ind' fill =>
      rw [entries_update]
      by_cases hw : w' = w
      · rw [if_pos hw, List.map_append, Tally.net_append, ih, List.map_singleton, Entry.step, Tally.net_singleton]
        by_cases hi : ind' = ind
        · cases op with
          | INS => simp [count, List.countP_append, hw, hi, OP.delta]; omega
          | DEL => simp [count, List.countP_append, hw, hi, OP.delta]; omega
        · simp [count, List.countP_append, hi]
      · rw [if_neg hw, ih]
        simp [count, List.countP_append, hw]

/-- The ciphertext an update stores is not the block that stands for an absent entry. -/
def NotZero (prg : PrfType → PrfType) (pre : List Op) : Op → Prop
  | .update op w ind fill => (updateRequest prg false (after prg false pre) op w ind fill).2.2 ≠ notfound
  | .search _ _ => True

/-- Every keyword stores its updates, in every state reached. -/
theorem storedAt_after {prg : PrfType → PrfType} (hprg : Function.Injective prg) {ops : List Op}
    (hk : ∀ op ∈ ops, Valid op.keyword) (hz : Runs.Each (NotZero prg) [] ops)
    (hn : ∀ w, (entries ops w).length ≤ 2 ^ 31 - 2) {w : Str} (hw : Valid w) :
    StoredAt prg (after prg false ops) w (entries ops w) := by
  induction ops using List.reverseRecOn generalizing w with
  | nil => exact ⟨rfl, fun i e hi => by simp [entries] at hi, fun i e hi => by simp [entries] at hi⟩
  | append_singleton ops o ih =>
    rw [Runs.each_concat, List.nil_append] at hz
    have hpre : ∀ w, (entries ops w).length ≤ 2 ^ 31 - 2 := by
      intro w
      exact le_trans (length_entries_append ops [o] w) (hn w)
    have ih := @ih (fun op hop => hk op (List.mem_append_left _ hop)) hz.1 hpre
    have hko := hk o (by simp)
    rw [after_concat]
    cases o with
    | search w' fills =>
      have hs := (ih hko).search (by have := hpre w'; simp only [Op.keyword]; omega) fills
      simp only [Op.keyword] at hs
      rw [entries_search, step, hs]
      exact ih hw
    | update op w' ind fill =>
      rw [entries_update]
      by_cases he : w' = w
      · subst he
        have hlen := hn w'
        rw [entries_update, if_pos rfl, List.length_append, List.length_singleton] at hlen
        rw [if_pos rfl]
        exact (ih hw).update hprg hw ⟨op, ind, fill⟩ (by omega) hz.2
      · rw [if_neg he]
        exact (ih hw).update_other hprg hw hko he op ind fill

/-- **Search is exact.**  Without cleaning, after any run of at most `2 ^ 31 - 2` updates of each
keyword, a search returns in ascending order the inds inserted more often than deleted. -/
theorem search_count_exact (prg : PrfType → PrfType) (hprg : Function.Injective prg) (ops : List Op)
    (hk : ∀ op ∈ ops, Valid op.keyword) (hz : Runs.Each (NotZero prg) [] ops)
    (hn : ∀ w, (entries ops w).length ≤ 2 ^ 31 - 2) (w : Str) (hw : Valid w) (fills : Nat → Fill) :
    ∃ l, (search prg false (after prg false ops) w fills).2 = some l ∧ l.Pairwise (· < ·) ∧
      ∀ ind, ind ∈ l ↔ count ops .DEL w ind < count ops .INS w ind := by
  have hst := storedAt_after hprg hk hz hn hw
  have hlen := hn w
  refine ⟨_, by rw [hst.search (by omega)], SortedMap.keysWhere_sorted _ _, fun ind => ?_⟩
  rw [Tally.mem_count_neg (abs_step_le _) (by rw [List.length_map]; omega), net_entries]
  omega

theorem head_bitwiseXORInd (op : OP) (fill : Fill) (k : PrfType) :
    (bitwiseXORInd 5 op fill k).data.headD 0 = 5 ^^^ k.data.headD 0 := by
  have h5 : toBytes 5 = [5, 0, 0, 0] := by decide
  obtain ⟨data, size⟩ := k
  cases data with
  | nil => exact absurd size (by decide)
  | cons b l =>
    simp only [bitwiseXORInd, bitwiseXOR, plain, h5]
    rfl

/-- With `Prg` the identity no update of the keyword `a` reads as absent. -/
theorem updateRequest_id_ne (df : Bool) (st : State) (op : OP) (fill : Fill) :
    (updateRequest id df st op [97] 5 fill).2.2 ≠ notfound := by
  intro hz
  rw [updateRequest_val] at hz
  -- the first byte of the ciphertext is the keyword's, xored with the ind's
  have hfirst := congrArg (fun b => b.data.headD 0) hz
  have hpad : ∀ s f, (seed df (keyBuf [97]) 1 s f).data.headD 0 = 97 := by
    intro s f
    cases df <;> rfl
  rw [head_bitwiseXORInd, id, hpad] at hfirst
  exact absurd hfirst (by decide)

/-- Two inds under the keyword `a`, one of them deleted and inserted twice again, and one under `b`,
with `Prg` the identity. -/
theorem search_count_exact_a :
    let ops : List Op := [.update .INS [97] 5 0, .update .INS [98] 5 0, .update .INS [97] (-1) 0,
      .update .DEL [97] 5 0, .search [98] 0, .update .INS [97] 5 0, .update .INS [97] 5 0]
    ∃ l, (search id false (after id false ops) [97] 0).2 = some l ∧ l.Pairwise (· < ·) ∧
      ∀ ind, ind ∈ l ↔ count ops .DEL [97] ind < count ops .INS [97] ind := by
  intro ops
  refine search_count_exact id Function.injective_id ops ?_ ?_ (fun w => ?_) [97] (by decide) 0
  · have hall : ops.all (fun op => decide (Valid op.keyword)) = true := by decide
    simpa using hall
  · refine ⟨show _ ≠ _ by decide, show _ ≠ _ by decide, show _ ≠ _ by decide, show _ ≠ _ by decide, trivial,
      show _ ≠ _ by decide, show _ ≠ _ by decide, trivial⟩
  · exact le_trans (length_entries_le _ w) (by decide)

/-! ## The counter wraps -/

theorem fileCnt_replicate (prg : PrfType → PrfType) (op : OP) (w : Str) (ind : Int32) (fill : Fill) (n : Nat) :
    (after prg false (List.replicate (n + 1) (.update op w ind fill))).fileCnt (keyBuf w) =
      some (Int32.ofNat (n + 1)) := by
  induction n with
  | zero => simp [after, step, update_eq, init, nextFileCnt]
  | succ n ih =>
    rw [List.replicate_succ', after_concat, step, update_eq]
    simp only [Function.update_self, ih, nextFileCnt, ofNat_add_one]

theorem each_replicate {P : List Op → Op → Prop} {op : Op} (h : ∀ pre, P pre op) (n : Nat) :
    Runs.Each P [] (List.replicate n op) := by
  induction n with
  | zero => trivial
  | succ n ih =>
    rw [List.replicate_succ', Runs.each_concat]
    exact ⟨ih, h _⟩

theorem search_replicate {n : Nat} (h : Int32.ofNat (n + 1) < 0) (prg : PrfType → PrfType) (op : OP) (w : Str)
    (ind : Int32) (fill : Fill) (fills : Nat → Fill) :
    (search prg false (after prg false (List.replicate (n + 1) (.update op w ind fill))) w fills).2 = none := by
  unfold search
  simp only [fileCnt_replicate, h, true_or, if_true]

/-- After `2 ^ 31` inserts the counter is negative, and the search gives no list. -/
theorem search_fails_after_wrap :
    ¬ ∀ (prg : PrfType → PrfType), Function.Injective prg → ∀ ops : List Op,
      (∀ op ∈ ops, Valid op.keyword) → Runs.Each (NotZero prg) [] ops → ∀ w, Valid w → ∀ fills,
      ∃ l, (search prg false (after prg false ops) w fills).2 = some l ∧ l.Pairwise (· < ·) ∧
        ∀ ind, ind ∈ l ↔ count ops .DEL w ind < count ops .INS w ind := by
  intro h
  have hnz : ∀ pre, NotZero id pre (.update .INS [97] 5 0) := fun pre =>
    updateRequest_id_ne false (after id false pre) .INS 0
  -- `n` stays a variable, so that the list is never unfolded
  obtain ⟨n, hn⟩ : ∃ n, Int32.ofNat (n + 1) < 0 := ⟨2 ^ 31 - 1, by decide⟩
  obtain ⟨l, hs, -⟩ := h id Function.injective_id (List.replicate (n + 1) (.update .INS [97] 5 0))
    (fun op hop => by rw [List.eq_of_mem_replicate hop]; decide) (each_replicate hnz _) [97] (by decide) 0
  rw [search_replicate hn] at hs
  cases hs

end Sse.Mitra
