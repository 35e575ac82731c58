import Sse.Mitra.Cleaning

/-!
# Reuse of addresses and pads in Mitra

Every `Server::update` of a run is derived from a tuple of keyword, search counter and
file counter; the log of a run lists these calls, and the server's dictionary is exactly
what the log wrote (`after_dictW`).  The updates of a keyword take the tuples
`(w, 0, 1) .. (w, 0, n)`.  A cleaning search writes its `k` results under
`(w, 1, 1) .. (w, 1, k)`, and since the keyword's own `SrcCnt` never moves, every
later search that has something to write back takes the same tuples again.

    tuples distinct ↔ no keyword is searched twice with a result        (tuples_nodup_iff)
-/

namespace Sse.Mitra

/-! ## The log of a run -/

/-- One `Server::update`, before encryption. -/
structure Write where
  keyword : Str
  srcCnt : Int32
  fileCnt : Int32
  plaintext : PrfType

/-- What address and mask of the call are derived from. -/
def Write.tuple (x : Write) : Str × Int32 × Int32 := (x.keyword, x.srcCnt, x.fileCnt)

section

variable (prg : PrfType → PrfType) (deleteFiles : Bool)

def Write.addr (x : Write) : PrfType := prg (seed deleteFiles (keyBuf x.keyword) 0 x.srcCnt x.fileCnt)

def Write.mask (x : Write) : PrfType := prg (seed deleteFiles (keyBuf x.keyword) 1 x.srcCnt x.fileCnt)

/-- The effect of the call on the dictionary. -/
def put (dictW : PrfType → PrfType) (x : Write) : PrfType → PrfType :=
  Function.update dictW (x.addr prg deleteFiles) (bitwiseXOR x.plaintext (x.mask prg deleteFiles))

/-- The re-insertions of a cleaning search. -/
def cleanWrites (w : Str) (srcCnt fileCnt : Int32) (fills : Nat → Fill) : List Int32 → List Write
  | [] => []
  | ind :: inds =>
    ⟨w, srcCnt, fileCnt + 1, plain ind .INS (fills 0)⟩ ::
      cleanWrites w srcCnt (fileCnt + 1) (fun i => fills (i + 1)) inds

/-- The `Server::update` calls of one call of the client. -/
def writes (st : State) : Op → List Write
  | .update op w ind fill => [⟨w, srcOf deleteFiles st w, nextFileCnt (st.fileCnt (keyBuf w)), plain ind op fill⟩]
  | .search w fills =>
    if deleteFiles then
      cleanWrites w (srcOf deleteFiles st w + 1) 0 fills ((search prg deleteFiles st w fills).2.getD [])
    else []

def logFrom (st : State) : List Op → List Write
  | [] => []
  | op :: ops => writes prg deleteFiles st op ++ logFrom (step prg deleteFiles st op).1 ops

/-- The `Server::update` calls of a run, in order. -/
def log (ops : List Op) : List Write := logFrom prg deleteFiles init ops

end

section

variable {prg : PrfType → PrfType} {df : Bool}

theorem logFrom_append (st : State) (ops ops' : List Op) :
    logFrom prg df st (ops ++ ops') =
      logFrom prg df st ops ++ logFrom prg df (ops.foldl (fun st op => (step prg df st op).1) st) ops' := by
  induction ops generalizing st with
  | nil => rfl
  | cons op ops ih =>
    rw [List.cons_append, logFrom, logFrom, ih, List.append_assoc]
    rfl

theorem log_concat (ops : List Op) (op : Op) :
    log prg df (ops ++ [op]) = log prg df ops ++ writes prg df (after prg df ops) op := by
  rw [log, logFrom_append]
  show _ ++ (_ ++ []) = _
  rw [List.append_nil]
  rfl

theorem cleanLoop_put {k : PrfType} {w : Str} (hk : seed df k = seed df (keyBuf w)) (s c : Int32) (fills : Nat → Fill)
    (dictW : PrfType → PrfType) (inds : List Int32) :
    (cleanLoop prg df s k c fills dictW inds).2.2 = (cleanWrites w s c fills inds).foldl (put prg df) dictW := by
  induction inds generalizing k c fills dictW with
  | nil => rfl
  | cons ind inds ih =>
    have hnext : seed df (seed df (seed df k 0 s (c + 1)) 1 s (c + 1)) = seed df (keyBuf w) := by
      funext op s' f
      rw [seed_seed, seed_seed, hk]
    simp only [cleanLoop, getAESRandomValue, cleanWrites, List.foldl_cons]
    rw [ih hnext, seed_seed, hk]
    rfl

theorem seed_decodeLoop (s c : Int32) (k : PrfType) (m : SortedMap Int32 Int32) (cs : List PrfType) :
    seed df (decodeLoop prg df s k c m cs).1 = seed df k := by
  induction cs generalizing k c m with
  | nil => rfl
  | cons x cs ih =>
    simp only [decodeLoop, getAESRandomValue, ih]
    funext op s' f
    rw [seed_seed]

theorem seed_query (dictW : PrfType → PrfType) (s : Int32) (k : PrfType) (c : Int32) :
    seed df (query prg df dictW s k c).1 = seed df k :=
  (seed_decodeLoop s 1 _ _ _).trans (seed_addrLoop prg df s k _)

/-- The calls of the log are the writes to the dictionary, and the only ones. -/
theorem step_dictW (st : State) (op : Op) :
    (step prg df st op).1.dictW = (writes prg df st op).foldl (put prg df) st.dictW := by
  cases op with
  | update op w ind fill =>
    simp only [step, update_eq]
    rfl
  | search w fills =>
    simp only [step, writes]
    unfold search
    simp only
    split
    · cases df <;> rfl
    · split
      · cases df <;> rfl
      · simp only
        cases df with
        | false => rfl
        | true =>
          simp only [if_true, cleanUp]
          exact cleanLoop_put (seed_query _ _ _ _) _ _ _ _ _

theorem after_dictW (ops : List Op) :
    (after prg df ops).dictW = (log prg df ops).foldl (put prg df) init.dictW := by
  induction ops using List.reverseRecOn with
  | nil => rfl
  | append_singleton ops op ih => rw [after_concat, log_concat, List.foldl_append, step_dictW, ih]

/-! ## Counters -/

theorem counters_frame {w : Str} (st : State) {op : Op}
    (hne : padTo (width df) w ≠ padTo (width df) op.keyword) :
    (step prg df st op).1.fileCnt (keyBuf w) = st.fileCnt (keyBuf w) ∧
      srcOf df (step prg df st op).1 w = srcOf df st w := by
  have hown := own_keyBuf df w
  cases op with
  | update op w' ind fill =>
    have hown' : Own df w' (keyBuf w') := own_keyBuf df w'
    simp only [step, update_eq, srcOf]
    rw [update_own_ne hne hown' _ hown]
    refine ⟨rfl, ?_⟩
    cases df with
    | false => rfl
    | true =>
      simp only [if_true]
      rw [update_own_ne hne hown' _ hown]
  | search w' fills =>
    have hown' : Own df w' (keyBuf w') := own_keyBuf df w'
    have htouch : srcOf df (touchSrcCnt df st (keyBuf w')) w = srcOf df st w := by
      unfold touchSrcCnt srcOf
      cases df with
      | false => rfl
      | true =>
        simp only [if_true]
        rw [update_own_ne hne hown' _ hown]
    simp only [step]
    unfold search
    simp only
    split
    · exact ⟨rfl, rfl⟩
    · split
      · exact ⟨rfl, htouch⟩
      · cases df with
        | false => exact ⟨rfl, rfl⟩
        | true =>
          simp only [if_true, cleanUp]
          refine ⟨update_own_ne hne ((hown'.query _ _ _).cleanLoop _ _ _ _ _) _ hown, ?_⟩
          rw [← htouch]
          simp only [srcOf, if_true]
          rw [update_own_ne hne (hown'.query _ _ _) _ hown]

/-- The keyword's counters: `FileCnt` counts its updates, `SrcCnt` stays 0. -/
structure Counted (df : Bool) (st : State) (w : Str) (n : Nat) : Prop where
  cnt : st.fileCnt (keyBuf w) = if n = 0 then none else some (Int32.ofNat n)
  src : srcOf df st w = 0

theorem Counted.nextCnt {st : State} {w : Str} {n : Nat} (h : Counted df st w n) :
    nextFileCnt (st.fileCnt (keyBuf w)) = Int32.ofNat (n + 1) := by
  rw [h.cnt]
  split_ifs with he
  · rw [he]
    rfl
  · exact ofNat_add_one _

theorem Counted.update {st : State} {w : Str} {n : Nat} (h : Counted df st w n) (op : OP) (ind : Int32) (fill : Fill) :
    Counted df (update prg df st op w ind fill) w (n + 1) := by
  refine ⟨?_, by rw [srcOf_update]; exact h.src⟩
  simp only [update_eq, h.nextCnt, Function.update_self]
  rw [if_neg (by omega)]

theorem ofNat_ne_zero {n : Nat} (h0 : n ≠ 0) (hn : n < 2 ^ 32) : Int32.ofNat n ≠ 0 := by
  intro h
  have := congrArg (fun i : Int32 => i.toBitVec.toNat) h
  simp only [Int32.toBitVec_ofNat', BitVec.toNat_ofNat] at this
  have h0' : (0 : Int32).toBitVec.toNat = 0 := rfl
  omega

theorem pos_of_counted {n : Nat} (h0 : n ≠ 0) (hn : n < 2 ^ 32) (hneg : ¬ Int32.ofNat n < 0) : 0 < Int32.ofNat n := by
  have hz := ofNat_ne_zero h0 hn
  rw [Int32.lt_iff_toInt_lt] at hneg
  rw [ne_eq, ← Int32.toInt_inj] at hz
  rw [Int32.lt_iff_toInt_lt]
  have : (0 : Int32).toInt = 0 := rfl
  omega

theorem Counted.search {st : State} {w : Str} {n : Nat} (h : Counted df st w n) (hw : w.length ≤ 11)
    (hn : df = true → n < 2 ^ 32) (fills : Nat → Fill) : Counted df (search prg df st w fills).1 w n := by
  have htouch : Counted df (touchSrcCnt df st (keyBuf w)) w n := ⟨h.cnt, by rw [srcOf_touchSrcCnt]; exact h.src⟩
  unfold Mitra.search
  simp only [h.cnt]
  by_cases h0 : n = 0
  · rw [if_pos h0]
    exact h
  · rw [if_neg h0]
    simp only
    split
    · exact htouch
    · rename_i hok
      cases df with
      | false => exact htouch
      | true =>
        have hpos := pos_of_counted h0 (hn rfl) fun hneg => hok (Or.inl hneg)
        simp only [if_true]
        set q := query prg true (touchSrcCnt true st (keyBuf w)).dictW ((st.srcCnt (keyBuf w)).getD 0) (keyBuf w)
          (Int32.ofNat n) with hq
        have hm : Marked q.1 := marked_query _ _ _ hpos
        refine ⟨?_, ?_⟩
        · simp only [cleanUp]
          rw [Function.update_of_ne ((marked_cleanLoop _ _ hm _ _ _).ne_keyBuf hw).symm]
          exact h.cnt
        · rw [← htouch.src]
          simp only [srcOf, cleanUp, if_true]
          rw [Function.update_of_ne (hm.ne_keyBuf hw).symm]

theorem counted_after {ops : List Op} (hk : ∀ op ∈ ops, Short op.keyword)
    (hn : df = true → ∀ w, (entries ops w).length < 2 ^ 32) {w : Str} (hw : Short w) :
    Counted df (after prg df ops) w (entries ops w).length := by
  induction ops using List.reverseRecOn with
  | nil => exact ⟨rfl, by cases df <;> rfl⟩
  | append_singleton ops o ih =>
    have hpre : df = true → ∀ w, (entries ops w).length < 2 ^ 32 := by
      intro hd w
      exact lt_of_le_of_lt (length_entries_append ops [o] w) (hn hd w)
    have ih := ih (fun op hop => hk op (List.mem_append_left _ hop)) hpre
    have hko := hk o (by simp)
    rw [after_concat]
    by_cases he : o.keyword = w
    · cases o with
      | search w' fills =>
        obtain rfl : w' = w := he
        rw [entries_search]
        exact ih.search (by have := hw.fits; omega) (fun hd => hpre hd w') fills
      | update op w' ind fill =>
        obtain rfl : w' = w := he
        rw [entries_update, if_pos rfl, List.length_append, List.length_singleton]
        exact ih.update op ind fill
    · obtain ⟨h1, h2⟩ := @counters_frame prg df w (after prg df ops) o (hw.padTo_ne hko (Ne.symm he) df)
      rw [entries_other ops he]
      exact ⟨h1.trans ih.cnt, h2.trans ih.src⟩

/-! ## Tuples -/

theorem ofNat_eq_iff {i j : Nat} : Int32.ofNat i = Int32.ofNat j ↔ i % 2 ^ 32 = j % 2 ^ 32 := by
  rw [← Int32.toBitVec_inj, Int32.toBitVec_ofNat', Int32.toBitVec_ofNat', ← BitVec.toNat_inj, BitVec.toNat_ofNat,
    BitVec.toNat_ofNat]

theorem cleanWrites_tuple (w : Str) (s : Int32) (m : Nat) (fills : Nat → Fill) (inds : List Int32) :
    (cleanWrites w s (Int32.ofNat m) fills inds).map Write.tuple =
      (List.range' (m + 1) inds.length).map fun i => (w, s, Int32.ofNat i) := by
  induction inds generalizing m fills with
  | nil => rfl
  | cons ind inds ih =>
    rw [cleanWrites, List.map_cons, ofNat_add_one, ih, List.length_cons, List.range'_succ, List.map_cons]
    rfl

/-- A list of distinct `int`s has at most `2 ^ 32` of them. -/
theorem length_le_of_sorted {l : List Int32} (h : l.Pairwise (· < ·)) : l.length ≤ 2 ^ 32 := by
  have hnd : (l.map fun i => i.toBitVec.toFin).Nodup := by
    refine List.Nodup.map (fun a b hab => ?_) (h.imp fun hlt he => ?_)
    · exact Int32.toBitVec_inj.1 (BitVec.toFin_inj.1 hab)
    · rw [he] at hlt
      exact Int32.lt_irrefl hlt
  have hle := hnd.length_le_card
  rwa [List.length_map, Fintype.card_fin] at hle

theorem search_fills (st : State) (w : Str) (fills fills' : Nat → Fill) :
    (search prg df st w fills).2 = (search prg df st w fills').2 := by
  unfold search
  simp only
  split
  · rfl
  · split <;> rfl

theorem search_sorted {st : State} {w : Str} {fills : Nat → Fill} {l : List Int32}
    (h : (search prg df st w fills).2 = some l) : l.Pairwise (· < ·) := by
  unfold search at h
  simp only at h
  split at h
  · cases h
    exact List.Pairwise.nil
  · split at h
    · cases h
    · obtain rfl := Option.some.inj h
      exact SortedMap.keysWhere_sorted _ _

end

/-- What a search of `w` returns after a run. -/
def found (prg : PrfType → PrfType) (df : Bool) (ops : List Op) (w : Str) : List Int32 :=
  (search prg df (after prg df ops) w 0).2.getD []

section

variable {prg : PrfType → PrfType} {df : Bool}

theorem length_found_le (ops : List Op) (w : Str) : (found prg df ops w).length ≤ 2 ^ 32 := by
  unfold found
  cases h : (search prg df (after prg df ops) w 0).2 with
  | none => simp
  | some l => exact length_le_of_sorted (search_sorted h)

theorem log_append (ops ops' : List Op) :
    log prg df (ops ++ ops') = log prg df ops ++ logFrom prg df (after prg df ops) ops' :=
  logFrom_append init ops ops'

/-- The tuples of one call. -/
theorem writes_search_tuple (ops : List Op) (w : Str) (fills : Nat → Fill) (h0 : srcOf df (after prg df ops) w = 0) :
    (writes prg df (after prg df ops) (.search w fills)).map Write.tuple =
      if df then (List.range' 1 (found prg df ops w).length).map fun i => (w, 1, Int32.ofNat i) else [] := by
  cases df with
  | false => rfl
  | true =>
    simp only [writes, if_true, h0, search_fills _ _ fills 0]
    exact cleanWrites_tuple w _ 0 fills _

/-- Where a tuple of the log comes from. -/
theorem tuple_cases {ops : List Op} (hk : ∀ op ∈ ops, Short op.keyword) (hn : ∀ w, (entries ops w).length < 2 ^ 32)
    {x : Write} (hx : x ∈ log prg df ops) :
    Short x.keyword ∧
      ((x.srcCnt = 0 ∧ ∃ c, 1 ≤ c ∧ c ≤ (entries ops x.keyword).length ∧ x.fileCnt = Int32.ofNat c) ∨
        (df = true ∧ x.srcCnt = 1 ∧
          ∃ l fills r, ops = l ++ .search x.keyword fills :: r ∧ found prg df l x.keyword ≠ [])) := by
  induction ops using List.reverseRecOn with
  | nil => simp [log, logFrom] at hx
  | append_singleton ops o ih =>
    have hpre : ∀ w, (entries ops w).length < 2 ^ 32 := by
      intro w
      exact lt_of_le_of_lt (length_entries_append ops [o] w) (hn w)
    have hkpre : ∀ op ∈ ops, Short op.keyword := fun op hop => hk op (List.mem_append_left _ hop)
    have hko := hk o (by simp)
    rw [log_concat, List.mem_append] at hx
    rcases hx with hx | hx
    · obtain ⟨hs, hcase⟩ := ih hkpre hpre hx
      refine ⟨hs, ?_⟩
      rcases hcase with ⟨h0, c, hc1, hc2, hf⟩ | ⟨hd, h1, l, fills, r, he, hne⟩
      · exact Or.inl ⟨h0, c, hc1, le_trans hc2 (length_entries_append ops [o] _), hf⟩
      · exact Or.inr ⟨hd, h1, l, fills, r ++ [o], by simp [he], hne⟩
    · have hcnt := @counted_after prg df ops hkpre (fun _ => hpre) o.keyword hko
      cases o with
      | update op w ind fill =>
        obtain rfl := List.mem_singleton.1 hx
        refine ⟨hko, Or.inl ⟨hcnt.src, (entries ops w).length + 1, by omega, ?_, hcnt.nextCnt⟩⟩
        show _ ≤ (entries _ w).length
        rw [entries_update, if_pos rfl, List.length_append, List.length_singleton]
      | search w fills =>
        have ht : x.tuple ∈ (writes prg df (after prg df ops) (.search w fills)).map Write.tuple :=
          List.mem_map_of_mem hx
        rw [writes_search_tuple ops w fills hcnt.src] at ht
        cases df with
        | false => simp at ht
        | true =>
          obtain ⟨i, hi, he⟩ := List.mem_map.1 ht
          obtain ⟨hw, hs, -⟩ : w = x.keyword ∧ (1 : Int32) = x.srcCnt ∧ Int32.ofNat i = x.fileCnt := by
            simpa [Write.tuple] using he
          refine ⟨hw ▸ hko, Or.inr ⟨rfl, hs.symm, ops, fills, [], by rw [hw], fun hnil => ?_⟩⟩
          rw [hw, hnil] at hi
          simp at hi

/-- A search that found something left its first tuple in the log. -/
theorem tuple_mem_of_search {ops l r : List Op} {w : Str} {fills : Nat → Fill} (hk : ∀ op ∈ ops, Short op.keyword)
    (hn : ∀ w, (entries ops w).length < 2 ^ 32) (he : ops = l ++ .search w fills :: r)
    (hne : found prg true l w ≠ []) : (w, 1, 1) ∈ (log prg true ops).map Write.tuple := by
  have hcnt := @counted_after prg true l (fun op hop => hk op (by simp [he, hop]))
    (fun _ w => lt_of_le_of_lt (by rw [he]; exact length_entries_append l _ w) (hn w)) w
    (hk (.search w fills) (by simp [he]))
  have hpos := List.length_pos_iff.2 hne
  rw [he, log_append, logFrom, List.map_append, List.map_append]
  refine List.mem_append_right _ (List.mem_append_left _ ?_)
  rw [writes_search_tuple l w fills hcnt.src, if_pos rfl]
  exact List.mem_map.2 ⟨1, by rw [List.mem_range'_1]; omega, rfl⟩

end

/-- A keyword is searched at most once while `live` holds of it. -/
def Once (live : List Op → Str → Prop) (pre : List Op) : Op → Prop
  | .search w _ => live pre w → ∀ l fills r, pre = l ++ .search w fills :: r → ¬ live l w
  | .update _ _ _ _ => True

section

variable {prg : PrfType → PrfType} {df : Bool}

/-- **Freshness.**  Tuples repeat exactly when a keyword is searched twice with a result. -/
theorem tuples_nodup_iff {ops : List Op} (hk : ∀ op ∈ ops, Short op.keyword)
    (hn : ∀ w, (entries ops w).length < 2 ^ 32) :
    ((log prg df ops).map Write.tuple).Nodup ↔
      (df = true → Runs.Each (Once fun pre w => found prg df pre w ≠ []) [] ops) := by
  induction ops using List.reverseRecOn with
  | nil => simp [log, logFrom, Runs.Each]
  | append_singleton ops o ih =>
    have hpre : ∀ w, (entries ops w).length < 2 ^ 32 := by
      intro w
      exact lt_of_le_of_lt (length_entries_append ops [o] w) (hn w)
    have hkpre : ∀ op ∈ ops, Short op.keyword := fun op hop => hk op (List.mem_append_left _ hop)
    have hko := hk o (by simp)
    have hcnt := @counted_after prg df ops hkpre (fun _ => hpre) o.keyword hko
    rw [log_concat, List.map_append, List.nodup_append, Runs.each_concat, List.nil_append, ih hkpre hpre]
    cases o with
    | update op w ind fill =>
      have hnew : ∀ a ∈ (log prg df ops).map Write.tuple,
          ∀ b ∈ (writes prg df (after prg df ops) (.update op w ind fill)).map Write.tuple, a ≠ b := by
        intro a ha b hb hab
        obtain ⟨x, hx, rfl⟩ := List.mem_map.1 ha
        obtain ⟨y, hy, rfl⟩ := List.mem_map.1 hb
        obtain rfl := List.mem_singleton.1 hy
        have hb := hn w
        rw [entries_update, if_pos rfl, List.length_append, List.length_singleton] at hb
        obtain ⟨hw, hs, hf⟩ : x.keyword = w ∧ x.srcCnt = srcOf df (after prg df ops) w ∧
            x.fileCnt = nextFileCnt ((after prg df ops).fileCnt (keyBuf w)) := by
          simpa [Write.tuple] using hab
        have hf' : x.fileCnt = Int32.ofNat ((entries ops w).length + 1) := hf.trans hcnt.nextCnt
        have hs' : x.srcCnt = 0 := hs.trans hcnt.src
        rcases (tuple_cases hkpre hpre hx).2 with ⟨-, c, hc1, hc2, hfc⟩ | ⟨-, h1, -⟩
        · rw [hf', ofNat_eq_iff] at hfc
          rw [hw] at hc2
          omega
        · rw [hs'] at h1
          exact absurd h1 (by decide)
      refine ⟨fun h hd => ⟨h.1 hd, trivial⟩, fun h => ⟨fun hd => (h hd).1, by simp [writes], hnew⟩⟩
    | search w fills =>
      rw [writes_search_tuple ops w fills hcnt.src]
      cases df with
      | false => simp
      | true =>
        simp only [if_true, forall_const, Once]
        constructor
        · rintro ⟨h1, -, hdis⟩
          refine ⟨h1, fun hne l fills' r he hl => ?_⟩
          refine hdis (w, 1, 1) (tuple_mem_of_search hkpre hpre he hl) (w, 1, 1) ?_ rfl
          have hpos := List.length_pos_iff.2 hne
          exact List.mem_map.2 ⟨1, by rw [List.mem_range'_1]; omega, rfl⟩
        · rintro ⟨h1, honce⟩
          refine ⟨h1, ?_, ?_⟩
          · refine List.Nodup.map_on (fun i hi j hj he => ?_) List.nodup_range'
            have hle := @length_found_le prg true ops w
            have hij := ofNat_eq_iff.1 (Prod.mk.inj (Prod.mk.inj he).2).2
            rw [List.mem_range'_1] at hi hj
            omega
          · intro a ha b hb hab
            obtain ⟨x, hx, rfl⟩ := List.mem_map.1 ha
            obtain ⟨i, hi, rfl⟩ := List.mem_map.1 hb
            obtain ⟨hw, hs, -⟩ : x.keyword = w ∧ x.srcCnt = 1 ∧ x.fileCnt = Int32.ofNat i := by
              simpa [Write.tuple] using hab
            have hne : found prg true ops w ≠ [] := by
              intro hnil
              rw [hnil] at hi
              simp at hi
            rcases (tuple_cases hkpre hpre hx).2 with ⟨h0, -⟩ | ⟨-, -, l, fills', r, he, hl⟩
            · rw [hs] at h0
              exact absurd h0 (by decide)
            · rw [hw] at he hl
              exact honce hne l fills' r he hl

/-- Distinct tuples give distinct addresses and distinct masks. -/
theorem seeds_nodup (hprg : Function.Injective prg) {ops : List Op} (hk : ∀ op ∈ ops, Short op.keyword)
    (hn : ∀ w, (entries ops w).length < 2 ^ 32) (h : ((log prg df ops).map Write.tuple).Nodup) (op : UInt8) :
    ((log prg df ops).map fun x => prg (seed df (keyBuf x.keyword) op x.srcCnt x.fileCnt)).Nodup := by
  refine List.Nodup.map_on (fun x hx y hy he => ?_) h.of_map
  have hxy := hprg he
  obtain ⟨hbuf, -, hf⟩ := seed_inj hxy
  obtain ⟨hsx, hcx⟩ := tuple_cases hk hn hx
  obtain ⟨hsy, hcy⟩ := tuple_cases hk hn hy
  have hw : x.keyword = y.keyword := by
    by_contra hne
    rw [take_keyBuf, take_keyBuf] at hbuf
    exact hsx.padTo_ne hsy hne df hbuf
  have hs : x.srcCnt = y.srcCnt := by
    cases df with
    | true => exact seed_src_inj hxy
    | false =>
      rcases hcx with ⟨h1, -⟩ | ⟨hd, -⟩
      · rcases hcy with ⟨h2, -⟩ | ⟨hd, -⟩
        · rw [h1, h2]
        · cases hd
      · cases hd
  refine List.inj_on_of_nodup_map h hx hy ?_
  simp only [Write.tuple, hw, hs, hf]

end

/-! ## When nothing is reused -/

/-- Some ind of the keyword was inserted more often than deleted. -/
def HasLive (ops : List Op) (w : Str) : Prop := ∃ ind, count ops .DEL w ind < count ops .INS w ind

section

variable {prg : PrfType → PrfType} {df : Bool}

/-- `Once` for fewer moments asks for less. -/
theorem each_once_mono {live live' : List Op → Str → Prop} {ops : List Op}
    (h : ∀ pre w, pre <+: ops → Short w → live' pre w → live pre w) (hk : ∀ op ∈ ops, Short op.keyword)
    (honce : Runs.Each (Once live) [] ops) : Runs.Each (Once live') [] ops := by
  rw [Runs.each_iff_split] at honce ⊢
  intro pre op r he
  have hop := hk op (by simp [he])
  have hpre := honce pre op r he
  cases op with
  | update _ _ _ _ => trivial
  | search w fills =>
    intro hlive l fills' r' hsplit hl
    have h1 := h pre w ⟨_, he.symm⟩ hop hlive
    have h2 := h l w ⟨_, by rw [he, hsplit, List.append_assoc]⟩ hop hl
    exact hpre h1 l fills' r' hsplit h2

theorem found_eq_nil {ops : List Op} (hk : ∀ op ∈ ops, Short op.keyword)
    (hn : ∀ w, (entries ops w).length < 2 ^ 32) {w : Str} (hw : Short w) (h : entries ops w = []) :
    found prg df ops w = [] := by
  have hcnt := (@counted_after prg df ops hk (fun _ => hn) w hw).cnt
  rw [h, List.length_nil, if_pos rfl] at hcnt
  unfold found search
  simp only [hcnt]
  rfl

theorem found_ne_nil_iff (hprg : Function.Injective prg) {ops : List Op} (hk : ∀ op ∈ ops, Short op.keyword)
    (hz : Runs.Each (Visible prg df) [] ops) {w : Str} (hw : Short w) (hn : (entries ops w).length ≤ 2 ^ 31 - 2) :
    found prg df ops w ≠ [] ↔ HasLive ops w := by
  unfold found HasLive
  rw [search_answer hprg hk hz hw, answer_small (by omega), Option.getD_some]
  rw [← List.length_pos_iff, List.length_pos_iff_exists_mem]
  apply exists_congr
  intro ind
  rw [Tally.mem_count_neg (abs_step_le _) (by rw [List.length_map]; omega), net_entries]
  omega

end

/-- **No address and no mask is used twice**, with fewer than `2 ^ 32` updates of each keyword, when
cleaning is off or no keyword is searched again after a search that had entries to look at.  With an
injective `Prg` and no ciphertext that reads as absent, cleaning reuses a tuple exactly when some
keyword is searched twice while it has a live ind. -/
theorem mitra_fresh (prg : PrfType → PrfType) (deleteFiles : Bool) (ops : List Op)
    (hk : ∀ op ∈ ops, Short op.keyword) (hn : ∀ w, (entries ops w).length < 2 ^ 32) :
    ((deleteFiles = true → Runs.Each (Once fun pre w => entries pre w ≠ []) [] ops) →
      ((log prg deleteFiles ops).map Write.tuple).Nodup ∧
        (Function.Injective prg → ((log prg deleteFiles ops).map (Write.addr prg deleteFiles)).Nodup ∧
          ((log prg deleteFiles ops).map (Write.mask prg deleteFiles)).Nodup)) ∧
    (Function.Injective prg → Runs.Each (Visible prg deleteFiles) [] ops →
      (∀ w, (entries ops w).length ≤ 2 ^ 31 - 2) →
      (((log prg deleteFiles ops).map Write.tuple).Nodup ↔
        (deleteFiles = true → Runs.Each (Once HasLive) [] ops))) := by
  have hprefix : ∀ {pre : List Op}, pre <+: ops → (∀ op ∈ pre, Short op.keyword) ∧
      ∀ w, (entries pre w).length ≤ (entries ops w).length := by
    rintro pre ⟨r, rfl⟩
    exact ⟨fun op hop => hk op (List.mem_append_left _ hop), length_entries_append pre r⟩
  constructor
  · intro honce
    have hnodup : ((log prg deleteFiles ops).map Write.tuple).Nodup := by
      refine (tuples_nodup_iff hk hn).2 fun hd => each_once_mono (fun pre w hpre hw hne h => ?_) hk (honce hd)
      obtain ⟨hk', hn'⟩ := hprefix hpre
      exact hne (found_eq_nil hk' (fun w => lt_of_le_of_lt (hn' w) (hn w)) hw h)
    exact ⟨hnodup, fun hprg => ⟨seeds_nodup hprg hk hn hnodup 0, seeds_nodup hprg hk hn hnodup 1⟩⟩
  · intro hprg hz hb
    have hiff : ∀ pre w, pre <+: ops → Short w → (found prg deleteFiles pre w ≠ [] ↔ HasLive pre w) := by
      rintro pre w hpre hw
      obtain ⟨hk', hn'⟩ := hprefix hpre
      obtain ⟨r, rfl⟩ := hpre
      exact found_ne_nil_iff hprg hk' (Runs.each_append.1 hz).1 hw (le_trans (hn' w) (hb w))
    rw [tuples_nodup_iff hk hn]
    constructor
    · exact fun h hd => each_once_mono (fun pre w hpre hw hl => (hiff pre w hpre hw).2 hl) hk (h hd)
    · exact fun h hd => each_once_mono (fun pre w hpre hw hl => (hiff pre w hpre hw).1 hl) hk (h hd)

/-- One insert and one search of the keyword `a`, with cleaning. -/
theorem mitra_fresh_one_search :
    ((log id true [.update .INS [97] 5 0, .search [97] 0]).map Write.tuple).Nodup := by
  have hk : ∀ op ∈ [Op.update .INS [97] 5 0, .search [97] 0], Short op.keyword := by
    intro op hop
    simp only [List.mem_cons, List.not_mem_nil, or_false] at hop
    rcases hop with rfl | rfl <;> decide
  have hn : ∀ w, (entries [Op.update .INS [97] 5 0, .search [97] 0] w).length < 2 ^ 32 :=
    fun w => lt_of_le_of_lt (length_entries_le _ w) (by decide)
  have honce : Runs.Each (Once fun pre w => entries pre w ≠ []) [] [Op.update .INS [97] 5 0, .search [97] 0] := by
    refine ⟨trivial, fun _ l fills r he => ?_, trivial⟩
    -- the only call before the search is the insert
    cases l with
    | nil => simp at he
    | cons a l => simp at he
  exact ((mitra_fresh id true _ hk hn).1 fun _ => honce).1

/-- Two searches of the keyword `a` after one insert write to the same tuple. -/
theorem mitra_reuses_tuple :
    ¬ ∀ (deleteFiles : Bool) (ops : List Op), (∀ op ∈ ops, Short op.keyword ∧ op.keyword ≠ []) →
      ((log id deleteFiles ops).map Write.tuple).Nodup := by
  intro h
  have hnodup := h true [.update .INS [97] 5 0, .search [97] 0, .search [97] 0] (by
    intro op hop
    simp only [List.mem_cons, List.not_mem_nil, or_false] at hop
    rcases hop with rfl | rfl | rfl <;> decide)
  exact absurd hnodup (by decide +kernel)

end Sse.Mitra
