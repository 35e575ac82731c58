import Sse.Mitra.Search

/-!
# Keywords in Mitra

A seed keeps the first `width deleteFiles` bytes of its keyword, 11 or 7, and everything
the client touches for a keyword, map keys and addresses, comes from a buffer with these
bytes (`Own`): also the buffers that `search` has written over before it uses them as
map keys.  So two keywords are isolated exactly when they differ there.

    w1 ≠ w2 → (Isolated prg deleteFiles w1 w2 ↔
      padTo (width deleteFiles) w1 ≠ padTo (width deleteFiles) w2)      (mitra_isolated_iff)
-/

namespace Sse.Mitra

/-- A buffer of keyword `w`, whatever is written over its tail. -/
def Own (df : Bool) (w : Str) (k : PrfType) : Prop := k.data.take (width df) = padTo (width df) w

theorem own_keyBuf (df : Bool) (w : Str) : Own df w (keyBuf w) := take_keyBuf df w

theorem Own.seed {df : Bool} {w : Str} {k : PrfType} (h : Own df w k) (op : UInt8) (s f : Int32) :
    Own df w (seed df k op s f) := (take_seed df k op s f).trans h

theorem Own.ne {df : Bool} {w w' : Str} {k k' : PrfType} (hne : padTo (width df) w ≠ padTo (width df) w')
    (h : Own df w k) (h' : Own df w' k') : k ≠ k' := by
  rintro rfl
  exact hne (h.symm.trans h')

section Loops

variable {prg : PrfType → PrfType} {df : Bool} {w : Str}

theorem Own.addrLoop {k : PrfType} (h : Own df w k) (s : Int32) (is : List Int32) :
    Own df w (addrLoop prg df s k is).1 := by
  induction is generalizing k with
  | nil => exact h
  | cons i is ih => exact ih (h.seed 0 s i)

theorem Own.decodeLoop {k : PrfType} (h : Own df w k) (s c : Int32) (m : SortedMap Int32 Int32)
    (cs : List PrfType) : Own df w (decodeLoop prg df s k c m cs).1 := by
  induction cs generalizing k c m with
  | nil => exact h
  | cons x cs ih => exact ih (h.seed 1 s c) _ _

theorem Own.cleanLoop {k : PrfType} (h : Own df w k) (s c : Int32) (fills : Nat → Fill)
    (dictW : PrfType → PrfType) (inds : List Int32) : Own df w (cleanLoop prg df s k c fills dictW inds).1 := by
  induction inds generalizing k c fills dictW with
  | nil => exact h
  | cons ind inds ih => exact ih ((h.seed 0 s (c + 1)).seed 1 s (c + 1)) _ _ _

theorem Own.query {k : PrfType} (h : Own df w k) (dictW : PrfType → PrfType) (s c : Int32) :
    Own df w (query prg df dictW s k c).1 := (h.addrLoop s (counters c)).decodeLoop s 1 _ _

end Loops

/-! ## What a state holds about one keyword -/

structure AgreeOn (prg : PrfType → PrfType) (df : Bool) (w : Str) (st st' : State) : Prop where
  fileCnt : ∀ k, Own df w k → st'.fileCnt k = st.fileCnt k
  srcCnt : ∀ k, Own df w k → st'.srcCnt k = st.srcCnt k
  dictW : ∀ k, Own df w k → st'.dictW (prg k) = st.dictW (prg k)

section

variable {prg : PrfType → PrfType} {df : Bool} {w : Str}

theorem AgreeOn.refl (st : State) : AgreeOn prg df w st st := ⟨fun _ _ => rfl, fun _ _ => rfl, fun _ _ => rfl⟩

theorem AgreeOn.symm {st st' : State} (h : AgreeOn prg df w st st') : AgreeOn prg df w st' st :=
  ⟨fun k hk => (h.fileCnt k hk).symm, fun k hk => (h.srcCnt k hk).symm, fun k hk => (h.dictW k hk).symm⟩

theorem AgreeOn.trans {s t u : State} (h : AgreeOn prg df w s t) (h' : AgreeOn prg df w t u) :
    AgreeOn prg df w s u :=
  ⟨fun k hk => (h'.fileCnt k hk).trans (h.fileCnt k hk), fun k hk => (h'.srcCnt k hk).trans (h.srcCnt k hk),
    fun k hk => (h'.dictW k hk).trans (h.dictW k hk)⟩

/-! ## Calls on another keyword -/

section Other

variable {w' : Str} (hne : padTo (width df) w ≠ padTo (width df) w')
include hne

theorem update_own_ne {β : Type} {f : PrfType → β} {k' : PrfType} (hk' : Own df w' k') (v : β) {k : PrfType}
    (hk : Own df w k) : Function.update f k' v k = f k :=
  Function.update_of_ne (Own.ne hne hk hk') v f

theorem update_addr_ne (hprg : Function.Injective prg) {f : PrfType → PrfType} {k' : PrfType}
    (hk' : Own df w' k') (v : PrfType) {k : PrfType} (hk : Own df w k) :
    Function.update f (prg k') v (prg k) = f (prg k) :=
  Function.update_of_ne (fun e => Own.ne hne hk hk' (hprg e)) v f

theorem update_other (hprg : Function.Injective prg) (st : State) (op : OP) (ind : Int32) (fill : Fill) :
    AgreeOn prg df w st (update prg df st op w' ind fill) := by
  rw [update_eq]
  refine ⟨fun k hk => update_own_ne hne (own_keyBuf df w') _ hk, fun k hk => ?_,
    fun k hk => update_addr_ne hne hprg ((own_keyBuf df w').seed _ _ _) _ hk⟩
  simp only
  split
  · exact update_own_ne hne (own_keyBuf df w') _ hk
  · rfl

theorem cleanLoop_other (hprg : Function.Injective prg) {k' : PrfType} (hk' : Own df w' k') (s c : Int32)
    (fills : Nat → Fill) (dictW : PrfType → PrfType) (inds : List Int32) {k : PrfType} (hk : Own df w k) :
    (cleanLoop prg df s k' c fills dictW inds).2.2 (prg k) = dictW (prg k) := by
  induction inds generalizing k' c fills dictW with
  | nil => rfl
  | cons ind inds ih =>
    simp only [cleanLoop, getAESRandomValue]
    rw [ih ((hk'.seed 0 s (c + 1)).seed 1 s (c + 1))]
    exact update_addr_ne hne hprg (hk'.seed 0 s (c + 1)) _ hk

theorem touchSrcCnt_other (st : State) : AgreeOn prg df w st (touchSrcCnt df st (keyBuf w')) := by
  refine ⟨fun _ _ => rfl, fun k hk => ?_, fun _ _ => rfl⟩
  unfold touchSrcCnt
  simp only
  split
  · exact update_own_ne hne (own_keyBuf df w') _ hk
  · rfl

theorem cleanUp_other (hprg : Function.Injective prg) (st : State) (s : Int32) {k' : PrfType}
    (hk' : Own df w' k') (fills : Nat → Fill) (inds : List Int32) :
    AgreeOn prg df w st (cleanUp prg df st s k' fills inds) :=
  ⟨fun _ hk => update_own_ne hne (hk'.cleanLoop _ _ _ _ _) _ hk, fun _ hk => update_own_ne hne hk' _ hk,
    fun _ hk => cleanLoop_other hne hprg hk' _ _ _ _ _ hk⟩

theorem search_other (hprg : Function.Injective prg) (st : State) (fills : Nat → Fill) :
    AgreeOn prg df w st (search prg df st w' fills).1 := by
  have h1 : AgreeOn prg df w st (touchSrcCnt df st (keyBuf w')) := touchSrcCnt_other hne st
  unfold search
  simp only
  split
  · exact AgreeOn.refl st
  · split
    · exact h1
    · simp only
      split
      · exact h1.trans (cleanUp_other hne hprg _ _ ((own_keyBuf df w').query _ _ _) _ _)
      · exact h1

/-- **Frame.**  A call on `w'` leaves what is held about `w` alone. -/
theorem step_frame (hprg : Function.Injective prg) (st : State) {op : Op} (hop : op.keyword = w') :
    AgreeOn prg df w st (step prg df st op).1 := by
  cases op with
  | update op w'' ind fill => obtain rfl : w'' = w' := hop; exact update_other hne hprg st op ind fill
  | search w'' fills => obtain rfl : w'' = w' := hop; exact search_other hne hprg st fills

end Other

/-! ## Calls on the keyword itself -/

theorem update_congr {β : Type} {p : PrfType → Prop} {f f' : PrfType → β} {g : PrfType → PrfType}
    (h : ∀ k, p k → f' (g k) = f (g k)) (a : PrfType) (v : β) {k : PrfType} (hk : p k) :
    Function.update f' a v (g k) = Function.update f a v (g k) := by
  rw [Function.update_apply, Function.update_apply, h k hk]

theorem AgreeOn.update {st st' : State} (h : AgreeOn prg df w st st') (op : OP) (ind : Int32) (fill : Fill) :
    AgreeOn prg df w (update prg df st op w ind fill) (Mitra.update prg df st' op w ind fill) := by
  rw [update_eq, update_eq, h.fileCnt _ (own_keyBuf df w), h.srcCnt _ (own_keyBuf df w)]
  refine ⟨fun k hk => update_congr (g := id) h.fileCnt _ _ hk, fun k hk => ?_,
    fun k hk => update_congr h.dictW _ _ hk⟩
  simp only
  split
  · exact update_congr (g := id) h.srcCnt _ _ hk
  · exact h.srcCnt k hk

theorem serverSearch_congr {d d' : PrfType → PrfType} (h : ∀ k, Own df w k → d' (prg k) = d (prg k))
    {k : PrfType} (hk : Own df w k) (s : Int32) (is : List Int32) :
    serverSearch d' (addrLoop prg df s k is).2 = serverSearch d (addrLoop prg df s k is).2 := by
  unfold serverSearch
  rw [addrLoop_snd, List.map_map, List.map_map]
  congr 1
  apply List.map_congr_left
  intro i _
  exact h _ (hk.seed 0 s i)

theorem cleanLoop_congr {d d' : PrfType → PrfType} (h : ∀ k, Own df w k → d' (prg k) = d (prg k))
    (k : PrfType) (s c : Int32) (fills : Nat → Fill) (inds : List Int32) :
    (cleanLoop prg df s k c fills d' inds).1 = (cleanLoop prg df s k c fills d inds).1 ∧
    (cleanLoop prg df s k c fills d' inds).2.1 = (cleanLoop prg df s k c fills d inds).2.1 ∧
    ∀ j, Own df w j → (cleanLoop prg df s k c fills d' inds).2.2 (prg j) =
      (cleanLoop prg df s k c fills d inds).2.2 (prg j) := by
  induction inds generalizing k c fills d d' with
  | nil => exact ⟨rfl, rfl, h⟩
  | cons ind inds ih =>
    simp only [cleanLoop, getAESRandomValue]
    exact ih (fun j hj => update_congr h _ _ hj) _ _ _

theorem AgreeOn.touchSrcCnt {st st' : State} (h : AgreeOn prg df w st st') :
    AgreeOn prg df w (touchSrcCnt df st (keyBuf w)) (Mitra.touchSrcCnt df st' (keyBuf w)) := by
  refine ⟨h.fileCnt, fun k hk => ?_, h.dictW⟩
  unfold Mitra.touchSrcCnt
  simp only [h.srcCnt _ (own_keyBuf df w)]
  split
  · exact update_congr (g := id) h.srcCnt _ _ hk
  · exact h.srcCnt k hk

theorem AgreeOn.query {st st' : State} (h : AgreeOn prg df w st st') {k : PrfType} (hk : Own df w k) (s c : Int32) :
    query prg df st'.dictW s k c = Mitra.query prg df st.dictW s k c := by
  unfold Mitra.query
  simp only
  rw [serverSearch_congr h.dictW hk]

theorem AgreeOn.cleanUp {st st' : State} (h : AgreeOn prg df w st st') {k : PrfType} (hk : Own df w k) (s : Int32)
    (fills : Nat → Fill) (inds : List Int32) :
    AgreeOn prg df w (cleanUp prg df st s k fills inds) (Mitra.cleanUp prg df st' s k fills inds) := by
  obtain ⟨hc1, hc2, hc3⟩ := cleanLoop_congr h.dictW k (s + 1) 0 fills inds
  refine ⟨fun j hj => ?_, fun j hj => ?_, hc3⟩
  · simp only [Mitra.cleanUp, hc1, hc2]
    exact update_congr (g := id) h.fileCnt _ _ hj
  · simp only [Mitra.cleanUp, h.srcCnt k hk]
    exact update_congr (g := id) h.srcCnt _ _ hj

theorem AgreeOn.search {st st' : State} (h : AgreeOn prg df w st st') (fills : Nat → Fill) :
    AgreeOn prg df w (search prg df st w fills).1 (Mitra.search prg df st' w fills).1 ∧
      (Mitra.search prg df st' w fills).2 = (Mitra.search prg df st w fills).2 := by
  have hown := own_keyBuf df w
  have h1 := h.touchSrcCnt
  unfold Mitra.search
  simp only [h.fileCnt _ hown, h.srcCnt _ hown, h1.query hown]
  split
  · exact ⟨h, rfl⟩
  · split
    · exact ⟨h1, rfl⟩
    · refine ⟨?_, rfl⟩
      simp only
      split
      · exact h1.cleanUp (hown.query _ _ _) _ _ _
      · exact h1

/-- **Locality.**  A call on `w` reads and writes only what is held about `w`. -/
theorem AgreeOn.step {st st' : State} (h : AgreeOn prg df w st st') {op : Op} (hop : op.keyword = w) :
    AgreeOn prg df w (step prg df st op).1 (Mitra.step prg df st' op).1 ∧
      (Mitra.step prg df st' op).2 = (Mitra.step prg df st op).2 := by
  cases op with
  | update op w' ind fill => obtain rfl : w' = w := hop; exact ⟨h.update op ind fill, rfl⟩
  | search w' fills => obtain rfl : w' = w := hop; exact h.search fills

end

/-! ## Isolation -/

/-- The calls on `w`. -/
def on (w : Str) (op : Op) : Bool := op.keyword == w

/-- Two runs with the same calls on `w2` and any calls on `w1` give `w2` the same answers. -/
def Isolated (prg : PrfType → PrfType) (deleteFiles : Bool) (w1 w2 : Str) : Prop :=
  Runs.NonInterfering (Runs.total (step prg deleteFiles)) init (on w2) (on w1) id

theorem isolated_of_prefix_ne {prg : PrfType → PrfType} (hprg : Function.Injective prg) {df : Bool} {w1 w2 : Str}
    (h : padTo (width df) w1 ≠ padTo (width df) w2) : Isolated prg df w1 w2 := by
  refine Runs.nonInterfering_of_view (AgreeOn prg df w2) AgreeOn.refl AgreeOn.symm AgreeOn.trans ?_ ?_ _
  · intro s op s' o hop hs
    obtain ⟨rfl, -⟩ := Runs.total_eq_some.1 hs
    exact step_frame h.symm hprg s (show op.keyword = w1 by simpa [on] using hop)
  · intro s t op s' t' o o' hop hR hs ht
    obtain ⟨rfl, rfl⟩ := Runs.total_eq_some.1 hs
    obtain ⟨rfl, rfl⟩ := Runs.total_eq_some.1 ht
    have hstep := hR.step (show op.keyword = w2 by simpa [on] using hop)
    exact ⟨hstep.1, hstep.2.symm⟩

/-! ## Keywords with the same prefix -/

/-- Some fill keeps a ciphertext from being the all-zero block. -/
theorem exists_fill (ind : Int32) (op : OP) (pad : PrfType) :
    ∃ fill, bitwiseXORInd ind op fill pad ≠ notfound := by
  obtain ⟨r, hr⟩ : ∃ r, pad.data[5]? = some r :=
    ⟨_, List.getElem?_eq_getElem (by rw [pad.size]; decide)⟩
  refine ⟨fun _ => if r = 0 then 1 else 0, fun h => ?_⟩
  have h5 := congrArg (fun b => b.data[5]?) h
  simp only [bitwiseXORInd, bitwiseXOR, List.getElem?_zipWith, hr, notfound] at h5
  by_cases h0 : r = 0
  · subst h0
    simp [plain, toBytes] at h5
  · simp [plain, toBytes, h0] at h5

theorem seed_congr {df : Bool} {k k' : PrfType} (h : k.data.take (width df) = k'.data.take (width df))
    (op : UInt8) (s f : Int32) : seed df k op s f = seed df k' op s f := by
  apply PrfType.ext_data
  rw [seed_data, seed_data, h]

/-- A keyword with one insert, at the address of its first counter. -/
theorem search_one {prg : PrfType → PrfType} {df : Bool} {st : State} {w : Str} {ind : Int32} {fill : Fill}
    (hcnt : st.fileCnt (keyBuf w) = some 1) (hsrc : (st.srcCnt (keyBuf w)).getD 0 = 0)
    (hdict : st.dictW (prg (seed df (keyBuf w) 0 0 1)) =
      bitwiseXORInd ind .INS fill (prg (seed df (keyBuf w) 1 0 1)))
    (hnz : bitwiseXORInd ind .INS fill (prg (seed df (keyBuf w) 1 0 1)) ≠ notfound) (fills : Nat → Fill) :
    (search prg df st w fills).2 = some [ind] := by
  have hreply : serverSearch st.dictW (addrLoop prg df 0 (keyBuf w) (counters 1)).2 =
      ([(⟨.INS, ind, fill⟩ : Entry)].zipIdx 1).map fun e =>
        cipher prg df (keyBuf w) 0 (Int32.ofNat e.2) e.1 := by
    rw [addrLoop_snd]
    show ([1].map _ |>.map st.dictW).filter _ = [cipher prg df (keyBuf w) 0 1 ⟨.INS, ind, fill⟩]
    simp only [List.map_cons, List.map_nil, hdict, cipher]
    rw [List.filter_cons_of_pos (by simpa using hnz), List.filter_nil]
  have hq : (query prg df st.dictW 0 (keyBuf w) 1).2.keysWhere (· < 0) = [ind] := by
    unfold query
    simp only
    rw [hreply]
    have hdec := decodeLoop_snd prg df 0 (seed_addrLoop prg df 0 (keyBuf w) (counters 1)) 1 SortedMap.empty
      [⟨.INS, ind, fill⟩]
    refine (congrArg (fun m => m.keysWhere (· < 0)) hdec).trans ?_
    simp [Tally.add, Entry.step, OP.delta, SortedMap.alter, SortedMap.insert, SortedMap.insertEntries, SortedMap.empty,
      SortedMap.keysWhere, SortedMap.get?, SortedMap.lookup]
  have h1 : ¬ ((1 : Int32) < 0 ∨ (1 : Int32) = Int32.maxValue) := by decide
  have hs : (if df then (st.srcCnt (keyBuf w)).getD 0 else 0) = 0 := by
    split
    · exact hsrc
    · rfl
  unfold search
  simp only [hcnt, if_neg h1, hs]
  exact congrArg some hq

/-- Keywords that share the bytes a seed keeps share their addresses: an insert under `w1`
overwrites the insert under `w2` with the same counter. -/
theorem not_isolated_of_prefix_eq {prg : PrfType → PrfType} {df : Bool} {w1 w2 : Str}
    (hbuf : keyBuf w1 ≠ keyBuf w2) (h : padTo (width df) w1 = padTo (width df) w2) :
    ¬ Isolated prg df w1 w2 := by
  intro hiso
  have hne : w1 ≠ w2 := fun e => hbuf (by rw [e])
  have hseed : ∀ op, seed df (keyBuf w1) op 0 1 = seed df (keyBuf w2) op 0 1 := fun op =>
    seed_congr (by rw [take_keyBuf, take_keyBuf, h]) op 0 1
  obtain ⟨f5, hf5⟩ := exists_fill 5 .INS (prg (seed df (keyBuf w2) 1 0 1))
  obtain ⟨f6, hf6⟩ := exists_fill 6 .INS (prg (seed df (keyBuf w2) 1 0 1))
  have hon1 : on w2 (.update .INS w1 6 f6) = false := by simp [on, Op.keyword, hne]
  have hon2 : on w2 (.update .INS w2 5 f5) = true := by simp [on, Op.keyword]
  have hon3 : on w2 (.search w2 0) = true := by simp [on, Op.keyword]
  have key := hiso [.update .INS w2 5 f5, .search w2 0]
    [.update .INS w2 5 f5, .update .INS w1 6 f6, .search w2 0]
    (by simp [on, Op.keyword]) (by simp [hon1, hon2, hon3]) _ _ _ _ rfl rfl
  simp only [Runs.outputsOf_cons, hon1, hon2, hon3, if_true, Bool.false_eq_true, if_false,
    List.map_cons, List.cons.injEq, true_and] at key
  set stA := update prg df init .INS w2 5 f5 with hstA
  have hinit : (if df then ((none : Option Int32)).getD 0 else 0) = 0 := by cases df <;> rfl
  have hA : (search prg df stA w2 0).2 = some [5] := by
    apply search_one _ _ _ hf5
    · simp [hstA, update_eq, init, nextFileCnt]
    · simp only [hstA, update_eq, init, hinit]
      cases df <;> simp
    · simp only [hstA, update_eq, init, hinit, nextFileCnt]
      simp
  have hB : (search prg df (update prg df stA .INS w1 6 f6) w2 0).2 = some [6] := by
    have hfile : stA.fileCnt (keyBuf w1) = none := by
      simp [hstA, update_eq, init, Function.update_of_ne hbuf]
    have hsrc : stA.srcCnt (keyBuf w1) = none := by
      simp only [hstA, update_eq, init]
      cases df <;> simp [Function.update_of_ne hbuf]
    apply search_one _ _ _ hf6
    · simp [update_eq, Function.update_of_ne hbuf.symm, hstA, init, nextFileCnt]
    · simp only [update_eq, hstA, init, hinit]
      cases df <;> simp [Function.update_of_ne hbuf.symm]
    · simp only [update_eq, hfile, hsrc, hinit, nextFileCnt, hseed]
      simp
  have h56 : (search prg df stA w2 0).2 = (search prg df (update prg df stA .INS w1 6 f6) w2 0).2 := key.1
  rw [hA, hB] at h56
  exact absurd h56 (by decide)

/-- **Isolation of keywords.**  Exactly the keywords that differ in the bytes a seed keeps are
isolated: the first 11 without cleaning, the first 7 with it. -/
theorem mitra_isolated_iff (prg : PrfType → PrfType) (hprg : Function.Injective prg) (deleteFiles : Bool)
    (w1 w2 : Str) (h1 : NulFree w1) (h2 : NulFree w2) (hl1 : w1.length ≤ 16) (hl2 : w2.length ≤ 16)
    (hne : w1 ≠ w2) :
    Isolated prg deleteFiles w1 w2 ↔ padTo (width deleteFiles) w1 ≠ padTo (width deleteFiles) w2 := by
  constructor
  · intro hiso h
    refine not_isolated_of_prefix_eq (fun e => hne ?_) h hiso
    exact padTo_injective h1 h2 hl1 hl2 (congrArg PrfType.data e)
  · exact isolated_of_prefix_ne hprg

theorem mitra_isolated_a_b :
    Isolated id true [97] [98] ↔ padTo (width true) [97] ≠ padTo (width true) [98] :=
  mitra_isolated_iff id Function.injective_id true [97] [98] (by decide) (by decide) (by decide) (by decide)
    (by decide)

/-- The keywords `aaaaaaaaaaab` and `aaaaaaaaaaac` of twelve bytes are isolated in neither mode. -/
theorem not_isolated_twelve_bytes :
    let w1 : Str := List.replicate 11 97 ++ [98]
    let w2 : Str := List.replicate 11 97 ++ [99]
    w1 ≠ w2 ∧ NulFree w1 ∧ NulFree w2 ∧ w1.length = 12 ∧ w2.length = 12 ∧
      ∀ deleteFiles, ¬ Isolated id deleteFiles w1 w2 :=
  ⟨by decide, by decide, by decide, rfl, rfl, fun deleteFiles => by
    cases deleteFiles
    · exact not_isolated_of_prefix_eq (by decide) (by decide)
    · exact not_isolated_of_prefix_eq (by decide) (by decide)⟩

end Sse.Mitra
