import Sse.Diana.Interface

/-!
# The ledger behind DianaInterface

What the two servers and `delCntMap` hold, told without tokens and masks: for every
internal key a table of the inserted inds and one of the deleted inds, both by counter,
and the counter of the last insert of each ind.  As long as the tokens and hash values
of the keys in use do not collide, every call of the interface does on its maps what the
ledger does on the tables of one key, and gives the same answer (`step_matches`).
-/

namespace Sse.Diana

/-! ## Tables -/

/-- What one client counts and its server stores for one key. -/
structure Table (T : Type*) where
  cnt : Option UInt32
  slot : UInt32 → Option T

namespace Table

variable {T : Type*}

def empty : Table T := ⟨none, fun _ => none⟩

def push (usehdd : Bool) (t : Table T) (x : T) : Table T :=
  let c := nextCnt t.cnt
  ⟨some c, if usehdd = true ∨ t.slot c = none then Function.update t.slot c (some x) else t.slot⟩

/-- The entries at the given counters. -/
def read (t : Table T) (is : List Nat) : List T := is.filterMap fun i => t.slot (UInt32.ofNat i)

/-- The entries a search finds when it leaves out the counters `dels`; `none` where the list
of nodes cannot be built, or is empty. -/
def allBut (t : Table T) (dels : List UInt32) : Option (List T) :=
  match t.cnt with
  | none => some []
  | some c =>
    let n := (c + 1).toNat
    if dels.length = 0 then if n = 0 then none else some (t.read (List.range n))
    else match kept n (dels.map UInt32.toNat) kTreeDepth with
      | none | some [] => none
      | some l => some (t.read l)

end Table

/-- A client and its server hold the tables `tab k` of the keys in `K`; an entry `u` of key `k`
is stored as the payload `f k u`. -/
structure Stores {B T U : Type*} [XorOp T] (P : Prims B T) (K : Str → Prop) (f : Str → U → T)
    (ramCounter : Str → Option UInt32) (edb : B → Option T) (tab : Str → Table U) : Prop where
  ram : ∀ k, ramCounter k = (tab k).cnt
  edb : ∀ k i, K k → i < 2 ^ 32 → edb (token P k i) =
    ((tab k).slot (UInt32.ofNat i)).map fun u => f k u ^^^ P.mask (leaf P k i)

section

variable {B T U : Type*} [XorOp T] {P : Prims B T} {K : Str → Prop} {f : Str → U → T}
  {ramCounter : Str → Option UInt32} {edb : B → Option T} {tab : Str → Table U}

theorem Stores.update [DecidableEq B] (h : Stores P K f ramCounter edb tab)
    (hinj : ∀ k k' i i', K k → K k' → i < 2 ^ 32 → i' < 2 ^ 32 → token P k i = token P k' i' → k = k' ∧ i = i')
    {k : Str} (hk : K k) (u : U) (usehdd : Bool) :
    Stores P K f (updateRequest P ramCounter k (f k u)).1
      (serverUpdate usehdd edb (updateRequest P ramCounter k (f k u)).2.1)
      (Function.update tab k ((tab k).push usehdd u)) := by
  set c := nextCnt (tab k).cnt with hc
  have hcnt : nextCnt (ramCounter k) = c := by rw [h.ram, hc]
  have hclt : c.toNat < 2 ^ 32 := c.toNat_lt
  have hget := h.edb k c.toNat hk hclt
  rw [UInt32.ofNat_toNat] at hget
  have hstore : serverUpdate usehdd edb (updateRequest P ramCounter k (f k u)).2.1 =
      if usehdd = true ∨ (tab k).slot c = none then
        Function.update edb (token P k c.toNat) (some (f k u ^^^ P.mask (leaf P k c.toNat)))
      else edb := by
    have hreq : (updateRequest P ramCounter k (f k u)).2.1 = (token P k c.toNat, f k u ^^^ P.mask (leaf P k c.toNat)) := by
      simp only [updateRequest, hcnt]
      rfl
    rw [serverUpdate_eq, hreq]
    simp only [hget, Option.map_eq_none_iff]
  refine ⟨fun k' => ?_, fun k' i hk' hi => ?_⟩
  · simp only [updateRequest, hcnt, Function.update_apply]
    split
    · simp [Table.push, ← hc]
    · exact h.ram k'
  · rw [hstore]
    by_cases hkk : k' = k
    · subst hkk
      simp only [Function.update_self, Table.push, ← hc]
      split
      · by_cases hic : i = c.toNat
        · rw [hic]
          simp
        · have hne : token P k' i ≠ token P k' c.toNat := fun e => hic (hinj k' k' i _ hk' hk hi hclt e).2
          have hne' : UInt32.ofNat i ≠ c := by
            intro e
            apply hic
            rw [← e, UInt32.toNat_ofNat', Nat.mod_eq_of_lt hi]
          rw [Function.update_of_ne hne, Function.update_of_ne hne']
          exact h.edb k' i hk' hi
      · exact h.edb k' i hk' hi
    · have hne : token P k' i ≠ token P k c.toNat := fun e => hkk (hinj k' k i _ hk' hk hi hclt e).1
      rw [Function.update_of_ne hkk]
      split
      · rw [Function.update_of_ne hne]
        exact h.edb k' i hk' hi
      · exact h.edb k' i hk' hi

/-- The lookups at leaves of a key read its table. -/
theorem Stores.found_leaves [LawfulXor T] (h : Stores P K f ramCounter edb tab) {k : Str} (hk : K k) {is : List Nat}
    (his : ∀ i ∈ is, i < 2 ^ 32) :
    (is.map (leaf P k)).filterMap (found P edb) = ((tab k).read is).map (f k) := by
  rw [List.filterMap_map, Table.read, List.map_filterMap]
  apply List.filterMap_congr
  intro i hi
  show (edb (token P k i)).map (· ^^^ P.mask (leaf P k i)) = _
  rw [h.edb k i hk (his i hi)]
  cases (tab k).slot (UInt32.ofNat i) with
  | none => rfl
  | some u => simp [LawfulXor.xor_cancel]

omit [XorOp T] in
theorem leaves_eq_nil {derive : B → Bool → B} {derive32 : B → B × B} (hs : Splits derive derive32)
    {l : List (B × Nat)} : leaves derive32 l = [] ↔ l = [] := by
  cases l with
  | nil => exact ⟨fun _ => rfl, fun _ => rfl⟩
  | cons e l =>
    have hpos : 0 < 2 ^ e.2 := Nat.two_pow_pos e.2
    have hlen : (deriveAllLeaves derive32 e.1 e.2).length = 2 ^ e.2 := by simp [deriveAllLeaves_eq hs]
    have : leaves derive32 (e :: l) ≠ [] := by
      intro h
      have := congrArg List.length h
      rw [leaves, List.flatMap_cons, List.length_append, hlen, List.length_nil] at this
      omega
    simp [this]

/-- A request whose nodes have the leaves of the counters `is`. -/
theorem Stores.searchSimpleParallel [DecidableEq B] [LawfulXor T] (h : Stores P K f ramCounter edb tab)
    (hs : Splits P.derive P.derive32) {k : Str} (hk : K k) {is : List Nat} {req : SearchRequest B}
    (hl : leaves P.derive32 req.token_list = is.map (leaf P k)) (his : ∀ i ∈ is, i < 2 ^ 32)
    (hn : req.add_count ≠ 0) (hle : is.length ≤ req.add_count.toNat) :
    searchSimpleParallel P edb req = if is = [] then none else some (((tab k).read is).map (f k)) := by
  unfold Diana.searchSimpleParallel
  have hpos : 1 ≤ req.add_count.toNat := by
    by_contra hlt
    exact hn (UInt32.toNat_inj.1 (by rw [UInt32.toNat_zero]; omega))
  rw [if_neg hn]
  cases hts : req.token_list with
  | nil =>
    have hnil : is = [] := by
      rw [hts] at hl
      exact List.map_eq_nil_iff.1 hl.symm
    rw [if_pos hnil]
  | cons e ts =>
    have hne : is ≠ [] := by
      rintro rfl
      rw [hts] at hl
      cases (leaves_eq_nil hs).1 hl
    rw [if_neg hne]
    simp only
    rw [← hts, jobKeys_eq hs (by rw [hl, List.length_map]; exact hle), Option.map_some, searchKeys_keep,
      hl, h.found_leaves hk his]

/-- **A search reads the table of its key.** -/
theorem Stores.search [DecidableEq B] [LawfulXor T] (h : Stores P K f ramCounter edb tab)
    (hs : Splits P.derive P.derive32) {k : Str} (hk : K k) (dels : List UInt32) :
    (searchRequestDel P ramCounter k dels).bind (Diana.searchSimpleParallel P edb) =
      ((tab k).allBut dels).map fun l => l.map (f k) := by
  unfold searchRequestDel Table.allBut
  rw [h.ram]
  cases (tab k).cnt with
  | none => rfl
  | some c =>
    simp only
    have hlt : (c + 1).toNat < 2 ^ 32 := (c + 1).toNat_lt
    have hcap : (c + 1).toNat ≤ 2 ^ kTreeDepth := le_of_lt (lt_trans hlt (by decide))
    have hzero : c + 1 = 0 ↔ (c + 1).toNat = 0 := by rw [← UInt32.toNat_inj, UInt32.toNat_zero]
    by_cases hd : dels.length = 0
    · rw [if_pos hd, if_pos hd]
      by_cases hn : (c + 1).toNat = 0
      · rw [if_pos hn, hn, coveringList_zero]
        rfl
      · obtain ⟨l, hl⟩ : ∃ l, coveringList P.derive (root P k) (c + 1).toNat kTreeDepth = some l :=
          coveringList_isSome (by omega) hcap (root P k)
        rw [if_neg hn, hl, Option.map_some, Option.bind_some]
        rw [h.searchSimpleParallel hs hk (leaves_coveringList hs hcap hl)
          (fun i hi => lt_trans (List.mem_range.1 hi) hlt) (fun e => hn (hzero.1 e)) (by simp)]
        rw [if_neg (by simpa using hn)]
        rfl
    · rw [if_neg hd, if_neg hd]
      have hdne : dels.map UInt32.toNat ≠ [] := by
        intro e
        exact hd (by simpa using e)
      have hcov := leaves_coveringListDel hs (n := (c + 1).toNat) (d := kTreeDepth) hdne (root P k)
      cases hkept : kept (c + 1).toNat (dels.map UInt32.toNat) kTreeDepth with
      | none =>
        rw [hkept, Option.map_none, Option.map_eq_none_iff] at hcov
        rw [hcov]
        rfl
      | some is =>
        rw [hkept, Option.map_some, Option.map_eq_some_iff] at hcov
        obtain ⟨l, hl, hleaves⟩ := hcov
        have hperm := kept_perm hdne hkept
        have hn : (c + 1).toNat ≠ 0 := by
          intro e
          rw [e, kept_zero] at hkept
          cases hkept
        have hlen : is.length ≤ (c + 1).toNat := by
          rw [hperm.length_eq]
          exact le_trans (List.length_filter_le _ _) (by simp)
        rw [hl, Option.map_some, Option.bind_some, h.searchSimpleParallel hs hk hleaves
          (fun i hi => lt_trans (mem_kept_lt hdne hkept hi) hlt) (fun e => hn (hzero.1 e)) hlen]
        cases is with
        | nil => rfl
        | cons i is => simp

end

/-! ## The ledger -/

structure Ledger where
  keywordsToken : Str → Option Str
  keywordsCounter : Str → Option Int32
  ins : Str → Table UInt64
  del : Str → Table UInt64
  /-- The counter of the last insert of an ind under a key. -/
  cnts : Str → UInt64 → Option UInt32

namespace Ledger

def init : Ledger := ⟨fun _ => none, fun _ => none, fun _ => .empty, fun _ => .empty, fun _ _ => none⟩

def updateKey (led : Ledger) (keyword : Str) : Ledger × Str :=
  match led.keywordsToken keyword with
  | some key => (led, key)
  | none =>
    let key := keyword ++ toStr 1
    ({ led with
      keywordsCounter := Function.update led.keywordsCounter keyword (some 1)
      keywordsToken := Function.update led.keywordsToken keyword (some key) }, key)

def touchKey (led : Ledger) (keyword : Str) : Ledger × Str :=
  let key := (led.keywordsToken keyword).getD []
  ({ led with keywordsToken := Function.update led.keywordsToken keyword (some key) }, key)

def rekey (led : Ledger) (keyword : Str) : Ledger :=
  let counter := (led.keywordsCounter keyword).getD 0 + 1
  { led with
    keywordsCounter := Function.update led.keywordsCounter keyword (some counter)
    keywordsToken := Function.update led.keywordsToken keyword (some (keyword ++ toStr counter.toInt)) }

section

variable {B : Type} (S : Setting B)

/-- An insert under a key. -/
def insertAt (led : Ledger) (key : Str) (ind : UInt64) : Ledger :=
  { led with
    ins := Function.update led.ins key ((led.ins key).push S.usehdd ind)
    cnts := Function.update led.cnts key
      (Function.update (led.cnts key) ind (some (nextCnt (led.ins key).cnt))) }

def insert (led : Ledger) (keyword : Str) (ind : UInt64) : Ledger :=
  let (led1, key) := led.updateKey keyword
  insertAt S led1 key ind

def delete (led : Ledger) (keyword : Str) (ind : UInt64) : Ledger :=
  let (led1, key) := led.updateKey keyword
  { led1 with del := Function.update led1.del key ((led1.del key).push S.usehdd ind) }

/-- What `delCntMap` holds for a counter. -/
def cntCode (c : Option UInt32) : B :=
  match c with
  | some c => S.encode (natStr c.toNat)
  | none => S.zero

/-- The inds of a key that a search returns. -/
def visible (ins del : Table UInt64) (cnts : UInt64 → Option UInt32) : Option (List UInt64) := do
  let resDel ← del.allBut []
  let delCnts ← resDel.mapM fun ind => parseCnt S (cntCode S (cnts ind))
  ins.allBut delCnts

def search (led : Ledger) (keyword : Str) : Option (Ledger × List UInt64) := do
  let (led1, key) := led.touchKey keyword
  let resIns ← visible S (led1.ins key) (led1.del key) (led1.cnts key)
  if S.deleteResults then
    return (resIns.foldl (fun led item => insert S led keyword item) (rekey led1 keyword), resIns)
  else return (led1, resIns)

def step (led : Ledger) : Op → Option (Ledger × List UInt64)
  | .insert w ind => some (insert S led w ind, [])
  | .delete w ind => some (delete S led w ind, [])
  | .search w => search S led w

theorem rekey_touchKey (led : Ledger) (w : Str) : (led.touchKey w).1.rekey w = led.rekey w := by
  simp [touchKey, rekey]

/-- A cleaning search moves what it found to the next key. -/
theorem search_cleaning {S : Setting B} (hdr : S.deleteResults = true) (led : Ledger) (w : Str) :
    led.search S w = (visible S (led.ins (led.touchKey w).2) (led.del (led.touchKey w).2)
      (led.cnts (led.touchKey w).2)).map
        fun l => (l.foldl (fun led item => led.insert S w item) (led.rekey w), l) := by
  unfold search
  simp only [hdr, if_true, rekey_touchKey]
  show (visible S (led.ins (led.touchKey w).2) (led.del (led.touchKey w).2)
    (led.cnts (led.touchKey w).2)).bind _ = _
  cases visible S (led.ins (led.touchKey w).2) (led.del (led.touchKey w).2) (led.cnts (led.touchKey w).2) <;> rfl

/-- A search that is not followed by cleaning. -/
theorem search_keeping {S : Setting B} (hdr : S.deleteResults = false) (led : Ledger) (w : Str) :
    led.search S w = (visible S (led.ins (led.touchKey w).2) (led.del (led.touchKey w).2)
      (led.cnts (led.touchKey w).2)).map fun l => ((led.touchKey w).1, l) := by
  unfold search
  simp only [hdr, Bool.false_eq_true, if_false]
  show (visible S (led.ins (led.touchKey w).2) (led.del (led.touchKey w).2)
    (led.cnts (led.touchKey w).2)).bind (fun l => some ((led.touchKey w).1, l)) = _
  cases visible S (led.ins (led.touchKey w).2) (led.del (led.touchKey w).2) (led.cnts (led.touchKey w).2) <;> rfl

end

end Ledger

/-! ## Refinement -/

structure Rel {B : Type} [XorOp B] (S : Setting B) (K : Str → Prop) (st : State B) (led : Ledger) : Prop where
  keywordsToken : st.keywordsToken = led.keywordsToken
  keywordsCounter : st.keywordsCounter = led.keywordsCounter
  known : ∀ w key, led.keywordsToken w = some key → K key
  ins : Stores S.ins K (fun _ ind => ind) st.ramIns st.edbIns led.ins
  del : Stores S.del K (delCntKey S) st.ramDel st.edbDel led.del
  cnts : ∀ k ind, K k → st.delCntMap (delCntKey S k ind) = Ledger.cntCode S (led.cnts k ind)

section

variable {B : Type} [XorOp B] {S : Setting B} {W : Str → Prop}

theorem rel_init (K : Str → Prop) : Rel S K (init S) Ledger.init where
  keywordsToken := rfl
  keywordsCounter := rfl
  known := fun _ _ h => by cases h
  ins := ⟨fun _ => rfl, fun _ _ _ _ => rfl⟩
  del := ⟨fun _ => rfl, fun _ _ _ _ => rfl⟩
  cnts := fun _ _ _ => rfl

variable {st : State B} {led : Ledger}

theorem Rel.updateKey (h : Rel S (keysOf W) st led) {w : Str} (hw : W w) :
    Rel S (keysOf W) (updateKey st w).1 (led.updateKey w).1 ∧ (updateKey st w).2 = (led.updateKey w).2 ∧
      keysOf W (led.updateKey w).2 := by
  unfold Diana.updateKey Ledger.updateKey
  rw [h.keywordsToken]
  cases ht : led.keywordsToken w with
  | some key => exact ⟨h, rfl, h.known w key ht⟩
  | none =>
    have hkey : keysOf W (w ++ toStr 1) := Or.inr ⟨w, hw, 1, rfl⟩
    refine ⟨⟨rfl, ?_, ?_, h.ins, h.del, h.cnts⟩, rfl, hkey⟩
    · simp only [h.keywordsCounter]
    · intro w' key hk
      simp only [Function.update_apply] at hk
      split at hk
      · rw [← Option.some.inj hk]
        exact hkey
      · exact h.known w' key hk

theorem Rel.rekey (h : Rel S (keysOf W) st led) {w : Str} (hw : W w) :
    Rel S (keysOf W) (rekey st w) (led.rekey w) := by
  refine ⟨?_, ?_, ?_, h.ins, h.del, h.cnts⟩
  · simp only [Diana.rekey, Ledger.rekey, h.keywordsToken, h.keywordsCounter]
  · simp only [Diana.rekey, Ledger.rekey, h.keywordsCounter]
  · intro w' key hk
    simp only [Ledger.rekey, Function.update_apply] at hk
    split at hk
    · rw [← Option.some.inj hk]
      exact Or.inr ⟨w, hw, _, rfl⟩
    · exact h.known w' key hk

theorem Rel.touchKey (h : Rel S (keysOf W) st led) (w : Str) :
    Rel S (keysOf W) (touchKey st w).1 (led.touchKey w).1 ∧ (touchKey st w).2 = (led.touchKey w).2 ∧
      keysOf W (led.touchKey w).2 := by
  have hkey : keysOf W ((led.keywordsToken w).getD []) := by
    cases ht : led.keywordsToken w with
    | some key => exact h.known w key ht
    | none => exact Or.inl rfl
  unfold Diana.touchKey Ledger.touchKey
  refine ⟨⟨?_, h.keywordsCounter, ?_, h.ins, h.del, h.cnts⟩, by rw [h.keywordsToken], hkey⟩
  · simp only [h.keywordsToken]
  · intro w' key hk
    simp only [Function.update_apply] at hk
    split at hk
    · rw [← Option.some.inj hk]
      exact hkey
    · exact h.known w' key hk

variable [DecidableEq B]

theorem Rel.insert (h : Rel S (keysOf W) st led) (hcf : CollisionFree S (keysOf W)) {w : Str} (hw : W w)
    (ind : UInt64) : Rel S (keysOf W) (insertKeyword S st w ind) (led.insert S w ind) := by
  obtain ⟨h1, hkey, hK⟩ := h.updateKey hw
  unfold insertKeyword Ledger.insert
  simp only [hkey]
  set st1 := (Diana.updateKey st w).1
  set led1 := (led.updateKey w).1
  set key := (led.updateKey w).2
  refine ⟨h1.keywordsToken, h1.keywordsCounter, h1.known, h1.ins.update hcf.ins hK ind S.usehdd, h1.del, ?_⟩
  intro k' ind' hk'
  simp only [Ledger.insertAt, Function.update_apply]
  by_cases he : delCntKey S k' ind' = delCntKey S key ind
  · obtain ⟨rfl, rfl⟩ := hcf.delCntKey_inj hk' hK he
    simp [Ledger.cntCode, updateRequest, h1.ins.ram]
  · rw [if_neg he, h1.cnts k' ind' hk']
    by_cases hkk : k' = key
    · have hii : ind' ≠ ind := fun e => he (by rw [hkk, e])
      simp [hkk, hii]
    · simp [hkk]

theorem Rel.delete (h : Rel S (keysOf W) st led) (hcf : CollisionFree S (keysOf W)) {w : Str} (hw : W w)
    (ind : UInt64) : Rel S (keysOf W) (deleteKeyword S st w ind) (led.delete S w ind) := by
  obtain ⟨h1, hkey, hK⟩ := h.updateKey hw
  unfold deleteKeyword Ledger.delete
  simp only [hkey]
  exact ⟨h1.keywordsToken, h1.keywordsCounter, h1.known, h1.ins, h1.del.update hcf.del hK ind S.usehdd, h1.cnts⟩

theorem Rel.insert_foldl (h : Rel S (keysOf W) st led) (hcf : CollisionFree S (keysOf W)) {w : Str} (hw : W w)
    (l : List UInt64) :
    Rel S (keysOf W) (l.foldl (fun st item => insertKeyword S st w item) st)
      (l.foldl (fun led item => led.insert S w item) led) := by
  induction l generalizing st led with
  | nil => exact h
  | cons ind l ih => exact ih (h.insert hcf hw ind)

theorem mapM_map_congr {α β γ : Type} {g : β → Option γ} {g' : α → Option γ} {f : α → β} {l : List α}
    (h : ∀ a, g (f a) = g' a) : (l.map f).mapM g = l.mapM g' := by
  induction l with
  | nil => rfl
  | cons a l ih => simp [List.mapM_cons, h, ih]

/-- The inds a search finds. -/
theorem Rel.queryKey [LawfulXor B] (h : Rel S (keysOf W) st led) (hs : Splits S.ins.derive S.ins.derive32)
    (hs' : Splits S.del.derive S.del.derive32) {key : Str} (hK : keysOf W key) :
    queryKey S st key = Ledger.visible S (led.ins key) (led.del key) (led.cnts key) := by
  have hreq : searchRequest S.del st.ramDel key = searchRequestDel S.del st.ramDel key [] := by
    unfold searchRequest searchRequestDel
    cases st.ramDel key <;> rfl
  have hdel := h.del.search hs' hK []
  have hins : ∀ delCnts, (searchRequestDel S.ins st.ramIns key delCnts).bind (searchSimpleParallel S.ins st.edbIns) =
      (led.ins key).allBut delCnts := by
    intro delCnts
    rw [h.ins.search hs hK delCnts]
    cases (led.ins key).allBut delCnts <;> simp
  have hcnt : ∀ l : List UInt64, (l.map (delCntKey S key)).mapM (fun item => parseCnt S (st.delCntMap item)) =
      l.mapM fun ind => parseCnt S (Ledger.cntCode S (led.cnts key ind)) := fun l =>
    mapM_map_congr fun ind => by rw [h.cnts key ind hK]
  unfold Diana.queryKey Ledger.visible
  simp only [Option.bind_eq_bind, hreq]
  rw [← Option.bind_assoc, hdel]
  cases (led.del key).allBut [] with
  | none => rfl
  | some l =>
    simp only [Option.map_some, Option.bind_some]
    rw [hcnt]
    congr 1
    funext delCnts
    exact hins delCnts

theorem Rel.search [LawfulXor B] (h : Rel S (keysOf W) st led) (hcf : CollisionFree S (keysOf W))
    (hs : Splits S.ins.derive S.ins.derive32) (hs' : Splits S.del.derive S.del.derive32) {w : Str} (hw : W w) :
    Runs.Matches (Rel S (keysOf W)) (searchKeyword S st w) (led.search S w) := by
  obtain ⟨h1, hkey, hK⟩ := h.touchKey w
  unfold searchKeyword Ledger.search
  simp only [hkey, h1.queryKey hs hs' hK]
  set led1 := (led.touchKey w).1
  cases Ledger.visible S (led1.ins (led.touchKey w).2) (led1.del (led.touchKey w).2)
      (led1.cnts (led.touchKey w).2) with
  | none => trivial
  | some resIns =>
    simp only [Option.bind_eq_bind, Option.bind_some]
    split
    · exact ⟨(h1.rekey hw).insert_foldl hcf hw resIns, rfl⟩
    · exact ⟨h1, rfl⟩

/-- **The interface refines the ledger.** -/
theorem step_matches [LawfulXor B] (hcf : CollisionFree S (keysOf W)) (hs : Splits S.ins.derive S.ins.derive32)
    (hs' : Splits S.del.derive S.del.derive32) (op : Op) (hw : W op.keyword) (h : Rel S (keysOf W) st led) :
    Runs.Matches (Rel S (keysOf W)) (step S st op) (led.step S op) := by
  cases op with
  | insert w ind => exact ⟨h.insert hcf hw ind, rfl⟩
  | delete w ind => exact ⟨h.delete hcf hw ind, rfl⟩
  | search w => exact h.search hcf hs hs' hw

end

end Sse.Diana
