import Mathlib.Algebra.Field.ZMod
import Sse.Janus.Client
import Sse.Janus.Ppke

/-!
# The indices of the punctures

`deletion_request` takes the index of a puncture from `get_match_count`, which reads the
counter of the last deletion.  This counter starts at 0, so it is one less than the number
of deletions before, except before the first:

    deletion   1   2   3   ..   d          search
    index      1   1   2   ..   d - 1      d

The values `l_i` cancel for the indices `1, .., d`, so the key that a search puts together
decrypts only after at most one deletion                             (puncture_indices_iff)
-/

namespace Sse.Janus

/-- A call of the client. -/
inductive Request (R : Type) where
  | insert (keyword : Str) (index : UInt64) (s : R)
  | delete (keyword : Str) (index : UInt64)
  | search (keyword : Str)
deriving DecidableEq

/-- What a request passes to the puncturable encryption. -/
inductive Passed (B R : Type) where
  | encrypt (keyword : Str) (e : Encryption B R)
  | incPuncture (keyword : Str) (p : Puncture B)
  | initialKeyshare (keyword : Str) (key : B) (d : Nat)

section

variable {B CT SK R : Type} [XorOp CT] [XorOp SK] [DecidableEq B] (P : Prims B CT SK R)

/-- One request of the client. -/
def requestStep (c : Client) : Request R → Option (Client × Passed B R)
  | .insert keyword index s =>
    (insertionRequest P c keyword index s).map fun r => (r.1, .encrypt keyword (insertionEncryption P c keyword index s))
  | .delete keyword index =>
    (deletionRequest P c keyword index).map fun r => (r.1, .incPuncture keyword (deletionPuncture P c keyword index))
  | .search keyword =>
    (searchRequest P c keyword).map fun r =>
      (r.1, .initialKeyshare keyword (P.punctEnc (c.metaKw keyword)) r.2.deletion_search_request.add_count.toNat)

end

/-- The punctures among the calls for a keyword. -/
def puncturesOf {B R : Type} (w : Str) (os : List (Passed B R)) : List (Puncture B) :=
  os.filterMap fun
    | .incPuncture keyword p => if keyword = w then some p else none
    | _ => none

/-- The encryptions among the calls for a keyword. -/
def encryptionsOf {B R : Type} (w : Str) (os : List (Passed B R)) : List (Encryption B R) :=
  os.filterMap fun
    | .encrypt keyword e => if keyword = w then some e else none
    | _ => none

/-- The number of deletions of a keyword. -/
def deletions {R : Type} (w : Str) (is : List (Request R)) : Nat :=
  is.countP fun
    | .delete keyword _ => decide (keyword = w)
    | _ => false

/-- The shares that the calls of an epoch generate. -/
def shares {F B : Type} [Field F] (S : Scheme F B) (params : B → Params F) (key : B) (d : Nat) (ps : List (Puncture B)) :
    List (KeyShare F B) :=
  sk0Gen S (params key) d :: ps.map fun p => skShareGen S (params p.key) p.d p.tag

/-- Every ciphertext of the epoch whose tag was not deleted decrypts, in any group and under any keys. -/
def Decryptable {B R : Type} [DecidableEq B] (NULLTAG : B) (ps : List (Puncture B)) (key : B) (d : Nat)
    (es : List (Encryption B R)) : Prop :=
  ∀ (F : Type) [Field F] [DecidableEq F] (S : Scheme F B) (params : B → Params F), S.NULLTAG = NULLTAG →
    Function.Injective S.hashListToZR → ∀ e ∈ es, e.tag ∉ ps.map Puncture.tag → ∀ (s : F) (ct : Ciphertext F B),
      encrypt S (params e.key) s e.m e.tag = some ct → decrypt S (shares S params key d ps) ct = some e.m

/-- The calls of an epoch telescope: deletion number `i` is puncture number `i`, the search passes their number,
and the ciphertexts stay decryptable. -/
structure Telescopes {B R : Type} [DecidableEq B] (NULLTAG : B) (ps : List (Puncture B)) (key : B) (d : Nat)
    (es : List (Encryption B R)) : Prop where
  indices : ps.map Puncture.d = (List.range ps.length).map (· + 1)
  initial : d = ps.length
  decryptable : Decryptable NULLTAG ps key d es

/-! ## The counter of the deletions -/

/-- The index that the deletion after `n` others passes. -/
def passedIndex (n : Nat) : UInt32 := UInt32.ofNat (max 1 n)

theorem getMatchCount_add_one {ramCounter : Str → Option UInt32} {k : Str} {n : Nat} (h : ramCounter k = counterAfter n) :
    getMatchCount ramCounter k + 1 = passedIndex n := by
  unfold getMatchCount passedIndex
  rw [h]
  unfold counterAfter
  by_cases hn : n = 0
  · rw [hn]
    rfl
  · rw [if_neg hn, Option.getD_some, show max 1 n = n by omega]
    show UInt32.ofNat (n - 1) + UInt32.ofNat 1 = _
    rw [← UInt32.ofNat_add, Nat.sub_add_cancel (by omega)]

section

variable {B CT SK R : Type} [XorOp CT] [XorOp SK] [DecidableEq B] {P : Prims B CT SK R} {c c' : Client}
  {o : Passed B R}

theorem requestStep_insert {keyword : Str} {index : UInt64} {s : R}
    (h : requestStep P c (.insert keyword index s) = some (c', o)) :
    (∃ ramCounter, c' = { c with insertion := ramCounter }) ∧
      o = .encrypt keyword (insertionEncryption P c keyword index s) := by
  obtain ⟨r, hr, e⟩ := Option.map_eq_some_iff.1 h
  obtain ⟨rfl, rfl⟩ := Prod.mk.inj e
  unfold insertionRequest at hr
  simp only at hr
  split_ifs at hr
  exact ⟨⟨_, by rw [← Option.some.inj hr]⟩, rfl⟩

theorem requestStep_delete {keyword : Str} {index : UInt64} (h : requestStep P c (.delete keyword index) = some (c', o)) :
    c' = { c with deletion :=
      Function.update c.deletion (c.metaKw keyword) (some (nextCnt (c.deletion (c.metaKw keyword)))) } ∧
      o = .incPuncture keyword (deletionPuncture P c keyword index) := by
  obtain ⟨r, hr, e⟩ := Option.map_eq_some_iff.1 h
  obtain ⟨rfl, rfl⟩ := Prod.mk.inj e
  unfold deletionRequest at hr
  simp only at hr
  split_ifs at hr
  exact ⟨by rw [← Option.some.inj hr]; rfl, rfl⟩

theorem requestStep_search {keyword : Str} (h : requestStep P c (.search keyword) = some (c', o)) :
    ∃ insReq delReq, Diana.searchRequest P.ins c.insertion (c.metaKw keyword) = some insReq ∧
      Diana.searchRequest P.del c.deletion (c.metaKw keyword) = some delReq ∧
      c' = c.endEpoch keyword insReq.add_count delReq.add_count ∧
      o = .initialKeyshare keyword (P.punctEnc (c.metaKw keyword)) delReq.add_count.toNat := by
  obtain ⟨r, hr, e⟩ := Option.map_eq_some_iff.1 h
  obtain ⟨rfl, rfl⟩ := Prod.mk.inj e
  unfold searchRequest at hr
  simp only [Option.bind_eq_bind, Option.bind_eq_some_iff, Option.some.injEq] at hr
  obtain ⟨insReq, h1, delReq, h2, rfl⟩ := hr
  exact ⟨insReq, delReq, h1, h2, rfl, rfl⟩

omit [XorOp CT] [XorOp SK] [DecidableEq B] in
theorem metaKw_ne (c : Client) {w k : Str} {n : UInt32} (h : w ≠ k) : metaKeyword w n ≠ c.metaKw k :=
  fun e => h (metaKeyword_inj e).1

/-! ## One epoch -/

/-- A request that does not search `w` keeps the meta keyword of `w`, and counts a deletion of `w`. -/
theorem requestStep_within {i : Request R} {w : Str} (h : requestStep P c i = some (c', o)) (hi : i ≠ .search w)
    {n : Nat} (hn : c.deletion (c.metaKw w) = counterAfter n) :
    c'.searchCounter w = c.searchCounter w ∧
      c'.deletion (c.metaKw w) = counterAfter (n + (puncturesOf w [o]).length) ∧
      (∀ p ∈ puncturesOf w [o], p.key = P.punctEnc (c.metaKw w) ∧ p.d = (passedIndex n).toNat) ∧
      (∀ e ∈ encryptionsOf w [o], e.key = P.punctEnc (c.metaKw w)) ∧
      (puncturesOf w [o]).length = deletions w [i] := by
  cases i with
  | insert keyword index s =>
    obtain ⟨⟨ramCounter, rfl⟩, rfl⟩ := requestStep_insert h
    refine ⟨rfl, hn, by simp [puncturesOf], fun e he => ?_, rfl⟩
    by_cases hw : keyword = w
    · subst hw
      obtain rfl : e = insertionEncryption P c keyword index s := by simpa [encryptionsOf] using he
      rfl
    · simp [encryptionsOf, hw] at he
  | delete keyword index =>
    obtain ⟨rfl, rfl⟩ := requestStep_delete h
    by_cases hw : keyword = w
    · subst hw
      have hone : puncturesOf keyword [Passed.incPuncture (R := R) keyword (deletionPuncture P c keyword index)] =
          [deletionPuncture P c keyword index] := by
        simp [puncturesOf]
      refine ⟨rfl, ?_, fun p hp => ?_, by simp [encryptionsOf], by rw [hone]; simp [deletions]⟩
      · rw [hone, List.length_singleton, ← nextCnt_counterAfter, ← hn]
        dsimp only
        rw [Function.update_self]
      · rw [hone] at hp
        obtain rfl := List.mem_singleton.1 hp
        refine ⟨rfl, ?_⟩
        show (getMatchCount c.deletion (c.metaKw keyword) + 1).toNat = _
        rw [getMatchCount_add_one hn]
    · refine ⟨rfl, ?_, by simp [puncturesOf, hw], by simp [encryptionsOf], by simp [puncturesOf, deletions, hw]⟩
      have hne : c.metaKw w ≠ c.metaKw keyword := metaKw_ne c (Ne.symm hw)
      dsimp only
      rw [Function.update_of_ne hne, hn]
      simp [puncturesOf, hw]
  | search keyword =>
    have hw : keyword ≠ w := fun e => hi (e ▸ rfl)
    obtain ⟨insReq, delReq, hins, hdel, rfl, rfl⟩ := requestStep_search h
    refine ⟨endEpoch_searchCounter_of_ne c (Ne.symm hw) _ _, ?_, by simp [puncturesOf], by simp [encryptionsOf], rfl⟩
    have hne : c.metaKw w ≠ c.metaKw keyword := metaKw_ne c (Ne.symm hw)
    rw [(endEpoch_counters hins hdel).2, Function.update_of_ne hne, hn]
    simp [puncturesOf]

/-- What has happened to the meta keyword of `w` since the last search of `w`, which left the client `c`. -/
structure Within (P : Prims B CT SK R) (w : Str) (c : Client) (is : List (Request R)) (c' : Client)
    (os : List (Passed B R)) : Prop where
  counter : c'.searchCounter w = c.searchCounter w
  deletion : c'.deletion (c.metaKw w) = counterAfter (deletions w is)
  indices : (puncturesOf w os).map Puncture.d = (List.range (deletions w is)).map fun n => (passedIndex n).toNat
  keys : ∀ p ∈ puncturesOf w os, p.key = P.punctEnc (c.metaKw w)
  encKeys : ∀ e ∈ encryptionsOf w os, e.key = P.punctEnc (c.metaKw w)

omit [XorOp CT] [XorOp SK] [DecidableEq B] in
theorem Within.length {w : Str} {is : List (Request R)} {os : List (Passed B R)} (h : Within P w c is c' os) :
    (puncturesOf w os).length = deletions w is := by
  have hlen := congrArg List.length h.indices
  rwa [List.length_map, List.length_map, List.length_range] at hlen

/-- **Every epoch**, by induction on its requests. -/
theorem within_run {w : Str} {is : List (Request R)} {os : List (Passed B R)}
    (h : Runs.run (requestStep P) c is = some (c', os)) (hno : .search w ∉ is) (h0 : c.deletion (c.metaKw w) = none) :
    Within P w c is c' os := by
  induction is using List.reverseRecOn generalizing c' os with
  | nil =>
    obtain ⟨rfl, rfl⟩ := Prod.mk.inj (Option.some.inj h)
    exact ⟨rfl, h0, rfl, by simp [puncturesOf], by simp [encryptionsOf]⟩
  | append_singleton is i ih =>
    obtain ⟨m, os', o, h1, h2, rfl⟩ := Runs.run_concat.1 h
    have hw := ih h1 fun hm => hno (List.mem_append_left _ hm)
    have hkw : m.metaKw w = c.metaKw w := by
      unfold Client.metaKw
      rw [hw.counter]
    have hi : i ≠ .search w := by
      rintro rfl
      exact hno (by simp)
    obtain ⟨hc, hd, hp, he, hlen⟩ := requestStep_within h2 hi (n := deletions w is) (hkw ▸ hw.deletion)
    rw [hkw] at hd hp he
    have hpsplit : puncturesOf w (os' ++ [o]) = puncturesOf w os' ++ puncturesOf w [o] := List.filterMap_append
    have hesplit : encryptionsOf w (os' ++ [o]) = encryptionsOf w os' ++ encryptionsOf w [o] := List.filterMap_append
    have hcount : deletions w (is ++ [i]) = deletions w is + (puncturesOf w [o]).length := by
      rw [hlen]
      exact List.countP_append
    refine ⟨hc.trans hw.counter, hcount ▸ hd, ?_, fun p hp' => ?_, fun e he' => ?_⟩
    · rw [hpsplit, List.map_append, hw.indices, hcount]
      -- a request makes at most one puncture
      have hle : (puncturesOf w [o]).length ≤ 1 := List.length_filterMap_le _ _
      rcases hps : puncturesOf w [o] with _ | ⟨p, _ | ⟨q, ps⟩⟩
      · simp
      · have hpd := (hp p (by rw [hps]; exact List.mem_singleton_self p)).2
        simp [List.range_succ, hpd]
      · rw [hps] at hle
        simp at hle
    · rcases List.mem_append.1 (hpsplit ▸ hp') with hp' | hp'
      · exact hw.keys p hp'
      · exact (hp p hp').1
    · rcases List.mem_append.1 (hesplit ▸ he') with he' | he'
      · exact hw.encKeys e he'
      · exact he e he'

/-! ## Between the epochs -/

/-- Only the meta keyword in use has a counter. -/
def Client.Clean (c : Client) : Prop := ∀ w n, n ≠ c.searchCounter w → c.deletion (metaKeyword w n) = none

/-- A search leaves its keyword without counters. -/
theorem search_clears {w : Str} (hc : c.Clean) (h : requestStep P c (.search w) = some (c', o)) (n : UInt32) :
    c'.deletion (metaKeyword w n) = none := by
  obtain ⟨insReq, delReq, hins, hdel, rfl, -⟩ := requestStep_search h
  rw [(endEpoch_counters hins hdel).2]
  by_cases hn : n = c.searchCounter w
  · subst hn
    exact Function.update_self _ _ _
  · have hne : metaKeyword w n ≠ c.metaKw w := fun e => hn (metaKeyword_inj e).2
    rw [Function.update_of_ne hne]
    exact hc w n hn

theorem Client.Clean.step {i : Request R} (hc : c.Clean) (h : requestStep P c i = some (c', o)) : c'.Clean := by
  intro w n hn
  cases i with
  | insert keyword index s =>
    obtain ⟨⟨ramCounter, rfl⟩, -⟩ := requestStep_insert h
    exact hc w n hn
  | delete keyword index =>
    obtain ⟨rfl, -⟩ := requestStep_delete h
    have hne : metaKeyword w n ≠ c.metaKw keyword := by
      intro e
      obtain ⟨rfl, e2⟩ := metaKeyword_inj e
      exact hn e2
    dsimp only
    rw [Function.update_of_ne hne]
    exact hc w n hn
  | search keyword =>
    by_cases hw : keyword = w
    · subst hw
      exact search_clears hc h n
    · obtain ⟨insReq, delReq, hins, hdel, rfl, -⟩ := requestStep_search h
      rw [endEpoch_searchCounter_of_ne c (Ne.symm hw)] at hn
      have hne : metaKeyword w n ≠ c.metaKw keyword := metaKw_ne c (Ne.symm hw)
      rw [(endEpoch_counters hins hdel).2, Function.update_of_ne hne]
      exact hc w n hn

theorem clean_run {is : List (Request R)} {os : List (Passed B R)}
    (h : Runs.run (requestStep P) .init is = some (c, os)) : c.Clean :=
  Runs.run_induct (fun _ c => c.Clean) (fun _ _ _ => rfl) (fun _ _ _ _ _ hc hs => hc.step hs) h

/-- Where an epoch of `w` begins, `w` has no deletion counter. -/
theorem fresh_start {w : Str} {pre : List (Request R)} {os : List (Passed B R)}
    (hstart : pre = [] ∨ ∃ p, pre = p ++ [.search w]) (h : Runs.run (requestStep P) .init pre = some (c, os)) :
    c.deletion (c.metaKw w) = none := by
  rcases hstart with rfl | ⟨p, rfl⟩
  · obtain ⟨rfl, -⟩ := Prod.mk.inj (Option.some.inj h)
    rfl
  · obtain ⟨m, os', o, h1, h2, -⟩ := Runs.run_concat.1 h
    exact search_clears (clean_run h1) h2 _

/-! ## The claim for an epoch -/

omit [XorOp CT] [XorOp SK] [DecidableEq B] in
theorem shares_eq_epochKey {F : Type} [Field F] {S : Scheme F B} {params : B → Params F} {ps : List (Puncture B)} {key : B}
    {d : Nat} (hps : ∀ p ∈ ps, p.key = key) :
    shares S params key d ps = epochKey S (params key) d (ps.map fun p => (p.d, p.tag)) := by
  unfold shares epochKey
  rw [List.map_map]
  congr 1
  apply List.map_congr_left
  intro p hp
  rw [hps p hp]
  rfl

omit [XorOp CT] [XorOp SK] in
/-- With the indices `1, .., d` and one key for all, every ciphertext stays decryptable. -/
theorem decryptable_of_indices {NULLTAG : B} {ps : List (Puncture B)} {key : B} {d : Nat} {es : List (Encryption B R)}
    (hidx : ps.map Puncture.d = (List.range d).map (· + 1)) (hps : ∀ p ∈ ps, p.key = key)
    (hes : ∀ e ∈ es, e.key = key) : Decryptable NULLTAG ps key d es := by
  intro F _ _ S params hnull hinj e he htag s ct henc
  rw [shares_eq_epochKey hps]
  rw [hes e he] at henc
  apply decrypt_epochKey hinj _ _ henc
  · rw [List.map_map]
    exact hidx
  · rw [List.map_map]
    exact htag

omit [XorOp CT] [XorOp SK] [DecidableEq B] in
/-- The parts for the indices `1, 1, 2, .., d - 1`. -/
theorem sum_passed {F : Type} [Field F] (sp : Params F) {d : Nat} (hd : 2 ≤ d) (hd' : d < 2 ^ 32) :
    (((List.range d).map fun n => (passedIndex n).toNat).map fun i => sp.l i - lOrAlpha sp (i - 1)).sum =
      2 * sp.alpha + sp.l 1 + sp.l (d - 1) := by
  obtain ⟨k, rfl⟩ : ∃ k, d = k + 1 := ⟨d - 1, by omega⟩
  have hfirst : (passedIndex 0).toNat = 1 := rfl
  have hnext : ∀ n ∈ List.range k, (passedIndex (n + 1)).toNat = n + 1 := by
    intro n hn
    have hlt := List.mem_range.1 hn
    rw [passedIndex, show max 1 (n + 1) = n + 1 by omega, UInt32.toNat_ofNat', Nat.mod_eq_of_lt (by omega)]
  have hrest : (List.range k).map (((fun i => sp.l i - lOrAlpha sp (i - 1)) ∘ fun n => (passedIndex n).toNat) ∘ Nat.succ) =
      (List.range k).map fun n => sp.l (n + 1) - lOrAlpha sp n := by
    apply List.map_congr_left
    intro n hn
    show sp.l (passedIndex (n + 1)).toNat - lOrAlpha sp ((passedIndex (n + 1)).toNat - 1) = _
    rw [hnext n hn, Nat.add_sub_cancel]
  have hl1 : lOrAlpha sp (1 - 1) = -sp.alpha := rfl
  have hlk : lOrAlpha sp k = sp.l k := if_neg (by omega)
  rw [List.map_map, List.range_succ_eq_map, List.map_cons, List.sum_cons, List.map_map]
  show sp.l (passedIndex 0).toNat - lOrAlpha sp ((passedIndex 0).toNat - 1) + _ = _
  rw [hrest, sum_parts, hfirst, hl1, hlk, Nat.add_sub_cancel]
  ring

omit [XorOp CT] [XorOp SK] [DecidableEq B] in
/-- **After two deletions** the key recovers `2α + l_1 + l_(d-1) - l_d` in the place of `α`. -/
theorem recoverBlind_after_deletions {F : Type} [Field F] [DecidableEq F] {S : Scheme F B} {params : B → Params F}
    {ps : List (Puncture B)} {key : B} {d : Nat} (hd : 2 ≤ d) (hd' : d < 2 ^ 32)
    (hidx : ps.map Puncture.d = (List.range d).map fun n => (passedIndex n).toNat) (hps : ∀ p ∈ ps, p.key = key)
    (hinj : Function.Injective S.hashListToZR) {ct : Ciphertext F B}
    (hct : ct.ct3 = ct.ct2 * ((params key).beta + S.hashListToZR ct.tag * (params key).ry)) (hnull : ct.tag ≠ S.NULLTAG)
    (htag : ct.tag ∉ ps.map Puncture.tag) :
    recoverBlind S (shares S params key d ps) ct = some (ct.ct2 * (params key).beta *
      (2 * (params key).alpha + (params key).l 1 + (params key).l (d - 1) - (params key).l d)) := by
  have htags : (ps.map fun p => (p.d, p.tag)).map Prod.snd = ps.map Puncture.tag := List.map_map
  have hds : (ps.map fun p => (p.d, p.tag)).map Prod.fst = ps.map Puncture.d := List.map_map
  have hl : lOrAlpha (params key) d = (params key).l d := if_neg (by omega)
  rw [shares_eq_epochKey hps, recoverBlind_epochKey_eq hct hinj hnull (htags ▸ htag), hds, hidx, sum_passed _ hd hd', hl]
  congr 1
  ring

omit [XorOp CT] [XorOp SK] in
/-- Then no ciphertext stays decryptable. -/
theorem not_decryptable_of_two [Countable B] {NULLTAG : B} {ps : List (Puncture B)} {key : B} {d : Nat}
    {es : List (Encryption B R)} (hd : 2 ≤ d) (hd' : d < 2 ^ 32)
    (hidx : ps.map Puncture.d = (List.range d).map fun n => (passedIndex n).toNat) (hps : ∀ p ∈ ps, p.key = key)
    {e : Encryption B R} (he : e ∈ es) (hnull : e.tag ≠ NULLTAG) (htag : e.tag ∉ ps.map Puncture.tag) :
    ¬ Decryptable NULLTAG ps key d es := by
  intro h
  obtain ⟨f, hf⟩ := exists_injective_nat B
  -- with `l = 0` the key recovers `2α`
  set S : Scheme ℚ B := ⟨fun b => f b, fun _ x => if x = 1 then 0 else 1, NULLTAG⟩ with hS
  set params : B → Params ℚ := fun _ => ⟨1, 1, 0, fun _ => 0, fun _ => 0, fun _ => 0⟩ with hparams
  have hinj : Function.Injective S.hashListToZR := Nat.cast_injective.comp hf
  set ct : Ciphertext ℚ B := ⟨e.m, 1, 1, e.tag⟩ with hct
  have henc : encrypt S (params e.key) 1 e.m e.tag = some ct := by
    unfold encrypt
    rw [if_neg hnull]
    simp [hS, hparams, hct]
  have hdec := h ℚ S params rfl hinj e he htag 1 ct henc
  have hrec : recoverBlind S (shares S params key d ps) ct = some (1 * 1 * (2 * 1 + 0 + 0 - 0)) :=
    recoverBlind_after_deletions hd hd' hidx hps hinj (by simp [hct, hparams]) hnull htag
  unfold decrypt at hdec
  rw [hrec] at hdec
  split_ifs at hdec
  -- the mask is 1 where it was 0
  have hval := Option.some.inj hdec
  simp [hS, hct] at hval

/-- **The indices telescope exactly for epochs with at most one deletion.**  The epoch of `w` begins at the start or
after a search of `w` and ends with the next one. -/
theorem puncture_indices_iff {w : Str} {pre seg : List (Request R)} {c0 c1 c2 : Client} {os0 os : List (Passed B R)}
    {key : B} {d : Nat} (hstart : pre = [] ∨ ∃ p, pre = p ++ [.search w]) (hseg : .search w ∉ seg)
    (h0 : Runs.run (requestStep P) .init pre = some (c0, os0)) (h1 : Runs.run (requestStep P) c0 seg = some (c1, os))
    (h2 : requestStep P c1 (.search w) = some (c2, .initialKeyshare w key d)) :
    Telescopes P.NULLTAG (puncturesOf w os) key d (encryptionsOf w os) ↔ deletions w seg ≤ 1 := by
  have hw := within_run h1 hseg (fresh_start hstart h0)
  have hlen := hw.length
  constructor
  · intro ht
    by_contra hlt
    have hidx := ht.indices
    rw [hw.indices, hlen] at hidx
    -- the second deletion passes 1 again
    have h1 := congrArg (·[1]?) hidx
    simp [List.getElem?_range (show 1 < deletions w seg by omega), passedIndex] at h1
  · intro hle
    have hkw : c1.metaKw w = c0.metaKw w := by
      unfold Client.metaKw
      rw [hw.counter]
    obtain ⟨insReq, delReq, -, hdel, -, e⟩ := requestStep_search h2
    injection e with _ hkey hd
    rw [hkw] at hkey hdel
    have hone : ∀ n < deletions w seg, (passedIndex n).toNat = n + 1 := by
      intro n hn
      obtain rfl : n = 0 := by omega
      rfl
    have hinit : d = deletions w seg := by
      rw [hd]
      rcases searchRequest_add_count hdel with ⟨hnone, hz⟩ | ⟨c, hsome, hadd, -⟩
      · rw [hw.deletion] at hnone
        unfold counterAfter at hnone
        split_ifs at hnone with hzero
        rw [hz, hzero]
        rfl
      · rw [hw.deletion] at hsome
        unfold counterAfter at hsome
        split_ifs at hsome with hzero
        obtain hd1 : deletions w seg = 1 := by omega
        rw [hd1] at hsome
        rw [hadd, ← Option.some.inj hsome, hd1]
        rfl
    have hindices : (puncturesOf w os).map Puncture.d = (List.range (deletions w seg)).map (· + 1) := by
      rw [hw.indices]
      exact List.map_congr_left fun n hn => hone n (List.mem_range.1 hn)
    refine ⟨hlen ▸ hindices, hinit.trans hlen.symm, ?_⟩
    exact decryptable_of_indices (hinit ▸ hindices) (fun p hp => (hw.keys p hp).trans hkey.symm)
      fun e he => (hw.encKeys e he).trans hkey.symm

end

/-- Functions without a secret: every key, tag and token is its input. -/
def plainPrims : Prims Str UInt64 UInt64 Unit where
  ins := Diana.freePrims fun _ => 0
  del := Diana.freePrims fun _ => 0
  tag := id
  punctEnc := id
  kwToken := id
  NULLTAG := []
  encrypt := Encryption.m
  initialKeyshare _ d := d.toUInt64
  incPuncture p := p.d.toUInt64
  ctTag _ := []
  skTag _ := []
  decrypt _ ct := some ct

/-- One insertion and one deletion of `a`. -/
theorem puncture_indices_a :
    ∃ c1 c2 os key d,
      Runs.run (requestStep plainPrims) .init [.insert [97] 5 (), .delete [97] 6] = some (c1, os) ∧
      requestStep plainPrims c1 (.search [97]) = some (c2, .initialKeyshare [97] key d) ∧
      (Telescopes plainPrims.NULLTAG (puncturesOf [97] os) key d (encryptionsOf [97] os) ↔
        deletions [97] [Request.insert [97] 5 (), .delete [97] 6] ≤ 1) :=
  ⟨_, _, _, _, _, rfl, rfl, puncture_indices_iff (.inl rfl) (by decide) rfl rfl rfl⟩

/-- Two deletions of `a` pass the index 1 twice, and the search passes 2. -/
theorem puncture_index_twice :
    ∃ c1 c2 os key,
      Runs.run (requestStep plainPrims) .init [.insert [97] 5 (), .delete [97] 6, .delete [97] 7] = some (c1, os) ∧
      requestStep plainPrims c1 (.search [97]) = some (c2, .initialKeyshare [97] key 2) ∧
      (puncturesOf [97] os).map Puncture.d = [1, 1] ∧
      ¬ Telescopes plainPrims.NULLTAG (puncturesOf [97] os) key 2 (encryptionsOf [97] os) ∧
      ¬ Decryptable plainPrims.NULLTAG (puncturesOf [97] os) key 2 (encryptionsOf [97] os) :=
  have hinj : Function.Injective UInt8.toNat := fun _ _ => UInt8.toNat_inj.1
  have : Countable UInt8 := hinj.countable
  ⟨_, _, _, _, rfl, rfl, rfl, fun h => absurd h.indices (by decide),
    not_decryptable_of_two (by decide) (by decide) rfl (by simp [puncturesOf, deletionPuncture, plainPrims, Client.metaKw,
      Client.searchCounter]) List.mem_cons_self (by decide) (by decide)⟩

end Sse.Janus
