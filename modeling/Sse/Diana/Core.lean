import Sse.Basic.Edb
import Sse.Diana.TokenTree

/-!
# Diana: one client and one server

`DianaClient` counts the updates of each keyword and stores update number `c` under the
update token of leaf `c` of the keyword's token tree; `DianaServer` is a map from update
tokens to masked payloads.  A search sends a covering list, and the server looks up the
token of every leaf below it.

Tokens, hash values and keyword indices are 16-byte blocks, taken as a type `B`; a
payload is a type `T` with the bytewise xor.  `Hash`, `Prf` and `Prg` are the fields of
`Prims`.  What they have to guarantee is that the tokens of the leaves in use differ
(`Apart`).
-/

namespace Sse.Diana

/-- The cryptographic functions of a client and its server. -/
structure Prims (B T : Type*) where
  /-- The first 16 bytes of `Hash::hash`. -/
  hash : Str → B
  rootPrf : B → B
  /-- `Prg::derive` of 16 bytes, at offset 0 or 16. -/
  derive : B → Bool → B
  /-- `Prg::derive` of 32 bytes at offset 0. -/
  derive32 : B → B × B
  /-- `Prg::derive` of a payload's size at offset 16. -/
  mask : B → T

/-- `SearchRequest`, without the keyword token that no search reads. -/
structure SearchRequest (B : Type*) where
  token_list : List (B × Nat)
  add_count : UInt32

def kTreeDepth : Nat := 48

section

variable {B T : Type*} [XorOp T] (P : Prims B T)

/-- The root of the keyword's token tree. -/
def root (keyword : Str) : B := P.rootPrf (P.hash keyword)

/-- Leaf `c` of the keyword's tree. -/
def leaf (keyword : Str) (c : Nat) : B := deriveNode P.derive (root P keyword) c kTreeDepth

/-- The update token of leaf `c`, by `gen_update_token_mask`. -/
def token (keyword : Str) (c : Nat) : B := P.derive (leaf P keyword c) false

/-- `DianaClient::update_request`: the new counters, the request and the counter used. -/
def updateRequest (ramCounter : Str → Option UInt32) (keyword : Str) (index : T) :
    (Str → Option UInt32) × (B × T) × UInt32 :=
  let kw_counter := nextCnt (ramCounter keyword)
  let st := deriveNode P.derive (root P keyword) kw_counter.toNat kTreeDepth
  (Function.update ramCounter keyword (some kw_counter), (P.derive st false, index ^^^ P.mask st), kw_counter)

/-- `DianaClient::search_request`. -/
def searchRequest (ramCounter : Str → Option UInt32) (keyword : Str) : Option (SearchRequest B) :=
  match ramCounter keyword with
  | none => some ⟨[], 0⟩
  | some c =>
    (coveringList P.derive (root P keyword) (c + 1).toNat kTreeDepth).map fun l => ⟨l, c + 1⟩

/-- `DianaClient::search_request` with deleted counters. -/
def searchRequestDel (ramCounter : Str → Option UInt32) (keyword : Str) (delCnts : List UInt32) :
    Option (SearchRequest B) :=
  match ramCounter keyword with
  | none => some ⟨[], 0⟩
  | some c =>
    (if delCnts.length = 0 then coveringList P.derive (root P keyword) (c + 1).toNat kTreeDepth
      else coveringListDel P.derive (root P keyword) (c + 1).toNat (delCnts.map UInt32.toNat) kTreeDepth).map
      fun l => ⟨l, c + 1⟩

variable [DecidableEq B]

/-- `DianaServer::get_unmask`. -/
def getUnmask (delete_key : Bool) (edb : B → Option T) (key : B) : (B → Option T) × Option T :=
  match edb (P.derive key false) with
  | none => (edb, none)
  | some index =>
    (if delete_key then Function.update edb (P.derive key false) none else edb, some (index ^^^ P.mask key))

/-- The lookups of a search, leaf by leaf. -/
def searchKeys (delete_results : Bool) : (B → Option T) → List B → (B → Option T) × List T
  | edb, [] => (edb, [])
  | edb, key :: keys =>
    let (edb1, r) := getUnmask P delete_results edb key
    let (edb2, rs) := searchKeys delete_results edb1 keys
    (edb2, r.toList ++ rs)

/-- `DianaServer::search`. -/
def search (delete_results : Bool) (edb : B → Option T) (req : SearchRequest B) : (B → Option T) × List T :=
  searchKeys P delete_results edb (leaves P.derive32 req.token_list)

/-- The leaves visited by the job of a single thread; `none` where `derive_leaves` throws. -/
def jobKeys : Nat → Nat → List (B × Nat) → Option (List B)
  | _, _, [] => some []
  | loc_min, loc_max, (K, d) :: rest =>
    let leaf_count := 2 ^ d
    if leaf_count ≤ loc_min then jobKeys (loc_min - leaf_count) (loc_max - leaf_count) rest
    else if leaf_count > loc_max then deriveLeaves P.derive P.derive32 K d loc_min loc_max
    else do
      let l ← deriveLeaves P.derive P.derive32 K d loc_min (leaf_count - 1)
      let r ← jobKeys 0 (loc_max - leaf_count) rest
      some (l ++ r)

/-- `DianaServer::search_simple_parallel` on one thread, without deletion; `none` where the job
reads past the end of an empty token list, or throws. -/
def searchSimpleParallel (edb : B → Option T) (req : SearchRequest B) : Option (List T) :=
  if req.add_count = 0 then some []
  else match req.token_list with
    | [] => none
    | ts => (jobKeys P 0 (req.add_count.toNat - 1) ts).map fun keys => (searchKeys P false edb keys).2

end

/-! ## What client and server hold -/

section

variable {B T : Type*} [XorOp T] {P : Prims B T}

/-- The update tokens of the entries differ. -/
def Apart (P : Prims B T) (pay : Str → List T) : Prop :=
  ∀ k k' i i', i < (pay k).length → i' < (pay k').length → token P k i = token P k' i' → k = k' ∧ i = i'

/-- The client counts, and the server stores, the payloads `pay k` of every keyword `k`. -/
structure Holds (P : Prims B T) (ramCounter : Str → Option UInt32) (edb : B → Option T) (pay : Str → List T) :
    Prop where
  small : ∀ k, (pay k).length < 2 ^ 32
  cnt : ∀ k, ramCounter k = if pay k = [] then none else some (UInt32.ofNat ((pay k).length - 1))
  entry : ∀ k i x, (pay k)[i]? = some x → edb (token P k i) = some (x ^^^ P.mask (leaf P k i))
  owned : ∀ t, edb t ≠ none → ∃ k i, i < (pay k).length ∧ t = token P k i

theorem holds_init : Holds P (fun _ => none) (fun _ => none) fun _ => ([] : List T) where
  small := by simp
  cnt := by simp
  entry := by simp
  owned := by simp

variable {ramCounter : Str → Option UInt32} {edb : B → Option T} {pay : Str → List T}

theorem Holds.nextCnt_eq (h : Holds P ramCounter edb pay) (k : Str) :
    nextCnt (ramCounter k) = UInt32.ofNat (pay k).length := by
  rw [h.cnt]
  by_cases hp : pay k = []
  · simp [hp, nextCnt]
  · have hpos := List.length_pos_of_ne_nil hp
    rw [if_neg hp]
    show UInt32.ofNat ((pay k).length - 1) + UInt32.ofNat 1 = _
    rw [← UInt32.ofNat_add, Nat.sub_add_cancel hpos]

theorem Holds.toNat_length (h : Holds P ramCounter edb pay) (k : Str) :
    (UInt32.ofNat (pay k).length).toNat = (pay k).length := by
  have hsmall := h.small k
  rw [UInt32.toNat_ofNat']
  omega

theorem Holds.updateRequest_eq (h : Holds P ramCounter edb pay) (k : Str) (x : T) :
    updateRequest P ramCounter k x =
      (Function.update ramCounter k (some (UInt32.ofNat (pay k).length)),
        (token P k (pay k).length, x ^^^ P.mask (leaf P k (pay k).length)),
        UInt32.ofNat (pay k).length) := by
  simp only [updateRequest, h.nextCnt_eq, h.toNat_length, token, leaf]

/-- The token of the next update is free. -/
theorem Holds.free (h : Holds P ramCounter edb pay) {k : Str} {x : T}
    (ha : Apart P (Function.update pay k (pay k ++ [x]))) : edb (token P k (pay k).length) = none := by
  by_contra hne
  obtain ⟨k', i, hi, ht⟩ := h.owned _ hne
  have hlen : (pay k).length < (Function.update pay k (pay k ++ [x]) k).length := by simp
  have hi' : i < (Function.update pay k (pay k ++ [x]) k').length := by
    rw [Function.update_apply]
    split
    · next e => subst e; simp; omega
    · exact hi
  obtain ⟨rfl, hii⟩ := ha k k' _ i hlen hi' ht
  omega

variable [DecidableEq B]

/-- **Update appends a payload.** -/
theorem Holds.update (h : Holds P ramCounter edb pay) {k : Str} {x : T} (hb : (pay k).length + 1 < 2 ^ 32)
    (ha : Apart P (Function.update pay k (pay k ++ [x]))) (usehdd : Bool) :
    Holds P (updateRequest P ramCounter k x).1 (serverUpdate usehdd edb (updateRequest P ramCounter k x).2.1)
      (Function.update pay k (pay k ++ [x])) := by
  have hstore : serverUpdate usehdd edb (updateRequest P ramCounter k x).2.1 =
      Function.update edb (token P k (pay k).length) (some (x ^^^ P.mask (leaf P k (pay k).length))) := by
    rw [h.updateRequest_eq, serverUpdate_eq, if_pos (Or.inr (h.free ha))]
  have hlt : ∀ {k' i}, i < (pay k').length → i < (Function.update pay k (pay k ++ [x]) k').length := by
    intro k' i hi
    rw [Function.update_apply]
    split
    · next e => subst e; simp; omega
    · exact hi
  rw [hstore, h.updateRequest_eq]
  refine ⟨fun k' => ?_, fun k' => ?_, fun k' i y hi => ?_, fun t ht => ?_⟩
  · rw [Function.update_apply]
    split
    · simpa using hb
    · exact h.small k'
  · simp only [Function.update_apply]
    split
    · simp
    · exact h.cnt k'
  · by_cases hnew : k' = k ∧ i = (pay k).length
    · obtain ⟨rfl, rfl⟩ := hnew
      rw [Function.update_self, List.getElem?_concat_length] at hi
      rw [Function.update_self, Option.some.inj hi]
    · have hold : (pay k')[i]? = some y := by
        rw [Function.update_apply] at hi
        split at hi
        · next e =>
          subst e
          exact (getElem?_concat_cases hi).resolve_right fun e => hnew ⟨rfl, e.1⟩
        · exact hi
      rw [Function.update_of_ne]
      · exact h.entry k' i y hold
      · intro e
        obtain ⟨e1, e2⟩ := ha k' k i _ (hlt (lt_of_getElem?_eq_some hold)) (by simp) e
        exact hnew ⟨e1, e2⟩
  · rw [Function.update_apply] at ht
    split at ht
    · next e => exact ⟨k, _, by simp, e⟩
    · obtain ⟨k', i, hi, e⟩ := h.owned t ht
      exact ⟨k', i, hlt hi, e⟩

/-! ## Lookups -/

/-- What the lookup of a leaf finds. -/
def found (P : Prims B T) (edb : B → Option T) (key : B) : Option T :=
  (edb (P.derive key false)).map (· ^^^ P.mask key)

theorem searchKeys_keep (P : Prims B T) (edb : B → Option T) (keys : List B) :
    searchKeys P false edb keys = (edb, keys.filterMap (found P edb)) := by
  induction keys with
  | nil => rfl
  | cons key keys ih =>
    unfold searchKeys getUnmask
    cases h : edb (P.derive key false) with
    | none => simp [ih, found, h]
    | some index => simp [ih, found, h]

/-- A search that deletes finds the same and takes exactly the entries it looked at. -/
theorem searchKeys_delete (P : Prims B T) (edb : B → Option T) {keys : List B}
    (hn : (keys.map (P.derive · false)).Nodup) :
    searchKeys P true edb keys =
      (fun t => if t ∈ keys.map (P.derive · false) then none else edb t, keys.filterMap (found P edb)) := by
  induction keys generalizing edb with
  | nil => simp [searchKeys]
  | cons key keys ih =>
    rw [List.map_cons, List.nodup_cons] at hn
    set ut := P.derive key false with hut
    have hstep : getUnmask P true edb key = (Function.update edb ut none, found P edb key) := by
      unfold getUnmask found
      rw [← hut]
      cases h : edb ut with
      | none =>
        have hself : Function.update edb ut none = edb := by rw [← h, Function.update_eq_self]
        rw [hself]
        rfl
      | some index => simp
    have hrest : keys.filterMap (found P (Function.update edb ut none)) = keys.filterMap (found P edb) := by
      apply List.filterMap_congr
      intro k hk
      unfold found
      rw [Function.update_of_ne]
      intro e
      exact hn.1 (e ▸ List.mem_map_of_mem hk)
    simp only [searchKeys, hstep, ih _ hn.2, hrest]
    refine Prod.ext (funext fun t => ?_) ?_
    · simp only [List.map_cons, List.mem_cons, ← hut]
      by_cases ht : t = ut
      · simp [ht]
      · simp [ht]
    · simp only [List.filterMap_cons]
      cases found P edb key <;> rfl

omit [XorOp T] [DecidableEq B] in
/-- **The job of one thread** visits the leaves of its interval. -/
theorem jobKeys_slice (hs : Splits P.derive P.derive32) {lo hi : Nat} (hle : lo ≤ hi) (l : List (B × Nat)) :
    jobKeys P lo hi l = some (slice (leaves P.derive32 l) lo hi) := by
  induction l generalizing lo hi with
  | nil => simp [jobKeys, leaves, slice]
  | cons e l ih =>
    obtain ⟨K, d⟩ := e
    have hlen := length_deriveAllLeaves hs K d
    have hcons : leaves P.derive32 ((K, d) :: l) = deriveAllLeaves P.derive32 K d ++ leaves P.derive32 l := rfl
    rw [hcons]
    unfold jobKeys
    simp only
    split_ifs with hskip hlast
    · rw [ih (by omega), slice_append_right (by rw [hlen]; exact hskip) hle, hlen]
    · rw [deriveLeaves_eq hs K hle hlast, slice_append_left hle (by rw [hlen]; exact hlast)]
    · rw [deriveLeaves_eq hs K (by omega) (by omega), ih (Nat.zero_le _),
        slice_append (by rw [hlen]; omega) (by rw [hlen]; omega), hlen]
      rfl

omit [XorOp T] [DecidableEq B] in
/-- One thread visits every leaf of a list with at most `m` leaves. -/
theorem jobKeys_eq (hs : Splits P.derive P.derive32) {m : Nat} {l : List (B × Nat)}
    (hl : (leaves P.derive32 l).length ≤ m) : jobKeys P 0 (m - 1) l = some (leaves P.derive32 l) := by
  rw [jobKeys_slice hs (Nat.zero_le _), slice_all _ (by omega)]

/-! ## Searches -/

section

variable [LawfulXor T]

omit [DecidableEq B] in
/-- The lookups at the leaves of `is` find the payloads there. -/
theorem Holds.found_leaves (h : Holds P ramCounter edb pay) (k : Str) {is : List Nat}
    (his : ∀ i ∈ is, i < (pay k).length) :
    (is.map (leaf P k)).filterMap (found P edb) = is.filterMap ((pay k)[·]?) := by
  rw [List.filterMap_map]
  apply List.filterMap_congr
  intro i hi
  have hget := List.getElem?_eq_getElem (his i hi)
  show (edb (token P k i)).map (· ^^^ P.mask (leaf P k i)) = _
  rw [h.entry k i _ hget, hget, Option.map_some, LawfulXor.xor_cancel]

omit [LawfulXor T] [DecidableEq B] in
/-- The request covers the leaves of all payloads, in order. -/
theorem Holds.searchRequest (h : Holds P ramCounter edb pay) (hs : Splits P.derive P.derive32) (k : Str) :
    ∃ req, searchRequest P ramCounter k = some req ∧ req.add_count = UInt32.ofNat (pay k).length ∧
      leaves P.derive32 req.token_list = (List.range (pay k).length).map (leaf P k) := by
  unfold Diana.searchRequest
  by_cases hp : pay k = []
  · rw [h.cnt, if_pos hp, hp]
    exact ⟨_, rfl, rfl, rfl⟩
  · have hpos := List.length_pos_of_ne_nil hp
    have hnext := h.nextCnt_eq k
    have hsmall := h.small k
    have hcap : (pay k).length ≤ 2 ^ kTreeDepth := by
      have : 2 ^ 32 ≤ 2 ^ kTreeDepth := by decide
      omega
    obtain ⟨l, hl⟩ : ∃ l, coveringList P.derive (root P k) (pay k).length kTreeDepth = some l :=
      coveringList_isSome hpos hcap (root P k)
    rw [h.cnt, if_neg hp] at hnext ⊢
    simp only [nextCnt] at hnext
    simp only [hnext, h.toNat_length, hl]
    exact ⟨_, rfl, rfl, leaves_coveringList hs hcap hl⟩

/-- **Search returns the payloads of the keyword, in order.** -/
theorem Holds.search (h : Holds P ramCounter edb pay) {k : Str} {req : SearchRequest B}
    (hreq : leaves P.derive32 req.token_list = (List.range (pay k).length).map (leaf P k)) :
    search P false edb req = (edb, pay k) := by
  rw [Diana.search, searchKeys_keep, hreq, h.found_leaves k fun i hi => List.mem_range.1 hi,
    filterMap_range_getElem?]

/-- **A deleting search takes exactly the entries of the keyword.** -/
theorem Holds.search_delete (h : Holds P ramCounter edb pay) (ha : Apart P pay) {k : Str}
    {req : SearchRequest B}
    (hreq : leaves P.derive32 req.token_list = (List.range (pay k).length).map (leaf P k)) :
    Diana.search P true edb req =
      (fun t => if ∃ i < (pay k).length, t = token P k i then none else edb t, pay k) := by
  have htok : ((List.range (pay k).length).map (leaf P k)).map (P.derive · false) =
      (List.range (pay k).length).map (token P k) := by
    rw [List.map_map]
    rfl
  have hn : (((List.range (pay k).length).map (leaf P k)).map (P.derive · false)).Nodup := by
    rw [htok]
    apply List.Nodup.map_on _ List.nodup_range
    intro i hi j hj e
    exact (ha k k i j (List.mem_range.1 hi) (List.mem_range.1 hj) e).2
  rw [Diana.search, hreq, searchKeys_delete P edb hn, htok,
    h.found_leaves k fun i hi => List.mem_range.1 hi, filterMap_range_getElem?]
  refine Prod.ext (funext fun t => ?_) rfl
  simp only [List.mem_map, List.mem_range]
  congr 1
  exact propext ⟨fun ⟨i, hi, e⟩ => ⟨i, hi, e.symm⟩, fun ⟨i, hi, e⟩ => ⟨i, hi, e.symm⟩⟩

end

/-! ## Sequences of updates -/

/-- One `update_request` passed to `DianaServer::update`. -/
def applyUpdate (P : Prims B T) (usehdd : Bool) (st : (Str → Option UInt32) × (B → Option T)) (u : Str × T) :
    (Str → Option UInt32) × (B → Option T) :=
  let req := updateRequest P st.1 u.1 u.2
  (req.1, serverUpdate usehdd st.2 req.2.1)

/-- Client and server after a sequence of updates. -/
def afterUpdates (P : Prims B T) (usehdd : Bool) (us : List (Str × T)) : (Str → Option UInt32) × (B → Option T) :=
  us.foldl (applyUpdate P usehdd) (fun _ => none, fun _ => none)

omit [XorOp T] in
/-- The payloads inserted under a keyword, in order. -/
def payloads (us : List (Str × T)) (k : Str) : List T :=
  us.filterMap fun u => if u.1 = k then some u.2 else none

omit [XorOp T] in
theorem payloads_concat (us : List (Str × T)) (u : Str × T) :
    payloads (us ++ [u]) = Function.update (payloads us) u.1 (payloads us u.1 ++ [u.2]) := by
  funext k
  rw [Function.update_apply]
  unfold payloads
  rw [List.filterMap_append]
  by_cases h : k = u.1
  · simp [h]
  · simp [h, Ne.symm h]

omit [DecidableEq B] [XorOp T] in
theorem Apart.mono {pay pay' : Str → List T} (h : Apart P pay') (hle : ∀ k, (pay k).length ≤ (pay' k).length) :
    Apart P pay :=
  fun k k' i i' hi hi' => h k k' i i' (lt_of_lt_of_le hi (hle k)) (lt_of_lt_of_le hi' (hle k'))

/-- After any sequence of updates, client and server hold the payloads. -/
theorem holds_afterUpdates (P : Prims B T) (usehdd : Bool) (us : List (Str × T))
    (hb : ∀ k, (payloads us k).length < 2 ^ 32) (ha : Apart P (payloads us)) :
    Holds P (afterUpdates P usehdd us).1 (afterUpdates P usehdd us).2 (payloads us) := by
  induction us using List.reverseRecOn with
  | nil => exact holds_init
  | append_singleton us u ih =>
    have hle : ∀ k, (payloads us k).length ≤ (payloads (us ++ [u]) k).length := by
      intro k
      rw [payloads_concat, Function.update_apply]
      split
      · next e => subst e; simp
      · exact le_rfl
    have hu := hb u.1
    rw [payloads_concat, Function.update_self, List.length_append, List.length_singleton] at hu
    have hold := ih (fun k => lt_of_le_of_lt (hle k) (hb k)) (ha.mono hle)
    rw [payloads_concat] at ha ⊢
    rw [afterUpdates, List.foldl_append]
    exact hold.update hu ha usehdd

/-- **Search returns what was inserted.**  A deleting search returns the same, removes exactly
the entries of its keyword, and leaves nothing for a second one. -/
theorem search_returns_payloads [LawfulXor T] (P : Prims B T) (hs : Splits P.derive P.derive32) (usehdd : Bool)
    (us : List (Str × T)) (hb : ∀ k, (payloads us k).length < 2 ^ 32) (ha : Apart P (payloads us)) (w : Str) :
    let (ramCounter, edb) := afterUpdates P usehdd us
    ∃ req, searchRequest P ramCounter w = some req ∧ search P false edb req = (edb, payloads us w) ∧
      ∃ edb', search P true edb req = (edb', payloads us w) ∧
        (∀ t, edb' t = if ∃ i < (payloads us w).length, t = token P w i then none else edb t) ∧
        (search P true edb' req).2 = [] ∧ (search P false edb' req).2 = [] ∧
        ∀ w' req', w' ≠ w → searchRequest P ramCounter w' = some req' →
          search P false edb' req' = (edb', payloads us w') := by
  have h := holds_afterUpdates P usehdd us hb ha
  obtain ⟨req, hreq, -, hl⟩ := h.searchRequest hs w
  set edb := (afterUpdates P usehdd us).2
  set edb' : B → Option T := fun t => if ∃ i < (payloads us w).length, t = token P w i then none else edb t with he
  -- every leaf of the request is empty after the deletion
  have hempty : (leaves P.derive32 req.token_list).filterMap (found P edb') = [] := by
    rw [hl, List.filterMap_map, List.filterMap_eq_nil_iff]
    intro i hi
    have hgone : edb' (token P w i) = none := if_pos ⟨i, List.mem_range.1 hi, rfl⟩
    show (edb' (token P w i)).map (· ^^^ P.mask (leaf P w i)) = none
    rw [hgone, Option.map_none]
  have hdel := h.search_delete ha hl
  refine ⟨req, hreq, h.search hl, edb', hdel, fun t => rfl, ?_, ?_, ?_⟩
  · have hnd : ((leaves P.derive32 req.token_list).map (P.derive · false)).Nodup := by
      rw [hl, List.map_map]
      apply List.Nodup.map_on _ List.nodup_range
      intro i hi j hj e
      exact (ha w w i j (List.mem_range.1 hi) (List.mem_range.1 hj) e).2
    rw [search, searchKeys_delete P edb' hnd]
    exact hempty
  · rw [search, searchKeys_keep]
    exact hempty
  · intro w' req' hne hreq'
    obtain ⟨req'', hreq'', -, hl'⟩ := h.searchRequest hs w'
    obtain rfl : req'' = req' := Option.some.inj (hreq''.symm.trans hreq')
    have hsame : (leaves P.derive32 req''.token_list).filterMap (found P edb') =
        (leaves P.derive32 req''.token_list).filterMap (found P edb) := by
      rw [hl', List.filterMap_map, List.filterMap_map]
      apply List.filterMap_congr
      intro i hi
      have hkeep : edb' (token P w' i) = edb (token P w' i) := by
        refine if_neg ?_
        rintro ⟨j, hj, e⟩
        exact hne (ha w' w i j (List.mem_range.1 hi) hj e).1
      show (edb' (token P w' i)).map _ = (edb (token P w' i)).map _
      rw [hkeep]
    have hfull := h.search hl'
    rw [search, searchKeys_keep, Prod.mk.injEq] at hfull
    rw [search, searchKeys_keep, hsame, hfull.2]

end

/-! ## A free instance

Blocks are byte strings of any length and a child is its parent with one more byte, so no two
inputs of `Hash`, `Prf` and `Prg` collide. -/

def freePrims {T : Type*} (mask : Str → T) : Prims Str T where
  hash := id
  rootPrf := id
  derive K b := K ++ [if b then 1 else 0]
  derive32 K := (K ++ [0], K ++ [1])
  mask := mask

theorem freePrims_splits {T : Type*} (mask : Str → T) :
    Splits (freePrims mask).derive (freePrims mask).derive32 := fun _ => rfl

/-- The path from a root to a node. -/
def path (i : Nat) : Nat → Str
  | 0 => []
  | d + 1 => (if i.testBit d then 1 else 0) :: path i d

theorem length_path (i d : Nat) : (path i d).length = d := by
  induction d with
  | zero => rfl
  | succ d ih => rw [path, List.length_cons, ih]

theorem deriveNode_free {T : Type*} (mask : Str → T) (K : Str) (i d : Nat) :
    deriveNode (freePrims mask).derive K i d = K ++ path i d := by
  induction d generalizing K with
  | zero => simp [deriveNode, path]
  | succ d ih =>
    rw [deriveNode, ih, path]
    simp [freePrims]

theorem path_inj {i j d : Nat} (hi : i < 2 ^ d) (hj : j < 2 ^ d) (h : path i d = path j d) : i = j := by
  have hbits : ∀ d, path i d = path j d → ∀ b < d, i.testBit b = j.testBit b := by
    intro d
    induction d with
    | zero => intro _ b hb; omega
    | succ d ih =>
      intro h b hb
      obtain ⟨h1, h2⟩ := List.cons.inj h
      rcases Nat.lt_succ_iff_lt_or_eq.1 hb with hb | rfl
      · exact ih h2 b hb
      · cases hi : i.testBit b <;> cases hj : j.testBit b <;> simp_all
  apply Nat.eq_of_testBit_eq
  intro b
  by_cases hb : b < d
  · exact hbits d h b hb
  · have hpow := Nat.pow_le_pow_right (show 0 < 2 by omega) (show d ≤ b by omega)
    rw [Nat.testBit_lt_two_pow (by omega), Nat.testBit_lt_two_pow (by omega)]

theorem token_free_inj {T : Type*} {mask : Str → T} {k k' : Str} {i i' : Nat} (hi : i < 2 ^ 48) (hi' : i' < 2 ^ 48)
    (h : token (freePrims mask) k i = token (freePrims mask) k' i') : k = k' ∧ i = i' := by
  have h1 : leaf (freePrims mask) k i = leaf (freePrims mask) k' i' := (List.append_inj' h rfl).1
  unfold leaf at h1
  rw [deriveNode_free, deriveNode_free] at h1
  obtain ⟨h2, h3⟩ := List.append_inj' h1 (by rw [length_path, length_path])
  exact ⟨h2, path_inj hi hi' h3⟩

theorem apart_free {T : Type*} {mask : Str → T} {pay : Str → List T} (hb : ∀ k, (pay k).length < 2 ^ 32) :
    Apart (freePrims mask) pay := by
  intro k k' i i' hi hi' h
  have := hb k
  have := hb k'
  exact token_free_inj (by omega) (by omega) h

/-- Two payloads under `a` and one under `b`. -/
theorem search_returns_payloads_ab :
    let us : List (Str × UInt64) := [([97], 5), ([98], 6), ([97], 7)]
    let P := freePrims (fun _ => (9 : UInt64))
    let (ramCounter, edb) := afterUpdates P false us
    ∃ req, searchRequest P ramCounter [97] = some req ∧ search P false edb req = (edb, payloads us [97]) ∧
      ∃ edb', search P true edb req = (edb', payloads us [97]) ∧
        (∀ t, edb' t = if ∃ i < (payloads us [97]).length, t = token P [97] i then none else edb t) ∧
        (search P true edb' req).2 = [] ∧ (search P false edb' req).2 = [] ∧
        ∀ w' req', w' ≠ [97] → searchRequest P ramCounter w' = some req' →
          search P false edb' req' = (edb', payloads us w') :=
  have hb : ∀ k, (payloads [([97], (5 : UInt64)), ([98], 6), ([97], 7)] k).length < 2 ^ 32 := fun k =>
    lt_of_le_of_lt (List.length_filterMap_le _ _) (by decide)
  search_returns_payloads _ (freePrims_splits _) false _ hb (apart_free hb) [97]

end Sse.Diana
