import Sse.Diana.Core
import Sse.Lib.Runs

/-!
# The client of Janus

`JanusClient` puts two Diana clients together, one for the insertions and one for the
deletions.  An insertion stores a ciphertext whose tag is made of keyword and ind; a
deletion stores a share of a decryption key that is punctured on this tag.  Both are filed
under the meta keyword, the keyword with its search counter, and a search that finds
either of them moves on to the next counter.

The encryption is a parameter here, as a function of what it is called with
(`Encryption`, `Puncture`); a call that throws or fails an assertion ends the run.
-/

namespace Sse.Janus

/-- A digit of `std::hex`. -/
def hexDigit (d : Nat) : UInt8 := if d < 10 then (48 + d).toUInt8 else (87 + d).toUInt8

/-- `hex_string` of an integer of `width` digits, filled up with `0`. -/
def hexString : Nat → Nat → Str
  | 0, _ => []
  | width + 1, a => hexString width (a / 16) ++ [hexDigit (a % 16)]

/-- `JanusClient::meta_keyword`. -/
def metaKeyword (kw : Str) (search_counter : UInt32) : Str := hexString 8 search_counter.toNat ++ kw

/-- `keyword_doc_string`. -/
def keywordDocString (kw : Str) (ind : UInt64) : Str := hexString 16 ind.toNat ++ [124, 124] ++ kw

/-- The arguments of `encrypt` under a key, with the random exponent. -/
structure Encryption (B R : Type) where
  key : B
  s : R
  m : UInt64
  tag : B

/-- The arguments of `inc_puncture` under a key. -/
structure Puncture (B : Type) where
  key : B
  d : Nat
  tag : B

/-- The cryptographic functions of client and server.  Keys, tags and tokens are 16-byte blocks. -/
structure Prims (B CT SK R : Type) where
  ins : Diana.Prims B CT
  del : Diana.Prims B SK
  /-- `tag_prf_`. -/
  tag : Str → B
  /-- `punct_enc_master_prf_`. -/
  punctEnc : Str → B
  /-- `kw_token_prf_`. -/
  kwToken : Str → B
  NULLTAG : B
  encrypt : Encryption B R → CT
  initialKeyshare : B → Nat → SK
  incPuncture : Puncture B → SK
  /-- `extract_tag` of a ciphertext. -/
  ctTag : CT → B
  /-- `extract_tag` of a key share. -/
  skTag : SK → B
  /-- `PuncturableDecryption::decrypt`. -/
  decrypt : List SK → CT → Option UInt64

/-- `JanusClient`. -/
structure Client where
  search_counter_map : Str → Option UInt32
  /-- `ramCounter` of the insertion client. -/
  insertion : Str → Option UInt32
  /-- `ramCounter` of the deletion client. -/
  deletion : Str → Option UInt32

def Client.init : Client := ⟨fun _ => none, fun _ => none, fun _ => none⟩

def Client.searchCounter (c : Client) (keyword : Str) : UInt32 := (c.search_counter_map keyword).getD 0

/-- The meta keyword that is in use for a keyword. -/
def Client.metaKw (c : Client) (keyword : Str) : Str := metaKeyword keyword (c.searchCounter keyword)

/-- `DianaClient::get_match_count`. -/
def getMatchCount (ramCounter : Str → Option UInt32) (kw : Str) : UInt32 := (ramCounter kw).getD 0

/-- `SearchRequest`. -/
structure SearchRequest (B SK : Type) where
  keyword_token : B
  insertion_search_request : Diana.SearchRequest B
  deletion_search_request : Diana.SearchRequest B
  first_key_share : SK

section

variable {B CT SK R : Type} [XorOp CT] [XorOp SK] [DecidableEq B] (P : Prims B CT SK R)

omit [XorOp CT] [XorOp SK] [DecidableEq B] in
/-- What `insertion_request` passes to `encrypt`. -/
def insertionEncryption (c : Client) (keyword : Str) (index : UInt64) (s : R) : Encryption B R :=
  ⟨P.punctEnc (c.metaKw keyword), s, index, P.tag (keywordDocString keyword index)⟩

/-- `JanusClient::insertion_request`; `none` where `encrypt` throws. -/
def insertionRequest (c : Client) (keyword : Str) (index : UInt64) (s : R) : Option (Client × (B × CT)) :=
  let e := insertionEncryption P c keyword index s
  if e.tag = P.NULLTAG then none
  else
    let ct := P.encrypt e
    let (ramCounter, req, _) := Diana.updateRequest P.ins c.insertion (c.metaKw keyword) ct
    some ({ c with insertion := ramCounter }, req)

omit [XorOp CT] [XorOp SK] [DecidableEq B] in
/-- What `deletion_request` passes to `inc_puncture`. -/
def deletionPuncture (c : Client) (keyword : Str) (index : UInt64) : Puncture B :=
  let n_del := getMatchCount c.deletion (c.metaKw keyword)
  ⟨P.punctEnc (c.metaKw keyword), (n_del + 1).toNat, P.tag (keywordDocString keyword index)⟩

/-- `JanusClient::deletion_request`; `none` where an assertion of `skShareGen` fails. -/
def deletionRequest (c : Client) (keyword : Str) (index : UInt64) : Option (Client × (B × SK)) :=
  let p := deletionPuncture P c keyword index
  if p.d = 0 ∨ p.tag = P.NULLTAG then none
  else
    let ks := P.incPuncture p
    let (ramCounter, req, _) := Diana.updateRequest P.del c.deletion (c.metaKw keyword) ks
    some ({ c with deletion := ramCounter }, req)

/-- What `search_request` does to the counters. -/
def Client.endEpoch (c : Client) (keyword : Str) (addCount delCount : UInt32) : Client where
  search_counter_map :=
    if addCount > 0 ∨ delCount > 0 then
      Function.update c.search_counter_map keyword (some (c.searchCounter keyword + 1))
    else c.search_counter_map
  insertion := if addCount > 0 then Function.update c.insertion (c.metaKw keyword) none else c.insertion
  deletion := if delCount > 0 then Function.update c.deletion (c.metaKw keyword) none else c.deletion

omit [XorOp CT] [XorOp SK] [DecidableEq B] in
/-- `JanusClient::search_request`. -/
def searchRequest (c : Client) (keyword : Str) : Option (Client × SearchRequest B SK) := do
  let m_kw := c.metaKw keyword
  let insReq ← Diana.searchRequest P.ins c.insertion m_kw
  let delReq ← Diana.searchRequest P.del c.deletion m_kw
  some (c.endEpoch keyword insReq.add_count delReq.add_count,
    ⟨P.kwToken keyword, insReq, delReq, P.initialKeyshare (P.punctEnc m_kw) delReq.add_count.toNat⟩)

end

/-! ## Meta keywords -/

theorem hexDigit_inj {d d' : Nat} (h : d < 16) (h' : d' < 16) (e : hexDigit d = hexDigit d') : d = d' := by
  unfold hexDigit at e
  split_ifs at e <;> rw [toUInt8_eq_iff] at e <;> omega

theorem length_hexString (width a : Nat) : (hexString width a).length = width := by
  induction width generalizing a with
  | zero => rfl
  | succ width ih => rw [hexString, List.length_append, ih, List.length_singleton]

theorem hexString_inj {width a b : Nat} (ha : a < 16 ^ width) (hb : b < 16 ^ width)
    (e : hexString width a = hexString width b) : a = b := by
  induction width generalizing a b with
  | zero => omega
  | succ width ih =>
    rw [hexString, hexString] at e
    obtain ⟨e1, e2⟩ := List.append_inj' e rfl
    have hdig := hexDigit_inj (Nat.mod_lt a (by omega)) (Nat.mod_lt b (by omega)) (List.singleton_injective e2)
    have hdiv := ih (by omega) (by omega) e1
    omega

/-- **Meta keywords** tell keyword and counter. -/
theorem metaKeyword_inj {kw kw' : Str} {n n' : UInt32} (e : metaKeyword kw n = metaKeyword kw' n') :
    kw = kw' ∧ n = n' := by
  obtain ⟨e1, e2⟩ := List.append_inj e (by rw [length_hexString, length_hexString])
  have hn := n.toNat_lt
  have hn' := n'.toNat_lt
  exact ⟨e2, UInt32.toNat_inj.1 (hexString_inj (by omega) (by omega) e1)⟩

theorem keywordDocString_inj {kw kw' : Str} {n n' : UInt64} (e : keywordDocString kw n = keywordDocString kw' n') :
    kw = kw' ∧ n = n' := by
  unfold keywordDocString at e
  rw [List.append_assoc, List.append_assoc] at e
  obtain ⟨e1, e2⟩ := List.append_inj e (by rw [length_hexString, length_hexString])
  have hn := n.toNat_lt
  have hn' := n'.toNat_lt
  exact ⟨List.append_cancel_left e2, UInt64.toNat_inj.1 (hexString_inj (by omega) (by omega) e1)⟩

/-! ## Counters -/

/-- The counter after `n` updates. -/
def counterAfter (n : Nat) : Option UInt32 := if n = 0 then none else some (UInt32.ofNat (n - 1))

theorem nextCnt_counterAfter (n : Nat) : some (nextCnt (counterAfter n)) = counterAfter (n + 1) := by
  unfold counterAfter nextCnt
  by_cases hn : n = 0
  · rw [hn]
    rfl
  · rw [if_neg hn, if_neg (by omega), Nat.add_sub_cancel]
    show some (UInt32.ofNat (n - 1) + UInt32.ofNat 1) = _
    rw [← UInt32.ofNat_add, Nat.sub_add_cancel (by omega)]

/-- A search request for a keyword with a counter has a count: the number of leaves is no multiple of `2^32`. -/
theorem searchRequest_add_count {B T : Type*} {P : Diana.Prims B T} {ramCounter : Str → Option UInt32} {k : Str}
    {req : Diana.SearchRequest B} (h : Diana.searchRequest P ramCounter k = some req) :
    (ramCounter k = none ∧ req.add_count = 0) ∨
      ∃ c, ramCounter k = some c ∧ req.add_count = c + 1 ∧ req.add_count ≠ 0 := by
  unfold Diana.searchRequest at h
  cases hc : ramCounter k with
  | none =>
    rw [hc] at h
    exact .inl ⟨rfl, by rw [← Option.some.inj h]⟩
  | some c =>
    rw [hc] at h
    obtain ⟨l, hl, rfl⟩ := Option.map_eq_some_iff.1 h
    refine .inr ⟨c, rfl, rfl, fun hz => ?_⟩
    rw [show (c + 1 : UInt32) = 0 from hz, UInt32.toNat_zero, Diana.coveringList_zero] at hl
    cases hl

theorem searchRequest_pos_iff {B T : Type*} {P : Diana.Prims B T} {ramCounter : Str → Option UInt32} {k : Str}
    {req : Diana.SearchRequest B} (h : Diana.searchRequest P ramCounter k = some req) :
    req.add_count > 0 ↔ ramCounter k ≠ none := by
  rcases searchRequest_add_count h with ⟨h1, h2⟩ | ⟨c, h1, -, h2⟩
  · simp [h1, h2]
  · simp only [h1, ne_eq, reduceCtorEq, not_false_eq_true, iff_true, gt_iff_lt]
    exact UInt32.pos_iff_ne_zero.2 h2

/-! ## The end of an epoch -/

theorem endEpoch_searchCounter_self (c : Client) (w : Str) (addCount delCount : UInt32) :
    (c.endEpoch w addCount delCount).searchCounter w =
      if addCount > 0 ∨ delCount > 0 then c.searchCounter w + 1 else c.searchCounter w := by
  unfold Client.endEpoch Client.searchCounter
  simp only
  split_ifs
  · rw [Function.update_self]
    rfl
  · rfl

theorem endEpoch_searchCounter_of_ne (c : Client) {w k : Str} (h : k ≠ w) (addCount delCount : UInt32) :
    (c.endEpoch w addCount delCount).searchCounter k = c.searchCounter k := by
  unfold Client.endEpoch Client.searchCounter
  simp only
  split_ifs
  · rw [Function.update_of_ne h]
  · rfl

/-- A search leaves its meta keyword without counters. -/
theorem endEpoch_counters {B T T' : Type*} {I : Diana.Prims B T} {D : Diana.Prims B T'} {c : Client} {w : Str}
    {insReq delReq : Diana.SearchRequest B} (hI : Diana.searchRequest I c.insertion (c.metaKw w) = some insReq)
    (hD : Diana.searchRequest D c.deletion (c.metaKw w) = some delReq) :
    (c.endEpoch w insReq.add_count delReq.add_count).insertion = Function.update c.insertion (c.metaKw w) none ∧
      (c.endEpoch w insReq.add_count delReq.add_count).deletion = Function.update c.deletion (c.metaKw w) none := by
  have hI' := searchRequest_pos_iff hI
  have hD' := searchRequest_pos_iff hD
  constructor
  · show (if insReq.add_count > 0 then _ else _) = _
    split_ifs with hpos
    · rfl
    · have hnone : c.insertion (c.metaKw w) = none := not_not.1 fun hne => hpos (hI'.2 hne)
      rw [← hnone, Function.update_eq_self]
  · show (if delReq.add_count > 0 then _ else _) = _
    split_ifs with hpos
    · rfl
    · have hnone : c.deletion (c.metaKw w) = none := not_not.1 fun hne => hpos (hD'.2 hne)
      rw [← hnone, Function.update_eq_self]

end Sse.Janus
