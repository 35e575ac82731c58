import Sse.Diana.Batch
import Sse.Janus.Epochs

/-!
# Search in Janus

The results of a keyword are in two places: in the cache, what was alive at the last
search, and under the meta keyword in use, the insertions and deletions of the current
epoch (`Shelved`).  Every call keeps this for all keywords (`Inv.step`), and both searches
return and cache what is alive at the end of the epoch        (janus_search_exact)
-/

namespace Sse.Janus

section

variable {B CT SK R : Type} [XorOp CT] [XorOp SK]

/-- The meta keywords of the keywords `W`, through `E w` ended epochs of `w`. -/
def MetaKeys (W : Str → Prop) (E : Str → Nat) (k : Str) : Prop :=
  ∃ w e, W w ∧ e ≤ E w ∧ k = metaKeyword w (UInt32.ofNat e)

/-- What the cryptography guarantees for the keywords `W`: tokens and tags differ, and a punctured key decrypts
exactly the ciphertexts whose tag is not among the tags of its shares. -/
structure Prims.Sound [DecidableEq B] (P : Prims B CT SK R) (W : Str → Prop) (E : Str → Nat) : Prop where
  insSplits : Diana.Splits P.ins.derive P.ins.derive32
  delSplits : Diana.Splits P.del.derive P.del.derive32
  insTokens : ∀ k k' i i', MetaKeys W E k → MetaKeys W E k' → i < 2 ^ 32 → i' < 2 ^ 32 →
    Diana.token P.ins k i = Diana.token P.ins k' i' → k = k' ∧ i = i'
  delTokens : ∀ k k' i i', MetaKeys W E k → MetaKeys W E k' → i < 2 ^ 32 → i' < 2 ^ 32 →
    Diana.token P.del k i = Diana.token P.del k' i' → k = k' ∧ i = i'
  kwToken : ∀ w w', W w → W w' → P.kwToken w = P.kwToken w' → w = w'
  tag : ∀ w w' ind ind', W w → W w' → P.tag (keywordDocString w ind) = P.tag (keywordDocString w' ind') →
    w = w' ∧ ind = ind'
  tag_ne : ∀ w ind, W w → P.tag (keywordDocString w ind) ≠ P.NULLTAG
  ctTag : ∀ e, P.ctTag (P.encrypt e) = e.tag
  skTag : ∀ p, P.skTag (P.incPuncture p) = p.tag
  decrypt : ∀ (key : B) (d : Nat) (ps : List (Puncture B)) (e : Encryption B R), e.key = key → (∀ p ∈ ps, p.key = key) →
    P.decrypt (P.initialKeyshare key d :: ps.map P.incPuncture) (P.encrypt e) =
      if e.tag ∈ ps.map Puncture.tag then none else some e.m

/-- What is kept for the keyword `w`, whose history is `h`: its counter, the tables of its meta keywords, and its cache. -/
structure Shelved (P : Prims B CT SK R) (w : Str) (h : History) (counter : UInt32)
    (tabI : Str → Diana.Table (Encryption B R)) (tabD : Str → Diana.Table (Puncture B)) (cache : List (CachedResult B)) :
    Prop where
  count : counter = UInt32.ofNat h.ended.length
  ins : ∃ es, tabI (metaKeyword w counter) = Diana.Table.batch es ∧ es.map Encryption.m = h.current.ins ∧
    ∀ e ∈ es, e.key = P.punctEnc (metaKeyword w counter) ∧ e.tag = P.tag (keywordDocString w e.m)
  del : ∃ ps, tabD (metaKeyword w counter) = Diana.Table.batch ps ∧
    ps.map Puncture.tag = h.current.del.map (fun ind => P.tag (keywordDocString w ind)) ∧
    ∀ p ∈ ps, p.key = P.punctEnc (metaKeyword w counter)
  future : ∀ e, h.ended.length < e → e < 2 ^ 32 →
    tabI (metaKeyword w (UInt32.ofNat e)) = .empty ∧ tabD (metaKeyword w (UInt32.ofNat e)) = .empty
  cached : (cache.map Prod.fst).Perm (alive h.ended)
  tags : ∀ c ∈ cache, c.2 = P.tag (keywordDocString w c.1)

/-- Client and server after the calls `us`. -/
structure Inv (P : Prims B CT SK R) (W : Str → Prop) (E : Str → Nat) (us : List (Op R)) (st : State B CT SK)
    (tabI : Str → Diana.Table (Encryption B R)) (tabD : Str → Diana.Table (Puncture B)) : Prop where
  ins : Diana.Stores P.ins (MetaKeys W E) (fun _ e => P.encrypt e) st.client.insertion st.server.insertion tabI
  del : Diana.Stores P.del (MetaKeys W E) (fun _ p => P.incPuncture p) st.client.deletion st.server.deletion tabD
  word : ∀ w, W w → Shelved P w (history w us) (st.client.searchCounter w) tabI tabD
    ((st.server.cached_results_edb (P.kwToken w)).getD [])

theorem inv_init (P : Prims B CT SK R) (W : Str → Prop) (E : Str → Nat) :
    Inv P W E [] .init (fun _ => .empty) (fun _ => .empty) where
  ins := ⟨fun _ => rfl, fun _ _ _ _ => rfl⟩
  del := ⟨fun _ => rfl, fun _ _ _ _ => rfl⟩
  word w _ := {
    count := rfl
    ins := ⟨[], rfl, rfl, by simp⟩
    del := ⟨[], rfl, rfl, by simp⟩
    future := fun _ _ _ => ⟨rfl, rfl⟩
    cached := List.Perm.refl _
    tags := by simp [State.init] }

variable {P : Prims B CT SK R} {W : Str → Prop} {E : Str → Nat} {us : List (Op R)} {st : State B CT SK}
  {tabI : Str → Diana.Table (Encryption B R)} {tabD : Str → Diana.Table (Puncture B)}

omit [XorOp CT] [XorOp SK] in
/-- Only the tables of the keyword's own meta keywords matter. -/
theorem Shelved.congr {w : Str} {h : History} {counter : UInt32} {cache : List (CachedResult B)}
    (hw : Shelved P w h counter tabI tabD cache) {tabI' : Str → Diana.Table (Encryption B R)}
    {tabD' : Str → Diana.Table (Puncture B)} (hI : ∀ n, tabI' (metaKeyword w n) = tabI (metaKeyword w n))
    (hD : ∀ n, tabD' (metaKeyword w n) = tabD (metaKeyword w n)) : Shelved P w h counter tabI' tabD' cache where
  count := hw.count
  ins := by
    rw [hI]
    exact hw.ins
  del := by
    rw [hD]
    exact hw.del
  future e h1 h2 := by
    rw [hI, hD]
    exact hw.future e h1 h2
  cached := hw.cached
  tags := hw.tags

omit [XorOp CT] [XorOp SK] in
/-- The meta keywords of later epochs. -/
theorem Shelved.future_ne {w : Str} {h : History} {counter : UInt32} {cache : List (CachedResult B)}
    (hw : Shelved P w h counter tabI tabD cache) {e : Nat} (h1 : h.ended.length < e) (h2 : e < 2 ^ 32) :
    metaKeyword w (UInt32.ofNat e) ≠ metaKeyword w counter := by
  intro he
  have hn := congrArg UInt32.toNat (metaKeyword_inj he).2
  rw [hw.count, UInt32.toNat_ofNat', UInt32.toNat_ofNat'] at hn
  omega

omit [XorOp CT] [XorOp SK] in
theorem Shelved.metaKey {w : Str} {h : History} {counter : UInt32} {cache : List (CachedResult B)}
    (hw : Shelved P w h counter tabI tabD cache) (hW : W w) (hE : h.ended.length ≤ E w) :
    MetaKeys W E (metaKeyword w counter) := ⟨w, h.ended.length, hW, hE, by rw [hw.count]⟩

variable [DecidableEq B]

/-! ## Insertions and deletions -/

theorem Inv.insert (h : Inv P W E us st tabI tabD) (hP : P.Sound W E) {w : Str} (hW : W w) (ind : UInt64) (s : R)
    (hE : (history w us).ended.length ≤ E w) (hsmall : (history w (us ++ [.insertKeyword w ind s])).Small)
    (usehdd : Bool) :
    ∃ st' tabI' tabD', step P usehdd st (.insertKeyword w ind s) = some (st', []) ∧
      Inv P W E (us ++ [.insertKeyword w ind s]) st' tabI' tabD' := by
  have hw := h.word w hW
  obtain ⟨es, htab, hms, hes⟩ := hw.ins
  set e : Encryption B R := insertionEncryption P st.client w ind s with he
  have hnext : history w (us ++ [.insertKeyword w ind s]) =
      ⟨(history w us).ended, ⟨(history w us).current.ins ++ [ind], (history w us).current.del⟩⟩ := by
    rw [history_concat]
    exact if_pos rfl
  have hlen : es.length < 2 ^ 32 := by
    have hcur := (hsmall.of_next_concat.epochs (history w us).current (by simp)).1
    rw [← hms, List.length_map] at hcur
    exact hcur
  set req := Diana.updateRequest P.ins st.client.insertion (st.client.metaKw w) (P.encrypt e) with hreq
  have hstep : step P usehdd st (.insertKeyword w ind s) = some
      (⟨⟨st.client.search_counter_map, req.1, st.client.deletion⟩,
        ⟨serverUpdate usehdd st.server.insertion req.2.1, st.server.deletion, st.server.cached_results_edb⟩⟩, []) := by
    have htag : (insertionEncryption P st.client w ind s).tag ≠ P.NULLTAG := hP.tag_ne w ind hW
    simp only [step, insertionRequest]
    rw [if_neg htag]
    rfl
  have hins := h.ins.update hP.insTokens (hw.metaKey hW hE) e usehdd
  set m := metaKeyword w (st.client.searchCounter w) with hm
  refine ⟨_, Function.update tabI m ((tabI m).push usehdd e), tabD, hstep, hins, h.del, ?_⟩
  intro k hk
  by_cases hkw : w = k
  · subst hkw
    rw [hnext]
    refine ⟨hw.count, ⟨es ++ [e], ?_, ?_, ?_⟩, hw.del, ?_, hw.cached, hw.tags⟩
    · show Function.update tabI m _ m = _
      rw [Function.update_self, htab, Diana.Table.push_batch hlen]
    · rw [List.map_append, hms]
      rfl
    · intro e' he'
      rcases List.mem_append.1 he' with he' | he'
      · exact hes e' he'
      · rw [List.mem_singleton.1 he']
        exact ⟨rfl, rfl⟩
    · intro j h1 h2
      rw [Function.update_of_ne (hw.future_ne h1 h2)]
      exact hw.future j h1 h2
  · have hsame : history k (us ++ [.insertKeyword w ind s]) = history k us := by
      rw [history_concat]
      exact next_ended_of_ne hkw
    rw [hsame]
    refine (h.word k hk).congr (fun n => ?_) fun _ => rfl
    have hne : metaKeyword k n ≠ m := fun e => hkw (metaKeyword_inj e).1.symm
    rw [Function.update_of_ne hne]

theorem Inv.delete (h : Inv P W E us st tabI tabD) (hP : P.Sound W E) {w : Str} (hW : W w) (ind : UInt64)
    (hE : (history w us).ended.length ≤ E w)
    (hsmall : (history w (us ++ [(.deleteKeyword w ind : Op R)])).Small) (usehdd : Bool) :
    ∃ st' tabI' tabD', step P usehdd st (.deleteKeyword w ind) = some (st', []) ∧
      Inv P W E (us ++ [.deleteKeyword w ind]) st' tabI' tabD' := by
  have hw := h.word w hW
  obtain ⟨ps, htab, htags, hps⟩ := hw.del
  set p : Puncture B := deletionPuncture P st.client w ind with hp
  have hnext : history w (us ++ [.deleteKeyword w ind]) =
      ⟨(history w us).ended, ⟨(history w us).current.ins, (history w us).current.del ++ [ind]⟩⟩ := by
    rw [history_concat]
    exact if_pos rfl
  have hlen : ps.length < 2 ^ 32 := by
    have hcur := (hsmall.of_next_concat.epochs (history w us).current (by simp)).2
    have hmap := congrArg List.length htags
    rw [List.length_map, List.length_map] at hmap
    omega
  -- the index is not 0
  have hindex : p.d ≠ 0 := by
    have hcnt : st.client.deletion (st.client.metaKw w) = (Diana.Table.batch ps).cnt := by
      rw [h.del.ram, Client.metaKw, htab]
    show (getMatchCount st.client.deletion (st.client.metaKw w) + 1).toNat ≠ 0
    unfold getMatchCount
    rw [hcnt]
    unfold Diana.Table.batch
    by_cases hnil : ps = []
    · rw [if_pos hnil]
      show ((0 : UInt32) + 1).toNat ≠ 0
      decide
    · have hpos := List.length_pos_of_ne_nil hnil
      rw [if_neg hnil, Option.getD_some]
      show (UInt32.ofNat (ps.length - 1) + UInt32.ofNat 1).toNat ≠ 0
      rw [← UInt32.ofNat_add, Nat.sub_add_cancel hpos, UInt32.toNat_ofNat']
      omega
  set req := Diana.updateRequest P.del st.client.deletion (st.client.metaKw w) (P.incPuncture p) with hreq
  have hstep : step P usehdd st (.deleteKeyword w ind) = some
      (⟨⟨st.client.search_counter_map, st.client.insertion, req.1⟩,
        ⟨st.server.insertion, serverUpdate usehdd st.server.deletion req.2.1, st.server.cached_results_edb⟩⟩, []) := by
    have htag : ¬ ((deletionPuncture P st.client w ind).d = 0 ∨ (deletionPuncture P st.client w ind).tag = P.NULLTAG) :=
      not_or.2 ⟨hindex, hP.tag_ne w ind hW⟩
    simp only [step, deletionRequest]
    rw [if_neg htag]
    rfl
  have hdel := h.del.update hP.delTokens (hw.metaKey hW hE) p usehdd
  set m := metaKeyword w (st.client.searchCounter w) with hm
  refine ⟨_, tabI, Function.update tabD m ((tabD m).push usehdd p), hstep, h.ins, hdel, ?_⟩
  intro k hk
  by_cases hkw : w = k
  · subst hkw
    rw [hnext]
    refine ⟨hw.count, hw.ins, ⟨ps ++ [p], ?_, ?_, ?_⟩, ?_, hw.cached, hw.tags⟩
    · show Function.update tabD m _ m = _
      rw [Function.update_self, htab, Diana.Table.push_batch hlen]
    · rw [List.map_append, htags, List.map_append]
      rfl
    · intro p' hp'
      rcases List.mem_append.1 hp' with hp' | hp'
      · exact hps p' hp'
      · rw [List.mem_singleton.1 hp']
        rfl
    · intro j h1 h2
      rw [Function.update_of_ne (hw.future_ne h1 h2)]
      exact hw.future j h1 h2
  · have hsame : history k (us ++ [.deleteKeyword w ind]) = history k us := by
      rw [history_concat]
      exact next_ended_of_ne hkw
    rw [hsame]
    refine (h.word k hk).congr (fun _ => rfl) fun n => ?_
    have hne : metaKeyword k n ≠ m := fun e => hkw (metaKeyword_inj e).1.symm
    rw [Function.update_of_ne hne]

/-! ## Searches -/

omit [XorOp CT] [XorOp SK] in
/-- **The key of an epoch** decrypts what was inserted and not deleted in it. -/
theorem decryptAll_epoch (hP : P.Sound W E) {key : B} {d : Nat} {es : List (Encryption B R)} {ps : List (Puncture B)}
    (hes : ∀ e ∈ es, e.key = key) (hps : ∀ p ∈ ps, p.key = key) :
    decryptAll P (P.initialKeyshare key d :: ps.map P.incPuncture) (es.map P.encrypt) =
      (es.filter (·.tag ∉ ps.map Puncture.tag)).map fun e => (e.m, e.tag) := by
  unfold decryptAll
  induction es with
  | nil => rfl
  | cons e es ih =>
    have hrest := ih fun e' he' => hes e' (List.mem_cons_of_mem _ he')
    have hdec := hP.decrypt key d ps e (hes e List.mem_cons_self) hps
    rw [List.map_cons, List.filterMap_cons, hrest, hdec]
    by_cases ht : e.tag ∈ ps.map Puncture.tag
    · rw [if_pos ht, List.filter_cons_of_neg (by simpa using ht)]
      rfl
    · rw [if_neg ht, List.filter_cons_of_pos (by simpa using ht), List.map_cons, Option.map_some, hP.ctTag]

omit [XorOp CT] [XorOp SK] in
/-- What a search of `w` caches: what is alive at the end of the epoch, with the tags. -/
theorem cached_alive (hP : P.Sound W E) {w : Str} (hW : W w) {h : History} {cache : List (CachedResult B)}
    (hcache : (cache.map Prod.fst).Perm (alive h.ended)) (htags : ∀ c ∈ cache, c.2 = P.tag (keywordDocString w c.1))
    {es : List (Encryption B R)} {tags : List B} (hms : es.map Encryption.m = h.current.ins)
    (hes : ∀ e ∈ es, e.tag = P.tag (keywordDocString w e.m))
    (hdel : tags = h.current.del.map fun ind => P.tag (keywordDocString w ind)) :
    ((cache.filter (·.2 ∉ tags) ++ (es.filter (·.tag ∉ tags)).map fun e => (e.m, e.tag)).map Prod.fst).Perm h.alive ∧
      ∀ c ∈ cache.filter (·.2 ∉ tags) ++ (es.filter (·.tag ∉ tags)).map (fun e => (e.m, e.tag)),
        c.2 = P.tag (keywordDocString w c.1) := by
  -- a tag tells its ind
  have hmem : ∀ ind, P.tag (keywordDocString w ind) ∈ tags ↔ ind ∈ h.current.del := by
    intro ind
    rw [hdel, List.mem_map]
    constructor
    · rintro ⟨ind', h1, h2⟩
      rw [← (hP.tag w w ind' ind hW hW h2).2]
      exact h1
    · intro h1
      exact ⟨ind, h1, rfl⟩
  have hold : (cache.filter (·.2 ∉ tags)).map Prod.fst = (cache.map Prod.fst).filter (· ∉ h.current.del) := by
    rw [List.filter_map]
    congr 1
    apply List.filter_congr
    intro c hc
    show decide (c.2 ∉ tags) = decide (c.1 ∉ h.current.del)
    rw [decide_eq_decide, htags c hc, hmem]
  have hnew : ((es.filter (·.tag ∉ tags)).map fun e => (e.m, e.tag)).map Prod.fst =
      h.current.ins.filter (· ∉ h.current.del) := by
    rw [← hms, List.filter_map, List.map_map]
    show (es.filter _).map Encryption.m = _
    congr 1
    apply List.filter_congr
    intro e he
    show decide (e.tag ∉ tags) = decide (e.m ∉ h.current.del)
    rw [decide_eq_decide, hes e he, hmem]
  constructor
  · rw [List.map_append, hold, hnew, History.alive, alive_concat, List.filter_append]
    exact (hcache.filter _).append_right _
  · intro c hc
    rcases List.mem_append.1 hc with hc | hc
    · exact htags c (List.mem_of_mem_filter hc)
    · obtain ⟨e, he, rfl⟩ := List.mem_map.1 hc
      exact hes e (List.mem_of_mem_filter he)

variable [LawfulXor CT] [LawfulXor SK]

/-- **Both searches** of an epoch: they leave the tables of other keys alone, and return and cache the same in some order. -/
theorem answer_epoch (hP : P.Sound W E) {ramI ramD : Str → Option UInt32} {server : Server B CT SK}
    (hI : Diana.Stores P.ins (MetaKeys W E) (fun _ e => P.encrypt e) ramI server.insertion tabI)
    (hD : Diana.Stores P.del (MetaKeys W E) (fun _ p => P.incPuncture p) ramD server.deletion tabD) {m : Str}
    (hm : MetaKeys W E m) {es : List (Encryption B R)} {ps : List (Puncture B)} (hes : tabI m = Diana.Table.batch es)
    (hps : tabD m = Diana.Table.batch ps) (hesl : es.length < 2 ^ 32) (hpsl : ps.length < 2 ^ 32)
    {req : SearchRequest B SK} (hcI : req.insertion_search_request.add_count = UInt32.ofNat es.length)
    (hlI : Diana.leaves P.ins.derive32 req.insertion_search_request.token_list =
      (List.range es.length).map (Diana.leaf P.ins m))
    (hcD : req.deletion_search_request.add_count = UInt32.ofNat ps.length)
    (hlD : Diana.leaves P.del.derive32 req.deletion_search_request.token_list =
      (List.range ps.length).map (Diana.leaf P.del m)) {usehdd : Bool} (path : Path)
    (hone : path.Lone usehdd es.length ps.length) :
    ∃ server' res cache slotI slotD, server.answer P usehdd req path = some (server', res) ∧
      (es = [] → slotI = fun _ => none) ∧ (ps = [] → slotD = fun _ => none) ∧
      Diana.Stores P.ins (MetaKeys W E) (fun _ e => P.encrypt e) ramI server'.insertion
        (Function.update tabI m ⟨(tabI m).cnt, slotI⟩) ∧
      Diana.Stores P.del (MetaKeys W E) (fun _ p => P.incPuncture p) ramD server'.deletion
        (Function.update tabD m ⟨(tabD m).cnt, slotD⟩) ∧
      server'.cached_results_edb = Function.update server.cached_results_edb req.keyword_token (some cache) ∧
      cache.Perm (filterCache P server req.keyword_token (ps.map P.incPuncture) ++
        decryptAll P (req.first_key_share :: ps.map P.incPuncture) (es.map P.encrypt)) ∧
      res.Perm (cache.map Prod.fst) := by
  set cached := filterCache P server req.keyword_token (ps.map P.incPuncture) with hcached
  set new := decryptAll P (req.first_key_share :: ps.map P.incPuncture) (es.map P.encrypt) with hnew
  cases path with
  | search insPick delPick =>
    obtain ⟨edbI, slotI, h1, h2, h3⟩ := hI.taking_batch hP.insSplits hP.insTokens hm hes hesl hcI hlI
      (show 1 ≤ (8 : UInt8) by decide) (hone.imp_right And.left) insPick
    obtain ⟨edbD, slotD, h4, h5, h6⟩ := hD.taking_batch hP.delSplits hP.delTokens hm hps hpsl hcD hlD
      (show 1 ≤ (8 : UInt8) by decide) (hone.imp_right And.right) delPick
    refine ⟨⟨edbI, edbD, Function.update server.cached_results_edb req.keyword_token (some (cached ++ new))⟩,
      cached.map Prod.fst ++ new.map Prod.fst, cached ++ new, slotI, slotD, ?_, h2, h5, h3, h6, rfl, List.Perm.refl _, ?_⟩
    · simp only [Server.answer, Server.search, h1, h4, Option.bind_eq_bind, Option.bind_some]
      rfl
    · rw [List.map_append]
  | searchParallel threads_count hth pick =>
    obtain ⟨edbD, slotD, h4, h5, h6⟩ := hD.taking_batch hP.delSplits hP.delTokens hm hps hpsl hcD hlD
      (UInt8.le_of_lt hth) hone pick
    have hkeep := hI.search_batch hm hes hesl hlI
    have hself : Function.update tabI m ⟨(tabI m).cnt, (tabI m).slot⟩ = tabI := Function.update_eq_self m tabI
    set posted : List (UInt64 × Nat) := cached.map (fun it => (it.1, threads_count.toNat - 1)) ++ new.map fun it => (it.1, 1)
      with hposted
    refine ⟨⟨server.insertion, edbD, Function.update server.cached_results_edb req.keyword_token (some (new ++ cached))⟩,
      (List.range threads_count.toNat).flatMap fun i => (posted.filter (·.2 = i)).map Prod.fst, new ++ cached,
      (tabI m).slot, slotD, ?_, ?_, h5, hself.symm ▸ hI, h6, rfl, List.perm_append_comm, ?_⟩
    · have hnot : ¬ threads_count ≤ 1 := UInt8.not_le.2 hth
      simp only [Server.answer, Server.searchParallel, if_neg hnot, h4, hkeep, Option.bind_eq_bind, Option.bind_some]
      rfl
    · rintro rfl
      rw [hes]
      rfl
    · -- the lists of the jobs 1 and `threads_count - 1`
      have hn : 1 < threads_count.toNat := hth
      refine (Diana.flatMap_filter_perm _ _).trans ?_
      rw [List.filter_eq_self.2, hposted, List.map_append, List.map_append, List.map_map, List.map_map]
      · exact List.perm_append_comm
      · intro p hp
        rw [decide_eq_true_eq]
        rcases List.mem_append.1 hp with hp | hp
        · obtain ⟨c, -, rfl⟩ := List.mem_map.1 hp
          show threads_count.toNat - 1 < threads_count.toNat
          omega
        · obtain ⟨c, -, rfl⟩ := List.mem_map.1 hp
          exact hn

omit [XorOp CT] [XorOp SK] [DecidableEq B] [LawfulXor CT] [LawfulXor SK] in
/-- What a search leaves of its keyword. -/
theorem Shelved.search {w : Str} {h : History} {counter : UInt32} {cache cache' : List (CachedResult B)}
    (hw : Shelved P w h counter tabI tabD cache) {es : List (Encryption B R)} {ps : List (Puncture B)}
    {slotI : UInt32 → Option (Encryption B R)} {slotD : UInt32 → Option (Puncture B)}
    (htabI : tabI (metaKeyword w counter) = Diana.Table.batch es) (hms : es.map Encryption.m = h.current.ins)
    (htabD : tabD (metaKeyword w counter) = Diana.Table.batch ps)
    (htags : ps.map Puncture.tag = h.current.del.map fun ind => P.tag (keywordDocString w ind))
    (hslotI : es = [] → slotI = fun _ => none) (hslotD : ps = [] → slotD = fun _ => none)
    (halive : (cache'.map Prod.fst).Perm h.alive) (htagged : ∀ c ∈ cache', c.2 = P.tag (keywordDocString w c.1))
    {path : Path} (hsmall : (h.next w (.searchKeyword w path : Op R)).Small) :
    Shelved P w (h.next w (.searchKeyword w path : Op R)) (if es ≠ [] ∨ ps ≠ [] then counter + 1 else counter)
      (Function.update tabI (metaKeyword w counter) ⟨none, slotI⟩)
      (Function.update tabD (metaKeyword w counter) ⟨none, slotD⟩) cache' := by
  have hcurrent : h.current = ⟨[], []⟩ ↔ es = [] ∧ ps = [] := by
    obtain ⟨ended, ins, del⟩ := h
    simp only at hms htags
    rw [Epoch.mk.injEq, ← hms, List.map_eq_nil_iff, ← List.map_eq_nil_iff (f := Puncture.tag) (l := ps), htags,
      List.map_eq_nil_iff]
  by_cases hnone : h.current = ⟨[], []⟩
  · obtain ⟨rfl, rfl⟩ := hcurrent.1 hnone
    have hnext : h.next w (.searchKeyword w path : Op R) = h := if_neg fun hk => hk.2 hnone
    have hsameI : Function.update tabI (metaKeyword w counter) ⟨none, slotI⟩ = tabI := by
      rw [hslotI rfl, show (⟨none, fun _ => none⟩ : Diana.Table (Encryption B R)) = .batch [] from rfl, ← htabI,
        Function.update_eq_self]
    have hsameD : Function.update tabD (metaKeyword w counter) ⟨none, slotD⟩ = tabD := by
      rw [hslotD rfl, show (⟨none, fun _ => none⟩ : Diana.Table (Puncture B)) = .batch [] from rfl, ← htabD,
        Function.update_eq_self]
    rw [hnext, hsameI, hsameD, if_neg (by simp)]
    have hcached : (cache'.map Prod.fst).Perm (alive h.ended) := by
      rw [History.alive, hnone, alive_concat_empty] at halive
      exact halive
    exact ⟨hw.count, hw.ins, hw.del, hw.future, hcached, htagged⟩
  · have hnext : h.next w (.searchKeyword w path : Op R) = ⟨h.ended ++ [h.current], ⟨[], []⟩⟩ := if_pos ⟨rfl, hnone⟩
    have hany : es ≠ [] ∨ ps ≠ [] := by
      by_contra hnot
      rw [not_or, not_not, not_not] at hnot
      exact hnone (hcurrent.2 hnot)
    rw [hnext] at hsmall ⊢
    have hended := hsmall.ended
    rw [List.length_append, List.length_singleton] at hended
    have hcount : counter + 1 = UInt32.ofNat (h.ended.length + 1) := by
      rw [hw.count, UInt32.ofNat_add]
      rfl
    rw [if_pos hany, hcount]
    have hfresh : ∀ e, h.ended.length < e → e < 2 ^ 32 →
        Function.update tabI (metaKeyword w counter) ⟨none, slotI⟩ (metaKeyword w (UInt32.ofNat e)) = .empty ∧
          Function.update tabD (metaKeyword w counter) ⟨none, slotD⟩ (metaKeyword w (UInt32.ofNat e)) = .empty := by
      intro e h1 h2
      rw [Function.update_of_ne (hw.future_ne h1 h2), Function.update_of_ne (hw.future_ne h1 h2)]
      exact hw.future e h1 h2
    obtain ⟨hfI, hfD⟩ := hfresh (h.ended.length + 1) (by omega) (by omega)
    refine ⟨by rw [List.length_append]; rfl, ⟨[], hfI, rfl, by simp⟩, ⟨[], hfD, rfl, by simp⟩, fun e h1 h2 => ?_, halive,
      htagged⟩
    rw [List.length_append, List.length_singleton] at h1
    exact hfresh e (by omega) h2

/-- **A search** returns what is alive, and moves on to the next epoch. -/
theorem Inv.search (h : Inv P W E us st tabI tabD) (hP : P.Sound W E) {w : Str} (hW : W w) (path : Path)
    (hE : (history w us).ended.length ≤ E w)
    (hsmall : (history w (us ++ [(.searchKeyword w path : Op R)])).Small) {usehdd : Bool}
    (hone : Lone usehdd us (.searchKeyword w path)) :
    ∃ st' res tabI' tabD', step P usehdd st (.searchKeyword w path) = some (st', res) ∧
      res.Perm (history w us).alive ∧ Inv P W E (us ++ [.searchKeyword w path]) st' tabI' tabD' := by
  have hw := h.word w hW
  obtain ⟨es, htabI, hms, hes⟩ := hw.ins
  obtain ⟨ps, htabD, htags, hps⟩ := hw.del
  set c := st.client with hc
  set m := metaKeyword w (c.searchCounter w) with hm
  have hlens : es.length < 2 ^ 32 ∧ ps.length < 2 ^ 32 := by
    have hcur := hsmall.of_next_concat.epochs (history w us).current (by simp)
    have hmap := congrArg List.length hms
    have hmap' := congrArg List.length htags
    rw [List.length_map] at hmap hmap'
    rw [List.length_map] at hmap'
    omega
  obtain ⟨insReq, hreqI, hcI, hlI⟩ : ∃ insReq, Diana.searchRequest P.ins c.insertion m = some insReq ∧ _ ∧ _ :=
    h.ins.request_batch hP.insSplits htabI hlens.1
  obtain ⟨delReq, hreqD, hcD, hlD⟩ : ∃ delReq, Diana.searchRequest P.del c.deletion m = some delReq ∧ _ ∧ _ :=
    h.del.request_batch hP.delSplits htabD hlens.2
  have hone' : path.Lone usehdd es.length ps.length := by
    have hmap := congrArg List.length hms
    have hmap' := congrArg List.length htags
    rw [List.length_map] at hmap
    rw [List.length_map, List.length_map] at hmap'
    rw [hmap, hmap']
    exact hone
  set req : SearchRequest B SK :=
    ⟨P.kwToken w, insReq, delReq, P.initialKeyshare (P.punctEnc m) delReq.add_count.toNat⟩ with hreq
  set c' := c.endEpoch w insReq.add_count delReq.add_count with hc'
  obtain ⟨hramI, hramD⟩ : c'.insertion = Function.update c.insertion m none ∧
      c'.deletion = Function.update c.deletion m none := endEpoch_counters hreqI hreqD
  obtain ⟨server', res, cache, slotI, slotD, hans, hslotI, hslotD, hI, hD, hcache, hperm, hres⟩ :=
    answer_epoch hP h.ins h.del (hw.metaKey hW hE) htabI htabD hlens.1 hlens.2
      (show req.insertion_search_request.add_count = _ from hcI) hlI hcD hlD path hone'
  have hstep : step P usehdd st (.searchKeyword w path) = some (⟨c', server'⟩, res) := by
    simp only [step, searchRequest, Client.metaKw, ← hc, ← hm, hreqI, hreqD, Option.bind_eq_bind, Option.bind_some]
    rw [← hreq, hans]
    rfl
  -- the cache is what is alive at the end of this epoch
  have hskTags : (ps.map P.incPuncture).map P.skTag = ps.map Puncture.tag := by
    rw [List.map_map]
    exact List.map_congr_left fun p _ => hP.skTag p
  have hkeep : cache.Perm (((st.server.cached_results_edb (P.kwToken w)).getD []).filter (·.2 ∉ ps.map Puncture.tag) ++
      (es.filter (·.tag ∉ ps.map Puncture.tag)).map fun e => (e.m, e.tag)) := by
    rw [decryptAll_epoch hP (fun e he => (hes e he).1) hps] at hperm
    refine hperm.trans (List.Perm.append_right _ ?_)
    show (List.filter (fun it : CachedResult B => it.2 ∉ (ps.map P.incPuncture).map P.skTag) _).Perm _
    rw [hskTags]
  obtain ⟨halive, htagged⟩ := cached_alive hP hW hw.cached hw.tags hms (fun e he => (hes e he).2) htags
  have halive' : (cache.map Prod.fst).Perm (history w us).alive := (hkeep.map _).trans halive
  have htagged' : ∀ x ∈ cache, x.2 = P.tag (keywordDocString w x.1) := fun x hx => htagged x (hkeep.subset hx)
  refine ⟨⟨c', server'⟩, res, Function.update tabI m ⟨none, slotI⟩, Function.update tabD m ⟨none, slotD⟩, hstep,
    hres.trans halive', ?_, ?_, fun k hk => ?_⟩
  · have hforget := hI.forget m
    rw [Function.update_idem, Function.update_self] at hforget
    show Diana.Stores P.ins _ _ c'.insertion server'.insertion _
    rw [hramI]
    exact hforget
  · have hforget := hD.forget m
    rw [Function.update_idem, Function.update_self] at hforget
    show Diana.Stores P.del _ _ c'.deletion server'.deletion _
    rw [hramD]
    exact hforget
  · show Shelved P k _ (c'.searchCounter k) _ _ ((server'.cached_results_edb (P.kwToken k)).getD [])
    rw [hcache]
    by_cases hkw : w = k
    · subst hkw
      have hcacheW : (Function.update st.server.cached_results_edb req.keyword_token (some cache) (P.kwToken w)).getD [] =
          cache := by
        show (Function.update st.server.cached_results_edb (P.kwToken w) (some cache) (P.kwToken w)).getD [] = cache
        rw [Function.update_self]
        rfl
      have hcount : c'.searchCounter w = if es ≠ [] ∨ ps ≠ [] then c.searchCounter w + 1 else c.searchCounter w := by
        have hI' : insReq.add_count > 0 ↔ es ≠ [] := by
          rw [searchRequest_pos_iff hreqI, h.ins.ram, htabI, ne_eq, ne_eq, Diana.Table.batch_cnt_eq_none]
        have hD' : delReq.add_count > 0 ↔ ps ≠ [] := by
          rw [searchRequest_pos_iff hreqD, h.del.ram, htabD, ne_eq, ne_eq, Diana.Table.batch_cnt_eq_none]
        rw [hc', endEpoch_searchCounter_self]
        simp only [hI', hD']
      rw [hcacheW, hcount, history_concat]
      rw [history_concat] at hsmall
      exact hw.search htabI hms htabD htags hslotI hslotD halive' htagged' hsmall
    · have hsame : history k (us ++ [.searchKeyword w path]) = history k us := by
        rw [history_concat]
        exact next_ended_of_ne hkw
      have hcacheK : Function.update st.server.cached_results_edb req.keyword_token (some cache) (P.kwToken k) =
          st.server.cached_results_edb (P.kwToken k) :=
        Function.update_of_ne (fun e => hkw (hP.kwToken k w hk hW e).symm) _ _
      have hcount : c'.searchCounter k = c.searchCounter k := endEpoch_searchCounter_of_ne c (Ne.symm hkw) _ _
      rw [hsame, hcacheK, hcount]
      have hne : ∀ n, metaKeyword k n ≠ m := fun n e => hkw (metaKeyword_inj e).1.symm
      refine (h.word k hk).congr (fun n => ?_) fun n => ?_
      · rw [Function.update_of_ne (hne n)]
      · rw [Function.update_of_ne (hne n)]

/-! ## Runs -/

/-- **Every run**: each of its prefixes runs to the end, and leaves the invariant. -/
theorem inv_run {total : List (Op R)}
    (hP : P.Sound (· ∈ total.map Op.key) fun k => (history k total).ended.length)
    (hsmall : ∀ k, (history k total).Small) {usehdd : Bool} (hone : Runs.Each (Lone usehdd) [] total)
    {us rest : List (Op R)} (hus : us ++ rest = total) :
    ∃ st os tabI tabD, Runs.run (step P usehdd) .init us = some (st, os) ∧
      Inv P (· ∈ total.map Op.key) (fun k => (history k total).ended.length) us st tabI tabD := by
  induction us using List.reverseRecOn generalizing rest with
  | nil => exact ⟨_, _, _, _, rfl, inv_init P _ _⟩
  | append_singleton us u ih =>
    obtain ⟨st, os, tabI, tabD, hrun, hinv⟩ := ih (show us ++ u :: rest = total by rw [← hus]; simp)
    have hW : u.key ∈ total.map Op.key := by
      rw [← hus]
      exact List.mem_map_of_mem (by simp)
    have hE : (history u.key us).ended.length ≤ (history u.key total).ended.length := by
      rw [← hus, List.append_assoc]
      exact ended_le_append u.key us _
    have hs : (history u.key (us ++ [u])).Small := by
      have hall := hsmall u.key
      rw [← hus] at hall
      exact hall.of_append
    obtain ⟨st', res, tabI', tabD', hstep, hinv'⟩ : ∃ st' res tabI' tabD', step P usehdd st u = some (st', res) ∧
        Inv P (· ∈ total.map Op.key) (fun k => (history k total).ended.length) (us ++ [u]) st' tabI' tabD' := by
      cases u with
      | insertKeyword w ind s =>
        obtain ⟨st', tabI', tabD', h1, h2⟩ := hinv.insert hP hW ind s hE hs usehdd
        exact ⟨st', [], tabI', tabD', h1, h2⟩
      | deleteKeyword w ind =>
        obtain ⟨st', tabI', tabD', h1, h2⟩ := hinv.delete hP hW ind hE hs usehdd
        exact ⟨st', [], tabI', tabD', h1, h2⟩
      | searchKeyword w path =>
        have hlone : Lone usehdd us (.searchKeyword w path : Op R) :=
          Runs.each_iff_split.1 hone us _ rest (by rw [← hus]; simp)
        obtain ⟨st', res, tabI', tabD', h1, -, h2⟩ := hinv.search hP hW path hE hs hlone
        exact ⟨st', res, tabI', tabD', h1, h2⟩
    exact ⟨st', os ++ [res], tabI', tabD', Runs.run_concat.2 ⟨st, os, res, hrun, hstep, rfl⟩, hinv'⟩

/-- A search after any calls. -/
theorem search_after {us : List (Op R)} {w : Str} {path : Path}
    (hP : P.Sound (· ∈ (us ++ [Op.searchKeyword w path]).map Op.key)
      fun k => (history k (us ++ [Op.searchKeyword w path])).ended.length)
    (hsmall : ∀ k, (history k (us ++ [Op.searchKeyword w path])).Small) {usehdd : Bool}
    (hone : Runs.Each (Lone usehdd) [] (us ++ [Op.searchKeyword w path])) :
    ∃ st os res, Runs.run (step P usehdd) .init (us ++ [Op.searchKeyword w path]) = some (st, os ++ [res]) ∧
      res.Perm (history w us).alive := by
  obtain ⟨st, os, tabI, tabD, hrun, hinv⟩ := inv_run hP hsmall hone rfl
  have hW : w ∈ (us ++ [Op.searchKeyword w path]).map Op.key :=
    List.mem_map.2 ⟨_, List.mem_append_right _ (List.mem_singleton_self _), rfl⟩
  obtain ⟨st', res, -, -, hstep, hres, -⟩ := hinv.search hP hW path (ended_le_append w us _) (hsmall w)
    (Runs.each_concat.1 hone).2
  exact ⟨st', os, res, Runs.run_concat.2 ⟨st, os, res, hrun, hstep, rfl⟩, hres⟩

/-- **Search is exact on both paths.**  As long as no epoch of a keyword has `2^32` insertions or deletions, no
keyword `2^32` ended epochs, and no two threads take entries from an unlocked map, a search returns what is alive;
with other paths for the searches, and other schedulers, it returns the same. -/
theorem janus_search_exact (P : Prims B CT SK R) (usehdd : Bool) (us : List (Op R)) (w : Str) (path : Path)
    (hP : P.Sound (· ∈ (us ++ [Op.searchKeyword w path]).map Op.key)
      fun k => (history k (us ++ [Op.searchKeyword w path])).ended.length)
    (hsmall : ∀ k, (history k (us ++ [Op.searchKeyword w path])).Small)
    (hone : Runs.Each (Lone usehdd) [] (us ++ [Op.searchKeyword w path])) :
    ∃ st os res, Runs.run (step P usehdd) .init (us ++ [Op.searchKeyword w path]) = some (st, os ++ [res]) ∧
      res.Perm (history w us).alive ∧
      ∀ us' path', us'.map Op.erase = us.map Op.erase →
        Runs.Each (Lone usehdd) [] (us' ++ [Op.searchKeyword w path']) →
        ∃ st' os' res', Runs.run (step P usehdd) .init (us' ++ [Op.searchKeyword w path']) = some (st', os' ++ [res']) ∧
          res'.Perm res := by
  obtain ⟨st, os, res, hrun, hres⟩ := search_after hP hsmall hone
  refine ⟨st, os, res, hrun, hres, fun us' path' he hone' => ?_⟩
  have herase : (us' ++ [Op.searchKeyword w path']).map Op.erase = (us ++ [Op.searchKeyword w path]).map Op.erase := by
    rw [List.map_append, List.map_append, he]
    rfl
  have hhist : ∀ k, history k (us' ++ [Op.searchKeyword w path']) = history k (us ++ [Op.searchKeyword w path]) := by
    intro k
    rw [← history_erase, herase, history_erase]
  have hkeys : (us' ++ [Op.searchKeyword w path']).map Op.key = (us ++ [Op.searchKeyword w path]).map Op.key := by
    rw [← map_key_erase, herase, map_key_erase]
  have hP' : P.Sound (· ∈ (us' ++ [Op.searchKeyword w path']).map Op.key)
      fun k => (history k (us' ++ [Op.searchKeyword w path'])).ended.length := by
    simp only [hhist, hkeys]
    exact hP
  obtain ⟨st', os', res', hrun', hres'⟩ := search_after hP' (fun k => hhist k ▸ hsmall k) hone'
  have hsame : history w us' = history w us := by rw [← history_erase, he, history_erase]
  exact ⟨st', os', res', hrun', (hsame ▸ hres').trans hres.symm⟩

end

/-! ## An open instance

Nothing is hidden: a ciphertext is the ind with its tag, a key share its tag. -/

def openPrims : Prims Str (UInt64 × Str) Str Unit where
  ins := Diana.freePrims fun _ => (9, [7])
  del := Diana.freePrims fun _ => [7]
  tag := id
  punctEnc := id
  kwToken := id
  NULLTAG := []
  encrypt e := (e.m, e.tag)
  initialKeyshare _ _ := []
  incPuncture p := p.tag
  ctTag ct := ct.2
  skTag ks := ks
  decrypt shares ct := if ct.2 ∈ shares.tail then none else some ct.1

theorem openPrims_sound (W : Str → Prop) (E : Str → Nat) : openPrims.Sound W E where
  insSplits := Diana.freePrims_splits _
  delSplits := Diana.freePrims_splits _
  insTokens _ _ _ _ _ _ hi hi' h := Diana.token_free_inj (by omega) (by omega) h
  delTokens _ _ _ _ _ _ hi hi' h := Diana.token_free_inj (by omega) (by omega) h
  kwToken _ _ _ _ h := h
  tag _ _ _ _ _ _ h := keywordDocString_inj h
  tag_ne w ind _ h := by
    have hlen := congrArg List.length (show keywordDocString w ind = [] from h)
    simp [keywordDocString] at hlen
  ctTag _ := rfl
  skTag _ := rfl
  decrypt key d ps e _ _ := by
    show (if e.tag ∈ ps.map Puncture.tag then none else some e.m) = _
    congr 1

/-- Insertions in two epochs of `a` and a deletion in the second. -/
def twoEpochs : List (Op Unit) :=
  [.insertKeyword [97] 5 (), .insertKeyword [97] 6 (), .searchKeyword [97] (.search id id), .deleteKeyword [97] 6,
    .insertKeyword [97] 7 ()]

theorem lone_hdd {R : Type} (us : List (Op R)) : Runs.Each (Lone true) [] us := by
  rw [Runs.each_iff_split]
  intro pre u r _
  cases u with
  | insertKeyword | deleteKeyword => trivial
  | searchKeyword w path => exact path.lone_hdd _ _

theorem janus_search_exact_a :
    ∃ st os res, Runs.run (step openPrims true) .init
        (twoEpochs ++ [.searchKeyword [97] (.searchParallel 8 (by decide) id)]) = some (st, os ++ [res]) ∧
      res.Perm (history [97] twoEpochs).alive ∧
      ∀ us' path', us'.map Op.erase = twoEpochs.map Op.erase →
        Runs.Each (Lone true) [] (us' ++ [.searchKeyword [97] path']) →
        ∃ st' os' res', Runs.run (step openPrims true) .init (us' ++ [.searchKeyword [97] path']) =
          some (st', os' ++ [res']) ∧ res'.Perm res :=
  janus_search_exact openPrims true twoEpochs [97] _ (openPrims_sound _ _) (fun k => small_of_length (by decide) k)
    (lone_hdd _)

example : (history [97] twoEpochs).alive = [5, 7] := by decide

/-- The counter of `n` insertions of `a`. -/
theorem run_insertions {usehdd : Bool} {st : State Str (UInt64 × Str) Str} {os : List (List UInt64)} {n : Nat}
    (h : Runs.run (step openPrims usehdd) .init (List.replicate n (.insertKeyword [97] 5 ())) = some (st, os)) :
    st.client.searchCounter [97] = 0 ∧ st.client.insertion (metaKeyword [97] 0) = counterAfter n := by
  induction n generalizing st os with
  | zero =>
    obtain ⟨rfl, -⟩ := Prod.mk.inj (Option.some.inj h)
    exact ⟨rfl, rfl⟩
  | succ n ih =>
    rw [List.replicate_succ', Runs.run_concat] at h
    obtain ⟨m, os', o, h1, h2, -⟩ := h
    obtain ⟨hc, hn⟩ := ih h1
    simp only [step, insertionRequest] at h2
    split_ifs at h2
    · simp at h2
    obtain ⟨rfl, -⟩ := Prod.mk.inj (Option.some.inj h2)
    refine ⟨hc, ?_⟩
    dsimp only [Client.metaKw, Diana.updateRequest]
    rw [hc, Function.update_self, hn, nextCnt_counterAfter]

/-- After `2^32` insertions in one epoch, `add_count` is 0 and the search fails an assertion. -/
theorem search_fails_after_2_pow_32 :
    Runs.run (step openPrims true) .init (List.replicate (2 ^ 32) (.insertKeyword [97] 5 ()) ++
      [.searchKeyword [97] (.searchParallel 8 (by decide) id)]) = none := by
  by_contra hne
  obtain ⟨r, hr⟩ := Option.ne_none_iff_exists'.1 hne
  obtain ⟨st, os, o, h1, h2, -⟩ := Runs.run_concat.1 hr
  obtain ⟨hc, hn⟩ := run_insertions h1
  have hlast : counterAfter (2 ^ 32) = some (-1) := by decide
  simp only [step, Option.bind_eq_bind, Option.bind_eq_some_iff, searchRequest, Client.metaKw, hc] at h2
  obtain ⟨-, ⟨insReq, hins, -⟩, -⟩ := h2
  rcases searchRequest_add_count hins with ⟨hnone, -⟩ | ⟨c, hsome, hadd, hpos⟩
  · rw [hn, hlast] at hnone
    cases hnone
  · rw [hn, hlast] at hsome
    rw [← Option.some.inj hsome] at hadd
    exact hpos hadd

end Sse.Janus
