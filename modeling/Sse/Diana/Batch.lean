import Sse.Diana.Ledger
import Sse.Diana.Taking

/-!
# A key that is filled, searched and forgotten

Janus uses every key of its Diana clients for one batch: some updates, one search, and
`remove_keyword`.  In terms of tables:

    the updates fill the counters 0, 1, ..                               (push_batch)
    the request covers them, and either search returns the batch         (Stores.search_batch,
                                                                          Stores.taking_batch)
    afterwards the key has no counter, and no other key has changed      (Stores.forget)
-/

namespace Sse.Diana

/-- The table after the updates of a batch. -/
def Table.batch {T : Type*} (l : List T) : Table T :=
  ⟨if l = [] then none else some (UInt32.ofNat (l.length - 1)), fun c => l[c.toNat]?⟩

namespace Table

variable {T : Type*}

theorem batch_cnt_eq_none {l : List T} : (batch l).cnt = none ↔ l = [] := by
  unfold batch
  split_ifs with hl
  · simp [hl]
  · simp [hl]

theorem nextCnt_batch (l : List T) : nextCnt (batch l).cnt = UInt32.ofNat l.length := by
  unfold batch
  by_cases hl : l = []
  · simp [hl, nextCnt]
  · have hpos := List.length_pos_of_ne_nil hl
    rw [if_neg hl]
    show UInt32.ofNat (l.length - 1) + UInt32.ofNat 1 = _
    rw [← UInt32.ofNat_add, Nat.sub_add_cancel hpos]

/-- One more update of a batch. -/
theorem push_batch {l : List T} (hl : l.length < 2 ^ 32) (usehdd : Bool) (x : T) :
    (batch l).push usehdd x = batch (l ++ [x]) := by
  have hnat : (UInt32.ofNat l.length).toNat = l.length := by
    rw [UInt32.toNat_ofNat', Nat.mod_eq_of_lt hl]
  have hfree : (batch l).slot (UInt32.ofNat l.length) = none := by
    show l[(UInt32.ofNat l.length).toNat]? = none
    rw [hnat, List.getElem?_eq_none le_rfl]
  unfold push
  simp only [nextCnt_batch, hfree, or_true, if_true]
  have hcnt : (batch (l ++ [x])).cnt = some (UInt32.ofNat l.length) := by simp [batch]
  have hslot : (batch (l ++ [x])).slot = Function.update (batch l).slot (UInt32.ofNat l.length) (some x) := by
    funext c
    show (l ++ [x])[c.toNat]? = Function.update (fun c : UInt32 => l[c.toNat]?) _ _ c
    rw [Function.update_apply]
    split_ifs with hc
    · rw [hc, hnat, List.getElem?_concat_length]
    · have hne : c.toNat ≠ l.length := by
        intro e
        apply hc
        rw [← e, UInt32.ofNat_toNat]
      rcases Nat.lt_or_gt_of_ne hne with hlt | hgt
      · rw [List.getElem?_append_left hlt]
      · have hlen : (l ++ [x]).length = l.length + 1 := by simp
        rw [List.getElem?_eq_none (by omega), List.getElem?_eq_none (by omega)]
  rw [← hcnt, ← hslot]

/-- All counters of a batch. -/
theorem read_batch {l : List T} (hl : l.length < 2 ^ 32) : (batch l).read (List.range l.length) = l := by
  have hslot : (List.range l.length).filterMap (fun i => (batch l).slot (UInt32.ofNat i)) =
      (List.range l.length).filterMap (l[·]?) := by
    apply List.filterMap_congr
    intro i hi
    have hlt := List.mem_range.1 hi
    show l[(UInt32.ofNat i).toNat]? = l[i]?
    rw [UInt32.toNat_ofNat', Nat.mod_eq_of_lt (by omega)]
  unfold read
  rw [hslot, filterMap_range_getElem?]

end Table

section

variable {B T U : Type*} [XorOp T] {P : Prims B T} {K : Str → Prop} {f : Str → U → T}
  {ramCounter : Str → Option UInt32} {edb : B → Option T} {tab : Str → Table U}

/-- The request for a batch covers its leaves. -/
theorem Stores.request_batch (h : Stores P K f ramCounter edb tab) (hs : Splits P.derive P.derive32) {k : Str}
    {l : List U} (htab : tab k = Table.batch l) (hl : l.length < 2 ^ 32) :
    ∃ req, searchRequest P ramCounter k = some req ∧ req.add_count = UInt32.ofNat l.length ∧
      leaves P.derive32 req.token_list = (List.range l.length).map (leaf P k) := by
  unfold searchRequest
  rw [h.ram, htab]
  by_cases hnil : l = []
  · subst hnil
    exact ⟨_, rfl, rfl, rfl⟩
  · have hpos := List.length_pos_of_ne_nil hnil
    have hcount : UInt32.ofNat (l.length - 1) + 1 = UInt32.ofNat l.length := by
      show UInt32.ofNat (l.length - 1) + UInt32.ofNat 1 = _
      rw [← UInt32.ofNat_add, Nat.sub_add_cancel hpos]
    have hnat : (UInt32.ofNat l.length).toNat = l.length := by
      rw [UInt32.toNat_ofNat', Nat.mod_eq_of_lt hl]
    have hcap : l.length ≤ 2 ^ kTreeDepth := by
      have : 2 ^ 32 ≤ 2 ^ kTreeDepth := by decide
      omega
    obtain ⟨ts, hts⟩ : ∃ ts, coveringList P.derive (root P k) l.length kTreeDepth = some ts :=
      coveringList_isSome hpos hcap (root P k)
    simp only [Table.batch, if_neg hnil, hcount, hnat, hts]
    exact ⟨_, rfl, rfl, leaves_coveringList hs hcap hts⟩

variable [DecidableEq B] [LawfulXor T]

/-- **The search of a batch** that keeps the entries. -/
theorem Stores.search_batch (h : Stores P K f ramCounter edb tab) {k : Str} (hk : K k) {l : List U}
    (htab : tab k = Table.batch l) (hl : l.length < 2 ^ 32) {req : SearchRequest B}
    (hreq : leaves P.derive32 req.token_list = (List.range l.length).map (leaf P k)) :
    Diana.search P false edb req = (edb, l.map (f k)) := by
  unfold Diana.search
  rw [searchKeys_keep, hreq, h.found_leaves hk fun i hi => lt_trans (List.mem_range.1 hi) hl, htab,
    Table.read_batch hl]

omit [DecidableEq B] [LawfulXor T] in
/-- A key without counter, whatever its slots hold. -/
theorem Stores.forget (h : Stores P K f ramCounter edb tab) (k : Str) :
    Stores P K f (Function.update ramCounter k none) edb (Function.update tab k ⟨none, (tab k).slot⟩) := by
  constructor
  · intro k'
    rw [Function.update_apply, Function.update_apply]
    split
    · rfl
    · exact h.ram k'
  · intro k' i hk' hi
    rw [h.edb k' i hk' hi, Function.update_apply]
    split
    · next e => rw [e]
    · rfl

/-- **The search of a batch** that takes the entries, on any number of threads; from a `std::map`, a batch of
one entry. -/
theorem Stores.taking_batch (h : Stores P K f ramCounter edb tab) (hs : Splits P.derive P.derive32)
    (hinj : ∀ k k' i i', K k → K k' → i < 2 ^ 32 → i' < 2 ^ 32 → token P k i = token P k' i' → k = k' ∧ i = i')
    {k : Str} (hk : K k) {l : List U} (htab : tab k = Table.batch l) (hl : l.length < 2 ^ 32) {req : SearchRequest B}
    (hcount : req.add_count = UInt32.ofNat l.length)
    (hreq : leaves P.derive32 req.token_list = (List.range l.length).map (leaf P k)) {threads_count : UInt8}
    (ht : 1 ≤ threads_count) {usehdd : Bool} (hone : usehdd = true ∨ l.length ≤ 1) (pick : Nat → Nat) :
    ∃ edb' slot, searchTaking P usehdd edb req threads_count pick = some (edb', l.map (f k)) ∧ (l = [] → slot = fun _ => none) ∧
      Stores P K f ramCounter edb' (Function.update tab k ⟨(tab k).cnt, slot⟩) := by
  have hnat : req.add_count.toNat = l.length := by
    rw [hcount, UInt32.toNat_ofNat', Nat.mod_eq_of_lt hl]
  have htok : ((List.range l.length).map (leaf P k)).map (P.derive · false) = (List.range l.length).map (token P k) := by
    rw [List.map_map]
    rfl
  have hn : ((leaves P.derive32 req.token_list).map (P.derive · false)).Nodup := by
    rw [hreq, htok]
    apply List.Nodup.map_on _ List.nodup_range
    intro i hi j hj e
    have hil := List.mem_range.1 hi
    have hjl := List.mem_range.1 hj
    exact (hinj k k i j hk hk (by omega) (by omega) e).2
  have hne : req.add_count ≠ 0 → req.token_list ≠ [] := by
    intro hz hnil
    rw [hnil] at hreq
    have hlen := congrArg List.length hreq
    rw [List.length_map, List.length_range] at hlen
    apply hz
    rw [hcount, ← hlen]
    rfl
  have hfound : (leaves P.derive32 req.token_list).filterMap (found P edb) = l.map (f k) := by
    rw [hreq, h.found_leaves hk fun i hi => lt_trans (List.mem_range.1 hi) hl, htab, Table.read_batch hl]
  have hcap : (leaves P.derive32 req.token_list).length ≤ req.add_count.toNat := by
    rw [hreq, List.length_map, List.length_range, hnat]
  refine ⟨fun t => if t ∈ (List.range l.length).map (token P k) then none else edb t,
    fun c => if c.toNat < l.length then none else (tab k).slot c, ?_, ?_, fun k' => ?_, fun k' i hk' hi => ?_⟩
  · have hone' : usehdd = true ∨ (leaves P.derive32 req.token_list).length ≤ 1 := by
      rw [hreq, List.length_map, List.length_range]
      exact hone
    rw [searchTaking_eq hs edb hne hcap hn ht hone' pick, Diana.search, searchKeys_delete P edb hn, hfound, hreq, htok]
  · rintro rfl
    rw [htab]
    rfl
  · rw [h.ram, Function.update_apply]
    split
    · next e => rw [e]
    · rfl
  · have hnati : (UInt32.ofNat i).toNat = i := by
      rw [UInt32.toNat_ofNat', Nat.mod_eq_of_lt hi]
    have hmem : token P k' i ∈ (List.range l.length).map (token P k) ↔ k' = k ∧ i < l.length := by
      rw [List.mem_map]
      constructor
      · rintro ⟨j, hj, e⟩
        have hjl := List.mem_range.1 hj
        obtain ⟨rfl, rfl⟩ := hinj k k' j i hk hk' (by omega) hi e
        exact ⟨rfl, hjl⟩
      · rintro ⟨rfl, hi⟩
        exact ⟨i, List.mem_range.2 hi, rfl⟩
    rw [Function.update_apply]
    by_cases hkk : k' = k
    · subst hkk
      simp only [hmem, true_and, if_true, hnati]
      split_ifs
      · rfl
      · exact h.edb k' i hk' hi
    · simp only [hmem, hkk, false_and, if_false]
      exact h.edb k' i hk' hi

end

end Sse.Diana
