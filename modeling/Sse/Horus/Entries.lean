import Sse.Horus.Rows

/-!
# The entries of a keyword

What `updt` says about a keyword is a list of inds, one for each slot in use, and a list of
access counts, one for each slot that was ever used:

    pair ind  = "slot#acc"  where it is live,  "-1#acc"  where it was removed,  nothing before
    slot i    = "ind#acc"   for every slot that was ever used

An insert takes the next slot, which may have been used before (`Entries.push`).  A removal
fills the hole with the last ind, under the next access count of the slot (`Entries.remove`).
The two lists say nothing about the boxes: those are written alongside.
-/

namespace Sse.Horus

open Orion (fill length_fill getElem?_last getElem?_fill_cases mem_fill nodup_fill)

/-! ## Lists of access counts -/

/-- Entry `n` of a list that has at least `n` entries. -/
def put (l : List Nat) (n a : Nat) : List Nat := l.take n ++ a :: l.drop (n + 1)

theorem getElem?_put {l : List Nat} {n : Nat} (h : n ≤ l.length) (a i : Nat) :
    (put l n a)[i]? = if i = n then some a else l[i]? := by
  have hlen : (l.take n).length = n := by rw [List.length_take]; omega
  unfold put
  rw [List.getElem?_append, hlen]
  by_cases h1 : i < n
  · rw [if_pos h1, if_neg (by omega), List.getElem?_take, if_pos h1]
  · rw [if_neg h1]
    by_cases h2 : i = n
    · rw [if_pos h2, h2, Nat.sub_self, List.getElem?_cons_zero]
    · obtain ⟨k, hk⟩ : ∃ k, i - n = k + 1 := ⟨i - n - 1, by omega⟩
      rw [if_neg h2, hk, List.getElem?_cons_succ, List.getElem?_drop]
      congr 1
      omega

theorem length_put {l : List Nat} {n : Nat} (h : n ≤ l.length) (a : Nat) :
    (put l n a).length = max l.length (n + 1) := by
  unfold put
  rw [List.length_append, List.length_take, List.length_cons, List.length_drop]
  omega

theorem mem_put {l : List Nat} {n a x : Nat} (h : x ∈ put l n a) : x = a ∨ x ∈ l := by
  unfold put at h
  rcases List.mem_append.1 h with h | h
  · exact Or.inr (List.mem_of_mem_take h)
  · rcases List.mem_cons.1 h with h | h
    · exact Or.inl h
    · exact Or.inr (List.mem_of_mem_drop h)

theorem exists_getElem? {l : List Nat} {i : Nat} (h : i < l.length) : ∃ a, l[i]? = some a :=
  ⟨l[i], List.getElem?_eq_getElem h⟩

/-! ## The two lists -/

/-- The entries of a row hold the inds of the slots in use, and the access counts of all slots. -/
structure Entries (r : Row) (inds : List Int32) (accs : List Nat) (top : Nat) (seen : List Int32) : Prop where
  nodup : inds.Nodup
  subset : ∀ x ∈ inds, x ∈ seen
  inds_le : inds.length ≤ accs.length
  range : ∀ a ∈ accs, 1 ≤ a ∧ a ≤ top
  accs_lt : accs.length < 2 ^ 31 - 1
  one_le_top : 1 ≤ top
  top_lt : top < 2 ^ 31
  cnt : r.updtCnt.getD 0 = Int32.ofNat inds.length
  access : r.access.getD 1 = Int32.ofNat top
  created : accs ≠ [] → r.access.isSome ∧ r.updtCnt.isSome
  pair : ∀ i x a, inds[i]? = some x → accs[i]? = some a →
    r.pair x = some (entry (Int32.ofNat (i + 1)) (Int32.ofNat a))
  gone : ∀ x, x ∉ inds → x ∈ seen → ∃ c, r.pair x = some (entry (-1) c)
  absent : ∀ x, x ∉ seen → r.pair x = none
  slot : ∀ i a, accs[i]? = some a →
    ∃ x, r.slot (Int32.ofNat (i + 1)) = some (entry x (Int32.ofNat a)) ∧ ∀ y, inds[i]? = some y → y = x
  unused : ∀ i, accs.length ≤ i → i + 1 < 2 ^ 31 → r.slot (Int32.ofNat (i + 1)) = none

theorem entries_init (w : Str) : Entries (init.row w) [] [] 1 [] where
  nodup := List.nodup_nil
  subset := fun _ h => h
  inds_le := le_rfl
  range := fun _ h => by cases h
  accs_lt := by decide
  one_le_top := le_rfl
  top_lt := by decide
  cnt := rfl
  access := rfl
  created := fun h => absurd rfl h
  pair := fun i x a h => by simp at h
  gone := fun x _ h => by cases h
  absent := fun _ _ => rfl
  slot := fun i a h => by simp at h
  unused := fun _ _ _ => rfl

section

variable {r r' : Row} {inds seen : List Int32} {accs : List Nat} {top : Nat}

/-- The access count of the slot of a live ind. -/
theorem Entries.acc_of_ind (h : Entries r inds accs top seen) {i : Nat} {x : Int32} (hi : inds[i]? = some x) :
    ∃ a, accs[i]? = some a ∧ 1 ≤ a ∧ a ≤ top ∧ i + 1 < 2 ^ 31 := by
  have hlt := lt_of_getElem?_eq_some hi
  have hle := h.inds_le
  have hacc := h.accs_lt
  obtain ⟨a, ha⟩ := exists_getElem? (show i < accs.length by omega)
  obtain ⟨h1, h2⟩ := h.range a (List.mem_of_getElem? ha)
  exact ⟨a, ha, h1, h2, by omega⟩

/-- Where a slot was taken once, the highest access count is written down. -/
theorem Entries.access_eq (h : Entries r inds accs top seen) (hne : accs ≠ []) : r.access = some (Int32.ofNat top) := by
  obtain ⟨c, hc⟩ := Option.isSome_iff_exists.1 (h.created hne).1
  have hget := h.access
  rw [hc, Option.getD_some] at hget
  rw [hc, hget]

/-- The entries do not depend on the other counters and the boxes. -/
theorem Entries.congr (h : Entries r inds accs top seen) (hcnt : r'.updtCnt.getD 0 = r.updtCnt.getD 0)
    (hsome : r.updtCnt.isSome → r'.updtCnt.isSome) (hacc : r'.access = r.access) (hpair : r'.pair = r.pair)
    (hslot : r'.slot = r.slot) : Entries r' inds accs top seen := by
  refine ⟨h.nodup, h.subset, h.inds_le, h.range, h.accs_lt, h.one_le_top, h.top_lt, ?_, ?_, ?_, ?_, ?_, ?_, ?_, ?_⟩
  · rw [hcnt]; exact h.cnt
  · rw [hacc]; exact h.access
  · rw [hacc]; exact fun hne => ⟨(h.created hne).1, hsome (h.created hne).2⟩
  · rw [hpair]; exact h.pair
  · rw [hpair]; exact h.gone
  · rw [hpair]; exact h.absent
  · rw [hslot]; exact h.slot
  · rw [hslot]; exact h.unused

/-- **An insert takes the next slot.** -/
theorem Entries.push (h : Entries r inds accs top seen) {x : Int32} (hx : x ∉ inds) {a top' : Nat} (ha : 1 ≤ a)
    (hatop : a ≤ top') (htop : top ≤ top') (hlt : top' < 2 ^ 31) (hslots : inds.length + 1 < 2 ^ 31 - 1)
    (hcnt : r'.updtCnt = some (Int32.ofNat (inds.length + 1))) (hacc : r'.access = some (Int32.ofNat top'))
    (hpair : r'.pair =
      Function.update r.pair x (some (entry (Int32.ofNat (inds.length + 1)) (Int32.ofNat a))))
    (hslot : r'.slot =
      Function.update r.slot (Int32.ofNat (inds.length + 1)) (some (entry x (Int32.ofNat a)))) :
    Entries r' (inds ++ [x]) (put accs inds.length a) top' (seen.insert x) := by
  have hle := h.inds_le
  have hacclt := h.accs_lt
  have hput := length_put hle a
  refine ⟨?_, ?_, ?_, ?_, ?_, ha.trans hatop, hlt, ?_, ?_, ?_, ?_, ?_, ?_, ?_, ?_⟩
  · rw [List.nodup_append]
    refine ⟨h.nodup, List.nodup_singleton _, fun b hb c hc e => hx ?_⟩
    rw [List.mem_singleton] at hc
    rwa [← hc, ← e]
  · intro y hy
    rw [List.mem_insert_iff]
    rcases List.mem_append.1 hy with hy | hy
    · exact Or.inr (h.subset y hy)
    · exact Or.inl (List.mem_singleton.1 hy)
  · rw [List.length_append, List.length_singleton, hput]
    omega
  · intro b hb
    rcases mem_put hb with rfl | hb
    · exact ⟨ha, hatop⟩
    · obtain ⟨h1, h2⟩ := h.range b hb
      exact ⟨h1, by omega⟩
  · rw [hput]
    omega
  · rw [hcnt, Option.getD_some, List.length_append, List.length_singleton]
  · rw [hacc, Option.getD_some]
  · exact fun _ => ⟨by rw [hacc]; rfl, by rw [hcnt]; rfl⟩
  · intro i y b hi hb
    rw [getElem?_put hle] at hb
    rw [hpair]
    rcases getElem?_concat_cases hi with hi | ⟨rfl, rfl⟩
    · have hlt' := lt_of_getElem?_eq_some hi
      rw [if_neg (by omega)] at hb
      rw [Function.update_of_ne fun e => hx (by rw [← e]; exact List.mem_of_getElem? hi)]
      exact h.pair i y b hi hb
    · rw [if_pos rfl] at hb
      rw [Function.update_self, Option.some.inj hb]
  · intro y hy hseen
    rw [List.mem_append, List.mem_singleton, not_or] at hy
    rw [hpair, Function.update_of_ne hy.2]
    exact h.gone y hy.1 ((List.mem_insert_iff.1 hseen).resolve_left hy.2)
  · intro y hy
    rw [List.mem_insert_iff, not_or] at hy
    rw [hpair, Function.update_of_ne hy.1]
    exact h.absent y hy.2
  · intro i b hb
    have hilt := lt_of_getElem?_eq_some hb
    rw [hput] at hilt
    rw [getElem?_put hle] at hb
    rw [hslot]
    by_cases hin : i = inds.length
    · subst hin
      rw [if_pos rfl] at hb
      refine ⟨x, by rw [Function.update_self, Option.some.inj hb], fun y hy => ?_⟩
      rw [List.getElem?_append_right le_rfl, Nat.sub_self, List.getElem?_cons_zero] at hy
      exact (Option.some.inj hy).symm
    · rw [if_neg hin] at hb
      obtain ⟨z, hz, huniq⟩ := h.slot i b hb
      have hne : Int32.ofNat (i + 1) ≠ Int32.ofNat (inds.length + 1) := ofNat_ne_small (by omega) (by omega) (by omega)
      refine ⟨z, by rw [Function.update_of_ne hne]; exact hz, fun y hy => ?_⟩
      rcases getElem?_concat_cases hy with hy | ⟨rfl, -⟩
      · exact huniq y hy
      · exact absurd rfl hin
  · intro i hi hi31
    rw [hput] at hi
    rw [hslot, Function.update_of_ne (ofNat_ne_small hi31 (by omega) (by omega))]
    exact h.unused i (by omega) hi31

/-- **The last slot is dropped.**  Its entry stays. -/
theorem Entries.drop (h : Entries r inds accs top seen) {x c : Int32} (hx : inds[inds.length - 1]? = some x)
    (hcnt : r'.updtCnt = some (Int32.ofNat (inds.length - 1))) (hacc : r'.access = r.access)
    (hpair : r'.pair = Function.update r.pair x (some (entry (-1) c))) (hslot : r'.slot = r.slot) :
    Entries r' (fill inds (inds.length - 1)) accs top seen := by
  have hlt := lt_of_getElem?_eq_some hx
  have hmem := mem_fill h.nodup hx
  have hle := h.inds_le
  -- an ind of the shorter list sits where it sat
  have hget : ∀ (i : Nat) (y : Int32), (fill inds (inds.length - 1))[i]? = some y → inds[i]? = some y := by
    intro i y hy
    have hil := lt_of_getElem?_eq_some hy
    rw [length_fill] at hil
    rcases getElem?_fill_cases hy with ⟨rfl, -⟩ | ⟨-, hy⟩
    · omega
    · exact hy
  refine ⟨nodup_fill h.nodup hx, fun y hy => h.subset y ((hmem y).1 hy).1, ?_, h.range, h.accs_lt, h.one_le_top,
    h.top_lt, ?_, ?_, ?_, ?_, ?_, ?_, ?_, ?_⟩
  · rw [length_fill]
    omega
  · rw [hcnt, Option.getD_some, length_fill]
  · rw [hacc]
    exact h.access
  · intro hne
    rw [hacc, hcnt]
    exact ⟨(h.created hne).1, rfl⟩
  · intro i y a hy ha
    have hne := ((hmem y).1 (List.mem_of_getElem? hy)).2
    rw [hpair, Function.update_of_ne hne]
    exact h.pair i y a (hget i y hy) ha
  · intro y hy hseen
    rw [hpair]
    by_cases hyx : y = x
    · exact ⟨c, by rw [hyx, Function.update_self]⟩
    · rw [Function.update_of_ne hyx]
      exact h.gone y (fun hin => hy ((hmem y).2 ⟨hin, hyx⟩)) hseen
  · intro y hy
    have hne : y ≠ x := fun e => hy (e ▸ h.subset x (List.mem_of_getElem? hx))
    rw [hpair, Function.update_of_ne hne]
    exact h.absent y hy
  · intro i a ha
    obtain ⟨z, hz, huniq⟩ := h.slot i a ha
    exact ⟨z, by rw [hslot]; exact hz, fun y hy => huniq y (hget i y hy)⟩
  · intro i hi hi31
    rw [hslot]
    exact h.unused i hi hi31

/-- **The last ind fills the hole**, under the next access count of the slot. -/
theorem Entries.swap (h : Entries r inds accs top seen) {j a top' : Nat} {x c : Int32} (hj : inds[j]? = some x)
    (hlast : j + 1 < inds.length) (ha : accs[j]? = some a) (hatop : a + 1 ≤ top') (htop : top ≤ top')
    (hlt : top' < 2 ^ 31) (hcnt : r'.updtCnt = some (Int32.ofNat (inds.length - 1)))
    (hacc : r'.access = some (Int32.ofNat top'))
    (hpair : r'.pair = Function.update (Function.update r.pair x (some (entry (-1) c))) (inds.getLastD 0)
      (some (entry (Int32.ofNat (j + 1)) (Int32.ofNat (a + 1)))))
    (hslot : r'.slot = Function.update r.slot (Int32.ofNat (j + 1))
      (some (entry (inds.getLastD 0) (Int32.ofNat (a + 1))))) :
    Entries r' (fill inds j) (put accs j (a + 1)) top' seen := by
  have hmem := mem_fill h.nodup hj
  have hle := h.inds_le
  have hacclt := h.accs_lt
  have hput := length_put (show j ≤ accs.length by omega) (a + 1)
  have hgetlast := getElem?_last (l := inds) (by omega)
  have hlastne : inds.getLastD 0 ≠ x := fun e => by
    have := index_unique h.nodup hj (e ▸ hgetlast)
    omega
  have hlastmem : inds.getLastD 0 ∈ fill inds j := (hmem _).2 ⟨List.mem_of_getElem? hgetlast, hlastne⟩
  -- where an ind of the new list sits
  have hget : ∀ (i : Nat) (y : Int32), (fill inds j)[i]? = some y →
      (i = j ∧ y = inds.getLastD 0) ∨ (i ≠ j ∧ inds[i]? = some y ∧ y ≠ inds.getLastD 0) := by
    intro i y hy
    have hil := lt_of_getElem?_eq_some hy
    rw [length_fill] at hil
    rcases getElem?_fill_cases hy with ⟨hij, hlast⟩ | ⟨hij, hy⟩
    · exact Or.inl ⟨hij, hlast⟩
    · refine Or.inr ⟨hij, hy, fun e => ?_⟩
      have := index_unique h.nodup hy (e ▸ hgetlast)
      omega
  refine ⟨nodup_fill h.nodup hj, fun y hy => h.subset y ((hmem y).1 hy).1, ?_, ?_, ?_,
    h.one_le_top.trans htop, hlt, ?_, ?_, ?_, ?_, ?_, ?_, ?_, ?_⟩
  · rw [length_fill, hput]
    omega
  · intro b hb
    rcases mem_put hb with rfl | hb
    · exact ⟨by omega, hatop⟩
    · obtain ⟨h1, h2⟩ := h.range b hb
      exact ⟨h1, by omega⟩
  · rw [hput]
    omega
  · rw [hcnt, Option.getD_some, length_fill]
  · rw [hacc, Option.getD_some]
  · exact fun _ => ⟨by rw [hacc]; rfl, by rw [hcnt]; rfl⟩
  · intro i y b hy hb
    have hne := ((hmem y).1 (List.mem_of_getElem? hy)).2
    rw [getElem?_put (by omega)] at hb
    rw [hpair]
    rcases hget i y hy with ⟨rfl, rfl⟩ | ⟨hij, hy', hylast⟩
    · rw [if_pos rfl] at hb
      rw [Function.update_self, Option.some.inj hb]
    · rw [if_neg hij] at hb
      rw [Function.update_of_ne hylast, Function.update_of_ne hne]
      exact h.pair i y b hy' hb
  · intro y hy hseen
    have hylast : y ≠ inds.getLastD 0 := fun e => hy (e ▸ hlastmem)
    rw [hpair, Function.update_of_ne hylast]
    by_cases hyx : y = x
    · exact ⟨c, by rw [hyx, Function.update_self]⟩
    · rw [Function.update_of_ne hyx]
      exact h.gone y (fun hin => hy ((hmem y).2 ⟨hin, hyx⟩)) hseen
  · intro y hy
    have hyx : y ≠ x := fun e => hy (e ▸ h.subset x (List.mem_of_getElem? hj))
    have hylast : y ≠ inds.getLastD 0 := fun e => hy (e ▸ h.subset _ (List.mem_of_getElem? hgetlast))
    rw [hpair, Function.update_of_ne hylast, Function.update_of_ne hyx]
    exact h.absent y hy
  · intro i b hb
    have hilt := lt_of_getElem?_eq_some hb
    rw [hput] at hilt
    rw [getElem?_put (by omega)] at hb
    rw [hslot]
    by_cases hij : i = j
    · subst hij
      rw [if_pos rfl] at hb
      refine ⟨inds.getLastD 0, by rw [Function.update_self, Option.some.inj hb], fun y hy => ?_⟩
      rcases hget i y hy with ⟨-, e⟩ | ⟨hne, -⟩
      · exact e
      · exact absurd rfl hne
    · rw [if_neg hij] at hb
      obtain ⟨z, hz, huniq⟩ := h.slot i b hb
      have hne : Int32.ofNat (i + 1) ≠ Int32.ofNat (j + 1) := ofNat_ne_small (by omega) (by omega) (by omega)
      refine ⟨z, by rw [Function.update_of_ne hne]; exact hz, fun y hy => ?_⟩
      rcases hget i y hy with ⟨e, -⟩ | ⟨-, hy', -⟩
      · exact absurd e hij
      · exact huniq y hy'
  · intro i hi hi31
    rw [hput] at hi
    rw [hslot, Function.update_of_ne (ofNat_ne_small hi31 (by omega) (by omega))]
    exact h.unused i (by omega) hi31

end

/-! ## Insert -/

/-- The access count an insert uses for slot `n + 1`. -/
def nextAcc (accs : List Nat) (n : Nat) : Nat :=
  match accs[n]? with
  | some a => a + 1
  | none => 1

theorem one_le_nextAcc (accs : List Nat) (n : Nat) : 1 ≤ nextAcc accs n := by
  unfold nextAcc
  split <;> omega

section

variable {st : State} {w : Str} {inds seen : List Int32} {accs : List Nat} {top : Nat}

theorem find_pair (st : State) (w : Str) (x : Int32) : st.find (createMapBid 0 w x) = ((st.row w).pair x).getD [] := rfl

theorem find_slot (st : State) (w : Str) (i : Int32) : st.find (createMapBid 1 w i) = ((st.row w).slot i).getD [] := rfl

theorem toStr_ofNat_ne_neg_one {k : Nat} (h : k < 2 ^ 31) : toStr (Int32.ofNat k).toInt ≠ toStr (-1) := by
  intro he
  have hneg : (-1 : Int) = (-1 : Int32).toInt := by decide
  rw [hneg] at he
  have := congrArg Int32.toInt (toStr_injective he)
  rw [toInt_ofNat_small h, ← hneg] at this
  omega

/-- The guard of an insert: the pair is not live. -/
theorem Entries.guard (h : Entries (st.row w) inds accs top seen) (x : Int32) :
    (st.find (createMapBid 0 w x) = [] ∨ token (st.find (createMapBid 0 w x)) 0 = toStr (-1)) ↔ x ∉ inds := by
  rw [find_pair]
  by_cases hx : x ∈ inds
  · obtain ⟨i, hi⟩ := List.mem_iff_getElem?.1 hx
    obtain ⟨a, ha, -, -, hlt⟩ := h.acc_of_ind hi
    rw [h.pair i x a hi ha, Option.getD_some, token_entry_zero]
    refine iff_of_false ?_ (not_not_intro hx)
    rw [not_or]
    exact ⟨entry_ne_nil _ _, toStr_ofNat_ne_neg_one hlt⟩
  · by_cases hs : x ∈ seen
    · obtain ⟨c, hc⟩ := h.gone x hx hs
      rw [hc, Option.getD_some, token_entry_zero]
      exact iff_of_true (Or.inr rfl) hx
    · rw [h.absent x hs]
      exact iff_of_true (Or.inl rfl) hx

/-- A live pair is not inserted again. -/
theorem Entries.insert_live (h : Entries (st.row w) inds accs top seen) {x : Int32} (hx : x ∈ inds) :
    insert st w x = (st, some ()) := by
  unfold insert
  simp only
  rw [if_neg fun e => (h.guard x).1 e hx]

theorem taken_createCounters (st : State) (w : Str) : (st.createCounters w).taken = st.taken := by
  unfold State.createCounters
  cases hc : st.updtCnt w <;> cases ha : st.access w <;> simp only [ha]

theorem raised_ofNat {a b : Nat} (ha : a < 2 ^ 31) (hb : b < 2 ^ 31) :
    raised (some (Int32.ofNat a)) (Int32.ofNat b) = Int32.ofNat (max a b) := by
  unfold raised
  rw [Option.getD_some]
  split
  · next h =>
    rw [ofNat_lt ha hb] at h
    rw [max_eq_right (by omega)]
  · next h =>
    rw [ofNat_lt ha hb] at h
    rw [max_eq_left (by omega)]

/-- **Insert** takes slot `inds.length + 1`, with the access count after the one of its entry. -/
theorem Entries.insert (h : Entries (st.row w) inds accs top seen) {x : Int32} (hx : x ∉ inds)
    (hn : inds.length + 1 < 2 ^ 31 - 1) (ha : nextAcc accs inds.length < 2 ^ 31) :
    (insert st w x).2 = some () ∧
      (Horus.insert st w x).1.row w =
        Row.fillSlot { (st.row w).created with
          updtCnt := some (Int32.ofNat (inds.length + 1))
          access := some (Int32.ofNat (max top (nextAcc accs inds.length))) } x (Int32.ofNat (inds.length + 1))
          (Int32.ofNat (nextAcc accs inds.length)) ∧
      (Horus.insert st w x).1.taken =
        ⟨st.taken.nodes + ((if x ∈ seen then 0 else 1) + (if inds.length < accs.length then 0 else 1)),
          st.taken.boxes + (1 + if (st.row w).created.latestUpdatedCounter.getD 0 < Int32.ofNat (inds.length + 1) ∧
            1 < Int32.ofNat (nextAcc accs inds.length) then 1 else 0)⟩ := by
  have hpairNone : ((st.row w).pair x).isNone = true ↔ x ∉ seen := by
    by_cases hs : x ∈ seen
    · obtain ⟨c, hc⟩ := h.gone x hx hs
      simp [hc, hs]
    · simp [h.absent x hs, hs]
  have hslotNone : ((st.row w).slot (Int32.ofNat (inds.length + 1))).isNone = true ↔ ¬ inds.length < accs.length := by
    by_cases hl : inds.length < accs.length
    · obtain ⟨a, hacc⟩ := exists_getElem? hl
      obtain ⟨z, hz, -⟩ := h.slot _ a hacc
      rw [hz]
      exact iff_of_false (by simp) (not_not_intro hl)
    · rw [h.unused _ (by omega) (show inds.length + 1 < 2 ^ 31 by omega)]
      exact iff_of_true rfl hl
  -- the state in which the slot's entry is read
  set st1 := st.createCounters w with hst1
  have hrow1 : st1.row w = (st.row w).created := row_createCounters
  have hcnt : (st1.updtCnt w).getD 0 + 1 = Int32.ofNat (inds.length + 1) := by
    have : st1.updtCnt w = some ((st.row w).updtCnt.getD 0) := congrArg Row.updtCnt hrow1
    rw [this, Option.getD_some, h.cnt, ofNat_add_one]
  set st2 : State := { st1 with updtCnt := Function.update st1.updtCnt w (some (Int32.ofNat (inds.length + 1))) } with hst2
  have hrow2 : st2.row w = { (st.row w).created with updtCnt := some (Int32.ofNat (inds.length + 1)) } := by
    rw [hst2, row_updtCnt, hrow1]
  have haccess : (st2.row w).access = some (Int32.ofNat top) := by
    rw [hrow2]
    exact congrArg some h.access
  have htaken2 : st2.taken = st.taken := taken_createCounters st w
  have hnext : ∃ st3, nextAccess st2 w (Int32.ofNat (inds.length + 1)) =
      some (st3, Int32.ofNat (nextAcc accs inds.length)) ∧ st3.taken = st.taken ∧
      st3.row w = { (st.row w).created with
        updtCnt := some (Int32.ofNat (inds.length + 1))
        access := some (Int32.ofNat (max top (nextAcc accs inds.length))) } := by
    have hslot2 : (st2.row w).slot = (st.row w).slot := by rw [hrow2]; rfl
    unfold nextAccess
    simp only
    rw [find_slot, hslot2]
    by_cases hl : inds.length < accs.length
    · obtain ⟨a, hacc⟩ := exists_getElem? hl
      obtain ⟨z, hz, -⟩ := h.slot _ a hacc
      have hna : nextAcc accs inds.length = a + 1 := by rw [nextAcc, hacc]
      rw [hna] at ha ⊢
      rw [hz, Option.getD_some, if_neg (entry_ne_nil _ _), token_entry_one, stoi_toStr, Option.map_some, ofNat_add_one]
      refine ⟨_, rfl, htaken2, ?_⟩
      rw [row_raiseAccess, haccess, raised_ofNat h.top_lt ha, hrow2]
    · have hna : nextAcc accs inds.length = 1 := by
        rw [nextAcc, List.getElem?_eq_none (by omega)]
      rw [h.unused _ (by omega) (by omega), Option.getD_none, if_pos rfl, hna]
      refine ⟨st2, rfl, htaken2, ?_⟩
      rw [max_eq_left h.one_le_top, ← haccess, hrow2]
  obtain ⟨st3, hst3, htaken3, hrow3⟩ := hnext
  have hinsert : Horus.insert st w x =
      (fillSlot st3 w x (Int32.ofNat (inds.length + 1)) (Int32.ofNat (nextAcc accs inds.length)), some ()) := by
    unfold Horus.insert
    simp only
    rw [if_pos ((h.guard x).2 hx), ← hst1, hcnt, ← hst2, hst3]
  rw [hinsert]
  refine ⟨rfl, by rw [row_fillSlot, hrow3], ?_⟩
  rw [taken_fillSlot, htaken3, hrow3]
  have hp : ((st.row w).created.pair x).isNone = ((st.row w).pair x).isNone := rfl
  have hs : ((st.row w).created.slot (Int32.ofNat (inds.length + 1))).isNone =
      ((st.row w).slot (Int32.ofNat (inds.length + 1))).isNone := rfl
  simp only [hp, hs, hpairNone, hslotNone, ite_not]

/-! ## Remove -/

/-- What is read for a live pair. -/
theorem Entries.tokens_live (h : Entries (st.row w) inds accs top seen) {j a : Nat} {x : Int32} (hj : inds[j]? = some x)
    (ha : accs[j]? = some a) :
    stoi (token (st.find (createMapBid 0 w x)) 0) = some (Int32.ofNat (j + 1)) ∧
      stoi (token (st.find (createMapBid 0 w x)) 1) = some (Int32.ofNat a) := by
  rw [find_pair, h.pair j x a hj ha, Option.getD_some, token_entry_zero, token_entry_one]
  exact ⟨stoi_toStr _, stoi_toStr _⟩

/-- A removed pair is left alone. -/
theorem Entries.remove_gone (h : Entries (st.row w) inds accs top seen) {x : Int32} (hx : x ∉ inds) (hs : x ∈ seen) :
    remove st w x = (st, some ()) := by
  obtain ⟨c, hc⟩ := h.gone x hx hs
  have htoken : stoi (token (st.find (createMapBid 0 w x)) 0) = some (-1) := by
    rw [find_pair, hc, Option.getD_some, token_entry_zero]
    decide
  unfold remove
  simp only [htoken]
  rw [if_neg (by decide)]

/-- The removal of a pair that was never inserted throws, and changes nothing. -/
theorem Entries.remove_unseen (h : Entries (st.row w) inds accs top seen) {x : Int32} (hs : x ∉ seen) :
    remove st w x = (st, none) := by
  have htoken : stoi (token (st.find (createMapBid 0 w x)) 0) = none := by
    rw [find_pair, h.absent x hs, Option.getD_none]
    decide
  unfold remove
  simp only [htoken]

/-- What the removal of the ind in slot `j + 1` does. -/
structure Removed (st st' : State) (w : Str) (inds : List Int32) (accs : List Nat) (top : Nat) (seen : List Int32)
    (j a : Nat) : Prop where
  entries : Entries (st'.row w) (fill inds j) (if j + 1 < inds.length then put accs j (a + 1) else accs)
    (if j + 1 < inds.length then max top (a + 1) else top) seen
  last : (st'.row w).lastIND = (fill inds j).getLast?
  srchCnt : (st'.row w).srchCnt = (st.row w).srchCnt
  latest : (st'.row w).latestUpdatedCounter = (st.row w).latestUpdatedCounter
  box : (st'.row w).box =
    if j + 1 < inds.length then
      setBox (st.row w).box (Int32.ofNat (j + 1)) ((st.row w).srchCnt.getD 0) (Int32.ofNat (a + 1))
        (toStr (inds.getLastD 0).toInt)
    else (st.row w).box
  taken : st'.taken = ⟨st.taken.nodes, st.taken.boxes + if j + 1 < inds.length then 1 else 0⟩

/-- `UpdtCnt--` and the entry of the removed pair. -/
theorem row_removePair (st : State) (w : Str) (x c : Int32) (n : Nat) :
    State.row { st.insertNode (createMapBid 0 w x) (entry (-1) c) with
        updtCnt := Function.update st.updtCnt w (some (Int32.ofNat n)) } w =
      { st.row w with
        updtCnt := some (Int32.ofNat n)
        pair := Function.update (st.row w).pair x (some (entry (-1) c)) } := by
  have h : State.row { st.insertNode (createMapBid 0 w x) (entry (-1) c) with
      updtCnt := Function.update (st.insertNode (createMapBid 0 w x) (entry (-1) c)).updtCnt w (some (Int32.ofNat n)) } w =
      { (st.insertNode (createMapBid 0 w x) (entry (-1) c)).row w with updtCnt := some (Int32.ofNat n) } :=
    row_updtCnt (some (Int32.ofNat n))
  rw [row_insertNode_pair] at h
  exact h

/-- The entries of the last slot in use, read back at the end of a removal. -/
theorem Entries.last_token (h : Entries (st.row w) inds accs top seen) (hpos : 0 < inds.length) :
    stoi (token (st.find (createMapBid 1 w (Int32.ofNat inds.length))) 0) = inds.getLast? := by
  have hle := h.inds_le
  obtain ⟨a, ha⟩ := exists_getElem? (show inds.length - 1 < accs.length by omega)
  obtain ⟨z, hz, huniq⟩ := h.slot _ a ha
  have hlast := getElem?_last hpos
  rw [show inds.length - 1 + 1 = inds.length by omega] at hz
  rw [find_slot, hz, Option.getD_some, token_entry_zero, stoi_toStr, ← huniq _ hlast, List.getLast?_eq_getElem?, hlast]

/-- The end of a removal that leaves `cnt` slots: the ind of the last one is read back. -/
def State.readLast (st : State) (w : Str) (cnt : Int32) : State × Option Unit :=
  match stoi (token (st.find (createMapBid 1 w cnt)) 0) with
  | none => (st, none)
  | some last => ({ st with lastIND := Function.update st.lastIND w (some last) }, some ())

theorem readLast_some {st : State} {w : Str} {cnt last : Int32}
    (h : stoi (token (st.find (createMapBid 1 w cnt)) 0) = some last) :
    st.readLast w cnt = ({ st with lastIND := Function.update st.lastIND w (some last) }, some ()) := by
  rw [State.readLast, h]

/-- **Remove** fills the hole with the last ind. -/
theorem Entries.remove (h : Entries (st.row w) inds accs top seen) (hlast : (st.row w).lastIND = inds.getLast?)
    {j a : Nat} {x : Int32} (hj : inds[j]? = some x) (ha : accs[j]? = some a) (halt : a + 1 < 2 ^ 31) :
    (Horus.remove st w x).2 = some () ∧ Removed st (Horus.remove st w x).1 w inds accs top seen j a := by
  have hlt := lt_of_getElem?_eq_some hj
  have hle := h.inds_le
  have hacclt := h.accs_lt
  have htop := h.top_lt
  have haccess : (st.row w).access = some (Int32.ofNat top) := h.access_eq fun e => by rw [e] at ha; cases ha
  obtain ⟨htok0, htok1⟩ := h.tokens_live hj ha
  have hcnt : (st.updtCnt w).getD 0 = Int32.ofNat inds.length := h.cnt
  have hpairSome : (st.updt (createMapBid 0 w x)).isNone = false := by
    have : st.updt (createMapBid 0 w x) = _ := h.pair j x a hj ha
    rw [this]
    rfl
  -- the state before the swap
  set st1 : State := { st.insertNode (createMapBid 0 w x) (entry (-1) (Int32.ofNat (a + 1))) with
    updtCnt := Function.update st.updtCnt w (some (Int32.ofNat (inds.length - 1))) } with hst1
  have hrow1 : st1.row w = { st.row w with
      updtCnt := some (Int32.ofNat (inds.length - 1))
      pair := Function.update (st.row w).pair x (some (entry (-1) (Int32.ofNat (a + 1)))) } := row_removePair _ _ _ _ _
  have htaken1 : st1.taken = st.taken := by
    rw [hst1]
    show (st.insertNode (createMapBid 0 w x) (entry (-1) (Int32.ofNat (a + 1)))).taken = st.taken
    rw [taken_insertNode, hpairSome]
    rfl
  have hremove : Horus.remove st w x =
      if 0 < Int32.ofNat (inds.length - 1) then
        (if Int32.ofNat inds.length ≠ Int32.ofNat (j + 1) then
          fillHole st1 w (Int32.ofNat (j + 1)) (Int32.ofNat (a + 1)) else st1).readLast w (Int32.ofNat (inds.length - 1))
      else ({ st1 with lastIND := Function.update st1.lastIND w none }, some ()) := by
    have hone : Int32.ofNat (inds.length - 1) + 1 = Int32.ofNat inds.length := by
      rw [ofNat_add_one, Nat.sub_add_cancel (by omega)]
    unfold Horus.remove
    simp only [htok0, htok1, hcnt, ofNat_sub_one (show 0 < inds.length by omega), ofNat_add_one a, hone]
    refine (if_pos ((ofNat_pos (by omega)).2 (by omega))).trans ?_
    unfold State.readLast
    rfl
  -- the end of a removal that leaves a slot: the last ind is read back
  have hfinish : ∀ (st2 : State) (accs' : List Nat) (top' : Nat), Entries (st2.row w) (fill inds j) accs' top' seen →
      0 < inds.length - 1 →
      stoi (token (st2.find (createMapBid 1 w (Int32.ofNat (inds.length - 1)))) 0) = (fill inds j).getLast? ∧
        ∃ y, (fill inds j).getLast? = some y := by
    intro st2 accs' top' he hn
    have hpos : 0 < (fill inds j).length := by rw [length_fill]; exact hn
    have htok := he.last_token hpos
    rw [length_fill] at htok
    exact ⟨htok, _, List.getLast?_eq_some_getLast (List.ne_nil_of_length_pos hpos)⟩
  by_cases hswap : j + 1 < inds.length
  · -- the last ind moves
    set st2 := fillHole st1 w (Int32.ofNat (j + 1)) (Int32.ofNat (a + 1)) with hst2
    have hlastD : (st.row w).lastIND.getD 0 = inds.getLastD 0 := by
      rw [hlast, List.getLastD_eq_getLast?]
    have hrow2 := @row_fillHole st1 w (Int32.ofNat (j + 1)) (Int32.ofNat (a + 1))
    rw [hrow1] at hrow2
    simp only [Row.fillHole, haccess, hlastD, raised_ofNat htop halt] at hrow2
    have hentries : Entries (st2.row w) (fill inds j) (put accs j (a + 1)) (max top (a + 1)) seen := by
      rw [hst2, hrow2]
      exact h.swap hj hswap ha (le_max_right _ _) (le_max_left _ _) (max_lt htop halt) rfl rfl rfl rfl
    obtain ⟨hread, y, hy⟩ := hfinish st2 _ _ hentries (by omega)
    rw [hy] at hread
    have hne : Int32.ofNat inds.length ≠ Int32.ofNat (j + 1) := ofNat_ne_small (by omega) (by omega) (by omega)
    rw [if_pos ((ofNat_pos (by omega)).2 (by omega)), if_pos hne, readLast_some hread] at hremove
    simp only [hremove, true_and]
    have hrow3 : State.row { st2 with lastIND := Function.update st2.lastIND w (some y) } w =
        { st2.row w with lastIND := some y } := row_lastIND _
    refine ⟨?_, ?_, ?_, ?_, ?_, ?_⟩
    · rw [hrow3, if_pos hswap, if_pos hswap]
      exact hentries.congr rfl id rfl rfl rfl
    · rw [hrow3, hy]
    · rw [hrow3, hst2, hrow2]
    · rw [hrow3, hst2, hrow2]
    · rw [hrow3, hst2, hrow2, if_pos hswap]
    · rw [if_pos hswap]
      show st2.taken = _
      have hlastmem : ∃ b, (st1.row w).pair (inds.getLastD 0) = some b := by
        obtain ⟨b, hb, -⟩ := h.acc_of_ind (getElem?_last (l := inds) (by omega))
        rw [hrow1]
        by_cases he : inds.getLastD 0 = x
        · exact ⟨_, by rw [he]; exact Function.update_self _ _ _⟩
        · exact ⟨_, (Function.update_of_ne he _ _).trans (h.pair _ _ b (getElem?_last (by omega)) hb)⟩
      obtain ⟨z, hz, -⟩ := h.slot j a ha
      have hslotSome : (st1.row w).slot (Int32.ofNat (j + 1)) = some (entry z (Int32.ofNat a)) := by
        rw [hrow1]
        exact hz
      obtain ⟨b, hb⟩ := hlastmem
      have hl1 : (st1.row w).lastIND.getD 0 = inds.getLastD 0 := by rw [hrow1, hlastD]
      rw [hst2, taken_fillHole, htaken1, hl1, hb, hslotSome]
      rfl
  · -- the last slot is dropped
    obtain rfl : j = inds.length - 1 := by omega
    have hentries : Entries (st1.row w) (fill inds (inds.length - 1)) accs top seen := by
      rw [hrow1]
      exact h.drop hj rfl rfl rfl rfl
    have hsame : Int32.ofNat inds.length = Int32.ofNat (inds.length - 1 + 1) := by
      rw [Nat.sub_add_cancel (by omega)]
    -- whatever `lastIND` is read as
    have hdone : ∀ v, v = (fill inds (inds.length - 1)).getLast? →
        Removed st { st1 with lastIND := Function.update st1.lastIND w v } w inds accs top seen (inds.length - 1) a := by
      rintro v rfl
      have hrow3 : State.row
          { st1 with lastIND := Function.update st1.lastIND w (fill inds (inds.length - 1)).getLast? } w =
          { st1.row w with lastIND := (fill inds (inds.length - 1)).getLast? } := row_lastIND _
      refine ⟨?_, ?_, ?_, ?_, ?_, ?_⟩
      · rw [hrow3, if_neg hswap, if_neg hswap]
        exact hentries.congr rfl id rfl rfl rfl
      · rw [hrow3]
      · rw [hrow3, hrow1]
      · rw [hrow3, hrow1]
      · rw [hrow3, hrow1, if_neg hswap]
      · rw [if_neg hswap]
        exact htaken1
    by_cases hn : 0 < inds.length - 1
    · obtain ⟨hread, y, hy⟩ := hfinish st1 _ _ hentries hn
      rw [hy] at hread
      rw [if_pos ((ofNat_pos (by omega)).2 hn), if_neg (not_not_intro hsame), readLast_some hread] at hremove
      rw [hremove]
      exact ⟨rfl, hdone (some y) hy.symm⟩
    · rw [if_neg fun e => hn ((ofNat_pos (by omega)).1 e)] at hremove
      rw [hremove]
      refine ⟨rfl, hdone none ?_⟩
      have hfill : fill inds (inds.length - 1) = [] := List.eq_nil_of_length_eq_zero (by rw [length_fill]; omega)
      rw [hfill]
      rfl

end

end Sse.Horus
