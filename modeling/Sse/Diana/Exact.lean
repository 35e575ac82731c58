import Sse.Diana.Ledger

/-!
# Searches of Diana with deletions

`delCntMap` keeps one counter for a pair, that of its last insert.  A search resolves every
deletion of the pair to this counter, so two deletions of one pair under the same key
remove one insert only; one deletion removes one insert of the pair, whichever it is.
Under one key, therefore, with at most one deletion for each ind,

    inserts of ind = [ind was deleted] + [ind is live]

and a search, which leaves out one insert of every deleted ind, returns every live ind once
(`diana_search_exact`).
-/

namespace Sse.Diana

/-! ## Tables as lists -/

namespace Table

variable {T : Type*}

/-- The entries of the table, in the order of their counters. -/
structure Lists (t : Table T) (l : List T) : Prop where
  cnt : t.cnt = if l = [] then none else some (UInt32.ofNat (l.length - 1))
  slot : ∀ i : UInt32, t.slot i = l[i.toNat]?

theorem lists_empty : Lists (empty : Table T) [] := ⟨rfl, fun _ => rfl⟩

theorem Lists.nextCnt {t : Table T} {l : List T} (h : t.Lists l) : nextCnt t.cnt = UInt32.ofNat l.length := by
  rw [h.cnt]
  cases l with
  | nil => rfl
  | cons x l =>
    simp only [if_neg (List.cons_ne_nil x l), List.length_cons, Nat.add_sub_cancel, Sse.nextCnt]
    rw [UInt32.ofNat_add]
    rfl

theorem Lists.push {t : Table T} {l : List T} (h : t.Lists l) (hl : l.length < 2 ^ 32) (usehdd : Bool) (x : T) :
    (t.push usehdd x).Lists (l ++ [x]) := by
  have hn : (UInt32.ofNat l.length).toNat = l.length := by
    rw [UInt32.toNat_ofNat', Nat.mod_eq_of_lt hl]
  -- the next counter is free, so both servers store the entry
  have hfree : t.slot (UInt32.ofNat l.length) = none := by
    rw [h.slot, hn]
    exact List.getElem?_eq_none le_rfl
  refine ⟨?_, fun i => ?_⟩
  · simp [Table.push, h.nextCnt]
  · simp only [Table.push, h.nextCnt, hfree, or_true, if_true, Function.update_apply]
    split
    · next e =>
      rw [e, hn]
      simp
    · next hne =>
      have hi : i.toNat ≠ l.length := by
        intro e
        apply hne
        rw [← e, UInt32.ofNat_toNat]
      rw [h.slot]
      rcases Nat.lt_or_gt_of_ne hi with hlt | hgt
      · rw [List.getElem?_append_left hlt]
      · rw [List.getElem?_eq_none (by omega), List.getElem?_eq_none (by simp; omega)]

theorem Lists.read {t : Table T} {l : List T} (h : t.Lists l) {is : List Nat} (his : ∀ i ∈ is, i < 2 ^ 32) :
    t.read is = is.filterMap (l[·]?) := by
  apply List.filterMap_congr
  intro i hi
  rw [h.slot, UInt32.toNat_ofNat', Nat.mod_eq_of_lt (his i hi)]

theorem Lists.cnt_toNat {t : Table T} {l : List T} (h : t.Lists l) (hl : l.length < 2 ^ 32) {c : UInt32}
    (hc : t.cnt = some c) : l ≠ [] ∧ (c + 1).toNat = l.length := by
  have hne : l ≠ [] := by
    rintro rfl
    rw [h.cnt] at hc
    cases hc
  have hnext := h.nextCnt
  rw [hc] at hnext
  refine ⟨hne, ?_⟩
  have hn : c + 1 = UInt32.ofNat l.length := hnext
  rw [hn, UInt32.toNat_ofNat', Nat.mod_eq_of_lt hl]

/-- Without deletions every entry is found. -/
theorem Lists.allBut_nil {t : Table T} {l : List T} (h : t.Lists l) (hl : l.length < 2 ^ 32) :
    t.allBut [] = some l := by
  unfold allBut
  cases hc : t.cnt with
  | none =>
    rw [h.cnt] at hc
    split at hc
    · next e => rw [e]
    · cases hc
  | some c =>
    obtain ⟨hne, hn⟩ := h.cnt_toNat hl hc
    have hpos : l.length ≠ 0 := by simpa using hne
    simp only [hn, List.length_nil, if_true, if_neg hpos]
    rw [h.read (fun i hi => lt_trans (List.mem_range.1 hi) hl), filterMap_range_getElem?]

/-- With deletions the entries at the other counters are found, unless there is none. -/
theorem Lists.allBut_del {t : Table T} {l : List T} (h : t.Lists l) (hl : l.length ≤ 2 ^ 30) {dels : List UInt32}
    (hd : dels ≠ []) (hlt : ∀ c ∈ dels, c.toNat < l.length)
    (hsome : ∃ i < l.length, i ∉ dels.map UInt32.toNat) :
    ∃ r, t.allBut dels = some r ∧
      r.Perm (((List.range l.length).filter (· ∉ dels.map UInt32.toNat)).filterMap (l[·]?)) := by
  obtain ⟨i₀, hi₀, hkeep⟩ := hsome
  have h32 : l.length < 2 ^ 32 := lt_of_le_of_lt hl (by decide)
  have hdne : dels.map UInt32.toNat ≠ [] := by simpa using hd
  have hlen : ¬ dels.length = 0 := by simpa using hd
  have hdlt : ∀ c ∈ dels.map UInt32.toNat, c < l.length := by
    intro c hc
    obtain ⟨c', hc', rfl⟩ := List.mem_map.1 hc
    exact hlt c' hc'
  obtain ⟨is, his⟩ := kept_isSome (d := kTreeDepth) (show 1 ≤ l.length by omega)
    (le_trans hl (by decide)) hl hdlt
  have hperm := kept_perm hdne his
  have hmem : i₀ ∈ is := hperm.mem_iff.2 (List.mem_filter.2 ⟨List.mem_range.2 hi₀, by simpa using hkeep⟩)
  unfold allBut
  cases hc : t.cnt with
  | none =>
    rw [h.cnt] at hc
    split at hc
    · next e =>
      rw [e] at hi₀
      exact absurd hi₀ (Nat.not_lt_zero _)
    · cases hc
  | some c =>
    obtain ⟨-, hn⟩ := h.cnt_toNat h32 hc
    simp only [hn, if_neg hlen, his]
    cases is with
    | nil => cases hmem
    | cons i is =>
      refine ⟨_, rfl, ?_⟩
      rw [h.read fun j hj => lt_trans (mem_kept_lt hdne his hj) h32]
      exact hperm.filterMap _

end Table

/-! ## What the history says about a keyword -/

/-- The inds of a keyword, and what is stored under its current key. -/
structure Account where
  live : Finset UInt64
  /-- The number of inserts under the current key. -/
  stored : Nat
  /-- The inds deleted under the current key. -/
  deleted : Finset UInt64
  /-- The number of the current key; 0 as long as the keyword has none. -/
  epoch : Nat
  /-- Whether a search came first and left the empty key behind. -/
  lost : Bool

namespace Account

def start : Account := ⟨∅, 0, ∅, 0, false⟩

/-- One more call on the keyword. -/
def note (deleteResults : Bool) (a : Account) : Op → Account
  | .insert _ ind => { a with live := insert ind a.live, stored := a.stored + 1, epoch := max a.epoch 1 }
  | .delete _ ind => { a with live := a.live.erase ind, deleted := insert ind a.deleted, epoch := max a.epoch 1 }
  | .search _ =>
    if deleteResults then { a with stored := a.live.card, deleted := ∅, epoch := a.epoch + 1 }
    else { a with lost := a.lost || a.epoch == 0 }

end Account

/-- The account of a keyword after some calls. -/
def account (deleteResults : Bool) (hist : List Op) (w : Str) : Account :=
  (hist.filter (·.keyword == w)).foldl (Account.note deleteResults) .start

/-- Key number `e` of a keyword. -/
def keyAt (w : Str) (e : Nat) : Str := w ++ toStr (Int32.ofNat e).toInt

/-- The calls on which a search can rely.

* An insert is of a pair that is not live, a deletion of a live pair that was not deleted before
  under the current key.
* A key takes less than `2 ^ 32` inserts, at most `2 ^ 30` when a search meets deletions.
* A search does not find all inserts of the key deleted.
* A keyword is not searched before its first insert when searches keep the key.
* A new key was no key of any keyword before. -/
def Sound (deleteResults : Bool) (hist : List Op) (op : Op) : Prop :=
  let a := account deleteResults hist op.keyword
  (match op with
    | .insert _ ind => ind ∉ a.live ∧ a.stored + 1 < 2 ^ 32 ∧ a.lost = false
    | .delete _ ind => ind ∈ a.live ∧ ind ∉ a.deleted
    | .search _ => a.deleted = ∅ ∨ a.live ≠ ∅ ∧ a.stored ≤ 2 ^ 30) ∧
  (a.epoch < (a.note deleteResults op).epoch → ∀ op' ∈ hist, ∀ e ≤ (account deleteResults hist op'.keyword).epoch,
    1 ≤ e → keyAt op'.keyword e ≠ keyAt op.keyword (a.note deleteResults op).epoch)

instance (deleteResults : Bool) (hist : List Op) : ∀ op, Decidable (Sound deleteResults hist op)
  | .insert _ _ => inferInstanceAs (Decidable ((_ ∧ _ ∧ _) ∧ _))
  | .delete _ _ => inferInstanceAs (Decidable ((_ ∧ _) ∧ _))
  | .search _ => inferInstanceAs (Decidable ((_ ∨ _) ∧ _))

theorem account_concat (deleteResults : Bool) (hist : List Op) (op : Op) (w : Str) :
    account deleteResults (hist ++ [op]) w =
      if op.keyword = w then (account deleteResults hist w).note deleteResults op
      else account deleteResults hist w := by
  unfold account
  rw [List.filter_append, List.foldl_append]
  split
  · next e => simp [e]
  · next hne => simp [hne]

/-! ## One key -/

/-- The tables of a key hold what the account says. -/
structure Keeps (a : Account) (ins del : Table UInt64) (cnts : UInt64 → Option UInt32)
    (insL delL : List UInt64) : Prop where
  bound : a.stored < 2 ^ 32
  ins : ins.Lists insL
  del : del.Lists delL
  cnts : ∀ ind ∈ insL, ∃ c, cnts ind = some c ∧ insL[c.toNat]? = some ind
  stored : insL.length = a.stored
  deleted : ∀ ind, ind ∈ delL ↔ ind ∈ a.deleted
  nodup : delL.Nodup
  count : ∀ ind, insL.count ind = (if ind ∈ delL then 1 else 0) + (if ind ∈ a.live then 1 else 0)

/-- The entries left, and one entry for each deleted ind, are all entries. -/
theorem kept_append_perm {α : Type} [DecidableEq α] {l dels : List α} (pos : α → Nat) (hnd : dels.Nodup)
    (hpos : ∀ x ∈ dels, l[pos x]? = some x) :
    (((List.range l.length).filter (· ∉ dels.map pos)).filterMap (l[·]?) ++ dels).Perm l := by
  have hlt : ∀ x ∈ dels, pos x < l.length := fun x hx => lt_of_getElem?_eq_some (hpos x hx)
  have hinj : ∀ x ∈ dels, ∀ y ∈ dels, pos x = pos y → x = y := by
    intro x hx y hy e
    have hy' := hpos y hy
    rw [← e, hpos x hx] at hy'
    exact Option.some.inj hy'
  have hout : ((List.range l.length).filter (· ∈ dels.map pos)).Perm (dels.map pos) := by
    refine (List.perm_ext_iff_of_nodup (List.nodup_range.filter _) (hnd.map_on hinj)).2 fun i => ?_
    rw [List.mem_filter, List.mem_range, decide_eq_true_eq]
    constructor
    · exact fun h => h.2
    · intro h
      obtain ⟨x, hx, rfl⟩ := List.mem_map.1 h
      exact ⟨hlt x hx, h⟩
  have hdels : (dels.map pos).filterMap (l[·]?) = dels := by
    rw [List.filterMap_map]
    have : dels.filterMap ((l[·]?) ∘ pos) = dels.filterMap some := List.filterMap_congr hpos
    rw [this, List.filterMap_some]
  have hsplit : ((List.range l.length).filter (· ∈ dels.map pos) ++
      (List.range l.length).filter (fun i => !decide (i ∈ dels.map pos))).Perm (List.range l.length) :=
    List.filter_append_perm _ _
  have hall := hsplit.filterMap (l[·]?)
  rw [List.filterMap_append, filterMap_range_getElem?] at hall
  have hback := (hout.filterMap (l[·]?))
  rw [hdels] at hback
  refine List.Perm.trans ?_ hall
  refine List.perm_append_comm.trans ?_
  simp only [decide_not]
  exact hback.symm.append_right _

section

variable {B : Type} {S : Setting B} {a : Account} {ins del : Table UInt64} {cnts : UInt64 → Option UInt32}
  {insL delL : List UInt64}

theorem Keeps.length_delL (h : Keeps a ins del cnts insL delL) : delL.length ≤ insL.length := by
  have hsub : delL ⊆ insL := by
    intro ind hind
    have hc := h.count ind
    rw [if_pos hind] at hc
    exact List.count_pos_iff.1 (by omega)
  exact (h.nodup.subperm hsub).length_le

/-- **The search of one key** returns the live inds, each once. -/
theorem Keeps.visible (h : Keeps a ins del cnts insL delL)
    (hround : ∀ c : UInt32, c.toNat < 2 ^ 31 → parseCnt S (S.encode (natStr c.toNat)) = some c)
    (hsafe : a.deleted = ∅ ∨ a.live ≠ ∅ ∧ a.stored ≤ 2 ^ 30) :
    ∃ r, Ledger.visible S ins del cnts = some r ∧ ∀ ind, r.count ind = if ind ∈ a.live then 1 else 0 := by
  have hlt := h.bound
  have hdel := h.del.allBut_nil (lt_of_le_of_lt h.length_delL (h.stored ▸ hlt))
  unfold Ledger.visible
  simp only [Option.bind_eq_bind, hdel, Option.bind_some]
  by_cases hempty : delL = []
  · subst hempty
    refine ⟨insL, ?_, fun ind => by simpa using h.count ind⟩
    exact h.ins.allBut_nil (h.stored ▸ hlt)
  · obtain ⟨d₀, hd₀⟩ := List.exists_mem_of_ne_nil _ hempty
    have hdne : a.deleted ≠ ∅ := Finset.ne_empty_of_mem ((h.deleted d₀).1 hd₀)
    obtain ⟨hlive, hcap⟩ := hsafe.resolve_left hdne
    rw [← h.stored] at hcap
    -- every deletion is resolved to the counter of one insert of its ind
    set pos : UInt64 → UInt32 := fun ind => (cnts ind).getD 0 with hpos
    have hmem : ∀ ind ∈ delL, ind ∈ insL := by
      intro ind hind
      have hc := h.count ind
      rw [if_pos hind] at hc
      exact List.count_pos_iff.1 (by omega)
    have hat : ∀ ind ∈ delL, cnts ind = some (pos ind) ∧ insL[(pos ind).toNat]? = some ind := by
      intro ind hind
      obtain ⟨c, hc, hat⟩ := h.cnts ind (hmem ind hind)
      have hpc : pos ind = c := by simp [hpos, hc]
      rw [hpc]
      exact ⟨hc, hat⟩
    have hlt' : ∀ ind ∈ delL, (pos ind).toNat < insL.length := fun ind hind =>
      lt_of_getElem?_eq_some (hat ind hind).2
    have hcnts : delL.mapM (fun ind => parseCnt S (Ledger.cntCode S (cnts ind))) = some (delL.map pos) := by
      apply mapM_eq_some_map
      intro ind hind
      rw [(hat ind hind).1]
      exact hround _ (lt_of_lt_of_le (hlt' ind hind) (le_trans hcap (by decide)))
    rw [hcnts, Option.bind_some]
    have hperm := kept_append_perm (fun ind => (pos ind).toNat) h.nodup fun ind hind => (hat ind hind).2
    have hmap : (delL.map pos).map UInt32.toNat = delL.map fun ind => (pos ind).toNat := by
      rw [List.map_map]
      rfl
    set rest := ((List.range insL.length).filter (· ∉ delL.map fun ind => (pos ind).toNat)).filterMap (insL[·]?)
      with hrest
    have hcount : ∀ ind, rest.count ind = if ind ∈ a.live then 1 else 0 := by
      intro ind
      have hc := hperm.count_eq ind
      rw [List.count_append, h.count, h.nodup.count] at hc
      omega
    -- a live ind has an insert that is left
    have hsome : ∃ i < insL.length, i ∉ (delL.map pos).map UInt32.toNat := by
      obtain ⟨ind, hind⟩ := Finset.nonempty_iff_ne_empty.2 hlive
      have hin : ind ∈ rest := List.count_pos_iff.1 (by rw [hcount, if_pos hind]; omega)
      obtain ⟨i, hi, -⟩ := List.mem_filterMap.1 hin
      obtain ⟨hi, hkeep⟩ := List.mem_filter.1 hi
      refine ⟨i, List.mem_range.1 hi, ?_⟩
      rw [hmap]
      simpa using hkeep
    have hdels : delL.map pos ≠ [] := by simpa using hempty
    have hdlt : ∀ c ∈ delL.map pos, c.toNat < insL.length := by
      intro c hc
      obtain ⟨ind, hind, rfl⟩ := List.mem_map.1 hc
      exact hlt' ind hind
    obtain ⟨r, hr, hrperm⟩ := h.ins.allBut_del hcap hdels hdlt hsome
    refine ⟨r, hr, fun ind => ?_⟩
    rw [hmap] at hrperm
    rw [hrperm.count_eq, hcount]

theorem Keeps.card_live (h : Keeps a ins del cnts insL delL) : a.live.card ≤ a.stored := by
  have hsub : a.live ⊆ insL.toFinset := by
    intro ind hind
    have hc := h.count ind
    rw [if_pos hind] at hc
    exact List.mem_toFinset.2 (List.count_pos_iff.1 (by omega))
  rw [← h.stored]
  exact (Finset.card_le_card hsub).trans (List.toFinset_card_le insL)

theorem keeps_empty (cnts : UInt64 → Option UInt32) (e : Nat) (b : Bool) :
    Keeps ⟨∅, 0, ∅, e, b⟩ .empty .empty cnts [] [] where
  bound := Nat.two_pow_pos 32
  ins := Table.lists_empty
  del := Table.lists_empty
  cnts := fun _ h => by cases h
  stored := rfl
  deleted := by simp
  nodup := List.nodup_nil
  count := by simp

theorem Keeps.insert (h : Keeps a ins del cnts insL delL) (dr usehdd : Bool) (w : Str) {ind : UInt64}
    (hnew : ind ∉ a.live) (hlt : a.stored + 1 < 2 ^ 32) :
    Keeps (a.note dr (.insert w ind)) (ins.push usehdd ind) del
      (Function.update cnts ind (some (nextCnt ins.cnt))) (insL ++ [ind]) delL where
  bound := hlt
  ins := h.ins.push (h.stored ▸ h.bound) usehdd ind
  del := h.del
  cnts := by
    intro ind' hind'
    have hlen : (UInt32.ofNat insL.length).toNat = insL.length := by
      rw [UInt32.toNat_ofNat', Nat.mod_eq_of_lt (h.stored ▸ h.bound)]
    by_cases he : ind' = ind
    · subst he
      refine ⟨UInt32.ofNat insL.length, by rw [Function.update_self, h.ins.nextCnt], ?_⟩
      rw [hlen]
      simp
    · have hold : ind' ∈ insL := by
        rcases List.mem_append.1 hind' with hm | hm
        · exact hm
        · exact absurd (List.mem_singleton.1 hm) he
      obtain ⟨c, hc, hat⟩ := h.cnts ind' hold
      refine ⟨c, by rw [Function.update_of_ne he, hc], ?_⟩
      rw [List.getElem?_append_left (lt_of_getElem?_eq_some hat), hat]
  stored := by simp [Account.note, h.stored]
  deleted := h.deleted
  nodup := h.nodup
  count := by
    intro ind'
    have hc := h.count ind'
    simp only [Account.note, Finset.mem_insert]
    rw [List.count_append, List.count_singleton]
    by_cases he : ind' = ind
    · subst he
      rw [if_neg hnew] at hc
      simp [hc]
    · have hne : ¬ (ind == ind') = true := by simpa using fun e => he e.symm
      simp [hc, he, hne]

theorem Keeps.delete (h : Keeps a ins del cnts insL delL) (dr usehdd : Bool) (w : Str) {ind : UInt64}
    (hlive : ind ∈ a.live) (honce : ind ∉ a.deleted) :
    Keeps (a.note dr (.delete w ind)) ins (del.push usehdd ind) cnts insL (delL ++ [ind]) where
  bound := h.bound
  ins := h.ins
  del := h.del.push (lt_of_le_of_lt h.length_delL (h.stored ▸ h.bound)) usehdd ind
  cnts := h.cnts
  stored := h.stored
  deleted := by
    intro ind'
    simp only [Account.note, List.mem_append, List.mem_singleton, Finset.mem_insert, h.deleted]
    exact Or.comm
  nodup := by
    have hnot : ind ∉ delL := fun hm => honce ((h.deleted ind).1 hm)
    rw [List.nodup_append]
    refine ⟨h.nodup, List.nodup_singleton ind, ?_⟩
    intro x hx y hy e
    rw [List.mem_singleton] at hy
    exact hnot (by rw [← hy, ← e]; exact hx)
  count := by
    intro ind'
    have hnot : ind ∉ delL := fun hm => honce ((h.deleted ind).1 hm)
    have hc := h.count ind'
    simp only [Account.note, List.mem_append, List.mem_singleton, Finset.mem_erase]
    by_cases he : ind' = ind
    · subst he
      rw [if_pos hlive, if_neg hnot] at hc
      simp [hc]
    · simp [hc, he]

end

/-! ## All keys -/

theorem keyAt_ne_nil (w : Str) (e : Nat) : keyAt w e ≠ [] := fun h =>
  toStr_ne_nil _ (List.append_eq_nil_iff.1 h).2

/-- The ledger holds what the accounts of all keywords say. -/
structure Balanced (dr : Bool) (A : Str → Account) (led : Ledger) : Prop where
  keywordsToken : ∀ w, led.keywordsToken w =
    if (A w).epoch = 0 then if (A w).lost then some [] else none else some (keyAt w (A w).epoch)
  keywordsCounter : ∀ w, led.keywordsCounter w =
    if (A w).epoch = 0 then none else some (Int32.ofNat (A w).epoch)
  keeps : ∀ w, (A w).epoch ≠ 0 → ∃ insL delL, Keeps (A w) (led.ins (keyAt w (A w).epoch))
    (led.del (keyAt w (A w).epoch)) (led.cnts (keyAt w (A w).epoch)) insL delL
  blank : ∀ k, (∀ w e, 1 ≤ e → e ≤ (A w).epoch → k ≠ keyAt w e) → led.ins k = .empty ∧ led.del k = .empty
  apart : ∀ w w', w ≠ w' → (A w).epoch ≠ 0 → (A w').epoch ≠ 0 →
    keyAt w (A w).epoch ≠ keyAt w' (A w').epoch
  start : ∀ w, (A w).epoch = 0 → (A w).live = ∅ ∧ (A w).stored = 0 ∧ (A w).deleted = ∅
  lost : ∀ w, (A w).lost = true → dr = false ∧ (A w).epoch = 0

theorem balanced_init (dr : Bool) : Balanced dr (fun _ => .start) Ledger.init where
  keywordsToken := fun _ => rfl
  keywordsCounter := fun _ => rfl
  keeps := fun _ h => absurd rfl h
  blank := fun _ _ => ⟨rfl, rfl⟩
  apart := fun _ _ _ h => absurd rfl h
  start := fun _ _ => ⟨rfl, rfl, rfl⟩
  lost := fun _ h => by cases h

namespace Balanced

variable {B : Type} {S : Setting B} {dr : Bool} {A : Str → Account} {led led' : Ledger} {w : Str}

/-- A change of what is stored under the current key of one keyword. -/
theorem modify (h : Balanced dr A led) (he : (A w).epoch ≠ 0) {a : Account} (hae : a.epoch = (A w).epoch)
    (hal : a.lost = (A w).lost) (hT : led'.keywordsToken = led.keywordsToken)
    (hC : led'.keywordsCounter = led.keywordsCounter)
    (hframe : ∀ k, k ≠ keyAt w (A w).epoch →
      led'.ins k = led.ins k ∧ led'.del k = led.del k ∧ led'.cnts k = led.cnts k)
    (hkeeps : ∃ insL delL, Keeps a (led'.ins (keyAt w (A w).epoch)) (led'.del (keyAt w (A w).epoch))
      (led'.cnts (keyAt w (A w).epoch)) insL delL) :
    Balanced dr (Function.update A w a) led' := by
  have hepoch : ∀ w', (Function.update A w a w').epoch = (A w').epoch := by
    intro w'
    by_cases hw : w' = w
    · rw [hw, Function.update_self, hae]
    · rw [Function.update_of_ne hw]
  have hlost : ∀ w', (Function.update A w a w').lost = (A w').lost := by
    intro w'
    by_cases hw : w' = w
    · rw [hw, Function.update_self, hal]
    · rw [Function.update_of_ne hw]
  refine ⟨fun w' => ?_, fun w' => ?_, fun w' hw' => ?_, fun k hk => ?_, fun w1 w2 hne h1 h2 => ?_,
    fun w' hw' => ?_, fun w' hw' => ?_⟩
  · rw [hT, hepoch, hlost]
    exact h.keywordsToken w'
  · rw [hC, hepoch]
    exact h.keywordsCounter w'
  · rw [hepoch] at hw' ⊢
    by_cases hw : w' = w
    · rw [hw, Function.update_self]
      exact hkeeps
    · obtain ⟨f1, f2, f3⟩ := hframe _ (h.apart w' w hw hw' he)
      rw [Function.update_of_ne hw, f1, f2, f3]
      exact h.keeps w' hw'
  · have hk' : ∀ w e, 1 ≤ e → e ≤ (A w).epoch → k ≠ keyAt w e := fun w' e h1 h2 =>
      hk w' e h1 (by rw [hepoch]; exact h2)
    obtain ⟨f1, f2, -⟩ := hframe k (hk' w _ (Nat.one_le_iff_ne_zero.2 he) le_rfl)
    rw [f1, f2]
    exact h.blank k hk'
  · rw [hepoch] at h1 h2 ⊢
    rw [hepoch]
    exact h.apart w1 w2 hne h1 h2
  · rw [hepoch] at hw'
    have hw : w' ≠ w := fun e => he (by rw [← e]; exact hw')
    rw [Function.update_of_ne hw]
    exact h.start w' hw'
  · rw [hlost] at hw'
    rw [hepoch]
    exact h.lost w' hw'

/-- A keyword takes a key that nobody had before. -/
theorem enter (h : Balanced dr A led) {e : Nat} (hlt : (A w).epoch < e)
    (hfresh : ∀ w' e', 1 ≤ e' → e' ≤ (A w').epoch → keyAt w' e' ≠ keyAt w e) :
    Balanced dr (Function.update A w ⟨∅, 0, ∅, e, false⟩)
      { led with
        keywordsToken := Function.update led.keywordsToken w (some (keyAt w e))
        keywordsCounter := Function.update led.keywordsCounter w (some (Int32.ofNat e)) } := by
  have he : e ≠ 0 := by omega
  refine ⟨fun w' => ?_, fun w' => ?_, fun w' hw' => ?_, fun k hk => ?_, fun w1 w2 hne h1 h2 => ?_,
    fun w' hw' => ?_, fun w' hw' => ?_⟩
  · by_cases hw : w' = w
    · simp [hw, he]
    · simp only [Function.update_of_ne hw]
      exact h.keywordsToken w'
  · by_cases hw : w' = w
    · simp [hw, he]
    · simp only [Function.update_of_ne hw]
      exact h.keywordsCounter w'
  · by_cases hw : w' = w
    · obtain ⟨b1, b2⟩ := h.blank (keyAt w e) fun w' e' h1 h2 => (hfresh w' e' h1 h2).symm
      rw [hw, Function.update_self]
      simp only [b1, b2]
      exact ⟨[], [], keeps_empty _ e false⟩
    · rw [Function.update_of_ne hw] at hw' ⊢
      exact h.keeps w' hw'
  · refine h.blank k fun w' e' h1 h2 => hk w' e' h1 ?_
    by_cases hw : w' = w
    · rw [hw] at h2
      rw [hw, Function.update_self]
      exact le_of_lt (lt_of_le_of_lt h2 hlt)
    · rw [Function.update_of_ne hw]
      exact h2
  · by_cases hw1 : w1 = w
    · have hw2 : w2 ≠ w := fun e => hne (by rw [hw1, e])
      rw [hw1, Function.update_self, Function.update_of_ne hw2]
      rw [Function.update_of_ne hw2] at h2
      exact (hfresh w2 _ (Nat.one_le_iff_ne_zero.2 h2) le_rfl).symm
    · rw [Function.update_of_ne hw1] at h1 ⊢
      by_cases hw2 : w2 = w
      · rw [hw2, Function.update_self]
        exact hfresh w1 _ (Nat.one_le_iff_ne_zero.2 h1) le_rfl
      · rw [Function.update_of_ne hw2] at h2 ⊢
        exact h.apart w1 w2 hne h1 h2
  · by_cases hw : w' = w
    · rw [hw, Function.update_self] at hw'
      exact absurd hw' he
    · rw [Function.update_of_ne hw] at hw' ⊢
      exact h.start w' hw'
  · by_cases hw : w' = w
    · rw [hw, Function.update_self] at hw'
      cases hw'
    · rw [Function.update_of_ne hw] at hw' ⊢
      exact h.lost w' hw'

theorem updateKey_eq (h : Balanced dr A led) (he : (A w).epoch ≠ 0) :
    led.updateKey w = (led, keyAt w (A w).epoch) := by
  unfold Ledger.updateKey
  rw [h.keywordsToken, if_neg he]

theorem insertKeep (h : Balanced dr A led) (he : (A w).epoch ≠ 0) {ind : UInt64} (hnew : ind ∉ (A w).live)
    (hlt : (A w).stored + 1 < 2 ^ 32) :
    Balanced dr (Function.update A w ((A w).note dr (.insert w ind))) (led.insert S w ind) := by
  have hled : led.insert S w ind = Ledger.insertAt S led (keyAt w (A w).epoch) ind := by
    rw [Ledger.insert, h.updateKey_eq he]
  rw [hled]
  obtain ⟨insL, delL, hk⟩ := h.keeps w he
  have hmax : max (A w).epoch 1 = (A w).epoch := by omega
  refine h.modify he hmax rfl rfl rfl ?_ ⟨insL ++ [ind], delL, ?_⟩
  · intro k hne
    exact ⟨Function.update_of_ne hne _ _, rfl, Function.update_of_ne hne _ _⟩
  · simp only [Ledger.insertAt, Function.update_self]
    exact hk.insert dr S.usehdd w hnew hlt

theorem deleteKeep (h : Balanced dr A led) (he : (A w).epoch ≠ 0) {ind : UInt64} (hlive : ind ∈ (A w).live)
    (honce : ind ∉ (A w).deleted) :
    Balanced dr (Function.update A w ((A w).note dr (.delete w ind))) (led.delete S w ind) := by
  set k := keyAt w (A w).epoch with hk
  have hled : led.delete S w ind =
      { led with del := Function.update led.del k ((led.del k).push S.usehdd ind) } := by
    rw [Ledger.delete, h.updateKey_eq he]
  rw [hled]
  obtain ⟨insL, delL, hkeeps⟩ := h.keeps w he
  have hmax : max (A w).epoch 1 = (A w).epoch := by omega
  refine h.modify he hmax rfl rfl rfl ?_ ⟨insL, delL ++ [ind], ?_⟩
  · intro k' hne
    exact ⟨rfl, Function.update_of_ne hne _ _, rfl⟩
  · rw [← hk]
    simp only [Function.update_self]
    exact hkeeps.delete dr S.usehdd w hlive honce

/-- The first update of a keyword gives it its first key. -/
theorem insert_updateKey (led : Ledger) (w : Str) (ind : UInt64) :
    (led.updateKey w).1.insert S w ind = led.insert S w ind := by
  unfold Ledger.insert Ledger.updateKey
  cases ht : led.keywordsToken w with
  | some key => simp [ht]
  | none => simp

theorem insert (h : Balanced dr A led) {ind : UInt64} (hnew : ind ∉ (A w).live)
    (hlt : (A w).stored + 1 < 2 ^ 32) (hl : (A w).lost = false)
    (hfresh : (A w).epoch < ((A w).note dr (.insert w ind)).epoch → ∀ w' e', 1 ≤ e' → e' ≤ (A w').epoch →
      keyAt w' e' ≠ keyAt w ((A w).note dr (.insert w ind)).epoch) :
    Balanced dr (Function.update A w ((A w).note dr (.insert w ind))) (led.insert S w ind) := by
  by_cases he : (A w).epoch = 0
  · obtain ⟨hs1, hs2, hs3⟩ := h.start w he
    have hone : ((A w).note dr (.insert w ind)).epoch = 1 := by
      show max (A w).epoch 1 = 1
      omega
    rw [hone] at hfresh
    have h1 := h.enter (show (A w).epoch < 1 by omega) (hfresh (by omega))
    have hled : (led.updateKey w).1 = { led with
        keywordsToken := Function.update led.keywordsToken w (some (keyAt w 1))
        keywordsCounter := Function.update led.keywordsCounter w (some (Int32.ofNat 1)) } := by
      unfold Ledger.updateKey
      rw [h.keywordsToken, if_pos he, hl]
      rfl
    rw [← hled] at h1
    have h2 := @insertKeep _ S _ _ _ w h1 (by simp) ind (by simp) (by simp)
    rw [insert_updateKey, Function.update_idem, Function.update_self] at h2
    have hacc : (A w).note dr (.insert w ind) = Account.note dr ⟨∅, 0, ∅, 1, false⟩ (.insert w ind) := by
      simp [Account.note, hs1, hs2, hs3, he, hl]
    rw [hacc]
    exact h2
  · exact h.insertKeep he hnew hlt

theorem delete (h : Balanced dr A led) {ind : UInt64} (hlive : ind ∈ (A w).live) (honce : ind ∉ (A w).deleted) :
    Balanced dr (Function.update A w ((A w).note dr (.delete w ind))) (led.delete S w ind) := by
  refine h.deleteKeep (fun he => ?_) hlive honce
  rw [(h.start w he).1] at hlive
  exact absurd hlive (Finset.notMem_empty ind)

/-- The survivors of a cleaning search, inserted one after the other. -/
theorem insert_foldl (h : Balanced dr A led) (he : (A w).epoch ≠ 0) {r : List UInt64} (hnd : r.Nodup)
    (hnew : ∀ ind ∈ r, ind ∉ (A w).live) (hlt : (A w).stored + r.length < 2 ^ 32) :
    Balanced dr (Function.update A w
        { A w with live := (A w).live ∪ r.toFinset, stored := (A w).stored + r.length })
      (r.foldl (fun led item => led.insert S w item) led) := by
  induction r generalizing A led with
  | nil =>
    have : { A w with live := (A w).live ∪ ([] : List UInt64).toFinset,
                      stored := (A w).stored + ([] : List UInt64).length } = A w := by simp
    rw [this, Function.update_eq_self]
    exact h
  | cons ind r ih =>
    rw [List.length_cons] at hlt
    obtain ⟨hni, hnd⟩ := List.nodup_cons.1 hnd
    have hmax : max (A w).epoch 1 = (A w).epoch := by omega
    have h1 := h.insertKeep (S := S) he (hnew ind List.mem_cons_self) (by omega)
    have hA : Function.update A w ((A w).note dr (.insert w ind)) w = (A w).note dr (.insert w ind) :=
      Function.update_self ..
    have h2 := ih h1 (by rw [hA]; simp [Account.note]) hnd
      (by
        intro ind' hind'
        rw [hA]
        simp only [Account.note, Finset.mem_insert, not_or]
        refine ⟨?_, hnew ind' (List.mem_cons_of_mem _ hind')⟩
        rintro rfl
        exact hni hind')
      (by
        rw [hA]
        simp only [Account.note]
        omega)
    rw [hA, Function.update_idem] at h2
    have hacc : { A w with live := (A w).live ∪ (ind :: r).toFinset, stored := (A w).stored + (ind :: r).length } =
        { (A w).note dr (.insert w ind) with
          live := ((A w).note dr (.insert w ind)).live ∪ r.toFinset
          stored := ((A w).note dr (.insert w ind)).stored + r.length } := by
      simp only [Account.note, hmax, List.toFinset_cons, List.length_cons, Account.mk.injEq, and_true]
      refine ⟨?_, by omega⟩
      rw [Finset.union_insert, Finset.insert_union]
    rw [hacc]
    exact h2

/-- What the search of a keyword reads. -/
theorem visible (h : Balanced dr A led)
    (hround : ∀ c : UInt32, c.toNat < 2 ^ 31 → parseCnt S (S.encode (natStr c.toNat)) = some c)
    (hsafe : (A w).deleted = ∅ ∨ (A w).live ≠ ∅ ∧ (A w).stored ≤ 2 ^ 30) :
    ∃ r, Ledger.visible S (led.ins (led.touchKey w).2) (led.del (led.touchKey w).2) (led.cnts (led.touchKey w).2) =
      some r ∧ ∀ ind, r.count ind = if ind ∈ (A w).live then 1 else 0 := by
  by_cases he : (A w).epoch = 0
  · -- the empty key, under which nothing is stored
    have hkey : (led.touchKey w).2 = [] := by
      simp only [Ledger.touchKey, h.keywordsToken, if_pos he]
      split <;> rfl
    obtain ⟨b1, b2⟩ := h.blank [] fun w' e' _ _ => (keyAt_ne_nil w' e').symm
    rw [hkey, b1, b2, (h.start w he).1]
    exact ⟨[], rfl, fun ind => by simp⟩
  · have hkey : (led.touchKey w).2 = keyAt w (A w).epoch := by
      simp [Ledger.touchKey, h.keywordsToken, he]
    obtain ⟨insL, delL, hk⟩ := h.keeps w he
    rw [hkey]
    exact hk.visible hround hsafe

theorem touchKey (h : Balanced false A led) :
    Balanced false (Function.update A w ((A w).note false (.search w))) (led.touchKey w).1 := by
  by_cases he : (A w).epoch = 0
  · have hnote : (A w).note false (.search w) = { A w with lost := true } := by
      simp [Account.note, he]
    have hA : ∀ w', (Function.update A w { A w with lost := true } w').epoch = (A w').epoch ∧
        (w' ≠ w → Function.update A w { A w with lost := true } w' = A w') := by
      intro w'
      by_cases hw : w' = w
      · subst hw
        exact ⟨by simp, fun hne => absurd rfl hne⟩
      · exact ⟨by simp [hw], fun _ => by simp [hw]⟩
    rw [hnote]
    refine ⟨fun w' => ?_, fun w' => ?_, fun w' hw' => ?_, fun k hk => ?_, fun w1 w2 hne h1 h2 => ?_,
      fun w' hw' => ?_, fun w' hw' => ?_⟩
    · by_cases hw : w' = w
      · subst hw
        have htok := h.keywordsToken w'
        rw [if_pos he] at htok
        simp only [Ledger.touchKey, htok, Function.update_self, he, if_true]
        split <;> rfl
      · simp only [Ledger.touchKey, Function.update_of_ne hw]
        exact h.keywordsToken w'
    · rw [(hA w').1]
      exact h.keywordsCounter w'
    · have hw : w' ≠ w := by
        rintro rfl
        rw [(hA w').1] at hw'
        exact hw' he
      rw [(hA w').2 hw] at hw' ⊢
      exact h.keeps w' hw'
    · exact h.blank k fun w' e h1 h2 => hk w' e h1 (by rw [(hA w').1]; exact h2)
    · rw [(hA w1).1] at h1 ⊢
      rw [(hA w2).1] at h2 ⊢
      exact h.apart w1 w2 hne h1 h2
    · by_cases hw : w' = w
      · subst hw
        simpa using h.start w' he
      · rw [(hA w').2 hw] at hw' ⊢
        exact h.start w' hw'
    · refine ⟨rfl, ?_⟩
      rw [(hA w').1]
      by_cases hw : w' = w
      · rw [hw, he]
      · rw [(hA w').2 hw] at hw'
        exact (h.lost w' hw').2
  · have hnote : (A w).note false (.search w) = A w := by
      have hne : ((A w).epoch == 0) = false := by simpa using he
      simp only [Account.note, hne, Bool.or_false]
      rfl
    have hled : (led.touchKey w).1 = led := by
      have htok := h.keywordsToken w
      rw [if_neg he] at htok
      simp only [Ledger.touchKey, htok, Option.getD_some]
      rw [← htok, Function.update_eq_self]
    rw [hnote, Function.update_eq_self, hled]
    exact h

/-- A cleaning search that has found the live inds. -/
theorem rekey (h : Balanced true A led)
    (hfresh : ∀ w' e', 1 ≤ e' → e' ≤ (A w').epoch → keyAt w' e' ≠ keyAt w ((A w).epoch + 1))
    {r : List UInt64} (hr : ∀ ind, r.count ind = if ind ∈ (A w).live then 1 else 0) :
    Balanced true (Function.update A w ((A w).note true (.search w)))
      (r.foldl (fun led item => led.insert S w item) (led.rekey w)) := by
  have hnd : r.Nodup := List.nodup_iff_count_le_one.2 fun ind => by
    rw [hr]
    split <;> omega
  have hset : r.toFinset = (A w).live := by
    ext ind
    rw [List.mem_toFinset, ← List.count_pos_iff, hr]
    split
    · next hin => simp [hin]
    · next hin => simp [hin]
  have hcard : r.length = (A w).live.card := by rw [← hset, List.toFinset_card_of_nodup hnd]
  have hlt : (A w).live.card < 2 ^ 32 := by
    by_cases he : (A w).epoch = 0
    · rw [(h.start w he).1]
      decide
    · obtain ⟨insL, delL, hk⟩ := h.keeps w he
      exact lt_of_le_of_lt hk.card_live hk.bound
  have hlost : (A w).lost = false := by
    cases hl : (A w).lost with
    | false => rfl
    | true => exact absurd (h.lost w hl).1 (by decide)
  have h1 := h.enter (show (A w).epoch < (A w).epoch + 1 by omega) hfresh
  have hled : led.rekey w = { led with
      keywordsToken := Function.update led.keywordsToken w (some (keyAt w ((A w).epoch + 1)))
      keywordsCounter := Function.update led.keywordsCounter w (some (Int32.ofNat ((A w).epoch + 1))) } := by
    have hcnt : (led.keywordsCounter w).getD 0 + 1 = Int32.ofNat ((A w).epoch + 1) := by
      rw [h.keywordsCounter]
      split
      · next he =>
        rw [he]
        rfl
      · exact ofNat_add_one _
    simp only [Ledger.rekey, hcnt, keyAt]
  rw [← hled] at h1
  have h2 := h1.insert_foldl (S := S) (w := w) (by simp) hnd (by simp) (by simp [hcard]; omega)
  rw [Function.update_idem] at h2
  have hacc : (A w).note true (.search w) =
      { live := ∅ ∪ r.toFinset, stored := 0 + r.length, deleted := ∅, epoch := (A w).epoch + 1, lost := false } := by
    simp [Account.note, hset, hcard, hlost]
  rw [hacc]
  simpa using h2

end Balanced

/-! ## Runs -/

theorem account_eq_update (dr : Bool) (hist : List Op) (op : Op) :
    account dr (hist ++ [op]) =
      Function.update (account dr hist) op.keyword ((account dr hist op.keyword).note dr op) := by
  funext w
  rw [account_concat, Function.update_apply]
  by_cases hw : w = op.keyword
  · subst hw
    simp
  · rw [if_neg fun e => hw e.symm, if_neg hw]

/-- A keyword without calls has no key. -/
theorem exists_call_of_epoch (dr : Bool) (hist : List Op) (w : Str) (h : (account dr hist w).epoch ≠ 0) :
    ∃ op ∈ hist, op.keyword = w := by
  by_contra hno
  apply h
  have hnil : hist.filter (·.keyword == w) = [] := by
    rw [List.filter_eq_nil_iff]
    intro op hop
    simpa using fun e => hno ⟨op, hop, e⟩
  rw [account, hnil]
  rfl

/-- **A sound call** of the ledger ends well, and a search returns the live inds. -/
theorem balanced_step {B : Type} {S : Setting B} {hist : List Op} {led : Ledger} {op : Op}
    (hround : ∀ c : UInt32, c.toNat < 2 ^ 31 → parseCnt S (S.encode (natStr c.toNat)) = some c)
    (h : Balanced S.deleteResults (account S.deleteResults hist) led) (hok : Sound S.deleteResults hist op) :
    ∃ led' o, led.step S op = some (led', o) ∧
      Balanced S.deleteResults (account S.deleteResults (hist ++ [op])) led' ∧
      ∀ w, op = .search w → ∀ ind, o.count ind = if ind ∈ (account S.deleteResults hist w).live then 1 else 0 := by
  obtain ⟨hcall, hfresh⟩ := hok
  rw [account_eq_update]
  set A := account S.deleteResults hist with hA
  have hfresh' : (A op.keyword).epoch < ((A op.keyword).note S.deleteResults op).epoch → ∀ w' e', 1 ≤ e' →
      e' ≤ (A w').epoch → keyAt w' e' ≠ keyAt op.keyword ((A op.keyword).note S.deleteResults op).epoch := by
    intro hlt w' e' h1 h2
    obtain ⟨op', hop', rfl⟩ := exists_call_of_epoch S.deleteResults hist w' (by rw [← hA]; omega)
    exact hfresh hlt op' hop' e' h2 h1
  cases op with
  | insert w ind =>
    obtain ⟨hnew, hlt, hlost⟩ := hcall
    exact ⟨_, _, rfl, h.insert hnew hlt hlost hfresh', fun _ e => by cases e⟩
  | delete w ind =>
    obtain ⟨hlive, honce⟩ := hcall
    exact ⟨_, _, rfl, h.delete hlive honce, fun _ e => by cases e⟩
  | search w =>
    obtain ⟨r, hv, hr⟩ := h.visible (w := w) hround hcall
    have hout : ∀ w', Op.search w = .search w' → ∀ ind, r.count ind = if ind ∈ (A w').live then 1 else 0 := by
      rintro w' ⟨⟩
      exact hr
    cases hdr : S.deleteResults with
    | false =>
      rw [hdr] at h
      refine ⟨_, r, ?_, h.touchKey, hout⟩
      show led.search S w = _
      rw [Ledger.search_keeping hdr, hv]
      rfl
    | true =>
      rw [hdr] at h hfresh'
      have hnext : ((A w).note true (.search w)).epoch = (A w).epoch + 1 := rfl
      have hbal := h.rekey (S := S) (w := w) (hfresh' (hnext ▸ Nat.lt_succ_self _)) hr
      refine ⟨_, r, ?_, hbal, hout⟩
      show led.search S w = _
      rw [Ledger.search_cleaning hdr, hv]
      rfl

theorem balanced_run {B : Type} {S : Setting B}
    (hround : ∀ c : UInt32, c.toNat < 2 ^ 31 → parseCnt S (S.encode (natStr c.toNat)) = some c) {ops : List Op}
    (hok : Runs.Each (Sound S.deleteResults) [] ops) :
    ∃ led outs, Runs.run (Ledger.step S) Ledger.init ops = some (led, outs) ∧
      Balanced S.deleteResults (account S.deleteResults ops) led := by
  induction ops using List.reverseRecOn with
  | nil => exact ⟨_, _, rfl, balanced_init _⟩
  | append_singleton ops op ih =>
    obtain ⟨hok, hop⟩ := Runs.each_concat.1 hok
    obtain ⟨led, outs, hrun, h⟩ := ih hok
    obtain ⟨led', o, hstep, h', -⟩ := balanced_step hround h hop
    exact ⟨led', _, Runs.run_concat.2 ⟨led, outs, o, hrun, hstep, rfl⟩, h'⟩

/-- **Exact search.**  In a run of sound calls, every call ends well and every search of a
keyword returns its live inds, each once. -/
theorem diana_search_exact {B : Type} [DecidableEq B] [XorOp B] [LawfulXor B] (S : Setting B)
    (hs : Splits S.ins.derive S.ins.derive32) (hs' : Splits S.del.derive S.del.derive32)
    (hround : ∀ c : UInt32, c.toNat < 2 ^ 31 → parseCnt S (S.encode (natStr c.toNat)) = some c)
    (ops : List Op) (w : Str)
    (hcf : CollisionFree S (keysOf fun w' => ∃ op ∈ ops ++ [.search w], op.keyword = w'))
    (hok : Runs.Each (Sound S.deleteResults) [] (ops ++ [.search w])) :
    ∃ st outs st' l, Runs.run (step S) (init S) ops = some (st, outs) ∧
      searchKeyword S st w = some (st', l) ∧ l.Nodup ∧
      ∀ ind, ind ∈ l ↔ ind ∈ (account S.deleteResults ops w).live := by
  obtain ⟨hok, hop⟩ := Runs.each_concat.1 hok
  obtain ⟨led, outs, hrun, h⟩ := balanced_run hround hok
  obtain ⟨led', l, hstep, -, hl⟩ := balanced_step hround h hop
  have hsim := fun st led op hmem hR => @step_matches _ _ _ _ st led _ _ hcf hs hs' op hmem hR
  have hruns := Runs.run_matches (Rel S _) (fun op => ∃ op' ∈ ops ++ [.search w], op'.keyword = op.keyword) hsim
    (fun op (hmem : op ∈ ops) => ⟨op, List.mem_append_left _ hmem, rfl⟩) (rel_init _)
  rw [hrun] at hruns
  obtain ⟨st, hst, hR⟩ := hruns.of_some
  have hlast := hsim st led (.search w) ⟨_, List.mem_append_right _ (List.mem_singleton_self _), rfl⟩ hR
  rw [hstep] at hlast
  obtain ⟨st', hst', -⟩ := hlast.of_some
  have hcount := hl w rfl
  refine ⟨st, outs, st', l, hst, hst', ?_, fun ind => ?_⟩
  · refine List.nodup_iff_count_le_one.2 fun ind => ?_
    rw [hcount]
    split <;> omega
  · rw [← List.count_pos_iff, hcount]
    split
    · next hin => simp only [hin, iff_true]; omega
    · next hin => simp only [hin, iff_false]; omega

theorem parseCnt_free (usehdd deleteResults : Bool) (c : UInt32) (hc : c.toNat < 2 ^ 31) :
    parseCnt (freeSetting usehdd deleteResults) ((freeSetting usehdd deleteResults).encode (natStr c.toNat)) =
      some c := by
  have hstr : natStr c.toNat = toStr (c.toNat : Int) := by simp [toStr]
  show (stoi (natStr c.toNat)).bind (fun i => some i.toUInt32) = some c
  rw [hstr, stoi_slot hc, Option.bind_some]
  show some (UInt32.ofNat c.toNat) = some c
  rw [UInt32.ofNat_toNat]

/-- Two inserts, of which one is deleted, searched twice. -/
theorem diana_search_exact_a :
    let S := freeSetting false true
    let ops : List Op := [.insert [97] 1, .insert [97] 2, .delete [97] 1, .search [97]]
    ∃ st outs st' l, Runs.run (step S) (init S) ops = some (st, outs) ∧
      searchKeyword S st [97] = some (st', l) ∧ l.Nodup ∧ ∀ ind, ind ∈ l ↔ ind ∈ (account true ops [97]).live :=
  diana_search_exact (freeSetting false true) (freePrims_splits _) (freePrims_splits _) (parseCnt_free _ _) _ _
    (collisionFree_free _ _ _) (by decide)

/-- An insert is of a pair that is not live, a deletion of one that is. -/
def WellFormed (deleteResults : Bool) (hist : List Op) : Op → Prop
  | .insert w ind => ind ∉ (account deleteResults hist w).live
  | .delete w ind => ind ∈ (account deleteResults hist w).live
  | .search _ => True

instance (deleteResults : Bool) (hist : List Op) : ∀ op, Decidable (WellFormed deleteResults hist op)
  | .insert _ _ => inferInstanceAs (Decidable (_ ∉ _))
  | .delete _ _ => inferInstanceAs (Decidable (_ ∈ _))
  | .search _ => inferInstanceAs (Decidable True)

/-- A pair that is inserted and deleted twice is returned. -/
def ReturnsDeleted (deleteResults : Bool) : Prop :=
  let S := freeSetting false deleteResults
  let ops : List Op :=
    [.insert [97] 1, .delete [97] 1, .insert [97] 1, .delete [97] 1, .insert [97] 2, .search [97]]
  Runs.Each (WellFormed deleteResults) [] ops ∧ (account deleteResults ops [97]).live = {2} ∧
    (Runs.run (step S) (init S) ops).map Prod.snd = some [[], [], [], [], [], [1, 2]]

instance (deleteResults : Bool) : Decidable (ReturnsDeleted deleteResults) := inferInstanceAs (Decidable (_ ∧ _ ∧ _))

theorem diana_search_returns_deleted : ReturnsDeleted false ∧ ReturnsDeleted true := by
  decide +kernel

end Sse.Diana
