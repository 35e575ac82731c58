import Sse.Horus.Shelf

/-!
# Runs of Horus, and exactness of search

In a run that stays inside the numbers (`InRoom`), the row of every keyword represents the
shelf its calls compute (`shelved_after`), and the inds of the shelf are the live inds of the
keyword (`mem_shelf_inds`).  A box is written for every step of an access count, so a run that
fits into the largest PRFORAM there is can only leave the numbers in a search
(`inRoom_of_boxes`), and

    access counts below 2^30 at the searches → a search returns the live inds   (horus_search_exact)

The sum `left + right` of the bisection is an `int`.  A slot that was filled `2 ^ 30` times makes
it overflow: the probe moves below the boxes, reads nothing there, and `stoi("")` throws
(`search_throws_at_2_pow_30`).
-/

namespace Sse.Horus

open Orion (Op live Valid Allowed fill length_fill mem_fill insert_mem_of_live)

/-! ## What a call takes -/

instance : Add Taken := ⟨fun s t => ⟨s.nodes + t.nodes, s.boxes + t.boxes⟩⟩

theorem Taken.add_def (s t : Taken) : s + t = ⟨s.nodes + t.nodes, s.boxes + t.boxes⟩ := rfl

namespace Shelf

/-- An insert of a pair that is not live: two entries of `updt`, a box, and a pointer if the box is
the first of its slot under the search count and not box 1. -/
def insertTakes (b : Shelf) (ind : Int32) : Taken :=
  if ind ∈ b.inds then ⟨0, 0⟩
  else ⟨(if ind ∈ b.seen then 0 else 1) + (if b.inds.length < b.accs.length then 0 else 1),
    1 + if b.upto < b.inds.length + 1 ∧ 1 < b.freshAcc then 1 else 0⟩

/-- What a call on the keyword takes. -/
def takes (b : Shelf) : Op → Taken
  | .insert _ ind => b.insertTakes ind
  | .remove _ ind => ⟨0, if b.swaps ind then 1 else 0⟩
  | .search _ => ⟨0, b.searchBoxes⟩

end Shelf

section

variable {st : State} {w : Str} {b : Shelf}

/-- The first box of a slot under the search count comes with a pointer, if the slot was filled before. -/
theorem Shelved.insert_pointer (h : Shelved (st.row w) b) {x : Int32} (hx : x ∉ b.inds)
    (hroom : b.inds.length + 1 < 2 ^ 31 - 1 ∧ b.freshAcc < 2 ^ 31) (hnew : b.upto < b.inds.length + 1)
    (hacc : 1 < b.freshAcc) :
    ((Horus.insert st w x).1.row w).box (Int32.ofNat (b.inds.length + 1)) (Int32.ofNat b.epoch) 1 =
      some (pointer (Int32.ofNat b.freshAcc)) := by
  obtain ⟨-, hrow, -⟩ := h.entries.insert hx hroom.1 hroom.2
  have hlatest := h.created_latest
  have hsrch := h.created_srchCnt
  have hlt : Int32.ofNat b.upto < Int32.ofNat (b.inds.length + 1) := (ofNat_lt (by omega) (by omega)).2 hnew
  have hone : (1 : Int32) < Int32.ofNat b.freshAcc := (ofNat_lt (show 1 < 2 ^ 31 by decide) hroom.2).2 hacc
  rw [hrow]
  simp only [Row.fillSlot]
  rw [if_pos ⟨by rw [hlatest]; exact hlt, hone⟩, hsrch]
  exact setBox_self _ _ _ _ _

theorem Shelved.insert_taken (h : Shelved (st.row w) b) {x : Int32}
    (hroom : b.inds.length + 1 < 2 ^ 31 - 1 ∧ b.freshAcc < 2 ^ 31) :
    (Horus.insert st w x).1.taken = st.taken + b.insertTakes x := by
  unfold Shelf.insertTakes
  by_cases hx : x ∈ b.inds
  · rw [h.entries.insert_live hx, if_pos hx]
    rfl
  obtain ⟨-, -, htaken⟩ := h.entries.insert hx hroom.1 hroom.2
  have haccs := h.entries.accs_lt
  have hup := h.upto_le
  have hlatest := h.created_latest
  have hcond : ((st.row w).created.latestUpdatedCounter.getD 0 < Int32.ofNat (b.inds.length + 1) ∧
      (1 : Int32) < Int32.ofNat (nextAcc b.accs b.inds.length)) ↔ b.upto < b.inds.length + 1 ∧ 1 < b.freshAcc := by
    rw [hlatest, ofNat_lt (by omega) (by omega)]
    exact and_congr_right fun _ => ofNat_lt (show 1 < 2 ^ 31 by decide) hroom.2
  rw [htaken, if_neg hx, Taken.add_def]
  simp only [hcond]

theorem Shelved.remove_taken (h : Shelved (st.row w) b) {x : Int32} (hroom : b.top + 1 < 2 ^ 31) :
    (Horus.remove st w x).1.taken = st.taken + ⟨0, if b.swaps x then 1 else 0⟩ := by
  by_cases hx : x ∈ b.inds
  · have hj : b.inds[b.inds.idxOf x]? = some x := List.getElem?_idxOf hx
    obtain ⟨a, ha, h1, hatop, -⟩ := h.entries.acc_of_ind hj
    obtain ⟨-, hrem⟩ := h.entries.remove h.last hj ha (by omega)
    rw [hrem.taken, Taken.add_def]
    simp [Shelf.swaps, hx]
  · have hno : b.swaps x = false := by simp [Shelf.swaps, hx]
    rw [hno]
    by_cases hs : x ∈ b.seen
    · rw [h.entries.remove_gone hx hs]
      rfl
    · rw [h.entries.remove_unseen hs]
      rfl

end

/-! ## Runs -/

/-- A call with a short keyword that stays inside the numbers. -/
def InRoom (pre : List Op) (op : Op) : Prop := Valid op.keyword ∧ Room (shelf pre op.keyword) op

/-- What a run takes. -/
def totalTakes (ops : List Op) : Taken :=
  (ops.foldl (fun (r : List Op × Taken) op => (r.1 ++ [op], r.2 + (shelf r.1 op.keyword).takes op)) ([], ⟨0, 0⟩)).2

theorem totalTakes_concat (ops : List Op) (op : Op) :
    totalTakes (ops ++ [op]) = totalTakes ops + (shelf ops op.keyword).takes op := by
  have hfst : ∀ (l pre : List Op) (t : Taken),
      (l.foldl (fun (r : List Op × Taken) op => (r.1 ++ [op], r.2 + (shelf r.1 op.keyword).takes op)) (pre, t)).1 =
        pre ++ l := by
    intro l
    induction l with
    | nil => exact fun pre t => (List.append_nil pre).symm
    | cons x l ih => exact fun pre t => by rw [List.foldl_cons, ih]; simp
  unfold totalTakes
  rw [List.foldl_append, List.foldl_cons, List.foldl_nil, hfst, List.nil_append]

section

variable {fuel : Nat} {ops : List Op}

/-- One call on the rows of all keywords. -/
theorem shelved_step (hf : 2 ^ 32 ≤ fuel) {st : State} {B : Str → Shelf} (h : ∀ w, Valid w → Shelved (st.row w) (B w))
    {op : Op} (hv : Valid op.keyword) (hroom : Room (B op.keyword) op) :
    (∀ w, Valid w → Shelved ((step fuel st op).1.row w) (if op.keyword = w then (B w).step op else B w)) ∧
      (step fuel st op).1.taken = st.taken + (B op.keyword).takes op := by
  have hother : ∀ (st' : State), (∀ w, Valid w → op.keyword ≠ w → st'.row w = st.row w) →
      Shelved (st'.row op.keyword) ((B op.keyword).step op) →
      ∀ w, Valid w → Shelved (st'.row w) (if op.keyword = w then (B w).step op else B w) := by
    intro st' hframe hown w hw
    by_cases hk : op.keyword = w
    · subst hk
      rw [if_pos rfl]
      exact hown
    · rw [if_neg hk, hframe w hw hk]
      exact h w hw
  cases op with
  | insert w' x =>
    have hs := h w' hv
    refine ⟨hother _ (fun w hw hk => row_insert_other hw hv (fun e => hk e.symm) x) ?_, hs.insert_taken hroom⟩
    exact (hs.insert hroom).2
  | remove w' x =>
    have hs := h w' hv
    refine ⟨hother _ (fun w hw hk => row_remove_other hw hv (fun e => hk e.symm) x) ?_, hs.remove_taken hroom⟩
    exact (hs.remove hroom).2
  | search w' =>
    obtain ⟨l, -, -, hs, htaken, hframe⟩ := (h w' hv).search hroom hf
    refine ⟨hother _ (fun w hw hk => hframe w hv hw fun e => hk e.symm) hs, ?_⟩
    rw [step, htaken]
    rfl

/-- **A run inside the numbers** represents the shelves its calls compute, and takes what they take. -/
theorem shelved_after (hf : 2 ^ 32 ≤ fuel) (h : Runs.Each InRoom [] ops) :
    (∀ w, Valid w → Shelved ((after fuel ops).row w) (shelf ops w)) ∧ (after fuel ops).taken = totalTakes ops := by
  induction ops using List.reverseRecOn with
  | nil => exact ⟨fun w _ => shelved_init w, rfl⟩
  | append_singleton ops op ih =>
    rw [Runs.each_concat, List.nil_append] at h
    obtain ⟨hs, ht⟩ := ih h.1
    obtain ⟨hs', ht'⟩ := shelved_step hf hs h.2.1 h.2.2
    rw [after_concat]
    refine ⟨fun w hw => ?_, by rw [ht', ht, totalTakes_concat]⟩
    rw [shelf_concat]
    exact hs' w hw

/-! ## Shelves and histories -/

/-- What one call does to the list of inds. -/
theorem mem_step_inds {b : Shelf} (hn : b.inds.Nodup) (op : Op) (x : Int32) :
    x ∈ (b.step op).inds ↔
      (x ∈ b.inds ∧ op ≠ .remove op.keyword x) ∨ op = .insert op.keyword x := by
  cases op with
  | insert w ind =>
    simp only [Shelf.step, Shelf.insert, Op.keyword, Op.insert.injEq, true_and]
    split
    · next h =>
      constructor
      · exact fun hx => Or.inl ⟨hx, by simp⟩
      · rintro (hx | rfl)
        · exact hx.1
        · exact h
    · simp [eq_comm]
  | remove w ind =>
    simp only [Shelf.step, Shelf.remove, Op.keyword, ne_eq, Op.remove.injEq, true_and, reduceCtorEq, or_false]
    split
    · next h =>
      rw [mem_fill hn (List.getElem?_idxOf h)]
      exact and_congr_right fun _ => not_congr eq_comm
    · next h =>
      constructor
      · exact fun hx => ⟨hx, fun e => h (e ▸ hx)⟩
      · exact fun hx => hx.1
  | search w => simp [Shelf.step, Shelf.search]

/-- **The inds of a shelf** are the live inds of its keyword. -/
theorem mem_shelf_inds (hf : 2 ^ 32 ≤ fuel) (h : Runs.Each InRoom [] ops) {w : Str} (hw : Valid w) (x : Int32) :
    x ∈ (shelf ops w).inds ↔ live ops w x = true := by
  induction ops using List.reverseRecOn with
  | nil => simp [live, Shelf.empty]
  | append_singleton ops op ih =>
    rw [Runs.each_concat, List.nil_append] at h
    have ih := ih h.1
    rw [shelf_concat, Orion.live_concat]
    by_cases hk : op.keyword = w
    · subst hk
      rw [if_pos rfl, mem_step_inds ((shelved_after hf h.1).1 _ hw).entries.nodup, ih]
      by_cases hins : op = .insert op.keyword x
      · rw [if_pos hins]
        exact iff_of_true (Or.inr hins) rfl
      · rw [if_neg hins]
        by_cases hrem : op = .remove op.keyword x
        · rw [if_pos hrem]
          exact iff_of_false (by rintro (e | e); exacts [e.2 hrem, hins e]) (by simp)
        · rw [if_neg hrem, or_iff_left hins, and_iff_left hrem]
    · have hins : op ≠ .insert w x := fun e => hk (by rw [e]; rfl)
      have hrem : op ≠ .remove w x := fun e => hk (by rw [e]; rfl)
      rw [if_neg hk, if_neg hins, if_neg hrem]
      exact ih

/-! ## Small runs -/

/-- The numbers of a shelf, against the number of calls that wrote a box. -/
structure Small (b : Shelf) (n : Nat) : Prop where
  inds_le : b.inds.length ≤ n
  accs_le : b.accs.length ≤ n
  acc_le : ∀ a ∈ b.accs, a ≤ n
  top_le : b.top ≤ n + 1

theorem nextAcc_le {accs : List Nat} {n : Nat} (h : ∀ a ∈ accs, a ≤ n) (i : Nat) : nextAcc accs i ≤ n + 1 := by
  unfold nextAcc
  split
  · next a ha =>
    have := h a (List.mem_of_getElem? ha)
    omega
  · omega

theorem length_put_le (l : List Nat) (n a : Nat) : (put l n a).length ≤ l.length + 1 := by
  unfold put
  rw [List.length_append, List.length_take, List.length_cons, List.length_drop]
  omega

theorem Small.mono {b : Shelf} {m n : Nat} (h : Small b m) (hmn : m ≤ n) : Small b n where
  inds_le := h.inds_le.trans hmn
  accs_le := h.accs_le.trans hmn
  acc_le := fun a ha => (h.acc_le a ha).trans hmn
  top_le := h.top_le.trans (by omega)

/-- A call that writes no box makes none of the numbers larger. -/
theorem Small.step {b : Shelf} {n : Nat} (h : Small b n) (op : Op) :
    Small (b.step op) (n + min 1 (b.takes op).boxes) := by
  obtain ⟨h1, h2, h3, h4⟩ := h
  have hput : ∀ i, ∀ a ∈ put b.accs i (nextAcc b.accs i), a ≤ n + 1 := by
    intro i a ha
    rcases mem_put ha with rfl | ha
    · exact nextAcc_le h3 _
    · have := h3 a ha
      omega
  have hlen : ∀ i, (put b.accs i (nextAcc b.accs i)).length ≤ n + 1 := fun i =>
    (length_put_le _ _ _).trans (by omega)
  have hnext := nextAcc_le h3
  cases op with
  | insert w x =>
    rw [Shelf.step, Shelf.insert, Shelf.takes, Shelf.insertTakes]
    split
    · exact ⟨h1, h2, h3, h4⟩
    · have hone : ∀ k, min 1 (1 + k) = 1 := fun k => by omega
      rw [hone]
      refine ⟨by simpa using h1, hlen _, hput _, ?_⟩
      have : b.freshAcc ≤ n + 1 := hnext b.inds.length
      show max b.top b.freshAcc ≤ n + 1 + 1
      omega
  | remove w x =>
    rw [Shelf.step, Shelf.remove, Shelf.takes]
    by_cases hx : x ∈ b.inds
    · rw [if_pos hx]
      cases hs : b.swaps x with
      | true =>
        simp only [if_true]
        refine ⟨?_, hlen _, hput _, ?_⟩
        · rw [length_fill]
          omega
        · have := hnext (b.inds.idxOf x)
          show max b.top (nextAcc b.accs (b.inds.idxOf x)) ≤ n + 1 + 1
          omega
      | false =>
        refine ⟨?_, h2, h3, h4⟩
        rw [length_fill]
        exact (Nat.sub_le _ _).trans h1
    · rw [if_neg hx]
      exact Small.mono ⟨h1, h2, h3, h4⟩ (Nat.le_add_right _ _)
  | search w => exact Small.mono ⟨h1, h2, h3, h4⟩ (Nat.le_add_right _ _)

theorem small_empty : Small Shelf.empty 0 := ⟨le_rfl, le_rfl, fun _ ha => (nomatch ha), le_rfl⟩

theorem small_shelf (ops : List Op) (w : Str) : Small (shelf ops w) ops.length := by
  induction ops using List.reverseRecOn with
  | nil => exact small_empty
  | append_singleton ops op ih =>
    rw [shelf_concat, List.length_append, List.length_singleton]
    split
    · exact (ih.step op).mono (by omega)
    · exact ih.mono (Nat.le_succ _)

/-- The numbers of every keyword, against the boxes of the whole run. -/
theorem small_of_boxes (ops : List Op) (w : Str) : Small (shelf ops w) (totalTakes ops).boxes := by
  induction ops using List.reverseRecOn with
  | nil => exact small_empty
  | append_singleton ops op ih =>
    rw [shelf_concat, totalTakes_concat, Taken.add_def]
    split
    · next hk =>
      rw [hk]
      exact (ih.step op).mono (by show _ ≤ _ + _; omega)
    · exact ih.mono (Nat.le_add_right _ _)

theorem epoch_le (ops : List Op) (w : Str) : (shelf ops w).epoch ≤ ops.length := by
  induction ops using List.reverseRecOn with
  | nil => exact le_rfl
  | append_singleton ops op ih =>
    have hstep : ∀ b : Shelf, (b.step op).epoch ≤ b.epoch + 1 := by
      intro b
      cases op with
      | insert w x =>
        rw [Shelf.step, Shelf.insert]
        split <;> exact Nat.le_succ _
      | remove w x =>
        rw [Shelf.step, Shelf.remove]
        split <;> exact Nat.le_succ _
      | search w => exact le_rfl
    rw [shelf_concat, List.length_append, List.length_singleton]
    split
    · exact (hstep _).trans (by omega)
    · exact ih.trans (Nat.le_succ _)

theorem room_of_length {w : Str} (hlen : ops.length + 1 < 2 ^ 30) (op : Op) : Room (shelf ops w) op := by
  obtain ⟨h1, -, h3, h4⟩ := small_shelf ops w
  have hepoch := epoch_le ops w
  cases op with
  | insert _ x =>
    have : (shelf ops w).freshAcc ≤ ops.length + 1 := nextAcc_le h3 _
    exact ⟨by omega, by omega⟩
  | remove _ x =>
    show (shelf ops w).top + 1 < 2 ^ 31
    omega
  | search _ => exact ⟨by omega, by omega⟩

/-- **Fewer than `2 ^ 30` calls** stay inside the numbers. -/
theorem inRoom_of_length (hv : ∀ op ∈ ops, Valid op.keyword) (hlen : ops.length < 2 ^ 30) : Runs.Each InRoom [] ops := by
  rw [Runs.each_iff_split]
  rintro l op r rfl
  rw [List.length_append, List.length_cons] at hlen
  exact ⟨hv op (by simp), room_of_length (by omega) op⟩

/-! ## Runs that fit into a store -/

/-- The boxes of the largest PRFORAM.  `maxSize * INC_FACTOR` is an `int`, so `depth` is at most 28, and a
store has `Z * (pow(2, depth + 1) - 1)`. -/
def maxBoxes : Nat := 4 * (2 ^ 29 - 1)

/-- The counters of a keyword when it is searched: no access count has reached `2 ^ 30`, and the
search count stays an `int`. -/
def Countable (pre : List Op) : Op → Prop
  | .search w => (shelf pre w).top < 2 ^ 30 ∧ (shelf pre w).epoch + 1 < 2 ^ 31
  | _ => True

/-- Only a search can leave the numbers: every other step of a counter has taken a box. -/
theorem inRoom_of_boxes (ha : Runs.Each Allowed [] ops) (hspace : (totalTakes ops).boxes ≤ maxBoxes)
    (hcount : Runs.Each Countable [] ops) : Runs.Each InRoom [] ops := by
  induction ops using List.reverseRecOn with
  | nil => trivial
  | append_singleton ops op ih =>
    rw [Runs.each_concat, List.nil_append] at ha hcount ⊢
    rw [totalTakes_concat, Taken.add_def] at hspace
    have hpre : (totalTakes ops).boxes ≤ maxBoxes := (Nat.le_add_right _ _).trans hspace
    obtain ⟨h1, -, h3, h4⟩ := (small_of_boxes ops op.keyword).mono hpre
    refine ⟨ih ha.1 hpre hcount.1, ha.2.valid, ?_⟩
    have hmax : maxBoxes + 4 = 2 ^ 31 := rfl
    cases op with
    | insert w x =>
      have hfresh : (shelf ops w).freshAcc ≤ maxBoxes + 1 := nextAcc_le h3 _
      have hlen : (shelf ops w).inds.length ≤ maxBoxes := h1
      show (shelf ops w).inds.length + 1 < 2 ^ 31 - 1 ∧ (shelf ops w).freshAcc < 2 ^ 31
      exact ⟨by omega, by omega⟩
    | remove w x =>
      have h4 : (shelf ops w).top ≤ maxBoxes + 1 := h4
      show (shelf ops w).top + 1 < 2 ^ 31
      omega
    | search w => exact hcount.2

/-- **Search is exact** in a run that fits into a store, while the access counts of every keyword
stay below `2 ^ 30` when it is searched: it ends, does not throw, and returns the live inds, each once. -/
theorem horus_search_exact (ops : List Op) (ha : Runs.Each Allowed [] ops) (w : Str) (hw : Valid w)
    (hspace : (totalTakes ops).boxes ≤ maxBoxes) (hcount : Runs.Each Countable [] (ops ++ [.search w]))
    (fuel : Nat) (hf : 2 ^ 32 ≤ fuel) :
    ∃ l, (search fuel (after fuel ops) w).2 = some l ∧ l.Nodup ∧ ∀ x, x ∈ l ↔ live ops w x = true := by
  rw [Runs.each_concat, List.nil_append] at hcount
  have hroom := inRoom_of_boxes ha hspace hcount.1
  have hs := (shelved_after hf hroom).1 w hw
  obtain ⟨l, hret, hp, -⟩ := hs.search hcount.2 hf
  exact ⟨l, hret, hp.nodup_iff.2 hs.entries.nodup, fun x => hp.mem_iff.trans (mem_shelf_inds hf hroom hw x)⟩

end

instance (pre : List Op) : (op : Op) → Decidable (Countable pre op)
  | .insert _ _ => .isTrue trivial
  | .remove _ _ => .isTrue trivial
  | .search _ => inferInstanceAs (Decidable (_ ∧ _))

/-- Two inserts, a removal, a search and an insert. -/
theorem horus_search_exact_two :
    let ops : List Op := [.insert [97] 1, .insert [97] 2, .remove [97] 1, .search [97], .insert [97] 3]
    ∃ l, (search (2 ^ 32) (after (2 ^ 32) ops) [97]).2 = some l ∧ l.Nodup ∧ ∀ x, x ∈ l ↔ live ops [97] x = true :=
  horus_search_exact _ (by decide) [97] (by decide) (by decide +kernel) (by decide +kernel) _ le_rfl

/-! ## A slot filled too often -/

/-- The pair is inserted `n + 1` times, and removed in between. -/
def refills (w : Str) (x : Int32) : Nat → List Op
  | 0 => [.insert w x]
  | n + 1 => refills w x n ++ [.remove w x] ++ [.insert w x]

theorem insert_mem_refills (w : Str) (x : Int32) (n : Nat) : Op.insert w x ∈ refills w x n := by
  cases n with
  | zero => exact List.mem_singleton_self _
  | succ n => exact List.mem_append_right _ (List.mem_singleton_self _)

theorem allowed_refills (x : Int32) {w : Str} (hw : Valid w) (n : Nat) : Runs.Each Allowed [] (refills w x n) := by
  induction n with
  | zero => exact ⟨hw, trivial⟩
  | succ n ih =>
    rw [refills, Runs.each_concat, Runs.each_concat]
    exact ⟨⟨ih, hw, insert_mem_refills w x n⟩, hw⟩

theorem countable_refills (w : Str) (x : Int32) (n : Nat) : Runs.Each Countable [] (refills w x n) := by
  induction n with
  | zero => exact ⟨trivial, trivial⟩
  | succ n ih =>
    rw [refills, Runs.each_concat, Runs.each_concat]
    exact ⟨⟨ih, trivial⟩, trivial⟩

/-- The shelf of one ind in a slot that was filled `n` times. -/
def worn (n : Nat) : Shelf := ⟨[1], [n], n, [1], 1, 0⟩

theorem worn_refill (n : Nat) : ((worn n).remove 1).insert 1 = worn (n + 1) := by
  have htop : max n (n + 1) = n + 1 := by omega
  show (⟨[1], [n + 1], max n (n + 1), [1], 1, 0⟩ : Shelf) = _
  rw [htop]
  rfl

/-- Every insert takes a box, and no removal does. -/
theorem shelf_refills (n : Nat) :
    shelf (refills [97] 1 n) [97] = worn (n + 1) ∧ (totalTakes (refills [97] 1 n)).boxes = n + 1 := by
  induction n with
  | zero => exact ⟨rfl, rfl⟩
  | succ n ih =>
    obtain ⟨hshelf, hboxes⟩ := ih
    have hrem : shelf (refills [97] 1 n ++ [.remove [97] 1]) [97] = (worn (n + 1)).remove 1 := by
      rw [shelf_concat, hshelf]
      rfl
    rw [refills]
    constructor
    · rw [shelf_concat, hrem]
      exact worn_refill (n + 1)
    · rw [totalTakes_concat, totalTakes_concat, Taken.add_def, Taken.add_def]
      show (totalTakes (refills [97] 1 n)).boxes + ((shelf (refills [97] 1 n) [97]).takes (.remove [97] 1)).boxes +
        ((shelf (refills [97] 1 n ++ [.remove [97] 1]) [97]).takes (.insert [97] 1)).boxes = n + 1 + 1
      rw [hboxes, hrem, hshelf]
      rfl

/-- The slot is filled once more, after a search that found it empty. -/
def overflowing (n : Nat) : List Op := refills [97] 1 n ++ [.remove [97] 1] ++ [.search [97]] ++ [.insert [97] 1]

theorem allowed_overflowing (n : Nat) : Runs.Each Allowed [] (overflowing n) := by
  have hw : Valid [97] := by decide
  rw [overflowing, Runs.each_concat, Runs.each_concat, Runs.each_concat]
  exact ⟨⟨⟨allowed_refills 1 hw n, hw, insert_mem_refills _ _ n⟩, hw⟩, hw⟩

theorem live_overflowing (n : Nat) : live (overflowing n) [97] 1 = true := by
  rw [overflowing, Orion.live_concat, if_pos rfl]

/-- The shelf before the last insert: slot 1 is free, and has no box under the new search count. -/
def spent (n : Nat) : Shelf := ⟨[], [n + 1], n + 1, [1], 0, 1⟩

theorem shelf_spent (n : Nat) : shelf (refills [97] 1 n ++ [.remove [97] 1] ++ [.search [97]]) [97] = spent n := by
  rw [shelf_concat, shelf_concat, (shelf_refills n).1]
  rfl

theorem spent_insert (n : Nat) : (spent n).insert 1 = ⟨[1], [n + 2], n + 2, [1], 1, 1⟩ := by
  have htop : max (n + 1) (n + 2) = n + 2 := by omega
  show (⟨[1], [n + 2], max (n + 1) (n + 2), [1], 1, 1⟩ : Shelf) = _
  rw [htop]

/-- The last insert writes a pointer, too. -/
theorem boxes_overflowing (n : Nat) : (totalTakes (overflowing n)).boxes = n + 3 := by
  have hlast : ((spent n).takes (.insert [97] 1)).boxes = 2 := by
    simp [spent, Shelf.takes, Shelf.insertTakes, Shelf.freshAcc, nextAcc]
  have hrem : ((worn (n + 1)).takes (.remove [97] 1)).boxes = 0 := rfl
  have hsearch : (((worn (n + 1)).remove 1).takes (.search [97])).boxes = 0 := rfl
  have hmid : shelf (refills [97] 1 n ++ [.remove [97] 1]) [97] = (worn (n + 1)).remove 1 := by
    rw [shelf_concat, (shelf_refills n).1]
    rfl
  rw [overflowing, totalTakes_concat, totalTakes_concat, totalTakes_concat, Taken.add_def, Taken.add_def, Taken.add_def]
  simp only [Op.keyword]
  rw [shelf_spent, hmid, (shelf_refills n).1, (shelf_refills n).2, hlast, hrem, hsearch]

/-- One round on one slot that is not found before it. -/
theorem turns_one {w : Str} {s : Int32} {m : OMap} {p : Probe} {firstRun : Bool} {sc : Scan} (hp : p.foundItem = false) :
    turns w s firstRun 0 [p] (batchRead m (batchReadQuery w s 0 [p])) sc =
      (turn w s firstRun 0 p ((m (createBid w 1 s p.curValue)).getD []) sc).map fun r => ([r.1], r.2) := by
  have hread : batchRead m (batchReadQuery w s 0 [p]) = [(m (createBid w 1 s p.curValue)).getD []] := by
    rw [batchReadQuery, if_neg (by simp [hp])]
    rfl
  rw [hread, turns, if_neg (by simp [hp]), List.headD_cons]
  cases turn w s firstRun 0 p ((m (createBid w 1 s p.curValue)).getD []) sc <;> rfl

/-- The pointer of slot 1 leads to access count `2 ^ 30`, which is also the largest.  The sum of both is
below 0, and so is the access count of the next box. -/
theorem rounds_overflow {w : Str} {s : Int32} {m : OMap} (h1 : m (createBid w 1 s 1) = some (pointer 1073741824))
    (h2 : m (createBid w 1 s (-1073741824)) = none) (fuel : Nat) :
    rounds w s m fuel true [⟨1, 1073741824, 1, 0, [], false⟩] ⟨[], [], []⟩ = none := by
  cases fuel with
  | zero => rfl
  | succ fuel =>
    have r1 : turn w s true 0 ⟨1, 1073741824, 1, 0, [], false⟩ (((m (createBid w 1 s 1)).getD [])) ⟨[], [], []⟩ =
        some (⟨1073741824, 1073741824, -1073741824, -1073741824, [], false⟩, ⟨[], [], []⟩) := by
      rw [h1]
      rfl
    rw [rounds, if_neg (by simp), turns_one rfl, r1]
    simp only [Option.bind_eq_bind, Option.bind_some, Option.map_some]
    cases fuel with
    | zero => rfl
    | succ fuel =>
      -- the bounds have met, and nothing was read so far
      have r2 : turn w s false 0 ⟨1073741824, 1073741824, -1073741824, -1073741824, [], false⟩
          ((m (createBid w 1 s (-1073741824))).getD []) ⟨[], [], []⟩ = none := by
        rw [h2]
        rfl
      rw [rounds, if_neg (by simp), turns_one rfl, r2]
      rfl

theorem countable_overflowing {n : Nat} (hn : n + 1 < 2 ^ 30) : Runs.Each Countable [] (overflowing n) := by
  rw [overflowing, Runs.each_concat, Runs.each_concat, Runs.each_concat]
  refine ⟨⟨⟨countable_refills _ _ n, trivial⟩, ?_⟩, trivial⟩
  show (shelf (refills [97] 1 n ++ [.remove [97] 1]) [97]).top < 2 ^ 30 ∧
    (shelf (refills [97] 1 n ++ [.remove [97] 1]) [97]).epoch + 1 < 2 ^ 31
  rw [shelf_concat, (shelf_refills n).1]
  exact ⟨hn, show 0 + 1 < 2 ^ 31 by decide⟩

theorem search_overflowing {n : Nat} (hn : n + 2 = 2 ^ 30) (hspace : (totalTakes (overflowing n)).boxes ≤ maxBoxes)
    {fuel : Nat} (hf : 2 ^ 32 ≤ fuel) : (search fuel (after fuel (overflowing n)) [97]).2 = none := by
  have hw : Valid [97] := by decide
  have hroom := inRoom_of_boxes (allowed_overflowing n) hspace (countable_overflowing (by omega))
  have h := (shelved_after hf hroom).1 [97] hw
  have hshelf : shelf (overflowing n) [97] = ⟨[1], [n + 2], n + 2, [1], 1, 1⟩ := by
    rw [overflowing, shelf_concat, if_pos (by rfl), shelf_spent]
    exact spent_insert n
  rw [hshelf] at h
  -- the last insert has written the pointer to box `n + 2`
  have hbox : ((after fuel (overflowing n)).row [97]).box 1 1 1 = some (pointer 1073741824) := by
    rw [overflowing, Runs.each_concat] at hroom
    have hbefore := (shelved_after hf hroom.1).1 [97] hw
    rw [shelf_spent] at hbefore
    have hfresh : (spent n).freshAcc = n + 2 := rfl
    have hptr := hbefore.insert_pointer (x := 1) (by simp [spent]) ⟨show 0 + 1 < 2 ^ 31 - 1 by decide, by omega⟩
      (show 0 < 0 + 1 by decide) (by omega)
    rw [hfresh, hn] at hptr
    rw [overflowing, after_concat]
    exact hptr
  generalize after fuel (overflowing n) = st at h hbox
  have htop : Int32.ofNat (n + 2) = 1073741824 := by rw [hn]; rfl
  have hcnt : (st.updtCnt [97]).getD 0 = 1 := h.entries.cnt
  have hsrch : (st.srchCnt [97]).getD 0 = 1 := h.srchCnt
  have hacc : (st.access [97]).getD 0 = 1073741824 := by
    have hone : (st.access [97]).getD 1 = Int32.ofNat (n + 2) := h.entries.access
    rw [htop] at hone
    cases ha : st.access [97] with
    | none =>
      rw [ha] at hone
      exact absurd hone (by decide)
    | some a =>
      rw [ha] at hone
      exact hone
  -- nothing below 0 is a box
  obtain ⟨lo, hlad, -⟩ := h.ladder 0 (n + 2) (show 0 < 1 by decide) rfl
  have hneg : st.srch (createBid [97] 1 1 (-1073741824)) = none := by
    refine hlad.top (-1073741824) fun k hk e => ?_
    have hint := congrArg Int32.toInt e
    rw [toInt_ofNat_small (by omega)] at hint
    have hlt : (-1073741824 : Int32).toInt = -1073741824 := by decide
    omega
  have hrounds := rounds_overflow (w := [97]) (m := st.srch) hbox hneg fuel
  have hone : (1 : Int32).toInt.toNat = 1 := by decide
  unfold search
  simp only
  rw [hcnt, hsrch, hacc, hone, List.replicate_one, hrounds]

theorem overflows {n : Nat} (hn : n = 2 ^ 30 - 2) :
    Runs.Each Allowed [] (overflowing n) ∧ (totalTakes (overflowing n)).boxes ≤ maxBoxes ∧
      live (overflowing n) [97] 1 = true ∧
      ∀ fuel, 2 ^ 32 ≤ fuel → (search fuel (after fuel (overflowing n)) [97]).2 = none := by
  have hmax : maxBoxes + 4 = 2 ^ 31 := rfl
  have hspace : (totalTakes (overflowing n)).boxes ≤ maxBoxes := by
    rw [boxes_overflowing]
    omega
  exact ⟨allowed_overflowing n, hspace, live_overflowing n, fun _ hf => search_overflowing (by omega) hspace hf⟩

/-- **A slot filled `2 ^ 30` times.**  The store has room for all boxes of the run, but the sum of the
bounds overflows, the probe moves below the boxes, and the search throws. -/
theorem search_throws_at_2_pow_30 :
    Runs.Each Allowed [] (overflowing (2 ^ 30 - 2)) ∧ (totalTakes (overflowing (2 ^ 30 - 2))).boxes ≤ maxBoxes ∧
      live (overflowing (2 ^ 30 - 2)) [97] 1 = true ∧
      ∀ fuel, 2 ^ 32 ≤ fuel → (search fuel (after fuel (overflowing (2 ^ 30 - 2))) [97]).2 = none :=
  overflows rfl

end Sse.Horus
