import Sse.Horus.Entries

/-!
# The shelf of a keyword, and exactness of search

A shelf is what a keyword of Horus is about, computed from the calls alone: the live inds by
slot, the access count of every slot, how many slots have boxes under the current search
count (`upto`) and that count itself (`epoch`).  The row of the keyword represents it
(`Shelved`).  What carries the search is the part about the boxes: under the current search
count

    slots up to `upto`     a ladder that ends at the access count of the slot
    the slots above        no box at all

An insert into a slot up to `upto` and the swap of a removal put one more rung on a ladder.  An
insert into slot `upto + 1` starts one, with a pointer if its access count is not 1.  A search
starts one for every slot in use, and `upto` falls to the number of these.

    access counts below 2^30  →  search returns the live inds, each once       (horus_search_exact)
-/

namespace Sse.Horus

open Orion (Op live Valid Allowed fill length_fill getElem?_fill_cases mem_fill nodup_fill)

/-! ## Shelves -/

structure Shelf where
  inds : List Int32
  accs : List Nat
  top : Nat
  seen : List Int32
  upto : Nat
  epoch : Nat
deriving DecidableEq

namespace Shelf

def empty : Shelf := ⟨[], [], 1, [], 0, 0⟩

/-- The access count the next slot gets. -/
def freshAcc (b : Shelf) : Nat := nextAcc b.accs b.inds.length

def insert (b : Shelf) (ind : Int32) : Shelf :=
  if ind ∈ b.inds then b
  else { b with
    inds := b.inds ++ [ind]
    accs := put b.accs b.inds.length b.freshAcc
    top := max b.top b.freshAcc
    seen := b.seen.insert ind
    upto := max b.upto (b.inds.length + 1) }

/-- The last ind moves to the slot of the removed one. -/
def swaps (b : Shelf) (ind : Int32) : Bool := ind ∈ b.inds ∧ b.inds.idxOf ind + 1 < b.inds.length

def remove (b : Shelf) (ind : Int32) : Shelf :=
  if ind ∈ b.inds then
    let j := b.inds.idxOf ind
    { b with
      inds := fill b.inds j
      accs := if b.swaps ind then put b.accs j (nextAcc b.accs j) else b.accs
      top := if b.swaps ind then max b.top (nextAcc b.accs j) else b.top }
  else b

def search (b : Shelf) : Shelf := { b with upto := b.inds.length, epoch := b.epoch + 1 }

def step (b : Shelf) : Op → Shelf
  | .insert _ ind => b.insert ind
  | .remove _ ind => b.remove ind
  | .search _ => b.search

end Shelf

/-- The shelf of a keyword after a sequence of calls. -/
def shelf (ops : List Op) (w : Str) : Shelf :=
  ops.foldl (fun b op => if op.keyword = w then b.step op else b) Shelf.empty

@[simp] theorem shelf_nil (w : Str) : shelf [] w = Shelf.empty := rfl

theorem shelf_concat (ops : List Op) (op : Op) (w : Str) :
    shelf (ops ++ [op]) w = if op.keyword = w then (shelf ops w).step op else shelf ops w := by
  simp [shelf]

/-! ## Ladders that grow -/

section

variable {f f' : Int32 → Option Str} {lo hi : Nat}

/-- One more rung. -/
theorem Ladder.extend (h : Ladder f lo hi) {x : Int32} (hlt : hi + 1 < 2 ^ 31)
    (htop : f' (Int32.ofNat (hi + 1)) = some (toStr x.toInt))
    (hrest : ∀ acc, acc ≠ Int32.ofNat (hi + 1) → f' acc = f acc) : Ladder f' lo (hi + 1) := by
  have hne : ∀ k, k ≠ hi + 1 → k < 2 ^ 31 → f' (Int32.ofNat k) = f (Int32.ofNat k) := fun k hk hk31 =>
    hrest _ fun e => hk (ofNat_inj_small hk31 hlt e)
  have hone := h.one_le
  have hle := h.le
  constructor
  · exact h.one_le
  · omega
  · intro k h1 h2
    by_cases hk : k = hi + 1
    · rw [hk]
      exact ⟨x, htop⟩
    · rw [hne k hk (by omega)]
      exact h.rung k h1 (by omega)
  · intro h1
    have h01 := hne 1 (by omega) (by decide)
    rw [show (1 : Int32) = Int32.ofNat 1 from rfl, h01]
    exact h.foot h1
  · intro acc hacc
    rw [hrest acc (hacc _ le_rfl)]
    exact h.top acc fun k hk => hacc k (by omega)

/-- A ladder of one rung. -/
theorem ladder_single (h1 : 1 ≤ hi) {x : Int32} (htop : f (Int32.ofNat hi) = some (toStr x.toInt))
    (hfoot : 1 < hi → f 1 = some (pointer (Int32.ofNat hi)))
    (hrest : ∀ acc, acc ≠ Int32.ofNat hi → acc ≠ 1 → f acc = none) : Ladder f hi hi := by
  constructor
  · exact h1
  · exact le_rfl
  · intro k hk1 hk2
    rw [show k = hi by omega]
    exact ⟨x, htop⟩
  · exact hfoot
  · intro acc hacc
    exact hrest acc (hacc hi le_rfl) (hacc 1 h1)

end

/-! ## What a row says about its shelf -/

structure Shelved (r : Row) (b : Shelf) : Prop where
  entries : Entries r b.inds b.accs b.top b.seen
  last : r.lastIND = b.inds.getLast?
  latest : r.latestUpdatedCounter.getD 0 = Int32.ofNat b.upto
  srchCnt : r.srchCnt.getD 0 = Int32.ofNat b.epoch
  started : r.updtCnt = none → b.upto = 0 ∧ b.epoch = 0
  inds_le : b.inds.length ≤ b.upto
  upto_le : b.upto ≤ b.accs.length
  epoch_lt : b.epoch < 2 ^ 31
  ladder : ∀ i a, i < b.upto → b.accs[i]? = some a →
    ∃ lo, Ladder (fun acc => r.box (Int32.ofNat (i + 1)) (Int32.ofNat b.epoch) acc) lo a ∧
      ∀ x, b.inds[i]? = some x →
        r.box (Int32.ofNat (i + 1)) (Int32.ofNat b.epoch) (Int32.ofNat a) = some (toStr x.toInt)
  fresh : ∀ i acc, b.upto ≤ i → i + 1 < 2 ^ 31 → r.box (Int32.ofNat (i + 1)) (Int32.ofNat b.epoch) acc = none
  later : ∀ u s acc, b.epoch < s → s < 2 ^ 31 → r.box u (Int32.ofNat s) acc = none

theorem shelved_init (w : Str) : Shelved (init.row w) Shelf.empty where
  entries := entries_init w
  last := rfl
  latest := rfl
  srchCnt := rfl
  started := fun _ => ⟨rfl, rfl⟩
  inds_le := le_rfl
  upto_le := le_rfl
  epoch_lt := by decide
  ladder := fun i a h => absurd h (by simp [Shelf.empty])
  fresh := fun _ _ _ _ => rfl
  later := fun _ _ _ _ _ => rfl

/-- The numbers of a shelf that a call makes larger stay inside an `int`, and access counts that a
search adds up below half of that. -/
def Room (b : Shelf) : Op → Prop
  | .insert _ _ => b.inds.length + 1 < 2 ^ 31 - 1 ∧ b.freshAcc < 2 ^ 31
  | .remove _ _ => b.top + 1 < 2 ^ 31
  | .search _ => b.top < 2 ^ 30 ∧ b.epoch + 1 < 2 ^ 31

section

theorem setBox_self (box : Int32 → Int32 → Int32 → Option Str) (u s a : Int32) (v : Str) :
    setBox box u s a v u s a = some v := if_pos ⟨rfl, rfl, rfl⟩

theorem setBox_of_ne {box : Int32 → Int32 → Int32 → Option Str} {u s a u' s' a' : Int32} (v : Str)
    (h : ¬ (u' = u ∧ s' = s ∧ a' = a)) : setBox box u s a v u' s' a' = box u' s' a' := if_neg h

end

section

variable {r : Row} {b : Shelf} {box' : Int32 → Int32 → Int32 → Option Str}

/-- A slot whose boxes are as before keeps its ladder. -/
theorem Shelved.ladder_congr (h : Shelved r b) {i a : Nat} (hi : i < b.upto) (ha : b.accs[i]? = some a)
    (hsame : ∀ acc, box' (Int32.ofNat (i + 1)) (Int32.ofNat b.epoch) acc =
      r.box (Int32.ofNat (i + 1)) (Int32.ofNat b.epoch) acc)
    {ind : Option Int32} (hind : ∀ y, ind = some y → b.inds[i]? = some y) :
    ∃ lo, Ladder (fun acc => box' (Int32.ofNat (i + 1)) (Int32.ofNat b.epoch) acc) lo a ∧
      ∀ y, ind = some y →
        box' (Int32.ofNat (i + 1)) (Int32.ofNat b.epoch) (Int32.ofNat a) = some (toStr y.toInt) := by
  obtain ⟨lo, hlad, hval⟩ := h.ladder i a hi ha
  refine ⟨lo, ?_, fun y hy => ?_⟩
  · rw [show (fun acc => box' (Int32.ofNat (i + 1)) (Int32.ofNat b.epoch) acc) =
      fun acc => r.box (Int32.ofNat (i + 1)) (Int32.ofNat b.epoch) acc from funext hsame]
    exact hlad
  · rw [hsame]
    exact hval y (hind y hy)

/-- One more rung on the ladder of a slot, with an ind on it. -/
theorem Shelved.ladder_extend (h : Shelved r b) {i c : Nat} (hi : i < b.upto) (hc : b.accs[i]? = some c)
    (hlt : c + 1 < 2 ^ 31) {x : Int32}
    (htop : box' (Int32.ofNat (i + 1)) (Int32.ofNat b.epoch) (Int32.ofNat (c + 1)) = some (toStr x.toInt))
    (hrest : ∀ acc, acc ≠ Int32.ofNat (c + 1) → box' (Int32.ofNat (i + 1)) (Int32.ofNat b.epoch) acc =
      r.box (Int32.ofNat (i + 1)) (Int32.ofNat b.epoch) acc)
    {ind : Option Int32} (hind : ∀ y, ind = some y → y = x) :
    ∃ lo, Ladder (fun acc => box' (Int32.ofNat (i + 1)) (Int32.ofNat b.epoch) acc) lo (c + 1) ∧
      ∀ y, ind = some y →
        box' (Int32.ofNat (i + 1)) (Int32.ofNat b.epoch) (Int32.ofNat (c + 1)) = some (toStr y.toInt) := by
  obtain ⟨lo, hlad, -⟩ := h.ladder i c hi hc
  refine ⟨lo, hlad.extend hlt htop hrest, fun y hy => ?_⟩
  rw [htop, hind y hy]

/-- Boxes of one slot under the current search count leave the slots that had no box without one. -/
theorem Shelved.fresh_congr (h : Shelved r b) {j : Nat} (hj : j + 1 < 2 ^ 31)
    (hother : ∀ u s acc, ¬ (u = Int32.ofNat (j + 1) ∧ s = Int32.ofNat b.epoch) → box' u s acc = r.box u s acc)
    {i : Nat} (hi : b.upto ≤ i) (hij : i ≠ j) (hi31 : i + 1 < 2 ^ 31) (acc : Int32) :
    box' (Int32.ofNat (i + 1)) (Int32.ofNat b.epoch) acc = none := by
  have hne := ofNat_ne_small hi31 hj (show i + 1 ≠ j + 1 by omega)
  rw [hother _ _ _ fun e => hne e.1]
  exact h.fresh i acc hi hi31

theorem Shelved.later_congr (h : Shelved r b) {v : Int32}
    (hother : ∀ u s acc, ¬ (u = v ∧ s = Int32.ofNat b.epoch) → box' u s acc = r.box u s acc)
    {s : Nat} (hs : b.epoch < s) (hs31 : s < 2 ^ 31) (u acc : Int32) : box' u (Int32.ofNat s) acc = none := by
  have hne := ofNat_ne_small hs31 h.epoch_lt (show s ≠ b.epoch by omega)
  rw [hother _ _ _ fun e => hne e.2]
  exact h.later u s acc hs hs31

/-- The counters an insert creates are there, or as good as there. -/
theorem Shelved.created_latest (h : Shelved r b) : r.created.latestUpdatedCounter.getD 0 = Int32.ofNat b.upto := by
  show (if r.updtCnt = none then some 0 else r.latestUpdatedCounter).getD 0 = _
  split
  · next hn =>
    rw [(h.started hn).1]
    rfl
  · exact h.latest

theorem Shelved.created_srchCnt (h : Shelved r b) : r.created.srchCnt.getD 0 = Int32.ofNat b.epoch := by
  show (if r.updtCnt = none then some 0 else r.srchCnt).getD 0 = _
  split
  · next hn =>
    rw [(h.started hn).2]
    rfl
  · exact h.srchCnt

end

section

variable {st : State} {w : Str} {b : Shelf}

/-- **Insert** puts a rung on the ladder of the next slot, or starts it. -/
theorem Shelved.insert (h : Shelved (st.row w) b) {x : Int32} (hroom : b.inds.length + 1 < 2 ^ 31 - 1 ∧ b.freshAcc < 2 ^ 31) :
    (Horus.insert st w x).2 = some () ∧ Shelved ((Horus.insert st w x).1.row w) (b.insert x) := by
  by_cases hx : x ∈ b.inds
  · rw [h.entries.insert_live hx, Shelf.insert, if_pos hx]
    exact ⟨rfl, h⟩
  obtain ⟨hret, hrow, -⟩ := h.entries.insert hx hroom.1 hroom.2
  refine ⟨hret, ?_⟩
  rw [hrow, Shelf.insert, if_neg hx]
  have hle := h.inds_le
  have hup := h.upto_le
  have hone := one_le_nextAcc b.accs b.inds.length
  have hacc := h.entries.inds_le
  have haccs := h.entries.accs_lt
  have hlt : b.freshAcc < 2 ^ 31 := hroom.2
  have hfresh : nextAcc b.accs b.inds.length = b.freshAcc := rfl
  rw [hfresh] at hone ⊢
  have hput := length_put hacc b.freshAcc
  have hlatest := h.created_latest
  have hsrch := h.created_srchCnt
  have hnew : (st.row w).created.latestUpdatedCounter.getD 0 < Int32.ofNat (b.inds.length + 1) ↔
      b.upto = b.inds.length := by
    rw [hlatest, ofNat_lt (by omega) (by omega)]
    omega
  have hgt : (1 : Int32) < Int32.ofNat b.freshAcc ↔ 1 < b.freshAcc :=
    ofNat_lt (show 1 < 2 ^ 31 by decide) hlt
  set r' := Row.fillSlot { (st.row w).created with
    updtCnt := some (Int32.ofNat (b.inds.length + 1))
    access := some (Int32.ofNat (max b.top b.freshAcc)) } x (Int32.ofNat (b.inds.length + 1))
    (Int32.ofNat b.freshAcc) with hr'
  -- the boxes of the other slots, and of other search counts, are as before
  have hother : ∀ u s acc, ¬ (u = Int32.ofNat (b.inds.length + 1) ∧ s = Int32.ofNat b.epoch) →
      r'.box u s acc = (st.row w).box u s acc := by
    intro u s acc hno
    rw [hr']
    simp only [Row.fillSlot, hsrch]
    split
    · rw [setBox_of_ne _ fun e => hno ⟨e.1, e.2.1⟩, setBox_of_ne _ fun e => hno ⟨e.1, e.2.1⟩]
      rfl
    · rw [setBox_of_ne _ fun e => hno ⟨e.1, e.2.1⟩]
      rfl
  have htop : r'.box (Int32.ofNat (b.inds.length + 1)) (Int32.ofNat b.epoch) (Int32.ofNat b.freshAcc) =
      some (toStr x.toInt) := by
    rw [hr']
    simp only [Row.fillSlot, hsrch]
    split
    · next hc =>
      rw [setBox_of_ne, setBox_self]
      rintro ⟨-, -, e⟩
      have := ofNat_inj_small (k := 1) hlt (by decide) e
      have := hgt.1 hc.2
      omega
    · exact setBox_self _ _ _ _ _
  have hupto : max b.upto (b.inds.length + 1) = if b.upto = b.inds.length then b.inds.length + 1 else b.upto := by
    split <;> omega
  refine ⟨?_, ?_, ?_, hsrch, ?_, ?_, ?_, h.epoch_lt, ?_, ?_, ?_⟩
  · exact h.entries.push hx hone (le_max_right _ _) (le_max_left _ _) (max_lt h.entries.top_lt hlt) hroom.1 rfl rfl rfl rfl
  · show some x = _
    simp
  · rw [hr']
    simp only [Row.fillSlot]
    by_cases hc : b.upto = b.inds.length
    · rw [if_pos (hnew.2 hc), Option.getD_some, hlatest, ofNat_add_one, hupto, if_pos hc, hc]
    · rw [if_neg fun e => hc (hnew.1 e), hupto, if_neg hc]
      exact hlatest
  · intro hn
    cases hn
  · rw [List.length_append, List.length_singleton]
    exact le_max_right _ _
  · show max b.upto (b.inds.length + 1) ≤ (put b.accs b.inds.length b.freshAcc).length
    omega
  · intro i a hi ha
    have hi : i < max b.upto (b.inds.length + 1) := hi
    rw [getElem?_put hacc] at ha
    by_cases hin : i = b.inds.length
    · subst hin
      rw [if_pos rfl] at ha
      obtain rfl := Option.some.inj ha
      have hlast : ∀ y, (b.inds ++ [x])[b.inds.length]? = some y → y = x := by
        intro y hy
        rw [List.getElem?_concat_length] at hy
        exact (Option.some.inj hy).symm
      by_cases hc : b.upto = b.inds.length
      · -- the first box of the slot under this search count
        refine ⟨b.freshAcc, ladder_single hone htop ?_ ?_, fun y hy => by rw [htop, hlast y hy]⟩
        · intro h1
          rw [hr']
          simp only [Row.fillSlot, hsrch]
          rw [if_pos ⟨hnew.2 hc, hgt.2 h1⟩]
          exact setBox_self _ _ _ _ _
        · intro acc hne hne1
          rw [hr']
          simp only [Row.fillSlot, hsrch]
          have hold : (st.row w).box (Int32.ofNat (b.inds.length + 1)) (Int32.ofNat b.epoch) acc = none :=
            h.fresh _ acc (by omega) (by omega)
          split
          · rw [setBox_of_ne _ fun e => hne1 e.2.2, setBox_of_ne _ fun e => hne e.2.2]
            exact hold
          · rw [setBox_of_ne _ fun e => hne e.2.2]
            exact hold
      · -- one more rung
        obtain ⟨c, hc'⟩ := exists_getElem? (show b.inds.length < b.accs.length by omega)
        have hac : b.freshAcc = c + 1 := by
          show nextAcc b.accs b.inds.length = c + 1
          rw [nextAcc, hc']
        rw [hac] at htop hlt ⊢
        refine h.ladder_extend (by omega) hc' hlt htop (fun acc hne => ?_) hlast
        rw [← hac] at hne
        rw [hr']
        simp only [Row.fillSlot, hsrch]
        rw [if_neg fun e => hc (hnew.1 e.1), setBox_of_ne _ fun e => hne e.2.2]
        rfl
    · rw [if_neg hin] at ha
      have hilt := lt_of_getElem?_eq_some ha
      have hne : Int32.ofNat (i + 1) ≠ Int32.ofNat (b.inds.length + 1) :=
        ofNat_ne_small (by omega) (by omega) (by omega)
      refine h.ladder_congr (by omega) ha (fun acc => hother _ _ acc fun e => hne e.1) fun y hy => ?_
      rcases getElem?_concat_cases hy with hy | ⟨e, -⟩
      · exact hy
      · exact absurd e hin
  · intro i acc hi hi31
    have hi : max b.upto (b.inds.length + 1) ≤ i := hi
    exact h.fresh_congr (by omega) hother (by omega) (by omega) hi31 acc
  · exact fun u s acc hs hs31 => h.later_congr hother hs hs31 u acc

/-- **Remove** puts a rung on the ladder of the freed slot. -/
theorem Shelved.remove (h : Shelved (st.row w) b) {x : Int32} (hroom : b.top + 1 < 2 ^ 31) :
    ((Horus.remove st w x).2 = some () ↔ x ∈ b.seen) ∧ Shelved ((Horus.remove st w x).1.row w) (b.remove x) := by
  by_cases hx : x ∈ b.inds
  swap
  · rw [Shelf.remove, if_neg hx]
    by_cases hs : x ∈ b.seen
    · rw [h.entries.remove_gone hx hs]
      exact ⟨iff_of_true rfl hs, h⟩
    · rw [h.entries.remove_unseen hs]
      exact ⟨iff_of_false (by simp) hs, h⟩
  have hj : b.inds[b.inds.idxOf x]? = some x := List.getElem?_idxOf hx
  obtain ⟨a, ha, h1, hatop, hj31⟩ := h.entries.acc_of_ind hj
  obtain ⟨hret, hrem⟩ := h.entries.remove h.last hj ha (by omega)
  refine ⟨iff_of_true hret (h.entries.subset x hx), ?_⟩
  have hnext : nextAcc b.accs (b.inds.idxOf x) = a + 1 := by rw [nextAcc, ha]
  rw [Shelf.remove, if_pos hx]
  set j := b.inds.idxOf x with hjdef
  have hlt := lt_of_getElem?_eq_some hj
  have hle := h.inds_le
  have hup := h.upto_le
  have haccs := h.entries.accs_lt
  have hswaps : b.swaps x = decide (j + 1 < b.inds.length) := by simp [Shelf.swaps, hx, hjdef]
  have haccs' : (if b.swaps x = true then put b.accs j (nextAcc b.accs j) else b.accs) =
      if j + 1 < b.inds.length then put b.accs j (a + 1) else b.accs := by simp only [hswaps, decide_eq_true_eq, hnext]
  have htop' : (if b.swaps x = true then max b.top (nextAcc b.accs j) else b.top) =
      if j + 1 < b.inds.length then max b.top (a + 1) else b.top := by simp only [hswaps, decide_eq_true_eq, hnext]
  simp only [haccs', htop']
  set st' := (Horus.remove st w x).1 with hst'
  have hsrch : (st'.row w).srchCnt.getD 0 = Int32.ofNat b.epoch := by rw [hrem.srchCnt]; exact h.srchCnt
  have hbox := hrem.box
  have hs0 : (st.row w).srchCnt.getD 0 = Int32.ofNat b.epoch := h.srchCnt
  rw [hs0] at hbox
  -- the boxes of the other slots, and of other search counts, are as before
  have hother : ∀ u s acc, ¬ (u = Int32.ofNat (j + 1) ∧ s = Int32.ofNat b.epoch) →
      (st'.row w).box u s acc = (st.row w).box u s acc := by
    intro u s acc hno
    rw [hbox]
    split
    · exact setBox_of_ne _ fun e => hno ⟨e.1, e.2.1⟩
    · rfl
  refine ⟨hrem.entries, hrem.last, ?_, hsrch, ?_, ?_, ?_, h.epoch_lt, ?_, ?_, ?_⟩
  · rw [hrem.latest]
    exact h.latest
  · intro hn
    have hne : (if j + 1 < b.inds.length then put b.accs j (a + 1) else b.accs) ≠ [] := by
      intro e
      have hl := congrArg List.length e
      split at hl
      · rw [length_put (by omega)] at hl
        exact absurd hl (by show ¬ max b.accs.length (j + 1) = 0; omega)
      · exact absurd hl (by show ¬ b.accs.length = 0; omega)
    have := (hrem.entries.created hne).2
    rw [hn] at this
    cases this
  · show (fill b.inds j).length ≤ b.upto
    rw [length_fill]
    omega
  · show b.upto ≤ (if j + 1 < b.inds.length then put b.accs j (a + 1) else b.accs).length
    split
    · rw [length_put (by omega)]
      omega
    · exact hup
  · intro i c hi hc
    have hi : i < b.upto := hi
    by_cases hswap : j + 1 < b.inds.length
    · rw [if_pos hswap] at hc hbox
      rw [getElem?_put (by omega)] at hc
      by_cases hij : i = j
      · rw [if_pos hij] at hc
        obtain rfl := Option.some.inj hc
        rw [hij] at hi ⊢
        refine h.ladder_extend hi ha (by omega) (x := b.inds.getLastD 0) ?_ (fun acc hne => ?_) fun y hy => ?_
        · rw [hbox]
          exact setBox_self _ _ _ _ _
        · rw [hbox]
          exact setBox_of_ne _ fun e => hne e.2.2
        · rcases getElem?_fill_cases hy with ⟨-, hy⟩ | ⟨hne, -⟩
          · exact hy
          · exact absurd rfl hne
      · rw [if_neg hij] at hc
        have hilt := lt_of_getElem?_eq_some hc
        have hne : Int32.ofNat (i + 1) ≠ Int32.ofNat (j + 1) := ofNat_ne_small (by omega) (by omega) (by omega)
        refine h.ladder_congr hi hc (fun acc => hother _ _ acc fun e => hne e.1) fun y hy => ?_
        rcases getElem?_fill_cases hy with ⟨e, -⟩ | ⟨-, hy⟩
        · exact absurd e hij
        · exact hy
    · -- no box is written
      rw [if_neg hswap] at hc hbox
      refine h.ladder_congr hi hc (fun acc => by rw [hbox]) fun y hy => ?_
      have hyl := lt_of_getElem?_eq_some hy
      rw [length_fill] at hyl
      rcases getElem?_fill_cases hy with ⟨e, -⟩ | ⟨-, hy⟩
      · omega
      · exact hy
  · intro i acc hi hi31
    have hi : b.upto ≤ i := hi
    exact h.fresh_congr (by omega) hother hi (by omega) hi31 acc
  · exact fun u s acc hs hs31 => h.later_congr hother hs hs31 u acc

/-! ## Search -/

/-- The first entries of a list, by index. -/
theorem map_range_getD {α β : Type} (g : α → β) (l : List α) (d : α) {n : Nat} (h : n ≤ l.length) :
    (List.range n).map (fun i => g ((l[i]?).getD d)) = (l.take n).map g := by
  apply List.ext_getElem?
  intro i
  rw [List.getElem?_map, List.getElem?_map, List.getElem?_take]
  by_cases hi : i < n
  · have hil : i < l.length := by omega
    rw [if_pos hi, List.getElem?_range hi, Option.map_some, List.getElem?_eq_getElem hil]
    rfl
  · rw [if_neg hi, List.getElem?_eq_none (by simpa using hi)]
    rfl

/-- The boxes a search writes: one for a slot, and a pointer where its access count is not 1. -/
def Shelf.searchBoxes (b : Shelf) : Nat := ((b.accs.take b.inds.length).map fun a => 1 + if 1 < a then 1 else 0).sum

/-- **Search** returns the live inds in some order, and starts a ladder for each. -/
theorem Shelved.search (h : Shelved (st.row w) b) (hroom : b.top < 2 ^ 30 ∧ b.epoch + 1 < 2 ^ 31) {fuel : Nat}
    (hf : 2 ^ 32 ≤ fuel) :
    ∃ l, (Horus.search fuel st w).2 = some l ∧ l.Perm b.inds ∧
      Shelved ((Horus.search fuel st w).1.row w) b.search ∧
      (Horus.search fuel st w).1.taken = ⟨st.taken.nodes, st.taken.boxes + b.searchBoxes⟩ ∧
      ∀ w', Valid w → Valid w' → w' ≠ w → (Horus.search fuel st w).1.row w' = st.row w' := by
  have hle := h.inds_le
  have hup := h.upto_le
  have haccs := h.entries.accs_lt
  have hacc : ∀ i, i < b.inds.length → ∃ a, b.accs[i]? = some a ∧ 1 ≤ a ∧ a ≤ b.top := by
    intro i hi
    obtain ⟨a, ha, h1, h2, -⟩ := h.entries.acc_of_ind (List.getElem?_eq_getElem hi)
    exact ⟨a, ha, h1, h2⟩
  -- the ladders of the slots in use
  have hlo : ∀ i, ∃ lo, ∀ a, i < b.upto → b.accs[i]? = some a →
      Ladder (fun acc => (st.row w).box (Int32.ofNat (i + 1)) (Int32.ofNat b.epoch) acc) lo a ∧
        ∀ x, b.inds[i]? = some x →
          (st.row w).box (Int32.ofNat (i + 1)) (Int32.ofNat b.epoch) (Int32.ofNat a) = some (toStr x.toInt) := by
    intro i
    cases ha : b.accs[i]? with
    | none => exact ⟨0, fun a _ e => by cases e⟩
    | some a =>
      by_cases hi : i < b.upto
      · obtain ⟨lo, hlad⟩ := h.ladder i a hi ha
        exact ⟨lo, fun a' _ e => Option.some.inj e ▸ hlad⟩
      · exact ⟨0, fun a' hi' => absurd hi' hi⟩
  choose lo hlo using hlo
  have H : Ladders w (Int32.ofNat b.epoch) st.srch b.inds.length b.top lo (fun i => (b.accs[i]?).getD 0)
      (fun i => (b.inds[i]?).getD 0) := by
    refine ⟨by omega, fun i hi => ?_, fun i hi => ?_, fun i hi => ?_, fun i hi => ?_⟩
    · obtain ⟨a, ha, -, h2⟩ := hacc i hi
      simp only [ha, Option.getD_some]
      exact clear_of_sum _ (by omega)
    · obtain ⟨a, ha, -⟩ := hacc i hi
      simp only [ha, Option.getD_some]
      exact (hlo i a (by omega) ha).1
    · obtain ⟨a, ha, -, h2⟩ := hacc i hi
      simp only [ha, Option.getD_some]
      exact h2
    · obtain ⟨a, ha, -⟩ := hacc i hi
      simp only [ha, Option.getD_some]
      rw [List.getElem?_eq_getElem hi]
      exact (hlo i a (by omega) ha).2 _ (List.getElem?_eq_getElem hi)
  have haccess : b.inds.length ≠ 0 → (st.row w).access = some (Int32.ofNat b.top) := by
    intro hn
    exact h.entries.access_eq fun e => by rw [e] at hup; exact hn (by simp only [List.length_nil] at hup; omega)
  obtain ⟨order, box', hp, hret, hrow, hrew, htaken, hother⟩ :=
    search_spec hf h.entries.cnt h.srchCnt haccess H
  have hinds : (List.range b.inds.length).map (fun i => (b.inds[i]?).getD 0) = b.inds := by
    have := map_range_getD (fun x : Int32 => x) b.inds 0 le_rfl
    rwa [List.take_length, List.map_id'] at this
  refine ⟨_, hret, ?_, ?_, ?_, hother⟩
  · have := hp.map fun i => (b.inds[i]?).getD 0
    rwa [hinds] at this
  swap
  · rw [htaken, Shelf.searchBoxes, ← map_range_getD _ b.accs 0 (by omega)]
  rw [hrow]
  -- nothing but the new boxes under the next search count
  have hnew : ∀ (i : Nat) acc, i + 1 < 2 ^ 31 → (i < b.inds.length → acc ≠ Int32.ofNat ((b.accs[i]?).getD 0) ∧ acc ≠ 1) →
      box' (Int32.ofNat (i + 1)) (Int32.ofNat (b.epoch + 1)) acc = none := by
    intro i acc hi31 hne
    rw [hrew.rest]
    · exact h.later _ _ acc (Nat.lt_succ_self _) hroom.2
    · intro k hk hu _
      obtain rfl : i = k := by
        have := ofNat_inj_small hi31 (by omega) hu
        omega
      exact ⟨(hne hk).1, fun _ => (hne hk).2⟩
  refine ⟨h.entries.congr h.entries.cnt.symm (fun _ => rfl) rfl rfl rfl, h.last, rfl, rfl, ?_, le_rfl, ?_, hroom.2, ?_,
    ?_, ?_⟩
  · intro hn
    cases hn
  · show b.inds.length ≤ b.accs.length
    omega
  · intro i a hi ha
    have hi : i < b.inds.length := hi
    obtain ⟨a', ha', h1, h2⟩ := hacc i hi
    obtain rfl : a = a' := Option.some.inj (ha.symm.trans ha')
    have htop := hrew.tops i hi
    have hfoot := hrew.foot i hi
    have hnew := hnew i
    rw [ha', Option.getD_some] at hnew
    simp only [ha', Option.getD_some] at htop hfoot
    refine ⟨a, ladder_single h1 htop hfoot fun acc hne hne1 => hnew acc (by omega) fun _ => ⟨hne, hne1⟩,
      fun x hx => ?_⟩
    have hx' : b.inds[i]? = some x := hx
    rw [hx'] at htop
    exact htop
  · intro i acc hi hi31
    have hi : b.inds.length ≤ i := hi
    exact hnew i acc hi31 fun e => by omega
  · intro u s acc hs hs31
    have hs : b.epoch + 1 < s := hs
    show box' u (Int32.ofNat s) acc = none
    rw [hrew.rest _ _ _ fun k hk hu he => by have := ofNat_inj_small hs31 hroom.2 he; omega]
    exact h.later u s acc (by omega) hs31

end

end Sse.Horus
