import Sse.Horus.Exact
import Sse.Horus.Setup

/-!
# Setup mode of Horus against the online mode

In setup mode the staged maps stand where the stores stand online, and `setupRemove` does on
them what `remove` does on the stores.  `setupInsert` does not read the entry of the slot: it
starts the access count of the slot at 1 again, where `insert` goes on from the last one.

So a keyword of the setup mode is about a bench: its inds by slot, the access counts of the
slots, and for every slot the pile of inds that its boxes hold, by access count.  Search finds
the top of a pile.  Where a slot was filled again, it is the ind of the slot only if its
access count has come up to the top again.

    the same inds in setup and online mode
      ↔ every ind in a stale slot is on top of some stale slot        (setup_search_agrees_iff)
-/

namespace Sse.Horus

open Orion (Op live Valid fill length_fill getElem?_fill_cases mem_fill)

/-! ## Staged maps in the place of the stores -/

/-- Two states with the same stores and counters. -/
structure Like (st st' : State) : Prop where
  updt : st'.updt = st.updt
  srch : st'.srch = st.srch
  updtCnt : st'.updtCnt = st.updtCnt
  srchCnt : ∀ w, (st'.srchCnt w).getD 0 = (st.srchCnt w).getD 0
  access : st'.access = st.access
  lastIND : st'.lastIND = st.lastIND

theorem bracket_getD (m : Str → Option Int32) (w k : Str) : (bracket m w k).getD 0 = (m k).getD 0 := by
  unfold bracket
  by_cases hk : k = w
  · rw [hk, Function.update_self, Option.getD_some]
  · rw [Function.update_of_ne hk]

namespace Staging

/-- What the setup functions see. -/
def view (h : Staging) : State := { h.state with updt := h.setupPairs1.get?, srch := h.setupPairs2.get? }

theorem view_stageNode (h : Staging) (key : Bid 24) (value : Str) :
    (h.stageNode key value).view = { h.view with updt := Function.update h.view.updt key (some value) } := by
  have hget : (h.setupPairs1.insert key value).get? = Function.update h.setupPairs1.get? key (some value) := by
    ext1 k
    rw [SortedMap.get?_insert, Function.update_apply]
  unfold view stageNode
  rw [hget]

theorem view_stageBox (h : Staging) (pos : PosArgs) (value : Str) :
    (h.stageBox pos value).view = { h.view with srch := Function.update h.view.srch pos.bid (some value) } := by
  have hget : (h.setupPairs2.insert pos.bid value).get? = Function.update h.setupPairs2.get? pos.bid (some value) := by
    ext1 k
    rw [SortedMap.get?_insert, Function.update_apply]
  unfold view stageBox
  rw [hget]

theorem stagedNode_eq (h : Staging) (key : Bid 24) : h.stagedNode key = h.view.find key := rfl

/-- `setupPairs1[key]` makes no entry where a number is read. -/
theorem stageNode_self {h : Staging} {key : Bid 24} {v : Int32} (hv : stoi (token (h.stagedNode key) 0) = some v) :
    h.stageNode key (h.stagedNode key) = h := by
  have hsome : h.setupPairs1.get? key = some (h.stagedNode key) := by
    unfold stagedNode at hv ⊢
    cases hk : h.setupPairs1.get? key with
    | some s => rfl
    | none =>
      have hempty : stoi (token [] 0) = none := by decide
      rw [hk, Option.getD_none, hempty] at hv
      cases hv
  unfold stageNode
  rw [SortedMap.insert_self hsome]

/-! ## setupRemove -/

/-- The swap on the staged maps. -/
theorem like_stageHole {h : Staging} {st : State} (hlike : Like st h.view) (w : Str) (u a : Int32) :
    Like (fillHole st w u a) (h.stageHole w u a).view := by
  have hlast : h.state.lastIND = st.lastIND := hlike.lastIND
  have haccess : h.state.access = st.access := hlike.access
  have hsrch : (h.state.srchCnt w).getD 0 = (st.srchCnt w).getD 0 := hlike.srchCnt w
  unfold stageHole
  dsimp only
  rw [view_stageNode, view_stageNode, view_stageBox]
  refine ⟨?_, ?_, ?_, fun k => ?_, ?_, ?_⟩
  · show Function.update (Function.update h.view.updt _ _) _ _ = Function.update (Function.update st.updt _ _) _ _
    rw [hlike.updt, hlast]
  · show Function.update h.view.srch _ _ = Function.update st.srch _ _
    rw [hlike.srch, hlast]
    show Function.update st.srch (createBid w u ((h.state.srchCnt w).getD 0) a) _ = _
    rw [hsrch]
  · exact hlike.updtCnt
  · show (bracket h.state.srchCnt w k).getD 0 = (st.srchCnt k).getD 0
    rw [bracket_getD]
    exact hlike.srchCnt k
  · show Function.update h.state.access w _ = Function.update st.access w _
    rw [haccess]
  · show Function.update h.state.lastIND w _ = Function.update st.lastIND w _
    rw [hlast]

/-- **`setupRemove` is `remove`** over the staged maps. -/
theorem like_setupRemove {h : Staging} {w : Str} {ind : Int32} (hret : (remove h.view w ind).2 = some ()) :
    (h.setupRemove w ind).2 = some () ∧ Like (remove h.view w ind).1 (h.setupRemove w ind).1.view := by
  unfold remove at hret ⊢
  unfold setupRemove
  dsimp only at hret ⊢
  rw [← stagedNode_eq] at hret ⊢
  cases h0 : stoi (token (h.stagedNode (createMapBid 0 w ind)) 0) with
  | none =>
    rw [h0] at hret
    cases hret
  | some updt_cnt =>
    rw [h0] at hret
    rw [stageNode_self h0]
    dsimp only at hret ⊢
    by_cases hu : 0 < updt_cnt
    · rw [if_pos hu] at hret ⊢
      rw [if_pos hu]
      cases h1 : stoi (token (h.stagedNode (createMapBid 0 w ind)) 1) with
      | none =>
        rw [h1] at hret
        cases hret
      | some acc_cnt =>
        rw [h1] at hret
        dsimp only at hret ⊢
        have hcnt : h.view.updtCnt = h.state.updtCnt := rfl
        rw [hcnt] at hret ⊢
        set cnt := (h.state.updtCnt w).getD 0 - 1
        set st1 : State := { h.view.insertNode (createMapBid 0 w ind) (entry (-1) (acc_cnt + 1)) with
          updtCnt := Function.update h.state.updtCnt w (some cnt) } with hst1
        set h1 : Staging := stageNode { h with
          state := { h.state with updtCnt := Function.update h.state.updtCnt w (some cnt) } }
          (createMapBid 0 w ind) (entry (-1) (acc_cnt + 1)) with hh1
        have hlike1 : Like st1 h1.view := by
          rw [hh1, view_stageNode]
          exact ⟨rfl, rfl, rfl, fun _ => rfl, rfl, rfl⟩
        by_cases hmore : 0 < cnt
        · rw [if_pos hmore] at hret ⊢
          rw [if_pos hmore]
          set st2 := if cnt + 1 ≠ updt_cnt then fillHole st1 w updt_cnt (acc_cnt + 1) else st1 with hst2
          set h2 := if cnt + 1 ≠ updt_cnt then h1.stageHole w updt_cnt (acc_cnt + 1) else h1 with hh2
          have hlike2 : Like st2 h2.view := by
            rw [hst2, hh2]
            split
            · exact like_stageHole hlike1 w updt_cnt (acc_cnt + 1)
            · exact hlike1
          have hread : h2.stagedNode (createMapBid 1 w cnt) = st2.find (createMapBid 1 w cnt) := by
            rw [stagedNode_eq, State.find, State.find, hlike2.updt]
          cases hlast : stoi (token (st2.find (createMapBid 1 w cnt)) 0) with
          | none =>
            rw [hlast] at hret
            cases hret
          | some last =>
            rw [stageNode_self (hread ▸ hlast), hread, hlast]
            refine ⟨rfl, hlike2.updt, hlike2.srch, hlike2.updtCnt, hlike2.srchCnt, hlike2.access, ?_⟩
            show Function.update h2.view.lastIND w _ = Function.update st2.lastIND w _
            rw [hlike2.lastIND]
        · rw [if_neg hmore, if_neg hmore]
          refine ⟨rfl, hlike1.updt, hlike1.srch, rfl, fun _ => rfl, rfl, rfl⟩
    · rw [if_neg hu, if_neg hu]
      exact ⟨rfl, rfl, rfl, rfl, fun _ => rfl, rfl, rfl⟩

/-- It does not touch the stores. -/
theorem setupRemove_stores (h : Staging) (w : Str) (ind : Int32) :
    (h.setupRemove w ind).1.state.updt = h.state.updt ∧ (h.setupRemove w ind).1.state.srch = h.state.srch := by
  unfold setupRemove
  dsimp only
  split
  · exact ⟨rfl, rfl⟩
  · split
    · split
      · exact ⟨rfl, rfl⟩
      · split
        · split
          · split <;> exact ⟨rfl, rfl⟩
          · split <;> exact ⟨rfl, rfl⟩
        · exact ⟨rfl, rfl⟩
    · exact ⟨rfl, rfl⟩

/-! ## setupInsert -/

/-- An insert that gives the next slot the access count 1. -/
def pushSlot (st : State) (keyword : Str) (ind : Int32) : State :=
  let cnt := (st.updtCnt keyword).getD 0 + 1
  let st1 : State := { st with
    updtCnt := Function.update st.updtCnt keyword (some cnt)
    access := Function.update st.access keyword (some ((st.access keyword).getD 1))
    srchCnt := bracket st.srchCnt keyword
    lastIND := Function.update st.lastIND keyword (some ind) }
  let st2 := st1.insertNode (createMapBid 0 keyword ind) (entry cnt 1)
  let st3 := st2.insertNode (createMapBid 1 keyword cnt) (entry ind 1)
  st3.writeBox (createBid keyword cnt ((st.srchCnt keyword).getD 0) 1) (toStr ind.toInt)

theorem like_setupInsert (h : Staging) (w : Str) (ind : Int32) :
    Like (pushSlot h.view w ind) (h.setupInsert w ind).view := by
  unfold setupInsert
  dsimp only
  rw [view_stageBox, view_stageNode, view_stageNode]
  exact ⟨rfl, rfl, rfl, fun _ => rfl, rfl, rfl⟩

theorem row_pushSlot (st : State) (w : Str) (ind : Int32) :
    (pushSlot st w ind).row w =
      { st.row w with
        updtCnt := some ((st.row w).updtCnt.getD 0 + 1)
        access := some ((st.row w).access.getD 1)
        srchCnt := some ((st.row w).srchCnt.getD 0)
        lastIND := some ind
        pair := Function.update (st.row w).pair ind (some (entry ((st.row w).updtCnt.getD 0 + 1) 1))
        slot := Function.update (st.row w).slot ((st.row w).updtCnt.getD 0 + 1) (some (entry ind 1))
        box := setBox (st.row w).box ((st.row w).updtCnt.getD 0 + 1) ((st.row w).srchCnt.getD 0) 1 (toStr ind.toInt) } := by
  unfold pushSlot
  dsimp only
  rw [row_writeBox, row_insertNode_slot, row_insertNode_pair]
  refine Row.ext ?_ ?_ ?_ ?_ rfl rfl rfl rfl
  · exact Function.update_self _ _ _
  · exact Function.update_self _ _ _
  · exact Function.update_self _ _ _
  · exact Function.update_self _ _ _

theorem row_pushSlot_other {w w' : Str} (hw : Valid w) (hw' : Valid w') (hne : w ≠ w') (st : State) (ind : Int32) :
    (pushSlot st w' ind).row w = st.row w := by
  unfold pushSlot
  dsimp only
  rw [row_writeBox_other hw hw' hne, row_insertNode_other hw hw' hne, row_insertNode_other hw hw' hne]
  refine Row.ext ?_ ?_ ?_ ?_ rfl rfl rfl rfl
  · exact Function.update_of_ne hne _ _
  · exact Function.update_of_ne hne _ _
  · exact Function.update_of_ne hne _ _
  · exact Function.update_of_ne hne _ _

end Staging

/-! ## Piles of boxes -/

/-- The ind under access count `k + 1` of a pile that goes up to `k` at least. -/
def lay (p : List Int32) (k : Nat) (x : Int32) : List Int32 := if k < p.length then p.set k x else p ++ [x]

theorem getElem?_lay {p : List Int32} {k : Nat} (h : k ≤ p.length) (x : Int32) (i : Nat) :
    (lay p k x)[i]? = if i = k then some x else p[i]? := by
  unfold lay
  by_cases hk : k < p.length
  · rw [if_pos hk, List.getElem?_set, if_pos hk]
    by_cases hi : i = k
    · rw [if_pos hi, if_pos hi.symm]
    · rw [if_neg hi, if_neg fun e => hi e.symm]
  · obtain rfl : k = p.length := by omega
    rw [if_neg hk]
    by_cases hi : i = p.length
    · rw [if_pos hi, hi, List.getElem?_concat_length]
    · rw [if_neg hi]
      by_cases hlt : i < p.length
      · exact List.getElem?_append_left hlt
      · rw [List.getElem?_eq_none (by rw [List.length_append, List.length_singleton]; omega),
          List.getElem?_eq_none (by omega)]

theorem length_lay {p : List Int32} {k : Nat} (h : k ≤ p.length) (x : Int32) :
    (lay p k x).length = max p.length (k + 1) := by
  unfold lay
  by_cases hk : k < p.length
  · rw [if_pos hk, List.length_set]
    omega
  · rw [if_neg hk, List.length_append, List.length_singleton]
    omega

/-- The boxes of the first search count: each slot has a pile of them, from access count 1 on. -/
structure Piled (box : Int32 → Int32 → Int32 → Option Str) (piles : Nat → List Int32) : Prop where
  slot_lt : ∀ i, piles i ≠ [] → i + 1 < 2 ^ 31
  height_lt : ∀ i, (piles i).length < 2 ^ 31
  laid : ∀ i k x, (piles i)[k]? = some x → box (Int32.ofNat (i + 1)) 0 (Int32.ofNat (k + 1)) = some (toStr x.toInt)
  free : ∀ i acc, i + 1 < 2 ^ 31 → (∀ k < (piles i).length, acc ≠ Int32.ofNat (k + 1)) →
    box (Int32.ofNat (i + 1)) 0 acc = none

section

variable {box : Int32 → Int32 → Int32 → Option Str} {piles : Nat → List Int32}

/-- One box is written. -/
theorem Piled.write (h : Piled box piles) {j k : Nat} (hj : j + 1 < 2 ^ 31) (hk : k ≤ (piles j).length)
    (hk31 : k + 1 < 2 ^ 31) (x : Int32) :
    Piled (setBox box (Int32.ofNat (j + 1)) 0 (Int32.ofNat (k + 1)) (toStr x.toInt))
      (Function.update piles j (lay (piles j) k x)) := by
  have hslot : ∀ i, i ≠ j → i + 1 < 2 ^ 31 → Int32.ofNat (i + 1) ≠ Int32.ofNat (j + 1) :=
    fun i hi hi31 => ofNat_ne_small hi31 hj (by omega)
  refine ⟨fun i hi => ?_, fun i => ?_, fun i l y hy => ?_, fun i acc hi31 hacc => ?_⟩
  · by_cases hij : i = j
    · rw [hij]
      exact hj
    · rw [Function.update_of_ne hij] at hi
      exact h.slot_lt i hi
  · by_cases hij : i = j
    · have hlt := h.height_lt j
      rw [hij, Function.update_self, length_lay hk]
      omega
    · rw [Function.update_of_ne hij]
      exact h.height_lt i
  · by_cases hij : i = j
    · have hlt := h.height_lt j
      rw [hij] at hy ⊢
      rw [Function.update_self] at hy
      have hl := lt_of_getElem?_eq_some hy
      rw [length_lay hk] at hl
      rw [getElem?_lay hk] at hy
      by_cases hlk : l = k
      · rw [if_pos hlk] at hy
        rw [hlk, ← Option.some.inj hy]
        exact setBox_self _ _ _ _ _
      · rw [if_neg hlk] at hy
        rw [setBox_of_ne _ fun e => hlk (by have := ofNat_inj_small (by omega) hk31 e.2.2; omega)]
        exact h.laid j l y hy
    · rw [Function.update_of_ne hij] at hy
      have hi31 := h.slot_lt i (List.ne_nil_of_length_pos (Nat.zero_lt_of_lt (lt_of_getElem?_eq_some hy)))
      rw [setBox_of_ne _ fun e => hslot i hij hi31 e.1]
      exact h.laid i l y hy
  · by_cases hij : i = j
    · rw [hij] at hacc ⊢
      rw [Function.update_self, length_lay hk] at hacc
      rw [setBox_of_ne _ fun e => hacc k (by omega) e.2.2]
      exact h.free j acc hj fun l hl => hacc l (by omega)
    · rw [Function.update_of_ne hij] at hacc
      rw [setBox_of_ne _ fun e => hslot i hij hi31 e.1]
      exact h.free i acc hi31 hacc

/-- A box laid at the new access count of its slot: access counts stay within the piles. -/
theorem height_lay {accs : List Nat} (h : ∀ i a, accs[i]? = some a → a ≤ (piles i).length) {j k : Nat}
    (hj : j ≤ accs.length) (hk : k ≤ (piles j).length) (x : Int32) {i c : Nat} (hc : (put accs j (k + 1))[i]? = some c) :
    c ≤ (Function.update piles j (lay (piles j) k x) i).length := by
  rw [getElem?_put hj] at hc
  by_cases hi : i = j
  · rw [if_pos hi] at hc
    rw [hi, Function.update_self, length_lay hk, ← Option.some.inj hc]
    exact le_max_right _ _
  · rw [if_neg hi] at hc
    rw [Function.update_of_ne hi]
    exact h i c hc

theorem length_lay_le {top top' : Nat} (h : ∀ i, (piles i).length ≤ top) (htop : top ≤ top') {j k : Nat}
    (hk : k ≤ (piles j).length) (hk' : k + 1 ≤ top') (x : Int32) (i : Nat) :
    (Function.update piles j (lay (piles j) k x) i).length ≤ top' := by
  by_cases hi : i = j
  · rw [hi, Function.update_self, length_lay hk]
    exact max_le ((h j).trans htop) hk'
  · rw [Function.update_of_ne hi]
    exact (h i).trans htop

/-- A pile is a ladder from access count 1 on. -/
theorem Piled.ladder (h : Piled box piles) {i : Nat} (hi : piles i ≠ []) :
    Ladder (fun acc => box (Int32.ofNat (i + 1)) 0 acc) 1 (piles i).length where
  one_le := le_rfl
  le := List.length_pos_of_ne_nil hi
  rung := by
    intro k h1 hk
    have hget := List.getElem?_eq_getElem (show k - 1 < (piles i).length by omega)
    have hbox := h.laid i (k - 1) _ hget
    rw [Nat.sub_add_cancel h1] at hbox
    exact ⟨_, hbox⟩
  foot := fun hlt => absurd hlt (Nat.lt_irrefl 1)
  top := fun acc hacc => h.free i acc (h.slot_lt i hi) fun k hk => hacc (k + 1) hk

end

/-! ## Benches -/

structure Bench where
  inds : List Int32
  accs : List Nat
  piles : Nat → List Int32
  top : Nat
  seen : List Int32

namespace Bench

def empty : Bench := ⟨[], [], fun _ => [], 1, []⟩

/-- The next slot starts at access count 1, whatever is on its pile. -/
def insert (b : Bench) (ind : Int32) : Bench where
  inds := b.inds ++ [ind]
  accs := put b.accs b.inds.length 1
  piles := Function.update b.piles b.inds.length (lay (b.piles b.inds.length) 0 ind)
  top := b.top
  seen := b.seen.insert ind

/-- The last ind moves to the slot of the removed one. -/
def remove (b : Bench) (ind : Int32) : Bench :=
  let j := b.inds.idxOf ind
  if j + 1 < b.inds.length then
    { b with
      inds := fill b.inds j
      accs := put b.accs j (nextAcc b.accs j)
      piles := Function.update b.piles j (lay (b.piles j) (nextAcc b.accs j - 1) (b.inds.getLastD 0))
      top := max b.top (nextAcc b.accs j) }
  else { b with inds := fill b.inds j }

def step (b : Bench) : Op → Bench
  | .insert _ ind => b.insert ind
  | .remove _ ind => b.remove ind
  | .search _ => b

/-- The tops of the piles of the slots in use. -/
def tops (b : Bench) : List Int32 := (List.range b.inds.length).map fun i => ((b.piles i).getLast?).getD 0

/-- A slot in use whose access count is not on the top of its pile. -/
def Stale (b : Bench) (i : Nat) : Prop := i < b.inds.length ∧ ∃ a, b.accs[i]? = some a ∧ a < (b.piles i).length

/-- Every ind in a stale slot is on top of some stale slot. -/
def Covered (b : Bench) : Prop := ∀ i, b.Stale i → ∃ k, b.Stale k ∧ (b.piles k).getLast? = b.inds[i]?

end Bench

/-- What a row says about its bench. -/
structure Benched (r : Row) (b : Bench) : Prop where
  entries : Entries r b.inds b.accs b.top b.seen
  last : r.lastIND = b.inds.getLast?
  srchCnt : r.srchCnt.getD 0 = 0
  piled : Piled r.box b.piles
  height : ∀ i a, b.accs[i]? = some a → a ≤ (b.piles i).length
  le_top : ∀ i, (b.piles i).length ≤ b.top
  current : ∀ i a x, b.accs[i]? = some a → b.inds[i]? = some x → (b.piles i)[a - 1]? = some x

theorem benched_init (w : Str) : Benched (init.row w) Bench.empty where
  entries := entries_init w
  last := rfl
  srchCnt := rfl
  piled := ⟨fun i hi => absurd rfl hi, fun _ => show 0 < 2 ^ 31 by decide, fun i k x hk => (nomatch hk), fun _ _ _ _ => rfl⟩
  height := fun i a ha => (nomatch ha)
  le_top := fun _ => Nat.zero_le _
  current := fun i a x ha => (nomatch ha)

section

variable {st st' : State} {w : Str} {b : Bench}

theorem Benched.like (h : Benched (st.row w) b) (hl : Like st st') : Benched (st'.row w) b := by
  have hpair : (st'.row w).pair = (st.row w).pair := by
    show (fun ind => st'.updt _) = fun ind => st.updt _
    rw [hl.updt]
  have hslot : (st'.row w).slot = (st.row w).slot := by
    show (fun i => st'.updt _) = fun i => st.updt _
    rw [hl.updt]
  have hbox : (st'.row w).box = (st.row w).box := by
    show (fun u s a => st'.srch _) = fun u s a => st.srch _
    rw [hl.srch]
  have hcnt : (st'.row w).updtCnt = (st.row w).updtCnt := congrFun hl.updtCnt w
  refine ⟨h.entries.congr (by rw [hcnt]) (by rw [hcnt]; exact id) (congrFun hl.access w) hpair hslot, ?_, ?_, ?_, h.height,
    h.le_top, h.current⟩
  · exact (congrFun hl.lastIND w).trans h.last
  · exact (hl.srchCnt w).trans h.srchCnt
  · rw [hbox]
    exact h.piled

/-- **Insert** starts the slot again. -/
theorem Benched.insert (h : Benched (st.row w) b) {x : Int32} (hx : x ∉ b.inds) (hroom : b.inds.length + 1 < 2 ^ 31 - 1) :
    Benched ((Staging.pushSlot st w x).row w) (b.insert x) := by
  have hcnt : (st.row w).updtCnt.getD 0 + 1 = Int32.ofNat (b.inds.length + 1) := by rw [h.entries.cnt, ofNat_add_one]
  have hle := h.entries.inds_le
  have hput := length_put hle 1
  rw [Staging.row_pushSlot, hcnt, h.entries.access, h.srchCnt]
  refine ⟨?_, ?_, rfl, ?_, ?_, ?_, ?_⟩
  · exact h.entries.push hx le_rfl h.entries.one_le_top le_rfl h.entries.top_lt hroom rfl rfl rfl rfl
  · show some x = (b.inds ++ [x]).getLast?
    rw [List.getLast?_concat]
  · exact h.piled.write (by omega) (Nat.zero_le _) (by decide) x
  · exact fun i a ha => height_lay h.height hle (Nat.zero_le _) x ha
  · exact length_lay_le h.le_top le_rfl (Nat.zero_le _) h.entries.one_le_top x
  · intro i a y ha hy
    show (Function.update b.piles b.inds.length _ i)[a - 1]? = some y
    replace ha : (put b.accs b.inds.length 1)[i]? = some a := ha
    rw [getElem?_put hle] at ha
    rcases getElem?_concat_cases hy with hy | ⟨rfl, rfl⟩
    · have hlt := lt_of_getElem?_eq_some hy
      rw [if_neg (by omega)] at ha
      rw [Function.update_of_ne (by omega)]
      exact h.current i a y ha hy
    · rw [if_pos rfl] at ha
      rw [Function.update_self, ← Option.some.inj ha, getElem?_lay (Nat.zero_le _), if_pos rfl]

/-- **Remove** lays the last ind on the pile of the freed slot, one above the ind that leaves. -/
theorem Benched.remove (h : Benched (st.row w) b) {x : Int32} (hx : x ∈ b.inds) (hroom : b.top + 1 < 2 ^ 31) :
    (Horus.remove st w x).2 = some () ∧ Benched ((Horus.remove st w x).1.row w) (b.remove x) := by
  have hj : b.inds[b.inds.idxOf x]? = some x := List.getElem?_idxOf hx
  obtain ⟨a, ha, h1, hatop, hj31⟩ := h.entries.acc_of_ind hj
  obtain ⟨hret, hrem⟩ := h.entries.remove h.last hj ha (by omega)
  refine ⟨hret, ?_⟩
  have hnext : nextAcc b.accs (b.inds.idxOf x) = a + 1 := by rw [nextAcc, ha]
  unfold Bench.remove
  dsimp only
  set j := b.inds.idxOf x
  have hlt := lt_of_getElem?_eq_some hj
  have hle := h.entries.inds_le
  have hheight := h.height j a ha
  have hbox := hrem.box
  have hentries := hrem.entries
  rw [h.srchCnt] at hbox
  rw [hnext, Nat.add_sub_cancel]
  have hsrch : (((Horus.remove st w x).1).row w).srchCnt.getD 0 = 0 := by
    rw [hrem.srchCnt]
    exact h.srchCnt
  by_cases hswap : j + 1 < b.inds.length
  · rw [if_pos hswap, if_pos hswap] at hentries
    rw [if_pos hswap] at hbox
    rw [if_pos hswap]
    have hput : j ≤ b.accs.length := by omega
    refine ⟨hentries, hrem.last, hsrch, ?_, fun i c hc => height_lay h.height hput hheight _ hc,
      length_lay_le h.le_top (le_max_left _ _) hheight (le_max_right _ _) _, fun i c y hc hy => ?_⟩
    · rw [hbox]
      exact h.piled.write (by omega) hheight (by omega) _
    · show (Function.update b.piles j _ i)[c - 1]? = some y
      replace hc : (put b.accs j (a + 1))[i]? = some c := hc
      rw [getElem?_put hput] at hc
      rcases getElem?_fill_cases hy with ⟨rfl, rfl⟩ | ⟨hi, hy⟩
      · rw [if_pos rfl] at hc
        rw [Function.update_self, ← Option.some.inj hc, Nat.add_sub_cancel, getElem?_lay hheight, if_pos rfl]
      · rw [if_neg hi] at hc
        rw [Function.update_of_ne hi]
        exact h.current i c y hc hy
  · rw [if_neg hswap, if_neg hswap] at hentries
    rw [if_neg hswap] at hbox
    rw [if_neg hswap]
    refine ⟨hentries, hrem.last, hsrch, ?_, h.height, h.le_top, fun i c y hc hy => ?_⟩
    · rw [hbox]
      exact h.piled
    · have hil := lt_of_getElem?_eq_some hy
      replace hil : i < (fill b.inds j).length := hil
      rw [length_fill] at hil
      rcases getElem?_fill_cases hy with ⟨rfl, -⟩ | ⟨-, hy⟩
      · omega
      · exact h.current i c y hc hy

/-- **Search** returns the tops. -/
theorem Benched.search (h : Benched (st.row w) b) (hroom : b.top < 2 ^ 30) {fuel : Nat} (hf : 2 ^ 32 ≤ fuel) :
    ∃ l, (Horus.search fuel st w).2 = some l ∧ l.Perm b.tops := by
  have hle := h.entries.inds_le
  have haccs := h.entries.accs_lt
  have hpile : ∀ i < b.inds.length, b.piles i ≠ [] := by
    intro i hi
    obtain ⟨a, ha, h1, -, -⟩ := h.entries.acc_of_ind (List.getElem?_eq_getElem hi)
    have := h.height i a ha
    exact List.ne_nil_of_length_pos (by omega)
  have H : Ladders w (Int32.ofNat 0) st.srch b.inds.length b.top (fun _ => 1) (fun i => (b.piles i).length)
      (fun i => ((b.piles i).getLast?).getD 0) := by
    refine ⟨by omega, fun i _ => clear_of_sum _ ?_, fun i hi => h.piled.ladder (hpile i hi), fun i _ => h.le_top i,
      fun i hi => ?_⟩
    · have := h.le_top i
      omega
    have hlen := List.length_pos_of_ne_nil (hpile i hi)
    have hlast : (b.piles i)[(b.piles i).length - 1]? = some (((b.piles i).getLast?).getD 0) := by
      rw [List.getLast?_eq_getElem?, List.getElem?_eq_getElem (by omega)]
      rfl
    have hbox := h.piled.laid i _ _ hlast
    rw [Nat.sub_add_cancel hlen] at hbox
    exact hbox
  have haccess : b.inds.length ≠ 0 → (st.row w).access = some (Int32.ofNat b.top) := by
    intro hn
    exact h.entries.access_eq fun e => hn (by rw [e, List.length_nil] at hle; omega)
  obtain ⟨order, -, hp, hret, -⟩ := search_spec hf h.entries.cnt h.srchCnt haccess H
  exact ⟨_, hret, hp.map _⟩

/-- The tops are the inds in some order, if the stale slots are covered. -/
theorem Benched.mem_tops_iff (h : Benched (st.row w) b) : (∀ x, x ∈ b.tops ↔ x ∈ b.inds) ↔ b.Covered := by
  have hle := h.entries.inds_le
  have hinds : ∀ i < b.inds.length, ∃ x, b.inds[i]? = some x := fun i hi => ⟨_, List.getElem?_eq_getElem hi⟩
  have hmem : ∀ {k : Nat} {x : Int32}, k < b.inds.length → (b.piles k).getLast? = some x → x ∈ b.tops := by
    intro k x hk hx
    refine List.mem_map.2 ⟨k, List.mem_range.2 hk, ?_⟩
    rw [hx]
    rfl
  -- a slot that is not stale has its ind on top
  have hown : ∀ {i : Nat} {x : Int32}, b.inds[i]? = some x → ¬ b.Stale i → (b.piles i).getLast? = some x := by
    intro i x hi hs
    have hlt := lt_of_getElem?_eq_some hi
    obtain ⟨a, ha, h1, -, -⟩ := h.entries.acc_of_ind hi
    have hheight := h.height i a ha
    have hno : ¬ a < (b.piles i).length := fun hlt' => hs ⟨hlt, a, ha, hlt'⟩
    rw [List.getLast?_eq_getElem?, show (b.piles i).length - 1 = a - 1 by omega]
    exact h.current i a x ha hi
  constructor
  · intro hall i hs
    obtain ⟨x, hx⟩ := hinds i hs.1
    obtain ⟨k, hk, hkx⟩ := List.mem_map.1 ((hall x).2 (List.mem_of_getElem? hx))
    have hklt := List.mem_range.1 hk
    obtain ⟨y, hy⟩ := hinds k hklt
    obtain ⟨a, ha, h1, -, -⟩ := h.entries.acc_of_ind hy
    have hheight := h.height k a ha
    have hne : b.piles k ≠ [] := List.ne_nil_of_length_pos (by omega)
    have htop : (b.piles k).getLast? = some x := by
      rw [List.getLast?_eq_some_getLast hne] at hkx ⊢
      exact congrArg some hkx
    by_cases hks : b.Stale k
    · exact ⟨k, hks, htop.trans hx.symm⟩
    · obtain rfl : y = x := Option.some.inj ((hown hy hks).symm.trans htop)
      obtain rfl : k = i := index_unique h.entries.nodup hy hx
      exact absurd hs hks
  · intro hcov
    have hsub : b.inds ⊆ b.tops := by
      intro x hx
      obtain ⟨i, hi⟩ := List.mem_iff_getElem?.1 hx
      by_cases hs : b.Stale i
      · obtain ⟨k, hks, hk⟩ := hcov i hs
        exact hmem hks.1 (hk.trans hi)
      · exact hmem (lt_of_getElem?_eq_some hi) (hown hi hs)
    have hlen : b.tops.length ≤ b.inds.length := by
      rw [Bench.tops, List.length_map, List.length_range]
    have hperm := (List.subperm_of_subset h.entries.nodup hsub).perm_of_length_le hlen
    exact fun x => hperm.symm.mem_iff

end

/-! ## endSetup -/

theorem updt_insertNodes (q : List (Bid 24 × Str)) (st : State) :
    (q.foldl (fun st e => st.insertNode e.1 e.2) st).updt =
      q.foldl (fun (f : OMap) e => Function.update f e.1 (some e.2)) st.updt := by
  induction q generalizing st with
  | nil => rfl
  | cons e q ih => exact ih (st.insertNode e.1 e.2)

theorem srch_writeBoxes (q : List (Bid 24 × Str)) (st : State) :
    (st.batchWrite q).srch = q.foldl (fun (f : OMap) e => Function.update f e.1 (some e.2)) st.srch := by
  induction q generalizing st with
  | nil => rfl
  | cons e q ih => exact ih (st.writeBox e.1 e.2)

/-- Nodes and boxes leave the counters alone. -/
theorem like_insertNodes (q : List (Bid 24 × Str)) (st : State) :
    Like { st with updt := (q.foldl (fun st e => st.insertNode e.1 e.2) st).updt }
      (q.foldl (fun st e => st.insertNode e.1 e.2) st) := by
  induction q generalizing st with
  | nil => exact ⟨rfl, rfl, rfl, fun _ => rfl, rfl, rfl⟩
  | cons e q ih =>
    have h := ih (st.insertNode e.1 e.2)
    exact ⟨rfl, h.srch, h.updtCnt, h.srchCnt, h.access, h.lastIND⟩

theorem like_batchWrite (q : List (Bid 24 × Str)) (st : State) :
    Like { st with srch := (st.batchWrite q).srch } (st.batchWrite q) := by
  induction q generalizing st with
  | nil => exact ⟨rfl, rfl, rfl, fun _ => rfl, rfl, rfl⟩
  | cons e q ih =>
    have h := ih (st.writeBox e.1 e.2)
    exact ⟨h.updt, rfl, h.updtCnt, h.srchCnt, h.access, h.lastIND⟩

/-- Into empty stores `endSetup` puts the staged maps. -/
theorem like_endSetup {h : Staging} (hu : h.state.updt = init.updt) (hs : h.state.srch = init.srch) :
    Like h.view h.endSetup.state := by
  set st1 := h.setupPairs1.entries.foldl (fun st e => st.insertNode e.1 e.2) h.state with hst1
  have h1 : Like _ st1 := like_insertNodes h.setupPairs1.entries h.state
  have h2 : Like _ h.endSetup.state := like_batchWrite h.setupPairs2.entries st1
  have hempty : ∀ m : SortedMap (Bid 24) Str,
      m.entries.foldl (fun (f : OMap) e => Function.update f e.1 (some e.2)) (fun _ => none) = m.get? := by
    intro m
    ext1 k
    rw [SortedMap.foldl_update_map m some]
    cases m.get? k <;> rfl
  refine ⟨h2.updt.trans ?_, ?_, h2.updtCnt.trans h1.updtCnt, fun w => (h2.srchCnt w).trans (h1.srchCnt w),
    h2.access.trans h1.access, h2.lastIND.trans h1.lastIND⟩
  · show st1.updt = h.setupPairs1.get?
    rw [hst1, updt_insertNodes, hu]
    exact hempty h.setupPairs1
  · show (st1.batchWrite h.setupPairs2.entries).srch = h.setupPairs2.get?
    rw [srch_writeBoxes, h1.srch]
    show h.setupPairs2.entries.foldl _ h.state.srch = _
    rw [hs]
    exact hempty h.setupPairs2

/-! ## Runs -/

/-- The setup call for an update. -/
def setupCall : Op → Call
  | .insert w ind => .setupInsert w ind
  | .remove w ind => .setupRemove w ind
  | .search w => .online (.search w)

/-- The updates as one setup phase. -/
def setupCalls (ops : List Op) : List Call := .beginSetup :: (ops.map setupCall ++ [.endSetup])

/-- Inserts of pairs that are not live, and removals of live pairs. -/
def Proper (pre : List Op) : Op → Prop
  | .insert w ind => Valid w ∧ live pre w ind = false
  | .remove w ind => Valid w ∧ live pre w ind = true
  | .search _ => False

instance (pre : List Op) : ∀ op, Decidable (Proper pre op)
  | .insert w ind => inferInstanceAs (Decidable (Valid w ∧ live pre w ind = false))
  | .remove w ind => inferInstanceAs (Decidable (Valid w ∧ live pre w ind = true))
  | .search _ => isFalse fun h => h

/-- The bench of a keyword after a sequence of updates. -/
def bench (ops : List Op) (w : Str) : Bench :=
  ops.foldl (fun b op => if op.keyword = w then b.step op else b) Bench.empty

theorem bench_concat (ops : List Op) (op : Op) (w : Str) :
    bench (ops ++ [op]) w = if op.keyword = w then (bench ops w).step op else bench ops w := by
  simp [bench]

/-- The setup phase before its `endSetup`. -/
def stagedAfter (ops : List Op) : Staging := (ops.map setupCall).foldl (fun h c => (h.call 0 c).1) Staging.init.beginSetup

theorem stagedAfter_concat (ops : List Op) (op : Op) :
    stagedAfter (ops ++ [op]) = ((stagedAfter ops).call 0 (setupCall op)).1 := by
  simp [stagedAfter]

section

variable {ops : List Op}

theorem valid_of_proper (hu : Runs.Each Proper [] ops) : ∀ op ∈ ops, Valid op.keyword := by
  intro op hop
  obtain ⟨l, r, rfl⟩ := List.append_of_mem hop
  have h := Runs.each_iff_split.1 hu l op r rfl
  cases op with
  | insert w x => exact h.1
  | remove w x => exact h.1
  | search w => exact h.elim

theorem inRoom_of_proper (hu : Runs.Each Proper [] ops) (hlen : ops.length < 2 ^ 30) : Runs.Each InRoom [] ops :=
  inRoom_of_length (valid_of_proper hu) hlen

/-- **Bench and shelf have the same inds**, slot by slot. -/
theorem bench_inds (hu : Runs.Each Proper [] ops) (hlen : ops.length < 2 ^ 30) {w : Str} (hw : Valid w) :
    (bench ops w).inds = (shelf ops w).inds := by
  induction ops using List.reverseRecOn with
  | nil => rfl
  | append_singleton ops op ih =>
    rw [List.length_append, List.length_singleton] at hlen
    rw [Runs.each_concat, List.nil_append] at hu
    have hih := ih hu.1 (by omega)
    have hmem := @mem_shelf_inds (2 ^ 32) ops le_rfl (inRoom_of_proper hu.1 (by omega)) w hw
    rw [bench_concat, shelf_concat]
    by_cases hk : op.keyword = w
    · rw [if_pos hk, if_pos hk]
      cases op with
      | insert w' x =>
        obtain rfl : w' = w := hk
        have hx : x ∉ (shelf ops w').inds := fun hin => by
          have hdead : live ops w' x = false := hu.2.2
          rw [(hmem x).1 hin] at hdead
          cases hdead
        show (bench ops w').inds ++ [x] = ((shelf ops w').insert x).inds
        rw [Shelf.insert, if_neg hx, hih]
      | remove w' x =>
        obtain rfl : w' = w := hk
        have hx : x ∈ (shelf ops w').inds := (hmem x).2 hu.2.2
        show ((bench ops w').remove x).inds = ((shelf ops w').remove x).inds
        rw [Shelf.remove, if_pos hx, Bench.remove]
        dsimp only
        rw [hih]
        split <;> rfl
      | search w' => exact hu.2.elim
    · rw [if_neg hk, if_neg hk]
      exact hih

/-- The numbers of a bench, against the number of updates. -/
theorem small_bench (ops : List Op) (w : Str) :
    (∀ a ∈ (bench ops w).accs, a ≤ ops.length) ∧ (bench ops w).top ≤ ops.length + 1 := by
  induction ops using List.reverseRecOn with
  | nil => exact ⟨fun a ha => (nomatch ha), le_rfl⟩
  | append_singleton ops op ih =>
    obtain ⟨haccs, htop⟩ := ih
    have hmono : ∀ a ∈ (bench ops w).accs, a ≤ ops.length + 1 := fun a ha => (haccs a ha).trans (Nat.le_succ _)
    rw [List.length_append, List.length_singleton, bench_concat]
    by_cases hk : op.keyword = w
    · rw [if_pos hk]
      cases op with
      | insert w' x =>
        refine ⟨fun a ha => ?_, htop.trans (Nat.le_succ _)⟩
        rcases mem_put ha with rfl | ha
        · omega
        · exact hmono a ha
      | remove w' x =>
        have hnext := nextAcc_le haccs ((bench ops w).inds.idxOf x)
        show (∀ a ∈ ((bench ops w).remove x).accs, a ≤ ops.length + 1) ∧ ((bench ops w).remove x).top ≤ ops.length + 1 + 1
        unfold Bench.remove
        dsimp only
        split
        · refine ⟨fun a ha => ?_, ?_⟩
          · rcases mem_put ha with rfl | ha
            · exact hnext
            · exact hmono a ha
          · show max (bench ops w).top _ ≤ _
            omega
        · exact ⟨hmono, htop.trans (Nat.le_succ _)⟩
      | search w' => exact ⟨hmono, htop.trans (Nat.le_succ _)⟩
    · rw [if_neg hk]
      exact ⟨hmono, htop.trans (Nat.le_succ _)⟩

/-- **The setup phase** stages the benches of all keywords, and leaves the stores alone. -/
theorem benched_after (hu : Runs.Each Proper [] ops) (hlen : ops.length < 2 ^ 30) :
    (∀ w, Valid w → Benched ((stagedAfter ops).view.row w) (bench ops w)) ∧
      (stagedAfter ops).state.updt = init.updt ∧ (stagedAfter ops).state.srch = init.srch := by
  induction ops using List.reverseRecOn with
  | nil => exact ⟨fun w _ => benched_init w, rfl, rfl⟩
  | append_singleton ops op ih =>
    rw [List.length_append, List.length_singleton] at hlen
    rw [Runs.each_concat, List.nil_append] at hu
    obtain ⟨hb, hupdt, hsrch⟩ := ih hu.1 (by omega)
    rw [stagedAfter_concat]
    set h := stagedAfter ops
    cases op with
    | insert w' x =>
      obtain ⟨hv, hdead⟩ : Valid w' ∧ live ops w' x = false := hu.2
      have hroom := inRoom_of_proper hu.1 (by omega)
      refine ⟨fun w hw => ?_, hupdt, hsrch⟩
      have hlike := Staging.like_setupInsert h w' x
      rw [bench_concat]
      by_cases hk : w' = w
      · obtain rfl := hk
        have hinds := bench_inds hu.1 (by omega) hv
        have hx : x ∉ (bench ops w').inds := fun hin => by
          rw [hinds, @mem_shelf_inds (2 ^ 32) ops le_rfl hroom w' hv, hdead] at hin
          cases hin
        have hsmall := (small_shelf ops w').inds_le
        rw [if_pos (show (Op.insert w' x).keyword = w' from rfl)]
        exact ((hb w' hv).insert hx (by rw [hinds]; omega)).like hlike
      · have hrow := Staging.row_pushSlot_other hw hv (fun e => hk e.symm) h.view x
        rw [if_neg (show ¬ (Op.insert w' x).keyword = w from hk)]
        exact Benched.like (hrow.symm ▸ hb w hw) hlike
    | remove w' x =>
      obtain ⟨hv, hlive⟩ : Valid w' ∧ live ops w' x = true := hu.2
      have hroom := inRoom_of_proper hu.1 (by omega)
      have hinds := bench_inds hu.1 (by omega) hv
      have hx : x ∈ (bench ops w').inds := by
        rw [hinds, @mem_shelf_inds (2 ^ 32) ops le_rfl hroom w' hv]
        exact hlive
      have htop := (small_bench ops w').2
      obtain ⟨hret, hown⟩ := (hb w' hv).remove hx (by omega)
      obtain ⟨-, hlike⟩ := Staging.like_setupRemove hret
      obtain ⟨hupdt', hsrch'⟩ := Staging.setupRemove_stores h w' x
      refine ⟨fun w hw => ?_, hupdt'.trans hupdt, hsrch'.trans hsrch⟩
      rw [bench_concat]
      by_cases hk : w' = w
      · obtain rfl := hk
        rw [if_pos (show (Op.remove w' x).keyword = w' from rfl)]
        exact hown.like hlike
      · have hrow := @row_remove_other h.view w w' hw hv (fun e => hk e.symm) x
        rw [if_neg (show ¬ (Op.remove w' x).keyword = w from hk)]
        exact Benched.like (hrow.symm ▸ hb w hw) hlike
    | search w' => exact hu.2.elim

/-- A setup call needs no fuel. -/
theorem afterCalls_setupCalls (hu : Runs.Each Proper [] ops) (fuel : Nat) :
    Staging.afterCalls fuel (setupCalls ops) = (stagedAfter ops).endSetup := by
  have hcalls : ∀ h : Staging, ∀ cs : List Op, (∀ op ∈ cs, ∀ w, op ≠ .search w) →
      (cs.map setupCall).foldl (fun h c => (h.call fuel c).1) h = (cs.map setupCall).foldl (fun h c => (h.call 0 c).1) h := by
    intro h cs
    induction cs generalizing h with
    | nil => exact fun _ => rfl
    | cons op cs ih =>
      intro hno
      have hone : (h.call fuel (setupCall op)).1 = (h.call 0 (setupCall op)).1 := by
        cases op with
        | insert w x => rfl
        | remove w x => rfl
        | search w => exact absurd rfl (hno _ List.mem_cons_self w)
      rw [List.map_cons, List.foldl_cons, List.foldl_cons, hone]
      exact ih _ fun op' hop' => hno op' (List.mem_cons_of_mem _ hop')
  have hno : ∀ op ∈ ops, ∀ w, op ≠ .search w := by
    rintro op hop w rfl
    obtain ⟨l, r, rfl⟩ := List.append_of_mem hop
    exact Runs.each_iff_split.1 hu l _ r rfl
  unfold Staging.afterCalls setupCalls
  rw [List.foldl_cons, List.foldl_append]
  show ((ops.map setupCall).foldl (fun h c => (h.call fuel c).1) Staging.init.beginSetup).endSetup = _
  rw [hcalls _ _ hno]
  rfl

/-- **Setup mode and online mode agree** on a keyword, if and only if every ind in a stale slot is on top of some
stale slot. -/
theorem setup_search_agrees_iff (ops : List Op) (hu : Runs.Each Proper [] ops) (hlen : ops.length + 1 < 2 ^ 30)
    (fuel : Nat) (hf : 2 ^ 32 ≤ fuel) (w : Str) (hw : Valid w) :
    ∃ l l', (search fuel (Staging.afterCalls fuel (setupCalls ops)).state w).2 = some l ∧
      (search fuel (after fuel ops) w).2 = some l' ∧ ((∀ x, x ∈ l ↔ x ∈ l') ↔ (bench ops w).Covered) := by
  have hroom := inRoom_of_proper hu (show ops.length < 2 ^ 30 by omega)
  -- setup mode
  obtain ⟨hb, hupdt, hsrch⟩ := benched_after hu (by omega)
  have hbench := (hb w hw).like (like_endSetup hupdt hsrch)
  have htop := (small_bench ops w).2
  obtain ⟨l, hl, hperm⟩ := hbench.search (by omega) hf
  -- online mode
  have hs := (shelved_after hf hroom).1 w hw
  obtain ⟨l', hl', hperm', -⟩ := hs.search (room_of_length hlen (.search w)) hf
  rw [← bench_inds hu (by omega) hw] at hperm'
  refine ⟨l, l', by rw [afterCalls_setupCalls hu]; exact hl, hl', ?_⟩
  rw [← hbench.mem_tops_iff]
  exact forall_congr' fun x => by rw [hperm.mem_iff, hperm'.mem_iff]

end

/-- Slot 1 is filled, an ind moves into it, and after two removals it is filled again. -/
def refilled (x : Int32) : List Op :=
  [.insert [97] 1, .insert [97] 2, .remove [97] 1, .remove [97] 2, .insert [97] x]

/-- The slot is stale, and holds on top the ind that it was filled with. -/
theorem setup_search_agrees_refilled :
    ∃ l l', (search (2 ^ 32) (Staging.afterCalls (2 ^ 32) (setupCalls (refilled 2))).state [97]).2 = some l ∧
      (search (2 ^ 32) (after (2 ^ 32) (refilled 2)) [97]).2 = some l' ∧ ∀ x, x ∈ l ↔ x ∈ l' := by
  obtain ⟨l, l', h1, h2, h⟩ := setup_search_agrees_iff (refilled 2) (by decide) (by decide) _ le_rfl [97] (by decide)
  refine ⟨l, l', h1, h2, h.2 ?_⟩
  rintro i ⟨hi, a, ha, hlt⟩
  have hlen : (bench (refilled 2) [97]).inds.length = 1 := by decide
  obtain rfl : i = 0 := by omega
  exact ⟨0, ⟨hi, a, ha, hlt⟩, by decide⟩

/-- The box of the earlier filling has the higher access count. -/
theorem setup_search_stale :
    Runs.Each Proper [] (refilled 3) ∧
      (search (2 ^ 32) (Staging.afterCalls (2 ^ 32) (setupCalls (refilled 3))).state [97]).2 = some [2] ∧
      (search (2 ^ 32) (after (2 ^ 32) (refilled 3)) [97]).2 = some [3] := by
  refine ⟨?_, ?_, ?_⟩ <;> decide +kernel

end Sse.Horus
