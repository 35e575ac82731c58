import Sse.Omap.FiniteMap
import Sse.Orion.Orion

/-!
# Orion over its two ORAMs

The same client, with an `OMAP` over an `ORAM` for each of its maps instead of a finite map.
As long as the finite maps would fit, every call does what `Orion.lean` says, up to the order of
the answers (`Refines.step`), and so does every run (`Refines.run`).  No call throws for want of
space.
-/

namespace Sse.Orion.Stack

open Omap (OmapCall omapStep Oram Holds Fits Short)

/-! ## The functions -/

/-- An `OMAP` with its `ORAM`. -/
abbrev Handle := Omap.OMap 16 × Oram 16

structure State where
  srch : Handle
  updt : Handle
  updtCnt : Str → Option Int32
  lastIND : Str → Option Int32

/-- `Orion::Orion`: the buckets of both maps have depth `floor(log2(maxSize * 4 / Z))`. -/
def new (maxSize : Nat) (rnd1 rnd2 : Nat → Nat) : State where
  srch := (Omap.OMap.new, Oram.new (Nat.log 2 (maxSize * 4 / 4)) rnd1)
  updt := (Omap.OMap.new, Oram.new (Nat.log 2 (maxSize * 4 / 4)) rnd2)
  updtCnt _ := none
  lastIND _ := none

section

variable (depth fuel : Nat)

/-- `OMAP::find`, which returns one string; `none` where the ORAM throws. -/
def omapFind (x : Handle) (key : Bid 16) : Option (Handle × Str) :=
  (omapStep depth fuel x (.find key)).map fun r => (r.1, r.2.headD [])

/-- `OMAP::insert`. -/
def omapInsert (x : Handle) (key : Bid 16) (value : Str) : Option Handle :=
  (omapStep depth fuel x (.insert key value)).map Prod.fst

/-- `Orion::insert`; `none` where an ORAM throws. -/
def insert (st : State) (keyword : Str) (ind : Int32) : Option State := do
  let mapKey := createBid keyword ind
  let (updt, updt_cnt) ← omapFind depth fuel st.updt mapKey
  if updt_cnt = [] then
    let cnt := (st.updtCnt keyword).getD 0 + 1
    let updt ← omapInsert depth fuel updt mapKey (toStr cnt.toInt)
    let srch ← omapInsert depth fuel st.srch (createBid keyword cnt) (toStr ind.toInt)
    return {
      srch := srch
      updt := updt
      updtCnt := Function.update st.updtCnt keyword (some cnt)
      lastIND := Function.update st.lastIND keyword (some ind) }
  else return { st with updt := updt }

/-- The swap in `Orion::remove`. -/
def fillHole (st : State) (keyword : Str) (slot : Int32) (updt_cnt : Str) : Option State := do
  let last := (st.lastIND keyword).getD 0
  let updt ← omapInsert depth fuel st.updt (createBid keyword last) updt_cnt
  let srch ← omapInsert depth fuel st.srch (createBid keyword slot) (toStr last.toInt)
  return { st with srch := srch, updt := updt, lastIND := Function.update st.lastIND keyword (some last) }

/-- The end of `Orion::remove`: the last ind is read from the last slot. -/
def readLast (st : State) (keyword : Str) (cnt : Int32) : Option (State × Option Unit) := do
  let (srch, idstr) ← omapFind depth fuel st.srch (createBid keyword cnt)
  match stoi idstr with
  | none => return ({ st with srch := srch }, none)
  | some lastID =>
    return ({ st with srch := srch, lastIND := Function.update st.lastIND keyword (some lastID) }, some ())

/-- `Orion::remove`; the second component is `none` where `stoi` throws. -/
def remove (st : State) (keyword : Str) (ind : Int32) : Option (State × Option Unit) := do
  let mapKey := createBid keyword ind
  let (updt, updt_cnt) ← omapFind depth fuel st.updt mapKey
  match stoi updt_cnt with
  | none => return ({ st with updt := updt }, none)
  | some slot =>
    if 0 < slot then
      let updt ← omapInsert depth fuel updt mapKey (toStr (-1))
      let cnt := (st.updtCnt keyword).getD 0 - 1
      let st1 : State := { st with
        updt := updt
        updtCnt := Function.update st.updtCnt keyword (some cnt) }
      if 0 < cnt then
        let st2 ← if cnt + 1 ≠ slot then fillHole depth fuel st1 keyword slot updt_cnt else some st1
        readLast depth fuel st2 keyword cnt
      else return ({ st1 with lastIND := Function.update st1.lastIND keyword none }, some ())
    else return ({ st with updt := updt }, some ())

/-- `Orion::search`. -/
def search (st : State) (keyword : Str) : Option (State × Option (List Int32)) := do
  let bids := match st.updtCnt keyword with
    | none => []
    | some n => slotBids keyword n
  let (srch, tmpRes) ← omapStep depth fuel st.srch (.batchSearch bids)
  return ({ st with srch := srch }, tmpRes.mapM stoi)

/-- One call; an exception of an ORAM ends the run, one of `stoi` is the output `none`. -/
def step (st : State) : Op → Option (State × Option (List Int32))
  | .insert w ind => do return (← insert depth fuel st w ind, some [])
  | .remove w ind => do
    let (st, out) ← remove depth fuel st w ind
    return (st, out.map fun _ => [])
  | .search w => search depth fuel st w

end

/-! ## Texts -/

/-- Zero bytes at the end do not change what `stoi` reads. -/
theorem stoi_append_zeros (v : Str) (k : Nat) : stoi (v ++ List.replicate k 0) = stoi v := by
  have hspace : isSpace 0 = false := by decide
  have hdigit : isDigit 0 = false := by decide
  have hzeros : (List.replicate k (0 : UInt8)).takeWhile isDigit = [] := by
    cases k with
    | zero => rfl
    | succ k => rw [List.replicate_succ, List.takeWhile_cons_of_neg (by rw [hdigit]; exact Bool.false_ne_true)]
  have hdrop : (v ++ List.replicate k 0).dropWhile isSpace = v.dropWhile isSpace ++ List.replicate k 0 := by
    induction v with
    | nil =>
      cases k with
      | zero => rfl
      | succ k => rw [List.replicate_succ, List.nil_append, List.dropWhile_cons_of_neg (by rw [hspace]; exact Bool.false_ne_true)]; rfl
    | cons b v ih =>
      rw [List.cons_append, List.dropWhile_cons, List.dropWhile_cons]
      split_ifs
      · exact ih
      · rfl
  have hdigits : ∀ u : Str, (u ++ List.replicate k 0).takeWhile isDigit = u.takeWhile isDigit := by
    intro u
    induction u with
    | nil => exact hzeros
    | cons b u ih =>
      rw [List.cons_append, List.takeWhile_cons, List.takeWhile_cons, ih]
  unfold stoi
  rw [hdrop]
  cases v.dropWhile isSpace with
  | nil =>
    -- no sign and no digit
    have h45 : ((List.replicate k (0 : UInt8)).head? == some 45) = false := by cases k <;> rfl
    have h43 : ((List.replicate k (0 : UInt8)).head? == some 43) = false := by cases k <;> rfl
    simp only [List.nil_append, h45, h43, Bool.or_self, Bool.false_eq_true, if_false, hzeros]
    rfl
  | cons b u =>
    simp only [List.cons_append, List.head?_cons, List.tail_cons, Option.some_beq_some]
    by_cases h45 : b = 45
    · simp only [beq_iff_eq.2 h45, Bool.true_or, if_true, hdigits]
    · by_cases h43 : b = 43
      · simp only [beq_eq_false_iff_ne.2 h45, beq_iff_eq.2 h43, Bool.or_true, if_true, hdigits]
      · simp only [beq_eq_false_iff_ne.2 h45, beq_eq_false_iff_ne.2 h43, Bool.or_self, Bool.false_eq_true, if_false,
          ← List.cons_append, hdigits]

theorem stoi_padTo {v : Str} (h : v.length ≤ 16) : stoi (padTo 16 v) = stoi v := by
  rw [padTo_of_le h, stoi_append_zeros]

theorem mapM_stoi_padTo {l : List Str} (h : ∀ v ∈ l, v.length ≤ 16) : (l.map (padTo 16)).mapM stoi = l.mapM stoi := by
  induction l with
  | nil => rfl
  | cons v l ih =>
    rw [List.map_cons, List.mapM_cons, List.mapM_cons, stoi_padTo (h v List.mem_cons_self),
      ih fun v hv => h v (List.mem_cons_of_mem _ hv)]

theorem short_toStr (i : Int32) : Short (toStr i.toInt) := by
  have hlo := i.le_toInt
  have hhi := i.toInt_lt
  have hlen : (natStr i.toInt.natAbs).length ≤ 15 := by
    rw [natStr, List.length_map]
    refine (Nat.length_toDigits_le_iff (by decide) (by decide)).2 ?_
    omega
  have hnul : (0 : UInt8) ∉ natStr i.toInt.natAbs := by
    intro h
    have hdigit : isDigit 0 = false := by decide
    rw [isDigit_of_mem_natStr h] at hdigit
    cases hdigit
  unfold toStr
  split_ifs
  · refine ⟨fun h => ?_, Nat.succ_le_succ hlen⟩
    exact hnul ((List.mem_cons.1 h).resolve_left (by decide))
  · exact ⟨hnul, hlen.trans (by decide)⟩

/-- A keyword that has keys: a key that starts with four zero bytes is no key. -/
structure Keyed (w : Str) : Prop extends Valid w where
  nonempty : w ≠ []

theorem Keyed.isZero {w : Str} (h : Keyed w) (i : Int32) : (createBid w i).isZero = false := by
  have hid := createBid_id w i
  cases hw : w with
  | nil => exact absurd hw h.nonempty
  | cons b w' =>
    have hb : b ≠ 0 := fun e => h.nulFree (by rw [hw, e]; exact List.mem_cons_self)
    rw [Bid.isZero, ← hw, hid, hw, padTo_of_le (by rw [← hw]; exact h.fits)]
    simp [hb]

/-- Reading the answers in another order. -/
theorem mapM_perm {α β : Type} {f : α → Option β} {l l' : List α} (h : l.Perm l') :
    Option.Rel List.Perm (l.mapM f) (l'.mapM f) := by
  induction h with
  | nil => exact .some (.refl _)
  | @cons a l₁ l₂ _ ih =>
    rw [List.mapM_cons, List.mapM_cons]
    generalize l₁.mapM f = r₁ at ih
    generalize l₂.mapM f = r₂ at ih
    cases f a with
    | none => exact .none
    | some b =>
      cases ih with
      | none => exact .none
      | some hp => exact .some (hp.cons b)
  | swap a b l =>
    simp only [List.mapM_cons]
    cases f a with
    | none => cases f b <;> exact .none
    | some x =>
      cases f b with
      | none => exact .none
      | some y =>
        cases l.mapM f with
        | none => exact .none
        | some bs => exact .some (.swap x y bs)
  | @trans l₁ l₂ l₃ _ _ ih ih' =>
    generalize l₁.mapM f = r₁ at ih
    generalize l₂.mapM f = r₂ at ih ih'
    generalize l₃.mapM f = r₃ at ih'
    cases ih with
    | none => exact ih'
    | some hp =>
      cases ih' with
      | some hp' => exact .some (hp.trans hp')

/-! ## Refinement -/

section

variable {depth fuel : Nat} {st st' : State} {a : Orion.State}

/-- The two oblivious maps hold the two finite maps. -/
structure Refines (depth : Nat) (st : State) (a : Orion.State) : Prop where
  srch : Holds depth st.srch a.srch
  updt : Holds depth st.updt a.updt
  updtCnt : st.updtCnt = a.updtCnt
  lastIND : st.lastIND = a.lastIND

/-- Both finite maps fit. -/
structure FitsBoth (depth : Nat) (a : Orion.State) : Prop where
  srch : Fits depth a.srch
  updt : Fits depth a.updt

theorem omapFind_holds {x : Handle} {m : OMap} (h : Holds depth x m) (key : Bid 16) (hfit : Fits depth m) (hf : depth + 3 < fuel) :
    ∃ x', omapFind depth fuel x key = some (x', Orion.find m key) ∧ Holds depth x' m := by
  obtain ⟨x', hstep, h'⟩ := h.find key hfit (show depth + 2 < fuel by omega)
  exact ⟨x', by rw [omapFind, hstep]; rfl, h'⟩

theorem omapInsert_holds {x : Handle} {m : OMap} (h : Holds depth x m) {key : Bid 16} {value : Str}
    (hz : key.isZero = false) (hv : Short value) (hfit : Fits depth (put m key value)) (hf : depth + 3 < fuel) :
    ∃ x', omapInsert depth fuel x key value = some x' ∧ Holds depth x' (put m key value) := by
  obtain ⟨x', hstep, h'⟩ := h.insert hz hv hfit hf
  exact ⟨x', by rw [omapInsert, hstep]; rfl, h'⟩

theorem Refines.insert (h : Refines depth st a) {w : Str} (hw : Keyed w) (ind : Int32)
    (hfit : FitsBoth depth (Orion.insert a w ind)) (hf : depth + 3 < fuel) :
    ∃ st', insert depth fuel st w ind = some st' ∧ Refines depth st' (Orion.insert a w ind) := by
  obtain ⟨hsrch, hupdt, hcnt, hlast⟩ := h
  unfold Orion.insert at hfit ⊢
  unfold Stack.insert
  rw [hcnt, hlast]
  dsimp only at hfit ⊢
  by_cases he : find a.updt (createBid w ind) = []
  · rw [if_pos he] at hfit ⊢
    obtain ⟨x1, h1, hx1⟩ := omapFind_holds hupdt (createBid w ind) hfit.updt.of_update hf
    obtain ⟨x2, h2, hx2⟩ := omapInsert_holds hx1 (hw.isZero ind) (short_toStr _) hfit.updt hf
    obtain ⟨x3, h3, hx3⟩ := omapInsert_holds hsrch (hw.isZero _) (short_toStr ind) hfit.srch hf
    refine ⟨⟨x3, x2, _, _⟩, ?_, hx3, hx2, rfl, rfl⟩
    simp only [h1, Option.bind_eq_bind, Option.bind_some, if_pos he, h2, h3]
    rfl
  · rw [if_neg he] at hfit ⊢
    obtain ⟨x1, h1, hx1⟩ := omapFind_holds hupdt (createBid w ind) hfit.updt hf
    refine ⟨⟨st.srch, x1, a.updtCnt, a.lastIND⟩, ?_, hsrch, hx1, rfl, rfl⟩
    simp only [h1, Option.bind_eq_bind, Option.bind_some, if_neg he]
    rfl

theorem Refines.fillHole (h : Refines depth st a) {w : Str} (hw : Keyed w) (slot : Int32) {c : Str} (hc : Short c)
    (hfit : FitsBoth depth (Orion.fillHole a w slot c)) (hf : depth + 3 < fuel) :
    ∃ st', fillHole depth fuel st w slot c = some st' ∧ Refines depth st' (Orion.fillHole a w slot c) := by
  obtain ⟨hsrch, hupdt, hcnt, hlast⟩ := h
  unfold Stack.fillHole
  rw [hcnt, hlast]
  obtain ⟨x1, h1, hx1⟩ := omapInsert_holds hupdt (hw.isZero _) hc hfit.updt hf
  obtain ⟨x2, h2, hx2⟩ := omapInsert_holds hsrch (hw.isZero slot) (short_toStr _) hfit.srch hf
  refine ⟨⟨x2, x1, a.updtCnt, _⟩, ?_, hx2, hx1, rfl, rfl⟩
  simp only [h1, Option.bind_eq_bind, Option.bind_some, h2]
  rfl

/-- What `remove` reads last. -/
def lastOf (a : Orion.State) (w : Str) (cnt : Int32) : Orion.State × Option Unit :=
  match stoi (find a.srch (createBid w cnt)) with
  | none => (a, none)
  | some lastID => ({ a with lastIND := Function.update a.lastIND w (some lastID) }, some ())

theorem lastOf_maps (a : Orion.State) (w : Str) (cnt : Int32) :
    (lastOf a w cnt).1.srch = a.srch ∧ (lastOf a w cnt).1.updt = a.updt := by
  unfold lastOf
  split <;> exact ⟨rfl, rfl⟩

theorem Refines.readLast (h : Refines depth st a) (w : Str) (cnt : Int32) (hfit : Fits depth a.srch)
    (hf : depth + 3 < fuel) :
    ∃ st', readLast depth fuel st w cnt = some (st', (lastOf a w cnt).2) ∧ Refines depth st' (lastOf a w cnt).1 := by
  obtain ⟨hsrch, hupdt, hcnt, hlast⟩ := h
  unfold Stack.readLast lastOf
  rw [hcnt, hlast]
  obtain ⟨x1, h1, hx1⟩ := omapFind_holds hsrch (createBid w cnt) hfit hf
  simp only [h1, Option.bind_eq_bind, Option.bind_some]
  cases stoi (find a.srch (createBid w cnt)) with
  | none => exact ⟨⟨x1, st.updt, a.updtCnt, a.lastIND⟩, rfl, hx1, hupdt, rfl, rfl⟩
  | some lastID => exact ⟨⟨x1, st.updt, a.updtCnt, _⟩, rfl, hx1, hupdt, rfl, rfl⟩

theorem Refines.remove (h : Refines depth st a) {w : Str} (hw : Keyed w) (ind : Int32)
    (hfit : FitsBoth depth (Orion.remove a w ind).1) (hf : depth + 3 < fuel) :
    ∃ st', remove depth fuel st w ind = some (st', (Orion.remove a w ind).2) ∧
      Refines depth st' (Orion.remove a w ind).1 := by
  obtain ⟨hsrch, hupdt, hcnt, hlast⟩ := h
  have hc : Short (find a.updt (createBid w ind)) := by
    unfold Orion.find
    cases hk : a.updt (createBid w ind) with
    | none => exact ⟨List.not_mem_nil, Nat.zero_le _⟩
    | some v => exact hupdt.short _ v hk
  unfold Orion.remove at hfit ⊢
  unfold Stack.remove
  rw [hcnt, hlast]
  dsimp only at hfit ⊢
  cases hslot : stoi (find a.updt (createBid w ind)) with
  | none =>
    rw [hslot] at hfit
    obtain ⟨x1, h1, hx1⟩ := omapFind_holds hupdt (createBid w ind) hfit.updt hf
    refine ⟨⟨st.srch, x1, a.updtCnt, a.lastIND⟩, ?_, hsrch, hx1, rfl, rfl⟩
    simp only [h1, Option.bind_eq_bind, Option.bind_some, hslot]
    rfl
  | some slot =>
    rw [hslot] at hfit
    dsimp only at hfit ⊢
    by_cases hpos : 0 < slot
    · -- the pair has a slot
      rw [if_pos hpos] at hfit ⊢
      set cnt := (a.updtCnt w).getD 0 - 1
      set a1 : Orion.State := { a with
        updt := put a.updt (createBid w ind) (toStr (-1))
        updtCnt := Function.update a.updtCnt w (some cnt) }
      have hstart : FitsBoth depth a1 → ∃ x1 x2, omapFind depth fuel st.updt (createBid w ind) =
          some (x1, find a.updt (createBid w ind)) ∧ omapInsert depth fuel x1 (createBid w ind) (toStr (-1)) = some x2 ∧
          Refines depth ⟨st.srch, x2, Function.update a.updtCnt w (some cnt), a.lastIND⟩ a1 := by
        intro hfit1
        obtain ⟨x1, h1, hx1⟩ := omapFind_holds hupdt (createBid w ind) hfit1.updt.of_update hf
        obtain ⟨x2, h2, hx2⟩ := omapInsert_holds hx1 (hw.isZero ind) (short_toStr (-1)) hfit1.updt hf
        exact ⟨x1, x2, h1, h2, hsrch, hx2, rfl, rfl⟩
      by_cases hmore : 0 < cnt
      · rw [if_pos hmore] at hfit ⊢
        set a2 := if cnt + 1 ≠ slot then Orion.fillHole a1 w slot (find a.updt (createBid w ind)) else a1 with ha2
        change FitsBoth depth (lastOf a2 w cnt).1 at hfit
        show ∃ st', _ = some (st', (lastOf a2 w cnt).2) ∧ Refines depth st' (lastOf a2 w cnt).1
        have hfit2 : FitsBoth depth a2 := ⟨(lastOf_maps a2 w cnt).1 ▸ hfit.srch, (lastOf_maps a2 w cnt).2 ▸ hfit.updt⟩
        by_cases hne : cnt + 1 ≠ slot
        · rw [if_pos hne] at ha2
          rw [ha2] at hfit2 ⊢
          obtain ⟨x1, x2, h1, h2, hr⟩ := hstart ⟨hfit2.srch.of_update, hfit2.updt.of_update⟩
          obtain ⟨st2, h3, hr2⟩ := hr.fillHole hw slot hc hfit2 hf
          obtain ⟨st3, h4, hr3⟩ := hr2.readLast w cnt hfit2.srch hf
          refine ⟨st3, ?_, hr3⟩
          simp only [h1, Option.bind_eq_bind, Option.bind_some, hslot, if_pos hpos, h2, if_pos hmore, if_pos hne, h3, h4]
        · rw [if_neg hne] at ha2
          rw [ha2] at hfit2 ⊢
          obtain ⟨x1, x2, h1, h2, hr⟩ := hstart hfit2
          obtain ⟨st3, h4, hr3⟩ := hr.readLast w cnt hfit2.srch hf
          refine ⟨st3, ?_, hr3⟩
          simp only [h1, Option.bind_eq_bind, Option.bind_some, hslot, if_pos hpos, h2, if_pos hmore, if_neg hne, h4]
      · rw [if_neg hmore] at hfit ⊢
        obtain ⟨x1, x2, h1, h2, hr⟩ := hstart ⟨hfit.srch, hfit.updt⟩
        refine ⟨⟨st.srch, x2, Function.update a.updtCnt w (some cnt), Function.update a.lastIND w none⟩, ?_, hr.srch,
          hr.updt, rfl, rfl⟩
        simp only [h1, Option.bind_eq_bind, Option.bind_some, hslot, if_pos hpos, h2, if_neg hmore]
        rfl
    · rw [if_neg hpos] at hfit ⊢
      obtain ⟨x1, h1, hx1⟩ := omapFind_holds hupdt (createBid w ind) hfit.updt hf
      refine ⟨⟨st.srch, x1, a.updtCnt, a.lastIND⟩, ?_, hsrch, hx1, rfl, rfl⟩
      simp only [h1, Option.bind_eq_bind, Option.bind_some, hslot, if_neg hpos]
      rfl

theorem Refines.search (h : Refines depth st a) (w : Str) (hfit : Fits depth a.srch) (hf : depth + 3 < fuel) :
    ∃ st' out, search depth fuel st w = some (st', out) ∧ Refines depth st' a ∧
      Option.Rel List.Perm out (Orion.search a w) := by
  obtain ⟨hsrch, hupdt, hcnt, hlast⟩ := h
  -- the answers come in buffers, in the order of the tree
  have hread : ∀ bids, ∃ x1 res, omapStep depth fuel st.srch (.batchSearch bids) = some (x1, res) ∧
      Holds depth x1 a.srch ∧ Option.Rel List.Perm (res.mapM stoi) ((batchSearch a.srch bids).mapM stoi) := by
    intro bids
    obtain ⟨x1, res, h1, hperm, hx1⟩ := hsrch.batchSearch bids hfit (show depth + 2 < fuel by omega)
    have hlen : ∀ v ∈ bids.filterMap a.srch, v.length ≤ 16 := by
      intro v hv
      obtain ⟨k, -, hk⟩ := List.mem_filterMap.1 hv
      exact (hsrch.short k v hk).2
    refine ⟨x1, res, h1, hx1, ?_⟩
    have hrel := mapM_perm (f := stoi) hperm
    rw [mapM_stoi_padTo hlen] at hrel
    exact hrel
  unfold Stack.search Orion.search
  rw [hcnt]
  cases a.updtCnt w with
  | none =>
    obtain ⟨x1, res, h1, hx1, hrel⟩ := hread []
    exact ⟨⟨x1, st.updt, _, st.lastIND⟩, _, by simp only [h1, Option.bind_eq_bind, Option.bind_some]; rfl,
      ⟨hx1, hupdt, rfl, hlast⟩, hrel⟩
  | some m =>
    obtain ⟨x1, res, h1, hx1, hrel⟩ := hread (slotBids w m)
    exact ⟨⟨x1, st.updt, _, st.lastIND⟩, _, by simp only [h1, Option.bind_eq_bind, Option.bind_some]; rfl,
      ⟨hx1, hupdt, rfl, hlast⟩, hrel⟩

/-- **One call** that fits does what it does over finite maps. -/
theorem Refines.step (h : Refines depth st a) {op : Op} (hop : Keyed op.keyword) (hfit : FitsBoth depth (Orion.step a op).1)
    (hf : depth + 3 < fuel) :
    ∃ st' out, step depth fuel st op = some (st', out) ∧ Refines depth st' (Orion.step a op).1 ∧
      Option.Rel List.Perm out (Orion.step a op).2 := by
  have hrefl : ∀ out : Option (List Int32), Option.Rel List.Perm out out := by
    intro out
    cases out with
    | none => exact .none
    | some l => exact .some (.refl l)
  cases op with
  | insert w ind =>
    have hw : Keyed w := hop
    obtain ⟨st', h1, h'⟩ := h.insert hw ind hfit hf
    exact ⟨st', some [], by rw [Stack.step, h1]; rfl, h', hrefl _⟩
  | remove w ind =>
    have hw : Keyed w := hop
    obtain ⟨st', h1, h'⟩ := h.remove hw ind hfit hf
    exact ⟨st', _, by rw [Stack.step, h1]; rfl, h', hrefl _⟩
  | search w => exact h.search w hfit.srch hf

/-! ## Runs -/

/-- The state over finite maps after some calls. -/
def afterFrom (a : Orion.State) (ops : List Op) : Orion.State := ops.foldl (fun a op => (Orion.step a op).1) a

theorem afterFrom_concat (a : Orion.State) (ops : List Op) (op : Op) :
    afterFrom a (ops ++ [op]) = (Orion.step (afterFrom a ops) op).1 := by
  simp [afterFrom]

/-- **A run that fits** goes through, and answers as over finite maps. -/
theorem Refines.run (h : Refines depth st a) {ops : List Op} (hops : ∀ op ∈ ops, Keyed op.keyword)
    (hfit : ∀ pre op post, ops = pre ++ op :: post → FitsBoth depth (afterFrom a (pre ++ [op]))) (hf : depth + 3 < fuel) :
    ∃ st' outs, Runs.run (Stack.step depth fuel) st ops = some (st', outs) ∧ Refines depth st' (afterFrom a ops) ∧
      ∀ pre op post, ops = pre ++ op :: post → ∃ out, outs[pre.length]? = some out ∧
        Option.Rel List.Perm out (Orion.step (afterFrom a pre) op).2 := by
  refine Runs.run_serves st (fun pre st => Refines depth st (afterFrom a pre))
    (fun pre op out => Option.Rel List.Perm out (Orion.step (afterFrom a pre) op).2) h ?_
  intro pre op post st he href
  have hop : Keyed op.keyword := hops op (by rw [he]; exact List.mem_append_right _ List.mem_cons_self)
  have hfit' := hfit pre op post he
  rw [afterFrom_concat] at hfit'
  obtain ⟨st', out, hs, href', hout⟩ := href.step hop hfit' hf
  rw [← afterFrom_concat] at href'
  exact ⟨st', out, hs, hout, href'⟩

theorem refines_new (maxSize : Nat) {rnd1 rnd2 : Nat → Nat} (h1 : ∀ i, rnd1 i < 2 ^ Nat.log 2 maxSize)
    (h2 : ∀ i, rnd2 i < 2 ^ Nat.log 2 maxSize) : Refines (Nat.log 2 maxSize) (new maxSize rnd1 rnd2) init where
  srch := by
    rw [new, Nat.mul_div_cancel maxSize (by decide)]
    exact Omap.holds_new h1
  updt := by
    rw [new, Nat.mul_div_cancel maxSize (by decide)]
    exact Omap.holds_new h2
  updtCnt := rfl
  lastIND := rfl

end

end Sse.Orion.Stack
