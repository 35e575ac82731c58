import Sse.Horus.Probe

/-!
# The rounds of a search

`search` moves the probes of all slots on by one turn in each round, and skips the slots that
are found.  The slots do not interfere: a round brings every probe closer to the top of its
own ladder (`turns_spec`), and what is gathered on the way is the inds and the boxes of the
slots in the order they were found (`scanOf`).  So the loop ends with every slot once
(`rounds_spec`).
-/

namespace Sse.Horus

section

variable {keyword : Str} {srch_cnt : Int32} {m : OMap} {n A : Nat} {lo hi : Nat → Nat} {val : Nat → Int32}

/-- The boxes of slot `i + 1` under the current search count. -/
def shaft (keyword : Str) (srch_cnt : Int32) (m : OMap) (i : Nat) (acc : Int32) : Option Str :=
  m (createBid keyword (Int32.ofNat (i + 1)) srch_cnt acc)

/-- The slots below `n` hold ladders with the inds `val` at their tops. -/
structure Ladders (keyword : Str) (srch_cnt : Int32) (m : OMap) (n A : Nat) (lo hi : Nat → Nat) (val : Nat → Int32) :
    Prop where
  n_lt : n < 2 ^ 31 - 1
  clear : ∀ i < n, Clear (lo i) (hi i) A
  ladder : ∀ i < n, Ladder (shaft keyword srch_cnt m i) (lo i) (hi i)
  hi_le : ∀ i < n, hi i ≤ A
  val : ∀ i < n, shaft keyword srch_cnt m i (Int32.ofNat (hi i)) = some (toStr (val i).toInt)

/-- Every access count of a ladder is an `int`. -/
theorem Ladders.A_lt (H : Ladders keyword srch_cnt m n A lo hi val) {i : Nat} (hin : i < n) : A < 2 ^ 31 := by
  have hle := (H.ladder i hin).le
  have := (H.clear i hin).sum (hle.trans (H.hi_le i hin)) hle
  omega

/-! ## What is gathered -/

/-- The boxes of a found slot under the next search count. -/
def newBoxes (keyword : Str) (srch_cnt : Int32) (hi : Nat → Nat) (val : Nat → Int32) (i : Nat) : List (Bid 24 × Str) :=
  (createBid keyword (Int32.ofNat (i + 1)) (srch_cnt + 1) (Int32.ofNat (hi i)), toStr (val i).toInt) ::
    if 1 < hi i then
      [(createBid keyword (Int32.ofNat (i + 1)) (srch_cnt + 1) 1, pointer (Int32.ofNat (hi i)))]
    else []

/-- What their positions are computed from. -/
def newPositions (keyword : Str) (srch_cnt : Int32) (hi : Nat → Nat) (i : Nat) : List (Bid 24 × PosArgs) :=
  (createBid keyword (Int32.ofNat (i + 1)) (srch_cnt + 1) (Int32.ofNat (hi i)),
    ⟨keyword, Int32.ofNat (i + 1), srch_cnt + 1, Int32.ofNat (hi i)⟩) ::
    if 1 < hi i then
      [(createBid keyword (Int32.ofNat (i + 1)) (srch_cnt + 1) 1, ⟨keyword, Int32.ofNat (i + 1), srch_cnt + 1, 1⟩)]
    else []

/-- What is gathered when the slots are found in this order. -/
def scanOf (keyword : Str) (srch_cnt : Int32) (hi : Nat → Nat) (val : Nat → Int32) (order : List Nat) : Scan :=
  ⟨order.map val, order.flatMap (newPositions keyword srch_cnt hi), order.flatMap (newBoxes keyword srch_cnt hi val)⟩

/-- Both maps of a search have the same keys. -/
theorem keys_scanOf (order : List Nat) :
    (scanOf keyword srch_cnt hi val order).batchWriteQuery.map Prod.fst =
      (scanOf keyword srch_cnt hi val order).batchWriteQueryID.map Prod.fst := by
  unfold scanOf
  rw [List.map_flatMap, List.map_flatMap]
  congr 1
  funext i
  unfold newPositions newBoxes
  split <;> rfl

theorem slot_of_mem_newBoxes {i : Nat} {e : Bid 24 × Str} (h : e ∈ newBoxes keyword srch_cnt hi val i) :
    ∃ acc, e.1 = createBid keyword (Int32.ofNat (i + 1)) (srch_cnt + 1) acc := by
  unfold newBoxes at h
  rcases List.mem_cons.1 h with rfl | h
  · exact ⟨_, rfl⟩
  · split at h
    · rw [List.mem_singleton.1 h]
      exact ⟨_, rfl⟩
    · cases h

/-- The identifiers of a slot are new while the slot is not found. -/
theorem notMem_keys_scanOf {order : List Nat} (hn : n < 2 ^ 31 - 1) {i : Nat} (hi' : i < n) (ho : ∀ j ∈ order, j < n)
    (hno : i ∉ order) (acc : Int32) :
    createBid keyword (Int32.ofNat (i + 1)) (srch_cnt + 1) acc ∉
      (scanOf keyword srch_cnt hi val order).batchWriteQueryID.map Prod.fst := by
  intro hmem
  obtain ⟨e, he, hkey⟩ := List.mem_map.1 hmem
  obtain ⟨j, hj, hej⟩ := List.mem_flatMap.1 he
  obtain ⟨acc', hacc⟩ := slot_of_mem_newBoxes hej
  obtain ⟨-, hslot, -, -⟩ := createBid_eq_iff.1 (hkey.symm.trans hacc)
  have hjn := ho j hj
  have := ofNat_inj_small (by omega) (by omega) hslot
  exact hno (by rwa [show i = j by omega])

theorem emplace_new {α : Type} {q : List (Bid 24 × α)} {bid : Bid 24} {value : α} (h : bid ∉ q.map Prod.fst) :
    emplace q bid value = q ++ [(bid, value)] := if_neg h

/-- **A found slot** is gathered with its ind and its boxes. -/
theorem report_found (H : Ladders keyword srch_cnt m n A lo hi val) {order : List Nat} {i : Nat} (hin : i < n)
    (ho : ∀ j ∈ order, j < n) (hno : i ∉ order) {p : Probe} (hp : Found (shaft keyword srch_cnt m i) (hi i) p) :
    report keyword srch_cnt i p (scanOf keyword srch_cnt hi val order) =
      some (scanOf keyword srch_cnt hi val (order ++ [i])) := by
  have hone := (H.ladder i hin).one_le
  have hle := (H.ladder i hin).le
  have hA := H.hi_le i hin
  have hAlt := H.A_lt hin
  have hid : p.lastID = toStr (val i).toInt := by
    have := hp.lastID
    rw [H.val i hin] at this
    exact (Option.some.inj this).symm
  have hgt : 1 < p.lastAcc ↔ 1 < hi i := by
    rw [hp.lastAcc]
    exact ofNat_lt (show 1 < 2 ^ 31 by decide) (by omega)
  have hnew : ∀ acc, createBid keyword (Int32.ofNat (i + 1)) (srch_cnt + 1) acc ∉
      (scanOf keyword srch_cnt hi val order).batchWriteQueryID.map Prod.fst :=
    notMem_keys_scanOf H.n_lt hin ho hno
  have hnew' : ∀ acc, createBid keyword (Int32.ofNat (i + 1)) (srch_cnt + 1) acc ∉
      (scanOf keyword srch_cnt hi val order).batchWriteQuery.map Prod.fst := by
    rw [keys_scanOf]
    exact hnew
  rw [hp.lastAcc] at hgt
  -- the ind, then the pointer
  set pos : PosArgs := ⟨keyword, Int32.ofNat (i + 1), srch_cnt + 1, Int32.ofNat (hi i)⟩
  have hadd : Scan.add { scanOf keyword srch_cnt hi val order with
      result := (scanOf keyword srch_cnt hi val order).result ++ [val i] } pos (toStr (val i).toInt) =
      ⟨order.map val ++ [val i], (scanOf keyword srch_cnt hi val order).batchWriteQuery ++ [(pos.bid, pos)],
        (scanOf keyword srch_cnt hi val order).batchWriteQueryID ++ [(pos.bid, toStr (val i).toInt)]⟩ := by
    have hk : pos.bid ∉ (scanOf keyword srch_cnt hi val order).batchWriteQueryID.map Prod.fst := hnew _
    have hk' : pos.bid ∉ (scanOf keyword srch_cnt hi val order).batchWriteQuery.map Prod.fst := hnew' _
    unfold Scan.add
    simp only
    rw [emplace_new hk', emplace_new hk]
    rfl
  unfold report
  rw [hid, stoi_toStr, Option.map_some, hp.lastAcc]
  simp only
  rw [hadd]
  by_cases hp1 : 1 < hi i
  · have hne : createBid keyword (Int32.ofNat (i + 1)) (srch_cnt + 1) 1 ≠ pos.bid := by
      intro e
      obtain ⟨-, -, -, hacc⟩ := createBid_eq_iff.1 e
      have := ofNat_inj_small (j := 1) (by omega) (by omega) hacc
      omega
    rw [if_pos (hgt.2 hp1)]
    unfold Scan.add scanOf newBoxes newPositions
    simp only [List.map_append, List.map_cons, List.map_nil, List.flatMap_append, List.flatMap_singleton, if_pos hp1]
    rw [emplace_new, emplace_new]
    · simp only [List.append_assoc, List.cons_append, List.nil_append]
      rfl
    · rw [List.map_append, List.mem_append, not_or]
      exact ⟨hnew 1, fun hm => hne (List.mem_singleton.1 hm)⟩
    · rw [List.map_append, List.mem_append, not_or]
      exact ⟨hnew' 1, fun hm => hne (List.mem_singleton.1 hm)⟩
  · rw [if_neg fun e => hp1 (hgt.1 e)]
    unfold scanOf newBoxes newPositions
    simp only [List.map_append, List.map_cons, List.map_nil, List.flatMap_append, List.flatMap_singleton, if_neg hp1]
    rfl

/-! ## One round -/

/-- A probe that is found, or at most `k` rounds away from it. -/
def At (keyword : Str) (srch_cnt : Int32) (m : OMap) (lo hi : Nat → Nat) (k i : Nat) (p : Probe) : Prop :=
  Found (shaft keyword srch_cnt m i) (hi i) p ∨
    ∃ l r c, Seeking (shaft keyword srch_cnt m i) (lo i) (hi i) p l r c ∧ steps l r c ≤ k

/-- The slots that are found, from slot `i` on. -/
def foundSlots : Nat → List Probe → List Nat
  | _, [] => []
  | i, p :: ps => if p.foundItem then i :: foundSlots (i + 1) ps else foundSlots (i + 1) ps

theorem le_of_mem_foundSlots {ps : List Probe} {i j : Nat} (h : j ∈ foundSlots i ps) : i ≤ j ∧ j < i + ps.length := by
  induction ps generalizing i with
  | nil => cases h
  | cons p ps ih =>
    rw [foundSlots] at h
    rw [List.length_cons]
    split at h
    · rcases List.mem_cons.1 h with rfl | h
      · omega
      · have := ih h
        omega
    · have := ih h
      omega

theorem foundSlots_of_all {ps : List Probe} (h : ps.all Probe.foundItem = true) (i : Nat) :
    foundSlots i ps = List.range' i ps.length := by
  induction ps generalizing i with
  | nil => rfl
  | cons p ps ih =>
    rw [List.all_cons, Bool.and_eq_true] at h
    rw [foundSlots, if_pos h.1, ih h.2, List.length_cons, List.range'_succ]

/-- **One round.**  `order` lists the slots found so far, `pre` those of them before slot `i`. -/
theorem turns_spec (H : Ladders keyword srch_cnt m n A lo hi val) {k : Nat} (ps : List Probe) :
    ∀ (i : Nat) (pre order : List Nat), i + ps.length ≤ n →
      (∀ j p, ps[j]? = some p → At keyword srch_cnt m lo hi (k + 1) (i + j) p) →
      (∀ j ∈ pre, j < i) → order.Perm (pre ++ foundSlots i ps) →
      ∃ ps' order', turns keyword srch_cnt false i ps (batchRead m (batchReadQuery keyword srch_cnt i ps))
          (scanOf keyword srch_cnt hi val order) = some (ps', scanOf keyword srch_cnt hi val order') ∧
        ps'.length = ps.length ∧ (∀ j p, ps'[j]? = some p → At keyword srch_cnt m lo hi k (i + j) p) ∧
        order'.Perm (pre ++ foundSlots i ps') := by
  induction ps with
  | nil =>
    intro i pre order _ _ _ hperm
    exact ⟨[], order, rfl, rfl, fun j p h => by simp at h, hperm⟩
  | cons p ps ih =>
    intro i pre order hlen hat hpre hperm
    rw [List.length_cons] at hlen
    have hrest : ∀ j q, ps[j]? = some q → At keyword srch_cnt m lo hi (k + 1) (i + 1 + j) q := by
      intro j q hq
      rw [show i + 1 + j = i + (j + 1) by omega]
      exact hat (j + 1) q (by simpa using hq)
    -- the probes of the round, with slot `i` in front
    have hcons : ∀ (p' : Probe) (ps' : List Probe), At keyword srch_cnt m lo hi k i p' →
        (∀ j q, ps'[j]? = some q → At keyword srch_cnt m lo hi k (i + 1 + j) q) →
        ∀ j q, (p' :: ps')[j]? = some q → At keyword srch_cnt m lo hi k (i + j) q := by
      intro p' ps' hp' hps' j q hq
      cases j with
      | zero =>
        rw [List.getElem?_cons_zero] at hq
        exact Option.some.inj hq ▸ hp'
      | succ j =>
        rw [List.getElem?_cons_succ] at hq
        rw [show i + (j + 1) = i + 1 + j by omega]
        exact hps' j q hq
    have hmid : ∀ (q : List Nat), (pre ++ i :: q).Perm ((pre ++ [i]) ++ q) := fun q => by simp
    have hpre' : ∀ j ∈ pre ++ [i], j < i + 1 := by
      intro j hj
      rcases List.mem_append.1 hj with hj | hj
      · have := hpre j hj
        omega
      · rw [List.mem_singleton.1 hj]
        omega
    rcases hat 0 p rfl with hf | ⟨l, r, c, hs, hk⟩
    · -- found before this round
      rw [foundSlots, if_pos hf.foundItem] at hperm
      obtain ⟨ps', order', hturns, hlen', hat', hperm'⟩ :=
        ih (i + 1) (pre ++ [i]) order (by omega) hrest hpre' (hperm.trans (hmid _))
      refine ⟨p :: ps', order', ?_, by simp [hlen'], hcons p ps' (Or.inl hf) hat', ?_⟩
      · rw [turns, if_pos hf.foundItem, batchReadQuery, if_pos hf.foundItem, hturns]
        rfl
      · rw [foundSlots, if_pos hf.foundItem]
        exact hperm'.trans (hmid _).symm
    · have hopen : p.foundItem = false := hs.foundItem
      rw [foundSlots, if_neg (by simp [hopen])] at hperm
      have hread : batchRead m (batchReadQuery keyword srch_cnt i (p :: ps)) =
          (shaft keyword srch_cnt m i p.curValue).getD [] ::
            batchRead m (batchReadQuery keyword srch_cnt (i + 1) ps) := by
        rw [batchReadQuery, if_neg (by simp [hopen])]
        rfl
      rw [hread, turns, if_neg (by simp [hopen]), List.headD_cons, List.tail_cons]
      have hin : i < n := by omega
      rcases hs.next (H.ladder i hin) with hf | ⟨l', r', c', hs', hlt⟩
      · -- found in this round
        have hnotpre : i ∉ order := by
          intro hi'
          rcases List.mem_append.1 (hperm.mem_iff.1 hi') with hj | hj
          · have := hpre i hj
            omega
          · have := (le_of_mem_foundSlots hj).1
            omega
        have hbelow : ∀ j ∈ order, j < n := by
          intro j hj
          rcases List.mem_append.1 (hperm.mem_iff.1 hj) with hj | hj
          · have := hpre j hj
            omega
          · have := (le_of_mem_foundSlots hj).2
            omega
        obtain ⟨ps', order', hturns, hlen', hat', hperm'⟩ :=
          ih (i + 1) (pre ++ [i]) (order ++ [i]) (by omega) hrest hpre'
            ((((hperm.append_right [i]).trans (List.perm_append_singleton _ _)).trans List.perm_middle.symm).trans (hmid _))
        refine ⟨_ :: ps', order', ?_, by simp [hlen'], hcons _ ps' (Or.inl hf) hat', ?_⟩
        · rw [turn, if_neg (by simp), if_pos hf.foundItem, report_found H hin hbelow hnotpre hf]
          simp only [Option.map_some, Option.bind_eq_bind, Option.bind_some, hturns]
          rfl
        · rw [foundSlots, if_pos hf.foundItem]
          exact hperm'.trans (hmid _).symm
      · have hopen' : (p.next ((shaft keyword srch_cnt m i p.curValue).getD [])).foundItem = false := hs'.foundItem
        obtain ⟨ps', order', hturns, hlen', hat', hperm'⟩ :=
          ih (i + 1) pre order (by omega) hrest (fun j hj => by have := hpre j hj; omega) hperm
        refine ⟨_ :: ps', order', ?_, by simp [hlen'], hcons _ ps' (Or.inr ⟨l', r', c', hs', by omega⟩) hat', ?_⟩
        · rw [turn, if_neg (by simp), if_neg (by simp [hopen'])]
          simp only [Option.bind_eq_bind, Option.bind_some, hturns]
          rfl
        · rw [foundSlots, if_neg (by simp [hopen'])]
          exact hperm'

/-- **The first round**, which finds no slot. -/
theorem turns_first (H : Ladders keyword srch_cnt m n A lo hi val) (sc : Scan) (k : Nat) :
    ∀ i, i + k ≤ n →
      ∃ ps', turns keyword srch_cnt true i (List.replicate k ⟨1, Int32.ofNat A, 1, 0, [], false⟩)
          (batchRead m (batchReadQuery keyword srch_cnt i (List.replicate k ⟨1, Int32.ofNat A, 1, 0, [], false⟩))) sc =
          some (ps', sc) ∧
        ps'.length = k ∧ (∀ j p, ps'[j]? = some p → At keyword srch_cnt m lo hi (2 ^ 32 - 2) (i + j) p) ∧
        foundSlots i ps' = [] := by
  induction k with
  | zero => exact fun i _ => ⟨[], rfl, rfl, fun j p h => by simp at h, rfl⟩
  | succ k ih =>
    intro i hik
    have hin : i < n := by omega
    have hA := H.A_lt hin
    have hone := (H.ladder i hin).one_le
    obtain ⟨p, hfirst, hs⟩ := (H.ladder i hin).first (H.hi_le i hin) (H.clear i hin)
    obtain ⟨ps', hturns, hlen, hat, hfound⟩ := ih (i + 1) (by omega)
    refine ⟨p :: ps', ?_, by simp [hlen], ?_, ?_⟩
    · have hread : batchRead m (batchReadQuery keyword srch_cnt i
          (List.replicate (k + 1) ⟨1, Int32.ofNat A, 1, 0, [], false⟩)) =
          (shaft keyword srch_cnt m i 1).getD [] :: batchRead m (batchReadQuery keyword srch_cnt (i + 1)
            (List.replicate k ⟨1, Int32.ofNat A, 1, 0, [], false⟩)) := rfl
      rw [hread, List.replicate_succ, turns, if_neg (by simp), List.headD_cons, List.tail_cons, turn, if_pos rfl, hfirst]
      simp only [Option.map_some, Option.bind_eq_bind, Option.bind_some, hturns]
      rfl
    · intro j q hq
      cases j with
      | zero =>
        rw [List.getElem?_cons_zero] at hq
        obtain rfl := Option.some.inj hq
        refine Or.inr ⟨_, _, _, hs, ?_⟩
        unfold steps
        split <;> omega
      | succ j =>
        rw [List.getElem?_cons_succ] at hq
        rw [show i + (j + 1) = i + 1 + j by omega]
        exact hat j q hq
    · rw [foundSlots, if_neg (by simp [hs.foundItem])]
      exact hfound

/-! ## All rounds -/

theorem At.found_of_zero {i : Nat} {p : Probe} (h : At keyword srch_cnt m lo hi 0 i p) : p.foundItem = true := by
  rcases h with hf | ⟨l, r, c, -, hk⟩
  · exact hf.foundItem
  · unfold steps at hk
    omega

/-- **The later rounds** end with every slot once. -/
theorem rounds_later (H : Ladders keyword srch_cnt m n A lo hi val) (k : Nat) :
    ∀ (fuel : Nat) (ps : List Probe) (order : List Nat), k < fuel → ps.length = n →
      (∀ j p, ps[j]? = some p → At keyword srch_cnt m lo hi k j p) → order.Perm (foundSlots 0 ps) →
      ∃ order', order'.Perm (List.range n) ∧
        rounds keyword srch_cnt m fuel false ps (scanOf keyword srch_cnt hi val order) =
          some (scanOf keyword srch_cnt hi val order') := by
  induction k with
  | zero =>
    intro fuel ps order hf hlen hat hperm
    obtain ⟨fuel, rfl⟩ : ∃ f, fuel = f + 1 := ⟨fuel - 1, by omega⟩
    have hall : ps.all Probe.foundItem = true := by
      rw [List.all_eq_true]
      intro p hp
      obtain ⟨j, hj⟩ := List.mem_iff_getElem?.1 hp
      exact (hat j p hj).found_of_zero
    refine ⟨order, ?_, by rw [rounds, if_pos hall]⟩
    rw [foundSlots_of_all hall, hlen] at hperm
    rwa [List.range_eq_range']
  | succ k ih =>
    intro fuel ps order hf hlen hat hperm
    obtain ⟨fuel, rfl⟩ : ∃ f, fuel = f + 1 := ⟨fuel - 1, by omega⟩
    rw [rounds]
    by_cases hall : ps.all Probe.foundItem = true
    · refine ⟨order, ?_, by rw [if_pos hall]⟩
      rw [foundSlots_of_all hall, hlen] at hperm
      rwa [List.range_eq_range']
    · obtain ⟨ps', order', hturns, hlen', hat', hperm'⟩ :=
        turns_spec H (k := k) ps 0 [] order (by omega) (fun j p hj => by rw [Nat.zero_add]; exact hat j p hj)
          (by simp) (by simpa using hperm)
      obtain ⟨order'', hp, hr⟩ := ih fuel ps' order' (by omega) (hlen'.trans hlen)
        (fun j p hj => by have := hat' j p hj; rwa [Nat.zero_add] at this) (by simpa using hperm')
      refine ⟨order'', hp, ?_⟩
      rw [if_neg hall, hturns]
      exact hr

/-- **The rounds of a search** end, with every slot once. -/
theorem rounds_spec (H : Ladders keyword srch_cnt m n A lo hi val) {fuel : Nat} (hf : 2 ^ 32 ≤ fuel) :
    ∃ order : List Nat, order.Perm (List.range n) ∧
      rounds keyword srch_cnt m fuel true (List.replicate n ⟨1, Int32.ofNat A, 1, 0, [], false⟩) ⟨[], [], []⟩ =
        some (scanOf keyword srch_cnt hi val order) := by
  obtain ⟨fuel, rfl⟩ : ∃ f, fuel = f + 1 := ⟨fuel - 1, by omega⟩
  cases n with
  | zero => exact ⟨[], List.Perm.refl _, rfl⟩
  | succ n =>
    obtain ⟨ps', hturns, hlen, hat, hfound⟩ := turns_first H (scanOf keyword srch_cnt hi val []) (n + 1) 0 (by omega)
    obtain ⟨order, hp, hr⟩ := rounds_later H (2 ^ 32 - 2) fuel ps' [] (by omega) hlen
      (fun j p hj => by have := hat j p hj; rwa [Nat.zero_add] at this) (by rw [hfound])
    refine ⟨order, hp, ?_⟩
    have hall : ¬ (List.replicate (n + 1) (⟨1, Int32.ofNat A, 1, 0, [], false⟩ : Probe)).all Probe.foundItem = true := by
      simp [List.replicate_succ]
    rw [rounds, if_neg hall]
    have hnil : scanOf keyword srch_cnt hi val [] = ⟨[], [], []⟩ := rfl
    rw [← hnil, hturns]
    exact hr

end

end Sse.Horus
