import Sse.Lib.SortedMap

/-!
# Balanced search trees

Binary trees with entries at their nodes, and the insertion that restores the balance with
one of four rotations.  Everything about the order of the keys goes through the list of the
entries from left to right: rotations keep it, and an insertion is an insertion into it.

    (t.insert x y).toList = insertEntries x y t.toList               (toList_insert)
    t.Bal → (t.insert x y).Bal                                       (bal_insert)
    t.get? x = lookup x t.toList                                     (get?_eq_lookup)
-/

inductive AvlTree (α β : Type) where
  | nil
  | node (l : AvlTree α β) (k : α) (v : β) (r : AvlTree α β)

namespace AvlTree

variable {α β : Type}

def height : AvlTree α β → Nat
  | nil => 0
  | node l _ _ r => max l.height r.height + 1

/-- The entries from left to right. -/
def toList : AvlTree α β → List (α × β)
  | nil => []
  | node l k v r => l.toList ++ (k, v) :: r.toList

/-- The keys from left to right. -/
def keys (t : AvlTree α β) : List α := t.toList.map Prod.fst

def root? : AvlTree α β → Option α
  | nil => none
  | node _ k _ _ => some k

/-- The heights of the two subtrees of every node differ by at most one. -/
def Bal : AvlTree α β → Prop
  | nil => True
  | node l _ _ r => l.height ≤ r.height + 1 ∧ r.height ≤ l.height + 1 ∧ l.Bal ∧ r.Bal

/-- Search-tree order. -/
def Ordered [LT α] (t : AvlTree α β) : Prop := t.toList.Pairwise fun a b => a.1 < b.1

theorem mem_keys_node {l r : AvlTree α β} {k x : α} {v : β} :
    x ∈ (node l k v r).keys ↔ x ∈ l.keys ∨ x = k ∨ x ∈ r.keys := by
  simp [keys, toList]

theorem length_keys_node (l r : AvlTree α β) (k : α) (v : β) :
    (node l k v r).keys.length = l.keys.length + r.keys.length + 1 := by
  simp only [keys, toList, List.length_map, List.length_append, List.length_cons]
  omega

/-- **A balanced tree is low**: the smallest one of its height has a Fibonacci number of keys, less one. -/
theorem Bal.fib_le {t : AvlTree α β} (h : t.Bal) : Nat.fib (t.height + 2) ≤ t.keys.length + 1 := by
  induction t with
  | nil => exact Nat.le_refl 1
  | node l k v r ihl ihr =>
    obtain ⟨h1, h2, hl, hr⟩ := h
    specialize ihl hl
    specialize ihr hr
    rw [length_keys_node, height, show max l.height r.height + 1 + 2 = (max l.height r.height + 1) + 2 from rfl,
      Nat.fib_add_two]
    rcases Nat.le_total l.height r.height with hle | hle
    · have hfib : Nat.fib (r.height + 1) ≤ Nat.fib (l.height + 2) := Nat.fib_mono (by omega)
      rw [max_eq_right hle]
      show Nat.fib (r.height + 1) + Nat.fib (r.height + 2) ≤ _
      omega
    · have hfib : Nat.fib (l.height + 1) ≤ Nat.fib (r.height + 2) := Nat.fib_mono (by omega)
      rw [max_eq_left hle]
      show Nat.fib (l.height + 1) + Nat.fib (l.height + 2) ≤ _
      omega

theorem root?_mem_keys {t : AvlTree α β} {x : α} (h : t.root? = some x) : x ∈ t.keys := by
  cases t with
  | nil => cases h
  | node l k v r =>
    obtain rfl := Option.some.inj h
    exact mem_keys_node.2 (Or.inr (Or.inl rfl))

/-! ## Insertion -/

section

variable [LT α] [DecidableLT α]

/-- A node whose left subtree is too high, after an insertion of `x` there. -/
def balanceLeft (x : α) (l : AvlTree α β) (k : α) (v : β) (r : AvlTree α β) : AvlTree α β :=
  match l with
  | nil => node nil k v r
  | node ll lk lv lr =>
    if x < lk then node ll lk lv (node lr k v r)
    else if lk < x then
      match lr with
      | nil => node (node ll lk lv nil) k v r
      | node a b c d => node (node ll lk lv a) b c (node d k v r)
    else node (node ll lk lv lr) k v r

/-- A node whose right subtree is too high. -/
def balanceRight (x : α) (l : AvlTree α β) (k : α) (v : β) (r : AvlTree α β) : AvlTree α β :=
  match r with
  | nil => node l k v nil
  | node rl rk rv rr =>
    if rk < x then node (node l k v rl) rk rv rr
    else if x < rk then
      match rl with
      | nil => node l k v (node nil rk rv rr)
      | node a b c d => node (node l k v a) b c (node d rk rv rr)
    else node l k v (node rl rk rv rr)

/-- Restore the balance of a node after an insertion of `x` below it. -/
def balance (x : α) (l : AvlTree α β) (k : α) (v : β) (r : AvlTree α β) : AvlTree α β :=
  if r.height + 1 < l.height then balanceLeft x l k v r
  else if l.height + 1 < r.height then balanceRight x l k v r
  else node l k v r

def insert (x : α) (y : β) : AvlTree α β → AvlTree α β
  | nil => node nil x y nil
  | node l k v r =>
    if x < k then balance x (insert x y l) k v r
    else if k < x then balance x l k v (insert x y r)
    else node l k y r

def get? (x : α) : AvlTree α β → Option β
  | nil => none
  | node l k v r => if x < k then get? x l else if k < x then get? x r else some v

/-! ## The entries -/

theorem toList_balanceLeft (x : α) (l : AvlTree α β) (k : α) (v : β) (r : AvlTree α β) :
    (balanceLeft x l k v r).toList = l.toList ++ (k, v) :: r.toList := by
  unfold balanceLeft
  cases l with
  | nil => rfl
  | node ll lk lv lr =>
    dsimp only
    split_ifs
    · simp [toList]
    · cases lr with
      | nil => rfl
      | node a b c d => simp [toList]
    · rfl

theorem toList_balanceRight (x : α) (l : AvlTree α β) (k : α) (v : β) (r : AvlTree α β) :
    (balanceRight x l k v r).toList = l.toList ++ (k, v) :: r.toList := by
  unfold balanceRight
  cases r with
  | nil => rfl
  | node rl rk rv rr =>
    dsimp only
    split_ifs
    · simp [toList]
    · cases rl with
      | nil => rfl
      | node a b c d => simp [toList]
    · rfl

/-- Rotations keep the entries. -/
theorem toList_balance (x : α) (l : AvlTree α β) (k : α) (v : β) (r : AvlTree α β) :
    (balance x l k v r).toList = l.toList ++ (k, v) :: r.toList := by
  unfold balance
  split_ifs
  · exact toList_balanceLeft x l k v r
  · exact toList_balanceRight x l k v r
  · rfl

end

/-! ## The balance -/

section Balance

variable [LT α] [DecidableLT α] [DecidableEq α] [LE α] [Std.IsLinearOrder α] [Std.LawfulOrderLT α]

/-- The subtree with `x` is the higher one, and `x` is at the root of a leaf only. -/
def Leans (x : α) : AvlTree α β → Prop
  | nil => True
  | node l k _ r => (x < k → l.height = r.height + 1) ∧ (k < x → r.height = l.height + 1) ∧
      (x = k → l.height = 0 ∧ r.height = 0)

omit [DecidableEq α] in
/-- A left subtree that grew too high: it leans to `x`, and a rotation brings the old height back. -/
theorem bal_balanceLeft {x k : α} {v : β} {l r : AvlTree α β} (hl : l.Bal) (hr : r.Bal)
    (hh : l.height = r.height + 2) (hlean : l.Leans x) :
    (balanceLeft x l k v r).Bal ∧ (balanceLeft x l k v r).height = l.height := by
  cases l with
  | nil =>
    simp only [height] at hh
    omega
  | node ll lk lv lr =>
    obtain ⟨hlt, hgt, heq⟩ := hlean
    obtain ⟨hb1, hb2, hll, hlr⟩ := hl
    unfold balanceLeft
    simp only [height] at hh ⊢
    by_cases hx : x < lk
    · have := hlt hx
      rw [if_pos hx]
      refine ⟨⟨?_, ?_, hll, ?_, ?_, hlr, hr⟩, ?_⟩ <;> first | omega | (simp only [height]; omega)
    · rw [if_neg hx]
      by_cases hk : lk < x
      · have hlrh := hgt hk
        rw [if_pos hk]
        cases lr with
        | nil =>
          simp only [height] at hlrh
          omega
        | node a b c d =>
          obtain ⟨hb3, hb4, ha, hd⟩ := hlr
          simp only [height] at hlrh hh hb1 hb2
          refine ⟨⟨?_, ?_, ⟨?_, ?_, hll, ha⟩, ?_, ?_, hd, hr⟩, ?_⟩ <;> first | omega | (simp only [height]; omega)
      · have he : x = lk := Std.le_antisymm (Std.not_lt.1 hk) (Std.not_lt.1 hx)
        obtain ⟨h1, h2⟩ := heq he
        omega

omit [DecidableEq α] in
theorem bal_balanceRight {x k : α} {v : β} {l r : AvlTree α β} (hl : l.Bal) (hr : r.Bal)
    (hh : r.height = l.height + 2) (hlean : r.Leans x) :
    (balanceRight x l k v r).Bal ∧ (balanceRight x l k v r).height = r.height := by
  cases r with
  | nil =>
    simp only [height] at hh
    omega
  | node rl rk rv rr =>
    obtain ⟨hlt, hgt, heq⟩ := hlean
    obtain ⟨hb1, hb2, hrl, hrr⟩ := hr
    unfold balanceRight
    simp only [height] at hh ⊢
    by_cases hk : rk < x
    · have := hgt hk
      rw [if_pos hk]
      refine ⟨⟨?_, ?_, ⟨?_, ?_, hl, hrl⟩, hrr⟩, ?_⟩ <;> first | omega | (simp only [height]; omega)
    · rw [if_neg hk]
      by_cases hx : x < rk
      · have hrlh := hlt hx
        rw [if_pos hx]
        cases rl with
        | nil =>
          simp only [height] at hrlh
          omega
        | node a b c d =>
          obtain ⟨hb3, hb4, ha, hd⟩ := hrl
          simp only [height] at hrlh hh hb1 hb2
          refine ⟨⟨?_, ?_, ⟨?_, ?_, hl, ha⟩, ?_, ?_, hd, hrr⟩, ?_⟩ <;> first | omega | (simp only [height]; omega)
      · have he : x = rk := Std.le_antisymm (Std.not_lt.1 hk) (Std.not_lt.1 hx)
        obtain ⟨h1, h2⟩ := heq he
        omega

omit [DecidableEq α] in
/-- **Insertion keeps the balance**; the height grows by at most one, and then the tree leans to `x`. -/
theorem bal_insert {t : AvlTree α β} (h : t.Bal) (x : α) (y : β) :
    (t.insert x y).Bal ∧ t.height ≤ (t.insert x y).height ∧ (t.insert x y).height ≤ t.height + 1 ∧
      ((t.insert x y).height = t.height + 1 → (t.insert x y).Leans x) := by
  induction t with
  | nil =>
    refine ⟨⟨?_, ?_, trivial, trivial⟩, ?_, ?_, fun _ => ⟨fun hx => ?_, fun hx => ?_, fun _ => ⟨rfl, rfl⟩⟩⟩
    · exact Nat.zero_le _
    · exact Nat.zero_le _
    · exact Nat.zero_le _
    · exact Nat.le_refl 1
    · exact absurd hx Std.lt_irrefl
    · exact absurd hx Std.lt_irrefl
  | node l k v r ihl ihr =>
    obtain ⟨h1, h2, hl, hr⟩ := h
    unfold insert
    by_cases hx : x < k
    · obtain ⟨hb, hge, hle, hlean⟩ := ihl hl
      rw [if_pos hx]
      unfold balance
      by_cases hrot : r.height + 1 < (insert x y l).height
      · obtain ⟨hb', hh'⟩ := bal_balanceLeft (k := k) (v := v) hb hr (by omega) (hlean (by omega))
        rw [if_pos hrot]
        refine ⟨hb', ?_, ?_, fun hgrow => ?_⟩
        · rw [hh', height]
          omega
        · rw [hh', height]
          omega
        · rw [hh', height] at hgrow
          omega
      · rw [if_neg hrot, if_neg (by omega)]
        refine ⟨⟨by omega, by omega, hb, hr⟩, ?_, ?_, fun hgrow => ⟨fun _ => ?_, fun hk => ?_, fun he => ?_⟩⟩
        · simp only [height]
          omega
        · simp only [height]
          omega
        · simp only [height] at hgrow
          omega
        · exact absurd (Std.lt_trans hx hk) Std.lt_irrefl
        · exact absurd (he ▸ hx) Std.lt_irrefl
    · rw [if_neg hx]
      by_cases hk : k < x
      · obtain ⟨hb, hge, hle, hlean⟩ := ihr hr
        rw [if_pos hk]
        unfold balance
        by_cases hrot : l.height + 1 < (insert x y r).height
        · obtain ⟨hb', hh'⟩ := bal_balanceRight (k := k) (v := v) hl hb (by omega) (hlean (by omega))
          rw [if_neg (by omega), if_pos hrot]
          refine ⟨hb', ?_, ?_, fun hgrow => ?_⟩
          · rw [hh', height]
            omega
          · rw [hh', height]
            omega
          · rw [hh', height] at hgrow
            omega
        · rw [if_neg (by omega), if_neg hrot]
          refine ⟨⟨by omega, by omega, hl, hb⟩, ?_, ?_, fun hgrow => ⟨fun hx' => ?_, fun _ => ?_, fun he => ?_⟩⟩
          · simp only [height]
            omega
          · simp only [height]
            omega
          · exact absurd hx' hx
          · simp only [height] at hgrow
            omega
          · exact absurd (he ▸ hk) Std.lt_irrefl
      · rw [if_neg hk]
        refine ⟨⟨h1, h2, hl, hr⟩, Nat.le_refl _, Nat.le_succ _, fun hgrow => ?_⟩
        simp only [height] at hgrow
        omega

omit [DecidableEq α] in
/-- A tree grows only where its subtree grew and no rotation was needed. -/
theorem insert_grows_left {x k : α} {y v : β} {l r : AvlTree α β} (h : (node l k v r).Bal) (hx : x < k)
    (hg : ((node l k v r).insert x y).height = (node l k v r).height + 1) :
    (node l k v r).insert x y = node (l.insert x y) k v r ∧ (l.insert x y).height = l.height + 1 ∧
      (l.insert x y).height ≤ r.height + 1 ∧ r.height ≤ (l.insert x y).height + 1 := by
  obtain ⟨h1, h2, hl, hr⟩ := h
  obtain ⟨hb, hge, hle, hlean⟩ := bal_insert hl x y
  rw [insert, if_pos hx, balance] at hg ⊢
  by_cases hrot : r.height + 1 < (insert x y l).height
  · rw [if_pos hrot, (bal_balanceLeft hb hr (by omega) (hlean (by omega))).2, height] at hg
    omega
  · rw [if_neg hrot, if_neg (by omega)] at hg ⊢
    simp only [height] at hg
    refine ⟨rfl, ?_, ?_, ?_⟩ <;> omega

omit [DecidableEq α] in
theorem insert_grows_right {x k : α} {y v : β} {l r : AvlTree α β} (h : (node l k v r).Bal) (hx : ¬ x < k) (hk : k < x)
    (hg : ((node l k v r).insert x y).height = (node l k v r).height + 1) :
    (node l k v r).insert x y = node l k v (r.insert x y) ∧ (r.insert x y).height = r.height + 1 ∧
      (r.insert x y).height ≤ l.height + 1 ∧ l.height ≤ (r.insert x y).height + 1 := by
  obtain ⟨h1, h2, hl, hr⟩ := h
  obtain ⟨hb, hge, hle, hlean⟩ := bal_insert hr x y
  rw [insert, if_neg hx, if_pos hk, balance] at hg ⊢
  rw [if_neg (by omega)] at hg ⊢
  by_cases hrot : l.height + 1 < (insert x y r).height
  · rw [if_pos hrot, (bal_balanceRight hl hb (by omega) (hlean (by omega))).2, height] at hg
    omega
  · rw [if_neg hrot] at hg ⊢
    simp only [height] at hg
    refine ⟨rfl, ?_, ?_, ?_⟩ <;> omega

end Balance

/-! ## The order -/

section Order

variable [LT α] [DecidableLT α] [DecidableEq α] [LE α] [Std.IsLinearOrder α] [Std.LawfulOrderLT α]

omit [DecidableEq α] [DecidableLT α] [LE α] [Std.IsLinearOrder α] [Std.LawfulOrderLT α] in
theorem ordered_node {l r : AvlTree α β} {k : α} {v : β} (h : (node l k v r).Ordered) :
    l.Ordered ∧ r.Ordered ∧ (∀ e ∈ l.toList, e.1 < k) ∧ ∀ e ∈ r.toList, k < e.1 := by
  obtain ⟨hl, hr, hlr⟩ := List.pairwise_append.1 h
  obtain ⟨hk, hr⟩ := List.pairwise_cons.1 hr
  exact ⟨hl, hr, fun e he => hlr e he (k, v) List.mem_cons_self, hk⟩

omit [LE α] [Std.IsLinearOrder α] [Std.LawfulOrderLT α] in
theorem insertEntries_left {x k : α} {y v : β} {a b : List (α × β)} (hx : x < k) :
    SortedMap.insertEntries x y (a ++ (k, v) :: b) = SortedMap.insertEntries x y a ++ (k, v) :: b := by
  induction a with
  | nil => simp [SortedMap.insertEntries, hx]
  | cons e a ih =>
    rw [List.cons_append, SortedMap.insertEntries, SortedMap.insertEntries]
    split_ifs
    · rfl
    · rfl
    · rw [ih, List.cons_append]

theorem insertEntries_skip {x : α} {y : β} {a b : List (α × β)} (ha : ∀ e ∈ a, e.1 < x) :
    SortedMap.insertEntries x y (a ++ b) = a ++ SortedMap.insertEntries x y b := by
  induction a with
  | nil => rfl
  | cons e a ih =>
    have he := ha e List.mem_cons_self
    rw [List.cons_append, SortedMap.insertEntries, if_neg (fun h => Std.lt_irrefl (Std.lt_trans h he)),
      if_neg (fun h => Std.lt_irrefl (h ▸ he)), ih fun e' he' => ha e' (List.mem_cons_of_mem _ he'), List.cons_append]

/-- **Insertion** is insertion into the sorted list of the entries. -/
theorem toList_insert {t : AvlTree α β} (h : t.Ordered) (x : α) (y : β) :
    (t.insert x y).toList = SortedMap.insertEntries x y t.toList := by
  induction t with
  | nil => rfl
  | node l k v r ihl ihr =>
    obtain ⟨hl, hr, hlk, hkr⟩ := ordered_node h
    unfold insert
    by_cases hx : x < k
    · rw [if_pos hx, toList_balance, ihl hl]
      exact (insertEntries_left hx).symm
    · rw [if_neg hx]
      by_cases hk : k < x
      · have hskip : ∀ e ∈ l.toList ++ [(k, v)], e.1 < x := by
          intro e he
          rcases List.mem_append.1 he with he | he
          · exact Std.lt_trans (hlk e he) hk
          · rw [List.mem_singleton.1 he]
            exact hk
        have happ := insertEntries_skip (b := r.toList) (y := y) hskip
        rw [List.append_assoc, List.append_assoc] at happ
        rw [if_pos hk, toList_balance, ihr hr]
        exact happ.symm
      · have he : x = k := Std.le_antisymm (Std.not_lt.1 hk) (Std.not_lt.1 hx)
        subst he
        rw [if_neg hk, toList, toList, insertEntries_skip hlk, SortedMap.insertEntries, if_neg hx, if_pos rfl]

omit [DecidableEq α] [DecidableLT α] [Std.IsLinearOrder α] in
theorem Ordered.nodup {t : AvlTree α β} (h : t.Ordered) : t.keys.Nodup := by
  refine List.pairwise_map.2 (h.imp fun {a b} hlt he => ?_)
  rw [he] at hlt
  exact Std.lt_irrefl hlt

theorem ordered_insert {t : AvlTree α β} (h : t.Ordered) (x : α) (y : β) : (t.insert x y).Ordered := by
  unfold Ordered
  rw [toList_insert h]
  exact SortedMap.insertEntries_sorted h

theorem mem_keys_insert {t : AvlTree α β} (h : t.Ordered) {x z : α} {y : β} :
    z ∈ (t.insert x y).keys ↔ z = x ∨ z ∈ t.keys := by
  have hsorted : ∀ (es : List (α × β)), z ∈ es.map Prod.fst ↔ (SortedMap.lookup z es).isSome = true := by
    intro es
    induction es with
    | nil => simp [SortedMap.lookup]
    | cons e es ih =>
      rw [List.map_cons, List.mem_cons, SortedMap.lookup, ih]
      by_cases he : z = e.1
      · simp [he]
      · simp [he]
  rw [keys, keys, toList_insert h, hsorted, hsorted, SortedMap.lookup_insertEntries]
  by_cases hz : z = x
  · simp [hz]
  · simp [hz]

omit [DecidableLT α] [Std.IsLinearOrder α] in
theorem lookup_append_left {x : α} {a b : List (α × β)} (hb : ∀ e ∈ b, x < e.1) :
    SortedMap.lookup x (a ++ b) = SortedMap.lookup x a := by
  induction a with
  | nil => exact SortedMap.lookup_lt_head hb
  | cons e a ih => rw [List.cons_append, SortedMap.lookup, SortedMap.lookup, ih]

omit [DecidableLT α] [Std.IsLinearOrder α] in
theorem lookup_append_right {x : α} {a b : List (α × β)} (ha : ∀ e ∈ a, e.1 < x) :
    SortedMap.lookup x (a ++ b) = SortedMap.lookup x b := by
  induction a with
  | nil => rfl
  | cons e a ih =>
    rw [List.cons_append, SortedMap.lookup, if_neg (fun h => Std.lt_irrefl (h ▸ ha e List.mem_cons_self)),
      ih fun e' he' => ha e' (List.mem_cons_of_mem _ he')]

/-- **Search** finds what the list of the entries has. -/
theorem get?_eq_lookup {t : AvlTree α β} (h : t.Ordered) (x : α) : t.get? x = SortedMap.lookup x t.toList := by
  induction t with
  | nil => rfl
  | node l k v r ihl ihr =>
    obtain ⟨hl, hr, hlk, hkr⟩ := ordered_node h
    rw [get?, toList]
    by_cases hx : x < k
    · rw [if_pos hx, ihl hl, lookup_append_left]
      intro e he
      rcases List.mem_cons.1 he with rfl | he
      · exact hx
      · exact Std.lt_trans hx (hkr e he)
    · rw [if_neg hx]
      by_cases hk : k < x
      · rw [if_pos hk, ihr hr, List.append_cons, lookup_append_right]
        intro e he
        rcases List.mem_append.1 he with he | he
        · exact Std.lt_trans (hlk e he) hk
        · rw [List.mem_singleton.1 he]
          exact hk
      · have he : x = k := Std.le_antisymm (Std.not_lt.1 hk) (Std.not_lt.1 hx)
        subst he
        rw [if_neg hk, lookup_append_right hlk, SortedMap.lookup, if_pos rfl]

end Order

/-! ## Searching for several keys -/

section Hits

variable [LT α] [DecidableLT α] [DecidableEq α]

/-- The keys of the list that are in the tree, each as often as it is asked for, in pre-order: a node divides
the list among itself and its subtrees. -/
def hits : AvlTree α β → List α → List α
  | nil, _ => []
  | node l k _ r, xs => xs.filter (· = k) ++ (hits l (xs.filter (· < k)) ++ hits r (xs.filter (k < ·)))

theorem hits_nil (t : AvlTree α β) : t.hits [] = [] := by
  induction t with
  | nil => rfl
  | node l k v r ihl ihr => simp [hits, ihl, ihr]

theorem mem_keys_of_mem_hits {t : AvlTree α β} {x : α} {xs : List α} (h : x ∈ t.hits xs) : x ∈ t.keys := by
  induction t generalizing xs with
  | nil => cases h
  | node l k v r ihl ihr =>
    rw [hits, List.mem_append, List.mem_append] at h
    rcases h with h | h | h
    · exact mem_keys_node.2 (Or.inr (Or.inl (of_decide_eq_true (List.mem_filter.1 h).2)))
    · exact mem_keys_node.2 (Or.inl (ihl h))
    · exact mem_keys_node.2 (Or.inr (Or.inr (ihr h)))

variable [LE α] [Std.IsLinearOrder α] [Std.LawfulOrderLT α]

omit [LT α] [DecidableLT α] [LE α] [Std.IsLinearOrder α] [Std.LawfulOrderLT α] in
theorem count_filter_ite (p : α → Bool) (x : α) (xs : List α) :
    (xs.filter p).count x = if p x then xs.count x else 0 := by
  by_cases hp : p x = true
  · rw [if_pos hp, List.count_filter hp]
  · rw [if_neg hp]
    exact List.count_eq_zero.2 fun hx => hp (List.mem_filter.1 hx).2

/-- **One traversal finds what single searches find.** -/
theorem hits_perm (t : AvlTree α β) (xs : List α) : (t.hits xs).Perm (xs.filter fun x => (t.get? x).isSome) := by
  rw [List.perm_iff_count]
  intro x
  induction t generalizing xs with
  | nil => simp [hits, get?]
  | node l k v r ihl ihr =>
    rw [hits, List.count_append, List.count_append, ihl, ihr]
    simp only [count_filter_ite, decide_eq_true_eq, get?]
    by_cases hlt : x < k
    · have hne : ¬ x = k := fun he => Std.lt_irrefl (he ▸ hlt)
      have hgt : ¬ k < x := fun hgt => Std.lt_irrefl (Std.lt_trans hlt hgt)
      simp [hlt, hne, hgt]
    · by_cases hgt : k < x
      · have hne : ¬ x = k := fun he => Std.lt_irrefl (he ▸ hgt)
        simp [hlt, hne, hgt]
      · have he : x = k := Std.le_antisymm (Std.not_lt.1 hgt) (Std.not_lt.1 hlt)
        simp [he, Std.lt_irrefl]

end Hits

end AvlTree
