import Mathlib

/-!
# Sorted maps

A map kept as the list of its entries in ascending order of the keys: what `std::map`
iterates over.  The order is a field, so every map built here iterates in key order.

    (m.insert k v).get? k' = if k' = k then some v else m.get? k'         (get?_insert)
    (k, v) ∈ m.entries ↔ m.get? k = some v                                (mem_entries)
-/

structure SortedMap (α β : Type*) [LT α] where
  entries : List (α × β)
  sorted : entries.Pairwise fun a b => a.1 < b.1

namespace SortedMap

variable {α β γ : Type*} [LT α]

theorem ext_entries {m m' : SortedMap α β} (h : m.entries = m'.entries) : m = m' := by
  cases m; cases m'; cases h; rfl

def empty : SortedMap α β := ⟨[], List.Pairwise.nil⟩

/-- The keys that satisfy `p`, in ascending order. -/
def keysWhere (m : SortedMap α β) (p : β → Bool) : List α :=
  (m.entries.filter fun e => p e.2).map Prod.fst

theorem length_keysWhere_le (m : SortedMap α β) (p : β → Bool) : (m.keysWhere p).length ≤ m.entries.length := by
  rw [keysWhere, List.length_map]
  exact List.length_filter_le _ _

theorem keysWhere_sorted (m : SortedMap α β) (p : β → Bool) : (m.keysWhere p).Pairwise (· < ·) :=
  List.pairwise_map.2 (m.sorted.filter _)

variable [DecidableEq α]

def lookup (k : α) : List (α × β) → Option β
  | [] => none
  | (k', v) :: es => if k = k' then some v else lookup k es

def get? (m : SortedMap α β) (k : α) : Option β := lookup k m.entries

@[simp] theorem get?_empty (k : α) : (empty : SortedMap α β).get? k = none := rfl

/-- `m.erase(k)`. -/
def erase (m : SortedMap α β) (k : α) : SortedMap α β := ⟨m.entries.filter fun e => e.1 ≠ k, m.sorted.filter _⟩

theorem get?_erase (m : SortedMap α β) (k k' : α) : (m.erase k).get? k' = if k' = k then none else m.get? k' := by
  obtain ⟨es, h⟩ := m
  show lookup k' (es.filter fun e => e.1 ≠ k) = if k' = k then none else lookup k' es
  clear h
  induction es with
  | nil => simp [lookup]
  | cons e es ih =>
    by_cases he : e.1 = k
    · rw [List.filter_cons_of_neg (by simpa using he), ih]
      by_cases hk : k' = k
      · rw [if_pos hk, if_pos hk]
      · rw [if_neg hk, if_neg hk, lookup, if_neg (by rw [he]; exact hk)]
    · rw [List.filter_cons_of_pos (by simpa using he), lookup, lookup, ih]
      by_cases hk : k' = k
      · rw [if_pos hk, if_pos hk, if_neg (by rw [hk]; exact Ne.symm he)]
      · rw [if_neg hk, if_neg hk]

variable [DecidableLT α]

/-- Overwrite the entry of `k`, or put a new one in its place in the order. -/
def insertEntries (k : α) (v : β) : List (α × β) → List (α × β)
  | [] => [(k, v)]
  | (k', v') :: es =>
    if k < k' then (k, v) :: (k', v') :: es
    else if k = k' then (k, v) :: es
    else (k', v') :: insertEntries k v es

theorem key_of_mem_insertEntries {k : α} {v : β} {es : List (α × β)} {e : α × β}
    (h : e ∈ insertEntries k v es) : e.1 = k ∨ e ∈ es := by
  induction es with
  | nil =>
    simp only [insertEntries, List.mem_singleton] at h
    exact Or.inl (by rw [h])
  | cons e' es ih =>
    unfold insertEntries at h
    split_ifs at h
    · rcases List.mem_cons.1 h with rfl | h
      · exact Or.inl rfl
      · exact Or.inr h
    · rcases List.mem_cons.1 h with rfl | h
      · exact Or.inl rfl
      · exact Or.inr (List.mem_cons_of_mem _ h)
    · rcases List.mem_cons.1 h with rfl | h
      · exact Or.inr List.mem_cons_self
      · exact (ih h).imp_right (List.mem_cons_of_mem _)

theorem length_insertEntries_le (k : α) (v : β) (es : List (α × β)) :
    (insertEntries k v es).length ≤ es.length + 1 := by
  induction es with
  | nil => exact Nat.le_refl _
  | cons e es ih =>
    unfold insertEntries
    split_ifs
    · exact Nat.le_refl _
    · simp
    · simpa using ih

theorem lookup_insertEntries {k k' : α} {v : β} {es : List (α × β)} :
    lookup k' (insertEntries k v es) = if k' = k then some v else lookup k' es := by
  induction es with
  | nil => rfl
  | cons e es ih =>
    unfold insertEntries
    by_cases hlt : k < e.1
    · rw [if_pos hlt]
      rfl
    · rw [if_neg hlt]
      by_cases he : k = e.1
      · rw [if_pos he]
        by_cases hk : k' = k
        · simp [lookup, hk]
        · simp [lookup, hk, ← he]
      · rw [if_neg he]
        by_cases hk : k' = k
        · subst hk
          simp [lookup, he, ih]
        · simp [lookup, ih, hk]

section Order

variable [LE α] [Std.IsLinearOrder α] [Std.LawfulOrderLT α]

theorem insertEntries_sorted {k : α} {v : β} {es : List (α × β)}
    (h : es.Pairwise fun a b => a.1 < b.1) :
    (insertEntries k v es).Pairwise fun a b => a.1 < b.1 := by
  induction es with
  | nil => exact List.pairwise_singleton _ _
  | cons e es ih =>
    obtain ⟨hhd, htl⟩ := List.pairwise_cons.1 h
    unfold insertEntries
    split_ifs with hlt heq
    · refine List.pairwise_cons.2 ⟨fun a ha => ?_, h⟩
      rcases List.mem_cons.1 ha with rfl | ha
      · exact hlt
      · exact Std.lt_trans hlt (hhd a ha)
    · exact List.pairwise_cons.2 ⟨fun a ha => heq ▸ hhd a ha, htl⟩
    · refine List.pairwise_cons.2 ⟨fun a ha => ?_, ih htl⟩
      rcases key_of_mem_insertEntries ha with hk | ha
      · rw [hk]
        exact Std.lt_of_le_of_ne (Std.not_lt.1 hlt) (Ne.symm heq)
      · exact hhd a ha

/-- `m[k] = v`. -/
def insert (m : SortedMap α β) (k : α) (v : β) : SortedMap α β :=
  ⟨insertEntries k v m.entries, insertEntries_sorted m.sorted⟩

theorem get?_insert (m : SortedMap α β) (k k' : α) (v : β) :
    (m.insert k v).get? k' = if k' = k then some v else m.get? k' :=
  lookup_insertEntries

omit [DecidableLT α] [Std.IsLinearOrder α] in
theorem lookup_lt_head {k : α} {es : List (α × β)} (h : ∀ e ∈ es, k < e.1) : lookup k es = none := by
  induction es with
  | nil => rfl
  | cons e es ih =>
    rw [lookup, if_neg fun he => Std.lt_irrefl (he ▸ h e List.mem_cons_self)]
    exact ih fun e' he' => h e' (List.mem_cons_of_mem _ he')

/-- `m[k] = m[k]`. -/
theorem insert_self {m : SortedMap α β} {k : α} {v : β} (h : m.get? k = some v) : m.insert k v = m := by
  refine ext_entries ?_
  obtain ⟨es, hs⟩ := m
  replace h : lookup k es = some v := h
  show insertEntries k v es = es
  induction es with
  | nil => cases h
  | cons e es ih =>
    obtain ⟨hhd, htl⟩ := List.pairwise_cons.1 hs
    unfold insertEntries
    by_cases hlt : k < e.1
    · -- the key would stand before the head
      have hnone : lookup k (e :: es) = none := lookup_lt_head fun e' he' => by
        rcases List.mem_cons.1 he' with rfl | he'
        · exact hlt
        · exact Std.lt_trans hlt (hhd e' he')
      rw [hnone] at h
      cases h
    · rw [if_neg hlt]
      rw [lookup] at h
      by_cases he : k = e.1
      · rw [if_pos he] at h ⊢
        rw [he, ← Option.some.inj h]
      · rw [if_neg he] at h ⊢
        rw [ih htl h]

/-- `m[k] = f m[k]`, where an absent entry is first created as `d`. -/
def alter (m : SortedMap α β) (k : α) (d : β) (f : β → β) : SortedMap α β :=
  m.insert k (f ((m.get? k).getD d))

theorem length_alter_le (m : SortedMap α β) (k : α) (d : β) (f : β → β) :
    (m.alter k d f).entries.length ≤ m.entries.length + 1 := length_insertEntries_le _ _ _

theorem getD_alter (m : SortedMap α β) (k k' : α) (d : β) (f : β → β) :
    ((m.alter k d f).get? k').getD d = if k' = k then f ((m.get? k).getD d) else (m.get? k').getD d := by
  unfold alter
  rw [get?_insert]
  split <;> rfl

omit [DecidableLT α] [Std.IsLinearOrder α] in
theorem lookup_eq_some {k : α} {v : β} {es : List (α × β)} (h : es.Pairwise fun a b => a.1 < b.1) :
    lookup k es = some v ↔ (k, v) ∈ es := by
  induction es with
  | nil => simp [lookup]
  | cons e es ih =>
    obtain ⟨hhd, htl⟩ := List.pairwise_cons.1 h
    rw [lookup, List.mem_cons]
    split_ifs with hk
    · subst hk
      constructor
      · intro hv
        exact Or.inl (Prod.ext rfl (Option.some.inj hv).symm)
      · rintro (he | hm)
        · rw [← he]
        · exact absurd (hhd _ hm) (Std.lt_irrefl)
    · rw [ih htl]
      constructor
      · exact Or.inr
      · rintro (he | hm)
        · exact absurd (congrArg Prod.fst he) hk
        · exact hm

omit [DecidableLT α] [Std.IsLinearOrder α] in
theorem mem_entries (m : SortedMap α β) (k : α) (v : β) : (k, v) ∈ m.entries ↔ m.get? k = some v :=
  (lookup_eq_some m.sorted).symm

omit [DecidableLT α] [Std.IsLinearOrder α] in
theorem mem_keysWhere {m : SortedMap α β} {p : β → Bool} {k : α} :
    k ∈ m.keysWhere p ↔ ∃ v, m.get? k = some v ∧ p v = true := by
  unfold keysWhere
  simp only [List.mem_map, List.mem_filter, Prod.exists, exists_and_right, exists_eq_right,
    mem_entries]

/-- `m.insert({k, v})`, which leaves an entry that is there. -/
def insertNew (m : SortedMap α β) (k : α) (v : β) : SortedMap α β :=
  match m.get? k with
  | some _ => m
  | none => m.insert k v

theorem get?_insertNew {m : SortedMap α β} {k : α} (h : m.get? k = none) (k' : α) (v : β) :
    (m.insertNew k v).get? k' = if k' = k then some v else m.get? k' := by
  unfold insertNew
  rw [h]
  exact get?_insert m k k' v

omit [DecidableLT α] [Std.IsLinearOrder α] in
/-- Writing the entries out one after the other: each key keeps what is made of its own value. -/
theorem foldl_update_map (m : SortedMap α β) (g : β → γ) (f : α → γ) (k : α) :
    (m.entries.foldl (fun f e => Function.update f e.1 (g e.2)) f) k = ((m.get? k).map g).getD (f k) := by
  obtain ⟨es, h⟩ := m
  show _ = ((lookup k es).map g).getD (f k)
  induction es generalizing f with
  | nil => rfl
  | cons e es ih =>
    obtain ⟨hhd, htl⟩ := List.pairwise_cons.1 h
    rw [List.foldl_cons, ih _ htl, lookup]
    by_cases hk : k = e.1
    · have hnone : lookup k es = none := lookup_lt_head fun e' he' => hk ▸ hhd e' he'
      rw [if_pos hk, hnone, hk, Option.map_none, Option.getD_none, Function.update_self]
      rfl
    · rw [if_neg hk, Function.update_of_ne hk]

omit [DecidableLT α] [Std.IsLinearOrder α] in
theorem foldl_update_entries (m : SortedMap α β) (f : α → β) (k : α) :
    (m.entries.foldl (fun g e => Function.update g e.1 e.2) f) k = (m.get? k).getD (f k) := by
  have h := foldl_update_map m id f k
  rw [Option.map_id_fun, id] at h
  exact h

omit [DecidableLT α] [Std.IsLinearOrder α] in
theorem mem_keys (m : SortedMap α β) (k : α) : k ∈ m.entries.map Prod.fst ↔ (m.get? k).isSome = true := by
  rw [List.mem_map, Option.isSome_iff_exists]
  constructor
  · rintro ⟨e, he, rfl⟩
    exact ⟨e.2, (mem_entries m e.1 e.2).1 he⟩
  · rintro ⟨v, hv⟩
    exact ⟨(k, v), (mem_entries m k v).2 hv, rfl⟩

omit [DecidableLT α] in
/-- Two maps with the same keys list them alike. -/
theorem keys_eq {m : SortedMap α β} {m' : SortedMap α γ} (h : ∀ k, (m.get? k).isSome = (m'.get? k).isSome) :
    m.entries.map Prod.fst = m'.entries.map Prod.fst := by
  have hirr : @Std.Irrefl α (· < ·) := ⟨fun _ => Std.lt_irrefl⟩
  have hanti : @Std.Antisymm α (· < ·) := ⟨fun a b h h' => absurd (Std.lt_trans h h') Std.lt_irrefl⟩
  refine List.Pairwise.eq_of_mem_iff (List.pairwise_map.2 m.sorted) (List.pairwise_map.2 m'.sorted) fun k => ?_
  rw [mem_keys, mem_keys, h k]

omit [DecidableLT α] in
/-- A map is what it answers. -/
theorem ext_get? {m m' : SortedMap α β} (h : ∀ k, m.get? k = m'.get? k) : m = m' := by
  have hirr : Std.Irrefl fun a b : α × β => a.1 < b.1 := ⟨fun _ => Std.lt_irrefl⟩
  have hanti : Std.Antisymm fun a b : α × β => a.1 < b.1 := ⟨fun a b h h' => absurd (Std.lt_trans h h') Std.lt_irrefl⟩
  refine ext_entries (List.Pairwise.eq_of_mem_iff m.sorted m'.sorted fun e => ?_)
  rw [mem_entries m e.1 e.2, mem_entries m' e.1 e.2, h e.1]

theorem insert_insert (m : SortedMap α β) (k : α) (v w : β) : (m.insert k v).insert k w = m.insert k w := by
  refine ext_get? fun j => ?_
  rw [get?_insert, get?_insert, get?_insert]
  split_ifs <;> rfl

/-- A map filled by `m.insert({k, v})`: the first value of every key stays. -/
def ofList (es : List (α × β)) : SortedMap α β := es.foldl (fun m e => m.insertNew e.1 e.2) empty

theorem ofList_concat (es : List (α × β)) (e : α × β) : ofList (es ++ [e]) = (ofList es).insertNew e.1 e.2 := by
  rw [ofList, List.foldl_append]
  rfl

theorem length_ofList_le (es : List (α × β)) : (ofList es).entries.length ≤ es.length := by
  induction es using List.reverseRecOn with
  | nil => exact Nat.le_refl _
  | append_singleton es e ih =>
    rw [ofList_concat, insertNew, List.length_append, List.length_singleton]
    split
    · exact ih.trans (Nat.le_succ _)
    · exact (length_insertEntries_le _ _ _).trans (Nat.succ_le_succ ih)

theorem isSome_ofList (es : List (α × β)) (k : α) : ((ofList es).get? k).isSome = true ↔ k ∈ es.map Prod.fst := by
  induction es using List.reverseRecOn with
  | nil => simp [ofList]
  | append_singleton es e ih =>
    rw [ofList_concat, List.map_append, List.mem_append, ← ih, List.map_singleton, List.mem_singleton]
    cases hold : (ofList es).get? e.1 with
    | some v =>
      rw [insertNew, hold]
      constructor
      · exact Or.inl
      · rintro (h | rfl)
        · exact h
        · rw [hold]
          rfl
    | none =>
      rw [get?_insertNew hold]
      by_cases hk : k = e.1
      · simp [hk]
      · simp [hk]

theorem mem_of_ofList {es : List (α × β)} {k : α} {v : β} (h : (ofList es).get? k = some v) : (k, v) ∈ es := by
  induction es using List.reverseRecOn with
  | nil => cases h
  | append_singleton es e ih =>
    rw [ofList_concat] at h
    cases hold : (ofList es).get? e.1 with
    | some w =>
      rw [insertNew, hold] at h
      exact List.mem_append_left _ (ih h)
    | none =>
      rw [get?_insertNew hold] at h
      by_cases hk : k = e.1
      · rw [if_pos hk] at h
        rw [hk, ← Option.some.inj h]
        simp
      · rw [if_neg hk] at h
        exact List.mem_append_left _ (ih h)

end Order

end SortedMap
