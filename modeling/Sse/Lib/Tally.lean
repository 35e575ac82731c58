import Sse.Lib.SortedMap

/-!
# Signed counts

`map[k] += d` over a list of pairs, in a map of 32-bit counts.  As long as fewer than
`2 ^ 31` steps of at most one up or down are counted, nothing wraps, and the keys with a
positive (negative) count are those whose steps sum to more (less) than zero.

    k ∈ (count es).keysWhere (0 < ·) ↔ 0 < net es k                       (mem_count_pos)
    k ∈ (count es).keysWhere (· < 0) ↔ net es k < 0                       (mem_count_neg)
-/

namespace Tally

variable {α : Type*} [DecidableEq α]

/-- The sum of the steps of a key. -/
def net (es : List (α × Int)) (k : α) : Int := ((es.filter fun e => e.1 = k).map Prod.snd).sum

theorem net_append (es es' : List (α × Int)) (k : α) : net (es ++ es') k = net es k + net es' k := by
  simp [net, List.filter_append]

theorem net_singleton (k k' : α) (d : Int) : net [(k, d)] k' = if k = k' then d else 0 := by
  by_cases h : k = k' <;> simp [net, h]

theorem abs_net_le {es : List (α × Int)} (h : ∀ e ∈ es, |e.2| ≤ 1) (k : α) : |net es k| ≤ es.length := by
  induction es using List.reverseRecOn with
  | nil => simp [net]
  | append_singleton es e ih =>
    have hd : |net [(e.1, e.2)] k| ≤ 1 := by
      rw [net_singleton]
      split
      · exact h e (by simp)
      · simp
    rw [net_append, List.length_append, List.length_singleton, Nat.cast_add]
    calc |net es k + net [e] k| ≤ |net es k| + |net [e] k| := abs_add_le _ _
      _ ≤ es.length + (1 : Nat) := add_le_add (ih fun x hx => h x (List.mem_append_left _ hx)) (by exact_mod_cast hd)

theorem exists_of_net_ne_zero {es : List (α × Int)} {k : α} (h : net es k ≠ 0) : ∃ e ∈ es, e.1 = k := by
  by_contra hno
  apply h
  have hnil : es.filter (fun e => e.1 = k) = [] := by
    rw [List.filter_eq_nil_iff]
    intro e he
    simpa using fun hk => hno ⟨e, he, hk⟩
  rw [net, hnil]
  rfl

theorem net_perm {es es' : List (α × Int)} (h : es.Perm es') (k : α) : net es k = net es' k :=
  ((h.filter _).map _).sum_eq

theorem toInt_net {es : List (α × Int)} (h : ∀ e ∈ es, |e.2| ≤ 1) (hb : es.length < 2 ^ 31) (k : α) :
    (Int32.ofInt (net es k)).toInt = net es k := by
  have hn := abs_le.1 (abs_net_le h k)
  exact Int32.toInt_ofInt_of_le (by omega) (by omega)

variable [LT α] [DecidableLT α] [LE α] [Std.IsLinearOrder α] [Std.LawfulOrderLT α]

/-- `m[k] += d`. -/
def add (m : SortedMap α Int32) (e : α × Int) : SortedMap α Int32 := m.alter e.1 0 (· + Int32.ofInt e.2)

def count (es : List (α × Int)) : SortedMap α Int32 := es.foldl add SortedMap.empty

theorem getD_count (es : List (α × Int)) (k : α) : ((count es).get? k).getD 0 = Int32.ofInt (net es k) := by
  induction es using List.reverseRecOn with
  | nil => rfl
  | append_singleton es e ih =>
    have hstep : count (es ++ [e]) = add (count es) e := by
      unfold count
      rw [List.foldl_append, List.foldl_cons, List.foldl_nil]
    rw [hstep, add, SortedMap.getD_alter, net_append, net_singleton]
    by_cases h : k = e.1
    · rw [if_pos h, if_pos h.symm, ← h, ih, Int32.ofInt_add]
    · rw [if_neg h, if_neg (Ne.symm h), ih, add_zero]

theorem mem_count_pos_iff {es : List (α × Int)} {k : α} :
    k ∈ (count es).keysWhere (0 < ·) ↔ 0 < Int32.ofInt (net es k) := by
  rw [SortedMap.mem_keysWhere, ← getD_count]
  cases (count es).get? k with
  | none => simp
  | some v => simp

theorem mem_count_neg_iff {es : List (α × Int)} {k : α} :
    k ∈ (count es).keysWhere (· < 0) ↔ Int32.ofInt (net es k) < 0 := by
  rw [SortedMap.mem_keysWhere, ← getD_count]
  cases (count es).get? k with
  | none => simp
  | some v => simp

theorem mem_count_pos {es : List (α × Int)} (h : ∀ e ∈ es, |e.2| ≤ 1) (hb : es.length < 2 ^ 31) (k : α) :
    k ∈ (count es).keysWhere (0 < ·) ↔ 0 < net es k := by
  rw [mem_count_pos_iff, Int32.lt_iff_toInt_lt, toInt_net h hb]
  rfl

theorem mem_count_neg {es : List (α × Int)} (h : ∀ e ∈ es, |e.2| ≤ 1) (hb : es.length < 2 ^ 31) (k : α) :
    k ∈ (count es).keysWhere (· < 0) ↔ net es k < 0 := by
  rw [mem_count_neg_iff, Int32.lt_iff_toInt_lt, toInt_net h hb]
  rfl

end Tally
