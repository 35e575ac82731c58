import Sse.Omap.Serves

/-!
# The map that an OMAP holds

`Holds depth x m`: the oblivious map `x` holds the finite map `m`.  As long as `m` has few
enough keys (`Fits`), every call does to `x` what its name says to `m`, and none of them throws.
What is built on an oblivious map can be followed on the finite map.
-/

namespace Sse.Omap

section

variable {n depth fuel : Nat} {x : OMap n × Oram n} {m m' : Bid n → Option Str}

/-- The finite maps that an oblivious map has room for, with a tree that is low enough. -/
def Fits (depth : Nat) (m : Bid n → Option Str) : Prop :=
  ∀ K : Finset (Bid n), (∀ k ∈ K, m k ≠ none) → K.card + 1 < Nat.fib (depth + 5)

/-- A string that comes back from a `Node` as it was. -/
def Short (v : Str) : Prop := NulFree v ∧ v.length ≤ 16

/-- Between calls: the tree has the keys of the map, with its values in zero-filled buffers. -/
structure Holds (depth : Nat) (x : OMap n × Oram n) (m : Bid n → Option Str) : Prop where
  stored : ∃ blocks t, Kept depth x.2 blocks x.1 t ∧ x.2.emptyNodes + t.keys.length = capacity depth ∧
    ∀ k, t.get? k = (m k).map (padTo 16)
  short : ∀ k v, m k = some v → Short v

theorem Fits.mono (h : Fits depth m') (hsub : ∀ k, m k ≠ none → m' k ≠ none) : Fits depth m :=
  fun K hK => h K fun k hk => hsub k (hK k hk)

theorem Fits.of_update {k : Bid n} {v : Str} (h : Fits depth (Function.update m k (some v))) : Fits depth m := by
  refine h.mono fun j hj => ?_
  rw [Function.update_apply]
  split_ifs
  · simp
  · exact hj

theorem isSome_get? {t : Tree n} (hord : t.Ordered) (k : Bid n) : (t.get? k).isSome = true ↔ k ∈ t.keys := by
  rw [AvlTree.get?_eq_lookup hord]
  exact (SortedMap.mem_keys ⟨t.toList, hord⟩ k).symm

/-- A tree of few keys. -/
theorem Fits.few (h : Fits depth m) {t : Tree n} (hord : t.Ordered) (hget : ∀ k, t.get? k = (m k).map (padTo 16)) :
    t.keys.length + 1 < Nat.fib (depth + 5) := by
  rw [← List.toFinset_card_of_nodup hord.nodup]
  refine h _ fun k hk hnone => ?_
  have hsome := (isSome_get? hord k).2 (List.mem_toFinset.1 hk)
  rw [hget, hnone] at hsome
  cases hsome

theorem holds_new {rnd : Nat → Nat} (h : ∀ i, rnd i < 2 ^ depth) :
    Holds depth (OMap.new, Oram.new depth rnd) fun _ : Bid n => none :=
  ⟨⟨fun _ => none, .nil, kept_new h, rfl, fun _ => rfl⟩, fun _ _ hk => nomatch hk⟩

/-- **Any call** that fits. -/
theorem Holds.call (h : Holds depth x m) {c : OmapCall n} (hkeys : c.NonZero)
    (hspare : ∀ t : Tree n, (∃ blocks, Kept depth x.2 blocks x.1 t) → (∀ k, t.get? k = (m k).map (padTo 16)) →
      c.Spares depth t x)
    (hm' : ∀ t : Tree n, t.Ordered ∧ t.Bal → (∀ k, t.get? k = (m k).map (padTo 16)) →
      ∀ k, (c.grow t).get? k = (m' k).map (padTo 16))
    (hshort : ∀ k v, m' k = some v → Short v) (hfit : Fits depth m) (hfit' : Fits depth m')
    (hf : depth + 2 + c.inserts < fuel) :
    ∃ x' out, omapStep depth fuel x c = some (x', out) ∧ c.Serves (fun k => (m k).map (padTo 16)) out ∧
      Holds depth x' m' := by
  obtain ⟨⟨blocks, t, hkept, hcount, hget⟩, -⟩ := h
  have hgrow := (grow_spec ⟨hkept.ordered, hkept.bal⟩ c).1
  have hget' := hm' t ⟨hkept.ordered, hkept.bal⟩ hget
  have hlow := low_of_few hkept.bal (hfit.few hkept.ordered hget)
  have hfew := hfit'.few hgrow.1 hget'
  have hcap := fib_le_capacity depth
  have henough : t.height + c.inserts < fuel := by omega
  obtain ⟨x', out, blocks', hstep, hans, hkept', hcount'⟩ := hkept.serves hcount henough hkeys
    (hspare t ⟨blocks, hkept⟩ hget) (by omega) (low_of_few hgrow.2 hfew)
  rw [show t.get? = fun k => (m k).map (padTo 16) from funext hget] at hans
  exact ⟨x', out, hstep, hans, ⟨blocks', _, hkept', hcount', hget'⟩, hshort⟩

/-- **`OMAP::insert`.** -/
theorem Holds.insert (h : Holds depth x m) {key : Bid n} {value : Str} (hz : key.isZero = false) (hv : Short value)
    (hfit : Fits depth (Function.update m key (some value))) (hf : depth + 3 < fuel) :
    ∃ x', omapStep depth fuel x (.insert key value) = some (x', []) ∧
      Holds depth x' (Function.update m key (some value)) := by
  have hget' : ∀ t : Tree n, t.Ordered ∧ t.Bal → (∀ k, t.get? k = (m k).map (padTo 16)) → ∀ k,
      ((OmapCall.insert key value).grow t).get? k = (Function.update m key (some value) k).map (padTo 16) := by
    intro t ht hget k
    rw [OmapCall.grow, get?_insert ht.1, Function.update_apply, hget]
    split_ifs <;> rfl
  have hshort : ∀ k v, Function.update m key (some value) k = some v → Short v := by
    intro k v hk
    rw [Function.update_apply] at hk
    split_ifs at hk
    · obtain rfl := Option.some.inj hk
      exact hv
    · exact h.short k v hk
  obtain ⟨x', out, hstep, hans, h'⟩ := h.call (c := .insert key value) hz (fun _ _ _ => trivial) hget' hshort hfit.of_update hfit hf
  obtain rfl := hans
  exact ⟨x', hstep, h'⟩

/-- **`OMAP::find`.** -/
theorem Holds.find (h : Holds depth x m) (key : Bid n) (hfit : Fits depth m) (hf : depth + 2 < fuel) :
    ∃ x', omapStep depth fuel x (.find key) = some (x', [(m key).getD []]) ∧ Holds depth x' m := by
  obtain ⟨x', out, hstep, hans, h'⟩ := h.call (c := .find key) trivial (fun _ _ _ => trivial) (fun t _ hget => hget) h.short
    hfit hfit hf
  refine ⟨x', ?_, h'⟩
  have hout : out = [(((m key).map (padTo 16)).map cStr).getD []] := hans
  rw [hstep, hout]
  cases hm : m key with
  | none => rfl
  | some v =>
    obtain ⟨hnul, hlen⟩ := h.short key v hm
    rw [Option.map_some, Option.map_some, cStr_padTo hnul hlen]

/-- **`OMAP::batchSearch`** gives the buffers of the values. -/
theorem Holds.batchSearch (h : Holds depth x m) (keys : List (Bid n)) (hfit : Fits depth m) (hf : depth + 2 < fuel) :
    ∃ x' out, omapStep depth fuel x (.batchSearch keys) = some (x', out) ∧
      out.Perm ((keys.filterMap m).map (padTo 16)) ∧ Holds depth x' m := by
  obtain ⟨x', out, hstep, hans, h'⟩ := h.call (c := .batchSearch keys) trivial (fun _ _ _ => trivial) (fun t _ hget => hget)
    h.short hfit hfit hf
  refine ⟨x', out, hstep, ?_, h'⟩
  rw [List.map_filterMap]
  exact hans

/-- **`OMAP::batchInsert`** into an empty map. -/
theorem Holds.batchInsert (h : Holds depth x fun _ => none) (pairs : SortedMap (Bid n) Str)
    (hz : ∀ e ∈ pairs.entries, e.1.isZero = false) (hv : ∀ e ∈ pairs.entries, Short e.2) (hfit : Fits depth pairs.get?)
    (hf : depth + 2 + pairs.entries.length < fuel) :
    ∃ x', omapStep depth fuel x (.batchInsert pairs) = some (x', []) ∧ Holds depth x' pairs.get? := by
  have hspare : ∀ t : Tree n, (∃ blocks, Kept depth x.2 blocks x.1 t) →
      (∀ k, t.get? k = ((fun _ => none : Bid n → Option Str) k).map (padTo 16)) →
      (OmapCall.batchInsert pairs).Spares depth t x := by
    rintro t ⟨blocks, hkept⟩ hget
    cases t with
    | nil => exact ⟨fun _ => hkept.repr, hkept.spares_empty pairs.entries⟩
    | node l k v r =>
      have hsome := (isSome_get? hkept.ordered k).2 (AvlTree.mem_keys_node.2 (Or.inr (Or.inl rfl)))
      rw [hget] at hsome
      cases hsome
  have hget' : ∀ t : Tree n, t.Ordered ∧ t.Bal → (∀ k, t.get? k = ((fun _ => none : Bid n → Option Str) k).map (padTo 16)) →
      ∀ k, ((OmapCall.batchInsert pairs).grow t).get? k = (pairs.get? k).map (padTo 16) := by
    intro t ht hget k
    refine (congrFun (get?_grow ht (.batchInsert pairs)) k).trans ?_
    rw [OmapCall.assign, pairs.foldl_update_map fun v => some (padTo 16 v), hget]
    cases pairs.get? k <;> rfl
  obtain ⟨x', out, hstep, hans, h'⟩ := h.call (c := .batchInsert pairs) hz hspare hget'
    (fun k v hk => hv _ ((pairs.mem_entries k v).2 hk)) (hfit.mono fun k hk => absurd rfl hk) hfit hf
  obtain rfl := hans
  exact ⟨x', hstep, h'⟩

end

end Sse.Omap
