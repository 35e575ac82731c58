import Sse.Janus.Server

/-!
# Epochs

The history of a keyword in a sequence of calls: an epoch collects its insertions and
deletions, and a search that finds either of them ends it.  An ind that was inserted in
an epoch is alive as long as neither this epoch nor a later one deletes it:

    alive (epochs ++ [ep]) = (alive epochs ++ ep.ins) without ep.del          (alive_concat)
-/

namespace Sse.Janus

structure Epoch where
  ins : List UInt64
  del : List UInt64
deriving DecidableEq

structure History where
  ended : List Epoch
  current : Epoch

def History.init : History := ⟨[], ⟨[], []⟩⟩

def Op.key {R : Type} : Op R → Str
  | .insertKeyword key _ _ => key
  | .deleteKeyword key _ => key
  | .searchKeyword key _ => key

/-- What a call adds to the history of `w`. -/
def History.next {R : Type} (w : Str) (h : History) : Op R → History
  | .insertKeyword key ind _ => if key = w then ⟨h.ended, ⟨h.current.ins ++ [ind], h.current.del⟩⟩ else h
  | .deleteKeyword key ind => if key = w then ⟨h.ended, ⟨h.current.ins, h.current.del ++ [ind]⟩⟩ else h
  | .searchKeyword key _ => if key = w ∧ h.current ≠ ⟨[], []⟩ then ⟨h.ended ++ [h.current], ⟨[], []⟩⟩ else h

def history {R : Type} (w : Str) (us : List (Op R)) : History := us.foldl (History.next w) .init

/-- The insertions that no epoch from theirs on deletes. -/
def alive : List Epoch → List UInt64
  | [] => []
  | ep :: later => ep.ins.filter (fun ind => ∀ ep' ∈ ep :: later, ind ∉ ep'.del) ++ alive later

/-- What a search in the current epoch has to return. -/
def History.alive (h : History) : List UInt64 := Janus.alive (h.ended ++ [h.current])

/-- The counters of the history fit into 32 bits. -/
structure History.Small (h : History) : Prop where
  ended : h.ended.length < 2 ^ 32
  epochs : ∀ ep ∈ h.ended ++ [h.current], ep.ins.length < 2 ^ 32 ∧ ep.del.length < 2 ^ 32

/-- No two threads take entries from an unlocked map: the entries are in RocksDB, or a search with as many
insertions and deletions takes at most one of a kind. -/
def Path.Lone (usehdd : Bool) (ins del : Nat) : Path → Prop
  | .search _ _ => usehdd = true ∨ (ins ≤ 1 ∧ del ≤ 1)
  | .searchParallel _ _ _ => usehdd = true ∨ del ≤ 1

/-- So it is with the call after `pre`. -/
def Lone {R : Type} (usehdd : Bool) (pre : List (Op R)) : Op R → Prop
  | .searchKeyword w path =>
    path.Lone usehdd (history w pre).current.ins.length (history w pre).current.del.length
  | .insertKeyword _ _ _ | .deleteKeyword _ _ => True

theorem Path.lone_hdd (ins del : Nat) (path : Path) : path.Lone true ins del := by
  cases path <;> exact Or.inl rfl

theorem history_concat {R : Type} (w : Str) (us : List (Op R)) (u : Op R) :
    history w (us ++ [u]) = (history w us).next w u := by
  rw [history, history, List.foldl_append]
  rfl

/-- **One more epoch.** -/
theorem alive_concat (eps : List Epoch) (ep : Epoch) :
    alive (eps ++ [ep]) = (alive eps ++ ep.ins).filter (· ∉ ep.del) := by
  induction eps with
  | nil => simp [alive]
  | cons e eps ih =>
    have hfilter : e.ins.filter (fun ind => ∀ ep' ∈ e :: (eps ++ [ep]), ind ∉ ep'.del) =
        (e.ins.filter fun ind => ∀ ep' ∈ e :: eps, ind ∉ ep'.del).filter (· ∉ ep.del) := by
      rw [List.filter_filter]
      apply List.filter_congr
      intro ind _
      rw [← Bool.decide_and, decide_eq_decide]
      constructor
      · intro h
        exact ⟨h ep (by simp), fun ep' hep => h ep' (by
          rcases List.mem_cons.1 hep with rfl | hep
          · exact List.mem_cons_self
          · exact List.mem_cons_of_mem _ (List.mem_append_left _ hep))⟩
      · rintro ⟨h1, h2⟩ ep' hep
        rcases List.mem_cons.1 hep with rfl | hep
        · exact h2 ep' List.mem_cons_self
        · rcases List.mem_append.1 hep with hep | hep
          · exact h2 ep' (List.mem_cons_of_mem _ hep)
          · rw [List.mem_singleton.1 hep]
            exact h1
    rw [List.cons_append, alive, alive, ih, hfilter, ← List.filter_append, List.append_assoc]

/-- An empty epoch changes nothing. -/
theorem alive_concat_empty (eps : List Epoch) : alive (eps ++ [⟨[], []⟩]) = alive eps := by
  rw [alive_concat]
  simp

theorem next_ended_of_ne {R : Type} {w : Str} {h : History} {u : Op R} (hu : u.key ≠ w) : h.next w u = h := by
  cases u with
  | insertKeyword key ind s => exact if_neg hu
  | deleteKeyword key ind => exact if_neg hu
  | searchKeyword key path => exact if_neg fun hk => hu hk.1

/-- The counters grow. -/
theorem History.Small.of_next {R : Type} {w : Str} {h : History} {u : Op R} (hs : (h.next w u).Small) : h.Small := by
  cases u with
  | insertKeyword key ind s =>
    simp only [History.next] at hs
    split_ifs at hs with hk
    · refine ⟨hs.ended, fun ep hep => ?_⟩
      rcases List.mem_append.1 hep with hep | hep
      · exact hs.epochs ep (List.mem_append_left _ hep)
      · have hcur := hs.epochs ⟨h.current.ins ++ [ind], h.current.del⟩ (by simp)
        rw [List.length_append, List.length_singleton] at hcur
        rw [List.mem_singleton.1 hep]
        exact ⟨by omega, hcur.2⟩
    · exact hs
  | deleteKeyword key ind =>
    simp only [History.next] at hs
    split_ifs at hs with hk
    · refine ⟨hs.ended, fun ep hep => ?_⟩
      rcases List.mem_append.1 hep with hep | hep
      · exact hs.epochs ep (List.mem_append_left _ hep)
      · have hcur := hs.epochs ⟨h.current.ins, h.current.del ++ [ind]⟩ (by simp)
        rw [List.length_append, List.length_singleton] at hcur
        rw [List.mem_singleton.1 hep]
        exact ⟨hcur.1, by omega⟩
    · exact hs
  | searchKeyword key path =>
    simp only [History.next] at hs
    split_ifs at hs with hk
    · have hended := hs.ended
      rw [List.length_append, List.length_singleton] at hended
      exact ⟨by omega, fun ep hep => hs.epochs ep (List.mem_append_left _ hep)⟩
    · exact hs

theorem History.Small.of_next_concat {R : Type} {w : Str} {us : List (Op R)} {u : Op R}
    (hs : (history w (us ++ [u])).Small) : (history w us).Small := by
  rw [history_concat] at hs
  exact hs.of_next

theorem ended_le_next {R : Type} (w : Str) (h : History) (u : Op R) : h.ended.length ≤ (h.next w u).ended.length := by
  unfold History.next
  cases u with
  | insertKeyword key ind s => simp only; split_ifs <;> exact le_rfl
  | deleteKeyword key ind => simp only; split_ifs <;> exact le_rfl
  | searchKeyword key path =>
    simp only
    split_ifs
    · rw [List.length_append]
      omega
    · exact le_rfl

theorem ended_le_append {R : Type} (w : Str) (us rest : List (Op R)) :
    (history w us).ended.length ≤ (history w (us ++ rest)).ended.length := by
  induction rest using List.reverseRecOn with
  | nil => rw [List.append_nil]
  | append_singleton rest u ih =>
    rw [← List.append_assoc, history_concat]
    exact le_trans ih (ended_le_next w _ u)

theorem History.Small.of_append {R : Type} {w : Str} {us rest : List (Op R)} (hs : (history w (us ++ rest)).Small) :
    (history w us).Small := by
  induction rest using List.reverseRecOn with
  | nil => rwa [List.append_nil] at hs
  | append_singleton rest u ih =>
    rw [← List.append_assoc] at hs
    exact ih hs.of_next_concat

/-- No epoch is larger than `n`, and no more than `n` have ended. -/
structure History.AtMost (n : Nat) (h : History) : Prop where
  ended : h.ended.length ≤ n
  epochs : ∀ ep ∈ h.ended, ep.ins.length ≤ n ∧ ep.del.length ≤ n
  ins : h.current.ins.length ≤ n
  del : h.current.del.length ≤ n

theorem History.AtMost.next {R : Type} {w : Str} {h : History} {n : Nat} (hn : h.AtMost n) (u : Op R) :
    (h.next w u).AtMost (n + 1) := by
  obtain ⟨h1, h2, h3, h4⟩ := hn
  have hold : ∀ ep ∈ h.ended, ep.ins.length ≤ n + 1 ∧ ep.del.length ≤ n + 1 := by
    intro ep hep
    have hep' := h2 ep hep
    omega
  have hsame : h.AtMost (n + 1) := ⟨by omega, hold, by omega, by omega⟩
  cases u with
  | insertKeyword key ind s =>
    simp only [History.next]
    split_ifs
    · exact ⟨le_trans h1 (by omega), hold, by simpa using h3, le_trans h4 (by omega)⟩
    · exact hsame
  | deleteKeyword key ind =>
    simp only [History.next]
    split_ifs
    · exact ⟨le_trans h1 (by omega), hold, le_trans h3 (by omega), by simpa using h4⟩
    · exact hsame
  | searchKeyword key path =>
    simp only [History.next]
    split_ifs
    · refine ⟨by simpa using h1, fun ep hep => ?_, by simp, by simp⟩
      rcases List.mem_append.1 hep with hep | hep
      · exact hold ep hep
      · rw [List.mem_singleton.1 hep]
        omega
    · exact hsame

/-- A run of fewer than `2^32` calls has small histories. -/
theorem small_of_length {R : Type} {us : List (Op R)} (hlen : us.length < 2 ^ 32) (w : Str) : (history w us).Small := by
  have hbound : (history w us).AtMost us.length := by
    clear hlen
    induction us using List.reverseRecOn with
    | nil => exact ⟨le_rfl, by simp [history, History.init], le_rfl, le_rfl⟩
    | append_singleton us u ih =>
      rw [history_concat, List.length_append, List.length_singleton]
      exact ih.next u
  obtain ⟨h1, h2, h3, h4⟩ := hbound
  refine ⟨by omega, fun ep hep => ?_⟩
  rcases List.mem_append.1 hep with hep | hep
  · have hep' := h2 ep hep
    omega
  · rw [List.mem_singleton.1 hep]
    omega

/-! ## The path of a search -/

/-- A call without the path of its search. -/
def Op.erase {R : Type} : Op R → Op R
  | .searchKeyword key _ => .searchKeyword key (.search id id)
  | u => u

theorem map_key_erase {R : Type} (us : List (Op R)) : (us.map Op.erase).map Op.key = us.map Op.key := by
  rw [List.map_map]
  apply List.map_congr_left
  intro u _
  cases u <;> rfl

/-- The history does not depend on the paths. -/
theorem history_erase {R : Type} (w : Str) (us : List (Op R)) : history w (us.map Op.erase) = history w us := by
  rw [history, history, List.foldl_map]
  congr 1
  funext h u
  cases u <;> rfl

end Sse.Janus
