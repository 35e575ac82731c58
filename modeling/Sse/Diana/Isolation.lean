import Sse.Diana.Exact

/-!
# Keywords in Diana with deletions

With `deleteResults` a keyword is stored under the keys `keyword + to_string(counter)`, and
calls on it read and write only the tables of these keys; so two keywords whose keys never
coincide are isolated.  `"a" + "11"` is `"a1" + "1"`: some keywords share a key, and then
the one reads what the other wrote.  Without `deleteResults` the search of an unknown
keyword leaves the empty key behind, the same for every keyword, and no two keywords are
isolated.

    Isolated S w1 w2 ↔ deleteResults ∧ ∀ c1 c2, w1 + to_string(c1) ≠ w2 + to_string(c2)
                                                                   (diana_isolated_iff)

This is about runs that complete.  A call on `w1` that ends the process leaves `w2` without
answers, whatever the keys; runs of sound calls do complete.
-/

namespace Sse.Diana

/-- The keys of a keyword. -/
def OwnKey (w k : Str) : Prop := ∃ c : Int32, k = w ++ toStr c.toInt

theorem OwnKey.ne_nil {w k : Str} (h : OwnKey w k) : k ≠ [] := by
  obtain ⟨c, rfl⟩ := h
  intro e
  exact toStr_ne_nil _ (List.append_eq_nil_iff.1 e).2

namespace Ledger

/-! ## What a ledger holds about one keyword -/

structure AgreeOn (w : Str) (led led' : Ledger) : Prop where
  keywordsToken : led'.keywordsToken w = led.keywordsToken w
  keywordsCounter : led'.keywordsCounter w = led.keywordsCounter w
  ins : ∀ k, OwnKey w k → led'.ins k = led.ins k
  del : ∀ k, OwnKey w k → led'.del k = led.del k
  cnts : ∀ k, OwnKey w k → led'.cnts k = led.cnts k

theorem AgreeOn.refl (w : Str) (led : Ledger) : AgreeOn w led led :=
  ⟨rfl, rfl, fun _ _ => rfl, fun _ _ => rfl, fun _ _ => rfl⟩

theorem AgreeOn.symm {w : Str} {led led' : Ledger} (h : AgreeOn w led led') : AgreeOn w led' led :=
  ⟨h.keywordsToken.symm, h.keywordsCounter.symm, fun k hk => (h.ins k hk).symm, fun k hk => (h.del k hk).symm,
    fun k hk => (h.cnts k hk).symm⟩

theorem AgreeOn.trans {w : Str} {r s t : Ledger} (h : AgreeOn w r s) (h' : AgreeOn w s t) : AgreeOn w r t :=
  ⟨h'.keywordsToken.trans h.keywordsToken, h'.keywordsCounter.trans h.keywordsCounter,
    fun k hk => (h'.ins k hk).trans (h.ins k hk), fun k hk => (h'.del k hk).trans (h.del k hk),
    fun k hk => (h'.cnts k hk).trans (h.cnts k hk)⟩

/-- With `deleteResults`, every keyword is stored under a key of its own, and nothing is stored
under the empty key. -/
structure Keyed (led : Ledger) : Prop where
  own : ∀ w key, led.keywordsToken w = some key → OwnKey w key
  ins : led.ins [] = .empty
  del : led.del [] = .empty

theorem keyed_init : Keyed init := ⟨fun _ _ h => (Option.some_ne_none _ h.symm).elim, rfl, rfl⟩

section

variable {B : Type} {S : Setting B} {led : Ledger}

theorem Keyed.updateKey (h : Keyed led) (w : Str) :
    Keyed (led.updateKey w).1 ∧ OwnKey w (led.updateKey w).2 := by
  unfold Ledger.updateKey
  cases ht : led.keywordsToken w with
  | some key => exact ⟨h, h.own w key ht⟩
  | none =>
    have hkey : OwnKey w (w ++ toStr 1) := ⟨1, rfl⟩
    refine ⟨⟨fun w' key hk => ?_, h.ins, h.del⟩, hkey⟩
    simp only [Function.update_apply] at hk
    split at hk
    · next e =>
      subst e
      rw [← Option.some.inj hk]
      exact hkey
    · exact h.own w' key hk

theorem Keyed.insert (h : Keyed led) (w : Str) (ind : UInt64) : Keyed (led.insert S w ind) := by
  obtain ⟨h1, hkey⟩ := h.updateKey w
  refine ⟨h1.own, ?_, h1.del⟩
  simp only [Ledger.insert, insertAt]
  rw [Function.update_of_ne hkey.ne_nil.symm]
  exact h1.ins

theorem Keyed.delete (h : Keyed led) (w : Str) (ind : UInt64) : Keyed (led.delete S w ind) := by
  obtain ⟨h1, hkey⟩ := h.updateKey w
  refine ⟨h1.own, h1.ins, ?_⟩
  simp only [Ledger.delete]
  rw [Function.update_of_ne hkey.ne_nil.symm]
  exact h1.del

theorem Keyed.insert_foldl (h : Keyed led) (w : Str) (l : List UInt64) :
    Keyed (l.foldl (fun led item => led.insert S w item) led) := by
  induction l generalizing led with
  | nil => exact h
  | cons ind l ih => exact ih (h.insert w ind)

theorem Keyed.rekey (h : Keyed led) (w : Str) : Keyed (led.rekey w) := by
  refine ⟨fun w' key hk => ?_, h.ins, h.del⟩
  simp only [Ledger.rekey, Function.update_apply] at hk
  split at hk
  · next e =>
    subst e
    exact ⟨_, (Option.some.inj hk).symm⟩
  · exact h.own w' key hk

/-- What a cleaning search answers and leaves behind. -/
theorem of_search_cleaning (hdr : S.deleteResults = true) {w : Str} {led' : Ledger} {l : List UInt64}
    (h : led.search S w = some (led', l)) :
    visible S (led.ins (led.touchKey w).2) (led.del (led.touchKey w).2) (led.cnts (led.touchKey w).2) = some l ∧
      led' = l.foldl (fun led item => led.insert S w item) (led.rekey w) := by
  rw [search_cleaning hdr, Option.map_eq_some_iff] at h
  obtain ⟨r, hv, hr⟩ := h
  obtain ⟨rfl, rfl⟩ := Prod.mk.inj hr
  exact ⟨hv, rfl⟩

theorem Keyed.step (hdr : S.deleteResults = true) {op : Op} {led' : Ledger} {o : List UInt64} (h : Keyed led)
    (hs : led.step S op = some (led', o)) : Keyed led' := by
  cases op with
  | insert w ind =>
    obtain ⟨rfl, -⟩ := Prod.mk.inj (Option.some.inj hs)
    exact h.insert w ind
  | delete w ind =>
    obtain ⟨rfl, -⟩ := Prod.mk.inj (Option.some.inj hs)
    exact h.delete w ind
  | search w =>
    obtain ⟨-, rfl⟩ := of_search_cleaning hdr hs
    exact (h.rekey w).insert_foldl w o

/-! ## Calls on another keyword -/

section Other

variable {w w' : Str} (hne : w ≠ w') (hapart : ∀ k, OwnKey w k → ¬ OwnKey w' k)
include hne hapart

omit hapart in
theorem updateKey_other (led : Ledger) : AgreeOn w led (led.updateKey w').1 := by
  unfold updateKey
  cases led.keywordsToken w' with
  | some key => exact AgreeOn.refl w led
  | none =>
    exact ⟨Function.update_of_ne hne _ _, Function.update_of_ne hne _ _, fun _ _ => rfl, fun _ _ => rfl,
      fun _ _ => rfl⟩

theorem insert_other (h : Keyed led) (ind : UInt64) : AgreeOn w led (led.insert S w' ind) := by
  have hkey : ∀ k, OwnKey w k → k ≠ (led.updateKey w').2 := by
    rintro k hk rfl
    exact hapart _ hk (h.updateKey w').2
  exact (updateKey_other hne led).trans ⟨rfl, rfl, fun k hk => Function.update_of_ne (hkey k hk) _ _,
    fun _ _ => rfl, fun k hk => Function.update_of_ne (hkey k hk) _ _⟩

theorem delete_other (h : Keyed led) (ind : UInt64) : AgreeOn w led (led.delete S w' ind) := by
  have hkey : ∀ k, OwnKey w k → k ≠ (led.updateKey w').2 := by
    rintro k hk rfl
    exact hapart _ hk (h.updateKey w').2
  exact (updateKey_other hne led).trans ⟨rfl, rfl, fun _ _ => rfl,
    fun k hk => Function.update_of_ne (hkey k hk) _ _, fun _ _ => rfl⟩

theorem insert_foldl_other (h : Keyed led) (l : List UInt64) :
    AgreeOn w led (l.foldl (fun led item => led.insert S w' item) led) := by
  induction l generalizing led with
  | nil => exact AgreeOn.refl w led
  | cons ind l ih => exact (insert_other hne hapart h ind).trans (ih (h.insert w' ind))

theorem step_other (hdr : S.deleteResults = true) {op : Op} {led' : Ledger} {o : List UInt64} (h : Keyed led)
    (hop : op.keyword = w') (hs : led.step S op = some (led', o)) : AgreeOn w led led' := by
  cases op with
  | insert w'' ind =>
    obtain rfl : w'' = w' := hop
    obtain ⟨rfl, -⟩ := Prod.mk.inj (Option.some.inj hs)
    exact insert_other hne hapart h ind
  | delete w'' ind =>
    obtain rfl : w'' = w' := hop
    obtain ⟨rfl, -⟩ := Prod.mk.inj (Option.some.inj hs)
    exact delete_other hne hapart h ind
  | search w'' =>
    obtain rfl : w'' = w' := hop
    obtain ⟨-, rfl⟩ := of_search_cleaning hdr hs
    have hre : AgreeOn w led (led.rekey w'') :=
      ⟨Function.update_of_ne hne _ _, Function.update_of_ne hne _ _, fun _ _ => rfl, fun _ _ => rfl, fun _ _ => rfl⟩
    exact hre.trans (insert_foldl_other hne hapart (h.rekey w'') o)

end Other

/-! ## Calls on the keyword itself -/

variable {w : Str} {led' : Ledger}

theorem AgreeOn.updateKey (h : AgreeOn w led led') :
    AgreeOn w (led.updateKey w).1 (led'.updateKey w).1 ∧ (led'.updateKey w).2 = (led.updateKey w).2 := by
  unfold Ledger.updateKey
  rw [h.keywordsToken]
  cases led.keywordsToken w with
  | some key => exact ⟨h, rfl⟩
  | none => exact ⟨⟨by simp, by simp, h.ins, h.del, h.cnts⟩, rfl⟩

theorem update_congr_at {β : Type} {f f' : Str → β} {key : Str} {v v' : β} (hf : ∀ k, OwnKey w k → f' k = f k)
    (hv : v' = v) {k : Str} (hk : OwnKey w k) : Function.update f' key v' k = Function.update f key v k := by
  rw [Function.update_apply, Function.update_apply, hf k hk, hv]

theorem AgreeOn.insert (h : AgreeOn w led led') (hi : Keyed led) (ind : UInt64) :
    AgreeOn w (led.insert S w ind) (led'.insert S w ind) := by
  obtain ⟨h1, hkey⟩ := h.updateKey
  have hown := (hi.updateKey w).2
  unfold Ledger.insert
  simp only [hkey, insertAt]
  have hins := h1.ins _ hown
  refine ⟨h1.keywordsToken, h1.keywordsCounter, fun k hk => ?_, h1.del, fun k hk => ?_⟩
  · exact update_congr_at h1.ins (by rw [hins]) hk
  · exact update_congr_at h1.cnts (by rw [hins, h1.cnts _ hown]) hk

theorem AgreeOn.delete (h : AgreeOn w led led') (hi : Keyed led) (ind : UInt64) :
    AgreeOn w (led.delete S w ind) (led'.delete S w ind) := by
  obtain ⟨h1, hkey⟩ := h.updateKey
  have hown := (hi.updateKey w).2
  unfold Ledger.delete
  simp only [hkey]
  refine ⟨h1.keywordsToken, h1.keywordsCounter, h1.ins, fun k hk => ?_, h1.cnts⟩
  exact update_congr_at h1.del (by rw [h1.del _ hown]) hk

theorem AgreeOn.insert_foldl (h : AgreeOn w led led') (hi : Keyed led) (l : List UInt64) :
    AgreeOn w (l.foldl (fun led item => led.insert S w item) led)
      (l.foldl (fun led item => led.insert S w item) led') := by
  induction l generalizing led led' with
  | nil => exact h
  | cons ind l ih => exact ih (h.insert hi ind) (hi.insert w ind)

theorem AgreeOn.rekey (h : AgreeOn w led led') : AgreeOn w (led.rekey w) (led'.rekey w) := by
  refine ⟨?_, ?_, h.ins, h.del, h.cnts⟩
  · simp [Ledger.rekey, h.keywordsCounter]
  · simp [Ledger.rekey, h.keywordsCounter]

theorem AgreeOn.visible (h : AgreeOn w led led') (hi : Keyed led) (hi' : Keyed led') :
    Ledger.visible S (led'.ins (led'.touchKey w).2) (led'.del (led'.touchKey w).2) (led'.cnts (led'.touchKey w).2) =
      Ledger.visible S (led.ins (led.touchKey w).2) (led.del (led.touchKey w).2) (led.cnts (led.touchKey w).2) := by
  simp only [touchKey, h.keywordsToken]
  cases ht : led.keywordsToken w with
  | some key =>
    have hown := hi.own w key ht
    simp only [Option.getD_some, h.ins key hown, h.del key hown, h.cnts key hown]
  | none =>
    -- an unknown keyword reads the tables of the empty key
    simp only [Option.getD_none, hi.ins, hi.del, hi'.ins, hi'.del]
    rfl

theorem AgreeOn.step (hdr : S.deleteResults = true) (h : AgreeOn w led led') (hi : Keyed led) (hi' : Keyed led')
    {op : Op} (hop : op.keyword = w) {led1 led1' : Ledger} {o o' : List UInt64}
    (hs : led.step S op = some (led1, o)) (hs' : led'.step S op = some (led1', o')) :
    AgreeOn w led1 led1' ∧ o = o' := by
  cases op with
  | insert w' ind =>
    obtain rfl : w' = w := hop
    obtain ⟨rfl, rfl⟩ := Prod.mk.inj (Option.some.inj hs)
    obtain ⟨rfl, rfl⟩ := Prod.mk.inj (Option.some.inj hs')
    exact ⟨h.insert hi ind, rfl⟩
  | delete w' ind =>
    obtain rfl : w' = w := hop
    obtain ⟨rfl, rfl⟩ := Prod.mk.inj (Option.some.inj hs)
    obtain ⟨rfl, rfl⟩ := Prod.mk.inj (Option.some.inj hs')
    exact ⟨h.delete hi ind, rfl⟩
  | search w' =>
    obtain rfl : w' = w := hop
    obtain ⟨hv, rfl⟩ := of_search_cleaning hdr hs
    obtain ⟨hv', rfl⟩ := of_search_cleaning hdr hs'
    rw [h.visible hi hi', hv] at hv'
    obtain rfl := Option.some.inj hv'
    exact ⟨h.rekey.insert_foldl (hi.rekey w') o, rfl⟩

end

/-! ## Isolation of the ledger -/

end Ledger

/-- The calls on `w`. -/
def on (w : Str) (op : Op) : Bool := op.keyword == w

namespace Ledger

variable {B : Type} {S : Setting B}

theorem isolated_of_apart (hdr : S.deleteResults = true) {w1 w2 : Str} (hne : w1 ≠ w2)
    (hapart : ∀ k, OwnKey w2 k → ¬ OwnKey w1 k) :
    Runs.NonInterfering (step S) init (on w2) (on w1) id := by
  refine Runs.nonInterfering_of_invariant Keyed (AgreeOn w2) keyed_init ?_ (AgreeOn.refl w2) AgreeOn.symm
    AgreeOn.trans ?_ ?_ id
  · intro led op led' o _ h hs
    exact h.step hdr hs
  · intro led op led' o hop h hs
    exact step_other hne.symm hapart hdr h (show op.keyword = w1 by simpa [on] using hop) hs
  · intro led led' op led1 led1' o o' hop hi hi' h hs hs'
    exact h.step hdr hi hi' (show op.keyword = w2 by simpa [on] using hop) hs hs'

/-! ## Keywords that share a key -/

@[simp] theorem visible_empty (cnts : UInt64 → Option UInt32) : visible S .empty .empty cnts = some [] := rfl

/-- One insert is found. -/
theorem visible_one (ind : UInt64) (cnts : UInt64 → Option UInt32) :
    visible S (Table.empty.push S.usehdd ind) .empty cnts = some [ind] := by
  have hpush : Table.empty.push S.usehdd ind = ⟨some 0, Function.update (fun _ => none) 0 (some ind)⟩ := by
    simp [Table.push, Table.empty, nextCnt]
  rw [hpush]
  rfl

/-- The key that search number `j + 1` of a new keyword reads. -/
def searchKey (w : Str) (j : Nat) : Str := if j = 0 then [] else w ++ toStr (Int32.ofNat j).toInt

/-- The ledger after `i` searches of a new keyword that find nothing. -/
def searched (led : Ledger) (w : Str) (i : Nat) : Ledger :=
  { led with
    keywordsToken := Function.update led.keywordsToken w (if i = 0 then none else some (searchKey w i))
    keywordsCounter := Function.update led.keywordsCounter w (if i = 0 then none else some (Int32.ofNat i)) }

theorem run_searches (hdr : S.deleteResults = true) (led : Ledger) (w : Str) (ht : led.keywordsToken w = none)
    (hc : led.keywordsCounter w = none) (i : Nat)
    (hempty : ∀ j < i, led.ins (searchKey w j) = .empty ∧ led.del (searchKey w j) = .empty) :
    Runs.run (step S) led (List.replicate i (.search w)) = some (led.searched w i, List.replicate i []) := by
  induction i with
  | zero =>
    have : led.searched w 0 = led := by
      simp only [searched, if_pos]
      rw [← ht, Function.update_eq_self, ← hc, Function.update_eq_self]
    rw [this]
    rfl
  | succ i ih =>
    rw [List.replicate_succ', Runs.run_concat]
    refine ⟨led.searched w i, List.replicate i [], [], ih fun j hj => hempty j (by omega), ?_,
      by rw [List.replicate_succ']⟩
    obtain ⟨h1, h2⟩ := hempty i (by omega)
    have hkey : ((led.searched w i).keywordsToken w).getD [] = searchKey w i := by
      simp only [searched, Function.update_self]
      split
      · next e => simp [searchKey, e]
      · rfl
    have hcnt : ((led.searched w i).keywordsCounter w).getD 0 + 1 = Int32.ofNat (i + 1) := by
      simp only [searched, Function.update_self]
      split
      · next e => rw [e]; rfl
      · exact ofNat_add_one i
    show search S (led.searched w i) w = _
    have e1 : (led.searched w i).ins (searchKey w i) = .empty := h1
    have e2 : (led.searched w i).del (searchKey w i) = .empty := h2
    rw [search_cleaning hdr]
    simp only [touchKey, hkey, e1, e2, visible_empty, Option.map_some, List.foldl_nil, Option.some.injEq,
      Prod.mk.injEq, and_true]
    simp only [rekey, hcnt]
    simp [searched, searchKey]

/-- Every value of the counter is reached for the first time after some number of searches. -/
theorem exists_first_count (c : Int32) :
    ∃ m, 1 ≤ m ∧ Int32.ofNat m = c ∧ ∀ j, 1 ≤ j → j < m → Int32.ofNat j ≠ c := by
  have hex : ∃ m, 1 ≤ m ∧ Int32.ofNat m = c := by
    refine ⟨c.toUInt32.toNat + 2 ^ 32, by omega, ?_⟩
    rw [Int32.ofNat_add]
    cases c with
    | ofUInt32 u =>
      have hwrap : Int32.ofNat (2 ^ 32) = 0 := by decide
      rw [hwrap]
      simp [Int32.ofNat]
  classical
  obtain ⟨h1, h2⟩ := Nat.find_spec hex
  exact ⟨Nat.find hex, h1, h2, fun j hj hlt he => Nat.find_min hex hlt ⟨hj, he⟩⟩

/-- Without cleaning, an insert after the search of an unknown keyword goes to the empty key, and
every other unknown keyword finds it. -/
theorem not_isolated_keeping (hdr : S.deleteResults = false) {w1 w2 : Str} (hne : w1 ≠ w2) :
    ¬ Runs.NonInterfering (step S) init (on w2) (on w1) id := by
  intro hiso
  have hs2 : search S init w2 = some ((init.touchKey w2).1, []) := by
    rw [search_keeping hdr]
    rfl
  have hs1 : search S init w1 = some ((init.touchKey w1).1, []) := by
    rw [search_keeping hdr]
    rfl
  set led1 := (init.touchKey w1).1 with hled1
  have hkey1 : led1.updateKey w1 = (led1, []) := by
    simp [hled1, updateKey, touchKey, init]
  set led2 := led1.insert S w1 5 with hled2
  have hled2' : led2 = insertAt S led1 [] 5 := by rw [hled2, insert, hkey1]
  have hkey2 : (led2.touchKey w2).2 = [] := by
    simp [hled2', insertAt, touchKey, hled1, init, Function.update_of_ne hne.symm]
  have hs3 : search S led2 w2 = some ((led2.touchKey w2).1, [5]) := by
    have hins : led2.ins [] = Table.empty.push S.usehdd 5 := by
      simp [hled2', insertAt, hled1, touchKey, init]
    have hdel : led2.del [] = .empty := by simp [hled2', insertAt, hled1, touchKey, init]
    rw [search_keeping hdr, hkey2, hins, hdel, visible_one]
    rfl
  have hA : Runs.run (step S) init [.search w2] = some ((init.touchKey w2).1, [[]]) :=
    Runs.run_cons_eq_some.2 ⟨_, _, _, hs2, rfl, rfl⟩
  have hB : Runs.run (step S) init [.search w1, .insert w1 5, .search w2] =
      some ((led2.touchKey w2).1, [[], [], [5]]) :=
    Runs.run_cons_eq_some.2 ⟨_, _, _, hs1, Runs.run_cons_eq_some.2 ⟨_, _, _, rfl,
      Runs.run_cons_eq_some.2 ⟨_, _, _, hs3, rfl, rfl⟩, rfl⟩, rfl⟩
  have key := hiso _ _ (by simp [on, Op.keyword]) (by simp [on, Op.keyword, hne]) _ _ _ _ hA hB
  simp [Runs.outputsOf, on, Op.keyword, hne] at key

/-- With cleaning, a keyword that comes to a key of another one finds its inds. -/
theorem not_isolated_shared (hdr : S.deleteResults = true) {w1 w2 : Str} (hne : w1 ≠ w2) {c1 c2 : Int32}
    (hshare : w1 ++ toStr c1.toInt = w2 ++ toStr c2.toInt) :
    ¬ Runs.NonInterfering (step S) init (on w2) (on w1) id := by
  intro hiso
  obtain ⟨m1, hm1, hc1, -⟩ := exists_first_count c1
  obtain ⟨m2, hm2, hc2, hfirst⟩ := exists_first_count c2
  have hkey1 : searchKey w1 m1 = w1 ++ toStr c1.toInt := by rw [searchKey, if_neg (by omega), hc1]
  have hkey2 : searchKey w2 m2 = w1 ++ toStr c1.toInt := by rw [searchKey, if_neg (by omega), hc2, hshare]
  set k := w1 ++ toStr c1.toInt with hk
  -- `w1` comes to the shared key and inserts an ind
  have h1 := run_searches (S := S) hdr init w1 rfl rfl m1 fun j _ => ⟨rfl, rfl⟩
  set led1 := init.searched w1 m1 with hled1
  have hup : led1.updateKey w1 = (led1, k) := by
    simp [hled1, updateKey, searched, hkey1, show m1 ≠ 0 by omega]
  set led2 := led1.insert S w1 6 with hled2
  have hled2' : led2 = insertAt S led1 k 6 := by rw [hled2, insert, hup]
  have hins : ∀ k', led2.ins k' = if k' = k then Table.empty.push S.usehdd 6 else .empty := by
    intro k'
    simp only [hled2', insertAt, Function.update_apply]
    rfl
  have hdel : ∀ k', led2.del k' = .empty := fun k' => by rw [hled2']; rfl
  have ht2 : led2.keywordsToken w2 = none := by
    rw [hled2']
    exact Function.update_of_ne hne.symm _ _
  have hn2 : led2.keywordsCounter w2 = none := by
    rw [hled2']
    exact Function.update_of_ne hne.symm _ _
  -- `w2` comes to it without finding anything before
  have h2 := run_searches (S := S) hdr led2 w2 ht2 hn2 m2 fun j hj => by
    refine ⟨?_, hdel _⟩
    rw [hins, if_neg]
    rw [← hkey2]
    intro he
    unfold searchKey at he
    rw [if_neg (show m2 ≠ 0 by omega), hc2] at he
    split at he
    · exact toStr_ne_nil _ (List.append_eq_nil_iff.1 he.symm).2
    · next hj0 => exact hfirst j (by omega) hj (toStr_injective (List.append_cancel_left he))
  set led3 := led2.searched w2 m2 with hled3
  have hkey3 : (led3.touchKey w2).2 = k := by
    simp [hled3, touchKey, searched, hkey2, show m2 ≠ 0 by omega]
  have hv : visible S (led3.ins (led3.touchKey w2).2) (led3.del (led3.touchKey w2).2)
      (led3.cnts (led3.touchKey w2).2) = some [6] := by
    have e1 : led3.ins k = Table.empty.push S.usehdd 6 := by
      show led2.ins k = _
      rw [hins, if_pos rfl]
    have e2 : led3.del k = .empty := hdel k
    rw [hkey3, e1, e2, visible_one]
  obtain ⟨led4, h3⟩ : ∃ led4, led3.step S (.search w2) = some (led4, [6]) :=
    ⟨_, by rw [step, search_cleaning hdr, hv, Option.map_some]⟩
  have hA := run_searches (S := S) hdr init w2 rfl rfl (m2 + 1) fun j _ => ⟨rfl, rfl⟩
  have hB : Runs.run (step S) init ((List.replicate m1 (.search w1) ++ [.insert w1 6]) ++
      (List.replicate m2 (.search w2) ++ [.search w2])) =
        some (led4, (List.replicate m1 [] ++ [[]]) ++ (List.replicate m2 [] ++ [[6]])) :=
    Runs.run_append.2 ⟨led2, _, _, Runs.run_concat.2 ⟨led1, _, [], h1, rfl, rfl⟩,
      Runs.run_concat.2 ⟨led3, _, [6], h2, h3, rfl⟩, rfl⟩
  have hon1 : ∀ op ∈ List.replicate m1 (Op.search w1) ++ [Op.insert w1 6], on w2 op = false := by
    intro op hop
    rcases List.mem_append.1 hop with hop | hop
    · rw [List.eq_of_mem_replicate hop]
      simp [on, Op.keyword, hne]
    · rw [List.mem_singleton.1 hop]
      simp [on, Op.keyword, hne]
  have hon2 : ∀ op ∈ List.replicate m2 (Op.search w2) ++ [.search w2], on w2 op = true := by
    intro op hop
    rw [← List.replicate_succ'] at hop
    rw [List.eq_of_mem_replicate hop]
    simp [on, Op.keyword]
  rw [List.replicate_succ'] at hA
  have hon1' : ∀ op ∈ List.replicate m1 (Op.search w1) ++ [Op.insert w1 6], on w1 op = true := by
    intro op hop
    rcases List.mem_append.1 hop with hop | hop
    · rw [List.eq_of_mem_replicate hop]
      simp [on, Op.keyword]
    · rw [List.mem_singleton.1 hop]
      simp [on, Op.keyword]
  have hfilter : (List.replicate m1 (Op.search w1) ++ [Op.insert w1 6]).filter (on w2) = [] :=
    List.filter_eq_nil_iff.2 fun op hop => by rw [hon1 op hop]; simp
  have key := hiso _ _ (by
    intro op hop
    rcases List.mem_append.1 hop with hop | hop
    · exact Or.inl (hon2 op hop)
    · rcases List.mem_append.1 hop with hop | hop
      · exact Or.inr (hon1' op hop)
      · exact Or.inl (hon2 op hop)) (by symm; rw [List.filter_append, hfilter, List.nil_append]) _ _ _ _ hA hB
  rw [Runs.outputsOf_append _ (by simp), Runs.outputsOf_other hon1, Runs.outputsOf_own hon2 (by simp),
    Runs.outputsOf_own hon2 (by simp)] at key
  simp [List.replicate_succ'] at key

end Ledger

/-! ## Isolation -/

/-- Two completed runs with the same calls on `w2` and any calls on `w1` give `w2` the same lists. -/
def Isolated {B : Type} [DecidableEq B] [XorOp B] (S : Setting B) (w1 w2 : Str) : Prop :=
  Runs.NonInterfering (step S) (init S) (on w2) (on w1) id

theorem isolated_iff_ledger {B : Type} [DecidableEq B] [XorOp B] [LawfulXor B] {S : Setting B} {w1 w2 : Str}
    (hs : Splits S.ins.derive S.ins.derive32) (hs' : Splits S.del.derive S.del.derive32)
    (hcf : CollisionFree S (keysOf fun w => w = w1 ∨ w = w2)) :
    Isolated S w1 w2 ↔ Runs.NonInterfering (Ledger.step S) Ledger.init (on w2) (on w1) id := by
  refine Runs.nonInterfering_of_matches (Rel S (keysOf fun w => w = w1 ∨ w = w2)) ?_ (rel_init _) id
  intro st led op hop h
  refine step_matches hcf hs hs' op ?_ h
  rcases hop with hop | hop
  · exact Or.inr (by simpa [on] using hop)
  · exact Or.inl (by simpa [on] using hop)

/-- The same of any two runs: from the call that ends the process on, no call is answered. -/
def IsolatedAll {B : Type} [DecidableEq B] [XorOp B] (S : Setting B) (w1 w2 : Str) : Prop :=
  Runs.NonInterfering (Runs.total (Runs.lasting (step S))) (some (init S)) (on w2) (on w1) id

/-- A run of sound calls completes. -/
theorem sound_run {B : Type} [DecidableEq B] [XorOp B] [LawfulXor B] {S : Setting B} {W : Str → Prop}
    (hs : Splits S.ins.derive S.ins.derive32) (hs' : Splits S.del.derive S.del.derive32)
    (hcf : CollisionFree S (keysOf W))
    (hround : ∀ c : UInt32, c.toNat < 2 ^ 31 → parseCnt S (S.encode (natStr c.toNat)) = some c) {ops : List Op}
    (hW : ∀ op ∈ ops, W op.keyword) (hok : Runs.Each (Sound S.deleteResults) [] ops) :
    ∃ st outs, Runs.run (step S) (init S) ops = some (st, outs) := by
  obtain ⟨led, outs, hrun, -⟩ := balanced_run hround hok
  have hruns := Runs.run_matches (Rel S (keysOf W)) (fun op => W op.keyword)
    (fun st led op hop h => step_matches hcf hs hs' op hop h) hW (rel_init _)
  rw [hrun] at hruns
  obtain ⟨st, hst, -⟩ := hruns.of_some
  exact ⟨st, outs, hst⟩

/-- **Isolation of keywords.**  Of completed runs: exactly with cleaning, and exactly the keywords that
share no key.  Of such keywords, two runs of sound calls complete, and give `w2` the same lists. -/
theorem diana_isolated_iff {B : Type} [DecidableEq B] [XorOp B] [LawfulXor B] (S : Setting B) (w1 w2 : Str)
    (hs : Splits S.ins.derive S.ins.derive32) (hs' : Splits S.del.derive S.del.derive32)
    (hcf : CollisionFree S (keysOf fun w => w = w1 ∨ w = w2)) (hne : w1 ≠ w2) :
    (Isolated S w1 w2 ↔
      S.deleteResults = true ∧ ∀ c1 c2 : Int32, w1 ++ toStr c1.toInt ≠ w2 ++ toStr c2.toInt) ∧
    ((∀ c : UInt32, c.toNat < 2 ^ 31 → parseCnt S (S.encode (natStr c.toNat)) = some c) →
      S.deleteResults = true → (∀ c1 c2 : Int32, w1 ++ toStr c1.toInt ≠ w2 ++ toStr c2.toInt) →
      ∀ is js : List Op, (∀ op ∈ is ++ js, op.keyword = w1 ∨ op.keyword = w2) →
        is.filter (on w2) = js.filter (on w2) → Runs.Each (Sound true) [] is → Runs.Each (Sound true) [] js →
        ∃ st os st' os', Runs.run (step S) (init S) is = some (st, os) ∧ Runs.run (step S) (init S) js = some (st', os') ∧
          Runs.outputsOf (on w2) is os = Runs.outputsOf (on w2) js os') := by
  have hiff : Isolated S w1 w2 ↔
      S.deleteResults = true ∧ ∀ c1 c2 : Int32, w1 ++ toStr c1.toInt ≠ w2 ++ toStr c2.toInt := by
    rw [isolated_iff_ledger hs hs' hcf]
    constructor
    · intro h
      have hdr : S.deleteResults = true := by
        by_contra hno
        exact Ledger.not_isolated_keeping (by simpa using hno) hne h
      exact ⟨hdr, fun c1 c2 he => Ledger.not_isolated_shared hdr hne he h⟩
    · rintro ⟨hdr, hapart⟩
      refine Ledger.isolated_of_apart hdr hne ?_
      rintro k ⟨c2, rfl⟩ ⟨c1, he⟩
      exact hapart c1 c2 he.symm
  refine ⟨hiff, fun hround hdr hapart is js hk hproj his hjs => ?_⟩
  rw [← hdr] at his hjs
  obtain ⟨st, os, hrun⟩ := sound_run hs hs' hcf hround (fun op hop => hk op (List.mem_append_left _ hop)) his
  obtain ⟨st', os', hrun'⟩ := sound_run hs hs' hcf hround (fun op hop => hk op (List.mem_append_right _ hop)) hjs
  have hon : ∀ op ∈ is ++ js, on w2 op = true ∨ on w1 op = true := fun op hop => by
    rcases hk op hop with h | h
    · exact Or.inr (by simpa [on] using h)
    · exact Or.inl (by simpa [on] using h)
  have hsame := hiff.2 ⟨hdr, hapart⟩ is js hon hproj _ _ _ _ hrun hrun'
  rw [List.map_id, List.map_id] at hsame
  exact ⟨st, os, st', os', hrun, hrun', hsame⟩

/-- The keys of the keywords `a` and `b` begin with their letters. -/
theorem apart_a_b (c1 c2 : Int32) : ([97] : Str) ++ toStr c1.toInt ≠ [98] ++ toStr c2.toInt := by
  intro he
  exact absurd (List.cons.inj he).1 (by decide)

/-- A run on `b` alone, and one with calls on `a` between. -/
theorem diana_isolated_a_b :
    let S := freeSetting false true
    let is : List Op := [.insert [98] 1, .search [98]]
    let js : List Op := [.insert [97] 1, .insert [98] 1, .insert [97] 2, .delete [97] 1, .search [97], .search [98]]
    (Isolated S [97] [98] ↔
      S.deleteResults = true ∧ ∀ c1 c2 : Int32, [97] ++ toStr c1.toInt ≠ [98] ++ toStr c2.toInt) ∧
    ∃ st os st' os', Runs.run (step S) (init S) is = some (st, os) ∧ Runs.run (step S) (init S) js = some (st', os') ∧
      Runs.outputsOf (on [98]) is os = Runs.outputsOf (on [98]) js os' := by
  intro S is js
  have h := diana_isolated_iff (freeSetting false true) [97] [98] (freePrims_splits _) (freePrims_splits _)
    (collisionFree_free false true _) (by decide)
  exact ⟨h.1, h.2 (parseCnt_free false true) rfl apart_a_b is js (by decide) (by decide) (by decide) (by decide)⟩

/-- Neither `a` and `b` without cleaning, nor `a` and `a1` with it, are isolated in completed runs; and
`a` and `b` are not in all runs: a search of `a` after the deletion of an ind it does not have ends the
process. -/
theorem diana_not_isolated :
    ¬ Isolated (freeSetting false false) [97] [98] ∧ ¬ Isolated (freeSetting false true) [97] [97, 49] ∧
      ¬ IsolatedAll (freeSetting false true) [97] [98] := by
  refine ⟨?_, ?_, fun hiso => ?_⟩
  · rw [isolated_iff_ledger (freePrims_splits _) (freePrims_splits _) (collisionFree_free false false _)]
    exact Ledger.not_isolated_keeping rfl (by decide)
  · rw [isolated_iff_ledger (freePrims_splits _) (freePrims_splits _) (collisionFree_free false true _)]
    -- the eleventh key of `a` is the first one of `a1`
    have hshare : ([97] : Str) ++ toStr (11 : Int32).toInt = [97, 49] ++ toStr (1 : Int32).toInt := by decide
    exact Ledger.not_isolated_shared rfl (by decide) hshare
  · set S := freeSetting false true
    obtain ⟨st, os, hrun⟩ := Runs.run_total (Runs.lasting (step S)) (some (init S)) [.search [98]]
    obtain ⟨st', os', hrun'⟩ := Runs.run_total (Runs.lasting (step S)) (some (init S))
      [.insert [97] 1, .delete [97] 2, .search [97], .search [98]]
    have hos : (Runs.run (Runs.total (Runs.lasting (step S))) (some (init S)) [.search [98]]).map Prod.snd =
        some [some []] := by decide +kernel
    have hos' : (Runs.run (Runs.total (Runs.lasting (step S))) (some (init S))
        [.insert [97] 1, .delete [97] 2, .search [97], .search [98]]).map Prod.snd =
          some [some [], some [], none, none] := by decide +kernel
    have hsame := hiso _ _ (by decide) (by decide) _ _ _ _ hrun hrun'
    rw [hrun, Option.map_some, Option.some.injEq] at hos
    rw [hrun', Option.map_some, Option.some.injEq] at hos'
    simp only at hos hos'
    rw [hos, hos'] at hsame
    exact absurd hsame (by decide)

end Sse.Diana
