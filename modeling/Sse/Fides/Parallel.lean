import Sse.Lib.Workers
import Sse.Fides.Tdp

/-!
# The parallel searches of Sophos

In place of one walk down the chain of search tokens the server starts `N` RSA threads.
Thread `index` jumps to token `index` and from there on `N` steps at a time, with the keys
of the pool.  In the light searches a thread looks its tokens up itself; in the others it
hands them to a pool of access threads, and `search_parallel_callback` hands what these find
to a third pool for the callback.

An entry is an array of 16 bytes and `search` unmasks all of them.  In the others, and in
`search_callback`, `r` is a `uint64_t`: `get` copies eight of the bytes, the lowest first, and
the `xor_mask` for numbers takes the first byte of the mask as the highest.  So they give the
first eight bytes of a payload only where the mask reads alike from both ends.

    the threads' tokens are those of the walk, each once               (rsaJobs_eq)
    any order of steps delivers what `search_callback` delivers        (sophos_parallel_agrees)
    `search_parallel` adds one junk value for each missing entry       (search_parallel_fills)
    with RSA below, `search`: the payloads that are left               (tdp_sophos_exact)
-/

namespace Sse.Fides

open Workers (Act Delivers Staged start results)

section

variable {B ST : Type}

/-! ## The RSA threads -/

section

variable (evalOrder : ST → UInt8 → Option ST)

/-- The loop of `rsa_job`, with a bound for its rounds: the search tokens in order, with their numbers. -/
def rsaLoop (max : Nat) (N : UInt8) : Nat → Nat → ST → Option (List (ST × Nat))
  | 0, _, _ => some []
  | rounds + 1, i, local_st =>
    if i < max then do
      let local_st ← evalOrder local_st N
      let jobs ← rsaLoop max N rounds (i + N.toNat) local_st
      return (local_st, i) :: jobs
    else some []

/-- `rsa_job(index, max, N)`; `none` where the pool of keys throws. -/
def rsaJob (st : ST) (max : Nat) (N index : UInt8) : Option (List (ST × Nat)) := do
  let local_st ← (if index ≠ 0 then evalOrder st index else some st)
  let jobs ← rsaLoop evalOrder max N max (index.toNat + N.toNat) local_st
  return if index.toNat < max then (local_st, index.toNat) :: jobs else jobs

/-- The threads `0 .. N - 1`. -/
def rsaJobs (st : ST) (max : Nat) (N : UInt8) : Option (List (List (ST × Nat))) :=
  (List.range N.toNat).mapM fun t => rsaJob evalOrder st max N (UInt8.ofNat t)

end

/-! ## Entries -/

/-- `std::array<uint8_t, 16>`: an update token, an entry or a mask. -/
abbrev UpdateToken := Vector UInt8 16

/-- The `xor_mask` of two arrays. -/
instance : XorOp UpdateToken := ⟨fun a mask => a.zipWith (· ^^^ ·) mask⟩

/-- A number from its bytes, the lowest first. -/
def packBytes (b0 b1 b2 b3 b4 b5 b6 b7 : UInt8) : UInt64 :=
  b0.toUInt64 ^^^ (b1.toUInt64 <<< 8) ^^^ (b2.toUInt64 <<< 16) ^^^ (b3.toUInt64 <<< 24) ^^^
    (b4.toUInt64 <<< 32) ^^^ (b5.toUInt64 <<< 40) ^^^ (b6.toUInt64 <<< 48) ^^^ (b7.toUInt64 <<< 56)

/-- `memcpy` of an entry into an `index_type`. -/
def copyIndex (a : UpdateToken) : UInt64 := packBytes a[0] a[1] a[2] a[3] a[4] a[5] a[6] a[7]

/-- The `xor_mask` of a `uint64_t` and an array. -/
def xorMask (n : UInt64) (mask : UpdateToken) : UInt64 :=
  n ^^^ (mask[0].toUInt64 <<< 56) ^^^ (mask[1].toUInt64 <<< 48) ^^^ (mask[2].toUInt64 <<< 40) ^^^
    (mask[3].toUInt64 <<< 32) ^^^ (mask[4].toUInt64 <<< 24) ^^^ (mask[5].toUInt64 <<< 16) ^^^
    (mask[6].toUInt64 <<< 8) ^^^ mask[7].toUInt64

/-! ## The searches -/

section

variable (S : Setting UpdateToken ST) (edb : Edb UpdateToken) (junk : ST → UInt64) (req : SearchRequest ST)

/-- The lookup of all the jobs: is there an entry, and what is in `r`.  Without RocksDB `r` keeps what it held before. -/
def readEntry (token : UpdateToken) (junk : UInt64) : Bool × UInt64 :=
  match edb token with
  | some r => (true, if S.usehdd then copyIndex r else junk)
  | none => (false, junk)

/-- `derive_access`: the value for the callback or the list. -/
def deriveAccess (st : ST) : Option UInt64 :=
  let (token, mask) := S.genUpdateTokenMasks req.derivation_key st
  let (found, r) := readEntry S edb token (junk st)
  if found then some (xorMask r mask) else none

/-- The loop of `search_callback`, which looks an entry up as `derive_access` does. -/
def callbackLoop : Nat → ST → List UInt64
  | 0, _ => []
  | n + 1, st => (deriveAccess S edb junk req st).toList ++ callbackLoop n (S.eval st)

/-- `search_callback`: the values of its calls. -/
def searchCallback : List UInt64 := callbackLoop S edb junk req req.add_count.toNat req.token

/-- What the pools of `search_parallel_callback` run. -/
inductive Task (ST : Type) where
  | access (st : ST) (i : Nat)
  | post (v : UInt64)

/-- The access pool, and the pool for the callback. -/
def Task.pool : Task ST → Nat
  | .access _ _ => 0
  | .post _ => 1

/-- `access_job`, and the call of `post_callback`. -/
def Task.body : Task ST → List (Act (Task ST) UInt64)
  | .access st _ =>
    match deriveAccess S edb junk req st with
    | some v => [.enqueue (.post v)]
    | none => []
  | .post v => [.emit v]

variable (evalOrder : ST → UInt8 → Option ST)

/-- `search_parallel_callback`. -/
def searchParallelCallback (rsa_thread_count access_thread_count post_thread_count : UInt8) :
    Option (Workers.State (Task ST) UInt64) := do
  let jobs ← rsaJobs evalOrder req.token req.add_count.toNat rsa_thread_count
  return start (jobs.map fun l => l.map fun job => .enqueue (.access job.1 job.2))
    [access_thread_count.toNat, post_thread_count.toNat]

/-- `search_parallel_light` and `search_parallel_light_callback`: no pools. -/
def searchParallelLight (thread_count : UInt8) : Option (Workers.State Empty UInt64) := do
  let jobs ← rsaJobs evalOrder req.token req.add_count.toNat thread_count
  return start (jobs.map fun l => l.filterMap fun job => (deriveAccess S edb junk req job.1).map .emit) []

/-- `search_parallel`. -/
def searchParallel (n_threads access_threads : UInt8) : Option (Workers.State ST UInt64) := do
  let jobs ← rsaJobs evalOrder req.token req.add_count.toNat n_threads
  return start (jobs.map fun l => l.map fun job => .enqueue job.1) [access_threads.toNat]

end

end

/-! ## The byte orders -/

theorem packBytes_low (b0 b1 b2 b3 b4 b5 b6 b7 : UInt8) : (packBytes b0 b1 b2 b3 b4 b5 b6 b7).toUInt8 = b0 := by
  apply UInt8.toBitVec_inj.1
  ext j hj
  simp [packBytes]

theorem packBytes_shift (b0 b1 b2 b3 b4 b5 b6 b7 : UInt8) :
    packBytes b0 b1 b2 b3 b4 b5 b6 b7 >>> 8 = packBytes b1 b2 b3 b4 b5 b6 b7 0 := by
  apply UInt64.toBitVec_inj.1
  ext j hj
  simp [packBytes, hj]
  grind

theorem packBytes_inj {b0 b1 b2 b3 b4 b5 b6 b7 c0 c1 c2 c3 c4 c5 c6 c7 : UInt8}
    (h : packBytes b0 b1 b2 b3 b4 b5 b6 b7 = packBytes c0 c1 c2 c3 c4 c5 c6 c7) :
    b0 = c0 ∧ packBytes b1 b2 b3 b4 b5 b6 b7 0 = packBytes c1 c2 c3 c4 c5 c6 c7 0 := by
  constructor
  · rw [← packBytes_low b0 b1 b2 b3 b4 b5 b6 b7, h, packBytes_low]
  · rw [← packBytes_shift b0, h, packBytes_shift]

theorem xor_pairs (a0 a1 a2 a3 a4 a5 a6 a7 b0 b1 b2 b3 b4 b5 b6 b7 : UInt64) :
    (a0 ^^^ b0) ^^^ (a1 ^^^ b1) ^^^ (a2 ^^^ b2) ^^^ (a3 ^^^ b3) ^^^ (a4 ^^^ b4) ^^^ (a5 ^^^ b5) ^^^ (a6 ^^^ b6) ^^^
        (a7 ^^^ b7) =
      (a0 ^^^ a1 ^^^ a2 ^^^ a3 ^^^ a4 ^^^ a5 ^^^ a6 ^^^ a7) ^^^ (b0 ^^^ b1 ^^^ b2 ^^^ b3 ^^^ b4 ^^^ b5 ^^^ b6 ^^^ b7) := by
  ac_rfl

theorem xor_turned (n a0 a1 a2 a3 a4 a5 a6 a7 : UInt64) :
    n ^^^ a0 ^^^ a1 ^^^ a2 ^^^ a3 ^^^ a4 ^^^ a5 ^^^ a6 ^^^ a7 =
      n ^^^ (a7 ^^^ a6 ^^^ a5 ^^^ a4 ^^^ a3 ^^^ a2 ^^^ a1 ^^^ a0) := by
  ac_rfl

theorem packBytes_xor (a0 a1 a2 a3 a4 a5 a6 a7 b0 b1 b2 b3 b4 b5 b6 b7 : UInt8) :
    packBytes (a0 ^^^ b0) (a1 ^^^ b1) (a2 ^^^ b2) (a3 ^^^ b3) (a4 ^^^ b4) (a5 ^^^ b5) (a6 ^^^ b6) (a7 ^^^ b7) =
      packBytes a0 a1 a2 a3 a4 a5 a6 a7 ^^^ packBytes b0 b1 b2 b3 b4 b5 b6 b7 := by
  have hbyte : ∀ (a b : UInt8) (k : UInt64), (a ^^^ b).toUInt64 <<< k = (a.toUInt64 <<< k) ^^^ (b.toUInt64 <<< k) :=
    fun a b k => by rw [UInt8.toUInt64_xor, UInt64.shiftLeft_xor]
  unfold packBytes
  rw [UInt8.toUInt64_xor, hbyte, hbyte, hbyte, hbyte, hbyte, hbyte, hbyte, xor_pairs]

theorem getElem_xor (a mask : UpdateToken) (i : Nat) (hi : i < 16) : (a ^^^ mask)[i] = a[i] ^^^ mask[i] := by
  show (a.zipWith (· ^^^ ·) mask)[i] = _
  rw [Vector.getElem_zipWith]

/-- Numbers are put together byte by byte. -/
theorem copyIndex_xor (a mask : UpdateToken) : copyIndex (a ^^^ mask) = copyIndex a ^^^ copyIndex mask := by
  unfold copyIndex
  rw [← packBytes_xor, getElem_xor, getElem_xor, getElem_xor, getElem_xor, getElem_xor, getElem_xor, getElem_xor,
    getElem_xor]

/-- The first eight bytes read the same from both ends. -/
def Alike (mask : UpdateToken) : Prop :=
  mask[0] = mask[7] ∧ mask[1] = mask[6] ∧ mask[2] = mask[5] ∧ mask[3] = mask[4]

theorem xorMask_eq (n : UInt64) (mask : UpdateToken) :
    xorMask n mask = n ^^^ packBytes mask[7] mask[6] mask[5] mask[4] mask[3] mask[2] mask[1] mask[0] := by
  unfold xorMask packBytes
  rw [xor_turned]

/-- **The two unmaskings** give the same number just where the mask reads alike from both ends. -/
theorem xorMask_copyIndex (r mask : UpdateToken) : xorMask (copyIndex r) mask = copyIndex (r ^^^ mask) ↔ Alike mask := by
  rw [xorMask_eq, copyIndex_xor, UInt64.xor_right_inj]
  constructor
  · intro h
    obtain ⟨h0, h⟩ := packBytes_inj h
    obtain ⟨h1, h⟩ := packBytes_inj h
    obtain ⟨h2, h⟩ := packBytes_inj h
    obtain ⟨h3, -⟩ := packBytes_inj h
    exact ⟨h0.symm, h1.symm, h2.symm, h3.symm⟩
  · rintro ⟨h0, h1, h2, h3⟩
    rw [copyIndex, h0, h1, h2, h3]

/-! ## The tokens of the threads -/

section

variable {ST : Type} {evalOrder : ST → UInt8 → Option ST} {eval : ST → ST} {size : UInt8}

/-- The numbers below `max` from `i` on, in steps of `N`. -/
def strided (max N : Nat) : Nat → Nat → List Nat
  | 0, _ => []
  | rounds + 1, i => if i < max then i :: strided max N rounds (i + N) else []

theorem mem_strided {max N rounds i x : Nat} (hN : 0 < N) (hr : max ≤ i + rounds) :
    x ∈ strided max N rounds i ↔ x < max ∧ ∃ k, x = i + k * N := by
  induction rounds generalizing i with
  | zero =>
    constructor
    · intro h
      exact absurd h List.not_mem_nil
    · rintro ⟨hx, k, rfl⟩
      omega
  | succ rounds ih =>
    unfold strided
    by_cases hi : i < max
    · rw [if_pos hi, List.mem_cons, ih (by omega)]
      constructor
      · rintro (rfl | ⟨hx, k, rfl⟩)
        · exact ⟨hi, 0, by omega⟩
        · exact ⟨hx, k + 1, by rw [Nat.succ_mul]; omega⟩
      · rintro ⟨hx, k, rfl⟩
        cases k with
        | zero =>
          left
          omega
        | succ k => exact Or.inr ⟨hx, k, by rw [Nat.succ_mul]; omega⟩
    · rw [if_neg hi]
      constructor
      · intro h
        exact absurd h List.not_mem_nil
      · rintro ⟨hx, k, rfl⟩
        omega

theorem nodup_strided {max N : Nat} (hN : 0 < N) {rounds i : Nat} (hr : max ≤ i + rounds) :
    (strided max N rounds i).Nodup := by
  induction rounds generalizing i with
  | zero => exact List.nodup_nil
  | succ rounds ih =>
    unfold strided
    split_ifs with hi
    · refine List.nodup_cons.2 ⟨fun hmem => ?_, ih (by omega)⟩
      obtain ⟨-, k, hk⟩ := (mem_strided hN (by omega)).1 hmem
      omega
    · exact List.nodup_nil

/-- **The threads** share the numbers out. -/
theorem flatMap_strided_perm (max : Nat) {N : Nat} (hN : 0 < N) :
    ((List.range N).flatMap fun t => strided max N (max + 1) t).Perm (List.range max) := by
  apply (List.perm_ext_iff_of_nodup ?_ List.nodup_range).2
  · intro x
    rw [List.mem_flatMap, List.mem_range]
    constructor
    · rintro ⟨t, -, hx⟩
      exact ((mem_strided hN (by omega)).1 hx).1
    · intro hx
      refine ⟨x % N, List.mem_range.2 (Nat.mod_lt _ hN), (mem_strided hN (by omega)).2 ⟨hx, x / N, ?_⟩⟩
      rw [Nat.mul_comm]
      exact (Nat.mod_add_div x N).symm
  · refine List.nodup_flatMap.2 ⟨fun t _ => nodup_strided hN (by omega), ?_⟩
    refine List.nodup_range.pairwise_of_forall_ne ?_
    intro t ht t' ht' hne x hx hx'
    obtain ⟨-, k, rfl⟩ := (mem_strided hN (by omega)).1 hx
    obtain ⟨-, k', he⟩ := (mem_strided hN (by omega)).1 hx'
    -- both thread numbers are the remainder
    have hmod := congrArg (· % N) he
    simp only [Nat.add_mul_mod_self_right, Nat.mod_eq_of_lt (List.mem_range.1 ht),
      Nat.mod_eq_of_lt (List.mem_range.1 ht')] at hmod
    exact hne hmod

theorem strided_eq_nil {max N i : Nat} (hi : max ≤ i) (rounds : Nat) : strided max N rounds i = [] := by
  cases rounds with
  | zero => rfl
  | succ rounds => rw [strided, if_neg (by omega)]

/-- The pool of keys takes `order` steps, for the orders up to its size. -/
def Jumps (evalOrder : ST → UInt8 → Option ST) (eval : ST → ST) (size : UInt8) : Prop :=
  ∀ st order, 1 ≤ order → order ≤ size → evalOrder st order = some (eval^[order.toNat] st)

theorem rsaLoop_eq (hE : Jumps evalOrder eval size) {N : UInt8} (hN : 1 ≤ N) (hsize : N ≤ size) (st : ST) (max : Nat)
    {rounds m i : Nat} (hi : m + N.toNat = i) :
    rsaLoop evalOrder max N rounds i (eval^[m] st) =
      some ((strided max N.toNat rounds i).map fun j => (eval^[j] st, j)) := by
  induction rounds generalizing m i with
  | zero => rfl
  | succ rounds ih =>
    unfold rsaLoop strided
    split_ifs
    · have hjump : evalOrder (eval^[m] st) N = some (eval^[i] st) := by
        rw [hE _ N hN hsize, ← Function.iterate_add_apply, Nat.add_comm, hi]
      rw [hjump, Option.bind_eq_bind, Option.bind_some, ih rfl, Option.bind_eq_bind, Option.bind_some]
      rfl
    · rfl

theorem rsaJob_eq (hE : Jumps evalOrder eval size) {N index : UInt8} (hindex : index < N) (hsize : N ≤ size) (st : ST)
    (max : Nat) : rsaJob evalOrder st max N index =
      some ((strided max N.toNat (max + 1) index.toNat).map fun j => (eval^[j] st, j)) := by
  have hlt : index.toNat < N.toNat := UInt8.lt_iff_toNat_lt.1 hindex
  have hN : 1 ≤ N := UInt8.le_iff_toNat_le.2 (show 1 ≤ N.toNat by omega)
  have hjump : (if index ≠ 0 then evalOrder st index else some st) = some (eval^[index.toNat] st) := by
    by_cases h0 : index = 0
    · rw [h0]
      rfl
    · have hpos : 1 ≤ index.toNat := by
        have : index.toNat ≠ 0 := fun e => h0 (UInt8.toNat_inj.1 e)
        omega
      have hle : index ≤ size := by
        apply UInt8.le_iff_toNat_le.2
        have := UInt8.le_iff_toNat_le.1 hsize
        omega
      rw [if_pos h0, hE st index (UInt8.le_iff_toNat_le.2 hpos) hle]
  unfold rsaJob
  rw [hjump, Option.bind_eq_bind, Option.bind_some, rsaLoop_eq hE hN hsize st max rfl, Option.bind_eq_bind,
    Option.bind_some, strided]
  by_cases hmax : index.toNat < max
  · rw [if_pos hmax, if_pos hmax]
    rfl
  · rw [if_neg hmax, if_neg hmax, strided_eq_nil (by omega)]
    rfl

/-- **The RSA threads** compute the tokens of the walk, each once. -/
theorem rsaJobs_eq (hE : Jumps evalOrder eval size) {N : UInt8} (hN : 1 ≤ N) (hsize : N ≤ size) (st : ST) (max : Nat) :
    ∃ jobs, rsaJobs evalOrder st max N = some jobs ∧
      jobs.flatten.Perm ((List.range max).map fun i => (eval^[i] st, i)) := by
  have hpos : 1 ≤ N.toNat := UInt8.le_iff_toNat_le.1 hN
  have hjob : ∀ t ∈ List.range N.toNat, rsaJob evalOrder st max N (UInt8.ofNat t) =
      some ((strided max N.toNat (max + 1) t).map fun j => (eval^[j] st, j)) := by
    intro t ht
    have htN : t < N.toNat := List.mem_range.1 ht
    have hto : (UInt8.ofNat t).toNat = t := UInt8.toNat_ofNat_of_lt' (lt_trans htN N.toNat_lt)
    have hlt : UInt8.ofNat t < N := UInt8.lt_iff_toNat_lt.2 (by rw [hto]; exact htN)
    rw [rsaJob_eq hE hlt hsize, hto]
  refine ⟨_, mapM_eq_some_map hjob, ?_⟩
  rw [← List.flatMap_def, ← List.map_flatMap]
  exact (flatMap_strided_perm max hpos).map _

end

/-! ## The walks -/

section

variable {B ST : Type} [XorOp B]

/-- The search tokens of the walk. -/
def walk (S : Setting B ST) (req : SearchRequest ST) : List ST :=
  (List.range req.add_count.toNat).map fun i => S.eval^[i] req.token

/-- The entry under a search token, unmasked. -/
def entryAt (S : Setting B ST) (edb : Edb B) (req : SearchRequest ST) (st : ST) : Option B :=
  let (token, mask) := S.genUpdateTokenMasks req.derivation_key st
  (edb token).map (· ^^^ mask)

/-- The tokens of a walk of `n + 1` steps. -/
theorem range_succ_walk {α : Type} (eval : ST → ST) (f : ST → List α) (n : Nat) (st : ST) :
    (List.range (n + 1)).flatMap (fun i => f (eval^[i] st)) =
      f st ++ (List.range n).flatMap fun i => f (eval^[i] (eval st)) := by
  rw [List.range_succ_eq_map, List.flatMap_cons, List.flatMap_map]
  rfl

/-- **The walk** without deletion, token by token. -/
theorem serverSearch_keep [DecidableEq B] (S : Setting B ST) (edb : Edb B) (req : SearchRequest ST) :
    serverSearch S false edb req = (edb, (walk S req).filterMap (entryAt S edb req)) := by
  unfold serverSearch walk
  rw [List.filterMap_map, List.filterMap_eq_flatMap_toList]
  simp only [Function.comp_def]
  generalize req.add_count.toNat = n
  generalize req.token = st
  induction n generalizing st with
  | zero => rfl
  | succ n ih =>
    rw [searchLoop, range_succ_walk S.eval fun st => (entryAt S edb req st).toList]
    simp only [entryAt, Bool.false_eq_true, if_false]
    cases edb (S.genUpdateTokenMasks req.derivation_key st).1 with
    | none => simp only [ih]; rfl
    | some r => simp only [ih]; rfl

end

/-! ## What they deliver -/

section

variable {ST : Type} {S : Setting UpdateToken ST} {edb : Edb UpdateToken} {junk junk' : ST → UInt64}
  {req : SearchRequest ST}

/-- **The walk with a callback**, token by token. -/
theorem searchCallback_eq : searchCallback S edb junk req = (walk S req).filterMap (deriveAccess S edb junk req) := by
  unfold searchCallback walk
  rw [List.filterMap_map, List.filterMap_eq_flatMap_toList]
  simp only [Function.comp_def]
  generalize req.add_count.toNat = n
  generalize req.token = st
  induction n generalizing st with
  | zero => rfl
  | succ n ih => rw [callbackLoop, range_succ_walk S.eval fun st => (deriveAccess S edb junk req st).toList, ih]

/-- With RocksDB what `r` held before makes no difference. -/
theorem deriveAccess_hdd (hhdd : S.usehdd = true) (st : ST) : deriveAccess S edb junk req st =
    (edb (S.genUpdateTokenMasks req.derivation_key st).1).map fun r =>
      xorMask (copyIndex r) (S.genUpdateTokenMasks req.derivation_key st).2 := by
  unfold deriveAccess readEntry
  simp only [hhdd, if_true]
  cases edb (S.genUpdateTokenMasks req.derivation_key st).1 <;> rfl

theorem searchCallback_hdd (hhdd : S.usehdd = true) : searchCallback S edb junk req = searchCallback S edb junk' req := by
  rw [searchCallback_eq, searchCallback_eq]
  exact List.filterMap_congr fun st _ => (deriveAccess_hdd hhdd st).trans (deriveAccess_hdd hhdd st).symm

/-- What comes out of a list of lookups. -/
theorem sum_results_filterMap {T α R : Type} {outs : T → Multiset R} (f : α → Option R) (ls : List (List α)) :
    ((ls.map fun l => l.filterMap fun a => (f a).map Act.emit).map (results outs)).sum = (ls.flatten.filterMap f : Multiset R) := by
  have hone : ∀ l : List α, results outs (l.filterMap fun a => (f a).map Act.emit) = (l.filterMap f : Multiset R) := by
    intro l
    induction l with
    | nil => rfl
    | cons a l ih =>
      cases hf : f a with
      | none => simp [hf, ih]
      | some r => simp [hf, ih, Act.results]
  induction ls with
  | nil => rfl
  | cons l ls ih =>
    rw [List.map_cons, List.map_cons, List.sum_cons, ih, hone, List.flatten_cons, List.filterMap_append,
      Multiset.coe_add]

/-- What comes of a list of tasks. -/
theorem sum_results_enqueue {T α R : Type} {outs : T → Multiset R} (task : α → T) (f : α → List R)
    (h : ∀ a, outs (task a) = f a) (ls : List (List α)) :
    ((ls.map fun l => l.map fun a => Act.enqueue (task a)).map (results outs)).sum = (ls.flatten.flatMap f : Multiset R) := by
  have hone : ∀ l : List α, results outs (l.map fun a => Act.enqueue (task a)) = (l.flatMap f : Multiset R) := by
    intro l
    induction l with
    | nil => rfl
    | cons a l ih => simp [ih, Act.results, h]
  induction ls with
  | nil => rfl
  | cons l ls ih =>
    rw [List.map_cons, List.map_cons, List.sum_cons, ih, hone, List.flatten_cons, List.flatMap_append,
      Multiset.coe_add]

def Task.outs (S : Setting UpdateToken ST) (edb : Edb UpdateToken) (junk : ST → UInt64) (req : SearchRequest ST) :
    Task ST → Multiset UInt64
  | .access st _ => (deriveAccess S edb junk req st).toList
  | .post v => {v}

def Task.work : Task ST → Nat
  | .access _ _ => 4
  | .post _ => 2

theorem Task.body_access (st : ST) (i : Nat) : Task.body S edb junk req (.access st i) =
    (deriveAccess S edb junk req st).toList.map fun v => .enqueue (.post v) := by
  cases hd : deriveAccess S edb junk req st <;> simp [Task.body, hd]

theorem staged_task : Staged (Task.outs S edb junk req) Task.work Task.pool (Task.body S edb junk req) 2 where
  pool_lt t := by cases t <;> simp [Task.pool]
  up t t' h := by
    cases t with
    | access st i =>
      rw [Task.body_access, List.mem_map] at h
      obtain ⟨v, -, hv⟩ := h
      cases hv
      exact Nat.zero_lt_one
    | post v => simp [Task.body] at h
  outs_eq t := by
    cases t with
    | access st i =>
      rw [Task.body_access, Task.outs]
      cases deriveAccess S edb junk req st with
      | none => rfl
      | some v => simp [Act.results, Task.outs]
    | post v => simp [Task.body, Task.outs, Act.results]
  work_lt t := by
    cases t with
    | access st i =>
      rw [Task.body_access, Task.work]
      cases deriveAccess S edb junk req st with
      | none => simp
      | some v => simp [Workers.Act.cost, Task.work]
    | post v => simp [Task.body, Task.work, Workers.Act.cost]

/-! ## In any order of steps -/

variable {evalOrder : ST → UInt8 → Option ST} {size : UInt8}

/-- **`search_parallel_callback`** makes the calls of the walk. -/
theorem delivers_callback (hE : Jumps evalOrder S.eval size) {N access post : UInt8} (hN : 1 ≤ N) (hsize : N ≤ size)
    (haccess : 1 ≤ access) (hpost : 1 ≤ post) :
    ∃ s₀, searchParallelCallback req evalOrder N access post = some s₀ ∧
      Delivers Task.pool (Task.body S edb junk req) s₀ (searchCallback S edb junk req) := by
  obtain ⟨jobs, hjobs, hperm⟩ := rsaJobs_eq hE hN hsize req.token req.add_count.toNat
  refine ⟨_, by rw [searchParallelCallback, hjobs]; rfl, Workers.delivers_start staged_task ?_ ?_⟩
  · intro k hk
    have := UInt8.le_iff_toNat_le.1 haccess
    have := UInt8.le_iff_toNat_le.1 hpost
    simp only [List.mem_cons, List.not_mem_nil, or_false] at hk
    rcases hk with rfl | rfl <;> assumption
  · rw [sum_results_enqueue (fun job : ST × Nat => Task.access job.1 job.2)
      (fun job => (deriveAccess S edb junk req job.1).toList) fun _ => rfl, searchCallback_eq, Multiset.coe_eq_coe]
    refine (hperm.flatMap_right _).trans ?_
    rw [List.flatMap_map, List.filterMap_eq_flatMap_toList, walk, List.flatMap_map]

/-- **The light searches** make them as well. -/
theorem delivers_light (hE : Jumps evalOrder S.eval size) {N : UInt8} (hN : 1 ≤ N) (hsize : N ≤ size) :
    ∃ s₀, searchParallelLight S edb junk req evalOrder N = some s₀ ∧
      Delivers Empty.elim Empty.elim s₀ (searchCallback S edb junk req) := by
  obtain ⟨jobs, hjobs, hperm⟩ := rsaJobs_eq hE hN hsize req.token req.add_count.toNat
  have hstaged : Staged (Empty.elim : Empty → Multiset UInt64) Empty.elim Empty.elim Empty.elim 0 :=
    ⟨fun t => t.elim, fun t => t.elim, fun t => t.elim, fun t => t.elim⟩
  refine ⟨_, by rw [searchParallelLight, hjobs]; rfl,
    Workers.delivers_start hstaged (fun k hk => absurd hk List.not_mem_nil) ?_⟩
  rw [sum_results_filterMap (fun job : ST × Nat => deriveAccess S edb junk req job.1), searchCallback_eq,
    Multiset.coe_eq_coe]
  refine (hperm.filterMap _).trans ?_
  rw [List.filterMap_map, walk, List.filterMap_map]
  exact List.Perm.refl _

/-- **The number and the payload** of an entry: the access jobs find what `search` finds, and they give the first
eight bytes of its payload just where the mask reads alike from both ends. -/
theorem deriveAccess_payload (hhdd : S.usehdd = true) (st : ST) {v : UpdateToken} (hv : entryAt S edb req st = some v) :
    ∃ n, deriveAccess S edb junk req st = some n ∧
      (n = copyIndex v ↔ Alike (S.genUpdateTokenMasks req.derivation_key st).2) := by
  obtain ⟨r, hr, rfl⟩ := Option.map_eq_some_iff.1 hv
  exact ⟨_, by rw [deriveAccess_hdd hhdd, hr, Option.map_some], xorMask_copyIndex r _⟩

theorem deriveAccess_eq_none (hhdd : S.usehdd = true) (st : ST) :
    deriveAccess S edb junk req st = none ↔ entryAt S edb req st = none := by
  rw [deriveAccess_hdd hhdd, entryAt, Option.map_eq_none_iff, Option.map_eq_none_iff]

/-- **The parallel searches agree with `search_callback`**, on every store in RocksDB and every request: with at most
as many RSA threads as the pool has orders, whatever the order of the steps of RSA threads, access threads and the
threads for the callback, no task is handed to a stopped pool, every run ends, and the values delivered are those of
`search_callback`, in some order.  Both make one call for each payload of `search`, and the call has the first eight
bytes of the payload just where the mask reads alike from both ends. -/
theorem sophos_parallel_agrees (S : Setting UpdateToken ST) (hhdd : S.usehdd = true) (edb : Edb UpdateToken)
    (junk junk' : ST → UInt64) (req : SearchRequest ST) (evalOrder : ST → UInt8 → Option ST) (size : UInt8)
    (hE : Jumps evalOrder S.eval size) (N access post : UInt8) (hN : 1 ≤ N) (hsize : N ≤ size) (haccess : 1 ≤ access)
    (hpost : 1 ≤ post) :
    (∃ s₀, searchParallelCallback req evalOrder N access post = some s₀ ∧
      Delivers Task.pool (Task.body S edb junk req) s₀ (searchCallback S edb junk' req)) ∧
      (∃ s₀, searchParallelLight S edb junk req evalOrder N = some s₀ ∧
        Delivers Empty.elim Empty.elim s₀ (searchCallback S edb junk' req)) ∧
      (searchCallback S edb junk' req = (walk S req).filterMap (deriveAccess S edb junk' req) ∧
        (serverSearch S false edb req).2 = (walk S req).filterMap (entryAt S edb req) ∧
        ∀ st, (deriveAccess S edb junk' req st = none ↔ entryAt S edb req st = none) ∧
          ∀ v, entryAt S edb req st = some v → ∃ n, deriveAccess S edb junk' req st = some n ∧
            (n = copyIndex v ↔ Alike (S.genUpdateTokenMasks req.derivation_key st).2)) := by
  refine ⟨?_, ?_, searchCallback_eq, congrArg Prod.snd (serverSearch_keep S edb req), fun st => ?_⟩
  · rw [searchCallback_hdd hhdd]
    exact delivers_callback hE hN hsize haccess hpost
  · rw [searchCallback_hdd hhdd]
    exact delivers_light hE hN hsize
  · exact ⟨deriveAccess_eq_none hhdd st, fun v hv => deriveAccess_payload hhdd st hv⟩

end

/-! ## Over the permutation -/

section

variable {kMessageSize : Nat} {K : TdpKey kMessageSize} {B : Type} {H : Hashes B} {junk : Token K}
  {usehdd deleteItems : Bool}

/-- The server's pool of keys jumps along the chain. -/
theorem jumps_pool {size : UInt8} {P : TdpMultPool} (hP : TdpMultPool.new (publicHalf K.toKey) size = some P) :
    Jumps P.evalToken (tdpSetting K H junk usehdd deleteItems).eval size := by
  intro st order hpos hle
  have hperm : ((tokenPerm K) ^ order.toNat) st = (tokenPerm K)^[order.toNat] st := by
    rw [← Equiv.Perm.iterate_eq_pow]
  unfold TdpMultPool.evalToken
  rw [poolEval_token hP hpos hle, tdpSetting_eval, Option.bind_eq_bind, Option.bind_some,
    dif_pos ((tokenPerm K ^ order.toNat) st).2, ← hperm]

variable [XorOp B] [DecidableEq B]

/-- **Sophos over its permutation.**  After every run of updates and searches, with RSA below, a search of `w` answers
with the payloads of `w` that no search has removed, the last first.  It is assumed that the update tokens differ. -/
theorem tdp_sophos_exact [LawfulXor B] (K : TdpKey kMessageSize) (H : Hashes B) (junk : Token K)
    (usehdd deleteItems : Bool) (ops : List (SophosOp B)) (w : Str) (remove : Bool)
    (hb : ∀ w, (updatesOf ops w).length < 2 ^ 32)
    (hinj : ∀ op ∈ ops ++ [.search w remove], ∀ op' ∈ ops ++ [.search w remove], ∀ i i', i < 2 ^ 32 → i' < 2 ^ 32 →
      token (tdpSetting K H junk usehdd deleteItems) op.keyword i =
        token (tdpSetting K H junk usehdd deleteItems) op'.keyword i' → op.keyword = op'.keyword ∧ i = i') :
    let S := tdpSetting K H junk usehdd deleteItems
    let st := sophosAfter S ops
    (serverSearch S remove st.edb (searchRequest S st.ramCounter w)).2 = ((updatesOf ops w).filterMap id).reverse := by
  intro S st
  have hS : Chained S fun w' => ∃ op ∈ ops ++ [SophosOp.search w remove], op.keyword = w' := by
    apply chained_tdp
    rintro w' w'' i i' ⟨op, hop, rfl⟩ ⟨op', hop', rfl⟩ hi hi' he
    exact hinj op hop op' hop' i i' hi hi' he
  have hst := stores_after hS (fun op hop => ⟨op, List.mem_append_left _ hop, rfl⟩) hb
  have hsearch := hst.serverSearch hS ⟨.search w remove, by simp, rfl⟩ remove
  exact congrArg Prod.snd hsearch

end

/-! ## Instances -/

/-- Hashes that keep the keyword and the search token apart. -/
def plainHashes : Hashes Str where
  getKeywordIndex := id
  rsaPrg _ := [4]
  derivationPrf := id
  genUpdateTokenMasks derivation_key st := (derivation_key ++ st, [9])
  encode := id
  decode := some

def token4 : Token key55 := ⟨⟨[4], rfl⟩, by decide⟩

/-- The first bytes of a string, as an array. -/
def wide (l : List UInt8) : UpdateToken := Vector.ofFn fun i => l.getD i 0

/-- The same hashes with arrays. -/
def wideHashes : Hashes UpdateToken where
  getKeywordIndex := id
  rsaPrg _ := [4]
  derivationPrf := id
  genUpdateTokenMasks derivation_key st := (wide (derivation_key ++ st), wide [9])
  encode := wide
  decode a := some a.toList

/-- Entries under two of the tokens. -/
def wideEdb : Edb UpdateToken := fun t => if t = wide [97, 4] ∨ t = wide [97, 9] then some (wide [12, 5]) else none

/-- Two RSA threads, two access threads and one for the callback, on a chain of four tokens. -/
theorem sophos_parallel_agrees_55 :
    let S := tdpSetting key55 wideHashes token4 true false
    let P : TdpMultPool := ⟨publicHalf key55.toKey, poolKeys (publicHalf key55.toKey) 3⟩
    let req : SearchRequest (Token key55) := ⟨token4, [97], 4⟩
    (∃ s₀, searchParallelCallback req P.evalToken 2 2 1 = some s₀ ∧
      Delivers Task.pool (Task.body S wideEdb (fun _ => 1) req) s₀ (searchCallback S wideEdb (fun _ => 2) req)) ∧
      ∃ s₀, searchParallelLight S wideEdb (fun _ => 1) req P.evalToken 2 = some s₀ ∧
        Delivers Empty.elim Empty.elim s₀ (searchCallback S wideEdb (fun _ => 2) req) := by
  intro S P req
  have h := sophos_parallel_agrees S rfl wideEdb (fun _ => 1) (fun _ => 2) req P.evalToken 4 (jumps_pool rfl) 2 2 1
    (by decide) (by decide) (by decide) (by decide)
  exact ⟨h.1, h.2.1⟩

def startToken : Token keyLong := ⟨⟨[0, 0, 0, 0, 4], rfl⟩, by decide⟩

/-- No two update tokens of this client are the same. -/
theorem token_keyLong_inj {w w' : Str} {i i' : Nat} (hi : i < 2 ^ 32) (hi' : i' < 2 ^ 32)
    (h : token (tdpSetting keyLong plainHashes startToken true false) w i =
      token (tdpSetting keyLong plainHashes startToken true false) w' i') : w = w' ∧ i = i' := by
  set S := tdpSetting keyLong plainHashes startToken true false with hS
  have hstart : ∀ w, (S.generateArray w).1.toNat = 4 := by
    intro w
    obtain ⟨t, ht, hval⟩ := generateArray_token (K := keyLong) plainHashes.rsaPrg w
    have hget : S.generateArray w = t := Token.get_eq ht ⟨t, ht⟩
    rw [hget, hval]
    exact (by decide : bin2bn [4] % keyLong.n = 4)
  have hsame : S.generateArray w = S.generateArray w' :=
    Subtype.ext (Message.toNat_inj ((hstart w).trans (hstart w').symm))
  have hchain : ∀ w i, i < 2 ^ 32 → chain S w i = ((tokenPerm keyLong)⁻¹ ^ i) (S.generateArray w) := by
    intro w i hi
    have hto : (UInt32.ofNat i).toNat = i := by rw [UInt32.toNat_ofNat', Nat.mod_eq_of_lt hi]
    have hmult : chain S w i = ((tokenPerm keyLong)⁻¹ ^ (UInt32.ofNat i).toNat) (S.generateArray w) :=
      tdpSetting_invertMult _ _
    rw [hmult, hto]
  have happ : w ++ (chain S w i).1.data = w' ++ (chain S w' i').1.data := h
  obtain ⟨hw, hdata⟩ := List.append_inj' happ ((chain S w i).1.size.trans (chain S w' i').1.size.symm)
  refine ⟨hw, keyLong_injOn (S.generateArray w) (hstart w) hi hi' ?_⟩
  rw [← hchain w i hi, hsame, ← hchain w' i' hi']
  exact Subtype.ext (Message.toNat_inj (congrArg bin2bn hdata))

/-- Two updates of `a`, one of `b`, a search of `a` that deletes, and one more update of `a`. -/
theorem tdp_sophos_exact_ab :
    let S := tdpSetting keyLong plainHashes startToken true false
    let ops : List (SophosOp Str) := [.update [97] [1], .update [98] [2], .update [97] [3], .search [97] true,
      .update [97] [4]]
    let st := sophosAfter S ops
    (serverSearch S false st.edb (searchRequest S st.ramCounter [97])).2 =
      ((updatesOf ops [97]).filterMap id).reverse := by
  intro S ops
  refine tdp_sophos_exact keyLong plainHashes startToken true false ops [97] false ?_ ?_
  · intro w
    simp only [ops, updatesOf, List.foldl_cons, List.foldl_nil]
    split_ifs <;> simp
  · intro op _ op' _ i i' hi hi' he
    exact token_keyLong_inj hi hi' he

end Sse.Fides
