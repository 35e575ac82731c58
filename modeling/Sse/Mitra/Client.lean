import Sse.Basic.Bytes
import Sse.Lib.Runs
import Sse.Lib.Tally

/-!
# Mitra

`Client` and the in-memory `Server` of Mitra, on one machine and outside setup mode.
The server is a dictionary from addresses to ciphertexts; the client keeps a file
counter per keyword and, with `deleteFiles`, a search counter.  Address and pad of an
entry come from one 16-byte seed, which `getAESRandomValue` writes into the keyword
buffer `k_w` itself:

    deleteFiles = false    w[0..10]          op[11]  fileCnt[12..15]
    deleteFiles = true     w[0..6]  srcCnt   op[11]  fileCnt[12..15]

Only the buffer is rewritten, and `search` goes on using it as a map key afterwards.
`Prg::derive` is a parameter.  The eleven `rand()` bytes of a ciphertext are inputs of
the call that draws them.
-/

namespace Sse.Mitra

/-- `prf_type`. -/
structure PrfType where
  data : List UInt8
  size : data.length = 16
deriving DecidableEq

theorem PrfType.ext_data {a b : PrfType} (h : a.data = b.data) : a = b := by
  cases a; cases b; cases h; rfl

/-- The all-zero block. -/
def notfound : PrfType := ⟨List.replicate 16 0, by simp⟩

/-- The buffer `k_w` of a keyword. -/
def keyBuf (keyword : Str) : PrfType := ⟨padTo 16 keyword, length_padTo 16 keyword⟩

inductive OP where
  | INS | DEL
deriving DecidableEq

def OP.code : OP → UInt8
  | .INS => 0
  | .DEL => 1

instance neZero_255 : NeZero 255 := ⟨by decide⟩

/-- The bytes `rand() % 255` of one ciphertext. -/
abbrev Fill := Fin 11 → Fin 255

/-- What a ciphertext hides: the ind, the operation and the fill. -/
def plain (ind : Int32) (op : OP) (fill : Fill) : PrfType :=
  ⟨toBytes ind ++ op.code :: List.ofFn fun i => (fill i).val.toUInt8, by simp⟩

/-- `Client::bitwiseXOR` of two blocks. -/
def bitwiseXOR (input1 input2 : PrfType) : PrfType :=
  ⟨List.zipWith (· ^^^ ·) input1.data input2.data, by simp [input1.size, input2.size]⟩

/-- `Client::bitwiseXOR` of an ind and an operation with a pad. -/
def bitwiseXORInd (ind : Int32) (op : OP) (fill : Fill) (input2 : PrfType) : PrfType :=
  bitwiseXOR (plain ind op fill) input2

structure State where
  fileCnt : PrfType → Option Int32
  srcCnt : PrfType → Option Int32
  /-- `DictW[addr]`; an absent address reads as the all-zero block. -/
  dictW : PrfType → PrfType

def init : State := ⟨fun _ => none, fun _ => none, fun _ => notfound⟩

/-- `Server::search`: the entries that are there, in the order asked for. -/
def serverSearch (dictW : PrfType → PrfType) (kList : List PrfType) : List PrfType :=
  (kList.map dictW).filter (· ≠ notfound)

section

variable (prg : PrfType → PrfType) (deleteFiles : Bool)

/-- The keyword buffer after the writes of `getAESRandomValue`. -/
def seed (k_w : PrfType) (op : UInt8) (srcCnt fileCnt : Int32) : PrfType :=
  ⟨(if deleteFiles then k_w.data.take 7 ++ toBytes srcCnt else k_w.data.take 11) ++ op :: toBytes fileCnt,
    by cases deleteFiles <;> simp [k_w.size]⟩

/-- `Client::getAESRandomValue`: the buffer it leaves and the value it derives. -/
def getAESRandomValue (k_w : PrfType) (op : UInt8) (srcCnt fileCnt : Int32) : PrfType × PrfType :=
  let k := seed deleteFiles k_w op srcCnt fileCnt
  (k, prg k)

/-- The file counter of the next update. -/
def nextFileCnt : Option Int32 → Int32
  | none => 1
  | some n => n + 1

/-- `Client::updateRequest`: the new client state, the address and the ciphertext. -/
def updateRequest (st : State) (op : OP) (keyword : Str) (ind : Int32) (fill : Fill) :
    State × PrfType × PrfType :=
  let k_w := keyBuf keyword
  let fileCnt := nextFileCnt (st.fileCnt k_w)
  let srcCnt := if deleteFiles then (st.srcCnt k_w).getD 0 else 0
  let st1 : State := { st with
    fileCnt := Function.update st.fileCnt k_w (some fileCnt)
    srcCnt := if deleteFiles then Function.update st.srcCnt k_w (some srcCnt) else st.srcCnt }
  let (k1, addr) := getAESRandomValue prg deleteFiles k_w 0 srcCnt fileCnt
  let (_, rnd) := getAESRandomValue prg deleteFiles k1 1 srcCnt fileCnt
  (st1, addr, bitwiseXORInd ind op fill rnd)

/-- `Client::update`, with `Server::update`. -/
def update (st : State) (op : OP) (keyword : Str) (ind : Int32) (fill : Fill) : State :=
  let (st1, addr, val) := updateRequest prg deleteFiles st op keyword ind fill
  { st1 with dictW := Function.update st1.dictW addr val }

/-- The counters `1 .. fileCnt`. -/
def counters (fileCnt : Int32) : List Int32 :=
  (List.range fileCnt.toInt.toNat).map fun i => Int32.ofNat (i + 1)

/-- The loop that fills `KList`. -/
def addrLoop (srcCnt : Int32) (k_w : PrfType) : List Int32 → PrfType × List PrfType
  | [] => (k_w, [])
  | i :: is =>
    let (k, rnd) := getAESRandomValue prg deleteFiles k_w 0 srcCnt i
    let (k', rest) := addrLoop srcCnt k is
    (k', rnd :: rest)

/-- The loop over the server's reply, which counts the operations of each ind. -/
def decodeLoop (srcCnt : Int32) (k_w : PrfType) (cnt : Int32) (remove : SortedMap Int32 Int32) :
    List PrfType → PrfType × SortedMap Int32 Int32
  | [] => (k_w, remove)
  | c :: cs =>
    let (k, tmp) := getAESRandomValue prg deleteFiles k_w 1 srcCnt cnt
    let plaintextBytes := bitwiseXOR tmp c
    let plaintext := readInt plaintextBytes.data
    let opByte := plaintextBytes.data.getD 4 0
    let remove' := remove.alter plaintext 0 (· + (2 * Int32.ofNat opByte.toNat - 1))
    decodeLoop srcCnt k (cnt + 1) remove' cs

/-- The loop that writes the live inds back under the next search counter. -/
def cleanLoop (srcCnt : Int32) (k_w : PrfType) (fileCnt : Int32) (fills : Nat → Fill)
    (dictW : PrfType → PrfType) : List Int32 → PrfType × Int32 × (PrfType → PrfType)
  | [] => (k_w, fileCnt, dictW)
  | ind :: inds =>
    let (k1, addr) := getAESRandomValue prg deleteFiles k_w 0 srcCnt (fileCnt + 1)
    let (k2, rnd) := getAESRandomValue prg deleteFiles k1 1 srcCnt (fileCnt + 1)
    cleanLoop srcCnt k2 (fileCnt + 1) (fun i => fills (i + 1))
      (Function.update dictW addr (bitwiseXORInd ind .INS (fills 0) rnd)) inds

/-- The query of `search`: the addresses are asked for and the reply is decoded. -/
def query (dictW : PrfType → PrfType) (srcCnt : Int32) (k_w : PrfType) (fileCnt : Int32) :
    PrfType × SortedMap Int32 Int32 :=
  let (k1, kList) := addrLoop prg deleteFiles srcCnt k_w (counters fileCnt)
  decodeLoop prg deleteFiles srcCnt k1 1 SortedMap.empty (serverSearch dictW kList)

/-- The cleaning of `search`: the counters are advanced under the buffers as the loops left
them, which are no longer the keyword's. -/
def cleanUp (st : State) (srcCnt : Int32) (k_w : PrfType) (fills : Nat → Fill) (finalRes : List Int32) : State :=
  let srcCnt' := Function.update st.srcCnt k_w (some ((st.srcCnt k_w).getD 0 + 1))
  let (k3, fileCnt, dictW) := cleanLoop prg deleteFiles (srcCnt + 1) k_w 0 fills st.dictW finalRes
  { fileCnt := Function.update st.fileCnt k3 (some fileCnt), srcCnt := srcCnt', dictW := dictW }

/-- The state after `SrcCnt[k_w]`, which creates the entry. -/
def touchSrcCnt (st : State) (k_w : PrfType) : State :=
  { st with
    srcCnt := if deleteFiles then Function.update st.srcCnt k_w (some ((st.srcCnt k_w).getD 0)) else st.srcCnt }

/-- `Client::search`.  No list comes back for a negative counter, where `KList.reserve` throws,
and for the largest `int`, where `i <= fileCnt` never fails. -/
def search (st : State) (keyword : Str) (fills : Nat → Fill) : State × Option (List Int32) :=
  let k_w := keyBuf keyword
  match st.fileCnt k_w with
  | none => (st, some [])
  | some fileCnt =>
    let srcCnt := if deleteFiles then (st.srcCnt k_w).getD 0 else 0
    let st1 := touchSrcCnt deleteFiles st k_w
    if fileCnt < 0 ∨ fileCnt = Int32.maxValue then (st1, none)
    else
      let (k2, remove) := query prg deleteFiles st1.dictW srcCnt k_w fileCnt
      let finalRes := remove.keysWhere (· < 0)
      (if deleteFiles then cleanUp prg deleteFiles st1 srcCnt k2 fills finalRes else st1, some finalRes)

/-- The calls of the public interface, each with the random bytes it draws. -/
inductive Op where
  | update (op : OP) (keyword : Str) (ind : Int32) (fill : Fill)
  | search (keyword : Str) (fills : Nat → Fill)

def Op.keyword : Op → Str
  | .update _ w _ _ | .search w _ => w

/-- One call; the output is `none` for a call that gives no list. -/
def step (st : State) : Op → State × Option (List Int32)
  | .update op w ind fill => (update prg deleteFiles st op w ind fill, some [])
  | .search w fills => search prg deleteFiles st w fills

/-- The state after a sequence of calls on a fresh client and server. -/
def after (ops : List Op) : State := ops.foldl (fun st op => (step prg deleteFiles st op).1) init

@[simp] theorem after_nil : after prg deleteFiles [] = init := rfl

@[simp] theorem after_concat (ops : List Op) (op : Op) :
    after prg deleteFiles (ops ++ [op]) = (step prg deleteFiles (after prg deleteFiles ops) op).1 := by
  simp [after]

end

/-! ## Seeds -/

/-- The bytes of the keyword that a seed keeps. -/
def width (deleteFiles : Bool) : Nat := if deleteFiles then 7 else 11

theorem width_le (deleteFiles : Bool) : width deleteFiles ≤ 16 := by
  cases deleteFiles <;> decide

theorem seed_data (df : Bool) (k : PrfType) (op : UInt8) (s f : Int32) :
    (seed df k op s f).data =
      k.data.take (width df) ++ ((if df then toBytes s else []) ++ op :: toBytes f) := by
  cases df <;> simp [seed, width]

theorem take_seed (df : Bool) (k : PrfType) (op : UInt8) (s f : Int32) :
    (seed df k op s f).data.take (width df) = k.data.take (width df) := by
  have hw := width_le df
  rw [seed_data, List.take_append_of_le_length (by simp [k.size, hw]), List.take_take, Nat.min_self]

/-- A seed overwrites everything an earlier seed put into the buffer. -/
@[simp] theorem seed_seed (df : Bool) (k : PrfType) (op op' : UInt8) (s f s' f' : Int32) :
    seed df (seed df k op s f) op' s' f' = seed df k op' s' f' := by
  apply PrfType.ext_data
  rw [seed_data, take_seed, seed_data]

theorem seed_inj {df : Bool} {k k' : PrfType} {op op' : UInt8} {s s' f f' : Int32}
    (h : seed df k op s f = seed df k' op' s' f') :
    k.data.take (width df) = k'.data.take (width df) ∧ op = op' ∧ f = f' := by
  have hd := congrArg PrfType.data h
  rw [seed_data, seed_data] at hd
  obtain ⟨h1, h2⟩ := List.append_inj hd (by simp [k.size, k'.size])
  obtain ⟨-, h3⟩ := List.append_inj h2 (by cases df <;> simp)
  obtain ⟨h4, h5⟩ := List.cons.inj h3
  exact ⟨h1, h4, toBytes_injective h5⟩

theorem take_keyBuf (df : Bool) (w : Str) : (keyBuf w).data.take (width df) = padTo (width df) w :=
  take_padTo (width_le df) w

/-- What an update writes, in terms of the seeds it uses. -/
theorem update_eq (prg : PrfType → PrfType) (df : Bool) (st : State) (op : OP) (w : Str) (ind : Int32)
    (fill : Fill) :
    update prg df st op w ind fill =
      let c := nextFileCnt (st.fileCnt (keyBuf w))
      let s := if df then (st.srcCnt (keyBuf w)).getD 0 else 0
      { fileCnt := Function.update st.fileCnt (keyBuf w) (some c)
        srcCnt := if df then Function.update st.srcCnt (keyBuf w) (some s) else st.srcCnt
        dictW := Function.update st.dictW (prg (seed df (keyBuf w) 0 s c))
          (bitwiseXORInd ind op fill (prg (seed df (keyBuf w) 1 s c))) } := by
  simp only [update, updateRequest, getAESRandomValue, seed_seed]

theorem updateRequest_val (prg : PrfType → PrfType) (df : Bool) (st : State) (op : OP) (w : Str)
    (ind : Int32) (fill : Fill) :
    (updateRequest prg df st op w ind fill).2.2 =
      bitwiseXORInd ind op fill (prg (seed df (keyBuf w) 1 (if df then (st.srcCnt (keyBuf w)).getD 0 else 0)
        (nextFileCnt (st.fileCnt (keyBuf w))))) := by
  simp only [updateRequest, getAESRandomValue, seed_seed]

/-- The loops leave the keyword part of the buffer alone. -/
theorem seed_addrLoop (prg : PrfType → PrfType) (df : Bool) (s : Int32) (k : PrfType) (is : List Int32) :
    seed df (addrLoop prg df s k is).1 = seed df k := by
  induction is generalizing k with
  | nil => rfl
  | cons i is ih =>
    simp only [addrLoop, getAESRandomValue, ih]
    funext op s' f
    rw [seed_seed]

theorem addrLoop_snd (prg : PrfType → PrfType) (df : Bool) (s : Int32) (k : PrfType) (is : List Int32) :
    (addrLoop prg df s k is).2 = is.map fun i => prg (seed df k 0 s i) := by
  induction is generalizing k with
  | nil => rfl
  | cons i is ih =>
    simp only [addrLoop, getAESRandomValue, List.map_cons, ih, seed_seed]

end Sse.Mitra
