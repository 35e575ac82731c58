import Sse.Crypto.Prg
import Sse.Diana.Core

/-!
# Diana on its generator

The token tree, the update tokens and the masks of Diana, made by `Prg::derive` out of
16-byte blocks, in the build with AES-NI or in the one with OpenSSL, whose functions are AES-128.  A node's children are
bytes 0 to 15 and 16 to 31 of its key stream, whether they are derived one by one or
together, so a client and a server of different builds derive the same tree.

    Splits derive derive32                                     (prgPrims_splits)
    prgPrims build = prgPrims build'                           (prgPrims_build)
-/

namespace Sse.Diana

open Crypto Aes

variable {T : Type*}

/-- What a call of `derive` writes. -/
def written (out : Except String (List UInt8)) : List UInt8 := out.toOption.getD []

/-- `TokenTree::kTokenSize`, and the offset of the right child. -/
def kTokenSize : UInt32 := 16

/-- The functions of a client or server; `ofBytes` lays a payload of `size` bytes over a mask. -/
def prgPrims (lib : Openssl) (build : Build) (hash : Str → Block) (rootPrf : Block → Block) (size : Nat)
    (ofBytes : List UInt8 → T) : Prims Block T where
  hash := hash
  rootPrf := rootPrf
  derive K right :=
    let offset := if right then kTokenSize else 0
    Block.ofBytes (written (Crypto.derive lib build (some K) offset 16))
  derive32 K :=
    let derived_tokens := written (Crypto.derive lib build (some K) 0 (2 * 16))
    (Block.ofBytes derived_tokens, Block.ofBytes (derived_tokens.drop 16))
  mask K := ofBytes (written ((genSubkeys lib build (some K)).bind fun prg => prg.derive lib kTokenSize size))

section

variable {lib : Openssl} (hlib : lib.IsAes) (build : Build) (hash : Str → Block) (rootPrf : Block → Block)
  (size : Nat) (ofBytes : List UInt8 → T)

include hlib

/-- The object of `gen_update_token_mask` derives the token that the static function derives. -/
theorem gen_update_token (K : Block) :
    Block.ofBytes (written ((genSubkeys lib build (some K)).bind fun prg => prg.derive lib 0 16)) =
      (prgPrims lib build hash rootPrf size ofBytes).derive K false := by
  rw [genSubkeys_derive hlib]
  rfl

/-- Both children at once are both children one by one. -/
theorem prgPrims_splits :
    Splits (prgPrims lib build hash rootPrf size ofBytes).derive
      (prgPrims lib build hash rootPrf size ofBytes).derive32 := by
  intro K
  have hlen : ∀ o, (window K o 16).length = 16 := by simp [window]
  have h16 : ∀ o : UInt32, written (Crypto.derive lib build (some K) o 16) = window K o.toNat 16 := by
    intro o
    rw [derive_eq hlib build K o (by omega)]
    rfl
  have h32 : written (Crypto.derive lib build (some K) 0 (2 * 16)) = window K 0 16 ++ window K 16 16 := by
    rw [derive_eq hlib build K 0 (by omega), ← window_add]
    rfl
  show (Block.ofBytes (written (Crypto.derive lib build (some K) 0 (2 * 16))),
      Block.ofBytes ((written (Crypto.derive lib build (some K) 0 (2 * 16))).drop 16)) =
    (Block.ofBytes (written (Crypto.derive lib build (some K) 0 16)),
      Block.ofBytes (written (Crypto.derive lib build (some K) kTokenSize 16)))
  rw [h32, h16, h16, List.drop_left' (hlen _), Block.ofBytes_append _ (hlen _)]
  rfl

theorem derive_build {lib' : Openssl} (hlib' : lib'.IsAes) (build' : Build) (K : Block) (offset : UInt32) (len : Nat) :
    Crypto.derive lib build (some K) offset len = Crypto.derive lib' build' (some K) offset len := by
  by_cases hlen : len = 0
  · subst hlen
    cases build <;> cases build' <;> rfl
  · rw [derive_eq hlib _ _ _ hlen, derive_eq hlib' _ _ _ hlen]

/-- The builds derive the same tokens and masks. -/
theorem prgPrims_build {lib' : Openssl} (hlib' : lib'.IsAes) (build' : Build) :
    prgPrims lib build hash rootPrf size ofBytes = prgPrims lib' build' hash rootPrf size ofBytes := by
  unfold prgPrims
  simp only [genSubkeys_derive hlib, genSubkeys_derive hlib', derive_build hlib build hlib' build']

end

/-- The search on one thread gives what the plain search gives. -/
theorem Holds.searchSimpleParallel {B : Type*} [DecidableEq B] [XorOp T] [LawfulXor T] {P : Prims B T}
    {ramCounter : Str → Option UInt32} {edb : B → Option T} {pay : Str → List T} (h : Holds P ramCounter edb pay)
    (hs : Splits P.derive P.derive32) {k : Str} {req : SearchRequest B}
    (hcount : req.add_count = UInt32.ofNat (pay k).length)
    (hl : leaves P.derive32 req.token_list = (List.range (pay k).length).map (leaf P k)) :
    Diana.searchSimpleParallel P edb req = some (pay k) := by
  have hlen : req.add_count.toNat = (pay k).length := by rw [hcount, h.toNat_length]
  unfold Diana.searchSimpleParallel
  split
  · next hzero =>
    rw [hzero] at hlen
    rw [List.eq_nil_of_length_eq_zero hlen.symm]
  · next hpos =>
    have hkeys : jobKeys P 0 (req.add_count.toNat - 1) req.token_list = some (leaves P.derive32 req.token_list) :=
      jobKeys_eq hs (by rw [hl, List.length_map, List.length_range, hlen])
    have hfound : (searchKeys P false edb (leaves P.derive32 req.token_list)).2 = pay k :=
      congrArg Prod.snd (h.search hl)
    split
    · next hnil =>
      -- without a token there are no leaves, so no payloads
      rw [hnil] at hl
      have hzero : 0 = (pay k).length := by simpa [leaves] using congrArg List.length hl
      exact absurd (UInt32.toNat_inj.1 (by rw [hlen, ← hzero]; rfl)) hpos
    · rw [hkeys, Option.map_some, hfound]

/-- **Builds interoperate.**  Whatever the builds of the client and of the server, after any updates
each of the three searches of the server gives the payloads of the keyword, in order, and the deleting
one takes exactly their entries. -/
theorem mixed_builds_search [XorOp T] [LawfulXor T] {lib lib' : Openssl} (hlib : lib.IsAes) (hlib' : lib'.IsAes)
    (client server : Build) (hash : Str → Block) (rootPrf : Block → Block) (size : Nat) (ofBytes : List UInt8 → T)
    (usehdd : Bool) (us : List (Str × T)) (hb : ∀ k, (payloads us k).length < 2 ^ 32)
    (ha : Apart (prgPrims lib client hash rootPrf size ofBytes) (payloads us)) (w : Str) :
    let C := prgPrims lib client hash rootPrf size ofBytes
    let S := prgPrims lib' server hash rootPrf size ofBytes
    let (ramCounter, edb) := afterUpdates C usehdd us
    ∃ req, searchRequest C ramCounter w = some req ∧ search S false edb req = (edb, payloads us w) ∧
      searchSimpleParallel S edb req = some (payloads us w) ∧
      search S true edb req =
        (fun t => if ∃ i < (payloads us w).length, t = token C w i then none else edb t, payloads us w) := by
  intro C S
  have hS : S = C := prgPrims_build hlib' server hash rootPrf size ofBytes hlib client
  have hs : Splits C.derive C.derive32 := prgPrims_splits hlib client hash rootPrf size ofBytes
  have h := holds_afterUpdates C usehdd us hb ha
  obtain ⟨req, hreq, hcount, hl⟩ := h.searchRequest hs w
  rw [hS]
  exact ⟨req, hreq, h.search hl, h.searchSimpleParallel hs hcount hl, h.search_delete ha hl⟩

/-- A `uint64_t` in memory, least significant byte first. -/
def readIndex (l : List UInt8) : UInt64 := UInt64.ofNat (l.foldr (fun b n => b.toNat + 256 * n) 0)

/-- A child by the round keys of its parent. -/
def childNode (K : Block) (right : Bool) : Block :=
  cipher ((List.range 11).map (roundKey K)) (mmSetEpi64x 0 (if right then 1 else 0))

theorem prgPrims_derive {lib : Openssl} (hlib : lib.IsAes) (build : Build) (hash : Str → Block) (rootPrf : Block → Block)
    (size : Nat) (ofBytes : List UInt8 → T) :
    (prgPrims lib build hash rootPrf size ofBytes).derive = childNode := by
  funext K right
  have hblock : ∀ (o : UInt32) q, o.toNat = 16 * q →
      Block.ofBytes (written (Crypto.derive lib build (some K) o 16)) =
        cipher ((List.range 11).map (roundKey K)) (mmSetEpi64x 0 (UInt64.ofNat q)) := by
    intro o q ho
    rw [derive_eq hlib build K o (by omega), ho, window_block, encrypt, roundKeys_four]
    exact Block.ofBytes_bytes _
  cases right with
  | false => exact hblock 0 0 rfl
  | true => exact hblock 16 1 rfl

/-- Updates of the keywords `a` and `b`. -/
def threeUpdates : List (Str × UInt64) := [([97], 5), ([98], 6), ([97], 7)]

/-- The first byte of an update token. -/
def firstByte (w : Str) (i : Nat) : UInt8 :=
  (childNode (deriveNode childNode (Block.ofBytes w) i kTreeDepth) false).bytes.getD 0 0

section

set_option maxRecDepth 100000

theorem firstByte_a : firstByte [97] 0 = 116 := by decide +kernel

theorem firstByte_a_second : firstByte [97] 1 = 65 := by decide +kernel

theorem firstByte_b : firstByte [98] 0 = 72 := by decide +kernel

end

theorem payloads_threeUpdates {w : Str} {i : Nat} (hi : i < (payloads threeUpdates w).length) :
    (w = [97] ∧ i = 0) ∨ (w = [97] ∧ i = 1) ∨ (w = [98] ∧ i = 0) := by
  by_cases ha : [97] = w
  · subst ha
    have hlt : i < 2 := by simpa [payloads, threeUpdates] using hi
    obtain rfl | rfl : i = 0 ∨ i = 1 := by omega
    · exact .inl ⟨rfl, rfl⟩
    · exact .inr (.inl ⟨rfl, rfl⟩)
  · by_cases hb : [98] = w
    · subst hb
      have hlt : i < 1 := by simpa [payloads, threeUpdates] using hi
      obtain rfl : i = 0 := by omega
      exact .inr (.inr ⟨rfl, rfl⟩)
    · simp [payloads, threeUpdates, ha, hb] at hi

theorem apart_threeUpdates {lib : Openssl} (hlib : lib.IsAes) (build : Build) :
    Apart (prgPrims lib build Block.ofBytes id 8 readIndex) (payloads threeUpdates) := by
  intro k k' i i' hi hi' ht
  have hbyte : firstByte k i = firstByte k' i' := by
    unfold token leaf at ht
    rw [prgPrims_derive hlib] at ht
    exact congrArg (fun b => b.bytes.getD 0 0) ht
  rcases payloads_threeUpdates hi with ⟨rfl, rfl⟩ | ⟨rfl, rfl⟩ | ⟨rfl, rfl⟩ <;>
    rcases payloads_threeUpdates hi' with ⟨rfl, rfl⟩ | ⟨rfl, rfl⟩ | ⟨rfl, rfl⟩ <;>
    simp_all [firstByte_a, firstByte_a_second, firstByte_b]

/-- A client with AES-NI and a server with OpenSSL, after the updates. -/
theorem mixed_builds_search_a :
    let C := prgPrims fips .aesni Block.ofBytes id 8 readIndex
    let S := prgPrims fips .openssl Block.ofBytes id 8 readIndex
    let (ramCounter, edb) := afterUpdates C false threeUpdates
    ∃ req, searchRequest C ramCounter [97] = some req ∧ search S false edb req = (edb, [5, 7]) ∧
      searchSimpleParallel S edb req = some [5, 7] ∧
      search S true edb req =
        (fun t => if ∃ i < (payloads threeUpdates [97]).length, t = token C [97] i then none else edb t, [5, 7]) := by
  have hb : ∀ k, (payloads threeUpdates k).length < 2 ^ 32 := fun k =>
    lt_of_le_of_lt (List.length_filterMap_le _ _) (by decide)
  exact mixed_builds_search fips_isAes fips_isAes .aesni .openssl Block.ofBytes id 8 readIndex false threeUpdates hb
    (apart_threeUpdates fips_isAes .aesni) [97]

end Sse.Diana
