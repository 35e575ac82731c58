import Sse.Lib.Cbc
import Sse.Omap.Oram

/-!
# The bytes of the ORAM

The store of the ORAM is an array of byte strings.  A bucket is the memory of its four nodes,
zero bytes where it has fewer, encrypted with AES-256 in CBC mode, the IV behind it.  What
the compiler puts between the members of a node is written and never looked at.  The block
cipher is OpenSSL's and a parameter, of which the code relies on decryption undoing
encryption; AES-256 under a key is one.

    convertBlockToNode (convertNodeToBlock gaps node) = node           (convert_node)
    reading a bucket gives the nodes written, and dummies              (readBucket_writeBucket)
-/

namespace Sse.Omap

open PathOram Aes

/-! ## Nodes -/

/-- The bytes of a `Node` that are no member: the pointer in each `Bid`, and the gaps behind two of the positions. -/
structure Gaps where
  vptr : List UInt8
  gap : List UInt8
  gap' : List UInt8
  length_vptr : vptr.length = 8
  length_gap : gap.length = 4
  length_gap' : gap'.length = 4

/-- The memory of an `int` or `unsigned int`. -/
def wordBytes (p : Nat) : List UInt8 := toBytes (UInt32.ofNat p).toInt32

def readWord (l : List UInt8) : Nat := (readInt l).toUInt32.toNat

theorem readWord_wordBytes {p : Nat} (hp : p < 2 ^ 32) (rest : List UInt8) : readWord (wordBytes p ++ rest) = p := by
  rw [readWord, wordBytes, readInt_toBytes]
  show (UInt32.ofNat p).toNat = p
  rw [UInt32.toNat_ofNat', Nat.mod_eq_of_lt hp]

@[simp] theorem length_wordBytes (p : Nat) : (wordBytes p).length = 4 := rfl

section

variable {n : Nat}

/-- `sizeof (Node)`. -/
def blockSize (n : Nat) : Nat := 3 * (8 + n) + 40

/-- `ORAM::convertNodeToBlock`. -/
def convertNodeToBlock (gaps : Gaps) (node : Node n) : List UInt8 :=
  gaps.vptr ++ (node.key.id ++ (node.value ++ (wordBytes node.pos ++ (gaps.gap ++ (gaps.vptr ++ (node.leftID.id ++
    (wordBytes node.leftPos ++ (gaps.gap' ++ (gaps.vptr ++ (node.rightID.id ++
      (wordBytes node.rightPos ++ wordBytes node.height)))))))))))

/-- `ORAM::convertBlockToNode`. -/
def convertBlockToNode (b : List UInt8) : Node n :=
  let key := b.drop 8
  let value := key.drop n
  let pos := value.drop 16
  let leftID := ((pos.drop 4).drop 4).drop 8
  let leftPos := leftID.drop n
  let rightID := ((leftPos.drop 4).drop 4).drop 8
  let rightPos := rightID.drop n
  { key := Bid.ofStr (key.take n)
    value := value.take 16
    pos := readWord pos
    leftID := Bid.ofStr (leftID.take n)
    leftPos := readWord leftPos
    rightID := Bid.ofStr (rightID.take n)
    rightPos := readWord rightPos
    height := readWord (rightPos.drop 4) }

/-- The members of the node are in the ranges of their types. -/
structure Sized (node : Node n) : Prop where
  value : node.value.length = 16
  pos : node.pos < 2 ^ 31
  leftPos : node.leftPos < 2 ^ 31
  rightPos : node.rightPos < 2 ^ 31
  height : node.height < 2 ^ 32

theorem sized_dummy : Sized (dummyNode : Node n) where
  value := List.length_replicate
  pos := Nat.two_pow_pos 31
  leftPos := Nat.two_pow_pos 31
  rightPos := Nat.two_pow_pos 31
  height := Nat.two_pow_pos 32

theorem length_convertNodeToBlock (gaps : Gaps) {node : Node n} (h : node.value.length = 16) :
    (convertNodeToBlock gaps node).length = blockSize n := by
  simp only [convertNodeToBlock, List.length_append, gaps.length_vptr, gaps.length_gap, gaps.length_gap', node.key.size,
    node.leftID.size, node.rightID.size, h, length_wordBytes, blockSize]
  omega

/-- An identifier out of the first bytes of its memory. -/
theorem ofStr_take (bid : Bid n) (rest : List UInt8) : Bid.ofStr ((bid.id ++ rest).take n) = bid := by
  apply Bid.ext_id
  show padTo n ((bid.id ++ rest).take n) = bid.id
  rw [List.take_left' bid.size, padTo_of_le (by rw [bid.size]), bid.size, Nat.sub_self, List.replicate_zero,
    List.append_nil]

/-- **A node through its bytes.** -/
theorem convert_node (gaps : Gaps) {node : Node n} (h : Sized node) :
    convertBlockToNode (convertNodeToBlock gaps node) = node := by
  have hpos := h.pos
  have hleft := h.leftPos
  have hright := h.rightPos
  have hheight := readWord_wordBytes h.height []
  rw [List.append_nil] at hheight
  unfold convertNodeToBlock convertBlockToNode
  simp only [List.drop_left' gaps.length_vptr, List.drop_left' node.key.size, List.drop_left' h.value,
    List.drop_left' (length_wordBytes _), List.drop_left' gaps.length_gap, List.drop_left' gaps.length_gap',
    List.drop_left' node.leftID.size, List.drop_left' node.rightID.size, List.take_left' h.value, ofStr_take,
    readWord_wordBytes (show node.pos < 2 ^ 32 by omega), readWord_wordBytes (show node.leftPos < 2 ^ 32 by omega),
    readWord_wordBytes (show node.rightPos < 2 ^ 32 by omega), hheight]

/-- Zero bytes are the dummy. -/
theorem convert_zeros : convertBlockToNode (List.replicate (blockSize n) 0) = (dummyNode : Node n) := by
  have hfour : List.replicate 4 (0 : UInt8) = wordBytes 0 := by decide
  have hzero : ∀ k, 4 ≤ k → readWord (List.replicate k 0) = 0 := by
    intro k hk
    rw [← Nat.add_sub_cancel' hk, ← List.replicate_append_replicate, hfour, readWord_wordBytes (Nat.two_pow_pos 32)]
  have hbid : ∀ k, n ≤ k → Bid.ofStr ((List.replicate k 0).take n) = (Bid.zero : Bid n) := by
    intro k hk
    have := ofStr_take (Bid.zero : Bid n) (List.replicate (k - n) 0)
    rwa [Bid.zero, List.replicate_append_replicate, Nat.add_sub_cancel' hk] at this
  unfold convertBlockToNode
  simp only [List.drop_replicate]
  rw [hbid _ (by unfold blockSize; omega), hbid _ (by unfold blockSize; omega), hbid _ (by unfold blockSize; omega),
    hzero _ (by unfold blockSize; omega), hzero _ (by unfold blockSize; omega), hzero _ (by unfold blockSize; omega),
    hzero _ (by unfold blockSize; omega), List.take_replicate, dummyNode,
    Nat.min_eq_left (by unfold blockSize; omega)]

/-! ## Buckets -/

/-- The data of the blocks that `WritePath` and the constructor put together: the nodes, and zero bytes. -/
def bucketOf (gaps : Node n → Gaps) (nodes : List (Node n)) : List (List UInt8) :=
  nodes.map (fun node => convertNodeToBlock (gaps node) node) ++
    List.replicate (4 - nodes.length) (List.replicate (blockSize n) 0)

variable (n) in
/-- `ORAM::SerialiseBucket`; `none` where its assertion fails. -/
def serialiseBucket (bucket : List (List UInt8)) : Option (List UInt8) :=
  let buffer := bucket.flatten
  if buffer.length = 4 * blockSize n then some buffer else none

/-- The first `k` nodes of a buffer. -/
def deserialise : Nat → List UInt8 → List (Node n)
  | 0, _ => []
  | k + 1, buffer => convertBlockToNode (buffer.take (blockSize n)) :: deserialise k (buffer.drop (blockSize n))

/-- `ORAM::DeserialiseBucket`; `none` where its assertion fails. -/
def deserialiseBucket (buffer : List UInt8) : Option (List (Node n)) :=
  if buffer.length = 4 * blockSize n then some (deserialise 4 buffer) else none

theorem deserialise_flatten {bucket : List (List UInt8)} (h : ∀ b ∈ bucket, b.length = blockSize n) :
    deserialise bucket.length bucket.flatten = bucket.map (convertBlockToNode (n := n)) := by
  induction bucket with
  | nil => rfl
  | cons b bucket ih =>
    have hb := h b List.mem_cons_self
    rw [List.length_cons, List.flatten_cons, deserialise, List.take_left' hb, List.drop_left' hb,
      ih fun b' hb' => h b' (List.mem_cons_of_mem _ hb'), List.map_cons]

theorem length_flatten_blocks {bucket : List (List UInt8)} (h : ∀ b ∈ bucket, b.length = blockSize n) :
    bucket.flatten.length = bucket.length * blockSize n := by
  induction bucket with
  | nil => simp
  | cons b bucket ih =>
    rw [List.flatten_cons, List.length_append, h b List.mem_cons_self, List.length_cons,
      ih fun b' hb' => h b' (List.mem_cons_of_mem _ hb'), Nat.add_mul, Nat.one_mul, Nat.add_comm]

theorem length_bucketOf (gaps : Node n → Gaps) {nodes : List (Node n)} (hlen : nodes.length ≤ 4) :
    (bucketOf gaps nodes).length = 4 := by
  rw [bucketOf, List.length_append, List.length_map, List.length_replicate]
  omega

theorem length_of_mem_bucketOf {gaps : Node n → Gaps} {nodes : List (Node n)} (hsized : ∀ node ∈ nodes, Sized node)
    {b : List UInt8} (hb : b ∈ bucketOf gaps nodes) : b.length = blockSize n := by
  rcases List.mem_append.1 hb with hb | hb
  · obtain ⟨node, hnode, rfl⟩ := List.mem_map.1 hb
    exact length_convertNodeToBlock _ (hsized node hnode).value
  · rw [List.eq_of_mem_replicate hb, List.length_replicate]

theorem map_bucketOf {gaps : Node n → Gaps} {nodes : List (Node n)} (hsized : ∀ node ∈ nodes, Sized node) :
    (bucketOf gaps nodes).map convertBlockToNode = nodes ++ List.replicate (4 - nodes.length) dummyNode := by
  rw [bucketOf, List.map_append, List.map_map, List.map_replicate, convert_zeros]
  congr 1
  exact (List.map_congr_left fun node hnode => convert_node _ (hsized node hnode)).trans (List.map_id _)

/-- What is serialised is a buffer of the right size that gives back the nodes and the dummies. -/
theorem serialise_deserialise (gaps : Node n → Gaps) {nodes : List (Node n)} (hlen : nodes.length ≤ 4)
    (hsized : ∀ node ∈ nodes, Sized node) :
    ∃ buffer, serialiseBucket n (bucketOf gaps nodes) = some buffer ∧ buffer.length = 4 * blockSize n ∧
      deserialiseBucket buffer = some (nodes ++ List.replicate (4 - nodes.length) dummyNode) := by
  have hblocks : ∀ b ∈ bucketOf gaps nodes, b.length = blockSize n := fun b hb => length_of_mem_bucketOf hsized hb
  have hsize : (bucketOf gaps nodes).flatten.length = 4 * blockSize n := by
    rw [length_flatten_blocks hblocks, length_bucketOf gaps hlen]
  have hnodes := deserialise_flatten hblocks
  rw [length_bucketOf gaps hlen, map_bucketOf hsized] at hnodes
  exact ⟨_, if_pos hsize, hsize, by rw [deserialiseBucket, if_pos hsize, hnodes]⟩

/-! ## Encryption -/

/-- AES-256 under the first 32 bytes of the key, the only ones OpenSSL reads. -/
def aes256 (key : List UInt8) : Cbc.Cipher Block where
  enc := cipher (roundKeys 8 ((Block.ofBytes key).words ++ (Block.ofBytes (key.drop 16)).words))
  dec := invCipher (roundKeys 8 ((Block.ofBytes key).words ++ (Block.ofBytes (key.drop 16)).words))
  add a b := a ^^^ b
  dec_enc := invCipher_cipher _
  add_add := Block.xor_xor_cancel

/-- The example of Appendix C.3. -/
example :
    ((aes256 ((List.range 32).map UInt8.ofNat)).enc
      (Block.ofBytes ((List.range 16).map fun i => UInt8.ofNat (17 * i)))).bytes =
    [0x8e, 0xa2, 0xb7, 0xca, 0x51, 0x67, 0x45, 0xbf, 0xea, 0xfc, 0x49, 0x90, 0x4b, 0x49, 0x60, 0x89] := by
  decide +kernel

/-- `AES::GetCiphertextLength`. -/
def getCiphertextLength (plen : Nat) : Nat := (plen / 16 + 1) * 16

-- the block cipher of `EVP_aes_256_cbc` under the key that the code passes along
variable (aes : Cbc.Cipher Block)

/-- `AES::Encrypt`: the IV stands behind the ciphertext. -/
def aesEncrypt (iv : Block) (plaintext : List UInt8) (plaintext_size : Nat) : List UInt8 :=
  Cbc.encryptBytes aes iv (plaintext.take plaintext_size) ++ iv.bytes

/-- `AES::Decrypt`.  Where the padding is wrong, the error is only printed and the blocks but the last are kept. -/
def aesDecrypt (ciphertext : List UInt8) (clen_size : Nat) : List UInt8 :=
  let iv := Block.ofBytes (ciphertext.drop (ciphertext.length - 16))
  let ciphertext := ciphertext.take clen_size
  (Cbc.decryptBytes aes iv ciphertext).getD
    ((Cbc.rawBytes aes iv ciphertext).take (clen_size - 16))

theorem aesDecrypt_aesEncrypt (iv : Block) (plaintext : List UInt8) :
    aesDecrypt aes (aesEncrypt aes iv plaintext plaintext.length) (getCiphertextLength plaintext.length) =
      plaintext := by
  have hlen : (Cbc.encryptBytes aes iv plaintext).length = getCiphertextLength plaintext.length :=
    Cbc.length_encryptBytes _ _ _
  unfold aesDecrypt aesEncrypt
  simp only [List.take_length, List.length_append, Block.length_bytes, Nat.add_sub_cancel, List.drop_left,
    List.take_left' hlen, Block.ofBytes_bytes, Cbc.decrypt_encryptBytes, Option.getD_some]

/-! ## The store -/

/-- `ORAM::ReadBucket`, from the byte string of the `RAMStore`. -/
def readBucket (ciphertext : List UInt8) : Option (List (Node n)) :=
  deserialiseBucket (aesDecrypt aes ciphertext (getCiphertextLength (4 * blockSize n)))

variable (n) in
/-- `ORAM::WriteBucket`, up to the byte string for the `RAMStore`. -/
def writeBucket (iv : Block) (bucket : List (List UInt8)) : Option (List UInt8) := do
  let b ← serialiseBucket n bucket
  return aesEncrypt aes iv b (4 * blockSize n)

/-- **A bucket through the store.** -/
theorem readBucket_writeBucket (iv : Block) (gaps : Node n → Gaps) {nodes : List (Node n)} (hlen : nodes.length ≤ 4)
    (hsized : ∀ node ∈ nodes, Sized node) :
    ∃ ciphertext, writeBucket n aes iv (bucketOf gaps nodes) = some ciphertext ∧
      readBucket aes ciphertext = some (nodes ++ List.replicate (4 - nodes.length) dummyNode) := by
  obtain ⟨buffer, hser, hsize, hdes⟩ := serialise_deserialise gaps hlen hsized
  refine ⟨aesEncrypt aes iv buffer (4 * blockSize n), ?_, ?_⟩
  · rw [writeBucket, hser]
    rfl
  · rw [readBucket, ← hsize, aesDecrypt_aesEncrypt, hdes]

end

end Sse.Omap
