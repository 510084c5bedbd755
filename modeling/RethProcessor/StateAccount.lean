import RethProcessor.TrieDecode

/-! Accounts and slot values as the tries store them. The account codec is a parameter with
its round trip; the RLP one, a list of four strings, is an instance. -/
namespace RethProcessor
open Rlp

/-- A 256-bit integer. -/
abbrev U256 := BitVec 256

/-- `to_be_bytes::<32>`. -/
def toBeBytes (n : U256) : Bytes := List.replicate (32 - (bigEndian n.toNat).length) 0 ++ bigEndian n.toNat

/-- A 20-byte address. -/
@[ext] structure Address where
  bytes : Bytes
  length_eq : bytes.length = 20
  deriving DecidableEq

theorem Address.length_zero : (List.replicate 20 (0 : UInt8)).length = 20 := List.length_replicate

def Address.ZERO : Address := ⟨List.replicate 20 0, Address.length_zero⟩

/-- `alloy_rlp::encode` of an unsigned integer: its big-endian bytes without leading zeros. -/
def encodeUint (n : Nat) : Bytes := encodeString (bigEndian n)

theorem B256.length_zero : (List.replicate 32 (0 : UInt8)).length = 32 := List.length_replicate

def B256.ZERO : B256 := ⟨List.replicate 32 0, B256.length_zero⟩

def KECCAK_EMPTY : B256 where
  bytes := [0xc5, 0xd2, 0x46, 0x01, 0x86, 0xf7, 0x23, 0x3c, 0x92, 0x7e, 0x7d, 0xb2, 0xdc, 0xc7, 0x03, 0xc0,
    0xe5, 0x00, 0xb6, 0x53, 0xca, 0x82, 0x27, 0x3b, 0x7b, 0xfa, 0xd8, 0x04, 0x5d, 0x85, 0xa4, 0x70]
  length_eq := rfl

/-- An account of a state diff. -/
structure Account where
  nonce : UInt64
  balance : U256
  bytecodeHash : Option B256
  deriving DecidableEq

def Account.getBytecodeHash (account : Account) : B256 := account.bytecodeHash.getD KECCAK_EMPTY

/-- An account as a leaf of the state trie holds it. -/
structure TrieAccount where
  nonce : UInt64
  balance : U256
  storageRoot : B256
  codeHash : B256
  deriving DecidableEq

/-- The encoding and the decoder of `TrieAccount`. -/
structure AccountCodec where
  encode : TrieAccount → Bytes
  decode : Bytes → Option TrieAccount
  decode_encode : ∀ account, decode (encode account) = some account

namespace TrieAccount

def fields (account : TrieAccount) : List Bytes :=
  [bigEndian account.nonce.toNat, bigEndian account.balance.toNat, account.storageRoot.bytes,
    account.codeHash.bytes]

def encodeRlp (account : TrieAccount) : Bytes := encodeList (account.fields.map encodeString)

/-- An integer of `width` bytes at most, without leading zeros. -/
def decodeUint (width : Nat) (bytes : Bytes) : Option Nat :=
  if bytes.length ≤ width ∧ bytes.head? ≠ some 0 then some (fromBigEndian bytes) else none

def decodeWord (bytes : Bytes) : Option B256 :=
  if h : bytes.length = 32 then some ⟨bytes, h⟩ else none

def decodeFields : List Bytes → Option TrieAccount
  | [nonce, balance, storageRoot, codeHash] => do
      let nonce ← decodeUint 8 nonce
      let balance ← decodeUint 32 balance
      let storageRoot ← decodeWord storageRoot
      let codeHash ← decodeWord codeHash
      some ⟨.ofNat nonce, .ofNat 256 balance, storageRoot, codeHash⟩
  | _ => none

/-- What follows the list is not looked at. -/
def decodeRlp (bytes : Bytes) : Option TrieAccount :=
  match payloadInfo bytes with
  | .error _ => none
  | .ok item =>
      let list := bytes.take item.total
      match prototype list with
      | .list 4 => ((List.range 4).mapM fun i => (valAt list i).toOption).bind decodeFields
      | _ => none

theorem decodeUint_bigEndian {width n : Nat} (h : n < 256 ^ width) :
    decodeUint width (bigEndian n) = some n := by
  have hhead : (bigEndian n).head? ≠ some 0 := by
    rcases Nat.eq_zero_or_pos n with rfl | hn
    · simp
    · obtain ⟨b, rest, hb, hne⟩ := bigEndian_head hn
      simpa [hb] using hne
  rw [decodeUint, if_pos ⟨bigEndian_length_le h, hhead⟩, fromBigEndian_bigEndian]

theorem decodeWord_bytes (d : B256) : decodeWord d.bytes = some d := dif_pos d.length_eq

theorem decodeFields_fields (account : TrieAccount) : decodeFields account.fields = some account := by
  have hnonce : account.nonce.toNat < 256 ^ 8 := account.nonce.toNat_lt
  have hbalance : account.balance.toNat < 256 ^ 32 := by
    have := account.balance.isLt
    omega
  simp only [decodeFields, fields, decodeUint_bigEndian hnonce, decodeUint_bigEndian hbalance,
    decodeWord_bytes, bind, Option.bind, UInt64.ofNat_toNat, BitVec.ofNat_toNat, BitVec.setWidth_eq]

theorem field_length {account : TrieAccount} {s : Bytes} (h : s ∈ account.fields) : s.length ≤ 32 := by
  have hbalance : account.balance.toNat < 256 ^ 32 := by
    have := account.balance.isLt
    omega
  simp only [fields, List.mem_cons, List.not_mem_nil, or_false] at h
  rcases h with rfl | rfl | rfl | rfl
  · exact Nat.le_trans (bigEndian_length_le (k := 8) account.nonce.toNat_lt) (by decide)
  · exact bigEndian_length_le hbalance
  · exact Nat.le_of_eq account.storageRoot.length_eq
  · exact Nat.le_of_eq account.codeHash.length_eq

theorem flatten_fields_lt (account : TrieAccount) :
    (account.fields.map encodeString).flatten.length < usizeLimit := by
  have hone {s : Bytes} (h : s ∈ account.fields) : (encodeString s).length ≤ 33 := by
    have := field_length h
    rw [encodeString_length, stringLength, lengthOfLength]
    split
    · omega
    · rw [if_pos (by omega)]
      omega
  have h0 := @hone (bigEndian account.nonce.toNat) (by simp [fields])
  have h1 := @hone (bigEndian account.balance.toNat) (by simp [fields])
  have h2 := @hone account.storageRoot.bytes (by simp [fields])
  have h3 := @hone account.codeHash.bytes (by simp [fields])
  simp only [fields, List.map_cons, List.map_nil, List.flatten_cons, List.flatten_nil,
    List.length_append, List.length_nil, usizeLimit]
  omega

theorem decode_encodeRlp_append (account : TrieAccount) (rest : Bytes) :
    decodeRlp (account.encodeRlp ++ rest) = some account := by
  have hflat := account.flatten_fields_lt
  have hsmall {s : Bytes} (h : s ∈ account.fields) : s.length < usizeLimit :=
    Nat.lt_of_le_of_lt (field_length h) (by decide)
  have hitems : ∀ b ∈ account.fields.map encodeString, IsItem b := by
    intro b hb
    obtain ⟨s, hs, rfl⟩ := List.mem_map.mp hb
    exact isItem_encodeString s (hsmall hs)
  have hval {i : Nat} {s : Bytes} (h : account.fields[i]? = some s) :
      valAt account.encodeRlp i = .ok s :=
    valAt_encodeList hitems hflat (by rw [List.getElem?_map, h]; rfl) (hsmall (List.mem_of_getElem? h))
  have hproto : prototype account.encodeRlp = .list 4 := prototype_encodeList hitems hflat
  have hmap : (List.range 4).mapM (fun i => (valAt account.encodeRlp i).toOption) = some account.fields := by
    have h0 := @hval 0 _ rfl
    have h1 := @hval 1 _ rfl
    have h2 := @hval 2 _ rfl
    have h3 := @hval 3 _ rfl
    simp only [show List.range 4 = [0, 1, 2, 3] from rfl, List.mapM_cons, List.mapM_nil, h0, h1, h2, h3]
    rfl
  obtain ⟨item, htotal, hitem⟩ := isItem_encodeList (account.fields.map encodeString) hflat
  have htake : (account.encodeRlp ++ rest).take item.total = account.encodeRlp := List.take_left' htotal.symm
  have hread : payloadInfo (account.encodeRlp ++ rest) = .ok item := hitem rest
  simp only [decodeRlp, hread, htake, hproto, hmap]
  exact decodeFields_fields account

theorem decode_encodeRlp (account : TrieAccount) : decodeRlp account.encodeRlp = some account := by
  simpa using account.decode_encodeRlp_append []

end TrieAccount

/-- The codec that `TrieAccount` derives. -/
def rlpCodec : AccountCodec where
  encode := TrieAccount.encodeRlp
  decode := TrieAccount.decodeRlp
  decode_encode := TrieAccount.decode_encodeRlp

end RethProcessor
