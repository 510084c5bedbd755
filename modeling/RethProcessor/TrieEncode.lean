import RethProcessor.TrieNode
import RethProcessor.RlpItem

/-! Encodings, references and hashes of nodes, over an arbitrary `keccak`. The payload
length of a list is computed from the lengths of the references, beside the payload. -/
namespace RethProcessor
open Rlp

def EMPTY_ROOT : B256 where
  bytes := [0x56, 0xe8, 0x1f, 0x17, 0x1b, 0xcc, 0x55, 0xa6, 0xff, 0x83, 0x45, 0xe6, 0x92, 0xc0, 0xf8,
    0x6e, 0x5b, 0x48, 0xe0, 0x1b, 0x99, 0x6c, 0xad, 0xc0, 0x01, 0x62, 0x2f, 0xb5, 0xe3, 0x63, 0xb4, 0x21]
  length_eq := rfl

/-- `alloy_rlp::EMPTY_STRING_CODE`. -/
def EMPTY_STRING_CODE : UInt8 := 0x80

/-- `reference_encode`. -/
def MptNodeReference.encode : MptNodeReference → Bytes
  | .bytes bs => bs
  | .digest d => (EMPTY_STRING_CODE + 32) :: d.bytes

/-- `reference_length`. -/
def MptNodeReference.length : MptNodeReference → Nat
  | .bytes bs => bs.length
  | .digest _ => 1 + 32

theorem MptNodeReference.encode_length (r : MptNodeReference) : r.encode.length = r.length := by
  cases r with
  | bytes bs => rfl
  | digest d => simp [encode, length, d.length_eq]

def branchPayloadLength (refs : Nibble → Option MptNodeReference) : Nat :=
  1 + ((List.finRange 16).map fun i => (refs i).elim 1 (·.length)).sum

def branchPayload (refs : Nibble → Option MptNodeReference) : Bytes :=
  ((List.finRange 16).flatMap fun i => (refs i).elim [EMPTY_STRING_CODE] (·.encode)) ++
    [EMPTY_STRING_CODE]

section Keccak
variable (keccak : Bytes → B256)

/-- `calc_reference`, given the node's encoding. -/
def referenceOf (n : MptNode) (encoded : Bytes) : MptNodeReference :=
  match n with
  | .null => .bytes [EMPTY_STRING_CODE]
  | .digest d => .digest d
  | _ => if encoded.length < 32 then .bytes encoded else .digest (keccak encoded)

mutual
def MptNode.encode : MptNode → Bytes
  | .null => [EMPTY_STRING_CODE]
  | .branch children =>
      let refs i := childReference (children i)
      header true (branchPayloadLength refs) ++ branchPayload refs
  | .leaf path value =>
      header true (stringLength path + stringLength value) ++ (encodeString path ++ encodeString value)
  | .extension path child =>
      let r := referenceOf keccak child child.encode
      header true (stringLength path + r.length) ++ (encodeString path ++ r.encode)
  | .digest d => encodeString d.bytes
termination_by structural n => n

def childReference : Option MptNode → Option MptNodeReference
  | none => none
  | some node => some (referenceOf keccak node node.encode)
termination_by structural n => n
end

def MptNode.reference (n : MptNode) : MptNodeReference := referenceOf keccak n (n.encode keccak)

def MptNode.payloadLength : MptNode → Nat
  | .null => 0
  | .branch children => branchPayloadLength fun i => (children i).map (MptNode.reference keccak)
  | .leaf path value => stringLength path + stringLength value
  | .extension path child => stringLength path + (child.reference keccak).length
  | .digest _ => 32

def MptNode.length (n : MptNode) : Nat :=
  n.payloadLength keccak + lengthOfLength (n.payloadLength keccak)

/-- `to_rlp`: the encoding, in a buffer of its own. -/
def MptNode.toRlp (n : MptNode) : Bytes := n.encode keccak

/-- The digest behind a reference: an inlined node is hashed now. -/
def MptNodeReference.toDigest : MptNodeReference → B256
  | .digest d => d
  | .bytes bs => keccak bs

def MptNode.hash (n : MptNode) : B256 :=
  match n with
  | .null => EMPTY_ROOT
  | _ => (n.reference keccak).toDigest keccak

theorem childReference_eq (o : Option MptNode) :
    childReference keccak o = o.map (MptNode.reference keccak) := by
  cases o <;> rfl

/-- The items of the list a branch, a leaf or an extension is encoded as. -/
def MptNode.items : MptNode → List Bytes
  | .branch children =>
      ((List.finRange 16).map fun i =>
        (children i).elim [EMPTY_STRING_CODE] fun node => (node.reference keccak).encode) ++
      [[EMPTY_STRING_CODE]]
  | .leaf path value => [encodeString path, encodeString value]
  | .extension path child => [encodeString path, (child.reference keccak).encode]
  | .null | .digest _ => []

variable {keccak}

theorem branchPayloadLength_eq (refs : Nibble → Option MptNodeReference) :
    branchPayloadLength refs = (branchPayload refs).length := by
  have hitem (r : Option MptNodeReference) :
      r.elim 1 (·.length) = (r.elim [EMPTY_STRING_CODE] (·.encode)).length := by
    cases r with
    | none => rfl
    | some r => exact r.encode_length.symm
  simp only [branchPayloadLength, branchPayload, List.length_append, List.length_flatMap, hitem]
  exact Nat.add_comm _ _

theorem branchPayload_eq (children : Nibble → Option MptNode) :
    branchPayload (fun i => childReference keccak (children i)) =
      ((MptNode.branch children).items keccak).flatten := by
  have hitem (o : Option MptNode) :
      (childReference keccak o).elim [EMPTY_STRING_CODE] (·.encode) =
        o.elim [EMPTY_STRING_CODE] fun node => (node.reference keccak).encode := by
    cases o <;> rfl
  simp [branchPayload, MptNode.items, hitem, List.flatMap]

theorem encode_branch (children : Nibble → Option MptNode) :
    (MptNode.branch children).encode keccak = encodeList ((MptNode.branch children).items keccak) := by
  simp only [MptNode.encode, branchPayloadLength_eq, branchPayload_eq, encodeList]

theorem encode_leaf (path value : Bytes) :
    (MptNode.leaf path value).encode keccak = encodeList [encodeString path, encodeString value] := by
  simp [MptNode.encode, encodeList]

theorem encode_extension (path : Bytes) (child : MptNode) :
    (MptNode.extension path child).encode keccak =
      encodeList [encodeString path, (child.reference keccak).encode] := by
  simp [MptNode.encode, encodeList, MptNode.reference, MptNodeReference.encode_length]

theorem payloadLength_branch (children : Nibble → Option MptNode) :
    (MptNode.branch children).payloadLength keccak =
      ((MptNode.branch children).items keccak).flatten.length := by
  have h := @branchPayload_eq keccak children
  simp only [childReference_eq] at h
  rw [MptNode.payloadLength, branchPayloadLength_eq, h]

/-- `encode` writes as many bytes as `length` announces. -/
theorem encode_length (n : MptNode) : (n.encode keccak).length = n.length keccak := by
  cases n with
  | null => rfl
  | branch children => rw [encode_branch, encodeList_length, MptNode.length, payloadLength_branch]
  | leaf path value =>
      rw [encode_leaf, encodeList_length]
      simp [MptNode.length, MptNode.payloadLength]
  | extension path child =>
      rw [encode_extension, encodeList_length]
      simp [MptNode.length, MptNode.payloadLength, MptNodeReference.encode_length]
  | digest d =>
      have hb : bare d.bytes = false := bare_of_length (by rw [d.length_eq]; decide)
      simp [MptNode.encode, stringLength, hb, d.length_eq, MptNode.length, MptNode.payloadLength,
        lengthOfLength]

theorem encodeString_digest (d : B256) : encodeString d.bytes = (MptNodeReference.digest d).encode := by
  have hb : bare d.bytes = false := bare_of_length (by rw [d.length_eq]; decide)
  simp only [encodeString_of_not_bare hb, d.length_eq, MptNodeReference.encode, header]
  rfl

/-- A node that is written as an RLP list. -/
def MptNode.isListed : MptNode → Bool
  | .null | .digest _ => false
  | .branch _ | .leaf _ _ | .extension _ _ => true

theorem encode_of_isListed {n : MptNode} (h : n.isListed) :
    n.encode keccak = encodeList (n.items keccak) := by
  cases n with
  | null | digest => cases h
  | branch children => exact encode_branch children
  | leaf path value => exact encode_leaf path value
  | extension path child => exact encode_extension path child

theorem reference_of_isListed {n : MptNode} (h : n.isListed) :
    n.reference keccak =
      if (n.encode keccak).length < 32 then .bytes (n.encode keccak) else .digest (keccak (n.encode keccak)) := by
  cases n with
  | null | digest => cases h
  | branch | leaf | extension => rfl

@[simp] theorem reference_null : MptNode.null.reference keccak = .bytes [EMPTY_STRING_CODE] := rfl

@[simp] theorem reference_digest (d : B256) : (MptNode.digest d).reference keccak = .digest d := rfl

theorem hash_of_ne_null {n : MptNode} (h : n ≠ .null) :
    n.hash keccak = (n.reference keccak).toDigest keccak := by
  cases n with
  | null => exact (h rfl).elim
  | branch | leaf | extension | digest => simp only [MptNode.hash]

theorem hash_of_reference {n m : MptNode} (hnull : n = .null ↔ m = .null)
    (h : n.reference keccak = m.reference keccak) : n.hash keccak = m.hash keccak := by
  by_cases hn : n = .null
  · rw [hn, hnull.mp hn]
  · rw [hash_of_ne_null hn, hash_of_ne_null (fun hm => hn (hnull.mpr hm)), h]

theorem isItem_empty : IsItem [EMPTY_STRING_CODE] := isItem_encodeString [] (by decide)

theorem isItem_encode_digest (d : B256) : IsItem (MptNodeReference.digest d).encode := by
  rw [← encodeString_digest]
  exact isItem_encodeString _ (by rw [d.length_eq]; decide)

/-- References can be told from what follows them. -/
theorem isItem_reference (n : MptNode) : IsItem (n.reference keccak).encode := by
  cases hl : n.isListed with
  | false =>
      cases n with
      | null => exact isItem_empty
      | digest d => exact isItem_encode_digest d
      | branch | leaf | extension => cases hl
  | true =>
      rw [reference_of_isListed hl]
      split
      · next hlt =>
          rw [encode_of_isListed hl] at hlt ⊢
          refine isItem_encodeList _ (Nat.lt_of_le_of_lt ?_ (Nat.lt_trans hlt (by decide)))
          rw [encodeList_length]
          exact Nat.le_add_right _ _
      · exact isItem_encode_digest _

theorem flatten_items_lt {n : MptNode} (h : (n.encode keccak).length < usizeLimit) (hl : n.isListed) :
    (n.items keccak).flatten.length < usizeLimit := by
  rw [encode_of_isListed hl, encodeList_length] at h
  omega

/-- Every item is shorter than the list it is in. -/
theorem item_length_lt {n : MptNode} (hl : n.isListed) {b : Bytes} (hb : b ∈ n.items keccak) :
    b.length < (n.encode keccak).length := by
  have hle := (List.sublist_flatten_of_mem hb).length_le
  rw [encode_of_isListed hl, encodeList_length, lengthOfLength]
  split <;> omega

theorem mem_items_branch {children : Nibble → Option MptNode} {i : Nibble} {c : MptNode}
    (hc : children i = some c) :
    (c.reference keccak).encode ∈ (MptNode.branch children).items keccak := by
  simp only [MptNode.items, List.mem_append, List.mem_map]
  exact .inl ⟨i, List.mem_finRange i, by rw [hc, Option.elim_some]⟩

/-- The items of a node whose encoding has a length at all are RLP items. -/
theorem isItem_items {n : MptNode} (h : (n.encode keccak).length < usizeLimit) :
    ∀ b ∈ n.items keccak, IsItem b := by
  cases n with
  | null | digest => simp [MptNode.items]
  | branch children =>
      simp only [MptNode.items, List.mem_append, List.mem_map, List.mem_singleton]
      rintro b (⟨i, -, rfl⟩ | rfl)
      · cases children i with
        | none => exact isItem_empty
        | some node => exact isItem_reference node
      · exact isItem_empty
  | leaf path value =>
      have hf := flatten_items_lt h rfl
      simp only [MptNode.items, List.flatten_cons, List.flatten_nil, List.append_nil,
        List.length_append] at hf
      simp only [MptNode.items, List.mem_cons, List.not_mem_nil, or_false]
      rintro b (rfl | rfl)
      · exact isItem_encodeString _ (length_lt_of_encodeString (by omega))
      · exact isItem_encodeString _ (length_lt_of_encodeString (by omega))
  | extension path child =>
      have hf := flatten_items_lt h rfl
      simp only [MptNode.items, List.flatten_cons, List.flatten_nil, List.append_nil,
        List.length_append] at hf
      simp only [MptNode.items, List.mem_cons, List.not_mem_nil, or_false]
      rintro b (rfl | rfl)
      · exact isItem_encodeString _ (length_lt_of_encodeString (by omega))
      · exact isItem_reference child

end Keccak

end RethProcessor
