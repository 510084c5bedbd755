import RethProcessor.TrieDecode

/-! Nodes with their reference caches. Computing a reference looks into the cache and
fills it, here and below; where the caches are right, that cannot be seen from outside. -/
namespace RethProcessor
open Rlp

/-- `MptNode` with the `cached_reference` of every node, first in each constructor. -/
inductive CachedNode where
  | null (cache : Option MptNodeReference)
  | branch (cache : Option MptNodeReference) (children : Nibble → Option CachedNode)
  | leaf (cache : Option MptNodeReference) (path value : Bytes)
  | extension (cache : Option MptNodeReference) (path : Bytes) (child : CachedNode)
  | digest (cache : Option MptNodeReference) (d : B256)

namespace CachedNode

@[elab_as_elim, induction_eliminator]
theorem induction {motive : CachedNode → Prop} (null : ∀ cache, motive (.null cache))
    (branch : ∀ cache children, (∀ i c, children i = some c → motive c) → motive (.branch cache children))
    (leaf : ∀ cache path value, motive (.leaf cache path value))
    (extension : ∀ cache path child, motive child → motive (.extension cache path child))
    (digest : ∀ cache d, motive (.digest cache d)) (n : CachedNode) : motive n := by
  refine @CachedNode.rec motive (fun o => ∀ c, o = some c → motive c)
    null branch leaf extension digest ?_ ?_ n
  · intro c h
    cases h
  · intro child ih c h
    cases h
    exact ih

def cache : CachedNode → Option MptNodeReference
  | .null cache | .branch cache _ | .leaf cache _ _ | .extension cache _ _ | .digest cache _ => cache

def setCache (r : Option MptNodeReference) : CachedNode → CachedNode
  | .null _ => .null r
  | .branch _ children => .branch r children
  | .leaf _ path value => .leaf r path value
  | .extension _ path child => .extension r path child
  | .digest _ d => .digest r d

mutual
/-- The node's data, which is what `PartialEq` compares. -/
def erase : CachedNode → MptNode
  | .null _ => .null
  | .branch _ children => .branch fun i => eraseChild (children i)
  | .leaf _ path value => .leaf path value
  | .extension _ path child => .extension path child.erase
  | .digest _ d => .digest d
termination_by structural n => n

def eraseChild : Option CachedNode → Option MptNode
  | none => none
  | some node => some node.erase
termination_by structural n => n
end

section Keccak
variable (keccak : Bytes → B256)

/-- `calc_reference`, given the encoding. -/
def calcReference : CachedNode → Bytes → MptNodeReference
  | .null _, _ => .bytes [EMPTY_STRING_CODE]
  | .digest _ d, _ => .digest d
  | _, encoded => if encoded.length < 32 then .bytes encoded else .digest (keccak encoded)

/-- `get_or_insert_with`, given what encoding the node would return and leave behind. -/
def lookOrFill (n : CachedNode) (encoded : Bytes × CachedNode) : MptNodeReference × CachedNode :=
  match n.cache with
  | some r => (r, n)
  | none =>
      let r := n.calcReference keccak encoded.1
      (r, encoded.2.setCache (some r))

mutual
/-- The encoding, and the node with the caches filled that `encode` looks into. -/
def encode : CachedNode → Bytes × CachedNode
  | .null cache => ([EMPTY_STRING_CODE], .null cache)
  | .branch cache children =>
      let refs i := (childReference (children i)).map Prod.fst
      (header true (branchPayloadLength refs) ++ branchPayload refs,
        .branch cache fun i => (childReference (children i)).map Prod.snd)
  | .leaf cache path value =>
      (header true (stringLength path + stringLength value) ++ (encodeString path ++ encodeString value),
        .leaf cache path value)
  | .extension cache path child =>
      let (r, child) := lookOrFill keccak child child.encode
      (header true (stringLength path + r.length) ++ (encodeString path ++ r.encode),
        .extension cache path child)
  | .digest cache d => (encodeString d.bytes, .digest cache d)
termination_by structural n => n

def childReference : Option CachedNode → Option (MptNodeReference × CachedNode)
  | none => none
  | some node => some (lookOrFill keccak node node.encode)
termination_by structural n => n
end

def reference (n : CachedNode) : MptNodeReference × CachedNode := lookOrFill keccak n (n.encode keccak)

def payloadLength : CachedNode → Nat
  | .null _ => 0
  | .branch _ children => branchPayloadLength fun i => (childReference keccak (children i)).map Prod.fst
  | .leaf _ path value => stringLength path + stringLength value
  | .extension _ path child => stringLength path + (child.reference keccak).1.length
  | .digest _ _ => 32

def length (n : CachedNode) : Nat :=
  n.payloadLength keccak + lengthOfLength (n.payloadLength keccak)

def toRlp (n : CachedNode) : Bytes := (n.encode keccak).1

def hash (n : CachedNode) : B256 :=
  match n with
  | .null _ => EMPTY_ROOT
  | _ => (n.reference keccak).1.toDigest keccak

/-- The cache of this node is empty or right. -/
def CacheOk (n : CachedNode) : Prop := ∀ r, n.cache = some r → r = n.erase.reference keccak

/-- Every cache in the node is empty or right. -/
inductive Coherent : CachedNode → Prop
  | null {cache} : CacheOk keccak (.null cache) → Coherent (.null cache)
  | branch {cache children} : CacheOk keccak (.branch cache children) →
      (∀ i c, children i = some c → Coherent c) → Coherent (.branch cache children)
  | leaf {cache path value} : CacheOk keccak (.leaf cache path value) → Coherent (.leaf cache path value)
  | extension {cache path child} : CacheOk keccak (.extension cache path child) → Coherent child →
      Coherent (.extension cache path child)
  | digest {cache d} : CacheOk keccak (.digest cache d) → Coherent (.digest cache d)

end Keccak

variable {keccak : Bytes → B256}

theorem Coherent.cacheOk {n : CachedNode} (h : Coherent keccak n) : CacheOk keccak n := by
  cases h <;> assumption

@[simp] theorem erase_setCache (n : CachedNode) (r : Option MptNodeReference) :
    (n.setCache r).erase = n.erase := by cases n <;> rfl

@[simp] theorem cache_setCache (n : CachedNode) (r : Option MptNodeReference) :
    (n.setCache r).cache = r := by cases n <;> rfl

theorem calcReference_erase (n : CachedNode) (encoded : Bytes) :
    n.calcReference keccak encoded = referenceOf keccak n.erase encoded := by cases n <;> rfl

theorem Coherent.setCache {n : CachedNode} (h : Coherent keccak n) {r : MptNodeReference}
    (hr : r = n.erase.reference keccak) : Coherent keccak (n.setCache (some r)) := by
  have hok : CacheOk keccak (n.setCache (some r)) := by
    intro s hs
    rw [cache_setCache] at hs
    rw [erase_setCache, ← Option.some.inj hs, hr]
  cases h with
  | null => exact .null hok
  | branch _ hc => exact .branch hok hc
  | leaf => exact .leaf hok
  | extension _ hc => exact .extension hok hc
  | digest => exact .digest hok

theorem encode_extension (cache : Option MptNodeReference) (path : Bytes) (child : CachedNode) :
    (CachedNode.extension cache path child).encode keccak =
      (header true (stringLength path + (child.reference keccak).1.length) ++
        (encodeString path ++ (child.reference keccak).1.encode),
        .extension cache path (child.reference keccak).2) := rfl

/-- Encoding writes what it writes without caches, and leaves the node as it was up to
caches, which are still right. -/
def EncodesAs (keccak : Bytes → B256) (n : CachedNode) : Prop :=
  (n.encode keccak).1 = n.erase.encode keccak ∧ (n.encode keccak).2.erase = n.erase ∧
    Coherent keccak (n.encode keccak).2

theorem EncodesAs.reference {n : CachedNode} (he : EncodesAs keccak n) (h : Coherent keccak n) :
    (n.reference keccak).1 = n.erase.reference keccak ∧ (n.reference keccak).2.erase = n.erase ∧
      Coherent keccak (n.reference keccak).2 := by
  obtain ⟨hbytes, herase, hco⟩ := he
  unfold CachedNode.reference lookOrFill
  split
  · next r hr => exact ⟨h.cacheOk r hr, rfl, h⟩
  · have hr : n.calcReference keccak (n.encode keccak).1 = n.erase.reference keccak := by
      rw [calcReference_erase, hbytes]
      rfl
    refine ⟨hr, by rw [erase_setCache, herase], hco.setCache ?_⟩
    rw [hr, herase]

theorem childReference_spec {o : Option CachedNode}
    (h : ∀ c, o = some c → EncodesAs keccak c ∧ Coherent keccak c) :
    (childReference keccak o).map Prod.fst = RethProcessor.childReference keccak (eraseChild o) ∧
      eraseChild ((childReference keccak o).map Prod.snd) = eraseChild o ∧
      ∀ c, (childReference keccak o).map Prod.snd = some c → Coherent keccak c := by
  cases o with
  | none => exact ⟨rfl, rfl, fun c hc => by cases hc⟩
  | some node =>
      obtain ⟨hr, he, hco⟩ := (h node rfl).1.reference (h node rfl).2
      refine ⟨congrArg some hr, congrArg some he, ?_⟩
      intro c hc
      obtain rfl : (node.reference keccak).2 = c := Option.some.inj hc
      exact hco

theorem Coherent.encode {n : CachedNode} (h : Coherent keccak n) : EncodesAs keccak n := by
  induction h with
  | null hok => exact ⟨rfl, rfl, .null hok⟩
  | leaf hok => exact ⟨rfl, rfl, .leaf hok⟩
  | digest hok => exact ⟨rfl, rfl, .digest hok⟩
  | @branch cache children hok hc ih =>
      have hspec (i : Nibble) := childReference_spec fun c hci => ⟨ih i c hci, hc i c hci⟩
      have herase : (CachedNode.branch cache fun i =>
          (childReference keccak (children i)).map Prod.snd).erase =
          (CachedNode.branch cache children).erase := by
        simp only [erase, (hspec _).2.1]
      refine ⟨?_, herase, .branch (?_) fun i c hci => (hspec i).2.2 c hci⟩
      · simp only [CachedNode.encode, erase, MptNode.encode, (hspec _).1]
      · intro r hr
        rw [herase]
        exact hok r hr
  | @extension cache path child hok hc ih =>
      obtain ⟨hr, he, hco⟩ := ih.reference hc
      have herase : (CachedNode.extension cache path (child.reference keccak).2).erase =
          (CachedNode.extension cache path child).erase := by
        simp only [erase, he]
      rw [EncodesAs, CachedNode.encode_extension]
      refine ⟨?_, herase, .extension (?_) hco⟩
      · rw [hr]
        rfl
      · intro r hr'
        rw [herase]
        exact hok r hr'

theorem Coherent.reference {n : CachedNode} (h : Coherent keccak n) :
    (n.reference keccak).1 = n.erase.reference keccak ∧ (n.reference keccak).2.erase = n.erase ∧
      Coherent keccak (n.reference keccak).2 := h.encode.reference h

theorem Coherent.toRlp {n : CachedNode} (h : Coherent keccak n) :
    n.toRlp keccak = n.erase.toRlp keccak := h.encode.1

theorem Coherent.payloadLength {n : CachedNode} (h : Coherent keccak n) :
    n.payloadLength keccak = n.erase.payloadLength keccak := by
  cases h with
  | null | leaf | digest => rfl
  | branch _ hc =>
      have hspec (i : Nibble) := childReference_spec fun c hci => ⟨(hc i c hci).encode, hc i c hci⟩
      simp only [CachedNode.payloadLength, erase, MptNode.payloadLength, (hspec _).1, childReference_eq]
  | extension _ hc => simp only [CachedNode.payloadLength, erase, MptNode.payloadLength, hc.reference.1]

theorem Coherent.length {n : CachedNode} (h : Coherent keccak n) :
    n.length keccak = n.erase.length keccak := by
  rw [CachedNode.length, MptNode.length, h.payloadLength]

theorem Coherent.hash {n : CachedNode} (h : Coherent keccak n) :
    n.hash keccak = n.erase.hash keccak := by
  have hr := h.reference.1
  cases n with
  | null => rfl
  | branch | leaf | extension | digest => simp only [CachedNode.hash, MptNode.hash, erase, hr]

/-- A node with right caches and canonical paths writes as many bytes as it announces, and
is read back with its hashed children cut, which changes neither encoding nor hash. -/
theorem decode_toRlp {n : CachedNode} (hc : Coherent keccak n) (hn : WellEncoded n.erase)
    (hlen : (n.toRlp keccak).length < usizeLimit) :
    (n.toRlp keccak).length = n.length keccak ∧
    MptNode.decode (n.toRlp keccak) = .ok (n.erase.trunc keccak) ∧
    (n.erase.trunc keccak).toRlp keccak = n.toRlp keccak ∧
    (n.erase.trunc keccak).hash keccak = n.hash keccak := by
  rw [hc.toRlp] at hlen ⊢
  rw [hc.length, hc.hash]
  exact ⟨encode_length _, hn.decode hlen, encode_trunc _, (pruning_trunc _).hash_eq⟩

section Sample

/-- A branch over a leaf referenced by digest, which it has cached, and an inlined leaf. -/
def twoKinds : CachedNode :=
  .branch none fun i =>
    if i = 0 then some (.leaf (some (.digest cutDigest)) (toEncodedPath (List.replicate 63 0) true) [2])
    else if i = 1 then some (.leaf none (toEncodedPath [] true) [7])
    else none

/-- The digests of the branch and of its first leaf. -/
def twoKindsKeccak : Bytes → B256 := tableKeccak
  [([0xf3, 0xa0] ++ cutDigest.bytes ++ [0xc2, 0x20, 0x07] ++ List.replicate 15 0x80,
    ⟨[0x99, 0xe9, 0x47, 0x69, 0x6d, 0xcb, 0x90, 0xaf, 0x60, 0xdf, 0x1d, 0x62, 0x78, 0x06, 0xe8, 0x5e,
      0x66, 0x0e, 0x3f, 0xce, 0xb3, 0x1c, 0xe0, 0x7e, 0x42, 0xe2, 0x0d, 0x43, 0x6a, 0x65, 0x94, 0xd1], rfl⟩),
    (cutLeaf, cutDigest)]

theorem coherent_twoKinds : Coherent twoKindsKeccak twoKinds := by
  refine .branch (fun r hr => by cases hr) ?_
  intro i c hc
  split at hc
  · cases hc
    refine .leaf ?_
    intro r hr
    cases hr
    rw [erase, reference_cutLeaf]
    rfl
  · split at hc
    · cases hc
      exact .leaf fun r hr => by cases hr
    · cases hc

theorem wellEncoded_twoKinds : WellEncoded twoKinds.erase := by
  have hc (i : Nibble) (c : MptNode) (h : eraseChild (if i = 0 then
        some (.leaf (some (.digest cutDigest)) (toEncodedPath (List.replicate 63 0) true) [2])
      else if i = 1 then some (.leaf none (toEncodedPath [] true) [7]) else none) = some c) :
      ∃ ns value, c = .leaf (toEncodedPath ns true) value := by
    split at h
    · exact ⟨_, _, (Option.some.inj h).symm⟩
    · split at h
      · exact ⟨_, _, (Option.some.inj h).symm⟩
      · cases h
  refine .branch (?_) ?_
  · intro i hi
    obtain ⟨ns, value, h⟩ := hc i _ hi
    cases h
  · intro i c hi
    obtain ⟨ns, value, rfl⟩ := hc i c hi
    exact .leaf ns value

theorem decode_toRlp_twoKinds :
    (twoKinds.toRlp twoKindsKeccak).length = twoKinds.length twoKindsKeccak ∧
    MptNode.decode (twoKinds.toRlp twoKindsKeccak) = .ok (twoKinds.erase.trunc twoKindsKeccak) ∧
    (twoKinds.erase.trunc twoKindsKeccak).toRlp twoKindsKeccak = twoKinds.toRlp twoKindsKeccak ∧
    (twoKinds.erase.trunc twoKindsKeccak).hash twoKindsKeccak = twoKinds.hash twoKindsKeccak :=
  decode_toRlp coherent_twoKinds wellEncoded_twoKinds (by decide +kernel)

end Sample

end CachedNode

end RethProcessor
