import RethProcessor.RlpView
import RethProcessor.Paths
import Mathlib.Logic.Function.Basic

/-! The sparse Merkle Patricia trie: its nodes, and the nibble paths they carry.
`MptNode` is a node without its reference cache, which its `PartialEq` ignores too. -/
namespace RethProcessor
export Rlp (Bytes)

/-- A 32-byte word. -/
@[ext] structure B256 where
  bytes : Bytes
  length_eq : bytes.length = 32
  deriving DecidableEq

/-- The errors of the trie operations. -/
inductive Error where
  | nodeNotResolved (digest : B256)
  | valueInBranch
  | rlp
  | legacyRlp (e : Rlp.DecoderError)
  deriving DecidableEq

/-- How a call fails to return `Ok`. -/
inductive Failure where
  | err (e : Error)
  | panic
  deriving DecidableEq

/-- Four bits of a key. -/
abbrev Nibble := Fin 16

/-- A nibble as a numeral. -/
instance (n : Nat) : OfNat Nibble n := ⟨Fin.ofNat 16 n⟩

inductive MptNodeReference where
  | bytes (b : Bytes)
  | digest (d : B256)
  deriving DecidableEq

/-- The `MptNodeData` of a node and of all nodes below it. -/
inductive MptNode where
  | null
  | branch (children : Nibble → Option MptNode)
  | leaf (path value : Bytes)
  | extension (path : Bytes) (child : MptNode)
  | digest (d : B256)

instance : Inhabited MptNode := ⟨.null⟩

/-- `<[_; 16] as Default>::default`. -/
def noChildren : Nibble → Option MptNode := fun _ => none

@[elab_as_elim, induction_eliminator]
theorem MptNode.induction {motive : MptNode → Prop} (null : motive .null)
    (branch : ∀ children, (∀ i c, children i = some c → motive c) → motive (.branch children))
    (leaf : ∀ path value, motive (.leaf path value))
    (extension : ∀ path child, motive child → motive (.extension path child))
    (digest : ∀ d, motive (.digest d)) (n : MptNode) : motive n := by
  refine @MptNode.rec motive (fun o => ∀ c, o = some c → motive c)
    null branch leaf extension digest ?_ ?_ n
  · intro c h
    cases h
  · intro child ih c h
    cases h
    exact ih

def MptNode.isEmpty : MptNode → Bool
  | .null => true
  | _ => false

def MptNode.isDigest : MptNode → Bool
  | .digest _ => true
  | _ => false

@[simp] theorem MptNode.isEmpty_iff {n : MptNode} : n.isEmpty = true ↔ n = .null := by
  cases n <;> simp [isEmpty]

def hi (b : UInt8) : Nibble := Fin.ofNat 16 (b >>> 4).toNat
def lo (b : UInt8) : Nibble := Fin.ofNat 16 (b &&& 0xf).toNat

def Nibble.toByte (n : Nibble) : UInt8 := UInt8.ofNat n.val

/-- Two nibbles in one byte. -/
def joinNibbles (a b : Nibble) : UInt8 := (a.toByte <<< 4) + b.toByte

def toNibs : Bytes → List Nibble
  | [] => []
  | b :: bs => hi b :: lo b :: toNibs bs

/-- `chunks_exact(2)`, each pair joined. -/
def joinPairs : List Nibble → Bytes
  | a :: b :: rest => joinNibbles a b :: joinPairs rest
  | _ => []

def toEncodedPath (nibs : List Nibble) (isLeaf : Bool) : Bytes :=
  let flag : UInt8 := (if isLeaf then 1 else 0) * 0x20
  match nibs with
  | [] => [flag]
  | first :: rest =>
      if nibs.length % 2 = 0 then flag :: joinPairs nibs
      else (flag + (0x10 + first.toByte)) :: joinPairs rest

def isOdd (first : UInt8) : Bool := (first &&& 0x10) ≠ 0

def prefixNibs : Bytes → Except Failure (List Nibble)
  | [] => .error .panic
  | first :: tail => .ok ((if isOdd first then [lo first] else []) ++ toNibs tail)

/-- The flag bit of a path, which the decoder takes for the kind of the node. -/
def leafFlag : Bytes → Bool
  | [] => false
  | first :: _ => (first &&& 0x20) ≠ 0

theorem hi_joinNibbles (a b : Nibble) : hi (joinNibbles a b) = a := by
  revert a b
  decide

theorem lo_joinNibbles (a b : Nibble) : lo (joinNibbles a b) = b := by
  revert a b
  decide

theorem toNibs_length (bs : Bytes) : (toNibs bs).length = 2 * bs.length := by
  induction bs with
  | nil => rfl
  | cons b bs ih => simp only [toNibs, List.length_cons, ih]; omega

theorem toNibs_even (bs : Bytes) : (toNibs bs).length % 2 = 0 := by
  rw [toNibs_length]
  omega

theorem hi_val (b : UInt8) : (hi b).val = b.toNat / 16 := by
  have hb := b.toNat_lt
  simp [hi, Fin.ofNat, UInt8.toNat_shiftRight, Nat.shiftRight_eq_div_pow]
  omega

theorem lo_val (b : UInt8) : (lo b).val = b.toNat % 16 := by
  have h := Nat.and_two_pow_sub_one_eq_mod b.toNat 4
  simp [lo, Fin.ofNat, UInt8.toNat_and] at h ⊢
  omega

theorem byte_ext {a b : UInt8} (hh : hi a = hi b) (hl : lo a = lo b) : a = b := by
  have h := congrArg Fin.val hh
  have l := congrArg Fin.val hl
  rw [hi_val, hi_val] at h
  rw [lo_val, lo_val] at l
  rw [← UInt8.toNat_inj]
  omega

theorem joinNibbles_hi_lo (b : UInt8) : joinNibbles (hi b) (lo b) = b :=
  byte_ext (hi_joinNibbles _ _) (lo_joinNibbles _ _)

theorem toNibs_prefix {a b : Bytes} : toNibs a <+: toNibs b ↔ a <+: b := by
  induction a generalizing b with
  | nil => simp [toNibs]
  | cons x a ih =>
      cases b with
      | nil => simp [toNibs]
      | cons y b =>
          simp only [toNibs, List.cons_prefix_cons, ih]
          constructor
          · rintro ⟨hh, hl, h⟩
            exact ⟨byte_ext hh hl, h⟩
          · rintro ⟨rfl, h⟩
            exact ⟨rfl, rfl, h⟩

theorem toNibs_append (a b : Bytes) : toNibs (a ++ b) = toNibs a ++ toNibs b := by
  induction a with
  | nil => rfl
  | cons x a ih => rw [List.cons_append, toNibs, ih, toNibs, List.cons_append, List.cons_append]

theorem toNibs_inj {a b : Bytes} : toNibs a = toNibs b ↔ a = b := by
  constructor
  · intro h
    have hab : a <+: b := toNibs_prefix.mp (h ▸ List.prefix_refl _)
    have hlen := congrArg List.length h
    rw [toNibs_length, toNibs_length] at hlen
    exact hab.eq_of_length (by omega)
  · rintro rfl
    rfl

theorem toNibs_joinPairs : ∀ {nibs : List Nibble}, nibs.length % 2 = 0 → toNibs (joinPairs nibs) = nibs
  | [], _ => rfl
  | [_], h => by simp at h
  | a :: b :: rest, h => by
      have hrest : rest.length % 2 = 0 := by simp only [List.length_cons] at h; omega
      simp only [joinPairs, toNibs, hi_joinNibbles, lo_joinNibbles, toNibs_joinPairs hrest]

theorem joinPairs_toNibs (bs : Bytes) : joinPairs (toNibs bs) = bs := by
  induction bs with
  | nil => rfl
  | cons b bs ih => rw [toNibs, joinPairs, joinNibbles_hi_lo, ih]

theorem joinPairs_length : ∀ nibs : List Nibble, (joinPairs nibs).length = nibs.length / 2
  | [] => rfl
  | [_] => by simp [joinPairs]
  | _ :: _ :: rest => by simp only [joinPairs, List.length_cons, joinPairs_length rest]; omega

theorem toEncodedPath_of_even {nibs : List Nibble} (h : nibs.length % 2 = 0) (isLeaf : Bool) :
    toEncodedPath nibs isLeaf = (if isLeaf then 1 else 0) * 0x20 :: joinPairs nibs := by
  cases nibs with
  | nil => rfl
  | cons first rest => rw [toEncodedPath, if_pos h]

theorem toEncodedPath_of_odd (first : Nibble) {rest : List Nibble} (h : rest.length % 2 = 0) (isLeaf : Bool) :
    toEncodedPath (first :: rest) isLeaf =
      ((if isLeaf then 1 else 0) * 0x20 + (0x10 + first.toByte)) :: joinPairs rest := by
  rw [toEncodedPath, List.length_cons, if_neg (by omega)]

/-- The first nibble of a path of odd length stands apart from the pairs. -/
theorem even_or_first (nibs : List Nibble) :
    nibs.length % 2 = 0 ∨ ∃ first rest, nibs = first :: rest ∧ rest.length % 2 = 0 := by
  cases nibs with
  | nil => exact .inl rfl
  | cons first rest =>
      by_cases h : rest.length % 2 = 0
      · exact .inr ⟨first, rest, rfl, h⟩
      · left
        rw [List.length_cons]
        omega

theorem toEncodedPath_length (nibs : List Nibble) (isLeaf : Bool) :
    (toEncodedPath nibs isLeaf).length = nibs.length / 2 + 1 := by
  rcases even_or_first nibs with h | ⟨first, rest, rfl, h⟩
  · rw [toEncodedPath_of_even h, List.length_cons, joinPairs_length]
  · rw [toEncodedPath_of_odd first h, List.length_cons, joinPairs_length, List.length_cons]
    omega

/-- A path of a single byte is its own RLP encoding. -/
theorem bare_toEncodedPath {nibs : List Nibble} {isLeaf : Bool}
    (h : (toEncodedPath nibs isLeaf).length = 1) : Rlp.bare (toEncodedPath nibs isLeaf) = true := by
  cases nibs with
  | nil => cases isLeaf <;> rfl
  | cons first rest =>
      cases rest with
      | nil =>
          revert isLeaf first
          decide
      | cons second rest =>
          rw [toEncodedPath_length, List.length_cons, List.length_cons] at h
          omega

/-- A longer path has an encoding at least as long. -/
theorem stringLength_toEncodedPath_mono (ms ns : List Nibble) (isLeaf : Bool) :
    Rlp.stringLength (toEncodedPath ns isLeaf) ≤ Rlp.stringLength (toEncodedPath (ms ++ ns) isLeaf) := by
  have hlen : (toEncodedPath ns isLeaf).length ≤ (toEncodedPath (ms ++ ns) isLeaf).length := by
    simp only [toEncodedPath_length, List.length_append]
    omega
  have hlol := Rlp.lengthOfLength_mono hlen
  have hpos : 0 < (toEncodedPath ns isLeaf).length := by simp [toEncodedPath_length]
  unfold Rlp.stringLength
  split
  · split <;> omega
  · next hs =>
      split
      · next ht =>
          obtain ⟨b, hb, -⟩ := Rlp.bare_iff.mp ht
          rw [hb, List.length_singleton] at hlen
          exact absurd (bare_toEncodedPath (by omega)) hs
      · omega

theorem isOdd_flag (isLeaf : Bool) : isOdd ((if isLeaf then 1 else 0) * 0x20) = false := by
  cases isLeaf <;> decide

theorem isOdd_odd (isLeaf : Bool) (a : Nibble) :
    isOdd ((if isLeaf then 1 else 0) * 0x20 + (0x10 + a.toByte)) = true := by
  revert isLeaf a
  decide

theorem lo_odd (isLeaf : Bool) (a : Nibble) :
    lo ((if isLeaf then 1 else 0) * 0x20 + (0x10 + a.toByte)) = a := by
  revert isLeaf a
  decide

/-- A written path is read back, whatever its length and its flag. -/
@[simp] theorem prefixNibs_toEncodedPath (nibs : List Nibble) (isLeaf : Bool) :
    prefixNibs (toEncodedPath nibs isLeaf) = .ok nibs := by
  rcases even_or_first nibs with h | ⟨first, rest, rfl, h⟩
  · rw [toEncodedPath_of_even h, prefixNibs, isOdd_flag, toNibs_joinPairs h]
    rfl
  · rw [toEncodedPath_of_odd first h, prefixNibs, isOdd_odd, lo_odd, toNibs_joinPairs h]
    rfl

theorem leafFlag_flag (isLeaf : Bool) (tail : Bytes) :
    leafFlag ((if isLeaf then 1 else 0) * 0x20 :: tail) = isLeaf := by
  cases isLeaf <;> rfl

theorem leafFlag_odd (isLeaf : Bool) (a : Nibble) (tail : Bytes) :
    leafFlag (((if isLeaf then 1 else 0) * 0x20 + (0x10 + a.toByte)) :: tail) = isLeaf := by
  simp only [leafFlag]
  revert isLeaf a
  decide

@[simp] theorem leafFlag_toEncodedPath (nibs : List Nibble) (isLeaf : Bool) :
    leafFlag (toEncodedPath nibs isLeaf) = isLeaf := by
  rcases even_or_first nibs with h | ⟨first, rest, rfl, h⟩
  · rw [toEncodedPath_of_even h]
    exact leafFlag_flag _ _
  · rw [toEncodedPath_of_odd first h]
    exact leafFlag_odd _ _ _

theorem toEncodedPath_ne_nil (nibs : List Nibble) (isLeaf : Bool) : toEncodedPath nibs isLeaf ≠ [] := by
  intro h
  have := prefixNibs_toEncodedPath nibs isLeaf
  rw [h] at this
  simp [prefixNibs] at this

/-- The path and the flag can both be read off an encoded path. -/
@[simp] theorem toEncodedPath_inj {ns ms : List Nibble} {a b : Bool} :
    toEncodedPath ns a = toEncodedPath ms b ↔ ns = ms ∧ a = b := by
  constructor
  · intro h
    have hn := congrArg prefixNibs h
    have hf := congrArg leafFlag h
    simp only [prefixNibs_toEncodedPath, Except.ok.injEq, leafFlag_toEncodedPath] at hn hf
    exact ⟨hn, hf⟩
  · rintro ⟨rfl, rfl⟩
    rfl

/-- Parity, flag and first nibble are all there is in a first byte without bits above the flag and
without padding. -/
theorem lead_cases {first : UInt8} (htop : first &&& 0xc0 = 0)
    (hpad : first &&& 0x10 = 0 → first &&& 0x0f = 0) :
    (isOdd first = false ∧ first = (if leafFlag [first] then 1 else 0) * 0x20) ∨
      (isOdd first = true ∧ first = (if leafFlag [first] then 1 else 0) * 0x20 + (0x10 + (lo first).toByte)) := by
  obtain ⟨a, b, rfl⟩ : ∃ a b, first = joinNibbles a b := ⟨hi first, lo first, (joinNibbles_hi_lo first).symm⟩
  revert a b
  decide

/-- A path that is read is written back, with its flag. -/
theorem toEncodedPath_of_prefixNibs {first : UInt8} {tail : Bytes} (htop : first &&& 0xc0 = 0)
    (hpad : first &&& 0x10 = 0 → first &&& 0x0f = 0) {nibs : List Nibble}
    (h : prefixNibs (first :: tail) = .ok nibs) : toEncodedPath nibs (leafFlag (first :: tail)) = first :: tail := by
  have hflag : leafFlag (first :: tail) = leafFlag [first] := rfl
  rcases lead_cases htop hpad with ⟨hodd, hlead⟩ | ⟨hodd, hlead⟩
  · rw [prefixNibs, hodd, if_neg Bool.false_ne_true, List.nil_append, Except.ok.injEq] at h
    subst h
    rw [toEncodedPath_of_even (toNibs_even tail), joinPairs_toNibs, hflag, ← hlead]
  · rw [prefixNibs, hodd, if_pos rfl, List.singleton_append, Except.ok.injEq] at h
    subst h
    rw [toEncodedPath_of_odd _ (toNibs_even tail), joinPairs_toNibs, hflag, ← hlead]

end RethProcessor
