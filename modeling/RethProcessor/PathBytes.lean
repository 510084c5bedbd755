import RethProcessor.TrieNode

/-! The paths as the code holds them: a slice of `u8`, a nibble in each, with sums and products
checked for overflow. On nibbles they are the functions that the trie is modelled over. -/
namespace RethProcessor
namespace U8

/-- `+` on `u8` with overflow checks. -/
def add (a b : UInt8) : Except Failure UInt8 :=
  if a.toNat + b.toNat < UInt8.size then .ok (a + b) else .error .panic

/-- `*` on `u8` with overflow checks. -/
def mul (a b : UInt8) : Except Failure UInt8 :=
  if a.toNat * b.toNat < UInt8.size then .ok (a * b) else .error .panic

def toNibs : Bytes → Bytes
  | [] => []
  | byte :: slice => (byte >>> 4) :: (byte &&& 0xf) :: toNibs slice

/-- `chunks_exact(2)`, each pair joined. -/
def joinPairs : Bytes → Except Failure Bytes
  | a :: b :: rest => do
      let byte ← add (a <<< 4) b
      return byte :: (← joinPairs rest)
  | _ => return []

def toEncodedPath (nibs : Bytes) (isLeaf : Bool) : Except Failure Bytes := do
  let flag ← mul (if isLeaf then 1 else 0) 0x20
  match nibs with
  | [] => return [flag]
  | first :: rest =>
      if nibs.length % 2 = 0 then return flag :: (← joinPairs nibs)
      else
        let lead ← add flag (← add 0x10 first)
        return lead :: (← joinPairs rest)

def prefixNibs : Bytes → Except Failure Bytes
  | [] => .error .panic
  | extension :: tail => .ok ((if isOdd extension then [extension &&& 0xf] else []) ++ toNibs tail)

/-- The capacity that `prefix_nibs` asks for, which it computes on `usize`. -/
def nibsCapacity : Bytes → Nat
  | [] => 0
  | extension :: tail => 2 * tail.length + if isOdd extension then 1 else 0

theorem add_ok {a b : UInt8} (h : a.toNat + b.toNat < UInt8.size) : add a b = .ok (a + b) := if_pos h

theorem toByte_hi (b : UInt8) : (hi b).toByte = b >>> 4 := by
  rw [← UInt8.toNat_inj, Nibble.toByte, hi_val]
  have hb := b.toNat_lt
  simp [UInt8.toNat_shiftRight, Nat.shiftRight_eq_div_pow]
  omega

theorem toByte_lo (b : UInt8) : (lo b).toByte = b &&& 0xf := by
  have h := Nat.and_two_pow_sub_one_eq_mod b.toNat 4
  rw [← UInt8.toNat_inj, Nibble.toByte, lo_val]
  simp [UInt8.toNat_and] at h ⊢
  omega

theorem toByte_lt (n : Nibble) : n.toByte.toNat < 16 := by
  rw [Nibble.toByte, UInt8.toNat_ofNat_of_lt' (Nat.lt_trans n.isLt (by decide))]
  exact n.isLt

theorem toNibs_eq (slice : Bytes) : toNibs slice = (RethProcessor.toNibs slice).map Nibble.toByte := by
  induction slice with
  | nil => rfl
  | cons byte slice ih =>
      rw [toNibs, RethProcessor.toNibs, List.map_cons, List.map_cons, toByte_hi, toByte_lo, ih]

/-- What `prefix_nibs` pushes are nibbles. -/
theorem prefixNibs_eq (path : Bytes) :
    prefixNibs path = (RethProcessor.prefixNibs path).map (List.map Nibble.toByte) := by
  cases path with
  | nil => rfl
  | cons extension tail =>
      rw [prefixNibs, RethProcessor.prefixNibs, Except.map, List.map_append, toNibs_eq]
      cases isOdd extension with
      | true => rw [if_pos rfl, if_pos rfl, List.map_singleton, toByte_lo]
      | false => rfl

/-- The capacity is that of the nibbles exactly. -/
theorem length_of_prefixNibs {path nibs : Bytes} (h : prefixNibs path = .ok nibs) :
    nibsCapacity path = nibs.length := by
  cases path with
  | nil => cases h
  | cons extension tail =>
      cases h
      rw [nibsCapacity, List.length_append, toNibs_eq, List.length_map, toNibs_length]
      cases isOdd extension with
      | true => exact Nat.add_comm _ _
      | false => exact (Nat.zero_add _).symm

/-- Two nibbles fit into a byte. -/
theorem joinPairs_eq : ∀ nibs : List Nibble,
    joinPairs (nibs.map Nibble.toByte) = .ok (RethProcessor.joinPairs nibs)
  | [] => rfl
  | [_] => rfl
  | a :: b :: rest => by
      have hshift : (a.toByte <<< 4).toNat = 16 * a.toByte.toNat := by
        have ha := toByte_lt a
        simp [UInt8.toNat_shiftLeft, Nat.shiftLeft_eq]
        omega
      have hadd : add (a.toByte <<< 4) b.toByte = .ok (joinNibbles a b) := by
        apply add_ok
        have ha := toByte_lt a
        have hb := toByte_lt b
        rw [hshift]
        change _ < 256
        omega
      simp only [List.map_cons, joinPairs, hadd, joinPairs_eq rest]
      rfl

theorem mul_flag (isLeaf : Bool) :
    mul (if isLeaf then 1 else 0) 0x20 = .ok ((if isLeaf then 1 else 0) * 0x20) := by
  cases isLeaf with
  | true => rfl
  | false => rfl

theorem add_first (first : Nibble) : add 0x10 first.toByte = .ok (0x10 + first.toByte) := by
  revert first
  decide

theorem add_lead (isLeaf : Bool) (first : Nibble) :
    add ((if isLeaf then 1 else 0) * 0x20) (0x10 + first.toByte) =
      .ok ((if isLeaf then 1 else 0) * 0x20 + (0x10 + first.toByte)) := by
  revert isLeaf first
  decide

/-- Flag, parity and first nibble fit into the first byte. -/
theorem toEncodedPath_eq (nibs : List Nibble) (isLeaf : Bool) :
    toEncodedPath (nibs.map Nibble.toByte) isLeaf = .ok (RethProcessor.toEncodedPath nibs isLeaf) := by
  cases nibs with
  | nil =>
      rw [List.map_nil, toEncodedPath, mul_flag]
      rfl
  | cons first rest =>
      have hlength : (first.toByte :: rest.map Nibble.toByte).length = (first :: rest).length := by
        rw [List.length_cons, List.length_cons, List.length_map]
      have hpairs := joinPairs_eq (first :: rest)
      rw [List.map_cons] at hpairs ⊢
      by_cases heven : (first :: rest).length % 2 = 0
      · simp only [toEncodedPath, RethProcessor.toEncodedPath, mul_flag, hlength, heven, ↓reduceIte, hpairs]
        rfl
      · simp only [toEncodedPath, RethProcessor.toEncodedPath, mul_flag, hlength, heven, ↓reduceIte, bind,
          Except.bind, add_first, add_lead, joinPairs_eq rest]
        rfl

/-- Bytes below 16 are nibbles. -/
theorem map_toByte_lo {nibs : Bytes} (h : ∀ nib ∈ nibs, nib < 16) : (nibs.map lo).map Nibble.toByte = nibs := by
  have hid : ∀ nib ∈ nibs, (Nibble.toByte ∘ lo) nib = id nib := by
    intro nib hnib
    have hlt : nib.toNat < 16 := UInt8.lt_iff_toNat_lt.mp (h nib hnib)
    rw [Function.comp_apply, id_eq, ← UInt8.toNat_inj, Nibble.toByte, lo_val, Nat.mod_eq_of_lt hlt]
    exact UInt8.toNat_ofNat_of_lt' nib.toNat_lt
  rw [List.map_map, List.map_congr_left hid, List.map_id]

/-- Every list of nibbles is read back from its path, and every path that the encoder can write is
written back. As the length of a slice, the capacity is a `usize`. -/
theorem encodedPath_roundTrip :
    (∀ (nibs : Bytes) (isLeaf : Bool), (∀ nib ∈ nibs, nib < 16) → ∃ first tail,
      toEncodedPath nibs isLeaf = .ok (first :: tail) ∧ prefixNibs (first :: tail) = .ok nibs ∧
        nibsCapacity (first :: tail) = nibs.length ∧ (first &&& 0x20 ≠ 0 ↔ isLeaf = true)) ∧
    ∀ (first : UInt8) (tail : Bytes), first &&& 0xc0 = 0 → (first &&& 0x10 = 0 → first &&& 0x0f = 0) →
      ∃ nibs, prefixNibs (first :: tail) = .ok nibs ∧
        toEncodedPath nibs (first &&& 0x20 ≠ 0) = .ok (first :: tail) := by
  constructor
  · intro nibs isLeaf hnibs
    have hencode := toEncodedPath_eq (nibs.map lo) isLeaf
    have hprefix := prefixNibs_eq (RethProcessor.toEncodedPath (nibs.map lo) isLeaf)
    have hflag := leafFlag_toEncodedPath (nibs.map lo) isLeaf
    rw [map_toByte_lo hnibs] at hencode
    rw [prefixNibs_toEncodedPath, Except.map, map_toByte_lo hnibs] at hprefix
    cases hpath : RethProcessor.toEncodedPath (nibs.map lo) isLeaf with
    | nil => exact absurd hpath (toEncodedPath_ne_nil _ _)
    | cons first tail =>
        rw [hpath] at hencode hprefix hflag
        refine ⟨first, tail, hencode, hprefix, length_of_prefixNibs hprefix, ?_⟩
        rw [← hflag, leafFlag, decide_eq_true_eq]
  · intro first tail htop hpad
    obtain ⟨nibs, hnibs⟩ : ∃ nibs, RethProcessor.prefixNibs (first :: tail) = .ok nibs := ⟨_, rfl⟩
    refine ⟨nibs.map Nibble.toByte, ?_, ?_⟩
    · rw [prefixNibs_eq, hnibs]
      rfl
    · have hpath := toEncodedPath_of_prefixNibs htop hpad hnibs
      rw [leafFlag] at hpath
      rw [toEncodedPath_eq, hpath]

theorem encodedPath_roundTrip_abc :
    (∃ first tail, toEncodedPath [0xa, 0xb, 0xc] true = .ok (first :: tail) ∧
      prefixNibs (first :: tail) = .ok [0xa, 0xb, 0xc] ∧ nibsCapacity (first :: tail) = 3 ∧
        (first &&& 0x20 ≠ 0 ↔ true = true)) ∧
    ∃ nibs, prefixNibs [0x3a, 0xbc] = .ok nibs ∧
      toEncodedPath nibs ((0x3a : UInt8) &&& 0x20 ≠ 0) = .ok [0x3a, 0xbc] :=
  ⟨encodedPath_roundTrip.1 [0xa, 0xb, 0xc] true (by simp),
    encodedPath_roundTrip.2 0x3a [0xbc] (by decide) (by decide)⟩

end U8
end RethProcessor
