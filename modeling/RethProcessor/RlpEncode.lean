import Mathlib.Data.List.Basic
import Mathlib.Tactic.Common
import Mathlib.Tactic.Linarith

/-! RLP strings and list headers as `alloy_rlp` writes them. Lengths are natural
numbers; the results that read a header back assume they fit a `usize`. -/
namespace Rlp

abbrev Bytes := List UInt8

/-- The number of values of a `usize` on the 64-bit hosts this code is built for. -/
abbrev usizeLimit : Nat := 2 ^ 64

def bigEndianAux : Nat → Nat → Bytes
  | 0, _ => []
  | fuel + 1, n => if n = 0 then [] else bigEndianAux fuel (n / 256) ++ [UInt8.ofNat n]

/-- Big-endian bytes without leading zeros. -/
def bigEndian (n : Nat) : Bytes := bigEndianAux n n

def fromBigEndian (bs : Bytes) : Nat := bs.foldl (fun acc b => acc * 256 + b.toNat) 0

theorem bigEndianAux_fuel {fuel m n : Nat} (hf : n ≤ fuel) (hm : n ≤ m) :
    bigEndianAux fuel n = bigEndianAux m n := by
  induction fuel generalizing m n with
  | zero =>
      obtain rfl : n = 0 := by omega
      cases m <;> simp [bigEndianAux]
  | succ fuel ih =>
      cases m with
      | zero =>
          obtain rfl : n = 0 := by omega
          simp [bigEndianAux]
      | succ m =>
          by_cases h0 : n = 0
          · simp [bigEndianAux, h0]
          · have hlt : n / 256 < n := Nat.div_lt_self (Nat.pos_of_ne_zero h0) (by decide)
            simp only [bigEndianAux, h0, ↓reduceIte]
            rw [ih (m := m) (by omega) (by omega)]

@[simp] theorem bigEndian_zero : bigEndian 0 = [] := rfl

theorem bigEndian_pos {n : Nat} (h : 0 < n) :
    bigEndian n = bigEndian (n / 256) ++ [UInt8.ofNat n] := by
  obtain ⟨m, rfl⟩ := Nat.exists_eq_add_of_lt h
  have hlt : (0 + m + 1) / 256 < 0 + m + 1 := Nat.div_lt_self h (by decide)
  simp only [bigEndian, bigEndianAux, Nat.succ_ne_zero, ↓reduceIte]
  rw [bigEndianAux_fuel (n := (0 + m + 1) / 256) (by omega) (Nat.le_refl _)]

theorem fromBigEndian_append_singleton (bs : Bytes) (b : UInt8) :
    fromBigEndian (bs ++ [b]) = fromBigEndian bs * 256 + b.toNat := by
  simp [fromBigEndian, List.foldl_append]

theorem fromBigEndian_bigEndian (n : Nat) : fromBigEndian (bigEndian n) = n := by
  induction n using Nat.strongRecOn with
  | ind n ih =>
      rcases Nat.eq_zero_or_pos n with rfl | h
      · rfl
      · rw [bigEndian_pos h, fromBigEndian_append_singleton,
          ih _ (Nat.div_lt_self h (by decide)), UInt8.toNat_ofNat']
        omega

theorem bigEndian_length_le {n k : Nat} (h : n < 256 ^ k) : (bigEndian n).length ≤ k := by
  induction k generalizing n with
  | zero =>
      obtain rfl : n = 0 := by simpa using h
      simp
  | succ k ih =>
      rcases Nat.eq_zero_or_pos n with rfl | hn
      · simp
      · rw [bigEndian_pos hn, List.length_append, List.length_singleton]
        have := ih (n := n / 256) (Nat.div_lt_of_lt_mul (by rw [Nat.mul_comm, ← Nat.pow_succ]; exact h))
        omega

theorem bigEndian_head {n : Nat} (h : 0 < n) : ∃ b rest, bigEndian n = b :: rest ∧ b ≠ 0 := by
  induction n using Nat.strongRecOn with
  | ind n ih =>
      rw [bigEndian_pos h]
      rcases Nat.eq_zero_or_pos (n / 256) with hd | hd
      · refine ⟨UInt8.ofNat n, [], by simp [hd], ?_⟩
        intro hz
        have := congrArg UInt8.toNat hz
        rw [UInt8.toNat_ofNat'] at this
        simp only [UInt8.toNat_zero] at this
        omega
      · obtain ⟨b, rest, hb, hne⟩ := ih _ (Nat.div_lt_self h (by decide)) hd
        exact ⟨b, rest ++ [UInt8.ofNat n], by simp [hb], hne⟩

/-- `alloy_rlp::length_of_length`. -/
def lengthOfLength (payloadLength : Nat) : Nat :=
  if payloadLength < 56 then 1 else 1 + (bigEndian payloadLength).length

theorem bigEndian_length_mono {n m : Nat} (h : n ≤ m) :
    (bigEndian n).length ≤ (bigEndian m).length := by
  induction m using Nat.strongRecOn generalizing n with
  | ind m ih =>
      rcases Nat.eq_zero_or_pos n with rfl | hn
      · simp
      · have hm : 0 < m := Nat.lt_of_lt_of_le hn h
        have := ih (m / 256) (Nat.div_lt_self hm (by decide)) (Nat.div_le_div_right (c := 256) h)
        rw [bigEndian_pos hn, bigEndian_pos hm]
        simpa using this

theorem lengthOfLength_mono {n m : Nat} (h : n ≤ m) : lengthOfLength n ≤ lengthOfLength m := by
  have := bigEndian_length_mono h
  unfold lengthOfLength
  split <;> split <;> omega

/-- `alloy_rlp::Header::encode`. -/
def header (list : Bool) (payloadLength : Nat) : Bytes :=
  if payloadLength < 56 then
    [UInt8.ofNat ((if list then 0xc0 else 0x80) + payloadLength)]
  else
    UInt8.ofNat ((if list then 0xf7 else 0xb7) + (bigEndian payloadLength).length) ::
      bigEndian payloadLength

@[simp] theorem header_length (list : Bool) (n : Nat) :
    (header list n).length = lengthOfLength n := by
  unfold header lengthOfLength
  split <;> simp [Nat.add_comm]

/-- A single byte below `0x80` is its own encoding. -/
def bare : Bytes → Bool
  | [b] => b < 0x80
  | _ => false

theorem bare_iff {s : Bytes} : bare s = true ↔ ∃ b, s = [b] ∧ b < 0x80 := by
  match s with
  | [] => simp [bare]
  | [b] => simp [bare]
  | _ :: _ :: _ => simp [bare]

theorem bare_of_length {s : Bytes} (h : s.length ≠ 1) : bare s = false := by
  rw [← Bool.not_eq_true, bare_iff]
  rintro ⟨b, rfl, -⟩
  exact h rfl

/-- `<[u8] as alloy_rlp::Encodable>::encode`. -/
def encodeString (s : Bytes) : Bytes := if bare s then s else header false s.length ++ s

/-- `<[u8] as alloy_rlp::Encodable>::length`. -/
def stringLength (s : Bytes) : Nat := if bare s then s.length else s.length + lengthOfLength s.length

@[simp] theorem encodeString_length (s : Bytes) : (encodeString s).length = stringLength s := by
  unfold encodeString stringLength
  split <;> simp [Nat.add_comm]

theorem encodeString_of_bare {s : Bytes} (h : bare s = true) : encodeString s = s := by
  simp [encodeString, h]

theorem encodeString_of_not_bare {s : Bytes} (h : bare s = false) :
    encodeString s = header false s.length ++ s := by simp [encodeString, h]

/-- A list of items, already encoded. -/
def encodeList (items : List Bytes) : Bytes := header true items.flatten.length ++ items.flatten

theorem encodeList_length (items : List Bytes) :
    (encodeList items).length = items.flatten.length + lengthOfLength items.flatten.length := by
  simp [encodeList, Nat.add_comm]

theorem length_lt_of_encodeString {s : Bytes} {n : Nat} (h : (encodeString s).length < n) :
    s.length < n := by
  rw [encodeString_length] at h
  unfold stringLength at h
  split at h <;> omega

end Rlp
