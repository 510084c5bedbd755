import RethProcessor.RlpEncode

/-! The reading side of the `rlp` 0.5 crate: a view of a byte slice, its item
headers, and its items. Nothing here checks that a view is read to its end. -/
namespace Rlp

inductive DecoderError where
  | rlpIsTooBig
  | rlpIsTooShort
  | rlpExpectedToBeList
  | rlpExpectedToBeData
  | rlpIncorrectListLen
  | rlpDataLenWithZeroPrefix
  | rlpInvalidIndirection
  | rlpInconsistentLengthAndData
  | custom (message : String)
  deriving DecidableEq, Repr

structure PayloadInfo where
  headerLen : Nat
  valueLen : Nat
  deriving DecidableEq, Repr

def PayloadInfo.total (pi : PayloadInfo) : Nat := pi.headerLen + pi.valueLen

inductive Prototype where
  | null
  | data (size : Nat)
  | list (count : Nat)
  deriving DecidableEq, Repr

def decodeUsize (bs : Bytes) : Except DecoderError Nat :=
  if 8 < bs.length then .error .rlpIsTooBig
  else if bs.head? = some 0 then .error .rlpInvalidIndirection
  else .ok (fromBigEndian bs)

/-- The header of an item whose length is itself `lenOfLen` bytes long. -/
def calculatePayloadInfo (bs : Bytes) (lenOfLen : Nat) : Except DecoderError PayloadInfo :=
  match bs.tail.head? with
  | none => .error .rlpIsTooShort
  | some first =>
      if first = 0 then .error .rlpDataLenWithZeroPrefix
      else if bs.length < 1 + lenOfLen then .error .rlpIsTooShort
      else
        match decodeUsize (bs.tail.take lenOfLen) with
        | .error e => .error e
        | .ok valueLen =>
            if valueLen ≤ 55 then .error .rlpInvalidIndirection else .ok ⟨1 + lenOfLen, valueLen⟩

def PayloadInfo.from : Bytes → Except DecoderError PayloadInfo
  | [] => .error .rlpIsTooShort
  | l :: tail =>
      if l ≤ 0x7f then .ok ⟨0, 1⟩
      else if l ≤ 0xb7 then .ok ⟨1, l.toNat - 0x80⟩
      else if l ≤ 0xbf then calculatePayloadInfo (l :: tail) (l.toNat - 0xb7)
      else if l ≤ 0xf7 then .ok ⟨1, l.toNat - 0xc0⟩
      else calculatePayloadInfo (l :: tail) (l.toNat - 0xf7)

/-- `BasicDecoder::payload_info`: the first item's header, if the item lies in the slice. -/
def payloadInfo (bs : Bytes) : Except DecoderError PayloadInfo :=
  match PayloadInfo.from bs with
  | .error e => .error e
  | .ok item => if item.total ≤ bs.length then .ok item else .error .rlpIsTooShort

def isList : Bytes → Bool
  | [] => false
  | l :: _ => 0xc0 ≤ l

def isData : Bytes → Bool
  | [] => false
  | l :: _ => l < 0xc0

/-- `Rlp::size`: a data item with a bad header counts as empty. -/
def size (bs : Bytes) : Nat :=
  if isData bs then
    match payloadInfo bs with
    | .ok item => item.valueLen
    | .error _ => 0
  else 0

/-- The items found one after the other from the start of a slice. -/
def itemsFrom : Nat → Bytes → List Bytes
  | 0, _ => []
  | fuel + 1, bs =>
      match payloadInfo bs with
      | .error _ => []
      | .ok item => bs.take item.total :: itemsFrom fuel (bs.drop item.total)

/-- What `Rlp::iter` yields on a list view. `Rlp::at` confines the item of index 0 to
the list's payload; for a later index it walks on from its offset cache, through the
rest of the view. -/
def items (bs : Bytes) : List Bytes :=
  match payloadInfo bs with
  | .error _ => []
  | .ok list =>
      match payloadInfo ((bs.drop list.headerLen).take list.valueLen) with
      | .error _ => []
      | .ok _ => itemsFrom bs.length (bs.drop list.headerLen)

/-- `Rlp::prototype`. -/
def prototype (bs : Bytes) : Prototype :=
  if isData bs then .data (size bs)
  else if isList bs then .list (items bs).length
  else .null

/-- The value of a string whose length is itself `lenOfLen` bytes long. -/
def decodeLongValue (lenOfLen : Nat) (tail : Bytes) : Except DecoderError Bytes :=
  if tail.length < lenOfLen then .error .rlpInconsistentLengthAndData
  else
    match decodeUsize (tail.take lenOfLen) with
    | .error e => .error e
    | .ok len =>
        if tail.length < lenOfLen + len then .error .rlpInconsistentLengthAndData
        else .ok ((tail.drop lenOfLen).take len)

/-- `BasicDecoder::decode_value`, the whole of `Decodable for Vec<u8>`. -/
def decodeValue : Bytes → Except DecoderError Bytes
  | [] => .error .rlpIsTooShort
  | l :: tail =>
      if l ≤ 0x7f then .ok [l]
      else if l ≤ 0xb7 then
        if tail.length < l.toNat - 0x80 then .error .rlpInconsistentLengthAndData
        else if l = 0x81 ∧ (tail.headD 0) < 0x80 then .error .rlpInvalidIndirection
        else .ok (tail.take (l.toNat - 0x80))
      else if l ≤ 0xbf then decodeLongValue (l.toNat - 0xb7) tail
      else .error .rlpExpectedToBeData

/-- `Rlp::at`, after the items of the list have been counted. -/
def itemAt (bs : Bytes) (index : Nat) : Except DecoderError Bytes :=
  match (items bs)[index]? with
  | some item => .ok item
  | none => .error .rlpIsTooShort

/-- `Rlp::val_at` for byte vectors. -/
def valAt (bs : Bytes) (index : Nat) : Except DecoderError Bytes :=
  match itemAt bs index with
  | .ok item => decodeValue item
  | .error e => .error e

end Rlp
