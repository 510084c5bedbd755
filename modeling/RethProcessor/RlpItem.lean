import RethProcessor.RlpView
import Mathlib.Tactic.Linarith

/-! Items: byte strings that a reader cuts off from whatever follows them. Encoded
strings and lists are items, and items are uniquely readable. -/
namespace Rlp

theorem ofNat_le_iff {k c : Nat} (hk : k < 256) (hc : c < 256) :
    UInt8.ofNat k ≤ UInt8.ofNat c ↔ k ≤ c := by
  rw [UInt8.le_iff_toNat_le, UInt8.toNat_ofNat', UInt8.toNat_ofNat', Nat.mod_eq_of_lt hk,
    Nat.mod_eq_of_lt hc]

theorem decodeUsize_bigEndian {n : Nat} (hn : 0 < n) (h : n < usizeLimit) :
    decodeUsize (bigEndian n) = .ok n := by
  have hlen : (bigEndian n).length ≤ 8 := bigEndian_length_le (by simpa [usizeLimit] using h)
  obtain ⟨b, rest, hb, hne⟩ := bigEndian_head hn
  have hread := fromBigEndian_bigEndian n
  simp only [decodeUsize]
  rw [if_neg (by omega), if_neg (by simp [hb, hne]), hread]

theorem bigEndian_length_bounds {n : Nat} (h56 : 56 ≤ n) (h : n < usizeLimit) :
    1 ≤ (bigEndian n).length ∧ (bigEndian n).length ≤ 8 := by
  obtain ⟨b, rest, hb, -⟩ := bigEndian_head (n := n) (by omega)
  exact ⟨by simp [hb], bigEndian_length_le (by simpa [usizeLimit] using h)⟩

theorem calculatePayloadInfo_header (code : UInt8) {n : Nat} (h56 : 56 ≤ n) (h : n < usizeLimit)
    (rest : Bytes) :
    calculatePayloadInfo (code :: (bigEndian n ++ rest)) (bigEndian n).length =
      .ok ⟨1 + (bigEndian n).length, n⟩ := by
  obtain ⟨b, tail, hb, hne⟩ := bigEndian_head (n := n) (by omega)
  have hhead : (bigEndian n ++ rest).head? = some b := by simp [hb]
  simp only [calculatePayloadInfo, List.tail_cons, hhead]
  rw [if_neg hne, if_neg (by simp; omega), List.take_left, decodeUsize_bigEndian (by omega) h]
  exact if_neg (by omega)

/-- The first byte, as a number, selects the form of the header. -/
theorem from_ofNat {k : Nat} (hk : k < 256) (tail : Bytes) :
    PayloadInfo.from (UInt8.ofNat k :: tail) =
      if k ≤ 0x7f then .ok ⟨0, 1⟩
      else if k ≤ 0xb7 then .ok ⟨1, k - 0x80⟩
      else if k ≤ 0xbf then calculatePayloadInfo (UInt8.ofNat k :: tail) (k - 0xb7)
      else if k ≤ 0xf7 then .ok ⟨1, k - 0xc0⟩
      else calculatePayloadInfo (UInt8.ofNat k :: tail) (k - 0xf7) := by
  have hle (c : Nat) (hc : c < 256) : UInt8.ofNat k ≤ UInt8.ofNat c ↔ k ≤ c := ofNat_le_iff hk hc
  have hnat : (UInt8.ofNat k).toNat = k := by rw [UInt8.toNat_ofNat', Nat.mod_eq_of_lt hk]
  have h7f : UInt8.ofNat k ≤ 0x7f ↔ k ≤ 0x7f := hle 0x7f (by decide)
  have hb7 : UInt8.ofNat k ≤ 0xb7 ↔ k ≤ 0xb7 := hle 0xb7 (by decide)
  have hbf : UInt8.ofNat k ≤ 0xbf ↔ k ≤ 0xbf := hle 0xbf (by decide)
  have hf7 : UInt8.ofNat k ≤ 0xf7 ↔ k ≤ 0xf7 := hle 0xf7 (by decide)
  simp only [PayloadInfo.from, hnat, h7f, hb7, hbf, hf7]

/-- A written header is read back with its own length and the payload's length. -/
theorem from_header (list : Bool) {n : Nat} (h : n < usizeLimit) (rest : Bytes) :
    PayloadInfo.from (header list n ++ rest) = .ok ⟨(header list n).length, n⟩ := by
  by_cases h56 : n < 56
  · rw [header_length]
    simp only [lengthOfLength, header, h56, ↓reduceIte, List.cons_append, List.nil_append]
    cases list
    · rw [from_ofNat (by simp; omega), if_neg (by simp; omega), if_pos (by simp; omega)]
      simp
    · rw [from_ofNat (by simp; omega), if_neg (by simp; omega), if_neg (by simp; omega),
        if_neg (by simp; omega), if_pos (by simp; omega)]
      simp
  · obtain ⟨h1, h8⟩ := bigEndian_length_bounds (by omega) h
    have hread (code : UInt8) := calculatePayloadInfo_header code (by omega) h rest
    rw [header_length]
    simp only [lengthOfLength, header, h56, ↓reduceIte, List.cons_append]
    cases list
    · have hk : 0xb7 + (bigEndian n).length < 256 := by omega
      rw [if_neg Bool.false_ne_true, from_ofNat hk, if_neg (by omega), if_neg (by omega),
        if_pos (by omega), Nat.add_sub_cancel_left, hread]
    · have hk : 0xf7 + (bigEndian n).length < 256 := by omega
      rw [if_pos rfl, from_ofNat hk, if_neg (by omega), if_neg (by omega), if_neg (by omega),
        if_neg (by omega), Nat.add_sub_cancel_left, hread]

/-- A byte string whose first item, wherever it is followed by something, is the whole of it. -/
def IsItem (bs : Bytes) : Prop :=
  ∃ pi : PayloadInfo, pi.total = bs.length ∧ ∀ rest, payloadInfo (bs ++ rest) = .ok pi

theorem payloadInfo_header (list : Bool) (payload : Bytes) (h : payload.length < usizeLimit)
    (rest : Bytes) :
    payloadInfo (header list payload.length ++ payload ++ rest) =
      .ok ⟨(header list payload.length).length, payload.length⟩ := by
  rw [payloadInfo, List.append_assoc, from_header list h]
  exact if_pos (by simp [PayloadInfo.total])

theorem isItem_header (list : Bool) (payload : Bytes) (h : payload.length < usizeLimit) :
    IsItem (header list payload.length ++ payload) :=
  ⟨_, by simp [PayloadInfo.total], payloadInfo_header list payload h⟩

theorem isItem_bare {s : Bytes} (h : bare s = true) : IsItem s := by
  obtain ⟨b, rfl, hb⟩ := bare_iff.mp h
  refine ⟨⟨0, 1⟩, rfl, ?_⟩
  intro rest
  have hle : b ≤ 0x7f := by
    rw [UInt8.lt_iff_toNat_lt] at hb
    rw [UInt8.le_iff_toNat_le]
    exact Nat.le_of_lt_succ hb
  simp [payloadInfo, PayloadInfo.from, hle, PayloadInfo.total]

theorem isItem_encodeString (s : Bytes) (h : s.length < usizeLimit) : IsItem (encodeString s) := by
  cases hb : bare s with
  | true => simpa [encodeString_of_bare hb] using isItem_bare hb
  | false => simpa [encodeString_of_not_bare hb] using isItem_header false s h

theorem IsItem.ne_nil {bs : Bytes} (h : IsItem bs) : bs ≠ [] := by
  rintro rfl
  obtain ⟨pi, -, hread⟩ := h
  have := hread []
  simp [payloadInfo, PayloadInfo.from] at this

/-- Two items at the start of the same bytes are the same item. -/
theorem IsItem.append_inj {a b r s : Bytes} (ha : IsItem a) (hb : IsItem b)
    (h : a ++ r = b ++ s) : a = b ∧ r = s := by
  obtain ⟨pa, hla, hra⟩ := ha
  obtain ⟨pb, hlb, hrb⟩ := hb
  have hpi : pa = pb := by
    have := (hra r).symm.trans ((congrArg payloadInfo h).trans (hrb s))
    exact Except.ok.inj this
  exact List.append_inj h (by rw [← hla, ← hlb, hpi])

theorem flatten_items_inj {as bs : List Bytes} (ha : ∀ a ∈ as, IsItem a) (hb : ∀ b ∈ bs, IsItem b)
    (h : as.flatten = bs.flatten) : as = bs := by
  induction as generalizing bs with
  | nil =>
      cases bs with
      | nil => rfl
      | cons b bs =>
          have hne := (hb b (by simp)).ne_nil
          simp only [List.flatten_nil, List.flatten_cons] at h
          exact absurd (List.append_eq_nil_iff.mp h.symm).1 hne
  | cons a as ih =>
      cases bs with
      | nil =>
          have hne := (ha a (by simp)).ne_nil
          simp only [List.flatten_nil, List.flatten_cons] at h
          exact absurd (List.append_eq_nil_iff.mp h).1 hne
      | cons b bs =>
          obtain ⟨rfl, hrest⟩ := (ha a (by simp)).append_inj (hb b (by simp)) h
          rw [ih (fun x hx => ha x (List.mem_cons_of_mem _ hx))
            (fun x hx => hb x (List.mem_cons_of_mem _ hx)) hrest]

/-- The header of a list or a string, and with it the payload, is determined by the bytes. -/
theorem header_append_inj {la lb : Bool} {p q : Bytes} (hp : p.length < usizeLimit)
    (hq : q.length < usizeLimit) (h : header la p.length ++ p = header lb q.length ++ q) : p = q := by
  have ha := payloadInfo_header la p hp []
  have hb := payloadInfo_header lb q hq []
  rw [h, hb] at ha
  have hlen := congrArg PayloadInfo.headerLen (Except.ok.inj ha)
  exact (List.append_inj h hlen.symm).2

theorem isItem_encodeList (bs : List Bytes) (h : bs.flatten.length < usizeLimit) :
    IsItem (encodeList bs) := isItem_header true bs.flatten h

/-- The items of a list are determined by its bytes. -/
theorem encodeList_inj {as bs : List Bytes} (ha : ∀ a ∈ as, IsItem a) (hb : ∀ b ∈ bs, IsItem b)
    (hla : as.flatten.length < usizeLimit) (hlb : bs.flatten.length < usizeLimit)
    (h : encodeList as = encodeList bs) : as = bs :=
  flatten_items_inj ha hb (header_append_inj hla hlb h)

theorem itemsFrom_flatten {bs : List Bytes} (h : ∀ b ∈ bs, IsItem b) {fuel : Nat}
    (hf : bs.length < fuel) : itemsFrom fuel bs.flatten = bs := by
  induction bs generalizing fuel with
  | nil =>
      obtain ⟨fuel, rfl⟩ := Nat.exists_eq_add_of_lt hf
      simp [itemsFrom, payloadInfo, PayloadInfo.from]
  | cons b bs ih =>
      cases fuel with
      | zero => simp at hf
      | succ fuel =>
          obtain ⟨pi, hlen, hread⟩ := h b (by simp)
          simp only [itemsFrom, List.flatten_cons, hread, hlen, List.take_left, List.drop_left]
          rw [ih (fun x hx => h x (List.mem_cons_of_mem _ hx)) (by simpa using hf)]

theorem length_le_flatten {bs : List Bytes} (h : ∀ b ∈ bs, IsItem b) :
    bs.length ≤ bs.flatten.length := by
  induction bs with
  | nil => simp
  | cons b bs ih =>
      have hb := List.length_pos_of_ne_nil (h b (by simp)).ne_nil
      have := ih (fun x hx => h x (List.mem_cons_of_mem _ hx))
      simp only [List.flatten_cons, List.length_append, List.length_cons]
      omega

/-- A list view holds exactly the items that were written into it. -/
theorem items_encodeList {bs : List Bytes} (h : ∀ b ∈ bs, IsItem b)
    (hlen : bs.flatten.length < usizeLimit) :
    items (encodeList bs) = bs := by
  unfold encodeList
  have hhead := payloadInfo_header true bs.flatten hlen []
  rw [List.append_nil] at hhead
  have hle := length_le_flatten h
  simp only [items, hhead, List.drop_left, List.take_length]
  cases bs with
  | nil => simp [payloadInfo, PayloadInfo.from]
  | cons b bs =>
      obtain ⟨pi, -, hread⟩ := h b (by simp)
      rw [List.flatten_cons, hread, ← List.flatten_cons]
      have hpos : 0 < (header true (b :: bs).flatten.length).length := by
        rw [header_length, lengthOfLength]
        split <;> omega
      exact itemsFrom_flatten h (by rw [List.length_append]; omega)

theorem isData_ofNat {k : Nat} (hk : k < 256) (tail : Bytes) :
    isData (UInt8.ofNat k :: tail) = decide (k < 0xc0) := by
  have : UInt8.ofNat k < 0xc0 ↔ k < 0xc0 := by
    rw [UInt8.lt_iff_toNat_lt, UInt8.toNat_ofNat', Nat.mod_eq_of_lt hk]
    rfl
  simp [isData, this]

theorem isList_eq_not_isData {bs : Bytes} (h : bs ≠ []) : isList bs = !isData bs := by
  cases bs with
  | nil => exact absurd rfl h
  | cons l tail =>
      by_cases hl : l < 0xc0
      · simp [isList, isData, hl, UInt8.not_le.mpr hl]
      · simp [isList, isData, hl, UInt8.not_lt.mp hl]

/-- The first byte of a header tells a list from a string. -/
theorem isData_header (list : Bool) {n : Nat} (h : n < usizeLimit) (rest : Bytes) :
    isData (header list n ++ rest) = !list := by
  by_cases h56 : n < 56
  · simp only [header, h56, ↓reduceIte, List.cons_append]
    cases list
    · rw [isData_ofNat (by simp; omega)]
      simp
      omega
    · rw [isData_ofNat (by simp; omega)]
      simp
  · obtain ⟨h1, h8⟩ := bigEndian_length_bounds (by omega) h
    simp only [header, h56, ↓reduceIte, List.cons_append]
    cases list
    · rw [if_neg Bool.false_ne_true, isData_ofNat (by omega)]
      simp
      omega
    · rw [if_pos rfl, isData_ofNat (by omega)]
      simp
      omega

theorem isData_bare {s : Bytes} (h : bare s = true) : isData s = true := by
  obtain ⟨b, rfl, hb⟩ := bare_iff.mp h
  rw [UInt8.lt_iff_toNat_lt] at hb
  have hlt : b < 0xc0 := UInt8.lt_iff_toNat_lt.mpr (Nat.lt_trans hb (by decide))
  simp [isData, hlt]

theorem isData_encodeString (s : Bytes) (h : s.length < usizeLimit) :
    isData (encodeString s) = true := by
  cases hb : bare s with
  | true => rw [encodeString_of_bare hb, isData_bare hb]
  | false => rw [encodeString_of_not_bare hb, isData_header false h, Bool.not_false]

theorem prototype_encodeString (s : Bytes) (h : s.length < usizeLimit) :
    prototype (encodeString s) = .data s.length := by
  have hd := isData_encodeString s h
  have hvalue : ∃ hl, payloadInfo (encodeString s) = .ok ⟨hl, s.length⟩ := by
    cases hb : bare s with
    | true =>
        obtain ⟨pi, hlen, hread⟩ := isItem_bare hb
        obtain ⟨b, rfl, hlt⟩ := bare_iff.mp hb
        refine ⟨0, ?_⟩
        have hle : b ≤ 0x7f := UInt8.le_iff_toNat_le.mpr
          (Nat.le_of_lt_succ (UInt8.lt_iff_toNat_lt.mp hlt))
        simp [encodeString, hb, payloadInfo, PayloadInfo.from, hle, PayloadInfo.total]
    | false =>
        have := payloadInfo_header false s h []
        rw [List.append_nil, ← encodeString_of_not_bare hb] at this
        exact ⟨_, this⟩
  obtain ⟨hl, hpi⟩ := hvalue
  simp [prototype, size, hd, hpi]

theorem prototype_encodeList {bs : List Bytes} (h : ∀ b ∈ bs, IsItem b)
    (hlen : bs.flatten.length < usizeLimit) :
    prototype (encodeList bs) = .list bs.length := by
  have hitems := items_encodeList h hlen
  unfold encodeList at hitems ⊢
  have hd := isData_header true hlen bs.flatten
  have hne : header true bs.flatten.length ++ bs.flatten ≠ [] := (isItem_header true _ hlen).ne_nil
  simp only [prototype, isList_eq_not_isData hne, hd, hitems]
  rfl

/-- The first byte selects the form of a string. -/
theorem decodeValue_ofNat {k : Nat} (hk : k < 256) (tail : Bytes) :
    decodeValue (UInt8.ofNat k :: tail) =
      if k ≤ 0x7f then .ok [UInt8.ofNat k]
      else if k ≤ 0xb7 then
        if tail.length < k - 0x80 then .error .rlpInconsistentLengthAndData
        else if k = 0x81 ∧ tail.headD 0 < 0x80 then .error .rlpInvalidIndirection
        else .ok (tail.take (k - 0x80))
      else if k ≤ 0xbf then decodeLongValue (k - 0xb7) tail
      else .error .rlpExpectedToBeData := by
  have hle (c : Nat) (hc : c < 256) : UInt8.ofNat k ≤ UInt8.ofNat c ↔ k ≤ c := ofNat_le_iff hk hc
  have hnat : (UInt8.ofNat k).toNat = k := by rw [UInt8.toNat_ofNat', Nat.mod_eq_of_lt hk]
  have heq : UInt8.ofNat k = 0x81 ↔ k = 0x81 := by
    rw [← UInt8.toNat_inj, hnat]
    rfl
  have h7f : UInt8.ofNat k ≤ 0x7f ↔ k ≤ 0x7f := hle 0x7f (by decide)
  have hb7 : UInt8.ofNat k ≤ 0xb7 ↔ k ≤ 0xb7 := hle 0xb7 (by decide)
  have hbf : UInt8.ofNat k ≤ 0xbf ↔ k ≤ 0xbf := hle 0xbf (by decide)
  simp only [decodeValue, hnat, heq, h7f, hb7, hbf]

theorem decodeValue_encodeString (s : Bytes) (h : s.length < usizeLimit) :
    decodeValue (encodeString s) = .ok s := by
  cases hb : bare s with
  | true =>
      obtain ⟨b, rfl, hlt⟩ := bare_iff.mp hb
      have hle : b ≤ 0x7f := UInt8.le_iff_toNat_le.mpr
        (Nat.le_of_lt_succ (UInt8.lt_iff_toNat_lt.mp hlt))
      simp [encodeString, hb, decodeValue, hle]
  | false =>
      rw [encodeString_of_not_bare hb]
      by_cases h56 : s.length < 56
      · have hne : ¬ (0x80 + s.length = 0x81 ∧ s.headD 0 < 0x80) := by
          rintro ⟨hl, hs⟩
          obtain ⟨b, rfl⟩ := List.length_eq_one_iff.mp (by omega : s.length = 1)
          simp [bare] at hb
          exact absurd hs (UInt8.not_lt.mpr hb)
        simp only [header, h56, ↓reduceIte, List.cons_append, List.nil_append]
        rw [if_neg Bool.false_ne_true, decodeValue_ofNat (by omega), if_neg (by omega),
          if_pos (by omega), Nat.add_sub_cancel_left, if_neg (Nat.lt_irrefl _), if_neg hne,
          List.take_length]
      · obtain ⟨h1, h8⟩ := bigEndian_length_bounds (by omega) h
        simp only [header, h56, ↓reduceIte, List.cons_append]
        rw [if_neg Bool.false_ne_true, decodeValue_ofNat (by omega), if_neg (by omega),
          if_neg (by omega), if_pos (by omega), Nat.add_sub_cancel_left, decodeLongValue,
          if_neg (by rw [List.length_append]; omega), List.take_left,
          decodeUsize_bigEndian (by omega) h]
        simp

theorem payloadInfo_le {bs : Bytes} {pi : PayloadInfo} (h : payloadInfo bs = .ok pi) :
    PayloadInfo.from bs = .ok pi ∧ pi.total ≤ bs.length := by
  unfold payloadInfo at h
  split at h
  · cases h
  · next item hitem =>
      split at h
      · next hle =>
          cases h
          exact ⟨hitem, hle⟩
      · cases h

/-- A length that is written out is longer than the first byte of an item could tell. -/
theorem calculatePayloadInfo_ok {bs : Bytes} {lenOfLen : Nat} {pi : PayloadInfo}
    (h : calculatePayloadInfo bs lenOfLen = .ok pi) : pi.headerLen = 1 + lenOfLen ∧ 55 < pi.valueLen := by
  unfold calculatePayloadInfo at h
  split at h
  · cases h
  · split at h
    · cases h
    · split at h
      · cases h
      · split at h
        · cases h
        · next valueLen _ =>
            split at h
            · cases h
            · next hlong =>
                cases h
                exact ⟨rfl, Nat.lt_of_not_le hlong⟩

theorem headerLen_pos {bs : Bytes} {pi : PayloadInfo} (hd : isData bs = false)
    (h : PayloadInfo.from bs = .ok pi) : 0 < pi.headerLen := by
  cases bs with
  | nil => cases h
  | cons l tail =>
      have hl : ¬ l < 0xc0 := of_decide_eq_false hd
      have hnot : ¬ l ≤ 0x7f := fun hle => hl (UInt8.lt_of_le_of_lt hle (by decide))
      rw [PayloadInfo.from, if_neg hnot] at h
      split at h
      · cases h
        exact Nat.one_pos
      · split at h
        · rw [(calculatePayloadInfo_ok h).1]
          omega
        · split at h
          · cases h
            exact Nat.one_pos
          · rw [(calculatePayloadInfo_ok h).1]
            omega

theorem itemsFrom_length_le {fuel : Nat} {bs item : Bytes} (h : item ∈ itemsFrom fuel bs) :
    item.length ≤ bs.length := by
  induction fuel generalizing bs with
  | zero => cases h
  | succ fuel ih =>
      rw [itemsFrom] at h
      split at h
      · cases h
      · rcases List.mem_cons.mp h with rfl | h
        · exact List.length_take_le' _ _
        · have := ih h
          rw [List.length_drop] at this
          omega

/-- The items of a list view are shorter than the view. -/
theorem items_length_lt {bs item : Bytes} (hd : isData bs = false) (h : item ∈ items bs) :
    item.length < bs.length := by
  unfold items at h
  split at h
  · cases h
  · next list hlist =>
      obtain ⟨hfrom, hle⟩ := payloadInfo_le hlist
      have hpos := headerLen_pos hd hfrom
      split at h
      · cases h
      · have := itemsFrom_length_le h
        rw [List.length_drop] at this
        unfold PayloadInfo.total at hle
        omega

theorem mem_items_of_itemAt {bs item : Bytes} {i : Nat} (h : itemAt bs i = .ok item) :
    (items bs)[i]? = some item := by
  unfold itemAt at h
  split at h
  · next found hfound => rw [hfound, Except.ok.inj h]
  · cases h

theorem isData_of_prototype_list {bs : Bytes} {n : Nat} (h : prototype bs = .list n) :
    isData bs = false ∧ (items bs).length = n := by
  unfold prototype at h
  split at h
  · cases h
  · next hd =>
      split at h
      · exact ⟨Bool.eq_false_iff.mpr hd, Prototype.list.inj h⟩
      · cases h

/-- A view of 32 bytes of data holds 32 bytes. -/
theorem decodeValue_of_prototype {bs : Bytes} (h : prototype bs = .data 32) :
    ∃ value, decodeValue bs = .ok value ∧ value.length = 32 := by
  unfold prototype at h
  split at h
  · next hd =>
      have hsize := Prototype.data.inj h
      rw [size, if_pos hd] at hsize
      split at hsize
      · next item hitem =>
          obtain ⟨hfrom, hle⟩ := payloadInfo_le hitem
          cases bs with
          | nil => cases hfrom
          | cons l tail =>
              obtain ⟨k, hk, rfl⟩ : ∃ k, k < 256 ∧ l = UInt8.ofNat k :=
                ⟨l.toNat, l.toNat_lt, UInt8.ofNat_toNat.symm⟩
              rw [from_ofNat hk] at hfrom
              rw [isData_ofNat hk] at hd
              have hdata := of_decide_eq_true hd
              split at hfrom
              · cases hfrom
                cases hsize
              · split at hfrom
                · cases hfrom
                  simp only [PayloadInfo.total, List.length_cons] at hle hsize
                  refine ⟨tail.take (k - 0x80), ?_, ?_⟩
                  · rw [decodeValue_ofNat hk, if_neg (by omega), if_pos (by omega), if_neg (by omega),
                      if_neg (by omega)]
                  · rw [List.length_take]
                    omega
                · split at hfrom
                  · have := (calculatePayloadInfo_ok hfrom).2
                    omega
                  · omega
      · cases hsize
  · split at h
    · cases h
    · cases h

end Rlp
