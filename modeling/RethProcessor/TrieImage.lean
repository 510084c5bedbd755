import RethProcessor.TrieFlags

/-! What the decoder accepts beyond what the encoder writes. The reader of the `rlp` crate does not
ask for canonical headers, nor that a view is read to its end; the encoder inlines no long list. -/
namespace RethProcessor
open Rlp Calls

/-- One item, written canonically all through, with no list of 32 bytes or more inside it. -/
inductive Written : Bytes → Prop
  | string (s : Bytes) : s.length < usizeLimit → Written (encodeString s)
  | list (bs : List Bytes) : bs.flatten.length < usizeLimit → (∀ b ∈ bs, Written b) →
      (∀ b ∈ bs, isData b = false → b.length < 32) → Written (encodeList bs)

section Written
variable {keccak : Bytes → B256}

theorem Written.isItem {b : Bytes} (h : Written b) : IsItem b := by
  cases h with
  | string s hs => exact isItem_encodeString s hs
  | list bs hbs => exact isItem_encodeList bs hbs

/-- A list is no value. -/
theorem decodeValue_of_list {b : Bytes} (h : isData b = false) : ∃ e, decodeValue b = .error e := by
  cases b with
  | nil => exact ⟨_, rfl⟩
  | cons l tail =>
      obtain ⟨k, hk, rfl⟩ : ∃ k, k < 256 ∧ l = UInt8.ofNat k :=
        ⟨l.toNat, l.toNat_lt, UInt8.ofNat_toNat.symm⟩
      rw [isData_ofNat hk, decide_eq_false_iff_not] at h
      refine ⟨.rlpExpectedToBeData, ?_⟩
      rw [decodeValue_ofNat hk, if_neg (by omega), if_neg (by omega), if_neg (by omega)]

theorem isData_encodeList {bs : List Bytes} (h : bs.flatten.length < usizeLimit) : isData (encodeList bs) = false :=
  isData_header true h _

/-- A written item that has a value is the encoding of the value. -/
theorem Written.eq_encodeString {b s : Bytes} (h : Written b) (hs : decodeValue b = .ok s) : b = encodeString s := by
  cases h with
  | string t ht =>
      rw [decodeValue_encodeString t ht, Except.ok.injEq] at hs
      rw [hs]
  | list bs hbs =>
      obtain ⟨e, he⟩ := decodeValue_of_list (isData_encodeList hbs)
      cases he.symm.trans hs

/-- A written item that is blank is the empty string. -/
theorem Written.eq_empty {b : Bytes} (h : Written b) (hb : prototype b = .null ∨ prototype b = .data 0) :
    b = [EMPTY_STRING_CODE] := by
  cases h with
  | string s hs =>
      rw [prototype_encodeString s hs] at hb
      rcases hb with hb | hb
      · cases hb
      · rw [List.eq_nil_of_length_eq_zero (Prototype.data.inj hb)]
        rfl
  | list bs hbs hall =>
      rw [prototype_encodeList (fun b hb => (hall b hb).isItem) hbs] at hb
      rcases hb with hb | hb
      · cases hb
      · cases hb

/-- A node that is not written as a list, or as a short one, stands in its parent in full. -/
theorem encode_reference {c : MptNode} (h : c.isListed = true → (c.encode keccak).length < 32) :
    (c.reference keccak).encode = c.encode keccak := by
  cases hl : c.isListed with
  | true => rw [reference_of_isListed hl, if_pos (h hl), MptNodeReference.encode]
  | false =>
      cases c with
      | null => rfl
      | digest d => exact (encodeString_digest d).symm
      | branch | leaf | extension => cases hl

theorem isData_encode {n : MptNode} (hlen : (n.encode keccak).length < usizeLimit) :
    isData (n.encode keccak) = !n.isListed := by
  cases hl : n.isListed with
  | true =>
      have hflat := flatten_items_lt hlen hl
      rw [encode_of_isListed hl, isData_encodeList hflat]
      rfl
  | false =>
      cases n with
      | null => rfl
      | digest d => exact isData_encodeString d.bytes (by rw [d.length_eq]; decide)
      | branch | leaf | extension => cases hl

theorem childArray_inv {nodes : List (Option MptNode)} {children : Nibble → Option MptNode}
    (h : childArray nodes = .ok children) : nodes = (List.finRange 16).map children := by
  rw [childArray] at h
  split at h
  · next hlen =>
      cases h
      apply List.ext_getElem
      · rw [List.length_map, List.length_finRange, hlen]
      · intro i _ _
        simp
  · cases h

/-- An item that is the encoding of a child and no long list is what stands for the child in its parent. -/
theorem reference_of_item {item : Bytes} {c : MptNode} (hlen : item.length < usizeLimit)
    (hshort : isData item = false → item.length < 32) (h : c.encode keccak = item) :
    (c.reference keccak).encode = item := by
  subst h
  apply encode_reference
  intro hl
  apply hshort
  rw [isData_encode hlen, hl]
  rfl

/-- A string that is decoded is the encoding of the node. -/
theorem encode_of_decode_string {s : Bytes} {fuel : Nat} {n : MptNode} (hs : s.length < usizeLimit)
    (h : MptNode.decodeView fuel (encodeString s) = .ok n) : n.encode keccak = encodeString s := by
  cases fuel with
  | zero => cases h
  | succ fuel =>
      have hproto := prototype_encodeString s hs
      rcases decodeView_kinds (encodeString s) with hp | hp | hp | hp | hp
      · rw [decodeView_blank hp, Except.ok.injEq] at h
        exact h ▸ ((Written.string s hs).eq_empty hp).symm
      · have hlen : s.length = 32 := Prototype.data.inj (hproto.symm.trans hp)
        have hdigest : encodeString s = (MptNodeReference.digest ⟨s, hlen⟩).encode :=
          encodeString_digest ⟨s, hlen⟩
        rw [hdigest, decodeView_digest, Except.ok.injEq] at h
        rw [← h, MptNode.encode]
      · cases hproto.symm.trans hp
      · cases hproto.symm.trans hp
      · rw [hp] at h
        cases h

/-- A place of a branch is written from what it is decoded to. -/
theorem slot_of_decode {item : Bytes} {fuel : Nat} {o : Option MptNode} (hw : Written item)
    (hlen : item.length < usizeLimit) (hshort : isData item = false → item.length < 32)
    (ih : ∀ {fuel n}, MptNode.decodeView fuel item = .ok n → n.encode keccak = item)
    (h : decodeSlot (MptNode.decodeView fuel) item = .ok o) :
    item = o.elim [EMPTY_STRING_CODE] fun c => (c.reference keccak).encode := by
  rcases decodeSlot_cases (MptNode.decodeView fuel) item with ⟨hblank, hs⟩ | ⟨-, hs⟩
  · rw [hs] at h
    cases h
    exact hw.eq_empty hblank
  · rw [hs] at h
    obtain ⟨c, hc, rfl⟩ := map_ok_inv h
    exact (reference_of_item hlen hshort (ih hc)).symm

/-- So is a list of two items, from what it is decoded to. -/
theorem encode_of_decode_pair {b₀ b₁ : Bytes} {fuel : Nat} {n : MptNode} (h₀ : Written b₀) (h₁ : Written b₁)
    (hlen : [b₀, b₁].flatten.length < usizeLimit) (hshort : isData b₁ = false → b₁.length < 32)
    (ih : ∀ {c}, MptNode.decodeView fuel b₁ = .ok c → c.encode keccak = b₁)
    (h : MptNode.decodeView (fuel + 1) (encodeList [b₀, b₁]) = .ok n) : n.encode keccak = encodeList [b₀, b₁] := by
  have hitems : ∀ b ∈ [b₀, b₁], IsItem b := by
    intro b hb
    rw [List.mem_cons, List.mem_singleton] at hb
    rcases hb with rfl | rfl
    · exact h₀.isItem
    · exact h₁.isItem
  have hread := items_encodeList hitems hlen
  have hpath : valAt (encodeList [b₀, b₁]) 0 = decodeValue b₀ := by simp [valAt, itemAt, hread]
  have hvalue : valAt (encodeList [b₀, b₁]) 1 = decodeValue b₁ := by simp [valAt, itemAt, hread]
  have hitem : itemAt (encodeList [b₀, b₁]) 1 = .ok b₁ := by simp [itemAt, hread]
  rw [decodeView_list_two (prototype_encodeList hitems hlen), hpath, hvalue, hitem, legacy_ok] at h
  obtain ⟨path, hpath, h⟩ := bind_ok_inv h
  have hpath := h₀.eq_encodeString (legacy_ok_inv hpath)
  split at h
  · cases h
  · split at h
    · obtain ⟨value, hvalue, rfl⟩ := map_ok_inv h
      rw [encode_leaf, hpath, h₁.eq_encodeString (legacy_ok_inv hvalue)]
    · obtain ⟨child, hchild, rfl⟩ := map_ok_inv h
      have hlen₁ : b₁.length < usizeLimit :=
        Nat.lt_of_le_of_lt (List.sublist_flatten_of_mem (by simp)).length_le hlen
      rw [encode_extension, hpath, reference_of_item hlen₁ hshort (ih hchild)]

/-- So is a list of 17 items. -/
theorem encode_of_decode_places {bs : List Bytes} {fuel : Nat} {n : MptNode} (hall : ∀ b ∈ bs, Written b)
    (hcount : bs.length = 17) (hbs : bs.flatten.length < usizeLimit)
    (hshort : ∀ b ∈ bs, isData b = false → b.length < 32)
    (ih : ∀ b ∈ bs, ∀ {fuel n}, MptNode.decodeView fuel b = .ok n → n.encode keccak = b)
    (h : MptNode.decodeView (fuel + 1) (encodeList bs) = .ok n) : n.encode keccak = encodeList bs := by
  have hitems (b : Bytes) (hb : b ∈ bs) : IsItem b := (hall b hb).isItem
  have hread := items_encodeList hitems hbs
  rw [decodeView_list_branch (hcount ▸ prototype_encodeList hitems hbs), hread] at h
  obtain ⟨nodes, hnodes, h⟩ := bind_ok_inv h
  obtain ⟨value, hvalue, h⟩ := bind_ok_inv h
  split at h
  · next hempty =>
      obtain ⟨children, hchildren, rfl⟩ := map_ok_inv h
      have hplaces : bs.take 16 =
          nodes.map fun o => o.elim [EMPTY_STRING_CODE] fun c => (c.reference keccak).encode := by
        rw [← List.forall₂_eq_eq_eq, List.forall₂_map_right_iff]
        refine List.Forall₂.imp ?_ ((List.forall₂_and_left _ _).mpr ⟨fun _ hb => hb, mapM_forall₂ hnodes⟩)
        rintro b o ⟨hb, ho⟩
        have hb := List.mem_of_mem_take hb
        have hlen := Nat.lt_of_le_of_lt (List.sublist_flatten_of_mem hb).length_le hbs
        exact slot_of_decode (hall b hb) hlen (hshort b hb) (ih b hb) ho
      have hlast : bs.drop 16 = [[EMPTY_STRING_CODE]] := by
        obtain ⟨last, hlast⟩ : ∃ last, bs.drop 16 = [last] :=
          List.length_eq_one_iff.mp (by rw [List.length_drop, hcount])
        have hget : bs[16]? = some last := by
          rw [← List.head?_drop, hlast]
          rfl
        have hval : valAt (encodeList bs) 16 = decodeValue last := by simp [valAt, itemAt, hread, hget]
        rw [List.isEmpty_iff.mp hempty, hval] at hvalue
        rw [hlast, (hall last (List.mem_of_getElem? hget)).eq_encodeString (legacy_ok_inv hvalue)]
        rfl
      rw [childArray_inv hchildren, List.map_map] at hplaces
      rw [encode_branch, MptNode.items, ← List.take_append_drop 16 bs, hplaces, hlast]
      rfl
  · cases h

/-- What is written canonically is the encoding of what it is decoded to. -/
theorem Written.encode_of_decode {b : Bytes} (h : Written b) {fuel : Nat} {n : MptNode}
    (hn : MptNode.decodeView fuel b = .ok n) : n.encode keccak = b := by
  induction h generalizing fuel n with
  | string s hs => exact encode_of_decode_string hs hn
  | list bs hbs hall hshort ih =>
      have hproto := prototype_encodeList (fun b hb => (hall b hb).isItem) hbs
      cases fuel with
      | zero => cases hn
      | succ fuel =>
          rcases decodeView_kinds (encodeList bs) with hp | hp | hp | hp | hp
          · rw [hproto] at hp
            rcases hp with hp | hp
            · cases hp
            · cases hp
          · cases hproto.symm.trans hp
          · obtain ⟨b₀, b₁, rfl⟩ := List.length_eq_two.mp (Prototype.list.inj (hproto.symm.trans hp))
            exact encode_of_decode_pair (hall b₀ (by simp)) (hall b₁ (by simp)) hbs (hshort b₁ (by simp))
              (fun hc => ih b₁ (by simp) hc) hn
          · exact encode_of_decode_places hall (Prototype.list.inj (hproto.symm.trans hp)) hbs hshort ih hn
          · rw [hp] at hn
            cases hn

/-- What stands for a child that its own item is decoded to is written canonically, and no long list. -/
theorem written_reference {c : MptNode} {fuel : Nat}
    (ih : ∀ {fuel}, MptNode.decodeView fuel (c.encode keccak) = .ok c →
      (c.encode keccak).length < usizeLimit → Written (c.encode keccak))
    (h : MptNode.decodeView fuel (c.reference keccak).encode = .ok c) :
    Written (c.reference keccak).encode ∧
      (isData (c.reference keccak).encode = false → (c.reference keccak).encode.length < 32) := by
  have hshort : c.isListed = true → (c.encode keccak).length < 32 := by
    intro hl
    by_contra hge
    rw [reference_of_isListed hl, if_neg hge] at h
    cases fuel with
    | zero => cases h
    | succ fuel =>
        rw [decodeView_digest, Except.ok.injEq] at h
        rw [← h] at hl
        cases hl
  have hlen : (c.encode keccak).length < usizeLimit := by
    cases hl : c.isListed with
    | true => exact Nat.lt_trans (hshort hl) (by decide)
    | false =>
        cases c with
        | null => exact Nat.one_lt_two_pow (by decide)
        | digest d =>
            rw [MptNode.encode, encodeString_digest, MptNodeReference.encode_length]
            exact Nat.lt_trans (by decide : 1 + 32 < 64) (by decide)
        | branch | leaf | extension => cases hl
  rw [encode_reference hshort] at h ⊢
  refine ⟨ih h hlen, ?_⟩
  intro hdata
  rw [isData_encode hlen, Bool.not_eq_false'] at hdata
  exact hshort hdata

theorem written_string {s : Bytes} (h : s.length < usizeLimit) :
    Written (encodeString s) ∧ (isData (encodeString s) = false → (encodeString s).length < 32) := by
  refine ⟨.string s h, ?_⟩
  intro hdata
  cases (isData_encodeString s h).symm.trans hdata

theorem written_of_items {n : MptNode} (hl : n.isListed = true) (hlen : (n.encode keccak).length < usizeLimit)
    (h : ∀ b ∈ n.items keccak, Written b ∧ (isData b = false → b.length < 32)) : Written (n.encode keccak) := by
  rw [encode_of_isListed hl]
  exact .list _ (flatten_items_lt hlen hl) (fun b hb => (h b hb).1) fun b hb => (h b hb).2

/-- Each place of a branch that its encoding is decoded to is decoded to the child there. -/
theorem decodeSlot_of_encode {children : Nibble → Option MptNode} {fuel : Nat}
    (hlen : ((MptNode.branch children).encode keccak).length < usizeLimit)
    (h : MptNode.decodeView (fuel + 1) ((MptNode.branch children).encode keccak) = .ok (.branch children))
    (i : Nibble) : decodeSlot (MptNode.decodeView fuel)
      ((children i).elim [EMPTY_STRING_CODE] fun c => (c.reference keccak).encode) = .ok (children i) := by
  have hitems := isItem_items hlen
  have hflat := flatten_items_lt hlen rfl
  have hp := prototype_encodeList hitems hflat
  rw [show ((MptNode.branch children).items keccak).length = 17 by simp [MptNode.items]] at hp
  rw [encode_branch, decodeView_list_branch hp, items_encodeList hitems hflat] at h
  obtain ⟨nodes, hnodes, h⟩ := bind_ok_inv h
  obtain ⟨value, -, h⟩ := bind_ok_inv h
  split at h
  · obtain ⟨children', hchildren, heq⟩ := map_ok_inv h
    rw [MptNode.branch.inj heq] at hchildren
    have hall := mapM_forall₂ hnodes
    rw [childArray_inv hchildren, MptNode.items, List.take_left' (by simp), List.forall₂_map_left_iff,
      List.forall₂_map_right_iff, List.forall₂_same] at hall
    exact hall i (List.mem_finRange i)
  · cases h

/-- An encoding that is decoded to the node it is of is written canonically. -/
theorem written_encode {n : MptNode} {fuel : Nat} (h : MptNode.decodeView fuel (n.encode keccak) = .ok n)
    (hlen : (n.encode keccak).length < usizeLimit) : Written (n.encode keccak) := by
  induction n generalizing fuel with
  | null => exact .string [] (by decide)
  | digest d => exact .string d.bytes (by rw [d.length_eq]; decide)
  | leaf path value =>
      apply written_of_items rfl hlen
      intro b hb
      have hb' := Nat.lt_of_le_of_lt (List.sublist_flatten_of_mem hb).length_le (flatten_items_lt hlen rfl)
      rw [MptNode.items, List.mem_cons, List.mem_singleton] at hb
      rcases hb with rfl | rfl
      · exact written_string (length_lt_of_encodeString hb')
      · exact written_string (length_lt_of_encodeString hb')
  | extension path child ih =>
      cases fuel with
      | zero => cases h
      | succ fuel =>
          have hflat := flatten_items_lt hlen rfl
          obtain ⟨-, hwell, -⟩ := decodeView_ok h
          cases hwell with
          | extension hne hflag _ =>
              rw [encode_extension, decodeView_pair (isItem_reference child) hflat hne, hflag] at h
              obtain ⟨c, hc, heq⟩ := map_ok_inv h
              rw [(MptNode.extension.inj heq).2] at hc
              apply written_of_items rfl hlen
              intro b hb
              have hb' := Nat.lt_of_le_of_lt (List.sublist_flatten_of_mem hb).length_le hflat
              rw [MptNode.items, List.mem_cons, List.mem_singleton] at hb
              rcases hb with rfl | rfl
              · exact written_string (length_lt_of_encodeString hb')
              · exact written_reference ih hc
  | branch children ih =>
      cases fuel with
      | zero => cases h
      | succ fuel =>
          apply written_of_items rfl hlen
          intro b hb
          rw [MptNode.items, List.mem_append, List.mem_singleton, List.mem_map] at hb
          rcases hb with ⟨i, -, rfl⟩ | rfl
          · have hplace := decodeSlot_of_encode hlen h i
            cases hc : children i with
            | none => exact written_string (s := []) (by decide)
            | some c =>
                rw [hc, Option.elim_some] at hplace
                exact written_reference (ih i c hc) (decodeSlot_some hplace).2
          · exact written_string (s := []) (by decide)

/-- Of the byte strings that are decoded, exactly those that are written canonically all through
and inline no list of 32 bytes or more are what the node is written as. -/
theorem toRlp_decode_iff {bytes : Bytes} {n : MptNode} (hlen : bytes.length < usizeLimit)
    (h : MptNode.decode bytes = .ok n) : n.toRlp keccak = bytes ↔ Written bytes := by
  constructor
  · intro henc
    unfold MptNode.toRlp at henc
    subst henc
    exact written_encode h hlen
  · intro hw
    exact hw.encode_of_decode h

end Written

/-- An extension over a short leaf. -/
theorem written_extension_leaf : Written [0xc4, 0x00, 0xc2, 0x20, 0x05] := by
  have hwell : WellEncoded (.extension (toEncodedPath [] false) (.leaf (toEncodedPath [] true) [0x05])) :=
    .extension [] (.leaf [] [0x05])
  exact (@toRlp_decode_iff (fun _ => EMPTY_ROOT) _ _ (by decide) (hwell.decode (by decide))).mp rfl

/-- A digest cut off after its first byte is decoded to the empty node: the length of a string
with a bad header counts as 0. -/
theorem decode_cut_digest : ∃ n, MptNode.decode [0xa0, 0x01] = .ok n ∧ ∀ keccak, n.toRlp keccak ≠ [0xa0, 0x01] := by
  refine ⟨.null, rfl, ?_⟩
  intro keccak h
  cases h

end RethProcessor
