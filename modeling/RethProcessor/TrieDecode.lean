import RethProcessor.Calls
import RethProcessor.TriePruning

/-! Decoding of nodes, and what of a node its encoding carries: the children referenced
by bytes in full, the others as digests. -/
namespace RethProcessor
open Rlp Calls

/-- An error of the `rlp` crate, passed on by `?`. -/
def legacy {α : Type} : Except DecoderError α → Except Failure α
  | .ok a => .ok a
  | .error e => .error (.err (.legacyRlp e))

/-- `B256::from_slice`. -/
def B256.fromSlice (bs : Bytes) : Except Failure B256 :=
  if h : bs.length = 32 then .ok ⟨bs, h⟩ else .error .panic

/-- `node_list.try_into().unwrap()`. -/
def childArray (nodes : List (Option MptNode)) : Except Failure (Nibble → Option MptNode) :=
  if h : nodes.length = 16 then .ok fun i => nodes.get (i.cast h.symm) else .error .panic

/-- One of the 16 places of a branch. -/
def decodeSlot (decode : Bytes → Except Failure MptNode) (item : Bytes) :
    Except Failure (Option MptNode) :=
  match prototype item with
  | .null | .data 0 => .ok none
  | _ => some <$> decode item

/-- `Decodable::decode` on a view, with more fuel than the view has bytes. -/
def MptNode.decodeView : Nat → Bytes → Except Failure MptNode
  | 0, _ => .error .panic
  | fuel + 1, rlp =>
      match prototype rlp with
      | .null | .data 0 => .ok .null
      | .list 2 => do
          let path ← legacy (valAt rlp 0)
          match path with
          | [] => .error .panic
          | first :: _ =>
              if first &&& (2 : UInt8) <<< 4 = 0 then
                let item ← legacy (itemAt rlp 1)
                .extension path <$> decodeView fuel item
              else
                .leaf path <$> legacy (valAt rlp 1)
      | .list 17 => do
          let nodes ← ((Rlp.items rlp).take 16).mapM (decodeSlot (decodeView fuel))
          let value ← legacy (valAt rlp 16)
          if value.isEmpty then .branch <$> childArray nodes
          else .error (.err (.legacyRlp (.custom "branch node with value")))
      | .data 32 => do
          let bytes ← legacy (decodeValue rlp)
          .digest <$> B256.fromSlice bytes
      | _ => .error (.err (.legacyRlp .rlpIncorrectListLen))

def MptNode.decode (bytes : Bytes) : Except Failure MptNode :=
  MptNode.decodeView (bytes.length + 1) bytes

/-- Every path is written with the flag of its node's kind, and no branch has an empty child. -/
inductive WellEncoded : MptNode → Prop
  | null : WellEncoded .null
  | branch {children : Nibble → Option MptNode} : (∀ i, children i ≠ some .null) →
      (∀ i c, children i = some c → WellEncoded c) → WellEncoded (.branch children)
  | leaf (ns : List Nibble) (value : Bytes) : WellEncoded (.leaf (toEncodedPath ns true) value)
  | extension (ns : List Nibble) {child : MptNode} : WellEncoded child →
      WellEncoded (.extension (toEncodedPath ns false) child)
  | digest (d : B256) : WellEncoded (.digest d)

theorem Canonical.wellEncoded {n : MptNode} (h : Canonical n) : WellEncoded n := by
  induction h with
  | leaf ns value => exact .leaf ns value
  | branch _ _ _ hc ih =>
      refine .branch (?_) ih
      intro i hi
      cases hc i _ hi
  | extension _ _ _ ih => exact .extension _ ih
  | digest d => exact .digest d

section Trunc
variable (keccak : Bytes → B256)

/-- What the reference of a node keeps of it. -/
def stub (n truncated : MptNode) : MptNode :=
  match n.reference keccak with
  | .digest d => .digest d
  | .bytes _ => truncated

mutual
/-- The node with every subtree below it that is referenced by digest cut. -/
def MptNode.trunc : MptNode → MptNode
  | .null => .null
  | .branch children => .branch fun i => truncChild (children i)
  | .leaf path value => .leaf path value
  | .extension path child => .extension path (stub keccak child child.trunc)
  | .digest d => .digest d
termination_by structural n => n

def truncChild : Option MptNode → Option MptNode
  | none => none
  | some node => some (stub keccak node node.trunc)
termination_by structural n => n
end

end Trunc

variable {keccak : Bytes → B256}

@[simp] theorem legacy_ok {α : Type} (a : α) : legacy (.ok a : Except DecoderError α) = .ok a := rfl

theorem childArray_finRange (children : Nibble → Option MptNode) :
    childArray ((List.finRange 16).map children) = .ok children := by
  simp [childArray]

theorem itemAt_encodeList {bs : List Bytes} (h : ∀ b ∈ bs, IsItem b)
    (hlen : bs.flatten.length < usizeLimit) {i : Nat} {b : Bytes} (hb : bs[i]? = some b) :
    itemAt (encodeList bs) i = .ok b := by
  simp [itemAt, items_encodeList h hlen, hb]

theorem valAt_encodeList {bs : List Bytes} (h : ∀ b ∈ bs, IsItem b)
    (hlen : bs.flatten.length < usizeLimit) {i : Nat} {s : Bytes}
    (hb : bs[i]? = some (encodeString s)) (hs : s.length < usizeLimit) :
    valAt (encodeList bs) i = .ok s := by
  simp [valAt, itemAt_encodeList h hlen hb, decodeValue_encodeString s hs]

theorem decodeView_null (fuel : Nat) :
    MptNode.decodeView (fuel + 1) [EMPTY_STRING_CODE] = .ok .null := by
  have : prototype [EMPTY_STRING_CODE] = .data 0 := prototype_encodeString [] (by decide)
  simp [MptNode.decodeView, this]

theorem prototype_digest (d : B256) : prototype (MptNodeReference.digest d).encode = .data 32 := by
  rw [← encodeString_digest, prototype_encodeString _ (by rw [d.length_eq]; decide), d.length_eq]

theorem decodeView_digest (fuel : Nat) (d : B256) :
    MptNode.decodeView (fuel + 1) (MptNodeReference.digest d).encode = .ok (.digest d) := by
  have hv : decodeValue (MptNodeReference.digest d).encode = .ok d.bytes := by
    rw [← encodeString_digest, decodeValue_encodeString _ (by rw [d.length_eq]; decide)]
  simp only [MptNode.decodeView, prototype_digest, hv, legacy_ok]
  simp [bind, Except.bind, B256.fromSlice, d.length_eq]

/-- The flag of an encoded path decides between the two kinds of two-item lists. -/
theorem decodeView_pair {fuel : Nat} {path item : Bytes} (hitem : IsItem item)
    (hlen : [encodeString path, item].flatten.length < usizeLimit) (hpath : path ≠ []) :
    MptNode.decodeView (fuel + 1) (encodeList [encodeString path, item]) =
      if leafFlag path then .leaf path <$> legacy (decodeValue item)
      else .extension path <$> MptNode.decodeView fuel item := by
  have hp : path.length < usizeLimit := by
    simp only [List.flatten_cons, List.length_append] at hlen
    exact length_lt_of_encodeString (by omega)
  have hitems : ∀ b ∈ [encodeString path, item], IsItem b := by
    simp only [List.mem_cons, List.not_mem_nil, or_false]
    rintro b (rfl | rfl)
    · exact isItem_encodeString path hp
    · exact hitem
  have hproto := prototype_encodeList hitems hlen
  have h0 := valAt_encodeList hitems hlen (i := 0) rfl hp
  have h1 := itemAt_encodeList hitems hlen (i := 1) rfl
  have hv : valAt (encodeList [encodeString path, item]) 1 = decodeValue item := by
    simp [valAt, h1]
  cases path with
  | nil => exact absurd rfl hpath
  | cons first tail =>
      have hflag : (2 : UInt8) <<< 4 = 0x20 := by decide
      simp only [MptNode.decodeView, hproto, h0, h1, hv, legacy_ok, List.length_cons, List.length_nil,
        leafFlag, hflag]
      by_cases hf : first &&& 0x20 = 0
      · simp [hf, bind, Except.bind]
      · simp [hf, bind, Except.bind]

/-- A list of 17 items with an empty last one is a branch. -/
theorem decodeView_branch {fuel : Nat} {entries : List Bytes} {children : Nibble → Option MptNode}
    (hitems : ∀ b ∈ entries, IsItem b) (hcount : entries.length = 16)
    (hlen : (entries ++ [[EMPTY_STRING_CODE]]).flatten.length < usizeLimit)
    (hch : entries.mapM (decodeSlot (MptNode.decodeView fuel)) =
      .ok ((List.finRange 16).map children)) :
    MptNode.decodeView (fuel + 1) (encodeList (entries ++ [[EMPTY_STRING_CODE]])) =
      .ok (.branch children) := by
  have hall : ∀ b ∈ entries ++ [[EMPTY_STRING_CODE]], IsItem b := by
    simp only [List.mem_append, List.mem_singleton]
    rintro b (hb | rfl)
    · exact hitems b hb
    · exact isItem_empty
  have hproto := prototype_encodeList hall hlen
  have hvalue : valAt (encodeList (entries ++ [[EMPTY_STRING_CODE]])) 16 = .ok [] :=
    valAt_encodeList hall hlen (s := []) (by rw [← hcount, List.getElem?_concat_length]; rfl) (by decide)
  rw [List.length_append, hcount] at hproto
  have htake : (entries ++ [[EMPTY_STRING_CODE]]).take 16 = entries := by
    rw [← hcount, List.take_left]
  simp only [MptNode.decodeView, hproto, List.length_singleton, items_encodeList hall hlen, htake, hch,
    hvalue, legacy_ok]
  simp [bind, Except.bind, childArray_finRange]

/-- The item of a child is decoded to what the reference keeps of the child. -/
theorem decodeView_reference {c truncated : MptNode} {fuel : Nat}
    (hfuel : (c.reference keccak).encode.length < fuel) (hnull : c = .null → truncated = .null)
    (hlisted : (c.encode keccak).length < 32 → (c.encode keccak).length < fuel →
      MptNode.decodeView fuel (c.encode keccak) = .ok truncated) :
    MptNode.decodeView fuel (c.reference keccak).encode = .ok (stub keccak c truncated) := by
  obtain ⟨fuel, rfl⟩ : ∃ f, fuel = f + 1 := ⟨fuel - 1, by omega⟩
  cases hl : c.isListed with
  | false =>
      cases c with
      | null =>
          rw [hnull rfl]
          exact decodeView_null fuel
      | digest d => exact decodeView_digest fuel d
      | branch | leaf | extension => cases hl
  | true =>
      rw [reference_of_isListed hl] at hfuel
      rw [stub, reference_of_isListed hl]
      split at hfuel
      · next hlt =>
          rw [if_pos hlt]
          exact hlisted hlt hfuel
      · next hge =>
          rw [if_neg hge]
          exact decodeView_digest fuel _

theorem prototype_encode_list {n : MptNode} (hl : n.isListed)
    (hlen : (n.encode keccak).length < usizeLimit) :
    prototype (n.encode keccak) = .list (n.items keccak).length := by
  rw [encode_of_isListed hl]
  exact prototype_encodeList (isItem_items hlen) (flatten_items_lt hlen hl)

theorem decodeSlot_none (decode : Bytes → Except Failure MptNode) :
    decodeSlot decode [EMPTY_STRING_CODE] = .ok none := by
  have : prototype [EMPTY_STRING_CODE] = .data 0 := prototype_encodeString [] (by decide)
  simp [decodeSlot, this]

/-- A child that is not empty is not taken for a missing one. -/
theorem decodeSlot_reference {c n : MptNode} (hc : c ≠ .null)
    {decode : Bytes → Except Failure MptNode} (h : decode (c.reference keccak).encode = .ok n) :
    decodeSlot decode (c.reference keccak).encode = .ok (some n) := by
  have hproto : prototype (c.reference keccak).encode = .data 32 ∨
      ∃ k, prototype (c.reference keccak).encode = .list k := by
    cases hl : c.isListed with
    | false =>
        cases c with
        | null => exact absurd rfl hc
        | digest d => exact .inl (prototype_digest d)
        | branch | leaf | extension => cases hl
    | true =>
        rw [reference_of_isListed hl]
        split
        · next hlt =>
            exact .inr ⟨_, prototype_encode_list hl (Nat.lt_trans hlt (by decide))⟩
        · exact .inl (prototype_digest _)
  rcases hproto with hp | ⟨k, hp⟩
  · simp [decodeSlot, hp, h]
  · simp [decodeSlot, hp, h]

/-- Decoding the encoding of a node gives the node with its hashed children cut. -/
theorem WellEncoded.decodeView {n : MptNode} (hn : WellEncoded n) {fuel : Nat}
    (hlen : (n.encode keccak).length < usizeLimit) (hfuel : (n.encode keccak).length < fuel) :
    MptNode.decodeView fuel (n.encode keccak) = .ok (n.trunc keccak) := by
  induction hn generalizing fuel with
  | null =>
      obtain ⟨fuel, rfl⟩ : ∃ f, fuel = f + 1 := ⟨fuel - 1, by omega⟩
      exact decodeView_null fuel
  | digest d =>
      obtain ⟨fuel, rfl⟩ : ∃ f, fuel = f + 1 := ⟨fuel - 1, by omega⟩
      rw [MptNode.encode, encodeString_digest]
      exact decodeView_digest fuel d
  | leaf ns value =>
      obtain ⟨fuel, rfl⟩ : ∃ f, fuel = f + 1 := ⟨fuel - 1, by omega⟩
      have hflat := flatten_items_lt hlen rfl
      have hvalue : value.length < usizeLimit := by
        simp only [MptNode.items, List.flatten_cons, List.length_append] at hflat
        exact length_lt_of_encodeString (by omega)
      rw [encode_leaf, decodeView_pair (isItem_encodeString value hvalue) hflat
        (toEncodedPath_ne_nil ns true), leafFlag_toEncodedPath, decodeValue_encodeString value hvalue]
      rfl
  | @extension ns child _ ih =>
      obtain ⟨fuel, rfl⟩ : ∃ f, fuel = f + 1 := ⟨fuel - 1, by omega⟩
      have hflat := flatten_items_lt hlen rfl
      have hitem : (child.reference keccak).encode.length < fuel := by
        refine Nat.lt_of_lt_of_le (item_length_lt rfl ?_) (Nat.le_of_lt_succ hfuel)
        simp [MptNode.items]
      rw [encode_extension, decodeView_pair (isItem_reference child) hflat
        (toEncodedPath_ne_nil ns false), leafFlag_toEncodedPath,
        decodeView_reference hitem (fun h => by rw [h]; rfl)
          fun hlt hf => ih (Nat.lt_trans hlt (by decide)) hf]
      rfl
  | @branch children hnull _ ih =>
      obtain ⟨fuel, rfl⟩ : ∃ f, fuel = f + 1 := ⟨fuel - 1, by omega⟩
      have hflat := flatten_items_lt hlen rfl
      have hitems := isItem_items hlen
      rw [encode_branch]
      apply decodeView_branch (fun b hb => hitems b (List.mem_append_left _ hb)) (by simp) hflat
      rw [List.mapM_map]
      apply mapM_ok
      intro i _
      cases hc : children i with
      | none => simpa [hc, truncChild] using decodeSlot_none _
      | some c =>
          have hitem : (c.reference keccak).encode.length < fuel := by
            refine Nat.lt_of_lt_of_le (item_length_lt (n := .branch children) rfl ?_)
              (Nat.le_of_lt_succ hfuel)
            simp only [MptNode.items, List.mem_append, List.mem_map]
            exact .inl ⟨i, List.mem_finRange i, by simp [hc]⟩
          have hcn : c ≠ .null := by
            intro h
            exact hnull i (h ▸ hc)
          simp only [Function.comp_apply, hc, Option.elim_some, truncChild]
          exact decodeSlot_reference hcn (decodeView_reference hitem (fun h => absurd h hcn)
            fun hlt hf => ih i c hc (Nat.lt_trans hlt (by decide)) hf)

theorem pruning_stub {n truncated : MptNode} (h : Pruning keccak truncated n) :
    Pruning keccak (stub keccak n truncated) n := by
  unfold stub
  split
  · next d hd => exact .cut hd
  · exact h

/-- What decoding gives back is a pruning of the node. -/
theorem pruning_trunc (n : MptNode) : Pruning keccak (n.trunc keccak) n := by
  induction n with
  | null => exact .null
  | branch children ih =>
      apply pruning_branch_iff.mpr
      intro i
      cases hc : children i with
      | none => exact pruningChild_none
      | some c => exact pruningChild_some.mpr (pruning_stub (ih i c hc))
  | leaf path value => exact .leaf path value
  | extension path child ih => exact .extension path (pruning_stub ih)
  | digest d => exact .refl _

theorem encode_trunc (n : MptNode) : (n.trunc keccak).encode keccak = n.encode keccak := by
  cases n with
  | null | leaf | digest => rfl
  | extension path child =>
      have hr := (pruning_stub (pruning_trunc child : Pruning keccak _ child)).reference_eq
      rw [MptNode.trunc, encode_extension, encode_extension, hr]
  | branch children =>
      rw [MptNode.trunc, encode_branch, encode_branch]
      simp only [MptNode.items]
      congr 2
      apply List.map_congr_left
      intro i _
      cases hc : children i with
      | none => rfl
      | some c =>
          have hr := (pruning_stub (pruning_trunc c : Pruning keccak _ c)).reference_eq
          simp only [truncChild, Option.elim_some, hr]

theorem WellEncoded.decode {n : MptNode} (hn : WellEncoded n)
    (hlen : (n.encode keccak).length < usizeLimit) :
    MptNode.decode (n.toRlp keccak) = .ok (n.trunc keccak) :=
  hn.decodeView hlen (Nat.lt_succ_self _)

end RethProcessor
