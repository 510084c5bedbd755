import RethProcessor.BlockHashes

/-! The walk of `witness_db` over adjacent headers, against chains over the integers. Its arithmetic is
on numbers that the prover chooses; it wraps at the two ends of their range. -/
namespace RethProcessor
open Calls

/-- A header is linked to its parent, with their numbers taken as integers. -/
def Linked (child parent : SealedHeader) : Prop :=
  parent.header.number.toNat + 1 = child.header.number.toNat ∧ parent.hash = child.header.parentHash

def checkedPred (n : UInt64) : Except ClientFailure UInt64 := if n = 0 then .error .panic else .ok (n - 1)

def checkedSucc (n : UInt64) : Except ClientFailure UInt64 := if n = -1 then .error .panic else .ok (n + 1)

/-- The walk of a build with overflow checks, where arithmetic that would wrap panics. -/
def checkHeadersChecked (blockHashes : HashMap UInt64 B256) :
    List SealedHeader → Except ClientFailure (HashMap UInt64 B256)
  | child :: parent :: rest => do
      let pred ← checkedPred child.header.number
      if parent.header.number ≠ pred then
        let succ ← checkedSucc parent.header.number
        .error (.err (.invalidHeaderBlockNumber succ child.header.number))
      else if parent.hash ≠ child.header.parentHash then
        .error (.err (.invalidHeaderParentHash parent.hash child.header.parentHash))
      else checkHeadersChecked (blockHashes.insert parent.header.number child.header.parentHash) (parent :: rest)
  | _ => .ok blockHashes

/-- Once the state checks pass, `witness_db` accepts the chains of headers and no other list, its
arithmetic never overflows, and its block hashes are those of the headers behind the first. -/
structure HeadersChecked {Body : Type} (keccak : Bytes → B256) (codec : AccountCodec)
    (input : ClientExecutorInput Body) (storageTries : IteratedMap B256 MptNode)
    (sealedHeaders : List SealedHeader) : Prop where
  accepts : (∃ db, witnessDb keccak codec input storageTries sealedHeaders = .ok db) ↔ sealedHeaders.IsChain Linked
  refuses : ∀ f, witnessDb keccak codec input storageTries sealedHeaders = .error f →
    (∃ expected found, f = .err (.invalidHeaderBlockNumber expected found)) ∨
      ∃ expected found, f = .err (.invalidHeaderParentHash expected found)
  noOverflow : checkHeadersChecked ∅ sealedHeaders ≠ .error .panic
  answers : ∀ db, witnessDb keccak codec input storageTries sealedHeaders = .ok db → ∀ number hash,
    db.blockHashes.lookup number = some hash ↔
      ∃ sealed ∈ sealedHeaders.tail, sealed.header.number = number ∧ sealed.hash = hash

/-- No pair below a chain, which the walk therefore comes to, has a child at zero or a parent at the maximum. -/
def AwayFromEnds (sealedHeaders : List SealedHeader) : Prop :=
  ∀ before child parent after, sealedHeaders = before ++ child :: parent :: after →
    (before ++ [child]).IsChain Linked → child.header.number ≠ 0 ∧ parent.header.number ≠ -1

section Walk
variable {child parent : SealedHeader} {rest : List SealedHeader}

/-- Away from zero the code's comparison is the integers'. -/
theorem linked_iff (hzero : child.header.number ≠ 0) : Linked child parent ↔
    parent.header.number = child.header.number - 1 ∧ parent.hash = child.header.parentHash := by
  have hpos : child.header.number.toNat ≠ 0 := fun h => hzero (UInt64.toNat_inj.mp h)
  rw [Linked, ← UInt64.toNat_inj, toNat_pred hpos]
  refine and_congr_left fun _ => ?_
  omega

theorem awayFromEnds_cons : AwayFromEnds (child :: parent :: rest) ↔
    (child.header.number ≠ 0 ∧ parent.header.number ≠ -1) ∧
      (Linked child parent → AwayFromEnds (parent :: rest)) := by
  constructor
  · intro h
    refine ⟨h [] child parent rest rfl (List.isChain_singleton _), ?_⟩
    intro hlink before child' parent' after heq hchain
    refine h (child :: before) child' parent' after (congrArg (List.cons child) heq) ?_
    cases before with
    | nil =>
        obtain ⟨rfl, -⟩ := List.cons.inj heq
        exact List.isChain_pair.mpr hlink
    | cons first before =>
        obtain ⟨rfl, -⟩ := List.cons.inj heq
        exact List.isChain_cons_cons.mpr ⟨hlink, hchain⟩
  · rintro ⟨hends, hrest⟩ before child' parent' after heq hchain
    cases before with
    | nil =>
        obtain ⟨rfl, htail⟩ := List.cons.inj heq
        obtain ⟨rfl, -⟩ := List.cons.inj htail
        exact hends
    | cons first before =>
        obtain ⟨rfl, htail⟩ := List.cons.inj heq
        have hlink : Linked child parent ∧ (before ++ [child']).IsChain Linked := by
          cases before with
          | nil =>
              obtain ⟨rfl, -⟩ := List.cons.inj htail
              exact ⟨List.isChain_pair.mp hchain, List.isChain_singleton _⟩
          | cons second before =>
              obtain ⟨rfl, -⟩ := List.cons.inj htail
              exact List.isChain_cons_cons.mp hchain
        exact hrest hlink.1 before child' parent' after htail hlink.2

theorem awayFromEnds_of_short {sealedHeaders : List SealedHeader} (h : sealedHeaders.length ≤ 1) :
    AwayFromEnds sealedHeaders := by
  intro before child parent after heq
  have hlen := congrArg List.length heq
  rw [List.length_append, List.length_cons, List.length_cons] at hlen
  omega

/-- Away from the ends of the range the walk with overflow checks is the walk of the code. -/
theorem checkHeadersChecked_cons (hchild : child.header.number ≠ 0) (hparent : parent.header.number ≠ -1)
    (blockHashes : HashMap UInt64 B256) : checkHeadersChecked blockHashes (child :: parent :: rest) =
      if parent.header.number ≠ child.header.number - 1 then
        .error (.err (.invalidHeaderBlockNumber (parent.header.number + 1) child.header.number))
      else if parent.hash ≠ child.header.parentHash then
        .error (.err (.invalidHeaderParentHash parent.hash child.header.parentHash))
      else checkHeadersChecked (blockHashes.insert parent.header.number child.header.parentHash) (parent :: rest) := by
  rw [checkHeadersChecked, checkedPred, if_neg hchild, checkedSucc, if_neg hparent]
  rfl

theorem err_ne_panic {e : ClientError} {α : Type} :
    (Except.error (.err e) : Except ClientFailure α) ≠ .error .panic := by
  intro h
  cases h

/-- The walk with overflow checks does not panic exactly when it stays away from the ends of the range. -/
theorem checkHeadersChecked_ne_panic_iff {sealedHeaders : List SealedHeader} {blockHashes : HashMap UInt64 B256} :
    checkHeadersChecked blockHashes sealedHeaders ≠ .error .panic ↔ AwayFromEnds sealedHeaders := by
  induction sealedHeaders generalizing blockHashes with
  | nil => exact iff_of_true error_ne_ok.symm (awayFromEnds_of_short (Nat.zero_le 1))
  | cons child rest ih =>
      cases rest with
      | nil => exact iff_of_true error_ne_ok.symm (awayFromEnds_of_short (Nat.le_refl 1))
      | cons parent rest =>
          rw [awayFromEnds_cons]
          by_cases hchild : child.header.number = 0
          · apply iff_of_false _ (fun h => h.1.1 hchild)
            rw [checkHeadersChecked, checkedPred, if_pos hchild]
            exact fun h => h rfl
          · by_cases hparent : parent.header.number = -1
            · apply iff_of_false _ (fun h => h.1.2 hparent)
              have hpred : parent.header.number ≠ child.header.number - 1 := by
                rw [hparent]
                grind
              rw [checkHeadersChecked, checkedPred, if_neg hchild, checkedSucc, if_pos hparent]
              change ¬ (if parent.header.number ≠ child.header.number - 1 then
                (.error .panic : Except ClientFailure (HashMap UInt64 B256)) else _) ≠ _
              rw [if_pos hpred]
              exact fun h => h rfl
            · rw [checkHeadersChecked_cons hchild hparent, and_iff_right ⟨hchild, hparent⟩, linked_iff hchild]
              split
              · next hnumber => exact iff_of_true err_ne_panic fun h => absurd h.1 hnumber
              · next hnumber =>
                  split
                  · next hhash => exact iff_of_true err_ne_panic fun h => absurd h.2 hhash
                  · next hhash => rw [ih, forall_prop_of_true ⟨not_not.mp hnumber, not_not.mp hhash⟩]

/-- A walk that does not overflow is the walk of the code. -/
theorem checkHeadersChecked_eq {sealedHeaders : List SealedHeader} (h : AwayFromEnds sealedHeaders)
    (blockHashes : HashMap UInt64 B256) :
    checkHeadersChecked blockHashes sealedHeaders = (checkHeaders blockHashes sealedHeaders).mapError .err := by
  induction sealedHeaders generalizing blockHashes with
  | nil => rfl
  | cons child rest ih =>
      cases rest with
      | nil => rfl
      | cons parent rest =>
          obtain ⟨hends, hrest⟩ := awayFromEnds_cons.mp h
          rw [checkHeadersChecked_cons hends.1 hends.2, checkHeaders]
          split
          · rfl
          · next hnumber =>
              split
              · rfl
              · next hhash =>
                  exact ih (hrest ((linked_iff hends.1).mpr ⟨not_not.mp hnumber, not_not.mp hhash⟩)) _

/-- Away from the ends of the range the walk accepts the chains over the integers. -/
theorem checkHeaders_ok_iff {sealedHeaders : List SealedHeader} (h : AwayFromEnds sealedHeaders)
    (blockHashes : HashMap UInt64 B256) :
    (∃ found, checkHeaders blockHashes sealedHeaders = .ok found) ↔ sealedHeaders.IsChain Linked := by
  induction sealedHeaders generalizing blockHashes with
  | nil => exact iff_of_true ⟨blockHashes, rfl⟩ List.isChain_nil
  | cons child rest ih =>
      cases rest with
      | nil => exact iff_of_true ⟨blockHashes, rfl⟩ (List.isChain_singleton child)
      | cons parent rest =>
          obtain ⟨hends, hrest⟩ := awayFromEnds_cons.mp h
          rw [List.isChain_cons_cons, checkHeaders, linked_iff hends.1]
          split
          · next hnumber =>
              apply iff_of_false _ fun h => hnumber h.1.1
              rintro ⟨found, h⟩
              cases h
          · next hnumber =>
              split
              · next hhash =>
                  apply iff_of_false _ fun h => hhash h.1.2
                  rintro ⟨found, h⟩
                  cases h
              · next hhash =>
                  have hlink := And.intro (not_not.mp hnumber) (not_not.mp hhash)
                  rw [and_iff_right hlink, ih (hrest ((linked_iff hends.1).mpr hlink))]

/-- The walk fails with one of its two errors. -/
theorem checkHeaders_error {sealedHeaders : List SealedHeader} {blockHashes : HashMap UInt64 B256} {e : ClientError}
    (h : checkHeaders blockHashes sealedHeaders = .error e) :
    (∃ expected found, e = .invalidHeaderBlockNumber expected found) ∨
      ∃ expected found, e = .invalidHeaderParentHash expected found := by
  induction sealedHeaders generalizing blockHashes with
  | nil => cases h
  | cons child rest ih =>
      cases rest with
      | nil => cases h
      | cons parent rest =>
          rw [checkHeaders] at h
          split at h
          · exact .inl ⟨_, _, (Except.error.inj h).symm⟩
          · split at h
            · exact .inr ⟨_, _, (Except.error.inj h).symm⟩
            · exact ih h

/-- Down a chain the numbers fall, and no number comes again. -/
theorem numbers_nodup {sealedHeaders : List SealedHeader} (h : sealedHeaders.IsChain Linked) :
    (sealedHeaders.map fun sealed => sealed.header.number).Nodup := by
  have hfall : sealedHeaders.IsChain fun a b => b.header.number.toNat < a.header.number.toNat := by
    refine h.imp ?_
    intro a b hlink
    have := hlink.1
    omega
  refine List.pairwise_map.mpr (hfall.pairwise.imp ?_)
  intro a b hlt heq
  exact absurd hlt (by rw [heq]; exact Nat.lt_irrefl _)

/-- Where no two of the headers behind the first have one number, the walk enters each under its own. -/
theorem lookup_checkHeaders_of_nodup {sealedHeaders : List SealedHeader}
    (h : (sealedHeaders.tail.map fun sealed => sealed.header.number).Nodup) {blockHashes found : HashMap UInt64 B256}
    (hfound : checkHeaders blockHashes sealedHeaders = .ok found) (number : UInt64) (hash : B256) :
    found.lookup number = some hash ↔
      (∃ sealed ∈ sealedHeaders.tail, sealed.header.number = number ∧ sealed.hash = hash) ∨
        (∀ sealed ∈ sealedHeaders.tail, sealed.header.number ≠ number) ∧
          blockHashes.lookup number = some hash := by
  induction sealedHeaders generalizing blockHashes with
  | nil =>
      cases hfound
      simp
  | cons child rest ih =>
      cases rest with
      | nil =>
          cases hfound
          simp
      | cons parent rest =>
          obtain ⟨-, hhash, hfound⟩ := checkHeaders_cons_inv hfound
          obtain ⟨hnew, hrest⟩ := List.nodup_cons.mp h
          rw [ih hrest (hhash ▸ hfound), List.tail_cons, List.tail_cons]
          by_cases hkey : number = parent.header.number
          · subst hkey
            have hbelow : ∀ sealed ∈ rest, sealed.header.number ≠ parent.header.number := by
              intro sealed hmem heq
              exact hnew (List.mem_map.mpr ⟨sealed, hmem, heq⟩)
            have hnone : ¬ ∃ sealed ∈ rest, sealed.header.number = parent.header.number ∧ sealed.hash = hash :=
              fun ⟨sealed, hmem, heq, _⟩ => hbelow sealed hmem heq
            rw [Finmap.lookup_insert, List.exists_mem_cons_iff, List.forall_mem_cons, Option.some.injEq]
            simp only [hnone, ne_eq, not_true_eq_false, false_and, or_false, false_or, true_and]
            exact and_iff_right hbelow
          · rw [Finmap.lookup_insert_of_ne _ hkey, List.exists_mem_cons_iff, List.forall_mem_cons]
            simp only [ne_eq, Ne.symm hkey, not_false_eq_true, false_and, false_or, true_and]

/-- Over a chain the walk enters every header behind the first, under its own number. -/
theorem lookup_checkHeaders {sealedHeaders : List SealedHeader} (h : sealedHeaders.IsChain Linked)
    {blockHashes found : HashMap UInt64 B256} (hfound : checkHeaders blockHashes sealedHeaders = .ok found)
    (number : UInt64) (hash : B256) : found.lookup number = some hash ↔
      (∃ sealed ∈ sealedHeaders.tail, sealed.header.number = number ∧ sealed.hash = hash) ∨
        (∀ sealed ∈ sealedHeaders.tail, sealed.header.number ≠ number) ∧
          blockHashes.lookup number = some hash := by
  have hnodup := (numbers_nodup h).tail
  rw [← List.map_tail] at hnodup
  exact lookup_checkHeaders_of_nodup hnodup hfound number hash

end Walk

section Witness
variable {Body : Type} {keccak : Bytes → B256} {codec : AccountCodec} {input : ClientExecutorInput Body}
  {storageTries : IteratedMap B256 MptNode} {sealedHeaders : List SealedHeader}

/-- Once the state checks pass, the only errors are those of the walk over the headers. -/
theorem witnessDb_error (h : storageTries.toFinmap = input.parentState.storageTries)
    (haccepted : ∃ parentHeader ∈ input.ancestorHeaders.head?,
      input.parentState.Accepted keccak codec parentHeader.stateRoot) {f : ClientFailure}
    (hf : witnessDb keccak codec input storageTries sealedHeaders = .error f) :
    ∃ e, checkHeaders ∅ sealedHeaders = .error e ∧ f = .err e := by
  obtain ⟨parentHeader, hmem, haccepted⟩ := haccepted
  rw [witnessDb] at hf
  cases hancestors : input.ancestorHeaders with
  | nil =>
      rw [hancestors] at hmem
      cases hmem
  | cons first rest =>
      rw [hancestors] at hmem hf
      cases hmem
      dsimp only at hf
      rw [if_neg (not_not.mpr haccepted.stateRoot), (checkStorage_forM_iff h).mpr haccepted.storageRoots] at hf
      cases hheaders : checkHeaders ∅ sealedHeaders with
      | error e =>
          rw [hheaders] at hf
          exact ⟨e, rfl, (Except.error.inj hf).symm⟩
      | ok blockHashes =>
          rw [hheaders] at hf
          cases hf

/-- Once the state checks pass, the headers are checked as they should be exactly when the walk stays
away from the ends of the range of numbers. -/
theorem headersChecked_iff (h : storageTries.toFinmap = input.parentState.storageTries)
    (haccepted : ∃ parentHeader ∈ input.ancestorHeaders.head?,
      input.parentState.Accepted keccak codec parentHeader.stateRoot) (sealedHeaders : List SealedHeader) :
    HeadersChecked keccak codec input storageTries sealedHeaders ↔ AwayFromEnds sealedHeaders := by
  constructor
  · intro hchecked
    exact checkHeadersChecked_ne_panic_iff.mp hchecked.noOverflow
  · intro haway
    refine ⟨?_, ?_, checkHeadersChecked_ne_panic_iff.mpr haway, ?_⟩
    · rw [← checkHeaders_ok_iff haway ∅]
      constructor
      · rintro ⟨db, hdb⟩
        exact ⟨_, ((witnessDb_ok_iff h).mp hdb).2.1⟩
      · rintro ⟨found, hfound⟩
        exact ⟨⟨input.parentState, found, _⟩, (witnessDb_ok_iff h).mpr ⟨haccepted, hfound, rfl, rfl⟩⟩
    · intro f hf
      obtain ⟨e, he, rfl⟩ := witnessDb_error h haccepted hf
      rcases checkHeaders_error he with ⟨expected, found, rfl⟩ | ⟨expected, found, rfl⟩
      · exact .inl ⟨expected, found, rfl⟩
      · exact .inr ⟨expected, found, rfl⟩
    · intro db hdb number hash
      have hfound := ((witnessDb_ok_iff h).mp hdb).2.1
      rw [lookup_checkHeaders ((checkHeaders_ok_iff haway ∅).mp ⟨_, hfound⟩) hfound, Finmap.lookup_empty,
        or_iff_left]
      rintro ⟨-, h⟩
      cases h

end Witness

section Sample

theorem headersChecked_threeBlocks :
    let input := thirdInput [(threeBlocks 1).rebuild, (threeBlocks 0).rebuild]
    HeadersChecked slotKeccak rlpCodec input ∅ (input.sealedHeaders threeHashes) := by
  refine (headersChecked_iff rfl ⟨_, rfl, rfl, fun h hmem => absurd hmem Finmap.notMem_empty⟩ _).mpr ?_
  refine awayFromEnds_cons.mpr ⟨⟨by decide, by decide⟩, fun _ => ?_⟩
  exact awayFromEnds_cons.mpr ⟨⟨by decide, by decide⟩, fun _ => awayFromEnds_of_short (Nat.le_refl 1)⟩

/-- The hash of the block with the greatest number, and of block zero above it. -/
def lastHash : B256 :=
  ⟨[0x8f, 0xd8, 0x4b, 0x9f, 0x6f, 0xf2, 0x3b, 0xc3, 0x48, 0x9b, 0xa0, 0xbd, 0x87, 0x68, 0x73, 0x16,
    0x36, 0x7c, 0x73, 0x84, 0xc1, 0x01, 0x99, 0x8c, 0x2f, 0xb0, 0x8a, 0xad, 0x97, 0x89, 0xab, 0xf9], rfl⟩

def zeroHash : B256 :=
  ⟨[0x7c, 0x8c, 0x34, 0xcb, 0x3f, 0x82, 0x0d, 0x24, 0x77, 0x01, 0xa9, 0xef, 0xf3, 0xdc, 0xa4, 0xb2,
    0x21, 0x10, 0x7a, 0x31, 0x54, 0x2d, 0x18, 0xa3, 0xaa, 0xf0, 0x12, 0xdf, 0x6c, 0x8b, 0x17, 0xa9], rfl⟩

def wrappedHashes (header : Header) : B256 := if header.number = 0 then zeroHash else lastHash

/-- Block zero, with the block of the greatest number as its parent. -/
def wrappedInput : ClientExecutorInput Unit :=
  { thirdInput [(emptyBlock (-1) B256.ZERO lastHash).rebuild] with
    currentBlock := ⟨(emptyBlock 0 lastHash zeroHash).rebuild, ()⟩ }

theorem wrappedInput_accepted :
    ¬ HeadersChecked slotKeccak rlpCodec wrappedInput ∅ (wrappedInput.sealedHeaders wrappedHashes) := by
  intro hchecked
  have hdb : ∃ db,
      witnessDb slotKeccak rlpCodec wrappedInput ∅ (wrappedInput.sealedHeaders wrappedHashes) = .ok db :=
    ⟨⟨wrappedInput.parentState, (∅ : HashMap UInt64 B256).insert (-1) lastHash, ∅⟩,
      (witnessDb_ok_iff rfl).mpr ⟨⟨_, rfl, rfl, fun h hmem => absurd hmem Finmap.notMem_empty⟩, rfl, rfl, rfl⟩⟩
  have hlink := List.isChain_pair.mp (hchecked.accepts.mp hdb)
  cases hlink.1

end Sample

end RethProcessor
