import RethProcessor.StateWitness

/-! The post-state of an update, account by account, over the storages that the accounts
commit to. A storage trie that is not supplied is taken for an empty one. -/
namespace RethProcessor
open Paths Writes

/-- A storage after a diff: the one before it, emptied if the diff wipes it, with the slots
of the diff overwritten. -/
structure StorageAfter (old : MptNode) (diff : HashedStorage) (new : MptNode) : Prop where
  full : FullTrie new
  view : new.getInternal = overlay (diff.start old).getInternal (diff.storage.entries.map slotPoint)

/-- Every slot that the storage holds is written by the diff, or the storage is wiped first. -/
def HashedStorage.Replaces (diff : HashedStorage) (old : MptNode) : Prop :=
  diff.wiped ∨ ∀ key, Live old key → ∃ slot ∈ diff.storage.entries, slot.1.nibs = key

namespace EthereumState

section Keccak
variable (keccak : Bytes → B256) (codec : AccountCodec)

/-- Storages that the accounts written by a diff commit to before it. -/
def Committed (s : EthereumState) (post : HashedPostState) (storages : B256 → MptNode) : Prop :=
  ∀ h account, post.accounts.lookup h = some (some account) →
    FullTrie (storages h) ∧ s.storageRootAt codec h = some ((storages h).hash keccak)

/-- The leaf at an address is the one that the diff asks for. -/
def PostLeaf (s s' : EthereumState) (post : HashedPostState) (storages : B256 → MptNode) (h : B256) : Prop :=
  match post.accounts.lookup h with
  | none => s'.stateTrie.get h.bytes = s.stateTrie.get h.bytes
  | some none => s'.stateTrie.get h.bytes = .ok none
  | some (some account) =>
      ∃ leaf storage, s'.stateTrie.getRlp codec.decode h.bytes = .ok (some leaf) ∧
        leaf.nonce = account.nonce ∧ leaf.balance = account.balance ∧
        leaf.codeHash = account.getBytecodeHash ∧
        StorageAfter (storages h) (post.storageOf h) storage ∧ leaf.storageRoot = storage.hash keccak ∧
        (post.storages.lookup h = none → s.storageRootAt codec h = some leaf.storageRoot)

/-- No two of the storage tries compared at an address collide. -/
structure StoragesBind (s s' : EthereumState) (post : HashedPostState) (storages : B256 → MptNode)
    (h : B256) : Prop where
  short : Addressable keccak (s.storageTrie h)
  short' : Addressable keccak (s'.storageTrie h)
  free : CollisionFree keccak (s.storageTrie h) (storages h)
  free' : ∀ t, StorageAfter (storages h) (post.storageOf h) t → CollisionFree keccak (s'.storageTrie h) t

/-- Wherever the diff writes an account, its storage trie is supplied, or not needed. -/
def Supplied (s : EthereumState) (post : HashedPostState) (storages : B256 → MptNode) : Prop :=
  ∀ h account, post.accounts.lookup h = some (some account) →
    h ∈ s.storageTries.keys ∨ (post.storageOf h).Replaces (storages h)

end Keccak

end EthereumState

section Storage
variable {old new : MptNode} {diff : HashedStorage}

theorem FullTrie.storageAfter (hold : FullTrie old) (h : updateStorage old diff = some new) :
    StorageAfter old diff new := by
  obtain ⟨hfull, hview⟩ := kept_full.updateStorage hold h
  exact ⟨hfull, hview⟩

/-- Without a diff a storage stays as it is. -/
theorem StorageAfter.eq_of_new (hold : FullTrie old) (h : StorageAfter old (.new false) new) : new = old :=
  h.full.canonical.ext_view hold.canonical fun key => by rw [h.view]; rfl

theorem slotPoints_nodup (slots : IteratedMap B256 U256) :
    ((slots.entries.map slotPoint).map Prod.fst).Nodup := by
  have hkeys := List.Nodup.map (fun a b hab => B256.nibs_inj.mp hab) slots.nodupKeys
  rw [List.keys, List.map_map] at hkeys
  rw [List.map_map]
  exact hkeys

theorem overlay_slots {f : List Nibble → Except Failure (Option Bytes)} {key : List Nibble}
    (hk : ∀ slot ∈ diff.storage.entries, slot.1.nibs ≠ key) :
    overlay f (diff.storage.entries.map slotPoint) key = f key := by
  apply overlay_of_not_mem
  rw [List.map_map, List.mem_map]
  rintro ⟨slot, hslot, heq⟩
  exact hk slot hslot heq

/-- What a diff makes of an empty storage it makes of another one only where it replaces that. -/
theorem StorageAfter.of_null_iff (h : StorageAfter .null diff new) :
    StorageAfter old diff new ↔ diff.Replaces old := by
  constructor
  · intro h'
    cases hw : diff.wiped with
    | true => exact .inl hw
    | false =>
        refine .inr ?_
        intro key hlive
        by_contra hno
        have hkey : ∀ slot ∈ diff.storage.entries, slot.1.nibs ≠ key := by
          intro slot hslot heq
          exact hno ⟨slot, hslot, heq⟩
        have heq := congrFun (h.view.symm.trans h'.view) key
        rw [overlay_slots hkey, overlay_slots hkey] at heq
        simp only [HashedStorage.start, hw, Bool.false_eq_true, ↓reduceIte, getInternal_null] at heq
        exact hlive heq.symm
  · intro hrep
    refine ⟨h.full, ?_⟩
    rw [h.view]
    funext key
    by_cases hkey : ∃ slot ∈ diff.storage.entries, slot.1.nibs = key
    · have hmem : key ∈ (diff.storage.entries.map slotPoint).map Prod.fst := by
        obtain ⟨slot, hslot, rfl⟩ := hkey
        rw [List.map_map, List.mem_map]
        exact ⟨slot, hslot, rfl⟩
      have hn := slotPoints_nodup diff.storage
      obtain ⟨w, hw, rfl, -⟩ := exists_write (f := (diff.start old).getInternal) hmem
      rw [overlay_of_mem hn hw, overlay_of_mem hn hw]
    · have hkey' : ∀ slot ∈ diff.storage.entries, slot.1.nibs ≠ key := by
        intro slot hslot heq
        exact hkey ⟨slot, hslot, heq⟩
      rw [overlay_slots hkey', overlay_slots hkey']
      unfold HashedStorage.start
      split
      · rfl
      · next hw =>
          by_contra hne
          exact hkey (hrep.resolve_left hw key fun hdead => hne hdead.symm)

end Storage

namespace EthereumState

section Keccak
variable {keccak : Bytes → B256} {codec : AccountCodec} {s s' : EthereumState} {post : HashedPostState}
  {storages : B256 → MptNode}

/-- A storage trie that is supplied and checked is the storage that the account commits to. -/
theorem storageTrie_eq_committed (hm : s.StorageRootsMatch keccak codec) (hfull : s.Tries FullTrie) {h : B256}
    {storage : MptNode} (hstorage : FullTrie storage)
    (hroot : s.storageRootAt codec h = some (storage.hash keccak))
    (hshort : Addressable keccak (s.storageTrie h)) (hfree : CollisionFree keccak (s.storageTrie h) storage)
    (hempty : keccak [EMPTY_STRING_CODE] = EMPTY_ROOT) (hmem : h ∈ s.storageTries.keys) :
    s.storageTrie h = storage := by
  apply (hfull.storageTrie kept_full h).eq_of_hash hstorage hshort hfree hempty
  exact Option.some.inj ((hm h hmem).symm.trans hroot)

/-- The leaf of an account that is written is the right one exactly when its storage trie
is supplied, or not needed. -/
theorem postLeaf_iff (hm : s.StorageRootsMatch keccak codec) (hfull : s.Tries FullTrie)
    (hcommit : s.Committed keccak codec post storages) (hu : s.update keccak codec post = some s')
    (hempty : keccak [EMPTY_STRING_CODE] = EMPTY_ROOT) {h : B256} {account : Account}
    (ha : post.accounts.lookup h = some (some account)) (hbind : StoragesBind keccak s s' post storages h) :
    PostLeaf keccak codec s s' post storages h ↔
      h ∈ s.storageTries.keys ∨ (post.storageOf h).Replaces (storages h) := by
  obtain ⟨trie, ht, hget, hl⟩ := ((hfull.update kept_full hu).2.1 h _ ha).of_some
  obtain ⟨hstorage, hroot⟩ := hcommit h account ha
  obtain ⟨hshort, hshort', hfree, hfree'⟩ := hbind
  rw [storageTrie_of_lookup hl] at hshort' hfree'
  have hafter := (hfull.storageTrie kept_full h).storageAfter ht
  have hleaf : PostLeaf keccak codec s s' post storages h ↔
      StorageAfter (storages h) (post.storageOf h) trie := by
    simp only [PostLeaf, ha, getRlp_leaf hget, Except.ok.injEq, Option.some.injEq]
    constructor
    · rintro ⟨leaf, storage, rfl, -, -, -, hspec, hr, -⟩
      obtain rfl : trie = storage := hafter.full.eq_of_hash hspec.full hshort' (hfree' storage hspec) hempty hr
      exact hspec
    · intro hspec
      refine ⟨_, trie, rfl, rfl, rfl, rfl, hspec, rfl, ?_⟩
      intro hnone
      have hnew : post.storageOf h = .new false := by
        rw [HashedPostState.storageOf, hnone, Option.getD_none]
      rw [hnew] at hspec
      rw [hroot, ← hspec.eq_of_new hstorage]
      rfl
  rw [hleaf]
  by_cases hmem : h ∈ s.storageTries.keys
  · rw [storageTrie_eq_committed hm hfull hstorage hroot hshort hfree hempty hmem] at hafter
    exact iff_of_true hafter (.inl hmem)
  · have hnull : s.storageTrie h = .null := by
      rw [storageTrie, Finmap.lookup_eq_none.mpr fun h' => hmem (Finmap.mem_keys.mpr h')]
      rfl
    rw [hnull] at hafter
    rw [hafter.of_null_iff, or_iff_right hmem]

/-- An update makes of every account what the diff asks for exactly when the storage tries
of the accounts it writes are supplied, or not needed. -/
theorem update_post_iff {stateAnchor : B256} (hacc : s.Accepted keccak codec stateAnchor)
    (hfull : s.Tries FullTrie) (hcommit : s.Committed keccak codec post storages) (hu : s.update keccak codec post = some s')
    (hempty : keccak [EMPTY_STRING_CODE] = EMPTY_ROOT)
    (hbind : ∀ h account, post.accounts.lookup h = some (some account) →
      StoragesBind keccak s s' post storages h) :
    (∀ h, PostLeaf keccak codec s s' post storages h) ↔ s.Supplied post storages := by
  obtain ⟨-, hat, hsame⟩ := hfull.update kept_full hu
  have hone {h : B256} {account : Account} (ha : post.accounts.lookup h = some (some account)) :=
    postLeaf_iff hacc.storageRoots hfull hcommit hu hempty ha (hbind h account ha)
  constructor
  · intro hpost h account ha
    exact (hone ha).mp (hpost h)
  · intro hsupp h
    cases ha : post.accounts.lookup h with
    | none =>
        simp only [PostLeaf, ha]
        exact (hsame h ha).get
    | some account =>
        cases account with
        | none =>
            simp only [PostLeaf, ha]
            exact (hat h none ha).of_none.1
        | some account => exact (hone ha).mpr (hsupp h account ha)

end Keccak

section Sample

/-- A diff of the account alone. -/
def nonceDiff : HashedPostState := ⟨AList.singleton zeroKey (some ⟨2, 1, none⟩), ∅⟩

theorem collisionFree_oneSlot {n m : MptNode} (hn : n = .null ∨ n = oneSlot 1)
    (hm : m = .null ∨ m = oneSlot 1) : CollisionFree slotKeccak n m := by
  have henc {n : MptNode} {e : Bytes} (hn : n = .null ∨ n = oneSlot 1) (he : e ∈ encodings slotKeccak n) :
      e ∈ [[EMPTY_STRING_CODE], slotEncoding 1] := by
    rcases hn with rfl | rfl
    · rw [encodings_null] at he
      cases he
    · rw [oneSlot, encodings_leaf, Set.mem_singleton_iff] at he
      rw [he]
      decide +kernel
  have hinj : ∀ x ∈ [[EMPTY_STRING_CODE], slotEncoding 1], ∀ y ∈ [[EMPTY_STRING_CODE], slotEncoding 1],
      slotKeccak x = slotKeccak y → x = y := by decide +kernel
  exact collisionFree_of_mem hinj List.mem_cons_self (fun e he => henc hn he) (fun e he => henc hm he)

theorem addressable_oneSlot {n : MptNode} (hn : n = .null ∨ n = oneSlot 1) : Addressable slotKeccak n := by
  rcases hn with rfl | rfl
  · intro e he
    rw [encodings_null] at he
    cases he
  · exact addressable_leaf (n := 36) rfl (by decide)

theorem committed_oneAccount (tries : HashMap B256 MptNode) :
    (oneAccount tries).Committed slotKeccak rlpCodec nonceDiff fun _ => oneSlot 1 := by
  intro h account ha
  obtain ⟨rfl, -⟩ := alookup_singleton_some ha
  have hget : (oneAccount tries).stateTrie.get zeroKey.bytes =
      .ok (some (rlpCodec.encode ⟨1, 1, (oneSlot 1).hash slotKeccak, KECCAK_EMPTY⟩)) := by
    simp [oneAccount, get_eq_nibs]
  exact ⟨(fullTrieOver_leaf _ _).full, storageRootAt_of_leaf hget⟩

theorem storagesBind_oneAccount {tries : HashMap B256 MptNode} {s' : EthereumState}
    (htries : tries = ∅ ∨ tries = Finmap.singleton zeroKey (oneSlot 1))
    (hu : (oneAccount tries).update slotKeccak rlpCodec nonceDiff = some s') (h : B256) (account : Account)
    (ha : nonceDiff.accounts.lookup h = some (some account)) :
    StoragesBind slotKeccak (oneAccount tries) s' nonceDiff (fun _ => oneSlot 1) h := by
  obtain ⟨rfl, -⟩ := alookup_singleton_some ha
  obtain ⟨trie, ht, -, hl⟩ := (((full_oneAccount htries).update kept_fullOver hu).2.1 _ _ ha).of_some
  have hsame : s'.storageTrie zeroKey = (oneAccount tries).storageTrie zeroKey := by
    rw [storageTrie_of_lookup hl]
    exact (Option.some.inj ht).symm
  have hold : (oneAccount tries).storageTrie zeroKey = .null ∨
      (oneAccount tries).storageTrie zeroKey = oneSlot 1 := by
    rcases htries with rfl | rfl
    · exact .inl rfl
    · exact .inr (storageTrie_of_lookup Finmap.lookup_singleton_eq)
  refine ⟨addressable_oneSlot hold, addressable_oneSlot (hsame ▸ hold), collisionFree_oneSlot hold (.inr rfl),
    fun t hspec => ?_⟩
  exact collisionFree_oneSlot (hsame ▸ hold) (.inr (hspec.eq_of_new (fullTrieOver_leaf _ _).full))

theorem update_post_iff_oneAccount : ∃ s',
    (oneAccount (Finmap.singleton zeroKey (oneSlot 1))).update slotKeccak rlpCodec nonceDiff = some s' ∧
    ((∀ h, PostLeaf slotKeccak rlpCodec (oneAccount (Finmap.singleton zeroKey (oneSlot 1))) s' nonceDiff
        (fun _ => oneSlot 1) h) ↔
      (oneAccount (Finmap.singleton zeroKey (oneSlot 1))).Supplied nonceDiff fun _ => oneSlot 1) := by
  have hfull : (oneAccount (Finmap.singleton zeroKey (oneSlot 1))).Tries (FullTrieOver 64) :=
    full_oneAccount (.inr rfl)
  obtain ⟨s', hu⟩ := @Tries.exists_update slotKeccak rlpCodec _ hfull nonceDiff
  exact ⟨s', hu, update_post_iff ⟨rfl, match_oneAccount⟩ (hfull.mono FullTrieOver.full) (committed_oneAccount _) hu rfl
    (storagesBind_oneAccount (.inr rfl) hu)⟩

/-- Without the storage trie, a diff of the nonce alone empties the storage of the account. -/
theorem oneAccount_omitted : ∃ s', (oneAccount ∅).Tries FullTrie ∧
    (oneAccount ∅).Accepted slotKeccak rlpCodec ((oneAccount ∅).stateRoot slotKeccak) ∧
    (oneAccount ∅).Committed slotKeccak rlpCodec nonceDiff (fun _ => oneSlot 1) ∧
    (oneAccount ∅).update slotKeccak rlpCodec nonceDiff = some s' ∧
    ¬ ∀ h, PostLeaf slotKeccak rlpCodec (oneAccount ∅) s' nonceDiff (fun _ => oneSlot 1) h := by
  have hfull : (oneAccount ∅).Tries (FullTrieOver 64) := full_oneAccount (.inl rfl)
  obtain ⟨s', hu⟩ := @Tries.exists_update slotKeccak rlpCodec _ hfull nonceDiff
  have hm : (oneAccount ∅).StorageRootsMatch slotKeccak rlpCodec := by
    intro h hmem
    simp [oneAccount] at hmem
  refine ⟨s', hfull.mono FullTrieOver.full, ⟨rfl, hm⟩, committed_oneAccount _, hu, ?_⟩
  intro hpost
  have ha : nonceDiff.accounts.lookup zeroKey = some (some ⟨2, 1, none⟩) := rfl
  have hiff := postLeaf_iff hm (hfull.mono FullTrieOver.full) (committed_oneAccount _) hu rfl ha
    (storagesBind_oneAccount (.inl rfl) hu _ _ ha)
  rcases hiff.mp (hpost zeroKey) with hmem | hwiped | hslots
  · simp [oneAccount] at hmem
  · cases hwiped
  · obtain ⟨slot, hslot, -⟩ := hslots zeroKey.nibs (by simp [Live, oneSlot])
    cases hslot

end Sample

end EthereumState

end RethProcessor
