import RethProcessor.StateUpdate
import RethProcessor.TrieBinding

/-! What `witness_db` checks of the tries, and what an update leaves of it. -/
namespace RethProcessor
namespace EthereumState

section Keccak
variable (keccak : Bytes → B256) (codec : AccountCodec)

/-- The storage root in the leaf at an address, the empty one without a leaf; a lookup that
fails panics. -/
def storageRootAt (s : EthereumState) (hashedAddress : B256) : Option B256 :=
  match s.stateTrie.getRlp codec.decode hashedAddress.bytes with
  | .ok account => some (account.elim EMPTY_ROOT TrieAccount.storageRoot)
  | .error _ => none

/-- The check of `witness_db` on the storage tries. -/
def StorageRootsMatch (s : EthereumState) : Prop :=
  ∀ h ∈ s.storageTries.keys, s.storageRootAt codec h = some ((s.storageTrie h).hash keccak)

instance (s : EthereumState) : Decidable (s.StorageRootsMatch keccak codec) :=
  inferInstanceAs (Decidable (∀ h ∈ s.storageTries.keys, _))

/-- The tries of a state that `witness_db` accepts under a state anchor. -/
structure Accepted (stateAnchor : B256) (s : EthereumState) : Prop where
  stateRoot : stateAnchor = s.stateRoot keccak
  storageRoots : s.StorageRootsMatch keccak codec

/-- The accounts that a diff deletes have no storage trie, or an empty one. -/
def DeletesCleanly (s : EthereumState) (post : HashedPostState) : Prop :=
  ∀ h, post.accounts.lookup h = some none → h ∈ s.storageTries.keys →
    (s.storageTrie h).hash keccak = EMPTY_ROOT

/-- A run of updates that return and delete cleanly. -/
inductive CleanRun : EthereumState → List HashedPostState → EthereumState → Prop
  | nil (s : EthereumState) : CleanRun s [] s
  | snoc {s t u : EthereumState} {posts : List HashedPostState} {post : HashedPostState} :
      CleanRun s posts t → t.DeletesCleanly keccak post → t.update keccak codec post = some u →
      CleanRun s (posts ++ [post]) u

variable {keccak codec} {s s' : EthereumState} {post : HashedPostState} {h : B256}

theorem mem_keys_iff : h ∈ s.storageTries.keys ↔ ∃ trie, s.storageTries.lookup h = some trie := by
  rw [Finmap.mem_keys, Finmap.mem_iff]

theorem storageTrie_of_lookup {trie : MptNode} (hl : s.storageTries.lookup h = some trie) :
    s.storageTrie h = trie := by
  rw [storageTrie, hl, Option.getD_some]

theorem storageRootAt_of_absent (hget : s.stateTrie.get h.bytes = .ok none) :
    s.storageRootAt codec h = some EMPTY_ROOT := by
  simp only [storageRootAt, MptNode.getRlp, hget, Option.elim_none]

theorem getRlp_leaf {leaf : TrieAccount}
    (hget : s.stateTrie.get h.bytes = .ok (some (codec.encode leaf))) :
    s.stateTrie.getRlp codec.decode h.bytes = .ok (some leaf) := by
  simp only [MptNode.getRlp, hget, codec.decode_encode]

theorem storageRootAt_of_leaf {leaf : TrieAccount}
    (hget : s.stateTrie.get h.bytes = .ok (some (codec.encode leaf))) :
    s.storageRootAt codec h = some leaf.storageRoot := by
  simp only [storageRootAt, getRlp_leaf hget, Option.elim_some]

theorem SameAt.storageRootAt (hsame : SameAt s s' h) :
    s'.storageRootAt codec h = s.storageRootAt codec h := by
  simp only [EthereumState.storageRootAt, MptNode.getRlp, hsame.get]

/-- An account that is written: its leaf carries the hash of the storage trie beside it. -/
theorem PatchedAt.of_some {account : Account} (hp : PatchedAt keccak codec post s s' h (some account)) :
    ∃ trie, updateStorage (s.storageTrie h) (post.storageOf h) = some trie ∧
      s'.stateTrie.get h.bytes = .ok (some (codec.encode (leafOf keccak account trie))) ∧
      s'.storageTries.lookup h = some trie := by
  obtain ⟨p, hp, hget, hl⟩ := hp
  obtain ⟨trie, ht, rfl⟩ := Option.map_eq_some_iff.mp hp
  exact ⟨trie, ht, hget, hl⟩

/-- An account that is deleted: its storage trie stays. -/
theorem PatchedAt.of_none (hp : PatchedAt keccak codec post s s' h none) :
    s'.stateTrie.get h.bytes = .ok none ∧ s'.storageTries.lookup h = s.storageTries.lookup h := by
  obtain ⟨p, hp, hget, hl⟩ := hp
  cases hp
  exact ⟨hget, hl⟩

/-- After an update the check passes again exactly when the update deletes cleanly. -/
theorem Tries.update_match_iff (hs : s.Tries CanonicalTrie) (hm : s.StorageRootsMatch keccak codec)
    (hu : s.update keccak codec post = some s') :
    s'.StorageRootsMatch keccak codec ↔ s.DeletesCleanly keccak post := by
  obtain ⟨-, hat, hsame⟩ := hs.update kept_canonical hu
  constructor
  · intro hm' h hdel hmem
    obtain ⟨hget, hl⟩ := (hat h none hdel).of_none
    have hmem' : h ∈ s'.storageTries.keys := by rwa [mem_keys_iff, hl, ← mem_keys_iff]
    have hroot := hm' h hmem'
    rw [storageRootAt_of_absent hget, Option.some.injEq] at hroot
    rw [hroot, storageTrie_congr hl]
  · intro hclean h hmem
    cases hacc : post.accounts.lookup h with
    | none =>
        have hsame := hsame h hacc
        rw [mem_keys_iff, hsame.lookup, ← mem_keys_iff] at hmem
        rw [hsame.storageRootAt, storageTrie_congr hsame.lookup]
        exact hm h hmem
    | some account =>
        cases account with
        | none =>
            obtain ⟨hget, hl⟩ := (hat h none hacc).of_none
            rw [mem_keys_iff, hl, ← mem_keys_iff] at hmem
            rw [storageRootAt_of_absent hget, storageTrie_congr hl, hclean h hacc hmem]
        | some account =>
            obtain ⟨trie, -, hget, hl⟩ := (hat h (some account) hacc).of_some
            rw [storageRootAt_of_leaf hget, storageTrie_of_lookup hl]
            rfl

/-- In every run of updates that delete cleanly, the check of `witness_db` keeps passing. -/
theorem cleanRun_match (hs : s.Tries CanonicalTrie) (hm : s.StorageRootsMatch keccak codec)
    {posts : List HashedPostState} (hrun : CleanRun keccak codec s posts s') :
    s'.Tries CanonicalTrie ∧ s'.StorageRootsMatch keccak codec := by
  induction hrun with
  | nil => exact ⟨hs, hm⟩
  | snoc _ hclean hu ih =>
      obtain ⟨ht, hmt⟩ := ih
      exact ⟨(ht.update kept_canonical hu).1, (ht.update_match_iff hmt hu).mpr hclean⟩

end Keccak

section Sample

theorem match_oneAccount :
    (oneAccount (Finmap.singleton zeroKey (oneSlot 1))).StorageRootsMatch slotKeccak rlpCodec := by
  intro h hmem
  obtain ⟨trie, hl⟩ := mem_keys_iff.mp hmem
  obtain ⟨rfl, rfl⟩ := lookup_singleton_some hl
  rw [storageTrie_of_lookup hl]
  have hget : (oneAccount (Finmap.singleton zeroKey (oneSlot 1))).stateTrie.get zeroKey.bytes =
      .ok (some (rlpCodec.encode ⟨1, 1, (oneSlot 1).hash slotKeccak, KECCAK_EMPTY⟩)) := by
    simp [oneAccount, get_eq_nibs]
  exact storageRootAt_of_leaf hget

theorem alookup_singleton_some {ν : Type} {h k : B256} {v w : ν}
    (hl : (AList.singleton h v : IteratedMap B256 ν).lookup k = some w) : k = h ∧ v = w := by
  have hm : (⟨k, w⟩ : Σ _ : B256, ν) ∈ [(⟨h, v⟩ : Σ _ : B256, ν)] := List.of_mem_dlookup hl
  simp only [List.mem_singleton, Sigma.mk.injEq, heq_eq_eq] at hm
  exact ⟨hm.1, hm.2.symm⟩

theorem hash_oneSlot : (oneSlot 1).hash slotKeccak ≠ EMPTY_ROOT := by
  rw [hash_of_isListed rfl]
  decide +kernel

theorem cleanRun_match_oneAccount : ∃ u, CleanRun slotKeccak rlpCodec
      (oneAccount (Finmap.singleton zeroKey (oneSlot 1)))
      [⟨AList.singleton otherKey none, ∅⟩, ⟨AList.singleton zeroKey (some ⟨2, 1, none⟩), ∅⟩] u ∧
    u.Tries CanonicalTrie ∧ u.StorageRootsMatch slotKeccak rlpCodec := by
  have hfull : (oneAccount (Finmap.singleton zeroKey (oneSlot 1))).Tries (FullTrieOver 64) :=
    full_oneAccount (.inr rfl)
  obtain ⟨t, ht⟩ := @Tries.exists_update slotKeccak rlpCodec _ hfull ⟨AList.singleton otherKey none, ∅⟩
  obtain ⟨u, hu⟩ := @Tries.exists_update slotKeccak rlpCodec _ (hfull.update kept_fullOver ht).1
    ⟨AList.singleton zeroKey (some ⟨2, 1, none⟩), ∅⟩
  have hrun : CleanRun slotKeccak rlpCodec (oneAccount (Finmap.singleton zeroKey (oneSlot 1)))
      [⟨AList.singleton otherKey none, ∅⟩, ⟨AList.singleton zeroKey (some ⟨2, 1, none⟩), ∅⟩] u := by
    refine .snoc (.snoc (.nil _) (?_) ht) (?_) hu
    · intro h hdel hmem
      obtain ⟨trie, hl⟩ := mem_keys_iff.mp hmem
      obtain ⟨rfl, -⟩ := lookup_singleton_some hl
      exact absurd (alookup_singleton_some hdel).1 (by decide)
    · intro h hdel _
      cases (alookup_singleton_some hdel).2
  exact ⟨u, hrun, cleanRun_match (hfull.mono kept_fullOver.canonical) match_oneAccount hrun⟩

/-- The deletion of an account leaves its storage trie behind, also if the diff marks the
storage wiped, and the check no longer passes. -/
theorem oneAccount_deleted : ∃ s', (oneAccount (Finmap.singleton zeroKey (oneSlot 1))).Tries FullTrie ∧
    (oneAccount (Finmap.singleton zeroKey (oneSlot 1))).StorageRootsMatch slotKeccak rlpCodec ∧
    (oneAccount (Finmap.singleton zeroKey (oneSlot 1))).update slotKeccak rlpCodec
      ⟨AList.singleton zeroKey none, Finmap.singleton zeroKey ⟨true, ∅⟩⟩ = some s' ∧
    ¬ s'.StorageRootsMatch slotKeccak rlpCodec := by
  have hfull : (oneAccount (Finmap.singleton zeroKey (oneSlot 1))).Tries (FullTrieOver 64) :=
    full_oneAccount (.inr rfl)
  obtain ⟨s', hu⟩ := @Tries.exists_update slotKeccak rlpCodec _ hfull
    ⟨AList.singleton zeroKey none, Finmap.singleton zeroKey ⟨true, ∅⟩⟩
  refine ⟨s', hfull.mono FullTrieOver.full, match_oneAccount, hu, ?_⟩
  rw [(hfull.mono kept_fullOver.canonical).update_match_iff match_oneAccount hu]
  intro hclean
  have hl : (oneAccount (Finmap.singleton zeroKey (oneSlot 1))).storageTries.lookup zeroKey = some (oneSlot 1) :=
    Finmap.lookup_singleton_eq
  have hroot := hclean zeroKey rfl (mem_keys_iff.mpr ⟨_, hl⟩)
  rw [storageTrie_of_lookup hl] at hroot
  exact hash_oneSlot hroot

end Sample

end EthereumState

end RethProcessor
