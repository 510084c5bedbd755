import RethProcessor.TrieOrphan
import RethProcessor.StatePost
import RethProcessor.TrieCommitment
import RethProcessor.Lockstep

/-! A state that is known in part: tries with some subtrees cut, and some storage tries left out.
It answers as the whole state where it answers, and an update takes it along with the whole state,
but for deletions that hide an orphan and for storage tries that are missing. -/
namespace RethProcessor
open Paths Lockstep

section
variable (keccak : Bytes → B256)

/-- A write of a pruning, with the trie it was cut from, is no deletion that hides an orphan. -/
def Unhidden (p t : MptNode) (w : List Nibble × Option Bytes) : Prop := w.2 = none → ¬ HiddenOrphan p t w.1

/-- One write of a run, unless it panics. -/
def writeTurn (n : MptNode) (w : List Nibble × Option Bytes) : Option MptNode := unwrap (n.write w.1 w.2)

/-- What a slot of a diff writes. -/
def slotWrite (slot : Σ _ : B256, U256) : List Nibble × Option Bytes := (slot.1.nibs, slotValue slot.2)

namespace EthereumState

/-- The state that is known in part and the whole of it. -/
structure Prunes (s f : EthereumState) : Prop where
  stateTrie : StandsFor keccak s.stateTrie f.stateTrie
  storageTries : ∀ h trie, s.storageTries.lookup h = some trie → StandsFor keccak trie (f.storageTrie h)

/-- Every account commits to its storage, and where there is none the storage is empty. -/
def Consistent (codec : AccountCodec) (f : EthereumState) : Prop :=
  ∀ h, f.storageRootAt codec h = some ((f.storageTrie h).hash keccak)

/-- A turn over an account that can be followed on the whole state: the storage trie is there, or
nothing of it is needed, and no deletion hides an orphan. -/
def Clear (post : HashedPostState) (s f : EthereumState) (entry : Σ _ : B256, Option Account) : Prop :=
  match entry.2 with
  | some _ =>
      (entry.1 ∈ s.storageTries.keys ∨ f.storageTrie entry.1 = .null ∨ (post.storageOf entry.1).wiped) ∧
      Along writeTurn writeTurn Unhidden ((post.storageOf entry.1).start (s.storageTrie entry.1))
        ((post.storageOf entry.1).start (f.storageTrie entry.1)) ((post.storageOf entry.1).storage.entries.map slotWrite)
  | none => ¬ HiddenOrphan s.stateTrie f.stateTrie entry.1.nibs

/-- An update that can be followed on the whole state. -/
def ClearUpdate (codec : AccountCodec) (s f : EthereumState) (post : HashedPostState) : Prop :=
  Along (updateAccount keccak codec post) (updateAccount keccak codec post) (Clear post) s f post.accounts.entries

end EthereumState

end

variable {keccak : Bytes → B256} {codec : AccountCodec}

/-- A write goes on the trie as it goes on the pruning. -/
theorem writeTurn_follows :
    Follows writeTurn writeTurn (fun p t w => w.1.length = 64 ∧ Unhidden p t w)
      (fun p t => FullTrieOver 64 t ∧ StandsFor keccak p t) := by
  rintro p t ⟨key, w⟩ p' ⟨ht, hp⟩ ⟨hkey, hno⟩ hw
  obtain ⟨b, hb⟩ := unwrap_eq_some hw
  obtain ⟨t', ht'⟩ := @FullTrieOver.unwrap_write t 64 key w ht hkey
  obtain ⟨b', hb'⟩ := unwrap_eq_some ht'
  refine ⟨t', ht', kept_fullOver.write ht hkey ht', ?_⟩
  rcases hp with hp | ⟨rfl, -⟩
  · have hagree : Agree keccak p (p.write key w) (t.write key w) := by
      cases w with
      | some value => exact hp.insertInternal key value
      | none => exact hp.deleteInternal ht.full.canonical (hno rfl)
    rw [hb, hb'] at hagree
    rcases hagree with ⟨d, hd⟩ | ⟨-, hpr⟩
    · cases hd
    · exact .inl hpr
  · -- a digest is not written to
    cases w with
    | some value => cases hb
    | none => cases hb

theorem foldlM_writeSlot_eq (slots : List (Σ _ : B256, U256)) (n : MptNode) :
    slots.foldlM writeSlot n = (slots.map slotWrite).foldlM writeTurn n := by
  induction slots generalizing n with
  | nil => rfl
  | cons slot slots ih =>
      rw [List.map_cons, List.foldlM_cons, List.foldlM_cons, writeSlot_eq]
      exact congrArg (Option.bind (writeTurn n (slotWrite slot))) (funext ih)

/-- The diff of a storage, on a pruning and on the whole trie. -/
theorem updateStorage_follows {diff : HashedStorage} {p t p' : MptNode} (ht : FullTrieOver 64 t)
    (hp : StandsFor keccak (diff.start p) (diff.start t))
    (hclear : Along writeTurn writeTurn Unhidden (diff.start p) (diff.start t) (diff.storage.entries.map slotWrite))
    (hu : updateStorage p diff = some p') :
    ∃ t', updateStorage t diff = some t' ∧ FullTrieOver 64 t' ∧ StandsFor keccak p' t' := by
  have hkeys {l : List (List Nibble × Option Bytes)} (hl : ∀ w ∈ l, w.1.length = 64) {a b : MptNode}
      (h : Along writeTurn writeTurn Unhidden a b l) :
      Along writeTurn writeTurn (fun p t w => w.1.length = 64 ∧ Unhidden p t w) a b l := by
    induction l generalizing a b with
    | nil => trivial
    | cons w l ih =>
        obtain ⟨hw, hl⟩ := List.forall_mem_cons.mp hl
        exact ⟨⟨hw, h.1⟩, fun a' b' ha hb => ih hl (h.2 a' b' ha hb)⟩
  have hlength : ∀ w ∈ diff.storage.entries.map slotWrite, w.1.length = 64 := by
    intro w hw
    obtain ⟨slot, -, rfl⟩ := List.mem_map.mp hw
    exact slot.1.nibs_length
  have hrun : (diff.storage.entries.map slotWrite).foldlM writeTurn (diff.start p) = some p' := by
    rw [← foldlM_writeSlot_eq]
    exact hu
  obtain ⟨t', ht', hfull, hpr⟩ := writeTurn_follows.foldlM ⟨kept_fullOver.start ht diff, hp⟩ (hkeys hlength hclear) hrun
  refine ⟨t', ?_, hfull, hpr⟩
  rw [← foldlM_writeSlot_eq] at ht'
  exact ht'

namespace EthereumState

section Update
variable {s f : EthereumState} {post : HashedPostState}

theorem Prunes.stateRoot_eq (h : s.Prunes keccak f) : s.stateRoot keccak = f.stateRoot keccak := h.stateTrie.hash_eq

theorem storageTrie_insert (stateTrie trie : MptNode) (tries : HashMap B256 MptNode) (k j : B256) :
    EthereumState.storageTrie ⟨stateTrie, tries.insert k trie⟩ j =
      if j = k then trie else EthereumState.storageTrie ⟨stateTrie, tries⟩ j := by
  unfold EthereumState.storageTrie
  split
  · next hjk =>
      obtain rfl := hjk
      simp
  · next hjk => rw [Finmap.lookup_insert_of_ne _ hjk]

/-- The storage trie that a diff starts from. -/
theorem Prunes.start (h : s.Prunes keccak f) {k : B256} {diff : HashedStorage}
    (hneed : k ∈ s.storageTries.keys ∨ f.storageTrie k = .null ∨ diff.wiped) :
    StandsFor keccak (diff.start (s.storageTrie k)) (diff.start (f.storageTrie k)) := by
  unfold HashedStorage.start
  split
  · exact .inl .null
  · next hw =>
      cases hl : s.storageTries.lookup k with
      | some trie =>
          rw [storageTrie_of_lookup hl]
          exact h.storageTries k trie hl
      | none =>
          have hnull : f.storageTrie k = .null := by
            rcases hneed with hmem | hnull | hwiped
            · obtain ⟨trie, htrie⟩ := mem_keys_iff.mp hmem
              rw [hl] at htrie
              cases htrie
            · exact hnull
            · exact absurd hwiped hw
          rw [storageTrie, hl, hnull]
          exact .inl .null

/-- A turn over an account that stays, from the writes of its storage and of its leaf. -/
theorem updateAccount_some {h : B256} {account : Account} {storageTrie stateTrie : MptNode}
    (hstorage : updateStorage (s.storageTrie h) (post.storageOf h) = some storageTrie)
    (hstate : unwrap (s.stateTrie.insertRlp h.bytes (codec.encode (leafOf keccak account storageTrie))) =
      some stateTrie) :
    updateAccount keccak codec post s ⟨h, some account⟩ = some ⟨stateTrie, s.storageTries.insert h storageTrie⟩ :=
  Option.bind_eq_some_iff.mpr ⟨storageTrie, hstorage, Option.bind_eq_some_iff.mpr ⟨stateTrie, hstate, rfl⟩⟩

/-- One turn over the accounts goes on the whole state as on the part of it. -/
theorem updateAccount_follows :
    Follows (updateAccount keccak codec post) (updateAccount keccak codec post) (Clear post)
      (fun s f => f.Tries (FullTrieOver 64) ∧ s.Prunes keccak f) := by
  rintro s f ⟨k, account⟩ s' ⟨hf, hp⟩ hclear hu
  cases account with
  | none =>
      obtain ⟨trie, htrie, hs⟩ := Option.bind_eq_some_iff.mp hu
      obtain rfl := Option.some.inj hs
      have hturn : writeTurn s.stateTrie (k.nibs, none) = some trie := htrie
      have hno : Unhidden s.stateTrie f.stateTrie (k.nibs, none) := fun _ => hclear
      obtain ⟨trie', htrie', hfull, hpr⟩ := writeTurn_follows _ _ _ _ ⟨hf.stateTrie, hp.stateTrie⟩
        ⟨k.nibs_length, hno⟩ hturn
      refine ⟨⟨trie', f.storageTries⟩, ?_, ⟨hfull, hf.storageTries⟩, ⟨hpr, hp.storageTries⟩⟩
      exact Option.bind_eq_some_iff.mpr ⟨trie', htrie', rfl⟩
  | some account =>
      obtain ⟨hneed, halong⟩ := hclear
      obtain ⟨storageTrie, hstorage, hu⟩ := Option.bind_eq_some_iff.mp hu
      obtain ⟨stateTrie, hstate, hs⟩ := Option.bind_eq_some_iff.mp hu
      obtain rfl := Option.some.inj hs
      obtain ⟨storageTrie', hstorage', hfull, hpr⟩ := updateStorage_follows (hf.storageTrie kept_fullOver k)
        (hp.start hneed) halong hstorage
      have hturn : writeTurn s.stateTrie (k.nibs, some (codec.encode ⟨account.nonce, account.balance,
          storageTrie.hash keccak, account.getBytecodeHash⟩)) = some stateTrie := hstate
      have hno (value : Bytes) : Unhidden s.stateTrie f.stateTrie (k.nibs, some value) := by
        intro hnone
        cases hnone
      obtain ⟨stateTrie', hstate', hfull', hpr'⟩ := writeTurn_follows _ _ _ _ ⟨hf.stateTrie, hp.stateTrie⟩
        ⟨k.nibs_length, hno _⟩ hturn
      refine ⟨⟨stateTrie', f.storageTries.insert k storageTrie'⟩, ?_, ⟨hfull', ?_⟩, ⟨hpr', ?_⟩⟩
      · refine updateAccount_some hstorage' ?_
        rw [leafOf, ← hpr.hash_eq]
        exact hstate'
      · intro j trie hj
        by_cases hjk : j = k
        · rw [hjk, Finmap.lookup_insert, Option.some.injEq] at hj
          exact hj ▸ hfull
        · rw [Finmap.lookup_insert_of_ne _ hjk] at hj
          exact hf.storageTries j trie hj
      · intro j trie hj
        rw [storageTrie_insert]
        by_cases hjk : j = k
        · rw [hjk, Finmap.lookup_insert, Option.some.injEq] at hj
          rw [if_pos hjk, ← hj]
          exact hpr
        · rw [Finmap.lookup_insert_of_ne _ hjk] at hj
          rw [if_neg hjk]
          exact hp.storageTries j trie hj

theorem update_follows : Follows (update keccak codec) (update keccak codec) (ClearUpdate keccak codec)
    (fun s f => f.Tries (FullTrieOver 64) ∧ s.Prunes keccak f) := by
  intro s f post s' hsf hclear hu
  exact updateAccount_follows.foldlM hsf hclear hu

/-- In every run of updates that hides no orphan and misses no storage trie, the state that is known
in part stays a part of the whole one, and has its root. -/
theorem prunes_run (hf : f.Tries (FullTrieOver 64)) (hp : s.Prunes keccak f) {posts : List HashedPostState}
    (hclear : Along (update keccak codec) (update keccak codec) (ClearUpdate keccak codec) s f posts)
    {s' : EthereumState} (hrun : posts.foldlM (update keccak codec) s = some s') :
    ∃ f', posts.foldlM (update keccak codec) f = some f' ∧ f'.Tries (FullTrieOver 64) ∧ s'.Prunes keccak f' ∧
      s'.stateRoot keccak = f'.stateRoot keccak := by
  obtain ⟨f', hf', hfull, hpr⟩ := update_follows.foldlM ⟨hf, hp⟩ hclear hrun
  exact ⟨f', hf', hfull, hpr, hpr.stateRoot_eq⟩

end Update

section Sample

/-- A storage of two slots, the second of them cut off or not. -/
def firstSlot (value : UInt8) (second : MptNode) : MptNode :=
  splitBranch [] 0 (.leaf (toEncodedPath (List.replicate 63 0) true) [value]) 1 second

def secondSlot : MptNode := .leaf (toEncodedPath (List.replicate 63 0) true) [2]

/-- The digests of the first slot and of the storage with the values 1, 3 and 4, and of the state. -/
def firstDigests : List B256 :=
  [keptDigest,
    ⟨[0x47, 0xa3, 0xf1, 0x78, 0xf8, 0x20, 0x12, 0xb2, 0x67, 0x45, 0x84, 0x01, 0xd2, 0x36, 0xd1, 0xf9,
      0xf0, 0x3c, 0x94, 0xa3, 0x63, 0x72, 0xce, 0xb4, 0xb9, 0xa4, 0xd3, 0x4c, 0x62, 0xcf, 0x76, 0xa0], rfl⟩,
    ⟨[0x36, 0x12, 0x13, 0x39, 0x13, 0xf9, 0x90, 0x7e, 0xc8, 0xc4, 0xf7, 0x19, 0xf6, 0x58, 0x10, 0x97,
      0xb6, 0x91, 0x80, 0x66, 0x2a, 0x04, 0xe2, 0x7f, 0x5a, 0x7a, 0x0f, 0xe4, 0x0c, 0xa3, 0x7a, 0xca], rfl⟩]

def storageDigests : List B256 :=
  [twoLeavesDigest,
    ⟨[0xc9, 0xe4, 0x19, 0x3d, 0xea, 0x37, 0x42, 0xed, 0x68, 0x62, 0x33, 0x0e, 0x2e, 0xe5, 0x94, 0xe6,
      0xf5, 0xdb, 0x12, 0xdf, 0x8e, 0xe1, 0xa3, 0x65, 0xd8, 0x05, 0x27, 0x9a, 0x57, 0xb6, 0xb6, 0xc9], rfl⟩,
    ⟨[0xb9, 0x9b, 0xe5, 0xe7, 0x9a, 0xd5, 0xe8, 0x89, 0x04, 0xf8, 0x8c, 0xc7, 0xeb, 0x80, 0x56, 0xe8,
      0x12, 0xde, 0xe6, 0xf0, 0x89, 0x98, 0x7b, 0x46, 0xf8, 0x54, 0x7e, 0x5a, 0xfa, 0xc1, 0x72, 0x49], rfl⟩]

def stateDigests : List B256 :=
  [⟨[0xa5, 0x50, 0x17, 0x2b, 0xa3, 0x45, 0x22, 0xe9, 0x03, 0xcf, 0xcc, 0x2a, 0x47, 0xfc, 0x1c, 0xf7,
      0xc2, 0x74, 0x58, 0xf0, 0x26, 0xba, 0x41, 0x7e, 0x2d, 0x57, 0xf6, 0xc2, 0xb3, 0x21, 0xea, 0x06], rfl⟩,
    ⟨[0x6c, 0xa6, 0xc3, 0xff, 0x4b, 0x15, 0x12, 0x9e, 0xec, 0x5d, 0x4d, 0x48, 0xd1, 0xfb, 0xae, 0x24,
      0xd0, 0x3c, 0x39, 0xdf, 0x51, 0xe8, 0x75, 0x0a, 0x01, 0x22, 0xc9, 0xe9, 0xc6, 0x74, 0xe4, 0xaa], rfl⟩,
    ⟨[0x95, 0xba, 0xa9, 0x51, 0x04, 0x73, 0x4e, 0x21, 0xf6, 0x40, 0x27, 0x06, 0xa2, 0x18, 0x8f, 0x61,
      0x29, 0x10, 0x08, 0x36, 0x7c, 0x5e, 0x79, 0x0e, 0xe7, 0xca, 0xd2, 0xef, 0xcb, 0xee, 0x0b, 0x05], rfl⟩]

/-- The account with the nonce and the storage that it has at one of these values. -/
def ownerAt (i : Nat) : MptNode :=
  .leaf (toEncodedPath zeroKey.nibs true)
    (rlpCodec.encode ⟨.ofNat (i + 1), 1, storageDigests.getD i EMPTY_ROOT, KECCAK_EMPTY⟩)

def firstValues : List UInt8 := [1, 3, 4]

def firstKeccak : Bytes → B256 := tableKeccak ((cutLeaf, cutDigest) ::
  ((firstValues.map fun value => [0xe2, 0xa0, 0x30] ++ List.replicate 31 0 ++ [value]).zip firstDigests ++
  (firstDigests.map fun d =>
    [0xf8, 0x51, 0xa0] ++ d.bytes ++ [0xa0] ++ cutDigest.bytes ++ List.replicate 15 0x80).zip storageDigests ++
  ((List.range 3).map fun i => (ownerAt i).encode fun _ => EMPTY_ROOT).zip stateDigests))

def firstState (i : Nat) (second : MptNode) : EthereumState :=
  ⟨ownerAt i, (∅ : HashMap B256 MptNode).insert zeroKey (firstSlot (firstValues.getD i 0) second)⟩

/-- The state without the second slot. -/
def cutState (i : Nat) : EthereumState := firstState i (.digest cutDigest)

/-- What raises the nonce and writes the first slot. -/
def firstDiff (nonce : UInt64) (value : U256) : HashedPostState :=
  ⟨AList.singleton zeroKey (some ⟨nonce, 1, none⟩), Finmap.singleton zeroKey ⟨false, AList.singleton zeroKey value⟩⟩

/-- The slot is written twice, and then the account is deleted. -/
def firstRun : List HashedPostState :=
  [firstDiff 2 3, firstDiff 3 4, ⟨AList.singleton zeroKey none, ∅⟩]

theorem foldlM_singleton {σ α : Type} (step : σ → α → Option σ) (s : σ) (a : α) : [a].foldlM step s = step s a := by
  rw [List.foldlM_cons]
  exact bind_pure (step s a)

theorem children_rewritten (a b c : Option MptNode) :
    Function.update (Function.update (Function.update noChildren 0 a) 1 b) 0 c =
      Function.update (Function.update noChildren 0 c) 1 b := by
  rw [Function.update_comm (by decide), Function.update_idem]

theorem updateStorage_firstSlot (second : MptNode) :
    updateStorage (firstSlot 1 second) ⟨false, AList.singleton zeroKey 3⟩ = some (firstSlot 3 second) ∧
    updateStorage (firstSlot 3 second) ⟨false, AList.singleton zeroKey 4⟩ = some (firstSlot 4 second) :=
  ⟨congrArg (fun children => some (MptNode.branch children)) (children_rewritten _ _ _),
    congrArg (fun children => some (MptNode.branch children)) (children_rewritten _ _ _)⟩

theorem full_firstState (i : Nat) : (firstState i secondSlot).Tries (FullTrieOver 64) := by
  refine ⟨fullTrieOver_leaf zeroKey _, ?_⟩
  intro h trie hl
  obtain ⟨-, rfl⟩ := lookup_singleton_some hl
  exact fullTrieOver_pair (by decide) List.length_replicate List.length_replicate _ _

theorem reference_secondSlot : secondSlot.reference firstKeccak = .digest cutDigest := by
  rw [secondSlot, reference_cutLeaf]
  rfl

theorem prunes_cutState (i : Nat) : (cutState i).Prunes firstKeccak (firstState i secondSlot) := by
  refine ⟨.inl (.refl _), ?_⟩
  intro h trie hl
  obtain ⟨rfl, rfl⟩ := lookup_singleton_some hl
  rw [storageTrie_of_lookup (s := firstState i secondSlot) (Finmap.lookup_insert _)]
  exact .inl (pruning_branch_iff.mpr
    (pruning_branch_update (fun _ => .refl _) 1 (pruningChild_some.mpr (.cut reference_secondSlot))))

theorem update_cutState :
    (cutState 0).update firstKeccak rlpCodec (firstDiff 2 3) = some (cutState 1) ∧
    (cutState 1).update firstKeccak rlpCodec (firstDiff 3 4) = some (cutState 2) := by
  refine ⟨(foldlM_singleton _ _ _).trans ?_, (foldlM_singleton _ _ _).trans ?_⟩
  · exact updateAccount_some (updateStorage_firstSlot _).1 rfl
  · exact updateAccount_some (updateStorage_firstSlot _).2 rfl

theorem run_cutState :
    firstRun.foldlM (update firstKeccak rlpCodec) (cutState 0) = some ⟨.null, (cutState 2).storageTries⟩ := by
  rw [firstRun, List.foldlM_cons, update_cutState.1]
  change List.foldlM (update firstKeccak rlpCodec) (cutState 1) (firstDiff 3 4 :: _) = _
  rw [List.foldlM_cons, update_cutState.2]
  rfl

/-- Where the storage trie is there, a slot that is not cleared can be followed. -/
theorem clear_firstDiff (i : Nat) (f : EthereumState) (nonce : UInt64) {value : U256} (hvalue : slotValue value ≠ none) :
    ClearUpdate firstKeccak rlpCodec (cutState i) f (firstDiff nonce value) := by
  have hmem : zeroKey ∈ (cutState i).storageTries.keys := mem_keys_iff.mpr ⟨_, Finmap.lookup_insert _⟩
  refine ⟨⟨.inl hmem, ?_, fun _ _ _ _ => trivial⟩, fun _ _ _ _ => trivial⟩
  intro hnone
  exact absurd hnone hvalue

theorem along_firstRun : Along (update firstKeccak rlpCodec) (update firstKeccak rlpCodec)
    (ClearUpdate firstKeccak rlpCodec) (cutState 0) (firstState 0 secondSlot) firstRun := by
  refine ⟨clear_firstDiff 0 _ 2 nofun, ?_⟩
  intro s₁ f₁ hs₁ _
  obtain rfl := Option.some.inj (update_cutState.1.symm.trans hs₁)
  refine ⟨clear_firstDiff 1 _ 3 nofun, ?_⟩
  intro s₂ f₂ hs₂ _
  obtain rfl := Option.some.inj (update_cutState.2.symm.trans hs₂)
  refine ⟨⟨?_, fun _ _ _ _ => trivial⟩, fun _ _ _ _ => trivial⟩
  -- the leaf of the account is no branch
  intro horphan
  nomatch horphan

theorem prunes_run_firstRun : ∃ s' f', firstRun.foldlM (update firstKeccak rlpCodec) (cutState 0) = some s' ∧
    firstRun.foldlM (update firstKeccak rlpCodec) (firstState 0 secondSlot) = some f' ∧
    f'.Tries (FullTrieOver 64) ∧ s'.Prunes firstKeccak f' ∧ s'.stateRoot firstKeccak = f'.stateRoot firstKeccak := by
  obtain ⟨f', hf, hall⟩ := prunes_run (full_firstState 0) (prunes_cutState 0) along_firstRun run_cutState
  exact ⟨_, f', run_cutState, hf, hall⟩

end Sample

end EthereumState

end RethProcessor
