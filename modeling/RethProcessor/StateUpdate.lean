import RethProcessor.StateAccount
import RethProcessor.TrieSparse
import Mathlib.Data.Finmap

/-! The state: a trie of accounts and, beside it, tries of their storages. A diff updates
both, account by account; what it does at an address is told by that address alone. -/
namespace RethProcessor
open Paths Writes

/-- A hash map, up to the order it is iterated in. -/
abbrev HashMap (κ ν : Type) := Finmap fun _ : κ => ν

/-- A hash map in the order it is iterated in. -/
abbrev IteratedMap (κ ν : Type) := AList fun _ : κ => ν

structure HashedStorage where
  wiped : Bool
  storage : IteratedMap B256 U256

/-- `HashedStorage::new`. -/
def HashedStorage.new (wiped : Bool) : HashedStorage := ⟨wiped, ∅⟩

structure HashedPostState where
  accounts : IteratedMap B256 (Option Account)
  storages : HashMap B256 HashedStorage

/-- The diff of the storage at an address, an empty one where the post state has none. -/
def HashedPostState.storageOf (post : HashedPostState) (hashedAddress : B256) : HashedStorage :=
  (post.storages.lookup hashedAddress).getD (HashedStorage.new false)

structure EthereumState where
  stateTrie : MptNode
  storageTries : HashMap B256 MptNode

/-- `unwrap` on the result of a mutation: the node it leaves, unless it panics. -/
def unwrap : Mutation → Option MptNode
  | (.ok _, node) => some node
  | (.error _, _) => none

/-- One turn of the loop over the slots of a diff. -/
def writeSlot (trie : MptNode) (slot : Σ _ : B256, U256) : Option MptNode :=
  if slot.2 = 0 then unwrap (trie.delete slot.1.bytes)
  else unwrap (trie.insertRlp slot.1.bytes (encodeUint slot.2.toNat))

/-- The storage trie of an account after its diff. -/
def updateStorage (trie : MptNode) (storage : HashedStorage) : Option MptNode :=
  storage.storage.entries.foldlM writeSlot (if storage.wiped then trie.clear else trie)

namespace EthereumState

/-- `or_default`. -/
def storageTrie (s : EthereumState) (hashedAddress : B256) : MptNode :=
  (s.storageTries.lookup hashedAddress).getD default

section Keccak
variable (keccak : Bytes → B256) (codec : AccountCodec)

def stateRoot (s : EthereumState) : B256 := s.stateTrie.hash keccak

/-- One turn of the loop over the accounts of a diff. -/
def updateAccount (post : HashedPostState) (s : EthereumState) (entry : Σ _ : B256, Option Account) :
    Option EthereumState :=
  match entry.2 with
  | some account => do
      let storageTrie ← updateStorage (s.storageTrie entry.1) (post.storageOf entry.1)
      let stateAccount : TrieAccount :=
        { nonce := account.nonce
          balance := account.balance
          storageRoot := storageTrie.hash keccak
          codeHash := account.getBytecodeHash }
      let stateTrie ← unwrap (s.stateTrie.insertRlp entry.1.bytes (codec.encode stateAccount))
      some ⟨stateTrie, s.storageTries.insert entry.1 storageTrie⟩
  | none => do
      let stateTrie ← unwrap (s.stateTrie.delete entry.1.bytes)
      some { s with stateTrie }

/-- `update`: the state after a diff, unless it panics. -/
def update (s : EthereumState) (post : HashedPostState) : Option EthereumState :=
  post.accounts.entries.foldlM (updateAccount keccak codec post) s

end Keccak

end EthereumState

/-- A key of the tries, nibble by nibble. -/
def B256.nibs (d : B256) : List Nibble := toNibs d.bytes

@[simp] theorem B256.nibs_length (d : B256) : d.nibs.length = 64 := by
  rw [B256.nibs, toNibs_length, d.length_eq]

theorem B256.nibs_inj {d e : B256} : d.nibs = e.nibs ↔ d = e := by
  rw [B256.nibs, B256.nibs, toNibs_inj]
  exact ⟨B256.ext, congrArg _⟩

theorem get_eq_nibs (n : MptNode) (d : B256) : n.get d.bytes = n.getInternal d.nibs := rfl

section Writes
variable {n m : MptNode} {depth : Nat} {key : List Nibble} {w : Option Bytes}

theorem unwrap_eq_some {r : Mutation} (h : unwrap r = some m) : ∃ b, r = (.ok b, m) := by
  obtain ⟨res, node⟩ := r
  cases res with
  | error f => cases h
  | ok b =>
      cases h
      exact ⟨b, rfl⟩

theorem unwrap_write_error {f : Failure} (h : n.getInternal key = .error f) :
    unwrap (n.write key w) = none := by
  rw [write_error h]
  rfl

/-- A write that does not panic overwrites the answer to its key, and nothing else. -/
theorem CanonicalTrie.unwrap_write_some (hn : CanonicalTrie n) (h : unwrap (n.write key w) = some m) :
    CanonicalTrie m ∧ Overwrites n m key w := by
  obtain ⟨b, hb⟩ := unwrap_eq_some h
  exact hn.write_some hb

theorem SparseTrie.unwrap_write_ok (hn : SparseTrie depth n) (hkey : key.length = depth)
    {o : Option Bytes} (h : n.getInternal key = .ok o) :
    ∃ m, unwrap (n.write key w) = some m ∧ SparseTrie depth m ∧ Overwrites n m key w := by
  obtain ⟨m, hm, hs, hw⟩ := hn.write_ok hkey h w
  exact ⟨m, by rw [hm]; rfl, hs, hw⟩

/-- On a full trie no write panics. -/
theorem FullTrieOver.unwrap_write (hn : FullTrieOver depth n) (hkey : key.length = depth) :
    ∃ m, unwrap (n.write key w) = some m := by
  obtain ⟨o, ho⟩ := hn.full.answers key
  obtain ⟨m, hm, -⟩ := @SparseTrie.unwrap_write_ok n depth key w hn.sparse hkey o ho
  exact ⟨m, hm⟩

/-- A write that does not panic leaves a full trie full. -/
theorem FullTrie.unwrap_write_some (hn : FullTrie n) (h : unwrap (n.write key w) = some m) :
    FullTrie m := by
  obtain ⟨hm, hw⟩ := hn.canonical.unwrap_write_some h
  apply hm.full
  intro other
  rw [hw]
  by_cases hk : other = key
  · exact ⟨w, by rw [hk, Function.update_self]⟩
  · rw [Function.update_of_ne hk]
    exact hn.answers other

end Writes

/-- A kind of canonical tries that writes of 32-byte keys keep to, from the empty trie on. -/
structure Kept (P : MptNode → Prop) : Prop where
  canonical : ∀ {n}, P n → CanonicalTrie n
  null : P .null
  write : ∀ {n m key w}, P n → key.length = 64 → unwrap (n.write key w) = some m → P m

theorem kept_canonical : Kept CanonicalTrie where
  canonical := id
  null := .inl rfl
  write := fun hn _ h => (hn.unwrap_write_some h).1

theorem kept_full : Kept FullTrie where
  canonical := FullTrie.canonical
  null := .inl rfl
  write := fun hn _ h => hn.unwrap_write_some h

theorem kept_sparse : Kept (SparseTrie 64) where
  canonical := SparseTrie.canonical
  null := (AtDepth.null 64).sparse (.inl rfl)
  write := by
    intro n m key w hn hkey h
    cases hget : n.getInternal key with
    | error f =>
        rw [unwrap_write_error hget] at h
        cases h
    | ok o =>
        obtain ⟨m', hm, hs, -⟩ := @SparseTrie.unwrap_write_ok n 64 key w hn hkey o hget
        obtain rfl := Option.some.inj (h.symm.trans hm)
        exact hs

theorem FullTrieOver.of_sparse {depth : Nat} {n : MptNode} (hn : SparseTrie depth n) (hf : FullTrie n) :
    FullTrieOver depth n := by
  refine ⟨hf, ?_⟩
  intro key hlive
  obtain ⟨o, ho⟩ := hf.answers key
  cases o with
  | none => exact absurd ho hlive
  | some value => exact hn.stored key value ho

theorem kept_fullOver : Kept (FullTrieOver 64) where
  canonical := fun hn => hn.full.canonical
  null := .of_sparse kept_sparse.null kept_full.null
  write := fun hn hkey h => .of_sparse (kept_sparse.write hn.sparse hkey h) (kept_full.write hn.full hkey h)

/-- What a slot holds after it is written. -/
def slotValue (value : U256) : Option Bytes := if value = 0 then none else some (encodeUint value.toNat)

def slotPoint (slot : Σ _ : B256, U256) : List Nibble × Except Failure (Option Bytes) :=
  (slot.1.nibs, .ok (slotValue slot.2))

theorem writeSlot_eq (trie : MptNode) (slot : Σ _ : B256, U256) :
    writeSlot trie slot = unwrap (trie.write slot.1.nibs (slotValue slot.2)) := by
  unfold writeSlot slotValue
  split <;> rfl

/-- Where the diff of a storage starts. -/
def HashedStorage.start (storage : HashedStorage) (trie : MptNode) : MptNode :=
  if storage.wiped then .null else trie

section Slots
variable {P : MptNode → Prop} {n m : MptNode} {slots : List (Σ _ : B256, U256)}

theorem Kept.start (hP : Kept P) (hn : P n) (storage : HashedStorage) : P (storage.start n) := by
  unfold HashedStorage.start
  split
  · exact hP.null
  · exact hn

theorem Kept.foldlM_writeSlot (hP : Kept P) (hn : P n) (h : slots.foldlM writeSlot n = some m) :
    P m ∧ m.getInternal = overlay n.getInternal (slots.map slotPoint) := by
  induction slots generalizing n with
  | nil =>
      cases h
      exact ⟨hn, rfl⟩
  | cons slot slots ih =>
      rw [List.foldlM_cons, writeSlot_eq] at h
      obtain ⟨k, hk, h⟩ := Option.bind_eq_some_iff.mp h
      obtain ⟨-, hw⟩ := (hP.canonical hn).unwrap_write_some hk
      obtain ⟨hm, hview⟩ := ih (hP.write hn slot.1.nibs_length hk) h
      refine ⟨hm, ?_⟩
      rw [hview, hw]
      rfl

/-- The storage trie after a diff is the one before it, or an empty one, with the slots overwritten. -/
theorem Kept.updateStorage (hP : Kept P) (hn : P n) {storage : HashedStorage}
    (h : RethProcessor.updateStorage n storage = some m) :
    P m ∧ m.getInternal = overlay (storage.start n).getInternal (storage.storage.entries.map slotPoint) :=
  hP.foldlM_writeSlot (hP.start hn storage) h

theorem FullTrieOver.exists_writeSlot (hn : FullTrieOver 64 n) (slots : List (Σ _ : B256, U256)) :
    ∃ m, slots.foldlM writeSlot n = some m := by
  induction slots generalizing n with
  | nil => exact ⟨n, rfl⟩
  | cons slot slots ih =>
      obtain ⟨k, hk⟩ := @FullTrieOver.unwrap_write n 64 slot.1.nibs (slotValue slot.2) hn slot.1.nibs_length
      rw [List.foldlM_cons, writeSlot_eq, hk]
      exact ih (kept_fullOver.write hn slot.1.nibs_length hk)

/-- On a full storage trie no diff panics. -/
theorem FullTrieOver.exists_updateStorage (hn : FullTrieOver 64 n) (storage : HashedStorage) :
    ∃ m, updateStorage n storage = some m :=
  (kept_fullOver.start hn storage).exists_writeSlot _

end Slots

namespace EthereumState

/-- Every trie of the state is of a kind. -/
structure Tries (P : MptNode → Prop) (s : EthereumState) : Prop where
  stateTrie : P s.stateTrie
  storageTries : ∀ h trie, s.storageTries.lookup h = some trie → P trie

theorem Tries.mono {P Q : MptNode → Prop} {s : EthereumState} (hs : s.Tries P) (h : ∀ {n}, P n → Q n) :
    s.Tries Q := ⟨h hs.stateTrie, fun k trie hk => h (hs.storageTries k trie hk)⟩

theorem Tries.storageTrie {P : MptNode → Prop} {s : EthereumState} (hs : s.Tries P) (hP : Kept P)
    (h : B256) : P (s.storageTrie h) := by
  unfold EthereumState.storageTrie
  cases hl : s.storageTries.lookup h with
  | none => exact hP.null
  | some trie => exact hs.storageTries h trie hl

/-- What an update does at one address: the value it writes in the state trie, and the
storage trie it leaves there, if it touches it. -/
structure Patch where
  value : Option Bytes
  trie : Option MptNode

/-- The entries of the storage tries with the patch of an address. -/
def Patch.apply (p : Patch) (h : B256) (tries : HashMap B256 MptNode) : HashMap B256 MptNode :=
  match p.trie with
  | some trie => tries.insert h trie
  | none => tries

theorem Patch.lookup_self (p : Patch) (h : B256) (tries : HashMap B256 MptNode) :
    (p.apply h tries).lookup h = p.trie.or (tries.lookup h) := by
  unfold Patch.apply
  cases p.trie with
  | none => rfl
  | some trie => simp

theorem Patch.lookup_of_ne (p : Patch) {h k : B256} (hk : k ≠ h) (tries : HashMap B256 MptNode) :
    (p.apply h tries).lookup k = tries.lookup k := by
  unfold Patch.apply
  cases p.trie with
  | none => rfl
  | some trie => simp [hk]

section Keccak
variable (keccak : Bytes → B256) (codec : AccountCodec)

def leafOf (account : Account) (storageTrie : MptNode) : TrieAccount :=
  ⟨account.nonce, account.balance, storageTrie.hash keccak, account.getBytecodeHash⟩

/-- The patch of an address, from the storage trie there. -/
def patchOf (diff : HashedStorage) (storageTrie : MptNode) : Option Account → Option Patch
  | some account => (updateStorage storageTrie diff).map fun trie =>
      ⟨some (codec.encode (leafOf keccak account trie)), some trie⟩
  | none => some ⟨none, none⟩

variable {keccak codec} {post : HashedPostState} {s s' : EthereumState} {P : MptNode → Prop}

theorem updateAccount_eq (entry : Σ _ : B256, Option Account) :
    updateAccount keccak codec post s entry =
      (patchOf keccak codec (post.storageOf entry.1) (s.storageTrie entry.1) entry.2).bind fun p =>
        (unwrap (s.stateTrie.write entry.1.nibs p.value)).map fun trie =>
          ⟨trie, p.apply entry.1 s.storageTries⟩ := by
  obtain ⟨h, account⟩ := entry
  cases account with
  | none =>
      simp only [updateAccount, patchOf, Option.bind_some, MptNode.write, Patch.apply, bind,
        Option.map_eq_bind]
      rfl
  | some account =>
      simp only [updateAccount, patchOf, bind, Option.map_eq_bind, Option.bind_assoc, leafOf]
      rfl

/-- At its address an update does what the address alone tells. -/
def PatchedAt (keccak : Bytes → B256) (codec : AccountCodec) (post : HashedPostState)
    (s s' : EthereumState) (h : B256) (account : Option Account) : Prop :=
  ∃ p, patchOf keccak codec (post.storageOf h) (s.storageTrie h) account = some p ∧
    s'.stateTrie.get h.bytes = .ok p.value ∧ s'.storageTries.lookup h = p.trie.or (s.storageTries.lookup h)

/-- What the state has at an address is the same in both. -/
structure SameAt (s s' : EthereumState) (h : B256) : Prop where
  get : s'.stateTrie.get h.bytes = s.stateTrie.get h.bytes
  lookup : s'.storageTries.lookup h = s.storageTries.lookup h

theorem storageTrie_congr {h : B256} (hl : s'.storageTries.lookup h = s.storageTries.lookup h) :
    s'.storageTrie h = s.storageTrie h := by
  rw [storageTrie, hl, storageTrie]

theorem patchOf_kept (hP : Kept P) {diff : HashedStorage} {trie : MptNode} (htrie : P trie)
    {account : Option Account} {p : Patch} (h : patchOf keccak codec diff trie account = some p)
    {after : MptNode} (hp : p.trie = some after) : P after := by
  cases account with
  | none =>
      cases h
      cases hp
  | some account =>
      obtain ⟨trie', ht, rfl⟩ := Option.map_eq_some_iff.mp h
      cases hp
      exact (hP.updateStorage htrie ht).1

/-- One turn of the loop: a patch at the address, and everything else as before. -/
theorem Tries.updateAccount (hs : s.Tries P) (hP : Kept P) {entry : Σ _ : B256, Option Account}
    (h : EthereumState.updateAccount keccak codec post s entry = some s') :
    s'.Tries P ∧ PatchedAt keccak codec post s s' entry.1 entry.2 ∧ ∀ k, k ≠ entry.1 → SameAt s s' k := by
  rw [updateAccount_eq] at h
  obtain ⟨p, hp, h⟩ := Option.bind_eq_some_iff.mp h
  obtain ⟨trie, htrie, rfl⟩ := Option.map_eq_some_iff.mp h
  have hkept := hP.write hs.stateTrie entry.1.nibs_length htrie
  obtain ⟨-, hw⟩ := (hP.canonical hs.stateTrie).unwrap_write_some htrie
  refine ⟨⟨hkept, ?_⟩, ⟨p, hp, ?_, p.lookup_self _ _⟩, fun k hk => ⟨?_, p.lookup_of_ne hk _⟩⟩
  · intro k after hk
    by_cases hke : k = entry.1
    · subst hke
      simp only [p.lookup_self] at hk
      cases hpt : p.trie with
      | none => exact hs.storageTries _ _ (by simpa [hpt] using hk)
      | some t =>
          rw [hpt, Option.some_or, Option.some.injEq] at hk
          exact patchOf_kept hP (hs.storageTrie hP _) hp (hpt.trans (congrArg some hk))
    · exact hs.storageTries k after (by rwa [← p.lookup_of_ne hke])
  · rw [get_eq_nibs, hw, Function.update_self]
  · rw [get_eq_nibs, hw, Function.update_of_ne (fun h => hk (B256.nibs_inj.mp h)), get_eq_nibs]

/-- The whole loop: a patch at each address of the diff, and everything else as before. -/
theorem Tries.foldlM_updateAccount {entries : List (Σ _ : B256, Option Account)} (hs : s.Tries P)
    (hn : entries.NodupKeys) (hP : Kept P)
    (h : entries.foldlM (EthereumState.updateAccount keccak codec post) s = some s') :
    s'.Tries P ∧ (∀ entry ∈ entries, PatchedAt keccak codec post s s' entry.1 entry.2) ∧
      ∀ k, k ∉ entries.keys → SameAt s s' k := by
  induction entries generalizing s with
  | nil =>
      cases h
      exact ⟨hs, by simp, fun k _ => ⟨rfl, rfl⟩⟩
  | cons entry entries ih =>
      rw [List.foldlM_cons] at h
      obtain ⟨s₁, h₁, h⟩ := Option.bind_eq_some_iff.mp h
      obtain ⟨hs₁, hat, hsame⟩ := hs.updateAccount hP h₁
      rw [List.nodupKeys_cons] at hn
      obtain ⟨hs', hats, hsames⟩ := ih hs₁ hn.2 h
      refine ⟨hs', ?_, ?_⟩
      · intro e he
        rcases List.mem_cons.mp he with rfl | he
        · obtain ⟨p, hp, hget, hlook⟩ := hat
          have hlast := hsames e.1 hn.1
          exact ⟨p, hp, hlast.get.trans hget, hlast.lookup.trans hlook⟩
        · have hne : e.1 ≠ entry.1 := by
            rintro heq
            exact hn.1 (heq ▸ List.mem_keys_of_mem he)
          obtain ⟨p, hp, hget, hlook⟩ := hats e he
          have hfirst := hsame e.1 hne
          exact ⟨p, by rwa [← storageTrie_congr hfirst.lookup], hget, by rw [hlook, hfirst.lookup]⟩
      · intro k hk
        simp only [List.keys_cons, List.mem_cons, not_or] at hk
        have hfirst := hsame k hk.1
        have hlast := hsames k hk.2
        exact ⟨hlast.get.trans hfirst.get, hlast.lookup.trans hfirst.lookup⟩

/-- An update, address by address. -/
theorem Tries.update (hs : s.Tries P) (hP : Kept P) (h : s.update keccak codec post = some s') :
    s'.Tries P ∧
      (∀ k account, post.accounts.lookup k = some account → PatchedAt keccak codec post s s' k account) ∧
      ∀ k, post.accounts.lookup k = none → SameAt s s' k := by
  obtain ⟨hs', hat, hsame⟩ := hs.foldlM_updateAccount post.accounts.nodupKeys hP h
  refine ⟨hs', fun k account hk => hat ⟨k, account⟩ ?_, fun k hk => hsame k ?_⟩
  · exact List.of_mem_dlookup hk
  · exact List.dlookup_eq_none.mp hk

theorem Tries.exists_patchOf (hs : s.Tries (FullTrieOver 64)) (h : B256) (account : Option Account) :
    ∃ p, patchOf keccak codec (post.storageOf h) (s.storageTrie h) account = some p := by
  cases account with
  | none => exact ⟨_, rfl⟩
  | some account =>
      obtain ⟨trie, ht⟩ := (hs.storageTrie kept_fullOver h).exists_updateStorage (post.storageOf h)
      exact ⟨_, by rw [patchOf, ht]; rfl⟩

theorem Tries.exists_updateAccount (hs : s.Tries (FullTrieOver 64)) (entry : Σ _ : B256, Option Account) :
    ∃ s', EthereumState.updateAccount keccak codec post s entry = some s' := by
  obtain ⟨p, hp⟩ := @Tries.exists_patchOf keccak codec post s hs entry.1 entry.2
  obtain ⟨trie, ht⟩ := @FullTrieOver.unwrap_write _ 64 entry.1.nibs p.value hs.stateTrie entry.1.nibs_length
  exact ⟨_, by rw [updateAccount_eq, hp, Option.bind_some, ht]; rfl⟩

/-- On tries over 32-byte keys that are known in full no diff panics. -/
theorem Tries.exists_update (hs : s.Tries (FullTrieOver 64)) (post : HashedPostState) :
    ∃ s', s.update keccak codec post = some s' := by
  have hfold (entries : List (Σ _ : B256, Option Account)) : ∀ {s : EthereumState}, s.Tries (FullTrieOver 64) →
      ∃ s', entries.foldlM (EthereumState.updateAccount keccak codec post) s = some s' := by
    induction entries with
    | nil => exact fun _ => ⟨_, rfl⟩
    | cons entry entries ih =>
        intro s hs
        obtain ⟨s₁, h₁⟩ := @Tries.exists_updateAccount keccak codec post s hs entry
        rw [List.foldlM_cons, h₁]
        exact ih (hs.updateAccount kept_fullOver h₁).1
  exact hfold _ hs

end Keccak

end EthereumState

section Sample

/-- Two addresses, or slots. -/
def zeroKey : B256 := ⟨List.replicate 32 0, rfl⟩
def otherKey : B256 := ⟨0x10 :: List.replicate 31 0, rfl⟩

/-- A storage of one slot. -/
def oneSlot (value : UInt8) : MptNode := .leaf (toEncodedPath zeroKey.nibs true) [value]

/-- Its encoding. -/
def slotEncoding (value : UInt8) : Bytes := [0xe3, 0xa1, 0x20] ++ List.replicate 32 0 ++ [value]

/-- The digests of the storages with the values 1 and 2. -/
def slotKeccak : Bytes → B256 := tableKeccak
  [(slotEncoding 1, ⟨[0x64, 0x0f, 0x98, 0x7e, 0x34, 0x9a, 0x18, 0xe7, 0xeb, 0x07, 0xc1, 0x4f, 0x9f, 0x79, 0xfd, 0xc3,
      0xb6, 0x94, 0x49, 0x40, 0x2a, 0x2a, 0xca, 0x7e, 0xdf, 0x3d, 0x3c, 0x36, 0x52, 0x7a, 0x00, 0x0a], rfl⟩),
    (slotEncoding 2, ⟨[0x36, 0xcd, 0xf9, 0xb4, 0x73, 0xb5, 0x40, 0x1d, 0x0a, 0xde, 0xfa, 0x0c, 0x29, 0x01, 0x43, 0xf7,
      0x05, 0x64, 0x90, 0xe1, 0x33, 0xc7, 0x37, 0x93, 0x31, 0xda, 0x14, 0x70, 0x1c, 0x37, 0xe5, 0xf7], rfl⟩)]

/-- A state of one account, whose storage is the one of one slot. -/
def oneAccount (tries : HashMap B256 MptNode) : EthereumState where
  stateTrie := .leaf (toEncodedPath zeroKey.nibs true)
    (rlpCodec.encode ⟨1, 1, (oneSlot 1).hash slotKeccak, KECCAK_EMPTY⟩)
  storageTries := tries

theorem fullTrieOver_leaf (key : B256) (value : Bytes) :
    FullTrieOver 64 (.leaf (toEncodedPath key.nibs true) value) := by
  refine ⟨.inr (.leaf _ _), ?_⟩
  intro k hk
  rw [hk.leaf_path, B256.nibs_length]

theorem lookup_singleton_some {ν : Type} {h k : B256} {v w : ν}
    (hl : (Finmap.singleton h v : HashMap B256 ν).lookup k = some w) : k = h ∧ v = w := by
  have hm : k ∈ (Finmap.singleton h v : HashMap B256 ν) := Finmap.mem_of_lookup_eq_some hl
  obtain rfl : k = h := by simpa using hm
  rw [Finmap.lookup_singleton_eq, Option.some.injEq] at hl
  exact ⟨rfl, hl⟩

theorem full_oneAccount {tries : HashMap B256 MptNode}
    (h : tries = ∅ ∨ tries = Finmap.singleton zeroKey (oneSlot 1)) :
    (oneAccount tries).Tries (FullTrieOver 64) := by
  refine ⟨fullTrieOver_leaf _ _, ?_⟩
  intro k trie hk
  rcases h with rfl | rfl
  · simp [oneAccount] at hk
  · obtain ⟨-, rfl⟩ := lookup_singleton_some hk
    exact fullTrieOver_leaf _ _

end Sample

end RethProcessor
