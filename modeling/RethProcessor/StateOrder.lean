import RethProcessor.StateUpdate

/-! The order in which the maps of a diff are iterated does not matter: writes of different
keys of a sparse trie commute, and so do the turns of the loop over the accounts. -/
namespace RethProcessor
open Paths Writes

/-- The same diff of a storage, iterated in another order. -/
structure HashedStorage.Reordered (a b : HashedStorage) : Prop where
  wiped : a.wiped = b.wiped
  storage : a.storage.entries.Perm b.storage.entries

/-- The same diff, with all its maps iterated in another order. -/
structure HashedPostState.Reordered (a b : HashedPostState) : Prop where
  accounts : a.accounts.entries.Perm b.accounts.entries
  storages : ∀ h, Option.Rel HashedStorage.Reordered (a.storages.lookup h) (b.storages.lookup h)

/-- The same diff, iterated in another order, and perhaps without deletions of accounts that are not there. -/
structure HashedPostState.Drops (absent : B256 → Prop) (a b : HashedPostState) : Prop where
  accounts : ∀ h, b.accounts.lookup h = a.accounts.lookup h ∨
    absent h ∧ a.accounts.lookup h = some none ∧ b.accounts.lookup h = none
  storages : ∀ h account, a.accounts.lookup h = some (some account) → (a.storageOf h).Reordered (b.storageOf h)

/-- Writes of different keys commute, panics included. -/
theorem SparseTrie.write_comm {depth : Nat} {n : MptNode} (hn : SparseTrie depth n) {k l : List Nibble}
    (hk : k.length = depth) (hl : l.length = depth) (hkl : k ≠ l) (v w : Option Bytes) :
    ((unwrap (n.write k v)).bind fun m => unwrap (m.write l w)) =
      (unwrap (n.write l w)).bind fun m => unwrap (m.write k v) := by
  have hother {m : MptNode} {i j : List Nibble} {u : Option Bytes} (hij : j ≠ i) (hm : Overwrites n m i u) :
      m.getInternal j = n.getInternal j := by
    rw [hm, Function.update_of_ne hij]
  cases hgk : n.getInternal k with
  | error f =>
      rw [unwrap_write_error hgk, Option.bind_none]
      cases hgl : n.getInternal l with
      | error g => rw [unwrap_write_error hgl, Option.bind_none]
      | ok o =>
          obtain ⟨m, hm, -, hw⟩ := @SparseTrie.unwrap_write_ok n depth l w hn hl o hgl
          rw [hm, Option.bind_some, unwrap_write_error ((hother hkl hw).trans hgk)]
  | ok o =>
      obtain ⟨m, hm, hsm, hv⟩ := @SparseTrie.unwrap_write_ok n depth k v hn hk o hgk
      rw [hm, Option.bind_some]
      cases hgl : n.getInternal l with
      | error g =>
          rw [unwrap_write_error hgl, unwrap_write_error ((hother hkl.symm hv).trans hgl), Option.bind_none]
      | ok o' =>
          obtain ⟨m', hm', hsm', hw⟩ := @SparseTrie.unwrap_write_ok n depth l w hn hl o' hgl
          obtain ⟨a, ha, hsa, hva⟩ := @SparseTrie.unwrap_write_ok m depth l w hsm hl o'
            ((hother hkl.symm hv).trans hgl)
          obtain ⟨b, hb, hsb, hvb⟩ := @SparseTrie.unwrap_write_ok m' depth k v hsm' hk o
            ((hother hkl hw).trans hgk)
          rw [hm', Option.bind_some, ha, hb, Option.some.injEq]
          apply hsa.canonical.ext_view hsb.canonical
          intro key
          rw [hva, hvb, hv, hw, Function.update_comm hkl]

/-- The loop over the slots may take them in any order. -/
theorem updateStorage_reorder {n : MptNode} (hn : SparseTrie 64 n) {a b : HashedStorage}
    (h : a.Reordered b) : updateStorage n a = updateStorage n b := by
  unfold updateStorage
  rw [h.wiped]
  refine foldlM_perm (R := fun x y : Σ _ : B256, U256 => x.1 ≠ y.1) (fun hxy => hxy.symm)
    (fun hs hstep => ?_) (fun hs hxy => ?_) h.storage (List.nodupKeys_iff_pairwise.mp a.storage.nodupKeys)
    (kept_sparse.start hn b)
  · rw [writeSlot_eq] at hstep
    exact kept_sparse.write hs (B256.nibs_length _) hstep
  · simp only [twice, writeSlot_eq]
    exact hs.write_comm (B256.nibs_length _) (B256.nibs_length _) (fun h => hxy (B256.nibs_inj.mp h)) _ _

namespace EthereumState

section Keccak
variable {keccak : Bytes → B256} {codec : AccountCodec} {post post' : HashedPostState} {s : EthereumState}

theorem storageOf_reorder (h : post.Reordered post') (k : B256) :
    (post.storageOf k).Reordered (post'.storageOf k) := by
  unfold HashedPostState.storageOf
  have hk := h.storages k
  generalize post.storages.lookup k = a at hk
  generalize post'.storages.lookup k = b at hk
  cases hk with
  | some hab => exact hab
  | none => exact ⟨rfl, .refl _⟩

/-- The patch of an address is the same in any order. -/
theorem patchOf_reorder {trie : MptNode} (htrie : SparseTrie 64 trie) (h : post.Reordered post')
    (k : B256) (account : Option Account) :
    patchOf keccak codec (post.storageOf k) trie account =
      patchOf keccak codec (post'.storageOf k) trie account := by
  cases account with
  | none => rfl
  | some account => simp only [patchOf, updateStorage_reorder htrie (storageOf_reorder h k)]

theorem storageTrie_apply_of_ne {trie : MptNode} {p : Patch} {h k : B256} (hk : k ≠ h) :
    storageTrie ⟨trie, p.apply h s.storageTries⟩ k = s.storageTrie k := by
  simp only [storageTrie, p.lookup_of_ne hk]

theorem apply_comm {p q : Patch} {h k : B256} (hk : h ≠ k) (tries : HashMap B256 MptNode) :
    p.apply h (q.apply k tries) = q.apply k (p.apply h tries) := by
  unfold Patch.apply
  cases p.trie with
  | none => rfl
  | some a =>
      cases q.trie with
      | none => rfl
      | some b => exact Finmap.insert_insert_of_ne _ hk.symm

/-- The turns of two addresses commute. -/
theorem updateAccount_comm (hs : s.Tries (SparseTrie 64)) {x y : Σ _ : B256, Option Account} (hxy : x.1 ≠ y.1) :
    twice (updateAccount keccak codec post) s x y = twice (updateAccount keccak codec post) s y x := by
  have hone {x y : Σ _ : B256, Option Account} (hxy : x.1 ≠ y.1) :
      twice (updateAccount keccak codec post) s x y =
        (patchOf keccak codec (post.storageOf x.1) (s.storageTrie x.1) x.2).bind fun p =>
          (patchOf keccak codec (post.storageOf y.1) (s.storageTrie y.1) y.2).bind fun q =>
            ((unwrap (s.stateTrie.write x.1.nibs p.value)).bind fun m =>
              unwrap (m.write y.1.nibs q.value)).map fun m =>
                ⟨m, q.apply y.1 (p.apply x.1 s.storageTries)⟩ := by
    simp only [twice, updateAccount_eq]
    cases patchOf keccak codec (post.storageOf x.1) (s.storageTrie x.1) x.2 with
    | none => rfl
    | some p =>
        simp only [Option.bind_some]
        cases unwrap (s.stateTrie.write x.1.nibs p.value) with
        | none =>
            cases patchOf keccak codec (post.storageOf y.1) (s.storageTrie y.1) y.2 <;> rfl
        | some m => simp only [Option.map_some, Option.bind_some, storageTrie_apply_of_ne hxy.symm]
  rw [hone hxy, hone hxy.symm]
  cases patchOf keccak codec (post.storageOf x.1) (s.storageTrie x.1) x.2 with
  | none => cases patchOf keccak codec (post.storageOf y.1) (s.storageTrie y.1) y.2 <;> rfl
  | some p =>
      cases patchOf keccak codec (post.storageOf y.1) (s.storageTrie y.1) y.2 with
      | none => rfl
      | some q =>
          simp only [Option.bind_some]
          rw [hs.stateTrie.write_comm (B256.nibs_length _) (B256.nibs_length _)
            (fun h => hxy (B256.nibs_inj.mp h)), apply_comm hxy]

/-- On sparse canonical tries an update has one outcome, a panic or a state, whatever the
order in which the maps of the diff are iterated. -/
theorem update_reorder (hs : s.Tries (SparseTrie 64)) (h : post.Reordered post') :
    s.update keccak codec post = s.update keccak codec post' := by
  have hstep {s t : EthereumState} {x : Σ _ : B256, Option Account} (hs : s.Tries (SparseTrie 64))
      (hx : updateAccount keccak codec post s x = some t) : t.Tries (SparseTrie 64) :=
    (hs.updateAccount kept_sparse hx).1
  calc
    s.update keccak codec post = post'.accounts.entries.foldlM (updateAccount keccak codec post) s :=
      @foldlM_perm _ _ (updateAccount keccak codec post) (Tries (SparseTrie 64)) (fun x y => x.1 ≠ y.1)
        (fun hxy => hxy.symm) hstep (fun hs hxy => updateAccount_comm hs hxy) _ _ h.accounts
        (List.nodupKeys_iff_pairwise.mp post.accounts.nodupKeys) _ hs
    _ = s.update keccak codec post' := by
      refine foldlM_congr hstep (?_) hs
      intro s hs x _
      simp only [updateAccount_eq, patchOf_reorder (hs.storageTrie kept_sparse _) h]

/-- The deletion of an account that a lookup does not find leaves the state as it is, if it goes through. -/
theorem updateAccount_absent (hs : s.Tries (SparseTrie 64)) {h : B256}
    (habsent : ∀ value, s.stateTrie.get h.bytes ≠ .ok (some value)) {s' : EthereumState}
    (hu : updateAccount keccak codec post s ⟨h, none⟩ = some s') : s' = s := by
  rw [updateAccount_eq] at hu
  obtain ⟨p, hp, hu⟩ := Option.bind_eq_some_iff.mp hu
  obtain ⟨trie, htrie, rfl⟩ := Option.map_eq_some_iff.mp hu
  obtain rfl := Option.some.inj hp
  cases hget : s.stateTrie.getInternal h.nibs with
  | error f =>
      rw [unwrap_write_error hget] at htrie
      cases htrie
  | ok o =>
      have ho : o = none := by
        cases o with
        | none => rfl
        | some value => exact absurd hget (habsent value)
      obtain ⟨m, hm, hsm, hw⟩ := @SparseTrie.unwrap_write_ok _ 64 h.nibs none hs.stateTrie h.nibs_length o hget
      obtain rfl := Option.some.inj (hm.symm.trans htrie)
      have hsame : m = s.stateTrie := by
        apply hsm.canonical.ext_view hs.stateTrie.canonical
        intro key
        rw [hw, ← ho, ← hget, Function.update_eq_self]
      rw [hsame]
      rfl

/-- The entries that are left of a diff are those of the other one, in some order. -/
theorem perm_of_drops {absent : B256 → Prop} (h : post.Drops absent post') :
    (post.accounts.entries.filter fun entry => decide (entry.1 ∈ post'.accounts)).Perm post'.accounts.entries := by
  refine (List.perm_ext_iff_of_nodup (post.accounts.nodupKeys.nodup.filter _) post'.accounts.nodupKeys.nodup).mpr ?_
  rintro ⟨k, account⟩
  rw [List.mem_filter, decide_eq_true_eq, ← AList.mem_lookup_iff, ← AList.mem_lookup_iff, Option.mem_def, Option.mem_def,
    ← AList.lookup_isSome]
  rcases h.accounts k with hsame | ⟨-, hdeleted, hnone⟩
  · rw [hsame]
    exact ⟨fun hk => hk.1, fun hk => ⟨hk, Option.isSome_of_mem hk⟩⟩
  · rw [hnone]
    exact ⟨fun hk => absurd hk.2 Bool.false_ne_true, fun hk => nomatch hk⟩

/-- Where an update goes through, the diff may leave out deletions of accounts that are not there. -/
theorem update_drops {absent : B256 → Prop} (hs : s.Tries (SparseTrie 64)) (h : post.Drops absent post')
    (habsent : ∀ k, absent k → ∀ value, s.stateTrie.get k.bytes ≠ .ok (some value)) {s' : EthereumState}
    (hu : s.update keccak codec post = some s') : s.update keccak codec post' = some s' := by
  have hstep {s t : EthereumState} {x : Σ _ : B256, Option Account} (hs : s.Tries (SparseTrie 64))
      (hx : updateAccount keccak codec post s x = some t) : t.Tries (SparseTrie 64) :=
    (hs.updateAccount kept_sparse hx).1
  let Pending (entries : List (Σ _ : B256, Option Account)) (s : EthereumState) : Prop := s.Tries (SparseTrie 64) ∧
    entries.NodupKeys ∧ ∀ entry ∈ entries, decide (entry.1 ∈ post'.accounts) = false →
      entry.2 = none ∧ ∀ value, s.stateTrie.get entry.1.bytes ≠ .ok (some value)
  have hstart : Pending post.accounts.entries s := by
    refine ⟨hs, post.accounts.nodupKeys, ?_⟩
    rintro ⟨k, account⟩ hentry hout
    have hlookup := AList.mem_lookup_iff.mpr hentry
    rcases h.accounts k with hsame | ⟨hk, hdeleted, -⟩
    · rw [decide_eq_false_iff_not, ← AList.lookup_isSome, hsame, hlookup] at hout
      exact absurd rfl hout
    · exact ⟨Option.some.inj (hlookup.symm.trans hdeleted), habsent k hk⟩
  have hnext {s t : EthereumState} {x : Σ _ : B256, Option Account} {entries : List (Σ _ : B256, Option Account)}
      (hp : Pending (x :: entries) s) (hx : updateAccount keccak codec post s x = some t) : Pending entries t := by
    obtain ⟨hs, hkeys, hall⟩ := hp
    rw [List.nodupKeys_cons] at hkeys
    refine ⟨hstep hs hx, hkeys.2, ?_⟩
    intro entry hentry hout
    have hne : entry.1 ≠ x.1 := by
      intro heq
      exact hkeys.1 (heq ▸ List.mem_keys_of_mem hentry)
    rw [((hs.updateAccount kept_sparse hx).2.2 entry.1 hne).get]
    exact hall entry (List.mem_cons_of_mem _ hentry) hout
  have hdrop {s t : EthereumState} {x : Σ _ : B256, Option Account} {entries : List (Σ _ : B256, Option Account)}
      (hp : Pending (x :: entries) s) (hout : decide (x.1 ∈ post'.accounts) = false)
      (hx : updateAccount keccak codec post s x = some t) : t = s := by
    obtain ⟨hs, -, hall⟩ := hp
    obtain ⟨hnone, hget⟩ := hall x List.mem_cons_self hout
    obtain ⟨k, account⟩ := x
    obtain rfl : account = none := hnone
    exact updateAccount_absent hs hget hx
  have hleft : (post.accounts.entries.filter fun entry => decide (entry.1 ∈ post'.accounts)).foldlM
      (updateAccount keccak codec post) s = some s' := foldlM_filter (I := Pending) hnext hdrop hstart hu
  have hsame {s : EthereumState} (hs : s.Tries (SparseTrie 64)) {x : Σ _ : B256, Option Account}
      (hx : x ∈ post'.accounts.entries) : updateAccount keccak codec post s x = updateAccount keccak codec post' s x := by
    obtain ⟨k, account⟩ := x
    rw [updateAccount_eq, updateAccount_eq]
    cases account with
    | none => rfl
    | some account =>
        have hlookup := AList.mem_lookup_iff.mpr hx
        have hpost : post.accounts.lookup k = some (some account) := by
          rcases h.accounts k with hsame | ⟨-, -, hnone⟩
          · exact hsame.symm.trans hlookup
          · exact absurd (hnone.symm.trans hlookup) (Option.some_ne_none _).symm
        have hstorage := h.storages k account hpost
        simp only [patchOf, updateStorage_reorder (hs.storageTrie kept_sparse k) hstorage]
  calc
    s.update keccak codec post' = post'.accounts.entries.foldlM (updateAccount keccak codec post) s :=
      (foldlM_congr hstep (fun _ hs _ hx => hsame hs hx) hs).symm
    _ = (post.accounts.entries.filter fun entry => decide (entry.1 ∈ post'.accounts)).foldlM
          (updateAccount keccak codec post) s :=
      (@foldlM_perm _ _ (updateAccount keccak codec post) (Tries (SparseTrie 64)) (fun x y => x.1 ≠ y.1)
        (fun hxy => hxy.symm) hstep (fun hs hxy => updateAccount_comm hs hxy) _ _ (perm_of_drops h)
        ((List.nodupKeys_iff_pairwise.mp post.accounts.nodupKeys).filter _) _ hs).symm
    _ = some s' := hleft

end Keccak

/-- A map of two entries, in this order. -/
def twoEntries {ν : Type} (a b : Σ _ : B256, ν) (h : a.1 ≠ b.1) : IteratedMap B256 ν :=
  ⟨[a, b], by simp [List.nodupKeys_cons, h]⟩

theorem update_reorder_two :
    (oneAccount (Finmap.singleton zeroKey (oneSlot 1))).update slotKeccak rlpCodec
        ⟨twoEntries ⟨zeroKey, some ⟨2, 1, none⟩⟩ ⟨otherKey, none⟩ (by decide),
          Finmap.singleton zeroKey ⟨false, twoEntries ⟨zeroKey, 2⟩ ⟨otherKey, 0⟩ (by decide)⟩⟩ =
      (oneAccount (Finmap.singleton zeroKey (oneSlot 1))).update slotKeccak rlpCodec
        ⟨twoEntries ⟨otherKey, none⟩ ⟨zeroKey, some ⟨2, 1, none⟩⟩ (by decide),
          Finmap.singleton zeroKey ⟨false, twoEntries ⟨otherKey, 0⟩ ⟨zeroKey, 2⟩ (by decide)⟩⟩ := by
  refine update_reorder ((full_oneAccount (.inr rfl)).mono FullTrieOver.sparse) ⟨.swap _ _ _, ?_⟩
  intro h
  by_cases hz : h = zeroKey
  · subst hz
    rw [Finmap.lookup_singleton_eq, Finmap.lookup_singleton_eq]
    exact .some ⟨rfl, .swap _ _ _⟩
  · have hnone (d : HashedStorage) : (Finmap.singleton zeroKey d : HashMap B256 HashedStorage).lookup h = none :=
      Finmap.lookup_eq_none.mpr fun hm => hz ((Finmap.mem_singleton h zeroKey d).mp hm)
    rw [hnone, hnone]
    exact .none

end EthereumState

end RethProcessor
