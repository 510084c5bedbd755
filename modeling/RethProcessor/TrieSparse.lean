import RethProcessor.TrieMap
import RethProcessor.Writes

/-! Sparse tries over keys of one length: lookups fail below a digest and nowhere else, and
an update either fails as the lookup of its key does, or overwrites that lookup. -/
namespace RethProcessor
open Paths Writes

/-- The leaves below the node all lie `depth` nibbles down, and no digest lies deeper. -/
inductive AtDepth : Nat → MptNode → Prop
  | null (depth : Nat) : AtDepth depth .null
  | branch {depth : Nat} {children : Nibble → Option MptNode} :
      (∀ i c, children i = some c → AtDepth depth c) → AtDepth (depth + 1) (.branch children)
  | leaf (ns : List Nibble) (value : Bytes) : AtDepth ns.length (.leaf (toEncodedPath ns true) value)
  | extension (ns : List Nibble) {depth : Nat} {child : MptNode} : AtDepth depth child →
      AtDepth (ns.length + depth) (.extension (toEncodedPath ns false) child)
  | digest (depth : Nat) (d : B256) : AtDepth depth (.digest d)

/-- A canonical trie, with digests in it, over keys of `depth` nibbles. -/
structure SparseTrie (depth : Nat) (n : MptNode) : Prop where
  canonical : CanonicalTrie n
  stored : ∀ key value, n.getInternal key = .ok (some value) → key.length = depth
  hidden : ∀ key f, n.getInternal key = .error f →
    ∃ short, short <+: key ∧ short.length ≤ depth ∧ n.getInternal short = .error f

/-- A full trie whose keys all have `depth` nibbles. -/
structure FullTrieOver (depth : Nat) (n : MptNode) : Prop where
  full : FullTrie n
  length : ∀ key, Live n key → key.length = depth

/-- An update by nibbles: an insertion or a deletion. -/
def MptNode.write (n : MptNode) (key : List Nibble) : Option Bytes → Mutation
  | some value => n.insertInternal key value
  | none => n.deleteInternal key

/-- Below a digest every lookup fails as at the digest. -/
theorem Canonical.error_append {n : MptNode} (hn : Canonical n) {key : List Nibble} {f : Failure}
    (h : n.getInternal key = .error f) (rest : List Nibble) :
    n.getInternal (key ++ rest) = .error f := by
  induction hn generalizing key with
  | leaf ns value => simp at h
  | digest d => exact h
  | @branch children i j _ _ _ _ ih =>
      cases key with
      | nil => cases h
      | cons x tail =>
          rw [getInternal_branch_cons] at h
          rw [List.cons_append, getInternal_branch_cons]
          cases hx : children x with
          | none => simp [hx] at h
          | some c =>
              rw [hx, getChild_some] at h
              rw [getChild_some]
              exact ih x c hx h
  | @extension ns child _ _ _ ih =>
      by_cases hpre : ns <+: key
      · obtain ⟨tail, rfl⟩ := hpre
        rw [getInternal_extension_append] at h
        rw [List.append_assoc, getInternal_extension_append]
        exact ih h
      · rw [getInternal_extension_of_not hpre] at h
        cases h

theorem CanonicalTrie.error_append {n : MptNode} (hn : CanonicalTrie n) {key : List Nibble}
    {f : Failure} (h : n.getInternal key = .error f) (rest : List Nibble) :
    n.getInternal (key ++ rest) = .error f := by
  rcases hn with rfl | hn
  · cases h
  · exact hn.error_append h rest

theorem AtDepth.stored {depth : Nat} {n : MptNode} (h : AtDepth depth n) {key : List Nibble}
    {value : Bytes} (hk : n.getInternal key = .ok (some value)) : key.length = depth := by
  induction h generalizing key with
  | null | digest => cases hk
  | leaf ns v =>
      by_cases hns : ns = key
      · rw [hns]
      · simp [hns] at hk
  | @branch depth children _ ih =>
      cases key with
      | nil => simp at hk
      | cons i tail =>
          rw [getInternal_branch_cons] at hk
          cases hc : children i with
          | none => simp [hc] at hk
          | some c => rw [List.length_cons, ih i c hc (by simpa [hc] using hk)]
  | @extension ns depth child _ ih =>
      by_cases hpre : ns <+: key
      · obtain ⟨tail, rfl⟩ := hpre
        rw [getInternal_extension_append] at hk
        rw [List.length_append, ih hk]
      · rw [getInternal_extension_of_not hpre] at hk
        cases hk

theorem AtDepth.hidden {depth : Nat} {n : MptNode} (h : AtDepth depth n) {key : List Nibble}
    {f : Failure} (hk : n.getInternal key = .error f) :
    ∃ short, short <+: key ∧ short.length ≤ depth ∧ n.getInternal short = .error f := by
  induction h generalizing key with
  | null => cases hk
  | digest depth d => exact ⟨[], List.nil_prefix, Nat.zero_le _, hk⟩
  | leaf ns v => simp at hk
  | @branch depth children _ ih =>
      cases key with
      | nil => cases hk
      | cons i tail =>
          rw [getInternal_branch_cons] at hk
          cases hc : children i with
          | none => simp [hc] at hk
          | some c =>
              obtain ⟨short, hpre, hlen, hs⟩ := ih i c hc (show c.getInternal tail = _ by simpa [hc] using hk)
              exact ⟨i :: short, by simpa using hpre, by simpa using hlen, by simpa [hc] using hs⟩
  | @extension ns depth child _ ih =>
      by_cases hpre : ns <+: key
      · obtain ⟨tail, rfl⟩ := hpre
        rw [getInternal_extension_append] at hk
        obtain ⟨short, hs, hlen, hget⟩ := ih hk
        exact ⟨ns ++ short, by simpa using hs, by simpa using hlen, by simpa using hget⟩
      · rw [getInternal_extension_of_not hpre] at hk
        cases hk

theorem AtDepth.sparse {depth : Nat} {n : MptNode} (h : AtDepth depth n) (hn : CanonicalTrie n) :
    SparseTrie depth n := ⟨hn, fun _ _ => h.stored, fun _ _ => h.hidden⟩

theorem FullTrieOver.sparse {depth : Nat} {n : MptNode} (h : FullTrieOver depth n) :
    SparseTrie depth n := by
  refine ⟨h.full.canonical, fun key value hk => h.length key (by simp [Live, hk]), ?_⟩
  intro key f hk
  obtain ⟨o, ho⟩ := h.full.answers key
  rw [ho] at hk
  cases hk

namespace SparseTrie

variable {depth : Nat} {n : MptNode}

theorem admits (h : SparseTrie depth n) {key : List Nibble} (hkey : key.length = depth) :
    Admits n key := by
  intro k hlive hclash
  cases hk : n.getInternal k with
  | ok o =>
      cases o with
      | none => exact absurd hk hlive
      | some value => exact .inl (hclash.eq_of_length ((h.stored k value hk).trans hkey.symm))
  | error f =>
      obtain ⟨short, hpre, hlen, hget⟩ := h.hidden k f hk
      have hshort : short <+: key := by
        rcases hclash with hkk | hkk
        · exact hpre.trans hkk
        · exact List.prefix_of_prefix_length_le hpre hkk (by omega)
      obtain ⟨rest, rfl⟩ := hshort
      exact .inr ⟨f, h.canonical.error_append hget rest⟩

/-- Overwriting the answer to a key of full length keeps the trie one over such keys. -/
theorem overwrite (h : SparseTrie depth n) {key : List Nibble} (hkey : key.length = depth)
    {o w : Option Bytes} (ho : n.getInternal key = .ok o) {m : MptNode} (hm : CanonicalTrie m)
    (hw : Overwrites n m key w) : SparseTrie depth m := by
  have hget (k : List Nibble) (hk : k ≠ key) : m.getInternal k = n.getInternal k := by
    rw [hw, Function.update_of_ne hk]
  refine ⟨hm, ?_, ?_⟩
  · intro k value hk
    by_cases hkk : k = key
    · rw [hkk, hkey]
    · exact h.stored k value (by rwa [← hget k hkk])
  · intro k f hk
    by_cases hkk : k = key
    · rw [hkk, hw, Function.update_self] at hk
      cases hk
    · obtain ⟨short, hpre, hlen, hs⟩ := h.hidden k f (by rwa [← hget k hkk])
      refine ⟨short, hpre, hlen, ?_⟩
      rw [hget short, hs]
      rintro rfl
      rw [ho] at hs
      cases hs

/-- An update of a key that is answered succeeds and overwrites the answer. -/
theorem write_ok (h : SparseTrie depth n) {key : List Nibble} (hkey : key.length = depth)
    {o : Option Bytes} (ho : n.getInternal key = .ok o) (w : Option Bytes) :
    ∃ m, n.write key w = (.ok (decide (o ≠ w)), m) ∧ SparseTrie depth m ∧ Overwrites n m key w := by
  have hadm := h.admits hkey
  cases w with
  | some value =>
      obtain ⟨m, hm, hc, hw⟩ := h.canonical.insertInternal_ok hadm ho value
      exact ⟨m, hm, h.overwrite hkey ho (.inr hc) hw, hw⟩
  | none =>
      cases o with
      | none =>
          refine ⟨n, h.canonical.deleteInternal_absent hadm ho, h, ?_⟩
          rw [Overwrites, ← ho, Function.update_eq_self]
      | some value =>
          obtain ⟨m, hm, hc, hw⟩ := h.canonical.deleteInternal_ok ho
          exact ⟨m, hm, h.overwrite hkey ho hc hw, hw⟩

end SparseTrie

theorem FullTrieOver.admits {n : MptNode} (h : FullTrieOver 64 n) {key : Bytes}
    (hkey : key.length = 32) : Admits n (toNibs key) :=
  h.sparse.admits (by rw [toNibs_length, hkey])

/-- An update fails where the lookup of its key fails, and changes nothing. -/
theorem write_error {n : MptNode} {key : List Nibble} {f : Failure}
    (h : n.getInternal key = .error f) (w : Option Bytes) : n.write key w = (.error f, n) := by
  cases w with
  | some value => exact insertInternal_error h value
  | none => exact deleteInternal_error h

/-- An update that succeeds overwrites the answer to its key and no other, whatever keys the trie is over. -/
theorem CanonicalTrie.write_some {n m : MptNode} (hn : CanonicalTrie n) {key : List Nibble}
    {w : Option Bytes} {b : Bool} (h : n.write key w = (.ok b, m)) :
    CanonicalTrie m ∧ Overwrites n m key w := by
  cases w with
  | some value =>
      cases hget : n.getInternal key with
      | error f =>
          rw [write_error hget] at h
          cases h
      | ok o =>
          obtain ⟨m', hm, hc, hw⟩ := hn.insertInternal_ok (hn.admits_of_insert h) hget value
          obtain ⟨-, rfl⟩ := Prod.mk.inj (h.symm.trans hm)
          exact ⟨.inr hc, hw⟩
  | none =>
      cases b with
      | true => exact hn.deleted h
      | false =>
          obtain ⟨hget, rfl⟩ := deleteInternal_false h
          refine ⟨hn, ?_⟩
          rw [Overwrites, ← hget, Function.update_eq_self]

/-- An update, with the point it writes. -/
def Op.point (op : Op) : List Nibble × Except Failure (Option Bytes) :=
  (toNibs op.key, .ok op.value)

theorem perform_eq_write (n : MptNode) {op : Op} (h : op.value ≠ some []) :
    n.perform op = n.write (toNibs op.key) op.value := by
  cases op with
  | insert key value =>
      have hne : value ≠ [] := by
        intro hv
        exact h (congrArg some hv)
      exact MptNode.insert_of_ne hne
  | delete key => rfl

/-- Updates of keys that are answered all succeed, and overwrite the answers one by one. -/
theorem SparseTrie.performAll {n : MptNode} (hn : SparseTrie 64 n) {ops : List Op}
    (hops : ∀ op ∈ ops, op.key.length = 32 ∧ op.value ≠ some [])
    (hget : ∀ op ∈ ops, ∃ o, n.get op.key = .ok o) :
    ∃ replies m, n.performAll ops = .ok (replies, m) ∧ SparseTrie 64 m ∧
      m.getInternal = overlay n.getInternal (ops.map Op.point) := by
  induction ops generalizing n with
  | nil => exact ⟨[], n, rfl, hn, rfl⟩
  | cons op ops ih =>
      obtain ⟨hkey, hvalue⟩ := hops op (by simp)
      obtain ⟨o, ho⟩ := hget op (by simp)
      obtain ⟨m, hm, hsm, hw⟩ := hn.write_ok (by rw [toNibs_length, hkey]) ho op.value
      obtain ⟨replies, k, hk, hsk, hview⟩ := ih hsm (fun x hx => hops x (List.mem_cons_of_mem _ hx))
        (fun x hx => by
          rw [MptNode.get, hw]
          by_cases hxk : toNibs x.key = toNibs op.key
          · exact ⟨op.value, by rw [hxk, Function.update_self]⟩
          · rw [Function.update_of_ne hxk]
            exact hget x (List.mem_cons_of_mem _ hx))
      refine ⟨decide (o ≠ op.value) :: replies, k, ?_, hsk, ?_⟩
      · simp only [MptNode.performAll, perform_eq_write n hvalue, hm, hk]
      · rw [hview, List.map_cons, overlay_cons, hw]
        rfl

end RethProcessor
