import RethProcessor.Calls
import RethProcessor.TrieMap

/-! Updates with keys of any length. What a trie refuses leaves it as it was; which keys it refuses
depends on the keys stored in it. -/
namespace RethProcessor
open Paths Calls

/-- Whatever is refused, or changes nothing, leaves the trie as it was. -/
theorem unchanged_of_refused {n : MptNode} (hn : CanonicalTrie n) (key value : Bytes) :
    ((n.insert key value).1 ≠ .ok true → (n.insert key value).2 = n) ∧
      ((n.delete key).1 ≠ .ok true → (n.delete key).2 = n) := by
  refine ⟨?_, hn.deleteInternal_unchanged (toNibs key)⟩
  rw [MptNode.insert]
  split
  · intro _
    rfl
  · exact hn.insertInternal_unchanged (toNibs key) value

theorem unchanged_of_refused_digest :
    let n : MptNode := .extension (toEncodedPath [1, 2] false) (.digest EMPTY_ROOT)
    ((n.insert [0x12] [1]).1 ≠ .ok true → (n.insert [0x12] [1]).2 = n) ∧
      ((n.delete [0x12]).1 ≠ .ok true → (n.delete [0x12]).2 = n) :=
  unchanged_of_refused (.inr (.extension (List.cons_ne_nil _ _) (.inr rfl) (.digest EMPTY_ROOT))) [0x12] [1]

/-- The trie is reached from the empty one by updates that succeed. -/
def Reached (n : MptNode) : Prop := ∃ ops replies, MptNode.null.performAll ops = .ok (replies, n)

/-- The trie holds a value under the key. -/
def Stored (n : MptNode) (key : Bytes) : Prop := ∃ value, n.get key = .ok (some value)

section Reached
variable {n n' : MptNode} {m : Bytes → Option Bytes}

/-- An update that succeeds is followed by the map, whatever keys are stored. -/
theorem Holds.of_perform (h : Holds Set.univ n m) {op : Op} {reply : Bool}
    (hp : n.perform op = (.ok reply, n')) : Holds Set.univ n' (op.apply m) := by
  have hget := h.get_eq op.key
  cases op with
  | insert key value =>
      by_cases hvalue : value = []
      · rw [MptNode.perform, MptNode.insert, if_pos hvalue] at hp
        cases hp
      · rw [MptNode.perform, MptNode.insert_of_ne hvalue] at hp
        obtain ⟨n₁, hn₁, hcan, hview⟩ := h.canonical.insertInternal_ok (h.canonical.admits_of_insert hp) hget value
        obtain rfl : n' = n₁ := (Prod.mk.inj (hp.symm.trans hn₁)).2
        exact h.overwrite (Set.mem_univ key) (.inr hcan) hview
  | delete key =>
      rw [MptNode.perform, MptNode.delete] at hp
      cases reply with
      | true =>
          obtain ⟨hcan, hview⟩ := h.canonical.deleted hp
          exact h.overwrite (Set.mem_univ key) hcan hview
      | false =>
          obtain ⟨hnone, rfl⟩ := deleteInternal_false hp
          have hm : m key = none := Except.ok.inj (hget.symm.trans hnone)
          have hsame : Op.apply m (.delete key) = m := by
            rw [Op.apply, Op.key, Op.value, ← hm, Function.update_eq_self]
          rwa [hsame]

theorem Holds.of_performAll (h : Holds Set.univ n m) {ops : List Op} {replies : List Bool}
    (hp : n.performAll ops = .ok (replies, n')) : Holds Set.univ n' (ops.foldl Op.apply m) := by
  induction ops generalizing n m replies with
  | nil =>
      cases hp
      exact h
  | cons op ops ih =>
      cases hop : n.perform op with
      | mk res n₁ =>
          rw [MptNode.performAll, hop] at hp
          cases res with
          | error f => cases hp
          | ok reply =>
              dsimp only at hp
              cases hrest : n₁.performAll ops with
              | error f =>
                  rw [hrest] at hp
                  cases hp
              | ok r =>
                  rw [hrest] at hp
                  cases hp
                  exact ih (h.of_perform hop) hrest

/-- A trie that is reached holds the last writes of the updates. -/
theorem Reached.holds (h : Reached n) : ∃ m, Holds Set.univ n m := by
  obtain ⟨ops, replies, hp⟩ := h
  exact ⟨_, (holds_null Set.univ).of_performAll hp⟩

variable {key : Bytes}

theorem Stored.live (h : Stored n key) : Live n (toNibs key) := by
  obtain ⟨value, hvalue⟩ := h
  intro hnone
  cases hvalue.symm.trans hnone

theorem Holds.stored_of_live (h : Holds Set.univ n m) {ns : List Nibble} (hlive : Live n ns) :
    ∃ other, Stored n other ∧ ns = toNibs other := by
  obtain ⟨other, -, rfl⟩ := h.keys ns hlive
  refine ⟨other, ?_, rfl⟩
  cases hm : m other with
  | none => exact absurd ((h.get_eq other).trans (congrArg _ hm)) hlive
  | some value => exact ⟨value, (h.get_eq other).trans (congrArg _ hm)⟩

/-- A key is admitted when every stored key that clashes with it is the key itself. -/
theorem Holds.admits_iff (h : Holds Set.univ n m) : Admits n (toNibs key) ↔
    ∀ other, Stored n other → Clash other key → other = key := by
  have hclash (other : Bytes) : Clash (toNibs other) (toNibs key) ↔ Clash other key :=
    or_congr toNibs_prefix toNibs_prefix
  constructor
  · intro hadm other hstored hc
    rcases hadm _ hstored.live ((hclash other).mpr hc) with heq | ⟨f, hf⟩
    · exact toNibs_inj.mp heq
    · cases (h.get_eq key).symm.trans hf
  · intro hall k hlive hc
    obtain ⟨other, hstored, rfl⟩ := h.stored_of_live hlive
    exact .inl (congrArg toNibs (hall other hstored ((hclash other).mp hc)))

/-- What is live below a key by its nibbles is stored below it by its bytes. -/
theorem Holds.stored_below (h : Holds Set.univ n m) {i : Nibble} {s : List Nibble}
    (hlive : Live n (toNibs key ++ i :: s)) : ∃ x rest, hi x = i ∧ Stored n (key ++ x :: rest) := by
  obtain ⟨other, hstored, heq⟩ := h.stored_of_live hlive
  obtain ⟨rest, rfl⟩ := toNibs_prefix.mp ⟨_, heq⟩
  rw [toNibs_append, List.append_cancel_left_eq] at heq
  cases rest with
  | nil => cases heq
  | cons x rest => exact ⟨x, rest, (List.cons.inj heq).1.symm, hstored⟩

/-- Stored keys that part right behind a key: their next bytes have other first nibbles. -/
theorem Holds.parts_iff (h : Holds Set.univ n m) : Parts n (toNibs key) ↔
    ∃ x y s t, hi x ≠ hi y ∧ Stored n (key ++ x :: s) ∧ Stored n (key ++ y :: t) := by
  constructor
  · rintro ⟨i, j, s, t, hne, hs, ht⟩
    obtain ⟨x, s', rfl, hx⟩ := h.stored_below hs
    obtain ⟨y, t', rfl, hy⟩ := h.stored_below ht
    exact ⟨x, y, s', t', hne, hx, hy⟩
  · rintro ⟨x, y, s, t, hne, hx, hy⟩
    have hlx := hx.live
    have hly := hy.live
    rw [toNibs_append] at hlx hly
    exact ⟨hi x, hi y, _, _, hne, hlx, hly⟩

end Reached

/-- Two keys with their first byte in common. -/
def twoKeys : List Op := [.insert [0x12, 0x34] [1], .insert [0x12, 0x54] [2]]

/-- An insertion is refused exactly for a key that begins another stored key, or that another stored
key begins; otherwise it succeeds. -/
theorem insert_refused_iff {n : MptNode} (hn : Reached n) (key : Bytes) {value : Bytes} (hvalue : value ≠ []) :
    ((n.insert key value).1 = .error valueInBranch ↔
      ∃ other, Stored n other ∧ other ≠ key ∧ (other <+: key ∨ key <+: other)) ∧
    ((n.insert key value).1 ≠ .error valueInBranch → ∃ b, (n.insert key value).1 = .ok b) := by
  obtain ⟨m, h⟩ := hn.holds
  have hadm : Admits n (toNibs key) ↔ ¬ ∃ other, Stored n other ∧ other ≠ key ∧ Clash other key := by
    rw [h.admits_iff]
    constructor
    · rintro hall ⟨other, hstored, hne, hc⟩
      exact hne (hall other hstored hc)
    · intro hno other hstored hc
      by_contra hne
      exact hno ⟨other, hstored, hne, hc⟩
  rw [MptNode.insert_of_ne hvalue]
  by_cases hclash : ∃ other, Stored n other ∧ other ≠ key ∧ Clash other key
  · have hrefused := h.canonical.insertInternal_refused (h.get_eq key) (fun ha => hadm.mp ha hclash) value
    rw [hrefused]
    exact ⟨iff_of_true rfl hclash, fun hne => absurd rfl hne⟩
  · obtain ⟨n', hn', -⟩ := h.canonical.insertInternal_ok (hadm.mpr hclash) (h.get_eq key) value
    rw [hn']
    exact ⟨iff_of_false error_ne_ok.symm hclash, fun _ => ⟨_, rfl⟩⟩

theorem insert_refused_twoKeys : ∃ replies n, MptNode.null.performAll twoKeys = .ok (replies, n) ∧
    (((n.insert [0x12] [3]).1 = .error valueInBranch ↔
      ∃ other, Stored n other ∧ other ≠ [0x12] ∧ (other <+: [0x12] ∨ [0x12] <+: other)) ∧
    ((n.insert [0x12] [3]).1 ≠ .error valueInBranch → ∃ b, (n.insert [0x12] [3]).1 = .ok b)) :=
  ⟨_, _, rfl, insert_refused_iff ⟨twoKeys, _, rfl⟩ [0x12] (List.cons_ne_nil _ _)⟩

/-- A deletion replies whether the key was there, and otherwise changes nothing. -/
def DeleteMatchesGet (n : MptNode) (key : Bytes) : Prop :=
  ∃ b n', n.delete key = (.ok b, n') ∧ (b = true ↔ Stored n key) ∧ (b = false → n' = n)

/-- A deletion agrees with a lookup exactly when no two stored keys part right behind the key. -/
theorem deleteMatchesGet_iff {n : MptNode} (hn : Reached n) (key : Bytes) : DeleteMatchesGet n key ↔
    ¬ ∃ x y s t, hi x ≠ hi y ∧ Stored n (key ++ x :: s) ∧ Stored n (key ++ y :: t) := by
  obtain ⟨m, h⟩ := hn.holds
  have hget := h.get_eq key
  rw [← h.parts_iff]
  cases hm : m key with
  | none =>
      rw [hm] at hget
      have hstored : ¬ Stored n key := by
        rintro ⟨value, hvalue⟩
        cases hget.symm.trans hvalue
      rcases h.canonical.deleteInternal_none hget with ⟨hparts, hdel⟩ | ⟨hparts, hdel⟩
      · apply iff_of_false _ (not_not.mpr hparts)
        rintro ⟨b, n', hb, -⟩
        cases hdel.symm.trans hb
      · exact iff_of_true ⟨false, n, hdel, iff_of_false Bool.false_ne_true hstored, fun _ => rfl⟩ hparts
  | some value =>
      rw [hm] at hget
      have hparts : ¬ Parts n (toNibs key) := by
        rcases h.canonical with rfl | hcan
        · cases hget
        · exact hcan.not_parts hget
      obtain ⟨n', hn', -⟩ := h.canonical.deleteInternal_ok hget
      refine iff_of_true ⟨true, n', hn', iff_of_true rfl ⟨value, hget⟩, ?_⟩ hparts
      intro hfalse
      cases hfalse

theorem deleteMatchesGet_twoKeys : ∃ replies n, MptNode.null.performAll twoKeys = .ok (replies, n) ∧
    (DeleteMatchesGet n [0x12, 0x34] ↔ ¬ ∃ x y s t, hi x ≠ hi y ∧ Stored n ([0x12, 0x34] ++ x :: s) ∧
      Stored n ([0x12, 0x34] ++ y :: t)) :=
  ⟨_, _, rfl, deleteMatchesGet_iff ⟨twoKeys, _, rfl⟩ [0x12, 0x34]⟩

/-- The byte in common ends at the branch over the two keys. -/
theorem delete_common_byte : ∃ replies n, MptNode.null.performAll twoKeys = .ok (replies, n) ∧
    n.get [0x12] = .ok none ∧ n.delete [0x12] = (.error valueInBranch, n) ∧ ¬ DeleteMatchesGet n [0x12] := by
  refine ⟨_, _, rfl, rfl, rfl, ?_⟩
  rintro ⟨b, n', hb, -⟩
  cases hb

end RethProcessor
