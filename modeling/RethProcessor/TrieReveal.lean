import RethProcessor.TrieCoherence
import RethProcessor.TrieStore
import Mathlib.Order.WellFoundedSet

/-! What `resolve_nodes` does where it returns, and when it returns. The nodes it moves to
the places of digests are known by their references only. -/
namespace RethProcessor
open Rlp Relation

/-- A relation that only finitely many things have successors in, and that has no cycles, is well-founded. -/
theorem wellFounded_of_acyclic {α : Type} {r : α → α → Prop} {s : Set α} (hs : s.Finite)
    (hdom : ∀ a b, r a b → a ∈ s) (hacyc : ∀ a, ¬ TransGen r a a) : WellFounded (flip r) := by
  have : Std.Irrefl (TransGen (flip r)) := ⟨fun a ha => hacyc a (transGen_swap.mp ha)⟩
  have : IsStrictOrder α (TransGen (flip r)) := ⟨⟩
  have hwf : s.WellFoundedOn (TransGen (flip r)) := hs.wellFoundedOn
  have hin (a : α) (ha : a ∈ s) : Acc (flip r) a := by
    apply hwf.induction ha
    intro a _ ih
    apply Acc.intro a
    intro b hb
    by_cases hbs : b ∈ s
    · exact ih b hbs (.single hb)
    · exact Acc.intro b fun c hc => absurd (hdom b c hc) hbs
  refine ⟨fun a => ?_⟩
  by_cases ha : a ∈ s
  · exact hin a ha
  · exact Acc.intro a fun b hb => absurd (hdom a b hb) ha

variable {keccak : Bytes → B256} {store : NodeStore}

/-- Every node is in the store under its own reference. -/
def SelfKeyed (keccak : Bytes → B256) (store : NodeStore) : Prop :=
  ∀ r n, store r = some n → n.reference keccak = r

theorem mapChildren_inv {f : MptNode → Option MptNode} {children ps : Nibble → Option MptNode}
    (h : mapChildren f children = some ps) (i : Nibble) :
    (children i = none ∧ ps i = none) ∨ ∃ c p, children i = some c ∧ ps i = some p ∧ f c = some p := by
  unfold mapChildren at h
  split at h
  · next hall =>
      cases h
      cases hc : children i with
      | none =>
          refine .inl ⟨rfl, ?_⟩
          simp only [hc, Option.bind_none]
      | some c =>
          have hi := hall i
          rw [hc, Option.all_some] at hi
          obtain ⟨p, hp⟩ := Option.isSome_iff_exists.mp hi
          refine .inr ⟨c, p, rfl, ?_, hp⟩
          simp only [hc, Option.bind_some, hp]
  · cases h

/-- The root is its resolution with some subtrees cut. -/
theorem resolveNodes_pruning (hkey : SelfKeyed keccak store) {fuel : Nat} {root p : MptNode}
    (h : resolveNodes store fuel root = some p) : Pruning keccak root p := by
  induction fuel generalizing root p with
  | zero => cases h
  | succ fuel ih =>
      cases root with
      | null => exact Option.some.inj h ▸ .null
      | leaf path value => exact Option.some.inj h ▸ .leaf path value
      | branch children =>
          rw [resolveNodes, Option.map_eq_some_iff] at h
          obtain ⟨ps, hps, rfl⟩ := h
          apply pruning_branch_iff.mpr
          intro i
          rcases mapChildren_inv hps i with ⟨hc, hp⟩ | ⟨c, p, hc, hp, hf⟩
          · rw [hc, hp]
            exact pruningChild_none
          · rw [hc, hp]
            exact pruningChild_some.mpr (ih hf)
      | extension path target =>
          rw [resolveNodes, Option.map_eq_some_iff] at h
          obtain ⟨q, hq, rfl⟩ := h
          exact .extension path (ih hq)
      | digest d =>
          simp only [resolveNodes] at h
          split at h
          · next node hnode =>
              exact .cut ((ih h).reference_eq.symm.trans (hkey _ _ hnode))
          · exact Option.some.inj h ▸ .refl _

/-- No digest is left that the store could replace. -/
theorem resolveNodes_complete {fuel : Nat} {root p : MptNode} (h : resolveNodes store fuel root = some p)
    {d : B256} (hd : Subnode (.digest d) p) : store (.digest d) = none := by
  induction fuel generalizing root p with
  | zero => cases h
  | succ fuel ih =>
      cases root with
      | null | leaf =>
          cases h
          cases hd
      | branch children =>
          rw [resolveNodes, Option.map_eq_some_iff] at h
          obtain ⟨ps, hps, rfl⟩ := h
          cases hd with
          | @branch c _ i hi hd =>
              rcases mapChildren_inv hps i with ⟨-, hp⟩ | ⟨c', p, -, hp, hf⟩
              · rw [hp] at hi
                cases hi
              · obtain rfl : c = p := Option.some.inj (hi.symm.trans hp)
                exact ih hf hd
      | extension path target =>
          rw [resolveNodes, Option.map_eq_some_iff] at h
          obtain ⟨q, hq, rfl⟩ := h
          cases hd with
          | extension _ hd => exact ih hq hd
      | digest e =>
          simp only [resolveNodes] at h
          split at h
          · exact ih h hd
          · next hnone =>
              cases h
              cases hd
              exact hnone

theorem Resolves.pruning (hkey : SelfKeyed keccak store) {root p : MptNode} (h : Resolves store root p) :
    Pruning keccak root p := by
  obtain ⟨enough, h⟩ := h
  exact resolveNodes_pruning hkey (h enough (Nat.le_refl _))

theorem Resolves.complete {root p : MptNode} (h : Resolves store root p) {d : B256}
    (hd : Subnode (.digest d) p) : store (.digest d) = none := by
  obtain ⟨enough, h⟩ := h
  exact resolveNodes_complete (h enough (Nat.le_refl _)) hd

/-- What a key finds in a pruning, it finds in the whole. -/
theorem Pruning.get_ok {p t : MptNode} (h : Pruning keccak p t) {key : List Nibble} {o : Option Bytes}
    (hget : p.getInternal key = .ok o) : t.getInternal key = .ok o := by
  rcases h.getInternal key with ⟨d, hd⟩ | heq
  · rw [hget] at hd
    cases hd
  · rw [← heq, hget]

/-- A digest that resolution comes to, on its way from this root. -/
inductive Reaches (store : NodeStore) (root : MptNode) : B256 → Prop
  | here {d : B256} : Subnode (.digest d) root → Reaches store root d
  | next {d e : B256} {node : MptNode} : Reaches store root e → store (.digest e) = some node →
      Subnode (.digest d) node → Reaches store root d

/-- A branch, leaf or extension among the nodes, referenced by the first digest, contains the second one. -/
def Links (keccak : Bytes → B256) (nodes : List MptNode) (d e : B256) : Prop :=
  ∃ n ∈ nodes, n.isListed ∧ n.reference keccak = .digest d ∧ Subnode (.digest e) n

/-- No branch, leaf or extension among the nodes contains its own digest, be it through others. -/
def Acyclic (keccak : Bytes → B256) (nodes : List MptNode) : Prop :=
  ∀ d, ¬ TransGen (Links keccak nodes) d d

theorem Reaches.trans {root : MptNode} {d e : B256} (hd : Reaches store root d)
    (he : Reaches store (.digest d) e) : Reaches store root e := by
  induction he with
  | here hsub =>
      cases hsub
      exact hd
  | next _ hnode hsub ih => exact .next ih hnode hsub

theorem resolves_null : Resolves store .null .null := by
  refine ⟨1, ?_⟩
  intro fuel hf
  obtain ⟨fuel, rfl⟩ : ∃ f, fuel = f + 1 := ⟨fuel - 1, by omega⟩
  rfl

/-- Resolution of a node returns where that of each digest in it does. -/
theorem resolves_of_digests {n : MptNode}
    (h : ∀ d, Subnode (.digest d) n → ∃ p, Resolves store (.digest d) p) : ∃ p, Resolves store n p := by
  induction n with
  | null => exact ⟨_, resolves_null⟩
  | leaf path value => exact ⟨_, resolves_leaf path value⟩
  | digest d => exact h d (.refl _)
  | extension path child ih =>
      obtain ⟨p, hp⟩ := ih fun d hd => h d (.extension path hd)
      exact ⟨_, hp.extension path⟩
  | branch children ih =>
      have hone (i : Nibble) : ∃ o : Option MptNode, (children i).isSome = o.isSome ∧
          ∀ c q, children i = some c → o = some q → Resolves store c q := by
        cases hc : children i with
        | none => exact ⟨none, rfl, fun _ _ h => (nomatch h)⟩
        | some c =>
            obtain ⟨p, hp⟩ := ih i c hc fun d hd => h d (.branch hc hd)
            refine ⟨some p, rfl, ?_⟩
            intro c' q hc' hq
            cases hc'
            cases hq
            exact hp
      choose qs hs hres using hone
      exact ⟨_, Resolves.branch hs hres⟩

/-- Where resolution of a node returns, so does that of each digest in it. -/
theorem Resolves.digest {n p : MptNode} (h : Resolves store n p) {d : B256} (hd : Subnode (.digest d) n) :
    ∃ q, Resolves store (.digest d) q := by
  induction hd generalizing p with
  | refl => exact ⟨p, h⟩
  | @branch c children i hc _ ih =>
      obtain ⟨enough, h⟩ := h
      have hat (fuel : Nat) (hf : enough ≤ fuel) :
          ∃ ps, mapChildren (resolveNodes store fuel) children = some ps ∧ .branch ps = p :=
        Option.map_eq_some_iff.mp (h (fuel + 1) (by omega))
      obtain ⟨ps, hps, rfl⟩ := hat enough (Nat.le_refl _)
      rcases mapChildren_inv hps i with ⟨hnone, -⟩ | ⟨c', q, hc', hq, -⟩
      · rw [hnone] at hc
        cases hc
      · obtain rfl : c' = c := Option.some.inj (hc'.symm.trans hc)
        refine @ih q ⟨enough, ?_⟩
        intro fuel hf
        obtain ⟨qs, hqs, heq⟩ := hat fuel hf
        obtain rfl := MptNode.branch.inj heq
        rcases mapChildren_inv hqs i with ⟨hnone, -⟩ | ⟨c'', q', hc'', hq', hres⟩
        · rw [hnone] at hc
          cases hc
        · obtain rfl : c'' = c' := Option.some.inj (hc''.symm.trans hc)
          rwa [Option.some.inj (hq.symm.trans hq')]
  | @extension c path _ ih =>
      obtain ⟨enough, h⟩ := h
      have hat (fuel : Nat) (hf : enough ≤ fuel) :
          ∃ q, resolveNodes store fuel c = some q ∧ .extension path q = p :=
        Option.map_eq_some_iff.mp (h (fuel + 1) (by omega))
      obtain ⟨q, -, rfl⟩ := hat enough (Nat.le_refl _)
      refine @ih q ⟨enough, ?_⟩
      intro fuel hf
      obtain ⟨q', hq', heq⟩ := hat fuel hf
      rw [hq', (MptNode.extension.inj heq).2]

theorem Resolves.stored {d : B256} {node p : MptNode} (h : Resolves store (.digest d) p)
    (hnode : store (.digest d) = some node) : Resolves store node p := by
  obtain ⟨enough, h⟩ := h
  refine ⟨enough, ?_⟩
  intro fuel hf
  have := h (fuel + 1) (by omega)
  simpa only [resolveNodes, hnode] using this

/-- A digest stored under itself is resolved for ever. -/
theorem resolveNodes_self {d : B256} (h : store (.digest d) = some (.digest d)) (fuel : Nat) :
    resolveNodes store fuel (.digest d) = none := by
  induction fuel with
  | zero => rfl
  | succ fuel ih => simpa only [resolveNodes, h] using ih

theorem Resolves.reaches {root p : MptNode} (h : Resolves store root p) {d : B256}
    (hd : Reaches store root d) : ∃ q, Resolves store (.digest d) q := by
  induction hd with
  | here hsub => exact h.digest hsub
  | next _ hnode hsub ih =>
      obtain ⟨q, hq⟩ := ih
      exact (hq.stored hnode).digest hsub

theorem Acyclic.wellFounded {nodes : List MptNode} (h : Acyclic keccak nodes) :
    WellFounded (flip (Links keccak nodes)) := by
  have hfin : {d | MptNodeReference.digest d ∈ nodes.map (MptNode.reference keccak)}.Finite := by
    refine Set.Finite.preimage ?_ (List.finite_toSet (nodes.map (MptNode.reference keccak)))
    intro d _ e _ hde
    exact MptNodeReference.digest.inj hde
  refine wellFounded_of_acyclic hfin ?_ h
  rintro d e ⟨n, hn, -, href, -⟩
  exact List.mem_map.mpr ⟨n, hn, href⟩

/-- Without cycles, only a digest stored under itself can keep resolution from returning. -/
theorem Acyclic.resolves_digest {nodes : List MptNode} (h : Acyclic keccak nodes) (d : B256)
    (hself : ∀ e, Reaches (storeOf keccak nodes) (.digest d) e →
      storeOf keccak nodes (.digest e) ≠ some (.digest e)) :
    ∃ p, Resolves (storeOf keccak nodes) (.digest d) p := by
  induction d using h.wellFounded.induction with
  | h d ih =>
      cases hnode : storeOf keccak nodes (.digest d) with
      | none => exact ⟨_, resolves_missing hnode⟩
      | some node =>
          obtain ⟨hin, href⟩ := storeOf_some hnode
          have hhere : Reaches (storeOf keccak nodes) (.digest d) d := .here (.refl _)
          suffices ∃ p, Resolves (storeOf keccak nodes) node p by
            obtain ⟨p, hp⟩ := this
            exact ⟨p, hp.of_store hnode⟩
          cases hl : node.isListed with
          | true =>
              apply resolves_of_digests
              intro e he
              refine ih e ⟨node, hin, hl, href, he⟩ ?_
              intro f hf
              exact hself f ((hhere.next hnode he).trans hf)
          | false =>
              cases node with
              | null => exact ⟨_, resolves_null⟩
              | digest e =>
                  obtain rfl := MptNodeReference.digest.inj href
                  exact absurd hnode (hself e hhere)
              | branch | leaf | extension => cases hl

/-- Resolution in a store of nodes without cycles returns exactly when it comes to no digest
that is stored under itself. -/
theorem resolves_iff {nodes : List MptNode} (h : Acyclic keccak nodes) (root : MptNode) :
    (∃ p, Resolves (storeOf keccak nodes) root p) ↔
      ∀ d, Reaches (storeOf keccak nodes) root d → storeOf keccak nodes (.digest d) ≠ some (.digest d) := by
  constructor
  · rintro ⟨p, hp⟩ d hd hself
    obtain ⟨q, enough, hq⟩ := hp.reaches hd
    have := hq enough (Nat.le_refl _)
    rw [resolveNodes_self hself] at this
    cases this
  · intro hself
    apply resolves_of_digests
    intro d hd
    apply h.resolves_digest d
    intro e he
    exact hself e ((Reaches.here hd).trans he)

theorem resolves_of_fuel {fuel : Nat} {root p : MptNode} (h : resolveNodes store fuel root = some p) :
    Resolves store root p := by
  induction fuel generalizing root p with
  | zero => cases h
  | succ fuel ih =>
      cases root with
      | null => exact Option.some.inj h ▸ resolves_null
      | leaf path value => exact Option.some.inj h ▸ resolves_leaf path value
      | branch children =>
          rw [resolveNodes, Option.map_eq_some_iff] at h
          obtain ⟨ps, hps, rfl⟩ := h
          refine .branch ?_ ?_
          · intro i
            rcases mapChildren_inv hps i with ⟨hc, hp⟩ | ⟨c, p, hc, hp, -⟩
            · rw [hc, hp]
            · rw [hc, hp, Option.isSome_some, Option.isSome_some]
          · intro i c q hc hq
            rcases mapChildren_inv hps i with ⟨hnone, -⟩ | ⟨c', q', hc', hq', hf⟩
            · cases hnone.symm.trans hc
            · cases hc'.symm.trans hc
              cases hq'.symm.trans hq
              exact ih hf
      | extension path target =>
          rw [resolveNodes, Option.map_eq_some_iff] at h
          obtain ⟨q, hq, rfl⟩ := h
          exact (ih hq).extension path
      | digest d =>
          cases hnode : store (.digest d) with
          | none =>
              simp only [resolveNodes, hnode, Option.some.injEq] at h
              exact h ▸ resolves_missing hnode
          | some node =>
              simp only [resolveNodes, hnode] at h
              exact (ih h).of_store hnode

/-- Resolution of a node within some fuel resolves what is in it within no more. -/
theorem resolveNodes_subnode {m n : MptNode} (hsub : Subnode m n) {fuel : Nat} {p : MptNode}
    (h : resolveNodes store fuel n = some p) : ∃ k ≤ fuel, ∃ q, resolveNodes store k m = some q := by
  induction hsub generalizing fuel p with
  | refl => exact ⟨fuel, Nat.le_refl fuel, p, h⟩
  | @branch c children i hc _ ih =>
      cases fuel with
      | zero => cases h
      | succ fuel =>
          rw [resolveNodes, Option.map_eq_some_iff] at h
          obtain ⟨ps, hps, -⟩ := h
          rcases mapChildren_inv hps i with ⟨hnone, -⟩ | ⟨c', q, hc', -, hf⟩
          · cases hnone.symm.trans hc
          · cases hc'.symm.trans hc
            obtain ⟨k, hk, hres⟩ := ih hf
            exact ⟨k, Nat.le_succ_of_le hk, hres⟩
  | extension path _ ih =>
      cases fuel with
      | zero => cases h
      | succ fuel =>
          rw [resolveNodes, Option.map_eq_some_iff] at h
          obtain ⟨q, hq, -⟩ := h
          obtain ⟨k, hk, hres⟩ := ih hq
          exact ⟨k, Nat.le_succ_of_le hk, hres⟩

/-- What is stored under the first digest contains the second one. -/
def Leads (store : NodeStore) (d e : B256) : Prop :=
  ∃ node, store (.digest d) = some node ∧ Subnode (.digest e) node

/-- Resolution of this root comes to a digest that leads back to itself. -/
def Circles (store : NodeStore) (root : MptNode) : Prop := ∃ d, Reaches store root d ∧ TransGen (Leads store) d d

/-- A digest that leads back to itself is not resolved. -/
theorem resolveNodes_circle {d : B256} (hd : TransGen (Leads store) d d) (fuel : Nat) :
    resolveNodes store fuel (.digest d) = none := by
  induction fuel using Nat.strongRecOn generalizing d with
  | ind fuel ih =>
      obtain ⟨e, ⟨node, hnode, hsub⟩, hback⟩ := TransGen.head'_iff.mp hd
      cases fuel with
      | zero => rfl
      | succ fuel =>
          simp only [resolveNodes, hnode]
          cases hres : resolveNodes store fuel node with
          | none => rfl
          | some p =>
              obtain ⟨k, hk, q, hq⟩ := resolveNodes_subnode hsub hres
              cases (ih k (Nat.lt_succ_of_le hk) (.tail' hback ⟨node, hnode, hsub⟩)).symm.trans hq

/-- Resolution in a store of nodes returns exactly when it does not circle. -/
theorem resolves_iff_no_circle {nodes : List MptNode} (root : MptNode) :
    (∃ p, Resolves (storeOf keccak nodes) root p) ↔ ¬ Circles (storeOf keccak nodes) root := by
  constructor
  · rintro ⟨p, hp⟩ ⟨d, hd, hcircle⟩
    obtain ⟨q, enough, hq⟩ := hp.reaches hd
    cases (resolveNodes_circle hcircle enough).symm.trans (hq enough (Nat.le_refl enough))
  · intro hno
    have hfin : {d | MptNodeReference.digest d ∈ nodes.map (MptNode.reference keccak)}.Finite := by
      refine Set.Finite.preimage ?_ (List.finite_toSet (nodes.map (MptNode.reference keccak)))
      intro d _ e _ hde
      exact MptNodeReference.digest.inj hde
    have hwf : WellFounded (flip fun d e => Reaches (storeOf keccak nodes) root d ∧ Leads (storeOf keccak nodes) d e) := by
      refine wellFounded_of_acyclic hfin ?_ ?_
      · rintro d e ⟨-, node, hnode, -⟩
        obtain ⟨hin, href⟩ := storeOf_some hnode
        exact List.mem_map.mpr ⟨node, hin, href⟩
      · intro d hd
        obtain ⟨e, ⟨hreach, -⟩, -⟩ := TransGen.head'_iff.mp hd
        exact hno ⟨d, hreach, hd.lift id fun _ _ h => h.2⟩
    have hall (d : B256) (hd : Reaches (storeOf keccak nodes) root d) :
        ∃ p, Resolves (storeOf keccak nodes) (.digest d) p := by
      induction d using hwf.induction with
      | h d ih =>
          cases hnode : storeOf keccak nodes (.digest d) with
          | none => exact ⟨_, resolves_missing hnode⟩
          | some node =>
              obtain ⟨p, hp⟩ : ∃ p, Resolves (storeOf keccak nodes) node p := by
                apply resolves_of_digests
                intro e he
                exact ih e ⟨hd, node, hnode, he⟩ (hd.next hnode he)
              exact ⟨p, hp.of_store hnode⟩
    apply resolves_of_digests
    intro d hd
    exact hall d (.here hd)

section Sample

theorem acyclic_leaf (keccak : Bytes → B256) (path value : Bytes) : Acyclic keccak [.leaf path value] := by
  intro d hd
  obtain ⟨e, ⟨n, hn, -, -, hsub⟩, -⟩ := TransGen.head'_iff.mp hd
  rw [List.mem_singleton.mp hn] at hsub
  cases hsub

theorem resolves_iff_cutLeaf :
    (∃ p, Resolves (storeOf cutKeccak [.leaf (toEncodedPath (List.replicate 63 0) true) [2]]) (.digest cutDigest) p) ↔
      ∀ d, Reaches (storeOf cutKeccak [.leaf (toEncodedPath (List.replicate 63 0) true) [2]]) (.digest cutDigest) d →
        storeOf cutKeccak [.leaf (toEncodedPath (List.replicate 63 0) true) [2]] (.digest d) ≠ some (.digest d) :=
  resolves_iff (acyclic_leaf _ _ _) _

/-- The encoding of a digest is decoded, stored under that digest, and then resolved for ever. -/
theorem stored_digest_loops :
    parseProof [(MptNodeReference.digest cutDigest).encode] = .ok [.digest cutDigest] ∧
    ∀ keccak, Acyclic keccak [.digest cutDigest] ∧
      ∀ fuel, resolveNodes (storeOf keccak [.digest cutDigest]) fuel (.digest cutDigest) = none := by
  refine ⟨?_, ?_⟩
  · have hdec : MptNode.decode (MptNodeReference.digest cutDigest).encode = .ok (.digest cutDigest) :=
      decodeView_digest _ cutDigest
    rw [parseProof, List.mapM_cons, hdec]
    rfl
  · intro keccak
    refine ⟨?_, resolveNodes_self ?_⟩
    · intro d hd
      obtain ⟨e, ⟨n, hn, hl, -⟩, -⟩ := TransGen.head'_iff.mp hd
      rw [List.mem_singleton.mp hn] at hl
      cases hl
    · simp only [storeOf, List.foldl_cons, List.foldl_nil, reference_digest, Function.update_self]

end Sample

namespace CachedNode

/-- Resolution keeps reference and hash, keeps every answer, and leaves no digest that the
store could replace. -/
theorem resolves_reveals {store : Store} {root p : CachedNode} (hroot : Coherent keccak root)
    (hstore : ∀ r n, store r = some n → Coherent keccak n ∧ (n.reference keccak).1 = r)
    (h : Resolves store root p) :
    (p.reference keccak).1 = (root.reference keccak).1 ∧ p.hash keccak = root.hash keccak ∧
    (∀ key o, root.erase.get key = .ok o → p.erase.get key = .ok o) ∧
    ∀ d, Subnode (.digest d) p.erase → store (.digest d) = none := by
  have hp : Coherent keccak p := h.coherent (fun r n hn => (hstore r n hn).1) hroot
  have hkey : SelfKeyed keccak (eraseStore store) := by
    intro r n hn
    obtain ⟨m, hm, rfl⟩ := Option.map_eq_some_iff.mp hn
    obtain ⟨hco, href⟩ := hstore r m hm
    rw [← href, hco.reference.1]
  have hpr := h.erase.pruning hkey
  refine ⟨?_, ?_, ?_, ?_⟩
  · rw [hp.reference.1, hroot.reference.1, hpr.reference_eq]
  · rw [hp.hash, hroot.hash, hpr.hash_eq]
  · intro key o hget
    exact hpr.get_ok hget
  · intro d hd
    exact Option.map_eq_none_iff.mp (h.erase.complete hd)

section Sample

/-- A store with one leaf, its reference cached. -/
def leafStore : Store := Function.update (fun _ => none) (.digest cutDigest)
  (some (.leaf (some (.digest cutDigest)) (toEncodedPath (List.replicate 63 0) true) [2]))

theorem resolves_reveals_leaf :
    ((CachedNode.leaf (some (.digest cutDigest)) (toEncodedPath (List.replicate 63 0) true) [2]).reference
      cutKeccak).1 = ((CachedNode.digest none cutDigest).reference cutKeccak).1 ∧
    (CachedNode.leaf (some (.digest cutDigest)) (toEncodedPath (List.replicate 63 0) true) [2]).hash cutKeccak =
      (CachedNode.digest none cutDigest).hash cutKeccak ∧
    (∀ key o, (CachedNode.digest none cutDigest).erase.get key = .ok o →
      (CachedNode.leaf (some (.digest cutDigest)) (toEncodedPath (List.replicate 63 0) true) [2]).erase.get key =
        .ok o) ∧
    ∀ d, Subnode (.digest d)
      (CachedNode.leaf (some (.digest cutDigest)) (toEncodedPath (List.replicate 63 0) true) [2]).erase →
        leafStore (.digest d) = none := by
  refine @resolves_reveals _ leafStore _ _ (.digest (cacheOk_of_empty rfl)) ?_ ⟨2, ?_⟩
  · intro r n hn
    by_cases hr : r = .digest cutDigest
    · subst hr
      obtain rfl : _ = n := Option.some.inj hn
      refine ⟨.leaf ?_, rfl⟩
      intro r hr
      cases hr
      exact reference_cutKeccak.symm
    · rw [leafStore, Function.update_of_ne hr] at hn
      cases hn
  · intro fuel hf
    obtain ⟨fuel, rfl⟩ : ∃ f, fuel = f + 2 := ⟨fuel - 2, by omega⟩
    simp only [resolveNodes, leafStore, Function.update_self]

end Sample

end CachedNode

end RethProcessor
