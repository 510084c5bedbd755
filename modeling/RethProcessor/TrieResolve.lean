import RethProcessor.TriePath
import RethProcessor.TrieBinding
import Mathlib.Data.Finset.Lattice.Fold
import Mathlib.Data.Fintype.Basic

/-! Tries from proofs: the nodes on the way of a key, stores of decoded nodes under their
references, and the resolution of digests in such a store. -/
namespace RethProcessor
open Paths Rlp

/-- `parse_proof`. -/
def parseProof (proof : List Bytes) : Except Failure (List MptNode) := proof.mapM MptNode.decode

/-- `nibs`. -/
def MptNode.nibs : MptNode → Except Failure (List Nibble)
  | .null | .branch _ | .digest _ => .ok []
  | .leaf path _ | .extension path _ => prefixNibs path

def shortenNodePath (node : MptNode) : Except Failure (List MptNode) :=
  match node.nibs with
  | .error f => .error f
  | .ok nibs =>
      let starts := List.range (nibs.length + 1)
      match node with
      | .null | .branch _ | .digest _ => .ok []
      | .leaf _ value => .ok (starts.map fun i => .leaf (toEncodedPath (nibs.drop i) true) value)
      | .extension _ child =>
          .ok (starts.map fun i => .extension (toEncodedPath (nibs.drop i) false) child)

/-- Nodes by their references. -/
abbrev NodeStore := MptNodeReference → Option MptNode

/-- The children of a branch, each sent through a call that may not return. -/
def mapChildren (f : MptNode → Option MptNode) (children : Nibble → Option MptNode) :
    Option (Nibble → Option MptNode) :=
  if ∀ i, (children i).all fun c => (f c).isSome then some fun i => (children i).bind f else none

/-- `resolve_nodes`, which goes on from what it finds in the store: it returns within the
fuel, or not. -/
def resolveNodes (store : NodeStore) : Nat → MptNode → Option MptNode
  | 0, _ => none
  | _ + 1, .null => some .null
  | _ + 1, .leaf path value => some (.leaf path value)
  | fuel + 1, .branch children => (mapChildren (resolveNodes store fuel) children).map .branch
  | fuel + 1, .extension path target => (resolveNodes store fuel target).map (.extension path)
  | fuel + 1, .digest d =>
      match store (.digest d) with
      | some node => resolveNodes store fuel node
      | none => some (.digest d)

/-- `resolve_nodes` returns, and returns this node. -/
def Resolves (store : NodeStore) (root p : MptNode) : Prop :=
  ∃ enough, ∀ fuel, enough ≤ fuel → resolveNodes store fuel root = some p

section Keccak
variable (keccak : Bytes → B256)

/-- Nodes inserted one after the other, each under its own reference. -/
def storeOf (nodes : List MptNode) : NodeStore :=
  nodes.foldl (fun store node => Function.update store (node.reference keccak) (some node)) fun _ => none

/-- A node, if it is referenced by digest. -/
def hashedSelf (n : MptNode) : List MptNode :=
  match n.reference keccak with
  | .digest _ => [n]
  | .bytes _ => []

mutual
/-- The nodes below this one that a key passes and that are referenced by digest. -/
def MptNode.hashedOnWay : MptNode → List Nibble → List MptNode
  | .branch children, i :: tail => hashedFrom (children i) tail
  | .extension path child, key =>
      match prefixNibs path with
      | .error _ => []
      | .ok nibs =>
          match nibs.isPrefixOf? key with
          | some tail => hashedSelf keccak child ++ child.hashedOnWay tail
          | none => []
  | .branch _, [] => []
  | .null, _ | .leaf _ _, _ | .digest _, _ => []
termination_by structural n => n

def hashedFrom : Option MptNode → List Nibble → List MptNode
  | none, _ => []
  | some node, tail => hashedSelf keccak node ++ node.hashedOnWay tail
termination_by structural n => n
end

/-- The proof of a key in a trie that is known in full. -/
def honestProof (n : MptNode) (key : Bytes) : List Bytes :=
  (n :: n.hashedOnWay keccak (toNibs key)).map (MptNode.toRlp keccak)

/-- A trie with some of its subtrees cut, all those and only those that the store lacks. -/
inductive Revealed (store : NodeStore) : MptNode → MptNode → Prop
  | cut {t : MptNode} {d : B256} : t.reference keccak = .digest d → store (.digest d) = none →
      Revealed store (.digest d) t
  | null : Revealed store .null .null
  | leaf (path value : Bytes) : Revealed store (.leaf path value) (.leaf path value)
  | branch {cs ts : Nibble → Option MptNode} : (∀ i, (cs i).isSome = (ts i).isSome) →
      (∀ i c t, cs i = some c → ts i = some t → Revealed store c t) →
      Revealed store (.branch cs) (.branch ts)
  | extension (path : Bytes) {c t : MptNode} : Revealed store c t →
      Revealed store (.extension path c) (.extension path t)

/-- What the store has for a node of the trie is that node, as decoding gives it. -/
def Faithful (store : NodeStore) (t : MptNode) : Prop :=
  ∀ m d node, Subnode m t → m.reference keccak = .digest d → store (.digest d) = some node →
    node = m.trunc keccak

end Keccak

variable {keccak : Bytes → B256} {store : NodeStore}

theorem Revealed.pruning {p t : MptNode} (h : Revealed keccak store p t) : Pruning keccak p t := by
  induction h with
  | cut hd => exact .cut hd
  | null => exact .null
  | leaf path value => exact .leaf path value
  | branch hs _ ih => exact .branch hs ih
  | extension path _ ih => exact .extension path ih

/-- The digests left are those of nodes that the store lacks. -/
theorem Revealed.digest {p t : MptNode} (h : Revealed keccak store p t) {way : List Nibble} {d : B256}
    (hat : NodeAt p way (.digest d)) :
    store (.digest d) = none ∧ ∃ m, NodeAt t way m ∧ m.reference keccak = .digest d := by
  refine ⟨?_, h.pruning.digestsOf way d hat⟩
  induction h generalizing way with
  | cut _ hstore =>
      cases hat
      exact hstore
  | null | leaf => cases hat
  | @branch cs ts hs hc ih =>
      cases hat with
      | @branch _ i c _ way hci hat =>
          obtain ⟨t, ht⟩ : ∃ t, ts i = some t := Option.isSome_iff_exists.mp (by rw [← hs, hci]; rfl)
          exact ih i c t hci ht hat
  | extension path _ ih =>
      cases hat with
      | extension _ hat => exact ih hat

theorem mapChildren_eq {f : MptNode → Option MptNode} {children qs : Nibble → Option MptNode}
    (h : ∀ i, (children i).isSome = (qs i).isSome)
    (hf : ∀ i c q, children i = some c → qs i = some q → f c = some q) :
    mapChildren f children = some qs := by
  have hall : ∀ i, (children i).all fun c => (f c).isSome := by
    intro i
    cases hc : children i with
    | none => rfl
    | some c =>
        obtain ⟨q, hq⟩ := Option.isSome_iff_exists.mp (by rw [← h, hc]; rfl)
        simp [hf i c q hc hq]
  rw [mapChildren, if_pos hall, Option.some.injEq]
  funext i
  cases hc : children i with
  | none =>
      have := h i
      rw [hc] at this
      rw [Option.bind_none]
      exact (Option.not_isSome_iff_eq_none.mp (by rw [← this]; simp)).symm
  | some c =>
      obtain ⟨q, hq⟩ := Option.isSome_iff_exists.mp (by rw [← h, hc]; rfl)
      rw [Option.bind_some, hf i c q hc hq, hq]

theorem Resolves.of_store {d : B256} {node p : MptNode} (hstore : store (.digest d) = some node)
    (h : Resolves store node p) : Resolves store (.digest d) p := by
  obtain ⟨enough, h⟩ := h
  refine ⟨enough + 1, ?_⟩
  intro fuel hf
  obtain ⟨fuel, rfl⟩ : ∃ f, fuel = f + 1 := ⟨fuel - 1, by omega⟩
  simp only [resolveNodes, hstore]
  exact h fuel (by omega)

theorem resolves_leaf (path value : Bytes) : Resolves store (.leaf path value) (.leaf path value) := by
  refine ⟨1, ?_⟩
  intro fuel hf
  obtain ⟨fuel, rfl⟩ : ∃ f, fuel = f + 1 := ⟨fuel - 1, by omega⟩
  rfl

theorem resolves_missing {d : B256} (hstore : store (.digest d) = none) :
    Resolves store (.digest d) (.digest d) := by
  refine ⟨1, ?_⟩
  intro fuel hf
  obtain ⟨fuel, rfl⟩ : ∃ f, fuel = f + 1 := ⟨fuel - 1, by omega⟩
  simp only [resolveNodes, hstore]

theorem Resolves.extension {c q : MptNode} (path : Bytes) (h : Resolves store c q) :
    Resolves store (.extension path c) (.extension path q) := by
  obtain ⟨enough, h⟩ := h
  refine ⟨enough + 1, ?_⟩
  intro fuel hf
  obtain ⟨fuel, rfl⟩ : ∃ f, fuel = f + 1 := ⟨fuel - 1, by omega⟩
  simp only [resolveNodes, h fuel (by omega), Option.map_some]

theorem Resolves.branch {cs qs : Nibble → Option MptNode} (hs : ∀ i, (cs i).isSome = (qs i).isSome)
    (h : ∀ i c q, cs i = some c → qs i = some q → Resolves store c q) :
    Resolves store (.branch cs) (.branch qs) := by
  have hone (i : Nibble) : ∃ enough, ∀ c q, cs i = some c → qs i = some q → ∀ fuel, enough ≤ fuel →
      resolveNodes store fuel c = some q := by
    cases hc : cs i with
    | none => exact ⟨0, fun c q hc' => by cases hc'⟩
    | some c =>
        obtain ⟨q, hq⟩ := Option.isSome_iff_exists.mp (by rw [← hs, hc]; rfl)
        obtain ⟨enough, he⟩ := h i c q hc hq
        refine ⟨enough, ?_⟩
        intro c' q' hc' hq' fuel hf
        cases hc'
        obtain rfl := Option.some.inj (hq.symm.trans hq')
        exact he fuel hf
  choose enough henough using hone
  refine ⟨Finset.univ.sup enough + 1, ?_⟩
  intro fuel hf
  obtain ⟨fuel, rfl⟩ : ∃ f, fuel = f + 1 := ⟨fuel - 1, by omega⟩
  have hle (i : Nibble) : enough i ≤ fuel := by
    have := Finset.le_sup (f := enough) (Finset.mem_univ i)
    omega
  rw [resolveNodes, mapChildren_eq hs fun i c q hc hq => henough i c q hc hq fuel (hle i),
    Option.map_some]

theorem Faithful.child {t c : MptNode} (h : Faithful keccak store t) (hc : Subnode c t) :
    Faithful keccak store c := fun m d node hm => h m d node (hm.trans hc)

/-- A child resolves, from its reference, as the child itself does or to its digest. -/
theorem Faithful.resolves_stub {c : MptNode} (hstore : Faithful keccak store c)
    (h : ∃ p, Resolves store (c.trunc keccak) p ∧ Revealed keccak store p c) :
    ∃ p, Resolves store (stub keccak c (c.trunc keccak)) p ∧ Revealed keccak store p c := by
  unfold stub
  cases hr : c.reference keccak with
  | bytes bs => exact h
  | digest d =>
      cases hs : store (.digest d) with
      | none => exact ⟨.digest d, resolves_missing hs, .cut hr hs⟩
      | some node =>
          obtain ⟨p, hp, hrev⟩ := h
          rw [← hstore c d node (.refl c) hr hs] at hp
          exact ⟨p, hp.of_store hs, hrev⟩

/-- Decoded nodes of a full trie resolve in a faithful store, to what the store reveals. -/
theorem Full.resolves {t : MptNode} (ht : Full t) (hstore : Faithful keccak store t) :
    ∃ p, Resolves store (t.trunc keccak) p ∧ Revealed keccak store p t := by
  induction ht with
  | leaf ns value => exact ⟨_, resolves_leaf _ value, .leaf _ value⟩
  | @extension ns child _ _ _ ih =>
      have hc := hstore.child (.extension _ (.refl child))
      obtain ⟨p, hp, hrev⟩ := hc.resolves_stub (ih hc)
      exact ⟨_, hp.extension _, .extension _ hrev⟩
  | @branch children i j _ _ _ _ ih =>
      have hone (x : Nibble) : ∃ o : Option MptNode, o.isSome = (children x).isSome ∧
          (∀ c q, truncChild keccak (children x) = some c → o = some q → Resolves store c q) ∧
          ∀ q t, o = some q → children x = some t → Revealed keccak store q t := by
        cases hx : children x with
        | none => exact ⟨none, rfl, fun _ _ h => (nomatch h), fun _ _ h => (nomatch h)⟩
        | some c =>
            have hc := hstore.child (.branch hx (.refl c))
            obtain ⟨p, hp, hrev⟩ := hc.resolves_stub (ih x c hx hc)
            refine ⟨some p, rfl, ?_, ?_⟩
            · intro c' q hc' hq
              cases hc'
              cases hq
              exact hp
            · intro q t hq ht
              cases hq
              cases ht
              exact hrev
      choose qs hs hres hrev using hone
      refine ⟨.branch qs, Resolves.branch (?_) hres, .branch hs fun x => hrev x⟩
      intro x
      rw [hs]
      cases children x <;> rfl

end RethProcessor
