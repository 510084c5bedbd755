import RethProcessor.TrieProof

/-! Tries put together from the nodes of a proof. An honest proof gives a pruning of the
trie in which the key is answered, unless a branch has two children with the same digest. -/
namespace RethProcessor
open Paths Rlp

inductive FromProofError where
  | nodeNotFoundByHash (index : Nat)
  | nodeHasInvalidSuccessor (index : Nat)
  | nodeCannotHaveChildren (index : Nat)
  | mismatchedStorageRoot (address : Bytes) (found expected : B256)
  | mismatchedStateRoot (found expected : B256)
  | decodingError (e : Error)
  deriving DecidableEq

/-- How reading proofs fails to return `Ok`. -/
inductive ProofFailure where
  | err (e : FromProofError)
  | panic
  deriving DecidableEq

/-- `?` on the result of decoding. -/
def Failure.fromProof : Failure → ProofFailure
  | .err e => .err (.decodingError e)
  | .panic => .panic

/-- `matches!(child.as_data(), MptNodeData::Digest(d) if d == child_ref)`. -/
def MptNode.isDigestOf (childRef : B256) : MptNode → Bool
  | .digest d => decide (d = childRef)
  | _ => false

/-- The node of a proof at an index, with its successor in the place of the digest that
stands for it. -/
def replaceChild (i : Nat) (node : MptNode) (childRef : B256) (replacement : MptNode) :
    Except FromProofError MptNode :=
  match node with
  | .branch children =>
      match (List.finRange 16).find? fun x => (children x).any (MptNode.isDigestOf childRef) with
      | some x => .ok (.branch (Function.update children x (some replacement)))
      | none => .error (.nodeHasInvalidSuccessor i)
  | .extension path child =>
      if child.isDigestOf childRef then .ok (.extension path replacement)
      else .error (.nodeHasInvalidSuccessor i)
  | .null | .leaf _ _ | .digest _ => .error (.nodeCannotHaveChildren i)

section Keccak
variable (keccak : Bytes → B256)

/-- The loop of `mpt_from_proof` over the nodes from an index on, the last one first. -/
def linkNodes (i : Nat) : List MptNode → Except FromProofError (Option MptNode)
  | [] => .ok none
  | node :: rest =>
      match linkNodes (i + 1) rest with
      | .error e => .error e
      | .ok none => .ok (some node)
      | .ok (some replacement) =>
          match replacement.reference keccak with
          | .bytes _ => .error (.nodeNotFoundByHash (i + 1))
          | .digest childRef => some <$> replaceChild i node childRef replacement

def mptFromProof (proofNodes : List MptNode) : Except FromProofError MptNode :=
  (·.getD default) <$> linkNodes keccak 0 proofNodes

def isNotIncluded (key : Bytes) (proofNodes : List MptNode) : Except ProofFailure Bool :=
  match mptFromProof keccak proofNodes with
  | .error _ => .error .panic
  | .ok proofTrie =>
      match proofTrie.get key with
      | .error _ => .error .panic
      | .ok value => .ok value.isNone

/-- The nodes of a proof, parsed and found to link up. Both results are unwrapped. -/
def checkedProof (proof : List Bytes) : Except ProofFailure (List MptNode) :=
  match parseProof proof with
  | .error _ => .error .panic
  | .ok proofNodes =>
      match mptFromProof keccak proofNodes with
      | .error _ => .error .panic
      | .ok _ => .ok proofNodes

/-- `add_orphaned_leafs` for a key, given its hash: the nodes that it inserts, each under its
own reference. -/
def addOrphanedLeafs (hashedKey : Bytes) (proof : List Bytes) : Except ProofFailure (List MptNode) :=
  if proof.isEmpty then .ok []
  else
    match parseProof proof with
    | .error f => .error f.fromProof
    | .ok proofNodes =>
        match isNotIncluded keccak hashedKey proofNodes with
        | .error f => .error f
        | .ok false => .ok []
        | .ok true =>
            match proofNodes.getLast? with
            | none => .error .panic
            | some leaf => (shortenNodePath leaf).mapError Failure.fromProof

/-- No branch in the node has two children with the same digest. -/
def Untwinned (n : MptNode) : Prop :=
  ∀ children i j c c' d, Subnode (.branch children) n → children i = some c → children j = some c' →
    c.reference keccak = .digest d → c'.reference keccak = .digest d → i = j

/-- At no branch on the way of the key does a child of lower index have the digest of the
child that the key passes. -/
def Unshadowed (n : MptNode) (key : List Nibble) : Prop :=
  ∀ way children x rest y c c' d, NodeAt n way (.branch children) → key = way ++ x :: rest →
    children x = some c → children y = some c' → c.reference keccak = .digest d →
    c'.reference keccak = .digest d → ¬ y < x

end Keccak

variable {keccak : Bytes → B256}

theorem NodeAt.subnode {n m : MptNode} {way : List Nibble} (h : NodeAt n way m) : Subnode m n := by
  induction h with
  | refl n => exact .refl n
  | branch hc _ ih => exact .branch hc ih
  | extension _ _ ih => exact .extension _ ih

theorem Untwinned.unshadowed {n : MptNode} (h : Untwinned keccak n) (key : List Nibble) :
    Unshadowed keccak n key := by
  intro way children x rest y c c' d hat _ hx hy hd hd' hlt
  rw [h children x y c c' d hat.subnode hx hy hd hd'] at hlt
  exact Fin.lt_irrefl y hlt

theorem untwinned_leaf (keccak : Bytes → B256) (path value : Bytes) : Untwinned keccak (.leaf path value) := by
  intro children i j c c' d hsub
  cases hsub

theorem untwinned_pair {a b : Nibble} {p q v w : Bytes}
    (hne : (MptNode.leaf p v).reference keccak ≠ (MptNode.leaf q w).reference keccak) :
    Untwinned keccak (splitBranch [] a (.leaf p v) b (.leaf q w)) := by
  intro children i j c c' d hsub hc hc' hd hd'
  rw [splitBranch, if_neg (by simp)] at hsub
  cases hsub with
  | refl =>
      have heq := hd.trans hd'.symm
      rcases child_of_pair hc with ⟨rfl, rfl⟩ | ⟨rfl, rfl⟩
      · rcases child_of_pair hc' with ⟨rfl, rfl⟩ | ⟨rfl, rfl⟩
        · rfl
        · exact absurd heq hne
      · rcases child_of_pair hc' with ⟨rfl, rfl⟩ | ⟨rfl, rfl⟩
        · exact absurd heq.symm hne
        · rfl
  | branch hk hsub =>
      rcases child_of_pair hk with ⟨-, rfl⟩ | ⟨-, rfl⟩
      · cases hsub
      · cases hsub

/-- The branch itself, and what is below the child that the key passes. -/
theorem unshadowed_branch_cons {children : Nibble → Option MptNode} {x : Nibble} {c : MptNode}
    (hx : children x = some c) (tail : List Nibble) : Unshadowed keccak (.branch children) (x :: tail) ↔
      (∀ y c' d, children y = some c' → c.reference keccak = .digest d → c'.reference keccak = .digest d →
        ¬ y < x) ∧ Unshadowed keccak c tail := by
  constructor
  · intro h
    refine ⟨fun y c' d hy hd hd' => h [] children x tail y c c' d (.refl _) rfl hx hy hd hd', ?_⟩
    intro way others z rest y a b d hat hkey
    exact h (x :: way) others z rest y a b d (.branch hx hat) (by rw [hkey, List.cons_append])
  · rintro ⟨hhere, hbelow⟩ way others z rest y a b d hat hkey hz hy hd hd'
    cases way with
    | nil =>
        obtain ⟨rfl, rfl⟩ := List.cons.inj hkey
        cases hat
        obtain rfl : c = a := Option.some.inj (hx.symm.trans hz)
        exact hhere y b d hy hd hd'
    | cons w way =>
        obtain ⟨rfl, rfl⟩ := List.cons.inj hkey
        obtain ⟨c', hc', hat⟩ := nodeAt_branch_cons.mp hat
        obtain rfl : c = c' := Option.some.inj (hx.symm.trans hc')
        exact hbelow way others z rest y a b d hat rfl hz hy hd hd'

theorem unshadowed_extension_append (ns : List Nibble) (c : MptNode) (tail : List Nibble) :
    Unshadowed keccak (.extension (toEncodedPath ns false) c) (ns ++ tail) ↔ Unshadowed keccak c tail := by
  have hp := prefixNibs_toEncodedPath ns false
  constructor
  · intro h way others z rest y a b d hat hkey
    exact h (ns ++ way) others z rest y a b d (.extension hp hat) (by rw [hkey, List.append_assoc])
  · intro h way others z rest y a b d hat hkey
    cases hat with
    | extension hp' hat =>
        rw [hp, Except.ok.injEq] at hp'
        subst hp'
        rw [List.append_assoc, List.append_cancel_left_eq] at hkey
        exact h _ others z rest y a b d hat hkey

/-- A key that leaves the trie at the root passes no branch below it. -/
theorem unshadowed_of_root {n : MptNode} {key : List Nibble}
    (h : ∀ way x rest m, key = way ++ x :: rest → NodeAt n way m → m.isBranch = true →
      ∃ children, m = .branch children ∧ children x = none) : Unshadowed keccak n key := by
  intro way children x rest y c c' d hat hkey hx
  obtain ⟨others, hm, hnone⟩ := h way x rest _ hkey hat rfl
  obtain rfl := MptNode.branch.inj hm
  rw [hnone] at hx
  cases hx

/-- A digest is too long for a node that is itself inlined. -/
theorem inlined_item {n : MptNode} (hl : n.isListed) (h : ∀ d, n.reference keccak ≠ .digest d)
    {c : MptNode} (hc : (c.reference keccak).encode ∈ n.items keccak) (d : B256) :
    c.reference keccak ≠ .digest d := by
  intro hd
  have hlt := item_length_lt hl hc
  rw [reference_of_isListed hl] at h
  rw [hd] at hlt
  split at h
  · simp only [MptNodeReference.encode, List.length_cons, d.length_eq] at hlt
    omega
  · exact h _ rfl

/-- Below an inlined node nothing is referenced by digest. -/
theorem Full.inlined {n : MptNode} (hn : Full n) (h : ∀ d, n.reference keccak ≠ .digest d) :
    n.trunc keccak = n ∧ ∀ key, n.hashedOnWay keccak key = [] := by
  have hstep {c : MptNode} (hc : ∀ d, c.reference keccak ≠ .digest d)
      (ih : c.trunc keccak = c ∧ ∀ key, c.hashedOnWay keccak key = []) :
      stub keccak c (c.trunc keccak) = c ∧
        ∀ key, hashedSelf keccak c ++ c.hashedOnWay keccak key = [] := by
    cases hr : c.reference keccak with
    | digest d => exact absurd hr (hc d)
    | bytes bs => exact ⟨by simp only [stub, hr, ih.1], fun key => by simp only [hashedSelf, hr, ih.2, List.append_nil]⟩
  induction hn with
  | leaf ns value => exact ⟨rfl, fun key => by cases key <;> rfl⟩
  | @branch children i j _ _ _ hall ih =>
      have hchild {x : Nibble} {c : MptNode} (hx : children x = some c) :=
        hstep (inlined_item rfl h (mem_items_branch hx)) (ih x c hx (inlined_item rfl h (mem_items_branch hx)))
      constructor
      · simp only [MptNode.trunc, MptNode.branch.injEq]
        funext x
        cases hx : children x with
        | none => rfl
        | some c => exact congrArg some (hchild hx).1
      · intro key
        cases key with
        | nil => rfl
        | cons x tail =>
            cases hx : children x with
            | none => simp only [MptNode.hashedOnWay, hx, hashedFrom]
            | some c => rw [hashedOnWay_branch_cons hx, (hchild hx).2]
  | @extension ns child _ _ _ ih =>
      have hc := @inlined_item keccak _ rfl h child (by simp [MptNode.items])
      obtain ⟨htrunc, hway⟩ := hstep hc (ih hc)
      constructor
      · simp only [MptNode.trunc, htrunc]
      · intro key
        by_cases hpre : ns <+: key
        · obtain ⟨tail, rfl⟩ := hpre
          rw [hashedOnWay_extension_append (prefixNibs_toEncodedPath ns false), hway]
        · exact hashedOnWay_extension_of_not hpre child

theorem isDigestOf_stub {n : MptNode} (hn : Full n) (d : B256) :
    (stub keccak n (n.trunc keccak)).isDigestOf d = true ↔ n.reference keccak = .digest d := by
  unfold stub
  cases hr : n.reference keccak with
  | digest e => simp [MptNode.isDigestOf]
  | bytes bs => cases hn <;> simp [MptNode.trunc, MptNode.isDigestOf]

/-- The child that is found is the first one with the digest. -/
theorem find_child {children : Nibble → Option MptNode} (hn : Full (.branch children)) {x : Nibble} {c : MptNode}
    (hx : children x = some c) {d : B256} (hd : c.reference keccak = .digest d) :
    ∃ y c', ((List.finRange 16).find? fun y => (truncChild keccak (children y)).any (MptNode.isDigestOf d)) = some y ∧
      children y = some c' ∧ c'.reference keccak = .digest d ∧
      ∀ z a, children z = some a → a.reference keccak = .digest d → y ≤ z := by
  have hall : ∀ y c, children y = some c → Full c := by
    cases hn with
    | branch _ _ _ hall => exact hall
  have hpred {y : Nibble} {c : MptNode} (hy : children y = some c) :
      (truncChild keccak (children y)).any (MptNode.isDigestOf d) = true ↔ c.reference keccak = .digest d := by
    rw [hy, truncChild, Option.any_some, isDigestOf_stub (hall y c hy)]
  cases hf : (List.finRange 16).find? fun y => (truncChild keccak (children y)).any (MptNode.isDigestOf d) with
  | none =>
      have hnone := List.find?_eq_none.mp hf x (List.mem_finRange x)
      exact absurd ((hpred hx).mpr hd) hnone
  | some y =>
      obtain ⟨hy, before, after, hlist, hbefore⟩ := List.find?_eq_some_iff_append.mp hf
      cases hc : children y with
      | none =>
          rw [hc] at hy
          cases hy
      | some c' =>
          refine ⟨y, c', rfl, hc, (hpred hc).mp hy, ?_⟩
          intro z a hz ha
          have hmem : z ∈ before ++ y :: after := hlist ▸ List.mem_finRange z
          have hsorted := List.pairwise_lt_finRange 16
          rw [hlist] at hsorted
          rcases List.mem_append.mp hmem with hz' | hz'
          · have := hbefore z hz'
            rw [(hpred hz).mpr ha] at this
            cases this
          · rcases List.mem_cons.mp hz' with rfl | hz'
            · exact Fin.le_refl z
            · exact Fin.le_of_lt ((List.pairwise_cons.mp (List.pairwise_append.mp hsorted).2.1).1 z hz')

theorem linkNodes_cons {i : Nat} {n replacement p : MptNode} {rest : List MptNode} {d : B256}
    (hrest : linkNodes keccak (i + 1) rest = .ok (some replacement))
    (hd : replacement.reference keccak = .digest d) (hp : replaceChild i n d replacement = .ok p) :
    linkNodes keccak i (n :: rest) = .ok (some p) := by
  simp only [linkNodes, hrest, hd, hp]
  rfl

/-- The nodes of the honest proof of a key, from the given one on, link up to a node with its
reference, which answers the key as the given one does unless a digest is in its way. -/
def LinksUp (keccak : Bytes → B256) (i : Nat) (n : MptNode) (key : List Nibble) : Prop :=
  ∃ p, linkNodes keccak i ((n :: n.hashedOnWay keccak key).map (MptNode.trunc keccak)) = .ok (some p) ∧
    p.reference keccak = n.reference keccak ∧ (p.getInternal key = n.getInternal key ↔ Unshadowed keccak n key) ∧
    (Unshadowed keccak n key → Pruning keccak p n)

/-- With no node after it, the node itself is what they link up to. -/
theorem linksUp_alone {i : Nat} {n : MptNode} {key : List Nibble} (hway : n.hashedOnWay keccak key = [])
    (hget : (n.trunc keccak).getInternal key = n.getInternal key) (h : Unshadowed keccak n key) :
    LinksUp keccak i n key := by
  refine ⟨n.trunc keccak, ?_, reference_trunc n, iff_of_true hget h, fun _ => pruning_trunc n⟩
  rw [hway]
  rfl

theorem LinksUp.unshadowed {i : Nat} {n : MptNode} {key : List Nibble} (h : LinksUp keccak i n key)
    (htrunc : n.trunc keccak = n) (hway : n.hashedOnWay keccak key = []) : Unshadowed keccak n key := by
  obtain ⟨p, hp, -, hget, -⟩ := h
  rw [hway, List.map_singleton, htrunc] at hp
  obtain rfl : n = p := Option.some.inj (Except.ok.inj hp)
  exact hget.mp rfl

/-- Where the next node is a child of a branch, it gets the place of the first child with its
digest. -/
theorem linksUp_branch {i : Nat} {children : Nibble → Option MptNode} (hn : Full (.branch children)) {x : Nibble}
    {c : MptNode} (hx : children x = some c) {d : B256} (hr : c.reference keccak = .digest d) {tail : List Nibble}
    (h : LinksUp keccak (i + 1) c tail) : LinksUp keccak i (.branch children) (x :: tail) := by
  obtain ⟨p, hp, href, hget, hpc⟩ := h
  obtain ⟨y, c', hfind, hy, hd, hfirst⟩ := find_child hn hx hr
  have hstub {z : Nibble} {b : MptNode} (hz : children z = some b) (hb : b.reference keccak = .digest d) :
      truncChild keccak (children z) = some (.digest d) := by
    simp only [hz, truncChild, stub, hb]
  have hcut := pruning_branch_update (fun z => .refl (truncChild keccak (children z))) y
    (pruningChild_some.mpr (.cut (href.trans hr)))
  rw [← hstub hy hd, Function.update_eq_self] at hcut
  rw [LinksUp, hashedOnWay_branch_cons hx, unshadowed_branch_cons hx]
  refine ⟨_, linkNodes_cons (by rw [hashedSelf_digest hr]; exact hp) (href.trans hr)
    (by simp only [MptNode.trunc, replaceChild, hfind]),
    (pruning_branch_iff.mpr hcut).reference_eq.symm.trans (reference_trunc (.branch children)), ?_⟩
  rw [getInternal_branch_cons, getInternal_branch_cons, hx, getChild_some]
  by_cases hyx : y = x
  · -- the child that is found is the one on the way
    subst hyx
    have hfree : ∀ z a e, children z = some a → c.reference keccak = .digest e → a.reference keccak = .digest e →
        ¬ z < y := by
      intro z a e hz he ha
      rw [hr, MptNodeReference.digest.injEq] at he
      exact Fin.not_lt.mpr (hfirst z a hz (he ▸ ha))
    rw [Function.update_self, getChild_some]
    refine ⟨⟨fun h => ⟨hfree, hget.mp h⟩, fun h => hget.mpr h.2⟩, ?_⟩
    intro h
    have hup := pruning_branch_update (pruning_branch_iff.mp (@pruning_trunc keccak (.branch children))) y
      (pruningChild_some.mpr (hpc h.2))
    rw [← hx, Function.update_eq_self] at hup
    exact pruning_branch_iff.mpr hup
  · have hlt : y < x := lt_of_le_of_ne (hfirst x c hx hr) hyx
    have hno : ¬ ((∀ z a e, children z = some a → c.reference keccak = .digest e → a.reference keccak = .digest e →
        ¬ z < x) ∧ Unshadowed keccak c tail) :=
      fun h => h.1 y c' d hy hr hd hlt
    refine ⟨iff_of_false ?_ hno, fun h => absurd h hno⟩
    have hc : Full c := by
      cases hn with
      | branch _ _ _ hall => exact hall x c hx
    obtain ⟨o, ho⟩ := hc.answers tail
    rw [Function.update_of_ne (Ne.symm hyx), hstub hx hr, getChild_some, ho]
    intro h
    cases h

theorem linksUp_extension {i : Nat} {ns tail : List Nibble} {child : MptNode} (hc : Full child) {d : B256}
    (hr : child.reference keccak = .digest d) (h : LinksUp keccak (i + 1) child tail) :
    LinksUp keccak i (.extension (toEncodedPath ns false) child) (ns ++ tail) := by
  obtain ⟨p, hp, href, hget, hpc⟩ := h
  rw [LinksUp, hashedOnWay_extension_append (prefixNibs_toEncodedPath ns false), unshadowed_extension_append]
  refine ⟨_, linkNodes_cons (by rw [hashedSelf_digest hr]; exact hp) (href.trans hr) ?_, ?_, ?_,
    fun h => .extension _ (hpc h)⟩
  · simp only [MptNode.trunc, replaceChild, (isDigestOf_stub hc d).mpr hr, ↓reduceIte]
  · rw [reference_of_isListed rfl, reference_of_isListed rfl, encode_extension, encode_extension, href]
  · rw [getInternal_extension_append, getInternal_extension_append, hget]

/-- A key that leaves a branch at once passes no other one. -/
theorem unshadowed_branch_none {children : Nibble → Option MptNode} {x : Nibble} (hx : children x = none)
    (tail : List Nibble) : Unshadowed keccak (.branch children) (x :: tail) := by
  apply unshadowed_of_root
  intro way z rest m hkey hat hm
  cases way with
  | nil =>
      obtain ⟨rfl, -⟩ := List.cons.inj hkey
      cases hat
      exact ⟨children, rfl, hx⟩
  | cons w way =>
      obtain ⟨rfl, -⟩ := List.cons.inj hkey
      obtain ⟨c, hc, -⟩ := nodeAt_branch_cons.mp hat
      rw [hx] at hc
      cases hc

theorem unshadowed_extension_of_not {ns key : List Nibble} (hpre : ¬ ns <+: key) (child : MptNode) :
    Unshadowed keccak (.extension (toEncodedPath ns false) child) key := by
  apply unshadowed_of_root
  intro way x rest m hkey hat hm
  cases hat with
  | refl => cases hm
  | extension hp _ =>
      rw [prefixNibs_toEncodedPath, Except.ok.injEq] at hp
      subst hp
      rw [hkey, List.append_assoc] at hpre
      exact absurd (List.prefix_append ns _) hpre

/-- The nodes of an honest proof link up to a trie in which the key is answered, unless a
branch on its way has a child before that has the same digest. Then a digest is in its way. -/
theorem Full.linksUp {n : MptNode} (hn : Full n) (i : Nat) (key : List Nibble) : LinksUp keccak i n key := by
  induction hn generalizing i key with
  | leaf ns value =>
      refine linksUp_alone (by cases key <;> rfl) rfl (unshadowed_of_root ?_)
      intro way x rest m _ hat hm
      cases hat
      cases hm
  | @branch children a b hab ha hb hall ih =>
      cases key with
      | nil =>
          refine linksUp_alone rfl rfl ?_
          intro way others x rest y c c' d _ hkey
          exact absurd hkey (by simp)
      | cons x tail =>
          cases hx : children x with
          | none =>
              refine linksUp_alone ?_ ?_ (unshadowed_branch_none hx tail)
              · simp only [MptNode.hashedOnWay, hx, hashedFrom]
              · simp only [MptNode.trunc, getInternal_branch_cons, hx, truncChild]
          | some c =>
              have hc := ih x c hx (i + 1) tail
              cases hr : c.reference keccak with
              | digest d => exact linksUp_branch (.branch hab ha hb hall) hx hr hc
              | bytes bs =>
                  have hbytes : ∀ d, c.reference keccak ≠ .digest d := by simp [hr]
                  obtain ⟨htrunc, hway⟩ := (hall x c hx).inlined hbytes
                  refine linksUp_alone ?_ ?_ ((unshadowed_branch_cons hx tail).mpr ⟨?_, hc.unshadowed htrunc (hway tail)⟩)
                  · rw [hashedOnWay_branch_cons hx, hway, hashedSelf, hr]
                    rfl
                  · simp only [MptNode.trunc, getInternal_branch_cons, hx, truncChild, stub, hr, htrunc]
                  · intro y c' d _ hd
                    exact absurd hd (hbytes d)
  | @extension ns child hns hkind hc ih =>
      by_cases hpre : ns <+: key
      · obtain ⟨tail, rfl⟩ := hpre
        have hchild := ih (i + 1) tail
        cases hr : child.reference keccak with
        | digest d => exact linksUp_extension hc hr hchild
        | bytes bs =>
            obtain ⟨htrunc, hway⟩ := hc.inlined (by rw [hr]; simp)
            refine linksUp_alone ?_ ?_ ((unshadowed_extension_append ns child tail).mpr
              (hchild.unshadowed htrunc (hway tail)))
            · rw [hashedOnWay_extension_append (prefixNibs_toEncodedPath ns false), hway, hashedSelf, hr]
              rfl
            · simp only [MptNode.trunc, stub, hr, htrunc]
      · refine linksUp_alone (hashedOnWay_extension_of_not hpre child) ?_ (unshadowed_extension_of_not hpre child)
        simp only [MptNode.trunc, getInternal_extension_of_not hpre]

theorem FullTrie.mptFromProof {n : MptNode} (hn : FullTrie n) (h : Untwinned keccak n) (key : List Nibble) :
    ∃ p, RethProcessor.mptFromProof keccak ((n :: n.hashedOnWay keccak key).map (MptNode.trunc keccak)) = .ok p ∧
      Pruning keccak p n ∧ p.getInternal key = n.getInternal key := by
  rcases hn with rfl | hn
  · exact ⟨.null, by cases key <;> rfl, .null, rfl⟩
  · obtain ⟨p, hp, -, hget, hpr⟩ := hn.linksUp 0 key
    refine ⟨p, ?_, hpr (h.unshadowed key), hget.mpr (h.unshadowed key)⟩
    rw [RethProcessor.mptFromProof, hp]
    rfl

/-- An honest proof tells whether its key is in the trie. -/
theorem FullTrie.isNotIncluded {n : MptNode} (hn : FullTrie n) (h : Untwinned keccak n) {key : Bytes}
    {o : Option Bytes} (ho : n.get key = .ok o) :
    RethProcessor.isNotIncluded keccak key
      ((n :: n.hashedOnWay keccak (toNibs key)).map (MptNode.trunc keccak)) = .ok o.isNone := by
  obtain ⟨p, hp, -, hget⟩ := hn.mptFromProof h (toNibs key)
  simp only [RethProcessor.isNotIncluded, hp, MptNode.get, hget, show n.getInternal (toNibs key) = .ok o from ho]

/-- An honest proof passes the check. -/
theorem FullTrie.checkedProof {n : MptNode} (hn : FullTrie n) (haddr : Addressable keccak n)
    (h : Untwinned keccak n) (key : Bytes) :
    RethProcessor.checkedProof keccak (honestProof keccak n key) =
      .ok ((n :: n.hashedOnWay keccak (toNibs key)).map (MptNode.trunc keccak)) := by
  obtain ⟨p, hp, -⟩ := hn.mptFromProof h (toNibs key)
  simp only [RethProcessor.checkedProof, hn.parseProof haddr, hp]

theorem honestProof_isEmpty (n : MptNode) (key : Bytes) : (honestProof keccak n key).isEmpty = false := rfl

theorem FullTrie.addOrphanedLeafs_stored {n : MptNode} (hn : FullTrie n) (haddr : Addressable keccak n)
    (h : Untwinned keccak n) {key value : Bytes} (hget : n.get key = .ok (some value)) :
    addOrphanedLeafs keccak key (honestProof keccak n key) = .ok [] := by
  simp only [addOrphanedLeafs, honestProof_isEmpty, hn.parseProof haddr, hn.isNotIncluded h hget,
    Option.isNone_some, Bool.false_eq_true, ↓reduceIte]

/-- For a key that is absent, the last node of its proof is shortened. -/
theorem FullTrie.addOrphanedLeafs_absent {n : MptNode} (hn : FullTrie n) (haddr : Addressable keccak n)
    (h : Untwinned keccak n) {key : Bytes} (hget : n.get key = .ok none) {last : MptNode}
    (hlast : (n :: n.hashedOnWay keccak (toNibs key)).getLast? = some last) :
    addOrphanedLeafs keccak key (honestProof keccak n key) =
      (shortenNodePath (last.trunc keccak)).mapError Failure.fromProof := by
  simp only [addOrphanedLeafs, honestProof_isEmpty, hn.parseProof haddr, hn.isNotIncluded h hget,
    Option.isNone_none, List.getLast?_map, hlast, Option.map_some, Bool.false_eq_true, ↓reduceIte]

end RethProcessor
