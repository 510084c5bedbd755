import RethProcessor.StateProofs
import RethProcessor.Steps

/-! Which malformed proofs make the two builders panic, or go round in a circle for ever. Most
results on the way are unwrapped; what `add_orphaned_leafs` cannot decode, and roots that do not
match, are returned as errors. What comes first in the iteration of the map decides. -/
namespace RethProcessor
open Paths Rlp Calls

/-- What is done with the proofs, in this order. -/
inductive ProofStep where
  /-- The proof is parsed and linked. -/
  | read (proof : List Bytes)
  /-- The proof of the same account after the transition is looked up. -/
  | later (found : Option AccountProof)
  /-- The leaf of an exclusion proof is added. -/
  | orphans (hashedKey : Bytes) (proof : List Bytes)
  /-- The nodes are put together to a trie, which is compared with its root. -/
  | resolve (nodes : List MptNode) (root : MptNode) (expected : B256)

/-- The nodes of a proof that is decoded. -/
def proofNodes (proof : List Bytes) : List MptNode := (parseProof proof).toOption.getD []

/-- The first node of the last of the proofs that has one. -/
def rootNode (proofs : List (List Bytes)) : MptNode :=
  proofs.foldl (fun root proof => (proofNodes proof).head?.getD root) default

section Keccak
variable (keccak : Bytes → B256)

/-- The nodes that `add_orphaned_leafs` adds. -/
def orphanNodes (hashedKey : Bytes) (proof : List Bytes) : List MptNode :=
  (addOrphanedLeafs keccak hashedKey proof).toOption.getD []

def storageNodes (proof finiProofs : AccountProof) : List MptNode :=
  proof.storageProofs.flatMap (fun slot => proofNodes slot.proof) ++
    (finiProofs.storageProofs.map fun slot => orphanNodes keccak (keccak slot.key.bytes).bytes slot.proof).flatten

def storageSteps (proof finiProofs : AccountProof) : List ProofStep :=
  if proof.storageProofs.isEmpty then []
  else proof.storageProofs.flatMap (fun slot => [.read slot.proof]) ++
    (finiProofs.storageProofs.flatMap (fun slot => [.orphans (keccak slot.key.bytes).bytes slot.proof]) ++
      [.resolve (storageNodes keccak proof finiProofs) (rootNode (proof.storageProofs.map StorageProof.proof))
        proof.storageRoot])

variable (fini : Address → Option AccountProof)

/-- The nodes that an account adds to those of the state. -/
def stateNodes (entry : Σ _ : Address, AccountProof) : List MptNode :=
  proofNodes entry.2.proof ++
    (fini entry.1).elim [] fun finiProofs => orphanNodes keccak (keccak entry.1.bytes).bytes finiProofs.proof

def accountSteps (entry : Σ _ : Address, AccountProof) : List ProofStep :=
  [.read entry.2.proof] ++ ([.later (fini entry.1)] ++ (fini entry.1).elim [] fun finiProofs =>
    [.orphans (keccak entry.1.bytes).bytes finiProofs.proof] ++ storageSteps keccak entry.2 finiProofs)

def stateSteps (stateRoot : B256) (proofs : IteratedMap Address AccountProof) : List ProofStep :=
  if proofs.entries.isEmpty then []
  else proofs.entries.flatMap (accountSteps keccak fini) ++
    [.resolve (proofs.entries.flatMap (stateNodes keccak fini)) (rootNode (proofs.entries.map fun e => e.2.proof))
      stateRoot]

/-- Malformed nodes and broken links are refused in an exclusion proof only, and there broken links
are not. Nodes that lead back to themselves are never put together. -/
def proofFaults : Faults ProofStep where
  refuses
    | .read _ | .later _ => False
    | .orphans _ proof => ∃ e, parseProof proof = .error (.err e)
    | .resolve _ root expected => root.hash keccak ≠ expected
  breaks
    | .read proof => ¬ ∃ nodes t, parseProof proof = .ok nodes ∧ mptFromProof keccak nodes = .ok t
    | .later found => found = none
    | .orphans hashedKey proof => parseProof proof = .error .panic ∨
        ∃ nodes, parseProof proof = .ok nodes ∧
          ¬ ∃ t o, mptFromProof keccak nodes = .ok t ∧ t.get hashedKey = .ok o
    | .resolve nodes root _ => Circles (storeOf keccak nodes) root

end Keccak

/-- A call that works through steps of proofs. -/
abbrev RunsSteps {α : Type} (keccak : Bytes → B256) (steps : List ProofStep) (call : Nat → Call ProofFailure α)
    (P : α → Prop) : Prop :=
  Runs (proofFaults keccak) (· = ProofFailure.panic) steps call P

section Steps
variable {keccak : Bytes → B256}

theorem proofNodes_of_ok {proof : List Bytes} {nodes : List MptNode} (h : parseProof proof = .ok nodes) :
    proofNodes proof = nodes := by
  rw [proofNodes, h]
  rfl

theorem runs_read (acc : List MptNode × MptNode) (proof : List Bytes) :
    RunsSteps keccak [.read proof] (fun _ => liftM (readProof keccak acc proof))
      (· = (acc.1 ++ proofNodes proof, (proofNodes proof).head?.getD acc.2)) := by
  cases hparse : parseProof proof with
  | error f =>
      refine runs_crashed (e := .panic) ?_ ?_ rfl
      · rw [readProof, checkedProof, hparse]
        rfl
      · rintro ⟨nodes, t, hnodes, -⟩
        cases hparse.symm.trans hnodes
  | ok nodes =>
      cases hlink : mptFromProof keccak nodes with
      | error f =>
          refine runs_crashed (e := .panic) ?_ ?_ rfl
          · simp only [readProof, checkedProof, hparse, hlink]
            rfl
          · rintro ⟨nodes', t, hnodes, ht⟩
            cases hparse.symm.trans hnodes
            cases hlink.symm.trans ht
      | ok t =>
          refine runs_ok (a := (acc.1 ++ nodes, nodes.head?.getD acc.2)) ?_
            ⟨fun h => h ⟨nodes, t, hparse, hlink⟩, id⟩ ?_
          · simp only [readProof, checkedProof, hparse, hlink]
            rfl
          · rw [proofNodes_of_ok hparse]

theorem fromProof_ne_panic (e : FromProofError) : ProofFailure.err e ≠ .panic := by
  intro h
  cases h

theorem runs_later (later : Option AccountProof) :
    RunsSteps keccak [.later later] (fun _ => liftM (later.elim (Except.error ProofFailure.panic) Except.ok))
      (later = some ·) := by
  cases later with
  | none => exact runs_crashed rfl (show (none : Option AccountProof) = none from rfl) rfl
  | some finiProofs =>
      refine runs_ok rfl ⟨?_, id⟩ rfl
      intro h
      cases h

theorem shortenNodePath_ok {n : MptNode} (hn : WellFlagged n) : ∃ nodes, shortenNodePath n = .ok nodes := by
  cases hn with
  | null | branch | digest => exact ⟨_, rfl⟩
  | @leaf path value hflag =>
      obtain ⟨ns, hns⟩ := prefixNibs_of_ne_nil (leafFlag_ne_nil hflag)
      exact ⟨_, by simp only [shortenNodePath, MptNode.nibs, hns]; rfl⟩
  | @extension path child hpath _ _ =>
      obtain ⟨ns, hns⟩ := prefixNibs_of_ne_nil hpath
      exact ⟨_, by simp only [shortenNodePath, MptNode.nibs, hns]; rfl⟩

theorem addOrphanedLeafs_error {hashedKey : Bytes} {proof : List Bytes} {f : Failure}
    (hparse : parseProof proof = .error f) : addOrphanedLeafs keccak hashedKey proof = .error f.fromProof := by
  cases proof with
  | nil => cases hparse
  | cons b rest => simp only [addOrphanedLeafs, List.isEmpty_cons, hparse, Bool.false_eq_true, ↓reduceIte]

theorem addOrphanedLeafs_ok {hashedKey : Bytes} {proof : List Bytes} {nodes : List MptNode} {t : MptNode}
    {o : Option Bytes} (hparse : parseProof proof = .ok nodes) (ht : mptFromProof keccak nodes = .ok t)
    (ho : t.get hashedKey = .ok o) : ∃ leafs, addOrphanedLeafs keccak hashedKey proof = .ok leafs := by
  cases proof with
  | nil => exact ⟨[], rfl⟩
  | cons b rest =>
      simp only [addOrphanedLeafs, List.isEmpty_cons, hparse, isNotIncluded, ht, ho, Bool.false_eq_true, ↓reduceIte]
      cases o with
      | some value => exact ⟨[], rfl⟩
      | none =>
          have hne : nodes ≠ [] := by
            rintro rfl
            have := (mapM_ok_inv hparse).1
            cases this
          have hlast := List.getLast?_eq_some_getLast hne
          obtain ⟨leafs, hleafs⟩ := shortenNodePath_ok
            (parseProof_wellFlagged hparse _ (List.mem_of_getLast? hlast))
          refine ⟨leafs, ?_⟩
          simp only [Option.isNone_none, hlast, hleafs]
          rfl

theorem addOrphanedLeafs_panics {hashedKey : Bytes} {proof : List Bytes} {nodes : List MptNode}
    (hparse : parseProof proof = .ok nodes)
    (hget : ¬ ∃ t o, mptFromProof keccak nodes = .ok t ∧ t.get hashedKey = .ok o) :
    addOrphanedLeafs keccak hashedKey proof = .error .panic := by
  cases proof with
  | nil =>
      cases hparse
      exact absurd ⟨_, _, rfl, rfl⟩ hget
  | cons b rest =>
      simp only [addOrphanedLeafs, List.isEmpty_cons, hparse, isNotIncluded, Bool.false_eq_true, ↓reduceIte]
      cases ht : mptFromProof keccak nodes with
      | error e => rfl
      | ok t =>
          cases ho : t.get hashedKey with
          | error e => simp only [ho]
          | ok o => exact absurd ⟨t, o, ht, ho⟩ hget

theorem runs_orphans (hashedKey : Bytes) (proof : List Bytes) :
    RunsSteps keccak [.orphans hashedKey proof] (fun _ => liftM (addOrphanedLeafs keccak hashedKey proof))
      (· = orphanNodes keccak hashedKey proof) := by
  cases hparse : parseProof proof with
  | error f =>
      have hadd := @addOrphanedLeafs_error keccak hashedKey _ _ hparse
      cases f with
      | panic => exact runs_crashed hadd (.inl hparse) rfl
      | err e =>
          refine runs_refused hadd ⟨?_, e, hparse⟩ (fromProof_ne_panic _)
          rintro (h | ⟨nodes, h, -⟩)
          · cases hparse.symm.trans h
          · cases hparse.symm.trans h
  | ok nodes =>
      by_cases hget : ∃ t o, mptFromProof keccak nodes = .ok t ∧ t.get hashedKey = .ok o
      · obtain ⟨leafs, hleafs⟩ : ∃ leafs, addOrphanedLeafs keccak hashedKey proof = .ok leafs := by
          obtain ⟨t, o, ht, ho⟩ := hget
          exact addOrphanedLeafs_ok hparse ht ho
        refine runs_ok hleafs ⟨?_, ?_⟩ ?_
        · rintro (h | ⟨nodes', h, hno⟩)
          · cases hparse.symm.trans h
          · cases hparse.symm.trans h
            exact hno hget
        · rintro ⟨e, h⟩
          cases hparse.symm.trans h
        · rw [orphanNodes, hleafs]
          rfl
      · exact runs_crashed (addOrphanedLeafs_panics hparse hget) (.inr ⟨nodes, hparse, hget⟩) rfl

/-- Where the hash is right, the trie is handed on. -/
theorem runs_resolve {α : Type} {nodes : List MptNode} {root : MptNode} {expected : B256}
    {k : MptNode → α} {e : MptNode → FromProofError} {P : α → Prop}
    (hP : ∀ trie, Resolves (storeOf keccak nodes) root trie → P (k trie)) :
    RunsSteps keccak [.resolve nodes root expected]
      (fun fuel => do
        let trie ← resolveNodes (storeOf keccak nodes) fuel root
        if trie.hash keccak = expected then pure (k trie) else throw (.err (e trie))) P := by
  by_cases hres : ∃ p, Resolves (storeOf keccak nodes) root p
  · have hbreaks : ¬ (proofFaults keccak).breaks (.resolve nodes root expected) :=
      (resolves_iff_no_circle root).mp hres
    obtain ⟨p, hp⟩ := hres
    have hhash := (hp.pruning selfKeyed_storeOf).hash_eq
    have hcall := @comes_option ProofFailure _ _ _ hp
    by_cases hroot : root.hash keccak = expected
    · refine .passed (k p) (Faults.passes_singleton.mpr ⟨hbreaks, fun h => h hroot⟩) (hP p hp)
        (hcall.bind ⟨0, ?_⟩)
      intro _ _
      rw [if_pos (hhash.symm.trans hroot)]
      rfl
    · refine .refused (.err (e p)) ?_ ⟨hbreaks, .inl hroot⟩ (fromProof_ne_panic _) (hcall.bind ⟨0, ?_⟩)
      · intro hpass
        exact (Faults.passes_singleton.mp hpass).2 hroot
      · intro _ _
        rw [if_neg (fun h => hroot (hhash.trans h))]
        rfl
  · refine .diverged ?_ (.bind (diverges_option ?_))
    · intro horderly
      exact hres ((resolves_iff_no_circle root).mpr horderly.1)
    · intro fuel
      cases hcall : resolveNodes (storeOf keccak nodes) fuel root with
      | none => rfl
      | some p => exact absurd ⟨p, resolves_of_fuel hcall⟩ hres

theorem rootNode_append (proofs : List (List Bytes)) (proof : List Bytes) :
    rootNode (proofs ++ [proof]) = (proofNodes proof).head?.getD (rootNode proofs) := by
  rw [rootNode, List.foldl_append]
  rfl

/-- The storage trie that comes of the proofs of an account. -/
def StorageBuilt (keccak : Bytes → B256) (proof finiProofs : AccountProof) (trie : MptNode) : Prop :=
  if proof.storageProofs.isEmpty then trie = nodeFromDigest proof.storageRoot
  else Resolves (storeOf keccak (storageNodes keccak proof finiProofs))
    (rootNode (proof.storageProofs.map StorageProof.proof)) trie

theorem runs_slots (storageProofs : List StorageProof) :
    RunsSteps keccak (storageProofs.flatMap fun slot => [.read slot.proof])
      (fun _ => storageProofs.foldlM (fun nodes slot => liftM (readProof keccak nodes slot.proof)) ([], default))
      (· = (storageProofs.flatMap (fun slot => proofNodes slot.proof),
        rootNode (storageProofs.map StorageProof.proof))) := by
  refine @Runs.foldlM _ _ _ _ _ _ (fun slot : StorageProof => [ProofStep.read slot.proof]) _
    (fun done acc => acc = (done.flatMap (fun slot => proofNodes slot.proof), rootNode (done.map StorageProof.proof)))
    ?_ [] _ rfl storageProofs
  rintro done acc slot rfl
  simp only [List.map_append, List.map_singleton, rootNode_append, List.flatMap_append, List.flatMap_singleton]
  exact runs_read _ slot.proof

theorem runs_orphanedSlots (storageProofs : List StorageProof) :
    RunsSteps keccak (storageProofs.flatMap fun slot => [.orphans (keccak slot.key.bytes).bytes slot.proof])
      (fun _ => liftM (addOrphanedSlots keccak storageProofs))
      (· = (storageProofs.map fun slot => orphanNodes keccak (keccak slot.key.bytes).bytes slot.proof).flatten) := by
  have hall := Runs.mapM (fun slot : StorageProof => @runs_orphans keccak (keccak slot.key.bytes).bytes slot.proof)
    storageProofs
  simp only [addOrphanedSlots, lift_bind]
  rw [← List.append_nil (List.flatMap _ _)]
  refine hall.bind ?_
  rintro _ rfl _
  exact .pure rfl

theorem runs_storage (address : Address) (proof finiProofs : AccountProof) :
    RunsSteps keccak (storageSteps keccak proof finiProofs)
      (fun fuel => buildStorage keccak fuel address proof finiProofs) (StorageBuilt keccak proof finiProofs) := by
  simp only [buildStorage, storageSteps]
  by_cases hnone : proof.storageProofs.isEmpty
  · simp only [hnone, ↓reduceIte]
    exact .pure (by rw [StorageBuilt, if_pos hnone])
  · simp only [hnone, Bool.false_eq_true, ↓reduceIte]
    refine (runs_slots proof.storageProofs).bind ?_
    rintro _ rfl _
    refine (runs_orphanedSlots finiProofs.storageProofs).bind ?_
    rintro _ rfl _
    refine runs_resolve (k := id) ?_
    intro trie h
    rw [StorageBuilt, if_neg hnone]
    exact h

variable {fini : Address → Option AccountProof}

/-- The nodes and the storage tries when the steps of some accounts have passed. -/
structure Merged (keccak : Bytes → B256) (fini : Address → Option AccountProof)
    (done : List (Σ _ : Address, AccountProof)) (acc : Gathered) : Prop where
  nodes : acc.stateNodes = done.flatMap (stateNodes keccak fini)
  root : acc.stateRootNode = rootNode (done.map fun entry => entry.2.proof)
  stored : ∀ entry ∈ done, keccak entry.1.bytes ∈ acc.storage
  built : ∀ h trie, acc.storage.lookup h = some trie → ∃ entry ∈ done, keccak entry.1.bytes = h ∧
    ∃ finiProofs, fini entry.1 = some finiProofs ∧ StorageBuilt keccak entry.2 finiProofs trie

theorem merged_nil : Merged keccak fini [] ⟨∅, [], default⟩ where
  nodes := rfl
  root := rfl
  stored entry hentry := by cases hentry
  built h trie hl := by simp at hl

theorem runs_account {done : List (Σ _ : Address, AccountProof)} {acc : Gathered} (hacc : Merged keccak fini done acc)
    (entry : Σ _ : Address, AccountProof) :
    RunsSteps keccak (accountSteps keccak fini entry)
      (fun fuel => readAccount keccak fuel (fun address => (fini address).elim (.error .panic) .ok) acc entry)
      (Merged keccak fini (done ++ [entry])) := by
  refine (runs_read _ entry.2.proof).bind ?_
  rintro _ rfl _
  refine (runs_later (fini entry.1)).bind ?_
  intro finiProofs hfini _
  simp only [hfini, Option.elim_some]
  refine (runs_orphans _ finiProofs.proof).bind ?_
  rintro _ rfl _
  rw [← List.append_nil (storageSteps keccak entry.2 finiProofs)]
  refine (runs_storage entry.1 entry.2 finiProofs).bind ?_
  intro trie htrie _
  refine .pure ⟨?_, ?_, ?_, ?_⟩
  · simp only [List.flatMap_append, List.flatMap_singleton, stateNodes, hfini, Option.elim_some, hacc.nodes,
      List.append_assoc]
  · simp only [List.map_append, List.map_singleton, rootNode_append, hacc.root]
  · intro e he
    rw [Finmap.mem_insert]
    rcases List.mem_append.mp he with he | he
    · exact .inr (hacc.stored e he)
    · exact .inl (by rw [List.mem_singleton.mp he])
  · intro h t hl
    by_cases hh : h = keccak entry.1.bytes
    · rw [hh, Finmap.lookup_insert, Option.some.injEq] at hl
      exact ⟨entry, List.mem_append_right _ (List.mem_singleton.mpr rfl), hh.symm, finiProofs, hfini, hl ▸ htrie⟩
    · rw [Finmap.lookup_insert_of_ne _ hh] at hl
      obtain ⟨e, he, hbuilt⟩ := hacc.built h t hl
      exact ⟨e, List.mem_append_left _ he, hbuilt⟩

/-- The state that comes of the proofs. -/
def StateBuilt (keccak : Bytes → B256) (fini : Address → Option AccountProof) (stateRoot : B256)
    (proofs : IteratedMap Address AccountProof) (s : EthereumState) : Prop :=
  if proofs.entries.isEmpty then s = ⟨nodeFromDigest stateRoot, ∅⟩
  else ∃ acc, Merged keccak fini proofs.entries acc ∧ s.storageTries = acc.storage ∧
    Resolves (storeOf keccak acc.stateNodes) acc.stateRootNode s.stateTrie

theorem runs_state (stateRoot : B256) (proofs : IteratedMap Address AccountProof) :
    RunsSteps keccak (stateSteps keccak fini stateRoot proofs)
      (fun fuel => buildTries keccak fuel stateRoot proofs fun address => (fini address).elim (.error .panic) .ok)
      (StateBuilt keccak fini stateRoot proofs) := by
  simp only [buildTries, stateSteps]
  by_cases hnone : proofs.entries.isEmpty
  · simp only [hnone, ↓reduceIte]
    exact .pure (by rw [StateBuilt, if_pos hnone])
  · simp only [hnone, Bool.false_eq_true, ↓reduceIte]
    refine (@Runs.foldlM _ _ _ _ _ _ _ _ (Merged keccak fini) (fun done acc entry hacc => runs_account hacc entry)
      [] _ merged_nil proofs.entries).bind ?_
    intro acc hacc _
    rw [List.nil_append] at hacc
    rw [← hacc.nodes, ← hacc.root]
    refine runs_resolve ?_
    intro trie htrie
    rw [StateBuilt, if_neg hnone]
    exact ⟨acc, hacc, rfl, htrie⟩

/-- What stands for the proofs of a later state where there are none. -/
def noneLater (_ : Address) : Option AccountProof := some ⟨[], EMPTY_ROOT, []⟩

theorem runs_proofs (stateRoot : B256) (proofs : IteratedMap Address AccountProof) :
    RunsSteps keccak (stateSteps keccak noneLater stateRoot proofs)
      (fun fuel => proofsToTries keccak fuel stateRoot proofs) (StateBuilt keccak noneLater stateRoot proofs) :=
  runs_state stateRoot proofs

theorem runs_transition (stateRoot : B256) (parentProofs : IteratedMap Address AccountProof)
    (proofs : HashMap Address AccountProof) :
    RunsSteps keccak (stateSteps keccak (fun address => proofs.lookup address) stateRoot parentProofs)
      (fun fuel => transitionProofsToTries keccak fuel stateRoot parentProofs proofs)
      (StateBuilt keccak (fun address => proofs.lookup address) stateRoot parentProofs) := by
  have htransition (fuel : Nat) : transitionProofsToTries keccak fuel stateRoot parentProofs proofs =
      buildTries keccak fuel stateRoot parentProofs fun address =>
        (proofs.lookup address).elim (.error .panic) .ok := by
    rw [transitionProofsToTries]
    congr 1
    funext address
    cases proofs.lookup address with
    | none => rfl
    | some finiProofs => rfl
  simp only [htransition]
  exact @runs_state keccak (fun address => proofs.lookup address) stateRoot parentProofs

/-- The two builders return `Ok` or an error exactly when no step on proofs breaks them before
one is refused. -/
theorem proofs_settle_iff (keccak : Bytes → B256) (stateRoot : B256) (parentProofs : IteratedMap Address AccountProof)
    (proofs : HashMap Address AccountProof) :
    (Settles (· = .panic) (fun fuel => transitionProofsToTries keccak fuel stateRoot parentProofs proofs) ↔
      (proofFaults keccak).Orderly (stateSteps keccak (fun address => proofs.lookup address) stateRoot parentProofs)) ∧
    (Settles (· = .panic) (fun fuel => proofsToTries keccak fuel stateRoot parentProofs) ↔
      (proofFaults keccak).Orderly (stateSteps keccak noneLater stateRoot parentProofs)) :=
  ⟨(runs_transition stateRoot parentProofs proofs).settles_iff, (runs_proofs stateRoot parentProofs).settles_iff⟩

end Steps

section Sample

/-- A proof of one node, an empty list. -/
def emptyListProof : AccountProof := ⟨[[0xc0]], EMPTY_ROOT, []⟩

/-- The same malformed node: a panic before the transition, an error after it. -/
theorem emptyListProof_panics :
    (∀ keccak, Comes (fun fuel => transitionProofsToTries keccak fuel B256.ZERO
        (AList.singleton Address.ZERO emptyListProof) (Finmap.singleton Address.ZERO emptyListProof))
      (.error .panic)) ∧
    ∀ keccak, Comes (fun fuel => transitionProofsToTries keccak fuel B256.ZERO
        (AList.singleton Address.ZERO ⟨[], EMPTY_ROOT, []⟩) (Finmap.singleton Address.ZERO emptyListProof))
      (.error (.err (.decodingError (.legacyRlp .rlpIncorrectListLen)))) := by
  constructor
  · intro keccak
    exact ⟨0, fun _ _ => rfl⟩
  · intro keccak
    exact ⟨0, fun _ _ => rfl⟩

end Sample

end RethProcessor
