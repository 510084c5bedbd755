import RethProcessor.ProofFaults

/-! Which proofs are merged alike in every order of iteration. The root is the first node of the
proof that comes last, and of two nodes under one reference the later one stays; only the root
that is left in the end is compared with the state root. -/
namespace RethProcessor
open Rlp Calls

section Keccak
variable (keccak : Bytes → B256) (fini : Address → Option AccountProof) (stateRoot : B256)

/-- The nodes of a state, as they are inserted in this order. -/
def mergedNodes (order : IteratedMap Address AccountProof) : List MptNode :=
  order.entries.flatMap (stateNodes keccak fini)

/-- The root that is left after this order. -/
def mergedRoot (order : IteratedMap Address AccountProof) : MptNode :=
  rootNode (order.entries.map fun entry => entry.2.proof)

/-- Any two orders build the same state, or none. -/
def OrderFree (parentProofs : IteratedMap Address AccountProof) (proofs : HashMap Address AccountProof) : Prop :=
  ∀ first second : IteratedMap Address AccountProof, first.entries.Perm parentProofs.entries →
    second.entries.Perm parentProofs.entries → ∀ s,
      Comes (fun fuel => transitionProofsToTries keccak fuel stateRoot first proofs) (.ok s) ↔
        Comes (fun fuel => transitionProofsToTries keccak fuel stateRoot second proofs) (.ok s)

variable (parentProofs : IteratedMap Address AccountProof)

/-- No order builds a state: the proofs of an account are at fault by themselves, or every order
that ends with the right root goes round in circles. -/
def NoneBuilt : Prop :=
  (∃ entry ∈ parentProofs.entries, ¬ (proofFaults keccak).Passes (accountSteps keccak fini entry)) ∨
  ∀ order : IteratedMap Address AccountProof, order.entries.Perm parentProofs.entries →
    (mergedRoot order).hash keccak = stateRoot →
      Circles (storeOf keccak (mergedNodes keccak fini order)) (mergedRoot order)

/-- Every proof that has nodes begins with one that has the state root. -/
def RootsMatch : Prop :=
  ∀ entry ∈ parentProofs.entries, ∀ n, (proofNodes entry.2.proof).head? = some n → n.hash keccak = stateRoot

/-- The hashes that the state root leads to, through the nodes of all accounts. -/
inductive Led : B256 → Prop
  | root : Led stateRoot
  | next {entry : Σ _ : Address, AccountProof} {n : MptNode} {e : B256} : entry ∈ parentProofs.entries →
      n ∈ stateNodes keccak fini entry → Led (n.hash keccak) → Subnode (.digest e) n → Led e

/-- No two accounts have the same hashed address, and none two give different nodes for a hash that
the state root leads to. -/
structure Undisputed : Prop where
  hashed : Set.InjOn (fun address : Address => keccak address.bytes) {address | address ∈ parentProofs}
  nodes : ∀ a ∈ parentProofs.entries, ∀ b ∈ parentProofs.entries, a ≠ b → ∀ n ∈ stateNodes keccak fini a,
    ∀ m ∈ stateNodes keccak fini b, Led keccak fini stateRoot parentProofs (n.hash keccak) →
      n.hash keccak = m.hash keccak → n = m

end Keccak

section Store
variable {keccak : Bytes → B256} {ι : Type}

theorem storeOf_concat (nodes : List MptNode) (n : MptNode) :
    storeOf keccak (nodes ++ [n]) = Function.update (storeOf keccak nodes) (n.reference keccak) (some n) := by
  rw [storeOf, List.foldl_append]
  rfl

/-- The nodes inserted later count first. -/
theorem storeOf_append (nodes later : List MptNode) (r : MptNodeReference) :
    storeOf keccak (nodes ++ later) r = (storeOf keccak later r).or (storeOf keccak nodes r) := by
  induction later using List.reverseRecOn with
  | nil =>
      rw [List.append_nil]
      rfl
  | append_singleton later n ih =>
      rw [← List.append_assoc, storeOf_concat, storeOf_concat]
      by_cases hr : r = n.reference keccak
      · rw [hr, Function.update_self, Function.update_self, Option.some_or]
      · rw [Function.update_of_ne hr, Function.update_of_ne hr, ih]

theorem storeOf_eq_none {nodes : List MptNode} {r : MptNodeReference} (h : ∀ n ∈ nodes, n.reference keccak ≠ r) :
    storeOf keccak nodes r = none := by
  cases hr : storeOf keccak nodes r with
  | none => rfl
  | some n =>
      obtain ⟨hn, href⟩ := storeOf_some hr
      exact absurd href (h n hn)

/-- Where only one part gives a node for a reference, that part decides. -/
theorem storeOf_only {f : ι → List MptNode} {l : List ι} (hl : l.Nodup) {a : ι} (ha : a ∈ l)
    {r : MptNodeReference}
    (h : ∀ b ∈ l, b ≠ a → ∀ n ∈ f b, n.reference keccak ≠ r) :
    storeOf keccak (l.flatMap f) r = storeOf keccak (f a) r := by
  obtain ⟨before, after, rfl⟩ := List.append_of_mem ha
  have hout := List.nodup_middle.mp hl
  rw [List.nodup_cons] at hout
  have hpart {part : List ι} (hpart : ∀ b ∈ part, b ∈ before ++ after) :
      storeOf keccak (part.flatMap f) r = none := by
    apply storeOf_eq_none
    intro n hn
    obtain ⟨b, hb, hn⟩ := List.mem_flatMap.mp hn
    refine h b ?_ ?_ n hn
    · rw [List.perm_middle.mem_iff]
      exact List.mem_cons_of_mem _ (hpart b hb)
    · rintro rfl
      exact hout.1 (hpart b hb)
  rw [List.flatMap_append, List.flatMap_cons, storeOf_append, storeOf_append,
    hpart fun b hb => List.mem_append_right _ hb, hpart fun b hb => List.mem_append_left _ hb, Option.none_or,
    Option.or_none]

/-- Where no two parts differ in the node for a reference, their order does not matter. -/
theorem storeOf_reorder {f : ι → List MptNode} {l k : List ι} (hl : l.Nodup) (hlk : l.Perm k) {r : MptNodeReference}
    (h : ∀ a ∈ l, ∀ b ∈ l, a ≠ b → ∀ n ∈ f a, ∀ m ∈ f b, n.reference keccak = r → m.reference keccak = r → n = m) :
    storeOf keccak (l.flatMap f) r = storeOf keccak (k.flatMap f) r := by
  by_cases hone : ∃ a ∈ l, ∀ b ∈ l, b ≠ a → ∀ n ∈ f b, n.reference keccak ≠ r
  · obtain ⟨a, ha, hone⟩ := hone
    rw [storeOf_only hl ha hone, storeOf_only (hlk.nodup hl) (hlk.mem_iff.mp ha)]
    intro b hb
    exact hone b (hlk.mem_iff.mpr hb)
  · -- every node for the reference has one of another part beside it
    have hsame {n m : MptNode} {a b : ι} (ha : a ∈ l) (hb : b ∈ l) (hn : n ∈ f a) (hm : m ∈ f b)
        (hnr : n.reference keccak = r) (hmr : m.reference keccak = r) : n = m := by
      by_cases hab : a = b
      · subst hab
        obtain ⟨c, hc, hca, k, hk, hkr⟩ : ∃ c ∈ l, c ≠ a ∧ ∃ k ∈ f c, k.reference keccak = r := by
          by_contra hnone
          apply hone
          refine ⟨a, ha, ?_⟩
          intro c hc hca k hk hkr
          exact hnone ⟨c, hc, hca, k, hk, hkr⟩
        exact (h a ha c hc (Ne.symm hca) n hn k hk hnr hkr).trans (h c hc a ha hca k hk m hm hkr hmr)
      · exact h a ha b hb hab n hn m hm hnr hmr
    have hmem (n : MptNode) : n ∈ l.flatMap f ↔ n ∈ k.flatMap f := (hlk.flatMap_right f).mem_iff
    cases hn : storeOf keccak (l.flatMap f) r with
    | none =>
        refine (storeOf_eq_none ?_).symm
        intro m hm hmr
        exact storeOf_ne_none ((hmem m).mpr hm) (hmr ▸ hn)
    | some n =>
        obtain ⟨hnl, hnr⟩ := storeOf_some hn
        cases hm : storeOf keccak (k.flatMap f) r with
        | none => exact absurd (hnr ▸ hm) (storeOf_ne_none ((hmem n).mp hnl))
        | some m =>
            obtain ⟨hmk, hmr⟩ := storeOf_some hm
            obtain ⟨a, ha, hna⟩ := List.mem_flatMap.mp hnl
            obtain ⟨b, hb, hmb⟩ := List.mem_flatMap.mp ((hmem m).mpr hmk)
            rw [hsame ha hb hna hmb hnr hmr]

theorem mapChildren_congr {f g : MptNode → Option MptNode} {children : Nibble → Option MptNode}
    (h : ∀ i c, children i = some c → f c = g c) : mapChildren f children = mapChildren g children := by
  have hbind (i : Nibble) : (children i).bind f = (children i).bind g := by
    cases hc : children i with
    | none => rfl
    | some c => exact h i c hc
  have hall (i : Nibble) : ((children i).all fun c => (f c).isSome) = (children i).all fun c => (g c).isSome := by
    cases hc : children i with
    | none => rfl
    | some c => rw [Option.all_some, Option.all_some, h i c hc]
  simp only [mapChildren, hall, hbind]

theorem Reaches.of_subnode {store : NodeStore} {c root : MptNode} {d : B256} (h : Reaches store c d)
    (hc : Subnode c root) : Reaches store root d := by
  induction h with
  | here hd => exact .here (hd.trans hc)
  | next _ hnode hd ih => exact .next ih hnode hd

theorem Reaches.of_stored {store : NodeStore} {node : MptNode} {d e : B256} (h : Reaches store node e)
    (hnode : store (.digest d) = some node) : Reaches store (.digest d) e := by
  induction h with
  | here he => exact .next (.here (.refl _)) hnode he
  | next _ hstored he ih => exact .next ih hstored he

/-- Stores that agree where resolution comes to resolve alike. -/
theorem resolveNodes_congr {store other : NodeStore} {fuel : Nat} {root : MptNode}
    (h : ∀ d, Reaches store root d → store (.digest d) = other (.digest d)) :
    resolveNodes store fuel root = resolveNodes other fuel root := by
  induction fuel generalizing root with
  | zero => rfl
  | succ fuel ih =>
      cases root with
      | null => rfl
      | leaf path value => rfl
      | branch children =>
          rw [resolveNodes, resolveNodes]
          congr 1
          apply mapChildren_congr
          intro i c hc
          exact ih fun d hd => h d (hd.of_subnode (.branch hc (.refl c)))
      | extension path target =>
          rw [resolveNodes, resolveNodes]
          congr 1
          exact ih fun d hd => h d (hd.of_subnode (.extension path (.refl target)))
      | digest d =>
          simp only [resolveNodes, ← h d (.here (.refl _))]
          cases hnode : store (.digest d) with
          | none => rfl
          | some node =>
              exact ih fun e he => h e (he.of_stored hnode)

theorem Resolves.unique {store : NodeStore} {root p q : MptNode} (hp : Resolves store root p)
    (hq : Resolves store root q) : p = q := by
  obtain ⟨n, hn⟩ := hp
  obtain ⟨m, hm⟩ := hq
  have h := (hn (max n m) (Nat.le_max_left n m)).symm.trans (hm (max n m) (Nat.le_max_right n m))
  exact Option.some.inj h

theorem Resolves.congr {store other : NodeStore} {root p : MptNode} (hp : Resolves store root p)
    (h : ∀ d, Reaches store root d → store (.digest d) = other (.digest d)) : Resolves other root p := by
  obtain ⟨enough, hp⟩ := hp
  refine ⟨enough, ?_⟩
  intro fuel hf
  rw [← resolveNodes_congr h]
  exact hp fuel hf

theorem hash_of_digest {n : MptNode} {d : B256} (h : n.reference keccak = .digest d) : n.hash keccak = d := by
  have hne : n ≠ .null := by
    rintro rfl
    cases h
  rw [hash_of_ne_null hne, h]
  rfl

/-- The root is the first node of one of the proofs, if any has nodes. -/
theorem rootNode_cases (proofs : List (List Bytes)) :
    (rootNode proofs = .null ∧ ∀ proof ∈ proofs, (proofNodes proof).head? = none) ∨
      ∃ proof ∈ proofs, (proofNodes proof).head? = some (rootNode proofs) := by
  induction proofs using List.reverseRecOn with
  | nil => exact .inl ⟨rfl, List.forall_mem_nil _⟩
  | append_singleton proofs proof ih =>
      rw [rootNode_append]
      cases hhead : (proofNodes proof).head? with
      | some n =>
          refine .inr ⟨proof, List.mem_append_right _ (List.mem_singleton.mpr rfl), ?_⟩
          rw [hhead, Option.getD_some]
      | none =>
          rw [Option.getD_none]
          rcases ih with ⟨hnull, hnone⟩ | ⟨other, hother, hroot⟩
          · refine .inl ⟨hnull, ?_⟩
            intro p hp
            rcases List.mem_append.mp hp with hp | hp
            · exact hnone p hp
            · rw [List.mem_singleton.mp hp, hhead]
          · exact .inr ⟨other, List.mem_append_left _ hother, hroot⟩

end Store

section Order
variable {keccak : Bytes → B256} {fini : Address → Option AccountProof} {stateRoot : B256}
  {parentProofs order first second : IteratedMap Address AccountProof}

theorem mergedRoot_cases (order : IteratedMap Address AccountProof) :
    (mergedRoot order = .null ∧ ∀ entry ∈ order.entries, (proofNodes entry.2.proof).head? = none) ∨
      ∃ entry ∈ order.entries, (proofNodes entry.2.proof).head? = some (mergedRoot order) := by
  rcases rootNode_cases (order.entries.map fun entry => entry.2.proof) with
    ⟨hnull, hnone⟩ | ⟨proof, hproof, hroot⟩
  · refine .inl ⟨hnull, ?_⟩
    intro entry hentry
    exact hnone _ (List.mem_map_of_mem hentry)
  · obtain ⟨entry, hentry, rfl⟩ := List.mem_map.mp hproof
    exact .inr ⟨entry, hentry, hroot⟩

theorem head_mem_stateNodes {entry : Σ _ : Address, AccountProof} {n : MptNode}
    (h : (proofNodes entry.2.proof).head? = some n) : n ∈ stateNodes keccak fini entry :=
  List.mem_append_left _ (List.mem_of_mem_head? h)

/-- An order of some accounts builds a state exactly when no proof of an account is at fault, and
the nodes lead from the root to its trie. -/
theorem passes_stateSteps (hne : order.entries ≠ []) :
    (proofFaults keccak).Passes (stateSteps keccak fini stateRoot order) ↔
      (∀ entry ∈ order.entries, (proofFaults keccak).Passes (accountSteps keccak fini entry)) ∧
        ¬ Circles (storeOf keccak (mergedNodes keccak fini order)) (mergedRoot order) ∧
        (mergedRoot order).hash keccak = stateRoot := by
  have hempty : order.entries.isEmpty = false := List.isEmpty_eq_false_iff.mpr hne
  rw [stateSteps, hempty, if_neg Bool.false_ne_true, Faults.passes_append, Faults.passes_singleton]
  refine and_congr ?_ (and_congr Iff.rfl not_not)
  simp only [Faults.Passes, List.mem_flatMap]
  constructor
  · intro h entry hentry s hs
    exact h s ⟨entry, hentry, hs⟩
  · rintro h s ⟨entry, hentry, hs⟩
    exact h entry hentry s hs

/-- Digests that resolution comes to are led to by the state root. -/
theorem led_of_reaches (hperm : order.entries.Perm parentProofs.entries)
    (hroot : (mergedRoot order).hash keccak = stateRoot) {d : B256}
    (h : Reaches (storeOf keccak (mergedNodes keccak fini order)) (mergedRoot order) d) :
    Led keccak fini stateRoot parentProofs d := by
  induction h with
  | here hsub =>
      rcases mergedRoot_cases order with ⟨hnull, -⟩ | ⟨entry, hentry, hhead⟩
      · rw [hnull] at hsub
        cases hsub
      · exact .next (hperm.mem_iff.mp hentry) (head_mem_stateNodes hhead) (hroot ▸ .root) hsub
  | next _ hnode hsub ih =>
      obtain ⟨hin, href⟩ := storeOf_some hnode
      obtain ⟨entry, hentry, hin⟩ := List.mem_flatMap.mp hin
      exact .next (hperm.mem_iff.mp hentry) hin (hash_of_digest href ▸ ih) hsub

/-- What the state root leads to is stored alike in every order. -/
theorem Undisputed.store (h : Undisputed keccak fini stateRoot parentProofs)
    (hfirst : first.entries.Perm parentProofs.entries) (hsecond : second.entries.Perm parentProofs.entries) {d : B256}
    (hd : Led keccak fini stateRoot parentProofs d) :
    storeOf keccak (mergedNodes keccak fini first) (.digest d) =
      storeOf keccak (mergedNodes keccak fini second) (.digest d) := by
  refine storeOf_reorder first.nodupKeys.nodup (hfirst.trans hsecond.symm) ?_
  intro a ha b hb hab n hn m hm hnd hmd
  refine h.nodes a (hfirst.mem_iff.mp ha) b (hfirst.mem_iff.mp hb) hab n hn m hm ?_ ?_
  · rw [hash_of_digest hnd]
    exact hd
  · rw [hash_of_digest hnd, hash_of_digest hmd]

/-- Where all first nodes have the state root, the same root is left in every order. -/
theorem Undisputed.root (h : Undisputed keccak fini stateRoot parentProofs)
    (hall : RootsMatch keccak stateRoot parentProofs)
    (hfirst : first.entries.Perm parentProofs.entries) (hsecond : second.entries.Perm parentProofs.entries) :
    mergedRoot first = mergedRoot second := by
  have hmem {entry : Σ _ : Address, AccountProof} : entry ∈ first.entries ↔ entry ∈ second.entries :=
    (hfirst.trans hsecond.symm).mem_iff
  rcases mergedRoot_cases first with ⟨hnull, hnone⟩ | ⟨a, ha, hn⟩
  · rcases mergedRoot_cases second with ⟨hnull', -⟩ | ⟨b, hb, hm⟩
    · rw [hnull, hnull']
    · cases (hnone b (hmem.mpr hb)).symm.trans hm
  · rcases mergedRoot_cases second with ⟨-, hnone⟩ | ⟨b, hb, hm⟩
    · cases (hnone a (hmem.mp ha)).symm.trans hn
    · by_cases hab : a = b
      · rw [hab, hm] at hn
        exact (Option.some.inj hn).symm
      · have ha' := hfirst.mem_iff.mp ha
        have hb' := hsecond.mem_iff.mp hb
        have hna := hall a ha' _ hn
        refine h.nodes a ha' b hb' hab _ (head_mem_stateNodes hn) _ (head_mem_stateNodes hm) ?_ ?_
        · rw [hna]
          exact .root
        · rw [hna, hall b hb' _ hm]

theorem StorageBuilt.unique {proof finiProofs : AccountProof} {t t' : MptNode}
    (h : StorageBuilt keccak proof finiProofs t) (h' : StorageBuilt keccak proof finiProofs t') : t = t' := by
  rw [StorageBuilt] at h h'
  split at h
  · next hnone =>
      rw [if_pos hnone] at h'
      rw [h, h']
  · next hsome =>
      rw [if_neg hsome] at h'
      exact h.unique h'

/-- The storage tries of two orders are those of the accounts. -/
theorem Merged.storage_eq (hinj : Set.InjOn (fun address : Address => keccak address.bytes)
      {address | address ∈ parentProofs})
    (hfirst : first.entries.Perm parentProofs.entries) (hsecond : second.entries.Perm parentProofs.entries)
    {acc acc' : Gathered} (h : Merged keccak fini first.entries acc) (h' : Merged keccak fini second.entries acc') :
    acc.storage = acc'.storage := by
  have hkey {a b : Σ _ : Address, AccountProof} (ha : a ∈ first.entries) (hb : b ∈ second.entries)
      (hab : keccak a.1.bytes = keccak b.1.bytes) : a = b := by
    have ha := hfirst.mem_iff.mp ha
    have hb := hsecond.mem_iff.mp hb
    refine parentProofs.nodupKeys.eq_of_fst_eq ha hb (hinj ?_ ?_ hab)
    · exact AList.mem_keys.mpr (List.mem_map_of_mem ha)
    · exact AList.mem_keys.mpr (List.mem_map_of_mem hb)
  have hmem {entry : Σ _ : Address, AccountProof} : entry ∈ first.entries ↔ entry ∈ second.entries :=
    (hfirst.trans hsecond.symm).mem_iff
  apply Finmap.ext_lookup
  intro k
  cases ht : acc.storage.lookup k with
  | none =>
      rw [eq_comm, Finmap.lookup_eq_none]
      intro hk
      obtain ⟨t', ht'⟩ := Finmap.mem_iff.mp hk
      obtain ⟨b, hb, rfl, -⟩ := h'.built k t' ht'
      exact absurd (h.stored b (hmem.mpr hb)) (Finmap.lookup_eq_none.mp ht)
  | some t =>
      obtain ⟨a, ha, rfl, finiProofs, hfini, hbuilt⟩ := h.built k t ht
      obtain ⟨t', ht'⟩ := Finmap.mem_iff.mp (h'.stored a (hmem.mp ha))
      obtain ⟨b, hb, hkb, finiProofs', hfini', hbuilt'⟩ := h'.built _ t' ht'
      obtain rfl := hkey ha hb hkb.symm
      obtain rfl : finiProofs = finiProofs' := Option.some.inj (hfini.symm.trans hfini')
      rw [ht', hbuilt.unique hbuilt']

variable {proofs : HashMap Address AccountProof} {s : EthereumState}

theorem built_iff (hne : order.entries ≠ []) :
    (∃ s, Comes (fun fuel => transitionProofsToTries keccak fuel stateRoot order proofs) (.ok s)) ↔
      (∀ entry ∈ order.entries,
        (proofFaults keccak).Passes (accountSteps keccak (fun address => proofs.lookup address) entry)) ∧
      ¬ Circles (storeOf keccak (mergedNodes keccak (fun address => proofs.lookup address) order)) (mergedRoot order) ∧
      (mergedRoot order).hash keccak = stateRoot :=
  (runs_transition stateRoot order proofs).value_iff.trans (passes_stateSteps hne)

theorem built_inv (hne : order.entries ≠ [])
    (h : Comes (fun fuel => transitionProofsToTries keccak fuel stateRoot order proofs) (.ok s)) :
    ∃ acc, Merged keccak (fun address => proofs.lookup address) order.entries acc ∧ s.storageTries = acc.storage ∧
      Resolves (storeOf keccak (mergedNodes keccak (fun address => proofs.lookup address) order)) (mergedRoot order)
        s.stateTrie := by
  have hbuilt := (runs_transition stateRoot order proofs).value h
  rw [StateBuilt, if_neg (by rwa [List.isEmpty_iff])] at hbuilt
  obtain ⟨acc, hacc, hstorage, hres⟩ := hbuilt
  rw [hacc.nodes, hacc.root] at hres
  exact ⟨acc, hacc, hstorage, hres⟩

theorem not_built (h : NoneBuilt keccak (fun address => proofs.lookup address) stateRoot parentProofs)
    (hne : order.entries ≠ []) (horder : order.entries.Perm parentProofs.entries) :
    ¬ Comes (fun fuel => transitionProofsToTries keccak fuel stateRoot order proofs) (.ok s) := by
  intro hs
  obtain ⟨hpass, hcircle, hroot⟩ := (built_iff hne).mp ⟨s, hs⟩
  rcases h with ⟨entry, hentry, hfault⟩ | hcircles
  · exact hfault (hpass entry (horder.mem_iff.mpr hentry))
  · exact hcircle (hcircles order horder hroot)

/-- What one order builds, every order builds. -/
theorem Undisputed.built (h : Undisputed keccak (fun address => proofs.lookup address) stateRoot parentProofs)
    (hroots : RootsMatch keccak stateRoot parentProofs) (hne : parentProofs.entries ≠ [])
    (hfirst : first.entries.Perm parentProofs.entries) (hsecond : second.entries.Perm parentProofs.entries)
    (hs : Comes (fun fuel => transitionProofsToTries keccak fuel stateRoot first proofs) (.ok s)) :
    Comes (fun fuel => transitionProofsToTries keccak fuel stateRoot second proofs) (.ok s) := by
  have hnonempty {l : IteratedMap Address AccountProof} (hl : l.entries.Perm parentProofs.entries) :
      l.entries ≠ [] := by
    intro hnil
    rw [hnil] at hl
    exact hne hl.nil_eq.symm
  obtain ⟨hpass, hcircle, hroot⟩ := (built_iff (hnonempty hfirst)).mp ⟨s, hs⟩
  obtain ⟨acc, hacc, hstorage, hres⟩ := built_inv (hnonempty hfirst) hs
  have hsame := h.root hroots hfirst hsecond
  have hres' := hres.congr fun d hd => h.store hfirst hsecond (led_of_reaches hfirst hroot hd)
  rw [hsame] at hres' hroot
  obtain ⟨s', hs'⟩ := (built_iff (hnonempty hsecond)).mpr
    ⟨fun entry hentry => hpass entry (hfirst.mem_iff.mpr (hsecond.mem_iff.mp hentry)),
      (resolves_iff_no_circle _).mp ⟨_, hres'⟩, hroot⟩
  obtain ⟨acc', hacc', hstorage', hres''⟩ := built_inv (hnonempty hsecond) hs'
  have htries : s.storageTries = s'.storageTries := by
    rw [hstorage, hstorage', hacc.storage_eq h.hashed hfirst hsecond hacc']
  cases s
  cases s'
  cases htries
  cases hres'.unique hres''
  exact hs'

/-- With an account moved to the end, the root that is left is the first node of its proof. -/
theorem exists_order_ending {entry : Σ _ : Address, AccountProof} (hentry : entry ∈ parentProofs.entries)
    {n : MptNode}
    (hn : (proofNodes entry.2.proof).head? = some n) :
    ∃ order : IteratedMap Address AccountProof, order.entries.Perm parentProofs.entries ∧ mergedRoot order = n := by
  obtain ⟨before, after, heq⟩ := List.append_of_mem hentry
  have hperm : (before ++ after ++ [entry]).Perm parentProofs.entries := by
    rw [heq]
    exact (List.perm_append_singleton entry _).trans List.perm_middle.symm
  refine ⟨⟨before ++ after ++ [entry], (List.perm_nodupKeys hperm).mpr parentProofs.nodupKeys⟩, hperm, ?_⟩
  rw [mergedRoot, List.map_append, List.map_singleton, rootNode_append, hn, Option.getD_some]

/-- Merging does not depend on the order where no order builds a state, and where all roots match
and no nodes are disputed. It does where a state can be built and a root does not match. -/
theorem merge_orderFree (keccak : Bytes → B256) (stateRoot : B256) (parentProofs : IteratedMap Address AccountProof)
    (proofs : HashMap Address AccountProof) :
    (NoneBuilt keccak (fun address => proofs.lookup address) stateRoot parentProofs ∨
        RootsMatch keccak stateRoot parentProofs ∧
          Undisputed keccak (fun address => proofs.lookup address) stateRoot parentProofs →
      OrderFree keccak stateRoot parentProofs proofs) ∧
    (OrderFree keccak stateRoot parentProofs proofs →
      NoneBuilt keccak (fun address => proofs.lookup address) stateRoot parentProofs ∨
        RootsMatch keccak stateRoot parentProofs) := by
  constructor
  · intro h first second hfirst hsecond s
    by_cases hne : parentProofs.entries = []
    · rw [hne] at hfirst hsecond
      obtain rfl : first = second := AList.ext (hfirst.eq_nil.trans hsecond.eq_nil.symm)
      exact Iff.rfl
    · rcases h with hnone | ⟨hroots, hundisputed⟩
      · have hnot {l : IteratedMap Address AccountProof} (hl : l.entries.Perm parentProofs.entries) :
            ¬ Comes (fun fuel => transitionProofsToTries keccak fuel stateRoot l proofs) (.ok s) := by
          refine not_built hnone ?_ hl
          intro hnil
          rw [hnil] at hl
          exact hne hl.nil_eq.symm
        exact iff_of_false (hnot hfirst) (hnot hsecond)
      · exact ⟨hundisputed.built hroots hne hfirst hsecond, hundisputed.built hroots hne hsecond hfirst⟩
  · intro hfree
    by_contra hroots
    rw [NoneBuilt, RootsMatch, not_or, not_or] at hroots
    simp only [not_forall, not_exists, not_and, not_not] at hroots
    obtain ⟨⟨hpass, order, hperm, hroot, hcircle⟩, entry, hentry, n, hn, hne⟩ := hroots
    have hnonempty {l : IteratedMap Address AccountProof} (hl : l.entries.Perm parentProofs.entries) :
        l.entries ≠ [] := List.ne_nil_of_mem (hl.mem_iff.mpr hentry)
    obtain ⟨s, hs⟩ := (built_iff (hnonempty hperm)).mpr
      ⟨fun e he => hpass e (hperm.mem_iff.mp he), hcircle, hroot⟩
    obtain ⟨last, hlast, hend⟩ := exists_order_ending hentry hn
    obtain ⟨-, -, hroot'⟩ := (built_iff (hnonempty hlast)).mp ⟨s, (hfree order last hperm hlast s).mp hs⟩
    exact hne (hend ▸ hroot')

end Order

section Sample

/-- The address 1. -/
def secondAddress : Address := ⟨List.replicate 19 0 ++ [1], rfl⟩

def secondAddressHash : B256 :=
  ⟨[0x14, 0x68, 0x28, 0x80, 0x56, 0x31, 0x0c, 0x82, 0xaa, 0x4c, 0x01, 0xa7, 0xe1, 0x2a, 0x10, 0xf8,
    0x11, 0x1a, 0x05, 0x60, 0xe7, 0x2b, 0x70, 0x05, 0x55, 0x47, 0x90, 0x31, 0xb8, 0x6c, 0x35, 0x7d], rfl⟩

/-- A proof without slots. -/
def slotless (proof : List Bytes) : AccountProof := ⟨proof, EMPTY_ROOT, []⟩

def slotlessLater : HashMap Address AccountProof :=
  (Finmap.singleton Address.ZERO (slotless [])).insert secondAddress (slotless [])

/-- The proofs of two accounts, in both orders. -/
def secondFirst (proof second : List Bytes) : IteratedMap Address AccountProof :=
  (AList.singleton Address.ZERO (slotless proof)).insert secondAddress (slotless second)

def secondLast (proof second : List Bytes) : IteratedMap Address AccountProof :=
  (AList.singleton secondAddress (slotless second)).insert Address.ZERO (slotless proof)

theorem proofNodes_shownLeaf : proofNodes [shownEncoding] = [shownLeaf] :=
  proofNodes_of_ok (checkedProof_ok checkedProof_shownLeaf)

theorem mem_secondFirst {proof second : List Bytes} {entry : Σ _ : Address, AccountProof}
    (h : entry ∈ (secondFirst proof second).entries) :
    entry = ⟨secondAddress, slotless second⟩ ∨ entry = ⟨Address.ZERO, slotless proof⟩ := by
  rcases List.mem_cons.mp h with h | h
  · exact .inl h
  · exact .inr (List.mem_singleton.mp h)

/-- The same leaf for both accounts, as their proofs have it. -/
theorem orderFree_shownTwice :
    OrderFree shownKeccak shownDigest (secondFirst [shownEncoding] [shownEncoding]) slotlessLater := by
  have hnodes {entry : Σ _ : Address, AccountProof}
      (hentry : entry ∈ (secondFirst [shownEncoding] [shownEncoding]).entries) {n : MptNode}
      (hn : n ∈ stateNodes shownKeccak (fun address => slotlessLater.lookup address) entry) : n = shownLeaf := by
    rcases mem_secondFirst hentry with rfl | rfl
    · change n ∈ proofNodes [shownEncoding] ++ [] at hn
      rw [proofNodes_shownLeaf] at hn
      exact List.mem_singleton.mp hn
    · change n ∈ proofNodes [shownEncoding] ++ [] at hn
      rw [proofNodes_shownLeaf] at hn
      exact List.mem_singleton.mp hn
  refine (merge_orderFree _ _ _ _).1 (.inr ⟨?_, ?_, ?_⟩)
  · intro entry hentry n hn
    rw [hnodes hentry (head_mem_stateNodes hn), hash_shownLeaf]
  · have hne : shownKeccak secondAddress.bytes ≠ shownKeccak Address.ZERO.bytes := by decide
    have hmem {address : Address} (h : address ∈ secondFirst [shownEncoding] [shownEncoding]) :
        address = secondAddress ∨ address = Address.ZERO := by
      obtain ⟨entry, hentry, rfl⟩ := List.mem_map.mp (AList.mem_keys.mp h)
      rcases mem_secondFirst hentry with rfl | rfl
      · exact .inl rfl
      · exact .inr rfl
    intro a ha b hb hab
    rcases hmem ha with rfl | rfl
    · rcases hmem hb with rfl | rfl
      · rfl
      · exact absurd hab hne
    · rcases hmem hb with rfl | rfl
      · exact absurd hab.symm hne
      · rfl
  · intro a ha b hb _ n hn m hm _ _
    rw [hnodes ha hn, hnodes hb hm]

/-- A leaf, whose digest is no root of the state. -/
def strayLeaf : Bytes := [0xc2, 0x20, 0x05]

def strayDigest : B256 :=
  ⟨[0xd2, 0x1b, 0x3a, 0x1a, 0xda, 0x99, 0x87, 0xe5, 0x0e, 0x2b, 0x4d, 0xc8, 0x05, 0xbe, 0x4b, 0xea,
    0x8c, 0xe4, 0x45, 0xe5, 0x6f, 0x20, 0xff, 0x15, 0x36, 0x18, 0x8e, 0xdb, 0x1e, 0xf2, 0x8b, 0xc0], rfl⟩

def strayKeccak : Bytes → B256 :=
  tableKeccak [(Address.ZERO.bytes, zeroAddressHash), (secondAddress.bytes, secondAddressHash),
    (strayLeaf, strayDigest)]

def strayStorage : HashMap B256 MptNode :=
  ((∅ : HashMap B256 MptNode).insert (strayKeccak secondAddress.bytes) default).insert
    (strayKeccak Address.ZERO.bytes) default

theorem passes_slotless {keccak : Bytes → B256} {fini : Address → Option AccountProof} {address : Address}
    {proof : List Bytes} (hproof : ∃ nodes t, parseProof proof = .ok nodes ∧ mptFromProof keccak nodes = .ok t)
    (hfini : fini address = some (slotless [])) :
    (proofFaults keccak).Passes (accountSteps keccak fini ⟨address, slotless proof⟩) := by
  rw [accountSteps, hfini, Option.elim_some, Faults.passes_append, Faults.passes_singleton, Faults.passes_append,
    Faults.passes_singleton, Faults.passes_append, Faults.passes_singleton]
  refine ⟨⟨fun h => h hproof, id⟩, ⟨?_, id⟩, ⟨?_, ?_⟩, Faults.passes_nil⟩
  · intro h
    cases h
  · rintro (h | ⟨nodes, h, hno⟩)
    · cases h
    · cases h
      exact hno ⟨_, _, rfl, rfl⟩
  · rintro ⟨e, h⟩
    cases h

theorem parseProof_bareDigest (d : B256) :
    parseProof [(MptNodeReference.digest d).encode] = .ok [.digest d] := by
  have hdec : MptNode.decode (MptNodeReference.digest d).encode = .ok (.digest d) := decodeView_digest _ d
  rw [parseProof, List.mapM_cons, hdec]
  rfl

/-- The encoding of the digest of that leaf, as a node. -/
def shownBare : Bytes := (MptNodeReference.digest shownDigest).encode

theorem proofNodes_shownBare : proofNodes [shownBare] = [.digest shownDigest] :=
  proofNodes_of_ok (parseProof_bareDigest shownDigest)

theorem rootsMatch_bare : RootsMatch shownKeccak shownDigest (secondFirst [shownEncoding] [shownBare]) := by
  intro entry hentry n hn
  rcases mem_secondFirst hentry with rfl | rfl
  · change (proofNodes [shownBare]).head? = some n at hn
    rw [proofNodes_shownBare, List.head?_cons, Option.some.injEq] at hn
    exact hn ▸ rfl
  · change (proofNodes [shownEncoding]).head? = some n at hn
    rw [proofNodes_shownLeaf, List.head?_cons, Option.some.injEq] at hn
    exact hn ▸ hash_shownLeaf

/-- Where the bare digest comes last, it is stored under itself. -/
theorem bare_disputed :
    ¬ OrderFree shownKeccak shownDigest (secondFirst [shownEncoding] [shownBare]) slotlessLater := by
  intro hfree
  have hpass : ∀ entry ∈ (secondFirst [shownEncoding] [shownBare]).entries, (proofFaults shownKeccak).Passes
      (accountSteps shownKeccak (fun address => slotlessLater.lookup address) entry) := by
    intro entry hentry
    rcases mem_secondFirst hentry with rfl | rfl
    · exact passes_slotless ⟨_, _, parseProof_bareDigest shownDigest, rfl⟩ rfl
    · exact passes_slotless ⟨_, _, checkedProof_ok checkedProof_shownLeaf, rfl⟩ rfl
  have hfirst : mergedRoot (secondFirst [shownEncoding] [shownBare]) = shownLeaf := by
    change (proofNodes [shownEncoding]).head?.getD ((proofNodes [shownBare]).head?.getD default) = shownLeaf
    rw [proofNodes_shownLeaf]
    rfl
  have hlast : mergedRoot (secondLast [shownEncoding] [shownBare]) = .digest shownDigest := by
    change (proofNodes [shownBare]).head?.getD ((proofNodes [shownEncoding]).head?.getD default) = _
    rw [proofNodes_shownBare]
    rfl
  have hnodes : mergedNodes shownKeccak (fun address => slotlessLater.lookup address)
      (secondLast [shownEncoding] [shownBare]) = [shownLeaf, .digest shownDigest] := by
    change (proofNodes [shownEncoding] ++ []) ++ ((proofNodes [shownBare] ++ []) ++ []) = _
    rw [proofNodes_shownLeaf, proofNodes_shownBare]
    rfl
  have hswap : (secondLast [shownEncoding] [shownBare]).entries.Perm
      (secondFirst [shownEncoding] [shownBare]).entries :=
    List.Perm.swap _ _ _
  obtain ⟨s, hs⟩ := (@built_iff shownKeccak shownDigest _ slotlessLater (List.cons_ne_nil _ _)).mpr
    ⟨hpass, (resolves_iff_no_circle _).mp ⟨shownLeaf, hfirst ▸ resolves_leaf _ _⟩, hfirst ▸ hash_shownLeaf⟩
  obtain ⟨-, hcircle, -⟩ := (built_iff (List.cons_ne_nil _ _)).mp ⟨s, (hfree _ _ (.refl _) hswap s).mp hs⟩
  have hself : storeOf shownKeccak [shownLeaf, .digest shownDigest] (.digest shownDigest) =
      some (.digest shownDigest) := by
    simp only [storeOf, List.foldl_cons, List.foldl_nil, reference_digest, Function.update_self]
  apply hcircle
  rw [hlast, hnodes]
  exact ⟨shownDigest, .here (.refl _), .single ⟨.digest shownDigest, hself, .refl _⟩⟩

/-- Two accounts: the second proof begins with a leaf that is not the root; or with the digest of
the root by itself, which is stored under that digest when it comes last. -/
theorem secondProof_decides :
    ((secondFirst [[EMPTY_STRING_CODE]] [strayLeaf]).entries.Perm (secondLast [[EMPTY_STRING_CODE]] [strayLeaf]).entries ∧
      Comes (fun fuel => transitionProofsToTries strayKeccak fuel EMPTY_ROOT
        (secondFirst [[EMPTY_STRING_CODE]] [strayLeaf]) slotlessLater) (.ok ⟨.null, strayStorage⟩) ∧
      Comes (fun fuel => transitionProofsToTries strayKeccak fuel EMPTY_ROOT
        (secondLast [[EMPTY_STRING_CODE]] [strayLeaf]) slotlessLater)
        (.error (.err (.mismatchedStateRoot strayDigest EMPTY_ROOT)))) ∧
    RootsMatch shownKeccak shownDigest (secondFirst [shownEncoding] [shownBare]) ∧
      ¬ OrderFree shownKeccak shownDigest (secondFirst [shownEncoding] [shownBare]) slotlessLater := by
  refine ⟨⟨List.Perm.swap _ _ _, ⟨1, ?_⟩, 1, ?_⟩, rootsMatch_bare, bare_disputed⟩
  · intro fuel hf
    obtain ⟨fuel, rfl⟩ : ∃ f, fuel = f + 1 := ⟨fuel - 1, by omega⟩
    rfl
  · intro fuel hf
    obtain ⟨fuel, rfl⟩ : ∃ f, fuel = f + 1 := ⟨fuel - 1, by omega⟩
    rfl

end Sample

end RethProcessor
