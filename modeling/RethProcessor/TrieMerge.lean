import RethProcessor.TrieProofCheck
import RethProcessor.TrieReveal

/-! One trie from the nodes of many proofs. What a key finds in one of the proofs alone, it
finds in the trie that is resolved from the nodes of them all. -/
namespace RethProcessor
open Paths Rlp Calls

variable {keccak : Bytes → B256}

/-- A child that is kept when its parent is cut down is a digest, or is inlined. -/
theorem stub_fixed {c : MptNode} (h : stub keccak c (c.trunc keccak) = c) :
    (∃ d, c = .digest d) ∨ (c.trunc keccak = c ∧ ∀ d, c.reference keccak ≠ .digest d) := by
  cases hr : c.reference keccak with
  | digest d =>
      simp only [stub, hr] at h
      exact .inl ⟨d, h.symm⟩
  | bytes bs =>
      simp only [stub, hr] at h
      refine .inr ⟨h, ?_⟩
      intro d hd
      cases hd

/-- In a node with nothing to cut, only the node itself can be referenced by digest. -/
theorem eq_of_trunc {n : MptNode} (hn : n.trunc keccak = n) {c : MptNode} {d : B256} (hc : Subnode c n)
    (hl : c.isListed) (hd : c.reference keccak = .digest d) : c = n := by
  have hstep {b : MptNode} (hb : stub keccak b (b.trunc keccak) = b) (hcb : Subnode c b)
      (ih : b.trunc keccak = b → Subnode c b → c = b) : False := by
    rcases stub_fixed hb with ⟨e, rfl⟩ | ⟨hfix, hbytes⟩
    · cases hcb
      cases hl
    · exact hbytes d (ih hfix hcb ▸ hd)
  induction n with
  | null | leaf | digest =>
      cases hc
      rfl
  | branch children ih =>
      cases hc with
      | refl => rfl
      | @branch b _ i hb hcb =>
          have hfix := congrFun (MptNode.branch.inj hn) i
          rw [hb, truncChild, Option.some.injEq] at hfix
          exact (hstep hfix hcb (ih i b hb)).elim
  | extension path child ih =>
      cases hc with
      | refl => rfl
      | extension _ hcb => exact (hstep (MptNode.extension.inj hn).2 hcb ih).elim

/-- Below what the nodes of a proof link up to, nothing is referenced by digest but they. -/
theorem linkNodes_covered {nodes : List MptNode} (hall : ∀ n ∈ nodes, n.trunc keccak = n) {i : Nat}
    {p : MptNode} (h : linkNodes keccak i nodes = .ok (some p)) {c : MptNode} {d : B256}
    (hc : Subnode c p) (hl : c.isListed) (hd : c.reference keccak = .digest d) :
    ∃ n ∈ nodes, n.reference keccak = .digest d := by
  induction nodes generalizing i p with
  | nil => cases h
  | cons n rest ih =>
      have hn := hall n List.mem_cons_self
      have hself (hcn : Subnode c n) : ∃ m ∈ n :: rest, m.reference keccak = .digest d :=
        ⟨n, List.mem_cons_self, eq_of_trunc hn hcn hl hd ▸ hd⟩
      cases hrest : linkNodes keccak (i + 1) rest with
      | error e =>
          rw [linkNodes, hrest] at h
          cases h
      | ok next =>
          cases next with
          | none =>
              rw [linkNodes, hrest] at h
              obtain rfl := Option.some.inj (Except.ok.inj h)
              exact hself hc
          | some replacement =>
              rw [linkNodes, hrest] at h
              cases hr : replacement.reference keccak with
              | bytes bs =>
                  simp only [hr] at h
                  cases h
              | digest e =>
                  simp only [hr] at h
                  obtain ⟨q, hq, hqp⟩ := map_ok_inv h
                  cases hqp
                  have hbelow (hcr : Subnode c replacement) : ∃ m ∈ n :: rest, m.reference keccak = .digest d := by
                    obtain ⟨m, hm, href⟩ := ih (fun m hm => hall m (List.mem_cons_of_mem _ hm)) hrest hcr
                    exact ⟨m, List.mem_cons_of_mem _ hm, href⟩
                  have href := (replaceChild_pruning hq hr).reference_eq
                  rcases replaceChild_inv hq with ⟨children, x, rfl, hx, rfl⟩ | ⟨path, rfl, rfl⟩
                  · cases hc with
                    | refl => exact ⟨_, List.mem_cons_self, href.trans hd⟩
                    | @branch b _ y hy hcb =>
                        by_cases hyx : y = x
                        · rw [hyx, Function.update_self] at hy
                          exact hbelow (Option.some.inj hy ▸ hcb)
                        · rw [Function.update_of_ne hyx] at hy
                          exact hself (.branch hy hcb)
                  · cases hc with
                    | refl => exact ⟨_, List.mem_cons_self, href.trans hd⟩
                    | extension _ hcb => exact hbelow hcb

theorem storeOf_ne_null {stored : List MptNode} {d : B256} {n : MptNode}
    (h : storeOf keccak stored (.digest d) = some n) : n ≠ .null :=
  ne_null_of_reference (storeOf_some h).2

/-- Resolution keeps the paths flagged, and empties nothing. -/
theorem resolveNodes_wellFlagged {stored : List MptNode} (hstored : ∀ n ∈ stored, WellFlagged n) {fuel : Nat}
    {root p : MptNode} (hroot : WellFlagged root) (h : resolveNodes (storeOf keccak stored) fuel root = some p) :
    WellFlagged p ∧ (root ≠ .null → p ≠ .null) := by
  induction fuel generalizing root p with
  | zero => cases h
  | succ fuel ih =>
      cases hroot with
      | null =>
          cases h
          exact ⟨.null, id⟩
      | leaf value hflag =>
          cases h
          exact ⟨.leaf value hflag, id⟩
      | digest d =>
          simp only [resolveNodes] at h
          split at h
          · next node hnode =>
              obtain ⟨hwell, hne⟩ := ih (hstored node (storeOf_some hnode).1) h
              exact ⟨hwell, fun _ => hne (storeOf_ne_null hnode)⟩
          · cases h
            exact ⟨.digest d, id⟩
      | extension hpath hflag hc =>
          rw [resolveNodes, Option.map_eq_some_iff] at h
          obtain ⟨q, hq, rfl⟩ := h
          exact ⟨.extension hpath hflag (ih hc hq).1, fun _ => by simp⟩
      | branch hnull hall =>
          rw [resolveNodes, Option.map_eq_some_iff] at h
          obtain ⟨ps, hps, rfl⟩ := h
          have hchild {i : Nibble} {p : MptNode} (hp : ps i = some p) : WellFlagged p ∧ p ≠ .null := by
            rcases mapChildren_inv hps i with ⟨-, hnone⟩ | ⟨c, q, hc, hq, hf⟩
            · rw [hnone] at hp
              cases hp
            · obtain rfl : q = p := Option.some.inj (hq.symm.trans hp)
              obtain ⟨hwell, hne⟩ := ih (hall i c hc) hf
              refine ⟨hwell, hne ?_⟩
              rintro rfl
              exact hnull i hc
          exact ⟨.branch (fun i hi => (hchild hi).2 rfl) fun i c hi => (hchild hi).1, fun _ => by simp⟩

section Merged
variable {nodes stored : List MptNode} {root p t : MptNode} {fuel : Nat}

theorem selfKeyed_storeOf : SelfKeyed keccak (storeOf keccak stored) := fun _ _ h => (storeOf_some h).2

/-- A root that is in the store itself does not resolve to a digest. -/
theorem resolveNodes_not_digest (hroot : root = .null ∨ root ∈ stored)
    (hres : resolveNodes (storeOf keccak stored) fuel root = some p) : p.isDigest = false := by
  cases p with
  | null | branch | leaf | extension => rfl
  | digest d =>
      have hnone := resolveNodes_complete hres (.refl (.digest d))
      have href := (resolveNodes_pruning selfKeyed_storeOf hres).reference_eq
      rcases hroot with rfl | hin
      · cases href
      · rw [reference_digest] at href
        exact absurd hnone (href ▸ storeOf_ne_none hin)

/-- What a key finds in one proof, it finds in the trie resolved from a store that has the
nodes of this proof and any others, if the hashes agree. -/
theorem mptFromProof_merged (hnodes : ∀ n ∈ nodes, WellFlagged n ∧ n.trunc keccak = n)
    (hin : ∀ n ∈ nodes, n ∈ stored) (hstored : ∀ n ∈ stored, WellFlagged n)
    (hroot : root = .null ∨ root ∈ stored) (hres : resolveNodes (storeOf keccak stored) fuel root = some p)
    (ht : mptFromProof keccak nodes = .ok t) (hlen : Addressable keccak p) (hfree : CollisionFree keccak p t)
    (hempty : keccak [EMPTY_STRING_CODE] = EMPTY_ROOT) (hhash : p.hash keccak = t.hash keccak)
    {key : List Nibble} {x : Option Bytes} (hx : t.getInternal key = .ok x) : p.getInternal key = .ok x := by
  have hrootFlagged : WellFlagged root := by
    rcases hroot with rfl | hin
    · exact .null
    · exact hstored root hin
  have htFlagged := (mptFromProof_pruning (fun n hn => (hnodes n hn).1) ht).1
  have hpFlagged := (resolveNodes_wellFlagged hstored hrootFlagged hres).1
  rcases encode_of_hash (resolveNodes_not_digest hroot hres) hlen hfree hempty hhash
    with hd | ⟨rfl, rfl⟩ | ⟨hpl, htl, henc⟩
  · cases t with
    | digest d => cases hx
    | null | branch | leaf | extension => cases hd
  · exact hx
  · refine htFlagged.lookup_match hpFlagged htl hpl hlen hfree ?_ henc hx
    intro c d hc hl hd hcut
    obtain ⟨o, ho, hot⟩ := map_ok_inv ht
    cases o with
    | none =>
        obtain rfl : MptNode.null = t := hot
        cases htl
    | some q =>
        obtain rfl : q = t := hot
        obtain ⟨n, hn, href⟩ := linkNodes_covered (fun n hn => (hnodes n hn).2) ho hc hl hd
        exact absurd (resolveNodes_complete hres hcut) (href ▸ storeOf_ne_none (hin n hn))

end Merged

end RethProcessor
