import RethProcessor.TrieCache
import RethProcessor.TrieFromProof

/-! The trie operations on nodes with their caches: which caches a change drops, which
ones move along with the nodes they belong to. Without its caches, a node does what
the operations without caches say. -/
namespace RethProcessor
namespace CachedNode
open Paths

/-- The result of a `&mut self` operation together with the node left behind. -/
abbrev CachedMutation := Except Failure Bool × CachedNode

/-- `invalidate_ref_cache`. -/
def invalidateRefCache (n : CachedNode) : CachedNode := n.setCache none

/-- The last two lines of an insertion or a deletion. -/
def changed (n : CachedNode) : CachedMutation := (.ok true, n.invalidateRefCache)

/-- The code behind `if !node.insert_internal(tail, value)? { return Ok(false) }`. -/
def onChange {α : Type} (r : Except Failure Bool × α) (unchanged : α → CachedNode)
    (after : α → CachedMutation) : CachedMutation :=
  match r.1 with
  | .ok true => after r.2
  | res => (res, unchanged r.2)

def isEmpty : CachedNode → Bool
  | .null _ => true
  | _ => false

/-- The branch over two nodes at different nibbles, under the common path if there is one,
as the new data of a node with this cache. -/
def splitBranch (cache : Option MptNodeReference) (common : List Nibble) (a : Nibble) (left : CachedNode)
    (b : Nibble) (right : CachedNode) : CachedNode :=
  let children := Function.update (Function.update (fun _ => none) a (some left)) b (some right)
  if common.length > 0 then .extension cache (toEncodedPath common false) (.branch none children)
  else .branch cache children

def insertIntoLeaf (cache : Option MptNodeReference) (path oldValue : Bytes) (selfNibs key : List Nibble)
    (value : Bytes) : CachedMutation :=
  let commonLen := lcp selfNibs key
  if commonLen = selfNibs.length ∧ commonLen = key.length then
    if oldValue = value then (.ok false, .leaf cache path oldValue) else changed (.leaf cache path value)
  else if commonLen = selfNibs.length ∨ commonLen = key.length then
    (.error valueInBranch, .leaf cache path oldValue)
  else
    match selfNibs.drop commonLen, key.drop commonLen with
    | a :: selfRest, b :: keyRest =>
        changed (splitBranch cache (selfNibs.take commonLen) a (.leaf none (toEncodedPath selfRest true) oldValue)
          b (.leaf none (toEncodedPath keyRest true) value))
    | _, _ => (.error .panic, .leaf cache path oldValue)

/-- The child of a split extension moves with its cache. -/
def splitExtension (cache : Option MptNodeReference) (path : Bytes) (child : CachedNode)
    (selfNibs key : List Nibble) (value : Bytes) : CachedMutation :=
  let commonLen := lcp selfNibs key
  match selfNibs.drop commonLen, key.drop commonLen with
  | a :: selfRest, b :: keyRest =>
      let rest :=
        if selfRest.length > 0 then .extension none (toEncodedPath selfRest false) child else child
      changed (splitBranch cache (selfNibs.take commonLen) a rest b (.leaf none (toEncodedPath keyRest true) value))
  | _, _ => (.error .panic, .extension cache path child)

mutual
def insertInternal : CachedNode → List Nibble → Bytes → CachedMutation
  | .null cache, key, value => changed (.leaf cache (toEncodedPath key true) value)
  | .branch cache children, [], _ => (.error valueInBranch, .branch cache children)
  | .branch cache children, i :: tail, value =>
      onChange (insertChild (children i) tail value)
        (fun child => .branch cache (Function.update children i child))
        (fun child => changed (.branch cache (Function.update children i child)))
  | .leaf cache path oldValue, key, value =>
      match prefixNibs path with
      | .error f => (.error f, .leaf cache path oldValue)
      | .ok selfNibs => insertIntoLeaf cache path oldValue selfNibs key value
  | .extension cache path child, key, value =>
      match prefixNibs path with
      | .error f => (.error f, .extension cache path child)
      | .ok selfNibs =>
          if lcp selfNibs key = selfNibs.length then
            onChange (child.insertInternal (key.drop (lcp selfNibs key)) value)
              (.extension cache path) (fun child => changed (.extension cache path child))
          else if lcp selfNibs key = key.length then (.error valueInBranch, .extension cache path child)
          else splitExtension cache path child selfNibs key value
  | .digest cache d, _, _ => (.error (notResolved d), .digest cache d)
termination_by structural n => n

def insertChild : Option CachedNode → List Nibble → Bytes → Except Failure Bool × Option CachedNode
  | none, tail, value => (.ok true, some (.leaf none (toEncodedPath tail true) value))
  | some node, tail, value =>
      let (res, node) := node.insertInternal tail value
      (res, some node)
termination_by structural n => n
end

def insert (n : CachedNode) (key value : Bytes) : CachedMutation :=
  if value = [] then (.error .panic, n) else n.insertInternal (toNibs key) value

def insertRlp (n : CachedNode) (key encoded : Bytes) : CachedMutation :=
  n.insertInternal (toNibs key) encoded

def remaining (children : Nibble → Option CachedNode) : List (Nibble × CachedNode) :=
  (List.finRange 16).filterMap fun i => (children i).map (i, ·)

/-- What becomes of a branch after one of its children changed. The orphan of an extension
and an orphan that is kept move with their caches. -/
def collapse (cache : Option MptNodeReference) (children : Nibble → Option CachedNode) : CachedMutation :=
  match remaining children with
  | [] => (.error .panic, .branch cache children)
  | [(index, orphan)] =>
      match orphan with
      | .leaf _ path value =>
          match prefixNibs path with
          | .error f => (.error f, .branch cache children)
          | .ok nibs => changed (.leaf cache (toEncodedPath (index :: nibs) true) value)
      | .extension _ path child =>
          match prefixNibs path with
          | .error f => (.error f, .branch cache children)
          | .ok nibs => changed (.extension cache (toEncodedPath (index :: nibs) false) child)
      | .branch own below => changed (.extension cache (toEncodedPath [index] false) (.branch own below))
      | .digest own d => changed (.extension cache (toEncodedPath [index] false) (.digest own d))
      | .null _ => (.error .panic, .branch cache children)
  | _ :: _ :: _ => changed (.branch cache children)

/-- What becomes of an extension after its child changed. -/
def mergeExtension (cache : Option MptNodeReference) (path : Bytes) (selfNibs : List Nibble)
    (child : CachedNode) : CachedMutation :=
  match child with
  | .null _ => changed (.null cache)
  | .leaf _ childPath value =>
      match prefixNibs childPath with
      | .error f => (.error f, .extension cache path child)
      | .ok nibs => changed (.leaf cache (toEncodedPath (selfNibs ++ nibs) true) value)
  | .extension _ childPath node =>
      match prefixNibs childPath with
      | .error f => (.error f, .extension cache path child)
      | .ok nibs => changed (.extension cache (toEncodedPath (selfNibs ++ nibs) false) node)
  | .branch own below => changed (.extension cache path (.branch own below))
  | .digest own d => changed (.extension cache path (.digest own d))

mutual
def deleteInternal : CachedNode → List Nibble → CachedMutation
  | .null cache, _ => (.ok false, .null cache)
  | .branch cache children, [] => (.error valueInBranch, .branch cache children)
  | .branch cache children, i :: tail =>
      onChange (deleteChild (children i) tail)
        (fun child => .branch cache (Function.update children i child))
        (fun child => collapse cache (Function.update children i child))
  | .leaf cache path value, key =>
      match prefixNibs path with
      | .error f => (.error f, .leaf cache path value)
      | .ok nibs => if nibs = key then changed (.null cache) else (.ok false, .leaf cache path value)
  | .extension cache path child, key =>
      match prefixNibs path with
      | .error f => (.error f, .extension cache path child)
      | .ok selfNibs =>
          match selfNibs.isPrefixOf? key with
          | none => (.ok false, .extension cache path child)
          | some tail =>
              onChange (child.deleteInternal tail) (.extension cache path) (mergeExtension cache path selfNibs)
  | .digest cache d, _ => (.error (notResolved d), .digest cache d)
termination_by structural n => n

def deleteChild : Option CachedNode → List Nibble → Except Failure Bool × Option CachedNode
  | none, _ => (.ok false, none)
  | some node, tail =>
      let (res, node) := node.deleteInternal tail
      (res, if res = .ok true ∧ node.isEmpty then none else some node)
termination_by structural n => n
end

def delete (n : CachedNode) (key : Bytes) : CachedMutation := n.deleteInternal (toNibs key)

def clear (n : CachedNode) : CachedNode := CachedNode.invalidateRefCache (.null n.cache)

mutual
/-- A node whose caches are all empty. -/
def fresh : MptNode → CachedNode
  | .null => .null none
  | .branch children => .branch none fun i => freshChild (children i)
  | .leaf path value => .leaf none path value
  | .extension path child => .extension none path (fresh child)
  | .digest d => .digest none d
termination_by structural n => n

def freshChild : Option MptNode → Option CachedNode
  | none => none
  | some node => some (fresh node)
termination_by structural n => n
end

/-- What `decode` gives: every node is made by `into`. -/
def decode (bytes : Bytes) : Except Failure CachedNode := fresh <$> MptNode.decode bytes

/-- `serde` and `bincode`: the node after writing it out and reading it back, which skips the caches. -/
def serde (n : CachedNode) : CachedNode := fresh n.erase

def isDigestOf (childRef : B256) : CachedNode → Bool
  | .digest _ d => decide (d = childRef)
  | _ => false

/-- The node of a proof at an index, with its successor in the place of the digest that
stands for it. The other children are cloned, with their caches. -/
def replaceChild (i : Nat) (node : CachedNode) (childRef : B256) (replacement : CachedNode) :
    Except FromProofError CachedNode :=
  match node with
  | .branch _ children =>
      match (List.finRange 16).find? fun x => (children x).any (isDigestOf childRef) with
      | some x => .ok (.branch none (Function.update children x (some replacement)))
      | none => .error (.nodeHasInvalidSuccessor i)
  | .extension _ path child =>
      if child.isDigestOf childRef then .ok (.extension none path replacement)
      else .error (.nodeHasInvalidSuccessor i)
  | .null _ | .leaf _ _ _ | .digest _ _ => .error (.nodeCannotHaveChildren i)

/-- Nodes by their references. -/
abbrev Store := MptNodeReference → Option CachedNode

/-- The children of a branch, each sent through a call that may not return. -/
def mapChildren (f : CachedNode → Option CachedNode) (children : Nibble → Option CachedNode) :
    Option (Nibble → Option CachedNode) :=
  if ∀ i, (children i).all fun c => (f c).isSome then some fun i => (children i).bind f else none

/-- `resolve_nodes`: leaves and unresolved digests are cloned, branches and extensions made anew. -/
def resolveNodes (store : Store) : Nat → CachedNode → Option CachedNode
  | 0, _ => none
  | _ + 1, .null cache => some (.null cache)
  | _ + 1, .leaf cache path value => some (.leaf cache path value)
  | fuel + 1, .branch _ children => (mapChildren (resolveNodes store fuel) children).map (.branch none)
  | fuel + 1, .extension _ path target => (resolveNodes store fuel target).map (.extension none path)
  | fuel + 1, .digest cache d =>
      match store (.digest d) with
      | some node => resolveNodes store fuel node
      | none => some (.digest cache d)

/-- `resolve_nodes` returns, and returns this node. -/
def Resolves (store : Store) (root p : CachedNode) : Prop :=
  ∃ enough, ∀ fuel, enough ≤ fuel → resolveNodes store fuel root = some p

section Keccak
variable (keccak : Bytes → B256)

/-- The loop of `mpt_from_proof` over the nodes from an index on, the last one first. Asking
for the reference of a replacement fills its caches. -/
def linkNodes (i : Nat) : List CachedNode → Except FromProofError (Option CachedNode)
  | [] => .ok none
  | node :: rest =>
      match linkNodes (i + 1) rest with
      | .error e => .error e
      | .ok none => .ok (some node)
      | .ok (some replacement) =>
          match replacement.reference keccak with
          | (.bytes _, _) => .error (.nodeNotFoundByHash (i + 1))
          | (.digest childRef, replacement) => some <$> replaceChild i node childRef replacement

def mptFromProof (proofNodes : List CachedNode) : Except FromProofError CachedNode :=
  (·.getD (.null none)) <$> linkNodes keccak 0 proofNodes

/-- The hash, and the node with the caches filled that `hash` looks into. -/
def hashed (n : CachedNode) : B256 × CachedNode :=
  match n with
  | .null cache => (EMPTY_ROOT, .null cache)
  | _ => ((n.reference keccak).1.toDigest keccak, (n.reference keccak).2)

end Keccak

section Erase

/-- The children of a branch without their caches. -/
def eraseChildren (children : Nibble → Option CachedNode) : Nibble → Option MptNode :=
  fun i => eraseChild (children i)

def CachedMutation.erase (r : CachedMutation) : RethProcessor.Mutation := (r.1, r.2.erase)

@[simp] theorem erase_branch (cache : Option MptNodeReference) (children : Nibble → Option CachedNode) :
    (CachedNode.branch cache children).erase = .branch (eraseChildren children) := rfl

@[simp] theorem erase_extension (cache : Option MptNodeReference) (path : Bytes) (child : CachedNode) :
    (CachedNode.extension cache path child).erase = .extension path child.erase := rfl

@[simp] theorem eraseChildren_none : eraseChildren (fun _ => none) = noChildren := rfl

@[simp] theorem eraseChildren_update (children : Nibble → Option CachedNode) (i : Nibble)
    (o : Option CachedNode) :
    eraseChildren (Function.update children i o) = Function.update (eraseChildren children) i (eraseChild o) := by
  funext k
  by_cases h : k = i
  · subst h
    simp only [eraseChildren, Function.update_self]
  · simp only [eraseChildren, Function.update_of_ne h]

@[simp] theorem erase_changed (n : CachedNode) :
    CachedMutation.erase (changed n) = (.ok true, n.erase) := by
  simp only [changed, CachedMutation.erase, invalidateRefCache, erase_setCache]

@[simp] theorem erase_fst (r : CachedMutation) : (CachedMutation.erase r).1 = r.1 := rfl

@[simp] theorem erase_snd (r : CachedMutation) : (CachedMutation.erase r).2 = r.2.erase := rfl

@[simp] theorem isEmpty_erase (n : CachedNode) : n.erase.isEmpty = n.isEmpty := by cases n <;> rfl

theorem onChange_changed {α : Type} (r : Except Failure Bool × α) (node : α → CachedNode) :
    CachedMutation.erase (onChange r node fun a => changed (node a)) = (r.1, (node r.2).erase) := by
  unfold onChange
  split
  · next h => rw [erase_changed, h]
  · rfl

theorem onChange_erase {α β : Type} {r : Except Failure Bool × α} {s : Except Failure Bool × β}
    {unchanged : α → CachedNode} {after : α → CachedMutation} {unchanged' : β → MptNode}
    {after' : β → Mutation} (hres : r.1 = s.1) (hu : (unchanged r.2).erase = unchanged' s.2)
    (ha : CachedMutation.erase (after r.2) = after' s.2) :
    CachedMutation.erase (onChange r unchanged after) = RethProcessor.onChange s unchanged' after' := by
  unfold onChange RethProcessor.onChange
  rw [← hres]
  cases r.1 with
  | error f => simp only [CachedMutation.erase, hu]
  | ok b =>
      cases b with
      | false => simp only [CachedMutation.erase, hu]
      | true => exact ha

theorem splitBranch_erase (cache : Option MptNodeReference) (common : List Nibble) (a b : Nibble)
    (left right : CachedNode) : (splitBranch cache common a left b right).erase =
      RethProcessor.splitBranch common a left.erase b right.erase := by
  unfold splitBranch RethProcessor.splitBranch
  split
  · simp only [erase_extension, erase_branch, eraseChildren_update, eraseChildren_none, eraseChild]
  · simp only [erase_branch, eraseChildren_update, eraseChildren_none, eraseChild]

theorem insertIntoLeaf_erase (cache : Option MptNodeReference) (path oldValue : Bytes)
    (selfNibs key : List Nibble) (value : Bytes) :
    CachedMutation.erase (insertIntoLeaf cache path oldValue selfNibs key value) =
      RethProcessor.insertIntoLeaf path oldValue selfNibs key value := by
  unfold insertIntoLeaf RethProcessor.insertIntoLeaf
  simp only
  split
  · split
    · rfl
    · exact erase_changed _
  · split
    · rfl
    · cases selfNibs.drop (lcp selfNibs key) with
      | nil => rfl
      | cons a selfRest =>
          cases key.drop (lcp selfNibs key) with
          | nil => rfl
          | cons b keyRest =>
              rw [erase_changed, splitBranch_erase]
              rfl

theorem splitExtension_erase (cache : Option MptNodeReference) (path : Bytes) (child : CachedNode)
    (selfNibs key : List Nibble) (value : Bytes) :
    CachedMutation.erase (splitExtension cache path child selfNibs key value) =
      RethProcessor.splitExtension path child.erase selfNibs key value := by
  unfold splitExtension RethProcessor.splitExtension
  simp only
  cases selfNibs.drop (lcp selfNibs key) with
  | nil => rfl
  | cons a selfRest =>
      cases key.drop (lcp selfNibs key) with
      | nil => rfl
      | cons b keyRest =>
          rw [erase_changed, splitBranch_erase]
          by_cases h : selfRest.length > 0
          · simp only [h, ↓reduceIte, erase_extension]
            rfl
          · simp only [h, ↓reduceIte]
            rfl

/-- An insertion does to a node with caches what it does to the node without them. -/
theorem insertInternal_erase (n : CachedNode) (key : List Nibble) (value : Bytes) :
    CachedMutation.erase (n.insertInternal key value) = n.erase.insertInternal key value := by
  induction n generalizing key with
  | null cache => exact erase_changed _
  | digest cache d => rfl
  | leaf cache path oldValue =>
      simp only [insertInternal, erase, MptNode.insertInternal]
      cases prefixNibs path with
      | error f => rfl
      | ok selfNibs => exact insertIntoLeaf_erase ..
  | branch cache children ih =>
      cases key with
      | nil => rfl
      | cons i tail =>
          rw [insertInternal, onChange_changed, erase_branch, erase_branch, insertInternal_branch_cons]
          cases hc : children i with
          | none => simp only [insertChild, eraseChildren, hc, eraseChild, insertChild_none,
              eraseChildren_update, erase]
          | some c =>
              have h := ih i c hc tail
              simp only [insertChild, eraseChildren, hc, eraseChild, insertChild_some, ← h,
                eraseChildren_update, erase_fst, erase_snd]
  | extension cache path child ih =>
      simp only [insertInternal, erase, MptNode.insertInternal]
      cases prefixNibs path with
      | error f => rfl
      | ok selfNibs =>
          simp only
          split
          · rw [onChange_changed, ← ih]
            rfl
          · split
            · rfl
            · exact splitExtension_erase ..

theorem remaining_erase (children : Nibble → Option CachedNode) :
    RethProcessor.remaining (eraseChildren children) =
      (remaining children).map fun child => (child.1, child.2.erase) := by
  rw [RethProcessor.remaining, remaining, List.map_filterMap]
  congr 1
  funext i
  cases hc : children i with
  | none => simp only [eraseChildren, hc, eraseChild, Option.map_none]
  | some c => simp only [eraseChildren, hc, eraseChild, Option.map_some]

theorem collapse_erase (cache : Option MptNodeReference) (children : Nibble → Option CachedNode) :
    CachedMutation.erase (collapse cache children) = RethProcessor.collapse (eraseChildren children) := by
  unfold collapse RethProcessor.collapse
  rw [remaining_erase]
  cases remaining children with
  | nil => rfl
  | cons first rest =>
      cases rest with
      | cons => exact erase_changed _
      | nil =>
          obtain ⟨index, orphan⟩ := first
          cases orphan with
          | null own => rfl
          | branch | digest => exact erase_changed _
          | leaf own path value =>
              simp only [List.map_cons, List.map_nil, erase]
              cases prefixNibs path with
              | error f => rfl
              | ok nibs => exact erase_changed _
          | extension own path child =>
              simp only [List.map_cons, List.map_nil, erase]
              cases prefixNibs path with
              | error f => rfl
              | ok nibs => exact erase_changed _

theorem mergeExtension_erase (cache : Option MptNodeReference) (path : Bytes) (selfNibs : List Nibble)
    (child : CachedNode) : CachedMutation.erase (mergeExtension cache path selfNibs child) =
      RethProcessor.mergeExtension path selfNibs child.erase := by
  cases child with
  | null | branch | digest => exact erase_changed _
  | leaf own childPath value =>
      simp only [mergeExtension, erase, RethProcessor.mergeExtension]
      cases prefixNibs childPath with
      | error f => rfl
      | ok nibs => exact erase_changed _
  | extension own childPath node =>
      simp only [mergeExtension, erase, RethProcessor.mergeExtension]
      cases prefixNibs childPath with
      | error f => rfl
      | ok nibs => exact erase_changed _

/-- A deletion does to a node with caches what it does to the node without them. -/
theorem deleteInternal_erase (n : CachedNode) (key : List Nibble) :
    CachedMutation.erase (n.deleteInternal key) = n.erase.deleteInternal key := by
  induction n generalizing key with
  | null cache => rfl
  | digest cache d => rfl
  | leaf cache path value =>
      simp only [deleteInternal, erase, MptNode.deleteInternal]
      cases prefixNibs path with
      | error f => rfl
      | ok nibs =>
          by_cases h : nibs = key
          · simp only [h, ↓reduceIte, erase_changed, erase]
          · simp only [h, ↓reduceIte]
            rfl
  | branch cache children ih =>
      cases key with
      | nil => rfl
      | cons i tail =>
          have hres : (deleteChild (children i) tail).1 = (RethProcessor.deleteChild (eraseChildren children i) tail).1 ∧
              eraseChild (deleteChild (children i) tail).2 =
                (RethProcessor.deleteChild (eraseChildren children i) tail).2 := by
            cases hc : children i with
            | none =>
                simp only [eraseChildren, hc]
                exact ⟨rfl, rfl⟩
            | some c =>
                have h := ih i c hc tail
                simp only [deleteChild, eraseChildren, hc, eraseChild, RethProcessor.deleteChild, ← h,
                  erase_fst, erase_snd, isEmpty_erase, true_and]
                split
                · rfl
                · rfl
          rw [deleteInternal, erase_branch, MptNode.deleteInternal]
          refine onChange_erase hres.1 ?_ ?_
          · rw [erase_branch, eraseChildren_update, hres.2]
          · rw [collapse_erase, eraseChildren_update, hres.2]
  | extension cache path child ih =>
      simp only [deleteInternal, erase, MptNode.deleteInternal]
      cases prefixNibs path with
      | error f => rfl
      | ok selfNibs =>
          simp only
          cases selfNibs.isPrefixOf? key with
          | none => rfl
          | some tail =>
              refine onChange_erase (r := child.deleteInternal tail) (by rw [← ih]; rfl) ?_ ?_
              · rw [erase_extension, ← ih]
                rfl
              · rw [mergeExtension_erase, ← ih]
                rfl

@[simp] theorem erase_fresh (n : MptNode) : (fresh n).erase = n := by
  induction n with
  | null | leaf | digest => rfl
  | extension path child ih => rw [fresh, erase_extension, ih]
  | branch children ih =>
      rw [fresh, erase_branch, MptNode.branch.injEq]
      funext i
      cases hc : children i with
      | none => simp only [eraseChildren, hc, freshChild, eraseChild]
      | some c => simp only [eraseChildren, hc, freshChild, eraseChild, ih i c hc]

theorem mapChildren_erase {f : CachedNode → Option CachedNode} {g : MptNode → Option MptNode}
    (h : ∀ c, (f c).map erase = g c.erase) (children : Nibble → Option CachedNode) :
    (mapChildren f children).map eraseChildren = RethProcessor.mapChildren g (eraseChildren children) := by
  have hsome (c : CachedNode) : (f c).isSome = (g c.erase).isSome := by rw [← h, Option.isSome_map]
  have hiff : (∀ i, (children i).all fun c => (f c).isSome) ↔
      ∀ i, (eraseChildren children i).all fun c => (g c).isSome := by
    apply forall_congr'
    intro i
    cases hc : children i with
    | none => simp only [eraseChildren, hc, eraseChild, Option.all_none]
    | some c => simp only [eraseChildren, hc, eraseChild, Option.all_some, hsome]
  unfold mapChildren RethProcessor.mapChildren
  by_cases hall : ∀ i, (children i).all fun c => (f c).isSome
  · rw [if_pos hall, if_pos (hiff.mp hall), Option.map_some, Option.some.injEq]
    funext i
    cases hc : children i with
    | none => simp only [eraseChildren, hc, Option.bind_none, eraseChild]
    | some c =>
        simp only [eraseChildren, hc, Option.bind_some, eraseChild, ← h]
        cases f c <;> rfl
  · rw [if_neg hall, if_neg fun hc => hall (hiff.mpr hc), Option.map_none]

/-- A store without the caches of its nodes. -/
def eraseStore (store : Store) : NodeStore := fun r => (store r).map erase

/-- Resolution does to nodes with caches what it does to the nodes without them. -/
theorem resolveNodes_erase (store : Store) (fuel : Nat) (root : CachedNode) :
    (resolveNodes store fuel root).map erase = RethProcessor.resolveNodes (eraseStore store) fuel root.erase := by
  induction fuel generalizing root with
  | zero => rfl
  | succ fuel ih =>
      cases root with
      | null | leaf => rfl
      | branch cache children =>
          rw [resolveNodes, erase_branch, RethProcessor.resolveNodes, ← mapChildren_erase ih, Option.map_map,
            Option.map_map]
          rfl
      | extension cache path target =>
          rw [resolveNodes, erase_extension, RethProcessor.resolveNodes, ← ih, Option.map_map, Option.map_map]
          rfl
      | digest cache d =>
          simp only [resolveNodes, erase, RethProcessor.resolveNodes, eraseStore]
          cases store (.digest d) with
          | none => rfl
          | some node => exact ih node

theorem Resolves.erase {store : Store} {root p : CachedNode} (h : Resolves store root p) :
    RethProcessor.Resolves (eraseStore store) root.erase p.erase := by
  obtain ⟨enough, h⟩ := h
  refine ⟨enough, ?_⟩
  intro fuel hf
  rw [← resolveNodes_erase, h fuel hf, Option.map_some]

@[simp] theorem isDigestOf_erase (childRef : B256) (n : CachedNode) :
    n.erase.isDigestOf childRef = n.isDigestOf childRef := by cases n <;> rfl

theorem replaceChild_erase (i : Nat) (node : CachedNode) (childRef : B256) (replacement : CachedNode) :
    erase <$> replaceChild i node childRef replacement =
      RethProcessor.replaceChild i node.erase childRef replacement.erase := by
  cases node with
  | null | leaf | digest => rfl
  | extension cache path child =>
      simp only [replaceChild, erase_extension, RethProcessor.replaceChild, isDigestOf_erase]
      split
      · rfl
      · rfl
  | branch cache children =>
      have hany (x : Nibble) : (eraseChildren children x).any (MptNode.isDigestOf childRef) =
          (children x).any (isDigestOf childRef) := by
        cases hc : children x with
        | none => simp only [eraseChildren, hc, eraseChild, Option.any_none]
        | some c => simp only [eraseChildren, hc, eraseChild, Option.any_some, isDigestOf_erase]
      simp only [replaceChild, erase_branch, RethProcessor.replaceChild, hany]
      cases (List.finRange 16).find? fun x => (children x).any (isDigestOf childRef) with
      | none => rfl
      | some x =>
          show Except.ok _ = Except.ok _
          rw [erase_branch, eraseChildren_update]
          rfl

end Erase

end CachedNode
end RethProcessor
