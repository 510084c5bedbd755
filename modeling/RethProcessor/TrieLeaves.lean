import RethProcessor.TrieDelete
import RethProcessor.TrieFlags

/-! The traversal of the leaves. The stack of the loop holds nodes with the nibbles that lead to
them; what it still has to call back with are the leaves below its nodes. -/
namespace RethProcessor
open Paths Calls

/-- `Nibbles::extend` and `push`: there is room for 64 nibbles. -/
def pushNibbles (path more : List Nibble) : Except Failure (List Nibble) :=
  if (path ++ more).length ≤ 64 then .ok (path ++ more) else .error .panic

/-- `Nibbles::pack`: an odd last nibble is the upper half of a byte. -/
def pack (nibs : List Nibble) : Bytes := joinPairs (if nibs.length % 2 = 0 then nibs else nibs ++ [0])

mutual
/-- The number of nodes. -/
def MptNode.size : MptNode → Nat
  | .null | .leaf _ _ | .digest _ => 1
  | .branch children => ((List.finRange 16).map fun i => childSize (children i)).sum + 1
  | .extension _ child => child.size + 1
termination_by structural n => n

def childSize : Option MptNode → Nat
  | none => 0
  | some child => child.size
termination_by structural n => n
end

/-- One turn of the loop: what it pushes, with the last pushed first, and what it calls back with. -/
def visitNode (node : MptNode) (path : List Nibble) :
    Except Failure (List (MptNode × List Nibble) × List (Bytes × Bytes)) :=
  match node with
  | .null | .digest _ => .ok ([], [])
  | .branch children => do
      let pushed ← (remaining children).mapM fun x => do
        let newPath ← pushNibbles path [x.1]
        .ok (x.2, newPath)
      .ok (pushed.reverse, [])
  | .leaf path' value => do
      let nibs ← prefixNibs path'
      let fullPath ← pushNibbles path nibs
      .ok ([], [(pack fullPath, value)])
  | .extension path' child => do
      let nibs ← prefixNibs path'
      let newPath ← pushNibbles path nibs
      .ok ([(child, newPath)], [])

/-- The loop, with the top of the stack first. -/
def visitAll : Nat → List (MptNode × List Nibble) → Except Failure (List (Bytes × Bytes))
  | _, [] => .ok []
  | 0, _ :: _ => .error .panic
  | fuel + 1, (node, path) :: rest => do
      let (pushed, called) ← visitNode node path
      let later ← visitAll fuel (pushed ++ rest)
      .ok (called ++ later)

/-- `for_each_leaves`: the arguments that it calls back with, in turn. -/
def MptNode.forEachLeaves (n : MptNode) : Except Failure (List (Bytes × Bytes)) := visitAll n.size [(n, [])]

section Visit
variable {node : MptNode} {path : List Nibble} {pushed : List (MptNode × List Nibble)} {called : List (Bytes × Bytes)}

theorem pushNibbles_ok {more full : List Nibble} (h : pushNibbles path more = .ok full) : full = path ++ more := by
  rw [pushNibbles] at h
  split at h
  · exact (Except.ok.inj h).symm
  · cases h

/-- A turn at a branch pushes its children, each with its index after the path. -/
theorem visitNode_branch {children : Nibble → Option MptNode} (h : visitNode (.branch children) path = .ok (pushed, called)) :
    pushed = ((remaining children).map fun x => (x.2, path ++ [x.1])).reverse ∧ called = [] := by
  obtain ⟨r, hr, hpair⟩ := bind_ok_inv h
  obtain ⟨rfl, rfl⟩ := Prod.mk.inj (Except.ok.inj hpair)
  have hall : ∀ x ∈ remaining children, (do
      let newPath ← pushNibbles path [x.1]
      .ok (x.2, newPath) : Except Failure (MptNode × List Nibble)) = .ok (x.2, path ++ [x.1]) := by
    intro x hx
    obtain ⟨b, -, hb⟩ := (mapM_ok_inv hr).2.2 x hx
    obtain ⟨newPath, hpush, -⟩ := bind_ok_inv hb
    rw [hpush, pushNibbles_ok hpush]
    rfl
  have heq := hr.symm.trans (mapM_ok hall)
  rw [Except.ok.inj heq]
  exact ⟨rfl, rfl⟩

theorem visitNode_leaf {path' value : Bytes} (h : visitNode (.leaf path' value) path = .ok (pushed, called)) :
    ∃ ns, prefixNibs path' = .ok ns ∧ pushed = [] ∧ called = [(pack (path ++ ns), value)] := by
  obtain ⟨ns, hns, h⟩ := bind_ok_inv h
  obtain ⟨full, hfull, h⟩ := bind_ok_inv h
  obtain ⟨rfl, rfl⟩ := Prod.mk.inj (Except.ok.inj h)
  exact ⟨ns, hns, rfl, by rw [pushNibbles_ok hfull]⟩

theorem visitNode_extension {path' : Bytes} {child : MptNode}
    (h : visitNode (.extension path' child) path = .ok (pushed, called)) :
    ∃ ns, prefixNibs path' = .ok ns ∧ pushed = [(child, path ++ ns)] ∧ called = [] := by
  obtain ⟨ns, hns, h⟩ := bind_ok_inv h
  obtain ⟨full, hfull, h⟩ := bind_ok_inv h
  obtain ⟨rfl, rfl⟩ := Prod.mk.inj (Except.ok.inj h)
  exact ⟨ns, hns, by rw [pushNibbles_ok hfull], rfl⟩

/-- What is below a node is called back with at once, or is below a node that is pushed. -/
theorem visitNode_stores (h : visitNode node path = .ok (pushed, called)) (key value : Bytes) :
    (∃ ns, Stores node ns value ∧ pack (path ++ ns) = key) ↔
      (key, value) ∈ called ∨ ∃ x ∈ pushed, ∃ ns, Stores x.1 ns value ∧ pack (x.2 ++ ns) = key := by
  cases node with
  | null =>
      obtain ⟨rfl, rfl⟩ := Prod.mk.inj (Except.ok.inj h)
      refine iff_of_false ?_ (by simp)
      rintro ⟨ns, hs, -⟩
      cases hs
  | digest d =>
      obtain ⟨rfl, rfl⟩ := Prod.mk.inj (Except.ok.inj h)
      refine iff_of_false ?_ (by simp)
      rintro ⟨ns, hs, -⟩
      cases hs
  | branch children =>
      obtain ⟨rfl, rfl⟩ := visitNode_branch h
      simp only [List.not_mem_nil, false_or, List.mem_reverse, List.mem_map]
      constructor
      · rintro ⟨ns, hs, hkey⟩
        cases hs with
        | @branch _ i c tail _ hc hs =>
            exact ⟨_, ⟨(i, c), mem_remaining.mpr hc, rfl⟩, tail, hs, by rw [List.append_assoc]; exact hkey⟩
      · rintro ⟨_, ⟨⟨i, c⟩, hmem, rfl⟩, ns, hs, hkey⟩
        exact ⟨i :: ns, .branch (mem_remaining.mp hmem) hs, by rw [List.append_assoc] at hkey; exact hkey⟩
  | leaf path' v =>
      obtain ⟨ns, hns, rfl, rfl⟩ := visitNode_leaf h
      simp only [List.mem_singleton, Prod.mk.injEq, List.not_mem_nil, false_and, exists_false, or_false]
      constructor
      · rintro ⟨ns', hs, rfl⟩
        cases hs with
        | leaf hp =>
            obtain rfl : ns = ns' := Except.ok.inj (hns.symm.trans hp)
            exact ⟨rfl, rfl⟩
      · rintro ⟨rfl, rfl⟩
        exact ⟨ns, .leaf hns, rfl⟩
  | extension path' child =>
      obtain ⟨ns, hns, rfl, rfl⟩ := visitNode_extension h
      simp only [List.not_mem_nil, false_or, List.mem_singleton, exists_eq_left]
      constructor
      · rintro ⟨ns', hs, hkey⟩
        cases hs with
        | @extension _ ms tail _ _ hp hs =>
            obtain rfl : ns = ms := Except.ok.inj (hns.symm.trans hp)
            exact ⟨tail, hs, by rw [List.append_assoc]; exact hkey⟩
      · rintro ⟨tail, hs, hkey⟩
        exact ⟨ns ++ tail, .extension hns hs, by rw [List.append_assoc] at hkey; exact hkey⟩

/-- The nodes below a stack. -/
def pending (stack : List (MptNode × List Nibble)) : Nat := (stack.map fun x => x.1.size).sum

theorem pending_cons (node : MptNode) (path : List Nibble) (rest : List (MptNode × List Nibble)) :
    pending ((node, path) :: rest) = node.size + pending rest := by
  rw [pending, List.map_cons, List.sum_cons]
  rfl

theorem MptNode.size_pos (n : MptNode) : 0 < n.size := by
  cases n with
  | null | leaf | digest => exact Nat.one_pos
  | branch | extension => exact Nat.succ_pos _

theorem pending_append (stack stack' : List (MptNode × List Nibble)) :
    pending (stack ++ stack') = pending stack + pending stack' := by
  rw [pending, List.map_append, List.sum_append]
  rfl

theorem sum_remaining (children : Nibble → Option MptNode) :
    ((remaining children).map fun x => x.2.size).sum = ((List.finRange 16).map fun i => childSize (children i)).sum := by
  rw [remaining]
  induction List.finRange 16 with
  | nil => rfl
  | cons i l ih =>
      rw [List.map_cons, List.sum_cons, ← ih]
      cases hc : children i with
      | none =>
          rw [List.filterMap_cons_none (by rw [hc]; rfl), childSize, Nat.zero_add]
      | some c =>
          rw [List.filterMap_cons_some (b := (i, c)) (by rw [hc]; rfl), List.map_cons, List.sum_cons, childSize]

/-- Each turn takes one node off. -/
theorem visitNode_pending (h : visitNode node path = .ok (pushed, called)) : pending pushed + 1 = node.size := by
  cases node with
  | null =>
      obtain ⟨rfl, rfl⟩ := Prod.mk.inj (Except.ok.inj h)
      rfl
  | digest d =>
      obtain ⟨rfl, rfl⟩ := Prod.mk.inj (Except.ok.inj h)
      rfl
  | branch children =>
      obtain ⟨rfl, -⟩ := visitNode_branch h
      rw [pending, List.map_reverse, List.sum_reverse, List.map_map, MptNode.size, ← sum_remaining]
      rfl
  | leaf path' v =>
      obtain ⟨ns, -, rfl, -⟩ := visitNode_leaf h
      rfl
  | extension path' child =>
      obtain ⟨ns, -, rfl, -⟩ := visitNode_extension h
      rfl

end Visit

section Loop
variable {stack : List (MptNode × List Nibble)} {fuel : Nat} {calls : List (Bytes × Bytes)}

/-- The loop calls back with the leaves below the stack. -/
theorem mem_visitAll (h : visitAll fuel stack = .ok calls) {key value : Bytes} :
    (key, value) ∈ calls ↔ ∃ x ∈ stack, ∃ ns, Stores x.1 ns value ∧ pack (x.2 ++ ns) = key := by
  induction fuel generalizing stack calls with
  | zero =>
      cases stack with
      | nil =>
          cases h
          simp
      | cons x rest => cases h
  | succ fuel ih =>
      cases stack with
      | nil =>
          cases h
          simp
      | cons x rest =>
          obtain ⟨node, path⟩ := x
          obtain ⟨⟨pushed, called⟩, hvisit, h⟩ := bind_ok_inv h
          obtain ⟨later, hlater, h⟩ := bind_ok_inv h
          cases h
          rw [List.mem_append, ih hlater, List.exists_mem_cons_iff, visitNode_stores hvisit, or_assoc]
          simp only [List.mem_append, or_and_right, exists_or]

/-- `for_each_leaves` calls back with the leaves of the trie. -/
theorem mem_forEachLeaves {n : MptNode} (h : n.forEachLeaves = .ok calls) {key value : Bytes} :
    (key, value) ∈ calls ↔ ∃ ns, Stores n ns value ∧ pack ns = key := by
  rw [mem_visitAll h]
  simp

theorem forEachLeaves_leaf {ns : List Nibble} {value : Bytes} (h : ns.length ≤ 64) :
    (MptNode.leaf (toEncodedPath ns true) value).forEachLeaves = .ok [(pack ns, value)] := by
  have hvisit : visitNode (.leaf (toEncodedPath ns true) value) [] = .ok ([], [(pack ns, value)]) := by
    have hpush : pushNibbles [] ns = .ok ns := if_pos h
    simp only [visitNode, prefixNibs_toEncodedPath, bind, Except.bind, hpush]
  rw [MptNode.forEachLeaves, MptNode.size, visitAll, hvisit]
  rfl

end Loop

/-- No leaf is found further on below the end of another one's key. -/
theorem Stores.eq_of_append {n : MptNode} {key rest : List Nibble} {value other : Bytes} (h : Stores n key value)
    (h' : Stores n (key ++ rest) other) : rest = [] ∧ value = other := by
  induction h generalizing rest other with
  | @leaf path value ns hp =>
      generalize hk : ns ++ rest = k at h'
      cases h' with
      | leaf hp' =>
          obtain rfl : ns = k := Except.ok.inj (hp.symm.trans hp')
          exact ⟨List.append_right_eq_self.mp hk, rfl⟩
  | @branch children i c key value hc _ ih =>
      generalize hk : i :: key ++ rest = k at h'
      cases h' with
      | @branch _ j d tail _ hd hs =>
          obtain ⟨rfl, rfl⟩ := List.cons.inj hk
          obtain rfl : c = d := Option.some.inj (hc.symm.trans hd)
          exact ih hs
  | @extension path ns key c value hp _ ih =>
      generalize hk : ns ++ key ++ rest = k at h'
      cases h' with
      | @extension _ ms tail _ _ hp' hs =>
          obtain rfl : ns = ms := Except.ok.inj (hp.symm.trans hp')
          rw [List.append_assoc, List.append_cancel_left_eq] at hk
          exact ih (hk ▸ hs)

theorem toNibs_of_pack {nibs : List Nibble} {key : Bytes} (h : pack nibs = key) :
    nibs = toNibs key ∨ nibs ++ [0] = toNibs key := by
  rw [← h, pack]
  split
  · next heven =>
      rw [toNibs_joinPairs heven]
      exact .inl rfl
  · next hodd =>
      rw [toNibs_joinPairs (by rw [List.length_append, List.length_singleton]; omega)]
      exact .inr rfl

theorem pack_toNibs (key : Bytes) : pack (toNibs key) = key := by
  rw [pack, if_pos (toNibs_even key), joinPairs_toNibs]

section Room
variable {node : MptNode} {path : List Nibble} {room : Nat}

/-- The node is at most `room` nibbles deep. -/
inductive Within : Nat → MptNode → Prop
  | null (room : Nat) : Within room .null
  | branch {room : Nat} {children : Nibble → Option MptNode} :
      (∀ i c, children i = some c → Within room c) → Within (room + 1) (.branch children)
  | leaf {room : Nat} {ns : List Nibble} (value : Bytes) : ns.length ≤ room →
      Within room (.leaf (toEncodedPath ns true) value)
  | extension {room : Nat} (ns : List Nibble) {child : MptNode} : Within room child →
      Within (ns.length + room) (.extension (toEncodedPath ns false) child)
  | digest (room : Nat) (d : B256) : Within room (.digest d)

/-- There is room for the nodes of a stack behind the paths that lead to them. -/
def HasRoom (stack : List (MptNode × List Nibble)) : Prop :=
  ∀ x ∈ stack, ∃ room, Within room x.1 ∧ x.2.length + room ≤ 64

theorem pushNibbles_of_le {more : List Nibble} (h : path.length + more.length ≤ 64) :
    pushNibbles path more = .ok (path ++ more) := if_pos (by rwa [List.length_append])

/-- Where there is room, a turn does not panic, and what it pushes has room again. -/
theorem visitNode_room (hw : Within room node) (hroom : path.length + room ≤ 64) :
    ∃ pushed called, visitNode node path = .ok (pushed, called) ∧ HasRoom pushed := by
  cases hw with
  | null => exact ⟨[], [], rfl, List.forall_mem_nil _⟩
  | digest => exact ⟨[], [], rfl, List.forall_mem_nil _⟩
  | @branch room children hc =>
      have hpush : ∀ x ∈ remaining children, (do
          let newPath ← pushNibbles path [x.1]
          .ok (x.2, newPath) : Except Failure (MptNode × List Nibble)) = .ok (x.2, path ++ [x.1]) := by
        intro x _
        rw [pushNibbles_of_le (by rw [List.length_singleton]; omega)]
        rfl
      refine ⟨_, [], by rw [visitNode, mapM_ok hpush]; rfl, ?_⟩
      intro y hy
      obtain ⟨x, hx, rfl⟩ := List.mem_map.mp (List.mem_reverse.mp hy)
      refine ⟨room, hc x.1 x.2 (mem_remaining.mp hx), ?_⟩
      rw [List.length_append, List.length_singleton]
      omega
  | @leaf _ ns value hle =>
      refine ⟨[], [(pack (path ++ ns), value)], ?_, List.forall_mem_nil _⟩
      simp only [visitNode, prefixNibs_toEncodedPath, bind, Except.bind,
        pushNibbles_of_le (show path.length + ns.length ≤ 64 by omega)]
  | @extension room ns child hc =>
      refine ⟨[(child, path ++ ns)], [], ?_, ?_⟩
      · simp only [visitNode, prefixNibs_toEncodedPath, bind, Except.bind,
          pushNibbles_of_le (show path.length + ns.length ≤ 64 by omega)]
      · intro y hy
        rw [List.mem_singleton] at hy
        subst hy
        exact ⟨room, hc, by rw [List.length_append]; omega⟩

/-- Where there is room for the whole stack, the loop does not panic. -/
theorem visitAll_room {stack : List (MptNode × List Nibble)} {fuel : Nat} (hroom : HasRoom stack)
    (hfuel : pending stack ≤ fuel) : ∃ calls, visitAll fuel stack = .ok calls := by
  induction fuel generalizing stack with
  | zero =>
      cases stack with
      | nil => exact ⟨[], rfl⟩
      | cons x rest =>
          have hpos := x.1.size_pos
          rw [pending_cons] at hfuel
          omega
  | succ fuel ih =>
      cases stack with
      | nil => exact ⟨[], rfl⟩
      | cons x rest =>
          obtain ⟨node, path⟩ := x
          obtain ⟨⟨room, hw, hle⟩, hrest⟩ := List.forall_mem_cons.mp hroom
          obtain ⟨pushed, called, hvisit, hpushed⟩ := visitNode_room hw hle
          have hsize : pending pushed + 1 = node.size := visitNode_pending hvisit
          rw [pending_cons] at hfuel
          obtain ⟨later, hlater⟩ := ih (List.forall_mem_append.mpr ⟨hpushed, hrest⟩)
            (by rw [pending_append]; omega)
          refine ⟨called ++ later, ?_⟩
          rw [visitAll, hvisit]
          change (visitAll fuel (pushed ++ rest) >>= _) = _
          rw [hlater]
          rfl

end Room

section Apart

theorem clash_of_append {p r q : List Nibble} (h : Clash (p ++ r) q) : Clash p q := by
  rcases h with h | h
  · exact .inl ((List.prefix_append p r).trans h)
  · exact (List.prefix_or_prefix_of_prefix (List.prefix_append p r) h)

/-- No path of the stack leads below another one. -/
def Apart (stack : List (MptNode × List Nibble)) : Prop := stack.Pairwise fun x y => ¬ Clash x.2 y.2

/-- The keys below the stack have whole bytes. -/
def EvenKeys (stack : List (MptNode × List Nibble)) : Prop :=
  ∀ x ∈ stack, ∀ ns value, Stores x.1 ns value → (x.2 ++ ns).length % 2 = 0

/-- A turn pushes paths that lead on from its own and away from one another. -/
theorem visitNode_apart {node : MptNode} {path : List Nibble} {pushed : List (MptNode × List Nibble)}
    {called : List (Bytes × Bytes)} (h : visitNode node path = .ok (pushed, called)) :
    Apart pushed ∧ ∀ x ∈ pushed, path <+: x.2 := by
  cases node with
  | null =>
      cases h
      exact ⟨List.Pairwise.nil, List.forall_mem_nil _⟩
  | digest d =>
      cases h
      exact ⟨List.Pairwise.nil, List.forall_mem_nil _⟩
  | branch children =>
      obtain ⟨rfl, -⟩ := visitNode_branch h
      constructor
      · rw [Apart, List.pairwise_reverse, List.pairwise_map]
        refine (pairwise_remaining children).imp ?_
        intro x y hne hclash
        rw [clash_append_left] at hclash
        exact not_clash_cons_of_ne (Ne.symm hne) [] [] hclash
      · intro y hy
        obtain ⟨x, -, rfl⟩ := List.mem_map.mp (List.mem_reverse.mp hy)
        exact List.prefix_append path [x.1]
  | leaf path' v =>
      obtain ⟨ns, -, rfl, -⟩ := visitNode_leaf h
      exact ⟨List.Pairwise.nil, List.forall_mem_nil _⟩
  | extension path' child =>
      obtain ⟨ns, -, rfl, -⟩ := visitNode_extension h
      refine ⟨List.pairwise_singleton _ _, ?_⟩
      intro y hy
      rw [List.mem_singleton] at hy
      subst hy
      exact List.prefix_append path ns

/-- A turn calls back only at a leaf, and pushes nothing there. -/
theorem visitNode_called {node : MptNode} {path : List Nibble} {pushed : List (MptNode × List Nibble)}
    {called : List (Bytes × Bytes)} (h : visitNode node path = .ok (pushed, called)) : called = [] ∨
      pushed = [] ∧ ∃ ns value, Stores node ns value ∧ called = [(pack (path ++ ns), value)] := by
  cases node with
  | null =>
      cases h
      exact .inl rfl
  | digest d =>
      cases h
      exact .inl rfl
  | branch children => exact .inl (visitNode_branch h).2
  | leaf path' v =>
      obtain ⟨ns, hns, hpushed, hcalled⟩ := visitNode_leaf h
      exact .inr ⟨hpushed, ns, v, .leaf hns, hcalled⟩
  | extension path' child =>
      obtain ⟨ns, -, -, hcalled⟩ := visitNode_extension h
      exact .inl hcalled

/-- The keys below what a turn pushes are keys below its node. -/
theorem visitNode_stored {node : MptNode} {path : List Nibble} {pushed : List (MptNode × List Nibble)}
    {called : List (Bytes × Bytes)} (h : visitNode node path = .ok (pushed, called)) :
    ∀ x ∈ pushed, ∀ ns value, Stores x.1 ns value → ∃ ms, Stores node ms value ∧ path ++ ms = x.2 ++ ns := by
  intro x hx ns value hs
  cases node with
  | null =>
      cases h
      cases hx
  | digest d =>
      cases h
      cases hx
  | branch children =>
      obtain ⟨rfl, -⟩ := visitNode_branch h
      obtain ⟨⟨i, c⟩, hmem, rfl⟩ := List.mem_map.mp (List.mem_reverse.mp hx)
      exact ⟨i :: ns, .branch (mem_remaining.mp hmem) hs, by rw [List.append_assoc]; rfl⟩
  | leaf path' v =>
      obtain ⟨ms, -, rfl, -⟩ := visitNode_leaf h
      cases hx
  | extension path' child =>
      obtain ⟨ms, hms, rfl, -⟩ := visitNode_extension h
      rw [List.mem_singleton] at hx
      subst hx
      exact ⟨ms ++ ns, .extension hms hs, by rw [List.append_assoc]⟩

theorem pack_inj {a b : List Nibble} (ha : a.length % 2 = 0) (hb : b.length % 2 = 0) (h : pack a = pack b) : a = b := by
  rw [pack, pack, if_pos ha, if_pos hb] at h
  rw [← toNibs_joinPairs ha, h, toNibs_joinPairs hb]

/-- Over paths that lead apart, with keys of whole bytes below them, no key is called back with twice. -/
theorem visitAll_nodup {stack : List (MptNode × List Nibble)} {fuel : Nat} {calls : List (Bytes × Bytes)}
    (h : visitAll fuel stack = .ok calls) (hapart : Apart stack) (heven : EvenKeys stack) : calls.Nodup := by
  induction fuel generalizing stack calls with
  | zero =>
      cases stack with
      | nil =>
          cases h
          exact List.nodup_nil
      | cons x rest => cases h
  | succ fuel ih =>
      cases stack with
      | nil =>
          cases h
          exact List.nodup_nil
      | cons x rest =>
          obtain ⟨node, path⟩ := x
          obtain ⟨⟨pushed, called⟩, hvisit, h⟩ := bind_ok_inv h
          obtain ⟨later, hlater, h⟩ := bind_ok_inv h
          cases h
          obtain ⟨hbeside, hrest⟩ := List.pairwise_cons.mp hapart
          obtain ⟨hnode, heven⟩ := List.forall_mem_cons.mp heven
          obtain ⟨hpushed, hbelow⟩ := visitNode_apart hvisit
          have hlaterNodup : later.Nodup := by
            refine ih hlater ?_ ?_
            · refine List.pairwise_append.mpr ⟨hpushed, hrest, ?_⟩
              intro x hx y hy hclash
              obtain ⟨more, hmore⟩ := hbelow x hx
              exact hbeside y hy (clash_of_append (hmore ▸ hclash))
            · refine List.forall_mem_append.mpr ⟨?_, heven⟩
              intro x hx ns value hs
              obtain ⟨ms, hms, heq⟩ := visitNode_stored hvisit x hx ns value hs
              exact heq ▸ hnode ms value hms
          rcases visitNode_called hvisit with rfl | ⟨rfl, ns, value, hs, rfl⟩
          · exact hlaterNodup
          · refine List.nodup_cons.mpr ⟨?_, hlaterNodup⟩
            intro hmem
            obtain ⟨x, hx, ms, hms, hpack⟩ := (mem_visitAll hlater).mp hmem
            have heq := pack_inj (heven x hx ms value hms) (hnode ns value hs) hpack
            exact hbeside x hx (clash_of_append (r := ns) (heq ▸ .inr (List.prefix_append x.2 ms)))

end Apart

/-- A canonical trie, with digests in it, over keys of at most 32 bytes. -/
structure SparseOverBytes (n : MptNode) : Prop where
  canonical : CanonicalTrie n
  stored : ∀ ns value, n.getInternal ns = .ok (some value) → ∃ key, key.length ≤ 32 ∧ ns = toNibs key
  hidden : ∀ ns f, n.getInternal ns = .error f →
    ∃ short, short <+: ns ∧ short.length ≤ 64 ∧ n.getInternal short = .error f

/-- A canonical node lies within the room that its lookups need. -/
theorem Canonical.within {n : MptNode} (hn : Canonical n) {room : Nat}
    (h : ∀ ns, Live n ns → ∃ short, short <+: ns ∧ Live n short ∧ short.length ≤ room) : Within room n := by
  induction hn generalizing room with
  | digest d => exact .digest room d
  | leaf ns value =>
      obtain ⟨short, -, hlive, hle⟩ := h ns (by simp [Live])
      exact .leaf value (hlive.leaf_path ▸ hle)
  | @branch children i j hne hi hj hc ih =>
      have hshort {x : Nibble} {s : List Nibble} (hlive : Live (.branch children) (x :: s)) :
          ∃ short, short <+: s ∧ Live (.branch children) (x :: short) ∧ short.length + 1 ≤ room := by
        obtain ⟨short, hpre, hl, hle⟩ := h _ hlive
        cases short with
        | nil => exact absurd rfl hl
        | cons y short =>
            obtain ⟨rfl, htail⟩ := List.cons_prefix_cons.mp hpre
            exact ⟨short, htail, hl, hle⟩
      obtain ⟨x, _, s, _, -, hs, -⟩ := (Canonical.branch hne hi hj hc).branch_live
      obtain ⟨short, -, -, hpos⟩ := hshort hs
      obtain ⟨room, rfl⟩ : ∃ r, room = r + 1 := ⟨room - 1, by omega⟩
      refine .branch fun x c hx => ih x c hx ?_
      intro s hs
      obtain ⟨short, hpre, hl, hle⟩ := hshort (x := x) (s := s) (by simpa [Live, hx] using hs)
      exact ⟨short, hpre, by simpa [Live, hx] using hl, Nat.le_of_succ_le_succ hle⟩
  | @extension ns child hns hkind hc ih =>
      have hshort {s : List Nibble} (hlive : Live child s) :
          ∃ short, short <+: s ∧ Live child short ∧ ns.length + short.length ≤ room := by
        obtain ⟨short, hpre, hl, hle⟩ := h (ns ++ s) (by simpa [Live] using hlive)
        obtain ⟨tail, rfl, hbelow⟩ := hl.extends_path
        rw [List.length_append] at hle
        exact ⟨tail, (List.prefix_append_right_inj ns).mp hpre, hbelow, hle⟩
      obtain ⟨s, hs⟩ := hc.exists_live
      obtain ⟨short, -, -, hpos⟩ := hshort hs
      obtain ⟨room, rfl⟩ : ∃ r, room = ns.length + r := ⟨room - ns.length, by omega⟩
      refine .extension ns (ih ?_)
      intro s hs
      obtain ⟨short, hpre, hl, hle⟩ := hshort hs
      exact ⟨short, hpre, hl, by omega⟩

theorem SparseOverBytes.within {n : MptNode} (hn : SparseOverBytes n) : Within 64 n := by
  rcases hn.canonical with rfl | hcan
  · exact .null 64
  · apply hcan.within
    intro ns hlive
    cases hget : n.getInternal ns with
    | error f =>
        obtain ⟨short, hpre, hle, hshort⟩ := hn.hidden ns f hget
        exact ⟨short, hpre, by rw [Live, hshort]; exact error_ne_ok, hle⟩
    | ok o =>
        cases o with
        | none => exact absurd hget hlive
        | some value =>
            obtain ⟨key, hlen, rfl⟩ := hn.stored ns value hget
            exact ⟨_, List.prefix_refl _, hlive, by rw [toNibs_length]; omega⟩

/-- `for_each_leaves` calls back exactly once with every key and value of the trie. -/
theorem forEachLeaves_exact {n : MptNode} (hn : SparseOverBytes n) : ∃ calls, n.forEachLeaves = .ok calls ∧
    calls.Nodup ∧ ∀ key value, (key, value) ∈ calls ↔ n.get key = .ok (some value) := by
  have hroom : HasRoom [(n, [])] := by
    intro x hx
    rw [List.mem_singleton] at hx
    subst hx
    exact ⟨64, hn.within, Nat.le_refl 64⟩
  have hfuel : pending [(n, [])] ≤ n.size := by
    rw [pending_cons]
    exact Nat.le_refl _
  obtain ⟨calls, hcalls⟩ := visitAll_room hroom hfuel
  refine ⟨calls, hcalls, visitAll_nodup hcalls (List.pairwise_singleton _ _) ?_, ?_⟩
  · intro x hx ns value hs
    rw [List.mem_singleton] at hx
    subst hx
    obtain ⟨key, -, rfl⟩ := hn.stored ns value hs.getInternal
    rw [List.nil_append, toNibs_length]
    omega
  · intro key value
    rw [mem_forEachLeaves hcalls]
    constructor
    · rintro ⟨ns, hs, rfl⟩
      obtain ⟨key, -, rfl⟩ := hn.stored ns value hs.getInternal
      rw [pack_toNibs]
      exact hs.getInternal
    · intro hget
      exact ⟨toNibs key, stores_of_getInternal hget, pack_toNibs key⟩

/-- A branch over a leaf and over a digest. -/
def leafAndDigest : MptNode := .branch (Function.update (Function.update noChildren 0
  (some (.leaf (toEncodedPath [1] true) [7]))) 1 (some (.digest EMPTY_ROOT)))

theorem forEachLeaves_exact_leafAndDigest : ∃ calls, leafAndDigest.forEachLeaves = .ok calls ∧
    calls.Nodup ∧ ∀ key value, (key, value) ∈ calls ↔ leafAndDigest.get key = .ok (some value) := by
  have hchild (i : Nibble) (c : MptNode) (h : Function.update (Function.update noChildren 0
      (some (.leaf (toEncodedPath [1] true) [7]))) 1 (some (.digest EMPTY_ROOT)) i = some c) :
      i = 0 ∧ c = .leaf (toEncodedPath [1] true) [7] ∨ i = 1 ∧ c = .digest EMPTY_ROOT := child_of_pair h
  refine forEachLeaves_exact ⟨.inr (.branch (i := 0) (j := 1) (by decide) rfl rfl ?_), ?_, ?_⟩
  · intro i c hc
    rcases hchild i c hc with ⟨-, rfl⟩ | ⟨-, rfl⟩
    · exact .leaf [1] [7]
    · exact .digest EMPTY_ROOT
  · intro ns value hget
    cases stores_of_getInternal hget with
    | branch hc hs =>
        rcases hchild _ _ hc with ⟨rfl, rfl⟩ | ⟨rfl, rfl⟩
        · cases hs with
          | leaf hp =>
              rw [prefixNibs_toEncodedPath] at hp
              cases hp
              exact ⟨[0x01], by decide, rfl⟩
        · cases hs
  · intro ns f hget
    cases ns with
    | nil => cases hget
    | cons i tail =>
        rw [leafAndDigest, getInternal_branch_cons] at hget
        generalize ho : Function.update (Function.update noChildren 0
          (some (.leaf (toEncodedPath [1] true) [7]))) 1 (some (.digest EMPTY_ROOT)) i = o at hget
        cases o with
        | none => cases hget
        | some c =>
            rcases hchild i c ho with ⟨rfl, rfl⟩ | ⟨rfl, rfl⟩
            · rw [getChild_some, getInternal_leaf] at hget
              cases hget
            · exact ⟨[1], by simp, by decide, hget⟩

end RethProcessor
