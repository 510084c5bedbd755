import RethProcessor.TrieNode

/-! Lookup, insertion and deletion. An operation on `&mut self` returns its result and
the node it leaves; after a panic nothing looks at that node. -/
namespace RethProcessor
open Paths

/-- The result of a `&mut self` operation together with the node left behind. -/
abbrev Mutation := Except Failure Bool × MptNode

def notResolved (d : B256) : Failure := .err (.nodeNotResolved d)
def valueInBranch : Failure := .err .valueInBranch

mutual
def MptNode.getInternal : MptNode → List Nibble → Except Failure (Option Bytes)
  | .null, _ => .ok none
  | .branch _, [] => .ok none
  | .branch children, i :: tail => getChild (children i) tail
  | .leaf path value, key =>
      match prefixNibs path with
      | .error f => .error f
      | .ok nibs => .ok (if nibs = key then some value else none)
  | .extension path child, key =>
      match prefixNibs path with
      | .error f => .error f
      | .ok nibs =>
          match nibs.isPrefixOf? key with
          | some tail => child.getInternal tail
          | none => .ok none
  | .digest d, _ => .error (notResolved d)
termination_by structural n => n

def getChild : Option MptNode → List Nibble → Except Failure (Option Bytes)
  | none, _ => .ok none
  | some node, tail => node.getInternal tail
termination_by structural n => n
end

def MptNode.get (n : MptNode) (key : Bytes) : Except Failure (Option Bytes) :=
  n.getInternal (toNibs key)

/-- `get_rlp`, for the decoder of the value's type. -/
def MptNode.getRlp {α : Type} (decode : Bytes → Option α) (n : MptNode) (key : Bytes) :
    Except Failure (Option α) :=
  match n.get key with
  | .error f => .error f
  | .ok none => .ok none
  | .ok (some bytes) =>
      match decode bytes with
      | some a => .ok (some a)
      | none => .error (.err .rlp)

/-- The branch over two nodes at different nibbles, under the common path if there is one. -/
def splitBranch (common : List Nibble) (a : Nibble) (left : MptNode) (b : Nibble)
    (right : MptNode) : MptNode :=
  let branch := .branch (Function.update (Function.update noChildren a (some left)) b (some right))
  if common.length > 0 then .extension (toEncodedPath common false) branch else branch

def insertIntoLeaf (path oldValue : Bytes) (selfNibs key : List Nibble) (value : Bytes) : Mutation :=
  let commonLen := lcp selfNibs key
  if commonLen = selfNibs.length ∧ commonLen = key.length then
    if oldValue = value then (.ok false, .leaf path oldValue) else (.ok true, .leaf path value)
  else if commonLen = selfNibs.length ∨ commonLen = key.length then
    (.error valueInBranch, .leaf path oldValue)
  else
    match selfNibs.drop commonLen, key.drop commonLen with
    | a :: selfRest, b :: keyRest =>
        (.ok true, splitBranch (selfNibs.take commonLen) a (.leaf (toEncodedPath selfRest true) oldValue)
          b (.leaf (toEncodedPath keyRest true) value))
    | _, _ => (.error .panic, .leaf path oldValue)

def splitExtension (path : Bytes) (child : MptNode) (selfNibs key : List Nibble) (value : Bytes) :
    Mutation :=
  let commonLen := lcp selfNibs key
  match selfNibs.drop commonLen, key.drop commonLen with
  | a :: selfRest, b :: keyRest =>
      let rest := if selfRest.length > 0 then .extension (toEncodedPath selfRest false) child else child
      (.ok true, splitBranch (selfNibs.take commonLen) a rest b (.leaf (toEncodedPath keyRest true) value))
  | _, _ => (.error .panic, .extension path child)

mutual
def MptNode.insertInternal : MptNode → List Nibble → Bytes → Mutation
  | .null, key, value => (.ok true, .leaf (toEncodedPath key true) value)
  | .branch children, [], _ => (.error valueInBranch, .branch children)
  | .branch children, i :: tail, value =>
      let (res, child) := insertChild (children i) tail value
      (res, .branch (Function.update children i child))
  | .leaf path oldValue, key, value =>
      match prefixNibs path with
      | .error f => (.error f, .leaf path oldValue)
      | .ok selfNibs => insertIntoLeaf path oldValue selfNibs key value
  | .extension path child, key, value =>
      match prefixNibs path with
      | .error f => (.error f, .extension path child)
      | .ok selfNibs =>
          if lcp selfNibs key = selfNibs.length then
            let (res, child) := child.insertInternal (key.drop (lcp selfNibs key)) value
            (res, .extension path child)
          else if lcp selfNibs key = key.length then (.error valueInBranch, .extension path child)
          else splitExtension path child selfNibs key value
  | .digest d, _, _ => (.error (notResolved d), .digest d)
termination_by structural n => n

def insertChild : Option MptNode → List Nibble → Bytes → Except Failure Bool × Option MptNode
  | none, tail, value => (.ok true, some (.leaf (toEncodedPath tail true) value))
  | some node, tail, value =>
      let (res, node) := node.insertInternal tail value
      (res, some node)
termination_by structural n => n
end

/-- `insert` refuses an empty value by a panic. -/
def MptNode.insert (n : MptNode) (key value : Bytes) : Mutation :=
  if value = [] then (.error .panic, n) else n.insertInternal (toNibs key) value

/-- `insert_rlp` on a value already encoded. -/
def MptNode.insertRlp (n : MptNode) (key encoded : Bytes) : Mutation :=
  n.insertInternal (toNibs key) encoded

/-- The children still there, with their indices. -/
def remaining (children : Nibble → Option MptNode) : List (Nibble × MptNode) :=
  (List.finRange 16).filterMap fun i => (children i).map (i, ·)

/-- What becomes of a branch after one of its children changed. -/
def collapse (children : Nibble → Option MptNode) : Mutation :=
  match remaining children with
  | [] => (.error .panic, .branch children)
  | [(index, orphan)] =>
      match orphan with
      | .leaf path value =>
          match prefixNibs path with
          | .error f => (.error f, .branch children)
          | .ok nibs => (.ok true, .leaf (toEncodedPath (index :: nibs) true) value)
      | .extension path child =>
          match prefixNibs path with
          | .error f => (.error f, .branch children)
          | .ok nibs => (.ok true, .extension (toEncodedPath (index :: nibs) false) child)
      | .branch below => (.ok true, .extension (toEncodedPath [index] false) (.branch below))
      | .digest d => (.ok true, .extension (toEncodedPath [index] false) (.digest d))
      | .null => (.error .panic, .branch children)
  | _ :: _ :: _ => (.ok true, .branch children)

/-- What becomes of an extension after its child changed. -/
def mergeExtension (path : Bytes) (selfNibs : List Nibble) (child : MptNode) : Mutation :=
  match child with
  | .null => (.ok true, .null)
  | .leaf childPath value =>
      match prefixNibs childPath with
      | .error f => (.error f, .extension path child)
      | .ok nibs => (.ok true, .leaf (toEncodedPath (selfNibs ++ nibs) true) value)
  | .extension childPath node =>
      match prefixNibs childPath with
      | .error f => (.error f, .extension path child)
      | .ok nibs => (.ok true, .extension (toEncodedPath (selfNibs ++ nibs) false) node)
  | .branch below => (.ok true, .extension path (.branch below))
  | .digest d => (.ok true, .extension path (.digest d))

/-- The code behind `if !node.delete_internal(tail)? { return Ok(false) }`. -/
def onChange {α : Type} (r : Except Failure Bool × α) (unchanged : α → MptNode)
    (changed : α → Mutation) : Mutation :=
  match r.1 with
  | .ok true => changed r.2
  | res => (res, unchanged r.2)

@[simp] theorem onChange_true {α : Type} (a : α) (unchanged : α → MptNode) (changed : α → Mutation) :
    onChange (.ok true, a) unchanged changed = changed a := rfl

@[simp] theorem onChange_false {α : Type} (a : α) (unchanged : α → MptNode) (changed : α → Mutation) :
    onChange (.ok false, a) unchanged changed = (.ok false, unchanged a) := rfl

@[simp] theorem onChange_error {α : Type} (f : Failure) (a : α) (unchanged : α → MptNode)
    (changed : α → Mutation) : onChange (.error f, a) unchanged changed = (.error f, unchanged a) := rfl

mutual
def MptNode.deleteInternal : MptNode → List Nibble → Mutation
  | .null, _ => (.ok false, .null)
  | .branch children, [] => (.error valueInBranch, .branch children)
  | .branch children, i :: tail =>
      onChange (deleteChild (children i) tail)
        (fun child => .branch (Function.update children i child))
        (fun child => collapse (Function.update children i child))
  | .leaf path value, key =>
      match prefixNibs path with
      | .error f => (.error f, .leaf path value)
      | .ok nibs => if nibs = key then (.ok true, .null) else (.ok false, .leaf path value)
  | .extension path child, key =>
      match prefixNibs path with
      | .error f => (.error f, .extension path child)
      | .ok selfNibs =>
          match selfNibs.isPrefixOf? key with
          | none => (.ok false, .extension path child)
          | some tail =>
              onChange (child.deleteInternal tail) (.extension path) (mergeExtension path selfNibs)
  | .digest d, _ => (.error (notResolved d), .digest d)
termination_by structural n => n

def deleteChild : Option MptNode → List Nibble → Except Failure Bool × Option MptNode
  | none, _ => (.ok false, none)
  | some node, tail =>
      let (res, node) := node.deleteInternal tail
      (res, if res = .ok true ∧ node.isEmpty then none else some node)
termination_by structural n => n
end

def MptNode.delete (n : MptNode) (key : Bytes) : Mutation := n.deleteInternal (toNibs key)

/-- `clear` empties any trie. -/
def MptNode.clear (_ : MptNode) : MptNode := .null

end RethProcessor
