import ScreeDB.Layout

/-!
# The volatile index (`screedb.cc`: `LeafSearch`, `LeafUpdateParentsAfterSplit`)

`leafSearch` descends from `top_` to a leaf node, in each inner node taking the first child
whose key is `≥ key` (`strcmp <= 0`), else the last.

`leafUpdateParentsAfterSplit` hands a split key and a new node up through the `parent` pointers:
with no parent it makes a new top node; else it inserts the key where the key scan says, and the
new node just right of it, into the parent, and when the parent then holds five keys it splits it
into two, moves the upper three children with their `parent` pointers to the new inner node, and
hands the middle key up. A pointer to a node of the tree is its id; the node it reaches is found
in `top_` (`findNode`) and replaced there when the code writes to it (`replaceNode`). The code
walks up until it returns; the model takes a number of steps, `height top_ + 1`, that the walk
never exceeds in a well-formed tree.
-/

namespace ScreeDB

namespace ScreeDBNode

mutual

/-- The node with id `i`, if the tree has one. -/
def findNode (i : Nat) : ScreeDBNode → Option ScreeDBNode
  | .leaf id => if id = i then some (.leaf id) else none
  | .inner id keys children => if id = i then some (.inner id keys children) else findIn i children

def findIn (i : Nat) : List ScreeDBNode → Option ScreeDBNode
  | [] => none
  | c :: cs => (findNode i c).or (findIn i cs)

end

mutual

/-- The tree with the node of id `i` replaced by `r`. -/
def replaceNode (i : Nat) (r : ScreeDBNode) : ScreeDBNode → ScreeDBNode
  | .leaf id => if id = i then r else .leaf id
  | .inner id keys children => if id = i then r else .inner id keys (replaceIn i r children)

def replaceIn (i : Nat) (r : ScreeDBNode) : List ScreeDBNode → List ScreeDBNode
  | [] => []
  | c :: cs => replaceNode i r c :: replaceIn i r cs

end

mutual

/-- The number of inner levels above the leaves. -/
def height : ScreeDBNode → Nat
  | .leaf _ => 0
  | .inner _ _ children => heightIn children + 1

def heightIn : List ScreeDBNode → Nat
  | [] => 0
  | c :: cs => max (height c) (heightIn cs)

end

end ScreeDBNode

/-! ## `LeafSearch` -/

mutual

/-- The `while (!node->is_leaf)` loop of `LeafSearch` from `node`. -/
def leafSearchFrom (key : CStr) : ScreeDBNode → Option Nat
  | .leaf n => some n
  | .inner _ keys children => leafSearchIn key keys children

/-- The `for` loop over an inner node: `children[idx]` for the first `idx` with
`strcmp(key, keys[idx]) <= 0`, else `children[keycount]`. A child that is missing is not
reachable in a well-formed tree; the model gives no leaf there. -/
def leafSearchIn (key : CStr) : List CStr → List ScreeDBNode → Option Nat
  | k :: ks, c :: cs =>
    if strcmp key.bytes k.bytes ≤ 0 then leafSearchFrom key c else leafSearchIn key ks cs
  | [], c :: _ => leafSearchFrom key c
  | _, [] => none

end

/-- `LeafSearch(key)`: no leaf when `top_` is null. -/
def leafSearch (v : Volatile) (key : Slice) : Option Nat := v.top_.bind (leafSearchFrom key.cstr)

/-! ## `LeafUpdateParentsAfterSplit` -/

/-- `while (idx < keycount && inner->keys[idx].compare(*split_key) <= 0) idx++`. On strings
without `0x00`, `std::string::compare` orders as `strcmp` does. -/
def insertPos (split_key : CStr) : List CStr → Nat
  | [] => 0
  | k :: ks => if strcmp k.bytes split_key.bytes ≤ 0 then insertPos split_key ks + 1 else 0

/-- `LeafUpdateParentsAfterSplit(node, new_node, &split_key)`, for at most `fuel` levels. -/
def leafUpdateParentsAfterSplit :
    Nat → Volatile → Nat → ScreeDBNode → CStr → Volatile
  | 0, v, _, _, _ => v
  | fuel + 1, v, node, new_node, split_key =>
    match v.parent node with
    | none =>
      -- a new top node over `node` and `new_node`
      let (top, v₁) := v.newInnerNode none
      let below := (v.top_.bind (·.findNode node)).getD (.leaf node)
      let v₂ := (v₁.setParent node (some top)).setParent new_node.id (some top)
      v₂.setTop (some (.inner top [split_key] [below, new_node]))
    | some p =>
      match v.top_.bind (·.findNode p) with
      | some (.inner _ keys children) =>
        let idx := insertPos split_key keys
        let keys' := keys.insertIdx idx split_key
        let children' := children.insertIdx (idx + 1) new_node
        if keys'.length ≤ INNER_KEYS then
          v.setTop (v.top_.map (ScreeDBNode.replaceNode p (.inner p keys' children')))
        else
          -- split at the midpoint: the upper keys and children move to a new inner node
          let (new_inner, v₁) := v.newInnerNode (v.parent p)
          let moved := children'.drop INNER_KEYS_UPPER
          let v₂ := moved.foldl (fun w c => w.setParent c.id (some new_inner)) v₁
          let v₃ := v₂.setTop (v₂.top_.map (ScreeDBNode.replaceNode p
            (.inner p (keys'.take INNER_KEYS_MIDPOINT) (children'.take INNER_KEYS_UPPER))))
          leafUpdateParentsAfterSplit fuel v₃ p
            (.inner new_inner (keys'.drop INNER_KEYS_UPPER) moved)
            (keys'.getD INNER_KEYS_MIDPOINT default)
      | _ => v

/-- The number of levels the walk may take: one per inner level, and one more for a new top. -/
def Volatile.walkFuel (v : Volatile) : Nat := (v.top_.map (·.height)).getD 0 + 1

end ScreeDB
