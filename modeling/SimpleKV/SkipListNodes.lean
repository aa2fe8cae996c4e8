/-
`SkipList` of `structure/skip_list.h` as it lies in memory: nodes with one
`next_` pointer for each of their levels, the head of full height and
`max_height_`.  Searches descend from the highest level; `Insert` overwrites in
place or splices a node of a random height in.
-/
import SimpleKV.SkipList
import SimpleKV.Lib.LinkedList

namespace SimpleKV

/-- `kMaxHeight`. -/
def kMaxHeight : Nat := 12

/-- A `Node`; its height is the length of `next`. -/
structure SkipNode (Key : Type) where
  key : Key
  next : List (Option Nat)

/-- The fields of `SkipList`, the memory behind its pointers and the first
address not allocated yet.  `head_` is at address 0. -/
structure SkipListNodes (Key : Type) where
  heap : Nat → Option (SkipNode Key)
  maxHeight : Nat
  fresh : Nat

namespace SkipListNodes

variable {Key : Type}

def head : Nat := 0

/-- `SkipList::SkipList`; the head's key is never compared. -/
def new (headKey : Key) : SkipListNodes Key where
  heap := Function.update (fun _ => none) head
    (some ⟨headKey, List.replicate kMaxHeight none⟩)
  maxHeight := 1
  fresh := 1

variable (list : SkipListNodes Key)

/-- `x->key`.  `none` is an access to memory that is not a node. -/
def key (x : Nat) : Option Key :=
  (list.heap x).map SkipNode.key

/-- `x->Next(level)`; also undefined above the node's height. -/
def next (x level : Nat) : Option (Option Nat) := do
  let node ← list.heap x
  node.next[level]?

/-- `x->SetNext(level, target)`. -/
def setNext (x level : Nat) (target : Option Nat) :
    Option (SkipListNodes Key) := do
  let node ← list.heap x
  if level < node.next.length then
    some
      { list with
        heap := Function.update list.heap x
          (some { node with next := node.next.set level target }) }
  else none

/-- `x->key = key`. -/
def setKey (x : Nat) (key : Key) : Option (SkipListNodes Key) := do
  let node ← list.heap x
  some { list with heap := Function.update list.heap x (some { node with key }) }

/-- `NewNode(key, height)`; the node is at the old `fresh`. -/
def newNode (key : Key) (height : Nat) : SkipListNodes Key :=
  { list with
    heap := Function.update list.heap list.fresh
      (some ⟨key, List.replicate height none⟩)
    fresh := list.fresh + 1 }

variable (compare : Key → Key → Ordering)

/-- `KeyIsAfterNode`. -/
def keyIsAfterNode (key : Key) : Option Nat → Option Bool
  | none => some false
  | some n => (list.key n).map fun other => compare other key == .lt

/-- The array `prev`; an entry is `none` until it is written. -/
abbrev Prev := List (Option Nat)

/-- The loop of `FindGreaterOrEqual`; a null `prev` is `none`. -/
def findGreaterOrEqualLoop (key : Key) : Nat → Nat → Nat → Option Prev →
    Option (Option Nat × Option Prev)
  | 0, _, _, _ => none
  | fuel + 1, x, level, prev => do
      let next ← list.next x level
      if ← list.keyIsAfterNode compare key next then
        match next with
        | some n => findGreaterOrEqualLoop key fuel n level prev
        | none => none
      else
        let prev := prev.map fun prev => prev.set level (some x)
        if level = 0 then some (next, prev)
        else findGreaterOrEqualLoop key fuel x (level - 1) prev

/-- More rounds than a search can take: it goes down `max_height_` levels and
passes each node at most once. -/
def rounds : Nat := list.fresh + list.maxHeight

/-- `FindGreaterOrEqual`. -/
def findGreaterOrEqual (key : Key) (prev : Option Prev) :
    Option (Option Nat × Option Prev) :=
  list.findGreaterOrEqualLoop compare key list.rounds head
    (list.maxHeight - 1) prev

/-- The assertion of `FindLessThan`. -/
def isBefore (key : Key) (x : Nat) : Option Bool :=
  if x = head then some true
  else (list.key x).map fun other => compare other key == .lt

/-- The loop of `FindLessThan`. -/
def findLessThanLoop (key : Key) : Nat → Nat → Nat → Option Nat
  | 0, _, _ => none
  | fuel + 1, x, level => do
      if ← list.isBefore compare key x then
        let next ← list.next x level
        match next with
        | none =>
            if level = 0 then some x else findLessThanLoop key fuel x (level - 1)
        | some n => do
            let other ← list.key n
            if compare other key ≠ .lt then
              if level = 0 then some x
              else findLessThanLoop key fuel x (level - 1)
            else findLessThanLoop key fuel n level
      else none

/-- `FindLessThan`. -/
def findLessThan (key : Key) : Option Nat :=
  list.findLessThanLoop compare key list.rounds head (list.maxHeight - 1)

/-- The loop of `FindLast`. -/
def findLastLoop : Nat → Nat → Nat → Option Nat
  | 0, _, _ => none
  | fuel + 1, x, level => do
      let next ← list.next x level
      match next with
      | none => if level = 0 then some x else findLastLoop fuel x (level - 1)
      | some n => findLastLoop fuel n level

/-- `FindLast`. -/
def findLast : Option Nat :=
  list.findLastLoop list.rounds head (list.maxHeight - 1)

/-- The loop of `Insert` over the levels above the old `max_height_`. -/
def raiseLoop : Nat → Nat → Prev → Prev
  | 0, _, prev => prev
  | count + 1, i, prev => raiseLoop count (i + 1) (prev.set i (some head))

/-- The splicing loop of `Insert` from level `i` on. -/
def spliceLoop (prev : Prev) (x : Nat) : Nat → Nat → SkipListNodes Key →
    Option (SkipListNodes Key)
  | 0, _, list => some list
  | count + 1, i, list => do
      let before ← prev[i]?
      let before ← before
      let after ← list.next before i
      let list ← list.setNext x i after
      let list ← list.setNext before i (some x)
      spliceLoop prev x count (i + 1) list

/-- The part of `Insert` that makes a new node. -/
def splice (key : Key) (prev : Prev) (height : Nat) :
    Option (SkipListNodes Key) :=
  let prev := raiseLoop (height - list.maxHeight) list.maxHeight prev
  let maxHeight := if list.maxHeight < height then height else list.maxHeight
  spliceLoop prev list.fresh height 0
    ({ list with maxHeight }.newNode key height)

/-- `Insert`, for the height that `RandomHeight` returns. -/
def insert (key : Key) (height : Nat) : Option (SkipListNodes Key) := do
  let (x, prev) ← list.findGreaterOrEqual compare key
    (some (List.replicate kMaxHeight none))
  let prev ← prev
  match x with
  | none => list.splice key prev height
  | some x => do
      let other ← list.key x
      if compare other key = .eq then list.setKey x key
      else list.splice key prev height

/-- `Contains`. -/
def contains (key : Key) : Option Bool := do
  let (x, _) ← list.findGreaterOrEqual compare key none
  match x with
  | none => some false
  | some x => (list.key x).map fun other => compare key other == .eq

/-- `Iterator::Next`.  The iterator's `node_` is an optional address; the outer
option is undefined behaviour or a failed assertion. -/
def iterNext : Option Nat → Option (Option Nat)
  | none => none
  | some x => list.next x 0

/-- A search that ended at the head found no node. -/
def notHead (x : Nat) : Option Nat :=
  if x = head then none else some x

/-- `Iterator::Prev`. -/
def iterPrev : Option Nat → Option (Option Nat)
  | none => none
  | some x => do
      let key ← list.key x
      (list.findLessThan compare key).map notHead

/-- `Iterator::Seek`. -/
def iterSeek (target : Key) : Option (Option Nat) := do
  let (x, _) ← list.findGreaterOrEqual compare target none
  match x with
  | none => some none
  | some x => do
      let other ← list.key x
      some (if compare other target = .eq then some x else none)

/-- `Iterator::SeekToFirst`. -/
def iterSeekToFirst : Option (Option Nat) :=
  list.next head 0

/-- `Iterator::SeekToLast`. -/
def iterSeekToLast : Option (Option Nat) :=
  list.findLast.map notHead

/-- The keys of a loop that moves the iterator until it is not valid. -/
def enumerate (move : Option Nat → Option (Option Nat)) :
    Nat → Option Nat → Option (List Key)
  | _, none => some []
  | 0, some _ => none
  | fuel + 1, some x => do
      let key ← list.key x
      let node ← move (some x)
      let keys ← enumerate move fuel node
      some (key :: keys)

end SkipListNodes

end SimpleKV
