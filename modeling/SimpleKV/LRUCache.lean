/-
`LRUCache` of `structure/cache.cpp` as the sequence of its nodes: the chain
from `head->next` to `tail->prev`, most recently used first.  The map `m` finds
a node of the chain by its key.
-/
import SimpleKV.FileFormat
import Mathlib.Data.List.Infix

namespace SimpleKV

/-- A cache of key-offset tables by file id.  A capacity below 1 would make the
first `Set` detach the head sentinel. -/
structure LRUCache where
  capacity : Nat
  capacity_pos : 0 < capacity
  nodes : List (Int × KeyOffset)

namespace LRUCache

def empty (capacity : Nat) (capacity_pos : 0 < capacity) : LRUCache :=
  { capacity, capacity_pos, nodes := [] }

/-- `m.find(key)`. -/
def node? (cache : LRUCache) (id : Int) : Option (Int × KeyOffset) :=
  cache.nodes.find? fun node => node.1 == id

/-- `DetachNode` of the node with this id. -/
def detach (cache : LRUCache) (id : Int) : List (Int × KeyOffset) :=
  cache.nodes.eraseP fun node => node.1 == id

/-- `LRUCache::Get`: offset, `if_exists` and the cache afterwards.  A cached
table without the key is not moved to the front. -/
def get (cache : LRUCache) (id : Int) (key : Bytes) :
    (UInt32 × Bool) × LRUCache :=
  match cache.node? id with
  | none => ((0, false), cache)
  | some node =>
      match node.2.lookup key with
      | none => ((0, true), cache)
      | some offset =>
          ((offset, true), { cache with nodes := node :: cache.detach id })

/-- `LRUCache::Set`. -/
def set (cache : LRUCache) (id : Int) (table : KeyOffset) : LRUCache :=
  match cache.node? id with
  | none =>
      let nodes := if cache.nodes.length = cache.capacity then
        cache.nodes.dropLast else cache.nodes
      { cache with nodes := (id, table) :: nodes }
  | some _ => { cache with nodes := (id, table) :: cache.detach id }

/-- `LRUCache::Clear`. -/
def clear (cache : LRUCache) : LRUCache :=
  { cache with nodes := [] }

/-- `Get` only permutes nodes. -/
theorem mem_nodes_get {cache : LRUCache} {id : Int} {key : Bytes}
    {node : Int × KeyOffset} (hnode : node ∈ (cache.get id key).2.nodes) :
    node ∈ cache.nodes := by
  unfold get at hnode
  split at hnode
  · exact hnode
  · rename_i found hfound
    split at hnode
    · exact hnode
    · rcases List.mem_cons.mp hnode with rfl | hnode
      · exact List.mem_of_find?_eq_some hfound
      · exact List.mem_of_mem_eraseP hnode

/-- `Set` adds one node and may drop others. -/
theorem mem_nodes_set {cache : LRUCache} {id : Int} {table : KeyOffset}
    {node : Int × KeyOffset} (hnode : node ∈ (cache.set id table).nodes) :
    node = (id, table) ∨ node ∈ cache.nodes := by
  unfold set at hnode
  split at hnode
  · rcases List.mem_cons.mp hnode with rfl | hnode
    · exact Or.inl rfl
    · right
      split_ifs at hnode
      · exact List.mem_of_mem_dropLast hnode
      · exact hnode
  · rcases List.mem_cons.mp hnode with rfl | hnode
    · exact Or.inl rfl
    · exact Or.inr (List.mem_of_mem_eraseP hnode)

/-- The offset `Get` returns comes from a cached table of that file. -/
theorem get_of_exists {cache : LRUCache} {id : Int} {key : Bytes}
    (hexists : (cache.get id key).1.2 = true) :
    ∃ table, (id, table) ∈ cache.nodes ∧
      (cache.get id key).1.1 = (table.lookup key).getD 0 := by
  unfold get at hexists ⊢
  split at hexists
  · exact absurd hexists (by simp)
  · rename_i node hnode
    have hmem : (id, node.2) ∈ cache.nodes := by
      have hid : node.1 = id := by simpa using List.find?_some hnode
      rw [← hid]
      exact List.mem_of_find?_eq_some hnode
    refine ⟨node.2, hmem, ?_⟩
    cases node.2.lookup key <;> rfl

end LRUCache

end SimpleKV
