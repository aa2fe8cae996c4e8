/-
`LRUCache` of `structure/cache.cpp` as it lies in memory: nodes with `prev` and
`next` pointers between two sentinels, the map from file ids to nodes and the
counter.  Every operation is the source's sequence of loads and stores; it
refines the sequence model of `LRUCache`.
-/
import SimpleKV.LRUCache
import SimpleKV.Lib.LinkedList

namespace SimpleKV

open LinkedList

/-- The address of an `LRUCacheNode`. -/
abbrev Addr := Nat

/-- `LRUCacheNode`; `none` is the null pointer. -/
structure CacheNode where
  key : Int
  value : KeyOffset
  prev : Option Addr
  next : Option Addr

/-- `new LRUCacheNode`. -/
def CacheNode.new : CacheNode where
  key := 0
  value := ∅
  prev := none
  next := none

/-- The nodes in memory.  An address without a node is one not allocated yet or
deleted; using it is undefined. -/
abbrev NodeHeap := Addr → Option CacheNode

namespace NodeHeap

/-- A store through a pointer. -/
def modify (heap : NodeHeap) (p : Addr) (f : CacheNode → CacheNode) :
    Option NodeHeap :=
  (heap p).map fun node => Function.update heap p (some (f node))

/-- `delete p`. -/
def delete (heap : NodeHeap) (p : Addr) : Option NodeHeap :=
  (heap p).map fun _ => Function.update heap p none

/-- `LRUCache::DetachNode`. -/
def detachNode (heap : NodeHeap) (node : Addr) : Option NodeHeap := do
  let n ← heap node
  let prev ← n.prev
  let heap ← heap.modify prev fun other => { other with next := n.next }
  let n ← heap node
  let next ← n.next
  heap.modify next fun other => { other with prev := n.prev }

/-- `LRUCache::InsertToFront`. -/
def insertToFront (heap : NodeHeap) (head node : Addr) : Option NodeHeap := do
  let h ← heap head
  let heap ← heap.modify node fun n => { n with next := h.next }
  let heap ← heap.modify node fun n => { n with prev := some head }
  let heap ← heap.modify head fun h => { h with next := some node }
  let n ← heap node
  let next ← n.next
  heap.modify next fun other => { other with prev := some node }

end NodeHeap

/-- The fields of `LRUCache`, the memory its pointers lead to and the first
address `new` has not handed out. -/
structure LinkedCache where
  m : AList fun _ : Int => Addr
  head : Addr
  tail : Addr
  capacity : Nat
  count : Nat
  heap : NodeHeap
  fresh : Addr

namespace LinkedCache

/-- `LRUCache::LRUCache`. -/
def new (capacity : Nat) : LinkedCache where
  m := ∅
  head := 0
  tail := 1
  capacity
  count := 0
  heap := Function.update
    (Function.update (fun _ => none) 0
      (some { CacheNode.new with prev := none, next := some 1 }))
    1 (some { CacheNode.new with prev := some 0, next := none })
  fresh := 2

/-- `LRUCache::Clear`. -/
def clear (cache : LinkedCache) : Option LinkedCache := do
  let heap ← cache.m.entries.foldlM (fun heap item => heap.delete item.2)
    cache.heap
  let heap ← heap.modify cache.head fun n => { n with next := some cache.tail }
  let heap ← heap.modify cache.tail fun n => { n with prev := some cache.head }
  some { cache with m := ∅, count := 0, heap }

/-- `LRUCache::Get`. -/
def get (cache : LinkedCache) (key : Int) (keyStr : Bytes) :
    Option ((UInt32 × Bool) × LinkedCache) :=
  match cache.m.lookup key with
  | none => some ((0, false), cache)
  | some p => do
      let node ← cache.heap p
      match node.value.lookup keyStr with
      | none => some ((0, true), cache)
      | some offset => do
          let heap ← cache.heap.detachNode p
          let heap ← heap.insertToFront cache.head p
          some ((offset, true), { cache with heap })

/-- `LRUCache::RemoveLRUNode`. -/
def removeLRUNode (cache : LinkedCache) : Option LinkedCache := do
  let tail ← cache.heap cache.tail
  let p ← tail.prev
  let heap ← cache.heap.detachNode p
  let node ← heap p
  let heap ← heap.delete p
  some { cache with m := cache.m.erase node.key, heap, count := cache.count - 1 }

/-- `new LRUCacheNode`; the node is at the old `fresh`. -/
def allocate (cache : LinkedCache) : LinkedCache :=
  { cache with
    heap := Function.update cache.heap cache.fresh (some .new)
    fresh := cache.fresh + 1 }

/-- The capacity test of `LRUCache::Set`. -/
def makeRoom (cache : LinkedCache) : Option LinkedCache :=
  if cache.count = cache.capacity then cache.removeLRUNode else some cache

/-- A new node of `LRUCache::Set` is filled in and entered. -/
def enter (cache : LinkedCache) (p : Addr) (key : Int) (value : KeyOffset) :
    Option LinkedCache := do
  let heap ← cache.heap.modify p fun n => { n with key, value }
  let heap ← heap.insertToFront cache.head p
  some
    { cache with
      m := cache.m.insert key p
      heap
      count := cache.count + 1 }

/-- `LRUCache::Set`. -/
def set (cache : LinkedCache) (key : Int) (value : KeyOffset) :
    Option LinkedCache :=
  match cache.m.lookup key with
  | none => do
      let p := cache.fresh
      let cache ← cache.allocate.makeRoom
      cache.enter p key value
  | some p => do
      let heap ← cache.heap.detachNode p
      let heap ← heap.modify p fun n => { n with value }
      let heap ← heap.insertToFront cache.head p
      some { cache with heap }

end LinkedCache

namespace NodeHeap

def links (heap : NodeHeap) : Links Addr where
  next p := (heap p).bind CacheNode.next
  prev p := (heap p).bind CacheNode.prev

/-- What a node holds besides its links. -/
def content (heap : NodeHeap) (p : Addr) : Option (Int × KeyOffset) :=
  (heap p).map fun node => (node.key, node.value)

variable {heap : NodeHeap}

theorem exists_node {p : Addr} {item : Int × KeyOffset}
    (hitem : heap.content p = some item) :
    ∃ node, heap p = some node ∧ (node.key, node.value) = item := by
  simpa [content] using hitem

theorem links_update (heap : NodeHeap) (p : Addr) (node : Option CacheNode) :
    links (Function.update heap p node) =
      (heap.links.setNext p (node.bind CacheNode.next)).setPrev p
        (node.bind CacheNode.prev) := by
  ext q : 2 <;> by_cases hq : q = p <;> simp [links, Links.setNext,
    Links.setPrev, Function.update_apply, hq]

theorem content_update (heap : NodeHeap) (p : Addr)
    (node : Option CacheNode) :
    content (Function.update heap p node) = Function.update heap.content p
      (node.map fun node => (node.key, node.value)) := by
  funext q
  by_cases hq : q = p <;> simp [content, hq]

theorem exists_setNext {p : Addr} {item : Int × KeyOffset}
    (hitem : heap.content p = some item) (target : Option Addr) :
    ∃ heap' : NodeHeap,
      heap.modify p (fun node => { node with next := target }) = some heap' ∧
      heap'.links = heap.links.setNext p target ∧
      heap'.content = heap.content := by
  obtain ⟨node, hnode, rfl⟩ := exists_node hitem
  refine ⟨_, by rw [modify, hnode]; rfl, ?_, ?_⟩
  · have hprev : heap.links.prev p = node.prev := by simp [links, hnode]
    rw [links_update]
    simp [Links.setPrev, Links.setNext, ← hprev]
  · rw [content_update, Option.map_some, ← hitem]
    exact Function.update_eq_self p heap.content

theorem exists_setPrev {p : Addr} {item : Int × KeyOffset}
    (hitem : heap.content p = some item) (target : Option Addr) :
    ∃ heap' : NodeHeap,
      heap.modify p (fun node => { node with prev := target }) = some heap' ∧
      heap'.links = heap.links.setPrev p target ∧
      heap'.content = heap.content := by
  obtain ⟨node, hnode, rfl⟩ := exists_node hitem
  refine ⟨_, by rw [modify, hnode]; rfl, ?_, ?_⟩
  · have hnext : heap.links.next p = node.next := by simp [links, hnode]
    rw [links_update]
    simp [Links.setPrev, Links.setNext, ← hnext]
  · rw [content_update, Option.map_some, ← hitem]
    exact Function.update_eq_self p heap.content

/-- `DetachNode` of a node between two others. -/
theorem exists_detachNode {before p after : Addr}
    (hbefore : heap.content before ≠ none) (hp : heap.content p ≠ none)
    (hafter : heap.content after ≠ none) (hne : p ≠ before)
    (hprev : heap.links.prev p = some before)
    (hnext : heap.links.next p = some after) :
    ∃ heap', heap.detachNode p = some heap' ∧
      heap'.links = heap.links.unlink before after ∧
      heap'.content = heap.content := by
  obtain ⟨item, hitem⟩ := Option.ne_none_iff_exists'.mp hp
  obtain ⟨node, hnode, _⟩ := exists_node hitem
  obtain ⟨item, hitem⟩ := Option.ne_none_iff_exists'.mp hbefore
  have hnodePrev : node.prev = some before := by
    simpa [links, hnode] using hprev
  have hnodeNext : node.next = some after := by
    simpa [links, hnode] using hnext
  obtain ⟨mid, hmid, hmidLinks, hmidContent⟩ :=
    exists_setNext hitem (some after)
  have hsame : mid p = heap p := by
    simp only [modify, Option.map_eq_some_iff] at hmid
    obtain ⟨_, _, rfl⟩ := hmid
    exact Function.update_of_ne hne _ _
  obtain ⟨item, hitem⟩ := Option.ne_none_iff_exists'.mp hafter
  rw [← hmidContent] at hitem
  obtain ⟨heap', hheap', hlinks, hcontent⟩ :=
    exists_setPrev hitem (some before)
  refine ⟨heap', ?_, ?_, hcontent.trans hmidContent⟩
  · simp [detachNode, hnode, hnodePrev, hnodeNext, hmid, hsame, hheap']
  · rw [hlinks, hmidLinks, Links.unlink]

/-- `InsertToFront` of a node that is not in the list. -/
theorem exists_insertToFront {head p after : Addr}
    (hhead : heap.content head ≠ none) (hp : heap.content p ≠ none)
    (hafter : heap.content after ≠ none) (hne : p ≠ head)
    (hnext : heap.links.next head = some after) :
    ∃ heap', heap.insertToFront head p = some heap' ∧
      heap'.links = heap.links.link head p after ∧
      heap'.content = heap.content := by
  obtain ⟨headItem, hheadItem⟩ := Option.ne_none_iff_exists'.mp hhead
  obtain ⟨headNode, hheadNode, _⟩ := exists_node hheadItem
  obtain ⟨item, hitem⟩ := Option.ne_none_iff_exists'.mp hp
  obtain ⟨afterItem, hafterItem⟩ := Option.ne_none_iff_exists'.mp hafter
  have hheadNext : headNode.next = some after := by
    simpa [links, hheadNode] using hnext
  obtain ⟨heap1, h1, hlinks1, hcontent1⟩ := exists_setNext hitem (some after)
  rw [← hcontent1] at hitem hheadItem hafterItem
  obtain ⟨heap2, h2, hlinks2, hcontent2⟩ := exists_setPrev hitem (some head)
  rw [← hcontent2] at hitem hheadItem hafterItem
  obtain ⟨heap3, h3, hlinks3, hcontent3⟩ :=
    exists_setNext hheadItem (some p)
  rw [← hcontent3] at hitem hafterItem
  obtain ⟨heap4, h4, hlinks4, hcontent4⟩ :=
    exists_setPrev hafterItem (some p)
  obtain ⟨node, hnode, _⟩ := exists_node hitem
  have hnodeNext : node.next = some after := by
    have hlink : heap3.links.next p = some after := by
      rw [hlinks3, hlinks2, hlinks1]
      simp [hne]
    simpa [links, hnode] using hlink
  refine ⟨heap4, ?_, ?_, ?_⟩
  · simp [insertToFront, hheadNode, hheadNext, h1, h2, h3, hnode, hnodeNext,
      h4]
  · rw [hlinks4, hlinks3, hlinks2, hlinks1, Links.link]
  · rw [hcontent4, hcontent3, hcontent2, hcontent1]

end NodeHeap

/-- The sentinels and the cells between them. -/
structure Ring (heap : NodeHeap) (head tail : Addr) (cells : List Addr) :
    Prop where
  linked : Linked heap.links (head :: (cells ++ [tail]))
  head_prev : heap.links.prev head = none
  tail_next : heap.links.next tail = none
  allocated : ∀ p ∈ head :: (cells ++ [tail]), heap.content p ≠ none

namespace Ring

variable {heap : NodeHeap} {head tail : Addr} {cells : List Addr}

/-- Only the cells of a ring matter to it. -/
theorem frame (h : Ring heap head tail cells) {heap' : NodeHeap}
    (hsame : ∀ q ∈ head :: (cells ++ [tail]), heap' q = heap q) :
    Ring heap' head tail cells where
  linked := by
    refine ⟨h.linked.nodup, isChain_congr h.linked.joined ?_ ?_⟩
    · intro q hq
      simp only [NodeHeap.links, hsame q (List.dropLast_subset _ hq)]
    · intro q hq
      simp only [NodeHeap.links, hsame q (List.mem_of_mem_tail hq)]
  head_prev := by
    have hprev := h.head_prev
    simpa only [NodeHeap.links, hsame head List.mem_cons_self] using hprev
  tail_next := by
    have hnext := h.tail_next
    simpa only [NodeHeap.links, hsame tail (by simp)] using hnext
  allocated := by
    intro q hq
    have hq' := h.allocated q hq
    simpa only [NodeHeap.content, hsame q hq] using hq'

/-- A node outside the ring may change. -/
theorem update (h : Ring heap head tail cells) {p : Addr}
    (hnot : p ∉ head :: (cells ++ [tail])) (node : Option CacheNode) :
    Ring (Function.update heap p node) head tail cells := by
  apply h.frame
  intro q hq
  apply Function.update_of_ne
  rintro rfl
  exact hnot hq

theorem detach {front back : List Addr} {p : Addr}
    (h : Ring heap head tail (front ++ p :: back)) :
    ∃ heap', heap.detachNode p = some heap' ∧
      Ring heap' head tail (front ++ back) ∧ heap'.content = heap.content := by
  obtain ⟨start, before, hbefore⟩ : ∃ start before,
      head :: front = start ++ [before] :=
    ⟨_, _, (List.dropLast_append_getLast (List.cons_ne_nil head front)).symm⟩
  obtain ⟨after, stop, hafter⟩ : ∃ after stop, back ++ [tail] = after :: stop :=
    List.exists_cons_of_ne_nil (by simp)
  have hold : head :: ((front ++ p :: back) ++ [tail]) =
      start ++ before :: p :: after :: stop := by
    rw [List.append_assoc, List.cons_append, hafter, ← List.cons_append,
      hbefore, List.append_assoc, List.singleton_append]
  have hnew : head :: ((front ++ back) ++ [tail]) =
      start ++ before :: after :: stop := by
    rw [List.append_assoc, hafter, ← List.cons_append, hbefore,
      List.append_assoc, List.singleton_append]
  have hlinked := h.linked
  have halloc := h.allocated
  rw [hold] at hlinked halloc
  have hjoined := hlinked.joined
  rw [List.isChain_append_cons_cons, List.isChain_cons_cons] at hjoined
  obtain ⟨_, hleft, hright, _⟩ := hjoined
  have hnodup := hlinked.nodup
  have hne : p ≠ before := by
    rintro rfl
    simp [List.nodup_append] at hnodup
  obtain ⟨heap', hdetach, hlinks, hcontent⟩ := NodeHeap.exists_detachNode
    (halloc before (by simp)) (halloc p (by simp)) (halloc after (by simp))
    hne hleft.2 hright.1
  refine ⟨heap', hdetach, ⟨?_, ?_, ?_, ?_⟩, hcontent⟩
  · rw [hnew, hlinks]
    exact hlinked.unlink
  · have hhead : head ≠ after := by
      have hfull := h.linked.nodup
      rw [List.nodup_cons, List.append_assoc, List.cons_append, hafter] at hfull
      rintro rfl
      exact hfull.1 (by simp)
    rw [hlinks, Links.unlink, Links.setPrev_prev_of_ne _ _ hhead]
    exact h.head_prev
  · have htail : tail ≠ before := by
      have hmem : before ∈ head :: front := by
        rw [hbefore]
        simp
      have hfull := h.linked.nodup
      rintro rfl
      rw [← List.cons_append, ← List.cons_append, List.nodup_append] at hfull
      exact hfull.2.2 tail (List.mem_append_left (p :: back) hmem) tail
        (by simp) rfl
    rw [hlinks, Links.unlink, Links.setPrev_next,
      Links.setNext_next_of_ne _ _ htail]
    exact h.tail_next
  · intro q hq
    rw [hcontent]
    rw [hnew] at hq
    exact halloc q (by simp at hq ⊢; tauto)

theorem insert (h : Ring heap head tail cells) {p : Addr}
    (hp : heap.content p ≠ none) (hnot : p ∉ head :: (cells ++ [tail])) :
    ∃ heap', heap.insertToFront head p = some heap' ∧
      Ring heap' head tail (p :: cells) ∧ heap'.content = heap.content := by
  obtain ⟨after, stop, hafter⟩ : ∃ after stop, cells ++ [tail] = after :: stop :=
    List.exists_cons_of_ne_nil (by simp)
  have hlinked := h.linked
  have halloc := h.allocated
  rw [hafter] at hlinked halloc hnot
  have hjoined := hlinked.joined
  rw [List.isChain_cons_cons] at hjoined
  have hne : p ≠ head := by
    rintro rfl
    exact hnot List.mem_cons_self
  obtain ⟨heap', hinsert, hlinks, hcontent⟩ :=
    NodeHeap.exists_insertToFront (halloc head (by simp)) hp
      (halloc after (by simp)) hne hjoined.1.1
  have hnodup := hlinked.nodup
  refine ⟨heap', hinsert, ⟨?_, ?_, ?_, ?_⟩, hcontent⟩
  · rw [List.cons_append, hafter, hlinks]
    exact hlinked.link hnot
  · have hhead : head ≠ after := by
      rintro rfl
      simp at hnodup
    rw [hlinks, Links.link, Links.setPrev_prev_of_ne _ _ hhead,
      Links.setNext_prev, Links.setPrev_prev_of_ne _ _ (Ne.symm hne)]
    exact h.head_prev
  · have hmem : tail ∈ after :: stop := by
      rw [← hafter]
      simp
    have htail : tail ≠ head := by
      rintro rfl
      exact (List.nodup_cons.mp hnodup).1 hmem
    have hother : tail ≠ p := by
      rintro rfl
      exact hnot (List.mem_cons_of_mem _ hmem)
    rw [hlinks, Links.link, Links.setPrev_next,
      Links.setNext_next_of_ne _ _ htail, Links.setPrev_next,
      Links.setNext_next_of_ne _ _ hother]
    exact h.tail_next
  · intro q hq
    rw [hcontent]
    rw [List.cons_append, hafter] at hq
    rcases List.mem_cons.mp hq with rfl | hq
    · exact halloc _ List.mem_cons_self
    · rcases List.mem_cons.mp hq with rfl | hq
      · exact hp
      · exact halloc q (List.mem_cons_of_mem _ hq)

end Ring

/-! ### Refinement of the sequence model -/

/-- What no operation changes. -/
structure Kept (cache cache' : LinkedCache) : Prop where
  head : cache'.head = cache.head
  tail : cache'.tail = cache.tail
  capacity : cache'.capacity = cache.capacity

/-- The memory represents a sequence of nodes, most recently used first. -/
structure Represents (cache : LinkedCache) (cells : List Addr)
    (nodes : List (Int × KeyOffset)) : Prop where
  ring : Ring cache.heap cache.head cache.tail cells
  items : cells.map cache.heap.content = nodes.map some
  keys : (nodes.map Prod.fst).Nodup
  mapped : ∀ id p, cache.m.lookup id = some p ↔
    p ∈ cells ∧ ∃ table, cache.heap.content p = some (id, table)
  count_eq : cache.count = cells.length
  fresh : ∀ p, cache.fresh ≤ p → cache.heap.content p = none

/-- The node of an id in a sequence without repeated ids. -/
theorem find?_eraseP_eq {left right : List (Int × KeyOffset)} {id : Int}
    {table : KeyOffset}
    (hkeys : ((left ++ (id, table) :: right).map Prod.fst).Nodup) :
    (left ++ (id, table) :: right).find? (fun node => node.1 == id) =
        some (id, table) ∧
      (left ++ (id, table) :: right).eraseP (fun node => node.1 == id) =
        left ++ right := by
  have hleft : ∀ node ∈ left, ¬ (node.1 == id) = true := by
    intro node hnode hid
    rw [List.map_append, List.map_cons, List.nodup_append] at hkeys
    exact hkeys.2.2 node.1 (List.mem_map_of_mem hnode) id (by simp)
      (by simpa using hid)
  constructor
  · rw [List.find?_append, List.find?_eq_none.mpr hleft]
    simp
  · rw [List.eraseP_append_right _ hleft, List.eraseP_cons_of_pos (by simp)]

namespace Represents

variable {cache : LinkedCache} {cells : List Addr}
  {nodes : List (Int × KeyOffset)}

theorem length_eq (h : Represents cache cells nodes) :
    cells.length = nodes.length := by
  have hlength := congrArg List.length h.items
  simpa using hlength

/-- The place of a mapped cell in the ring and of its node in the
sequence. -/
theorem split (h : Represents cache cells nodes) {id : Int} {p : Addr}
    (hp : cache.m.lookup id = some p) :
    ∃ table front back left right, cache.heap.content p = some (id, table) ∧
      cells = front ++ p :: back ∧ nodes = left ++ (id, table) :: right ∧
      front.map cache.heap.content = left.map some ∧
      back.map cache.heap.content = right.map some := by
  obtain ⟨hmem, table, htable⟩ := (h.mapped id p).mp hp
  obtain ⟨front, back, rfl⟩ := List.append_of_mem hmem
  have hitems := h.items
  rw [List.map_append, List.map_cons, eq_comm, List.map_eq_append_iff] at hitems
  obtain ⟨left, rest, rfl, hleft, hrest⟩ := hitems
  rw [List.map_eq_cons_iff] at hrest
  obtain ⟨item, right, rfl, hitem, hright⟩ := hrest
  rw [htable, Option.some.injEq] at hitem
  exact ⟨table, front, back, left, right, htable, rfl, by rw [hitem],
    hleft.symm, hright.symm⟩

/-- An id without a mapped cell has no node. -/
theorem find?_eq_none (h : Represents cache cells nodes) {id : Int}
    (hp : cache.m.lookup id = none) :
    nodes.find? (fun node => node.1 == id) = none := by
  rw [List.find?_eq_none]
  intro node hnode hid
  have hmem : some node ∈ cells.map cache.heap.content := by
    rw [h.items]
    exact List.mem_map_of_mem hnode
  obtain ⟨p, hcell, hcontent⟩ := List.mem_map.mp hmem
  have hid' : node.1 = id := by simpa using hid
  have hlookup := (h.mapped id p).mpr ⟨hcell, node.2, by
    rw [hcontent, ← hid']⟩
  rw [hp] at hlookup
  cases hlookup

/-- A cell moved to the front, with the table `table` from now on. -/
theorem moved {id : Int} {old : KeyOffset} (table : KeyOffset)
    {front back : List Addr} {left right : List (Int × KeyOffset)} {p : Addr}
    (h : Represents cache (front ++ p :: back) (left ++ (id, old) :: right))
    (hp : cache.heap.content p = some (id, old))
    (hfront : front.map cache.heap.content = left.map some)
    (hback : back.map cache.heap.content = right.map some)
    {heap : NodeHeap} (hring : Ring heap cache.head cache.tail
      (p :: (front ++ back)))
    (hcontent : heap.content =
      Function.update cache.heap.content p (some (id, table))) :
    Represents { cache with heap } (p :: (front ++ back))
      ((id, table) :: (left ++ right)) := by
  have hnodup := hring.linked.nodup
  have hother : ∀ q ∈ front ++ back, heap.content q = cache.heap.content q := by
    intro q hq
    rw [hcontent]
    apply Function.update_of_ne
    rintro rfl
    simp only [List.cons_append, List.nodup_cons] at hnodup
    exact hnodup.2.1 (List.mem_append_left _ hq)
  refine ⟨hring, ?_, ?_, ?_, ?_, ?_⟩
  · have hself : heap.content p = some (id, table) := by simp [hcontent]
    rw [List.map_cons, List.map_cons, hself, List.map_congr_left hother,
      List.map_append, List.map_append, hfront, hback]
  · have hkeys := h.keys
    rw [List.map_append, List.map_cons] at hkeys
    rw [List.map_cons, List.map_append]
    exact List.nodup_middle.mp hkeys
  · intro id' q
    rw [h.mapped id' q]
    have hmem : q ∈ front ++ p :: back ↔ q ∈ p :: (front ++ back) := by
      simp only [List.mem_append, List.mem_cons]
      tauto
    rw [hmem]
    simp only [hcontent]
    by_cases hq : q = p
    · subst hq
      simp [hp]
    · rw [Function.update_of_ne hq]
  · rw [h.count_eq]
    simp
    omega
  · intro q hq
    have hnone := h.fresh q hq
    have hne : q ≠ p := by
      rintro rfl
      rw [hp] at hnone
      cases hnone
    change heap.content q = none
    rw [hcontent, Function.update_of_ne hne, hnone]

theorem not_mem_detached {front back : List Addr} {head tail p : Addr}
    (hnodup : (head :: ((front ++ p :: back) ++ [tail])).Nodup) :
    p ∉ head :: ((front ++ back) ++ [tail]) := by
  simp only [List.append_assoc, List.cons_append, List.nodup_cons,
    List.nodup_append, List.mem_append, List.mem_cons] at hnodup ⊢
  grind

/-- A node allocated but not yet in the ring. -/
theorem allocate (h : Represents cache cells nodes) :
    Represents cache.allocate cells nodes := by
  have hnone := h.fresh cache.fresh le_rfl
  have hnot : cache.fresh ∉ cache.head :: (cells ++ [cache.tail]) :=
    fun hmem => h.ring.allocated _ hmem hnone
  have hcontent : ∀ q ≠ cache.fresh, cache.allocate.heap.content q =
      cache.heap.content q := by
    intro q hq
    rw [LinkedCache.allocate, NodeHeap.content_update,
      Function.update_of_ne hq]
  have hcell : ∀ q ∈ cells, q ≠ cache.fresh := by
    rintro q hq rfl
    exact hnot (List.mem_cons_of_mem _ (List.mem_append_left _ hq))
  refine ⟨h.ring.update hnot _, ?_, h.keys, ?_, h.count_eq, ?_⟩
  · rw [← h.items]
    exact List.map_congr_left fun q hq => hcontent q (hcell q hq)
  · intro id q
    apply (h.mapped id q).trans
    constructor
    · rintro ⟨hq, htable⟩
      exact ⟨hq, by rwa [hcontent q (hcell q hq)]⟩
    · rintro ⟨hq, htable⟩
      exact ⟨hq, by rwa [hcontent q (hcell q hq)] at htable⟩
  · intro q hq
    change cache.fresh < q at hq
    rw [hcontent q (Nat.ne_of_gt hq)]
    exact h.fresh q hq.le

/-- `RemoveLRUNode` takes the last cell out and deletes it. -/
theorem removeLRUNode {front : List Addr} {p : Addr}
    {left : List (Int × KeyOffset)} {item : Int × KeyOffset}
    (h : Represents cache (front ++ [p]) (left ++ [item])) :
    ∃ cache', cache.removeLRUNode = some cache' ∧
      Represents cache' front left ∧ Kept cache cache' ∧
      cache'.fresh = cache.fresh ∧
      ∀ q, q ∉ front ++ [p] →
        cache'.heap.content q = cache.heap.content q := by
  have hitems := h.items
  rw [List.map_append, List.map_append] at hitems
  obtain ⟨hleft, hitem⟩ := List.append_inj' hitems rfl
  simp only [List.map_cons, List.map_nil, List.cons.injEq, and_true] at hitem
  obtain ⟨tailItem, htailItem⟩ := Option.ne_none_iff_exists'.mp
    (h.ring.allocated cache.tail (by simp))
  obtain ⟨tail, htail, _⟩ := NodeHeap.exists_node htailItem
  have hprev : tail.prev = some p := by
    have hjoined := h.ring.linked.joined
    have hsplit : cache.head :: ((front ++ [p]) ++ [cache.tail]) =
        (cache.head :: front) ++ p :: cache.tail :: [] := by simp
    rw [hsplit, List.isChain_append_cons_cons] at hjoined
    simpa [NodeHeap.links, htail] using hjoined.2.1.2
  obtain ⟨heap1, hdetach, hring, hcontent⟩ := h.ring.detach
  rw [List.append_nil] at hring
  have hnot := not_mem_detached h.ring.linked.nodup
  rw [List.append_nil] at hnot
  have hitem1 : heap1.content p = some item := by rw [hcontent, hitem]
  obtain ⟨node, hnode, hkey⟩ := NodeHeap.exists_node hitem1
  have hother : ∀ q ≠ p, NodeHeap.content (Function.update heap1 p none) q =
      cache.heap.content q := by
    intro q hq
    rw [NodeHeap.content_update, Function.update_of_ne hq, hcontent]
  have hcell : ∀ q ∈ front, q ≠ p := by
    rintro q hq rfl
    exact hnot (List.mem_cons_of_mem _ (List.mem_append_left _ hq))
  have hkeys := h.keys
  rw [List.map_append, List.nodup_append] at hkeys
  refine ⟨{ cache with
      m := cache.m.erase node.key
      heap := Function.update heap1 p none
      count := cache.count - 1 }, ?_,
    ⟨hring.update hnot none, ?_, hkeys.1, ?_, ?_, ?_⟩, ⟨rfl, rfl, rfl⟩, rfl,
    fun q hq => hother q (by rintro rfl; simp at hq)⟩
  · simp [LinkedCache.removeLRUNode, htail, hprev, hdetach, hnode,
      NodeHeap.delete]
  · rw [← hleft]
    exact List.map_congr_left fun q hq => hother q (hcell q hq)
  · intro id q
    have hmapped := h.mapped id q
    by_cases hid : id = node.key
    · subst hid
      rw [AList.lookup_erase]
      simp only [reduceCtorEq, false_iff, not_and, not_exists]
      intro hq table htable
      rw [hother q (hcell q hq)] at htable
      have hmem : some (node.key, table) ∈ left.map some := by
        rw [← hleft, ← htable]
        exact List.mem_map_of_mem hq
      have hmem' : (node.key, table) ∈ left := by simpa using hmem
      refine hkeys.2.2 node.key (List.mem_map_of_mem hmem') item.1 (by simp) ?_
      rw [← hkey]
    · rw [AList.lookup_erase_ne hid, hmapped]
      constructor
      · rintro ⟨hq, table, htable⟩
        have hne : q ≠ p := by
          rintro rfl
          rw [hitem, Option.some.injEq, ← hkey, Prod.mk.injEq] at htable
          exact hid htable.1.symm
        have hfront : q ∈ front := by simpa [hne] using hq
        exact ⟨hfront, table, by rw [hother q hne, htable]⟩
      · rintro ⟨hq, table, htable⟩
        rw [hother q (hcell q hq)] at htable
        exact ⟨List.mem_append_left _ hq, table, htable⟩
  · change cache.count - 1 = front.length
    rw [h.count_eq]
    simp
  · intro q hq
    have hnone := h.fresh q hq
    have hne : q ≠ p := by
      rintro rfl
      rw [hitem] at hnone
      cases hnone
    rw [hother q hne, hnone]

/-- The capacity test leaves room for one node. -/
theorem makeRoom (h : Represents cache cells nodes)
    (hpos : 0 < cache.capacity) :
    ∃ cache' cells', cache.makeRoom = some cache' ∧
      Represents cache' cells' (if nodes.length = cache.capacity then
        nodes.dropLast else nodes) ∧ cells' ⊆ cells ∧
      Kept cache cache' ∧ cache'.fresh = cache.fresh ∧
      ∀ q, q ∉ cells → cache'.heap.content q = cache.heap.content q := by
  have hlength : cache.count = nodes.length := by
    rw [h.count_eq, h.length_eq]
  unfold LinkedCache.makeRoom
  rw [hlength]
  by_cases hfull : nodes.length = cache.capacity
  · have hne : nodes ≠ [] := by
      rw [← List.length_pos_iff]
      omega
    have hcells : cells ≠ [] := by
      rw [← List.length_pos_iff, h.length_eq]
      omega
    obtain ⟨front, last, rfl⟩ : ∃ front last, cells = front ++ [last] :=
      ⟨_, _, (List.dropLast_append_getLast hcells).symm⟩
    rw [← List.dropLast_append_getLast hne] at h
    obtain ⟨cache', hremove, hrepr, hsame⟩ := h.removeLRUNode
    rw [if_pos hfull, if_pos hfull]
    exact ⟨cache', front, hremove, hrepr, by simp, hsame⟩
  · rw [if_neg hfull, if_neg hfull]
    exact ⟨cache, cells, rfl, h, List.Subset.refl _, ⟨rfl, rfl, rfl⟩, rfl,
      fun _ _ => rfl⟩

/-- A node that is not in the ring becomes the first. -/
theorem enter (h : Represents cache cells nodes) {p : Addr} {id : Int}
    (hnot : p ∉ cache.head :: (cells ++ [cache.tail]))
    (hp : cache.heap.content p ≠ none) (hfresh : p < cache.fresh)
    (hid : id ∉ nodes.map Prod.fst) (table : KeyOffset) :
    ∃ cache', cache.enter p id table = some cache' ∧
      Represents cache' (p :: cells) ((id, table) :: nodes) ∧
      Kept cache cache' := by
  obtain ⟨item, hitem⟩ := Option.ne_none_iff_exists'.mp hp
  obtain ⟨node, hnode, _⟩ := NodeHeap.exists_node hitem
  obtain ⟨heap2, hinsert, hring, hcontent⟩ := (h.ring.update hnot
    (some { node with key := id, value := table })).insert (p := p)
    (by rw [NodeHeap.content_update]; simp) hnot
  rw [NodeHeap.content_update, Option.map_some] at hcontent
  have hother : ∀ q ≠ p, heap2.content q = cache.heap.content q := by
    intro q hq
    rw [hcontent, Function.update_of_ne hq]
  have hself : heap2.content p = some (id, table) := by simp [hcontent]
  have hcell : ∀ q ∈ cells, q ≠ p := by
    rintro q hq rfl
    exact hnot (List.mem_cons_of_mem _ (List.mem_append_left _ hq))
  refine ⟨{ cache with
      m := cache.m.insert id p
      heap := heap2
      count := cache.count + 1 }, ?_, ⟨hring, ?_, ?_, ?_, ?_, ?_⟩,
    ⟨rfl, rfl, rfl⟩⟩
  · simp [LinkedCache.enter, NodeHeap.modify, hnode, hinsert]
  · rw [List.map_cons, List.map_cons, hself, ← h.items]
    congr 1
    exact List.map_congr_left fun q hq => hother q (hcell q hq)
  · rw [List.map_cons, List.nodup_cons]
    exact ⟨hid, h.keys⟩
  · intro id' q
    by_cases hsame : id' = id
    · subst hsame
      rw [AList.lookup_insert]
      constructor
      · intro heq
        cases heq
        exact ⟨List.mem_cons_self, table, hself⟩
      · rintro ⟨hq, table', htable'⟩
        rcases List.mem_cons.mp hq with rfl | hq
        · rfl
        · rw [hother q (hcell q hq)] at htable'
          have hmem : some (id', table') ∈ nodes.map some := by
            rw [← h.items, ← htable']
            exact List.mem_map_of_mem hq
          have hmem' : (id', table') ∈ nodes := by simpa using hmem
          exact absurd (List.mem_map_of_mem hmem') hid
    · rw [AList.lookup_insert_ne hsame, h.mapped id' q]
      constructor
      · rintro ⟨hq, table', htable'⟩
        exact ⟨List.mem_cons_of_mem _ hq, table', by
          rw [hother q (hcell q hq), htable']⟩
      · rintro ⟨hq, table', htable'⟩
        rcases List.mem_cons.mp hq with rfl | hq
        · rw [hself, Option.some.injEq, Prod.mk.injEq] at htable'
          exact absurd htable'.1.symm hsame
        · rw [hother q (hcell q hq)] at htable'
          exact ⟨hq, table', htable'⟩
  · change cache.count + 1 = (p :: cells).length
    rw [h.count_eq, List.length_cons]
  · intro q hq
    change cache.fresh ≤ q at hq
    rw [hother q (Nat.ne_of_gt (hfresh.trans_le hq))]
    exact h.fresh q hq

end Represents

/-- The memory represents a cache of the sequence model. -/
def Refines (cache : LinkedCache) (spec : LRUCache) : Prop :=
  cache.capacity = spec.capacity ∧ spec.nodes.length ≤ spec.capacity ∧
    ∃ cells, Represents cache cells spec.nodes

namespace Refines

variable {cache : LinkedCache} {spec : LRUCache}

theorem get (h : Refines cache spec) (id : Int) (key : Bytes) :
    ∃ cache', cache.get id key = some ((spec.get id key).1, cache') ∧
      Refines cache' (spec.get id key).2 := by
  obtain ⟨hcapacity, hbound, cells, hcells⟩ := h
  unfold LinkedCache.get LRUCache.get LRUCache.node?
  cases hp : cache.m.lookup id with
  | none =>
      rw [hcells.find?_eq_none hp]
      exact ⟨cache, rfl, hcapacity, hbound, cells, hcells⟩
  | some p =>
      obtain ⟨table, front, back, left, right, hcontent, rfl, hnodes, hfront,
        hback⟩ := hcells.split hp
      have hkeys := hcells.keys
      rw [hnodes] at hkeys hcells
      obtain ⟨hfind, herase⟩ := find?_eraseP_eq hkeys
      obtain ⟨node, hnode, hitem⟩ := NodeHeap.exists_node hcontent
      simp only [Prod.mk.injEq] at hitem
      obtain ⟨hid, rfl⟩ := hitem
      simp only [hnodes, hfind, hnode, Option.bind_eq_bind, Option.bind_some]
      cases hoffset : node.value.lookup key with
      | none =>
          refine ⟨cache, rfl, hcapacity, hbound, front ++ p :: back, ?_⟩
          rw [hnodes]
          exact hcells
      | some offset =>
          obtain ⟨heap1, hdetach, hring1, hcontent1⟩ := hcells.ring.detach
          have hnot := Represents.not_mem_detached hcells.ring.linked.nodup
          obtain ⟨heap2, hinsert, hring2, hcontent2⟩ :=
            hring1.insert (p := p) (by rw [hcontent1, hcontent]; simp) hnot
          have hmoved := hcells.moved node.value hcontent hfront hback hring2
            (by rw [hcontent2, hcontent1, ← hcontent, Function.update_eq_self])
          refine ⟨{ cache with heap := heap2 }, ?_, hcapacity, ?_,
            p :: (front ++ back), ?_⟩
          · simp [hdetach, hinsert]
          · rw [hnodes] at hbound
            simp only [LRUCache.detach, hnodes, herase, List.length_cons,
              List.length_append] at hbound ⊢
            omega
          · simpa only [LRUCache.detach, hnodes, herase] using hmoved

theorem set (h : Refines cache spec) (id : Int) (table : KeyOffset) :
    ∃ cache', cache.set id table = some cache' ∧
      Refines cache' (spec.set id table) := by
  obtain ⟨hcapacity, hbound, cells, hcells⟩ := h
  have hpos := spec.capacity_pos
  unfold LinkedCache.set LRUCache.set LRUCache.node?
  cases hp : cache.m.lookup id with
  | none =>
      have hnone := hcells.find?_eq_none hp
      have hnew := hcells.fresh cache.fresh le_rfl
      have hnot : cache.fresh ∉ cache.head :: (cells ++ [cache.tail]) :=
        fun hmem => hcells.ring.allocated _ hmem hnew
      have hcell : cache.fresh ∉ cells := fun hmem =>
        hnot (List.mem_cons_of_mem _ (List.mem_append_left _ hmem))
      obtain ⟨room, cells', hroom, hrepr, hsub, hkept, hfresh, hsame⟩ :=
        hcells.allocate.makeRoom (hcapacity ▸ hpos)
      have hnotRoom : cache.fresh ∉ room.head :: (cells' ++ [room.tail]) := by
        rw [hkept.head, hkept.tail]
        intro hmem
        apply hnot
        simp only [List.mem_cons, List.mem_append] at hmem ⊢
        rcases hmem with hmem | hmem | hmem
        · exact Or.inl hmem
        · exact Or.inr (Or.inl (hsub hmem))
        · exact Or.inr (Or.inr hmem)
      have hcontent : room.heap.content cache.fresh ≠ none := by
        rw [hsame cache.fresh hcell, LinkedCache.allocate,
          NodeHeap.content_update]
        simp
      have hlt : cache.fresh < room.fresh := by
        rw [hfresh]
        exact Nat.lt_succ_self cache.fresh
      have hcap : cache.allocate.capacity = spec.capacity := hcapacity
      rw [hcap] at hrepr
      have hid : id ∉ (if spec.nodes.length = spec.capacity then
          spec.nodes.dropLast else spec.nodes).map Prod.fst := by
        intro hmem
        obtain ⟨node, hnode, hkey⟩ := List.mem_map.mp hmem
        have hold : node ∈ spec.nodes := by
          split_ifs at hnode
          · exact List.dropLast_subset _ hnode
          · exact hnode
        exact List.find?_eq_none.mp hnone node hold (by simpa using hkey)
      obtain ⟨cache', henter, hrepr', hkept'⟩ :=
        hrepr.enter hnotRoom hcontent hlt hid table
      refine ⟨cache', ?_, ?_, ?_, cache.fresh :: cells', ?_⟩
      · simp only [hroom, henter, Option.bind_eq_bind, Option.bind_some]
      · rw [hkept'.capacity, hkept.capacity, hcap, hnone]
      · simp only [hnone, List.length_cons]
        split_ifs with hfull
        · rw [List.length_dropLast]
          omega
        · omega
      · rw [hnone]
        exact hrepr'
  | some p =>
      obtain ⟨old, front, back, left, right, hcontent, rfl, hnodes, hfront,
        hback⟩ := hcells.split hp
      have hkeys := hcells.keys
      rw [hnodes] at hkeys hcells
      obtain ⟨hfind, herase⟩ := find?_eraseP_eq hkeys
      obtain ⟨heap1, hdetach, hring1, hcontent1⟩ := hcells.ring.detach
      have hnot := Represents.not_mem_detached hcells.ring.linked.nodup
      have hitem : heap1.content p = some (id, old) := by
        rw [hcontent1, hcontent]
      obtain ⟨node, hnode, hkey⟩ := NodeHeap.exists_node hitem
      obtain ⟨heap2, hinsert, hring2, hcontent2⟩ := (hring1.update hnot
        (some { node with value := table })).insert (p := p)
        (by rw [NodeHeap.content_update]; simp) hnot
      have hmoved := hcells.moved table hcontent hfront hback hring2 (by
        have hid : node.key = id := congrArg Prod.fst hkey
        rw [hcontent2, NodeHeap.content_update, hcontent1, Option.map_some,
          hid])
      refine ⟨{ cache with heap := heap2 }, ?_, ?_, ?_, p :: (front ++ back),
        ?_⟩
      · simp [hdetach, NodeHeap.modify, hnode, hinsert]
      · simpa only [hnodes, hfind] using hcapacity
      · rw [hnodes] at hbound
        simp only [hnodes, hfind, LRUCache.detach, herase, List.length_cons,
          List.length_append] at hbound ⊢
        omega
      · simpa only [hnodes, hfind, LRUCache.detach, herase] using hmoved

/-- Deleting distinct allocated nodes leaves the others alone. -/
theorem exists_foldlM_delete :
    ∀ (items : List (Sigma fun _ : Int => Addr)) (heap : NodeHeap),
      (items.map Sigma.snd).Nodup →
      (∀ item ∈ items, heap.content item.2 ≠ none) →
      ∃ heap' : NodeHeap,
        items.foldlM (fun heap item => heap.delete item.2) heap = some heap' ∧
        ∀ q, q ∉ items.map Sigma.snd → heap' q = heap q := by
  intro items
  induction items with
  | nil =>
      intro heap _ _
      exact ⟨heap, rfl, fun _ _ => rfl⟩
  | cons item items ih =>
      intro heap hnodup hcontent
      rw [List.map_cons, List.nodup_cons] at hnodup
      obtain ⟨content, hitem⟩ := Option.ne_none_iff_exists'.mp
        (hcontent item List.mem_cons_self)
      obtain ⟨node, hnode, _⟩ := NodeHeap.exists_node hitem
      obtain ⟨heap', hfold, hsame⟩ := ih (Function.update heap item.2 none)
        hnodup.2 (by
          intro other hother
          have hne : other.2 ≠ item.2 := by
            intro heq
            exact hnodup.1 (heq ▸ List.mem_map_of_mem hother)
          rw [NodeHeap.content_update, Function.update_of_ne hne]
          exact hcontent other (List.mem_cons_of_mem item hother))
      refine ⟨heap', ?_, ?_⟩
      · have hdelete : heap.delete item.2 =
            some (Function.update heap item.2 none) := by
          simp [NodeHeap.delete, hnode]
        rw [List.foldlM_cons, hdelete]
        exact hfold
      · intro q hq
        rw [List.map_cons, List.mem_cons, not_or] at hq
        rw [hsame q hq.2, Function.update_of_ne hq.1]

theorem clear (h : Refines cache spec) :
    ∃ cache', cache.clear = some cache' ∧ Refines cache' spec.clear := by
  obtain ⟨hcapacity, _, cells, hcells⟩ := h
  have hentry : ∀ item ∈ cache.m.entries, item.2 ∈ cells ∧
      ∃ table, cache.heap.content item.2 = some (item.1, table) := by
    intro item hitem
    exact (hcells.mapped item.1 item.2).mp (AList.mem_lookup_iff.mpr hitem)
  obtain ⟨heap1, hfold, hsame⟩ := exists_foldlM_delete cache.m.entries
    cache.heap (by
      apply List.Nodup.map_on _ (List.NodupKeys.nodup cache.m.nodupKeys)
      intro item hitem other hother heq
      obtain ⟨_, table, htable⟩ := hentry item hitem
      obtain ⟨_, table', htable'⟩ := hentry other hother
      rw [heq, htable', Option.some.injEq, Prod.mk.injEq] at htable
      exact Sigma.ext htable.1.symm (heq_of_eq heq))
    (by
      intro item hitem
      obtain ⟨_, table, htable⟩ := hentry item hitem
      rw [htable]
      simp)
  have hnodup := hcells.ring.linked.nodup
  have hout : ∀ q, q ∉ cells → heap1 q = cache.heap q := by
    intro q hq
    apply hsame
    intro hmem
    obtain ⟨item, hitem, rfl⟩ := List.mem_map.mp hmem
    exact hq (hentry item hitem).1
  have hheadNot : cache.head ∉ cells := fun hmem =>
    (List.nodup_cons.mp hnodup).1 (List.mem_append_left _ hmem)
  have htailNot : cache.tail ∉ cells := by
    intro hmem
    rw [List.nodup_cons, List.nodup_append] at hnodup
    exact hnodup.2.2.2 cache.tail hmem cache.tail (by simp) rfl
  have hne : cache.head ≠ cache.tail := by
    intro heq
    exact (List.nodup_cons.mp hnodup).1 (by simp [heq])
  have hcontent1 : ∀ q, q ∉ cells →
      heap1.content q = cache.heap.content q := by
    intro q hq
    simp only [NodeHeap.content, hout q hq]
  obtain ⟨headItem, hheadItem⟩ := Option.ne_none_iff_exists'.mp
    (hcells.ring.allocated cache.head (by simp))
  rw [← hcontent1 _ hheadNot] at hheadItem
  obtain ⟨tailItem, htailItem⟩ := Option.ne_none_iff_exists'.mp
    (hcells.ring.allocated cache.tail (by simp))
  rw [← hcontent1 _ htailNot] at htailItem
  obtain ⟨heap2, hset2, hlinks2, hcontent2⟩ :=
    NodeHeap.exists_setNext hheadItem (some cache.tail)
  rw [← hcontent2] at htailItem hheadItem
  obtain ⟨heap3, hset3, hlinks3, hcontent3⟩ :=
    NodeHeap.exists_setPrev htailItem (some cache.head)
  rw [← hcontent3] at htailItem hheadItem
  refine ⟨{ cache with m := ∅, count := 0, heap := heap3 }, ?_, hcapacity,
    Nat.zero_le _, [], ⟨⟨⟨?_, ?_⟩, ?_, ?_, ?_⟩, rfl, List.nodup_nil, ?_, rfl,
      ?_⟩⟩
  · simp [LinkedCache.clear, hfold, hset2, hset3]
  · simpa using hne
  · have hjoined : Joined heap3.links cache.head cache.tail := by
      constructor <;> rw [hlinks3, hlinks2] <;> simp
    simpa using hjoined
  · rw [hlinks3, Links.setPrev_prev_of_ne _ _ hne, hlinks2,
      Links.setNext_prev]
    have hprev := hcells.ring.head_prev
    simpa only [NodeHeap.links, hout _ hheadNot] using hprev
  · rw [hlinks3, Links.setPrev_next, hlinks2,
      Links.setNext_next_of_ne _ _ hne.symm]
    have hnext := hcells.ring.tail_next
    simpa only [NodeHeap.links, hout _ htailNot] using hnext
  · intro q hq
    have hq' : q = cache.head ∨ q = cache.tail := by simpa using hq
    rcases hq' with rfl | rfl
    · rw [hheadItem]
      simp
    · rw [htailItem]
      simp
  · intro id p
    simp
  · intro q hq
    have hnone := hcells.fresh q hq
    have hnot : q ∉ cells := fun hmem => hcells.ring.allocated q
      (List.mem_cons_of_mem _ (List.mem_append_left _ hmem)) hnone
    change heap3.content q = none
    rw [hcontent3, hcontent2, hcontent1 q hnot, hnone]

theorem new {capacity : Nat} (hpos : 0 < capacity) :
    Refines (.new capacity) (.empty capacity hpos) := by
  refine ⟨rfl, Nat.zero_le _, [], ⟨⟨⟨?_, ?_⟩, rfl, rfl, ?_⟩, rfl,
    List.nodup_nil, ?_, rfl, ?_⟩⟩
  · change [0, 1].Nodup
    decide
  · change [0, 1].IsChain (Joined (LinkedCache.new capacity).heap.links)
    exact List.isChain_pair.mpr ⟨rfl, rfl⟩
  · intro q hq
    change q ∈ [0, 1] at hq
    have hq' : q = 0 ∨ q = 1 := by simpa using hq
    rcases hq' with rfl | rfl <;> simp [LinkedCache.new, NodeHeap.content]
  · intro id p
    simp [LinkedCache.new]
  · intro p hp
    change 2 ≤ p at hp
    have h0 : p ≠ 0 := by
      rintro rfl
      exact absurd hp (by decide)
    have h1 : p ≠ 1 := by
      rintro rfl
      exact absurd hp (by decide)
    simp [LinkedCache.new, NodeHeap.content, h0, h1]

end Refines

/-- A call on the cache. -/
inductive CacheOp where
  | get (key : Int) (keyStr : Bytes)
  | set (key : Int) (value : KeyOffset)
  | clear

/-- One call and what a `Get` returns. -/
def LinkedCache.apply (cache : LinkedCache) :
    CacheOp → Option (Option (UInt32 × Bool) × LinkedCache)
  | .get key keyStr => (cache.get key keyStr).map fun r => (some r.1, r.2)
  | .set key value => (cache.set key value).map fun cache => (none, cache)
  | .clear => cache.clear.map fun cache => (none, cache)

/-- Calls one after the other, with what each returns. -/
def LinkedCache.run : List CacheOp → LinkedCache →
    Option (List (Option (UInt32 × Bool)) × LinkedCache)
  | [], cache => some ([], cache)
  | op :: ops, cache => do
      let (result, cache) ← cache.apply op
      let (results, cache) ← run ops cache
      some (result :: results, cache)

def LRUCache.apply (cache : LRUCache) :
    CacheOp → Option (UInt32 × Bool) × LRUCache
  | .get key keyStr => (some (cache.get key keyStr).1, (cache.get key keyStr).2)
  | .set key value => (none, cache.set key value)
  | .clear => (none, cache.clear)

def LRUCache.run : List CacheOp → LRUCache →
    List (Option (UInt32 × Bool)) × LRUCache
  | [], cache => ([], cache)
  | op :: ops, cache =>
      let (result, cache) := cache.apply op
      let (results, cache) := run ops cache
      (result :: results, cache)

theorem LRUCache.capacity_apply (cache : LRUCache) (op : CacheOp) :
    (cache.apply op).2.capacity = cache.capacity := by
  cases op with
  | get key keyStr =>
      simp only [LRUCache.apply, LRUCache.get]
      split
      · rfl
      · split <;> rfl
  | set key value =>
      simp only [LRUCache.apply, LRUCache.set]
      split <;> rfl
  | clear => rfl

theorem LRUCache.capacity_run (ops : List CacheOp) (cache : LRUCache) :
    (cache.run ops).2.capacity = cache.capacity := by
  induction ops generalizing cache with
  | nil => rfl
  | cons op ops ih => exact (ih _).trans (cache.capacity_apply op)

theorem Refines.apply {cache : LinkedCache} {spec : LRUCache}
    (h : Refines cache spec) (op : CacheOp) :
    ∃ cache', cache.apply op = some ((spec.apply op).1, cache') ∧
      Refines cache' (spec.apply op).2 := by
  cases op with
  | get key keyStr =>
      obtain ⟨cache', hget, hrefines⟩ := h.get key keyStr
      exact ⟨cache', by rw [LinkedCache.apply, hget]; rfl, hrefines⟩
  | set key value =>
      obtain ⟨cache', hset, hrefines⟩ := h.set key value
      exact ⟨cache', by rw [LinkedCache.apply, hset]; rfl, hrefines⟩
  | clear =>
      obtain ⟨cache', hclear, hrefines⟩ := h.clear
      exact ⟨cache', by rw [LinkedCache.apply, hclear]; rfl, hrefines⟩

theorem Refines.run (ops : List CacheOp) {cache : LinkedCache}
    {spec : LRUCache} (h : Refines cache spec) :
    ∃ cache', cache.run ops = some ((spec.run ops).1, cache') ∧
      Refines cache' (spec.run ops).2 := by
  induction ops generalizing cache spec with
  | nil => exact ⟨cache, rfl, h⟩
  | cons op ops ih =>
      obtain ⟨cache1, happly, h1⟩ := h.apply op
      obtain ⟨cache2, hrun, h2⟩ := ih h1
      refine ⟨cache2, ?_, h2⟩
      simp only [LinkedCache.run, happly, hrun, Option.bind_eq_bind,
        Option.bind_some]
      rfl

/-- The pointers, the map and the counter of the cache stay consistent through
every sequence of calls, and the cache is the sequence model: between the
sentinels lie the nodes of the model, in its order; no call goes through a null
or deleted node and each returns what the model returns. -/
theorem linked_cache_refines {capacity : Nat} (hpos : 0 < capacity)
    (ops : List CacheOp) :
    ∃ (cache : LinkedCache) (cells : List Addr),
      (LinkedCache.new capacity).run ops =
        some (((LRUCache.empty capacity hpos).run ops).1, cache) ∧
      (∀ fuel, cells.length < fuel →
        follow cache.heap.links.next fuel cache.head = cells ++ [cache.tail] ∧
        follow cache.heap.links.prev fuel cache.tail =
          cells.reverse ++ [cache.head]) ∧
      cells.map cache.heap.content =
        ((LRUCache.empty capacity hpos).run ops).2.nodes.map some ∧
      (((LRUCache.empty capacity hpos).run ops).2.nodes.map
        Prod.fst).Nodup ∧
      (∀ id p, cache.m.lookup id = some p ↔ p ∈ cells ∧
        ∃ table, cache.heap.content p = some (id, table)) ∧
      cache.count = cells.length ∧ cache.count ≤ capacity := by
  obtain ⟨cache, hrun, hcapacity, hbound, cells, hcells⟩ :=
    (Refines.new hpos).run ops
  refine ⟨cache, cells, hrun, fun fuel hfuel => hcells.ring.linked.follow_both
    hcells.ring.head_prev hcells.ring.tail_next hfuel, hcells.items,
    hcells.keys, hcells.mapped, hcells.count_eq, ?_⟩
  rw [LRUCache.capacity_run] at hbound
  rw [hcells.count_eq, hcells.length_eq]
  exact hbound

/-- Capacity 1: the second file drops the first. -/
theorem linked_cache_refines_one :
    ∃ (cache : LinkedCache) (cells : List Addr),
      (LinkedCache.new 1).run [.set 5 ∅, .set 7 ∅] =
        some ([none, none], cache) ∧
      cells.map cache.heap.content = [some (7, ∅)] ∧ cache.count ≤ 1 := by
  obtain ⟨cache, cells, hrun, _, hcontent, _, _, _, hcount⟩ :=
    linked_cache_refines (show 0 < 1 by decide) [.set 5 ∅, .set 7 ∅]
  exact ⟨cache, cells, hrun, hcontent, hcount⟩

end SimpleKV
