/-
`SkipList<const char*, Comparator>` as bytes in the blocks of an arena.  A node
is a key pointer followed by its `next_` pointers, eight bytes each; nothing but
the search itself keeps an access inside a node.  The list in memory follows the
one of `SkipListNodes` step by step.
-/
import SimpleKV.Regions
import SimpleKV.Random
import SimpleKV.SkipListMap
import SimpleKV.EntryCodec

namespace SimpleKV

open ByteMemory

/-- The members of a `SkipList` with its nodes in memory.  `made` counts the
nodes; it only bounds the searches. -/
structure RawSkipList where
  head : Nat
  maxHeight : Nat
  random : Random
  made : Nat

namespace RawSkipList

/-- The address of `next_[level]`. -/
def nextField (x level : Nat) : Nat := x + 8 + 8 * level

/-- `x->Next(level)`; null is 0. -/
def next (m : Machine) (x level : Nat) : Option Nat :=
  m.loadWord (nextField x level)

/-- `x->SetNext(level, target)`. -/
def setNext (m : Machine) (x level target : Nat) : Option Machine :=
  m.storeWord (nextField x level) target

/-- `x->key`. -/
def key (m : Machine) (x : Nat) : Option Nat :=
  m.loadWord x

/-- `x->key = key`. -/
def setKey (m : Machine) (x key : Nat) : Option Machine :=
  m.storeWord x key

/-- `Comparator::operator()` on two pointers. -/
def compare (m : Machine) (a b : Nat) : Option Ordering := do
  let akey ← extractUserKey (m.readable a)
  let bkey ← extractUserKey (m.readable b)
  some (if akey < bkey then .lt else if akey = bkey then .eq else .gt)

/-- `KeyIsAfterNode`. -/
def keyIsAfterNode (m : Machine) (target n : Nat) : Option Bool :=
  if n = 0 then some false
  else do
    let other ← key m n
    (compare m other target).map fun order => order == .lt

/-- The array `prev`; an entry is `none` until it is written. -/
abbrev Prev := List (Option Nat)

/-- The loop of `FindGreaterOrEqual`; a null `prev` is `none`. -/
def findGreaterOrEqualLoop (m : Machine) (target : Nat) : Nat → Nat → Nat →
    Option Prev → Option (Nat × Option Prev)
  | 0, _, _, _ => none
  | fuel + 1, x, level, prev => do
      let n ← next m x level
      if ← keyIsAfterNode m target n then
        findGreaterOrEqualLoop m target fuel n level prev
      else
        let prev := prev.map fun prev => prev.set level (some x)
        if level = 0 then some (n, prev)
        else findGreaterOrEqualLoop m target fuel x (level - 1) prev

/-- `FindGreaterOrEqual`. -/
def findGreaterOrEqual (m : Machine) (target : Nat) (prev : Option Prev)
    (list : RawSkipList) : Option (Nat × Option Prev) :=
  findGreaterOrEqualLoop m target (list.made + list.maxHeight) list.head
    (list.maxHeight - 1) prev

/-- `NewNode`; `next_` is not initialised. -/
def newNode (allocator : Allocator) (key height : Nat) (m : Machine)
    (memory : Memory) : Except Fault (Nat × Machine × Memory) := do
  let (x, m, memory) ←
    memory.allocateAligned allocator (16 + 8 * (height - 1)) m
  let m ← defined (setKey m x key)
  .ok (x, m, memory)

/-- The loop of the constructor over the head's pointers. -/
def clearLoop (head : Nat) : Nat → Nat → Machine → Option Machine
  | 0, _, m => some m
  | count + 1, i, m => do
      let m ← setNext m head i 0
      clearLoop head count (i + 1) m

/-- `SkipList::SkipList`; `headKey` is the address of its string literal. -/
def new (allocator : Allocator) (headKey : Nat) (m : Machine)
    (memory : Memory) : Except Fault (Machine × Memory × RawSkipList) := do
  let (head, m, memory) ← newNode allocator headKey kMaxHeight m memory
  let m ← defined (clearLoop head kMaxHeight 0 m)
  .ok (m, memory, ⟨head, 1, .new 0xdeadbeef, 1⟩)

/-- The loop of `Insert` over the levels above the old `max_height_`. -/
def raiseLoop (head : Nat) : Nat → Nat → Prev → Prev
  | 0, _, prev => prev
  | count + 1, i, prev => raiseLoop head count (i + 1) (prev.set i (some head))

/-- The splicing loop of `Insert` from level `i` on. -/
def spliceLoop (prev : Prev) (x : Nat) : Nat → Nat → Machine → Option Machine
  | 0, _, m => some m
  | count + 1, i, m => do
      let before ← prev[i]?
      let before ← before
      let after ← next m before i
      let m ← setNext m x i after
      let m ← setNext m before i x
      spliceLoop prev x count (i + 1) m

/-- The part of `Insert` that makes a new node. -/
def splice (allocator : Allocator) (key : Nat) (prev : Prev) (m : Machine)
    (memory : Memory) (list : RawSkipList) :
    Except Fault (Machine × Memory × RawSkipList) := do
  let (height, random) := list.random.randomHeight
  let prev := raiseLoop list.head (height - list.maxHeight) list.maxHeight prev
  let maxHeight := if list.maxHeight < height then height else list.maxHeight
  let (x, m, memory) ← newNode allocator key height m memory
  let m ← defined (spliceLoop prev x height 0 m)
  .ok (m, memory, { list with maxHeight, random, made := list.made + 1 })

/-- `Equal(x->key, key)` for a node that may be null. -/
def isEqual (m : Machine) (x target : Nat) : Option Bool :=
  if x = 0 then some false
  else do
    let other ← key m x
    (compare m other target).map fun order => order == .eq

/-- `Insert`. -/
def insert (allocator : Allocator) (key : Nat) (m : Machine) (memory : Memory)
    (list : RawSkipList) : Except Fault (Machine × Memory × RawSkipList) := do
  let (x, prev) ← defined (list.findGreaterOrEqual m key
    (some (List.replicate kMaxHeight none)))
  let prev ← defined prev
  if ← defined (isEqual m x key) then
    let m ← defined (setKey m x key)
    .ok (m, memory, list)
  else list.splice allocator key prev m memory

/-- `Iterator::Seek`; 0 is an iterator that is not valid. -/
def iterSeek (m : Machine) (target : Nat) (list : RawSkipList) :
    Option Nat := do
  let (x, _) ← list.findGreaterOrEqual m target none
  let equal ← isEqual m x target
  some (if equal then x else 0)

/-- The keys that a loop from the node `x` with `Next` sees. -/
def enumerate (m : Machine) : Nat → Nat → Option (List Nat)
  | fuel, x =>
      if x = 0 then some []
      else
        match fuel with
        | 0 => none
        | fuel + 1 => do
            let first ← key m x
            let x ← next m x 0
            let rest ← enumerate m fuel x
            some (first :: rest)

/-- What the regions of the arena are for. -/
inductive Cell where
  | node (i : Nat)
  | entry (k : Nat)
deriving DecidableEq

/-- The address of a node, if any. -/
def Points (own : Cell → Option Region) : Option Nat → Nat → Prop
  | none, p => p = 0
  | some i, p => ∃ r, own (.node i) = some r ∧ r.start = p

/-- A pointer leads to the bytes of an entry. -/
def EntryAt (ram : Nat → UInt8) (own : Cell → Option Region) (entry : Bytes)
    (p : Nat) : Prop :=
  ∃ k r, own (.entry k) = some r ∧ r.start = p ∧
    bytes ram r.start r.size = entry ∧
    ∃ key value, Short (key, value) ∧ entry = encodeEntry key value

/-- The node at `a` holds its key and those of its pointers that are `ready`.
The head's key is no entry. -/
structure NodeAt (ram : Nat → UInt8) (own : Cell → Option Region) (i a : Nat)
    (node : SkipNode Bytes) (ready : Nat → Prop) : Prop where
  region : own (.node i) = some ⟨a, 8 + 8 * node.next.length⟩
  link : ∀ level target, node.next[level]? = some target → ready level →
    Points own target (wordAt ram (nextField a level))
  key : i ≠ SkipListNodes.head → EntryAt ram own node.key (wordAt ram a)

/-- The list in memory is the given one. -/
structure Rep (m : Machine) (memory : Memory) (raw : RawSkipList)
    (list : SkipListNodes Bytes) (own : Cell → Option Region)
    (ready : Nat → Nat → Prop) : Prop where
  owns : memory.Owns m own
  node : ∀ i node, list.heap i = some node →
    ∃ a, NodeAt m.ram own i a node (ready i)
  linked : ∀ i node (level n : Nat), list.heap i = some node →
    node.next[level]? = some (some n) → n ≠ SkipListNodes.head
  head : Points own (some SkipListNodes.head) raw.head
  maxHeight : raw.maxHeight = list.maxHeight
  made : raw.made = list.fresh
  fresh : ∀ i, list.fresh ≤ i → own (.node i) = none
  entries : ∃ count, ∀ k, count ≤ k → own (.entry k) = none
  random : raw.random.Valid

/-- All pointers of all nodes. -/
def all : Nat → Nat → Prop := fun _ _ => True

theorem nextField_within {a level count : Nat} (hlevel : level < count) :
    (⟨nextField a level, 8⟩ : Region).Within ⟨a, 8 + 8 * count⟩ := by
  unfold Region.Within Region.stop nextField
  simp only
  omega

theorem keyField_within (a count : Nat) :
    (⟨a, 8⟩ : Region).Within ⟨a, 8 + 8 * count⟩ := by
  unfold Region.Within Region.stop
  simp only
  omega

section Reads

variable {m : Machine} {memory : Memory} {raw : RawSkipList}
  {list : SkipListNodes Bytes} {own : Cell → Option Region}
  {ready : Nat → Nat → Prop}

theorem Points.eq_start {i p : Nat} {r : Region} (h : Points own (some i) p)
    (hr : own (.node i) = some r) : p = r.start := by
  obtain ⟨s, hs, rfl⟩ := h
  rw [hr, Option.some.injEq] at hs
  rw [hs]

theorem next_eq_some {x level : Nat} {target : Option Nat}
    (h : list.next x level = some target) :
    ∃ node, list.heap x = some node ∧ node.next[level]? = some target :=
  Option.bind_eq_some_iff.mp h

theorem key_eq_some {x : Nat} {entry : Bytes} (h : list.key x = some entry) :
    ∃ node, list.heap x = some node ∧ node.key = entry :=
  Option.map_eq_some_iff.mp h

namespace Rep

theorem points_bounds (h : Rep m memory raw list own ready) {i p : Nat}
    (hp : Points own (some i) p) : 0 < p ∧ p < 256 ^ 8 := by
  obtain ⟨r, hr, rfl⟩ := hp
  exact h.owns.bounds hr

/-- No pointer leads to the head. -/
theorem ne_head (h : Rep m memory raw list own ready) {x level n : Nat}
    (hnext : list.next x level = some (some n)) : n ≠ SkipListNodes.head := by
  obtain ⟨node, hheap, hlink⟩ := next_eq_some hnext
  exact h.linked x node level n hheap hlink

theorem next (h : Rep m memory raw list own ready) {x level a : Nat}
    {target : Option Nat} (hnext : list.next x level = some target)
    (ha : Points own (some x) a) (hready : ready x level) :
    ∃ p, RawSkipList.next m a level = some p ∧ Points own target p := by
  obtain ⟨node, hheap, htarget⟩ := next_eq_some hnext
  obtain ⟨b, hnode⟩ := h.node x node hheap
  obtain rfl : a = b := ha.eq_start hnode.region
  have hlevel : level < node.next.length :=
    (List.getElem?_eq_some_iff.mp htarget).1
  exact ⟨_, h.owns.loadWord hnode.region (nextField_within hlevel),
    hnode.link level target htarget hready⟩

theorem key (h : Rep m memory raw list own ready) {x a : Nat} {entry : Bytes}
    (hkey : list.key x = some entry) (hx : x ≠ SkipListNodes.head)
    (ha : Points own (some x) a) :
    ∃ p, RawSkipList.key m a = some p ∧ EntryAt m.ram own entry p := by
  obtain ⟨node, hheap, rfl⟩ := key_eq_some hkey
  obtain ⟨b, hnode⟩ := h.node x node hheap
  obtain rfl : a = b := ha.eq_start hnode.region
  exact ⟨_, h.owns.loadWord hnode.region (keyField_within a _), hnode.key hx⟩

/-- The bytes of an entry and what follows it in its block. -/
theorem readable (h : Rep m memory raw list own ready) {entry : Bytes}
    {p : Nat} (hentry : EntryAt m.ram own entry p) :
    ∃ rest, m.readable p = entry ++ rest := by
  obtain ⟨k, r, hr, rfl, hbytes, _⟩ := hentry
  have hhanded := h.owns.handed _ r hr
  obtain ⟨block, hblock, _, hwithin⟩ := hhanded.within
  obtain ⟨rest, hread⟩ := h.owns.valid.readable_eq hblock hwithin hhanded.pos
  exact ⟨rest, by rw [hread, hbytes]⟩

theorem extractUserKey (h : Rep m memory raw list own ready) {entry : Bytes}
    {p : Nat} (hentry : EntryAt m.ram own entry p) :
    SimpleKV.extractUserKey (m.readable p) = some (userKey entry) := by
  obtain ⟨rest, hread⟩ := h.readable hentry
  obtain ⟨_, _, _, _, _, key, value, hshort, rfl⟩ := hentry
  have hcodec := hshort.entryCodec
  have hkey : userKey (encodeEntry key value) = key := by
    have hself := hcodec.userKey []
    rw [List.append_nil] at hself
    rw [userKey, hself, Option.getD_some]
  rw [hread, hcodec.userKey, hkey]

end Rep

/-- A pointer that a search may be started with. -/
def Probe (m : Machine) (probe : Bytes) (q : Nat) : Prop :=
  extractUserKey (m.readable q) = some (userKey probe)

theorem compare_eq {a b : Bytes} {p q : Nat} (hp : Probe m a p)
    (hq : Probe m b q) : compare m p q = some (comparator a b) := by
  unfold Probe at hp hq
  simp only [compare, hp, hq, Option.bind_eq_bind, Option.bind_some]
  rfl

namespace Rep

theorem keyIsAfterNode (h : Rep m memory raw list own ready) {probe : Bytes}
    {q p : Nat} (hq : Probe m probe q) {target : Option Nat} {after : Bool}
    (hafter : list.keyIsAfterNode comparator probe target = some after)
    (hhead : target ≠ some SkipListNodes.head) (hp : Points own target p) :
    RawSkipList.keyIsAfterNode m q p = some after := by
  cases target with
  | none =>
      rw [show p = 0 from hp]
      exact hafter
  | some n =>
      obtain ⟨entry, hkey, rfl⟩ := Option.map_eq_some_iff.mp hafter
      obtain ⟨e, he, hentry⟩ := h.key hkey (by simpa using hhead) hp
      have hne : p ≠ 0 := (h.points_bounds hp).1.ne'
      simp only [RawSkipList.keyIsAfterNode, if_neg hne, he,
        Option.bind_eq_bind, Option.bind_some,
        compare_eq (h.extractUserKey hentry) hq, Option.map_some]

theorem isEqual (h : Rep m memory raw list own ready) {probe entry : Bytes}
    {q p n : Nat} (hq : Probe m probe q) (hkey : list.key n = some entry)
    (hhead : n ≠ SkipListNodes.head) (hp : Points own (some n) p) :
    RawSkipList.isEqual m p q = some (comparator entry probe == .eq) := by
  obtain ⟨e, he, hentry⟩ := h.key hkey hhead hp
  have hne : p ≠ 0 := (h.points_bounds hp).1.ne'
  simp only [RawSkipList.isEqual, if_neg hne, he, Option.bind_eq_bind,
    Option.bind_some, compare_eq (h.extractUserKey hentry) hq,
    Option.map_some]

end Rep

/-- The array `prev` with addresses for nodes. -/
def PrevAt (own : Cell → Option Region) (prev : SkipListNodes.Prev)
    (raw : Prev) : Prop :=
  List.Forall₂ (fun i a => match i with
    | none => a = none
    | some i => ∃ p, a = some p ∧ Points own (some i) p) prev raw

theorem PrevAt.set {prev : SkipListNodes.Prev} {rawPrev : Prev}
    (h : PrevAt own prev rawPrev) (level : Nat) {i p : Nat}
    (hp : Points own (some i) p) :
    PrevAt own (prev.set level (some i)) (rawPrev.set level (some p)) := by
  induction h generalizing level with
  | nil => exact .nil
  | cons hhead htail ih =>
      cases level with
      | zero => exact .cons ⟨p, rfl, hp⟩ htail
      | succ level => exact .cons hhead (ih level)

/-- The same search in both lists. -/
theorem Rep.findGreaterOrEqualLoop (h : Rep m memory raw list own all)
    {probe : Bytes} {q : Nat} (hq : Probe m probe q) :
    ∀ (fuel : Nat) {x a level : Nat} {prev : Option SkipListNodes.Prev}
      {rawPrev : Option Prev} {target : Option Nat}
      {prev' : Option SkipListNodes.Prev},
      Points own (some x) a → Option.Rel (PrevAt own) prev rawPrev →
      list.findGreaterOrEqualLoop comparator probe fuel x level prev =
        some (target, prev') →
      ∃ p rawPrev', RawSkipList.findGreaterOrEqualLoop m q fuel a level
          rawPrev = some (p, rawPrev') ∧ Points own target p ∧
        Option.Rel (PrevAt own) prev' rawPrev' ∧
        target ≠ some SkipListNodes.head := by
  intro fuel
  induction fuel with
  | zero =>
      intro x a level prev rawPrev target prev' _ _ hloop
      simp [SkipListNodes.findGreaterOrEqualLoop] at hloop
  | succ fuel ih =>
      intro x a level prev rawPrev target prev' ha hprev hloop
      rw [SkipListNodes.findGreaterOrEqualLoop] at hloop
      obtain ⟨t, hnext, hloop⟩ := Option.bind_eq_some_iff.mp hloop
      obtain ⟨after, hafter, hloop⟩ := Option.bind_eq_some_iff.mp hloop
      obtain ⟨p, hp, hpoints⟩ := h.next hnext ha trivial
      have hhead : t ≠ some SkipListNodes.head := by
        rintro rfl
        exact h.ne_head hnext rfl
      have hraw := h.keyIsAfterNode hq hafter hhead hpoints
      rw [RawSkipList.findGreaterOrEqualLoop]
      simp only [hp, Option.bind_eq_bind, Option.bind_some, hraw]
      cases after with
      | true =>
          simp only [if_true] at hloop ⊢
          cases t with
          | none => exact absurd hloop (by simp)
          | some n => exact ih hpoints hprev hloop
      | false =>
          simp only [Bool.false_eq_true, if_false] at hloop ⊢
          have hset : Option.Rel (PrevAt own)
              (prev.map fun prev => prev.set level (some x))
              (rawPrev.map fun prev => prev.set level (some a)) := by
            cases hprev with
            | none => exact .none
            | some hprev => exact .some (hprev.set level ha)
          split_ifs at hloop ⊢ with hzero
          · rw [Option.some.injEq, Prod.mk.injEq] at hloop
            obtain ⟨rfl, rfl⟩ := hloop
            exact ⟨p, _, rfl, hpoints, hset, hhead⟩
          · exact ih ha hset hloop

/-- `Seek` in both lists. -/
theorem Rep.iterSeek (h : Rep m memory raw list own all) {probe : Bytes}
    {q : Nat} (hq : Probe m probe q) {node : Option Nat}
    (hseek : list.iterSeek comparator probe = some node) :
    ∃ p, raw.iterSeek m q = some p ∧ Points own node p ∧
      ∀ n, node = some n → n ≠ SkipListNodes.head ∧
        ∃ entry, list.key n = some entry := by
  obtain ⟨⟨x, prev⟩, hfind, hend⟩ := Option.bind_eq_some_iff.mp hseek
  obtain ⟨p, rawPrev, hraw, hpoints, _, hhead⟩ :=
    h.findGreaterOrEqualLoop hq _ h.head .none hfind
  rw [SkipListNodes.rounds, ← h.made, ← h.maxHeight] at hraw
  have hsearch : raw.findGreaterOrEqual m q none = some (p, rawPrev) := hraw
  unfold RawSkipList.iterSeek
  simp only [hsearch, Option.bind_eq_bind, Option.bind_some]
  cases x with
  | none =>
      rw [show p = 0 from hpoints]
      rw [← Option.some.inj hend]
      exact ⟨0, rfl, rfl, fun n hn => absurd hn (by simp)⟩
  | some n =>
      obtain ⟨other, hkey, hlast⟩ := Option.bind_eq_some_iff.mp hend
      rw [h.isEqual hq hkey (by simpa using hhead) hpoints, Option.bind_some]
      rw [← Option.some.inj hlast]
      by_cases heq : comparator other probe = .eq
      · rw [if_pos heq, if_pos (by simpa using heq)]
        refine ⟨p, rfl, hpoints, fun n' hn => ?_⟩
        rw [← Option.some.inj hn]
        exact ⟨by simpa using hhead, other, hkey⟩
      · rw [if_neg heq, if_neg (by simpa using heq)]
        exact ⟨0, rfl, rfl, fun n hn => absurd hn (by simp)⟩

/-- A loop with `Next` in both lists. -/
theorem Rep.enumerate (h : Rep m memory raw list own all) :
    ∀ (fuel : Nat) {target : Option Nat} {p : Nat} {keys : List Bytes},
      Points own target p → target ≠ some SkipListNodes.head →
      list.enumerate list.iterNext fuel target = some keys →
      ∃ pointers, RawSkipList.enumerate m fuel p = some pointers ∧
        List.Forall₂ (EntryAt m.ram own) keys pointers := by
  intro fuel
  induction fuel with
  | zero =>
      intro target p keys hp _ hkeys
      cases target with
      | none =>
          rw [show p = 0 from hp, ← Option.some.inj hkeys]
          exact ⟨[], rfl, .nil⟩
      | some n => exact absurd hkeys (by simp [SkipListNodes.enumerate])
  | succ fuel ih =>
      intro target p keys hp hhead hkeys
      cases target with
      | none =>
          rw [show p = 0 from hp, ← Option.some.inj hkeys]
          exact ⟨[], rfl, .nil⟩
      | some n =>
          obtain ⟨key, hkey, hthen⟩ := Option.bind_eq_some_iff.mp hkeys
          obtain ⟨target, hnext, hthen⟩ := Option.bind_eq_some_iff.mp hthen
          obtain ⟨rest, hrest, hlast⟩ := Option.bind_eq_some_iff.mp hthen
          obtain ⟨e, he, hentry⟩ := h.key hkey (by simpa using hhead) hp
          obtain ⟨p', hp', hpoints⟩ := h.next hnext hp trivial
          have hhead' : target ≠ some SkipListNodes.head := by
            rintro rfl
            exact h.ne_head hnext rfl
          obtain ⟨pointers, hpointers, hall⟩ := ih hpoints hhead' hrest
          rw [← Option.some.inj hlast]
          refine ⟨e :: pointers, ?_, .cons hentry hall⟩
          rw [RawSkipList.enumerate, if_neg (h.points_bounds hp).1.ne']
          simp only [he, hp', hpointers, Option.bind_eq_bind, Option.bind_some]

end Reads

end RawSkipList

end SimpleKV
