/-
The nodes of a skip list as a sequence of towers.  A tower's pointer at a level
leads to the next tower that is taller than the level, which fixes every level
at once: a search descends to the last smaller tower of each level, and a
splice at these places is an insertion into the sequence.
-/
import SimpleKV.SkipListNodes

namespace SimpleKV

/-- A node of the list: where it lies, its key and its height. -/
structure Tower (Key : Type) where
  addr : Nat
  key : Key
  height : Nat

namespace SkipListNodes

variable {Key : Type}

/-- The pointer at a level of a node that is followed by `rest`. -/
def link (rest : List (Tower Key)) (level : Nat) : Option Nat :=
  (rest.find? fun tower => level < tower.height).map Tower.addr

/-- The last tower taller than the level, or the head. -/
def lastTall (before : List (Tower Key)) (level : Nat) : Nat :=
  ((before.filter fun tower => level < tower.height).getLast?.map
    Tower.addr).getD head

/-- A comparison by a linearly ordered part of the keys. -/
structure Orders {K : Type} [LinearOrder K] (compare : Key → Key → Ordering)
    (rank : Key → K) : Prop where
  lt_iff : ∀ a b, compare a b = .lt ↔ rank a < rank b
  eq_iff : ∀ a b, compare a b = .eq ↔ rank a = rank b

/-- The memory holds these towers, linked at every level. -/
structure Holds (list : SkipListNodes Key) (towers : List (Tower Key)) :
    Prop where
  head_next : ∀ level < kMaxHeight,
    list.next head level = some (link towers level)
  node : ∀ front tower back, towers = front ++ tower :: back →
    list.key tower.addr = some tower.key ∧ ∀ level < tower.height,
      list.next tower.addr level = some (link back level)
  height_pos : ∀ tower ∈ towers, 0 < tower.height
  height_le : ∀ tower ∈ towers, tower.height ≤ list.maxHeight
  maxHeight_pos : 0 < list.maxHeight
  maxHeight_le : list.maxHeight ≤ kMaxHeight
  addrs : (head :: towers.map Tower.addr).Nodup
  addr_lt : ∀ tower ∈ towers, tower.addr < list.fresh
  fresh_eq : list.fresh = towers.length + 1

/-- Where an element stands relative to a marked one. -/
theorem append_cons_cases {α : Type} {before after front back : List α}
    {x y : α} (heq : before ++ x :: after = front ++ y :: back) :
    (y = x ∧ back = after) ∨
      (∃ more, front = before ++ x :: more ∧ after = more ++ y :: back) ∨
      (∃ more, before = front ++ y :: more ∧ back = more ++ x :: after) := by
  rcases List.append_eq_append_iff.mp heq with
    ⟨more, hfront, hback⟩ | ⟨more, hfront, hback⟩
  · cases more with
    | nil =>
        simp only [List.nil_append, List.cons.injEq] at hback
        exact Or.inl ⟨hback.1.symm, hback.2.symm⟩
    | cons first more =>
        simp only [List.cons_append, List.cons.injEq] at hback
        obtain ⟨rfl, hafter⟩ := hback
        exact Or.inr (Or.inl ⟨more, hfront, hafter⟩)
  · cases more with
    | nil =>
        simp only [List.nil_append, List.cons.injEq] at hback
        exact Or.inl hback
    | cons first more =>
        simp only [List.cons_append, List.cons.injEq] at hback
        obtain ⟨rfl, hback⟩ := hback
        exact Or.inr (Or.inr ⟨more, hfront, hback⟩)

section Levels

variable {before mid after rest : List (Tower Key)} {level : Nat}

theorem link_append_of_none
    (hnone : ∀ tower ∈ mid, ¬ level < tower.height) :
    link (mid ++ rest) level = link rest level := by
  have hfind : mid.find? (fun tower => level < tower.height) = none := by
    rw [List.find?_eq_none]
    intro tower htower
    simpa using hnone tower htower
  rw [link, List.find?_append, hfind, Option.none_or, link]

theorem link_append_of_mem {tower : Tower Key} (hmem : tower ∈ mid)
    (htall : level < tower.height) :
    link (mid ++ rest) level = link mid level := by
  have hsome : (mid.find? fun tower => level < tower.height).isSome := by
    rw [List.find?_isSome]
    exact ⟨tower, hmem, by simpa using htall⟩
  rw [link, List.find?_append, Option.or_of_isSome hsome, link]

theorem link_cons_of_tall {tower : Tower Key} (htall : level < tower.height) :
    link (tower :: rest) level = some tower.addr := by
  simp [link, htall]

/-- A pointer leads to a tower of the rest. -/
theorem exists_of_link {n : Nat} (hlink : link rest level = some n) :
    ∃ front tower back, rest = front ++ tower :: back ∧ tower.addr = n ∧
      level < tower.height ∧ ∀ other ∈ front, ¬ level < other.height := by
  simp only [link, Option.map_eq_some_iff, List.find?_eq_some_iff_append] at hlink
  obtain ⟨tower, ⟨htall, front, back, rfl, hfront⟩, rfl⟩ := hlink
  exact ⟨front, tower, back, rfl, rfl, by simpa using htall, fun other hother =>
    by simpa using hfront other hother⟩

theorem lastTall_append_of_none
    (hnone : ∀ tower ∈ mid, ¬ level < tower.height) :
    lastTall (before ++ mid) level = lastTall before level := by
  have hfilter : mid.filter (fun tower => level < tower.height) = [] := by
    rw [List.filter_eq_nil_iff]
    intro tower htower
    simpa using hnone tower htower
  rw [lastTall, List.filter_append, hfilter, List.append_nil, lastTall]

theorem lastTall_concat {tower : Tower Key} (htall : level < tower.height) :
    lastTall (before ++ [tower]) level = tower.addr := by
  simp [lastTall, List.filter_append, htall]

theorem lastTall_nil : lastTall ([] : List (Tower Key)) level = head :=
  rfl

/-- With a tall tower in it, the last part decides. -/
theorem lastTall_mem_of_mem (before : List (Tower Key)) {tower : Tower Key}
    (hmem : tower ∈ mid) (htall : level < tower.height) :
    lastTall (before ++ mid) level ∈ mid.map Tower.addr := by
  have hfilter : mid.filter (fun tower => level < tower.height) ≠ [] := by
    intro hnil
    rw [List.filter_eq_nil_iff] at hnil
    exact hnil tower hmem (by simpa using htall)
  have hlast := List.getLast_mem hfilter
  rw [lastTall, List.filter_append, List.getLast?_append_of_ne_nil _ hfilter,
    List.getLast?_eq_some_getLast hfilter]
  exact List.mem_map_of_mem (List.mem_of_mem_filter hlast)

end Levels

/-- `x` is the head, with all towers ahead, or the last tower of `front`; it has
a pointer at the level. -/
inductive Position : List (Tower Key) → Nat → Nat → Prop where
  | head {level : Nat} : level < kMaxHeight → Position [] head level
  | tower {front : List (Tower Key)} {tower : Tower Key} {level : Nat} :
      level < tower.height → Position (front ++ [tower]) tower.addr level

variable {list : SkipListNodes Key} {towers : List (Tower Key)}

theorem Position.down {front : List (Tower Key)} {x level : Nat}
    (h : Position front x level) : Position front x (level - 1) := by
  cases h with
  | head hlevel => exact .head (by omega)
  | tower hlevel => exact .tower (by omega)

theorem Position.lastTall_eq {front mid : List (Tower Key)} {x level : Nat}
    (h : Position front x level)
    (hnone : ∀ tower ∈ mid, ¬ level < tower.height) :
    lastTall (front ++ mid) level = x := by
  rw [lastTall_append_of_none hnone]
  cases h with
  | head _ => exact lastTall_nil
  | tower hlevel => exact lastTall_concat hlevel

theorem Holds.next_eq (h : Holds list towers) {front rest : List (Tower Key)}
    {x level : Nat} (hsplit : towers = front ++ rest)
    (hpos : Position front x level) :
    list.next x level = some (link rest level) := by
  cases hpos with
  | head hlevel =>
      rw [List.nil_append] at hsplit
      rw [← hsplit]
      exact h.head_next level hlevel
  | tower hlevel =>
      rw [List.append_assoc, List.singleton_append] at hsplit
      exact (h.node _ _ _ hsplit).2 level hlevel

/-- What one round of a search sees in front of the towers `mid` it may still
pass: the next tall one of them, or none, and then it stands at the last tall
tower. -/
theorem Holds.round (h : Holds list towers)
    {front mid after : List (Tower Key)} {x level : Nat}
    (hsplit : towers = front ++ mid ++ after) (hpos : Position front x level) :
    (∃ skipped tower more, mid = skipped ++ tower :: more ∧
      list.next x level = some (some tower.addr) ∧
      list.key tower.addr = some tower.key ∧
      Position (front ++ skipped ++ [tower]) tower.addr level) ∨
    ((∀ tower ∈ mid, ¬ level < tower.height) ∧
      list.next x level = some (link after level) ∧
      lastTall (front ++ mid) level = x) := by
  have hnext := h.next_eq (by rw [hsplit, List.append_assoc]) hpos
  by_cases hnone : ∀ tower ∈ mid, ¬ level < tower.height
  · right
    rw [link_append_of_none hnone] at hnext
    exact ⟨hnone, hnext, hpos.lastTall_eq hnone⟩
  · left
    push Not at hnone
    obtain ⟨tall, hmem, htall⟩ := hnone
    rw [link_append_of_mem hmem htall] at hnext
    cases hlink : link mid level with
    | none =>
        simp only [link, Option.map_eq_none_iff, List.find?_eq_none] at hlink
        exact absurd (hlink tall hmem) (by simpa using htall)
    | some n =>
        obtain ⟨skipped, tower, more, rfl, rfl, hlevel, _⟩ := exists_of_link hlink
        rw [hlink] at hnext
        refine ⟨skipped, tower, more, rfl, hnext, ?_, .tower hlevel⟩
        exact (h.node (front ++ skipped) tower (more ++ after) (by
          rw [hsplit]
          simp)).1

theorem Holds.key_of_link (h : Holds list towers)
    {front rest : List (Tower Key)} (hsplit : towers = front ++ rest)
    {level n : Nat} (hlink : link rest level = some n) :
    ∃ tower ∈ rest, tower.addr = n ∧ list.key n = some tower.key := by
  obtain ⟨skipped, tower, back, rfl, rfl, _⟩ := exists_of_link hlink
  refine ⟨tower, by simp, rfl, ?_⟩
  exact (h.node (front ++ skipped) tower back (by rw [hsplit]; simp)).1

/-! ### Searches -/

/-- The entries of `prev` that a search from a level down fills in. -/
def recordPrev (before : List (Tower Key)) : Nat → Prev → Prev
  | 0, prev => prev.set 0 (some (lastTall before 0))
  | level + 1, prev =>
      recordPrev before level (prev.set (level + 1)
        (some (lastTall before (level + 1))))

section Search

variable {K : Type} [LinearOrder K] {compare : Key → Key → Ordering}
  {rank : Key → K} {key : Key} {before after : List (Tower Key)}

/-- `towers` cut at a key: the smaller ones, then the others. -/
structure Cut (rank : Key → K) (key : Key)
    (towers before after : List (Tower Key)) : Prop where
  split : towers = before ++ after
  lt : ∀ tower ∈ before, rank tower.key < rank key
  not_lt : ∀ tower ∈ after, ¬ rank tower.key < rank key

theorem findGreaterOrEqualLoop_eq (h : Holds list towers)
    (hcompare : Orders compare rank) (hcut : Cut rank key towers before after) :
    ∀ (fuel x level : Nat) (prev : Option Prev) (front mid : List (Tower Key)),
      before = front ++ mid → Position front x level →
      mid.length + level < fuel →
      list.findGreaterOrEqualLoop compare key fuel x level prev =
        some (link after 0, prev.map (recordPrev before level)) := by
  intro fuel
  induction fuel with
  | zero =>
      intro x level prev front mid _ _ hfuel
      omega
  | succ fuel ih =>
      intro x level prev front mid hbefore hpos hfuel
      rw [findGreaterOrEqualLoop]
      rcases h.round (by rw [hcut.split, hbefore]) hpos with
        ⟨skipped, tower, more, rfl, hnext, hkey, hpos'⟩ |
        ⟨hnone, hnext, hlast⟩
      · have hlt := (hcompare.lt_iff tower.key key).mpr
          (hcut.lt tower (by simp [hbefore]))
        simp only [hnext, keyIsAfterNode, hkey, hlt, Option.bind_eq_bind,
          Option.bind_some, Option.map_some, beq_self_eq_true, if_true]
        apply ih _ _ _ _ more _ hpos'
        · simp only [List.length_append, List.length_cons] at hfuel
          omega
        · rw [hbefore]
          simp
      · have hstop : list.keyIsAfterNode compare key (link after level) =
            some false := by
          cases hlink : link after level with
          | none => rfl
          | some n =>
              obtain ⟨tower, hmem, rfl, hkey⟩ := h.key_of_link hcut.split hlink
              have hnlt : compare tower.key key ≠ .lt := fun hlt =>
                hcut.not_lt tower hmem ((hcompare.lt_iff _ _).mp hlt)
              simp [keyIsAfterNode, hkey, hnlt]
        rw [← hbefore] at hlast
        simp only [hnext, hstop, Option.bind_eq_bind, Option.bind_some,
          Bool.false_eq_true, if_false]
        cases level with
        | zero => simp [recordPrev, hlast]
        | succ level =>
            rw [if_neg (Nat.succ_ne_zero level), Nat.add_sub_cancel,
              ih x level _ front mid hbefore hpos.down (by omega),
              Option.map_map]
            simp only [Function.comp_def, recordPrev, hlast]

/-- The start of every search. -/
theorem Holds.position_head (h : Holds list towers) :
    Position ([] : List (Tower Key)) head (list.maxHeight - 1) := by
  have hpos := h.maxHeight_pos
  have hle := h.maxHeight_le
  exact .head (by omega)

theorem Holds.length_lt_rounds (h : Holds list towers)
    (hsplit : towers = before ++ after) :
    before.length + (list.maxHeight - 1) < list.rounds := by
  have hlength := congrArg List.length hsplit
  rw [List.length_append] at hlength
  rw [rounds, h.fresh_eq]
  omega

theorem findGreaterOrEqual_eq (h : Holds list towers)
    (hcompare : Orders compare rank) (hcut : Cut rank key towers before after)
    (prev : Option Prev) :
    list.findGreaterOrEqual compare key prev =
      some (link after 0, prev.map (recordPrev before (list.maxHeight - 1))) :=
  findGreaterOrEqualLoop_eq h hcompare hcut _ _ _ _ [] before rfl
    h.position_head (h.length_lt_rounds hcut.split)

theorem findLessThanLoop_eq (h : Holds list towers)
    (hcompare : Orders compare rank) (hcut : Cut rank key towers before after) :
    ∀ (fuel x level : Nat) (front mid : List (Tower Key)),
      before = front ++ mid → Position front x level →
      mid.length + level < fuel →
      list.findLessThanLoop compare key fuel x level =
        some (lastTall before 0) := by
  intro fuel
  induction fuel with
  | zero =>
      intro x level front mid _ _ hfuel
      omega
  | succ fuel ih =>
      intro x level front mid hbefore hpos hfuel
      have hsplit : towers = front ++ mid ++ after := by
        rw [hcut.split, hbefore]
      -- the assertion: every tower behind the search is smaller
      have hassert : list.isBefore compare key x = some true := by
        unfold isBefore
        cases hpos with
        | head _ => simp
        | @tower start tower _ _ =>
            have hkey := (h.node start tower (mid ++ after) (by
              rw [hsplit]
              simp)).1
            have hlt := (hcompare.lt_iff tower.key key).mpr
              (hcut.lt tower (by simp [hbefore]))
            split_ifs
            · rfl
            · simp [hkey, hlt]
      rw [findLessThanLoop, hassert]
      rcases h.round hsplit hpos with
        ⟨skipped, tower, more, rfl, hnext, hkey, hpos'⟩ |
        ⟨hnone, hnext, hlast⟩
      · have hlt := (hcompare.lt_iff tower.key key).mpr
          (hcut.lt tower (by simp [hbefore]))
        simp only [hnext, hkey, hlt, Option.bind_eq_bind, Option.bind_some,
          if_true, ne_eq, not_true_eq_false, if_false]
        apply ih _ _ _ more _ hpos'
        · simp only [List.length_append, List.length_cons] at hfuel
          omega
        · rw [hbefore]
          simp
      · rw [← hbefore] at hlast
        have hdown : (if level = 0 then some x
            else list.findLessThanLoop compare key fuel x (level - 1)) =
            some (lastTall before 0) := by
          split_ifs with hlevel
          · rw [← hlast, hlevel]
          · exact ih x (level - 1) front mid hbefore hpos.down (by omega)
        simp only [hnext, Option.bind_eq_bind, Option.bind_some, if_true]
        cases hlink : link after level with
        | none => exact hdown
        | some n =>
            obtain ⟨tower, hmem, rfl, hkey⟩ := h.key_of_link hcut.split hlink
            have hnlt : compare tower.key key ≠ .lt := fun hlt =>
              hcut.not_lt tower hmem ((hcompare.lt_iff _ _).mp hlt)
            simpa only [hkey, Option.bind_some, if_pos hnlt] using hdown

theorem findLessThan_eq (h : Holds list towers)
    (hcompare : Orders compare rank)
    (hcut : Cut rank key towers before after) :
    list.findLessThan compare key = some (lastTall before 0) :=
  findLessThanLoop_eq h hcompare hcut _ _ _ [] before rfl h.position_head
    (h.length_lt_rounds hcut.split)

end Search

theorem findLastLoop_eq (h : Holds list towers) :
    ∀ (fuel x level : Nat) (front mid : List (Tower Key)),
      towers = front ++ mid → Position front x level →
      mid.length + level < fuel →
      list.findLastLoop fuel x level = some (lastTall towers 0) := by
  intro fuel
  induction fuel with
  | zero =>
      intro x level front mid _ _ hfuel
      omega
  | succ fuel ih =>
      intro x level front mid hsplit hpos hfuel
      rw [findLastLoop]
      have hall : towers = front ++ mid ++ [] := by rw [List.append_nil, hsplit]
      rcases h.round hall hpos with
        ⟨skipped, tower, more, rfl, hnext, _, hpos'⟩ | ⟨hnone, hnext, hlast⟩
      · simp only [hnext, Option.bind_eq_bind, Option.bind_some]
        apply ih _ _ _ more _ hpos'
        · simp only [List.length_append, List.length_cons] at hfuel
          omega
        · rw [hsplit]
          simp
      · rw [← hsplit] at hlast
        simp only [hnext, link, List.find?_nil, Option.map_none,
          Option.bind_eq_bind, Option.bind_some]
        split_ifs with hlevel
        · rw [← hlast, hlevel]
        · exact ih x (level - 1) front mid hsplit hpos.down (by omega)

theorem findLast_eq (h : Holds list towers) :
    list.findLast = some (lastTall towers 0) :=
  findLastLoop_eq h _ _ _ [] towers rfl h.position_head
    (h.length_lt_rounds (List.append_nil towers).symm)

theorem exists_setNext {x level : Nat} {old : Option Nat}
    (hold : list.next x level = some old) (target : Option Nat) :
    ∃ list' : SkipListNodes Key, list.setNext x level target = some list' ∧
      list'.key = list.key ∧ list'.maxHeight = list.maxHeight ∧
      list'.fresh = list.fresh ∧
      ∀ a l, list'.next a l =
        if a = x ∧ l = level then some target else list.next a l := by
  cases hnode : list.heap x with
  | none => simp [next, hnode] at hold
  | some node =>
      have hlevel : level < node.next.length := by
        simp only [next, hnode, Option.bind_eq_bind, Option.bind_some] at hold
        exact (List.getElem?_eq_some_iff.mp hold).1
      refine ⟨{ list with
        heap := Function.update list.heap x
          (some { node with next := node.next.set level target }) },
        ?_, ?_, rfl, rfl, ?_⟩
      · simp [setNext, hnode, hlevel]
      · funext a
        by_cases ha : a = x
        · subst ha
          simp [key, hnode]
        · simp [key, ha]
      · intro a l
        by_cases ha : a = x
        · subst ha
          by_cases hl : l = level
          · subst hl
            simp [next, hlevel]
          · simp [next, hnode, hl, List.getElem?_set_ne (Ne.symm hl)]
        · simp [next, ha]

theorem exists_setKey {x : Nat} {old : Key} (hold : list.key x = some old)
    (key : Key) :
    ∃ list' : SkipListNodes Key, list.setKey x key = some list' ∧
      list'.key = Function.update list.key x (some key) ∧
      list'.next = list.next ∧ list'.maxHeight = list.maxHeight ∧
      list'.fresh = list.fresh := by
  cases hnode : list.heap x with
  | none => simp [SkipListNodes.key, hnode] at hold
  | some node =>
      refine ⟨{ list with
        heap := Function.update list.heap x (some { node with key }) },
        ?_, ?_, ?_, rfl, rfl⟩
      · simp [setKey, hnode]
      · funext a
        by_cases ha : a = x
        · subst ha
          simp [SkipListNodes.key]
        · simp [SkipListNodes.key, ha]
      · funext a l
        by_cases ha : a = x
        · subst ha
          simp [next, hnode]
        · simp [next, ha]

theorem newNode_key (list : SkipListNodes Key) (key : Key) (height : Nat) :
    (list.newNode key height).key =
      Function.update list.key list.fresh (some key) := by
  funext a
  by_cases ha : a = list.fresh
  · subst ha
    simp [newNode, SkipListNodes.key]
  · simp [newNode, SkipListNodes.key, ha]

theorem newNode_next_of_ne (list : SkipListNodes Key) (key : Key)
    (height : Nat) {a : Nat} (ha : a ≠ list.fresh) (level : Nat) :
    (list.newNode key height).next a level = list.next a level := by
  simp [newNode, next, ha]

theorem newNode_next_self (list : SkipListNodes Key) (key : Key)
    {height level : Nat} (hlevel : level < height) :
    (list.newNode key height).next list.fresh level = some none := by
  simp [newNode, next, hlevel]

/-- The splicing loop works level by level: the new node takes the pointer of
its predecessor, which then points at it. -/
theorem exists_spliceLoop {prev : Prev} {x : Nat} (pred : Nat → Nat) :
    ∀ (count i : Nat) (list : SkipListNodes Key),
      (∀ l, i ≤ l → l < i + count → prev[l]? = some (some (pred l)) ∧
        pred l ≠ x ∧ (list.next (pred l) l).isSome ∧
        (list.next x l).isSome) →
      ∃ list', spliceLoop prev x count i list = some list' ∧
        list'.key = list.key ∧ list'.maxHeight = list.maxHeight ∧
        list'.fresh = list.fresh ∧
        ∀ a l, list'.next a l =
          if i ≤ l ∧ l < i + count then
            if a = x then list.next (pred l) l
            else if a = pred l then some (some x) else list.next a l
          else list.next a l := by
  intro count
  induction count with
  | zero =>
      intro i list _
      refine ⟨list, rfl, rfl, rfl, rfl, fun a l => ?_⟩
      rw [if_neg (by omega)]
  | succ count ih =>
      intro i list hlevels
      obtain ⟨hprev, hne, hpred, hx⟩ := hlevels i le_rfl (by omega)
      obtain ⟨after, hafter⟩ := Option.isSome_iff_exists.mp hpred
      obtain ⟨old, hold⟩ := Option.isSome_iff_exists.mp hx
      obtain ⟨list1, h1, hkey1, hmax1, hfresh1, hnext1⟩ :=
        exists_setNext hold after
      have hpred1 : list1.next (pred i) i = some after := by
        rw [hnext1, if_neg (by simp [hne]), hafter]
      obtain ⟨list2, h2, hkey2, hmax2, hfresh2, hnext2⟩ :=
        exists_setNext hpred1 (some x)
      have hother : ∀ a l, l ≠ i → list2.next a l = list.next a l := by
        intro a l hl
        rw [hnext2, if_neg (by simp [hl]), hnext1, if_neg (by simp [hl])]
      obtain ⟨list', hloop, hkey', hmax', hfresh', hnext'⟩ :=
        ih (i + 1) list2 (by
          intro l hl hlt
          obtain ⟨hprev', hne', hpred', hx'⟩ := hlevels l (by omega) (by omega)
          rw [hother _ l (by omega), hother _ l (by omega)]
          exact ⟨hprev', hne', hpred', hx'⟩)
      refine ⟨list', ?_, hkey'.trans (hkey2.trans hkey1),
        hmax'.trans (hmax2.trans hmax1), hfresh'.trans (hfresh2.trans hfresh1),
        ?_⟩
      · simp only [spliceLoop, hprev, hafter, h1, h2, Option.bind_eq_bind,
          Option.bind_some]
        exact hloop
      · intro a l
        rw [hnext' a l]
        by_cases hl : l = i
        · subst hl
          rw [if_neg (by omega), if_pos (by omega), hnext2]
          by_cases ha : a = x
          · subst ha
            rw [if_neg (by simp [Ne.symm hne]), hnext1, if_pos ⟨rfl, rfl⟩,
              if_pos rfl, hafter]
          · rw [if_neg ha]
            by_cases hp : a = pred l
            · rw [if_pos ⟨hp, rfl⟩, if_pos hp]
            · rw [if_neg (by simp [hp]), if_neg hp, hnext1,
                if_neg (by simp [ha])]
        · have hrange : (i + 1 ≤ l ∧ l < i + 1 + count) ↔
              (i ≤ l ∧ l < i + (count + 1)) := by omega
          simp only [hrange, hother _ l hl]

/-! ### Insertion -/

theorem getElem?_raiseLoop (count i l : Nat) (prev : Prev) :
    (raiseLoop count i prev)[l]? =
      if i ≤ l ∧ l < i + count ∧ l < prev.length then some (some head)
      else prev[l]? := by
  induction count generalizing i prev with
  | zero => rw [raiseLoop, if_neg (by omega)]
  | succ count ih =>
      rw [raiseLoop, ih, List.length_set]
      by_cases hl : i = l
      · subst hl
        by_cases hlength : i < prev.length
        · rw [if_neg (by omega), if_pos (by omega),
            List.getElem?_set_self hlength]
        · rw [if_neg (by omega), if_neg (by omega),
            List.getElem?_eq_none (by simpa using hlength),
            List.getElem?_eq_none (by simpa using hlength)]
      · rw [List.getElem?_set_ne hl]
        congr 1
        simp only [eq_iff_iff]
        omega

theorem length_recordPrev (before : List (Tower Key)) (level : Nat)
    (prev : Prev) : (recordPrev before level prev).length = prev.length := by
  induction level generalizing prev with
  | zero => rw [recordPrev, List.length_set]
  | succ level ih => rw [recordPrev, ih, List.length_set]

theorem getElem?_recordPrev (before : List (Tower Key)) (level l : Nat)
    (prev : Prev) :
    (recordPrev before level prev)[l]? =
      if l ≤ level ∧ l < prev.length then some (some (lastTall before l))
      else prev[l]? := by
  have hset (i : Nat) (prev : Prev) :
      (prev.set i (some (lastTall before i)))[l]? =
        if l = i ∧ l < prev.length then some (some (lastTall before l))
        else prev[l]? := by
    by_cases hl : i = l
    · subst hl
      by_cases hlength : i < prev.length
      · rw [if_pos ⟨rfl, hlength⟩, List.getElem?_set_self hlength]
      · rw [if_neg (by simp [hlength]),
          List.getElem?_eq_none (by simpa using hlength),
          List.getElem?_eq_none (by simpa using hlength)]
    · rw [List.getElem?_set_ne hl, if_neg (by simp [Ne.symm hl])]
  induction level generalizing prev with
  | zero =>
      rw [recordPrev, hset]
      simp only [Nat.le_zero]
  | succ level ih =>
      rw [recordPrev, ih, hset, List.length_set]
      by_cases hlevel : l ≤ level ∧ l < prev.length
      · rw [if_pos hlevel, if_pos (by omega)]
      · rw [if_neg hlevel]
        congr 1
        simp only [eq_iff_iff]
        omega

/-- Where a search stands at a level before the key. -/
theorem exists_position (before : List (Tower Key)) {level : Nat}
    (hlevel : level < kMaxHeight) :
    ∃ front mid, before = front ++ mid ∧
      (∀ tower ∈ mid, ¬ level < tower.height) ∧
      Position front (lastTall before level) level := by
  induction before using List.reverseRecOn with
  | nil => exact ⟨[], [], rfl, by simp, .head hlevel⟩
  | append_singleton before tower ih =>
      by_cases htall : level < tower.height
      · refine ⟨before ++ [tower], [], by simp, by simp, ?_⟩
        rw [lastTall_concat htall]
        exact .tower htall
      · obtain ⟨front, mid, rfl, hnone, hpos⟩ := ih
        refine ⟨front, mid ++ [tower], by simp, ?_, ?_⟩
        · intro other hother
          rcases List.mem_append.mp hother with hother | hother
          · exact hnone other hother
          · rw [List.mem_singleton.mp hother]
            exact htall
        · rwa [lastTall_append_of_none (by simpa using htall)]

theorem mem_of_position {front : List (Tower Key)} {x level : Nat}
    (h : Position front x level) : x ∈ head :: front.map Tower.addr := by
  cases h with
  | head _ => exact List.mem_cons_self
  | tower _ => simp

section Splice

variable {before after : List (Tower Key)} {level : Nat}

theorem Holds.next_lastTall (h : Holds list towers)
    (hsplit : towers = before ++ after) (hlevel : level < kMaxHeight) :
    list.next (lastTall before level) level = some (link after level) := by
  obtain ⟨front, mid, rfl, hnone, hpos⟩ := exists_position before hlevel
  rw [List.append_assoc] at hsplit
  rw [h.next_eq hsplit hpos, link_append_of_none hnone]

theorem Holds.lt_fresh (h : Holds list towers)
    {front rest : List (Tower Key)} (hsplit : towers = front ++ rest) {x : Nat}
    (hpos : Position front x level) : x < list.fresh := by
  rcases List.mem_cons.mp (mem_of_position hpos) with rfl | hx
  · rw [h.fresh_eq]
    exact Nat.succ_pos _
  · obtain ⟨tower, htower, rfl⟩ := List.mem_map.mp hx
    exact h.addr_lt tower (by rw [hsplit]; exact List.mem_append_left _ htower)

theorem Holds.addr_ne_lastTall (h : Holds list towers)
    (hsplit : towers = before ++ after) {tower : Tower Key}
    (htower : tower ∈ after) (hlevel : level < kMaxHeight) :
    tower.addr ≠ lastTall before level := by
  obtain ⟨front, mid, hbefore, _, hpos⟩ := exists_position before hlevel
  intro heq
  have hnodup := h.addrs
  rw [hsplit, List.map_append, ← List.cons_append, List.nodup_append] at hnodup
  refine hnodup.2.2 (lastTall before level) ?_ tower.addr
    (List.mem_map_of_mem htower) heq.symm
  have hpre := mem_of_position hpos
  rcases List.mem_cons.mp hpre with hpre | hpre
  · rw [hpre]
    exact List.mem_cons_self
  · apply List.mem_cons_of_mem
    have hsub : front.map Tower.addr ⊆ before.map Tower.addr := by
      rw [hbefore, List.map_append]
      exact List.subset_append_left _ _
    exact hsub hpre

/-- A tower that is not taller than the level does not show there. -/
theorem link_append_cons_of_not_tall {mid rest : List (Tower Key)}
    {tower : Tower Key} (htall : ¬ level < tower.height) :
    link (mid ++ tower :: rest) level = link (mid ++ rest) level := by
  simp [link, List.find?_append, htall]

/-- The pointers after a splice, at a place in front of the new tower. -/
theorem Holds.next_spliced (h : Holds list towers)
    (hsplit : towers = before ++ after) (new : Tower Key)
    {next' : Nat → Nat → Option (Option Nat)}
    (hnew : new.addr = list.fresh)
    (hnext' : ∀ a l, a ≠ list.fresh → next' a l =
      if l < new.height ∧ a = lastTall before l then some (some list.fresh)
      else list.next a l)
    {front mid : List (Tower Key)} (hbefore : before = front ++ mid) {x : Nat}
    (hpos : Position front x level) :
    next' x level = some (link (mid ++ new :: after) level) := by
  have hrest : towers = front ++ (mid ++ after) := by
    rw [hsplit, hbefore, List.append_assoc]
  have hold := h.next_eq hrest hpos
  rw [hnext' x level (h.lt_fresh hrest hpos).ne]
  by_cases hheight : level < new.height
  · by_cases hnone : ∀ tower ∈ mid, ¬ level < tower.height
    · have hlast : lastTall before level = x := by
        rw [hbefore]
        exact hpos.lastTall_eq hnone
      rw [if_pos ⟨hheight, hlast.symm⟩, link_append_of_none hnone,
        link_cons_of_tall hheight, hnew]
    · push Not at hnone
      obtain ⟨tower, htower, htall⟩ := hnone
      have hlast : x ≠ lastTall before level := by
        rintro rfl
        have hin := lastTall_mem_of_mem front htower htall
        rw [← hbefore] at hin
        have hnodup := h.addrs
        rw [hsplit, hbefore, List.append_assoc, List.map_append,
          ← List.cons_append, List.map_append, List.nodup_append] at hnodup
        exact hnodup.2.2 _ (mem_of_position hpos) _ (List.mem_append_left _ hin) rfl
      rw [if_neg (by simp [hlast]), hold, link_append_of_mem htower htall,
        link_append_of_mem htower htall]
  · rw [if_neg (by simp [hheight]), hold,
      link_append_cons_of_not_tall hheight]

theorem Holds.lastTall_lt_fresh (h : Holds list towers)
    (hsplit : towers = before ++ after) (hlevel : level < kMaxHeight) :
    lastTall before level < list.fresh := by
  obtain ⟨front, mid, hbefore, _, hposition⟩ := exists_position before hlevel
  have hrest : towers = front ++ (mid ++ after) := by
    rw [hsplit, hbefore, List.append_assoc]
  exact h.lt_fresh hrest hposition

/-- The next node is none of those in the list. -/
theorem Holds.fresh_not_mem (h : Holds list towers) :
    list.fresh ∉ head :: towers.map Tower.addr := by
  rw [List.mem_cons, not_or]
  constructor
  · rw [h.fresh_eq]
    exact Nat.succ_ne_zero _
  · intro hin
    obtain ⟨tower, htower, haddr⟩ := List.mem_map.mp hin
    exact (h.addr_lt tower htower).ne haddr

/-- The search and the loop above `max_height_` fill in the predecessor of the
new node at every level of its own. -/
theorem Holds.getElem?_prev (h : Holds list towers)
    (hsplit : towers = before ++ after) {height : Nat}
    (hheight : height ≤ kMaxHeight) (hlevel : level < height) :
    (raiseLoop (height - list.maxHeight) list.maxHeight (recordPrev before
      (list.maxHeight - 1) (List.replicate kMaxHeight none)))[level]? =
      some (some (lastTall before level)) := by
  have hmaxPos := h.maxHeight_pos
  have hmaxLe := h.maxHeight_le
  rw [getElem?_raiseLoop, length_recordPrev, List.length_replicate,
    getElem?_recordPrev, List.length_replicate]
  by_cases hlow : level < list.maxHeight
  · rw [if_neg (by omega), if_pos (by omega)]
  · -- no tower is taller than a level above `max_height_`
    have hnone : ∀ tower ∈ before, ¬ level < tower.height := by
      intro tower htower
      have hle := h.height_le tower (by rw [hsplit]; simp [htower])
      omega
    have hhead : lastTall ([] ++ before) level = head :=
      lastTall_append_of_none hnone
    rw [List.nil_append] at hhead
    rw [if_pos (by omega), hhead]

/-- What splicing in a new node does to the nodes: its predecessors lead to it,
it leads on to where they led, and the others keep their pointers. -/
structure Spliced (list list' : SkipListNodes Key)
    (before after : List (Tower Key)) (key : Key) (height : Nat) : Prop where
  key_new : list'.key list.fresh = some key
  key_old : ∀ a, a ≠ list.fresh → list'.key a = list.key a
  next_new : ∀ l < height, list'.next list.fresh l = some (link after l)
  next_old : ∀ a l, a ≠ list.fresh → list'.next a l =
    if l < height ∧ a = lastTall before l then some (some list.fresh)
    else list.next a l
  maxHeight : list'.maxHeight = max list.maxHeight height
  fresh : list'.fresh = list.fresh + 1

theorem Holds.exists_spliced (h : Holds list towers)
    (hsplit : towers = before ++ after) (key : Key) {height : Nat}
    (hheight : height ≤ kMaxHeight) :
    ∃ list', list.splice key (recordPrev before (list.maxHeight - 1)
        (List.replicate kMaxHeight none)) height = some list' ∧
      Spliced list list' before after key height := by
  have hlast (l : Nat) (hl : l < height) : lastTall before l ≠ list.fresh :=
    (h.lastTall_lt_fresh hsplit (hl.trans_le hheight)).ne
  have hnext (l : Nat) (hl : l < height) :
      list.next (lastTall before l) l = some (link after l) :=
    h.next_lastTall hsplit (hl.trans_le hheight)
  let list0 : SkipListNodes Key :=
    { list with
      maxHeight := if list.maxHeight < height then height
        else list.maxHeight }.newNode key height
  have hnext0 (a l : Nat) (ha : a ≠ list.fresh) :
      list0.next a l = list.next a l :=
    newNode_next_of_ne _ key height ha l
  obtain ⟨list', hloop, hkey', hmax', hfresh', hnext'⟩ := exists_spliceLoop
    (fun l => lastTall before l) height 0 list0 (by
      intro l _ hl
      rw [Nat.zero_add] at hl
      refine ⟨h.getElem?_prev hsplit hheight hl, hlast l hl, ?_, ?_⟩
      · rw [hnext0 _ _ (hlast l hl), hnext l hl]
        rfl
      · have hself : list0.next list.fresh l = some none :=
          newNode_next_self _ key hl
        rw [hself]
        rfl)
  refine ⟨list', hloop, ?_, fun a ha => ?_, fun l hl => ?_, fun a l ha => ?_,
    ?_, hfresh'⟩
  · rw [hkey', newNode_key]
    exact Function.update_self _ _ _
  · rw [hkey', newNode_key]
    exact Function.update_of_ne ha _ _
  · rw [hnext', if_pos (by omega), if_pos rfl, hnext0 _ _ (hlast l hl),
      hnext l hl]
  · rw [hnext' a l, hnext0 a l ha]
    by_cases hl : l < height
    · rw [if_pos (by omega), if_neg ha]
      by_cases hpred : a = lastTall before l
      · rw [if_pos hpred, if_pos ⟨hl, hpred⟩]
      · rw [if_neg hpred, if_neg (by simp [hpred])]
    · rw [if_neg (by omega), if_neg (by simp [hl])]
  · rw [hmax']
    change (if list.maxHeight < height then height else list.maxHeight) = _
    split_ifs <;> omega

namespace Spliced

variable {list' : SkipListNodes Key} {key : Key} {height : Nat}

/-- Keys and pointers of the towers after a splice. -/
theorem node (hspliced : Spliced list list' before after key height)
    (h : Holds list towers) (hsplit : towers = before ++ after)
    {front back : List (Tower Key)} {tower : Tower Key}
    (heq : before ++ ⟨list.fresh, key, height⟩ :: after =
      front ++ tower :: back) :
    list'.key tower.addr = some tower.key ∧
      ∀ level < tower.height,
        list'.next tower.addr level = some (link back level) := by
  rcases append_cons_cases heq with
    ⟨rfl, rfl⟩ | ⟨more, _, hafter⟩ | ⟨more, hfront, rfl⟩
  · exact ⟨hspliced.key_new, hspliced.next_new⟩
  · -- behind the new tower
    have hcut : towers = (before ++ more) ++ tower :: back := by
      rw [hsplit, hafter, List.append_assoc]
    obtain ⟨hkeyOld, hnextOld⟩ := h.node _ _ _ hcut
    have htower : tower ∈ towers := by
      rw [hcut]
      simp
    have hne := (h.addr_lt tower htower).ne
    refine ⟨by rw [hspliced.key_old _ hne, hkeyOld], fun level hlevel => ?_⟩
    have hlevel' : level < kMaxHeight := by
      have hle := h.height_le tower htower
      have hmaxLe := h.maxHeight_le
      omega
    have hother : tower.addr ≠ lastTall before level :=
      h.addr_ne_lastTall hsplit (by rw [hafter]; simp) hlevel'
    rw [hspliced.next_old _ _ hne, if_neg (by simp [hother]),
      hnextOld level hlevel]
  · -- in front of the new tower
    have hcut : towers = front ++ tower :: (more ++ after) := by
      rw [hsplit, hfront]
      simp
    obtain ⟨hkeyOld, _⟩ := h.node _ _ _ hcut
    have hne := (h.addr_lt tower (by rw [hcut]; simp)).ne
    refine ⟨by rw [hspliced.key_old _ hne, hkeyOld], fun level hlevel => ?_⟩
    exact h.next_spliced hsplit ⟨list.fresh, key, height⟩ rfl
      hspliced.next_old
      (show before = (front ++ [tower]) ++ more by rw [hfront]; simp)
      (.tower hlevel)

theorem holds (hspliced : Spliced list list' before after key height)
    (h : Holds list towers) (hsplit : towers = before ++ after)
    (hpos : 0 < height) (hheight : height ≤ kMaxHeight) :
    Holds list' (before ++ ⟨list.fresh, key, height⟩ :: after) := by
  have hmaxPos := h.maxHeight_pos
  have hmaxLe := h.maxHeight_le
  have hmem : ∀ tower ∈ before ++ ⟨list.fresh, key, height⟩ :: after,
      tower = ⟨list.fresh, key, height⟩ ∨ tower ∈ towers := by
    intro tower htower
    rw [hsplit]
    simp only [List.mem_append, List.mem_cons] at htower ⊢
    tauto
  refine ⟨fun level hlevel => ?_,
    fun front tower back => hspliced.node h hsplit, ?_, ?_, ?_, ?_, ?_, ?_, ?_⟩
  · exact h.next_spliced hsplit ⟨list.fresh, key, height⟩ rfl
      hspliced.next_old (List.nil_append before).symm (.head hlevel)
  · intro tower htower
    rcases hmem tower htower with rfl | htower
    · exact hpos
    · exact h.height_pos tower htower
  · intro tower htower
    rw [hspliced.maxHeight]
    rcases hmem tower htower with rfl | htower
    · exact le_max_right _ _
    · exact (h.height_le tower htower).trans (le_max_left _ _)
  · rw [hspliced.maxHeight]
    omega
  · rw [hspliced.maxHeight]
    omega
  · have hnodup := h.addrs
    have hnew := h.fresh_not_mem
    rw [hsplit, List.map_append] at hnodup hnew
    rw [List.map_append, List.map_cons, ← List.cons_append,
      List.nodup_middle, List.nodup_cons]
    exact ⟨hnew, hnodup⟩
  · intro tower htower
    rw [hspliced.fresh]
    rcases hmem tower htower with rfl | htower
    · exact Nat.lt_succ_self _
    · exact (h.addr_lt tower htower).trans (Nat.lt_succ_self _)
  · rw [hspliced.fresh, h.fresh_eq, hsplit]
    simp
    omega

end Spliced

/-- Making a node of a height and splicing it in. -/
theorem Holds.splice (h : Holds list towers)
    (hsplit : towers = before ++ after) (key : Key) {height : Nat}
    (hpos : 0 < height) (hheight : height ≤ kMaxHeight) :
    ∃ list', list.splice key (recordPrev before (list.maxHeight - 1)
        (List.replicate kMaxHeight none)) height = some list' ∧
      Holds list' (before ++ ⟨list.fresh, key, height⟩ :: after) := by
  obtain ⟨list', hlist', hspliced⟩ := h.exists_spliced hsplit key hheight
  exact ⟨list', hlist', hspliced.holds h hsplit hpos hheight⟩

end Splice

end SkipListNodes

end SimpleKV
