/-
Doubly linked lists in a memory of cells: which cells a list links, what
unlinking a cell and linking one behind the first do to it, and what following
the links from either end visits.
-/
import Mathlib.Data.List.Chain
import Mathlib.Logic.Function.Basic

namespace LinkedList

universe u

variable {α : Type u}

/-- The two links of every cell. -/
@[ext]
structure Links (α : Type u) where
  next : α → Option α
  prev : α → Option α

namespace Links

variable [DecidableEq α]

def setNext (links : Links α) (cell : α) (target : Option α) : Links α :=
  { links with next := Function.update links.next cell target }

def setPrev (links : Links α) (cell : α) (target : Option α) : Links α :=
  { links with prev := Function.update links.prev cell target }

@[simp] theorem setNext_next_self (links : Links α) (cell : α)
    (target : Option α) : (links.setNext cell target).next cell = target := by
  simp [setNext]

@[simp] theorem setNext_next_of_ne (links : Links α) {cell other : α}
    (target : Option α) (hne : other ≠ cell) :
    (links.setNext cell target).next other = links.next other := by
  simp [setNext, hne]

@[simp] theorem setNext_prev (links : Links α) (cell : α)
    (target : Option α) : (links.setNext cell target).prev = links.prev :=
  rfl

@[simp] theorem setPrev_prev_self (links : Links α) (cell : α)
    (target : Option α) : (links.setPrev cell target).prev cell = target := by
  simp [setPrev]

@[simp] theorem setPrev_prev_of_ne (links : Links α) {cell other : α}
    (target : Option α) (hne : other ≠ cell) :
    (links.setPrev cell target).prev other = links.prev other := by
  simp [setPrev, hne]

@[simp] theorem setPrev_next (links : Links α) (cell : α)
    (target : Option α) : (links.setPrev cell target).next = links.next :=
  rfl

/-- Take the cell between `before` and `after` out. -/
def unlink (links : Links α) (before after : α) : Links α :=
  (links.setNext before (some after)).setPrev after (some before)

/-- Put `cell` between `before` and `after`. -/
def link (links : Links α) (before cell after : α) : Links α :=
  (((links.setNext cell (some after)).setPrev cell (some before)).setNext
    before (some cell)).setPrev after (some cell)

end Links

/-- Two cells that point at each other. -/
def Joined (links : Links α) (a b : α) : Prop :=
  links.next a = some b ∧ links.prev b = some a

/-- The cells of a list, each joined to the one after it. -/
structure Linked (links : Links α) (cells : List α) : Prop where
  nodup : cells.Nodup
  joined : cells.IsChain (Joined links)

/-- Links that agree with others on the cells of a list join them as well. -/
theorem isChain_congr {links links' : Links α} {cells : List α}
    (hjoined : cells.IsChain (Joined links))
    (hnext : ∀ cell ∈ cells.dropLast, links'.next cell = links.next cell)
    (hprev : ∀ cell ∈ cells.tail, links'.prev cell = links.prev cell) :
    cells.IsChain (Joined links') := by
  induction cells with
  | nil => exact .nil
  | cons first cells ih =>
      cases cells with
      | nil => exact .singleton first
      | cons second cells =>
          rw [List.isChain_cons_cons] at hjoined ⊢
          refine ⟨⟨?_, ?_⟩, ih hjoined.2 ?_ ?_⟩
          · rw [hnext first (by simp), hjoined.1.1]
          · rw [hprev second (by simp), hjoined.1.2]
          · intro cell hcell
            exact hnext cell (by simp [hcell])
          · intro cell hcell
            exact hprev cell (List.mem_of_mem_tail hcell)

section Operations

variable [DecidableEq α] {links : Links α}

theorem Linked.unlink {front back : List α} {before cell after : α}
    (h : Linked links (front ++ before :: cell :: after :: back)) :
    Linked (links.unlink before after) (front ++ before :: after :: back) := by
  have hnodup := h.nodup
  have hjoined := h.joined
  rw [List.isChain_append_cons_cons, List.isChain_cons_cons] at hjoined
  obtain ⟨hfront, _, _, hback⟩ := hjoined
  have hnodup' : (front ++ before :: after :: back).Nodup := by
    apply List.Nodup.sublist _ hnodup
    exact (List.Sublist.refl front).append
      ((List.sublist_cons_self cell _).cons_cons before)
  refine ⟨hnodup', ?_⟩
  simp only [List.nodup_append, List.nodup_cons, List.mem_cons, not_or] at hnodup'
  rw [List.isChain_append_cons_cons]
  refine ⟨isChain_congr hfront ?_ ?_, ⟨?_, ?_⟩, isChain_congr hback ?_ ?_⟩
  · intro other hother
    rw [List.dropLast_concat] at hother
    apply Links.setNext_next_of_ne
    grind
  · intro other hother
    apply Links.setPrev_prev_of_ne
    have hmem := List.mem_of_mem_tail hother
    grind
  · simp [Links.unlink]
  · simp [Links.unlink]
  · intro other hother
    apply Links.setNext_next_of_ne
    have hmem := List.dropLast_subset _ hother
    grind
  · intro other hother
    apply Links.setPrev_prev_of_ne
    rw [List.tail_cons] at hother
    grind

theorem Linked.link {back : List α} {before cell after : α}
    (h : Linked links (before :: after :: back))
    (hcell : cell ∉ before :: after :: back) :
    Linked (links.link before cell after) (before :: cell :: after :: back) := by
  have hnodup := h.nodup
  have hjoined := h.joined
  rw [List.isChain_cons_cons] at hjoined
  have hnodup' : (before :: cell :: after :: back).Nodup := by
    simp only [List.nodup_cons, List.mem_cons, not_or] at hnodup hcell ⊢
    grind
  refine ⟨hnodup', ?_⟩
  simp only [List.nodup_cons, List.mem_cons, not_or] at hnodup'
  obtain ⟨⟨hbc, hba, _⟩, ⟨hca, _⟩, _⟩ := hnodup'
  rw [List.isChain_cons_cons, List.isChain_cons_cons]
  refine ⟨⟨?_, ?_⟩, ⟨?_, ?_⟩, isChain_congr hjoined.2 ?_ ?_⟩
  · simp [Links.link]
  · simp [Links.link, hca]
  · simp [Links.link, Ne.symm hbc]
  · simp [Links.link]
  · intro other hother
    have hmem := List.dropLast_subset _ hother
    have hb : other ≠ before := by grind
    have hc : other ≠ cell := by grind
    simp [Links.link, hb, hc]
  · intro other hother
    rw [List.tail_cons] at hother
    have ha : other ≠ after := by grind
    have hc : other ≠ cell := by grind
    simp [Links.link, ha, hc]

end Operations

/-- The cells visited from `cell` along one of the two links. -/
def follow (step : α → Option α) : Nat → α → List α
  | 0, _ => []
  | fuel + 1, cell =>
      match step cell with
      | none => []
      | some target => target :: follow step fuel target

theorem follow_eq {step : α → Option α} {first : α} {cells : List α}
    {fuel : Nat} (hchain : (first :: cells).IsChain fun a b => step a = some b)
    (hlast : step ((first :: cells).getLast (List.cons_ne_nil _ _)) = none)
    (hfuel : cells.length ≤ fuel) : follow step fuel first = cells := by
  induction cells generalizing first fuel with
  | nil =>
      have hstop : step first = none := hlast
      cases fuel <;> simp [follow, hstop]
  | cons second cells ih =>
      obtain ⟨fuel, rfl⟩ := Nat.exists_eq_add_of_le' hfuel
      rw [List.isChain_cons_cons] at hchain
      simp only [List.length_cons, ← Nat.add_assoc, follow, hchain.1]
      rw [ih hchain.2 (by simpa [List.getLast_cons_cons] using hlast)
        (by omega)]

/-- Both directions visit the same cells, one in the reverse of the other. -/
theorem Linked.follow_both {links : Links α} {first last : α} {cells : List α}
    (h : Linked links (first :: (cells ++ [last])))
    (hfirst : links.prev first = none) (hlast : links.next last = none)
    {fuel : Nat} (hfuel : cells.length < fuel) :
    follow links.next fuel first = cells ++ [last] ∧
      follow links.prev fuel last = cells.reverse ++ [first] := by
  constructor
  · apply follow_eq
    · exact h.joined.imp fun a b hab => hab.1
    · simpa using hlast
    · simpa using Nat.succ_le_of_lt hfuel
  · apply follow_eq
    · have hreverse : last :: (cells.reverse ++ [first]) =
          (first :: (cells ++ [last])).reverse := by simp
      rw [hreverse, List.isChain_reverse]
      exact h.joined.imp fun a b hab => hab.2
    · simpa using hfirst
    · simpa using Nat.succ_le_of_lt hfuel

end LinkedList
