/-
Merging sorted sources through a queue that holds one item of each, and
keeping the first item of every key.  Items are ordered by a rank that refines
their key; the rank decides which of several items with one key wins.
-/
import Mathlib.Order.Lattice
import Mathlib.Data.List.Lex
import Mathlib.Tactic.Common

namespace KWayMerge

universe u v w x

variable {A : Type u} {P : Type v} {K : Type w} {I : Type x}

section Queue

variable [LinearOrder P] (rank : A → P) (source : A → I)

/-- What a queue and the unread rests of the sources still hold. -/
def Pending (queue : List A) (rest : I → List A) : Set A :=
  {item | item ∈ queue ∨ ∃ i, item ∈ rest i}

/-- Each rest is sorted, and the queue has an item of its source that is not
behind any of it. -/
structure Frontier (queue : List A) (rest : I → List A) : Prop where
  sorted : ∀ i, (rest i).Pairwise fun a b => rank a < rank b
  source_eq : ∀ i, ∀ item ∈ rest i, source item = i
  front : ∀ i, ∀ item ∈ rest i, ∃ head ∈ queue,
    source head = i ∧ rank head ≤ rank item

variable {rank source} {queue others : List A} {rest : I → List A} {top : A}

/-- A least item of the queue is least among all pending items. -/
theorem Frontier.rank_le (h : Frontier rank source queue rest) (top : A)
    (htop : ∀ other ∈ queue, rank top ≤ rank other) :
    ∀ item ∈ Pending queue rest, rank top ≤ rank item := by
  rintro item (hitem | ⟨i, hitem⟩)
  · exact htop item hitem
  · obtain ⟨head, hhead, _, hle⟩ := h.front i item hitem
    exact (htop head hhead).trans hle

theorem Frontier.empty : Frontier rank source [] fun _ => [] where
  sorted := fun _ => List.Pairwise.nil
  source_eq := fun _ _ hitem => absurd hitem (by simp)
  front := fun _ _ hitem => absurd hitem (by simp)

/-- Opening a source: its first item goes to the queue. -/
theorem Frontier.openSource [DecidableEq I]
    (h : Frontier rank source queue rest) {i : I} {next : A} {tail : List A}
    (hsorted : (next :: tail).Pairwise fun a b => rank a < rank b)
    (hsource : ∀ item ∈ next :: tail, source item = i) :
    Frontier rank source (next :: queue) (Function.update rest i tail) := by
  rw [List.pairwise_cons] at hsorted
  refine ⟨fun j => ?_, fun j item hitem => ?_, fun j item hitem => ?_⟩
  · by_cases hj : j = i
    · rw [hj, Function.update_self]
      exact hsorted.2
    · rw [Function.update_of_ne hj]
      exact h.sorted j
  · by_cases hj : j = i
    · rw [hj, Function.update_self] at hitem
      rw [hj]
      exact hsource item (List.mem_cons_of_mem _ hitem)
    · rw [Function.update_of_ne hj] at hitem
      exact h.source_eq j item hitem
  · by_cases hj : j = i
    · rw [hj, Function.update_self] at hitem
      exact ⟨next, List.mem_cons_self,
        (hsource next List.mem_cons_self).trans hj.symm,
        (hsorted.1 item hitem).le⟩
    · rw [Function.update_of_ne hj] at hitem
      obtain ⟨head, hhead, hhead'⟩ := h.front j item hitem
      exact ⟨head, List.mem_cons_of_mem _ hhead, hhead'⟩

/-- Popping an item whose source is exhausted. -/
theorem Frontier.pop (h : Frontier rank source queue rest)
    (hqueue : ∀ item, item ∈ queue ↔ item = top ∨ item ∈ others)
    (hrest : rest (source top) = []) : Frontier rank source others rest where
  sorted := h.sorted
  source_eq := h.source_eq
  front := by
    intro i item hitem
    obtain ⟨head, hhead, hsource, hle⟩ := h.front i item hitem
    rcases (hqueue head).mp hhead with rfl | hother
    · rw [← hsource, hrest] at hitem
      exact absurd hitem (by simp)
    · exact ⟨head, hother, hsource, hle⟩

/-- Popping an item and pushing the next one of its source. -/
theorem Frontier.advance [DecidableEq I] (h : Frontier rank source queue rest)
    (hqueue : ∀ item, item ∈ queue ↔ item = top ∨ item ∈ others)
    {next : A} {tail : List A} (hrest : rest (source top) = next :: tail) :
    Frontier rank source (next :: others)
      (Function.update rest (source top) tail) := by
  have hsorted := h.sorted (source top)
  have hsource := h.source_eq (source top)
  rw [hrest] at hsorted hsource
  -- Without the source of the popped item the others are a frontier.
  have hwithout : Frontier rank source others
      (Function.update rest (source top) []) := by
    refine ⟨fun i => ?_, fun i item hitem => ?_, fun i item hitem => ?_⟩ <;>
      by_cases hi : i = source top
    · rw [hi, Function.update_self]
      exact List.Pairwise.nil
    · rw [Function.update_of_ne hi]
      exact h.sorted i
    · rw [hi, Function.update_self] at hitem
      exact absurd hitem (by simp)
    · rw [Function.update_of_ne hi] at hitem
      exact h.source_eq i item hitem
    · rw [hi, Function.update_self] at hitem
      exact absurd hitem (by simp)
    · rw [Function.update_of_ne hi] at hitem
      obtain ⟨head, hhead, hfrom, hle⟩ := h.front i item hitem
      rcases (hqueue head).mp hhead with rfl | hother
      · exact absurd hfrom.symm hi
      · exact ⟨head, hother, hfrom, hle⟩
  have hopen := hwithout.openSource hsorted hsource
  rwa [Function.update_idem] at hopen

/-- Popping loses the popped item only. -/
theorem pending_pop
    (hqueue : ∀ item, item ∈ queue ↔ item = top ∨ item ∈ others) {item : A} :
    item ∈ Pending queue rest ↔ item = top ∨ item ∈ Pending others rest := by
  simp only [Pending, Set.mem_ofPred_eq, hqueue, or_assoc]

/-- What is pending when one source is left with `tail`. -/
theorem pending_update [DecidableEq I] {i : I} {tail : List A} {item : A} :
    item ∈ Pending queue (Function.update rest i tail) ↔
      item ∈ queue ∨ item ∈ tail ∨ ∃ j, j ≠ i ∧ item ∈ rest j := by
  simp only [Pending, Set.mem_ofPred_eq]
  refine or_congr_right ⟨?_, ?_⟩
  · rintro ⟨j, hitem⟩
    by_cases hj : j = i
    · rw [hj, Function.update_self] at hitem
      exact Or.inl hitem
    · rw [Function.update_of_ne hj] at hitem
      exact Or.inr ⟨j, hj, hitem⟩
  · rintro (hitem | ⟨j, hj, hitem⟩)
    · exact ⟨i, by rwa [Function.update_self]⟩
    · exact ⟨j, by rwa [Function.update_of_ne hj]⟩

/-- A source splits what is pending into its own rest and the others. -/
theorem mem_pending_iff [DecidableEq I] (i : I) {item : A} :
    item ∈ Pending queue rest ↔
      item ∈ queue ∨ item ∈ rest i ∨ ∃ j, j ≠ i ∧ item ∈ rest j := by
  rw [← pending_update, Function.update_eq_self]

/-- Moving the next item of a source to the queue changes nothing. -/
theorem pending_advance [DecidableEq I] {next : A} {tail : List A} {i : I}
    (hrest : rest i = next :: tail) {item : A} :
    item ∈ Pending (next :: queue) (Function.update rest i tail) ↔
      item ∈ Pending queue rest := by
  rw [pending_update, mem_pending_iff i, hrest, List.mem_cons, List.mem_cons]
  tauto

theorem pending_openSource [DecidableEq I] {next : A} {tail : List A} {i : I}
    (hrest : rest i = []) {item : A} :
    item ∈ Pending (next :: queue) (Function.update rest i tail) ↔
      item ∈ Pending queue rest ∨ item ∈ next :: tail := by
  rw [pending_update, mem_pending_iff i, hrest, List.mem_cons, List.mem_cons]
  simp only [List.not_mem_nil, false_or]
  generalize (∃ j, j ≠ i ∧ item ∈ rest j) = others
  tauto

end Queue

section Winners

variable [LinearOrder P] [LinearOrder K] (rank : A → P) (key : A → K)

/-- The item that its key keeps. -/
def Winner (all : Set A) (item : A) : Prop :=
  item ∈ all ∧ ∀ other ∈ all, key other = key item → rank item ≤ rank other

/-- How far a merge has come: `seen` is the last key taken from the queue.
Everything beyond it is pending, and nothing before it is. -/
structure Progress (all pending : Set A) (seen : Option K) : Prop where
  subset : pending ⊆ all
  beyond : ∀ item ∈ all, (∀ k ∈ seen, k < key item) → item ∈ pending
  not_before : ∀ item ∈ pending, ∀ k ∈ seen, k ≤ key item

variable {rank key} {all pending rest : Set A} {seen : Option K} {top : A}

theorem Progress.start (all : Set A) : Progress key all all none where
  subset := fun _ h => h
  beyond := fun _ h _ => h
  not_before := fun _ _ k hk => absurd hk (by simp)

/-- The least pending item, when its key is new, wins its key, and no key lies
between it and the keys seen. -/
theorem Progress.winner (h : Progress key all pending seen)
    (hmono : ∀ a b, rank a ≤ rank b → key a ≤ key b) (htop : top ∈ pending)
    (hleast : ∀ item ∈ pending, rank top ≤ rank item)
    (hnew : key top ∉ seen) :
    Winner rank key all top ∧
      ∀ item ∈ all, (∀ k ∈ seen, k < key item) → key top ≤ key item := by
  have hbeyond : ∀ k ∈ seen, k < key top := fun k hk =>
    lt_of_le_of_ne (h.not_before top htop k hk) fun heq => hnew (heq ▸ hk)
  refine ⟨⟨h.subset htop, fun other hother hkey => ?_⟩, fun item hitem hk => ?_⟩
  · exact hleast other (h.beyond other hother (hkey ▸ hbeyond))
  · exact hmono _ _ (hleast item (h.beyond item hitem hk))

/-- Taking the least pending item moves the merge to its key. -/
theorem Progress.take (h : Progress key all pending seen)
    (hmono : ∀ a b, rank a ≤ rank b → key a ≤ key b) (htop : top ∈ pending)
    (hleast : ∀ item ∈ pending, rank top ≤ rank item)
    (hrest : ∀ item, item ∈ pending ↔ item = top ∨ item ∈ rest) :
    Progress key all rest (some (key top)) where
  subset := fun item hitem => h.subset ((hrest item).mpr (Or.inr hitem))
  beyond := by
    intro item hitem hk
    have hlt : key top < key item := hk (key top) rfl
    have hseen : ∀ k ∈ seen, k < key item := fun k hseen =>
      (h.not_before top htop k hseen).trans_lt hlt
    rcases (hrest item).mp (h.beyond item hitem hseen) with rfl | hitem
    · exact absurd hlt (lt_irrefl _)
    · exact hitem
  not_before := by
    intro item hitem k hk
    rw [Option.mem_some_iff] at hk
    rw [← hk]
    exact hmono _ _ (hleast item ((hrest item).mpr (Or.inr hitem)))

/-- When nothing is pending every key has been seen. -/
theorem Progress.key_le_of_empty (h : Progress key all pending seen)
    (hempty : ∀ item, item ∉ pending) {item : A} (hitem : item ∈ all) :
    ∃ k ∈ seen, key item ≤ k := by
  by_contra hnone
  push Not at hnone
  exact hempty item (h.beyond item hitem hnone)

variable (rank key) in
/-- The output so far: the live winners among the keys seen, in key order. -/
structure Kept (live : A → Prop) (all : Set A) (seen : Option K)
    (kept : List A) : Prop where
  sorted : kept.Pairwise fun a b => key a < key b
  mem_iff : ∀ item, item ∈ kept ↔
    Winner rank key all item ∧ live item ∧ ∃ k ∈ seen, key item ≤ k

variable {live : A → Prop} {kept : List A}

theorem Kept.start : Kept rank key live all none [] where
  sorted := List.Pairwise.nil
  mem_iff := by simp

/-- A winner among the keys seen after the least pending item is taken was seen
before, or is that item. -/
theorem Progress.winner_cases (h : Progress key all pending seen)
    (hmono : ∀ a b, rank a ≤ rank b → key a ≤ key b)
    (hinj : Set.InjOn rank all) (htop : top ∈ pending)
    (hleast : ∀ item ∈ pending, rank top ≤ rank item)
    (hnew : key top ∉ seen) {item : A} (hitem : Winner rank key all item) :
    key item ≤ key top ↔ item = top ∨ ∃ k ∈ seen, key item ≤ k := by
  obtain ⟨hwinner, hnone⟩ := h.winner hmono htop hleast hnew
  constructor
  · intro hle
    by_cases hbeyond : ∀ k ∈ seen, k < key item
    · have heq : key item = key top := le_antisymm hle (hnone item hitem.1 hbeyond)
      exact Or.inl (hinj hitem.1 hwinner.1 (le_antisymm
        (hitem.2 top hwinner.1 heq.symm) (hwinner.2 item hitem.1 heq)))
    · push Not at hbeyond
      exact Or.inr hbeyond
  · rintro (rfl | ⟨k, hk, hle⟩)
    · exact le_refl _
    · exact hle.trans (h.not_before top htop k hk)

/-- A new key whose winner is dead is skipped. -/
theorem Kept.drop (hkept : Kept rank key live all seen kept)
    (h : Progress key all pending seen)
    (hmono : ∀ a b, rank a ≤ rank b → key a ≤ key b)
    (hinj : Set.InjOn rank all) (htop : top ∈ pending)
    (hleast : ∀ item ∈ pending, rank top ≤ rank item)
    (hnew : key top ∉ seen) (hdead : ¬ live top) :
    Kept rank key live all (some (key top)) kept where
  sorted := hkept.sorted
  mem_iff := by
    intro item
    rw [hkept.mem_iff]
    refine and_congr_right fun hitem => and_congr_right fun hlive => ?_
    have hcases := h.winner_cases hmono hinj htop hleast hnew hitem
    simp only [Option.mem_some_iff, exists_eq_left', hcases]
    constructor
    · exact Or.inr
    · rintro (rfl | hseen)
      · exact absurd hlive hdead
      · exact hseen

/-- A new key whose winner is live is appended. -/
theorem Kept.keep (hkept : Kept rank key live all seen kept)
    (h : Progress key all pending seen)
    (hmono : ∀ a b, rank a ≤ rank b → key a ≤ key b)
    (hinj : Set.InjOn rank all) (htop : top ∈ pending)
    (hleast : ∀ item ∈ pending, rank top ≤ rank item)
    (hnew : key top ∉ seen) (hlive : live top) :
    Kept rank key live all (some (key top)) (kept ++ [top]) where
  sorted := by
    refine List.pairwise_append.mpr ⟨hkept.sorted, List.pairwise_singleton _ _,
      fun item hitem other hother => ?_⟩
    rw [List.mem_singleton.mp hother]
    obtain ⟨_, _, k, hk, hle⟩ := (hkept.mem_iff item).mp hitem
    refine lt_of_le_of_lt hle (lt_of_le_of_ne (h.not_before top htop k hk) ?_)
    rintro rfl
    exact hnew hk
  mem_iff := by
    intro item
    rw [List.mem_append, List.mem_singleton, hkept.mem_iff]
    constructor
    · rintro (⟨hitem, hitemLive, hseen⟩ | rfl)
      · exact ⟨hitem, hitemLive, key top, rfl,
          (h.winner_cases hmono hinj htop hleast hnew hitem).mpr
            (Or.inr hseen)⟩
      · exact ⟨(h.winner hmono htop hleast hnew).1, hlive, _, rfl, le_refl _⟩
    · rintro ⟨hitem, hitemLive, k, hk, hle⟩
      rw [Option.mem_some_iff] at hk
      rcases (h.winner_cases hmono hinj htop hleast hnew hitem).mp
        (hk ▸ hle) with rfl | hseen
      · exact Or.inr rfl
      · exact Or.inl ⟨hitem, hitemLive, hseen⟩

/-- When nothing is pending the output holds every live winner. -/
theorem Kept.mem_iff_of_empty (hkept : Kept rank key live all seen kept)
    (h : Progress key all pending seen) (hempty : ∀ item, item ∉ pending)
    {item : A} : item ∈ kept ↔ Winner rank key all item ∧ live item := by
  rw [hkept.mem_iff]
  exact ⟨fun hitem => ⟨hitem.1, hitem.2.1⟩, fun hitem =>
    ⟨hitem.1, hitem.2, h.key_le_of_empty hempty hitem.1.1⟩⟩

end Winners

end KWayMerge
