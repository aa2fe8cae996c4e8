/-
Layered tables searched by recency.  A table has a level and an id; a search
goes through the levels upwards and through the ids of a level downwards, and
stops at the first table that has the key.  The main results say when replacing
some tables by a merge of them leaves what a search finds unchanged.
-/
import Mathlib.Data.List.Lex
import Mathlib.Data.Set.Insert
import Mathlib.Tactic.Common

namespace Recency

universe u v w

variable {F : Type u} {K : Type v} {V : Type w}

/-- How tables of type `F` are placed and read. -/
structure Layout (F : Type u) (K : Type v) (V : Type w) where
  level : F → ℕ
  id : F → ℤ
  get : F → K → Option V

variable (R : Layout F K V)

/-- `a` is searched before `b`. -/
def Layout.Before (a b : F) : Prop :=
  R.level a < R.level b ∨ R.level a = R.level b ∧ R.id b < R.id a

/-- The search for `key` in the tables `T` stops at `t`. -/
structure Layout.StopsAt (T : Set F) (key : K) (t : F) : Prop where
  mem : t ∈ T
  has : R.get t key ≠ none
  first : ∀ s ∈ T, R.get s key ≠ none → s = t ∨ R.Before t s

/-- The search for `key` finds `value`. -/
def Layout.Reads (T : Set F) (key : K) (value : V) : Prop :=
  ∃ t, R.StopsAt T key t ∧ R.get t key = some value

/-- No table has `key`. -/
def Layout.Absent (T : Set F) (key : K) : Prop :=
  ∀ t ∈ T, R.get t key = none

variable {R}

theorem Layout.Before.asymm {a b : F} (h : R.Before a b) : ¬ R.Before b a := by
  rcases h with h | h <;> rintro (h' | h') <;> omega

theorem Layout.Before.trans {a b c : F} (h : R.Before a b)
    (h' : R.Before b c) : R.Before a c := by
  rcases h with h | h <;> rcases h' with h' | h' <;>
    simp only [Layout.Before] <;> omega

theorem Layout.Before.level_le {a b : F} (h : R.Before a b) :
    R.level a ≤ R.level b := by
  rcases h with h | h <;> omega

theorem Layout.StopsAt.unique {T : Set F} {key : K} {s t : F}
    (hs : R.StopsAt T key s) (ht : R.StopsAt T key t) : s = t := by
  rcases ht.first s hs.mem hs.has with heq | hts
  · exact heq
  · rcases hs.first t ht.mem ht.has with heq | hst
    · exact heq.symm
    · exact absurd hst hts.asymm

theorem Layout.Reads.unique {T : Set F} {key : K} {value value' : V}
    (h : R.Reads T key value) (h' : R.Reads T key value') :
    value = value' := by
  obtain ⟨s, hs, hvalue⟩ := h
  obtain ⟨t, ht, hvalue'⟩ := h'
  rw [hs.unique ht, hvalue'] at hvalue
  exact (Option.some.inj hvalue).symm

/-- A stopping point depends only on the tables that have the key. -/
theorem Layout.StopsAt.of_agree {T T' : Set F} {key : K} {t : F}
    (h : R.StopsAt T key t)
    (hagree : ∀ s, R.get s key ≠ none → (s ∈ T ↔ s ∈ T')) :
    R.StopsAt T' key t :=
  ⟨(hagree t h.has).mp h.mem, h.has,
    fun s hs hhas => h.first s ((hagree s hhas).mpr hs) hhas⟩

theorem Layout.reads_congr {T T' : Set F} {key : K} {value : V}
    (hagree : ∀ s, R.get s key ≠ none → (s ∈ T ↔ s ∈ T')) :
    R.Reads T key value ↔ R.Reads T' key value :=
  ⟨fun ⟨t, ht, hvalue⟩ => ⟨t, ht.of_agree hagree, hvalue⟩,
    fun ⟨t, ht, hvalue⟩ =>
      ⟨t, ht.of_agree fun s hs => (hagree s hs).symm, hvalue⟩⟩

/-- A table searched before all others is read first. -/
theorem Layout.reads_insert {T : Set F} {t : F}
    (hnewest : ∀ s ∈ T, R.Before t s) {key : K} {value : V}
    (hget : R.get t key = some value) : R.Reads (insert t T) key value := by
  refine ⟨t, ⟨Set.mem_insert t T, by simp [hget], fun s hs _ => ?_⟩, hget⟩
  exact (Set.mem_insert_iff.mp hs).imp_right (hnewest s)

/-- A table without the key does not matter. -/
theorem Layout.reads_insert_of_none {T : Set F} {t : F} {key : K}
    (hget : R.get t key = none) {value : V} :
    R.Reads (insert t T) key value ↔ R.Reads T key value := by
  refine Layout.reads_congr fun s hs => ?_
  have hne : s ≠ t := fun heq => hs (heq ▸ hget)
  simp [hne]

/-- Scanning a list in search order finds what the search reads. -/
theorem Layout.findSome?_eq_some_iff {tables : List F}
    (hordered : tables.Pairwise R.Before) {key : K} {value : V} :
    tables.findSome? (fun t => R.get t key) = some value ↔
      R.Reads {t | t ∈ tables} key value := by
  rw [List.findSome?_eq_some_iff]
  constructor
  · rintro ⟨before, t, after, rfl, hvalue, hbefore⟩
    refine ⟨t, ⟨by simp, by simp [hvalue], ?_⟩, hvalue⟩
    intro s hs hhas
    rcases List.mem_append.mp hs with hs | hs
    · exact absurd (hbefore s hs) hhas
    · rcases List.mem_cons.mp hs with heq | hs
      · exact Or.inl heq
      · have htail := (List.pairwise_append.mp hordered).2.1
        exact Or.inr ((List.pairwise_cons.mp htail).1 s hs)
  · rintro ⟨t, hstop, hvalue⟩
    obtain ⟨before, after, rfl⟩ := List.append_of_mem hstop.mem
    refine ⟨before, t, after, rfl, hvalue, ?_⟩
    intro s hs
    by_contra hhas
    have hst : R.Before s t := (List.pairwise_append.mp hordered).2.2 s hs t
      List.mem_cons_self
    rcases hstop.first s (List.mem_append_left _ hs) hhas with rfl | hts
    · exact hst.asymm hst
    · exact hst.asymm hts

/-- In a finite set of comparable tables a key is absent or read. -/
theorem Layout.absent_or_reads (tables : List F)
    (htotal : ∀ a ∈ tables, ∀ b ∈ tables, a ≠ b →
      R.Before a b ∨ R.Before b a) (key : K) :
    R.Absent {t | t ∈ tables} key ∨
      ∃ value, R.Reads {t | t ∈ tables} key value := by
  induction tables with
  | nil => exact Or.inl fun t ht => absurd ht (by simp)
  | cons head tables ih =>
      have hrest := ih fun a ha b hb =>
        htotal a (List.mem_cons_of_mem _ ha) b (List.mem_cons_of_mem _ hb)
      cases hget : R.get head key with
      | none =>
          have hagree : ∀ s, R.get s key ≠ none →
              (s ∈ {t | t ∈ tables} ↔ s ∈ {t | t ∈ head :: tables}) := by
            intro s hs
            have hne : s ≠ head := fun heq => hs (heq ▸ hget)
            simp [hne]
          rcases hrest with habsent | ⟨value, hreads⟩
          · refine Or.inl fun t ht => ?_
            rcases List.mem_cons.mp ht with rfl | ht
            · exact hget
            · exact habsent t ht
          · exact Or.inr ⟨value, (Layout.reads_congr hagree).mp hreads⟩
      | some found =>
          right
          rcases hrest with habsent | ⟨value, t, hstop, hvalue⟩
          · refine ⟨found, head, ⟨List.mem_cons_self, by simp [hget], ?_⟩,
              hget⟩
            intro s hs hhas
            rcases List.mem_cons.mp hs with heq | hs
            · exact Or.inl heq
            · exact absurd (habsent s hs) hhas
          · by_cases heq : head = t
            · subst heq
              refine ⟨value, head, ⟨List.mem_cons_self, hstop.has, ?_⟩, hvalue⟩
              intro s hs hhas
              rcases List.mem_cons.mp hs with heq | hs
              · exact Or.inl heq
              · exact hstop.first s hs hhas
            · rcases htotal head List.mem_cons_self t
                  (List.mem_cons_of_mem _ hstop.mem) heq with hbefore | hafter
              · refine ⟨found, head, ⟨List.mem_cons_self, by simp [hget], ?_⟩,
                  hget⟩
                intro s hs hhas
                rcases List.mem_cons.mp hs with heq | hs
                · exact Or.inl heq
                · rcases hstop.first s hs hhas with rfl | hts
                  · exact Or.inr hbefore
                  · exact Or.inr (hbefore.trans hts)
              · refine ⟨value, t, ⟨List.mem_cons_of_mem _ hstop.mem, hstop.has,
                  ?_⟩, hvalue⟩
                intro s hs hhas
                rcases List.mem_cons.mp hs with rfl | hs
                · exact Or.inr hafter
                · exact hstop.first s hs hhas

/-- The same for every part of such a set. -/
theorem Layout.exists_reads (tables : List F)
    (htotal : ∀ a ∈ tables, ∀ b ∈ tables, a ≠ b →
      R.Before a b ∨ R.Before b a) {U : Set F} (hU : ∀ u ∈ U, u ∈ tables)
    {key : K} (hhas : ∃ u ∈ U, R.get u key ≠ none) :
    ∃ value, R.Reads U key value := by
  classical
  have hmem : ∀ t, t ∈ tables.filter (fun t => decide (t ∈ U)) ↔ t ∈ U := by
    intro t
    rw [List.mem_filter, decide_eq_true_eq]
    exact ⟨fun ht => ht.2, fun ht => ⟨hU t ht, ht⟩⟩
  rcases Layout.absent_or_reads (tables.filter fun t => decide (t ∈ U))
    (fun a ha b hb => htotal a (hU a ((hmem a).mp ha)) b
      (hU b ((hmem b).mp hb))) key with habsent | ⟨value, hreads⟩
  · obtain ⟨u, hu, hget⟩ := hhas
    exact absurd (habsent u ((hmem u).mpr hu)) hget
  · exact ⟨value, (Layout.reads_congr fun s _ => hmem s).mp hreads⟩

variable (R)

/-- For one key, the tables `O` are a merge of the tables `C` of levels `l` and
`l + 1`: they hold what the search reads in `C`, unless it is dead.  A table
outside `C` that has a key of `C` is searched before the tables of `C` that
have it, or lies below level `l + 1`. -/
structure Layout.Replaces (dead : V → Prop) (l : ℕ) (T C O : Set F)
    (key : K) : Prop where
  subset : C ⊆ T
  input_level : ∀ c ∈ C, R.level c ≤ l + 1
  output_level : ∀ o ∈ O, R.level o = l + 1
  kept : (∃ c ∈ C, R.get c key ≠ none) →
    ∀ t ∈ T, t ∉ C → R.get t key ≠ none →
      (R.level t ≤ l ∧ ∀ c ∈ C, R.get c key ≠ none → R.Before t c) ∨
        l + 1 < R.level t
  reads_input : (∃ c ∈ C, R.get c key ≠ none) → ∃ value, R.Reads C key value
  sound : ∀ o ∈ O, ∀ value, R.get o key = some value →
    R.Reads C key value ∧ ¬ dead value
  complete : ∀ value, R.Reads C key value → ¬ dead value →
    ∃ o ∈ O, R.get o key = some value
  unique : ∀ o ∈ O, ∀ o' ∈ O, R.get o key ≠ none → R.get o' key ≠ none →
    o = o'

/-- The newest version of `key` is a dead value in an input of the merge, and
the search below the output level would find a live one. -/
def Layout.Resurrects (dead : V → Prop) (l : ℕ) (T C : Set F)
    (key : K) : Prop :=
  (∃ c ∈ C, R.StopsAt T key c ∧ ∃ value, R.get c key = some value ∧
    dead value) ∧
  ∃ value, R.Reads {t | t ∈ T ∧ l + 1 < R.level t} key value ∧ ¬ dead value

variable {R}

namespace Layout.Replaces

variable {dead : V → Prop} {l : ℕ} {T C O : Set F} {key : K}

theorem stopsAt_input (h : R.Replaces dead l T C O key) {c : F} (hc : c ∈ C)
    (hstop : R.StopsAt T key c) : R.StopsAt C key c :=
  ⟨hc, hstop.has, fun s hs => hstop.first s (h.subset hs)⟩

/-- A live value survives the replacement. -/
theorem reads_of_live (h : R.Replaces dead l T C O key) {value : V}
    (hreads : R.Reads T key value) (hlive : ¬ dead value) :
    R.Reads (T \ C ∪ O) key value := by
  obtain ⟨t, hstop, hvalue⟩ := hreads
  by_cases hinput : t ∈ C
  · obtain ⟨o, ho, hget⟩ :=
      h.complete value ⟨t, h.stopsAt_input hinput hstop, hvalue⟩ hlive
    refine ⟨o, ⟨Or.inr ho, by simp [hget], ?_⟩, hget⟩
    rintro s (⟨hs, hnot⟩ | hs) hhas
    · rcases h.kept ⟨t, hinput, hstop.has⟩ s hs hnot hhas with hshallow | hdeep
      · rcases hstop.first s hs hhas with rfl | hts
        · exact absurd hinput hnot
        · exact absurd (hshallow.2 t hinput hstop.has) hts.asymm
      · exact Or.inr (Or.inl (by rw [h.output_level o ho]; exact hdeep))
    · exact Or.inl (h.unique s hs o ho hhas (by simp [hget]))
  · refine ⟨t, ⟨Or.inl ⟨hstop.mem, hinput⟩, hstop.has, ?_⟩, hvalue⟩
    rintro s (⟨hs, _⟩ | hs) hhas
    · exact hstop.first s hs hhas
    · obtain ⟨w, hw⟩ := Option.ne_none_iff_exists'.mp hhas
      obtain ⟨c, hc, _⟩ := (h.sound s hs w hw).1
      rcases h.kept ⟨c, hc.mem, hc.has⟩ t hstop.mem hinput hstop.has with
        hshallow | hdeep
      · exact Or.inr (Or.inl (by
          rw [h.output_level s hs]
          exact Nat.lt_succ_of_le hshallow.1))
      · have hle := h.input_level c hc.mem
        rcases hstop.first c (h.subset hc.mem) hc.has with rfl | hbefore
        · exact absurd hc.mem hinput
        · have := hbefore.level_le
          omega

/-- A table that stops the search among the inputs stops it in all tables when
no kept table is searched before it. -/
theorem stopsAt_of_no_shallow (h : R.Replaces dead l T C O key) {c : F}
    (hc : R.StopsAt C key c)
    (hnone : ∀ s ∈ T, s ∉ C → R.get s key ≠ none → l < R.level s) :
    R.StopsAt T key c := by
  refine ⟨h.subset hc.mem, hc.has, fun s hs hhas => ?_⟩
  by_cases hinput : s ∈ C
  · exact hc.first s hinput hhas
  · have hlevel := hnone s hs hinput hhas
    have hle := h.input_level c hc.mem
    rcases h.kept ⟨c, hc.mem, hc.has⟩ s hs hinput hhas with hshallow | hdeep
    · omega
    · exact Or.inr (Or.inl (by omega))

/-- What a search reads after the replacement, it read before, or the merge
dropped a dead value above it. -/
theorem reads_before (h : R.Replaces dead l T C O key) {value : V}
    (hreads : R.Reads (T \ C ∪ O) key value) (hlive : ¬ dead value) :
    R.Reads T key value ∨ R.Resurrects dead l T C key := by
  obtain ⟨t, hstop, hvalue⟩ := hreads
  have hkept : ∀ s ∈ T, s ∉ C → R.get s key ≠ none → R.level t ≤ R.level s := by
    intro s hs hnot hhas
    rcases hstop.first s (Or.inl ⟨hs, hnot⟩) hhas with rfl | hbefore
    · exact le_refl _
    · exact hbefore.level_le
  rcases hstop.mem with ⟨ht, hnot⟩ | ho
  · by_cases hinput : ∃ c ∈ C, R.get c key ≠ none
    · rcases h.kept hinput t ht hnot hstop.has with hshallow | hdeep
      · refine Or.inl ⟨t, ⟨ht, hstop.has, fun s hs hhas => ?_⟩, hvalue⟩
        by_cases hs' : s ∈ C
        · exact Or.inr (hshallow.2 s hs' hhas)
        · exact hstop.first s (Or.inl ⟨hs, hs'⟩) hhas
      · right
        obtain ⟨w, c, hc, hw⟩ := h.reads_input hinput
        have hstopT := h.stopsAt_of_no_shallow hc fun s hs hs' hhas => by
          have := hkept s hs hs' hhas
          omega
        refine ⟨⟨c, hc.mem, hstopT, w, hw, ?_⟩, value, ⟨t, ⟨⟨ht, hdeep⟩,
          hstop.has, fun s hs hhas => hstop.first s ?_ hhas⟩, hvalue⟩, hlive⟩
        · by_contra hnotDead
          obtain ⟨o, ho, hget⟩ := h.complete w ⟨c, hc, hw⟩ hnotDead
          have hlevel := h.output_level o ho
          rcases hstop.first o (Or.inr ho) (by simp [hget]) with rfl | hbefore
          · omega
          · have := hbefore.level_le
            omega
        · refine Or.inl ⟨hs.1, fun hmem => ?_⟩
          have hle := h.input_level s hmem
          have hgt : l + 1 < R.level s := hs.2
          omega
    · push Not at hinput
      refine Or.inl ⟨t, ⟨ht, hstop.has, fun s hs hhas => ?_⟩, hvalue⟩
      exact hstop.first s (Or.inl ⟨hs, fun hs' => hhas (hinput s hs')⟩) hhas
  · left
    obtain ⟨c, hc, hget⟩ := (h.sound t ho value hvalue).1
    have hlevel := h.output_level t ho
    exact ⟨c, h.stopsAt_of_no_shallow hc fun s hs hs' hhas => by
      have := hkept s hs hs' hhas
      omega, hget⟩

/-- After a merge that dropped a dead value, the search falls through to the
levels below the output. -/
theorem reads_of_resurrects (h : R.Replaces dead l T C O key)
    {c : F} (hc : c ∈ C) (hstop : R.StopsAt T key c) {gone value : V}
    (hgone : R.get c key = some gone) (hdead : dead gone)
    (hreads : R.Reads {t | t ∈ T ∧ l + 1 < R.level t} key value) :
    R.Reads (T \ C ∪ O) key value := by
  obtain ⟨t, ht, hvalue⟩ := hreads
  have hnot : t ∉ C := fun hmem => by
    have hle := h.input_level t hmem
    have hgt : l + 1 < R.level t := ht.mem.2
    omega
  refine ⟨t, ⟨Or.inl ⟨ht.mem.1, hnot⟩, ht.has, ?_⟩, hvalue⟩
  rintro s (⟨hs, hs'⟩ | hs) hhas
  · rcases h.kept ⟨c, hc, hstop.has⟩ s hs hs' hhas with hshallow | hdeep
    · rcases hstop.first s hs hhas with rfl | hbefore
      · exact absurd hc hs'
      · exact absurd (hshallow.2 c hc hstop.has) hbefore.asymm
    · exact ht.first s ⟨hs, hdeep⟩ hhas
  · obtain ⟨w, hw⟩ := Option.ne_none_iff_exists'.mp hhas
    obtain ⟨hreads, hlive⟩ := h.sound s hs w hw
    have heq := hreads.unique ⟨c, h.stopsAt_input hc hstop, hgone⟩
    exact absurd (heq ▸ hdead) hlive

/-- The replacement keeps every live reading of the key, and adds none, exactly
when it does not resurrect the key. -/
theorem live_reads_iff (h : R.Replaces dead l T C O key) :
    (∀ value, R.Reads (T \ C ∪ O) key value ∧ ¬ dead value ↔
        R.Reads T key value ∧ ¬ dead value) ↔
      ¬ R.Resurrects dead l T C key := by
  constructor
  · rintro hsame ⟨⟨c, hc, hstop, gone, hgone, hdead⟩, value, hreads, hlive⟩
    have hafter := h.reads_of_resurrects hc hstop hgone hdead hreads
    have hbefore := ((hsame value).mp ⟨hafter, hlive⟩).1
    exact hlive (hbefore.unique ⟨c, hstop, hgone⟩ ▸ hdead)
  · intro hnot value
    constructor
    · rintro ⟨hreads, hlive⟩
      exact ⟨(h.reads_before hreads hlive).resolve_right hnot, hlive⟩
    · rintro ⟨hreads, hlive⟩
      exact ⟨h.reads_of_live hreads hlive, hlive⟩

end Layout.Replaces

variable (R)

/-- For one key, a merge of the tables `C` of levels `l` and `l + 1` that is only
partly in place: the tables `G` of `C` are gone, and `O` is a part of the
output, which has everything once a table with the key is gone. -/
structure Layout.Interrupted (l : ℕ) (T C G O : Set F) (key : K) : Prop where
  gone : G ⊆ C
  subset : C ⊆ T
  input_level : ∀ c ∈ C, R.level c ≤ l + 1
  output_level : ∀ o ∈ O, R.level o = l + 1
  newer : ∀ o ∈ O, ∀ c ∈ C, R.id c < R.id o
  kept : (∃ c ∈ C, R.get c key ≠ none) →
    ∀ t ∈ T, t ∉ C → R.get t key ≠ none →
      R.level t ≤ l ∨ l + 1 < R.level t
  search : ∀ U ⊆ T, (∃ u ∈ U, R.get u key ≠ none) →
    ∃ value, R.Reads U key value
  sound : ∀ o ∈ O, ∀ value, R.get o key = some value → R.Reads C key value
  complete : (∃ c ∈ G, R.get c key ≠ none) → ∀ value, R.Reads C key value →
    ∃ o ∈ O, R.get o key = some value
  unique : ∀ o ∈ O, ∀ o' ∈ O, R.get o key ≠ none → R.get o' key ≠ none →
    o = o'

variable {R}

namespace Layout.Interrupted

variable {l : ℕ} {T C G O : Set F} {key : K} {value : V}

/-- What the levels up to `l` still have is read first. -/
theorem reads_of_upper (h : R.Interrupted l T C G O key)
    (hreads : R.Reads {t | t ∈ T ∧ t ∉ G ∧ R.level t ≤ l} key value) :
    R.Reads (T \ G ∪ O) key value := by
  obtain ⟨t, hstop, hvalue⟩ := hreads
  obtain ⟨ht, hnot, hlevel⟩ := hstop.mem
  refine ⟨t, ⟨Or.inl ⟨ht, hnot⟩, hstop.has, fun s hs hhas => ?_⟩, hvalue⟩
  rcases hs with ⟨hs, hnot'⟩ | hs
  · rcases Nat.lt_or_ge l (R.level s) with hdeep | hshallow
    · exact Or.inr (Or.inl (hlevel.trans_lt hdeep))
    · exact hstop.first s ⟨hs, hnot', hshallow⟩ hhas
  · have hdeep := h.output_level s hs
    exact Or.inr (Or.inl (by omega))

/-- Once the levels up to `l` have nothing left, the inputs decide. -/
theorem reads_of_no_upper (h : R.Interrupted l T C G O key)
    (hinput : ∃ c ∈ C, R.get c key ≠ none)
    (hupper : ∀ t ∈ T, t ∉ G → R.level t ≤ l → R.get t key = none)
    (hreads : R.Reads C key value) :
    R.Reads T key value ∧ R.Reads (T \ G ∪ O) key value := by
  obtain ⟨c, hstop, hvalue⟩ := hreads
  have hdeep : ∀ t ∈ T, t ∉ C → R.get t key ≠ none → l + 1 < R.level t := by
    intro t ht hnot hhas
    rcases h.kept hinput t ht hnot hhas with hshallow | hdeep
    · exact absurd (hupper t ht (fun hg => hnot (h.gone hg)) hshallow) hhas
    · exact hdeep
  have hlevel := h.input_level c hstop.mem
  have hbefore : R.Reads T key value := by
    refine ⟨c, ⟨h.subset hstop.mem, hstop.has, fun s hs hhas => ?_⟩, hvalue⟩
    by_cases hs' : s ∈ C
    · exact hstop.first s hs' hhas
    · have := hdeep s hs hs' hhas
      exact Or.inr (Or.inl (by omega))
  refine ⟨hbefore, ?_⟩
  by_cases hout : ∃ o ∈ O, R.get o key ≠ none
  · obtain ⟨o, ho, hhas⟩ := hout
    obtain ⟨found, hfound⟩ := Option.ne_none_iff_exists'.mp hhas
    have hsame : found = value :=
      (h.sound o ho found hfound).unique ⟨c, hstop, hvalue⟩
    have hlevel' := h.output_level o ho
    refine ⟨o, ⟨Or.inr ho, hhas, fun s hs hhas' => ?_⟩, hsame ▸ hfound⟩
    rcases hs with ⟨hs, hnot⟩ | hs
    · by_cases hs' : s ∈ C
      · -- An input that is left lies in the output's level and is older.
        have hle := h.input_level s hs'
        have hgt : l < R.level s := by
          by_contra hshallow
          exact hhas' (hupper s hs hnot (by omega))
        exact Or.inr (Or.inr ⟨by omega, h.newer o ho s hs'⟩)
      · have := hdeep s hs hs' hhas'
        exact Or.inr (Or.inl (by omega))
    · exact Or.inl (h.unique s hs o ho hhas' hhas)
  · -- Without an output no input with the key is gone.
    have hnone : ∀ g ∈ G, R.get g key = none := by
      intro g hg
      by_contra hhas
      obtain ⟨o, ho, hget⟩ := h.complete ⟨g, hg, hhas⟩ value ⟨c, hstop, hvalue⟩
      exact hout ⟨o, ho, by simp [hget]⟩
    refine (Layout.reads_congr fun s hhas => ?_).mp hbefore
    constructor
    · exact fun hs => Or.inl ⟨hs, fun hg => hhas (hnone s hg)⟩
    · rintro (⟨hs, _⟩ | hs)
      · exact hs
      · exact absurd ⟨s, hs, hhas⟩ hout

/-- The interruption changes what is read exactly when the levels up to `l` are
left with an older version. -/
theorem reads_iff (h : R.Interrupted l T C G O key) :
    (∀ value, R.Reads (T \ G ∪ O) key value ↔ R.Reads T key value) ↔
      ∀ value, R.Reads {t | t ∈ T ∧ t ∉ G ∧ R.level t ≤ l} key value →
        R.Reads T key value := by
  constructor
  · exact fun hsame value hreads =>
      (hsame value).mp (h.reads_of_upper hreads)
  · intro hcond value
    by_cases hupper : ∃ t ∈ {t | t ∈ T ∧ t ∉ G ∧ R.level t ≤ l},
        R.get t key ≠ none
    · obtain ⟨found, hfound⟩ := h.search _ (fun t ht => ht.1) hupper
      have hbefore := hcond found hfound
      have hafter := h.reads_of_upper hfound
      exact ⟨fun hreads => hafter.unique hreads ▸ hbefore,
        fun hreads => hbefore.unique hreads ▸ hafter⟩
    · have hnone : ∀ t ∈ T, t ∉ G → R.level t ≤ l → R.get t key = none :=
        fun t ht hnot hlevel => by
          by_contra hhas
          exact hupper ⟨t, ⟨ht, hnot, hlevel⟩, hhas⟩
      by_cases hinput : ∃ c ∈ C, R.get c key ≠ none
      · obtain ⟨found, hfound⟩ := h.search C h.subset hinput
        obtain ⟨hbefore, hafter⟩ := h.reads_of_no_upper hinput hnone hfound
        exact ⟨fun hreads => hafter.unique hreads ▸ hbefore,
          fun hreads => hbefore.unique hreads ▸ hafter⟩
      · refine Layout.reads_congr fun s hhas => ?_
        constructor
        · rintro (⟨hs, _⟩ | hs)
          · exact hs
          · obtain ⟨found, hfound⟩ := Option.ne_none_iff_exists'.mp hhas
            obtain ⟨c, hstop, _⟩ := h.sound s hs found hfound
            exact absurd ⟨c, hstop.mem, hstop.has⟩ hinput
        · exact fun hs => Or.inl ⟨hs, fun hg => hinput ⟨s, h.gone hg, hhas⟩⟩

end Layout.Interrupted

end Recency
