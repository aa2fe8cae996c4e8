/-
Logs of tagged values.  When the entries of each tag in one log continue those
in another, the first log is a sub-multiset of the second.
-/
import Mathlib.Data.List.Nodup
import Mathlib.Data.List.Perm.Subperm

namespace TaggedLog

variable {κ α : Type*} [DecidableEq κ]

/-- The values with a tag, in log order. -/
def valuesOf (tag : κ) (log : List (κ × α)) : List α :=
  log.filterMap fun entry => if entry.1 = tag then some entry.2 else none

theorem valuesOf_snoc_self (tag : κ) (value : α) (log : List (κ × α)) :
    valuesOf tag (log ++ [(tag, value)]) = valuesOf tag log ++ [value] := by
  simp [valuesOf]

theorem valuesOf_snoc_of_ne {tag other : κ} (hne : other ≠ tag) (value : α)
    (log : List (κ × α)) :
    valuesOf tag (log ++ [(other, value)]) = valuesOf tag log := by
  simp [valuesOf, hne]

theorem mem_valuesOf {tag : κ} {value : α} {log : List (κ × α)} :
    value ∈ valuesOf tag log ↔ (tag, value) ∈ log := by
  simp [valuesOf]

theorem valuesOf_sublist (tag : κ) (log : List (κ × α)) :
    (valuesOf tag log).Sublist (log.map Prod.snd) := by
  induction log with
  | nil => exact List.Sublist.slnil
  | cons entry log ih =>
      rw [valuesOf, List.filterMap_cons, List.map_cons]
      split
      · exact ih.cons _
      · rename_i value hvalue
        split_ifs at hvalue
        rw [← Option.some.inj hvalue]
        exact ih.cons_cons _

theorem count_valuesOf [DecidableEq α] (tag : κ) (value : α)
    (log : List (κ × α)) :
    (valuesOf tag log).count value = log.count (tag, value) := by
  induction log with
  | nil => rfl
  | cons entry log ih =>
      obtain ⟨other, stored⟩ := entry
      by_cases htag : other = tag
      · have hhead : valuesOf tag ((other, stored) :: log) =
            stored :: valuesOf tag log := by
          simp [valuesOf, htag]
        rw [hhead, List.count_cons, List.count_cons, ih]
        simp [htag]
      · have hhead : valuesOf tag ((other, stored) :: log) =
            valuesOf tag log := by
          simp [valuesOf, htag]
        rw [hhead, List.count_cons, ih]
        simp [htag]

section Values

variable {κ α : Type*} {log more : List (κ × α)}

/-- Where no value occurs twice, it has one tag. -/
theorem tag_unique (hnodup : (log.map Prod.snd).Nodup) {tag other : κ}
    {value : α} (htag : (tag, value) ∈ log) (hother : (other, value) ∈ log) :
    tag = other :=
  congrArg Prod.fst (List.inj_on_of_nodup_map hnodup htag hother rfl)

theorem nodup_values_of_subperm (h : log.Subperm more)
    (hnodup : (more.map Prod.snd).Nodup) : (log.map Prod.snd).Nodup := by
  obtain ⟨same, hperm, hsub⟩ := h
  rw [← (hperm.map Prod.snd).nodup_iff]
  exact (hsub.map Prod.snd).nodup hnodup

end Values

variable [DecidableEq α] {log more : List (κ × α)}

theorem subperm_of_prefix
    (h : ∀ tag, (valuesOf tag log) <+: valuesOf tag more) :
    log.Subperm more := by
  rw [List.subperm_ext_iff]
  rintro ⟨tag, value⟩ _
  rw [← count_valuesOf, ← count_valuesOf]
  exact (h tag).sublist.count_le value

theorem perm_of_valuesOf_eq
    (h : ∀ tag, valuesOf tag log = valuesOf tag more) : log.Perm more := by
  rw [List.perm_iff_count]
  rintro ⟨tag, value⟩
  rw [← count_valuesOf, ← count_valuesOf, h tag]

end TaggedLog
