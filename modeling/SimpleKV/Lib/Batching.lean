/-
Cutting a sequence into batches by weight: a batch is closed by the first item
that lifts its weight above a bound.
-/
import Mathlib.Algebra.BigOperators.Group.List.Basic
import Mathlib.Algebra.Ring.Nat
import Mathlib.Data.List.Induction
import Mathlib.Data.List.Infix
import Mathlib.Tactic.Common

namespace Batching

universe u

variable {A : Type u} (weight : A → ℕ) (bound : ℕ)

/-- The weight of a batch. -/
def total (batch : List A) : ℕ :=
  (batch.map weight).sum

/-- Put one more item into the open batch, and close it when it is full. -/
def step (state : List (List A) × List A) (item : A) :
    List (List A) × List A :=
  if bound < total weight (state.2 ++ [item]) then
    (state.1 ++ [state.2 ++ [item]], [])
  else (state.1, state.2 ++ [item])

/-- The closed batches and the open one. -/
def cut (items : List A) : List (List A) × List A :=
  items.foldl (step weight bound) ([], [])

/-- All batches, the open one last. -/
def batches (items : List A) : List (List A) :=
  if (cut weight bound items).2 = [] then (cut weight bound items).1
  else (cut weight bound items).1 ++ [(cut weight bound items).2]

/-- Above the bound, but only since the last item. -/
def Full (batch : List A) : Prop :=
  bound < total weight batch ∧ total weight batch.dropLast ≤ bound

variable {weight bound}

theorem Full.ne_nil {batch : List A} (h : Full weight bound batch) :
    batch ≠ [] := by
  rintro rfl
  exact absurd h.1 (by simp [total])

theorem cut_snoc (items : List A) (item : A) :
    cut weight bound (items ++ [item]) =
      step weight bound (cut weight bound items) item := by
  rw [cut, List.foldl_append]
  rfl

/-- Nothing is lost, closed batches are full and the open one is not. -/
theorem cut_spec (weight : A → ℕ) (bound : ℕ) (items : List A) :
    (cut weight bound items).1.flatten ++ (cut weight bound items).2 = items ∧
      (∀ batch ∈ (cut weight bound items).1, Full weight bound batch) ∧
      total weight (cut weight bound items).2 ≤ bound := by
  induction items using List.reverseRecOn with
  | nil => simp [cut, total]
  | append_singleton items item ih =>
      obtain ⟨hflat, hfull, hopen⟩ := ih
      rw [cut_snoc, step]
      split_ifs with hclose
      · refine ⟨?_, fun batch hbatch => ?_, by simp [total]⟩
        · rw [List.flatten_append, List.flatten_singleton, List.append_nil,
            ← List.append_assoc, hflat]
        · rcases List.mem_append.mp hbatch with hbatch | hbatch
          · exact hfull batch hbatch
          · rw [List.mem_singleton.mp hbatch]
            refine ⟨hclose, ?_⟩
            rw [List.dropLast_concat]
            exact hopen
      · refine ⟨?_, hfull, not_lt.mp hclose⟩
        rw [← List.append_assoc, hflat]

/-- Cutting commutes with a map that keeps the weights. -/
theorem cut_map {B : Type*} (f : B → A) (items : List B) :
    cut weight bound (items.map f) =
      ((cut (fun item => weight (f item)) bound items).1.map (List.map f),
        (cut (fun item => weight (f item)) bound items).2.map f) := by
  have htotal : ∀ batch : List B, total weight (batch.map f) =
      total (fun item => weight (f item)) batch := by
    intro batch
    rw [total, List.map_map]
    rfl
  induction items using List.reverseRecOn with
  | nil => rfl
  | append_singleton items item ih =>
      rw [List.map_append, List.map_singleton, cut_snoc, ih, cut_snoc, step,
        step, ← List.map_singleton, ← List.map_append, htotal]
      split_ifs
      · simp
      · rfl

theorem batches_map {B : Type*} (f : B → A) (items : List B) :
    batches weight bound (items.map f) =
      (batches (fun item => weight (f item)) bound items).map
        (List.map f) := by
  rw [batches, batches, cut_map]
  simp only [List.map_eq_nil_iff]
  split_ifs
  · rfl
  · rw [List.map_append, List.map_singleton]

theorem flatten_batches (weight : A → ℕ) (bound : ℕ) (items : List A) :
    (batches weight bound items).flatten = items := by
  obtain ⟨hflat, _⟩ := cut_spec weight bound items
  rw [batches]
  split_ifs with hopen
  · rw [hopen, List.append_nil] at hflat
    exact hflat
  · rw [List.flatten_append, List.flatten_singleton]
    exact hflat

theorem ne_nil_of_mem_batches {items batch : List A}
    (h : batch ∈ batches weight bound items) : batch ≠ [] := by
  obtain ⟨_, hfull, _⟩ := cut_spec weight bound items
  rw [batches] at h
  split_ifs at h with hopen
  · exact (hfull batch h).ne_nil
  · rcases List.mem_append.mp h with h | h
    · exact (hfull batch h).ne_nil
    · rw [List.mem_singleton.mp h]
      exact hopen

/-- Every batch but the last is full. -/
theorem full_of_mem_dropLast {items batch : List A}
    (h : batch ∈ (batches weight bound items).dropLast) :
    Full weight bound batch := by
  obtain ⟨_, hfull, _⟩ := cut_spec weight bound items
  rw [batches] at h
  split_ifs at h with hopen
  · exact hfull batch (List.mem_of_mem_dropLast h)
  · rw [List.dropLast_concat] at h
    exact hfull batch h

end Batching
