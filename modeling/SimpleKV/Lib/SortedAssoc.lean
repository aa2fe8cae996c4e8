/-
Association lists with strictly increasing keys, the mathematical content of
an ordered table.  Membership, lookup and last-writer-wins insertion agree on
them.
-/
import Mathlib.Data.List.Lex
import Mathlib.Data.List.Nodup
import Mathlib.Order.Lattice
import Mathlib.Tactic.Common

namespace SortedAssoc

universe u v

variable {K : Type u} {V : Type v} [LinearOrder K]

/-- Keys strictly increase along the list. -/
def Increasing (entries : List (K × V)) : Prop :=
  entries.Pairwise fun left right => left.1 < right.1

theorem Increasing.tail {entry : K × V} {entries : List (K × V)}
    (hinc : Increasing (entry :: entries)) : Increasing entries :=
  (List.pairwise_cons.mp hinc).2

theorem Increasing.head_lt {entry : K × V} {entries : List (K × V)}
    (hinc : Increasing (entry :: entries)) :
    ∀ other ∈ entries, entry.1 < other.1 :=
  (List.pairwise_cons.mp hinc).1

theorem Increasing.nodup_keys {entries : List (K × V)}
    (hinc : Increasing entries) : (entries.map Prod.fst).Nodup := by
  rw [List.Nodup, List.pairwise_map]
  exact List.Pairwise.imp (fun hlt => ne_of_lt hlt) hinc

/-- The value of the first entry with this key. -/
def find (key : K) : List (K × V) → Option V
  | [] => none
  | (k, value) :: entries => if k = key then some value else find key entries

/-- On increasing keys the first match is the only match. -/
theorem Increasing.find_eq_some_iff {entries : List (K × V)}
    (hinc : Increasing entries) {key : K} {value : V} :
    find key entries = some value ↔ (key, value) ∈ entries := by
  induction entries with
  | nil => simp [find]
  | cons entry entries ih =>
      obtain ⟨k, w⟩ := entry
      by_cases hkey : k = key
      · subst hkey
        have hfresh : (k, value) ∉ entries := fun hmem =>
          lt_irrefl k (hinc.head_lt _ hmem)
        simp [find, hfresh, eq_comm]
      · simp [find, ih hinc.tail, hkey, Ne.symm hkey]

theorem find_eq_none_iff {entries : List (K × V)} {key : K} :
    find key entries = none ↔ key ∉ entries.map Prod.fst := by
  induction entries with
  | nil => simp [find]
  | cons entry entries ih =>
      obtain ⟨k, w⟩ := entry
      by_cases hkey : k = key
      · simp [find, hkey]
      · rw [find, if_neg hkey, ih, List.map_cons, List.mem_cons, not_or]
        exact ⟨fun h => ⟨Ne.symm hkey, h⟩, fun h => h.2⟩

theorem mem_of_find_eq_some {entries : List (K × V)} {key : K} {value : V}
    (hfind : find key entries = some value) : (key, value) ∈ entries := by
  induction entries with
  | nil => simp [find] at hfind
  | cons entry entries ih =>
      obtain ⟨k, w⟩ := entry
      unfold find at hfind
      split_ifs at hfind with hkey
      · rw [Option.some.injEq] at hfind
        rw [hkey, hfind]
        exact List.mem_cons_self
      · exact List.mem_cons_of_mem _ (ih hfind)

theorem find_append {key : K} {entries others : List (K × V)} :
    find key (entries ++ others) =
      (find key entries).or (find key others) := by
  induction entries with
  | nil => rfl
  | cons entry entries ih =>
      obtain ⟨k, w⟩ := entry
      rw [List.cons_append, find, find]
      split_ifs
      · rfl
      · exact ih

/-- Searching concatenated tables is searching them one after another. -/
theorem find_flatMap {T : Type*} {key : K} {tables : List T}
    {contents : T → List (K × V)} :
    find key (tables.flatMap contents) =
      tables.findSome? fun table => find key (contents table) := by
  induction tables with
  | nil => rfl
  | cons table tables ih =>
      rw [List.flatMap_cons, find_append, ih, List.findSome?_cons]
      cases find key (contents table) <;> rfl

theorem find_map {W : Type*} (f : V → W) (key : K)
    (entries : List (K × V)) :
    find key (entries.map (Prod.map id f)) = (find key entries).map f := by
  induction entries with
  | nil => rfl
  | cons entry entries ih =>
      obtain ⟨k, w⟩ := entry
      rw [List.map_cons, Prod.map_apply, find, find, ih]
      simp only [id]
      split_ifs <;> rfl

/-- Increasing lists are determined by their entries. -/
theorem Increasing.eq_of_mem_iff {entries others : List (K × V)}
    (hinc : Increasing entries) (hinc' : Increasing others)
    (hmem : ∀ entry, entry ∈ entries ↔ entry ∈ others) :
    entries = others := by
  have hnodup : ∀ {list : List (K × V)}, Increasing list → list.Nodup :=
    fun h => List.Nodup.of_map Prod.fst h.nodup_keys
  have hperm := (List.perm_ext_iff_of_nodup (hnodup hinc) (hnodup hinc')).mpr
    hmem
  refine hperm.eq_of_pairwise ?_ hinc hinc'
  exact fun left right _ _ hlt hgt => absurd hlt hgt.asymm

/-- Insert in key order, replacing the value of a key already present. -/
def upsert (key : K) (value : V) : List (K × V) → List (K × V)
  | [] => [(key, value)]
  | (k, w) :: entries =>
      if k < key then (k, w) :: upsert key value entries
      else if k = key then (key, value) :: entries
      else (key, value) :: (k, w) :: entries

theorem map_upsert {W : Type*} (f : V → W) (key : K) (value : V)
    (entries : List (K × V)) :
    (upsert key value entries).map (Prod.map id f) =
      upsert key (f value) (entries.map (Prod.map id f)) := by
  induction entries with
  | nil => rfl
  | cons entry entries ih =>
      obtain ⟨k, w⟩ := entry
      simp only [upsert, List.map_cons, Prod.map_apply, id]
      split_ifs
      · rw [List.map_cons, ih, Prod.map_apply, id]
      · rfl
      · rfl

theorem mem_upsert_imp {key : K} {value : V} {entries : List (K × V)}
    {entry : K × V} (hentry : entry ∈ upsert key value entries) :
    entry = (key, value) ∨ entry ∈ entries := by
  induction entries with
  | nil => exact Or.inl (by simpa [upsert] using hentry)
  | cons head entries ih =>
      obtain ⟨k, w⟩ := head
      unfold upsert at hentry
      split_ifs at hentry
      · rcases List.mem_cons.mp hentry with rfl | hentry
        · exact Or.inr List.mem_cons_self
        · exact (ih hentry).imp id (List.mem_cons_of_mem _)
      · rcases List.mem_cons.mp hentry with rfl | hentry
        · exact Or.inl rfl
        · exact Or.inr (List.mem_cons_of_mem _ hentry)
      · exact List.mem_cons.mp hentry

theorem Increasing.upsert {entries : List (K × V)} (hinc : Increasing entries)
    (key : K) (value : V) : Increasing (upsert key value entries) := by
  induction entries with
  | nil => exact List.pairwise_singleton _ _
  | cons head entries ih =>
      obtain ⟨k, w⟩ := head
      unfold SortedAssoc.upsert
      split_ifs with hlt heq
      · refine List.pairwise_cons.mpr ⟨?_, ih hinc.tail⟩
        intro other hother
        rcases mem_upsert_imp hother with rfl | hother
        · exact hlt
        · exact hinc.head_lt other hother
      · subst heq
        exact List.pairwise_cons.mpr ⟨hinc.head_lt, hinc.tail⟩
      · have hgt : key < k := lt_of_le_of_ne (not_lt.mp hlt) (Ne.symm heq)
        refine List.pairwise_cons.mpr ⟨?_, hinc⟩
        intro other hother
        rcases List.mem_cons.mp hother with rfl | hother
        · exact hgt
        · exact hgt.trans (hinc.head_lt other hother)

@[simp] theorem find_upsert_self (key : K) (value : V)
    (entries : List (K × V)) :
    find key (upsert key value entries) = some value := by
  induction entries with
  | nil => simp [upsert, find]
  | cons head entries ih =>
      obtain ⟨k, w⟩ := head
      unfold upsert
      split_ifs with hlt heq
      · rw [find, if_neg (ne_of_lt hlt)]
        exact ih
      · simp [find]
      · simp [find]

theorem find_upsert_of_ne {key other : K} (value : V)
    (entries : List (K × V)) (hne : other ≠ key) :
    find other (upsert key value entries) = find other entries := by
  induction entries with
  | nil => simp [upsert, find, Ne.symm hne]
  | cons head entries ih =>
      obtain ⟨k, w⟩ := head
      unfold upsert
      split_ifs with hlt heq
      · simp only [find, ih]
      · subst heq
        simp [find, Ne.symm hne]
      · simp [find, Ne.symm hne]

theorem mem_keys_upsert {key other : K} {value : V}
    {entries : List (K × V)} :
    other ∈ (upsert key value entries).map Prod.fst ↔
      other = key ∨ other ∈ entries.map Prod.fst := by
  by_cases hne : other = key
  · subst hne
    refine iff_of_true ?_ (Or.inl rfl)
    exact List.mem_map_of_mem
      (mem_of_find_eq_some (find_upsert_self other value entries))
  · have hfind := find_upsert_of_ne value entries hne
    rw [← not_iff_not, ← find_eq_none_iff, hfind, not_or, find_eq_none_iff]
    simp [hne]

theorem upsert_ne_nil (key : K) (value : V) (entries : List (K × V)) :
    upsert key value entries ≠ [] := by
  cases entries with
  | nil => simp [upsert]
  | cons head entries =>
      unfold upsert
      split_ifs <;> simp

end SortedAssoc
