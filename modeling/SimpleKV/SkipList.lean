/-
`SkipList` seen along its level-0 chain, which holds every node in order.  The
higher levels only shorten the walk to the same node.
-/
import SimpleKV.Entry
import SimpleKV.Lib.SortedAssoc

namespace SimpleKV

/-- The nodes reached from `head_` by `Next(0)`. -/
abbrev SkipList (Key : Type) := List Key

namespace SkipList

variable {Key : Type} (compare : Key → Key → Ordering)

/-- `FindGreaterOrEqual`: the chain from the first node that is not before
`key`. -/
def findGreaterOrEqual (key : Key) (list : SkipList Key) : SkipList Key :=
  list.dropWhile fun node => compare node key == .lt

/-- `Insert`: a node equal to `key` is overwritten in place. -/
def insert (key : Key) : SkipList Key → SkipList Key
  | [] => [key]
  | node :: list =>
      match compare node key with
      | .lt => node :: insert key list
      | .eq => key :: list
      | .gt => key :: node :: list

/-- `Iterator::Seek`: the key of the node it is valid at. -/
def seek (target : Key) (list : SkipList Key) : Option Key :=
  match findGreaterOrEqual compare target list with
  | [] => none
  | node :: _ => if compare node target = .eq then some node else none

end SkipList

open SortedAssoc

/-- An entry that `Memory::Allocate` takes: its size is a positive `int`. -/
def Short (entry : Bytes × Bytes) : Prop :=
  (encodeEntry entry.1 entry.2).length < 2 ^ 31

theorem Short.bounds {entry : Bytes × Bytes} (hshort : Short entry) :
    (encodeString entry.1).length < 2 ^ 31 ∧ entry.1.length < 2 ^ 31 ∧
      entry.2.length < 2 ^ 31 := by
  have hkey := length_lt_length_encodeString entry.1
  have hvalue := length_lt_length_encodeString entry.2
  rw [Short, length_encodeEntry] at hshort
  omega

def encodeEntries (entries : List (Bytes × Bytes)) : List Bytes :=
  entries.map fun entry => encodeEntry entry.1 entry.2

/-- On entries the comparator sees the keys only. -/
theorem comparator_of_userKey {a b key other : Bytes} (ha : userKey a = key)
    (hb : userKey b = other) :
    comparator a b = if key < other then .lt else if key = other then .eq
      else .gt := by
  rw [comparator, ha, hb]

/-- Inserting an encoded entry is an update of the table it encodes. -/
theorem insert_encodeEntries {entries : List (Bytes × Bytes)}
    (hshort : ∀ entry ∈ entries, Short entry) {key value : Bytes}
    (hentry : Short (key, value)) :
    SkipList.insert comparator (encodeEntry key value)
      (encodeEntries entries) = encodeEntries (upsert key value entries) := by
  have hlt : (2 : Nat) ^ 31 < 2 ^ 32 := by decide
  induction entries with
  | nil => rfl
  | cons entry entries ih =>
      obtain ⟨k, w⟩ := entry
      have hrest := ih fun other hother =>
        hshort other (List.mem_cons_of_mem _ hother)
      have hk := (hshort (k, w) List.mem_cons_self).bounds.2.1
      have hcompare := comparator_of_userKey
        (userKey_encodeEntry w (hk.trans hlt))
        (userKey_encodeEntry value (hentry.bounds.2.1.trans hlt))
      simp only [encodeEntries, List.map_cons] at hrest ⊢
      simp only [SkipList.insert, hcompare, upsert]
      split_ifs with hless heq
      · simp only [hrest, List.map_cons]
      · rfl
      · rfl

/-- Seeking a bare encoded key finds the entry with that key. -/
theorem seek_encodeEntries {entries : List (Bytes × Bytes)}
    (hinc : Increasing entries) (hshort : ∀ entry ∈ entries, Short entry)
    {key : Bytes} (hkey : key.length < 2 ^ 32) :
    SkipList.seek comparator (encodeString key) (encodeEntries entries) =
      (find key entries).map (encodeEntry key) := by
  have hprobe : userKey (encodeString key) = key := by
    simpa using userKey_encodeString [] hkey
  induction entries with
  | nil => rfl
  | cons entry entries ih =>
      obtain ⟨k, w⟩ := entry
      have hk := (hshort (k, w) List.mem_cons_self).bounds.2.1
      have hcompare := comparator_of_userKey
        (userKey_encodeEntry w (hk.trans (by decide))) hprobe
      have hrest := ih hinc.tail fun other hother =>
        hshort other (List.mem_cons_of_mem _ hother)
      simp only [encodeEntries, List.map_cons] at hrest ⊢
      by_cases hless : k < key
      · rw [if_pos hless] at hcompare
        simp only [SkipList.seek, SkipList.findGreaterOrEqual,
          List.dropWhile_cons, hcompare, find, if_neg (ne_of_lt hless)] at hrest ⊢
        exact hrest
      · rw [if_neg hless] at hcompare
        by_cases heq : k = key
        · subst heq
          simp [SkipList.seek, SkipList.findGreaterOrEqual, hcompare, find]
        · have hnone : find key entries = none := by
            rw [find_eq_none_iff]
            intro hmem
            obtain ⟨other, hother, hotherKey⟩ := List.mem_map.mp hmem
            have hgt := hinc.head_lt other hother
            rw [hotherKey] at hgt
            exact hless hgt
          simp [SkipList.seek, SkipList.findGreaterOrEqual, hcompare, find,
            heq, hnone]

end SimpleKV
