/-
What a data file contains, as the merge scans it, and what a search over files
finds: levels upwards, ids of a level downwards.
-/
import SimpleKV.StorageEngine
import SimpleKV.Lib.Recency

namespace SimpleKV

open SortedAssoc

/-- The value inside an entry's bytes. -/
def Entry.value (entry : Entry) : Bytes :=
  (extractUserValue entry.data).getD []

/-- All keys and values a scan of the file yields. -/
def File.scan (file : File) : List (Bytes × Bytes) :=
  ((scanFile file 0).getD []).map fun entry => (entry.key, entry.value)

/-- The version of a key in a file. -/
def File.get (file : File) (key : Bytes) : Option Bytes :=
  find key file.scan

/-- How files are placed and read. -/
def fileLayout : Recency.Layout File Bytes Bytes where
  level := File.levelId
  id := File.fileId
  get := File.get

theorem File.entry_value (file : File) (index : Nat) {entry : Bytes × Bytes}
    (hfits : Fits entry) : (file.entry index entry).value = entry.2 := by
  have hvalue := extractUserValue_encodeEntry [] hfits.bounds.1
    hfits.bounds.2.2
  rw [List.append_nil] at hvalue
  simp [Entry.value, File.entry, hvalue]

namespace File.Holds

variable {file : File} {entries : List (Bytes × Bytes)}

/-- A scan yields a prefix of the entries, all of them when the index offset
did not wrap. -/
theorem scan_eq_take (h : file.Holds entries) :
    ∃ count, file.scan = entries.take count ∧
      (∀ index, SimpleKV.scanFile file index =
        some (file.scan.map (file.entry index))) ∧
      (headerSize file.lowerBound file.upperBound +
        (dataBytes entries).length < 2 ^ 32 → file.scan = entries) := by
  obtain ⟨count, hscan, hcount⟩ := h.scanFile
  have hdecode : file.scan = entries.take count := by
    rw [File.scan, hscan 0, Option.getD_some, List.map_map]
    refine List.map_congr_left (fun entry hentry => ?_) |>.trans (List.map_id _)
    have hfits := h.fits entry (List.mem_of_mem_take hentry)
    simp only [Function.comp_apply, file.entry_value 0 hfits]
    rfl
  refine ⟨count, hdecode, fun index => ?_, fun hsmall => ?_⟩
  · rw [hdecode, hscan index]
  · rw [hdecode, hcount hsmall, List.take_length]

theorem scanFile_eq (h : file.Holds entries) (index : Nat) :
    SimpleKV.scanFile file index =
      some (file.scan.map (file.entry index)) := by
  obtain ⟨_, _, hscan, _⟩ := h.scan_eq_take
  exact hscan index

theorem scan_eq_of_lt (h : file.Holds entries)
    (hlt : headerSize file.lowerBound file.upperBound +
      (dataBytes entries).length < 2 ^ 32) : file.scan = entries := by
  obtain ⟨_, _, _, hscan⟩ := h.scan_eq_take
  exact hscan hlt

theorem scan_eq (h : file.Holds entries) (hsmall : file.Small) :
    file.scan = entries :=
  h.scan_eq_of_lt (h.length_mmap_ge.trans_lt hsmall)

theorem mem_of_mem_scan (h : file.Holds entries) {entry : Bytes × Bytes}
    (hentry : entry ∈ file.scan) : entry ∈ entries := by
  obtain ⟨count, hscan, _⟩ := h.scan_eq_take
  rw [hscan] at hentry
  exact List.mem_of_mem_take hentry

theorem increasing_scan (h : file.Holds entries) : Increasing file.scan := by
  obtain ⟨count, hscan, _⟩ := h.scan_eq_take
  rw [hscan]
  exact List.Pairwise.sublist (List.take_sublist _ _) h.increasing

theorem get_eq_some_iff (h : file.Holds entries) {key value : Bytes} :
    file.get key = some value ↔ (key, value) ∈ file.scan :=
  h.increasing_scan.find_eq_some_iff

/-- A file only has keys between its bounds. -/
theorem bounds_of_get_ne_none (h : file.Holds entries) {key : Bytes}
    (hget : file.get key ≠ none) :
    file.lowerBound ≤ key ∧ key ≤ file.upperBound := by
  obtain ⟨value, hvalue⟩ := Option.ne_none_iff_exists'.mp hget
  have hmem := h.mem_of_mem_scan (h.get_eq_some_iff.mp hvalue)
  exact ⟨h.lower_le _ hmem, h.le_upper _ hmem⟩

theorem lower_le_upper (h : file.Holds entries) :
    file.lowerBound ≤ file.upperBound := by
  obtain ⟨entry, hentry, hkey⟩ := List.mem_map.mp h.lowerBound_mem
  rw [← hkey]
  exact h.le_upper entry hentry

end File.Holds

/-- A file as flushes and compactions make them: named after its level and id,
which the counter `top` has handed out, and holding short entries. -/
structure File.Stored (file : File) (top : Int) : Prop where
  name : file.fileName = SimpleKV.fileName file.levelId file.fileId
  nonneg : 0 ≤ file.fileId
  le_top : file.fileId ≤ top
  level_le : (file.levelId : Int) ≤ file.fileId
  holds : ∃ entries, file.Holds entries ∧ ∀ entry ∈ entries, Short entry

namespace File.Stored

variable {file other : File} {top : Int}

theorem mono (h : file.Stored top) {top' : Int} (htop : top ≤ top') :
    file.Stored top' :=
  { h with le_top := h.le_top.trans htop }

theorem lower_le_upper (h : file.Stored top) :
    file.lowerBound ≤ file.upperBound := by
  obtain ⟨entries, hholds, _⟩ := h.holds
  exact hholds.lower_le_upper

theorem bounds_of_get_ne_none (h : file.Stored top) {key : Bytes}
    (hget : file.get key ≠ none) :
    file.lowerBound ≤ key ∧ key ≤ file.upperBound := by
  obtain ⟨entries, hholds, _⟩ := h.holds
  exact hholds.bounds_of_get_ne_none hget

theorem parse (h : file.Stored top) (htop : top < 10 ^ 8) :
    parseFileName file.fileName = some (file.levelId, file.fileId) := by
  have hle := h.le_top
  have hlevel := h.level_le
  rw [h.name]
  exact parseFileName_fileName (by omega) h.nonneg (by omega)

/-- The constructor reads back a stored file. -/
theorem ofName (h : file.Stored top) (htop : top < 10 ^ 8) :
    File.ofName file.fileName file.mmap = some file := by
  obtain ⟨entries, hholds, _⟩ := h.holds
  have hbounds := hholds.bounds_fit.bounds
  obtain ⟨iter, hbytes⟩ := hholds.bytes
  have hsize := hholds.size
  rw [hbytes, File.ofName_layout (h.parse htop) hbounds.2.1 hbounds.2.2,
    ← hbytes]
  cases file
  simp_all

/-- Stored files with different ids have different names. -/
theorem fileName_ne (h : file.Stored top) (h' : other.Stored top)
    (htop : top < 10 ^ 8) (hne : file.fileId ≠ other.fileId) :
    file.fileName ≠ other.fileName := by
  intro heq
  have hparse := h.parse htop
  rw [heq, h'.parse htop] at hparse
  simp only [Option.some.injEq, Prod.mk.injEq] at hparse
  exact hne hparse.2.symm

end File.Stored

end SimpleKV
