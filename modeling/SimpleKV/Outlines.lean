/-
What the store can tell of a value is its length and whether it is the
tombstone.  Files and engines that agree up to that go through the same
updates and the same choices.
-/
import SimpleKV.LevelLimits

namespace SimpleKV

open SortedAssoc

section Pointwise

variable {A : Type} {R : A → A → Prop} {xs ys : List A}

theorem forall₂_eraseP (h : List.Forall₂ R xs ys) {p q : A → Bool}
    (hpq : ∀ x y, R x y → p x = q y) :
    List.Forall₂ R (xs.eraseP p) (ys.eraseP q) := by
  induction h with
  | nil => exact List.Forall₂.nil
  | @cons x y xs ys hxy hrest ih =>
      rw [List.eraseP_cons, List.eraseP_cons, hpq x y hxy]
      cases q y with
      | true => exact hrest
      | false => exact List.Forall₂.cons hxy ih

theorem forall₂_orderedInsert {r : A → A → Prop} [DecidableRel r]
    (hr : ∀ a b x y, R a b → R x y → (r a x ↔ r b y)) {a b : A} (hab : R a b)
    (h : List.Forall₂ R xs ys) :
    List.Forall₂ R (xs.orderedInsert r a) (ys.orderedInsert r b) := by
  induction h with
  | nil => exact List.Forall₂.cons hab List.Forall₂.nil
  | @cons x y xs ys hxy hrest ih =>
      rw [List.orderedInsert, List.orderedInsert]
      by_cases hax : r a x
      · rw [if_pos hax, if_pos ((hr a b x y hab hxy).mp hax)]
        exact List.Forall₂.cons hab (List.Forall₂.cons hxy hrest)
      · rw [if_neg hax, if_neg fun hby => hax ((hr a b x y hab hxy).mpr hby)]
        exact List.Forall₂.cons hxy ih

theorem forall₂_imp_of_mem (h : List.Forall₂ R xs ys) {S : A → A → Prop}
    (himp : ∀ x ∈ xs, ∀ y ∈ ys, R x y → S x y) : List.Forall₂ S xs ys := by
  induction h with
  | nil => exact List.Forall₂.nil
  | cons hxy _ ih =>
      apply List.Forall₂.cons
      · exact himp _ (List.mem_cons_self ..) _ (List.mem_cons_self ..) hxy
      · apply ih
        intro x hx y hy
        exact himp x (List.mem_cons_of_mem _ hx) y (List.mem_cons_of_mem _ hy)

end Pointwise

/-- What the store can tell of a value. -/
def shape (value : Bytes) : Nat × Bool :=
  (value.length, decide (value = tombValue))

/-- A table without the bytes of its values. -/
def outline (entries : List (Bytes × Bytes)) : List (Bytes × Nat × Bool) :=
  entries.map (Prod.map id shape)

theorem map_fst_outline (entries : List (Bytes × Bytes)) :
    (outline entries).map Prod.fst = entries.map Prod.fst := by
  rw [outline, List.map_map]
  rfl

theorem isSome_find_outline (key : Bytes) (entries : List (Bytes × Bytes)) :
    (find key (outline entries)).isSome = (find key entries).isSome := by
  rw [outline, find_map, Option.isSome_map]

/-- A file without the bytes of its values. -/
structure FileOutline where
  levelId : Nat
  fileId : Int
  lowerBound : Bytes
  upperBound : Bytes
  contents : List (Bytes × Nat × Bool)

def File.outline (file : File) : FileOutline where
  levelId := file.levelId
  fileId := file.fileId
  lowerBound := file.lowerBound
  upperBound := file.upperBound
  contents := SimpleKV.outline file.scan

/-- Two files that differ in the bytes of values only. -/
structure Alike (file other : File) : Prop where
  outline_eq : file.outline = other.outline

namespace Alike

variable {file other : File}

theorem refl (file : File) : Alike file file :=
  ⟨rfl⟩

theorem levelId (h : Alike file other) : file.levelId = other.levelId :=
  congrArg FileOutline.levelId h.outline_eq

theorem fileId (h : Alike file other) : file.fileId = other.fileId :=
  congrArg FileOutline.fileId h.outline_eq

theorem lowerBound (h : Alike file other) :
    file.lowerBound = other.lowerBound :=
  congrArg FileOutline.lowerBound h.outline_eq

theorem upperBound (h : Alike file other) :
    file.upperBound = other.upperBound :=
  congrArg FileOutline.upperBound h.outline_eq

theorem contents (h : Alike file other) :
    outline file.scan = outline other.scan :=
  congrArg FileOutline.contents h.outline_eq

theorem keys (h : Alike file other) :
    file.scan.map Prod.fst = other.scan.map Prod.fst := by
  rw [← map_fst_outline, h.contents, map_fst_outline]

/-- Files that hold alike tables. -/
theorem of_holds {entries entries' : List (Bytes × Bytes)}
    (hholds : file.Holds entries) (hsmall : file.Small)
    (hholds' : other.Holds entries') (hsmall' : other.Small)
    (hlevel : file.levelId = other.levelId)
    (hid : file.fileId = other.fileId)
    (houtline : outline entries = outline entries') : Alike file other := by
  have hkeys : entries.map Prod.fst = entries'.map Prod.fst := by
    rw [← map_fst_outline, houtline, map_fst_outline]
  have hlower : file.lowerBound = other.lowerBound := by
    have h := hholds.lower
    rw [← List.head?_map, hkeys, List.head?_map, hholds'.lower,
      Option.some.injEq] at h
    exact h.symm
  have hupper : file.upperBound = other.upperBound := by
    have h := hholds.upper
    rw [← List.getLast?_map, hkeys, List.getLast?_map, hholds'.upper,
      Option.some.injEq] at h
    exact h.symm
  constructor
  rw [File.outline, File.outline, hlevel, hid, hlower, hupper,
    hholds.scan_eq hsmall, hholds'.scan_eq hsmall', houtline]

/-- Alike files stay so when they are moved under one id. -/
theorem moved (h : Alike file other) {level : Nat} {top top' : Int}
    {file' other' : File} (hmoved : Moved level top file file')
    (hmoved' : Moved level top' other other')
    (hid : file'.fileId = other'.fileId) : Alike file' other' := by
  constructor
  rw [File.outline, File.outline, hmoved.level_eq, hmoved'.level_eq, hid,
    hmoved.lower, hmoved'.lower, hmoved.upper, hmoved'.upper, h.lowerBound,
    h.upperBound, File.scan_congr hmoved.mmap, File.scan_congr hmoved'.mmap,
    h.contents]

end Alike

/-- Lists of files that are alike one by one. -/
abbrev FilesAlike : List File → List File → Prop :=
  List.Forall₂ Alike

theorem filesAlike_refl (files : List File) : FilesAlike files files :=
  List.forall₂_same.mpr fun file _ => Alike.refl file

/-- Two engines that differ in the bytes of values only. -/
structure EngineAlike (engine engine' : StorageEngine) : Prop where
  fileId : engine.fileId = engine'.fileId
  limit : engine.level0FilesNumberLimit = engine'.level0FilesNumberLimit
  levels : List.Forall₂ FilesAlike engine.levelFiles engine'.levelFiles

theorem forall₂_level {levels levels' : LevelFiles}
    (h : List.Forall₂ FilesAlike levels levels') (i : Nat) :
    FilesAlike (levels.level i) (levels'.level i) := by
  induction h generalizing i with
  | nil => exact List.Forall₂.nil
  | cons hfiles _ ih =>
      cases i with
      | zero => exact hfiles
      | succ i => exact ih i

theorem forall₂_setLevel {levels levels' : LevelFiles}
    (h : List.Forall₂ FilesAlike levels levels') (i : Nat)
    {files files' : List File} (hfiles : FilesAlike files files') :
    List.Forall₂ FilesAlike (levels.setLevel i files)
      (levels'.setLevel i files') := by
  induction levels, i, files using LevelFiles.setLevel.induct
      generalizing levels' with
  | case1 files =>
      cases h
      exact List.Forall₂.cons hfiles List.Forall₂.nil
  | case2 i files ih =>
      cases h
      exact List.Forall₂.cons List.Forall₂.nil (ih List.Forall₂.nil hfiles)
  | case3 head levels files =>
      cases h with
      | cons _ hrest => exact List.Forall₂.cons hfiles hrest
  | case4 head levels i files ih =>
      cases h with
      | cons hhead hrest => exact List.Forall₂.cons hhead (ih hrest hfiles)

namespace EngineAlike

variable {engine engine' : StorageEngine} {file file' : File}
  {files files' compacted compacted' : List File}

theorem refl (engine : StorageEngine) : EngineAlike engine engine :=
  ⟨rfl, rfl, List.forall₂_same.mpr fun files _ => filesAlike_refl files⟩

theorem level (h : EngineAlike engine engine') (i : Nat) :
    FilesAlike (engine.level i) (engine'.level i) :=
  forall₂_level h.levels i

/-- The files have the same keys, in the same order. -/
theorem keys (h : EngineAlike engine engine') :
    engine.files.flatMap (fun file => file.scan.map Prod.fst) =
      engine'.files.flatMap fun file => file.scan.map Prod.fst := by
  have hfiles : FilesAlike engine.files engine'.files :=
    List.rel_flatten h.levels
  generalize engine.files = files at hfiles
  generalize engine'.files = files' at hfiles
  induction hfiles with
  | nil => rfl
  | cons hfile _ ih => rw [List.flatMap_cons, List.flatMap_cons, hfile.keys, ih]

theorem installFile (h : EngineAlike engine engine')
    (hfile : Alike file file') :
    EngineAlike (engine.installFile file) (engine'.installFile file') := by
  refine ⟨h.fileId, h.limit, ?_⟩
  change List.Forall₂ FilesAlike (engine.levelFiles.setLevel _ _)
    (engine'.levelFiles.setLevel _ _)
  rw [hfile.levelId]
  apply forall₂_setLevel h.levels
  apply forall₂_orderedInsert ?_ hfile (h.level _)
  intro a b x y hab hxy
  rw [hab.lowerBound, hxy.lowerBound]

theorem eraseFile (h : EngineAlike engine engine')
    (hfile : Alike file file') :
    EngineAlike (engine.eraseFile file) (engine'.eraseFile file') := by
  refine ⟨h.fileId, h.limit, ?_⟩
  change List.Forall₂ FilesAlike (engine.levelFiles.setLevel _ _)
    (engine'.levelFiles.setLevel _ _)
  rw [hfile.levelId]
  apply forall₂_setLevel h.levels
  apply forall₂_eraseP (h.level _)
  intro x y hxy
  rw [hxy.fileId, hfile.fileId]

/-- Alike compactions make alike updates. -/
theorem updateMap (h : EngineAlike engine engine')
    (hfiles : FilesAlike files files')
    (hcompacted : FilesAlike compacted compacted') :
    EngineAlike (engine.updateMap compacted files)
      (engine'.updateMap compacted' files') := by
  have herase : EngineAlike (files.foldl StorageEngine.eraseFile engine)
      (files'.foldl StorageEngine.eraseFile engine') := by
    clear hcompacted
    induction hfiles generalizing engine engine' with
    | nil => exact h
    | cons hfile _ ih => exact ih (h.eraseFile hfile)
  rw [StorageEngine.updateMap, StorageEngine.updateMap]
  generalize files.foldl StorageEngine.eraseFile engine = erased at herase
  generalize files'.foldl StorageEngine.eraseFile engine' = erased' at herase
  induction hcompacted generalizing erased erased' with
  | nil => exact herase
  | cons hfile _ ih => exact ih _ _ (herase.installFile hfile)

end EngineAlike

theorem findOverlapFilesLevel0_alike {candidates candidates' : List File}
    (h : FilesAlike candidates candidates') {files files' : List File}
    (hfiles : FilesAlike files files') (upperbound : Bytes) :
    FilesAlike (findOverlapFilesLevel0 candidates files upperbound).1
        (findOverlapFilesLevel0 candidates' files' upperbound).1 ∧
      (findOverlapFilesLevel0 candidates files upperbound).2 =
        (findOverlapFilesLevel0 candidates' files' upperbound).2 := by
  induction h generalizing files files' upperbound with
  | nil => exact ⟨hfiles, rfl⟩
  | cons hfile _ ih =>
      simp only [findOverlapFilesLevel0, hfile.lowerBound, hfile.upperBound]
      split_ifs
      · exact ih (List.rel_append hfiles
          (List.Forall₂.cons hfile List.Forall₂.nil)) _
      · exact ih (List.rel_append hfiles
          (List.Forall₂.cons hfile List.Forall₂.nil)) _
      · exact ⟨hfiles, rfl⟩

theorem findOverlapFilesBasedOnBound_alike
    {candidates candidates' files files' : List File}
    (h : FilesAlike candidates candidates') (hfiles : FilesAlike files files')
    (lowerbound upperbound : Bytes) :
    FilesAlike
      (findOverlapFilesBasedOnBound candidates files lowerbound upperbound)
      (findOverlapFilesBasedOnBound candidates' files' lowerbound
        upperbound) := by
  refine List.rel_append hfiles (List.rel_filter ?_ h)
  intro file other hfile
  simp only [hfile.lowerBound, hfile.upperBound]

/-- `Compact` makes alike choices. -/
theorem EngineAlike.compactFiles {engine engine' : StorageEngine}
    (h : EngineAlike engine engine') (levelId : Nat) :
    Option.Rel FilesAlike (SimpleKV.compactFiles engine levelId)
      (SimpleKV.compactFiles engine' levelId) := by
  have hlevel := h.level levelId
  have hnext := h.level (levelId + 1)
  simp only [SimpleKV.compactFiles, hlevel.length_eq, h.limit]
  by_cases hwithin : (engine'.level levelId).length ≤
      engine'.level0FilesNumberLimit * 10 ^ levelId
  · rw [if_pos hwithin, if_pos hwithin]
    exact Option.Rel.none
  · rw [if_neg hwithin, if_neg hwithin]
    generalize engine.level levelId = files at hlevel
    generalize engine'.level levelId = files' at hlevel
    cases hlevel with
    | nil => exact Option.Rel.none
    | cons hfirst hrest =>
        have hsingle := List.Forall₂.cons hfirst
          (List.Forall₂.nil : FilesAlike [] [])
        simp only [hfirst.lowerBound, hfirst.upperBound]
        split_ifs
        · obtain ⟨hfiles, hupper⟩ :=
            findOverlapFilesLevel0_alike hrest hsingle _
          rw [hupper]
          exact Option.Rel.some
            (findOverlapFilesBasedOnBound_alike hnext hfiles _ _)
        · exact Option.Rel.some
            (findOverlapFilesBasedOnBound_alike hnext hsingle _ _)

end SimpleKV
