/-
Data file names: `FileName` of `util/utils.h` and the parsing at the top of
the `File` constructor.  The writer keeps eight characters of the id; the
reader takes a number of any width.
-/
import SimpleKV.Coding
import Mathlib.Data.List.TakeWhile

namespace SimpleKV

/-- A file name inside the data folder. -/
abbrev Name := List Char

/-- `sprintf("%08d", n)` for a non-negative `n`. -/
def sprintf08d (n : Nat) : List Char :=
  List.replicate (8 - (Nat.toDigits 10 n).length) '0' ++ Nat.toDigits 10 n

/-- `FileName`: `cfile_id[8] = 0` cuts the printed id to eight characters. -/
def fileName (levelId : Nat) (fileId : Int) : Name :=
  Nat.toDigits 10 levelId ++ '_' :: (sprintf08d fileId.toNat).take 8

/-- `std::stoi` on text that starts with neither blank nor sign, as the parts
of a file name do: the leading digits, and an exception when there is none or
the number exceeds an `int`. -/
def stoi (text : List Char) : Option Nat :=
  let digits := text.takeWhile Char.isDigit
  if digits = [] then none
  else if Nat.ofDigitChars 10 digits 0 < 2 ^ 31 then
    some (Nat.ofDigitChars 10 digits 0)
  else none

/-- Level and file id as the `File` constructor reads them.  Without a `_` both
`substr` calls return the whole name. -/
def parseFileName (name : Name) : Option (Nat × Int) := do
  let level := name.takeWhile (· ≠ '_')
  let file := if '_' ∈ name then (name.dropWhile (· ≠ '_')).tail else name
  let levelId ← stoi level
  let fileId ← stoi file
  some (levelId, (fileId : Int))

theorem isDigit_of_mem_sprintf08d {n : Nat} {c : Char}
    (hc : c ∈ sprintf08d n) : c.isDigit = true := by
  rcases List.mem_append.mp hc with hzero | hdigit
  · rw [(List.mem_replicate.mp hzero).2]
    rfl
  · exact Nat.isDigit_of_mem_toDigits (by decide) (by decide) hdigit

theorem length_sprintf08d {n : Nat} (hn : n < 10 ^ 8) :
    (sprintf08d n).length = 8 := by
  have hle := (Nat.length_toDigits_le_iff (b := 10) (n := n) (k := 8)
    (by decide) (by decide)).mpr hn
  rw [sprintf08d, List.length_append, List.length_replicate]
  omega

/-- `stoi` reads back a non-empty digit string. -/
theorem stoi_of_forall_isDigit {digits : List Char} (hne : digits ≠ [])
    (hdigits : ∀ c ∈ digits, c.isDigit = true)
    (hint : Nat.ofDigitChars 10 digits 0 < 2 ^ 31) :
    stoi digits = some (Nat.ofDigitChars 10 digits 0) := by
  have htake : digits.takeWhile Char.isDigit = digits :=
    List.takeWhile_eq_self_iff.mpr hdigits
  simp only [stoi, htake, if_neg hne, if_pos hint]

theorem stoi_toDigits {n : Nat} (hn : n < 2 ^ 31) :
    stoi (Nat.toDigits 10 n) = some n := by
  have hvalue : Nat.ofDigitChars 10 (Nat.toDigits 10 n) 0 = n :=
    Nat.ofDigitChars_ten_toDigits
  rw [stoi_of_forall_isDigit, hvalue]
  · exact List.ne_nil_of_length_pos Nat.length_toDigits_pos
  · exact fun c hc => Nat.isDigit_of_mem_toDigits (by decide) (by decide) hc
  · rwa [hvalue]

theorem stoi_sprintf08d {n : Nat} (hn : n < 10 ^ 8) :
    stoi (sprintf08d n) = some n := by
  have hvalue : Nat.ofDigitChars 10 (sprintf08d n) 0 = n := by
    rw [sprintf08d, Nat.ofDigitChars_append, Nat.ofDigitChars_replicate_zero,
      Nat.mul_zero, Nat.ofDigitChars_ten_toDigits]
  rw [stoi_of_forall_isDigit, hvalue]
  · exact List.ne_nil_of_length_pos (by rw [length_sprintf08d hn]; decide)
  · exact fun c hc => isDigit_of_mem_sprintf08d hc
  · rw [hvalue]
    exact hn.trans (by decide)

/-- Within eight digits the constructor reads back what `FileName` wrote. -/
theorem parseFileName_fileName {levelId : Nat} {fileId : Int}
    (hlevel : levelId < 2 ^ 31) (hnonneg : 0 ≤ fileId)
    (hid : fileId < 10 ^ 8) :
    parseFileName (fileName levelId fileId) = some (levelId, fileId) := by
  have hnat : fileId.toNat < 10 ^ 8 := by omega
  have hfile : (sprintf08d fileId.toNat).take 8 = sprintf08d fileId.toNat := by
    rw [← length_sprintf08d hnat, List.take_length]
  have hlevelChars : ∀ c ∈ Nat.toDigits 10 levelId,
      decide (c ≠ '_') = true := by
    intro c hc
    have hne : c ≠ '_' := fun heq =>
      Nat.underscore_not_in_toDigits (heq ▸ hc)
    simpa using hne
  have hmem : '_' ∈ fileName levelId fileId := by simp [fileName]
  have htake : (fileName levelId fileId).takeWhile (· ≠ '_') =
      Nat.toDigits 10 levelId := by
    rw [fileName, List.takeWhile_append_of_pos hlevelChars]
    simp
  have hdrop : ((fileName levelId fileId).dropWhile (· ≠ '_')).tail =
      sprintf08d fileId.toNat := by
    rw [fileName, List.dropWhile_append_of_pos hlevelChars, hfile]
    simp
  have hcast : ((fileId.toNat : Nat) : Int) = fileId := Int.toNat_of_nonneg hnonneg
  simp only [parseFileName, htake, hdrop, if_pos hmem, stoi_toDigits hlevel,
    stoi_sprintf08d hnat, Option.bind_eq_bind, Option.bind_some, hcast]

/-- Names of distinct files are distinct while ids keep eight digits. -/
theorem fileName_inj {level₁ level₂ : Nat} {id₁ id₂ : Int}
    (hlevel₁ : level₁ < 2 ^ 31) (hlevel₂ : level₂ < 2 ^ 31)
    (hid₁ : 0 ≤ id₁ ∧ id₁ < 10 ^ 8) (hid₂ : 0 ≤ id₂ ∧ id₂ < 10 ^ 8)
    (heq : fileName level₁ id₁ = fileName level₂ id₂) :
    level₁ = level₂ ∧ id₁ = id₂ := by
  have hparse := parseFileName_fileName hlevel₁ hid₁.1 hid₁.2
  rw [heq, parseFileName_fileName hlevel₂ hid₂.1 hid₂.2] at hparse
  simpa [eq_comm] using hparse

/-- Past eight digits the last one is lost. -/
theorem fileName_of_le (levelId : Nat) {fileId : Int} (hid : 10 ^ 8 ≤ fileId) :
    fileName levelId fileId = fileName levelId (fileId / 10) := by
  have hnat : (fileId / 10).toNat = fileId.toNat / 10 := by omega
  have hlong : ∀ n, 10 ^ 7 ≤ n → 8 ≤ (Nat.toDigits 10 n).length := by
    intro n hn
    by_contra hshort
    have hlt := (Nat.length_toDigits_le_iff (b := 10) (n := n) (k := 7)
      (by decide) (by decide)).mp (by omega)
    omega
  have hpadded : ∀ n, 10 ^ 7 ≤ n → sprintf08d n = Nat.toDigits 10 n := by
    intro n hn
    have hlength := hlong n hn
    rw [sprintf08d, Nat.sub_eq_zero_of_le hlength, List.replicate_zero,
      List.nil_append]
  have hcut : (Nat.toDigits 10 fileId.toNat).take 8 =
      (Nat.toDigits 10 (fileId.toNat / 10)).take 8 := by
    rw [Nat.toDigits_of_base_le (by decide) (by omega),
      List.take_append_of_le_length (hlong _ (by omega))]
  rw [fileName, fileName, hnat, hpadded _ (by omega), hpadded _ (by omega),
    hcut]

/-- Every id has the name of one with at most eight digits. -/
theorem exists_fileName_eq (levelId : Nat) {fileId : Int}
    (hnonneg : 0 ≤ fileId) :
    ∃ short, 0 ≤ short ∧ short < 10 ^ 8 ∧
      fileName levelId fileId = fileName levelId short := by
  by_cases hid : fileId < 10 ^ 8
  · exact ⟨fileId, hnonneg, hid, rfl⟩
  · obtain ⟨short, hpos, hlt, hname⟩ := exists_fileName_eq levelId
      (show 0 ≤ fileId / 10 by omega)
    exact ⟨short, hpos, hlt, (fileName_of_le levelId (by omega)).trans hname⟩
termination_by fileId.toNat
decreasing_by omega

/-- The constructor reads an id back exactly when it has eight digits. -/
theorem parseFileName_fileName_iff {levelId : Nat} {fileId : Int}
    (hlevel : levelId < 2 ^ 31) (hnonneg : 0 ≤ fileId) :
    parseFileName (fileName levelId fileId) = some (levelId, fileId) ↔
      fileId < 10 ^ 8 := by
  constructor
  · intro hparse
    obtain ⟨short, hpos, hlt, hname⟩ := exists_fileName_eq levelId hnonneg
    rw [hname, parseFileName_fileName hlevel hpos hlt, Option.some.injEq,
      Prod.mk.injEq] at hparse
    rw [← hparse.2]
    exact hlt
  · exact parseFileName_fileName hlevel hnonneg

end SimpleKV
