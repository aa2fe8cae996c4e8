/-
Byte-addressed memory with blocks from an allocator.  An access is defined when
it stays inside one live block; a store outside a region leaves the region's
bytes alone; words take eight bytes, the lowest first.
-/
import Mathlib.Algebra.Order.Ring.Nat
import Mathlib.Data.List.Pairwise
import Mathlib.Tactic.Common

namespace ByteMemory

/-- The addresses from `start` on. -/
structure Region where
  start : Nat
  size : Nat
deriving DecidableEq

namespace Region

def stop (r : Region) : Nat := r.start + r.size

/-- No common address. -/
def Apart (r s : Region) : Prop :=
  r.stop ≤ s.start ∨ s.stop ≤ r.start

def Within (r s : Region) : Prop :=
  s.start ≤ r.start ∧ r.stop ≤ s.stop

instance Apart.decidable (r s : Region) : Decidable (r.Apart s) :=
  inferInstanceAs (Decidable (_ ∨ _))

variable {r s t u : Region}

theorem Apart.symm (h : r.Apart s) : s.Apart r :=
  Or.symm h

instance : Std.Symm Apart := ⟨fun _ _ => Apart.symm⟩

theorem Apart.mono (h : r.Apart s) (hr : t.Within r) (hs : u.Within s) :
    t.Apart u := by
  unfold Apart Within at *
  omega

theorem Apart.start_ne (h : r.Apart s) (hr : 0 < r.size) (hs : 0 < s.size) :
    s.start ≠ r.start := by
  unfold Apart stop at h
  omega

theorem Within.refl (r : Region) : r.Within r :=
  ⟨le_refl _, le_refl _⟩

theorem Within.trans (hrs : r.Within s) (hst : s.Within t) : r.Within t :=
  ⟨hst.1.trans hrs.1, hrs.2.trans hst.2⟩

/-- Two parts of one region, the first before the second. -/
theorem apart_of_le {a b m n : Nat} (h : a + m ≤ b) :
    (⟨a, m⟩ : Region).Apart ⟨b, n⟩ :=
  Or.inl h

end Region

/-- The `n` bytes from `a` on. -/
def bytes (ram : Nat → UInt8) (a : Nat) : Nat → List UInt8
  | 0 => []
  | n + 1 => ram a :: bytes ram (a + 1) n

variable {ram ram' : Nat → UInt8}

@[simp] theorem length_bytes (a n : Nat) : (bytes ram a n).length = n := by
  induction n generalizing a with
  | zero => rfl
  | succ n ih => rw [bytes, List.length_cons, ih]

theorem getElem?_bytes (a n i : Nat) :
    (bytes ram a n)[i]? = if i < n then some (ram (a + i)) else none := by
  induction n generalizing a i with
  | zero => simp [bytes]
  | succ n ih =>
      cases i with
      | zero => simp [bytes]
      | succ i =>
          rw [bytes, List.getElem?_cons_succ, ih]
          simp only [Nat.add_lt_add_iff_right, Nat.add_assoc, Nat.add_comm 1]

theorem bytes_add (a m n : Nat) :
    bytes ram a (m + n) = bytes ram a m ++ bytes ram (a + m) n := by
  induction m generalizing a with
  | zero => simp [bytes]
  | succ m ih =>
      rw [Nat.succ_add, bytes, ih, bytes, List.cons_append]
      congr 3
      omega

theorem bytes_congr {a n : Nat}
    (h : ∀ x, a ≤ x → x < a + n → ram x = ram' x) :
    bytes ram a n = bytes ram' a n := by
  induction n generalizing a with
  | zero => rfl
  | succ n ih =>
      rw [bytes, bytes, h a (le_refl _) (by omega)]
      congr 1
      apply ih
      intro x hle hlt
      exact h x (by omega) (by omega)

/-- Memory after a store of some bytes at `a`. -/
def stored (ram : Nat → UInt8) (a : Nat) (data : List UInt8) : Nat → UInt8 :=
  fun x => if a ≤ x then (data[x - a]?).getD (ram x) else ram x

theorem stored_of_outside {a x : Nat} {data : List UInt8}
    (h : x < a ∨ a + data.length ≤ x) : stored ram a data x = ram x := by
  unfold stored
  split_ifs with hle
  · rw [List.getElem?_eq_none (by omega), Option.getD_none]
  · rfl

theorem bytes_stored (a : Nat) (data : List UInt8) :
    bytes (stored ram a data) a data.length = data := by
  apply List.ext_getElem?
  intro i
  rw [getElem?_bytes]
  split_ifs with hlt
  · simp [stored, List.getElem?_eq_getElem hlt]
  · rw [List.getElem?_eq_none (by omega)]

@[simp] theorem stored_nil (ram : Nat → UInt8) (a : Nat) :
    stored ram a [] = ram := by
  funext x
  simp [stored]

/-- Stores one behind the other. -/
theorem stored_append (a : Nat) (data more : List UInt8) :
    stored (stored ram a data) (a + data.length) more =
      stored ram a (data ++ more) := by
  funext x
  by_cases hlt : x < a + data.length
  · rw [stored_of_outside (Or.inl hlt)]
    unfold stored
    split_ifs with hle
    · rw [List.getElem?_append_left (by omega)]
    · rfl
  · have hle : a ≤ x := by omega
    rw [stored, if_pos (not_lt.mp hlt), stored_of_outside (Or.inr (by omega)),
      stored, if_pos hle, List.getElem?_append_right (by omega), Nat.sub_sub]

/-- Both memories have the same bytes in a region. -/
def Agree (ram ram' : Nat → UInt8) (r : Region) : Prop :=
  ∀ x, r.start ≤ x → x < r.stop → ram x = ram' x

namespace Agree

variable {ram'' : Nat → UInt8} {r s : Region}

theorem refl (ram : Nat → UInt8) (r : Region) : Agree ram ram r :=
  fun _ _ _ => rfl

theorem trans (h : Agree ram ram' r) (h' : Agree ram' ram'' r) :
    Agree ram ram'' r :=
  fun x hle hlt => (h x hle hlt).trans (h' x hle hlt)

theorem mono (h : Agree ram ram' r) (hwithin : s.Within r) :
    Agree ram ram' s :=
  fun x hle hlt => h x (hwithin.1.trans hle) (hlt.trans_le hwithin.2)

theorem bytes_eq (h : Agree ram ram' r) :
    bytes ram r.start r.size = bytes ram' r.start r.size :=
  bytes_congr h

/-- A store leaves what is apart from it. -/
theorem stored {a : Nat} {data : List UInt8}
    (h : (⟨a, data.length⟩ : Region).Apart r) :
    Agree ram (ByteMemory.stored ram a data) r := by
  intro x hle hlt
  symm
  apply stored_of_outside
  rcases h with h | h
  · exact Or.inr (h.trans hle)
  · exact Or.inl (hlt.trans_le h)

end Agree

/-- A number in `n` bytes, the lowest first. -/
def encodeWord : Nat → Nat → List UInt8
  | 0, _ => []
  | n + 1, v => UInt8.ofNat v :: encodeWord n (v / 256)

def decodeWord : List UInt8 → Nat
  | [] => 0
  | byte :: rest => byte.toNat + 256 * decodeWord rest

@[simp] theorem length_encodeWord (n v : Nat) : (encodeWord n v).length = n := by
  induction n generalizing v with
  | zero => rfl
  | succ n ih => rw [encodeWord, List.length_cons, ih]

theorem decodeWord_encodeWord {n v : Nat} (h : v < 256 ^ n) :
    decodeWord (encodeWord n v) = v := by
  induction n generalizing v with
  | zero =>
      rw [pow_zero] at h
      simp only [encodeWord, decodeWord]
      omega
  | succ n ih =>
      have hrest : v / 256 < 256 ^ n := by
        apply Nat.div_lt_of_lt_mul
        rwa [pow_succ, mul_comm] at h
      rw [encodeWord, decodeWord, ih hrest, UInt8.toNat_ofNat']
      omega

/-- The word at an address. -/
def wordAt (ram : Nat → UInt8) (p : Nat) : Nat :=
  decodeWord (bytes ram p 8)

theorem wordAt_stored {p v : Nat} (hv : v < 256 ^ 8) :
    wordAt (stored ram p (encodeWord 8 v)) p = v := by
  have hbytes : bytes (stored ram p (encodeWord 8 v)) p
      (encodeWord 8 v).length = encodeWord 8 v := bytes_stored p _
  rw [length_encodeWord] at hbytes
  rw [wordAt, hbytes, decodeWord_encodeWord hv]

theorem Agree.wordAt_eq {r : Region} (h : Agree ram ram' r) {p : Nat}
    (hwithin : (⟨p, 8⟩ : Region).Within r) : wordAt ram' p = wordAt ram p :=
  congrArg decodeWord (h.mono hwithin).bytes_eq.symm

/-- Memory and the blocks that the allocator has handed out, with the number of
its calls so far. -/
structure Machine where
  ram : Nat → UInt8
  blocks : List Region
  calls : Nat

/-- An allocator.  It may do something else at each call, and may fail; a block
that it returns is aligned and apart from all live ones. -/
structure Allocator where
  new : Nat → List Region → Nat → Option Nat
  pos : ∀ {call blocks size a}, new call blocks size = some a → 0 < a
  aligned : ∀ {call blocks size a}, new call blocks size = some a → 8 ∣ a
  fits : ∀ {call blocks size a}, new call blocks size = some a →
    a + size ≤ 256 ^ 8
  apart : ∀ {call blocks size a}, new call blocks size = some a →
    ∀ block ∈ blocks, (⟨a, size⟩ : Region).Apart block

/-- The end of the last block. -/
def top (blocks : List Region) : Nat :=
  (blocks.map Region.stop).foldr max 0

theorem stop_le_top {blocks : List Region} {block : Region}
    (h : block ∈ blocks) : block.stop ≤ top blocks := by
  induction blocks with
  | nil => exact absurd h (by simp)
  | cons first blocks ih =>
      rcases List.mem_cons.mp h with rfl | h
      · exact le_max_left _ _
      · exact (ih h).trans (le_max_right _ _)

/-- The allocator that puts each block behind all live ones. -/
def Allocator.above : Allocator where
  new _ blocks size :=
    let a := 16 * (top blocks / 16 + 1)
    if a + size ≤ 256 ^ 8 then some a else none
  pos := by
    intro call blocks size a h
    dsimp only at h
    split_ifs at h
    rw [← Option.some.inj h]
    omega
  aligned := by
    intro call blocks size a h
    dsimp only at h
    split_ifs at h
    rw [← Option.some.inj h]
    omega
  fits := by
    intro call blocks size a h
    dsimp only at h
    split_ifs at h with hfits
    rw [← Option.some.inj h]
    exact hfits
  apart := by
    intro call blocks size a h block hblock
    dsimp only at h
    split_ifs at h
    have hstop := stop_le_top hblock
    rw [← Option.some.inj h]
    right
    dsimp only
    omega

namespace Machine

/-- The block that an address is in. -/
def blockOf (m : Machine) (p : Nat) : Option Region :=
  m.blocks.find? fun block => block.start ≤ p ∧ p < block.stop

/-- The bytes that may be read from an address on. -/
def readable (m : Machine) (p : Nat) : List UInt8 :=
  match m.blockOf p with
  | some block => bytes m.ram p (block.stop - p)
  | none => []

/-- `none` is a store that leaves the block. -/
def store (m : Machine) (p : Nat) (data : List UInt8) : Option Machine := do
  let block ← m.blockOf p
  if p + data.length ≤ block.stop then
    some { m with ram := stored m.ram p data }
  else none

/-- `memcpy` and the like; nothing to copy is always defined. -/
def write (m : Machine) (p : Nat) (data : List UInt8) : Option Machine :=
  if data = [] then some m else m.store p data

def loadWord (m : Machine) (p : Nat) : Option Nat :=
  let word := (m.readable p).take 8
  if word.length = 8 then some (decodeWord word) else none

def storeWord (m : Machine) (p v : Nat) : Option Machine :=
  m.store p (encodeWord 8 v)

/-- Memory after a word is stored. -/
def withWord (m : Machine) (p v : Nat) : Machine :=
  { m with ram := stored m.ram p (encodeWord 8 v) }

/-- `new char[size]`. -/
def new (allocator : Allocator) (size : Nat) (m : Machine) :
    Option (Nat × Machine) := do
  let a ← allocator.new m.calls m.blocks size
  some (a, { m with blocks := ⟨a, size⟩ :: m.blocks, calls := m.calls + 1 })

/-- `delete[]`. -/
def delete (a : Nat) (m : Machine) : Option Machine :=
  if m.blocks.any fun block => block.start = a then
    some { m with blocks := m.blocks.filter fun block => block.start ≠ a }
  else none

/-- Live blocks have addresses, and no two of them a common one. -/
structure Valid (m : Machine) : Prop where
  apart : m.blocks.Pairwise Region.Apart
  pos : ∀ block ∈ m.blocks, 0 < block.start
  size_pos : ∀ block ∈ m.blocks, 0 < block.size
  fits : ∀ block ∈ m.blocks, block.stop ≤ 256 ^ 8

variable {m : Machine} {block r : Region} {p : Nat}

theorem Valid.blockOf_eq (h : m.Valid) (hblock : block ∈ m.blocks)
    (hle : block.start ≤ p) (hlt : p < block.stop) :
    m.blockOf p = some block := by
  cases hfind : m.blockOf p with
  | none =>
      have hnone := List.find?_eq_none.mp hfind block hblock
      simp [hle, hlt] at hnone
  | some other =>
      have hother := List.find?_some hfind
      rw [decide_eq_true_eq] at hother
      by_cases heq : other = block
      · rw [heq]
      · have hapart := h.apart.forall (List.mem_of_find?_eq_some hfind) hblock
          heq
        unfold Region.Apart at hapart
        omega

/-- What can be read at the start of a region in a live block. -/
theorem Valid.readable_eq (h : m.Valid) (hblock : block ∈ m.blocks)
    (hwithin : r.Within block) (hpos : 0 < r.size) :
    ∃ rest, m.readable r.start = bytes m.ram r.start r.size ++ rest := by
  obtain ⟨hle, hstop⟩ := hwithin
  have hlt : r.start < block.stop := by
    unfold Region.stop at hstop ⊢
    omega
  refine ⟨bytes m.ram r.stop (block.stop - r.stop), ?_⟩
  rw [readable, h.blockOf_eq hblock hle hlt]
  change bytes m.ram r.start (block.stop - r.start) = _
  have hsplit : block.stop - r.start = r.size + (block.stop - r.stop) := by
    unfold Region.stop at hstop ⊢
    omega
  rw [hsplit, bytes_add]
  rfl

theorem Valid.store_eq (h : m.Valid) (hblock : block ∈ m.blocks)
    {data : List UInt8} (hwithin : (⟨p, data.length⟩ : Region).Within block)
    (hpos : 0 < data.length) :
    m.store p data = some { m with ram := stored m.ram p data } := by
  obtain ⟨hle, hstop⟩ := hwithin
  have hlt : p < block.stop := by
    unfold Region.stop at hstop ⊢
    simp only at hstop
    omega
  simp only [store, h.blockOf_eq hblock hle hlt, Option.bind_eq_bind,
    Option.bind_some]
  exact if_pos hstop

theorem Valid.write_eq (h : m.Valid) (hblock : block ∈ m.blocks)
    {data : List UInt8} (hwithin : (⟨p, data.length⟩ : Region).Within block) :
    m.write p data = some { m with ram := stored m.ram p data } := by
  unfold write
  split_ifs with hnil
  · rw [hnil, stored_nil]
  · exact h.store_eq hblock hwithin (List.length_pos_iff.mpr hnil)

theorem Valid.loadWord_eq (h : m.Valid) (hblock : block ∈ m.blocks)
    (hwithin : (⟨p, 8⟩ : Region).Within block) :
    m.loadWord p = some (wordAt m.ram p) := by
  obtain ⟨rest, hread⟩ :=
    h.readable_eq hblock hwithin (show 0 < 8 by decide)
  change m.readable p = bytes m.ram p 8 ++ rest at hread
  rw [loadWord, hread, List.take_left' (length_bytes p 8)]
  exact if_pos (length_bytes p 8)

theorem Valid.withRam (h : m.Valid) (ram : Nat → UInt8) :
    Valid { m with ram } :=
  ⟨h.apart, h.pos, h.size_pos, h.fits⟩

/-- Some blocks are given back. -/
theorem Valid.filter (h : m.Valid) {m' : Machine} {keep : Region → Bool}
    (hblocks : m'.blocks = m.blocks.filter keep) : m'.Valid := by
  have hmem : ∀ block ∈ m'.blocks, block ∈ m.blocks := by
    intro block hblock
    rw [hblocks] at hblock
    exact (List.mem_filter.mp hblock).1
  refine ⟨?_, fun block hblock => h.pos block (hmem block hblock),
    fun block hblock => h.size_pos block (hmem block hblock),
    fun block hblock => h.fits block (hmem block hblock)⟩
  rw [hblocks]
  exact h.apart.filter _

/-- A write right behind the last one. -/
theorem Valid.write_more (h : m.Valid) (hblock : block ∈ m.blocks)
    {data more : List UInt8}
    (hwithin : (⟨p, (data ++ more).length⟩ : Region).Within block) :
    ({ m with ram := stored m.ram p data } : Machine).write
        (p + data.length) more =
      some { m with ram := stored m.ram p (data ++ more) } := by
  obtain ⟨hle, hstop⟩ := hwithin
  rw [← stored_append]
  apply (h.withRam (stored m.ram p data)).write_eq hblock
  unfold Region.Within Region.stop at *
  simp only [List.length_append] at hle hstop ⊢
  omega

theorem Valid.new {allocator : Allocator} {size a : Nat} {m' : Machine}
    (h : m.Valid) (hsize : 0 < size)
    (hnew : m.new allocator size = some (a, m')) :
    m' = { m with blocks := ⟨a, size⟩ :: m.blocks, calls := m.calls + 1 } ∧
      m'.Valid ∧ 8 ∣ a ∧
      ∀ block ∈ m.blocks, (⟨a, size⟩ : Region).Apart block := by
  obtain ⟨b, hcall, heq⟩ := Option.bind_eq_some_iff.mp hnew
  rw [Option.some.injEq, Prod.mk.injEq] at heq
  obtain ⟨rfl, rfl⟩ := heq
  have hapart := allocator.apart hcall
  refine ⟨rfl, ⟨List.pairwise_cons.mpr ⟨hapart, h.apart⟩, ?_, ?_, ?_⟩,
    allocator.aligned hcall, hapart⟩
  · intro block hblock
    rcases List.mem_cons.mp hblock with rfl | hblock
    · exact allocator.pos hcall
    · exact h.pos block hblock
  · intro block hblock
    rcases List.mem_cons.mp hblock with rfl | hblock
    · exact hsize
    · exact h.size_pos block hblock
  · intro block hblock
    rcases List.mem_cons.mp hblock with rfl | hblock
    · exact allocator.fits hcall
    · exact h.fits block hblock

/-- The block that came last is given back. -/
theorem Valid.delete_last (h : m.Valid) {m' : Machine} {a size : Nat}
    (hsize : 0 < size) (hblocks : m'.blocks = ⟨a, size⟩ :: m.blocks)
    (hapart : ∀ block ∈ m.blocks, (⟨a, size⟩ : Region).Apart block) :
    m'.delete a = some { m' with blocks := m.blocks } := by
  have hrest : m.blocks.filter (fun block => block.start ≠ a) = m.blocks := by
    apply List.filter_eq_self.mpr
    intro block hblock
    have hne := (hapart block hblock).start_ne hsize (h.size_pos block hblock)
    simpa using hne
  rw [delete, hblocks, if_pos (by simp), List.filter_cons_of_neg (by simp),
    hrest]

end Machine

end ByteMemory
