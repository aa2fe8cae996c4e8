/-
The regions of an arena by their use.  Whoever stores only into regions that
were handed out leaves the blocks of every other arena alone.
-/
import SimpleKV.Memory

namespace SimpleKV

open ByteMemory

/-- An access that is defined. -/
def defined {α : Type} : Option α → Except Fault α
  | some a => .ok a
  | none => .error .undefined

/-- A call runs out of memory or returns something with `P`. -/
def Ends {α : Type} (result : Except Fault α) (P : α → Prop) : Prop :=
  match result with
  | .ok a => P a
  | .error fault => fault ≠ .undefined

namespace Ends

variable {α β : Type} {x : Except Fault α} {P P' : α → Prop} {Q : β → Prop}

theorem mono (h : Ends x P) (himp : ∀ a, P a → P' a) : Ends x P' := by
  cases x with
  | ok a => exact himp a h
  | error fault => exact h

theorem bind {f : α → Except Fault β} (h : Ends x P)
    (hf : ∀ a, P a → Ends (f a) Q) : Ends (x >>= f) Q := by
  cases x with
  | ok a => exact hf a h
  | error fault => exact h

/-- An access that is defined goes on. -/
theorem bind_defined {o : Option α} {a : α} {f : α → Except Fault β}
    (ho : o = some a) (hf : Ends (f a) Q) : Ends (defined o >>= f) Q := by
  rw [ho]
  exact hf

end Ends

/-- A call follows a partial function: it returns only where that is defined,
and something with `R`; and it is undefined only where that is. -/
inductive Implements {α β : Type} :
    Except Fault α → Option β → (α → β → Prop) → Prop where
  | returns {a : α} {b : β} {R : α → β → Prop} :
      R a b → Implements (.ok a) (some b) R
  | exhausted {fault : Fault} {b : β} {R : α → β → Prop} :
      fault ≠ .undefined → Implements (.error fault) (some b) R
  | excluded {fault : Fault} {R : α → β → Prop} :
      Implements (.error fault) none R

section Implements

variable {α β γ δ : Type} {x : Except Fault α} {spec : Option β}
  {P : α → Prop} {R R' : α → β → Prop} {S : γ → δ → Prop}

theorem Ends.implements {b : β} (h : Ends x P) (himp : ∀ a, P a → R a b) :
    Implements x (some b) R := by
  cases x with
  | ok a => exact .returns (himp a h)
  | error fault => exact .exhausted h

/-- Running out of memory may happen anywhere. -/
theorem implements_error {fault : Fault} (hfault : fault ≠ .undefined) :
    Implements (.error fault) spec R := by
  cases spec with
  | none => exact .excluded
  | some b => exact .exhausted hfault

namespace Implements

theorem bind {f : α → Except Fault γ} {g : β → Option δ}
    (h : Implements x spec R) (hf : ∀ a b, R a b → Implements (f a) (g b) S) :
    Implements (x >>= f) (spec >>= g) S := by
  cases h with
  | returns hrel => exact hf _ _ hrel
  | exhausted hfault => exact implements_error hfault
  | excluded => exact .excluded

theorem mono (h : Implements x spec R) (himp : ∀ a b, R a b → R' a b) :
    Implements x spec R' := by
  cases h with
  | returns hrel => exact .returns (himp _ _ hrel)
  | exhausted hfault => exact .exhausted hfault
  | excluded => exact .excluded

theorem and_spec (h : Implements x spec R) :
    Implements x spec fun a b => R a b ∧ spec = some b := by
  cases h with
  | returns hrel => exact .returns ⟨hrel, rfl⟩
  | exhausted hfault => exact .exhausted hfault
  | excluded => exact .excluded

theorem exists_ok (h : Implements x spec R) {b : β} (hspec : spec = some b)
    (hok : x.toBool = true) : ∃ a, x = .ok a ∧ R a b := by
  cases h with
  | @returns a _ _ hrel =>
      rw [Option.some.injEq] at hspec
      exact ⟨a, rfl, hspec ▸ hrel⟩
  | exhausted _ => exact absurd hok (by simp [Except.toBool])
  | excluded => exact absurd hspec (by simp)

end Implements

end Implements

namespace Memory

variable {m m' m'' : Machine} {memory memory' memory'' other : Memory}
  {r s : Region}

/-- The arena's blocks are live in `m'` as well, with the same bytes. -/
def Kept (m m' : Machine) (memory : Memory) : Prop :=
  ∀ block ∈ m.blocks, block.start ∈ memory.blocks →
    block ∈ m'.blocks ∧ Agree m.ram m'.ram block

theorem Inv.keep (h : memory.Inv m) (hkept : memory.Kept m m') :
    memory.Inv m' where
  owned := by
    intro a ha
    obtain ⟨block, hblock, rfl⟩ := h.owned a ha
    exact ⟨block, (hkept block hblock ha).1, rfl⟩
  tail := by
    rcases h.tail with hnone | ⟨block, hblock, hmine, hwithin⟩
    · exact Or.inl hnone
    · exact Or.inr ⟨block, (hkept block hblock hmine).1, hmine, hwithin⟩
  nodup := h.nodup

theorem Handed.keep (h : memory.Handed m r) (hkept : memory.Kept m m') :
    memory.Handed m' r := by
  obtain ⟨block, hblock, hmine, hwithin⟩ := h.within
  exact ⟨h.pos, ⟨block, (hkept block hblock hmine).1, hmine, hwithin⟩, h.apart⟩

theorem Handed.agree (h : memory.Handed m r) (hkept : memory.Kept m m') :
    Agree m.ram m'.ram r := by
  obtain ⟨block, hblock, hmine, hwithin⟩ := h.within
  exact (hkept block hblock hmine).2.mono hwithin

/-- Work in one arena: it may get new blocks and change bytes in its own; no
other block comes, goes or changes. -/
structure Worked (m : Machine) (memory : Memory) (m' : Machine)
    (memory' : Memory) : Prop where
  grows : ∀ block ∈ m.blocks, block ∈ m'.blocks
  outside : ∀ block ∈ m.blocks, block.start ∉ memory.blocks →
    Agree m.ram m'.ram block
  others : m'.blocks.filter (fun block => block.start ∉ memory'.blocks) =
    m.blocks.filter fun block => block.start ∉ memory.blocks

namespace Worked

theorem refl (m : Machine) (memory : Memory) : Worked m memory m memory :=
  ⟨fun _ => id, fun _ _ _ => .refl _ _, rfl⟩

/-- A block of somebody else stays one. -/
theorem not_mem (h : Worked m memory m' memory') {block : Region}
    (hblock : block ∈ m.blocks) (hnot : block.start ∉ memory.blocks) :
    block.start ∉ memory'.blocks := by
  have hmem : block ∈ m.blocks.filter fun block =>
      block.start ∉ memory.blocks := by
    exact List.mem_filter.mpr ⟨hblock, by simpa using hnot⟩
  rw [← h.others] at hmem
  simpa using (List.mem_filter.mp hmem).2

theorem trans (h : Worked m memory m' memory')
    (h' : Worked m' memory' m'' memory'') : Worked m memory m'' memory'' where
  grows := fun block hblock => h'.grows block (h.grows block hblock)
  outside := by
    intro block hblock hnot
    exact (h.outside block hblock hnot).trans
      (h'.outside block (h.grows block hblock) (h.not_mem hblock hnot))
  others := h'.others.trans h.others

theorem kept (h : Worked m memory m' memory')
    (hdisjoint : ∀ a ∈ other.blocks, a ∉ memory.blocks) :
    other.Kept m m' := by
  intro block hblock hmine
  exact ⟨h.grows block hblock, h.outside block hblock (hdisjoint _ hmine)⟩

theorem disjoint (h : Worked m memory m' memory') (hother : other.Inv m)
    (hdisjoint : ∀ a ∈ other.blocks, a ∉ memory.blocks) :
    ∀ a ∈ other.blocks, a ∉ memory'.blocks := by
  intro a ha
  obtain ⟨block, hblock, rfl⟩ := hother.owned a ha
  exact h.not_mem hblock (hdisjoint _ ha)

end Worked

theorem Inv.ends_allocate (h : memory.Inv m) (hvalid : m.Valid)
    (allocator : Allocator) {bytes : Int} (hpos : 0 < bytes) :
    Ends (memory.allocate allocator bytes m) fun result =>
      Allocated m memory ⟨result.1, bytes.toNat⟩ result.2.1 result.2.2 := by
  cases hcall : memory.allocate allocator bytes m with
  | ok result => exact h.allocate allocator hvalid hcall
  | error fault => exact allocate_error allocator hpos hcall

theorem Inv.ends_allocateAligned (h : memory.Inv m) (hvalid : m.Valid)
    (allocator : Allocator) {bytes : Nat} (hpos : 0 < bytes) :
    Ends (memory.allocateAligned allocator bytes m) fun result =>
      Allocated m memory ⟨result.1, bytes⟩ result.2.1 result.2.2 := by
  cases hcall : memory.allocateAligned allocator bytes m with
  | ok result => exact (h.allocateAligned allocator hvalid hpos hcall).1
  | error fault => exact h.allocateAligned_error allocator hvalid hpos hcall

theorem Allocated.worked (h : Allocated m memory r m' memory') :
    Worked m memory m' memory' where
  grows := h.grows
  outside := by
    intro block _ _
    rw [h.ram]
    exact .refl _ _
  others := h.others

/-- A store into a region that was handed out. -/
theorem Handed.store (h : memory.Handed m r) (hvalid : m.Valid) {p : Nat}
    {data : List UInt8} (hpos : 0 < data.length)
    (hwithin : (⟨p, data.length⟩ : Region).Within r) :
    m.store p data = some { m with ram := stored m.ram p data } ∧
      Worked m memory { m with ram := stored m.ram p data } memory := by
  obtain ⟨block, hblock, hmine, hinside⟩ := h.within
  refine ⟨hvalid.store_eq hblock (hwithin.trans hinside) hpos,
    fun _ => id, ?_, rfl⟩
  intro other hother hnot
  apply Agree.stored
  have hne : block ≠ other := by
    rintro rfl
    exact hnot hmine
  exact (hvalid.apart.forall hblock hother hne).mono
    (hwithin.trans hinside) (.refl _)

/-- The regions in use, by what each is for. -/
structure Owns {C : Type} (m : Machine) (memory : Memory)
    (own : C → Option Region) : Prop where
  valid : m.Valid
  inv : memory.Inv m
  handed : ∀ c r, own c = some r → memory.Handed m r
  apart : ∀ c d r s, c ≠ d → own c = some r → own d = some s → r.Apart s

namespace Owns

variable {C : Type} {own : C → Option Region} {c d : C} {p : Nat}

/-- A region has an address, and it fits a word. -/
theorem bounds (h : memory.Owns m own) (hr : own c = some r) :
    0 < r.start ∧ r.start < 256 ^ 8 := by
  have hhanded := h.handed c r hr
  obtain ⟨block, hblock, _, hle, hstop⟩ := hhanded.within
  have hpos := h.valid.pos block hblock
  have hfits := h.valid.fits block hblock
  have hsize := hhanded.pos
  unfold Region.stop at hstop hfits
  omega

theorem loadWord (h : memory.Owns m own) (hr : own c = some r)
    (hwithin : (⟨p, 8⟩ : Region).Within r) :
    m.loadWord p = some (wordAt m.ram p) := by
  obtain ⟨block, hblock, _, hinside⟩ := (h.handed c r hr).within
  exact h.valid.loadWord_eq hblock (hwithin.trans hinside)

theorem keep (h : memory.Owns m own) (hvalid : m'.Valid)
    (hkept : memory.Kept m m') : memory.Owns m' own where
  valid := hvalid
  inv := h.inv.keep hkept
  handed := fun c r hr => (h.handed c r hr).keep hkept
  apart := h.apart

theorem withRam (h : memory.Owns m own) (ram : Nat → UInt8) :
    memory.Owns { m with ram } own where
  valid := h.valid.withRam ram
  inv := ⟨h.inv.owned, h.inv.tail, h.inv.nodup⟩
  handed := by
    intro c r hr
    have hhanded := h.handed c r hr
    exact ⟨hhanded.pos, hhanded.within, hhanded.apart⟩
  apart := h.apart

/-- A word stored in one region: the others keep their bytes. -/
theorem storeWord (h : memory.Owns m own) (hr : own c = some r)
    (hwithin : (⟨p, 8⟩ : Region).Within r) (v : Nat) :
    m.storeWord p v = some (m.withWord p v) ∧
      memory.Owns (m.withWord p v) own ∧
      Worked m memory (m.withWord p v) memory ∧
      ∀ d s, d ≠ c → own d = some s →
        Agree m.ram (m.withWord p v).ram s := by
  have hlength := length_encodeWord 8 v
  obtain ⟨hstore, hworked⟩ := (h.handed c r hr).store h.valid
    (show 0 < (encodeWord 8 v).length by omega) (by rwa [hlength])
  refine ⟨hstore, h.withRam _, hworked, ?_⟩
  intro d s hne hs
  apply Agree.stored
  rw [hlength]
  exact (h.apart c d r s hne.symm hr hs).mono hwithin (.refl _)

/-- A region that was just handed out gets a use. -/
theorem extend [DecidableEq C] (h : memory.Owns m own) (c : C)
    (halloc : Allocated m memory r m' memory') :
    memory'.Owns m' (Function.update own c (some r)) where
  valid := halloc.valid
  inv := halloc.inv
  handed := by
    intro d s hs
    by_cases hd : d = c
    · rw [hd, Function.update_self, Option.some.injEq] at hs
      rw [← hs]
      exact halloc.handed
    · rw [Function.update_of_ne hd] at hs
      exact (halloc.kept s (h.handed d s hs)).1
  apart := by
    intro d e s t hne hs ht
    by_cases hd : d = c
    · have he : e ≠ c := fun heq => hne (hd.trans heq.symm)
      rw [hd, Function.update_self, Option.some.injEq] at hs
      rw [Function.update_of_ne he] at ht
      rw [← hs]
      exact (halloc.kept t (h.handed e t ht)).2.symm
    · rw [Function.update_of_ne hd] at hs
      by_cases he : e = c
      · rw [he, Function.update_self, Option.some.injEq] at ht
        rw [← ht]
        exact (halloc.kept s (h.handed d s hs)).2
      · rw [Function.update_of_ne he] at ht
        exact h.apart d e s t hne hs ht

end Owns

end Memory

end SimpleKV
