/-
`Memory` of `structure/memory.cpp`: an arena that cuts requests off the end of
its current block and takes a new block when that is too short.  Large requests
get a block of their own.  The regions it hands out never overlap, and its
destructor gives back exactly its own blocks.
-/
import SimpleKV.Lib.ByteMemory

namespace SimpleKV

open ByteMemory

/-- Ways for a call not to return. -/
inductive Fault where
  /-- `std::bad_alloc`. -/
  | badAlloc
  /-- An `int` overflows. -/
  | overflow
  /-- A failed assertion or an access outside of all blocks. -/
  | undefined
deriving DecidableEq

theorem bind_eq_ok {α β : Type} {x : Except Fault α} {f : α → Except Fault β}
    {b : β} : x >>= f = .ok b ↔ ∃ a, x = .ok a ∧ f a = .ok b := by
  cases x with
  | error fault => simp [bind, Except.bind]
  | ok a => simp [bind, Except.bind]

theorem bind_eq_error {α β : Type} {x : Except Fault α}
    {f : α → Except Fault β} {fault : Fault} :
    x >>= f = .error fault ↔
      x = .error fault ∨ ∃ a, x = .ok a ∧ f a = .error fault := by
  cases x with
  | error other => simp [bind, Except.bind]
  | ok a => simp [bind, Except.bind]

/-- The members of a `Memory`. -/
structure Memory where
  allocPtr : Nat
  allocBytesRemaining : Nat
  blocks : List Nat
  blocksMemory : Nat

namespace Memory

/-- `kBlockSize`. -/
def kBlockSize : Nat := 4096

/-- `Memory::Memory`. -/
def new : Memory where
  allocPtr := 0
  allocBytesRemaining := 0
  blocks := []
  blocksMemory := 0

variable (allocator : Allocator)

/-- `AllocateNewBlock`. -/
def allocateNewBlock (blockBytes : Nat) (m : Machine) (memory : Memory) :
    Except Fault (Nat × Machine × Memory) :=
  match m.new allocator blockBytes with
  | none => .error .badAlloc
  | some (result, m) =>
      if memory.blocksMemory + blockBytes < 2 ^ 31 then
        .ok (result, m,
          { memory with
            blocksMemory := memory.blocksMemory + blockBytes
            blocks := memory.blocks ++ [result] })
      else .error .overflow

/-- `AllocateFallback`. -/
def allocateFallback (bytes : Nat) (m : Machine) (memory : Memory) :
    Except Fault (Nat × Machine × Memory) :=
  if kBlockSize / 4 < bytes then memory.allocateNewBlock allocator bytes m
  else do
    let (result, m, memory) ← memory.allocateNewBlock allocator kBlockSize m
    .ok (result, m,
      { memory with
        allocPtr := result + bytes
        allocBytesRemaining := kBlockSize - bytes })

/-- The first `slop` bytes of the rest of the block are skipped. -/
def cut (slop bytes : Nat) (memory : Memory) : Memory :=
  { memory with
    allocPtr := memory.allocPtr + (slop + bytes)
    allocBytesRemaining := memory.allocBytesRemaining - (slop + bytes) }

/-- `Allocate`. -/
def allocate (bytes : Int) (m : Machine) (memory : Memory) :
    Except Fault (Nat × Machine × Memory) :=
  if bytes ≤ 0 then .error .undefined
  else if bytes.toNat ≤ memory.allocBytesRemaining then
    .ok (memory.allocPtr, m, memory.cut 0 bytes.toNat)
  else memory.allocateFallback allocator bytes.toNat m

/-- `slop` of `AllocateAligned`, with `align` 8. -/
def slop (memory : Memory) : Nat :=
  let currentMod := memory.allocPtr % 8
  if currentMod = 0 then 0 else 8 - currentMod

/-- `AllocateAligned`. -/
def allocateAligned (bytes : Nat) (m : Machine) (memory : Memory) :
    Except Fault (Nat × Machine × Memory) :=
  let needed := bytes + memory.slop
  if 2 ^ 31 ≤ needed then .error .overflow
  else do
    let (result, m, memory) ←
      if needed ≤ memory.allocBytesRemaining then
        .ok (memory.allocPtr + memory.slop, m, memory.cut memory.slop bytes)
      else memory.allocateFallback allocator bytes m
    if result % 8 = 0 then .ok (result, m, memory) else .error .undefined

/-- `Memory::~Memory`. -/
def destroy (memory : Memory) (m : Machine) : Option Machine :=
  memory.blocks.foldlM (fun m block => m.delete block) m

/-- What is left of the current block. -/
def tail (memory : Memory) : Region :=
  ⟨memory.allocPtr, memory.allocBytesRemaining⟩

/-- The arena's blocks are live, and the rest of its current block is part of
one of them. -/
structure Inv (m : Machine) (memory : Memory) : Prop where
  owned : ∀ a ∈ memory.blocks, ∃ block ∈ m.blocks, block.start = a
  tail : memory.tail = ⟨0, 0⟩ ∨ ∃ block ∈ m.blocks,
    block.start ∈ memory.blocks ∧ memory.tail.Within block
  nodup : memory.blocks.Nodup

/-- A part of the arena that is in use. -/
structure Handed (m : Machine) (memory : Memory) (r : Region) : Prop where
  pos : 0 < r.size
  within : ∃ block ∈ m.blocks, block.start ∈ memory.blocks ∧ r.Within block
  apart : r.Apart memory.tail

/-- A region is handed out.  What was handed out before stays and is apart from
it; memory keeps its bytes, and what the arena gets is new. -/
structure Allocated (m : Machine) (memory : Memory) (r : Region)
    (m' : Machine) (memory' : Memory) : Prop where
  ram : m'.ram = m.ram
  valid : m'.Valid
  grows : ∀ block ∈ m.blocks, block ∈ m'.blocks
  inv : memory'.Inv m'
  handed : memory'.Handed m' r
  kept : ∀ s, memory.Handed m s → memory'.Handed m' s ∧ s.Apart r
  fresh : ∀ a ∈ memory'.blocks, a ∈ memory.blocks ∨
    ∀ block ∈ m.blocks, block.start ≠ a
  others : m'.blocks.filter (fun block => block.start ∉ memory'.blocks) =
    m.blocks.filter fun block => block.start ∉ memory.blocks

section Specs

variable {m m' : Machine} {memory memory' : Memory} {r s : Region}

/-- What lies in a live block is apart from a block to come. -/
theorem Handed.apart_new (h : memory.Handed m s) {new : Region}
    (hnew : ∀ block ∈ m.blocks, new.Apart block) : s.Apart new := by
  obtain ⟨block, hblock, _, hwithin⟩ := h.within
  exact (hnew block hblock).symm.mono hwithin (.refl new)

/-- A request that the current block has room for. -/
theorem Inv.cut (h : memory.Inv m) (hvalid : m.Valid) {slop bytes : Nat}
    (hpos : 0 < bytes) (hroom : slop + bytes ≤ memory.allocBytesRemaining) :
    Allocated m memory ⟨memory.allocPtr + slop, bytes⟩ m
      (memory.cut slop bytes) := by
  have hregion : (⟨memory.allocPtr + slop, bytes⟩ : Region).Within
      memory.tail := by
    unfold Region.Within Region.stop Memory.tail
    simp only
    omega
  have hrest : (memory.cut slop bytes).tail.Within memory.tail := by
    unfold Region.Within Region.stop Memory.tail Memory.cut
    simp only
    omega
  obtain ⟨block, hblock, hmine, hwithin⟩ := h.tail.resolve_left (by
    intro hnone
    have hsize := congrArg Region.size hnone
    simp only [Memory.tail] at hsize
    omega)
  refine ⟨rfl, hvalid, fun _ => id, ⟨h.owned,
    Or.inr ⟨block, hblock, hmine, hrest.trans hwithin⟩, h.nodup⟩,
    ⟨hpos, ⟨block, hblock, hmine, hregion.trans hwithin⟩, ?_⟩, ?_,
    fun a ha => Or.inl ha, rfl⟩
  · apply Region.apart_of_le
    simp only [Memory.cut]
    omega
  · intro s hs
    exact ⟨⟨hs.pos, hs.within, hs.apart.mono (.refl s) hrest⟩,
      hs.apart.mono (.refl s) hregion⟩

theorem allocateNewBlock_ok {blockBytes a : Nat}
    (h : memory.allocateNewBlock allocator blockBytes m =
      .ok (a, m', memory')) :
    m.new allocator blockBytes = some (a, m') ∧
      memory' =
        { memory with
          blocksMemory := memory.blocksMemory + blockBytes
          blocks := memory.blocks ++ [a] } := by
  unfold allocateNewBlock at h
  split at h
  · exact absurd h (by simp)
  · rename_i result next hnew
    split_ifs at h
    rw [Except.ok.injEq, Prod.mk.injEq, Prod.mk.injEq] at h
    obtain ⟨rfl, rfl, rfl⟩ := h
    exact ⟨hnew, rfl⟩

/-- A new block that is handed out as a whole. -/
theorem Inv.newBlock (h : memory.Inv m) (hvalid : m.Valid) {blockBytes a : Nat}
    (hpos : 0 < blockBytes)
    (hnew : memory.allocateNewBlock allocator blockBytes m =
      .ok (a, m', memory')) :
    Allocated m memory ⟨a, blockBytes⟩ m' memory' ∧ 8 ∣ a ∧
      (⟨a, blockBytes⟩ : Region) ∈ m'.blocks ∧
      memory'.blocks = memory.blocks ++ [a] ∧ memory'.tail = memory.tail := by
  obtain ⟨hcall, rfl⟩ := allocateNewBlock_ok allocator hnew
  obtain ⟨rfl, hvalid', haligned, hapart⟩ := hvalid.new hpos hcall
  have hgrows : ∀ block ∈ m.blocks,
      block ∈ (⟨a, blockBytes⟩ : Region) :: m.blocks :=
    fun block hblock => List.mem_cons_of_mem _ hblock
  have hstart : ∀ block ∈ m.blocks, block.start ≠ a :=
    fun block hblock =>
      (hapart block hblock).start_ne hpos (hvalid.size_pos block hblock)
  have htail : (⟨a, blockBytes⟩ : Region).Apart memory.tail := by
    rcases h.tail with hnone | ⟨block, hblock, _, hwithin⟩
    · rw [hnone]
      exact Or.inr (Nat.zero_le _)
    · exact (hapart block hblock).mono (.refl _) hwithin
  refine ⟨⟨rfl, hvalid', hgrows, ⟨?_, ?_, ?_⟩, ⟨hpos, ⟨⟨a, blockBytes⟩,
    List.mem_cons_self, List.mem_append_right _ List.mem_cons_self,
    .refl _⟩, htail⟩, ?_, ?_, ?_⟩, haligned, List.mem_cons_self, rfl, rfl⟩
  · intro b hb
    rcases List.mem_append.mp hb with hb | hb
    · obtain ⟨block, hblock, heq⟩ := h.owned b hb
      exact ⟨block, hgrows block hblock, heq⟩
    · exact ⟨⟨a, blockBytes⟩, List.mem_cons_self,
        (List.mem_singleton.mp hb).symm⟩
  · rcases h.tail with hnone | ⟨block, hblock, hmine, hwithin⟩
    · exact Or.inl hnone
    · exact Or.inr ⟨block, hgrows block hblock,
        List.mem_append_left _ hmine, hwithin⟩
  · apply List.nodup_append.mpr
    refine ⟨h.nodup, List.pairwise_singleton _ a, ?_⟩
    intro b hb c hc heq
    obtain ⟨block, hblock, hbeq⟩ := h.owned b hb
    exact hstart block hblock
      (hbeq.trans (heq.trans (List.mem_singleton.mp hc)))
  · intro s hs
    obtain ⟨block, hblock, hmine, hwithin⟩ := hs.within
    exact ⟨⟨hs.pos, ⟨block, hgrows block hblock,
      List.mem_append_left _ hmine, hwithin⟩, hs.apart⟩, hs.apart_new hapart⟩
  · intro b hb
    rcases List.mem_append.mp hb with hb | hb
    · exact Or.inl hb
    · rw [List.mem_singleton.mp hb]
      exact Or.inr hstart
  · rw [List.filter_cons_of_neg (by simp)]
    apply List.filter_congr
    intro block hblock
    simp [hstart block hblock]

/-- A request that the current block has no room for. -/
theorem Inv.fallback (h : memory.Inv m) (hvalid : m.Valid) {bytes a : Nat}
    (hpos : 0 < bytes)
    (hcall : memory.allocateFallback allocator bytes m = .ok (a, m', memory')) :
    Allocated m memory ⟨a, bytes⟩ m' memory' ∧ 8 ∣ a := by
  unfold allocateFallback at hcall
  split_ifs at hcall with hlarge
  · obtain ⟨hallocated, haligned, _⟩ := h.newBlock allocator hvalid hpos hcall
    exact ⟨hallocated, haligned⟩
  · obtain ⟨⟨b, m1, memory1⟩, hnew, hresult⟩ := bind_eq_ok.mp hcall
    simp only [Except.ok.injEq, Prod.mk.injEq] at hresult
    obtain ⟨rfl, rfl, rfl⟩ := hresult
    obtain ⟨hallocated, haligned, hblock, hblocks, _⟩ :=
      h.newBlock allocator hvalid (show 0 < kBlockSize by decide) hnew
    have hsmall : bytes ≤ kBlockSize := by
      unfold kBlockSize at hlarge ⊢
      omega
    have hmine : b ∈ memory1.blocks := by
      rw [hblocks]
      exact List.mem_append_right _ List.mem_cons_self
    have hregion : (⟨b, bytes⟩ : Region).Within ⟨b, kBlockSize⟩ := by
      unfold Region.Within Region.stop
      simp only
      omega
    have hrest : (⟨b + bytes, kBlockSize - bytes⟩ : Region).Within
        ⟨b, kBlockSize⟩ := by
      unfold Region.Within Region.stop
      simp only
      omega
    refine ⟨⟨hallocated.ram, hallocated.valid, hallocated.grows,
      ⟨hallocated.inv.owned, Or.inr ⟨_, hblock, hmine, hrest⟩,
        hallocated.inv.nodup⟩,
      ⟨hpos, ⟨_, hblock, hmine, hregion⟩, Region.apart_of_le (le_refl _)⟩,
      ?_, hallocated.fresh, hallocated.others⟩, haligned⟩
    intro s hs
    obtain ⟨hold, hapart⟩ := hallocated.kept s hs
    exact ⟨⟨hold.pos, hold.within, hapart.mono (.refl s) hrest⟩,
      hapart.mono (.refl s) hregion⟩

theorem Inv.allocate (h : memory.Inv m) (hvalid : m.Valid) {bytes : Int}
    {a : Nat}
    (hcall : memory.allocate allocator bytes m = .ok (a, m', memory')) :
    Allocated m memory ⟨a, bytes.toNat⟩ m' memory' := by
  unfold Memory.allocate at hcall
  split_ifs at hcall with hsign hroom
  · rw [Except.ok.injEq, Prod.mk.injEq, Prod.mk.injEq] at hcall
    obtain ⟨rfl, rfl, rfl⟩ := hcall
    simpa only [Nat.add_zero] using h.cut hvalid
      (show 0 < bytes.toNat by omega) (show 0 + bytes.toNat ≤ _ by omega)
  · exact (h.fallback allocator hvalid (by omega) hcall).1

theorem dvd_allocPtr_add_slop (memory : Memory) :
    8 ∣ memory.allocPtr + memory.slop := by
  unfold slop
  dsimp only
  split_ifs <;> omega

theorem Inv.allocateAligned (h : memory.Inv m) (hvalid : m.Valid)
    {bytes a : Nat} (hpos : 0 < bytes)
    (hcall : memory.allocateAligned allocator bytes m =
      .ok (a, m', memory')) :
    Allocated m memory ⟨a, bytes⟩ m' memory' ∧ 8 ∣ a := by
  unfold Memory.allocateAligned at hcall
  dsimp only at hcall
  split_ifs at hcall with hlarge hroom
  · simp only [bind, Except.bind] at hcall
    split_ifs at hcall
    rw [Except.ok.injEq, Prod.mk.injEq, Prod.mk.injEq] at hcall
    obtain ⟨rfl, rfl, rfl⟩ := hcall
    exact ⟨h.cut hvalid hpos (by omega), dvd_allocPtr_add_slop memory⟩
  · obtain ⟨⟨b, m1, memory1⟩, hfallback, hresult⟩ := bind_eq_ok.mp hcall
    dsimp only at hresult
    split_ifs at hresult
    rw [Except.ok.injEq, Prod.mk.injEq, Prod.mk.injEq] at hresult
    obtain ⟨rfl, rfl, rfl⟩ := hresult
    exact h.fallback allocator hvalid hpos hfallback

theorem allocateNewBlock_error {blockBytes : Nat} {fault : Fault}
    (h : memory.allocateNewBlock allocator blockBytes m = .error fault) :
    fault ≠ .undefined := by
  unfold allocateNewBlock at h
  split at h
  · rw [Except.error.injEq] at h
    rw [← h]
    decide
  · split_ifs at h
    rw [Except.error.injEq] at h
    rw [← h]
    decide

theorem allocateFallback_error {bytes : Nat} {fault : Fault}
    (h : memory.allocateFallback allocator bytes m = .error fault) :
    fault ≠ .undefined := by
  unfold allocateFallback at h
  split_ifs at h
  · exact allocateNewBlock_error allocator h
  · rcases bind_eq_error.mp h with hnew | ⟨result, _, hresult⟩
    · exact allocateNewBlock_error allocator hnew
    · exact absurd hresult (by simp)

theorem allocate_error {bytes : Int} (hpos : 0 < bytes) {fault : Fault}
    (h : memory.allocate allocator bytes m = .error fault) :
    fault ≠ .undefined := by
  unfold allocate at h
  split_ifs at h with hsign
  · omega
  · exact allocateFallback_error allocator h

theorem Inv.allocateAligned_error (hinv : memory.Inv m) (hvalid : m.Valid)
    {bytes : Nat} (hpos : 0 < bytes) {fault : Fault}
    (h : memory.allocateAligned allocator bytes m = .error fault) :
    fault ≠ .undefined := by
  unfold Memory.allocateAligned at h
  dsimp only at h
  split_ifs at h with hlarge hroom
  · rw [Except.error.injEq] at h
    rw [← h]
    decide
  · have haligned := Nat.dvd_iff_mod_eq_zero.mp (dvd_allocPtr_add_slop memory)
    simp [bind, Except.bind, haligned] at h
  · rcases bind_eq_error.mp h with hfallback |
      ⟨⟨b, m1, memory1⟩, hfallback, hresult⟩
    · exact allocateFallback_error allocator hfallback
    · have haligned := Nat.dvd_iff_mod_eq_zero.mp
        (hinv.fallback allocator hvalid hpos hfallback).2
      simp [haligned] at hresult

/-- The destructor gives back the arena's blocks and no others. -/
theorem exists_foldlM_delete : ∀ (blocks : List Nat) (m : Machine),
    blocks.Nodup → (∀ a ∈ blocks, ∃ block ∈ m.blocks, block.start = a) →
    ∃ last, blocks.foldlM (fun m block => m.delete block) m = some last ∧
      last.blocks = m.blocks.filter (fun block => block.start ∉ blocks) ∧
      last.ram = m.ram ∧ last.calls = m.calls := by
  intro blocks
  induction blocks with
  | nil =>
      intro m _ _
      exact ⟨m, rfl, (List.filter_eq_self.mpr (by simp)).symm, rfl, rfl⟩
  | cons a blocks ih =>
      intro m hnodup howned
      obtain ⟨hnot, hnodup⟩ := List.nodup_cons.mp hnodup
      obtain ⟨block, hblock, hstart⟩ := howned a List.mem_cons_self
      have hdelete : m.delete a = some { m with
          blocks := m.blocks.filter fun block => block.start ≠ a } := by
        rw [Machine.delete, if_pos]
        exact List.any_eq_true.mpr ⟨block, hblock, by simp [hstart]⟩
      obtain ⟨last, hlast, hblocks, hram, hcalls⟩ := ih { m with
          blocks := m.blocks.filter fun block => block.start ≠ a } hnodup (by
        intro b hb
        obtain ⟨other, hother, hotherStart⟩ :=
          howned b (List.mem_cons_of_mem _ hb)
        refine ⟨other, List.mem_filter.mpr ⟨hother, ?_⟩, hotherStart⟩
        simp only [ne_eq, decide_eq_true_eq]
        rintro rfl
        exact hnot (hotherStart ▸ hb))
      refine ⟨last, ?_, ?_, hram, hcalls⟩
      · rw [List.foldlM_cons, hdelete]
        exact hlast
      · rw [hblocks, List.filter_filter]
        apply List.filter_congr
        intro other _
        simp only [List.mem_cons, not_or, ne_eq, Bool.decide_and]
        rw [Bool.and_comm]

theorem Inv.exists_destroy (h : memory.Inv m) :
    ∃ last, memory.destroy m = some last ∧
      last.blocks = m.blocks.filter (fun block => block.start ∉ memory.blocks) ∧
      last.ram = m.ram ∧ last.calls = m.calls :=
  exists_foldlM_delete memory.blocks m h.nodup h.owned

theorem Inv.new (m : Machine) : Memory.new.Inv m :=
  ⟨fun a ha => absurd ha (by simp [Memory.new]), Or.inl rfl, List.nodup_nil⟩

/-- A call of `Allocate` or of `AllocateAligned`. -/
inductive Request where
  | plain (bytes : Nat)
  | aligned (bytes : Nat)

def Request.bytes : Request → Nat
  | .plain bytes | .aligned bytes => bytes

def serve (memory : Memory) (m : Machine) :
    Request → Except Fault (Nat × Machine × Memory)
  | .plain bytes => memory.allocate allocator bytes m
  | .aligned bytes => memory.allocateAligned allocator bytes m

/-- Calls in order, with the regions they return. -/
def serveAll : List Request → Machine → Memory →
    Except Fault (List Region × Machine × Memory)
  | [], m, memory => .ok ([], m, memory)
  | request :: requests, m, memory => do
      let (a, m, memory) ← memory.serve allocator m request
      let (regions, m, memory) ← serveAll requests m memory
      .ok (⟨a, request.bytes⟩ :: regions, m, memory)

theorem Inv.serve (h : memory.Inv m) (hvalid : m.Valid) {request : Request}
    (hpos : 0 < request.bytes) {a : Nat}
    (hserve : memory.serve allocator m request = .ok (a, m', memory')) :
    Allocated m memory ⟨a, request.bytes⟩ m' memory' ∧
      ∀ bytes, request = .aligned bytes → 8 ∣ a := by
  cases request with
  | plain bytes =>
      exact ⟨h.allocate allocator hvalid hserve,
        fun other heq => absurd heq (by simp)⟩
  | aligned bytes =>
      obtain ⟨hallocated, haligned⟩ :=
        h.allocateAligned allocator hvalid hpos hserve
      exact ⟨hallocated, fun _ _ => haligned⟩

theorem Inv.serve_error (h : memory.Inv m) (hvalid : m.Valid)
    {request : Request} (hpos : 0 < request.bytes) {fault : Fault}
    (hserve : memory.serve allocator m request = .error fault) :
    fault ≠ .undefined := by
  cases request with
  | plain bytes => exact allocate_error allocator (Int.natCast_pos.mpr hpos) hserve
  | aligned bytes => exact h.allocateAligned_error allocator hvalid hpos hserve

theorem Inv.serveAll_error {requests : List Request}
    (hpos : ∀ request ∈ requests, 0 < request.bytes) {fault : Fault} :
    ∀ {m : Machine} {memory : Memory}, memory.Inv m → m.Valid →
      serveAll allocator requests m memory = .error fault →
      fault ≠ .undefined := by
  induction requests with
  | nil =>
      intro m memory _ _ hcall
      exact absurd hcall (by simp [serveAll])
  | cons request requests ih =>
      intro m memory h hvalid hcall
      have hhead := hpos request List.mem_cons_self
      rcases bind_eq_error.mp hcall with hserve |
        ⟨⟨a, m1, memory1⟩, hserve, hrest⟩
      · exact h.serve_error allocator hvalid hhead hserve
      · obtain ⟨hallocated, _⟩ := h.serve allocator hvalid hhead hserve
        rcases bind_eq_error.mp hrest with hrest | ⟨result, _, hresult⟩
        · exact ih (fun other hother => hpos other
            (List.mem_cons_of_mem _ hother)) hallocated.inv hallocated.valid
            hrest
        · exact absurd hresult (by simp)

/-- Many regions are handed out, in the same sense as one. -/
structure Served (requests : List Request) (m : Machine) (memory : Memory)
    (regions : List Region) (m' : Machine) (memory' : Memory) : Prop where
  ram : m'.ram = m.ram
  valid : m'.Valid
  inv : memory'.Inv m'
  handed : ∀ r ∈ regions, memory'.Handed m' r
  kept : ∀ s, memory.Handed m s →
    memory'.Handed m' s ∧ ∀ r ∈ regions, s.Apart r
  apart : regions.Pairwise Region.Apart
  asked : List.Forall₂ (fun request r => r.size = Request.bytes request ∧
    ∀ bytes, request = .aligned bytes → 8 ∣ r.start) requests regions
  others : m'.blocks.filter (fun block => block.start ∉ memory'.blocks) =
    m.blocks.filter fun block => block.start ∉ memory.blocks

theorem Inv.serveAll {requests : List Request}
    (hpos : ∀ request ∈ requests, 0 < request.bytes) :
    ∀ {m : Machine} {memory : Memory} {regions : List Region},
      memory.Inv m → m.Valid →
      Memory.serveAll allocator requests m memory =
        .ok (regions, m', memory') →
      Served requests m memory regions m' memory' := by
  induction requests with
  | nil =>
      intro m memory regions h hvalid hcall
      simp only [Memory.serveAll, Except.ok.injEq, Prod.mk.injEq] at hcall
      obtain ⟨rfl, rfl, rfl⟩ := hcall
      exact ⟨rfl, hvalid, h, by simp, fun s hs => ⟨hs, by simp⟩, .nil, .nil,
        rfl⟩
  | cons request requests ih =>
      intro m memory regions h hvalid hcall
      obtain ⟨⟨a, m1, memory1⟩, hserve, hthen⟩ := bind_eq_ok.mp hcall
      obtain ⟨⟨rest, m2, memory2⟩, hrest, hresult⟩ := bind_eq_ok.mp hthen
      simp only [Except.ok.injEq, Prod.mk.injEq] at hresult
      obtain ⟨rfl, rfl, rfl⟩ := hresult
      obtain ⟨hfirst, haligned⟩ := h.serve allocator hvalid
        (hpos request List.mem_cons_self) hserve
      have hmore := ih (fun other hother => hpos other
        (List.mem_cons_of_mem _ hother)) hfirst.inv hfirst.valid hrest
      obtain ⟨hkept, hapart⟩ := hmore.kept _ hfirst.handed
      refine ⟨hmore.ram.trans hfirst.ram, hmore.valid, hmore.inv, ?_, ?_,
        List.pairwise_cons.mpr ⟨hapart, hmore.apart⟩,
        .cons ⟨rfl, haligned⟩ hmore.asked, hmore.others.trans hfirst.others⟩
      · intro r hr
        rcases List.mem_cons.mp hr with rfl | hr
        · exact hkept
        · exact hmore.handed r hr
      · intro s hs
        obtain ⟨hs', hsr⟩ := hfirst.kept s hs
        obtain ⟨hlast, hsrest⟩ := hmore.kept s hs'
        refine ⟨hlast, ?_⟩
        intro r hr
        rcases List.mem_cons.mp hr with rfl | hr
        · exact hsr
        · exact hsrest r hr

/-- Any calls of `Allocate` and `AllocateAligned` with positive sizes on a new
arena, with any allocator behind it.  No assertion fails.  The regions have the
sizes asked for, those of `AllocateAligned` are aligned, no two of them overlap,
all lie in live blocks and none in a block that was there before; no byte
changes; and the destructor leaves exactly the blocks there were before. -/
theorem arena_regions (requests : List Request)
    (hpos : ∀ request ∈ requests, 0 < request.bytes) (hvalid : m.Valid) :
    (∀ fault, Memory.serveAll allocator requests m .new = .error fault →
      fault ≠ .undefined) ∧
    ∀ regions m' memory, Memory.serveAll allocator requests m .new =
        .ok (regions, m', memory) →
      List.Forall₂ (fun request r => r.size = Request.bytes request ∧
        ∀ bytes, request = .aligned bytes → 8 ∣ r.start) requests regions ∧
      regions.Pairwise Region.Apart ∧
      (∀ r ∈ regions, (∃ block ∈ m'.blocks, r.Within block) ∧
        ∀ block ∈ m.blocks, r.Apart block) ∧
      m'.ram = m.ram ∧
      ∃ last, memory.destroy m' = some last ∧ last.blocks = m.blocks := by
  refine ⟨fun fault hcall => Inv.serveAll_error allocator hpos (.new m) hvalid
    hcall, ?_⟩
  intro regions m' memory hcall
  have hserved := Inv.serveAll allocator hpos (.new m) hvalid hcall
  have hothers : m'.blocks.filter (fun block => block.start ∉ memory.blocks) =
      m.blocks := by
    rw [hserved.others]
    exact List.filter_eq_self.mpr (by simp [Memory.new])
  refine ⟨hserved.asked, hserved.apart, fun r hr => ?_, hserved.ram, ?_⟩
  · obtain ⟨block, hblock, hmine, hwithin⟩ := (hserved.handed r hr).within
    refine ⟨⟨block, hblock, hwithin⟩, ?_⟩
    intro other hother
    rw [← hothers] at hother
    obtain ⟨hother, hnot⟩ := List.mem_filter.mp hother
    have hne : block ≠ other := by
      rintro rfl
      simp [hmine] at hnot
    exact (hserved.valid.apart.forall hblock hother hne).mono hwithin (.refl _)
  · obtain ⟨last, hlast, hblocks, _⟩ := hserved.inv.exists_destroy
    exact ⟨last, hlast, hblocks.trans hothers⟩

/-- A machine with one block of somebody else. -/
def oneBlock : Machine :=
  ⟨fun _ => 0, [⟨16, 24⟩], 0⟩

/-- Two requests for the first block, one of them aligned, one that gets a block
of its own, and one that opens the next block. -/
def mixedRequests : List Request :=
  [.plain 5, .aligned 16, .plain 3000, .plain 2000, .plain 1020, .plain 100]

theorem arena_regions_mixed :
    ∃ regions m' memory, oneBlock.Valid ∧
      serveAll .above mixedRequests oneBlock .new = .ok (regions, m', memory) ∧
      memory.blocks.length = 3 ∧ regions.Pairwise Region.Apart ∧
      (∀ r ∈ regions, ∀ block ∈ oneBlock.blocks, r.Apart block) ∧
      ∃ last, memory.destroy m' = some last ∧ last.blocks = [⟨16, 24⟩] := by
  have hvalid : oneBlock.Valid := ⟨by decide, by decide, by decide, by decide⟩
  have hpos : ∀ request ∈ mixedRequests, 0 < request.bytes := by decide
  cases hserve : serveAll .above mixedRequests oneBlock .new with
  | error fault =>
      have hok : (serveAll .above mixedRequests oneBlock .new).toBool = true := by
        decide +kernel
      rw [hserve] at hok
      exact absurd hok (by simp [Except.toBool])
  | ok result =>
      obtain ⟨regions, m', memory⟩ := result
      have hblocks : ((serveAll .above mixedRequests oneBlock .new).map
          fun result => result.2.2.blocks.length) = .ok 3 := by
        decide +kernel
      rw [hserve] at hblocks
      obtain ⟨_, hapart, hplaces, _, hlast⟩ :=
        (arena_regions .above mixedRequests hpos hvalid).2 regions m' memory
          hserve
      exact ⟨regions, m', memory, hvalid, rfl, Except.ok.inj hblocks, hapart,
        fun r hr => (hplaces r hr).2, hlast⟩

end Specs

end Memory

end SimpleKV
