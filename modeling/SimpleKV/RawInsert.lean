/-
Stores of the skip list in memory.  Each one changes a word of one region; the
other regions keep their bytes, so the list in memory follows `SkipListNodes`
through a whole `Insert`.
-/
import SimpleKV.RawSkipList

namespace SimpleKV

open ByteMemory Memory

namespace RawSkipList

/-- Regions keep their uses. -/
def Extends (own own' : Cell → Option Region) : Prop :=
  ∀ c r, own c = some r → own' c = some r

theorem Extends.refl (own : Cell → Option Region) : Extends own own :=
  fun _ _ => id

theorem Extends.update {own : Cell → Option Region} {c : Cell}
    (hc : own c = none) (r : Region) :
    Extends own (Function.update own c (some r)) := by
  intro d s hs
  rw [Function.update_of_ne, hs]
  rintro rfl
  rw [hc] at hs
  exact absurd hs (by simp)

section Writes

variable {m m' : Machine} {memory memory' : Memory} {raw : RawSkipList}
  {list list' : SkipListNodes Bytes} {own own' : Cell → Option Region}
  {ready ready' : Nat → Nat → Prop} {ram ram' : Nat → UInt8}

theorem Points.move {target : Option Nat} {p : Nat} (h : Points own target p)
    (hext : Extends own own') : Points own' target p := by
  cases target with
  | none => exact h
  | some i =>
      obtain ⟨r, hr, hp⟩ := h
      exact ⟨r, hext _ r hr, hp⟩

theorem PrevAt.move {prev : SkipListNodes.Prev} {rawPrev : Prev}
    (h : PrevAt own prev rawPrev) (hext : Extends own own') :
    PrevAt own' prev rawPrev := by
  apply List.Forall₂.imp _ h
  intro i a hrel
  cases i with
  | none => exact hrel
  | some i =>
      obtain ⟨p, ha, hp⟩ := hrel
      exact ⟨p, ha, hp.move hext⟩

/-- The bytes of the entries are left alone. -/
def EntriesAgree (ram ram' : Nat → UInt8) (own : Cell → Option Region) : Prop :=
  ∀ k r, own (.entry k) = some r → Agree ram ram' r

theorem EntryAt.move {entry : Bytes} {p : Nat} (h : EntryAt ram own entry p)
    (hext : Extends own own') (hagree : EntriesAgree ram ram' own) :
    EntryAt ram' own' entry p := by
  obtain ⟨k, r, hr, hp, hbytes, hshort⟩ := h
  refine ⟨k, r, hext _ r hr, hp, ?_, hshort⟩
  rw [← (hagree k r hr).bytes_eq, hbytes]

/-- A node whose region is left alone. -/
theorem NodeAt.move {i a : Nat} {node : SkipNode Bytes} {levels : Nat → Prop}
    (h : NodeAt ram own i a node levels) (hext : Extends own own')
    (hagree : EntriesAgree ram ram' own)
    (hnode : ∀ r, own (.node i) = some r → Agree ram ram' r) :
    NodeAt ram' own' i a node levels where
  region := hext _ _ h.region
  link := by
    intro level target htarget hready
    have hlevel : level < node.next.length :=
      (List.getElem?_eq_some_iff.mp htarget).1
    rw [(hnode _ h.region).wordAt_eq (nextField_within hlevel)]
    exact (h.link level target htarget hready).move hext
  key := by
    intro hi
    rw [(hnode _ h.region).wordAt_eq (keyField_within a _)]
    exact (h.key hi).move hext hagree

theorem NodeAt.weaken {i a : Nat} {node : SkipNode Bytes}
    {levels levels' : Nat → Prop} (h : NodeAt ram own i a node levels)
    (himp : ∀ level < node.next.length, levels' level → levels level) :
    NodeAt ram own i a node levels' where
  region := h.region
  link := by
    intro level target htarget hready
    have hlevel : level < node.next.length :=
      (List.getElem?_eq_some_iff.mp htarget).1
    exact h.link level target htarget (himp level hlevel hready)
  key := h.key

namespace Rep

/-- The list is the same wherever its arena is. -/
theorem keep (h : Rep m memory raw list own ready) (hvalid : m'.Valid)
    (hkept : memory.Kept m m') : Rep m' memory raw list own ready := by
  have hagree : ∀ c r, own c = some r → Agree m.ram m'.ram r :=
    fun c r hr => (h.owns.handed c r hr).agree hkept
  refine ⟨h.owns.keep hvalid hkept, ?_, h.linked, h.head, h.maxHeight, h.made,
    h.fresh, h.entries, h.random⟩
  intro i node hheap
  obtain ⟨a, hnode⟩ := h.node i node hheap
  exact ⟨a, hnode.move (.refl own) (fun k => hagree _) (hagree _)⟩

theorem weaken (h : Rep m memory raw list own ready)
    (himp : ∀ i node, list.heap i = some node → ∀ level < node.next.length,
      ready' i level → ready i level) :
    Rep m memory raw list own ready' := by
  refine ⟨h.owns, ?_, h.linked, h.head, h.maxHeight, h.made, h.fresh,
    h.entries, h.random⟩
  intro i node hheap
  obtain ⟨a, hnode⟩ := h.node i node hheap
  exact ⟨a, hnode.weaken (himp i node hheap)⟩

theorem points_lt (h : Rep m memory raw list own ready) {i p : Nat}
    (hp : Points own (some i) p) : i < list.fresh := by
  obtain ⟨r, hr, _⟩ := hp
  by_contra hle
  rw [h.fresh i (not_lt.mp hle)] at hr
  exact absurd hr (by simp)

theorem target_lt (h : Rep m memory raw list own ready)
    {target : Option Nat} {v : Nat} (hv : Points own target v) :
    v < 256 ^ 8 := by
  cases target with
  | none =>
      rw [show v = 0 from hv]
      decide
  | some i => exact (h.points_bounds hv).2

end Rep

theorem setNext_eq_some {x level : Nat} {target : Option Nat}
    (h : list.setNext x level target = some list') :
    ∃ node, list.heap x = some node ∧ level < node.next.length ∧
      list' = { list with
        heap := Function.update list.heap x
          (some { node with next := node.next.set level target }) } := by
  obtain ⟨node, hheap, hset⟩ := Option.bind_eq_some_iff.mp h
  split_ifs at hset with hlevel
  exact ⟨node, hheap, hlevel, (Option.some.inj hset).symm⟩

/-- The fields of a node do not overlap. -/
theorem keyField_apart (a level : Nat) :
    (⟨nextField a level, 8⟩ : Region).Apart ⟨a, 8⟩ :=
  Or.inr (by unfold Region.stop nextField; simp only; omega)

theorem nextField_apart (a : Nat) {level other : Nat} (hne : level ≠ other) :
    (⟨nextField a level, 8⟩ : Region).Apart ⟨nextField a other, 8⟩ := by
  unfold Region.Apart Region.stop nextField
  simp only
  omega

theorem wordAt_withWord_of_apart {p q v : Nat}
    (h : (⟨p, 8⟩ : Region).Apart ⟨q, 8⟩) :
    wordAt (m.withWord p v).ram q = wordAt m.ram q := by
  have hagree : Agree m.ram (m.withWord p v).ram ⟨q, 8⟩ := by
    apply Agree.stored
    rwa [length_encodeWord]
  exact hagree.wordAt_eq (.refl _)

/-- One node of the list is replaced or added, and all others are left alone. -/
theorem Rep.nodes_update (h : Rep m memory raw list own ready) {x : Nat}
    {node : SkipNode Bytes} (hext : Extends own own')
    (hentries : EntriesAgree m.ram ram' own)
    (hnodes : ∀ i r, i ≠ x → own (.node i) = some r → Agree m.ram ram' r)
    (hready : ∀ i level, i ≠ x → ready' i level → ready i level)
    (hnode : ∃ a, NodeAt ram' own' x a node (ready' x)) :
    ∀ i other, Function.update list.heap x (some node) i = some other →
      ∃ a, NodeAt ram' own' i a other (ready' i) := by
  intro i other hother
  by_cases hi : i = x
  · subst hi
    rw [Function.update_self, Option.some.injEq] at hother
    rw [← hother]
    exact hnode
  · rw [Function.update_of_ne hi] at hother
    obtain ⟨a, hold⟩ := h.node i other hother
    have hmoved := hold.move hext hentries (fun r => hnodes i r hi)
    exact ⟨a, hmoved.weaken fun level _ => hready i level hi⟩

theorem Rep.linked_update (h : Rep m memory raw list own ready) {x : Nat}
    {node : SkipNode Bytes}
    (hnode : ∀ level n : Nat, node.next[level]? = some (some n) →
      n ≠ SkipListNodes.head) :
    ∀ i other (level n : Nat),
      Function.update list.heap x (some node) i = some other →
      other.next[level]? = some (some n) → n ≠ SkipListNodes.head := by
  intro i other level n hother
  by_cases hi : i = x
  · subst hi
    rw [Function.update_self, Option.some.injEq] at hother
    rw [← hother]
    exact hnode level n
  · rw [Function.update_of_ne hi] at hother
    exact h.linked i other level n hother

/-- One more pointer of the list is ready. -/
theorem Rep.setNext (h : Rep m memory raw list own ready) {x level a v : Nat}
    {target : Option Nat} (hset : list.setNext x level target = some list')
    (ha : Points own (some x) a) (hv : Points own target v)
    (htarget : target ≠ some SkipListNodes.head) :
    ∃ m', RawSkipList.setNext m a level v = some m' ∧
      Rep m' memory raw list' own
        (fun i other => ready i other ∨ (i = x ∧ other = level)) ∧
      Worked m memory m' memory := by
  obtain ⟨node, hheap, hlevel, rfl⟩ := setNext_eq_some hset
  obtain ⟨b, hnode⟩ := h.node x node hheap
  obtain rfl : a = b := ha.eq_start hnode.region
  obtain ⟨hstore, howns, hworked, hagree⟩ :=
    h.owns.storeWord hnode.region (nextField_within hlevel) v
  have hentries : EntriesAgree m.ram (m.withWord (nextField a level) v).ram
      own := fun k r hr => hagree _ r (by simp) hr
  refine ⟨_, hstore, ⟨howns, ?_, ?_, h.head, h.maxHeight, h.made, h.fresh,
    h.entries, h.random⟩, hworked⟩
  · apply h.nodes_update (.refl own) hentries
    · intro i r hi hr
      exact hagree _ r (by simpa using hi) hr
    · intro i other hi hready
      exact hready.resolve_right fun heq => hi heq.1
    · refine ⟨a, ?_, ?_, ?_⟩
      · rw [List.length_set]
        exact hnode.region
      · intro other t ht hready
        by_cases hother : other = level
        · subst hother
          rw [List.getElem?_set_self hlevel, Option.some.injEq] at ht
          have hword : wordAt (m.withWord (nextField a other) v).ram
              (nextField a other) = v := wordAt_stored (h.target_lt hv)
          rw [hword, ← ht]
          exact hv
        · rw [List.getElem?_set_ne (Ne.symm hother)] at ht
          rw [wordAt_withWord_of_apart (nextField_apart a (Ne.symm hother))]
          exact hnode.link other t ht
            (hready.resolve_right fun heq => hother heq.2)
      · intro hhead
        rw [wordAt_withWord_of_apart (keyField_apart a level)]
        exact (hnode.key hhead).move (.refl own) hentries
  · apply h.linked_update
    intro other n hn
    by_cases hother : other = level
    · subst hother
      rw [List.getElem?_set_self hlevel, Option.some.injEq] at hn
      rintro rfl
      exact htarget hn
    · rw [List.getElem?_set_ne (Ne.symm hother)] at hn
      exact h.linked x node other n hheap hn

/-- A node's key is overwritten. -/
theorem Rep.setKey (h : Rep m memory raw list own ready) {x a q : Nat}
    {entry : Bytes} (hset : list.setKey x entry = some list')
    (ha : Points own (some x) a) (hq : EntryAt m.ram own entry q) :
    ∃ m', RawSkipList.setKey m a q = some m' ∧
      Rep m' memory raw list' own ready ∧ Worked m memory m' memory := by
  obtain ⟨node, hheap, hlist⟩ := Option.bind_eq_some_iff.mp hset
  rw [Option.some.injEq] at hlist
  subst hlist
  obtain ⟨b, hnode⟩ := h.node x node hheap
  obtain rfl : a = b := ha.eq_start hnode.region
  obtain ⟨hstore, howns, hworked, hagree⟩ :=
    h.owns.storeWord hnode.region (keyField_within a _) q
  have hentries : EntriesAgree m.ram (m.withWord a q).ram own :=
    fun k r hr => hagree _ r (by simp) hr
  have hlt : q < 256 ^ 8 := by
    obtain ⟨k, r, hr, rfl, _⟩ := hq
    exact (h.owns.bounds hr).2
  refine ⟨_, hstore, ⟨howns, ?_, ?_, h.head, h.maxHeight, h.made, h.fresh,
    h.entries, h.random⟩, hworked⟩
  · apply h.nodes_update (.refl own) hentries
    · intro i r hi hr
      exact hagree _ r (by simpa using hi) hr
    · exact fun i level _ => id
    · refine ⟨a, hnode.region, ?_, ?_⟩
      · intro level target htarget hready
        rw [wordAt_withWord_of_apart (keyField_apart a level).symm]
        exact hnode.link level target htarget hready
      · intro _
        have hword : wordAt (m.withWord a q).ram a = q := wordAt_stored hlt
        rw [hword]
        exact hq.move (.refl own) hentries
  · apply h.linked_update
    exact fun level n => h.linked x node level n hheap

/-- A pointer that was never set leads nowhere. -/
theorem getElem?_replicate_ne {height : Nat} (level n : Nat) :
    (List.replicate height (none : Option Nat))[level]? ≠ some (some n) := by
  rw [List.getElem?_replicate]
  split_ifs <;> simp

/-- `NewNode`: none of the new node's pointers is ready. -/
theorem Rep.newNode (h : Rep m memory raw list own ready)
    (allocator : Allocator) {entry : Bytes} {q height : Nat}
    (hq : EntryAt m.ram own entry q) (hheight : 0 < height) :
    Ends (RawSkipList.newNode allocator q height m memory) fun result =>
      ∃ own', Extends own own' ∧
        own' (.node list.fresh) = some ⟨result.1, 8 + 8 * height⟩ ∧
        Rep result.2.1 result.2.2 { raw with made := raw.made + 1 }
          (list.newNode entry height) own'
          (fun i level => ready i level ∧ i ≠ list.fresh) ∧
        Worked m memory result.2.1 result.2.2 := by
  apply (h.owns.inv.ends_allocateAligned h.owns.valid allocator
    (Nat.add_pos_left (show 0 < 16 by decide) _)).bind
  rintro ⟨x, m1, memory1⟩ halloc
  dsimp only at halloc ⊢
  have hsize : 16 + 8 * (height - 1) = 8 + 8 * height := by omega
  rw [hsize] at halloc
  have hnone := h.fresh list.fresh (le_refl _)
  have hext := Extends.update hnone ⟨x, 8 + 8 * height⟩
  have hself : Function.update own (.node list.fresh)
      (some ⟨x, 8 + 8 * height⟩) (.node list.fresh) =
        some ⟨x, 8 + 8 * height⟩ := Function.update_self ..
  obtain ⟨hstore, howns, hworked, hagree⟩ :=
    (h.owns.extend (.node list.fresh) halloc).storeWord hself
      (keyField_within x height) q
  have hold : ∀ c r, c ≠ .node list.fresh → own c = some r →
      Agree m.ram (m1.withWord x q).ram r := by
    intro c r hne hr
    rw [← halloc.ram]
    exact hagree c r hne (hext c r hr)
  have hentries : EntriesAgree m.ram (m1.withWord x q).ram own :=
    fun k r => hold _ r (by simp)
  have hlt : q < 256 ^ 8 := by
    obtain ⟨k, r, hr, rfl, _⟩ := hq
    exact (h.owns.bounds hr).2
  apply Ends.bind_defined hstore
  refine ⟨_, hext, hself, ⟨howns, ?_, ?_, h.head.move hext, h.maxHeight,
    congrArg (· + 1) h.made, ?_, ?_, h.random⟩, halloc.worked.trans hworked⟩
  · apply h.nodes_update hext hentries
    · intro i r hi
      exact hold _ r (by simpa using hi)
    · exact fun i level _ hready => hready.1
    · refine ⟨x, ?_, ?_, ?_⟩
      · rw [List.length_replicate]
        exact hself
      · exact fun level target _ hready => absurd rfl hready.2
      · intro _
        have hword : wordAt (m1.withWord x q).ram x = q := wordAt_stored hlt
        rw [hword]
        exact hq.move hext hentries
  · apply h.linked_update
    intro level n hn
    exact absurd hn (getElem?_replicate_ne level n)
  · intro i hi
    have hne : Cell.node i ≠ .node list.fresh := by
      have hlt : list.fresh < i := hi
      simp only [ne_eq, Cell.node.injEq]
      omega
    rw [Function.update_of_ne hne]
    exact h.fresh i (Nat.le_of_succ_le hi)
  · obtain ⟨count, hcount⟩ := h.entries
    refine ⟨count, fun k hk => ?_⟩
    rw [Function.update_of_ne (by simp)]
    exact hcount k hk

theorem PrevAt.raiseLoop {head : Nat}
    (hhead : Points own (some SkipListNodes.head) head) :
    ∀ (count i : Nat) {prev : SkipListNodes.Prev} {rawPrev : Prev},
      PrevAt own prev rawPrev →
      PrevAt own (SkipListNodes.raiseLoop count i prev)
        (RawSkipList.raiseLoop head count i rawPrev) := by
  intro count
  induction count with
  | zero => exact fun i prev rawPrev h => h
  | succ count ih => exact fun i prev rawPrev h => ih (i + 1) (h.set i hhead)

/-- An entry of `prev` that has been written. -/
theorem PrevAt.getElem? {prev : SkipListNodes.Prev} {rawPrev : Prev}
    (h : PrevAt own prev rawPrev) {i before : Nat}
    (hbefore : prev[i]? = some (some before)) :
    ∃ p, rawPrev[i]? = some (some p) ∧ Points own (some before) p := by
  induction h generalizing i with
  | nil => exact absurd hbefore (by simp)
  | cons hhead _ ih =>
      cases i with
      | zero =>
          rw [List.getElem?_cons_zero, Option.some.injEq] at hbefore
          subst hbefore
          obtain ⟨p, rfl, hp⟩ := hhead
          exact ⟨p, rfl, hp⟩
      | succ i => exact ih hbefore

/-- The levels of the new node `x` that are spliced below level `i`. -/
def below (x i : Nat) : Nat → Nat → Prop :=
  fun j level => j = x → level < i

theorem below_succ {x i j level : Nat} (h : below x (i + 1) j level) :
    below x i j level ∨ (j = x ∧ level = i) := by
  by_cases hj : j = x
  · rcases Nat.lt_succ_iff_lt_or_eq.mp (h hj) with hlt | heq
    · exact Or.inl fun _ => hlt
    · exact Or.inr ⟨hj, heq⟩
  · exact Or.inl fun heq => absurd heq hj

theorem Rep.spliceLoop {x a : Nat} (ha : Points own (some x) a)
    (hx : x ≠ SkipListNodes.head) {prev : SkipListNodes.Prev} {rawPrev : Prev}
    (hprev : PrevAt own prev rawPrev)
    (hothers : ∀ i before : Nat, prev[i]? = some (some before) → before ≠ x) :
    ∀ (count i : Nat) {m : Machine} {list list' : SkipListNodes Bytes},
      Rep m memory raw list own (below x i) →
      SkipListNodes.spliceLoop prev x count i list = some list' →
      ∃ m', RawSkipList.spliceLoop rawPrev a count i m = some m' ∧
        Rep m' memory raw list' own (below x (i + count)) ∧
        Worked m memory m' memory := by
  intro count
  induction count with
  | zero =>
      intro i m list list' h hloop
      rw [SkipListNodes.spliceLoop, Option.some.injEq] at hloop
      subst hloop
      exact ⟨m, rfl, h, .refl m memory⟩
  | succ count ih =>
      intro i m list list' h hloop
      rw [SkipListNodes.spliceLoop] at hloop
      obtain ⟨found, hfound, hloop⟩ := Option.bind_eq_some_iff.mp hloop
      obtain ⟨before, hbefore, hloop⟩ := Option.bind_eq_some_iff.mp hloop
      obtain ⟨after, hafter, hloop⟩ := Option.bind_eq_some_iff.mp hloop
      obtain ⟨list1, hset1, hloop⟩ := Option.bind_eq_some_iff.mp hloop
      obtain ⟨list2, hset2, hloop⟩ := Option.bind_eq_some_iff.mp hloop
      rw [hbefore] at hfound
      have hne := hothers i before hfound
      obtain ⟨p, hp, hpoints⟩ := hprev.getElem? hfound
      obtain ⟨q, hq, htarget⟩ := h.next hafter hpoints
        (fun heq => absurd heq hne)
      have hafterHead : after ≠ some SkipListNodes.head := by
        rintro rfl
        exact h.ne_head hafter rfl
      obtain ⟨m1, hstore1, h1, hworked1⟩ :=
        h.setNext hset1 ha htarget hafterHead
      obtain ⟨m2, hstore2, h2, hworked2⟩ :=
        h1.setNext hset2 hpoints ha (by simpa using hx)
      have hready : Rep m2 memory raw list2 own (below x (i + 1)) := by
        apply h2.weaken
        exact fun j node _ level _ hbelow => Or.inl (below_succ hbelow)
      obtain ⟨m3, hrest, h3, hworked3⟩ := ih (i + 1) hready hloop
      refine ⟨m3, ?_, ?_, (hworked1.trans hworked2).trans hworked3⟩
      · rw [RawSkipList.spliceLoop]
        simp only [hp, Option.bind_eq_bind, Option.bind_some, hq, hstore1,
          hstore2, hrest]
      · rw [Nat.add_right_comm, Nat.add_assoc] at h3
        exact h3

/-- A node's region fixes its height. -/
theorem Rep.length_next (h : Rep m memory raw list own ready) {i a height : Nat}
    (hregion : own (.node i) = some ⟨a, 8 + 8 * height⟩)
    {node : SkipNode Bytes} (hheap : list.heap i = some node) :
    node.next.length = height := by
  obtain ⟨b, hnode⟩ := h.node i node hheap
  have hboth := hnode.region
  rw [hregion, Option.some.injEq, Region.mk.injEq] at hboth
  omega

theorem Rep.splice (h : Rep m memory raw list own all) (allocator : Allocator)
    {entry : Bytes} {q : Nat} (hq : EntryAt m.ram own entry q)
    {prev : SkipListNodes.Prev} {rawPrev : Prev}
    (hprev : PrevAt own prev rawPrev) (hfresh : 0 < list.fresh)
    (hsplice : list.splice entry prev raw.random.randomHeight.1 =
      some list') :
    Ends (raw.splice allocator q rawPrev m memory) fun result =>
      ∃ own', Rep result.1 result.2.1 result.2.2 list' own' all ∧
        Worked m memory result.1 result.2.1 := by
  obtain ⟨hheight, _, hrandom⟩ := Random.randomHeight_spec h.random
  unfold RawSkipList.splice
  unfold SkipListNodes.splice at hsplice
  generalize raw.random.randomHeight = drawn at hheight hrandom hsplice ⊢
  obtain ⟨height, random⟩ := drawn
  dsimp only at hheight hrandom hsplice ⊢
  rw [h.maxHeight]
  generalize hmax : (if list.maxHeight < height then height
    else list.maxHeight) = maxHeight at hsplice ⊢
  have hraised : Rep m memory { raw with maxHeight, random }
      { list with maxHeight } own all :=
    ⟨h.owns, h.node, h.linked, h.head, rfl, h.made, h.fresh, h.entries,
      hrandom⟩
  have hraisedPrev := hprev.raiseLoop h.head (height - list.maxHeight)
    list.maxHeight
  apply (hraised.newNode allocator hq hheight).bind
  rintro ⟨x, m1, memory1⟩ ⟨own', hext, hregion, h1, hworked1⟩
  dsimp only at hregion h1 hworked1 ⊢
  have hbelow : Rep m1 memory1 { raw with
      maxHeight, random, made := raw.made + 1 }
      (SkipListNodes.newNode { list with maxHeight } entry height) own'
      (below list.fresh 0) := by
    apply h1.weaken
    intro i node _ level _ hnone
    exact ⟨trivial, fun heq => absurd (hnone heq) (Nat.not_lt_zero level)⟩
  obtain ⟨m2, hloop, h2, hworked2⟩ := Rep.spliceLoop ⟨_, hregion, rfl⟩
    hfresh.ne' (hraisedPrev.move hext) (by
      intro i before hbefore
      obtain ⟨p, _, hp⟩ := hraisedPrev.getElem? hbefore
      exact (h.points_lt hp).ne) height 0 hbelow hsplice
  apply Ends.bind_defined hloop
  refine ⟨own', h2.weaken ?_, hworked1.trans hworked2⟩
  intro i node hheap level hlevel _ hi
  subst hi
  rw [Nat.zero_add, ← h2.length_next hregion hheap]
  exact hlevel

/-- A region that was just handed out gets the bytes of an entry. -/
theorem Rep.newEntry (h : Rep m memory raw list own all) {r : Region}
    (halloc : Allocated m memory r m' memory') {key value : Bytes}
    (hshort : Short (key, value))
    (hsize : r.size = (encodeEntry key value).length) :
    ∃ own', Rep { m' with ram := stored m'.ram r.start (encodeEntry key value) }
        memory' raw list own' all ∧
      EntryAt (stored m'.ram r.start (encodeEntry key value)) own'
        (encodeEntry key value) r.start ∧
      Worked m memory
        { m' with ram := stored m'.ram r.start (encodeEntry key value) }
        memory' := by
  obtain ⟨count, hcount⟩ := h.entries
  have hnone := hcount count (le_refl _)
  have hext := Extends.update hnone r
  have hwithin : (⟨r.start, (encodeEntry key value).length⟩ : Region).Within
      r := by
    rw [← hsize]
    exact .refl r
  obtain ⟨_, hworked⟩ := halloc.handed.store halloc.valid
    (hsize ▸ halloc.handed.pos) hwithin
  have hagree : ∀ c s, own c = some s →
      Agree m.ram (stored m'.ram r.start (encodeEntry key value)) s := by
    intro c s hs
    rw [← halloc.ram]
    apply Agree.stored
    exact (halloc.kept s (h.owns.handed c s hs)).2.symm.mono hwithin (.refl s)
  refine ⟨_, ⟨(h.owns.extend (.entry count) halloc).withRam _, ?_, h.linked,
    h.head.move hext, h.maxHeight, h.made, ?_, ?_, h.random⟩,
    ⟨count, r, Function.update_self .., rfl, ?_, key, value, hshort, rfl⟩,
    halloc.worked.trans hworked⟩
  · intro i node hheap
    obtain ⟨a, hnode⟩ := h.node i node hheap
    exact ⟨a, hnode.move hext (fun k => hagree _) (hagree _)⟩
  · intro i hi
    rw [Function.update_of_ne (by simp)]
    exact h.fresh i hi
  · refine ⟨count + 1, fun k hk => ?_⟩
    have hne : Cell.entry k ≠ .entry count := by
      simp only [ne_eq, Cell.entry.injEq]
      omega
    rw [Function.update_of_ne hne]
    exact hcount k (Nat.le_of_succ_le hk)
  · rw [hsize]
    exact bytes_stored ..

theorem heap_new {headKey : Bytes} {i : Nat} {node : SkipNode Bytes}
    (h : (SkipListNodes.new headKey).heap i = some node) :
    i = SkipListNodes.head ∧
      node = ⟨headKey, List.replicate kMaxHeight none⟩ := by
  dsimp only [SkipListNodes.new] at h
  by_cases hi : i = SkipListNodes.head
  · rw [hi, Function.update_self, Option.some.injEq] at h
    exact ⟨hi, h.symm⟩
  · rw [Function.update_of_ne hi] at h
    exact absurd h (by simp)

theorem setNext_new (headKey : Bytes) {i : Nat} (hi : i < kMaxHeight) :
    (SkipListNodes.new headKey).setNext SkipListNodes.head i none =
      some (SkipListNodes.new headKey) := by
  have hheap : (SkipListNodes.new headKey).heap SkipListNodes.head =
      some ⟨headKey, List.replicate kMaxHeight none⟩ := by
    dsimp only [SkipListNodes.new]
    rw [Function.update_self]
  rw [SkipListNodes.setNext, hheap]
  simp only [Option.bind_eq_bind, Option.bind_some, List.length_replicate,
    if_pos hi, List.set_replicate_self]
  rw [← hheap, Function.update_eq_self]

theorem Rep.clearLoop {headKey : Bytes} {a : Nat}
    (ha : Points own (some SkipListNodes.head) a) :
    ∀ (count i : Nat) {m : Machine}, i + count ≤ kMaxHeight →
      Rep m memory raw (.new headKey) own (below SkipListNodes.head i) →
      ∃ m', RawSkipList.clearLoop a count i m = some m' ∧
        Rep m' memory raw (.new headKey) own
          (below SkipListNodes.head (i + count)) ∧
        Worked m memory m' memory := by
  intro count
  induction count with
  | zero => exact fun i m _ h => ⟨m, rfl, h, .refl m memory⟩
  | succ count ih =>
      intro i m hle h
      obtain ⟨m1, hstore, h1, hworked⟩ := h.setNext
        (setNext_new headKey (show i < kMaxHeight by omega)) ha rfl (by simp)
      have hready : Rep m1 memory raw (.new headKey) own
          (below SkipListNodes.head (i + 1)) :=
        h1.weaken fun j node _ level _ => below_succ
      obtain ⟨m2, hrest, h2, hworked'⟩ := ih (i + 1) (by omega) hready
      refine ⟨m2, ?_, ?_, hworked.trans hworked'⟩
      · rw [RawSkipList.clearLoop, hstore]
        exact hrest
      · rw [Nat.add_right_comm, Nat.add_assoc] at h2
        exact h2

/-- The constructor in an arena without other uses. -/
theorem Rep.new (hvalid : m.Valid) (hinv : memory.Inv m)
    (allocator : Allocator) (headKey : Bytes) (q : Nat) :
    Ends (RawSkipList.new allocator q m memory) fun result =>
      ∃ own, Rep result.1 result.2.1 result.2.2 (.new headKey) own all ∧
        Worked m memory result.1 result.2.1 := by
  have howns : memory.Owns m (fun _ : Cell => none) :=
    ⟨hvalid, hinv, fun c r hr => absurd hr (by simp),
      fun c d r s _ hr => absurd hr (by simp)⟩
  have hnode : Ends (RawSkipList.newNode allocator q kMaxHeight m memory)
      fun result => ∃ own, Rep result.2.1 result.2.2
          ⟨result.1, 1, .new 0xdeadbeef, 1⟩ (.new headKey) own
          (below SkipListNodes.head 0) ∧
        own (.node SkipListNodes.head) =
          some ⟨result.1, 8 + 8 * kMaxHeight⟩ ∧
        Worked m memory result.2.1 result.2.2 := by
    apply (hinv.ends_allocateAligned hvalid allocator
      (show 0 < 16 + 8 * (kMaxHeight - 1) by decide)).bind
    rintro ⟨x, m1, memory1⟩ halloc
    dsimp only at halloc ⊢
    have hself : Function.update (fun _ : Cell => none)
        (.node SkipListNodes.head) (some ⟨x, 8 + 8 * kMaxHeight⟩)
        (.node SkipListNodes.head) =
          some (⟨x, 8 + 8 * kMaxHeight⟩ : Region) := Function.update_self ..
    obtain ⟨hstore, howns', hworked, _⟩ :=
      (howns.extend (.node SkipListNodes.head) halloc).storeWord hself
        (keyField_within x kMaxHeight) q
    apply Ends.bind_defined hstore
    refine ⟨_, ⟨howns', ?_, ?_, ⟨_, hself, rfl⟩, rfl, rfl, ?_, ?_,
      Random.valid_new _⟩, hself, halloc.worked.trans hworked⟩
    · intro i node hheap
      obtain ⟨rfl, rfl⟩ := heap_new hheap
      refine ⟨x, ?_, ?_, fun hne => absurd rfl hne⟩
      · rw [List.length_replicate]
        exact hself
      · exact fun level target _ hready =>
          absurd (hready rfl) (Nat.not_lt_zero level)
    · intro i node level n hheap hn
      obtain ⟨rfl, rfl⟩ := heap_new hheap
      exact absurd hn (getElem?_replicate_ne level n)
    · intro i hi
      rw [Function.update_of_ne]
      simp only [ne_eq, Cell.node.injEq]
      exact Nat.pos_iff_ne_zero.mp hi
    · exact ⟨0, fun k _ => Function.update_of_ne (by simp) _ _⟩
  apply hnode.bind
  rintro ⟨x, m1, memory1⟩ ⟨own, h, hregion, hworked⟩
  dsimp only at h hregion hworked ⊢
  obtain ⟨m2, hloop, h2, hworked2⟩ := Rep.clearLoop ⟨_, hregion, rfl⟩
    kMaxHeight 0 (by omega) h
  apply Ends.bind_defined hloop
  refine ⟨own, h2.weaken ?_, hworked.trans hworked2⟩
  intro i node hheap level hlevel _ hi
  subst hi
  rw [Nat.zero_add, ← h2.length_next hregion hheap]
  exact hlevel

theorem prevAt_replicate (own : Cell → Option Region) (count : Nat) :
    PrevAt own (List.replicate count none) (List.replicate count none) := by
  induction count with
  | zero => exact .nil
  | succ count ih => exact .cons rfl ih

/-- `Insert` of an entry that lies in the same arena. -/
theorem Rep.insert (h : Rep m memory raw list own all) (allocator : Allocator)
    {entry : Bytes} {q : Nat} (hq : EntryAt m.ram own entry q)
    (hfresh : 0 < list.fresh)
    (hinsert : list.insert comparator entry raw.random.randomHeight.1 =
      some list') :
    Ends (raw.insert allocator q m memory) fun result =>
      ∃ own', Rep result.1 result.2.1 result.2.2 list' own' all ∧
        Worked m memory result.1 result.2.1 := by
  obtain ⟨⟨x, prev'⟩, hfind, hthen⟩ := Option.bind_eq_some_iff.mp hinsert
  obtain ⟨prev, rfl, hend⟩ := Option.bind_eq_some_iff.mp hthen
  have hprobe : Probe m entry q := h.extractUserKey hq
  obtain ⟨p, rawPrev', hraw, hpoints, hrel, hhead⟩ :=
    h.findGreaterOrEqualLoop hprobe _ h.head
      (.some (prevAt_replicate own kMaxHeight)) hfind
  rw [SkipListNodes.rounds, ← h.made, ← h.maxHeight] at hraw
  cases hrel with
  | @some _ rawPrev hprevAt =>
      have hsplices : ∀ list', list.splice entry prev
          raw.random.randomHeight.1 = some list' →
          Ends (raw.splice allocator q rawPrev m memory) fun result =>
            ∃ own', Rep result.1 result.2.1 result.2.2 list' own' all ∧
              Worked m memory result.1 result.2.1 :=
        fun list' => h.splice allocator hq hprevAt hfresh
      apply Ends.bind_defined hraw
      apply Ends.bind_defined rfl
      cases x with
      | none =>
          rw [show p = 0 from hpoints]
          exact hsplices list' hend
      | some n =>
          obtain ⟨other, hkey, hlast⟩ := Option.bind_eq_some_iff.mp hend
          apply Ends.bind_defined
            (h.isEqual hprobe hkey (by simpa using hhead) hpoints)
          by_cases heq : comparator other entry = .eq
          · rw [if_pos heq] at hlast
            rw [if_pos (by simpa using heq)]
            obtain ⟨m', hstore, h', hworked⟩ := h.setKey hlast hpoints hq
            exact Ends.bind_defined hstore ⟨own, h', hworked⟩
          · rw [if_neg heq] at hlast
            rw [if_neg (by simpa using heq)]
            exact hsplices list' hlast

end Writes

end RawSkipList

end SimpleKV
