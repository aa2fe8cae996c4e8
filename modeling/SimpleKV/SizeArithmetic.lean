/-
The 32-bit sizes of the write path: `encoded_len` and `income_size_` of `Add`,
the `int` given to `Memory::Allocate`, `flush_size` of `FlushBuffer`, and the
index offset and the table of `Flush`, each against the exact sum it stands for.
`Flush` is taken as `FlushBuffer` calls it.  Its call in `FlushCompactedFile`,
with the `content_size` of a merge's output, is not part of this: the results on
merges assume instead that every file has less than 2^32 bytes.
-/
import SimpleKV.Handoff

namespace SimpleKV

namespace StorageBuffer

/-- The `uint32_t` size of an entry as the `int` that `Memory::Allocate`
takes. -/
def allocateBytes (key value : ByteArray) : Int :=
  (encodedLen key value).toInt32.toInt

/-- The size of an entry, not cut to 32 bits. -/
def exactLen (key value : Bytes) : Nat :=
  (Leb128.groups key.length).length + key.length +
    ((Leb128.groups value.length).length + value.length)

/-- The sizes `Add` computes for an entry are exact: `encoded_len`, the bytes it
allocates and writes, and `income_size_` after `sum` bytes of earlier
entries. -/
def AddExact (sum : Nat) (key value : Bytes) (buffer : StorageBuffer) : Prop :=
  let name := ByteArray.ofString key
  let content := ByteArray.ofString value
  (encodedLen name content).toNat = exactLen key value ∧
    (buffer.insert name content).incomeSize.toNat =
      sum + exactLen key value ∧
    0 < allocateBytes name content ∧
    allocateBytes name content =
      (encodeEntry name.data content.data).length

/-- The sizes `FlushBuffer` and `Flush` compute for a list are exact:
`flush_size`, the index offset in the header and the offset of every key. -/
def FlushExact (iter : IterOrder) (list : SkipList Bytes) : Prop :=
  ∃ content flushSize lower upper,
    flushContent list = some (content, flushSize) ∧
      content.head?.bind boundBytes = some lower ∧
      content.getLast?.bind boundBytes = some upper ∧
      flushSize.toNat = content.flatten.length ∧
      ∀ build bytes keyOffset,
        Build.flush build iter content flushSize = some (bytes, keyOffset) →
        (∃ indexOffset,
          getFixed32 (bytes.drop (lower ++ upper).length) = some indexOffset ∧
            indexOffset.toNat =
              (lower ++ upper).length + 4 + content.flatten.length) ∧
        ∀ before entry after key, content = before ++ entry :: after →
          extractUserKey entry = some key →
          ∃ offset, keyOffset.lookup key = some offset ∧
            offset.toNat = (lower ++ upper).length + 4 + before.flatten.length

/-- The size of the file of a list up to its index. -/
def indexStart (list : SkipList Bytes) : Nat :=
  headerSize ((list.entries.head?.map Prod.fst).getD [])
      ((list.entries.getLast?.map Prod.fst).getD []) +
    (dataBytes list.entries).length

theorem exactLen_eq {key value : Bytes} (hkey : key.length < 2 ^ 32)
    (hvalue : value.length < 2 ^ 32) :
    exactLen key value = (encodeEntry key value).length := by
  rw [exactLen, length_encodeEntry, length_encodeString, length_encodeString,
    encodeVarint32_eq_groups, encodeVarint32_eq_groups,
    toNat_ofNat_length hkey, toNat_ofNat_length hvalue]

theorem length_lt_of_exactLen {key value : Bytes} {bound : Nat}
    (h : exactLen key value < bound) :
    key.length < bound ∧ value.length < bound := by
  unfold exactLen at h
  omega

/-- A `uint32_t` is the same `int` below 2^31 and negative from there on. -/
theorem allocateBytes_eq (key value : ByteArray) :
    allocateBytes key value =
      if (encodedLen key value).toNat < 2 ^ 31 then
        ((encodedLen key value).toNat : Int)
      else (encodedLen key value).toNat - 2 ^ 32 := by
  have hcond := BitVec.toInt_eq_toNat_cond (encodedLen key value).toBitVec
  rw [allocateBytes]
  change (encodedLen key value).toBitVec.toInt = _
  rw [hcond]
  simp only [UInt32.toNat_toBitVec]
  split_ifs <;> omega

theorem allocateBytes_pos_iff (key value : ByteArray) :
    0 < allocateBytes key value ↔ 0 < (encodedLen key value).toNat ∧
      (encodedLen key value).toNat < 2 ^ 31 := by
  have hlt := (encodedLen key value).toNat_lt
  rw [allocateBytes_eq]
  split_ifs <;> omega

theorem encodedLen_of_exactLen {key value : Bytes}
    (h : exactLen key value < 2 ^ 32) :
    (ByteArray.ofString key).data = key ∧
      (ByteArray.ofString value).data = value ∧
      (encodedLen (.ofString key) (.ofString value)).toNat =
        exactLen key value := by
  obtain ⟨hkey, hvalue⟩ := length_lt_of_exactLen h
  refine ⟨ByteArray.ofString_data hkey, ByteArray.ofString_data hvalue, ?_⟩
  rw [encodedLen_eq, ByteArray.ofString_data hkey,
    ByteArray.ofString_data hvalue, ← exactLen_eq hkey hvalue,
    UInt32.toNat_ofNat', Nat.mod_eq_of_lt h]

theorem addExact_iff {sum : Nat} {buffer : StorageBuffer}
    (hsum : buffer.incomeSize.toNat = sum) (key value : Bytes) :
    AddExact sum key value buffer ↔
      exactLen key value < 2 ^ 31 ∧ sum + exactLen key value < 2 ^ 32 := by
  constructor
  · rintro ⟨hlen, hincome, hpos, _⟩
    rw [allocateBytes_pos_iff, hlen] at hpos
    refine ⟨hpos.2, ?_⟩
    rw [← hincome]
    exact UInt32.toNat_lt _
  · rintro ⟨hshort, htotal⟩
    obtain ⟨hkey, hvalue, hlen⟩ :=
      encodedLen_of_exactLen (hshort.trans (by decide))
    obtain ⟨hkeyLt, hvalueLt⟩ :=
      length_lt_of_exactLen (hshort.trans (show 2 ^ 31 < 2 ^ 32 by decide))
    have hentry := exactLen_eq hkeyLt hvalueLt
    have hpositive := length_lt_length_encodeString key
    rw [length_encodeEntry] at hentry
    refine ⟨hlen, ?_, ?_, ?_⟩
    · change (buffer.incomeSize + _).toNat = _
      rw [UInt32.toNat_add, hsum, hlen, Nat.mod_eq_of_lt htotal]
    · rw [allocateBytes_pos_iff, hlen]
      exact ⟨by omega, hshort⟩
    · rw [allocateBytes_eq, hlen, if_pos hshort, hkey, hvalue,
        length_encodeEntry, hentry]

/-- The bounds that `Flush` copies from the entries of a list. -/
theorem boundBytes_encodeEntries {entries : List (Bytes × Bytes)}
    {first last : Bytes × Bytes} (hhead : entries.head? = some first)
    (hlast : entries.getLast? = some last)
    (hfits : ∀ entry ∈ entries, Fits entry) :
    (encodeEntries entries).head?.bind boundBytes =
        some (encodeString first.1) ∧
      (encodeEntries entries).getLast?.bind boundBytes =
        some (encodeString last.1) := by
  have hfirst := hfits first (List.mem_of_mem_head? hhead)
  have hupper := hfits last (List.mem_of_getLast? hlast)
  constructor
  · rw [encodeEntries, List.head?_map, hhead]
    exact boundBytes_encodeEntry hfirst
  · rw [getLast?_encodeEntries hlast]
    exact boundBytes_encodeEntry hupper

/-- The index offset that a reader finds behind the bounds. -/
theorem getFixed32_layout (lower upper : Bytes) (indexOffset : UInt32)
    (entries : List (Bytes × Bytes)) (index : List KeyOffsetItem) :
    getFixed32 ((layout lower upper indexOffset entries index).drop
      (encodeString lower ++ encodeString upper).length) =
        some indexOffset := by
  rw [layout, List.append_assoc, List.append_assoc, List.drop_left,
    getFixed32_encodeFixed32]

/-- An entry of the written content and the offset recorded for its key. -/
theorem lookup_offsetTable_append {entries : List (Bytes × Bytes)}
    (hinc : SortedAssoc.Increasing entries)
    (hfits : ∀ entry ∈ entries, Fits entry) (lower upper : Bytes)
    {before after : List Bytes} {entry key : Bytes}
    (hcontent : encodeEntries entries = before ++ entry :: after)
    (hkey : extractUserKey entry = some key) :
    (offsetTable lower upper entries).lookup key = some
        (UInt32.ofNat (headerSize lower upper + before.flatten.length)) ∧
      before.flatten.length ≤ (dataBytes entries).length := by
  obtain ⟨pre, rest, rfl, hpre, hrest⟩ := List.map_eq_append_iff.mp hcontent
  obtain ⟨pair, post, rfl, hpair, _⟩ := List.map_eq_cons_iff.mp hrest
  obtain ⟨name, value⟩ := pair
  have hname : key = name := by
    have hentry := extractUserKey_encodeString (encodeString value)
      (hfits (name, value) (by simp)).bounds.2.1
    rw [← hpair] at hkey
    exact Option.some.inj (hkey.symm.trans hentry)
  have hpost : name ∉ post.map Prod.fst := by
    intro hmem
    obtain ⟨other, hother, heq⟩ := List.mem_map.mp hmem
    have htail : SortedAssoc.Increasing ((name, value) :: post) :=
      (List.pairwise_append.mp hinc).2.1
    have hlt := htail.head_lt other hother
    rw [heq] at hlt
    exact lt_irrefl _ hlt
  have hdata : dataBytes pre = before.flatten := by
    rw [← hpre]
    rfl
  subst hname
  constructor
  · rw [offsetTable, lookup_recordOffsets_append hpost, hdata, UInt32.ofNat_add]
  · rw [dataBytes_append, List.length_append, hdata]
    exact Nat.le_add_right _ _

theorem flushExact_iff {list : SkipList Bytes} (hbuilt : list.Built)
    (hne : list ≠ []) (iter : IterOrder) :
    FlushExact iter list ↔ indexStart list < 2 ^ 32 := by
  have hentries : list.entries ≠ [] := by
    intro hnil
    apply hne
    rw [hbuilt.nodes, hnil]
    rfl
  obtain ⟨first, hhead⟩ := Option.ne_none_iff_exists'.mp
    (mt List.head?_eq_none_iff.mp hentries)
  obtain ⟨last, hlast⟩ := Option.ne_none_iff_exists'.mp
    (mt List.getLast?_eq_none_iff.mp hentries)
  have hcontent := flushContent_encodeEntries hbuilt
  obtain ⟨hlower, hupper⟩ := boundBytes_encodeEntries hhead hlast hbuilt.fits
  have hflush (build : Build) := build.flush_encodeEntries iter
    (UInt32.ofNat (dataBytes list.entries).length) hhead hlast
    hbuilt.increasing hbuilt.fits
  have hheader : headerSize first.1 last.1 =
      (encodeString first.1 ++ encodeString last.1).length + 4 := by
    rw [headerSize, List.length_append]
  have hstart : indexStart list =
      headerSize first.1 last.1 + (dataBytes list.entries).length := by
    rw [indexStart, hhead, hlast]
    rfl
  rw [hstart]
  constructor
  · rintro ⟨content, flushSize, lower, upper, hcontent', hlower', hupper', _,
      hwritten⟩
    rw [hcontent, Option.some.injEq, Prod.mk.injEq] at hcontent'
    obtain ⟨rfl, rfl⟩ := hcontent'
    obtain rfl := Option.some.inj (hlower.symm.trans hlower')
    obtain rfl := Option.some.inj (hupper.symm.trans hupper')
    have hrelease := hflush .release
    rw [if_neg (by simp)] at hrelease
    obtain ⟨⟨indexOffset, _, hindex⟩, _⟩ := hwritten _ _ _ hrelease
    rw [hheader]
    exact hindex ▸ indexOffset.toNat_lt
  · intro hfits
    refine ⟨_, _, _, _, hcontent, hlower, hupper, ?_, ?_⟩
    · rw [UInt32.toNat_ofNat', Nat.mod_eq_of_lt (by omega)]
      rfl
    · intro build bytes keyOffset hbytes
      rw [hflush build] at hbytes
      split_ifs at hbytes
      rw [Option.some.injEq, Prod.mk.injEq] at hbytes
      obtain ⟨rfl, rfl⟩ := hbytes
      constructor
      · refine ⟨_, getFixed32_layout _ _ _ _ _, ?_⟩
        rw [← UInt32.ofNat_add, UInt32.toNat_ofNat', Nat.mod_eq_of_lt hfits,
          hheader]
        rfl
      · intro before entry after key hsplit hkey
        obtain ⟨hlookup, hle⟩ := lookup_offsetTable_append hbuilt.increasing
          hbuilt.fits first.1 last.1 hsplit hkey
        refine ⟨_, hlookup, ?_⟩
        rw [UInt32.toNat_ofNat', Nat.mod_eq_of_lt (by omega), hheader]

end StorageBuffer

namespace DataBase

open StorageBuffer

/-- The exact size of the income buffer's entries after a step, from the one
before: every `Add` counts, and a swap starts anew. -/
def incomeSum : Nat → Act → DataBase → Nat
  | sum, .add order key value, db =>
      if (db.buffer.insert (.ofString key)
          (.ofString (orderValue order value))).swaps then 0
      else sum + exactLen key (orderValue order value)
  | sum, _, _ => sum

/-- Every size the step computes is exact. -/
def StepExact (sum : Nat) (db : DataBase) : Act → Prop
  | .add order key value =>
      AddExact sum key (orderValue order value) db.buffer
  | .write iter => ∀ list ∈ db.buffer.flushBuffer, FlushExact iter list
  | _ => True

/-- The sizes of the step's input are in range: an entry below 2^31 bytes, the
entries since the last swap below 2^32, the file up to its index below 2^32. -/
def StepFits (sum : Nat) (db : DataBase) : Act → Prop
  | .add order key value =>
      exactLen key (orderValue order value) < 2 ^ 31 ∧
        sum + exactLen key (orderValue order value) < 2 ^ 32
  | .write _ => ∀ list ∈ db.buffer.flushBuffer, indexStart list < 2 ^ 32
  | _ => True

/-- A run whose steps are all in range, and the exact size of the entries added
since the last swap. -/
inductive FittingRun (first : DataBase) : List Act → Nat → DataBase → Prop where
  | nil : FittingRun first [] 0 first
  | snoc {acts : List Act} {act : Act} {sum : Nat} {db db' : DataBase} :
      FittingRun first acts sum db → StepFits sum db act →
      step act db = some db' →
      FittingRun first (acts ++ [act]) (incomeSum sum act db) db'

variable {db db' : DataBase}

/-- A control step leaves the size of the income buffer alone. -/
theorem incomeSize_control {act : Act} (hact : act.Control)
    (h : step act db = some db') :
    db'.buffer.incomeSize = db.buffer.incomeSize := by
  by_cases hcheck : act = .compactCheck
  · subst hcheck
    rw [step_compactCheck h]
  · have hbuffer : db'.buffer = (controlEffect act db.buffer db.isStop).1 :=
      congrArg Prod.fst (control_eq hact hcheck h).2
    rw [hbuffer]
    cases act <;> rfl

/-- One step in range keeps `income_size_` exact. -/
theorem incomeSize_step {sum : Nat} {act : Act}
    (hsum : db.buffer.incomeSize.toNat = sum) (hfits : StepFits sum db act)
    (h : step act db = some db') :
    db'.buffer.incomeSize.toNat = incomeSum sum act db := by
  cases step_data h with
  | control hact _ =>
      rw [incomeSize_control hact h, hsum]
      cases act with
      | add order key value => exact absurd hact (by simp [Act.Control])
      | _ => rfl
  | @add order key value buffer notifying _ hadd =>
      obtain ⟨_, hresult⟩ := add_eq_some_iff.mp hadd
      have hexact := (addExact_iff hsum key (orderValue order value)).mpr hfits
      simp only [incomeSum]
      split_ifs at hresult ⊢ with hswaps
      · rw [(Prod.mk.inj hresult).1]
        rfl
      · rw [(Prod.mk.inj hresult).1]
        exact hexact.2.1
  | getFiles hget =>
      obtain ⟨cache, rfl⟩ := getFiles_eq hget
      exact hsum
  | compact hact _ =>
      cases act with
      | add order key value => exact absurd hact (by simp [Act.Compacts])
      | _ => exact hsum
  | _ => exact hsum

theorem FittingRun.inv {bufferSize : UInt32} {cache : LRUCache}
    {engine : StorageEngine} {acts : List Act} {sum : Nat}
    (h : FittingRun (.start bufferSize cache engine) acts sum db) :
    HandoffInv db ∧ db.buffer.incomeSize.toNat = sum := by
  induction h with
  | nil => exact ⟨HandoffInv.start bufferSize cache engine, rfl⟩
  | snoc _ hfits hstep ih =>
      exact ⟨ih.1.step hstep, incomeSize_step ih.2 hfits hstep⟩

/-- Along every run whose steps so far were in range, `income_size_` is the
exact size of the entries added since the last swap, and every size the next
step computes is exact if and only if that step is in range too. -/
theorem sizes_exact_iff {bufferSize : UInt32} {cache : LRUCache}
    {engine : StorageEngine} {acts : List Act} {sum : Nat}
    (hrun : FittingRun (.start bufferSize cache engine) acts sum db)
    (act : Act) :
    db.buffer.incomeSize.toNat = sum ∧
      (StepExact sum db act ↔ StepFits sum db act) := by
  obtain ⟨hinv, hsum⟩ := hrun.inv
  refine ⟨hsum, ?_⟩
  cases act with
  | add order key value => exact addExact_iff hsum key (orderValue order value)
  | write iter =>
      constructor
      · intro hexact list hlist
        obtain ⟨hbuilt, hne⟩ := hinv.flushing list hlist
        exact (flushExact_iff hbuilt hne iter).mp (hexact list hlist)
      · intro hfits list hlist
        obtain ⟨hbuilt, hne⟩ := hinv.flushing list hlist
        exact (flushExact_iff hbuilt hne iter).mpr (hfits list hlist)
  | _ => exact Iff.rfl

/-- A run with one `Put`, and the `Delete` behind it. -/
theorem sizes_exact_iff_put_delete :
    ∃ db, FittingRun (.start 100 (.empty 1 (by decide)) (.new 1))
        [.add .put [97] [1]] 4 db ∧
      db.buffer.incomeSize.toNat = 4 ∧
      (StepExact 4 db (.add .delete [97] []) ↔
        StepFits 4 db (.add .delete [97] [])) := by
  have hlen : exactLen [97] [1] = 4 := by
    rw [exactLen, List.length_singleton, List.length_singleton,
      Leb128.groups_of_lt (by decide)]
    rfl
  have hfits : StepFits 0 (.start 100 (.empty 1 (by decide)) (.new 1))
      (.add .put [97] [1]) := by
    change exactLen [97] [1] < 2 ^ 31 ∧ 0 + exactLen [97] [1] < 2 ^ 32
    rw [hlen]
    decide
  have hrun := FittingRun.nil.snoc hfits rfl
  rw [show incomeSum 0 (.add .put [97] [1])
    (.start 100 (.empty 1 (by decide)) (.new 1)) =
      0 + exactLen [97] [1] from rfl, hlen] at hrun
  exact ⟨_, hrun, sizes_exact_iff hrun _⟩

/-- Every value of 2^31 bytes makes the `int` given to `Memory::Allocate`
negative. -/
theorem allocateBytes_neg {value : Bytes} (hvalue : value.length = 2 ^ 31) :
    allocateBytes (.ofString []) (.ofString value) < 0 ∧
      ¬ StepExact 0 (.start 0 (.empty 1 (by decide)) (.new 1))
        (.add .put [] value) := by
  have hlen : 2 ^ 31 ≤ exactLen [] value ∧ exactLen [] value < 2 ^ 32 := by
    have hprefix := Leb128.length_groups_le
      (show 2 ^ 31 < 128 ^ (4 + 1) by decide)
    rw [exactLen, hvalue, List.length_nil, Leb128.groups_of_lt (by decide),
      List.length_singleton]
    omega
  obtain ⟨_, _, hencoded⟩ := encodedLen_of_exactLen hlen.2
  constructor
  · rw [allocateBytes_eq, hencoded, if_neg (not_lt.mpr hlen.1)]
    omega
  · intro hexact
    have hfits := (addExact_iff rfl [] (orderValue .put value)).mp hexact
    exact not_lt.mpr hlen.1 hfits.1

/-- Such a value as the first `Put` of a store. -/
theorem allocate_negative :
    allocateBytes (.ofString []) (.ofString (List.replicate (2 ^ 31) 0)) < 0 ∧
      ¬ StepExact 0 (.start 0 (.empty 1 (by decide)) (.new 1))
        (.add .put [] (List.replicate (2 ^ 31) 0)) :=
  allocateBytes_neg List.length_replicate

end DataBase

end SimpleKV
