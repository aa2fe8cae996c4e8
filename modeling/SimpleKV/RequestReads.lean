/-
The bytes of `buffer_recv` that the parser of `NetworkTask::Run` looks at.  The
parser is run on a memory that goes on past the 1400 bytes of the buffer, with a
record of every index it reads.
-/
import SimpleKV.Server

namespace SimpleKV

/-- A parse with the indices read on the way. -/
structure Traced (A : Type) where
  reads : List Nat
  result : Except ParseError A

namespace Traced

variable {A B : Type}

def ok (a : A) : Traced A :=
  ⟨[], .ok a⟩

def fail (error : ParseError) : Traced A :=
  ⟨[], .error error⟩

def bind (first : Traced A) (next : A → Traced B) : Traced B :=
  match first.result with
  | .error error => ⟨first.reads, .error error⟩
  | .ok a => ⟨first.reads ++ (next a).reads, (next a).result⟩

instance : Monad Traced where
  pure := ok
  bind := bind

/-- All reads are below `n`. -/
def Inside (n : Nat) (traced : Traced A) : Prop :=
  ∀ i ∈ traced.reads, i < n

theorem inside_bind {n : Nat} {first : Traced A} {next : A → Traced B} :
    (first >>= next).Inside n ↔
      first.Inside n ∧ ∀ a, first.result = .ok a → (next a).Inside n := by
  change (first.bind next).Inside n ↔ _
  cases hresult : first.result with
  | error error => simp [Inside, bind, hresult]
  | ok a => simp [Inside, bind, hresult, or_imp, forall_and]

theorem inside_ok (n : Nat) (a : A) : (ok a).Inside n := by
  simp [Inside, ok]

theorem inside_fail (n : Nat) (error : ParseError) :
    (fail error : Traced A).Inside n := by
  simp [Inside, fail]

theorem result_bind (first : Traced A) (next : A → Traced B) :
    (first >>= next).result = first.result >>= fun a => (next a).result := by
  change (first.bind next).result = _
  cases hresult : first.result with
  | error error =>
      rw [bind, hresult]
      rfl
  | ok a =>
      rw [bind, hresult]
      rfl

end Traced

/-- The bytes from `buffer_recv` on: the buffer and what lies behind it. -/
def memoryOf (bufferRecv : Bytes) (beyond : Nat → UInt8) (i : Nat) : UInt8 :=
  bufferRecv[i]?.getD (beyond i)

section Parser

variable (memory : Nat → UInt8) (messageSize : Nat)

/-- `memcmp` against `size` bytes, or a copy of them. -/
def tracedBytes (p size : Nat) : Traced Bytes :=
  ⟨List.range' p size, .ok ((List.range' p size).map memory)⟩

/-- The loop of `GetVarint32Ptr` from index `p`. -/
def tracedVarint32Ptr : Nat → Nat → UInt32 → UInt32 →
    List Nat × Option (Nat × UInt32)
  | 0, _, _, _ => ([], none)
  | limit + 1, p, shift, result =>
      if shift ≤ 28 then
        if memory p &&& 128 ≠ 0 then
          let (reads, found) := tracedVarint32Ptr limit (p + 1) (shift + 7)
            (result ||| ((memory p &&& 127).toUInt32 <<< shift))
          (p :: reads, found.map fun r => (r.1 + 1, r.2))
        else ([p], some (1, result ||| ((memory p).toUInt32 <<< shift)))
      else ([], none)

/-- `GetVarint32` with bound 5, and the exit when it fails. -/
def tracedVarint32 (p : Nat) (error : ParseError) : Traced (Nat × UInt32) :=
  let (reads, found) := tracedVarint32Ptr memory 5 p 0 0
  ⟨reads, match found with
    | none => .error error
    | some found => .ok found⟩

/-- One test of the order chain. -/
def tracedTest (word : Bytes) : Traced Bool :=
  if word.length < messageSize then do
    let bytes ← tracedBytes memory 0 word.length
    .ok (decide (bytes = word))
  else .ok false

/-- The chain of `memcmp` tests. -/
def tracedOrder : Traced (OrderType × Nat) := do
  let isGet ← tracedTest memory messageSize OrderType.get.string
  if isGet then .ok (.get, 3)
  else do
    let isPut ← tracedTest memory messageSize OrderType.put.string
    if isPut then .ok (.put, 3)
    else do
      let isDelete ← tracedTest memory messageSize OrderType.delete.string
      if isDelete then .ok (.delete, 6) else .fail .orderType

/-- A size and that many bytes at `p`. -/
def tracedString (p : Nat) (sizeError dataError : ParseError) :
    Traced (Bytes × Nat) := do
  let (length, size) ← tracedVarint32 memory p sizeError
  let p := p + length
  if (messageSize : Int) - (p : Int) < (size.toNat : Int) then .fail dataError
  else do
    let bytes ← tracedBytes memory p size.toNat
    .ok (bytes, p + size.toNat)

/-- `parseRequest` on a memory, with its reads. -/
def tracedRequest : Traced Request := do
  let (order, p) ← tracedOrder memory messageSize
  let (key, p) ← tracedString memory messageSize p .keySize .key
  match order with
  | .get => .ok { order, key, value := [] }
  | .put => do
      let (value, _) ← tracedString memory messageSize p .valueSize .value
      .ok { order, key, value }
  | .delete => .ok { order, key, value := tombValue }

end Parser

/-- The reader looks at a byte when all before it had their high bit set. -/
theorem mem_tracedVarint32Ptr (memory : Nat → UInt8) (limit : Nat) {k : Nat}
    (hk : k ≤ 5) (p : Nat) {shift : UInt32} (result : UInt32)
    (hshift : shift = UInt32.ofNat (7 * k)) {i : Nat} :
    i ∈ (tracedVarint32Ptr memory limit p shift result).1 ↔
      p ≤ i ∧ i < p + min limit (5 - k) ∧
        ∀ j, p ≤ j → j < i → 128 ≤ (memory j).toNat := by
  induction limit generalizing k p shift result with
  | zero =>
      simp only [tracedVarint32Ptr, List.not_mem_nil, false_iff]
      omega
  | succ limit ih =>
      have htoNat : shift.toNat = 7 * k := by
        rw [hshift, UInt32.toNat_ofNat', Nat.mod_eq_of_lt (by omega)]
      rw [tracedVarint32Ptr]
      by_cases hlast : k = 5
      · have hstop : ¬ shift ≤ 28 := by
          rw [UInt32.le_iff_toNat_le, htoNat, hlast]
          decide
        rw [if_neg hstop]
        simp only [List.not_mem_nil, false_iff]
        omega
      · have hgo : shift ≤ 28 := by
          rw [UInt32.le_iff_toNat_le, htoNat]
          change 7 * k ≤ 28
          omega
        rw [if_pos hgo]
        by_cases hflag : memory p &&& 128 ≠ 0
        · have hhigh := (Leb128.and_128_ne_zero_iff _).mp hflag
          have hnext : shift + 7 = UInt32.ofNat (7 * (k + 1)) := by
            rw [hshift, Nat.mul_add, UInt32.ofNat_add]
            rfl
          rw [if_pos hflag]
          simp only [List.mem_cons]
          rw [ih (by omega) (p + 1) _ hnext]
          constructor
          · rintro (rfl | ⟨hle, hlt, hall⟩)
            · exact ⟨le_rfl, by omega, fun j _ _ => by omega⟩
            · refine ⟨by omega, by omega, fun j hj hji => ?_⟩
              rcases Nat.eq_or_lt_of_le hj with rfl | hj
              · exact hhigh
              · exact hall j hj hji
          · rintro ⟨hle, hlt, hall⟩
            rcases Nat.eq_or_lt_of_le hle with rfl | hle
            · exact Or.inl rfl
            · exact Or.inr ⟨hle, by omega, fun j hj => hall j (by omega)⟩
        · have hlow : (memory p).toNat < 128 := by
            rw [Leb128.and_128_ne_zero_iff] at hflag
            omega
          rw [if_neg hflag]
          simp only [List.mem_singleton]
          constructor
          · rintro rfl
            exact ⟨le_rfl, by omega, fun j _ _ => by omega⟩
          · rintro ⟨hle, hlt, hall⟩
            rcases Nat.eq_or_lt_of_le hle with rfl | hle
            · rfl
            · have hp := hall p le_rfl hle
              omega

theorem memoryOf_of_lt {bufferRecv : Bytes} (beyond : Nat → UInt8) {i : Nat}
    (hi : i < bufferRecv.length) :
    memoryOf bufferRecv beyond i = bufferRecv[i] := by
  rw [memoryOf, List.getElem?_eq_getElem hi, Option.getD_some]

/-- Reads inside of the buffer see the buffer only. -/
theorem tracedVarint32Ptr_eq (bufferRecv : Bytes) (beyond : Nat → UInt8)
    (limit p : Nat) (shift result : UInt32)
    (hinside : ∀ i ∈ (tracedVarint32Ptr (memoryOf bufferRecv beyond) limit p
      shift result).1, i < bufferRecv.length) :
    (tracedVarint32Ptr (memoryOf bufferRecv beyond) limit p shift result).2 =
      getVarint32Ptr (bufferRecv.drop p) limit shift result := by
  induction limit generalizing p shift result with
  | zero => cases bufferRecv.drop p <;> rfl
  | succ limit ih =>
      rw [tracedVarint32Ptr] at hinside ⊢
      by_cases hgo : shift ≤ 28
      · rw [if_pos hgo] at hinside ⊢
        have hp : p < bufferRecv.length := by
          apply hinside
          split_ifs <;> simp
        have hdrop := List.drop_eq_getElem_cons hp
        rw [memoryOf_of_lt beyond hp] at hinside ⊢
        rw [hdrop, getVarint32Ptr, if_pos hgo]
        by_cases hflag : bufferRecv[p] &&& 128 ≠ 0
        · rw [if_pos hflag] at hinside ⊢
          rw [if_pos hflag]
          simp only
          rw [ih (p + 1) _ _ fun i hi => hinside i (List.mem_cons_of_mem _ hi)]
        · rw [if_neg hflag, if_neg hflag]
      · rw [if_neg hgo]
        cases bufferRecv.drop p with
        | nil => rfl
        | cons byte rest => rw [getVarint32Ptr, if_neg hgo]

/-- A varint at `p` is read inside of the buffer when five bytes are left or one
of those left ends it. -/
theorem inside_tracedVarint32 (bufferRecv : Bytes) (beyond : Nat → UInt8)
    {p : Nat} (hp : p ≤ bufferRecv.length) (error : ParseError) :
    (tracedVarint32 (memoryOf bufferRecv beyond) p error).Inside
        bufferRecv.length ↔
      p + 5 ≤ bufferRecv.length ∨
        ∃ byte ∈ bufferRecv.drop p, byte.toNat < 128 := by
  have hmem {i : Nat} : i ∈ (tracedVarint32 (memoryOf bufferRecv beyond) p
      error).reads ↔ _ :=
    mem_tracedVarint32Ptr (memoryOf bufferRecv beyond) 5 (Nat.zero_le 5) p 0 rfl
  constructor
  · intro hinside
    by_contra hnone
    push Not at hnone
    obtain ⟨hshort, hhigh⟩ := hnone
    refine absurd (hinside bufferRecv.length (hmem.mpr ⟨hp, by omega, ?_⟩))
      (lt_irrefl _)
    intro j hpj hj
    rw [memoryOf_of_lt beyond hj]
    apply hhigh
    rw [List.mem_drop_iff_getElem]
    exact ⟨j - p, by omega, by simp [Nat.add_sub_cancel' hpj]⟩
  · rintro (hroom | ⟨byte, hbyte, hlow⟩) i hi
    · obtain ⟨_, hlt, _⟩ := hmem.mp hi
      omega
    · obtain ⟨j, hj, rfl⟩ := List.mem_drop_iff_getElem.mp hbyte
      obtain ⟨_, _, hall⟩ := hmem.mp hi
      by_contra hout
      have hhigh := hall (p + j) (by omega) (by omega)
      rw [memoryOf_of_lt beyond (show p + j < bufferRecv.length by omega)]
        at hhigh
      omega

theorem result_tracedVarint32 {bufferRecv : Bytes} {beyond : Nat → UInt8}
    {p : Nat} {error : ParseError}
    (hinside : (tracedVarint32 (memoryOf bufferRecv beyond) p error).Inside
      bufferRecv.length) :
    (tracedVarint32 (memoryOf bufferRecv beyond) p error).result =
      match getVarint32 (bufferRecv.drop p) 5 with
      | none => .error error
      | some found => .ok found := by
  simp only [tracedVarint32, getVarint32,
    tracedVarint32Ptr_eq bufferRecv beyond 5 p 0 0 hinside]

/-- Bytes copied from inside of the buffer are the buffer's. -/
theorem map_memoryOf_range' {bufferRecv : Bytes} (beyond : Nat → UInt8)
    {p size : Nat} (hfits : p + size ≤ bufferRecv.length) :
    (List.range' p size).map (memoryOf bufferRecv beyond) =
      (bufferRecv.drop p).take size := by
  apply List.ext_getElem
  · simp
    omega
  · intro i hi _
    simp only [List.length_map, List.length_range'] at hi
    simp only [List.getElem_map, List.getElem_range', List.getElem_take,
      List.getElem_drop, Nat.one_mul]
    exact memoryOf_of_lt beyond (by omega)

section Parse

variable {bufferRecv : Bytes} {beyond : Nat → UInt8} {messageSize : Nat}

/-- Only the varint of a string can be read outside of the buffer. -/
theorem inside_tracedString (hmessage : messageSize ≤ bufferRecv.length)
    (p : Nat) (sizeError dataError : ParseError) :
    (tracedString (memoryOf bufferRecv beyond) messageSize p sizeError
        dataError).Inside bufferRecv.length ↔
      (tracedVarint32 (memoryOf bufferRecv beyond) p sizeError).Inside
        bufferRecv.length := by
  rw [tracedString, Traced.inside_bind]
  refine and_iff_left_of_imp fun _ => ?_
  rintro ⟨length, size⟩ _
  simp only
  split_ifs with hshort
  · exact Traced.inside_fail _ _
  · rw [Traced.inside_bind]
    refine ⟨?_, fun bytes _ => Traced.inside_ok _ _⟩
    intro i hi
    have hrange := List.mem_range'_1.mp hi
    omega

theorem result_tracedString (hmessage : messageSize ≤ bufferRecv.length)
    {p : Nat} {sizeError dataError : ParseError}
    (hinside : (tracedString (memoryOf bufferRecv beyond) messageSize p
      sizeError dataError).Inside bufferRecv.length) :
    (tracedString (memoryOf bufferRecv beyond) messageSize p sizeError
        dataError).result =
      parseString messageSize bufferRecv p sizeError dataError := by
  have hvarint := result_tracedVarint32
    ((inside_tracedString hmessage p sizeError dataError).mp hinside)
  rw [tracedString, Traced.result_bind, hvarint, parseString]
  cases getVarint32 (bufferRecv.drop p) 5 with
  | none => rfl
  | some found =>
      obtain ⟨length, size⟩ := found
      change (if _ then _ else _ : Traced (Bytes × Nat)).result = _
      simp only
      split_ifs with hshort
      · rfl
      · rw [Traced.result_bind]
        change Except.ok ((List.range' (p + length) size.toNat).map _, _) = _
        rw [map_memoryOf_range' beyond (by omega)]

theorem inside_tracedTest (word : Bytes) :
    (tracedTest (memoryOf bufferRecv beyond) messageSize word).Inside
      messageSize := by
  rw [tracedTest]
  split_ifs with hlong
  · rw [Traced.inside_bind]
    refine ⟨?_, fun bytes _ => Traced.inside_ok _ _⟩
    intro i hi
    have hrange := List.mem_range'_1.mp hi
    omega
  · exact Traced.inside_ok _ _

theorem result_tracedTest (hmessage : messageSize ≤ bufferRecv.length)
    (word : Bytes) :
    (tracedTest (memoryOf bufferRecv beyond) messageSize word).result =
      .ok (decide (word.length < messageSize ∧
        bufferRecv.take word.length = word)) := by
  rw [tracedTest]
  split_ifs with hlong
  · rw [Traced.result_bind]
    change Except.ok (decide ((List.range' 0 word.length).map _ = word)) = _
    rw [map_memoryOf_range' beyond (by omega), List.drop_zero]
    simp [hlong]
  · simp [hlong, Traced.ok]

theorem inside_tracedOrder :
    (tracedOrder (memoryOf bufferRecv beyond) messageSize).Inside
      messageSize := by
  rw [tracedOrder, Traced.inside_bind]
  refine ⟨inside_tracedTest _, fun isGet _ => ?_⟩
  split_ifs
  · exact Traced.inside_ok _ _
  · rw [Traced.inside_bind]
    refine ⟨inside_tracedTest _, fun isPut _ => ?_⟩
    split_ifs
    · exact Traced.inside_ok _ _
    · rw [Traced.inside_bind]
      refine ⟨inside_tracedTest _, fun isDelete _ => ?_⟩
      split_ifs
      · exact Traced.inside_ok _ _
      · exact Traced.inside_fail _ _

theorem result_tracedOrder (hmessage : messageSize ≤ bufferRecv.length) :
    (tracedOrder (memoryOf bufferRecv beyond) messageSize).result =
      parseOrder messageSize bufferRecv := by
  have htrue (word : Bytes) (h : word.length < messageSize ∧
      bufferRecv.take word.length = word) :
      (tracedTest (memoryOf bufferRecv beyond) messageSize word).result =
        .ok true := by
    rw [result_tracedTest hmessage, decide_eq_true h]
  have hfalse (word : Bytes) (h : ¬ (word.length < messageSize ∧
      bufferRecv.take word.length = word)) :
      (tracedTest (memoryOf bufferRecv beyond) messageSize word).result =
        .ok false := by
    rw [result_tracedTest hmessage, decide_eq_false h]
  rw [tracedOrder, Traced.result_bind, parseOrder]
  by_cases hget : 3 < messageSize ∧ bufferRecv.take 3 = OrderType.get.string
  · rw [if_pos hget, htrue OrderType.get.string hget]
    rfl
  · rw [if_neg hget, hfalse OrderType.get.string hget]
    change (_ >>= _ : Traced (OrderType × Nat)).result = _
    rw [Traced.result_bind]
    by_cases hput : 3 < messageSize ∧ bufferRecv.take 3 = OrderType.put.string
    · rw [if_pos hput, htrue OrderType.put.string hput]
      rfl
    · rw [if_neg hput, hfalse OrderType.put.string hput]
      change (_ >>= _ : Traced (OrderType × Nat)).result = _
      rw [Traced.result_bind]
      by_cases hdelete : 6 < messageSize ∧
          bufferRecv.take 6 = OrderType.delete.string
      · rw [if_pos hdelete, htrue OrderType.delete.string hdelete]
        rfl
      · rw [if_neg hdelete, hfalse OrderType.delete.string hdelete]
        rfl

/-- The pointer after a parsed string is inside of the message. -/
theorem le_of_parseString {p next : Nat} {sizeError dataError : ParseError}
    {bytes : Bytes} (h : parseString messageSize bufferRecv p sizeError
      dataError = .ok (bytes, next)) : next ≤ messageSize := by
  rw [parseString] at h
  cases hread : getVarint32 (bufferRecv.drop p) 5 with
  | none => simp [hread] at h
  | some found =>
      obtain ⟨length, size⟩ := found
      simp only [hread] at h
      split_ifs at h with hshort
      rw [Except.ok.injEq, Prod.mk.injEq] at h
      omega

theorem parseOrder_le {order : OrderType} {p : Nat}
    (h : parseOrder messageSize bufferRecv = .ok (order, p)) : p ≤ 6 := by
  rw [parseOrder] at h
  split_ifs at h <;> rw [Except.ok.injEq, Prod.mk.injEq] at h <;> omega

/-- A request is read inside of the buffer unless the size of its value is
not. -/
theorem inside_tracedRequest (hmessage : messageSize ≤ bufferRecv.length)
    (hlength : 11 ≤ bufferRecv.length) :
    (tracedRequest (memoryOf bufferRecv beyond) messageSize).Inside
        bufferRecv.length ↔
      ∀ p key q, parseOrder messageSize bufferRecv = .ok (.put, p) →
        parseString messageSize bufferRecv p .keySize .key = .ok (key, q) →
        q + 5 ≤ bufferRecv.length ∨
          ∃ byte ∈ bufferRecv.drop q, byte.toNat < 128 := by
  have horder : (tracedOrder (memoryOf bufferRecv beyond) messageSize).Inside
      bufferRecv.length :=
    fun i hi => (inside_tracedOrder i hi).trans_le hmessage
  have hkey {order : OrderType} {p : Nat}
      (hparse : parseOrder messageSize bufferRecv = .ok (order, p)) :
      (tracedString (memoryOf bufferRecv beyond) messageSize p .keySize
        .key).Inside bufferRecv.length := by
    have hle := parseOrder_le hparse
    rw [inside_tracedString hmessage, inside_tracedVarint32 _ _ (by omega)]
    exact Or.inl (by omega)
  rw [tracedRequest, Traced.inside_bind, and_iff_right horder,
    result_tracedOrder hmessage]
  constructor
  · intro hinside p key q hparse hstring
    have hnext := hinside (.put, p) hparse
    rw [Traced.inside_bind, result_tracedString hmessage (hkey hparse)] at hnext
    have hvalue := (Traced.inside_bind.mp (hnext.2 (key, q) hstring)).1
    have hle := le_of_parseString hstring
    rwa [inside_tracedString hmessage, inside_tracedVarint32 _ _ (by omega)]
      at hvalue
  · rintro hput ⟨order, p⟩ hparse
    rw [Traced.inside_bind, result_tracedString hmessage (hkey hparse)]
    refine ⟨hkey hparse, ?_⟩
    rintro ⟨key, q⟩ hstring
    cases order with
    | get => exact Traced.inside_ok _ _
    | delete => exact Traced.inside_ok _ _
    | put =>
        have hle := le_of_parseString hstring
        rw [Traced.inside_bind]
        refine ⟨?_, fun value _ => Traced.inside_ok _ _⟩
        rw [inside_tracedString hmessage, inside_tracedVarint32 _ _ (by omega)]
        exact hput p key q hparse hstring

/-- Reads inside of the buffer give the parse of the buffer. -/
theorem result_tracedRequest (hmessage : messageSize ≤ bufferRecv.length)
    (hinside : (tracedRequest (memoryOf bufferRecv beyond) messageSize).Inside
      bufferRecv.length) :
    (tracedRequest (memoryOf bufferRecv beyond) messageSize).result =
      parseRequest messageSize bufferRecv := by
  rw [tracedRequest, Traced.inside_bind, result_tracedOrder hmessage] at hinside
  rw [tracedRequest, Traced.result_bind, result_tracedOrder hmessage,
    parseRequest]
  cases hparse : parseOrder messageSize bufferRecv with
  | error error => rfl
  | ok found =>
      obtain ⟨order, p⟩ := found
      have hnext := hinside.2 (order, p) hparse
      rw [Traced.inside_bind] at hnext
      change (_ >>= _ : Traced Request).result =
        (parseString messageSize bufferRecv p .keySize .key >>= _)
      rw [Traced.result_bind, result_tracedString hmessage hnext.1]
      rw [result_tracedString hmessage hnext.1] at hnext
      cases hstring : parseString messageSize bufferRecv p .keySize .key with
      | error error => rfl
      | ok found =>
          obtain ⟨key, q⟩ := found
          have hlast := hnext.2 (key, q) hstring
          cases order with
          | get => rfl
          | delete => rfl
          | put =>
              change (_ >>= _ : Traced Request).result =
                (parseString messageSize bufferRecv q .valueSize .value >>= _)
              rw [Traced.result_bind, result_tracedString hmessage
                (Traced.inside_bind.mp hlast).1]
              rfl

end Parse

/-- A varint that starts behind a complete key and does not end in the buffer is
read past its end. -/
theorem not_inside_of_put {chunk stale bytes key rest : Bytes}
    (hbuffer : chunk.length + stale.length = 1400)
    (hchunk : chunk = OrderType.put.string ++ (bytes ++ rest))
    (hstring : IsString bytes key) (hshort : (rest ++ stale).length < 5)
    (hhigh : ∀ byte ∈ rest ++ stale, 128 ≤ byte.toNat)
    (beyond : Nat → UInt8) :
    ¬ (tracedRequest (memoryOf (chunk ++ stale) beyond) chunk.length).Inside
      1400 := by
  have hlength : (chunk ++ stale).length = 1400 := by
    rw [List.length_append, hbuffer]
  intro hinside
  rw [← hlength, inside_tracedRequest (by omega) (by omega)] at hinside
  obtain ⟨horder, hkey⟩ := parse_key_eq_ok hstring .put hchunk stale
  have hdrop : (chunk ++ stale).drop
      (OrderType.put.string.length + bytes.length) = rest ++ stale := by
    rw [hchunk, ← List.append_assoc, List.append_assoc, ← List.length_append,
      List.drop_left]
  have hsplit := congrArg List.length hdrop
  rw [List.length_drop, hlength] at hsplit
  rcases hinside _ key _ horder hkey with hroom | ⟨byte, hbyte, hlow⟩
  · omega
  · rw [hdrop] at hbyte
    have hbit := hhigh byte hbyte
    omega

/-- The parser reads inside of its 1400 bytes except when a `Put` has a complete
key with fewer than five bytes of the buffer behind it, all of which have their
high bit set: then the varint of the value is read past the end. -/
theorem request_reads_inside_iff {chunk stale : Bytes}
    (hbuffer : chunk.length + stale.length = 1400) (beyond : Nat → UInt8) :
    (tracedRequest (memoryOf (chunk ++ stale) beyond) chunk.length).Inside
        1400 ↔
      ¬ ∃ bytes key rest, chunk = OrderType.put.string ++ (bytes ++ rest) ∧
        IsString bytes key ∧ (rest ++ stale).length < 5 ∧
        ∀ byte ∈ rest ++ stale, 128 ≤ byte.toNat := by
  have hlength : (chunk ++ stale).length = 1400 := by
    rw [List.length_append, hbuffer]
  constructor
  · rintro hinside ⟨bytes, key, rest, hchunk, hstring, hshort, hhigh⟩
    exact not_inside_of_put hbuffer hchunk hstring hshort hhigh beyond hinside
  · intro hsafe
    rw [← hlength, inside_tracedRequest (by omega) (by omega)]
    intro p key q horder hkey
    obtain ⟨body, _, hchunk, rfl⟩ :=
      (parseOrder_eq_ok_iff chunk stale .put p).mp horder
    have hle : OrderType.put.string.length ≤ chunk.length := by
      rw [hchunk, List.length_append]
      omega
    obtain ⟨bytes, rest, hbody, hstring, hq⟩ :=
      (parseString_eq_ok_iff stale hle .keySize .key key q).mp hkey
    rw [hchunk, List.drop_left] at hbody
    have hdrop : (chunk ++ stale).drop q = rest ++ stale := by
      rw [hchunk, hbody, hq, ← List.append_assoc, List.append_assoc,
        ← List.length_append, List.drop_left]
    have hsplit := congrArg List.length hdrop
    rw [List.length_drop, hlength] at hsplit
    by_contra hnone
    push Not at hnone
    rw [hdrop] at hnone
    have hnext := le_of_parseString hkey
    exact hsafe ⟨bytes, key, rest, by rw [hchunk, hbody], hstring, by omega,
      hnone.2⟩

/-- `Put` of one byte under one byte, in a buffer that held zeros. -/
theorem request_reads_inside_iff_put :
    (([80, 117, 116, 1, 97, 1, 98] : Bytes).length +
        (List.replicate 1393 0 : Bytes).length = 1400) ∧
      (tracedRequest (memoryOf ([80, 117, 116, 1, 97, 1, 98] ++
        List.replicate 1393 0) fun _ => 255) 7).Inside 1400 := by
  have hbuffer : ([80, 117, 116, 1, 97, 1, 98] : Bytes).length +
      (List.replicate 1393 0 : Bytes).length = 1400 := by
    rw [List.length_replicate]
    rfl
  refine ⟨hbuffer, (request_reads_inside_iff hbuffer _).mpr ?_⟩
  rintro ⟨bytes, key, rest, _, _, hshort, _⟩
  rw [List.length_append, List.length_replicate] at hshort
  omega

/-- `Put` with a key that fills the buffer and no value. -/
def keyOnly : Bytes :=
  OrderType.put.string ++ (encodeString (List.replicate 1395 97) ++ [])

/-- The size of the missing value is read at index 1400. -/
theorem request_reads_past_buffer :
    keyOnly.length = 1400 ∧
      ¬ (tracedRequest (memoryOf (keyOnly ++ []) fun _ => 0)
        keyOnly.length).Inside 1400 := by
  have hlength : keyOnly.length = 1400 := by
    rw [keyOnly, List.length_append, List.length_append, length_encodeString,
      List.length_replicate]
    decide
  have hkey : (List.replicate 1395 97 : Bytes).length < 2 ^ 32 := by
    rw [List.length_replicate]
    decide
  have hbuffer : keyOnly.length + ([] : Bytes).length = 1400 := by
    rw [hlength]
    rfl
  have hchunk : keyOnly = OrderType.put.string ++
      (encodeString (List.replicate 1395 97) ++ []) := by
    rw [keyOnly]
  refine ⟨hlength, ?_⟩
  exact not_inside_of_put hbuffer hchunk (isString_encodeString hkey)
    (by decide) (by simp) _

end SimpleKV
