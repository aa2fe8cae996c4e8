/-
`FileLogger::Logv` of `util/file_logger.h`: the prefix and the message are
formatted into 500 bytes on the stack, and if these are too few into 30000 on
the heap.  Every store through `p` is recorded with its index.
-/
import SimpleKV.Coding

namespace SimpleKV

/-- What one pass of the loop does: the size of its buffer, the text it formats
(prefix and message), the indices it stores to, and the bytes it gives to
`fwrite`; `none` is `continue`. -/
structure LogPass where
  bufferSize : Nat
  text : Bytes
  stores : List Nat
  written : Option Bytes

namespace FileLogger

/-- Memory after a block is stored from index `p` on. -/
def storeAt (base : Nat → UInt8) (p : Nat) (bytes : Bytes) (i : Nat) : UInt8 :=
  if p ≤ i then bytes[i - p]?.getD (base i) else base i

/-- What `snprintf` and `vsnprintf` store in `size` bytes: the text, cut so that
a NUL fits behind it.  They return the length of the whole text. -/
def formatted (size : Nat) (text : Bytes) : Bytes :=
  if size = 0 then [] else text.take (size - 1) ++ [0]

/-- One pass with a buffer of `bufferSize` bytes that held `base`; `iter` is 0
for the buffer on the stack. -/
def logPass (iter bufferSize : Nat) (head message : Bytes)
    (base : Nat → UInt8) : LogPass :=
  let limit := bufferSize
  -- the prefix
  let block := formatted limit head
  let base := storeAt base 0 block
  let stores := List.range' 0 block.length
  let p := head.length
  -- the message, if there is room
  let block := if p < limit then formatted (limit - p) message else []
  let base := storeAt base p block
  let stores := stores ++ List.range' p block.length
  let p := if p < limit then p + message.length else p
  if limit ≤ p ∧ iter = 0 then
    { bufferSize, text := head ++ message, stores, written := none }
  else
    let p := if limit ≤ p then limit - 1 else p
    if p = 0 ∨ base (p - 1) ≠ 0 then
      let base := storeAt base p [10, 0]
      let stores := stores ++ [p, p + 1]
      let p := p + 2
      { bufferSize, text := head ++ message, stores,
        written := some ((List.range (p - 1)).map base) }
    else
      { bufferSize, text := head ++ message, stores,
        written := some ((List.range (p - 1)).map base) }

/-- `Logv`: the passes it makes.  The clock is read again in the second pass, so
that its prefix may be another. -/
def logv (head head' message : Bytes) (stack heap : Nat → UInt8) :
    List LogPass :=
  let pass := logPass 0 500 head message stack
  if pass.written = none then [pass, logPass 1 30000 head' message heap]
  else [pass]

end FileLogger

/-- Every store is inside of the buffer of its pass. -/
def LogPass.InBounds (pass : LogPass) : Prop :=
  ∀ i ∈ pass.stores, i < pass.bufferSize

/-- The bytes written are the text, cut at most at the end of the large buffer,
and one newline. -/
def LogPass.Writes (pass : LogPass) : Prop :=
  ∃ text, pass.written = some (text ++ [10]) ∧ text <+: pass.text ∧
    (text = pass.text ∨ 30000 ≤ text.length + 2)

namespace FileLogger

theorem storeAt_of_lt {base : Nat → UInt8} {p i : Nat} {bytes : Bytes}
    (hi : i < p) : storeAt base p bytes i = base i := by
  rw [storeAt, if_neg (not_le.mpr hi)]

theorem storeAt_add {base : Nat → UInt8} {p i : Nat} {bytes : Bytes}
    (hi : i < bytes.length) : storeAt base p bytes (p + i) = bytes[i] := by
  rw [storeAt, if_pos (Nat.le_add_right p i), Nat.add_sub_cancel_left,
    List.getElem?_eq_getElem hi, Option.getD_some]

theorem length_formatted {size : Nat} (hsize : 0 < size) (text : Bytes) :
    (formatted size text).length = min text.length (size - 1) + 1 := by
  rw [formatted, if_neg hsize.ne', List.length_append, List.length_take,
    List.length_singleton, Nat.min_comm]

theorem getElem_formatted {size i : Nat} {text : Bytes} (htext : i < text.length)
    (hsize : i + 1 < size) (hi : i < (formatted size text).length) :
    (formatted size text)[i] = text[i] := by
  have hne : size ≠ 0 := by omega
  simp only [formatted, if_neg hne]
  rw [List.getElem_append_left (by rw [List.length_take]; omega),
    List.getElem_take]

/-- The memory after both blocks holds the text as far as it fits. -/
def filled (limit : Nat) (head message : Bytes) (base : Nat → UInt8) :
    Nat → UInt8 :=
  storeAt (storeAt base 0 (formatted limit head)) head.length
    (formatted (limit - head.length) message)

theorem filled_eq {limit i : Nat} {head message : Bytes} (base : Nat → UInt8)
    (hhead : head.length < limit) (hi : i < (head ++ message).length)
    (hlimit : i + 1 < limit) :
    filled limit head message base i = (head ++ message)[i] := by
  rw [filled]
  by_cases hfront : i < head.length
  · have hblock : i < (formatted limit head).length := by
      rw [length_formatted (by omega)]
      omega
    rw [storeAt_of_lt hfront, List.getElem_append_left hfront]
    have hstore : storeAt base 0 (formatted limit head) (0 + i) = _ :=
      storeAt_add hblock
    rw [Nat.zero_add] at hstore
    rw [hstore, getElem_formatted hfront hlimit]
  · obtain ⟨j, rfl⟩ := Nat.exists_eq_add_of_le (not_lt.mp hfront)
    rw [List.length_append] at hi
    have hblock : j < (formatted (limit - head.length) message).length := by
      rw [length_formatted (by omega)]
      omega
    rw [storeAt_add hblock, getElem_formatted (by omega) (by omega),
      List.getElem_append_right (Nat.le_add_right _ _)]
    simp only [Nat.add_sub_cancel_left]

/-- Reading back the first `n` bytes. -/
theorem map_range_filled {limit n : Nat} {head message : Bytes}
    (base : Nat → UInt8) (hhead : head.length < limit)
    (hn : n ≤ (head ++ message).length) (hlimit : n + 1 ≤ limit) :
    (List.range n).map (filled limit head message base) =
      (head ++ message).take n := by
  apply List.ext_getElem
  · rw [List.length_map, List.length_range, List.length_take]
    omega
  · intro i hi _
    rw [List.length_map, List.length_range] at hi
    rw [List.getElem_map, List.getElem_range, List.getElem_take]
    exact filled_eq base hhead (by omega) (by omega)

/-- The same with the two bytes stored behind them. -/
theorem map_range_terminated {limit n : Nat} {head message : Bytes}
    (base : Nat → UInt8) (hhead : head.length < limit)
    (hn : n ≤ (head ++ message).length) (hlimit : n + 1 ≤ limit) :
    (List.range (n + 1)).map
        (storeAt (filled limit head message base) n [10, 0]) =
      (head ++ message).take n ++ [10] := by
  rw [List.range_succ, List.map_append, List.map_singleton]
  congr 1
  · rw [← map_range_filled base hhead hn hlimit]
    apply List.map_congr_left
    intro i hi
    exact storeAt_of_lt (List.mem_range.mp hi)
  · exact congrArg (fun byte => [byte])
      (storeAt_add (i := 0) (show 0 < [10, 0].length by decide))

section Pass

variable {iter bufferSize : Nat} {head message : Bytes} {base : Nat → UInt8}

/-- The indices the two formatting calls store to. -/
def blocks (limit : Nat) (head message : Bytes) : List Nat :=
  List.range' 0 (formatted limit head).length ++
    List.range' head.length (formatted (limit - head.length) message).length

theorem lt_of_mem_blocks {limit i : Nat} (hhead : head.length < limit)
    (hi : i ∈ blocks limit head message) : i < limit := by
  rcases List.mem_append.mp hi with hi | hi
  · have hrange := List.mem_range'_1.mp hi
    rw [length_formatted (by omega)] at hrange
    omega
  · have hrange := List.mem_range'_1.mp hi
    rw [length_formatted (by omega)] at hrange
    omega

/-- A pass that ends with `continue`. -/
def givenUp (bufferSize : Nat) (head message : Bytes) : LogPass where
  bufferSize
  text := head ++ message
  stores := blocks bufferSize head message
  written := none

/-- The stack buffer is given up when the text does not fit. -/
theorem logPass_continue (hhead : head.length < bufferSize)
    (hlong : bufferSize ≤ (head ++ message).length) :
    logPass 0 bufferSize head message base =
      givenUp bufferSize head message := by
  rw [List.length_append] at hlong
  simp only [logPass, if_pos hhead, givenUp, blocks]
  rw [if_pos ⟨hlong, trivial⟩]

/-- Else `p` stands at the end of the text, or on the last byte of the
buffer. -/
theorem logPass_eq (hhead : head.length < bufferSize)
    (hdone : ¬ (bufferSize ≤ (head ++ message).length ∧ iter = 0)) {n : Nat}
    (hn : n = if bufferSize ≤ (head ++ message).length then bufferSize - 1
      else (head ++ message).length) :
    logPass iter bufferSize head message base =
      if n = 0 ∨ filled bufferSize head message base (n - 1) ≠ 0 then
        { bufferSize, text := head ++ message,
          stores := blocks bufferSize head message ++ [n, n + 1]
          written := some ((head ++ message).take n ++ [10]) }
      else
        { bufferSize, text := head ++ message,
          stores := blocks bufferSize head message
          written := some ((head ++ message).take (n - 1)) } := by
  have hle : n ≤ (head ++ message).length ∧ n + 1 ≤ bufferSize := by
    rw [hn]
    split_ifs <;> omega
  rw [List.length_append] at hdone hn
  simp only [logPass, if_pos hhead]
  rw [if_neg hdone, ← hn]
  change (if n = 0 ∨ filled bufferSize head message base (n - 1) ≠ 0 then _
    else _) = _
  split_ifs with hlast
  · rw [← map_range_terminated base hhead hle.1 hle.2]
    rfl
  · rw [← map_range_filled base hhead (show n - 1 ≤ _ by omega) (by omega)]
    rfl

/-- A pass that writes does all well exactly when the text leaves two bytes of
the buffer free and does not end with a NUL. -/
theorem logPass_well_iff (hhead : head.length < bufferSize)
    (hsize : bufferSize ≤ 30000)
    (hdone : ¬ (bufferSize ≤ (head ++ message).length ∧ iter = 0)) :
    (logPass iter bufferSize head message base).InBounds ∧
        (logPass iter bufferSize head message base).Writes ↔
      (head ++ message).length + 1 < bufferSize ∧
        (head ++ message).getLast? ≠ some 0 := by
  generalize hn : (if bufferSize ≤ (head ++ message).length then bufferSize - 1
    else (head ++ message).length) = n
  have hle : n ≤ (head ++ message).length ∧ n + 1 ≤ bufferSize := by
    rw [← hn]
    split_ifs <;> omega
  rw [logPass_eq hhead hdone hn.symm]
  by_cases hlast : n = 0 ∨ filled bufferSize head message base (n - 1) ≠ 0
  · rw [if_pos hlast]
    constructor
    · rintro ⟨hbounds, _⟩
      have hstore : n + 1 < bufferSize := hbounds (n + 1) (by simp)
      have hfits : (head ++ message).length + 1 < bufferSize := by
        split_ifs at hn <;> omega
      refine ⟨hfits, ?_⟩
      rw [if_neg (by omega)] at hn
      rcases hlast with hzero | hlast
      · rw [hzero, List.length_eq_zero_iff] at hn
        simp [hn]
      · intro hnul
        apply hlast
        rw [List.getLast?_eq_getElem?] at hnul
        obtain ⟨hlt, hnul⟩ := List.getElem?_eq_some_iff.mp hnul
        rw [filled_eq base hhead (by omega) (by omega)]
        simpa only [hn] using hnul
    · rintro ⟨hfits, _⟩
      rw [if_neg (by omega)] at hn
      constructor
      · intro i hi
        rcases List.mem_append.mp hi with hi | hi
        · exact lt_of_mem_blocks hhead hi
        · simp only [List.mem_cons, List.not_mem_nil, or_false] at hi
          change i < bufferSize
          omega
      · refine ⟨(head ++ message).take n, rfl, List.take_prefix _ _,
          Or.inl ?_⟩
        rw [← hn, List.take_length]
  · rw [if_neg hlast]
    push Not at hlast
    obtain ⟨hpos, hnul⟩ := hlast
    rw [filled_eq base hhead (by omega) (by omega)] at hnul
    constructor
    · rintro ⟨_, text, hwritten, _, hwhole⟩
      have hlength := congrArg List.length (Option.some.inj hwritten)
      rw [List.length_append, List.length_singleton, List.length_take]
        at hlength
      rcases hwhole with rfl | hend
      · change _ = (head ++ message).length + 1 at hlength
        omega
      · omega
    · rintro ⟨hfits, hend⟩
      rw [if_neg (by omega)] at hn
      refine absurd ?_ hend
      rw [List.getLast?_eq_getElem?, List.getElem?_eq_some_iff]
      refine ⟨by omega, ?_⟩
      simpa only [hn] using hnul

end Pass

end FileLogger

/-- `Logv` keeps to its buffers and writes its line. -/
def LogsWell (passes : List LogPass) : Prop :=
  (∀ pass ∈ passes, pass.InBounds) ∧ ∃ pass ∈ passes, pass.Writes

/-- A text that fits the stack buffer is written in the first pass. -/
theorem FileLogger.logv_of_lt {head head' message : Bytes}
    {stack heap : Nat → UInt8} (hshort : (head ++ message).length < 500) :
    logv head head' message stack heap =
      [logPass 0 500 head message stack] := by
  have hhead : head.length < 500 := by
    rw [List.length_append] at hshort
    omega
  rw [logv, if_neg]
  rw [logPass_eq hhead (fun h => not_le.mpr hshort h.1) rfl]
  split_ifs <;> simp

/-- Another is left to the second. -/
theorem FileLogger.logv_of_le {head head' message : Bytes}
    {stack heap : Nat → UInt8} (hhead : head.length < 500)
    (hlong : 500 ≤ (head ++ message).length) :
    logv head head' message stack heap =
      [givenUp 500 head message, logPass 1 30000 head' message heap] := by
  rw [logv, logPass_continue hhead hlong]
  rfl

/-- `Logv` keeps to its buffers and writes prefix, message and one newline
exactly when the text leaves two bytes of the buffer it ends up in free, and
does not end with a NUL. -/
theorem logv_well_iff {head head' : Bytes} (hhead : head.length < 500)
    (hhead' : head'.length < 500) (message : Bytes)
    (stack heap : Nat → UInt8) :
    LogsWell (FileLogger.logv head head' message stack heap) ↔
      ((head ++ message).length < 500 → (head ++ message).length ≠ 499 ∧
        (head ++ message).getLast? ≠ some 0) ∧
      (500 ≤ (head ++ message).length →
        (head' ++ message).length < 29999 ∧
          (head' ++ message).getLast? ≠ some 0) := by
  by_cases hshort : (head ++ message).length < 500
  · have hsingle (pass : LogPass) :
        LogsWell [pass] ↔ pass.InBounds ∧ pass.Writes := by
      simp [LogsWell]
    rw [FileLogger.logv_of_lt hshort, hsingle, FileLogger.logPass_well_iff
      hhead (by decide) fun h => not_le.mpr hshort h.1]
    constructor
    · rintro ⟨hroom, hend⟩
      exact ⟨fun _ => ⟨by omega, hend⟩, fun hlong => by omega⟩
    · rintro ⟨hfits, _⟩
      obtain ⟨hne, hend⟩ := hfits hshort
      exact ⟨by omega, hend⟩
  · have hlong : 500 ≤ (head ++ message).length := not_lt.mp hshort
    have hwell : (FileLogger.logPass 1 30000 head' message heap).InBounds ∧
        (FileLogger.logPass 1 30000 head' message heap).Writes ↔ _ :=
      FileLogger.logPass_well_iff (by omega) le_rfl (by omega)
    have hfirst : (FileLogger.givenUp 500 head message).InBounds :=
      fun i hi => FileLogger.lt_of_mem_blocks hhead hi
    have hnone : ¬ (FileLogger.givenUp 500 head message).Writes := by
      rintro ⟨text, hwritten, _⟩
      cases hwritten
    rw [FileLogger.logv_of_le hhead hlong]
    constructor
    · rintro ⟨hbounds, pass, hpass, hwrites⟩
      simp only [List.mem_cons, List.not_mem_nil, or_false] at hpass hbounds
      rcases hpass with rfl | rfl
      · exact absurd hwrites hnone
      · obtain ⟨hroom, hend⟩ := hwell.mp ⟨hbounds _ (Or.inr rfl), hwrites⟩
        exact ⟨fun h => by omega, fun _ => ⟨by omega, hend⟩⟩
    · rintro ⟨_, hfits⟩
      obtain ⟨hlt, hend⟩ := hfits hlong
      obtain ⟨hbounds, hwrites⟩ := hwell.mpr ⟨by omega, hend⟩
      refine ⟨fun pass hpass => ?_, _, by simp, hwrites⟩
      simp only [List.mem_cons, List.not_mem_nil, or_false] at hpass
      rcases hpass with rfl | rfl
      · exact hfirst
      · exact hbounds

/-- A line of three bytes, and one of 502 bytes that takes the second pass. -/
theorem logv_well_iff_both_passes :
    (([91, 93] : Bytes).length < 500) ∧
      LogsWell (FileLogger.logv [91, 93] [91, 93] [104] (fun _ => 0)
        fun _ => 0) ∧
      (FileLogger.logv [91, 93] [91] (List.replicate 500 104) (fun _ => 0)
        fun _ => 0).length = 2 ∧
      LogsWell (FileLogger.logv [91, 93] [91] (List.replicate 500 104)
        (fun _ => 0) fun _ => 0) := by
  refine ⟨by decide, (logv_well_iff (by decide) (by decide) [104] _ _).mpr ?_,
    ?_, (logv_well_iff (by decide) (by decide) (List.replicate 500 104) _
      _).mpr ?_⟩
  · decide
  · rw [FileLogger.logv_of_le (by decide) (by decide +kernel)]
    rfl
  · decide +kernel

/-- A text of 499 bytes fits the stack buffer with its NUL, and the NUL behind
its newline is stored at index 500. -/
theorem logv_stores_past_stack :
    ∃ pass, FileLogger.logv [91] [91] (List.replicate 498 97) (fun _ => 0)
        (fun _ => 0) = [pass] ∧ pass.bufferSize = 500 ∧ 500 ∈ pass.stores ∧
      ¬ LogsWell (FileLogger.logv [91] [91] (List.replicate 498 97)
        (fun _ => 0) fun _ => 0) := by
  have hlogv : FileLogger.logv [91] [91] (List.replicate 498 97) (fun _ => 0)
      (fun _ => 0) = [FileLogger.logPass 0 500 [91] (List.replicate 498 97)
        fun _ => 0] :=
    FileLogger.logv_of_lt (by decide +kernel)
  have hpass : (FileLogger.logPass 0 500 [91] (List.replicate 498 97)
      fun _ => 0).bufferSize = 500 ∧
        500 ∈ (FileLogger.logPass 0 500 [91] (List.replicate 498 97)
          fun _ => 0).stores := by
    decide +kernel
  refine ⟨_, hlogv, hpass.1, hpass.2, ?_⟩
  rw [hlogv]
  intro hwell
  have hlt := hwell.1 _ List.mem_cons_self 500 hpass.2
  rw [hpass.1] at hlt
  exact lt_irrefl 500 hlt

end SimpleKV
