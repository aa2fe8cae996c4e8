/-
`NetworkTask::Run` of `db/server_main.cpp` and the encoder of its client.  The
parser walks one received chunk with a pointer into a buffer whose tail still
holds older bytes; it accepts exactly the chunks that begin with a complete
request.
-/
import SimpleKV.DataBase
import SimpleKV.Varint

namespace SimpleKV

/-- `OrderTypeString`. -/
def OrderType.string : OrderType → Bytes
  | .put => [80, 117, 116]
  | .delete => [68, 101, 108, 101, 116, 101]
  | .get => [71, 101, 116]

/-- What a parsed chunk asks for: the locals `order_type`, `key` and `value`.
A `Get` has no value. -/
structure Request where
  order : OrderType
  key : Bytes
  value : Bytes
deriving DecidableEq

/-- Where the parser gives up. -/
inductive ParseError where
  | orderType
  | keySize
  | key
  | valueSize
  | value
deriving DecidableEq

/-- What is logged before `exit(1)`. -/
def ParseError.text : ParseError → String
  | .orderType => "Run parse order type failed"
  | .keySize => "Run parse key size failed"
  | .key => "Run packet not complete for key"
  | .valueSize => "Run parse value size failed"
  | .value => "Run packet not complete for value"

/-- The chain of `memcmp` tests, with the bytes it moves `p` by. -/
def parseOrder (messageSize : Nat) (bufferRecv : Bytes) :
    Except ParseError (OrderType × Nat) :=
  if 3 < messageSize ∧ bufferRecv.take 3 = OrderType.get.string then
    .ok (.get, 3)
  else if 3 < messageSize ∧ bufferRecv.take 3 = OrderType.put.string then
    .ok (.put, 3)
  else if 6 < messageSize ∧ bufferRecv.take 6 = OrderType.delete.string then
    .ok (.delete, 6)
  else .error .orderType

/-- A size and that many bytes at `p`: the key, and again the value.  The
varint is read with a fixed bound of 5, past the message if need be; only then
is what is left compared with the size, as signed 64-bit numbers. -/
def parseString (messageSize : Nat) (bufferRecv : Bytes) (p : Nat)
    (sizeError dataError : ParseError) : Except ParseError (Bytes × Nat) :=
  match getVarint32 (bufferRecv.drop p) 5 with
  | none => .error sizeError
  | some (length, size) =>
      let p := p + length
      if (messageSize : Int) - (p : Int) < (size.toNat : Int) then
        .error dataError
      else .ok ((bufferRecv.drop p).take size.toNat, p + size.toNat)

/-- The body of the loop of `NetworkTask::Run` up to the database call. -/
def parseRequest (messageSize : Nat) (bufferRecv : Bytes) :
    Except ParseError Request := do
  let (order, p) ← parseOrder messageSize bufferRecv
  let (key, p) ← parseString messageSize bufferRecv p .keySize .key
  match order with
  | .get => .ok { order, key, value := [] }
  | .put => do
      let (value, _) ← parseString messageSize bufferRecv p .valueSize .value
      .ok { order, key, value }
  | .delete => .ok { order, key, value := tombValue }

/-- The fields of a `ClientTask`.  The value of a `Get` is what the benchmark
expects back. -/
structure ClientTask where
  order : OrderType
  key : Bytes
  value : Bytes

namespace ClientTask

/-- The local `encoded_len` of `ClientTask::Run`. -/
def encodedLen (task : ClientTask) : Nat :=
  task.order.string.length +
    (varintLength (UInt64.ofNat task.key.length) + task.key.length) +
    (if task.order = .put then
      varintLength (UInt64.ofNat task.value.length) + task.value.length
    else 0)

/-- What `ClientTask::Run` sends.  `none` is its failed assertion. -/
def encode (task : ClientTask) : Option Bytes :=
  let buf := task.order.string ++ (encodeString task.key ++
    (if task.order = .put then encodeString task.value else []))
  if buf.length = task.encodedLen then some buf else none

/-- What the server is asked for: only a `Put` sends its value. -/
def request (task : ClientTask) : Request where
  order := task.order
  key := task.key
  value :=
    match task.order with
    | .put => task.value
    | .delete => tombValue
    | .get => []

end ClientTask

/-- A size and that many bytes. -/
def IsString (bytes s : Bytes) : Prop :=
  ∃ head size, IsVarint head size ∧ size.toNat = s.length ∧ bytes = head ++ s

/-- The bytes of one complete request. -/
inductive IsRequest : Bytes → Request → Prop where
  | get {bytes key : Bytes} : IsString bytes key →
      IsRequest (OrderType.get.string ++ bytes) ⟨.get, key, []⟩
  | delete {bytes key : Bytes} : IsString bytes key →
      IsRequest (OrderType.delete.string ++ bytes) ⟨.delete, key, tombValue⟩
  | put {bytes rest key value : Bytes} : IsString bytes key →
      IsString rest value →
      IsRequest (OrderType.put.string ++ (bytes ++ rest)) ⟨.put, key, value⟩

/-- Reading a string inside a message.  A varint that runs into the stale bytes
is longer than what is left, so the second test rejects it. -/
theorem parseString_eq_ok_iff {chunk : Bytes} (stale : Bytes) {p : Nat}
    (hp : p ≤ chunk.length) (sizeError dataError : ParseError) (s : Bytes)
    (next : Nat) :
    parseString chunk.length (chunk ++ stale) p sizeError dataError =
        .ok (s, next) ↔
      ∃ bytes rest, chunk.drop p = bytes ++ rest ∧ IsString bytes s ∧
        next = p + bytes.length := by
  have hdrop : (chunk ++ stale).drop p = chunk.drop p ++ stale :=
    List.drop_append_of_le_length hp
  have hlength : (chunk.drop p).length = chunk.length - p := List.length_drop
  constructor
  · intro hparse
    unfold parseString at hparse
    cases hread : getVarint32 ((chunk ++ stale).drop p) 5 with
    | none => simp [hread] at hparse
    | some result =>
        obtain ⟨length, size⟩ := result
        simp only [hread] at hparse
        split_ifs at hparse with hshort
        simp only [Except.ok.injEq, Prod.mk.injEq] at hparse
        obtain ⟨hs, hnext⟩ := hparse
        obtain ⟨head, tail, heq, hvarint, rfl⟩ :=
          (getVarint32_eq_some_iff _ _ _).mp hread
        have hfits : head.length + size.toNat ≤ (chunk.drop p).length := by
          omega
        rw [hdrop] at heq
        have hhead : head <+: chunk.drop p := by
          have hwhole : head <+: chunk.drop p ++ stale := by
            rw [heq]
            exact List.prefix_append head tail
          exact List.prefix_of_prefix_length_le hwhole
            (List.prefix_append _ _) (by omega)
        obtain ⟨more, hmore⟩ := hhead
        have hcut : ((chunk ++ stale).drop (p + head.length)).take size.toNat =
            more.take size.toNat := by
          rw [← List.drop_drop, hdrop, ← hmore, List.append_assoc,
            List.drop_left, List.take_append_of_le_length]
          rw [← hmore, List.length_append] at hfits
          omega
        have hsize : size.toNat = s.length := by
          rw [← hmore, List.length_append] at hfits
          rw [← hs, hcut, List.length_take]
          omega
        refine ⟨head ++ s, more.drop size.toNat, ?_, ⟨head, size, hvarint, hsize,
          rfl⟩, ?_⟩
        · rw [← hs, hcut, List.append_assoc, List.take_append_drop, hmore]
        · rw [List.length_append, ← hsize, ← hnext, Nat.add_assoc]
  · rintro ⟨_, rest, heq, ⟨head, size, hvarint, hsize, rfl⟩, rfl⟩
    have hread : getVarint32 ((chunk ++ stale).drop p) 5 =
        some (head.length, size) := by
      rw [getVarint32_eq_some_iff]
      exact ⟨head, s ++ rest ++ stale, by rw [hdrop, heq]; simp, hvarint, rfl⟩
    have hdata : (chunk ++ stale).drop (p + head.length) =
        s ++ (rest ++ stale) := by
      rw [← List.drop_drop, hdrop, heq]
      simp
    have hfits : ¬ (chunk.length : Int) - ((p + head.length : Nat) : Int) <
        (s.length : Int) := by
      rw [heq] at hlength
      simp only [List.length_append] at hlength
      omega
    simp only [parseString, hread, if_neg hfits, hdata, hsize, List.take_left,
      List.length_append, Nat.add_assoc]

/-- One `memcmp` test of the order chain. -/
theorem take_eq_string_iff (order : OrderType) (chunk stale : Bytes) :
    (order.string.length < chunk.length ∧
        (chunk ++ stale).take order.string.length = order.string) ↔
      ∃ rest, rest ≠ [] ∧ chunk = order.string ++ rest := by
  constructor
  · rintro ⟨hlt, htake⟩
    rw [List.take_append_of_le_length hlt.le] at htake
    refine ⟨chunk.drop order.string.length, ?_, ?_⟩
    · rw [ne_eq, List.drop_eq_nil_iff, not_le]
      exact hlt
    · nth_rewrite 1 [← htake]
      rw [List.take_append_drop]
  · rintro ⟨rest, hne, rfl⟩
    have hpos := List.length_pos_iff.mpr hne
    refine ⟨by rw [List.length_append]; omega, ?_⟩
    rw [List.append_assoc, List.take_left]

theorem string_append_inj {order order' : OrderType} {rest rest' : Bytes}
    (heq : order.string ++ rest = order'.string ++ rest') :
    order = order' ∧ rest = rest' := by
  cases order <;> cases order' <;> simp_all [OrderType.string]

theorem parseOrder_eq_ok_iff (chunk stale : Bytes) (order : OrderType)
    (p : Nat) :
    parseOrder chunk.length (chunk ++ stale) = .ok (order, p) ↔
      ∃ rest, rest ≠ [] ∧ chunk = order.string ++ rest ∧
        p = order.string.length := by
  have hget : (3 < chunk.length ∧ (chunk ++ stale).take 3 = _) ↔ _ :=
    take_eq_string_iff .get chunk stale
  have hput : (3 < chunk.length ∧ (chunk ++ stale).take 3 = _) ↔ _ :=
    take_eq_string_iff .put chunk stale
  have hdelete : (6 < chunk.length ∧ (chunk ++ stale).take 6 = _) ↔ _ :=
    take_eq_string_iff .delete chunk stale
  constructor
  · intro hparse
    unfold parseOrder at hparse
    split_ifs at hparse with h1 h2 h3 <;>
      simp only [Except.ok.injEq, Prod.mk.injEq] at hparse <;>
      obtain ⟨rfl, rfl⟩ := hparse
    · obtain ⟨rest, hne, heq⟩ := hget.mp h1
      exact ⟨rest, hne, heq, rfl⟩
    · obtain ⟨rest, hne, heq⟩ := hput.mp h2
      exact ⟨rest, hne, heq, rfl⟩
    · obtain ⟨rest, hne, heq⟩ := hdelete.mp h3
      exact ⟨rest, hne, heq, rfl⟩
  · rintro ⟨rest, hne, heq, rfl⟩
    -- no order word is a prefix of another, so at most one test succeeds
    have hother {other : OrderType} (hdiff : other ≠ order) :
        ¬ ∃ rest, rest ≠ [] ∧ chunk = other.string ++ rest := by
      rintro ⟨rest', _, heq'⟩
      exact hdiff (string_append_inj (heq'.symm.trans heq)).1
    unfold parseOrder
    cases order with
    | get => rw [if_pos (hget.mpr ⟨rest, hne, heq⟩)]; rfl
    | put =>
        rw [if_neg (fun h => hother (by decide) (hget.mp h)),
          if_pos (hput.mpr ⟨rest, hne, heq⟩)]
        rfl
    | delete =>
        rw [if_neg (fun h => hother (by decide) (hget.mp h)),
          if_neg (fun h => hother (by decide) (hput.mp h)),
          if_pos (hdelete.mpr ⟨rest, hne, heq⟩)]
        rfl

theorem IsString.ne_nil {bytes s : Bytes} (h : IsString bytes s) :
    bytes ≠ [] := by
  obtain ⟨head, size, hvarint, _, rfl⟩ := h
  obtain ⟨groups, last, rfl, _⟩ := hvarint.shape
  simp

/-- The order word and the key of a chunk that holds both. -/
theorem parse_key_eq_ok {bytes key : Bytes} (hstring : IsString bytes key)
    (order : OrderType) {chunk rest : Bytes}
    (hchunk : chunk = order.string ++ (bytes ++ rest)) (stale : Bytes) :
    parseOrder chunk.length (chunk ++ stale) =
        .ok (order, order.string.length) ∧
      parseString chunk.length (chunk ++ stale) order.string.length .keySize
        .key = .ok (key, order.string.length + bytes.length) := by
  constructor
  · rw [parseOrder_eq_ok_iff]
    refine ⟨bytes ++ rest, ?_, hchunk, rfl⟩
    simp [hstring.ne_nil]
  · rw [parseString_eq_ok_iff stale (by rw [hchunk, List.length_append]; omega)]
    exact ⟨bytes, rest, by rw [hchunk, List.drop_left], hstring, rfl⟩

/-- The parser accepts a chunk exactly when it begins with a complete request,
and then takes that request. -/
theorem parseRequest_eq_ok_iff (chunk stale : Bytes) (request : Request) :
    parseRequest chunk.length (chunk ++ stale) = .ok request ↔
      ∃ bytes rest, chunk = bytes ++ rest ∧ IsRequest bytes request := by
  constructor
  · intro hparse
    unfold parseRequest at hparse
    cases horder : parseOrder chunk.length (chunk ++ stale) with
    | error error => simp [horder, bind, Except.bind] at hparse
    | ok result =>
        obtain ⟨order, p⟩ := result
        obtain ⟨body, hbody, hchunk, hp⟩ :=
          (parseOrder_eq_ok_iff chunk stale order p).mp horder
        have hle : p ≤ chunk.length := by
          rw [hchunk, hp, List.length_append]
          omega
        have hdrop : chunk.drop p = body := by
          rw [hchunk, hp, List.drop_left]
        cases hkey : parseString chunk.length (chunk ++ stale) p .keySize
            .key with
        | error error => simp [horder, hkey, bind, Except.bind] at hparse
        | ok result =>
            obtain ⟨key, q⟩ := result
            obtain ⟨bytes, rest, hsplit, hstring, hq⟩ :=
              (parseString_eq_ok_iff stale hle .keySize .key key q).mp hkey
            rw [hdrop] at hsplit
            cases order with
            | get =>
                simp only [horder, hkey, bind, Except.bind,
                  Except.ok.injEq] at hparse
                subst hparse
                exact ⟨_, rest, by rw [hchunk, hsplit, List.append_assoc],
                  .get hstring⟩
            | delete =>
                simp only [horder, hkey, bind, Except.bind,
                  Except.ok.injEq] at hparse
                subst hparse
                exact ⟨_, rest, by rw [hchunk, hsplit, List.append_assoc],
                  .delete hstring⟩
            | put =>
                have hle' : q ≤ chunk.length := by
                  rw [hq, hp, hchunk, hsplit]
                  simp only [List.length_append]
                  omega
                have hdrop' : chunk.drop q = rest := by
                  rw [hq, ← List.drop_drop, hdrop, hsplit, List.drop_left]
                cases hvalue : parseString chunk.length (chunk ++ stale) q
                    .valueSize .value with
                | error error =>
                    simp [horder, hkey, hvalue, bind, Except.bind] at hparse
                | ok result =>
                    obtain ⟨value, last⟩ := result
                    obtain ⟨bytes', rest', hsplit', hstring', _⟩ :=
                      (parseString_eq_ok_iff stale hle' .valueSize .value value
                        last).mp hvalue
                    simp only [horder, hkey, hvalue, bind, Except.bind,
                      Except.ok.injEq] at hparse
                    subst hparse
                    rw [hdrop'] at hsplit'
                    exact ⟨_, rest', by
                      rw [hchunk, hsplit, hsplit']
                      simp only [List.append_assoc], .put hstring hstring'⟩
  · rintro ⟨_, rest, hchunk, hrequest⟩
    cases hrequest with
    | get hstring =>
        rw [List.append_assoc] at hchunk
        obtain ⟨horder, hkey⟩ := parse_key_eq_ok hstring .get hchunk stale
        simp [parseRequest, horder, hkey, bind, Except.bind]
    | delete hstring =>
        rw [List.append_assoc] at hchunk
        obtain ⟨horder, hkey⟩ := parse_key_eq_ok hstring .delete hchunk stale
        simp [parseRequest, horder, hkey, bind, Except.bind]
    | @put bytes more key value hstring hstring' =>
        simp only [List.append_assoc] at hchunk
        obtain ⟨horder, hkey⟩ := parse_key_eq_ok hstring .put hchunk stale
        have hvalue : parseString chunk.length (chunk ++ stale)
            (OrderType.put.string.length + bytes.length) .valueSize .value =
            .ok (value, OrderType.put.string.length + bytes.length +
              more.length) := by
          rw [parseString_eq_ok_iff stale
            (by rw [hchunk]; simp only [List.length_append]; omega)]
          refine ⟨more, rest, ?_, hstring', rfl⟩
          rw [hchunk, ← List.drop_drop, List.drop_left, List.drop_left]
        simp [parseRequest, horder, hkey, hvalue, bind, Except.bind]

theorem isString_encodeString {s : Bytes} (hs : s.length < 2 ^ 32) :
    IsString (encodeString s) s :=
  ⟨_, _, isVarint_encodeVarint32 _, toNat_ofNat_length hs, rfl⟩

theorem IsString.length_encodeString_le {bytes s : Bytes}
    (h : IsString bytes s) : (encodeString s).length ≤ bytes.length := by
  obtain ⟨head, size, hvarint, hsize, rfl⟩ := h
  have heq : UInt32.ofNat s.length = size := by
    rw [← hsize, UInt32.ofNat_toNat]
  rw [length_encodeString, heq, List.length_append]
  have hle := hvarint.length_encodeVarint32_le
  omega

namespace ClientTask

theorem encode_eq_some {task : ClientTask} {bytes : Bytes}
    (hencode : task.encode = some bytes) :
    bytes = task.order.string ++ (encodeString task.key ++
      (if task.order = .put then encodeString task.value else [])) := by
  simp only [encode, Option.ite_none_right_eq_some, Option.some.injEq] at hencode
  exact hencode.2.symm

theorem length_encodeString_eq {s : Bytes} (hs : s.length < 2 ^ 32) :
    (encodeString s).length =
      varintLength (UInt64.ofNat s.length) + s.length := by
  have hcast : UInt64.ofNat s.length = (UInt32.ofNat s.length).toUInt64 := by
    apply UInt64.toNat_inj.mp
    rw [UInt32.toNat_toUInt64, toNat_ofNat_length hs, UInt64.toNat_ofNat']
    exact Nat.mod_eq_of_lt (by omega)
  rw [length_encodeString, hcast, varintLength_toUInt64]

/-- The assertion of `ClientTask::Run` holds for a message of a `uint32_t`
size. -/
theorem exists_encode {task : ClientTask} (hlen : task.encodedLen < 2 ^ 32) :
    ∃ bytes, task.encode = some bytes ∧ bytes.length = task.encodedLen := by
  have hkey : task.key.length < 2 ^ 32 := by
    unfold encodedLen at hlen
    omega
  have hlength : (task.order.string ++ (encodeString task.key ++
      (if task.order = .put then encodeString task.value else []))).length =
      task.encodedLen := by
    simp only [List.length_append, encodedLen, length_encodeString_eq hkey]
    unfold encodedLen at hlen
    split_ifs at hlen ⊢ with hput
    · rw [length_encodeString_eq (by omega)]
      omega
    · rfl
  exact ⟨_, if_pos hlength, hlength⟩

/-- An encoded task is a complete request. -/
theorem isRequest {task : ClientTask} {bytes : Bytes}
    (hencode : task.encode = some bytes) (hlength : bytes.length < 2 ^ 32) :
    IsRequest bytes task.request := by
  obtain ⟨order, key, value⟩ := task
  have hbytes := encode_eq_some hencode
  simp only at hbytes
  have hkey : key.length < 2 ^ 32 := by
    have hlt := length_lt_length_encodeString key
    rw [hbytes] at hlength
    simp only [List.length_append] at hlength
    omega
  cases order with
  | get =>
      simp only [reduceCtorEq, ↓reduceIte, List.append_nil] at hbytes
      rw [hbytes]
      exact .get (isString_encodeString hkey)
  | delete =>
      simp only [reduceCtorEq, ↓reduceIte, List.append_nil] at hbytes
      rw [hbytes]
      exact .delete (isString_encodeString hkey)
  | put =>
      simp only [↓reduceIte] at hbytes
      have hvalue : value.length < 2 ^ 32 := by
        have hlt := length_lt_length_encodeString value
        rw [hbytes] at hlength
        simp only [List.length_append] at hlength
        omega
      rw [hbytes]
      exact .put (isString_encodeString hkey) (isString_encodeString hvalue)

/-- No complete request for the same order, key and value is shorter. -/
theorem length_le_of_isRequest {task : ClientTask} {bytes other : Bytes}
    (hencode : task.encode = some bytes) (hother : IsRequest other task.request) :
    bytes.length ≤ other.length := by
  obtain ⟨order, key, value⟩ := task
  rw [encode_eq_some hencode]
  cases order with
  | get =>
      cases hother with
      | get hstring =>
          have hle : (encodeString key).length ≤ _ :=
            hstring.length_encodeString_le
          simp only [List.length_append, reduceCtorEq, ↓reduceIte,
            List.length_nil]
          omega
  | delete =>
      cases hother with
      | delete hstring =>
          have hle : (encodeString key).length ≤ _ :=
            hstring.length_encodeString_le
          simp only [List.length_append, reduceCtorEq, ↓reduceIte,
            List.length_nil]
          omega
  | put =>
      cases hother with
      | put hstring hstring' =>
          have hle : (encodeString key).length ≤ _ :=
            hstring.length_encodeString_le
          have hle' : (encodeString value).length ≤ _ :=
            hstring'.length_encodeString_le
          simp only [List.length_append, ↓reduceIte]
          omega

end ClientTask

/-- The server accepts exactly its grammar: a chunk reaches the database call
with a request exactly when it begins with the bytes of that request, whatever
the buffer holds past the message; and it recovers what a client encoded. -/
theorem request_parser_grammar :
    (∀ (chunk stale : Bytes) (request : Request),
      parseRequest chunk.length (chunk ++ stale) = .ok request ↔
        ∃ bytes rest, chunk = bytes ++ rest ∧ IsRequest bytes request) ∧
    (∀ chunk stale stale' : Bytes,
      (parseRequest chunk.length (chunk ++ stale)).toOption =
        (parseRequest chunk.length (chunk ++ stale')).toOption) ∧
    (∀ task : ClientTask, task.encodedLen ≤ 1400 →
      ∃ bytes, task.encode = some bytes ∧ bytes.length = task.encodedLen ∧
        ∀ stale, parseRequest bytes.length (bytes ++ stale) =
          .ok task.request) := by
  refine ⟨parseRequest_eq_ok_iff, fun chunk stale stale' => ?_, ?_⟩
  · apply Option.ext
    intro request
    have hok (tail : Bytes) :
        (parseRequest chunk.length (chunk ++ tail)).toOption = some request ↔
          ∃ bytes rest, chunk = bytes ++ rest ∧ IsRequest bytes request := by
      rw [← parseRequest_eq_ok_iff chunk tail]
      cases parseRequest chunk.length (chunk ++ tail) <;> simp [Except.toOption]
    rw [hok stale, hok stale']
  · intro task hlen
    obtain ⟨bytes, hencode, hlength⟩ :=
      task.exists_encode (show task.encodedLen < 2 ^ 32 by omega)
    refine ⟨bytes, hencode, hlength, fun stale => ?_⟩
    rw [parseRequest_eq_ok_iff]
    exact ⟨bytes, [], (List.append_nil bytes).symm,
      ClientTask.isRequest hencode (by omega)⟩

theorem request_parser_grammar_put :
    (ClientTask.mk .put [97] [98]).encodedLen = 7 ∧
      ∃ bytes, (ClientTask.mk .put [97] [98]).encode = some bytes ∧
        bytes.length = 7 ∧ ∀ stale, parseRequest bytes.length
          (bytes ++ stale) = .ok ⟨.put, [97], [98]⟩ :=
  ⟨by decide, request_parser_grammar.2.2 ⟨.put, [97], [98]⟩ (by decide)⟩

end SimpleKV
