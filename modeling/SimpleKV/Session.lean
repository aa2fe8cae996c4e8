/-
The loop of `NetworkTask::Run` over the chunks one connection delivers.  Each
chunk is taken for one packet: nothing is kept for the next `recv` and what
follows the first request of a chunk is dropped.  So a client's requests are
answered one by one exactly when no chunk joins or cuts them.
-/
import SimpleKV.Server

namespace SimpleKV

/-- What a connection does to the database and to its socket. -/
inductive SessionEvent where
  /-- `data_base_->Get(key, value_out)` for a `Get`,
  `data_base_->Add(Put, key, value)` for the others. -/
  | call (request : Request)
  | send (returnMsg : Bytes)
  /-- The text is logged and the process exits. -/
  | exit (text : String)
  | close
deriving DecidableEq

/-- `"OK"`. -/
def okMsg : Bytes := [79, 75]

/-- The reply to a request, given what `Get` left in `value_out`. -/
def returnMsg (request : Request) (valueOut : Bytes) : Bytes :=
  if request.order = .get then valueOut else okMsg

/-- `recv` overwrites the front of the buffer and leaves the rest. -/
def recv (chunk bufferRecv : Bytes) : Bytes :=
  chunk ++ bufferRecv.drop chunk.length

/-- `NetworkTask::Run` over the results of `recv`; the list ends, or has an
empty chunk, where `recv` returns no bytes.  `valueOut` is what the database
answers after what the connection did so far, the other clients being
arbitrary. -/
def networkTask (valueOut : List SessionEvent → Bytes) :
    List Bytes → Bytes → List SessionEvent → List SessionEvent
  | [], _, _ => [.close]
  | chunk :: chunks, bufferRecv, past =>
      if chunk.length = 0 then [.close]
      else
        let bufferRecv := recv chunk bufferRecv
        match parseRequest chunk.length bufferRecv with
        | .error error => [.exit error.text]
        | .ok request =>
            let reply := returnMsg request (valueOut (past ++ [.call request]))
            .call request :: .send reply ::
              networkTask valueOut chunks bufferRecv
                (past ++ [.call request, .send reply])

/-- The events of a connection that applies exactly these requests, in order
and each once, with one reply after each. -/
inductive Answers : List Request → List SessionEvent → Prop where
  | done : Answers [] [.close]
  | next {request : Request} {requests : List Request} {reply : Bytes}
      {events : List SessionEvent} : (request.order ≠ .get → reply = okMsg) →
      Answers requests events →
      Answers (request :: requests) (.call request :: .send reply :: events)

/-- A connection answers a list of requests exactly when each of its chunks
begins with the request at its place. -/
theorem answers_networkTask_iff (valueOut : List SessionEvent → Bytes) :
    ∀ (chunks : List Bytes) (requests : List Request) (bufferRecv : Bytes)
      (past : List SessionEvent), (∀ chunk ∈ chunks, chunk ≠ []) →
      (Answers requests (networkTask valueOut chunks bufferRecv past) ↔
        List.Forall₂ (fun chunk request => ∃ bytes rest,
          chunk = bytes ++ rest ∧ IsRequest bytes request) chunks requests) := by
  intro chunks
  induction chunks with
  | nil =>
      intro requests bufferRecv past _
      rw [networkTask]
      constructor
      · intro hanswers
        cases hanswers
        exact .nil
      · intro hchunks
        cases hchunks
        exact .done
  | cons chunk chunks ih =>
      intro requests bufferRecv past hne
      have hnil := hne chunk List.mem_cons_self
      have hrest : ∀ chunk ∈ chunks, chunk ≠ [] := fun other hother =>
        hne other (List.mem_cons_of_mem chunk hother)
      rw [networkTask, if_neg (by rwa [List.length_eq_zero_iff]), recv]
      cases hparse : parseRequest chunk.length
          (chunk ++ bufferRecv.drop chunk.length) with
      | error error =>
          simp only [hparse]
          constructor
          · intro hanswers
            cases hanswers
          · intro hchunks
            cases hchunks with
            | cons hhead _ =>
                rw [(parseRequest_eq_ok_iff _ _ _).mpr hhead] at hparse
                cases hparse
      | ok request =>
          simp only [hparse]
          constructor
          · intro hanswers
            cases hanswers with
            | next _ htail =>
                exact .cons ((parseRequest_eq_ok_iff _ _ _).mp hparse)
                  ((ih _ _ _ hrest).mp htail)
          · intro hchunks
            cases hchunks with
            | @cons _ head _ tail hhead htail =>
                have hsame := (parseRequest_eq_ok_iff chunk
                  (bufferRecv.drop chunk.length) head).mpr hhead
                rw [hparse, Except.ok.injEq] at hsame
                subst hsame
                refine .next (fun horder => ?_) ((ih _ _ _ hrest).mpr htail)
                rw [returnMsg, if_neg horder]

/-- Blocks that are no shorter than those of another cut of the same bytes are
the same blocks. -/
theorem eq_of_forall₂_length_le {blocks others : List Bytes}
    (hle : List.Forall₂ (fun block other => other.length ≤ block.length)
      blocks others) (hflat : blocks.flatten = others.flatten) :
    blocks = others := by
  have hsum {blocks others : List Bytes}
      (hle : List.Forall₂ (fun block other => other.length ≤ block.length)
        blocks others) : others.flatten.length ≤ blocks.flatten.length := by
    induction hle with
    | nil => simp
    | cons hhead _ ih =>
        simp only [List.flatten_cons, List.length_append]
        omega
  induction hle with
  | nil => rfl
  | cons hhead htail ih =>
      rw [List.flatten_cons, List.flatten_cons] at hflat
      have htotal := congrArg List.length hflat
      simp only [List.length_append] at htotal
      have hmore := hsum htail
      obtain ⟨hfirst, hrest⟩ := List.append_inj hflat (by omega)
      rw [hfirst, ih hrest]

/-- A client's requests, each encoded into at most 1400 bytes, arrive cut in any
way into non-empty chunks of at most 1400 bytes: the server applies exactly
these requests, each once and in order, with one reply for each, exactly when
every chunk is one encoded request. -/
theorem session_answers_iff (valueOut : List SessionEvent → Bytes)
    {tasks : List ClientTask} {encoded chunks : List Bytes}
    (hencoded : List.Forall₂ (fun task bytes =>
      task.encode = some bytes ∧ bytes.length ≤ 1400) tasks encoded)
    (hchunks : ∀ chunk ∈ chunks, chunk ≠ [] ∧ chunk.length ≤ 1400)
    (hflat : chunks.flatten = encoded.flatten) (bufferRecv : Bytes) :
    Answers (tasks.map ClientTask.request)
        (networkTask valueOut chunks bufferRecv []) ↔
      chunks = encoded := by
  rw [answers_networkTask_iff valueOut chunks _ bufferRecv []
    fun chunk hchunk => (hchunks chunk hchunk).1]
  constructor
  · intro hprefix
    apply eq_of_forall₂_length_le _ hflat
    rw [List.forall₂_map_right_iff] at hprefix
    clear hchunks hflat
    induction hprefix generalizing encoded with
    | nil =>
        cases hencoded
        exact .nil
    | cons hhead _ ih =>
        cases hencoded with
        | cons hbytes hrest =>
            obtain ⟨bytes, rest, rfl, hrequest⟩ := hhead
            have hle := ClientTask.length_le_of_isRequest hbytes.1 hrequest
            refine .cons ?_ (ih hrest)
            rw [List.length_append]
            omega
  · rintro rfl
    rw [List.forall₂_map_right_iff]
    apply List.Forall₂.imp _ hencoded.flip
    rintro bytes task ⟨hencode, hlength⟩
    exact ⟨bytes, [], (List.append_nil bytes).symm,
      ClientTask.isRequest hencode (by omega)⟩

/-- Two requests, each in a chunk of its own. -/
theorem session_answers_iff_two_chunks :
    Answers [⟨.get, [97], []⟩, ⟨.delete, [98], tombValue⟩]
      (networkTask (fun _ => [99]) [[71, 101, 116, 1, 97],
        [68, 101, 108, 101, 116, 101, 1, 98]] [] []) := by
  have hencoded : List.Forall₂ (fun (task : ClientTask) bytes =>
      task.encode = some bytes ∧ bytes.length ≤ 1400)
      [⟨.get, [97], []⟩, ⟨.delete, [98], []⟩]
      [[71, 101, 116, 1, 97], [68, 101, 108, 101, 116, 101, 1, 98]] :=
    .cons (by decide) (.cons (by decide) .nil)
  exact (session_answers_iff (fun _ => [99]) hencoded (by decide) rfl []).mpr
    rfl

/-- Two requests that arrive in one chunk: the second is lost. -/
theorem joined_requests_lost :
    ∃ (tasks : List ClientTask) (encoded chunks : List Bytes),
      List.Forall₂ (fun task bytes =>
        task.encode = some bytes ∧ bytes.length ≤ 1400) tasks encoded ∧
      (∀ chunk ∈ chunks, chunk ≠ [] ∧ chunk.length ≤ 1400) ∧
      chunks.flatten = encoded.flatten ∧
      networkTask (fun _ => [99]) chunks [] [] =
        [.call ⟨.get, [97], []⟩, .send [99], .close] ∧
      ¬ Answers (tasks.map ClientTask.request)
        (networkTask (fun _ => [99]) chunks [] []) := by
  have hrun : networkTask (fun _ => [99])
      [[71, 101, 116, 1, 97, 71, 101, 116, 1, 98]] [] [] =
      [.call ⟨.get, [97], []⟩, .send [99], .close] := by decide +kernel
  refine ⟨[⟨.get, [97], []⟩, ⟨.get, [98], []⟩],
    [[71, 101, 116, 1, 97], [71, 101, 116, 1, 98]],
    [[71, 101, 116, 1, 97, 71, 101, 116, 1, 98]],
    .cons (by decide) (.cons (by decide) .nil), by decide, rfl, hrun, ?_⟩
  rw [hrun]
  intro hanswers
  cases hanswers with
  | next _ htail => cases htail

end SimpleKV
