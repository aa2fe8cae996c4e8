/-
The server as a whole: any number of connections, each in the loop of
`NetworkTask::Run`, over one store with its background threads.  A connection's
`Get` looks at the buffers and at the files in two steps with everything else in
between; what it sends back is still the last write of one history of the store.
-/
import SimpleKV.Session
import SimpleKV.Lives

namespace SimpleKV

/-- Where a `NetworkTask` stands. -/
inductive TaskPc where
  | recv
  /-- A request is parsed and the database is called next. -/
  | call (request : Request)
  /-- `DataBase::Get` has found nothing in the buffers. -/
  | files (request : Request)
  | send (request : Request) (returnMsg : Bytes)
  | closed
deriving DecidableEq

/-- The locals of a `NetworkTask`. -/
structure Connection where
  bufferRecv : Bytes
  pc : TaskPc

/-- The store and its connections, one for each number. -/
structure Server where
  db : DataBase
  connections : Nat → Connection
  /-- Some connection has called `exit`. -/
  exited : Bool

/-- A step of a connection or of the store. -/
inductive ServerAct where
  | recv (i : Nat) (chunk : Bytes)
  /-- `Add` for a `Put` or a `Delete`. -/
  | add (i : Nat)
  /-- `Get` up to its look at the buffers. -/
  | buffers (i : Nat)
  /-- The rest of `Get`. -/
  | files (i : Nat)
  | send (i : Nat)
  | store (act : Act)

/-- `DataBase::Add` up to the swap. -/
def Act.adds : Act → Bool
  | .add _ _ _ => true
  | _ => false

theorem IsRequest.length_key_le {bytes : Bytes} {request : Request}
    (h : IsRequest bytes request) :
    (encodeString request.key).length ≤ bytes.length := by
  cases h with
  | get hkey =>
      have hle := hkey.length_encodeString_le
      simp only [List.length_append]
      omega
  | delete hkey =>
      have hle := hkey.length_encodeString_le
      simp only [List.length_append]
      omega
  | put hkey _ =>
      have hle := hkey.length_encodeString_le
      simp only [List.length_append]
      omega

namespace Server

/-- A connection goes on. -/
def put (i : Nat) (connection : Connection) (server : Server) : Server :=
  { server with
    connections := Function.update server.connections i connection }

/-- A connection goes on with its buffer as it is. -/
def goto (i : Nat) (pc : TaskPc) (server : Server) : Server :=
  server.put i { server.connections i with pc }

/-- One round of the loop of `NetworkTask::Run` up to the database call. -/
def recv (i : Nat) (chunk : Bytes) (server : Server) : Option Server :=
  match (server.connections i).pc with
  | .recv =>
      if chunk.length = 0 then some (server.goto i .closed)
      else if 1400 < chunk.length then none
      else
        let bufferRecv := SimpleKV.recv chunk (server.connections i).bufferRecv
        match parseRequest chunk.length bufferRecv with
        | .error _ => some { server with exited := true }
        | .ok request =>
            some (server.put i { bufferRecv, pc := .call request })
  | _ => none

/-- `data_base_->Add(Put, key, value)`.  One that swaps replies before its
`Notify` here, which is a step of the store. -/
def add (i : Nat) (server : Server) : Option Server :=
  match (server.connections i).pc with
  | .call request =>
      if request.order = .get then none
      else do
        let db ← server.db.add .put request.key request.value
        some { server.goto i (.send request okMsg) with db }
  | _ => none

/-- `data_base_->Get(key, value_out)` up to its look at the buffers. -/
def buffers (i : Nat) (server : Server) : Option Server :=
  match (server.connections i).pc with
  | .call request =>
      if request.order = .get then
        if server.db.isStop then some (server.goto i (.send request []))
        else
          match server.db.buffer.get request.key with
          | none => none
          | some (some value) => some (server.goto i (.send request value))
          | some none => some (server.goto i (.files request))
      else none
  | _ => none

/-- The rest of `Get`. -/
def files (i : Nat) (server : Server) : Option Server :=
  match (server.connections i).pc with
  | .files request => do
      let (value, db) ← server.db.getFiles request.key
      some { server.goto i (.send request (value.getD [])) with db }
  | _ => none

/-- `send`, and back to `recv`. -/
def send (i : Nat) (server : Server) : Option Server :=
  match (server.connections i).pc with
  | .send _ _ => some (server.goto i .recv)
  | _ => none

/-- A step of the store other than an `Add`. -/
def store (act : Act) (server : Server) : Option Server :=
  if act.adds then none
  else (DataBase.step act server.db).map fun db => { server with db }

/-- One step; `none` where a connection does not stand at that point or waits,
or where the process has ended. -/
def step (act : ServerAct) (server : Server) : Option Server :=
  if server.exited then none
  else
    match act with
    | .recv i chunk => server.recv i chunk
    | .add i => server.add i
    | .buffers i => server.buffers i
    | .files i => server.files i
    | .send i => server.send i
    | .store act => server.store act

/-- The steps of the store that a step of the server is made of. -/
def acts (act : ServerAct) (server : Server) : List Act :=
  match act with
  | .add i =>
      match (server.connections i).pc with
      | .call request => [.add .put request.key request.value]
      | _ => []
  | .files i =>
      match (server.connections i).pc with
      | .files request => [.getFiles request.key]
      | _ => []
  | .store act => [act]
  | _ => []

/-- A run of the server with all ids and file sizes in range, and the steps of
its store. -/
inductive Serves (first : Server) : List Act → Server → Prop where
  | start : first.db.InRange → Serves first [] first
  | step {log : List Act} {last next : Server} {act : ServerAct} :
      Serves first log last → last.step act = some next →
      next.db.InRange → Serves first (log ++ last.acts act) next

variable {server next : Server}

theorem put_pc (i : Nat) (connection : Connection) (server : Server) :
    ((server.put i connection).connections i).pc = connection.pc := by
  simp [put]

theorem goto_pc (i : Nat) (pc : TaskPc) (server : Server) :
    ((server.goto i pc).connections i).pc = pc :=
  put_pc i _ server

/-- What a step does to the store and to the place of a connection. -/
inductive Steps (server next : Server) (j : Nat) : List Act → Prop where
  /-- The connection stays where it is, and so does the store. -/
  | stays : (next.connections j).pc = (server.connections j).pc →
      next.db = server.db → Steps server next j []
  /-- The connection stays where it is, the store does not. -/
  | stores {act : Act} :
      (next.connections j).pc = (server.connections j).pc →
      DataBase.step act server.db = some next.db → Steps server next j [act]
  /-- The connection has closed or waits for the next request. -/
  | idles : (next.connections j).pc = .recv ∨
        (next.connections j).pc = .closed →
      next.db = server.db → Steps server next j []
  | parses {request : Request} : (next.connections j).pc = .call request →
      (encodeString request.key).length ≤ 1400 → next.db = server.db →
      Steps server next j []
  | adds {request : Request} : (server.connections j).pc = .call request →
      request.order ≠ .get →
      (next.connections j).pc = .send request okMsg →
      DataBase.step (.add .put request.key request.value) server.db =
        some next.db →
      Steps server next j [.add .put request.key request.value]
  | misses {request : Request} : (server.connections j).pc = .call request →
      request.order = .get → server.db.isStop = false →
      server.db.buffer.get request.key = some none →
      (next.connections j).pc = .files request → next.db = server.db →
      Steps server next j []
  | finds {request : Request} {value : Option Bytes} :
      (server.connections j).pc = .call request → request.order = .get →
      DataBase.getBetween request.key server.db server.db = some value →
      (next.connections j).pc = .send request (value.getD []) →
      next.db = server.db → Steps server next j []
  | reads {request : Request} {value : Option Bytes} :
      (server.connections j).pc = .files request →
      server.db.getFiles request.key = some (value, next.db) →
      (next.connections j).pc = .send request (value.getD []) →
      Steps server next j [.getFiles request.key]

/-- The other connections stay where they are. -/
theorem Steps.of_put {i : Nat} {connection : Connection}
    (h : Steps server (server.put i connection) i []) (j : Nat) :
    Steps server (server.put i connection) j [] := by
  by_cases hj : j = i
  · rw [hj]
    exact h
  · refine .stays ?_ rfl
    exact congrArg Connection.pc (Function.update_of_ne hj _ _)

theorem Steps.of_goto_step {i : Nat} {pc : TaskPc} {act : Act}
    {db : DataBase} (hstep : DataBase.step act server.db = some db)
    (h : Steps server { server.goto i pc with db } i [act]) (j : Nat) :
    Steps server { server.goto i pc with db } j [act] := by
  by_cases hj : j = i
  · rw [hj]
    exact h
  · refine .stores ?_ hstep
    exact congrArg Connection.pc (Function.update_of_ne hj _ _)

theorem steps_of_recv {i : Nat} {chunk : Bytes}
    (h : server.recv i chunk = some next) (j : Nat) :
    Steps server next j [] := by
  unfold recv at h
  split at h
  · split_ifs at h with hempty hlong
    · rw [← Option.some.inj h]
      exact .of_put (.idles (Or.inr (goto_pc i _ _)) rfl) j
    · simp only at h
      split at h
      · rw [← Option.some.inj h]
        exact .stays rfl rfl
      · rename_i request hparse
        rw [← Option.some.inj h]
        obtain ⟨bytes, rest, hchunk, hrequest⟩ :=
          (parseRequest_eq_ok_iff _ _ _).mp hparse
        have hle := hrequest.length_key_le
        have hlength := congrArg List.length hchunk
        rw [List.length_append] at hlength
        exact .of_put (.parses (put_pc i _ _) (by omega) rfl) j
  · exact absurd h (by simp)

theorem steps_of_add {i : Nat} (h : server.add i = some next) (j : Nat) :
    Steps server next j (server.acts (.add i)) := by
  unfold add at h
  split at h
  · rename_i request hpc
    split_ifs at h with horder
    obtain ⟨db, hadd, h⟩ := Option.bind_eq_some_iff.mp h
    have hstep : DataBase.step (.add .put request.key request.value)
        server.db = some db := hadd
    simp only [acts, hpc]
    rw [← Option.some.inj h]
    exact .of_goto_step hstep
      (.adds hpc horder (goto_pc i _ server) hstep) j
  · exact absurd h (by simp)

theorem steps_of_buffers {i : Nat} (h : server.buffers i = some next)
    (j : Nat) : Steps server next j [] := by
  unfold buffers at h
  split at h
  · rename_i request hpc
    split_ifs at h with horder hstop
    · rw [← Option.some.inj h]
      have hget : DataBase.getBetween request.key server.db server.db =
          some none := by
        rw [DataBase.getBetween, if_pos hstop]
      exact .of_put (.finds hpc horder hget (goto_pc i _ server) rfl) j
    · split at h
      · exact absurd h (by simp)
      · rename_i value hbuffer
        rw [← Option.some.inj h]
        have hget : DataBase.getBetween request.key server.db server.db =
            some (some value) := by
          rw [DataBase.getBetween, if_neg hstop, hbuffer]
        exact .of_put (.finds hpc horder hget (goto_pc i _ server) rfl) j
      · rename_i hbuffer
        rw [← Option.some.inj h]
        exact .of_put (.misses hpc horder (Bool.eq_false_iff.mpr hstop)
          hbuffer (goto_pc i _ server) rfl) j
  · exact absurd h (by simp)

theorem steps_of_files {i : Nat} (h : server.files i = some next) (j : Nat) :
    Steps server next j (server.acts (.files i)) := by
  unfold files at h
  split at h
  · rename_i request hpc
    obtain ⟨⟨value, db⟩, hget, h⟩ := Option.bind_eq_some_iff.mp h
    have hstep : DataBase.step (.getFiles request.key) server.db =
        some db := by
      rw [DataBase.step, hget]
      rfl
    simp only [acts, hpc]
    rw [← Option.some.inj h]
    exact .of_goto_step hstep (.reads hpc hget (goto_pc i _ server)) j
  · exact absurd h (by simp)

theorem steps_of_send {i : Nat} (h : server.send i = some next) (j : Nat) :
    Steps server next j [] := by
  unfold send at h
  split at h
  · rw [← Option.some.inj h]
    exact .of_put (.idles (Or.inl (goto_pc i _ _)) rfl) j
  · exact absurd h (by simp)

/-- Every step of the server is one of these for every connection. -/
theorem steps_of_step {act : ServerAct} (h : server.step act = some next)
    (j : Nat) : Steps server next j (server.acts act) := by
  unfold step at h
  split_ifs at h
  cases act with
  | recv i chunk => exact steps_of_recv h j
  | add i => exact steps_of_add h j
  | buffers i => exact steps_of_buffers h j
  | files i => exact steps_of_files h j
  | send i => exact steps_of_send h j
  | store act =>
      simp only [store] at h
      split_ifs at h
      obtain ⟨db, hstep, rfl⟩ := Option.map_eq_some_iff.mp h
      exact .stores rfl hstep

/-- The store takes at most one step. -/
theorem Steps.cases_log {j : Nat} {log : List Act}
    (h : Steps server next j log) : log = [] ∧ next.db = server.db ∨
      ∃ act, log = [act] ∧ DataBase.step act server.db = some next.db := by
  cases h with
  | stays _ hdb => exact Or.inl ⟨rfl, hdb⟩
  | stores _ hstep => exact Or.inr ⟨_, rfl, hstep⟩
  | idles _ hdb => exact Or.inl ⟨rfl, hdb⟩
  | parses _ _ hdb => exact Or.inl ⟨rfl, hdb⟩
  | adds _ _ _ hstep => exact Or.inr ⟨_, rfl, hstep⟩
  | misses _ _ _ _ _ hdb => exact Or.inl ⟨rfl, hdb⟩
  | finds _ _ _ _ hdb => exact Or.inl ⟨rfl, hdb⟩
  | reads _ hget _ =>
      refine Or.inr ⟨_, rfl, ?_⟩
      rw [DataBase.step, hget]
      rfl

/-- A run of the server is a run of its store. -/
theorem Serves.reaches {first last : Server} {log : List Act}
    (h : Serves first log last) :
    DataBase.Reaches DataBase.InRange first.db log last.db := by
  induction h with
  | start hrange => exact .start hrange
  | @step log last next act _ hstep hrange ih =>
      rcases (steps_of_step hstep 0).cases_log with ⟨hlog, hdb⟩ |
        ⟨act', hlog, hstep⟩
      · rw [hlog, hdb, List.append_nil]
        exact ih
      · rw [hlog]
        exact .step ih hstep hrange

/-- What is known of a connection: a `Put` or `Delete` is answered after its
write, and keys are as short as the chunks they came in. -/
def Known (log : List Act) : TaskPc → Prop
  | .call request => (encodeString request.key).length ≤ 1400
  | .files request =>
      (encodeString request.key).length ≤ 1400 ∧ request.order = .get
  | .send request reply => (encodeString request.key).length ≤ 1400 ∧
      (request.order ≠ .get → reply = okMsg ∧
        Act.add .put request.key request.value ∈ log)
  | .recv | .closed => True

theorem Known.mono {log more : List Act} {pc : TaskPc} (h : Known log pc) :
    Known (log ++ more) pc := by
  cases pc with
  | send request reply =>
      refine ⟨h.1, fun horder => ?_⟩
      obtain ⟨hreply, hmem⟩ := h.2 horder
      exact ⟨hreply, List.mem_append_left _ hmem⟩
  | _ => exact h

theorem Known.steps {log more : List Act} {j : Nat}
    (h : Known log (server.connections j).pc)
    (hsteps : Steps server next j more) :
    Known (log ++ more) (next.connections j).pc := by
  cases hsteps with
  | stays hpc _ =>
      rw [hpc]
      exact h.mono
  | stores hpc _ =>
      rw [hpc]
      exact h.mono
  | idles hpc _ =>
      rcases hpc with hpc | hpc <;> rw [hpc] <;> trivial
  | parses hpc hkey _ =>
      rw [hpc]
      exact hkey
  | adds hpc _ hpc' _ =>
      rw [hpc] at h
      rw [hpc']
      exact ⟨h, fun _ => ⟨rfl, by simp⟩⟩
  | misses hpc horder _ _ hpc' _ =>
      rw [hpc] at h
      rw [hpc']
      exact ⟨h, horder⟩
  | finds hpc horder _ hpc' _ =>
      rw [hpc] at h
      rw [hpc']
      exact ⟨h, fun hother => absurd horder hother⟩
  | reads hpc _ hpc' =>
      rw [hpc] at h
      rw [hpc']
      exact ⟨h.1, fun hother => absurd h.2 hother⟩

theorem Serves.known {first last : Server} {log : List Act}
    (h : Serves first log last)
    (hrecv : ∀ j, (first.connections j).pc = .recv) (j : Nat) :
    Known log (last.connections j).pc := by
  induction h with
  | start _ =>
      rw [hrecv j]
      trivial
  | step _ hstep _ ih => exact ih.steps (steps_of_step hstep j)

/-- How far a connection's `Get` has come since the store was in the state
`origin`: it has looked at the buffers in one later state and, to reply, at the
files in another. -/
def Looked (origin : DataBase) (log : List Act) (db : DataBase) :
    TaskPc → Prop
  | .files request => ∃ mid between first, log = mid ++ between ∧
      DataBase.Reaches DataBase.InRange origin mid first ∧
      DataBase.Reaches DataBase.InRange first between db ∧
      first.isStop = false ∧ first.buffer.get request.key = some none
  | .send request reply => request.order = .get →
      ∃ mid between rest first second value, log = mid ++ between ++ rest ∧
        DataBase.Reaches DataBase.InRange origin mid first ∧
        DataBase.Reaches DataBase.InRange first between second ∧
        DataBase.getBetween request.key first second = some value ∧
        reply = value.getD []
  | .recv | .call _ | .closed => True

theorem Looked.push {origin db db' : DataBase} {log : List Act} {pc : TaskPc}
    (h : Looked origin log db pc) {act : Act}
    (hstep : DataBase.step act db = some db') (hrange : db'.InRange) :
    Looked origin (log ++ [act]) db' pc := by
  cases pc with
  | files request =>
      obtain ⟨mid, between, first, rfl, hmid, hbetween, hopen, hmiss⟩ := h
      exact ⟨mid, between ++ [act], first, by simp, hmid,
        .step hbetween hstep hrange, hopen, hmiss⟩
  | send request reply =>
      intro horder
      obtain ⟨mid, between, rest, first, second, value, rfl, hlooked⟩ :=
        h horder
      exact ⟨mid, between, rest ++ [act], first, second, value, by simp,
        hlooked⟩
  | _ => trivial

theorem Looked.steps {origin : DataBase} {log more : List Act} {j : Nat}
    (h : Looked origin log server.db (server.connections j).pc)
    (hreach : DataBase.Reaches DataBase.InRange origin log server.db)
    (hsteps : Steps server next j more) (hrange : next.db.InRange) :
    Looked origin (log ++ more) next.db (next.connections j).pc := by
  cases hsteps with
  | stays hpc hdb =>
      rw [hpc, hdb, List.append_nil]
      exact h
  | stores hpc hstep =>
      rw [hpc]
      exact h.push hstep hrange
  | idles hpc _ =>
      rcases hpc with hpc | hpc <;> rw [hpc] <;> trivial
  | parses hpc _ _ =>
      rw [hpc]
      trivial
  | adds _ horder hpc' _ =>
      rw [hpc']
      exact fun hget => absurd hget horder
  | misses _ _ hopen hmiss hpc' hdb =>
      rw [hpc', hdb]
      rw [hdb] at hrange
      exact ⟨log, [], server.db, rfl, hreach, .start hrange, hopen, hmiss⟩
  | @finds request value _ _ hget hpc' hdb =>
      rw [hpc']
      rw [hdb] at hrange
      exact fun _ => ⟨log, [], [], server.db, server.db, value, by simp,
        hreach, .start hrange, hget, rfl⟩
  | @reads request value hpc hget hpc' =>
      rw [hpc] at h
      obtain ⟨mid, between, first, rfl, hmid, hbetween, hopen, hmiss⟩ := h
      rw [hpc']
      have hvalue : DataBase.getBetween request.key first server.db =
          some value := by
        rw [DataBase.getBetween, hopen, hmiss]
        simp [hget]
      exact fun _ => ⟨mid, between, [.getFiles request.key], first, server.db,
        value, rfl, hmid, hbetween, hvalue, rfl⟩

theorem Serves.looked {called last : Server} {log : List Act}
    (h : Serves called log last) {j : Nat} {request : Request}
    (hcall : (called.connections j).pc = .call request) :
    Looked called.db log last.db (last.connections j).pc := by
  induction h with
  | start _ =>
      rw [hcall]
      trivial
  | step hbefore hstep hrange ih =>
      exact ih.steps hbefore.reaches (steps_of_step hstep j) hrange

/-- A `Get` in two parts over a new store, with no tombstone written, returns
the last write of a history of the store. -/
theorem exists_get_of_new {bufferSize : UInt32} {capacity : Nat}
    (hpos : 0 < capacity) {limit : Nat} {past between : List Act}
    {first second : DataBase}
    (hfirst : DataBase.Reaches DataBase.InRange
      (.start bufferSize (.empty capacity hpos) (.new limit)) past first)
    (hbetween : DataBase.Reaches DataBase.InRange first between second)
    (hplain : ∀ act ∈ past ++ between, act.Plain)
    (hopen : first.isStop = false) {key : Bytes}
    (hprobe : StorageBuffer.ProbeFits key) :
    ∃ seen, seen <+: past ++ between ∧
      DataBase.getBetween key first second = some (lastWrite key seen) ∧
      ((∀ value, ¬ first.Hidden (key, value)) ∨ .addFile ∈ between →
        past <+: seen) := by
  have hlives : DataBase.Lives [] past first := .first _ hpos _ hfirst
  have hall : PlainLives ([] ++ [past ++ between]) := by
    simpa [PlainLives] using hplain
  have hshort : ShortWrites (past ++ between) := hall.short (by simp)
  have hlive : LiveWrites (past ++ between) := hall.live (by simp)
  obtain ⟨log, ⟨kept, hkept, rfl⟩, s, hof, hsall, _⟩ :=
    hlives.exists_segments hall.shorten
  cases hkept
  rw [List.flatten_nil, List.nil_append] at hsall
  obtain ⟨⟨transit, hstore⟩, hcache⟩ := hlives.invariants
  have hread := DataBase.exists_getBetween hof hstore hcache hbetween
    hshort.of_append.2 (by rwa [hsall]) hopen hprobe
  rwa [hsall] at hread

/-- Any number of connections over a new store, in any interleaving with each
other and with the store's threads, up to a `ShutDown` and with no tombstone
written.  A `Put` is answered after its write.  And the reply to a `Get` is the
last write to its key in a history of the store, from before the look at the
buffers on unless the key was hidden there and not installed before the look at
the files; so it takes in every write that was answered before the request. -/
theorem replies_linearizable {bufferSize : UInt32} {capacity : Nat}
    (hpos : 0 < capacity) {limit : Nat} {first called last : Server}
    (hstart : first.db =
      .start bufferSize (.empty capacity hpos) (.new limit))
    (hrecv : ∀ j, (first.connections j).pc = .recv) {past log : List Act}
    (hpast : Serves first past called) (hlog : Serves called log last)
    (hplain : ∀ act ∈ past ++ log, act.Plain)
    (hopen : .shutDown ∉ past ++ log) :
    (∀ j asked answer, (called.connections j).pc = .send asked answer →
      asked.order ≠ .get → answer = okMsg ∧
        Act.add .put asked.key asked.value ∈ past) ∧
    ∀ i request reply, (called.connections i).pc = .call request →
      request.order = .get →
      (last.connections i).pc = .send request reply →
      ∃ mid between rest looked seen, log = mid ++ between ++ rest ∧
        DataBase.Reaches DataBase.InRange called.db mid looked ∧
        seen <+: past ++ mid ++ between ∧
        reply = (lastWrite request.key seen).getD [] ∧
        ((∀ value, ¬ looked.Hidden (request.key, value)) ∨
            .addFile ∈ between → past ++ mid <+: seen) := by
  constructor
  · intro j asked answer hsend horder
    have hknown := hpast.known hrecv j
    rw [hsend] at hknown
    exact hknown.2 horder
  · intro i request reply hcall horder hsend
    have hknown := hpast.known hrecv i
    rw [hcall] at hknown
    have hlooked := hlog.looked hcall
    rw [hsend] at hlooked
    obtain ⟨mid, between, rest, looked, second, value, rfl, hmid, hbetween,
      hget, rfl⟩ := hlooked horder
    have hreach := hpast.reaches
    rw [hstart] at hreach
    have hfirst := hreach.trans hmid
    have hrunning : looked.isStop = false := by
      rw [isStop_between hfirst fun hmem => hopen (by
        simp only [List.mem_append] at hmem ⊢
        tauto)]
      rfl
    have hprobe : StorageBuffer.ProbeFits request.key :=
      hknown.trans_lt (by decide)
    obtain ⟨seen, hwhole, hread, hfresh⟩ := exists_get_of_new hpos hfirst
      hbetween (fun act hact => hplain act (by
        simp only [List.mem_append] at hact ⊢
        tauto)) hrunning hprobe
    rw [hget, Option.some.injEq] at hread
    exact ⟨mid, between, rest, looked, seen, rfl, hmid, hwhole,
      by rw [hread], hfresh⟩

/-- A run by evaluation. -/
def serve : List ServerAct → List Act → Server → Option (List Act × Server)
  | [], log, server => some (log, server)
  | act :: rest, log, server => do
      let next ← server.step act
      if next.db.InRange then serve rest (log ++ server.acts act) next
      else none

theorem serves_of_serve {first last final : Server} {rest : List ServerAct}
    {log whole : List Act} (h : Serves first log last)
    (hserve : serve rest log last = some (whole, final)) :
    Serves first whole final := by
  induction rest generalizing log last with
  | nil =>
      rw [serve, Option.some.injEq, Prod.mk.injEq] at hserve
      obtain ⟨rfl, rfl⟩ := hserve
      exact h
  | cons act rest ih =>
      obtain ⟨next, hstep, hserve⟩ := Option.bind_eq_some_iff.mp hserve
      split_ifs at hserve with hrange
      exact ih (.step h hstep hrange) hserve

/-- A new store of one small buffer and connections that wait. -/
def waiting : Server where
  db := DataBase.tiny
  connections := fun _ => ⟨[], .recv⟩
  exited := false

/-- A `Put` on one connection up to its reply, and a `Get` on another. -/
def putThenGet : List ServerAct :=
  [.recv 0 [80, 117, 116, 1, 97, 1, 1], .add 0, .recv 1 [71, 101, 116, 1, 97]]

theorem replies_linearizable_put_get :
    ∃ called last past log, Serves waiting past called ∧
      Serves called log last ∧ Act.add .put [97] [1] ∈ past ∧
      (last.connections 1).pc = .send ⟨.get, [97], []⟩ [1] ∧
      ∃ seen, [1] = (lastWrite [97] seen).getD [] := by
  have hrun : (serve putThenGet [] waiting).any (fun found =>
      decide (found.2.db.InRange ∧
        (found.2.connections 0).pc = .send ⟨.put, [97], [1]⟩ okMsg ∧
        (found.2.connections 1).pc = .call ⟨.get, [97], []⟩) &&
      (serve [.buffers 1] [] found.2).any (fun final =>
        decide ((final.2.connections 1).pc = .send ⟨.get, [97], []⟩ [1] ∧
          (∀ act ∈ found.1 ++ final.1, act.Plain) ∧
          ∀ act ∈ found.1 ++ final.1, act.adds = true))) = true := by
    decide +kernel
  obtain ⟨⟨past, called⟩, hpast, hrest⟩ := (Option.any_eq_true _ _).mp hrun
  rw [Bool.and_eq_true, decide_eq_true_eq] at hrest
  obtain ⟨⟨hrange, hsent, hcall⟩, hrest⟩ := hrest
  obtain ⟨⟨log, last⟩, hlog, hlast⟩ := (Option.any_eq_true _ _).mp hrest
  obtain ⟨hsend, hplain, hadds⟩ := of_decide_eq_true hlast
  have hserves : Serves waiting past called :=
    serves_of_serve (.start (by decide +kernel)) hpast
  have hmore : Serves called log last := serves_of_serve (.start hrange) hlog
  obtain ⟨hacked, hreplies⟩ := replies_linearizable (by decide) rfl
    (fun _ => rfl) hserves hmore hplain
    (fun hmem => absurd (hadds _ hmem) (by decide))
  obtain ⟨_, _, _, _, seen, _, _, _, hseen, _⟩ :=
    hreplies 1 _ _ hcall rfl hsend
  exact ⟨called, last, past, log, hserves, hmore,
    (hacked 0 _ _ hsent (by decide)).2, hsend, seen, hseen⟩

end Server

end SimpleKV
