/-
`DataBase`: clients, the flush thread, the compaction thread and `ShutDown`
over one buffer, one engine and one cache.  A step is what one thread does
between two points where another can interfere.
-/
import SimpleKV.StorageBuffer
import SimpleKV.LRUCache
import SimpleKV.Compaction

namespace SimpleKV

inductive OrderType where
  | put
  | delete
  | get
deriving DecidableEq

/-- Where `ProcessingLoopFlushBuffer` stands.  `park` is between the loop test
and the wait of `Event::Wait`. -/
inductive FlushPc where
  | loop
  | setIdle
  | test
  | park
  | parked
  | check
  | newFile
  | write
  | clear (keyOffset : KeyOffset)
  | cacheSet (keyOffset : KeyOffset)
  | addFile
  | done
deriving DecidableEq

/-- Where `ProcessingLoopCompact` stands. -/
inductive CompactPc where
  | loop
  | park
  | parked
  | check
  | compacting
  | done
deriving DecidableEq

/-- Where `ShutDown` stands. -/
inductive ShutPc where
  | running
  | stopping
  | notifiedFlush
  | notified
deriving DecidableEq

/-- The whole store.  `notifying` says that an `Add` holds the buffer mutex
between its swap and its `Notify`. -/
structure DataBase where
  buffer : StorageBuffer
  store : EngineState
  cache : LRUCache
  isStop : Bool
  notifying : Bool
  flushPc : FlushPc
  compactPc : CompactPc
  shutPc : ShutPc

/-- A step of some thread. -/
inductive Act where
  /-- `DataBase::Add` up to the swap. -/
  | add (order : OrderType) (key value : Bytes)
  /-- The `Notify` of an `Add` that swapped. -/
  | addNotify
  /-- The file part of a `Get`, under the read lock. -/
  | getFiles (key : Bytes)
  | clearCache
  | flushLoop
  | setIdle
  | flushTest
  | flushPark
  /-- A spurious wake-up. -/
  | flushWake
  | flushCheck
  | newFile
  | write (iter : IterOrder)
  | clear
  | cacheSet
  | addFile
  | compactLoop
  | compactPark
  | compactWake
  | compactCheck
  | compactReturn
  /-- Some caller enters `Compact(level_id)`. -/
  | call (levelId : Nat)
  | select
  | merge (queue : PriorityQueue) (iter : IterOrder)
  | update
  | remove
  | finish
  | shutDown
  | shutNotifyFlush
  | shutNotifyCompact

namespace DataBase

/-- A store over an engine, just after `Start`. -/
def start (bufferSize : UInt32) (cache : LRUCache) (engine : StorageEngine) :
    DataBase where
  buffer := .new bufferSize
  store := .start engine
  cache
  isStop := false
  notifying := false
  flushPc := .loop
  compactPc := .loop
  shutPc := .running

/-- `DataBase::Add` replaces the value of a `Delete` by the tombstone. -/
def orderValue (order : OrderType) (value : Bytes) : Bytes :=
  if order = .delete then tombValue else value

/-- `DataBase::Add`. -/
def add (order : OrderType) (key value : Bytes) (db : DataBase) :
    Option DataBase :=
  if db.notifying then none
  else do
    let (buffer, notifying) ← db.buffer.add (.ofString key)
      (.ofString (orderValue order value))
    some { db with buffer, notifying }

/-- One file of the loop of `DataBase::Get`: the key's offset, from the cache or
from a freshly loaded table.  Offset 0 stands for a key the file does not
have. -/
def fileOffset (filesMap : AList fun _ : Int => File) (key : Bytes)
    (file : File) (cache : LRUCache) : Option (UInt32 × LRUCache) :=
  let ((offset, ifExists), cache) := cache.get file.fileId key
  if ifExists then some (offset, cache)
  else do
    let mapped ← filesMap.lookup file.fileId
    let keyOffset ← loadKeyOffset mapped
    some ((keyOffset.lookup key).getD 0, cache.set file.fileId keyOffset)

/-- The file loop of `DataBase::Get`: `some value` is status 0, `none` is
-1. -/
def searchFiles (filesMap : AList fun _ : Int => File) (key : Bytes) :
    List File → LRUCache → Option (Option Bytes × LRUCache)
  | [], cache => some (none, cache)
  | file :: files, cache => do
      let (offset, cache) ← fileOffset filesMap key file cache
      if offset = 0 then searchFiles filesMap key files cache
      else do
        let mapped ← filesMap.lookup file.fileId
        let value ← getValueByOffset mapped offset
        some (some value, cache)

/-- The part of `DataBase::Get` under the read lock. -/
def getFiles (key : Bytes) (db : DataBase) :
    Option (Option Bytes × DataBase) := do
  let engine := db.store.engine
  let (value, cache) ← searchFiles engine.filesMap key
    (engine.getContainsFiles key).flatten db.cache
  some (value, { db with cache })

/-- `DataBase::Get` without interruption. -/
def get (key : Bytes) (db : DataBase) : Option (Option Bytes × DataBase) :=
  if db.isStop then some (none, db)
  else
    match db.buffer.get key with
    | none => none
    | some (some value) => some (some value, db)
    | some none => db.getFiles key

/-- `Notify` on `event_flush_buffer_`. -/
def notifyFlush (db : DataBase) : DataBase :=
  match db.flushPc with
  | .parked => { db with flushPc := .test }
  | _ => db

/-- `Notify` on `event_compact_`. -/
def notifyCompact (db : DataBase) : DataBase :=
  match db.compactPc with
  | .parked => { db with compactPc := .check }
  | _ => db

/-- A step of the engine alone. -/
def onStore (f : EngineState → Option EngineState) (db : DataBase) :
    Option DataBase :=
  (f db.store).map fun store => { db with store }

/-- One step; `none` when the thread is not at that point, when it waits for
the buffer mutex, or when the process dies. -/
def step : Act → DataBase → Option DataBase
  | .add order key value, db => db.add order key value
  | .addNotify, db =>
      if db.notifying then some { db.notifyFlush with notifying := false }
      else none
  | .getFiles key, db => (db.getFiles key).map Prod.snd
  | .clearCache, db => some { db with cache := db.cache.clear }
  | .flushLoop, db =>
      match db.flushPc with
      | .loop =>
          some { db with flushPc := if db.isStop then .done else .setIdle }
      | _ => none
  | .setIdle, db =>
      match db.flushPc with
      | .setIdle =>
          some
            { db with
              buffer := db.buffer.setFlushThreadIdle
              flushPc := .test }
      | _ => none
  | .flushTest, db =>
      match db.flushPc with
      | .test =>
          some
            { db with
              flushPc :=
                if !db.buffer.flushBufferReady && !db.isStop then .park
                else .check }
      | _ => none
  | .flushPark, db =>
      match db.flushPc with
      | .park => some { db with flushPc := .parked }
      | _ => none
  | .flushWake, db =>
      match db.flushPc with
      | .parked => some { db with flushPc := .test }
      | _ => none
  | .flushCheck, db =>
      match db.flushPc with
      | .check =>
          some { db with flushPc := if db.isStop then .done else .newFile }
      | _ => none
  | .newFile, db =>
      match db.flushPc with
      | .newFile => do
          let store ← db.store.newFile
          some { db with store, flushPc := .write }
      | _ => none
  | .write iter, db =>
      match db.flushPc with
      | .write => do
          let (bytes, keyOffset) ← db.buffer.writeFlushBuffer iter
          let store ← db.store.write bytes
          some { db with store, flushPc := .clear keyOffset }
      | _ => none
  | .clear, db =>
      match db.flushPc, db.notifying with
      | .clear keyOffset, false =>
          some
            { db with
              buffer := db.buffer.clearFlushBuffer
              flushPc := .cacheSet keyOffset }
      | _, _ => none
  | .cacheSet, db =>
      match db.flushPc, db.store.flight with
      | .cacheSet keyOffset, .written id _ =>
          some
            { db with
              cache := db.cache.set id keyOffset
              flushPc := .addFile }
      | _, _ => none
  | .addFile, db =>
      match db.flushPc with
      | .addFile => do
          let store ← db.store.addFile
          let db := { db with store, flushPc := .loop }
          some (if store.engine.wantsCompaction then db.notifyCompact else db)
      | _ => none
  | .compactLoop, db =>
      match db.compactPc with
      | .loop =>
          some { db with compactPc := if db.isStop then .done else .park }
      | _ => none
  | .compactPark, db =>
      match db.compactPc with
      | .park => some { db with compactPc := .parked }
      | _ => none
  | .compactWake, db =>
      match db.compactPc with
      | .parked => some { db with compactPc := .check }
      | _ => none
  | .compactCheck, db =>
      match db.compactPc with
      | .check =>
          if db.isStop then some { db with compactPc := .done }
          else do
            let store ← db.store.call 0
            some { db with store, compactPc := .compacting }
      | _ => none
  | .compactReturn, db =>
      match db.compactPc with
      | .compacting =>
          if db.store.calls = [] ∧ db.store.phase = .ready then
            some { db with compactPc := .loop }
          else none
      | _ => none
  | .call levelId, db => db.onStore fun store => store.call levelId
  | .select, db => db.onStore fun store => store.select
  | .merge queue iter, db =>
      db.onStore fun store =>
        store.merge .debug queue iter db.buffer.bufferSize
  | .update, db => db.onStore fun store => store.update
  | .remove, db => db.onStore fun store => store.remove
  | .finish, db => db.onStore fun store => store.finish
  | .shutDown, db =>
      match db.shutPc with
      | .running => some { db with isStop := true, shutPc := .stopping }
      | _ => none
  | .shutNotifyFlush, db =>
      match db.shutPc with
      | .stopping => some { db.notifyFlush with shutPc := .notifiedFlush }
      | _ => none
  | .shutNotifyCompact, db =>
      match db.shutPc with
      | .notifiedFlush => some { db.notifyCompact with shutPc := .notified }
      | _ => none

/-- The steps of a list, one after the other. -/
def run (acts : List Act) (db : DataBase) : Option DataBase :=
  acts.foldlM (fun db act => step act db) db

/-- A run all of whose states satisfy `P`. -/
inductive Reaches (P : DataBase → Prop) (db : DataBase) :
    List Act → DataBase → Prop where
  | start : P db → Reaches P db [] db
  | step {acts : List Act} {act : Act} {last next : DataBase} :
      Reaches P db acts last → step act last = some next → P next →
      Reaches P db (acts ++ [act]) next

end DataBase

end SimpleKV
