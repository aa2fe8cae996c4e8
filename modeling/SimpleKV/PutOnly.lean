/-
A store that only sees `Put` is a map.  Hand-offs count as single steps here;
compactions are taken apart, and everything else may happen between their
parts.
-/
import SimpleKV.Reads

namespace SimpleKV

/-- A step of its own: not a part of a hand-off, and not of `ShutDown`. -/
def Act.single : Act → Bool
  | .newFile | .write _ | .clear | .cacheSet | .addFile | .shutDown
  | .shutNotifyFlush | .shutNotifyCompact => false
  | _ => true

/-- Hand-offs run from `NewWritableFile` to `AddFile` without interruption. -/
def whole : List Act → Bool
  | [] => true
  | .newFile :: .write _ :: .clear :: .cacheSet :: .addFile :: acts =>
      whole acts
  | act :: acts => act.single && whole acts

namespace DataBase

variable {P : DataBase → Prop} {db db' : DataBase}

theorem idle_step_of_single {act : Act} (hact : act.single = true)
    (hidle : db.flushPc.Idle) (hstep : step act db = some db') :
    db'.flushPc.Idle := by
  cases step_data hstep with
  | control _ hsame =>
      rcases hsame.pc with hpc | ⟨_, hidle'⟩
      · exact hpc ▸ hidle
      · exact hidle'
  | getFiles hget =>
      obtain ⟨cache, rfl⟩ := getFiles_eq hget
      exact hidle
  | newFile _ _ => exact absurd hact (by decide)
  | write _ _ _ => exact absurd hact (by simp [Act.single])
  | clear _ _ => exact absurd hact (by decide)
  | cacheSet _ _ => exact absurd hact (by decide)
  | addFile _ _ => exact absurd hact (by decide)
  | _ => exact hidle

/-- After whole hand-offs the flush thread has no file of its own. -/
theorem idle_of_whole {acts : List Act} (hwhole : whole acts = true)
    (hidle : db.flushPc.Idle) (hrun : Reaches P db acts db') :
    db'.flushPc.Idle := by
  induction acts using whole.induct generalizing db with
  | case1 => exact hrun.nil ▸ hidle
  | case2 iter acts ih =>
      obtain ⟨_, _, hrun⟩ := hrun.cons
      obtain ⟨_, _, hrun⟩ := hrun.cons
      obtain ⟨_, _, hrun⟩ := hrun.cons
      obtain ⟨_, _, hrun⟩ := hrun.cons
      obtain ⟨next, hadd, hrun⟩ := hrun.cons
      refine ih hwhole ?_ hrun
      obtain ⟨_, _, _, rfl⟩ := step_addFile hadd
      trivial
  | case3 act acts hother ih =>
      rw [whole, Bool.and_eq_true] at hwhole
      · obtain ⟨next, hstep, hrun⟩ := hrun.cons
        exact ih hwhole.2 (idle_step_of_single hwhole.1 hidle hstep) hrun
      · exact hother

theorem shutDown_not_mem_of_whole {acts : List Act}
    (hwhole : whole acts = true) : .shutDown ∉ acts := by
  induction acts using whole.induct with
  | case1 => simp
  | case2 iter acts ih => simpa using ih hwhole
  | case3 act acts hother ih =>
      rw [whole, Bool.and_eq_true] at hwhole
      · rw [List.mem_cons]
        rintro (rfl | hmem)
        · exact absurd hwhole.1 (by decide)
        · exact ih hwhole.2 hmem
      · exact hother

end DataBase

/-- With no hand-off under way the buffers and the levels have everything. -/
theorem StoreInv.version_of_idle {db : DataBase} {transit : Option File}
    (h : StoreInv db transit) (hids : db.IdsFit) (hidle : db.flushPc.Idle)
    (key : Bytes) :
    db.version key =
      (db.buffer.newest key).or (db.store.engine.lookup key) := by
  have hflight : db.store.flight = .none := by
    have hpc := h.handoff.pc
    generalize db.flushPc = pc at hpc hidle
    cases pc <;> simp_all [PcInv, FlushPc.Idle]
  rw [DataBase.version, h.transit_eq_none hids (by simp [hflight]),
    Option.bind_none, Option.none_or]

namespace DataBase

/-- With `Put` as the only write, with whole hand-offs, and with all sizes and
ids in range: `Get` returns the value of the last `Put` to its key, and -1 for a
key never put, provided the key's encoding fits an `int`; a key that was put
always fits. -/
theorem get_eq_lastWrite (bufferSize : UInt32) (capacity limit : Nat)
    (hpos : 0 < capacity) {acts : List Act} {db : DataBase}
    (hrun : Reaches InRange
      (.start bufferSize (.empty capacity hpos) (.new limit)) acts db)
    (hwhole : whole acts = true)
    (hputs : ∀ order name value, .add order name value ∈ acts →
      order = .put ∧ value ≠ tombValue)
    (hshort : ShortWrites acts) (key : Bytes) :
    (∀ result db', db.get key = some (result, db') →
      result = lastWrite key acts) ∧
    ((∃ value, .add .put key value ∈ acts) ∨ StorageBuffer.ProbeFits key →
      ∃ db', db.get key = some (lastWrite key acts, db')) ∧
    (lastWrite key acts = none ↔ ∀ value, .add .put key value ∉ acts) := by
  obtain ⟨⟨transit, hstore⟩, hcache⟩ := invariants_run hrun
  have hstop : db.isStop = false :=
    isStop_between hrun (shutDown_not_mem_of_whole hwhole)
  have hidle : db.flushPc.Idle := by
    refine idle_of_whole hwhole ?_ hrun
    trivial
  have hversion : (db.buffer.newest key).or (db.store.engine.lookup key) =
      lastWrite key acts := by
    rw [← hstore.version_of_idle hrun.last.1 hidle key]
    obtain ⟨hnone, hlive⟩ := version_run hrun hshort key
    cases hlast : lastWrite key acts with
    | none => exact hnone hlast
    | some value =>
        obtain ⟨order, written, hmem, rfl⟩ := exists_mem_of_lastWrite hlast
        obtain ⟨rfl, hne⟩ := hputs order key written hmem
        exact hlive _ hlast hne
  have hget : StorageBuffer.ProbeFits key →
      ∃ db', db.get key = some (lastWrite key acts, db') := by
    intro hprobe
    rw [← hversion]
    exact hstore.get_eq hcache hrun.last hstop hprobe
  refine ⟨?_, ?_, ?_⟩
  · intro result db' hresult
    by_cases hprobe : StorageBuffer.ProbeFits key
    · obtain ⟨db'', hget⟩ := hget hprobe
      rw [hget, Option.some.injEq, Prod.mk.injEq] at hresult
      exact hresult.1.symm
    · simp [get, hstop, StorageBuffer.get_eq_none hprobe] at hresult
  · rintro (⟨value, hmem⟩ | hprobe)
    · exact hget (probeFits_of_mem hrun.run (hshort .put key value hmem).1
        hmem)
    · exact hget hprobe
  · rw [lastWrite_eq_none_iff]
    refine ⟨fun hnone value => hnone .put value, fun hnone order value hmem =>
      ?_⟩
    obtain ⟨rfl, _⟩ := hputs order key value hmem
    exact hnone value hmem

/-- Two versions of one key, a compaction of both that a hand-off interrupts,
and a read. -/
def interrupted : List Act :=
  twoVersions ++ [.call 0, .select] ++ writeAndFlush .put [97] [3] ++
    fourMerges.map (fun m => .merge m.1 m.2) ++
    [.getFiles [97], .update, .clearCache]

theorem get_eq_lastWrite_interrupted :
    ∃ db, (Reaches InRange tiny interrupted db ∧
      db.store.engine.files.length = 2) ∧
      ∃ db', db.get [97] = some (some [3], db') := by
  obtain ⟨db, hrun, htwo⟩ := exists_reaches
    (show Along (fun db _ => db.InRange) interrupted tiny by decide +kernel)
    (show (run interrupted tiny).any (fun db => decide (db.InRange ∧
      db.store.engine.files.length = 2)) = true by decide +kernel)
  have hmem : ∀ order name value, .add order name value ∈ interrupted →
      order = .put ∧ name = [97] ∧
        (value = [1] ∨ value = [2] ∨ value = [3]) := by
    intro order name value hmem
    simp [interrupted, twoVersions, writeAndFlush, fourMerges] at hmem
    tauto
  refine ⟨db, ⟨hrun, htwo⟩, (get_eq_lastWrite 0 1 1 (by decide) hrun
    (by decide) ?_ ?_ [97]).2.1 (Or.inl ⟨[3], by
      simp [interrupted, writeAndFlush]⟩)⟩
  · intro order name value hadd
    obtain ⟨rfl, _, rfl | rfl | rfl⟩ := hmem order name value hadd <;>
      exact ⟨rfl, by decide⟩
  · intro order name value hadd
    obtain ⟨_, rfl, rfl | rfl | rfl⟩ := hmem order name value hadd <;> decide

end DataBase

end SimpleKV
