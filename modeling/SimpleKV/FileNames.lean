/-
File names over the life of a data folder.  The writer keeps eight digits of an
id that the counter draws from without bound: while the ids have eight digits a
name identifies its file and a new name is free, and no longer.
-/
import SimpleKV.Reopen
import SimpleKV.View

namespace SimpleKV

/-- The states of a store from its first start on in which `P` held all along:
a run, and after a stop with no flush and no compaction under way further runs
on the folder it left. -/
inductive DataBase.LifeWhile (P : DataBase → Prop) : DataBase → Prop
  | new (bufferSize : UInt32) (cache : LRUCache) (limit : Nat)
      {acts : List Act} {db : DataBase} :
      Reaches P (.start bufferSize cache (.new limit)) acts db →
      LifeWhile P db
  | reopen {last : DataBase} (sort : StorageEngine.BoundSort)
      {listing : List Name} (bufferSize : UInt32) (cache : LRUCache)
      (limit : Nat) {engine : StorageEngine} {acts : List Act}
      {db : DataBase} :
      LifeWhile P last → last.store.flight = .none →
      last.store.phase = .ready → Lists listing last.store.engine.folder →
      StorageEngine.ofFolder sort limit last.store.engine.folder listing =
        some engine →
      Reaches P (.start bufferSize cache engine) acts db → LifeWhile P db

namespace DataBase.LifeWhile

variable {P : DataBase → Prop} {db : DataBase}

theorem last (h : LifeWhile P db) : P db := by
  cases h with
  | new _ _ _ hrun => exact hrun.last
  | reopen _ _ _ _ _ _ _ _ _ hrun => exact hrun.last

theorem storeInv (hP : ∀ db, P db → db.IdsFit) (h : LifeWhile P db) :
    ∃ transit, StoreInv db transit := by
  induction h with
  | new _ _ _ hrun => exact exists_storeInv hP hrun
  | reopen sort bufferSize cache limit hlast hflight hphase hlisting hopen hrun
      ih =>
      obtain ⟨transit, hstore⟩ := ih
      have hdisk := hstore.engine.onDisk_of_ready hflight hphase
      obtain ⟨engine, hopen', hfolder, hreopened⟩ :=
        hdisk.exists_ofFolder (hP _ hlast.last) sort limit hlisting
      rw [hopen, Option.some.injEq] at hopen'
      subst hopen'
      exact StoreInv.reaches hP ⟨.start _ _ _,
        .ofReopened hreopened hstore.engine.levels hdisk hfolder, trivial⟩ hrun

end DataBase.LifeWhile

/-- A name with the next id is free while that id has eight digits. -/
theorem EngineInv.fileName_free {state : EngineState} {transit : Option File}
    (h : EngineInv state transit) (htop : state.engine.fileId + 1 < 10 ^ 8)
    {level : Nat} (hlevel : level < 2 ^ 31) :
    fileName level (state.engine.fileId + 1) ∉ state.engine.folder := by
  intro hname
  have hnonneg := h.top
  have hle := h.id_le_of_mem_folder (by omega) hname
    (parseFileName_fileName hlevel (by omega) htop)
  omega

theorem File.fileName_ofName {name : Name} {bytes : Bytes} {file : File}
    (h : File.ofName name bytes = some file) : file.fileName = name := by
  simp only [File.ofName, Option.bind_eq_bind, Option.bind_eq_some_iff,
    Option.some.injEq] at h
  obtain ⟨_, _, _, _, _, _, _, _, _, _, rfl⟩ := h
  rfl

/-- `TrivialMove` names the file after the next id. -/
theorem fileName_trivialMove {file moved : File}
    {engine engine' : StorageEngine}
    (hmove : trivialMove file engine = some (moved, engine')) :
    moved.fileName = fileName (file.levelId + 1) (engine.fileId + 1) := by
  simp only [trivialMove, StorageEngine.openFile, Option.bind_eq_bind,
    Option.bind_eq_some_iff, Option.some.injEq, Prod.mk.injEq] at hmove
  obtain ⟨_, _, _, ⟨_, _, hofName⟩, rfl, _⟩ := hmove
  exact File.fileName_ofName hofName

/-- A file name and its level and id: the name gives both back, and is the name
of no earlier id, exactly when the id has eight digits.  Such a name is the name
of no other eight-digit id; and when the id is the next one in the life of a
data folder whose ids so far had eight digits, neither `NewWritableFile` nor
`TrivialMove` gives it to a file while another has the name. -/
theorem file_names_identify {level : Nat} {id : Int} (hlevel : level < 2 ^ 31)
    (hnonneg : 0 ≤ id) :
    (parseFileName (fileName level id) = some (level, id) ↔ id < 10 ^ 8) ∧
    ((∀ other, 0 ≤ other → other < id →
      fileName level other ≠ fileName level id) ↔ id < 10 ^ 8) ∧
    (id < 10 ^ 8 → ∀ (level' : Nat) (id' : Int), level' < 2 ^ 31 → 0 ≤ id' →
      id' < 10 ^ 8 → fileName level id = fileName level' id' →
      level = level' ∧ id = id') ∧
    (id < 10 ^ 8 → ∀ db : DataBase, DataBase.LifeWhile DataBase.IdsFit db →
      db.store.engine.fileId + 1 = id →
      (db.store.engine.newWritableFile level).2.1 ∉ db.store.engine.folder ∧
      ∀ (file moved : File) (engine : StorageEngine),
        file.levelId + 1 = level →
        trivialMove file db.store.engine = some (moved, engine) →
        moved.fileName ∉ db.store.engine.folder) := by
  refine ⟨parseFileName_fileName_iff hlevel hnonneg, ⟨?_, ?_⟩, ?_, ?_⟩
  · intro hfirst
    by_contra hlong
    exact hfirst (id / 10) (by omega) (by omega)
      (fileName_of_le level (by omega)).symm
  · intro hshort other hother hlt hname
    have hsame := fileName_inj hlevel hlevel ⟨hother, by omega⟩
      ⟨hnonneg, hshort⟩ hname
    omega
  · intro hshort level' id' hlevel' hnonneg' hshort' hname
    exact fileName_inj hlevel hlevel' ⟨hnonneg, hshort⟩ ⟨hnonneg', hshort'⟩
      hname
  · rintro hshort db hlife rfl
    obtain ⟨transit, hinv⟩ := hlife.storeInv fun _ hids => hids
    refine ⟨hinv.engine.fileName_free hshort hlevel, ?_⟩
    rintro file moved engine rfl hmove
    rw [fileName_trivialMove hmove]
    exact hinv.engine.fileName_free hshort hlevel

/-- The id that is next after a merge and four flushes, in level 1: neither a
new file nor the move of a file of level 0 takes a name that is in use. -/
theorem file_names_identify_next :
    ∃ db file moved engine, DataBase.LifeWhile DataBase.IdsFit db ∧
      db.store.engine.folder.keys.length = 5 ∧
      db.store.engine.fileId + 1 = 7 ∧ file ∈ db.store.engine.level 0 ∧
      trivialMove file db.store.engine = some (moved, engine) ∧
      parseFileName (fileName 1 7) = some (1, 7) ∧
      (∀ other : Int, 0 ≤ other → other < 7 →
        fileName 1 other ≠ fileName 1 7) ∧
      (db.store.engine.newWritableFile 1).2.1 ∉ db.store.engine.folder ∧
      moved.fileName ∉ db.store.engine.folder := by
  obtain ⟨db, hrun, hfolder, hid, hmoves⟩ := DataBase.exists_reaches
    (show DataBase.Along (fun db _ => db.IdsFit) DataBase.mergeAndRewrite
      DataBase.tiny by decide +kernel)
    (show (DataBase.run DataBase.mergeAndRewrite DataBase.tiny).any (fun db =>
      decide (db.IdsFit ∧ db.store.engine.folder.keys.length = 5 ∧
        db.store.engine.fileId + 1 = 7 ∧
        (db.store.engine.level 0).head?.any (fun file =>
          decide (file.levelId = 0 ∧
            (trivialMove file db.store.engine).isSome = true)) = true)) = true
      by decide +kernel)
  obtain ⟨file, hfile, hmove⟩ := (Option.any_eq_true _ _).mp hmoves
  obtain ⟨hlevel, hmove⟩ := of_decide_eq_true hmove
  obtain ⟨⟨moved, engine⟩, hmove⟩ := Option.isSome_iff_exists.mp hmove
  obtain ⟨hparse, hfirst, _, hlife⟩ := file_names_identify
    (show 1 < 2 ^ 31 by decide) (show (0 : Int) ≤ 7 by decide)
  have hnew : DataBase.LifeWhile DataBase.IdsFit db := .new 0 _ 1 hrun
  obtain ⟨hfree, hmoved⟩ := hlife (by decide) db hnew hid
  exact ⟨db, file, moved, engine, hnew, hfolder, hid,
    List.mem_of_mem_head? hfile, hmove, hparse.mpr (by decide),
    hfirst.mpr (by decide), hfree,
    hmoved file moved engine (congrArg (· + 1) hlevel) hmove⟩

/-- The first id of nine digits gets the name of the ten-millionth. -/
theorem fileName_nine_digits :
    parseFileName (fileName 0 100000000) = some (0, 10000000) ∧
      parseFileName (fileName 0 100000000) ≠ some (0, 100000000) ∧
      fileName 0 100000000 = fileName 0 10000000 := by
  decide +kernel

end SimpleKV
