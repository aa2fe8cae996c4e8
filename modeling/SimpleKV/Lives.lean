/-
The lives of a data folder.  A store is stopped and started again on what its
files hold; the buffers are lost.  Because writes reach the files in the order
they were made, what survives a life is a prefix of its writes, and reads of the
next life continue from there.
-/
import SimpleKV.Pipeline
import SimpleKV.Reopen

namespace SimpleKV

namespace DataBase

/-- The steps of the earlier lives of a data folder, oldest first, the steps of
the present one and its state.  A life ends with no flush and no compaction
under way, and the next one starts from the folder. -/
inductive Lives : List (List Act) → List Act → DataBase → Prop
  | first (bufferSize : UInt32) {capacity : Nat} (hpos : 0 < capacity)
      (limit : Nat) {acts : List Act} {db : DataBase} :
      Reaches InRange (.start bufferSize (.empty capacity hpos) (.new limit))
        acts db → Lives [] acts db
  | next {earlier : List (List Act)} {acts : List Act} {last : DataBase}
      (sort : StorageEngine.BoundSort) {listing : List Name}
      (bufferSize : UInt32) {capacity : Nat} (hpos : 0 < capacity)
      (limit : Nat) {engine : StorageEngine} {more : List Act}
      {db : DataBase} : Lives earlier acts last →
      last.store.flight = .none → last.store.phase = .ready →
      Lists listing last.store.engine.folder →
      StorageEngine.ofFolder sort limit last.store.engine.folder listing =
        some engine →
      Reaches InRange (.start bufferSize (.empty capacity hpos) engine) more
        db → Lives (earlier ++ [acts]) more db

end DataBase

/-- A history made of a prefix of each life. -/
def Survives (lives : List (List Act)) (log : List Act) : Prop :=
  ∃ kept, List.Forall₂ (fun part life => part <+: life) kept lives ∧
    log = kept.flatten

theorem Survives.nil : Survives [] [] := ⟨[], .nil, rfl⟩

theorem Survives.snoc {lives : List (List Act)} {log acts kept : List Act}
    (h : Survives lives log) (hkept : kept <+: acts) :
    Survives (lives ++ [acts]) (log ++ kept) := by
  obtain ⟨all, hall, rfl⟩ := h
  exact ⟨all ++ [kept], List.rel_append hall (.cons hkept .nil), by simp⟩

theorem Survives.mem {lives : List (List Act)} {log : List Act}
    (h : Survives lives log) {act : Act} (hact : act ∈ log) :
    ∃ life ∈ lives, act ∈ life := by
  obtain ⟨all, hall, rfl⟩ := h
  obtain ⟨kept, hkept, hmem⟩ := List.mem_flatten.mp hact
  clear hact
  induction hall with
  | nil => exact absurd hkept (by simp)
  | @cons first life _ _ hhead _ ih =>
      rcases List.mem_cons.mp hkept with rfl | hrest
      · exact ⟨life, List.mem_cons_self, hhead.subset hmem⟩
      · obtain ⟨other, hother, hin⟩ := ih hrest
        exact ⟨other, List.mem_cons_of_mem _ hother, hin⟩

/-- A write, if it is one, is shorter than 2^32 and not a tombstone. -/
def Act.Plain : Act → Prop
  | .add order name value => name.length < 2 ^ 32 ∧ value.length < 2 ^ 32 ∧
      DataBase.orderValue order value ≠ tombValue
  | _ => True

instance Act.Plain.decidable : ∀ act : Act, Decidable act.Plain
  | .add _ _ _ => inferInstanceAs (Decidable (_ ∧ _ ∧ _))
  | .addNotify | .getFiles _ | .clearCache | .flushLoop | .setIdle
  | .flushTest | .flushPark | .flushWake | .flushCheck | .newFile | .write _
  | .clear | .cacheSet | .addFile | .compactLoop | .compactPark
  | .compactWake | .compactCheck | .compactReturn | .call _ | .select
  | .merge _ _ | .update | .remove | .finish | .shutDown | .shutNotifyFlush
  | .shutNotifyCompact => isTrue trivial

/-- All writes of all lives are such. -/
def PlainLives (lives : List (List Act)) : Prop :=
  ∀ acts ∈ lives, ∀ act ∈ acts, act.Plain

instance PlainLives.decidable (lives : List (List Act)) :
    Decidable (PlainLives lives) :=
  inferInstanceAs (Decidable (∀ acts ∈ lives, ∀ act ∈ acts, act.Plain))

theorem Act.Plain.writes_ne {act : Act} (h : act.Plain) (key : Bytes) :
    act.writes key ≠ some tombValue := by
  cases act with
  | add order name value =>
      rw [Act.writes]
      split_ifs
      · exact fun hvalue => h.2.2 (Option.some.inj hvalue)
      · simp
  | _ => simp [Act.writes]

namespace PlainLives

variable {lives : List (List Act)} {acts more : List Act}

theorem short (h : PlainLives lives) (hacts : acts ∈ lives) :
    ShortWrites acts := fun _ _ _ hmem =>
  ⟨(h acts hacts _ hmem).1, (h acts hacts _ hmem).2.1⟩

theorem live (h : PlainLives lives) (hacts : acts ∈ lives) :
    LiveWrites acts := fun act hmem => (h acts hacts act hmem).writes_ne

theorem survives {log : List Act} (h : PlainLives lives)
    (hlog : Survives lives log) : LiveWrites log := by
  intro act hact
  obtain ⟨life, hlife, hmem⟩ := hlog.mem hact
  exact h.live hlife act hmem

theorem init (h : PlainLives (lives ++ [acts])) : PlainLives lives :=
  fun life hlife => h life (List.mem_append_left _ hlife)

theorem shorten (h : PlainLives (lives ++ [acts ++ more])) :
    PlainLives (lives ++ [acts]) := by
  intro life hlife act hact
  rcases List.mem_append.mp hlife with hlife | hlife
  · exact h.init life hlife act hact
  · rw [List.mem_singleton] at hlife
    subst hlife
    exact h (life ++ more) (by simp) act (List.mem_append_left _ hact)

end PlainLives

namespace DataBase

namespace Lives

variable {earlier : List (List Act)} {acts : List Act} {db : DataBase}

theorem last (h : Lives earlier acts db) : db.InRange := by
  cases h with
  | first _ _ _ hrun => exact hrun.last
  | next _ _ _ _ _ _ _ _ _ hrun => exact hrun.last

/-- What the next life starts from. -/
theorem exists_engine {transit : Option File} (hstore : StoreInv db transit)
    (hids : db.IdsFit) (hflight : db.store.flight = .none)
    (hphase : db.store.phase = .ready) (sort : StorageEngine.BoundSort)
    (limit : Nat) {listing : List Name}
    (hlisting : Lists listing db.store.engine.folder) :
    ∃ engine, StorageEngine.ofFolder sort limit db.store.engine.folder
        listing = some engine ∧
      (∀ key, engine.lookup key = db.store.engine.lookup key) ∧
      ∀ bufferSize cache,
        StoreInv (.start bufferSize cache engine) none := by
  have hinv := hstore.engine.levels
  have hdisk := hstore.engine.onDisk_of_ready hflight hphase
  obtain ⟨engine, hopen, hfolder, hreopened⟩ :=
    hdisk.exists_ofFolder hids sort limit hlisting
  refine ⟨engine, hopen, fun key => Option.ext fun value => ?_,
    fun bufferSize cache => ⟨.start _ _ _,
      .ofReopened hreopened hinv hdisk hfolder, trivial⟩⟩
  rw [(hreopened.searchable hdisk).lookup_eq_some_iff,
    hinv.searchable.lookup_eq_some_iff]
  exact Recency.Layout.reads_congr fun file _ => hreopened.mem_files

/-- The invariants hold in every life. -/
theorem invariants (h : Lives earlier acts db) :
    (∃ transit, StoreInv db transit) ∧ CacheInv db.store db.cache := by
  induction h with
  | first _ _ _ hrun => exact invariants_run hrun
  | next sort bufferSize hpos limit hlast hflight hphase hlisting hopen hrun
      ih =>
      obtain ⟨⟨transit, hstore⟩, _⟩ := ih
      obtain ⟨engine, hopen', _, hstart⟩ := exists_engine hstore hlast.last.1
        hflight hphase sort limit hlisting
      rw [hopen, Option.some.injEq] at hopen'
      subst hopen'
      exact invariants_reaches ⟨none, hstart bufferSize _⟩ (.empty _ _ hpos)
        hrun

/-- The present life continues a history of which earlier lives left a prefix
each. -/
theorem exists_segments (h : Lives earlier acts db)
    (hplain : PlainLives (earlier ++ [acts])) :
    ∃ log, Survives earlier log ∧ ∃ s : Segments, s.Of db ∧
      s.all = log ++ acts ∧ log <+: s.installed := by
  induction h with
  | @first bufferSize capacity hpos limit acts db hrun =>
      have hshort : ShortWrites acts := hplain.short (by simp)
      have hlive : LiveWrites acts := hplain.live (by simp)
      have hstarted : Segments.Of ⟨[], [], [], []⟩
          (.start bufferSize (.empty capacity hpos) (.new limit)) :=
        Segments.of_start (fun _ => rfl) _ _
      obtain ⟨s, hof, hadvances⟩ :=
        hstarted.reaches ⟨none, .start _ _ _⟩ hrun hshort hlive
      exact ⟨[], .nil, s, hof, hadvances.all, List.nil_prefix⟩
  | @next earlier acts last sort listing bufferSize capacity hpos limit engine
      more db hlast hflight hphase hlisting hopen hrun ih =>
      obtain ⟨⟨transit, hstore⟩, _⟩ := hlast.invariants
      obtain ⟨engine', hopen', hlookup, hstart⟩ := exists_engine hstore
        hlast.last.1 hflight hphase sort limit hlisting
      rw [hopen, Option.some.injEq] at hopen'
      subst hopen'
      obtain ⟨log, hlog, s, hof, hall, hinstalled⟩ :=
        ih hplain.init
      obtain ⟨kept, hkept⟩ := hinstalled
      have hprefix : kept <+: acts := by
        have hsplit : log ++ acts = log ++ kept ++
            (s.passing ++ s.swapped ++ s.income) := by
          rw [← hall, hkept]
          simp [Segments.all]
        rw [List.append_assoc, List.append_cancel_left_eq] at hsplit
        exact ⟨_, hsplit.symm⟩
      have hsurvives := hlog.snoc hprefix
      have hshort : ShortWrites more := hplain.short (by simp)
      have hlive : LiveWrites more := hplain.live (by simp)
      have hbase : LiveWrites (log ++ kept) := hplain.init.survives hsurvives
      have hstarted : Segments.Of ⟨log ++ kept, [], [], []⟩
          (.start bufferSize (.empty capacity hpos) engine) := by
        refine Segments.of_start (fun key => ?_) _ _
        rw [hlookup, hof.installed, hkept]
      obtain ⟨s', hof', hadvances⟩ := hstarted.reaches
        ⟨none, hstart bufferSize _⟩ hrun hshort (fun act hmem => by
          rcases List.mem_append.mp hmem with hmem | hmem
          · exact hbase act (by simpa [Segments.all] using hmem)
          · exact hlive act hmem)
      exact ⟨log ++ kept, hsurvives, s', hof',
        by simpa [Segments.all] using hadvances.all, hadvances.installed⟩

end Lives

/-- A prefix of the later history that goes beyond the silent end of an earlier
one reads a key as the earlier one does, or as a longer one. -/
theorem exists_seen {key : Bytes} {top silent installed whole : List Act}
    (hsilent : lastWrite key silent = none) (htop : top <+: installed)
    (hinstalled : installed <+: whole) (hwhole : top ++ silent <+: whole) :
    ∃ seen, top ++ silent <+: seen ∧ seen <+: whole ∧
      lastWrite key installed = lastWrite key seen := by
  rcases List.prefix_or_prefix_of_prefix hwhole hinstalled with hle | hle
  · exact ⟨installed, hle, hinstalled, rfl⟩
  · refine ⟨top ++ silent, List.prefix_refl _, hwhole, ?_⟩
    obtain ⟨rest, rfl⟩ := htop
    have hrest := lastWrite_eq_none_of_prefix
      ((List.prefix_append_right_inj top).mp hle) hsilent
    rw [lastWrite_append, lastWrite_append, hrest, hsilent]

/-- The buffers of one state and, for a key they do not have, the files of a
later one give the last write of a history: a prefix of all steps, from the
first state on unless the key is hidden there and not installed in between. -/
theorem exists_read {s s' : Segments} {first second : DataBase}
    {between : List Act} (hof : s.Of first) (hof' : s'.Of second)
    (hadvances : s.Advances s' between) (key : Bytes) :
    ∃ seen, seen <+: s.all ++ between ∧
      (first.buffer.newest key).or (second.store.engine.lookup key) =
        lastWrite key seen ∧
      ((∀ value, ¬ first.Hidden (key, value)) ∨ .addFile ∈ between →
        s.all <+: seen) := by
  have hinstalled : s'.installed <+: s.all ++ between := by
    rw [← hadvances.all, Segments.all, List.append_assoc, List.append_assoc]
    exact List.prefix_append _ _
  cases hnewest : first.buffer.newest key with
  | some value =>
      refine ⟨s.all, List.prefix_append _ _, ?_, fun _ => List.prefix_refl _⟩
      rw [hof.newest] at hnewest
      rw [Option.some_or, Segments.all, List.append_assoc, lastWrite_append,
        hnewest, Option.some_or]
  | none =>
      rw [Option.none_or, hof'.installed]
      rw [hof.newest] at hnewest
      by_cases hshown : (∀ value, ¬ first.Hidden (key, value)) ∨
          .addFile ∈ between
      · have hseen : ∃ seen, s.all <+: seen ∧ seen <+: s.all ++ between ∧
            lastWrite key s'.installed = lastWrite key seen := by
          rcases hshown with hshown | hadded
          · have hpassing := hof.passing_eq_none_of_shown hshown
            have hsilent : lastWrite key
                (s.passing ++ (s.swapped ++ s.income)) = none := by
              rw [lastWrite_append, hnewest, hpassing, Option.none_or]
            have hsplit : s.all =
                s.installed ++ (s.passing ++ (s.swapped ++ s.income)) := by
              simp [Segments.all]
            rw [hsplit] at hinstalled ⊢
            exact exists_seen hsilent hadvances.installed hinstalled
              (List.prefix_append _ _)
          · have hsplit : s.all =
                (s.installed ++ s.passing) ++ (s.swapped ++ s.income) := by
              simp [Segments.all]
            rw [hsplit] at hinstalled ⊢
            exact exists_seen hnewest (hadvances.added hadded) hinstalled
              (List.prefix_append _ _)
        obtain ⟨seen, hpast, hwhole, hlast⟩ := hseen
        exact ⟨seen, hwhole, hlast, fun _ => hpast⟩
      · exact ⟨s'.installed, hinstalled, rfl, fun h => absurd h hshown⟩

/-- So does a `Get` that looks at the buffers in the first state and at the
files in the second. -/
theorem exists_getBetween {s : Segments} {first second : DataBase}
    {transit : Option File} {between : List Act} (hof : s.Of first)
    (hstore : StoreInv first transit)
    (hcache : CacheInv first.store first.cache)
    (hbetween : Reaches InRange first between second)
    (hshort : ShortWrites between) (hlive : LiveWrites (s.all ++ between))
    (hopen : first.isStop = false) {key : Bytes}
    (hprobe : StorageBuffer.ProbeFits key) :
    ∃ seen, seen <+: s.all ++ between ∧
      getBetween key first second = some (lastWrite key seen) ∧
      ((∀ value, ¬ first.Hidden (key, value)) ∨ .addFile ∈ between →
        s.all <+: seen) := by
  obtain ⟨⟨transit', hstore'⟩, hcache'⟩ :=
    invariants_reaches ⟨transit, hstore⟩ hcache hbetween
  obtain ⟨s', hof', hadvances⟩ :=
    hof.reaches ⟨transit, hstore⟩ hbetween hshort hlive
  obtain ⟨seen, hwhole, hread, hpast⟩ := exists_read hof hof' hadvances key
  refine ⟨seen, hwhole, ?_, hpast⟩
  rw [getBetween_eq hstore hstore' hcache' hbetween.last hopen hprobe, hread]

/-- A `Get` looks at the buffers in one state and at the files in a later one,
with anything in between, in any life of the folder and with no tombstone ever
written.  It returns the last write to its key in a history that the store had:
a prefix of all that was written, the earlier lives reduced to a prefix each.
That history is one of the present, from the first state on, unless at the first
state the key is only in the flush thread's file and that file is not installed
before the second. -/
theorem get_linearizable {earlier : List (List Act)} {past between : List Act}
    {first second : DataBase} (hfirst : Lives earlier past first)
    (hbetween : Reaches InRange first between second)
    (hplain : PlainLives (earlier ++ [past ++ between]))
    (hopen : first.isStop = false) {key : Bytes}
    (hprobe : StorageBuffer.ProbeFits key) :
    ∃ log seen, Survives earlier log ∧ seen <+: log ++ past ++ between ∧
      getBetween key first second = some (lastWrite key seen) ∧
      ((∀ value, ¬ first.Hidden (key, value)) ∨ .addFile ∈ between →
        log ++ past <+: seen) := by
  have hshort : ShortWrites (past ++ between) := hplain.short (by simp)
  have hlive : LiveWrites (past ++ between) := hplain.live (by simp)
  obtain ⟨log, hlog, s, hof, hall, _⟩ :=
    hfirst.exists_segments hplain.shorten
  have hlog' : LiveWrites log := hplain.init.survives hlog
  obtain ⟨⟨transit, hstore⟩, hcache⟩ := hfirst.invariants
  have hwrites : LiveWrites (s.all ++ between) := by
    rw [hall, List.append_assoc]
    intro act hmem
    rcases List.mem_append.mp hmem with hmem | hmem
    · exact hlog' act hmem
    · exact hlive act hmem
  obtain ⟨seen, hwhole, hget, hpast⟩ := exists_getBetween hof hstore hcache
    hbetween hshort.of_append.2 hwrites hopen hprobe
  rw [hall] at hwhole hpast
  exact ⟨log, seen, hlog, hwhole, hget, hpast⟩

/-- A `Get` of a key during which the key is written again and flushed. -/
theorem get_linearizable_two_flushes :
    ∃ first second log seen,
      Lives [] (writeAndFlush .put [97] [1]) first ∧
      Reaches InRange first (writeAndFlush .put [97] [2]) second ∧
      getBetween [97] first second = some (lastWrite [97] seen) ∧
      log ++ writeAndFlush .put [97] [1] <+: seen := by
  obtain ⟨first, hfirst, hopen, halong, hafter⟩ := exists_reaches
    (show Along (fun db _ => db.InRange) (writeAndFlush .put [97] [1])
      tiny by decide +kernel)
    (show (run (writeAndFlush .put [97] [1]) tiny).any (fun first =>
      decide (first.InRange ∧ first.isStop = false ∧
        Along (fun db _ => db.InRange) (writeAndFlush .put [97] [2]) first ∧
        (run (writeAndFlush .put [97] [2]) first).any (fun second =>
          decide (second.InRange ∧ True)) = true)) = true by decide +kernel)
  obtain ⟨second, hsecond, _⟩ := exists_reaches halong hafter
  have hlives : Lives [] (writeAndFlush .put [97] [1]) first :=
    .first 0 (by decide) 1 hfirst
  obtain ⟨log, seen, _, _, hget, hpast⟩ := get_linearizable hlives hsecond
    (show PlainLives _ by decide) hopen
    (show (encodeString [97]).length < 2 ^ 31 by decide)
  exact ⟨first, second, log, seen, hlives, hsecond, hget,
    hpast (Or.inr (by simp [writeAndFlush]))⟩

/-- In any life of a folder, with no tombstone ever written, there is a history
of a prefix of each earlier life such that: while the store runs and no flush
hides a key, `Get` returns the last write of that history followed by the
present life; and when the present life stops with no flush and no compaction
under way, for every listing of the folder the next one starts with the last
writes of that history followed by a prefix of the present life, the rest being
what the two buffers hold. -/
theorem restart_keeps_prefix {earlier : List (List Act)} {acts : List Act}
    {db : DataBase} (h : Lives earlier acts db)
    (hplain : PlainLives (earlier ++ [acts])) :
    ∃ log, Survives earlier log ∧
      (∀ key, db.isStop = false → StorageBuffer.ProbeFits key →
        (∀ value, ¬ db.Hidden (key, value)) →
        ∃ db', db.get key = some (lastWrite key (log ++ acts), db')) ∧
      (db.store.flight = .none → db.store.phase = .ready →
        ∀ (sort : StorageEngine.BoundSort) (limit : Nat) (listing : List Name),
          Lists listing db.store.engine.folder →
          ∃ engine kept lost, StorageEngine.ofFolder sort limit
              db.store.engine.folder listing = some engine ∧
            acts = kept ++ lost ∧
            (∀ key, engine.lookup key = lastWrite key (log ++ kept)) ∧
            ∀ key, db.buffer.newest key = lastWrite key lost) := by
  obtain ⟨log, hlog, s, hof, hall, kept, hkept⟩ := h.exists_segments hplain
  obtain ⟨⟨transit, hstore⟩, hcache⟩ := h.invariants
  refine ⟨log, hlog, fun key hopen hprobe hshown => ?_,
    fun hflight hphase sort limit listing hlisting => ?_⟩
  · obtain ⟨db', hget⟩ := hstore.get_eq hcache h.last hopen hprobe
    refine ⟨db', ?_⟩
    rw [hget, hof.newest, hof.installed, ← hall, Segments.all,
      List.append_assoc, lastWrite_append key (s.installed ++ s.passing),
      lastWrite_append key s.installed, hof.passing_eq_none_of_shown hshown,
      Option.none_or]
  · obtain ⟨engine, hopen, hlookup, _⟩ := Lives.exists_engine hstore h.last.1
      hflight hphase sort limit hlisting
    refine ⟨engine, kept, s.passing ++ (s.swapped ++ s.income), hopen, ?_,
      fun key => ?_, fun key => ?_⟩
    · have hsplit : log ++ acts =
          log ++ (kept ++ (s.passing ++ (s.swapped ++ s.income))) := by
        rw [← hall, ← List.append_assoc, hkept]
        simp [Segments.all]
      exact List.append_cancel_left hsplit
    · rw [hlookup, hof.installed, hkept]
    · -- Without a file of its own the flush thread carries nothing.
      have hpc : ¬ db.flushPc.Between := by
        intro hbetween
        have hinv := hstore.handoff.pc
        generalize db.flushPc = pc at hinv hbetween
        cases pc <;> simp_all [PcInv, FlushPc.Between]
      rw [hof.newest, lastWrite_append key s.passing,
        hof.passing_eq_none hpc, Option.or_none]

/-- One write flushed, one more left in the income buffer, and a restart. -/
def flushedAndLeft : List Act :=
  writeAndFlush .put [97] [1] ++ [.add .put [98] [2]]

theorem restart_keeps_prefix_flushed_and_left :
    ∃ db engine kept lost, Lives [] flushedAndLeft db ∧
      StorageEngine.ofFolder .insertion 1 db.store.engine.folder
        (listingOf db.store.engine.folder) = some engine ∧
      flushedAndLeft = kept ++ lost ∧
      (∀ key, engine.lookup key = lastWrite key kept) ∧
      lastWrite [98] lost = some [2] := by
  obtain ⟨db, hrun, hflight, hphase, hlists, hleft⟩ := exists_reaches
    (show Along (fun db _ => db.InRange) flushedAndLeft tiny by
      decide +kernel)
    (show (run flushedAndLeft tiny).any (fun db => decide (db.InRange ∧
      db.store.flight = .none ∧ db.store.phase = .ready ∧
      (listingOf db.store.engine.folder).filter
        (fun name => decide (name.head? ≠ some '.')) =
          db.store.engine.folder.keys ∧
      db.buffer.newest [98] = some [2])) = true by decide +kernel)
  have hlives : Lives [] flushedAndLeft db := .first 0 (by decide) 1 hrun
  obtain ⟨log, ⟨parts, hparts, rfl⟩, _, hstop⟩ := restart_keeps_prefix hlives
    (show PlainLives _ by decide)
  cases hparts
  obtain ⟨engine, kept, lost, hopen, hsplit, hlookup, hlost⟩ := hstop hflight
    hphase .insertion 1 _ (show Lists (listingOf db.store.engine.folder) _ from
      List.Perm.of_eq hlists)
  exact ⟨db, engine, kept, lost, hlives, hopen, hsplit, hlookup,
    (hlost [98]).symm.trans hleft⟩

end DataBase

end SimpleKV
