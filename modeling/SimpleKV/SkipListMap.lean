/-
The skip list in memory refines the ordered sequence of `SkipList`: `Insert` is
the insertion into the sequence, both iterations walk it and a search finds the
entry of a key.  Whole sequences of insertions make it an ordered map in which
the last writer wins.
-/
import SimpleKV.SkipListInvariant

namespace SimpleKV

namespace SkipListNodes

variable {Key K : Type} [LinearOrder K] {compare : Key → Key → Ordering}
  {rank : Key → K} {list : SkipListNodes Key} {towers : List (Tower Key)}

/-- Keys strictly increase from tower to tower. -/
def Increasing (rank : Key → K) (towers : List (Tower Key)) : Prop :=
  towers.Pairwise fun left right => rank left.key < rank right.key

theorem exists_cut (hinc : Increasing rank towers) (key : Key) :
    ∃ before after, Cut rank key towers before after := by
  induction towers with
  | nil => exact ⟨[], [], rfl, by simp, by simp⟩
  | cons tower towers ih =>
      obtain ⟨hhead, htail⟩ := List.pairwise_cons.mp hinc
      by_cases hlt : rank tower.key < rank key
      · obtain ⟨before, after, hcut⟩ := ih htail
        refine ⟨tower :: before, after, by rw [hcut.split]; rfl, ?_,
          hcut.not_lt⟩
        simpa using ⟨hlt, hcut.lt⟩
      · refine ⟨[], tower :: towers, rfl, by simp, ?_⟩
        intro other hother
        rcases List.mem_cons.mp hother with rfl | hother
        · exact hlt
        · exact fun h => hlt ((hhead other hother).trans h)

/-- The first of the remaining towers is what a pointer at level 0 leads to. -/
theorem link_zero {rest : List (Tower Key)}
    (hpos : ∀ tower ∈ rest, 0 < tower.height) :
    link rest 0 = rest.head?.map Tower.addr := by
  cases rest with
  | nil => rfl
  | cons tower rest =>
      rw [link_cons_of_tall (hpos tower List.mem_cons_self)]
      rfl

theorem lastTall_zero {before : List (Tower Key)}
    (hpos : ∀ tower ∈ before, 0 < tower.height) :
    lastTall before 0 = (before.getLast?.map Tower.addr).getD head := by
  have hfilter : before.filter (fun tower => 0 < tower.height) = before := by
    rw [List.filter_eq_self]
    intro tower htower
    simpa using hpos tower htower
  rw [lastTall, hfilter]

/-- A search that ends at the head has found no tower. -/
theorem Holds.notHead_lastTall (h : Holds list towers)
    {before after : List (Tower Key)} (hsplit : towers = before ++ after) :
    notHead (lastTall before 0) = before.getLast?.map Tower.addr := by
  rw [lastTall_zero fun tower htower => h.height_pos tower (by
    rw [hsplit]
    exact List.mem_append_left _ htower)]
  cases hlast : before.getLast? with
  | none => rfl
  | some tower =>
      have hmem : tower.addr ∈ towers.map Tower.addr := by
        rw [hsplit]
        exact List.mem_map_of_mem (List.mem_append_left _
          (List.mem_of_getLast? hlast))
      have hne : tower.addr ≠ head := fun heq =>
        (List.nodup_cons.mp h.addrs).1 (heq ▸ hmem)
      simp [notHead, hne]

/-- Overwriting a key in place. -/
theorem Holds.setKey (h : Holds list towers) {before after : List (Tower Key)}
    {tower : Tower Key} (hsplit : towers = before ++ tower :: after)
    (key : Key) :
    ∃ list', list.setKey tower.addr key = some list' ∧
      Holds list' (before ++ { tower with key } :: after) := by
  obtain ⟨hkey, hnext⟩ := h.node before tower after hsplit
  obtain ⟨list', hset, hkey', hnext', hmax', hfresh'⟩ :=
    exists_setKey hkey key
  have hlink (front : List (Tower Key)) (level : Nat) :
      link (front ++ { tower with key } :: after) level =
        link (front ++ tower :: after) level := by
    simp only [link, List.find?_append, List.find?_cons]
    cases front.find? fun tower => level < tower.height with
    | some other => rfl
    | none => by_cases htall : level < tower.height <;> simp [htall]
  have hmap : (before ++ { tower with key } :: after).map Tower.addr =
      towers.map Tower.addr := by
    rw [hsplit]
    simp
  have hmem : ∀ other ∈ before ++ { tower with key } :: after,
      ∃ old ∈ towers, old.addr = other.addr ∧ old.height = other.height := by
    intro other hother
    rcases List.mem_append.mp hother with hother | hother
    · exact ⟨other, by rw [hsplit]; simp [hother], rfl, rfl⟩
    · rcases List.mem_cons.mp hother with rfl | hother
      · exact ⟨tower, by rw [hsplit]; simp, rfl, rfl⟩
      · exact ⟨other, by rw [hsplit]; simp [hother], rfl, rfl⟩
  refine ⟨list', hset, ?_, ?_, ?_, ?_, ?_, ?_, ?_, ?_, ?_⟩
  · intro level hlevel
    rw [hnext', h.head_next level hlevel, hsplit]
    exact congrArg some (hlink before level).symm
  · intro front other back heq
    have hother (hcut : ∃ start rest, towers = start ++ other :: rest)
        (hmem : other.addr ≠ tower.addr) : list'.key other.addr =
          some other.key := by
      obtain ⟨start, rest, hcut⟩ := hcut
      rw [hkey', Function.update_of_ne hmem, (h.node start other rest hcut).1]
    have hnodup := (List.nodup_cons.mp h.addrs).2
    rw [hsplit, List.map_append, List.map_cons] at hnodup
    rcases append_cons_cases heq with
      ⟨rfl, rfl⟩ | ⟨more, _, rfl⟩ | ⟨more, rfl, rfl⟩
    · rw [hkey', hnext']
      exact ⟨Function.update_self _ _ _, hnext⟩
    · have hcut : towers = (before ++ tower :: more) ++ other :: back := by
        rw [hsplit]
        simp
      refine ⟨hother ⟨_, _, hcut⟩ ?_, ?_⟩
      · intro haddr
        rw [List.nodup_append, List.nodup_cons] at hnodup
        exact hnodup.2.1.1 (by simp [← haddr])
      · rw [hnext']
        exact (h.node _ _ _ hcut).2
    · have hcut : towers = front ++ other :: (more ++ tower :: after) := by
        rw [hsplit]
        simp
      refine ⟨hother ⟨_, _, hcut⟩ ?_, ?_⟩
      · intro haddr
        rw [List.nodup_append] at hnodup
        exact hnodup.2.2 other.addr (by simp) tower.addr (by simp) haddr
      · intro level hlevel
        rw [hnext', (h.node _ _ _ hcut).2 level hlevel]
        exact congrArg some (hlink more level).symm
  · intro other hother
    obtain ⟨old, hold, _, hheight⟩ := hmem other hother
    exact hheight ▸ h.height_pos old hold
  · intro other hother
    obtain ⟨old, hold, _, hheight⟩ := hmem other hother
    exact hmax' ▸ hheight ▸ h.height_le old hold
  · exact hmax' ▸ h.maxHeight_pos
  · exact hmax' ▸ h.maxHeight_le
  · rw [hmap]
    exact h.addrs
  · intro other hother
    obtain ⟨old, hold, haddr, _⟩ := hmem other hother
    exact hfresh' ▸ haddr ▸ h.addr_lt old hold
  · rw [hfresh', h.fresh_eq, hsplit]
    simp

/-- A key goes behind the smaller ones of the sequence. -/
theorem insert_append {key : Key} {smaller others : List Key}
    (hlt : ∀ other ∈ smaller, compare other key = .lt) :
    SkipList.insert compare key (smaller ++ others) =
      smaller ++ SkipList.insert compare key others := by
  induction smaller with
  | nil => rfl
  | cons other smaller ih =>
      rw [List.cons_append, SkipList.insert, hlt other List.mem_cons_self]
      simp only
      rw [ih fun next hnext => hlt next (List.mem_cons_of_mem _ hnext)]
      rfl

/-- `Insert` refines the insertion into the sequence of keys. -/
theorem Holds.insert (h : Holds list towers) (hcompare : Orders compare rank)
    (hinc : Increasing rank towers) (key : Key) {height : Nat}
    (hpos : 0 < height) (hheight : height ≤ kMaxHeight) :
    ∃ list' towers', list.insert compare key height = some list' ∧
      Holds list' towers' ∧ Increasing rank towers' ∧
      towers'.map Tower.key =
        SkipList.insert compare key (towers.map Tower.key) := by
  obtain ⟨before, after, hcut⟩ := exists_cut hinc key
  have hfind := findGreaterOrEqual_eq h hcompare hcut
    (some (List.replicate kMaxHeight none))
  have hafterPos : ∀ tower ∈ after, 0 < tower.height := fun tower htower =>
    h.height_pos tower (by rw [hcut.split]; exact List.mem_append_right _ htower)
  rw [link_zero hafterPos] at hfind
  have hkeys : SkipList.insert compare key (towers.map Tower.key) =
      before.map Tower.key ++
        SkipList.insert compare key (after.map Tower.key) := by
    rw [hcut.split, List.map_append, insert_append]
    intro other hother
    obtain ⟨tower, htower, rfl⟩ := List.mem_map.mp hother
    exact (hcompare.lt_iff _ _).mpr (hcut.lt tower htower)
  rw [hcut.split, Increasing, List.pairwise_append] at hinc
  obtain ⟨hincBefore, hincAfter, hacross⟩ := hinc
  -- a new node behind the smaller towers
  have hsplice (hgt : ∀ tower ∈ after, rank key < rank tower.key) :
      ∃ list' towers', list.splice key (recordPrev before (list.maxHeight - 1)
          (List.replicate kMaxHeight none)) height = some list' ∧
        Holds list' towers' ∧ Increasing rank towers' ∧
        towers'.map Tower.key = before.map Tower.key ++
          key :: after.map Tower.key := by
    obtain ⟨list', hlist', hholds⟩ := h.splice hcut.split key hpos hheight
    refine ⟨list', _, hlist', hholds, ?_, by simp⟩
    rw [Increasing, List.pairwise_append, List.pairwise_cons]
    refine ⟨hincBefore, ⟨hgt, hincAfter⟩, ?_⟩
    intro left hleft right hright
    rcases List.mem_cons.mp hright with rfl | hright
    · exact hcut.lt left hleft
    · exact hacross left hleft right hright
  cases after with
  | nil =>
      obtain ⟨list', towers', hlist', hholds, hinc', hmap⟩ :=
        hsplice (by simp)
      refine ⟨list', towers', ?_, hholds, hinc', ?_⟩
      · simp only [SkipListNodes.insert, hfind, Option.bind_eq_bind,
          Option.bind_some, Option.map_some, List.head?_nil, Option.map_none]
        exact hlist'
      · rw [hmap, hkeys]
        rfl
  | cons tower after =>
      have hkey := (h.node before tower after hcut.split).1
      have hnlt := hcut.not_lt tower List.mem_cons_self
      rw [List.pairwise_cons] at hincAfter
      by_cases heq : compare tower.key key = .eq
      · -- the key is there: its entry is overwritten
        have hrank := (hcompare.eq_iff _ _).mp heq
        obtain ⟨list', hlist', hholds⟩ := h.setKey hcut.split key
        refine ⟨list', _, ?_, hholds, ?_, ?_⟩
        · simp only [SkipListNodes.insert, hfind, Option.bind_eq_bind,
            Option.bind_some, Option.map_some, List.head?_cons, hkey, heq,
            if_true]
          exact hlist'
        · rw [Increasing, List.pairwise_append, List.pairwise_cons]
          refine ⟨hincBefore, ⟨?_, hincAfter.2⟩, ?_⟩
          · intro other hother
            change rank key < rank other.key
            rw [← hrank]
            exact hincAfter.1 other hother
          · intro left hleft right hright
            rcases List.mem_cons.mp hright with rfl | hright
            · exact hcut.lt left hleft
            · exact hacross left hleft right (List.mem_cons_of_mem _ hright)
        · rw [hkeys, List.map_cons, SkipList.insert, heq]
          simp
      · have hne : rank tower.key ≠ rank key := fun hrank =>
          heq ((hcompare.eq_iff _ _).mpr hrank)
        have hfirst : rank key < rank tower.key :=
          lt_of_le_of_ne (not_lt.mp hnlt) hne.symm
        obtain ⟨list', towers', hlist', hholds, hinc', hmap⟩ := hsplice (by
          intro other hother
          rcases List.mem_cons.mp hother with rfl | hother
          · exact hfirst
          · exact hfirst.trans (hincAfter.1 other hother))
        refine ⟨list', towers', ?_, hholds, hinc', ?_⟩
        · simp only [SkipListNodes.insert, hfind, Option.bind_eq_bind,
            Option.bind_some, Option.map_some, List.head?_cons, hkey,
            if_neg heq]
          exact hlist'
        · have hgt : compare tower.key key = .gt := by
            cases hcase : compare tower.key key with
            | lt => exact absurd ((hcompare.lt_iff _ _).mp hcase) hnlt
            | eq => exact absurd hcase heq
            | gt => rfl
          rw [hmap, hkeys, List.map_cons, SkipList.insert, hgt]

/-- The nodes reached from the head at a level. -/
def level (list : SkipListNodes Key) (i fuel : Nat) : List Nat :=
  LinkedList.follow (fun x => (list.next x i).join) fuel head

theorem Holds.follow_eq (h : Holds list towers) :
    ∀ (fuel x i : Nat) (front rest : List (Tower Key)),
      towers = front ++ rest → Position front x i → rest.length ≤ fuel →
      LinkedList.follow (fun x => (list.next x i).join) fuel x =
        (rest.filter fun tower => i < tower.height).map Tower.addr := by
  intro fuel
  induction fuel with
  | zero =>
      intro x i front rest _ _ hfuel
      rw [List.length_eq_zero_iff.mp (Nat.le_zero.mp hfuel)]
      rfl
  | succ fuel ih =>
      intro x i front rest hsplit hpos hfuel
      have hnext := h.next_eq hsplit hpos
      cases hlink : link rest i with
      | none =>
          have hfilter : rest.filter (fun tower => i < tower.height) = [] := by
            simp only [link, Option.map_eq_none_iff, List.find?_eq_none] at hlink
            rw [List.filter_eq_nil_iff]
            exact hlink
          rw [hlink] at hnext
          simp [LinkedList.follow, hnext, hfilter]
      | some n =>
          obtain ⟨skipped, tower, back, rfl, rfl, htall, hskipped⟩ :=
            exists_of_link hlink
          have hfilter : skipped.filter (fun tower => i < tower.height) =
              [] := by
            rw [List.filter_eq_nil_iff]
            intro other hother
            simpa using hskipped other hother
          rw [hlink] at hnext
          have hrest := ih tower.addr i (front ++ skipped ++ [tower]) back
            (by rw [hsplit]; simp) (.tower htall)
            (by simp only [List.length_append, List.length_cons] at hfuel; omega)
          simp [LinkedList.follow, hnext, List.filter_append, hfilter, htall,
            hrest]

theorem Holds.level_eq (h : Holds list towers) {i fuel : Nat}
    (hi : i < kMaxHeight) (hfuel : towers.length ≤ fuel) :
    list.level i fuel =
      (towers.filter fun tower => i < tower.height).map Tower.addr :=
  h.follow_eq fuel head i [] towers rfl (.head hi) hfuel

theorem Holds.enumerate_next (h : Holds list towers) :
    ∀ (fuel : Nat) (front rest : List (Tower Key)),
      towers = front ++ rest → rest.length ≤ fuel →
      list.enumerate list.iterNext fuel (rest.head?.map Tower.addr) =
        some (rest.map Tower.key) := by
  intro fuel
  induction fuel with
  | zero =>
      intro front rest _ hfuel
      rw [List.length_eq_zero_iff.mp (Nat.le_zero.mp hfuel)]
      rfl
  | succ fuel ih =>
      intro front rest hsplit hfuel
      cases rest with
      | nil => rfl
      | cons tower rest =>
          obtain ⟨hkey, hnext⟩ := h.node front tower rest hsplit
          have hpos : ∀ other ∈ tower :: rest, 0 < other.height :=
            fun other hother => h.height_pos other (by
              rw [hsplit]
              exact List.mem_append_right _ hother)
          have hmove := hnext 0 (hpos tower List.mem_cons_self)
          rw [link_zero fun other hother =>
            hpos other (List.mem_cons_of_mem _ hother)] at hmove
          have hrest := ih (front ++ [tower]) rest (by rw [hsplit]; simp)
            (by simpa using hfuel)
          simp [enumerate, iterNext, hkey, hmove, hrest]

theorem Holds.enumerate_prev (h : Holds list towers)
    (hcompare : Orders compare rank) (hinc : Increasing rank towers) :
    ∀ (fuel : Nat) (before after : List (Tower Key)),
      towers = before ++ after → before.length ≤ fuel →
      list.enumerate (list.iterPrev compare) fuel
          (before.getLast?.map Tower.addr) =
        some (before.reverse.map Tower.key) := by
  intro fuel
  induction fuel with
  | zero =>
      intro before after _ hfuel
      rw [List.length_eq_zero_iff.mp (Nat.le_zero.mp hfuel)]
      rfl
  | succ fuel ih =>
      intro before after hsplit hfuel
      cases before using List.reverseRecOn with
      | nil => rfl
      | append_singleton before tower =>
          have hcell : towers = before ++ tower :: after := by
            rw [hsplit]
            simp
          have hkey := (h.node before tower after hcell).1
          have hcut : Cut rank tower.key towers before (tower :: after) := by
            have hpair := hinc
            rw [hcell, Increasing, List.pairwise_append,
              List.pairwise_cons] at hpair
            refine ⟨hcell, fun other hother => hpair.2.2 other hother tower
              List.mem_cons_self, ?_⟩
            intro other hother
            rcases List.mem_cons.mp hother with rfl | hother
            · exact lt_irrefl _
            · exact (hpair.2.1.1 other hother).not_gt
          have hrest := ih before (tower :: after) hcell (by
            simpa using hfuel)
          simp only [List.getLast?_concat, Option.map_some, enumerate, iterPrev,
            hkey, Option.bind_eq_bind, Option.bind_some,
            findLessThan_eq h hcompare hcut, h.notHead_lastTall hcut.split,
            hrest, List.reverse_append, List.reverse_cons, List.reverse_nil,
            List.nil_append, List.singleton_append, List.map_cons]

/-- A search for a key finds its tower. -/
theorem Holds.seek (h : Holds list towers) (hcompare : Orders compare rank)
    (hinc : Increasing rank towers) (probe : Key) :
    (∃ tower ∈ towers, rank tower.key = rank probe ∧
      list.iterSeek compare probe = some (some tower.addr) ∧
      list.key tower.addr = some tower.key ∧
      list.contains compare probe = some true) ∨
    ((∀ tower ∈ towers, rank tower.key ≠ rank probe) ∧
      list.iterSeek compare probe = some none ∧
      list.contains compare probe = some false) := by
  obtain ⟨before, after, hcut⟩ := exists_cut hinc probe
  have hfind := findGreaterOrEqual_eq h hcompare hcut none
  have hafterPos : ∀ tower ∈ after, 0 < tower.height := fun tower htower =>
    h.height_pos tower (by rw [hcut.split]; exact List.mem_append_right _ htower)
  rw [link_zero hafterPos] at hfind
  rw [hcut.split, Increasing, List.pairwise_append] at hinc
  cases after with
  | nil =>
      right
      refine ⟨?_, ?_, ?_⟩
      · intro tower htower
        rw [hcut.split, List.append_nil] at htower
        exact (hcut.lt tower htower).ne
      · simp [iterSeek, hfind]
      · simp [contains, hfind]
  | cons tower after =>
      have hkey := (h.node before tower after hcut.split).1
      have hsymm : compare probe tower.key = .eq ↔
          compare tower.key probe = .eq := by
        rw [hcompare.eq_iff, hcompare.eq_iff, eq_comm]
      by_cases heq : compare tower.key probe = .eq
      · left
        refine ⟨tower, by rw [hcut.split]; simp,
          (hcompare.eq_iff _ _).mp heq, ?_, hkey, ?_⟩
        · simp [iterSeek, hfind, hkey, heq]
        · simp [contains, hfind, hkey, hsymm.mpr heq]
      · right
        refine ⟨?_, ?_, ?_⟩
        · have hfirst : rank probe < rank tower.key :=
            lt_of_le_of_ne (not_lt.mp (hcut.not_lt tower List.mem_cons_self))
              fun hrank => heq ((hcompare.eq_iff _ _).mpr hrank.symm)
          intro other hother
          rw [hcut.split] at hother
          rcases List.mem_append.mp hother with hother | hother
          · exact (hcut.lt other hother).ne
          · rcases List.mem_cons.mp hother with rfl | hother
            · exact hfirst.ne'
            · exact (hfirst.trans
                ((List.pairwise_cons.mp hinc.2.1).1 other hother)).ne'
        · simp [iterSeek, hfind, hkey, heq]
        · have hne : compare probe tower.key ≠ .eq := fun h =>
            heq (hsymm.mp h)
          simp [contains, hfind, hkey, hne]

/-- `Seek` refines the search in the sequence of keys. -/
theorem Holds.iterSeek_eq (h : Holds list towers)
    (hcompare : Orders compare rank) (hinc : Increasing rank towers)
    (probe : Key) :
    ∃ node, list.iterSeek compare probe = some node ∧
      node.bind list.key =
        SkipList.seek compare probe (towers.map Tower.key) := by
  obtain ⟨before, after, hcut⟩ := exists_cut hinc probe
  have hfind := findGreaterOrEqual_eq h hcompare hcut none
  have hafterPos : ∀ tower ∈ after, 0 < tower.height := fun tower htower =>
    h.height_pos tower (by rw [hcut.split]; exact List.mem_append_right _ htower)
  rw [link_zero hafterPos] at hfind
  have hlt : ∀ tower ∈ before, (compare tower.key probe == .lt) = true := by
    intro tower htower
    simpa using (hcompare.lt_iff _ _).mpr (hcut.lt tower htower)
  have hdrop : SkipList.findGreaterOrEqual compare probe
      (towers.map Tower.key) = after.map Tower.key := by
    rw [SkipList.findGreaterOrEqual, hcut.split, List.map_append,
      List.dropWhile_append_of_pos (by simpa using hlt)]
    cases after with
    | nil => rfl
    | cons tower after =>
        have hnlt : compare tower.key probe ≠ .lt := fun hless =>
          hcut.not_lt tower List.mem_cons_self
            ((hcompare.lt_iff _ _).mp hless)
        rw [List.map_cons, List.dropWhile_cons_of_neg (by simpa using hnlt)]
  rw [SkipList.seek, hdrop]
  cases after with
  | nil => exact ⟨none, by simp [iterSeek, hfind], rfl⟩
  | cons tower after =>
      have hkey := (h.node before tower after hcut.split).1
      refine ⟨if compare tower.key probe = .eq then some tower.addr else none,
        by simp [iterSeek, hfind, hkey], ?_⟩
      split_ifs with heq <;> simp [hkey, heq]

theorem Holds.new (headKey : Key) :
    Holds (SkipListNodes.new headKey) ([] : List (Tower Key)) where
  head_next := by
    intro level hlevel
    simp [SkipListNodes.new, next, link, hlevel]
  node := by
    intro front tower back heq
    simp at heq
  height_pos := by simp
  height_le := by simp
  maxHeight_pos := by simp [SkipListNodes.new]
  maxHeight_le := by simp [SkipListNodes.new, kMaxHeight]
  addrs := by simp
  addr_lt := by simp
  fresh_eq := rfl

theorem orders_comparator : Orders comparator userKey where
  lt_iff a b := by
    unfold comparator
    split_ifs with hlt heq
    · simpa using hlt
    · simp [heq]
    · simpa using hlt
  eq_iff a b := by
    unfold comparator
    split_ifs with hlt heq
    · simp [hlt.ne]
    · simpa using heq
    · simpa using heq

/-- `Insert` of each entry, with the height drawn for it. -/
def insertAll (inserts : List (Bytes × Nat)) (list : SkipListNodes Bytes) :
    Option (SkipListNodes Bytes) :=
  inserts.foldlM (fun list entry => list.insert comparator entry.1 entry.2) list

/-- The entry inserted last for a user key. -/
def latest (entries : List Bytes) (key : Bytes) : Option Bytes :=
  entries.reverse.find? fun entry => userKey entry = key

theorem latest_concat (entries : List Bytes) (entry key : Bytes) :
    latest (entries ++ [entry]) key =
      if userKey entry = key then some entry else latest entries key := by
  by_cases hkey : userKey entry = key <;> simp [latest, hkey]

theorem userKey_of_latest {entries : List Bytes} {key entry : Bytes}
    (hlatest : latest entries key = some entry) : userKey entry = key := by
  simpa using List.find?_some hlatest

/-- An insertion replaces what was there for the key. -/
theorem mem_insert_iff {entries : List Bytes} {entry other : Bytes}
    (hinc : entries.Pairwise fun left right => userKey left < userKey right) :
    other ∈ SkipList.insert comparator entry entries ↔
      other = entry ∨ (other ∈ entries ∧ userKey other ≠ userKey entry) := by
  induction entries with
  | nil => simp [SkipList.insert]
  | cons first entries ih =>
      obtain ⟨hfirst, htail⟩ := List.pairwise_cons.mp hinc
      rw [SkipList.insert]
      cases hcase : comparator first entry with
      | lt =>
          have hlt := (orders_comparator.lt_iff _ _).mp hcase
          simp only [List.mem_cons, ih htail]
          constructor
          · rintro (rfl | rfl | ⟨hother, hne⟩)
            · exact Or.inr ⟨Or.inl rfl, hlt.ne⟩
            · exact Or.inl rfl
            · exact Or.inr ⟨Or.inr hother, hne⟩
          · rintro (rfl | ⟨rfl | hother, hne⟩)
            · exact Or.inr (Or.inl rfl)
            · exact Or.inl rfl
            · exact Or.inr (Or.inr ⟨hother, hne⟩)
      | eq =>
          have heq := (orders_comparator.eq_iff _ _).mp hcase
          simp only [List.mem_cons]
          constructor
          · rintro (rfl | hother)
            · exact Or.inl rfl
            · refine Or.inr ⟨Or.inr hother, ?_⟩
              rw [← heq]
              exact (hfirst other hother).ne'
          · rintro (rfl | ⟨rfl | hother, hne⟩)
            · exact Or.inl rfl
            · exact absurd heq hne
            · exact Or.inr hother
      | gt =>
          have hle : ¬ userKey first < userKey entry := fun hlt => by
            rw [(orders_comparator.lt_iff _ _).mpr hlt] at hcase
            cases hcase
          have hne : userKey first ≠ userKey entry := fun heq => by
            rw [(orders_comparator.eq_iff _ _).mpr heq] at hcase
            cases hcase
          have hlt := lt_of_le_of_ne (not_lt.mp hle) hne.symm
          simp only [List.mem_cons]
          constructor
          · rintro (rfl | rfl | hother)
            · exact Or.inl rfl
            · exact Or.inr ⟨Or.inl rfl, hne⟩
            · exact Or.inr ⟨Or.inr hother,
                (hlt.trans (hfirst other hother)).ne'⟩
          · rintro (rfl | ⟨rfl | hother, _⟩)
            · exact Or.inl rfl
            · exact Or.inr (Or.inl rfl)
            · exact Or.inr (Or.inr hother)

/-- The towers hold the latest entry of every inserted key and no other. -/
def HoldsLatest (towers : List (Tower Bytes)) (entries : List Bytes) : Prop :=
  ∀ entry, entry ∈ towers.map Tower.key ↔
    latest entries (userKey entry) = some entry

theorem exists_insertAll :
    ∀ (inserts : List (Bytes × Nat)) (done : List Bytes)
      {list : SkipListNodes Bytes} {towers : List (Tower Bytes)},
      (∀ entry ∈ inserts, 1 ≤ entry.2 ∧ entry.2 ≤ kMaxHeight) →
      Holds list towers → Increasing userKey towers →
      HoldsLatest towers done →
      ∃ list' towers', insertAll inserts list = some list' ∧
        Holds list' towers' ∧ Increasing userKey towers' ∧
        HoldsLatest towers' (done ++ inserts.map Prod.fst) ∧
        towers'.map Tower.key = (inserts.map Prod.fst).foldl
          (fun entries entry => SkipList.insert comparator entry entries)
          (towers.map Tower.key) := by
  intro inserts
  induction inserts with
  | nil =>
      intro done list towers _ hholds hinc hlatest
      refine ⟨list, towers, rfl, hholds, hinc, ?_, rfl⟩
      rwa [List.map_nil, List.append_nil]
  | cons entry inserts ih =>
      intro done list towers hheights hholds hinc hlatest
      obtain ⟨hpos, hheight⟩ := hheights entry List.mem_cons_self
      obtain ⟨list1, towers1, hinsert, hholds1, hinc1, hkeys1⟩ :=
        hholds.insert orders_comparator hinc entry.1 hpos hheight
      have hlatest1 : HoldsLatest towers1 (done ++ [entry.1]) := by
        intro other
        rw [hkeys1, mem_insert_iff (List.pairwise_map.mpr hinc), hlatest other,
          latest_concat]
        by_cases hkey : userKey entry.1 = userKey other
        · rw [if_pos hkey]
          constructor
          · rintro (rfl | ⟨_, hne⟩)
            · rfl
            · exact absurd hkey.symm hne
          · intro heq
            exact Or.inl (Option.some.inj heq).symm
        · rw [if_neg hkey]
          constructor
          · rintro (rfl | ⟨hother, _⟩)
            · exact absurd rfl hkey
            · exact hother
          · intro hother
            exact Or.inr ⟨hother, Ne.symm hkey⟩
      obtain ⟨list', towers', hrest, hholds', hinc', hlatest', hkeys'⟩ :=
        ih (done ++ [entry.1]) (fun other hother =>
          hheights other (List.mem_cons_of_mem _ hother)) hholds1 hinc1
          hlatest1
      refine ⟨list', towers', ?_, hholds', hinc', ?_, ?_⟩
      · rw [insertAll, List.foldlM_cons, hinsert]
        exact hrest
      · rwa [List.append_assoc, List.singleton_append] at hlatest'
      · rw [hkeys', hkeys1]
        rfl

/-- The list a buffer builds in memory is the sequence `SkipList` describes,
also for its searches. -/
theorem insertAll_refines (headKey : Bytes) (inserts : List (Bytes × Nat))
    (hheights : ∀ entry ∈ inserts, 1 ≤ entry.2 ∧ entry.2 ≤ kMaxHeight) :
    ∃ list towers, insertAll inserts (SkipListNodes.new headKey) = some list ∧
      Holds list towers ∧
      towers.map Tower.key = (inserts.map Prod.fst).foldl
        (fun entries entry => SkipList.insert comparator entry entries) [] ∧
      ∀ probe, ∃ node, list.iterSeek comparator probe = some node ∧
        node.bind list.key =
          SkipList.seek comparator probe (towers.map Tower.key) := by
  obtain ⟨list, towers, hrun, hholds, hinc, _, hkeys⟩ := exists_insertAll
    inserts [] hheights (Holds.new headKey) List.Pairwise.nil (by
      simp [HoldsLatest, latest])
  exact ⟨list, towers, hrun, hholds, hkeys, fun probe =>
    hholds.iterSeek_eq orders_comparator hinc probe⟩

theorem HoldsLatest.exists_tower {towers : List (Tower Bytes)}
    {entries : List Bytes} (h : HoldsLatest towers entries) {key entry : Bytes}
    (hlatest : latest entries key = some entry) :
    ∃ tower ∈ towers, tower.key = entry := by
  have hmem := (h entry).mpr (by rw [userKey_of_latest hlatest, hlatest])
  obtain ⟨tower, htower, hkey⟩ := List.mem_map.mp hmem
  exact ⟨tower, htower, hkey⟩

/-- After any insertions, with any heights: every level is a sublist of the one
below and strictly increasing, and none is linked at or above `max_height_`;
iteration in both directions yields the latest entry of each inserted key in
order; and a search succeeds exactly for the inserted keys, at the latest
entry. -/
theorem skip_list_ordered_map (headKey : Bytes) (inserts : List (Bytes × Nat))
    (hheights : ∀ entry ∈ inserts, 1 ≤ entry.2 ∧ entry.2 ≤ kMaxHeight) :
    ∃ (list : SkipListNodes Bytes) (entries : List Bytes),
      insertAll inserts (new headKey) = some list ∧
      (∀ i < kMaxHeight, list.maxHeight ≤ i →
        list.next head i = some none) ∧
      (∀ fuel, entries.length ≤ fuel →
        (∀ i, i + 1 < kMaxHeight →
          (list.level (i + 1) fuel).Sublist (list.level i fuel)) ∧
        (∀ i < kMaxHeight, (list.level i fuel).Pairwise fun x y =>
          ∃ a b, list.key x = some a ∧ list.key y = some b ∧
            comparator a b = .lt) ∧
        (list.iterSeekToFirst >>= list.enumerate list.iterNext fuel) =
          some entries ∧
        (list.iterSeekToLast >>=
          list.enumerate (list.iterPrev comparator) fuel) =
          some entries.reverse) ∧
      (entries.Pairwise fun a b => comparator a b = .lt) ∧
      (∀ entry, entry ∈ entries ↔
        latest (inserts.map Prod.fst) (userKey entry) = some entry) ∧
      (∀ probe, list.contains comparator probe =
          some (latest (inserts.map Prod.fst) (userKey probe)).isSome ∧
        ∃ node, list.iterSeek comparator probe = some node ∧
          node.bind list.key =
            latest (inserts.map Prod.fst) (userKey probe)) ∧
      (∀ key rest : Bytes, key.length < 2 ^ 32 →
        userKey (encodeString key ++ rest) = key) := by
  obtain ⟨list, towers, hrun, hholds, hinc, hlatest, _⟩ := exists_insertAll
    inserts [] hheights (Holds.new headKey) List.Pairwise.nil (by simp [HoldsLatest,
      latest])
  rw [List.nil_append] at hlatest
  have hkeyOf : ∀ tower ∈ towers, list.key tower.addr = some tower.key := by
    intro tower htower
    obtain ⟨front, back, hsplit⟩ := List.append_of_mem htower
    exact (hholds.node front tower back hsplit).1
  have hlt : towers.Pairwise fun left right =>
      comparator left.key right.key = .lt :=
    hinc.imp fun hless => (orders_comparator.lt_iff _ _).mpr hless
  refine ⟨list, towers.map Tower.key, hrun, fun i hi hmax => ?_,
    fun fuel hfuel => ?_, List.pairwise_map.mpr hlt, hlatest, fun probe => ?_,
    fun key rest hkey => userKey_encodeString rest hkey⟩
  · -- no tower is taller than `max_height_`
    have hnone : ∀ tower ∈ towers, ¬ i < tower.height := fun tower htower =>
      not_lt.mpr ((hholds.height_le tower htower).trans hmax)
    have hlink : link (towers ++ []) i = none := link_append_of_none hnone
    rw [List.append_nil] at hlink
    rw [hholds.head_next i hi, hlink]
  · rw [List.length_map] at hfuel
    refine ⟨?_, ?_, ?_, ?_⟩
    · intro i hi
      rw [hholds.level_eq hi hfuel, hholds.level_eq (by omega) hfuel]
      apply List.Sublist.map
      apply List.monotone_filter_right
      intro tower htall
      simp only [decide_eq_true_eq] at htall ⊢
      omega
    · intro i hi
      rw [hholds.level_eq hi hfuel, List.pairwise_map]
      apply List.Pairwise.imp_of_mem _ (hlt.filter _)
      intro left right hleft hright hless
      exact ⟨left.key, right.key, hkeyOf left (List.mem_of_mem_filter hleft),
        hkeyOf right (List.mem_of_mem_filter hright), hless⟩
    · rw [iterSeekToFirst, hholds.head_next 0 (by decide),
        link_zero hholds.height_pos]
      exact hholds.enumerate_next fuel [] towers rfl hfuel
    · have hall : towers = towers ++ [] := (List.append_nil towers).symm
      rw [iterSeekToLast, findLast_eq hholds, Option.map_some,
        hholds.notHead_lastTall hall, ← List.map_reverse]
      exact hholds.enumerate_prev orders_comparator hinc fuel towers [] hall
        hfuel
  · rcases hholds.seek orders_comparator hinc probe with
      ⟨tower, htower, hrank, hseek, hkey, hcontains⟩ |
      ⟨hnone, hseek, hcontains⟩
    · have hfound := (hlatest tower.key).mp (List.mem_map_of_mem htower)
      rw [hrank] at hfound
      refine ⟨by rw [hcontains, hfound]; rfl, _, hseek, ?_⟩
      rw [hfound]
      exact hkey
    · have hmissing : latest (inserts.map Prod.fst) (userKey probe) = none := by
        cases hcase : latest (inserts.map Prod.fst) (userKey probe) with
        | none => rfl
        | some entry =>
            obtain ⟨tower, htower, hentry⟩ := hlatest.exists_tower hcase
            refine absurd ?_ (hnone tower htower)
            rw [hentry, userKey_of_latest hcase]
      refine ⟨by rw [hcontains, hmissing]; rfl, none, hseek, ?_⟩
      rw [hmissing]
      rfl

/-- Two insertions of one key, the second with another value. -/
theorem skip_list_ordered_map_overwrite :
    ∃ (list : SkipListNodes Bytes) (entries : List Bytes),
      insertAll [(encodeEntry [97] [1], 3), (encodeEntry [97] [2], 1)]
        (new [48]) = some list ∧
      (∀ entry, entry ∈ entries ↔ latest [encodeEntry [97] [1],
        encodeEntry [97] [2]] (userKey entry) = some entry) ∧
      list.contains comparator (encodeString [97]) = some true := by
  obtain ⟨list, entries, hrun, _, _, _, hentries, hprobe, _⟩ :=
    skip_list_ordered_map [48] [(encodeEntry [97] [1], 3),
      (encodeEntry [97] [2], 1)] (by decide)
  exact ⟨list, entries, hrun, hentries, (hprobe (encodeString [97])).1⟩

end SkipListNodes

end SimpleKV
