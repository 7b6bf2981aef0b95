/-
This file is a multi-version key-value store: every write is kept as a version
of its key, a read sees the version with the highest timestamp, and a delete is
a version without a value. A commit stamps all writes of a transaction with one
fresh timestamp; a backup copies versions out and a load copies them in at the
timestamps they already carry.

The content is how these operations act on what a reader sees. A commit
overwrites exactly the written keys, because its timestamp is above every
timestamp in the store. A load does not have that: a loaded version is seen
only where the store holds nothing newer, so a load *merges* (`visible_load`),
and it replaces the contents exactly when no key keeps a newer version with a
different value (`load_replaces_iff`).
-/

import Mathlib.Data.List.Basic
import Mathlib.Data.List.Dedup
import Mathlib.Data.List.Sort
import Mathlib.Logic.Function.Basic
import Mathlib.Order.Lattice

namespace Mvcc

/-- One version of a key. A version without a value is a delete marker. -/
structure Version (Key Value : Type) where
  key : Key
  timestamp : Nat
  value : Option Value

variable {Key Value : Type} [DecidableEq Key]

/-! ### Reading a list of versions -/

/-- The version with the highest timestamp; on equal timestamps the one nearer to the front,
which is the one inserted later. -/
def newest : List (Version Key Value) → Key → Option (Version Key Value)
  | [], _ => none
  | version :: rest, key =>
    if version.key = key then
      match newest rest key with
      | none => some version
      | some older => if older.timestamp ≤ version.timestamp then some version else some older
    else newest rest key

/-- What a reader sees at a key. -/
def visible (versions : List (Version Key Value)) (key : Key) : Option Value :=
  (newest versions key).bind Version.value

theorem newest_mem (versions : List (Version Key Value)) (key : Key)
    (found : Version Key Value) (newestFound : newest versions key = some found) :
    found ∈ versions ∧ found.key = key := by
  induction versions with
  | nil => cases newestFound
  | cons version rest inductionHypothesis =>
    rw [newest] at newestFound
    split at newestFound
    · rename_i same
      split at newestFound
      · cases newestFound
        exact ⟨List.mem_cons_self, same⟩
      · rename_i older olderFound
        split at newestFound
        · cases newestFound
          exact ⟨List.mem_cons_self, same⟩
        · cases newestFound
          exact (inductionHypothesis olderFound).imp_left (List.mem_cons_of_mem _)
    · exact (inductionHypothesis newestFound).imp_left (List.mem_cons_of_mem _)

/-- Reading a concatenation compares the newest versions of the two parts; the front part
wins a tie. -/
theorem newest_append (front back : List (Version Key Value)) (key : Key) :
    newest (front ++ back) key =
      match newest front key, newest back key with
      | none, older => older
      | some version, none => some version
      | some version, some older =>
        if older.timestamp ≤ version.timestamp then some version else some older := by
  induction front with
  | nil => rfl
  | cons version rest inductionHypothesis =>
    rw [List.cons_append, newest, newest, inductionHypothesis]
    by_cases same : version.key = key
    · rw [if_pos same, if_pos same]
      cases restNewest : newest rest key with
      | none => cases newest back key <;> rfl
      | some later =>
        cases newest back key with
        | none =>
          show (if later.timestamp ≤ version.timestamp then some version else some later) = _
          by_cases front : later.timestamp ≤ version.timestamp
          · simp only [if_pos front]
          · simp only [if_neg front]
        | some older =>
          by_cases first : older.timestamp ≤ later.timestamp <;>
          by_cases second : later.timestamp ≤ version.timestamp <;>
          by_cases third : older.timestamp ≤ version.timestamp <;>
          simp only [first, second, third, if_true, if_false] <;> omega
    · rw [if_neg same, if_neg same]

/-! ### The store -/

/-- A store: its versions, the most recently inserted first, and the timestamp the next
commit takes, which is above every timestamp in the store. -/
structure Db (Key Value : Type) where
  versions : List (Version Key Value)
  nextTimestamp : Nat
  fresh : ∀ version ∈ versions, version.timestamp < nextTimestamp

/-- A store nothing was written to. -/
def Db.empty : Db Key Value := ⟨[], 1, fun _ member => nomatch member⟩

/-- What a reader of the store sees. -/
def Db.read (db : Db Key Value) (key : Key) : Option Value := visible db.versions key

/-- Stamps the pending writes of a transaction, the latest first, with the next timestamp. -/
def stamp (timestamp : Nat) (writes : List (Key × Option Value)) : List (Version Key Value) :=
  writes.map fun write => ⟨write.1, timestamp, write.2⟩

/-- Commits the pending writes of a transaction, the latest first. -/
def Db.commit (db : Db Key Value) (writes : List (Key × Option Value)) : Db Key Value where
  versions := stamp db.nextTimestamp writes ++ db.versions
  nextTimestamp := db.nextTimestamp + 1
  fresh version member := by
    rcases List.mem_append.mp member with written | older
    · obtain ⟨write, _, rfl⟩ := List.mem_map.mp written
      exact Nat.lt_succ_self _
    · exact Nat.lt_succ_of_lt (db.fresh version older)

/-- The versions at or above a timestamp, as a backup writes them out. -/
def Db.backup (db : Db Key Value) (since : Nat) : List (Version Key Value) :=
  db.versions.filter fun version => since ≤ version.timestamp

/-- The least timestamp above all versions of a list and above a given one. -/
def above (start : Nat) (versions : List (Version Key Value)) : Nat :=
  versions.foldr (fun version bound => max (version.timestamp + 1) bound) start

omit [DecidableEq Key] in
theorem le_above (start : Nat) (versions : List (Version Key Value)) :
    start ≤ above start versions := by
  induction versions with
  | nil => exact le_rfl
  | cons version rest inductionHypothesis =>
    exact le_trans inductionHypothesis (le_max_right _ _)

omit [DecidableEq Key] in
theorem lt_above (start : Nat) (versions : List (Version Key Value))
    (version : Version Key Value) (member : version ∈ versions) :
    version.timestamp < above start versions := by
  induction versions with
  | nil => cases member
  | cons head rest inductionHypothesis =>
    rcases List.mem_cons.mp member with rfl | tail
    · exact lt_of_lt_of_le (Nat.lt_succ_self _) (le_max_left _ _)
    · exact lt_of_lt_of_le (inductionHypothesis tail) (le_max_right _ _)

/-- Inserts dumped versions at the timestamps they carry; nothing is deleted. -/
def Db.load (db : Db Key Value) (dump : List (Version Key Value)) : Db Key Value where
  versions := dump ++ db.versions
  nextTimestamp := above db.nextTimestamp dump
  fresh version member := by
    rcases List.mem_append.mp member with loaded | older
    · exact lt_above _ dump version loaded
    · exact lt_of_lt_of_le (db.fresh version older) (le_above _ dump)

/-- The live entries in the order of a relation, as an iterator yields them. -/
def Db.entries (before : Key → Key → Bool) (db : Db Key Value) : List (Key × Value) :=
  ((db.versions.map Version.key).dedup.insertionSort
    fun first second => before first second).filterMap fun key => (db.read key).map (Prod.mk key)

/-- The entries are what a reader sees. -/
theorem mem_entries (before : Key → Key → Bool) (db : Db Key Value) (key : Key) (value : Value) :
    (key, value) ∈ db.entries before ↔ db.read key = some value := by
  simp only [Db.entries, List.mem_filterMap, List.mem_insertionSort, List.mem_dedup]
  constructor
  · rintro ⟨found, _, equal⟩
    obtain ⟨seen, isSeen, pair⟩ := Option.map_eq_some_iff.mp equal
    cases pair
    exact isSeen
  · intro isSeen
    obtain ⟨version, isNewest, _⟩ := Option.bind_eq_some_iff.mp isSeen
    obtain ⟨member, same⟩ := newest_mem db.versions key version isNewest
    exact ⟨key, List.mem_map.mpr ⟨version, member, same⟩, by rw [isSeen, Option.map_some]⟩

/-- The relation is a linear order. -/
structure Linear (before : Key → Key → Bool) : Prop where
  total : ∀ first second, before first second = true ∨ before second first = true
  trans : ∀ first second third, before first second = true → before second third = true →
    before first third = true
  antisymm : ∀ first second, before first second = true → before second first = true →
    first = second

theorem entries_sorted {before : Key → Key → Bool} (linear : Linear before) (db : Db Key Value) :
    (db.entries before).Pairwise fun first second => before first.1 second.1 = true := by
  have isTotal : Std.Total fun first second : Key => before first second = true := ⟨linear.total⟩
  have isTrans : IsTrans Key fun first second => before first second = true := ⟨linear.trans⟩
  refine List.Pairwise.filterMap _ ?_ (List.pairwise_insertionSort _ _)
  intro first second ordered entry isEntry other isOther
  obtain ⟨value, _, rfl⟩ := Option.map_eq_some_iff.mp isEntry
  obtain ⟨otherValue, _, rfl⟩ := Option.map_eq_some_iff.mp isOther
  exact ordered

theorem entries_nodup (before : Key → Key → Bool) (db : Db Key Value) :
    (db.entries before).Nodup := by
  refine List.Nodup.filterMap ?_ ((List.perm_insertionSort _ _).nodup_iff.mpr (List.nodup_dedup _))
  intro first second entry isFirst isSecond
  obtain ⟨value, _, rfl⟩ := Option.map_eq_some_iff.mp isFirst
  obtain ⟨otherValue, _, same⟩ := Option.map_eq_some_iff.mp isSecond
  exact (congrArg Prod.fst same).symm

/-- Stores that show the same under some keys have the same entries there. -/
theorem entries_filter_eq {before : Key → Key → Bool} (linear : Linear before)
    (first second : Db Key Value) (keep : Key → Bool)
    (same : ∀ key, keep key = true → first.read key = second.read key) :
    ((first.entries before).filter fun entry => keep entry.1) =
      (second.entries before).filter fun entry => keep entry.1 := by
  have members : ∀ entry : Key × Value,
      entry ∈ ((first.entries before).filter fun entry => keep entry.1) ↔
        entry ∈ (second.entries before).filter fun entry => keep entry.1 := by
    intro ⟨key, value⟩
    rw [List.mem_filter, List.mem_filter, mem_entries, mem_entries]
    exact and_congr_left fun kept => by rw [same key kept]
  refine List.Perm.eq_of_pairwise ?_ ((entries_sorted linear first).filter _)
    ((entries_sorted linear second).filter _)
    ((List.perm_ext_iff_of_nodup ((entries_nodup before first).filter _)
      ((entries_nodup before second).filter _)).mpr members)
  intro ⟨key, value⟩ ⟨otherKey, otherValue⟩ isFirst isSecond ordered reversed
  obtain rfl : key = otherKey := linear.antisymm key otherKey ordered reversed
  have read := (mem_entries before second key value).mp
    (List.mem_of_mem_filter ((members _).mp isFirst))
  rw [(mem_entries before second key otherValue).mp (List.mem_of_mem_filter isSecond)] at read
  rw [Option.some.inj read]

theorem entries_commit_empty (before : Key → Key → Bool) (key : Key) (value : Value) :
    (Db.empty.commit [(key, some value)]).entries before = [(key, value)] := by
  simp [Db.entries, Db.commit, stamp, Db.empty, Db.read, visible, newest]

/-! ### Commit overwrites -/

/-- The pending write of a transaction at a key: its latest one. -/
def pendingAt (writes : List (Key × Option Value)) (key : Key) : Option (Option Value) :=
  (writes.find? fun write => write.1 = key).map Prod.snd

/-- What the transaction itself reads at a key: its pending write, else the store. -/
def overlay (base : Key → Option Value) (writes : List (Key × Option Value)) (key : Key) :
    Option Value :=
  (pendingAt writes key).getD (base key)

theorem overlay_cons (base : Key → Option Value) (written : Key) (value : Option Value)
    (writes : List (Key × Option Value)) :
    overlay base ((written, value) :: writes) =
      Function.update (overlay base writes) written value := by
  funext key
  by_cases same : key = written
  · subst same
    simp [overlay, pendingAt]
  · have other : ¬ written = key := fun equal => same equal.symm
    simp [overlay, pendingAt, Function.update_of_ne same, other]

theorem newest_stamp (timestamp : Nat) (writes : List (Key × Option Value)) (key : Key) :
    newest (stamp timestamp writes) key =
      (pendingAt writes key).map fun value => ⟨key, timestamp, value⟩ := by
  induction writes with
  | nil => rfl
  | cons write rest inductionHypothesis =>
    obtain ⟨written, value⟩ := write
    show newest (⟨written, timestamp, value⟩ :: stamp timestamp rest) key = _
    by_cases same : written = key
    · subst same
      rw [newest, if_pos rfl, inductionHypothesis]
      cases pendingAt rest written <;> simp [pendingAt]
    · rw [newest, if_neg same, inductionHypothesis]
      simp [pendingAt, same]

/-- A commit shows its writes, and the former store at every other key. -/
theorem read_commit (db : Db Key Value) (writes : List (Key × Option Value)) :
    (db.commit writes).read = overlay db.read writes := by
  funext key
  show visible (stamp db.nextTimestamp writes ++ db.versions) key = _
  rw [visible, newest_append, newest_stamp, overlay]
  cases pendingAt writes key with
  | none => rfl
  | some value =>
    cases older : newest db.versions key with
    | none => rfl
    | some version =>
      have below := db.fresh version (newest_mem db.versions key version older).1
      show ((if version.timestamp ≤ db.nextTimestamp then _ else _) : Option _).bind _ = _
      rw [if_pos (le_of_lt below)]
      rfl

/-! ### Load merges -/

/-- A full backup of a store shows what the store shows. -/
theorem visible_backup_zero (db : Db Key Value) : visible (db.backup 0) = db.read := by
  funext key
  have everything : db.backup 0 = db.versions :=
    List.filter_eq_self.mpr fun _ _ => decide_eq_true (Nat.zero_le _)
  rw [everything]
  rfl

/-- The store holds a version of the key that is newer than everything the dump has for it. -/
def Outlives (db : Db Key Value) (dump : List (Version Key Value)) (key : Key) : Prop :=
  ∃ own, newest db.versions key = some own ∧
    ∀ dumped, newest dump key = some dumped → dumped.timestamp < own.timestamp

/-- After a load a reader sees the dump, except at the keys that outlive it. -/
theorem read_load (db : Db Key Value) (dump : List (Version Key Value)) (key : Key) :
    (¬ Outlives db dump key → (db.load dump).read key = visible dump key) ∧
      (Outlives db dump key → (db.load dump).read key = db.read key) := by
  have merged : (db.load dump).read key =
      ((match newest dump key, newest db.versions key with
        | none, older => older
        | some version, none => some version
        | some version, some older =>
          if older.timestamp ≤ version.timestamp then some version else some older) :
        Option (Version Key Value)).bind Version.value := by
    show visible (dump ++ db.versions) key = _
    rw [visible, newest_append]
  rw [merged]
  constructor
  · intro covered
    unfold visible
    cases own : newest db.versions key with
    | none => cases newest dump key <;> rfl
    | some older =>
      cases dumped : newest dump key with
      | none =>
        exact absurd ⟨older, own, fun _ found => by rw [dumped] at found; cases found⟩ covered
      | some version =>
        by_cases order : older.timestamp ≤ version.timestamp
        · simp only [if_pos order]
        · refine absurd ⟨older, own, fun found foundEq => ?_⟩ covered
          rw [dumped] at foundEq
          cases foundEq
          exact not_le.mp order
  · rintro ⟨own, ownNewest, newer⟩
    show _ = visible db.versions key
    unfold visible
    rw [ownNewest]
    cases dumped : newest dump key with
    | none => rfl
    | some version =>
      simp only [if_neg (not_le.mpr (newer version dumped))]

/-- A load replaces what readers see exactly when every key that outlives the dump already
showed what the dump shows. -/
theorem load_replaces_iff (db : Db Key Value) (dump : List (Version Key Value)) :
    (db.load dump).read = visible dump ↔
      ∀ key, Outlives db dump key → db.read key = visible dump key := by
  constructor
  · intro replaced key outlives
    rw [← (read_load db dump key).2 outlives, replaced]
  · intro agrees
    funext key
    by_cases outlives : Outlives db dump key
    · rw [(read_load db dump key).2 outlives, agrees key outlives]
    · exact (read_load db dump key).1 outlives

/-- Loading into a store without versions shows the dump. -/
theorem read_empty_load (dump : List (Version Key Value)) :
    ((Db.empty : Db Key Value).load dump).read = visible dump :=
  (load_replaces_iff _ dump).mpr fun _ ⟨_, own, _⟩ => nomatch own

end Mvcc
