/-
This file is about disaster recovery as the admin service and the console offer
it: a dump is loaded into a fresh node while replication is inactive, and then
raft is bootstrapped on that node, whose log starts anew. Loading goes to the
storage alone. No entry of the log carries the records of the dump, and the head
record among them says how far another log had come.

So a node that joins later and applies the whole log never receives those
records, and a seed that has been restarted ignores as many entries of the new
log as the old one had.
-/

import ConsensusDB.Capture
import ConsensusDB.Versions
import ConsensusDB.RestoreStream

namespace ConsensusDB

open Wire Stream Iam

/-! ### Loading a dump -/

/-- What the engine makes of a stream: the dump it has loaded, the text of the error it stopped
at, and whether it has read the stream to its end. -/
structure Loaded where
  dump : Dump
  err : Option String
  drained : Bool

/-- The reader of the engine's own dump format. -/
structure Loader where
  load : Source Err → Loaded

def Node.load (node : Node) (dump : Dump) : Node :=
  { node with fsm := { node.fsm with store := Storage.load node.fsm.store dump } }

namespace AdminService

/-- The chat that loads a dump. Its answer is the completion frame. Chunks go through a pipe that
nobody reads once the load has stopped at an error; a writer that still has bytes then waits
forever, and there is no frame. -/
def restore (loader : Loader) (policy : Option Snapshot) (principal : Bytes) (node : Node)
    (chunks : List Bytes) : Except Err (Option Backup.RestoreFrame) × Node :=
  match authorize policy principal .backupsRestore with
  | .error err => (.error err, node)
  | .ok _ =>
    if Replicator.enabled node.raft then
      (.error (.text ("restore is disabled while replication is active: " ++
        "restore into a fresh node, then bootstrap")), node)
    else
      let loaded := loader.load ⟨chunks.flatten, none⟩
      (.ok (if loaded.drained then some (.done loaded.err) else none), node.load loaded.dump)

end AdminService

namespace ConsoleHandler

/-- What the console answers to an upload. -/
inductive ImportResponse where
  | conflict (text : String)
  | badContainer (err : Err)
  | badDump (text : String)
  | imported

def ImportResponse.status : ImportResponse → Nat
  | .conflict _ => 409
  | .badContainer _ => 400
  | .badDump _ => 400
  | .imported => 200

def importDatabase (cipher : Backup.Cipher) (loader : Loader) (node : Node) (body : Source Err)
    (password : Bytes) : ImportResponse × Node :=
  if Replicator.enabled node.raft then
    (.conflict ("import is disabled while replication is active: " ++
      "import into a fresh node, then bootstrap"), node)
  else
    match Backup.dumpSource cipher body password with
    | .error err => (.badContainer err, node)
    | .ok reader =>
      let loaded := loader.load reader
      match loaded.err with
      | some text => (.badDump ("load dump: " ++ text), node.load loaded.dump)
      | none => (.imported, node.load loaded.dump)

end ConsoleHandler

/-- A node after a dump went into it by one of the two ways. -/
inductive LoadedInto (cipher : Backup.Cipher) (loader : Loader) (node : Node) (dump : Dump) :
    Node → Prop
  | restored (policy : Option Snapshot) (principal : Bytes) (chunks : List Bytes)
      (authorized : AdminService.authorize policy principal .backupsRestore = .ok ())
      (loads : (loader.load ⟨chunks.flatten, none⟩).dump = dump) :
      LoadedInto cipher loader node dump
        (AdminService.restore loader policy principal node chunks).2
  | imported (body reader : Source Err) (password : Bytes)
      (opened : Backup.dumpSource cipher body password = .ok reader)
      (loads : (loader.load reader).dump = dump) :
      LoadedInto cipher loader node dump
        (ConsoleHandler.importDatabase cipher loader node body password).2

/-- Both ways load the dump into the storage and do nothing else. -/
theorem LoadedInto.eq_load {cipher : Backup.Cipher} {loader : Loader} {node loaded : Node}
    {dump : Dump} (into : LoadedInto cipher loader node dump loaded) (inactive : node.raft = none) :
    loaded = node.load dump := by
  cases into with
  | restored policy principal chunks authorized loads =>
    unfold AdminService.restore
    rw [authorized, inactive, ← loads]
    rfl
  | imported body reader password opened loads =>
    unfold ConsoleHandler.importDatabase
    rw [inactive, opened, ← loads]
    simp only
    split
    · rename_i refused
      cases refused
    · split
      · rfl
      · rfl

/-! ### Bootstrapping the seed -/

/-- How raft comes up on the seed: in the process into which the dump was loaded, or after a
restart. -/
inductive Boot where
  | inProcess
  | restarted (now : Int64)

/-- Forms the cluster: the seed is its only voter and leads it. -/
def Node.bootstrap (deps : Deps) (boot : Boot) (node : Node) : Node where
  fsm :=
    match boot with
    | .inProcess => node.fsm
    | .restarted now => node.fsm.restart deps (Env.healthy now)
  raft := some { leading := true }

/-- The chain the seed starts the new log with: the one of its first start, or the head that the
dump carries. -/
def Boot.head (deps : Deps) (dump : Dump) : Boot → HashChain
  | .inProcess => .genesis
  | .restarted now => Dump.head deps now dump

theorem fresh_chain (deps : Deps) (now : Int64) :
    (Fsm.fresh deps (Env.healthy now)).chain = some .genesis :=
  congrArg Replica.chain (fresh_replica deps now)

/-- The seed holds the dump, and its chain is where the boot leaves it. -/
theorem bootstrap_fsm (deps : Deps) (started : Int64) (dump : Dump) (boot : Boot) :
    (((Node.fresh deps started).load dump).bootstrap deps boot).fsm =
      ⟨Storage.load Store.empty dump, some (boot.head deps dump)⟩ := by
  cases boot with
  | inProcess =>
    show (⟨_, (Fsm.fresh deps (Env.healthy started)).chain⟩ : Fsm) = _
    rw [fresh_chain]
    rfl
  | restarted now => rfl

/-! ### Joiners -/

/-- The seed and every node that joins with an empty store hold the same records after the same
entries. -/
def SeedConverges (deps : Deps) (seed : Fsm) : Prop :=
  ∀ entries, Committed deps entries → ∀ (seedDeliveries deliveries : List (Int64 × Entry))
    (joined : Int64), seedDeliveries.map Prod.snd = entries → deliveries.map Prod.snd = entries →
    (seed.run deps seedDeliveries).store.records deps = recordsAfter deps joined deliveries

section

variable (deps : Deps) (lawful : deps.Lawful) (dump : Dump) (boot : Boot)

theorem loaded_records (key : Bytes) :
    Dump.records deps dump key = (Mvcc.visible dump key).map (storedRecord deps) := by
  rw [Dump.records, Store.records]
  exact congrArg (Option.map (storedRecord deps)) (congrFun (Mvcc.read_empty_load dump) key)

/-- A dump that shows nothing leaves the seed as it started. -/
theorem replica_of_empty (empty : ∀ key, Mvcc.visible dump key = none) :
    (⟨Storage.load Store.empty dump, some (boot.head deps dump)⟩ : Fsm).replica deps =
      Replica.fresh := by
  have records : (Storage.load Store.empty dump).records deps = fun _ => none := by
    funext key
    have shown := loaded_records deps dump key
    rw [empty key] at shown
    exact shown
  have head : boot.head deps dump = .genesis := by
    cases boot with
    | inProcess => rfl
    | restarted now =>
      show loadHead deps (Env.healthy now) (Storage.load Store.empty dump) = _
      rw [loadHead_records, records]
      rfl
  rw [head]
  show (⟨_, _⟩ : Replica) = ⟨_, _⟩
  rw [records]

include lawful in
/-- A seed that starts like a joiner converges with it. -/
theorem converges_of_fresh (seed : Fsm) (fresh : seed.replica deps = Replica.fresh) :
    SeedConverges deps seed := by
  intro entries committed seedDeliveries deliveries joined seedLog log
  have routed : ∀ delivery ∈ seedDeliveries, Routed deps delivery.2.data := fun delivery member =>
    committed.routed _ (seedLog ▸ List.mem_map_of_mem member)
  rw [recordsAfter_eq deps lawful]
  have seedRun := run_replica deps lawful seed seedDeliveries
  rw [fresh, (run_routed deps lawful _ _ (seedLog.trans log.symm) routed Replica.fresh rfl).2]
    at seedRun
  exact congrArg Replica.records seedRun

include lawful in
/-- A key that no entry writes holds what it held at the start. -/
theorem run_untouched (seed : Fsm) (valid : (seed.store.records deps).Valid)
    (deliveries : List (Int64 × Entry)) (committed : Committed deps (deliveries.map Prod.snd))
    (key : Bytes) (other : key ≠ headEntryKey deps)
    (untouched : operationsOf deps key (deliveries.map Prod.snd) = []) :
    (seed.run deps deliveries).store.records deps key = seed.store.records deps key := by
  have ran := congrArg Replica.records (run_replica deps lawful seed deliveries)
  have cell := run_cell deps lawful deliveries (seed.replica deps) valid
    (fun delivery member => committed.proper (List.mem_map_of_mem member)) key other
  rw [untouched] at cell
  exact (congrFun ran key).trans cell

variable (cipher : Backup.Cipher) (loader : Loader) (started : Int64) (node : Node)
  (loaded : LoadedInto cipher loader (Node.fresh deps started) dump node)

include lawful loaded in
/-- A seed into which a dump was loaded converges with the nodes that join it if and only if the
dump shows no record. A record that it shows, under a key other than the head's that the log does
not write, stays on the seed and never reaches a joiner. -/
theorem seed_converges_iff_dump_empty :
    (SeedConverges deps (node.bootstrap deps boot).fsm ↔
        ∀ key, Mvcc.visible dump key = none) ∧
      ((Dump.records deps dump).Valid → ∀ key record, Dump.records deps dump key = some record →
        key ≠ headEntryKey deps → ∀ seedDeliveries deliveries joined,
        Committed deps (seedDeliveries.map Prod.snd) →
        deliveries.map Prod.snd = seedDeliveries.map Prod.snd →
        operationsOf deps key (seedDeliveries.map Prod.snd) = [] →
        ((node.bootstrap deps boot).fsm.run deps seedDeliveries).store.records deps key =
            some record ∧
          recordsAfter deps joined deliveries key = none) := by
  rw [loaded.eq_load rfl, bootstrap_fsm]
  refine ⟨⟨fun converges key => ?_, fun empty => ?_⟩, ?_⟩
  · have start := congrFun (converges [] ⟨⟨List.Pairwise.nil, nofun⟩, nofun⟩ [] [] 0 rfl rfl) key
    rw [recordsAfter_eq deps lawful] at start
    have shown := (loaded_records deps dump key).symm.trans start
    exact Option.map_eq_none_iff.mp shown
  · exact converges_of_fresh deps lawful _ (replica_of_empty deps dump boot empty)
  · intro valid key record shown other seedDeliveries deliveries joined committed sameLog untouched
    constructor
    · rw [run_untouched deps lawful ⟨Storage.load Store.empty dump, some (boot.head deps dump)⟩
        valid seedDeliveries committed key other untouched]
      exact shown
    · rw [← sameLog] at committed untouched
      exact run_untouched deps lawful (Fsm.fresh deps (Env.healthy joined)) valid_fresh deliveries
        committed key other untouched

/-! ### The chain of the seed -/

/-- Every entry moves the reported head to its own index and the digest that follows. -/
def ChainCovers (seed : Fsm) (deliveries : List (Int64 × Entry)) : Prop :=
  ∀ front now entry back, deliveries = front ++ (now, entry) :: back → ∀ asked,
    (((seed.run deps front).apply deps (Env.healthy now) entry).2.chainHead deps
        (Env.healthy asked)).1 =
      ⟨entry.index, nextDigest
        ((seed.run deps front).chainHead deps (Env.healthy asked)).1.digest
        entry.index entry.term entry.data⟩

include lawful in
theorem chainHead_run (seed : Fsm) (chain : HashChain) (seeded : seed.chain = some chain)
    (deliveries : List (Int64 × Entry)) (asked : Int64) :
    ((seed.run deps deliveries).chainHead deps (Env.healthy asked)).1 =
      chain.foldAll (deliveries.map Prod.snd) := by
  have folded := run_chain deps deliveries (seed.replica deps) chain seeded
  rw [← run_replica deps lawful] at folded
  show (seed.run deps deliveries).chain.getD _ = _
  rw [show (seed.run deps deliveries).chain = _ from folded]
  rfl

include lawful in
theorem chainCovers_iff_folds (seed : Fsm) (chain : HashChain) (seeded : seed.chain = some chain)
    (deliveries : List (Int64 × Entry)) :
    ChainCovers deps seed deliveries ↔
      ∀ front now entry back, deliveries = front ++ (now, entry) :: back →
        (chain.foldAll (front.map Prod.snd)).fold entry =
          ⟨entry.index, nextDigest (chain.foldAll (front.map Prod.snd)).digest
            entry.index entry.term entry.data⟩ := by
  have heads (front : List (Int64 × Entry)) (now asked : Int64) (entry : Entry) :
      (((seed.run deps front).apply deps (Env.healthy now) entry).2.chainHead deps
        (Env.healthy asked)).1 = (chain.foldAll (front.map Prod.snd)).fold entry := by
    rw [← Fsm.run_snoc, chainHead_run deps lawful seed chain seeded, List.map_append,
      foldAll_append]
    rfl
  constructor
  · intro covers front now entry back split
    have covered := covers front now entry back split 0
    rw [heads, chainHead_run deps lawful seed chain seeded] at covered
    exact covered
  · intro folds front now entry back split asked
    rw [heads, chainHead_run deps lawful seed chain seeded]
    exact folds front now entry back split

include lawful in
/-- The chain covers a log if and only if it starts below the first entry, or at it with a digest
that the entry maps to itself. -/
theorem chainCovers_iff (seed : Fsm) (chain : HashChain) (seeded : seed.chain = some chain)
    (clock : Int64) (first : Entry) (rest : List (Int64 × Entry))
    (log : IsLog (((clock, first) :: rest).map Prod.snd)) :
    ChainCovers deps seed ((clock, first) :: rest) ↔
      chain.index < first.index ∨
        chain = ⟨first.index, nextDigest chain.digest first.index first.term first.data⟩ := by
  rw [chainCovers_iff_folds deps lawful seed chain seeded]
  constructor
  · intro folds
    have covered := folds [] clock first rest rfl
    by_cases below : chain.index < first.index
    · exact Or.inl below
    · refine Or.inr ?_
      have ignored : chain.fold first = chain := fold_of_le (UInt64.not_lt.mp below)
      rw [List.map_nil, foldAll_nil, ignored] at covered
      exact covered
  · rintro start front now entry back split
    by_cases atFirst : front = []
    · subst atFirst
      obtain ⟨sameDelivery, _⟩ := List.cons.inj split
      cases sameDelivery
      rcases start with below | fixed
      · exact fold_of_lt below
      · rw [List.map_nil, foldAll_nil, fold_of_le (by rw [fixed]; exact UInt64.le_refl _)]
        exact fixed
    · refine fold_of_lt ?_
      obtain ⟨delivery, others, rfl⟩ := List.exists_cons_of_ne_nil atFirst
      obtain ⟨sameDelivery, _⟩ := List.cons.inj split
      subst sameDelivery
      rw [split, List.map_append] at log
      rcases foldAll_index chain (((clock, first) :: others).map Prod.snd) with
        own | ⟨earlier, member, equal⟩
      · rw [own]
        have later : first.index < entry.index :=
          log.lt_of_mem List.mem_cons_self List.mem_cons_self
        rcases start with below | fixed
        · exact UInt64.lt_trans below later
        · rw [fixed]
          exact later
      · rw [equal]
        exact log.lt_of_mem member List.mem_cons_self

include lawful loaded in
/-- On a seed into which a dump was loaded, every entry of the new log is folded into the chain if
and only if the chain the seed starts with, which after a restart is the head the dump carries, is
below the first entry, or is at its index with a digest that the entry maps to itself. -/
theorem seed_chain_covers_iff (clock : Int64) (first : Entry) (rest : List (Int64 × Entry))
    (log : IsLog (((clock, first) :: rest).map Prod.snd)) :
    ChainCovers deps (node.bootstrap deps boot).fsm ((clock, first) :: rest) ↔
      (boot.head deps dump).index < first.index ∨
        boot.head deps dump = ⟨first.index,
          nextDigest (boot.head deps dump).digest first.index first.term first.data⟩ := by
  rw [loaded.eq_load rfl, bootstrap_fsm]
  exact chainCovers_iff deps lawful _ _ rfl clock first rest log

end

/-- A loader of streams that all hold the state of the sample replica. -/
def sampleLoader : Loader := ⟨fun _ => ⟨sampleReplica.persist, none, true⟩⟩

/-- A fresh node after a restore through the admin chat. -/
def sampleSeed : Node :=
  (AdminService.restore sampleLoader none [] (Node.fresh Reference.deps 0) []).2

theorem sampleSeed_loaded :
    LoadedInto Backup.sampleCipher sampleLoader (Node.fresh Reference.deps 0)
      sampleReplica.persist sampleSeed :=
  .restored none [] [] rfl rfl

/-- The record of the dump is on the seed and not on a node that joins it. -/
theorem seed_converges_iff_dump_empty_sample :
    ¬ SeedConverges Reference.deps (sampleSeed.bootstrap Reference.deps (.restarted 300)).fsm := by
  intro converges
  have empty := (seed_converges_iff_dump_empty Reference.deps Reference.lawful sampleReplica.persist
    (.restarted 300) Backup.sampleCipher sampleLoader 0 sampleSeed sampleSeed_loaded).1.mp converges
    (encodeKey Reference.deps Reference.sampleKey).1
  revert empty
  decide +kernel

/-- A seed that was loaded through the admin chat diverges from the nodes that join it. -/
theorem restored_seed_diverges :
    ¬ ∀ (dump : Dump) (boot : Boot) (node : Node),
      LoadedInto Backup.sampleCipher sampleLoader (Node.fresh Reference.deps 0) dump node →
      SeedConverges Reference.deps (node.bootstrap Reference.deps boot).fsm := by
  intro claim
  have converges := claim sampleReplica.persist (.restarted 300) sampleSeed sampleSeed_loaded []
    ⟨⟨List.Pairwise.nil, nofun⟩, nofun⟩ [] [] 0 rfl rfl
  have record := congrFun converges (encodeKey Reference.deps Reference.sampleKey).1
  revert record
  decide +kernel

/-- In the process into which the dump was loaded the chain starts anew. -/
theorem seed_chain_covers_iff_in_process :
    ChainCovers Reference.deps (sampleSeed.bootstrap Reference.deps .inProcess).fsm
      sampleDeliveries :=
  (seed_chain_covers_iff Reference.deps Reference.lawful sampleReplica.persist .inProcess
    Backup.sampleCipher sampleLoader 0 sampleSeed sampleSeed_loaded 110
    (Reference.entryOf 1 (Reference.samplePut.command Reference.deps 100)) []
    Reference.sampleLog_committed.toIsLog).mpr (Or.inl (by decide))

/-- After a restart the seed ignores the first entry of its own log. -/
theorem restored_seed_ignores_entry :
    ¬ ∀ (dump : Dump) (boot : Boot) (node : Node) (deliveries : List (Int64 × Entry)),
      LoadedInto Backup.sampleCipher sampleLoader (Node.fresh Reference.deps 0) dump node →
      IsLog (deliveries.map Prod.snd) →
      ChainCovers Reference.deps (node.bootstrap Reference.deps boot).fsm deliveries := by
  intro claim
  have covered := claim sampleReplica.persist (.restarted 300) sampleSeed sampleDeliveries
    sampleSeed_loaded Reference.sampleLog_committed.toIsLog [] 110
    (Reference.entryOf 1 (Reference.samplePut.command Reference.deps 100)) [] rfl 300
  revert covered
  decide +kernel

end ConsensusDB
