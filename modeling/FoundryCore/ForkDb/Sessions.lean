import FoundryCore.ForkDb.CacheFile
import FoundryCore.Library.Machine

/-!
# Databases that share cache files

Databases are created over cache files, filled by their backends and flushed. Creating one takes
over what the file holds if that was fetched at the same block, so a database never mixes blocks,
whatever the order of steps and wherever a flush breaks off. Sessions that follow one another on a
file amount to a single database that stays open.
-/

open Std

namespace FoundryCore.ForkDb

open Library

/-- Replacing an element by one that is related to the same. -/
theorem forall₂_set {α γ : Type} {R : α → γ → Prop} {l : List α} {l' : List γ} {i : Nat} {y z : γ}
    (all : List.Forall₂ R l l') (getEq : l'[i]? = some y) (imp : ∀ x, R x y → R x z) :
    List.Forall₂ R l (l'.set i z) := by
  induction all generalizing i with
  | nil => simp at getEq
  | cons head rest ih =>
    cases i with
    | zero =>
      obtain rfl := Option.some.inj getEq
      exact .cons (imp _ head) rest
    | succ i => exact .cons head (ih getEq)

theorem exists_of_forall₂ {α γ : Type} {R : α → γ → Prop} {l : List α} {l' : List γ} {i : Nat}
    {y : γ} (all : List.Forall₂ R l l') (getEq : l'[i]? = some y) : ∃ x, R x y := by
  induction all generalizing i with
  | nil => simp at getEq
  | cons head rest ih =>
    cases i with
    | zero =>
      obtain rfl := Option.some.inj getEq
      exact ⟨_, head⟩
    | succ i => exact ih getEq

/-- A shareable block database: its data, and where the cache is stored. -/
structure BlockchainDb (β : Type) where
  cache : JsonBlockCacheData β
  cachePath : Option String

namespace BlockchainDb

variable {β : Type} [DecidableEq β]

/-- Whether loaded data is used, and with which markers: it takes over the hosts, and it has to
have been fetched at the same block unless the check is skipped. -/
def filterLoaded (dbMeta : BlockchainDbMeta β) (skipCheck : Bool) (cache : JsonBlockCacheData β) :
    Option (JsonBlockCacheData β) :=
  if skipCheck then some cache
  else
    let existing := { cache.dbMeta with hosts := cache.dbMeta.hosts ∪ dbMeta.hosts }
    if dbMeta == existing then some { cache with dbMeta := existing } else none

/-- `BlockchainDb::new_db`. -/
def newDb (build : Build β) (files : String → Option Bytes) (dbMeta : BlockchainDbMeta β)
    (cachePath : Option String) (skipCheck : Bool) : BlockchainDb β :=
  let loaded := cachePath.bind fun path =>
    match build.load path (files path) with
    | .ok cache => filterLoaded dbMeta skipCheck cache
    | .error _ => none
  { cache := loaded.getD { dbMeta, data := {} }, cachePath }

end BlockchainDb

/-- How a flush ends: the file is not created, or so many bytes reach it. -/
inductive WriteOutcome
  | notCreated
  | written (count : Nat)

/-- All bytes reach the file. -/
def WriteOutcome.complete (outcome : WriteOutcome) (bytes : Bytes) : Bool :=
  match outcome with
  | .notCreated => false
  | .written count => bytes.length ≤ count

/-- The files, and the databases that were created so far. -/
structure Sessions (β : Type) where
  files : String → Option Bytes
  dbs : List (BlockchainDb β) := []

namespace Sessions

variable {β : Type}

inductive Action (β : Type)
  | new (dbMeta : BlockchainDbMeta β) (cachePath : Option String) (skipCheck : Bool)
  | change (i : Nat) (f : MemDb → MemDb)
  | flush (i : Nat) (iteration : Iteration) (outcome : WriteOutcome)

/-- What happens to the database with a number. -/
inductive Event (β : Type)
  | created (dbMeta : BlockchainDbMeta β) (cachePath : Option String) (skipCheck : Bool)
  | changed (cachePath : Option String) (f : MemDb → MemDb)
  | flushed (cachePath : Option String) (complete : Bool)

/-- `JsonBlockCacheDB::flush`. -/
def flush (build : Build β) (files : String → Option Bytes) (db : BlockchainDb β)
    (iteration : Iteration) (outcome : WriteOutcome) : String → Option Bytes :=
  match db.cachePath, outcome with
  | some path, .written count =>
    Function.update files path (some ((build.flushed iteration db.cache).take count))
  | _, _ => files

def machine [DecidableEq β] (build : Build β) : Machine (Sessions β) (Action β) (Event β) where
  step s
    | .new dbMeta cachePath skipCheck =>
      let db := BlockchainDb.newDb build s.files dbMeta cachePath skipCheck
      some ({ s with dbs := s.dbs ++ [db] }, [.created dbMeta cachePath skipCheck])
    | .change i f =>
      match s.dbs[i]? with
      | none => none
      | some db =>
        let db' := { db with cache := { db.cache with data := f db.cache.data } }
        some ({ s with dbs := s.dbs.set i db' }, [.changed db.cachePath f])
    | .flush i iteration outcome =>
      match s.dbs[i]? with
      | none => none
      | some db =>
        let complete := outcome.complete (build.flushed iteration db.cache)
        some ({ s with files := flush build s.files db iteration outcome },
          [.flushed db.cachePath complete])

variable [DecidableEq β] {build : Build β} {files : String → Option Bytes}
  {dbMeta : BlockchainDbMeta β} {cache : JsonBlockCacheData β}

/-! ## What a database starts with -/

theorem filterLoaded_eq_some {skipCheck : Bool} {taken : JsonBlockCacheData β}
    (eq : BlockchainDb.filterLoaded dbMeta skipCheck cache = some taken) :
    taken.data = cache.data ∧ taken.dbMeta.blockEnv = cache.dbMeta.blockEnv ∧
      (skipCheck = false → cache.dbMeta.blockEnv = dbMeta.blockEnv) := by
  cases skipCheck with
  | true =>
    obtain rfl : cache = taken := by simpa [BlockchainDb.filterLoaded] using eq
    exact ⟨rfl, rfl, by simp⟩
  | false =>
    simp only [BlockchainDb.filterLoaded, Bool.false_eq_true, if_false] at eq
    split_ifs at eq with same
    obtain rfl := Option.some.inj eq
    have same : (dbMeta.blockEnv == cache.dbMeta.blockEnv) = true := same
    exact ⟨rfl, rfl, fun _ => (eq_of_beq same).symm⟩

/-- A database starts with the data of its file, or with none. -/
theorem newDb_cases (build : Build β) (files : String → Option Bytes)
    (dbMeta : BlockchainDbMeta β) (cachePath : Option String) (skipCheck : Bool) :
    (∃ path cache taken, cachePath = some path ∧ build.load path (files path) = .ok cache ∧
      BlockchainDb.filterLoaded dbMeta skipCheck cache = some taken ∧
      BlockchainDb.newDb build files dbMeta cachePath skipCheck = ⟨taken, cachePath⟩) ∨
    BlockchainDb.newDb build files dbMeta cachePath skipCheck =
      ⟨{ dbMeta, data := {} }, cachePath⟩ := by
  cases cachePath with
  | none => exact .inr rfl
  | some path =>
    cases loads : build.load path (files path) with
    | error err => exact .inr (by simp [BlockchainDb.newDb, loads])
    | ok cache =>
      cases taken : BlockchainDb.filterLoaded dbMeta skipCheck cache with
      | none => exact .inr (by simp [BlockchainDb.newDb, loads, taken])
      | some taken' =>
        exact .inl ⟨path, cache, taken', rfl, loads, taken, by
          simp [BlockchainDb.newDb, loads, taken]⟩

omit [DecidableEq β] in
/-- What a flush leaves in the file can be loaded as what was flushed, or not at all. -/
theorem load_of_flush {db : BlockchainDb β} {iteration : Iteration} {outcome : WriteOutcome}
    {path : String} (fits : build.Fits iteration db.cache)
    (loads : build.load path (flush build files db iteration outcome path) = .ok cache) :
    cache = db.cache ∨ build.load path (files path) = .ok cache := by
  cases stored : db.cachePath with
  | none => exact .inr (by simpa [flush, stored] using loads)
  | some path' =>
    cases outcome with
    | notCreated => exact .inr (by simpa [flush, stored] using loads)
    | written count =>
      simp only [flush, stored] at loads
      rcases eq_or_ne path path' with rfl | other
      · left
        rw [Function.update_self] at loads
        by_cases less : count < (build.flushed iteration db.cache).length
        · obtain ⟨err, fails⟩ := Build.load_take fits less path
          rw [fails] at loads
          cases loads
        · rw [List.take_of_length_le (by omega), Build.load_flushed fits path] at loads
          exact (Except.ok.inj loads).symm
      · rw [Function.update_of_ne other] at loads
        exact .inr loads

/-! ## Blocks are not mixed -/

variable {truth : β → Key → Value → Prop}

/-- All values are those of the block. -/
structure Sound (truth : β → Key → Value → Prop) (cache : JsonBlockCacheData β) : Prop where
  plain : cache.data.Plain
  values : ∀ k v, cache.data.get? k = some v → truth cache.dbMeta.blockEnv k v

/-- What backends add to a database is true at the block of the database, and what is flushed
stays within the limits of the text format. -/
def Honest (build : Build β) (truth : β → Key → Value → Prop) (_es : List (Event β))
    (s : Sessions β) : Action β → Prop
  | .new _ _ _ => True
  | .change i f => ∀ db, s.dbs[i]? = some db → (f db.cache.data).Plain ∧
      ∀ k v, (f db.cache.data).get? k = some v →
        db.cache.data.get? k = some v ∨ truth db.cache.dbMeta.blockEnv k v
  | .flush i iteration _ => ∀ db, s.dbs[i]? = some db →
      build.text.Fits (build.formats.dataEntries iteration db.cache)

/-- The markers that a database is created with, and whether without the check. -/
def Event.request? : Event β → Option (BlockchainDbMeta β × Bool)
  | .created dbMeta _ skipCheck => some (dbMeta, skipCheck)
  | .changed _ _ | .flushed _ _ => none

def requests (es : List (Event β)) : List (BlockchainDbMeta β × Bool) :=
  es.filterMap Event.request?

omit [DecidableEq β] in
theorem requests_concat (es : List (Event β)) (e : Event β) :
    requests (es ++ [e]) = requests es ++ e.request?.toList := by
  rw [requests, List.filterMap_append, ← requests]
  cases e <;> rfl

/-- The values of the database are those of its block, which unless the check was skipped is the
block it was created for. -/
structure Serves (truth : β → Key → Value → Prop) (request : BlockchainDbMeta β × Bool)
    (db : BlockchainDb β) : Prop where
  sound : Sound truth db.cache
  asked : request.2 = false → db.cache.dbMeta.blockEnv = request.1.blockEnv

structure Untainted (build : Build β) (truth : β → Key → Value → Prop) (es : List (Event β))
    (s : Sessions β) : Prop where
  files : ∀ path cache, build.load path (s.files path) = .ok cache → Sound truth cache
  dbs : List.Forall₂ (Serves truth) (requests es) s.dbs

omit [DecidableEq β] in
theorem sound_empty (dbMeta : BlockchainDbMeta β) : Sound truth { dbMeta, data := {} } where
  plain address info getEq := by simp at getEq
  values k v getEq := by cases k <;> simp [MemDb.get?] at getEq

theorem newDb_untainted
    (sound : ∀ path cache, build.load path (files path) = .ok cache → Sound truth cache)
    (dbMeta : BlockchainDbMeta β) (cachePath : Option String) (skipCheck : Bool) :
    Serves truth (dbMeta, skipCheck)
      (BlockchainDb.newDb build files dbMeta cachePath skipCheck) := by
  rcases newDb_cases build files dbMeta cachePath skipCheck with
    ⟨path, cache, taken, -, loads, filtered, eq⟩ | eq
  · rw [eq]
    obtain ⟨data, env, checked⟩ := filterLoaded_eq_some filtered
    obtain ⟨plain, values⟩ := sound path cache loads
    refine ⟨⟨by rwa [data], fun k v getEq => ?_⟩, fun unskipped => env.trans (checked unskipped)⟩
    rw [data] at getEq
    rw [env]
    exact values k v getEq
  · rw [eq]
    exact ⟨sound_empty dbMeta, fun _ => rfl⟩

theorem untainted_step {es out : List (Event β)} {s s' : Sessions β} {a : Action β}
    (h : Untainted build truth es s) (honest : Honest build truth es s a)
    (eq : (machine build).step s a = some (s', out)) : Untainted build truth (es ++ out) s' := by
  cases a with
  | new dbMeta cachePath skipCheck =>
    obtain ⟨rfl, rfl⟩ := by simpa [machine] using eq
    refine ⟨h.files, ?_⟩
    rw [requests_concat]
    exact List.rel_append h.dbs (.cons (newDb_untainted h.files dbMeta cachePath skipCheck) .nil)
  | change i f =>
    simp only [machine] at eq
    split at eq
    · cases eq
    · next db getEq =>
      obtain ⟨rfl, rfl⟩ := by simpa using eq
      obtain ⟨plain, values⟩ := honest db getEq
      refine ⟨h.files, ?_⟩
      rw [requests_concat, Event.request?, Option.toList_none, List.append_nil]
      refine forall₂_set h.dbs getEq fun request serves => ?_
      exact ⟨⟨plain, fun k v getEq => (values k v getEq).elim (serves.sound.values k v) id⟩,
        serves.asked⟩
  | flush i iteration outcome =>
    simp only [machine] at eq
    split at eq
    · cases eq
    · next db getEq =>
      obtain ⟨rfl, rfl⟩ := by simpa using eq
      refine ⟨fun path cache loads => ?_, ?_⟩
      · obtain ⟨request, serves⟩ := exists_of_forall₂ h.dbs getEq
        rcases load_of_flush ⟨serves.sound.plain, honest db getEq⟩ loads with rfl | old
        · exact serves.sound
        · exact h.files path cache old
      · rw [requests_concat, Event.request?, Option.toList_none, List.append_nil]
        exact h.dbs

/-- A database holds values of one block only, the block it was created for unless the check was
skipped: in every order of creating, filling and flushing databases over any files, though a flush
may end early anywhere. -/
theorem blocks_apart {es : List (Event β)} {s : Sessions β}
    (sound : ∀ path cache, build.load path (files path) = .ok cache → Sound truth cache)
    (run : (machine build).Guarded (Honest build truth) { files } es s) :
    List.Forall₂ (Serves truth) (requests es) s.dbs :=
  (Machine.Guarded.invariant (P := Untainted build truth) ⟨sound, .nil⟩
    (fun _ _ _ _ _ h honest eq => untainted_step h honest eq) run).dbs

/-- A build that writes a single document. -/
def slotBuild : Build BlockEnv where
  formats := BlockEnv.formats
  text := .ofDocument (BlockEnv.formats.dataEntries .sorted (slotCache 7)) slotText rfl
  zstd := none

def laterMeta : BlockchainDbMeta BlockEnv where
  chain := none
  blockEnv := ⟨18, 0⟩
  hosts := ∅

def SlotAt17 (env : BlockEnv) (k : Key) (v : Value) : Prop :=
  env = ⟨17, 0⟩ ∧ (slotCache 7).data.get? k = some v

/-- A database is filled, its first flush breaks off, and one is created for another block before
all is flushed. -/
theorem blocks_apart_torn : ∃ es s,
    (machine slotBuild).Guarded (Honest slotBuild SlotAt17) { files := fun _ => none } es s ∧
      requests es = [((slotCache 7).dbMeta, false), (laterMeta, false),
        ((slotCache 7).dbMeta, false)] ∧
      List.Forall₂ (Serves SlotAt17) (requests es) s.dbs := by
  have fits : slotBuild.text.Fits (slotBuild.formats.dataEntries .sorted (slotCache 7)) :=
    JsonText.fits_ofDocument _ _ rfl
  have start : (machine slotBuild).Guarded (Honest slotBuild SlotAt17)
    { files := fun _ => none } [] { files := fun _ => none } := .refl
  have created := start.step (a := .new (slotCache 7).dbMeta (some "cache.json") false)
    (by exact trivial) rfl
  have filled := created.step (a := .change 0 fun _ => (slotCache 7).data) (by
    rintro _ ⟨⟩
    exact ⟨plain_slotCache 7, fun k v getEq => .inr ⟨rfl, getEq⟩⟩) rfl
  have torn := filled.step (a := .flush 0 .sorted (.written 5)) (by rintro _ ⟨⟩; exact fits) rfl
  have other := torn.step (a := .new laterMeta (some "cache.json") false)
    (by exact trivial) rfl
  have flushed := other.step (a := .flush 0 .sorted (.written slotText.length))
    (by rintro _ ⟨⟩; exact fits) rfl
  have again := flushed.step (a := .new (slotCache 7).dbMeta (some "cache.json") false)
    (by exact trivial) rfl
  refine ⟨_, _, again, rfl, blocks_apart (fun path cache loads => ?_) again⟩
  cases loads

/-! ## One session after another -/

variable {path : String}

/-- The last database that was created on the file. -/
structure Latest (path : String) (dbs : List (BlockchainDb β)) (i : Nat) (db : BlockchainDb β) :
    Prop where
  current : dbs[i]? = some db
  stored : db.cachePath = some path
  last : ∀ j other, i < j → dbs[j]? = some other → other.cachePath ≠ some path

/-- What a step does to the one database that stays open: it is created once, over the file as it
was at the beginning, and later only learns of further hosts. -/
def Event.single (build : Build β) (files : String → Option Bytes) (path : String)
    (opened : Option (JsonBlockCacheData β)) : Event β → Option (JsonBlockCacheData β)
  | .created dbMeta cachePath skipCheck =>
    if cachePath = some path then
      match opened with
      | none => some (BlockchainDb.newDb build files dbMeta cachePath skipCheck).cache
      | some cache =>
        if skipCheck then some cache
        else some { cache with
          dbMeta := { cache.dbMeta with hosts := cache.dbMeta.hosts ∪ dbMeta.hosts } }
    else opened
  | .changed cachePath f =>
    if cachePath = some path then opened.map fun cache => { cache with data := f cache.data }
    else opened
  | .flushed _ _ => opened

def single (build : Build β) (files : String → Option Bytes) (path : String)
    (es : List (Event β)) : Option (JsonBlockCacheData β) :=
  es.foldl (Event.single build files path) none

/-- Whether the last that happened on the file was that all was flushed to it. -/
def Event.saves (path : String) (saved : Bool) : Event β → Bool
  | .created _ cachePath _ | .changed cachePath _ => if cachePath = some path then false else saved
  | .flushed cachePath complete => if cachePath = some path then complete else saved

def saved (path : String) (es : List (Event β)) : Bool := es.foldl (Event.saves path) true

/-- The file is used in turn: only the database that was created last is changed and flushed, and
the next one is created after it was flushed, for the same block. -/
def InTurn (build : Build β) (path : String) (es : List (Event β)) (s : Sessions β) :
    Action β → Prop
  | .new dbMeta cachePath skipCheck => cachePath = some path →
      ∀ i db, Latest path s.dbs i db → saved path es = true ∧
        (skipCheck = false → dbMeta.blockEnv = db.cache.dbMeta.blockEnv)
  | .change i _ => ∀ db, s.dbs[i]? = some db → db.cachePath = some path → Latest path s.dbs i db
  | .flush i iteration _ => ∀ db, s.dbs[i]? = some db → db.cachePath = some path →
      Latest path s.dbs i db ∧ build.Fits iteration db.cache

/-- What the file has to do with the one database. -/
structure Continues (build : Build β) (files : String → Option Bytes) (path : String)
    (es : List (Event β)) (s : Sessions β) : Prop where
  fresh : (∀ db ∈ s.dbs, db.cachePath ≠ some path) →
    s.files path = files path ∧ single build files path es = none
  latest : ∀ i db, Latest path s.dbs i db → single build files path es = some db.cache ∧
    (saved path es = true → ∃ iteration, build.Fits iteration db.cache ∧
      s.files path = some (build.flushed iteration db.cache))

theorem single_append (es : List (Event β)) (e : Event β) :
    single build files path (es ++ [e]) =
      Event.single build files path (single build files path es) e := by
  rw [single, List.foldl_append, ← single]
  rfl

omit [DecidableEq β] in
theorem saved_append (es : List (Event β)) (e : Event β) :
    saved path (es ++ [e]) = Event.saves path (saved path es) e := by
  rw [saved, List.foldl_append, ← saved]
  rfl

omit [DecidableEq β] in
theorem latest_concat_of_stored {dbs : List (BlockchainDb β)} {db db' : BlockchainDb β} {i : Nat}
    (stored : db.cachePath = some path) :
    Latest path (dbs ++ [db]) i db' ↔ i = dbs.length ∧ db' = db := by
  constructor
  · rintro ⟨getEq, -, last⟩
    have inside : i < (dbs ++ [db]).length := (List.getElem?_eq_some_iff.mp getEq).1
    have here : i = dbs.length := by
      by_contra other
      rw [List.length_append, List.length_singleton] at inside
      exact last dbs.length db (by omega) (by simp) stored
    subst here
    exact ⟨rfl, by simpa [eq_comm] using getEq⟩
  · rintro ⟨rfl, rfl⟩
    refine ⟨by simp, stored, fun j other less getEq => ?_⟩
    have inside := (List.getElem?_eq_some_iff.mp getEq).1
    rw [List.length_append, List.length_singleton] at inside
    omega

omit [DecidableEq β] in
theorem latest_concat (dbs : List (BlockchainDb β)) {db : BlockchainDb β}
    (stored : db.cachePath = some path) : Latest path (dbs ++ [db]) dbs.length db :=
  (latest_concat_of_stored stored).mpr ⟨rfl, rfl⟩

omit [DecidableEq β] in
theorem latest_concat_of_other {dbs : List (BlockchainDb β)} {db db' : BlockchainDb β} {i : Nat}
    (other : db.cachePath ≠ some path) :
    Latest path (dbs ++ [db]) i db' ↔ Latest path dbs i db' := by
  have old : ∀ {j : Nat} {db'' : BlockchainDb β}, db''.cachePath = some path →
      ((dbs ++ [db])[j]? = some db'' ↔ dbs[j]? = some db'') := by
    intro j db'' stored
    rw [List.getElem?_append]
    split_ifs with inside
    · rfl
    · have noneEq : dbs[j]? = none := by simpa using inside
      rw [noneEq]
      constructor
      · intro getEq
        rw [List.getElem?_singleton] at getEq
        split_ifs at getEq
        obtain rfl := Option.some.inj getEq
        exact absurd stored other
      · simp
  constructor
  · rintro ⟨getEq, stored, last⟩
    exact ⟨(old stored).mp getEq, stored, fun j other' less at' same =>
      last j other' less ((old same).mpr at') same⟩
  · rintro ⟨getEq, stored, last⟩
    exact ⟨(old stored).mpr getEq, stored, fun j other' less at' same =>
      last j other' less ((old same).mp at') same⟩

omit [DecidableEq β] in
/-- Unless no database was created on the file, there is a last one. -/
theorem exists_latest (path : String) (dbs : List (BlockchainDb β)) :
    (∀ db ∈ dbs, db.cachePath ≠ some path) ∨ ∃ i db, Latest path dbs i db := by
  induction dbs using List.reverseRecOn with
  | nil => exact .inl (by simp)
  | append_singleton dbs db ih =>
    by_cases stored : db.cachePath = some path
    · exact .inr ⟨dbs.length, db, (latest_concat_of_stored stored).mpr ⟨rfl, rfl⟩⟩
    · rcases ih with fresh | ⟨i, db', latest⟩
      · left
        intro db' mem
        rcases List.mem_append.mp mem with old | new
        · exact fresh db' old
        · rwa [List.mem_singleton.mp new]
      · exact .inr ⟨i, db', (latest_concat_of_other stored).mpr latest⟩

omit [DecidableEq β] in
theorem Latest.unique {dbs : List (BlockchainDb β)} {i j : Nat} {db db' : BlockchainDb β}
    (latest : Latest path dbs i db) (latest' : Latest path dbs j db') : i = j := by
  rcases Nat.lt_trichotomy i j with less | same | more
  · exact absurd latest'.stored (latest.last j db' less latest'.current)
  · exact same
  · exact absurd latest.stored (latest'.last i db more latest.current)

omit [DecidableEq β] in
/-- Changing the data of a database does not change which one is the last. -/
theorem latest_of_set {dbs : List (BlockchainDb β)} {i j : Nat} {db x : BlockchainDb β}
    {cache' : JsonBlockCacheData β} (getEq : dbs[i]? = some db)
    (latest : Latest path (dbs.set i { db with cache := cache' }) j x) :
    (j = i ∧ x = { db with cache := cache' } ∧ Latest path dbs i db) ∨
      (j ≠ i ∧ Latest path dbs j x) := by
  obtain ⟨found, stored, last⟩ := latest
  have inside := (List.getElem?_eq_some_iff.mp getEq).1
  have last' : ∀ k other, j < k → dbs[k]? = some other → other.cachePath ≠ some path := by
    intro k other less at'
    rcases eq_or_ne i k with rfl | apart
    · obtain rfl := Option.some.inj (getEq.symm.trans at')
      exact last i { db with cache := cache' } less (List.getElem?_set_self inside)
    · exact last k other less (by rwa [List.getElem?_set_ne apart])
  rcases eq_or_ne i j with rfl | apart
  · obtain rfl : { db with cache := cache' } = x := by
      simpa [List.getElem?_set_self inside] using found
    exact .inl ⟨rfl, rfl, getEq, stored, last'⟩
  · rw [List.getElem?_set_ne apart] at found
    exact .inr ⟨apart.symm, found, stored, last'⟩

theorem newDb_congr {files files' : String → Option Bytes} (same : files path = files' path)
    (dbMeta : BlockchainDbMeta β) (skipCheck : Bool) :
    BlockchainDb.newDb build files dbMeta (some path) skipCheck =
      BlockchainDb.newDb build files' dbMeta (some path) skipCheck := by
  simp only [BlockchainDb.newDb, Option.bind_some, same]

theorem newDb_of_load {skipCheck : Bool} (loads : build.load path (files path) = .ok cache)
    (sameBlock : skipCheck = false → dbMeta.blockEnv = cache.dbMeta.blockEnv) :
    (BlockchainDb.newDb build files dbMeta (some path) skipCheck).cache =
      if skipCheck then cache
      else { cache with
        dbMeta := { cache.dbMeta with hosts := cache.dbMeta.hosts ∪ dbMeta.hosts } } := by
  cases skipCheck with
  | true => simp [BlockchainDb.newDb, loads, BlockchainDb.filterLoaded]
  | false =>
    have same : (dbMeta == { cache.dbMeta with hosts := cache.dbMeta.hosts ∪ dbMeta.hosts }) =
        true := decide_eq_true (sameBlock rfl)
    simp [BlockchainDb.newDb, loads, BlockchainDb.filterLoaded, same]

/-- A step on other files. -/
theorem Continues.aside {es : List (Event β)} {e : Event β} {s s' : Sessions β}
    (h : Continues build files path es s)
    (opened : ∀ opened, Event.single build files path opened e = opened)
    (saves : ∀ saved, Event.saves path saved e = saved) (file : s'.files path = s.files path)
    (fresh : (∀ db ∈ s'.dbs, db.cachePath ≠ some path) → ∀ db ∈ s.dbs, db.cachePath ≠ some path)
    (latest : ∀ i db, Latest path s'.dbs i db → Latest path s.dbs i db) :
    Continues build files path (es ++ [e]) s' where
  fresh noneEq := by
    rw [file, single_append, opened]
    exact h.fresh (fresh noneEq)
  latest i db last := by
    rw [file, single_append, opened, saved_append, saves]
    exact h.latest i db (latest i db last)

theorem continues_step {es out : List (Event β)} {s s' : Sessions β} {a : Action β}
    (h : Continues build files path es s) (turn : InTurn build path es s a)
    (eq : (machine build).step s a = some (s', out)) :
    Continues build files path (es ++ out) s' := by
  cases a with
  | new dbMeta cachePath skipCheck =>
    obtain ⟨rfl, rfl⟩ := by simpa [machine] using eq
    by_cases stored : cachePath = some path
    · subst stored
      have created := List.mem_append_right s.dbs (List.mem_singleton_self
        (BlockchainDb.newDb build s.files dbMeta (some path) skipCheck))
      refine ⟨fun noneEq => absurd rfl (noneEq _ created), fun i db latest => ?_⟩
      obtain ⟨-, rfl⟩ := (latest_concat_of_stored rfl).mp latest
      refine ⟨?_, by simp [saved_append, Event.saves]⟩
      rw [single_append]
      rcases exists_latest path s.dbs with noneEq | ⟨i', db', latest'⟩
      · obtain ⟨sameFile, noneEq⟩ := h.fresh noneEq
        simp [Event.single, noneEq, newDb_congr sameFile]
      · obtain ⟨one, after⟩ := h.latest i' db' latest'
        obtain ⟨wasSaved, sameBlock⟩ := turn rfl i' db' latest'
        obtain ⟨iteration, fits, content⟩ := after wasSaved
        have loads : build.load path (s.files path) = .ok db'.cache := by
          rw [content, Build.load_flushed fits]
        rw [one, newDb_of_load loads sameBlock]
        cases skipCheck <;> simp [Event.single]
    · refine h.aside (fun _ => by simp [Event.single, stored])
        (fun _ => by simp [Event.saves, stored]) rfl
        (fun noneEq db mem => noneEq db (List.mem_append_left _ mem))
        fun i db => (latest_concat_of_other stored).mp
  | change i f =>
    simp only [machine] at eq
    split at eq
    · cases eq
    · next db getEq =>
      obtain ⟨rfl, rfl⟩ := by simpa using eq
      by_cases stored : db.cachePath = some path
      · have latest := turn db getEq stored
        obtain ⟨one, -⟩ := h.latest i db latest
        refine ⟨fun noneEq => ?_, fun j x latest' => ?_⟩
        · have inside := (List.getElem?_eq_some_iff.mp getEq).1
          exact absurd stored (noneEq { db with cache := { db.cache with data := f db.cache.data } }
            (List.mem_set inside _))
        · rcases latest_of_set getEq latest' with ⟨-, rfl, -⟩ | ⟨apart, other⟩
          · refine ⟨by simp [single_append, Event.single, stored, one], ?_⟩
            simp [saved_append, Event.saves, stored]
          · exact absurd (other.unique latest) apart
      · refine h.aside (fun _ => by simp [Event.single, stored])
          (fun _ => by simp [Event.saves, stored]) rfl ?_ ?_
        · intro noneEq db' mem
          obtain ⟨j, at'⟩ := List.mem_iff_getElem?.mp mem
          rcases eq_or_ne i j with rfl | apart
          · rwa [← Option.some.inj (getEq.symm.trans at')]
          · exact noneEq db' (List.mem_of_getElem? (by rwa [List.getElem?_set_ne apart]))
        · intro j x latest
          rcases latest_of_set getEq latest with ⟨-, -, latest⟩ | ⟨-, other⟩
          · exact absurd latest.stored stored
          · exact other
  | flush i iteration outcome =>
    simp only [machine] at eq
    split at eq
    · cases eq
    · next db getEq =>
      obtain ⟨rfl, rfl⟩ := by simpa using eq
      by_cases stored : db.cachePath = some path
      · obtain ⟨latest, fits⟩ := turn db getEq stored
        refine ⟨fun noneEq => absurd stored (noneEq db (List.mem_of_getElem? getEq)), ?_⟩
        intro j x latest'
        obtain rfl := latest.unique latest'
        obtain rfl := Option.some.inj (getEq.symm.trans latest'.current)
        rw [single_append]
        refine ⟨(h.latest i db latest).1, fun wasSaved => ⟨iteration, fits, ?_⟩⟩
        have complete : outcome.complete (build.flushed iteration db.cache) = true := by
          simpa [saved_append, Event.saves, stored] using wasSaved
        cases outcome with
        | notCreated => cases complete
        | written count =>
          have all : (build.flushed iteration db.cache).length ≤ count :=
            of_decide_eq_true complete
          simp [flush, stored, List.take_of_length_le all]
      · refine h.aside (fun _ => rfl) (fun _ => by simp [Event.saves, stored]) ?_ id fun _ _ => id
        cases at' : db.cachePath with
        | none => simp [flush, at']
        | some path' =>
          have apart : path ≠ path' := fun same => stored (by rw [at', same])
          cases outcome <;> simp [flush, at', apart]

/-- Sessions that follow one another on a file, each flushing its data before the next begins,
amount to one database that stays open: the last one holds what all changes made in turn left,
and knows the hosts of all. -/
theorem sessions_in_turn {es : List (Event β)} {s : Sessions β}
    (run : (machine build).Guarded (InTurn build path) { files } es s) {i : Nat}
    {db : BlockchainDb β} (latest : Latest path s.dbs i db) :
    single build files path es = some db.cache := by
  have h : Continues build files path es s := Machine.Guarded.invariant
    ⟨fun _ => ⟨rfl, rfl⟩, fun i db latest => by simpa using latest.current⟩
    (fun _ _ _ _ _ h turn eq => continues_step h turn eq) run
  exact (h.latest i db latest).1

def otherHost : BlockchainDbMeta BlockEnv where
  chain := none
  blockEnv := ⟨17, 0⟩
  hosts := ExtTreeSet.ofList ["node"]

def slotBytes : Bytes := slotBuild.flushed .sorted (slotCache 7)

/-- The state after a session that stored the slot and flushed all. -/
def slotSaved : Sessions BlockEnv where
  files := Function.update (fun _ => none) "cache.json"
    (some (slotBytes.take slotBytes.length))
  dbs := [⟨slotCache 7, some "cache.json"⟩]

def slotEvents : List (Event BlockEnv) :=
  [.created (slotCache 7).dbMeta (some "cache.json") false,
    .changed (some "cache.json") fun _ => (slotCache 7).data,
    .flushed (some "cache.json") (decide (slotBytes.length ≤ slotBytes.length))]

/-- The second session overwrites what the first one stored and learns of another host. -/
theorem sessions_in_turn_two : ∃ es s db,
    (machine slotBuild).Guarded (InTurn slotBuild "cache.json") { files := fun _ => none } es s ∧
      Latest "cache.json" s.dbs 1 db ∧
      single slotBuild (fun _ => none) "cache.json" es = some db.cache ∧
      db.cache.data.get? (.storage 1 2) = some (.slot 8) ∧ "localhost" ∈ db.cache.dbMeta.hosts := by
  have start : (machine slotBuild).Guarded (InTurn slotBuild "cache.json")
    { files := fun _ => none } [] { files := fun _ => none } := .refl
  have created := start.step (a := .new (slotCache 7).dbMeta (some "cache.json") false)
    (by rintro - i db ⟨getEq, -, -⟩; cases getEq) rfl
  have filled := created.step (a := .change 0 fun _ => (slotCache 7).data)
    (by rintro _ ⟨⟩ -; exact latest_concat [] rfl) rfl
  have saved : (machine slotBuild).Guarded (InTurn slotBuild "cache.json")
      { files := fun _ => none } slotEvents slotSaved := by
    refine filled.step (a := .flush 0 .sorted (.written slotBytes.length)) ?_ rfl
    rintro _ ⟨⟩ -
    exact ⟨latest_concat [] rfl, plain_slotCache 7, JsonText.fits_ofDocument _ _ rfl⟩
  have again := saved.step (a := .new otherHost (some "cache.json") false) (by
    rintro - i db latest
    obtain ⟨-, rfl⟩ := (@latest_concat_of_stored _ _ [] _ _ _ rfl).mp latest
    exact ⟨by simp [slotEvents, Sessions.saved, Event.saves], fun _ => rfl⟩) rfl
  let second :=
    (BlockchainDb.newDb slotBuild slotSaved.files otherHost (some "cache.json") false).cache
  let db : BlockchainDb BlockEnv :=
    ⟨{ second with data := (slotCache 8).data }, some "cache.json"⟩
  have changed : (machine slotBuild).Guarded (InTurn slotBuild "cache.json")
      { files := fun _ => none }
      (slotEvents ++ [Event.created otherHost (some "cache.json") false] ++
        [Event.changed (some "cache.json") fun _ => (slotCache 8).data])
      { slotSaved with dbs := slotSaved.dbs ++ [db] } := by
    refine again.step (a := .change 1 fun _ => (slotCache 8).data) ?_ rfl
    intro db getEq _
    obtain rfl := Option.some.inj getEq
    exact latest_concat slotSaved.dbs rfl
  have latest : Latest "cache.json" (slotSaved.dbs ++ [db]) 1 db := latest_concat slotSaved.dbs rfl
  have one := sessions_in_turn changed latest
  have known : "localhost" ∈ (slotCache 7).dbMeta.hosts := by simp [slotCache]
  refine ⟨_, _, db, changed, latest, one, rfl, ?_⟩
  rw [← Option.some.inj one]
  exact ExtTreeSet.mem_union_iff.mpr (.inl known)

end Sessions

end FoundryCore.ForkDb
