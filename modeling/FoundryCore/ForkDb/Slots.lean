import FoundryCore.ForkDb.Inputs

/-!
# Supplying storage slots

Storage reaches the database in two ways: a fetch brings one slot, and an update message
brings whole maps, one for each account it names. Here a run is observed through what it
supplies, and the database is compared with the value that was supplied last for each slot.
-/

open Std

namespace FoundryCore.ForkDb

open Library BackendHandler

/-- A storage slot of the database. -/
def MemDb.slot? (db : MemDb) (address : Address) (idx : U256) : Option U256 :=
  db.storage[address]?.bind (·[idx]?)

/-- What supplies slots: an `UpdateStorage` message that is handled, or a fetch that completes
with a value. -/
inductive StorageEvent
  | message (data : StorageData)
  | fetched (address : Address) (idx value : U256)

namespace StorageEvent

/-- The value supplied for a slot. -/
def supplies? (address : Address) (idx : U256) : StorageEvent → Option U256
  | .message data => data[address]?.bind (·[idx]?)
  | .fetched address' idx' value =>
    if address = address' ∧ idx = idx' then some value else none

/-- What the handler leaves in a slot that held `old`: a message replaces the map of each
account it names. -/
def leaves (address : Address) (idx : U256) (old : Option U256) : StorageEvent → Option U256
  | .message data =>
    match data[address]? with
    | some slots => slots[idx]?
    | none => old
  | .fetched address' idx' value =>
    if address = address' ∧ idx = idx' then some value else old

end StorageEvent

/-- The value most recently supplied for a slot. -/
def lastSupplied (address : Address) (idx : U256) (es : List StorageEvent) : Option U256 :=
  (es.filterMap (·.supplies? address idx)).getLast?

theorem lastSupplied_append (address : Address) (idx : U256) (es out : List StorageEvent) :
    lastSupplied address idx (es ++ out) =
      (lastSupplied address idx out).or (lastSupplied address idx es) := by
  simp [lastSupplied, List.filterMap_append, List.getLast?_append]

@[simp] theorem lastSupplied_singleton (address : Address) (idx : U256) (e : StorageEvent) :
    lastSupplied address idx [e] = e.supplies? address idx := by
  cases eq : e.supplies? address idx <;> simp [lastSupplied, eq]

/-- What is supplied is left in the slot. -/
theorem StorageEvent.leaves_of_supplies {address : Address} {idx : U256} {v : U256}
    {e : StorageEvent} (eq : e.supplies? address idx = some v) (old : Option U256) :
    e.leaves address idx old = some v := by
  cases e with
  | message data =>
    obtain ⟨slots, named, slot⟩ := Option.bind_eq_some_iff.mp eq
    simpa [leaves, named] using slot
  | fetched address' idx' value =>
    simp only [supplies?] at eq
    split_ifs at eq with same
    simpa [leaves, same] using eq

namespace System

/-- The storage that the next step supplies. -/
def storageEvents (s : System) (a : Action) : List StorageEvent :=
  match s.input a with
  | .message (.updateStorage data) => [.message data]
  | .response (.storage address idx _) (.ok value) => [.fetched address idx value]
  | _ => []

/-- The fork backend, observed through the storage it is supplied. -/
def storageMachine (revm : Revm) : Machine System Action StorageEvent :=
  (machine revm).observed storageEvents

end System

/-! ## What a step leaves in a slot -/

theorem BackendHandler.Joins.slot? {h h' : BackendHandler} {k : Key} {l : Sender}
    (j : h.Joins k l h') (address : Address) (idx : U256) :
    h'.db.slot? address idx = h.db.slot? address idx := by
  rw [j.db]

/-- A message that supplies no storage leaves every slot as it is. -/
theorem onRequest_slot? (h : BackendHandler) (req : BackendRequest) (address : Address)
    (idx : U256) :
    (h.onRequest req).1.db.slot? address idx =
      match req with
      | .updateStorage data =>
        (StorageEvent.message data).leaves address idx (h.db.slot? address idx)
      | _ => h.db.slot? address idx := by
  cases req with
  | updateStorage data =>
    cases named : data[address]? <;>
      simp [onRequest, MemDb.slot?, StorageEvent.leaves, getElem?_insertMany_toList, named]
  | basic address' l =>
    cases stored : h.db.accounts[address']? with
    | some info => simp [onRequest, stored]
    | none =>
      simpa [onRequest, stored] using (h.requestAccount_joins address' l).1.slot? address idx
  | storage address' idx' l =>
    cases stored : h.db.storage[address']?.bind (·[idx']?) with
    | some value => simp [onRequest, stored]
    | none =>
      simpa [onRequest, stored] using
        (h.requestAccountStorage_joins address' idx' l).1.slot? address idx
  | blockHash number l =>
    cases stored : h.db.blockHashes[U256.ofU64 number]? with
    | some hash => simp [onRequest, stored]
    | none => simpa [onRequest, stored] using (h.requestHash_joins number l).1.slot? address idx
  | _ => rfl

/-- Only a fetched slot changes a slot. -/
theorem onReady_slot? {revm : Revm} {h h' : BackendHandler} {request : ProviderRequest}
    {output : request.Output} {out : List Event}
    (ready : h.onReady revm request output = some (h', out)) (address : Address) (idx : U256) :
    h'.db.slot? address idx =
      match request, output with
      | .storage address' idx' _, .ok value =>
        (StorageEvent.fetched address' idx' value).leaves address idx (h.db.slot? address idx)
      | _, _ => h.db.slot? address idx := by
  cases request with
  | storage address' idx' block =>
    cases output with
    | error =>
      obtain ⟨rfl, rfl⟩ := by simpa [onReady] using ready
      rfl
    | ok value =>
      obtain ⟨rfl, rfl⟩ := by simpa [onReady] using ready
      have stored := h.db.get?_insert_slot address' idx' value address idx
      simp only [StorageEvent.leaves]
      split_ifs at stored ⊢
      all_goals exact Option.map_injective (fun _ _ => Value.slot.inj) stored
  | account =>
    cases output with
    | error =>
      obtain ⟨rfl, rfl⟩ := by simpa [onReady] using ready
      rfl
    | ok =>
      obtain ⟨acc, -, eq⟩ := Option.map_eq_some_iff.mp ready
      obtain ⟨rfl, rfl⟩ := Prod.mk.inj eq
      rfl
  | blockHash =>
    cases output <;>
    · obtain ⟨rfl, rfl⟩ := by simpa [onReady] using ready
      rfl
  | _ =>
    obtain ⟨rfl, rfl⟩ := by simpa [onReady] using ready
    rfl

/-- A step changes a slot by what it supplies. -/
theorem System.step_slot? {revm : Revm} {s s' : System} {a : Action}
    {out : List Event} (eq : (System.machine revm).step s a = some (s', out))
    (address : Address) (idx : U256) :
    s'.handler.db.slot? address idx =
      (s.storageEvents a).foldl (fun old e => e.leaves address idx old)
        (s.handler.db.slot? address idx) := by
  have takes := System.step_takes eq
  unfold storageEvents
  generalize s.input a = input at takes
  cases takes with
  | nothing db => simp [db]
  | message req rest _ _ _ handler =>
    have slot := onRequest_slot? { s.handler with queuedRequests := rest } req address idx
    rw [handler] at slot
    rw [slot]
    cases req <;> rfl
  | response request rest output _ _ handler =>
    rw [onReady_slot? handler address idx]
    cases request with
    | storage => cases output <;> rfl
    | _ => rfl
  | malformed request _ output _ bad _ handler =>
    rw [handler]
    cases request with
    | storage => cases output <;> cases bad
    | _ => rfl

/-! ## The value supplied last -/

/-- Every slot that was supplied holds the value supplied for it last. -/
def HoldsSupplied (es : List StorageEvent) (s : System) : Prop :=
  ∀ address idx v, lastSupplied address idx es = some v → s.handler.db.slot? address idx = some v

/-- No update message about to be handled leaves out a supplied slot of an account it names. -/
def MergesSlots (es : List StorageEvent) (s : System) (a : Action) : Prop :=
  ∀ data, .message data ∈ s.storageEvents a → ∀ address idx v,
    lastSupplied address idx es = some v → ∀ slots, data[address]? = some slots → idx ∈ slots

theorem System.storageEvents_cases (s : System) (a : Action) :
    s.storageEvents a = [] ∨ ∃ e, s.storageEvents a = [e] := by
  unfold storageEvents
  repeat' split
  all_goals simp

/-- What one event leaves in the slots: supplied values stay exactly if the event, when it is
a message, names every supplied slot of its accounts. -/
theorem StorageEvent.keeps_iff {es : List StorageEvent} {db : MemDb} (e : StorageEvent)
    (holds : ∀ address idx v, lastSupplied address idx es = some v →
      db.slot? address idx = some v) :
    (∀ address idx v, lastSupplied address idx (es ++ [e]) = some v →
      e.leaves address idx (db.slot? address idx) = some v) ↔
    ∀ data, .message data = e → ∀ address idx v, lastSupplied address idx es = some v →
      ∀ slots, data[address]? = some slots → idx ∈ slots := by
  constructor
  · rintro kept data rfl address idx v supplied slots named
    have stays := kept address idx
    simp only [lastSupplied_append, lastSupplied_singleton, supplied, supplies?, leaves, named,
      Option.bind_some] at stays
    cases slot : slots[idx]? with
    | some w => exact ExtTreeMap.mem_iff_isSome_getElem?.mpr (by simp [slot])
    | none => simp [slot] at stays
  · intro covers address idx v supplied
    rw [lastSupplied_append, lastSupplied_singleton] at supplied
    cases now : e.supplies? address idx with
    | some w =>
      obtain rfl : w = v := by simpa [now] using supplied
      exact leaves_of_supplies now _
    | none =>
      rw [now, Option.none_or] at supplied
      rw [holds address idx v supplied]
      cases e with
      | message data =>
        cases named : data[address]? with
        | none => simp [leaves, named]
        | some slots =>
          have mem := covers data rfl address idx v supplied slots named
          simp [supplies?, named, mem] at now
      | fetched address' idx' value =>
        simp only [supplies?] at now
        split_ifs at now with same
        simp [leaves, same]

/-- A step keeps the supplied values exactly if it merges slots. -/
theorem holdsSupplied_step_iff {revm : Revm} {es out : List StorageEvent}
    {s s' : System} {a : Action} (holds : HoldsSupplied es s)
    (eq : (System.storageMachine revm).step s a = some (s', out)) :
    HoldsSupplied (es ++ out) s' ↔ MergesSlots es s a := by
  obtain ⟨⟨_, step⟩, rfl⟩ := Machine.observed_step.mp eq
  have slots := System.step_slot? step
  obtain none | ⟨e, one⟩ := s.storageEvents_cases a
  · simp only [HoldsSupplied, MergesSlots, none, List.append_nil, slots]
    simpa [HoldsSupplied] using holds
  · simpa [HoldsSupplied, MergesSlots, one, slots] using e.keeps_iff holds

/-- Over whole runs: the database holds the value supplied last for every slot, by a message
or by a fetch, exactly as long as no update message leaves out a supplied slot of an account
it names. -/
theorem slots_merged_iff {revm : Revm} {db : MemDb} {pinned : Option BlockId}
    {es : List StorageEvent} {s : System} :
    (System.storageMachine revm).Guarded MergesSlots (System.spawn db pinned) es s ↔
      (System.storageMachine revm).Guarded
        ((System.storageMachine revm).Reaching HoldsSupplied)
        (System.spawn db pinned) es s :=
  Machine.guarded_iff_reaching (by simp [HoldsSupplied, lastSupplied])
    fun _ _ _ _ _ holds eq => holdsSupplied_step_iff holds eq

/-- Slot 2 of account 1 is fetched, then an update message sets slot 3 of the account. -/
def updateAfterFetch : List Action :=
  [Action.call (.storage 1 2)] ++ List.replicate 10 (Action.poll fun
      | .storage _ _ _ => some (.ok 10)
      | _ => none) ++
    [Action.call (.insertOrUpdateStorage
      (ExtTreeMap.empty.insert 1 (ExtTreeMap.empty.insert 3 11)))] ++
    List.replicate 8 (Action.poll fun _ => none)

/-- The update of one slot drops the other slots of the account. -/
theorem supplied_slot_lost : ∃ es s,
    (System.storageMachine .unhashed).Run (System.spawn {} none) es s ∧
      lastSupplied 1 2 es = some 10 ∧ s.handler.db.slot? 1 2 = none ∧ ¬ HoldsSupplied es s := by
  have lost : ((System.storageMachine .unhashed).exec updateAfterFetch
      (System.spawn {} none)).map
        (fun (s, es) => (lastSupplied 1 2 es, s.handler.db.slot? 1 2)) =
      some (some 10, none) := by
    decide +kernel
  obtain ⟨⟨s, es⟩, eq, result⟩ := Option.map_eq_some_iff.mp lost
  obtain ⟨supplied, slot⟩ := Prod.mk.inj result
  refine ⟨es, s, Machine.run_of_exec _ eq, supplied, slot, fun holds => ?_⟩
  have kept := holds 1 2 10 supplied
  rw [slot] at kept
  cases kept

end FoundryCore.ForkDb
