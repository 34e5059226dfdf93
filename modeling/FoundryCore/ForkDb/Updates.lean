import FoundryCore.ForkDb.Listeners

/-!
# Update messages against fetches

An update message writes into the maps that the responses of the provider also write into,
and neither looks at what is there. A value set by an update is kept as long as no response
for its key brings another one and no later storage update leaves its slot out.
-/

open Std

namespace FoundryCore.ForkDb

open Library BackendHandler

/-- The value an event sets a key to. -/
def Event.update? (k : Key) : Event → Option Value
  | .updated k' v => if k' = k then some v else none
  | _ => none

/-- The value of the last update message for a key. -/
def latest (k : Key) (es : List Event) : Option Value := (es.filterMap (·.update? k)).getLast?

theorem latest_append (k : Key) (es out : List Event) :
    latest k (es ++ out) = (latest k out).or (latest k es) := by
  simp [latest, List.filterMap_append, List.getLast?_append]

theorem updated_mem_of_latest {k : Key} {v : Value} {es : List Event}
    (h : latest k es = some v) : .updated k v ∈ es := by
  obtain ⟨e, mem, eq⟩ := List.mem_filterMap.mp (List.mem_of_getLast? h)
  cases e <;> simp_all [Event.update?]

theorem latest_eq_none_iff {k : Key} {es : List Event} :
    latest k es = none ↔ ∀ v, .updated k v ∉ es := by
  simp only [latest, List.getLast?_eq_none_iff, List.filterMap_eq_nil_iff]
  constructor
  · intro none v mem
    simpa [Event.update?] using none _ mem
  · intro absent e mem
    cases e with
    | updated k' v =>
      have : k' ≠ k := by
        rintro rfl
        exact absent v mem
      simp [Event.update?, this]
    | _ => rfl

theorem latest_append_of_notMem {k : Key} {es out : List Event} (h : ∀ v, .updated k v ∉ out) :
    latest k (es ++ out) = latest k es := by
  rw [latest_append, latest_eq_none_iff.mpr h, Option.none_or]

/-- The database holds the last updated values, and whatever was answered for a key after an
update is the value of the last update before the answer. -/
structure UpToDate (es : List Event) (db : MemDb) : Prop where
  content : ∀ k v, latest k es = some v → db.get? k = some v
  answers : ∀ before k l value after v, es = before ++ Event.answered k l value :: after →
    latest k before = some v → value = .ok v

/-! ## What update messages write -/

/-- A storage update that names the account of the key also names its slot. -/
def BackendRequest.Covers : BackendRequest → Key → Prop
  | .updateStorage data, .storage address idx => ∀ slots, data[address]? = some slots → idx ∈ slots
  | _, _ => True

/-- An update message sets the keys it names, and touches no other key that it covers. -/
theorem onRequest_updates (h : BackendHandler) (req : BackendRequest) (aside : req.read? = none)
    (k : Key) :
    (∀ v, latest k (h.onRequest req).2 = some v → (h.onRequest req).1.db.get? k = some v) ∧
    (latest k (h.onRequest req).2 = none → req.Covers k →
      (h.onRequest req).1.db.get? k = h.db.get? k) := by
  cases req with
  | basic | storage | blockHash => simp [BackendRequest.read?] at aside
  | fullBlock | transaction | anyRequest | setPinnedBlock =>
    exact ⟨fun v eq => by simp [onRequest, latest] at eq, fun _ _ => rfl⟩
  | updateAddress data =>
    refine ⟨fun v eq => ?_, fun none _ => ?_⟩
    · obtain ⟨⟨address, info⟩, mem, eq⟩ := List.mem_map.mp (updated_mem_of_latest eq)
      obtain ⟨rfl, rfl⟩ := by simpa using eq
      have entry := ExtTreeMap.mem_toList_iff_getElem?_eq_some.mp mem
      simp [onRequest, MemDb.get?, getElem?_insertMany_toList, entry]
    · cases k with
      | account address =>
        cases entry : data[address]? with
        | none => simp [onRequest, MemDb.get?, getElem?_insertMany_toList, entry]
        | some info =>
          refine absurd (List.mem_map.mpr ⟨(address, info), ?_, rfl⟩) (latest_eq_none_iff.mp none _)
          exact ExtTreeMap.mem_toList_iff_getElem?_eq_some.mpr entry
      | _ => rfl
  | updateStorage data =>
    refine ⟨fun v eq => ?_, fun none covers => ?_⟩
    · obtain ⟨⟨address, slots⟩, mem, slot⟩ := List.mem_flatMap.mp (updated_mem_of_latest eq)
      obtain ⟨⟨idx, value⟩, mem', eq⟩ := List.mem_map.mp slot
      obtain ⟨rfl, rfl⟩ := by simpa using eq
      have entry := ExtTreeMap.mem_toList_iff_getElem?_eq_some.mp mem
      have entry' := ExtTreeMap.mem_toList_iff_getElem?_eq_some.mp mem'
      simp [onRequest, MemDb.get?, getElem?_insertMany_toList, entry, entry']
    · cases k with
      | storage address idx =>
        cases entry : data[address]? with
        | none => simp [onRequest, MemDb.get?, getElem?_insertMany_toList, entry]
        | some slots =>
          obtain ⟨value, entry'⟩ := ExtTreeMap.mem_iff_isSome_getElem?.mp (covers slots entry)
            |> Option.isSome_iff_exists.mp
          refine absurd (List.mem_flatMap.mpr ⟨(address, slots), ?_,
            List.mem_map.mpr ⟨(idx, value), ?_, rfl⟩⟩) (latest_eq_none_iff.mp none _)
          · exact ExtTreeMap.mem_toList_iff_getElem?_eq_some.mpr entry
          · exact ExtTreeMap.mem_toList_iff_getElem?_eq_some.mpr entry'
      | _ => rfl
  | updateBlockHash data =>
    refine ⟨fun v eq => ?_, fun none _ => ?_⟩
    · obtain ⟨⟨number, hash⟩, mem, eq⟩ := List.mem_map.mp (updated_mem_of_latest eq)
      obtain ⟨rfl, rfl⟩ := by simpa using eq
      have entry := ExtTreeMap.mem_toList_iff_getElem?_eq_some.mp mem
      simp [onRequest, MemDb.get?, getElem?_insertMany_toList, entry]
    · cases k with
      | blockHash number =>
        cases entry : data[number]? with
        | none => simp [onRequest, MemDb.get?, getElem?_insertMany_toList, entry]
        | some hash =>
          refine absurd (List.mem_map.mpr ⟨(number, hash), ?_, rfl⟩) (latest_eq_none_iff.mp none _)
          exact ExtTreeMap.mem_toList_iff_getElem?_eq_some.mpr entry
      | _ => rfl

/-! ## Keeping updates -/

/-- No update message about to be handled leaves out an updated slot of an account it names,
and no response about to be taken in for an updated key brings anything but the updated
value, unless the handler panics on it. -/
def KeepsUpdates (revm : Revm) (es : List Event) (s : System) : Action → Prop
  | .call _ | .dropLast => True
  | .poll ready =>
    (∀ req rest k v, s.pc = .drain → s.handler.queuedRequests = req :: rest →
      latest k es = some v → req.Covers k) ∧
    (∀ n request rest output k v, s.pc = .polling (n + 1) →
      swapRemove s.handler.pendingRequests n = some (request, rest) →
      ready request = some output → request.key? = some k → latest k es = some v →
      malformed revm request output = true ∨ fetched revm request output = some v)

namespace UpToDate

variable {es out : List Event} {db db' : MemDb}

/-- Nothing is answered and the updates in `out` reach the database. -/
theorem silent (u : UpToDate es db) (quiet : ∀ k l value, .answered k l value ∉ out)
    (content : ∀ k v, latest k (es ++ out) = some v → db'.get? k = some v) :
    UpToDate (es ++ out) db' := by
  refine ⟨content, fun before k l value after v split set => ?_⟩
  obtain ⟨mid, rfl, rest⟩ | ⟨mid, rfl, rest⟩ := List.append_eq_append_iff.mp split
  · exact absurd (by simp [rest]) (quiet k l value)
  · cases mid with
    | nil =>
      have first : out = .answered k l value :: after := by simpa using rest.symm
      exact absurd (by simp [first]) (quiet k l value)
    | cons e mid =>
      obtain ⟨rfl, rfl⟩ : .answered k l value = e ∧ after = mid ++ out := by simpa using rest
      exact u.answers before k l value mid v rfl set

/-- Answers that bring the last update of their key keep the history up to date. -/
theorem answering (u : UpToDate es db) (quiet : ∀ k v, .updated k v ∉ out)
    (brings : ∀ k l value v, .answered k l value ∈ out → latest k es = some v → value = .ok v)
    (content : ∀ k v, latest k es = some v → db'.get? k = some v) :
    UpToDate (es ++ out) db' := by
  refine ⟨fun k v set => content k v ?_, fun before k l value after v split set => ?_⟩
  · rwa [latest_append_of_notMem (quiet k)] at set
  obtain ⟨mid, rfl, rest⟩ | ⟨mid, rfl, rest⟩ := List.append_eq_append_iff.mp split
  · refine brings k l value v (by simp [rest]) ?_
    rwa [latest_append_of_notMem fun v mem => quiet k v (by simp [rest, mem])] at set
  · cases mid with
    | nil =>
      have first : out = .answered k l value :: after := by simpa using rest.symm
      refine brings k l value v (by simp [first]) ?_
      simpa using set
    | cons e mid =>
      obtain ⟨rfl, rfl⟩ : .answered k l value = e ∧ after = mid ++ out := by simpa using rest
      exact u.answers before k l value mid v rfl set

end UpToDate

theorem updated_notMem_notify {k k' : Key} {ls : Option (List Sender)}
    {value : DatabaseResult Value} {v : Value} : .updated k' v ∉ notify k ls value := by
  simp [notify]

/-- A step that keeps updates leaves the database and the answers up to date. -/
theorem upToDate_step {revm : Revm} {es out : List Event} {s s' : System}
    {a : Action} (u : UpToDate es s.handler.db) (keeps : KeepsUpdates revm es s a)
    (effect : System.Effect revm s s' a out) : UpToDate (es ++ out) s'.handler.db := by
  cases effect with
  | quiet _ _ _ _ db _ => simpa [db] using u
  | sends _ _ _ _ handler _ => simpa [handler] using u
  | handles ready _ req rest pc queue handler _ _ =>
    obtain ⟨k, l, v, -, stored, eq⟩ | ⟨k, l, h', -, -, joins, eq⟩ | ⟨aside, -, updates⟩ :=
      onRequest_cases { s.handler with queuedRequests := rest } req
    · obtain ⟨eq, rfl⟩ := Prod.mk.inj (handler.symm.trans eq)
      refine u.answering (by simp) (fun k' l' value v' mem set => ?_) fun k v set => ?_
      · obtain ⟨rfl, rfl, rfl⟩ : k' = k ∧ l' = l ∧ value = .ok v := by simpa using mem
        have := u.content k' v' set
        simp_all
      · simpa [eq] using u.content k v set
    · obtain ⟨rfl, rfl⟩ := Prod.mk.inj (handler.symm.trans eq)
      exact u.answering (by simp) (by simp) fun k v set => joins.db ▸ u.content k v set
    · have writes := onRequest_updates { s.handler with queuedRequests := rest } req aside
      rw [handler] at updates writes
      refine u.silent (fun k l value mem => ?_) fun k v set => ?_
      · obtain ⟨_, _, eq⟩ := updates _ mem
        simp at eq
      · cases now : latest k out with
        | some w =>
          obtain rfl : w = v := by simpa [latest_append, now] using set
          exact (writes k).1 w now
        | none =>
          have old : latest k es = some v := by simpa [latest_append, now] using set
          rw [(writes k).2 now (keeps.1 req rest k v pc queue old)]
          exact u.content k v old
  | readies ready _ n request rest output pc removed answer handler _ _ =>
    obtain ⟨k, value, key, brought, done, rfl⟩ | ⟨key, sender, reply, -, eq, rfl⟩ :=
      onReady_cases handler
    · have read : ¬ malformed revm request output = true := fun bad => by
        simp [onReady_eq_none_iff.mpr bad] at handler
      -- a response for an updated key is a success with the updated value
      have same : ∀ v, latest k es = some v → value = .ok v := by
        intro v set
        rw [(keeps.2 n request rest output k v pc removed answer key set).resolve_left read]
          at brought
        cases value <;> simp_all [Except.toOption]
      refine u.answering (fun k v => updated_notMem_notify) (fun k' l value' v mem set => ?_)
        fun k' v set => ?_
      · obtain ⟨rfl, rfl⟩ : k = k' ∧ value = value' := by
          simp only [notify, List.mem_cons, reduceCtorEq, List.mem_map, false_or] at mem
          obtain ⟨_, -, eq⟩ := mem
          simp_all
        exact same v set
      · rw [done.db]
        by_cases this : k' = k
        · subst this
          simp [same v set]
        · cases value <;> simpa [this] using u.content k' v set
    · exact u.answering (by simp) (by simp) fun k v set => by simpa [eq] using u.content k v set
  | panics _ _ _ _ _ _ _ _ _ _ handler => simpa [handler] using u

/-- In a run whose steps keep updates, every updated key holds the value of its last update,
and every answer given for it since then is that value. -/
theorem updates_kept {revm : Revm} {db : MemDb} {pinned : Option BlockId}
    {es : List Event} {s : System}
    (run : (System.machine revm).Guarded (KeepsUpdates revm) (System.spawn db pinned)
      es s) : UpToDate es s.handler.db := by
  refine Machine.Guarded.invariant (P := fun es s => UpToDate es s.handler.db) ?_ ?_ run
  · exact ⟨by simp [latest], by simp⟩
  · intro es s a s' out u keeps eq
    exact upToDate_step u keeps (System.step_effect eq)

/-- A step that does not keep updates leaves a history that is not up to date. -/
theorem keepsUpdates_of_upToDate {revm : Revm} {es : List Event} {s : System}
    {a : Action} (consistent : s.pc ≠ .panicked → s.handler.Consistent)
    (u : Machine.Reaching (System.machine revm) (fun es s => UpToDate es s.handler.db) es s
      a) :
    KeepsUpdates revm es s a := by
  cases a with
  | call | dropLast => trivial
  | poll ready =>
    refine ⟨fun req rest k v pc queue set => ?_, fun n request rest output k v pc removed answer key
      set => ?_⟩
    · cases req with
      | updateStorage data =>
        cases k with
        | storage address idx =>
          intro slots entry
          by_contra absent
          -- the message replaces the whole account, so the slot is gone from the database
          have unset : ∀ v, .updated (.storage address idx) v ∉
              (onRequest { s.handler with queuedRequests := rest } (.updateStorage data)).2 := by
            intro v mem
            obtain ⟨⟨address', slots'⟩, outer, inner⟩ := List.mem_flatMap.mp mem
            obtain ⟨⟨idx', value⟩, mem', eq⟩ := List.mem_map.mp inner
            obtain ⟨⟨rfl, rfl⟩, rfl⟩ := by simpa using eq
            have entry' := ExtTreeMap.mem_toList_iff_getElem?_eq_some.mp outer
            obtain rfl : slots' = slots := by simpa [entry] using entry'.symm
            have entry'' := ExtTreeMap.mem_toList_iff_getElem?_eq_some.mp mem'
            exact absent (ExtTreeMap.mem_iff_isSome_getElem?.mpr (by simp [entry'']))
          have reached := u _ _ (System.step_of_drain pc queue)
          have stored := reached.content (.storage address idx) v
            (by rw [latest_append_of_notMem unset, set])
          simp [onRequest, MemDb.get?, getElem?_insertMany_toList, entry, absent] at stored
        | _ => trivial
      | _ => cases k <;> trivial
    · refine or_iff_not_imp_left.mpr fun read => ?_
      have consistent := consistent (by simp [pc])
      have flying : k ∈ s.handler.inFlight := by
        have perm := (swapRemove_perm removed).filterMap ProviderRequest.key?
        simp [inFlight, perm.mem_iff, key]
      obtain ⟨ls, listed⟩ := Option.isSome_iff_exists.mp ((consistent.listed k).mpr flying)
      obtain ⟨l, others, rfl⟩ := List.exists_cons_of_ne_nil fun empty =>
        consistent.nonempty k (empty ▸ listed)
      obtain ⟨h', out, took⟩ :=
        exists_onReady { s.handler with pendingRequests := rest } (Bool.eq_false_iff.mpr read)
      obtain ⟨k', value, key', brought, -, rfl⟩ | ⟨none, -⟩ := onReady_cases took
      · obtain rfl : k' = k := by simpa [key'] using key
        have reached : UpToDate (es ++ notify k' (s.handler.listeners k') value) h'.db :=
          u _ _ (System.step_of_ready pc removed answer took)
        have first : es ++ notify k' (s.handler.listeners k') value =
            (es ++ [Event.completed k']) ++ Event.answered k' l value ::
              others.map (.answered k' · value) := by
          simp [notify, listed]
        have ok := reached.answers (es ++ [Event.completed k']) k' l value _ v first
          (by rw [latest_append_of_notMem (by simp), set])
        rw [← brought, ok]
        rfl
      · simp [none] at key

/-- The steps that keep updates are exactly those after which the database and the answers are
up to date, over whole runs. -/
theorem updates_kept_iff {revm : Revm} {db : MemDb} {pinned : Option BlockId}
    {es : List Event} {s : System} :
    (System.machine revm).Guarded (KeepsUpdates revm) (System.spawn db pinned) es s ↔
      (System.machine revm).Guarded
        ((System.machine revm).Reaching fun es s => UpToDate es s.handler.db)
        (System.spawn db pinned) es s := by
  refine ⟨fun run => run.imp ?_, fun run => run.imp ?_⟩
  · intro es s a _ _ run keeps _ s' out eq
    exact updates_kept (run.step keeps eq)
  · intro es s a _ _ run reaching _
    exact keepsUpdates_of_upToDate (reachable_sound run.run).1 reaching

/-- An account is fetched, updated while the fetch is in flight, and then the provider answers. -/
def fetchOvertakesUpdate : List Action :=
  [Action.call (.basic 1)] ++ List.replicate 10 (Action.poll fun _ => none) ++
    [Action.call (.insertOrUpdateAddress
      (ExtTreeMap.empty.insert 1 ⟨7, 0, KECCAK_EMPTY, none, none⟩))] ++
    List.replicate 8 (Action.poll fun _ => none) ++ List.replicate 2 (Action.poll fun
      | .account _ _ => some (.ok (5, 0, []))
      | _ => none)

/-- Two storage updates of one account, each with one slot. -/
def slotLeftOut : List Action :=
  [Action.call (.insertOrUpdateStorage (ExtTreeMap.empty.insert 1 (ExtTreeMap.empty.insert 2 10))),
    .call (.insertOrUpdateStorage (ExtTreeMap.empty.insert 1 (ExtTreeMap.empty.insert 3 11)))] ++
    List.replicate 8 (Action.poll fun _ => none)

/-- A response that was requested before an update replaces the updated value, and a later
storage update drops the slots it does not name. -/
theorem updates_lost :
    (∃ es s, (System.machine .unhashed).exec fetchOvertakesUpdate (System.spawn {} none) =
      some (s, es) ∧ ¬ UpToDate es s.handler.db) ∧
    (∃ es s, (System.machine .unhashed).exec slotLeftOut (System.spawn {} none) =
      some (s, es) ∧ ¬ UpToDate es s.handler.db) := by
  have overtaken : ((System.machine .unhashed).exec fetchOvertakesUpdate
      (System.spawn {} none)).map
        (fun (s, es) => (latest (.account 1) es, s.handler.db.get? (.account 1))) =
      some (some (.account ⟨7, 0, KECCAK_EMPTY, none, none⟩),
        some (.account ⟨5, 0, KECCAK_EMPTY, none, some ⟨[]⟩⟩)) := by
    decide +kernel
  have dropped : ((System.machine .unhashed).exec slotLeftOut (System.spawn {} none)).map
        (fun (s, es) => (latest (.storage 1 2) es, s.handler.db.get? (.storage 1 2))) =
      some (some (.slot 10), none) := by
    decide +kernel
  refine ⟨?_, ?_⟩
  · obtain ⟨⟨s, es⟩, eq, result⟩ := Option.map_eq_some_iff.mp overtaken
    obtain ⟨set, stored⟩ := Prod.mk.inj result
    refine ⟨es, s, eq, fun u => ?_⟩
    have := stored.symm.trans (u.content _ _ set)
    simp at this
  · obtain ⟨⟨s, es⟩, eq, result⟩ := Option.map_eq_some_iff.mp dropped
    obtain ⟨set, stored⟩ := Prod.mk.inj result
    refine ⟨es, s, eq, fun u => ?_⟩
    have := stored.symm.trans (u.content _ _ set)
    simp at this

end FoundryCore.ForkDb
