import FoundryCore.ForkDb.Updates

/-!
# Committing state changes

`MemDb::do_commit` writes a change set into the database that a handler serves. A slot set to
zero and an account that is destroyed are committed by removing them, and the handler takes
what is not there for what has not been fetched yet.
-/

open Std

namespace FoundryCore.ForkDb

open Library BackendHandler

/-! ## Change sets -/

/-- The functions of the EVM's own types that a commit calls. -/
structure Primitives where
  isEmpty : AccountInfo → Bool
  isCodeEmpty : Bytecode → Bool
  hashSlow : Bytecode → B256

structure EvmStorageSlot where
  presentValue : U256
deriving DecidableEq, Repr

/-- The status flags that a commit looks at. -/
structure AccountStatus where
  created : Bool := false
  selfDestructed : Bool := false
deriving DecidableEq, Repr

structure Account where
  info : AccountInfo
  storage : ExtTreeMap U256 EvmStorageSlot := ∅
  status : AccountStatus := {}

abbrev Changes := ExtTreeMap Address Account

variable (prim : Primitives)

/-- The account is committed by removing it. -/
def Account.removed (acc : Account) : Bool := prim.isEmpty acc.info || acc.status.selfDestructed

/-- The account info with the hash of its code. -/
def Account.committedInfo (acc : Account) : AccountInfo :=
  match (acc.info.code.filter fun code => !prim.isCodeEmpty code).map prim.hashSlow with
  | some codeHash => { acc.info with codeHash }
  | none => if acc.info.codeHash = 0 then { acc.info with codeHash := KECCAK_EMPTY } else acc.info

namespace MemDb

/-- Commits one slot. -/
def commitSlot (slots : StorageInfo) (index : U256) (value : EvmStorageSlot) : StorageInfo :=
  if value.presentValue = 0 then slots.erase index else slots.insert index value.presentValue

/-- Commits one account. -/
def commitAccount (db : MemDb) (address : Address) (acc : Account) : MemDb :=
  if acc.removed prim then
    { db with accounts := db.accounts.erase address, storage := db.storage.erase address }
  else
    let accStorage := if acc.status.created then ∅ else db.storage[address]?.getD ∅
    let accStorage := acc.storage.toList.foldl (fun slots (index, value) =>
      commitSlot slots index value) accStorage
    { db with
      accounts := db.accounts.insert address (acc.committedInfo prim)
      storage :=
        if accStorage.isEmpty then db.storage.erase address
        else db.storage.insert address accStorage }

/-- The implementation of `DatabaseCommit::commit`. -/
def doCommit (db : MemDb) (changes : Changes) : MemDb :=
  changes.toList.foldl (fun db (address, acc) => db.commitAccount prim address acc) db

end MemDb

/-! ## What a commit leaves -/

/-- What a key holds after its account was committed; `old` is what it held before. -/
def Account.leaves (acc : Account) (old : Option Value) : Key → Option Value
  | .account _ => if acc.removed prim then none else some (.account (acc.committedInfo prim))
  | .storage _ idx =>
    if acc.removed prim then none
    else match acc.storage[idx]? with
      | some slot => if slot.presentValue = 0 then none else some (.slot slot.presentValue)
      | none => if acc.status.created then none else old
  | .blockHash _ => old

/-- The account that a key belongs to. -/
def Key.address? : Key → Option Address
  | .account address | .storage address _ => some address
  | .blockHash _ => none

theorem MemDb.getElem?_commitSlots (slots : StorageInfo) (values : ExtTreeMap U256 EvmStorageSlot)
    (idx : U256) :
    (values.toList.foldl (fun slots (index, value) => commitSlot slots index value) slots)[idx]? =
      match (values[idx]? : Option EvmStorageSlot) with
      | some slot => if slot.presentValue = 0 then none else some slot.presentValue
      | none => slots[idx]? := by
  rw [foldl_toList _ (a := idx) (fun slots : StorageInfo => slots[idx]?) commitSlot
    (fun (slot : EvmStorageSlot) _ =>
      if slot.presentValue = 0 then none else some slot.presentValue)]
  · cases values[idx]? <;> rfl
  · intro slots index value
    simp only [commitSlot]
    split_ifs with zero same same <;> simp_all [getElem?_insert_eq, getElem?_erase_eq]

/-- An account without slots is taken out of the storage. -/
theorem MemDb.getElem?_store (storage : StorageData) (address : Address) (slots : StorageInfo)
    (address' : Address) (idx : U256) :
    ((if slots.isEmpty then storage.erase address
      else storage.insert address slots)[address']?.bind (·[idx]?)) =
      if address' = address then slots[idx]? else storage[address']?.bind (·[idx]?) := by
  split_ifs with empty same same
  · obtain rfl := ExtTreeMap.isEmpty_iff.mp empty
    simp [same]
  · simp [getElem?_erase_eq, same]
  · simp [same]
  · simp [getElem?_insert_eq, same]

theorem MemDb.get?_commitAccount (db : MemDb) (address : Address) (acc : Account) (k : Key) :
    (db.commitAccount prim address acc).get? k =
      if k.address? = some address then acc.leaves prim (db.get? k) k else db.get? k := by
  cases k with
  | account address' =>
    simp only [commitAccount, Key.address?, Account.leaves, get?, Option.some.injEq]
    split_ifs with removed same same <;> simp_all [getElem?_insert_eq, getElem?_erase_eq]
  | storage address' idx =>
    simp only [commitAccount, Key.address?, Account.leaves, Option.some.injEq]
    by_cases removed : acc.removed prim
    · by_cases same : address' = address <;>
        simp [removed, same, get?, getElem?_erase_eq]
    · simp only [removed, Bool.false_eq_true, ↓reduceIte, get?]
      rw [getElem?_store, getElem?_commitSlots]
      by_cases same : address' = address
      · subst same
        simp only [↓reduceIte]
        cases acc.storage[idx]? with
        | some slot =>
          dsimp only
          split_ifs <;> rfl
        | none => by_cases created : acc.status.created <;> cases db.storage[address']? <;>
            simp [created]
      · simp [same]
  | blockHash number =>
    simp only [commitAccount, Key.address?]
    split_ifs <;> simp_all [get?]

/-- The account in a change set that a key belongs to. -/
def Changes.account? (changes : Changes) (k : Key) : Option Account :=
  k.address?.bind (changes[·]?)

/-- A commit changes the keys of the accounts in the change set, each by its own account. -/
theorem MemDb.get?_doCommit (db : MemDb) (changes : Changes) (k : Key) :
    (db.doCommit prim changes).get? k =
      match changes.account? k with
      | some acc => acc.leaves prim (db.get? k) k
      | none => db.get? k := by
  cases belongs : k.address? with
  | none =>
    have kept : ∀ (accs : List (Address × Account)) (db : MemDb),
        (accs.foldl (fun db (address, acc) => db.commitAccount prim address acc) db).get? k =
          db.get? k := by
      intro accs
      induction accs with
      | nil => simp
      | cons entry accs ih =>
        intro db
        rw [List.foldl_cons, ih, get?_commitAccount, belongs]
        simp
    simpa [doCommit, Changes.account?, belongs] using kept _ db
  | some address =>
    rw [doCommit, foldl_toList _ (a := address) (fun db : MemDb => db.get? k)
      (fun db address acc => db.commitAccount prim address acc)
      (fun acc old => acc.leaves prim old k)]
    · simp only [Changes.account?, belongs, Option.bind_some]
      cases changes[address]? <;> rfl
    · intro db address' acc
      rw [get?_commitAccount, belongs]
      simp

/-! ## Commits between the steps of a handler -/

/-- An account that is not there. -/
def emptyAccount : AccountInfo := ⟨0, 0, KECCAK_EMPTY, none, none⟩

/-- The value a change set gives a key. -/
def Changes.value? (changes : Changes) : Key → Option Value
  | .account address => changes[address]?.map fun acc =>
    .account (if acc.removed prim then emptyAccount else acc.committedInfo prim)
  | .storage address idx =>
    (changes[address]?.bind (·.storage[idx]?)).map fun slot => .slot slot.presentValue
  | .blockHash _ => none

/-- The change set is about the key: it gives it a value, or drops the storage the key is in. -/
def Changes.touches (changes : Changes) (k : Key) : Bool :=
  match changes.account? k with
  | some acc => acc.removed prim || acc.status.created || (changes.value? prim k).isSome
  | none => false

/-- What an observer of commits sees. -/
inductive CommitEvent
  | committed (changes : Changes)
  | emitted (event : Event)

/-- The event updates the key. -/
def CommitEvent.Updates (k : Key) : CommitEvent → Prop
  | .committed changes => changes.touches prim k
  | .emitted event => ∃ v, event = .updated k v

inductive CommitAction
  | step (a : Action)
  | commit (changes : Changes)

/-- The fork backend over a database into which changes are committed. -/
def System.commitMachine (revm : Revm) : Machine System CommitAction CommitEvent where
  step s
    | .step a => ((machine revm).step s a).map fun (s', out) => (s', out.map .emitted)
    | .commit changes =>
      some ({ s with handler := { s.handler with db := s.handler.db.doCommit prim changes } },
        [.committed changes])

/-- A read that is handled after a commit is answered with the committed value, unless another
update of its key came between the commit and the answer. -/
def CommitsRead (es : List CommitEvent) : Prop :=
  ∀ before changes mid k l answer after v,
    es = before ++ CommitEvent.committed changes ::
      (mid ++ CommitEvent.emitted (.answered k l answer) :: after) →
    changes.value? prim k = some v → (∀ e ∈ mid, ¬ e.Updates prim k) →
    .emitted (.accepted k l) ∉ before → answer = .ok v

/-- What an event leaves of the value that the last update of a key gave it, if that update was
a commit. -/
def CommitEvent.keeps (k : Key) (old : Option Value) : CommitEvent → Option Value
  | .committed changes => if changes.touches prim k then changes.value? prim k else old
  | .emitted (.updated k' _) => if k' = k then none else old
  | .emitted _ => old

/-- The value that the last update of a key gave it, if that update was a commit. -/
def lastCommitted (k : Key) (es : List CommitEvent) : Option Value :=
  es.foldl (fun old e => e.keeps prim k old) none

/-- The commit stores the value it gives the key. -/
def Changes.Stores (changes : Changes) : Key → Prop
  | .account address => ∀ acc, changes[address]? = some acc → ¬ acc.removed prim
  | .storage address idx => ∀ acc, changes[address]? = some acc → ¬ acc.removed prim ∧
      ∀ slot, acc.storage[idx]? = some slot → slot.presentValue ≠ 0
  | .blockHash _ => True

/-- A commit stores a value for every key it is about, and none of them is being fetched; a
storage update that names an account does not leave out a slot that was committed last. -/
def CommitsApart (es : List CommitEvent) (s : System) : CommitAction → Prop
  | .commit changes => ∀ k v, changes.value? prim k = some v →
      changes.Stores prim k ∧ k ∉ s.handler.inFlight
  | .step a => ∀ req, s.input a = .message req → ∀ k v, lastCommitted prim k es = some v →
      req.Covers k

section History

variable {prim} {es out : List CommitEvent} {k : Key} {v : Value}

theorem CommitEvent.keeps_of_not_updates {e : CommitEvent} (other : ¬ e.Updates prim k)
    (old : Option Value) : e.keeps prim k old = old := by
  cases e with
  | committed changes =>
    have untouched : changes.touches prim k = false := by simpa [Updates] using other
    simp [keeps, untouched]
  | emitted event =>
    cases event with
    | updated k' v =>
      have differs : k' ≠ k := by
        rintro rfl
        exact other ⟨v, rfl⟩
      simp [keeps, differs]
    | _ => rfl

theorem lastCommitted_append_of_not_updates (other : ∀ e ∈ out, ¬ e.Updates prim k) :
    lastCommitted prim k (es ++ out) = lastCommitted prim k es := by
  induction out using List.reverseRecOn with
  | nil => simp
  | append_singleton out e ih =>
    have now : lastCommitted prim k (es ++ (out ++ [e])) =
        e.keeps prim k (lastCommitted prim k (es ++ out)) := by
      simp [lastCommitted]
    rw [now, CommitEvent.keeps_of_not_updates (other e (by simp)),
      ih fun e mem => other e (by simp [mem])]

/-- A value committed last before some events of the handler is the last one if they do not
update its key. -/
theorem lastCommitted_emitted {events : List Event}
    (last : lastCommitted prim k (es ++ events.map .emitted) = some v) :
    (∀ w, .updated k w ∉ events) ∧ lastCommitted prim k es = some v := by
  induction events using List.reverseRecOn with
  | nil => simpa using last
  | append_singleton events e ih =>
    have now : lastCommitted prim k (es ++ (events ++ [e]).map .emitted) =
        (CommitEvent.emitted e).keeps prim k
          (lastCommitted prim k (es ++ events.map .emitted)) := by
      simp [lastCommitted]
    rw [now] at last
    cases e with
    | updated k' w =>
      simp only [CommitEvent.keeps] at last
      split_ifs at last with same
      obtain ⟨absent, old⟩ := ih last
      refine ⟨fun w' => ?_, old⟩
      simp [absent w', Ne.symm same]
    | _ =>
      obtain ⟨absent, old⟩ := ih last
      exact ⟨fun w' => by simp [absent w'], old⟩

theorem Changes.touches_of_value {changes : Changes} (value : changes.value? prim k = some v) :
    changes.touches prim k = true := by
  cases k with
  | account address =>
    obtain ⟨acc, entry, -⟩ := Option.map_eq_some_iff.mp value
    simp [touches, account?, Key.address?, entry, value]
  | storage address idx =>
    obtain ⟨slot, entry, -⟩ := Option.map_eq_some_iff.mp value
    obtain ⟨acc, entry, -⟩ := Option.bind_eq_some_iff.mp entry
    simp [touches, account?, Key.address?, entry, value]
  | blockHash number => simp [value?] at value

theorem lastCommitted_committed {changes : Changes} (value : changes.value? prim k = some v) :
    lastCommitted prim k (es ++ [CommitEvent.committed changes]) = some v := by
  simp [lastCommitted, CommitEvent.keeps, Changes.touches_of_value value, value]

/-- Where a later answer finds the committed value to be the last update. -/
theorem lastCommitted_of_split {before mid : List CommitEvent} {changes : Changes}
    (value : changes.value? prim k = some v) (other : ∀ e ∈ mid, ¬ e.Updates prim k) :
    lastCommitted prim k (before ++ CommitEvent.committed changes :: mid) = some v := by
  rw [List.append_cons, lastCommitted_append_of_not_updates other]
  exact lastCommitted_committed value

end History

/-- A value that the commit stores is there afterwards. -/
theorem MemDb.get?_doCommit_of_stores (db : MemDb) {changes : Changes} {k : Key} {v : Value}
    (value : changes.value? prim k = some v) (stores : changes.Stores prim k) :
    (db.doCommit prim changes).get? k = some v := by
  rw [get?_doCommit]
  cases k with
  | account address =>
    obtain ⟨acc, entry, rfl⟩ := Option.map_eq_some_iff.mp value
    have kept := stores acc entry
    simp [Changes.account?, Key.address?, entry, Account.leaves, kept]
  | storage address idx =>
    obtain ⟨slot, held, rfl⟩ := Option.map_eq_some_iff.mp value
    obtain ⟨acc, entry, slot_eq⟩ := Option.bind_eq_some_iff.mp held
    obtain ⟨kept, nonzero⟩ := stores acc entry
    simp only [Changes.account?, Key.address?, Option.bind_some, entry, Account.leaves, kept,
      slot_eq, if_neg (nonzero slot slot_eq), Bool.false_eq_true, ↓reduceIte]
  | blockHash number => simp [Changes.value?] at value

/-- A key that the commit is not about is left as it is. -/
theorem MemDb.get?_doCommit_of_not_touches (db : MemDb) {changes : Changes} {k : Key}
    (untouched : changes.touches prim k = false) :
    (db.doCommit prim changes).get? k = db.get? k := by
  rw [get?_doCommit]
  simp only [Changes.touches] at untouched
  cases belongs : changes.account? k with
  | none => rfl
  | some acc =>
    obtain ⟨⟨removed, created⟩, unset⟩ :
        (acc.removed prim = false ∧ acc.status.created = false) ∧ changes.value? prim k = none := by
      simpa [belongs] using untouched
    cases k with
    | account address =>
      have entry : changes[address]? = some acc := belongs
      simp [Changes.value?, entry] at unset
    | storage address idx =>
      have entry : changes[address]? = some acc := belongs
      have slot : acc.storage[idx]? = none := by simpa [Changes.value?, entry] using unset
      simp only [Account.leaves, removed, slot, created, Bool.false_eq_true, ↓reduceIte]
    | blockHash number => rfl

/-! ## Runs -/

section Step

variable {prim} {revm : Revm} {es : List CommitEvent} {s s' : System}

/-- What holds in a run: a value committed last is in the database and is not being fetched, and
every commit was read back. -/
structure Committing (prim : Primitives) (es : List CommitEvent) (h : BackendHandler) : Prop where
  stored : ∀ k v, lastCommitted prim k es = some v → h.db.get? k = some v ∧ k ∉ h.inFlight
  read : CommitsRead prim es

/-- Reads stay right when every answer that is added brings the value committed last. -/
theorem CommitsRead.append (r : CommitsRead prim es) {out : List CommitEvent}
    (brings : ∀ before k l answer after v,
      out = before ++ CommitEvent.emitted (.answered k l answer) :: after →
      lastCommitted prim k (es ++ before) = some v → answer = .ok v) :
    CommitsRead prim (es ++ out) := by
  intro before changes mid k l answer after v split value other later
  have last : lastCommitted prim k (before ++ CommitEvent.committed changes :: mid) = some v :=
    lastCommitted_of_split value other
  rw [← List.cons_append, ← List.append_assoc] at split
  obtain ⟨rest, pre, rfl⟩ | ⟨rest, rfl, post⟩ := List.append_eq_append_iff.mp split
  · exact brings rest k l answer after v rfl (pre ▸ last)
  · cases rest with
    | nil => exact brings [] k l answer after v (by simpa using post.symm) (by simpa using last)
    | cons e rest =>
      obtain ⟨rfl, rfl⟩ : .emitted (.answered k l answer) = e ∧ after = rest ++ out := by
        simpa using post
      exact r before changes mid k l answer rest v (by simp) value other later

/-- Events that answer no read and update no committed key. -/
theorem Committing.aside {h h' : BackendHandler} (c : Committing prim es h)
    {out : List CommitEvent} (noAnswer : ∀ k l answer, .emitted (.answered k l answer) ∉ out)
    (stored : ∀ k v, lastCommitted prim k (es ++ out) = some v →
      h'.db.get? k = some v ∧ k ∉ h'.inFlight) : Committing prim (es ++ out) h' where
  stored := stored
  read := c.read.append fun before k l answer after v eq =>
    absurd (by simp [eq]) (noAnswer k l answer)

/-- A step of the handler. -/
theorem committing_step {a : Action} {out : List Event} (c : Committing prim es s.handler)
    (apart : CommitsApart prim es s (.step a))
    (step : (System.machine revm).step s a = some (s', out)) :
    Committing prim (es ++ out.map .emitted) s'.handler := by
  have takes := System.step_takes step
  have covers : ∀ req, s.input a = .message req → ∀ k v, lastCommitted prim k es = some v →
    req.Covers k := apart
  generalize s.input a = input at takes covers
  cases takes with
  | nothing db blockId listeners pending =>
    have keys : s'.handler.inFlight.Perm s.handler.inFlight := pending.filterMap _
    refine c.aside (by simp) fun k v last => ?_
    rw [db, keys.mem_iff]
    exact c.stored k v (by simpa using last)
  | message req rest out _ queue handler =>
    obtain ⟨k, l, v, -, held, eq⟩ | ⟨k, l, h', -, absent, joins, eq⟩ | ⟨aside, same, updates⟩ :=
      onRequest_cases { s.handler with queuedRequests := rest } req
    · obtain ⟨eq, rfl⟩ := Prod.mk.inj (handler.symm.trans eq)
      rw [eq]
      refine ⟨fun k' v' last => c.stored k' v' (lastCommitted_emitted last).2, c.read.append ?_⟩
      intro before k' l' answer after v' split last
      rcases List.append_eq_singleton_iff.mp split.symm with ⟨rfl, one⟩ | ⟨-, absurd⟩
      · obtain ⟨⟨rfl, rfl, rfl⟩, -⟩ : (k' = k ∧ l' = l ∧ answer = .ok v) ∧ after = [] := by
          simpa using one
        have there := (c.stored k' v' (by simpa using last)).1
        exact congrArg Except.ok (Option.some.inj (held.symm.trans there))
      · simp at absurd
    · obtain ⟨rfl, rfl⟩ := Prod.mk.inj (handler.symm.trans eq)
      refine c.aside (by simp) fun k' v last => ?_
      obtain ⟨there, flying⟩ := c.stored k' v (lastCommitted_emitted last).2
      refine ⟨joins.db ▸ there, ?_⟩
      have differs : k' ≠ k := by
        rintro rfl
        cases there.symm.trans absent
      rw [joins.inFlight, List.mem_append, not_or]
      refine ⟨flying, ?_⟩
      split_ifs <;> simp [differs]
    · have writes := onRequest_updates { s.handler with queuedRequests := rest } req aside
      rw [handler] at same updates writes
      refine c.aside (fun k l answer mem => ?_) fun k v last => ?_
      · obtain ⟨_, _, eq⟩ := updates _ (by simpa using mem)
        cases eq
      · obtain ⟨absent, last⟩ := lastCommitted_emitted last
        obtain ⟨there, flying⟩ := c.stored k v last
        rw [(writes k).2 (latest_eq_none_iff.mpr absent) (covers req rfl k v last), same.inFlight]
        exact ⟨there, flying⟩
  | response request rest output out pending handler =>
    have keys := pending.filterMap ProviderRequest.key?
    obtain ⟨k, value, key, -, done, rfl⟩ | ⟨-, sender, reply, -, eq, rfl⟩ :=
      onReady_cases handler
    · -- the key is in flight, so it was not committed last
      have uncommitted : ∀ v, lastCommitted prim k es ≠ some v := by
        intro v last
        refine (c.stored k v last).2 (List.mem_filterMap.mpr ⟨request, ?_, key⟩)
        exact pending.mem_iff.mpr (.head _)
      refine ⟨fun k' v last => ?_, c.read.append fun before k' l answer after v split last => ?_⟩
      · obtain ⟨-, old⟩ := lastCommitted_emitted last
        have differs : k' ≠ k := by
          rintro rfl
          exact uncommitted v old
        obtain ⟨there, flying⟩ := c.stored k' v old
        refine ⟨?_, fun mem => flying ?_⟩
        · rw [done.db]
          cases value <;> simpa [differs] using there
        · obtain ⟨request', mem, key'⟩ := List.mem_filterMap.mp mem
          have kept : s'.handler.pendingRequests = rest := done.pending
          exact List.mem_filterMap.mpr
            ⟨request', pending.mem_iff.mpr (.tail _ (kept ▸ mem)), key'⟩
      · obtain ⟨events, rest', emitted, rfl, tail⟩ := List.map_eq_append_iff.mp split
        obtain ⟨e, rest', rfl, same, -⟩ := List.map_eq_cons_iff.mp tail
        obtain rfl : e = .answered k' l answer := CommitEvent.emitted.inj same
        have there : Event.answered k' l answer ∈ notify k (s.handler.listeners k) value :=
          emitted ▸ (by simp)
        obtain rfl : k = k' := by
          simp only [notify, List.mem_cons, List.mem_map] at there
          grind
        exact absurd (lastCommitted_emitted last).2 (uncommitted v)
    · rw [eq]
      refine c.aside (by simp) fun k v last => ?_
      obtain ⟨there, flying⟩ := c.stored k v (lastCommitted_emitted last).2
      refine ⟨there, fun mem => flying ?_⟩
      obtain ⟨request', mem, key⟩ := List.mem_filterMap.mp mem
      exact List.mem_filterMap.mpr ⟨request', pending.mem_iff.mpr (.tail _ mem), key⟩
  | malformed request rest output pending _ _ handler =>
    rw [handler]
    refine c.aside (by simp) fun k v last => ?_
    obtain ⟨there, flying⟩ := c.stored k v (by simpa using last)
    refine ⟨there, fun mem => flying ?_⟩
    obtain ⟨request', mem, key⟩ := List.mem_filterMap.mp mem
    exact List.mem_filterMap.mpr ⟨request', pending.mem_iff.mpr (.tail _ mem), key⟩

/-- A commit. -/
theorem committing_commit {changes : Changes} (c : Committing prim es s.handler)
    (apart : CommitsApart prim es s (.commit changes)) :
    Committing prim (es ++ [CommitEvent.committed changes])
      { s.handler with db := s.handler.db.doCommit prim changes } := by
  refine c.aside (by simp) fun k v last => ?_
  cases touched : changes.touches prim k with
  | true =>
    have value : changes.value? prim k = some v := by
      simpa [lastCommitted, CommitEvent.keeps, touched] using last
    obtain ⟨stores, flying⟩ := apart k v value
    exact ⟨MemDb.get?_doCommit_of_stores prim _ value stores, flying⟩
  | false =>
    have old : lastCommitted prim k es = some v := by
      simpa [lastCommitted, CommitEvent.keeps, touched] using last
    exact ⟨(MemDb.get?_doCommit_of_not_touches prim _ touched).trans (c.stored k v old).1,
      (c.stored k v old).2⟩

end Step

/-- In a run whose commits store a value for every key they are about while none of these keys is
being fetched, and whose storage updates leave no committed slot out, every read that is handled
after a commit is answered with the committed value until another update of the key. -/
theorem commits_read {revm : Revm} {db : MemDb} {pinned : Option BlockId}
    {es : List CommitEvent} {s : System}
    (run : (System.commitMachine prim revm).Guarded (CommitsApart prim)
      (System.spawn db pinned) es s) : CommitsRead prim es := by
  refine (run.invariant (P := fun es s => Committing prim es s.handler) ?_ ?_).read
  · refine ⟨by simp [lastCommitted], fun before changes mid k l answer after v split => ?_⟩
    simp at split
  · intro es s a s' out committing apart eq
    cases a with
    | step a =>
      obtain ⟨⟨_, out⟩, step, eq⟩ := Option.map_eq_some_iff.mp eq
      obtain ⟨rfl, rfl⟩ := Prod.mk.inj eq
      exact committing_step committing apart step
    | commit changes =>
      obtain ⟨rfl, rfl⟩ := by simpa [System.commitMachine] using eq
      exact committing_commit committing apart

/-- The EVM's functions as far as the runs below need them: no account has code. -/
def codeless : Primitives where
  isEmpty info :=
    (info.codeHash = KECCAK_EMPTY || info.codeHash = 0) && info.balance = 0 && info.nonce = 0
  isCodeEmpty code := code.raw.isEmpty
  hashSlow _ := KECCAK_EMPTY

/-- An account with a balance, and one slot. -/
def account1 (slot : U256) : Account where
  info := ⟨1, 0, KECCAK_EMPTY, none, none⟩
  storage := ExtTreeMap.empty.insert 2 ⟨slot⟩

/-- The provider's values. -/
def remote : (request : ProviderRequest) → Option request.Output
  | .storage _ _ _ => some (.ok 5)
  | .account _ _ => some (.ok (9, 0, []))
  | _ => none

/-- Changes are committed, a key is read, and the provider answers when it is asked. -/
def commitThenRead (acc : Account) (call : Call) : List CommitAction :=
  [CommitAction.commit (ExtTreeMap.empty.insert 1 acc), .step (.call call)] ++
    List.replicate 9 (CommitAction.step (.poll remote))

/-- The value a change set gives a key, and the event that is emitted. -/
def CommitEvent.parts (k : Key) : CommitEvent → Option (Option Value) × Option Event
  | .committed changes => (some (changes.value? prim k), none)
  | .emitted event => (none, some event)

/-- The input is no storage update. -/
def Input.writesNoStorage : Input → Bool
  | .message (.updateStorage _) => false
  | _ => true

theorem commitsApart_of_writesNoStorage {es : List CommitEvent} {s : System} {a : Action}
    (none : (s.input a).writesNoStorage = true) : CommitsApart prim es s (.step a) := by
  intro req input k v _
  rw [input] at none
  cases req <;> cases k <;> trivial

/-- A commit writes a slot, which is then read. -/
theorem commits_read_slot : ∃ es s,
    (System.commitMachine codeless .unhashed).exec (commitThenRead (account1 3) (.storage 1 2))
      (System.spawn {} none) = some (s, es) ∧
    es.map (CommitEvent.parts codeless (.storage 1 2)) =
      [(some (some (.slot 3)), none), (none, some (.answered (.storage 1 2) 0 (.ok (.slot 3))))] ∧
    CommitsRead codeless es := by
  have answered : ((System.commitMachine codeless .unhashed).exec
      (commitThenRead (account1 3) (.storage 1 2)) (System.spawn {} none)).map
        (fun (_, es) => es.map (CommitEvent.parts codeless (.storage 1 2))) =
      some [(some (some (.slot 3)), none),
        (none, some (.answered (.storage 1 2) 0 (.ok (.slot 3))))] := by
    decide +kernel
  obtain ⟨⟨s, es⟩, eq, parts⟩ := Option.map_eq_some_iff.mp answered
  have stores : CommitsApart codeless [] (System.spawn {} none)
      (.commit (ExtTreeMap.empty.insert 1 (account1 3))) := by
    intro k v value
    refine ⟨?_, by simp [System.spawn, inFlight]⟩
    cases k with
    | account address =>
      intro acc entry
      rw [getElem?_insert_eq] at entry
      split_ifs at entry with same
      · obtain rfl := Option.some.inj entry
        decide
      · simp at entry
    | storage address idx =>
      intro acc entry
      rw [getElem?_insert_eq] at entry
      split_ifs at entry with same
      · obtain rfl := Option.some.inj entry
        refine ⟨by decide, fun slot held => ?_⟩
        rw [account1, getElem?_insert_eq] at held
        split_ifs at held with slot_eq
        · obtain rfl := Option.some.inj held
          decide
        · simp at held
      · simp at entry
    | blockHash number => trivial
  have allowed : (System.commitMachine codeless .unhashed).Allowed (CommitsApart codeless)
      (commitThenRead (account1 3) (.storage 1 2)) [] (System.spawn {} none) := by
    exact ⟨stores, commitsApart_of_writesNoStorage _ rfl, commitsApart_of_writesNoStorage _ rfl,
      commitsApart_of_writesNoStorage _ rfl, commitsApart_of_writesNoStorage _ rfl,
      commitsApart_of_writesNoStorage _ rfl, commitsApart_of_writesNoStorage _ rfl,
      commitsApart_of_writesNoStorage _ rfl, commitsApart_of_writesNoStorage _ rfl,
      commitsApart_of_writesNoStorage _ rfl, commitsApart_of_writesNoStorage _ rfl, trivial⟩
  exact ⟨es, s, eq, parts, commits_read codeless (Machine.guarded_of_exec _ eq allowed)⟩

/-- The provider is asked for what was committed. -/
theorem not_commitsRead_of_parts {es : List CommitEvent} {k : Key} {l : Sender} {v : Value}
    {answer : DatabaseResult Value} (differs : answer ≠ .ok v)
    (parts : es.map (CommitEvent.parts prim k) = [(some (some v), none),
      (none, some (.accepted k l)), (none, some (.completed k)),
      (none, some (.answered k l answer))]) : ¬ CommitsRead prim es := by
  intro read
  obtain ⟨e₀, _, rfl, h₀, tail⟩ := List.map_eq_cons_iff.mp parts
  have value : ∃ changes, e₀ = .committed changes ∧ changes.value? prim k = some v := by
    cases e₀ with
    | committed changes => exact ⟨changes, rfl, by simpa [CommitEvent.parts] using h₀⟩
    | emitted => simp [CommitEvent.parts] at h₀
  obtain ⟨changes, rfl, value⟩ := value
  have emitted : ∀ {e event}, CommitEvent.parts prim k e = (none, some event) →
      e = .emitted event := by
    intro e event eq
    cases e with
    | committed => simp [CommitEvent.parts] at eq
    | emitted => simpa [CommitEvent.parts] using eq
  simp only [List.map_eq_cons_iff, List.map_eq_nil_iff] at tail
  obtain ⟨e₁, _, rfl, h₁, e₂, _, rfl, h₂, e₃, _, rfl, h₃, rfl⟩ := tail
  obtain rfl := emitted h₁
  obtain rfl := emitted h₂
  obtain rfl := emitted h₃
  refine differs (read [] changes [_, _] k l answer [] v rfl value ?_ (by simp))
  intro e mem updates
  obtain rfl | rfl : e = .emitted (.accepted k l) ∨ e = .emitted (.completed k) := by
    simpa using mem
  all_goals
    obtain ⟨w, eq⟩ := updates
    cases eq

/-- A slot set to zero and a destroyed account are read from the provider again. -/
theorem commits_not_read :
    (∃ es s, (System.commitMachine codeless .unhashed).exec
      (commitThenRead (account1 0) (.storage 1 2)) (System.spawn {} none) = some (s, es) ∧
      ¬ CommitsRead codeless es) ∧
    (∃ es s, (System.commitMachine codeless .unhashed).exec
      (commitThenRead { account1 3 with status := { selfDestructed := true } } (.basic 1))
        (System.spawn {} none) = some (s, es) ∧
      ¬ CommitsRead codeless es) := by
  have zeroed : ((System.commitMachine codeless .unhashed).exec
      (commitThenRead (account1 0) (.storage 1 2)) (System.spawn {} none)).map
        (fun (_, es) => es.map (CommitEvent.parts codeless (.storage 1 2))) =
      some [(some (some (.slot 0)), none), (none, some (.accepted (.storage 1 2) 0)),
        (none, some (.completed (.storage 1 2))),
        (none, some (.answered (.storage 1 2) 0 (.ok (.slot 5))))] := by
    decide +kernel
  have destroyed : ((System.commitMachine codeless .unhashed).exec
      (commitThenRead { account1 3 with status := { selfDestructed := true } } (.basic 1))
        (System.spawn {} none)).map
        (fun (_, es) => es.map (CommitEvent.parts codeless (.account 1))) =
      some [(some (some (.account emptyAccount)), none), (none, some (.accepted (.account 1) 0)),
        (none, some (.completed (.account 1))),
        (none, some (.answered (.account 1) 0
          (.ok (.account ⟨9, 0, KECCAK_EMPTY, none, some ⟨[]⟩⟩))))] := by
    decide +kernel
  refine ⟨?_, ?_⟩
  · obtain ⟨⟨s, es⟩, eq, parts⟩ := Option.map_eq_some_iff.mp zeroed
    exact ⟨es, s, eq, not_commitsRead_of_parts codeless (by decide) parts⟩
  · obtain ⟨⟨s, es⟩, eq, parts⟩ := Option.map_eq_some_iff.mp destroyed
    exact ⟨es, s, eq, not_commitsRead_of_parts codeless (by decide) parts⟩

end FoundryCore.ForkDb
