import FoundryCore.ForkDb.Commit

/-!
# The state after a commit

The accounts of a change set and their slots are kept in hash maps, so that a commit goes over
them in any order. Whatever the order is, it leaves the same state: that of the accounts in the
change set, with the other accounts as they were.
-/

open Std

namespace FoundryCore.ForkDb

open Library

variable (prim : Primitives)

/-! ## Commits in any order -/

/-- The accounts of a change set as a commit goes over them, each with its slots in turn. -/
abbrev Order := List (Address × Account × List (U256 × EvmStorageSlot))

/-- Every account of the change set comes once, with each of its slots once. -/
structure Changes.Orders (changes : Changes) (order : Order) : Prop where
  accounts : (order.map fun (address, acc, _) => (address, acc)).Perm changes.toList
  slots : ∀ address acc slots, (address, acc, slots) ∈ order → slots.Perm acc.storage.toList

/-- The order that the maps have here. -/
def Changes.order (changes : Changes) : Order :=
  changes.toList.map fun (address, acc) => (address, acc, acc.storage.toList)

namespace MemDb

/-- Commits one account, its slots in the given order. -/
def commitAccountIn (db : MemDb) (address : Address) (acc : Account)
    (slots : List (U256 × EvmStorageSlot)) : MemDb :=
  if acc.removed prim then
    { db with accounts := db.accounts.erase address, storage := db.storage.erase address }
  else
    let accStorage := if acc.status.created then ∅ else db.storage[address]?.getD ∅
    let accStorage := slots.foldl (fun slots (index, value) => commitSlot slots index value)
      accStorage
    { db with
      accounts := db.accounts.insert address (acc.committedInfo prim)
      storage :=
        if accStorage.isEmpty then db.storage.erase address
        else db.storage.insert address accStorage }

/-- The commit of a change set, in the given order. -/
def doCommitIn (db : MemDb) (order : Order) : MemDb :=
  order.foldl (fun db (address, acc, slots) => db.commitAccountIn prim address acc slots) db

theorem doCommit_eq (db : MemDb) (changes : Changes) :
    db.doCommit prim changes = db.doCommitIn prim changes.order := by
  rw [doCommitIn, Changes.order, List.foldl_map]
  rfl

end MemDb

theorem Changes.orders_order (changes : Changes) : changes.Orders changes.order where
  accounts := by
    rw [order, List.map_map]
    exact List.Perm.of_eq (List.map_id _)
  slots address acc slots mem := by
    obtain ⟨entry, -, eq⟩ := List.mem_map.mp mem
    cases eq
    exact .refl _

/-! ## What a commit leaves of one account -/

/-- The entries of an address. -/
abbrev Entry := Option AccountInfo × Option StorageInfo

def MemDb.entry (db : MemDb) (address : Address) : Entry :=
  (db.accounts[address]?, db.storage[address]?)

/-- The slots of an account after its slots in the change set are written. -/
def Account.writes (acc : Account) (slots : List (U256 × EvmStorageSlot))
    (old : Option StorageInfo) : StorageInfo :=
  slots.foldl (fun slots (index, value) => MemDb.commitSlot slots index value)
    (if acc.status.created then ∅ else old.getD ∅)

/-- The entries that the commit of an account leaves. -/
def Account.commit (acc : Account) (slots : List (U256 × EvmStorageSlot)) (old : Entry) : Entry :=
  if acc.removed prim then (none, none)
  else (some (acc.committedInfo prim),
    if (acc.writes slots old.2).isEmpty then none else some (acc.writes slots old.2))

theorem MemDb.entry_commitAccountIn (db : MemDb) (address a : Address) (acc : Account)
    (slots : List (U256 × EvmStorageSlot)) :
    (db.commitAccountIn prim address acc slots).entry a =
      if a = address then acc.commit prim slots (db.entry a) else db.entry a := by
  by_cases removed : acc.removed prim
  · by_cases same : a = address <;>
      simp [entry, commitAccountIn, Account.commit, removed, same, getElem?_erase_eq]
  · by_cases same : a = address
    · subst same
      simp only [entry, commitAccountIn, Account.commit, Account.writes, removed]
      split_ifs <;> simp_all
    · simp only [entry, commitAccountIn, removed]
      split_ifs <;> simp [getElem?_insert_eq, getElem?_erase_eq, same]

/-- The slots are written in any order. -/
theorem Account.writes_perm {acc : Account} {slots : List (U256 × EvmStorageSlot)}
    (perm : slots.Perm acc.storage.toList) (old : Option StorageInfo) :
    acc.writes slots old = acc.writes acc.storage.toList old := by
  have distinct : (acc.storage.toList.map Prod.fst).Nodup := by
    rw [ExtTreeMap.map_fst_toList_eq_keys]
    exact ExtTreeMap.nodup_keys
  unfold writes
  apply ExtTreeMap.ext_getElem?
  intro idx
  refine foldl_perm (a := idx) Prod.fst (fun slots : StorageInfo => slots[idx]?) _
    (fun x _ => if x.2.presentValue = 0 then none else some x.2.presentValue) perm
    ((perm.map Prod.fst).nodup_iff.mpr distinct) (fun x _ slots => ?_) _
  simp only [MemDb.commitSlot]
  split_ifs with zero same same <;> simp_all [getElem?_insert_eq, getElem?_erase_eq]

theorem Account.commit_perm {acc : Account} {slots : List (U256 × EvmStorageSlot)}
    (perm : slots.Perm acc.storage.toList) (old : Entry) :
    acc.commit prim slots old = acc.commit prim acc.storage.toList old := by
  rw [commit, commit, writes_perm perm]

/-! ## What a commit leaves -/

section

variable {prim} {changes : Changes} {order : Order}

theorem Changes.Orders.keys (ordered : changes.Orders order) :
    (order.map fun (address, _, _) => address).Perm changes.keys := by
  have := ordered.accounts.map Prod.fst
  rwa [ExtTreeMap.map_fst_toList_eq_keys, List.map_map] at this

/-- In every order, an address is left with what its own account leaves. -/
theorem MemDb.entry_doCommitIn (ordered : changes.Orders order) (db : MemDb) (a : Address) :
    (db.doCommitIn prim order).entry a =
      match changes[a]? with
      | some acc => acc.commit prim acc.storage.toList (db.entry a)
      | none => db.entry a := by
  obtain ⟨here, absent⟩ := foldl_distinct (a := a) (fun (address, _, _) => address)
    (fun db : MemDb => db.entry a)
    (fun db (address, acc, slots) => db.commitAccountIn prim address acc slots)
    (fun (_, acc, slots) old => acc.commit prim slots old)
    (ordered.keys.nodup_iff.mpr ExtTreeMap.nodup_keys)
    (fun x _ db => db.entry_commitAccountIn prim x.1 a x.2.1 x.2.2) db
  cases getEq : changes[a]? with
  | some acc =>
    have mem : (a, acc) ∈ order.map fun (address, acc, _) => (address, acc) :=
      ordered.accounts.mem_iff.mpr (ExtTreeMap.mem_toList_iff_getElem?_eq_some.mpr getEq)
    obtain ⟨⟨address, acc', slots⟩, mem, eq⟩ := List.mem_map.mp mem
    cases eq
    exact (here _ mem rfl).trans (Account.commit_perm prim (ordered.slots _ _ _ mem) _)
  | none =>
    refine absent (mt ordered.keys.mem_iff.mp ?_)
    rw [ExtTreeMap.mem_keys, ExtTreeMap.mem_iff_isSome_getElem?, getEq]
    simp

theorem MemDb.blockHashes_doCommitIn (db : MemDb) (order : Order) :
    (db.doCommitIn prim order).blockHashes = db.blockHashes := by
  induction order generalizing db with
  | nil => rfl
  | cons x order ih =>
    have one : (db.commitAccountIn prim x.1 x.2.1 x.2.2).blockHashes = db.blockHashes := by
      unfold commitAccountIn
      split_ifs <;> rfl
    exact (ih _).trans one

theorem MemDb.ext_entry {db db' : MemDb} (entries : ∀ a, db.entry a = db'.entry a)
    (hashes : db.blockHashes = db'.blockHashes) : db = db' := by
  cases db
  cases db'
  obtain rfl := hashes
  congr 1
  · exact ExtTreeMap.ext_getElem? fun a => congrArg Prod.fst (entries a)
  · exact ExtTreeMap.ext_getElem? fun a => congrArg Prod.snd (entries a)

/-- The order makes no difference. -/
theorem MemDb.doCommitIn_eq (ordered : changes.Orders order) (db : MemDb) :
    db.doCommitIn prim order = db.doCommit prim changes := by
  rw [doCommit_eq]
  refine ext_entry (fun a => ?_) ?_
  · rw [entry_doCommitIn ordered, entry_doCommitIn changes.orders_order]
  · rw [blockHashes_doCommitIn, blockHashes_doCommitIn]

end

/-! ## The reference state -/

/-- The value of a slot, where a slot that is not there is zero. -/
def MemDb.slot (db : MemDb) (address : Address) (idx : U256) : U256 :=
  (db.storage[address]?.bind (·[idx]?)).getD 0

/-- The second info is the first one with the hash of its code: that of the code that is there and
not empty, else the hash that is there, else the hash of no code. -/
structure HashesCode (info committed : AccountInfo) : Prop where
  kept : committed = { info with codeHash := committed.codeHash }
  loaded : ∀ code, info.code = some code → prim.isCodeEmpty code = false →
    committed.codeHash = prim.hashSlow code
  unloaded : (∀ code, info.code = some code → prim.isCodeEmpty code = true) →
    committed.codeHash = if info.codeHash = 0 then KECCAK_EMPTY else info.codeHash

/-- The second database is the first one with the change set applied. -/
structure Refines (db db' : MemDb) (changes : Changes) : Prop where
  removed : ∀ (address : Address) (acc : Account), changes[address]? = some acc →
    acc.removed prim = true → db'.accounts[address]? = none ∧ db'.storage[address]? = none
  info : ∀ (address : Address) (acc : Account), changes[address]? = some acc →
    acc.removed prim = false →
      ∃ committed, db'.accounts[address]? = some committed ∧ HashesCode prim acc.info committed
  slot : ∀ (address : Address) (acc : Account), changes[address]? = some acc →
    acc.removed prim = false → ∀ idx, db'.slot address idx = match acc.storage[idx]? with
      | some value => value.presentValue
      | none => if acc.status.created then 0 else db.slot address idx
  others : ∀ address : Address, changes[address]? = none →
    db'.accounts[address]? = db.accounts[address]? ∧ db'.storage[address]? = db.storage[address]?
  blockHashes : db'.blockHashes = db.blockHashes

variable {prim}

theorem Account.committedInfo_of_loaded {acc : Account} {code : Bytecode}
    (codeEq : acc.info.code = some code) (full : prim.isCodeEmpty code = false) :
    acc.committedInfo prim = { acc.info with codeHash := prim.hashSlow code } := by
  have hash : (acc.info.code.filter fun code => !prim.isCodeEmpty code).map prim.hashSlow =
      some (prim.hashSlow code) := by
    rw [codeEq, Option.filter_some_pos (by simp [full]), Option.map_some]
  rw [committedInfo, hash]

theorem Account.committedInfo_of_unloaded {acc : Account}
    (empty : ∀ code, acc.info.code = some code → prim.isCodeEmpty code = true) :
    acc.committedInfo prim = { acc.info with
      codeHash := if acc.info.codeHash = 0 then KECCAK_EMPTY else acc.info.codeHash } := by
  have hash : (acc.info.code.filter fun code => !prim.isCodeEmpty code).map prim.hashSlow =
      none := by
    rw [Option.map_eq_none_iff, Option.filter_eq_none_iff]
    intro code codeEq
    simp [empty code codeEq]
  rw [committedInfo, hash]
  split_ifs <;> rfl

theorem hashesCode_committedInfo (acc : Account) :
    HashesCode prim acc.info (acc.committedInfo prim) := by
  by_cases loaded : ∃ code, acc.info.code = some code ∧ prim.isCodeEmpty code = false
  · obtain ⟨code, codeEq, full⟩ := loaded
    rw [Account.committedInfo_of_loaded codeEq full]
    refine ⟨rfl, fun code' codeEq' _ => ?_, fun empty => ?_⟩
    · rw [Option.some.inj (codeEq.symm.trans codeEq')]
    · simp [empty code codeEq] at full
  · have empty : ∀ code, acc.info.code = some code → prim.isCodeEmpty code = true := by
      simpa using loaded
    rw [Account.committedInfo_of_unloaded empty]
    exact ⟨rfl, fun code codeEq full => by simp [empty code codeEq] at full, fun _ => rfl⟩

/-- What is read of a slot of an account that stays. -/
theorem Account.slot_commit {acc : Account} (stays : acc.removed prim = false) (old : Entry)
    (idx : U256) :
    ((acc.commit prim acc.storage.toList old).2.bind (·[idx]?)).getD 0 =
      match acc.storage[idx]? with
      | some value => value.presentValue
      | none => if acc.status.created then 0 else (old.2.bind (·[idx]?)).getD 0 := by
  have read : ((acc.commit prim acc.storage.toList old).2.bind (·[idx]?)) =
      (acc.writes acc.storage.toList old.2)[idx]? := by
    rw [commit, if_neg (by simp [stays])]
    split_ifs with empty
    · rw [ExtTreeMap.isEmpty_iff.mp empty]
      rfl
    · rfl
  rw [read, writes, MemDb.getElem?_commitSlots]
  cases acc.storage[idx]? with
  | some value =>
    dsimp only
    split_ifs with zero <;> simp [zero]
  | none =>
    cases old.2 <;> cases acc.status.created <;> simp

/-- A commit applies its change set, and the order in which it goes over the accounts and over
their slots makes no difference. -/
theorem MemDb.doCommit_refines (db : MemDb) (changes : Changes) :
    Refines prim db (db.doCommit prim changes) changes ∧
      ∀ order, changes.Orders order → db.doCommitIn prim order = db.doCommit prim changes := by
  have entryEq : ∀ a, (db.doCommit prim changes).entry a = match changes[a]? with
      | some acc => acc.commit prim acc.storage.toList (db.entry a)
      | none => db.entry a := by
    intro a
    rw [doCommit_eq]
    exact entry_doCommitIn changes.orders_order db a
  have own : ∀ (address : Address) (acc : Account), changes[address]? = some acc →
      (db.doCommit prim changes).entry address =
        acc.commit prim acc.storage.toList (db.entry address) := by
    intro address acc getEq
    rw [entryEq, getEq]
  have hashes : (db.doCommit prim changes).blockHashes = db.blockHashes := by
    rw [doCommit_eq, blockHashes_doCommitIn]
  refine ⟨⟨?_, ?_, ?_, ?_, hashes⟩, fun order ordered => doCommitIn_eq ordered db⟩
  · intro address acc getEq removed
    have left := own address acc getEq
    rw [Account.commit, removed] at left
    exact Prod.mk.inj left
  · intro address acc getEq stays
    have left := own address acc getEq
    rw [Account.commit, stays] at left
    exact ⟨_, (Prod.mk.inj left).1, hashesCode_committedInfo acc⟩
  · intro address acc getEq stays idx
    have left := congrArg Prod.snd (own address acc getEq)
    have read := Account.slot_commit stays (db.entry address) idx
    rw [← left] at read
    exact read
  · intro address noneEq
    have kept := entryEq address
    rw [noneEq] at kept
    exact Prod.mk.inj kept

/-- Code that is loaded and empty does not make the hash that of no code. -/
theorem doCommit_keeps_hash : ∃ (changes : Changes) (acc : Account),
    changes[(1 : Address)]? = some acc ∧ acc.removed codeless = false ∧
      acc.info.code = some ⟨[]⟩ ∧
      ∃ committed, (MemDb.doCommit codeless {} changes).accounts[(1 : Address)]? = some committed ∧
        committed.codeHash ≠ KECCAK_EMPTY := by
  refine ⟨(∅ : Changes).insert 1 { info := ⟨1, 0, 5, none, some ⟨[]⟩⟩ },
    { info := ⟨1, 0, 5, none, some ⟨[]⟩⟩ }, by simp, by decide +kernel, rfl,
    ⟨1, 0, 5, none, some ⟨[]⟩⟩, by decide +kernel, by decide +kernel⟩

end FoundryCore.ForkDb
