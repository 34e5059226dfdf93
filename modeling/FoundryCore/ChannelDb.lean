import FoundryCore.Library.Machine
import Mathlib.Data.List.Nodup

/-!
# The database of payment channels

A table of channels whose key is the id of a channel. Writing a channel that is there overwrites
what changes while a channel is open, and keeps what identifies it and when it was created.
-/

namespace FoundryCore

open Library

abbrev I64 := BitVec 64

/-- A payment channel, a row of the table. -/
structure Channel where
  channelId : String
  version : I64
  origin : String
  requestUrl : String
  chainId : I64
  escrowContract : String
  token : String
  payee : String
  payer : String
  authorizedSigner : String
  salt : String
  deposit : String
  cumulativeAmount : String
  challengeEcho : String
  state : String
  closeRequestedAt : I64
  graceReadyAt : I64
  createdAt : I64
  lastUsedAt : I64
deriving DecidableEq, Repr

/-- The row of a channel after the columns of `excluded` were set on conflict. -/
def Channel.updated (old excluded : Channel) : Channel :=
  { old with
    version := excluded.version
    origin := excluded.origin
    requestUrl := excluded.requestUrl
    deposit := excluded.deposit
    cumulativeAmount := excluded.cumulativeAmount
    challengeEcho := excluded.challengeEcho
    state := excluded.state
    closeRequestedAt := excluded.closeRequestedAt
    graceReadyAt := excluded.graceReadyAt
    lastUsedAt := excluded.lastUsedAt }

@[simp] theorem Channel.updated_channelId (old excluded : Channel) :
    (old.updated excluded).channelId = old.channelId := rfl

@[simp] theorem Channel.updated_updated (old first second : Channel) :
    (old.updated first).updated second = old.updated second := rfl

@[simp] theorem Channel.updated_self (channel : Channel) : channel.updated channel = channel := rfl

/-- The rows of the table. -/
structure ChannelDb where
  rows : List Channel := []

namespace ChannelDb

/-- The statement for one channel, by its key. -/
def find (db : ChannelDb) (channelId : String) : Option Channel :=
  db.rows.find? fun channel => channel.channelId = channelId

def findByOrigin (db : ChannelDb) (origin : String) : List Channel :=
  db.rows.filter fun channel => channel.origin = origin

def load (db : ChannelDb) : List Channel := db.rows

/-- Inserts or updates a channel. -/
def upsert (db : ChannelDb) (ch : Channel) : ChannelDb :=
  if db.rows.any fun channel => channel.channelId = ch.channelId then
    { rows := db.rows.map fun channel =>
        if channel.channelId = ch.channelId then channel.updated ch else channel }
  else { rows := db.rows ++ [ch] }

/-- Deletes a channel. Returns whether a row was removed. -/
def delete (db : ChannelDb) (channelId : String) : ChannelDb × Bool :=
  let count := db.rows.countP fun channel => channel.channelId = channelId
  ({ rows := db.rows.filter fun channel => channel.channelId ≠ channelId }, decide (0 < count))

inductive Action
  | upsert (ch : Channel)
  | delete (channelId : String)

inductive Event
  | upserted (ch : Channel)
  | deleted (channelId : String) (removed : Bool)
deriving DecidableEq

def machine : Machine ChannelDb Action Event where
  step db
    | .upsert ch => some (db.upsert ch, [.upserted ch])
    | .delete channelId =>
      some ((db.delete channelId).1, [.deleted channelId (db.delete channelId).2])

/-! ## What the history says -/

/-- The writes of a channel since it was last deleted. -/
def Event.writes (channelId : String) (writes : List Channel) : Event → List Channel
  | .upserted ch => if ch.channelId = channelId then writes ++ [ch] else writes
  | .deleted channelId' _ => if channelId' = channelId then [] else writes

def writes (channelId : String) (es : List Event) : List Channel :=
  es.foldl (Event.writes channelId) []

/-- A channel is as its first write made it, with what the last one changed. -/
def written : List Channel → Option Channel
  | [] => none
  | first :: rest => some (first.updated ((first :: rest).getLast (List.cons_ne_nil first rest)))

variable {db : ChannelDb} {ch : Channel} {id : String} {es : List Event}

theorem writes_append (es : List Event) (e : Event) :
    writes id (es ++ [e]) = Event.writes id (writes id es) e := by
  rw [writes, List.foldl_append, ← writes]
  rfl

theorem written_append (writes : List Channel) (ch : Channel) :
    written (writes ++ [ch]) =
      some (match written writes with
        | none => ch
        | some old => old.updated ch) := by
  cases writes with
  | nil => rfl
  | cons first rest => simp [written]

/-! ## Rows and keys -/

/-- No two rows have the same key. -/
def Keyed (db : ChannelDb) : Prop := (db.rows.map Channel.channelId).Nodup

theorem mem_of_find (found : db.find id = some ch) : ch ∈ db.rows ∧ ch.channelId = id :=
  ⟨List.mem_of_find?_eq_some found, by simpa using List.find?_some found⟩

theorem find_eq_none : db.find id = none ↔ ∀ row ∈ db.rows, row.channelId ≠ id := by
  simp [find]

theorem find_of_mem (keyed : db.Keyed) (mem : ch ∈ db.rows) : db.find ch.channelId = some ch := by
  cases found : db.find ch.channelId with
  | none => exact absurd rfl (find_eq_none.mp found ch mem)
  | some ch' =>
    obtain ⟨mem', same⟩ := mem_of_find found
    rw [List.inj_on_of_nodup_map keyed mem' mem same]

/-- What a write does to the rows with its key. -/
def overwrite (ch row : Channel) : Channel :=
  if row.channelId = ch.channelId then row.updated ch else row

@[simp] theorem overwrite_channelId (ch row : Channel) :
    (overwrite ch row).channelId = row.channelId := by
  unfold overwrite
  split <;> rfl

theorem upsert_of_find_none (absent : db.find ch.channelId = none) :
    db.upsert ch = { rows := db.rows ++ [ch] } := by
  rw [upsert, if_neg]
  simpa using find_eq_none.mp absent

theorem upsert_of_find_some {old : Channel} (found : db.find ch.channelId = some old) :
    db.upsert ch = { rows := db.rows.map (overwrite ch) } := by
  obtain ⟨mem, same⟩ := mem_of_find found
  rw [upsert, if_pos (List.any_eq_true.mpr ⟨old, mem, by simpa using same⟩)]
  rfl

theorem find_map_overwrite (rows : List Channel) (ch : Channel) (id : String) :
    find { rows := rows.map (overwrite ch) } id = (find { rows } id).map (overwrite ch) := by
  simp only [find, List.find?_map, Function.comp_def, overwrite_channelId]

theorem find_upsert (db : ChannelDb) (ch : Channel) (id : String) :
    (db.upsert ch).find id =
      if ch.channelId = id then
        some (match db.find id with
          | none => ch
          | some old => old.updated ch)
      else db.find id := by
  cases found : db.find ch.channelId with
  | none =>
    rw [upsert_of_find_none found, find, List.find?_append, ← find]
    split_ifs with same
    · subst same
      simp [found]
    · simp [same]
  | some old =>
    rw [upsert_of_find_some found, find_map_overwrite]
    split_ifs with same
    · subst same
      simp [found, overwrite, (mem_of_find found).2]
    · cases other : find { rows := db.rows } id with
      | none => rfl
      | some row =>
        have apart : row.channelId ≠ ch.channelId := by
          rw [(mem_of_find other).2]
          exact Ne.symm same
        rw [Option.map_some, overwrite, if_neg apart]

theorem find_delete (db : ChannelDb) (channelId id : String) :
    (db.delete channelId).1.find id = if channelId = id then none else db.find id := by
  split_ifs with same
  · subst same
    refine find_eq_none.mpr fun row mem => ?_
    simpa using (List.mem_filter.mp mem).2
  · simp only [delete, find, List.find?_filter]
    congr 1
    funext row
    by_cases here : row.channelId = id
    · simp [here, Ne.symm same]
    · simp [here]

theorem delete_snd (db : ChannelDb) (channelId : String) :
    (db.delete channelId).2 = (db.find channelId).isSome := by
  rw [Bool.eq_iff_iff, delete, find, decide_eq_true_eq, List.countP_pos_iff, List.find?_isSome]

theorem keyed_upsert (keyed : db.Keyed) (ch : Channel) : (db.upsert ch).Keyed := by
  cases found : db.find ch.channelId with
  | none =>
    rw [upsert_of_find_none found, Keyed, List.map_append, List.map_singleton]
    refine keyed.append (List.nodup_singleton _) (List.disjoint_singleton.mpr fun mem => ?_)
    obtain ⟨row, mem, same⟩ := List.mem_map.mp mem
    exact find_eq_none.mp found row mem same
  | some old =>
    have same : Channel.channelId ∘ overwrite ch = Channel.channelId :=
      funext (overwrite_channelId ch)
    rwa [upsert_of_find_some found, Keyed, List.map_map, same]

theorem keyed_delete (keyed : db.Keyed) (channelId : String) : (db.delete channelId).1.Keyed :=
  keyed.sublist (List.filter_sublist.map _)

/-! ## The table and its history -/

/-- Each deletion says whether there was a channel to delete. -/
def TellsRemoved (es : List Event) : Prop :=
  ∀ before id removed after, es = before ++ Event.deleted id removed :: after →
    removed = (written (writes id before)).isSome

theorem tellsRemoved_append (tells : TellsRemoved es) {e : Event}
    (last : ∀ id removed, e = .deleted id removed → removed = (written (writes id es)).isSome) :
    TellsRemoved (es ++ [e]) := by
  intro before id removed after eq
  rcases List.eq_nil_or_concat after with rfl | ⟨after', e', rfl⟩
  · obtain ⟨rfl, rfl⟩ := by simpa using List.append_inj' eq rfl
    exact last id removed rfl
  · rw [List.concat_eq_append, ← List.cons_append, ← List.append_assoc] at eq
    exact tells before id removed after' (List.append_inj' eq rfl).1

/-- The table holds what its history wrote. -/
structure Records (es : List Event) (db : ChannelDb) : Prop where
  keyed : db.Keyed
  find : ∀ id, db.find id = written (writes id es)
  removed : TellsRemoved es

theorem Records.step {a : Action} {db' : ChannelDb} {out : List Event} (h : Records es db)
    (eq : machine.step db a = some (db', out)) : Records (es ++ out) db' := by
  cases a with
  | upsert ch =>
    obtain ⟨rfl, rfl⟩ := by simpa [machine] using eq
    refine ⟨keyed_upsert h.keyed ch, fun id => ?_, tellsRemoved_append h.removed (by simp)⟩
    rw [find_upsert, writes_append, Event.writes, h.find id]
    split_ifs with same
    · rw [written_append]
    · rfl
  | delete channelId =>
    obtain ⟨rfl, rfl⟩ := by simpa [machine] using eq
    refine ⟨keyed_delete h.keyed channelId, fun id => ?_, tellsRemoved_append h.removed ?_⟩
    · rw [find_delete, writes_append, Event.writes, h.find id]
      split_ifs <;> rfl
    · rintro id removed ⟨⟩
      rw [delete_snd, h.find]

/-- In every run a channel is found as its first write since its last deletion made it, with what
the last write changed; all channels, and the channels of an origin, are the ones that are found,
each once; and a deletion tells whether there was a channel. -/
theorem tells_history (run : machine.Run {} es db) :
    (∀ id, db.find id = written (writes id es)) ∧
    (∀ ch, ch ∈ db.load ↔ db.find ch.channelId = some ch) ∧ db.load.Nodup ∧
    (∀ origin ch, ch ∈ db.findByOrigin origin ↔
      db.find ch.channelId = some ch ∧ ch.origin = origin) ∧
    (∀ origin, (db.findByOrigin origin).Nodup) ∧ TellsRemoved es := by
  have new : Records [] {} := by
    refine ⟨?_, fun _ => rfl, fun before id removed after eq => by simp at eq⟩
    exact List.nodup_nil
  have h : Records es db := run.invariant new fun _ _ _ _ _ h eq => h.step eq
  have load : ∀ ch, ch ∈ db.load ↔ db.find ch.channelId = some ch :=
    fun ch => ⟨find_of_mem h.keyed, fun found => (mem_of_find found).1⟩
  have distinct : db.load.Nodup := h.keyed.of_map _
  refine ⟨h.find, load, distinct, fun origin ch => ?_, fun origin => distinct.filter _, h.removed⟩
  rw [findByOrigin, List.mem_filter, decide_eq_true_eq, ← load ch, ChannelDb.load]

/-- A channel of the tests. -/
def testChannel (state : String) (createdAt : I64) : Channel where
  channelId := "0xch1"
  version := 1
  origin := "https://rpc.test"
  requestUrl := "https://api.example.com/paid"
  chainId := 42431
  escrowContract := "0xe1c4d3dce17bc111181ddf716f75bae49e61a336"
  token := "0x20c0000000000000000000000000000000000000"
  payee := "0x3333333333333333333333333333333333333333"
  payer := "0x1111111111111111111111111111111111111111"
  authorizedSigner := "0x1111111111111111111111111111111111111111"
  salt := "0xabab"
  deposit := "100000"
  cumulativeAmount := "0"
  challengeEcho := "echo-data"
  state
  closeRequestedAt := 0
  graceReadyAt := 0
  createdAt
  lastUsedAt := 1700000000

/-- The channel is deleted, created again and closed: the creation after the deletion counts. -/
theorem tells_history_again : ∃ es db, machine.Run {} es db ∧
    db.find "0xch1" = written (writes "0xch1" es) ∧
    written (writes "0xch1" es) = some (testChannel "closing" 2) := by
  have run : machine.Run {} _ _ := Machine.run_of_exec [.upsert (testChannel "active" 1),
    .delete "0xch1", .upsert (testChannel "active" 2), .upsert (testChannel "closing" 3)] rfl
  exact ⟨_, _, run, (tells_history run).1 "0xch1", by decide⟩

end ChannelDb

end FoundryCore
