import FoundryCore.Library.Machine
import FoundryCore.Library.Map
import FoundryCore.Path

/-!
# Wallets that are unlocked when they are needed

A `MultiWallet` is made of signers and of pending ones, which the first access of the signers
unlocks. A pending signer that cannot be unlocked, and those after it, are gone after that.
-/

open Std

namespace FoundryCore

open Library

namespace MultiWallet

abbrev Address := BitVec 160

instance : TransOrd Address := inferInstanceAs (TransOrd (BitVec 160))

/-- A signer that requires an action to be unlocked. -/
inductive PendingSigner
  | keystore (path : PathBuf)
  | interactive
deriving DecidableEq, Repr

variable {σ ε : Type}

/-- What the attempts to unlock give, by their number in a call: the passwords and the keys that
are entered may differ from one attempt to the next. -/
abbrev Unlock (σ ε : Type) := Nat → PendingSigner → Except ε σ

end MultiWallet

open MultiWallet in
/-- Container for multiple wallets. -/
structure MultiWallet (σ : Type) where
  /-- Lazily unlocked on the first access of the signers. -/
  pendingSigners : List PendingSigner
  /-- Unlocked signers. -/
  signers : ExtTreeMap Address σ

namespace MultiWallet

variable {σ ε : Type} (address : σ → Address)

def new (pendingSigners : List PendingSigner) (signers : List σ) : MultiWallet σ where
  pendingSigners
  signers := .ofList (signers.map fun signer => (address signer, signer))

/-- The loop over the drained signers, which an error ends. -/
def unlockAll (unlock : Unlock σ ε) : Nat → List PendingSigner → ExtTreeMap Address σ →
    Except ε Unit × ExtTreeMap Address σ
  | _, [], signers => (.ok (), signers)
  | n, pending :: rest, signers =>
    match unlock n pending with
    | .error err => (.error err, signers)
    | .ok signer => unlockAll unlock (n + 1) rest (signers.insert (address signer) signer)

/-- Dropping the drain removes what it has not reached, too. -/
def maybeUnlockPending (wallet : MultiWallet σ) (unlock : Unlock σ ε) :
    Except ε Unit × MultiWallet σ :=
  let (result, signers) := unlockAll address unlock 0 wallet.pendingSigners wallet.signers
  (result, { pendingSigners := [], signers })

/-- `MultiWallet::signers`. -/
def getSigners (wallet : MultiWallet σ) (unlock : Unlock σ ε) :
    Except ε (ExtTreeMap Address σ) × MultiWallet σ :=
  let (result, wallet) := wallet.maybeUnlockPending address unlock
  (result.map fun _ => wallet.signers, wallet)

def addSigner (wallet : MultiWallet σ) (signer : σ) : MultiWallet σ :=
  { wallet with signers := wallet.signers.insert (address signer) signer }

/-! ## Unlocking -/

/-- The signers that are unlocked before the first error. -/
def unlockedBy (unlock : Unlock σ ε) : Nat → List PendingSigner → List (PendingSigner × σ)
  | _, [] => []
  | n, pending :: rest =>
    match unlock n pending with
    | .error _ => []
    | .ok signer => (pending, signer) :: unlockedBy unlock (n + 1) rest

/-- All pending signers are unlocked, the first of them by the attempt with a given number. -/
def AllUnlock (unlock : Unlock σ ε) (n : Nat) (pendingSigners : List PendingSigner) : Prop :=
  ∀ i pending, pendingSigners[i]? = some pending → ∃ signer, unlock (n + i) pending = .ok signer

variable {unlock : Unlock σ ε} {n : Nat} {pending : PendingSigner}
  {pendingSigners : List PendingSigner}

theorem allUnlock_cons : AllUnlock unlock n (pending :: pendingSigners) ↔
    (∃ signer, unlock n pending = .ok signer) ∧ AllUnlock unlock (n + 1) pendingSigners := by
  constructor
  · intro all
    refine ⟨all 0 pending rfl, fun i p getEq => ?_⟩
    have := all (i + 1) p getEq
    rwa [Nat.add_right_comm n 1 i]
  · rintro ⟨first, rest⟩ i p getEq
    cases i with
    | zero =>
      obtain rfl : pending = p := by simpa using getEq
      exact first
    | succ i =>
      have := rest i p getEq
      rwa [Nat.add_right_comm n 1 i] at this

/-- Whether or not there is an error, what was unlocked before is inserted. -/
theorem unlockAll_snd (unlock : Unlock σ ε) (n : Nat) (pendingSigners : List PendingSigner)
    (signers : ExtTreeMap Address σ) :
    (unlockAll address unlock n pendingSigners signers).2 =
      (unlockedBy unlock n pendingSigners).foldl (fun signers (_, signer) =>
        signers.insert (address signer) signer) signers := by
  induction pendingSigners generalizing n signers with
  | nil => rfl
  | cons pending rest ih =>
    cases result : unlock n pending with
    | error err => simp [unlockAll, unlockedBy, result]
    | ok signer => simp [unlockAll, unlockedBy, result, ih]

theorem unlockAll_of_allUnlock (all : AllUnlock unlock n pendingSigners)
    (signers : ExtTreeMap Address σ) :
    (unlockAll address unlock n pendingSigners signers).1 = .ok () ∧
      (unlockedBy unlock n pendingSigners).map Prod.fst = pendingSigners := by
  induction pendingSigners generalizing n signers with
  | nil => exact ⟨rfl, rfl⟩
  | cons pending rest ih =>
    obtain ⟨⟨signer, result⟩, all⟩ := allUnlock_cons.mp all
    obtain ⟨ok, unlocked⟩ := ih all (signers.insert (address signer) signer)
    simp [unlockAll, unlockedBy, result, ok, unlocked]

theorem unlockAll_of_not_allUnlock (fails : ¬ AllUnlock unlock n pendingSigners)
    (signers : ExtTreeMap Address σ) :
    (∃ err, (unlockAll address unlock n pendingSigners signers).1 = .error err) ∧
      (unlockedBy unlock n pendingSigners).length < pendingSigners.length := by
  induction pendingSigners generalizing n signers with
  | nil => exact absurd (fun i pending getEq => by simp at getEq) fails
  | cons pending rest ih =>
    cases result : unlock n pending with
    | error err => simp [unlockAll, unlockedBy, result]
    | ok signer =>
      have fails : ¬ AllUnlock unlock (n + 1) rest := fun all =>
        fails (allUnlock_cons.mpr ⟨⟨signer, result⟩, all⟩)
      obtain ⟨⟨err, error⟩, less⟩ := ih fails (signers.insert (address signer) signer)
      simpa [unlockAll, unlockedBy, result, error] using less

/-! ## Runs -/

inductive Action (σ ε : Type)
  | signers (unlock : Unlock σ ε)
  | addSigner (signer : σ)

/-- What an observer of a wallet sees. -/
inductive Event (σ : Type)
  | given (signer : σ)
  | unlocked (pending : PendingSigner) (signer : σ)
  /-- A call returned `Ok`. -/
  | returned (signers : ExtTreeMap Address σ)
  | failed

def Event.ofResult : Except ε (ExtTreeMap Address σ) → Event σ
  | .ok signers => .returned signers
  | .error _ => .failed

/-- The events of the signers that are unlocked. -/
def unlockedEvents (unlocked : List (PendingSigner × σ)) : List (Event σ) :=
  unlocked.map fun (pending, signer) => .unlocked pending signer

/-- A wallet whose methods are called in any order. -/
def machine : Machine (MultiWallet σ) (Action σ ε) (Event σ) where
  step wallet
    | .addSigner signer => some (wallet.addSigner address signer, [.given signer])
    | .signers unlock =>
      let (result, wallet') := wallet.getSigners address unlock
      some (wallet', unlockedEvents (unlockedBy unlock 0 wallet.pendingSigners) ++
        [Event.ofResult result])

/-- The pending signers that were unlocked, each with what it gave. -/
def unlockedIn (es : List (Event σ)) : List (PendingSigner × σ) :=
  es.filterMap fun
    | .unlocked pending signer => some (pending, signer)
    | _ => none

/-- The signers that the wallet was given or that were unlocked. -/
def knownIn (es : List (Event σ)) : List σ :=
  es.filterMap fun
    | .given signer | .unlocked _ signer => some signer
    | _ => none

/-- Every pending signer was unlocked, and the map has the addresses of what they gave and of the
signers that the wallet was given. -/
structure Complete (pendingSigners : List PendingSigner) (before : List (Event σ))
    (signers : ExtTreeMap Address σ) : Prop where
  unlocked : ((unlockedIn before).map Prod.fst).Perm pendingSigners
  known : ∀ signer ∈ knownIn before, address signer ∈ signers

/-- All maps that are returned are complete, after the events `seen` before them. -/
def NeverLoses (pendingSigners : List PendingSigner) (seen es : List (Event σ)) : Prop :=
  ∀ before signers after, es = before ++ Event.returned signers :: after →
    Complete address pendingSigners (seen ++ before) signers

/-- The calls of `signers`. -/
def calls (actions : List (Action σ ε)) : List (Unlock σ ε) :=
  actions.filterMap fun
    | .signers unlock => some unlock
    | .addSigner _ => none

variable {address} {seen out es : List (Event σ)} {e : Event σ} {wallet wallet' : MultiWallet σ}
  {actions : List (Action σ ε)} {signer : σ}

theorem neverLoses_cons : NeverLoses address pendingSigners seen (e :: es) ↔
    (∀ signers, e = .returned signers → Complete address pendingSigners seen signers) ∧
      NeverLoses address pendingSigners (seen ++ [e]) es := by
  constructor
  · intro never
    refine ⟨fun signers eq => ?_, fun before signers after eq => ?_⟩
    · simpa using never [] signers es (by rw [eq, List.nil_append])
    · simpa using never (e :: before) signers after (by rw [eq, List.cons_append])
  · rintro ⟨first, rest⟩ before signers after eq
    cases before with
    | nil =>
      obtain ⟨rfl, rfl⟩ := List.cons.inj eq
      simpa using first signers rfl
    | cons e' before =>
      obtain ⟨rfl, rfl⟩ := List.cons.inj eq
      simpa using rest before signers after rfl

/-- Events that are no answers are only seen. -/
theorem neverLoses_append (quiet : ∀ signers, .returned signers ∉ out) :
    NeverLoses address pendingSigners seen (out ++ es) ↔
      NeverLoses address pendingSigners (seen ++ out) es := by
  induction out generalizing seen with
  | nil => simp
  | cons e out ih =>
    have rest : ∀ signers, .returned signers ∉ out := fun signers mem =>
      quiet signers (List.mem_cons_of_mem _ mem)
    have first : ∀ signers, e ≠ .returned signers := by
      rintro signers rfl
      exact quiet signers List.mem_cons_self
    rw [List.cons_append, neverLoses_cons, ih rest, List.append_assoc, List.singleton_append,
      and_iff_right fun signers eq => absurd eq (first signers)]

/-! ## What a wallet holds -/

/-- The wallet has the signers that were given or unlocked. -/
def Holds (address : σ → Address) (seen : List (Event σ)) (wallet : MultiWallet σ) : Prop :=
  ∀ signer ∈ knownIn seen, address signer ∈ wallet.signers

theorem mem_insertAll {signers : ExtTreeMap Address σ} {unlocked : List (PendingSigner × σ)}
    (mem : address signer ∈ signers ∨ signer ∈ unlocked.map Prod.snd) :
    address signer ∈ unlocked.foldl (fun signers (_, signer) =>
      signers.insert (address signer) signer) signers := by
  induction unlocked generalizing signers with
  | nil => simpa using mem
  | cons x unlocked ih =>
    refine ih ?_
    rw [ExtTreeMap.mem_insert, List.map_cons, List.mem_cons] at *
    rcases mem with mem | rfl | mem
    · exact .inl (.inr mem)
    · exact .inl (.inl ReflOrd.compare_self)
    · exact .inr mem

theorem Holds.addSigner (holds : Holds address seen wallet) (signer : σ) :
    Holds address (seen ++ [Event.given signer]) (wallet.addSigner address signer) := by
  intro signer' mem
  rw [MultiWallet.addSigner, ExtTreeMap.mem_insert]
  have known : knownIn (seen ++ [Event.given signer]) = knownIn seen ++ [signer] := by
    simp [knownIn]
  rw [known] at mem
  rcases List.mem_append.mp mem with mem | mem
  · exact .inr (holds signer' mem)
  · obtain rfl := List.mem_singleton.mp mem
    exact .inl ReflOrd.compare_self

theorem unlockedIn_append (unlocked : List (PendingSigner × σ)) :
    unlockedIn (seen ++ unlockedEvents unlocked) = unlockedIn seen ++ unlocked := by
  simp [unlockedIn, unlockedEvents, List.filterMap_map]

theorem knownIn_append (unlocked : List (PendingSigner × σ)) :
    knownIn (seen ++ unlockedEvents unlocked) = knownIn seen ++ unlocked.map Prod.snd := by
  simp [knownIn, unlockedEvents, List.filterMap_map]

theorem Holds.insertAll (holds : Holds address seen wallet)
    (unlocked : List (PendingSigner × σ)) :
    Holds address (seen ++ unlockedEvents unlocked)
      { pendingSigners := [], signers := unlocked.foldl (fun signers (_, signer) =>
        signers.insert (address signer) signer) wallet.signers } := by
  intro signer mem
  rw [knownIn_append] at mem
  exact mem_insertAll ((List.mem_append.mp mem).imp_left (holds signer))

/-- What a call leaves. -/
def afterCall (address : σ → Address) (wallet : MultiWallet σ) (unlock : Unlock σ ε) :
    MultiWallet σ where
  pendingSigners := []
  signers := (unlockedBy unlock 0 wallet.pendingSigners).foldl (fun signers (_, signer) =>
    signers.insert (address signer) signer) wallet.signers

theorem step_of_allUnlock (all : AllUnlock unlock 0 wallet.pendingSigners) :
    (machine address).step wallet (.signers unlock) = some (wallet.afterCall address unlock,
      unlockedEvents (unlockedBy unlock 0 wallet.pendingSigners) ++
        [Event.returned (wallet.afterCall address unlock).signers]) := by
  have snd := unlockAll_snd address unlock 0 wallet.pendingSigners wallet.signers
  obtain ⟨fst, -⟩ := unlockAll_of_allUnlock address all wallet.signers
  simp [machine, getSigners, maybeUnlockPending, afterCall, snd, fst, Except.map, Event.ofResult]

theorem step_of_not_allUnlock (fails : ¬ AllUnlock unlock 0 wallet.pendingSigners) :
    (machine address).step wallet (.signers unlock) = some (wallet.afterCall address unlock,
      unlockedEvents (unlockedBy unlock 0 wallet.pendingSigners) ++ [Event.failed]) := by
  have snd := unlockAll_snd address unlock 0 wallet.pendingSigners wallet.signers
  obtain ⟨⟨err, fst⟩, -⟩ := unlockAll_of_not_allUnlock address fails wallet.signers
  simp [machine, getSigners, maybeUnlockPending, afterCall, snd, fst, Except.map, Event.ofResult]

theorem step_addSigner : (machine address).step wallet (.addSigner signer : Action σ ε) =
    some (wallet.addSigner address signer, [.given signer]) := rfl

theorem not_mem_unlockedEvents (unlocked : List (PendingSigner × σ))
    (signers : ExtTreeMap Address σ) : .returned signers ∉ unlockedEvents unlocked := by
  simp [unlockedEvents]

/-- After an answer nothing more is known. -/
theorem Holds.answered (holds : Holds address seen wallet) {answer : Event σ}
    (quiet : knownIn [answer] = []) : Holds address (seen ++ [answer]) wallet := by
  have known : knownIn (seen ++ [answer]) = knownIn seen := by
    rw [knownIn, List.filterMap_append, ← knownIn, ← knownIn, quiet, List.append_nil]
  rwa [Holds, known]

/-- A call that is answered with a map is answered with all that is known. -/
theorem neverLoses_returned (holds : Holds address (seen ++ out) wallet)
    (quiet : ∀ signers, .returned signers ∉ out) :
    NeverLoses address pendingSigners seen (out ++ [Event.returned wallet.signers] ++ es) ↔
      ((unlockedIn (seen ++ out)).map Prod.fst).Perm pendingSigners ∧
        NeverLoses address pendingSigners (seen ++ out ++ [Event.returned wallet.signers]) es := by
  rw [List.append_assoc, neverLoses_append quiet, List.singleton_append, neverLoses_cons]
  refine and_congr_left fun _ => ⟨fun complete => (complete _ rfl).unlocked, ?_⟩
  rintro unlocked signers ⟨⟩
  exact ⟨unlocked, holds⟩

/-- Once the pending signers are gone, a call returns what is known, which has to be all of
them. -/
theorem neverLoses_drained (drained : wallet.pendingSigners = [])
    (holds : Holds address seen wallet)
    (eq : (machine address).exec actions wallet = some (wallet', es)) :
    NeverLoses address pendingSigners seen es ↔
      (calls actions ≠ [] → ((unlockedIn seen).map Prod.fst).Perm pendingSigners) := by
  induction actions generalizing wallet seen es with
  | nil =>
    obtain ⟨-, rfl⟩ := by simpa [Machine.exec] using eq
    simp [NeverLoses, calls]
  | cons action actions ih =>
    cases action with
    | addSigner signer =>
      obtain ⟨later, tail, rfl⟩ := (Machine.exec_cons_eq_some step_addSigner).mp eq
      have quiet : ∀ signers, .returned signers ∉ [Event.given signer] := by simp
      have same : unlockedIn (seen ++ [Event.given signer]) = unlockedIn seen := by
        simp [unlockedIn]
      have drained : (wallet.addSigner address signer).pendingSigners = [] := drained
      rw [neverLoses_append quiet, ih drained (holds.addSigner signer) tail, same]
      rfl
    | signers unlock =>
      have all : AllUnlock unlock 0 wallet.pendingSigners := by
        rw [drained]
        intro i pending getEq
        simp at getEq
      have nothing : unlockedBy unlock 0 wallet.pendingSigners = [] := by
        rw [drained, unlockedBy]
      have returned : Holds address (seen ++ unlockedEvents (unlockedBy unlock 0
          wallet.pendingSigners)) (wallet.afterCall address unlock) := holds.insertAll _
      obtain ⟨later, tail, rfl⟩ := (Machine.exec_cons_eq_some (step_of_allUnlock all)).mp eq
      have same : unlockedIn (seen ++ unlockedEvents (unlockedBy unlock 0 wallet.pendingSigners) ++
          [Event.returned (wallet.afterCall address unlock).signers]) = unlockedIn seen := by
        simp [unlockedIn, nothing, unlockedEvents]
      rw [neverLoses_returned returned (not_mem_unlockedEvents _),
        ih rfl (returned.answered rfl) tail, same, unlockedIn_append, nothing, List.append_nil]
      have called : calls (.signers unlock :: actions) ≠ [] := by simp [calls]
      tauto

/-- The maps that are returned are complete if there is one call, or if the first one unlocks all
pending signers. -/
theorem neverLoses_fresh (fresh : wallet.pendingSigners = pendingSigners)
    (holds : Holds address seen wallet) (before : unlockedIn seen = [])
    (eq : (machine address).exec actions wallet = some (wallet', es)) :
    NeverLoses address pendingSigners seen es ↔
      ∀ unlock unlock' rest, calls actions = unlock :: unlock' :: rest →
        AllUnlock unlock 0 pendingSigners := by
  induction actions generalizing wallet seen es with
  | nil =>
    obtain ⟨-, rfl⟩ := by simpa [Machine.exec] using eq
    simp [NeverLoses, calls]
  | cons action actions ih =>
    cases action with
    | addSigner signer =>
      obtain ⟨later, tail, rfl⟩ := (Machine.exec_cons_eq_some step_addSigner).mp eq
      have quiet : ∀ signers, .returned signers ∉ [Event.given signer] := by simp
      have same : unlockedIn (seen ++ [Event.given signer]) = [] := by
        rw [← before]
        simp [unlockedIn]
      have fresh : (wallet.addSigner address signer).pendingSigners = pendingSigners := fresh
      rw [neverLoses_append quiet, ih fresh (holds.addSigner signer) same tail]
      rfl
    | signers unlock =>
      have held : Holds address (seen ++ unlockedEvents (unlockedBy unlock 0
          wallet.pendingSigners)) (wallet.afterCall address unlock) := holds.insertAll _
      have called : calls (.signers unlock :: actions) = unlock :: calls actions := rfl
      have observes : ∀ answer : Event σ, unlockedIn [answer] = [] →
          unlockedIn (seen ++ unlockedEvents (unlockedBy unlock 0 wallet.pendingSigners) ++
            [answer]) = unlockedBy unlock 0 wallet.pendingSigners := by
        intro answer quiet
        have split : unlockedIn (seen ++ unlockedEvents (unlockedBy unlock 0
            wallet.pendingSigners)) = unlockedBy unlock 0 wallet.pendingSigners := by
          rw [unlockedIn_append, before, List.nil_append]
        rw [unlockedIn, List.filterMap_append, ← unlockedIn, ← unlockedIn, split, quiet,
          List.append_nil]
      by_cases all : AllUnlock unlock 0 wallet.pendingSigners
      · -- everything is unlocked by now, and stays so
        obtain ⟨later, tail, rfl⟩ := (Machine.exec_cons_eq_some (step_of_allUnlock all)).mp eq
        obtain ⟨-, unlocked⟩ := unlockAll_of_allUnlock address all wallet.signers
        have perm : ((unlockedBy unlock 0 wallet.pendingSigners).map Prod.fst).Perm
            pendingSigners := by
          rw [unlocked, fresh]
        rw [neverLoses_returned held (not_mem_unlockedEvents _),
          neverLoses_drained rfl (held.answered rfl) tail, observes _ rfl, unlockedIn_append,
          before, List.nil_append]
        refine iff_of_true ⟨perm, fun _ => perm⟩ fun unlock' _ _ eq => ?_
        obtain ⟨rfl, -⟩ := List.cons.inj (called.symm.trans eq)
        rwa [← fresh]
      · -- what was not unlocked is gone, which the next call shows
        obtain ⟨later, tail, rfl⟩ := (Machine.exec_cons_eq_some (step_of_not_allUnlock all)).mp eq
        obtain ⟨-, less⟩ := unlockAll_of_not_allUnlock address all wallet.signers
        have missing : ¬ ((unlockedBy unlock 0 wallet.pendingSigners).map Prod.fst).Perm
            pendingSigners := by
          intro perm
          have := perm.length_eq
          rw [List.length_map] at this
          rw [fresh] at this less
          omega
        rw [List.append_assoc, neverLoses_append (not_mem_unlockedEvents _),
          neverLoses_append (by simp), neverLoses_drained rfl (held.answered rfl) tail,
          observes _ rfl]
        constructor
        · intro noneEq unlock' unlock'' rest eq
          exact absurd (noneEq fun nil => by simp [called, nil] at eq) missing
        · intro first nonempty
          obtain ⟨unlock', rest, callsEq⟩ := List.exists_cons_of_ne_nil nonempty
          exact absurd (fresh ▸ first unlock unlock' rest (by rw [called, callsEq])) all

theorem holds_new (pendingSigners : List PendingSigner) (signers : List σ) :
    Holds address (signers.map .given) (new address pendingSigners signers) := by
  have known : knownIn (signers.map Event.given) = signers := by
    simp [knownIn, List.filterMap_map]
  intro signer mem
  rw [known] at mem
  rw [new, ExtTreeMap.mem_ofList, List.contains_iff_mem, List.map_map]
  exact List.mem_map_of_mem mem

/-- In a run all returned maps are complete if the first call, where others follow it, unlocks all
pending signers, and only then. -/
theorem neverLoses_iff (address : σ → Address) (pendingSigners : List PendingSigner)
    (signers : List σ) (actions : List (Action σ ε))
    (run : (machine address).exec actions (new address pendingSigners signers) =
      some (wallet', es)) :
    NeverLoses address pendingSigners (signers.map .given) es ↔
      ∀ unlock unlock' rest, calls actions = unlock :: unlock' :: rest →
        AllUnlock unlock 0 pendingSigners := by
  refine neverLoses_fresh rfl (holds_new pendingSigners signers) ?_ run
  simp [unlockedIn, List.filterMap_map]

/-- A key is entered when the signers are accessed. -/
def entered : List (Action Address String) :=
  [.signers fun _ _ => .ok 1, .signers fun _ _ => .error "not asked"]

theorem neverLoses_entered : ∃ (wallet : MultiWallet Address) (es : List (Event Address)),
    (machine id).exec entered (new id [.interactive] []) = some (wallet, es) ∧
      NeverLoses id [.interactive] [] es := by
  refine ⟨_, _, rfl, (neverLoses_iff id [.interactive] [] entered rfl).mpr ?_⟩
  rintro unlock unlock' rest eq i pending -
  obtain ⟨rfl, -⟩ := List.cons.inj eq
  exact ⟨1, rfl⟩

/-- A password is wrong when the signers are accessed, and they are accessed again. -/
def mistyped : List (Action Address String) :=
  [.signers fun _ _ => .error "incorrect password", .signers fun _ _ => .ok 1]

/-- After a wrong password the next call returns `Ok` without the signer. -/
theorem not_neverLoses : ∃ (wallet : MultiWallet Address) (es : List (Event Address)),
    (machine id).exec mistyped (new id [.keystore (.abs ["key"])] []) = some (wallet, es) ∧
      es = [.failed, .returned ∅] ∧ ¬ NeverLoses id [.keystore (.abs ["key"])] [] es := by
  refine ⟨_, _, rfl, rfl, fun never => ?_⟩
  have complete := never [.failed] _ [] rfl
  have := complete.unlocked.length_eq
  simp [unlockedIn] at this

end MultiWallet

end FoundryCore
