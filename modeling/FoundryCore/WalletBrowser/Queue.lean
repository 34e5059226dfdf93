import FoundryCore.Library.Map
import Mathlib.Data.List.Basic

/-!
# The request queue of the browser wallet

Requests wait in the order in which they were added; responses are kept by the id of the
request they answer. Seen through the ids that are pending, each operation is one on lists.
-/

open Std

namespace FoundryCore.WalletBrowser

open Library

abbrev Uuid := BitVec 128

class HasId (Req : Type) where
  id : Req → Uuid

/-- Pending requests from the command line to the browser, and responses by request id. -/
structure RequestQueue (Req Res : Type) where
  requests : List Req := []
  responses : ExtTreeMap Uuid Res := ∅

namespace RequestQueue

variable {Req Res : Type} [HasId Req] {q : RequestQueue Req Res} {id id' : Uuid} {request : Req}
  {response : Res}

def addRequest (q : RequestQueue Req Res) (request : Req) : RequestQueue Req Res :=
  { q with requests := q.requests ++ [request] }

def hasRequest (q : RequestQueue Req Res) (id : Uuid) : Bool :=
  q.requests.any fun r => HasId.id r == id

def readRequest (q : RequestQueue Req Res) : Option Req :=
  q.requests.head?

def removeRequest (q : RequestQueue Req Res) (id : Uuid) : Option Req × RequestQueue Req Res :=
  match q.requests.findIdx? fun r => HasId.id r == id with
  | some pos => (q.requests[pos]?, { q with requests := q.requests.eraseIdx pos })
  | none => (none, q)

def addResponse (q : RequestQueue Req Res) (id : Uuid) (response : Res) : RequestQueue Req Res :=
  { q with responses := q.responses.insert id response }

def getResponse (q : RequestQueue Req Res) (id : Uuid) : Option Res × RequestQueue Req Res :=
  (q.responses[id]?, { q with responses := q.responses.erase id })

def drainRequestIds (q : RequestQueue Req Res) : List Uuid × RequestQueue Req Res :=
  (q.requests.map HasId.id, { q with requests := [] })

/-- Records the response of a request and takes the request off the queue. -/
def answer (q : RequestQueue Req Res) (id : Uuid) (response : Res) : RequestQueue Req Res :=
  ((q.addResponse id response).removeRequest id).2

/-- Answers every pending request with what `respond` makes of its id. -/
def failPending (q : RequestQueue Req Res) (respond : Uuid → Res) : RequestQueue Req Res :=
  q.drainRequestIds.1.foldl (fun q id => q.addResponse id (respond id)) q.drainRequestIds.2

/-! ## Pending ids -/

theorem hasRequest_iff : q.hasRequest id ↔ ∃ r ∈ q.requests, HasId.id r = id := by
  simp [hasRequest]

theorem removeRequest_requests :
    (q.removeRequest id).2.requests = q.requests.eraseP fun r => HasId.id r == id := by
  rw [removeRequest, List.eraseP_eq_eraseIdx]
  split
  · next found => simp [found]
  · next absent => simp [absent]

@[simp] theorem removeRequest_responses :
    (q.removeRequest id).2.responses = q.responses := by
  rw [removeRequest]
  split <;> rfl

@[simp] theorem answer_requests :
    (q.answer id response).requests = q.requests.eraseP fun r => HasId.id r == id :=
  removeRequest_requests

theorem answer_responses :
    (q.answer id response).responses[id']? =
      if id' = id then some response else q.responses[id']? := by
  rw [answer, removeRequest_responses, addResponse, getElem?_insert_eq]

omit [HasId Req] in
theorem getResponse_responses :
    (q.getResponse id).2.responses[id']? = if id' = id then none else q.responses[id']? := by
  rw [getResponse, getElem?_erase_eq]

omit [HasId Req] in
theorem foldl_addResponse (ids : List Uuid) (respond : Uuid → Res) (id' : Uuid) :
    (ids.foldl (fun q id => q.addResponse id (respond id)) q).requests = q.requests ∧
    (ids.foldl (fun q id => q.addResponse id (respond id)) q).responses[id']? =
      if id' ∈ ids then some (respond id') else q.responses[id']? := by
  induction ids generalizing q with
  | nil => simp
  | cons id ids ih =>
    obtain ⟨requests, responses⟩ := ih (q := q.addResponse id (respond id))
    refine ⟨requests, responses.trans ?_⟩
    rw [addResponse, getElem?_insert_eq]
    by_cases same : id' = id
    · simp [same]
    · simp [same]

@[simp] theorem failPending_requests {respond : Uuid → Res} :
    (q.failPending respond).requests = [] :=
  (foldl_addResponse _ respond 0).1

theorem failPending_responses {respond : Uuid → Res} :
    (q.failPending respond).responses[id']? =
      if id' ∈ q.requests.map HasId.id then some (respond id') else q.responses[id']? :=
  (foldl_addResponse _ respond _).2

/-- Where no two requests share an id, removing an id leaves the requests with other ids. -/
theorem mem_eraseP {requests : List Req} (distinct : (requests.map HasId.id).Nodup) :
    request ∈ requests.eraseP (fun r => HasId.id r == id) ↔
      request ∈ requests ∧ HasId.id request ≠ id := by
  induction requests with
  | nil => simp
  | cons r rest ih =>
    obtain ⟨fresh, distinct⟩ := List.nodup_cons.mp distinct
    by_cases same : HasId.id r = id
    · rw [List.eraseP_cons_of_pos (by simpa using same)]
      constructor
      · intro mem
        refine ⟨List.mem_cons_of_mem _ mem, fun again => fresh ?_⟩
        exact same.trans again.symm ▸ List.mem_map_of_mem mem
      · rintro ⟨mem, other⟩
        obtain rfl | mem := List.mem_cons.mp mem
        · exact absurd same other
        · exact mem
    · rw [List.eraseP_cons_of_neg (by simpa using same), List.mem_cons, List.mem_cons, ih distinct]
      constructor
      · rintro (rfl | ⟨mem, other⟩)
        · exact ⟨Or.inl rfl, same⟩
        · exact ⟨Or.inr mem, other⟩
      · rintro ⟨rfl | mem, other⟩
        · exact Or.inl rfl
        · exact Or.inr ⟨mem, other⟩

theorem nodup_eraseP {requests : List Req} {p : Req → Bool}
    (distinct : (requests.map HasId.id).Nodup) :
    ((requests.eraseP p).map HasId.id).Nodup :=
  distinct.sublist (List.eraseP_sublist.map _)

end RequestQueue

end FoundryCore.WalletBrowser
