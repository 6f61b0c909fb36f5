import IpfsLite.Graphsync.Common

/-! # `RequestIdGenerator`

The object shared by all `GraphsyncImpl` instances of a node: the request id counter and the
holders in which the instances record the outcome of their lookup for a remote request
(`local_requests.hpp`). Every `registerStatus` call makes a holder of its own, so a holder is
named by its registration (a type `H`), and the table keeps the names. Each function below is one
critical section of `mutex_`; the status itself is written outside it. -/
namespace IpfsLite.Graphsync
set_option autoImplicit false

structure RequestIdGenerator (H : Type) where
  counter : ℤ
  /-- `request_holders_`: an absent key and an empty vector read the same -/
  requestHolders : RequestId → List H
  status : H → ResponseStatusCode

namespace RequestIdGenerator
variable {H : Type}

def initial : RequestIdGenerator H := ⟨0, fun _ => [], fun _ => .awaitingStatus⟩

/-- `++counter_` on an `int32_t`. -/
def next (g : RequestIdGenerator H) : RequestId × RequestIdGenerator H :=
  let id := if g.counter + 1 < 2 ^ 31 then g.counter + 1 else -2 ^ 31
  (id, { g with counter := id })

def registerStatus [DecidableEq H] (g : RequestIdGenerator H) (id : RequestId) (h : H) : RequestIdGenerator H :=
  { g with
    requestHolders := Function.update g.requestHolders id (g.requestHolders id ++ [h])
    status := Function.update g.status h .awaitingStatus }

def removeStatus [DecidableEq H] (g : RequestIdGenerator H) (id : RequestId) (h : H) : RequestIdGenerator H :=
  { g with requestHolders := Function.update g.requestHolders id ((g.requestHolders id).erase h) }

/-- False also when nothing is registered under the id. -/
def allStatusesNotFound (g : RequestIdGenerator H) (id : RequestId) : Bool :=
  !(g.requestHolders id).isEmpty && (g.requestHolders id).all fun h => g.status h = .notFound

def removeRequest (g : RequestIdGenerator H) (id : RequestId) : RequestIdGenerator H :=
  { g with requestHolders := Function.update g.requestHolders id [] }

/-- `status_holder->status = status`. -/
def setStatus [DecidableEq H] (g : RequestIdGenerator H) (h : H) (status : ResponseStatusCode) :
    RequestIdGenerator H :=
  { g with status := Function.update g.status h status }

@[simp] theorem registerStatus_holders [DecidableEq H] (g : RequestIdGenerator H) (id r : RequestId) (h : H) :
    (g.registerStatus id h).requestHolders r =
      if r = id then g.requestHolders id ++ [h] else g.requestHolders r := by
  simp [registerStatus, Function.update_apply]

@[simp] theorem registerStatus_status [DecidableEq H] (g : RequestIdGenerator H) (id : RequestId) (h k : H) :
    (g.registerStatus id h).status k = if k = h then .awaitingStatus else g.status k := by
  simp [registerStatus, Function.update_apply]

@[simp] theorem removeStatus_holders [DecidableEq H] (g : RequestIdGenerator H) (id r : RequestId) (h : H) :
    (g.removeStatus id h).requestHolders r =
      if r = id then (g.requestHolders id).erase h else g.requestHolders r := by
  simp [removeStatus, Function.update_apply]

@[simp] theorem removeStatus_status [DecidableEq H] (g : RequestIdGenerator H) (id : RequestId) (h : H) :
    (g.removeStatus id h).status = g.status := rfl

@[simp] theorem removeRequest_holders (g : RequestIdGenerator H) (id r : RequestId) :
    (g.removeRequest id).requestHolders r = if r = id then [] else g.requestHolders r := by
  simp [removeRequest, Function.update_apply]

@[simp] theorem removeRequest_status (g : RequestIdGenerator H) (id : RequestId) :
    (g.removeRequest id).status = g.status := rfl

@[simp] theorem setStatus_holders [DecidableEq H] (g : RequestIdGenerator H) (h : H) (st : ResponseStatusCode) :
    (g.setStatus h st).requestHolders = g.requestHolders := rfl

@[simp] theorem setStatus_status [DecidableEq H] (g : RequestIdGenerator H) (h k : H) (st : ResponseStatusCode) :
    (g.setStatus h st).status k = if k = h then st else g.status k := by
  simp [setStatus, Function.update_apply]

theorem allStatusesNotFound_iff (g : RequestIdGenerator H) (id : RequestId) :
    g.allStatusesNotFound id = true ↔
      g.requestHolders id ≠ [] ∧ ∀ h ∈ g.requestHolders id, g.status h = .notFound := by
  simp [allStatusesNotFound]

/-- The verdict depends on nothing but the id's own holders. -/
theorem allStatusesNotFound_congr {g k : RequestIdGenerator H} {id : RequestId}
    (hh : g.requestHolders id = k.requestHolders id)
    (hs : ∀ h ∈ g.requestHolders id, g.status h = k.status h) :
    g.allStatusesNotFound id = k.allStatusesNotFound id := by
  rw [Bool.eq_iff_iff, allStatusesNotFound_iff, allStatusesNotFound_iff, ← hh]
  constructor
  · rintro ⟨hne, hall⟩
    exact ⟨hne, fun h hm => hs h hm ▸ hall h hm⟩
  · rintro ⟨hne, hall⟩
    exact ⟨hne, fun h hm => (hs h hm).trans (hall h hm)⟩

/-- How often a holder is registered under an id. -/
def entries [DecidableEq H] (g : RequestIdGenerator H) (id : RequestId) (h : H) : ℕ :=
  (g.requestHolders id).count h

theorem entries_pos [DecidableEq H] {g : RequestIdGenerator H} {id : RequestId} {h : H} :
    0 < g.entries id h ↔ h ∈ g.requestHolders id := List.count_pos_iff

theorem registerStatus_entries [DecidableEq H] (g : RequestIdGenerator H) (id r : RequestId)
    (h k : H) : (g.registerStatus id h).entries r k =
      g.entries r k + if r = id ∧ k = h then 1 else 0 := by
  by_cases hr : r = id
  · by_cases hk : k = h
    · simp [entries, hr, hk]
    · simp [entries, hr, hk, Ne.symm hk]
  · simp [entries, hr]

theorem removeStatus_entries [DecidableEq H] (g : RequestIdGenerator H) (id r : RequestId)
    (h k : H) : (g.removeStatus id h).entries r k =
      g.entries r k - if r = id ∧ k = h then 1 else 0 := by
  by_cases hr : r = id
  · by_cases hk : k = h
    · simp [entries, hr, hk]
    · simp [entries, hr, hk, List.count_erase_of_ne hk]
  · simp [entries, hr]

theorem removeRequest_entries [DecidableEq H] (g : RequestIdGenerator H) (id r : RequestId)
    (h : H) : (g.removeRequest id).entries r h = if r = id then 0 else g.entries r h := by
  by_cases hr : r = id
  · simp [entries, hr]
  · simp [entries, hr]

/-! ## The holders of one class -/

/-- `k` is what is left of `g` without the holders outside `mine`. -/
structure Restricts (mine : H → Bool) (g k : RequestIdGenerator H) : Prop where
  holders : ∀ id, k.requestHolders id = (g.requestHolders id).filter mine
  status : ∀ h, mine h = true → k.status h = g.status h

namespace Restricts
variable {mine : H → Bool} {g k : RequestIdGenerator H} {h : H}

theorem removeRequest (hr : Restricts mine g k) (id : RequestId) :
    Restricts mine (g.removeRequest id) (k.removeRequest id) := by
  refine ⟨fun r => ?_, hr.status⟩
  by_cases hid : r = id
  · simp [hid]
  · simp [hid, hr.holders]

theorem removeRequest_left (hr : Restricts mine g k) {id : RequestId}
    (hm : ∀ h ∈ g.requestHolders id, mine h = false) : Restricts mine (g.removeRequest id) k := by
  refine ⟨fun r => ?_, hr.status⟩
  by_cases hid : r = id
  · rw [hid, hr.holders, removeRequest_holders, if_pos rfl, List.filter_nil, List.filter_eq_nil_iff]
    intro h hmem
    simp [hm h hmem]
  · simp [hid, hr.holders]

theorem allStatusesNotFound_eq (hr : Restricts mine g k) {id : RequestId}
    (hm : ∀ h ∈ g.requestHolders id, mine h = true) :
    k.allStatusesNotFound id = g.allStatusesNotFound id := by
  have hall : k.requestHolders id = g.requestHolders id := by
    rw [hr.holders, List.filter_eq_self.mpr hm]
  refine allStatusesNotFound_congr hall fun h hmem => hr.status h ?_
  exact hm h (hall ▸ hmem)

variable [DecidableEq H]

theorem registerStatus (hr : Restricts mine g k) (hm : mine h = true) (id : RequestId) :
    Restricts mine (g.registerStatus id h) (k.registerStatus id h) := by
  refine ⟨fun r => ?_, fun j hj => ?_⟩
  · by_cases hid : r = id
    · simp [hid, hr.holders, hm]
    · simp [hid, hr.holders]
  · simp only [registerStatus_status, hr.status j hj]

theorem registerStatus_left (hr : Restricts mine g k) (hm : mine h = false) (id : RequestId) :
    Restricts mine (g.registerStatus id h) k := by
  refine ⟨fun r => ?_, fun j hj => ?_⟩
  · by_cases hid : r = id
    · simp [hid, hr.holders, hm]
    · simp [hid, hr.holders]
  · have hne : j ≠ h := by
      intro he
      rw [he, hm] at hj
      exact Bool.false_ne_true hj
    rw [registerStatus_status, if_neg hne, hr.status j hj]

theorem removeStatus (hr : Restricts mine g k) (id : RequestId) (h : H) :
    Restricts mine (g.removeStatus id h) (k.removeStatus id h) := by
  refine ⟨fun r => ?_, hr.status⟩
  by_cases hid : r = id
  · simp only [removeStatus_holders, hid, if_true, hr.holders, List.erase_filter]
  · simp only [removeStatus_holders, hid, if_false, hr.holders]

theorem removeStatus_left (hr : Restricts mine g k) (hm : mine h = false) (id : RequestId) :
    Restricts mine (g.removeStatus id h) k := by
  have herase := hr.removeStatus id h
  refine ⟨fun r => ?_, hr.status⟩
  rw [← herase.holders r, removeStatus_holders]
  have hnot : h ∉ k.requestHolders id := by
    intro hmem
    rw [hr.holders, List.mem_filter, hm] at hmem
    exact Bool.false_ne_true hmem.2
  rw [List.erase_of_not_mem hnot]
  by_cases hid : r = id
  · rw [if_pos hid, hid]
  · rw [if_neg hid]

theorem setStatus (hr : Restricts mine g k) (h : H) (st : ResponseStatusCode) :
    Restricts mine (g.setStatus h st) (k.setStatus h st) := by
  refine ⟨hr.holders, fun j hj => ?_⟩
  simp only [setStatus_status, hr.status j hj]

theorem setStatus_left (hr : Restricts mine g k) (hm : mine h = false) (st : ResponseStatusCode) :
    Restricts mine (g.setStatus h st) k := by
  refine ⟨hr.holders, fun j hj => ?_⟩
  have hne : j ≠ h := by
    intro he
    rw [he, hm] at hj
    exact Bool.false_ne_true hj
  rw [setStatus_status, if_neg hne, hr.status j hj]

end Restricts
end RequestIdGenerator
end IpfsLite.Graphsync
