import Mathlib

/-! # Unordered maps

A finite map whose keys have no order of their own: it is traversed in the order of its entries, and
every key is there once. -/
namespace IpfsLite
set_option autoImplicit false

structure AssocMap (κ β : Type) where
  entries : List (κ × β)
  nodup : (entries.map Prod.fst).Nodup

namespace AssocMap
variable {κ β : Type} [DecidableEq κ]

def empty : AssocMap κ β := ⟨[], .nil⟩

def find? (m : AssocMap κ β) (k : κ) : Option β :=
  (m.entries.find? fun e => e.1 = k).map Prod.snd

def contains (m : AssocMap κ β) (k : κ) : Bool := (m.find? k).isSome

def erase (m : AssocMap κ β) (k : κ) : AssocMap κ β where
  entries := m.entries.filter fun e => e.1 ≠ k
  nodup := m.nodup.sublist (List.filter_sublist.map Prod.fst)

/-- Changes the value of a key that is there. -/
def modify (m : AssocMap κ β) (k : κ) (f : β → β) : AssocMap κ β where
  entries := m.entries.map fun e => if e.1 = k then (e.1, f e.2) else e
  nodup := by
    have hkeys : (m.entries.map fun e => if e.1 = k then (e.1, f e.2) else e).map Prod.fst =
        m.entries.map Prod.fst := by
      rw [List.map_map]
      refine List.map_congr_left fun e _ => ?_
      by_cases h : e.1 = k <;> simp [h]
    rw [hkeys]
    exact m.nodup

/-- `m[k] = v`. -/
def insert (m : AssocMap κ β) (k : κ) (v : β) : AssocMap κ β where
  entries := (m.erase k).entries ++ [(k, v)]
  nodup := by
    rw [List.map_append]
    refine List.nodup_append.mpr ⟨(m.erase k).nodup, List.nodup_singleton k, ?_⟩
    rintro a ha b hb rfl
    rw [List.map_singleton, List.mem_singleton] at hb
    obtain ⟨e, he, rfl⟩ := List.mem_map.mp ha
    exact of_decide_eq_true (List.mem_filter.mp he).2 hb

@[simp] theorem find?_empty (k : κ) : (empty : AssocMap κ β).find? k = none := rfl

theorem find?_some_iff (m : AssocMap κ β) (k : κ) (v : β) :
    m.find? k = some v ↔ (k, v) ∈ m.entries := by
  obtain ⟨es, hnodup⟩ := m
  simp only [find?]
  induction es with
  | nil => simp
  | cons e es ih =>
    obtain ⟨hhead, htail⟩ := List.nodup_cons.mp hnodup
    obtain ⟨j, w⟩ := e
    rw [List.find?_cons]
    by_cases hj : j = k
    · subst hj
      have hnot : ∀ u, (j, u) ∉ es := fun u hu => hhead (List.mem_map.mpr ⟨(j, u), hu, rfl⟩)
      simp [hnot, eq_comm]
    · simp [hj, ih htail, Ne.symm hj]

@[simp] theorem find?_erase (m : AssocMap κ β) (k j : κ) :
    (m.erase k).find? j = if j = k then none else m.find? j := by
  refine Option.ext fun v => ?_
  by_cases h : j = k
  · subst h
    simp [find?_some_iff, erase]
  · simp [h, find?_some_iff, erase]

@[simp] theorem find?_insert (m : AssocMap κ β) (k j : κ) (v : β) :
    (m.insert k v).find? j = if j = k then some v else m.find? j := by
  refine Option.ext fun w => ?_
  by_cases h : j = k
  · subst h
    rw [if_pos rfl, find?_some_iff, Option.some.injEq]
    simp [insert, erase, eq_comm]
  · simp [h, find?_some_iff, insert, erase]

@[simp] theorem find?_modify (m : AssocMap κ β) (k j : κ) (f : β → β) :
    (m.modify k f).find? j = if j = k then (m.find? j).map f else m.find? j := by
  have hfind : ∀ es : List (κ × β), ((es.map fun e => if e.1 = k then (e.1, f e.2) else e).find?
      fun e => e.1 = j) = (es.find? fun e => e.1 = j).map fun e => if e.1 = k then (e.1, f e.2) else e := by
    intro es
    rw [List.find?_map]
    congr 2
    funext e
    by_cases he : e.1 = k <;> simp [he]
  rw [find?, modify, hfind]
  cases hf : m.entries.find? fun e => e.1 = j with
  | none => simp [find?, hf]
  | some e =>
    have hej : e.1 = j := by simpa using List.find?_some hf
    by_cases h : j = k
    · subst h
      simp [find?, hf, hej]
    · simp [find?, hf, h, hej]

end AssocMap
end IpfsLite
