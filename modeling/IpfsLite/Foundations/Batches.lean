import Mathlib.Data.List.Induction

/-! # Lists that are cut where an element says so

A writer collects items and sends what it has when an item ends the batch; a listener goes away after an item that is
the last for it. Nothing here names a particular writer. -/
namespace IpfsLite.Batches
set_option autoImplicit false

variable {α : Type}

/-! ## Batches -/

/-- The batches that were ended, and what is collected for the next. -/
structure Batched (α : Type) where
  ended : List (List α)
  pending : List α

variable (ends : α → Bool)

def Batched.add (b : Batched α) (a : α) : Batched α :=
  if ends a then ⟨b.ended ++ [b.pending ++ [a]], []⟩ else ⟨b.ended, b.pending ++ [a]⟩

def batched (items : List α) : Batched α := items.foldl (Batched.add ends) ⟨[], []⟩

theorem batched_concat (items : List α) (a : α) : batched ends (items ++ [a]) = (batched ends items).add ends a := by
  rw [batched, List.foldl_append]
  rfl

/-- Nothing is lost, doubled or moved. -/
theorem batched_flatten (items : List α) : (batched ends items).ended.flatten ++ (batched ends items).pending = items := by
  induction items using List.reverseRecOn with
  | nil => rfl
  | append_singleton items a ih =>
    rw [batched_concat, Batched.add]
    by_cases ha : ends a = true
    · rw [if_pos ha]
      simp only [List.flatten_append, List.flatten_singleton, List.append_nil]
      rw [← List.append_assoc, ih]
    · rw [if_neg ha]
      simp only
      rw [← List.append_assoc, ih]

/-- A batch has one item that ends it, which is its last. -/
structure IsBatch (batch : List α) : Prop where
  exists_last : ∃ init last, batch = init ++ [last] ∧ ends last = true ∧ ∀ a ∈ init, ends a = false

theorem batched_shape (items : List α) :
    (∀ batch ∈ (batched ends items).ended, IsBatch ends batch) ∧ ∀ a ∈ (batched ends items).pending, ends a = false := by
  induction items using List.reverseRecOn with
  | nil => exact ⟨fun _ h => (List.not_mem_nil h).elim, fun _ h => (List.not_mem_nil h).elim⟩
  | append_singleton items a ih =>
    obtain ⟨hended, hpending⟩ := ih
    rw [batched_concat, Batched.add]
    by_cases ha : ends a = true
    · rw [if_pos ha]
      refine ⟨List.forall_mem_append.mpr ⟨hended, List.forall_mem_singleton.mpr ⟨_, a, rfl, ha, hpending⟩⟩, ?_⟩
      exact fun _ h => (List.not_mem_nil h).elim
    · rw [if_neg ha]
      exact ⟨hended, List.forall_mem_append.mpr ⟨hpending, List.forall_mem_singleton.mpr (Bool.eq_false_iff.mpr ha)⟩⟩

variable {ends} in
/-- What comes before an item that ends a batch is in the batches that were ended. -/
theorem sublist_ended {items init : List α} {last : α} (h : (init ++ [last]).Sublist items) (hlast : ends last = true) :
    (init ++ [last]).Sublist (batched ends items).ended.flatten := by
  rw [← batched_flatten ends items] at h
  obtain ⟨front, back, hsplit, hfront, hback⟩ := List.sublist_append_iff.mp h
  obtain rfl | ⟨back', x, rfl⟩ := List.eq_nil_or_concat back
  · rwa [hsplit, List.append_nil]
  · rw [List.concat_eq_append, ← List.append_assoc] at hsplit
    have hx : x = last := (List.cons.inj (List.append_inj' hsplit rfl).2).1.symm
    have hmem : last ∈ (batched ends items).pending := hback.subset (by simp [hx])
    have hno := (batched_shape ends items).2 last hmem
    rw [hlast] at hno
    cases hno

/-! ## The part up to the first -/

variable (last : α → Bool)

/-- Up to the first element that is the last, with it. -/
def upTo : List α → List α
  | [] => []
  | a :: as => if last a then [a] else a :: upTo as

theorem upTo_sublist (as : List α) : (upTo last as).Sublist as := by
  induction as with
  | nil => exact List.Sublist.refl _
  | cons a as ih =>
    rw [upTo]
    split_ifs
    · exact (List.nil_sublist as).cons_cons a
    · exact ih.cons_cons a

/-- A listener: whether it is still there, and what it has heard. -/
def hear (s : Bool × List α) (a : α) : Bool × List α := if s.1 then (!last a, s.2 ++ [a]) else s

theorem foldl_hear_gone (heard : List α) (as : List α) : as.foldl (hear last) (false, heard) = (false, heard) := by
  induction as with
  | nil => rfl
  | cons a as ih => exact ih

theorem foldl_hear (heard : List α) (as : List α) :
    (as.foldl (hear last) (true, heard)).2 = heard ++ upTo last as := by
  induction as generalizing heard with
  | nil => exact (List.append_nil heard).symm
  | cons a as ih =>
    rw [List.foldl_cons, hear, if_pos rfl, upTo]
    by_cases ha : last a = true
    · rw [if_pos ha, ha, Bool.not_true, foldl_hear_gone]
    · rw [if_neg ha, Bool.eq_false_iff.mpr ha, Bool.not_false, ih, List.append_assoc, List.singleton_append]

end IpfsLite.Batches
