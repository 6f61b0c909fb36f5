import IpfsLite.Codec.CborEncodeStream
import IpfsLite.Foundations.CborGrammar

/-! # What a map takes for a value

`operator<<` of a map asks every value stream for its count, which is the number of its items, or of the
elements of its list. -/
namespace IpfsLite.Codec
set_option autoImplicit false

open Cbor (DataItems Argument)

namespace CborEncodeStream

/-- The bytes are as many data items as the stream counts. -/
def Whole (s : CborEncodeStream) : Prop := DataItems s.count s.data_

/-- What the stream encodes is one data item. -/
def Single (s : CborEncodeStream) : Prop := DataItems 1 s.data

/-- The map is accepted exactly when every value is one data item, and raises otherwise. -/
def JudgedByData (s : CborEncodeStream) (m : OrdMap StringKey CborEncodeStream) : Prop :=
  ((∃ t, s.writeMap m = .ok t) ↔ ∀ e ∈ m.entries, e.2.Single) ∧
    ((∃ e ∈ m.entries, ¬ e.2.Single) → s.writeMap m = .error .expectedMapValueSingle)

/-! ## Streams that are whole -/

/-- The streams that are filled by writing to them are whole. -/
theorem Built.whole {p : Bool} {s : CborEncodeStream} (h : Built p s) (hlength : s.data_.length < 2 ^ 64) : s.Whole :=
  (h.items hlength).dataItems

/-- Wrapped bytes are whole when their items are counted. -/
theorem whole_wrap_iff (data : Bytes) (n : ℕ) : (wrap data n).Whole ↔ DataItems n data := Iff.rfl

theorem data_of_list {s : CborEncodeStream} (h : s.isList = true) :
    s.data = encodeNumber .array s.count ++ s.data_ := by rw [data, if_pos h]

theorem data_of_flat {s : CborEncodeStream} (h : s.isList = false) : s.data = s.data_ := by
  rw [data, if_neg (by simp [h])]

/-- A whole list is one item, however many elements it has. -/
theorem single_list_iff {s : CborEncodeStream} (h : s.isList = true) (hcount : s.count < 2 ^ 64) :
    s.Single ↔ s.Whole := by
  have hvalue := Argument.value_shortest s.count hcount
  rw [Single, data_of_list h, encodeNumber_eq .array hcount, DataItems.array_iff, hvalue, Whole]

theorem single_flat_iff {s : CborEncodeStream} (h : s.isList = false) (hwhole : s.Whole) :
    s.Single ↔ s.count = 1 := by
  rw [Single, data_of_flat h]
  constructor
  · intro hone
    exact hwhole.count_unique hone
  · intro hone
    rwa [Whole, hone] at hwhole

theorem single_one_iff {s : CborEncodeStream} (hone : s.count = 1) : s.Single ↔ s.Whole := by
  cases hlist : s.isList with
  | true => exact single_list_iff hlist (by omega)
  | false => rw [Single, data_of_flat hlist, Whole, hone]

/-! ## Which maps are accepted -/

theorem writeMap_ok_iff (s : CborEncodeStream) (m : OrdMap StringKey CborEncodeStream) :
    (∃ t, s.writeMap m = .ok t) ↔ ∀ e ∈ m.entries, e.2.count = 1 := by
  constructor
  · rintro ⟨t, ht⟩
    exact (writeMap_eq ht).1
  · intro hall
    have hnone : ¬ ∃ e ∈ m.entries, e.2.count ≠ 1 := fun ⟨e, he, hne⟩ => hne (hall e he)
    exact ⟨_, by rw [writeMap, if_neg hnone]⟩

theorem writeMap_error_iff (s : CborEncodeStream) (m : OrdMap StringKey CborEncodeStream) :
    s.writeMap m = .error .expectedMapValueSingle ↔ ∃ e ∈ m.entries, e.2.count ≠ 1 := by
  unfold writeMap
  split_ifs with h
  · exact iff_of_true rfl h
  · exact iff_of_false (by simp) h

theorem judgedByData_iff (s : CborEncodeStream) (m : OrdMap StringKey CborEncodeStream) :
    JudgedByData s m ↔ ((∀ e ∈ m.entries, e.2.count = 1) ↔ ∀ e ∈ m.entries, e.2.Single) := by
  rw [JudgedByData, writeMap_ok_iff, writeMap_error_iff]
  refine and_iff_left_of_imp fun hiff => ?_
  rintro ⟨e, he, hsingle⟩
  by_contra hnone
  have hall : ∀ e ∈ m.entries, e.2.count = 1 := fun e he => by_contra fun hne => hnone ⟨e, he, hne⟩
  exact hsingle (hiff.mp hall e he)

/-- All the values are whole and count one, or one that is no list counts something else and is whole, or
one that is not whole is no single item and some value does not count one. -/
def CountTells (m : OrdMap StringKey CborEncodeStream) : Prop :=
  (∀ e ∈ m.entries, e.2.Whole ∧ e.2.count = 1) ∨
    (∃ e ∈ m.entries, e.2.Whole ∧ e.2.isList = false ∧ e.2.count ≠ 1) ∨
    ((∃ e ∈ m.entries, ¬ e.2.Whole ∧ ¬ e.2.Single) ∧ ∃ e ∈ m.entries, e.2.count ≠ 1)

/-- **Map values.** The count says whether the values are single exactly when a list has one element, and
the other streams hold as many items as they count. -/
theorem map_values_judged_iff (s : CborEncodeStream) (m : OrdMap StringKey CborEncodeStream)
    (hcount : ∀ e ∈ m.entries, e.2.count < 2 ^ 64) : JudgedByData s m ↔ CountTells m := by
  rw [judgedByData_iff]
  by_cases hall : ∀ e ∈ m.entries, e.2.count = 1
  · have hsingle : (∀ e ∈ m.entries, e.2.Single) ↔ ∀ e ∈ m.entries, e.2.Whole ∧ e.2.count = 1 := by
      refine forall₂_congr fun e he => ?_
      rw [single_one_iff (hall e he), and_iff_left (hall e he)]
    have hother : ¬ ∃ e ∈ m.entries, e.2.count ≠ 1 := fun ⟨e, he, hne⟩ => hne (hall e he)
    rw [iff_true_left hall, hsingle, CountTells]
    refine (or_iff_left ?_).symm
    rintro (⟨e, he, -, -, hne⟩ | ⟨-, hne⟩)
    · exact hother ⟨e, he, hne⟩
    · exact hother hne
  · rw [iff_false_left hall, CountTells]
    push Not at hall
    constructor
    · intro hnot
      push Not at hnot
      obtain ⟨e, he, hsingle⟩ := hnot
      refine .inr ?_
      by_cases hwhole : e.2.Whole
      · cases hlist : e.2.isList with
        | true => exact absurd ((single_list_iff hlist (hcount e he)).mpr hwhole) hsingle
        | false => exact .inl ⟨e, he, hwhole, hlist, fun hone => hsingle ((single_flat_iff hlist hwhole).mpr hone)⟩
      · exact .inr ⟨⟨e, he, hwhole, hsingle⟩, hall⟩
    · rintro (hone | ⟨e, he, hwhole, hlist, hne⟩ | ⟨⟨e, he, -, hsingle⟩, -⟩) hevery
      · obtain ⟨e, he, hne⟩ := hall
        exact hne (hone e he).2
      · exact hne ((single_flat_iff hlist hwhole).mp (hevery e he))
      · exact hsingle (hevery e he)

/-- A number as the value. -/
theorem number_judged : JudgedByData init (OrdMap.empty.insert ⟨[0x61]⟩ (init.writeUnsigned 1)) := by
  have hentries : (OrdMap.empty.insert (⟨[0x61]⟩ : StringKey) (init.writeUnsigned 1)).entries =
      [(⟨[0x61]⟩, init.writeUnsigned 1)] := rfl
  refine (map_values_judged_iff init _ ?_).mpr (.inl ?_)
  · rw [hentries]
    simp [writeUnsigned, put, init]
  · rw [hentries]
    simp only [List.mem_singleton, forall_eq]
    exact ⟨(Built.unsigned 1 .init).whole (by decide), rfl⟩

/-- The list [1, 2] is one data item, but not taken as the value. -/
theorem pair_not_judged : ¬ JudgedByData init
    (OrdMap.empty.insert ⟨[0x61]⟩ ((list.writeUnsigned 1).writeUnsigned 2)) := by
  have hentries : (OrdMap.empty.insert (⟨[0x61]⟩ : StringKey) ((list.writeUnsigned 1).writeUnsigned 2)).entries =
      [(⟨[0x61]⟩, (list.writeUnsigned 1).writeUnsigned 2)] := rfl
  have hwhole : ((list.writeUnsigned 1).writeUnsigned 2).Whole :=
    (Built.unsigned 2 (.unsigned 1 .list)).whole (by decide)
  have hsingle : ((list.writeUnsigned 1).writeUnsigned 2).Single := (single_list_iff rfl (by decide)).mpr hwhole
  rw [judgedByData_iff, hentries]
  simp only [List.mem_singleton, forall_eq]
  intro h
  exact absurd (h.mpr hsingle) (by decide)

end CborEncodeStream
end IpfsLite.Codec
