import IpfsLite.Codec.CborEncodeStream

/-! # What a failed write leaves behind

`operator<<` for values of any nesting, with the state of the stream when it raises. Lists, tuples and the
values of a map are written to streams of their own first; a map of streams is not. -/
namespace IpfsLite.Codec
set_option autoImplicit false

/-- Values as they are written: integers of any width, the elements of a list or the fields of a tuple in
their order, the values of a map by their keys. -/
inductive EncodeValue where
  | bool (b : Bool)
  | unsigned (n : ℕ)
  | signed (n : ℤ)
  | null
  | string (str : Bytes)
  | bytes (b : Bytes)
  | cid (c : CID)
  | stream (other : CborEncodeStream)
  | streams (m : OrdMap StringKey CborEncodeStream)
  | optional (v : EncodeValue)
  | list {n : ℕ} (element : Fin n → EncodeValue)
  | map (keys : OrdMap StringKey Unit) (value : StringKey → EncodeValue)

/-- What a call raises, if it does, and the state of the stream after it. -/
abbrev Attempt := Except CborEncodeError Unit × CborEncodeStream

namespace CborEncodeStream

/-- The count and the head come before the check. -/
def writeStreams (s : CborEncodeStream) (m : OrdMap StringKey CborEncodeStream) : Attempt :=
  let s := s.put (encodeNumber .map m.entries.length)
  if ∃ e ∈ m.entries, e.2.count ≠ 1 then (.error .expectedMapValueSingle, s)
  else (.ok (), { s with data_ := s.data_ ++ (sortedEntries m).entries.flatMap fun e => e.1.bytes ++ e.2 })

/-- The loop over the elements of a list. -/
def writeEach {α : Type} (write : α → CborEncodeStream → Attempt) : List α → CborEncodeStream → Attempt
  | [], l => (.ok (), l)
  | v :: vs, l =>
    match write v l with
    | (.ok (), l) => writeEach write vs l
    | (.error e, l) => (.error e, l)

/-- The loop over the items of a map, `m[item.first] << item.second`. -/
def writeItems (write : StringKey → CborEncodeStream → Attempt) : List StringKey →
    OrdMap StringKey CborEncodeStream → Except CborEncodeError (OrdMap StringKey CborEncodeStream)
  | [], m => .ok m
  | k :: keys, m =>
    match write k ((m.find? k).getD .init) with
    | (.ok (), stream) => writeItems write keys (m.insert k stream)
    | (.error e, _) => .error e

end CborEncodeStream

namespace EncodeValue
open CborEncodeStream

/-- `operator<<`. -/
def write : EncodeValue → CborEncodeStream → Attempt
  | .bool b, s => (.ok (), s.writeBool b)
  | .unsigned n, s => (.ok (), s.writeUnsigned n)
  | .signed n, s => (.ok (), s.writeSigned n)
  | .null, s => (.ok (), s.writeNull)
  | .string str, s => (.ok (), s.writeString str)
  | .bytes b, s => (.ok (), s.writeBytes b)
  | .cid c, s =>
    match s.writeCid c with
    | .ok t => (.ok (), t)
    | .error e => (.error e, s)
  | .stream other, s => (.ok (), s.writeStream other)
  | .streams m, s => s.writeStreams m
  | .optional v, s => v.write s
  | .list element, s =>
    match writeEach (fun i l => (element i).write l) (List.finRange _) .list with
    | (.ok (), l) => (.ok (), s.writeStream l)
    | (.error e, _) => (.error e, s)
  | .map keys value, s =>
    match writeItems (fun k stream => (value k).write stream) keys.keys .empty with
    | .ok m => s.writeStreams m
    | .error e => (.error e, s)

/-- A call that raises leaves the stream as it was. -/
def Intact (v : EncodeValue) (s : CborEncodeStream) : Prop :=
  ∀ e t, v.write s = (.error e, t) → t.data = s.data ∧ t.count = s.count ∧ t.isList = s.isList

/-- The items that the stream counts for the value. -/
def size : EncodeValue → ℕ
  | .stream other => if other.isList then 1 else other.count
  | .optional v => v.size
  | _ => 1

def Encodable : EncodeValue → Prop
  | .cid c => c.toBytes.isSome = true
  | .streams m => ∀ e ∈ m.entries, e.2.count = 1
  | .optional v => v.Encodable
  | .list element => ∀ i, (element i).Encodable
  | .map keys value => ∀ k ∈ keys.keys, (value k).Encodable ∧ (value k).size = 1
  | _ => True

/-- A map is written to the stream itself, whose values can be encoded but do not all count one. -/
def UnsingleMap : EncodeValue → Prop
  | .streams m => ∃ e ∈ m.entries, e.2.count ≠ 1
  | .optional v => v.UnsingleMap
  | .map keys value => (∀ k ∈ keys.keys, (value k).Encodable) ∧ ∃ k ∈ keys.keys, (value k).size ≠ 1
  | _ => False

end EncodeValue

/-! ## A call that returns -/

namespace CborEncodeStream

theorem writeStreams_ok {s : CborEncodeStream} {m : OrdMap StringKey CborEncodeStream}
    (h : ∀ e ∈ m.entries, e.2.count = 1) :
    ∃ t, s.writeStreams m = (.ok (), t) ∧ s.writeMap m = .ok t := by
  have hnone : ¬ ∃ e ∈ m.entries, e.2.count ≠ 1 := fun ⟨e, he, hne⟩ => hne (h e he)
  refine ⟨_, if_neg hnone, ?_⟩
  rw [writeMap, if_neg hnone, put, put, List.append_assoc]

theorem writeStreams_error {s : CborEncodeStream} {m : OrdMap StringKey CborEncodeStream}
    (h : ∃ e ∈ m.entries, e.2.count ≠ 1) :
    s.writeStreams m = (.error .expectedMapValueSingle, s.put (encodeNumber .map m.entries.length)) := if_pos h

theorem writeEach_ok {α : Type} {write : α → CborEncodeStream → Attempt} {vs : List α}
    (h : ∀ v ∈ vs, ∀ s, ∃ t, write v s = (.ok (), t) ∧ t.isList = s.isList) (l : CborEncodeStream) :
    ∃ t, writeEach write vs l = (.ok (), t) ∧ t.isList = l.isList := by
  induction vs generalizing l with
  | nil => exact ⟨l, rfl, rfl⟩
  | cons v vs ih =>
    obtain ⟨u, hu, hlist⟩ := h v List.mem_cons_self l
    obtain ⟨t, ht, hlist'⟩ := ih (fun v hv => h v (List.mem_cons_of_mem _ hv)) u
    refine ⟨t, ?_, hlist'.trans hlist⟩
    rw [writeEach, hu]
    exact ht

theorem writeEach_error {α : Type} {write : α → CborEncodeStream → Attempt} {vs : List α} {v : α} (hv : v ∈ vs)
    (h : ∀ s, ∃ e t, write v s = (.error e, t)) (l : CborEncodeStream) :
    ∃ e t, writeEach write vs l = (.error e, t) := by
  induction vs generalizing l with
  | nil => cases hv
  | cons w vs ih =>
    rw [writeEach]
    cases hw : write w l with
    | mk r t =>
      cases r with
      | error e => exact ⟨e, t, rfl⟩
      | ok u =>
        obtain rfl | hv := List.mem_cons.mp hv
        · obtain ⟨e, t', ht'⟩ := h l
          rw [hw] at ht'
          cases ht'
        · exact ih hv t

/-- Every item has a stream of its own. -/
theorem writeItems_ok {write : StringKey → CborEncodeStream → Attempt} {keys : List StringKey} (hnodup : keys.Nodup)
    (h : ∀ k ∈ keys, ∃ t, write k .init = (.ok (), t)) {m : OrdMap StringKey CborEncodeStream}
    (hnew : ∀ k ∈ keys, m.find? k = none) :
    ∃ m', writeItems write keys m = .ok m' ∧ ∀ k t, m'.find? k = some t ↔
      (k ∈ keys ∧ write k .init = (.ok (), t)) ∨ (k ∉ keys ∧ m.find? k = some t) := by
  induction keys generalizing m with
  | nil => exact ⟨m, rfl, fun k t => by simp⟩
  | cons k keys ih =>
    obtain ⟨hk, hnodup⟩ := List.nodup_cons.mp hnodup
    obtain ⟨u, hu⟩ := h k List.mem_cons_self
    have hnew' : ∀ j ∈ keys, (m.insert k u).find? j = none := by
      intro j hj
      have hne : j ≠ k := by
        rintro rfl
        exact hk hj
      rw [OrdMap.find?_insert, if_neg hne]
      exact hnew j (List.mem_cons_of_mem _ hj)
    obtain ⟨m', hm', hfind⟩ := ih hnodup (fun j hj => h j (List.mem_cons_of_mem _ hj)) hnew'
    refine ⟨m', ?_, fun j t => ?_⟩
    · rw [writeItems, hnew k List.mem_cons_self, Option.getD_none, hu]
      exact hm'
    · rw [hfind, OrdMap.find?_insert]
      by_cases hjk : j = k
      · subst hjk
        rw [if_pos rfl, hu]
        simp only [hk, false_and, not_false_eq_true, true_and, false_or, List.mem_cons_self, not_true, or_false,
          Option.some.injEq, Prod.mk.injEq]
      · rw [if_neg hjk]
        simp only [List.mem_cons, hjk, false_or]

theorem writeItems_error {write : StringKey → CborEncodeStream → Attempt} {keys : List StringKey} {k : StringKey}
    (hk : k ∈ keys) (h : ∀ s, ∃ e t, write k s = (.error e, t)) (m : OrdMap StringKey CborEncodeStream) :
    ∃ e, writeItems write keys m = .error e := by
  induction keys generalizing m with
  | nil => cases hk
  | cons j keys ih =>
    rw [writeItems]
    cases hw : write j ((m.find? j).getD .init) with
    | mk r t =>
      cases r with
      | error e => exact ⟨e, rfl⟩
      | ok u =>
        obtain rfl | hk := List.mem_cons.mp hk
        · obtain ⟨e, t', ht'⟩ := h ((m.find? k).getD .init)
          rw [hw] at ht'
          cases ht'
        · exact ih hk _

end CborEncodeStream

namespace EncodeValue
open CborEncodeStream

/-- The streams of the items, when every item can be encoded. -/
theorem items_written {keys : OrdMap StringKey Unit} {value : StringKey → EncodeValue}
    (h : ∀ k ∈ keys.keys, ∀ s, ∃ t, (value k).write s = (.ok (), t) ∧ t.isList = s.isList ∧
      t.count = s.count + (value k).size) :
    ∃ m, writeItems (fun k stream => (value k).write stream) keys.keys .empty = .ok m ∧
      ((∀ e ∈ m.entries, e.2.count = 1) ↔ ∀ k ∈ keys.keys, (value k).size = 1) := by
  have hwrite : ∀ k ∈ keys.keys, ∃ t, (value k).write .init = (.ok (), t) := by
    intro k hk
    obtain ⟨t, ht, -⟩ := h k hk .init
    exact ⟨t, ht⟩
  have hcount : ∀ k ∈ keys.keys, ∀ t, (value k).write .init = (.ok (), t) → t.count = (value k).size := by
    intro k hk t ht
    obtain ⟨t', ht', -, hsize⟩ := h k hk .init
    rw [ht, Prod.mk.injEq] at ht'
    rw [ht'.2, hsize]
    exact Nat.zero_add _
  obtain ⟨m, hm, hfind⟩ := writeItems_ok keys.nodup_keys hwrite (m := .empty) fun k _ => rfl
  refine ⟨m, hm, fun hall k hk => ?_, fun hall e he => ?_⟩
  · obtain ⟨t, ht⟩ := hwrite k hk
    have hmem := (OrdMap.find?_some_iff m k t).mp ((hfind k t).mpr (.inl ⟨hk, ht⟩))
    rw [← hcount k hk t ht]
    exact hall _ hmem
  · obtain ⟨hk, ht⟩ | ⟨-, hnone⟩ := (hfind e.1 e.2).mp ((OrdMap.find?_some_iff m e.1 e.2).mpr he)
    · rw [hcount e.1 hk e.2 ht]
      exact hall e.1 hk
    · cases hnone

theorem write_ok {v : EncodeValue} (h : v.Encodable) (s : CborEncodeStream) :
    ∃ t, v.write s = (.ok (), t) ∧ t.isList = s.isList ∧ t.count = s.count + v.size := by
  induction v generalizing s with
  | bool | unsigned | signed | null | string | bytes => exact ⟨_, rfl, rfl, rfl⟩
  | stream other => exact ⟨_, rfl, rfl, rfl⟩
  | cid c =>
    obtain ⟨bytes, hbytes⟩ := Option.isSome_iff_exists.mp h
    refine ⟨s.put (cidItem bytes), ?_, rfl, rfl⟩
    rw [write, writeCid, hbytes]
    simp only [writeBytes, put, cidItem, List.append_assoc]
  | streams m =>
    obtain ⟨t, ht, hmap⟩ := writeStreams_ok (s := s) h
    obtain ⟨-, rfl⟩ := writeMap_eq hmap
    exact ⟨_, ht, rfl, rfl⟩
  | optional v ih => exact ih h s
  | @list n element ih =>
    obtain ⟨l, hl, hlist⟩ := @writeEach_ok _ (fun i l => (element i).write l) (List.finRange n)
      (fun i _ l => (ih i (h i) l).imp fun t ht => ⟨ht.1, ht.2.1⟩) .list
    refine ⟨s.writeStream l, ?_, rfl, ?_⟩
    · rw [write, hl]
    · have htrue : l.isList = true := hlist
      rw [writeStream, htrue]
      rfl
  | map keys value ih =>
    obtain ⟨m, hm, hone⟩ := items_written fun k hk s => ih k (h k hk).1 s
    obtain ⟨t, ht, hmap⟩ := writeStreams_ok (s := s) (hone.mpr fun k hk => (h k hk).2)
    obtain ⟨-, htput⟩ := writeMap_eq hmap
    refine ⟨t, ?_, htput ▸ rfl, htput ▸ rfl⟩
    rw [write, hm]
    exact ht

/-- A call that raises has counted the map that it writes to the stream, or left everything as it was. -/
theorem write_error {v : EncodeValue} (h : ¬ v.Encodable) (s : CborEncodeStream) :
    ∃ e t, v.write s = (.error e, t) ∧ (v.UnsingleMap → t.count = s.count + 1) ∧ (¬ v.UnsingleMap → t = s) := by
  induction v generalizing s with
  | bool | unsigned | signed | null | string | bytes | stream => exact absurd trivial h
  | cid c =>
    have hnone : c.toBytes = none := by
      cases hc : c.toBytes with
      | none => rfl
      | some bytes => exact absurd (by rw [Encodable, hc]; rfl) h
    refine ⟨.invalidCid, s, ?_, nofun, fun _ => rfl⟩
    rw [write, writeCid, hnone]
  | streams m =>
    have hne : ∃ e ∈ m.entries, e.2.count ≠ 1 := by
      rw [Encodable] at h
      push Not at h
      exact h
    exact ⟨_, _, writeStreams_error hne, fun _ => rfl, fun hnot => absurd hne hnot⟩
  | optional v ih => exact ih h s
  | @list n element ih =>
    rw [Encodable, not_forall] at h
    obtain ⟨i, hi⟩ := h
    have hraise : ∀ l, ∃ e t, (element i).write l = (.error e, t) := by
      intro l
      obtain ⟨e, t, ht, -⟩ := ih i hi l
      exact ⟨e, t, ht⟩
    obtain ⟨e, t, ht⟩ := @writeEach_error _ (fun i l => (element i).write l) _ _ (List.mem_finRange i) hraise .list
    refine ⟨e, s, ?_, nofun, fun _ => rfl⟩
    rw [write, ht]
  | map keys value ih =>
    by_cases hall : ∀ k ∈ keys.keys, (value k).Encodable
    · obtain ⟨m, hm, hone⟩ := items_written fun k hk s => write_ok (hall k hk) s
      have hsize : ∃ k ∈ keys.keys, (value k).size ≠ 1 := by
        by_contra hnone
        push Not at hnone
        exact h fun k hk => ⟨hall k hk, hnone k hk⟩
      have hne : ∃ e ∈ m.entries, e.2.count ≠ 1 := by
        by_contra hnone
        push Not at hnone
        obtain ⟨k, hk, hk'⟩ := hsize
        exact hk' (hone.mp hnone k hk)
      refine ⟨.expectedMapValueSingle, s.put (encodeNumber .map m.entries.length), ?_, fun _ => rfl,
        fun hnot => absurd ⟨hall, hsize⟩ hnot⟩
      rw [write, hm]
      exact writeStreams_error hne
    · push Not at hall
      obtain ⟨k, hk, hk'⟩ := id hall
      have hraise : ∀ l, ∃ e t, (value k).write l = (.error e, t) := by
        intro l
        obtain ⟨e, t, ht, -⟩ := ih k hk' l
        exact ⟨e, t, ht⟩
      obtain ⟨e, he⟩ := @writeItems_error (fun k stream => (value k).write stream) _ _ hk hraise .empty
      refine ⟨e, s, ?_, fun hmap => absurd (hmap.1 k hk) hk', fun _ => rfl⟩
      rw [write, he]

theorem unsingleMap_not_encodable {v : EncodeValue} (h : v.UnsingleMap) : ¬ v.Encodable := by
  induction v with
  | bool | unsigned | signed | null | string | bytes | cid | stream | list => exact h.elim
  | streams m =>
    obtain ⟨e, he, hne⟩ := h
    exact fun hall => hne (hall e he)
  | optional v ih => exact ih h
  | map keys value =>
    obtain ⟨-, k, hk, hne⟩ := h
    exact fun hall => hne (hall k hk).2

/-- **Failed writes.** A write that raises leaves the stream as it was, unless the value puts a map with a
value that is not single straight into the stream. -/
theorem failed_write_intact_iff (v : EncodeValue) (s : CborEncodeStream) : v.Intact s ↔ ¬ v.UnsingleMap := by
  constructor
  · intro hintact hmap
    obtain ⟨e, t, ht, hcount, -⟩ := write_error (unsingleMap_not_encodable hmap) s
    have hsame := (hintact e t ht).2.1
    rw [hcount hmap] at hsame
    omega
  · intro hnot e t ht
    by_cases h : v.Encodable
    · obtain ⟨t', ht', -⟩ := write_ok h s
      rw [ht] at ht'
      cases ht'
    · obtain ⟨e', t', ht', -, hsame⟩ := write_error h s
      rw [ht, Prod.mk.injEq] at ht'
      rw [ht'.2, hsame hnot]
      exact ⟨rfl, rfl, rfl⟩

/-- An empty stream as the value of a map: the head of the map stays behind, and is counted. -/
theorem map_head_left_behind :
    (EncodeValue.streams (OrdMap.empty.insert ⟨[0x61]⟩ .init)).write .init =
        (.error .expectedMapValueSingle, ⟨false, [0xa1], 1⟩) ∧
      ¬ (EncodeValue.streams (OrdMap.empty.insert ⟨[0x61]⟩ .init)).Intact .init := by
  have hne : ∃ e ∈ (OrdMap.empty.insert (⟨[0x61]⟩ : StringKey) CborEncodeStream.init).entries, e.2.count ≠ 1 :=
    ⟨(⟨[0x61]⟩, .init), List.mem_singleton_self _, Nat.zero_ne_one⟩
  have hwrite : (EncodeValue.streams (OrdMap.empty.insert ⟨[0x61]⟩ .init)).write .init =
      (.error .expectedMapValueSingle, ⟨false, [0xa1], 1⟩) := writeStreams_error hne
  refine ⟨hwrite, fun hintact => ?_⟩
  have hcount := (hintact _ _ hwrite).2.1
  exact absurd hcount (by decide)

end EncodeValue
end IpfsLite.Codec
