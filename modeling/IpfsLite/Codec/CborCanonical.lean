import IpfsLite.Codec.CborEncodeStream

/-! # Canonical output

What a `CborEncodeStream` holds, for every way to fill it: so many data items with shortest heads, and in
every map the keys in strictly increasing order, by length and then bytewise. -/
namespace IpfsLite.Codec
set_option autoImplicit false

open Cbor (Major Argument Items)

/-- The bytes of a map with these entries. -/
def mapItem (es : List (CborKey × Bytes)) : Bytes :=
  encodeNumber .map es.length ++ es.flatMap fun e => e.1.bytes ++ e.2

/-- So many canonical data items, one after the other. -/
inductive Canonical : ℕ → Bytes → Prop where
  | nil : Canonical 0 []
  | number {m : Major} {n k : ℕ} {rest : Bytes} (hm : m = .unsigned ∨ m = .negative) (hn : n < 2 ^ 64)
      (hrest : Canonical k rest) : Canonical (k + 1) (encodeNumber m n ++ rest)
  | string {m : Major} {data : Bytes} {k : ℕ} {rest : Bytes} (hm : m = .bytes ∨ m = .text)
      (hdata : data.length < 2 ^ 64) (hrest : Canonical k rest) :
      Canonical (k + 1) (encodeNumber m data.length ++ (data ++ rest))
  | array {n : ℕ} {inner : Bytes} {k : ℕ} {rest : Bytes} (hn : n < 2 ^ 64) (hinner : Canonical n inner)
      (hrest : Canonical k rest) : Canonical (k + 1) (encodeNumber .array n ++ (inner ++ rest))
  | map {es : List (CborKey × Bytes)} {k : ℕ} {rest : Bytes} (hn : 2 * es.length < 2 ^ 64)
      (hkey : ∀ e ∈ es, Canonical 1 e.1.bytes) (hvalue : ∀ e ∈ es, Canonical 1 e.2)
      (hordered : es.Pairwise fun a b => a.1 < b.1) (hrest : Canonical k rest) :
      Canonical (k + 1) (mapItem es ++ rest)
  | tag {n : ℕ} {inner : Bytes} {k : ℕ} {rest : Bytes} (hn : n < 2 ^ 64) (hinner : Canonical 1 inner)
      (hrest : Canonical k rest) : Canonical (k + 1) (encodeNumber .tag n ++ (inner ++ rest))
  | simple {a : Argument} {k : ℕ} {rest : Bytes} (ha : a.width = .one → 32 ≤ a.value)
      (hrest : Canonical k rest) : Canonical (k + 1) (Cbor.head .simple a ++ rest)

namespace Canonical

/-! ## Canonical items are well formed -/

theorem items {k : ℕ} {bytes : Bytes} (h : Canonical k bytes) : ∃ p, Items (2 ^ 64) p k bytes := by
  induction h with
  | nil => exact ⟨false, .nil⟩
  | number hm hn _ ih =>
    obtain ⟨p, hp⟩ := ih
    rw [CborEncodeStream.encodeNumber_eq _ hn]
    exact ⟨p, .integer hm hp⟩
  | string hm hdata _ ih =>
    obtain ⟨p, hp⟩ := ih
    rw [CborEncodeStream.encodeNumber_eq _ hdata]
    exact ⟨p, .string hm (Argument.value_shortest _ hdata).symm hp⟩
  | array hn _ _ ih₁ ih₂ =>
    obtain ⟨p, hp⟩ := ih₁
    obtain ⟨q, hq⟩ := ih₂
    have hone := (CborEncodeStream.items_array le_rfl hn hp).append hq
    rw [List.append_assoc, Nat.add_comm] at hone
    exact ⟨_, hone⟩
  | map hn _ _ _ _ ihk ihv ih =>
    obtain ⟨q, hq⟩ := ih
    obtain ⟨p, hp⟩ := Items.exists_flatMap fun e he => by
      obtain ⟨p₁, h₁⟩ := ihk e he
      obtain ⟨p₂, h₂⟩ := ihv e he
      exact ⟨_, h₁.append h₂⟩
    have hone := (CborEncodeStream.items_map le_rfl hn hp).append hq
    rw [Nat.add_comm] at hone
    exact ⟨_, hone⟩
  | tag hn _ _ ih₁ ih₂ =>
    obtain ⟨p, hp⟩ := ih₁
    obtain ⟨q, hq⟩ := ih₂
    rw [CborEncodeStream.encodeNumber_eq _ hn]
    exact ⟨_, .tag hp hq⟩
  | simple ha _ ih =>
    obtain ⟨p, hp⟩ := ih
    exact ⟨true, .simple ha hp⟩

theorem append {k l : ℕ} {b c : Bytes} (h : Canonical k b) (h' : Canonical l c) : Canonical (k + l) (b ++ c) := by
  induction h with
  | nil => simpa using h'
  | number hm hn _ ih =>
    rw [List.append_assoc, Nat.add_right_comm]
    exact .number hm hn ih
  | string hm hdata _ ih =>
    rw [List.append_assoc, List.append_assoc, Nat.add_right_comm]
    exact .string hm hdata ih
  | array hn hinner _ _ ih =>
    rw [List.append_assoc, List.append_assoc, Nat.add_right_comm]
    exact .array hn hinner ih
  | map hn hkey hvalue hordered _ _ _ ih =>
    rw [List.append_assoc, Nat.add_right_comm]
    exact .map hn hkey hvalue hordered ih
  | tag hn hinner _ _ ih =>
    rw [List.append_assoc, List.append_assoc, Nat.add_right_comm]
    exact .tag hn hinner ih
  | simple ha _ ih =>
    rw [List.append_assoc, Nat.add_right_comm]
    exact .simple ha ih

/-! A single item. -/

theorem oneNumber {m : Major} (hm : m = .unsigned ∨ m = .negative) {n : ℕ} (hn : n < 2 ^ 64) :
    Canonical 1 (encodeNumber m n) := by
  simpa using number hm hn .nil

theorem oneString {m : Major} (hm : m = .bytes ∨ m = .text) {data : Bytes} (h : data.length < 2 ^ 64) :
    Canonical 1 (encodeNumber m data.length ++ data) := by
  simpa using string hm h .nil

theorem oneArray {n : ℕ} {inner : Bytes} (hn : n < 2 ^ 64) (h : Canonical n inner) :
    Canonical 1 (encodeNumber .array n ++ inner) := by
  simpa using array hn h .nil

theorem oneTag {n : ℕ} {inner : Bytes} (hn : n < 2 ^ 64) (h : Canonical 1 inner) :
    Canonical 1 (encodeNumber .tag n ++ inner) := by
  simpa using tag hn h .nil

theorem oneSimple {n : ℕ} (hn : n < 24) : Canonical 1 (encodeNumber .simple n) := by
  have hwidth : (Argument.shortest n (by omega)).width = .inline := by rw [Argument.shortest, dif_pos hn]
  rw [CborEncodeStream.encodeNumber_eq .simple (by omega)]
  simpa using simple (fun hone => absurd (hwidth.symm.trans hone) (by decide)) .nil

/-- The order of the keys leaves one way only to arrange the entries of a map. -/
theorem arrangement_unique {es es' : List (CborKey × Bytes)} (h : es.Perm es')
    (hordered : es.Pairwise fun a b => a.1 < b.1) (hordered' : es'.Pairwise fun a b => a.1 < b.1) :
    es = es' := congrArg OrdMap.entries (OrdMap.eq_of_perm (m := ⟨es, hordered⟩) (n := ⟨es', hordered'⟩) h)

end Canonical

/-! ## Streams -/

namespace CborEncodeStream

/-- The streams that can be made: the writes, streams and maps of streams put into one another, and wrapped
items. -/
inductive Composed : CborEncodeStream → Prop where
  | init : Composed init
  | list : Composed list
  | wrap {data : Bytes} {count : ℕ} (h : Canonical count data) : Composed (wrap data count)
  | unsigned {s : CborEncodeStream} {n : ℕ} (hn : n < 2 ^ 64) (hs : Composed s) : Composed (s.writeUnsigned n)
  | signed {s : CborEncodeStream} {n : ℤ} (hmin : -2 ^ 63 ≤ n) (hmax : n < 2 ^ 63) (hs : Composed s) :
      Composed (s.writeSigned n)
  | bool {s : CborEncodeStream} (b : Bool) (hs : Composed s) : Composed (s.writeBool b)
  | null {s : CborEncodeStream} (hs : Composed s) : Composed s.writeNull
  | bytes {s : CborEncodeStream} (b : Bytes) (hs : Composed s) : Composed (s.writeBytes b)
  | string {s : CborEncodeStream} (str : Bytes) (hs : Composed s) : Composed (s.writeString str)
  | cid {s t : CborEncodeStream} {c : CID} (hs : Composed s) (ht : s.writeCid c = .ok t) : Composed t
  | stream {s other : CborEncodeStream} (hs : Composed s) (hother : Composed other) :
      Composed (s.writeStream other)
  | self {s : CborEncodeStream} (hs : Composed s) (hlist : s.isList = false) : Composed s.writeSelf
  | map {s t : CborEncodeStream} {m : OrdMap StringKey CborEncodeStream} (hs : Composed s)
      (hm : ∀ e ∈ m.entries, Composed e.2) (ht : s.writeMap m = .ok t) : Composed t

theorem canonical_data {s : CborEncodeStream} (h : Canonical s.count s.data_)
    (hlength : s.data_.length < 2 ^ 64) : Canonical (if s.isList then 1 else s.count) s.data := by
  unfold data
  cases s.isList with
  | false => exact h
  | true =>
    obtain ⟨p, hp⟩ := h.items
    exact .oneArray (Nat.lt_of_le_of_lt hp.le_length hlength) h

theorem canonical_cid {c : CID} {bytes : Bytes} (h : c.toBytes = some bytes) : Canonical 1 (cidItem bytes) := by
  have hlength := CID.toBytes_length_le h
  refine .oneTag (by decide) (.oneString (.inl rfl) ?_)
  rw [List.length_cons]
  omega

/-- One element more. -/
theorem canonical_put {s : CborEncodeStream} {bytes : Bytes} (hs : Canonical s.count s.data_)
    (h : Canonical 1 bytes) : Canonical (s.put bytes).count (s.put bytes).data_ := hs.append h

theorem Composed.canonical {s : CborEncodeStream} (h : Composed s) (hlength : s.data_.length < 2 ^ 64) :
    Canonical s.count s.data_ := by
  induction h with
  | init | list => exact .nil
  | wrap h => exact h
  | unsigned hn _ ih =>
    rw [writeUnsigned, length_put] at hlength
    exact canonical_put (ih (by omega)) (.oneNumber (.inl rfl) hn)
  | signed hmin hmax _ ih =>
    rw [writeSigned, length_put] at hlength
    refine canonical_put (ih (by omega)) ?_
    split_ifs
    · exact .oneNumber (.inl rfl) (by omega)
    · exact .oneNumber (.inr rfl) (by omega)
  | bool b _ ih =>
    rw [writeBool, length_put] at hlength
    refine canonical_put (ih (by omega)) ?_
    cases b <;> exact .oneSimple (by decide)
  | null _ ih =>
    rw [writeNull, length_put] at hlength
    exact canonical_put (ih (by omega)) (.oneSimple (by decide))
  | bytes b _ ih =>
    rw [writeBytes, length_put, List.length_append] at hlength
    exact canonical_put (ih (by omega)) (.oneString (.inl rfl) (by omega))
  | string str _ ih =>
    rw [writeString, length_put, List.length_append] at hlength
    exact canonical_put (ih (by omega)) (.oneString (.inr rfl) (by omega))
  | cid _ ht ih =>
    obtain ⟨bytes, hbytes, rfl⟩ := writeCid_eq ht
    rw [length_put] at hlength
    exact canonical_put (ih (by omega)) (canonical_cid hbytes)
  | @stream s other _ _ ih₁ ih₂ =>
    rw [writeStream, List.length_append] at hlength
    have hother := length_data_ge other
    exact (ih₁ (by omega)).append (canonical_data (ih₂ (by omega)) (by omega))
  | @self s _ hlist ih =>
    have hdata : s.writeSelf.data_ = s.data_ ++ s.data_ := by simp [writeSelf, data, hlist]
    have hcount : s.writeSelf.count = s.count + s.count := by simp [writeSelf, hlist]
    rw [hdata, List.length_append] at hlength
    have hs := ih (by omega)
    rw [hdata, hcount]
    exact hs.append hs
  | @map s t m _ _ ht ih₁ ih₂ =>
    obtain ⟨hcount, rfl⟩ := writeMap_eq ht
    obtain ⟨es, hperm, hes⟩ := sortedEntries_eq m
    have hentries : (sortedEntries m).entries.length = m.entries.length := by
      rw [hes, List.length_map, hperm.length_eq]
    rw [length_put, List.length_append] at hlength
    refine canonical_put (ih₁ (by omega)) ?_
    -- every entry is a string and the one item of its value
    have hentry : ∀ e ∈ (sortedEntries m).entries, Canonical 1 e.1.bytes ∧ Canonical 1 e.2 := by
      intro e he
      rw [hes] at he hlength
      obtain ⟨d, hd, rfl⟩ := List.mem_map.mp he
      have hmem := hperm.mem_iff.mp hd
      obtain ⟨hkeyLength, hvalueLength⟩ := length_entry_le hd
      have hvalue := canonical_data (ih₂ d hmem (by omega)) (by omega)
      rw [hcount d hmem, ite_self] at hvalue
      exact ⟨.oneString (.inr rfl) (by omega), hvalue⟩
    have hsize : 2 * (sortedEntries m).entries.length < 2 ^ 64 := by
      obtain ⟨p, hp⟩ := Items.exists_flatMap fun e he => by
        obtain ⟨p₁, h₁⟩ := (hentry e he).1.items
        obtain ⟨p₂, h₂⟩ := (hentry e he).2.items
        exact ⟨_, h₁.append h₂⟩
      exact Nat.lt_of_le_of_lt hp.le_length (by omega)
    have hmap := Canonical.map hsize (fun e he => (hentry e he).1) (fun e he => (hentry e he).2)
      (sortedEntries m).sorted .nil
    rw [List.append_nil, mapItem, hentries] at hmap
    exact hmap

/-- **Canonical output.** The data of a stream are one canonical, so well-formed, item for a list, else as
many as were counted; and the entries of a map can be arranged in one way only. -/
theorem data_canonical {s : CborEncodeStream} (h : Composed s) (hlength : s.data.length < 2 ^ 64) :
    Canonical (if s.isList then 1 else s.count) s.data ∧
    (∃ p, Items (2 ^ 64) p (if s.isList then 1 else s.count) s.data) ∧
    ∀ es es' : List (CborKey × Bytes), es.Perm es' → es.Pairwise (fun a b => a.1 < b.1) →
      es'.Pairwise (fun a b => a.1 < b.1) → mapItem es = mapItem es' := by
  have hdata : s.data_.length < 2 ^ 64 := Nat.lt_of_le_of_lt (length_data_ge s) hlength
  have hcanonical := canonical_data (h.canonical hdata) hdata
  refine ⟨hcanonical, hcanonical.items, fun es es' hperm hordered hordered' => ?_⟩
  rw [Canonical.arrangement_unique hperm hordered hordered']

/-- The list of the number 1 and a map of one entry. -/
theorem number_and_map_canonical :
    ∃ s t, (init.writeMap ((OrdMap.empty (κ := StringKey)).insert ⟨[0x61]⟩ (init.writeUnsigned 2))) = .ok s ∧
      t = (list.writeUnsigned 1).writeStream s ∧ Canonical 1 t.data := by
  obtain ⟨s, hs⟩ : ∃ s, (init.writeMap ((OrdMap.empty (κ := StringKey)).insert ⟨[0x61]⟩
      (init.writeUnsigned 2))) = .ok s := ⟨_, rfl⟩
  have hmap : Composed s := by
    refine .map .init (fun e he => ?_) hs
    obtain rfl : e = (⟨[0x61]⟩, init.writeUnsigned 2) := List.mem_singleton.mp he
    exact .unsigned (by decide) .init
  cases hs
  exact ⟨_, _, rfl, rfl, (data_canonical (.stream (.unsigned (by decide) .list) hmap) (by decide)).1⟩

/-- Items that start alike are alike. -/
theorem canonical_prefix {b c b' c' : Bytes} {k : ℕ} (h : Canonical k b) (h' : Canonical k b')
    (heq : b ++ c = b' ++ c') : b = b' ∧ c = c' := by
  obtain ⟨p, hp⟩ := h.items
  obtain ⟨q, hq⟩ := h'.items
  exact hp.prefix_unique hq heq

/-- The entries of a canonical map. -/
theorem canonical_map_entries {n : ℕ} (hn : n < 2 ^ 64) {inner : Bytes}
    (h : Canonical 1 (encodeNumber .map n ++ inner)) :
    ∃ es : List (CborKey × Bytes), es.length = n ∧ (es.flatMap fun e => e.1.bytes ++ e.2) = inner ∧
      (∀ e ∈ es, Canonical 1 e.1.bytes ∧ Canonical 1 e.2) ∧ es.Pairwise fun a b => a.1 < b.1 := by
  rw [encodeNumber_eq .map hn] at h
  have hvalue := Argument.value_shortest n hn
  generalize hbytes : Cbor.head .map (.shortest n hn) ++ inner = bytes at h
  cases h with
  | number hm hn' =>
    rw [encodeNumber_eq _ hn'] at hbytes
    obtain ⟨rfl, -⟩ := Cbor.head_append_inj hbytes
    simp at hm
  | string hm hdata =>
    rw [encodeNumber_eq _ hdata] at hbytes
    obtain ⟨rfl, -⟩ := Cbor.head_append_inj hbytes
    simp at hm
  | array hn' | tag hn' =>
    rw [encodeNumber_eq _ hn'] at hbytes
    exact absurd (Cbor.head_append_inj hbytes).1 (by decide)
  | simple => exact absurd (Cbor.head_append_inj hbytes).1 (by decide)
  | @map es k rest hsize hkey hvalues hordered hrest =>
    have hsize' : es.length < 2 ^ 64 := by omega
    cases hrest
    rw [mapItem, List.append_nil, encodeNumber_eq _ hsize'] at hbytes
    obtain ⟨-, hlength, hinner⟩ := Cbor.head_append_inj hbytes
    rw [hvalue, Argument.value_shortest] at hlength
    exact ⟨es, hlength.symm, hinner.symm, fun e he => ⟨hkey e he, hvalues e he⟩, hordered⟩

/-- Wrapped bytes are passed on with the keys in any order; a list put into itself counts an element that
its copy does not have. -/
theorem wrapped_keys_and_self_insertion :
    (∃ p, Items (2 ^ 64) p 1 (wrap [0xa2, 0x61, 0x62, 0x01, 0x61, 0x61, 0x01] 1).data) ∧
    ¬ Canonical 1 (wrap [0xa2, 0x61, 0x62, 0x01, 0x61, 0x61, 0x01] 1).data ∧
    (list.writeUnsigned 1).writeSelf.data = [0x82, 0x01, 0x82, 0x01] ∧
    ¬ ∃ p, Items (2 ^ 64) p 1 (list.writeUnsigned 1).writeSelf.data := by
  have hone : Canonical 1 ([0x01] : Bytes) := .oneNumber (m := .unsigned) (n := 1) (.inl rfl) (by decide)
  have hkey : ∀ c : UInt8, Canonical 1 ([0x61, c] : Bytes) := fun c =>
    @Canonical.oneString .text (.inr rfl) [c] (show 1 < 2 ^ 64 by decide)
  have hself : (list.writeUnsigned 1).writeSelf.data = [0x82, 0x01, 0x82, 0x01] := by decide +kernel
  refine ⟨?_, ?_, hself, ?_⟩
  · obtain ⟨p, hp⟩ := (((hkey 0x62).append hone).append ((hkey 0x61).append hone)).items
    exact ⟨p, .oneMap (a := ⟨.inline, 2, by decide⟩) (by decide) hp⟩
  · intro h
    have hmap : Canonical 1 (0xa2 :: [0x61, 0x62, 0x01, 0x61, 0x61, 0x01]) := h
    obtain ⟨es, hlength, hbytes, hitems, hordered⟩ := canonical_map_entries (n := 2) (by decide) hmap
    match es, hlength with
    | [⟨⟨k₁⟩, v₁⟩, ⟨⟨k₂⟩, v₂⟩], _ =>
      have hk₁ : Canonical 1 k₁ := (hitems _ List.mem_cons_self).1
      have hv₁ : Canonical 1 v₁ := (hitems _ List.mem_cons_self).2
      have hk₂ : Canonical 1 k₂ := (hitems _ (List.mem_cons_of_mem _ List.mem_cons_self)).1
      simp only [List.flatMap_cons, List.flatMap_nil, List.append_assoc] at hbytes
      have hfirst : k₁ ++ (v₁ ++ (k₂ ++ (v₂ ++ []))) = [0x61, 0x62] ++ [0x01, 0x61, 0x61, 0x01] :=
        hbytes
      obtain ⟨rfl, hrest⟩ := canonical_prefix hk₁ (hkey 0x62) hfirst
      have hvalue : v₁ ++ (k₂ ++ (v₂ ++ [])) = [0x01] ++ [0x61, 0x61, 0x01] := hrest
      obtain ⟨-, htail⟩ := canonical_prefix hv₁ hone hvalue
      have hsecond : k₂ ++ (v₂ ++ []) = [0x61, 0x61] ++ [0x01] := htail
      obtain ⟨rfl, -⟩ := canonical_prefix hk₂ (hkey 0x61) hsecond
      have hless : (⟨[0x61, 0x62]⟩ : CborKey) < ⟨[0x61, 0x61]⟩ :=
        List.rel_of_pairwise_cons hordered List.mem_cons_self
      exact absurd hless (by decide +kernel)
  · rintro ⟨p, hp⟩
    rw [hself] at hp
    obtain ⟨steps, hle, hskip⟩ := hp.skip
    have hread := hskip (10 - steps) 0 []
    have hfuel : steps + (10 - steps) = 10 := Nat.add_sub_cancel' (Nat.le_trans hle (by decide))
    rw [hfuel, Cbor.skipItems_zero] at hread
    exact absurd hread (by decide +kernel)

end CborEncodeStream
end IpfsLite.Codec
