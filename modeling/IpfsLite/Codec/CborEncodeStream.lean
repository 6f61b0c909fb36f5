import IpfsLite.Foundations.Cbor
import IpfsLite.Foundations.OrdMap
import IpfsLite.Primitives.Cid

/-! # `CborEncodeStream`

The stream that encodes values one after the other, or as the elements of a list
(`codec/cbor/cbor_encode_stream.cpp`). tinycbor's encoders write the shortest RFC 7049 head. -/
namespace IpfsLite.Codec
set_option autoImplicit false

open Cbor (Major Argument Items)

/-- tinycbor's `encode_number`, on a 64-bit number. -/
def encodeNumber (m : Major) (n : ℕ) : Bytes :=
  Cbor.head m (.shortest (n % 2 ^ 64) (Nat.mod_lt n (by decide)))

def kCidTag : ℕ := 42

inductive CborEncodeError where
  | invalidCid
  | expectedMapValueSingle
  deriving DecidableEq, Repr

/-! ## Keys -/

def octets (bytes : Bytes) : List ℕ := bytes.map UInt8.toNat

theorem octets_inj : Function.Injective octets :=
  List.map_injective_iff.mpr fun _ _ h => UInt8.toNat_inj.mp h

/-- A `std::string` as the key of a map: compared byte by byte. -/
@[ext]
structure StringKey where
  str : Bytes
  deriving DecidableEq

instance : LinearOrder StringKey :=
  LinearOrder.lift' (fun k : StringKey => octets k.str) fun _ _ h => StringKey.ext (octets_inj h)

/-- The order of `LessCborKey`: shorter keys first, keys of one length by `memcmp`. -/
@[ext]
structure CborKey where
  bytes : Bytes
  deriving DecidableEq

def CborKey.rank (k : CborKey) : ℕ ×ₗ List ℕ := toLex (k.bytes.length, octets k.bytes)

theorem CborKey.rank_inj : Function.Injective rank := by
  intro a b h
  exact CborKey.ext (octets_inj (congrArg (fun r => (ofLex r).2) h))

instance : LinearOrder CborKey := LinearOrder.lift' CborKey.rank CborKey.rank_inj

/-! ## The stream -/

structure CborEncodeStream where
  isList : Bool
  data_ : Bytes
  count : ℕ

namespace CborEncodeStream

def init : CborEncodeStream := ⟨false, [], 0⟩

def list : CborEncodeStream := ⟨true, [], 0⟩

/-- The bytes of the encoded elements; a list has a head in front of them. -/
def data (s : CborEncodeStream) : Bytes :=
  if s.isList then encodeNumber .array s.count ++ s.data_ else s.data_

/-- One element more. -/
def put (s : CborEncodeStream) (bytes : Bytes) : CborEncodeStream :=
  { s with data_ := s.data_ ++ bytes, count := s.count + 1 }

def writeUnsigned (s : CborEncodeStream) (n : ℕ) : CborEncodeStream := s.put (encodeNumber .unsigned n)

def writeSigned (s : CborEncodeStream) (n : ℤ) : CborEncodeStream :=
  s.put (if 0 ≤ n then encodeNumber .unsigned n.toNat else encodeNumber .negative (-1 - n).toNat)

def writeBool (s : CborEncodeStream) (b : Bool) : CborEncodeStream :=
  s.put (encodeNumber .simple (if b then 21 else 20))

def writeNull (s : CborEncodeStream) : CborEncodeStream := s.put (encodeNumber .simple 22)

def writeBytes (s : CborEncodeStream) (bytes : Bytes) : CborEncodeStream :=
  s.put (encodeNumber .bytes bytes.length ++ bytes)

def writeString (s : CborEncodeStream) (str : Bytes) : CborEncodeStream :=
  s.put (encodeNumber .text str.length ++ str)

/-- A tag, which does not count, and a byte string with the multibase prefix 0. -/
def writeCid (s : CborEncodeStream) (cid : CID) : Except CborEncodeError CborEncodeStream :=
  match cid.toBytes with
  | none => .error .invalidCid
  | some bytes =>
    .ok ({ s with data_ := s.data_ ++ encodeNumber .tag kCidTag }.writeBytes (0 :: bytes))

/-- A list is one element, the elements of another stream are put in line. -/
def writeStream (s other : CborEncodeStream) : CborEncodeStream :=
  { s with data_ := s.data_ ++ other.data, count := s.count + if other.isList then 1 else other.count }

/-- `s << s`: the count is raised before the other stream, which is the same, is asked for its data. -/
def writeSelf (s : CborEncodeStream) : CborEncodeStream :=
  let counted := { s with count := s.count + if s.isList then 1 else s.count }
  { counted with data_ := counted.data_ ++ counted.data }

/-- Bytes that are so many elements already. -/
def wrap (data : Bytes) (count : ℕ) : CborEncodeStream := ⟨false, data, count⟩

/-- The entries under their encoded keys. -/
def sortedEntries (map : OrdMap StringKey CborEncodeStream) : OrdMap CborKey Bytes :=
  map.entries.foldl (fun sorted e => sorted.emplace ⟨(init.writeString e.1.str).data⟩ e.2.data) .empty

def writeMap (s : CborEncodeStream) (map : OrdMap StringKey CborEncodeStream) :
    Except CborEncodeError CborEncodeStream :=
  if ∃ e ∈ map.entries, e.2.count ≠ 1 then .error .expectedMapValueSingle
  else
    .ok (s.put (encodeNumber .map map.entries.length ++
      (sortedEntries map).entries.flatMap fun e => e.1.bytes ++ e.2))

/-! ## Maps are written in the order of their encoded keys -/

/-- An entry of a map as it is sorted. -/
def encodedEntry (e : StringKey × CborEncodeStream) : CborKey × Bytes :=
  (⟨(init.writeString e.1.str).data⟩, e.2.data)

theorem data_writeString (str : Bytes) :
    (init.writeString str).data = encodeNumber .text str.length ++ str := rfl

theorem encodedEntry_key_inj {a b : StringKey × CborEncodeStream}
    (h : (encodedEntry a).1 = (encodedEntry b).1) : a.1 = b.1 := by
  have hbytes : encodeNumber .text a.1.str.length ++ a.1.str =
      encodeNumber .text b.1.str.length ++ b.1.str := congrArg CborKey.bytes h
  exact StringKey.ext (Cbor.head_append_inj hbytes).2.2

/-- Encoding keeps the keys apart, so every entry is written. -/
theorem sortedEntries_eq (m : OrdMap StringKey CborEncodeStream) :
    ∃ es : List (StringKey × CborEncodeStream), es.Perm m.entries ∧ (sortedEntries m).entries = es.map encodedEntry := by
  have hfold : sortedEntries m =
      (m.entries.map encodedEntry).foldl (fun sorted e => sorted.emplace e.1 e.2) .empty := by
    rw [List.foldl_map]
    rfl
  have hnodup : ((m.entries.map encodedEntry).map Prod.fst).Nodup := by
    rw [List.map_map]
    refine List.Nodup.map_on ?_ m.nodup_entries
    intro a ha b hb hab
    have hkey := encodedEntry_key_inj hab
    exact OrdMap.entry_ext ha hb hkey
  have hperm := OrdMap.foldl_emplace_perm .empty hnodup fun _ _ => rfl
  rw [← hfold, show (OrdMap.empty : OrdMap CborKey Bytes).entries = [] from rfl, List.append_nil] at hperm
  have hcomp := congrFun (congrFun (List.eq_map_comp_perm encodedEntry) (sortedEntries m).entries) m.entries
  obtain ⟨es, hes, hp⟩ := (iff_of_eq hcomp).mpr hperm
  exact ⟨es, hp, hes⟩

/-! ## What can be encoded -/

/-- The streams that are built by writing integers, booleans, null, byte strings, strings, CIDs, other
streams and maps of them. The flag says whether a boolean or null was written, at any depth. -/
inductive Built : Bool → CborEncodeStream → Prop where
  | init : Built false init
  | list : Built false list
  | unsigned {p : Bool} {s : CborEncodeStream} (n : ℕ) (hs : Built p s) : Built p (s.writeUnsigned n)
  | signed {p : Bool} {s : CborEncodeStream} (n : ℤ) (hs : Built p s) : Built p (s.writeSigned n)
  | bool {p : Bool} {s : CborEncodeStream} (b : Bool) (hs : Built p s) : Built true (s.writeBool b)
  | null {p : Bool} {s : CborEncodeStream} (hs : Built p s) : Built true s.writeNull
  | bytes {p : Bool} {s : CborEncodeStream} (b : Bytes) (hs : Built p s) : Built p (s.writeBytes b)
  | string {p : Bool} {s : CborEncodeStream} (str : Bytes) (hs : Built p s) : Built p (s.writeString str)
  | cid {p : Bool} {s t : CborEncodeStream} {c : CID} (hs : Built p s) (ht : s.writeCid c = .ok t) :
      Built p t
  | stream {p q : Bool} {s other : CborEncodeStream} (hs : Built p s) (hother : Built q other) :
      Built (p || q) (s.writeStream other)
  | map {p : Bool} {s t : CborEncodeStream} {m : OrdMap StringKey CborEncodeStream}
      {q : StringKey × CborEncodeStream → Bool} (hs : Built p s) (hm : ∀ e ∈ m.entries, Built (q e) e.2)
      (ht : s.writeMap m = .ok t) : Built (p || m.entries.any q) t

/-! ## Every stream is so many data items -/

theorem encodeNumber_eq (m : Major) {n : ℕ} (h : n < 2 ^ 64) :
    encodeNumber m n = Cbor.head m (.shortest n h) := by
  simp only [encodeNumber, Nat.mod_eq_of_lt h]

theorem items_number {limit : ℕ} {m : Major} (hm : m = .unsigned ∨ m = .negative) (n : ℕ) :
    Items limit false 1 (encodeNumber m n) := .oneInteger _ hm

theorem items_sized {limit : ℕ} {m : Major} (hm : m = .bytes ∨ m = .text) {data : Bytes} (h : data.length < 2 ^ 64) :
    Items limit false 1 (encodeNumber m data.length ++ data) := by
  rw [encodeNumber_eq m h]
  exact .oneString hm (Argument.value_shortest _ h).symm

theorem items_put {limit : ℕ} {p q : Bool} {s : CborEncodeStream} {bytes : Bytes} (hs : Items limit p s.count s.data_)
    (h : Items limit q 1 bytes) : Items limit (p || q) (s.put bytes).count (s.put bytes).data_ := hs.append h

theorem items_put_plain {limit : ℕ} {p : Bool} {s : CborEncodeStream} {bytes : Bytes} (hs : Items limit p s.count s.data_)
    (h : Items limit false 1 bytes) : Items limit p (s.put bytes).count (s.put bytes).data_ := by
  simpa using items_put hs h

theorem items_simple {limit : ℕ} {n : ℕ} (hn : n < 24) :
    Items limit true 1 (encodeNumber .simple n) := by
  have hwidth : (Argument.shortest n (by omega)).width = .inline := by rw [Argument.shortest, dif_pos hn]
  rw [encodeNumber_eq .simple (by omega)]
  exact .oneSimple fun hone => absurd (hwidth.symm.trans hone) (by decide)

theorem items_put_simple {limit : ℕ} {p : Bool} {s : CborEncodeStream} {n : ℕ}
    (hs : Items limit p s.count s.data_) (hn : n < 24) :
    Items limit true (s.put (encodeNumber .simple n)).count (s.put (encodeNumber .simple n)).data_ := by
  simpa using items_put hs (items_simple hn)

theorem length_put (s : CborEncodeStream) (bytes : Bytes) :
    (s.put bytes).data_.length = s.data_.length + bytes.length := List.length_append

theorem items_array {limit : ℕ} (hlimit : limit ≤ 2 ^ 64) {p : Bool} {n : ℕ} {inner : Bytes}
    (hn : n < limit) (h : Items limit p n inner) : Items limit p 1 (encodeNumber .array n ++ inner) := by
  have hvalue := Argument.value_shortest n (by omega)
  rw [encodeNumber_eq .array (by omega)]
  exact .oneArray (hvalue.symm ▸ hn) (hvalue.symm ▸ h)

theorem items_map {limit : ℕ} (hlimit : limit ≤ 2 ^ 64) {p : Bool} {n : ℕ} {inner : Bytes}
    (hn : 2 * n < limit) (h : Items limit p (2 * n) inner) :
    Items limit p 1 (encodeNumber .map n ++ inner) := by
  have hvalue := Argument.value_shortest n (by omega)
  rw [encodeNumber_eq .map (by omega)]
  exact .oneMap (hvalue.symm ▸ hn) (hvalue.symm ▸ h)

/-- The elements, as a list or one by one. -/
theorem items_data {p : Bool} {s : CborEncodeStream} (h : Items (2 ^ 64) p s.count s.data_)
    (hlength : s.data_.length < 2 ^ 64) :
    Items (2 ^ 64) p (if s.isList then 1 else s.count) s.data := by
  unfold CborEncodeStream.data
  cases s.isList with
  | false => exact h
  | true =>
    have hcount : s.count < 2 ^ 64 := Nat.lt_of_le_of_lt h.le_length hlength
    exact items_array le_rfl hcount h

theorem length_data_ge (s : CborEncodeStream) : s.data_.length ≤ s.data.length := by
  unfold data
  split_ifs <;> simp

/-- What a CID adds. -/
def cidItem (bytes : Bytes) : Bytes :=
  encodeNumber .tag kCidTag ++ (encodeNumber .bytes (0 :: bytes).length ++ 0 :: bytes)

theorem writeCid_eq {s t : CborEncodeStream} {c : CID} (h : s.writeCid c = .ok t) :
    ∃ bytes, c.toBytes = some bytes ∧ t = s.put (cidItem bytes) := by
  unfold writeCid at h
  cases hc : c.toBytes with
  | none => simp [hc] at h
  | some bytes =>
    rw [hc, Except.ok.injEq] at h
    refine ⟨bytes, rfl, ?_⟩
    rw [← h, writeBytes, put, put, cidItem, List.append_assoc]

theorem items_cid {limit : ℕ} {c : CID} {bytes : Bytes} (h : c.toBytes = some bytes) :
    Items limit false 1 (cidItem bytes) := by
  have hlength := CID.toBytes_length_le h
  refine .oneTag (items_sized (.inl rfl) ?_)
  rw [List.length_cons]
  omega

theorem writeMap_eq {s t : CborEncodeStream} {m : OrdMap StringKey CborEncodeStream}
    (h : s.writeMap m = .ok t) : (∀ e ∈ m.entries, e.2.count = 1) ∧
      t = s.put (encodeNumber .map m.entries.length ++
        (sortedEntries m).entries.flatMap fun e => e.1.bytes ++ e.2) := by
  unfold writeMap at h
  split_ifs at h with hcount
  exact ⟨fun e he => by_contra fun hne => hcount ⟨e, he, hne⟩, (Except.ok.inj h).symm⟩

/-- A key and a value are no longer than the map. -/
theorem length_entry_le {es : List (StringKey × CborEncodeStream)} {e : StringKey × CborEncodeStream}
    (he : e ∈ es) :
    e.1.str.length ≤ ((es.map encodedEntry).flatMap fun e => e.1.bytes ++ e.2).length ∧
      e.2.data_.length ≤ ((es.map encodedEntry).flatMap fun e => e.1.bytes ++ e.2).length := by
  have hpart : ((encodedEntry e).1.bytes ++ (encodedEntry e).2).length ≤
      ((es.map encodedEntry).flatMap fun e => e.1.bytes ++ e.2).length := by
    refine (List.sublist_flatten_of_mem ?_).length_le
    exact List.mem_map_of_mem (f := fun e : CborKey × Bytes => e.1.bytes ++ e.2) (List.mem_map_of_mem he)
  have hvalue := length_data_ge e.2
  have hkey : e.1.str.length ≤ (encodedEntry e).1.bytes.length := by
    rw [encodedEntry, data_writeString, List.length_append]
    exact Nat.le_add_left _ _
  rw [List.length_append] at hpart
  have hdata : (encodedEntry e).2 = e.2.data := rfl
  rw [hdata] at hpart
  omega

/-- **Data items.** What is built is as many data items as the stream has counted. -/
theorem Built.items {p : Bool} {s : CborEncodeStream} (h : Built p s) (hlength : s.data_.length < 2 ^ 64) :
    Items (2 ^ 64) p s.count s.data_ := by
  induction h with
  | init | list => exact .nil
  | unsigned n _ ih =>
    rw [writeUnsigned, length_put] at hlength
    exact items_put_plain (ih (by omega)) (items_number (.inl rfl) n)
  | signed n _ ih =>
    rw [writeSigned, length_put] at hlength
    refine items_put_plain (ih (by omega)) ?_
    split_ifs
    · exact items_number (.inl rfl) _
    · exact items_number (.inr rfl) _
  | bool b _ ih =>
    rw [writeBool, length_put] at hlength
    refine items_put_simple (ih (by omega)) ?_
    cases b <;> decide
  | null _ ih =>
    rw [writeNull, length_put] at hlength
    exact items_put_simple (ih (by omega)) (by decide)
  | bytes b _ ih =>
    rw [writeBytes, length_put, List.length_append] at hlength
    exact items_put_plain (ih (by omega)) (items_sized (.inl rfl) (by omega))
  | string str _ ih =>
    rw [writeString, length_put, List.length_append] at hlength
    exact items_put_plain (ih (by omega)) (items_sized (.inr rfl) (by omega))
  | cid _ ht ih =>
    obtain ⟨bytes, hbytes, rfl⟩ := writeCid_eq ht
    rw [length_put] at hlength
    exact items_put_plain (ih (by omega)) (items_cid hbytes)
  | @stream p q s other _ _ ih₁ ih₂ =>
    rw [writeStream, List.length_append] at hlength
    have hother := length_data_ge other
    exact (ih₁ (by omega)).append (items_data (ih₂ (by omega)) (by omega))
  | @map p s t m q _ _ ht ih₁ ih₂ =>
    obtain ⟨hcount, rfl⟩ := writeMap_eq ht
    obtain ⟨es, hperm, hes⟩ := sortedEntries_eq m
    rw [length_put, List.length_append, hes] at hlength
    -- every entry is a string and the one item of its value
    have hentry : ∀ e ∈ es, Items (2 ^ 64) (q e) 2 ((encodedEntry e).1.bytes ++ (encodedEntry e).2) := by
      intro e he
      have hmem := hperm.mem_iff.mp he
      obtain ⟨hkeyLength, hvalueLength⟩ := length_entry_le he
      have hitems := items_data (ih₂ e hmem (by omega)) (by omega)
      rw [hcount e hmem, ite_self] at hitems
      have hkey : Items (2 ^ 64) false 1 (encodeNumber .text e.1.str.length ++ e.1.str) :=
        items_sized (.inr rfl) (by omega)
      exact hkey.append hitems
    have hbody : Items (2 ^ 64) (es.any q) (2 * es.length)
        ((es.map encodedEntry).flatMap fun e => e.1.bytes ++ e.2) := by
      rw [List.flatMap_map]
      exact .flatMap hentry
    have hsize : 2 * es.length < 2 ^ 64 := Nat.lt_of_le_of_lt hbody.le_length (by omega)
    rw [← hperm.any_eq, ← hperm.length_eq, hes]
    exact items_put (ih₁ (by omega)) (items_map le_rfl hsize hbody)

end CborEncodeStream
end IpfsLite.Codec
