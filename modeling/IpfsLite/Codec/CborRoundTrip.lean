import IpfsLite.Codec.CborPosition
import IpfsLite.Codec.CborTypes

/-! # The round trip of typed values

What is written is one item for each value; what is read back from an item is the value, wherever the
item stands and whatever follows it. -/
namespace IpfsLite.Codec
set_option autoImplicit false

open Cbor (Major Argument Items)
open CborEncodeStream (cidItem sortedEntries)

namespace CborEncodeStream

/-! ## Maps of streams -/

/-- The items of a key and of its value. -/
def entryItem (e : StringKey × CborEncodeStream) : Bytes := (encodedEntry e).1.bytes ++ (encodedEntry e).2

/-- The item of a map, its entries in the order of their encoded keys. -/
def mapItem (m : OrdMap StringKey CborEncodeStream) : Bytes :=
  encodeNumber .map m.entries.length ++ (sortedEntries m).entries.flatMap fun e => e.1.bytes ++ e.2

/-- The entries of a map stand in some order. -/
theorem mapItem_eq (m : OrdMap StringKey CborEncodeStream) :
    ∃ es : List (StringKey × CborEncodeStream), es.Perm m.entries ∧
      mapItem m = encodeNumber .map es.length ++ es.flatMap entryItem := by
  obtain ⟨es, hperm, hes⟩ := sortedEntries_eq m
  refine ⟨es, hperm, ?_⟩
  rw [mapItem, hes, hperm.length_eq, List.flatMap_map]
  rfl

theorem writeMap_mapItem {m : OrdMap StringKey CborEncodeStream} (h : ∀ e ∈ m.entries, e.2.count = 1)
    (s : CborEncodeStream) : s.writeMap m = .ok (s.put (mapItem m)) := by
  rw [writeMap, if_neg (fun ⟨e, he, hne⟩ => hne (h e he))]
  rfl

end CborEncodeStream

namespace Ty

/-! ## The items -/

/-- The item of a value. -/
def item : (t : Ty) → t.Val → Bytes
  | .bool, b => encodeNumber .simple (if b then 21 else 20)
  | .unsigned _, n => encodeNumber .unsigned n.toNat
  | .signed _, n =>
    if 0 ≤ n.toInt then encodeNumber .unsigned n.toInt.toNat
    else encodeNumber .negative (-1 - n.toInt).toNat
  | .string, str => encodeNumber .text str.length ++ str
  | .bytes, b => encodeNumber .bytes b.length ++ b
  | .cid, c => cidItem (c.toBytes.getD [])
  | .blob _, b => encodeNumber .bytes b.length ++ b
  | .bigInt, n => encodeNumber .bytes (bigIntBytes n).length ++ bigIntBytes n
  | .optional _, none => encodeNumber .simple 22
  | .optional t, some v => t.item v
  | .vector t, vs => encodeNumber .array vs.length ++ vs.flatMap t.item
  | .map t, m =>
    encodeNumber .map m.entries.length ++
      (sortedEntries (m.mapValues fun _ v => CborEncodeStream.init.put (t.item v))).entries.flatMap
        fun e => e.1.bytes ++ e.2

section
-- the equations of `item` are made here, once for all the proofs below
attribute [local simp] item
end

/-- The map of the values' streams. -/
theorem item_map (t : Ty) (m : OrdMap StringKey t.Val) : item (.map t) m =
    CborEncodeStream.mapItem (m.mapValues fun _ v => CborEncodeStream.init.put (t.item v)) := by
  have hlength : (m.mapValues fun _ v => CborEncodeStream.init.put (t.item v)).entries.length =
      m.entries.length := List.length_map ..
  rw [item, CborEncodeStream.mapItem, hlength]

/-! ## Writing -/

theorem foldlM_put {α : Type} {f : CborEncodeStream → α → Except CborEncodeError CborEncodeStream}
    {item : α → Bytes} {vs : List α} (h : ∀ v ∈ vs, ∀ s, f s v = .ok (s.put (item v))) (l : CborEncodeStream) :
    vs.foldlM f l = .ok { l with data_ := l.data_ ++ vs.flatMap item, count := l.count + vs.length } := by
  induction vs generalizing l with
  | nil => simp [pure, Except.pure]
  | cons v vs ih =>
    rw [List.foldlM_cons, h v List.mem_cons_self]
    simp only [bind, Except.bind]
    rw [ih (fun w hw => h w (List.mem_cons_of_mem v hw))]
    simp [CborEncodeStream.put, Nat.add_assoc, Nat.add_comm 1]

/-- A vector whose elements can be encoded, of any length. -/
theorem write_vector {t : Ty} {vs : List t.Val} (h : ∀ v ∈ vs, ∀ s, t.write v s = .ok (s.put (t.item v)))
    (s : CborEncodeStream) : (Ty.vector t).write vs s = .ok (s.put (item (.vector t) vs)) := by
  rw [write, foldlM_put h]
  simp [bind, Except.bind, CborEncodeStream.writeStream, CborEncodeStream.put, CborEncodeStream.data,
    CborEncodeStream.list, item]

theorem foldlM_write_map {t : Ty} {es : List (StringKey × t.Val)}
    (h : ∀ e ∈ es, ∀ s, t.write e.2 s = .ok (s.put (t.item e.2))) (hnodup : (es.map Prod.fst).Nodup)
    (m : OrdMap StringKey CborEncodeStream) (hnew : ∀ e ∈ es, m.find? e.1 = none) :
    es.foldlM (fun m e => do
      let stream ← t.write e.2 ((OrdMap.find? m e.1).getD .init)
      .ok (m.insert e.1 stream)) m =
      .ok (es.foldl (fun m e => m.insert e.1 (CborEncodeStream.init.put (t.item e.2))) m) := by
  induction es generalizing m with
  | nil => rfl
  | cons e es ih =>
    obtain ⟨he, hes⟩ := List.nodup_cons.mp hnodup
    have hnew' : ∀ d ∈ es, (m.insert e.1 (CborEncodeStream.init.put (t.item e.2))).find? d.1 = none := by
      intro d hd
      have hne : d.1 ≠ e.1 := fun heq => he (heq ▸ List.mem_map_of_mem hd)
      rw [OrdMap.find?_insert, if_neg hne]
      exact hnew d (List.mem_cons_of_mem e hd)
    rw [List.foldlM_cons, hnew e List.mem_cons_self, h e List.mem_cons_self]
    exact ih (fun d hd => h d (List.mem_cons_of_mem e hd)) hes _ hnew'

/-- What `operator<<` writes is the item, which counts once. -/
theorem write_eq {P : Platform} {t : Ty} {v : t.Val} (h : t.Fits P v) (s : CborEncodeStream) :
    t.write v s = .ok (s.put (t.item v)) := by
  induction t generalizing s with
  | bool | unsigned _ | signed _ | string | bytes | blob _ | bigInt => rfl
  | cid =>
    obtain ⟨d, hd⟩ := Option.isSome_iff_exists.mp h
    rw [write, item, CborEncodeStream.writeCid, hd]
    simp [cidItem, CborEncodeStream.writeBytes, CborEncodeStream.put]
  | optional t ih =>
    cases v with
    | none => rfl
    | some v => exact ih (h v rfl) s
  | vector t ih => exact write_vector (fun w hw s => ih (h.2 w hw) s) s
  | map t ih =>
    have hfold := foldlM_write_map (fun e he s => ih (h.2 e he).2 s) (OrdMap.nodup_keys v) .empty
      fun _ _ => rfl
    have hvalues := OrdMap.foldl_insert_eq (m := v)
      (fun _ w => CborEncodeStream.init.put (t.item w)) (.refl _)
    rw [hvalues] at hfold
    have hcount : ∀ e ∈ (OrdMap.mapValues v fun _ w => CborEncodeStream.init.put (t.item w)).entries,
        e.2.count = 1 := by
      intro e he
      obtain ⟨d, -, rfl⟩ := List.mem_map.mp he
      rfl
    rw [write, hfold, item_map]
    exact CborEncodeStream.writeMap_mapItem hcount s

/-! ## What the items look like -/

/-- One item, whose containers the parser can count. -/
def Encoded (b : Bytes) : Prop := ∃ p, Items kUnknownCount p 1 b

theorem limit_le : kUnknownCount ≤ 2 ^ 64 := by decide

theorem Encoded.starts {b : Bytes} (h : Encoded b) : Starts b := by
  obtain ⟨p, hp⟩ := h
  exact starts_items hp

theorem Encoded.untagged {m : Major} {n : ℕ} {b : Bytes} (h : Encoded (encodeNumber m n ++ b)) (hm : m ≠ .tag)
    (hn : n < 2 ^ 64) : Untagged (encodeNumber m n ++ b) :=
  ⟨h, m, .shortest n hn, b, by rw [CborEncodeStream.encodeNumber_eq m hn], hm⟩

theorem untagged_number {m : Major} (hm : m = .unsigned ∨ m = .negative) {n : ℕ} (hn : n < 2 ^ 64) :
    Untagged (encodeNumber m n) := by
  have h : Encoded (encodeNumber m n) := ⟨_, CborEncodeStream.items_number hm n⟩
  rw [← List.append_nil (encodeNumber m n)] at h ⊢
  refine h.untagged ?_ hn
  obtain rfl | rfl := hm <;> decide

theorem untagged_simple {n : ℕ} (hn : n < 24) : Untagged (encodeNumber .simple n) := by
  have h : Encoded (encodeNumber .simple n) := ⟨_, CborEncodeStream.items_simple hn⟩
  rw [← List.append_nil (encodeNumber .simple n)] at h ⊢
  exact h.untagged (by decide) (by omega)

theorem untagged_sized {m : Major} (hm : m = .bytes ∨ m = .text) {data : Bytes} (h : data.length < 2 ^ 64) :
    Untagged (encodeNumber m data.length ++ data) := by
  refine Encoded.untagged ⟨_, CborEncodeStream.items_sized hm h⟩ ?_ h
  obtain rfl | rfl := hm <;> decide

theorem cidItem_eq (d : Bytes) : cidItem d =
    Cbor.head .tag (.shortest kCidTag (by decide)) ++ (encodeNumber .bytes (0 :: d).length ++ 0 :: d) := by
  rw [cidItem, CborEncodeStream.encodeNumber_eq .tag (show kCidTag < 2 ^ 64 by decide)]

theorem cid_length {c : CID} {d : Bytes} (h : c.toBytes = some d) : (0 :: d).length ≤ kUnknownCount := by
  have hlength := CID.toBytes_length_le h
  rw [List.length_cons, kUnknownCount]
  omega

/-- A key and a value for each entry. -/
theorem items_entries {es : List (StringKey × CborEncodeStream)} (hkey : ∀ e ∈ es, e.1.str.length < 2 ^ 64)
    (hvalue : ∀ e ∈ es, Encoded e.2.data) :
    ∃ p, Items kUnknownCount p (2 * es.length) (es.flatMap CborEncodeStream.entryItem) := by
  refine Items.exists_flatMap fun e he => ?_
  obtain ⟨p, hp⟩ := hvalue e he
  exact ⟨_, (CborEncodeStream.items_sized (.inr rfl) (hkey e he)).append hp⟩

theorem encoded_mapItem {m : OrdMap StringKey CborEncodeStream} (hlength : 2 * m.entries.length < kUnknownCount)
    (hkey : ∀ e ∈ m.entries, e.1.str.length < 2 ^ 64) (hvalue : ∀ e ∈ m.entries, Encoded e.2.data) :
    Encoded (CborEncodeStream.mapItem m) := by
  obtain ⟨es, hperm, hitem⟩ := CborEncodeStream.mapItem_eq m
  obtain ⟨p, hentries⟩ := items_entries (fun e he => hkey e (hperm.mem_iff.mp he))
    fun e he => hvalue e (hperm.mem_iff.mp he)
  rw [← hperm.length_eq] at hlength
  rw [hitem]
  exact ⟨_, CborEncodeStream.items_map limit_le hlength hentries⟩

/-- Every item is well formed. -/
theorem encoded_item {P : Platform} {t : Ty} {v : t.Val} (hok : t.Ok) (h : t.Fits P v) :
    Encoded (t.item v) := by
  have hstring := P.stringMax_lt
  have hbytes := P.bytesMax_lt
  induction t with
  | bool =>
    rw [item]
    cases v <;> exact ⟨_, CborEncodeStream.items_simple (by decide)⟩
  | unsigned w => exact ⟨_, CborEncodeStream.items_number (.inl rfl) _⟩
  | signed w =>
    rw [item]
    split_ifs
    · exact ⟨_, CborEncodeStream.items_number (.inl rfl) _⟩
    · exact ⟨_, CborEncodeStream.items_number (.inr rfl) _⟩
  | string => exact ⟨_, CborEncodeStream.items_sized (.inr rfl) (Nat.lt_of_le_of_lt h hstring)⟩
  | bytes => exact ⟨_, CborEncodeStream.items_sized (.inl rfl) (Nat.lt_of_le_of_lt h hbytes)⟩
  | cid =>
    obtain ⟨d, hd⟩ := Option.isSome_iff_exists.mp h
    rw [item, hd]
    exact ⟨_, CborEncodeStream.items_cid hd⟩
  | blob _ | bigInt => exact hok.elim
  | optional t ih =>
    cases v with
    | none => exact ⟨_, CborEncodeStream.items_simple (by decide)⟩
    | some v => exact ih hok.2 (h v rfl)
  | vector t ih =>
    obtain ⟨hlength, hfits⟩ := h
    obtain ⟨p, hparts⟩ := Items.exists_flatMap fun w hw => ih hok.2.2 (hfits w hw)
    rw [Nat.one_mul] at hparts
    exact ⟨_, CborEncodeStream.items_array limit_le hlength hparts⟩
  | map t ih =>
    obtain ⟨hlength, hfits⟩ := h
    rw [item_map]
    refine encoded_mapItem ?_ ?_ ?_
    · exact (List.length_map ..).symm ▸ hlength
    · intro e he
      obtain ⟨d, hd, rfl⟩ := List.mem_map.mp he
      exact Nat.lt_of_le_of_lt (hfits d hd).1 hstring
    · intro e he
      obtain ⟨d, hd, rfl⟩ := List.mem_map.mp he
      exact ih hok (hfits d hd).2

/-! ## Reading -/

section
open CborDecodeStream
variable {P : Platform} {rest : Bytes}

theorem peek_number {m : Major} {n : ℕ} (hn : n < 2 ^ 64) (hm : m = .simple → n < 24) (rest : Bytes) :
    peek (encodeNumber m n ++ rest) = some (m, some n) := by
  rw [CborEncodeStream.encodeNumber_eq m hn, peek_head, Argument.value_shortest]
  intro hs
  rw [Argument.shortest, dif_pos (hm hs)]

theorem next_after {item : Bytes} (h : Untagged item) (hrest : Follows P rest) (r : ℕ) :
    (reading (item ++ rest) r).next P = .ok (after rest r) := by
  rw [next_untagged h, restart_ok hrest]

theorem readBool_item (b : Bool) (hrest : Follows P rest) (r : ℕ) :
    (reading (item .bool b ++ rest) r).readBool P = .ok (b, after rest r) := by
  have hn : (if b then 21 else 20) < 24 := by cases b <;> decide
  have htype := peek_number (m := .simple) (by omega) (fun _ => hn) rest
  have hnext := next_after (untagged_simple hn) hrest r
  rw [item]
  cases b <;>
  · simp only [readBool, reading, CborValue.type_reading] at htype hnext ⊢
    simp only [htype, hnext]
    rfl

theorem readUnsigned_item {max n : ℕ} (hn : n < 2 ^ 64) (hmax : n ≤ max) (hrest : Follows P rest) (r : ℕ) :
    (reading (encodeNumber .unsigned n ++ rest) r).readUnsigned P max = .ok (n, after rest r) := by
  have htype := peek_number (m := .unsigned) hn (by simp) rest
  have hnext := next_after (untagged_number (.inl rfl) hn) hrest r
  simp only [readUnsigned, reading, CborValue.type_reading, htype, if_neg (Nat.not_lt.mpr hmax)]
    at hnext ⊢
  rw [hnext]
  rfl

/-- A number of 64 bits is read as it was written. -/
theorem readSigned_item {min max : ℤ} {n : ℤ} (hmin : -2 ^ 63 ≤ n) (hmax : n < 2 ^ 63) (hle : min ≤ n)
    (hge : n ≤ max) (hrest : Follows P rest) (r : ℕ) :
    (reading ((if 0 ≤ n then encodeNumber .unsigned n.toNat else encodeNumber .negative (-1 - n).toNat) ++ rest)
      r).readSigned P min max = .ok (n, after rest r) := by
  have hbounds : ¬ (max < n ∨ n < min) := by omega
  split_ifs with hsign
  · have hsmall : n.toNat < 2 ^ 63 := by omega
    have htype := peek_number (m := .unsigned) (n := n.toNat) (by omega) (by simp) rest
    have hnext := next_after (untagged_number (.inl rfl) (n := n.toNat) (by omega)) hrest r
    have hvalue : getInt64 false n.toNat = n := by
      simp only [getInt64, if_pos hsmall]
      exact Int.toNat_of_nonneg hsign
    simp only [readSigned, reading, CborValue.type_reading, htype, hvalue, if_neg hbounds] at hnext ⊢
    rw [hnext]
    rfl
  · have hsmall : (-1 - n).toNat < 2 ^ 63 := by omega
    have htype := peek_number (m := .negative) (n := (-1 - n).toNat) (by omega) (by simp) rest
    have hnext := next_after (untagged_number (.inr rfl) (n := (-1 - n).toNat) (by omega)) hrest r
    have hvalue : getInt64 true (-1 - n).toNat = n := by
      simp only [getInt64, if_pos hsmall, if_true]
      omega
    simp only [readSigned, reading, CborValue.type_reading, htype, hvalue, if_neg hbounds] at hnext ⊢
    rw [hnext]
    rfl

theorem copyString_item {m : Major} (hm : m = .bytes ∨ m = .text) {data : Bytes} (h : data.length < 2 ^ 64)
    (rest : Bytes) :
    P.tinycbor.copyString (.reading (encodeNumber m data.length ++ data ++ rest) 1) = some data := by
  rw [CborEncodeStream.encodeNumber_eq m h, List.append_assoc]
  exact P.tinycbor.copyString_copy m _ data rest hm (Argument.value_shortest _ h).symm

theorem readString_item {str : Bytes} (h : str.length ≤ P.stringMax) (hrest : Follows P rest) (r : ℕ) :
    (reading (encodeNumber .text str.length ++ str ++ rest) r).readString P = .ok (str, after rest r) := by
  have hsize := Nat.lt_of_le_of_lt h P.stringMax_lt
  have htype := peek_number (m := .text) hsize (by simp) (str ++ rest)
  rw [← List.append_assoc] at htype
  rw [readString_of_type htype, if_neg (Nat.not_lt.mpr h), next_after (untagged_sized (.inr rfl) hsize) hrest,
    reading, with_remaining, copyString_item (.inr rfl) hsize]
  rfl

theorem readBytes_item {data : Bytes} (h : data.length ≤ P.bytesMax) (hrest : Follows P rest) (r : ℕ) :
    (reading (encodeNumber .bytes data.length ++ data ++ rest) r).readBytes P = .ok (data, after rest r) := by
  have hsize := Nat.lt_of_le_of_lt h P.bytesMax_lt
  have htype := peek_number (m := .bytes) hsize (by simp) (data ++ rest)
  rw [← List.append_assoc] at htype
  rw [readBytes_of_type htype, if_neg (Nat.not_lt.mpr h), next_after (untagged_sized (.inl rfl) hsize) hrest,
    reading, with_remaining, copyString_item (.inl rfl) hsize]
  rfl

theorem readCid_item {c : CID} {d : Bytes} (hd : c.toBytes = some d) (hrest : Follows P rest) {r : ℕ}
    (hr : r ≠ 0) : (reading (cidItem d ++ rest) r).readCid P = .ok (c, after rest r) := by
  have hlength := Nat.le_trans (cid_length hd) P.bytesMax_ge
  have hcontent := readBytes_item hlength hrest r
  have hsize := Nat.lt_of_le_of_lt hlength P.bytesMax_lt
  have hstarts := Encoded.starts (untagged_sized (m := .bytes) (.inl rfl) hsize).1 |>.append rest
  have htype := peek_number (m := .bytes) hsize (by simp) (0 :: d ++ rest)
  rw [← List.append_assoc] at htype
  rw [cidItem_eq, List.append_assoc, readCid, isCid_tag, Argument.value_shortest, decide_eq_true rfl, if_pos rfl,
    reading, P.tinycbor.advance_tag _ _ r hr hstarts]
  simp only [check, bind, Except.bind, readPayload, CborValue.type_reading, htype]
  rw [← reading, hcontent]
  simp only [ne_eq, not_true, if_false, CID.fromBytes_toBytes hd]

/-- Whether the value is a CID, which alone has a tag. -/
def IsCid : (t : Ty) → t.Val → Prop
  | .cid, _ => True
  | .optional t, some v => t.IsCid v
  | _, _ => False

/-- What is not optional is not read as null. -/
theorem isNull_item {t : Ty} {v : t.Val} (hok : t.Ok) (hne : ∀ u, t ≠ .optional u) (hfits : t.Fits P v)
    (rest : Bytes) (r : ℕ) : (reading (t.item v ++ rest) r).isNull = false := by
  have hmajor : ∀ {m : Major} {n : ℕ} {data : Bytes}, (m = .simple → n < 24 ∧ n ≠ 22) → n < 2 ^ 64 →
      (reading (encodeNumber m n ++ data ++ rest) r).isNull = false := by
    intro m n data hm hn
    have htype := peek_number hn (fun h => (hm h).1) (data ++ rest)
    rw [← List.append_assoc] at htype
    have hother : (reading (encodeNumber m n ++ data ++ rest) r).value.type ≠ some (.simple, some 22) := by
      rw [reading, CborValue.type_reading, htype]
      intro h
      obtain ⟨rfl, rfl⟩ : m = .simple ∧ n = 22 := by simpa using h
      exact (hm rfl).2 rfl
    exact decide_eq_false hother
  have hnumber : ∀ {m : Major} {n : ℕ}, (m = .simple → n < 24 ∧ n ≠ 22) → n < 2 ^ 64 →
      (reading (encodeNumber m n ++ rest) r).isNull = false := by
    intro m n hm hn
    have h := @hmajor m n [] hm hn
    rwa [List.append_nil] at h
  have hlimit := limit_le
  have hstring := P.stringMax_lt
  have hbytes := P.bytesMax_lt
  cases t with
  | bool =>
    rw [item]
    cases v <;> exact hnumber (fun _ => by decide) (by decide)
  | unsigned w =>
    refine hnumber (by simp) (Nat.lt_of_lt_of_le (BitVec.isLt v) (Nat.pow_le_pow_right (by decide) ?_))
    cases w <;> decide
  | signed w =>
    have hmin := BitVec.le_two_mul_toInt (x := v)
    have hmax := BitVec.two_mul_toInt_lt (x := v)
    have hpow : (2 : ℤ) ^ w.bits ≤ 2 ^ 64 := pow_le_pow_right₀ (by decide) (by cases w <;> decide)
    rw [item]
    split_ifs
    · exact hnumber (by simp) (by omega)
    · exact hnumber (by simp) (by omega)
  | string => exact hmajor (by simp) (Nat.lt_of_le_of_lt hfits hstring)
  | bytes => exact hmajor (by simp) (Nat.lt_of_le_of_lt hfits hbytes)
  | cid => exact hmajor (by simp) (by decide)
  | blob _ | bigInt => exact hok.elim
  | optional t => exact absurd rfl (hne t)
  | vector t => exact hmajor (by simp) (Nat.lt_of_lt_of_le hfits.1 hlimit)
  | map t =>
    have hsize := hfits.1
    exact hmajor (by simp) (by omega)

/-- Behind an element are the others, and one item less to count. -/
theorem behind_element {α : Type} {item : α → Bytes} {vs : List α} (hlength : vs.length + 1 < 2 ^ 32)
    (hitem : ∀ v ∈ vs, Encoded (item v)) (hrest : Follows P rest) :
    Follows P (vs.flatMap item ++ rest) ∧ (vs ≠ [] → after (vs.flatMap item ++ rest) (vs.length + 1) =
      reading (vs.flatMap item ++ rest) vs.length) := by
  obtain ⟨p, hp⟩ := Items.exists_flatMap fun w hw => hitem w hw
  refine ⟨follows_items hp hrest, fun hne => ?_⟩
  obtain ⟨w, ws, rfl⟩ := List.exists_cons_of_ne_nil hne
  have hstarts := (hitem w List.mem_cons_self).starts.append (ws.flatMap item ++ rest)
  refine after_succ ?_ (by omega)
  rw [List.flatMap_cons, List.append_assoc]
  exact hstarts.ne_nil

/-- The elements of a list, each counted off. -/
theorem readN_items {t : Ty} {vs : List t.Val} (hlength : vs.length < kUnknownCount)
    (hitem : ∀ v ∈ vs, Encoded (t.item v))
    (hread : ∀ v ∈ vs, ∀ rest r, Follows P rest → r ≠ 0 →
      t.read P (reading (t.item v ++ rest) r) = .ok (v, after rest r))
    (hrest : Follows P rest) {s : CborDecodeStream}
    (hs : vs ≠ [] → s = reading (vs.flatMap t.item ++ rest) vs.length) :
    ∃ s', readN (t.read P) vs.length s = .ok (vs, s') := by
  induction vs generalizing s with
  | nil => exact ⟨s, rfl⟩
  | cons v vs ih =>
    have hlater : ∀ w ∈ vs, Encoded (t.item w) := fun w hw => hitem w (List.mem_cons_of_mem v hw)
    rw [List.length_cons] at hlength
    obtain ⟨hbehind, hnext⟩ := behind_element (P := P) (by unfold kUnknownCount at hlength; omega) hlater hrest
    obtain ⟨s', hs'⟩ := ih (Nat.lt_of_succ_lt hlength) hlater
      (fun w hw => hread w (List.mem_cons_of_mem v hw)) hnext
    refine ⟨s', ?_⟩
    rw [hs (List.cons_ne_nil v vs), List.length_cons, readN, List.flatMap_cons, List.append_assoc,
      hread v List.mem_cons_self _ _ hbehind (Nat.succ_ne_zero _)]
    simp only [bind, Except.bind]
    rw [hs']

/-- The entries of a map, each in a parser of its own. -/
theorem entries_items {es : List (StringKey × CborEncodeStream)} (hlength : 2 * es.length < kUnknownCount)
    (hkey : ∀ e ∈ es, e.1.str.length ≤ P.stringMax) (hitem : ∀ e ∈ es, Encoded e.2.data)
    {fuel : ℕ} (hfuel : es.length ≤ fuel) (m : OrdMap StringKey CborDecodeStream) :
    entries P fuel (inside (2 * es.length) (es.flatMap CborEncodeStream.entryItem ++ rest)) m =
      .ok (es.foldl (fun m e => m.emplace e.1 (reading e.2.data 1)) m) := by
  induction es generalizing fuel m with
  | nil =>
    rw [List.length_nil, inside, if_pos rfl]
    cases fuel <;> rfl
  | cons e es ih =>
    obtain ⟨fuel, rfl⟩ := Nat.exists_eq_succ_of_ne_zero (Nat.ne_of_gt (Nat.lt_of_lt_of_le (Nat.succ_pos _) hfuel))
    have he := hitem e List.mem_cons_self
    have hlater : ∀ d ∈ es, Encoded d.2.data := fun d hd => hitem d (List.mem_cons_of_mem e hd)
    have hcount : 2 * (e :: es).length = 2 * es.length + 1 + 1 := by
      rw [List.length_cons]
      omega
    rw [hcount] at hlength ⊢
    let tail := es.flatMap CborEncodeStream.entryItem ++ rest
    -- the key, the value, what follows
    have hbytes : (e :: es).flatMap CborEncodeStream.entryItem ++ rest =
        encodeNumber .text e.1.str.length ++ e.1.str ++ (e.2.data ++ tail) := by
      simp only [List.flatMap_cons, CborEncodeStream.entryItem, CborEncodeStream.encodedEntry,
        CborEncodeStream.data_writeString, List.append_assoc, tail]
    have hvalue := he.starts.append tail
    have hread := readString_item (P := P) (hkey e List.mem_cons_self) (hvalue.follows P) (2 * es.length + 1 + 1)
    rw [after_succ hvalue.ne_nil (by unfold kUnknownCount at hlength; omega)] at hread
    have htail : 2 * es.length ≠ 0 → Starts tail := by
      intro hne
      cases es with
      | nil => exact absurd rfl hne
      | cons d es =>
        have hd := CborEncodeStream.encodeNumber_eq .text
          (Nat.lt_of_le_of_lt (hkey d (List.mem_cons_of_mem e List.mem_cons_self)) P.stringMax_lt)
        simp only [tail, List.flatMap_cons, CborEncodeStream.entryItem, CborEncodeStream.encodedEntry,
          CborEncodeStream.data_writeString, hd, List.append_assoc]
        exact starts_head _ _ (by decide)
    obtain ⟨p, hp⟩ := id he
    obtain ⟨value, hskip, hadvance⟩ := skip_and_advance (P := P) hp tail (r := 2 * es.length)
      (by omega) htail
    have hptr : (inside (2 * es.length) tail).value.ptr = tail := by
      unfold inside
      split_ifs <;> rfl
    have htake : (e.2.data ++ tail).take ((e.2.data ++ tail).length - tail.length) = e.2.data := by
      rw [List.length_append, Nat.add_sub_cancel, List.take_left]
    have hinit := P.tinycbor.parserInit_starts _ he.starts
    have hnot : (reading (encodeNumber .text e.1.str.length ++ e.1.str ++ (e.2.data ++ tail))
        (2 * es.length + 1 + 1)).atEnd = false := rfl
    have hstart : inside (2 * es.length + 1 + 1) ((e :: es).flatMap CborEncodeStream.entryItem ++ rest) =
        reading (encodeNumber .text e.1.str.length ++ e.1.str ++ (e.2.data ++ tail))
          (2 * es.length + 1 + 1) := by
      rw [inside, if_neg (Nat.succ_ne_zero _), hbytes]
    rw [hstart, entries, hnot, entry]
    simp only [Bool.false_eq_true, if_false, hread, bind, Except.bind]
    rw [reading, hskip]
    simp only [check, hadvance, CborValue.ptr_reading, hptr, htake, hinit]
    exact ih (by omega) (fun d hd => hkey d (List.mem_cons_of_mem e hd)) hlater (Nat.le_of_succ_le_succ hfuel) _

/-- A map of streams is read as the map of what they hold. -/
theorem map_item {m : OrdMap StringKey CborEncodeStream} (hlength : 2 * m.entries.length < kUnknownCount)
    (hkey : ∀ e ∈ m.entries, e.1.str.length ≤ P.stringMax) (hvalue : ∀ e ∈ m.entries, Encoded e.2.data)
    (hrest : Follows P rest) (r : ℕ) : (reading (CborEncodeStream.mapItem m ++ rest) r).map P =
      .ok (m.mapValues fun _ s => reading s.data 1, after rest r) := by
  have hlimit := limit_le
  obtain ⟨es, hperm, hitem⟩ := CborEncodeStream.mapItem_eq m
  rw [← hperm.length_eq] at hlength
  have hkeys : ∀ e ∈ es, e.1.str.length ≤ P.stringMax := fun e he => hkey e (hperm.mem_iff.mp he)
  have hvalues : ∀ e ∈ es, Encoded e.2.data := fun e he => hvalue e (hperm.mem_iff.mp he)
  obtain ⟨p, hitems⟩ := items_entries (fun e he => Nat.lt_of_le_of_lt (hkeys e he) P.stringMax_lt) hvalues
  have hsize : es.length < 2 ^ 64 := by omega
  have hcount := Argument.value_shortest es.length hsize
  have hmap := map_map (P := P) (a := .shortest es.length hsize) (hcount.symm ▸ hlength)
    (hcount.symm ▸ hitems) rest r
  rw [restart_ok hrest, hcount] at hmap
  have hfuel : es.length ≤ 2 * es.length := by omega
  have hentries : entries P (2 * es.length)
      (inside (2 * es.length) (es.flatMap CborEncodeStream.entryItem ++ rest)) .empty = _ :=
    entries_items hlength hkeys hvalues hfuel .empty
  rw [OrdMap.foldl_emplace_eq (fun _ (s : CborEncodeStream) => reading s.data 1) hperm] at hentries
  rw [hitem, CborEncodeStream.encodeNumber_eq .map hsize, List.append_assoc, hmap]
  simp only [Except.bind, hentries]

theorem readEntries_items {t : Ty} {es : List (StringKey × t.Val)}
    (hread : ∀ e ∈ es, ∃ s', t.read P (reading (t.item e.2) 1) = .ok (e.2, s')) (m : OrdMap StringKey t.Val) :
    readEntries (t.read P) (es.map fun e => (e.1, reading (t.item e.2) 1)) m =
      .ok (es.foldl (fun m e => m.insert e.1 e.2) m) := by
  induction es generalizing m with
  | nil => rfl
  | cons e es ih =>
    obtain ⟨s', hs'⟩ := hread e List.mem_cons_self
    rw [List.map_cons, readEntries, hs']
    exact ih (fun d hd => hread d (List.mem_cons_of_mem e hd)) _

/-- **One value.** What was written is read back, wherever it stands, except that a CID needs an item to
be left. -/
theorem read_item {t : Ty} {v : t.Val} (hok : t.Ok) (hfits : t.Fits P v) (hrest : Follows P rest) {r : ℕ}
    (hr : t.IsCid v → r ≠ 0) : t.read P (reading (t.item v ++ rest) r) = .ok (v, after rest r) := by
  have hlimit := limit_le
  induction t generalizing rest r with
  | bool => exact readBool_item v hrest r
  | unsigned w =>
    have hlt := BitVec.isLt v
    have hpow : 2 ^ w.bits ≤ 2 ^ 64 := Nat.pow_le_pow_right (by decide) (by cases w <;> decide)
    rw [read, item, readUnsigned_item (by omega) (by omega) hrest]
    simp [bind, Except.bind]
  | signed w =>
    have hmin := BitVec.le_two_mul_toInt (x := v)
    have hmax := BitVec.two_mul_toInt_lt (x := v)
    have hpow : (2 : ℤ) ^ w.bits = 2 * 2 ^ (w.bits - 1) := by cases w <;> decide
    have hle : (2 : ℤ) ^ (w.bits - 1) ≤ 2 ^ 63 := by cases w <;> decide
    rw [read, item, readSigned_item (by omega) (by omega) (by omega) (by omega) hrest]
    simp [bind, Except.bind]
  | string => exact readString_item hfits hrest r
  | bytes => exact readBytes_item hfits hrest r
  | cid =>
    obtain ⟨d, hd⟩ := Option.isSome_iff_exists.mp hfits
    rw [item, hd]
    exact readCid_item hd hrest (hr trivial)
  | blob _ | bigInt => exact hok.elim
  | optional t ih =>
    cases v with
    | none =>
      have hnull : (reading (item (.optional t) none ++ rest) r).isNull = true := by
        have htype := peek_number (m := .simple) (n := 22) (by decide) (by decide) rest
        simp [isNull, reading, item, htype]
      rw [read, hnull, if_pos rfl, item, next_after (untagged_simple (by decide)) hrest]
      rfl
    | some v =>
      rw [read, item, isNull_item hok.2 hok.1 (hfits v rfl) rest r, if_neg Bool.false_ne_true,
        ih hok.2 (hfits v rfl) hrest hr]
      rfl
  | vector t ih =>
    obtain ⟨hlength, hparts⟩ := hfits
    have hparts' : ∀ w ∈ v, Encoded (t.item w) := fun w hw => encoded_item hok.2.2 (hparts w hw)
    obtain ⟨p, hitems⟩ := Items.exists_flatMap hparts'
    rw [Nat.one_mul] at hitems
    have hsize := Nat.lt_of_lt_of_le hlength hlimit
    have hvalue := Argument.value_shortest v.length hsize
    have hlist := list_array (P := P) (hvalue.symm ▸ hlength) (hvalue.symm ▸ hitems) rest r
    rw [restart_ok hrest, hvalue] at hlist
    obtain ⟨s', hs'⟩ := readN_items (P := P) hlength hparts'
      (fun w hw rest r hrest hr => ih hok.2.2 (hparts w hw) hrest fun _ => hr) hrest
      (s := inside v.length (v.flatMap t.item ++ rest)) fun hne => by
        rw [inside, if_neg (fun h0 => hne (List.length_eq_zero_iff.mp h0))]
    have hmax : ¬ P.elementsMax < v.length := by
      have := P.elementsMax_ge
      omega
    rw [item, CborEncodeStream.encodeNumber_eq .array hsize, List.append_assoc, read, listLength_array, hlist,
      hvalue]
    simp only [bind, Except.bind, if_neg hmax, hs']
  | map t ih =>
    obtain ⟨hlength, hparts⟩ := hfits
    let m := v.mapValues fun _ w => CborEncodeStream.init.put (t.item w)
    have hentry : ∀ e ∈ m.entries, e.1.str.length ≤ P.stringMax ∧ Encoded e.2.data := by
      intro e he
      obtain ⟨d, hd, rfl⟩ := List.mem_map.mp he
      exact ⟨(hparts d hd).1, encoded_item hok (hparts d hd).2⟩
    have hsize : 2 * m.entries.length < kUnknownCount := (List.length_map ..).symm ▸ hlength
    have hmap := map_item hsize (fun e he => (hentry e he).1) (fun e he => (hentry e he).2) hrest r
    have hstreams : (m.mapValues fun _ s => reading s.data 1).entries =
        v.entries.map fun e => (e.1, reading (t.item e.2) 1) := List.map_map
    have hread := readEntries_items (P := P) (t := t) (fun e (he : e ∈ v.entries) => by
      have hone := ih (r := 1) hok (hparts e he).2 (follows_nil P) fun _ => Nat.one_ne_zero
      rw [List.append_nil] at hone
      exact ⟨_, hone⟩) .empty
    have hsame := (OrdMap.foldl_insert_eq (fun _ w => w) (.refl v.entries)).trans (OrdMap.mapValues_id v)
    rw [hsame] at hread
    rw [item_map, read, hmap]
    simp only [bind, Except.bind]
    rw [hstreams, hread]

/-- The stream that the constructor leaves. -/
theorem create_starts {data : Bytes} (h : Starts data) : create P data = .ok (reading data kUnknownCount) := by
  rw [create, P.tinycbor.parserInit_starts data h]
  rfl

theorem decode_item {t : Ty} {v : t.Val} (hok : t.Ok) (hfits : t.Fits P v) :
    ∃ data, encode t v = .ok data ∧ decode P t data = .ok v := by
  refine ⟨t.item v, by rw [encode, write_eq hfits]; rfl, ?_⟩
  have hread := read_item (r := kUnknownCount) hok hfits (follows_nil P) fun _ => by decide
  rw [List.append_nil] at hread
  rw [decode, create_starts (encoded_item hok hfits).starts]
  simp only [bind, Except.bind, hread]

end

end Ty

/-! ## Sequences -/

section
open CborDecodeStream
variable {P : Platform}

/-- The items of the values in order. -/
def itemsOf (vs : List Typed) : Bytes := vs.flatMap fun v => v.1.item v.2

theorem writeAll_eq {vs : List Typed} (h : ∀ v ∈ vs, v.1.Fits P v.2) (s : CborEncodeStream) :
    writeAll vs s = .ok { s with data_ := s.data_ ++ itemsOf vs, count := s.count + vs.length } := by
  induction vs generalizing s with
  | nil => simp [writeAll, itemsOf, pure, Except.pure]
  | cons v vs ih =>
    rw [writeAll, List.foldlM_cons, Ty.write_eq (h v List.mem_cons_self)]
    simp only [bind, Except.bind]
    rw [← writeAll, ih fun w hw => h w (List.mem_cons_of_mem v hw)]
    simp [CborEncodeStream.put, itemsOf, Nat.add_assoc, Nat.add_comm 1]

theorem writeAll_init {vs : List Typed} (h : ∀ v ∈ vs, v.1.Fits P v.2) :
    ∃ s, writeAll vs .init = .ok s ∧ s.data = itemsOf vs := by
  refine ⟨_, writeAll_eq h .init, ?_⟩
  rw [CborEncodeStream.data, CborEncodeStream.init, if_neg (by exact Bool.false_ne_true)]
  exact List.nil_append _

theorem starts_itemsOf {vs : List Typed} (hne : vs ≠ []) (h : ∀ v ∈ vs, v.1.Ok ∧ v.1.Fits P v.2) :
    Starts (itemsOf vs) := by
  obtain ⟨v, vs, rfl⟩ := List.exists_cons_of_ne_nil hne
  obtain ⟨hok, hfits⟩ := h v List.mem_cons_self
  exact (Ty.encoded_item hok hfits).starts.append _

/-- Values are read one after the other, the count runs down from wherever it is. -/
theorem readAll_items {vs : List Typed} (h : ∀ v ∈ vs, v.1.Ok ∧ v.1.Fits P v.2) {r : ℕ}
    (hcid : ∀ i v, vs[i]? = some v → v.1.IsCid v.2 → (r + i * (2 ^ 32 - 1)) % 2 ^ 32 ≠ 0)
    (hr : r < 2 ^ 32) {s : CborDecodeStream} (hs : vs ≠ [] → s = reading (itemsOf vs) r) :
    readAll P (vs.map Sigma.fst) s = .ok vs := by
  induction vs generalizing r s with
  | nil => rfl
  | cons v vs ih =>
    obtain ⟨hok, hfits⟩ := h v List.mem_cons_self
    have hlater : ∀ w ∈ vs, w.1.Ok ∧ w.1.Fits P w.2 := fun w hw => h w (List.mem_cons_of_mem v hw)
    have hfollows : Follows P (itemsOf vs) := by
      by_cases hne : vs = []
      · exact .inl (by rw [hne]; rfl)
      · exact (starts_itemsOf hne hlater).follows P
    have hread := Ty.read_item (r := r) hok hfits hfollows fun hv h0 =>
      hcid 0 v rfl hv (by rw [h0, Nat.zero_mul, Nat.add_zero, Nat.zero_mod])
    have hrest := ih (r := (r + (2 ^ 32 - 1)) % 2 ^ 32) (s := after (itemsOf vs) r) hlater
      (fun i w hw hv => by
        have hone := hcid (i + 1) w hw hv
        omega)
      (Nat.mod_lt _ (by decide)) fun hne => by rw [after, if_neg (starts_itemsOf hne hlater).ne_nil]
    rw [hs (List.cons_ne_nil v vs), List.map_cons, readAll, itemsOf, List.flatMap_cons, ← itemsOf, hread]
    simp only [bind, Except.bind, hrest]

end

/-- Counting down from one below the modulus. -/
theorem counted_down {M n : ℕ} (hM : 0 < M) (h : n * (M - 1) % M = 0) : n % M = 0 := by
  have hsum : n * (M - 1) + n = n * M := by
    rw [← Nat.mul_succ, Nat.succ_eq_add_one, Nat.sub_add_cancel hM]
  have hdvd : M ∣ n * (M - 1) + n := hsum ▸ Nat.dvd_mul_left M n
  exact Nat.mod_eq_zero_of_dvd ((Nat.dvd_add_right (Nat.dvd_of_mod_eq_zero h)).mp hdvd)

/-- A CID behind so many booleans that no item is left. -/
theorem readAll_late_cid {P : Platform} {d : Bytes} {k : ℕ} (hk : k < 2 ^ 32) :
    readAll P (List.replicate k .bool ++ [.cid])
      (CborDecodeStream.reading (itemsOf (List.replicate k ⟨.bool, true⟩) ++ cidItem d) k) =
        CborDecodeStream.raise .invalidCbor := by
  induction k with
  | zero =>
    have hcid := CborDecodeStream.isCid_tag (.shortest kCidTag (by decide))
      (encodeNumber .bytes (0 :: d).length ++ 0 :: d) 0
    rw [Argument.value_shortest, ← Ty.cidItem_eq] at hcid
    rw [List.replicate_zero, List.replicate_zero, List.nil_append, itemsOf, List.flatMap_nil, List.nil_append,
      readAll, Ty.read, CborDecodeStream.readCid, hcid, decide_eq_true rfl, if_pos rfl,
      P.tinycbor.advance_past_end _ rfl]
    rfl
  | succ k ih =>
    have hrest : Starts (itemsOf (List.replicate k ⟨.bool, true⟩) ++ cidItem d) := by
      cases k with
      | zero => exact Ty.cidItem_eq d ▸ starts_head _ _ (by decide)
      | succ k =>
        have hone := Ty.encoded_item (P := P) (t := .bool) (v := true) trivial trivial
        exact (hone.starts.append _).append _
    have hread := Ty.read_item (P := P) (t := .bool) (v := true) (r := k + 1) trivial trivial (hrest.follows P)
      fun h => h.elim
    rw [CborDecodeStream.after_succ hrest.ne_nil (by omega)] at hread
    rw [List.replicate_succ, List.replicate_succ, List.cons_append, itemsOf, List.flatMap_cons, ← itemsOf,
      List.append_assoc, readAll, hread]
    simp only [bind, Except.bind, ih (by omega)]
    rfl

end IpfsLite.Codec
