import IpfsLite.Codec.CborRoundTrip
import IpfsLite.Codec.CborSkipping
import IpfsLite.Codec.CborTotality
import IpfsLite.Graphsync.Common

/-! # Graphsync extensions

What a responder says of each CID, and the CIDs that a requester has already (`extension.cpp`). The decoders
turn every `std::exception` into `MESSAGE_PARSE_ERROR`. -/
namespace IpfsLite.Graphsync
set_option autoImplicit false

open Codec
open CborDecodeStream (Result)
open CborEncodeStream (cidItem)

def ascii (text : String) : Bytes := text.toList.map fun c => UInt8.ofNat c.toNat

def kResponseMetadataProtocol : Bytes := ascii "graphsync/response-metadata"
def kDontSendCidsProtocol : Bytes := ascii "graphsync/do-not-send-cids"

/-- `Error`, as far as the decoders return it. -/
inductive ExtensionError where
  | messageParseError
  deriving DecidableEq

namespace Extension

/-! ## Encoding -/

def link : StringKey := ⟨ascii "link"⟩
def blockPresent : StringKey := ⟨ascii "blockPresent"⟩

abbrev ResponseMetadata := List (CID × Bool)

def encodeMetadataItem (item : CID × Bool) : Except CborEncodeError (OrdMap StringKey CborEncodeStream) := do
  let cid ← CborEncodeStream.init.writeCid item.1
  .ok ((OrdMap.empty.insert link cid).insert blockPresent (CborEncodeStream.init.writeBool item.2))

def writeMetadataItem (l : CborEncodeStream) (item : CID × Bool) : Except CborEncodeError CborEncodeStream := do
  l.writeMap (← encodeMetadataItem item)

def encodeResponseMetadata (metadata : ResponseMetadata) : Except CborEncodeError Extension := do
  let l ← metadata.foldlM writeMetadataItem CborEncodeStream.list
  .ok ⟨kResponseMetadataProtocol, (CborEncodeStream.init.writeStream l).data⟩

def encodeDontSendCids (cids : List CID) : Except CborEncodeError Extension := do
  let encoder ← (Ty.vector .cid).write cids .init
  .ok ⟨kDontSendCidsProtocol, encoder.data⟩

/-! ## Decoding -/

variable (P : Platform)

def decodeBool : Bytes → Except ExtensionError Bool
  | [byte] => if byte = 0xf4 then .ok false else if byte = 0xf5 then .ok true else .error .messageParseError
  | _ => .error .messageParseError

/-- The bytes of an entry: what is raised, or else what is returned. -/
def decodeEntry (raw : Bytes) : Result (Except ExtensionError (CID × Bool)) := do
  let x ← CborDecodeStream.create P raw
  if x.isMap = false then .ok (.error .messageParseError)
  else
    let (m, _) ← x.map P
    match m.find? link, m.find? blockPresent with
    | some linkStream, some presentStream => do
      let (cid, _) ← linkStream.readCid P
      let (present, _) ← presentStream.raw P
      .ok ((decodeBool present).map (Prod.mk cid))
    | _, _ => .ok (.error .messageParseError)

def decodeEntries : ℕ → CborDecodeStream → ResponseMetadata → Result (Except ExtensionError ResponseMetadata)
  | 0, _, pairs => .ok (.ok pairs)
  | n + 1, decoder, pairs => do
    let (raw, decoder) ← decoder.raw P
    match ← decodeEntry P raw with
    | .error e => .ok (.error e)
    | .ok pair => decodeEntries n decoder (pairs ++ [pair])

/-- `catch ( const std::exception & )`. -/
def handle {α : Type} : Result (Except ExtensionError α) → Result (Except ExtensionError α)
  | .error (.raised _) | .error .lengthError => .ok (.error .messageParseError)
  | r => r

def decodeMetadata (data : Bytes) : Result (Except ExtensionError ResponseMetadata) := do
  let decoder ← CborDecodeStream.create P data
  if decoder.isList = false then .ok (.error .messageParseError)
  else
    let n ← decoder.listLength P
    if P.elementsMax < n then .error .lengthError
    else
      let (decoder, _) ← decoder.list P
      decodeEntries P n decoder []

def decodeResponseMetadata (e : Extension) : Result (Except ExtensionError ResponseMetadata) :=
  if e.name ≠ kResponseMetadataProtocol then .ok (.error .messageParseError)
  else if e.data = [] then .ok (.ok [])
  else handle (decodeMetadata P e.data)

/-- A `std::set` is taken for its elements. -/
def decodeCids (data : Bytes) : Result (Except ExtensionError (Finset CID)) := do
  let cids ← Ty.decode P (.vector .cid) data
  .ok (.ok (List.toFinset cids))

def decodeDontSendCids (e : Extension) : Result (Except ExtensionError (Finset CID)) :=
  if e.name ≠ kDontSendCidsProtocol then .ok (.error .messageParseError) else handle (decodeCids P e.data)

/-! ## The items of the metadata -/

/-- What is written for a CID with these bytes. -/
def streams (bytes : Bytes) (present : Bool) : OrdMap StringKey CborEncodeStream :=
  (OrdMap.empty.insert link (CborEncodeStream.init.put (cidItem bytes))).insert blockPresent
    (CborEncodeStream.init.writeBool present)

theorem entries_streams (bytes : Bytes) (present : Bool) : (streams bytes present).entries =
    [(blockPresent, CborEncodeStream.init.writeBool present),
      (link, CborEncodeStream.init.put (cidItem bytes))] := by
  have hlt : blockPresent < link := by decide
  have hnot : ¬ link < blockPresent := by decide
  simp [streams, OrdMap.insert, OrdMap.empty, hlt, hnot]

def item (pair : CID × Bool) : Bytes := CborEncodeStream.mapItem (streams (pair.1.toBytes.getD []) pair.2)

variable {P} {metadata : ResponseMetadata} {cids : List CID}

theorem count_streams {bytes : Bytes} {present : Bool} :
    ∀ e ∈ (streams bytes present).entries, e.2.count = 1 := by
  rw [entries_streams]
  intro e he
  obtain rfl | rfl : e = _ ∨ e = _ := by simpa using he
  · rfl
  · rfl

theorem encoded_streams {pair : CID × Bool} (h : pair.1.toBytes.isSome = true) :
    ∀ e ∈ (streams (pair.1.toBytes.getD []) pair.2).entries, Ty.Encoded e.2.data := by
  rw [entries_streams]
  intro e he
  obtain rfl | rfl : e = _ ∨ e = _ := by simpa using he
  · exact Ty.encoded_item (P := .reference) (t := .bool) (v := pair.2) trivial trivial
  · exact Ty.encoded_item (P := .reference) (t := .cid) (v := pair.1) trivial h

theorem keys_streams {bytes : Bytes} {present : Bool} :
    ∀ e ∈ (streams bytes present).entries, e.1.str.length ≤ blockPresent.str.length := by
  rw [entries_streams]
  intro e he
  obtain rfl | rfl : e = _ ∨ e = _ := by simpa using he
  · exact le_rfl
  · exact (by decide : link.str.length ≤ blockPresent.str.length)

theorem length_streams (bytes : Bytes) (present : Bool) : (streams bytes present).entries.length = 2 := by
  rw [entries_streams]
  rfl

theorem counted_streams {bytes : Bytes} {present : Bool} :
    2 * (streams bytes present).entries.length < kUnknownCount := by
  rw [length_streams]
  decide

theorem encoded_item {pair : CID × Bool} (h : pair.1.toBytes.isSome = true) : Ty.Encoded (item pair) := by
  refine Ty.encoded_mapItem counted_streams (fun e he => ?_) (encoded_streams h)
  exact (keys_streams e he).trans_lt (by decide)

/-- A map has no tag in front. -/
theorem untagged_item {pair : CID × Bool} (h : pair.1.toBytes.isSome = true) : Untagged (item pair) :=
  Ty.Encoded.untagged (encoded_item h) (by decide) (by rw [length_streams]; decide)

theorem writeMetadataItem_eq {pair : CID × Bool} (h : pair.1.toBytes.isSome = true) (l : CborEncodeStream) :
    writeMetadataItem l pair = .ok (l.put (item pair)) := by
  obtain ⟨bytes, hbytes⟩ := Option.isSome_iff_exists.mp h
  have hcid := Ty.write_eq (P := .reference) (t := .cid) (v := pair.1) h .init
  have hstreams : encodeMetadataItem pair = .ok (streams (pair.1.toBytes.getD []) pair.2) := by
    rw [encodeMetadataItem, show CborEncodeStream.init.writeCid pair.1 = _ from hcid]
    rfl
  rw [writeMetadataItem, hstreams]
  exact CborEncodeStream.writeMap_mapItem count_streams l

/-- The metadata of encodable CIDs are a list of their items. -/
theorem encodeResponseMetadata_eq (h : ∀ pair ∈ metadata, pair.1.toBytes.isSome = true) :
    encodeResponseMetadata metadata = .ok ⟨kResponseMetadataProtocol,
      encodeNumber .array metadata.length ++ metadata.flatMap item⟩ := by
  rw [encodeResponseMetadata, Ty.foldlM_put fun pair hpair s => writeMetadataItem_eq (h pair hpair) s]
  simp [bind, Except.bind, CborEncodeStream.writeStream, CborEncodeStream.data, CborEncodeStream.list,
    CborEncodeStream.init]

theorem encodeDontSendCids_eq (h : ∀ cid ∈ cids, cid.toBytes.isSome = true) :
    encodeDontSendCids cids = .ok ⟨kDontSendCidsProtocol, Ty.item (.vector .cid) cids⟩ := by
  have hwrite := Ty.write_vector (t := .cid)
    (fun (cid : CID) (hcid : cid ∈ cids) s => Ty.write_eq (P := .reference) (t := .cid) (v := cid) (h cid hcid) s) .init
  rw [encodeDontSendCids, hwrite]
  rfl

/-! ## An entry is read back -/

open CborDecodeStream

theorem decodeBool_item (b : Bool) : decodeBool (Ty.item .bool b) = .ok b := by
  cases b <;> rfl

theorem raw_untagged {bytes rest : Bytes} (h : Untagged bytes) (hrest : Follows P rest) (r : ℕ) :
    (reading (bytes ++ rest) r).raw P = .ok (bytes, after rest r) :=
  raw_of_next (Ty.next_after h hrest r) (ptr_after rest r)

theorem isMap_item (pair : CID × Bool) (r : ℕ) : (reading (item pair) r).isMap = true := by
  have hsize : (streams (pair.1.toBytes.getD []) pair.2).entries.length < 2 ^ 64 := by
    rw [length_streams]
    decide
  have htype := Ty.peek_number (m := .map) hsize (by simp)
    ((CborEncodeStream.sortedEntries (streams (pair.1.toBytes.getD []) pair.2)).entries.flatMap
      fun e => e.1.bytes ++ e.2)
  rw [isMap, reading, CborValue.type_reading, item, CborEncodeStream.mapItem, htype]
  rfl

theorem decodeEntry_item (hstring : blockPresent.str.length ≤ P.stringMax) {pair : CID × Bool}
    (h : pair.1.toBytes.isSome = true) : decodeEntry P (item pair) = .ok (.ok pair) := by
  obtain ⟨bytes, hbytes⟩ := Option.isSome_iff_exists.mp h
  have hcreate := Ty.create_starts (P := P) (encoded_item h).starts
  have hmap := Ty.map_item (P := P) counted_streams (fun e he => (keys_streams e he).trans hstring)
    (encoded_streams h) (follows_nil P) kUnknownCount
  rw [List.append_nil] at hmap
  have hlink : ((streams (pair.1.toBytes.getD []) pair.2).mapValues fun _ s => reading s.data 1).find? link =
      some (reading (cidItem bytes) 1) := by
    have hne : link ≠ blockPresent := by decide
    rw [OrdMap.find?_mapValues, streams, OrdMap.find?_insert, if_neg hne, OrdMap.find?_insert, if_pos rfl, hbytes]
    rfl
  have hpresent : ((streams (pair.1.toBytes.getD []) pair.2).mapValues fun _ s => reading s.data 1).find?
      blockPresent = some (reading (Ty.item .bool pair.2) 1) := by
    rw [OrdMap.find?_mapValues, streams, OrdMap.find?_insert, if_pos rfl]
    rfl
  have hcid := Ty.readCid_item (P := P) hbytes (follows_nil P) Nat.one_ne_zero
  have hbool : Untagged (Ty.item .bool pair.2) := Ty.untagged_simple (by cases pair.2 <;> decide)
  have hraw := raw_untagged (P := P) hbool (follows_nil P) 1
  rw [List.append_nil] at hcid hraw
  rw [decodeEntry, hcreate]
  simp only [bind, Except.bind, isMap_item, Bool.true_eq_false, if_false]
  rw [item, hmap]
  simp only [hlink, hpresent, hcid, hraw, decodeBool_item]
  rfl

theorem decodeEntries_items (hstring : blockPresent.str.length ≤ P.stringMax)
    (hlength : metadata.length < kUnknownCount) (h : ∀ pair ∈ metadata, pair.1.toBytes.isSome = true)
    {s : CborDecodeStream} (hs : metadata ≠ [] → s = reading (metadata.flatMap item) metadata.length)
    (pairs : ResponseMetadata) : decodeEntries P metadata.length s pairs = .ok (.ok (pairs ++ metadata)) := by
  induction metadata generalizing s pairs with
  | nil => rw [List.append_nil, List.length_nil, decodeEntries]
  | cons pair metadata ih =>
    have hpair := h pair List.mem_cons_self
    have hlater : ∀ p ∈ metadata, p.1.toBytes.isSome = true := fun p hp => h p (List.mem_cons_of_mem pair hp)
    rw [List.length_cons] at hlength
    obtain ⟨hbehind, hnext⟩ := Ty.behind_element (P := P) (by unfold kUnknownCount at hlength; omega)
      (fun p hp => encoded_item (hlater p hp)) (follows_nil P)
    rw [List.append_nil] at hbehind hnext
    rw [hs (List.cons_ne_nil pair metadata), List.length_cons, decodeEntries, List.flatMap_cons,
      raw_untagged (untagged_item hpair) hbehind]
    simp only [bind, Except.bind, decodeEntry_item hstring hpair]
    rw [ih (Nat.lt_of_succ_lt hlength) hlater hnext, List.append_assoc, List.singleton_append]

/-- The metadata are read back. -/
theorem decodeResponseMetadata_items (hstring : blockPresent.str.length ≤ P.stringMax)
    (hlength : metadata.length < kUnknownCount) (h : ∀ pair ∈ metadata, pair.1.toBytes.isSome = true) :
    decodeResponseMetadata P ⟨kResponseMetadataProtocol,
      encodeNumber .array metadata.length ++ metadata.flatMap item⟩ = .ok (.ok metadata) := by
  have hsize : metadata.length < 2 ^ 64 := hlength.trans (by decide)
  have hvalue := Cbor.Argument.value_shortest metadata.length hsize
  have hstarts := starts_head (m := .array) (.shortest metadata.length hsize) (metadata.flatMap item) (by decide)
  have hcreate := Ty.create_starts (P := P) hstarts
  obtain ⟨p, hitems⟩ := Cbor.Items.exists_flatMap fun pair hpair => encoded_item (h pair hpair)
  rw [Nat.one_mul] at hitems
  have hlist := list_array (P := P) (hvalue.symm ▸ hlength) (hvalue.symm ▸ hitems) [] kUnknownCount
  rw [List.append_nil, restart_ok (follows_nil P), hvalue] at hlist
  have hmax : ¬ P.elementsMax < metadata.length := by
    have hge := P.elementsMax_ge
    omega
  have hentries := decodeEntries_items (s := inside metadata.length (metadata.flatMap item)) hstring hlength h
    (fun hne => by rw [inside, if_neg (fun h0 => hne (List.length_eq_zero_iff.mp h0))]) []
  rw [CborEncodeStream.encodeNumber_eq .array hsize, decodeResponseMetadata, if_neg (fun hne => hne rfl),
    if_neg hstarts.ne_nil, decodeMetadata, hcreate]
  simp only [bind, Except.bind, isList_array, Bool.true_eq_false, if_false, listLength_array, hvalue, if_neg hmax,
    hlist, hentries]
  rfl

theorem decodeDontSendCids_items (hlength : cids.length < kUnknownCount)
    (h : ∀ cid ∈ cids, cid.toBytes.isSome = true) :
    decodeDontSendCids P ⟨kDontSendCidsProtocol, Ty.item (.vector .cid) cids⟩ = .ok (.ok cids.toFinset) := by
  have hfits : (Ty.vector .cid).Fits P cids := ⟨hlength, h⟩
  obtain ⟨data, hencode, hdecode⟩ := Ty.decode_item (P := P) (t := .vector .cid) (v := cids)
    ⟨by decide, by decide, trivial⟩ hfits
  rw [Ty.encode, Ty.write_eq hfits] at hencode
  obtain rfl : Ty.item (.vector .cid) cids = data := Except.ok.inj hencode
  rw [decodeDontSendCids, if_neg (fun hne => hne rfl), decodeCids, hdecode]
  rfl

/-! ## Lists that are too long -/

theorem handle_ok {α : Type} {r : Result (Except ExtensionError α)} {a : α} (h : handle r = .ok (.ok a)) :
    r = .ok (.ok a) := by
  unfold handle at h
  split at h
  · cases h
  · cases h
  · exact h

theorem decodeEntries_length {n : ℕ} {s : CborDecodeStream} {pairs result : ResponseMetadata}
    (h : decodeEntries P n s pairs = .ok (.ok result)) : result.length = pairs.length + n := by
  induction n generalizing s pairs with
  | zero =>
    rw [decodeEntries, Except.ok.injEq, Except.ok.injEq] at h
    rw [← h, Nat.add_zero]
  | succ n ih =>
    obtain ⟨⟨raw, s'⟩, -, h⟩ := bind_ok h
    obtain ⟨entry, -, h⟩ := bind_ok h
    cases entry with
    | error e => cases h
    | ok pair =>
      have hlength := ih h
      rw [List.length_append, List.length_singleton] at hlength
      omega

theorem decoded_length_lt {e : Extension} (h : decodeResponseMetadata P e = .ok (.ok metadata)) :
    metadata.length < kUnknownCount := by
  unfold decodeResponseMetadata at h
  split_ifs at h with hname hempty
  · cases h
  · rw [Except.ok.injEq, Except.ok.injEq] at h
    rw [← h]
    decide
  · obtain ⟨s, -, hread⟩ := bind_ok (handle_ok h)
    split_ifs at hread
    · cases hread
    · obtain ⟨n, hn, hread⟩ := bind_ok hread
      split_ifs at hread
      obtain ⟨⟨l, s'⟩, hlist, hread⟩ := bind_ok hread
      rw [decodeEntries_length hread, List.length_nil, Nat.zero_add]
      exact list_length_lt hn hlist

theorem readN_length {α : Type} {read : CborDecodeStream → Result (α × CborDecodeStream)} {n : ℕ}
    {s t : CborDecodeStream} {vs : List α} (h : Ty.readN read n s = .ok (vs, t)) : vs.length = n := by
  induction n generalizing s vs t with
  | zero =>
    rw [Ty.readN, Except.ok.injEq] at h
    rw [← (Prod.mk.inj h).1, List.length_nil]
  | succ n ih =>
    obtain ⟨⟨v, s'⟩, -, h⟩ := bind_ok h
    obtain ⟨⟨vs', t'⟩, hrest, h⟩ := bind_ok h
    rw [← (Prod.mk.inj (ok_inj h)).1, List.length_cons, ih hrest]

/-- The list of so many CIDs is entered only if they can be counted. -/
theorem decoded_cids_lt {set : Finset CID} (hsize : cids.length < 2 ^ 64)
    (h : decodeDontSendCids P ⟨kDontSendCidsProtocol, Ty.item (.vector .cid) cids⟩ = .ok (.ok set)) :
    cids.length < kUnknownCount := by
  rw [decodeDontSendCids, if_neg (fun hne => hne rfl)] at h
  obtain ⟨vs, hdecode, -⟩ := bind_ok (handle_ok h)
  obtain ⟨s, hs, hread⟩ := bind_ok hdecode
  obtain ⟨⟨vs', s'⟩, hread, -⟩ := bind_ok hread
  obtain ⟨n, hn, hread⟩ := bind_ok hread
  obtain ⟨⟨l, t⟩, hlist, -⟩ := bind_ok hread
  have hcount := list_length_lt hn hlist
  have hstarts := starts_head (m := .array) (.shortest cids.length hsize) (cids.flatMap (Ty.item .cid)) (by decide)
  rw [Ty.item, CborEncodeStream.encodeNumber_eq .array hsize, Ty.create_starts hstarts] at hs
  rw [← ok_inj hs, listLength_array, Cbor.Argument.value_shortest] at hn
  rwa [ok_inj hn]

/-! ## Hostile data -/

/-- An answer: what was decoded, or `MESSAGE_PARSE_ERROR`. -/
def Answers {α : Type} (r : Result (Except ExtensionError α)) : Prop := ∃ answer, r = .ok answer

theorem answers_handle {α : Type} {r : Result (Except ExtensionError α)} :
    Answers (handle r) ↔ EndsIn IsException r := by
  cases r with
  | ok answer => exact ⟨fun _ => endsIn_ok answer, fun _ => ⟨answer, rfl⟩⟩
  | error f =>
    constructor
    · rintro ⟨answer, h⟩ f' hf'
      obtain rfl := Except.error.inj hf'
      unfold handle at h
      split at h
      · next e heq => exact .inl ⟨e, Except.error.inj heq⟩
      · next heq => exact .inr (Except.error.inj heq)
      · cases h
    · intro h
      obtain ⟨e, rfl⟩ | rfl := h f rfl
      · exact ⟨_, rfl⟩
      · exact ⟨_, rfl⟩

variable (P)

/-- The link of the entry has bytes, if it is come to. -/
def TameEntry (raw : Bytes) : Prop :=
  ∀ x m t linkStream presentStream, CborDecodeStream.create P raw = .ok x → x.isMap = true → x.map P = .ok (m, t) →
    m.find? link = some linkStream → m.find? blockPresent = some presentStream → NoEmptyCid P linkStream

/-- The links of the entries that the loop comes to. -/
def TameEntries : ℕ → CborDecodeStream → Prop
  | 0, _ => True
  | n + 1, decoder => ∀ raw decoder', decoder.raw P = .ok (raw, decoder') →
      TameEntry P raw ∧ ∀ pair, decodeEntry P raw = .ok (.ok pair) → TameEntries n decoder'

/-- No entry that `decodeResponseMetadata` comes to has a link of no bytes. -/
def TameMetadata (e : Extension) : Prop :=
  e.name = kResponseMetadataProtocol → ∀ decoder n l s', CborDecodeStream.create P e.data = .ok decoder →
    decoder.isList = true → decoder.listLength P = .ok n → decoder.list P = .ok (l, s') → TameEntries P n l

/-- No CID that `decodeDontSendCids` comes to has no bytes, and with assertions there is a list. -/
def TameCids (e : Extension) : Prop :=
  e.name = kDontSendCidsProtocol → ∀ decoder, CborDecodeStream.create P e.data = .ok decoder →
    (P.assertions = true → decoder.isList = true) ∧
      ∀ n l s', decoder.listLength P = .ok n → decoder.list P = .ok (l, s') →
        Ty.EachElement (NoEmptyCid P) (CborDecodeStream.readCid P) n l

variable {P}

theorem caught_decodeEntry (raw : Bytes) : EndsIn IsException (decodeEntry P raw) ↔ TameEntry P raw := by
  unfold decodeEntry TameEntry
  rw [endsIn_bind, and_iff_right (caught_create raw)]
  constructor
  · intro h x m t linkStream presentStream hx hmap hm hlink hpresent
    have hrest := h x hx
    rw [if_neg (by rw [hmap]; exact Bool.true_eq_false.mp), endsIn_bind] at hrest
    have hread := hrest.2 (m, t) hm
    simp only [hlink, hpresent] at hread
    exact (caught_readCid linkStream).mp ((endsIn_bind).mp hread).1
  · intro h x hx
    by_cases hmap : x.isMap = false
    · rw [if_pos hmap]
      exact endsIn_ok _
    · rw [if_neg hmap]
      refine (endsIn_bind).mpr ⟨caught_map x, ?_⟩
      rintro ⟨m, t⟩ hm
      cases hlink : m.find? link with
      | none =>
        simp only [hlink]
        exact endsIn_ok _
      | some linkStream =>
        cases hpresent : m.find? blockPresent with
        | none =>
          simp only [hlink, hpresent]
          exact endsIn_ok _
        | some presentStream =>
          have htame := h x m t linkStream presentStream hx (Bool.eq_true_of_not_eq_false hmap) hm hlink hpresent
          simp only [hlink, hpresent]
          refine (endsIn_bind).mpr ⟨(caught_readCid linkStream).mpr htame, fun _ _ => ?_⟩
          exact caught_bind_of (caught_raw presentStream) fun _ => endsIn_ok _

theorem caught_decodeEntries (n : ℕ) (decoder : CborDecodeStream) (pairs : ResponseMetadata) :
    EndsIn IsException (decodeEntries P n decoder pairs) ↔ TameEntries P n decoder := by
  induction n generalizing decoder pairs with
  | zero => exact ⟨fun _ => trivial, fun _ => endsIn_ok _⟩
  | succ n ih =>
    rw [decodeEntries, TameEntries, endsIn_bind, and_iff_right (caught_raw decoder)]
    constructor
    · intro h raw decoder' hraw
      obtain ⟨hentry, hrest⟩ := (endsIn_bind).mp (h (raw, decoder') hraw)
      exact ⟨(caught_decodeEntry raw).mp hentry, fun pair hpair => (ih _ _).mp (hrest (.ok pair) hpair)⟩
    · rintro h ⟨raw, decoder'⟩ hraw
      obtain ⟨hentry, hrest⟩ := h raw decoder' hraw
      refine (endsIn_bind).mpr ⟨(caught_decodeEntry raw).mpr hentry, fun entry hpair => ?_⟩
      cases entry with
      | error e => exact endsIn_ok _
      | ok pair => exact (ih _ _).mpr (hrest pair hpair)

theorem metadata_answers (e : Extension) : Answers (decodeResponseMetadata P e) ↔ TameMetadata P e := by
  unfold decodeResponseMetadata TameMetadata
  by_cases hname : e.name = kResponseMetadataProtocol
  · rw [if_neg (not_not.mpr hname)]
    by_cases hempty : e.data = []
    · rw [if_pos hempty, hempty]
      refine iff_of_true ⟨_, rfl⟩ fun _ decoder n l s' hcreate => ?_
      rw [CborDecodeStream.create, P.tinycbor.parserInit_nil] at hcreate
      cases hcreate
    · rw [if_neg hempty, answers_handle, decodeMetadata, endsIn_bind, and_iff_right (caught_create e.data)]
      constructor
      · intro h _ decoder n l s' hcreate hlist hn hl
        have hrest := h decoder hcreate
        rw [if_neg (by rw [hlist]; exact Bool.true_eq_false.mp), endsIn_bind] at hrest
        have hread := hrest.2 n hn
        rw [if_neg (Nat.not_lt.mpr (list_length_le hn hl)), endsIn_bind] at hread
        exact (caught_decodeEntries n l []).mp (hread.2 (l, s') hl)
      · intro h decoder hcreate
        by_cases hlist : decoder.isList = false
        · rw [if_pos hlist]
          exact endsIn_ok _
        · have hlist' := Bool.eq_true_of_not_eq_false hlist
          rw [if_neg hlist]
          refine (endsIn_bind).mpr ⟨((settles_listLength decoder).mpr fun _ => hlist').caught, fun n hn => ?_⟩
          split_ifs
          · exact caught_lengthError
          · refine (endsIn_bind).mpr ⟨(settles_list decoder).caught, ?_⟩
            rintro ⟨l, s'⟩ hl
            exact (caught_decodeEntries n l []).mpr (h hname decoder n l s' hcreate hlist' hn hl)
  · rw [if_pos hname]
    exact iff_of_true ⟨_, rfl⟩ fun h => absurd h hname

theorem caught_listLength (s : CborDecodeStream) :
    EndsIn IsException (s.listLength P) ↔ (P.assertions = true → s.isList = true) := by
  refine ⟨fun h => ?_, fun h => ((settles_listLength s).mpr h).caught⟩
  by_contra hassert
  rw [Classical.not_imp, Bool.not_eq_true] at hassert
  rw [listLength, if_pos hassert] at h
  obtain ⟨e, he⟩ | he := h _ rfl
  · cases he
  · cases he

theorem caught_vector (s : CborDecodeStream) : EndsIn IsException ((Ty.vector .cid).read P s) ↔
    (P.assertions = true → s.isList = true) ∧ ∀ n l s', s.listLength P = .ok n → s.list P = .ok (l, s') →
      Ty.EachElement (NoEmptyCid P) (CborDecodeStream.readCid P) n l := by
  have helements (n : ℕ) (l : CborDecodeStream) := Ty.endsIn_readN (caught_readCid (P := P)) n l
  rw [Ty.read, endsIn_bind, caught_listLength]
  refine and_congr_right fun _ => ⟨fun h n l s' hn hl => ?_, fun h n hn => ?_⟩
  · have hread := ((endsIn_bind).mp (h n hn)).2 (l, s') hl
    simp only at hread
    rw [if_neg (Nat.not_lt.mpr (list_length_le hn hl)), endsIn_bind] at hread
    exact (helements n l).mp hread.1
  · refine (endsIn_bind).mpr ⟨(settles_list s).caught, ?_⟩
    rintro ⟨l, s'⟩ hl
    simp only
    rw [if_neg (Nat.not_lt.mpr (list_length_le hn hl))]
    exact (endsIn_bind).mpr ⟨(helements n l).mpr (h n l s' hn hl), fun _ _ => endsIn_ok _⟩

theorem cids_answer (e : Extension) : Answers (decodeDontSendCids P e) ↔ TameCids P e := by
  unfold decodeDontSendCids TameCids
  by_cases hname : e.name = kDontSendCidsProtocol
  · rw [if_neg (not_not.mpr hname), answers_handle, decodeCids, endsIn_bind,
      and_iff_left (fun _ _ => endsIn_ok _), Ty.decode, endsIn_bind, and_iff_right (caught_create e.data)]
    have hread {x : Result (List CID × CborDecodeStream)} {f : List CID × CborDecodeStream → Result (List CID)}
        (hf : ∀ v, f v = .ok v.1) : EndsIn IsException (x >>= f) ↔ EndsIn IsException x := by
      rw [endsIn_bind]
      exact and_iff_left fun v _ => hf v ▸ endsIn_ok v.1
    constructor
    · intro h _ decoder hcreate
      exact (caught_vector decoder).mp ((hread fun _ => rfl).mp (h decoder hcreate))
    · intro h decoder hcreate
      exact (hread fun _ => rfl).mpr ((caught_vector decoder).mpr (h hname decoder hcreate))
  · rw [if_pos hname]
    exact iff_of_true ⟨_, rfl⟩ fun h => absurd h hname

/-! ## The extensions -/

end Extension
end IpfsLite.Graphsync
