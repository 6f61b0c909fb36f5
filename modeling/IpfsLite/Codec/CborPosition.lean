import IpfsLite.Codec.CborDecodeStream

/-! # Where the decoder stands

What one call of `CborDecodeStream` does at well-formed items, whatever follows them: where the stream is
left, and how many items it believes to have left. -/
namespace IpfsLite.Codec
set_option autoImplicit false

open Cbor (Major Argument Items)

/-! ## Heads that start an item -/

theorem starts_head {m : Major} (a : Argument) (rest : Bytes) (h : m ≠ .simple) :
    Starts (Cbor.head m a ++ rest) := ⟨m, a, rest, rfl, fun hm => absurd hm h⟩

theorem Starts.ne_nil {bytes : Bytes} (h : Starts bytes) : bytes ≠ [] := by
  obtain ⟨m, a, rest, rfl, -⟩ := h
  exact List.cons_ne_nil _ _

theorem Starts.append {bytes : Bytes} (h : Starts bytes) (rest : Bytes) : Starts (bytes ++ rest) := by
  obtain ⟨m, a, tail, rfl, hsimple⟩ := h
  exact ⟨m, a, tail ++ rest, List.append_assoc .., hsimple⟩

theorem starts_items {limit : ℕ} {p : Bool} {n : ℕ} {bytes : Bytes} (h : Items limit p (n + 1) bytes) :
    Starts bytes := by
  cases h with
  | integer hm => exact starts_head _ _ (by rintro rfl; simp at hm)
  | string hm => exact starts_head _ _ (by rintro rfl; simp at hm)
  | array | map | tag => exact starts_head _ _ (by decide)
  | simple ha => exact ⟨.simple, _, _, rfl, fun _ => ha⟩

/-- What may stand behind an item: nothing, or something that the parser takes for a value. -/
def Follows (P : Platform) (rest : Bytes) : Prop :=
  rest = [] ∨ P.tinycbor.parserInit rest = some (.reading rest 1)

theorem follows_nil (P : Platform) : Follows P [] := .inl rfl

theorem Starts.follows {bytes : Bytes} (h : Starts bytes) (P : Platform) : Follows P bytes :=
  .inr (P.tinycbor.parserInit_starts bytes h)

theorem follows_items {limit : ℕ} {p : Bool} {n : ℕ} {bytes rest : Bytes} {P : Platform}
    (h : Items limit p n bytes) (hrest : Follows P rest) : Follows P (bytes ++ rest) := by
  cases n with
  | zero =>
    rw [h.eq_nil]
    exact hrest
  | succ n => exact ((starts_items h).append rest).follows P

/-! ## The stream behind an item -/

namespace CborDecodeStream

def reading (ptr : Bytes) (remaining : ℕ) : CborDecodeStream := ⟨.reading ptr remaining⟩

/-- One item less, unless the data have ended. -/
def after (rest : Bytes) (remaining : ℕ) : CborDecodeStream :=
  if rest = [] then ⟨.atEnd []⟩ else reading rest ((remaining + (2 ^ 32 - 1)) % 2 ^ 32)

theorem after_nil (r : ℕ) : after [] r = ⟨.atEnd []⟩ := if_pos rfl

theorem after_succ {rest : Bytes} (h : rest ≠ []) {r : ℕ} (hr : r < 2 ^ 32) :
    after rest (r + 1) = reading rest r := by
  have hmod : (r + 1 + (2 ^ 32 - 1)) % 2 ^ 32 = r := by omega
  rw [after, if_neg h, hmod]

@[simp] theorem ptr_after (rest : Bytes) (r : ℕ) : (after rest r).value.ptr = rest := by
  unfold after
  split_ifs with h
  · exact h.symm
  · rfl

variable {P : Platform}

theorem restart_ok {rest : Bytes} (h : Follows P rest) (r : ℕ) :
    restart P r (.atEnd rest) = .ok (after rest r) := by
  unfold restart after
  obtain rfl | h := h
  · rfl
  · have hne : rest ≠ [] := by
      rintro rfl
      rw [P.tinycbor.parserInit_nil] at h
      exact absurd h (by simp)
    simp only [CborValue.ptr_atEnd, CborValue.remaining_atEnd, ne_eq, hne, not_false_eq_true, if_true, h,
      if_false, Nat.zero_add, check, bind, Except.bind, reading, CborValue.reading]

theorem restart_error {rest : Bytes} (h : ¬ Follows P rest) (r : ℕ) :
    restart P r (.atEnd rest) = raise .invalidCbor := by
  have hne : rest ≠ [] := fun hnil => h (.inl hnil)
  have hnone : P.tinycbor.parserInit rest = none := by
    cases hv : P.tinycbor.parserInit rest with
    | none => rfl
    | some v => exact absurd (.inr (hv.trans (congrArg some (P.tinycbor.parserInit_reading rest v hv)))) h
  simp only [restart, CborValue.ptr_atEnd, ne_eq, hne, not_false_eq_true, if_true, hnone]
  rfl

/-! ## `next` -/

theorem isCid_iff (s : CborDecodeStream) : s.isCid = true ↔ s.value.type = some (.tag, some kCidTag) :=
  decide_eq_true_iff

theorem isCid_false {bound : ℕ} {item : Bytes} (h : Cbor.Untagged bound item) (rest : Bytes) (r : ℕ) :
    (reading (item ++ rest) r).isCid = false := by
  refine Bool.eq_false_iff.mpr fun hcid => ?_
  exact TinyCbor.untagged_not_tag h rest r ⟨_, (isCid_iff _).mp hcid⟩

theorem isCid_tag (a : Argument) (rest : Bytes) (r : ℕ) :
    (reading (Cbor.head .tag a ++ rest) r).isCid = decide (a.value = kCidTag) := by
  have htype := peek_head .tag a rest (by simp)
  simp [isCid, reading, htype]

theorem next_other {s : CborDecodeStream} (h : s.isCid = false) : s.next P =
    (check (P.tinycbor.advance { s.value with remaining := 1 })).bind (restart P s.value.remaining) := by
  rw [next, h]
  rfl

theorem next_isCid {s : CborDecodeStream} (h : s.isCid = true) : s.next P =
    (check (P.tinycbor.skipTag s.value)).bind fun value =>
      (check (P.tinycbor.advance { value with remaining := 1 })).bind (restart P value.remaining) := by
  rw [next, h]
  rfl

theorem with_remaining (ptr : Bytes) (r r' : ℕ) :
    { CborValue.reading ptr r with remaining := r' } = CborValue.reading ptr r' := rfl

/-- An item without a tag is left behind. -/
theorem next_untagged {item : Bytes} (h : Untagged item) (rest : Bytes) (r : ℕ) :
    (reading (item ++ rest) r).next P = restart P r (.atEnd rest) := by
  rw [next_other (isCid_false h rest r), reading, with_remaining, P.tinycbor.advance_last item rest h]
  rfl

theorem next_oversized {bound : ℕ} {item : Bytes} (h : Cbor.Untagged bound item) (hover : ¬ Untagged item)
    (rest : Bytes) (r : ℕ) : (reading (item ++ rest) r).next P = raise .invalidCbor := by
  rw [next_other (isCid_false h rest r), reading, with_remaining,
    P.tinycbor.advance_oversized bound item rest 1 h hover]
  rfl

/-- Behind a CID tag all the tags are skipped, and the item with them. -/
theorem next_cid {a : Argument} (ha : a.value = kCidTag) (chain : List Argument) {item : Bytes}
    (h : Untagged item) (rest : Bytes) {r : ℕ} (hr : r ≠ 0) :
    (reading (Cbor.tags (a :: chain) ++ (item ++ rest)) r).next P = restart P r (.atEnd rest) := by
  have hcid : (reading (Cbor.tags (a :: chain) ++ (item ++ rest)) r).isCid = true := by
    rw [Cbor.tags, List.flatMap_cons, List.append_assoc, isCid_tag, ha]
    rfl
  rw [next_isCid hcid, reading, P.tinycbor.skipTag_chain _ (a :: chain) item rest r hr h]
  simp only [check, Except.bind, with_remaining, P.tinycbor.advance_last item rest h,
    CborValue.remaining_reading]

theorem next_cid_oversized {bound : ℕ} {a : Argument} (ha : a.value = kCidTag) (chain : List Argument)
    {item : Bytes} (h : Cbor.Untagged bound item) (hover : ¬ Untagged item) (rest : Bytes) {r : ℕ}
    (hr : r ≠ 0) : (reading (Cbor.tags (a :: chain) ++ (item ++ rest)) r).next P = raise .invalidCbor := by
  have hcid : (reading (Cbor.tags (a :: chain) ++ (item ++ rest)) r).isCid = true := by
    rw [Cbor.tags, List.flatMap_cons, List.append_assoc, isCid_tag, ha]
    rfl
  rw [next_isCid hcid, reading, P.tinycbor.skipTag_chain _ (a :: chain) item rest r hr h]
  simp only [check, Except.bind, with_remaining, P.tinycbor.advance_oversized bound item rest 1 h hover]
  rfl

/-- With no item left the CID tag is not skipped. -/
theorem next_cid_past_end {s : CborDecodeStream} (h : s.isCid = true) (hr : s.value.remaining = 0) :
    s.next P = raise .invalidCbor := by
  rw [next_isCid h, P.tinycbor.skipTag_past_end s.value ⟨_, (isCid_iff s).mp h⟩ hr]
  rfl

/-- Any other tag is left behind by itself. -/
theorem next_tag {a : Argument} (ha : a.value ≠ kCidTag) {content : Bytes} (h : Starts content) {r : ℕ}
    (hr : r < 2 ^ 32) : (reading (Cbor.head .tag a ++ content) r).next P = .ok (reading content r) := by
  have hcid : (reading (Cbor.head .tag a ++ content) r).isCid = false := by
    rw [isCid_tag]
    exact decide_eq_false ha
  have hmod : (r + (1 + 2 ^ 32 - 1)) % 2 ^ 32 = r := by omega
  rw [next_other hcid, reading, with_remaining, P.tinycbor.advance_tag a content 1 Nat.one_ne_zero h]
  simp only [check, Except.bind, restart, CborValue.ptr_reading, ne_eq, h.ne_nil, not_false_eq_true, if_true,
    P.tinycbor.parserInit_starts content h, CborValue.remaining_reading, hmod, bind, reading]
  rfl

/-! ## Containers -/

/-- In front of the items of a container. -/
def inside (count : ℕ) (ptr : Bytes) : CborDecodeStream :=
  if count = 0 then ⟨.atEnd ptr⟩ else reading ptr count

theorem container_ok {m : Major} (hm : m = .array ∨ m = .map) {a : Argument} {bytes : Bytes}
    (hcount : containerCount m a.value < kUnknownCount)
    (hstarts : containerCount m a.value ≠ 0 → Starts bytes) (r : ℕ) :
    (reading (Cbor.head m a ++ bytes) r).container P = .ok (inside (containerCount m a.value) bytes) := by
  have hzero : containerCount m a.value = 0 ↔ a.value = 0 := by
    unfold containerCount
    split_ifs <;> omega
  unfold container inside
  by_cases h : a.value = 0
  · rw [reading, P.tinycbor.enterContainer_empty m a bytes r hm h, if_pos (hzero.mpr h)]
    rfl
  · have hne : containerCount m a.value ≠ 0 := fun h0 => h (hzero.mp h0)
    rw [reading, P.tinycbor.enterContainer_items m a bytes r hm h hcount (hstarts hne), if_neg hne]
    rfl

theorem container_items {m : Major} (hm : m = .array ∨ m = .map) {a : Argument} {p : Bool} {inner : Bytes}
    (hcount : containerCount m a.value < kUnknownCount)
    (hinner : Items kUnknownCount p (containerCount m a.value) inner) (rest : Bytes) (r : ℕ) :
    (reading (Cbor.head m a ++ (inner ++ rest)) r).container P =
      .ok (inside (containerCount m a.value) (inner ++ rest)) := by
  refine container_ok hm hcount (fun hne => ?_) r
  obtain ⟨n, hn⟩ := Nat.exists_eq_succ_of_ne_zero hne
  rw [hn] at hinner
  exact (starts_items hinner).append rest

theorem isList_array (a : Argument) (bytes : Bytes) (r : ℕ) :
    (reading (Cbor.head .array a ++ bytes) r).isList = true := by
  have htype := peek_head .array a bytes (by simp)
  simp [isList, reading, htype]

theorem listLength_array (a : Argument) (bytes : Bytes) (r : ℕ) :
    (reading (Cbor.head .array a ++ bytes) r).listLength P = .ok a.value := by
  have htype := peek_head .array a bytes (by simp)
  rw [listLength, isList_array, if_neg (by simp), reading, P.tinycbor.arrayLength_known _ a.value htype]
  rfl

/-- A list is entered, and left behind. -/
theorem list_array {a : Argument} {p : Bool} {inner : Bytes} (hcount : a.value < kUnknownCount)
    (hinner : Items kUnknownCount p a.value inner) (rest : Bytes) (r : ℕ) :
    (reading (Cbor.head .array a ++ (inner ++ rest)) r).list P =
      (restart P r (.atEnd rest)).bind fun s => .ok (inside a.value (inner ++ rest), s) := by
  have huntagged : Untagged (Cbor.head .array a ++ inner) :=
    ⟨⟨p, .oneArray hcount hinner⟩, .array, a, inner, rfl, by decide⟩
  have hnext := next_untagged (P := P) huntagged rest r
  rw [List.append_assoc] at hnext
  rw [list, isList_array, if_pos rfl, container_items (.inl rfl) hcount hinner rest r, hnext]
  rfl

theorem remaining_inside (count : ℕ) (ptr : Bytes) : (inside count ptr).value.remaining = count := by
  unfold inside
  split_ifs with h
  · exact h.symm
  · rfl

/-- The entries of a map are read once the map has been left behind. -/
theorem map_map {a : Argument} {p : Bool} {inner : Bytes} (hcount : 2 * a.value < kUnknownCount)
    (hinner : Items kUnknownCount p (2 * a.value) inner) (rest : Bytes) (r : ℕ) :
    (reading (Cbor.head .map a ++ (inner ++ rest)) r).map P =
      (restart P r (.atEnd rest)).bind fun s =>
        (entries P (2 * a.value) (inside (2 * a.value) (inner ++ rest)) .empty).bind fun m => .ok (m, s) := by
  have huntagged : Untagged (Cbor.head .map a ++ inner) :=
    ⟨⟨p, .oneMap hcount hinner⟩, .map, a, inner, rfl, by decide⟩
  have hnext := next_untagged (P := P) huntagged rest r
  have htype := peek_head .map a (inner ++ rest) (by simp)
  have hcontainer := container_items (P := P) (m := .map) (.inr rfl) hcount hinner rest r
  rw [List.append_assoc] at hnext
  rw [map]
  simp only [reading, CborValue.type_reading, htype] at hnext hcontainer ⊢
  rw [hnext, hcontainer]
  simp only [bind, Except.bind, containerCount, if_true, remaining_inside]

/-- An item is stepped over with its tags, as the loop of `map` does it. -/
theorem skip_and_advance {p : Bool} {bytes : Bytes} (h : Items kUnknownCount p 1 bytes) (rest : Bytes)
    {r : ℕ} (hr : r + 1 < kUnknownCount) (hrest : r ≠ 0 → Starts rest) :
    ∃ value, P.tinycbor.skipTag (.reading (bytes ++ rest) (r + 1)) = some value ∧
      P.tinycbor.advance value = some (inside r rest).value := by
  obtain ⟨chain, item, others, rfl, hitem, q, hothers⟩ := h.behind_tags
  obtain rfl := hothers.eq_nil
  refine ⟨.reading (item ++ rest) (r + 1), ?_, ?_⟩
  · rw [List.append_nil, List.append_assoc]
    exact P.tinycbor.skipTag_chain _ chain item rest (r + 1) (Nat.succ_ne_zero r) hitem
  · unfold inside
    by_cases h0 : r = 0
    · rw [if_pos h0, h0]
      exact P.tinycbor.advance_last item rest hitem
    · rw [if_neg h0]
      exact P.tinycbor.advance_next item rest r hitem (hrest h0) h0 hr

/-! ## Strings -/

theorem bytesLength_of_type {s : CborDecodeStream} {n : ℕ} (h : s.value.type = some (.bytes, some n)) :
    s.bytesLength = .ok n := by rw [bytesLength, h]

theorem readString_of_type {s : CborDecodeStream} {n : ℕ} (h : s.value.type = some (.text, some n)) :
    s.readString P =
      if P.stringMax < n then .error .lengthError
      else (check (P.tinycbor.copyString { s.value with remaining := 1 })).bind fun str =>
        (s.next P).bind fun s => .ok (str, s) := by
  unfold readString
  split
  · next n' hn' =>
    obtain rfl : n = n' := by simpa using h.symm.trans hn'
    rfl
  · next hn' => exact absurd (h.symm.trans hn') (by simp)
  · next hother _ => exact absurd h (hother n)

theorem readBytes_of_type {s : CborDecodeStream} {n : ℕ} (h : s.value.type = some (.bytes, some n)) :
    s.readBytes P =
      if P.bytesMax < n then .error .lengthError
      else (check (P.tinycbor.copyString { s.value with remaining := 1 })).bind fun data =>
        (s.next P).bind fun s => .ok (data, s) := by
  unfold readBytes readSpan
  rw [bytesLength_of_type h]
  simp only [bind, Except.bind, ne_eq, not_true, if_false]

/-! ## Every read is a `next` -/

theorem bind_ok {α β : Type} {x : Result α} {f : α → Result β} {b : β} (h : x >>= f = .ok b) :
    ∃ a, x = .ok a ∧ f a = .ok b := by
  cases x with
  | error e => cases h
  | ok a => exact ⟨a, rfl, h⟩

theorem ok_inj {α : Type} {a b : α} (h : (.ok a : Result α) = .ok b) : a = b := Except.ok.inj h

/-- Behind what is there, or behind a byte string with the CID tag. -/
def LeftBehind (P : Platform) (s s' : CborDecodeStream) : Prop :=
  s.next P = .ok s' ∨ ∃ value n, s.isCid = true ∧ P.tinycbor.advance s.value = some value ∧
    value.type = some (.bytes, n) ∧ CborDecodeStream.next P ⟨value⟩ = .ok s'

theorem readSpan_next {size : ℕ} {s s' : CborDecodeStream} {data : Bytes}
    (h : s.readSpan P size = .ok (data, s')) : s.next P = .ok s' := by
  obtain ⟨n, -, h⟩ := bind_ok h
  split_ifs at h
  · cases h
  · obtain ⟨data', -, h⟩ := bind_ok h
    obtain ⟨t, ht, h⟩ := bind_ok h
    rw [ht, (Prod.mk.inj (ok_inj h)).2]

theorem readBytes_next {s s' : CborDecodeStream} {data : Bytes} (h : s.readBytes P = .ok (data, s')) :
    s.next P = .ok s' := by
  obtain ⟨n, -, h⟩ := bind_ok h
  split_ifs at h
  exact readSpan_next h

theorem readString_next {s s' : CborDecodeStream} {str : Bytes} (h : s.readString P = .ok (str, s')) :
    s.next P = .ok s' := by
  unfold readString at h
  split at h
  · split_ifs at h
    obtain ⟨str', -, h⟩ := bind_ok h
    obtain ⟨t, ht, h⟩ := bind_ok h
    rw [ht, (Prod.mk.inj (ok_inj h)).2]
  · cases h
  · cases h

theorem readBool_next {s s' : CborDecodeStream} {b : Bool} (h : s.readBool P = .ok (b, s')) :
    s.next P = .ok s' := by
  unfold readBool at h
  split at h
  · obtain ⟨t, ht, h⟩ := bind_ok h
    rw [ht, (Prod.mk.inj (ok_inj h)).2]
  · obtain ⟨t, ht, h⟩ := bind_ok h
    rw [ht, (Prod.mk.inj (ok_inj h)).2]
  · cases h

theorem readUnsigned_next {max n : ℕ} {s s' : CborDecodeStream} (h : s.readUnsigned P max = .ok (n, s')) :
    s.next P = .ok s' := by
  unfold readUnsigned at h
  split at h
  · split_ifs at h
    · cases h
    · obtain ⟨t, ht, h⟩ := bind_ok h
      rw [ht, (Prod.mk.inj (ok_inj h)).2]
  · cases h
  · cases h

theorem readSigned_next {min max n : ℤ} {s s' : CborDecodeStream}
    (h : s.readSigned P min max = .ok (n, s')) : s.next P = .ok s' := by
  have hbounded : ∀ {m : ℤ},
      (if max < m ∨ m < min then raise .intOverflow else do .ok (m, ← s.next P)) =
        (.ok (n, s') : Result (ℤ × CborDecodeStream)) → s.next P = .ok s' := by
    intro m hm
    split_ifs at hm
    · cases hm
    · obtain ⟨t, ht, hm⟩ := bind_ok hm
      rw [ht, (Prod.mk.inj (ok_inj hm)).2]
  unfold readSigned at h
  split at h
  · exact hbounded h
  · exact hbounded h
  · cases h

theorem list_next {s l s' : CborDecodeStream} (h : s.list P = .ok (l, s')) : s.next P = .ok s' := by
  unfold list at h
  split_ifs at h
  · obtain ⟨stream, -, h⟩ := bind_ok h
    obtain ⟨t, ht, h⟩ := bind_ok h
    rw [ht, (Prod.mk.inj (ok_inj h)).2]
  · cases h

theorem map_next {s s' : CborDecodeStream} {m : OrdMap StringKey CborDecodeStream}
    (h : s.map P = .ok (m, s')) : s.next P = .ok s' := by
  unfold map at h
  split at h
  · obtain ⟨stream, -, h⟩ := bind_ok h
    obtain ⟨t, ht, h⟩ := bind_ok h
    obtain ⟨m', -, h⟩ := bind_ok h
    rw [ht, (Prod.mk.inj (ok_inj h)).2]
  · cases h

theorem check_ok {α : Type} {x : Option α} {a : α} (h : check x = .ok a) : x = some a := by
  cases x with
  | none => cases h
  | some b => exact congrArg some (ok_inj h)

theorem readPayload_next {s s' : CborDecodeStream} {c : CID} (h : s.readPayload P = .ok (c, s')) :
    (∃ n, s.value.type = some (.bytes, n)) ∧ s.next P = .ok s' := by
  unfold readPayload at h
  split at h
  · next n hbytes =>
    obtain ⟨⟨data, t⟩, hread, h⟩ := bind_ok h
    have hnext := readBytes_next hread
    cases data with
    | nil => cases h
    | cons b data =>
      simp only at h
      split_ifs at h
      · cases h
      · split at h
        · rw [(Prod.mk.inj (ok_inj h)).2] at hnext
          exact ⟨⟨n, hbytes⟩, hnext⟩
        · cases h
  · cases h

theorem readCid_leftBehind {s s' : CborDecodeStream} {c : CID} (h : s.readCid P = .ok (c, s')) :
    LeftBehind P s s' := by
  unfold readCid at h
  split_ifs at h with hcid
  · obtain ⟨value, hvalue, h⟩ := bind_ok h
    obtain ⟨⟨n, hbytes⟩, hnext⟩ := readPayload_next h
    exact .inr ⟨value, n, hcid, check_ok hvalue, hbytes, hnext⟩
  · cases h

end CborDecodeStream
end IpfsLite.Codec
