import IpfsLite.Foundations.WireFormat

/-! # Scalars, strings and maps in a field sequence

The schema half of a proto3 codec: a singular field that has its default value is not written, a
reader takes the last occurrence, and the fields it does not know are ignored. -/
namespace IpfsLite.Wire
set_option autoImplicit false

/-! ## Writing -/

/-- An `int32` on the wire: sign-extended to 64 bits. -/
def int32Bits (n : ℤ) : ℕ := if n < 0 then (n + 2 ^ 64).toNat else n.toNat

def int32Field (number : ℕ) (n : ℤ) : List Field :=
  if n = 0 then [] else [⟨number, .varint (int32Bits n)⟩]

def boolField (number : ℕ) (b : Bool) : List Field :=
  if b then [⟨number, .varint 1⟩] else []

def bytesField (number : ℕ) (b : Bytes) : List Field :=
  if b = [] then [] else [⟨number, .delimited b⟩]

def mapEntry (number : ℕ) (e : Bytes × Bytes) : Field :=
  message number [⟨1, .delimited e.1⟩, ⟨2, .delimited e.2⟩]

def mapField (number : ℕ) (es : List (Bytes × Bytes)) : List Field := es.map (mapEntry number)

/-! ## Reading -/

def varintOf (number : ℕ) (f : Field) : Option ℕ :=
  match f.value with
  | .varint n => if f.number = number then some n else none
  | _ => none

def payloadOf (number : ℕ) (f : Field) : Option Bytes :=
  match f.value with
  | .delimited b => if f.number = number then some b else none
  | _ => none

def lastVarint (number : ℕ) (fs : List Field) : ℕ := (fs.filterMap (varintOf number)).getLastD 0

def payloads (number : ℕ) (fs : List Field) : List Bytes := fs.filterMap (payloadOf number)

def lastPayload (number : ℕ) (fs : List Field) : Bytes := (payloads number fs).getLastD []

/-- The low 32 bits as a signed number. -/
def int32OfBits (n : ℕ) : ℤ :=
  if n % 2 ^ 32 < 2 ^ 31 then (n % 2 ^ 32 : ℕ) else (n % 2 ^ 32 : ℕ) - 2 ^ 32

def readInt32 (number : ℕ) (fs : List Field) : ℤ := int32OfBits (lastVarint number fs)

def readBool (number : ℕ) (fs : List Field) : Bool := lastVarint number fs ≠ 0

def validUtf8 (b : Bytes) : Bool := (ByteArray.mk b.toArray).validateUTF8

/-- `(*map)[key] = value`. -/
def assign (es : List (Bytes × Bytes)) (e : Bytes × Bytes) : List (Bytes × Bytes) :=
  if es.any fun x => x.1 = e.1 then es.map fun x => if x.1 = e.1 then e else x else es ++ [e]

/-- An entry of a `map<string, bytes>`: the key must be valid UTF-8. -/
def readEntry (payload : Bytes) : Option (Bytes × Bytes) := do
  let fs ← readFields payload
  if validUtf8 (lastPayload 1 fs) then some (lastPayload 1 fs, lastPayload 2 fs) else none

def readMap (number : ℕ) (fs : List Field) : Option (List (Bytes × Bytes)) :=
  (payloads number fs).foldlM (fun es payload => (readEntry payload).map (assign es)) []

/-! ## Round trip -/

def IsInt32 (n : ℤ) : Prop := -2 ^ 31 ≤ n ∧ n < 2 ^ 31

instance (n : ℤ) : Decidable (IsInt32 n) := inferInstanceAs (Decidable (_ ∧ _))

theorem int32Bits_lt {n : ℤ} (h : IsInt32 n) : int32Bits n < 2 ^ 64 := by
  obtain ⟨hlo, hhi⟩ := h
  unfold int32Bits
  by_cases hn : n < 0
  · rw [if_pos hn]
    omega
  · rw [if_neg hn]
    omega

theorem int32OfBits_int32Bits {n : ℤ} (h : IsInt32 n) : int32OfBits (int32Bits n) = n := by
  obtain ⟨hlo, hhi⟩ := h
  unfold int32OfBits int32Bits
  by_cases hn : n < 0
  · have hmod : (n + 2 ^ 64).toNat % 2 ^ 32 = (n + 2 ^ 32).toNat := by omega
    rw [if_pos hn, hmod, if_neg (by omega)]
    omega
  · have hmod : n.toNat % 2 ^ 32 = n.toNat := by omega
    rw [if_neg hn, hmod, if_pos (by omega)]
    omega

section
variable (number m : ℕ) (n : ℤ) (b : Bytes) (t : Bool) (es : List (Bytes × Bytes))

@[simp] theorem varints_int32Field :
    (int32Field m n).filterMap (varintOf number) =
      if m = number ∧ n ≠ 0 then [int32Bits n] else [] := by
  by_cases hn : n = 0
  · simp [int32Field, hn]
  · by_cases hm : m = number
    · simp [int32Field, varintOf, hn, hm]
    · simp [int32Field, varintOf, hn, hm]

@[simp] theorem varints_boolField :
    (boolField m t).filterMap (varintOf number) =
      if m = number ∧ t = true then [1] else [] := by
  cases t with
  | false => simp [boolField]
  | true =>
    by_cases hm : m = number
    · simp [boolField, varintOf, hm]
    · simp [boolField, varintOf, hm]

@[simp] theorem varints_bytesField : (bytesField m b).filterMap (varintOf number) = [] := by
  by_cases hb : b = []
  · simp [bytesField, hb]
  · simp [bytesField, varintOf, hb]

@[simp] theorem varintOf_message (fs : List Field) : varintOf number (message m fs) = none := rfl

@[simp] theorem varints_mapField : (mapField m es).filterMap (varintOf number) = [] := by
  simp [mapField, mapEntry, List.filterMap_map, message, varintOf, Function.comp_def]

@[simp] theorem payloads_append (fs gs : List Field) :
    payloads number (fs ++ gs) = payloads number fs ++ payloads number gs := List.filterMap_append

@[simp] theorem payloads_int32Field : payloads number (int32Field m n) = [] := by
  by_cases hn : n = 0
  · simp [payloads, int32Field, hn]
  · simp [payloads, int32Field, payloadOf, hn]

@[simp] theorem payloads_boolField : payloads number (boolField m t) = [] := by
  cases t <;> simp [payloads, boolField, payloadOf]

@[simp] theorem payloads_bytesField :
    payloads number (bytesField m b) = if m = number ∧ b ≠ [] then [b] else [] := by
  by_cases hb : b = []
  · simp [payloads, bytesField, hb]
  · by_cases hm : m = number
    · simp [payloads, bytesField, payloadOf, hb, hm]
    · simp [payloads, bytesField, payloadOf, hb, hm]

@[simp] theorem payloads_messages {α : Type} (f : α → List Field) (xs : List α) :
    payloads number (xs.map fun x => message m (f x)) =
      if m = number then xs.map fun x => encodeFields (f x) else [] := by
  by_cases hm : m = number
  · simp [payloads, List.filterMap_map, message, payloadOf, Function.comp_def, hm]
  · simp [payloads, List.filterMap_map, message, payloadOf, Function.comp_def, hm]

end

theorem readInt32_of_varints {number : ℕ} {n : ℤ} {fs : List Field} (h : IsInt32 n)
    (hfs : fs.filterMap (varintOf number) = if n ≠ 0 then [int32Bits n] else []) :
    readInt32 number fs = n := by
  rw [readInt32, lastVarint, hfs]
  by_cases hn : n = 0
  · rw [hn]
    decide
  · rw [if_pos hn]
    exact int32OfBits_int32Bits h

theorem readBool_of_varints {number : ℕ} {b : Bool} {fs : List Field}
    (hfs : fs.filterMap (varintOf number) = if b = true then [1] else []) :
    readBool number fs = b := by
  rw [readBool, lastVarint, hfs]
  cases b <;> rfl

theorem lastPayload_of_payloads {number : ℕ} {b : Bytes} {fs : List Field}
    (hfs : payloads number fs = if b ≠ [] then [b] else []) : lastPayload number fs = b := by
  rw [lastPayload, hfs]
  by_cases hb : b = []
  · rw [if_neg (not_not.mpr hb), hb]
    rfl
  · rw [if_pos hb]
    rfl

theorem payloads_mapField (number m : ℕ) (es : List (Bytes × Bytes)) :
    payloads number (mapField m es) =
      if m = number then es.map fun e => encodeFields [⟨1, .delimited e.1⟩, ⟨2, .delimited e.2⟩]
      else [] := payloads_messages number m _ es

/-! ## Sizes -/

def int32Size (number : ℕ) (n : ℤ) : ℕ :=
  if n = 0 then 0 else varintSize (number * 8) + varintSize (int32Bits n)

def bytesSize (number len : ℕ) : ℕ := if len = 0 then 0 else delimitedSize number len

def mapEntrySize (number : ℕ) (e : Bytes × Bytes) : ℕ :=
  delimitedSize number (delimitedSize 1 e.1.length + delimitedSize 2 e.2.length)

@[simp] theorem int32Field_length (number : ℕ) (n : ℤ) :
    (encodeFields (int32Field number n)).length = int32Size number n := by
  by_cases hn : n = 0
  · simp [int32Field, int32Size, hn]
  · simp [int32Field, int32Size, hn, encode_varint_length]

@[simp] theorem bytesField_length (number : ℕ) (b : Bytes) :
    (encodeFields (bytesField number b)).length = bytesSize number b.length := by
  by_cases hb : b = []
  · simp [bytesField, bytesSize, hb]
  · simp [bytesField, bytesSize, hb, encode_delimited_length]

@[simp] theorem mapField_length (number : ℕ) (es : List (Bytes × Bytes)) :
    (encodeFields (mapField number es)).length = (es.map (mapEntrySize number)).sum := by
  induction es with
  | nil => rfl
  | cons e es ih =>
    rw [mapField, List.map_cons, encodeFields_cons, List.length_append, List.map_cons, List.sum_cons,
      ← mapField, ih]
    simp [mapEntry, message, mapEntrySize, encode_delimited_length]

/-! ## Legal fields -/

theorem int32Field_legal {number : ℕ} (hpos : 0 < number) (hlt : number < 2 ^ 29) {n : ℤ}
    (h : IsInt32 n) : ∀ f ∈ int32Field number n, f.Legal := by
  intro f hf
  by_cases hn : n = 0
  · simp [int32Field, hn] at hf
  · simp only [int32Field, hn, if_false, List.mem_singleton] at hf
    exact hf ▸ ⟨hpos, hlt, int32Bits_lt h⟩

theorem boolField_legal {number : ℕ} (hpos : 0 < number) (hlt : number < 2 ^ 29) (b : Bool) :
    ∀ f ∈ boolField number b, f.Legal := by
  intro f hf
  cases b with
  | false => simp [boolField] at hf
  | true =>
    simp only [boolField, if_true, List.mem_singleton] at hf
    exact hf ▸ ⟨hpos, hlt, Nat.one_lt_two_pow (by decide)⟩

theorem bytesField_legal {number : ℕ} (hpos : 0 < number) (hlt : number < 2 ^ 29) (b : Bytes) :
    ∀ f ∈ bytesField number b, f.Legal := by
  intro f hf
  by_cases hb : b = []
  · simp [bytesField, hb] at hf
  · simp only [bytesField, hb, if_false, List.mem_singleton] at hf
    exact hf ▸ ⟨hpos, hlt, trivial⟩

theorem messages_legal {number : ℕ} (hpos : 0 < number) (hlt : number < 2 ^ 29) {α : Type}
    (g : α → List Field) (xs : List α) : ∀ f ∈ xs.map fun x => message number (g x), f.Legal := by
  intro f hf
  obtain ⟨x, -, rfl⟩ := List.mem_map.mp hf
  exact ⟨hpos, hlt, trivial⟩

theorem mapField_legal {number : ℕ} (hpos : 0 < number) (hlt : number < 2 ^ 29)
    (es : List (Bytes × Bytes)) : ∀ f ∈ mapField number es, f.Legal :=
  messages_legal hpos hlt _ es

/-! ## Maps -/

/-- What a `map<string, bytes>` of a writer holds. -/
structure MapOk (es : List (Bytes × Bytes)) : Prop where
  nodup : (es.map Prod.fst).Nodup
  utf8 : ∀ e ∈ es, validUtf8 e.1 = true

theorem readEntry_encode {e : Bytes × Bytes} (hutf : validUtf8 e.1 = true)
    (hsmall : (encodeFields [⟨1, .delimited e.1⟩, ⟨2, .delimited e.2⟩]).length < 2 ^ 31) :
    readEntry (encodeFields [⟨1, .delimited e.1⟩, ⟨2, .delimited e.2⟩]) = some e := by
  have hlegal : ∀ f ∈ [(⟨1, .delimited e.1⟩ : Field), ⟨2, .delimited e.2⟩], f.Legal := by
    intro f hf
    rcases List.mem_pair.mp hf with rfl | rfl
    · exact ⟨Nat.one_pos, Nat.one_lt_two_pow (by decide), trivial⟩
    · exact ⟨Nat.two_pos, show 2 < 2 ^ 29 by decide, trivial⟩
  have hkey : lastPayload 1 [⟨1, .delimited e.1⟩, ⟨2, .delimited e.2⟩] = e.1 := rfl
  have hvalue : lastPayload 2 [⟨1, .delimited e.1⟩, ⟨2, .delimited e.2⟩] = e.2 := rfl
  rw [readEntry, readFields_of_small hlegal hsmall]
  simp only [Option.bind_eq_bind, Option.bind_some, hkey, hvalue, hutf, if_true]

theorem assign_of_new {es : List (Bytes × Bytes)} {e : Bytes × Bytes}
    (h : e.1 ∉ es.map Prod.fst) : assign es e = es ++ [e] := by
  rw [assign, if_neg]
  simpa [List.mem_map] using h

theorem readMap_of_payloads {number : ℕ} {fs : List Field} {es : List (Bytes × Bytes)}
    (h : MapOk es)
    (hfs : payloads number fs =
      es.map fun e => encodeFields [⟨1, .delimited e.1⟩, ⟨2, .delimited e.2⟩])
    (hsmall : ∀ b ∈ payloads number fs, b.length < 2 ^ 31) : readMap number fs = some es := by
  have hfold : ∀ pre post, pre ++ post = es →
      (post.map fun e => encodeFields [⟨1, .delimited e.1⟩, ⟨2, .delimited e.2⟩]).foldlM
        (fun es payload => (readEntry payload).map (assign es)) pre = some es := by
    intro pre post hes
    induction post generalizing pre with
    | nil => simpa using hes
    | cons e post ih =>
      have hmem : e ∈ es := by simp [← hes]
      have hlen := hsmall _ (hfs ▸ List.mem_map_of_mem hmem)
      have hnew : e.1 ∉ pre.map Prod.fst := by
        have hnodup := h.nodup
        rw [← hes, List.map_append, List.map_cons, List.nodup_middle, List.nodup_cons] at hnodup
        exact fun hin => hnodup.1 (List.mem_append_left _ hin)
      simp only [List.map_cons, List.foldlM_cons, readEntry_encode (h.utf8 e hmem) hlen,
        Option.map_some, Option.bind_eq_bind, Option.bind_some, assign_of_new hnew]
      exact ih (pre ++ [e]) (by simpa using hes)
  rw [readMap, hfs]
  exact hfold [] es rfl

/-! ## What is read -/

theorem isInt32_int32OfBits (n : ℕ) : IsInt32 (int32OfBits n) := by
  unfold int32OfBits IsInt32
  have hlt : n % 2 ^ 32 < 2 ^ 32 := Nat.mod_lt _ (by decide)
  split_ifs <;> omega

theorem MapOk.assign {es : List (Bytes × Bytes)} (h : MapOk es) {e : Bytes × Bytes} (he : validUtf8 e.1 = true) :
    MapOk (assign es e) := by
  unfold Wire.assign
  split_ifs with hany
  · have hkeys : (es.map fun x => if x.1 = e.1 then e else x).map Prod.fst = es.map Prod.fst := by
      rw [List.map_map]
      refine List.map_congr_left fun x _ => ?_
      by_cases hx : x.1 = e.1
      · simp [hx]
      · simp [hx]
    refine ⟨hkeys ▸ h.nodup, fun y hy => ?_⟩
    obtain ⟨x, hx, rfl⟩ := List.mem_map.mp hy
    split_ifs
    · exact he
    · exact h.utf8 x hx
  · have hnew : e.1 ∉ es.map Prod.fst := by
      intro hmem
      obtain ⟨x, hx, heq⟩ := List.mem_map.mp hmem
      exact hany (List.any_eq_true.mpr ⟨x, hx, decide_eq_true heq⟩)
    refine ⟨?_, List.forall_mem_append.mpr ⟨h.utf8, List.forall_mem_singleton.mpr he⟩⟩
    rw [List.map_append, List.map_singleton]
    exact List.nodup_append.mpr ⟨h.nodup, List.nodup_singleton _, fun a ha b hb hab =>
      hnew (List.mem_singleton.mp hb ▸ hab ▸ ha)⟩

theorem readEntry_utf8 {payload : Bytes} {e : Bytes × Bytes} (h : readEntry payload = some e) :
    validUtf8 e.1 = true := by
  obtain ⟨fs, -, h⟩ := Option.bind_eq_some_iff.mp h
  split_ifs at h with hutf
  rw [← Option.some.inj h]
  exact hutf

/-- A map that was read has distinct keys, which are text. -/
theorem readMap_ok {number : ℕ} {fs : List Field} {es : List (Bytes × Bytes)} (h : readMap number fs = some es) :
    MapOk es := by
  have hfold : ∀ (rest : List Bytes) (acc : List (Bytes × Bytes)), MapOk acc →
      rest.foldlM (fun es payload => (readEntry payload).map (assign es)) acc = some es → MapOk es := by
    intro rest
    induction rest with
    | nil =>
      intro acc hacc hread
      rw [← Option.some.inj hread]
      exact hacc
    | cons payload rest ih =>
      intro acc hacc hread
      rw [List.foldlM_cons] at hread
      obtain ⟨acc', hfirst, hread⟩ := Option.bind_eq_some_iff.mp hread
      obtain ⟨e, he, rfl⟩ := Option.map_eq_some_iff.mp hfirst
      exact ih _ (hacc.assign (readEntry_utf8 he)) hread
  exact hfold _ [] ⟨List.nodup_nil, fun _ he => (List.not_mem_nil he).elim⟩ h

end IpfsLite.Wire
