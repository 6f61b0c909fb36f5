import IpfsLite.Foundations.AssocMap
import IpfsLite.Foundations.Runs
import IpfsLite.Primitives.Cid

/-! # The two datastores

`InMemoryDatastore` keeps blocks and seals in two maps keyed by the CID; `RocksdbDatastore` keeps both
in the one key space of rocksdb, a block under the bytes of its CID and a seal under its text and
`sealed`. Here rocksdb is a total map of byte strings that has no I/O errors, and the text of a CID is
a parameter: it is libp2p's. -/
namespace IpfsLite
set_option autoImplicit false

/-- `ContentIdentifierCodec::toString`: base58 or base32 text, no two CIDs have the same. -/
structure CidText where
  toString : CID → Option Bytes
  inj : ∀ c c' s, toString c = some s → toString c' = some s → c = c'
  printable : ∀ c s, toString c = some s → ∀ b ∈ s, 0x20 ≤ b

/-- Both encodings of the CID succeed. -/
def CidText.Encodable (T : CidText) (c : CID) : Prop :=
  c.toBytes.isSome = true ∧ (T.toString c).isSome = true

instance (T : CidText) (c : CID) : Decidable (T.Encodable c) := inferInstanceAs (Decidable (_ ∧ _))

namespace Datastore

inductive RocksdbError where
  | ok
  | notFound
  | corruption
  | notSupported
  | invalidArgument
  | ioError
  | unknown
  deriving DecidableEq, Repr

inductive Error where
  /-- `IpfsDatastoreError::NOT_FOUND` -/
  | notFound
  | rocksdb (e : RocksdbError)
  /-- an error of `ContentIdentifierCodec` -/
  | encoding
  deriving DecidableEq, Repr

/-- The calls of `IpfsDatastore`; `seal` is a keyword here. -/
inductive Call where
  | set (key : CID) (value : Bytes)
  | get (key : CID)
  | contains (key : CID)
  | remove (key : CID)
  | sealBranch (key : CID)
  | isSealed (key : CID)

def Call.key : Call → CID
  | .set c _ | .get c | .contains c | .remove c | .sealBranch c | .isSealed c => c

inductive Answer where
  | unit (r : Except Error Unit)
  | value (r : Except Error Bytes)
  | bool (r : Except Error Bool)
  deriving DecidableEq

/-! ## `InMemoryDatastore` -/

structure InMemory where
  storage : AssocMap CID Bytes
  seals : AssocMap CID Bytes

namespace InMemory

def empty : InMemory := ⟨.empty, .empty⟩

def contains (s : InMemory) (key : CID) : Bool := s.storage.contains key

def set (s : InMemory) (key : CID) (value : Bytes) : InMemory :=
  { s with storage := s.storage.insert key value }

def sealBranch (s : InMemory) (key : CID) : InMemory := { s with seals := s.seals.insert key [] }

def isSealed (s : InMemory) (key : CID) : Bool := s.seals.contains key

def get (s : InMemory) (key : CID) : Except Error Bytes :=
  match s.storage.find? key with
  | some v => .ok v
  | none => .error .notFound

def remove (s : InMemory) (key : CID) : InMemory := { s with storage := s.storage.erase key }

def call (s : InMemory) : Call → Answer × InMemory
  | .set key value => (.unit (.ok ()), s.set key value)
  | .get key => (.value (s.get key), s)
  | .contains key => (.bool (.ok (s.contains key)), s)
  | .remove key => (.unit (.ok ()), s.remove key)
  | .sealBranch key => (.unit (.ok ()), s.sealBranch key)
  | .isSealed key => (.bool (.ok (s.isSealed key)), s)

end InMemory

/-! ## `rocksdb` -/

namespace Rocksdb

abbrev DB := AssocMap Bytes Bytes

def get (db : DB) (key : Bytes) : Except RocksdbError Bytes :=
  match db.find? key with
  | some v => .ok v
  | none => .error .notFound

/-- Every error is taken for a missing key. -/
def contains (db : DB) (key : Bytes) : Bool :=
  match get db key with
  | .ok _ => true
  | .error _ => false

theorem contains_eq (db : DB) (key : Bytes) : contains db key = (db.find? key).isSome := by
  rw [contains, get]
  cases db.find? key <;> rfl

end Rocksdb

/-! ## `RocksdbDatastore` -/

/-- The text `sealed`. -/
def sealedSuffix : Bytes := [0x73, 0x65, 0x61, 0x6c, 0x65, 0x64]

def encode (value : CID) : Except Error Bytes :=
  match value.toBytes with
  | some d => .ok d
  | none => .error .encoding

def sealKey (T : CidText) (key : CID) : Except Error Bytes :=
  match T.toString key with
  | some s => .ok (s ++ sealedSuffix)
  | none => .error .encoding

structure RocksdbStore where
  db : Rocksdb.DB

namespace RocksdbStore
variable (T : CidText)

def empty : RocksdbStore := ⟨.empty⟩

def contains (s : RocksdbStore) (key : CID) : Except Error Bool :=
  (encode key).map fun encoded => Rocksdb.contains s.db encoded

def set (s : RocksdbStore) (key : CID) (value : Bytes) : Except Error RocksdbStore :=
  (encode key).map fun encoded => ⟨s.db.insert encoded value⟩

def sealBranch (s : RocksdbStore) (key : CID) : Except Error RocksdbStore :=
  (sealKey T key).map fun keyBuf => ⟨s.db.insert keyBuf []⟩

def isSealed (s : RocksdbStore) (key : CID) : Except Error Bool :=
  (sealKey T key).map fun keyBuf => Rocksdb.contains s.db keyBuf

def get (s : RocksdbStore) (key : CID) : Except Error Bytes := do
  let encoded ← encode key
  match Rocksdb.get s.db encoded with
  | .ok v => .ok v
  | .error e => .error (if e = .notFound then .notFound else .rocksdb e)

def remove (s : RocksdbStore) (key : CID) : Except Error RocksdbStore :=
  (encode key).map fun encoded => ⟨s.db.erase encoded⟩

/-- A call that fails leaves the store as it was. -/
def commit (s : RocksdbStore) : Except Error RocksdbStore → Answer × RocksdbStore
  | .ok s' => (.unit (.ok ()), s')
  | .error e => (.unit (.error e), s)

def call (s : RocksdbStore) : Call → Answer × RocksdbStore
  | .set key value => s.commit (s.set key value)
  | .get key => (.value (s.get key), s)
  | .contains key => (.bool (s.contains key), s)
  | .remove key => s.commit (s.remove key)
  | .sealBranch key => s.commit (s.sealBranch T key)
  | .isSealed key => (.bool (s.isSealed T key), s)

end RocksdbStore
/-! ## The shared key space -/

/-- A block key starts with a control byte, a seal key with a printable one. -/
theorem keys_disjoint (T : CidText) {c c' : CID} {d s : Bytes} (hd : c.toBytes = some d)
    (hs : T.toString c' = some s) : d ≠ s ++ sealedSuffix := by
  rintro rfl
  obtain ⟨rest, hrest⟩ := CID.toBytes_head hd
  have hsuffix : ∀ b ∈ sealedSuffix, (0x20 : UInt8) ≤ b := by simp [sealedSuffix]
  have hall : ∀ b ∈ s ++ sealedSuffix, (0x20 : UInt8) ≤ b := by
    intro b hb
    rcases List.mem_append.mp hb with hb | hb
    · exact T.printable c' s hs b hb
    · exact hsuffix b hb
  rcases hrest with h | h
  · exact absurd (hall 1 (h ▸ List.mem_cons_self)) (by decide)
  · exact absurd (hall 0x12 (h ▸ List.mem_cons_self)) (by decide)

theorem block_key_eq_iff {c c' : CID} {d d' : Bytes} (hd : c.toBytes = some d)
    (hd' : c'.toBytes = some d') : d = d' ↔ c = c' := by
  constructor
  · rintro rfl
    exact CID.toBytes_inj hd hd'
  · rintro rfl
    exact Option.some.inj (hd.symm.trans hd')

theorem seal_key_eq_iff (T : CidText) {c c' : CID} {s s' : Bytes} (hs : T.toString c = some s)
    (hs' : T.toString c' = some s') : s ++ sealedSuffix = s' ++ sealedSuffix ↔ c = c' := by
  rw [List.append_left_inj]
  constructor
  · rintro rfl
    exact T.inj c c' s hs hs'
  · rintro rfl
    exact Option.some.inj (hs.symm.trans hs')

/-- What the two stores have in common: a block is under the bytes of its CID, a seal under the text. -/
structure Same (T : CidText) (r : RocksdbStore) (m : InMemory) : Prop where
  blocks : ∀ c d, c.toBytes = some d → r.db.find? d = m.storage.find? c
  seals : ∀ c s, T.toString c = some s → r.db.find? (s ++ sealedSuffix) = m.seals.find? c

namespace Same
variable {T : CidText} {r : RocksdbStore} {m : InMemory} {c : CID} {d s : Bytes}

theorem init (T : CidText) : Same T .empty .empty := ⟨fun _ _ _ => rfl, fun _ _ _ => rfl⟩

theorem set (h : Same T r m) (hd : c.toBytes = some d) (value : Bytes) :
    Same T ⟨r.db.insert d value⟩ (m.set c value) where
  blocks := by
    intro c' d' hd'
    simp only [InMemory.set, AssocMap.find?_insert, block_key_eq_iff hd' hd, h.blocks c' d' hd']
  seals := by
    intro c' s' hs'
    rw [AssocMap.find?_insert, if_neg (keys_disjoint T hd hs').symm]
    exact h.seals c' s' hs'

theorem remove (h : Same T r m) (hd : c.toBytes = some d) :
    Same T ⟨r.db.erase d⟩ (m.remove c) where
  blocks := by
    intro c' d' hd'
    simp only [InMemory.remove, AssocMap.find?_erase, block_key_eq_iff hd' hd, h.blocks c' d' hd']
  seals := by
    intro c' s' hs'
    rw [AssocMap.find?_erase, if_neg (keys_disjoint T hd hs').symm]
    exact h.seals c' s' hs'

theorem sealBranch (h : Same T r m) (hs : T.toString c = some s) :
    Same T ⟨r.db.insert (s ++ sealedSuffix) []⟩ (m.sealBranch c) where
  blocks := by
    intro c' d' hd'
    rw [AssocMap.find?_insert, if_neg (keys_disjoint T hd' hs)]
    exact h.blocks c' d' hd'
  seals := by
    intro c' s' hs'
    simp only [InMemory.sealBranch, AssocMap.find?_insert, seal_key_eq_iff T hs' hs, h.seals c' s' hs']

/-- One call on an encodable CID: the same answer, and the stores stay the same. -/
theorem call (h : Same T r m) (a : Call) (ha : T.Encodable a.key) :
    (r.call T a).1 = (m.call a).1 ∧ Same T (r.call T a).2 (m.call a).2 := by
  obtain ⟨hbytes, htext⟩ := ha
  obtain ⟨d, hd⟩ := Option.isSome_iff_exists.mp hbytes
  obtain ⟨s, hs⟩ := Option.isSome_iff_exists.mp htext
  have hencode : encode a.key = .ok d := by rw [encode, hd]
  have hseal : sealKey T a.key = .ok (s ++ sealedSuffix) := by rw [sealKey, hs]
  cases a with
  | set key value =>
    rw [RocksdbStore.call, RocksdbStore.set, show encode key = .ok d from hencode]
    exact ⟨rfl, h.set hd value⟩
  | get key =>
    refine ⟨?_, h⟩
    rw [RocksdbStore.call, InMemory.call, RocksdbStore.get, show encode key = .ok d from hencode,
      InMemory.get, ← h.blocks key d hd]
    cases hfind : r.db.find? d with
    | none => simp [bind, Except.bind, Rocksdb.get, hfind]
    | some v => simp [bind, Except.bind, Rocksdb.get, hfind]
  | contains key =>
    refine ⟨?_, h⟩
    rw [RocksdbStore.call, InMemory.call, RocksdbStore.contains, show encode key = .ok d from hencode,
      InMemory.contains, AssocMap.contains, ← h.blocks key d hd, ← Rocksdb.contains_eq]
    rfl
  | remove key =>
    rw [RocksdbStore.call, RocksdbStore.remove, show encode key = .ok d from hencode]
    exact ⟨rfl, h.remove hd⟩
  | sealBranch key =>
    rw [RocksdbStore.call, RocksdbStore.sealBranch,
      show sealKey T key = .ok (s ++ sealedSuffix) from hseal]
    exact ⟨rfl, h.sealBranch hs⟩
  | isSealed key =>
    refine ⟨?_, h⟩
    rw [RocksdbStore.call, InMemory.call, RocksdbStore.isSealed,
      show sealKey T key = .ok (s ++ sealedSuffix) from hseal, InMemory.isSealed, AssocMap.contains,
      ← h.seals key s hs, ← Rocksdb.contains_eq]
    rfl

end Same

/-- **Both datastores answer every run of calls alike**, and no block key is a seal key. -/
theorem datastores_agree (T : CidText) (calls : List Call) (h : ∀ a ∈ calls, T.Encodable a.key) :
    Runs.answers (RocksdbStore.call T) .empty calls = Runs.answers InMemory.call .empty calls ∧
      ∀ (c c' : CID) (d s : Bytes), c.toBytes = some d → T.toString c' = some s → d ≠ s ++ sealedSuffix :=
  ⟨Runs.answers_eq (Same T) (fun _ _ a hsame ha => hsame.call a ha) (.init T) h,
    fun _ _ _ _ hd hs => keys_disjoint T hd hs⟩

/-! Two raw blocks that hold no data, with the base32 text of their CIDs; every other CID stands in
hexadecimal behind its own multibase letter. -/

theorem no_bytes_bounded : ([] : Bytes).length ≤ kMaxHashLength := by decide

def emptyRaw : CID := ⟨.v1, 0x55, ⟨0, [], no_bytes_bounded⟩⟩
def emptyDagCbor : CID := ⟨.v1, Multicodec.dagCbor, ⟨0, [], no_bytes_bounded⟩⟩

def hexDigit (n : UInt8) : UInt8 := if n < 10 then 0x30 + n else 0x57 + n

def hexText (d : Bytes) : Bytes := d.flatMap fun b => [hexDigit (b / 16), hexDigit (b % 16)]

/-- `bafkqaaa`, `bafyqaaa` and `f` with the hexadecimal bytes. -/
def sampleString (c : CID) : Option Bytes :=
  if c = emptyRaw then some [0x62, 0x61, 0x66, 0x6b, 0x71, 0x61, 0x61, 0x61]
  else if c = emptyDagCbor then some [0x62, 0x61, 0x66, 0x79, 0x71, 0x61, 0x61, 0x61]
  else c.toBytes.map fun d => 0x66 :: hexText d

def fromHexDigit (n : UInt8) : UInt8 := if n < 0x40 then n - 0x30 else n - 0x57

theorem hexText_inj : Function.Injective hexText := by
  have hbyte : ∀ a : UInt8, fromHexDigit (hexDigit (a / 16)) * 16 + fromHexDigit (hexDigit (a % 16)) = a := by
    decide +kernel
  intro d
  induction d with
  | nil =>
    intro d' h
    cases d' with
    | nil => rfl
    | cons b d' => exact absurd h (by simp [hexText])
  | cons a d ih =>
    intro d' h
    cases d' with
    | nil => exact absurd h (by simp [hexText])
    | cons b d' =>
      simp only [hexText, List.flatMap_cons, List.cons_append, List.nil_append, List.cons.injEq] at h
      rw [← hbyte a, h.1, h.2.1, hbyte b, ih h.2.2]

theorem hexText_printable (d : Bytes) : ∀ b ∈ hexText d, 0x20 ≤ b := by
  have hdigit : ∀ a : UInt8, 0x20 ≤ hexDigit (a / 16) ∧ 0x20 ≤ hexDigit (a % 16) := by decide +kernel
  intro b hb
  obtain ⟨a, -, hb⟩ := List.mem_flatMap.mp hb
  rcases List.mem_cons.mp hb with rfl | hb
  · exact (hdigit a).1
  · rw [List.mem_singleton.mp hb]
    exact (hdigit a).2

theorem sampleString_cases {c : CID} {s : Bytes} (h : sampleString c = some s) :
    (c = emptyRaw ∧ s = [0x62, 0x61, 0x66, 0x6b, 0x71, 0x61, 0x61, 0x61]) ∨
    (c = emptyDagCbor ∧ s = [0x62, 0x61, 0x66, 0x79, 0x71, 0x61, 0x61, 0x61]) ∨
    ∃ d, c.toBytes = some d ∧ s = 0x66 :: hexText d := by
  unfold sampleString at h
  by_cases hraw : c = emptyRaw
  · rw [if_pos hraw, Option.some.injEq] at h
    exact .inl ⟨hraw, h.symm⟩
  rw [if_neg hraw] at h
  by_cases hcbor : c = emptyDagCbor
  · rw [if_pos hcbor, Option.some.injEq] at h
    exact .inr (.inl ⟨hcbor, h.symm⟩)
  rw [if_neg hcbor] at h
  obtain ⟨d, hd, rfl⟩ := Option.map_eq_some_iff.mp h
  exact .inr (.inr ⟨d, hd, rfl⟩)

def sampleText : CidText where
  toString := sampleString
  inj := by
    intro c c' s h h'
    obtain ⟨rfl, rfl⟩ | ⟨rfl, rfl⟩ | ⟨d, hd, rfl⟩ := sampleString_cases h
    · obtain ⟨rfl, -⟩ | ⟨-, hs⟩ | ⟨d', -, hs⟩ := sampleString_cases h'
      · rfl
      · simp at hs
      · simp at hs
    · obtain ⟨-, hs⟩ | ⟨rfl, -⟩ | ⟨d', -, hs⟩ := sampleString_cases h'
      · simp at hs
      · rfl
      · simp at hs
    · obtain ⟨-, hs⟩ | ⟨-, hs⟩ | ⟨d', hd', hs⟩ := sampleString_cases h'
      · simp at hs
      · simp at hs
      · rw [List.cons.injEq] at hs
        exact CID.toBytes_inj hd (hexText_inj hs.2 ▸ hd')
  printable := by
    intro c s h b hb
    obtain ⟨-, rfl⟩ | ⟨-, rfl⟩ | ⟨d, -, rfl⟩ := sampleString_cases h
    · revert b
      simp
    · revert b
      simp
    · rcases List.mem_cons.mp hb with rfl | hb
      · decide
      · exact hexText_printable d b hb

/-- An empty block is set, sealed, read, removed and read again; its seal stays, the other has none. -/
theorem empty_block_agrees :
    let calls : List Call := [.set emptyRaw [], .contains emptyRaw, .sealBranch emptyRaw, .get emptyRaw,
      .remove emptyRaw, .get emptyRaw, .isSealed emptyRaw, .isSealed emptyDagCbor]
    (∀ a ∈ calls, sampleText.Encodable a.key) ∧
      Runs.answers (RocksdbStore.call sampleText) .empty calls =
        Runs.answers InMemory.call .empty calls ∧
      Runs.answers InMemory.call .empty calls =
        [.unit (.ok ()), .bool (.ok true), .unit (.ok ()), .value (.ok []), .unit (.ok ()),
          .value (.error .notFound), .bool (.ok true), .bool (.ok false)] :=
  ⟨by decide, (datastores_agree sampleText _ (by decide)).1, by decide⟩

end Datastore
end IpfsLite
