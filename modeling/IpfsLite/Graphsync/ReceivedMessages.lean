import IpfsLite.Graphsync.Marshalling
import IpfsLite.Primitives.CidReading

/-! # What a received message carries

The CIDs that `parseMessage` builds. A block's CID is not on the wire: it is made of the prefix that is, as
`CID::read` understands it, and of the hash of the data. -/
namespace IpfsLite.Graphsync
set_option autoImplicit false

open CID (Announces Reencodable)
open Fallible
open Varint (Spells)

variable {H : Hasher}

/-! ## A block -/

/-- The two hash types of `IPFSHasher`. -/
def Known (type : UInt64) : Prop := type = HashType.sha256 ∨ type = HashType.blake2b256

theorem calculate_some (H : Hasher) {type : UInt64} (h : Known type) (buffer : Bytes) :
    ∃ m, H.calculate type buffer = some m := by
  have hsha : (H.sha2_256 buffer).length ≤ kMaxHashLength := by rw [H.sha2_256_length]; decide
  have hblake : (H.blake2b_256 buffer).length ≤ kMaxHashLength := by rw [H.blake2b_256_length]; decide
  obtain rfl | rfl := h
  · exact ⟨_, Multihash.create_of_le hsha⟩
  · exact ⟨_, Multihash.create_of_le hblake⟩

theorem calculate_none {type : UInt64} (h : ¬ Known type) (buffer : Bytes) : H.calculate type buffer = none := by
  rw [Known, not_or] at h
  rw [Hasher.calculate, if_neg h.1, if_neg h.2]

theorem known_of_calculate {type : UInt64} {buffer : Bytes} {m : Multihash}
    (h : H.calculate type buffer = some m) : Known type := by
  by_contra hunknown
  rw [calculate_none hunknown] at h
  cases h

/-- The prefix is one announcement; the digest is that of the data, whatever size is announced. -/
theorem parseBlock_ok {src : Pb.Block} {cid : CID} {data : Bytes} : parseBlock H src = .ok (cid, data) ↔
    ∃ size, Announces src.cidPrefix cid.version cid.contentType cid.contentAddress.type size ∧
      size.toNat ≤ kMaxHashLength ∧ H.calculate cid.contentAddress.type data = some cid.contentAddress ∧
      data = src.data := by
  constructor
  · intro h
    unfold parseBlock at h
    split at h
    · cases h
    · next blank rest hread =>
      split_ifs at h with hrest
      split at h
      · cases h
      · next address hhash =>
        obtain ⟨rfl, rfl⟩ := Prod.mk.inj (ok_inj h)
        obtain ⟨⟨fields, hannounces, heq⟩, -⟩ := (CID.read_blank_ok).mp hread
        rw [not_not.mp hrest, List.append_nil] at heq
        obtain ⟨htype, -⟩ := Hasher.calculate_type hhash
        refine ⟨UInt64.ofNat blank.contentAddress.hash.length, ?_, ?_, ?_, rfl⟩
        · rw [heq]
          simp only [htype]
          exact hannounces
        · rw [UInt64.toNat_ofNat_of_lt' blank.contentAddress.length_lt]
          exact blank.contentAddress.bounded
        · simp only [htype]
          exact hhash
  · rintro ⟨size, hannounces, hbounded, hhash, rfl⟩
    have hlength : (List.replicate size.toNat (0 : UInt8)).length = size.toNat := List.length_replicate
    have hread : CID.read src.cidPrefix true = .ok (⟨cid.version, cid.contentType,
        ⟨cid.contentAddress.type, List.replicate size.toNat 0, by rw [hlength]; exact hbounded⟩⟩, []) := by
      refine (CID.read_blank_ok).mpr ⟨⟨src.cidPrefix, ?_, (List.append_nil _).symm⟩, by simp only [hlength]⟩
      simp only [hlength, UInt64.ofNat_toNat]
      exact hannounces
    rw [parseBlock, hread]
    simp only [ne_eq, not_true, if_false, hhash]

theorem digest_length {src : Pb.Block} {block : Block} (h : parseBlock H src = .ok block) :
    block.1.contentAddress.hash.length = 32 := by
  obtain ⟨cid, data⟩ := block
  obtain ⟨-, -, -, hhash, -⟩ := (parseBlock_ok).mp h
  exact (Hasher.calculate_type hhash).2

/-! ## A message -/

theorem parseMessage_ok {bytes : Bytes} {msg : Message} (h : parseMessage H bytes = .ok msg) :
    ∃ pb, Pb.Message.parse bytes = some pb ∧
      List.Forall₂ (fun src r => parseRequest src = .ok r) pb.requests msg.requests ∧
      List.Forall₂ (fun src r => parseResponse src = .ok r) pb.responses msg.responses ∧
      List.Forall₂ (fun src b => parseBlock H src = .ok b) pb.data msg.data := by
  unfold parseMessage at h
  split at h
  · cases h
  · next pb hpb =>
    obtain ⟨requests, hrequests, h⟩ := bind_ok h
    obtain ⟨responses, hresponses, h⟩ := bind_ok h
    obtain ⟨data, hdata, h⟩ := bind_ok h
    obtain rfl := ok_inj h
    exact ⟨pb, hpb, mapM_ok hrequests, mapM_ok hresponses, mapM_ok hdata⟩

/-! ## The CIDs are written again -/

/-- Both of the byte form and the text. -/
def Writable (toString : CID → Option Bytes) (c : CID) : Prop := c.Reencodable ∧ (toString c).isSome = true

/-- The bytes do not announce version 0, if not for a sha2-256 of DAG-PB. -/
def HonestVersion (cidPrefix : Bytes) : Prop :=
  ∀ codec type size, Announces cidPrefix .v0 codec type size → codec = Multicodec.dagPb ∧ type = HashType.sha256

theorem block_reencodable_iff {src : Pb.Block} {block : Block} (h : parseBlock H src = .ok block) :
    block.1.Reencodable ↔ HonestVersion src.cidPrefix := by
  have h32 := digest_length h
  obtain ⟨cid, data⟩ := block
  obtain ⟨size, hannounces, -, -, -⟩ := (parseBlock_ok).mp h
  rw [CID.reencodable_iff]
  constructor
  · intro hbyte codec type size' hannounces'
    obtain ⟨hv, hcodec, htype, -⟩ := hannounces.unique hannounces'
    simp only at hv hcodec htype hbyte
    obtain h1 | ⟨-, hcodec0, htype0, -⟩ := hbyte
    · rw [hv] at h1
      cases h1
    · exact ⟨hcodec ▸ hcodec0, htype ▸ htype0⟩
  · intro hhonest
    cases hv : cid.version with
    | v1 => exact .inl rfl
    | v0 =>
      rw [hv] at hannounces
      obtain ⟨hcodec, htype⟩ := hhonest _ _ _ hannounces
      exact .inr ⟨hv, hcodec, htype, h32⟩

/-- A cancelled request keeps the default CID; any other root is read by libp2p's decoder. -/
theorem root_reencodable_iff {src : Pb.Request} {r : Message.Request} (h : parseRequest src = .ok r) :
    r.rootCid.Reencodable ↔ r.cancel = false := by
  unfold parseRequest at h
  split_ifs at h with hcancel
  · obtain rfl := ok_inj h
    refine iff_of_false ?_ (by simp)
    rw [CID.reencodable_toBytes]
    exact (by decide : ¬ CID.empty.toBytes.isSome = true)
  · split at h
    · cases h
    · next cid hcid =>
      obtain rfl := ok_inj h
      exact iff_of_true (CID.fromBytes_reencodable hcid) rfl

theorem forall₂_mem_iff {α β : Type} {R : α → β → Prop} {p : α → Prop} {q : β → Prop} {xs : List α} {ys : List β}
    (h : List.Forall₂ R xs ys) (hiff : ∀ x y, R x y → (q y ↔ p x)) : (∀ y ∈ ys, q y) ↔ ∀ x ∈ xs, p x := by
  induction h with
  | nil => simp
  | cons hxy _ ih => rw [List.forall_mem_cons, List.forall_mem_cons, hiff _ _ hxy, ih]

theorem forall₂_right {α β : Type} {R : α → β → Prop} {q : β → Prop} {xs : List α} {ys : List β}
    (h : List.Forall₂ R xs ys) (hq : ∀ x y, R x y → q y) : ∀ y ∈ ys, q y :=
  (forall₂_mem_iff (p := fun _ => True) h fun x y hxy => iff_of_true (hq x y hxy) trivial).mpr fun _ _ => trivial

def emptySha : Bytes :=
  [0xe3, 0xb0, 0xc4, 0x42, 0x98, 0xfc, 0x1c, 0x14, 0x9a, 0xfb, 0xf4, 0xc8, 0x99, 0x6f, 0xb9, 0x24,
    0x27, 0xae, 0x41, 0xe4, 0x64, 0x9b, 0x93, 0x4c, 0xa4, 0x95, 0x99, 0x1b, 0x78, 0x52, 0xb8, 0x55]

def emptyBlake : Bytes :=
  [0x0e, 0x57, 0x51, 0xc0, 0x26, 0xe5, 0x43, 0xb2, 0xe8, 0xab, 0x2e, 0xb0, 0x60, 0x99, 0xda, 0xa1,
    0xd1, 0xe5, 0xdf, 0x47, 0x77, 0x8f, 0x77, 0x87, 0xfa, 0xab, 0x45, 0xcd, 0xf1, 0x2f, 0xe3, 0xa8]

theorem emptySha_length : emptySha.length = 32 := by decide
theorem emptyBlake_length : emptyBlake.length = 32 := by decide

def emptyHasher : Hasher where
  sha2_256 _ := emptySha
  blake2b_256 _ := emptyBlake
  sha2_256_length _ := emptySha_length
  blake2b_256_length _ := emptyBlake_length

def base32Digit (n : ℕ) : UInt8 := if n < 26 then UInt8.ofNat (0x61 + n) else UInt8.ofNat (0x18 + n)

/-- The digits of a number, of which so many are asked for. -/
def base32Digits : ℕ → ℕ → Bytes
  | 0, _ => []
  | count + 1, n => base32Digits count (n / 32) ++ [base32Digit (n % 32)]

/-- Lower case and without padding. -/
def base32 (d : Bytes) : Bytes :=
  let count := (8 * d.length + 4) / 5
  base32Digits count (d.foldl (fun n b => 256 * n + b.toNat) 0 * 2 ^ (5 * count - 8 * d.length))

/-- The text of a V1 CID. -/
def base32Text (c : CID) : Option Bytes := c.toBytes.map fun d => 0x62 :: base32 d

theorem base32Text_isSome (c : CID) : (base32Text c).isSome = true ↔ c.toBytes.isSome = true := by
  rw [base32Text, Option.isSome_map]

/-- A request for an empty raw block and the block itself. -/
def sampleMessage : Bytes :=
  [0x12, 0x28, 0x08, 0x01, 0x12, 0x24, 0x01, 0x55, 0x12, 0x20] ++ emptySha ++
    [0x22, 0x06, 0x0a, 0x04, 0x01, 0x55, 0x12, 0x20]

def sampleCid : CID := ⟨.v1, 0x55, ⟨HashType.sha256, emptySha, emptySha_length ▸ by decide⟩⟩

def sampleRequest : Message.Request := ⟨1, sampleCid, [], [], 0, false⟩

/-- The bytes are the shortest spelling of version 1 with a digest of 32 bytes, or a bare sha2-256. -/
def Shortest (cidPrefix : Bytes) : Prop :=
  cidPrefix = [0x12, 0x20] ∨ ∃ codec type : UInt64, cidPrefix =
    Varint.encode 1 ++ Varint.encode codec.toNat ++ (Varint.encode type.toNat ++ Varint.encode 32)

/-- The digest is that of the data, and the CID has the prefix that came. -/
def Certified (H : Hasher) (src : Pb.Block) (block : Block) : Prop :=
  block.2 = src.data ∧ H.calculate block.1.contentAddress.type block.2 = some block.1.contentAddress ∧
    block.1.cidPrefix = src.cidPrefix

/-- Its own prefix announces a CID of version 1. -/
theorem announces_cidPrefix {cid : CID} (hv : cid.version = .v1) : Announces cid.cidPrefix cid.version
    cid.contentType cid.contentAddress.type (UInt64.ofNat cid.contentAddress.hash.length) := by
  have hone : Spells (Varint.encode 1) (CID.code cid.version) := by
    rw [hv]
    exact Varint.spells_encode 1
  have hsize := Varint.spells_encode (UInt64.ofNat cid.contentAddress.hash.length)
  rw [UInt64.toNat_ofNat_of_lt' cid.contentAddress.length_lt] at hsize
  have h := Announces.spelled hone (Varint.spells_encode cid.contentType)
    (Varint.spells_encode cid.contentAddress.type) hsize
  rw [CID.cidPrefix, CID.head, hv, Multihash.head]
  rwa [hv, List.append_assoc (Varint.encode 1 ++ _)] at h

theorem announces_v0 {fields : Bytes} {codec type size : UInt64} (h : Announces fields .v0 codec type size) :
    fields = [0x12, 0x20] ∨ ∃ used rest, Spells used 0 ∧ fields = used ++ rest := by
  cases h with
  | bare => exact .inl rfl
  | @spelled _ _ _ _ v c t s hversion _ _ _ =>
    exact .inr ⟨v, c ++ t ++ s, hversion, by simp only [List.append_assoc]⟩

theorem cidPrefix_iff {src : Pb.Block} {block : Block} (h : parseBlock H src = .ok block) :
    block.1.cidPrefix = src.cidPrefix ↔ Shortest src.cidPrefix := by
  have h32 := digest_length h
  obtain ⟨cid, data⟩ := block
  obtain ⟨size, hannounces, -, hhash, -⟩ := (parseBlock_ok).mp h
  simp only at h32 hannounces hhash ⊢
  constructor
  · intro heq
    cases hv : cid.version with
    | v1 =>
      refine .inr ⟨cid.contentType, cid.contentAddress.type, ?_⟩
      rw [← heq, CID.cidPrefix, CID.head, hv, Multihash.head, h32]
    | v0 =>
      rw [hv] at hannounces
      obtain hbare | ⟨used, rest, hzero, hused⟩ := announces_v0 hannounces
      · exact .inl hbare
      · -- the prefix of the CID begins with its hash type, which is not 0
        have htype := (Varint.spells_encode cid.contentAddress.type).append (Varint.encode 32)
        have hspelled : cid.cidPrefix = Varint.encode cid.contentAddress.type.toNat ++ Varint.encode 32 := by
          rw [CID.cidPrefix, CID.head, hv, Multihash.head, h32, List.nil_append]
        rw [← hspelled, heq, hused, hzero.append rest, Option.some.injEq] at htype
        have hnumber := UInt64.toNat_inj.mp (Prod.mk.inj htype).1
        obtain hsha | hblake := known_of_calculate hhash
        · rw [hsha] at hnumber
          exact absurd hnumber (by decide)
        · rw [hblake] at hnumber
          exact absurd hnumber (by decide)
  · rintro (hbare | ⟨codec, type, hspelled⟩)
    · rw [hbare] at hannounces ⊢
      obtain ⟨hv, hcodec, htype, -⟩ := hannounces.unique .bare
      rw [CID.cidPrefix, CID.head, hv, CID.IsV0.head_contentAddress ⟨hv, hcodec, htype, h32⟩]
      rfl
    · have hone : Spells (Varint.encode 1) (CID.code .v1) := Varint.spells_encode 1
      have hsize : Spells (Varint.encode 32) 32 := Varint.spells_encode 32
      have hown := Announces.spelled hone (Varint.spells_encode codec) (Varint.spells_encode type) hsize
      rw [List.append_assoc (Varint.encode 1 ++ _), ← hspelled] at hown
      obtain ⟨hv, hcodec, htype, -⟩ := hannounces.unique hown
      rw [hspelled, CID.cidPrefix, CID.head, hv, Multihash.head, hcodec, htype, h32]

theorem forall₂_and {α β : Type} {R S : α → β → Prop} {xs : List α} {ys : List β} (h : List.Forall₂ R xs ys)
    {p : α → Prop} (hS : ∀ x y, R x y → (S x y ↔ p x)) : List.Forall₂ S xs ys ↔ ∀ x ∈ xs, p x := by
  induction h with
  | nil => simp
  | cons hxy _ ih => rw [List.forall₂_cons, List.forall_mem_cons, hS _ _ hxy, ih]

/-- **Blocks are certified by their prefix** exactly where it is the shortest spelling for a digest of 32 bytes.
The digest is that of the data in any case. -/
theorem blocks_certified_iff {bytes : Bytes} {msg : Message} (h : parseMessage H bytes = .ok msg) :
    ∃ pb, Pb.Message.parse bytes = some pb ∧
      (List.Forall₂ (Certified H) pb.data msg.data ↔ ∀ src ∈ pb.data, Shortest src.cidPrefix) ∧
      ∀ block ∈ msg.data, H.calculate block.1.contentAddress.type block.2 = some block.1.contentAddress := by
  obtain ⟨pb, hpb, -, -, hdata⟩ := parseMessage_ok h
  have hhash : ∀ src block, parseBlock H src = .ok block → block.2 = src.data ∧
      H.calculate block.1.contentAddress.type block.2 = some block.1.contentAddress := by
    rintro src ⟨cid, data⟩ hblock
    obtain ⟨-, -, -, hhash, hdata⟩ := (parseBlock_ok).mp hblock
    exact ⟨hdata, hhash⟩
  refine ⟨pb, hpb, forall₂_and hdata fun src block hblock => ?_, forall₂_right hdata fun src block hblock => ?_⟩
  · obtain ⟨hsame, hdigest⟩ := hhash src block hblock
    rw [Certified, and_iff_right hsame, and_iff_right hdigest]
    exact cidPrefix_iff hblock
  · exact (hhash src block hblock).2

theorem sampleMessage_certified : ∃ pb, Pb.Message.parse sampleMessage = some pb ∧
    List.Forall₂ (Certified emptyHasher) pb.data [(sampleCid, [])] := by
  have hparse : parseMessage emptyHasher sampleMessage = .ok ⟨false, [sampleRequest], [], [(sampleCid, [])]⟩ := by
    decide +kernel
  obtain ⟨pb, hpb, hcertified, -⟩ := blocks_certified_iff hparse
  have hdata : Pb.Message.parse sampleMessage = some ⟨false,
      [⟨1, [0x01, 0x55, 0x12, 0x20] ++ emptySha, [], [], 0, false, false⟩], [],
      [⟨[0x01, 0x55, 0x12, 0x20], []⟩]⟩ := by decide +kernel
  obtain rfl := Option.some.inj (hdata.symm.trans hpb)
  refine ⟨_, hpb, hcertified.mpr fun src hsrc => .inr ⟨0x55, 0x12, ?_⟩⟩
  rw [List.mem_singleton.mp hsrc]
  decide

/-- Twenty bytes of sha2-256, and version 1 in two bytes: both blocks come out under the whole hash. -/
theorem prefixes_replaced :
    parseMessage emptyHasher [0x22, 0x06, 0x0a, 0x04, 0x01, 0x55, 0x12, 0x14,
      0x22, 0x07, 0x0a, 0x05, 0x81, 0x00, 0x55, 0x12, 0x20] =
      .ok ⟨false, [], [], [(sampleCid, []), (sampleCid, [])]⟩ ∧
    sampleCid.cidPrefix = [0x01, 0x55, 0x12, 0x20] ∧
    ¬ Certified emptyHasher ⟨[0x01, 0x55, 0x12, 0x14], []⟩ (sampleCid, []) ∧
    ¬ Certified emptyHasher ⟨[0x81, 0x00, 0x55, 0x12, 0x20], []⟩ (sampleCid, []) := by
  have hspelled : sampleCid.cidPrefix = [0x01, 0x55, 0x12, 0x20] := by decide +kernel
  refine ⟨by decide +kernel, hspelled, ?_, ?_⟩
  · rintro ⟨-, -, h⟩
    rw [hspelled] at h
    exact absurd h (by decide)
  · rintro ⟨-, -, h⟩
    rw [hspelled] at h
    exact absurd h (by decide)

/-! ## Hostile prefixes -/

/-- Neither an exception of the hasher's table, nor a span past the zero array: one that is too long for its
length to be a span's, or too long for the array, which `Multihash::create` then refuses. -/
def Survives {α : Type} (r : Except ParseError α) : Prop :=
  r ≠ .error .unknownHash ∧ r ≠ .error (.blockCid .terminated) ∧ r ≠ .error (.blockCid .inputTooLong)

/-- The announced hash fits the array, and if nothing stands behind it its type has a method. -/
def Tame (src : Pb.Block) : Prop :=
  ∀ fields version codec type size rest, Announces fields version codec type size → src.cidPrefix = fields ++ rest →
    size.toNat ≤ kMaxHashLength ∧ (rest = [] → Known type)

theorem block_survives_iff {src : Pb.Block} : Survives (parseBlock H src) ↔ Tame src := by
  constructor
  · rintro ⟨hknown, hspan, harray⟩ fields version codec type size rest hannounces heq
    have hread : ∀ {e}, CID.read src.cidPrefix true = .error e → parseBlock H src = .error (.blockCid e) := by
      intro e he
      rw [parseBlock, he]
    have hsmall : size.toNat < 2 ^ 63 := by
      by_contra hlarge
      exact hspan (hread ((CID.read_terminated).mpr
        ⟨fields, version, codec, type, size, rest, hannounces, heq, Nat.not_lt.mp hlarge⟩))
    have hbounded : size.toNat ≤ kMaxHashLength := by
      by_contra hlarge
      exact harray (hread ((CID.read_inputTooLong).mpr
        ⟨fields, version, codec, type, size, rest, hannounces, heq, Nat.not_le.mp hlarge, hsmall⟩))
    refine ⟨hbounded, fun hrest => ?_⟩
    by_contra hunknown
    have hlength : (List.replicate size.toNat (0 : UInt8)).length = size.toNat := List.length_replicate
    have hblank : CID.read src.cidPrefix true = .ok (⟨version, codec,
        ⟨type, List.replicate size.toNat 0, by rw [hlength]; exact hbounded⟩⟩, rest) := by
      refine (CID.read_blank_ok).mpr ⟨⟨fields, ?_, heq⟩, by simp only [hlength]⟩
      simp only [hlength, UInt64.ofNat_toNat]
      exact hannounces
    refine hknown ?_
    rw [parseBlock, hblank]
    simp only [hrest, ne_eq, not_true, if_false, calculate_none hunknown]
  · intro htame
    cases hread : CID.read src.cidPrefix true with
    | error e =>
      have hblock : parseBlock H src = .error (.blockCid e) := by
        rw [parseBlock, hread]
      rw [hblock]
      refine ⟨by simp, fun h => ?_, fun h => ?_⟩
      · rw [ParseError.blockCid.inj (Except.error.inj h)] at hread
        obtain ⟨fields, version, codec, type, size, rest, hannounces, heq, hlarge⟩ := (CID.read_terminated).mp hread
        have hbounded := (htame fields version codec type size rest hannounces heq).1
        unfold kMaxHashLength at hbounded
        omega
      · rw [ParseError.blockCid.inj (Except.error.inj h)] at hread
        obtain ⟨fields, version, codec, type, size, rest, hannounces, heq, hlarge, -⟩ :=
          (CID.read_inputTooLong).mp hread
        exact absurd (htame fields version codec type size rest hannounces heq).1 (Nat.not_le.mpr hlarge)
    | ok result =>
      obtain ⟨blank, rest⟩ := result
      obtain ⟨⟨fields, hannounces, heq⟩, -⟩ := (CID.read_blank_ok).mp hread
      have hknown := (htame fields _ _ _ _ rest hannounces heq).2
      rw [parseBlock, hread]
      simp only
      split_ifs with hrest
      · refine ⟨by simp, by simp, by simp⟩
      · obtain ⟨address, hhash⟩ := calculate_some H (hknown (not_not.mp hrest)) src.data
        rw [hhash]
        refine ⟨by simp, by simp, by simp⟩

/-- The blocks that `parseBlocks` comes to: it ends at the first whose prefix is not an announcement. -/
def BlocksTame : List Pb.Block → Prop
  | [] => True
  | src :: rest => Tame src ∧
      ((∃ version codec type size, Announces src.cidPrefix version codec type size) → BlocksTame rest)

theorem survives_ok {α : Type} (a : α) : Survives (.ok a) := ⟨by simp, by simp, by simp⟩

/-- A list is gone through up to the first element that fails. -/
theorem survives_cons {α β : Type} {f : α → Except ParseError β} {x : α} {xs : List α} :
    Survives ((x :: xs).mapM f) ↔ Survives (f x) ∧ ((∃ y, f x = .ok y) → Survives (xs.mapM f)) := by
  simp only [Survives, ne_eq, mapM_cons_error, not_or, not_and]
  constructor
  · rintro ⟨⟨h1, k1⟩, ⟨h2, k2⟩, h3, k3⟩
    exact ⟨⟨h1, h2, h3⟩, fun hy => ⟨k1 hy, k2 hy, k3 hy⟩⟩
  · rintro ⟨⟨h1, h2, h3⟩, k⟩
    exact ⟨⟨h1, fun hy => (k hy).1⟩, ⟨h2, fun hy => (k hy).2.1⟩, h3, fun hy => (k hy).2.2⟩

/-- A tame prefix is parsed if it is an announcement. -/
theorem parseBlock_of_tame {src : Pb.Block} (htame : Tame src) :
    (∃ block, parseBlock H src = .ok block) ↔
      ∃ version codec type size, Announces src.cidPrefix version codec type size := by
  constructor
  · rintro ⟨⟨cid, data⟩, h⟩
    obtain ⟨size, hannounces, -⟩ := (parseBlock_ok).mp h
    exact ⟨_, _, _, size, hannounces⟩
  · rintro ⟨version, codec, type, size, hannounces⟩
    obtain ⟨hbounded, hknown⟩ := htame _ version codec type size [] hannounces (List.append_nil _).symm
    obtain ⟨address, hhash⟩ := calculate_some H (hknown rfl) src.data
    have htype := (Hasher.calculate_type hhash).1
    refine ⟨(⟨version, codec, address⟩, src.data), (parseBlock_ok).mpr ⟨size, ?_, hbounded, ?_, rfl⟩⟩
    · simp only [htype]
      exact hannounces
    · simp only [htype]
      exact hhash

theorem blocks_survive_iff (srcs : List Pb.Block) : Survives (srcs.mapM (parseBlock H)) ↔ BlocksTame srcs := by
  induction srcs with
  | nil => exact iff_of_true (survives_ok _) trivial
  | cons src srcs ih =>
    rw [survives_cons, BlocksTame, block_survives_iff]
    refine and_congr_right fun htame => ?_
    rw [parseBlock_of_tame htame, ih]

/-! ## The whole message -/

/-- The requests and the responses are parsed. -/
def HeadsParsed (pb : Pb.Message) : Prop :=
  (∀ r ∈ pb.requests, r.cancel = true ∨ (CID.fromBytes r.root).isSome = true) ∧
    ∀ r ∈ pb.responses, (extractStatusCode r.status).isSome = true

theorem parseRequest_ok {src : Pb.Request} : (∃ r, parseRequest src = .ok r) ↔
    src.cancel = true ∨ (CID.fromBytes src.root).isSome = true := by
  unfold parseRequest
  by_cases hcancel : src.cancel = true
  · rw [if_pos hcancel]
    exact iff_of_true ⟨_, rfl⟩ (.inl hcancel)
  · rw [if_neg hcancel, or_iff_right hcancel]
    cases CID.fromBytes src.root with
    | none => simp
    | some cid => simp

theorem parseResponse_ok {src : Pb.Response} : (∃ r, parseResponse src = .ok r) ↔
    (extractStatusCode src.status).isSome = true := by
  unfold parseResponse
  cases extractStatusCode src.status with
  | none => simp
  | some status => simp

theorem request_survives (src : Pb.Request) : Survives (parseRequest src) := by
  unfold parseRequest
  split_ifs
  · exact survives_ok _
  · split
    · exact ⟨by simp, by simp, by simp⟩
    · exact survives_ok _

theorem response_survives (src : Pb.Response) : Survives (parseResponse src) := by
  unfold parseResponse
  split
  · exact ⟨by simp, by simp, by simp⟩
  · exact survives_ok _

/-- Elements that survive, and the list is parsed if each of them is. -/
theorem mapM_survives {α β : Type} {f : α → Except ParseError β} (h : ∀ x, Survives (f x)) (xs : List α) :
    Survives (xs.mapM f) := by
  induction xs with
  | nil => exact survives_ok _
  | cons x xs ih => exact (survives_cons).mpr ⟨h x, fun _ => ih⟩

theorem mapM_ok_iff {α β : Type} {f : α → Except ParseError β} {xs : List α} :
    (∃ ys, xs.mapM f = .ok ys) ↔ ∀ x ∈ xs, ∃ y, f x = .ok y := by
  constructor
  · rintro ⟨ys, h⟩
    exact (forall₂_mem_iff (q := fun _ => True) (mapM_ok h) fun x y hxy => iff_of_true trivial ⟨y, hxy⟩).mp
      fun _ _ => trivial
  · intro h
    induction xs with
    | nil => exact ⟨[], rfl⟩
    | cons x xs ih =>
      rw [List.forall_mem_cons] at h
      obtain ⟨y, hy⟩ := h.1
      obtain ⟨ys, hys⟩ := ih h.2
      exact ⟨y :: ys, mapM_of_forall₂ (.cons hy (mapM_ok hys))⟩

/-- What is behind a step that survives matters if the step returns. -/
theorem survives_bind {α β : Type} {x : Except ParseError α} {f : α → Except ParseError β} (hx : Survives x) :
    Survives (x >>= f) ↔ ∀ a, x = .ok a → Survives (f a) := by
  cases x with
  | error e =>
    refine iff_of_true ?_ fun a h => by cases h
    refine ⟨fun h => hx.1 ?_, fun h => hx.2.1 ?_, fun h => hx.2.2 ?_⟩
    all_goals exact congrArg Except.error (Except.error.inj h)
  | ok a =>
    constructor
    · rintro h a' ha
      rw [← ok_inj ha]
      exact h
    · intro h
      exact h a rfl

theorem survives_map {α β : Type} {x : Except ParseError α} {g : α → β} :
    Survives (x >>= fun a => .ok (g a)) ↔ Survives x := by
  cases x with
  | ok a => exact iff_of_true (survives_ok (g a)) (survives_ok a)
  | error e => simp [Survives, bind, Except.bind]

theorem parsePbMessage_survives_iff (pb : Pb.Message) :
    Survives (parsePbMessage H pb) ↔ (HeadsParsed pb → BlocksTame pb.data) := by
  have hreq : (∃ rs, pb.requests.mapM parseRequest = .ok rs) ↔ _ := mapM_ok_iff
  have hresp : (∃ rs, pb.responses.mapM parseResponse = .ok rs) ↔ _ := mapM_ok_iff
  simp only [parseRequest_ok] at hreq
  simp only [parseResponse_ok] at hresp
  rw [parsePbMessage, survives_bind (mapM_survives request_survives _), HeadsParsed, ← hreq, ← hresp]
  constructor
  · rintro h ⟨⟨requests, hrequests⟩, responses, hresponses⟩
    have hdata := (survives_bind (mapM_survives response_survives _)).mp (h requests hrequests) responses hresponses
    exact (blocks_survive_iff pb.data).mp ((survives_map).mp hdata)
  · intro h requests hrequests
    refine (survives_bind (mapM_survives response_survives _)).mpr fun responses hresponses => (survives_map).mpr ?_
    exact (blocks_survive_iff pb.data).mpr (h ⟨⟨requests, hrequests⟩, responses, hresponses⟩)

/-- **The parser survives** exactly when the blocks it comes to are tame. -/
theorem parseMessage_survives_iff (H : Hasher) (bytes : Bytes) : Survives (parseMessage H bytes) ↔
    ∀ pb, Pb.Message.parse bytes = some pb → HeadsParsed pb → BlocksTame pb.data := by
  unfold parseMessage
  cases Pb.Message.parse bytes with
  | none => exact iff_of_true ⟨by simp, by simp, by simp⟩ fun pb h => by cases h
  | some pb =>
    simp only [parsePbMessage_survives_iff]
    exact ⟨fun h pb' heq => Option.some.inj heq ▸ h, fun h => h pb rfl⟩

/-- A hash type without a method, a prefix of 128 bytes of hash, and one of 2^64 - 1. -/
theorem hostile_prefixes_escape :
    parseMessage emptyHasher [0x22, 0x06, 0x0a, 0x04, 0x01, 0x55, 0x11, 0x14] = .error .unknownHash ∧
    parseMessage emptyHasher [0x22, 0x07, 0x0a, 0x05, 0x01, 0x55, 0x12, 0x80, 0x01] =
      .error (.blockCid .inputTooLong) ∧
    parseMessage emptyHasher [0x22, 0x0f, 0x0a, 0x0d, 0x01, 0x55, 0x12, 0xff, 0xff, 0xff, 0xff, 0xff, 0xff, 0xff,
      0xff, 0xff, 0x01] = .error (.blockCid .terminated) ∧
    ¬ Survives (parseMessage emptyHasher [0x22, 0x06, 0x0a, 0x04, 0x01, 0x55, 0x11, 0x14]) := by
  have hunknown : parseMessage emptyHasher [0x22, 0x06, 0x0a, 0x04, 0x01, 0x55, 0x11, 0x14] = .error .unknownHash := by
    decide +kernel
  exact ⟨hunknown, by decide +kernel, by decide +kernel, fun h => h.1 hunknown⟩

end IpfsLite.Graphsync
