import IpfsLite.Foundations.Fallible
import IpfsLite.Primitives.Cid

/-! # What the readers of CIDs accept

`CID::read` and `codec::uvarint::readBytes` as a grammar: the fields that stand in front of a digest, in every
spelling the readers take, and what follows them. A size of 2^63 or more is negative as the size of a span. -/
namespace IpfsLite
set_option autoImplicit false

/-! ## Spellings of a number -/

namespace Varint

/-- The bytes are one varint, of at most 64 bits, with nothing behind it. -/
def Spells (bytes : Bytes) (n : UInt64) : Prop := decode bytes = some (n.toNat, [])

/-- What stands behind a varint has no part in it. -/
theorem decodeGroups_append {fuel n : ℕ} {bytes rest : Bytes} (h : decodeGroups fuel bytes = some (n, rest)) :
    ∃ used, bytes = used ++ rest ∧ ∀ other, decodeGroups fuel (used ++ other) = some (n, other) := by
  induction fuel generalizing bytes n with
  | zero => cases h
  | succ fuel ih =>
    cases bytes with
    | nil => cases h
    | cons b bytes =>
      rw [decodeGroups] at h
      by_cases hlast : b.toNat < 128
      · rw [if_pos hlast] at h
        obtain ⟨rfl, rfl⟩ := Prod.mk.inj (Option.some.inj h)
        refine ⟨[b], rfl, fun other => ?_⟩
        rw [List.singleton_append, decodeGroups, if_pos hlast]
      · rw [if_neg hlast] at h
        obtain ⟨⟨high, rest'⟩, hhigh, heq⟩ := Option.map_eq_some_iff.mp h
        obtain ⟨rfl, rfl⟩ := Prod.mk.inj heq
        obtain ⟨used, rfl, hused⟩ := ih hhigh
        refine ⟨b :: used, rfl, fun other => ?_⟩
        rw [List.cons_append, decodeGroups, if_neg hlast, hused]
        rfl

theorem Spells.append {used : Bytes} {n : UInt64} (h : Spells used n) (rest : Bytes) :
    decode (used ++ rest) = some (n.toNat, rest) := by
  obtain ⟨used', heq, happend⟩ := decodeGroups_append h
  rw [List.append_nil] at heq
  rw [heq]
  exact happend rest

theorem decode_spells {bytes rest : Bytes} {n : UInt64} (h : decode bytes = some (n.toNat, rest)) :
    ∃ used, Spells used n ∧ bytes = used ++ rest := by
  obtain ⟨used, heq, happend⟩ := decodeGroups_append h
  have hspells := happend []
  rw [List.append_nil] at hspells
  exact ⟨used, hspells, heq⟩

theorem spells_encode (n : UInt64) : Spells (encode n.toNat) n := by
  have h := decode_encode_append n.toNat_lt []
  rwa [List.append_nil] at h

theorem Spells.ne_nil {used : Bytes} {n : UInt64} (h : Spells used n) : used ≠ [] := by
  rintro rfl
  cases h

/-- A first byte below 128 is the whole number. -/
theorem Spells.single {b : UInt8} {used : Bytes} {n : UInt64} (h : Spells (b :: used) n) (hb : b.toNat < 128) :
    used = [] ∧ n.toNat = b.toNat := by
  rw [Spells, decode, decodeGroups, if_pos hb, Option.some.injEq] at h
  obtain ⟨hn, hused⟩ := Prod.mk.inj h
  exact ⟨hused, hn.symm⟩

theorem spells_single {b : UInt8} {n : UInt64} (hb : b.toNat < 128) (hn : n.toNat = b.toNat) : Spells [b] n := by
  rw [Spells, decode, decodeGroups, if_pos hb, hn]

end Varint

namespace CID
open Fallible
open Varint (Spells)

theorem readUvarint_ok {ε : Type} {error : ε} {input rest : Bytes} {n : UInt64} :
    readUvarint error input = .ok (n, rest) ↔ ∃ used, Spells used n ∧ input = used ++ rest := by
  constructor
  · intro h
    unfold readUvarint at h
    split at h
    · next m r hdecode =>
      split_ifs at h with hlt
      obtain ⟨rfl, rfl⟩ := Prod.mk.inj (Except.ok.inj h)
      refine Varint.decode_spells ?_
      rw [hdecode, UInt64.toNat_ofNat_of_lt' hlt]
    · cases h
  · rintro ⟨used, hused, rfl⟩
    rw [readUvarint, hused.append]
    simp only [n.toNat_lt, if_true, UInt64.ofNat_toNat]

theorem readUvarint_error {ε : Type} {error e : ε} {input : Bytes} (h : readUvarint error input = .error e) :
    e = error := by
  unfold readUvarint at h
  split at h
  · split_ifs at h
    exact (Except.error.inj h).symm
  · exact (Except.error.inj h).symm

/-! ## Spans -/

/-- A size that a span takes. -/
theorem splitSpan_le {size : ℕ} {input : Bytes} (h : size ≤ input.length) :
    splitSpan size input = some (input.take size, input.drop size) := by
  have htake : subspan input 0 size = some (input.take size) := by
    rw [subspan, if_neg (by omega), if_neg (by omega), if_neg (by omega)]
    simp
  have hdrop : subspan input size (-1) = some (input.drop size) := by
    rw [subspan, if_neg (by omega), if_pos rfl, Int.toNat_natCast]
  rw [splitSpan, htake, hdrop]
  rfl

/-- -1 gets past the first call, as the count, and not past the second, as the offset. -/
theorem splitSpan_negative {size : ℤ} {input : Bytes} (h : size < 0) : splitSpan size input = none := by
  have hdrop : subspan input size (-1) = none := by
    rw [subspan, if_pos (.inl h)]
  rw [splitSpan, hdrop]
  cases subspan input 0 size <;> rfl

theorem ptrdiff_of_lt {n : ℕ} (h : n < 2 ^ 63) : ptrdiff n = n := if_pos h

theorem ptrdiff_negative {n : ℕ} (h : 2 ^ 63 ≤ n) (hlt : n < 2 ^ 64) : ptrdiff n < 0 := by
  rw [ptrdiff, if_neg (Nat.not_lt.mpr h)]
  omega

/-- The bytes are there, or the caller's error, or the end of the process. -/
theorem split_cases (size : UInt64) (input : Bytes) :
    (size.toNat ≤ input.length ∧ size.toNat < 2 ^ 63 ∧ ¬ (input.length : ℤ) < ptrdiff size.toNat ∧
      splitSpan (ptrdiff size.toNat) input = some (input.take size.toNat, input.drop size.toNat)) ∨
    (input.length < size.toNat ∧ size.toNat < 2 ^ 63 ∧ (input.length : ℤ) < ptrdiff size.toNat) ∨
    2 ^ 63 ≤ size.toNat ∧ ¬ (input.length : ℤ) < ptrdiff size.toNat ∧
      splitSpan (ptrdiff size.toNat) input = none := by
  by_cases hsize : size.toNat < 2 ^ 63
  · rw [ptrdiff_of_lt hsize]
    by_cases hle : size.toNat ≤ input.length
    · exact .inl ⟨hle, hsize, by omega, splitSpan_le hle⟩
    · exact .inr (.inl ⟨by omega, hsize, by omega⟩)
  · have hneg := ptrdiff_negative (Nat.not_lt.mp hsize) size.toNat_lt
    exact .inr (.inr ⟨Nat.not_lt.mp hsize, by omega, splitSpan_negative hneg⟩)

/-! ## The fields in front of the digest -/

/-- The number of a version. -/
def code : Version → UInt64
  | .v0 => 0
  | .v1 => 1

/-- The version, the codec, the hash type and the hash size that the bytes announce. -/
inductive Announces : Bytes → Version → UInt64 → UInt64 → UInt64 → Prop where
  | bare : Announces [0x12, 0x20] .v0 Multicodec.dagPb HashType.sha256 32
  | spelled {version : Version} {codec type size : UInt64} {v c t s : Bytes} (hversion : Spells v (code version))
      (hcodec : Spells c codec) (htype : Spells t type) (hsize : Spells s size) :
      Announces (v ++ c ++ t ++ s) version codec type size

/-- The part of `CID::read` in front of the digest. -/
def readFields (input : Bytes) (isPrefix : Bool) :
    Except ReadError (Version × UInt64 × UInt64 × UInt64 × Bytes) := do
  let (version, codec, input) ← readHead input isPrefix
  let (hashType, input) ← readUvarint .zeroInputLength input
  let (hashSize, input) ← readUvarint .inputTooShort input
  .ok (version, codec, hashType, hashSize, input)

theorem read_eq (input : Bytes) (isPrefix : Bool) : read input isPrefix = (do
    let (version, codec, hashType, hashSize, input) ← readFields input isPrefix
    let (hash, input) ← readDigest hashSize.toNat input isPrefix
    match Multihash.create hashType hash with
    | some m => .ok (⟨version, codec, m⟩, input)
    | none => .error .inputTooLong) := by
  rw [read, readFields]
  cases readHead input isPrefix with
  | error e => rfl
  | ok head =>
    obtain ⟨version, codec, input⟩ := head
    simp only [bind, Except.bind]
    cases readUvarint ReadError.zeroInputLength input with
    | error e => rfl
    | ok type =>
      obtain ⟨type, input⟩ := type
      simp only
      cases readUvarint ReadError.inputTooShort input with
      | error e => rfl
      | ok size => rfl

theorem code_lt (version : Version) : (code version).toNat < 2 := by
  cases version <;> decide

/-- A version does not begin as a bare hash does. -/
theorem Announces.take_ne {input rest : Bytes} {version : Version} {v c : Bytes}
    (hversion : Spells v (code version)) (heq : input = v ++ c ++ rest) : input.take 2 ≠ [0x12, 0x20] := by
  intro htake
  obtain ⟨b, v, rfl⟩ := List.exists_cons_of_ne_nil hversion.ne_nil
  rw [heq, List.cons_append, List.cons_append, List.take_succ_cons] at htake
  obtain rfl := (List.cons.inj htake).1
  have hlt := code_lt version
  rw [(hversion.single (by decide)).2] at hlt
  exact absurd hlt (by decide)

theorem Announces.bare_size {fields : Bytes} {version : Version} {codec type size : UInt64}
    (h : Announces fields version codec type size) (hbare : fields = [0x12, 0x20]) : size = 32 := by
  cases h with
  | bare => rfl
  | @spelled _ _ _ _ v c t s hversion _ _ _ =>
    exact absurd (by rw [hbare]; rfl) (Announces.take_ne hversion (List.append_assoc (v ++ c) t s))

theorem readHead_ok {input rest : Bytes} {isPrefix : Bool} {version : Version} {codec : UInt64} :
    readHead input isPrefix = .ok (version, codec, rest) ↔
      (input.take 2 = [0x12, 0x20] ∧ ¬ (isPrefix = false ∧ input.length < 34) ∧ version = .v0 ∧
        codec = Multicodec.dagPb ∧ rest = input) ∨
      ∃ v c, Spells v (code version) ∧ Spells c codec ∧ input = v ++ c ++ rest := by
  unfold readHead
  by_cases hbare : input.take 2 = [0x12, 0x20]
  · rw [if_pos hbare]
    have hnot : ¬ ∃ v c, Spells v (code version) ∧ Spells c codec ∧ input = v ++ c ++ rest := by
      rintro ⟨v, c, hversion, -, heq⟩
      exact Announces.take_ne hversion heq hbare
    by_cases hshort : isPrefix = false ∧ input.length < 34
    · rw [if_pos hshort]
      refine iff_of_false (by simp) ?_
      rintro (⟨-, hlong, -⟩ | h)
      · exact hlong hshort
      · exact hnot h
    · rw [if_neg hshort, Except.ok.injEq, Prod.mk.injEq, Prod.mk.injEq, or_iff_left hnot]
      constructor
      · rintro ⟨rfl, rfl, rfl⟩
        exact ⟨hbare, hshort, rfl, rfl, rfl⟩
      · rintro ⟨-, -, rfl, rfl, rfl⟩
        exact ⟨rfl, rfl, rfl⟩
  · rw [if_neg hbare, or_iff_right (fun h => hbare h.1)]
    constructor
    · intro h
      obtain ⟨⟨n, input'⟩, hn, hrest⟩ := bind_ok h
      obtain ⟨v, hv, rfl⟩ := (readUvarint_ok).mp hn
      have hcodec : ∀ {w : Version}, (do
          let (codec, input) ← readUvarint ReadError.emptyMulticodec input'
          .ok (w, codec, input)) = .ok (version, codec, rest) →
          w = version ∧ ∃ c, Spells c codec ∧ input' = c ++ rest := by
        intro w h
        obtain ⟨⟨codec', rest'⟩, hcodec, h⟩ := bind_ok h
        obtain ⟨rfl, rfl, rfl⟩ : w = version ∧ codec' = codec ∧ rest' = rest := by simpa using h
        exact ⟨rfl, (readUvarint_ok).mp hcodec⟩
      simp only at hrest
      split_ifs at hrest with h0 h1
      · obtain ⟨rfl, c, hc, rfl⟩ := hcodec hrest
        exact ⟨v, c, (h0 ▸ hv : Spells v 0), hc, by rw [List.append_assoc]⟩
      · obtain ⟨rfl, c, hc, rfl⟩ := hcodec hrest
        exact ⟨v, c, (h1 ▸ hv : Spells v 1), hc, by rw [List.append_assoc]⟩
      · cases hrest
    · rintro ⟨v, c, hversion, hcodec, rfl⟩
      have hn : readUvarint ReadError.emptyVersion (v ++ c ++ rest) = .ok (code version, c ++ rest) :=
        (readUvarint_ok).mpr ⟨v, hversion, List.append_assoc v c rest⟩
      have hc : readUvarint ReadError.emptyMulticodec (c ++ rest) = .ok (codec, rest) :=
        (readUvarint_ok).mpr ⟨c, hcodec, rfl⟩
      simp only [hn, hc, bind, Except.bind]
      cases version <;> rfl

/-- The fields are read in every spelling. A bare hash of too few bytes is refused at once. -/
theorem readFields_ok {input rest : Bytes} {isPrefix : Bool} {version : Version} {codec type size : UInt64} :
    readFields input isPrefix = .ok (version, codec, type, size, rest) ↔
      ∃ fields, Announces fields version codec type size ∧ input = fields ++ rest ∧
        ¬ (isPrefix = false ∧ fields = [0x12, 0x20] ∧ rest.length < 32) := by
  constructor
  · intro h
    obtain ⟨⟨version', codec', behindHead⟩, hhead, h⟩ := bind_ok h
    obtain ⟨⟨type', behindType⟩, htype, h⟩ := bind_ok h
    obtain ⟨⟨size', behindSize⟩, hsize, h⟩ := bind_ok h
    obtain ⟨rfl, rfl, rfl, rfl, rfl⟩ : version' = version ∧ codec' = codec ∧ type' = type ∧ size' = size ∧
      behindSize = rest := by simpa using h
    obtain ⟨t, ht, rfl⟩ := (readUvarint_ok).mp htype
    obtain ⟨s, hs, rfl⟩ := (readUvarint_ok).mp hsize
    obtain ⟨hbare, hlong, rfl, rfl, rfl⟩ | ⟨v, c, hv, hc, rfl⟩ := (readHead_ok).mp hhead
    · -- both numbers are single bytes
      obtain ⟨b, t, rfl⟩ := List.exists_cons_of_ne_nil ht.ne_nil
      rw [List.cons_append, List.take_succ_cons] at hbare
      obtain ⟨rfl, hbare⟩ := List.cons.inj hbare
      obtain ⟨rfl, htypeNat⟩ := ht.single (by decide)
      obtain ⟨b, s, rfl⟩ := List.exists_cons_of_ne_nil hs.ne_nil
      obtain rfl : b = 0x20 := by simpa using hbare
      obtain ⟨rfl, hsizeNat⟩ := hs.single (by decide)
      obtain rfl : type' = HashType.sha256 := UInt64.toNat_inj.mp htypeNat
      obtain rfl : size' = 32 := UInt64.toNat_inj.mp hsizeNat
      refine ⟨[0x12, 0x20], .bare, rfl, ?_⟩
      rintro ⟨hfull, -, hshort⟩
      refine hlong ⟨hfull, ?_⟩
      simp only [List.length_append, List.length_singleton]
      omega
    · refine ⟨v ++ c ++ t ++ s, .spelled hv hc ht hs, by simp only [List.append_assoc], ?_⟩
      rintro ⟨-, hbare, -⟩
      exact Announces.take_ne hv (List.append_assoc (v ++ c) t s) (by rw [hbare]; rfl)
  · rintro ⟨fields, hfields, rfl, hlong⟩
    cases hfields with
    | bare =>
      have hhead : readHead ([0x12, 0x20] ++ rest) isPrefix =
          .ok (.v0, Multicodec.dagPb, [0x12, 0x20] ++ rest) := by
        refine (readHead_ok).mpr (.inl ⟨rfl, ?_, rfl, rfl, rfl⟩)
        rintro ⟨hfull, hshort⟩
        refine hlong ⟨hfull, rfl, ?_⟩
        simp only [List.length_append, List.length_cons, List.length_nil] at hshort
        omega
      have htype : readUvarint ReadError.zeroInputLength ([0x12, 0x20] ++ rest) =
          .ok (HashType.sha256, [0x20] ++ rest) :=
        (readUvarint_ok).mpr ⟨[0x12], Varint.spells_single (by decide) (by decide), rfl⟩
      have hsize : readUvarint ReadError.inputTooShort ([0x20] ++ rest) = .ok (32, rest) :=
        (readUvarint_ok).mpr ⟨[0x20], Varint.spells_single (by decide) (by decide), rfl⟩
      simp only [readFields, hhead, htype, hsize, bind, Except.bind]
    | @spelled _ _ _ _ v c t s hv hc ht hs =>
      have hhead : readHead (v ++ c ++ t ++ s ++ rest) isPrefix = .ok (version, codec, t ++ (s ++ rest)) :=
        (readHead_ok).mpr (.inr ⟨v, c, hv, hc, by simp only [List.append_assoc]⟩)
      have htype : readUvarint ReadError.zeroInputLength (t ++ (s ++ rest)) = .ok (type, s ++ rest) :=
        (readUvarint_ok).mpr ⟨t, ht, rfl⟩
      have hsize : readUvarint ReadError.inputTooShort (s ++ rest) = .ok (size, rest) :=
        (readUvarint_ok).mpr ⟨s, hs, rfl⟩
      simp only [readFields, hhead, htype, hsize, bind, Except.bind]

/-- The same bytes announce one thing. -/
theorem Announces.unique {fields : Bytes} {version version' : Version} {codec codec' type type' size size' : UInt64}
    (h : Announces fields version codec type size) (h' : Announces fields version' codec' type' size') :
    version = version' ∧ codec = codec' ∧ type = type' ∧ size = size' := by
  have hread : ∀ {v : Version} {c t s : UInt64}, Announces fields v c t s →
      readFields fields true = .ok (v, c, t, s, []) := fun h =>
    (readFields_ok).mpr ⟨fields, h, (List.append_nil fields).symm, fun hfull => Bool.false_ne_true hfull.1.symm⟩
  have heq := (hread h).symm.trans (hread h')
  simp only [Except.ok.injEq, Prod.mk.injEq, and_true] at heq
  exact heq

/-- No span is taken before the fields are read, and no hash is made. -/
theorem readFields_error {input : Bytes} {isPrefix : Bool} {e : ReadError}
    (h : readFields input isPrefix = .error e) : e ≠ .terminated ∧ e ≠ .inputTooLong := by
  obtain hhead | ⟨⟨version, codec, behindHead⟩, -, h⟩ := bind_error h
  · unfold readHead at hhead
    split_ifs at hhead
    · rw [← Except.error.inj hhead]
      exact ⟨ReadError.noConfusion, ReadError.noConfusion⟩
    · obtain hversion | ⟨⟨n, behindVersion⟩, -, hrest⟩ := bind_error hhead
      · rw [readUvarint_error hversion]
        exact ⟨ReadError.noConfusion, ReadError.noConfusion⟩
      · have hcodec : ∀ {w : Version}, (do
            let (codec, input) ← readUvarint ReadError.emptyMulticodec behindVersion
            .ok (w, codec, input)) = .error e → e ≠ .terminated ∧ e ≠ .inputTooLong := by
          intro w h
          obtain hcodec | ⟨a, -, h⟩ := bind_error h
          · rw [readUvarint_error hcodec]
            exact ⟨ReadError.noConfusion, ReadError.noConfusion⟩
          · cases h
        simp only at hrest
        split_ifs at hrest
        · exact hcodec hrest
        · exact hcodec hrest
        · rw [← Except.error.inj hrest]
          exact ⟨ReadError.noConfusion, ReadError.noConfusion⟩
  · obtain htype | ⟨⟨type, behindType⟩, -, h⟩ := bind_error h
    · rw [readUvarint_error htype]
      exact ⟨ReadError.noConfusion, ReadError.noConfusion⟩
    · obtain hsize | ⟨a, -, h⟩ := bind_error h
      · rw [readUvarint_error hsize]
        exact ⟨ReadError.noConfusion, ReadError.noConfusion⟩
      · cases h

/-! ## `CID::read` -/

/-- The whole CID is there: the fields, the digest and what is left. -/
theorem read_full_ok {input rest : Bytes} {c : CID} : read input false = .ok (c, rest) ↔
    ∃ fields, Announces fields c.version c.contentType c.contentAddress.type
      (UInt64.ofNat c.contentAddress.hash.length) ∧ input = fields ++ c.contentAddress.hash ++ rest := by
  have hlength := UInt64.toNat_ofNat_of_lt' c.contentAddress.length_lt
  rw [read_eq]
  constructor
  · intro h
    obtain ⟨⟨version, codec, type, size, behindFields⟩, hfields, h⟩ := bind_ok h
    obtain ⟨⟨hash, behindHash⟩, hdigest, h⟩ := bind_ok h
    obtain ⟨fields, hannounces, rfl, -⟩ := (readFields_ok).mp hfields
    rw [readDigest, if_neg Bool.false_ne_true] at hdigest
    obtain ⟨hle, -, hfits, hsplit⟩ | ⟨-, -, hshort⟩ | ⟨-, hfits, hsplit⟩ := split_cases size behindFields
    · rw [if_neg hfits, hsplit, Option.elim_some] at hdigest
      obtain ⟨rfl, rfl⟩ := Prod.mk.inj (ok_inj hdigest)
      simp only at h
      split at h
      · next m hm =>
        obtain ⟨rfl, rfl⟩ := Prod.mk.inj (ok_inj h)
        unfold Multihash.create at hm
        split_ifs at hm
        obtain rfl := Option.some.inj hm
        refine ⟨fields, ?_, by rw [List.append_assoc, List.take_append_drop]⟩
        rw [List.length_take, Nat.min_eq_left hle, UInt64.ofNat_toNat]
        exact hannounces
      · cases h
    · rw [if_pos hshort] at hdigest
      cases hdigest
    · rw [if_neg hfits, hsplit] at hdigest
      cases hdigest
  · rintro ⟨fields, hannounces, rfl⟩
    have hfields : readFields (fields ++ c.contentAddress.hash ++ rest) false =
        .ok (c.version, c.contentType, c.contentAddress.type, UInt64.ofNat c.contentAddress.hash.length,
          c.contentAddress.hash ++ rest) := by
      refine (readFields_ok).mpr ⟨fields, hannounces, List.append_assoc _ _ _, ?_⟩
      rintro ⟨-, hbare, hshort⟩
      have hsize := congrArg UInt64.toNat (hannounces.bare_size hbare)
      rw [hlength, show (32 : UInt64).toNat = 32 from rfl] at hsize
      rw [List.length_append] at hshort
      omega
    have hbounded := c.contentAddress.bounded
    have hptrdiff : ptrdiff c.contentAddress.hash.length = c.contentAddress.hash.length := by
      refine ptrdiff_of_lt ?_
      unfold kMaxHashLength at hbounded
      omega
    have hdigest : readDigest c.contentAddress.hash.length (c.contentAddress.hash ++ rest) false =
        .ok (c.contentAddress.hash, rest) := by
      rw [readDigest, if_neg Bool.false_ne_true, hptrdiff, List.length_append, if_neg (by omega),
        splitSpan_le (by rw [List.length_append]; omega), List.take_left, List.drop_left]
      rfl
    rw [hfields]
    simp only [bind, Except.bind, hlength, hdigest, Multihash.create_of_le hbounded]

/-- The fields of a prefix, with zeros for the digest. -/
theorem read_blank_ok {input rest : Bytes} {c : CID} : read input true = .ok (c, rest) ↔
    (∃ fields, Announces fields c.version c.contentType c.contentAddress.type
      (UInt64.ofNat c.contentAddress.hash.length) ∧ input = fields ++ rest) ∧
    c.contentAddress.hash = List.replicate c.contentAddress.hash.length 0 := by
  have hlength := UInt64.toNat_ofNat_of_lt' c.contentAddress.length_lt
  rw [read_eq]
  constructor
  · intro h
    obtain ⟨⟨version, codec, type, size, behindFields⟩, hfields, h⟩ := bind_ok h
    obtain ⟨⟨hash, behindHash⟩, hdigest, h⟩ := bind_ok h
    obtain ⟨fields, hannounces, rfl, -⟩ := (readFields_ok).mp hfields
    rw [readDigest, if_pos rfl] at hdigest
    split_ifs at hdigest
    obtain ⟨rfl, rfl⟩ := Prod.mk.inj (ok_inj hdigest)
    simp only at h
    split at h
    · next m hm =>
      obtain ⟨rfl, rfl⟩ := Prod.mk.inj (ok_inj h)
      unfold Multihash.create at hm
      split_ifs at hm with hbounded
      obtain rfl := Option.some.inj hm
      rw [List.length_replicate] at hbounded
      have hsize : min size.toNat (kMaxHashLength + 1) = size.toNat := by omega
      refine ⟨⟨fields, ?_, rfl⟩, by rw [List.length_replicate]⟩
      simp only [List.length_replicate, hsize, UInt64.ofNat_toNat]
      exact hannounces
    · cases h
  · rintro ⟨⟨fields, hannounces, rfl⟩, hzeros⟩
    have hfields : readFields (fields ++ rest) true = .ok (c.version, c.contentType, c.contentAddress.type,
        UInt64.ofNat c.contentAddress.hash.length, rest) :=
      (readFields_ok).mpr ⟨fields, hannounces, rfl, fun h => Bool.false_ne_true h.1.symm⟩
    have hbounded := c.contentAddress.bounded
    have hnonneg : ¬ ptrdiff c.contentAddress.hash.length < 0 := by
      rw [ptrdiff_of_lt (by unfold kMaxHashLength at hbounded; omega)]
      omega
    have hdigest : readDigest c.contentAddress.hash.length rest true = .ok (c.contentAddress.hash, rest) := by
      rw [readDigest, if_pos rfl, if_neg hnonneg, Nat.min_eq_left (by omega), ← hzeros]
    rw [hfields]
    simp only [bind, Except.bind, hlength, hdigest, Multihash.create_of_le hbounded]

/-- The process ends at a hash size that is negative as the size of a span. -/
theorem read_terminated {input : Bytes} {isPrefix : Bool} : read input isPrefix = .error .terminated ↔
    ∃ fields version codec type size rest, Announces fields version codec type size ∧ input = fields ++ rest ∧
      2 ^ 63 ≤ size.toNat := by
  rw [read_eq]
  constructor
  · intro h
    obtain hfields | ⟨⟨version, codec, type, size, behindFields⟩, hfields, hbehind⟩ := bind_error h
    · exact absurd rfl (readFields_error hfields).1
    obtain ⟨fields, hannounces, rfl, -⟩ := (readFields_ok).mp hfields
    obtain hdigest | ⟨⟨hash, behindHash⟩, -, hcreate⟩ := bind_error hbehind
    · refine ⟨fields, version, codec, type, size, behindFields, hannounces, rfl, ?_⟩
      by_contra hsmall
      unfold readDigest at hdigest
      split_ifs at hdigest with _ hneg hshort
      · rw [ptrdiff_of_lt (Nat.not_le.mp hsmall)] at hneg
        omega
      · cases hdigest
      · obtain ⟨-, -, -, hsplit⟩ | ⟨-, -, hshort'⟩ | ⟨hlarge, -, -⟩ := split_cases size behindFields
        · rw [hsplit] at hdigest
          cases hdigest
        · exact hshort hshort'
        · exact hsmall hlarge
    · simp only at hcreate
      split at hcreate
      · cases hcreate
      · cases hcreate
  · rintro ⟨fields, version, codec, type, size, rest, hannounces, rfl, hlarge⟩
    have hfields : readFields (fields ++ rest) isPrefix = .ok (version, codec, type, size, rest) := by
      refine (readFields_ok).mpr ⟨fields, hannounces, rfl, ?_⟩
      rintro ⟨-, hbare, -⟩
      rw [hannounces.bare_size hbare] at hlarge
      exact absurd hlarge (by decide)
    have hdigest : readDigest size.toNat rest isPrefix = .error .terminated := by
      have hneg := ptrdiff_negative hlarge size.toNat_lt
      cases isPrefix with
      | true => rw [readDigest, if_pos rfl, if_pos hneg]
      | false =>
        rw [readDigest, if_neg Bool.false_ne_true, if_neg (by omega), splitSpan_negative hneg]
        rfl
    rw [hfields]
    simp only [bind, Except.bind, hdigest]

/-- A prefix is refused for its length where the span is past the zero array. -/
theorem read_inputTooLong {input : Bytes} : read input true = .error .inputTooLong ↔
    ∃ fields version codec type size rest, Announces fields version codec type size ∧ input = fields ++ rest ∧
      kMaxHashLength < size.toNat ∧ size.toNat < 2 ^ 63 := by
  rw [read_eq]
  constructor
  · intro h
    obtain hfields | ⟨⟨version, codec, type, size, behindFields⟩, hfields, hbehind⟩ := bind_error h
    · exact absurd rfl (readFields_error hfields).2
    obtain ⟨fields, hannounces, rfl, -⟩ := (readFields_ok).mp hfields
    obtain hdigest | ⟨⟨hash, behindHash⟩, hdigest, hcreate⟩ := bind_error hbehind
    · rw [readDigest, if_pos rfl] at hdigest
      split_ifs at hdigest
      cases hdigest
    · rw [readDigest, if_pos rfl] at hdigest
      split_ifs at hdigest with hneg
      obtain ⟨rfl, rfl⟩ := Prod.mk.inj (ok_inj hdigest)
      refine ⟨fields, version, codec, type, size, behindFields, hannounces, rfl, ?_, ?_⟩
      · by_contra hsmall
        simp only at hcreate
        rw [Multihash.create_of_le (by rw [List.length_replicate]; omega)] at hcreate
        cases hcreate
      · by_contra hlarge
        exact hneg (ptrdiff_negative (Nat.not_lt.mp hlarge) size.toNat_lt)
  · rintro ⟨fields, version, codec, type, size, rest, hannounces, rfl, hlarge, hsmall⟩
    have hfields : readFields (fields ++ rest) true = .ok (version, codec, type, size, rest) :=
      (readFields_ok).mpr ⟨fields, hannounces, rfl, fun h => Bool.false_ne_true h.1.symm⟩
    have hnonneg : ¬ ptrdiff size.toNat < 0 := by
      rw [ptrdiff_of_lt hsmall]
      omega
    have hdigest : readDigest size.toNat rest true = .ok (List.replicate (kMaxHashLength + 1) 0, rest) := by
      rw [readDigest, if_pos rfl, if_neg hnonneg, Nat.min_eq_right hlarge]
    have hcreate : Multihash.create type (List.replicate (kMaxHashLength + 1) 0) = none :=
      dif_neg (by rw [List.length_replicate]; omega)
    rw [hfields]
    simp only [bind, Except.bind, hdigest, hcreate]

/-! ## In bounds -/

/-- An error, or the CID of the announced fields. In full mode the digest is the announced number of bytes behind
them, in prefix mode it is taken from the zero array; what is left is what stands behind that. -/
def ReadInBounds (input : Bytes) (isPrefix : Bool) : Prop :=
  (∃ e, read input isPrefix = .error e ∧ e ≠ .terminated) ∨
  ∃ c rest fields size, read input isPrefix = .ok (c, rest) ∧
    Announces fields c.version c.contentType c.contentAddress.type size ∧
    if isPrefix then input = fields ++ rest ∧ size.toNat ≤ kMaxHashLength ∧
      c.contentAddress.hash = List.replicate size.toNat 0
    else input = fields ++ c.contentAddress.hash ++ rest ∧ c.contentAddress.hash.length = size.toNat

/-- One of the two errors, or as many bytes as are announced and what stands behind them. -/
def BytesInBounds {ε : Type} (errorLength errorData : ε) (input : Bytes) : Prop :=
  readBytes errorLength errorData input = .error (.returned errorLength) ∨
  readBytes errorLength errorData input = .error (.returned errorData) ∨
  ∃ result rest used size, readBytes errorLength errorData input = .ok (result, rest) ∧ Spells used size ∧
    input = used ++ result ++ rest ∧ result.length = size.toNat

theorem readInBounds_iff {input : Bytes} {isPrefix : Bool} :
    ReadInBounds input isPrefix ↔ read input isPrefix ≠ .error .terminated := by
  constructor
  · rintro (⟨e, h, hne⟩ | ⟨c, rest, fields, size, h, -⟩) hterminated
    · rw [h] at hterminated
      exact hne (Except.error.inj hterminated)
    · rw [h] at hterminated
      cases hterminated
  · intro h
    cases hread : read input isPrefix with
    | error e => exact .inl ⟨e, hread, fun he => h (by rw [hread, he])⟩
    | ok result =>
      obtain ⟨c, rest⟩ := result
      have hlength := UInt64.toNat_ofNat_of_lt' c.contentAddress.length_lt
      refine .inr ⟨c, rest, ?_⟩
      cases isPrefix with
      | true =>
        obtain ⟨⟨fields, hannounces, heq⟩, hzeros⟩ := (read_blank_ok).mp hread
        refine ⟨fields, _, hread, hannounces, ?_⟩
        rw [if_pos rfl, hlength]
        exact ⟨heq, c.contentAddress.bounded, hzeros⟩
      | false =>
        obtain ⟨fields, hannounces, heq⟩ := (read_full_ok).mp hread
        refine ⟨fields, _, hread, hannounces, ?_⟩
        rw [if_neg Bool.false_ne_true, hlength]
        exact ⟨heq, rfl⟩

theorem bytesInBounds_iff {ε : Type} {errorLength errorData : ε} {input : Bytes} :
    BytesInBounds errorLength errorData input ↔
      ∀ used size rest, Spells used size → input = used ++ rest → size.toNat < 2 ^ 63 := by
  constructor
  · rintro h used size rest hused rfl
    have hsize : readUvarint errorLength (used ++ rest) = .ok (size, rest) := (readUvarint_ok).mpr ⟨used, hused, rfl⟩
    unfold BytesInBounds at h
    simp only [readBytes, hsize] at h
    by_contra hlarge
    have hneg := ptrdiff_negative (Nat.not_lt.mp hlarge) size.toNat_lt
    rw [if_neg (by omega), splitSpan_negative hneg] at h
    obtain h | h | ⟨result, rest', used', size', h, -⟩ := h
    · cases h
    · cases h
    · cases h
  · intro h
    unfold BytesInBounds
    cases hread : readUvarint errorLength input with
    | error e =>
      refine .inl ?_
      rw [readBytes, hread, readUvarint_error hread]
    | ok result =>
      obtain ⟨size, rest⟩ := result
      obtain ⟨used, hused, rfl⟩ := (readUvarint_ok).mp hread
      have hsmall := h used size rest hused rfl
      simp only [readBytes, hread]
      obtain ⟨hle, -, hfits, hsplit⟩ | ⟨-, -, hshort⟩ | ⟨hlarge, -, -⟩ := split_cases size rest
      · rw [if_neg hfits, hsplit]
        refine .inr (.inr ⟨_, _, used, size, rfl, hused, ?_, ?_⟩)
        · rw [List.append_assoc, List.take_append_drop]
        · rw [List.length_take, Nat.min_eq_left hle]
      · rw [if_pos hshort]
        exact .inr (.inl rfl)
      · omega

/-- **The readers stay in bounds** exactly when no announced size is 2^63 or more. -/
theorem readers_in_bounds_iff {ε : Type} (errorLength errorData : ε) (input : Bytes) (isPrefix : Bool) :
    (ReadInBounds input isPrefix ↔
      ∀ fields version codec type size rest, Announces fields version codec type size → input = fields ++ rest →
        size.toNat < 2 ^ 63) ∧
    (BytesInBounds errorLength errorData input ↔
      ∀ used size rest, Spells used size → input = used ++ rest → size.toNat < 2 ^ 63) := by
  refine ⟨?_, bytesInBounds_iff⟩
  rw [readInBounds_iff, ne_eq, read_terminated]
  constructor
  · intro h fields version codec type size rest hannounces heq
    by_contra hlarge
    exact h ⟨fields, version, codec, type, size, rest, hannounces, heq, Nat.not_lt.mp hlarge⟩
  · rintro h ⟨fields, version, codec, type, size, rest, hannounces, heq, hlarge⟩
    exact absurd (h fields version codec type size rest hannounces heq) (Nat.not_lt.mpr hlarge)

/-- A raw CID, a prefix and bytes of 2^64 - 1 bytes. -/
theorem huge_sizes_terminate :
    let size : Bytes := [0xff, 0xff, 0xff, 0xff, 0xff, 0xff, 0xff, 0xff, 0xff, 0x01]
    read ([1, 0x55, 0] ++ size) false = .error .terminated ∧ read ([1, 0x55, 0] ++ size) true = .error .terminated ∧
    readBytes false true size = .error .terminated ∧
    ¬ ReadInBounds ([1, 0x55, 0] ++ size) false ∧ ¬ ReadInBounds ([1, 0x55, 0] ++ size) true ∧
    ¬ BytesInBounds false true size := by
  intro size
  have hfull : read ([1, 0x55, 0] ++ size) false = .error .terminated := by decide +kernel
  have hblank : read ([1, 0x55, 0] ++ size) true = .error .terminated := by decide +kernel
  have hbytes : readBytes false true size = .error .terminated := by decide +kernel
  refine ⟨hfull, hblank, hbytes, fun h => (readInBounds_iff).mp h hfull, fun h => (readInBounds_iff).mp h hblank, ?_⟩
  unfold BytesInBounds
  rw [hbytes]
  rintro (h | h | ⟨result, rest, used, size, h, -⟩)
  · cases h
  · cases h
  · cases h

/-! ## The byte form of what is read -/

/-- A CID has a byte form, from which it is read back. -/
def Reencodable (c : CID) : Prop := ∃ d, c.toBytes = some d ∧ fromBytes d = some c

theorem reencodable_iff {c : CID} : c.Reencodable ↔ c.version = .v1 ∨ c.IsV0 := by
  constructor
  · rintro ⟨d, hd, -⟩
    exact (toBytes_eq hd).1
  · intro h
    have hsome : ∃ d, c.toBytes = some d := by
      unfold toBytes
      cases hv : c.version with
      | v1 => exact ⟨_, rfl⟩
      | v0 =>
        obtain h1 | h0 := h
        · rw [hv] at h1
          cases h1
        · exact ⟨_, if_pos h0⟩
    obtain ⟨d, hd⟩ := hsome
    exact ⟨d, hd, fromBytes_toBytes hd⟩

theorem reencodable_toBytes {c : CID} : c.Reencodable ↔ c.toBytes.isSome = true := by
  constructor
  · rintro ⟨d, hd, -⟩
    rw [hd]
    rfl
  · intro h
    obtain ⟨d, hd⟩ := Option.isSome_iff_exists.mp h
    exact ⟨d, hd, fromBytes_toBytes hd⟩

/-- What `ContentIdentifierCodec::decode` accepts, `encode` writes. -/
theorem fromBytes_reencodable {bytes : Bytes} {c : CID} (h : fromBytes bytes = some c) : c.Reencodable := by
  refine (reencodable_iff).mpr ?_
  unfold fromBytes at h
  split_ifs at h with hbare
  · obtain ⟨m, hm, rfl⟩ := Option.map_eq_some_iff.mp h
    refine .inr ⟨rfl, rfl, ?_⟩
    -- the two bytes are the type and the length
    obtain ⟨hlength, htake⟩ := hbare
    have hbytes : bytes = [0x12, 0x20] ++ bytes.drop 2 := by
      rw [← htake, List.take_append_drop]
    have htype : Varint.decode bytes = some (0x12, [0x20] ++ bytes.drop 2) := by
      rw [hbytes]
      rfl
    have hlen : Varint.decode ([0x20] ++ bytes.drop 2) = some (0x20, bytes.drop 2) := rfl
    simp only [Multihash.createFromBytes, htype, hlen, Option.bind_eq_bind, Option.bind_some] at hm
    split_ifs at hm
    unfold Multihash.create at hm
    split_ifs at hm
    rw [← Option.some.inj hm]
    exact ⟨rfl, by rw [List.length_drop, hlength]⟩
  · obtain ⟨⟨version, rest⟩, -, h⟩ := Option.bind_eq_some_iff.mp h
    simp only at h
    split_ifs at h
    obtain ⟨⟨codec, rest'⟩, -, h⟩ := Option.bind_eq_some_iff.mp h
    simp only at h
    split_ifs at h
    obtain ⟨m, -, rfl⟩ := Option.map_eq_some_iff.mp h
    exact .inl rfl

/-- A CID of the announced fields is written again, unless it is of version 0 and no sha2-256 of DAG-PB. -/
theorem read_reencodable_iff (input : Bytes) :
    (∀ c rest, read input false = .ok (c, rest) → c.Reencodable) ↔
      ∀ fields codec type size digest rest, Announces fields .v0 codec type size → input = fields ++ digest ++ rest →
        digest.length = size.toNat → size.toNat ≤ kMaxHashLength →
        codec = Multicodec.dagPb ∧ type = HashType.sha256 ∧ size = 32 := by
  constructor
  · intro h fields codec type size digest rest hannounces heq hlength hbounded
    have hread : read input false = .ok (⟨.v0, codec, ⟨type, digest, by rw [hlength]; exact hbounded⟩⟩, rest) := by
      refine (read_full_ok).mpr ⟨fields, ?_, heq⟩
      simp only [hlength, UInt64.ofNat_toNat]
      exact hannounces
    obtain h1 | ⟨-, hcodec, htype, h32⟩ := (reencodable_iff).mp (h _ rest hread)
    · cases h1
    · refine ⟨hcodec, htype, UInt64.toNat_inj.mp ?_⟩
      rw [← hlength]
      exact h32
  · intro h c rest hread
    obtain ⟨fields, hannounces, heq⟩ := (read_full_ok).mp hread
    refine (reencodable_iff).mpr ?_
    cases hv : c.version with
    | v1 => exact .inl rfl
    | v0 =>
      rw [hv] at hannounces
      have hlength := UInt64.toNat_ofNat_of_lt' c.contentAddress.length_lt
      obtain ⟨hcodec, htype, h32⟩ := h fields c.contentType c.contentAddress.type _ c.contentAddress.hash rest
        hannounces heq hlength.symm (by rw [hlength]; exact c.contentAddress.bounded)
      refine .inr ⟨hv, hcodec, htype, ?_⟩
      rw [← hlength, h32]
      rfl

end CID
end IpfsLite
