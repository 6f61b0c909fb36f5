import IpfsLite.Codec.CborEncodeStream
import IpfsLite.Common.CborStream

/-! # Which encoded objects can be streamed

`CborStream::write` sends what `CborEncodeStream` encodes, `CborStream::read` finds its end with
`CborBuffering`, which knows the major types 0 to 6: booleans and null are of type 7. -/
namespace IpfsLite.Common
set_option autoImplicit false

open Codec (CborEncodeStream)
open Codec.CborEncodeStream (Built)

/-- The stream encodes one data item. -/
def Single (s : CborEncodeStream) : Prop := s.isList = true ∨ s.count = 1

/-- One call of `consume` takes all of the bytes and is done. -/
def Consumed (bytes : Bytes) : Prop :=
  ∃ t, CborBuffering.init.reset.consume bytes = .ok (bytes.length, t) ∧ t.done = true

theorem single_items {p : Bool} {s : CborEncodeStream} (h : Built p s) (hsingle : Single s)
    (hlength : s.data.length < 2 ^ 64) : Cbor.Items (2 ^ 64) p 1 s.data := by
  have hdata : s.data_.length < 2 ^ 64 :=
    Nat.lt_of_le_of_lt (CborEncodeStream.length_data_ge s) hlength
  have hitems := CborEncodeStream.items_data (h.items hdata) hdata
  obtain hlist | hone := hsingle
  · rwa [hlist, if_pos rfl] at hitems
  · rwa [hone, ite_self] at hitems

theorem consume_item {p : Bool} {bytes : Bytes} (h : Cbor.Items (2 ^ 64) p 1 bytes) :
    CborBuffering.init.reset.consume bytes =
      if p then .error .invalidHeadType else .ok (bytes.length, .init) := by
  have hfeed := CborBuffering.feed_item h []
  rw [List.append_nil] at hfeed
  rw [CborBuffering.consume_eq CborBuffering.init_sound.reset, hfeed]
  cases p <;> rfl

/-- **Streamable objects.** An encoded object is found to end where it does exactly when there is
neither a boolean nor null in it. -/
theorem consumed_iff {p : Bool} {s : CborEncodeStream} (h : Built p s) (hsingle : Single s)
    (hlength : s.data.length < 2 ^ 64) : Consumed s.data ↔ p = false := by
  have hconsume := consume_item (single_items h hsingle hlength)
  constructor
  · rintro ⟨t, ht, -⟩
    rw [hconsume] at ht
    cases p with
    | false => rfl
    | true => exact absurd ht (by simp)
  · rintro rfl
    exact ⟨.init, hconsume, by decide⟩

/-- The list of the byte string `ca fe` and a tagged CID is consumed. -/
theorem bytes_and_cid_consumed :
    let c : CID := ⟨.v1, 0x55, ⟨0, [], by decide⟩⟩
    ∃ s, (CborEncodeStream.list.writeBytes [0xca, 0xfe]).writeCid c = .ok s ∧
      Consumed s.data := by
  intro c
  obtain ⟨s, hs⟩ : ∃ s, (CborEncodeStream.list.writeBytes [0xca, 0xfe]).writeCid c = .ok s := ⟨_, rfl⟩
  have hbuilt : Built false s := .cid (.bytes _ .list) hs
  cases hs
  exact ⟨_, rfl, (consumed_iff hbuilt (.inl rfl) (by decide)).mpr rfl⟩

/-- `true` is encoded as `f5`, and the read of it fails. -/
theorem bool_not_consumed :
    Built true (CborEncodeStream.init.writeBool true) ∧ Single (CborEncodeStream.init.writeBool true) ∧
      (CborEncodeStream.init.writeBool true).data = [0xf5] ∧
      ¬ Consumed (CborEncodeStream.init.writeBool true).data ∧
      (CborStream.init.readRaw [(CborEncodeStream.init.writeBool true).data]).1 =
        .error .invalidHeadType := by
  have hconsume : CborBuffering.init.reset.consume (CborEncodeStream.init.writeBool true).data =
      .error .invalidHeadType := by decide
  refine ⟨.bool true .init, .inr rfl, by decide, ?_, by decide +kernel⟩
  rintro ⟨t, ht, -⟩
  rw [hconsume] at ht
  exact absurd ht (by simp)

end IpfsLite.Common
