import IpfsLite.Codec.CborPosition

/-! # Skipping an item

`next` and `raw` at a well-formed item of any kind. A chain of tags is skipped with its item only when
the CID tag is in front of it. -/
namespace IpfsLite.Codec
set_option autoImplicit false

open Cbor (Major Argument Items)

namespace CborDecodeStream
variable {P : Platform}

/-- The item is skipped as a whole: the stream is left behind it, and `raw` returns its bytes. -/
def SkipsItem (P : Platform) (s : CborDecodeStream) (item rest : Bytes) : Prop :=
  ∃ s', s.next P = .ok s' ∧ s'.value.ptr = rest ∧ s.raw P = .ok (item, s')

/-- No tag, or the CID tag outermost and an item left to skip. -/
def SkippableTag (item : Bytes) (remaining : ℕ) : Prop :=
  (∀ n, peek item ≠ some (.tag, n)) ∨ peek item = some (.tag, some kCidTag) ∧ remaining ≠ 0

/-- The containers hold no more than the parser can count. -/
def Countable (item : Bytes) : Prop := ∃ p, Items kUnknownCount p 1 item

/-- `raw` cuts the bytes off where `next` stops. -/
theorem raw_of_next {item rest : Bytes} {r : ℕ} {s' : CborDecodeStream}
    (h : (reading (item ++ rest) r).next P = .ok s') (hptr : s'.value.ptr = rest) :
    (reading (item ++ rest) r).raw P = .ok (item, s') := by
  have htake : (item ++ rest).take ((item ++ rest).length - rest.length) = item := by
    rw [List.length_append, Nat.add_sub_cancel, List.take_left]
  rw [raw, h]
  simp only [bind, Except.bind, hptr]
  rw [show (reading (item ++ rest) r).value.ptr = item ++ rest from rfl, htake]

theorem skipsItem_iff_next {item rest : Bytes} {r : ℕ} :
    SkipsItem P (reading (item ++ rest) r) item rest ↔
      ∃ s', (reading (item ++ rest) r).next P = .ok s' ∧ s'.value.ptr = rest :=
  ⟨fun ⟨s', h, hptr, _⟩ => ⟨s', h, hptr⟩, fun ⟨s', h, hptr⟩ => ⟨s', h, hptr, raw_of_next h hptr⟩⟩

/-- Where the parser starts again behind the item. -/
theorem next_restart_iff {s : CborDecodeStream} {rest : Bytes} {r : ℕ}
    (h : s.next P = restart P r (.atEnd rest)) :
    (∃ s', s.next P = .ok s' ∧ s'.value.ptr = rest) ↔ Follows P rest := by
  rw [h]
  constructor
  · rintro ⟨s', hs', -⟩
    by_contra hnot
    rw [restart_error hnot] at hs'
    exact absurd hs' (by simp [raise])
  · intro hrest
    exact ⟨_, restart_ok hrest r, ptr_after rest r⟩

theorem next_raise {s : CborDecodeStream} {e : CborDecodeError} {rest : Bytes} (h : s.next P = raise e) :
    ¬ ∃ s', s.next P = .ok s' ∧ s'.value.ptr = rest := by
  rintro ⟨s', hs', -⟩
  rw [h] at hs'
  exact absurd hs' (by simp [raise])

theorem countable_tags {chain : List Argument} {bound : ℕ} {item : Bytes} (h : Cbor.Untagged bound item) :
    Countable (Cbor.tags chain ++ item) ↔ Untagged item := by
  constructor
  · rintro ⟨p, hp⟩
    exact ⟨hp.of_tags, h.2⟩
  · rintro ⟨⟨p, hp⟩, -⟩
    exact ⟨p, hp.under_tags chain⟩

/-- A skippable item is left behind. -/
theorem next_skippable {item : Bytes} {r : ℕ} (h : Countable item) (htag : SkippableTag item r) (rest : Bytes) :
    (reading (item ++ rest) r).next P = restart P r (.atEnd rest) := by
  obtain ⟨p, hp⟩ := h
  obtain ⟨chain, content, others, rfl, hcontent, q, hothers⟩ := hp.behind_tags
  obtain rfl := hothers.eq_nil
  rw [List.append_nil, List.append_assoc]
  cases chain with
  | nil => exact next_untagged hcontent rest r
  | cons a chain =>
    have hpeek : peek (Cbor.tags (a :: chain) ++ content) = some (.tag, some a.value) := by
      rw [Cbor.tags, List.flatMap_cons, List.append_assoc, peek_head .tag a _ (by simp)]
    rw [List.append_nil, SkippableTag, hpeek] at htag
    obtain hnone | ⟨hcid, hr⟩ := htag
    · exact absurd rfl (hnone _)
    · exact next_cid (by simpa using hcid) chain hcontent rest hr

/-- Any other item loses a tag only. -/
theorem next_unskippable {item : Bytes} {r : ℕ} (h : Countable item) (hr : r ≠ 0) (hlt : r < 2 ^ 32)
    (htag : ¬ SkippableTag item r) (rest : Bytes) :
    ∃ content, Countable content ∧ (reading (item ++ rest) r).next P = .ok (reading (content ++ rest) r) := by
  obtain ⟨p, hp⟩ := h
  obtain ⟨chain, content, others, rfl, hcontent, q, hothers⟩ := hp.behind_tags
  obtain rfl := hothers.eq_nil
  rw [List.append_nil] at htag ⊢
  obtain ⟨q', hinner⟩ := hcontent.1
  cases chain with
  | nil =>
    refine absurd (.inl fun n hn => ?_) htag
    obtain ⟨m, n', htype, hm⟩ := TinyCbor.untagged_type hcontent []
    rw [Cbor.tags, List.flatMap_nil, List.nil_append] at hn
    rw [List.append_nil, hn, Option.some.injEq, Prod.mk.injEq] at htype
    exact hm htype.1.symm
  | cons a chain =>
    have hcons : Cbor.tags (a :: chain) ++ content = Cbor.head .tag a ++ (Cbor.tags chain ++ content) := by
      rw [Cbor.tags, List.flatMap_cons, List.append_assoc, ← Cbor.tags]
    have hpeek : peek (Cbor.tags (a :: chain) ++ content) = some (.tag, some a.value) := by
      rw [hcons, peek_head .tag a _ (by simp)]
    have ha : a.value ≠ kCidTag := by
      intro ha
      rw [SkippableTag, hpeek, ha] at htag
      exact htag (.inr ⟨rfl, hr⟩)
    refine ⟨Cbor.tags chain ++ content, ⟨q', hinner.under_tags chain⟩, ?_⟩
    rw [hcons, List.append_assoc]
    exact next_tag ha ((starts_items (hinner.under_tags chain)).append rest) hlt

end CborDecodeStream
end IpfsLite.Codec
