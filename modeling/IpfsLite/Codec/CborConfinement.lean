import IpfsLite.Codec.CborPosition
import IpfsLite.Codec.CborTypes

/-! # The end of a list

What a substream does once the elements of its list have been read: the count of items says that none is
left, but the parser has been started again on what stands behind the list. -/
namespace IpfsLite.Codec
set_option autoImplicit false

open Cbor (Major Argument Items)

namespace CborDecodeStream

/-- The calls that read on. -/
inductive Op where
  | value (t : Ty)
  | list
  | map
  | raw
  | next

def Op.run (P : Platform) : Op → CborDecodeStream → Result CborDecodeStream
  | .value t, s => (t.read P s).map Prod.snd
  | .list, s => (s.list P).map Prod.snd
  | .map, s => (s.map P).map Prod.snd
  | .raw, s => (s.raw P).map Prod.snd
  | .next, s => s.next P

/-- No call reads on. -/
def Confined (P : Platform) (s : CborDecodeStream) : Prop := ∀ op : Op, ∃ f, op.run P s = .error f

/-- Calls one after the other, up to a position. -/
inductive ReadsTo (P : Platform) (rest : Bytes) : CborDecodeStream → CborDecodeStream → Prop where
  | here {s : CborDecodeStream} (h : s.value.ptr = rest) : ReadsTo P rest s s
  | more {s t u : CborDecodeStream} (op : Op) (hne : s.value.ptr ≠ rest) (h : op.run P s = .ok t)
      (hrest : ReadsTo P rest t u) : ReadsTo P rest s u

/-- Behind all of the elements. -/
def behind (count : ℕ) (rest : Bytes) : CborDecodeStream :=
  if count = 0 ∨ rest = [] then ⟨.atEnd rest⟩ else reading rest 0

/-- The parser steps over what is there, and the data end there or go on with a value. -/
def StepsOver (P : Platform) (s : CborDecodeStream) : Prop :=
  ∃ value, P.tinycbor.advance { s.value with remaining := 1 } = some value ∧
    (value.ptr = [] ∨ (P.tinycbor.parserInit value.ptr).isSome = true)

variable {P : Platform}

/-! ## What any call leaves behind -/

theorem read_leftBehind {t : Ty} {v : t.Val} {s s' : CborDecodeStream} (h : t.read P s = .ok (v, s')) :
    LeftBehind P s s' := by
  induction t generalizing s s' with
  | bool => exact .inl (readBool_next h)
  | unsigned w =>
    obtain ⟨⟨n, t⟩, hread, h⟩ := bind_ok h
    rw [← (Prod.mk.inj (ok_inj h)).2]
    exact .inl (readUnsigned_next hread)
  | signed w =>
    obtain ⟨⟨n, t⟩, hread, h⟩ := bind_ok h
    rw [← (Prod.mk.inj (ok_inj h)).2]
    exact .inl (readSigned_next hread)
  | string => exact .inl (readString_next h)
  | bytes => exact .inl (readBytes_next h)
  | cid => exact readCid_leftBehind h
  | blob size => exact .inl (readSpan_next h)
  | bigInt =>
    obtain ⟨⟨data, t⟩, hread, h⟩ := bind_ok h
    rw [← (Prod.mk.inj (ok_inj h)).2]
    exact .inl (readBytes_next hread)
  | optional t ih =>
    rw [Ty.read] at h
    split_ifs at h
    · obtain ⟨t, ht, h⟩ := bind_ok h
      rw [← (Prod.mk.inj (ok_inj h)).2]
      exact .inl ht
    · obtain ⟨⟨w, t⟩, hread, h⟩ := bind_ok h
      rw [← (Prod.mk.inj (ok_inj h)).2]
      exact ih hread
  | vector t _ =>
    obtain ⟨n, -, h⟩ := bind_ok h
    obtain ⟨⟨l, t⟩, hlist, h⟩ := bind_ok h
    dsimp only at h
    split_ifs at h
    obtain ⟨⟨vs, _⟩, -, h⟩ := bind_ok h
    rw [← (Prod.mk.inj (ok_inj h)).2]
    exact .inl (list_next hlist)
  | map t _ =>
    obtain ⟨⟨m, t⟩, hmap, h⟩ := bind_ok h
    obtain ⟨items, -, h⟩ := bind_ok h
    rw [← (Prod.mk.inj (ok_inj h)).2]
    exact .inl (map_next hmap)

/-- What any call leaves behind. -/
theorem run_leftBehind {op : Op} {s s' : CborDecodeStream} (h : op.run P s = .ok s') : LeftBehind P s s' := by
  have hmap : ∀ {α : Type} {x : Result (α × CborDecodeStream)}, x.map Prod.snd = .ok s' →
      ∃ a, x = .ok (a, s') := by
    intro α x hx
    cases x with
    | error f => cases hx
    | ok a => exact ⟨a.1, congrArg Except.ok (Prod.ext rfl (ok_inj hx))⟩
  cases op with
  | value t =>
    obtain ⟨v, hv⟩ := hmap h
    exact read_leftBehind hv
  | list =>
    obtain ⟨l, hl⟩ := hmap h
    exact .inl (list_next hl)
  | map =>
    obtain ⟨m, hm⟩ := hmap h
    exact .inl (map_next hm)
  | raw =>
    obtain ⟨data, hdata⟩ := hmap h
    obtain ⟨t, ht, hdata⟩ := bind_ok hdata
    rw [← (Prod.mk.inj (ok_inj hdata)).2]
    exact .inl ht
  | next => exact .inl h

/-! ## Within a list -/

/-- In front of so many elements, with what follows the list behind them. -/
def Within (rest : Bytes) (s : CborDecodeStream) : Prop :=
  ∃ p n left, n + 1 < 2 ^ 32 ∧ Items kUnknownCount p (n + 1) left ∧ s = reading (left ++ rest) (n + 1)

theorem ptr_behind (count : ℕ) (rest : Bytes) : (behind count rest).value.ptr = rest := by
  unfold behind
  split_ifs <;> rfl

theorem remaining_behind (count : ℕ) (rest : Bytes) : (behind count rest).value.remaining = 0 := by
  unfold behind
  split_ifs <;> rfl

theorem Within.ptr_ne {rest : Bytes} {s : CborDecodeStream} (h : Within rest s) : s.value.ptr ≠ rest := by
  obtain ⟨p, n, left, -, hleft, rfl⟩ := h
  intro hptr
  have hlength := congrArg List.length hptr
  have hpos := hleft.le_length
  simp only [reading, CborValue.ptr_reading, List.length_append] at hlength
  omega

/-- An element has been left behind: there are more of them, or the list has ended. -/
theorem restart_within {count n : ℕ} (hcount : count ≠ 0) (hn : n + 1 < 2 ^ 32) {q : Bool} {others rest : Bytes}
    (hothers : Items kUnknownCount q n others) {t : CborDecodeStream}
    (h : restart P (n + 1) (.atEnd (others ++ rest)) = .ok t) : Within rest t ∨ t = behind count rest := by
  have hfollows : Follows P (others ++ rest) := by
    by_contra hnot
    rw [restart_error hnot] at h
    cases h
  rw [restart_ok hfollows, Except.ok.injEq] at h
  subst h
  cases n with
  | zero =>
    rw [hothers.eq_nil, List.nil_append]
    refine .inr ?_
    unfold behind
    by_cases hnil : rest = []
    · rw [hnil, after_nil, if_pos (.inr rfl)]
    · rw [after_succ hnil (by decide), if_neg (by simp [hcount, hnil])]
  | succ n =>
    have hne : others ++ rest ≠ [] := fun hnil => hothers.ne_nil (List.append_eq_nil_iff.mp hnil).1
    rw [after_succ hne (by omega)]
    exact .inl ⟨q, n, others, by omega, hothers, rfl⟩

/-- One call within the list. -/
theorem within_step {count : ℕ} (hcount : count ≠ 0) {rest : Bytes} {op : Op} {s t : CborDecodeStream}
    (hs : Within rest s) (h : op.run P s = .ok t) : Within rest t ∨ t = behind count rest := by
  obtain ⟨p, n, left, hn, hleft, rfl⟩ := hs
  obtain ⟨chain, item, others, rfl, hitem, q, hothers⟩ := hleft.behind_tags
  obtain ⟨q', hone⟩ := hitem.1
  have hbytes : Cbor.tags chain ++ (item ++ others) ++ rest = Cbor.tags chain ++ (item ++ (others ++ rest)) := by
    simp only [List.append_assoc]
  rw [hbytes] at h
  cases chain with
  | nil =>
    rw [Cbor.tags, List.flatMap_nil, List.nil_append] at h
    have hcid := isCid_false hitem (others ++ rest) (n + 1)
    obtain hnext | ⟨-, -, hcid', -⟩ := run_leftBehind h
    · rw [next_untagged hitem] at hnext
      exact restart_within hcount hn hothers hnext
    · rw [hcid] at hcid'
      cases hcid'
  | cons a chain =>
    have hcons : Cbor.tags (a :: chain) ++ (item ++ (others ++ rest)) =
        Cbor.head .tag a ++ (Cbor.tags chain ++ (item ++ others) ++ rest) := by
      rw [Cbor.tags, List.flatMap_cons, ← Cbor.tags]
      simp only [List.append_assoc]
    have hinner : Items kUnknownCount (q' || q) (1 + n) (Cbor.tags chain ++ (item ++ others)) := by
      rw [← List.append_assoc]
      exact (hone.under_tags chain).append hothers
    rw [Nat.add_comm] at hinner
    have hstarts := (starts_items hinner).append rest
    obtain hnext | ⟨value, k, -, hadvance, htype, hnext⟩ := run_leftBehind h
    · by_cases ha : a.value = kCidTag
      · rw [next_cid ha chain hitem _ (Nat.succ_ne_zero n)] at hnext
        exact restart_within hcount hn hothers hnext
      · rw [hcons, next_tag ha hstarts hn, Except.ok.injEq] at hnext
        exact .inl ⟨_, n, _, hn, hinner, hnext.symm⟩
    · -- the value behind the tag is a byte string, so it has no tag of its own
      rw [hcons] at hadvance
      have hvalue := (P.tinycbor.advance_tag a _ (n + 1) (Nat.succ_ne_zero n) hstarts).symm.trans hadvance
      rw [Option.some.injEq] at hvalue
      subst hvalue
      cases chain with
      | nil =>
        rw [Cbor.tags, List.flatMap_nil, List.nil_append, List.append_assoc, ← reading,
          next_untagged hitem] at hnext
        exact restart_within hcount hn hothers hnext
      | cons a' chain =>
        rw [Cbor.tags, List.flatMap_cons, List.append_assoc, List.append_assoc, CborValue.type_reading,
          peek_head .tag a' _ (by simp)] at htype
        simp at htype

/-- Where the stream is once the elements have been read. -/
theorem reads_to_behind {count : ℕ} (hcount : count ≠ 0) {rest : Bytes} {s u : CborDecodeStream}
    (h : ReadsTo P rest s u) (hs : Within rest s ∨ s = behind count rest) : u = behind count rest := by
  induction h with
  | here hptr =>
    obtain hs | hs := hs
    · exact absurd hptr hs.ptr_ne
    · exact hs
  | more op hne hrun _ ih =>
    obtain hs | rfl := hs
    · exact ih (within_step hcount hs hrun)
    · exact absurd (ptr_behind count rest) hne

theorem reads_list {a : Argument} {p : Bool} {inner rest : Bytes} (hcount : a.value < kUnknownCount)
    (hinner : Items kUnknownCount p a.value inner) {u : CborDecodeStream}
    (h : ReadsTo P rest (inside a.value (inner ++ rest)) u) : u = behind a.value rest := by
  by_cases h0 : a.value = 0
  · rw [h0] at hinner h ⊢
    rw [hinner.eq_nil, List.nil_append, inside, if_pos rfl] at h
    cases h with
    | here => rw [behind, if_pos (.inl rfl)]
    | more op hne => exact absurd rfl hne
  · obtain ⟨n, hn⟩ := Nat.exists_eq_succ_of_ne_zero h0
    refine reads_to_behind h0 h (.inl ⟨p, n, inner, ?_, ?_, ?_⟩)
    · unfold kUnknownCount at hcount
      omega
    · rw [hn] at hinner
      exact hinner
    · rw [inside, if_neg h0, hn]

/-! ## Behind a list -/

/-- With no item left, a CID is refused, and anything else that can be stepped over is read. -/
theorem confined_at_end {s : CborDecodeStream} (hr : s.value.remaining = 0) :
    Confined P s ↔ s.isCid = true ∨ ¬ StepsOver P s := by
  constructor
  · intro hconfined
    by_contra hnot
    obtain ⟨hcid, value, hadvance, hends⟩ := by simpa only [not_or, not_not] using hnot
    have hnext : ∃ s', s.next P = .ok s' := by
      rw [next_other (Bool.eq_false_iff.mpr hcid), hadvance]
      simp only [check, Except.bind, restart]
      by_cases hptr : value.ptr = []
      · exact ⟨_, if_neg (not_not.mpr hptr)⟩
      · obtain ⟨w, hw⟩ := Option.isSome_iff_exists.mp (hends.resolve_left hptr)
        rw [if_pos hptr, hw]
        exact ⟨_, rfl⟩
    obtain ⟨s', hs'⟩ := hnext
    obtain ⟨f, hf⟩ := hconfined .next
    rw [Op.run, hs'] at hf
    cases hf
  · intro hend op
    cases hrun : op.run P s with
    | error f => exact ⟨f, rfl⟩
    | ok t =>
      exfalso
      obtain hnext | ⟨value, n, -, hadvance, -⟩ := run_leftBehind hrun
      · obtain hcid | hstep := hend
        · rw [next_cid_past_end hcid hr] at hnext
          cases hnext
        · by_cases hcid : s.isCid = true
          · rw [next_cid_past_end hcid hr] at hnext
            cases hnext
          · rw [next_other (Bool.eq_false_iff.mpr hcid)] at hnext
            obtain ⟨value, hvalue, hrestart⟩ := bind_ok hnext
            refine hstep ⟨value, check_ok hvalue, ?_⟩
            unfold restart at hrestart
            split_ifs at hrestart with hptr
            · obtain ⟨w, hw, -⟩ := bind_ok hrestart
              exact .inr (by rw [check_ok hw]; rfl)
            · exact .inl (not_not.mp hptr)
      · rw [P.tinycbor.advance_past_end s.value hr] at hadvance
        cases hadvance

/-- **Confinement.** Once the elements of a list have been read nothing more is read from it, exactly when
a CID follows the list or nothing that the parser steps over. -/
theorem confined_iff {a : Argument} {p : Bool} {inner rest : Bytes} {r : ℕ}
    (hinner : Items (2 ^ 64) p a.value inner) {l s u : CborDecodeStream}
    (hlist : (reading (Cbor.head .array a ++ (inner ++ rest)) r).list P = .ok (l, s))
    (hreads : ReadsTo P rest l u) :
    Confined P u ↔ (behind a.value rest).isCid = true ∨ ¬ StepsOver P (behind a.value rest) := by
  have huntagged : Cbor.Untagged (2 ^ 64) (Cbor.head .array a ++ inner) :=
    ⟨⟨p, .oneArray a.value_lt hinner⟩, .array, a, inner, rfl, by decide⟩
  have hcountable : Untagged (Cbor.head .array a ++ inner) := by
    by_contra hover
    have hnext := list_next hlist
    rw [← List.append_assoc, next_oversized huntagged hover] at hnext
    cases hnext
  obtain ⟨q, hone⟩ := hcountable.1
  obtain ⟨hcount, q', hparts⟩ := hone.of_array
  rw [list_array hcount hparts] at hlist
  obtain ⟨t, -, hlist⟩ := bind_ok hlist
  rw [← (Prod.mk.inj (ok_inj hlist)).1] at hreads
  rw [reads_list hcount hparts hreads]
  exact confined_at_end (remaining_behind _ _)

/-- Behind the list of the number 5 there is nothing, and nothing is read. -/
theorem ended_list_confined : ∃ u, ReadsTo .reference [] (inside 1 [0x05]) u ∧ Confined .reference u := by
  have hlist : (reading (Cbor.head .array ⟨.inline, 1, by decide⟩ ++ ([0x05] ++ [])) kUnknownCount).list .reference =
      .ok (inside 1 [0x05], ⟨.atEnd []⟩) := by decide +kernel
  have hreads : ReadsTo .reference [] (inside 1 [0x05]) ⟨.atEnd []⟩ :=
    .more .next (by decide) (by decide +kernel) (.here rfl)
  have hfive : Items (2 ^ 64) false 1 ([0x05] : Bytes) :=
    .oneInteger (m := .unsigned) ⟨.inline, 5, by decide⟩ (.inl rfl)
  have hnone : Platform.reference.tinycbor.advance { (behind 1 []).value with remaining := 1 } = none := by
    decide +kernel
  refine ⟨_, hreads, (confined_iff hfive hlist hreads).mpr (.inr ?_)⟩
  rintro ⟨value, hvalue, -⟩
  cases hnone.symm.trans hvalue

/-- A tuple of two numbers takes the second from behind the list `[5]`. -/
theorem tuple_reads_behind_list :
    Items (2 ^ 64) false 1 ([0x05] : Bytes) ∧
    ∃ s l s' u, create .reference [0x81, 0x05, 0x03] = .ok s ∧
      s = reading (Cbor.head .array ⟨.inline, 1, by decide⟩ ++ ([0x05] ++ [0x03])) kUnknownCount ∧
      s.list .reference = .ok (l, s') ∧ ReadsTo .reference [0x03] l u ∧
      Ty.read .reference (.signed .w32) l = .ok (5, u) ∧
      Ty.read .reference (.signed .w32) u = .ok (3, ⟨.atEnd []⟩) ∧ ¬ Confined .reference u := by
  refine ⟨.oneInteger (m := .unsigned) ⟨.inline, 5, by decide⟩ (.inl rfl), reading [0x81, 0x05, 0x03] kUnknownCount,
    reading [0x05, 0x03] 1, reading [0x03] (kUnknownCount - 1), reading [0x03] 0, by decide +kernel, rfl,
    by decide +kernel, .more (.value (.signed .w32)) (by decide) (by decide +kernel) (.here rfl),
    by decide +kernel, by decide +kernel, ?_⟩
  intro hconfined
  obtain ⟨f, hf⟩ := hconfined (.value (.signed .w32))
  have hread : Op.run .reference (.value (.signed .w32)) (reading [0x03] 0) = .ok ⟨.atEnd []⟩ := by decide +kernel
  rw [hread] at hf
  cases hf

end CborDecodeStream
end IpfsLite.Codec
