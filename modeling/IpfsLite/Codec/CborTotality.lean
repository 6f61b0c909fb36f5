import IpfsLite.Codec.CborPosition
import IpfsLite.Codec.CborTypes

/-! # What decoding can end with

`decode` catches `std::system_error` alone. It returns, or ends with a `CborDecodeError`, unless it comes to
a length that no container can take, to an empty CID, or, where tinycbor's assertions are compiled in, to a
vector that is no list. -/
namespace IpfsLite.Codec
set_option autoImplicit false

open Cbor (Major Argument Items)

namespace CborDecodeStream

/-- Returns a value, or raises a `CborDecodeError`. -/
def Settles {α : Type} (r : Result α) : Prop := (∃ a, r = .ok a) ∨ ∃ e, r = raise e

/-! ## Rules -/

theorem settles_ok {α : Type} (a : α) : Settles (.ok a : Result α) := .inl ⟨a, rfl⟩

theorem settles_raise {α : Type} (e : CborDecodeError) : Settles (raise e : Result α) := .inr ⟨e, rfl⟩

theorem settles_check {α : Type} (o : Option α) : Settles (check o) := by
  cases o with
  | none => exact settles_raise _
  | some a => exact settles_ok a

/-- Every failure is one of these. -/
def EndsIn (ways : Failure → Prop) {α : Type} (r : Result α) : Prop := ∀ f, r = .error f → ways f

theorem endsIn_ok {ways : Failure → Prop} {α : Type} (a : α) : EndsIn ways (.ok a : Result α) := by
  intro f hf
  cases hf

theorem endsIn_bind {ways : Failure → Prop} {α β : Type} {x : Result α} {f : α → Result β} :
    EndsIn ways (x >>= f) ↔ EndsIn ways x ∧ ∀ a, x = .ok a → EndsIn ways (f a) := by
  cases x with
  | ok a => exact ⟨fun h => ⟨endsIn_ok a, fun b hb => ok_inj hb ▸ h⟩, fun h => h.2 a rfl⟩
  | error e =>
    have hsame : EndsIn ways (.error e >>= f : Result β) ↔ EndsIn ways (.error e : Result α) := by
      simp [EndsIn, bind, Except.bind]
    refine hsame.trans ⟨fun h => ⟨h, fun b hb => ?_⟩, fun h => h.1⟩
    cases hb

/-- A `std::system_error`. -/
def Raised (f : Failure) : Prop := ∃ e, f = .raised e

theorem settles_iff {α : Type} {r : Result α} : Settles r ↔ EndsIn Raised r := by
  cases r with
  | ok a => exact ⟨fun _ => endsIn_ok a, fun _ => settles_ok a⟩
  | error f => simp [Settles, EndsIn, Raised, raise]

theorem settles_bind {α β : Type} {x : Result α} {f : α → Result β} :
    Settles (x >>= f) ↔ Settles x ∧ ∀ a, x = .ok a → Settles (f a) := by
  simp only [settles_iff]
  exact endsIn_bind

theorem settles_bind_of {α β : Type} {x : Result α} {f : α → Result β} (hx : Settles x)
    (hf : ∀ a, Settles (f a)) : Settles (x >>= f) := (settles_bind).mpr ⟨hx, fun a _ => hf a⟩

theorem not_settles {α : Type} {f : Failure} (h : ∀ e, f ≠ .raised e) : ¬ Settles (.error f : Result α) := by
  rintro (⟨a, ha⟩ | ⟨e, he⟩)
  · cases ha
  · exact h e (Except.error.inj he)

variable {P : Platform}

/-! ## Calls that always settle -/

theorem settles_next (s : CborDecodeStream) : Settles (s.next P) := by
  have hrestart : ∀ r value, Settles (restart P r value) := by
    intro r value
    unfold restart
    split_ifs
    · exact settles_bind_of (settles_check _) fun _ => settles_ok _
    · exact settles_ok _
  have hadvance : ∀ r value, Settles ((check (P.tinycbor.advance value)).bind (restart P r)) :=
    fun r value => settles_bind_of (settles_check _) (hrestart r)
  cases hcid : s.isCid with
  | true =>
    rw [next_isCid hcid]
    exact settles_bind_of (settles_check _) fun value => hadvance _ _
  | false =>
    rw [next_other hcid]
    exact hadvance _ _

theorem settles_then_next {α : Type} (a : α) (s : CborDecodeStream) :
    Settles (do .ok (a, ← s.next P) : Result (α × CborDecodeStream)) :=
  settles_bind_of (settles_next s) fun _ => settles_ok _

theorem settles_readBool (s : CborDecodeStream) : Settles (s.readBool P) := by
  unfold readBool
  split
  · exact settles_then_next _ s
  · exact settles_then_next _ s
  · exact settles_raise _

theorem settles_readUnsigned (max : ℕ) (s : CborDecodeStream) : Settles (s.readUnsigned P max) := by
  unfold readUnsigned
  split
  · split_ifs
    · exact settles_raise _
    · exact settles_then_next _ s
  · exact settles_raise _
  · exact settles_raise _

theorem settles_readSigned (min max : ℤ) (s : CborDecodeStream) : Settles (s.readSigned P min max) := by
  have hbounded : ∀ n : ℤ, Settles (if max < n ∨ n < min then raise .intOverflow
      else do .ok (n, ← s.next P) : Result (ℤ × CborDecodeStream)) := by
    intro n
    split_ifs
    · exact settles_raise _
    · exact settles_then_next _ s
  unfold readSigned
  split
  · exact hbounded _
  · exact hbounded _
  · exact settles_raise _

theorem settles_bytesLength (s : CborDecodeStream) : Settles s.bytesLength := by
  unfold bytesLength
  split
  · exact settles_ok _
  · exact settles_raise _
  · exact settles_raise _

theorem settles_readSpan (size : ℕ) (s : CborDecodeStream) : Settles (s.readSpan P size) := by
  refine settles_bind_of (settles_bytesLength s) fun n => ?_
  split_ifs
  · exact settles_raise _
  · exact settles_bind_of (settles_check _) fun _ => settles_then_next _ s

theorem settles_container (s : CborDecodeStream) : Settles (s.container P) :=
  settles_bind_of (settles_check _) fun _ => settles_ok _

theorem settles_list (s : CborDecodeStream) : Settles (s.list P) := by
  unfold list
  split_ifs
  · exact settles_bind_of (settles_container s) fun _ => settles_then_next _ s
  · exact settles_raise _

/-! ## Lengths -/

/-- What stands here does not declare more bytes than the target can be given. -/
def Bounded (m : Major) (max : ℕ) (v : CborValue) : Prop := ∀ n, v.type = some (m, some n) → n ≤ max

theorem bytesLength_ok {s : CborDecodeStream} {n : ℕ} (h : s.bytesLength = .ok n) :
    s.value.type = some (.bytes, some n) := by
  unfold bytesLength at h
  split at h
  · next htype => rw [htype, ok_inj h]
  · cases h
  · cases h

theorem settles_readBytes (s : CborDecodeStream) :
    Settles (s.readBytes P) ↔ Bounded .bytes P.bytesMax s.value := by
  constructor
  · intro h n hn
    by_contra hlarge
    rw [readBytes_of_type hn, if_pos (Nat.not_le.mp hlarge)] at h
    exact not_settles (by simp) h
  · intro h
    refine (settles_bind).mpr ⟨settles_bytesLength s, fun n hn => ?_⟩
    rw [if_neg (Nat.not_lt.mpr (h n (bytesLength_ok hn)))]
    exact settles_readSpan n s

theorem settles_readString (s : CborDecodeStream) :
    Settles (s.readString P) ↔ Bounded .text P.stringMax s.value := by
  constructor
  · intro h n hn
    by_contra hlarge
    rw [readString_of_type hn, if_pos (Nat.not_le.mp hlarge)] at h
    exact not_settles (by simp) h
  · intro h
    unfold readString
    split
    · next n hn =>
      rw [if_neg (Nat.not_lt.mpr (h n hn))]
      exact settles_bind_of (settles_check _) fun _ => settles_then_next _ s
    · exact settles_raise _
    · exact settles_raise _

/-! ## CIDs -/

/-- An empty byte string, which is copied, with nothing or a readable head behind it. -/
def EmptyPayload (P : Platform) (v : CborValue) : Prop :=
  v.type = some (.bytes, some 0) ∧ (P.tinycbor.copyString { v with remaining := 1 }).isSome = true ∧
    ∃ s, CborDecodeStream.next P ⟨v⟩ = .ok s

/-- Behind the CID tag is no byte string that is empty or too long. -/
def TameCid (P : Platform) (s : CborDecodeStream) : Prop :=
  ∀ value, s.isCid = true → P.tinycbor.advance s.value = some value →
    Bounded .bytes P.bytesMax value ∧ ¬ EmptyPayload P value

theorem readBytes_empty_iff {s : CborDecodeStream} :
    (∃ s', s.readBytes P = .ok ([], s')) ↔ EmptyPayload P s.value := by
  constructor
  · rintro ⟨s', h⟩
    have hnext := readBytes_next h
    obtain ⟨n, hn, -⟩ := bind_ok h
    have htype := bytesLength_ok hn
    rw [readBytes_of_type htype] at h
    split_ifs at h
    obtain ⟨data, hdata, h⟩ := bind_ok h
    obtain ⟨t, -, h⟩ := bind_ok h
    have hempty := (Prod.mk.inj (ok_inj h)).1
    have hcopy := check_ok hdata
    have hlength := P.tinycbor.copyString_length _ _ _ _ hcopy htype
    rw [hempty, List.length_nil] at hlength
    exact ⟨hlength ▸ htype, by rw [hcopy]; rfl, s', hnext⟩
  · rintro ⟨htype, hcopy, s', hnext⟩
    obtain ⟨data, hdata⟩ := Option.isSome_iff_exists.mp hcopy
    have hlength := P.tinycbor.copyString_length _ _ _ _ hdata htype
    rw [List.length_eq_zero_iff] at hlength
    refine ⟨s', ?_⟩
    rw [readBytes_of_type htype, if_neg (Nat.not_lt_zero _), hdata, hlength]
    have hnext' : s.next P = .ok s' := hnext
    rw [hnext']
    rfl

theorem settles_readPayload (s : CborDecodeStream) :
    Settles (s.readPayload P) ↔ Bounded .bytes P.bytesMax s.value ∧ ¬ EmptyPayload P s.value := by
  by_cases hbytes : ∃ n, s.value.type = some (.bytes, n)
  · obtain ⟨n, hn⟩ := hbytes
    unfold readPayload
    rw [hn]
    simp only
    rw [settles_bind, settles_readBytes, ← readBytes_empty_iff]
    refine and_congr_right fun _ => ⟨?_, ?_⟩
    · rintro h ⟨s', hs'⟩
      exact not_settles (by simp) (h _ hs')
    · rintro h ⟨data, s'⟩ hread
      cases data with
      | nil => exact absurd ⟨s', hread⟩ h
      | cons b data =>
        simp only
        split_ifs
        · exact settles_raise _
        · split
          · exact settles_ok _
          · exact settles_raise _
  · have hraise : s.readPayload P = raise .invalidCborCid := by
      unfold readPayload
      split
      · next n hn => exact absurd ⟨n, hn⟩ hbytes
      · rfl
    rw [hraise]
    refine ⟨fun _ => ⟨fun n hn => absurd ⟨some n, hn⟩ hbytes, fun hempty => hbytes ⟨_, hempty.1⟩⟩,
      fun _ => settles_raise _⟩

theorem settles_readCid (s : CborDecodeStream) : Settles (s.readCid P) ↔ TameCid P s := by
  unfold readCid TameCid
  by_cases hcid : s.isCid = true
  · rw [if_pos hcid, settles_bind]
    constructor
    · intro h value _ hvalue
      exact (settles_readPayload ⟨value⟩).mp (h.2 value (by rw [hvalue]; rfl))
    · intro h
      exact ⟨settles_check _, fun value hvalue => (settles_readPayload ⟨value⟩).mpr (h value hcid (check_ok hvalue))⟩
  · rw [if_neg hcid]
    exact ⟨fun _ value h => absurd h hcid, fun _ => settles_raise _⟩

/-! ## Maps -/

theorem settles_entry (s : CborDecodeStream) :
    Settles (s.entry P) ↔ Bounded .text P.stringMax s.value := by
  unfold entry
  rw [settles_bind, settles_readString]
  refine and_iff_left fun a _ => ?_
  exact settles_bind_of (settles_check _) fun _ => settles_bind_of (settles_check _) fun _ =>
    settles_bind_of (settles_check _) fun _ => settles_ok _

theorem restart_remaining_lt {r : ℕ} (hr : r ≠ 0) {value : CborValue} (hvalue : value.remaining = 0)
    {s : CborDecodeStream} (h : restart P r value = .ok s) : s.value.remaining < r := by
  unfold restart at h
  split_ifs at h
  · obtain ⟨w, -, h⟩ := bind_ok h
    rw [← ok_inj h, hvalue]
    simp only
    omega
  · rw [← ok_inj h, hvalue]
    exact Nat.pos_of_ne_zero hr

/-- A round takes at least one item off the count. -/
theorem entry_remaining {s t : CborDecodeStream} {e : StringKey × CborDecodeStream}
    (hr : s.value.remaining ≠ 0) (hmax : s.value.remaining ≤ kUnknownCount) (h : s.entry P = .ok (e, t)) :
    t.value.remaining < s.value.remaining := by
  obtain ⟨⟨key, u⟩, hkey, h⟩ := bind_ok h
  obtain ⟨v, hv, h⟩ := bind_ok h
  obtain ⟨w, hw, h⟩ := bind_ok h
  obtain ⟨stream, -, h⟩ := bind_ok h
  rw [← (Prod.mk.inj (ok_inj h)).2]
  -- the key is a string, so it is counted off
  have htype : ∃ n, s.value.type = some (.text, n) := by
    unfold readString at hkey
    split at hkey
    · next n hn => exact ⟨_, hn⟩
    · next hn => exact ⟨_, hn⟩
    · cases hkey
  obtain ⟨n, hn⟩ := htype
  have htag : ∀ r, ¬ CborValue.isTag { s.value with remaining := r } := by
    rintro r ⟨k, hk⟩
    rw [show s.value.type = some (.tag, k) from hk] at hn
    simp at hn
  have hcid : s.isCid = false :=
    Bool.eq_false_iff.mpr fun hcid => htag s.value.remaining ⟨_, (isCid_iff s).mp hcid⟩
  have hnext := readString_next hkey
  rw [next_other hcid] at hnext
  obtain ⟨a, ha, hrestart⟩ := bind_ok hnext
  have hzero : a.remaining = 0 :=
    Nat.lt_one_iff.mp (P.tinycbor.advance_counts _ a (check_ok ha) (htag 1)
      (show 1 < kUnknownCount by decide))
  have hlt := restart_remaining_lt hr hzero hrestart
  -- the value has lost its tags
  obtain ⟨hsame, hnotag⟩ := P.tinycbor.skipTag_counts _ v (check_ok hv)
  have hvalue := P.tinycbor.advance_counts v w (check_ok hw) hnotag (by omega)
  simp only
  omega

/-- No key that the loop comes to is too long. -/
def TameKeys (P : Platform) : ℕ → CborDecodeStream → Prop
  | 0, _ => True
  | fuel + 1, s =>
    s.atEnd = false → Bounded .text P.stringMax s.value ∧ ∀ e t, s.entry P = .ok (e, t) → TameKeys P fuel t

/-- The loop ends with the count. -/
theorem settles_entries {fuel : ℕ} {s : CborDecodeStream} (hfuel : s.value.remaining ≤ fuel)
    (hmax : s.value.remaining ≤ kUnknownCount) (m : OrdMap StringKey CborDecodeStream) :
    Settles (entries P fuel s m) ↔ TameKeys P fuel s := by
  induction fuel generalizing s m with
  | zero =>
    have hend : s.atEnd = true := decide_eq_true (Nat.le_zero.mp hfuel)
    rw [entries, if_pos hend]
    exact ⟨fun _ => trivial, fun _ => settles_ok _⟩
  | succ fuel ih =>
    rw [entries, TameKeys]
    by_cases hend : s.atEnd = true
    · rw [if_pos hend]
      exact ⟨fun _ h => absurd hend (by rw [h]; exact Bool.false_ne_true), fun _ => settles_ok _⟩
    · have hr : s.value.remaining ≠ 0 := fun h0 => hend (decide_eq_true h0)
      have hlater : ∀ {e t m}, s.entry P = .ok (e, t) → (Settles (entries P fuel t m) ↔ TameKeys P fuel t) := by
        intro e t m h
        have hlt := entry_remaining hr hmax h
        exact ih (by omega) (by omega) m
      rw [if_neg hend, settles_bind, settles_entry]
      constructor
      · intro h _
        exact ⟨h.1, fun e t he => (hlater he).mp (h.2 (e, t) he)⟩
      · intro h
        obtain ⟨hkey, hrest⟩ := h (Bool.eq_false_iff.mpr hend)
        exact ⟨hkey, fun ⟨e, t⟩ he => (hlater he).mpr (hrest e t he)⟩

/-- The keys of the map that stands here. -/
def TameMap (P : Platform) (s : CborDecodeStream) : Prop :=
  ∀ n stream next, s.value.type = some (.map, n) → s.container P = .ok stream → s.next P = .ok next →
    TameKeys P stream.value.remaining stream

theorem settles_map (s : CborDecodeStream) : Settles (s.map P) ↔ TameMap P s := by
  by_cases hmap : ∃ n, s.value.type = some (.map, n)
  · obtain ⟨n, hn⟩ := hmap
    have hentries : ∀ {stream : CborDecodeStream} {m : OrdMap StringKey CborDecodeStream},
        s.container P = .ok stream →
        (Settles (entries P stream.value.remaining stream m) ↔ TameKeys P stream.value.remaining stream) := by
      intro stream m h
      obtain ⟨w, hw, h⟩ := bind_ok h
      rw [← ok_inj h]
      exact settles_entries le_rfl (P.tinycbor.enterContainer_counts _ w (check_ok hw)) m
    unfold map TameMap
    rw [hn]
    simp only
    rw [settles_bind]
    constructor
    · intro h _ stream next _ hstream hnext
      have hrest := ((settles_bind).mp (h.2 stream hstream)).2 next hnext
      exact (hentries hstream).mp ((settles_bind).mp hrest).1
    · intro h
      refine ⟨settles_container s, fun stream hstream => (settles_bind).mpr ⟨settles_next s, fun next hnext => ?_⟩⟩
      exact (settles_bind).mpr ⟨(hentries hstream).mpr (h n stream next rfl hstream hnext), fun _ _ => settles_ok _⟩
  · have hraise : s.map P = raise .wrongType := by
      unfold map
      split
      · next n hn => exact absurd ⟨n, hn⟩ hmap
      · rfl
    rw [hraise]
    exact ⟨fun _ n stream next hn => absurd ⟨n, hn⟩ hmap, fun _ => settles_raise _⟩

/-! ## Vectors -/

theorem settles_listLength (s : CborDecodeStream) :
    Settles (s.listLength P) ↔ (P.assertions = true → s.isList = true) := by
  unfold listLength
  by_cases h : P.assertions = true ∧ s.isList = false
  · rw [if_pos h]
    refine ⟨fun hs => absurd hs (not_settles (by simp)), fun himp => ?_⟩
    rw [himp h.1] at h
    exact absurd h.2 (by simp)
  · rw [if_neg h]
    refine ⟨fun _ hassert => ?_, fun _ => settles_check _⟩
    by_contra hlist
    exact h ⟨hassert, Bool.eq_false_iff.mpr hlist⟩

/-- A list that can be entered has no more elements than can be counted. -/
theorem list_length_lt {s l s' : CborDecodeStream} {n : ℕ} (hn : s.listLength P = .ok n)
    (hlist : s.list P = .ok (l, s')) : n < kUnknownCount := by
  unfold list at hlist
  split_ifs at hlist with his
  · obtain ⟨stream, hstream, -⟩ := bind_ok hlist
    obtain ⟨w, hw, -⟩ := bind_ok hstream
    unfold listLength at hn
    split_ifs at hn
    have hlength := check_ok hn
    obtain ⟨⟨m, k⟩, hk, hm⟩ := Option.map_eq_some_iff.mp (decide_eq_true_iff.mp his)
    obtain rfl : m = .array := hm
    cases k with
    | none =>
      rw [P.tinycbor.arrayLength_unknown s.value hk] at hlength
      cases hlength
    | some k =>
      rw [P.tinycbor.arrayLength_known s.value k hk, Option.some.injEq] at hlength
      have hlimit := P.tinycbor.enterContainer_limit _ w _ k (check_ok hw) hk
      simp only [containerCount, reduceCtorEq, if_false] at hlimit
      omega
  · cases hlist

/-- A vector takes them. -/
theorem list_length_le {s l s' : CborDecodeStream} {n : ℕ} (hn : s.listLength P = .ok n)
    (hlist : s.list P = .ok (l, s')) : n ≤ P.elementsMax :=
  (list_length_lt hn hlist).le.trans P.elementsMax_ge

/-! ## What a handler of `std::exception` takes in -/

/-- A raised error, or a length that no container takes. -/
def IsException (f : Failure) : Prop := Raised f ∨ f = .lengthError

theorem Settles.caught {α : Type} {r : Result α} (h : Settles r) : EndsIn IsException r :=
  fun f hf => .inl ((settles_iff).mp h f hf)

theorem caught_lengthError {α : Type} : EndsIn IsException (.error .lengthError : Result α) := by
  intro f hf
  exact .inr (Except.error.inj hf).symm

theorem caught_bind_of {α β : Type} {x : Result α} {f : α → Result β} (hx : EndsIn IsException x)
    (hf : ∀ a, EndsIn IsException (f a)) : EndsIn IsException (x >>= f) := (endsIn_bind).mpr ⟨hx, fun a _ => hf a⟩

theorem not_caught {α : Type} : ¬ EndsIn IsException (.error .outOfRange : Result α) := by
  intro h
  obtain ⟨e, he⟩ | he := h _ rfl
  · cases he
  · cases he

theorem caught_readBytes (s : CborDecodeStream) : EndsIn IsException (s.readBytes P) := by
  refine caught_bind_of (settles_bytesLength s).caught fun n => ?_
  split_ifs
  · exact caught_lengthError
  · exact (settles_readSpan n s).caught

theorem caught_readString (s : CborDecodeStream) : EndsIn IsException (s.readString P) := by
  unfold readString
  split
  · split_ifs
    · exact caught_lengthError
    · exact (settles_bind_of (settles_check _) fun _ => settles_then_next _ s).caught
  · exact (settles_raise _).caught
  · exact (settles_raise _).caught

/-- Behind the CID tag is no empty byte string. -/
def NoEmptyCid (P : Platform) (s : CborDecodeStream) : Prop :=
  ∀ value, s.isCid = true → P.tinycbor.advance s.value = some value → ¬ EmptyPayload P value

theorem caught_readPayload (s : CborDecodeStream) :
    EndsIn IsException (s.readPayload P) ↔ ¬ EmptyPayload P s.value := by
  by_cases hsettles : Settles (s.readPayload P)
  · exact ⟨fun _ => ((settles_readPayload s).mp hsettles).2, fun _ => hsettles.caught⟩
  · constructor
    · intro h hempty
      obtain ⟨s', hread⟩ := (readBytes_empty_iff).mpr hempty
      refine not_caught (α := CID × CborDecodeStream) ?_
      rw [readPayload, hempty.1] at h
      simp only [hread] at h
      exact h
    · intro hempty
      -- only the length is left
      have hlarge : ¬ Bounded .bytes P.bytesMax s.value := fun h => hsettles ((settles_readPayload s).mpr ⟨h, hempty⟩)
      unfold Bounded at hlarge
      push Not at hlarge
      obtain ⟨n, hn, hmax⟩ := hlarge
      rw [readPayload, hn]
      simp only
      rw [readBytes_of_type hn, if_pos hmax]
      exact caught_lengthError

theorem caught_readCid (s : CborDecodeStream) : EndsIn IsException (s.readCid P) ↔ NoEmptyCid P s := by
  unfold readCid NoEmptyCid
  by_cases hcid : s.isCid = true
  · rw [if_pos hcid, endsIn_bind]
    constructor
    · intro h value _ hvalue
      exact (caught_readPayload ⟨value⟩).mp (h.2 value (by rw [hvalue]; rfl))
    · intro h
      exact ⟨(settles_check _).caught, fun value hvalue => (caught_readPayload ⟨value⟩).mpr (h value hcid (check_ok hvalue))⟩
  · rw [if_neg hcid]
    exact ⟨fun _ value h => absurd h hcid, fun _ => (settles_raise _).caught⟩

theorem caught_entry (s : CborDecodeStream) : EndsIn IsException (s.entry P) :=
  caught_bind_of (caught_readString s) fun _ => (settles_bind_of (settles_check _) fun _ =>
    settles_bind_of (settles_check _) fun _ => settles_bind_of (settles_check _) fun _ => settles_ok _).caught

theorem caught_entries {fuel : ℕ} {s : CborDecodeStream} (hfuel : s.value.remaining ≤ fuel)
    (hmax : s.value.remaining ≤ kUnknownCount) (m : OrdMap StringKey CborDecodeStream) :
    EndsIn IsException (entries P fuel s m) := by
  induction fuel generalizing s m with
  | zero =>
    have hend : s.atEnd = true := decide_eq_true (Nat.le_zero.mp hfuel)
    rw [entries, if_pos hend]
    exact endsIn_ok m
  | succ fuel ih =>
    rw [entries]
    by_cases hend : s.atEnd = true
    · rw [if_pos hend]
      exact endsIn_ok m
    · rw [if_neg hend]
      refine (endsIn_bind).mpr ⟨caught_entry s, fun ⟨e, t⟩ he => ?_⟩
      have hlt := entry_remaining (fun h0 => hend (decide_eq_true h0)) hmax he
      exact ih (by omega) (by omega) _

theorem caught_map (s : CborDecodeStream) : EndsIn IsException (s.map P) := by
  unfold map
  split
  · refine (endsIn_bind).mpr ⟨(settles_container s).caught, fun stream hstream => ?_⟩
    obtain ⟨w, hw, hw'⟩ := bind_ok hstream
    rw [← ok_inj hw']
    have hmax := P.tinycbor.enterContainer_counts _ w (check_ok hw)
    exact caught_bind_of (settles_next s).caught fun next =>
      caught_bind_of (caught_entries le_rfl hmax .empty) fun _ => endsIn_ok _
  · exact (settles_raise _).caught

theorem caught_raw (s : CborDecodeStream) : EndsIn IsException (s.raw P) :=
  (settles_bind_of (settles_next s) fun _ => settles_ok _).caught

theorem caught_create (data : Bytes) : EndsIn IsException (create P data) :=
  (settles_bind_of (settles_check _) fun _ => settles_ok _).caught

end CborDecodeStream

namespace Ty
open CborDecodeStream
variable {P : Platform}

/-- Every element that the loop of a vector comes to. -/
def EachElement {α : Type} (tame : CborDecodeStream → Prop)
    (read : CborDecodeStream → CborDecodeStream.Result (α × CborDecodeStream)) : ℕ → CborDecodeStream → Prop
  | 0, _ => True
  | n + 1, s => tame s ∧ ∀ v t, read s = .ok (v, t) → EachElement tame read n t

/-- Every value that the loop of a map comes to. -/
def EachValue {α : Type} (tame : CborDecodeStream → Prop)
    (read : CborDecodeStream → CborDecodeStream.Result (α × CborDecodeStream)) :
    List (StringKey × CborDecodeStream) → Prop
  | [] => True
  | e :: es => tame e.2 ∧ ∀ v t, read e.2 = .ok (v, t) → EachValue tame read es

/-- No position that reading comes to declares a length that the target cannot take, is an empty CID, or, with
assertions, is read as a vector and no list. -/
def Tame (P : Platform) : Ty → CborDecodeStream → Prop
  | .bool, _ | .unsigned _, _ | .signed _, _ | .blob _, _ => True
  | .string, s => Bounded .text P.stringMax s.value
  | .bytes, s | .bigInt, s => Bounded .bytes P.bytesMax s.value
  | .cid, s => TameCid P s
  | .optional t, s => s.isNull = false → t.Tame P s
  | .vector t, s => (P.assertions = true → s.isList = true) ∧
      ∀ n l s', s.listLength P = .ok n → s.list P = .ok (l, s') → EachElement (t.Tame P) (t.read P) n l
  | .map t, s => TameMap P s ∧
      ∀ m s', s.map P = .ok (m, s') → EachValue (t.Tame P) (t.read P) m.entries

theorem endsIn_readN {ways : Failure → Prop} {α : Type} {tame : CborDecodeStream → Prop}
    {read : CborDecodeStream → CborDecodeStream.Result (α × CborDecodeStream)}
    (h : ∀ s, EndsIn ways (read s) ↔ tame s) (n : ℕ) (s : CborDecodeStream) :
    EndsIn ways (readN read n s) ↔ EachElement tame read n s := by
  induction n generalizing s with
  | zero => exact ⟨fun _ => trivial, fun _ => endsIn_ok _⟩
  | succ n ih =>
    rw [readN, EachElement, endsIn_bind, h]
    refine and_congr_right fun _ => ⟨fun hrest v t hv => ?_, fun hrest ⟨v, t⟩ hv => ?_⟩
    · exact (ih t).mp ((endsIn_bind).mp (hrest (v, t) hv)).1
    · exact (endsIn_bind).mpr ⟨(ih t).mpr (hrest v t hv), fun _ _ => endsIn_ok _⟩

theorem settles_readN {α : Type} {tame : CborDecodeStream → Prop}
    {read : CborDecodeStream → CborDecodeStream.Result (α × CborDecodeStream)}
    (h : ∀ s, Settles (read s) ↔ tame s) (n : ℕ) (s : CborDecodeStream) :
    Settles (readN read n s) ↔ EachElement tame read n s := by
  simp only [settles_iff] at h ⊢
  exact endsIn_readN h n s

theorem settles_readEntries {α : Type} {tame : CborDecodeStream → Prop}
    {read : CborDecodeStream → CborDecodeStream.Result (α × CborDecodeStream)}
    (h : ∀ s, Settles (read s) ↔ tame s) (es : List (StringKey × CborDecodeStream))
    (items : OrdMap StringKey α) : Settles (readEntries read es items) ↔ EachValue tame read es := by
  induction es generalizing items with
  | nil => exact ⟨fun _ => trivial, fun _ => settles_ok _⟩
  | cons e es ih =>
    rw [readEntries, EachValue, settles_bind, h]
    refine and_congr_right fun _ => ⟨fun hrest v t hv => ?_, fun hrest ⟨v, t⟩ hv => ?_⟩
    · exact (ih _).mp (hrest (v, t) hv)
    · exact (ih _).mpr (hrest v t hv)

theorem settles_map_result {α β : Type} {x : Result (α × CborDecodeStream)} {f : α → β} :
    Settles (x >>= fun y => .ok (f y.1, y.2) : Result (β × CborDecodeStream)) ↔ Settles x := by
  rw [settles_bind]
  exact and_iff_left fun _ _ => settles_ok _

/-- Reading settles where everything that it comes to is tame. -/
theorem settles_read (t : Ty) (s : CborDecodeStream) : Settles (t.read P s) ↔ t.Tame P s := by
  induction t generalizing s with
  | bool => exact ⟨fun _ => trivial, fun _ => settles_readBool s⟩
  | unsigned w => exact ⟨fun _ => trivial, fun _ => settles_bind_of (settles_readUnsigned _ s) fun _ => settles_ok _⟩
  | signed w => exact ⟨fun _ => trivial, fun _ => settles_bind_of (settles_readSigned _ _ s) fun _ => settles_ok _⟩
  | string => exact settles_readString s
  | bytes => exact settles_readBytes s
  | cid => exact settles_readCid s
  | blob size => exact ⟨fun _ => trivial, fun _ => settles_readSpan size s⟩
  | bigInt => exact (settles_map_result).trans (settles_readBytes s)
  | optional t ih =>
    rw [read, Tame]
    by_cases hnull : s.isNull = true
    · rw [if_pos hnull]
      exact ⟨fun _ h => absurd hnull (by rw [h]; exact Bool.false_ne_true), fun _ => settles_then_next _ s⟩
    · rw [if_neg hnull]
      refine (settles_map_result).trans ((ih s).trans ⟨fun h _ => h, fun h => h (Bool.eq_false_iff.mpr hnull)⟩)
  | vector t ih =>
    rw [read, Tame, settles_bind, settles_listLength]
    refine and_congr_right fun _ => ⟨fun h n l s' hn hlist => ?_, fun h n hn => ?_⟩
    · have hrest := ((settles_bind).mp (h n hn)).2 (l, s') hlist
      simp only at hrest
      rw [if_neg (Nat.not_lt.mpr (list_length_le hn hlist)), settles_bind] at hrest
      exact (settles_readN ih n l).mp hrest.1
    · refine (settles_bind).mpr ⟨settles_list s, fun ⟨l, s'⟩ hlist => ?_⟩
      simp only
      rw [if_neg (Nat.not_lt.mpr (list_length_le hn hlist)), settles_bind]
      exact ⟨(settles_readN ih n l).mpr (h n l s' hn hlist), fun _ _ => settles_ok _⟩
  | map t ih =>
    rw [read, Tame, settles_bind, settles_map]
    refine and_congr_right fun _ => ⟨fun h m s' hm => ?_, fun h ⟨m, s'⟩ hm => ?_⟩
    · exact (settles_readEntries ih m.entries .empty).mp ((settles_bind).mp (h (m, s') hm)).1
    · exact (settles_bind).mpr ⟨(settles_readEntries ih m.entries .empty).mpr (h m s' hm), fun _ _ => settles_ok _⟩

/-- **Totality.** `decode` returns a value or a `CborDecodeError` exactly when every position that it comes
to is tame. -/
theorem decode_settles_iff (P : Platform) (t : Ty) (input : Bytes) :
    Settles (t.decode P input) ↔ ∀ s, CborDecodeStream.create P input = .ok s → t.Tame P s := by
  have hcreate : Settles (CborDecodeStream.create P input) :=
    settles_bind_of (settles_check _) fun _ => settles_ok _
  rw [decode, settles_bind]
  constructor
  · intro h s hs
    exact (settles_read t s).mp ((settles_bind).mp (h.2 s hs)).1
  · intro h
    exact ⟨hcreate, fun s hs => (settles_bind).mpr ⟨(settles_read t s).mpr (h s hs), fun _ _ => settles_ok _⟩⟩

/-- A CID with an empty payload, and a string that declares 2^64 - 1 bytes. -/
theorem hostile_lengths_escape :
    decode .reference .cid [0xd8, 0x2a, 0x40] = .error .outOfRange ∧
    ¬ Settles (decode .reference .cid [0xd8, 0x2a, 0x40]) ∧
    decode .reference .string [0x7b, 0xff, 0xff, 0xff, 0xff, 0xff, 0xff, 0xff, 0xff] = .error .lengthError ∧
    ¬ Settles (decode .reference .string [0x7b, 0xff, 0xff, 0xff, 0xff, 0xff, 0xff, 0xff, 0xff]) := by
  have hcid : decode .reference .cid [0xd8, 0x2a, 0x40] = .error .outOfRange := by decide +kernel
  have hstring : decode .reference .string [0x7b, 0xff, 0xff, 0xff, 0xff, 0xff, 0xff, 0xff, 0xff] =
      .error .lengthError := by decide +kernel
  refine ⟨hcid, ?_, hstring, ?_⟩
  · rw [hcid]
    exact not_settles (by simp)
  · rw [hstring]
    exact not_settles (by simp)

end Ty
end IpfsLite.Codec
