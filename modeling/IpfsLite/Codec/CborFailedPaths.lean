import IpfsLite.Codec.CborResolve
import IpfsLite.Codec.CborTotality

/-! # Where a failed resolution leaves the stream

A list is left where it was until the index is known to be in range; a map is left behind before its keys
are looked at. -/
namespace IpfsLite.Codec
set_option autoImplicit false

/-- A parser that leaves always the same of a value. -/
def Leftovers.always (v : CborValue) : Leftovers := ⟨fun _ => v, fun _ => v, fun _ => v⟩

namespace CborDecodeStream
variable {P : Platform}

/-- When an error is returned, the stream is what it was before, whatever the parser leaves of a value. -/
def Stays (P : Platform) (s : CborDecodeStream) (part : Bytes) : Prop :=
  ∀ left e t, s.resolve P left part = (.error e, t) → e.Returned → t = s

/-- `next`, so many times. -/
def skips (P : Platform) : ℕ → CborDecodeStream → Result CborDecodeStream
  | 0, s => .ok s
  | index + 1, s => do skips P index (← s.next P)

/-- The list can be entered and the index is in range, but the list or an element before that index cannot
be skipped. -/
def StraysInList (P : Platform) (s : CborDecodeStream) (part : Bytes) : Prop :=
  ∃ index n stream, parseIndex part = .ok index ∧ s.listLength P = .ok n ∧ index < n ∧
    s.container P = .ok stream ∧
    ((∃ e, s.next P = raise e) ∨ (∃ s', s.next P = .ok s') ∧ ∃ e, skips P index stream = raise e)

/-- The map can be entered, but it cannot be skipped, its entries cannot be read, or it has no such key. -/
def StraysInMap (P : Platform) (s : CborDecodeStream) (part : Bytes) : Prop :=
  ∃ stream, s.container P = .ok stream ∧
    ((∃ e, s.next P = raise e) ∨ (∃ s', s.next P = .ok s') ∧
      ((∃ e, entries P stream.value.remaining stream .empty = raise e) ∨
        ∃ m, entries P stream.value.remaining stream .empty = .ok m ∧ m.find? ⟨part⟩ = none))

def Strays (P : Platform) (s : CborDecodeStream) (part : Bytes) : Prop :=
  s.isList = true ∧ StraysInList P s part ∨ s.isMap = true ∧ StraysInMap P s part

/-! ## The errors of `next` -/

theorem next_error {s : CborDecodeStream} {f : Failure} (h : s.next P = .error f) : ∃ e, f = .raised e := by
  obtain ⟨s', hs'⟩ | ⟨e, he⟩ := settles_next (P := P) s
  · rw [h] at hs'
    cases hs'
  · rw [h] at he
    exact ⟨e, Except.error.inj he⟩

theorem walk_eq (left : Leftovers) (index : ℕ) (s : CborDecodeStream) :
    (walk P left index s).1 = (skips P index s).map fun _ => () := by
  induction index generalizing s with
  | zero => rfl
  | succ index ih =>
    rw [walk, skips]
    cases hnext : s.next P with
    | error f =>
      rw [tryNext_error hnext]
      rfl
    | ok s' =>
      rw [tryNext_ok hnext]
      exact ih s'

theorem skips_error {index : ℕ} {s : CborDecodeStream} {f : Failure} (h : skips P index s = .error f) :
    ∃ e, f = .raised e := by
  induction index generalizing s with
  | zero => cases h
  | succ index ih =>
    rw [skips] at h
    cases hnext : s.next P with
    | error f' =>
      rw [hnext] at h
      obtain rfl := Except.error.inj h
      exact next_error hnext
    | ok s' =>
      rw [hnext] at h
      exact ih h

theorem leftByNext_always (v : CborValue) (s : CborDecodeStream) : s.leftByNext P (Leftovers.always v) = ⟨v⟩ := by
  rw [leftByNext]
  cases if s.isCid then P.tinycbor.skipTag s.value else some s.value with
  | none => rfl
  | some value =>
    simp only
    cases P.tinycbor.advance { value with remaining := 1 } <;> rfl

theorem walk_error_always {v : CborValue} {index : ℕ} {s t : CborDecodeStream} {f : Failure}
    (h : walk P (Leftovers.always v) index s = (.error f, t)) : t = ⟨v⟩ := by
  induction index generalizing s with
  | zero => cases h
  | succ index ih =>
    rw [walk] at h
    cases hnext : s.next P with
    | error f' =>
      rw [tryNext_error hnext, leftByNext_always] at h
      exact (Prod.mk.inj h).2.symm
    | ok s' =>
      rw [tryNext_ok hnext] at h
      exact ih h

/-- A map that has been left behind is another element. -/
theorem next_map_ne {s s' : CborDecodeStream} (hmap : s.isMap = true) (hptr : s.value.ptr ≠ [])
    (h : s.next P = .ok s') : s' ≠ s := by
  obtain ⟨n, htype⟩ : ∃ n, s.value.type = some (.map, n) := by
    rw [isMap, decide_eq_true_iff, Option.map_eq_some_iff] at hmap
    obtain ⟨⟨m, n⟩, htype, rfl⟩ := hmap
    exact ⟨n, htype⟩
  have hcid : s.isCid = false := by
    rw [isCid, htype]
    exact decide_eq_false (by simp)
  rw [next_other hcid] at h
  cases hadvance : P.tinycbor.advance { s.value with remaining := 1 } with
  | none =>
    rw [hadvance] at h
    cases h
  | some value =>
    rw [hadvance] at h
    have hzero : value.remaining < 1 := by
      have hone : 1 < kUnknownCount := by decide
      refine P.tinycbor.advance_counts _ value hadvance ?_ hone
      rintro ⟨n', hn'⟩
      rw [htype] at hn'
      simp at hn'
    rintro rfl
    simp only [check, Except.bind, restart] at h
    by_cases hend : value.ptr = []
    · rw [if_neg (not_not.mpr hend)] at h
      obtain rfl := ok_inj h
      exact hptr hend
    · rw [if_pos hend] at h
      obtain ⟨fresh, -, hfresh⟩ := bind_ok h
      have hremaining := congrArg (fun t => t.value.remaining) (ok_inj hfresh)
      simp only at hremaining
      omega

/-! ## When the stream strays -/

variable {s : CborDecodeStream} {part : Bytes}

theorem tryEnter_container_error {left : Leftovers} {f : Failure} (h : s.container P = .error f) :
    s.tryEnter P left = (.error f, s) := by rw [tryEnter, h]

theorem tryEnter_next_error {left : Leftovers} {stream : CborDecodeStream} {f : Failure}
    (h : s.container P = .ok stream) (hnext : s.next P = .error f) :
    s.tryEnter P left = (.error f, s.leftByNext P left) := by rw [tryEnter, h, tryNext_error hnext]

theorem tryEnter_ok {left : Leftovers} {stream s' : CborDecodeStream} (h : s.container P = .ok stream)
    (hnext : s.next P = .ok s') : s.tryEnter P left = (.ok stream, s') := by rw [tryEnter, h, tryNext_ok hnext]

theorem resolveList_in_range {left : Leftovers} {index n : ℕ} (hindex : parseIndex part = .ok index)
    (hlength : s.listLength P = .ok n) (hlt : index < n) : s.resolveList P left part =
      match s.tryEnter P left with
      | (.error f, s) => (.error (.caught f), s)
      | (.ok stream, _) =>
        match walk P left index stream with
        | (.error f, stream) => (.error (.caught f), stream)
        | (.ok (), stream) => (.ok (), stream) := by
  rw [resolveList, hindex]
  simp only [hlength, if_neg (Nat.not_le.mpr hlt)]
  all_goals rfl

theorem caught_returned (e : CborDecodeError) : (ResolveFailure.caught (.raised e)).Returned := nofun

theorem returned_caught {f : Failure} (h : (ResolveFailure.caught f).Returned) : ∃ e, f = .raised e := by
  cases f with
  | raised e => exact ⟨e, rfl⟩
  | lengthError | outOfRange | asserted | diverged => exact absurd rfl (h _)

theorem strays_in_list (h : StraysInList P s part) (v : CborValue) :
    ∃ e, e.Returned ∧ s.resolveList P (.always v) part = (.error e, ⟨v⟩) := by
  obtain ⟨index, n, stream, hindex, hlength, hlt, hcontainer, ⟨e, hnext⟩ | ⟨⟨s', hnext⟩, e, hskips⟩⟩ := h
  · refine ⟨_, caught_returned e, ?_⟩
    rw [resolveList_in_range hindex hlength hlt, tryEnter_next_error hcontainer hnext, leftByNext_always]
  · have hfirst := walk_eq (P := P) (.always v) index stream
    rw [hskips] at hfirst
    rw [resolveList_in_range hindex hlength hlt, tryEnter_ok hcontainer hnext]
    cases hwalk : walk P (.always v) index stream with
    | mk result t =>
      rw [hwalk] at hfirst
      obtain rfl : result = raise e := hfirst
      refine ⟨_, caught_returned e, ?_⟩
      simp only [hwalk, raise, walk_error_always hwalk]

theorem strays_in_map (hmap : s.isMap = true) (hptr : s.value.ptr ≠ []) (h : StraysInMap P s part) {v : CborValue}
    (hv : (⟨v⟩ : CborDecodeStream) ≠ s) :
    ∃ e t, e.Returned ∧ s.resolveMap P (.always v) part = (.error e, t) ∧ t ≠ s := by
  obtain ⟨stream, hcontainer, ⟨e, hnext⟩ | ⟨⟨s', hnext⟩, hentries⟩⟩ := h
  · refine ⟨_, _, caught_returned e, ?_, hv⟩
    rw [resolveMap, tryEnter_next_error hcontainer hnext, leftByNext_always]
  · have hmoved := next_map_ne hmap hptr hnext
    obtain ⟨e, he⟩ | ⟨m, hm, hfind⟩ := hentries
    · refine ⟨_, s', caught_returned e, ?_, hmoved⟩
      rw [resolveMap, tryEnter_ok hcontainer hnext]
      simp only [he]
      rfl
    · refine ⟨.resolve .keyNotFound, s', nofun, ?_, hmoved⟩
      rw [resolveMap, tryEnter_ok hcontainer hnext]
      simp only [hm, hfind]

theorem list_stays (h : ¬ StraysInList P s part) {left : Leftovers} {e : ResolveFailure} {t : CborDecodeStream}
    (hresolve : s.resolveList P left part = (.error e, t)) : t = s := by
  cases hindex : parseIndex part with
  | error e' =>
    rw [resolveList, hindex] at hresolve
    exact (Prod.mk.inj hresolve).2.symm
  | ok index =>
    cases hlength : s.listLength P with
    | error f =>
      rw [resolveList, hindex] at hresolve
      simp only [hlength] at hresolve
      exact (Prod.mk.inj hresolve).2.symm
    | ok n =>
      by_cases hlt : index < n
      · rw [resolveList_in_range hindex hlength hlt] at hresolve
        cases hcontainer : s.container P with
        | error f =>
          rw [tryEnter_container_error hcontainer] at hresolve
          exact (Prod.mk.inj hresolve).2.symm
        | ok stream =>
          cases hnext : s.next P with
          | error f =>
            obtain ⟨e', rfl⟩ := next_error hnext
            exact absurd ⟨index, n, stream, hindex, hlength, hlt, hcontainer, .inl ⟨e', hnext⟩⟩ h
          | ok s' =>
            rw [tryEnter_ok hcontainer hnext] at hresolve
            simp only at hresolve
            have hfirst := walk_eq (P := P) left index stream
            cases hskips : skips P index stream with
            | error f =>
              obtain ⟨e', rfl⟩ := skips_error hskips
              exact absurd ⟨index, n, stream, hindex, hlength, hlt, hcontainer, .inr ⟨⟨s', hnext⟩, e', hskips⟩⟩ h
            | ok last =>
              rw [hskips] at hfirst
              generalize walk P left index stream = walked at hfirst hresolve
              obtain ⟨result, t'⟩ := walked
              obtain rfl : result = .ok () := hfirst
              simp only at hresolve
              cases hresolve
      · rw [resolveList, hindex] at hresolve
        simp only [hlength, if_pos (Nat.not_lt.mp hlt)] at hresolve
        exact (Prod.mk.inj hresolve).2.symm

theorem map_stays (h : ¬ StraysInMap P s part) {left : Leftovers} {e : ResolveFailure} {t : CborDecodeStream}
    (hresolve : s.resolveMap P left part = (.error e, t)) (he : e.Returned) : t = s := by
  rw [resolveMap] at hresolve
  cases hcontainer : s.container P with
  | error f =>
    rw [tryEnter_container_error hcontainer] at hresolve
    exact (Prod.mk.inj hresolve).2.symm
  | ok stream =>
    cases hnext : s.next P with
    | error f =>
      obtain ⟨e', rfl⟩ := next_error hnext
      exact absurd ⟨stream, hcontainer, .inl ⟨e', hnext⟩⟩ h
    | ok s' =>
      rw [tryEnter_ok hcontainer hnext] at hresolve
      simp only at hresolve
      cases hentries : entries P stream.value.remaining stream .empty with
      | error f =>
        rw [hentries] at hresolve
        obtain rfl := Except.error.inj (Prod.mk.inj hresolve).1
        obtain ⟨e', rfl⟩ := returned_caught he
        exact absurd ⟨stream, hcontainer, .inr ⟨⟨s', hnext⟩, .inl ⟨e', hentries⟩⟩⟩ h
      | ok m =>
        rw [hentries] at hresolve
        cases hfind : m.find? ⟨part⟩ with
        | none => exact absurd ⟨stream, hcontainer, .inr ⟨⟨s', hnext⟩, .inr ⟨m, hentries, hfind⟩⟩⟩ h
        | some value =>
          simp only [hfind] at hresolve
          cases hresolve

/-- **Failed resolution.** The stream stays at its element exactly when it does not stray in a list or a map. -/
theorem failed_resolution_stays_iff (hs : s.value.type ≠ none → s.value.ptr ≠ []) :
    Stays P s part ↔ ¬ Strays P s part := by
  have hmaps : s.isMap = true → s.isList = false := by
    intro hmap
    simp only [isMap, isList, decide_eq_true_eq, decide_eq_false_iff_not] at hmap ⊢
    rw [hmap]
    simp
  constructor
  · intro hstays hstrays
    have hne : (⟨{ s.value with remaining := s.value.remaining + 1 }⟩ : CborDecodeStream) ≠ s := by
      intro heq
      have hremaining := congrArg (fun t => t.value.remaining) heq
      simp at hremaining
    obtain ⟨hlist, h⟩ | ⟨hmap, h⟩ := hstrays
    · obtain ⟨e, he, hresolve⟩ := strays_in_list h _
      exact hne (hstays _ e _ (by rw [resolve, if_pos hlist, hresolve]) he)
    · have hptr : s.value.ptr ≠ [] := by
        refine hs fun hnone => ?_
        rw [isMap, hnone] at hmap
        simp at hmap
      obtain ⟨e, t, he, hresolve, hmoved⟩ := strays_in_map hmap hptr h hne
      exact hmoved (hstays _ e t (by rw [resolve, hmaps hmap, if_neg (by simp), if_pos hmap, hresolve]) he)
  · intro hnot left e t hresolve he
    unfold resolve at hresolve
    split_ifs at hresolve with hlist hmap
    · exact list_stays (fun h => hnot (.inl ⟨hlist, h⟩)) hresolve
    · exact map_stays (fun h => hnot (.inr ⟨hmap, h⟩)) hresolve he
    · exact (Prod.mk.inj hresolve).2.symm

/-- In the list [5, 6] the key "a" is refused. -/
theorem refused_key_stays : Stays .reference (reading [0x82, 0x05, 0x06] kUnknownCount) [0x61] := by
  refine (failed_resolution_stays_iff fun _ => by decide).mpr ?_
  rintro (⟨-, index, n, stream, hindex, -⟩ | ⟨hmap, -⟩)
  · have hrefused : parseIndex [0x61] = .error .intKeyExpected := by decide +kernel
    rw [hrefused] at hindex
    cases hindex
  · exact absurd hmap (by decide +kernel)

/-- The map under "a" has no key "b", and has been left behind when that is found. -/
theorem missing_key_strays : create .reference [0xa1, 0x61, 0x61, 0x04] =
      .ok (reading [0xa1, 0x61, 0x61, 0x04] kUnknownCount) ∧
    (reading [0xa1, 0x61, 0x61, 0x04] kUnknownCount).resolve .reference .untouched [0x62] =
      (.error (.resolve .keyNotFound), ⟨.atEnd []⟩) ∧
    ¬ Stays .reference (reading [0xa1, 0x61, 0x61, 0x04] kUnknownCount) [0x62] := by
  have hresolve : (reading [0xa1, 0x61, 0x61, 0x04] kUnknownCount).resolve .reference .untouched [0x62] =
      (.error (.resolve .keyNotFound), ⟨.atEnd []⟩) := by decide +kernel
  refine ⟨by decide +kernel, hresolve, fun hstays => ?_⟩
  exact absurd (hstays _ _ _ hresolve nofun) (by decide)

end CborDecodeStream
end IpfsLite.Codec
