import IpfsLite.Codec.CborResolve
import IpfsLite.Foundations.CborGrammar

/-! # The elements of a list by their index

Which parts of a path `resolve` takes for an index, and where it leaves the stream in a well-formed list. -/
namespace IpfsLite.Codec
set_option autoImplicit false

open Cbor (Major Argument Items DataItems)

/-! ## Indices -/

/-- A string of decimal digits. -/
def IsNumeral (part : Bytes) : Prop := part ≠ [] ∧ ∀ b ∈ part, isDigit b = true

/-- What is not refused as an index: there are digits behind blanks and a sign, and either nothing follows
them and the first character is no minus, or they are out of range. -/
def Loose (part : Bytes) : Prop :=
  (scan part).digits ≠ [] ∧
    ((scan part).tail = [] ∧ part.take 1 ≠ minus ∨ 2 ^ 64 ≤ decimal (scan part).digits)

theorem not_space_of_digit {b : UInt8} (h : isDigit b = true) : isSpace b = false := by
  simp only [isDigit, isSpace, decide_eq_true_eq, decide_eq_false_iff_not] at h ⊢
  omega

theorem splitSign_digit {b : UInt8} (h : isDigit b = true) (rest : Bytes) :
    splitSign (b :: rest) = ([], b :: rest) := by
  simp only [isDigit, decide_eq_true_eq] at h
  exact if_neg (by omega)

theorem scan_numeral {part : Bytes} (h : IsNumeral part) : scan part = ⟨[], [], part, []⟩ := by
  obtain ⟨hne, hall⟩ := h
  cases part with
  | nil => exact absurd rfl hne
  | cons b part =>
    have hb := hall b List.mem_cons_self
    have hspace := not_space_of_digit hb
    have htake : (b :: part).takeWhile isDigit = b :: part := List.takeWhile_eq_self_iff.mpr hall
    have hdrop : (b :: part).dropWhile isDigit = [] := List.dropWhile_eq_nil_iff.mpr hall
    rw [scan, List.takeWhile_cons_of_neg (by simp [hspace]), List.dropWhile_cons_of_neg (by simp [hspace]),
      splitSign_digit hb]
    simp only [htake, hdrop]

theorem take_numeral {part : Bytes} (h : IsNumeral part) : part.take 1 ≠ minus := by
  obtain ⟨hne, hall⟩ := h
  cases part with
  | nil => exact absurd rfl hne
  | cons b part =>
    intro hminus
    obtain rfl : b = 45 := by simpa [minus] using hminus
    exact absurd (hall 45 List.mem_cons_self) (by decide)

theorem parseIndex_numeral {part : Bytes} (h : IsNumeral part) :
    parseIndex part = if 2 ^ 64 ≤ decimal part then .error .keyNotFound else .ok (decimal part) := by
  rw [parseIndex, stoul, scan_numeral h]
  by_cases hrange : 2 ^ 64 ≤ decimal part
  · simp only [h.1, hrange, if_true, if_false]
  · simp only [h.1, hrange, if_false, List.length_nil, Nat.sub_zero, ne_eq, not_true, take_numeral h]
    rfl

theorem tail_length_lt {part : Bytes} (h : (scan part).digits ≠ []) : (scan part).tail.length < part.length := by
  have hblanks := congrArg List.length (List.takeWhile_append_dropWhile (p := isSpace) (l := part))
  have hdigits := congrArg List.length
    (List.takeWhile_append_dropWhile (p := isDigit) (l := (splitSign (part.dropWhile isSpace)).2))
  have hsign : (splitSign (part.dropWhile isSpace)).2.length ≤ (part.dropWhile isSpace).length := by
    cases part.dropWhile isSpace with
    | nil => exact le_rfl
    | cons b rest =>
      rw [splitSign]
      split_ifs
      · exact Nat.le_succ _
      · exact le_rfl
  have hpos : 0 < (scan part).digits.length := List.length_pos_iff.mpr h
  rw [List.length_append] at hblanks hdigits
  simp only [scan] at hpos ⊢
  omega

theorem parseIndex_refused_iff (part : Bytes) : parseIndex part = .error .intKeyExpected ↔ ¬ Loose part := by
  rw [parseIndex, stoul, Loose]
  by_cases hdigits : (scan part).digits = []
  · simp [hdigits]
  · have hlength := tail_length_lt hdigits
    have hchars : part.length - (scan part).tail.length = part.length ↔ (scan part).tail = [] := by
      rw [← List.length_eq_zero_iff]
      omega
    by_cases hrange : 2 ^ 64 ≤ decimal (scan part).digits
    · rw [if_neg hdigits, if_pos hrange]
      exact iff_of_false (by simp) (not_not.mpr ⟨hdigits, .inr hrange⟩)
    · rw [if_neg hdigits, if_neg hrange]
      simp only [ne_eq, hchars]
      by_cases htail : (scan part).tail = []
      · rw [if_neg (not_not.mpr htail)]
        by_cases hminus : part.take 1 = minus
        · rw [if_pos hminus]
          refine iff_of_true rfl fun hloose => ?_
          exact hloose.2.elim (fun h => h.2 hminus) hrange
        · rw [if_neg hminus]
          exact iff_of_false (by simp) (not_not.mpr ⟨hdigits, .inl ⟨htail, hminus⟩⟩)
      · rw [if_pos htail]
        exact iff_of_true rfl fun hloose => hloose.2.elim (fun h => htail h.1) hrange

/-! ## Walking along a list -/

namespace CborDecodeStream
variable {P : Platform} {left : Leftovers}

/-- No tag, or the CID tag outermost. -/
def Skippable (item : Bytes) : Prop := SkippableTag item 1

theorem skippable_iff {item : Bytes} {r : ℕ} (h : r ≠ 0) : SkippableTag item r ↔ Skippable item := by
  rw [Skippable, SkippableTag, SkippableTag, and_iff_left h, and_iff_left Nat.one_ne_zero]

theorem skippable_of_peek {item : Bytes} {m : Major} {n : Option ℕ} (h : peek item = some (m, n)) (hm : m ≠ .tag) :
    Skippable item := by
  refine .inl fun n' hn' => ?_
  rw [h, Option.some.injEq, Prod.mk.injEq] at hn'
  exact hm hn'.1

/-- In front of these items of a list. -/
def standing (items : List Bytes) (rest : Bytes) : CborDecodeStream :=
  reading (items.flatten ++ rest) items.length

theorem items_flatten {items : List Bytes} {limit : ℕ} (h : ∀ item ∈ items, ∃ p, Items limit p 1 item) :
    ∃ p, Items limit p items.length items.flatten := by
  induction items with
  | nil => exact ⟨false, .nil⟩
  | cons item items ih =>
    obtain ⟨p, hp⟩ := h item List.mem_cons_self
    obtain ⟨q, hq⟩ := ih fun i hi => h i (List.mem_cons_of_mem _ hi)
    have hall := hp.append hq
    rw [Nat.add_comm] at hall
    exact ⟨_, hall⟩

/-- One element further, or past a tag of the element. -/
theorem next_standing {item : Bytes} {items : List Bytes} (hitem : Countable item)
    (hitems : ∀ i ∈ items, Countable i) (hne : items ≠ []) (hlt : items.length + 1 < 2 ^ 32) (rest : Bytes) :
    ∃ ahead, (standing (item :: items) rest).next P = .ok (standing (ahead ++ items) rest) ∧
      (∀ i ∈ ahead, Countable i) ∧ (Skippable item → ahead = []) ∧ (¬ Skippable item → ahead.length = 1) := by
  have hsplit : standing (item :: items) rest = reading (item ++ (items.flatten ++ rest)) (items.length + 1) := by
    rw [standing, List.flatten_cons, List.append_assoc, List.length_cons]
  rw [hsplit]
  by_cases htag : Skippable item
  · have hnext := next_skippable (P := P) hitem ((skippable_iff (Nat.succ_ne_zero items.length)).mpr htag)
      (items.flatten ++ rest)
    obtain ⟨q, hq⟩ := @items_flatten items kUnknownCount hitems
    obtain ⟨n, hn⟩ := Nat.exists_eq_succ_of_ne_zero (mt List.length_eq_zero_iff.mp hne)
    have hstarts : Starts (items.flatten ++ rest) := by
      rw [hn] at hq
      exact (starts_items hq).append rest
    rw [restart_ok (hstarts.follows P), after_succ hstarts.ne_nil (by omega)] at hnext
    exact ⟨[], hnext, nofun, fun _ => rfl, fun hnot => absurd htag hnot⟩
  · obtain ⟨content, hcontent, hnext⟩ := next_unskippable (P := P) hitem (Nat.succ_ne_zero items.length) hlt
      (fun h => htag ((skippable_iff (Nat.succ_ne_zero items.length)).mp h)) (items.flatten ++ rest)
    refine ⟨[content], ?_, fun i hi => List.mem_singleton.mp hi ▸ hcontent, fun h => absurd h htag, fun _ => rfl⟩
    rw [hnext, standing, List.singleton_append, List.flatten_cons, List.append_assoc, List.length_cons]

/-- **Walking.** As many elements further, or behind by the tags that were in the way. -/
theorem walk_standing {index : ℕ} {items : List Bytes} (hitems : ∀ i ∈ items, Countable i) (hindex : index < items.length)
    (hlt : items.length < 2 ^ 32) (rest : Bytes) :
    ∃ others, walk P left index (standing items rest) = (.ok (), standing others rest) ∧
      (∀ i ∈ others, Countable i) ∧
      ((∀ i ∈ items.take index, Skippable i) → others = items.drop index) ∧
      (¬ (∀ i ∈ items.take index, Skippable i) → items.length - index < others.length) ∧
      items.length - index ≤ others.length := by
  induction index generalizing items with
  | zero => exact ⟨items, rfl, hitems, fun _ => rfl, fun h => absurd (by simp) h, le_rfl⟩
  | succ index ih =>
    cases items with
    | nil => exact absurd hindex (Nat.not_lt_zero _)
    | cons item items =>
      rw [List.length_cons] at hindex hlt
      have hne : items ≠ [] := by
        rintro rfl
        simp at hindex
      have hrest : ∀ i ∈ items, Countable i := fun i hi => hitems i (List.mem_cons_of_mem _ hi)
      obtain ⟨ahead, hnext, hahead, hskip, hstay⟩ :=
        next_standing (P := P) (hitems item List.mem_cons_self) hrest hne hlt rest
      have hlength : ahead.length ≤ 1 := by
        by_cases h : Skippable item
        · rw [hskip h]
          exact Nat.zero_le _
        · exact (hstay h).le
      have hall : ∀ i ∈ ahead ++ items, Countable i := by
        intro i hi
        exact (List.mem_append.mp hi).elim (hahead i) (hrest i)
      obtain ⟨others, hwalk, hothers, hsame, hbehind, hle⟩ := ih hall
        (by rw [List.length_append]; omega) (by rw [List.length_append]; omega)
      refine ⟨others, ?_, hothers, ?_, ?_, ?_⟩
      · rw [walk, tryNext_ok hnext]
        exact hwalk
      · intro hskips
        rw [List.take_succ_cons, List.forall_mem_cons] at hskips
        rw [hskip hskips.1, List.nil_append] at hsame
        rw [List.drop_succ_cons]
        exact hsame hskips.2
      · intro hnot
        rw [List.take_succ_cons, List.forall_mem_cons, not_and] at hnot
        rw [List.length_cons, Nat.add_sub_add_right]
        by_cases h : Skippable item
        · rw [hskip h, List.nil_append] at hbehind
          exact hbehind (hnot h)
        · rw [List.length_append, hstay h] at hle
          omega
      · rw [List.length_append] at hle
        rw [List.length_cons]
        omega

/-! ## Resolving an index -/

/-- The bytes of a list of these items. -/
def listBytes (a : Argument) (items : List Bytes) : Bytes := Cbor.head .array a ++ items.flatten

theorem untagged_list {bound : ℕ} {a : Argument} {items : List Bytes} (hbound : a.value < bound)
    (ha : a.value = items.length) (h : ∀ item ∈ items, ∃ p, Items bound p 1 item) :
    Cbor.Untagged bound (listBytes a items) := by
  obtain ⟨p, hp⟩ := items_flatten h
  rw [← ha] at hp
  exact ⟨⟨p, .oneArray hbound hp⟩, .array, a, items.flatten, rfl, by decide⟩

/-- The elements of a list that can be counted can be counted. -/
theorem countable_elements {a : Argument} {items : List Bytes} (ha : a.value = items.length)
    (hitems : ∀ item ∈ items, ∃ p, Items (2 ^ 64) p 1 item) (h : Countable (listBytes a items)) :
    a.value < kUnknownCount ∧ ∀ i ∈ items, Countable i := by
  obtain ⟨p, hp⟩ := h
  obtain ⟨hlt, q, hq⟩ := hp.of_array
  refine ⟨hlt, ?_⟩
  rw [ha] at hq
  clear ha hlt hp
  induction items generalizing q with
  | nil => nofun
  | cons item items ih =>
    rw [List.length_cons, List.flatten_cons] at hq
    obtain ⟨chain, content, others, heq, hcontent, q', hothers⟩ := hq.behind_tags
    obtain ⟨p', hp'⟩ := hcontent.1
    have hone := hp'.under_tags chain
    obtain ⟨p'', hitem⟩ := hitems item List.mem_cons_self
    rw [← List.append_assoc] at heq
    -- both are the first item
    have hsame := (hitem.dataItems.agree hone.dataItems heq).same
    rw [hsame] at heq
    obtain rfl := List.append_cancel_right heq
    rw [← hsame] at hothers
    intro i hi
    obtain rfl | hi := List.mem_cons.mp hi
    · exact ⟨_, hone⟩
    · exact ih (fun i hi => hitems i (List.mem_cons_of_mem _ hi)) _ hothers i hi

section
variable {a : Argument} {items : List Bytes} {rest : Bytes} {r : ℕ}

theorem tryEnter_list (ha : a.value = items.length) (hne : items ≠ [])
    (hitems : ∀ item ∈ items, ∃ p, Items (2 ^ 64) p 1 item) (hcount : Countable (listBytes a items))
    (hrest : Follows P rest) : ((reading (listBytes a items ++ rest) r).tryEnter P left).1 = .ok (standing items rest) := by
  obtain ⟨hlt, hall⟩ := countable_elements ha hitems hcount
  obtain ⟨p, hp⟩ := items_flatten hall
  rw [← ha] at hp
  have hcontainer := container_items (P := P) (m := .array) (a := a) (.inl rfl) hlt hp rest r
  have hnext := next_untagged (P := P) (untagged_list hlt ha hall) rest r
  have hpos : ¬ containerCount .array a.value = 0 := by
    intro hzero
    rw [containerCount, if_neg (by decide), ha] at hzero
    exact hne (List.length_eq_zero_iff.mp hzero)
  rw [restart_ok hrest] at hnext
  rw [← List.append_assoc, ← listBytes, inside, if_neg hpos] at hcontainer
  rw [tryEnter, hcontainer, tryNext_ok hnext]
  simp only [containerCount, standing, ha]
  rfl

theorem tryEnter_list_iff (ha : a.value = items.length) (hne : items ≠ [])
    (hitems : ∀ item ∈ items, ∃ p, Items (2 ^ 64) p 1 item) :
    (∃ stream, ((reading (listBytes a items ++ rest) r).tryEnter P left).1 = .ok stream) ↔
      Countable (listBytes a items) ∧ Follows P rest := by
  constructor
  · rintro ⟨stream, h⟩
    have hlist := untagged_list (lt_of_lt_of_le a.value_lt le_rfl) ha hitems
    have hnext : ∃ s', (reading (listBytes a items ++ rest) r).next P = .ok s' := by
      cases hcontainer : (reading (listBytes a items ++ rest) r).container P with
      | error f =>
        rw [tryEnter, hcontainer] at h
        cases h
      | ok inner =>
        cases hnext : (reading (listBytes a items ++ rest) r).next P with
        | ok s' => exact ⟨s', rfl⟩
        | error f =>
          rw [tryEnter, hcontainer, tryNext_error hnext] at h
          cases h
    obtain ⟨s', hs'⟩ := hnext
    by_cases hcount : Untagged (listBytes a items)
    · refine ⟨hcount.1, ?_⟩
      by_contra hnot
      rw [next_untagged hcount, restart_error hnot] at hs'
      cases hs'
    · rw [next_oversized hlist hcount] at hs'
      cases hs'
  · rintro ⟨hcount, hrest⟩
    exact ⟨_, tryEnter_list ha hne hitems hcount hrest⟩

variable (P left)

/-- `resolve` at the list, then `raw`: the element of that index, `INT_KEY_EXPECTED` for what is no index and
`KEY_NOT_FOUND` for an index out of range. -/
structure Resolved (s : CborDecodeStream) (items : List Bytes) (rest part : Bytes) : Prop where
  element : IsNumeral part → decimal part < items.length →
    ∃ s', s.resolve P left part = (.ok (), s') ∧ s'.value.ptr = (items.drop (decimal part)).flatten ++ rest ∧
      ∃ item s'', items[decimal part]? = some item ∧ s'.raw P = .ok (item, s'')
  outside : IsNumeral part → items.length ≤ decimal part →
    (s.resolve P left part).1 = .error (.resolve .keyNotFound)
  refused : ¬ IsNumeral part → (s.resolve P left part).1 = .error (.resolve .intKeyExpected)

/-- For an index in range: the list can be skipped, and so can its elements up to that one. For what is no
index: it is not taken for one. -/
def Resolvable (a : Argument) (items : List Bytes) (rest part : Bytes) : Prop :=
  (IsNumeral part → decimal part < items.length →
    Countable (listBytes a items) ∧ Follows P rest ∧ ∀ i ∈ items.take (decimal part + 1), Skippable i) ∧
  (¬ IsNumeral part → ¬ Loose part)

variable {P} {left}

theorem resolve_list_eq (part : Bytes) : (reading (listBytes a items ++ rest) r).resolve P left part =
    (reading (listBytes a items ++ rest) r).resolveList P left part := by
  rw [resolve, listBytes, List.append_assoc, isList_array, if_pos rfl]

theorem resolveList_index {part : Bytes} {index : ℕ} (hindex : parseIndex part = .ok index) :
    (reading (listBytes a items ++ rest) r).resolveList P left part =
      if a.value ≤ index then (.error (.resolve .keyNotFound), reading (listBytes a items ++ rest) r)
      else
        match (reading (listBytes a items ++ rest) r).tryEnter P left with
        | (.error f, s) => (.error (.caught f), s)
        | (.ok stream, _) =>
          match walk P left index stream with
          | (.error f, stream) => (.error (.caught f), stream)
          | (.ok (), stream) => (.ok (), stream) := by
  have hlength : (reading (listBytes a items ++ rest) r).listLength P = .ok a.value := by
    rw [listBytes, List.append_assoc, listLength_array]
  rw [resolveList, hindex]
  simp only [hlength]
  all_goals rfl

/-- Where the walk ends, and whether it is the element of that index. -/
theorem walk_element_iff {index : ℕ} (hindex : index < items.length) (hlt : items.length < 2 ^ 32)
    (hitems : ∀ i ∈ items, Countable i) (hrest : Follows P rest) :
    (∃ s', walk P left index (standing items rest) = (.ok (), s') ∧
      s'.value.ptr = (items.drop index).flatten ++ rest ∧
      ∃ item s'', items[index]? = some item ∧ s'.raw P = .ok (item, s'')) ↔
    ∀ i ∈ items.take (index + 1), Skippable i := by
  obtain ⟨others, hwalk, hothers, hsame, hbehind, -⟩ :=
    @walk_standing P left _ _ hitems hindex hlt rest
  have hget : items[index]? = some items[index] := List.getElem?_eq_getElem hindex
  have htake : items.take (index + 1) = items.take index ++ [items[index]] := by
    rw [List.take_add_one, hget]
    rfl
  have hdrop : items.drop index = items[index] :: items.drop (index + 1) := List.drop_eq_getElem_cons hindex
  have hcount : Countable items[index] := hitems _ (List.getElem_mem hindex)
  obtain ⟨q, hq⟩ := @items_flatten (items.drop (index + 1)) kUnknownCount
    fun i hi => hitems i (List.mem_of_mem_drop hi)
  have hfollows : Follows P ((items.drop (index + 1)).flatten ++ rest) := follows_items hq hrest
  have hstanding : standing (items.drop index) rest =
      reading (items[index] ++ ((items.drop (index + 1)).flatten ++ rest)) (items.length - index) := by
    rw [standing, List.length_drop, hdrop, List.flatten_cons, List.append_assoc]
  have hr : items.length - index ≠ 0 := by omega
  rw [htake]
  simp only [List.forall_mem_append, List.mem_singleton, forall_eq]
  constructor
  · rintro ⟨s', hs', hptr, item, s'', hitem, hraw⟩
    rw [hwalk, Prod.mk.injEq] at hs'
    obtain ⟨-, rfl⟩ := hs'
    have hbefore : ∀ i ∈ items.take index, Skippable i := by
      by_contra hnot
      -- there are too many items in front of the stream
      obtain ⟨p₁, h₁⟩ := @items_flatten others kUnknownCount hothers
      obtain ⟨p₂, h₂⟩ := @items_flatten (items.drop index) kUnknownCount
        fun i hi => hitems i (List.mem_of_mem_drop hi)
      have hbytes : others.flatten = (items.drop index).flatten := List.append_cancel_right hptr
      rw [hbytes] at h₁
      have hlength := h₁.dataItems.count_unique h₂.dataItems
      rw [List.length_drop] at hlength
      have hlag := hbehind hnot
      omega
    refine ⟨hbefore, ?_⟩
    rw [hsame hbefore, hstanding] at hraw
    rw [hget, Option.some.injEq] at hitem
    subst hitem
    by_contra hnot
    -- a tag is all that `raw` returns
    obtain ⟨content, ⟨q', hcontent⟩, hnext⟩ := next_unskippable (P := P) hcount hr (by omega)
      (fun h => hnot ((skippable_iff hr).mp h)) ((items.drop (index + 1)).flatten ++ rest)
    rw [raw, hnext] at hraw
    have hlength := congrArg List.length (Prod.mk.inj (ok_inj hraw)).1
    have hpos := hcontent.le_length
    have hitem := hcount.choose_spec.le_length
    simp only [reading, CborValue.ptr_reading, List.length_take, List.length_append] at hlength
    omega
  · rintro ⟨hbefore, hskip⟩
    rw [hsame hbefore] at hwalk
    have hnext := next_skippable (P := P) hcount ((skippable_iff hr).mpr hskip)
      ((items.drop (index + 1)).flatten ++ rest)
    rw [restart_ok hfollows] at hnext
    have hraw := raw_of_next hnext (ptr_after _ _)
    rw [← hstanding] at hraw
    exact ⟨_, hwalk, rfl, items[index], _, hget, hraw⟩

/-- Only what is no index is refused as such. -/
theorem resolve_refused_iff {part : Bytes} :
    ((reading (listBytes a items ++ rest) r).resolve P left part).1 = .error (.resolve .intKeyExpected) ↔
      parseIndex part = .error .intKeyExpected := by
  rw [resolve_list_eq]
  cases hindex : parseIndex part with
  | error e => simp [resolveList, hindex]
  | ok index =>
    refine iff_of_false (fun h => ?_) (by simp)
    rw [resolveList_index hindex] at h
    split_ifs at h
    · cases h
    · split at h
      · next f s hs => cases f <;> cases h
      · next stream s hs =>
        split at h
        · next f s hs => cases f <;> cases h
        · cases h

theorem resolve_element_iff {part : Bytes} (ha : a.value = items.length)
    (hitems : ∀ item ∈ items, ∃ p, Items (2 ^ 64) p 1 item) (hnum : IsNumeral part)
    (hin : decimal part < items.length) :
    (∃ s', (reading (listBytes a items ++ rest) r).resolve P left part = (.ok (), s') ∧
      s'.value.ptr = (items.drop (decimal part)).flatten ++ rest ∧
      ∃ item s'', items[decimal part]? = some item ∧ s'.raw P = .ok (item, s'')) ↔
    Countable (listBytes a items) ∧ Follows P rest ∧ ∀ i ∈ items.take (decimal part + 1), Skippable i := by
  have hne : items ≠ [] := by
    rintro rfl
    exact absurd hin (Nat.not_lt_zero _)
  have hrange : ¬ 2 ^ 64 ≤ decimal part := Nat.not_le.mpr (lt_trans hin (ha ▸ a.value_lt))
  have hindex := parseIndex_numeral hnum
  rw [if_neg hrange] at hindex
  rw [resolve_list_eq, resolveList_index hindex, if_neg (by omega)]
  by_cases henter : Countable (listBytes a items) ∧ Follows P rest
  · obtain ⟨hcount, hrest⟩ := henter
    have hstream := @tryEnter_list P left _ _ _ r ha hne hitems hcount hrest
    obtain ⟨hlt, hall⟩ := countable_elements ha hitems hcount
    have hlength : items.length < 2 ^ 32 := by
      unfold kUnknownCount at hlt
      omega
    have hwalk := @walk_element_iff P left _ _ _ hin hlength hall hrest
    rw [and_iff_right hcount, and_iff_right hrest, ← hwalk]
    obtain ⟨others, hothers, -⟩ := @walk_standing P left _ _ hall hin hlength rest
    generalize (reading (listBytes a items ++ rest) r).tryEnter P left = entered at hstream
    obtain ⟨stream, s⟩ := entered
    subst hstream
    simp only [hothers, Prod.mk.injEq, true_and]
  · have hstream := mt (@tryEnter_list_iff P left _ _ _ r ha hne hitems).mp henter
    refine iff_of_false ?_ fun h => henter ⟨h.1, h.2.1⟩
    rintro ⟨s', hs', -⟩
    generalize (reading (listBytes a items ++ rest) r).tryEnter P left = entered at hstream hs'
    obtain ⟨stream, s⟩ := entered
    cases stream with
    | error f => cases hs'
    | ok stream => exact hstream ⟨stream, rfl⟩

end

/-- The list [5, 6]. -/
def fiveSix : Bytes := [0x82, 0x05, 0x06]

theorem fiveSix_items {limit : ℕ} : ∀ item ∈ [[0x05], [(0x06 : UInt8)]], ∃ p, Items limit p 1 item := by
  intro item hitem
  simp only [List.mem_cons, List.not_mem_nil, or_false] at hitem
  obtain rfl | rfl := hitem
  · exact ⟨false, .oneInteger (m := .unsigned) ⟨.inline, 5, by decide⟩ (.inl rfl)⟩
  · exact ⟨false, .oneInteger (m := .unsigned) ⟨.inline, 6, by decide⟩ (.inl rfl)⟩

end CborDecodeStream
end IpfsLite.Codec
