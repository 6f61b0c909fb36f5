import IpfsLite.Foundations.Cbor

/-! # CBOR data items of any length encoding

RFC 7049's well-formed data items: the items of definite length, and strings, arrays and maps of
indefinite length up to their break. The number of items that a byte string holds is determined. -/
namespace IpfsLite.Cbor
set_option autoImplicit false

def breakByte : UInt8 := 255

/-- What follows the head of an item. -/
inductive Opening where
  /-- so many bytes -/
  | payload (n : ℕ)
  /-- so many items -/
  | items (n : ℕ)
  /-- strings of that type, and a break -/
  | chunks (m : Major)
  /-- items in groups of that size, and a break -/
  | groups (size : ℕ)
  deriving DecidableEq

def Opening.definite : Major → ℕ → Opening
  | .unsigned, _ | .negative, _ | .simple, _ => .payload 0
  | .bytes, n | .text, n => .payload n
  | .array, n => .items n
  | .map, n => .items (2 * n)
  | .tag, _ => .items 1

def Opening.indefinite : Major → Option Opening
  | .bytes => some (.chunks .bytes)
  | .text => some (.chunks .text)
  | .array => some (.groups 1)
  | .map => some (.groups 2)
  | _ => none

/-- A simple value below 32 has no byte of its own. -/
def opening : Bytes → Option (Opening × Bytes)
  | [] => none
  | b :: rest =>
    match readHead (b :: rest) with
    | some (m, n, tail) =>
      if m = .simple ∧ b.toNat % 32 = 24 ∧ n < 32 then none else some (.definite m n, tail)
    | none =>
      if b.toNat % 32 = 31 then (Opening.indefinite (.ofCode (b.toNat / 32))).map fun o => (o, rest)
      else none

/-- Strings of definite length. -/
inductive Chunks (m : Major) : Bytes → Prop where
  | nil : Chunks m []
  | cons {bytes data rest : Bytes} (hhead : readHead bytes = some (m, data.length, data ++ rest))
      (hrest : Chunks m rest) : Chunks m bytes

/-- So many data items, one after the other. -/
inductive DataItems : ℕ → Bytes → Prop where
  | nil : DataItems 0 []
  | payload {n : ℕ} {bytes data rest : Bytes} (ho : opening bytes = some (.payload data.length, data ++ rest))
      (hrest : DataItems n rest) : DataItems (n + 1) bytes
  | items {n k : ℕ} {bytes inner rest : Bytes} (ho : opening bytes = some (.items k, inner ++ rest))
      (hinner : DataItems k inner) (hrest : DataItems n rest) : DataItems (n + 1) bytes
  | chunks {n : ℕ} {m : Major} {bytes inner rest : Bytes}
      (ho : opening bytes = some (.chunks m, inner ++ breakByte :: rest)) (hinner : Chunks m inner)
      (hrest : DataItems n rest) : DataItems (n + 1) bytes
  | groups {n k size : ℕ} {bytes inner rest : Bytes}
      (ho : opening bytes = some (.groups size, inner ++ breakByte :: rest)) (hinner : DataItems (k * size) inner)
      (hrest : DataItems n rest) : DataItems (n + 1) bytes

/-! ## Heads with more bytes behind them -/

theorem readHead_append {bytes tail : Bytes} {m : Major} {n : ℕ} (h : readHead bytes = some (m, n, tail)) (x : Bytes) :
    readHead (bytes ++ x) = some (m, n, tail ++ x) := by
  cases bytes with
  | nil => cases h
  | cons b rest =>
    rw [readHead] at h
    obtain ⟨w, hw, h⟩ := Option.bind_eq_some_iff.mp h
    by_cases hlength : rest.length < w.size
    · rw [if_pos hlength] at h
      cases h
    rw [if_neg hlength] at h
    have hle : w.size ≤ rest.length := Nat.not_lt.mp hlength
    have hlong : ¬ (rest ++ x).length < w.size := by
      rw [List.length_append]
      omega
    rw [List.cons_append, readHead, hw]
    simp only [Option.bind_eq_bind, Option.bind_some, if_neg hlong]
    rw [List.take_append_of_le_length hle, List.drop_append_of_le_length hle]
    simp only [Option.some.injEq, Prod.mk.injEq] at h ⊢
    exact ⟨h.1, h.2.1, congrArg (fun t => t ++ x) h.2.2⟩

theorem readHead_indefinite {b : UInt8} (h : b.toNat % 32 = 31) (rest : Bytes) : readHead (b :: rest) = none := by
  rw [readHead, h]
  rfl

theorem opening_append {bytes tail : Bytes} {o : Opening} (h : opening bytes = some (o, tail)) (x : Bytes) :
    opening (bytes ++ x) = some (o, tail ++ x) := by
  cases bytes with
  | nil => cases h
  | cons b rest =>
    rw [List.cons_append]
    simp only [opening] at h ⊢
    cases hread : readHead (b :: rest) with
    | some head =>
      obtain ⟨m, n, tail'⟩ := head
      have hmore := readHead_append hread x
      rw [List.cons_append] at hmore
      simp only [hread, hmore] at h ⊢
      split_ifs at h with hsimple
      simp only [Option.some.injEq, Prod.mk.injEq] at h
      obtain ⟨rfl, rfl⟩ := h
      rw [if_neg hsimple]
    | none =>
      simp only [hread] at h
      split_ifs at h with hinfo
      rw [readHead_indefinite hinfo (rest ++ x), if_pos hinfo]
      obtain ⟨o', ho', h⟩ := Option.map_eq_some_iff.mp h
      obtain ⟨rfl, rfl⟩ := Prod.mk.inj h
      rw [ho']
      rfl

theorem opening_determined {b c x y t t' : Bytes} {o o' : Opening} (ho : opening b = some (o, t))
    (ho' : opening c = some (o', t')) (heq : b ++ x = c ++ y) : o' = o ∧ t ++ x = t' ++ y := by
  have hmore := opening_append ho x
  rw [heq, opening_append ho' y, Option.some.injEq, Prod.mk.injEq] at hmore
  exact ⟨hmore.1, hmore.2.symm⟩

/-- A break starts no item. -/
theorem opening_break (x : Bytes) : opening (breakByte :: x) = none := by
  simp only [opening, readHead_indefinite (b := breakByte) (by decide) x]
  rfl

/-! ## The items that the bytes hold are determined -/

theorem DataItems.opening_some {n : ℕ} {bytes : Bytes} (h : DataItems (n + 1) bytes) :
    ∃ o tail, opening bytes = some (o, tail) := by
  cases h with
  | payload ho | items ho | chunks ho | groups ho => exact ⟨_, _, ho⟩

theorem DataItems.eq_nil {bytes : Bytes} (h : DataItems 0 bytes) : bytes = [] := by
  cases h
  rfl

theorem DataItems.not_break {n : ℕ} {bytes x y : Bytes} (h : DataItems n bytes)
    (heq : breakByte :: x = bytes ++ breakByte :: y) : bytes = [] := by
  cases n with
  | zero => exact h.eq_nil
  | succ n =>
    obtain ⟨o, tail, ho⟩ := h.opening_some
    have hmore := opening_append ho (breakByte :: y)
    rw [← heq, opening_break] at hmore
    cases hmore

theorem Chunks.determined {m : Major} {b c x y : Bytes} (hb : Chunks m b) (hc : Chunks m c)
    (heq : b ++ breakByte :: x = c ++ breakByte :: y) : x = y := by
  have hstop : readHead (breakByte :: x) = none ∧ readHead (breakByte :: y) = none :=
    ⟨readHead_indefinite (by decide) x, readHead_indefinite (by decide) y⟩
  induction hb generalizing c with
  | nil =>
    cases hc with
    | nil => exact (List.cons.inj heq).2
    | cons hhead _ =>
      have hmore := readHead_append hhead (breakByte :: y)
      rw [← heq, List.nil_append, hstop.1] at hmore
      cases hmore
  | @cons bytes data rest hhead _ ih =>
    cases hc with
    | nil =>
      have hmore := readHead_append hhead (breakByte :: x)
      rw [heq, List.nil_append, hstop.2] at hmore
      cases hmore
    | @cons _ data' rest' hhead' hrest' =>
      have hmore := readHead_append hhead (breakByte :: x)
      have hmore' := readHead_append hhead' (breakByte :: y)
      rw [heq, hmore'] at hmore
      simp only [Option.some.injEq, Prod.mk.injEq, true_and, List.append_assoc] at hmore
      obtain ⟨hlength, htail⟩ := hmore
      exact ih hrest' (List.append_inj htail hlength).2.symm

/-- Two readings of the same bytes: the shorter one is the beginning of the longer one. -/
def Agree (n m : ℕ) (x y : Bytes) : Prop :=
  (n ≤ m ∧ ∃ d, x = d ++ y ∧ DataItems (m - n) d) ∨ (m ≤ n ∧ ∃ d, y = d ++ x ∧ DataItems (n - m) d)

theorem Agree.succ {n m : ℕ} {x y : Bytes} (h : Agree n m x y) : Agree (n + 1) (m + 1) x y := by
  unfold Agree at h ⊢
  rw [Nat.add_sub_add_right, Nat.add_sub_add_right]
  exact h.imp (fun h => ⟨Nat.succ_le_succ h.1, h.2⟩) fun h => ⟨Nat.succ_le_succ h.1, h.2⟩

theorem Agree.same {n : ℕ} {x y : Bytes} (h : Agree n n x y) : x = y := by
  unfold Agree at h
  rw [Nat.sub_self] at h
  obtain ⟨-, d, hd, hnil⟩ | ⟨-, d, hd, hnil⟩ := h
  · rw [hd, hnil.eq_nil, List.nil_append]
  · rw [hd, hnil.eq_nil, List.nil_append]

theorem Agree.break {n m : ℕ} {x y : Bytes} (h : Agree n m (breakByte :: x) (breakByte :: y)) : x = y := by
  obtain ⟨-, d, hd, hitems⟩ | ⟨-, d, hd, hitems⟩ := h
  · rw [hitems.not_break hd] at hd
    exact (List.cons.inj hd).2
  · rw [hitems.not_break hd] at hd
    exact (List.cons.inj hd).2.symm

/-- What stands between the head of an item and its end. -/
def Body : Opening → Bytes → Prop
  | .payload n, b => b.length = n
  | .items n, b => DataItems n b
  | .chunks m, b => ∃ inner, b = inner ++ [breakByte] ∧ Chunks m inner
  | .groups size, b => ∃ k inner, b = inner ++ [breakByte] ∧ DataItems (k * size) inner

theorem DataItems.uncons {n : ℕ} {bytes : Bytes} (h : DataItems (n + 1) bytes) :
    ∃ o body rest, opening bytes = some (o, body ++ rest) ∧ Body o body ∧ DataItems n rest := by
  cases h with
  | payload ho hrest => exact ⟨_, _, _, ho, rfl, hrest⟩
  | items ho hinner hrest => exact ⟨_, _, _, ho, hinner, hrest⟩
  | @chunks _ m _ inner rest ho hinner hrest =>
    rw [List.append_cons] at ho
    exact ⟨_, _, _, ho, ⟨inner, rfl, hinner⟩, hrest⟩
  | @groups _ k size _ inner rest ho hinner hrest =>
    rw [List.append_cons] at ho
    exact ⟨_, _, _, ho, ⟨k, inner, rfl, hinner⟩, hrest⟩

theorem agree_none {k : ℕ} {b c x y : Bytes} (hb : DataItems k b) (hc : DataItems 0 c) (heq : b ++ x = c ++ y) :
    Agree k 0 x y := by
  rw [hc.eq_nil, List.nil_append] at heq
  exact .inr ⟨Nat.zero_le k, b, heq.symm, hb⟩

theorem DataItems.agree {n : ℕ} {b : Bytes} (hb : DataItems n b) {m : ℕ} {c x y : Bytes} (hc : DataItems m c)
    (heq : b ++ x = c ++ y) : Agree n m x y := by
  induction hb generalizing m c x y with
  | nil => exact .inl ⟨Nat.zero_le m, c, heq, hc⟩
  | @payload n bytes data rest ho hrest ih =>
    cases m with
    | zero => exact agree_none (.payload ho hrest) hc heq
    | succ m =>
      obtain ⟨o, body, rest', ho', hbody, hrest'⟩ := hc.uncons
      obtain ⟨rfl, htail⟩ := opening_determined ho ho' heq
      rw [List.append_assoc, List.append_assoc] at htail
      exact (ih hrest' (List.append_inj htail hbody.symm).2).succ
  | @items n k bytes inner rest ho hinner hrest ih₁ ih =>
    cases m with
    | zero => exact agree_none (.items ho hinner hrest) hc heq
    | succ m =>
      obtain ⟨o, body, rest', ho', hbody, hrest'⟩ := hc.uncons
      obtain ⟨rfl, htail⟩ := opening_determined ho ho' heq
      rw [List.append_assoc, List.append_assoc] at htail
      exact (ih hrest' (ih₁ hbody htail).same).succ
  | @chunks n major bytes inner rest ho hinner hrest ih =>
    cases m with
    | zero => exact agree_none (.chunks ho hinner hrest) hc heq
    | succ m =>
      obtain ⟨o, body, rest', ho', hbody, hrest'⟩ := hc.uncons
      obtain ⟨rfl, htail⟩ := opening_determined ho ho' heq
      obtain ⟨inner', rfl, hinner'⟩ := hbody
      simp only [List.append_assoc, List.cons_append, List.nil_append] at htail
      exact (ih hrest' (hinner.determined hinner' htail)).succ
  | @groups n k size bytes inner rest ho hinner hrest ih₁ ih =>
    cases m with
    | zero => exact agree_none (.groups ho hinner hrest) hc heq
    | succ m =>
      obtain ⟨o, body, rest', ho', hbody, hrest'⟩ := hc.uncons
      obtain ⟨rfl, htail⟩ := opening_determined ho ho' heq
      obtain ⟨k', inner', rfl, hinner'⟩ := hbody
      simp only [List.append_assoc, List.cons_append, List.nil_append] at htail
      exact (ih hrest' (ih₁ hinner' htail).break).succ

theorem DataItems.eq_zero {n : ℕ} (h : DataItems n []) : n = 0 := by
  cases n with
  | zero => rfl
  | succ n =>
    obtain ⟨o, tail, ho⟩ := h.opening_some
    cases ho

/-- **One count.** Bytes are so many data items in one way only. -/
theorem DataItems.count_unique {n m : ℕ} {bytes : Bytes} (h : DataItems n bytes) (h' : DataItems m bytes) :
    n = m := by
  obtain ⟨hle, d, hd, hitems⟩ | ⟨hle, d, hd, hitems⟩ := h.agree (x := []) (y := []) h' rfl
  all_goals
    rw [List.append_nil] at hd
    rw [← hd] at hitems
    have hzero := hitems.eq_zero
    omega

/-! ## Items of definite length -/

theorem opening_head {m : Major} {a : Argument} (h : m = .simple → a.width = .one → 32 ≤ a.value) (rest : Bytes) :
    opening (head m a ++ rest) = some (.definite m a.value, rest) := by
  have hread := readHead_head m a rest
  rw [head, List.cons_append] at hread ⊢
  simp only [opening, hread, (initial_byte m a).1]
  refine if_neg ?_
  rintro ⟨hm, hinfo, hlt⟩
  refine absurd (h hm ?_) (Nat.not_le.mpr hlt)
  obtain ⟨w, v, hv⟩ := a
  cases w with
  | inline => exact absurd hinfo (Nat.ne_of_lt hv)
  | one => rfl
  | two | four | eight => exact absurd hinfo (by simp [Argument.info])

theorem Items.dataItems {limit : ℕ} {p : Bool} {n : ℕ} {bytes : Bytes} (h : Items limit p n bytes) :
    DataItems n bytes := by
  induction h with
  | nil => exact .nil
  | integer hm _ ih =>
    refine @DataItems.payload _ _ [] _ ?_ ih
    rw [opening_head (by rintro rfl; simp at hm)]
    obtain rfl | rfl := hm <;> rfl
  | @string _ _ data _ _ _ hm hdata _ ih =>
    refine @DataItems.payload _ _ data _ ?_ ih
    rw [opening_head (by rintro rfl; simp at hm), hdata]
    obtain rfl | rfl := hm <;> rfl
  | array _ _ _ ih₁ ih => exact .items (opening_head (by simp) _) ih₁ ih
  | map _ _ _ ih₁ ih => exact .items (opening_head (by simp) _) ih₁ ih
  | tag _ _ ih₁ ih => exact .items (opening_head (by simp) _) ih₁ ih
  | simple ha _ ih => exact @DataItems.payload _ _ [] _ (opening_head (fun _ => ha) _) ih

/-- The items of an array are what it counts. -/
theorem DataItems.array_iff {a : Argument} {bytes : Bytes} :
    DataItems 1 (head .array a ++ bytes) ↔ DataItems a.value bytes := by
  have hopening := opening_head (m := .array) (a := a) (by simp) bytes
  constructor
  · intro h
    obtain ⟨o, body, rest, ho, hbody, hrest⟩ := h.uncons
    rw [hopening, hrest.eq_nil, List.append_nil, Option.some.injEq, Prod.mk.injEq] at ho
    obtain ⟨rfl, rfl⟩ := ho
    exact hbody
  · intro h
    rw [← List.append_nil bytes] at hopening
    have hone := DataItems.items hopening h .nil
    rwa [List.append_nil] at hone

end IpfsLite.Cbor
