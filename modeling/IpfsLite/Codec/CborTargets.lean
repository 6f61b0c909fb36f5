import IpfsLite.Codec.CborPosition
import IpfsLite.Codec.CborTypes

/-! # Decoding into a variable

`operator>>` with the value that its target has before. The elements of a vector and the value of an
optional are decoded into new variables; a map is decoded into the items that it has, and bytes are put
behind those of a `common::Buffer`. -/
namespace IpfsLite.Codec
set_option autoImplicit false

open CborDecodeStream (Result)

/-- The decodable types. `PeerId` and `Multiaddress` are what their library creates from bytes; the fields
of a tuple are read one after the other. -/
inductive DecodeTy : Type 1 where
  | bool
  | unsigned (w : IntWidth)
  | signed (w : IntWidth)
  | string
  | bytes
  | blob (size : ℕ)
  | cid
  | bigInt
  | buffer
  | created {α : Type} (initial : α) (create : Bytes → Result α)
  | optional (t : DecodeTy)
  | vector (t : DecodeTy)
  | map (t : DecodeTy)
  | fields (t u : DecodeTy)
  | tuple (t : DecodeTy)

namespace DecodeTy

@[reducible]
def Val : DecodeTy → Type
  | .bool => Bool
  | .unsigned w => BitVec w.bits
  | .signed w => BitVec w.bits
  | .string | .bytes | .blob _ | .buffer => Bytes
  | .cid => CID
  | .bigInt => ℤ
  | @created α _ _ => α
  | .optional t => Option t.Val
  | .vector t => List t.Val
  | .map t => OrdMap StringKey t.Val
  | .fields t u => t.Val × u.Val
  | .tuple t => t.Val

/-- `kDefaultT`. -/
def default : (t : DecodeTy) → t.Val
  | .bool => false
  | .unsigned _ | .signed _ => 0
  | .string | .bytes | .buffer => []
  | .blob size => List.replicate size 0
  | .cid => .empty
  | .bigInt => 0
  | .created initial _ => initial
  | .optional _ => none
  | .vector _ => []
  | .map _ => .empty
  | .fields t u => (t.default, u.default)
  | .tuple t => t.default

/-- The loop over the entries of a map, `m.second >> items[m.first]`. -/
def readItems {α : Type} (read : α → CborDecodeStream → Result (α × CborDecodeStream)) (initial : α) :
    List (StringKey × CborDecodeStream) → OrdMap StringKey α → Result (OrdMap StringKey α)
  | [], items => .ok items
  | e :: es, items => do
    let (v, _) ← read ((items.find? e.1).getD initial) e.2
    readItems read initial es (items.insert e.1 v)

/-- `operator>>`: the value of the target before and after. -/
def readInto (P : Platform) : (t : DecodeTy) → t.Val → CborDecodeStream → Result (t.Val × CborDecodeStream)
  | .bool, _, s => Ty.bool.read P s
  | .unsigned w, _, s => (Ty.unsigned w).read P s
  | .signed w, _, s => (Ty.signed w).read P s
  | .string, _, s => Ty.string.read P s
  | .bytes, _, s => Ty.bytes.read P s
  | .blob size, _, s => (Ty.blob size).read P s
  | .cid, _, s => Ty.cid.read P s
  | .bigInt, _, s => Ty.bigInt.read P s
  | .buffer, held, s => do
    let (data, s) ← s.readBytes P
    .ok (held ++ data, s)
  | .created _ create, _, s => do
    let (data, s) ← s.readBytes P
    .ok (← create data, s)
  | .optional t, _, s =>
    if s.isNull then do .ok (none, ← s.next P)
    else do
      let (v, s) ← t.readInto P t.default s
      .ok (some v, s)
  | .vector t, _, s => do
    let n ← s.listLength P
    let (l, s) ← s.list P
    if P.elementsMax < n then .error .lengthError
    else
      let (vs, _) ← Ty.readN (t.readInto P t.default) n l
      .ok (vs, s)
  | .map t, items, s => do
    let (m, s) ← s.map P
    let items ← readItems (t.readInto P) t.default m.entries items
    .ok (items, s)
  | .fields t u, v, s => do
    let (a, s) ← t.readInto P v.1 s
    let (b, s) ← u.readInto P v.2 s
    .ok ((a, b), s)
  | .tuple t, v, s => do
    let (l, s) ← s.list P
    let (v, _) ← t.readInto P v l
    .ok (v, s)

/-- What is decoded does not depend on the value that the target had. -/
def Overwrites (P : Platform) (t : DecodeTy) (s : CborDecodeStream) : Prop :=
  ∀ v w a b, t.readInto P v s = .ok a → t.readInto P w s = .ok b → a.1 = b.1

/-- No buffer and no map, nor a field of that kind. -/
def Clears : DecodeTy → Prop
  | .buffer | .map _ => False
  | .fields t u => t.Clears ∧ u.Clears
  | .tuple t => t.Clears
  | _ => True

/-! ## What becomes of a target -/

/-- The call does the same for every target, up to what it makes of the value. -/
def Acts {α : Type} (read : α → CborDecodeStream → Result (α × CborDecodeStream)) (s : CborDecodeStream)
    (r : Result ((α → α) × CborDecodeStream)) : Prop :=
  ∀ v, read v s = r.map fun p => (p.1 v, p.2)

/-- All values are made the same. -/
def Constant {α : Type} (f : α → α) : Prop := ∀ v w, f v = f w

theorem acts_fresh {α : Type} {read : α → CborDecodeStream → Result (α × CborDecodeStream)} {s : CborDecodeStream}
    {x : Result (α × CborDecodeStream)} (h : ∀ v, read v s = x) :
    Acts read s (x.map fun p => (fun _ => p.1, p.2)) := by
  intro v
  rw [h v]
  cases x <;> rfl

theorem constant_fresh {α : Type} {x : Result (α × CborDecodeStream)} {f : α → α} {s' : CborDecodeStream}
    (h : (x.map fun p => (fun _ => p.1, p.2)) = .ok (f, s')) : Constant f := by
  cases x with
  | error e => cases h
  | ok p =>
    cases h
    exact fun _ _ => rfl

/-- The items that are not read stay as they are. -/
theorem readItems_acts {α : Type} {read : α → CborDecodeStream → Result (α × CborDecodeStream)} {initial : α}
    (h : ∀ s, ∃ r, Acts read s r) (es : List (StringKey × CborDecodeStream)) :
    ∃ r : Result (OrdMap StringKey α → OrdMap StringKey α),
      (∀ items, readItems read initial es items = r.map fun f => f items) ∧
      ∀ f, r = .ok f → ∀ items k, k ∉ es.map Prod.fst → (f items).find? k = items.find? k := by
  induction es with
  | nil =>
    refine ⟨.ok id, fun items => rfl, ?_⟩
    rintro f hf items k -
    cases hf
    rfl
  | cons e es ih =>
    obtain ⟨r₁, h₁⟩ := h e.2
    obtain ⟨r₂, h₂, hkeep⟩ := ih
    cases r₁ with
    | error e' =>
      refine ⟨.error e', fun items => ?_, nofun⟩
      rw [readItems, h₁]
      rfl
    | ok p =>
      refine ⟨r₂.map fun f items => f (items.insert e.1 (p.1 ((items.find? e.1).getD initial))), ?_, ?_⟩
      · intro items
        rw [readItems, h₁]
        simp only [Except.map, bind, Except.bind]
        rw [h₂]
        cases r₂ <;> rfl
      · intro f hf items k hk
        cases r₂ with
        | error e' => cases hf
        | ok g =>
          cases hf
          obtain ⟨hne, hk⟩ := not_or.mp (mt List.mem_cons.mpr hk)
          rw [hkeep g rfl _ k hk, OrdMap.find?_insert, if_neg hne]

/-- There is always another key. -/
theorem exists_new_key (keys : List StringKey) : ∃ k, k ∉ keys := by
  refine ⟨⟨0 :: keys.flatMap StringKey.str⟩, fun hk => ?_⟩
  have hle := (List.sublist_flatten_of_mem (List.mem_map_of_mem (f := StringKey.str) hk)).length_le
  rw [← List.flatMap_def, List.length_cons] at hle
  omega

/-- What a call makes of its target, and when that is the same for all values. -/
theorem readInto_acts (P : Platform) (t : DecodeTy) (s : CborDecodeStream) :
    ∃ r, Acts (t.readInto P) s r ∧ ∀ f s', r = .ok (f, s') → (Constant f ↔ t.Clears) := by
  induction t generalizing s with
  | bool | unsigned | signed | string | bytes | blob | cid | bigInt | created | optional | vector =>
    exact ⟨_, acts_fresh fun _ => rfl, fun f s' h => iff_of_true (constant_fresh h) trivial⟩
  | buffer =>
    refine ⟨(s.readBytes P).map fun p => (fun held => held ++ p.1, p.2), ?_, ?_⟩
    · intro held
      rw [readInto]
      cases s.readBytes P <;> rfl
    · intro f s' h
      refine iff_of_false (fun hconst => ?_) not_false
      cases hread : s.readBytes P with
      | error e =>
        rw [hread] at h
        cases h
      | ok p =>
        rw [hread] at h
        cases h
        have hlength := congrArg List.length (hconst [] [0])
        rw [List.length_append, List.length_append, List.length_nil, List.length_singleton] at hlength
        omega
  | map t ih =>
    cases hmap : s.map P with
    | error e =>
      refine ⟨.error e, fun items => ?_, nofun⟩
      rw [readInto, hmap]
      rfl
    | ok p =>
      obtain ⟨r, hr, hkeep⟩ := @readItems_acts _ _ t.default (fun s => (ih s).imp fun _ h => h.1) p.1.entries
      refine ⟨r.map fun f => (f, p.2), fun items => ?_, ?_⟩
      · rw [readInto, hmap]
        simp only [bind, Except.bind]
        rw [hr]
        cases r <;> rfl
      · intro f s' h
        refine iff_of_false (fun hconst => ?_) not_false
        cases r with
        | error e => cases h
        | ok g =>
          cases h
          obtain ⟨k, hk⟩ := exists_new_key (p.1.entries.map Prod.fst)
          have hempty := hkeep f rfl .empty k hk
          have hheld := hkeep f rfl (OrdMap.empty.insert k t.default) k hk
          rw [hconst .empty (OrdMap.empty.insert k t.default), hheld, OrdMap.find?_insert, if_pos rfl] at hempty
          cases hempty
  | fields t u iht ihu =>
    obtain ⟨r₁, h₁, hf₁⟩ := iht s
    cases r₁ with
    | error e =>
      refine ⟨.error e, fun v => ?_, nofun⟩
      rw [readInto, h₁]
      rfl
    | ok p =>
      obtain ⟨r₂, h₂, hf₂⟩ := ihu p.2
      refine ⟨r₂.map fun q => (fun v => (p.1 v.1, q.1 v.2), q.2), fun v => ?_, ?_⟩
      · rw [readInto, h₁]
        simp only [Except.map, bind, Except.bind]
        rw [h₂]
        cases r₂ <;> rfl
      · intro f s' h
        cases r₂ with
        | error e => cases h
        | ok q =>
          cases h
          rw [Clears, ← hf₁ p.1 p.2 rfl, ← hf₂ q.1 q.2 rfl]
          constructor
          · intro hconst
            exact ⟨fun v w => (Prod.mk.inj (hconst (v, u.default) (w, u.default))).1,
              fun v w => (Prod.mk.inj (hconst (t.default, v) (t.default, w))).2⟩
          · rintro ⟨hp, hq⟩ v w
            exact Prod.ext (hp v.1 w.1) (hq v.2 w.2)
  | tuple t ih =>
    cases hlist : s.list P with
    | error e =>
      refine ⟨.error e, fun v => ?_, nofun⟩
      rw [readInto, hlist]
      rfl
    | ok p =>
      obtain ⟨r, hr, hf⟩ := ih p.1
      refine ⟨r.map fun q => (q.1, p.2), fun v => ?_, ?_⟩
      · rw [readInto, hlist]
        simp only [bind, Except.bind]
        rw [hr]
        cases r <;> rfl
      · intro f s' h
        cases r with
        | error e => cases h
        | ok q =>
          cases h
          exact hf q.1 q.2 rfl

/-- **Targets.** Where decoding succeeds, it overwrites its target exactly when the type has no buffer and
no map outside of its optionals and vectors. -/
theorem overwrites_iff (P : Platform) (t : DecodeTy) (s : CborDecodeStream)
    (hread : ∃ v a, t.readInto P v s = .ok a) : t.Overwrites P s ↔ t.Clears := by
  obtain ⟨r, hr, hf⟩ := readInto_acts P t s
  obtain ⟨v, a, ha⟩ := hread
  cases r with
  | error e =>
    rw [hr v] at ha
    cases ha
  | ok p =>
    rw [← hf p.1 p.2 rfl]
    constructor
    · intro hover v w
      exact hover v w _ _ (hr v) (hr w)
    · intro hconst v w a b ha hb
      rw [hr v] at ha
      rw [hr w] at hb
      cases ha
      cases hb
      exact hconst v w

/-- A vector of buffers is overwritten. -/
theorem vector_of_buffers_overwritten : (vector buffer).Overwrites .reference
    (.reading [0x81, 0x41, 0x05] kUnknownCount) :=
  (overwrites_iff .reference (vector buffer) (.reading [0x81, 0x41, 0x05] kUnknownCount)
    ⟨[[0x07]], ([[0x05]], ⟨.atEnd []⟩), by decide +kernel⟩).mpr trivial

/-- The byte 5 is decoded into an empty buffer as itself, and put behind what another one holds. -/
theorem buffer_appended : ∃ s, CborDecodeStream.create .reference [0x41, 0x05] = .ok s ∧
    buffer.readInto .reference [] s = .ok ([0x05], ⟨.atEnd []⟩) ∧
      buffer.readInto .reference [0x07] s = .ok ([0x07, 0x05], ⟨.atEnd []⟩) ∧ ¬ buffer.Overwrites .reference s := by
  have hempty : buffer.readInto .reference [] (.reading [0x41, 0x05] kUnknownCount) =
      .ok ([0x05], ⟨.atEnd []⟩) := by decide +kernel
  have hheld : buffer.readInto .reference [0x07] (.reading [0x41, 0x05] kUnknownCount) =
      .ok ([0x07, 0x05], ⟨.atEnd []⟩) := by decide +kernel
  refine ⟨.reading [0x41, 0x05] kUnknownCount, by decide +kernel, hempty, hheld, fun hover => ?_⟩
  exact absurd (hover [] [0x07] _ _ hempty hheld) (by decide)

end DecodeTy
end IpfsLite.Codec
