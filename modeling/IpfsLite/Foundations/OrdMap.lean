import Mathlib

/-! # Ordered maps

A finite map that is traversed in the order of its keys, as a sorted list of entries. A set is a
map to `Unit`. -/
namespace IpfsLite
set_option autoImplicit false

structure OrdMap (κ β : Type) [LinearOrder κ] where
  entries : List (κ × β)
  sorted : entries.Pairwise fun a b => a.1 < b.1

namespace OrdMap
variable {κ β : Type} [LinearOrder κ]

def empty : OrdMap κ β := ⟨[], .nil⟩

def find? (m : OrdMap κ β) (k : κ) : Option β :=
  (m.entries.find? fun e => e.1 = k).map Prod.snd

def contains (m : OrdMap κ β) (k : κ) : Bool := (m.find? k).isSome

def keys (m : OrdMap κ β) : List κ := m.entries.map Prod.fst

def isEmpty (m : OrdMap κ β) : Bool := m.entries.isEmpty

/-- `m[k] = v`. -/
def insert (m : OrdMap κ β) (k : κ) (v : β) : OrdMap κ β where
  entries := m.entries.filter (fun e => e.1 < k) ++ (k, v) :: m.entries.filter fun e => k < e.1
  sorted := by
    refine List.pairwise_append.mpr ⟨m.sorted.filter _, List.pairwise_cons.mpr ⟨?_, m.sorted.filter _⟩, ?_⟩
    · intro e he
      exact of_decide_eq_true (List.mem_filter.mp he).2
    · intro a ha b hb
      have hak : a.1 < k := of_decide_eq_true (List.mem_filter.mp ha).2
      rcases List.mem_cons.mp hb with rfl | hb
      · exact hak
      · exact lt_trans hak (of_decide_eq_true (List.mem_filter.mp hb).2)

/-- `m.emplace(k, v)`: an entry that is there stays. -/
def emplace (m : OrdMap κ β) (k : κ) (v : β) : OrdMap κ β := if m.contains k then m else m.insert k v

def erase (m : OrdMap κ β) (k : κ) : OrdMap κ β :=
  ⟨m.entries.filter fun e => e.1 ≠ k, m.sorted.filter _⟩

/-- Changes the value of a key that is there. -/
def modify (m : OrdMap κ β) (k : κ) (f : β → β) : OrdMap κ β where
  entries := m.entries.map fun e => if e.1 = k then (e.1, f e.2) else e
  sorted := by
    have hkey (e : κ × β) : (if e.1 = k then (e.1, f e.2) else e).1 = e.1 := by split <;> rfl
    refine List.pairwise_map.mpr (m.sorted.imp fun {a b} h => ?_)
    rw [hkey a, hkey b]
    exact h

def mapValues {γ : Type} (m : OrdMap κ β) (f : κ → β → γ) : OrdMap κ γ where
  entries := m.entries.map fun e => (e.1, f e.1 e.2)
  sorted := List.pairwise_map.mpr m.sorted

/-! ## Lookups -/

@[simp] theorem find?_empty (k : κ) : (empty : OrdMap κ β).find? k = none := rfl

theorem find?_some_iff (m : OrdMap κ β) (k : κ) (v : β) :
    m.find? k = some v ↔ (k, v) ∈ m.entries := by
  obtain ⟨es, hs⟩ := m
  simp only [find?]
  induction es with
  | nil => simp
  | cons e es ih =>
    obtain ⟨hlt, htail⟩ := List.pairwise_cons.mp hs
    rw [List.find?_cons]
    by_cases he : e.1 = k
    · have hnot : ∀ w, (k, w) ∉ es := by
        intro w hw
        have := hlt _ hw
        rw [he] at this
        exact lt_irrefl k this
      obtain ⟨e₁, e₂⟩ := e
      simp only at he
      subst he
      simp [hnot, eq_comm]
    · have hne : (k, v) ≠ e := fun h => he (h ▸ rfl)
      simp only [he, decide_false, ih htail, List.mem_cons, hne, false_or]

theorem find?_none_iff (m : OrdMap κ β) (k : κ) : m.find? k = none ↔ k ∉ m.keys := by
  simp only [find?, keys, Option.map_eq_none_iff, List.find?_eq_none, decide_eq_true_eq,
    List.mem_map, not_exists, not_and]

theorem mem_keys_iff (m : OrdMap κ β) (k : κ) : k ∈ m.keys ↔ (m.find? k).isSome = true := by
  rw [← not_iff_not, ← find?_none_iff, Bool.not_eq_true, Option.isSome_eq_false_iff,
    Option.isNone_iff_eq_none]

/-- Two maps with the same lookups are the same. -/
theorem find?_eq_iff_mem (m : OrdMap κ β) (n : OrdMap κ β) (k : κ) :
    m.find? k = n.find? k ↔ ∀ v, (k, v) ∈ m.entries ↔ (k, v) ∈ n.entries := by
  simp only [← find?_some_iff]
  exact ⟨fun h v => by rw [h], fun h => Option.ext h⟩

/-- A map is determined by its lookups. -/
theorem ext_find? {m n : OrdMap κ β} (h : ∀ k, m.find? k = n.find? k) : m = n := by
  have : Std.Irrefl fun a b : κ × β => a.1 < b.1 := ⟨fun a => lt_irrefl a.1⟩
  have : Std.Antisymm fun a b : κ × β => a.1 < b.1 := ⟨fun _ _ hab hba => absurd hab hba.asymm⟩
  have hentries : m.entries = n.entries := by
    apply m.sorted.eq_of_mem_iff n.sorted
    intro e
    exact (find?_eq_iff_mem m n e.1).mp (h e.1) e.2
  cases m
  cases n
  cases hentries
  rfl

@[simp] theorem find?_insert (m : OrdMap κ β) (k j : κ) (v : β) :
    (m.insert k v).find? j = if j = k then some v else m.find? j := by
  by_cases h : j = k
  · rw [if_pos h, find?_some_iff, h]
    simp [insert]
  · rw [if_neg h, find?_eq_iff_mem]
    intro w
    have hne : (j, w) ≠ (k, v) := fun he => h (congrArg Prod.fst he)
    simp only [insert, List.mem_append, List.mem_cons, List.mem_filter, decide_eq_true_eq, hne,
      false_or, ← and_or_left]
    exact ⟨fun hm => hm.1, fun hm => ⟨hm, lt_or_gt_of_ne h⟩⟩

@[simp] theorem find?_erase (m : OrdMap κ β) (k j : κ) :
    (m.erase k).find? j = if j = k then none else m.find? j := by
  by_cases h : j = k
  · rw [if_pos h, find?_none_iff, h]
    simp [erase, keys]
  · rw [if_neg h, find?_eq_iff_mem]
    intro w
    simp [erase, List.mem_filter, h]

@[simp] theorem find?_modify (m : OrdMap κ β) (k j : κ) (f : β → β) :
    (m.modify k f).find? j = if j = k then (m.find? j).map f else m.find? j := by
  have hfind : ∀ es : List (κ × β), ((es.map fun e => if e.1 = k then (e.1, f e.2) else e).find?
      fun e => e.1 = j) = (es.find? fun e => e.1 = j).map fun e => if e.1 = k then (e.1, f e.2) else e := by
    intro es
    rw [List.find?_map]
    congr 2
    funext e
    by_cases he : e.1 = k <;> simp [he]
  rw [find?, modify, hfind]
  cases hf : m.entries.find? fun e => e.1 = j with
  | none => simp [find?, hf]
  | some e =>
    have hej : e.1 = j := by simpa using List.find?_some hf
    by_cases h : j = k
    · subst h
      simp [find?, hf, hej]
    · simp [find?, hf, h, hej]

theorem keys_modify (m : OrdMap κ β) (k : κ) (f : β → β) : (m.modify k f).keys = m.keys := by
  simp only [keys, modify, List.map_map]
  congr 1
  funext e
  by_cases he : e.1 = k <;> simp [he]

@[simp] theorem keys_mapValues {γ : Type} (m : OrdMap κ β) (f : κ → β → γ) :
    (m.mapValues f).keys = m.keys := by
  simp only [keys, mapValues, List.map_map]
  rfl

@[simp] theorem find?_emplace (m : OrdMap κ β) (k j : κ) (v : β) :
    (m.emplace k v).find? j = if j = k then some ((m.find? k).getD v) else m.find? j := by
  unfold emplace contains
  cases hk : m.find? k with
  | none => simp
  | some w =>
    by_cases h : j = k
    · simp [h, hk]
    · simp [h]

@[simp] theorem find?_mapValues {γ : Type} (m : OrdMap κ β) (f : κ → β → γ) (k : κ) :
    (m.mapValues f).find? k = (m.find? k).map (f k) := by
  refine Option.ext fun v => ?_
  rw [find?_some_iff, Option.map_eq_some_iff]
  simp only [mapValues, List.mem_map, Prod.mk.injEq, find?_some_iff]
  constructor
  · rintro ⟨e, he, rfl, rfl⟩
    exact ⟨e.2, he, rfl⟩
  · rintro ⟨w, hw, rfl⟩
    exact ⟨(k, w), hw, rfl, rfl⟩

/-- Erasing the keys of a list one after the other. -/
theorem find?_foldl_erase (m : OrdMap κ β) (ks : List κ) (j : κ) :
    (ks.foldl (fun m k => m.erase k) m).find? j = if j ∈ ks then none else m.find? j := by
  induction ks generalizing m with
  | nil => simp
  | cons k ks ih =>
    rw [List.foldl_cons, ih, find?_erase]
    by_cases hj : j = k
    · simp [hj]
    · simp [hj]

/-! ## Membership -/

theorem contains_of_find? {m : OrdMap κ β} {k : κ} {v : β} (h : m.find? k = some v) :
    m.contains k = true := by
  rw [contains, h]
  rfl

@[simp] theorem contains_empty (k : κ) : (empty : OrdMap κ β).contains k = false := rfl

theorem contains_insert (m : OrdMap κ β) (k j : κ) (v : β) :
    (m.insert k v).contains j = (decide (j = k) || m.contains j) := by
  rw [contains, find?_insert]
  by_cases h : j = k <;> simp [h, contains]

theorem contains_emplace (m : OrdMap κ β) (k j : κ) (v : β) :
    (m.emplace k v).contains j = (decide (j = k) || m.contains j) := by
  rw [contains, find?_emplace]
  by_cases h : j = k <;> simp [h, contains]

theorem contains_erase (m : OrdMap κ β) (k j : κ) :
    (m.erase k).contains j = (!decide (j = k) && m.contains j) := by
  rw [contains, find?_erase]
  by_cases h : j = k <;> simp [h, contains]

@[simp] theorem contains_modify (m : OrdMap κ β) (k j : κ) (f : β → β) :
    (m.modify k f).contains j = m.contains j := by
  rw [contains, find?_modify]
  by_cases h : j = k <;> simp [h, contains]

@[simp] theorem contains_mapValues {γ : Type} (m : OrdMap κ β) (f : κ → β → γ) (j : κ) :
    (m.mapValues f).contains j = m.contains j := by
  rw [Bool.eq_iff_iff, contains, contains, ← mem_keys_iff, ← mem_keys_iff, keys_mapValues]

theorem eq_empty_iff (m : OrdMap κ β) : m = empty ↔ ∀ k, m.contains k = false := by
  constructor
  · rintro rfl k
    rfl
  · refine fun h => ext_find? fun k => ?_
    rw [find?_empty, ← Option.not_isSome_iff_eq_none]
    exact Bool.eq_false_iff.mp (h k)

theorem isEmpty_iff (m : OrdMap κ β) : m.isEmpty = true ↔ m = empty := by
  obtain ⟨entries, sorted⟩ := m
  cases entries with
  | nil => simp [isEmpty, empty]
  | cons e rest => simp [isEmpty, empty]

theorem nodup_keys (m : OrdMap κ β) : m.keys.Nodup := by
  refine List.Pairwise.map _ ?_ m.sorted
  exact fun _ _ h => ne_of_lt h

theorem mem_keys_iff_contains (m : OrdMap κ β) (k : κ) : k ∈ m.keys ↔ m.contains k = true :=
  mem_keys_iff m k

theorem keys_insert_perm {m : OrdMap κ β} {k : κ} (h : m.contains k = false) (v : β) :
    (m.insert k v).keys.Perm (k :: m.keys) := by
  have hnot : k ∉ m.keys := by
    rw [mem_keys_iff_contains, h]
    exact Bool.false_ne_true
  refine (List.perm_ext_iff_of_nodup (nodup_keys _) (List.nodup_cons.mpr ⟨hnot, nodup_keys m⟩)).mpr ?_
  intro j
  rw [mem_keys_iff_contains, contains_insert, List.mem_cons, mem_keys_iff_contains, Bool.or_eq_true,
    decide_eq_true_iff]

theorem nodup_entries (m : OrdMap κ β) : m.entries.Nodup := List.Nodup.of_map _ m.nodup_keys

/-- The key tells the entry. -/
theorem entry_ext {m : OrdMap κ β} {a b : κ × β} (ha : a ∈ m.entries) (hb : b ∈ m.entries)
    (h : a.1 = b.1) : a = b := by
  have ha' := (find?_some_iff m a.1 a.2).mpr ha
  have hb' := (find?_some_iff m b.1 b.2).mpr hb
  rw [h, hb', Option.some.injEq] at ha'
  exact Prod.ext h ha'.symm

theorem entries_emplace_perm {m : OrdMap κ β} {k : κ} (h : m.contains k = false) (v : β) :
    (m.emplace k v).entries.Perm ((k, v) :: m.entries) := by
  have hfind : m.find? k = none := Option.not_isSome_iff_eq_none.mp (by simpa [contains] using h)
  have hnot : (k, v) ∉ m.entries := by
    rw [← find?_some_iff, hfind]
    exact (Option.some_ne_none v).symm
  refine (List.perm_ext_iff_of_nodup (nodup_entries _)
    (List.nodup_cons.mpr ⟨hnot, nodup_entries m⟩)).mpr ?_
  rintro ⟨j, w⟩
  rw [← find?_some_iff, find?_emplace, hfind, Option.getD_none, List.mem_cons, ← find?_some_iff,
    Prod.mk.injEq]
  by_cases hj : j = k
  · simp [hj, hfind, eq_comm]
  · simp [hj]

/-- Entries under distinct new keys are all there in the end. -/
theorem foldl_emplace_perm {es : List (κ × β)} (m : OrdMap κ β) (hnodup : (es.map Prod.fst).Nodup)
    (hnew : ∀ e ∈ es, m.contains e.1 = false) :
    (es.foldl (fun m e => m.emplace e.1 e.2) m).entries.Perm (es ++ m.entries) := by
  induction es generalizing m with
  | nil => exact .refl _
  | cons e es ih =>
    rw [List.map_cons, List.nodup_cons] at hnodup
    obtain ⟨hhead, htail⟩ := hnodup
    have hnew' : ∀ e' ∈ es, (m.emplace e.1 e.2).contains e'.1 = false := by
      intro e' he'
      have hne : e'.1 ≠ e.1 := fun he => hhead (he ▸ List.mem_map_of_mem he')
      rw [contains_emplace, hnew e' (List.mem_cons_of_mem e he'), decide_eq_false hne]
      rfl
    have hperm := (ih (m.emplace e.1 e.2) htail hnew').trans
      ((entries_emplace_perm (hnew e List.mem_cons_self) e.2).append_left es)
    exact hperm.trans List.perm_middle

/-! ## Maps that are filled entry by entry -/

theorem find?_foldl_insert_new {γ : Type} (f : κ → β → γ) (es : List (κ × β)) (m : OrdMap κ γ) {k : κ}
    (hk : k ∉ es.map Prod.fst) :
    (es.foldl (fun m e => m.insert e.1 (f e.1 e.2)) m).find? k = m.find? k := by
  induction es generalizing m with
  | nil => rfl
  | cons e es ih =>
    rw [List.map_cons, List.mem_cons, not_or] at hk
    rw [List.foldl_cons, ih _ hk.2, find?_insert, if_neg hk.1]

theorem find?_foldl_insert {γ : Type} (f : κ → β → γ) {es : List (κ × β)}
    (hnodup : (es.map Prod.fst).Nodup) (m : OrdMap κ γ) {e : κ × β} (he : e ∈ es) :
    (es.foldl (fun m e => m.insert e.1 (f e.1 e.2)) m).find? e.1 = some (f e.1 e.2) := by
  induction es generalizing m with
  | nil => exact absurd he List.not_mem_nil
  | cons d es ih =>
    obtain ⟨hd, hes⟩ := List.nodup_cons.mp hnodup
    rw [List.foldl_cons]
    rcases List.mem_cons.mp he with rfl | he
    · rw [find?_foldl_insert_new f es _ hd, find?_insert, if_pos rfl]
    · exact ih hes _ he

/-- In whatever order the entries of a map are inserted, they make up the map. -/
theorem foldl_insert_eq {γ : Type} (f : κ → β → γ) {m : OrdMap κ β} {es : List (κ × β)}
    (h : es.Perm m.entries) : es.foldl (fun m e => m.insert e.1 (f e.1 e.2)) empty = m.mapValues f := by
  have hnodup : (es.map Prod.fst).Nodup := (h.map Prod.fst).nodup_iff.mpr m.nodup_keys
  refine ext_find? fun k => ?_
  rw [find?_mapValues]
  by_cases hk : k ∈ es.map Prod.fst
  · obtain ⟨e, he, rfl⟩ := List.mem_map.mp hk
    rw [find?_foldl_insert f hnodup _ he, (find?_some_iff m e.1 e.2).mpr (h.mem_iff.mp he)]
    rfl
  · have hnone : m.find? k = none := by
      rw [find?_none_iff]
      exact fun hmem => hk ((h.map Prod.fst).mem_iff.mpr hmem)
    rw [find?_foldl_insert_new f es _ hk, hnone]
    rfl

theorem eq_of_perm {m n : OrdMap κ β} (h : m.entries.Perm n.entries) : m = n := by
  refine ext_find? fun k => (find?_eq_iff_mem m n k).mpr fun v => h.mem_iff

/-- Filling a map with `emplace` does the same, as no key comes twice. -/
theorem foldl_emplace_eq {γ : Type} (f : κ → β → γ) {m : OrdMap κ β} {es : List (κ × β)}
    (h : es.Perm m.entries) : es.foldl (fun m e => m.emplace e.1 (f e.1 e.2)) empty = m.mapValues f := by
  let g (e : κ × β) : κ × γ := (e.1, f e.1 e.2)
  have hkeys : (es.map g).map Prod.fst = es.map Prod.fst := by
    rw [List.map_map]
    rfl
  have hnodup : ((es.map g).map Prod.fst).Nodup := by
    rw [hkeys]
    exact (h.map Prod.fst).nodup_iff.mpr m.nodup_keys
  have hperm := foldl_emplace_perm empty hnodup fun _ _ => rfl
  rw [List.foldl_map, show (empty : OrdMap κ γ).entries = [] from rfl, List.append_nil] at hperm
  exact eq_of_perm (hperm.trans (h.map g))

theorem mapValues_id (m : OrdMap κ β) : m.mapValues (fun _ v => v) = m := by
  refine ext_find? fun k => ?_
  rw [find?_mapValues]
  cases m.find? k <;> rfl

theorem keys_erase_perm {m : OrdMap κ β} {k : κ} (h : m.contains k = true) :
    m.keys.Perm (k :: (m.erase k).keys) := by
  have hnot : k ∉ (m.erase k).keys := by
    rw [mem_keys_iff_contains, contains_erase]
    simp
  refine (List.perm_ext_iff_of_nodup (nodup_keys m) (List.nodup_cons.mpr ⟨hnot, nodup_keys _⟩)).mpr ?_
  intro j
  rw [List.mem_cons, mem_keys_iff_contains, mem_keys_iff_contains, contains_erase]
  by_cases hj : j = k <;> simp [hj, h]

theorem keys_erase_sublist (m : OrdMap κ β) (k : κ) : (m.erase k).keys.Sublist m.keys :=
  List.filter_sublist.map Prod.fst

theorem count_keys (m : OrdMap κ β) (k : κ) : m.keys.count k = if m.contains k then 1 else 0 := by
  rw [(nodup_keys m).count]
  by_cases h : k ∈ m.keys
  · have hc : m.contains k = true := (mem_keys_iff m k).mp h
    rw [if_pos h, if_pos hc]
  · have hc : ¬m.contains k = true := fun hc => h ((mem_keys_iff m k).mpr hc)
    rw [if_neg h, if_neg hc]

/-! ## Totals -/

theorem entries_erase_perm {m : OrdMap κ β} {k : κ} {v : β} (h : m.find? k = some v) :
    m.entries.Perm ((k, v) :: (m.erase k).entries) := by
  have hnot : (k, v) ∉ (m.erase k).entries := by
    rw [← find?_some_iff, find?_erase, if_pos rfl]
    exact (Option.some_ne_none v).symm
  refine (List.perm_ext_iff_of_nodup (nodup_entries m)
    (List.nodup_cons.mpr ⟨hnot, nodup_entries _⟩)).mpr ?_
  rintro ⟨j, w⟩
  rw [← find?_some_iff, List.mem_cons, ← find?_some_iff, find?_erase, Prod.mk.injEq]
  by_cases hj : j = k
  · simp [hj, h, eq_comm]
  · simp [hj]

/-- The sum of a measure over the values. -/
def total (m : OrdMap κ β) (f : β → ℕ) : ℕ := (m.entries.map fun e => f e.2).sum

@[simp] theorem total_empty (f : β → ℕ) : (empty : OrdMap κ β).total f = 0 := rfl

theorem total_emplace {m : OrdMap κ β} {k : κ} (h : m.contains k = false) (v : β) (f : β → ℕ) :
    (m.emplace k v).total f = f v + m.total f := by
  have hperm := (entries_emplace_perm h v).map fun e : κ × β => f e.2
  rw [total, hperm.sum_eq, List.map_cons, List.sum_cons, total]

theorem total_erase {m : OrdMap κ β} {k : κ} {v : β} (h : m.find? k = some v) (f : β → ℕ) :
    m.total f = f v + (m.erase k).total f := by
  have hperm := (entries_erase_perm h).map fun e : κ × β => f e.2
  rw [total, hperm.sum_eq, List.map_cons, List.sum_cons, total]

theorem total_eq_zero {m : OrdMap κ β} {f : β → ℕ} : m.total f = 0 ↔ ∀ e ∈ m.entries, f e.2 = 0 := by
  rw [total, List.sum_eq_zero_iff, List.forall_mem_map]

end OrdMap
end IpfsLite
