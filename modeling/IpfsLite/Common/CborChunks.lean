import IpfsLite.Common.CborBuffering

/-! # Input in chunks

What `consume` does with a chunk and what follows it is what it does with both at once, for every state and
whether it succeeds or fails. -/
namespace IpfsLite.Common
set_option autoImplicit false

namespace CborBuffering

/-! ## States that are sound -/

theorem tryFeed_append {s t : CborBuffering} {a : Bytes} (h : tryFeed s a = (.ok [], t)) (b : Bytes) :
    tryFeed s (a ++ b) = tryFeed t b := by
  induction a generalizing s with
  | nil =>
    obtain ⟨-, rfl⟩ := Prod.mk.inj h
    rfl
  | cons c a ih =>
    by_cases hdone : s.done = true
    · rw [tryFeed_of_done hdone] at h
      cases h
    · cases hc : s.byte c with
      | error e =>
        rw [tryFeed_error hdone hc] at h
        cases h
      | ok s' =>
        rw [tryFeed_ok hdone hc] at h
        rw [List.cons_append, tryFeed_ok hdone hc]
        exact ih h

theorem feed_of_tryFeed {s t : CborBuffering} {input rest : Bytes} (h : tryFeed s input = (.ok rest, t)) :
    feed s input = .ok (t, rest) := by
  rw [feed_kept, h]
  rfl

theorem tryConsume_append_sound {s t : CborBuffering} (hs : Sound s) {a : Bytes} {n : ℕ}
    (ha : s.tryConsume a = (.ok n, t)) (ht : ¬ t.done = true) (b : Bytes) :
    s.tryConsume (a ++ b) = ((t.tryConsume b).1.map (n + ·), (t.tryConsume b).2) := by
  rw [tryConsume_eq hs] at ha
  cases hfeed : tryFeed s a with
  | mk r u =>
    rw [hfeed, Prod.mk.injEq] at ha
    obtain ⟨hn, rfl⟩ := ha
    cases r with
    | error e => cases hn
    | ok rest =>
      -- a chunk that does not complete the item is consumed as a whole
      obtain ⟨used, rfl, hfinal⟩ := feed_suffix (feed_of_tryFeed hfeed)
      obtain rfl : rest = [] := by_contra fun hne => ht (hfinal hne)
      rw [List.append_nil] at hfeed hn ⊢
      obtain rfl : used.length = n := Except.ok.inj hn
      have hsound := feed_sound hs (feed_of_tryFeed hfeed)
      rw [tryConsume_eq hs, tryConsume_eq hsound, tryFeed_append hfeed]
      cases hrest : tryFeed u b with
      | mk r v =>
        cases r with
        | error e => rfl
        | ok rest =>
          obtain ⟨used', rfl, -⟩ := feed_suffix (feed_of_tryFeed hrest)
          have hlength : (used ++ (used' ++ rest)).length - rest.length =
              used.length + ((used' ++ rest).length - rest.length) := by
            simp only [List.length_append]
            omega
          simp only [Except.map, hlength]

/-! ## Any other state -/

theorem tryConsume_nil (s : CborBuffering) : s.tryConsume [] = (.ok 0, s) := by
  obtain ⟨nested, more, part⟩ := s
  unfold tryConsume
  split_ifs with h
  · obtain ⟨rfl, -⟩ := h
    simp [tryScan, Except.map]
  · rfl

/-- With a partial head and no container nothing is read. -/
theorem tryConsume_stuck (more : ℕ) (head : Head) (input : Bytes) :
    (⟨[], more, some head⟩ : CborBuffering).tryConsume input = (.ok 0, ⟨[], more, some head⟩) := by
  cases input with
  | nil => exact tryConsume_nil _
  | cons b input =>
    rw [tryConsume, if_neg (by simp)]
    simp [tryScan, Except.map]

/-- A partial head of which no byte is missing is complete when there is any input. -/
theorem tryConsume_complete {nested : List ℕ} (hnested : nested ≠ []) (head : Head) {input : Bytes} (h : input ≠ []) :
    (⟨nested, 0, some head⟩ : CborBuffering).tryConsume input = (enter nested head []).1.tryConsume input := by
  rw [tryConsume_eq (enter_sound nested head []), tryConsume, if_neg (by simp)]
  cases input with
  | nil => exact absurd rfl h
  | cons b input =>
    have hnexts : Head.nexts 0 head (b :: input) = (0, head, b :: input) := rfl
    obtain ⟨hlength, hready⟩ := enter_rest nested head (b :: input)
    have hscan := tryScan_eq (enter_sound nested head (b :: input)) hlength fun _ => hready
    simp only [tryScan, if_neg hnested, hnexts, ne_eq, not_true, if_false, hscan, tryFeed_enter nested head (b :: input)]

/-- **Chunks.** When the first chunk is consumed without an error and the item is not complete after it, the
second one is consumed as if the two were one. -/
theorem consume_chunks {s t : CborBuffering} {a : Bytes} {n : ℕ} (ha : s.tryConsume a = (.ok n, t))
    (ht : ¬ t.done = true) (b : Bytes) :
    s.tryConsume (a ++ b) = ((t.tryConsume b).1.map (n + ·), (t.tryConsume b).2) := by
  by_cases hs : Sound s
  · exact tryConsume_append_sound hs ha ht b
  obtain ⟨nested, more, part⟩ := s
  cases part with
  | none => exact absurd ⟨fun h => absurd rfl h⟩ hs
  | some head =>
    by_cases hnested : nested = []
    · subst hnested
      rw [tryConsume_stuck, Prod.mk.injEq] at ha
      obtain ⟨hn, rfl⟩ := ha
      obtain rfl : 0 = n := Except.ok.inj hn
      rw [tryConsume_stuck, tryConsume_stuck]
      rfl
    · obtain rfl : more = 0 := by
        by_contra hmore
        exact hs ⟨fun _ => ⟨hmore, hnested⟩⟩
      by_cases hnil : a = []
      · subst hnil
        rw [tryConsume_nil, Prod.mk.injEq] at ha
        obtain ⟨hn, rfl⟩ := ha
        obtain rfl : 0 = n := Except.ok.inj hn
        rw [List.nil_append]
        cases (⟨nested, 0, some head⟩ : CborBuffering).tryConsume b with
        | mk r u => cases r <;> simp [Except.map]
      · have hboth : a ++ b ≠ [] := fun h => hnil (List.append_eq_nil_iff.mp h).1
        rw [tryConsume_complete hnested head hnil] at ha
        rw [tryConsume_complete hnested head hboth]
        exact tryConsume_append_sound (enter_sound nested head []) ha ht b

/-- The head of the number 0x1234, cut in the middle. -/
theorem number_in_two_chunks : init.reset.tryConsume ([0x19, 0x12] ++ [0x34, 0x05]) =
    (.ok (2 + 1), init) := by
  have hfirst : init.reset.tryConsume [0x19, 0x12] = (.ok 2, ⟨[1], 1, some ⟨.unsigned, 0x12⟩⟩) := by decide +kernel
  have hsecond : (⟨[1], 1, some ⟨.unsigned, 0x12⟩⟩ : CborBuffering).tryConsume [0x34, 0x05] = (.ok 1, init) := by
    decide +kernel
  rw [consume_chunks hfirst (by decide) [0x34, 0x05], hsecond]
  rfl

end CborBuffering
end IpfsLite.Common
