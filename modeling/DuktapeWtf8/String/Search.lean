import DuktapeWtf8.String.Substring

set_option autoImplicit false

/-! # Searching a string

`duk__unicode_wtf8_search_forwards_reference` and `duk__unicode_wtf8_search_backwards_reference`
(`duk_unicode_wtf8.c`, lines 569-654), behind `duk_unicode_wtf8_search_forwards` and
`duk_unicode_wtf8_search_backwards`, try the character offsets from `start_charoff` upwards or
downwards. At each offset where the needle fits they push the substring of its length with
`duk_push_wtf8_substring_hstring` and compare the pushed string with the needle by handle,
relying on string interning: `duk_push_lstring` interns a byte string under
`duk_unicode_wtf8_sanitize_detect` of its bytes, so two handles are equal exactly when those
agree.

The loops are modelled over the try at one offset, `found : Nat → Option Bool` (`none` where
the substring would read outside the data), and their run lemmas hold for any try whose answers
decide a predicate. The try of the source is `searchMatchAt`; on canonical strings it decides
`IsMatchAt`, also where the needle begins or ends between the halves of a 4-byte code point.
With the character lengths and the start offset below `2^31`, as for every string of at most
`DUK_HSTRING_MAX_BYTELEN` bytes, the forward search returns the least match at or after the
start and the backward search the greatest at or before it, or `-1`.
-/

namespace Duk

/-! ## The model -/

/-- The loop of lines 584-600 from `charoff` up to `input_charlen`. -/
def searchForwardsLoop (found : Nat → Option Bool) (inputCharlen charoff : Nat) : Option Int :=
  if charoff ≤ inputCharlen then
    (found charoff).bind fun hit =>
      if hit then some charoff else searchForwardsLoop found inputCharlen (charoff + 1)
  else some (-1)
termination_by inputCharlen + 1 - charoff

/-- The loop of lines 628-644 from `i = charoff` down to `0`. -/
def searchBackwardsLoop (found : Nat → Option Bool) : Nat → Option Int
  | 0 => (found 0).bind fun hit => if hit then some 0 else some (-1)
  | charoff + 1 => (found (charoff + 1)).bind fun hit =>
    if hit then some ((charoff + 1 : Nat) : Int) else searchBackwardsLoop found charoff

/-- Lines 587-598 (and 631-642) at one offset: the end offset `charoff + match_charlen` is a
`duk_uint32_t`; where the needle fits, the substring is pushed and its handle compared with the
needle's, both interned under `duk_unicode_wtf8_sanitize_detect`. -/
def searchMatchAt (hInput : List UInt8) (inputCharlen : Nat) (hMatch : List UInt8)
    (matchCharlen charoff : Nat) : Option Bool :=
  if (charoff + matchCharlen) % 0x100000000 ≤ inputCharlen then
    (pushWtf8SubstringHstring hInput inputCharlen charoff
        ((charoff + matchCharlen) % 0x100000000)).map fun hTmp =>
      decide (unicodeWtf8SanitizeDetect hTmp = unicodeWtf8SanitizeDetect hMatch)
  else some false

/-- `duk_unicode_wtf8_search_forwards`, with `duk_hstring_get_charlen` of both strings. -/
def unicodeWtf8SearchForwards (hInput hMatch : List UInt8) (startCharoff : Nat) : Option Int := do
  let inputCharlen ← unicodeWtf8Charlength hInput
  let matchCharlen ← unicodeWtf8Charlength hMatch
  searchForwardsLoop (searchMatchAt hInput inputCharlen hMatch matchCharlen) inputCharlen
    startCharoff

/-- `duk_unicode_wtf8_search_backwards`: the loop starts from `(duk_int_t) start_charoff`, which
is negative from `2^31` on. -/
def unicodeWtf8SearchBackwards (hInput hMatch : List UInt8) (startCharoff : Nat) :
    Option Int := do
  let inputCharlen ← unicodeWtf8Charlength hInput
  let matchCharlen ← unicodeWtf8Charlength hMatch
  if startCharoff < 0x80000000 then
    searchBackwardsLoop (searchMatchAt hInput inputCharlen hMatch matchCharlen) startCharoff
  else pure (-1)

/-! ## What a search returns -/

/-- The needle's code units occur in the ECMAScript view of the input at offset `i`. -/
def IsMatchAt (hInput hMatch : List UInt8) (i : Nat) : Prop :=
  i + (utf16 hMatch).length ≤ (utf16 hInput).length ∧
    ((utf16 hInput).drop i).take (utf16 hMatch).length = utf16 hMatch

instance (hInput hMatch : List UInt8) (i : Nat) : Decidable (IsMatchAt hInput hMatch i) :=
  inferInstanceAs (Decidable (_ ∧ _))

/-- `r` is the least `i ≥ k` with `P i`, or `-1` when there is none. -/
def IsLeastFrom (P : Nat → Prop) (k : Nat) (r : Int) : Prop :=
  (∃ i : Nat, r = i ∧ k ≤ i ∧ P i ∧ ∀ j, k ≤ j → j < i → ¬ P j) ∨ (r = -1 ∧ ∀ i, k ≤ i → ¬ P i)

/-- `r` is the greatest `i ≤ k` with `P i`, or `-1` when there is none. -/
def IsGreatestUpTo (P : Nat → Prop) (k : Nat) (r : Int) : Prop :=
  (∃ i : Nat, r = i ∧ i ≤ k ∧ P i ∧ ∀ j, i < j → j ≤ k → ¬ P j) ∨ (r = -1 ∧ ∀ i, i ≤ k → ¬ P i)

section Loops

variable {P : Nat → Prop}

theorem isLeastFrom_of_not {k : Nat} {r : Int} (hk : ¬ P k) (h : IsLeastFrom P (k + 1) r) :
    IsLeastFrom P k r := by
  rcases h with ⟨i, rfl, hi, hPi, hmin⟩ | ⟨rfl, hnone⟩
  · exact .inl ⟨i, rfl, by omega, hPi, fun j h1 h2 =>
      if hj : j = k then hj ▸ hk else hmin j (by omega) h2⟩
  · exact .inr ⟨rfl, fun i hi => if h : i = k then h ▸ hk else hnone i (by omega)⟩

theorem isGreatestUpTo_of_not {k : Nat} {r : Int} (hk : ¬ P (k + 1)) (h : IsGreatestUpTo P k r) :
    IsGreatestUpTo P (k + 1) r := by
  rcases h with ⟨i, rfl, hi, hPi, hmax⟩ | ⟨rfl, hnone⟩
  · exact .inl ⟨i, rfl, by omega, hPi, fun j h1 h2 =>
      if hj : j = k + 1 then hj ▸ hk else hmax j h1 (by omega)⟩
  · exact .inr ⟨rfl, fun i hi => if h : i = k + 1 then h ▸ hk else hnone i (by omega)⟩

variable [DecidablePred P] {found : Nat → Option Bool}

/-- **The forward loop returns the least offset from `charoff` on that satisfies `P`, or `-1`,
when `found` decides `P` up to `input_charlen` and `P` holds nowhere beyond.** -/
theorem searchForwardsLoop_spec {inputCharlen : Nat}
    (hfound : ∀ i ≤ inputCharlen, found i = some (decide (P i)))
    (hP : ∀ i, P i → i ≤ inputCharlen) (charoff : Nat) :
    ∃ r, searchForwardsLoop found inputCharlen charoff = some r ∧ IsLeastFrom P charoff r := by
  obtain ⟨d, h⟩ : ∃ d, inputCharlen + 1 - charoff = d := ⟨_, rfl⟩
  induction d generalizing charoff with
  | zero =>
    rw [searchForwardsLoop, if_neg (by omega)]
    exact ⟨_, rfl, .inr ⟨rfl, fun i hi hPi => by have := hP i hPi; omega⟩⟩
  | succ d ih =>
    rw [searchForwardsLoop, if_pos (by omega), hfound charoff (by omega), Option.some_bind]
    by_cases hc : P charoff
    · simp only [decide_eq_true hc, ↓reduceIte]
      exact ⟨_, rfl, .inl ⟨charoff, rfl, le_rfl, hc, fun j h1 h2 => absurd h2 (by omega)⟩⟩
    · simp only [decide_eq_false hc, Bool.false_eq_true, ↓reduceIte]
      obtain ⟨r, hr, hl⟩ := ih (charoff + 1) (by omega)
      exact ⟨r, hr, isLeastFrom_of_not hc hl⟩

/-- **The backward loop returns the greatest offset up to `charoff` that satisfies `P`, or `-1`,
when `found` decides `P` up to `charoff`.** -/
theorem searchBackwardsLoop_spec {bound : Nat} (hfound : ∀ i ≤ bound, found i = some (decide (P i)))
    {charoff : Nat} (hc : charoff ≤ bound) :
    ∃ r, searchBackwardsLoop found charoff = some r ∧ IsGreatestUpTo P charoff r := by
  induction charoff with
  | zero =>
    rw [searchBackwardsLoop, hfound 0 hc, Option.some_bind]
    by_cases h0 : P 0
    · simp only [decide_eq_true h0, ↓reduceIte]
      exact ⟨_, rfl, .inl ⟨0, rfl, le_rfl, h0, fun j h1 h2 => absurd h2 (by omega)⟩⟩
    · simp only [decide_eq_false h0, Bool.false_eq_true, ↓reduceIte]
      exact ⟨_, rfl, .inr ⟨rfl, fun i hi => by rwa [Nat.le_zero.mp hi]⟩⟩
  | succ c ih =>
    rw [searchBackwardsLoop, hfound (c + 1) hc, Option.some_bind]
    by_cases h1 : P (c + 1)
    · simp only [decide_eq_true h1, ↓reduceIte]
      exact ⟨_, rfl, .inl ⟨c + 1, rfl, le_rfl, h1, fun j h1 h2 => absurd h2 (by omega)⟩⟩
    · simp only [decide_eq_false h1, Bool.false_eq_true, ↓reduceIte]
      obtain ⟨r, hr, hg⟩ := ih (by omega)
      exact ⟨r, hr, isGreatestUpTo_of_not h1 hg⟩

end Loops

/-! ## The try at one offset -/

/-- On canonical strings, and where `charoff + match_charlen` does not wrap, the try at `i`
decides whether the needle occurs at `i`: the pushed substring is canonical, so it is interned
as itself, and two canonical strings are one handle exactly when their views agree. -/
theorem searchMatchAt_eq {hInput hMatch : List UInt8} (hh : Canonical hInput)
    (hm : Canonical hMatch) {i : Nat} (hi : i + (utf16 hMatch).length < 0x100000000) :
    searchMatchAt hInput (utf16 hInput).length hMatch (utf16 hMatch).length i =
      some (decide (IsMatchAt hInput hMatch i)) := by
  rw [searchMatchAt, Nat.mod_eq_of_lt hi]
  by_cases hfit : i + (utf16 hMatch).length ≤ (utf16 hInput).length
  · obtain ⟨-, out, hout, hco, hu⟩ := pushWtf8Substring_spec hh
      (unicodeWtf8Charlength_of_valid hh.1).1 (Nat.le_add_right _ _) hfit
    rw [if_pos hfit, hout, Option.map_some', sanitizeDetect_of_canonical hco,
      sanitizeDetect_of_canonical hm]
    refine congrArg some (decide_eq_decide.mpr ?_)
    rw [canonical_eq_iff_utf16 hco hm, hu, Nat.add_sub_cancel_left]
    exact ⟨fun h => ⟨hfit, h⟩, And.right⟩
  · rw [if_neg hfit]
    exact congrArg some (decide_eq_false fun h => hfit h.1).symm

/-- **On canonical strings whose character lengths are below `2^31`, the forward search from
`k` returns the least offset `i ≥ k` where the needle occurs in the input's ECMAScript view, and
the backward search from `k < 2^31` the greatest `i ≤ k`; each returns `-1` when there is none.**
-/
theorem unicodeWtf8Search_least_greatest {hInput hMatch : List UInt8} (hh : Canonical hInput)
    (hm : Canonical hMatch) (hlen : (utf16 hInput).length < 0x80000000)
    (hmlen : (utf16 hMatch).length < 0x80000000) {k : Nat} (hk : k < 0x80000000) :
    (∃ r, unicodeWtf8SearchForwards hInput hMatch k = some r ∧
        IsLeastFrom (IsMatchAt hInput hMatch) k r) ∧
      ∃ r, unicodeWtf8SearchBackwards hInput hMatch k = some r ∧
        IsGreatestUpTo (IsMatchAt hInput hMatch) k r := by
  have hfound (b : Nat) (hb : b < 0x80000000) : ∀ i ≤ b,
      searchMatchAt hInput (utf16 hInput).length hMatch (utf16 hMatch).length i =
        some (decide (IsMatchAt hInput hMatch i)) := fun i hi => searchMatchAt_eq hh hm (by omega)
  simp only [unicodeWtf8SearchForwards, unicodeWtf8SearchBackwards,
    (unicodeWtf8Charlength_of_valid hh.1).1, (unicodeWtf8Charlength_of_valid hm.1).1,
    Option.bind_eq_bind, Option.some_bind, if_pos hk]
  exact ⟨searchForwardsLoop_spec (hfound _ hlen) (fun i h => by have := h.1; omega) k,
    searchBackwardsLoop_spec (hfound k hk) le_rfl⟩

/-- In "A😀" the lone low surrogate of U+1F600 is found at offset 2, from either side. -/
theorem unicodeWtf8Search_low_half :
    unicodeWtf8SearchForwards (encode [0x41, 0x1F600]) (encode [0xDE00]) 0 = some 2 ∧
      unicodeWtf8SearchBackwards (encode [0x41, 0x1F600]) (encode [0xDE00]) 3 = some 2 := by
  have hv : AllCodepoints [0x41, 0x1F600] := by simp [AllCodepoints]
  have hv' : AllCodepoints [0xDE00] := by simp [AllCodepoints]
  have hc : Canonical (encode [0x41, 0x1F600]) :=
    (canonical_iff _).mpr ⟨_, hv, by simp [NoSurrogatePair, IsHighSurrogate], rfl⟩
  have hc' : Canonical (encode [0xDE00]) := (canonical_iff _).mpr ⟨_, hv', by simp [NoSurrogatePair], rfl⟩
  have hP (i : Nat) : IsMatchAt (encode [0x41, 0x1F600]) (encode [0xDE00]) i ↔ i = 2 := by
    rw [IsMatchAt, utf16_encode hv, utf16_encode hv',
      show toUtf16 [0x41, 0x1F600] = [0x41, 0xD83D, 0xDE00] by decide,
      show toUtf16 [0xDE00] = [0xDE00] by decide]
    refine ⟨fun ⟨hb, he⟩ => ?_, fun h => by subst h; decide⟩
    rcases i with _ | _ | _ | i
    · exact absurd he (by decide)
    · exact absurd he (by decide)
    · rfl
    · simp only [List.length_cons, List.length_nil] at hb; omega
  have hl : (utf16 (encode [0x41, 0x1F600])).length < 0x80000000 := by rw [utf16_encode hv]; decide
  have hl' : (utf16 (encode [0xDE00])).length < 0x80000000 := by rw [utf16_encode hv']; decide
  obtain ⟨⟨r, hr, hf⟩, -⟩ := unicodeWtf8Search_least_greatest hc hc' hl hl' (show 0 < 0x80000000 by decide)
  obtain ⟨-, ⟨r', hr', hb⟩⟩ := unicodeWtf8Search_least_greatest hc hc' hl hl' (show 3 < 0x80000000 by decide)
  refine ⟨hr.trans ?_, hr'.trans ?_⟩
  · rcases hf with ⟨i, rfl, -, hi, -⟩ | ⟨-, hnone⟩
    · rw [(hP i).mp hi]; rfl
    · exact absurd ((hP 2).mpr rfl) (hnone 2 (by decide))
  · rcases hb with ⟨i, rfl, -, hi, -⟩ | ⟨-, hnone⟩
    · rw [(hP i).mp hi]; rfl
    · exact absurd ((hP 2).mpr rfl) (hnone 2 (by decide))

end Duk
