import DuktapeWtf8.Sanitize.Reference

set_option autoImplicit false

/-! # Canonical strings

A byte string is *canonical* when `duk_unicode_is_valid_wtf8` accepts it and it contains no
3-byte high surrogate (ED A0-AF 80-BF) directly followed by a 3-byte low surrogate
(ED B0-BF 80-BF). The sanitizer combines every such pair into one 4-byte sequence (lines
160-181 of `duk_unicode_wtf8.c`), so this is the form in which strings are interned.

On a valid string a pair in the bytes is a pair of code points, since `0xED` is never a
continuation byte: the canonical strings are the encodings of the code point lists without
surrogate pairs (`canonical_iff`). From this and the loop lemmas of the sanitizer:

* the sanitizer writes a canonical string for every input;
* its fixed points are the canonical strings, so interning is idempotent;
* two valid strings sanitize to the same bytes exactly when their ECMAScript views agree.
-/

namespace Duk

/-! ## Surrogate pairs in the bytes -/

/-- The bytes begin with a 3-byte high surrogate directly followed by a 3-byte low surrogate. -/
def StartsSurrogatePair : List UInt8 → Prop
  | b0 :: b1 :: b2 :: r => b0.toNat = 0xed ∧ 0xa0 ≤ b1.toNat ∧ b1.toNat ≤ 0xaf ∧
      0x80 ≤ b2.toNat ∧ b2.toNat ≤ 0xbf ∧ LowSurrogateAhead r
  | _ => False

instance : (b : List UInt8) → Decidable (StartsSurrogatePair b)
  | _ :: _ :: _ :: _ => inferInstanceAs (Decidable (_ ∧ _))
  | [] | [_] | [_, _] => isFalse id

/-- At some offset the bytes contain a 3-byte high surrogate directly followed by a 3-byte low
surrogate. -/
def ContainsSurrogatePair (b : List UInt8) : Prop := ∃ i, StartsSurrogatePair (b.drop i)

/-- The search for a surrogate pair, offset by offset. -/
def hasSurrogatePair : List UInt8 → Bool
  | [] => false
  | t :: p => decide (StartsSurrogatePair (t :: p)) || hasSurrogatePair p

theorem hasSurrogatePair_iff (b : List UInt8) :
    hasSurrogatePair b = true ↔ ContainsSurrogatePair b := by
  induction b with
  | nil => exact ⟨nofun, fun ⟨i, h⟩ => by rw [List.drop_nil] at h; exact h.elim⟩
  | cons t p ih =>
    rw [hasSurrogatePair, Bool.or_eq_true, decide_eq_true_iff, ih]
    constructor
    · rintro (h | ⟨i, h⟩)
      exacts [⟨0, h⟩, ⟨i + 1, h⟩]
    · rintro ⟨_ | i, h⟩
      exacts [.inl h, .inr ⟨i, h⟩]

instance (b : List UInt8) : Decidable (ContainsSurrogatePair b) :=
  decidable_of_iff _ (hasSurrogatePair_iff b)

/-- Valid WTF-8 with no 3-byte high surrogate directly followed by a 3-byte low surrogate. -/
def Canonical (b : List UInt8) : Prop := IsValidWtf8 b ∧ ¬ ContainsSurrogatePair b

instance (b : List UInt8) : Decidable (Canonical b) := inferInstanceAs (Decidable (_ ∧ _))

theorem startsSurrogatePair_head {b0 : UInt8} {rest : List UInt8}
    (h : StartsSurrogatePair (b0 :: rest)) : b0.toNat = 0xed := by
  match rest, h with
  | _ :: _ :: _, h => exact h.1

/-- Continuation bytes start no pair. -/
theorem hasSurrogatePair_cont_append {cont : List UInt8}
    (hc : ∀ b ∈ cont, 0x80 ≤ b.toNat ∧ b.toNat ≤ 0xbf) (r : List UInt8) :
    hasSurrogatePair (cont ++ r) = hasSurrogatePair r := by
  induction cont with
  | nil => rfl
  | cons b cont ih =>
    have hb := hc b (List.mem_cons_self b cont)
    rw [List.cons_append, hasSurrogatePair, ih (fun x hx => hc x (List.mem_cons_of_mem b hx)),
      decide_eq_false (fun h => absurd (startsSurrogatePair_head h) (by omega)), Bool.false_or]

/-- A pair begins at the encoding of a code point exactly when it is a high surrogate and the
next code point a low one. -/
theorem startsSurrogatePair_encodeCp_append {c : Nat} (hc : c ≤ 0x10FFFF) {cs : List Nat}
    (hv : AllCodepoints cs) :
    StartsSurrogatePair (encodeCp c ++ encode cs) ↔
      IsHighSurrogate c ∧ ∃ l ∈ cs.head?, IsLowSurrogate l := by
  unfold IsHighSurrogate
  by_cases h1 : c < 0x80
  · obtain ⟨t, he, ht⟩ := encodeCp_one h1
    rw [he, List.singleton_append]
    exact ⟨fun h => absurd (startsSurrogatePair_head h) (by omega), fun h => by omega⟩
  by_cases h2 : c < 0x800
  · obtain ⟨t, c1, he, ht, -⟩ := encodeCp_two (by omega) h2
    rw [he, List.cons_append]
    exact ⟨fun h => absurd (startsSurrogatePair_head h) (by omega), fun h => by omega⟩
  by_cases h3 : c < 0x10000
  · obtain ⟨t, c1, c2, he, ht, hc1, hc2⟩ := encodeCp_three (by omega) h3
    rw [he, List.cons_append, List.cons_append, List.cons_append, List.nil_append,
      StartsSurrogatePair, ht, hc1, hc2, lowSurrogateAhead_encode hv]
    constructor
    · rintro ⟨h0, h1, h2, -, -, hl⟩
      exact ⟨by omega, hl⟩
    · rintro ⟨hh, hl⟩
      exact ⟨by omega, by omega, by omega, by omega, by omega, hl⟩
  · obtain ⟨t, c1, c2, c3, he, ht, -⟩ := encodeCp_four (by omega) hc
    rw [he, List.cons_append]
    exact ⟨fun h => absurd (startsSurrogatePair_head h) (by omega), fun h => by omega⟩

/-- On a valid string the pairs in the bytes are the pairs of code points. -/
theorem containsSurrogatePair_encode {cps : List Nat} (hv : AllCodepoints cps) :
    ¬ ContainsSurrogatePair (encode cps) ↔ NoSurrogatePair cps := by
  rw [← hasSurrogatePair_iff, Bool.not_eq_true]
  induction cps with
  | nil => exact ⟨fun _ => List.chain'_nil, fun _ => rfl⟩
  | cons c cs ih =>
    have hc := hv c (List.mem_cons_self c cs)
    have hcs : AllCodepoints cs := fun x hx => hv x (List.mem_cons_of_mem c hx)
    obtain ⟨t, rest, he, -, hr⟩ := encodeCp_shape hc
    have hstart := startsSurrogatePair_encodeCp_append hc hcs
    rw [he, List.cons_append] at hstart
    rw [encode_cons, he, List.cons_append, hasSurrogatePair, hasSurrogatePair_cont_append hr,
      Bool.or_eq_false_iff, decide_eq_false_iff_not, hstart, ih hcs, NoSurrogatePair,
      NoSurrogatePair, List.chain'_cons']
    exact and_congr_left fun _ =>
      ⟨fun h y hy hp => h ⟨hp.1, y, hy, hp.2⟩, fun h ⟨hh, y, hy, hl⟩ => h y hy ⟨hh, hl⟩⟩

/-- **The canonical strings are the encodings of the code point lists without surrogate
pairs.** -/
theorem canonical_iff (b : List UInt8) :
    Canonical b ↔ ∃ cps, AllCodepoints cps ∧ NoSurrogatePair cps ∧ b = encode cps := by
  constructor
  · rintro ⟨hb, hn⟩
    obtain ⟨hv, he⟩ := encode_decode_of_valid hb
    rw [← he, containsSurrogatePair_encode hv] at hn
    exact ⟨decode b, hv, hn, he.symm⟩
  · rintro ⟨cps, hv, hn, rfl⟩
    exact ⟨unicodeIsValidWtf8_encode hv, (containsSurrogatePair_encode hv).mpr hn⟩

/-- A valid string begins with an ASCII byte or a lead byte 0xC2..0xF4, never with one of the
bytes that mark a symbol. -/
theorem not_isSymbolMarker_head {b : List UInt8} (hb : IsValidWtf8 b) :
    ∀ t ∈ b.head?, ¬ IsSymbolMarker t := by
  obtain ⟨hv, he⟩ := encode_decode_of_valid hb
  rw [← he]
  intro t ht
  cases hd : decode b with
  | nil => rw [hd, encode_nil] at ht; exact absurd ht (by simp)
  | cons c cs =>
    obtain ⟨t', rest, hc, hs, -⟩ := encodeCp_shape (hv c (by simp [hd]))
    rw [hd, encode_cons, hc, List.cons_append, List.head?_cons, Option.mem_def,
      Option.some.injEq] at ht
    subst ht
    unfold IsSymbolMarker
    rintro (rfl | rfl | rfl | rfl) <;> revert hs <;> decide

theorem detectSymbol_of_valid {b : List UInt8} (hb : IsValidWtf8 b) : detectSymbol b = false := by
  cases b with
  | nil => rfl
  | cons t p =>
    rw [detectSymbol]
    split
    · rfl
    · exact decide_eq_false (not_isSymbolMarker_head hb t rfl)

/-! ## The sanitizer -/

/-- Whatever its input, the sanitizer writes a canonical string. -/
theorem canonical_sanitizeString (b : List UInt8) : Canonical (unicodeWtf8SanitizeString b) :=
  (canonical_iff _).mpr ⟨_, sanitizeCodepoints_allCodepoints b,
    sanitizeCodepoints_noSurrogatePair b, sanitizeString_eq_encode b⟩

/-- On valid input the sanitizer coalesces the surrogate pairs of the code points it reads. -/
theorem sanitizeString_of_valid {b : List UInt8} (hb : IsValidWtf8 b) :
    unicodeWtf8SanitizeString b = encode (coalesce (decode b)) := by
  obtain ⟨hv, he⟩ := encode_decode_of_valid hb
  conv_lhs => rw [← he]
  rw [sanitizeString_eq_encode, sanitizeCodepoints_encode hv]

/-- Sanitizing a valid string keeps its ECMAScript view. -/
theorem utf16_sanitizeString_of_valid {b : List UInt8} (hb : IsValidWtf8 b) :
    utf16 (unicodeWtf8SanitizeString b) = utf16 b := by
  rw [sanitizeString_of_valid hb,
    utf16_encode (allCodepoints_coalesce (encode_decode_of_valid hb).1), toUtf16_coalesce]
  rfl

/-- A canonical string is its own sanitization. -/
theorem sanitizeString_of_canonical {b : List UInt8} (hb : Canonical b) :
    unicodeWtf8SanitizeString b = b := by
  obtain ⟨cps, hv, hn, rfl⟩ := (canonical_iff b).mp hb
  rw [sanitizeString_eq_encode, sanitizeCodepoints_encode hv, coalesce_of_noSurrogatePair hn]

/-- Interning an interned string does not change it. -/
theorem sanitizeDetect_sanitizeDetect (b : List UInt8) :
    unicodeWtf8SanitizeDetect (unicodeWtf8SanitizeDetect b) = unicodeWtf8SanitizeDetect b := by
  unfold unicodeWtf8SanitizeDetect
  by_cases hs : detectSymbol b
  · simp only [if_pos hs, unicodeWtf8SanitizeSymbol]
  · have hc := canonical_sanitizeString b
    simp only [if_neg hs, detectSymbol_of_valid hc.1, Bool.false_eq_true, if_false,
      sanitizeString_of_canonical hc]

/-- A canonical string is interned as itself. -/
theorem sanitizeDetect_of_canonical {b : List UInt8} (hb : Canonical b) :
    unicodeWtf8SanitizeDetect b = b := by
  rw [unicodeWtf8SanitizeDetect, detectSymbol_of_valid hb.1, if_neg Bool.false_ne_true,
    sanitizeString_of_canonical hb]

/-- Two canonical strings are equal exactly when their ECMAScript views are. -/
theorem canonical_eq_iff_utf16 {a b : List UInt8} (ha : Canonical a) (hb : Canonical b) :
    a = b ↔ utf16 a = utf16 b := by
  obtain ⟨as, hva, hna, rfl⟩ := (canonical_iff a).mp ha
  obtain ⟨bs, hvb, hnb, rfl⟩ := (canonical_iff b).mp hb
  rw [utf16_encode hva, utf16_encode hvb]
  refine ⟨fun h => by rw [encode_inj hva hvb h], fun h => congrArg encode ?_⟩
  rw [← coalesce_of_noSurrogatePair hna, ← coalesce_toUtf16 hva, h, coalesce_toUtf16 hvb,
    coalesce_of_noSurrogatePair hnb]

/-- **Two valid strings sanitize to the same bytes exactly when their ECMAScript views agree,
and sanitizing keeps the view.** -/
theorem sanitizeString_eq_iff_utf16 {a b : List UInt8} (ha : unicodeIsValidWtf8 a = some true)
    (hb : unicodeIsValidWtf8 b = some true) :
    (unicodeWtf8SanitizeString a = unicodeWtf8SanitizeString b ↔ utf16 a = utf16 b) ∧
      utf16 (unicodeWtf8SanitizeString b) = utf16 b := by
  have va := (encode_decode_of_valid ha).1
  have vb := (encode_decode_of_valid hb).1
  rw [sanitizeString_of_valid ha, sanitizeString_of_valid hb, utf16, utf16,
    utf16_encode (allCodepoints_coalesce vb), toUtf16_coalesce]
  refine ⟨⟨fun h => ?_, fun h => ?_⟩, rfl⟩
  · have hc := encode_inj (allCodepoints_coalesce va) (allCodepoints_coalesce vb) h
    rw [← toUtf16_coalesce, hc, toUtf16_coalesce]
  · rw [← coalesce_toUtf16 va, h, coalesce_toUtf16 vb]

/-- The two halves of U+1F600 and its 4-byte form sanitize to the same bytes. -/
theorem sanitizeString_eq_iff_utf16_emoji :
    unicodeIsValidWtf8 (encode [0xD83D, 0xDE00]) = some true ∧
      unicodeIsValidWtf8 (encode [0x1F600]) = some true ∧
      ((unicodeWtf8SanitizeString (encode [0xD83D, 0xDE00]) =
          unicodeWtf8SanitizeString (encode [0x1F600]) ↔
        utf16 (encode [0xD83D, 0xDE00]) = utf16 (encode [0x1F600])) ∧
      utf16 (unicodeWtf8SanitizeString (encode [0x1F600])) = utf16 (encode [0x1F600])) :=
  have ha := unicodeIsValidWtf8_encode (show AllCodepoints [0xD83D, 0xDE00] by simp [AllCodepoints])
  have hb := unicodeIsValidWtf8_encode (show AllCodepoints [0x1F600] by simp [AllCodepoints])
  ⟨ha, hb, sanitizeString_eq_iff_utf16 ha hb⟩

end Duk
