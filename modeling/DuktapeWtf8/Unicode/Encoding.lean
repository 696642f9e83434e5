import Mathlib.Data.List.Chain
import Mathlib.Algebra.Order.Ring.Nat

set_option autoImplicit false

/-! # Code points, surrogates and the shortest-form encoder

The string core stores a string as WTF-8: UTF-8 extended so that a surrogate code point
U+D800..U+DFFF may be encoded on its own. An ECMAScript program sees the same string as a
sequence of UTF-16 code units, in which a code point above U+FFFF is a pair of surrogates.

This file fixes the vocabulary the development is stated in. Code points and code units are
natural numbers, bytes are `UInt8`. `emitCodepoint` is the 2-, 3- and 4-byte emission of the
sanitizer (`duk_unicode_wtf8.c`, lines 186-201); with the ASCII copy of lines 104-110 it gives
`encodeCp`, the shortest-form encoder, and `encode` writes a list of code points. `toUtf16` is
the ECMAScript view of a list of code points, and `coalesce` pairs adjacent high and low
surrogates, which is what the sanitizer does to a valid string.
-/

namespace Duk

/-! ## Bytes and bit operations

The source computes with shifts and masks. These lemmas turn them into division and
remainder by constants, where `omega` can use them. -/

@[simp] theorem uint8_toNat_ofNat (n : Nat) : (UInt8.ofNat n).toNat = n % 256 := rfl

theorem uint8_toNat_lt (t : UInt8) : t.toNat < 256 := t.toNat_lt_size

theorem uint8_ext {a b : UInt8} (h : a.toNat = b.toNat) : a = b := UInt8.toNat.inj h

@[simp] theorem uint8_ofNat_toNat (t : UInt8) : UInt8.ofNat t.toNat = t :=
  uint8_ext (by have := uint8_toNat_lt t; simp; omega)

@[simp] theorem land_0x3f (n : Nat) : n &&& 0x3f = n % 64 := Nat.and_pow_two_sub_one_eq_mod n 6
@[simp] theorem land_0x1f (n : Nat) : n &&& 0x1f = n % 32 := Nat.and_pow_two_sub_one_eq_mod n 5
@[simp] theorem land_0x0f (n : Nat) : n &&& 0x0f = n % 16 := Nat.and_pow_two_sub_one_eq_mod n 4
@[simp] theorem land_0x07 (n : Nat) : n &&& 0x07 = n % 8 := Nat.and_pow_two_sub_one_eq_mod n 3
@[simp] theorem land_0x3ff (n : Nat) : n &&& 0x3ff = n % 1024 :=
  Nat.and_pow_two_sub_one_eq_mod n 10

@[simp] theorem shiftRight_6 (m : Nat) : m >>> 6 = m / 64 := Nat.shiftRight_eq_div_pow m 6
@[simp] theorem shiftRight_12 (m : Nat) : m >>> 12 = m / 4096 := Nat.shiftRight_eq_div_pow m 12
@[simp] theorem shiftRight_18 (m : Nat) : m >>> 18 = m / 262144 := Nat.shiftRight_eq_div_pow m 18
@[simp] theorem shiftLeft_6 (m : Nat) : m <<< 6 = m * 64 := Nat.shiftLeft_eq m 6
@[simp] theorem shiftLeft_10 (m : Nat) : m <<< 10 = m * 1024 := Nat.shiftLeft_eq m 10
@[simp] theorem shiftLeft_12 (m : Nat) : m <<< 12 = m * 4096 := Nat.shiftLeft_eq m 12
@[simp] theorem shiftLeft_18 (m : Nat) : m <<< 18 = m * 262144 := Nat.shiftLeft_eq m 18
@[simp] theorem shiftRight_10 (m : Nat) : m >>> 10 = m / 1024 := Nat.shiftRight_eq_div_pow m 10

/-! ## Surrogates and the UTF-16 view -/

/-- A high (leading) surrogate, U+D800..U+DBFF. -/
def IsHighSurrogate (c : Nat) : Prop := 0xD800 ≤ c ∧ c ≤ 0xDBFF

/-- A low (trailing) surrogate, U+DC00..U+DFFF. -/
def IsLowSurrogate (c : Nat) : Prop := 0xDC00 ≤ c ∧ c ≤ 0xDFFF

instance (c : Nat) : Decidable (IsHighSurrogate c) := inferInstanceAs (Decidable (_ ∧ _))
instance (c : Nat) : Decidable (IsLowSurrogate c) := inferInstanceAs (Decidable (_ ∧ _))

/-- The high surrogate of a supplementary code point. -/
def highSurrogate (c : Nat) : Nat := 0xD800 + (c - 0x10000) / 0x400

/-- The low surrogate of a supplementary code point. -/
def lowSurrogate (c : Nat) : Nat := 0xDC00 + (c - 0x10000) % 0x400

/-- The supplementary code point a high and a low surrogate stand for. -/
def combineSurrogates (hi lo : Nat) : Nat := 0x10000 + (hi - 0xD800) * 0x400 + (lo - 0xDC00)

/-- The UTF-16 code units of one code point: itself below U+10000, its surrogate pair above. -/
def codeUnits (c : Nat) : List Nat :=
  if c < 0x10000 then [c] else [highSurrogate c, lowSurrogate c]

/-- The ECMAScript view of a list of code points: a non-BMP code point is two characters. -/
def toUtf16 (cps : List Nat) : List Nat := cps.flatMap codeUnits

/-- Every element is a code point of the generalized view, at most U+10FFFF. -/
def AllCodepoints (cps : List Nat) : Prop := ∀ c ∈ cps, c ≤ 0x10FFFF

/-- No high surrogate is directly followed by a low surrogate. -/
def NoSurrogatePair (cps : List Nat) : Prop :=
  cps.Chain' (fun a b => ¬ (IsHighSurrogate a ∧ IsLowSurrogate b))

/-- Replace every high surrogate directly followed by a low surrogate, from the left, by the
code point of the pair. -/
def coalesce : List Nat → List Nat
  | [] => []
  | [c] => [c]
  | c :: d :: cs =>
    if IsHighSurrogate c ∧ IsLowSurrogate d then combineSurrogates c d :: coalesce cs
    else c :: coalesce (d :: cs)

theorem highSurrogate_isHigh {c : Nat} (hc : c ≤ 0x10FFFF) : IsHighSurrogate (highSurrogate c) := by
  unfold IsHighSurrogate highSurrogate; omega

theorem lowSurrogate_isLow (c : Nat) : IsLowSurrogate (lowSurrogate c) := by
  unfold IsLowSurrogate lowSurrogate; omega

theorem combineSurrogates_split {c : Nat} (h1 : 0x10000 ≤ c) (h2 : c ≤ 0x10FFFF) :
    combineSurrogates (highSurrogate c) (lowSurrogate c) = c := by
  unfold combineSurrogates highSurrogate lowSurrogate; omega

theorem combineSurrogates_bounds {h l : Nat} (hh : IsHighSurrogate h) (hl : IsLowSurrogate l) :
    0x10000 ≤ combineSurrogates h l ∧ combineSurrogates h l ≤ 0x10FFFF := by
  unfold IsHighSurrogate IsLowSurrogate at *; unfold combineSurrogates; omega

theorem codeUnits_combineSurrogates {h l : Nat} (hh : IsHighSurrogate h) (hl : IsLowSurrogate l) :
    codeUnits (combineSurrogates h l) = [h, l] := by
  unfold IsHighSurrogate IsLowSurrogate at *
  simp only [codeUnits, combineSurrogates, highSurrogate, lowSurrogate]
  rw [if_neg (by omega)]
  simp only [List.cons.injEq, and_true]
  omega

theorem codeUnits_of_lt {c : Nat} (h : c < 0x10000) : codeUnits c = [c] := if_pos h

/-- A code point has one code unit below U+10000 and two from there on. -/
theorem codeUnits_length (c : Nat) :
    (codeUnits c).length = if c < 0x10000 then 1 else 2 := by
  unfold codeUnits; split <;> rfl

@[simp] theorem toUtf16_nil : toUtf16 [] = [] := rfl

@[simp] theorem toUtf16_cons (c : Nat) (cs : List Nat) :
    toUtf16 (c :: cs) = codeUnits c ++ toUtf16 cs := List.flatMap_cons c cs codeUnits

@[simp] theorem toUtf16_append (as bs : List Nat) :
    toUtf16 (as ++ bs) = toUtf16 as ++ toUtf16 bs := List.flatMap_append as bs codeUnits

/-- A surrogate, paired or not, is one code unit of its own. -/
theorem codeUnits_of_surrogate {c : Nat} (h : IsHighSurrogate c ∨ IsLowSurrogate c) :
    codeUnits c = [c] := by
  unfold IsHighSurrogate IsLowSurrogate at h; exact codeUnits_of_lt (by omega)

/-! ## Coalescing surrogate pairs -/

theorem coalesce_cons_of_not_pair {c : Nat} {l : List Nat}
    (h : ∀ d ∈ l.head?, ¬ (IsHighSurrogate c ∧ IsLowSurrogate d)) :
    coalesce (c :: l) = c :: coalesce l := by
  cases l with
  | nil => rfl
  | cons d ds => exact if_neg (h d rfl)

/-- Coalescing does not change the ECMAScript view. -/
theorem toUtf16_coalesce (cps : List Nat) : toUtf16 (coalesce cps) = toUtf16 cps := by
  induction cps using coalesce.induct with
  | case1 => rfl
  | case2 c => rfl
  | case3 c d cs h ih =>
    rw [coalesce, if_pos h, toUtf16_cons, ih, codeUnits_combineSurrogates h.1 h.2,
      toUtf16_cons, toUtf16_cons, codeUnits_of_surrogate (.inl h.1),
      codeUnits_of_surrogate (.inr h.2)]
    rfl
  | case4 c d cs h ih => rw [coalesce, if_neg h, toUtf16_cons, ih]; rfl

/-- The head of the view of a non-empty list is a low surrogate only if the first code point
is one. -/
theorem isLow_head_toUtf16 {d : Nat} {ds : List Nat} (hd : d ≤ 0x10FFFF) {x : Nat}
    (hx : x ∈ (toUtf16 (d :: ds)).head?) (hl : IsLowSurrogate x) : IsLowSurrogate d := by
  by_cases h : d < 0x10000
  · simp_all [codeUnits_of_lt h]
  · simp only [toUtf16_cons, codeUnits, if_neg h, List.cons_append, List.head?_cons,
      Option.mem_def, Option.some.injEq] at hx
    subst hx
    exact absurd hl (by unfold IsLowSurrogate; unfold highSurrogate; omega)

/-- Pairing the code units of the view gives back the coalesced code points: so two lists
with the same view coalesce to the same list. -/
theorem coalesce_toUtf16 {cps : List Nat} (hv : AllCodepoints cps) :
    coalesce (toUtf16 cps) = coalesce cps := by
  induction cps using coalesce.induct with
  | case1 => rfl
  | case2 c =>
    by_cases h : c < 0x10000
    · simp [codeUnits_of_lt h]
    · have hc := hv c (by simp)
      simp only [toUtf16_cons, codeUnits, if_neg h, toUtf16_nil, List.cons_append,
        List.nil_append, List.append_nil, coalesce,
        if_pos (And.intro (highSurrogate_isHigh hc) (lowSurrogate_isLow c)),
        combineSurrogates_split (by omega) hc]
  | case3 c d cs h ih =>
    rw [toUtf16_cons, toUtf16_cons, codeUnits_of_surrogate (.inl h.1),
      codeUnits_of_surrogate (.inr h.2), coalesce, List.singleton_append,
      List.singleton_append, coalesce, if_pos h, if_pos h,
      ih (fun x hx => hv x (by simp [hx]))]
  | case4 c d cs h ih =>
    have hc := hv c (by simp)
    rw [coalesce, if_neg h, ← ih (fun x hx => hv x (List.mem_cons_of_mem c hx)), toUtf16_cons]
    by_cases hlt : c < 0x10000
    · rw [codeUnits_of_lt hlt, List.singleton_append]
      exact coalesce_cons_of_not_pair fun x hx hp =>
        h ⟨hp.1, isLow_head_toUtf16 (hv d (by simp)) hx hp.2⟩
    · simp only [codeUnits, if_neg hlt, List.cons_append, List.nil_append, coalesce,
        if_pos (And.intro (highSurrogate_isHigh hc) (lowSurrogate_isLow c)),
        combineSurrogates_split (by omega) hc]

/-- A list without surrogate pairs is its own coalescing. -/
theorem coalesce_of_noSurrogatePair {cps : List Nat} (h : NoSurrogatePair cps) :
    coalesce cps = cps := by
  induction cps using coalesce.induct with
  | case1 => rfl
  | case2 c => rfl
  | case3 c d cs hp _ => exact absurd hp (List.chain'_cons.mp h).1
  | case4 c d cs _ ih => rw [coalesce, if_neg ‹_›, ih (List.chain'_cons.mp h).2]

theorem allCodepoints_coalesce {cps : List Nat} (hv : AllCodepoints cps) :
    AllCodepoints (coalesce cps) := by
  induction cps using coalesce.induct with
  | case1 => exact hv
  | case2 c => exact hv
  | case3 c d cs h ih =>
    rw [coalesce, if_pos h]
    intro x hx
    rcases List.mem_cons.mp hx with hx | hx
    · exact hx ▸ (combineSurrogates_bounds h.1 h.2).2
    · exact ih (fun y hy => hv y (by simp [hy])) x hx
  | case4 c d cs h ih =>
    rw [coalesce, if_neg h]
    intro x hx
    rcases List.mem_cons.mp hx with hx | hx
    · exact hx ▸ hv c (by simp)
    · exact ih (fun y hy => hv y (List.mem_cons_of_mem c hy)) x hx

/-- A code point appended at the end is joined to the one before it only if it is a low
surrogate. -/
theorem coalesce_append_singleton {x : Nat} (hx : ¬ IsLowSurrogate x) (l : List Nat) :
    coalesce (l ++ [x]) = coalesce l ++ [x] := by
  induction l using coalesce.induct with
  | case1 => rfl
  | case2 c =>
    show coalesce [c, x] = [c, x]
    rw [coalesce, if_neg fun h => hx h.2]
    rfl
  | case3 c d cs h ih => rw [List.cons_append, List.cons_append, coalesce, coalesce, if_pos h,
      if_pos h, ih, List.cons_append]
  | case4 c d cs h ih => rw [List.cons_append, List.cons_append, coalesce, coalesce, if_neg h,
      if_neg h, ← List.cons_append, ih, List.cons_append]

/-! ## The shortest-form encoder -/

/-- The bytes the sanitizer writes for a code point `cp ≥ 0x80`
(`duk__unicode_wtf8_sanitize_string_reference`, lines 186-201). A store to a byte keeps the
low eight bits of the value. -/
def emitCodepoint (cp : Nat) : List UInt8 :=
  if cp ≤ 0x7ff then
    [UInt8.ofNat (0xc0 + (cp >>> 6)), UInt8.ofNat (0x80 + (cp &&& 0x3f))]
  else if cp ≤ 0xffff then
    [UInt8.ofNat (0xe0 + (cp >>> 12)), UInt8.ofNat (0x80 + ((cp >>> 6) &&& 0x3f)),
      UInt8.ofNat (0x80 + (cp &&& 0x3f))]
  else
    [UInt8.ofNat (0xf0 + (cp >>> 18)), UInt8.ofNat (0x80 + ((cp >>> 12) &&& 0x3f)),
      UInt8.ofNat (0x80 + ((cp >>> 6) &&& 0x3f)), UInt8.ofNat (0x80 + (cp &&& 0x3f))]

/-- The shortest-form encoding of one code point: the byte itself below 0x80, as the ASCII copy
of lines 104-110 writes it, and `emitCodepoint` above. -/
def encodeCp (c : Nat) : List UInt8 := if c < 0x80 then [UInt8.ofNat c] else emitCodepoint c

/-- The concatenated encodings of a list of code points. -/
def encode (cps : List Nat) : List UInt8 := cps.flatMap encodeCp

@[simp] theorem encode_nil : encode [] = [] := rfl

@[simp] theorem encode_cons (c : Nat) (cs : List Nat) :
    encode (c :: cs) = encodeCp c ++ encode cs := List.flatMap_cons c cs encodeCp

@[simp] theorem encode_append (as bs : List Nat) :
    encode (as ++ bs) = encode as ++ encode bs := List.flatMap_append as bs encodeCp

theorem encodeCp_one {c : Nat} (h : c < 0x80) : ∃ t : UInt8, encodeCp c = [t] ∧ t.toNat = c :=
  ⟨_, if_pos h, by simp; omega⟩

/-- An ASCII byte is the encoding of its value. -/
theorem encodeCp_toNat {t : UInt8} (h : t.toNat < 0x80) : encodeCp t.toNat = [t] := by
  rw [encodeCp, if_pos h, uint8_ofNat_toNat]

theorem encodeCp_two {c : Nat} (h1 : 0x80 ≤ c) (h2 : c < 0x800) :
    ∃ t c1 : UInt8, encodeCp c = [t, c1] ∧ t.toNat = 0xC0 + c / 64 ∧ c1.toNat = 0x80 + c % 64 :=
  ⟨_, _, by rw [encodeCp, if_neg (by omega), emitCodepoint, if_pos (by omega)],
    by simp; omega, by simp; omega⟩

theorem encodeCp_three {c : Nat} (h1 : 0x800 ≤ c) (h2 : c < 0x10000) :
    ∃ t c1 c2 : UInt8, encodeCp c = [t, c1, c2] ∧ t.toNat = 0xE0 + c / 4096 ∧
      c1.toNat = 0x80 + c / 64 % 64 ∧ c2.toNat = 0x80 + c % 64 :=
  ⟨_, _, _, by rw [encodeCp, if_neg (by omega), emitCodepoint, if_neg (by omega), if_pos (by omega)],
    by simp; omega, by simp; omega, by simp; omega⟩

theorem encodeCp_four {c : Nat} (h1 : 0x10000 ≤ c) (h2 : c ≤ 0x10FFFF) :
    ∃ t c1 c2 c3 : UInt8, encodeCp c = [t, c1, c2, c3] ∧ t.toNat = 0xF0 + c / 262144 ∧
      c1.toNat = 0x80 + c / 4096 % 64 ∧ c2.toNat = 0x80 + c / 64 % 64 ∧
      c3.toNat = 0x80 + c % 64 :=
  ⟨_, _, _, _, by rw [encodeCp, if_neg (by omega), emitCodepoint, if_neg (by omega),
    if_neg (by omega)], by simp; omega, by simp; omega, by simp; omega, by simp; omega⟩

/-- The bytes of a 2-byte encoding lie in the ranges that the validator and the sanitizer check
after its lead byte; so do those of the 3- and 4-byte encodings below. -/
theorem encodeCp_two_ranges {c : Nat} (h1 : 0x80 ≤ c) (h2 : c < 0x800) :
    ∃ t c1 : UInt8, encodeCp c = [t, c1] ∧ 0xc1 < t.toNat ∧ t.toNat ≤ 0xdf ∧
      0x80 ≤ c1.toNat ∧ c1.toNat ≤ 0xbf :=
  let ⟨t, c1, he, ht, hc1⟩ := encodeCp_two h1 h2
  ⟨t, c1, he, by omega, by omega, by omega, by omega⟩

theorem encodeCp_three_ranges {c : Nat} (h1 : 0x800 ≤ c) (h2 : c < 0x10000) :
    ∃ t c1 c2 : UInt8, encodeCp c = [t, c1, c2] ∧ 0xdf < t.toNat ∧ t.toNat ≤ 0xef ∧
      (if t.toNat = 0xe0 then 0xa0 else 0x80) ≤ c1.toNat ∧ c1.toNat ≤ 0xbf ∧
      0x80 ≤ c2.toNat ∧ c2.toNat ≤ 0xbf :=
  let ⟨t, c1, c2, he, ht, hc1, hc2⟩ := encodeCp_three h1 h2
  ⟨t, c1, c2, he, by omega, by omega, by split <;> omega, by omega, by omega, by omega⟩

theorem encodeCp_four_ranges {c : Nat} (h1 : 0x10000 ≤ c) (h2 : c ≤ 0x10FFFF) :
    ∃ t c1 c2 c3 : UInt8, encodeCp c = [t, c1, c2, c3] ∧ 0xef < t.toNat ∧ t.toNat ≤ 0xf4 ∧
      (if t.toNat = 0xf0 then 0x90 else 0x80) ≤ c1.toNat ∧
      c1.toNat ≤ (if t.toNat = 0xf4 then 0x8f else 0xbf) ∧
      0x80 ≤ c2.toNat ∧ c2.toNat ≤ 0xbf ∧ 0x80 ≤ c3.toNat ∧ c3.toNat ≤ 0xbf :=
  let ⟨t, c1, c2, c3, he, ht, hc1, hc2, hc3⟩ := encodeCp_four h1 h2
  ⟨t, c1, c2, c3, he, by omega, by omega, by split <;> omega, by split <;> omega, by omega,
    by omega, by omega, by omega⟩

/-- A surrogate is encoded in three bytes behind the lead byte `0xed`. -/
theorem encodeCp_surrogate {s : Nat} (h1 : 0xD800 ≤ s) (h2 : s ≤ 0xDFFF) :
    encodeCp s = [0xed, UInt8.ofNat (0x80 + ((s >>> 6) &&& 0x3f)),
      UInt8.ofNat (0x80 + (s &&& 0x3f))] := by
  obtain ⟨t, c1, c2, he, ht, hc1, hc2⟩ := encodeCp_three (c := s) (by omega) (by omega)
  rw [he]
  simp only [List.cons.injEq, and_true]
  refine ⟨uint8_ext ?_, uint8_ext ?_, uint8_ext ?_⟩
  · rw [ht]; show _ = 0xed; omega
  · simp only [uint8_toNat_ofNat, hc1, shiftRight_6, land_0x3f]; omega
  · simp only [uint8_toNat_ofNat, hc2, land_0x3f]; omega

/-- The first byte of an encoding is ASCII or a lead byte 0xC2..0xF4, every later byte a
continuation byte 0x80..0xBF. -/
theorem encodeCp_shape {c : Nat} (hc : c ≤ 0x10FFFF) :
    ∃ t rest, encodeCp c = t :: rest ∧ (t.toNat < 0x80 ∨ 0xC2 ≤ t.toNat ∧ t.toNat ≤ 0xF4) ∧
      ∀ b ∈ rest, 0x80 ≤ b.toNat ∧ b.toNat ≤ 0xBF := by
  by_cases h1 : c < 0x80
  · obtain ⟨t, he, ht⟩ := encodeCp_one h1
    exact ⟨t, [], he, by omega, by simp⟩
  by_cases h2 : c < 0x800
  · obtain ⟨t, c1, he, ht1, ht2, hl1, hu1⟩ := encodeCp_two_ranges (by omega) h2
    exact ⟨t, [c1], he, by omega, by simp; omega⟩
  by_cases h3 : c < 0x10000
  · obtain ⟨t, c1, c2, he, ht1, ht2, hl1, hu1, hl2, hu2⟩ := encodeCp_three_ranges (by omega) h3
    exact ⟨t, [c1, c2], he, by omega, by simp; split at hl1 <;> omega⟩
  · obtain ⟨t, c1, c2, c3, he, ht1, ht2, hl1, hu1, hl2, hu2, hl3, hu3⟩ :=
      encodeCp_four_ranges (by omega) hc
    exact ⟨t, [c1, c2, c3], he, by omega, by simp; split at hl1 <;> split at hu1 <;> omega⟩

theorem encodeCp_length_pos (c : Nat) : 0 < (encodeCp c).length := by
  unfold encodeCp emitCodepoint; split_ifs <;> simp

/-- Only an ASCII code point has a 1-byte encoding. -/
theorem le_of_encodeCp_length {c : Nat} (h : 2 ≤ (encodeCp c).length) : 0x80 ≤ c := by
  by_contra hc
  rw [encodeCp, if_pos (by omega)] at h
  simp at h

/-! ## Reading a byte string back

`decode` reads a byte string sequence by sequence, the length of each given by its first byte,
and `utf16` is the ECMAScript view of the result: each 1-, 2- or 3-byte sequence one code unit,
each 4-byte sequence the surrogate pair of its code point. -/

/-- The length of the sequence that begins with `t`. -/
def seqLength (t : UInt8) : Nat :=
  if t.toNat ≤ 0x7f then 1 else if t.toNat ≤ 0xdf then 2 else if t.toNat ≤ 0xef then 3 else 4

theorem seqLength_one {t : UInt8} (h : t.toNat ≤ 0x7f) : seqLength t = 1 := if_pos h

theorem seqLength_two {t : UInt8} (h1 : 0x7f < t.toNat) (h2 : t.toNat ≤ 0xdf) : seqLength t = 2 := by
  rw [seqLength, if_neg (by omega), if_pos h2]

theorem seqLength_three {t : UInt8} (h1 : 0xdf < t.toNat) (h2 : t.toNat ≤ 0xef) :
    seqLength t = 3 := by
  rw [seqLength, if_neg (by omega), if_neg (by omega), if_pos h2]

theorem seqLength_four {t : UInt8} (h : 0xef < t.toNat) : seqLength t = 4 := by
  rw [seqLength, if_neg (by omega), if_neg (by omega), if_neg (by omega)]

/-- The code point of one whole sequence. -/
def decodeSeq : List UInt8 → Nat
  | [t] => t.toNat
  | [t, c1] => t.toNat % 32 * 64 + c1.toNat % 64
  | [t, c1, c2] => t.toNat % 16 * 4096 + c1.toNat % 64 * 64 + c2.toNat % 64
  | [t, c1, c2, c3] => t.toNat % 8 * 262144 + c1.toNat % 64 * 4096 + c2.toNat % 64 * 64 +
      c3.toNat % 64
  | _ => 0

/-- The code points of a byte string, read sequence by sequence. -/
def decode : List UInt8 → List Nat
  | [] => []
  | t :: p => decodeSeq (t :: p.take (seqLength t - 1)) :: decode (p.drop (seqLength t - 1))
termination_by b => b.length

/-- The ECMAScript view of a byte string. -/
def utf16 (b : List UInt8) : List Nat := toUtf16 (decode b)

/-- A number is its base-64 digits. -/
theorem digits_decomp_three (c : Nat) : c / 4096 * 4096 + c / 64 % 64 * 64 + c % 64 = c := by
  have e1 := Nat.div_add_mod c 64
  have e2 := Nat.div_add_mod (c / 64) 64
  rw [Nat.div_div_eq_div_mul] at e2
  omega

theorem digits_decomp_four (c : Nat) :
    c / 262144 * 262144 + c / 4096 % 64 * 4096 + c / 64 % 64 * 64 + c % 64 = c := by
  have e3 := Nat.div_add_mod (c / 4096) 64
  rw [Nat.div_div_eq_div_mul] at e3
  have := digits_decomp_three c
  omega

/-- An encoding is read back as one sequence: its first byte gives its length, and its
value is the code point. -/
theorem encodeCp_read {c : Nat} (hc : c ≤ 0x10FFFF) :
    ∃ t rest, encodeCp c = t :: rest ∧ rest.length = seqLength t - 1 ∧
      decodeSeq (t :: rest) = c := by
  have hcont (x : Nat) : (0x80 + x % 64) % 64 = x % 64 := by omega
  by_cases h1 : c < 0x80
  · obtain ⟨t, he, ht⟩ := encodeCp_one h1
    exact ⟨t, [], he, by rw [seqLength_one (by omega)]; rfl, ht⟩
  by_cases h2 : c < 0x800
  · have hlead : (0xC0 + c / 64) % 32 = c / 64 := by omega
    obtain ⟨t, c1, he, ht, h1⟩ := encodeCp_two (by omega) h2
    refine ⟨t, [c1], he, by rw [seqLength_two (by omega) (by omega)]; rfl, ?_⟩
    simp only [decodeSeq, ht, h1, hlead, hcont]
    exact Nat.div_add_mod' c 64
  by_cases h3 : c < 0x10000
  · have hlead : (0xE0 + c / 4096) % 16 = c / 4096 := by omega
    obtain ⟨t, c1, c2, he, ht, h1, h2⟩ := encodeCp_three (by omega) h3
    refine ⟨t, [c1, c2], he, by rw [seqLength_three (by omega) (by omega)]; rfl, ?_⟩
    simp only [decodeSeq, ht, h1, h2, hlead, hcont]
    exact digits_decomp_three c
  · have hlead : (0xF0 + c / 262144) % 8 = c / 262144 := by omega
    obtain ⟨t, c1, c2, c3, he, ht, h1, h2, h3⟩ := encodeCp_four (by omega) hc
    refine ⟨t, [c1, c2, c3], he, by rw [seqLength_four (by omega)]; rfl, ?_⟩
    simp only [decodeSeq, ht, h1, h2, h3, hlead, hcont]
    exact digits_decomp_four c

theorem decode_encodeCp_append {c : Nat} (hc : c ≤ 0x10FFFF) (r : List UInt8) :
    decode (encodeCp c ++ r) = c :: decode r := by
  obtain ⟨t, rest, he, hl, hd⟩ := encodeCp_read hc
  rw [he, List.cons_append, decode, ← hl, List.take_left, List.drop_left, hd]

/-- Reading an encoding gives back the code points. -/
theorem decode_encode {cps : List Nat} (hv : AllCodepoints cps) : decode (encode cps) = cps := by
  induction cps with
  | nil => simp [decode]
  | cons c cs ih =>
    rw [encode_cons, decode_encodeCp_append (hv c (by simp)),
      ih (fun x hx => hv x (List.mem_cons_of_mem c hx))]

theorem utf16_encode {cps : List Nat} (hv : AllCodepoints cps) :
    utf16 (encode cps) = toUtf16 cps := by
  rw [utf16, decode_encode hv]

/-- Two lists of code points with the same encoding are equal. -/
theorem encode_inj {as bs : List Nat} (ha : AllCodepoints as) (hb : AllCodepoints bs)
    (h : encode as = encode bs) : as = bs := by
  rw [← decode_encode ha, h, decode_encode hb]

end Duk
