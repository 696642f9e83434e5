import DuktapeWtf8.Unicode.Validate

set_option autoImplicit false

/-! # Conversion to CESU-8

`duk_unicode_wtf8_to_cesu8` (`duk_unicode_wtf8.c`, lines 656-733) converts a valid WTF-8 string
in two passes. The first counts the bytes `>= 0xf0`, one per 4-byte sequence, and sizes the
buffer `alloc_size = blen + 2 * nonbmp_count`: a 4-byte sequence becomes the two 3-byte
encodings of its surrogate pair. The second pass copies every other byte and writes the six
bytes of the pair for a lead byte `t >= 0xf0`, reading its continuation bytes as `p[0]`, `p[1]`,
`p[2]`.

After those reads the second pass does not step `p` over the three continuation bytes: the next
iterations copy them too. On a valid string the second pass therefore writes
`blen + 5 * nonbmp_count` bytes, past `buf + alloc_size` as soon as the string has a 4-byte
sequence, and what it writes is the CESU-8 form with the continuation bytes of every 4-byte
sequence repeated after its pair. The size of the first pass is the size of the CESU-8 form.
-/

namespace Duk

/-! ## The model -/

/-- The first pass (lines 677-687): the bytes `>= 0xf0`. -/
def nonbmpCount : List UInt8 → Nat
  | [] => 0
  | t :: p => (if 0xf0 ≤ t.toNat then 1 else 0) + nonbmpCount p

/-- Lines 705-721: the six bytes written for a lead byte `t >= 0xf0` and the bytes `p[0]`,
`p[1]`, `p[2]` after it. -/
def cesu8Surrogates (t p0 p1 p2 : UInt8) : List UInt8 :=
  let cp := ((t.toNat &&& 0x07) <<< 18) + ((p0.toNat &&& 0x3f) <<< 12) +
    ((p1.toNat &&& 0x3f) <<< 6) + (p2.toNat &&& 0x3f) - 0x10000
  let hi := 0xd800 + (cp >>> 10)
  let lo := 0xdc00 + (cp &&& 0x3ff)
  [0xed, UInt8.ofNat (0x80 + ((hi >>> 6) &&& 0x3f)), UInt8.ofNat (0x80 + (hi &&& 0x3f)),
    0xed, UInt8.ofNat (0x80 + ((lo >>> 6) &&& 0x3f)), UInt8.ofNat (0x80 + (lo &&& 0x3f))]

/-- One iteration of the second pass (lines 700-723) at `t = *p++`, with `p` the bytes after
`t`: the bytes written at `q`; `none` where it would read past `p_end`. -/
def cesu8Write (t : UInt8) (p : List UInt8) : Option (List UInt8) :=
  if 0xf0 ≤ t.toNat then
    match p with
    | p0 :: p1 :: p2 :: _ => some (cesu8Surrogates t p0 p1 p2)
    | _ => none
  else some [t]

/-- The second pass (lines 697-726): the bytes written from `buf` on. Each iteration moves `p`
by the one byte `t`. -/
def toCesu8Loop : List UInt8 → Option (List UInt8)
  | [] => some []
  | t :: p => (cesu8Write t p).bind fun w => (toCesu8Loop p).map (w ++ ·)

/-- `duk_unicode_wtf8_to_cesu8`: `alloc_size`, and the bytes the second pass writes from `buf`
on (any beyond `alloc_size` are written past the buffer). -/
def unicodeWtf8ToCesu8 (data : List UInt8) : Option (Nat × List UInt8) :=
  (toCesu8Loop data).map fun written => (data.length + 2 * nonbmpCount data, written)

/-! ## The CESU-8 form -/

/-- The CESU-8 form of a valid string: the 3-byte encodings of its code units, so every 4-byte
sequence is replaced by the encodings of its high and its low surrogate and every other
sequence is kept. -/
def cesu8Of (b : List UInt8) : List UInt8 := encode (utf16 b)

/-- What the second pass writes for one code point: its CESU-8 form, and after a 4-byte
sequence the three continuation bytes again. -/
def cesu8Written (c : Nat) : List UInt8 :=
  encode (codeUnits c) ++ if c < 0x10000 then [] else (encodeCp c).drop 1

/-! ## One code point -/

/-- The six bytes of the pair are the 3-byte encodings of the two surrogates. -/
theorem cesu8Surrogates_encodeCp {c : Nat} (h1 : 0x10000 ≤ c) (h2 : c ≤ 0x10FFFF)
    {t p0 p1 p2 : UInt8} (he : encodeCp c = [t, p0, p1, p2]) :
    cesu8Surrogates t p0 p1 p2 = encode (codeUnits c) := by
  obtain ⟨t', rest, he', -, hd⟩ := encodeCp_read h2
  obtain ⟨rfl, rfl⟩ := List.cons.inj (he.symm.trans he')
  have hcp : ((t.toNat &&& 0x07) <<< 18) + ((p0.toNat &&& 0x3f) <<< 12) +
      ((p1.toNat &&& 0x3f) <<< 6) + (p2.toNat &&& 0x3f) - 0x10000 = c - 0x10000 := by
    simp only [land_0x07, land_0x3f, shiftLeft_18, shiftLeft_12, shiftLeft_6]
    rw [← hd]
    rfl
  have hhi := highSurrogate_isHigh h2
  have hlo := lowSurrogate_isLow c
  unfold IsHighSurrogate at hhi; unfold IsLowSurrogate at hlo
  have hh : 0xd800 + ((c - 0x10000) >>> 10) = highSurrogate c := by rw [shiftRight_10]; rfl
  have hl : 0xdc00 + ((c - 0x10000) &&& 0x3ff) = lowSurrogate c := by rw [land_0x3ff]; rfl
  rw [codeUnits, if_neg (by omega), encode_cons, encode_cons, encode_nil, List.append_nil,
    encodeCp_surrogate hhi.1 (by omega), encodeCp_surrogate (by omega) hlo.2]
  simp only [cesu8Surrogates, hcp, hh, hl]
  rfl

/-- Every byte of the encoding of a BMP code point is below `0xf0`. -/
theorem encodeCp_lt_0xf0 {c : Nat} (hc : c < 0x10000) : ∀ x ∈ encodeCp c, x.toNat < 0xf0 := by
  by_cases h1 : c < 0x80
  · obtain ⟨t, he, ht⟩ := encodeCp_one h1
    rw [he]; simp; omega
  by_cases h2 : c < 0x800
  · obtain ⟨t, c1, he, -, ht, -, hc1⟩ := encodeCp_two_ranges (by omega) h2
    rw [he]; simp; omega
  · obtain ⟨t, c1, c2, he, -, ht, -, hc1, -, hc2⟩ := encodeCp_three_ranges (by omega) hc
    rw [he]; simp; omega

/-- Of the bytes of a 4-byte encoding only the first is `>= 0xf0`. -/
theorem encodeCp_four_lead {c : Nat} (h1 : 0x10000 ≤ c) (h2 : c ≤ 0x10FFFF) :
    ∃ t c1 c2 c3 : UInt8, encodeCp c = [t, c1, c2, c3] ∧ 0xf0 ≤ t.toNat ∧
      ∀ x ∈ [c1, c2, c3], x.toNat < 0xf0 := by
  obtain ⟨t, c1, c2, c3, he, ht, -, -, hu1, -, hu2, -, hu3⟩ := encodeCp_four_ranges h1 h2
  refine ⟨t, c1, c2, c3, he, ht, ?_⟩
  simp only [List.mem_cons, List.mem_singleton, List.not_mem_nil, or_false, forall_eq_or_imp,
    forall_eq]
  split at hu1 <;> omega

/-! ## The second pass on a valid string -/

theorem cesu8Write_of_lt {t : UInt8} (h : t.toNat < 0xf0) (p : List UInt8) :
    cesu8Write t p = some [t] := by
  unfold cesu8Write; exact if_neg (by omega)

theorem cesu8Write_of_le {t : UInt8} (h : 0xf0 ≤ t.toNat) (p0 p1 p2 : UInt8) (tail : List UInt8) :
    cesu8Write t (p0 :: p1 :: p2 :: tail) = some (cesu8Surrogates t p0 p1 p2) := by
  unfold cesu8Write; exact if_pos h

/-- Bytes below `0xf0` are copied one by one. -/
theorem toCesu8Loop_append_of_lt {xs : List UInt8} (hx : ∀ x ∈ xs, x.toNat < 0xf0)
    (r : List UInt8) : toCesu8Loop (xs ++ r) = (toCesu8Loop r).map (xs ++ ·) := by
  induction xs with
  | nil => simp
  | cons x xs ih =>
    have hlt := hx x (List.mem_cons_self x xs)
    rw [List.cons_append, toCesu8Loop, cesu8Write_of_lt hlt, Option.some_bind,
      ih (fun y hy => hx y (List.mem_cons_of_mem x hy)), Option.map_map]
    rfl

/-- The second pass over the encoding of one code point, wherever it stands. -/
theorem toCesu8Loop_encodeCp_append {c : Nat} (hc : c ≤ 0x10FFFF) (r : List UInt8) :
    toCesu8Loop (encodeCp c ++ r) = (toCesu8Loop r).map (cesu8Written c ++ ·) := by
  by_cases h : c < 0x10000
  · rw [toCesu8Loop_append_of_lt (encodeCp_lt_0xf0 h), cesu8Written, if_pos h, codeUnits_of_lt h,
      encode_cons, encode_nil, List.append_nil, List.append_nil]
  obtain ⟨t, c1, c2, c3, he, ht, hcont⟩ := encodeCp_four_lead (by omega) hc
  rw [he, List.cons_append, toCesu8Loop, List.cons_append, List.cons_append, List.singleton_append,
    cesu8Write_of_le ht, Option.some_bind,
    show c1 :: c2 :: c3 :: r = [c1, c2, c3] ++ r from rfl, toCesu8Loop_append_of_lt hcont,
    Option.map_map, cesu8Written, if_neg h, he, cesu8Surrogates_encodeCp (by omega) hc he]
  simp [Function.comp_def]

theorem toCesu8Loop_encode {cps : List Nat} (hv : AllCodepoints cps) :
    toCesu8Loop (encode cps) = some (cps.flatMap cesu8Written) := by
  induction cps with
  | nil => rfl
  | cons c cs ih =>
    rw [encode_cons, toCesu8Loop_encodeCp_append (hv c (List.mem_cons_self c cs)),
      ih (fun x hx => hv x (List.mem_cons_of_mem c hx)), Option.map_some', List.flatMap_cons]

/-! ## Counting -/

theorem nonbmpCount_append (a b : List UInt8) :
    nonbmpCount (a ++ b) = nonbmpCount a + nonbmpCount b := by
  induction a with
  | nil => simp [nonbmpCount]
  | cons t p ih => rw [List.cons_append, nonbmpCount, nonbmpCount, ih, Nat.add_assoc]

theorem nonbmpCount_eq_zero {xs : List UInt8} (hx : ∀ x ∈ xs, x.toNat < 0xf0) :
    nonbmpCount xs = 0 := by
  induction xs with
  | nil => rfl
  | cons x xs ih =>
    rw [nonbmpCount, if_neg (by have := hx x (List.mem_cons_self x xs); omega),
      ih (fun y hy => hx y (List.mem_cons_of_mem x hy))]

/-- One code point: the first pass counts one byte of a 4-byte sequence; the CESU-8 form has two
bytes more per counted byte, and the second pass five. -/
theorem cesu8Written_length {c : Nat} (hc : c ≤ 0x10FFFF) :
    nonbmpCount (encodeCp c) = (if c < 0x10000 then 0 else 1) ∧
      (encode (codeUnits c)).length = (encodeCp c).length + 2 * nonbmpCount (encodeCp c) ∧
      (cesu8Written c).length = (encodeCp c).length + 5 * nonbmpCount (encodeCp c) := by
  by_cases h : c < 0x10000
  · simp only [nonbmpCount_eq_zero (encodeCp_lt_0xf0 h), cesu8Written, if_pos h,
      codeUnits_of_lt h]
    simp
  obtain ⟨t, c1, c2, c3, he, ht, hcont⟩ := encodeCp_four_lead (by omega) hc
  have hhi := highSurrogate_isHigh hc
  have hlo := lowSurrogate_isLow c
  unfold IsHighSurrogate at hhi; unfold IsLowSurrogate at hlo
  have hn : nonbmpCount [t, c1, c2, c3] = 1 := by
    rw [nonbmpCount, if_pos ht, nonbmpCount_eq_zero hcont]
  simp only [hn, cesu8Written, if_neg h, codeUnits, encode_cons, encode_nil,
    encodeCp_surrogate hhi.1 (show highSurrogate c ≤ 0xDFFF by omega),
    encodeCp_surrogate (show 0xD800 ≤ lowSurrogate c by omega) hlo.2, he]
  simp

/-- Over the encoding of code points: the second pass writes five bytes more per counted byte,
the CESU-8 form two more, and the two agree when no byte is counted. -/
theorem flatMap_cesu8Written {cps : List Nat} (hv : AllCodepoints cps) :
    (cps.flatMap cesu8Written).length = (encode cps).length + 5 * nonbmpCount (encode cps) ∧
      (encode (toUtf16 cps)).length = (encode cps).length + 2 * nonbmpCount (encode cps) ∧
      (nonbmpCount (encode cps) = 0 → cps.flatMap cesu8Written = encode (toUtf16 cps)) := by
  induction cps with
  | nil => exact ⟨rfl, rfl, fun _ => rfl⟩
  | cons c cs ih =>
    obtain ⟨h1, h2, h3⟩ := ih (fun x hx => hv x (List.mem_cons_of_mem c hx))
    obtain ⟨hn, hu, hw⟩ := cesu8Written_length (hv c (List.mem_cons_self c cs))
    simp only [List.flatMap_cons, toUtf16_cons, encode_cons, encode_append, List.length_append,
      nonbmpCount_append] at h1 h2 h3 hu hw ⊢
    refine ⟨by omega, by omega, fun h0 => ?_⟩
    have hc : c < 0x10000 := by by_contra hc; rw [if_neg hc] at hn; omega
    rw [h3 (by omega), cesu8Written, if_pos hc, List.append_nil]

/-- **On every valid string the second pass writes `blen + 5 * nonbmp_count` bytes into a
buffer of `alloc_size = blen + 2 * nonbmp_count` bytes, which is the size of the CESU-8 form.
The write overruns the buffer, and differs from the CESU-8 form, exactly when the string has a
4-byte sequence. Each code point is written in its CESU-8 form, and a 4-byte sequence is
followed by its three continuation bytes again.** -/
theorem unicodeWtf8ToCesu8_overrun {b : List UInt8} (hb : IsValidWtf8 b) :
    ∃ allocSize written, unicodeWtf8ToCesu8 b = some (allocSize, written) ∧
      allocSize = b.length + 2 * nonbmpCount b ∧ (cesu8Of b).length = allocSize ∧
      written = (decode b).flatMap cesu8Written ∧
      written.length = b.length + 5 * nonbmpCount b ∧
      (written.length ≤ allocSize ↔ nonbmpCount b = 0) ∧
      (written = cesu8Of b ↔ nonbmpCount b = 0) := by
  obtain ⟨hv, he⟩ := encode_decode_of_valid hb
  rw [cesu8Of, utf16]
  generalize decode b = cps at hv he
  subst he
  obtain ⟨h1, h2, h3⟩ := flatMap_cesu8Written hv
  refine ⟨_, _, by rw [unicodeWtf8ToCesu8, toCesu8Loop_encode hv, Option.map_some'], rfl, h2,
    rfl, h1, by omega, fun h => ?_, h3⟩
  have := congrArg List.length h
  omega

/-- U+1F600 as `F0 9F 98 80`: the second pass writes nine bytes into a buffer of six. -/
theorem unicodeWtf8ToCesu8_overrun_emoji :
    ∃ allocSize written, unicodeWtf8ToCesu8 [0xF0, 0x9F, 0x98, 0x80] = some (allocSize, written) ∧
      allocSize = 6 ∧ written.length = 9 := by
  have hb : IsValidWtf8 [0xF0, 0x9F, 0x98, 0x80] :=
    unicodeIsValidWtf8_encode (show AllCodepoints [0x1F600] by simp [AllCodepoints])
  have hn : nonbmpCount [0xF0, 0x9F, 0x98, 0x80] = 1 := by decide
  obtain ⟨a, w, h, ha, -, -, hw, -⟩ := unicodeWtf8ToCesu8_overrun hb
  exact ⟨a, w, h, by rw [ha, hn]; rfl, by rw [hw, hn]; rfl⟩

/-- The bytes of that run: the CESU-8 form `ED A0 BD ED B8 80`, then `9F 98 80` once more. -/
theorem unicodeWtf8ToCesu8_emoji :
    unicodeWtf8ToCesu8 [0xF0, 0x9F, 0x98, 0x80] =
      some (6, [0xED, 0xA0, 0xBD, 0xED, 0xB8, 0x80, 0x9F, 0x98, 0x80]) := by
  decide

end Duk
