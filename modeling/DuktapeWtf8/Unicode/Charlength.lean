import DuktapeWtf8.Unicode.Cesu8

set_option autoImplicit false

/-! # The character length

`duk_unicode_wtf8_charlength` (`duk_unicode_wtf8.c`, lines 373-417) counts the ECMAScript
characters of a valid WTF-8 string: it steps over one sequence at a time by its first byte and
sums in `adj` the bytes beyond the first character of each, so that `clen = blen - adj`. A
4-byte sequence is two characters, the surrogate pair of its code point.

The loop assumes valid input: on a truncated sequence `p` would step past `p_end`, which the
model reports as `none`. On a valid string the loop lands on `p_end` and the result is the
length of the ECMAScript view `utf16`: one character per sequence, and one more per 4-byte
sequence, whose lead byte is one of the bytes ≥ 0xF0 that `nonbmpCount` counts. It is `blen`
exactly when every byte is ASCII.
-/

namespace Duk

/-- One iteration of the loop of lines 382-409 at the byte `x = *p`: how far `p` moves, and what
it adds to `adj`. -/
def charlengthStep (x : UInt8) : Nat × Nat :=
  if x.toNat ≤ 0x7f then (1, 0)
  else if x.toNat ≤ 0xdf then (2, 2 - 1)
  else if x.toNat ≤ 0xef then (3, 3 - 1)
  else (4, 4 - 2)

theorem charlengthStep_pos (x : UInt8) : 1 ≤ (charlengthStep x).1 := by
  unfold charlengthStep; split_ifs <;> decide

/-- The loop of lines 382-409 with its running `adj`; `none` if `p` steps past `p_end`. -/
def charlengthLoop : List UInt8 → Nat → Option Nat
  | [], adj => some adj
  | x :: rest, adj =>
    if (charlengthStep x).1 ≤ rest.length + 1 then
      charlengthLoop ((x :: rest).drop (charlengthStep x).1) (adj + (charlengthStep x).2)
    else none
termination_by p => p.length
decreasing_by simp_wf; have := charlengthStep_pos x; omega

/-- `duk_unicode_wtf8_charlength`: `clen = blen - adj`. -/
def unicodeWtf8Charlength (data : List UInt8) : Option Nat :=
  (charlengthLoop data 0).map fun adj => data.length - adj

/-! ## On encodings -/

/-- The first byte of the encoding of `c` moves `p` over the whole encoding, and `adj` gains
its bytes beyond the code units of `c`. -/
theorem encodeCp_charlengthStep {c : Nat} (hc : c ≤ 0x10FFFF) :
    ∃ t rest, encodeCp c = t :: rest ∧ (charlengthStep t).1 = rest.length + 1 ∧
      (charlengthStep t).2 + (codeUnits c).length = rest.length + 1 := by
  by_cases h1 : c < 0x80
  · obtain ⟨t, he, ht⟩ := encodeCp_one h1
    refine ⟨t, [], he, ?_⟩
    rw [charlengthStep, if_pos (by omega), codeUnits_of_lt (by omega)]
    exact ⟨rfl, rfl⟩
  by_cases h2 : c < 0x800
  · obtain ⟨t, c1, he, ht, -⟩ := encodeCp_two (by omega) h2
    refine ⟨t, [c1], he, ?_⟩
    rw [charlengthStep, if_neg (by omega), if_pos (by omega), codeUnits_of_lt (by omega)]
    exact ⟨rfl, rfl⟩
  by_cases h3 : c < 0x10000
  · obtain ⟨t, c1, c2, he, ht, -⟩ := encodeCp_three (by omega) h3
    refine ⟨t, [c1, c2], he, ?_⟩
    rw [charlengthStep, if_neg (by omega), if_neg (by omega), if_pos (by omega),
      codeUnits_of_lt h3]
    exact ⟨rfl, rfl⟩
  · obtain ⟨t, c1, c2, c3, he, ht, -⟩ := encodeCp_four (by omega) hc
    refine ⟨t, [c1, c2, c3], he, ?_⟩
    rw [charlengthStep, if_neg (by omega), if_neg (by omega), if_neg (by omega), codeUnits,
      if_neg h3]
    exact ⟨rfl, rfl⟩

/-- On an encoding the loop lands on `p_end`, having added the bytes beyond the code units. -/
theorem charlengthLoop_encode {cps : List Nat} (hv : AllCodepoints cps) (adj : Nat) :
    ∃ a, charlengthLoop (encode cps) adj = some a ∧
      a + (toUtf16 cps).length = adj + (encode cps).length := by
  induction cps generalizing adj with
  | nil => exact ⟨adj, by rw [encode_nil, charlengthLoop], rfl⟩
  | cons c cs ih =>
    obtain ⟨t, rest, he, h1, h2⟩ := encodeCp_charlengthStep (hv c (List.mem_cons_self c cs))
    obtain ⟨a, ha, hsum⟩ := ih (fun x hx => hv x (List.mem_cons_of_mem c hx))
      (adj + (charlengthStep t).2)
    refine ⟨a, ?_, ?_⟩
    · rw [encode_cons, he, List.cons_append, charlengthLoop, if_pos (by simp; omega),
        ← List.cons_append, h1, ← List.length_cons, List.drop_left, ha]
    · simp only [toUtf16_cons, encode_cons, he, List.length_append, List.length_cons] at hsum ⊢
      omega

/-- **On valid WTF-8 the loop stays inside the string, and the character length is the length of
the ECMAScript view.** -/
theorem unicodeWtf8Charlength_of_valid {b : List UInt8} (hb : IsValidWtf8 b) :
    unicodeWtf8Charlength b = some (utf16 b).length ∧ (utf16 b).length ≤ b.length := by
  obtain ⟨hv, he⟩ := encode_decode_of_valid hb
  obtain ⟨a, ha, hsum⟩ := charlengthLoop_encode hv 0
  rw [he] at ha hsum
  rw [unicodeWtf8Charlength, ha, utf16]
  exact ⟨congrArg some (by simp only [Option.map_some']; omega), by omega⟩

/-! ## The ASCII case -/

theorem charlengthStep_snd_eq_zero (x : UInt8) : (charlengthStep x).2 = 0 ↔ x.toNat < 0x80 := by
  unfold charlengthStep; split_ifs <;> simp <;> omega

theorem charlengthStep_of_lt {x : UInt8} (h : x.toNat < 0x80) : charlengthStep x = (1, 0) :=
  if_pos (by omega)

/-- A code point has at most as many code units as bytes, and as many exactly when its encoding
is ASCII. -/
theorem codeUnits_length_le {c : Nat} (hc : c ≤ 0x10FFFF) :
    (codeUnits c).length ≤ (encodeCp c).length ∧
      ((codeUnits c).length = (encodeCp c).length ↔ ∀ x ∈ encodeCp c, x.toNat < 0x80) := by
  obtain ⟨t, rest, he, h1, h2⟩ := encodeCp_charlengthStep hc
  rw [he, List.length_cons, List.forall_mem_cons]
  refine ⟨by omega, ⟨fun h => ?_, fun ha => ?_⟩⟩
  · have ht := (charlengthStep_snd_eq_zero t).mp (by omega)
    rw [charlengthStep_of_lt ht] at h1
    have hr : rest = [] := List.eq_nil_of_length_eq_zero (by dsimp only at h1; omega)
    exact ⟨ht, by simp [hr]⟩
  · have := (charlengthStep_snd_eq_zero t).mpr ha.1; omega

theorem toUtf16_length_le {cps : List Nat} (hv : AllCodepoints cps) :
    (toUtf16 cps).length ≤ (encode cps).length ∧
      ((toUtf16 cps).length = (encode cps).length ↔ ∀ x ∈ encode cps, x.toNat < 0x80) := by
  induction cps with
  | nil => simp
  | cons c cs ih =>
    obtain ⟨hle, hiff⟩ := codeUnits_length_le (hv c (List.mem_cons_self c cs))
    obtain ⟨hle', hiff'⟩ := ih (fun x hx => hv x (List.mem_cons_of_mem c hx))
    rw [toUtf16_cons, encode_cons, List.length_append, List.length_append, List.forall_mem_append,
      ← hiff, ← hiff']
    omega

/-- **On valid WTF-8 the character length is `blen` exactly when every byte is ASCII.** -/
theorem utf16_length_eq_iff {b : List UInt8} (hb : IsValidWtf8 b) :
    (utf16 b).length = b.length ↔ ∀ x ∈ b, x.toNat < 0x80 := by
  obtain ⟨hv, he⟩ := encode_decode_of_valid hb
  have := (toUtf16_length_le hv).2
  rwa [he] at this

/-! ## Counting by sequences -/

/-- One code unit per code point, and one more per code point whose encoding has 4 bytes. -/
theorem toUtf16_length_eq {cps : List Nat} (hv : AllCodepoints cps) :
    (toUtf16 cps).length = cps.length + nonbmpCount (encode cps) := by
  induction cps with
  | nil => rfl
  | cons c cs ih =>
    have hc := (cesu8Written_length (hv c (List.mem_cons_self c cs))).1
    rw [toUtf16_cons, encode_cons, List.length_append, List.length_cons, nonbmpCount_append, hc,
      codeUnits_length, ih (fun x hx => hv x (List.mem_cons_of_mem c hx))]
    split_ifs <;> omega

/-- **On valid WTF-8 the loop lands on `p_end` without stepping past it, and the character
length is the length of the ECMAScript view: one per sequence and one more per 4-byte sequence.
It is at most `blen`, and equal to it exactly when every byte is ASCII.** -/
theorem unicodeWtf8Charlength_eq_utf16 {b : List UInt8} (hb : IsValidWtf8 b) :
    unicodeWtf8Charlength b = some (utf16 b).length ∧
      (utf16 b).length = (decode b).length + nonbmpCount b ∧ (utf16 b).length ≤ b.length ∧
      ((utf16 b).length = b.length ↔ ∀ x ∈ b, x.toNat < 0x80) := by
  obtain ⟨hv, he⟩ := encode_decode_of_valid hb
  have hcount := toUtf16_length_eq hv
  rw [he] at hcount
  obtain ⟨hl, hle⟩ := unicodeWtf8Charlength_of_valid hb
  exact ⟨hl, hcount, hle, utf16_length_eq_iff hb⟩

/-- "A😀": an ASCII byte and a 4-byte sequence are three characters. -/
theorem unicodeWtf8Charlength_eq_utf16_emoji :
    IsValidWtf8 (encode [0x41, 0x1F600]) ∧ unicodeWtf8Charlength (encode [0x41, 0x1F600]) = some 3 ∧
      nonbmpCount (encode [0x41, 0x1F600]) = 1 := by
  have hv : AllCodepoints [0x41, 0x1F600] := by simp [AllCodepoints]
  have hb := unicodeIsValidWtf8_encode hv
  obtain ⟨hl, -⟩ := unicodeWtf8Charlength_eq_utf16 hb
  rw [utf16_encode hv] at hl
  exact ⟨hb, hl.trans rfl, by decide⟩

end Duk
