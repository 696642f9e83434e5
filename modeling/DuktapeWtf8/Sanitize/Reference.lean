import DuktapeWtf8.Unicode.Validate

set_option autoImplicit false

/-! # The WTF-8 sanitizer

`unicodeWtf8SanitizeStringReference` is `duk__unicode_wtf8_sanitize_string_reference`
(`duk_unicode_wtf8.c`, lines 67-217). The input pointer `p` is the list of the bytes from `p`
to `p_end`, and the output is the list of the bytes written from `out_data` on; its length is
the function's result `out_blen`. One iteration of the main loop reads a byte `t = *p++` and
writes one `Emit`: the ASCII byte itself, the encoding of a decoded (possibly combined) code
point, or the replacement character U+FFFD. The iteration is cut along the source:

* `leadParams`, lines 112-138: the initial `cp`, `num_cont`, `lower` and `upper`;
* `sanitizeCont`, the `do ... while` loop of lines 141-158, which stops at `p_end` on a
  truncated sequence and steps back (`p--`) onto an invalid continuation byte;
* `pairSurrogate`, lines 160-181, which looks ahead for a low surrogate after a high one;
* `Emit.bytes`, lines 183-208.

`unicodeWtf8SanitizeDetect` (lines 238-260) copies a symbol, a string whose first byte is
0x80, 0x81, 0x82 or 0xFF, and sanitizes anything else.
-/

namespace Duk

/-! ## One iteration -/

/-- What one iteration of the main loop writes. -/
inductive Emit where
  /-- An ASCII byte, copied (lines 104-110). -/
  | ascii (t : UInt8)
  /-- A decoded code point, combined with a following low surrogate if it was a high one
  (lines 183-202). -/
  | cp (cp : Nat)
  /-- U+FFFD for an invalid or truncated sequence (lines 204-208). -/
  | replacement
  deriving DecidableEq, Repr

/-- The bytes an iteration writes at `q`. -/
def Emit.bytes : Emit → List UInt8
  | .ascii t => [t]
  | .cp c => emitCodepoint c
  | .replacement => [0xef, 0xbf, 0xbd]

/-- What an iteration adds to `out_clen_sub` (`Output charlen = out_blen - out_clen_sub`). -/
def Emit.clenSub : Emit → Nat
  | .ascii _ => 0
  | .cp c => if c ≤ 0x7ff then 1 else if c ≤ 0xffff then 2 else 3
  | .replacement => 2

/-- The code point an iteration writes. -/
def Emit.codepoint : Emit → Nat
  | .ascii t => t.toNat
  | .cp c => c
  | .replacement => 0xFFFD

/-- Lines 112-138, for a byte `t ≥ 0x80`: the initial `cp`, `num_cont`, `lower` and `upper` of
a lead byte, or `none` for `goto replacement`. -/
def leadParams (t : UInt8) : Option (Nat × Nat × Nat × Nat) :=
  if t.toNat ≥ 0xc2 then
    if t.toNat ≤ 0xdf then some (t.toNat &&& 0x1f, 1, 0x80, 0xbf)
    else if t.toNat ≤ 0xef then
      some (t.toNat &&& 0x0f, 2, if t.toNat = 0xe0 then 0xa0 else 0x80, 0xbf)
    else if t.toNat ≤ 0xf4 then
      some (t.toNat &&& 0x07, 3, if t.toNat = 0xf0 then 0x90 else 0x80,
        if t.toNat = 0xf4 then 0x8f else 0xbf)
    else none
  else none

/-- The `do ... while (--num_cont != 0)` loop of lines 141-158 with `num_cont` left to read:
the decoded `cp`, or `none` for `goto replacement`, and where `p` stops. A truncated sequence
stops at `p_end`; an invalid continuation byte is not consumed (`p--`). -/
def sanitizeCont : Nat → Nat → Nat → Nat → List UInt8 → Option Nat × List UInt8
  | 0, cp, _, _, p => (some cp, p)
  | _ + 1, _, _, _, [] => (none, [])
  | n + 1, cp, lower, upper, t :: p =>
    if lower ≤ t.toNat ∧ t.toNat ≤ upper then
      sanitizeCont n ((cp <<< 6) + (t.toNat &&& 0x3f)) 0x80 0xbf p
    else (none, t :: p)

/-- The 3-byte encoding of a low surrogate begins `p`: the look-ahead of lines 164-165. -/
def LowSurrogateAhead : List UInt8 → Prop
  | b0 :: b1 :: b2 :: _ =>
    b0.toNat = 0xed ∧ 0xb0 ≤ b1.toNat ∧ b1.toNat ≤ 0xbf ∧ 0x80 ≤ b2.toNat ∧ b2.toNat ≤ 0xbf
  | _ => False

instance : (p : List UInt8) → Decidable (LowSurrogateAhead p)
  | _ :: _ :: _ :: _ => inferInstanceAs (Decidable (_ ∧ _))
  | [] | [_] | [_, _] => isFalse id

/-- Lines 160-181: a high surrogate directly followed by the 3-byte encoding of a low surrogate
is combined with it, and `p` moves past the low surrogate. -/
def pairSurrogate (cp : Nat) (p : List UInt8) : Nat × List UInt8 :=
  if 0xd800 ≤ cp ∧ cp ≤ 0xdfff ∧ cp < 0xdc00 ∧ LowSurrogateAhead p then
    match p with
    | _ :: b1 :: b2 :: p' =>
      let hi := cp &&& 0x3ff
      let lo := ((b1.toNat &&& 0x0f) <<< 6) + (b2.toNat &&& 0x3f)
      (0x10000 + (hi <<< 10) + lo, p')
    | _ => (cp, p)
  else (cp, p)

/-- One iteration of the main loop (lines 85-209) after `t = *p++`: what it writes, and where
`p` is when it ends. -/
def sanitizeStep (t : UInt8) (p : List UInt8) : Emit × List UInt8 :=
  if t.toNat < 0x80 then (.ascii t, p)
  else
    match leadParams t with
    | none => (.replacement, p)
    | some (cp, numCont, lower, upper) =>
      match sanitizeCont numCont cp lower upper p with
      | (none, p) => (.replacement, p)
      | (some cp, p) => ((Emit.cp (pairSurrogate cp p).1), (pairSurrogate cp p).2)

theorem sanitizeCont_length_le (n cp lower upper : Nat) (p : List UInt8) :
    (sanitizeCont n cp lower upper p).2.length ≤ p.length := by
  induction n generalizing cp lower upper p with
  | zero => exact le_rfl
  | succ n ih =>
    cases p with
    | nil => exact le_rfl
    | cons t p =>
      simp only [sanitizeCont]
      split
      · exact (ih _ _ _ p).trans (Nat.le_succ _)
      · exact le_rfl

theorem pairSurrogate_length_le (cp : Nat) (p : List UInt8) :
    (pairSurrogate cp p).2.length ≤ p.length := by
  unfold pairSurrogate
  split
  · split <;> simp; omega
  · exact le_rfl

/-- An iteration consumes its first byte `t` at least: the rest is no longer than `p`. -/
theorem sanitizeStep_length_le (t : UInt8) (p : List UInt8) :
    (sanitizeStep t p).2.length ≤ p.length := by
  unfold sanitizeStep
  split
  · exact le_rfl
  rcases leadParams t with _ | ⟨cp, n, lower, upper⟩
  · exact le_rfl
  have hc := sanitizeCont_length_le n cp lower upper p
  dsimp only
  rcases hs : sanitizeCont n cp lower upper p with ⟨_ | v, r⟩ <;> rw [hs] at hc <;> dsimp only
  · exact hc
  · exact (pairSurrogate_length_le v r).trans hc

/-! ## The loop -/

/-- The main loop (lines 84-209): what each iteration writes, in order. -/
def sanitizeLoop : List UInt8 → List Emit
  | [] => []
  | t :: p => (sanitizeStep t p).1 :: sanitizeLoop (sanitizeStep t p).2
termination_by b => b.length
decreasing_by simp_wf; have := sanitizeStep_length_le t p; omega

/-- `duk__unicode_wtf8_sanitize_string_reference`: the bytes written to `out_data`. -/
def unicodeWtf8SanitizeStringReference (b : List UInt8) : List UInt8 :=
  (sanitizeLoop b).flatMap Emit.bytes

/-- `out_clen = out_blen - out_clen_sub` (lines 211-213), computed and then discarded. -/
def sanitizeOutClen (b : List UInt8) : Nat :=
  (unicodeWtf8SanitizeStringReference b).length - ((sanitizeLoop b).map Emit.clenSub).sum

/-- `duk_unicode_wtf8_sanitize_string`. -/
def unicodeWtf8SanitizeString (b : List UInt8) : List UInt8 :=
  unicodeWtf8SanitizeStringReference b

/-- `duk_unicode_wtf8_sanitize_symbol`: a symbol is copied 1:1. -/
def unicodeWtf8SanitizeSymbol (b : List UInt8) : List UInt8 := b

/-- The first byte of a symbol: 0x80, 0x81, 0x82 or 0xFF. -/
def IsSymbolMarker (ib : UInt8) : Prop := ib = 0x80 ∨ ib = 0x81 ∨ ib = 0x82 ∨ ib = 0xff

instance (ib : UInt8) : Decidable (IsSymbolMarker ib) := inferInstanceAs (Decidable (_ ∨ _))

/-- The classification of `duk_unicode_wtf8_sanitize_detect` (lines 239-253). -/
def detectSymbol : List UInt8 → Bool
  | [] => false
  | ib :: _ => if ib.toNat ≤ 0x7f then false else decide (IsSymbolMarker ib)

/-- `duk_unicode_wtf8_sanitize_detect`: the bytes a string is interned with. -/
def unicodeWtf8SanitizeDetect (b : List UInt8) : List UInt8 :=
  if detectSymbol b then unicodeWtf8SanitizeSymbol b else unicodeWtf8SanitizeString b

theorem sanitizeLoop_cons (t : UInt8) (p : List UInt8) :
    sanitizeLoop (t :: p) = (sanitizeStep t p).1 :: sanitizeLoop (sanitizeStep t p).2 := by
  rw [sanitizeLoop]

theorem sanitizeString_cons (t : UInt8) (p : List UInt8) :
    unicodeWtf8SanitizeString (t :: p) =
      (sanitizeStep t p).1.bytes ++ unicodeWtf8SanitizeString (sanitizeStep t p).2 := by
  simp only [unicodeWtf8SanitizeString, unicodeWtf8SanitizeStringReference, sanitizeLoop_cons,
    List.flatMap_cons]

@[simp] theorem sanitizeString_nil : unicodeWtf8SanitizeString [] = [] := by
  simp [unicodeWtf8SanitizeString, unicodeWtf8SanitizeStringReference, sanitizeLoop]

/-! ## What one iteration writes -/

/-- What an iteration may write: an ASCII byte, a code point in 0x80..0x10FFFF (the assertions
of lines 184-185), or U+FFFD. -/
def Emit.Valid : Emit → Prop
  | .ascii t => t.toNat < 0x80
  | .cp c => 0x80 ≤ c ∧ c ≤ 0x10FFFF
  | .replacement => True

theorem Emit.bytes_eq_encodeCp {e : Emit} (h : e.Valid) : e.bytes = encodeCp e.codepoint := by
  cases e with
  | ascii t => simp only [Emit.bytes, Emit.codepoint, encodeCp, if_pos (show t.toNat < 0x80 from h),
      uint8_ofNat_toNat]
  | cp c => rw [Emit.bytes, Emit.codepoint, encodeCp, if_neg (Nat.not_lt.mpr h.1)]
  | replacement => decide

theorem Emit.codepoint_le {e : Emit} (h : e.Valid) : e.codepoint ≤ 0x10FFFF := by
  cases e with
  | ascii t => exact (show t.toNat < 0x80 from h).le.trans (by decide)
  | cp c => exact h.2
  | replacement => decide

/-- The branch `leadParams` takes, by the range of a byte `t ≥ 0x80`. -/
theorem leadParams_cases {t : UInt8} (h : 0x80 ≤ t.toNat) :
    (t.toNat ≤ 0xc1 ∧ leadParams t = none) ∨
    (0xc1 < t.toNat ∧ t.toNat ≤ 0xdf ∧ leadParams t = some (t.toNat % 32, 1, 0x80, 0xbf)) ∨
    (0xdf < t.toNat ∧ t.toNat ≤ 0xef ∧
      leadParams t = some (t.toNat % 16, 2, if t.toNat = 0xe0 then 0xa0 else 0x80, 0xbf)) ∨
    (0xef < t.toNat ∧ t.toNat ≤ 0xf4 ∧ leadParams t = some (t.toNat % 8, 3,
      if t.toNat = 0xf0 then 0x90 else 0x80, if t.toNat = 0xf4 then 0x8f else 0xbf)) ∨
    (0xf4 < t.toNat ∧ leadParams t = none) := by
  unfold leadParams
  by_cases h1 : t.toNat ≥ 0xc2
  · rw [if_pos h1]
    by_cases h2 : t.toNat ≤ 0xdf; · exact .inr (.inl ⟨by omega, h2, by rw [if_pos h2, land_0x1f]⟩)
    rw [if_neg h2]
    by_cases h3 : t.toNat ≤ 0xef
    · exact .inr (.inr (.inl ⟨by omega, h3, by rw [if_pos h3, land_0x0f]⟩))
    rw [if_neg h3]
    by_cases h4 : t.toNat ≤ 0xf4
    · exact .inr (.inr (.inr (.inl ⟨by omega, h4, by rw [if_pos h4, land_0x07]⟩)))
    · exact .inr (.inr (.inr (.inr ⟨by omega, if_neg h4⟩)))
  · exact .inl ⟨by omega, if_neg h1⟩

theorem sanitizeCont_succ_of_mem {n cp lower upper : Nat} {b : UInt8} (ps : List UInt8)
    (hl : lower ≤ b.toNat) (hu : b.toNat ≤ upper) :
    sanitizeCont (n + 1) cp lower upper (b :: ps) =
      sanitizeCont n (cp * 64 + b.toNat % 64) 0x80 0xbf ps := by
  simp only [sanitizeCont, if_pos (And.intro hl hu), shiftLeft_6, land_0x3f]

theorem sanitizeCont_succ_eq_some {n cp lower upper c : Nat} {p q : List UInt8}
    (h : sanitizeCont (n + 1) cp lower upper p = (some c, q)) :
    ∃ b ps, p = b :: ps ∧ lower ≤ b.toNat ∧ b.toNat ≤ upper ∧
      sanitizeCont n (cp * 64 + b.toNat % 64) 0x80 0xbf ps = (some c, q) := by
  cases p with
  | nil => simp [sanitizeCont] at h
  | cons b ps =>
    by_cases hr : lower ≤ b.toNat ∧ b.toNat ≤ upper
    · exact ⟨b, ps, rfl, hr.1, hr.2, by rwa [sanitizeCont_succ_of_mem ps hr.1 hr.2] at h⟩
    · simp [sanitizeCont, if_neg hr] at h

theorem sanitizeStep_of_lt {t : UInt8} (h : t.toNat < 0x80) (p : List UInt8) :
    sanitizeStep t p = (.ascii t, p) := if_pos h

theorem sanitizeStep_of_lead {t : UInt8} (h : 0x80 ≤ t.toNat) {cp n lower upper : Nat}
    (hl : leadParams t = some (cp, n, lower, upper)) (p : List UInt8) :
    sanitizeStep t p = match sanitizeCont n cp lower upper p with
      | (none, p) => (.replacement, p)
      | (some cp, p) => (.cp (pairSurrogate cp p).1, (pairSurrogate cp p).2) := by
  rw [sanitizeStep, if_neg (by omega), hl]

/-- A lead byte is one of 0xC2..0xF4. -/
theorem leadParams_lead {t : UInt8} {x : Nat × Nat × Nat × Nat} (h : leadParams t = some x) :
    0xc2 ≤ t.toNat ∧ t.toNat ≤ 0xf4 := by
  by_cases h1 : 0xc2 ≤ t.toNat
  · refine ⟨h1, Nat.le_of_not_lt fun h2 => ?_⟩
    rw [leadParams, if_pos h1, if_neg (by omega), if_neg (by omega), if_neg (by omega)] at h
    cases h
  · rw [leadParams, if_neg h1] at h
    cases h

/-- Every range the continuation loop checks lies inside 0x80..0xBF, and none is empty. -/
theorem leadParams_range {t : UInt8} {cp n lower upper : Nat}
    (h : leadParams t = some (cp, n, lower, upper)) : 0x80 ≤ lower ∧ lower ≤ upper ∧ upper ≤ 0xbf := by
  rcases leadParams_cases (t := t) (by have := leadParams_lead h; omega) with ⟨-, hl⟩ |
    ⟨-, -, hl⟩ | ⟨-, -, hl⟩ | ⟨-, -, hl⟩ | ⟨-, hl⟩ <;> rw [hl] at h <;> cases h
  all_goals first | decide | split_ifs <;> first | decide | omega

/-- A continuation loop that decodes `c` has read the rest of the shortest-form encoding of `c`
after the lead byte. -/
theorem sanitizeCont_eq_some {t : UInt8} {cp n lower upper c : Nat} {p q : List UInt8}
    (hl : leadParams t = some (cp, n, lower, upper))
    (hs : sanitizeCont n cp lower upper p = (some c, q)) :
    ∃ cont, p = cont ++ q ∧ encodeCp c = t :: cont ∧ 0x80 ≤ c ∧ c ≤ 0x10FFFF := by
  rcases leadParams_cases (t := t) (by have := leadParams_lead hl; omega) with ⟨-, hl'⟩ |
    ⟨h1, h2, hl'⟩ | ⟨h1, h2, hl'⟩ | ⟨h1, h2, hl'⟩ | ⟨-, hl'⟩ <;> rw [hl'] at hl <;> cases hl
  · obtain ⟨b1, ps, rfl, l1, u1, hs'⟩ := sanitizeCont_succ_eq_some hs
    simp only [sanitizeCont, Prod.mk.injEq, Option.some.injEq] at hs'
    obtain ⟨rfl, rfl⟩ := hs'
    obtain ⟨hb, he⟩ := encodeCp_decodeSeq_two ⟨h1, h2⟩ ⟨l1, u1⟩
    simp only [decodeSeq] at hb he
    exact ⟨[b1], rfl, he, by omega, hb⟩
  · obtain ⟨b1, ps, rfl, l1, u1, hs'⟩ := sanitizeCont_succ_eq_some hs
    obtain ⟨b2, ps, rfl, l2, u2, hs'⟩ := sanitizeCont_succ_eq_some hs'
    simp only [sanitizeCont, Prod.mk.injEq, Option.some.injEq] at hs'
    obtain ⟨rfl, rfl⟩ := hs'
    obtain ⟨hb, he⟩ := encodeCp_decodeSeq_three ⟨h1, h2⟩ ⟨l1, u1⟩ ⟨l2, u2⟩
    have hv : decodeSeq [t, b1, b2] = (t.toNat % 16 * 64 + b1.toNat % 64) * 64 + b2.toNat % 64 := by
      simp only [decodeSeq]; omega
    rw [hv] at hb he
    exact ⟨[b1, b2], rfl, he, le_of_encodeCp_length (by simp [he]), hb⟩
  · obtain ⟨b1, ps, rfl, l1, u1, hs'⟩ := sanitizeCont_succ_eq_some hs
    obtain ⟨b2, ps, rfl, l2, u2, hs'⟩ := sanitizeCont_succ_eq_some hs'
    obtain ⟨b3, ps, rfl, l3, u3, hs'⟩ := sanitizeCont_succ_eq_some hs'
    simp only [sanitizeCont, Prod.mk.injEq, Option.some.injEq] at hs'
    obtain ⟨rfl, rfl⟩ := hs'
    obtain ⟨hb, he⟩ := encodeCp_decodeSeq_four ⟨h1, h2⟩ ⟨l1, u1⟩ ⟨l2, u2⟩ ⟨l3, u3⟩
    have hv : decodeSeq [t, b1, b2, b3] =
        ((t.toNat % 8 * 64 + b1.toNat % 64) * 64 + b2.toNat % 64) * 64 + b3.toNat % 64 := by
      simp only [decodeSeq]; omega
    rw [hv] at hb he
    exact ⟨[b1, b2, b3], rfl, he, le_of_encodeCp_length (by simp [he]), hb⟩

/-- A decoded sequence is the shortest-form encoding of its code point. -/
theorem sanitizeStep_eq_cp {t : UInt8} {p r : List UInt8} {v : Nat}
    (h : sanitizeStep t p = (.cp v, r)) :
    ∃ c cont q, p = cont ++ q ∧ encodeCp c = t :: cont ∧ 0x80 ≤ c ∧ c ≤ 0x10FFFF ∧
      pairSurrogate c q = (v, r) := by
  by_cases h0 : t.toNat < 0x80
  · rw [sanitizeStep_of_lt h0] at h; cases h
  rcases hl : leadParams t with _ | ⟨cp, n, lower, upper⟩
  · rw [sanitizeStep, if_neg h0, hl] at h; cases h
  rcases hs : sanitizeCont n cp lower upper p with ⟨_ | c, q⟩ <;>
    rw [sanitizeStep_of_lead (by omega) hl, hs] at h <;> simp only [Prod.mk.injEq, reduceCtorEq,
      false_and, Emit.cp.injEq] at h
  obtain ⟨cont, hp, he, h1, h2⟩ := sanitizeCont_eq_some hl hs
  exact ⟨c, cont, q, hp, he, h1, h2, Prod.ext h.1 h.2⟩

/-! ## The surrogate look-ahead -/

theorem lowSurrogateAhead_head {b0 : UInt8} {rest : List UInt8}
    (h : LowSurrogateAhead (b0 :: rest)) : b0.toNat = 0xed := by
  match rest, h with
  | _ :: _ :: _, h => exact h.1

/-- The look-ahead sees the encoding of a code point exactly when it is a low surrogate. -/
theorem lowSurrogateAhead_encodeCp_append {l : Nat} (hl : l ≤ 0x10FFFF) (r : List UInt8) :
    LowSurrogateAhead (encodeCp l ++ r) ↔ IsLowSurrogate l := by
  unfold IsLowSurrogate
  by_cases h1 : l < 0x80
  · obtain ⟨t, he, ht⟩ := encodeCp_one h1
    rw [he, List.singleton_append]
    exact ⟨fun h => absurd (lowSurrogateAhead_head h) (by omega), fun h => by omega⟩
  by_cases h2 : l < 0x800
  · obtain ⟨t, c1, he, ht, -⟩ := encodeCp_two (by omega) h2
    rw [he, List.cons_append]
    exact ⟨fun h => absurd (lowSurrogateAhead_head h) (by omega), fun h => by omega⟩
  by_cases h3 : l < 0x10000
  · obtain ⟨t, c1, c2, he, ht, h1, h2⟩ := encodeCp_three (by omega) h3
    rw [he, List.cons_append, List.cons_append, List.cons_append, LowSurrogateAhead, ht, h1, h2]
    omega
  · obtain ⟨t, c1, c2, c3, he, ht, -⟩ := encodeCp_four (by omega) hl
    rw [he, List.cons_append]
    exact ⟨fun h => absurd (lowSurrogateAhead_head h) (by omega), fun h => by omega⟩

theorem lowSurrogateAhead_encode {cs : List Nat} (hv : AllCodepoints cs) :
    LowSurrogateAhead (encode cs) ↔ ∃ l ∈ cs.head?, IsLowSurrogate l := by
  cases cs with
  | nil => simp [LowSurrogateAhead]
  | cons l cs =>
    rw [encode_cons, lowSurrogateAhead_encodeCp_append (hv l (by simp))]
    simp

/-- What the look-ahead of lines 160-181 does with a code point `c`. -/
theorem pairSurrogate_cases (c : Nat) (q : List UInt8) :
    (IsHighSurrogate c ∧ LowSurrogateAhead q ∧ ∃ b0 b1 b2 q', q = b0 :: b1 :: b2 :: q' ∧
      pairSurrogate c q = (0x10000 + c % 1024 * 1024 + (b1.toNat % 16 * 64 + b2.toNat % 64), q')) ∨
    (¬ (IsHighSurrogate c ∧ LowSurrogateAhead q) ∧ pairSurrogate c q = (c, q)) := by
  unfold pairSurrogate IsHighSurrogate
  by_cases h : 0xd800 ≤ c ∧ c ≤ 0xdfff ∧ c < 0xdc00 ∧ LowSurrogateAhead q
  · rw [if_pos h]
    match q, h with
    | b0 :: b1 :: b2 :: q', h =>
      refine .inl ⟨⟨h.1, by omega⟩, h.2.2.2, b0, b1, b2, q', rfl, ?_⟩
      simp only [land_0x3ff, land_0x0f, land_0x3f, shiftLeft_6, shiftLeft_10]
  · exact .inr ⟨fun h' => h ⟨h'.1.1, by omega, by omega, h'.2⟩, if_neg h⟩

theorem pairSurrogate_of_not {c : Nat} {q : List UInt8}
    (h : ¬ (IsHighSurrogate c ∧ LowSurrogateAhead q)) : pairSurrogate c q = (c, q) := by
  rcases pairSurrogate_cases c q with ⟨hh, hl, -⟩ | ⟨-, hp⟩
  · exact absurd ⟨hh, hl⟩ h
  · exact hp

/-- A high surrogate followed by the encoding of a low surrogate is combined with it. -/
theorem pairSurrogate_encodeCp_append {c l : Nat} (hc : IsHighSurrogate c)
    (hl : IsLowSurrogate l) (r : List UInt8) :
    pairSurrogate c (encodeCp l ++ r) = (combineSurrogates c l, r) := by
  have hla := (lowSurrogateAhead_encodeCp_append (by unfold IsLowSurrogate at hl; omega) r).mpr hl
  unfold IsHighSurrogate IsLowSurrogate at *
  obtain ⟨t, c1, c2, he, -, h1, h2⟩ := encodeCp_three (c := l) (by omega) (by omega)
  simp only [he, List.cons_append, List.nil_append] at hla ⊢
  rw [pairSurrogate, if_pos ⟨by omega, by omega, by omega, hla⟩]
  simp only [land_0x3ff, land_0x0f, land_0x3f, shiftLeft_6, shiftLeft_10, h1, h2, combineSurrogates,
    Prod.mk.injEq, and_true]
  omega

theorem pairSurrogate_fst_bounds {c : Nat} (h1 : 0x80 ≤ c) (h2 : c ≤ 0x10FFFF) (q : List UInt8) :
    0x80 ≤ (pairSurrogate c q).1 ∧ (pairSurrogate c q).1 ≤ 0x10FFFF := by
  rcases pairSurrogate_cases c q with ⟨-, -, b0, b1, b2, q', -, hp⟩ | ⟨-, hp⟩ <;> rw [hp]
  · omega
  · exact ⟨h1, h2⟩

/-- A high surrogate is written only when the look-ahead did not see a low one. -/
theorem pairSurrogate_high {c : Nat} {q : List UInt8}
    (h : IsHighSurrogate (pairSurrogate c q).1) :
    pairSurrogate c q = (c, q) ∧ ¬ LowSurrogateAhead q := by
  rcases pairSurrogate_cases c q with ⟨hh, -, b0, b1, b2, q', -, hp⟩ | ⟨hn, hp⟩
  · rw [hp] at h; unfold IsHighSurrogate at h; omega
  · rw [hp] at h ⊢; exact ⟨rfl, fun hl => hn ⟨h, hl⟩⟩

/-- A low surrogate is written only as it was read. -/
theorem pairSurrogate_low {c : Nat} {q : List UInt8} (h : IsLowSurrogate (pairSurrogate c q).1) :
    (pairSurrogate c q).1 = c := by
  rcases pairSurrogate_cases c q with ⟨-, -, b0, b1, b2, q', -, hp⟩ | ⟨-, hp⟩ <;> rw [hp] at h ⊢
  unfold IsLowSurrogate at h; omega

/-! ## Iterations over valid input -/

theorem leadParams_two {t : UInt8} (h1 : 0xc1 < t.toNat) (h2 : t.toNat ≤ 0xdf) :
    leadParams t = some (t.toNat % 32, 1, 0x80, 0xbf) := by
  rw [leadParams, if_pos (by omega), if_pos h2, land_0x1f]

theorem leadParams_three {t : UInt8} (h1 : 0xdf < t.toNat) (h2 : t.toNat ≤ 0xef) :
    leadParams t = some (t.toNat % 16, 2, if t.toNat = 0xe0 then 0xa0 else 0x80, 0xbf) := by
  rw [leadParams, if_pos (by omega), if_neg (by omega), if_pos h2, land_0x0f]

theorem leadParams_four {t : UInt8} (h1 : 0xef < t.toNat) (h2 : t.toNat ≤ 0xf4) :
    leadParams t = some (t.toNat % 8, 3, if t.toNat = 0xf0 then 0x90 else 0x80,
      if t.toNat = 0xf4 then 0x8f else 0xbf) := by
  rw [leadParams, if_pos (by omega), if_neg (by omega), if_neg (by omega), if_pos h2, land_0x07]

/-- On the encoding of a code point `c ≥ 0x80`, the continuation loop of its lead byte decodes
`c`: the sanitizer's range checks accept every shortest-form sequence. -/
theorem sanitizeCont_encodeCp {c : Nat} (h0 : 0x80 ≤ c) (hc : c ≤ 0x10FFFF) {t : UInt8}
    {cont : List UInt8} (he : encodeCp c = t :: cont) :
    ∃ cp n lower upper, leadParams t = some (cp, n, lower, upper) ∧
      ∀ r, sanitizeCont n cp lower upper (cont ++ r) = (some c, r) := by
  obtain ⟨t', rest, he', -, hd⟩ := encodeCp_read hc
  obtain ⟨rfl, rfl⟩ := List.cons.inj (he.symm.trans he')
  by_cases h2 : c < 0x800
  · obtain ⟨t', c1, he', ht1, ht2, hl1, hu1⟩ := encodeCp_two_ranges h0 h2
    obtain ⟨rfl, rfl⟩ := List.cons.inj (he.symm.trans he')
    refine ⟨_, _, _, _, leadParams_two ht1 ht2, fun r => ?_⟩
    rw [List.singleton_append, sanitizeCont_succ_of_mem r hl1 hu1, sanitizeCont, ← hd]
    rfl
  by_cases h3 : c < 0x10000
  · obtain ⟨t', c1, c2, he', ht1, ht2, hl1, hu1, hl2, hu2⟩ := encodeCp_three_ranges (by omega) h3
    obtain ⟨rfl, rfl⟩ := List.cons.inj (he.symm.trans he')
    have hv : (t.toNat % 16 * 64 + c1.toNat % 64) * 64 + c2.toNat % 64 = c := by
      rw [← hd, decodeSeq, Nat.add_mul, Nat.mul_assoc]
    refine ⟨_, _, _, _, leadParams_three ht1 ht2, fun r => ?_⟩
    rw [List.cons_append, List.singleton_append, sanitizeCont_succ_of_mem _ hl1 hu1,
      sanitizeCont_succ_of_mem r hl2 hu2, sanitizeCont, hv]
  · obtain ⟨t', c1, c2, c3, he', ht1, ht2, hl1, hu1, hl2, hu2, hl3, hu3⟩ :=
      encodeCp_four_ranges (by omega) hc
    obtain ⟨rfl, rfl⟩ := List.cons.inj (he.symm.trans he')
    have hv : ((t.toNat % 8 * 64 + c1.toNat % 64) * 64 + c2.toNat % 64) * 64 + c3.toNat % 64 = c := by
      rw [← hd, decodeSeq, Nat.add_mul, Nat.add_mul, Nat.add_mul, Nat.mul_assoc, Nat.mul_assoc,
        Nat.mul_assoc]
    refine ⟨_, _, _, _, leadParams_four ht1 ht2, fun r => ?_⟩
    rw [List.cons_append, List.cons_append, List.singleton_append, sanitizeCont_succ_of_mem _ hl1 hu1,
      sanitizeCont_succ_of_mem _ hl2 hu2, sanitizeCont_succ_of_mem r hl3 hu3, sanitizeCont, hv]

/-- On the encoding of a code point `c ≥ 0x80`, an iteration decodes `c` and hands it to the
look-ahead. -/
theorem sanitizeStep_encodeCp {c : Nat} (h0 : 0x80 ≤ c) (hc : c ≤ 0x10FFFF) {t : UInt8}
    {cont : List UInt8} (he : encodeCp c = t :: cont) (r : List UInt8) :
    sanitizeStep t (cont ++ r) = (.cp (pairSurrogate c r).1, (pairSurrogate c r).2) := by
  obtain ⟨cp, n, lower, upper, hl, hs⟩ := sanitizeCont_encodeCp h0 hc he
  rw [sanitizeStep_of_lead (by have := leadParams_lead hl; omega) hl, hs]

/-! ## What an iteration can do -/

theorem sanitizeStep_ne_ascii {t : UInt8} (h : 0x80 ≤ t.toNat) (p : List UInt8) (a : UInt8) :
    (sanitizeStep t p).1 ≠ .ascii a := by
  rw [sanitizeStep, if_neg (by omega)]
  rcases leadParams t with _ | ⟨cp, n, lower, upper⟩
  · simp
  dsimp only; split <;> simp

/-- Everything one iteration can do: copy an ASCII byte, write U+FFFD, or decode the
shortest-form encoding of a code point `c` and pass it through the look-ahead. -/
theorem sanitizeStep_cases (t : UInt8) (p : List UInt8) :
    (t.toNat < 0x80 ∧ sanitizeStep t p = (.ascii t, p)) ∨
    (sanitizeStep t p).1 = .replacement ∨
    (∃ c cont q, p = cont ++ q ∧ encodeCp c = t :: cont ∧ 0x80 ≤ c ∧ c ≤ 0x10FFFF ∧
      sanitizeStep t p = (.cp (pairSurrogate c q).1, (pairSurrogate c q).2)) := by
  by_cases h0 : t.toNat < 0x80
  · exact .inl ⟨h0, sanitizeStep_of_lt h0 p⟩
  rcases hs : sanitizeStep t p with ⟨_ | v | _, r⟩
  · exact absurd (congrArg Prod.fst hs) (sanitizeStep_ne_ascii (by omega) p _)
  · obtain ⟨c, cont, q, hp, he, h1, h2, hq⟩ := sanitizeStep_eq_cp hs
    exact .inr (.inr ⟨c, cont, q, hp, he, h1, h2, by rw [hq]⟩)
  · exact .inr (.inl rfl)

/-- Every iteration writes a well-formed `Emit`. -/
theorem sanitizeStep_valid (t : UInt8) (p : List UInt8) : (sanitizeStep t p).1.Valid := by
  rcases sanitizeStep_cases t p with ⟨h0, hs⟩ | hs | ⟨c, cont, q, -, -, h1, h2, hs⟩ <;> rw [hs]
  · exact h0
  · trivial
  · exact pairSurrogate_fst_bounds h1 h2 q

/-- An iteration that writes a high surrogate leaves no low surrogate in front of `p`. -/
theorem sanitizeStep_high {t : UInt8} {p : List UInt8}
    (h : IsHighSurrogate (sanitizeStep t p).1.codepoint) :
    ¬ LowSurrogateAhead (sanitizeStep t p).2 := by
  rcases sanitizeStep_cases t p with ⟨h0, hs⟩ | hs | ⟨c, cont, q, -, -, -, -, hs⟩
  · rw [hs] at h; unfold IsHighSurrogate at h; simp only [Emit.codepoint] at h; omega
  · rw [hs] at h; exact absurd h (by decide)
  · rw [hs] at h ⊢
    obtain ⟨hp, hn⟩ := pairSurrogate_high h
    rw [hp]; exact hn

/-- An iteration writes a low surrogate only when its input begins with one. -/
theorem sanitizeStep_low {t : UInt8} {p : List UInt8}
    (h : IsLowSurrogate (sanitizeStep t p).1.codepoint) : LowSurrogateAhead (t :: p) := by
  rcases sanitizeStep_cases t p with ⟨h0, hs⟩ | hs | ⟨c, cont, q, hp, he, -, h2, hs⟩
  · rw [hs] at h; unfold IsLowSurrogate at h; simp only [Emit.codepoint] at h; omega
  · rw [hs] at h; exact absurd h (by decide)
  · rw [hs] at h
    rw [pairSurrogate_low h] at h
    rw [hp, ← List.cons_append, ← he]
    exact (lowSurrogateAhead_encodeCp_append h2 q).mpr h

/-! ## The whole output -/

/-- The code points the sanitizer writes, in order. -/
def sanitizeCodepoints (b : List UInt8) : List Nat := (sanitizeLoop b).map Emit.codepoint

theorem sanitizeCodepoints_cons (t : UInt8) (p : List UInt8) :
    sanitizeCodepoints (t :: p) =
      (sanitizeStep t p).1.codepoint :: sanitizeCodepoints (sanitizeStep t p).2 := by
  rw [sanitizeCodepoints, sanitizeLoop_cons, List.map_cons]; rfl

theorem sanitizeLoop_valid (b : List UInt8) : ∀ e ∈ sanitizeLoop b, e.Valid := by
  induction b using sanitizeLoop.induct with
  | case1 => simp [sanitizeLoop]
  | case2 t p ih => rw [sanitizeLoop_cons]; exact List.forall_mem_cons.mpr ⟨sanitizeStep_valid t p, ih⟩

theorem sanitizeCodepoints_allCodepoints (b : List UInt8) : AllCodepoints (sanitizeCodepoints b) := by
  intro c hc
  obtain ⟨e, he, rfl⟩ := List.mem_map.mp hc
  exact Emit.codepoint_le (sanitizeLoop_valid b e he)

/-- The sanitizer writes the encoding of the code points it decodes. -/
theorem sanitizeString_eq_encode (b : List UInt8) :
    unicodeWtf8SanitizeString b = encode (sanitizeCodepoints b) := by
  induction b using sanitizeLoop.induct with
  | case1 => simp [sanitizeCodepoints, sanitizeLoop]
  | case2 t p ih =>
    rw [sanitizeString_cons, sanitizeCodepoints_cons, encode_cons, ih,
      Emit.bytes_eq_encodeCp (sanitizeStep_valid t p)]

/-- If the next code point written from `q` on is a low surrogate, `q` begins with one. -/
theorem lowSurrogateAhead_of_head {q : List UInt8} {d : Nat}
    (hd : d ∈ (sanitizeCodepoints q).head?) (hl : IsLowSurrogate d) : LowSurrogateAhead q := by
  cases q with
  | nil => simp [sanitizeCodepoints, sanitizeLoop] at hd
  | cons t p =>
    rw [sanitizeCodepoints_cons, List.head?_cons, Option.mem_def, Option.some.injEq] at hd
    exact sanitizeStep_low (hd ▸ hl)

/-- The sanitizer never writes a high surrogate directly followed by a low surrogate: the
look-ahead tests exactly the condition under which the next iteration would write one. -/
theorem sanitizeCodepoints_noSurrogatePair (b : List UInt8) :
    NoSurrogatePair (sanitizeCodepoints b) := by
  induction b using sanitizeLoop.induct with
  | case1 => simp [NoSurrogatePair, sanitizeCodepoints, sanitizeLoop]
  | case2 t p ih =>
    rw [NoSurrogatePair, sanitizeCodepoints_cons, List.chain'_cons']
    exact ⟨fun d hd ⟨hh, hl⟩ => sanitizeStep_high hh (lowSurrogateAhead_of_head hd hl), ih⟩

/-! ## Valid input -/

theorem sanitizeCodepoints_encodeCp_append {c : Nat} (hc : c ≤ 0x10FFFF) (r : List UInt8) :
    sanitizeCodepoints (encodeCp c ++ r) =
      (pairSurrogate c r).1 :: sanitizeCodepoints (pairSurrogate c r).2 := by
  by_cases h0 : c < 0x80
  · obtain ⟨t, he, ht⟩ := encodeCp_one h0
    have hp : pairSurrogate c r = (c, r) :=
      pairSurrogate_of_not fun h => by unfold IsHighSurrogate at h; omega
    rw [he, List.singleton_append, sanitizeCodepoints_cons, sanitizeStep_of_lt (by omega), hp]
    exact congrArg (· :: _) ht
  · obtain ⟨t, cont, he⟩ := List.exists_cons_of_length_pos (encodeCp_length_pos c)
    rw [he, List.cons_append, sanitizeCodepoints_cons, sanitizeStep_encodeCp (by omega) hc he]
    rfl

/-- On valid input the sanitizer decodes the code points and coalesces every surrogate pair. -/
theorem sanitizeCodepoints_encode {cps : List Nat} (hv : AllCodepoints cps) :
    sanitizeCodepoints (encode cps) = coalesce cps := by
  induction cps using coalesce.induct with
  | case1 => simp [sanitizeCodepoints, sanitizeLoop, coalesce]
  | case2 c =>
    rw [encode_cons, encode_nil, sanitizeCodepoints_encodeCp_append (hv c (by simp)),
      pairSurrogate_of_not (q := []) fun h => h.2]
    simp [sanitizeCodepoints, sanitizeLoop, coalesce]
  | case3 c d cs h ih =>
    rw [encode_cons, encode_cons, sanitizeCodepoints_encodeCp_append (hv c (by simp)),
      pairSurrogate_encodeCp_append h.1 h.2, coalesce, if_pos h,
      ih (fun x hx => hv x (by simp [hx]))]
  | case4 c d cs h ih =>
    have hla : ¬ (IsHighSurrogate c ∧ LowSurrogateAhead (encode (d :: cs))) := fun ⟨hh, hl⟩ => by
      obtain ⟨l, hl', hlow⟩ := (lowSurrogateAhead_encode (fun x hx => hv x (by simp [hx]))).mp hl
      simp only [List.head?_cons, Option.mem_def, Option.some.injEq] at hl'
      exact h ⟨hh, hl' ▸ hlow⟩
    rw [encode_cons c, sanitizeCodepoints_encodeCp_append (hv c (by simp)),
      pairSurrogate_of_not hla, coalesce, if_neg h,
      ih (fun x hx => hv x (List.mem_cons_of_mem c hx))]

end Duk
