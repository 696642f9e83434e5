import DuktapeWtf8.Unicode.Encoding

set_option autoImplicit false

/-! # The WTF-8 validator

`unicodeIsValidWtf8` is `duk_unicode_is_valid_wtf8` (`duk_unicode_wtf8.c`, lines 8-62). Its
loop walks a pointer `p` towards `p_end`; here `p` is the list of the bytes from `p` to `p_end`,
and `validStep` is one iteration of the loop. The loop reads `*p` only while `p != p_end`. A
multi-byte branch reads `p[1]`, `p[2]`, `p[3]` only after its guard `p_end - p >= n`, in the
order its `&&` chain evaluates them (`checkConts`). A read `p[k]` is `p[k]?`, so a read past
`p_end` would make the result `none`.

The validator accepts exactly the concatenations of shortest-form encodings of code points up
to U+10FFFF, surrogates included, and it never reads past the end of its input. An accepted
string is read back by `decode` (`encode_decode_of_valid`).
-/

namespace Duk

/-- The `&&` chain of a multi-byte branch from `p[k]` on: read each byte and check it against
its range, left to right. `none` is a read past `p_end`. -/
def checkConts (p : List UInt8) (k : Nat) : List (Nat × Nat) → Option Bool
  | [] => pure true
  | (lower, upper) :: rs => do
    let c ← p[k]?
    if lower ≤ c.toNat ∧ c.toNat ≤ upper then checkConts p (k + 1) rs else pure false

/-- A branch for an `n`-byte sequence: the guard `p_end - p >= n`, the checks of `p[1]` to
`p[n-1]`, then `p += n` (`some (some p')`) or `return 0` (`some none`). -/
def validSeq (p : List UInt8) (n : Nat) (ranges : List (Nat × Nat)) :
    Option (Option (List UInt8)) :=
  if p.length ≥ n then
    (checkConts p 1 ranges).map fun ok => if ok then some (p.drop n) else none
  else pure none

/-- One iteration of the loop of `duk_unicode_is_valid_wtf8` (lines 17-58) at `p = t :: rest`:
where `p` moves to, `some none` when the function returns 0, `none` for a read past `p_end`. -/
def validStep (t : UInt8) (rest : List UInt8) : Option (Option (List UInt8)) :=
  let p := t :: rest
  if t.toNat ≤ 0x7f then pure (some rest)
  else if t.toNat ≤ 0xc1 then pure none
  else if t.toNat ≤ 0xdf then validSeq p 2 [(0x80, 0xbf)]
  else if t.toNat ≤ 0xef then
    let lower := if t.toNat = 0xe0 then 0xa0 else 0x80
    validSeq p 3 [(lower, 0xbf), (0x80, 0xbf)]
  else if t.toNat ≤ 0xf4 then
    let lower := if t.toNat = 0xf0 then 0x90 else 0x80
    let upper := if t.toNat = 0xf4 then 0x8f else 0xbf
    validSeq p 4 [(lower, upper), (0x80, 0xbf), (0x80, 0xbf)]
  else pure none

/-- The branch one iteration takes, by the range of the byte at `p`. -/
theorem validStep_cases (t : UInt8) (rest : List UInt8) :
    (t.toNat ≤ 0x7f ∧ validStep t rest = some (some rest)) ∨
    (0x7f < t.toNat ∧ t.toNat ≤ 0xc1 ∧ validStep t rest = some none) ∨
    (0xc1 < t.toNat ∧ t.toNat ≤ 0xdf ∧
      validStep t rest = validSeq (t :: rest) 2 [(0x80, 0xbf)]) ∨
    (0xdf < t.toNat ∧ t.toNat ≤ 0xef ∧ validStep t rest =
      validSeq (t :: rest) 3 [(if t.toNat = 0xe0 then 0xa0 else 0x80, 0xbf), (0x80, 0xbf)]) ∨
    (0xef < t.toNat ∧ t.toNat ≤ 0xf4 ∧ validStep t rest = validSeq (t :: rest) 4
      [(if t.toNat = 0xf0 then 0x90 else 0x80, if t.toNat = 0xf4 then 0x8f else 0xbf),
        (0x80, 0xbf), (0x80, 0xbf)]) ∨
    (0xf4 < t.toNat ∧ validStep t rest = some none) := by
  unfold validStep
  by_cases h1 : t.toNat ≤ 0x7f; · exact .inl ⟨h1, if_pos h1⟩
  rw [if_neg h1]
  by_cases h2 : t.toNat ≤ 0xc1; · exact .inr (.inl ⟨by omega, h2, if_pos h2⟩)
  rw [if_neg h2]
  by_cases h3 : t.toNat ≤ 0xdf; · exact .inr (.inr (.inl ⟨by omega, h3, if_pos h3⟩))
  rw [if_neg h3]
  by_cases h4 : t.toNat ≤ 0xef; · exact .inr (.inr (.inr (.inl ⟨by omega, h4, if_pos h4⟩)))
  rw [if_neg h4]
  by_cases h5 : t.toNat ≤ 0xf4
  · exact .inr (.inr (.inr (.inr (.inl ⟨by omega, h5, if_pos h5⟩))))
  · exact .inr (.inr (.inr (.inr (.inr ⟨by omega, if_neg h5⟩))))

theorem validSeq_eq_some_some {p q : List UInt8} {n : Nat} {rs : List (Nat × Nat)} :
    validSeq p n rs = some (some q) ↔
      n ≤ p.length ∧ checkConts p 1 rs = some true ∧ q = p.drop n := by
  unfold validSeq
  split
  · simp only [Option.map_eq_some']
    constructor
    · rintro ⟨ok, hok, h⟩
      cases ok <;> simp_all
    · rintro ⟨-, hc, rfl⟩
      exact ⟨true, hc, rfl⟩
  · simp_all

theorem validStep_length {t : UInt8} {rest q : List UInt8}
    (h : validStep t rest = some (some q)) : q.length ≤ rest.length := by
  have hseq : ∀ n rs, 0 < n → validSeq (t :: rest) n rs = some (some q) →
      q.length ≤ rest.length := fun n rs hn h => by
    rw [(validSeq_eq_some_some.mp h).2.2]; simp; omega
  rcases validStep_cases t rest with ⟨-, hs⟩ | ⟨-, -, hs⟩ | ⟨-, -, hs⟩ | ⟨-, -, hs⟩ | ⟨-, -, hs⟩ |
    ⟨-, hs⟩ <;> rw [hs] at h
  · exact Option.some.inj (Option.some.inj h) ▸ le_rfl
  all_goals first | exact hseq _ _ (by decide) h | simp at h

/-- `duk_unicode_is_valid_wtf8`: `some true` when the bytes are valid WTF-8, `some false` when
not, `none` if it read past the end of its input. -/
def unicodeIsValidWtf8 : List UInt8 → Option Bool
  | [] => some true
  | t :: rest =>
    match h : validStep t rest with
    | some (some p) => unicodeIsValidWtf8 p
    | some none => some false
    | none => none
termination_by b => b.length
decreasing_by simp_wf; have := validStep_length h; omega

/-- The bytes are accepted by the validator. -/
def IsValidWtf8 (b : List UInt8) : Prop := unicodeIsValidWtf8 b = some true

instance (b : List UInt8) : Decidable (IsValidWtf8 b) := inferInstanceAs (Decidable (_ = _))

theorem unicodeIsValidWtf8_cons_of_step {t : UInt8} {rest q : List UInt8}
    (h : validStep t rest = some (some q)) : unicodeIsValidWtf8 (t :: rest) = unicodeIsValidWtf8 q := by
  rw [unicodeIsValidWtf8]; split <;> simp_all

/-! ## Memory safety -/

theorem checkConts_isSome {p : List UInt8} {k : Nat} {rs : List (Nat × Nat)}
    (h : k + rs.length ≤ p.length) : (checkConts p k rs).isSome := by
  induction rs generalizing k with
  | nil => rfl
  | cons r rs ih =>
    simp only [checkConts, List.getElem?_eq_getElem (show k < p.length by simp at h; omega),
      Option.pure_def, Option.bind_eq_bind, Option.some_bind]
    split
    · exact ih (by simp at h; omega)
    · rfl

theorem validStep_isSome (t : UInt8) (rest : List UInt8) : (validStep t rest).isSome := by
  have hseq : ∀ n rs, rs.length + 1 = n → (validSeq (t :: rest) n rs).isSome := fun n rs hn => by
    unfold validSeq; split
    · simpa using checkConts_isSome (by omega)
    · rfl
  rcases validStep_cases t rest with ⟨-, hs⟩ | ⟨-, -, hs⟩ | ⟨-, -, hs⟩ | ⟨-, -, hs⟩ | ⟨-, -, hs⟩ |
    ⟨-, hs⟩ <;> rw [hs] <;> first | rfl | exact hseq _ _ rfl

/-- The validator never reads outside `[data, data + blen)`. -/
theorem unicodeIsValidWtf8_isSome (b : List UInt8) : (unicodeIsValidWtf8 b).isSome := by
  induction b using unicodeIsValidWtf8.induct with
  | case1 => simp [unicodeIsValidWtf8]
  | case2 t rest p h ih => rwa [unicodeIsValidWtf8_cons_of_step h]
  | case3 t rest h => rw [unicodeIsValidWtf8]; split <;> simp_all
  | case4 t rest h => exact absurd h (Option.isSome_iff_ne_none.mp (validStep_isSome t rest))

/-! ## What one iteration accepts -/

theorem checkConts_cons_of_mem {p : List UInt8} {k : Nat} {c : UInt8} {lower upper : Nat}
    {rs : List (Nat × Nat)} (hc : p[k]? = some c) (hl : lower ≤ c.toNat) (hu : c.toNat ≤ upper) :
    checkConts p k ((lower, upper) :: rs) = checkConts p (k + 1) rs := by
  simp only [checkConts, hc, Option.pure_def, Option.bind_eq_bind, Option.some_bind,
    if_pos (And.intro hl hu)]

theorem checkConts_cons_eq_some_true {p : List UInt8} {k : Nat} {lower upper : Nat}
    {rs : List (Nat × Nat)} (h : checkConts p k ((lower, upper) :: rs) = some true) :
    ∃ c, p[k]? = some c ∧ lower ≤ c.toNat ∧ c.toNat ≤ upper ∧ checkConts p (k + 1) rs = some true := by
  simp only [checkConts, Option.pure_def, Option.bind_eq_bind, Option.bind_eq_some] at h
  obtain ⟨c, hc, h⟩ := h
  split at h
  next hr => exact ⟨c, hc, hr.1, hr.2, h⟩
  next => simp at h

theorem validSeq_of_checks {p : List UInt8} {n : Nat} {rs : List (Nat × Nat)} (hn : n ≤ p.length)
    (h : checkConts p 1 rs = some true) : validSeq p n rs = some (some (p.drop n)) :=
  validSeq_eq_some_some.mpr ⟨hn, h, rfl⟩

/-- One iteration steps over the encoding of a code point. -/
theorem validStep_encodeCp {c : Nat} (hc : c ≤ 0x10FFFF) {t : UInt8} {cont : List UInt8}
    (he : encodeCp c = t :: cont) (r : List UInt8) : validStep t (cont ++ r) = some (some r) := by
  by_cases h1 : c < 0x80
  · obtain ⟨t', he', ht⟩ := encodeCp_one h1
    obtain ⟨rfl, rfl⟩ := List.cons.inj (he.symm.trans he')
    rw [validStep, if_pos (by omega)]; rfl
  by_cases h2 : c < 0x800
  · obtain ⟨t', c1, he', ht1, ht2, hl1, hu1⟩ := encodeCp_two_ranges (by omega) h2
    obtain ⟨rfl, rfl⟩ := List.cons.inj (he.symm.trans he')
    rw [validStep, if_neg (by omega), if_neg (by omega), if_pos ht2]
    exact validSeq_of_checks (by simp)
      (by rw [checkConts_cons_of_mem (c := c1) (by simp) hl1 hu1]; rfl)
  by_cases h3 : c < 0x10000
  · obtain ⟨t', c1, c2, he', ht1, ht2, hl1, hu1, hl2, hu2⟩ := encodeCp_three_ranges (by omega) h3
    obtain ⟨rfl, rfl⟩ := List.cons.inj (he.symm.trans he')
    rw [validStep, if_neg (by omega), if_neg (by omega), if_neg (by omega), if_pos ht2]
    exact validSeq_of_checks (by simp) (by
      rw [checkConts_cons_of_mem (c := c1) (by simp) hl1 hu1,
        checkConts_cons_of_mem (c := c2) (by simp) hl2 hu2]; rfl)
  · obtain ⟨t', c1, c2, c3, he', ht1, ht2, hl1, hu1, hl2, hu2, hl3, hu3⟩ :=
      encodeCp_four_ranges (by omega) hc
    obtain ⟨rfl, rfl⟩ := List.cons.inj (he.symm.trans he')
    rw [validStep, if_neg (by omega), if_neg (by omega), if_neg (by omega), if_neg (by omega),
      if_pos ht2]
    exact validSeq_of_checks (by simp) (by
      rw [checkConts_cons_of_mem (c := c1) (by simp) hl1 hu1,
        checkConts_cons_of_mem (c := c2) (by simp) hl2 hu2,
        checkConts_cons_of_mem (c := c3) (by simp) hl3 hu3]; rfl)

theorem digits_two {a b : Nat} (hb : b < 64) : (a * 64 + b) / 64 = a ∧ (a * 64 + b) % 64 = b := by
  omega

theorem digits_three {a b d : Nat} (hb : b < 64) (hd : d < 64) :
    (a * 4096 + b * 64 + d) / 4096 = a ∧ (a * 4096 + b * 64 + d) / 64 % 64 = b ∧
      (a * 4096 + b * 64 + d) % 64 = d := by
  obtain ⟨q1, r1⟩ := digits_two (a := a * 64 + b) hd
  obtain ⟨q2, r2⟩ := digits_two (a := a) hb
  rw [show a * 4096 + b * 64 + d = (a * 64 + b) * 64 + d by omega, show 4096 = 64 * 64 from rfl,
    ← Nat.div_div_eq_div_mul, q1, q2, r1, r2]
  exact ⟨rfl, rfl, rfl⟩

theorem digits_four {a b d e : Nat} (hb : b < 64) (hd : d < 64) (he : e < 64) :
    (a * 262144 + b * 4096 + d * 64 + e) / 262144 = a ∧
      (a * 262144 + b * 4096 + d * 64 + e) / 4096 % 64 = b ∧
      (a * 262144 + b * 4096 + d * 64 + e) / 64 % 64 = d ∧
      (a * 262144 + b * 4096 + d * 64 + e) % 64 = e := by
  obtain ⟨q1, r1⟩ := digits_two (a := (a * 64 + b) * 64 + d) he
  obtain ⟨q2, r2⟩ := digits_two (a := a * 64 + b) hd
  obtain ⟨q3, r3⟩ := digits_two (a := a) hb
  rw [show a * 262144 + b * 4096 + d * 64 + e = ((a * 64 + b) * 64 + d) * 64 + e by omega,
    show 262144 = 64 * 64 * 64 from rfl, show 4096 = 64 * 64 from rfl, ← Nat.div_div_eq_div_mul,
    ← Nat.div_div_eq_div_mul, q1, q2, q3, r1, r2, r3]
  exact ⟨rfl, rfl, rfl, rfl⟩

theorem encodeCp_decodeSeq_two {t c1 : UInt8} (ht : 0xc1 < t.toNat ∧ t.toNat ≤ 0xdf)
    (h1 : 0x80 ≤ c1.toNat ∧ c1.toNat ≤ 0xbf) :
    decodeSeq [t, c1] ≤ 0x10FFFF ∧ encodeCp (decodeSeq [t, c1]) = [t, c1] := by
  have ha : t.toNat = 0xC0 + t.toNat % 32 := by omega
  have hb : c1.toNat = 0x80 + c1.toNat % 64 := by omega
  simp only [decodeSeq]
  generalize t.toNat % 32 = a at ha ⊢
  generalize c1.toNat % 64 = b at hb ⊢
  obtain ⟨t', c1', he, ht', h1'⟩ := encodeCp_two (c := a * 64 + b) (by omega) (by omega)
  obtain ⟨d1, d2⟩ := digits_two (a := a) (show b < 64 by omega)
  exact ⟨by omega, by rw [he, uint8_ext (a := t') (b := t) (by rw [ht', d1, ha]),
    uint8_ext (a := c1') (b := c1) (by rw [h1', d2, hb])]⟩

theorem encodeCp_decodeSeq_three {t c1 c2 : UInt8} (ht : 0xdf < t.toNat ∧ t.toNat ≤ 0xef)
    (h1 : (if t.toNat = 0xe0 then 0xa0 else 0x80) ≤ c1.toNat ∧ c1.toNat ≤ 0xbf)
    (h2 : 0x80 ≤ c2.toNat ∧ c2.toNat ≤ 0xbf) :
    decodeSeq [t, c1, c2] ≤ 0x10FFFF ∧ encodeCp (decodeSeq [t, c1, c2]) = [t, c1, c2] := by
  have hl : (t.toNat = 0xe0 → 0xa0 ≤ c1.toNat) ∧ 0x80 ≤ c1.toNat := by split at h1 <;> omega
  have ha : t.toNat = 0xE0 + t.toNat % 16 := by omega
  have hb : c1.toNat = 0x80 + c1.toNat % 64 := by omega
  have hd : c2.toNat = 0x80 + c2.toNat % 64 := by omega
  simp only [decodeSeq]
  generalize t.toNat % 16 = a at ha ⊢
  generalize c1.toNat % 64 = b at hb ⊢
  generalize c2.toNat % 64 = d at hd ⊢
  rw [ha, hb] at hl
  obtain ⟨t', c1', c2', he, ht', h1', h2'⟩ :=
    encodeCp_three (c := a * 4096 + b * 64 + d) (by omega) (by omega)
  obtain ⟨d1, d2, d3⟩ := digits_three (a := a) (show b < 64 by omega) (show d < 64 by omega)
  exact ⟨by omega, by rw [he, uint8_ext (a := t') (b := t) (by rw [ht', d1, ha]),
    uint8_ext (a := c1') (b := c1) (by rw [h1', d2, hb]),
    uint8_ext (a := c2') (b := c2) (by rw [h2', d3, hd])]⟩

theorem encodeCp_decodeSeq_four {t c1 c2 c3 : UInt8} (ht : 0xef < t.toNat ∧ t.toNat ≤ 0xf4)
    (h1 : (if t.toNat = 0xf0 then 0x90 else 0x80) ≤ c1.toNat ∧
      c1.toNat ≤ (if t.toNat = 0xf4 then 0x8f else 0xbf))
    (h2 : 0x80 ≤ c2.toNat ∧ c2.toNat ≤ 0xbf) (h3 : 0x80 ≤ c3.toNat ∧ c3.toNat ≤ 0xbf) :
    decodeSeq [t, c1, c2, c3] ≤ 0x10FFFF ∧
      encodeCp (decodeSeq [t, c1, c2, c3]) = [t, c1, c2, c3] := by
  have hl : (t.toNat = 0xf0 → 0x90 ≤ c1.toNat) ∧ (t.toNat = 0xf4 → c1.toNat ≤ 0x8f) ∧
      0x80 ≤ c1.toNat ∧ c1.toNat ≤ 0xbf := by
    obtain ⟨h1, h1'⟩ := h1; split at h1 <;> split at h1' <;> omega
  have ha : t.toNat = 0xF0 + t.toNat % 8 := by omega
  have hb : c1.toNat = 0x80 + c1.toNat % 64 := by omega
  have hd : c2.toNat = 0x80 + c2.toNat % 64 := by omega
  have he : c3.toNat = 0x80 + c3.toNat % 64 := by omega
  simp only [decodeSeq]
  generalize t.toNat % 8 = a at ha ⊢
  generalize c1.toNat % 64 = b at hb ⊢
  generalize c2.toNat % 64 = d at hd ⊢
  generalize c3.toNat % 64 = e at he ⊢
  rw [ha, hb] at hl
  have hbound : a * 262144 + b * 4096 + d * 64 + e ≤ 0x10FFFF := by omega
  obtain ⟨t', c1', c2', c3', hen, ht', h1', h2', h3'⟩ :=
    encodeCp_four (c := a * 262144 + b * 4096 + d * 64 + e) (by omega) hbound
  obtain ⟨d1, d2, d3, d4⟩ :=
    digits_four (a := a) (show b < 64 by omega) (show d < 64 by omega) (show e < 64 by omega)
  exact ⟨hbound, by rw [hen, uint8_ext (a := t') (b := t) (by rw [ht', d1, ha]),
    uint8_ext (a := c1') (b := c1) (by rw [h1', d2, hb]),
    uint8_ext (a := c2') (b := c2) (by rw [h2', d3, hd]),
    uint8_ext (a := c3') (b := c3) (by rw [h3', d4, he])]⟩

/-- One accepted iteration steps over exactly the encoding of a code point. -/
theorem validStep_inv {t : UInt8} {rest q : List UInt8} (h : validStep t rest = some (some q)) :
    ∃ c, c ≤ 0x10FFFF ∧ t :: rest = encodeCp c ++ q := by
  rcases validStep_cases t rest with ⟨h1, hs⟩ | ⟨-, -, hs⟩ | ⟨h2, h3, hs⟩ | ⟨h3, h4, hs⟩ |
    ⟨h4, h5, hs⟩ | ⟨-, hs⟩ <;> rw [hs] at h
  · obtain rfl := Option.some.inj (Option.some.inj h)
    exact ⟨t.toNat, by omega, by rw [encodeCp, if_pos (by omega), uint8_ofNat_toNat]; rfl⟩
  · simp at h
  · obtain ⟨-, hc, rfl⟩ := validSeq_eq_some_some.mp h
    obtain ⟨c1, hc1, l1, u1, -⟩ := checkConts_cons_eq_some_true hc
    obtain ⟨q, rfl⟩ : ∃ q, rest = c1 :: q := by
      match rest, hc1 with
      | _ :: q, hc1 => exact ⟨q, by simpa using hc1⟩
    obtain ⟨hb, he⟩ := encodeCp_decodeSeq_two ⟨h2, h3⟩ ⟨l1, u1⟩
    exact ⟨_, hb, by rw [he]; rfl⟩
  · obtain ⟨-, hc, rfl⟩ := validSeq_eq_some_some.mp h
    obtain ⟨c1, hc1, l1, u1, hc⟩ := checkConts_cons_eq_some_true hc
    obtain ⟨c2, hc2, l2, u2, -⟩ := checkConts_cons_eq_some_true hc
    obtain ⟨q, rfl⟩ : ∃ q, rest = c1 :: c2 :: q := by
      match rest, hc1, hc2 with
      | _ :: _ :: q, hc1, hc2 => exact ⟨q, by simp_all⟩
    obtain ⟨hb, he⟩ := encodeCp_decodeSeq_three ⟨h3, h4⟩ ⟨l1, u1⟩ ⟨l2, u2⟩
    exact ⟨_, hb, by rw [he]; rfl⟩
  · obtain ⟨-, hc, rfl⟩ := validSeq_eq_some_some.mp h
    obtain ⟨c1, hc1, l1, u1, hc⟩ := checkConts_cons_eq_some_true hc
    obtain ⟨c2, hc2, l2, u2, hc⟩ := checkConts_cons_eq_some_true hc
    obtain ⟨c3, hc3, l3, u3, -⟩ := checkConts_cons_eq_some_true hc
    obtain ⟨q, rfl⟩ : ∃ q, rest = c1 :: c2 :: c3 :: q := by
      match rest, hc1, hc2, hc3 with
      | _ :: _ :: _ :: q, hc1, hc2, hc3 => exact ⟨q, by simp_all⟩
    obtain ⟨hb, he⟩ := encodeCp_decodeSeq_four ⟨h4, h5⟩ ⟨l1, u1⟩ ⟨l2, u2⟩ ⟨l3, u3⟩
    exact ⟨_, hb, by rw [he]; rfl⟩
  · simp at h

/-! ## The accepted language -/

/-- After the encoding of a code point the validator goes on as on what follows it. -/
theorem unicodeIsValidWtf8_encodeCp_append {c : Nat} (hc : c ≤ 0x10FFFF) (r : List UInt8) :
    unicodeIsValidWtf8 (encodeCp c ++ r) = unicodeIsValidWtf8 r := by
  obtain ⟨t, cont, he, -, -⟩ := encodeCp_shape hc
  rw [he, List.cons_append, unicodeIsValidWtf8_cons_of_step (validStep_encodeCp hc he r)]

theorem isValidWtf8_encodeCp_append_iff {c : Nat} (hc : c ≤ 0x10FFFF) (r : List UInt8) :
    IsValidWtf8 (encodeCp c ++ r) ↔ IsValidWtf8 r := by
  rw [IsValidWtf8, IsValidWtf8, unicodeIsValidWtf8_encodeCp_append hc]

theorem unicodeIsValidWtf8_encode_append {cps : List Nat} (hv : AllCodepoints cps)
    (r : List UInt8) : unicodeIsValidWtf8 (encode cps ++ r) = unicodeIsValidWtf8 r := by
  induction cps with
  | nil => rfl
  | cons c cs ih =>
    rw [encode_cons, List.append_assoc, unicodeIsValidWtf8_encodeCp_append (hv c (by simp)),
      ih (fun x hx => hv x (List.mem_cons_of_mem c hx))]

theorem unicodeIsValidWtf8_encode {cps : List Nat} (hv : AllCodepoints cps) :
    IsValidWtf8 (encode cps) := by
  rw [IsValidWtf8, ← List.append_nil (encode cps), unicodeIsValidWtf8_encode_append hv,
    unicodeIsValidWtf8]

/-- An accepted string is the encoding of the code points `decode` reads from it. -/
theorem encode_decode_of_valid {b : List UInt8} (h : IsValidWtf8 b) :
    AllCodepoints (decode b) ∧ encode (decode b) = b := by
  induction b using unicodeIsValidWtf8.induct with
  | case1 => exact ⟨by simp [decode, AllCodepoints], by simp [decode]⟩
  | case2 t rest q hs ih =>
    obtain ⟨c, hc, he⟩ := validStep_inv hs
    obtain ⟨ih1, ih2⟩ := ih (by rwa [IsValidWtf8, ← unicodeIsValidWtf8_cons_of_step hs])
    rw [he, decode_encodeCp_append hc]
    refine ⟨fun x hx => ?_, by rw [encode_cons, ih2]⟩
    rcases List.mem_cons.mp hx with rfl | hx
    · exact hc
    · exact ih1 x hx
  | case3 t rest hs => rw [IsValidWtf8, unicodeIsValidWtf8] at h; split at h <;> simp_all
  | case4 t rest hs => rw [IsValidWtf8, unicodeIsValidWtf8] at h; split at h <;> simp_all

/-- **The validator accepts exactly the concatenations of shortest-form encodings of code
points up to U+10FFFF**, surrogates included, and it never reads outside its input. -/
theorem unicodeIsValidWtf8_iff_encode (b : List UInt8) :
    (unicodeIsValidWtf8 b = some true ↔ ∃ cps, AllCodepoints cps ∧ b = encode cps) ∧
      (unicodeIsValidWtf8 b).isSome :=
  ⟨⟨fun h => ⟨decode b, (encode_decode_of_valid h).1, (encode_decode_of_valid h).2.symm⟩,
    fun ⟨_, hv, hb⟩ => hb ▸ unicodeIsValidWtf8_encode hv⟩, unicodeIsValidWtf8_isSome b⟩

/-! ## Concatenation

The validator reads one sequence per iteration and carries nothing from one to the next. After
a valid prefix it therefore goes on as on the rest alone, and a valid string cut anywhere gives
two valid parts or two invalid ones: a cut inside a sequence leaves a truncated sequence before
it and a continuation byte after it. -/

/-- An accepted string starts with no continuation byte: the branch for 0x80..0xC1 returns 0. -/
theorem isValidWtf8_head {x : UInt8} {r : List UInt8} (h : IsValidWtf8 (x :: r)) :
    ¬ (0x80 ≤ x.toNat ∧ x.toNat ≤ 0xbf) := by
  intro hx
  rcases validStep_cases x r with ⟨h1, -⟩ | ⟨-, -, hs⟩ | ⟨h2, -⟩ | ⟨h2, -⟩ | ⟨h2, -⟩ | ⟨h2, -⟩
  all_goals try omega
  rw [IsValidWtf8, unicodeIsValidWtf8] at h
  split at h <;> simp_all

/-- Cut the encoding of code points anywhere: the part before the cut is the encoding of the
code points before it, or the part after the cut starts with a continuation byte. -/
theorem encode_eq_append {cps : List Nat} (hv : AllCodepoints cps) {a b : List UInt8}
    (h : encode cps = a ++ b) :
    (∃ cs, AllCodepoints cs ∧ a = encode cs) ∨
      ∃ x r, b = x :: r ∧ 0x80 ≤ x.toNat ∧ x.toNat ≤ 0xbf := by
  induction cps generalizing a with
  | nil => exact .inl ⟨[], nofun, (List.append_eq_nil.mp h.symm).1⟩
  | cons c cs ih =>
    have hc := hv c (List.mem_cons_self c cs)
    rw [encode_cons] at h
    rcases List.append_eq_append_iff.mp h with ⟨a', rfl, h'⟩ | ⟨c', he, rfl⟩
    · rcases ih (fun x hx => hv x (List.mem_cons_of_mem c hx)) h' with ⟨cs', hv', rfl⟩ | hb
      · exact .inl ⟨c :: cs', List.forall_mem_cons.mpr ⟨hc, hv'⟩, rfl⟩
      · exact .inr hb
    · obtain ⟨t, rest, ht, -, hcont⟩ := encodeCp_shape hc
      rcases a with _ | ⟨a0, a⟩
      · exact .inl ⟨[], nofun, rfl⟩
      rcases c' with _ | ⟨x, c'⟩
      · exact .inl ⟨[c], by simpa [AllCodepoints] using hc,
          by rw [encode_cons, encode_nil, he, List.append_nil, List.append_nil]⟩
      rw [ht, List.cons_append, List.cons.injEq] at he
      exact .inr ⟨x, _, rfl, hcont x (by rw [he.2]; simp)⟩

theorem isValidWtf8_append_of_valid {a b : List UInt8} (ha : IsValidWtf8 a) (hb : IsValidWtf8 b) :
    IsValidWtf8 (a ++ b) := by
  obtain ⟨hv, he⟩ := encode_decode_of_valid ha
  rwa [IsValidWtf8, ← he, unicodeIsValidWtf8_encode_append hv]

/-- A valid string that ends in the encoding of a code point is valid without it. -/
theorem isValidWtf8_of_append_encodeCp {a : List UInt8} {c : Nat} (hc : c ≤ 0x10FFFF)
    (h : IsValidWtf8 (a ++ encodeCp c)) : IsValidWtf8 a := by
  obtain ⟨hv, he⟩ := encode_decode_of_valid h
  obtain ⟨t, rest, ht, hlead, -⟩ := encodeCp_shape hc
  rcases encode_eq_append hv he with ⟨cs, hcs, rfl⟩ | ⟨x, r, hx, hcont⟩
  · exact unicodeIsValidWtf8_encode hcs
  · rw [ht, List.cons.injEq] at hx
    rw [hx.1] at hlead
    omega

/-- The ECMAScript view of two valid strings one after the other is their two views. -/
theorem utf16_append_of_valid {a b : List UInt8} (ha : IsValidWtf8 a) (hb : IsValidWtf8 b) :
    utf16 (a ++ b) = utf16 a ++ utf16 b := by
  obtain ⟨hva, hea⟩ := encode_decode_of_valid ha
  obtain ⟨hvb, heb⟩ := encode_decode_of_valid hb
  rw [← hea, ← heb, ← encode_append,
    utf16_encode fun x hx => (List.mem_append.mp hx).elim (hva x) (hvb x), utf16_encode hva,
    utf16_encode hvb, toUtf16_append]

/-- **After a valid prefix the validator goes on exactly as on the rest alone.** -/
theorem unicodeIsValidWtf8_append {a : List UInt8} (ha : IsValidWtf8 a) (b : List UInt8) :
    unicodeIsValidWtf8 (a ++ b) = unicodeIsValidWtf8 b := by
  obtain ⟨hv, he⟩ := encode_decode_of_valid ha
  rw [← he, unicodeIsValidWtf8_encode_append hv]

/-- "A" is valid, so the validator treats "A\x80" as it treats "\x80". -/
theorem unicodeIsValidWtf8_append_ascii :
    IsValidWtf8 [0x41] ∧ unicodeIsValidWtf8 ([0x41] ++ [0x80]) = unicodeIsValidWtf8 [0x80] :=
  have ha : IsValidWtf8 [0x41] := unicodeIsValidWtf8_encode (show AllCodepoints [0x41] by simp [AllCodepoints])
  ⟨ha, unicodeIsValidWtf8_append ha [0x80]⟩

/-- **A valid string cut anywhere gives two valid parts or two invalid ones.** -/
theorem isValidWtf8_append_iff {a b : List UInt8} (h : IsValidWtf8 (a ++ b)) :
    IsValidWtf8 a ↔ IsValidWtf8 b := by
  constructor
  · intro ha
    obtain ⟨hva, hea⟩ := encode_decode_of_valid ha
    rwa [IsValidWtf8, ← unicodeIsValidWtf8_encode_append hva b, hea]
  · intro hb
    obtain ⟨hv, he⟩ := encode_decode_of_valid h
    rcases encode_eq_append hv he with ⟨cs, hcs, rfl⟩ | ⟨x, r, rfl, hx⟩
    · exact unicodeIsValidWtf8_encode hcs
    · exact absurd hx (isValidWtf8_head hb)

/-- "é" cut after its lead byte: `C3` and `A9` are both invalid. -/
theorem isValidWtf8_append_iff_split :
    IsValidWtf8 ([0xC3] ++ [0xA9]) ∧ (IsValidWtf8 [0xC3] ↔ IsValidWtf8 [0xA9]) :=
  have h : IsValidWtf8 ([0xC3] ++ [0xA9]) :=
    unicodeIsValidWtf8_encode (show AllCodepoints [0xE9] by simp [AllCodepoints])
  ⟨h, isValidWtf8_append_iff h⟩

end Duk
