import DuktapeWtf8.Sanitize.Reference

set_option autoImplicit false

/-! # What the sanitizer writes, piece by piece

`duk__unicode_wtf8_sanitize_string_reference` (`duk_unicode_wtf8.c`, lines 67-217) reads its
input in pieces, one per iteration of the main loop, and writes one `Emit` per piece. `Decodes`
says which pieces there are, with no loop and no pointer:

* an ASCII byte, copied;
* the shortest-form encoding of a code point `c ≥ 0x80`, written as `c`, unless `c` is a high
  surrogate and the encoding of a low surrogate follows;
* the encoding of a high surrogate and that of a low surrogate after it, written as the code
  point of the pair;
* a *maximal subpart*, written as U+FFFD: bytes that are not the encoding of a code point, that
  are one byte or begin such an encoding, and that the next byte does not continue
  (`MaximalSubpart`).

The pieces are determined by the input, and they are what the loop reads:
`sanitizeLoop b = es ↔ Decodes b es`. So the sanitizer replaces every maximal subpart, and
nothing else, by one U+FFFD; the validator accepts exactly the inputs with no such piece; and
over a valid prefix the sanitizer works on the two parts of a concatenation separately, unless
a surrogate pair is cut.
-/

namespace Duk

/-! ## Maximal subparts -/

/-- The bytes begin the encoding of a code point up to U+10FFFF, surrogates included. -/
def IsEncodingPrefix (u : List UInt8) : Prop := ∃ c, c ≤ 0x10FFFF ∧ u <+: encodeCp c

/-- The bytes begin with the encoding of a low surrogate. -/
def StartsLowSurrogate (p : List UInt8) : Prop :=
  ∃ lo r, IsLowSurrogate lo ∧ p = encodeCp lo ++ r

/-- `u`, followed by `rest`, is a maximal subpart: it is not the encoding of a code point, it is
one byte or begins such an encoding, and the next byte does not continue that beginning. -/
def MaximalSubpart (u rest : List UInt8) : Prop :=
  u ≠ [] ∧ (∀ c, c ≤ 0x10FFFF → encodeCp c ≠ u) ∧ (u.length = 1 ∨ IsEncodingPrefix u) ∧
    ∀ x ∈ rest.head?, ¬ IsEncodingPrefix (u ++ [x])

theorem IsEncodingPrefix.of_prefix {u v : List UInt8} (hv : IsEncodingPrefix v) (h : u <+: v) :
    IsEncodingPrefix u :=
  let ⟨c, hc, hp⟩ := hv
  ⟨c, hc, h.trans hp⟩

/-- An encoding that begins with a byte `≥ 0x80` is that of a code point `≥ 0x80`. -/
theorem le_of_encodeCp_eq_cons {c : Nat} {t : UInt8} {cont : List UInt8}
    (he : encodeCp c = t :: cont) (ht : 0x80 ≤ t.toNat) : 0x80 ≤ c := by
  by_contra h
  obtain ⟨t', he', ht'⟩ := encodeCp_one (show c < 0x80 by omega)
  obtain ⟨rfl, -⟩ := List.cons.inj (he.symm.trans he')
  omega

/-- Among the bytes `≥ 0x80`, only the lead bytes of the sanitizer begin an encoding. -/
theorem leadParams_of_isEncodingPrefix {t : UInt8} {v : List UInt8}
    (h : IsEncodingPrefix (t :: v)) (ht : 0x80 ≤ t.toNat) : ∃ x, leadParams t = some x := by
  obtain ⟨c, hc, w, hw⟩ := h
  obtain ⟨cp, n, lower, upper, hl, -⟩ :=
    sanitizeCont_encodeCp (le_of_encodeCp_eq_cons hw.symm ht) hc hw.symm
  exact ⟨_, hl⟩

/-- No two encodings of code points begin the same bytes. -/
theorem encodeCp_append_inj {c d : Nat} (hc : c ≤ 0x10FFFF) (hd : d ≤ 0x10FFFF)
    {x y : List UInt8} (h : encodeCp c ++ x = encodeCp d ++ y) : c = d ∧ x = y := by
  have hdec := congrArg decode h
  rw [decode_encodeCp_append hc, decode_encodeCp_append hd] at hdec
  obtain rfl := (List.cons.inj hdec).1
  exact ⟨rfl, List.append_cancel_left h⟩

/-- No encoding of a code point begins where a maximal subpart does. -/
theorem MaximalSubpart.append_ne {u rest : List UInt8} (hu : MaximalSubpart u rest) {c : Nat}
    (hc : c ≤ 0x10FFFF) (q : List UInt8) : u ++ rest ≠ encodeCp c ++ q := by
  obtain ⟨-, hnot, hpre, hmax⟩ := hu
  intro h
  rcases List.append_eq_append_iff.mp h with ⟨a, he, rfl⟩ | ⟨a, rfl, -⟩
  · rcases a with _ | ⟨x, a⟩
    · exact hnot c hc (by rw [he, List.append_nil])
    · exact hmax x rfl ⟨c, hc, a, by rw [he, List.append_assoc, List.singleton_append]⟩
  · have ha : a = [] := by
      rcases hpre with h1 | ⟨d, hd, w, hw⟩
      · have := encodeCp_length_pos c
        rw [List.length_append] at h1
        exact List.length_eq_zero.mp (by omega)
      · rw [List.append_assoc] at hw
        exact (List.append_eq_nil.mp
          (encodeCp_append_inj hc hd (hw.trans (List.append_nil _).symm)).2).1
    exact hnot c hc (by rw [ha, List.append_nil])

/-- A maximal subpart is not extended by another one. -/
theorem MaximalSubpart.eq_nil_of_append {u rest a r : List UInt8} (hu : MaximalSubpart u rest)
    (hv : MaximalSubpart (u ++ a) r) (h : rest = a ++ r) : a = [] := by
  rcases a with _ | ⟨x, a⟩
  · rfl
  subst h
  rcases hv.2.2.1 with h1 | hp
  · have := List.length_pos.mpr hu.1
    simp only [List.length_append, List.length_cons] at h1
    omega
  · exact absurd (hp.of_prefix ⟨a, by rw [List.append_assoc, List.singleton_append]⟩)
      (hu.2.2.2 x rfl)

/-- Two maximal subparts at the same place are equal. -/
theorem MaximalSubpart.eq_of_append {u rest v r : List UInt8} (hu : MaximalSubpart u rest)
    (hv : MaximalSubpart v r) (h : u ++ rest = v ++ r) : u = v := by
  rcases List.append_eq_append_iff.mp h with ⟨a, rfl, hr⟩ | ⟨a, rfl, hr⟩
  · rw [hu.eq_nil_of_append hv hr, List.append_nil]
  · rw [hv.eq_nil_of_append hu hr, List.append_nil]

/-! ## The continuation loop on a prefix

After a lead byte `t`, the continuation loop of lines 141-158 checks each byte against the range
the next byte of an encoding beginning with `t` must lie in. So it reads all of some bytes `v`
exactly when `t :: v` begins an encoding (`isEncodingPrefix_lead_iff`), and where it stops with
`goto replacement`, the bytes it read are a maximal subpart. -/

theorem sanitizeCont_nil_snd (n cp lower upper : Nat) : (sanitizeCont n cp lower upper []).2 = [] := by
  cases n <;> rfl

/-- If the continuation loop reads all of `v ++ w`, it reads all of `v`. -/
theorem sanitizeCont_snd_of_append {n cp lower upper : Nat} {v w : List UInt8}
    (h : (sanitizeCont n cp lower upper (v ++ w)).2 = []) :
    (sanitizeCont n cp lower upper v).2 = [] := by
  induction n generalizing cp lower upper v with
  | zero => exact (List.append_eq_nil.mp h).1
  | succ n ih =>
    cases v with
    | nil => rfl
    | cons y v =>
      by_cases hy : lower ≤ y.toNat ∧ y.toNat ≤ upper
      · rw [List.cons_append, sanitizeCont, if_pos hy] at h
        rw [sanitizeCont, if_pos hy]
        exact ih h
      · rw [List.cons_append, sanitizeCont, if_neg hy] at h
        cases h

/-- Where the continuation loop stops with `goto replacement`: after the bytes `v` it accepted,
at `p_end` or at the first byte it rejects, which it leaves unread. -/
theorem sanitizeCont_eq_none {n cp lower upper : Nat} {p r : List UInt8}
    (h : sanitizeCont n cp lower upper p = (none, r)) :
    ∃ v, p = v ++ r ∧ sanitizeCont n cp lower upper v = (none, []) ∧
      ∀ x ∈ r.head?, sanitizeCont n cp lower upper (v ++ [x]) = (none, [x]) := by
  induction n generalizing cp lower upper p with
  | zero => cases h
  | succ n ih =>
    cases p with
    | nil =>
      cases h
      exact ⟨[], rfl, rfl, nofun⟩
    | cons y p =>
      by_cases hy : lower ≤ y.toNat ∧ y.toNat ≤ upper
      · rw [sanitizeCont, if_pos hy] at h
        obtain ⟨v, rfl, hv, hx⟩ := ih h
        refine ⟨y :: v, rfl, by rw [sanitizeCont, if_pos hy, hv], fun x hr => ?_⟩
        rw [List.cons_append, sanitizeCont, if_pos hy, hx x hr]
      · rw [sanitizeCont, if_neg hy] at h
        cases h
        refine ⟨[], rfl, rfl, fun x hr => ?_⟩
        obtain rfl : y = x := Option.some.inj hr
        rw [List.nil_append, sanitizeCont, if_neg hy]

/-- A continuation loop that has read all of its input so far completes on some more bytes. -/
theorem sanitizeCont_complete {n cp lower upper : Nat} {v : List UInt8} (hlu : lower ≤ upper)
    (hu : upper ≤ 0xbf) (h : (sanitizeCont n cp lower upper v).2 = []) :
    ∃ w c, sanitizeCont n cp lower upper (v ++ w) = (some c, []) := by
  induction n generalizing cp lower upper v with
  | zero => exact ⟨[], cp, by rw [List.append_nil, show v = [] from h]; rfl⟩
  | succ n ih =>
    cases v with
    | nil =>
      have hy : lower ≤ (UInt8.ofNat lower).toNat ∧ (UInt8.ofNat lower).toNat ≤ upper := by
        rw [uint8_toNat_ofNat, Nat.mod_eq_of_lt (by omega)]
        exact ⟨le_rfl, hlu⟩
      obtain ⟨w, c, hw⟩ : ∃ w c, sanitizeCont n ((cp <<< 6) + ((UInt8.ofNat lower).toNat &&& 0x3f))
          0x80 0xbf w = (some c, []) :=
        ih (v := []) (by decide) le_rfl (sanitizeCont_nil_snd _ _ _ _)
      exact ⟨UInt8.ofNat lower :: w, c, by rw [List.nil_append, sanitizeCont, if_pos hy, hw]⟩
    | cons y v =>
      by_cases hy : lower ≤ y.toNat ∧ y.toNat ≤ upper
      · rw [sanitizeCont, if_pos hy] at h
        obtain ⟨w, c, hw⟩ := ih (by decide) le_rfl h
        exact ⟨w, c, by rw [List.cons_append, sanitizeCont, if_pos hy, hw]⟩
      · rw [sanitizeCont, if_neg hy] at h
        cases h

/-- After a lead byte `t`, the bytes `v` begin an encoding exactly when the continuation loop of
`t` reads all of them. -/
theorem isEncodingPrefix_lead_iff {t : UInt8} {cp n lower upper : Nat}
    (hl : leadParams t = some (cp, n, lower, upper)) (v : List UInt8) :
    IsEncodingPrefix (t :: v) ↔ (sanitizeCont n cp lower upper v).2 = [] := by
  constructor
  · rintro ⟨c, hc, w, hw⟩
    rw [List.cons_append] at hw
    obtain ⟨cp', n', lower', upper', hl', hs⟩ := sanitizeCont_encodeCp
      (le_of_encodeCp_eq_cons hw.symm (by have := leadParams_lead hl; omega)) hc hw.symm
    rw [hl] at hl'
    cases hl'
    exact sanitizeCont_snd_of_append (w := w) (by rw [← List.append_nil (v ++ w), hs []])
  · intro h
    obtain ⟨-, hlu, hu⟩ := leadParams_range hl
    obtain ⟨w, c, hw⟩ := sanitizeCont_complete hlu hu h
    obtain ⟨cont, hcont, he, -, hc⟩ := sanitizeCont_eq_some hl hw
    rw [List.append_nil] at hcont
    exact ⟨c, hc, w, by rw [he, ← hcont, List.cons_append]⟩

/-- Bytes at which the continuation loop stops without decoding are no whole encoding. -/
theorem encodeCp_ne_of_sanitizeCont {t : UInt8} {cp n lower upper : Nat}
    (hl : leadParams t = some (cp, n, lower, upper)) {v : List UInt8}
    (h : sanitizeCont n cp lower upper v = (none, [])) {c : Nat} (hc : c ≤ 0x10FFFF) :
    encodeCp c ≠ t :: v := by
  intro he
  obtain ⟨cp', n', lower', upper', hl', hs⟩ := sanitizeCont_encodeCp
    (le_of_encodeCp_eq_cons he (by have := leadParams_lead hl; omega)) hc he
  rw [hl] at hl'
  cases hl'
  have h' := hs []
  rw [List.append_nil, h] at h'
  cases h'

/-! ## One iteration -/

/-- **An iteration that writes U+FFFD reads a maximal subpart**: an invalid lead byte alone, or a
lead byte and the continuation bytes that fit it up to `p_end` or up to the first that does not
fit, which is left for the next iteration. -/
theorem sanitizeStep_replacement {t : UInt8} {p : List UInt8}
    (h : (sanitizeStep t p).1 = .replacement) :
    ∃ u, t :: p = u ++ (sanitizeStep t p).2 ∧ MaximalSubpart u (sanitizeStep t p).2 := by
  have h0 : 0x80 ≤ t.toNat := by
    by_contra h0
    rw [sanitizeStep_of_lt (by omega)] at h
    cases h
  rcases hl : leadParams t with _ | ⟨cp, n, lower, upper⟩
  · have hnp (v : List UInt8) : ¬ IsEncodingPrefix (t :: v) := fun hv => by
      obtain ⟨x, hx⟩ := leadParams_of_isEncodingPrefix hv h0
      rw [hl] at hx
      cases hx
    rw [show sanitizeStep t p = (.replacement, p) by rw [sanitizeStep, if_neg (by omega), hl]]
    exact ⟨[t], rfl, List.cons_ne_nil t [],
      fun c hc he => hnp [] ⟨c, hc, [], by rw [List.append_nil, he]⟩, .inl rfl, fun x _ => hnp [x]⟩
  rcases hs : sanitizeCont n cp lower upper p with ⟨_ | c, r⟩
  · obtain ⟨v, rfl, hv, hx⟩ := sanitizeCont_eq_none hs
    rw [show sanitizeStep t (v ++ r) = (.replacement, r) by rw [sanitizeStep_of_lead h0 hl, hs]]
    refine ⟨t :: v, rfl, List.cons_ne_nil t v, fun c hc => encodeCp_ne_of_sanitizeCont hl hv hc,
      .inr ((isEncodingPrefix_lead_iff hl v).mpr (by rw [hv])), fun x hr hp => ?_⟩
    rw [List.cons_append, isEncodingPrefix_lead_iff hl, hx x hr] at hp
    cases hp
  · rw [sanitizeStep_of_lead h0 hl, hs] at h
    cases h

/-- On a maximal subpart an iteration writes U+FFFD and reads exactly the subpart. -/
theorem sanitizeStep_of_maximalSubpart {t : UInt8} {v rest : List UInt8}
    (hm : MaximalSubpart (t :: v) rest) : sanitizeStep t (v ++ rest) = (.replacement, rest) := by
  rcases sanitizeStep_cases t (v ++ rest) with ⟨h0, -⟩ | hs | ⟨c, cont, q, hp, he, -, hc, -⟩
  · exact absurd (by rw [encodeCp_toNat h0, List.singleton_append, List.cons_append])
      (hm.append_ne (c := t.toNat) (by omega) (v ++ rest))
  · obtain ⟨u, hu, hmu⟩ := sanitizeStep_replacement hs
    obtain rfl := hm.eq_of_append hmu hu
    exact Prod.ext hs (List.append_cancel_left (List.cons.inj hu).2).symm
  · exact absurd (by rw [he, List.cons_append, List.cons_append, hp]) (hm.append_ne hc q)

/-- The look-ahead of lines 164-165 sees exactly the encoding of a low surrogate. -/
theorem lowSurrogateAhead_iff {p : List UInt8} : LowSurrogateAhead p ↔ StartsLowSurrogate p := by
  constructor
  · intro h
    match p, h with
    | b0 :: b1 :: b2 :: r, h =>
      obtain ⟨h0, h1, h2, h3, h4⟩ := h
      obtain ⟨hb, he⟩ := encodeCp_decodeSeq_three (show 0xdf < b0.toNat ∧ b0.toNat ≤ 0xef by omega)
        (show (if b0.toNat = 0xe0 then 0xa0 else 0x80) ≤ b1.toNat ∧ b1.toNat ≤ 0xbf by
          rw [if_neg (by omega)]; omega) ⟨h3, h4⟩
      refine ⟨_, r, (lowSurrogateAhead_encodeCp_append hb r).mp ?_, by simp [he]⟩
      rw [he]
      exact ⟨h0, h1, h2, h3, h4⟩
  · rintro ⟨lo, r, hlo, rfl⟩
    exact (lowSurrogateAhead_encodeCp_append (by unfold IsLowSurrogate at hlo; omega) r).mpr hlo

/-! ## The pieces of the input -/

/-- The specification of the sanitizer: how the input splits into pieces, and what is written
for each. -/
inductive Decodes : List UInt8 → List Emit → Prop
  /-- The end of the input. -/
  | nil : Decodes [] []
  /-- An ASCII byte is copied. -/
  | ascii {t : UInt8} {rest : List UInt8} {es : List Emit} (ht : t.toNat < 0x80) :
      Decodes rest es → Decodes (t :: rest) (.ascii t :: es)
  /-- The encoding of a code point `c ≥ 0x80` is read as `c`, unless a high surrogate is
  followed by a low surrogate. -/
  | single {c : Nat} {rest : List UInt8} {es : List Emit} (h0 : 0x80 ≤ c) (hc : c ≤ 0x10FFFF)
      (hnp : ¬ (IsHighSurrogate c ∧ StartsLowSurrogate rest)) :
      Decodes rest es → Decodes (encodeCp c ++ rest) (.cp c :: es)
  /-- A high surrogate followed by a low surrogate is read as the code point of the pair. -/
  | pair {hi lo : Nat} {rest : List UInt8} {es : List Emit} (hh : IsHighSurrogate hi)
      (hl : IsLowSurrogate lo) :
      Decodes rest es →
        Decodes (encodeCp hi ++ encodeCp lo ++ rest) (.cp (combineSurrogates hi lo) :: es)
  /-- A maximal subpart is replaced by U+FFFD. -/
  | replacement {u rest : List UInt8} {es : List Emit} (hu : MaximalSubpart u rest) :
      Decodes rest es → Decodes (u ++ rest) (.replacement :: es)

/-- One iteration of the loop reads one piece. -/
theorem decodes_cons_of_step {t : UInt8} {p : List UInt8} {es : List Emit}
    (h : Decodes (sanitizeStep t p).2 es) : Decodes (t :: p) ((sanitizeStep t p).1 :: es) := by
  rcases sanitizeStep_cases t p with ⟨h0, hs⟩ | hs | ⟨c, cont, q, rfl, he, h0, hc, hs⟩
  · rw [hs] at h ⊢
    exact .ascii h0 h
  · obtain ⟨u, hu, hm⟩ := sanitizeStep_replacement hs
    rw [hs, hu]
    exact .replacement hm h
  · rw [hs] at h ⊢
    rw [← List.cons_append, ← he]
    rcases pairSurrogate_cases c q with ⟨hh, hla, -⟩ | ⟨hn, hp⟩
    · obtain ⟨lo, r, hlo, rfl⟩ := lowSurrogateAhead_iff.mp hla
      rw [pairSurrogate_encodeCp_append hh hlo] at h ⊢
      rw [← List.append_assoc]
      exact .pair hh hlo h
    · rw [hp] at h ⊢
      exact .single h0 hc (fun ⟨hh, hs⟩ => hn ⟨hh, lowSurrogateAhead_iff.mpr hs⟩) h

theorem decodes_sanitizeLoop (b : List UInt8) : Decodes b (sanitizeLoop b) := by
  induction b using sanitizeLoop.induct with
  | case1 =>
    rw [sanitizeLoop.eq_1]
    exact .nil
  | case2 t p ih =>
    rw [sanitizeLoop_cons]
    exact decodes_cons_of_step ih

/-- The pieces are those the loop reads: each constructor is one iteration. -/
theorem sanitizeLoop_of_decodes {b : List UInt8} {es : List Emit} (h : Decodes b es) :
    sanitizeLoop b = es := by
  induction h with
  | nil => rw [sanitizeLoop.eq_1]
  | ascii ht _ ih => rw [sanitizeLoop_cons, sanitizeStep_of_lt ht, ih]
  | @single c rest es h0 hc hnp _ ih =>
    obtain ⟨t, cont, he⟩ := List.exists_cons_of_length_pos (encodeCp_length_pos c)
    rw [he, List.cons_append, sanitizeLoop_cons, sanitizeStep_encodeCp h0 hc he,
      pairSurrogate_of_not fun ⟨hh, hl⟩ => hnp ⟨hh, lowSurrogateAhead_iff.mp hl⟩, ih]
  | @pair hi lo rest es hh hl _ ih =>
    unfold IsHighSurrogate at hh
    obtain ⟨t, cont, he⟩ := List.exists_cons_of_length_pos (encodeCp_length_pos hi)
    rw [List.append_assoc, he, List.cons_append, sanitizeLoop_cons,
      sanitizeStep_encodeCp (by omega) (by omega) he, pairSurrogate_encodeCp_append hh hl, ih]
  | replacement hu _ ih =>
    obtain ⟨t, v, rfl⟩ := List.exists_cons_of_ne_nil hu.1
    rw [List.cons_append, sanitizeLoop_cons, sanitizeStep_of_maximalSubpart hu, ih]

/-- **The sanitizer's loop splits its input into the pieces of `Decodes`, and no other split
exists**: it copies ASCII, decodes every shortest-form sequence, joins every surrogate pair, and
replaces every maximal subpart, and nothing else, by one U+FFFD. -/
theorem sanitizeLoop_eq_iff_decodes (b : List UInt8) (es : List Emit) :
    sanitizeLoop b = es ↔ Decodes b es :=
  ⟨fun h => h ▸ decodes_sanitizeLoop b, sanitizeLoop_of_decodes⟩

/-! ## Validity -/

/-- The input is valid exactly when none of its pieces is a maximal subpart. -/
theorem Decodes.isValidWtf8_iff {b : List UInt8} {es : List Emit} (h : Decodes b es) :
    IsValidWtf8 b ↔ .replacement ∉ es := by
  induction h with
  | nil => simp [IsValidWtf8, unicodeIsValidWtf8]
  | ascii ht _ ih =>
    rw [← List.singleton_append (l := _), ← encodeCp_toNat ht,
      isValidWtf8_encodeCp_append_iff (by omega), ih]
    simp
  | single _ hc _ _ ih =>
    rw [isValidWtf8_encodeCp_append_iff hc, ih]
    simp
  | pair hh hl _ ih =>
    unfold IsHighSurrogate at hh
    unfold IsLowSurrogate at hl
    rw [List.append_assoc, isValidWtf8_encodeCp_append_iff (by omega),
      isValidWtf8_encodeCp_append_iff (by omega), ih]
    simp
  | @replacement u rest es hu _ _ =>
    refine iff_of_false (fun hv => ?_) (by simp)
    obtain ⟨hvc, he⟩ := encode_decode_of_valid hv
    cases hd : decode (u ++ rest) with
    | nil =>
      rw [hd] at he
      exact hu.1 (List.append_eq_nil.mp he.symm).1
    | cons c cs =>
      rw [hd, encode_cons] at he
      exact hu.append_ne (hvc c (by simp [hd])) _ he.symm

/-- **The sanitizer takes `goto replacement` exactly when `duk_unicode_is_valid_wtf8` rejects its
input.** -/
theorem replacement_mem_sanitizeLoop_iff (b : List UInt8) :
    Emit.replacement ∈ sanitizeLoop b ↔ ¬ IsValidWtf8 b := by
  rw [(decodes_sanitizeLoop b).isValidWtf8_iff, not_not]

/-! ## Concatenation -/

/-- Validity and the condition on a last high surrogate carry over from a valid prefix to what
follows its first code point. -/
theorem validPrefix_tail {c : Nat} (hc : c ≤ 0x10FFFF) {rest b : List UInt8}
    (hv : IsValidWtf8 (encodeCp c ++ rest))
    (hpair : ∀ h ∈ (decode (encodeCp c ++ rest)).getLast?, IsHighSurrogate h →
      ¬ StartsLowSurrogate b) :
    IsValidWtf8 rest ∧ ∀ h ∈ (decode rest).getLast?, IsHighSurrogate h → ¬ StartsLowSurrogate b := by
  rw [isValidWtf8_encodeCp_append_iff hc] at hv
  rw [decode_encodeCp_append hc] at hpair
  exact ⟨hv, fun h hh => hpair h (List.mem_getLast?_cons hh)⟩

/-- The encoding of a low surrogate after a valid string begins in front of it or in it. -/
theorem startsLowSurrogate_append {rest b : List UInt8} (hv : IsValidWtf8 rest)
    (h : StartsLowSurrogate (rest ++ b)) : rest = [] ∨ StartsLowSurrogate rest := by
  obtain ⟨hvd, hed⟩ := encode_decode_of_valid hv
  obtain ⟨lo, r, hlo, hr⟩ := h
  cases hd : decode rest with
  | nil => exact .inl (by rw [← hed, hd, encode_nil])
  | cons d ds =>
    rw [hd, encode_cons] at hed
    rw [← hed, List.append_assoc] at hr
    obtain ⟨rfl, -⟩ := encodeCp_append_inj (hvd d (by simp [hd]))
      (by unfold IsLowSurrogate at hlo; omega) hr
    exact .inr ⟨d, encode ds, hlo, hed.symm⟩

/-- The pieces of a valid prefix stay pieces in front of any bytes, unless the prefix ends in a
high surrogate and the bytes begin with a low one. -/
theorem Decodes.append {a b : List UInt8} {ea eb : List Emit} (ha : Decodes a ea)
    (hva : IsValidWtf8 a)
    (hpair : ∀ h ∈ (decode a).getLast?, IsHighSurrogate h → ¬ StartsLowSurrogate b)
    (hb : Decodes b eb) : Decodes (a ++ b) (ea ++ eb) := by
  induction ha with
  | nil => exact hb
  | ascii ht _ ih =>
    rw [← List.singleton_append, ← encodeCp_toNat ht] at hva hpair
    obtain ⟨hv, hp⟩ := validPrefix_tail (by omega) hva hpair
    exact .ascii ht (ih hv hp)
  | @single c rest es h0 hc hnp _ ih =>
    obtain ⟨hv, hp⟩ := validPrefix_tail hc hva hpair
    rw [List.append_assoc]
    refine .single h0 hc (fun ⟨hh, hs⟩ => ?_) (ih hv hp)
    rcases startsLowSurrogate_append hv hs with rfl | hs'
    · refine hpair c ?_ hh hs
      rw [decode_encodeCp_append hc]
      simp [decode]
    · exact hnp ⟨hh, hs'⟩
  | pair hh hl _ ih =>
    unfold IsHighSurrogate at hh
    unfold IsLowSurrogate at hl
    rw [List.append_assoc] at hva hpair
    obtain ⟨hv1, hp1⟩ := validPrefix_tail (by omega) hva hpair
    obtain ⟨hv2, hp2⟩ := validPrefix_tail (by omega) hv1 hp1
    rw [List.append_assoc]
    exact .pair hh hl (ih hv2 hp2)
  | replacement hu hrest _ =>
    exact absurd ((Decodes.replacement hu hrest).isValidWtf8_iff.mp hva) (by simp)

/-- Over a valid prefix that ends in a high surrogate, a low surrogate after it is joined to it,
so the output is not the two outputs one after the other. -/
theorem sanitizeString_append_ne {a b : List UInt8} (ha : IsValidWtf8 a) {hi : Nat}
    (hl : (decode a).getLast? = some hi) (hh : IsHighSurrogate hi) (hs : StartsLowSurrogate b) :
    unicodeWtf8SanitizeString (a ++ b) ≠
      unicodeWtf8SanitizeString a ++ unicodeWtf8SanitizeString b := by
  obtain ⟨hv, he⟩ := encode_decode_of_valid ha
  obtain ⟨ds, hds⟩ := List.getLast?_eq_some_iff.mp hl
  obtain ⟨lo, r, hlo, rfl⟩ := hs
  unfold IsHighSurrogate at hh
  unfold IsLowSurrogate at hlo
  have hsa : sanitizeCodepoints a = coalesce ds ++ [hi] := by
    rw [← he, sanitizeCodepoints_encode hv, hds,
      coalesce_append_singleton (fun h => by unfold IsLowSurrogate at h; omega)]
  have hsb : sanitizeCodepoints (encodeCp lo ++ r) = lo :: sanitizeCodepoints r := by
    rw [sanitizeCodepoints_encodeCp_append (by omega),
      pairSurrogate_of_not (fun h => by unfold IsHighSurrogate at h; omega)]
  intro heq
  rw [sanitizeString_eq_encode, sanitizeString_eq_encode, sanitizeString_eq_encode,
    ← encode_append] at heq
  have hcat := encode_inj (sanitizeCodepoints_allCodepoints _) (fun x hx => by
    rcases List.mem_append.mp hx with hx | hx <;> exact sanitizeCodepoints_allCodepoints _ x hx) heq
  have hnp := sanitizeCodepoints_noSurrogatePair (a ++ (encodeCp lo ++ r))
  rw [hcat, hsa, hsb, List.append_assoc, List.singleton_append, NoSurrogatePair,
    List.chain'_split, List.chain'_cons] at hnp
  exact hnp.2.1 ⟨⟨by omega, by omega⟩, ⟨by omega, by omega⟩⟩

/-- After a valid prefix, the encodings of a high and a low surrogate are one piece, the pair,
between the pieces of the prefix and those of the rest. -/
theorem sanitizeLoop_pair_append {a : List UInt8} (ha : IsValidWtf8 a) {hi lo : Nat}
    (hh : IsHighSurrogate hi) (hl : IsLowSurrogate lo) (r : List UInt8) :
    sanitizeLoop (a ++ encodeCp hi ++ (encodeCp lo ++ r)) =
      sanitizeLoop a ++ .cp (combineSurrogates hi lo) :: sanitizeLoop r := by
  unfold IsHighSurrogate at hh
  have hnl : ¬ StartsLowSurrogate (encodeCp hi ++ encodeCp lo ++ r) := fun ⟨lo', r', hlo', he⟩ => by
    unfold IsLowSurrogate at hlo'
    rw [List.append_assoc] at he
    obtain ⟨rfl, -⟩ := encodeCp_append_inj (by omega) (by omega) he
    omega
  have hd := (decodes_sanitizeLoop a).append ha (fun _ _ _ => hnl)
    (.pair hh hl (decodes_sanitizeLoop r))
  simpa only [List.append_assoc] using sanitizeLoop_of_decodes hd

end Duk
