import DuktapeWtf8.Sanitize.Reference
import DuktapeWtf8.Unicode.Charlength

set_option autoImplicit false

/-! # The sanitizer's main loop, iteration by iteration

`sanitizeLoop` reads the main loop of `duk__unicode_wtf8_sanitize_string_reference` as a
recursion. Here it is read as the C code runs it: a state holding the variables the loop carries,
the input pointer `p` (the bytes from `p` to `p_end`), the output written so far (from `out_data`
to `q`) and `out_clen_sub`, and one iteration of `while (p < p_end)` that updates them.

Each iteration reads at least one byte (`p--` steps back only over a continuation byte it has
just read) and writes at most three bytes per byte it reads: one for an ASCII byte, three for
U+FFFD, and at most four for a sequence of two or more bytes. Hence `q - out_data ≤ 3 * (p - str)`
at every iteration (`SanitizeInv`), the loop ends after at most `|b|` iterations, in the state
that `sanitizeLoop` computes, and `out_clen_sub ≤ out_blen` (the assertion at line 212).

What an iteration adds to `out_clen_sub` is the number of bytes it writes less one, so
`out_clen = out_blen - out_clen_sub` is the number of iterations, one per code point written
(`sanitizeOutClen_eq_length`). That is not the ECMAScript length of the output, which
`duk_unicode_wtf8_charlength` computes: a 4-byte sequence there is two characters, so the
two differ by the number of 4-byte sequences written.
-/

namespace Duk

/-! ## Bounds for one iteration -/

theorem Emit.bytes_length_le (e : Emit) : e.bytes.length ≤ 4 := by
  cases e with
  | cp c => show (emitCodepoint c).length ≤ 4; unfold emitCodepoint; split_ifs <;> simp
  | _ => simp [Emit.bytes]

/-- What an iteration adds to `out_clen_sub` is at most what it adds to `out_blen`. -/
theorem Emit.clenSub_le (e : Emit) : e.clenSub ≤ e.bytes.length := by
  cases e with
  | cp c =>
    show (if c ≤ 0x7ff then 1 else if c ≤ 0xffff then 2 else 3) ≤ (emitCodepoint c).length
    unfold emitCodepoint; split_ifs <;> simp
  | _ => simp [Emit.clenSub, Emit.bytes]

theorem encodeCp_length_two_le {c : Nat} (h : 0x80 ≤ c) : 2 ≤ (encodeCp c).length := by
  rw [encodeCp, if_neg (by omega)]
  unfold emitCodepoint
  split_ifs <;> simp

/-- **An iteration writes at most three bytes per byte it reads.** -/
theorem sanitizeStep_bytes_le (t : UInt8) (p : List UInt8) :
    (sanitizeStep t p).1.bytes.length + 3 * (sanitizeStep t p).2.length ≤ 3 * p.length + 3 := by
  rcases sanitizeStep_cases t p with ⟨-, h⟩ | h | ⟨c, cont, q, rfl, he, hc, -, h⟩
  · simp only [h, Emit.bytes, List.length_singleton]
    omega
  · have := sanitizeStep_length_le t p
    simp only [h, Emit.bytes, List.length_cons, List.length_nil]
    omega
  · have hcont : 2 ≤ cont.length + 1 := by simpa [he] using encodeCp_length_two_le hc
    have := pairSurrogate_length_le c q
    have := Emit.bytes_length_le (.cp (pairSurrogate c q).1)
    simp only [h, List.length_append]
    omega

theorem sanitizeCont_suffix (n cp lower upper : Nat) (p : List UInt8) :
    (sanitizeCont n cp lower upper p).2 <:+ p := by
  induction n generalizing cp lower upper p with
  | zero => exact List.suffix_refl p
  | succ n ih =>
    cases p with
    | nil => exact List.suffix_refl []
    | cons t p =>
      simp only [sanitizeCont]
      split
      · exact (ih _ _ _ p).trans (List.suffix_cons t p)
      · exact List.suffix_refl _

theorem pairSurrogate_suffix (cp : Nat) (p : List UInt8) : (pairSurrogate cp p).2 <:+ p := by
  rcases pairSurrogate_cases cp p with ⟨-, -, b0, b1, b2, q', rfl, hp⟩ | ⟨-, hp⟩
  · rw [hp]
    exact List.suffix_append [b0, b1, b2] q'
  · exact hp ▸ List.suffix_refl p

/-- `p` only moves forward: what an iteration leaves of the input is a suffix of it. -/
theorem sanitizeStep_suffix (t : UInt8) (p : List UInt8) : (sanitizeStep t p).2 <:+ p := by
  unfold sanitizeStep
  split
  · exact List.suffix_refl p
  split
  · exact List.suffix_refl p
  rename_i cp n lower upper _
  have hs := sanitizeCont_suffix n cp lower upper p
  split <;> rename_i heq <;> rw [heq] at hs
  · exact hs
  · exact (pairSurrogate_suffix _ _).trans hs

/-! ## The loop state -/

/-- The variables the main loop carries from one iteration to the next. -/
structure SanitizeState where
  /-- The input still to read, from `p` to `p_end`. -/
  p : List UInt8
  /-- The output written so far, from `out_data` to `q`. -/
  q : List UInt8
  /-- `out_clen_sub`. -/
  outClenSub : Nat
  deriving DecidableEq, Repr

/-- The state before the loop, lines 78-83. -/
def sanitizeInit (b : List UInt8) : SanitizeState := ⟨b, [], 0⟩

/-- One iteration of `while (p < p_end)` (lines 84-209), or `none` once `p = p_end`. -/
def sanitizeIter (s : SanitizeState) : Option SanitizeState :=
  match s.p with
  | [] => none
  | t :: p =>
    some ⟨(sanitizeStep t p).2, s.q ++ (sanitizeStep t p).1.bytes,
      s.outClenSub + (sanitizeStep t p).1.clenSub⟩

/-- The state after `n` iterations, or `none` if the loop ends before. -/
def sanitizeRun : Nat → SanitizeState → Option SanitizeState
  | 0, s => some s
  | n + 1, s => (sanitizeIter s).bind (sanitizeRun n)

theorem sanitizeIter_cons {s : SanitizeState} {t : UInt8} {p : List UInt8} (h : s.p = t :: p) :
    sanitizeIter s = some ⟨(sanitizeStep t p).2, s.q ++ (sanitizeStep t p).1.bytes,
      s.outClenSub + (sanitizeStep t p).1.clenSub⟩ := by
  rw [sanitizeIter, h]

theorem sanitizeIter_eq_some {s s' : SanitizeState} (h : sanitizeIter s = some s') :
    ∃ t p, s.p = t :: p ∧ s' = ⟨(sanitizeStep t p).2, s.q ++ (sanitizeStep t p).1.bytes,
      s.outClenSub + (sanitizeStep t p).1.clenSub⟩ := by
  rcases hp : s.p with _ | ⟨t, p⟩
  · simp [sanitizeIter, hp] at h
  · rw [sanitizeIter_cons hp, Option.some.injEq] at h
    exact ⟨t, p, rfl, h.symm⟩

/-- **Every iteration reads at least one byte.** -/
theorem sanitizeIter_consumes {s s' : SanitizeState} (h : sanitizeIter s = some s') :
    s'.p.length < s.p.length := by
  obtain ⟨t, p, hp, rfl⟩ := sanitizeIter_eq_some h
  rw [hp, List.length_cons]
  exact Nat.lt_succ_of_le (sanitizeStep_length_le t p)

/-! ## The loop invariant -/

/-- What holds between two iterations on the input `b`: `p` lies in the input, at most three
bytes were written per byte read, `out_clen_sub ≤ q - out_data`, and the output so far followed
by what the loop writes for the rest of the input is what it writes for `b`. -/
structure SanitizeInv (b : List UInt8) (s : SanitizeState) : Prop where
  suffix : s.p <:+ b
  expansion : s.q.length ≤ 3 * (b.length - s.p.length)
  clenSub_le : s.outClenSub ≤ s.q.length
  output : s.q ++ unicodeWtf8SanitizeStringReference s.p = unicodeWtf8SanitizeStringReference b
  clenSub : s.outClenSub + ((sanitizeLoop s.p).map Emit.clenSub).sum =
    ((sanitizeLoop b).map Emit.clenSub).sum

theorem sanitizeInv_init (b : List UInt8) : SanitizeInv b (sanitizeInit b) where
  suffix := List.suffix_refl b
  expansion := Nat.zero_le _
  clenSub_le := le_rfl
  output := List.nil_append _
  clenSub := Nat.zero_add _

/-- **One iteration keeps the invariant.** -/
theorem sanitizeInv_iter {b : List UInt8} {s s' : SanitizeState} (hs : SanitizeInv b s)
    (h : sanitizeIter s = some s') : SanitizeInv b s' := by
  obtain ⟨t, p, hp, rfl⟩ := sanitizeIter_eq_some h
  obtain ⟨hsuf, hexp, hcsub, hout, hsub⟩ := hs
  rw [hp] at hsuf hexp hout hsub
  simp only [unicodeWtf8SanitizeStringReference, sanitizeLoop_cons, List.flatMap_cons,
    List.map_cons, List.sum_cons] at hout hsub
  have hlen : p.length + 1 ≤ b.length := hsuf.length_le
  have hstep := sanitizeStep_bytes_le t p
  have hcl := Emit.clenSub_le (sanitizeStep t p).1
  refine ⟨(sanitizeStep_suffix t p).trans ((List.suffix_cons t p).trans hsuf), ?_, ?_,
    (List.append_assoc _ _ _).trans hout, by dsimp only; omega⟩
  · rw [List.length_cons] at hexp
    simp only [List.length_append]
    omega
  · simp only [List.length_append]
    omega

/-- **The invariant holds at every iteration.** -/
theorem sanitizeInv_run {b : List UInt8} :
    ∀ (n : Nat) {s s' : SanitizeState}, SanitizeInv b s → sanitizeRun n s = some s' →
      SanitizeInv b s'
  | 0, _, _, hs, h => Option.some.inj h ▸ hs
  | n + 1, s, _, hs, h => by
    rcases h1 : sanitizeIter s with _ | s1
    · simp [sanitizeRun, h1] at h
    · rw [sanitizeRun, h1, Option.some_bind] at h
      exact sanitizeInv_run n (sanitizeInv_iter hs h1) h

/-- **The loop ends**, after at most as many iterations as there are bytes left. -/
theorem sanitizeRun_ends :
    ∀ s : SanitizeState, ∃ n ≤ s.p.length, ∃ s', sanitizeRun n s = some s' ∧ s'.p = []
  | ⟨[], _, _⟩ => ⟨0, Nat.zero_le _, _, rfl, rfl⟩
  | ⟨t :: p, q, k⟩ => by
    obtain ⟨n, hn, s', h, hp⟩ := sanitizeRun_ends ⟨(sanitizeStep t p).2,
      q ++ (sanitizeStep t p).1.bytes, k + (sanitizeStep t p).1.clenSub⟩
    have := sanitizeStep_length_le t p
    exact ⟨n + 1, by simp only [List.length_cons] at hn ⊢; omega, s', h, hp⟩
termination_by s => s.p.length
decreasing_by simp_wf; have := sanitizeStep_length_le t p; omega

/-- A state with the input used up is the one `sanitizeLoop` computes. -/
theorem sanitizeInv_final {b : List UInt8} {s : SanitizeState} (hs : SanitizeInv b s)
    (hp : s.p = []) :
    s = ⟨[], unicodeWtf8SanitizeStringReference b, ((sanitizeLoop b).map Emit.clenSub).sum⟩ := by
  have hout := hs.output
  have hsub := hs.clenSub
  rw [hp, unicodeWtf8SanitizeStringReference, sanitizeLoop.eq_1, List.flatMap_nil,
    List.append_nil] at hout
  rw [hp, sanitizeLoop.eq_1, List.map_nil, List.sum_nil, Nat.add_zero] at hsub
  obtain ⟨p, q, k⟩ := s
  dsimp only at hp hout hsub
  rw [hp, hout, hsub]

/-- A valid emit adds to `out_clen_sub` one less than the bytes it writes. -/
theorem Emit.clenSub_add_one {e : Emit} (h : e.Valid) : e.clenSub + 1 = e.bytes.length := by
  cases e with
  | cp c =>
    show (if c ≤ 0x7ff then 1 else if c ≤ 0xffff then 2 else 3) + 1 = (emitCodepoint c).length
    unfold emitCodepoint; split_ifs <;> rfl
  | _ => rfl

theorem clenSub_sum_add_length {es : List Emit} (h : ∀ e ∈ es, e.Valid) :
    (es.map Emit.clenSub).sum + es.length = (es.flatMap Emit.bytes).length := by
  induction es with
  | nil => rfl
  | cons e es ih =>
    have he := Emit.clenSub_add_one (h e (List.mem_cons_self e es))
    have := ih (fun x hx => h x (List.mem_cons_of_mem e hx))
    simp only [List.map_cons, List.sum_cons, List.length_cons, List.flatMap_cons,
      List.length_append]
    omega

/-- `out_clen` is the number of iterations: one per code point written. -/
theorem sanitizeOutClen_eq_length (b : List UInt8) : sanitizeOutClen b = (sanitizeLoop b).length := by
  have := clenSub_sum_add_length (sanitizeLoop_valid b)
  rw [sanitizeOutClen, unicodeWtf8SanitizeStringReference]
  omega

/-- **`out_clen` is not the character length of the output.** On every input,
`duk_unicode_wtf8_charlength` of the output is `out_clen` plus the number of 4-byte sequences
written, so the two agree exactly when the output has none. -/
theorem sanitizeOutClen_charlength (b : List UInt8) :
    unicodeWtf8Charlength (unicodeWtf8SanitizeStringReference b) =
        some (sanitizeOutClen b + nonbmpCount (unicodeWtf8SanitizeStringReference b)) ∧
      (unicodeWtf8Charlength (unicodeWtf8SanitizeStringReference b) = some (sanitizeOutClen b) ↔
        nonbmpCount (unicodeWtf8SanitizeStringReference b) = 0) := by
  have hv := sanitizeCodepoints_allCodepoints b
  have he : unicodeWtf8SanitizeStringReference b = encode (sanitizeCodepoints b) :=
    sanitizeString_eq_encode b
  have hcl : unicodeWtf8Charlength (unicodeWtf8SanitizeStringReference b) =
      some (sanitizeOutClen b + nonbmpCount (unicodeWtf8SanitizeStringReference b)) := by
    rw [he, (unicodeWtf8Charlength_of_valid (unicodeIsValidWtf8_encode hv)).1, utf16_encode hv,
      toUtf16_length_eq hv, sanitizeOutClen_eq_length, ← he, sanitizeCodepoints, List.length_map]
  refine ⟨hcl, ?_⟩
  rw [hcl, Option.some.injEq]
  omega

/-- U+1F600 (F0 9F 98 80) passes through unchanged; `out_clen` is 1 and its character length 2. -/
theorem sanitizeOutClen_emoji :
    unicodeWtf8SanitizeStringReference [0xf0, 0x9f, 0x98, 0x80] = [0xf0, 0x9f, 0x98, 0x80] ∧
      sanitizeOutClen [0xf0, 0x9f, 0x98, 0x80] = 1 ∧
      unicodeWtf8Charlength [0xf0, 0x9f, 0x98, 0x80] = some 2 := by
  have hl : sanitizeLoop [0xf0, 0x9f, 0x98, 0x80] = [.cp 0x1F600] := by
    rw [sanitizeLoop_cons, show sanitizeStep 0xf0 [0x9f, 0x98, 0x80] = (.cp 0x1F600, []) by decide]
    dsimp only
    rw [sanitizeLoop.eq_1]
  have hv : AllCodepoints [0x1F600] := by simp [AllCodepoints]
  have hc := (unicodeWtf8Charlength_of_valid (unicodeIsValidWtf8_encode hv)).1
  rw [utf16_encode hv, show encode [0x1F600] = [0xf0, 0x9f, 0x98, 0x80] by decide] at hc
  refine ⟨?_, ?_, hc.trans rfl⟩ <;>
    simp only [sanitizeOutClen, unicodeWtf8SanitizeStringReference, hl] <;> decide

end Duk
