import DuktapeWtf8.String.Strcache

set_option autoImplicit false

/-! # Substrings

`duk_push_wtf8_substring_hstring` (`duk_unicode_wtf8.c`, lines 429-560) pushes the characters
`[start_offset, end_offset)` of a valid string. An ASCII string is sliced by byte. Otherwise the
function scans to the code points that hold the two offsets; an offset that falls between the
two halves of a 4-byte code point makes it write that half as a 3-byte surrogate of its own, a
low surrogate in front (`prefix_surrogate`) or a high surrogate behind (`suffix_surrogate`), into
a temporary buffer around the bytes `[copy_start, copy_end)` it copies from the input.

On a canonical input, for all offsets `0 ≤ s ≤ e ≤ clen`, the copy range is never reversed,
the temporary buffer receives exactly `alloc_size` bytes, and the bytes handed to
`duk_push_lstring` are canonical with ECMAScript view `utf16(h)[s, e)`. A manufactured low
surrogate never follows a high one and a manufactured high surrogate is last, so the result
never needs the interner to combine a pair.
-/

namespace Duk

/-! ## The model -/

/-- `duk_push_lstring` or `duk_memcpy` of `n` bytes from `data + off`: `none` if they are not
all inside the data. -/
def readBytes (data : List UInt8) (off n : Nat) : Option (List UInt8) :=
  if off + n ≤ data.length then some ((data.drop off).take n) else none

/-- The three bytes written for a manufactured surrogate (lines 524-529 and 532-537). -/
def surrogateBytes (s : Nat) : List UInt8 :=
  [0xed, UInt8.ofNat (0x80 + ((s >>> 6) &&& 0x3f)), UInt8.ofNat (0x80 + (s &&& 0x3f))]

/-- Lines 468-485: `prefix_surrogate` (0 for none) and `copy_start`. -/
def substringStart (data : List UInt8) (startOffset : Nat) : Option (Nat × Nat) :=
  let (startByteoff, startCharoff) := strcacheScanChar2Byte data startOffset
  if startCharoff ≠ startOffset then
    (unicodeWtf8DecodeKnown (data.drop startByteoff)).map fun startCp =>
      (0xdc00 + ((startCp - 0x10000) &&& 0x3ff), startByteoff + 4)
  else some (0, startByteoff)

/-- Lines 489-501: `suffix_surrogate` (0 for none) and `copy_end`. -/
def substringEnd (data : List UInt8) (endOffset : Nat) : Option (Nat × Nat) :=
  let (endByteoff, endCharoff) := strcacheScanChar2Byte data endOffset
  if endCharoff ≠ endOffset then
    (unicodeWtf8DecodeKnown (data.drop endByteoff)).map fun endCp =>
      (0xd800 + ((endCp - 0x10000) >>> 10), endByteoff)
  else some (0, endByteoff)

/-- Lines 513-545, the slow path: `alloc_size`, and the bytes written into the temporary
buffer. -/
def substringBuffer (data : List UInt8) (prefixSurrogate copyStart suffixSurrogate copyEnd : Nat) :
    Option (Nat × List UInt8) :=
  let copySize := copyEnd - copyStart
  let allocSize :=
    (if prefixSurrogate ≠ 0 then 3 else 0) + copySize + (if suffixSurrogate ≠ 0 then 3 else 0)
  (readBytes data copyStart copySize).map fun copied =>
    (allocSize, (if prefixSurrogate ≠ 0 then surrogateBytes prefixSurrogate else []) ++ copied ++
      (if suffixSurrogate ≠ 0 then surrogateBytes suffixSurrogate else []))

/-- `duk_push_wtf8_substring_hstring` on the data of a string whose `duk_hstring_get_charlen`
is `clen`: the bytes it hands to `duk_push_lstring`. -/
def pushWtf8SubstringHstring (data : List UInt8) (clen startOffset endOffset : Nat) :
    Option (List UInt8) :=
  if clen = data.length then readBytes data startOffset (endOffset - startOffset)
  else if startOffset = endOffset then some []
  else do
    let (prefixSurrogate, copyStart) ← substringStart data startOffset
    let (suffixSurrogate, copyEnd) ← substringEnd data endOffset
    if prefixSurrogate = 0 ∧ suffixSurrogate = 0 then readBytes data copyStart (copyEnd - copyStart)
    else (substringBuffer data prefixSurrogate copyStart suffixSurrogate copyEnd).map Prod.snd

/-! ## Small facts -/

theorem readBytes_of_le {data : List UInt8} {off n : Nat} (h : off + n ≤ data.length) :
    readBytes data off n = some ((data.drop off).take n) := if_pos h

/-- The bytes written for a surrogate are its 3-byte encoding. -/
theorem surrogateBytes_eq {s : Nat} (h1 : 0xD800 ≤ s) (h2 : s ≤ 0xDFFF) :
    surrogateBytes s = encodeCp s := by
  rw [surrogateBytes, encodeCp_surrogate h1 h2]

theorem encode_take_length_mono (cps : List Nat) {k k' : Nat} (h : k ≤ k') :
    (encode (cps.take k)).length ≤ (encode (cps.take k')).length := by
  have e := encode_take_append_drop (cps.take k') k
  rw [List.take_take, Nat.min_eq_left h] at e
  rw [e, List.length_append]
  exact Nat.le_add_right _ _

/-- A list with no high surrogate has no surrogate pair. -/
theorem noSurrogatePair_of_not_high {cps : List Nat} (h : ∀ c ∈ cps, ¬ IsHighSurrogate c) :
    NoSurrogatePair cps := by
  induction cps with
  | nil => exact List.chain'_nil
  | cons c cs ih =>
    rw [NoSurrogatePair, List.chain'_cons']
    exact ⟨fun _ _ hp => h c (List.mem_cons_self c cs) hp.1,
      ih (fun x hx => h x (List.mem_cons_of_mem c hx))⟩

/-- An ASCII string is canonical. -/
theorem canonical_of_ascii {b : List UInt8} (h : ∀ x ∈ b, x.toNat < 0x80) : Canonical b := by
  have hlt : ∀ c ∈ b.map UInt8.toNat, c < 0x80 := fun c hc => by
    obtain ⟨x, hx, rfl⟩ := List.mem_map.mp hc
    exact h x hx
  refine (canonical_iff b).mpr ⟨_, fun c hc => by have := hlt c hc; omega,
    noSurrogatePair_of_not_high fun c hc hh => ?_, (encode_map_toNat h).symm⟩
  have := hlt c hc
  unfold IsHighSurrogate at hh
  omega

/-- The slice of a concatenation that begins inside `S` and ends inside `E`. -/
theorem slice_append {α : Type} (A S B E C : List α) :
    ((A ++ S ++ B ++ E ++ C).drop A.length).take (S.length + B.length + E.length) = S ++ B ++ E := by
  rw [List.append_assoc, List.append_assoc, List.append_assoc, List.drop_left,
    ← List.append_assoc, ← List.append_assoc, List.take_left' (by simp [Nat.add_assoc])]

theorem encodeCp_length_four {c : Nat} (h1 : 0x10000 ≤ c) (h2 : c ≤ 0x10FFFF) :
    (encodeCp c).length = 4 := by
  obtain ⟨t, c1, c2, c3, he, -⟩ := encodeCp_four h1 h2
  rw [he]; rfl

/-- What a manufactured surrogate `x` (0 for none) adds: the code points `X`, written as
`surrogateBytes x`, 3 bytes of the buffer, and `X` in the ECMAScript view. -/
theorem surrogatePart {x : Nat} {X : List Nat}
    (h : (x = 0 ∧ X = []) ∨ ((0xD800 ≤ x ∧ x ≤ 0xDFFF) ∧ X = [x])) :
    (if x ≠ 0 then surrogateBytes x else []) = encode X ∧
      (if x ≠ 0 then 3 else 0) = (encode X).length ∧ toUtf16 X = X ∧ AllCodepoints X := by
  rcases h with ⟨rfl, rfl⟩ | ⟨⟨h1, h2⟩, rfl⟩
  · exact ⟨rfl, rfl, rfl, nofun⟩
  · have hx : x ≠ 0 := by omega
    have hlen : (encodeCp x).length = 3 := by
      obtain ⟨t, c1, c2, he, -⟩ := encodeCp_three (c := x) (by omega) (by omega)
      rw [he]; rfl
    refine ⟨?_, ?_, ?_, fun c hc => ?_⟩
    · rw [if_pos hx, surrogateBytes_eq h1 h2, encode_cons, encode_nil, List.append_nil]
    · rw [if_pos hx, encode_cons, encode_nil, List.append_nil, hlen]
    · rw [toUtf16_cons, toUtf16_nil, codeUnits_of_lt (by omega)]; rfl
    · rw [List.mem_singleton] at hc; omega

/-! ## Where the copy begins and ends -/

/-- The copy begins at the `j`-th code point; when `s` falls inside the code point before it, the
function writes the low surrogate `p` of that code point first. -/
theorem substringStart_spec {cps : List Nat} (hv : AllCodepoints cps) {s : Nat}
    (hs : s < (toUtf16 cps).length) :
    ∃ j p A S, substringStart (encode cps) s = some (p, (encode (cps.take j)).length) ∧
      j ≤ cps.length ∧ toUtf16 (cps.take j) = A ++ S ∧ A.length = s ∧
      ((p = 0 ∧ S = []) ∨ ((0xDC00 ≤ p ∧ p ≤ 0xDFFF) ∧ S = [p])) := by
  obtain ⟨k, hk, hscan, hle, hlt⟩ := scanCodepoints_lt hs
  unfold substringStart
  rw [strcacheScanChar2Byte_encode hv, hscan]
  dsimp only
  by_cases ha : (toUtf16 (cps.take k)).length = s
  · rw [if_neg (not_not.mpr ha)]
    exact ⟨k, 0, _, [], rfl, hk.le, (List.append_nil _).symm, ha, .inl ⟨rfl, rfl⟩⟩
  rw [if_pos ha, decodeKnown_drop hv hk, Option.map_some']
  have hck := hv _ (List.getElem_mem hk)
  have hbig : ¬ cps[k] < 0x10000 := fun h => by rw [codeUnits_of_lt h] at hlt; simp at hlt; omega
  rw [codeUnits_length, if_neg hbig] at hlt
  refine ⟨k + 1, lowSurrogate cps[k], toUtf16 (cps.take k) ++ [highSurrogate cps[k]],
    [lowSurrogate cps[k]], ?_, hk, ?_, by simp; omega, .inr ⟨lowSurrogate_isLow _, rfl⟩⟩
  · rw [List.take_succ, List.getElem?_eq_getElem hk, Option.toList_some, encode_append,
      encode_cons, encode_nil, List.append_nil, List.length_append,
      encodeCp_length_four (by omega) hck]
    simp [lowSurrogate]
  · rw [toUtf16_take_succ hk, codeUnits, if_neg hbig]; simp

/-- The copy ends at the `k`-th code point; when `e` falls inside it, the function writes its high
surrogate `sf` last. -/
theorem substringEnd_spec {cps : List Nat} (hv : AllCodepoints cps) {e : Nat}
    (he : e ≤ (toUtf16 cps).length) :
    ∃ k sf E C, substringEnd (encode cps) e = some (sf, (encode (cps.take k)).length) ∧
      k ≤ cps.length ∧ (toUtf16 (cps.take k)).length ≤ e ∧
      (k < cps.length → e < (toUtf16 (cps.take (k + 1))).length) ∧
      toUtf16 (cps.drop k) = E ++ C ∧ (toUtf16 (cps.take k)).length + E.length = e ∧
      ((sf = 0 ∧ E = []) ∨ ((0xD800 ≤ sf ∧ sf ≤ 0xDBFF) ∧ E = [sf])) := by
  obtain ⟨k, hk, hscan, hle, hlt⟩ := scanCodepoints_spec cps e 0 0 (Nat.zero_le _) (by omega)
  simp only [Nat.zero_add] at hscan hle hlt
  unfold substringEnd
  rw [strcacheScanChar2Byte_encode hv, hscan]
  dsimp only
  by_cases ha : (toUtf16 (cps.take k)).length = e
  · rw [if_neg (not_not.mpr ha)]
    exact ⟨k, 0, [], _, rfl, hk, hle, hlt, rfl, by simp [ha], .inl ⟨rfl, rfl⟩⟩
  have hk' : k < cps.length := by
    by_contra h
    rw [List.take_of_length_le (by omega)] at ha hle
    omega
  rw [if_pos ha, decodeKnown_drop hv hk', Option.map_some']
  have hck := hv _ (List.getElem_mem hk')
  have hlt' := hlt hk'
  rw [toUtf16_take_succ hk', List.length_append] at hlt'
  have hbig : ¬ cps[k] < 0x10000 := fun h => by rw [codeUnits_of_lt h] at hlt'; simp at hlt'; omega
  rw [codeUnits_length, if_neg hbig] at hlt'
  refine ⟨k, highSurrogate cps[k], [highSurrogate cps[k]],
    lowSurrogate cps[k] :: toUtf16 (cps.drop (k + 1)), ?_, hk, hle, hlt, ?_, by simp; omega,
    .inr ⟨highSurrogate_isHigh hck, rfl⟩⟩
  · simp [highSurrogate]
  · rw [toUtf16_drop_eq_cons hk', codeUnits, if_neg hbig]; rfl

/-- A manufactured low surrogate in front and a high surrogate behind create no pair. -/
theorem noSurrogatePair_around {S M E : List Nat} (hS : S = [] ∨ ∃ x, IsLowSurrogate x ∧ S = [x])
    (hE : E = [] ∨ ∃ y, IsHighSurrogate y ∧ E = [y]) (hM : NoSurrogatePair M) :
    NoSurrogatePair (S ++ M ++ E) := by
  unfold NoSurrogatePair at *
  rw [List.chain'_append, List.chain'_append]
  refine ⟨⟨?_, hM, ?_⟩, ?_, ?_⟩
  · rcases hS with rfl | ⟨x, -, rfl⟩ <;> simp
  · rcases hS with rfl | ⟨x, hx, rfl⟩
    · simp
    · intro x' hx' _ _ hp
      simp only [List.getLast?_singleton, Option.mem_def, Option.some.injEq] at hx'
      unfold IsLowSurrogate at hx; unfold IsHighSurrogate at hp; omega
  · rcases hE with rfl | ⟨y, -, rfl⟩ <;> simp
  · rcases hE with rfl | ⟨y, hy, rfl⟩
    · simp
    · intro _ _ y' hy' hp
      simp only [List.head?_cons, Option.mem_def, Option.some.injEq] at hy'
      subst hy'
      unfold IsHighSurrogate at hy; unfold IsLowSurrogate at hp; omega

/-! ## The substring -/

/-- The slow path of `duk_push_wtf8_substring_hstring` on the encoding of code points without a
surrogate pair, for a non-empty range `[s, e)`: the copy range is not reversed, the temporary
buffer receives `alloc_size` bytes, and the pushed bytes are canonical with the view `[s, e)`. -/
theorem pushWtf8Substring_slow {cps : List Nat} (hv : AllCodepoints cps) (hn : NoSurrogatePair cps)
    {s e : Nat} (hse : s < e) (he : e ≤ (toUtf16 cps).length)
    (hfast : ¬ (toUtf16 cps).length = (encode cps).length) :
    (∃ p copyStart sf copyEnd,
        substringStart (encode cps) s = some (p, copyStart) ∧
        substringEnd (encode cps) e = some (sf, copyEnd) ∧
        copyStart ≤ copyEnd ∧ (p ≠ 0 ∨ sf ≠ 0 → ∃ allocSize buf,
          substringBuffer (encode cps) p copyStart sf copyEnd = some (allocSize, buf) ∧
            buf.length = allocSize)) ∧
    ∃ out, pushWtf8SubstringHstring (encode cps) (toUtf16 cps).length s e = some out ∧
      Canonical out ∧ utf16 out = ((toUtf16 cps).drop s).take (e - s) := by
  have hse' : s ≠ e := by omega
  obtain ⟨j, p, A, S, hstart, hj, hA, hAs, hS⟩ :=
    substringStart_spec hv (show s < (toUtf16 cps).length by omega)
  obtain ⟨k, sf, E, C, hend, hk, hle, hlt, hE, hEe, hsf⟩ := substringEnd_spec hv he
  have hjk : j ≤ k := by
    by_contra hjk
    have h1 := toUtf16_take_length_mono cps (show k + 1 ≤ j by omega)
    have h2 := hlt (by omega)
    have hSlen : S.length ≤ 1 := by rcases hS with ⟨-, rfl⟩ | ⟨-, rfl⟩ <;> simp
    rw [hA, List.length_append] at h1
    omega
  have htake : cps.take k = cps.take j ++ (cps.drop j).take (k - j) := by
    rw [← List.take_add, Nat.add_sub_cancel' hjk]
  have hdropj : cps.drop j = (cps.drop j).take (k - j) ++ cps.drop k := by
    conv_lhs => rw [← List.take_append_drop (k - j) (cps.drop j)]
    rw [List.drop_drop, Nat.add_sub_cancel' hjk]
  generalize (cps.drop j).take (k - j) = mid at htake hdropj
  have hB : (encode (cps.take k)).length = (encode (cps.take j)).length + (encode mid).length := by
    rw [htake, encode_append, List.length_append]
  have hBk : (encode (cps.take k)).length ≤ (encode cps).length := by
    rw [encode_take_append_drop cps k, List.length_append]; exact Nat.le_add_right _ _
  have hcopy : readBytes (encode cps) (encode (cps.take j)).length
      ((encode (cps.take k)).length - (encode (cps.take j)).length) = some (encode mid) := by
    rw [readBytes_of_le (by omega), drop_encode_take, hdropj, encode_append, hB,
      Nat.add_sub_cancel_left, List.take_left]
  obtain ⟨hSb, hS3, hSu, hSv⟩ := surrogatePart (hS.imp id fun h => ⟨⟨by omega, h.1.2⟩, h.2⟩)
  obtain ⟨hEb, hE3, hEu, hEv⟩ := surrogatePart (hsf.imp id fun h => ⟨⟨h.1.1, by omega⟩, h.2⟩)
  have hbuf : substringBuffer (encode cps) p (encode (cps.take j)).length sf
      (encode (cps.take k)).length = some ((if p ≠ 0 then 3 else 0) +
        ((encode (cps.take k)).length - (encode (cps.take j)).length) +
        (if sf ≠ 0 then 3 else 0), encode (S ++ mid ++ E)) := by
    rw [substringBuffer, hcopy, Option.map_some', hSb, hEb, encode_append, encode_append]
  have hout : pushWtf8SubstringHstring (encode cps) (toUtf16 cps).length s e =
      some (encode (S ++ mid ++ E)) := by
    rw [pushWtf8SubstringHstring, if_neg hfast, if_neg hse', hstart, hend]
    simp only [Option.bind_eq_bind, Option.some_bind]
    split_ifs with h0
    · obtain ⟨rfl, rfl⟩ : S = [] ∧ E = [] := ⟨by rcases hS with h | h <;> [exact h.2; omega],
        by rcases hsf with h | h <;> [exact h.2; omega]⟩
      simpa using hcopy
    · rw [hbuf, Option.map_some']
  have hLv : AllCodepoints (S ++ mid ++ E) := by
    intro x hx
    simp only [List.mem_append] at hx
    rcases hx with (hx | hx) | hx
    · exact hSv x hx
    · exact hv x (List.mem_of_mem_drop (hdropj ▸ List.mem_append_left _ hx))
    · exact hEv x hx
  refine ⟨⟨p, _, sf, _, hstart, hend, encode_take_length_mono cps hjk,
    fun _ => ⟨_, _, hbuf, ?_⟩⟩, _, hout, ?_, ?_⟩
  · rw [encode_append, encode_append, List.length_append, List.length_append, ← hS3, ← hE3, hB]
    omega
  · refine (canonical_iff _).mpr ⟨_, hLv, noSurrogatePair_around ?_ ?_ ?_, rfl⟩
    · rcases hS with ⟨-, rfl⟩ | ⟨hp, rfl⟩
      exacts [.inl rfl, .inr ⟨p, hp, rfl⟩]
    · rcases hsf with ⟨-, rfl⟩ | ⟨hp, rfl⟩
      exacts [.inl rfl, .inr ⟨sf, hp, rfl⟩]
    · have := List.Chain'.drop hn j
      rw [hdropj] at this
      exact this.left_of_append
  · have hsplit : toUtf16 cps = A ++ S ++ toUtf16 mid ++ E ++ C := by
      rw [toUtf16_take_append_drop cps j, hA, hdropj, toUtf16_append, hE]
      simp only [List.append_assoc]
    have hU : (toUtf16 (cps.take k)).length = A.length + S.length + (toUtf16 mid).length := by
      rw [htake, toUtf16_append, List.length_append, hA, List.length_append]
    rw [utf16_encode hLv, toUtf16_append, toUtf16_append, hSu, hEu, hsplit, ← hAs,
      show e - A.length = S.length + (toUtf16 mid).length + E.length by omega, slice_append]

/-- The copy range, the temporary buffer and the pushed bytes of a substring of a canonical
string; shared by the statement below and the searches. -/
theorem pushWtf8Substring_spec {data : List UInt8} (hc : Canonical data) {clen s e : Nat}
    (hclen : unicodeWtf8Charlength data = some clen) (hse : s ≤ e) (he : e ≤ clen) :
    (clen ≠ data.length → s ≠ e → ∃ p copyStart sf copyEnd,
        substringStart data s = some (p, copyStart) ∧ substringEnd data e = some (sf, copyEnd) ∧
        copyStart ≤ copyEnd ∧ (p ≠ 0 ∨ sf ≠ 0 → ∃ allocSize buf,
          substringBuffer data p copyStart sf copyEnd = some (allocSize, buf) ∧
            buf.length = allocSize)) ∧
    ∃ out, pushWtf8SubstringHstring data clen s e = some out ∧ Canonical out ∧
      utf16 out = ((utf16 data).drop s).take (e - s) := by
  obtain ⟨hlen, -⟩ := unicodeWtf8Charlength_of_valid hc.1
  rw [hlen, Option.some.injEq] at hclen
  subst hclen
  by_cases hfast : (utf16 data).length = data.length
  · have hasc := (utf16_length_eq_iff hc.1).mp hfast
    have hsub : ∀ x ∈ (data.drop s).take (e - s), x.toNat < 0x80 := fun x hx =>
      hasc x (List.mem_of_mem_drop (List.mem_of_mem_take hx))
    refine ⟨fun h => absurd hfast h, _, ?_, canonical_of_ascii hsub, ?_⟩
    · rw [pushWtf8SubstringHstring, if_pos hfast, readBytes_of_le (by omega)]
    · rw [utf16_of_ascii hsub, utf16_of_ascii hasc, List.map_take, List.map_drop]
  by_cases hse' : s = e
  · subst hse'
    have hnil : ∀ x ∈ ([] : List UInt8), x.toNat < 0x80 := fun _ h => absurd h (List.not_mem_nil _)
    refine ⟨fun _ h => absurd rfl h, [], ?_, canonical_of_ascii hnil, ?_⟩
    · rw [pushWtf8SubstringHstring, if_neg hfast, if_pos rfl]
    · rw [utf16_of_ascii hnil, Nat.sub_self, List.take_zero]; rfl
  obtain ⟨hv, hdata⟩ := encode_decode_of_valid hc.1
  have hn := (containsSurrogatePair_encode hv).mp (hdata.symm ▸ hc.2)
  generalize decode data = cps at hv hdata hn
  subst hdata
  rw [utf16_encode hv] at he hfast ⊢
  exact (pushWtf8Substring_slow hv hn (by omega) he hfast).imp (fun h _ _ => h) id

/-- **On a canonical string and offsets `s ≤ e ≤ clen`, the copy range is never reversed, the
temporary buffer receives exactly `alloc_size` bytes, and the bytes handed to `duk_push_lstring`
are canonical with ECMAScript view `utf16(h)[s, e)`.** -/
theorem pushWtf8Substring_canonical {data : List UInt8} (hc : Canonical data) {clen s e : Nat}
    (hclen : unicodeWtf8Charlength data = some clen) (hse : s ≤ e) (he : e ≤ clen) :
    (clen ≠ data.length → s ≠ e → ∃ p copyStart sf copyEnd,
        substringStart data s = some (p, copyStart) ∧ substringEnd data e = some (sf, copyEnd) ∧
        copyStart ≤ copyEnd ∧ (p ≠ 0 ∨ sf ≠ 0 → ∃ allocSize buf,
          substringBuffer data p copyStart sf copyEnd = some (allocSize, buf) ∧
            buf.length = allocSize)) ∧
    ∃ out, pushWtf8SubstringHstring data clen s e = some out ∧ Canonical out ∧
      utf16 out = ((utf16 data).drop s).take (e - s) :=
  pushWtf8Substring_spec hc hclen hse he

/-- "A😀B" is canonical, of character length 4 and byte length 6. -/
theorem canonical_emojiString :
    Canonical (encode [0x41, 0x1F600, 0x42]) ∧
      unicodeWtf8Charlength (encode [0x41, 0x1F600, 0x42]) = some 4 := by
  have hv : AllCodepoints [0x41, 0x1F600, 0x42] := by simp [AllCodepoints]
  have hc : Canonical (encode [0x41, 0x1F600, 0x42]) :=
    (canonical_iff _).mpr ⟨_, hv, by simp [NoSurrogatePair, IsHighSurrogate], rfl⟩
  have hl : unicodeWtf8Charlength (encode [0x41, 0x1F600, 0x42]) = some 4 := by
    rw [(unicodeWtf8Charlength_of_valid hc.1).1, utf16_encode hv]; rfl
  exact ⟨hc, hl⟩

/-- "A😀B" cut between the halves of U+1F600: the substring `[2, 3)` is its low surrogate. -/
theorem pushWtf8Substring_canonical_split :
    Canonical (encode [0x41, 0x1F600, 0x42]) ∧
      unicodeWtf8Charlength (encode [0x41, 0x1F600, 0x42]) = some 4 ∧
      ∃ out, pushWtf8SubstringHstring (encode [0x41, 0x1F600, 0x42]) 4 2 3 = some out ∧
        Canonical out ∧ utf16 out = [0xDE00] := by
  obtain ⟨hc, hl⟩ := canonical_emojiString
  obtain ⟨-, out, ho, hco, hu⟩ := pushWtf8Substring_canonical hc hl (show 2 ≤ 3 by decide)
    (show 3 ≤ 4 by decide)
  refine ⟨hc, hl, out, ho, hco, ?_⟩
  rw [hu, utf16_encode (show AllCodepoints [0x41, 0x1F600, 0x42] by simp [AllCodepoints])]
  rfl

/-! ## Adjacent substrings -/

theorem slice_split {α : Type} (l : List α) {s m e : Nat} (hsm : s ≤ m) (hme : m ≤ e) :
    (l.drop s).take (e - s) = (l.drop s).take (m - s) ++ (l.drop m).take (e - m) := by
  rw [show e - s = (m - s) + (e - m) by omega, List.take_add, List.drop_drop,
    show s + (m - s) = m by omega]

/-- **Interning two adjacent substrings of a canonical string one after the other gives the
substring that spans both**, also when the cut between them falls between the two halves of a
4-byte code point: the high surrogate manufactured at the end of the first and the low one at the
start of the second are joined again. -/
theorem pushWtf8Substring_append {data : List UInt8} (hc : Canonical data) {clen s m e : Nat}
    (hclen : unicodeWtf8Charlength data = some clen) (hsm : s ≤ m) (hme : m ≤ e) (he : e ≤ clen) :
    ∃ out1 out2, pushWtf8SubstringHstring data clen s m = some out1 ∧
      pushWtf8SubstringHstring data clen m e = some out2 ∧
      pushWtf8SubstringHstring data clen s e = some (unicodeWtf8SanitizeDetect (out1 ++ out2)) := by
  obtain ⟨-, out1, h1, hc1, hu1⟩ := pushWtf8Substring_spec hc hclen hsm (hme.trans he)
  obtain ⟨-, out2, h2, hc2, hu2⟩ := pushWtf8Substring_spec hc hclen hme he
  obtain ⟨-, out, h, hco, hu⟩ := pushWtf8Substring_spec hc hclen (hsm.trans hme) he
  have hv := isValidWtf8_append_of_valid hc1.1 hc2.1
  refine ⟨out1, out2, h1, h2, ?_⟩
  rw [h, unicodeWtf8SanitizeDetect, detectSymbol_of_valid hv, if_neg Bool.false_ne_true,
    Option.some.injEq, canonical_eq_iff_utf16 hco (canonical_sanitizeString _),
    utf16_sanitizeString_of_valid hv, utf16_append_of_valid hc1.1 hc2.1, hu, hu1, hu2]
  exact slice_split _ hsm hme

/-- "A😀B" cut between the halves of U+1F600: "A" and the high surrogate, then the low surrogate
and "B", interned together, are the whole string. -/
theorem pushWtf8Substring_append_split :
    Canonical (encode [0x41, 0x1F600, 0x42]) ∧
      unicodeWtf8Charlength (encode [0x41, 0x1F600, 0x42]) = some 4 ∧
      ∃ out1 out2, pushWtf8SubstringHstring (encode [0x41, 0x1F600, 0x42]) 4 0 2 = some out1 ∧
        pushWtf8SubstringHstring (encode [0x41, 0x1F600, 0x42]) 4 2 4 = some out2 ∧
        pushWtf8SubstringHstring (encode [0x41, 0x1F600, 0x42]) 4 0 4 =
          some (unicodeWtf8SanitizeDetect (out1 ++ out2)) := by
  obtain ⟨hc, hl⟩ := canonical_emojiString
  exact ⟨hc, hl, pushWtf8Substring_append hc hl (by decide) (by decide) (by decide)⟩

/-! ## Nested substrings

A substring is interned, and its character length is what `duk_hstring_get_charlen` gives the next
`duk_push_wtf8_substring_hstring` on it. Taking a substring of the whole string, or of a substring,
is taking one substring of the original string. -/

theorem utf16_length_of_charlength {data : List UInt8} (hv : IsValidWtf8 data) {clen : Nat}
    (hclen : unicodeWtf8Charlength data = some clen) : (utf16 data).length = clen := by
  rw [(unicodeWtf8Charlength_of_valid hv).1] at hclen
  exact Option.some.inj hclen

/-- **The substring `[0, clen)` of a canonical string is the string itself.** -/
theorem pushWtf8Substring_whole {data : List UInt8} (hc : Canonical data) {clen : Nat}
    (hclen : unicodeWtf8Charlength data = some clen) :
    pushWtf8SubstringHstring data clen 0 clen = some data := by
  obtain ⟨-, out, h, hco, hu⟩ := pushWtf8Substring_spec hc hclen (Nat.zero_le clen) le_rfl
  rw [h, Option.some.injEq, canonical_eq_iff_utf16 hco hc, hu, List.drop_zero, Nat.sub_zero,
    ← utf16_length_of_charlength hc.1 hclen, List.take_length]

/-- "A😀B" is its own substring `[0, 4)`. -/
theorem pushWtf8Substring_whole_emoji :
    Canonical (encode [0x41, 0x1F600, 0x42]) ∧
      unicodeWtf8Charlength (encode [0x41, 0x1F600, 0x42]) = some 4 ∧
      pushWtf8SubstringHstring (encode [0x41, 0x1F600, 0x42]) 4 0 4 =
        some (encode [0x41, 0x1F600, 0x42]) := by
  obtain ⟨hc, hl⟩ := canonical_emojiString
  exact ⟨hc, hl, pushWtf8Substring_whole hc hl⟩

/-- **A substring of a substring is a substring.** On a canonical string and offsets
`s ≤ e ≤ clen`, the substring `[s, e)` has character length `e - s`, and its substring
`[s', e')` for `e' ≤ e - s` is the substring `[s + s', s + e')` of the string: also where a cut
falls between the halves of a 4-byte code point, so that the inner string begins with a
manufactured low surrogate or ends with a manufactured high one. -/
theorem pushWtf8Substring_substring {data : List UInt8} (hc : Canonical data)
    {clen s e s' e' : Nat} (hclen : unicodeWtf8Charlength data = some clen) (hse : s ≤ e)
    (he : e ≤ clen) (hse' : s' ≤ e') (he' : e' ≤ e - s) :
    ∃ out, pushWtf8SubstringHstring data clen s e = some out ∧
      unicodeWtf8Charlength out = some (e - s) ∧
      pushWtf8SubstringHstring out (e - s) s' e' =
        pushWtf8SubstringHstring data clen (s + s') (s + e') := by
  have hlen := utf16_length_of_charlength hc.1 hclen
  obtain ⟨-, out, h1, hc1, hu1⟩ := pushWtf8Substring_spec hc hclen hse he
  have hl1 : unicodeWtf8Charlength out = some (e - s) := by
    rw [(unicodeWtf8Charlength_of_valid hc1.1).1, hu1, List.length_take, List.length_drop,
      Nat.min_eq_left (by omega)]
  obtain ⟨-, out2, h2, hc2, hu2⟩ := pushWtf8Substring_spec hc1 hl1 hse' he'
  obtain ⟨-, out3, h3, hc3, hu3⟩ :=
    pushWtf8Substring_spec hc hclen (show s + s' ≤ s + e' by omega) (show s + e' ≤ clen by omega)
  refine ⟨out, h1, hl1, ?_⟩
  rw [h2, h3, Option.some.injEq, canonical_eq_iff_utf16 hc2 hc3, hu2, hu3, hu1, List.drop_take,
    List.drop_drop, List.take_take, show s + e' - (s + s') = e' - s' by omega,
    Nat.min_eq_left (by omega)]

/-- "A😀B": the substring `[0, 3)` is "A😀" cut after the high surrogate, and its substring
`[1, 2)` is the high surrogate, the substring `[1, 2)` of "A😀B". -/
theorem pushWtf8Substring_substring_split :
    Canonical (encode [0x41, 0x1F600, 0x42]) ∧
      unicodeWtf8Charlength (encode [0x41, 0x1F600, 0x42]) = some 4 ∧
      ∃ out, pushWtf8SubstringHstring (encode [0x41, 0x1F600, 0x42]) 4 0 3 = some out ∧
        unicodeWtf8Charlength out = some 3 ∧
        pushWtf8SubstringHstring out 3 1 2 =
          pushWtf8SubstringHstring (encode [0x41, 0x1F600, 0x42]) 4 1 2 := by
  obtain ⟨hc, hl⟩ := canonical_emojiString
  exact ⟨hc, hl, pushWtf8Substring_substring hc hl (by decide) (by decide) (by decide) (by decide)⟩

end Duk
