import DuktapeWtf8.String.Strcache

set_option autoImplicit false

/-! # `charCodeAt` and `codePointAt`

`duk_unicode_wtf8_charcodeat_helper` (`duk_unicode_wtf8.c`, lines 774-816), called by
`duk_hstring_char_code_at_raw` (`duk_hstring_misc.c`, lines 205-210), returns the code unit at a
character offset of a string, or with `surrogate_aware` the code point that begins there. An
ASCII string (`clen == blen`) is indexed by byte; otherwise the helper scans to the code point
that holds the character, decodes it, and returns it, or the half of its surrogate pair the
offset falls on.

On a canonical string, `surrogate_aware == 0` gives the code unit of the ECMAScript view and
`surrogate_aware == 1` gives ECMAScript's `codePointAt`. The second needs canonicity: on a 3-byte
high surrogate followed by a 3-byte low surrogate the helper returns the high surrogate alone.
-/

namespace Duk

/-- ECMAScript `codePointAt` over code units: the unit at `pos`, or the code point of the
surrogate pair that begins there; `none` past the end. -/
def codePointAt (units : List Nat) (pos : Nat) : Option Nat :=
  match units.drop pos with
  | [] => none
  | first :: rest =>
    match rest with
    | second :: _ =>
      if IsHighSurrogate first ∧ IsLowSurrogate second then some (combineSurrogates first second)
      else some first
    | [] => some first

/-- `duk_unicode_wtf8_charcodeat_helper` on the data of a string whose
`duk_hstring_get_charlen` is `clen`; `none` where it would read outside the data. -/
def unicodeWtf8CharcodeatHelper (data : List UInt8) (clen pos : Nat) (surrogateAware : Bool) :
    Option Nat :=
  if clen = data.length then (data[pos]?).map UInt8.toNat
  else
    let (byteoff, charoff) := strcacheScanChar2Byte data pos
    do
      let cp ← unicodeWtf8DecodeKnown (data.drop byteoff)
      if cp < 0x10000 then pure cp
      else if charoff = pos then
        if surrogateAware then pure cp else pure (0xd800 + ((cp - 0x10000) >>> 10))
      else pure (0xdc00 + ((cp - 0x10000) &&& 0x3ff))

theorem codePointAt_of_not_pair {units : List Nat} {pos first : Nat} {rest : List Nat}
    (h : units.drop pos = first :: rest)
    (hn : ∀ second ∈ rest.head?, ¬ (IsHighSurrogate first ∧ IsLowSurrogate second)) :
    codePointAt units pos = some first := by
  rw [codePointAt, h]
  cases rest with
  | nil => rfl
  | cons second _ => exact if_neg (hn second rfl)

theorem codePointAt_of_pair {units : List Nat} {pos first second : Nat} {rest : List Nat}
    (h : units.drop pos = first :: second :: rest)
    (hp : IsHighSurrogate first ∧ IsLowSurrogate second) :
    codePointAt units pos = some (combineSurrogates first second) := by
  rw [codePointAt, h]
  exact if_pos hp

theorem getElem?_of_drop {units : List Nat} {pos first : Nat} {rest : List Nat}
    (h : units.drop pos = first :: rest) : units[pos]? = some first := by
  rw [← List.head?_drop, h]
  rfl

/-- Without surrogate pairs, the code unit after a code point never completes it as a pair. -/
theorem not_pair_next_unit {cps : List Nat} (hv : AllCodepoints cps) (hn : NoSurrogatePair cps)
    {k : Nat} (hk : k < cps.length) :
    ∀ second ∈ (toUtf16 (cps.drop (k + 1))).head?,
      ¬ (IsHighSurrogate cps[k] ∧ IsLowSurrogate second) := by
  intro second hs hp
  cases hd : cps.drop (k + 1) with
  | nil => rw [hd] at hs; exact absurd hs (by simp)
  | cons d ds =>
    rw [hd] at hs
    have hdl := isLow_head_toUtf16 (hv d (List.mem_of_mem_drop (hd ▸ List.mem_cons_self d ds)))
      hs hp.2
    have hc := List.Chain'.drop hn k
    rw [List.drop_eq_getElem_cons hk, hd] at hc
    exact (List.chain'_cons.mp hc).1 ⟨hp.1, hdl⟩

/-- The ASCII path (`clen == blen`): the byte at `pos` is the code unit there, and no pair
begins there. -/
theorem charcodeatHelper_of_ascii {data : List UInt8} (hasc : ∀ x ∈ data, x.toNat < 0x80)
    {pos : Nat} (hpos : pos < data.length) (aware : Bool) :
    unicodeWtf8CharcodeatHelper data data.length pos aware = (utf16 data)[pos]? ∧
      codePointAt (utf16 data) pos = (utf16 data)[pos]? := by
  have hd : (data.map UInt8.toNat).drop pos =
      data[pos].toNat :: (data.map UInt8.toNat).drop (pos + 1) := by
    rw [← List.map_drop, List.drop_eq_getElem_cons hpos, List.map_cons, List.map_drop]
  have hn : ¬ IsHighSurrogate data[pos].toNat := fun h => by
    have := hasc _ (List.getElem_mem hpos); unfold IsHighSurrogate at h; omega
  rw [unicodeWtf8CharcodeatHelper, if_pos rfl, utf16_of_ascii hasc, List.getElem?_map,
    codePointAt_of_not_pair hd (fun _ _ hp => hn hp.1), List.getElem?_eq_getElem hpos]
  exact ⟨rfl, rfl⟩

/-- The decoding path on the encoding of code points with no surrogate pair: the half of the
code point that `pos` falls on, or with surrogate awareness the code point where it begins. -/
theorem charcodeatHelper_of_encode {cps : List Nat} (hv : AllCodepoints cps)
    (hn : NoSurrogatePair cps) {clen pos : Nat} (hclen : clen ≠ (encode cps).length)
    (hpos : pos < (toUtf16 cps).length) :
    unicodeWtf8CharcodeatHelper (encode cps) clen pos false = (toUtf16 cps)[pos]? ∧
      unicodeWtf8CharcodeatHelper (encode cps) clen pos true = codePointAt (toUtf16 cps) pos := by
  have hscan : strcacheScanChar2Byte (encode cps) pos = scanCodepoints cps pos 0 0 := by
    rw [strcacheScanChar2Byte, decode_encode hv]
  obtain ⟨k, hk, hs, hle, hlt⟩ := scanCodepoints_lt hpos
  have hdrop := drop_toUtf16_take cps k
  rw [toUtf16_drop_eq_cons hk] at hdrop
  unfold unicodeWtf8CharcodeatHelper
  rw [if_neg hclen, if_neg hclen, hscan, hs]
  dsimp only
  rw [decodeKnown_drop hv hk]
  simp only [Option.bind_eq_bind, Option.some_bind]
  have hck := hv _ (List.getElem_mem hk)
  by_cases hsmall : cps[k] < 0x10000
  · rw [codeUnits_of_lt hsmall, List.singleton_append] at hdrop
    rw [codeUnits_of_lt hsmall, List.length_singleton] at hlt
    obtain rfl : pos = (toUtf16 (cps.take k)).length := by omega
    rw [if_pos hsmall, if_pos hsmall, getElem?_of_drop hdrop,
      codePointAt_of_not_pair hdrop (not_pair_next_unit hv hn hk)]
    exact ⟨rfl, rfl⟩
  rw [codeUnits, if_neg hsmall, List.cons_append, List.singleton_append] at hdrop
  rw [codeUnits_length, if_neg hsmall] at hlt
  rw [if_neg hsmall, if_neg hsmall]
  by_cases hpos' : (toUtf16 (cps.take k)).length = pos
  · subst hpos'
    rw [if_pos rfl, if_pos rfl, getElem?_of_drop hdrop,
      codePointAt_of_pair hdrop ⟨highSurrogate_isHigh hck, lowSurrogate_isLow _⟩,
      combineSurrogates_split (by omega) hck]
    exact ⟨by simp [highSurrogate], rfl⟩
  · have hd1 : (toUtf16 cps).drop pos = lowSurrogate cps[k] :: toUtf16 (cps.drop (k + 1)) := by
      rw [show pos = (toUtf16 (cps.take k)).length + 1 by omega, ← List.drop_drop, hdrop]
      rfl
    have hlo : ¬ IsHighSurrogate (lowSurrogate cps[k]) := fun h => by
      have := lowSurrogate_isLow cps[k]; unfold IsHighSurrogate at h; unfold IsLowSurrogate at this
      omega
    rw [if_neg hpos', if_neg hpos', getElem?_of_drop hd1,
      codePointAt_of_not_pair hd1 (fun _ _ hp => hlo hp.1)]
    exact ⟨by simp [lowSurrogate], by simp [lowSurrogate]⟩

/-- **On a canonical string, the helper returns the code unit of the ECMAScript view at `pos`,
and with surrogate awareness ECMAScript's `codePointAt`, on the ASCII path and the decoding path
alike.** -/
theorem charcodeatHelper_eq_utf16 {data : List UInt8} (hc : Canonical data) {clen pos : Nat}
    (hclen : unicodeWtf8Charlength data = some clen) (hpos : pos < clen) :
    unicodeWtf8CharcodeatHelper data clen pos false = (utf16 data)[pos]? ∧
      unicodeWtf8CharcodeatHelper data clen pos true = codePointAt (utf16 data) pos := by
  obtain ⟨hlen, -⟩ := unicodeWtf8Charlength_of_valid hc.1
  rw [hlen, Option.some.injEq] at hclen
  subst hclen
  by_cases hfast : (utf16 data).length = data.length
  · have hasc := (utf16_length_eq_iff hc.1).mp hfast
    rw [hfast] at hpos ⊢
    obtain ⟨h0, -⟩ := charcodeatHelper_of_ascii hasc hpos false
    obtain ⟨h1, hcp⟩ := charcodeatHelper_of_ascii hasc hpos true
    exact ⟨h0, h1.trans hcp.symm⟩
  obtain ⟨hv, he⟩ := encode_decode_of_valid hc.1
  have hn := (containsSurrogatePair_encode hv).mp (he.symm ▸ hc.2)
  generalize decode data = cps at hv he hn
  subst he
  rw [utf16_encode hv] at hfast hpos ⊢
  exact charcodeatHelper_of_encode hv hn hfast hpos

/-- "A😀": at offset 1 the helper returns the high surrogate of U+1F600, or with surrogate
awareness the code point itself. -/
theorem charcodeatHelper_eq_utf16_emoji :
    Canonical (encode [0x41, 0x1F600]) ∧ unicodeWtf8Charlength (encode [0x41, 0x1F600]) = some 3 ∧
      unicodeWtf8CharcodeatHelper (encode [0x41, 0x1F600]) 3 1 false = some 0xD83D ∧
      unicodeWtf8CharcodeatHelper (encode [0x41, 0x1F600]) 3 1 true = some 0x1F600 := by
  have hv : AllCodepoints [0x41, 0x1F600] := by simp [AllCodepoints]
  have hc : Canonical (encode [0x41, 0x1F600]) :=
    (canonical_iff _).mpr ⟨_, hv, by simp [NoSurrogatePair, IsHighSurrogate], rfl⟩
  have hl : unicodeWtf8Charlength (encode [0x41, 0x1F600]) = some 3 := by
    rw [(unicodeWtf8Charlength_of_valid hc.1).1, utf16_encode hv]; rfl
  obtain ⟨h0, h1⟩ := charcodeatHelper_eq_utf16 hc hl (show 1 < 3 by decide)
  rw [utf16_encode hv] at h0 h1
  exact ⟨hc, hl, h0.trans rfl, h1.trans (by decide)⟩

end Duk
