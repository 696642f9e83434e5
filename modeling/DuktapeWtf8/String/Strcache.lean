import DuktapeWtf8.Sanitize.Canonical
import DuktapeWtf8.Unicode.Charlength

set_option autoImplicit false

/-! # Character offsets and byte offsets

The string functions of `duk_unicode_wtf8.c` index a valid WTF-8 string by ECMAScript character
offsets: positions in its UTF-16 view `utf16`, where a 4-byte sequence is two characters. They
find the byte offset of a character with `duk_strcache_scan_char2byte_wtf8`, which is not among
the repository's files and is modelled here by its contract, and read the code point there with
`duk_unicode_wtf8_decode_known` (lines 735-772).

On a string `encode cps`, the scan stops at the `k`-th code point, the one that holds the
character: its byte offset is the length of `encode (cps.take k)` and its character offset the
length of `toUtf16 (cps.take k)`. The lemmas on `take` and `drop` of the two views let the
callers cut a string at such a code point.
-/

namespace Duk

/-! ## The scan -/

/-- From the code point at byte offset `byteOff` and character offset `charOff` on, the offsets of
the code point that holds the character `target`. -/
def scanCodepoints : List Nat → Nat → Nat → Nat → Nat × Nat
  | [], _, byteOff, charOff => (byteOff, charOff)
  | c :: cs, target, byteOff, charOff =>
    if target < charOff + (codeUnits c).length then (byteOff, charOff)
    else scanCodepoints cs target (byteOff + (encodeCp c).length) (charOff + (codeUnits c).length)

/-- Modelled from the spec: `duk_strcache_scan_char2byte_wtf8`, by its contract. For a character
offset `charOff` of a valid string it gives the byte offset and the character offset at which
the code point that holds character `charOff` begins, and `(blen, clen)` for `charOff = clen`. -/
def strcacheScanChar2Byte (data : List UInt8) (charOff : Nat) : Nat × Nat :=
  scanCodepoints (decode data) charOff 0 0

/-- The scan stops at the `k`-th code point, the first whose code units reach past `target`. -/
theorem scanCodepoints_spec (cps : List Nat) (target byteOff charOff : Nat)
    (h0 : charOff ≤ target) (h1 : target ≤ charOff + (toUtf16 cps).length) :
    ∃ k ≤ cps.length, scanCodepoints cps target byteOff charOff =
      (byteOff + (encode (cps.take k)).length, charOff + (toUtf16 (cps.take k)).length) ∧
      charOff + (toUtf16 (cps.take k)).length ≤ target ∧
      (k < cps.length → target < charOff + (toUtf16 (cps.take (k + 1))).length) := by
  induction cps generalizing byteOff charOff with
  | nil => exact ⟨0, le_rfl, by simp [scanCodepoints], by simpa using h0, nofun⟩
  | cons c cs ih =>
    rw [scanCodepoints]
    by_cases ht : target < charOff + (codeUnits c).length
    · refine ⟨0, Nat.zero_le _, by rw [if_pos ht]; simp, by simpa using h0, fun _ => ?_⟩
      simpa using ht
    rw [if_neg ht]
    rw [toUtf16_cons, List.length_append] at h1
    obtain ⟨k, hk, he, hle, hlt⟩ := ih (byteOff + (encodeCp c).length)
      (charOff + (codeUnits c).length) (by omega) (by omega)
    refine ⟨k + 1, by simp [hk], ?_, ?_, fun h => ?_⟩
    · rw [he]; simp [Nat.add_assoc]
    · simp only [List.take_succ_cons, toUtf16_cons, List.length_append]; omega
    · have := hlt (by simpa using h)
      simp only [List.take_succ_cons, toUtf16_cons, List.length_append]; omega

/-- On a valid string the scan runs over the code points it encodes. -/
theorem strcacheScanChar2Byte_encode {cps : List Nat} (hv : AllCodepoints cps) (target : Nat) :
    strcacheScanChar2Byte (encode cps) target = scanCodepoints cps target 0 0 := by
  rw [strcacheScanChar2Byte, decode_encode hv]

/-! ## Cutting the two views at a code point -/

theorem encode_take_append_drop (cps : List Nat) (k : Nat) :
    encode cps = encode (cps.take k) ++ encode (cps.drop k) := by
  rw [← encode_append, List.take_append_drop]

theorem toUtf16_take_append_drop (cps : List Nat) (k : Nat) :
    toUtf16 cps = toUtf16 (cps.take k) ++ toUtf16 (cps.drop k) := by
  rw [← toUtf16_append, List.take_append_drop]

theorem drop_encode_take (cps : List Nat) (k : Nat) :
    (encode cps).drop (encode (cps.take k)).length = encode (cps.drop k) := by
  conv_lhs => rw [encode_take_append_drop cps k]
  exact List.drop_left _ _

theorem drop_toUtf16_take (cps : List Nat) (k : Nat) :
    (toUtf16 cps).drop (toUtf16 (cps.take k)).length = toUtf16 (cps.drop k) := by
  conv_lhs => rw [toUtf16_take_append_drop cps k]
  exact List.drop_left _ _

theorem toUtf16_take_succ {cps : List Nat} {k : Nat} (hk : k < cps.length) :
    toUtf16 (cps.take (k + 1)) = toUtf16 (cps.take k) ++ codeUnits cps[k] := by
  rw [List.take_succ, List.getElem?_eq_getElem hk, Option.toList_some, toUtf16_append,
    toUtf16_cons, toUtf16_nil, List.append_nil]

/-- More code points, at least as many code units. -/
theorem toUtf16_take_length_mono (cps : List Nat) {k k' : Nat} (h : k ≤ k') :
    (toUtf16 (cps.take k)).length ≤ (toUtf16 (cps.take k')).length := by
  have e := toUtf16_take_append_drop (cps.take k') k
  rw [List.take_take, Nat.min_eq_left h] at e
  rw [e, List.length_append]
  exact Nat.le_add_right _ _

theorem toUtf16_drop_eq_cons {cps : List Nat} {k : Nat} (hk : k < cps.length) :
    toUtf16 (cps.drop k) = codeUnits cps[k] ++ toUtf16 (cps.drop (k + 1)) := by
  rw [List.drop_eq_getElem_cons hk, toUtf16_cons]

theorem encode_drop_eq_cons {cps : List Nat} {k : Nat} (hk : k < cps.length) :
    encode (cps.drop k) = encodeCp cps[k] ++ encode (cps.drop (k + 1)) := by
  rw [List.drop_eq_getElem_cons hk, encode_cons]

/-- On a valid string of `clen` characters, the scan for an offset below `clen` stops at a code
point `k` whose code units hold that offset. -/
theorem scanCodepoints_lt {cps : List Nat} {target : Nat} (ht : target < (toUtf16 cps).length) :
    ∃ (k : Nat) (hk : k < cps.length), scanCodepoints cps target 0 0 =
      ((encode (cps.take k)).length, (toUtf16 (cps.take k)).length) ∧
      (toUtf16 (cps.take k)).length ≤ target ∧
      target < (toUtf16 (cps.take k)).length + (codeUnits cps[k]).length := by
  obtain ⟨k, -, hs, hle, hlt⟩ := scanCodepoints_spec cps target 0 0 (Nat.zero_le _) (by omega)
  simp only [Nat.zero_add] at hs hle hlt
  have hk : k < cps.length := by
    by_contra h
    rw [List.take_of_length_le (by omega)] at hle
    omega
  have := hlt hk
  rw [toUtf16_take_succ hk, List.length_append] at this
  exact ⟨k, hk, hs, hle, this⟩

/-! ## Reading the code point at a byte offset -/

/-- `duk_unicode_wtf8_decode_known` (lines 735-772): the code point of the sequence at `p`, read
from `t = p[0]` and the bytes `rest` after it; `none` where it would read past the end. -/
def unicodeWtf8DecodeKnown : List UInt8 → Option Nat
  | [] => none
  | t :: rest =>
    if t.toNat ≤ 0x7f then some t.toNat
    else if t.toNat ≤ 0xdf then do
      let p1 ← rest[0]?
      pure (((t.toNat &&& 0x1f) <<< 6) + (p1.toNat &&& 0x3f))
    else if t.toNat ≤ 0xef then do
      let p1 ← rest[0]?
      let p2 ← rest[1]?
      pure (((t.toNat &&& 0x0f) <<< 12) + ((p1.toNat &&& 0x3f) <<< 6) + (p2.toNat &&& 0x3f))
    else do
      let p1 ← rest[0]?
      let p2 ← rest[1]?
      let p3 ← rest[2]?
      pure (((t.toNat &&& 0x07) <<< 18) + ((p1.toNat &&& 0x3f) <<< 12) +
        ((p2.toNat &&& 0x3f) <<< 6) + (p3.toNat &&& 0x3f))

/-- On a whole sequence, `decode_known` computes the value `decodeSeq` reads. -/
theorem decodeKnown_seq {t : UInt8} {rest : List UInt8} (hl : rest.length = seqLength t - 1)
    (r : List UInt8) : unicodeWtf8DecodeKnown (t :: (rest ++ r)) = some (decodeSeq (t :: rest)) := by
  unfold seqLength at hl
  rw [unicodeWtf8DecodeKnown]
  split_ifs at hl ⊢
  · rw [List.length_eq_zero.mp hl]; rfl
  · obtain ⟨c1, rfl⟩ := List.length_eq_one.mp hl
    simp [decodeSeq]
  · obtain ⟨c1, c2, rfl⟩ := List.length_eq_two.mp hl
    simp [decodeSeq]
  · obtain ⟨c1, c2, c3, rfl⟩ := List.length_eq_three.mp hl
    simp [decodeSeq]

/-- At the start of an encoding, `decode_known` reads its code point. -/
theorem decodeKnown_encodeCp_append {c : Nat} (hc : c ≤ 0x10FFFF) (r : List UInt8) :
    unicodeWtf8DecodeKnown (encodeCp c ++ r) = some c := by
  obtain ⟨t, rest, he, hl, hd⟩ := encodeCp_read hc
  rw [he, List.cons_append, decodeKnown_seq hl, hd]

/-- At the byte offset of the `k`-th code point, `decode_known` reads that code point. -/
theorem decodeKnown_drop {cps : List Nat} (hv : AllCodepoints cps) {k : Nat}
    (hk : k < cps.length) :
    unicodeWtf8DecodeKnown ((encode cps).drop (encode (cps.take k)).length) = some cps[k] := by
  rw [drop_encode_take, encode_drop_eq_cons hk,
    decodeKnown_encodeCp_append (hv _ (List.getElem_mem hk))]

/-! ## ASCII strings -/

/-- An ASCII string is the encoding of its bytes' values. -/
theorem encode_map_toNat {b : List UInt8} (h : ∀ x ∈ b, x.toNat < 0x80) :
    encode (b.map UInt8.toNat) = b := by
  induction b with
  | nil => rfl
  | cons t p ih =>
    have ht := h t (List.mem_cons_self t p)
    rw [List.map_cons, encode_cons, ih (fun x hx => h x (List.mem_cons_of_mem t hx)), encodeCp,
      if_pos ht, uint8_ofNat_toNat]
    rfl

theorem toUtf16_of_lt {cps : List Nat} (h : ∀ c ∈ cps, c < 0x10000) : toUtf16 cps = cps := by
  induction cps with
  | nil => rfl
  | cons c cs ih =>
    rw [toUtf16_cons, codeUnits_of_lt (h c (List.mem_cons_self c cs)),
      ih (fun x hx => h x (List.mem_cons_of_mem c hx))]
    rfl

/-- The ECMAScript view of an ASCII string is its bytes. -/
theorem utf16_of_ascii {b : List UInt8} (h : ∀ x ∈ b, x.toNat < 0x80) :
    utf16 b = b.map UInt8.toNat := by
  have hv : AllCodepoints (b.map UInt8.toNat) := fun c hc => by
    obtain ⟨x, hx, rfl⟩ := List.mem_map.mp hc
    have := h x hx; omega
  conv_lhs => rw [← encode_map_toNat h]
  rw [utf16_encode hv, toUtf16_of_lt]
  intro c hc
  obtain ⟨x, hx, rfl⟩ := List.mem_map.mp hc
  have := h x hx; omega

end Duk
