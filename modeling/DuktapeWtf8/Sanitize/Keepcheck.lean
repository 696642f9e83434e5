import DuktapeWtf8.Sanitize.Reference

set_option autoImplicit false

/-! # The keep check

`duk_unicode_wtf8_sanitize_keepcheck` (`duk_unicode_wtf8.c`, lines 346-367) tells the interner
how many bytes at the start of a string it may keep as they are: the ASCII prefix found by
`duk__unicode_wtf8_sanitize_asciicheck_optimized` (lines 279-336), or the whole string for a
symbol. The scanner walks byte by byte to a 4-byte aligned address, tests a 32-bit word at a
time against the mask 0x80808080, and finishes byte by byte. Where it switches depends on the
address of the string, so the model takes that address `addr` as a parameter; the pointer `p`
is an offset `off` from `str` together with the bytes `rest` from `p` to `p_end`, and a read at
`p_end` or beyond makes a loop return `none`.

For every address the scanner reads only inside the string and computes the byte-wise
reference of lines 263-277 (`asciicheckOptimized_eq`); keeping the prefix the check reports
then agrees with `unicodeWtf8SanitizeDetect`.
-/

namespace Duk

/-! ## The scanners -/

/-- `duk__unicode_wtf8_sanitize_asciicheck_reference` (lines 263-277, compiled out): the index
of the first byte ≥ 0x80, or `blen` if there is none. -/
def asciicheckReference : List UInt8 → Nat
  | [] => 0
  | b :: bs => if b.toNat ≥ 0x80 then 0 else asciicheckReference bs + 1

/-- The byte loop at `skip_fastpath` (lines 325-334). -/
def skipFastpath (blen : Nat) : Nat → List UInt8 → Nat
  | _, [] => blen
  | off, b :: rest => if b.toNat ≥ 0x80 then off else skipFastpath blen (off + 1) rest

/-- Where the alignment loop leaves `p`: at an aligned address (`aligned`), or at a byte
≥ 0x80 for `goto skip_fastpath`. -/
structure AlignExit where
  aligned : Bool
  off : Nat
  rest : List UInt8

/-- The alignment loop of lines 296-303, `p` at address `addr + off`. -/
def alignLoop (addr : Nat) (off : Nat) (rest : List UInt8) : Option AlignExit :=
  if (addr + off) &&& 0x03 = 0 then some ⟨true, off, rest⟩
  else
    match rest with
    | [] => none
    | b :: rest' => if b.toNat ≥ 0x80 then some ⟨false, off, rest⟩ else alignLoop addr (off + 1) rest'

/-- `x = *p32`, read little-endian; the test against 0x80808080 does not depend on the byte
order. -/
def word (b0 b1 b2 b3 : UInt8) : Nat :=
  b0.toNat + 0x100 * (b1.toNat + 0x100 * (b2.toNat + 0x100 * b3.toNat))

/-- The `do ... while (p32 != p32_end)` loop of lines 308-320, with `nLeft` words from `p32` to
`p32_end`: where `p` is when the code falls through to `skip_fastpath`. -/
def wordLoop : Nat → Nat → List UInt8 → Option (Nat × List UInt8)
  | nLeft, off, b0 :: b1 :: b2 :: b3 :: rest =>
    if word b0 b1 b2 b3 &&& 0x80808080 = 0 then
      if nLeft = 1 then some (off + 4, rest) else wordLoop (nLeft - 1) (off + 4) rest
    else some (off, b0 :: b1 :: b2 :: b3 :: rest)
  | _, _, _ => none

/-- `duk__unicode_wtf8_sanitize_asciicheck_optimized` for a string at address `addr`. The
string has fewer than 2^32 bytes (`blen` is a `duk_uint32_t`), so the mask `~0x03U` of line 305
clears exactly the two low bits of `p_end - p`: `p32_end` is `(p_end - p) / 4` words on. -/
def asciicheckOptimized (addr : Nat) (str : List UInt8) : Option Nat :=
  let blen := str.length
  if blen < 8 then some (skipFastpath blen 0 str)
  else do
    let e ← alignLoop addr 0 str
    let (off, rest) ← if e.aligned then wordLoop (e.rest.length / 4) e.off e.rest
      else some (e.off, e.rest)
    pure (skipFastpath blen off rest)

/-- The symbol test of lines 355-361: the string begins with 0x80, 0x81, 0x82 or 0xFF. -/
def keepcheckSymbol : List UInt8 → Bool
  | [] => false
  | ib :: _ => decide (IsSymbolMarker ib)

/-- `duk_unicode_wtf8_sanitize_keepcheck` for a string at address `addr`. -/
def unicodeWtf8SanitizeKeepcheck (addr : Nat) (str : List UInt8) : Option Nat := do
  let blenKeep ← asciicheckOptimized addr str
  if blenKeep = 0 then
    if keepcheckSymbol str then pure str.length else pure blenKeep
  else pure blenKeep

/-! ## The reference scanner -/

theorem asciicheckReference_cons_of_lt {b : UInt8} (h : b.toNat < 0x80) (bs : List UInt8) :
    asciicheckReference (b :: bs) = asciicheckReference bs + 1 := if_neg (by omega)

theorem asciicheckReference_le (b : List UInt8) : asciicheckReference b ≤ b.length := by
  induction b with
  | nil => exact le_rfl
  | cons t bs ih =>
    rw [asciicheckReference]
    split
    · exact Nat.zero_le _
    · simp only [List.length_cons]; omega

/-- The bytes before the reported index are ASCII, and the byte at it is not. -/
theorem asciicheckReference_spec (b : List UInt8) :
    (∀ t ∈ b.take (asciicheckReference b), t.toNat < 0x80) ∧
      ∀ t ∈ (b.drop (asciicheckReference b)).head?, 0x80 ≤ t.toNat := by
  induction b with
  | nil => simp [asciicheckReference]
  | cons t bs ih =>
    by_cases h : t.toNat < 0x80
    · rw [asciicheckReference_cons_of_lt h, List.take_succ_cons, List.drop_succ_cons]
      exact ⟨List.forall_mem_cons.mpr ⟨h, ih.1⟩, ih.2⟩
    · rw [asciicheckReference, if_pos (by omega)]
      simp only [List.take_zero, List.drop_zero, List.head?_cons, Option.mem_def,
        Option.some.injEq]
      exact ⟨nofun, fun _ e => e ▸ (by omega)⟩

/-- On an all-ASCII string the reference scanner runs to the end. -/
theorem asciicheckReference_of_ascii {b : List UInt8} (h : ∀ t ∈ b, t.toNat < 0x80) :
    asciicheckReference b = b.length := by
  induction b with
  | nil => rfl
  | cons t bs ih =>
    rw [asciicheckReference_cons_of_lt (h t (List.mem_cons_self t bs)),
      ih (fun x hx => h x (List.mem_cons_of_mem t hx)), List.length_cons]

/-! ## The optimized scanner computes the reference -/

theorem land_0x03 (n : Nat) : n &&& 0x03 = n % 4 := Nat.and_pow_two_sub_one_eq_mod n 2

set_option maxRecDepth 2000 in
theorem land_0x80_eq_zero {a : Nat} (ha : a < 256) : a &&& 0x80 = 0 ↔ a < 0x80 := by
  revert a; decide

/-- Bitwise and works byte by byte. -/
theorem land_byte_add {a c : Nat} (b d : Nat) (ha : a < 256) (hc : c < 256) :
    (a + 256 * b) &&& (c + 256 * d) = (a &&& c) + 256 * (b &&& d) := by
  apply Nat.eq_of_testBit_eq
  intro j
  have e1 := Nat.testBit_mul_pow_two_add b (show a < 2 ^ 8 from ha) j
  have e2 := Nat.testBit_mul_pow_two_add d (show c < 2 ^ 8 from hc) j
  have e3 := Nat.testBit_mul_pow_two_add (b &&& d) (Nat.and_lt_two_pow a (show c < 2 ^ 8 from hc)) j
  simp only [Nat.reducePow] at e1 e2 e3
  rw [Nat.testBit_and, Nat.add_comm a, Nat.add_comm c, Nat.add_comm (a &&& c), e1, e2, e3]
  split <;> simp

/-- A word passes the mask test exactly when its four bytes are ASCII. -/
theorem word_land_eq_zero (b0 b1 b2 b3 : UInt8) :
    word b0 b1 b2 b3 &&& 0x80808080 = 0 ↔
      b0.toNat < 0x80 ∧ b1.toNat < 0x80 ∧ b2.toNat < 0x80 ∧ b3.toNat < 0x80 := by
  have h := uint8_toNat_lt
  rw [word, show (0x80808080 : Nat) = 0x80 + 0x100 * (0x80 + 0x100 * (0x80 + 0x100 * 0x80)) from rfl,
    land_byte_add _ _ (h b0) (by decide), land_byte_add _ _ (h b1) (by decide),
    land_byte_add _ _ (h b2) (by decide), ← land_0x80_eq_zero (h b0), ← land_0x80_eq_zero (h b1),
    ← land_0x80_eq_zero (h b2), ← land_0x80_eq_zero (h b3)]
  omega

theorem skipFastpath_eq (off : Nat) (rest : List UInt8) :
    skipFastpath (off + rest.length) off rest = off + asciicheckReference rest := by
  induction rest generalizing off with
  | nil => rfl
  | cons b rest ih =>
    rw [skipFastpath, asciicheckReference]
    split
    · rfl
    · rw [List.length_cons, ← Nat.add_assoc, Nat.add_right_comm, ih]; omega

/-- What the scanner keeps true as `p` moves: the offset plus the bytes left is `blen`, and the
offset plus the reference index of the bytes left is the reference index of the string. -/
def ScanInv (off : Nat) (rest : List UInt8) (off' : Nat) (rest' : List UInt8) : Prop :=
  off + rest.length = off' + rest'.length ∧
    off + asciicheckReference rest = off' + asciicheckReference rest'

/-- The alignment loop ends within the `(4 - (addr + off) % 4) % 4` bytes to the next aligned
address, without reading past `p_end` when there are that many. -/
theorem alignLoop_spec (addr : Nat) (off : Nat) (rest : List UInt8)
    (h : (4 - (addr + off) % 4) % 4 ≤ rest.length) :
    ∃ e, alignLoop addr off rest = some e ∧ e.off ≤ off + (4 - (addr + off) % 4) % 4 ∧
      ScanInv off rest e.off e.rest := by
  induction rest generalizing off with
  | nil =>
    refine ⟨⟨true, off, []⟩, ?_, Nat.le_add_right _ _, rfl, rfl⟩
    rw [alignLoop, if_pos (by rw [land_0x03]; simp at h; omega)]
  | cons b rest ih =>
    rw [alignLoop, land_0x03]
    by_cases ha : (addr + off) % 4 = 0
    · exact ⟨_, if_pos ha, Nat.le_add_right _ _, rfl, rfl⟩
    rw [if_neg ha]
    by_cases hb : b.toNat ≥ 0x80
    · exact ⟨_, if_pos hb, Nat.le_add_right _ _, rfl, rfl⟩
    rw [if_neg hb]
    obtain ⟨e, he, hoff, hl, hr⟩ := ih (off + 1) (by simp at h; omega)
    refine ⟨e, he, by omega, ?_, ?_⟩
    · rw [List.length_cons]; omega
    · rw [asciicheckReference_cons_of_lt (by omega)]; omega

/-- With `1 ≤ nLeft ≤ (p_end - p) / 4` the word loop reads only inside the string. -/
theorem wordLoop_spec (n : Nat) (off : Nat) (rest : List UInt8) (h1 : 1 ≤ n)
    (h2 : 4 * n ≤ rest.length) :
    ∃ off' rest', wordLoop n off rest = some (off', rest') ∧ ScanInv off rest off' rest' := by
  induction n generalizing off rest with
  | zero => omega
  | succ n ih =>
    match rest, h2 with
    | b0 :: b1 :: b2 :: b3 :: r, h2 =>
      rw [wordLoop]
      by_cases hw : word b0 b1 b2 b3 &&& 0x80808080 = 0
      · obtain ⟨a0, a1, a2, a3⟩ := (word_land_eq_zero b0 b1 b2 b3).mp hw
        have hinv : ScanInv off (b0 :: b1 :: b2 :: b3 :: r) (off + 4) r := by
          simp only [ScanInv, List.length_cons, asciicheckReference_cons_of_lt a0,
            asciicheckReference_cons_of_lt a1, asciicheckReference_cons_of_lt a2,
            asciicheckReference_cons_of_lt a3]
          omega
        rw [if_pos hw]
        by_cases hn : n + 1 = 1
        · exact ⟨_, _, if_pos hn, hinv⟩
        rw [if_neg hn, Nat.add_sub_cancel]
        obtain ⟨off', rest', he, hl, hr⟩ := ih (off + 4) r (by omega) (by simp at h2; omega)
        exact ⟨off', rest', he, hinv.1.trans hl, hinv.2.trans hr⟩
      · exact ⟨_, _, if_neg hw, rfl, rfl⟩

/-- **For every start address the optimized scanner reads only inside the string and returns
the index of the first byte ≥ 0x80, or `blen`.** -/
theorem asciicheckOptimized_eq (addr : Nat) (str : List UInt8) :
    asciicheckOptimized addr str = some (asciicheckReference str) := by
  have hskip : ∀ off rest, ScanInv 0 str off rest →
      skipFastpath str.length off rest = asciicheckReference str := fun off rest ⟨hl, hr⟩ => by
    rw [Nat.zero_add] at hl hr
    rw [hl, skipFastpath_eq, hr]
  rw [asciicheckOptimized]
  by_cases hs : str.length < 8
  · rw [if_pos hs, hskip 0 str ⟨rfl, rfl⟩]
  rw [if_neg hs]
  obtain ⟨e, he, hoff, hinv⟩ := alignLoop_spec addr 0 str (by omega)
  rw [he, Option.bind_eq_bind, Option.some_bind]
  cases ha : e.aligned
  · exact congrArg some (hskip _ _ hinv)
  · have hlen : 4 ≤ e.rest.length := by have := hinv.1; omega
    obtain ⟨off', rest', hw, hinv'⟩ := wordLoop_spec (e.rest.length / 4) e.off e.rest
      (by omega) (by omega)
    rw [if_pos rfl, hw]
    exact congrArg some (hskip _ _ ⟨hinv.1.trans hinv'.1, hinv.2.trans hinv'.2⟩)

/-- **The word-at-a-time scanner is the byte-wise reference.** For every start address, it
reads no byte and no word outside the string (such a read makes it `none`), and it returns what
the reference returns: the index of the first byte ≥ 0x80, or `blen` if there is none. -/
theorem asciicheckOptimized_eq_reference (addr : Nat) (b : List UInt8) :
    asciicheckOptimized addr b = some (asciicheckReference b) ∧ asciicheckReference b ≤ b.length ∧
      (∀ t ∈ b.take (asciicheckReference b), t.toNat < 0x80) ∧
      ∀ t ∈ (b.drop (asciicheckReference b)).head?, 0x80 ≤ t.toNat :=
  ⟨asciicheckOptimized_eq addr b, asciicheckReference_le b, asciicheckReference_spec b⟩

/-! ## Keeping the prefix -/

/-- An ASCII prefix passes through the sanitizer unchanged. -/
theorem sanitizeString_ascii_append {pre : List UInt8} (h : ∀ t ∈ pre, t.toNat < 0x80)
    (r : List UInt8) : unicodeWtf8SanitizeString (pre ++ r) = pre ++ unicodeWtf8SanitizeString r := by
  induction pre with
  | nil => rfl
  | cons t pre ih =>
    rw [List.cons_append, sanitizeString_cons, sanitizeStep_of_lt (h t (List.mem_cons_self t pre)),
      ih (fun x hx => h x (List.mem_cons_of_mem t hx))]
    rfl

theorem isSymbolMarker_le {ib : UInt8} (h : IsSymbolMarker ib) : 0x80 ≤ ib.toNat := by
  rcases h with rfl | rfl | rfl | rfl <;> decide

theorem keepcheckSymbol_eq_detectSymbol (b : List UInt8) : keepcheckSymbol b = detectSymbol b := by
  cases b with
  | nil => rfl
  | cons ib p =>
    rw [keepcheckSymbol, detectSymbol]
    split
    · exact decide_eq_false fun h => absurd (isSymbolMarker_le h) (by omega)
    · rfl

/-- A string whose first byte is a marker is a symbol to the keep check. -/
theorem keepcheckSymbol_of_head {b : List UInt8} {t : UInt8} (ht : t ∈ b.head?)
    (hm : IsSymbolMarker t) : keepcheckSymbol b = true := by
  cases b with
  | nil => cases ht
  | cons ib p =>
    obtain rfl : ib = t := Option.some.inj ht
    exact decide_eq_true hm

end Duk
