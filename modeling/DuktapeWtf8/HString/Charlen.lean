import DuktapeWtf8.Unicode.Charlength

set_option autoImplicit false

/-! # The character length of a string handle

`duk_hstring_misc.c` keeps the character length of a `duk_hstring` in one of three build
configurations:

* `eager` (no `DUK_USE_HSTRING_LAZY_CLEN`): `duk_hstring_init_charlen` (lines 79-100) stores
  `clen` when the string is created, and `duk_hstring_get_charlen` (lines 102-108) reads it;
* `lazyClen` (`DUK_USE_HSTRING_LAZY_CLEN` with `DUK_USE_HSTRING_CLEN`): `clen` is computed and
  stored by the first call that finds it 0 (lines 117-145, 181-192);
* `lazyNoClen` (`DUK_USE_HSTRING_LAZY_CLEN` alone): nothing is stored but the ASCII flag, which
  lets later calls return `blen` (lines 147-177, 194-197).

`HString` holds the fields these functions read and write. ROM strings are assumed enabled
(`DUK_USE_ROM_STRINGS`), so a handle may be read-only; `DUK_USE_STRLEN16` is not modelled, `clen`
is a 32-bit field whose values here stay below `blen`. A call returns `none` only where
`duk_unicode_wtf8_charlength` would step past the end of the data.

The main result: from a fresh writable handle, in every configuration and along every sequence
of calls, each call returns the character length of the data (0 for a symbol), `clen` is set at
most once, the ASCII flag is never cleared and is set only on ASCII data whose character length
is its byte length; a read-only handle is never written.
-/

namespace Duk

/-- The fields of a `duk_hstring` that the character length code reads and writes. -/
structure HString where
  data : List UInt8
  /-- `h->clen`. -/
  clen : Nat
  /-- `DUK_HSTRING_HAS_ASCII(h)`. -/
  ascii : Bool
  /-- `DUK_HSTRING_HAS_SYMBOL(h)`. -/
  symbol : Bool
  /-- `DUK_HEAPHDR_HAS_READONLY(h)`: a ROM string. -/
  readonly : Bool
  deriving DecidableEq, Repr

/-- The three build configurations of the character length. -/
inductive CharlenConfig where
  | eager
  | lazyClen
  | lazyNoClen
  deriving DecidableEq, Repr

/-- `if (res == duk_hstring_get_bytelen(h)) DUK_HSTRING_SET_ASCII(h);` (lines 97-99, 138-140,
171-173). -/
def HString.setAsciiIf (h : HString) (res : Nat) : HString :=
  if res = h.data.length then { h with ascii := true } else h

/-- `duk_hstring_init_charlen` (lines 79-100). -/
def hstringInitCharlen (h : HString) : Option HString := do
  let clen ← if h.symbol then pure 0 else unicodeWtf8Charlength h.data
  pure ({ h with clen := clen }.setAsciiIf clen)

/-- `duk__hstring_get_charlen_slowpath` with `DUK_USE_HSTRING_CLEN` (lines 117-145). -/
def getCharlenSlowpathClen (h : HString) : Option (Nat × HString) :=
  if h.readonly then some (0, h)
  else if h.symbol then some (0, h)
  else (unicodeWtf8Charlength h.data).map fun res => (res, { h with clen := res }.setAsciiIf res)

/-- `duk__hstring_get_charlen_slowpath` without `DUK_USE_HSTRING_CLEN` (lines 147-177). -/
def getCharlenSlowpathNoClen (h : HString) : Option (Nat × HString) :=
  if h.ascii then some (h.data.length, h)
  else if h.symbol then some (0, h)
  else (unicodeWtf8Charlength h.data).map fun res =>
    if h.readonly then (res, h) else (res, h.setAsciiIf res)

/-- `duk_hstring_get_charlen` (lines 102-108, 181-192, 194-197): the result and the handle
after the call. -/
def hstringGetCharlen : CharlenConfig → HString → Option (Nat × HString)
  | .eager, h => some (h.clen, h)
  | .lazyClen, h => if h.clen ≠ 0 then some (h.clen, h) else getCharlenSlowpathClen h
  | .lazyNoClen, h => getCharlenSlowpathNoClen h

/-- The handle the first call sees: in the eager configuration the one `duk_hstring_init_charlen`
leaves, otherwise the handle as created. -/
def startHandle : CharlenConfig → HString → Option HString
  | .eager, h => hstringInitCharlen h
  | _, h => some h

/-- The handles reachable from `h0` by calls of `duk_hstring_get_charlen`. -/
inductive Reachable (cfg : CharlenConfig) (h0 : HString) : HString → Prop
  | start {h : HString} : startHandle cfg h0 = some h → Reachable cfg h0 h
  | step {h h' : HString} {r : Nat} :
      Reachable cfg h0 h → hstringGetCharlen cfg h = some (r, h') → Reachable cfg h0 h'

/-! ## The invariant -/

/-- A freshly created writable handle: `clen` 0, the ASCII flag clear, and valid WTF-8 data
unless it is a symbol. -/
structure FreshHandle (h0 : HString) : Prop where
  clen_zero : h0.clen = 0
  not_ascii : h0.ascii = false
  writable : h0.readonly = false
  valid : h0.symbol = false → IsValidWtf8 h0.data

/-- What a call should return: 0 for a symbol, the character length of the data otherwise. -/
def charlenOf (h : HString) : Option Nat :=
  if h.symbol then some 0 else unicodeWtf8Charlength h.data

/-- What the ASCII flag promises of the data. -/
def AsciiSpec (data : List UInt8) : Prop :=
  (∀ x ∈ data, x.toNat < 0x80) ∧ unicodeWtf8Charlength data = some data.length

/-- What holds of every handle reachable from a fresh one `h0`. -/
structure CharlenInv (cfg : CharlenConfig) (h0 h : HString) : Prop where
  data : h.data = h0.data
  symbol : h.symbol = h0.symbol
  readonly : h.readonly = h0.readonly
  clen : h.clen = 0 ∨ charlenOf h0 = some h.clen
  eager_clen : cfg = .eager → charlenOf h0 = some h.clen
  ascii : h.ascii = true → AsciiSpec h.data
  symbol_ascii : h.symbol = true → h.ascii = true → h.data = []

@[simp] theorem setAsciiIf_data (h : HString) (res : Nat) : (h.setAsciiIf res).data = h.data := by
  unfold HString.setAsciiIf; split <;> rfl

@[simp] theorem setAsciiIf_clen (h : HString) (res : Nat) : (h.setAsciiIf res).clen = h.clen := by
  unfold HString.setAsciiIf; split <;> rfl

@[simp] theorem setAsciiIf_symbol (h : HString) (res : Nat) :
    (h.setAsciiIf res).symbol = h.symbol := by
  unfold HString.setAsciiIf; split <;> rfl

@[simp] theorem setAsciiIf_readonly (h : HString) (res : Nat) :
    (h.setAsciiIf res).readonly = h.readonly := by
  unfold HString.setAsciiIf; split <;> rfl

/-- The flag is set only when `res` is the byte length, and never cleared. -/
theorem setAsciiIf_ascii (h : HString) (res : Nat) :
    (h.setAsciiIf res).ascii = true ↔ h.ascii = true ∨ res = h.data.length := by
  unfold HString.setAsciiIf
  split
  · simp [*]
  · simp [*]

theorem setAsciiIf_of_ne {h : HString} {res : Nat} (hne : res ≠ h.data.length) :
    h.setAsciiIf res = h := if_neg hne

theorem asciiSpec_nil : AsciiSpec [] := ⟨nofun, by rw [unicodeWtf8Charlength, charlengthLoop]; rfl⟩

/-- On valid data, a character length equal to the byte length means ASCII data. -/
theorem asciiSpec_of_valid {d : List UInt8} (hb : IsValidWtf8 d)
    (h : unicodeWtf8Charlength d = some d.length) : AsciiSpec d := by
  obtain ⟨hc, -⟩ := unicodeWtf8Charlength_of_valid hb
  rw [hc, Option.some.injEq] at h
  exact ⟨(utf16_length_eq_iff hb).mp h, by rw [hc, h]⟩

/-- The character length of the data of a non-symbol fresh handle. -/
theorem charlenOf_of_fresh {h0 : HString} (hf : FreshHandle h0) (hs : h0.symbol = false) :
    unicodeWtf8Charlength h0.data = some (utf16 h0.data).length ∧
      charlenOf h0 = some (utf16 h0.data).length := by
  have hc := (unicodeWtf8Charlength_of_valid (hf.valid hs)).1
  exact ⟨hc, by rw [charlenOf, if_neg (by simp [hs]), hc]⟩

theorem charlenOf_isSome {h0 : HString} (hf : FreshHandle h0) : ∃ n, charlenOf h0 = some n := by
  cases hs : h0.symbol
  · exact ⟨_, (charlenOf_of_fresh hf hs).2⟩
  · exact ⟨0, by rw [charlenOf, if_pos hs]⟩

/-- A fresh handle satisfies the invariant of the lazy configurations. -/
theorem charlenInv_fresh {h0 : HString} (hf : FreshHandle h0) : CharlenInv .lazyClen h0 h0 where
  data := rfl
  symbol := rfl
  readonly := rfl
  clen := .inl hf.clen_zero
  eager_clen := nofun
  ascii h := absurd h (by rw [hf.not_ascii]; decide)
  symbol_ascii _ h := absurd h (by rw [hf.not_ascii]; decide)

/-- Storing the character length in `clen` establishes the invariant in every configuration. -/
theorem charlenInv_setClen {cfg cfg' : CharlenConfig} {h0 h : HString} {res : Nat}
    (hi : CharlenInv cfg' h0 h) (hres : charlenOf h0 = some res) :
    CharlenInv cfg h0 { h with clen := res } :=
  { hi with clen := .inr hres, eager_clen := fun _ => hres }

/-- Setting the ASCII flag after computing the character length keeps the invariant. -/
theorem charlenInv_setAsciiIf {cfg : CharlenConfig} {h0 h : HString} {res : Nat}
    (hf : FreshHandle h0) (hi : CharlenInv cfg h0 h) (hres : charlenOf h0 = some res) :
    CharlenInv cfg h0 (h.setAsciiIf res) := by
  have hset : res = h.data.length → AsciiSpec h.data ∧ (h.symbol = true → h.data = []) := by
    intro hl
    rw [hi.data] at hl ⊢
    rw [hi.symbol]
    cases hs : h0.symbol
    · rw [(charlenOf_of_fresh hf hs).2, Option.some.injEq] at hres
      have hc := (charlenOf_of_fresh hf hs).1
      exact ⟨asciiSpec_of_valid (hf.valid hs) (by rw [hc, hres, hl]), nofun⟩
    · rw [charlenOf, if_pos hs, Option.some.injEq] at hres
      have hnil := List.eq_nil_of_length_eq_zero (hl ▸ hres).symm
      exact ⟨hnil ▸ asciiSpec_nil, fun _ => hnil⟩
  refine ⟨?_, ?_, ?_, ?_, ?_, ?_, ?_⟩ <;> simp only [setAsciiIf_data, setAsciiIf_clen,
    setAsciiIf_symbol, setAsciiIf_readonly, setAsciiIf_ascii]
  · exact hi.data
  · exact hi.symbol
  · exact hi.readonly
  · exact hi.clen
  · exact hi.eager_clen
  · rintro (ha | hl)
    exacts [hi.ascii ha, (hset hl).1]
  · rintro hs (ha | hl)
    exacts [hi.symbol_ascii hs ha, (hset hl).2 hs]

/-! ## One call, and every run -/

/-- The character length a non-symbol handle's data has, and that a call should return. -/
theorem charlength_of_inv {cfg : CharlenConfig} {h0 h : HString} (hf : FreshHandle h0)
    (hi : CharlenInv cfg h0 h) (hs : ¬ h.symbol = true) :
    unicodeWtf8Charlength h.data = some (utf16 h0.data).length ∧
      charlenOf h0 = some (utf16 h0.data).length := by
  rw [hi.data]
  exact charlenOf_of_fresh hf (by simpa [hi.symbol] using hs)

theorem charlenInv_start (cfg : CharlenConfig) {h0 : HString} (hf : FreshHandle h0) :
    ∃ h, startHandle cfg h0 = some h ∧ CharlenInv cfg h0 h := by
  cases cfg with
  | eager =>
    obtain ⟨n, hn⟩ := charlenOf_isSome hf
    refine ⟨_, ?_, charlenInv_setAsciiIf hf (charlenInv_setClen (charlenInv_fresh hf) hn) hn⟩
    rw [startHandle, hstringInitCharlen]
    rw [charlenOf] at hn
    by_cases hs : h0.symbol = true
    · rw [if_pos hs] at hn ⊢; cases hn; rfl
    · rw [if_neg hs] at hn ⊢; rw [hn]; rfl
  | lazyClen => exact ⟨h0, rfl, charlenInv_fresh hf⟩
  | lazyNoClen => exact ⟨h0, rfl, { charlenInv_fresh hf with eager_clen := nofun }⟩

/-- One call from a handle satisfying the invariant: it returns the character length, keeps
the invariant, writes `clen` only when it is 0, and does not clear the ASCII flag. -/
theorem charlenInv_step {cfg : CharlenConfig} {h0 h : HString} (hf : FreshHandle h0)
    (hi : CharlenInv cfg h0 h) :
    ∃ r h', hstringGetCharlen cfg h = some (r, h') ∧ charlenOf h0 = some r ∧
      CharlenInv cfg h0 h' ∧ (h'.clen = h.clen ∨ h.clen = 0) ∧
      (h.ascii = true → h'.ascii = true) := by
  have hw : h.readonly = false := hi.readonly.trans hf.writable
  have hsym : h.symbol = true → charlenOf h0 = some 0 := fun hs => by
    rw [charlenOf, if_pos (hi.symbol ▸ hs)]
  cases cfg with
  | eager => exact ⟨h.clen, h, rfl, hi.eager_clen rfl, hi, .inl rfl, id⟩
  | lazyClen =>
    rw [hstringGetCharlen]
    by_cases hz : h.clen = 0
    · rw [if_neg (not_not.mpr hz), getCharlenSlowpathClen, if_neg (by simp [hw])]
      by_cases hs : h.symbol = true
      · rw [if_pos hs]; exact ⟨0, h, rfl, hsym hs, hi, .inl rfl, id⟩
      obtain ⟨hc, hn⟩ := charlength_of_inv hf hi hs
      rw [if_neg hs, hc, Option.map_some']
      exact ⟨_, _, rfl, hn, charlenInv_setAsciiIf hf (charlenInv_setClen hi hn) hn, .inr hz,
        fun ha => (setAsciiIf_ascii _ _).mpr (.inl ha)⟩
    · rw [if_pos hz]
      exact ⟨h.clen, h, rfl, hi.clen.resolve_left hz, hi, .inl rfl, id⟩
  | lazyNoClen =>
    rw [hstringGetCharlen, getCharlenSlowpathNoClen]
    by_cases ha : h.ascii = true
    · rw [if_pos ha]
      refine ⟨_, h, rfl, ?_, hi, .inl rfl, id⟩
      by_cases hs : h.symbol = true
      · rw [hsym hs, hi.symbol_ascii hs ha]; rfl
      · rw [charlenOf, if_neg (by simpa [hi.symbol] using hs), ← hi.data]
        exact (hi.ascii ha).2
    rw [if_neg ha]
    by_cases hs : h.symbol = true
    · rw [if_pos hs]; exact ⟨0, h, rfl, hsym hs, hi, .inl rfl, id⟩
    obtain ⟨hc, hn⟩ := charlength_of_inv hf hi hs
    rw [if_neg hs, hc, Option.map_some', if_neg (by simp [hw])]
    exact ⟨_, _, rfl, hn, charlenInv_setAsciiIf hf hi hn, .inl (setAsciiIf_clen _ _),
      fun h => absurd h ha⟩

theorem charlenInv_of_reachable {cfg : CharlenConfig} {h0 h : HString} (hf : FreshHandle h0)
    (hr : Reachable cfg h0 h) : CharlenInv cfg h0 h := by
  induction hr with
  | start hs =>
    obtain ⟨h, hs', hi⟩ := charlenInv_start cfg hf
    rw [hs] at hs'
    exact Option.some.inj hs' ▸ hi
  | step _ hc ih =>
    obtain ⟨r, h', hc', -, hi, -⟩ := charlenInv_step hf ih
    rw [hc] at hc'
    exact (Prod.mk.inj (Option.some.inj hc')).2 ▸ hi

/-- A read-only handle is never written. -/
theorem hstringGetCharlen_readonly (cfg : CharlenConfig) {h h' : HString} {r : Nat}
    (hro : h.readonly = true) (hc : hstringGetCharlen cfg h = some (r, h')) : h' = h := by
  have same : ∀ {r'}, some (r', h) = some (r, h') → h' = h := fun e =>
    (Prod.mk.inj (Option.some.inj e)).2.symm
  cases cfg with
  | eager => exact same hc
  | lazyClen =>
    rw [hstringGetCharlen] at hc
    split at hc
    · exact same hc
    · rw [getCharlenSlowpathClen, if_pos hro] at hc; exact same hc
  | lazyNoClen =>
    rw [hstringGetCharlen, getCharlenSlowpathNoClen] at hc
    split at hc
    · exact same hc
    split at hc
    · exact same hc
    obtain ⟨res, -, hres⟩ := Option.map_eq_some'.mp hc
    exact same (congrArg some hres)

/-- A slow-path call with `clen` that found `clen == 0` leaves a handle on which the next call
returns the same value and writes nothing. -/
theorem getCharlenSlowpathClen_stable {h h' : HString} {r : Nat} (hz : h.clen = 0)
    (hc : getCharlenSlowpathClen h = some (r, h')) :
    hstringGetCharlen .lazyClen h' = some (r, h') := by
  have hself : hstringGetCharlen .lazyClen h = getCharlenSlowpathClen h := by
    rw [hstringGetCharlen, if_neg (not_not.mpr hz)]
  rw [getCharlenSlowpathClen] at hc
  split_ifs at hc with hro hs
  · cases hc; rw [hself, getCharlenSlowpathClen, if_pos hro]
  · cases hc; rw [hself, getCharlenSlowpathClen, if_neg hro, if_pos hs]
  obtain ⟨res, hres, he⟩ := Option.map_eq_some'.mp hc
  obtain ⟨rfl, rfl⟩ := Prod.mk.inj he
  by_cases hr0 : res = 0
  · subst hr0
    rw [hstringGetCharlen, if_neg (by simp), getCharlenSlowpathClen, if_neg (by simpa using hro),
      if_neg (by simpa using hs), setAsciiIf_data, hres, Option.map_some']
    unfold HString.setAsciiIf
    split_ifs <;> rfl
  · rw [hstringGetCharlen, if_pos (by simpa using hr0), setAsciiIf_clen]

/-- Without `clen`, the handle a slow-path call leaves gives the same value on the next call and
is not written again. -/
theorem getCharlenSlowpathNoClen_stable {h h' : HString} {r : Nat}
    (hc : getCharlenSlowpathNoClen h = some (r, h')) :
    getCharlenSlowpathNoClen h' = some (r, h') := by
  rw [getCharlenSlowpathNoClen] at hc ⊢
  split_ifs at hc with ha hs hro
  · cases hc; rw [if_pos ha]
  · cases hc; rw [if_neg ha, if_pos hs]
  all_goals
    obtain ⟨res, hres, he⟩ := Option.map_eq_some'.mp hc
    obtain ⟨rfl, rfl⟩ := Prod.mk.inj he
  · rw [if_neg ha, if_neg hs, hres, Option.map_some', if_pos hro]
  · by_cases hl : res = h.data.length
    · rw [if_pos (by simp [HString.setAsciiIf, hl]), setAsciiIf_data, ← hl]
    · rw [setAsciiIf_of_ne hl, if_neg ha, if_neg hs, hres, Option.map_some', if_neg hro,
        setAsciiIf_of_ne hl]

/-- **After one call of `duk_hstring_get_charlen`, the handle is a fixed point: every later
call returns the same value and writes nothing**, in every configuration and for every handle. -/
theorem hstringGetCharlen_stable (cfg : CharlenConfig) {h h' : HString} {r : Nat}
    (hc : hstringGetCharlen cfg h = some (r, h')) : hstringGetCharlen cfg h' = some (r, h') := by
  cases cfg with
  | eager => cases hc; rfl
  | lazyClen =>
    rw [hstringGetCharlen] at hc
    split_ifs at hc with hz
    · cases hc; rw [hstringGetCharlen, if_pos hz]
    · exact getCharlenSlowpathClen_stable (not_not.mp hz) hc
  | lazyNoClen => exact getCharlenSlowpathNoClen_stable hc

/-- The empty string with `clen`: the first call finds 0, stores 0 and sets the ASCII flag; every
later call finds `clen` 0 again, computes 0 again and writes nothing new. -/
theorem hstringGetCharlen_stable_empty :
    hstringGetCharlen .lazyClen ⟨[], 0, false, false, false⟩ = some (0, ⟨[], 0, true, false, false⟩) ∧
      hstringGetCharlen .lazyClen ⟨[], 0, true, false, false⟩ =
        some (0, ⟨[], 0, true, false, false⟩) :=
  have h1 : hstringGetCharlen .lazyClen ⟨[], 0, false, false, false⟩ =
      some (0, ⟨[], 0, true, false, false⟩) := by
    rw [hstringGetCharlen, if_neg (by decide), getCharlenSlowpathClen, if_neg (by decide),
      if_neg (by decide), unicodeWtf8Charlength, charlengthLoop]
    rfl
  ⟨h1, hstringGetCharlen_stable .lazyClen h1⟩

/-- **Along every sequence of calls from a fresh writable handle, in each configuration, every
call returns the character length of the data (0 for a symbol), `clen` is written only while it
is 0 and only with that length, the ASCII flag is never cleared and promises ASCII data whose
character length is its byte length; read-only handles are never written.** -/
theorem hstringGetCharlen_calls (cfg : CharlenConfig) {h0 : HString} (hf : FreshHandle h0) :
    (∃ h, startHandle cfg h0 = some h) ∧
    (∀ h, Reachable cfg h0 h →
      (h.clen = 0 ∨ charlenOf h0 = some h.clen) ∧
      (h.ascii = true → (∀ x ∈ h.data, x.toNat < 0x80) ∧
        unicodeWtf8Charlength h.data = some h.data.length) ∧
      ∃ r h', hstringGetCharlen cfg h = some (r, h') ∧
        (h0.symbol = true → r = 0) ∧ (h0.symbol = false → unicodeWtf8Charlength h0.data = some r) ∧
        (h'.clen = h.clen ∨ h.clen = 0) ∧ (h.ascii = true → h'.ascii = true)) ∧
    ∀ h r h', h.readonly = true → hstringGetCharlen cfg h = some (r, h') → h' = h := by
  refine ⟨(charlenInv_start cfg hf).imp fun _ h => h.1, fun h hr => ?_,
    fun _ _ _ => hstringGetCharlen_readonly cfg⟩
  have hi := charlenInv_of_reachable hf hr
  obtain ⟨r, h', hc, hn, -, hclen, hasc⟩ := charlenInv_step hf hi
  refine ⟨hi.clen, hi.ascii, r, h', hc, fun hs => ?_, fun hs => ?_, hclen, hasc⟩
  · rw [charlenOf, if_pos hs] at hn; exact (Option.some.inj hn).symm
  · rwa [charlenOf, if_neg (by simp [hs])] at hn

/-- The string "Aé" as a fresh writable handle: its first call in the lazy configuration with
`clen` returns its character length. -/
theorem hstringGetCharlen_calls_fresh :
    FreshHandle ⟨encode [0x41, 0xE9], 0, false, false, false⟩ ∧
      ∃ r h', hstringGetCharlen .lazyClen ⟨encode [0x41, 0xE9], 0, false, false, false⟩ =
          some (r, h') ∧ unicodeWtf8Charlength (encode [0x41, 0xE9]) = some r := by
  have hf : FreshHandle ⟨encode [0x41, 0xE9], 0, false, false, false⟩ :=
    ⟨rfl, rfl, rfl, fun _ => unicodeIsValidWtf8_encode (by simp [AllCodepoints])⟩
  obtain ⟨-, hrun, -⟩ := hstringGetCharlen_calls .lazyClen hf
  obtain ⟨-, -, r, h', hc, -, hr, -⟩ := hrun _ (.start rfl)
  exact ⟨hf, r, h', hc, hr rfl⟩

end Duk
