import DuktapeWtf8.Sanitize.Reference

set_option autoImplicit false

/-! # The sanitizer resynchronises

A byte `x` that is not a continuation byte (0x80..0xBF) and not 0xED ends whatever the
sanitizer was reading before it, and the sanitizer reads it afresh:

* the `do ... while` loop of lines 141-158 stops at `x` exactly as it stops at `p_end`, with
  `goto replacement`, and the `p--` hands `x` back unread (`sanitizeCont_append_resync`);
* the look-ahead for a low surrogate (lines 164-165) needs 0xED and two continuation bytes, so
  it fails on `x` as it fails at `p_end` (`lowSurrogateAhead_append_resync`).

One iteration on `p ++ x :: c` therefore writes what it writes on `p` alone and hands back
`x :: c` behind the bytes it would have left of `p` (`sanitizeStep_append_resync`), and the
output for `a ++ [x] ++ c` is the output for `a` followed by the output for `[x] ++ c`.
-/

namespace Duk

/-- A byte at which the sanitizer resynchronises: neither a continuation byte nor 0xED. -/
def IsResyncByte (x : UInt8) : Prop := ¬ (0x80 ≤ x.toNat ∧ x.toNat ≤ 0xbf) ∧ x.toNat ≠ 0xed

instance (x : UInt8) : Decidable (IsResyncByte x) := inferInstanceAs (Decidable (_ ∧ _))

section Resync

variable {x : UInt8} (hx : IsResyncByte x) (c : List UInt8)

include hx

/-- The continuation loop, with every range inside 0x80..0xBF, stops at `x` as at `p_end`. -/
theorem sanitizeCont_append_resync (n cp lower upper : Nat) (p : List UInt8)
    (hl : 0x80 ≤ lower) (hu : upper ≤ 0xbf) :
    sanitizeCont n cp lower upper (p ++ x :: c) =
      ((sanitizeCont n cp lower upper p).1, (sanitizeCont n cp lower upper p).2 ++ x :: c) := by
  induction n generalizing cp lower upper p with
  | zero => rfl
  | succ n ih =>
    cases p with
    | nil =>
      have hr : ¬ (lower ≤ x.toNat ∧ x.toNat ≤ upper) := fun h => hx.1 ⟨by omega, by omega⟩
      simp only [List.nil_append, sanitizeCont, if_neg hr]
    | cons t p =>
      simp only [List.cons_append, sanitizeCont]
      split
      · exact ih _ _ _ p le_rfl le_rfl
      · rfl

theorem lowSurrogateAhead_append_resync (p : List UInt8) :
    LowSurrogateAhead (p ++ x :: c) ↔ LowSurrogateAhead p := by
  have h1 := hx.1
  match p with
  | [] => exact ⟨fun h => hx.2 (lowSurrogateAhead_head h), False.elim⟩
  | [_] | [_, _] =>
    refine ⟨fun h => ?_, False.elim⟩
    rcases c with _ | ⟨_, _⟩ <;>
      simp only [List.cons_append, List.nil_append, LowSurrogateAhead] at h <;> omega
  | _ :: _ :: _ :: _ => exact Iff.rfl

theorem pairSurrogate_append_resync (cp : Nat) (p : List UInt8) :
    pairSurrogate cp (p ++ x :: c) = ((pairSurrogate cp p).1, (pairSurrogate cp p).2 ++ x :: c) := by
  rcases pairSurrogate_cases cp p with ⟨hh, hla, b0, b1, b2, q', rfl, hp⟩ | ⟨hn, hp⟩
  · rcases pairSurrogate_cases cp (b0 :: b1 :: b2 :: q' ++ x :: c) with
      ⟨-, -, _, _, _, _, he, hp'⟩ | ⟨hn, -⟩
    · simp only [List.cons_append, List.cons.injEq] at he
      obtain ⟨rfl, rfl, rfl, rfl⟩ := he
      rw [hp, hp']
    · exact absurd ⟨hh, (lowSurrogateAhead_append_resync hx c _).mpr hla⟩ hn
  · rw [hp, pairSurrogate_of_not fun h => hn ⟨h.1, (lowSurrogateAhead_append_resync hx c p).mp h.2⟩]

/-- **One iteration on `p ++ x :: c` writes what it writes on `p`, and leaves `x :: c` behind
what it leaves of `p`.** -/
theorem sanitizeStep_append_resync (t : UInt8) (p : List UInt8) :
    sanitizeStep t (p ++ x :: c) = ((sanitizeStep t p).1, (sanitizeStep t p).2 ++ x :: c) := by
  by_cases h0 : t.toNat < 0x80
  · rw [sanitizeStep_of_lt h0, sanitizeStep_of_lt h0]
  rcases hl : leadParams t with _ | ⟨cp, n, lower, upper⟩
  · simp only [sanitizeStep, if_neg h0, hl]
  have hr := leadParams_range hl
  rw [sanitizeStep_of_lead (by omega) hl, sanitizeStep_of_lead (by omega) hl,
    sanitizeCont_append_resync hx c n cp lower upper p hr.1 hr.2.2]
  rcases sanitizeCont n cp lower upper p with ⟨_ | v, r⟩
  · rfl
  · simp only [pairSurrogate_append_resync hx c v r]

/-- The loop on `a ++ x :: c` runs over `a` as on `a` alone, and then starts afresh at `x`. -/
theorem sanitizeLoop_append_resync (a : List UInt8) :
    sanitizeLoop (a ++ x :: c) = sanitizeLoop a ++ sanitizeLoop (x :: c) := by
  induction a using sanitizeLoop.induct with
  | case1 => rw [List.nil_append, sanitizeLoop.eq_1, List.nil_append]
  | case2 t p ih =>
    rw [List.cons_append, sanitizeLoop_cons, sanitizeStep_append_resync hx c]
    dsimp only
    rw [ih, sanitizeLoop_cons t p, List.cons_append]

end Resync

end Duk
