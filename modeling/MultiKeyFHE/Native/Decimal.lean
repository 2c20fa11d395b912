import MultiKeyFHE.Native.Integer
import MultiKeyFHE.Library.Numerals

/-!
# Decimal strings of native integers

`SetValue` reads a string into a word of 32, 64 or 128 bits, and `toString` prints one. Strings are lists of character codes.
-/

namespace MultiKeyFHE
open Numerals

/-- The type `NativeInt` of a build. -/
inductive NativeWord where
  | u32 | u64 | u128
  deriving DecidableEq, Repr

def NativeWord.bits : NativeWord → ℕ
  | u32 => 32
  | u64 => 64
  | u128 => 128

namespace NativeDecimal

/-- The bytes of a string as text. -/
def text (str : List ℤ) : String := String.ofList (str.map fun c => Char.ofNat (c % 256).toNat)

/-- A conversion to `NativeInt`. -/
def toWord (u : NativeWord) (z : ℤ) : ℕ := (z % 2 ^ u.bits).toNat

/-- The loop of `SetValue`. Between two characters `tst` is `acc`. -/
def setValueLoop (u : NativeWord) (str : List ℤ) : ℕ → List ℤ → Except Fault ℕ
  | acc, [] => .ok acc
  | tst, c :: rest =>
    if c - zero > 9 then .error (.typeError "String contains a non-digit")
    else
      let acc := (10 * tst + toWord u (c - zero)) % 2 ^ u.bits
      if acc < tst then .error (.mathError (text str ++ " is too large to fit in this native integer object"))
      else setValueLoop u str acc rest

/-- What `SetValue` ends with, and `m_value` afterwards. -/
def setValue (u : NativeWord) (str : List ℤ) (m_value : ℕ) : Except Fault Unit × ℕ :=
  match setValueLoop u str 0 str with
  | .ok acc => (.ok (), acc)
  | .error fault => (.error fault, m_value)

def maxChars : ℕ := 15

def divisor : ℕ := 0x38d7ea4c68000

/-- The variables of the 128-bit `toString`; iterators are positions in `tmp`. -/
structure Printer where
  tmp : List ℤ
  msdIt : ℕ
  it : ℕ
  value : ℕ

/-- One pass of the loop. -/
def Printer.next (p : Printer) : Printer :=
  let part := p.value % divisor
  let s := numeral 10 part
  { tmp := if part ≠ 0 then p.tmp.take (p.it - s.length) ++ s ++ p.tmp.drop p.it else p.tmp
    msdIt := if part ≠ 0 then p.it - s.length else p.msdIt
    it := p.it - maxChars
    value := p.value / divisor }

/-- `std::to_string` up to 64 bits. -/
def toString : NativeWord → ℕ → List ℤ
  | .u32, value => numeral 10 value
  | .u64, value => numeral 10 value
  | .u128, value =>
    let p := Printer.next^[3] ⟨List.replicate 46 zero, 45, 46, value⟩
    p.tmp.drop p.msdIt

variable {u : NativeWord} {s t : List ℤ} {c : ℤ} {acc x old : ℕ}

/-! ### Reading -/

/-- What a run of the loop has read so far, counting every character as its distance from `'0'`. -/
def accumulated (u : NativeWord) (s : List ℤ) : ℕ := toWord u (value 10 s)

theorem toWord_eq (u : NativeWord) (z : ℤ) : (toWord u z : ℤ) = z % 2 ^ u.bits := by
  unfold toWord
  exact Int.toNat_of_nonneg (Int.emod_nonneg z (by positivity))

theorem accumulated_concat (s : List ℤ) (c : ℤ) :
    (10 * accumulated u s + toWord u (c - zero)) % 2 ^ u.bits = accumulated u (s ++ [c]) := by
  unfold accumulated
  zify
  simp only [toWord_eq]
  rw [value_concat]
  push_cast
  simp only [Int.add_emod, Int.mul_emod, Int.emod_emod]

/-- Modulo the word, the string with `c` has a smaller value than without. -/
def Falls (u : NativeWord) (s : List ℤ) (c : ℤ) : Prop := accumulated u (s ++ [c]) < accumulated u s

/-- The loop comes to an end exactly when no character is above `'9'` and the accumulator never falls. -/
theorem setValueLoop_spec (str rest : List ℤ) :
    (setValueLoop u str (accumulated u s) rest = .ok (accumulated u (s ++ rest)) ∧
      (∀ c ∈ rest, c - zero ≤ 9) ∧ ∀ t c, t ++ [c] <+: rest → ¬ Falls u (s ++ t) c) ∨
    ((∃ fault, setValueLoop u str (accumulated u s) rest = .error fault ∧ fault.isException) ∧
      ((∃ c ∈ rest, c - zero > 9) ∨ ∃ t c, t ++ [c] <+: rest ∧ Falls u (s ++ t) c)) := by
  induction rest generalizing s with
  | nil => simp [setValueLoop]
  | cons c rest ih =>
    unfold setValueLoop
    by_cases high : c - zero > 9
    · right
      simp only [if_pos high]
      exact ⟨⟨_, rfl, rfl⟩, .inl ⟨c, by simp, high⟩⟩
    simp only [if_neg high, accumulated_concat]
    by_cases falls : accumulated u (s ++ [c]) < accumulated u s
    · right
      simp only [if_pos falls]
      refine ⟨⟨_, rfl, rfl⟩, .inr ⟨[], c, by simp, ?_⟩⟩
      rw [List.append_nil]
      exact falls
    simp only [if_neg falls]
    rcases ih (s := s ++ [c]) with ⟨ok, low, rises⟩ | ⟨stopped, why⟩
    · left
      rw [List.append_assoc, List.singleton_append] at ok
      refine ⟨ok, List.forall_mem_cons.mpr ⟨not_lt.mp high, low⟩, fun t d before => ?_⟩
      cases t with
      | nil =>
        obtain rfl : d = c := by simpa using before
        rw [List.append_nil]
        exact falls
      | cons e t =>
        rw [List.cons_append, List.cons_prefix_cons] at before
        obtain ⟨rfl, before⟩ := before
        simpa using rises t d before
    · right
      refine ⟨stopped, ?_⟩
      rcases why with ⟨d, hd, high⟩ | ⟨t, d, before, falls⟩
      · exact .inl ⟨d, List.mem_cons_of_mem _ hd, high⟩
      · refine .inr ⟨c :: t, d, ?_, by simpa using falls⟩
        rw [List.cons_append, List.cons_prefix_cons]
        exact ⟨rfl, before⟩

/-- A number the word has room for. -/
def Fits (u : NativeWord) (s : List ℤ) : Prop := IsNumeral 10 s ∧ value 10 s < 2 ^ u.bits

theorem Fits.of_append (fits : Fits u (s ++ t)) : Fits u s :=
  ⟨fits.1.of_append, (value_le_append (by decide) fits.1).trans_lt fits.2⟩

theorem Fits.accumulated_eq (fits : Fits u s) : (accumulated u s : ℤ) = value 10 s := by
  unfold accumulated
  rw [toWord_eq, Int.emod_eq_of_lt (value_nonneg fits.1) fits.2]

theorem Fits.not_falls (fits : Fits u s) (before : t ++ [c] <+: s) : ¬ Falls u t c := by
  obtain ⟨rest, rfl⟩ := before
  have last := fits.of_append
  have grown := value_le_append (by decide) last.1
  rw [← last.accumulated_eq, ← last.of_append.accumulated_eq] at grown
  unfold Falls
  omega

/-- A number that fits is stored, every other string is refused with the stored value left alone. -/
def ParsesWhatFits (u : NativeWord) (str : List ℤ) : Prop :=
  ∀ old, (Fits u str → setValue u str old = (.ok (), (value 10 str).toNat)) ∧
    (¬ Fits u str → ∃ fault, setValue u str old = (.error fault, old) ∧ fault.isException)

theorem parses_what_fits_iff (str : List ℤ) : ParsesWhatFits u str ↔
    Fits u str ∨ (∃ c ∈ str, c - zero > 9) ∨ ∃ t c, t ++ [c] <+: str ∧ Falls u t c := by
  have run := setValueLoop_spec (u := u) (s := []) str str
  have start : accumulated u [] = 0 := by simp [accumulated, toWord]
  simp only [List.nil_append, start] at run
  constructor
  · intro parses
    by_cases fits : Fits u str
    · exact .inl fits
    rcases run with ⟨ok, -, -⟩ | ⟨-, why⟩
    · obtain ⟨fault, refused, -⟩ := (parses 0).2 fits
      unfold setValue at refused
      rw [ok] at refused
      simp at refused
    · exact .inr why
  · intro readable old
    unfold setValue
    rcases run with ⟨ok, low, rises⟩ | ⟨⟨fault, stopped, thrown⟩, why⟩
    · have fits : Fits u str := by
        rcases readable with fits | ⟨c, hc, high⟩ | ⟨t, c, before, falls⟩
        · exact fits
        · exact absurd (low c hc) (not_le.mpr high)
        · exact absurd falls (rises t c before)
      rw [ok]
      refine ⟨fun _ => ?_, fun not => absurd fits not⟩
      rw [← fits.accumulated_eq, Int.toNat_natCast]
    · have not : ¬ Fits u str := by
        intro fits
        rcases why with ⟨c, hc, high⟩ | ⟨t, c, before, falls⟩
        · have below := (fits.1 c hc).2
          omega
        · exact fits.not_falls before falls
      rw [stopped]
      exact ⟨fun fits => absurd fits not, fun _ => ⟨fault, rfl, thrown⟩⟩

/-! ### Printing -/

theorem length_numeral_le (below : x < divisor) : (numeral 10 x).length ≤ maxChars := by
  unfold numeral
  split
  · decide
  · rw [List.length_map, List.length_reverse, Nat.digits_length_le_iff (by decide)]
    exact below

/-- What the 128-bit `toString` has printed: the lowest digits of `x` behind zeros, at least up to `msd_it`. -/
structure Printer.Printed (p : Printer) (x : ℕ) : Prop where
  digits : ∃ back, p.tmp = List.replicate p.it zero ++ back ∧ p.it + back.length = 46 ∧ IsNumeral 10 back ∧
    p.value * 10 ^ back.length + Numerals.value 10 back = x
  leading : ∃ shown, p.tmp = List.replicate p.msdIt zero ++ shown

theorem take_replicate_append (n it : ℕ) (back : List ℤ) :
    (List.replicate it zero ++ back).take (it - n) = List.replicate (it - n) zero := by
  rw [List.take_append_of_le_length (by simp), List.take_replicate, Nat.min_eq_left (Nat.sub_le it n)]

theorem replicate_split {n it : ℕ} (le : n ≤ it) :
    List.replicate it zero = List.replicate (it - n) zero ++ List.replicate n zero := by
  rw [List.replicate_append_replicate, Nat.sub_add_cancel le]

theorem isNumeral_replicate_append {back : List ℤ} (h : IsNumeral 10 back) (n : ℕ) :
    IsNumeral 10 (List.replicate n zero ++ back) := by
  intro c hc
  rcases List.mem_append.mp hc with pad | inside
  · rw [List.eq_of_mem_replicate pad]
    decide
  · exact h c inside

theorem Printer.Printed.next {p : Printer} (printed : p.Printed x) (room : maxChars ≤ p.it) : p.next.Printed x := by
  obtain ⟨back, tmp, length, numerals, rest⟩ := printed.digits
  have split : p.value = divisor * (p.value / divisor) + p.value % divisor := (Nat.div_add_mod _ _).symm
  have short : (numeral 10 (p.value % divisor)).length ≤ maxChars := length_numeral_le (Nat.mod_lt _ (by decide))
  set part := p.value % divisor with hpart
  unfold Printer.next
  simp only [← hpart]
  by_cases some : part ≠ 0
  · simp only [if_pos some]
    set s := numeral 10 part with hs
    have front : p.tmp.take (p.it - s.length) = List.replicate (p.it - s.length) zero := by
      rw [tmp]
      exact take_replicate_append s.length p.it back
    have behind : p.tmp.drop p.it = back := by
      rw [tmp, List.drop_left' (by simp)]
    rw [front, behind, List.append_assoc]
    refine ⟨⟨List.replicate (maxChars - s.length) zero ++ (s ++ back), ?_, ?_, ?_, ?_⟩, s ++ back, rfl⟩
    · dsimp only
      rw [← List.append_assoc (List.replicate (p.it - maxChars) zero), List.replicate_append_replicate]
      congr 2
      omega
    · simp only [List.length_append, List.length_replicate]
      omega
    · apply isNumeral_replicate_append
      intro c hc
      rcases List.mem_append.mp hc with new | old
      · exact isNumeral_numeral (by decide) part c new
      · exact numerals c old
    · have read : (Numerals.value 10 s : ℤ) = part := value_numeral 10 part
      have length' : (List.replicate (maxChars - s.length) zero ++ (s ++ back)).length = maxChars + back.length := by
        simp only [List.length_append, List.length_replicate]
        omega
      rw [length', value_replicate_zero, value_append, read, ← rest, pow_add]
      conv_rhs => rw [split]
      push_cast [divisor, maxChars]
      ring
  · simp only [if_neg some]
    rw [not_not] at some
    refine ⟨⟨List.replicate maxChars zero ++ back, ?_, ?_, isNumeral_replicate_append numerals maxChars, ?_⟩, printed.leading⟩
    · rw [tmp, replicate_split room, List.append_assoc]
    · simp only [List.length_append, List.length_replicate]
      omega
    · rw [List.length_append, List.length_replicate, value_replicate_zero, ← rest, pow_add]
      conv_rhs => rw [split, some]
      push_cast [divisor, maxChars]
      ring

theorem toString_spec (word : x < 2 ^ u.bits) : IsNumeral 10 (toString u x) ∧ value 10 (toString u x) = x := by
  cases u with
  | u32 => exact ⟨isNumeral_numeral (by decide) x, value_numeral 10 x⟩
  | u64 => exact ⟨isNumeral_numeral (by decide) x, value_numeral 10 x⟩
  | u128 =>
    have start : Printer.Printed ⟨List.replicate 46 zero, 45, 46, x⟩ x :=
      ⟨⟨[], by simp, by simp, by simp [IsNumeral], by simp⟩, [zero], rfl⟩
    have done := ((start.next (show maxChars ≤ 46 by decide)).next (show maxChars ≤ 31 by decide)).next
      (show maxChars ≤ 16 by decide)
    set p := Printer.next^[3] ⟨List.replicate 46 zero, 45, 46, x⟩ with hp
    change p.Printed x at done
    obtain ⟨back, tmp, length, numerals, rest⟩ := done.digits
    obtain ⟨shown, leading⟩ := done.leading
    have last : p.it = 1 := rfl
    have all : p.value = 0 := by
      by_contra more
      have one : 1 * 10 ^ 45 ≤ p.value * 10 ^ back.length := Nat.mul_le_mul (Nat.pos_of_ne_zero more)
        (Nat.pow_le_pow_right (by decide) (by omega))
      have word' : x < 10 ^ 45 := word.trans (by decide)
      have nonneg := value_nonneg numerals
      zify at one word'
      linarith
    have printed : toString .u128 x = shown := by
      change p.tmp.drop p.msdIt = shown
      rw [leading, List.drop_left' (by simp)]
    rw [printed]
    constructor
    · have padded := isNumeral_replicate_append numerals p.it
      rw [← tmp, leading] at padded
      exact fun c hc => padded c (List.mem_append_right _ hc)
    · rw [← value_replicate_zero p.msdIt shown, ← leading, tmp, value_replicate_zero, ← rest, all]
      simp

theorem fits_toString (word : x < 2 ^ u.bits) : Fits u (toString u x) := by
  obtain ⟨numerals, read⟩ := toString_spec word
  refine ⟨numerals, ?_⟩
  rw [read]
  exact_mod_cast word

/-- A string is parsed as it should be when it is a number that fits, has a character above `'9'`, or makes the accumulator
fall; what `toString` prints is of the first kind. -/
theorem parses_iff_and_restores (str : List ℤ) :
    (ParsesWhatFits u str ↔ Fits u str ∨ (∃ c ∈ str, c - zero > 9) ∨ ∃ t c, t ++ [c] <+: str ∧ Falls u t c) ∧
    ∀ x < 2 ^ u.bits, ∀ old, setValue u (toString u x) old = (.ok (), x) := by
  refine ⟨parses_what_fits_iff str, fun x word old => ?_⟩
  have fits := fits_toString word
  rw [((parses_what_fits_iff _).mpr (.inl fits) old).1 fits, (toString_spec word).2, Int.toNat_natCast]

theorem forty_two_parsed :
    ParsesWhatFits .u64 [52, 50] ∧ setValue .u64 (toString .u64 42) 7 = (.ok (), 42) := by
  obtain ⟨parses, restores⟩ := parses_iff_and_restores (u := .u64) [52, 50]
  exact ⟨parses.mpr (.inl (by unfold Fits; decide)), restores 42 (by decide) 7⟩

/-- Thirty quintillion wraps to a larger word than three quintillion. -/
theorem thirty_quintillion : ¬ ParsesWhatFits .u64 (numeral 10 30000000000000000000) := by
  intro parses
  have large : ¬ Fits .u64 (numeral 10 30000000000000000000) := by
    intro fits
    have below := fits.2
    rw [value_numeral] at below
    exact absurd below (by decide)
  obtain ⟨fault, refused, -⟩ := (parses 0).2 large
  have stored : setValue .u64 (numeral 10 30000000000000000000) 0 = (.ok (), 11553255926290448384) := by
    simp [numeral, setValue, setValueLoop, digitCode, toWord, NativeWord.bits]
  rw [stored] at refused
  cases refused

end NativeDecimal
end MultiKeyFHE
