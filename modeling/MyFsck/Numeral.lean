import Mathlib.Tactic.Ring
import Mathlib.Data.List.Basic
import Mathlib.Data.Nat.Notation

/-! Numerals of the C library: what `%d` and `%02X` print and what `strtol` reads. -/
namespace Numeral

/-- `%d`. -/
def ofInt : ℤ → List Char
  | .ofNat n => Nat.toDigits 10 n
  | .negSucc n => '-'::Nat.toDigits 10 (n+1)

def isSpace (c : Char) : Bool := c = ' ' || ('\t' ≤ c && c ≤ '\r')

/-- The number the digits at the beginning of a string stand for. -/
def leading (cs : List Char) : ℕ := Nat.ofDigitChars 10 (cs.takeWhile Char.isDigit) 0

def signed : List Char → ℤ
  | '-'::cs => -leading cs
  | '+'::cs => leading cs
  | cs => leading cs

/-- The number at the beginning of a string, behind white space and a sign; 0 if there are no digits. -/
def strtol (cs : List Char) : ℤ := signed (cs.dropWhile isSpace)

/-- `strtol` for an `int`; outside its range nothing is said of `atoi`. -/
def atoi (cs : List Char) : Option ℤ :=
  if -2^31 ≤ strtol cs ∧ strtol cs < 2^31 then some (strtol cs) else none

theorem leading_append {ds rest : List Char} (hd : ∀ c ∈ ds, c.isDigit = true)
    (hr : ∀ c ∈ rest.head?, c.isDigit = false) : leading (ds++rest) = Nat.ofDigitChars 10 ds 0 := by
  have htake : (ds++rest).takeWhile Char.isDigit = ds := by
    rw [List.takeWhile_append_of_pos hd]
    cases rest with
    | nil => simp
    | cons c cs => simp [hr c (by simp)]
  rw [leading,htake]

theorem leading_toDigits (n : ℕ) {rest : List Char} (hr : ∀ c ∈ rest.head?, c.isDigit = false) :
    leading (Nat.toDigits 10 n++rest) = n := by
  rw [leading_append (fun c hc => Nat.isDigit_of_mem_toDigits (by decide) (by decide) hc) hr,
    Nat.ofDigitChars_toDigits (by decide) (by decide)]

theorem toDigits_cons (n : ℕ) : ∃ c cs, Nat.toDigits 10 n = c::cs ∧ c.isDigit = true := by
  cases h : Nat.toDigits 10 n with
  | nil => exact absurd h Nat.toDigits_ne_nil
  | cons c cs => exact ⟨c,cs,rfl,Nat.isDigit_of_mem_toDigits (by decide) (by decide) (h ▸ List.mem_cons_self)⟩

theorem signed_digit {c : Char} (cs : List Char) (h : c.isDigit = true) : signed (c::cs) = leading (c::cs) := by
  unfold signed
  split
  · rename_i heq
    cases heq
    cases h
  · rename_i heq
    cases heq
    cases h
  · rfl

theorem isSpace_digit {c : Char} (h : c.isDigit = true) : isSpace c = false := by
  by_contra hne
  simp only [isSpace,Bool.not_eq_false,Bool.or_eq_true,decide_eq_true_eq,Bool.and_eq_true] at hne
  simp only [Char.isDigit,Bool.and_eq_true,decide_eq_true_eq] at h
  rcases hne with rfl | ⟨-,hle⟩
  · exact absurd h.1 (by decide)
  · exact absurd (UInt32.le_trans h.1 hle) (by decide)

theorem strtol_ofInt (z : ℤ) {rest : List Char} (hr : ∀ c ∈ rest.head?, c.isDigit = false) :
    strtol (ofInt z++rest) = z := by
  unfold strtol
  cases z with
  | ofNat n =>
    obtain ⟨c,cs,hcs,hc⟩ := toDigits_cons n
    have hval := leading_toDigits n hr
    rw [ofInt]
    rw [hcs,List.cons_append] at hval ⊢
    rw [List.dropWhile_cons_of_neg (by rw [isSpace_digit hc]; exact Bool.false_ne_true),signed_digit _ hc,hval]
    rfl
  | negSucc n =>
    rw [ofInt,List.cons_append,List.dropWhile_cons_of_neg (by decide),signed,leading_toDigits _ hr]
    rfl

theorem strtol_space (cs : List Char) : strtol (' '::cs) = strtol cs := by
  rw [strtol,List.dropWhile_cons_of_pos (by decide),strtol]

theorem atoi_ofInt {z : ℤ} (hz : -2^31 ≤ z ∧ z < 2^31) : atoi (ofInt z) = some z := by
  have hread : strtol (ofInt z++[]) = z := strtol_ofInt z (by simp)
  rw [List.append_nil] at hread
  rw [atoi,hread,if_pos hz]

theorem ofInt_no_space (z : ℤ) : ∀ c ∈ ofInt z, c ≠ ' ' := by
  have hdigits : ∀ n, ∀ c ∈ Nat.toDigits 10 n, c ≠ ' ' := by
    rintro n c hc rfl
    exact absurd (Nat.isDigit_of_mem_toDigits (by decide) (by decide) hc) (by decide)
  cases z with
  | ofNat n => exact hdigits n
  | negSucc n =>
    intro c hc
    rcases List.mem_cons.mp hc with rfl | hc
    · decide
    · exact hdigits _ c hc

/-- A hexadecimal digit, in capitals. -/
def hexDigit (d : ℕ) : Char := if d < 10 then Char.ofNat (48+d) else Char.ofNat (55+d)

def hexValue (c : Char) : ℕ := if c.isDigit then c.toNat-48 else c.toNat-55

/-- `%02X` of a byte. -/
def hex2 (b : ℕ) : List Char := [hexDigit (b/16),hexDigit (b%16)]

theorem hexValue_hexDigit : ∀ d < 16, hexValue (hexDigit d) = d := by decide

theorem hex2_value {b : ℕ} (h : b < 256) : 16*hexValue (hexDigit (b/16))+hexValue (hexDigit (b%16)) = b := by
  rw [hexValue_hexDigit _ (by omega),hexValue_hexDigit _ (by omega)]
  omega

/-- An `unsigned int` taken for an `int`. -/
def asInt (n : ℕ) : ℤ := if n < 2^31 then n else n-2^32

theorem asInt_mod {n : ℕ} (h : n < 2^32) : (asInt n % 2^32).toNat = n := by
  unfold asInt
  split <;> omega

end Numeral
