import DucreuOS.Dispatch

/-! # Numerals

`matox` and `matoi` read the numbers among the arguments. They scan the digits from the left and
add them up from the right, with a power of the base that wraps around. No string has `2 ^ 31`
characters, so the indices are natural numbers. -/
namespace Numerals

open ByteMemory Words Strings CommandLine

/-- `c >= '0' && c <= '9'` -/
def isDecimal (c : Byte) : Bool := 0x30 ≤ c && c ≤ 0x39

/-- `c >= 'a' && c <= 'f'` -/
def isLower (c : Byte) : Bool := 0x61 ≤ c && c ≤ 0x66

/-- `c >= 'A' && c <= 'F'` -/
def isUpper (c : Byte) : Bool := 0x41 ≤ c && c ≤ 0x46

def isHex (c : Byte) : Bool := isDecimal c || isLower c || isUpper c

/-- The number of digits at the front: `while(digit(a[len])) len++;`. -/
def scan (digit : Byte → Bool) (a : Chars) : Option ℕ := lengthTo (fun c => !digit c) a

section Source

variable {w : ℕ} (assign : Byte → Option (BitVec w) → Option (BitVec w)) (base : BitVec w)
  (a : Chars)

/-- `for(i = len - 1; i >= 0; i--)`; `curnum` is not initialised. -/
def addDigits : ℕ → (curnum : Option (BitVec w)) → (result power : BitVec w) → Option (BitVec w)
  | 0, _, result, _ => some result
  | i + 1, curnum, result, power => do
    let c ← a[i]?
    let curnum ← assign c curnum
    addDigits i (some curnum) (result + power * curnum) (power * base)

end Source

/-- What `matox` assigns to `curnum`. -/
def hexNum (c : Byte) (_ : Option (BitVec 64)) : Option (BitVec 64) :=
  if isDecimal c then some (c.setWidth 64 - 0x30)
  else if isLower c then some (c.setWidth 64 - 0x61 + 10)
  else some (c.setWidth 64 - 0x41 + 10)

/-- `matoi` assigns nothing unless there is a digit. -/
def decimalNum (c : Byte) (curnum : Option (BitVec 32)) : Option (BitVec 32) :=
  if isDecimal c then some (c.setWidth 32 - 0x30) else curnum

/-- The hex indicator `0x` or `0X` is ignored. -/
def skipIndicator (a : Chars) : Option Chars := do
  let c ← a[0]?
  if c = 0x30 then
    let x ← a[1]?
    some (if x = 0x78 || x = 0x58 then a.drop 2 else a)
  else some a

def matox (a : Chars) : Option (BitVec 64) := do
  let a ← skipIndicator a
  let len ← scan isHex a
  let n ← mstrlen a
  if len ≠ n then some 0 else addDigits hexNum 16 a len none 0 1

/-- `matoi` once `a` points behind the sign. -/
def behindSign (negate : Bool) (a : Chars) : Option (BitVec 32) := do
  let len ← scan isDecimal a
  let n ← mstrlen a
  if len ≠ n then some 0
  else do
    let result ← addDigits decimalNum 10 a len none 0 1
    some (if negate then -result else result)

def matoi (a : Chars) : Option (BitVec 32) := do
  let c ← a[0]?
  if c = 0x2d then behindSign true (a.drop 1) else behindSign false a

/-! ## The numbers that are written -/

def hexValue (c : Byte) : Option ℕ :=
  ((ascii "0123456789abcdef").idxOf? c).or ((ascii "0123456789ABCDEF").idxOf? c)

def decimalValue (c : Byte) : Option ℕ := (ascii "0123456789").idxOf? c

/-- The value of a numeral, of which the first digit counts most. -/
def numeral (value : Byte → Option ℕ) (base : ℕ) (s : List Byte) : Option ℕ :=
  (s.mapM value).map fun digits => Nat.ofDigits base digits.reverse

def withoutIndicator : List Byte → List Byte
  | c :: x :: s => if c = 0x30 ∧ (x = 0x78 ∨ x = 0x58) then s else c :: x :: s
  | s => s

def hexadecimal (s : List Byte) : Option ℕ := numeral hexValue 16 (withoutIndicator s)

def decimal : List Byte → Option ℤ
  | [] => some 0
  | c :: s =>
    if c = 0x2d then (numeral decimalValue 10 s).map fun v : ℕ => -(v : ℤ)
    else (numeral decimalValue 10 (c :: s)).map Nat.cast

/-! ## The digits -/

section Digits

variable {w b : ℕ} {digit : Byte → Bool} {value : Byte → Option ℕ} {v : ℕ}
  {assign : Byte → Option (BitVec w) → Option (BitVec w)} {a : Chars} {s t : List Byte}

/-- The source has the digits and the values they have. -/
structure Reads (digit : Byte → Bool) (assign : Byte → Option (BitVec w) → Option (BitVec w))
    (value : Byte → Option ℕ) : Prop where
  digit_eq : ∀ c, digit c = (value c).isSome
  assigned : ∀ c curnum, ∀ d ∈ value c, assign c curnum = some (BitVec.ofNat w d)

theorem reads_hex : Reads isHex hexNum hexValue where
  digit_eq := by decide +kernel
  assigned c curnum := by
    have hnum : ∀ c, ∀ d ∈ hexValue c, hexNum c none = some (BitVec.ofNat 64 d) := by
      decide +kernel
    exact hnum c

theorem reads_decimal : Reads isDecimal decimalNum decimalValue where
  digit_eq := by decide +kernel
  assigned c curnum := by
    have hnum : ∀ c, ∀ d ∈ decimalValue c, isDecimal c = true ∧
        c.setWidth 32 - 0x30 = BitVec.ofNat 32 d := by decide +kernel
    intro d hd
    rw [decimalNum, if_pos (hnum c d hd).1, (hnum c d hd).2]

theorem numeral_snoc {c : Byte} : numeral value b (s ++ [c]) = some v ↔
    ∃ u d, numeral value b s = some u ∧ value c = some d ∧ v = d + b * u := by
  have hmap : (s ++ [c]).mapM value = (s.mapM value).bind fun digits =>
      (value c).map fun d => digits ++ [d] := by
    rw [List.mapM_append]
    cases s.mapM value with
    | none => rfl
    | some digits => cases hc : value c <;> simp [hc]
  rw [numeral, numeral, hmap]
  cases s.mapM value with
  | none => simp
  | some digits =>
    cases value c with
    | none => simp
    | some d => simp [Nat.ofDigits_cons, eq_comm]

/-- A numeral has digits only. -/
theorem numeral_isSome : (numeral value b s).isSome ↔ ∀ c ∈ s, (value c).isSome := by
  induction s using List.reverseRecOn with
  | nil => simp [numeral]
  | append_singleton s c ih =>
    rw [List.forall_mem_append, List.forall_mem_singleton, ← ih]
    simp only [Option.isSome_iff_exists, numeral_snoc]
    constructor
    · rintro ⟨v, u, d, hu, hd, -⟩
      exact ⟨⟨u, hu⟩, d, hd⟩
    · rintro ⟨⟨u, hu⟩, d, hd⟩
      exact ⟨d + b * u, u, d, hu, hd, rfl⟩

/-- From the right: what is left of the digit `i` counts `base` times as much as the digit. -/
theorem addDigits_eq (hreads : Reads digit assign value) (h : numeral value b s = some v)
    (t : List Byte) (curnum : Option (BitVec w)) (result power : BitVec w) :
    addDigits assign (BitVec.ofNat w b) (s ++ t) s.length curnum result power =
      some (result + power * BitVec.ofNat w v) := by
  induction s using List.reverseRecOn generalizing t v curnum result power with
  | nil =>
    have hv : 0 = v := Option.some.inj h
    rw [List.length_nil, addDigits, ← hv, BitVec.mul_zero, BitVec.add_zero]
  | append_singleton s c ih =>
    obtain ⟨u, d, hu, hd, rfl⟩ := numeral_snoc.1 h
    have hget : (s ++ ([c] ++ t))[s.length]? = some c := by
      rw [List.getElem?_append_right le_rfl, Nat.sub_self]
      rfl
    rw [List.length_append, List.length_singleton, addDigits, List.append_assoc, hget,
      Option.bind_eq_bind, Option.bind_some, hreads.assigned c curnum d hd, Option.bind_eq_bind,
      Option.bind_some, ih hu ([c] ++ t), BitVec.ofNat_add, BitVec.ofNat_mul]
    congr 1
    ring

/-- The loop comes to the end of the string when there are digits only. -/
theorem scan_eq (hreads : Reads digit assign value) (hzero : value 0 = none) (hs : IsString a s) :
    ∃ n, scan digit a = some n ∧ (n = s.length ↔ (numeral value b s).isSome) := by
  have hstop : (!digit 0) = true := by
    rw [hreads.digit_eq, hzero]
    rfl
  have hends : Ends (fun c => !digit c) a (front (fun c => !digit c) s) := hs.upTo hstop
  refine ⟨_, lengthTo_eq hends, ?_⟩
  rw [length_front, numeral_isSome]
  simp only [Bool.not_eq_false', hreads.digit_eq]

/-- What both functions do once `a` points to the digits. -/
theorem digits_eq (hreads : Reads digit assign value) (hzero : value 0 = none)
    (hs : IsString a s) : ∃ len, scan digit a = some len ∧ mstrlen a = some s.length ∧
      (numeral value b s = none → len ≠ s.length) ∧
      ∀ v, numeral value b s = some v → len = s.length ∧
        addDigits assign (BitVec.ofNat w b) a len none 0 1 = some (BitVec.ofNat w v) := by
  obtain ⟨len, hscan, hlen⟩ := scan_eq (b := b) hreads hzero hs
  refine ⟨len, hscan, mstrlen_eq hs, fun hnone heq => ?_, fun v hv => ?_⟩
  · rw [hlen, hnone] at heq
    cases heq
  · have heq : len = s.length := hlen.2 (by rw [hv]; rfl)
    obtain ⟨-, t, rfl⟩ := hs
    refine ⟨heq, ?_⟩
    rw [heq, addDigits_eq hreads hv]
    congr 1
    ring

end Digits

/-! ## The functions -/

section Functions

variable {a : Chars} {s : List Byte} {v : ℕ} {i : ℤ}

theorem skipIndicator_other {c : Byte} (hc : c ≠ 0x30) : skipIndicator (c :: a) = some (c :: a) :=
  if_neg hc

theorem skipIndicator_zero (x : Byte) : skipIndicator (0x30 :: x :: a) =
    some (if x = 0x78 ∨ x = 0x58 then a else 0x30 :: x :: a) := by
  have hor : ((x = 0x78 || x = 0x58) : Bool) = true ↔ x = 0x78 ∨ x = 0x58 := by
    rw [Bool.or_eq_true, decide_eq_true_iff, decide_eq_true_iff]
  exact congrArg some (if_congr hor rfl rfl)

theorem skipIndicator_eq (hs : IsString a s) :
    ∃ b, skipIndicator a = some b ∧ IsString b (withoutIndicator s) := by
  obtain ⟨hnul, t, rfl⟩ := hs
  cases s with
  | nil => exact ⟨0 :: t, rfl, hnul, t, rfl⟩
  | cons c s =>
    by_cases hc : c = 0x30
    · subst hc
      cases s with
      | nil => exact ⟨0x30 :: 0 :: t, skipIndicator_zero 0, hnul, t, rfl⟩
      | cons x s =>
        refine ⟨_, skipIndicator_zero x, ?_⟩
        by_cases hx : x = 0x78 ∨ x = 0x58
        · rw [if_pos hx, withoutIndicator, if_pos ⟨rfl, hx⟩]
          exact isString_append (fun h => hnul (.tail _ (.tail _ h))) t
        · rw [if_neg hx, withoutIndicator, if_neg fun h => hx h.2]
          exact isString_append hnul t
    · have hwithout : withoutIndicator (c :: s) = c :: s := by
        cases s with
        | nil => rfl
        | cons x s => rw [withoutIndicator, if_neg fun h => hc h.1]
      rw [hwithout]
      exact ⟨_, skipIndicator_other hc, isString_append hnul t⟩

theorem hexValue_zero : hexValue 0 = none := by decide

theorem decimalValue_zero : decimalValue 0 = none := by decide

theorem matox_eq (hs : IsString a s) :
    matox a = some ((hexadecimal s).elim 0 (BitVec.ofNat 64)) := by
  obtain ⟨b, hskip, hb⟩ := skipIndicator_eq hs
  obtain ⟨len, hscan, hlen, hnone, hsome⟩ := digits_eq (b := 16) reads_hex hexValue_zero hb
  simp only [matox, hskip, hscan, hlen, Option.bind_eq_bind, Option.bind_some, hexadecimal]
  cases hv : numeral hexValue 16 (withoutIndicator s) with
  | none => exact if_pos (hnone hv)
  | some v =>
    obtain ⟨heq, hadd⟩ := hsome v hv
    rw [if_neg (not_not.2 heq)]
    exact hadd

theorem behindSign_eq {negate : Bool} (hs : IsString a s) :
    behindSign negate a = some ((numeral decimalValue 10 s).elim 0 fun v =>
      BitVec.ofInt 32 (if negate then -(v : ℤ) else v)) := by
  obtain ⟨len, hscan, hlen, hnone, hsome⟩ := digits_eq (b := 10) reads_decimal decimalValue_zero hs
  simp only [behindSign, hscan, hlen, Option.bind_eq_bind, Option.bind_some]
  cases hv : numeral decimalValue 10 s with
  | none => exact if_pos (hnone hv)
  | some v =>
    obtain ⟨heq, hadd⟩ := hsome v hv
    have hten : (10 : BitVec 32) = BitVec.ofNat 32 10 := rfl
    rw [if_neg (not_not.2 heq), hten, hadd, Option.bind_some, Option.elim_some]
    cases negate with
    | false => rfl
    | true => rw [if_pos rfl, if_pos rfl, BitVec.ofInt_neg, BitVec.ofInt_natCast]

theorem matoi_eq (hs : IsString a s) :
    matoi a = some ((decimal s).elim 0 (BitVec.ofInt 32)) := by
  obtain ⟨hnul, t, rfl⟩ := hs
  cases s with
  | nil => exact behindSign_eq (isString_append hnul t)
  | cons c s =>
    by_cases hc : c = 0x2d
    · subst hc
      have htail : IsString (s ++ 0 :: t) s := isString_append (fun h => hnul (.tail _ h)) t
      have hmatoi : matoi (0x2d :: s ++ 0 :: t) = behindSign true (s ++ 0 :: t) := rfl
      rw [hmatoi, behindSign_eq htail, decimal, if_pos rfl, Option.elim_map]
      rfl
    · have hmatoi : matoi (c :: s ++ 0 :: t) = behindSign false (c :: s ++ 0 :: t) := if_neg hc
      rw [hmatoi, behindSign_eq (isString_append hnul t), decimal, if_neg hc, Option.elim_map]
      rfl

/-- `matox` reads hexadecimal numerals modulo `2 ^ 64`, `matoi` the decimal ones that fit. What is
no numeral reads as zero. -/
theorem numerals_read (hs : IsString a s) :
    (hexadecimal s = none → matox a = some 0) ∧
    (∀ v, hexadecimal s = some v → ∃ r, matox a = some r ∧ r.toNat = v % 2 ^ 64) ∧
    (decimal s = none → matoi a = some 0) ∧
    ∀ i, decimal s = some i → -2 ^ 31 ≤ i → i < 2 ^ 31 →
      ∃ r, matoi a = some r ∧ r.toInt = i := by
  refine ⟨fun h => ?_, fun v h => ?_, fun h => ?_, fun i h hmin hmax => ?_⟩
  · rw [matox_eq hs, h]
    rfl
  · refine ⟨BitVec.ofNat 64 v, ?_, BitVec.toNat_ofNat _ _⟩
    rw [matox_eq hs, h]
    rfl
  · rw [matoi_eq hs, h]
    rfl
  · refine ⟨BitVec.ofInt 32 i, ?_, ?_⟩
    · rw [matoi_eq hs, h]
      rfl
    · rw [BitVec.toInt_ofInt, Int.bmod_eq_of_le (by omega) (by omega)]

theorem numerals_read_small :
    (∃ r, matox (literal "0xFf") = some r ∧ r.toNat = 255 % 2 ^ 64) ∧
    (∃ r, matoi (literal "-12") = some r ∧ r.toInt = -12) ∧ matoi (literal "1 2") = some 0 :=
  ⟨(numerals_read (isString_literal (by decide))).2.1 255 (by decide),
    (numerals_read (isString_literal (by decide))).2.2.2 (-12) (by decide) (by decide) (by decide),
    (numerals_read (isString_literal (by decide))).2.2.1 (by decide)⟩

end Functions

end Numerals
