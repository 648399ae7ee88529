import DucreuOS.Expansion

/-! # Numbers that are printed

The text of the integer conversions in closed form, and numbers that `matox` and `matoi` read back
from a buffer. The buffer of a number has room for 32 characters. -/
namespace Printf

open ByteMemory Words Strings CommandLine Numerals

/-! ## The text of a number -/

def digitChar (uppercase : Bool) (d : ℕ) : Byte :=
  if d < 10 then BitVec.ofNat 8 (0x30 + d)
  else BitVec.ofNat 8 ((if uppercase then 0x41 else 0x61) + d - 10)

/-- The digit that counts least is in front. -/
def lowDigits (uppercase : Bool) (base v : ℕ) : List Byte :=
  if v = 0 then [chr '0'] else (Nat.digits base v).map (digitChar uppercase)

def numeralText (uppercase : Bool) (base v : ℕ) : List Byte := (lowDigits uppercase base v).reverse

def signText (flags : Flags) (negative : Bool) : List Byte :=
  if negative then [chr '-'] else if flags.plus then [chr '+'] else if flags.space then [space] else []

/-- As many digits as the precision or the width asks for, if there is room for them. -/
def digitPlaces (flags : Flags) (negative : Bool) (prec width : UInt) : ℕ :=
  if flags.left then 0
  else min PRINTF_NTOA_BUFFER_SIZE
    (max prec.toNat (if flags.zeropad then (innerWidth flags negative width).toNat else 0))

/-- The digits; with a precision there are none for 0. -/
def significant (flags : Flags) (value : BitVec 64) (base : ℕ) : List Byte :=
  if flags.precision && value = 0 then [] else numeralText flags.uppercase base value.toNat

/-- The sign, if there is room for it, zeros and digits. -/
def numberText (flags : Flags) (value : BitVec 64) (negative : Bool) (base : ℕ) (prec width : UInt) :
    List Byte :=
  let ds := significant flags value base
  let places := digitPlaces flags negative prec width
  (if max ds.length places < PRINTF_NTOA_BUFFER_SIZE then signText flags negative else []) ++
    List.replicate (places - ds.length) (chr '0') ++ ds

/-- The number in its field. -/
def fieldText (flags : Flags) (value : BitVec 64) (negative : Bool) (base : ℕ) (prec width : UInt) :
    List Byte :=
  let number := numberText flags value negative base prec width
  if !flags.left && flags.zeropad then number
  else around flags.left (width.toNat - number.length) number

/-- A base that has at most 32 digits for every number. -/
structure Base (base : BitVec 64) (b : ℕ) : Prop where
  eq : base = BitVec.ofNat 64 b
  low : 4 ≤ b
  high : b ≤ 16

section Buffer

variable {base value : BitVec 64} {flags : Flags} {b n target : ℕ} {buf : NtoaBuffer} {c : Byte}
  {negative : Bool} {prec width : UInt}

theorem Base.toNat (h : Base base b) : base.toNat = b := by
  have := h.high
  rw [h.eq, BitVec.toNat_ofNat, Nat.mod_eq_of_lt (by omega)]

theorem digit_eq (h : Base base b) :
    digit flags value base = digitChar flags.uppercase (value.toNat % b) := by
  have hsmall : ∀ upper : Bool, ∀ d : Fin 16,
      (let digit : Byte := (BitVec.ofNat 64 d).setWidth 8
       if digit < 10 then chr '0' + digit else (if upper then chr 'A' else chr 'a') + digit - 10)
        = digitChar upper d := by
    decide +kernel
  have hlow := h.low
  have hhigh := h.high
  have hmod : value.toNat % b < 16 := (Nat.mod_lt _ (by omega)).trans_le hhigh
  have hrem : value % base = BitVec.ofNat 64 (value.toNat % b) := by
    apply BitVec.eq_of_toNat_eq
    rw [BitVec.toNat_umod, h.toNat, BitVec.toNat_ofNat,
      Nat.mod_eq_of_lt (a := value.toNat % b) (hmod.trans_le (by decide))]
  rw [digit, hrem]
  exact hsmall flags.uppercase ⟨_, hmod⟩

theorem lowDigits_step (hb : 2 ≤ b) (v : ℕ) (upper : Bool) : lowDigits upper b v =
    digitChar upper (v % b) :: if v / b = 0 then [] else lowDigits upper b (v / b) := by
  by_cases hv : v = 0
  · subst hv
    rw [lowDigits, if_pos rfl, Nat.zero_mod, Nat.zero_div, if_pos rfl]
    rfl
  · rw [lowDigits, if_neg hv, Nat.digits_def' (by omega) (by omega), List.map_cons]
    by_cases hdiv : v / b = 0
    · rw [if_pos hdiv, hdiv, Nat.digits_zero, List.map_nil]
    · rw [if_neg hdiv, lowDigits, if_neg hdiv]

theorem digits_chars (hb : Base base b) (h : buf.len + n < PRINTF_NTOA_BUFFER_SIZE) :
    (digits flags base n value buf h).chars =
      buf.chars ++ (lowDigits flags.uppercase b value.toNat).take (n + 1) := by
  have hlow := hb.low
  induction n generalizing value buf with
  | zero =>
    rw [digits, lowDigits_step (by omega), List.take_succ_cons, List.take_zero, digit_eq hb]
    rfl
  | succ n ih =>
    have hdiv : value / base ≠ 0 ↔ value.toNat / b ≠ 0 := by
      rw [ne_eq, BitVec.toNat_eq, BitVec.toNat_udiv, hb.toNat]
      rfl
    rw [digits, lowDigits_step (by omega), List.take_succ_cons, ← digit_eq hb]
    by_cases hmore : value / base ≠ 0
    · rw [if_pos hmore, ih, if_neg (hdiv.mp hmore), BitVec.toNat_udiv, hb.toNat]
      exact List.append_assoc ..
    · rw [if_neg hmore, if_pos (not_not.mp (mt hdiv.mpr hmore)), List.take_nil]
      rfl

theorem length_lowDigits (hb : Base base b) (upper : Bool) :
    (lowDigits upper b value.toNat).length ≤ PRINTF_NTOA_BUFFER_SIZE := by
  rw [lowDigits]
  split_ifs
  · decide
  · have hlow := hb.low
    have hpow : value.toNat < b ^ 32 := calc
      value.toNat < 4 ^ 32 := value.isLt
      _ ≤ b ^ 32 := Nat.pow_le_pow_left hlow 32
    rw [List.length_map]
    exact (Nat.digits_length_le_iff (by omega) _).mpr hpow

theorem ntoaDigits_chars (hb : Base base b) :
    (ntoaDigits flags value base).2.chars = (significant flags value b).reverse := by
  have hchars (flags : Flags) : (digits flags base (PRINTF_NTOA_BUFFER_SIZE - 1) value .empty
      (by decide)).chars = lowDigits flags.uppercase b value.toNat := by
    rw [digits_chars hb]
    exact List.take_of_length_le (length_lowDigits hb _)
  by_cases hzero : value = 0
  · subst hzero
    cases hprec : flags.precision with
    | false =>
      simp only [ntoaDigits, significant, numeralText, if_true, hprec, Bool.not_false, Bool.true_or,
        Bool.false_and, Bool.false_eq_true, if_false, List.reverse_reverse]
      exact hchars { flags with hash := false }
    | true => simp [ntoaDigits, significant, hprec, NtoaBuffer.empty]
  · have hdecide : decide (value ≠ 0) = true := decide_eq_true hzero
    have hnone : decide (value = 0) = false := decide_eq_false hzero
    simp only [ntoaDigits, significant, if_neg hzero, hdecide, hnone, Bool.or_true, Bool.and_false,
      Bool.false_eq_true, if_true, if_false, hchars, numeralText, List.reverse_reverse]

theorem zerosTo_chars (hn : min target PRINTF_NTOA_BUFFER_SIZE ≤ buf.len + n) :
    (zerosTo target n buf).chars = buf.chars ++
      List.replicate (min target PRINTF_NTOA_BUFFER_SIZE - buf.len) (chr '0') := by
  induction n generalizing buf with
  | zero =>
    rw [Nat.add_zero] at hn
    rw [Nat.sub_eq_zero_of_le hn]
    exact (List.append_nil _).symm
  | succ n ih =>
    rw [zerosTo]
    split_ifs with hmore
    · have hlen : (buf.push (chr '0') hmore.2).len = buf.len + 1 := List.length_append ..
      have hrest : min target PRINTF_NTOA_BUFFER_SIZE - buf.len
          = min target PRINTF_NTOA_BUFFER_SIZE - (buf.len + 1) + 1 := by omega
      rw [ih (by omega), hlen, hrest, List.replicate_succ]
      exact List.append_assoc ..
    · have hdone : min target PRINTF_NTOA_BUFFER_SIZE - buf.len = 0 := by omega
      rw [hdone]
      exact (List.append_nil _).symm

theorem add_chars : (buf.add c).chars =
    buf.chars ++ if buf.len < PRINTF_NTOA_BUFFER_SIZE then [c] else [] := by
  rw [NtoaBuffer.add]
  split_ifs
  · rfl
  · exact (List.append_nil _).symm

theorem signed_chars : (signed flags negative buf).chars =
    buf.chars ++ if buf.len < PRINTF_NTOA_BUFFER_SIZE then signText flags negative else [] := by
  rw [signed, signText]
  split_ifs <;> simp [add_chars, *]

/-- The zeros for the precision, and then those for the width. -/
theorem zeros_chars (hleft : flags.left = false) :
    (if flags.zeropad then
        zerosTo (innerWidth flags negative width).toNat PRINTF_NTOA_BUFFER_SIZE
          (zerosTo prec.toNat PRINTF_NTOA_BUFFER_SIZE buf)
      else zerosTo prec.toNat PRINTF_NTOA_BUFFER_SIZE buf).chars =
      buf.chars ++ List.replicate (digitPlaces flags negative prec width - buf.len) (chr '0') := by
  have hall (target : ℕ) (buf : NtoaBuffer) : (zerosTo target PRINTF_NTOA_BUFFER_SIZE buf).chars =
      buf.chars ++ List.replicate (min target PRINTF_NTOA_BUFFER_SIZE - buf.len) (chr '0') :=
    zerosTo_chars ((Nat.min_le_right _ _).trans (Nat.le_add_left _ _))
  have hfirst : (zerosTo prec.toNat PRINTF_NTOA_BUFFER_SIZE buf).len
      = buf.len + (min prec.toNat PRINTF_NTOA_BUFFER_SIZE - buf.len) := by
    rw [NtoaBuffer.len, hall, List.length_append, List.length_replicate]
    rfl
  have hplaces : digitPlaces flags negative prec width = min PRINTF_NTOA_BUFFER_SIZE
      (max prec.toNat (if flags.zeropad then (innerWidth flags negative width).toNat else 0)) :=
    if_neg (by rw [hleft]; exact Bool.false_ne_true)
  rw [hplaces]
  cases flags.zeropad with
  | false =>
    simp only [Bool.false_eq_true, if_false, Nat.max_zero, hall]
    rw [Nat.min_comm]
  | true =>
    simp only [if_true]
    rw [hall, hfirst, hall, List.append_assoc, List.replicate_append_replicate]
    congr 2
    omega

/-- The buffer in front of `_out_rev`. -/
theorem ntoaChars_reverse (hhash : flags.hash = false) :
    (ntoaChars flags buf negative base prec width).1.chars.reverse =
      (if max buf.len (digitPlaces flags negative prec width) < PRINTF_NTOA_BUFFER_SIZE then
          signText flags negative else []) ++
        List.replicate (digitPlaces flags negative prec width - buf.len) (chr '0') ++
        buf.chars.reverse := by
  have hsign : (signText flags negative).reverse = signText flags negative := by
    rw [signText]
    split_ifs <;> rfl
  have hbackwards (p : Prop) [Decidable p] :
      (if p then signText flags negative else []).reverse = if p then signText flags negative else [] := by
    split_ifs
    · exact hsign
    · rfl
  cases hleft : flags.left with
  | true =>
    have hnone : digitPlaces flags negative prec width = 0 := if_pos hleft
    simp only [ntoaChars, hleft, hhash, Bool.not_true, Bool.false_eq_true, if_false, signed_chars,
      List.reverse_append, hbackwards, hnone, Nat.max_zero, Nat.zero_sub, List.replicate_zero,
      List.append_nil]
  | false =>
    have hzeros := @zeros_chars flags buf negative prec width hleft
    simp only [ntoaChars, hleft, hhash, Bool.not_false, Bool.false_eq_true, if_true, if_false,
      signed_chars, List.reverse_append, hbackwards, List.append_assoc]
    generalize (if flags.zeropad = true then _ else _ : NtoaBuffer) = b at hzeros ⊢
    have hlen : b.len = max buf.len (digitPlaces flags negative prec width) := by
      rw [NtoaBuffer.len, hzeros, List.length_append, List.length_replicate, NtoaBuffer.len]
      omega
    rw [hzeros, hlen, List.reverse_append, List.reverse_replicate]

theorem ntoaChars_width : (ntoaChars flags buf negative base prec width).2 =
    if flags.left then width else innerWidth flags negative width := by
  cases hleft : flags.left <;> simp [ntoaChars, hleft]

/-- Every integer conversion without `#`: a number of at most 32 characters in its field. -/
theorem longText_eq (hb : Base base b) (hhash : flags.hash = false ∨ value = 0) :
    longText flags value negative base prec width = fieldText flags value negative b prec width := by
  have hflags : (ntoaDigits flags value base).1 = { flags with hash := false } := by
    change (if value = 0 then { flags with hash := false } else flags) = { flags with hash := false }
    split_ifs with hzero
    · rfl
    · exact congrArg (fun h => { flags with hash := h }) (hhash.resolve_right hzero)
  have hdigits := @ntoaDigits_chars base value flags b hb
  have hlen : (ntoaDigits flags value base).2.len = (significant flags value b).length := by
    rw [NtoaBuffer.len, hdigits, List.length_reverse]
  have hchars := @ntoaChars_reverse base { flags with hash := false } (ntoaDigits flags value base).2
    negative prec width rfl
  rw [hdigits, List.reverse_reverse, hlen] at hchars
  have hnumber : (ntoaChars { flags with hash := false } (ntoaDigits flags value base).2 negative base
      prec width).1.chars.reverse = numberText flags value negative b prec width := hchars
  have hlength := congrArg List.length hnumber
  rw [List.length_reverse] at hlength
  simp only [longText, hflags, revText, hnumber, hlength, ntoaChars_width, fieldText]
  cases hleft : flags.left with
  | true => rfl
  | false =>
    cases hzeropad : flags.zeropad with
    | true => rfl
    | false => simp [innerWidth]

theorem longText_eq_hex :
    longText { zeropad := true } 0x2a false 16 0 8 = fieldText { zeropad := true } 0x2a false 16 0 8 :=
  longText_eq ⟨rfl, by decide, le_rfl⟩ (.inl rfl)

end Buffer

/-! ## Numbers that are read back -/

section ReadBack

variable {value : Byte → Option ℕ} {b k v : ℕ} {upper : Bool} {s cs : List Byte} {m : Mem}
  {buffer : ℕ} {count : SizeT}

/-- Zeros in front count nothing. -/
theorem numeral_zeros (hzero : value (chr '0') = some 0) :
    numeral value b (List.replicate k (chr '0') ++ s) = numeral value b s := by
  induction k with
  | zero => rfl
  | succ k ih =>
    rw [← ih, List.replicate_succ, List.cons_append, numeral, numeral, List.mapM_cons, hzero]
    cases (List.replicate k (chr '0') ++ s).mapM value with
    | none => rfl
    | some ds => simp [Nat.ofDigits_append]

theorem numeral_numeralText (hb : 2 ≤ b) (hvalue : ∀ d < b, value (digitChar upper d) = some d)
    (v : ℕ) : numeral value b (numeralText upper b v) = some v := by
  have hmap (ds : List ℕ) (hds : ∀ d ∈ ds, d < b) :
      (ds.map (digitChar upper)).mapM value = some ds := by
    induction ds with
    | nil => rfl
    | cons d ds ih =>
      rw [List.forall_mem_cons] at hds
      simp [List.mapM_cons, hvalue d hds.1, ih hds.2]
  rw [numeralText, lowDigits]
  split_ifs with hv
  · subst hv
    have hzero : value (chr '0') = some 0 := hvalue 0 (by omega)
    simp [numeral, hzero]
  · have hdigits (d : ℕ) (hd : d ∈ (Nat.digits b v).reverse) : d < b :=
      Nat.digits_lt_base (by omega) (List.mem_reverse.mp hd)
    rw [← List.map_reverse, numeral, hmap _ hdigits, Option.map_some, List.reverse_reverse,
      Nat.ofDigits_digits]

theorem listed_getD (cs : List Byte) : listed (fun i => cs.getD i 0) cs.length = cs := by
  apply List.ext_getElem (length_listed _ _)
  intro i hi hi'
  simp [listed, List.getElem?_eq_getElem hi']

/-- A text that fits is a string in the buffer. -/
theorem stored_isString (hnul : 0 ∉ cs) (hfits : cs.length < count.toNat) :
    IsString (listed (window (stored m buffer count cs) buffer) count.toNat) cs := by
  have hcount : count ≠ 0 := by
    rintro rfl
    exact absurd hfits (Nat.not_lt_zero _)
  have hstored : stored m buffer count cs = blit m buffer (cs.length + 1) fun i => cs.getD i 0 := by
    rw [stored, if_neg hcount, Nat.min_eq_left (by omega), List.take_of_length_le (by omega)]
  have hfront : listed (window (stored m buffer count cs) buffer) (cs.length + 1) = cs ++ [0] := by
    have hsame (i : ℕ) (hi : i < cs.length + 1) :
        window (stored m buffer count cs) buffer i = cs.getD i 0 := by
      rw [window, hstored, blit_inside (by omega) (by omega), Nat.add_sub_cancel_left]
    rw [listed_congr hsame, listed_add, listed_getD]
    simp [listed, window]
  refine ⟨hnul, listed (window (window (stored m buffer count cs) buffer) (cs.length + 1))
    (count.toNat - (cs.length + 1)), ?_⟩
  have hsplit : count.toNat = cs.length + 1 + (count.toNat - (cs.length + 1)) := by omega
  conv_lhs => rw [hsplit, listed_add, hfront, List.append_assoc]
  rfl

end ReadBack

/-! ## Fields that are filled with zeros -/

section Formats

variable {c : Byte} {rest : Chars} {va : List Arg} {v : BitVec 64}

/-- `_atoi` is on the numeral of the width. -/
theorem atoi_digits (hc : isDigit c = false) (ds : List ℕ) (hds : ∀ d ∈ ds, d < 10) (i : UInt) :
    atoi (ds.map (digitChar false) ++ c :: rest) i =
      some (i * 10 ^ ds.length + BitVec.ofNat 32 (Nat.ofDigits 10 ds.reverse), c :: rest) := by
  have hdigit : ∀ d < 10, isDigit (digitChar false d) = true ∧
      (digitChar false d).setWidth 32 - (chr '0').setWidth 32 = BitVec.ofNat 32 d := by decide
  induction ds generalizing i with
  | nil =>
    rw [List.map_nil, List.nil_append, atoi, if_neg (by rw [hc]; exact Bool.false_ne_true)]
    simp
  | cons d ds ih =>
    rw [List.forall_mem_cons] at hds
    obtain ⟨his, hnum⟩ := hdigit d hds.1
    rw [List.map_cons, List.cons_append, atoi, if_pos his, ih hds.2, hnum, List.reverse_cons,
      Nat.ofDigits_append, List.length_reverse, Nat.ofDigits_singleton, BitVec.ofNat_add,
      BitVec.ofNat_mul, BitVec.ofNat_pow]
    have hten : (10 : UInt) = BitVec.ofNat 32 10 := rfl
    congr 2
    rw [List.length_cons, hten]
    ring

theorem widthField_digits (hc : isDigit c = false) {w : ℕ} (hw : w ≠ 0) (flags : Flags) :
    widthField ⟨flags, 0, 0, numeralText false 10 w ++ c :: rest, va⟩ =
      some ⟨flags, BitVec.ofNat 32 w, 0, c :: rest, va⟩ := by
  have htext : numeralText false 10 w = (Nat.digits 10 w).reverse.map (digitChar false) := by
    rw [numeralText, lowDigits, if_neg hw, List.map_reverse]
  have hdigits : ∀ d ∈ (Nat.digits 10 w).reverse, d < 10 := fun d hd =>
    Nat.digits_lt_base (by decide) (List.mem_reverse.mp hd)
  have hatoi := @atoi_digits c rest hc _ hdigits 0
  rw [List.reverse_reverse, Nat.ofDigits_digits, zero_mul, zero_add, ← htext] at hatoi
  have hfirst : ∃ d s, numeralText false 10 w = digitChar false d :: s ∧ d < 10 := by
    cases hrev : (Nat.digits 10 w).reverse with
    | nil => exact absurd (List.reverse_eq_nil_iff.mp hrev) (Nat.digits_ne_nil_iff_ne_zero.mpr hw)
    | cons d s =>
      rw [hrev] at htext hdigits
      exact ⟨d, _, htext, hdigits d List.mem_cons_self⟩
  obtain ⟨d, s, hs, hd⟩ := hfirst
  have hdigit : ∀ d < 10, isDigit (digitChar false d) = true := by decide
  rw [widthField, hatoi, hs]
  simp [hdigit d hd]

/-- What is none of the flags is left to the width. -/
theorem flagsField_other (hc : c ∉ ascii "0-+ #") (flags : Flags) :
    flagsField (c :: rest) flags = some (flags, c :: rest) := by
  have hne (flag : Byte) (h : flag ∈ ascii "0-+ #") : c ≠ flag := fun heq => hc (heq ▸ h)
  rw [flagsField, if_neg (hne _ (by decide)), if_neg (hne _ (by decide)),
    if_neg (hne _ (by decide)), if_neg (hne _ (by decide)), if_neg (hne _ (by decide))]

theorem flagsField_numeral {w : ℕ} (hw : w ≠ 0) (s : Chars) (flags : Flags) :
    flagsField (numeralText false 10 w ++ s) flags = some (flags, numeralText false 10 w ++ s) := by
  have hne : Nat.digits 10 w ≠ [] := Nat.digits_ne_nil_iff_ne_zero.mpr hw
  have hpos : 0 < (Nat.digits 10 w).getLast hne :=
    Nat.pos_of_ne_zero (Nat.getLast_digit_ne_zero 10 hw)
  have hlt : (Nat.digits 10 w).getLast hne < 10 :=
    Nat.digits_lt_base (by decide) (List.getLast_mem hne)
  have hnone : ∀ d, 0 < d → d < 10 → digitChar false d ∉ ascii "0-+ #" := by
    intro d h0 h10
    interval_cases d <;> decide
  -- the digit that counts most is in front
  have htext : numeralText false 10 w = digitChar false ((Nat.digits 10 w).getLast hne) ::
      ((Nat.digits 10 w).dropLast.map (digitChar false)).reverse := by
    rw [numeralText, lowDigits, if_neg hw]
    conv_lhs => rw [← List.dropLast_append_getLast hne]
    rw [List.map_append, List.reverse_append]
    rfl
  rw [htext]
  exact flagsField_other (hnone _ hpos hlt) flags

/-- A directive that fills its field with zeros. -/
theorem fields_zeropad (w : ℕ) (hdigit : isDigit c = false) (hc : c ∉ ascii "0-+ #*") :
    fields (chr '0' :: (numeralText false 10 w ++ c :: rest)) va =
      (precisionField ⟨{ zeropad := true }, BitVec.ofNat 32 w, 0, c :: rest, va⟩).bind lengthField := by
  have hzero (s : Chars) (flags : Flags) :
      flagsField (chr '0' :: s) flags = flagsField s { flags with zeropad := true } := rfl
  by_cases hw : w = 0
  · subst hw
    have hflag : c ∉ ascii "0-+ #" := fun h => hc (List.mem_append_left (ascii "*") h)
    have hstar : c ≠ chr '*' := fun h => hc (h ▸ by decide)
    have htext : numeralText false 10 0 = [chr '0'] := rfl
    simp [fields, htext, hzero, flagsField_other hflag, widthField, hdigit, hstar]
  · rw [fields, hzero, flagsField_numeral hw]
    simp only [Option.bind_eq_bind, Option.bind_some, widthField_digits hdigit hw]

/-- `0x%0<w>lx` -/
def addressFormat (w : ℕ) : Chars :=
  ascii "0x%0" ++ (numeralText false 10 w ++ literal "lx")

/-- `%0<w>d` -/
def intFormat (w : ℕ) : Chars := ascii "%0" ++ (numeralText false 10 w ++ literal "d")

def zerosInFront (w : ℕ) (ds : List Byte) : List Byte := List.replicate (w - ds.length) (chr '0') ++ ds

theorem fieldText_zeropad {flags : Flags} (hzeropad : flags.zeropad = true)
    (hleft : flags.left = false) (hprec : flags.precision = false) {negative : Bool} {b : ℕ}
    {width : UInt} : fieldText flags v negative b 0 width =
    (if max (numeralText flags.uppercase b v.toNat).length (innerWidth flags negative width).toNat
        < PRINTF_NTOA_BUFFER_SIZE then signText flags negative else []) ++
      zerosInFront (min PRINTF_NTOA_BUFFER_SIZE (innerWidth flags negative width).toNat)
        (numeralText flags.uppercase b v.toNat) := by
  have hplaces : digitPlaces flags negative 0 width =
      min PRINTF_NTOA_BUFFER_SIZE (innerWidth flags negative width).toNat := by
    have hzero : max (0 : UInt).toNat (innerWidth flags negative width).toNat =
        (innerWidth flags negative width).toNat := Nat.zero_max _
    rw [digitPlaces, hleft, hzeropad, if_neg Bool.false_ne_true, if_pos rfl, hzero]
  have hds : significant flags v b = numeralText flags.uppercase b v.toNat := by
    rw [significant, hprec]
    rfl
  have hroom (n k : ℕ) : max n (min PRINTF_NTOA_BUFFER_SIZE k) < PRINTF_NTOA_BUFFER_SIZE ↔
      max n k < PRINTF_NTOA_BUFFER_SIZE := by
    omega
  simp only [fieldText, numberText, hleft, hzeropad, hplaces, hds, hroom, zerosInFront,
    Bool.not_false, Bool.and_self, if_true, List.append_assoc]

theorem base_hex : Base 16 16 := ⟨rfl, by decide, le_rfl⟩

theorem base_decimal : Base 10 10 := ⟨rfl, by decide, by decide⟩

theorem expansion_address (w : ℕ) : expansion (addressFormat w) [.word v] =
    some ([], ascii "0x" ++ zerosInFront (min PRINTF_NTOA_BUFFER_SIZE (w % 2 ^ 32))
      (numeralText false 16 v.toNat)) := by
  have hfields : fields (chr '0' :: (numeralText false 10 w ++ literal "lx")) [.word v] =
      some ⟨{ zeropad := true, long := true }, BitVec.ofNat 32 w, 0, literal "x", [.word v]⟩ :=
    @fields_zeropad _ (literal "x") _ w (by decide) (by decide)
  have hspec : specifierText (chr 'x')
      ⟨{ zeropad := true, long := true }, BitVec.ofNat 32 w, 0, literal "x", [.word v]⟩ =
      some ([], zerosInFront (min PRINTF_NTOA_BUFFER_SIZE (w % 2 ^ 32))
        (numeralText false 16 v.toNat)) := by
    have hlong : specifierText (chr 'x')
        ⟨{ zeropad := true, long := true }, BitVec.ofNat 32 w, 0, literal "x", [.word v]⟩ =
        some ([], longText { zeropad := true, long := true } v false 16 0 (BitVec.ofNat 32 w)) := rfl
    rw [hlong, longText_eq base_hex (.inl rfl), fieldText_zeropad rfl rfl rfl]
    simp [innerWidth, signText]
  have hformat : addressFormat w = chr '0' :: chr 'x' :: chr '%' :: chr '0' ::
      (numeralText false 10 w ++ literal "lx") := rfl
  have hend : expansion ((literal "x").drop 1) [] = some ([], []) := rfl
  rw [hformat, expansion_char (by decide) (by decide), expansion_char (by decide) (by decide),
    expansion_directive, hfields]
  have hx : (literal "x")[0]? = some (chr 'x') := rfl
  simp only [Option.bind_some, hx, hspec, hend, Option.map_some, List.append_nil]
  rfl

theorem expansion_int (w : ℕ) : expansion (intFormat w) [.word v] =
    some ([], fieldText { zeropad := true } ((magnitude (v.setWidth 32)).1.setWidth 64)
      (magnitude (v.setWidth 32)).2 10 0 (BitVec.ofNat 32 w)) := by
  have hfields : fields (chr '0' :: (numeralText false 10 w ++ literal "d")) [.word v] =
      some ⟨{ zeropad := true }, BitVec.ofNat 32 w, 0, literal "d", [.word v]⟩ :=
    @fields_zeropad _ [0] _ w (by decide) (by decide)
  have hspec : specifierText (chr 'd')
      ⟨{ zeropad := true }, BitVec.ofNat 32 w, 0, literal "d", [.word v]⟩ =
      some ([], fieldText { zeropad := true } ((magnitude (v.setWidth 32)).1.setWidth 64)
        (magnitude (v.setWidth 32)).2 10 0 (BitVec.ofNat 32 w)) := by
    rw [← longText_eq base_decimal (.inl rfl)]
    rfl
  have hformat : intFormat w = chr '%' :: chr '0' :: (numeralText false 10 w ++ literal "d") := rfl
  have hend : expansion ((literal "d").drop 1) [] = some ([], []) := rfl
  have hd : (literal "d")[0]? = some (chr 'd') := rfl
  rw [hformat, expansion_directive, hfields]
  simp only [Option.bind_some, hd, hspec, hend, Option.map_some, List.append_nil]

end Formats

/-! ## Printed and read back -/

section RoundTrip

variable {value : Byte → Option ℕ} {b k v w : ℕ} {cs : List Byte} {m : Mem} {buffer : ℕ}
  {count : SizeT} {n : UInt}

theorem hexValue_digitChar : ∀ d < 16, hexValue (digitChar false d) = some d := by decide

theorem decimalValue_digitChar : ∀ d < 10, decimalValue (digitChar false d) = some d := by decide

theorem numeral_zerosInFront (hb : 2 ≤ b) (hvalue : ∀ d < b, value (digitChar false d) = some d) :
    numeral value b (zerosInFront k (numeralText false b v)) = some v := by
  rw [zerosInFront, numeral_zeros (hvalue 0 (by omega)), numeral_numeralText hb hvalue]

theorem numeral_no_nul (hvalue : value 0 = none) (h : numeral value b cs = some v) : 0 ∉ cs := by
  intro hmem
  have hsome := numeral_isSome.mp (Option.isSome_of_eq_some h) 0 hmem
  rw [hvalue] at hsome
  cases hsome

theorem decimal_of_numeral (h : numeral decimalValue 10 cs = some v) : decimal cs = some (v : ℤ) := by
  cases cs with
  | nil =>
    obtain rfl : 0 = v := Option.some.inj h
    rfl
  | cons c cs =>
    have hc : c ≠ 0x2d := by
      rintro rfl
      have hsome := numeral_isSome.mp (Option.isSome_of_eq_some h) _ List.mem_cons_self
      cases hsome
    rw [decimal, if_neg hc, h]
    rfl

theorem length_zerosInFront {base v : BitVec 64} (hb : Base base b) :
    (zerosInFront (min PRINTF_NTOA_BUFFER_SIZE k) (numeralText false b v.toNat)).length ≤
      PRINTF_NTOA_BUFFER_SIZE := by
  have hdigits : (numeralText false b v.toNat).length ≤ PRINTF_NTOA_BUFFER_SIZE :=
    (List.length_reverse ..).trans_le (length_lowDigits hb false)
  rw [zerosInFront, List.length_append, List.length_replicate]
  omega

/-- An address that is printed in a field of any width is the one that `matox` reads. -/
theorem address_read_back (v : BitVec 64) (w : ℕ) (hbuffer : buffer ≠ 0) (hcount : 34 < count.toNat) :
    ∃ len m', snprintf buffer count (addressFormat w) [.word v] m = some (len, m') ∧
      matox (listed (window m' buffer) count.toNat) = some v := by
  have hnumeral : numeral hexValue 16 (zerosInFront (min PRINTF_NTOA_BUFFER_SIZE (w % 2 ^ 32))
      (numeralText false 16 v.toNat)) = some v.toNat :=
    numeral_zerosInFront (by decide) hexValue_digitChar
  have hlen := length_zerosInFront (k := w % 2 ^ 32) (v := v) base_hex
  have hshort : (ascii "0x" ++ zerosInFront (min PRINTF_NTOA_BUFFER_SIZE (w % 2 ^ 32))
      (numeralText false 16 v.toNat)).length ≤ 34 := by
    rw [List.length_append]
    exact Nat.add_le_add_left hlen 2
  have hnul : 0 ∉ ascii "0x" ++ zerosInFront (min PRINTF_NTOA_BUFFER_SIZE (w % 2 ^ 32))
      (numeralText false 16 v.toNat) := by
    rw [List.mem_append, not_or]
    exact ⟨by decide, numeral_no_nul hexValue_zero hnumeral⟩
  refine ⟨_, _, snprintf_eq (expansion_address w) (hshort.trans_lt (by decide)) hbuffer, ?_⟩
  rw [matox_eq (stored_isString hnul (by omega))]
  have hhex : hexadecimal (ascii "0x" ++ zerosInFront (min PRINTF_NTOA_BUFFER_SIZE (w % 2 ^ 32))
      (numeralText false 16 v.toNat)) = some v.toNat := hnumeral
  rw [hhex, Option.elim_some, BitVec.ofNat_toNat, BitVec.setWidth_eq]

theorem address_read_back_high : ∃ len m', snprintf 0x1000 64 (addressFormat 12)
    [.word 0xffffffff80000000] (fun _ => 0) = some (len, m') ∧
      matox (listed (window m' 0x1000) 64) = some 0xffffffff80000000 :=
  address_read_back 0xffffffff80000000 12 (by decide) (by decide)

theorem magnitude_toNat (n : UInt) : (magnitude n).1.toNat = n.toInt.natAbs := by
  have hn := n.isLt
  have hint := BitVec.toInt_eq_toNat_cond n
  have hpos : (0 : UInt).slt n = true ↔ 0 < n.toInt := BitVec.slt_iff_toInt_lt
  have hminus : (0 - n).toNat = (2 ^ 32 - n.toNat) % 2 ^ 32 := by
    rw [BitVec.toNat_sub]
    rfl
  have hfst : (magnitude n).1 = if (0 : UInt).slt n then n else 0 - n := rfl
  rw [hfst]
  by_cases hslt : 0 < n.toInt
  · rw [if_pos (hpos.mpr hslt)]
    split_ifs at hint <;> omega
  · rw [if_neg (mt hpos.mp hslt), hminus]
    split_ifs at hint <;> omega

theorem ofInt_natAbs (hneg : n.toInt < 0) : BitVec.ofInt 32 (n.toInt.natAbs : ℤ) = -n := by
  rw [Int.ofNat_natAbs_of_nonpos hneg.le, BitVec.ofInt_neg, BitVec.ofInt_toInt]

/-- The sign is there if 31 digits are enough for the field. -/
theorem toNat_innerWidth {negative : Bool} : (innerWidth { zeropad := true } negative
    (BitVec.ofNat 32 w)).toNat = if negative then w % 2 ^ 32 - 1 else w % 2 ^ 32 := by
  cases negative with
  | false => simp [innerWidth]
  | true =>
    by_cases hw : w % 2 ^ 32 = 0
    · have hzero : BitVec.ofNat 32 w = 0 := BitVec.eq_of_toNat_eq hw
      rw [if_pos rfl, hw, hzero]
      rfl
    · have hne : BitVec.ofNat 32 w ≠ 0 := fun h => hw (congrArg BitVec.toNat h)
      have hpred : (BitVec.ofNat 32 w - 1).toNat = w % 2 ^ 32 - 1 :=
        BitVec.toNat_sub_of_le (Nat.one_le_iff_ne_zero.mpr hw)
      simp only [innerWidth, hne, ne_eq, not_false_eq_true, decide_true, Bool.true_or, Bool.and_self,
        if_true, hpred]

theorem length_intDigits (n : UInt) : (numeralText false 10 n.toInt.natAbs).length ≤ 10 := by
  have hbound : n.toInt.natAbs < 10 ^ 10 := by
    have hlow := BitVec.le_toInt n
    have hhigh := BitVec.toInt_lt (x := n)
    omega
  rw [numeralText, List.length_reverse, lowDigits]
  split_ifs
  · decide
  · rw [List.length_map]
    exact (Nat.digits_length_le_iff (by decide) _).mpr hbound

/-- The text of an `int` in a field of zeros. -/
theorem intText_eq (v : BitVec 64) (w : ℕ) : expansion (intFormat w) [.word v] =
    some ([], (if (v.setWidth 32).toInt < 0 ∧ w % 2 ^ 32 ≤ PRINTF_NTOA_BUFFER_SIZE then [chr '-']
        else []) ++
      zerosInFront (min PRINTF_NTOA_BUFFER_SIZE
          (if (v.setWidth 32).toInt < 0 then w % 2 ^ 32 - 1 else w % 2 ^ 32))
        (numeralText false 10 (v.setWidth 32).toInt.natAbs)) := by
  rw [expansion_int, fieldText_zeropad rfl rfl rfl]
  generalize v.setWidth 32 = n
  have hvalue : ((magnitude n).1.setWidth 64).toNat = n.toInt.natAbs := by
    rw [BitVec.toNat_setWidth_of_le (by decide), magnitude_toNat]
  have hnegative : (magnitude n).2 = decide (n.toInt < 0) := BitVec.slt_eq_decide ..
  have hlen := length_intDigits n
  rw [hvalue, hnegative, toNat_innerWidth]
  by_cases hneg : n.toInt < 0
  · have hroom : max (numeralText false 10 n.toInt.natAbs).length (w % 2 ^ 32 - 1) <
        PRINTF_NTOA_BUFFER_SIZE ↔ w % 2 ^ 32 ≤ PRINTF_NTOA_BUFFER_SIZE := by
      rw [PRINTF_NTOA_BUFFER_SIZE]
      omega
    simp only [hneg, decide_true, if_true, hroom, true_and, signText]
  · simp [hneg, signText]

/-- A numeral in the buffer is read. -/
theorem snprintf_matoi {format : Chars} {va va' : List Arg} {i : ℤ}
    (hexp : expansion format va = some (va', cs)) (hnul : 0 ∉ cs) (hi : decimal cs = some i)
    (hbuffer : buffer ≠ 0) (hcount : cs.length < count.toNat) :
    ∃ len m', snprintf buffer count format va m = some (len, m') ∧
      matoi (listed (window m' buffer) count.toNat) = some (BitVec.ofInt 32 i) := by
  refine ⟨_, _, snprintf_eq hexp (hcount.trans count.isLt) hbuffer, ?_⟩
  rw [matoi_eq (stored_isString hnul hcount), hi]
  rfl

/-- Where the sign has no room among 32 digits, it is left out. -/
theorem int_read_back (v : BitVec 64) (w : ℕ) (hbuffer : buffer ≠ 0) (hcount : 32 < count.toNat) :
    ∃ len m' r, snprintf buffer count (intFormat w) [.word v] m = some (len, m') ∧
      matoi (listed (window m' buffer) count.toNat) = some r ∧
      (r = v.setWidth 32 ↔ w % 2 ^ 32 ≤ PRINTF_NTOA_BUFFER_SIZE ∨ 0 ≤ (v.setWidth 32).toInt ∨
        v.setWidth 32 = BitVec.intMin 32) := by
  have hexp := intText_eq v w
  generalize v.setWidth 32 = n at hexp ⊢
  have hnumeral (k : ℕ) : numeral decimalValue 10
      (zerosInFront k (numeralText false 10 n.toInt.natAbs)) = some n.toInt.natAbs :=
    numeral_zerosInFront (by decide) decimalValue_digitChar
  have hnul (k : ℕ) := numeral_no_nul decimalValue_zero (hnumeral k)
  have hlength (k : ℕ) : (zerosInFront k (numeralText false 10 n.toInt.natAbs)).length ≤ max k 10 := by
    have hdigits := length_intDigits n
    rw [zerosInFront, List.length_append, List.length_replicate]
    omega
  have hshort (k : ℕ) : max (min PRINTF_NTOA_BUFFER_SIZE k) 10 ≤ 32 := by
    rw [PRINTF_NTOA_BUFFER_SIZE]
    omega
  by_cases hneg : n.toInt < 0
  swap
  · -- there is no sign
    simp only [hneg, false_and, if_false, List.nil_append] at hexp
    obtain ⟨len, m', hprint, hread⟩ := snprintf_matoi (m := m) hexp (hnul _)
      (decimal_of_numeral (hnumeral _)) hbuffer (((hlength _).trans (hshort _)).trans_lt hcount)
    refine ⟨len, m', n, hprint, ?_, iff_of_true rfl (.inr (.inl (not_lt.mp hneg)))⟩
    rw [hread, Int.natAbs_of_nonneg (not_lt.mp hneg), BitVec.ofInt_toInt]
  by_cases hfits : w % 2 ^ 32 ≤ PRINTF_NTOA_BUFFER_SIZE
  · simp only [hneg, hfits, true_and, if_true] at hexp
    have hminus : 0 ∉ [chr '-'] := by decide
    have hdecimal (k : ℕ) : decimal ([chr '-'] ++
        zerosInFront k (numeralText false 10 n.toInt.natAbs)) = some n.toInt := by
      have hsign : decimal ([chr '-'] ++ zerosInFront k (numeralText false 10 n.toInt.natAbs)) =
          (numeral decimalValue 10 (zerosInFront k (numeralText false 10 n.toInt.natAbs))).map
            fun v : ℕ => -(v : ℤ) := rfl
      rw [hsign, hnumeral, Option.map_some, Int.ofNat_natAbs_of_nonpos hneg.le, neg_neg]
    have hroom : ([chr '-'] ++ zerosInFront (min PRINTF_NTOA_BUFFER_SIZE (w % 2 ^ 32 - 1))
        (numeralText false 10 n.toInt.natAbs)).length < count.toNat := by
      have hdigits := hlength (min PRINTF_NTOA_BUFFER_SIZE (w % 2 ^ 32 - 1))
      rw [PRINTF_NTOA_BUFFER_SIZE] at hfits hdigits
      rw [List.length_append, List.length_singleton, PRINTF_NTOA_BUFFER_SIZE]
      omega
    obtain ⟨len, m', hprint, hread⟩ := snprintf_matoi (m := m) hexp
      (fun h => (List.mem_append.mp h).elim hminus (hnul _)) (hdecimal _) hbuffer hroom
    refine ⟨len, m', n, hprint, ?_, iff_of_true rfl (.inl hfits)⟩
    rw [hread, BitVec.ofInt_toInt]
  · -- the digits fill the buffer
    simp only [hfits, hneg, and_false, if_true, if_false, List.nil_append] at hexp
    obtain ⟨len, m', hprint, hread⟩ := snprintf_matoi (m := m) hexp (hnul _)
      (decimal_of_numeral (hnumeral _)) hbuffer (((hlength _).trans (hshort _)).trans_lt hcount)
    rw [ofInt_natAbs hneg] at hread
    have hsame : -n = n ↔ n = BitVec.intMin 32 := by
      refine ⟨fun h => by_contra fun hmin => ?_, fun h => h ▸ BitVec.neg_intMin⟩
      have hint := BitVec.toInt_neg_of_ne_intMin hmin
      rw [h] at hint
      omega
    refine ⟨len, m', -n, hprint, hread, ?_⟩
    rw [hsame]
    exact ⟨fun h => .inr (.inr h), fun h => (h.resolve_left hfits).resolve_left (not_le.mpr hneg)⟩

theorem int_read_back_minus : ∃ len m' r, snprintf 0x1000 64 (intFormat 40) [.word (-12)]
    (fun _ => 0) = some (len, m') ∧ matoi (listed (window m' 0x1000) 64) = some r ∧
      (r = BitVec.setWidth 32 (-12 : BitVec 64) ↔ 40 % 2 ^ 32 ≤ PRINTF_NTOA_BUFFER_SIZE ∨
        0 ≤ (BitVec.setWidth 32 (-12 : BitVec 64)).toInt ∨
        BitVec.setWidth 32 (-12 : BitVec 64) = BitVec.intMin 32) :=
  int_read_back (-12) 40 (by decide) (by decide)

end RoundTrip

end Printf
