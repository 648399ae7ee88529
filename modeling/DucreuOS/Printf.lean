import DucreuOS.Numerals

/-! # Formatted output

`printf.c`, of which the kernel, the SBI and the library of the user programs have a copy each. The
characters of a format go to an output function, each with its index. A format and a string among
the arguments are the bytes from there to the end of the array; what reads behind the end has no
result, and neither have the conversions of floating point numbers, which are left out. -/
namespace Printf

open ByteMemory Words Strings

abbrev SizeT := BitVec 64
abbrev UInt := BitVec 32

def chr (c : Char) : Byte := BitVec.ofNat 8 c.toNat

structure Flags where
  zeropad : Bool := false
  left : Bool := false
  plus : Bool := false
  space : Bool := false
  hash : Bool := false
  uppercase : Bool := false
  char : Bool := false
  short : Bool := false
  long : Bool := false
  longLong : Bool := false
  precision : Bool := false
deriving DecidableEq

/-- An argument: an integer as it is passed, or what a `char *` points to. -/
inductive Arg
  | word (v : BitVec 64)
  | str (p : Chars)
deriving DecidableEq

/-! ## The buffer of a number -/

def PRINTF_NTOA_BUFFER_SIZE : ℕ := 32

/-- `buf`, with as many characters as `len` tells. -/
structure NtoaBuffer where
  chars : List Byte
  fits : chars.length ≤ PRINTF_NTOA_BUFFER_SIZE

namespace NtoaBuffer

def len (b : NtoaBuffer) : ℕ := b.chars.length

def empty : NtoaBuffer := ⟨[], Nat.zero_le _⟩

/-- `buf[len++] = c` -/
def push (b : NtoaBuffer) (c : Byte) (h : b.len < PRINTF_NTOA_BUFFER_SIZE) : NtoaBuffer :=
  ⟨b.chars ++ [c], (List.length_append ..).trans_le h⟩

/-- `if(len < PRINTF_NTOA_BUFFER_SIZE) buf[len++] = c` -/
def add (b : NtoaBuffer) (c : Byte) : NtoaBuffer :=
  if h : b.len < PRINTF_NTOA_BUFFER_SIZE then b.push c h else b

/-- `len--` -/
def drop (b : NtoaBuffer) : NtoaBuffer :=
  ⟨b.chars.dropLast, (b.chars.dropLast_prefix.length_le).trans b.fits⟩

end NtoaBuffer

def digit (flags : Flags) (value base : BitVec 64) : Byte :=
  let digit : Byte := (value % base).setWidth 8
  if digit < 10 then chr '0' + digit
  else (if flags.uppercase then chr 'A' else chr 'a') + digit - 10

/-- The `do`-loop, with room for `n` more characters behind the next one. -/
def digits (flags : Flags) (base : BitVec 64) : (n : ℕ) → (value : BitVec 64) → (b : NtoaBuffer) →
    b.len + n < PRINTF_NTOA_BUFFER_SIZE → NtoaBuffer
  | 0, value, b, h => b.push (digit flags value base) h
  | n + 1, value, b, h =>
    let next := b.push (digit flags value base) (by omega)
    if value / base ≠ 0 then digits flags base n (value / base) next (by
      have hlen : next.len = b.len + 1 := List.length_append ..
      omega)
    else next

/-- `while((len < target) && (len < PRINTF_NTOA_BUFFER_SIZE)) buf[len++] = '0'`, at most `n` times. -/
def zerosTo (target : ℕ) : ℕ → NtoaBuffer → NtoaBuffer
  | 0, b => b
  | n + 1, b =>
    if h : b.len < target ∧ b.len < PRINTF_NTOA_BUFFER_SIZE then zerosTo target n (b.push (chr '0') h.2)
    else b

/-- `handle hash` -/
def hashed (flags : Flags) (base : BitVec 64) (prec width : UInt) (b : NtoaBuffer) : NtoaBuffer :=
  let b :=
    if !flags.precision && b.len ≠ 0 && (b.len = prec.toNat || b.len = width.toNat) then
      let b := b.drop
      if b.len ≠ 0 && base = 16 then b.drop else b
    else b
  let b :=
    if base = 16 && !flags.uppercase then b.add (chr 'x')
    else if base = 16 && flags.uppercase then b.add (chr 'X')
    else if base = 2 then b.add (chr 'b')
    else b
  b.add (chr '0')

def signed (flags : Flags) (negative : Bool) (b : NtoaBuffer) : NtoaBuffer :=
  if negative then b.add (chr '-')
  else if flags.plus then b.add (chr '+')
  else if flags.space then b.add space
  else b

/-- The width of the number without the place of a sign. -/
def innerWidth (flags : Flags) (negative : Bool) (width : UInt) : UInt :=
  if width ≠ 0 && flags.zeropad && (negative || flags.plus || flags.space) then width - 1 else width

/-- What `_ntoa_format` does before `_out_rev`: the buffer and the width. -/
def ntoaChars (flags : Flags) (b : NtoaBuffer) (negative : Bool) (base : BitVec 64)
    (prec width : UInt) : NtoaBuffer × UInt :=
  let (b, width) :=
    if !flags.left then
      let width := innerWidth flags negative width
      let b := zerosTo prec.toNat PRINTF_NTOA_BUFFER_SIZE b
      let b := if flags.zeropad then zerosTo width.toNat PRINTF_NTOA_BUFFER_SIZE b else b
      (b, width)
    else (b, width)
  let b := if flags.hash then hashed flags base prec width b else b
  (signed flags negative b, width)

/-- What `_ntoa_long` does before `_ntoa_format`: the flags and the buffer. -/
def ntoaDigits (flags : Flags) (value base : BitVec 64) : Flags × NtoaBuffer :=
  let flags := if value = 0 then { flags with hash := false } else flags
  let b :=
    if !flags.precision || value ≠ 0 then
      digits flags base (PRINTF_NTOA_BUFFER_SIZE - 1) value .empty (by decide)
    else .empty
  (flags, b)

/-! ## Output -/

section Output

variable {σ : Type}

/-- The output function with its buffer, in the state that it changes. -/
abbrev Out (σ : Type) := Byte → SizeT → σ → σ

variable (out : Out σ)

/-- `out(c, buffer, idx++, maxlen)` -/
def put (c : Byte) (p : SizeT × σ) : SizeT × σ := (p.1 + 1, out c p.1 p.2)

/-- `out(' ', buffer, idx++, maxlen)`, `n` times. -/
def blanks : ℕ → SizeT × σ → SizeT × σ
  | 0, p => p
  | n + 1, p => blanks n (put out space p)

/-- `while(idx - start_idx < width)`, at most `n` times. -/
def fillTo (start_idx : SizeT) (width : UInt) : ℕ → SizeT × σ → SizeT × σ
  | 0, p => p
  | n + 1, p =>
    if p.1 - start_idx < width.setWidth 64 then fillTo start_idx width n (put out space p) else p

/-- `while(len) out(buf[--len], buffer, idx++, maxlen)`, for the characters from the last one on. -/
def putAll : List Byte → SizeT × σ → SizeT × σ
  | [], p => p
  | c :: cs, p => putAll cs (put out c p)

def outRev (buf : List Byte) (width : UInt) (flags : Flags) (p : SizeT × σ) : SizeT × σ :=
  let start_idx := p.1
  let p := if !flags.left && !flags.zeropad then blanks out (width.toNat - buf.length) p else p
  let p := putAll out buf.reverse p
  if flags.left then fillTo out start_idx width width.toNat p else p

def ntoaFormat (flags : Flags) (b : NtoaBuffer) (negative : Bool) (base : BitVec 64)
    (prec width : UInt) (p : SizeT × σ) : SizeT × σ :=
  let (b, width) := ntoaChars flags b negative base prec width
  outRev out b.chars width flags p

/-- `_ntoa_long` and `_ntoa_long_long`. -/
def ntoaLong (flags : Flags) (value : BitVec 64) (negative : Bool) (base : BitVec 64)
    (prec width : UInt) (p : SizeT × σ) : SizeT × σ :=
  let (flags, b) := ntoaDigits flags value base
  ntoaFormat out flags b negative base prec width p

end Output

/-! ## The fields of a directive -/

/-- `_is_digit` -/
def isDigit (c : Byte) : Bool := chr '0' ≤ c && c ≤ chr '9'

/-- `_atoi` -/
def atoi : Chars → UInt → Option (UInt × Chars)
  | [], _ => none
  | c :: str, i =>
    if isDigit c then atoi str (i * 10 + (c.setWidth 32 - (chr '0').setWidth 32)) else some (i, c :: str)

/-- What `_vsnprintf` knows of a directive, and where it reads on. -/
structure Directive where
  flags : Flags := {}
  width : UInt := 0
  precision : UInt := 0
  format : Chars
  va : List Arg

/-- `va_arg(va, int)` -/
def vaInt : List Arg → Option (UInt × List Arg)
  | .word v :: va => some (v.setWidth 32, va)
  | _ => none

def flagsField : Chars → Flags → Option (Flags × Chars)
  | [], _ => none
  | c :: format, flags =>
    if c = chr '0' then flagsField format { flags with zeropad := true }
    else if c = chr '-' then flagsField format { flags with left := true }
    else if c = chr '+' then flagsField format { flags with plus := true }
    else if c = chr ' ' then flagsField format { flags with space := true }
    else if c = chr '#' then flagsField format { flags with hash := true }
    else some (flags, c :: format)

def widthField (d : Directive) : Option Directive := do
  let c ← d.format[0]?
  if isDigit c then
    let (width, format) ← atoi d.format 0
    some { d with width := width, format := format }
  else if c = chr '*' then
    let (w, va) ← vaInt d.va
    let flags := if w.slt 0 then { d.flags with left := true } else d.flags
    let width := if w.slt 0 then -w else w
    some { d with flags := flags, width := width, format := d.format.drop 1, va := va }
  else some d

def precisionField (d : Directive) : Option Directive := do
  let c ← d.format[0]?
  if c = chr '.' then
    let d := { d with flags := { d.flags with precision := true }, format := d.format.drop 1 }
    let c ← d.format[0]?
    if isDigit c then
      let (precision, format) ← atoi d.format 0
      some { d with precision := precision, format := format }
    else if c = chr '*' then
      let (prec, va) ← vaInt d.va
      let precision := if (0 : UInt).slt prec then prec else 0
      some { d with precision := precision, format := d.format.drop 1, va := va }
    else some d
  else some d

/-- `long` is as long as `ptrdiff_t`, `intmax_t` and `size_t`. -/
def lengthField (d : Directive) : Option Directive := do
  let c ← d.format[0]?
  if c = chr 'l' then
    let d := { d with flags := { d.flags with long := true }, format := d.format.drop 1 }
    let c ← d.format[0]?
    if c = chr 'l' then
      some { d with flags := { d.flags with longLong := true }, format := d.format.drop 1 }
    else some d
  else if c = chr 'h' then
    let d := { d with flags := { d.flags with short := true }, format := d.format.drop 1 }
    let c ← d.format[0]?
    if c = chr 'h' then
      some { d with flags := { d.flags with char := true }, format := d.format.drop 1 }
    else some d
  else if c = chr 't' || c = chr 'j' || c = chr 'z' then
    some { d with flags := { d.flags with long := true }, format := d.format.drop 1 }
  else some d

/-! ## The specifiers -/

/-- The base, and the flags that count for the specifier. -/
def numberFlags (c : Byte) (flags : Flags) : BitVec 64 × Flags :=
  let base : BitVec 64 :=
    if c = chr 'x' || c = chr 'X' then 16
    else if c = chr 'o' then 8
    else if c = chr 'b' then 2
    else 10
  let flags := if base = 10 then { flags with hash := false } else flags
  let flags := if c = chr 'X' then { flags with uppercase := true } else flags
  let flags :=
    if c ≠ chr 'i' && c ≠ chr 'd' then { flags with plus := false, space := false } else flags
  let flags := if flags.precision then { flags with zeropad := false } else flags
  (base, flags)

/-- `value > 0 ? value : 0 - value`, and whether the number is negative. -/
def magnitude {w : ℕ} (value : BitVec w) : BitVec w × Bool :=
  (if (0 : BitVec w).slt value then value else 0 - value, value.slt 0)

/-- The integer of a specifier; a `char` is unsigned. -/
def integerArg (c : Byte) (flags : Flags) (v : BitVec 64) : BitVec 64 × Bool :=
  if c = chr 'i' || c = chr 'd' then
    if flags.longLong || flags.long then magnitude v
    else
      let value : UInt :=
        if flags.char then (v.setWidth 8).setWidth 32
        else if flags.short then (v.setWidth 16).signExtend 32
        else v.setWidth 32
      ((magnitude value).1.setWidth 64, (magnitude value).2)
  else if flags.longLong || flags.long then (v, false)
  else if flags.char then ((v.setWidth 8).setWidth 64, false)
  else if flags.short then ((v.setWidth 16).setWidth 64, false)
  else ((v.setWidth 32).setWidth 64, false)

/-- `_strnlen_s` -/
def strnlen : Chars → SizeT → Option ℕ
  | [], _ => none
  | c :: s, maxsize =>
    if c = 0 || maxsize = 0 then some 0 else (strnlen s (maxsize - 1)).map (1 + ·)

section Directives

variable {σ : Type} (out : Out σ)

/-- `while((*p != 0) && (!(flags & FLAGS_PRECISION) || precision--))` -/
def outString (flags : Flags) : Chars → UInt → SizeT × σ → Option (SizeT × σ)
  | [], _, _ => none
  | c :: s, precision, p =>
    if c = 0 then some p
    else if flags.precision then
      if precision = 0 then some p else outString flags s (precision - 1) (put out c p)
    else outString flags s precision (put out c p)

/-- `case 's'` -/
def stringField (flags : Flags) (width precision : UInt) (s : Chars) (p : SizeT × σ) :
    Option (SizeT × σ) := do
  let len ← strnlen s (if precision ≠ 0 then precision.setWidth 64 else -1)
  let l := BitVec.ofNat 32 len
  let l := if flags.precision then (if l < precision then l else precision) else l
  let p := if !flags.left then blanks out (width.toNat - l.toNat) p else p
  let p ← outString out flags s precision p
  some (if flags.left then blanks out (width.toNat - l.toNat) p else p)

/-- `case 'c'` -/
def charField (flags : Flags) (width : UInt) (c : Byte) (p : SizeT × σ) : SizeT × σ :=
  let p := if !flags.left then blanks out (width.toNat - 1) p else p
  let p := put out c p
  if flags.left then blanks out (width.toNat - 1) p else p

def integerSpecifiers : List Byte := CommandLine.ascii "diuxXob"

def floatSpecifiers : List Byte := CommandLine.ascii "fFeEgG"

/-- What a specifier writes, and the arguments that it leaves. -/
def specifier (c : Byte) (d : Directive) (p : SizeT × σ) : Option (List Arg × (SizeT × σ)) :=
  if c ∈ integerSpecifiers then
    match d.va with
    | .word v :: va =>
      let (base, flags) := numberFlags c d.flags
      let (value, negative) := integerArg c flags v
      some (va, ntoaLong out flags value negative base d.precision d.width p)
    | _ => none
  else if c ∈ floatSpecifiers then none
  else if c = chr 'c' then
    match d.va with
    | .word v :: va => some (va, charField out d.flags d.width (v.setWidth 8) p)
    | _ => none
  else if c = chr 's' then
    match d.va with
    | .str s :: va => (stringField out d.flags d.width d.precision s p).map fun p => (va, p)
    | _ => none
  else if c = chr 'p' then
    match d.va with
    | .word v :: va =>
      let flags := { d.flags with zeropad := true, uppercase := true }
      some (va, ntoaLong out flags v false 16 d.precision 16 p)
    | _ => none
  else if c = chr '%' then some (d.va, put out (chr '%') p)
  else some (d.va, put out c p)

/-- The fields behind a `%`. -/
def fields (format : Chars) (va : List Arg) : Option Directive := do
  let (flags, format) ← flagsField format {}
  let d ← widthField { flags := flags, format := format, va := va }
  let d ← precisionField d
  lengthField d

/-- `while(*format)`, at most `n` times. -/
def directives : ℕ → Chars → List Arg → SizeT × σ → Option (List Arg × (SizeT × σ))
  | 0, _, _, _ => none
  | n + 1, format, va, p => do
    let c ← format[0]?
    if c = 0 then some (va, p)
    else if c ≠ chr '%' then directives n (format.drop 1) va (put out c p)
    else
      let d ← fields (format.drop 1) va
      let c ← d.format[0]?
      let (va, p) ← specifier out c d p
      directives n (d.format.drop 1) va p

end Directives

/-! ## The functions -/

section Functions

variable {σ : Type}

/-- An output function: a character, the buffer, the index and the length. -/
abbrev OutFct (σ : Type) := Byte → ℕ → SizeT → SizeT → σ → σ

def outNull : OutFct σ := fun _ _ _ _ s => s

/-- Every iteration takes a character of the array at least. -/
def vsnprintf (out : OutFct σ) (buffer : ℕ) (maxlen : SizeT) (format : Chars) (va : List Arg)
    (s : σ) : Option (BitVec 32 × σ) := do
  let out := if buffer = 0 then outNull else out
  let (_, idx, s) ← directives (fun c idx => out c buffer idx maxlen) format.length format va (0, s)
  some (idx.setWidth 32, out 0 buffer (if idx < maxlen then idx else maxlen - 1) maxlen s)

def outBuffer : OutFct Mem := fun character buffer idx maxlen m =>
  if idx < maxlen then Function.update m (buffer + idx.toNat) character else m

/-- `_putchar` appends to what has been written. -/
def outChar : OutFct (List Byte) := fun character _ _ _ written =>
  if character ≠ 0 then written ++ [character] else written

def outFct (fct : Byte → σ → σ) : OutFct σ := fun character _ _ _ s =>
  if character ≠ 0 then fct character s else s

def snprintf (buffer : ℕ) (count : SizeT) (format : Chars) (va : List Arg) (m : Mem) :
    Option (BitVec 32 × Mem) := vsnprintf outBuffer buffer count format va m

def sprintf (buffer : ℕ) (format : Chars) (va : List Arg) (m : Mem) : Option (BitVec 32 × Mem) :=
  vsnprintf outBuffer buffer (-1) format va m

/-- The array of one character on the stack is not at 0. -/
def printf (buffer : ℕ) (format : Chars) (va : List Arg) (written : List Byte) :
    Option (BitVec 32 × List Byte) := vsnprintf outChar buffer (-1) format va written

def fctprintf (fct : Byte → σ → σ) (wrap : ℕ) (format : Chars) (va : List Arg) (s : σ) :
    Option (BitVec 32 × σ) := vsnprintf (outFct fct) wrap (-1) format va s

end Functions

end Printf
