import DucreuOS.Printf

/-! # What a format expands to

A format and its arguments stand for one text. Every output function is handed the characters of
the text in order, with the indices from 0 on; this is what `snprintf`, `sprintf`, `printf` and
`fctprintf` have in common. -/
namespace Printf

open ByteMemory Words Strings

/-! ## Texts -/

/-- Blanks in front of a text, or behind it. -/
def around (left : Bool) (n : ℕ) (cs : List Byte) : List Byte :=
  if left then cs ++ List.replicate n space else List.replicate n space ++ cs

def revText (buf : List Byte) (width : UInt) (flags : Flags) : List Byte :=
  if !flags.left && flags.zeropad then buf.reverse
  else around flags.left (width.toNat - buf.length) buf.reverse

def longText (flags : Flags) (value : BitVec 64) (negative : Bool) (base : BitVec 64)
    (prec width : UInt) : List Byte :=
  let (flags, b) := ntoaDigits flags value base
  let (b, width) := ntoaChars flags b negative base prec width
  revText b.chars width flags

/-- The characters in front of the terminator, and no more than the precision. -/
def stringChars (flags : Flags) : Chars → UInt → Option (List Byte)
  | [], _ => none
  | c :: s, precision =>
    if c = 0 then some []
    else if flags.precision then
      if precision = 0 then some [] else (stringChars flags s (precision - 1)).map (c :: ·)
    else (stringChars flags s precision).map (c :: ·)

def stringText (flags : Flags) (width precision : UInt) (s : Chars) : Option (List Byte) := do
  let len ← strnlen s (if precision ≠ 0 then precision.setWidth 64 else -1)
  let l := BitVec.ofNat 32 len
  let l := if flags.precision then (if l < precision then l else precision) else l
  let cs ← stringChars flags s precision
  some (around flags.left (width.toNat - l.toNat) cs)

def charText (flags : Flags) (width : UInt) (c : Byte) : List Byte :=
  around flags.left (width.toNat - 1) [c]

def specifierText (c : Byte) (d : Directive) : Option (List Arg × List Byte) :=
  if integerSpecifiers.contains c then
    match d.va with
    | .word v :: va =>
      let (base, flags) := numberFlags c d.flags
      let (value, negative) := integerArg c flags v
      some (va, longText flags value negative base d.precision d.width)
    | _ => none
  else if floatSpecifiers.contains c then none
  else if c = chr 'c' then
    match d.va with
    | .word v :: va => some (va, charText d.flags d.width (v.setWidth 8))
    | _ => none
  else if c = chr 's' then
    match d.va with
    | .str s :: va => (stringText d.flags d.width d.precision s).map fun cs => (va, cs)
    | _ => none
  else if c = chr 'p' then
    match d.va with
    | .word v :: va =>
      let flags := { d.flags with zeropad := true, uppercase := true }
      some (va, longText flags v false 16 d.precision 16)
    | _ => none
  else if c = chr '%' then some (d.va, [chr '%'])
  else some (d.va, [c])

/-- The arguments that are left, and the text. -/
def expand : ℕ → Chars → List Arg → Option (List Arg × List Byte)
  | 0, _, _ => none
  | n + 1, format, va => do
    let c ← format[0]?
    if c = 0 then some (va, [])
    else if c ≠ chr '%' then (expand n (format.drop 1) va).map fun r => (r.1, c :: r.2)
    else
      let d ← fields (format.drop 1) va
      let c ← d.format[0]?
      let (va, cs) ← specifierText c d
      (expand n (d.format.drop 1) va).map fun r => (r.1, cs ++ r.2)

def expansion (format : Chars) (va : List Arg) : Option (List Arg × List Byte) :=
  expand format.length format va

/-! ## Characters in order -/

section Output

variable {σ : Type} {out : Out σ} {flags : Flags} {width prec : UInt} {cs ds buf : List Byte}
  {p : SizeT × σ} {start_idx : SizeT} {n k : ℕ}

theorem putAll_append : putAll out (cs ++ ds) p = putAll out ds (putAll out cs p) := by
  induction cs generalizing p with
  | nil => rfl
  | cons c cs ih => exact ih

theorem putAll_fst : (putAll out cs p).1 = p.1 + BitVec.ofNat 64 cs.length := by
  induction cs generalizing p with
  | nil => exact (BitVec.add_zero _).symm
  | cons c cs ih =>
    have hone : BitVec.ofNat 64 1 = 1 := rfl
    rw [putAll, ih, put, List.length_cons, BitVec.ofNat_add, hone]
    ring

theorem blanks_eq : blanks out n p = putAll out (List.replicate n space) p := by
  induction n generalizing p with
  | zero => rfl
  | succ n ih => exact ih

/-- With `k` characters behind `start_idx`, the loop puts what the width asks for. -/
theorem fillTo_eq (hp : p.1 - start_idx = BitVec.ofNat 64 k) (hn : width.toNat ≤ k + n)
    (hk : k ≤ 2 ^ 33) : fillTo out start_idx width n p =
      putAll out (List.replicate (width.toNat - k) space) p := by
  have hwidth := width.isLt
  have hlt (k : ℕ) (hk : k ≤ 2 ^ 33) :
      BitVec.ofNat 64 k < width.setWidth 64 ↔ k < width.toNat := by
    rw [BitVec.lt_def, BitVec.toNat_ofNat, BitVec.toNat_setWidth, Nat.mod_eq_of_lt (by omega),
      Nat.mod_eq_of_lt (by omega)]
  induction n generalizing p k with
  | zero =>
    have hzero : width.toNat - k = 0 := by omega
    rw [hzero]
    rfl
  | succ n ih =>
    rw [fillTo, hp]
    by_cases hmore : k < width.toNat
    · have hnext : (put out space p).1 - start_idx = BitVec.ofNat 64 (k + 1) := by
        have hone : BitVec.ofNat 64 1 = 1 := rfl
        rw [BitVec.ofNat_add, ← hp, put, hone]
        ring
      have hrest : width.toNat - k = width.toNat - (k + 1) + 1 := by omega
      rw [if_pos ((hlt k hk).mpr hmore), ih hnext (by omega) (by omega), hrest]
      rfl
    · have hzero : width.toNat - k = 0 := by omega
      rw [if_neg fun h => hmore ((hlt k hk).mp h), hzero]
      rfl

/-- The buffer backwards, in its field. -/
theorem outRev_eq (hbuf : buf.length ≤ PRINTF_NTOA_BUFFER_SIZE) :
    outRev out buf width flags p = putAll out (revText buf width flags) p := by
  have hsmall : buf.length ≤ 2 ^ 33 := hbuf.trans (by decide)
  have hbehind (p : SizeT × σ) : fillTo out p.1 width width.toNat (putAll out buf.reverse p) =
      putAll out (buf.reverse ++ List.replicate (width.toNat - buf.length) space) p := by
    have hidx : (putAll out buf.reverse p).1 - p.1 = BitVec.ofNat 64 buf.length := by
      rw [putAll_fst, List.length_reverse]
      ring
    rw [fillTo_eq hidx (Nat.le_add_left _ _) hsmall, putAll_append]
  cases hleft : flags.left <;> cases hzero : flags.zeropad <;>
    simp [outRev, revText, around, hleft, hzero, hbehind, blanks_eq, putAll_append]

theorem ntoaLong_eq {value base : BitVec 64} {negative : Bool} :
    ntoaLong out flags value negative base prec width p =
      putAll out (longText flags value negative base prec width) p :=
  outRev_eq (ntoaChars _ _ negative base prec width).1.fits

theorem charField_eq {c : Byte} :
    charField out flags width c p = putAll out (charText flags width c) p := by
  cases hleft : flags.left <;>
    simp [charField, charText, around, hleft, blanks_eq, putAll_append, putAll]

theorem outString_eq {s : Chars} {precision : UInt} : outString out flags s precision p =
    (stringChars flags s precision).map fun cs => putAll out cs p := by
  induction s generalizing precision p with
  | nil => rfl
  | cons c s ih =>
    rw [outString, stringChars]
    split_ifs
    · rfl
    · rfl
    · rw [ih, Option.map_map]
      rfl
    · rw [ih, Option.map_map]
      rfl

theorem stringField_eq {s : Chars} {precision : UInt} :
    stringField out flags width precision s p =
      (stringText flags width precision s).map fun cs => putAll out cs p := by
  rw [stringField, stringText]
  cases strnlen s (if precision ≠ 0 then precision.setWidth 64 else -1) with
  | none => rfl
  | some len =>
    cases hchars : stringChars flags s precision <;> cases hleft : flags.left <;>
      simp [outString_eq, hchars, around, blanks_eq, putAll_append]

theorem specifier_eq {c : Byte} {d : Directive} :
    specifier out c d p = (specifierText c d).map fun r => (r.1, putAll out r.2 p) := by
  rw [specifier, specifierText]
  simp only [List.contains_iff_mem]
  split_ifs
  · cases d.va with
    | nil => rfl
    | cons a va => cases a <;> simp [ntoaLong_eq]
  · rfl
  · cases d.va with
    | nil => rfl
    | cons a va => cases a <;> simp [charField_eq]
  · cases d.va with
    | nil => rfl
    | cons a va => cases a <;> simp [stringField_eq, Function.comp_def]
  · cases d.va with
    | nil => rfl
    | cons a va => cases a <;> simp [ntoaLong_eq]
  · rfl
  · rfl

/-- The loop hands the text to the output function. -/
theorem directives_eq {format : Chars} {va : List Arg} : directives out n format va p =
    (expand n format va).map fun r => (r.1, putAll out r.2 p) := by
  induction n generalizing format va p with
  | zero => rfl
  | succ n ih =>
    rw [directives, expand]
    cases format[0]? with
    | none => rfl
    | some c =>
      simp only [Option.bind_eq_bind, Option.bind_some]
      split_ifs
      · rfl
      · rw [ih, Option.map_map]
        rfl
      cases fields (format.drop 1) va with
      | none => rfl
      | some d =>
        rw [Option.bind_some, Option.bind_some]
        cases d.format[0]? with
        | none => rfl
        | some c =>
          rw [Option.bind_some, Option.bind_some, specifier_eq]
          cases specifierText c d with
          | none => rfl
          | some r =>
            rw [Option.map_some, Option.bind_some, Option.bind_some, ih, Option.map_map]
            simp [Function.comp_def, putAll_append]

end Output

/-! ## The functions -/

section Functions

variable {σ : Type} {out : OutFct σ} {buffer : ℕ} {maxlen count : SizeT} {format : Chars}
  {va va' : List Arg} {cs ds : List Byte} {s : σ} {m : Mem} {n : ℕ}

/-- The text, and then the terminator. -/
theorem vsnprintf_eq : vsnprintf out buffer maxlen format va s =
    (expansion format va).map fun r =>
      let out := if buffer = 0 then outNull else out
      let p := putAll (fun c idx => out c buffer idx maxlen) r.2 (0, s)
      (BitVec.setWidth 32 p.1, out 0 buffer (if p.1 < maxlen then p.1 else maxlen - 1) maxlen p.2) := by
  rw [vsnprintf, directives_eq]
  cases hexp : expand format.length format va <;> simp [expansion, hexp]

theorem putAll_idx {out : Out σ} : (putAll out cs (0, s)).1 = BitVec.ofNat 64 cs.length :=
  putAll_fst.trans (BitVec.zero_add _)

/-- From index `n` on the buffer takes what is in front of its end. -/
theorem putAll_buffer (hfits : n + cs.length < 2 ^ 64) :
    (putAll (fun c idx => outBuffer c buffer idx count) cs (BitVec.ofNat 64 n, m)).2 =
      blit m (buffer + n) (min cs.length (count.toNat - n)) fun i => cs.getD i 0 := by
  induction cs generalizing n m with
  | nil =>
    rw [List.length_nil, Nat.zero_min, blit_zero]
    rfl
  | cons c cs ih =>
    rw [List.length_cons] at hfits
    have hn : (BitVec.ofNat 64 n).toNat = n := Nat.mod_eq_of_lt (by omega)
    have hnext : BitVec.ofNat 64 n + 1 = BitVec.ofNat 64 (n + 1) := (BitVec.ofNat_add ..).symm
    have hlt : BitVec.ofNat 64 n < count ↔ n < count.toNat := by rw [BitVec.lt_def, hn]
    rw [putAll, put, hnext, ih (by omega), outBuffer, hn, List.length_cons]
    by_cases hroom : n < count.toNat
    · have hlen : min (cs.length + 1) (count.toNat - n)
          = min cs.length (count.toNat - (n + 1)) + 1 := by omega
      rw [if_pos (hlt.mpr hroom), hlen, blit_succ]
      rfl
    · have hzero : count.toNat - n = 0 := by omega
      have hzero' : count.toNat - (n + 1) = 0 := by omega
      rw [if_neg fun h => hroom (hlt.mp h), hzero, hzero', Nat.min_zero, Nat.min_zero, blit_zero,
        blit_zero]

/-- What is in the buffer is cut off in front of its last byte, and terminated. -/
def stored (m : Mem) (buffer : ℕ) (count : SizeT) (cs : List Byte) : Mem :=
  if count = 0 then m
  else blit m buffer (min cs.length (count.toNat - 1) + 1) fun i =>
    (cs.take (count.toNat - 1)).getD i 0

theorem stored_buffer (hfits : cs.length < 2 ^ 64) :
    let idx := BitVec.ofNat 64 cs.length
    outBuffer 0 buffer (if idx < count then idx else count - 1) count
      (putAll (fun c idx => outBuffer c buffer idx count) cs (0, m)).2 = stored m buffer count cs := by
  have hput : (putAll (fun c idx => outBuffer c buffer idx count) cs (0, m)).2 =
      blit m (buffer + 0) (min cs.length (count.toNat - 0)) fun i => cs.getD i 0 :=
    putAll_buffer (by rwa [Nat.zero_add])
  have hidx : (BitVec.ofNat 64 cs.length).toNat = cs.length := Nat.mod_eq_of_lt hfits
  have hlt : BitVec.ofNat 64 cs.length < count ↔ cs.length < count.toNat := by
    rw [BitVec.lt_def, hidx]
  dsimp only
  rw [hput, Nat.add_zero, Nat.sub_zero]
  by_cases hcount : count = 0
  · subst hcount
    have hno (x : SizeT) : ¬ x < 0 := BitVec.not_lt_zero
    have hzero : (0 : SizeT).toNat = 0 := rfl
    rw [stored, if_pos rfl, outBuffer, if_neg (hno _), hzero, Nat.min_zero, blit_zero]
  have hpos : 0 < count.toNat := by
    rw [Nat.pos_iff_ne_zero]
    exact fun h => hcount (BitVec.eq_of_toNat_eq h)
  have hpred : (count - 1).toNat = count.toNat - 1 :=
    BitVec.toNat_sub_of_le (by rw [BitVec.le_def]; exact hpos)
  -- the index of the terminator
  have hlast : (if BitVec.ofNat 64 cs.length < count then BitVec.ofNat 64 cs.length
      else count - 1).toNat = min cs.length (count.toNat - 1) := by
    split_ifs with h
    · rw [hidx]
      have := hlt.mp h
      omega
    · rw [hpred]
      have := mt hlt.mpr h
      omega
  have hfront (i : ℕ) (hi : i < min cs.length (count.toNat - 1)) :
      cs.getD i 0 = (cs.take (count.toNat - 1)).getD i 0 := by
    rw [List.getD_eq_getElem?_getD, List.getD_eq_getElem?_getD, List.getElem?_take_of_lt (by omega)]
  have hend : (cs.take (count.toNat - 1)).getD (min cs.length (count.toNat - 1)) 0 = 0 := by
    rw [List.getD_eq_default]
    rw [List.length_take, Nat.min_comm]
  rw [outBuffer, if_pos (by rw [BitVec.lt_def, hlast]; omega), hlast, stored, if_neg hcount,
    ← update_blit, hend, ← blit_congr hfront]
  rcases lt_or_ge cs.length count.toNat with hshort | hlong
  · rw [Nat.min_eq_left hshort.le, Nat.min_eq_left (by omega : cs.length ≤ count.toNat - 1)]
  · -- the terminator takes the place of the last character
    have hcut : blit m buffer count.toNat (fun i => cs.getD i 0) = _ :=
      (congrArg (fun k => blit m buffer k _) (by omega)).trans
        (update_blit m buffer (count.toNat - 1) fun i => cs.getD i 0).symm
    rw [Nat.min_eq_right hlong, Nat.min_eq_right (by omega : count.toNat - 1 ≤ cs.length), hcut,
      Function.update_idem]

variable (hexp : expansion format va = some (va', cs))

include hexp

theorem snprintf_eq (hfits : cs.length < 2 ^ 64) (hbuffer : buffer ≠ 0) :
    snprintf buffer count format va m =
      some (BitVec.ofNat 32 cs.length, stored m buffer count cs) := by
  rw [snprintf, vsnprintf_eq, hexp, Option.map_some, if_neg hbuffer, ← stored_buffer hfits]
  simp only [putAll_idx]
  rw [BitVec.setWidth_ofNat_of_le (by decide)]

/-- Without a buffer nothing is written. -/
theorem snprintf_null :
    snprintf 0 count format va m = some (BitVec.ofNat 32 cs.length, m) := by
  have hnull (ds : List Byte) (p : SizeT × Mem) :
      (putAll (fun c idx => (outNull : OutFct Mem) c 0 idx count) ds p).2 = p.2 := by
    induction ds generalizing p with
    | nil => rfl
    | cons c ds ih => exact ih _
  rw [snprintf, vsnprintf_eq, hexp, Option.map_some, if_pos rfl]
  simp only [putAll_idx, hnull, outNull]
  rw [BitVec.setWidth_ofNat_of_le (by decide)]

omit hexp in
/-- The characters other than 0, in order. -/
theorem putAll_fct {fct : Byte → σ → σ} {p : SizeT × σ} :
    (putAll (fun c idx => outFct fct c buffer idx maxlen) cs p).2 =
      (cs.filter (· ≠ 0)).foldl (fun s c => fct c s) p.2 := by
  induction cs generalizing p with
  | nil => rfl
  | cons c cs ih =>
    rw [putAll, ih, put, outFct]
    by_cases hc : c = 0
    · rw [if_neg (not_not.mpr hc), List.filter_cons_of_neg (by simpa using hc)]
    · rw [if_pos hc, List.filter_cons_of_pos (by simpa using hc)]
      rfl

theorem fctprintf_eq {fct : Byte → σ → σ} (hbuffer : buffer ≠ 0) :
    fctprintf fct buffer format va s =
      some (BitVec.ofNat 32 cs.length, (cs.filter (· ≠ 0)).foldl (fun s c => fct c s) s) := by
  rw [fctprintf, vsnprintf_eq, hexp, Option.map_some, if_neg hbuffer]
  simp only [putAll_idx, putAll_fct, outFct]
  rw [BitVec.setWidth_ofNat_of_le (by decide)]
  rfl

/-- `_out_char` is `_out_fct` for `_putchar`. -/
theorem printf_eq (hbuffer : buffer ≠ 0) (written : List Byte) : printf buffer format va written =
    some (BitVec.ofNat 32 cs.length, written ++ cs.filter (· ≠ 0)) := by
  have hfct : printf buffer format va written =
      fctprintf (fun c written => written ++ [c]) buffer format va written := rfl
  have happend (ds : List Byte) (written : List Byte) :
      ds.foldl (fun s c => s ++ [c]) written = written ++ ds := by
    induction ds generalizing written with
    | nil => exact (List.append_nil _).symm
    | cons c ds ih => rw [List.foldl_cons, ih, List.append_assoc, List.singleton_append]
  rw [hfct, fctprintf_eq hexp hbuffer, happend]

end Functions

/-! ## Formats behind one another -/

section Reading

/-- The field ends in front of its remainder, of which it has seen no more than one character. -/
def ReadsOn (field : Directive → Option Directive) : Prop :=
  ∀ d d', field d = some d' → ∃ taken, d.format = taken ++ d'.format ∧
    ∀ c rest, d'.format = c :: rest → ∀ g,
      field { d with format := taken ++ c :: g } = some { d' with format := c :: g }

variable {field field' : Directive → Option Directive} {d d' : Directive} {format rest : Chars}
  {taken f g : List Byte} {va va' va'' : List Arg} {cs ds : List Byte} {c : Byte} {n m : ℕ}

theorem ReadsOn.comp (h : ReadsOn field) (h' : ReadsOn field') :
    ReadsOn fun d => (field d).bind field' := by
  intro d d₂ hboth
  obtain ⟨d₁, hfirst, hsecond⟩ := Option.bind_eq_some_iff.mp hboth
  obtain ⟨taken, htaken, hreads⟩ := h d d₁ hfirst
  obtain ⟨taken', htaken', hreads'⟩ := h' d₁ d₂ hsecond
  refine ⟨taken ++ taken', by rw [htaken, htaken', List.append_assoc], fun c rest hrest g => ?_⟩
  have hnext := hreads' c rest hrest g
  rw [hrest] at htaken'
  cases taken' with
  | nil =>
    simp only [List.append_nil, hreads c rest htaken' g, Option.bind_some]
    exact hnext
  | cons x taken' =>
    have hmid := hreads x _ htaken' (taken' ++ c :: g)
    simp only [List.append_assoc, List.cons_append, hmid, Option.bind_some]
    exact hnext

theorem cons_of_head {f : Chars} (h : f[0]? = some c) : ∃ f', f = c :: f' := by
  cases f with
  | nil => cases h
  | cons x f =>
    cases h
    exact ⟨f, rfl⟩

/-- The first character does not depend on what is behind the next one. -/
theorem head_eq (h : c :: rest = taken ++ f) {x : Byte} {f' : List Byte} (hf : f = x :: f') :
    (taken ++ x :: g)[0]? = some c := by
  cases taken with
  | nil =>
    obtain rfl : c = x := (List.cons.inj (h.trans hf)).1
    rfl
  | cons y taken =>
    obtain rfl : c = y := (List.cons.inj h).1
    rfl

theorem atoi_reads {s s' : Chars} {i j : UInt} (h : atoi s i = some (j, s')) :
    ∃ taken, s = taken ++ s' ∧ ∀ c rest, s' = c :: rest → ∀ g,
      atoi (taken ++ c :: g) i = some (j, c :: g) := by
  induction s generalizing i with
  | nil => cases h
  | cons c s ih =>
    by_cases hc : isDigit c = true
    · rw [atoi, if_pos hc] at h
      obtain ⟨taken, rfl, hreads⟩ := ih h
      refine ⟨c :: taken, rfl, fun x rest hrest g => ?_⟩
      rw [List.cons_append, atoi, if_pos hc]
      exact hreads x rest hrest g
    · rw [atoi, if_neg hc] at h
      cases h
      refine ⟨[], rfl, fun x rest hrest g => ?_⟩
      cases hrest
      rw [List.nil_append, atoi, if_neg hc]

theorem flagsField_reads {s s' : Chars} {flags flags' : Flags}
    (h : flagsField s flags = some (flags', s')) :
    ∃ taken, s = taken ++ s' ∧ ∀ c rest, s' = c :: rest → ∀ g,
      flagsField (taken ++ c :: g) flags = some (flags', c :: g) := by
  induction s generalizing flags with
  | nil => cases h
  | cons c s ih =>
    rw [flagsField] at h
    split_ifs at h with h0 h1 h2 h3 h4
    all_goals first
      | (obtain ⟨taken, rfl, hreads⟩ := ih h
         refine ⟨c :: taken, rfl, fun x rest hrest g => ?_⟩
         simp only [List.cons_append, flagsField, *, if_true, if_false]
         exact hreads x rest hrest g)
      | (cases h
         refine ⟨[], rfl, fun x rest hrest g => ?_⟩
         cases hrest
         simp only [List.nil_append, flagsField, *, if_false])

theorem widthField_reads : ReadsOn widthField := by
  rintro ⟨flags, width, precision, format, va⟩ d' h
  cases format with
  | nil => cases h
  | cons c f =>
    simp only [widthField, List.getElem?_cons_zero, Option.bind_eq_bind, Option.bind_some] at h
    split_ifs at h with hdigit hstar
    · obtain ⟨⟨w, s'⟩, hatoi, hd⟩ := Option.bind_eq_some_iff.mp h
      cases hd
      obtain ⟨taken, htaken, hreads⟩ := atoi_reads hatoi
      refine ⟨taken, htaken, fun x rest hrest g => ?_⟩
      simp only [widthField, head_eq htaken hrest, hdigit, hreads x rest hrest g,
        Option.bind_eq_bind, Option.bind_some, if_true]
    · obtain ⟨⟨w, va'⟩, hva, hd⟩ := Option.bind_eq_some_iff.mp h
      cases hd
      refine ⟨[c], rfl, fun x rest hrest g => ?_⟩
      simp only [widthField, List.singleton_append, List.getElem?_cons_zero, Option.bind_eq_bind,
        Option.bind_some, if_neg hdigit, if_pos hstar, hva, List.drop_succ_cons, List.drop_zero]
    · cases h
      refine ⟨[], rfl, fun x rest hrest g => ?_⟩
      cases hrest
      simp only [widthField, List.nil_append, List.getElem?_cons_zero, Option.bind_eq_bind,
        Option.bind_some, if_neg hdigit, if_neg hstar]

theorem precisionField_reads : ReadsOn precisionField := by
  rintro ⟨flags, width, precision, format, va⟩ d' h
  cases format with
  | nil => cases h
  | cons c f =>
    simp only [precisionField, List.getElem?_cons_zero, Option.bind_eq_bind, Option.bind_some,
      List.drop_succ_cons, List.drop_zero] at h
    split_ifs at h with hdot
    · obtain ⟨c', hc', h⟩ := Option.bind_eq_some_iff.mp h
      obtain ⟨f, rfl⟩ := cons_of_head hc'
      split_ifs at h with hdigit hstar
      · obtain ⟨⟨w, s'⟩, hatoi, hd⟩ := Option.bind_eq_some_iff.mp h
        cases hd
        obtain ⟨taken, htaken, hreads⟩ := atoi_reads hatoi
        refine ⟨c :: taken, congrArg (c :: ·) htaken, fun x rest hrest g => ?_⟩
        simp only [precisionField, List.cons_append, List.getElem?_cons_zero, Option.bind_eq_bind,
          Option.bind_some, if_pos hdot, List.drop_succ_cons, List.drop_zero,
          head_eq htaken hrest, hdigit, hreads x rest hrest g, if_true]
      · obtain ⟨⟨w, va'⟩, hva, hd⟩ := Option.bind_eq_some_iff.mp h
        cases hd
        refine ⟨[c, c'], rfl, fun x rest hrest g => ?_⟩
        simp only [precisionField, List.cons_append, List.getElem?_cons_zero, Option.bind_eq_bind,
          Option.bind_some, if_pos hdot, List.drop_succ_cons, List.drop_zero, if_neg hdigit,
          if_pos hstar, hva, List.nil_append]
      · cases h
        refine ⟨[c], rfl, fun x rest hrest g => ?_⟩
        cases hrest
        simp only [precisionField, List.cons_append, List.getElem?_cons_zero, Option.bind_eq_bind,
          Option.bind_some, if_pos hdot, List.drop_succ_cons, List.drop_zero, if_neg hdigit,
          if_neg hstar, List.nil_append]
    · cases h
      refine ⟨[], rfl, fun x rest hrest g => ?_⟩
      cases hrest
      simp only [precisionField, List.nil_append, List.getElem?_cons_zero, Option.bind_eq_bind,
        Option.bind_some, if_neg hdot]

theorem lengthField_reads : ReadsOn lengthField := by
  rintro ⟨flags, width, precision, format, va⟩ d' h
  cases format with
  | nil => cases h
  | cons c f =>
    simp only [lengthField, List.getElem?_cons_zero, Option.bind_eq_bind, Option.bind_some,
      List.drop_succ_cons, List.drop_zero] at h
    split_ifs at h with hl hh htjz
    · obtain ⟨c', hc', h⟩ := Option.bind_eq_some_iff.mp h
      obtain ⟨f, rfl⟩ := cons_of_head hc'
      split_ifs at h with htwice <;> cases h
      · refine ⟨[c, c'], rfl, fun x rest hrest g => ?_⟩
        simp only [lengthField, List.cons_append, List.getElem?_cons_zero, Option.bind_eq_bind,
          Option.bind_some, if_pos hl, List.drop_succ_cons, List.drop_zero, if_pos htwice,
          List.nil_append]
      · refine ⟨[c], rfl, fun x rest hrest g => ?_⟩
        cases hrest
        simp only [lengthField, List.cons_append, List.getElem?_cons_zero, Option.bind_eq_bind,
          Option.bind_some, if_pos hl, List.drop_succ_cons, List.drop_zero, if_neg htwice,
          List.nil_append]
    · obtain ⟨c', hc', h⟩ := Option.bind_eq_some_iff.mp h
      obtain ⟨f, rfl⟩ := cons_of_head hc'
      split_ifs at h with htwice <;> cases h
      · refine ⟨[c, c'], rfl, fun x rest hrest g => ?_⟩
        simp only [lengthField, List.cons_append, List.getElem?_cons_zero, Option.bind_eq_bind,
          Option.bind_some, if_neg hl, if_pos hh, List.drop_succ_cons, List.drop_zero,
          if_pos htwice, List.nil_append]
      · refine ⟨[c], rfl, fun x rest hrest g => ?_⟩
        cases hrest
        simp only [lengthField, List.cons_append, List.getElem?_cons_zero, Option.bind_eq_bind,
          Option.bind_some, if_neg hl, if_pos hh, List.drop_succ_cons, List.drop_zero,
          if_neg htwice, List.nil_append]
    · cases h
      refine ⟨[c], rfl, fun x rest hrest g => ?_⟩
      simp only [lengthField, List.cons_append, List.getElem?_cons_zero, Option.bind_eq_bind,
        Option.bind_some, if_neg hl, if_neg hh, if_pos htjz, List.drop_succ_cons, List.drop_zero,
        List.nil_append]
    · cases h
      refine ⟨[], rfl, fun x rest hrest g => ?_⟩
      cases hrest
      simp only [lengthField, List.nil_append, List.getElem?_cons_zero, Option.bind_eq_bind,
        Option.bind_some, if_neg hl, if_neg hh, if_neg htjz]

theorem fields_reads (h : fields format va = some d) : ∃ taken, format = taken ++ d.format ∧
    ∀ c rest, d.format = c :: rest → ∀ g,
      fields (taken ++ c :: g) va = some { d with format := c :: g } := by
  obtain ⟨⟨flags, s⟩, hflags, hrest⟩ := Option.bind_eq_some_iff.mp h
  obtain ⟨taken, rfl, hreads⟩ := flagsField_reads hflags
  have hothers := (widthField_reads.comp precisionField_reads).comp lengthField_reads
  have hboth : ((widthField { flags := flags, format := s, va := va }).bind precisionField).bind
      lengthField = some d := by
    rw [Option.bind_assoc]
    exact hrest
  obtain ⟨taken', htaken', hreads'⟩ := hothers _ _ hboth
  refine ⟨taken ++ taken', by rw [List.append_assoc, ← htaken'], fun c rest hd g => ?_⟩
  have hnext := hreads' c rest hd g
  dsimp only at hnext
  rw [Option.bind_assoc] at hnext
  have hfirst : flagsField (taken ++ taken' ++ c :: g) {} = some (flags, taken' ++ c :: g) := by
    rw [List.append_assoc]
    change s = taken' ++ d.format at htaken'
    rw [hd] at htaken'
    cases taken' with
    | nil => exact hreads c rest htaken' g
    | cons x taken' => exact hreads x _ htaken' (taken' ++ c :: g)
  rw [fields, hfirst]
  exact hnext

/-! ## Enough iterations -/

/-- What is left behind a directive is shorter than its format. -/
theorem fields_shorter (h : fields format va = some d) : d.format.length ≤ format.length := by
  obtain ⟨taken, rfl, -⟩ := fields_reads h
  rw [List.length_append]
  exact Nat.le_add_left _ _

theorem expand_fuel (hn : format.length ≤ n) (hm : format.length ≤ m) :
    expand n format va = expand m format va := by
  induction n generalizing m format va with
  | zero =>
    obtain rfl := List.length_eq_zero_iff.mp (Nat.le_zero.mp hn)
    cases m <;> rfl
  | succ n ih =>
    cases format with
    | nil => cases m <;> rfl
    | cons c format =>
      rw [List.length_cons] at hn hm
      obtain ⟨m, rfl⟩ : ∃ k, m = k + 1 := Nat.exists_eq_add_of_le' (by omega)
      have hnext {s : Chars} (hs : s.length ≤ format.length) (va : List Arg) :
          expand n s va = expand m s va := ih (by omega) (by omega)
      simp only [expand, List.getElem?_cons_zero, Option.bind_eq_bind, Option.bind_some,
        List.drop_succ_cons, List.drop_zero, hnext le_rfl]
      cases hd : fields format va with
      | none => rfl
      | some d =>
        have hdrop : (d.format.drop 1).length ≤ format.length := by
          have := fields_shorter hd
          rw [List.length_drop]
          omega
        simp only [Option.bind_some, hnext hdrop]

theorem expansion_char {s : Chars} (h0 : c ≠ 0) (hc : c ≠ chr '%') :
    expansion (c :: s) va = (expansion s va).map fun r => (r.1, c :: r.2) := by
  rw [expansion, List.length_cons, expand]
  simp only [List.getElem?_cons_zero, Option.bind_eq_bind, Option.bind_some, if_neg h0, if_pos hc,
    List.drop_succ_cons, List.drop_zero]
  rfl

theorem expansion_directive {s : Chars} : expansion (chr '%' :: s) va =
    (fields s va).bind fun d => d.format[0]?.bind fun c => (specifierText c d).bind fun r =>
      (expansion (d.format.drop 1) r.1).map fun r' => (r'.1, r.2 ++ r'.2) := by
  have h0 : chr '%' ≠ 0 := by decide
  rw [expansion, List.length_cons, expand]
  simp only [List.getElem?_cons_zero, Option.bind_eq_bind, Option.bind_some, if_neg h0, ne_eq,
    not_true_eq_false, if_false, List.drop_succ_cons, List.drop_zero]
  cases hd : fields s va with
  | none => rfl
  | some d =>
    have hdrop : (d.format.drop 1).length ≤ s.length := by
      have := fields_shorter hd
      rw [List.length_drop]
      omega
    have hfuel (va : List Arg) : expand s.length (d.format.drop 1) va =
        expansion (d.format.drop 1) va := expand_fuel hdrop le_rfl
    simp only [Option.bind_some, hfuel]

/-! ## The text of two formats -/

/-- A string that is a format of its own may stand in front of any other format. -/
theorem expansion_append (hf : 0 ∉ f) (hexp : expansion (f ++ [0]) va = some (va', cs)) :
    expansion (f ++ g) va = (expansion g va').map fun r => (r.1, cs ++ r.2) := by
  induction hlen : f.length using Nat.strong_induction_on generalizing f va cs with
  | _ n ih =>
    subst hlen
    cases f with
    | nil =>
      obtain ⟨rfl, rfl⟩ : va = va' ∧ [] = cs := Prod.mk.inj (Option.some.inj hexp)
      exact Option.map_id'.symm
    | cons c f =>
      have h0 : c ≠ 0 := fun h => hf (h ▸ List.mem_cons_self)
      have hf' : 0 ∉ f := fun h => hf (List.mem_cons_of_mem _ h)
      by_cases hc : c = chr '%'
      swap
      · rw [List.cons_append, expansion_char h0 hc] at hexp
        obtain ⟨⟨va₁, ds⟩, hds, heq⟩ := Option.map_eq_some_iff.mp hexp
        obtain ⟨rfl, rfl⟩ : va₁ = va' ∧ c :: ds = cs := Prod.mk.inj heq
        rw [List.cons_append, expansion_char h0 hc, ih f.length (Nat.lt_succ_self _) hf' hds rfl,
          Option.map_map]
        rfl
      subst hc
      rw [List.cons_append, expansion_directive] at hexp
      obtain ⟨d, hd, hexp⟩ := Option.bind_eq_some_iff.mp hexp
      obtain ⟨c, hc, hexp⟩ := Option.bind_eq_some_iff.mp hexp
      obtain ⟨⟨va₁, ds⟩, hds, hexp⟩ := Option.bind_eq_some_iff.mp hexp
      obtain ⟨⟨va₂, es⟩, hes, heq⟩ := Option.map_eq_some_iff.mp hexp
      obtain ⟨rfl, rfl⟩ : va₂ = va' ∧ ds ++ es = cs := Prod.mk.inj heq
      obtain ⟨rest, hrest⟩ := cons_of_head hc
      obtain ⟨taken, htaken, hreads⟩ := fields_reads hd
      rw [hrest] at htaken
      rw [hrest, List.drop_succ_cons, List.drop_zero] at hes
      -- the specifier is not the terminator, behind which there is nothing
      obtain ⟨f', rfl, rfl⟩ : ∃ f', f = taken ++ c :: f' ∧ rest = f' ++ [0] := by
        rcases List.eq_nil_or_concat rest with rfl | ⟨f', x, rfl⟩
        · cases hes
        · rw [List.concat_eq_append] at htaken ⊢
          have hlast : f ++ [0] = (taken ++ c :: f') ++ [x] := by simpa using htaken
          obtain ⟨rfl, hx⟩ := List.append_inj' hlast rfl
          exact ⟨f', rfl, by rw [← (List.cons.inj hx).1]⟩
      have hf'' : 0 ∉ f' := fun h =>
        hf' (List.mem_append_right _ (List.mem_cons_of_mem _ h))
      have hshort : f'.length < (chr '%' :: (taken ++ c :: f')).length := by
        simp only [List.length_cons, List.length_append]
        omega
      have hfields := hreads c _ hrest (f' ++ g)
      have hspec : specifierText c { d with format := c :: (f' ++ g) } = some (va₁, ds) := hds
      rw [List.cons_append, List.append_assoc, List.cons_append, expansion_directive, hfields]
      simp only [Option.bind_some, List.getElem?_cons_zero, hspec, List.drop_succ_cons,
        List.drop_zero]
      rw [ih f'.length hshort hf'' hes rfl, Option.map_map]
      simp only [Function.comp_def, List.append_assoc]

end Reading

/-! ## What is printed -/

/-- The functions write this text. -/
structure Prints (format : Chars) (va : List Arg) (cs : List Byte) : Prop where
  null (count : SizeT) (m : Mem) :
    snprintf 0 count format va m = some (BitVec.ofNat 32 cs.length, m)
  buffer (buffer : ℕ) (count : SizeT) (m : Mem) : buffer ≠ 0 →
    snprintf buffer count format va m =
      some (BitVec.ofNat 32 cs.length, stored m buffer count cs)
  whole (buffer : ℕ) (m : Mem) : buffer ≠ 0 → cs.length < 2 ^ 64 - 1 →
    sprintf buffer format va m = some (BitVec.ofNat 32 cs.length,
      blit m buffer (cs.length + 1) fun i => cs.getD i 0)
  console (buffer : ℕ) (written : List Byte) : buffer ≠ 0 →
    printf buffer format va written =
      some (BitVec.ofNat 32 cs.length, written ++ cs.filter (· ≠ 0))
  fct (σ : Type) (f : Byte → σ → σ) (wrap : ℕ) (s : σ) : wrap ≠ 0 →
    fctprintf f wrap format va s =
      some (BitVec.ofNat 32 cs.length, (cs.filter (· ≠ 0)).foldl (fun s c => f c s) s)

/-- All functions write the text that the format expands to. -/
theorem prints_expansion {format : Chars} {va va' : List Arg} {cs : List Byte}
    (hexp : expansion format va = some (va', cs)) (hfits : cs.length < 2 ^ 64) :
    Prints format va cs where
  null _ _ := snprintf_null hexp
  buffer _ _ _ hbuffer := snprintf_eq hexp hfits hbuffer
  whole buffer m hbuffer hshort := by
    have hcount : (-1 : SizeT).toNat - 1 = 2 ^ 64 - 2 := rfl
    have hne : (-1 : SizeT) ≠ 0 := by decide
    have hstored : stored m buffer (-1) cs =
        blit m buffer (cs.length + 1) fun i => cs.getD i 0 := by
      rw [stored, if_neg hne, hcount, Nat.min_eq_left (by omega), List.take_of_length_le (by omega)]
    exact hstored ▸ snprintf_eq hexp hfits hbuffer
  console _ written hbuffer := printf_eq hexp hbuffer written
  fct _ _ _ _ hwrap := fctprintf_eq hexp hwrap

open CommandLine in
theorem prints_expansion_number :
    Prints (literal "%5d|%-4s|%c") [.word 42, .str (literal "ab"), .word 0x2a]
      (ascii "   42|ab  |*") :=
  prints_expansion (by decide +kernel : expansion _ _ = some ([], _)) (by decide)

/-- What is printed for two formats behind one another, of which the first is closed. -/
theorem prints_append {f g : List Byte} {va va' va'' : List Arg} {cs ds : List Byte} (hf : 0 ∉ f)
    (hexp : expansion (f ++ [0]) va = some (va', cs)) (hexp' : expansion g va' = some (va'', ds))
    (hfits : (cs ++ ds).length < 2 ^ 64) : Prints (f ++ g) va (cs ++ ds) := by
  have hboth : expansion (f ++ g) va = some (va'', cs ++ ds) := by
    rw [expansion_append hf hexp, hexp']
    rfl
  exact prints_expansion hboth hfits

open CommandLine in
theorem prints_append_number : Prints (ascii "%d, " ++ literal "%x") [.word 42, .word 0x2a]
    (ascii "42, " ++ ascii "2a") :=
  prints_append (by decide) (by decide +kernel : expansion _ _ = some ([.word 0x2a], _))
    (by decide +kernel : expansion _ _ = some ([], _)) (by decide)

end Printf
