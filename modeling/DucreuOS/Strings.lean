import DucreuOS.Library.ByteMemory
import DucreuOS.Library.Words

/-! # Strings

The functions of `utils.c` on strings. A `char *` is the list of the bytes from there to the end of
its array; what reads or writes behind the end has no result. The functions with two letters `s`
take a space for the end of a string, too. -/
namespace Strings

open ByteMemory Words

abbrev Chars := List Byte

/-- `' '` -/
def space : Byte := 0x20

def isSpace (c : Byte) : Bool := c = space

/-- `*a == '\0'` -/
def isNul (c : Byte) : Bool := c = 0

/-- `*a == '\0' || *a == ' '` -/
def isEnd (c : Byte) : Bool := c = 0 || c = space

section Source

variable (stop : Byte → Bool)

def lengthTo : Chars → Option ℕ
  | [] => none
  | c :: a => if stop c then some 0 else (lengthTo a).map (1 + ·)

/-- The array of `dest` after the call. -/
def copyTo : (dest src : Chars) → Option Chars
  | _ :: dest, c :: src => if stop c then some (0 :: dest) else (copyTo dest src).map (c :: ·)
  | _, _ => none

/-- `*a - *b`; a `char` is unsigned. -/
def minus (c d : Byte) : ℤ := c.toNat - d.toNat

def compareTo : (a b : Chars) → Option ℤ
  | c :: a, d :: b =>
    if stop c && stop d then some 0
    else if minus c d ≠ 0 then some (minus c d)
    else compareTo a b
  | _, _ => none

end Source

def mstrlen (a : Chars) : Option ℕ := lengthTo isNul a
def msstrlen (a : Chars) : Option ℕ := lengthTo isEnd a
def mstrcpy (dest src : Chars) : Option Chars := copyTo isNul dest src
def msstrcpy (dest src : Chars) : Option Chars := copyTo isEnd dest src
def mstrcmp (a b : Chars) : Option ℤ := compareTo isNul a b
def msstrcmp (a b : Chars) : Option ℤ := compareTo isEnd a b

def samestr (a b : Chars) : Option Bool := (mstrcmp a b).map (· = 0)
def samecmd (cmd ref : Chars) : Option Bool := (msstrcmp cmd ref).map (· = 0)

/-- The array at `a` begins with the string `s` and its terminator. -/
structure IsString (a : Chars) (s : List Byte) : Prop where
  no_nul : 0 ∉ s
  stored : ∃ t, a = s ++ 0 :: t

theorem isString_append {s : List Byte} (h : 0 ∉ s) (t : Chars) : IsString (s ++ 0 :: t) s :=
  ⟨h, t, rfl⟩

/-! ## Up to a byte that stops -/

/-- The array begins with `w`, and the byte behind it is the first one that stops. -/
structure Ends (stop : Byte → Bool) (a : Chars) (w : List Byte) : Prop where
  letters : ∀ c ∈ w, stop c = false
  stored : ∃ e t, stop e = true ∧ a = w ++ e :: t

section Ends

variable {stop : Byte → Bool} {a b dest src : Chars} {s w v : List Byte} {c d : Byte}

theorem Ends.cases (h : Ends stop a w) : (∃ e t, stop e = true ∧ a = e :: t ∧ w = []) ∨
    ∃ c a' w', stop c = false ∧ a = c :: a' ∧ w = c :: w' ∧ Ends stop a' w' := by
  obtain ⟨hletters, e, t, he, rfl⟩ := h
  cases w with
  | nil => exact Or.inl ⟨e, t, he, rfl, rfl⟩
  | cons c w =>
    rw [List.forall_mem_cons] at hletters
    exact Or.inr ⟨c, w ++ e :: t, w, hletters.1, rfl, rfl, hletters.2, e, t, he, rfl⟩

theorem minus_eq_zero : minus c d = 0 ↔ c = d := by
  rw [minus, sub_eq_zero, Nat.cast_inj, BitVec.toNat_inj]

theorem lengthTo_eq (h : Ends stop a w) : lengthTo stop a = some w.length := by
  induction w generalizing a with
  | nil =>
    rcases h.cases with ⟨e, t, he, rfl, -⟩ | ⟨c, a', w', -, -, hw, -⟩
    · rw [lengthTo, if_pos he, List.length_nil]
    · cases hw
  | cons c w ih =>
    rcases h.cases with ⟨e, t, -, -, hw⟩ | ⟨c, a', w', hc, rfl, hw, h'⟩
    · cases hw
    · cases hw
      rw [lengthTo, hc, if_neg Bool.false_ne_true, ih h', Option.map_some, List.length_cons,
        Nat.add_comm]

/-- A copy needs room for the terminator. -/
theorem copyTo_eq (h : Ends stop src w) (hroom : w.length < dest.length) :
    copyTo stop dest src = some (w ++ 0 :: dest.drop (w.length + 1)) := by
  induction w generalizing dest src with
  | nil =>
    obtain ⟨d, dest, rfl⟩ := List.exists_cons_of_length_pos hroom
    rcases h.cases with ⟨e, t, he, rfl, -⟩ | ⟨c, a', w', -, -, hw, -⟩
    · rw [copyTo, if_pos he]
      rfl
    · cases hw
  | cons c w ih =>
    obtain ⟨d, dest, rfl⟩ := List.exists_cons_of_length_pos (Nat.zero_lt_of_lt hroom)
    rcases h.cases with ⟨e, t, -, -, hw⟩ | ⟨c, a', w', hc, rfl, hw, h'⟩
    · cases hw
    · cases hw
      rw [copyTo, hc, if_neg Bool.false_ne_true, ih h' (Nat.lt_of_succ_lt_succ hroom)]
      rfl

theorem compareTo_zero (ha : Ends stop a w) (hb : Ends stop b v) :
    ∃ r, compareTo stop a b = some r ∧ (r = 0 ↔ w = v) := by
  induction w generalizing a b v with
  | nil =>
    rcases ha.cases with ⟨c, a', hc, rfl, -⟩ | ⟨c, a', w', -, -, hw, -⟩
    · rcases hb.cases with ⟨d, b', hd, rfl, rfl⟩ | ⟨d, b', v', hd, rfl, rfl, -⟩
      · refine ⟨0, ?_, iff_of_true rfl rfl⟩
        rw [compareTo, hc, hd, Bool.and_self, if_pos rfl]
      · have hne : minus c d ≠ 0 := fun h => by
          rw [minus_eq_zero.1 h, hd] at hc
          cases hc
        refine ⟨minus c d, ?_, iff_of_false hne (List.cons_ne_nil _ _).symm⟩
        rw [compareTo, hd, Bool.and_false, if_neg Bool.false_ne_true, if_pos hne]
    · cases hw
  | cons c w ih =>
    rcases ha.cases with ⟨e, a', -, -, hw⟩ | ⟨c, a', w', hc, rfl, hw, ha'⟩
    · cases hw
    · cases hw
      rcases hb.cases with ⟨d, b', hd, rfl, rfl⟩ | ⟨d, b', v', hd, rfl, rfl, hb'⟩
      · have hne : minus c d ≠ 0 := fun h => by
          rw [minus_eq_zero.1 h, hd] at hc
          cases hc
        refine ⟨minus c d, ?_, iff_of_false hne (List.cons_ne_nil _ _)⟩
        rw [compareTo, hc, Bool.false_and, if_neg Bool.false_ne_true, if_pos hne]
      · rw [compareTo, hc, Bool.false_and, if_neg Bool.false_ne_true]
        by_cases hcd : c = d
        · obtain ⟨r, hr, hiff⟩ := ih ha' hb'
          refine ⟨r, ?_, by rw [hiff, hcd, List.cons.injEq, and_iff_right rfl]⟩
          rw [if_neg (not_not.2 (minus_eq_zero.2 hcd)), hr]
        · have hne : minus c d ≠ 0 := fun h => hcd (minus_eq_zero.1 h)
          exact ⟨minus c d, if_pos hne, iff_of_false hne fun h => hcd (List.cons.inj h).1⟩

end Ends

/-! ## Strings and their first words -/

section Strings

variable {a b dest src : Chars} {s t : List Byte} {c : Byte}

theorem isSpace_iff : isSpace c = true ↔ c = space := decide_eq_true_iff

theorem IsString.ends (h : IsString a s) : Ends isNul a s := by
  obtain ⟨hnul, t, rfl⟩ := h
  exact ⟨fun c hc => decide_eq_false fun h0 => hnul (h0 ▸ hc), 0, t, rfl, rfl⟩

/-- A loop that stops at the terminator stops inside the array. -/
theorem IsString.upTo {stop : Byte → Bool} (h : IsString a s) (hstop : stop 0 = true) :
    Ends stop a (front stop s) := by
  obtain ⟨hnul, t, rfl⟩ := h
  refine ⟨fun c hc => not_separator hc, ?_⟩
  cases hrest : behind stop s with
  | nil =>
    have hs : front stop s = s := by
      have happend := front_append_behind stop s
      rwa [hrest, List.append_nil] at happend
    exact ⟨0, t, hstop, by rw [hs]⟩
  | cons e u =>
    refine ⟨e, u ++ 0 :: t, head_behind hrest, ?_⟩
    conv_lhs => rw [← front_append_behind stop s, hrest, List.append_assoc]
    rfl

/-- What `isEnd` stops at is a space or the terminator. -/
theorem IsString.word (h : IsString a s) : Ends isEnd a (front isSpace s) := by
  have hfront : front isEnd s = front isSpace s := front_congr fun c hc => by
    have hc0 : c ≠ 0 := fun h0 => h.no_nul (h0 ▸ hc)
    rw [isEnd, isSpace, decide_eq_false hc0, Bool.false_or]
  exact hfront ▸ h.upTo rfl

theorem mstrlen_eq (h : IsString a s) : mstrlen a = some s.length := lengthTo_eq h.ends

theorem msstrlen_eq (h : IsString a s) : msstrlen a = some (front isSpace s).length :=
  lengthTo_eq h.word

theorem mstrcpy_eq (h : IsString src s) (hroom : s.length < dest.length) :
    mstrcpy dest src = some (s ++ 0 :: dest.drop (s.length + 1)) := copyTo_eq h.ends hroom

theorem msstrcpy_eq (h : IsString src s) (hroom : (front isSpace s).length < dest.length) :
    msstrcpy dest src =
      some (front isSpace s ++ 0 :: dest.drop ((front isSpace s).length + 1)) :=
  copyTo_eq h.word hroom

theorem samestr_eq (ha : IsString a s) (hb : IsString b t) : samestr a b = some (decide (s = t)) := by
  obtain ⟨r, hr, hiff⟩ := compareTo_zero ha.ends hb.ends
  rw [samestr, mstrcmp, hr, Option.map_some, decide_eq_decide.2 hiff]

/-- Two commands are the same up to their first spaces. -/
theorem samecmd_eq (ha : IsString a s) (hb : IsString b t) :
    samecmd a b = some (decide (front isSpace s = front isSpace t)) := by
  obtain ⟨r, hr, hiff⟩ := compareTo_zero ha.word hb.word
  rw [samecmd, msstrcmp, hr, Option.map_some, decide_eq_decide.2 hiff]

end Strings

end Strings
