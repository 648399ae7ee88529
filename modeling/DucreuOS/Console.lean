import DucreuOS.Library.Transition
import DucreuOS.Strings

/-! # The line of the console

`console` polls the UART and edits a line in an array of 80 bytes, which it passes to
`execute_command`. What is printed is not modelled, except that a format must not ask for arguments
that are not there. -/
namespace Console

open ByteMemory Strings Transition

def COMMAND_MAX_LEN : ℕ := 80

/-- The `sbi_getchar` that is next: in front of each key, or one of those behind an escape. -/
inductive Reading
  | c
  | c1
  | c2 (c1 : Byte)

structure ConsoleState where
  command : Chars
  prevCommand : Chars
  index : ℤ
  reading : Reading
  /-- the arrays that have been passed to `execute_command` -/
  executed : List Chars

/-- `a[i] = c;` -/
def store (a : Chars) (i : ℤ) (c : Byte) : Option Chars :=
  if 0 ≤ i ∧ i < a.length then some (a.set i.toNat c) else none

/-- The format asks for no argument: behind a `%` comes another one. -/
def plainFormat : (percent : Bool) → Chars → Bool
  | _, [] => false
  | true, c :: a => c = 0x25 && plainFormat false a
  | false, c :: a => c = 0 || plainFormat (c = 0x25) a

def printf (format : Chars) : Option Unit := if plainFormat false format then some () else none

section Source

variable (s : ConsoleState)

/-- `'\r'` -/
def enter : Option ConsoleState := do
  let command ← store s.command s.index 0
  let prev_command ← mstrcpy s.prevCommand command
  some { s with
    command := command, prevCommand := prev_command, index := 0,
    executed := s.executed ++ [command] }

/-- `'\b'` and 127 -/
def erase : Option ConsoleState :=
  if 0 < s.index then do
    let command ← store s.command s.index 0
    some { s with command := command, index := s.index - 1 }
  else some s

/-- The key up. The loop that counts `index` down to 0 does not end below 0. -/
def recallPrevious : Option ConsoleState :=
  if s.index < 0 then none
  else do
    let command ← mstrcpy s.command s.prevCommand
    let index ← mstrlen command
    printf command
    some { s with command := command, index := index }

def append (c : Byte) : Option ConsoleState := do
  let command ← store s.command s.index c
  some { s with command := command, index := s.index + 1 }

/-- What the loop does with the next result of `sbi_getchar`, which is 0xff if there is nothing. -/
def step (c : Byte) : Option ConsoleState :=
  match s.reading with
  | .c =>
    if c = 0xff then some s
    else if c = 0x0d then enter s
    else if c = 0x08 ∨ c = 0x7f then erase s
    else if c = 0x1b then some { s with reading := .c1 }
    else append s c
  | .c1 => some { s with reading := .c2 c }
  | .c2 c1 =>
    if c1 = 0x5b ∧ c = 0x41 then recallPrevious { s with reading := .c }
    else some { s with reading := .c }

end Source

/-- In front of the loop, with two arrays that are not initialised. -/
def start (command prev_command : Chars) : ConsoleState :=
  ⟨command, prev_command.set 0 0, 0, .c, []⟩

/-! ## The keys -/

/-- A byte that stands for itself. -/
def IsLetter (c : Byte) : Prop := c ∉ ([0x00, 0x08, 0x0d, 0x1b, 0x7f, 0xff] : List Byte)

instance (c : Byte) : Decidable (IsLetter c) := inferInstanceAs (Decidable (_ ∉ _))

inductive Key
  | letter (c : {c : Byte // IsLetter c})
  | backspace
  | delete
  | enter
  | up
  | down
  | right
  | left

/-- A key, with the numbers of polls that find nothing in front of it, behind its escape and
behind its bracket. -/
structure Press where
  key : Key
  wait : ℕ
  gap : ℕ
  gap' : ℕ

def nothing (n : ℕ) : List Byte := List.replicate n 0xff

def Press.arrow (p : Press) (c : Byte) : List Byte :=
  0x1b :: nothing p.gap ++ 0x5b :: nothing p.gap' ++ [c]

/-- What `sbi_getchar` returns. -/
def Press.polls (p : Press) : List Byte :=
  nothing p.wait ++
    match p.key with
    | .letter c => [c.val]
    | .backspace => [0x08]
    | .delete => [0x7f]
    | .enter => [0x0d]
    | .up => p.arrow 0x41
    | .down => p.arrow 0x42
    | .right => p.arrow 0x43
    | .left => p.arrow 0x44

/-- A line of any length, the line before, and the lines that have been executed. -/
structure Line where
  current : List Byte
  previous : List Byte
  executed : List (List Byte)

def Line.edit (l : Line) : Key → Line
  | .letter c => { l with current := l.current ++ [c.val] }
  | .backspace | .delete => { l with current := l.current.dropLast }
  | .enter => ⟨[], l.current, l.executed ++ [l.current]⟩
  | .up => { l with current := l.previous }
  | .down | .right | .left => l

def Line.edits (l : Line) (presses : List Press) : Line :=
  presses.foldl (fun l p => l.edit p.key) l

/-- There is room for the letter; the bytes of an arrow key come together; the line that comes back
is a format without arguments. -/
def Line.Permits (l : Line) (p : Press) : Prop :=
  match p.key with
  | .letter _ => l.current.length + 1 < COMMAND_MAX_LEN
  | .up => p.gap = 0 ∧ p.gap' = 0 ∧ plainFormat false (l.previous ++ [0]) = true
  | .down | .right | .left => p.gap = 0 ∧ p.gap' = 0
  | .backspace | .delete | .enter => True

def Line.Meets : Line → List Press → Prop
  | _, [] => True
  | l, p :: presses => l.Permits p ∧ (l.edit p.key).Meets presses

instance (l : Line) : (p : Press) → Decidable (l.Permits p)
  | ⟨.letter _, _, _, _⟩ => inferInstanceAs (Decidable (_ < _))
  | ⟨.up, _, _, _⟩ => inferInstanceAs (Decidable (_ ∧ _ ∧ _))
  | ⟨.down, _, _, _⟩ | ⟨.right, _, _, _⟩ | ⟨.left, _, _, _⟩ => inferInstanceAs (Decidable (_ ∧ _))
  | ⟨.backspace, _, _, _⟩ | ⟨.delete, _, _, _⟩ | ⟨.enter, _, _, _⟩ =>
    inferInstanceAs (Decidable True)

instance decidableMeets : (l : Line) → (presses : List Press) → Decidable (l.Meets presses)
  | _, [] => inferInstanceAs (Decidable True)
  | l, p :: presses =>
    have := decidableMeets (l.edit p.key) presses
    inferInstanceAs (Decidable (_ ∧ _))

def InBounds (s : ConsoleState) : Prop := 0 ≤ s.index ∧ s.index < COMMAND_MAX_LEN

/-- All states of the run are in bounds, no store is outside of an array, and the lines that are
executed are those of the edits. -/
def Edits (command prev_command : Chars) (presses : List Press) : Prop :=
  ∃ s, Runs step InBounds (start command prev_command) (presses.flatMap Press.polls) s ∧
    List.Forall₂ IsString s.executed (Line.edits ⟨[], [], []⟩ presses).executed

variable {s t : ConsoleState} {l : Line} {p : Press} {a rest command prev_command : Chars}
  {w v : List Byte} {c r : Byte} {percent : Bool} {presses : List Press}

/-! ## Arrays -/

/-- A store behind the string `w`. -/
theorem store_behind (c : Byte) :
    store (w ++ r :: rest) w.length c = some (w ++ c :: rest) := by
  have hlt : (0 : ℤ) ≤ (w.length : ℤ) ∧ (w.length : ℤ) < ((w ++ r :: rest).length : ℕ) := by
    rw [List.length_append, List.length_cons]
    omega
  rw [store, if_pos hlt, Int.toNat_natCast, List.set_append_right _ _ le_rfl, Nat.sub_self]
  rfl

/-- Nothing is read behind the terminator. -/
theorem plainFormat_string (h : 0 ∉ w) :
    plainFormat percent (w ++ 0 :: rest) = plainFormat percent (w ++ [0]) := by
  induction w generalizing percent with
  | nil => cases percent <;> rfl
  | cons c w ih =>
    have hw : 0 ∉ w := fun h0 => h (.tail _ h0)
    cases percent with
    | true =>
      rw [List.cons_append, List.cons_append, plainFormat, plainFormat, ih hw]
    | false =>
      rw [List.cons_append, List.cons_append, plainFormat, plainFormat, ih hw]

/-! ## The line in the array -/

/-- The state in front of a key has the line `l`. -/
structure Holds (s : ConsoleState) (l : Line) : Prop where
  reading : s.reading = .c
  index : s.index = l.current.length
  no_nul : 0 ∉ l.current
  command : ∃ r rest, s.command = l.current ++ r :: rest
  command_length : s.command.length = COMMAND_MAX_LEN
  previous : IsString s.prevCommand l.previous
  previous_length : s.prevCommand.length = COMMAND_MAX_LEN
  executed : List.Forall₂ IsString s.executed l.executed

theorem Holds.fits (h : Holds s l) : l.current.length < COMMAND_MAX_LEN := by
  obtain ⟨r, rest, hcommand⟩ := h.command
  have hlen := h.command_length
  rw [hcommand, List.length_append, List.length_cons] at hlen
  omega

theorem Holds.inBounds (h : Holds s l) : InBounds s := by
  have hfits := h.fits
  rw [InBounds, h.index]
  omega

/-- A store of another byte keeps the length. -/
theorem length_stored (c : Byte) (h : (w ++ r :: rest).length = COMMAND_MAX_LEN) :
    (w ++ c :: rest).length = COMMAND_MAX_LEN := by
  rwa [List.length_append, List.length_cons] at h ⊢

theorem step_nothing (h : Holds s l) : step s 0xff = some s := by
  rw [step, h.reading]
  rfl

/-- A string that is copied to an array of its own size or a larger one. -/
theorem length_copied (h : w.length < a.length) :
    (w ++ 0 :: a.drop (w.length + 1)).length = a.length := by
  rw [List.length_append, List.length_cons, List.length_drop]
  omega

theorem enter_holds (h : Holds s l) :
    ∃ t, step s 0x0d = some t ∧ Holds t (l.edit .enter) := by
  have hfits := h.fits
  obtain ⟨hreading, hindex, hnul, ⟨r, rest, hcommand⟩, hlen, hprev, hplen, hexecuted⟩ := h
  have hline : IsString (l.current ++ 0 :: rest) l.current := isString_append hnul rest
  have hroom : l.current.length < s.prevCommand.length := hplen ▸ hfits
  have hstep : step s 0x0d = enter s := by
    rw [step, hreading]
    rfl
  have hstored := length_stored 0 (hcommand ▸ hlen)
  refine ⟨{ s with
    command := l.current ++ 0 :: rest
    prevCommand := l.current ++ 0 :: s.prevCommand.drop (l.current.length + 1)
    index := 0
    executed := s.executed ++ [l.current ++ 0 :: rest] }, ?_, ?_⟩
  · rw [hstep, enter, hcommand, hindex, store_behind, Option.bind_eq_bind, Option.bind_some,
      mstrcpy_eq hline hroom, Option.bind_some]
  · exact {
      reading := hreading
      index := rfl
      no_nul := List.not_mem_nil
      command := List.exists_cons_of_length_pos (by
        rw [List.length_append, List.length_cons]
        exact Nat.succ_pos _)
      command_length := hstored
      previous := isString_append hnul _
      previous_length := (length_copied hroom).trans hplen
      executed := List.rel_append hexecuted (.cons hline .nil) }

theorem erase_holds (h : Holds s l) :
    ∃ t, erase s = some t ∧ Holds t (l.edit .backspace) := by
  obtain ⟨hreading, hindex, hnul, ⟨r, rest, hcommand⟩, hlen, hprev, hplen, hexecuted⟩ := id h
  obtain hnil | ⟨w, d, hcurrent⟩ := List.eq_nil_or_concat' l.current
  · have hzero : ¬ 0 < s.index := by
      rw [hindex, hnil]
      exact lt_irrefl 0
    have hedit : l.edit .backspace = l := by
      obtain ⟨current, previous, executed⟩ := l
      simp only [Line.edit] at hnil ⊢
      rw [hnil, List.dropLast_nil]
    exact ⟨s, if_neg hzero, hedit.symm ▸ h⟩
  · have hpos : 0 < s.index := by
      rw [hindex, hcurrent, List.length_append, List.length_singleton]
      omega
    refine ⟨{ s with command := l.current ++ 0 :: rest, index := s.index - 1 }, ?_, ?_⟩
    · rw [erase, if_pos hpos, hcommand, hindex, store_behind, Option.bind_eq_bind,
        Option.bind_some]
    · exact {
        reading := hreading
        index := by
          simp only [Line.edit, hindex, hcurrent, List.dropLast_concat, List.length_append,
            List.length_singleton]
          omega
        no_nul := fun h0 => hnul (List.mem_of_mem_dropLast h0)
        command := ⟨d, 0 :: rest, by
          simp only [Line.edit, hcurrent, List.dropLast_concat, List.append_assoc,
            List.singleton_append]⟩
        command_length := length_stored 0 (hcommand ▸ hlen)
        previous := hprev
        previous_length := hplen
        executed := hexecuted }

theorem append_holds (h : Holds s l) (c : {c : Byte // IsLetter c})
    (hroom : l.current.length + 1 < COMMAND_MAX_LEN) :
    ∃ t, step s c = some t ∧ Holds t (l.edit (.letter c)) := by
  obtain ⟨hreading, hindex, hnul, ⟨r, rest, hcommand⟩, hlen, hprev, hplen, hexecuted⟩ := h
  obtain ⟨c, hletter⟩ := c
  have hstored := length_stored c (hcommand ▸ hlen)
  have hc : (c ≠ 0xff ∧ c ≠ 0x0d ∧ ¬ (c = 0x08 ∨ c = 0x7f) ∧ c ≠ 0x1b) ∧ 0 ≠ c := by
    simp only [IsLetter, List.mem_cons, List.not_mem_nil, or_false, not_or] at hletter
    tauto
  have hstep : step s c = append s c := by
    rw [step, hreading]
    dsimp only
    rw [if_neg hc.1.1, if_neg hc.1.2.1, if_neg hc.1.2.2.1, if_neg hc.1.2.2.2]
  refine ⟨{ s with command := l.current ++ c :: rest, index := s.index + 1 }, ?_, ?_⟩
  · rw [hstep, append, hcommand, hindex, store_behind, Option.bind_eq_bind, Option.bind_some]
  · have hrest : ∃ r' rest', rest = r' :: rest' := List.exists_cons_of_length_pos (by
      rw [List.length_append, List.length_cons] at hstored
      omega)
    obtain ⟨r', rest', rfl⟩ := hrest
    exact {
      reading := hreading
      index := by
        simp only [Line.edit, hindex, List.length_append, List.length_singleton]
        omega
      no_nul := List.mem_append.not.2 (not_or.2 ⟨hnul, fun h0 => hc.2 (List.mem_singleton.1 h0)⟩)
      command := ⟨r', rest', by
        simp only [Line.edit, List.append_assoc, List.singleton_append]⟩
      command_length := hstored
      previous := hprev
      previous_length := hplen
      executed := hexecuted }

theorem recall_holds (h : Holds s l) (hplain : plainFormat false (l.previous ++ [0]) = true) :
    ∃ t, recallPrevious s = some t ∧ Holds t (l.edit .up) := by
  obtain ⟨hreading, hindex, hnul, -, hlen, hprev, hplen, hexecuted⟩ := h
  have hpos : ¬ s.index < 0 := by
    rw [hindex]
    omega
  have hroom : l.previous.length < s.command.length := by
    obtain ⟨-, v, hv⟩ := hprev
    rw [hv, List.length_append, List.length_cons] at hplen
    omega
  have hcopied : IsString (l.previous ++ 0 :: s.command.drop (l.previous.length + 1)) l.previous :=
    isString_append hprev.no_nul _
  refine ⟨{ s with
    command := l.previous ++ 0 :: s.command.drop (l.previous.length + 1)
    index := l.previous.length }, ?_, ?_⟩
  · have hprintf : printf (l.previous ++ 0 :: s.command.drop (l.previous.length + 1)) = some () :=
      if_pos ((plainFormat_string hprev.no_nul).trans hplain)
    rw [recallPrevious, if_neg hpos, mstrcpy_eq hprev hroom, Option.bind_eq_bind, Option.bind_some,
      mstrlen_eq hcopied, Option.bind_eq_bind, Option.bind_some, hprintf]
    rfl
  · exact {
      reading := hreading
      index := rfl
      no_nul := hprev.no_nul
      command := ⟨_, _, rfl⟩
      command_length := (length_copied hroom).trans hlen
      previous := hprev
      previous_length := hplen
      executed := hexecuted }

/-! ## Keys -/

/-- Behind the escape and the bracket of an arrow key. -/
theorem arrow_runs (h : Holds s l) (c : Byte) {l' : Line} (hgap : p.gap = 0) (hgap' : p.gap' = 0)
    (hlast : ∃ t, step { s with reading := .c2 0x5b } c = some t ∧ Holds t l') :
    ∃ t, Runs step InBounds s (p.arrow c) t ∧ Holds t l' := by
  obtain ⟨t, hstep, ht⟩ := hlast
  refine ⟨t, ?_, ht⟩
  have hescape : step s 0x1b = some { s with reading := .c1 } := by
    rw [step, h.reading]
    rfl
  rw [Press.arrow, hgap, hgap']
  exact .cons h.inBounds hescape (.cons h.inBounds rfl (.single h.inBounds hstep ht.inBounds))

/-- The run of one key. -/
theorem press_runs (h : Holds s l) (hpermits : l.Permits p) :
    ∃ t, Runs step InBounds s p.polls t ∧ Holds t (l.edit p.key) := by
  have hwait : Runs step InBounds s (nothing p.wait) s :=
    .idle h.inBounds (step_nothing h) p.wait
  have herase : ∀ c : Byte, c = 0x08 ∨ c = 0x7f → step s c = erase s := by
    rintro c (rfl | rfl) <;> rw [step, h.reading] <;> rfl
  have hone : ∀ {c : Byte} {l' : Line}, (∃ t, step s c = some t ∧ Holds t l') →
      ∃ t, Runs step InBounds s (nothing p.wait ++ [c]) t ∧ Holds t l' :=
    fun ⟨t, hstep, ht⟩ => ⟨t, hwait.append (.single h.inBounds hstep ht.inBounds), ht⟩
  have harrow : ∀ {c : Byte} {l' : Line}, p.gap = 0 ∧ p.gap' = 0 →
      (∃ t, step { s with reading := .c2 0x5b } c = some t ∧ Holds t l') →
      ∃ t, Runs step InBounds s (nothing p.wait ++ p.arrow c) t ∧ Holds t l' :=
    fun hgaps hlast => by
      obtain ⟨t, hrun, ht⟩ := arrow_runs h _ hgaps.1 hgaps.2 hlast
      exact ⟨t, hwait.append hrun, ht⟩
  have hignored : Holds { s with reading := .c } l := { h with reading := rfl }
  obtain ⟨key, wait, gap, gap'⟩ := p
  cases key with
  | letter c => exact hone (append_holds h c hpermits)
  | backspace => exact hone (herase 0x08 (Or.inl rfl) ▸ erase_holds h)
  | delete => exact hone (herase 0x7f (Or.inr rfl) ▸ erase_holds h)
  | enter => exact hone (enter_holds h)
  | up => exact harrow ⟨hpermits.1, hpermits.2.1⟩ (recall_holds hignored hpermits.2.2)
  | down => exact harrow hpermits ⟨_, rfl, hignored⟩
  | right => exact harrow hpermits ⟨_, rfl, hignored⟩
  | left => exact harrow hpermits ⟨_, rfl, hignored⟩

theorem presses_run (h : Holds s l) (hmeets : l.Meets presses) :
    ∃ t, Runs step InBounds s (presses.flatMap Press.polls) t ∧ Holds t (l.edits presses) := by
  induction presses generalizing s l with
  | nil => exact ⟨s, .nil h.inBounds, h⟩
  | cons p presses ih =>
    obtain ⟨t, hrun, ht⟩ := press_runs h hmeets.1
    obtain ⟨u, hrest, hu⟩ := ih ht hmeets.2
    exact ⟨u, hrun.append hrest, hu⟩

theorem start_holds (hcommand : command.length = COMMAND_MAX_LEN)
    (hprev : prev_command.length = COMMAND_MAX_LEN) :
    Holds (start command prev_command) ⟨[], [], []⟩ := by
  have hpos : 0 < COMMAND_MAX_LEN := by decide
  obtain ⟨r, rest, rfl⟩ := List.exists_cons_of_length_pos (hprev ▸ hpos)
  exact {
    reading := rfl
    index := rfl
    no_nul := List.not_mem_nil
    command := List.exists_cons_of_length_pos (hcommand ▸ hpos)
    command_length := hcommand
    previous := isString_append List.not_mem_nil rest
    previous_length := hprev
    executed := .nil }

/-- Whatever is typed, as long as the lines fit and the arrow keys arrive at once. -/
theorem line_edited (hcommand : command.length = COMMAND_MAX_LEN)
    (hprev : prev_command.length = COMMAND_MAX_LEN)
    (hmeets : Line.Meets ⟨[], [], []⟩ presses) : Edits command prev_command presses := by
  obtain ⟨s, hrun, hs⟩ := presses_run (start_holds hcommand hprev) hmeets
  exact ⟨s, hrun, hs.executed⟩

def blankArray : Chars := List.replicate COMMAND_MAX_LEN 0x2a

/-- `l`, `s`, a backspace, return, and the same line again. -/
def listing : List Press :=
  [⟨.letter ⟨0x6c, by decide⟩, 3, 0, 0⟩, ⟨.letter ⟨0x73, by decide⟩, 1, 0, 0⟩, ⟨.backspace, 0, 0, 0⟩,
    ⟨.enter, 0, 0, 0⟩, ⟨.up, 2, 0, 0⟩, ⟨.enter, 1, 0, 0⟩]

theorem line_edited_listing : Edits blankArray blankArray listing :=
  line_edited (by decide) (by decide) (by decide)

def letters (n : ℕ) : List Press := List.replicate n ⟨.letter ⟨0x61, by decide⟩, 0, 0, 0⟩

/-- Eighty letters fill the array, and leave no place for the terminator. -/
theorem long_line : ¬ Edits blankArray blankArray (letters 80) := by
  rintro ⟨s, hrun, -⟩
  have hfull : (((letters 80).flatMap Press.polls).foldlM step
      (start blankArray blankArray)).map ConsoleState.index = some 80 := by decide +kernel
  rw [hrun.foldlM_eq, Option.map_some] at hfull
  have hbound : s.index < COMMAND_MAX_LEN := hrun.last.2
  rw [Option.some.inj hfull] at hbound
  exact absurd hbound (by decide)

end Console
