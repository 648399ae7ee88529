import DucreuOS.CommandLine

/-! # The command that a line names

`execute_command` compares the line itself with the names of the commands, and hands the arguments
of `make_argv` to the one it takes. What the commands do is not modelled. -/
namespace CommandLine

open ByteMemory LiveBlocks Words Strings

def ascii (text : String) : List Byte := text.toList.map fun c => BitVec.ofNat 8 c.toNat

/-- A string literal. -/
def literal (text : String) : Chars := ascii text ++ [0]

/-- The names that are compared with `samecmd`, in this order. -/
def commands : List String :=
  ["stat", "shutdown", "quit", "probe", "set", "start", "stop", "page", "pt", "heap", "malloc",
    "free", "pcie", "bars", "rng", "elfread", "poffsets", "top", "schedinvoke", "clinttime",
    "clintset", "clintadd", "clintcmp", "blockread", "blockwrite", "regions", "gpu", "minix3",
    "vfs", "ls", "inode", "cd", "touch", "rm", "mkdir", "rmdir", "cat", "append", "bmp2file",
    "file2screen", "inputring", "nargs", "argv", "virtq", "irqs", "pog", "joeyD"]

def firstSame (command : Chars) : List String → Option (Option String)
  | [] => some none
  | ref :: refs => do
    let same ← samecmd command (literal ref)
    if same then some (some ref) else firstSame command refs

/-- The branch that is taken; `help` is compared with the whole line. -/
def branch (command : Chars) : Option (Option String) := do
  let same ← samestr command (literal "help")
  if same then some (some "help") else firstSame command commands

def executeCommand (A : Allocator ℕ) (command : Chars) : Op (Option String) := do
  let command_nargs ← defined (countargs command)
  let command_argv ← makeArgv A command
  let taken ← defined (branch command)
  freeArgv command_argv command_nargs
  pure taken

/-- The command with the name `arg`. -/
def namedBy (arg : Chars) : Option String :=
  ("help" :: commands).find? fun ref => mstrcmp arg (literal ref) = some 0

/-- `samecmd` tells of each reference word whether it is the first argument. -/
def Agrees (cmd arg : Chars) : Prop :=
  ∀ ref r, IsString ref r → space ∉ r → (samecmd cmd ref = some true ↔ mstrcmp arg ref = some 0)

/-- Moreover the command that is taken is the one with the name of the first argument. -/
def Dispatches (A : Allocator ℕ) (cmd : Chars) (h : Heap ℕ Blocks) : Prop :=
  ∃ argv h', makeArgv A cmd h = .ok (argv, h') ∧
    Agrees cmd (h'.data.contents (h'.data.pointers argv 0)) ∧
    ∃ h'', executeCommand A cmd h =
      .ok (namedBy (h'.data.contents (h'.data.pointers argv 0)), h'')

variable {A : Allocator ℕ} {h h' : Heap ℕ Blocks} {cmd arg ref : Chars} {s w r : List Byte}
  {ws : List (List Byte)} {ps : List ℕ} {argv : ℕ} {name : String}

/-! ## The comparisons -/

theorem front_word (h : space ∉ r) : front isSpace r = r := by
  rw [front, List.takeWhile_eq_self_iff]
  intro c hc
  have hne : c ≠ space := fun heq => h (heq ▸ hc)
  simp [isSpace, hne]

theorem isString_literal (h : 0 ∉ ascii name) : IsString (literal name) (ascii name) :=
  isString_append h []

theorem commands_words : ∀ name ∈ "help" :: commands,
    0 ∉ ascii name ∧ space ∉ ascii name := by decide

theorem commands_other : ∀ name ∈ commands, ascii name ≠ ascii "help" := by decide

theorem mstrcmp_eq_zero (ha : IsString arg w) (hr : IsString ref r) :
    mstrcmp arg ref = some 0 ↔ w = r := by
  obtain ⟨n, hn, hiff⟩ := compareTo_zero ha.ends hr.ends
  rw [mstrcmp, hn, Option.some.injEq, hiff]

theorem samecmd_eq_true (hs : IsString cmd s) (hr : IsString ref r) (hword : space ∉ r) :
    samecmd cmd ref = some true ↔ front isSpace s = r := by
  rw [samecmd_eq hs hr, front_word hword, Option.some.injEq, decide_eq_true_iff]

theorem head_letter : (∀ c ∈ s.head?, isSpace c = false) ↔ s.head? ≠ some space := by
  cases s <;> simp [isSpace]

/-- The line is compared from its first byte on, and the first argument is its first word. -/
theorem agrees_iff (hs : IsString cmd s) (hwords : words isSpace s = w :: ws)
    (ha : IsString arg w) : Agrees cmd arg ↔ s.head? ≠ some space := by
  have hfirst : w = front isSpace s ↔ s.head? ≠ some space := by
    rw [first_word_iff hwords, head_letter]
  have hword : space ∉ w := fun hspace => absurd ((first_word hwords).2 space hspace) (by decide)
  rw [← hfirst]
  constructor
  · intro hall
    have hw := hall (w ++ 0 :: []) w (isString_append ha.no_nul []) hword
    rw [samecmd_eq_true hs (isString_append ha.no_nul []) hword,
      mstrcmp_eq_zero ha (isString_append ha.no_nul [])] at hw
    exact (hw.2 rfl).symm
  · intro heq ref r hr hspace
    rw [samecmd_eq_true hs hr hspace, mstrcmp_eq_zero ha hr, heq]

/-! ## The branches -/

theorem firstSame_eq (hs : IsString cmd s) {refs : List String}
    (hrefs : ∀ name ∈ refs, 0 ∉ ascii name ∧ space ∉ ascii name) :
    firstSame cmd refs = some (refs.find? fun ref => front isSpace s = ascii ref) := by
  induction refs with
  | nil => rfl
  | cons ref refs ih =>
    rw [List.forall_mem_cons] at hrefs
    rw [firstSame, samecmd_eq hs (isString_literal hrefs.1.1), front_word hrefs.1.2,
      Option.bind_eq_bind, Option.bind_some, List.find?_cons]
    by_cases hsame : front isSpace s = ascii ref
    · simp [hsame]
    · simp [hsame, ih hrefs.2]

theorem branch_eq (hs : IsString cmd s) : branch cmd = some (if s = ascii "help" then some "help"
    else commands.find? fun ref => front isSpace s = ascii ref) := by
  have hhelp := isString_literal (commands_words "help" List.mem_cons_self).1
  rw [branch, samestr_eq hs hhelp, Option.bind_eq_bind, Option.bind_some,
    firstSame_eq hs fun name hname => commands_words name (List.mem_cons_of_mem _ hname)]
  by_cases hsame : s = ascii "help"
  · simp [hsame]
  · simp [hsame]

theorem namedBy_eq (ha : IsString arg w) : namedBy arg =
    if w = ascii "help" then some "help" else commands.find? fun ref => w = ascii ref := by
  have hfind : ∀ name ∈ "help" :: commands,
      (mstrcmp arg (literal name) = some 0 ↔ w = ascii name) := fun name hname =>
    mstrcmp_eq_zero ha (isString_literal (commands_words name hname).1)
  have hcongr : namedBy arg = ("help" :: commands).find? fun ref => w = ascii ref := by
    apply List.find?_congr
    intro name hname
    rw [decide_eq_decide.2 (hfind name hname)]
  rw [hcongr, List.find?_cons]
  by_cases hsame : w = ascii "help"
  · simp [hsame]
  · simp [hsame]

/-- A line that begins with its first word takes the branch of that word, unless the word is `help`
and something follows. -/
theorem branch_iff (hs : IsString cmd s) (ha : IsString arg (front isSpace s)) :
    branch cmd = some (namedBy arg) ↔ (front isSpace s = ascii "help" → s = ascii "help") := by
  rw [branch_eq hs, namedBy_eq ha, Option.some.injEq]
  by_cases hfront : front isSpace s = ascii "help"
  · rw [if_pos hfront]
    by_cases hsame : s = ascii "help"
    · rw [if_pos hsame]
      exact iff_of_true rfl fun _ => hsame
    · have hnone : (commands.find? fun ref => front isSpace s = ascii ref) = none := by
        rw [List.find?_eq_none]
        intro name hname
        rw [hfront, decide_eq_true_iff]
        exact (commands_other name hname).symm
      rw [if_neg hsame, hnone]
      exact iff_of_false (by simp) fun heq => hsame (heq hfront)
  · have hsame : s ≠ ascii "help" := by
      rintro rfl
      exact hfront (front_word (commands_words "help" List.mem_cons_self).2)
    rw [if_neg hfront, if_neg hsame]
    exact iff_of_true rfl fun heq => absurd heq hfront

/-- The first argument is the first word. -/
theorem ArgVector.first (hv : ArgVector h h' argv (w :: ws) ps) :
    IsString (h'.data.contents (h'.data.pointers argv 0)) w := by
  cases hv.entries with
  | cons hp _ hword _ =>
    rw [hp]
    exact hword

theorem executeCommand_run (hrun : makeArgv A cmd h = .ok (argv, h'))
    (hv : ArgVector h h' argv (words isSpace s) ps) (hs : IsString cmd s) {taken : Option String}
    (htaken : branch cmd = some taken) :
    executeCommand A cmd h = .ok (taken, ⟨h.live, h'.data⟩) := by
  rw [executeCommand, bind_run (defined_run (countargs_eq hs) h), bind_run hrun,
    bind_run (defined_run htaken h'), bind_run hv.freed]
  rfl

/-- For every line with a word in it. -/
theorem dispatches_iff (A : Allocator ℕ) (cmd : Chars) (s : List Byte) (hs : IsString cmd s)
    (hwords : words isSpace s ≠ []) (h : Heap ℕ Blocks) :
    Dispatches A cmd h ↔ s.head? ≠ some space ∧
      (front isSpace s = ascii "help" → s = ascii "help") := by
  obtain ⟨w, ws, hw⟩ := List.exists_cons_of_ne_nil hwords
  obtain ⟨argv, h', ps, hrun, hv⟩ := makeArgv_fills (A := A) hs h
  have ha := (hw ▸ hv).first
  have hagrees := agrees_iff hs hw ha
  have htaken := branch_eq hs
  have hexecute := executeCommand_run hrun hv hs htaken
  constructor
  · rintro ⟨argv₁, h₁, hrun₁, hall, h'', hrest⟩
    rw [hrun] at hrun₁
    cases hrun₁
    have hhead := hagrees.1 hall
    have hfront : w = front isSpace s := (first_word_iff hw).2 (head_letter.2 hhead)
    rw [hexecute] at hrest
    refine ⟨hhead, (branch_iff hs (hfront ▸ ha)).1 ?_⟩
    rw [htaken]
    exact congrArg some (congrArg Prod.fst (Except.ok.inj hrest))
  · rintro ⟨hhead, hhelp⟩
    have hfront : w = front isSpace s := (first_word_iff hw).2 (head_letter.2 hhead)
    have hbranch := (branch_iff hs (hfront ▸ ha)).2 hhelp
    exact ⟨argv, h', hrun, hagrees.2 hhead, _, executeCommand_run hrun hv hs hbranch⟩

theorem dispatches_iff_cat : Dispatches nextBlock (literal "cat  f ") noBlocks := by
  have hs : IsString (literal "cat  f ") (ascii "cat  f ") := isString_literal (by decide)
  exact (dispatches_iff nextBlock _ _ hs (by decide) noBlocks).2 ⟨by decide, by decide⟩

/-- `ls` behind a space is not recognised, and the first argument is `ls`; nor is `help` in front
of one. -/
theorem space_hides_command : ¬ Dispatches nextBlock (literal " ls") noBlocks ∧
    words isSpace (ascii " ls") = [ascii "ls"] ∧ branch (literal " ls") = some none ∧
    branch (literal "help ") = some none := by
  have hs : IsString (literal " ls") (ascii " ls") := isString_literal (by decide)
  have hw : words isSpace (ascii " ls") = [ascii "ls"] := by decide
  refine ⟨?_, hw, by decide, by decide⟩
  rintro ⟨argv, h', hrun, hall, -⟩
  obtain ⟨argv₁, h₁, ps, hrun₁, hv⟩ := makeArgv_fills (A := nextBlock) hs noBlocks
  rw [hrun] at hrun₁
  cases hrun₁
  exact absurd ((agrees_iff hs hw (hw ▸ hv).first).1 hall) (by decide)

end CommandLine
