import DucreuOS.Library.CircularBuffer
import DucreuOS.Console

/-! # From the UART to the console

`uart.c` of the SBI: an interrupt takes one byte from the UART into a buffer of 32, and the console
of the OS polls the buffer. Hart 0 takes the interrupts and the supervisor calls with interrupts
off, so each is one step; bytes arrive at any time. -/
namespace Uart

open CircularBuffer

abbrev Byte := ByteMemory.Byte

def UART_BUFFER_SIZE : BitVec 32 := 32

/-- `sbi_uart_buffer_t` -/
structure SbiUartBuffer where
  buffer : ℕ → Byte
  start : BitVec 32
  occupied : BitVec 32

namespace SbiUartBuffer

/-- `uart_buffer_push`; a full buffer ignores the input. -/
def push (b : SbiUartBuffer) (c : Byte) : SbiUartBuffer :=
  if UART_BUFFER_SIZE.sle b.occupied then b
  else
    let index := (b.start + b.occupied).srem UART_BUFFER_SIZE
    { b with buffer := Function.update b.buffer index.toNat c, occupied := b.occupied + 1 }

/-- `uart_buffer_pop` -/
def pop (b : SbiUartBuffer) : Byte × SbiUartBuffer :=
  if b.occupied = 0 then (0xff, b)
  else
    (b.buffer b.start.toNat,
      { b with start := (b.start + 1).srem UART_BUFFER_SIZE, occupied := b.occupied - 1 })

end SbiUartBuffer

/-- The UART, with what it has received and nobody has read, and the buffer of the SBI. -/
structure Port where
  received : List Byte
  buffer : SbiUartBuffer

/-- `uart_init`; the other bytes of the array are whatever they were. -/
def uartInit (buffer : ℕ → Byte) : Port := ⟨[], ⟨buffer, 0, 0⟩⟩

namespace Port

/-- `uart_get`: the data-ready bit tells whether there is a byte. -/
def uartGet (p : Port) : Byte × Port :=
  match p.received with
  | [] => (0b11111111, p)
  | c :: received => (c, { p with received := received })

def uartHandleIrq (p : Port) : Port :=
  let (c, p) := p.uartGet
  { p with buffer := p.buffer.push c }

/-- `plic_claim`: of the sources only the UART is enabled, and it is pending while it has data. -/
def plicClaim (p : Port) : ℕ := if p.received.isEmpty then 0 else 10

def plicHandleIrq (p : Port) : Port := if p.plicClaim = 10 then p.uartHandleIrq else p

/-- What `SVRCALL_GETCHAR` returns. -/
def getchar (p : Port) : Byte × Port := (p.buffer.pop.1, { p with buffer := p.buffer.pop.2 })

end Port

inductive Event
  | receive (c : Byte)
  | interrupt
  | poll
deriving DecidableEq

def Event.typed : Event → List Byte
  | .receive c => [c]
  | _ => []

namespace Port

def next (p : Port) : Event → Port
  | .receive c => { p with received := p.received ++ [c] }
  | .interrupt => p.plicHandleIrq
  | .poll => p.getchar.2

/-- The bytes in the buffer. -/
def waiting (p : Port) : List Byte :=
  window p.buffer.buffer UART_BUFFER_SIZE.toNat p.buffer.start.toNat p.buffer.occupied.toNat

/-- What a poll takes. -/
def taken (p : Port) : Event → List Byte
  | .poll => if p.buffer.occupied = 0 then [] else [p.getchar.1]
  | _ => []

/-- What an interrupt loses. -/
def lost (p : Port) : Event → List Byte
  | .interrupt => if UART_BUFFER_SIZE.sle p.buffer.occupied then p.received.head?.toList else []
  | _ => []

end Port

/-- What the events of a run give, each in its state. -/
def along {σ : Type*} (next : σ → Event → σ) (f : σ → Event → List Byte) : σ → List Event → List Byte
  | _, [] => []
  | s, e :: es => f s e ++ along next f (next s e) es

/-! ## The keyboard -/

/-- The bytes on their way, the oldest first. -/
structure Keyboard where
  received : List Byte
  waiting : List Byte

namespace Keyboard

def Full (k : Keyboard) : Prop := k.waiting.length = UART_BUFFER_SIZE.toNat

instance (k : Keyboard) : Decidable k.Full := inferInstanceAs (Decidable (_ = _))

def next (k : Keyboard) : Event → Keyboard
  | .receive c => { k with received := k.received ++ [c] }
  | .interrupt =>
    match k.received with
    | [] => k
    | c :: received => ⟨received, if k.Full then k.waiting else k.waiting ++ [c]⟩
  | .poll => { k with waiting := k.waiting.tail }

/-- What a poll takes. -/
def taken (k : Keyboard) : Event → List Byte
  | .poll => k.waiting.head?.toList
  | _ => []

/-- What an interrupt loses. -/
def lost (k : Keyboard) : Event → List Byte
  | .interrupt => if k.Full then k.received.head?.toList else []
  | _ => []

end Keyboard

/-! ## The buffer holds what is waiting -/

structure Holds (p : Port) (k : Keyboard) : Prop where
  received : p.received = k.received
  start_lt : p.buffer.start.toNat < UART_BUFFER_SIZE.toNat
  occupied : p.buffer.occupied.toNat = k.waiting.length
  fits : k.waiting.length ≤ UART_BUFFER_SIZE.toNat
  waiting : window p.buffer.buffer UART_BUFFER_SIZE.toNat p.buffer.start.toNat k.waiting.length
    = k.waiting

section Buffer

variable {p : Port} {k : Keyboard} {c : Byte} {cs : List Byte} {x : BitVec 32}

theorem uartInit_holds (buffer : ℕ → Byte) : Holds (uartInit buffer) ⟨[], []⟩ :=
  ⟨rfl, Nat.lt_of_sub_eq_succ rfl, rfl, Nat.zero_le _, rfl⟩

/-- No index is negative. -/
theorem toNat_srem (hx : x.toNat < 2 ^ 31) :
    (x.srem UART_BUFFER_SIZE).toNat = x.toNat % UART_BUFFER_SIZE.toNat := by
  have hmsb : x.msb = false := BitVec.msb_eq_false_iff_two_mul_lt.mpr (by omega)
  have hsize : UART_BUFFER_SIZE.msb = false := by decide
  rw [BitVec.srem_eq, hmsb, hsize]
  exact BitVec.toNat_umod

theorem Holds.full_iff (h : Holds p k) : UART_BUFFER_SIZE.sle p.buffer.occupied = true ↔ k.Full := by
  have hfits := h.fits
  have hsize : UART_BUFFER_SIZE.toNat = 32 := rfl
  have hint : p.buffer.occupied.toInt = p.buffer.occupied.toNat :=
    BitVec.toInt_eq_toNat_of_lt (by rw [h.occupied]; omega)
  rw [BitVec.sle_iff_toInt_le, hint, h.occupied, Keyboard.Full]
  change (32 : ℤ) ≤ _ ↔ _
  omega

theorem Holds.push (h : Holds p k) (hroom : ¬ k.Full) (received : List Byte) :
    Holds ⟨received, p.buffer.push c⟩ ⟨received, k.waiting ++ [c]⟩ := by
  have hstart := h.start_lt
  have hlt : k.waiting.length < UART_BUFFER_SIZE.toNat := Nat.lt_of_le_of_ne h.fits hroom
  have hsize : UART_BUFFER_SIZE.toNat = 32 := rfl
  have hpush : p.buffer.push c = { p.buffer with
      buffer := Function.update p.buffer.buffer
        ((p.buffer.start + p.buffer.occupied).srem UART_BUFFER_SIZE).toNat c
      occupied := p.buffer.occupied + 1 } := if_neg (mt h.full_iff.mp hroom)
  have hsum : (p.buffer.start + p.buffer.occupied).toNat
      = p.buffer.start.toNat + k.waiting.length := by
    rw [BitVec.toNat_add, h.occupied, Nat.mod_eq_of_lt (by omega)]
  have hindex : ((p.buffer.start + p.buffer.occupied).srem UART_BUFFER_SIZE).toNat
      = (p.buffer.start.toNat + k.waiting.length) % UART_BUFFER_SIZE.toNat := by
    rw [toNat_srem (by omega), hsum]
  have hlen : (k.waiting ++ [c]).length = k.waiting.length + 1 := List.length_append
  constructor
  · rfl
  · rw [hpush]
    exact hstart
  · change (p.buffer.push c).occupied.toNat = _
    have hone : (1 : BitVec 32).toNat = 1 := rfl
    rw [hpush, hlen, BitVec.toNat_add, h.occupied, hone, Nat.mod_eq_of_lt (by omega)]
  · rw [hlen]
    exact hlt
  · change window (p.buffer.push c).buffer _ (p.buffer.push c).start.toNat _ = _
    rw [hpush, hindex, hlen, window_append hlt, h.waiting]

theorem Holds.push_full (h : Holds p k) (hfull : k.Full) (received : List Byte) :
    Holds ⟨received, p.buffer.push c⟩ ⟨received, k.waiting⟩ := by
  have hpush : p.buffer.push c = p.buffer := if_pos (h.full_iff.mpr hfull)
  rw [hpush]
  exact { h with received := rfl }

theorem Holds.interrupt (h : Holds p k) : Holds p.plicHandleIrq (k.next .interrupt) := by
  obtain ⟨received, b⟩ := p
  obtain ⟨received', waiting⟩ := k
  obtain rfl : received = received' := h.received
  cases received with
  | nil => exact h
  | cons c received =>
    change Holds ⟨received, b.push c⟩
      ⟨received, if Keyboard.Full ⟨c :: received, waiting⟩ then waiting else waiting ++ [c]⟩
    by_cases hfull : Keyboard.Full ⟨c :: received, waiting⟩
    · rw [if_pos hfull]
      exact h.push_full hfull received
    · rw [if_neg hfull]
      exact h.push hfull received

theorem Holds.poll (h : Holds p k) : p.getchar.1 = k.waiting.headD 0xff ∧
    Holds p.getchar.2 (k.next .poll) := by
  obtain ⟨received, waiting⟩ := k
  cases waiting with
  | nil =>
    have hempty : p.buffer.occupied = 0 := BitVec.eq_of_toNat_eq h.occupied
    have hpop : p.buffer.pop = (0xff, p.buffer) := if_pos hempty
    refine ⟨congrArg Prod.fst hpop, ?_⟩
    rw [Port.getchar, hpop]
    exact h
  | cons c cs =>
    have hocc : p.buffer.occupied.toNat = cs.length + 1 := h.occupied
    have hne : p.buffer.occupied ≠ 0 := by
      intro h0
      rw [h0] at hocc
      exact absurd hocc.symm (Nat.succ_ne_zero _)
    have hpop : p.buffer.pop = (p.buffer.buffer p.buffer.start.toNat, { p.buffer with
        start := (p.buffer.start + 1).srem UART_BUFFER_SIZE
        occupied := p.buffer.occupied - 1 }) := if_neg hne
    have hstart := h.start_lt
    have hsize : UART_BUFFER_SIZE.toNat = 32 := rfl
    have hone : (1 : BitVec 32).toNat = 1 := rfl
    have hsum : (p.buffer.start + 1).toNat = p.buffer.start.toNat + 1 := by
      rw [BitVec.toNat_add, hone, Nat.mod_eq_of_lt (by omega)]
    have hnext : ((p.buffer.start + 1).srem UART_BUFFER_SIZE).toNat
        = (p.buffer.start.toNat + 1) % UART_BUFFER_SIZE.toNat := by
      rw [toNat_srem (by omega), hsum]
    have hwindow : p.buffer.buffer p.buffer.start.toNat :: window p.buffer.buffer
        UART_BUFFER_SIZE.toNat ((p.buffer.start.toNat + 1) % UART_BUFFER_SIZE.toNat) cs.length
        = c :: cs := by
      rw [← window_succ hstart]
      exact h.waiting
    obtain ⟨hhead, hrest⟩ := List.cons.inj hwindow
    refine ⟨(congrArg Prod.fst hpop).trans hhead, ?_⟩
    rw [Port.getchar, hpop]
    constructor
    · exact h.received
    · change ((p.buffer.start + 1).srem UART_BUFFER_SIZE).toNat < _
      rw [hnext]
      exact Nat.mod_lt _ (by decide)
    · change (p.buffer.occupied - 1).toNat = cs.length
      rw [BitVec.toNat_sub_of_le (by rw [BitVec.le_def, hone, hocc]; omega), hocc, hone,
        Nat.add_sub_cancel]
    · exact (Nat.le_succ _).trans h.fits
    · change window p.buffer.buffer _ ((p.buffer.start + 1).srem UART_BUFFER_SIZE).toNat _ = _
      rw [hnext]
      exact hrest

theorem Holds.waiting_eq (h : Holds p k) : p.waiting = k.waiting := by
  rw [Port.waiting, h.occupied, h.waiting]

theorem Holds.taken_eq (h : Holds p k) (e : Event) : p.taken e = k.taken e := by
  cases e with
  | receive c => rfl
  | interrupt => rfl
  | poll =>
    have hpoll := h.poll.1
    have hocc := h.occupied
    rw [Port.taken, hpoll, Keyboard.taken]
    cases hw : k.waiting with
    | nil =>
      rw [hw] at hocc
      rw [if_pos (BitVec.eq_of_toNat_eq hocc)]
      rfl
    | cons c cs =>
      rw [hw] at hocc
      have hne : p.buffer.occupied ≠ 0 := by
        intro h0
        rw [h0] at hocc
        exact absurd hocc.symm (Nat.succ_ne_zero _)
      rw [if_neg hne]
      rfl

theorem Holds.lost_eq (h : Holds p k) (e : Event) : p.lost e = k.lost e := by
  cases e with
  | receive c => rfl
  | interrupt =>
    rw [Port.lost, Keyboard.lost, h.received]
    exact if_congr h.full_iff rfl rfl
  | poll => rfl

theorem Holds.next (h : Holds p k) (e : Event) : Holds (p.next e) (k.next e) := by
  cases e with
  | receive c => exact { h with received := congrArg (· ++ [c]) h.received }
  | interrupt => exact h.interrupt
  | poll => exact h.poll.2

end Buffer

/-! ## Nothing is overtaken -/

section Runs

variable {p : Port} {k : Keyboard} {e : Event} {es : List Event}

theorem Holds.run (h : Holds p k) (es : List Event) :
    Holds (es.foldl Port.next p) (es.foldl Keyboard.next k) ∧
      along Port.next Port.taken p es = along Keyboard.next Keyboard.taken k es ∧
      along Port.next Port.lost p es = along Keyboard.next Keyboard.lost k es := by
  induction es generalizing p k with
  | nil => exact ⟨h, rfl, rfl⟩
  | cons e es ih =>
    obtain ⟨hlast, htaken, hlost⟩ := ih (h.next e)
    refine ⟨hlast, ?_, ?_⟩
    · rw [along, along, h.taken_eq, htaken]
    · rw [along, along, h.lost_eq, hlost]

/-- One step passes the bytes on, or loses the one of an interrupt. -/
theorem next_conserves (k : Keyboard) (e : Event) :
    ((k.taken e ++ (k.next e).waiting ++ (k.next e).received).Sublist
      (k.waiting ++ k.received ++ e.typed)) ∧
    (k.taken e ++ (k.next e).waiting ++ (k.next e).received).length + (k.lost e).length =
      (k.waiting ++ k.received ++ e.typed).length := by
  obtain ⟨received, waiting⟩ := k
  cases e with
  | receive c => simp [Keyboard.taken, Keyboard.next, Keyboard.lost, Event.typed]
  | interrupt =>
    cases received with
    | nil => simp [Keyboard.taken, Keyboard.next, Keyboard.lost, Event.typed]
    | cons c received =>
      by_cases hfull : Keyboard.Full ⟨c :: received, waiting⟩
      · simp [Keyboard.taken, Keyboard.next, Keyboard.lost, Event.typed, hfull, Nat.add_assoc]
      · simp [Keyboard.taken, Keyboard.next, Keyboard.lost, Event.typed, hfull]
  | poll => cases waiting <;> simp [Keyboard.taken, Keyboard.next, Keyboard.lost, Event.typed]

/-- Where nothing is lost. -/
theorem next_keeps (h : k.lost e = []) : k.taken e ++ (k.next e).waiting ++ (k.next e).received =
    k.waiting ++ k.received ++ e.typed := by
  obtain ⟨hsub, hlen⟩ := next_conserves k e
  rw [h] at hlen
  exact hsub.eq_of_length hlen

theorem run_conserves (k : Keyboard) (es : List Event) :
    let t := es.foldl Keyboard.next k
    ((along Keyboard.next Keyboard.taken k es ++ t.waiting ++ t.received).Sublist
      (k.waiting ++ k.received ++ es.flatMap Event.typed)) ∧
    (along Keyboard.next Keyboard.taken k es ++ t.waiting ++ t.received).length +
        (along Keyboard.next Keyboard.lost k es).length =
      (k.waiting ++ k.received ++ es.flatMap Event.typed).length := by
  induction es generalizing k with
  | nil => simp [along]
  | cons e es ih =>
    obtain ⟨hsub, hlen⟩ := ih (k.next e)
    obtain ⟨hsub', hlen'⟩ := next_conserves k e
    constructor
    · have hfirst := hsub.append_left (k.taken e)
      have hsecond := hsub'.append_right (es.flatMap Event.typed)
      simp only [along, List.flatMap_cons, List.foldl_cons, List.append_assoc] at hfirst hsecond ⊢
      exact hfirst.trans hsecond
    · simp only [along, List.flatMap_cons, List.length_append, List.foldl_cons] at *
      omega

/-- Whatever is typed, and whenever the interrupts are taken and the buffer is polled: the bytes
that the polls have taken, those in the buffer and those in the UART are the typed ones in order,
without those that an interrupt has found the buffer full for. -/
theorem uart_in_order (buffer : ℕ → Byte) (es : List Event) :
    let p := es.foldl Port.next (uartInit buffer)
    let taken := along Port.next Port.taken (uartInit buffer) es
    let lost := along Port.next Port.lost (uartInit buffer) es
    (taken ++ p.waiting ++ p.received).Sublist (es.flatMap Event.typed) ∧
      (taken ++ p.waiting ++ p.received).length + lost.length = (es.flatMap Event.typed).length ∧
      (lost = [] → taken ++ p.waiting ++ p.received = es.flatMap Event.typed) := by
  intro p taken lost
  obtain ⟨hlast, htaken, hlost⟩ := (uartInit_holds buffer).run es
  obtain ⟨hsub, hlen⟩ := run_conserves ⟨[], []⟩ es
  have hall : taken ++ p.waiting ++ p.received = along Keyboard.next Keyboard.taken ⟨[], []⟩ es ++
      (es.foldl Keyboard.next ⟨[], []⟩).waiting ++ (es.foldl Keyboard.next ⟨[], []⟩).received := by
    rw [← hlast.waiting_eq, ← hlast.received, ← htaken]
  have hcount : lost.length = (along Keyboard.next Keyboard.lost ⟨[], []⟩ es).length :=
    congrArg List.length hlost
  rw [hall, hcount]
  refine ⟨hsub, hlen, fun hnone => hsub.eq_of_length ?_⟩
  rw [← hlen, ← hcount, hnone]
  rfl

end Runs

/-! ## What is typed at the console -/

/-- The port and the loop of `console`. -/
structure Terminal where
  port : Port
  console : Console.ConsoleState

/-- A poll gives the loop what it waits for. -/
def Terminal.next (t : Terminal) : Event → Option Terminal
  | .poll => (Console.step t.console t.port.getchar.1).map (⟨t.port.getchar.2, ·⟩)
  | e => some { t with port := t.port.next e }

section Lines

open Console Strings Transition

variable {t : Terminal} {k : Keyboard} {l : Line} {es : List Event} {presses : List Press}

/-- A key of one byte. -/
def Single (p : Press) : Prop := p.polls.length = 1

instance (p : Press) : Decidable (Single p) := inferInstanceAs (Decidable (_ = _))

/-- The loop goes on with the key that has been typed first. -/
theorem single_step {s : ConsoleState} {p : Press} {c : Byte} (h : Console.Holds s l)
    (hpermits : l.Permits p) (hc : p.polls = [c]) :
    ∃ s', step s c = some s' ∧ Console.Holds s' (l.edit p.key) := by
  obtain ⟨s', hrun, hs'⟩ := press_runs h hpermits
  have hstep := hrun.foldlM_eq
  rw [hc] at hstep
  exact ⟨s', by simpa using hstep, hs'⟩

theorem lines_run (hport : Holds t.port k) (hconsole : Console.Holds t.console l)
    (hsingle : ∀ p ∈ presses, Single p) (hmeets : l.Meets presses)
    (htyped : k.waiting ++ k.received ++ es.flatMap Event.typed = presses.flatMap Press.polls)
    (hlost : along Keyboard.next Keyboard.lost k es = []) :
    ∃ t', es.foldlM Terminal.next t = some t' ∧
      Console.Holds t'.console
        (l.edits (presses.take (along Keyboard.next Keyboard.taken k es).length)) := by
  induction es generalizing t k l presses with
  | nil => exact ⟨t, rfl, hconsole⟩
  | cons e es ih =>
    obtain ⟨hnow, hlater⟩ := List.append_eq_nil_iff.mp hlost
    have hnext : k.taken e ++ ((k.next e).waiting ++ (k.next e).received ++ es.flatMap Event.typed) =
        presses.flatMap Press.polls := by
      rw [← htyped, List.flatMap_cons, ← List.append_assoc, ← List.append_assoc, next_keeps hnow,
        List.append_assoc]
    have hquiet (he : k.taken e = []) (hstep : t.next e = some { t with port := t.port.next e }) :
        ∃ t', (e :: es).foldlM Terminal.next t = some t' ∧ Console.Holds t'.console
          (l.edits (presses.take (along Keyboard.next Keyboard.taken k (e :: es)).length)) := by
      rw [he, List.nil_append] at hnext
      obtain ⟨t', hrun, ht'⟩ := ih (t := { t with port := t.port.next e }) (hport.next e) hconsole
        hsingle hmeets hnext hlater
      refine ⟨t', ?_, ?_⟩
      · rw [List.foldlM_cons, hstep]
        exact hrun
      · rw [along, he]
        exact ht'
    cases e with
    | receive c => exact hquiet rfl rfl
    | interrupt => exact hquiet rfl rfl
    | poll =>
      have hpoll := hport.poll.1
      cases hwaiting : k.waiting with
      | nil =>
        rw [hwaiting] at hpoll
        refine hquiet (by rw [Keyboard.taken, hwaiting]; rfl) ?_
        rw [Terminal.next, hpoll]
        exact congrArg (Option.map _) (step_nothing hconsole)
      | cons c cs =>
        rw [hwaiting] at hpoll
        have htaken : k.taken .poll = [c] := by
          rw [Keyboard.taken, hwaiting]
          rfl
        rw [htaken] at hnext
        cases presses with
        | nil => cases hnext
        | cons p presses =>
          rw [List.forall_mem_cons] at hsingle
          obtain ⟨d, hd⟩ := List.length_eq_one_iff.mp hsingle.1
          rw [List.flatMap_cons, hd] at hnext
          obtain ⟨rfl, hrest⟩ := List.cons.inj hnext
          obtain ⟨s', hstep, hs'⟩ := single_step hconsole hmeets.1 hd
          obtain ⟨t', hrun, ht'⟩ := ih (t := ⟨t.port.next .poll, s'⟩) (hport.next .poll) hs'
            hsingle.2 hmeets.2 hrest hlater
          refine ⟨t', ?_, ?_⟩
          · have hpolled : t.next .poll = some ⟨t.port.next .poll, s'⟩ := by
              rw [Terminal.next, hpoll]
              exact congrArg (Option.map _) hstep
            rw [List.foldlM_cons, hpolled]
            exact hrun
          · rw [along, htaken, List.singleton_append, List.length_cons, List.take_succ_cons]
            exact ht'

/-- Letters, backspaces and returns, typed at any time: if no interrupt finds the buffer full, the
lines that have been executed are those of the keys that have been polled. -/
theorem typed_lines {command prev_command : Chars} (hcommand : command.length = COMMAND_MAX_LEN)
    (hprev : prev_command.length = COMMAND_MAX_LEN) (buffer : ℕ → Byte)
    (hsingle : ∀ p ∈ presses, Single p) (hmeets : Line.Meets ⟨[], [], []⟩ presses)
    (htyped : es.flatMap Event.typed = presses.flatMap Press.polls)
    (hlost : along Port.next Port.lost (uartInit buffer) es = []) :
    ∃ t, es.foldlM Terminal.next ⟨uartInit buffer, start command prev_command⟩ = some t ∧
      List.Forall₂ IsString t.console.executed (Line.edits ⟨[], [], []⟩
        (presses.take (along Port.next Port.taken (uartInit buffer) es).length)).executed := by
  obtain ⟨-, htaken, hnone⟩ := (uartInit_holds buffer).run es
  rw [htaken]
  obtain ⟨t, hrun, ht⟩ := lines_run (t := ⟨uartInit buffer, start command prev_command⟩)
    (uartInit_holds buffer) (start_holds hcommand hprev) hsingle hmeets htyped (hnone ▸ hlost)
  exact ⟨t, hrun, ht.executed⟩

/-- `c`, a backspace, `d` and return, of which the last is still on its way. -/
def keys : List Press :=
  [⟨.letter ⟨0x63, by decide⟩, 0, 0, 0⟩, ⟨.backspace, 0, 0, 0⟩, ⟨.letter ⟨0x64, by decide⟩, 0, 0, 0⟩,
    ⟨.enter, 0, 0, 0⟩]

def typing : List Event :=
  [.poll, .receive 0x63, .interrupt, .receive 0x08, .receive 0x64, .poll, .interrupt, .interrupt,
    .poll, .poll, .poll, .receive 0x0d, .interrupt]

theorem typed_lines_keys :
    ∃ t, typing.foldlM Terminal.next ⟨uartInit 0, start blankArray blankArray⟩ = some t ∧
      List.Forall₂ IsString t.console.executed (Line.edits ⟨[], [], []⟩
        (keys.take (along Port.next Port.taken (uartInit 0) typing).length)).executed :=
  typed_lines (by decide) (by decide) 0 (by decide : ∀ p ∈ keys, Single p) (by decide) (by decide)
    (by decide)

end Lines

end Uart
