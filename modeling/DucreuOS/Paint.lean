import DucreuOS.Circles
import DucreuOS.GetInput

/-! # The paint program

The user program takes the input events that `os_get_input` delivers, fifty at a time, and follows
the cursor with a state machine. The screen and its regions are parameters. What is printed is not
modelled. -/
namespace Paint

open RingBuffer (InputEvent IeRingBuffer)
open Gpu (Pixel)
open GetInput (popped)

abbrev Word := BitVec 32

def IE_TYPE_SYNC : BitVec 16 := 0x0000
def IE_TYPE_KEY : BitVec 16 := 0x0001
def IE_TYPE_TABLET : BitVec 16 := 0x0003
def IE_TABLET_CODE_X : BitVec 16 := 0x0000
def IE_TABLET_CODE_Y : BitVec 16 := 0x0001
def IE_KEY_CODE_BUTTON_LMOUSE : BitVec 16 := 0x110
def IE_KEY_VALUE_PRESS : Word := 0x0001

inductive InputState
  | init
  | default
  | lclick
  | xpos
  | ypos
  | expectSync
  deriving DecidableEq

structure CursorPosition where
  x : Word
  y : Word

structure PaintState where
  state : InputState
  icp : CursorPosition
  currentColor : Pixel
  lmousePressed : Bool
  /-- What has been handed to `os_draw_circle`. -/
  drawn : List (Gpu.Circle × Pixel)

/-- `os_get_region`, `os_get_screen_x` and `os_get_screen_y` -/
structure Screen where
  region : (x_raw y_raw : Word) → Word
  width : Word
  height : Word

def pixelRed : Pixel := ⟨255, 0, 0, 255⟩
def pixelGreen : Pixel := ⟨0, 255, 0, 255⟩
def pixelBlue : Pixel := ⟨0, 0, 255, 255⟩

/-- In front of the loop. -/
def initial : PaintState := ⟨.default, ⟨0, 0⟩, pixelRed, false, [(⟨205, 190, 22⟩, pixelRed)]⟩

section Source

variable (screen : Screen) (s : PaintState) (e : InputEvent)

def draw : PaintState :=
  let test_circ : Gpu.Circle :=
    ⟨s.icp.x * screen.width / 0x8000, s.icp.y * screen.height / 0x8000, 5⟩
  { s with drawn := s.drawn ++ [(test_circ, s.currentColor)] }

/-- With the left button down. -/
def press : PaintState :=
  let s := { s with lmousePressed := true }
  let region := screen.region s.icp.x s.icp.y
  if region = 1 then { s with currentColor := pixelRed }
  else if region = 2 then { s with currentColor := pixelGreen }
  else if region = 3 then { s with currentColor := pixelBlue }
  else if region = 0 then draw screen s
  else s

/-- Other keys are printed. -/
def stepDefault : PaintState :=
  if e.type = IE_TYPE_SYNC then s
  else if e.type = IE_TYPE_TABLET then
    if e.code = IE_TABLET_CODE_X then
      { s with icp := { s.icp with x := e.value }, state := .xpos }
    else s
  else if e.type = IE_TYPE_KEY then
    if e.code = IE_KEY_CODE_BUTTON_LMOUSE then
      if e.value = IE_KEY_VALUE_PRESS then press screen s else { s with lmousePressed := false }
    else s
  else s

def stepXpos : PaintState :=
  if e.type = IE_TYPE_TABLET then
    if e.code = IE_TABLET_CODE_Y then
      let s := { s with icp := { s.icp with y := e.value }, state := .ypos }
      if s.lmousePressed && screen.region s.icp.x s.icp.y = 0 then draw screen s else s
    else s
  else s

def stepExpectSync : PaintState :=
  if e.type = IE_TYPE_SYNC then { s with state := .default } else s

/-- `switch(state)` -/
def step : PaintState :=
  match s.state with
  | .init | .default => stepDefault screen s e
  | .xpos => stepXpos screen s e
  | .ypos | .lclick | .expectSync => stepExpectSync s e

end Source

/-- The events one after the other. -/
def paint (screen : Screen) (events : List InputEvent) : PaintState :=
  events.foldl (step screen) initial

/-- The rounds of `while(1)`. Each `os_get_input` finds a ring and takes `input_parse_size` events
from it. -/
def loop (screen : Screen) (rings : List IeRingBuffer) : PaintState :=
  rings.foldl (fun s rb => (popped 50 rb).foldl (step screen) s) initial

/-! ## The cursor that is expected -/

def isX (e : InputEvent) : Bool := e.type = IE_TYPE_TABLET ∧ e.code = IE_TABLET_CODE_X
def isY (e : InputEvent) : Bool := e.type = IE_TYPE_TABLET ∧ e.code = IE_TABLET_CODE_Y
def isButton (e : InputEvent) : Bool := e.type = IE_TYPE_KEY ∧ e.code = IE_KEY_CODE_BUTTON_LMOUSE
def isSync (e : InputEvent) : Bool := e.type = IE_TYPE_SYNC

/-- The value of the last event of a kind, zero if there is none. -/
def lastValue (kind : InputEvent → Bool) (events : List InputEvent) : Word :=
  ((events.filter kind).getLast?.map InputEvent.value).getD 0

/-- The cursor is where the events put it. -/
structure Exact (s : PaintState) (events : List InputEvent) : Prop where
  x : s.icp.x = lastValue isX events
  y : s.icp.y = lastValue isY events
  button : s.lmousePressed = decide (lastValue isButton events = IE_KEY_VALUE_PRESS)

/-- What a cursor waits for: anything, the `y` that belongs to an `x`, or the sync behind it. -/
inductive Mode
  | idle
  | afterX
  | afterY
  deriving DecidableEq

def Mode.next : Mode → InputEvent → Mode
  | idle, e => if isX e then afterX else idle
  | afterX, e => if isY e then afterY else afterX
  | afterY, e => if isSync e then idle else afterY

def Mode.takes : Mode → InputEvent → Bool
  | idle, e => isX e || isButton e
  | afterX, e => isY e
  | afterY, _ => false

/-- The events of a stream that are not discarded. -/
def taken : Mode → List InputEvent → List InputEvent
  | _, [] => []
  | mode, e :: es => if mode.takes e then e :: taken (mode.next e) es else taken (mode.next e) es

def Mode.state : Mode → InputState
  | idle => .default
  | afterX => .xpos
  | afterY => .ypos

variable {screen : Screen} {s : PaintState} {e : InputEvent} {mode : Mode}
  {seen events : List InputEvent} {kind : InputEvent → Bool}

theorem lastValue_snoc : lastValue kind (seen ++ [e]) =
    if kind e then e.value else lastValue kind seen := by
  rw [lastValue, List.filter_append]
  cases hkind : kind e with
  | true => simp [hkind]
  | false => simp [hkind, lastValue]

/-! ## One event -/

/-- A press is remembered, whatever it draws. -/
theorem press_eq : (press screen s).state = s.state ∧ (press screen s).icp = s.icp ∧
    (press screen s).lmousePressed = true := by
  unfold press
  dsimp only
  split_ifs <;> exact ⟨rfl, rfl, rfl⟩

theorem isX_iff : isX e = true ↔ e.type = IE_TYPE_TABLET ∧ e.code = IE_TABLET_CODE_X :=
  decide_eq_true_iff

theorem isY_iff : isY e = true ↔ e.type = IE_TYPE_TABLET ∧ e.code = IE_TABLET_CODE_Y :=
  decide_eq_true_iff

theorem isButton_iff :
    isButton e = true ↔ e.type = IE_TYPE_KEY ∧ e.code = IE_KEY_CODE_BUTTON_LMOUSE :=
  decide_eq_true_iff

/-- An event is of one kind at most. -/
theorem kinds_apart : (isX e = true → isY e = false ∧ isButton e = false) ∧
    (isY e = true → isX e = false ∧ isButton e = false) ∧
    (isButton e = true → isX e = false ∧ isY e = false) := by
  simp only [← Bool.not_eq_true, isX_iff, isY_iff, isButton_iff]
  refine ⟨?_, ?_, ?_⟩ <;> rintro ⟨htype, hcode⟩ <;>
    simp [htype, hcode, IE_TYPE_TABLET, IE_TYPE_KEY, IE_TABLET_CODE_X, IE_TABLET_CODE_Y]

theorem stepDefault_x (h : isX e = true) : stepDefault screen s e =
    { s with icp := { s.icp with x := e.value }, state := .xpos } := by
  obtain ⟨htype, hcode⟩ := isX_iff.1 h
  simp [stepDefault, htype, hcode, IE_TYPE_SYNC, IE_TYPE_TABLET]

theorem stepDefault_button (h : isButton e = true) :
    (stepDefault screen s e).state = s.state ∧ (stepDefault screen s e).icp = s.icp ∧
      (stepDefault screen s e).lmousePressed = decide (e.value = IE_KEY_VALUE_PRESS) := by
  obtain ⟨htype, hcode⟩ := isButton_iff.1 h
  by_cases hpress : e.value = IE_KEY_VALUE_PRESS
  · simp [stepDefault, htype, hcode, hpress, IE_TYPE_SYNC, IE_TYPE_TABLET, IE_TYPE_KEY, press_eq]
  · simp [stepDefault, htype, hcode, hpress, IE_TYPE_SYNC, IE_TYPE_TABLET, IE_TYPE_KEY]

theorem stepDefault_other (hx : isX e = false) (hbutton : isButton e = false) :
    stepDefault screen s e = s := by
  rw [← Bool.not_eq_true, isX_iff, not_and] at hx
  rw [← Bool.not_eq_true, isButton_iff, not_and] at hbutton
  unfold stepDefault
  split_ifs <;> first | rfl | simp_all

theorem stepXpos_y (h : isY e = true) : (stepXpos screen s e).state = .ypos ∧
    (stepXpos screen s e).icp = ⟨s.icp.x, e.value⟩ ∧
      (stepXpos screen s e).lmousePressed = s.lmousePressed := by
  obtain ⟨htype, hcode⟩ := isY_iff.1 h
  unfold stepXpos
  dsimp only
  rw [if_pos htype, if_pos hcode]
  split_ifs <;> exact ⟨rfl, rfl, rfl⟩

theorem stepXpos_other (h : isY e = false) : stepXpos screen s e = s := by
  rw [← Bool.not_eq_true, isY_iff, not_and] at h
  unfold stepXpos
  by_cases htype : e.type = IE_TYPE_TABLET
  · rw [if_pos htype, if_neg (h htype)]
  · rw [if_neg htype]

theorem Exact.keep {s' : PaintState} (h : Exact s seen) (hicp : s'.icp = s.icp)
    (hpressed : s'.lmousePressed = s.lmousePressed) : Exact s' seen :=
  ⟨hicp ▸ h.x, hicp ▸ h.y, hpressed.trans h.button⟩

theorem Exact.take {s' : PaintState} (h : Exact s seen)
    (hx : s'.icp.x = if isX e then e.value else s.icp.x)
    (hy : s'.icp.y = if isY e then e.value else s.icp.y)
    (hbutton : s'.lmousePressed =
      if isButton e then decide (e.value = IE_KEY_VALUE_PRESS) else s.lmousePressed) :
    Exact s' (seen ++ [e]) := by
  refine ⟨?_, ?_, ?_⟩
  · rw [hx, lastValue_snoc, h.x]
  · rw [hy, lastValue_snoc, h.y]
  · rw [hbutton, lastValue_snoc, h.button]
    cases isButton e <;> rfl

/-- The program takes what the cursor waits for. -/
theorem step_exact (hstate : s.state = mode.state) (h : Exact s seen) :
    (step screen s e).state = (mode.next e).state ∧
      Exact (step screen s e) (if mode.takes e then seen ++ [e] else seen) := by
  obtain ⟨hkinds, hkinds', hkinds''⟩ := kinds_apart (e := e)
  cases mode with
  | idle =>
    have hstep : step screen s e = stepDefault screen s e := by rw [step, hstate]; rfl
    rw [hstep, Mode.next, Mode.takes]
    cases hx : isX e with
    | true =>
      obtain ⟨hy, hbutton⟩ := hkinds hx
      rw [stepDefault_x hx]
      exact ⟨rfl, h.take (by rw [hx]; rfl) (by rw [hy]; rfl) (by rw [hbutton]; rfl)⟩
    | false =>
      cases hbutton : isButton e with
      | true =>
        obtain ⟨-, hy⟩ := hkinds'' hbutton
        obtain ⟨hs, hicp, hpressed⟩ := @stepDefault_button screen s e hbutton
        exact ⟨hs.trans hstate,
          h.take (by rw [hx, hicp]; rfl) (by rw [hy, hicp]; rfl) (by rw [hbutton, hpressed]; rfl)⟩
      | false =>
        rw [stepDefault_other hx hbutton]
        exact ⟨hstate, h⟩
  | afterX =>
    have hstep : step screen s e = stepXpos screen s e := by rw [step, hstate]; rfl
    rw [hstep, Mode.next, Mode.takes]
    cases hy : isY e with
    | true =>
      obtain ⟨hx, hbutton⟩ := hkinds' hy
      obtain ⟨hs, hicp, hpressed⟩ := @stepXpos_y screen s e hy
      exact ⟨hs, h.take (by rw [hx, hicp]; rfl) (by rw [hy, hicp]; rfl)
        (by rw [hbutton, hpressed]; rfl)⟩
    | false =>
      rw [stepXpos_other hy]
      exact ⟨hstate, h⟩
  | afterY =>
    have hstep : step screen s e = stepExpectSync s e := by rw [step, hstate]; rfl
    rw [hstep, Mode.next, Mode.takes, stepExpectSync, isSync]
    by_cases hsync : e.type = IE_TYPE_SYNC
    · rw [if_pos hsync, decide_eq_true hsync]
      exact ⟨rfl, h.keep rfl rfl⟩
    · rw [if_neg hsync, decide_eq_false hsync]
      exact ⟨hstate, h⟩

/-! ## Streams of events -/

theorem foldl_exact (hstate : s.state = mode.state) (h : Exact s seen) :
    Exact (events.foldl (step screen) s) (seen ++ taken mode events) := by
  induction events generalizing s mode seen with
  | nil => rwa [taken, List.append_nil]
  | cons e events ih =>
    obtain ⟨hs, hexact⟩ := @step_exact screen s e mode seen hstate h
    have hrest := ih hs hexact
    rw [List.foldl_cons, taken]
    cases htakes : mode.takes e with
    | true =>
      rw [htakes, if_pos rfl, List.append_assoc] at hrest
      exact hrest
    | false =>
      rw [htakes, if_neg Bool.false_ne_true] at hrest
      exact hrest

theorem initial_exact : Exact initial [] := ⟨rfl, rfl, rfl⟩

theorem paint_exact : Exact (paint screen events) (taken .idle events) :=
  foldl_exact rfl initial_exact

/-- The events that say something about the cursor. -/
def moves (e : InputEvent) : Bool := isX e || isY e || isButton e

theorem lastValue_moves (hkind : ∀ e, kind e = true → moves e = true) :
    lastValue kind (events.filter moves) = lastValue kind events := by
  have hfilter : (events.filter moves).filter kind = events.filter kind := by
    rw [List.filter_filter]
    refine List.filter_congr fun e _ => ?_
    cases he : kind e with
    | true => rw [hkind e he, Bool.true_and]
    | false => rw [Bool.false_and]
  rw [lastValue, hfilter, lastValue]

/-- All events put the cursor where those that move it do. -/
theorem exact_moves (h : Exact s (events.filter moves)) : Exact s events := by
  obtain ⟨hx, hy, hbutton⟩ := h
  rw [lastValue_moves fun e he => by simp [moves, he]] at hx hy hbutton
  exact ⟨hx, hy, hbutton⟩

theorem loop_eq (rings : List IeRingBuffer) :
    loop screen rings = paint screen (rings.flatMap (popped 50)) := by
  rw [paint, List.foldl_flatMap]
  rfl

/-! ### What a tablet sends -/

inductive Packet
  | motion (x y : Word) (gap : ℕ)
  | key (code : BitVec 16) (value : Word)
  | sync

/-- A ring that is empty between the two halves of a motion delivers a `gap` of zeros. -/
def Packet.sent : Packet → List InputEvent
  | motion x y gap => ⟨IE_TYPE_TABLET, IE_TABLET_CODE_X, x⟩ :: List.replicate gap .zero ++
      [⟨IE_TYPE_TABLET, IE_TABLET_CODE_Y, y⟩, .zero]
  | key code value => [⟨IE_TYPE_KEY, code, value⟩]
  | sync => [.zero]

theorem taken_gap (gap : ℕ) : taken .afterX (List.replicate gap .zero ++ events) =
    taken .afterX events := by
  induction gap with
  | zero => rfl
  | succ gap ih =>
    rw [List.replicate_succ, List.cons_append]
    exact ih

theorem filter_gap (gap : ℕ) : (List.replicate gap InputEvent.zero).filter moves = [] := by
  rw [List.filter_replicate_of_neg (by decide)]

theorem taken_packet (packet : Packet) :
    taken .idle (packet.sent ++ events) = packet.sent.filter moves ++ taken .idle events := by
  cases packet with
  | motion x y gap =>
    have hsent : (Packet.motion x y gap).sent.filter moves =
        [⟨IE_TYPE_TABLET, IE_TABLET_CODE_X, x⟩, ⟨IE_TYPE_TABLET, IE_TABLET_CODE_Y, y⟩] := by
      rw [Packet.sent, List.filter_append, List.filter_cons_of_pos rfl, filter_gap]
      rfl
    rw [hsent, Packet.sent, List.append_assoc, List.cons_append]
    exact congrArg (_ :: ·) (taken_gap gap)
  | key code value =>
    by_cases hcode : code = IE_KEY_CODE_BUTTON_LMOUSE
    · subst hcode
      rfl
    · have hbutton : isButton ⟨IE_TYPE_KEY, code, value⟩ = false :=
        decide_eq_false fun h => hcode h.2
      have hmoves : moves ⟨IE_TYPE_KEY, code, value⟩ = false := hbutton
      have htakes : Mode.takes .idle ⟨IE_TYPE_KEY, code, value⟩ = false := hbutton
      rw [Packet.sent, List.filter_cons_of_neg (by rw [hmoves]; exact Bool.false_ne_true)]
      exact if_neg (by rw [htakes]; exact Bool.false_ne_true)
  | sync => rfl

/-- Of packets nothing is discarded. -/
theorem packets_exact (packets : List Packet) :
    Exact (paint screen (packets.flatMap Packet.sent)) (packets.flatMap Packet.sent) := by
  refine exact_moves ?_
  have htaken : taken .idle (packets.flatMap Packet.sent) =
      (packets.flatMap Packet.sent).filter moves := by
    induction packets with
    | nil => rfl
    | cons packet packets ih =>
      rw [List.flatMap_cons, taken_packet, ih, List.filter_append]
  exact htaken ▸ paint_exact

/-- The cursor is exact with respect to the events that the loop takes, thus with respect to all
events where it takes all that say something. -/
theorem cursor_exact (screen : Screen) (events : List InputEvent) :
    Exact (paint screen events) (taken .idle events) ∧
    (taken .idle events = events.filter moves → Exact (paint screen events) events) ∧
    ∀ rings, loop screen rings = paint screen (rings.flatMap (popped 50)) :=
  ⟨paint_exact, fun h => exact_moves (h ▸ paint_exact), loop_eq⟩

def blankScreen : Screen := ⟨fun _ _ => 0, 800, 600⟩

theorem cursor_exact_motion :
    Exact (paint blankScreen [⟨3, 0, 7⟩, ⟨3, 1, 9⟩, .zero]) [⟨3, 0, 7⟩, ⟨3, 1, 9⟩, .zero] :=
  (cursor_exact blankScreen [⟨3, 0, 7⟩, ⟨3, 1, 9⟩, .zero]).2.1 (by decide)

/-- A `y` without an `x` in front of it is skipped. -/
theorem y_skipped : ¬ Exact (paint blankScreen [⟨3, 1, 7⟩, .zero]) [⟨3, 1, 7⟩, .zero] := fun h =>
  absurd h.y (by decide)

end Paint
