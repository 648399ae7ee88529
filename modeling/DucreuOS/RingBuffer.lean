import DucreuOS.Library.CircularBuffer

/-! # The ring buffer of input events

`ie_ring_buffer_push` and `ie_ring_buffer_pop`, in 32-bit arithmetic, and the bounded queue they
implement. The mutexes of the buffer and the console messages are not modelled. -/
namespace RingBuffer

open CircularBuffer

abbrev Word := BitVec 32

structure InputEvent where
  type : BitVec 16
  code : BitVec 16
  value : Word
  deriving DecidableEq

/-- `input_event_t ev = {0,0,0}` -/
def InputEvent.zero : InputEvent := ⟨0, 0, 0⟩

def RB_OVERWRITE : Word := 0
def RB_IGNORE : Word := 1
def RB_ASK_FOR_MANAGER : Word := 2

/-- `ie_ring_buffer_t` -/
structure IeRingBuffer where
  start : Word
  occupied : Word
  capacity : Word
  behavior : Word
  elements : ℕ → InputEvent

/-- `elements` is what `kmalloc` returns. -/
def ieRingBufferInit (elements : ℕ → InputEvent) (size behavior : Word) : IeRingBuffer :=
  ⟨0, 0, size, behavior, elements⟩

namespace IeRingBuffer

/-- `rb->elements[(rb->start + rb->occupied) % rb->capacity] = ev` -/
def store (rb : IeRingBuffer) (ev : InputEvent) : IeRingBuffer :=
  { rb with
    elements := Function.update rb.elements ((rb.start + rb.occupied) % rb.capacity).toNat ev }

/-- `rb->start = (rb->start + 1) % rb->capacity` -/
def advance (rb : IeRingBuffer) : IeRingBuffer :=
  { rb with start := (rb.start + 1) % rb.capacity }

def push (rb : IeRingBuffer) (ev : InputEvent) : Int × IeRingBuffer :=
  if rb.occupied = rb.capacity then
    if rb.behavior = RB_OVERWRITE then (0, (rb.store ev).advance)
    else if rb.behavior = RB_IGNORE then (0, rb)
    else if rb.behavior = RB_ASK_FOR_MANAGER then (1, { rb with start := 0, occupied := 0 })
    else (2, rb)
  else (0, { rb.store ev with occupied := rb.occupied + 1 })

def pop (rb : IeRingBuffer) : InputEvent × IeRingBuffer :=
  if rb.occupied = 0 then (.zero, rb)
  else (rb.elements rb.start.toNat, { rb.advance with occupied := rb.occupied - 1 })

end IeRingBuffer

/-! ## The bounded queue -/

/-- A queue of at most `capacity` events, the oldest first. -/
structure Queue where
  capacity : ℕ
  behavior : Word
  events : List InputEvent
  bounded : events.length ≤ capacity

namespace Queue

def empty (capacity : ℕ) (behavior : Word) : Queue := ⟨capacity, behavior, [], Nat.zero_le _⟩

def push (q : Queue) (ev : InputEvent) : Int × Queue :=
  if hfull : q.events.length = q.capacity then
    if q.behavior = RB_OVERWRITE then
      (0, { q with
        events := (q.events ++ [ev]).tail
        bounded := by simp [hfull] })
    else if q.behavior = RB_IGNORE then (0, q)
    else if q.behavior = RB_ASK_FOR_MANAGER then
      (1, { q with events := [], bounded := Nat.zero_le _ })
    else (2, q)
  else (0, { q with
    events := q.events ++ [ev]
    bounded := by
      rw [List.length_append]
      exact Nat.lt_of_le_of_ne q.bounded hfull })

def pop (q : Queue) : InputEvent × Queue :=
  (q.events.head?.getD .zero,
    { q with events := q.events.tail, bounded := (by
      rw [List.length_tail]
      exact (Nat.sub_le _ 1).trans q.bounded) })

end Queue

/-! ## Refinement -/

/-- The buffer holds the queue, from `start` on. -/
structure Represents (rb : IeRingBuffer) (q : Queue) : Prop where
  positive : 0 < q.capacity
  small : q.capacity ≤ 2 ^ 31
  capacity : rb.capacity.toNat = q.capacity
  behavior : rb.behavior = q.behavior
  occupied : rb.occupied.toNat = q.events.length
  start_lt : rb.start.toNat < q.capacity
  events : window rb.elements q.capacity rb.start.toNat q.events.length = q.events

variable {rb : IeRingBuffer} {q : Queue}

theorem represents_init (elements : ℕ → InputEvent) {c : Word} (behavior : Word)
    (hc : 0 < c.toNat) (hc' : c.toNat ≤ 2 ^ 31) :
    Represents (ieRingBufferInit elements c behavior) (.empty c.toNat behavior) :=
  ⟨hc, hc', rfl, rfl, rfl, hc, rfl⟩

/-- No index computation leaves the 32 bits. -/
theorem Represents.place (h : Represents rb q) (n : Word) (hn : n.toNat ≤ q.capacity) :
    ((rb.start + n) % rb.capacity).toNat = (rb.start.toNat + n.toNat) % q.capacity := by
  have := h.small
  have := h.start_lt
  have hsum : rb.start.toNat + n.toNat < 2 ^ 32 := by omega
  rw [BitVec.toNat_umod, h.capacity, BitVec.toNat_add, Nat.mod_eq_of_lt hsum]

theorem Represents.next (h : Represents rb q) :
    ((rb.start + 1) % rb.capacity).toNat = (rb.start.toNat + 1) % q.capacity :=
  h.place 1 h.positive

theorem Represents.full_iff (h : Represents rb q) :
    rb.occupied = rb.capacity ↔ q.events.length = q.capacity := by
  rw [BitVec.toNat_eq, h.occupied, h.capacity]

/-- A full buffer that is overwritten. -/
theorem Represents.overwrite (h : Represents rb q) (hfull : q.events.length = q.capacity)
    (ev : InputEvent) {events : List InputEvent} (he : events = q.events.tail ++ [ev])
    (hb : events.length ≤ q.capacity) :
    Represents (rb.store ev).advance { q with events := events, bounded := hb } := by
  have hplace : ((rb.start + rb.occupied) % rb.capacity).toNat = rb.start.toNat := by
    rw [h.place _ (by rw [h.occupied, hfull]), h.occupied, hfull, Nat.add_mod_right,
      Nat.mod_eq_of_lt h.start_lt]
  have hlen : events.length = q.capacity := by
    have := h.positive
    rw [he, List.length_append, List.length_tail, hfull, List.length_singleton]
    omega
  constructor
  · exact h.positive
  · exact h.small
  · exact h.capacity
  · exact h.behavior
  · change rb.occupied.toNat = events.length
    rw [h.occupied, hfull, hlen]
  · change ((rb.start + 1) % rb.capacity).toNat < q.capacity
    rw [h.next]
    exact Nat.mod_lt _ h.positive
  · change window (Function.update rb.elements _ ev) q.capacity
      ((rb.start + 1) % rb.capacity).toNat events.length = events
    have hevents := h.events
    rw [hfull] at hevents
    rw [hplace, h.next, hlen, window_rotate h.start_lt, hevents, he]

/-- A buffer with room. -/
theorem Represents.append (h : Represents rb q) (hroom : q.events.length < q.capacity)
    (ev : InputEvent) (hb : (q.events ++ [ev]).length ≤ q.capacity) :
    Represents { rb.store ev with occupied := rb.occupied + 1 }
      { q with events := q.events ++ [ev], bounded := hb } := by
  have hsmall := h.small
  constructor
  · exact h.positive
  · exact hsmall
  · exact h.capacity
  · exact h.behavior
  · change (rb.occupied + 1).toNat = (q.events ++ [ev]).length
    rw [BitVec.toNat_add, h.occupied, List.length_append, List.length_singleton]
    change (q.events.length + 1) % 2 ^ 32 = _
    rw [Nat.mod_eq_of_lt (by omega)]
  · exact h.start_lt
  · change window (Function.update rb.elements _ ev) q.capacity rb.start.toNat _ = _
    rw [h.place _ (by rw [h.occupied]; exact hroom.le), h.occupied, List.length_append,
      List.length_singleton, window_append hroom, h.events]

/-- One push, in the buffer and in the queue. -/
theorem Represents.push (h : Represents rb q) (ev : InputEvent) :
    (rb.push ev).1 = (q.push ev).1 ∧
      Represents (rb.push ev).2 (q.push ev).2 := by
  by_cases hfull : q.events.length = q.capacity
  · simp only [IeRingBuffer.push, Queue.push, if_pos (h.full_iff.2 hfull),
      dif_pos hfull, h.behavior]
    by_cases hover : q.behavior = RB_OVERWRITE
    · rw [if_pos hover, if_pos hover]
      have hne : q.events ≠ [] := by
        intro he
        have := h.positive
        rw [he, List.length_nil] at hfull
        omega
      exact ⟨rfl, h.overwrite hfull ev (List.tail_append_of_ne_nil hne) _⟩
    · rw [if_neg hover, if_neg hover]
      by_cases hignore : q.behavior = RB_IGNORE
      · rw [if_pos hignore, if_pos hignore]
        exact ⟨rfl, h⟩
      · rw [if_neg hignore, if_neg hignore]
        by_cases hask : q.behavior = RB_ASK_FOR_MANAGER
        · rw [if_pos hask, if_pos hask]
          exact ⟨rfl, h.positive, h.small, h.capacity, rfl, rfl, h.positive, rfl⟩
        · rw [if_neg hask, if_neg hask]
          exact ⟨rfl, h⟩
  · simp only [IeRingBuffer.push, Queue.push, if_neg (mt h.full_iff.1 hfull),
      dif_neg hfull]
    exact ⟨trivial, h.append (Nat.lt_of_le_of_ne q.bounded hfull) ev _⟩

/-- One pop, in the buffer and in the queue. -/
theorem Represents.pop (h : Represents rb q) :
    rb.pop.1 = q.pop.1 ∧ Represents rb.pop.2 q.pop.2 := by
  obtain ⟨c, behavior, events, hb⟩ := q
  cases events with
  | nil =>
    have hempty : rb.occupied = 0 := BitVec.eq_of_toNat_eq h.occupied
    simp only [IeRingBuffer.pop, if_pos hempty]
    exact ⟨rfl, h⟩
  | cons ev events =>
    have hocc : rb.occupied.toNat = events.length + 1 := h.occupied
    have hne : rb.occupied ≠ 0 := by
      intro h0
      rw [h0] at hocc
      exact absurd hocc (by simp)
    have hwindow : rb.elements rb.start.toNat ::
        window rb.elements c ((rb.start.toNat + 1) % c) events.length = ev :: events := by
      rw [← window_succ h.start_lt]
      exact h.events
    obtain ⟨hev, hrest⟩ := List.cons.inj hwindow
    simp only [IeRingBuffer.pop, if_neg hne]
    refine ⟨hev, h.positive, h.small, h.capacity, h.behavior, ?_, ?_, ?_⟩
    · change (rb.occupied - 1).toNat = events.length
      have := rb.occupied.isLt
      rw [BitVec.toNat_sub_of_le, hocc]
      · rfl
      · rw [BitVec.le_def, hocc]
        exact Nat.le_add_left 1 _
    · change ((rb.start + 1) % rb.capacity).toNat < c
      rw [h.next]
      exact Nat.mod_lt _ h.positive
    · change window rb.elements c ((rb.start + 1) % rb.capacity).toNat events.length = events
      rw [h.next]
      exact hrest

inductive Call
  | push (ev : InputEvent)
  | pop

/-- What a call returns. -/
inductive Result
  | code (c : Int)
  | event (ev : InputEvent)
  deriving DecidableEq

def IeRingBuffer.call (rb : IeRingBuffer) : Call → Result × IeRingBuffer
  | .push ev => (.code (rb.push ev).1, (rb.push ev).2)
  | .pop => (.event rb.pop.1, rb.pop.2)

def Queue.call (q : Queue) : Call → Result × Queue
  | .push ev => (.code (q.push ev).1, (q.push ev).2)
  | .pop => (.event q.pop.1, q.pop.2)

/-- The results of some calls one after the other, and the state after them. -/
def run {σ : Type} (call : σ → Call → Result × σ) : σ → List Call → List Result × σ
  | s, [] => ([], s)
  | s, c :: cs =>
    let (r, s) := call s c
    let (rs, s) := run call s cs
    (r :: rs, s)

theorem Represents.call (h : Represents rb q) (c : Call) :
    (rb.call c).1 = (q.call c).1 ∧ Represents (rb.call c).2 (q.call c).2 := by
  cases c with
  | push ev =>
    obtain ⟨hr, hs⟩ := h.push ev
    exact ⟨congrArg Result.code hr, hs⟩
  | pop =>
    obtain ⟨hr, hs⟩ := h.pop
    exact ⟨congrArg Result.event hr, hs⟩

theorem Represents.run (h : Represents rb q) (calls : List Call) :
    (run IeRingBuffer.call rb calls).1 = (run Queue.call q calls).1 ∧
      Represents (run IeRingBuffer.call rb calls).2 (run Queue.call q calls).2 := by
  induction calls generalizing rb q with
  | nil => exact ⟨rfl, h⟩
  | cons c calls ih =>
    obtain ⟨hr, hs⟩ := h.call c
    obtain ⟨hrs, hss⟩ := ih hs
    exact ⟨by simp only [RingBuffer.run, hr, hrs], hss⟩

theorem capacity_call (rb : IeRingBuffer) (c : Call) : (rb.call c).2.capacity = rb.capacity := by
  cases c with
  | push ev =>
    simp only [IeRingBuffer.call, IeRingBuffer.push]
    split_ifs <;> rfl
  | pop =>
    simp only [IeRingBuffer.call, IeRingBuffer.pop]
    split_ifs <;> rfl

theorem capacity_run (rb : IeRingBuffer) (calls : List Call) :
    (run IeRingBuffer.call rb calls).2.capacity = rb.capacity := by
  induction calls generalizing rb with
  | nil => rfl
  | cons c calls ih => exact (ih _).trans (capacity_call rb c)

/-- Every sequence of pushes and pops returns what the bounded queue returns, and leaves its
events in the buffer. -/
theorem ring_refines_queue (elements : ℕ → InputEvent) (c behavior : Word) (hc : 1 ≤ c.toNat)
    (hc' : c.toNat ≤ 2 ^ 31) (calls : List Call) :
    let rb := (run IeRingBuffer.call (ieRingBufferInit elements c behavior) calls).2
    let q := (run Queue.call (.empty c.toNat behavior) calls).2
    (run IeRingBuffer.call (ieRingBufferInit elements c behavior) calls).1
        = (run Queue.call (.empty c.toNat behavior) calls).1 ∧
      window rb.elements c.toNat rb.start.toNat rb.occupied.toNat = q.events ∧
      rb.start.toNat < c.toNat ∧ rb.occupied.toNat ≤ c.toNat ∧ rb.capacity = c := by
  intro rb q
  obtain ⟨hr, hs⟩ := (represents_init elements behavior hc hc').run calls
  have hcap : q.capacity = c.toNat ∧ rb.capacity = c := by
    have hkeep : rb.capacity = c := capacity_run _ calls
    exact ⟨by rw [← hs.capacity]; exact congrArg BitVec.toNat hkeep, hkeep⟩
  have hevents := hs.events
  have hstart := hs.start_lt
  have hbound := q.bounded
  change window rb.elements q.capacity rb.start.toNat q.events.length = q.events at hevents
  change rb.start.toNat < q.capacity at hstart
  have hocc : rb.occupied.toNat = q.events.length := hs.occupied
  rw [hcap.1] at hevents hstart hbound
  exact ⟨hr, by rw [hocc]; exact hevents, hstart, by rw [hocc]; exact hbound, hcap.2⟩

/-- One cell, overwritten: the older event is lost. -/
theorem ring_refines_queue_one :
    let calls := [.push ⟨1, 2, 3⟩, .push ⟨4, 5, 6⟩, .pop, .pop]
    (run IeRingBuffer.call (ieRingBufferInit (fun _ => .zero) 1 RB_OVERWRITE) calls).1
        = (run Queue.call (.empty 1 RB_OVERWRITE) calls).1 ∧
      (run Queue.call (.empty 1 RB_OVERWRITE) calls).1
        = [.code 0, .code 0, .event ⟨4, 5, 6⟩, .event .zero] := by
  intro calls
  have h := ring_refines_queue (fun _ => .zero) 1 RB_OVERWRITE (by decide) (by decide) calls
  exact ⟨h.1, by decide⟩

end RingBuffer
