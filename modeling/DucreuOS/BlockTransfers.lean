import DucreuOS.Library.ByteMemory
import DucreuOS.VirtioPolling

/-! # Transfers of whole blocks and of arbitrary bytes

`block_read_write` with polling, as its callers see it: the range checks, the polling loop over
what the device does meanwhile, and what is transferred. `block_read_arbitrary` and
`block_write_arbitrary` go through a bounce buffer of whole blocks. -/
namespace BlockTransfers

open ByteMemory VirtioPolling

def QUEUE_SIZE : ℕ := 256

def VIRTIO_BLOCK_STATUS_OK : Byte := 0
/-- What the device makes of one request: the queue as each round of the polling loop finds it,
the status byte the device writes when it completes the request, and the bytes that a request
which has not been satisfied leaves in its range. -/
structure Response where
  request : ℕ
  queue : ℕ → Queue
  status : Byte
  data : ℕ → Byte
  grows (n : ℕ) : request ∈ (queue n).completed → request ∈ (queue (n + 1)).completed

/-- By this round the device has completed the request, with status OK. -/
def Response.Ok (rs : Response) (n : ℕ) : Prop :=
  rs.request ∈ (rs.queue n).completed ∧ rs.status = VIRTIO_BLOCK_STATUS_OK

instance (rs : Response) (n : ℕ) : Decidable (rs.Ok n) :=
  inferInstanceAs (Decidable (_ ∧ _))

/-- The polling loop from round `n` on, for at most `rounds` of them: the round that ends it. -/
def pollLoop (rs : Response) : (rounds n lookahead_idx : ℕ) → Option ℕ
  | 0, _, _ => none
  | rounds + 1, n, lookahead_idx =>
    match pollRound .block QUEUE_SIZE (rs.queue n) rs.request lookahead_idx with
    | .polling lookahead_idx => pollLoop rs rounds (n + 1) lookahead_idx
    | _ => some n

/-- The array of devices: `num_block_devices` and the `block_size` of each. -/
structure Devices where
  num : ℕ
  blockSize : ℕ → BitVec 32

structure Transfer where
  buffer : ℕ
  startByte : BitVec 64
  endByte : BitVec 64
  writeRequest : Bool
  deriving DecidableEq

/-- The bytes of the device and the kernel's memory; `requests` is the history of what has been
put on the queue. -/
structure World where
  disk : Mem
  memory : Mem
  requests : List Transfer

/-- `ret` is `none` while the call polls. -/
structure Result where
  ret : Option ℕ
  world : World

/-- The error `block_read_write` returns for its range, if any. -/
def checkRange (block_size : BitVec 32) (start_byte end_byte : BitVec 64) : Option ℕ :=
  -- an `int` there, which is widened with its sign
  let block_size := block_size.signExtend 64
  if start_byte % block_size ≠ 0 then some 1
  else if end_byte % block_size ≠ 0 then some 1
  else if start_byte > end_byte then some 2
  else if start_byte = end_byte then some 3
  else none

/-- What is in memory or on the device when the loop ends in round `n`: a satisfied request has
transferred the bytes of its range. -/
def transfer (rs : Response) (n : ℕ) (t : Transfer) (w : World) : World :=
  let len := (t.endByte - t.startByte).toNat
  if t.writeRequest then
    let data := if rs.Ok n then window w.memory t.buffer else rs.data
    { w with disk := blit w.disk t.startByte.toNat len data }
  else
    let data := if rs.Ok n then window w.disk t.startByte.toNat else rs.data
    { w with memory := blit w.memory t.buffer len data }

section Calls

variable (devs : Devices) (rounds : ℕ)

/-- `block_read_write` with polling, whose loop gets `rounds` rounds. -/
def blockReadWrite (rs : Response) (which_device : ℕ) (t : Transfer) (w : World) : Result :=
  if devs.num ≤ which_device then ⟨some 4, w⟩
  else
    match checkRange (devs.blockSize which_device) t.startByte t.endByte with
    | some code => ⟨some code, w⟩
    | none =>
      let w := { w with requests := w.requests ++ [t] }
      match pollLoop rs rounds 0 (rs.queue 0).acknowledgedIdx.toNat with
      | none => ⟨none, w⟩
      -- the status byte is not looked at
      | some n => ⟨some 0, transfer rs n t w⟩

def blockReadPoll (rs : Response) (dev buffer : ℕ) (start_byte end_byte : BitVec 64) (w : World) :
    Result :=
  blockReadWrite devs rounds rs dev ⟨buffer, start_byte, end_byte, false⟩ w

def blockWritePoll (rs : Response) (dev buffer : ℕ) (start_byte end_byte : BitVec 64) (w : World) :
    Result :=
  blockReadWrite devs rounds rs dev ⟨buffer, start_byte, end_byte, true⟩ w

/-- The blocks around a range, as both functions compute them. -/
def blockReadStart (block_size : BitVec 32) (start : BitVec 64) : BitVec 64 :=
  start / block_size.setWidth 64 * block_size.setWidth 64

def blockReadEnd (block_size : BitVec 32) (start size : BitVec 64) : BitVec 64 :=
  (start + size + block_size.setWidth 64 - 1) / block_size.setWidth 64 * block_size.setWidth 64

/-- Of regions that do not overlap; the size is an `int`, and a negative one copies nothing. -/
def memcpy (memory : Mem) (dst src : ℕ) (size : BitVec 32) : Mem :=
  blit memory dst size.toInt.toNat (window memory src)

/-- `kcalloc`, which has found its block at `tbuffer` -/
def kcalloc (w : World) (tbuffer : ℕ) (size : BitVec 64) : World :=
  { w with memory := fill w.memory tbuffer size.toNat 0 }

def blockReadArbitrary (rs : Response) (dev tbuffer buffer : ℕ) (start size : BitVec 64)
    (w : World) : Result :=
  let block_read_start := blockReadStart (devs.blockSize dev) start
  let block_read_end := blockReadEnd (devs.blockSize dev) start size
  let w := kcalloc w tbuffer (block_read_end - block_read_start)
  match blockReadPoll devs rounds rs dev tbuffer block_read_start block_read_end w with
  | ⟨none, w⟩ => ⟨none, w⟩
  | ⟨some (_ + 1), w⟩ => ⟨some 1, w⟩
  | ⟨some 0, w⟩ =>
    let request_offset := start - block_read_start
    ⟨some 0, { w with
      memory := memcpy w.memory buffer (tbuffer + request_offset.toNat) (size.setWidth 32) }⟩

/-- `rs` answers the read and `rs'` the write, whose loop gets `rounds'` rounds. -/
def blockWriteArbitrary (rounds' : ℕ) (rs rs' : Response) (dev tbuffer buffer : ℕ) (start size : BitVec 64)
    (w : World) : Result :=
  let block_read_start := blockReadStart (devs.blockSize dev) start
  let block_read_end := blockReadEnd (devs.blockSize dev) start size
  let w := kcalloc w tbuffer (block_read_end - block_read_start)
  match blockReadPoll devs rounds rs dev tbuffer block_read_start block_read_end w with
  | ⟨none, w⟩ => ⟨none, w⟩
  | ⟨some (_ + 1), w⟩ => ⟨some 1, w⟩
  | ⟨some 0, w⟩ =>
    let request_offset := start - block_read_start
    let w := { w with
      memory := memcpy w.memory (tbuffer + request_offset.toNat) buffer (size.setWidth 32) }
    match blockWritePoll devs rounds' rs' dev tbuffer block_read_start block_read_end w with
    | ⟨none, w⟩ => ⟨none, w⟩
    | ⟨some (_ + 1), w⟩ => ⟨some 2, w⟩
    | ⟨some 0, w⟩ => ⟨some 0, w⟩

end Calls

/-! ## The polling loop -/

namespace Response

variable (rs : Response)

/-- `lookahead_idx` in round `n` of a loop that has not ended. -/
def lookahead : ℕ → ℕ
  | 0 => (rs.queue 0).acknowledgedIdx.toNat
  | n + 1 => if lookahead n = (rs.queue n).deviceIdx.toNat then lookahead n else lookahead n + 1

/-- In round `n` the used ring has the head of the request where the loop looks. -/
def Shows (n : ℕ) : Prop :=
  rs.lookahead n ≠ (rs.queue n).deviceIdx.toNat ∧
    (rs.queue n).deviceRing (rs.lookahead n % QUEUE_SIZE) = (rs.queue n).head rs.request

/-- Round `n` is the first that shows the request. -/
def ShownAt (n : ℕ) : Prop := rs.Shows n ∧ ∀ m < n, ¬rs.Shows m

/-- The request is completed with status OK when its head is first found in the used ring. -/
def Answered : Prop := ∀ n, rs.ShownAt n → rs.Ok n

variable {rs}

theorem Ok.mono {n m : ℕ} (h : rs.Ok n) (hnm : n ≤ m) : rs.Ok m := by
  refine ⟨?_, h.2⟩
  induction hnm with
  | refl => exact h.1
  | step _ ih => exact rs.grows _ ih

theorem ShownAt.unique {n m : ℕ} (hn : rs.ShownAt n) (hm : rs.ShownAt m) : n = m := by
  rcases Nat.lt_trichotomy n m with h | h | h
  · exact absurd hn.1 (hm.2 n h)
  · exact h
  · exact absurd hm.1 (hn.2 m h)

end Response

variable {rs : Response}

section Status

variable {devs : Devices} {rounds dev : ℕ} {t : Transfer} {w : World}

/-- The call returns an error without a request. -/
def Refused (devs : Devices) (dev : ℕ) (start_byte end_byte : BitVec 64) : Prop :=
  devs.num ≤ dev ∨ (checkRange (devs.blockSize dev) start_byte end_byte).isSome

variable {rs' : Response} {rounds' tbuffer buffer : ℕ} {start size : BitVec 64}

end Status

/-! ## Whole blocks around a range -/

section Ranges

variable {block_size : BitVec 32} {start size : BitVec 64}

/-- The range fits the arithmetic of the code: the sum it rounds up does not wrap, and the block
size is not negative as an `int`. -/
def Fits (block_size : BitVec 32) (start size : BitVec 64) : Prop :=
  block_size.toNat < 2 ^ 31 ∧ start.toNat + size.toNat + block_size.toNat - 1 < 2 ^ 64

end Ranges

/-! ## Bytes of a range -/

section Bytes

variable {devs : Devices} {rounds rounds' dev tbuffer buffer : ℕ} {rs rs' : Response}
  {start size : BitVec 64} {w : World}

/-- Two regions that share no byte. -/
def Apart (a n b k : ℕ) : Prop := a + n ≤ b ∨ b + k ≤ a

theorem memcpy_eq (hsize : size.toNat < 2 ^ 31) (m : Mem) (dst src : ℕ) :
    memcpy m dst src (size.setWidth 32) = blit m dst size.toNat (window m src) := by
  have hset : (size.setWidth 32).toNat = size.toNat := by
    rw [BitVec.toNat_setWidth]
    exact Nat.mod_eq_of_lt (by omega)
  have hint : (size.setWidth 32).toInt.toNat = size.toNat := by
    rw [BitVec.toInt_eq_toNat_of_lt (by omega), hset, Int.toNat_natCast]
  rw [memcpy, hint]

variable (devs dev start size)

variable {devs dev start size}

section Range

variable (hdev : dev < devs.num) (hbs : 1 ≤ (devs.blockSize dev).toNat) (hsize : 1 ≤ size.toNat)
  (hsize' : size.toNat < 2 ^ 31)

include hdev hbs hsize hsize'

end Range

end Bytes

end BlockTransfers
