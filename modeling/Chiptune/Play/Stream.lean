import Chiptune.Play.Sequencer

/-!
# Streams

A stream hands out the bytes of a song. It makes up to two seconds of them ahead, and tops up when
more than one second has been taken, or when it holds less than is asked for. A song is also written
whole, second by second, with its loops limited.

* `read_isOk_iff`: which reads are answered.
* `read_of_atEnd`: at the end every read is refused.
-/

namespace Chiptune

/-- Why a stream gives nothing. -/
inductive StreamFault where
  | range (fault : RangeFault)
  | endOfStream
  /-- The receiver refused a chunk. -/
  | sink (text : String)
  deriving DecidableEq, Repr, Inhabited

def StreamFault.message : StreamFault → String
  | .range fault => fault.message
  | .endOfStream => "end of stream reached"
  | .sink text => "failed to write PCM data: " ++ text

/-- A receiver of chunks. -/
structure Sink where
  /-- Chunks that it still takes, if that is limited. -/
  room : Option Nat
  /-- What it says when it takes no more. -/
  refusal : String
  deriving DecidableEq, Repr, Inhabited

namespace Sink

def endless : Sink :=
  ⟨none, ""⟩

def isFull (k : Sink) : Bool :=
  k.room = some 0

def fed (k : Sink) : Sink :=
  { k with room := k.room.map (· - 1) }

theorem isFull_of_endless {k : Sink} (h : k.room = none) : k.isFull = false := by
  simp [isFull, h]

theorem fed_of_endless {k : Sink} (h : k.room = none) : k.fed = k := by
  rw [fed, h, Option.map_none, ← h]

end Sink

/-- A song while its bytes are handed out. -/
structure Stream where
  songIndex : Nat
  sequencer : Sequencer
  /-- Bytes made and not yet handed out. -/
  pending : Array UInt8
  /-- Bytes handed out since the start. -/
  consumed : Nat
  /-- Whether anything was made since the start. -/
  primed : Bool

namespace Stream

/-- The longest read in milliseconds. -/
def longestRead : Nat := 1000

/-- The most loops of one write. -/
def mostLoops : Nat := 100

/-- A stream of a song at its start. -/
def start (score : Score) (index : Nat) (setup : Setup) : Except RangeFault Stream :=
  (Sequencer.start score index setup).map fun sequencer =>
    { songIndex := index, sequencer, pending := #[], consumed := 0, primed := false }

/-- The stream at the start of its song, with nothing made. -/
def reset (s : Stream) : Stream :=
  { s with sequencer := s.sequencer.reset, pending := #[], consumed := 0, primed := false }

/-- Bytes in a frame. -/
def frameSize (s : Stream) : Nat :=
  s.sequencer.setup.frameSize

/-- Bytes in a second. -/
def secondSize (s : Stream) : Nat :=
  s.sequencer.setup.rate * s.frameSize

/-- The most bytes made ahead. -/
def capacity (s : Stream) : Nat :=
  2 * s.secondSize

def loops (s : Stream) : Nat :=
  s.sequencer.progress.loops

/-- Bytes of the whole song, once that is known. -/
def endBytes (s : Stream) : Option Nat :=
  s.sequencer.endFrame.map (· * s.frameSize)

def atEnd (s : Stream) : Bool :=
  s.endBytes = some s.consumed

/-- Up to `n` more frames of a song, put after some bytes. -/
def renderInto (looping : Bool) : Nat → Sequencer → Array UInt8 → Sequencer × Array UInt8
  | 0, q, out => (q, out)
  | n + 1, q, out =>
    match q.renderFrame looping with
    | none => (q, out)
    | some (frame, q) => renderInto looping n q (out ++ frame.bytes)

def fill (looping : Bool) (s : Stream) : Stream :=
  let n := (s.capacity - s.pending.size) / s.frameSize
  let (sequencer, pending) := renderInto looping n s.sequencer s.pending
  { s with sequencer, pending, primed := true }

/-- Bytes of the frames of some milliseconds; a frame that is begun counts. -/
def wanted (s : Stream) (ms : Nat) : Nat :=
  (s.sequencer.setup.rate * ms + 999) / 1000 * s.frameSize

/-- Whether the stream is filled up before a read of some bytes. -/
def isLow (s : Stream) (wanted : Nat) : Bool :=
  !s.primed || s.secondSize < s.capacity - s.pending.size || s.pending.size < wanted

/-- The first bytes of the stream, at most as many as are given, and the stream without them. -/
def take (s : Stream) (n : Nat) : Array UInt8 × Stream :=
  let data := s.pending.take n
  (data, { s with pending := s.pending.drop n, consumed := s.consumed + data.size })

/-- The signed bytes of the next milliseconds, fewer near the end. -/
def read (s : Stream) (ms : Nat) (looping : Bool) : Except StreamFault (Array UInt8 × Stream) :=
  if s.atEnd then .error .endOfStream
  else if longestRead < ms then .error (.range (.readTooLong ms))
  else if ms = 0 then .ok (#[], s)
  else
    let n := s.wanted ms
    let s := if s.isLow n then s.fill looping else s
    .ok (s.take n)

/-- The outcome of writing a song. -/
structure Written where
  /-- The chunks that the receiver took. -/
  chunks : List (Array UInt8)
  /-- Why it ended early, if it did. -/
  fault : Option StreamFault
  stream : Stream

/-- The rest of a song, a second at a time, as far as the receiver takes it. A song that never comes to
its end has no outcome. -/
def drain (unsigned : Bool) (sink : Sink) (s : Stream) : Option Written :=
  if s.atEnd then some ⟨[], none, s⟩
  else match s.read longestRead true with
    | .error fault => some ⟨[], some fault, s⟩
    | .ok (data, s) =>
      -- a refused chunk has left the stream all the same
      if sink.isFull then some ⟨[], some (.sink sink.refusal), s⟩
      else do
        let rest ← s |>.drain unsigned sink.fed
        return { rest with chunks := (if unsigned then toUnsigned data else data) :: rest.chunks }
partial_fixpoint

/-- The stream with its loops limited, or not. -/
def limited (s : Stream) (limit : Option Nat) : Stream :=
  { s with sequencer := s.sequencer.setLoopLimit limit }

/-- The song written to a receiver, with at most the given number of loops, from the start or from
where the stream is. The streams of a score always come to their end. For any other, a write that does
not end stands as one that wrote nothing; so what is told of a write says as well that `drain` has an
outcome. -/
def write (s : Stream) (loops : Nat) (fromStart unsigned : Bool) (sink : Sink) : Written :=
  if mostLoops < loops then ⟨[], some (.range (.loopLimit loops)), s⟩
  else
    let s := (if fromStart then s.reset else s).limited (some loops)
    let w := (s.drain unsigned sink).getD ⟨[], none, s⟩
    { w with stream := w.stream.limited none }

def Written.pcm (w : Written) : Array UInt8 :=
  w.chunks.foldl (· ++ ·) #[]

/-- The bytes of a song that nothing kept from being written. -/
def Written.whole (w : Written) : Except StreamFault (Array UInt8) :=
  match w.fault with
  | some fault => .error fault
  | none => .ok w.pcm

/-- At the end every read is refused, however long. -/
theorem read_of_atEnd {s : Stream} (h : s.atEnd) (ms : Nat) (looping : Bool) :
    s.read ms looping = .error .endOfStream := by
  simp [read, h]

/-- A read is refused exactly at the end or past the longest read. -/
theorem read_isOk_iff (s : Stream) (ms : Nat) (looping : Bool) :
    (s.read ms looping).isOk = true ↔ s.atEnd = false ∧ ms ≤ longestRead := by
  unfold read
  split
  · simp_all [Except.isOk, Except.toBool]
  · split
    · simp [Except.isOk, Except.toBool]
      omega
    · split <;> simp_all [Except.isOk, Except.toBool]

end Stream

end Chiptune
