import Chiptune.Play.Progress
import Chiptune.Play.Track

/-!
# The sequencer

The sequencer makes the frames of a song one after the other. Time is the number of frames so far;
interrupts come at their own rate, and every `speed`-th of them plays a row. Once a row has ended
the song, the sound goes on for the length of one more row. As in the tracks, the way of starting a
channel is left open (`renderFrameBy`), and is `Channel.start` when a song is played (`renderFrame`).

* `renderFrame_eq_none_iff`: frames come until the end is reached.
* `frames_renderFrame`: each frame counts.
-/

namespace Chiptune

/-- A song while it plays. -/
structure Sequencer where
  /-- Everything the song is made of. -/
  score : Score
  song : Song
  setup : Setup
  /-- The four tracks. -/
  tracks : Vector Track 4
  /-- Their channels and the outputs. -/
  mixer : Mixer
  progress : Progress
  frames : Nat
  /-- Interrupts so far, those after the end included. -/
  interrupts : Nat
  /-- Frames in all, once that is known. -/
  endFrame : Option Nat

namespace Sequencer

/-- What is wrong with a song, if anything: its interrupts come before its speed. -/
def songFault? (song : Song) : Option RangeFault :=
  if !(1 ≤ song.interruptRate && song.interruptRate ≤ 200) then
    some (.interruptRate song.interruptRate.toNat)
  else if !(1 ≤ song.speed && song.speed ≤ 16) then some (.songSpeed song.speed.toNat)
  else none

def idleTracks : Vector Track 4 :=
  Vector.ofFn fun i => .idle i

def atStart (score : Score) (song : Song) (setup : Setup) : Sequencer :=
  { score, song, setup, tracks := idleTracks, mixer := .start setup.standard setup.allowFilter,
    progress := .start song, frames := 0, interrupts := 0, endFrame := none }

/-- The song with a number, at its start. Settings are looked at first, then the number. -/
def start (score : Score) (index : Nat) (setup : Setup) : Except RangeFault Sequencer :=
  match setup.validate with
  | some fault => .error fault
  | none => match score.songs[index]? with
    | none => .error (.songIndex index score.songs.size)
    | some song => match songFault? song with
      | some fault => .error fault
      | none => .ok (atStart score song setup)

/-- The song at its start, under the same loop limit. -/
def reset (s : Sequencer) : Sequencer :=
  { s with
    tracks := idleTracks, mixer := s.mixer.reset, progress := s.progress.restart s.song,
    frames := 0, interrupts := 0, endFrame := none }

/-- The song with its loops limited, or not. -/
def setLoopLimit (s : Sequencer) (limit : Option Nat) : Sequencer :=
  { s with progress := { s.progress with loopLimit := limit } }

def isFinished (s : Sequencer) : Bool :=
  s.endFrame.any (· ≤ s.frames)

/-- Whether a number has not fitted its register in some track. A program that checks for overflow has
stopped there; one that does not goes on. -/
def overflowed (s : Sequencer) : Bool :=
  s.tracks.toList.any Track.overflowed

def time (s : Sequencer) : Float :=
  Float.ofNat s.frames / Float.ofNat s.setup.rate

/-- When the next interrupt comes, in seconds. -/
def nextInterrupt (s : Sequencer) : Float :=
  Float.ofNat s.interrupts / Float.ofNat s.song.interruptRate.toNat

/-- Whether an interrupt comes with the next frame. -/
def isInterrupt (s : Sequencer) : Bool :=
  s.nextInterrupt ≤ s.time

/-- Frames of a row at the present speed; a part of a frame does not count. -/
def rowFrames (s : Sequencer) : Nat :=
  (s.song.rowDuration s.progress.speed * Float.ofNat s.setup.rate).toUInt64.toNat

/-- The parts and notes of the next row. -/
def row (s : Sequencer) : Vector (Part × Note) 4 :=
  Vector.ofFn fun i => s.score.row s.progress.place.step i s.progress.place.row

/-- What the next row asks of the whole song. -/
def directives (s : Sequencer) : List Directive :=
  s.row.toList.map fun (_, note) => .ofNote note

section

variable (start : Starter)

/-- Each track and its channel after its part of the next row. -/
def playedBy (s : Sequencer) : Vector (Track × Channel) 4 :=
  Vector.ofFn fun i =>
    let (part, note) := s.row.get i
    let (tr, ch) := (s.tracks.get i).playBy start s.score part note s.time (s.mixer.channels.get i)
    (tr.command note, ch)

def playRowBy (looping : Bool) (s : Sequencer) : Sequencer :=
  let played : Vector (Track × Channel) 4 := s.playedBy start
  let directives := s.directives
  let mixer := directives.foldl (fun m d => Directive.onMixer d m)
    { s.mixer with channels := played.map Prod.snd }
  let progress :=
    { s.progress with speed := directives.foldl (fun n d => Directive.onSpeed d n) s.progress.speed }
  let goal := Directive.lastGoal? directives progress.place.step
  -- the last row lasts as long as the speed says once its own directives have set it
  let s := { s with tracks := played.map Prod.fst, mixer, progress }
  { s with
    progress := progress.turn s.song looping goal
    endFrame := if progress.ends s.song looping goal then some (s.frames + s.rowFrames)
      else s.endFrame }

/-- The song after an interrupt has been counted and, where one is due, a row played. -/
def advanceBy (looping : Bool) (s : Sequencer) : Sequencer :=
  let s' := { s with progress := s.progress.counted }
  if s.progress.isDue then s'.playRowBy start looping else s'

/-- The song with every channel at its place for the present time. A channel that has run past its
bytes is refilled by its track. -/
def seekBy (s : Sequencer) : Sequencer :=
  let t := s.time
  let clock := s.mixer.clock
  let channels := Vector.zipWith (fun (tr : Track) (ch : Channel) =>
    let ch := ch.seek clock t
    if ch.isPastEnd t then (tr.refillBy start s.score t ch).settle clock t else ch)
    s.tracks s.mixer.channels
  { s with mixer := { s.mixer with channels } }

/-- The song after a tick of every track. -/
def tick (s : Sequencer) : Sequencer :=
  let ticked := Vector.zipWith (Track.tick s.score s.progress.speed) s.tracks s.mixer.channels
  { s with
    tracks := ticked.map Prod.fst
    mixer := { s.mixer with channels := ticked.map Prod.snd }
    interrupts := s.interrupts + 1 }

/-- The next frame and the song after it, or `none` at the end. -/
def renderFrameBy (looping : Bool) (s : Sequencer) : Option (Frame × Sequencer) :=
  if s.isFinished then none
  else
    let interrupt := s.isInterrupt
    -- a row is played before the channels move on, its tick sets their registers afterwards
    let s := if interrupt && s.endFrame.isNone then s.advanceBy start looping else s
    let s := s.seekBy start
    let s := if interrupt then s.tick else s
    let (frame, mixer) := s.mixer.render s.setup.outputs
    some (frame, { s with mixer, frames := s.frames + 1 })

end

def played (s : Sequencer) : Vector (Track × Channel) 4 :=
  s.playedBy Channel.start

def playRow (looping : Bool) (s : Sequencer) : Sequencer :=
  s.playRowBy Channel.start looping

def advance (looping : Bool) (s : Sequencer) : Sequencer :=
  s.advanceBy Channel.start looping

def seek (s : Sequencer) : Sequencer :=
  s.seekBy Channel.start

def renderFrame (looping : Bool) (s : Sequencer) : Option (Frame × Sequencer) :=
  s.renderFrameBy Channel.start looping

/-- Frames come until the end is reached. -/
theorem renderFrame_eq_none_iff (looping : Bool) (s : Sequencer) :
    s.renderFrame looping = none ↔ s.isFinished = true := by
  unfold renderFrame renderFrameBy
  split <;> simp_all

theorem playedBy_start (s : Sequencer) : s.playedBy Channel.start = s.played :=
  rfl

/-- An interrupt is counted, and plays a row where one is due. -/
theorem advance_eq (looping : Bool) (s : Sequencer) : s.advance looping =
    if s.progress.isDue then { s with progress := s.progress.counted }.playRow looping
    else { s with progress := s.progress.counted } :=
  rfl

@[simp]
theorem frames_advanceBy (start : Starter) (looping : Bool) (s : Sequencer) :
    (s.advanceBy start looping).frames = s.frames := by
  unfold advanceBy
  split <;> rfl

@[simp]
theorem frames_advance (looping : Bool) (s : Sequencer) : (s.advance looping).frames = s.frames :=
  frames_advanceBy Channel.start looping s

theorem frames_renderFrame {looping : Bool} {s s' : Sequencer} {f : Frame}
    (h : s.renderFrame looping = some (f, s')) : s'.frames = s.frames + 1 := by
  unfold renderFrame renderFrameBy at h
  split at h
  · simp at h
  · obtain ⟨-, rfl⟩ := by simpa using h
    simp only [seekBy, tick]
    split <;> split <;> simp

end Sequencer

end Chiptune
