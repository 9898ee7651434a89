import Chiptune.Audio.Channel
import Chiptune.Audio.LowPass
import Chiptune.Audio.Setup

/-!
# The mixer

The four channels go to one, two or four outputs. A master volume scales them all, and each output
may pass its own low-pass filter.

* `size_render`: a frame has a sample for each output.
* `channels_render`: mixing leaves the channels alone.
-/

namespace Chiptune

/-- The channels and what follows them. -/
structure Mixer where
  channels : Vector Channel 4
  /-- The filters of the outputs. -/
  filters : Vector LowPass 4
  /-- The sound clock. -/
  clock : Float
  /-- Whether the filters may be on. -/
  allowFilter : Bool
  /-- Whether the filters are switched on. -/
  useFilter : Bool
  /-- Volume of all outputs. -/
  master : Nat

namespace Mixer

def start (standard : Standard) (allowFilter : Bool) : Mixer :=
  { channels := Vector.replicate 4 .idle, filters := Vector.replicate 4 .silent,
    clock := standard.clock, allowFilter, useFilter := true, master := 64 }

/-- The mixer as it was at the start. -/
def reset (m : Mixer) : Mixer :=
  { m with
    channels := Vector.replicate 4 .idle, filters := Vector.replicate 4 .silent,
    useFilter := true, master := 64 }

def channel? (m : Mixer) (i : Nat) : Except RangeFault Channel :=
  match m.channels[i]? with
  | none => .error (.trackIndex i)
  | some ch => .ok ch

def setChannel (m : Mixer) (i : Nat) (ch : Channel) : Mixer :=
  { m with channels := m.channels.setIfInBounds i ch }

def setFilter (m : Mixer) (on : Bool) : Mixer :=
  { m with useFilter := on }

def isFiltering (m : Mixer) : Bool :=
  m.allowFilter && m.useFilter

/-- The mixer with its master volume set, to at most 64. -/
def setMaster (m : Mixer) (volume : Nat) : Mixer :=
  { m with master := min volume 64 }

/-- The mixer with the position of every channel refreshed. -/
def seek (m : Mixer) (t : Float) : Mixer :=
  { m with channels := m.channels.map (·.seek m.clock t) }

def settle (m : Mixer) (i : Nat) (t : Float) : Mixer :=
  match m.channels[i]? with
  | none => m
  | some ch => m.setChannel i (ch.settle m.clock t)

/-- The output of a channel, scaled by the master volume. -/
def level (m : Mixer) (i : Fin 4) : Float :=
  (m.channels.get i).output * (Float.ofNat m.master / 64.0)

/-- The samples for the outputs before they are filtered, from the levels of the channels. -/
def mix (outputs : Outputs) (level : Fin 4 → Float) : List Float :=
  match outputs with
  -- a sum that starts at zero, taken from left to right
  | .mono => [0.0 + 0.25 * level 0 + 0.25 * level 1 + 0.25 * level 2 + 0.25 * level 3]
  | .stereo => [0.5 * (level 0 + level 3), 0.5 * (level 1 + level 2)]
  | .quad => [level 0, level 1, level 2, level 3]

/-- The mixer with each filter fed the sample of its output. -/
def feed (m : Mixer) (xs : List Float) : Mixer :=
  { m with filters := m.filters.mapIdx fun i f => match xs[i]? with
      | none => f
      | some x => f.feed x }

/-- The frame that the channels make now, and the mixer after it. -/
def render (m : Mixer) (outputs : Outputs) : Frame × Mixer :=
  let xs := mix outputs m.level
  if m.isFiltering then
    let m := m.feed xs
    (.ofList ((m.filters.toList.take xs.length).map LowPass.output), m)
  else (.ofList xs, m)

theorem length_mix (outputs : Outputs) (level : Fin 4 → Float) :
    (mix outputs level).length = outputs.count := by
  cases outputs <;> rfl

/-- A frame has a sample for each output. -/
theorem size_render (m : Mixer) (outputs : Outputs) :
    (m.render outputs).1.samples.size = outputs.count := by
  have : outputs.count ≤ 4 := by cases outputs <;> decide
  unfold render
  split <;> simp [Frame.size_ofList, length_mix]
  omega

@[simp]
theorem channels_render (m : Mixer) (outputs : Outputs) :
    (m.render outputs).2.channels = m.channels := by
  unfold render
  split <;> rfl

end Mixer

end Chiptune
