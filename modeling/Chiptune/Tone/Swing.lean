import Chiptune.Score.Instrument

/-!
# Swings

A swing moves the period along a sine, after a delay; it is a vibrato while it plays. One cycle has
256 phases, and the phase moves on by the speed at each tick.

* `phase_advance`: how the phase moves.
-/

namespace Chiptune

/-- A vibrato while it plays. -/
structure Swing where
  /-- Ticks left before it sets in; `none` if it is off. -/
  delay : Option Nat
  /-- Phases for each tick. -/
  speed : Nat
  /-- Depth in sixteenths of a period unit. -/
  level : Nat
  /-- Place in the cycle. -/
  phase : UInt8
  deriving DecidableEq, Repr

namespace Swing

def off : Swing :=
  ⟨none, 0, 0, 0⟩

/-- The swing of a vibrato, at the start of its cycle. -/
def ofVibrato (v : Vibrato) : Swing :=
  ⟨v.startDelay?, v.speed.toNat, v.level.toNat, 0⟩

/-- The swing at another speed and depth, without delay. -/
def set (s : Swing) (speed level : Nat) : Swing :=
  { s with delay := some 0, speed, level }

/-- The swing at the start of its cycle. -/
def restart (s : Swing) : Swing :=
  { s with phase := 0 }

def isOn (s : Swing) : Bool :=
  s.delay.isSome

def advance (s : Swing) : Swing :=
  match s.delay with
  | none => s
  | some 0 => { s with phase := s.phase + UInt8.ofNat s.speed }
  | some (d + 1) => { s with delay := some d }

/-- The sines of the phases of a quarter of the cycle, as the nearest floats. The sine of an angle that is
itself rounded differs from them in the last place, which no offset of a 16-bit depth shows. -/
def sines : Array Float := #[
  0.0, 0.024541228522912288, 0.049067674327418015, 0.07356456359966743, 0.0980171403295606,
  0.1224106751992162, 0.14673047445536175, 0.17096188876030122, 0.19509032201612828,
  0.2191012401568698, 0.2429801799032639, 0.26671275747489837, 0.2902846772544624,
  0.31368174039889146, 0.33688985339222005, 0.35989503653498817, 0.3826834323650898,
  0.40524131400498986, 0.4275550934302821, 0.4496113296546066, 0.47139673682599764,
  0.49289819222978404, 0.5141027441932218, 0.5349976198870973, 0.5555702330196022,
  0.5758081914178453, 0.5956993044924334, 0.6152315905806268, 0.6343932841636455,
  0.6531728429537768, 0.6715589548470184, 0.6895405447370669, 0.7071067811865476,
  0.7242470829514669, 0.7409511253549591, 0.7572088465064846, 0.773010453362737, 0.7883464276266062,
  0.8032075314806449, 0.8175848131515837, 0.8314696123025452, 0.8448535652497071,
  0.8577286100002721, 0.8700869911087115, 0.881921264348355, 0.8932243011955153, 0.9039892931234433,
  0.9142097557035307, 0.9238795325112867, 0.9329927988347388, 0.9415440651830208,
  0.9495281805930367, 0.9569403357322088, 0.9637760657954398, 0.970031253194544, 0.9757021300385286,
  0.9807852804032304, 0.9852776423889412, 0.989176509964781, 0.99247953459871, 0.9951847266721969,
  0.9972904566786902, 0.9987954562051724, 0.9996988186962042, 1.0]

/-- The sine of a phase without its sign. It rises for a quarter of the cycle and falls for the next, and
so again in the second half. -/
def height (phase : UInt8) : Float :=
  let k := phase.toNat % 128
  sines.getD (min k (128 - k)) 0.0

/-- The whole number nearest to a float that is not negative; from a half on it is the next one. -/
def nearest (x : Float) : Nat :=
  ((x * 2.0).toUInt64.toNat + 1) / 2

/-- The period offset at a phase of a swing of some depth, in the second half of the cycle a negative
one. -/
def reach (phase : UInt8) (level : Nat) : Int :=
  let n := nearest (height phase * Float.ofNat level / 16.0)
  if phase.toNat < 128 then n else -n

/-- The period offset of the next tick: that of the new phase once the delay is over. -/
def offset (s : Swing) : Int :=
  match s.delay with
  | some 0 => reach s.advance.phase s.level
  | _ => 0

/-- The phase moves on by the speed, modulo one cycle, once the delay is over. -/
theorem phase_advance (s : Swing) (h : s.delay = some 0) :
    s.advance.phase = s.phase + UInt8.ofNat s.speed := by
  simp [advance, h]

end Swing

end Chiptune
