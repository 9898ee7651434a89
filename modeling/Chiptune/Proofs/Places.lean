import Mathlib
import Chiptune.Proofs.Regions

/-!
# Places stay in the buffer

Where a channel is in its bytes is computed with floating point, and could come out anywhere. Whatever
comes out, a channel that plays is inside its bytes when a frame is mixed: one that has run past
its end is loaded anew, stopped or sent round before that.

Here the outcome of the computation is left open. `Channel.seekAt` and `Channel.settleAt` are told what
is found, and the channels of the rest of the library are found somewhere.

* `Channel.Inside.through`: **every event keeps a channel inside its bytes**.
* `Sequencer.driven_called`: a song drives its channels by such events alone.
* `Sequencer.places_stay_inside`: what follows for every channel and every song in use.
-/

namespace Chiptune

namespace Channel

variable {ch : Channel}

/-- What the computation of a place can come to. -/
structure Outcome where
  /-- Whether the time of the start has come. -/
  begun : Bool
  index : ℕ
  fraction : Float
  /-- The time of the start, if the channel goes round. -/
  since : Float

/-- The channel with its place refreshed, wherever it is found. -/
def seekAt (ch : Channel) (o : Outcome) : Channel :=
  if ch.active && ch.period ≠ 0 && o.begun then
    { ch with index := o.index, fraction := o.fraction, restarted := false }
  else { ch with index := 0, fraction := 0.0, restarted := false }

/-- Whether a channel that was found somewhere has run past its end. -/
def isPastEndAt (ch : Channel) (o : Outcome) : Bool :=
  ch.active && ch.period ≠ 0 && o.begun && ch.buffer.size ≤ ch.index

/-- The channel after it ran past its end and its owner had a chance to start it anew. -/
def settleAt (ch : Channel) (o : Outcome) : Channel :=
  if ch.restarted then ch
  else if !ch.active || ch.buffer.isEmpty then ch.stop
  else { ch with index := ch.index % ch.buffer.size, startTime := o.since }

/-- Where the computation finds a channel, if it is settled with a start at a time. -/
def found (ch : Channel) (clock t since : Float) : Outcome :=
  let place := Period.rate ch.period clock * (t - ch.startTime)
  ⟨!(t < ch.startTime), place.toUInt64.toNat, limitFloat 0.0 1.0 (place - wholePart place), since⟩

/-- The time of the start of a channel that goes round. -/
def rebased (ch : Channel) (clock t : Float) : Float :=
  let rate := Period.rate ch.period clock
  if 0.0 < rate then t - (Float.ofNat (ch.index % ch.buffer.size) + ch.fraction) / rate else t

theorem seek_eq_seekAt (ch : Channel) (clock t since : Float) :
    ch.seek clock t = ch.seekAt (ch.found clock t since) :=
  rfl

theorem isPastEnd_seek (ch : Channel) (clock t since : Float) :
    (ch.seek clock t).isPastEnd t = (ch.seek clock t).isPastEndAt (ch.found clock t since) := by
  unfold seek isPastEnd isPastEndAt isMoving found
  split <;> rfl

theorem settle_eq_settleAt (ch : Channel) {clock t : Float} {o : Outcome}
    (h : o.since = ch.rebased clock t) : ch.settle clock t = ch.settleAt o := by
  unfold settle settleAt
  rw [h]
  rfl

/-! ## What can happen to a channel -/

/-- What the owner of a channel can ask of it when it has run past its end. -/
inductive Order where
  | start (source : Array UInt8) (clip : Clip) (t : Float)
  | stop

/-- The channel after an order. -/
def ordered (ch : Channel) : Order → Channel
  | .start source clip t => ch.start source clip t
  | .stop => ch.stop

/-- What can happen to a channel before its output is read. -/
inductive Event where
  | order (o : Order)
  | period (period : ℕ)
  | volume (volume : ℕ)
  /-- Its place is refreshed. If it has run past its end, the owner gives some orders, and the channel
  is settled. -/
  | update (o : Outcome) (orders : List Order)

/-- The channel before it is settled, once its owner has given the orders. -/
def answered (ch : Channel) (o : Outcome) (orders : List Order) : Channel :=
  orders.foldl ordered (ch.seekAt o)

/-- The channel after an event. -/
def through (ch : Channel) : Event → Channel
  | .order o => ch.ordered o
  | .period period => ch.setPeriod period
  | .volume volume => ch.setVolume volume
  | .update o orders =>
    if (ch.seekAt o).isPastEndAt o then (ch.answered o orders).settleAt o else ch.seekAt o

/-! ## What they keep -/

/-- A channel that is inside its bytes if it plays. -/
structure Inside (ch : Channel) : Prop where
  bytes : ch.active = true → ch.buffer ≠ #[]
  index : ch.active = true → ch.index < ch.buffer.size

/-- A channel that will be inside its bytes once it is settled: one that was started anew is at the
first of them. -/
structure Settling (ch : Channel) : Prop where
  bytes : ch.active = true → ch.buffer ≠ #[]
  first : ch.restarted = true → ch.index = 0

theorem inside_idle : idle.Inside := by
  constructor <;> rintro ⟨⟩

theorem inside_start (ch : Channel) (source : Array UInt8) (clip : Clip) (t : Float) :
    (ch.start source clip t).Inside := by
  obtain ⟨-, hactive, hindex⟩ := ch.start_spec source clip t
  refine ⟨hactive.1, ?_⟩
  intro hplays
  rw [hindex]
  exact Array.size_pos_iff.2 (hactive.1 hplays)

theorem inside_stop (ch : Channel) : ch.stop.Inside := by
  constructor <;> rintro ⟨⟩

theorem inside_ordered (ch : Channel) (o : Order) : (ch.ordered o).Inside := by
  cases o with
  | start source clip t => exact ch.inside_start source clip t
  | stop => exact ch.inside_stop

theorem settling_ordered (ch : Channel) (o : Order) : (ch.ordered o).Settling := by
  refine ⟨(ch.inside_ordered o).bytes, fun _ => ?_⟩
  cases o <;> rfl

/-- Wherever it is found, a channel still has its bytes. -/
theorem Inside.sought (h : ch.Inside) (o : Outcome) : (ch.seekAt o).Settling := by
  unfold seekAt
  split <;> exact ⟨h.bytes, fun hrestarted => by cases hrestarted⟩

/-- It is inside them unless it has run past its end. -/
theorem Inside.sought_inside (h : ch.Inside) (o : Outcome)
    (hpast : (ch.seekAt o).isPastEndAt o = false) : (ch.seekAt o).Inside := by
  refine ⟨(h.sought o).bytes, ?_⟩
  intro hplays
  unfold isPastEndAt at hpast
  by_cases hmoving : (ch.active && ch.period ≠ 0 && o.begun) = true
  · have hsame : ((ch.seekAt o).active && (ch.seekAt o).period ≠ 0 && o.begun) = true := by
      rw [seekAt, if_pos hmoving]
      exact hmoving
    rw [hsame, Bool.true_and, decide_eq_false_iff_not, Nat.not_le] at hpast
    exact hpast
  · rw [seekAt, if_neg hmoving] at hplays ⊢
    exact Array.size_pos_iff.2 (h.bytes hplays)

theorem Inside.answered (h : ch.Inside) (o : Outcome) (orders : List Order) :
    (ch.answered o orders).Settling := by
  unfold Channel.answered
  generalize hc : ch.seekAt o = c
  have hsettling : c.Settling := hc ▸ h.sought o
  clear hc
  induction orders generalizing c with
  | nil => exact hsettling
  | cons order orders ih => exact ih _ (c.settling_ordered order)

/-- **Settling leads inside.** -/
theorem Settling.settled (h : ch.Settling) (o : Outcome) : (ch.settleAt o).Inside := by
  unfold settleAt
  split
  · rename_i hrestarted
    refine ⟨h.bytes, ?_⟩
    intro hplays
    rw [h.first hrestarted]
    exact Array.size_pos_iff.2 (h.bytes hplays)
  split
  · exact ch.inside_stop
  · refine ⟨h.bytes, ?_⟩
    intro hplays
    exact Nat.mod_lt _ (Array.size_pos_iff.2 (h.bytes hplays))

/-- **Every event keeps a channel inside its bytes.** -/
theorem Inside.through (h : ch.Inside) (e : Event) : (ch.through e).Inside := by
  cases e with
  | order o => exact ch.inside_ordered o
  | period | volume => exact ⟨h.bytes, h.index⟩
  | update o orders =>
    unfold Channel.through
    dsimp only
    split
    · exact (h.answered o orders).settled o
    · rename_i hpast
      exact h.sought_inside o (Bool.eq_false_iff.2 hpast)

theorem Inside.foldl_through (h : ch.Inside) (events : List Event) : (events.foldl Channel.through ch).Inside := by
  induction events generalizing ch with
  | nil => exact h
  | cons e events ih => exact ih (h.through e)

/-! ## What is heard of it -/

/-- The output of a channel that plays and is inside its bytes: on the line from the byte where it is
to the next. -/
def line (ch : Channel) : Float :=
  let left := ch.sample ch.index
  let right := ch.sample ((ch.index + 1) % ch.buffer.size)
  Float.ofNat ch.volume * (left + ch.fraction * (right - left)) / 64.0

/-- A channel that plays inside its bytes or is silent. -/
structure PlaysInside (ch : Channel) : Prop extends ch.Inside where
  output : ch.active = true → ch.period ≠ 0 → ch.output = ch.line
  silent : ch.active = false → ch.output = 0.0

theorem Inside.playsInside (h : ch.Inside) : ch.PlaysInside := by
  refine ⟨h, ?_, ch.output_of_not_active⟩
  intro hplays hperiod
  have hindex := h.index hplays
  have hguard : (!ch.active || ch.period = 0 || ch.buffer.isEmpty) = false := by
    simpa [hplays, hperiod] using h.bytes hplays
  have hmin : min ch.index (ch.buffer.size - 1) = ch.index := by omega
  rw [output, hguard, if_neg Bool.false_ne_true, hmin]
  rfl

end Channel

/-! ## Songs -/

namespace Track

open Channel (Outcome Order Event ordered through)

variable {score : Score} {tr : Track}

/-- The channel of a track at its place, wherever it is found, refilled by the track if it has run past
its end. -/
def keptAt (score : Score) (o : Outcome) (t : Float) (tr : Track) (ch : Channel) : Channel :=
  let ch := ch.seekAt o
  if ch.isPastEndAt o then (tr.refill score t ch).settleAt o else ch

/-- Where the channel of a track is found. -/
def foundFor (score : Score) (clock t : Float) (tr : Track) (ch : Channel) : Outcome :=
  ch.found clock t ((tr.refill score t (ch.seek clock t)).rebased clock t)

theorem kept_eq_keptAt (score : Score) (clock t : Float) (tr : Track) (ch : Channel) :
    tr.kept score clock t ch = tr.keptAt score (tr.foundFor score clock t ch) t ch := by
  unfold kept
  rw [ch.isPastEnd_seek clock t ((tr.refill score t (ch.seek clock t)).rebased clock t),
    Channel.settle_eq_settleAt (o := tr.foundFor score clock t ch) _ rfl]
  rfl

/-- A row starts its channel, stops it or leaves it alone. -/
theorem orders_of_play (score : Score) (tr : Track) (part : Part) (note : Note) (t : Float)
    (ch : Channel) :
    ∃ orders : List Order, (tr.play score part note t ch).2 = orders.foldl ordered ch := by
  unfold play playBy
  dsimp only
  split
  · exact ⟨[], rfl⟩
  split
  · exact ⟨[.stop], rfl⟩
  unfold triggerBy
  dsimp only
  split
  · exact ⟨[.start _ _ _], rfl⟩
  split
  · exact ⟨[.stop], rfl⟩
  · exact ⟨[.start _ _ _], rfl⟩

/-- So does a refill. -/
theorem orders_of_refill (score : Score) (tr : Track) (t : Float) (ch : Channel) :
    ∃ orders : List Order, tr.refill score t ch = orders.foldl ordered ch := by
  have hreload : ∀ source clip,
      ∃ orders : List Order, reload ch source clip t = orders.foldl ordered ch := by
    intro source clip
    unfold reload reloadBy
    split
    · exact ⟨[], rfl⟩
    · exact ⟨[.start source clip t], rfl⟩
  unfold refill refillBy
  split
  · exact ⟨[.stop], rfl⟩
  · exact ⟨[], rfl⟩
  · exact ⟨[.stop], rfl⟩
  · split
    · exact ⟨[.stop], rfl⟩
    · exact hreload _ _
  · exact hreload _ _

theorem events_of_orders (orders : List Order) (ch : Channel) :
    orders.foldl ordered ch = (orders.map Event.order).foldl through ch := by
  rw [List.foldl_map]
  rfl

theorem events_of_keptAt (score : Score) (o : Outcome) (t : Float) (tr : Track) (ch : Channel) :
    ∃ events : List Event, tr.keptAt score o t ch = events.foldl through ch := by
  obtain ⟨orders, hrefill⟩ := tr.orders_of_refill score t (ch.seekAt o)
  refine ⟨[.update o orders], ?_⟩
  unfold keptAt
  dsimp only
  rw [hrefill]
  rfl

/-- A tick sets the registers or leaves them alone. -/
theorem events_of_tick (score : Score) (speed : ℕ) (tr : Track) (ch : Channel) :
    ∃ events : List Event, (tr.tick score speed ch).2 = events.foldl through ch := by
  unfold tick
  dsimp only
  split
  · exact ⟨[], rfl⟩
  · exact ⟨[.period _, .volume _], rfl⟩

end Track

namespace Sequencer

open Channel (Outcome Event through)

variable {s s' s₀ : Sequencer}

/-- The song with every channel at its place, wherever each is found. -/
def seekAt (places : Fin 4 → Outcome) (s : Sequencer) : Sequencer :=
  let channels := Vector.ofFn fun i =>
    (s.tracks.get i).keptAt s.score (places i) s.time (s.mixer.channels.get i)
  { s with mixer := { s.mixer with channels } }

/-- The song whose mixer makes the next frame. -/
def mixedAt (places : Fin 4 → Outcome) (looping : Bool) (s : Sequencer) : Sequencer :=
  let q := (s.moved looping).seekAt places
  if s.isInterrupt then q.tick else q

/-- The next frame, wherever the channels are found, and the song after it, or `none` at the end. -/
def renderFrameAt (places : Fin 4 → Outcome) (looping : Bool) (s : Sequencer) :
    Option (Frame × Sequencer) :=
  if s.isFinished then none
  else
    let q := s.mixedAt places looping
    let (frame, mixer) := q.mixer.render q.setup.outputs
    some (frame, { q with mixer, frames := q.frames + 1 })

/-- Where the channels of a song are found. -/
def found (s : Sequencer) (i : Fin 4) : Outcome :=
  (s.tracks.get i).foundFor s.score s.mixer.clock s.time (s.mixer.channels.get i)

theorem seek_eq_seekAt (s : Sequencer) : s.seek = s.seekAt s.found := by
  have hchannels : s.seek.mixer.channels = (s.seekAt s.found).mixer.channels := by
    apply Vector.ext
    intro i hi
    have hget := s.get_seek ⟨i, hi⟩
    rw [Track.kept_eq_keptAt] at hget
    refine hget.trans ?_
    unfold seekAt
    dsimp only
    rw [Vector.getElem_ofFn]
    rfl
  exact congrArg (fun channels => { s with mixer := { s.mixer with channels } }) hchannels

/-- **A song finds its channels somewhere.** -/
theorem renderFrame_eq_renderFrameAt (looping : Bool) (s : Sequencer) :
    s.renderFrame looping = s.renderFrameAt (s.moved looping).found looping := by
  cases hfinished : s.isFinished with
  | true =>
    rw [(renderFrame_eq_none_iff looping s).2 hfinished, renderFrameAt, if_pos hfinished]
  | false =>
    rw [renderFrame_of_unfinished looping hfinished, renderFrameAt, hfinished,
      if_neg Bool.false_ne_true, mixedAt, sounded, seek_eq_seekAt]

/-- What can be asked of a song, and where its channels are found when a frame is. -/
inductive PlacedCall where
  | frame (looping : Bool) (places : Fin 4 → Outcome)
  | limit (loops : Option ℕ)
  | reset

/-- The song after a call. -/
def calledAt (s : Sequencer) : PlacedCall → Sequencer
  | .frame looping places => ((s.renderFrameAt places looping).map Prod.snd).getD s
  | .limit loops => s.setLoopLimit loops
  | .reset => s.reset

theorem exists_calledAt (s : Sequencer) (c : Call) : ∃ c', s.called c = s.calledAt c' := by
  cases c with
  | limit loops => exact ⟨.limit loops, rfl⟩
  | reset => exact ⟨.reset, rfl⟩
  | frame looping =>
    refine ⟨.frame looping (s.moved looping).found, ?_⟩
    rw [calledAt, ← renderFrame_eq_renderFrameAt, called, call]
    cases s.renderFrame looping <;> rfl

theorem exists_foldl_calledAt (calls : List Call) (s : Sequencer) :
    ∃ calls' : List PlacedCall, calls.foldl called s = calls'.foldl calledAt s := by
  induction calls generalizing s with
  | nil => exact ⟨[], rfl⟩
  | cons c calls ih =>
    obtain ⟨c', hc⟩ := s.exists_calledAt c
    obtain ⟨calls', hcalls⟩ := ih (s.called c)
    refine ⟨c' :: calls', ?_⟩
    rw [List.foldl_cons, List.foldl_cons, hcalls, hc]

/-! ### What a song does to its channels -/

/-- A song that has brought its channels from idleness to where they are. -/
def Drives (s : Sequencer) : Prop :=
  ∀ i : Fin 4, ∃ events : List Event, s.mixer.channels.get i = events.foldl through .idle

/-- Events that follow others. -/
theorem Drives.of_events (h : s.Drives)
    (hevents : ∀ i : Fin 4, ∃ events : List Event,
      s'.mixer.channels.get i = events.foldl through (s.mixer.channels.get i)) : s'.Drives := by
  intro i
  obtain ⟨before, hbefore⟩ := h i
  obtain ⟨events, hafter⟩ := hevents i
  refine ⟨before ++ events, ?_⟩
  rw [hafter, hbefore, List.foldl_append]

theorem drives_of_idle (h : ∀ i : Fin 4, s.mixer.channels.get i = .idle) : s.Drives :=
  fun i => ⟨[], h i⟩

theorem Drives.rowPlayed (h : s.Drives) (looping : Bool) : (s.playRow looping).Drives := by
  apply h.of_events
  intro i
  obtain ⟨orders, horders⟩ := (s.tracks.get i).orders_of_play s.score (s.row.get i).1 (s.row.get i).2
    s.time (s.mixer.channels.get i)
  refine ⟨orders.map Event.order, ?_⟩
  rw [(get_playRow s looping i).2, get_played, ← Track.events_of_orders]
  exact horders

theorem Drives.moved (h : s.Drives) (looping : Bool) : (s.moved looping).Drives := by
  unfold Sequencer.moved
  split
  · rw [advance_eq]
    split
    · have hcounted : Drives { s with progress := s.progress.counted } := h
      exact hcounted.rowPlayed looping
    · exact h
  · exact h

theorem get_seekAt (places : Fin 4 → Outcome) (s : Sequencer) (i : Fin 4) :
    (s.seekAt places).mixer.channels.get i =
      (s.tracks.get i).keptAt s.score (places i) s.time (s.mixer.channels.get i) :=
  Vector.get_ofFn _ _

theorem Drives.sought (h : s.Drives) (places : Fin 4 → Outcome) : (s.seekAt places).Drives := by
  apply h.of_events
  intro i
  rw [get_seekAt]
  exact Track.events_of_keptAt _ _ _ _ _

theorem Drives.ticked (h : s.Drives) : s.tick.Drives := by
  apply h.of_events
  intro i
  rw [(get_tick s i).2]
  exact Track.events_of_tick _ _ _ _

/-- **A song drives its channels by events**, up to the moment when they are mixed. -/
theorem Drives.mixed (h : s.Drives) (places : Fin 4 → Outcome) (looping : Bool) :
    (s.mixedAt places looping).Drives := by
  have hsought := (h.moved looping).sought places
  unfold mixedAt
  dsimp only
  split
  · exact hsought.ticked
  · exact hsought

theorem Drives.calledAt (h : s.Drives) (c : PlacedCall) : (s.calledAt c).Drives := by
  cases c with
  | limit loops => exact h
  | reset => exact drives_of_idle fun i => (get_reset s i).2
  | frame looping places =>
    unfold Sequencer.calledAt renderFrameAt
    dsimp only
    split
    · exact h
    · -- mixing leaves the channels alone
      intro i
      obtain ⟨events, hevents⟩ := h.mixed places looping i
      refine ⟨events, ?_⟩
      rw [← hevents]
      exact congrArg (fun channels => channels.get i) (Mixer.channels_render _ _)

theorem Drives.foldl_calledAt (h : s.Drives) (calls : List PlacedCall) :
    (calls.foldl Sequencer.calledAt s).Drives := by
  induction calls generalizing s with
  | nil => exact h
  | cons c calls ih => exact ih (h.calledAt c)

theorem Drives.inside (h : s.Drives) (i : Fin 4) : (s.mixer.channels.get i).Inside := by
  obtain ⟨events, hevents⟩ := h i
  rw [hevents]
  exact Channel.inside_idle.foldl_through events

/-- A track settles its channel only when it has bytes if it plays. -/
theorem Drives.settling (h : s.Drives) (places : Fin 4 → Outcome) (i : Fin 4) :
    ((s.tracks.get i).refill s.score s.time ((s.mixer.channels.get i).seekAt (places i))).Settling := by
  obtain ⟨orders, hrefill⟩ := (s.tracks.get i).orders_of_refill s.score s.time
    ((s.mixer.channels.get i).seekAt (places i))
  rw [hrefill]
  exact (h.inside i).answered (places i) orders

variable {score : Score} {index : ℕ} {setup : Setup}

/-- **Places stay in the buffer.** Take any song of any score and use it in any way, where every channel
of every frame may be found at any place. Whatever the next frame is, and wherever its channels are
found, a channel that plays when it is mixed has bytes and is at one of them, so that its output is
on the line from this byte to the next; one that does not play is silent. A channel that has run past
its end and still plays when it is settled has bytes. All of this holds for the channels of a song
because of what it does to them: it holds for any channel after any events, of which each comes from
its owner or is an update, after which the owner may give any orders. And what a song really does, with
places that are computed, is one of these uses. -/
theorem places_stay_inside (h₀ : start score index setup = .ok s₀) :
    (∀ calls : List PlacedCall, let s := calls.foldl calledAt s₀
      ∀ looping places, s.isFinished = false →
        let r := s.moved looping
        let q := s.mixedAt places looping
        (s.renderFrameAt places looping).map Prod.fst =
          some (q.mixer.render q.setup.outputs).1 ∧
        ∀ i : Fin 4, (q.mixer.channels.get i).PlaysInside ∧
          let ch := (r.mixer.channels.get i).seekAt (places i)
          let settled := (r.tracks.get i).refill r.score r.time ch
          (ch.isPastEndAt (places i) = true → settled.active = true → 0 < settled.buffer.size) ∧
          ∃ events : List Event, q.mixer.channels.get i = events.foldl through .idle) ∧
    (∀ events : List Event, let ch := events.foldl through .idle
      ch.PlaysInside ∧ ∀ o orders, (ch.seekAt o).isPastEndAt o = true →
        (ch.answered o orders).active = true → 0 < (ch.answered o orders).buffer.size) ∧
    ∀ calls : List Call,
      (∃ placed : List PlacedCall, calls.foldl called s₀ = placed.foldl calledAt s₀) ∧
      ∀ looping, let s := calls.foldl called s₀
        s.renderFrame looping = s.renderFrameAt (s.moved looping).found looping := by
  obtain ⟨-, song, -, rfl⟩ := start_eq_ok h₀
  have hidle : (atStart score song setup).Drives := by
    apply drives_of_idle
    intro i
    exact (get_reset (atStart score song setup) i).2
  refine ⟨?_, ?_, ?_⟩
  · intro calls s looping places hopen r q
    have hs : s.Drives := hidle.foldl_calledAt calls
    have hq : q.Drives := hs.mixed places looping
    refine ⟨?_, ?_⟩
    · rw [renderFrameAt, hopen, if_neg Bool.false_ne_true]
      rfl
    intro i
    refine ⟨(hq.inside i).playsInside, ?_, hq i⟩
    intro _ hplays
    exact Array.size_pos_iff.2 (((hs.moved looping).settling places i).bytes hplays)
  · intro events ch
    have hch : ch.Inside := Channel.inside_idle.foldl_through events
    refine ⟨hch.playsInside, ?_⟩
    intro o orders _ hplays
    exact Array.size_pos_iff.2 ((hch.answered o orders).bytes hplays)
  · intro calls
    exact ⟨exists_foldl_calledAt calls _, fun looping => renderFrame_eq_renderFrameAt looping _⟩

/-- All channels found at one place. -/
def allAt (n : ℕ) (_ : Fin 4) : Outcome :=
  ⟨true, n, 0.5, 0.0⟩

/-- A sample of five bytes, the last three of which go round. -/
def plunge : Score :=
  { songs := #[⟨1, 2, 0, 0, 0, 200⟩]
    parts := #[⟨0, 0, 0⟩]
    notes := #[⟨30, 1, 0, 0⟩]
    instruments := #[{ (default : Instrument) with
      length := 1, loop := 2, volume := 64, vibrato := ⟨255, 0, 0⟩ }]
    samples := #[.bare #[10, 246, 20, 236, 30]] }

def plunging : Sequencer :=
  .atStart plunge ⟨1, 2, 0, 0, 0, 200⟩ { rate := 2000 }

/-- In its second frame the channel is found a million bytes behind its start, and loaded with the bytes
that go round; then it is found a thousand bytes behind, and sent round. -/
theorem plunge_stays_inside :
    start plunge 0 { rate := 2000 } = .ok plunging ∧
      let s := (List.replicate 2 (PlacedCall.frame true (allAt 1000000))).foldl calledAt plunging
      let ch := (s.mixedAt (allAt 1000) true).mixer.channels.get 0
      s.isFinished = false ∧ ch.active = true ∧ ch.buffer = #[20, 236, 30] ∧
        ch.index < ch.buffer.size := by
  have hstart : start plunge 0 { rate := 2000 } = .ok plunging := rfl
  have hopen : ((List.replicate 2 (PlacedCall.frame true (allAt 1000000))).foldl calledAt
      plunging).isFinished = false := by decide +kernel
  obtain ⟨hsong, -⟩ := places_stay_inside hstart
  obtain ⟨-, hplaces⟩ := hsong _ true (allAt 1000) hopen
  have hplays : ((((List.replicate 2 (PlacedCall.frame true (allAt 1000000))).foldl calledAt
      plunging).mixedAt (allAt 1000) true).mixer.channels.get 0).active = true := by decide +kernel
  have hbytes : ((((List.replicate 2 (PlacedCall.frame true (allAt 1000000))).foldl calledAt
      plunging).mixedAt (allAt 1000) true).mixer.channels.get 0).buffer = #[20, 236, 30] := by
    decide +kernel
  exact ⟨hstart, hopen, hplays, hbytes, (hplaces 0).1.index hplays⟩

end Sequencer

end Chiptune
