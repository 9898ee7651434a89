import Mathlib
import Chiptune.Proofs.Copies

/-!
# The course of a song

When interrupts fall between frames, and where the channels are in their bytes, is a matter of the
settings. What the interrupts do is not: the tracks, the registers of the channels and the place in
the song follow from the number of interrupts alone.

* `Sequencer.course`: what a song has decided, apart from its sound.
* `Sequencer.beat`: what one interrupt does; `course_beat`: it goes by the course alone.
* `course_of_follows`: **a frame without an interrupt leaves the course as it is, and a frame with
  one is a beat.**
* `course_of_interrupts`: songs under any two settings take the same course.
-/

namespace Chiptune

/-! ## Registers -/

namespace Channel

/-- What a track writes to its channel at an interrupt. -/
def registers (ch : Channel) : ℕ × ℕ :=
  (ch.period, ch.volume)

variable (ch : Channel) (source : Array UInt8) (clip : Clip) (clock t : Float)

theorem registers_start : (ch.start source clip t).registers = ch.registers := by
  unfold start load
  split <;> rfl

theorem registers_seek : (ch.seek clock t).registers = ch.registers := by
  unfold seek
  split <;> rfl

theorem registers_settle : (ch.settle clock t).registers = ch.registers := by
  unfold settle
  split
  · rfl
  · split <;> rfl

end Channel

namespace Track

variable (score : Score) (tr : Track) (t t' : Float) (ch ch' : Channel)

theorem registers_refill : (tr.refill score t ch).registers = ch.registers := by
  have hreload (source : Array UInt8) (clip : Clip) :
      (reload ch source clip t).registers = ch.registers := by
    unfold reload reloadBy
    split
    · rfl
    · exact ch.registers_start source clip t
  unfold refill refillBy
  split <;> try rfl
  · split
    · rfl
    · exact hreload _ _
  · exact hreload _ _

/-- A row starts the sound of a track whatever the time is, and leaves the registers alone. -/
theorem trigger_spec (inst : Instrument) (h : ch.registers = ch'.registers) :
    (tr.trigger score inst t ch).1 = (tr.trigger score inst t' ch').1 ∧
      (tr.trigger score inst t ch).2.registers = (tr.trigger score inst t' ch').2.registers := by
  unfold trigger triggerBy
  dsimp only
  split
  · rw [Channel.registers_start, Channel.registers_start]
    exact ⟨rfl, h⟩
  · split
    · exact ⟨rfl, h⟩
    · rw [Channel.registers_start, Channel.registers_start]
      exact ⟨rfl, h⟩

theorem play_spec (part : Part) (note : Note) (h : ch.registers = ch'.registers) :
    (tr.play score part note t ch).1 = (tr.play score part note t' ch').1 ∧
      (tr.play score part note t ch).2.registers =
        (tr.play score part note t' ch').2.registers := by
  unfold play playBy
  dsimp only
  split
  · exact ⟨rfl, h⟩
  · split
    · exact ⟨rfl, h⟩
    · exact trigger_spec score _ t t' ch ch' _ h

/-- A tick knows its channel by the registers only. -/
theorem tick_spec (speed : ℕ) (h : ch.registers = ch'.registers) :
    (tr.tick score speed ch).1 = (tr.tick score speed ch').1 ∧
      (tr.tick score speed ch).2.registers = (tr.tick score speed ch').2.registers := by
  unfold tick
  dsimp only
  split
  · exact ⟨rfl, h⟩
  · exact ⟨rfl, rfl⟩

end Track

/-- What a song has decided, apart from its sound. -/
structure Course where
  score : Score
  song : Song
  tracks : Vector Track 4
  registers : Vector (ℕ × ℕ) 4
  progress : Progress
  master : ℕ
  useFilter : Bool
  /-- Whether the end is known. -/
  ended : Bool

namespace Sequencer

variable {looping : Bool} {r s s' : Sequencer} {f : Frame}

def course (s : Sequencer) : Course :=
  { score := s.score, song := s.song, tracks := s.tracks
    registers := s.mixer.channels.map Channel.registers, progress := s.progress
    master := s.mixer.master, useFilter := s.mixer.useFilter, ended := s.endFrame.isSome }

/-- What an interrupt does to a song. -/
def beat (looping : Bool) (s : Sequencer) : Sequencer :=
  (if s.endFrame.isNone then s.advance looping else s).tick

/-! ## An interrupt goes by the course -/

theorem get_registers (h : r.course = s.course) (i : Fin 4) :
    (r.mixer.channels.get i).registers = (s.mixer.channels.get i).registers := by
  have := congrArg (fun c => c.registers.get i) h
  rwa [course, course, Vector.get_map, Vector.get_map] at this

/-- A row sets master volume and filter whatever else there is in the mixer. -/
theorem foldl_onMixer_switches (ds : List Directive) (m m' : Mixer) (hmaster : m.master = m'.master)
    (hfilter : m.useFilter = m'.useFilter) :
    (ds.foldl (fun m d => d.onMixer m) m).master = (ds.foldl (fun m d => d.onMixer m) m').master ∧
      (ds.foldl (fun m d => d.onMixer m) m).useFilter =
        (ds.foldl (fun m d => d.onMixer m) m').useFilter := by
  induction ds generalizing m m' with
  | nil => exact ⟨hmaster, hfilter⟩
  | cons d ds ih =>
    refine ih _ _ ?_ ?_
    · cases d <;> first | exact hmaster | rfl
    · cases d <;> first | exact hfilter | rfl

theorem course_playRow (h : r.course = s.course) :
    (r.playRow looping).course = (s.playRow looping).course := by
  have hscore : r.score = s.score := congrArg Course.score h
  have hsong : r.song = s.song := congrArg Course.song h
  have htracks : r.tracks = s.tracks := congrArg Course.tracks h
  have hprogress : r.progress = s.progress := congrArg Course.progress h
  have hended : r.endFrame.isSome = s.endFrame.isSome := congrArg Course.ended h
  have hrow : r.row = s.row := by rw [row, row, hscore, hprogress]
  have hdirectives : r.directives = s.directives := by rw [directives, directives, hrow]
  have hplayed (i : Fin 4) : (r.played.get i).1 = (s.played.get i).1 ∧
      (r.played.get i).2.registers = (s.played.get i).2.registers := by
    rw [get_played, get_played, hrow, hscore, htracks]
    obtain ⟨htrack, hregisters⟩ := (s.tracks.get i).play_spec s.score r.time s.time
      (r.mixer.channels.get i) (s.mixer.channels.get i) (s.row.get i).1 (s.row.get i).2
      (get_registers h i)
    exact ⟨congrArg (·.command (s.row.get i).2) htrack, hregisters⟩
  have hfst : r.played.map Prod.fst = s.played.map Prod.fst := by
    refine ext_get fun i => ?_
    rw [Vector.get_map, Vector.get_map]
    exact (hplayed i).1
  have hsnd : (r.played.map Prod.snd).map Channel.registers =
      (s.played.map Prod.snd).map Channel.registers := by
    refine ext_get fun i => ?_
    rw [Vector.get_map, Vector.get_map, Vector.get_map, Vector.get_map]
    exact (hplayed i).2
  obtain ⟨hmaster, hfilter⟩ := foldl_onMixer_switches s.directives
    { r.mixer with channels := r.played.map Prod.snd }
    { s.mixer with channels := s.played.map Prod.snd }
    (congrArg Course.master h) (congrArg Course.useFilter h)
  unfold playRow playRowBy course
  simp only [playedBy_start]
  rw [channels_foldl_onMixer, channels_foldl_onMixer, hdirectives, hmaster, hfilter, hfst, hsnd,
    hscore, hsong, hprogress]
  congr 1
  split
  · rw [Option.isSome_some, Option.isSome_some]
  · exact hended

theorem course_advance (h : r.course = s.course) :
    (r.advance looping).course = (s.advance looping).course := by
  have hprogress : r.progress = s.progress := congrArg Course.progress h
  have hcounted : course { r with progress := s.progress.counted } =
      course { s with progress := s.progress.counted } :=
    congrArg (fun c : Course => { c with progress := s.progress.counted }) h
  rw [advance_eq, advance_eq, hprogress]
  split
  · exact course_playRow hcounted
  · exact hcounted

theorem course_tick (h : r.course = s.course) : r.tick.course = s.tick.course := by
  have hscore : r.score = s.score := congrArg Course.score h
  have htracks : r.tracks = s.tracks := congrArg Course.tracks h
  have hprogress : r.progress = s.progress := congrArg Course.progress h
  have htick (i : Fin 4) := (s.tracks.get i).tick_spec s.score (r.mixer.channels.get i)
    (s.mixer.channels.get i) s.progress.speed (get_registers h i)
  have hfst : r.tick.tracks = s.tick.tracks := by
    refine ext_get fun i => ?_
    unfold tick
    dsimp only
    rw [Vector.get_map, Vector.get_map, get_zipWith, get_zipWith, hscore, htracks, hprogress]
    exact (htick i).1
  have hsnd : r.tick.mixer.channels.map Channel.registers =
      s.tick.mixer.channels.map Channel.registers := by
    refine ext_get fun i => ?_
    unfold tick
    dsimp only
    rw [Vector.get_map, Vector.get_map, Vector.get_map, Vector.get_map, get_zipWith, get_zipWith,
      hscore, htracks, hprogress]
    exact (htick i).2
  rw [course, hfst, hsnd]
  exact congrArg (fun c : Course => { c with
    tracks := s.tick.tracks, registers := s.tick.mixer.channels.map Channel.registers }) h

/-- **An interrupt goes by the course alone.** -/
theorem course_beat (h : r.course = s.course) :
    (r.beat looping).course = (s.beat looping).course := by
  have hended : r.endFrame.isNone = s.endFrame.isNone := by
    rw [← Option.not_isSome, ← Option.not_isSome]
    exact congrArg (fun c => !c.ended) h
  unfold beat
  rw [hended]
  split
  · exact course_tick (course_advance h)
  · exact course_tick h

theorem course_iterate_beat (h : r.course = s.course) (n : ℕ) :
    ((beat looping)^[n] r).course = ((beat looping)^[n] s).course := by
  induction n with
  | zero => exact h
  | succ n ih =>
    rw [Function.iterate_succ_apply', Function.iterate_succ_apply']
    exact course_beat ih

/-! ## Frames and interrupts -/

/-- Wherever the channels move to, the course stays. -/
theorem course_seek (s : Sequencer) : s.seek.course = s.course := by
  have hregisters : s.seek.mixer.channels.map Channel.registers =
      s.mixer.channels.map Channel.registers := by
    refine ext_get fun i => ?_
    rw [Vector.get_map, Vector.get_map]
    unfold seek seekBy
    simp only [Track.refillBy_start]
    rw [get_zipWith]
    split
    · rw [Channel.registers_settle, Track.registers_refill, Channel.registers_seek]
    · rw [Channel.registers_seek]
  rw [course, hregisters]
  rfl

theorem course_render (s : Sequencer) (n : ℕ) :
    course { s with mixer := (s.mixer.render s.setup.outputs).2, frames := n } = s.course := by
  have hswitches : (s.mixer.render s.setup.outputs).2.master = s.mixer.master ∧
      (s.mixer.render s.setup.outputs).2.useFilter = s.mixer.useFilter := by
    unfold Mixer.render
    split <;> exact ⟨rfl, rfl⟩
  unfold course
  dsimp only
  rw [Mixer.channels_render, hswitches.1, hswitches.2]

/-- **A frame with an interrupt is a beat, and any other frame leaves the course as it is.** -/
theorem course_of_renderFrame (hr : s.renderFrame looping = some (f, s')) :
    s'.course = (if s.isInterrupt then s.beat looping else s).course := by
  rw [renderFrame_of_unfinished looping (follows_of_renderFrame hr).unfinished] at hr
  obtain ⟨-, rfl⟩ := Prod.mk.inj (Option.some.inj hr)
  rw [course_render]
  unfold sounded moved
  cases s.isInterrupt with
  | false => exact course_seek s
  -- the channels are moved on before the tick, which does not look where they are
  | true => exact course_tick (course_seek _)

/-- The song after some frames under one flag. -/
def after (looping : Bool) (k : ℕ) (s : Sequencer) : Sequencer :=
  (run (List.replicate k looping) s).2

theorem after_succ (looping : Bool) (k : ℕ) (s : Sequencer) :
    s.after looping (k + 1) = s.after looping k ∨
      ∃ f, (s.after looping k).renderFrame looping = some (f, s.after looping (k + 1)) := by
  have hone : s.after looping (k + 1) = (run [looping] (s.after looping k)).2 := by
    rw [after, List.replicate_succ', run_append]
    rfl
  rw [hone]
  cases hr : (s.after looping k).renderFrame looping with
  | none =>
    rw [run, hr]
    exact Or.inl rfl
  | some r =>
    rw [run_cons_of_some hr]
    exact Or.inr ⟨r.1, rfl⟩

/-- **The course follows from the number of interrupts.** -/
theorem course_after (hzero : s.interrupts = 0) (looping : Bool) (k : ℕ) :
    (s.after looping k).course = ((beat looping)^[(s.after looping k).interrupts] s).course := by
  induction k with
  | zero =>
    rw [show s.after looping 0 = s from rfl, hzero]
    rfl
  | succ k ih =>
    rcases s.after_succ looping k with hsame | ⟨f, hr⟩
    · rw [hsame]
      exact ih
    · rw [course_of_renderFrame hr, (follows_of_renderFrame hr).interrupts]
      cases (s.after looping k).isInterrupt with
      | false => exact ih
      | true =>
        rw [if_pos rfl, Bool.toNat_true, Function.iterate_succ_apply']
        exact course_beat ih

theorem isSome_endFrame_after (hzero : s.interrupts = 0) (looping : Bool) (k : ℕ) :
    (s.after looping k).endFrame.isSome =
      ((beat looping)^[(s.after looping k).interrupts] s).endFrame.isSome :=
  congrArg Course.ended (course_after hzero looping k)

/-- Every interrupt comes with a frame of its own. -/
theorem exists_interrupt (hzero : s.interrupts = 0) {n m : ℕ}
    (hlt : n < (s.after looping m).interrupts) :
    ∃ k < m, (s.after looping k).interrupts = n ∧ (s.after looping (k + 1)).interrupts = n + 1 := by
  induction m with
  | zero =>
    rw [show s.after looping 0 = s from rfl, hzero] at hlt
    exact absurd hlt (Nat.not_lt_zero n)
  | succ m ih =>
    rcases Nat.lt_or_ge n (s.after looping m).interrupts with hbefore | hnow
    · obtain ⟨k, hk, hspec⟩ := ih hbefore
      exact ⟨k, Nat.lt_succ_of_lt hk, hspec⟩
    · rcases s.after_succ looping m with hsame | ⟨f, hr⟩
      · rw [hsame] at hlt
        exact absurd hlt (Nat.not_lt.2 hnow)
      · have hnext := (follows_of_renderFrame hr).interrupts
        have hone := Bool.toNat_le (s.after looping m).isInterrupt
        exact ⟨m, Nat.lt_succ_self m, by omega, by omega⟩

/-- The end gets known at an interrupt, in one of so many frames. -/
def EndsAt (looping : Bool) (n m : ℕ) (s : Sequencer) : Prop :=
  ∃ k < m, (s.after looping k).interrupts = n ∧ (s.after looping k).endFrame = none ∧
    (s.after looping (k + 1)).endFrame ≠ none

/-- Only an interrupt makes the end known. -/
theorem EndsAt.beats (hzero : s.interrupts = 0) {n m : ℕ} (h : s.EndsAt looping n m) :
    ((beat looping)^[n] s).endFrame.isSome = false ∧
      ((beat looping)^[n + 1] s).endFrame.isSome = true := by
  obtain ⟨k, -, hn, hopen, hend⟩ := h
  have hnext : (s.after looping (k + 1)).interrupts = n + 1 := by
    rcases s.after_succ looping k with hsame | ⟨f, hr⟩
    · rw [hsame] at hend
      exact absurd hopen hend
    · rw [(follows_of_renderFrame hr).interrupts, hn]
      cases hi : (s.after looping k).isInterrupt with
      | true => rfl
      | false =>
        have hquiet := congrArg Course.ended (course_of_renderFrame hr)
        rw [hi] at hquiet
        simp [course, hopen, hend] at hquiet
  constructor
  · rw [← hn, ← isSome_endFrame_after hzero, hopen]
    rfl
  · rw [← hnext, ← isSome_endFrame_after hzero]
    exact Option.isSome_iff_ne_none.2 hend

/-- A song that gets to the interrupt at which its beats end, ends there. -/
theorem endsAt_of_beats (hzero : s.interrupts = 0) {n m : ℕ}
    (hopen : ((beat looping)^[n] s).endFrame.isSome = false)
    (hend : ((beat looping)^[n + 1] s).endFrame.isSome = true)
    (hlt : n < (s.after looping m).interrupts) : s.EndsAt looping n m := by
  obtain ⟨k, hk, hn, hnext⟩ := exists_interrupt hzero hlt
  rw [← hn, ← isSome_endFrame_after hzero] at hopen
  rw [← hnext, ← isSome_endFrame_after hzero] at hend
  exact ⟨k, hk, hn, Option.not_isSome_iff_eq_none.1 (Bool.eq_false_iff.1 hopen),
    Option.isSome_iff_ne_none.1 hend⟩

variable {score : Score} {index : ℕ} {setup setup' : Setup} {s₀ s₀' : Sequencer}

/-- **The settings have no part in the course of a song.** Take the same song under any two settings,
with one loop limit and one loop flag. Whenever as many interrupts have come in both, whatever the
frames between them, they stand at the same place with the same speed, loops and master volume, their
tracks are the same, and the period and volume of every channel; this is so before the end and after
it. And the interrupt at which the end gets known is the same, if the other song comes so far. -/
theorem course_of_interrupts (h₀ : start score index setup = .ok s₀)
    (h₀' : start score index setup' = .ok s₀') (limit : Option ℕ) (looping : Bool) :
    let s := s₀.setLoopLimit limit
    let s' := s₀'.setLoopLimit limit
    (∀ m m' : ℕ, (s.after looping m).interrupts = (s'.after looping m').interrupts →
      let q := s.after looping m
      let q' := s'.after looping m'
      q'.progress = q.progress ∧ q'.mixer.master = q.mixer.master ∧ q'.tracks = q.tracks ∧
      (∀ i, (q'.mixer.channels.get i).period = (q.mixer.channels.get i).period ∧
        (q'.mixer.channels.get i).volume = (q.mixer.channels.get i).volume) ∧
      (q'.endFrame = none ↔ q.endFrame = none)) ∧
    ∀ n m m' : ℕ, s.EndsAt looping n m → n < (s'.after looping m').interrupts →
      s'.EndsAt looping n m' := by
  obtain ⟨-, song, hsong, rfl⟩ := start_eq_ok h₀
  obtain ⟨-, song', hsong', rfl⟩ := start_eq_ok h₀'
  obtain rfl : song = song' := Option.some.inj (hsong.symm.trans hsong')
  intro s s'
  have hstart : s'.course = s.course := rfl
  have hcourse (m m' : ℕ) (hm : (s.after looping m).interrupts = (s'.after looping m').interrupts) :
      (s'.after looping m').course = (s.after looping m).course := by
    rw [course_after rfl, course_after rfl, hm]
    exact course_iterate_beat hstart _
  refine ⟨fun m m' hm => ?_, fun n m m' hends hlt => ?_⟩
  · have h := hcourse m m' hm
    have hended := congrArg Course.ended h
    refine ⟨congrArg Course.progress h, congrArg Course.master h, congrArg Course.tracks h,
      fun i => Prod.mk.inj (get_registers h i), ?_⟩
    rw [← Option.not_isSome_iff_eq_none, ← Option.not_isSome_iff_eq_none]
    exact not_congr (Bool.eq_iff_iff.1 hended)
  · obtain ⟨hopen, hend⟩ := hends.beats rfl
    have hbeats (n : ℕ) : ((beat looping)^[n] s').endFrame.isSome =
        ((beat looping)^[n] s).endFrame.isSome :=
      congrArg Course.ended (course_iterate_beat hstart n)
    exact endsAt_of_beats rfl ((hbeats n).trans hopen) ((hbeats (n + 1)).trans hend) hlt

/-- Other settings, under which a row of the song has fifteen frames instead of ten. -/
def finer : Setup :=
  { rate := 3000, outputs := .quad, allowFilter := false, standard := .ntsc }

theorem echo_course :
    let s := echoing.setLoopLimit (some 0)
    let s' := (atStart echo ⟨1, 2, 0, 0, 0, 200⟩ finer).setLoopLimit (some 0)
    start echo 0 { rate := 2000 } = .ok echoing ∧
      start echo 0 finer = .ok (atStart echo ⟨1, 2, 0, 0, 0, 200⟩ finer) ∧
      (s.after true 11).interrupts = (s'.after true 16).interrupts ∧
      (s'.after true 16).tracks = (s.after true 11).tracks ∧
      s.EndsAt true 1 11 ∧ 1 < (s'.after true 16).interrupts ∧ s'.EndsAt true 1 16 := by
  intro s s'
  have hstart : start echo 0 { rate := 2000 } = .ok echoing := rfl
  have hstart' : start echo 0 finer = .ok (atStart echo ⟨1, 2, 0, 0, 0, 200⟩ finer) := rfl
  obtain ⟨hcourse, hend⟩ := course_of_interrupts hstart hstart' (some 0) true
  have hboth : (s.after true 11).interrupts = (s'.after true 16).interrupts := by decide +kernel
  have hends : s.EndsAt true 1 11 :=
    ⟨10, by decide, by decide +kernel, by decide +kernel, by decide +kernel⟩
  have hlong : 1 < (s'.after true 16).interrupts := by decide +kernel
  obtain ⟨-, -, htracks, -⟩ := hcourse 11 16 hboth
  exact ⟨hstart, hstart', hboth, htracks, hends, hlong, hend 1 11 16 hends hlong⟩

end Sequencer

end Chiptune
