import Mathlib
import Chiptune.Proofs.Punctual
import Chiptune.Proofs.Rows

/-!
# One more loop

Beside a song whose loops are limited runs the same song with one loop more. As long as the first
goes on, both make the same frames. When the first has played its last row and sounds on for the
length of one more, the other has looped; but its next row is not due before the first is over, and
until then both go by the same ticks. So a song with more loops begins with the song that has fewer.

* `still`: what a frame is made of, but for the place in the song.
* `Beside.follows`: **both make the same frame**, up to the end of the shorter song.
* `Stream.one_more_loop`: what is written with one loop more.
-/

namespace Chiptune

namespace Progress

variable {song : Song} {p : Progress} {goal : Option Place} {limit : ℕ}

/-- The progress under a limit with one loop more. -/
def raised (limit : ℕ) (p : Progress) : Progress :=
  { p with loopLimit := some (limit + 1) }

theorem mayLoop_raised (hle : p.loops ≤ limit) : (p.raised limit).mayLoop true = true := by
  have hlimit : (p.raised limit).loopLimit = some (limit + 1) := rfl
  exact (mayLoop_iff hlimit).2 ⟨rfl, Nat.lt_succ_of_le hle⟩

/-- With one loop more no row ends a song that has taken no more loops than the limit says. -/
theorem ends_raised (song : Song) (goal : Option Place) (hle : p.loops ≤ limit) :
    (p.raised limit).ends song true goal = false := by
  rw [ends, mayLoop_raised hle]
  exact Bool.and_false _

/-- A row that does not end the song turns it alike under both limits. -/
theorem turn_raised (hlimit : p.loopLimit = some limit) (hgo : p.ends song true goal = false) :
    (p.raised limit).turn song true goal = (p.turn song true goal).raised limit := by
  have hclose : (p.raised limit).closesPass song goal = p.closesPass song goal := rfl
  unfold turn
  dsimp only
  rw [hclose]
  cases h : p.closesPass song goal with
  | false => rfl
  | true =>
    have hmay : p.mayLoop true = true := by simpa [ends, h] using hgo
    have hloops := ((mayLoop_iff hlimit).1 hmay).2
    rw [hmay, mayLoop_raised hloops.le]
    rfl

end Progress

namespace Sequencer

variable {looping : Bool} {limit : ℕ} {s a b a' b' : Sequencer} {f : Frame}

/-- What the next frame is made of if it plays no row: of the progress no more than the speed. -/
def still (s : Sequencer) : Sequencer :=
  { s with progress := { Progress.start s.song with speed := s.progress.speed }, endFrame := none }

/-- A frame without a row is made of just that. -/
theorem still_moved (hrow : s.playsRow = false) (looping : Bool) :
    (s.moved looping).still = s.still := by
  unfold moved
  split
  · rename_i h
    obtain ⟨hi, he⟩ : s.isInterrupt = true ∧ s.endFrame = none := by simpa using h
    have hdue : s.progress.isDue = false := by simpa [playsRow, hi, he] using hrow
    rw [advance_eq, hdue, if_neg Bool.false_ne_true]
    rfl
  · rfl

/-- A row is the same under every loop limit. -/
theorem still_playRow (s : Sequencer) (limit : Option ℕ) :
    ((s.setLoopLimit limit).playRow looping).still = (s.playRow looping).still := by
  unfold playRow playRowBy still
  dsimp only
  rw [(Progress.speed_turn _ _ _ _).1, (Progress.speed_turn _ _ _ _).1]
  rfl

/-- So is the whole frame. -/
theorem still_moved_setLoopLimit (s : Sequencer) (limit : Option ℕ) :
    ((s.setLoopLimit limit).moved looping).still = (s.moved looping).still := by
  have hadvance : ((s.setLoopLimit limit).advance looping).still = (s.advance looping).still := by
    have hdue : (s.setLoopLimit limit).progress.isDue = s.progress.isDue := rfl
    rw [advance_eq, advance_eq, hdue]
    split
    · exact still_playRow { s with progress := s.progress.counted } limit
    · rfl
  have hmoves : ((s.setLoopLimit limit).isInterrupt && (s.setLoopLimit limit).endFrame.isNone) =
      (s.isInterrupt && s.endFrame.isNone) := rfl
  unfold moved
  rw [hmoves]
  split
  · exact hadvance
  · rfl

/-- **Songs that have moved alike make the same frame.** -/
theorem exists_frame (ha : a.isFinished = false) (hb : b.isFinished = false)
    (hstill : b.still = a.still) (hmoved : (b.moved looping).still = (a.moved looping).still) :
    ∃ f a' b', a.renderFrame looping = some (f, a') ∧ b.renderFrame looping = some (f, b') ∧
      b'.still = a'.still := by
  have hi : b.isInterrupt = a.isInterrupt := by
    change b.still.isInterrupt = a.still.isInterrupt
    rw [hstill]
  have hsounded (q : Sequencer) (i : Bool) : (q.sounded i).still = q.still.sounded i := by
    cases i <;> rfl
  have hq : ((b.moved looping).sounded b.isInterrupt).still =
      ((a.moved looping).sounded a.isInterrupt).still := by
    rw [hsounded, hsounded, hmoved, hi]
  rw [renderFrame_of_unfinished looping ha, renderFrame_of_unfinished looping hb]
  generalize (a.moved looping).sounded a.isInterrupt = p at hq
  generalize (b.moved looping).sounded b.isInterrupt = q at hq
  -- the mixer and the outputs are the same, so the frame is
  have hrender : q.mixer.render q.setup.outputs = p.mixer.render p.setup.outputs := by
    change q.still.mixer.render q.still.setup.outputs = p.still.mixer.render p.still.setup.outputs
    rw [hq]
  refine ⟨_, _, _, rfl, by dsimp only; rw [hrender], ?_⟩
  exact congrArg (fun r : Sequencer =>
    { r with mixer := (p.mixer.render p.setup.outputs).2, frames := r.frames + 1 }) hq

/-! ## Two songs side by side -/

/-- How a song and the same song with one loop more go on. -/
inductive Stage (limit : ℕ) (a b : Sequencer) : Prop
  /-- Both stand at the same place. -/
  | together (ha : a.endFrame = none) (hb : b.progress = a.progress.raised limit)
  /-- The first has played its last row, and is over before the second plays another one. -/
  | fading {e : ℕ} (ha : a.endFrame = some e) (hb : e * a.song.interruptRate.toNat <
      (b.interrupts + b.progress.wait) * a.setup.rate + a.song.interruptRate.toNat)

/-- A song beside the same song with one loop more, whose end is open. -/
structure Beside (limit : ℕ) (a b : Sequencer) : Prop extends a.Steady where
  still : b.still = a.still
  steady : b.Steady
  abreast : b.Abreast
  looped : a.Looped limit
  keepsSpeed : a.score.KeepsSpeed
  prompt : a.Prompt
  openEnd : b.endFrame = none
  stage : Stage limit a b

/-- At the same place the second song is the first one, under the higher limit. -/
theorem eq_setLoopLimit (hstill : b.still = a.still) (hb : b.endFrame = none)
    (ha : a.endFrame = none) (hprogress : b.progress = a.progress.raised limit) :
    b = a.setLoopLimit (some (limit + 1)) := by
  have h := congrArg (fun r : Sequencer =>
    { r with progress := b.progress, endFrame := b.endFrame }) hstill
  rw [show b = _ from h, hb, hprogress, ← ha]
  rfl

/-- Songs that are still alike have come equally far. -/
theorem still_spec (h : b.still = a.still) :
    b.frames = a.frames ∧ b.interrupts = a.interrupts ∧ b.progress.speed = a.progress.speed ∧
      b.isInterrupt = a.isInterrupt := by
  have hframes := congrArg Sequencer.frames h
  have hinterrupts := congrArg Sequencer.interrupts h
  have hspeed := congrArg (fun r => r.progress.speed) h
  have hinterrupt := congrArg isInterrupt h
  exact ⟨hframes, hinterrupts, hspeed, hinterrupt⟩

/-- **Before the first song is over the second plays no row**: its next row is due no sooner. -/
theorem Beside.playsRow_eq_false (h : Beside limit a b) (hexact : a.Punctual)
    (hopen : a.isFinished = false) {e : ℕ} (he : a.endFrame = some e)
    (hlt : e * a.song.interruptRate.toNat <
      (b.interrupts + b.progress.wait) * a.setup.rate + a.song.interruptRate.toNat) :
    b.playsRow = false := by
  by_contra hrow
  rw [Bool.not_eq_false] at hrow
  obtain ⟨hi, -, hdue⟩ := playsRow_iff.1 hrow
  obtain ⟨-, hinterrupts, -, hinterrupt⟩ := still_spec h.still
  rw [Progress.wait_of_isDue hdue, hinterrupts, Nat.add_zero] at hlt
  have hpast := hexact.1 (hinterrupt ▸ hi)
  have hbefore : a.frames + 1 ≤ e := by simpa [isFinished, he] using hopen
  have := Nat.mul_le_mul_right a.song.interruptRate.toNat hbefore
  rw [Nat.add_mul, Nat.one_mul] at this
  omega

/-- **When the first song plays its last row** the second goes on, and its next row comes no sooner
than the first is over. -/
theorem Beside.finish_follows (h : Beside limit a b)
    (hrow : b.playsRow = true) (hb : Follows true b f b') (hgo : b'.endFrame = none) :
    (a.frames + { a with progress := a.rowProgress }.rowFrames) * a.song.interruptRate.toNat <
      (b'.interrupts + b'.progress.wait) * a.setup.rate + a.song.interruptRate.toNat := by
  obtain ⟨-, hinterrupts, hspeed, -⟩ := still_spec h.still
  have hkeeps : b.score.KeepsSpeed := by
    have hscore := congrArg Sequencer.score h.still
    change b.score = a.score at hscore
    rw [hscore]
    exact h.keepsSpeed
  have hwaits := waits_of_playsRow h.steady h.abreast hrow hb hgo
  rw [hb.speed_eq hkeeps, h.abreast.mod_speed hrow, Nat.sub_zero, hinterrupts, hspeed] at hwaits
  have hprompt : a.frames * a.song.interruptRate.toNat <
    a.interrupts * a.setup.rate + a.song.interruptRate.toNat := h.prompt
  have hlast := rowFrames_mul_le h.toSound.rowProgress
  change _ ≤ a.rowProgress.speed * a.setup.rate at hlast
  rw [speed_rowProgress_eq h.keepsSpeed] at hlast
  change { a with progress := a.rowProgress }.rowFrames * a.song.interruptRate.toNat ≤ _ at hlast
  rw [hwaits, Nat.add_mul, Nat.add_mul]
  omega

/-- Songs at the same place go on together, up to the last row of the first. -/
theorem Beside.together_follows (h : Beside limit a b) (hopen : a.endFrame = none)
    (hprogress : b.progress = a.progress.raised limit) (ha : Follows true a f a')
    (hb : Follows true b f b') : b'.endFrame = none ∧ Stage limit a' b' := by
  obtain rfl := eq_setLoopLimit h.still h.openEnd hopen hprogress
  have hsame : (a.setLoopLimit (some (limit + 1))).playsRow = a.playsRow := rfl
  cases hrow : a.playsRow with
  | false =>
    obtain ⟨hpa, hea⟩ := ha.of_not_playsRow hrow
    obtain ⟨hpb, heb⟩ := hb.of_not_playsRow (hsame.trans hrow)
    refine ⟨heb.trans hopen, .together (hea.trans hopen) ?_⟩
    rw [hpb, hpa]
    change (if a.isInterrupt && a.endFrame.isNone then _ else _) = _
    split
    · rfl
    · rfl
  | true =>
    obtain ⟨hpa, hea⟩ := ha.of_playsRow hrow
    obtain ⟨hpb, heb⟩ := hb.of_playsRow (hsame.trans hrow)
    change b'.progress = (a.rowProgress.raised limit).turn a.song true a.goal? at hpb
    change b'.endFrame =
      if (a.rowProgress.raised limit).ends a.song true a.goal? then _ else none at heb
    have hloops : a.rowProgress.loops ≤ limit := h.looped.le
    rw [Progress.ends_raised a.song a.goal? hloops, if_neg Bool.false_ne_true] at heb
    refine ⟨heb, ?_⟩
    cases hends : a.rowProgress.ends a.song true a.goal? with
    | false =>
      rw [hends, if_neg Bool.false_ne_true] at hea
      refine .together hea ?_
      rw [hpb, hpa]
      exact Progress.turn_raised h.looped.limited hends
    | true =>
      rw [hends, if_pos rfl] at hea
      refine .fading hea ?_
      rw [song_eq_of_reset_eq ha.reset, setup_eq_of_reset_eq ha.reset]
      exact h.finish_follows (hsame.trans hrow) hb heb

/-- **A frame leaves the songs side by side.** -/
theorem Beside.stage_follows (h : Beside limit a b) (hexact : a.Punctual)
    (ha : Follows true a f a') (hb : Follows true b f b') :
    b'.endFrame = none ∧ Stage limit a' b' := by
  cases h.stage with
  | together hopen hprogress => exact h.together_follows hopen hprogress ha hb
  | fading he hlt =>
    have hquiet := h.playsRow_eq_false hexact ha.unfinished he hlt
    obtain ⟨heb, hwaits, -⟩ := waits_follows h.steady h.openEnd hquiet hb
    have hea := (ha.progress_of_end (he ▸ Option.some_ne_none _)).2
    refine ⟨heb, .fading (hea.trans he) ?_⟩
    rwa [hwaits, song_eq_of_reset_eq ha.reset, setup_eq_of_reset_eq ha.reset]

/-- **Both songs make the same frame**, as long as the first is not over. -/
theorem Beside.follows (h : Beside limit a b) (hexact : a.Punctual) (hopen : a.isFinished = false) :
    ∃ f a' b', a.renderFrame true = some (f, a') ∧ b.renderFrame true = some (f, b') ∧
      Beside limit a' b' := by
  have hopen' : b.isFinished = false := by rw [isFinished, h.openEnd]; rfl
  have hmoved : (b.moved true).still = (a.moved true).still := by
    cases h.stage with
    | together hnone hprogress =>
      rw [eq_setLoopLimit h.still h.openEnd hnone hprogress]
      exact still_moved_setLoopLimit a _
    | fading he hlt =>
      have hquiet : a.playsRow = false := by simp [playsRow, he]
      rw [still_moved hquiet, still_moved (h.playsRow_eq_false hexact hopen he hlt), h.still]
  obtain ⟨f, a', b', hra, hrb, hstill⟩ := exists_frame hopen hopen' h.still hmoved
  have ha := follows_of_renderFrame hra
  have hb := follows_of_renderFrame hrb
  obtain ⟨hgo, hstage⟩ := h.stage_follows hexact ha hb
  refine ⟨f, a', b', hra, hrb, ?_⟩
  exact
    { toSteady := h.toSteady.follows ha
      still := hstill
      steady := h.steady.follows hb
      abreast := h.abreast.follows hb
      looped := h.looped.follows ha
      keepsSpeed := score_eq_of_reset_eq ha.reset ▸ h.keepsSpeed
      prompt := h.prompt.follows h.toSound hexact ha
      openEnd := hgo
      stage := hstage }

/-- **The second song makes all frames of the first** and is not over then. -/
theorem Beside.run (h : Beside limit a b) (hexact : a.OnTime) {n : ℕ}
    (hall : (run (List.replicate n true) a).1.length = n) :
    (run (List.replicate n true) b).1 = (run (List.replicate n true) a).1 ∧
      (run (List.replicate n true) b).2.isFinished = false := by
  induction n generalizing a b with
  | zero => exact ⟨rfl, by rw [List.replicate_zero, Sequencer.run, isFinished, h.openEnd]; rfl⟩
  | succ n ih =>
    have hopen : a.isFinished = false := by
      by_contra hend
      rw [run_of_finished (Bool.not_eq_false _ ▸ hend)] at hall
      cases hall
    obtain ⟨f, a', b', hra, hrb, h'⟩ := h.follows (hexact 0 hopen) hopen
    rw [List.replicate_succ, run_cons_of_some hra, List.length_cons] at hall
    rw [List.replicate_succ, run_cons_of_some hra, run_cons_of_some hrb]
    obtain ⟨hframes, hgo⟩ := ih h' (hexact.follows hra).2 (Nat.succ.inj hall)
    exact ⟨congrArg (f :: ·) hframes, hgo⟩

end Sequencer

namespace Stream

variable {score : Score} {index : ℕ} {setup : Setup} {s₀ : Stream}

/-- At their start the songs are side by side. -/
theorem beside_start (h₀ : start score index setup = .ok s₀) (hkeeps : score.KeepsSpeed)
    (loops : ℕ) : Sequencer.Beside loops (s₀.sequencer.setLoopLimit (some loops))
      (s₀.sequencer.setLoopLimit (some (loops + 1))) := by
  obtain ⟨hsteady, -, hprompt⟩ := prompt_start h₀ (some loops)
  obtain ⟨hsteady', habreast, -⟩ := prompt_start h₀ (some (loops + 1))
  obtain ⟨-, song, -, rfl⟩ := start_eq_ok h₀
  exact
    { toSteady := hsteady
      still := rfl
      steady := hsteady'
      abreast := habreast
      looped := ⟨rfl, Nat.zero_le _, fun he => absurd rfl he⟩
      keepsSpeed := hkeeps
      prompt := hprompt
      openEnd := rfl
      stage := .together rfl rfl }

/-- **One more loop only appends.** If no note sets the speed, both writes come to their end, and a song
that is written whole with one loop more begins with all that is written without it, and is longer,
wherever its rows lead and however the streams were used before. -/
theorem one_more_loop (h₀ : start score index setup = .ok s₀) (requests requests' : List Request)
    {loops : ℕ} (hloops : loops < 100)
    (hkeeps : ∀ note ∈ score.notes, note.command ≠ .setSpeed)
    (hexact : (s₀.sequencer.setLoopLimit (some loops)).OnTime) (unsigned : Bool) :
    let s := requests.foldl after s₀
    let s' := requests'.foldl after s₀
    ((s.reset.limited (some loops)).drain unsigned .endless).isSome ∧
    ((s'.reset.limited (some (loops + 1))).drain unsigned .endless).isSome ∧
    ∃ pcm pcm', (s.write loops true unsigned .endless).whole = .ok pcm ∧
      (s'.write (loops + 1) true unsigned .endless).whole = .ok pcm' ∧
      pcm.toList <+: pcm'.toList ∧ pcm.size < pcm'.size := by
  intro s s'
  have hready : Ready s₀ s₀ := (start_eq_ok h₀).1
  refine ⟨(hready.foldl_after requests).rewound.drain_isSome loops unsigned .endless,
    (hready.foldl_after requests').rewound.drain_isSome (loops + 1) unsigned .endless, ?_⟩
  obtain ⟨n, pcm, hn, hwhole, hpcm⟩ := exists_whole h₀ requests hloops.le unsigned
  obtain ⟨m, pcm', hm, hwhole', hpcm'⟩ := exists_whole h₀ requests' hloops unsigned
  obtain ⟨hframes, hgo⟩ := (beside_start h₀ hkeeps loops).run hexact hn.all
  obtain ⟨i, rfl, hi⟩ := hm.split (hframes ▸ hn.all)
  -- the longer song is not over when the shorter one is
  have hmore : 0 < i := by
    by_contra hzero
    obtain rfl : i = 0 := Nat.eq_zero_of_not_pos hzero
    have hended : (Sequencer.run _ _).2.isFinished = true := hi.ended
    rw [List.replicate_zero, Sequencer.run, hgo] at hended
    cases hended
  refine ⟨pcm, pcm', hwhole, hwhole', ?_, ?_⟩
  · rw [hpcm, hpcm', ← hframes, List.replicate_add, Sequencer.run_append, Frame.pcm_append,
      sent_append]
    exact List.prefix_append _ _
  · have hsize := congrArg List.length hpcm
    have hsize' := congrArg List.length hpcm'
    rw [Array.length_toList, length_sent, Sequencer.length_pcm_run, hn.all] at hsize
    rw [Array.length_toList, length_sent, Sequencer.length_pcm_run, hm.all] at hsize'
    rw [hsize, hsize']
    exact Nat.mul_lt_mul_of_pos_right (Nat.lt_add_of_pos_right hmore) s₀.frameSize_pos

/-- In this song a row of each pass leads back. -/
theorem wheel_once_more :
    ∃ s₀, start wheel 0 { rate := 2000 } = .ok s₀ ∧ 1 < 100 ∧
      (∀ note ∈ wheel.notes, note.command ≠ .setSpeed) ∧
      (s₀.sequencer.setLoopLimit (some 1)).OnTime ∧
      let s := [Request.read 30 true].foldl after s₀
      ((s₀.reset.limited (some 1)).drain false .endless).isSome ∧
      ((s.reset.limited (some 2)).drain false .endless).isSome ∧
      ∃ pcm pcm', (s₀.write 1 true false .endless).whole = .ok pcm ∧
        (s.write 2 true false .endless).whole = .ok pcm' ∧
        pcm.toList <+: pcm'.toList ∧ pcm.size < pcm'.size := by
  obtain ⟨s₀, h₀⟩ : ∃ s₀, start wheel 0 { rate := 2000 } = .ok s₀ := ⟨_, rfl⟩
  have hkeeps : ∀ note ∈ wheel.notes, note.command ≠ .setSpeed := by decide
  have hexact : (s₀.sequencer.setLoopLimit (some 1)).OnTime := by
    cases h₀
    exact Sequencer.onTime_of_keepsTime (n := 20) (by decide +kernel)
  have hmore := one_more_loop h₀ [] [.read 30 true] (show 1 < 100 by decide) hkeeps hexact false
  exact ⟨s₀, h₀, by decide, hkeeps, hexact, hmore⟩

end Stream

end Chiptune
