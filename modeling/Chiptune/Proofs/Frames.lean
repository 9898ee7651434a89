import Mathlib
import Chiptune.Proofs.Clock
import Chiptune.Proofs.Passes

/-!
# The frames of a song

What one frame does to a song, and what a row of frames does. A frame moves the time by one, it may
bring an interrupt, and only an interrupt before the end moves the song.

* `Follows`, `follows_of_renderFrame`: everything that a frame changes.
* `Steady`, `Steady.run`: **the end is never passed**, and the speed stays in its limits.
* `run`: the frames under given loop flags; `run_append` cuts them anywhere.
-/

namespace Chiptune

/-- The bytes of some frames, one after the other. -/
def Frame.pcm (fs : List Frame) : List UInt8 :=
  fs.flatMap fun f => f.bytes.toList

namespace Frame

variable {fs gs : List Frame} {m : ℕ}

theorem pcm_append (fs gs : List Frame) : pcm (fs ++ gs) = pcm fs ++ pcm gs :=
  List.flatMap_append

theorem pcm_mono (h : fs <+: gs) : pcm fs <+: pcm gs := by
  obtain ⟨rest, rfl⟩ := h
  rw [pcm_append]
  exact List.prefix_append _ _

theorem length_pcm (h : ∀ f ∈ fs, f.bytes.size = m) : (pcm fs).length = fs.length * m := by
  induction fs with
  | nil => exact (Nat.zero_mul m).symm
  | cons f fs ih =>
    rw [pcm, List.flatMap_cons, List.length_append, ← pcm, ih fun g hg => h g (by simp [hg]),
      Array.length_toList, h f (by simp), List.length_cons, Nat.succ_mul, Nat.add_comm]

/-- The bytes are cut between frames as the frames are. -/
theorem pcm_cut (h : ∀ f ∈ fs, f.bytes.size = m) {k : ℕ} {xs ys : List UInt8}
    (hxy : xs ++ ys = pcm fs) (hk : xs.length = k * m) :
    xs = pcm (fs.take k) ∧ ys = pcm (fs.drop k) := by
  have hcut : pcm (fs.take k) ++ pcm (fs.drop k) = xs ++ ys := by
    rw [hxy, ← pcm_append, List.take_append_drop]
  have hlen : (pcm (fs.take k)).length = min k fs.length * m := by
    rw [length_pcm fun f hf => h f (List.mem_of_mem_take hf), List.length_take]
  rcases Nat.le_total k fs.length with hle | hge
  · obtain ⟨hx, hy⟩ := List.append_inj hcut (by rw [hlen, hk, Nat.min_eq_left hle])
    exact ⟨hx.symm, hy.symm⟩
  · have hall := congrArg List.length hxy
    rw [List.length_append, hk, length_pcm h] at hall
    have : fs.length * m ≤ k * m := Nat.mul_le_mul_right m hge
    obtain rfl : ys = [] := List.eq_nil_of_length_eq_zero (by omega)
    rw [List.take_of_length_le hge, List.drop_of_length_le hge, ← hxy, List.append_nil]
    exact ⟨rfl, rfl⟩

end Frame

/-- The filter and the volume are switched, but the clock and the filter's permission stay. -/
theorem Directive.reset_onMixer (d : Directive) (m : Mixer) : (d.onMixer m).reset = m.reset := by
  cases d <;> rfl

theorem Mixer.reset_render (m : Mixer) (outputs : Outputs) :
    (m.render outputs).2.reset = m.reset := by
  unfold render
  split <;> rfl

namespace Sequencer

variable {looping : Bool} {s s' : Sequencer} {f : Frame}

/-- The song as the next frame moves it: an interrupt before the end advances it. -/
def moved (looping : Bool) (s : Sequencer) : Sequencer :=
  if s.isInterrupt && s.endFrame.isNone then s.advance looping else s

/-- The progress in which a row turns: one more interrupt has come, and the directives of the row
have set the speed. -/
def rowProgress (s : Sequencer) : Progress :=
  { s.progress.counted with
    speed := s.directives.foldl (fun n d => Directive.onSpeed d n) s.progress.speed }

/-- Where the directives of the next row lead. -/
def goal? (s : Sequencer) : Option Place :=
  Directive.lastGoal? s.directives s.progress.place.step

/-- The progress and the end that a song can have after a frame. -/
inductive Move (looping : Bool) (s : Sequencer) : Progress → Option ℕ → Prop
  /-- No interrupt comes, or none that counts. -/
  | stay (h : s.isInterrupt = false ∨ s.endFrame ≠ none) : Move looping s s.progress s.endFrame
  /-- An interrupt comes in the middle of a row. -/
  | count (hi : s.isInterrupt = true) (he : s.endFrame = none) (hd : s.progress.isDue = false) :
      Move looping s s.progress.counted none
  /-- A row is played, and another one follows. -/
  | turn (hi : s.isInterrupt = true) (he : s.endFrame = none) (hd : s.progress.isDue = true)
      (hgo : s.rowProgress.ends s.song looping s.goal? = false) :
      Move looping s (s.rowProgress.turn s.song looping s.goal?) none
  /-- The last row is played. -/
  | finish (hi : s.isInterrupt = true) (he : s.endFrame = none) (hd : s.progress.isDue = true)
      (hend : s.rowProgress.ends s.song looping s.goal? = true) :
      Move looping s (s.rowProgress.turn s.song looping s.goal?)
        (some (s.frames + { s with progress := s.rowProgress }.rowFrames))

/-- Before the end a moved song has made one of these moves, and after the end it stays. -/
theorem move_moved (looping : Bool) (s : Sequencer) :
    Move looping s (s.moved looping).progress (s.moved looping).endFrame := by
  unfold moved
  split
  · rename_i h
    obtain ⟨hi, he⟩ : s.isInterrupt = true ∧ s.endFrame = none := by simpa using h
    rw [advance_eq]
    split
    · rename_i hd
      have hprogress : (playRow looping { s with progress := s.progress.counted }).progress =
          s.rowProgress.turn s.song looping s.goal? := rfl
      have hendFrame : (playRow looping { s with progress := s.progress.counted }).endFrame =
          if s.rowProgress.ends s.song looping s.goal? then
            some (s.frames + { s with progress := s.rowProgress }.rowFrames) else s.endFrame := rfl
      rw [hprogress, hendFrame]
      split <;> rename_i hend
      · exact .finish hi he hd hend
      · rw [he]
        exact .turn hi he hd (Bool.eq_false_iff.2 hend)
    · rename_i hd
      rw [he]
      exact .count hi he (by simpa using hd)
  · rename_i h
    refine .stay ?_
    cases hi : s.isInterrupt
    · exact Or.inl rfl
    · exact Or.inr fun he => h (by simp [hi, he])

theorem ext_get {α : Type} {v w : Vector α 4} (h : ∀ i : Fin 4, v.get i = w.get i) : v = w :=
  Vector.ext fun i hi => h ⟨i, hi⟩

/-- What a row makes of a track and its channel. -/
theorem get_played (s : Sequencer) (i : Fin 4) : s.played.get i =
    let x := (s.tracks.get i).play s.score (s.row.get i).1 (s.row.get i).2 s.time
      (s.mixer.channels.get i)
    (x.1.command (s.row.get i).2, x.2) := by
  rw [played, playedBy, Vector.get_ofFn]
  rfl

/-- What a frame does to a song, apart from its sound. -/
structure Follows (looping : Bool) (s : Sequencer) (f : Frame) (s' : Sequencer) : Prop where
  unfinished : s.isFinished = false
  size : f.bytes.size = s.setup.frameSize
  frames : s'.frames = s.frames + 1
  interrupts : s'.interrupts = s.interrupts + s.isInterrupt.toNat
  move : Move looping s s'.progress s'.endFrame
  -- the song at its start says which score, song, settings and loop limit there are
  reset : s'.reset = s.reset

theorem reset_playRow (looping : Bool) (s : Sequencer) : (s.playRow looping).reset = s.reset := by
  have hmixer (ds : List Directive) (m : Mixer) :
      (ds.foldl (fun m d => d.onMixer m) m).reset = m.reset := by
    induction ds generalizing m with
    | nil => rfl
    | cons d ds ih => rw [List.foldl_cons, ih, d.reset_onMixer]
  have hlimit (p : Progress) (goal : Option Place) :
      (p.turn s.song looping goal).loopLimit = p.loopLimit := by
    unfold Progress.turn
    split <;> rfl
  simp only [playRow, playRowBy, reset, Progress.restart, hmixer, hlimit]
  rfl

theorem reset_moved (looping : Bool) (s : Sequencer) : (s.moved looping).reset = s.reset := by
  unfold moved
  split
  · rw [advance_eq]
    split
    · rw [reset_playRow]
      rfl
    · rfl
  · rfl

theorem setup_eq_of_reset_eq (h : s'.reset = s.reset) : s'.setup = s.setup := by
  change s'.reset.setup = s.reset.setup
  rw [h]

theorem song_eq_of_reset_eq (h : s'.reset = s.reset) : s'.song = s.song := by
  change s'.reset.song = s.reset.song
  rw [h]

theorem loopLimit_eq_of_reset_eq (h : s'.reset = s.reset) :
    s'.progress.loopLimit = s.progress.loopLimit := by
  change s'.reset.progress.loopLimit = s.reset.progress.loopLimit
  rw [h]

/-- Moving the channels on, with or without a tick, changes nothing but sound and the interrupts. -/
def sounded (interrupt : Bool) (s : Sequencer) : Sequencer :=
  if interrupt then s.seek.tick else s.seek

theorem sounded_spec (interrupt : Bool) (s : Sequencer) :
    (s.sounded interrupt).reset = s.reset ∧ (s.sounded interrupt).frames = s.frames ∧
      (s.sounded interrupt).interrupts = s.interrupts + interrupt.toNat ∧
      (s.sounded interrupt).progress = s.progress ∧ (s.sounded interrupt).endFrame = s.endFrame := by
  cases interrupt <;> exact ⟨rfl, rfl, rfl, rfl, rfl⟩

/-- The frame that the moved song makes. -/
theorem renderFrame_of_unfinished (looping : Bool) (h : s.isFinished = false) :
    s.renderFrame looping =
      let q := (s.moved looping).sounded s.isInterrupt
      some ((q.mixer.render q.setup.outputs).1,
        { q with mixer := (q.mixer.render q.setup.outputs).2, frames := q.frames + 1 }) := by
  rw [renderFrame, renderFrameBy, if_neg (by simp [h])]
  rfl

/-- **A frame does no more than it should.** -/
theorem follows_of_renderFrame (h : s.renderFrame looping = some (f, s')) :
    Follows looping s f s' := by
  have hopen : s.isFinished = false := by
    rw [← Bool.not_eq_true, ← renderFrame_eq_none_iff looping, h]
    nofun
  have hframes : (s.moved looping).frames = s.frames := by
    unfold moved
    split <;> simp
  have hinterrupts : (s.moved looping).interrupts = s.interrupts := by
    unfold moved advance advanceBy
    split
    · split <;> rfl
    · rfl
  -- the frame is made of the moved song, and sound is all that is left to do
  obtain ⟨hr, hf, hi, hp, he⟩ := (s.moved looping).sounded_spec s.isInterrupt
  rw [renderFrame_of_unfinished looping hopen] at h
  generalize (s.moved looping).sounded s.isInterrupt = q at h hr hf hi hp he
  obtain ⟨rfl, rfl⟩ := Prod.mk.inj (Option.some.inj h)
  have hreset : q.reset = s.reset := hr.trans (reset_moved looping s)
  refine ⟨hopen, ?_, congrArg (· + 1) (hf.trans hframes), hi.trans (by rw [hinterrupts]), ?_, ?_⟩
  · rw [Frame.size_bytes, Mixer.size_render, setup_eq_of_reset_eq hreset]
    rfl
  · rw [hp, he]
    exact move_moved looping s
  · rw [← hreset]
    exact congrArg (fun m => { q.reset with mixer := m }) (Mixer.reset_render _ _)

/-! ## Nothing leads out of the limits -/

/-- Directives keep the speed in its limits. -/
theorem speed_rowProgress (h : s.Sound) : 0 < s.rowProgress.speed ∧ s.rowProgress.speed ≤ 16 := by
  have hfold (ns : List Note) (n : ℕ) (hn : 0 < n ∧ n ≤ 16) :
      0 < (ns.map Directive.ofNote).foldl (fun n d => Directive.onSpeed d n) n ∧
        (ns.map Directive.ofNote).foldl (fun n d => Directive.onSpeed d n) n ≤ 16 := by
    induction ns generalizing n with
    | nil => exact hn
    | cons note ns ih =>
      rw [List.map_cons, List.foldl_cons]
      refine ih _ ?_
      unfold Directive.ofNote
      dsimp only
      split <;> try exact hn
      split
      · assumption
      · exact hn
  have hmap : s.directives = (s.row.toList.map Prod.snd).map Directive.ofNote := by
    rw [directives, List.map_map]
    rfl
  rw [rowProgress, hmap]
  exact hfold _ _ ⟨h.speed_pos, h.speed_le⟩

theorem Sound.rowProgress (h : s.Sound) : { s with progress := s.rowProgress }.Sound :=
  have hspeed := speed_rowProgress h
  ⟨h.rate_ge, h.rate_le, h.irq_pos, h.irq_le, hspeed.1, hspeed.2⟩

/-- The speed of a moved song is that of the song, or the one that a row has set. -/
theorem Move.speed {p : Progress} {e : Option ℕ} (h : Move looping s p e) :
    p.speed = s.progress.speed ∨ p.speed = s.rowProgress.speed := by
  cases h with
  | stay | count => exact Or.inl rfl
  | turn | finish => exact Or.inr (Progress.speed_turn _ _ _ _).1

/-- **A song stays sound.** -/
theorem Sound.follows (h : s.Sound) (hf : Follows looping s f s') : s'.Sound := by
  have hsetup := setup_eq_of_reset_eq hf.reset
  have hsong := song_eq_of_reset_eq hf.reset
  have hrow := speed_rowProgress h
  have hspeed : 0 < s'.progress.speed ∧ s'.progress.speed ≤ 16 := by
    rcases hf.move.speed with hs | hs <;> rw [hs]
    · exact ⟨h.speed_pos, h.speed_le⟩
    · exact hrow
  exact ⟨hsetup ▸ h.rate_ge, hsetup ▸ h.rate_le, hsong ▸ h.irq_pos, hsong ▸ h.irq_le, hspeed.1,
    hspeed.2⟩

/-- A sound song that is on its track, or has an end and has not passed it. -/
structure Steady (s : Sequencer) : Prop extends s.Sound where
  ahead : ∀ e, s.endFrame = some e → s.frames ≤ e
  onTrack : s.endFrame = none → s.progress.OnTrack s.song

/-- When the end gets known it is ahead, for a row has frames. -/
theorem Move.lt_of_endFrame (h : s.Steady) (hopen : s.isFinished = false) {p : Progress}
    {o : Option ℕ} (hm : Move looping s p o) : ∀ e, o = some e → s.frames < e := by
  intro e ho
  cases hm with
  | stay =>
    have := h.ahead e ho
    simp only [isFinished, ho, Option.any_some, decide_eq_false_iff_not] at hopen
    omega
  | count | turn => cases ho
  | finish =>
    -- the last row sounds at the speed that its own directives set
    have := rowFrames_pos h.toSound.rowProgress
    have := Option.some.inj ho
    omega

/-- Before the end a moved song is on its track. -/
theorem Move.onTrack (h : s.Steady) {p : Progress} {o : Option ℕ} (hm : Move looping s p o) :
    o = none → p.OnTrack s.song := by
  intro ho
  cases hm with
  | stay => exact h.onTrack ho
  | count hi he hd =>
    have := h.onTrack he
    exact ⟨this.row, this.step⟩
  | turn hi he hd hgo =>
    have := h.onTrack he
    exact (Progress.rowsLeft_turn (p := s.rowProgress) ⟨this.row, this.step⟩ hgo).1
  | finish => cases ho

/-- **The end is not passed**, and until then the track is not left. -/
theorem Steady.follows (h : s.Steady) (hf : Follows looping s f s') : s'.Steady := by
  refine ⟨h.toSound.follows hf, fun e he => ?_, fun he => ?_⟩
  · rw [hf.frames]
    exact hf.move.lt_of_endFrame h hf.unfinished e he
  · rw [song_eq_of_reset_eq hf.reset]
    exact hf.move.onTrack h he

/-- A loop limit has no part in the limits of a song. -/
theorem Steady.setLoopLimit (h : s.Steady) (limit : Option ℕ) : (s.setLoopLimit limit).Steady :=
  ⟨⟨h.rate_ge, h.rate_le, h.irq_pos, h.irq_le, h.speed_pos, h.speed_le⟩, h.ahead,
    fun he => ⟨(h.onTrack he).row, (h.onTrack he).step⟩⟩

/-- A song is accepted exactly if its interrupts and its speed are in their limits. -/
theorem songFault?_eq_none_iff {song : Song} :
    songFault? song = none ↔ 0 < song.interruptRate.toNat ∧ song.interruptRate.toNat ≤ 200 ∧
      0 < song.speed.toNat ∧ song.speed.toNat ≤ 16 := by
  have hirq : (1 ≤ song.interruptRate && song.interruptRate ≤ 200) = true ↔
      0 < song.interruptRate.toNat ∧ song.interruptRate.toNat ≤ 200 := by
    simp [UInt16.le_iff_toNat_le, Nat.succ_le_iff]
  have hspeed : (1 ≤ song.speed && song.speed ≤ 16) = true ↔
      0 < song.speed.toNat ∧ song.speed.toNat ≤ 16 := by
    simp [UInt16.le_iff_toNat_le, Nat.succ_le_iff]
  rw [← and_assoc, ← hirq, ← hspeed, songFault?]
  cases 1 ≤ song.interruptRate && song.interruptRate ≤ 200 <;>
    cases 1 ≤ song.speed && song.speed ≤ 16 <;> simp

/-- A song that is accepted is steady at its start. -/
theorem start_eq_ok {score : Score} {index : ℕ} {setup : Setup}
    (h : start score index setup = .ok s) :
    s.Steady ∧ ∃ song, score.songs[index]? = some song ∧ s = atStart score song setup := by
  unfold start at h
  split at h
  · cases h
  · rename_i hvalid
    split at h
    · cases h
    · rename_i song hsong
      split at h
      · cases h
      · rename_i hfault
        cases h
        obtain ⟨hge, hle⟩ := (Setup.validate_eq_none_iff setup).1 hvalid
        obtain ⟨hirq, hirq', hspeed, hspeed'⟩ := songFault?_eq_none_iff.1 hfault
        refine ⟨⟨⟨hge, hle, hirq, hirq', hspeed, hspeed'⟩, nofun, fun _ => ?_⟩, song, hsong, rfl⟩
        exact Progress.onTrack_start song

/-! ## Frames in a row -/

/-- The frames that a song makes under given loop flags, and the song after them. It makes none past
its end. -/
def run : List Bool → Sequencer → List Frame × Sequencer
  | [], s => ([], s)
  | looping :: flags, s =>
    match s.renderFrame looping with
    | none => ([], s)
    | some (f, s') => (f :: (run flags s').1, (run flags s').2)

variable {flags : List Bool}

theorem run_cons_of_some (h : s.renderFrame looping = some (f, s')) (flags : List Bool) :
    run (looping :: flags) s = (f :: (run flags s').1, (run flags s').2) := by
  rw [run, h]

/-- A song at its end makes no frames. -/
theorem run_of_finished (h : s.isFinished = true) (flags : List Bool) : run flags s = ([], s) := by
  cases flags with
  | nil => rfl
  | cons looping flags => rw [run, (renderFrame_eq_none_iff looping s).2 h]

/-- What every frame keeps, a run keeps. -/
theorem run_induction {P : Sequencer → Prop}
    (hstep : ∀ {looping s f s'}, Follows looping s f s' → P s → P s') (h : P s) :
    P (run flags s).2 := by
  induction flags generalizing s with
  | nil => exact h
  | cons looping flags ih =>
    cases hr : s.renderFrame looping with
    | none => rwa [run, hr]
    | some r =>
      rw [run_cons_of_some hr]
      exact ih (hstep (follows_of_renderFrame hr) h)

/-- The same for what only the frames under one flag keep. -/
theorem run_replicate_induction {P : Sequencer → Prop}
    (hstep : ∀ {s f s'}, s.renderFrame looping = some (f, s') → P s → P s') (h : P s) (n : ℕ) :
    P (run (List.replicate n looping) s).2 := by
  induction n generalizing s with
  | zero => exact h
  | succ n ih =>
    rw [List.replicate_succ]
    cases hr : s.renderFrame looping with
    | none => rwa [run_of_finished ((renderFrame_eq_none_iff looping s).1 hr)]
    | some r =>
      rw [run_cons_of_some hr]
      exact ih (hstep hr h)

theorem Steady.run (h : s.Steady) (flags : List Bool) : (run flags s).2.Steady :=
  run_induction (fun hf hs => hs.follows hf) h

theorem reset_run (flags : List Bool) (s : Sequencer) : (run flags s).2.reset = s.reset :=
  run_induction (P := fun q => q.reset = s.reset) (fun hf hs => hf.reset.trans hs) rfl

/-- A run can be cut anywhere. -/
theorem run_append (flags flags' : List Bool) (s : Sequencer) :
    run (flags ++ flags') s =
      ((run flags s).1 ++ (run flags' (run flags s).2).1, (run flags' (run flags s).2).2) := by
  induction flags generalizing s with
  | nil => rfl
  | cons looping flags ih =>
    cases hr : s.renderFrame looping with
    | none =>
      -- the song is over, so all three runs stay where it is
      have hend := (renderFrame_eq_none_iff looping s).1 hr
      rw [run_of_finished hend, run_of_finished hend, run_of_finished hend]
      rfl
    | some r =>
      rw [List.cons_append, run_cons_of_some hr, run_cons_of_some hr, ih]
      rfl

theorem frames_run (flags : List Bool) (s : Sequencer) :
    (run flags s).2.frames = s.frames + (run flags s).1.length := by
  induction flags generalizing s with
  | nil => rfl
  | cons looping flags ih =>
    cases hr : s.renderFrame looping with
    | none => rw [run, hr]; rfl
    | some r =>
      rw [run_cons_of_some hr, ih, frames_renderFrame hr, List.length_cons]
      omega

/-- A run that makes fewer frames than there are flags has come to the end. -/
theorem length_run (flags : List Bool) (s : Sequencer) :
    (run flags s).1.length = flags.length ∨
      (run flags s).1.length < flags.length ∧ (run flags s).2.isFinished = true := by
  induction flags generalizing s with
  | nil => exact Or.inl rfl
  | cons looping flags ih =>
    cases hr : s.renderFrame looping with
    | none =>
      have hend := (renderFrame_eq_none_iff looping s).1 hr
      rw [run_of_finished hend]
      exact Or.inr ⟨Nat.succ_pos _, hend⟩
    | some r =>
      rw [run_cons_of_some hr, List.length_cons, List.length_cons]
      rcases ih r.2 with h | ⟨h, hend⟩
      · exact Or.inl (congrArg (· + 1) h)
      · exact Or.inr ⟨Nat.succ_lt_succ h, hend⟩

/-- The flags past the end have no part in a run. -/
theorem run_take (flags : List Bool) (s : Sequencer) :
    run (flags.take (run flags s).1.length) s = run flags s := by
  induction flags generalizing s with
  | nil => rfl
  | cons looping flags ih =>
    cases hr : s.renderFrame looping with
    | none =>
      rw [run_of_finished ((renderFrame_eq_none_iff looping s).1 hr) (looping :: flags)]
      rfl
    | some r =>
      rw [run_cons_of_some hr, List.length_cons, List.take_succ_cons, run_cons_of_some hr, ih]

/-- Under one flag a run of `n` flags is a run that makes all of its frames: either `n` of them or
those up to the end. -/
theorem run_replicate (looping : Bool) (n : ℕ) (s : Sequencer) :
    ∃ k ≤ n, (run (List.replicate k looping) s).1.length = k ∧
      run (List.replicate n looping) s = run (List.replicate k looping) s ∧
      (k = n ∨ (run (List.replicate k looping) s).2.isFinished = true) := by
  set k := (run (List.replicate n looping) s).1.length with hk
  have hlen := length_run (List.replicate n looping) s
  rw [List.length_replicate, ← hk] at hlen
  have hle : k ≤ n := hlen.elim Nat.le_of_eq fun h => h.1.le
  have htake : run (List.replicate k looping) s = run (List.replicate n looping) s := by
    have h := run_take (List.replicate n looping) s
    rwa [← hk, List.take_replicate, Nat.min_eq_left hle] at h
  refine ⟨k, hle, ?_, htake.symm, ?_⟩
  · rw [htake]
  · rw [htake]
    exact hlen.imp_right And.right

/-- Every frame of a run has a byte for each output. -/
theorem size_of_mem_run (flags : List Bool) (s : Sequencer) :
    ∀ f ∈ (run flags s).1, f.bytes.size = s.setup.frameSize := by
  induction flags generalizing s with
  | nil => nofun
  | cons looping flags ih =>
    cases hr : s.renderFrame looping with
    | none =>
      rw [run, hr]
      nofun
    | some r =>
      have hf := follows_of_renderFrame hr
      rw [run_cons_of_some hr]
      intro f hmem
      rcases List.mem_cons.1 hmem with rfl | hmem
      · exact hf.size
      · rw [← setup_eq_of_reset_eq hf.reset]
        exact ih r.2 f hmem

theorem length_pcm_run (flags : List Bool) (s : Sequencer) :
    (Frame.pcm (run flags s).1).length = (run flags s).1.length * s.setup.frameSize :=
  Frame.length_pcm (size_of_mem_run flags s)

/-- A longer run begins with the frames of a shorter one. -/
theorem run_replicate_mono (looping : Bool) {n m : ℕ} (h : n ≤ m) (s : Sequencer) :
    (run (List.replicate n looping) s).1 <+: (run (List.replicate m looping) s).1 := by
  obtain ⟨k, rfl⟩ := Nat.exists_eq_add_of_le h
  rw [List.replicate_add, run_append]
  exact List.prefix_append _ _

end Sequencer

end Chiptune
