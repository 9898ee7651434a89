import Mathlib
import Chiptune.Proofs.Offsets
import Chiptune.Proofs.Regions
import Chiptune.Proofs.Swings

/-!
# What overflows

The numbers of a tick are kept in registers of 8, 16 and 32 bits. All of them fit, in every song in use,
but for one: the period offset of a drift, which is moved by its amount in each step and never limited.
After more than 65535 steps it can pass the end of its register. A check for overflow stops the song
there; without one the pitch jumps from one end of its range to the other.

* `Track.Bounded`, `Track.Shaped`: what rows and ticks keep of a track, apart from its ranges.
* `Track.numbersFit`: **the numbers of a tick fit their registers**.
* `Period.fits_sum`, `Track.fits_modulated`: so does the sum of all that moves the period, unless a drift
  has led too far.
* `Track.InUse`: a track whose checks for overflow fail only after a long drift.
* `Sequencer.only_drifts_overflow`: all of this for every song in use.
* `Sequencer.drift_overflows`: a drift that has led too far.
-/

namespace Chiptune

open Word (Fits signed32)

/-- A score with an instrument that drifts. -/
def Score.Drifts (score : Score) : Prop :=
  ∃ inst ∈ score.instruments, inst.reshaping.effect = .drift

/-- **There is room in the register** for a period, the way between two others, a swing, a byte of a
contour and the offset of an effect, added up in this order. -/
theorem Period.fits_sum {p chord swing contour : ℤ} (hp : 0 ≤ p ∧ p ≤ 13696)
    (hchord : -13696 ≤ chord ∧ chord ≤ 13696) (hswing : -4096 ≤ swing ∧ swing ≤ 4096)
    (hcontour : -128 ≤ contour ∧ contour ≤ 127) :
    Fits 32 (p + chord) ∧ Fits 32 (p + chord + swing) ∧ Fits 32 (p + chord + swing + contour) ∧
      ∀ offset, -2147450880 ≤ offset ∧ offset ≤ 2147450880 →
        Fits 32 (p + chord + swing + contour + offset) := by
  simp only [Word.fits_32]
  refine ⟨by omega, by omega, by omega, ?_⟩
  intro offset hoffset
  omega

namespace Track

variable {score : Score} {tr : Track} {ch : Channel} {n : ℕ}

/-! ## What a track keeps -/

/-- A track whose slides, pitch, speed of gliding and depth of swinging are those that notes,
instruments and commands can give it. -/
structure Bounded (tr : Track) : Prop where
  slide : 0 ≤ tr.slide ∧ tr.slide ≤ 255
  volumeSlide : -128 ≤ tr.volumeSlide ∧ tr.volumeSlide ≤ 127
  pitch : 0 ≤ tr.pitch ∧ tr.pitch ≤ Period.topNote
  portamento : tr.portamento < 2 ^ 16
  ownPortamento : ∀ n, tr.ownPortamento = some n → n < 2 ^ 16
  level : tr.swing.level < 2 ^ 16

/-- A track that shapes no waveform or one of the instruments of a score, from its start on and for no
more than so many ticks. -/
def Shaped (score : Score) (n : ℕ) (tr : Track) : Prop :=
  ∀ length shaper, tr.source = .synth length shaper → ∃ inst wave seed m,
    inst ∈ score.instruments ∧ m ≤ n ∧
      shaper = (Shaper.start inst.reshaping wave seed).run (List.replicate m score.waves)

theorem bounded_idle (index : ℕ) : (idle index).Bounded := by
  have hslide : (0 : ℤ) ≤ 0 ∧ (0 : ℤ) ≤ 255 := by decide
  have hvolume : (-128 : ℤ) ≤ 0 ∧ (0 : ℤ) ≤ 127 := by decide
  have hpitch : (0 : ℤ) ≤ 0 ∧ (0 : ℤ) ≤ Period.topNote := by decide
  have hzero : 0 < 2 ^ 16 := by decide
  refine ⟨hslide, hvolume, hpitch, hzero, ?_, hzero⟩
  rintro _ ⟨⟩

theorem shaped_idle (score : Score) (index : ℕ) : (idle index).Shaped score 0 := by
  rintro _ _ ⟨⟩

theorem Shaped.mono {m n : ℕ} (h : tr.Shaped score m) (hmn : m ≤ n) : tr.Shaped score n := by
  intro length shaper hsource
  obtain ⟨inst, wave, seed, k, hinst, hk, hshaper⟩ := h length shaper hsource
  exact ⟨inst, wave, seed, k, hinst, hk.trans hmn, hshaper⟩

/-! ### Rows -/

/-- A new row stops all slides. -/
theorem Bounded.newRow (h : tr.Bounded) : tr.newRow.Bounded := by
  have hidle := bounded_idle tr.index
  exact { h with slide := hidle.slide, volumeSlide := hidle.volumeSlide }

theorem Bounded.headed (h : tr.Bounded) (period : ℤ) : (tr.headFor period).Bounded := by
  unfold headFor
  split <;> exact { h with }

theorem Bounded.tuned (h : tr.Bounded) (inst : Instrument) (part : Part) (note : Note) :
    (tr.tuned inst part note).Bounded := by
  have hpitch : 1 ≤ pitchFor part note ∧ pitchFor part note ≤ Period.topNote :=
    Period.limit_bounds (by decide) _
  have hsome : 0 ≤ pitchFor part note := by omega
  apply Bounded.headed
  exact { h with pitch := ⟨hsome, hpitch.2⟩, portamento := inst.portamento.toNat_lt }

theorem Bounded.played (h : tr.Bounded) (score : Score) (part : Part) (note : Note) (t : Float)
    (ch : Channel) : (tr.play score part note t ch).1.Bounded := by
  unfold play playBy
  dsimp only
  split
  · exact h.newRow
  have hrow : Bounded { tr.newRow with instrument := tr.newRow.instrumentFor part note } :=
    { h.newRow with }
  split
  · exact { hrow with }
  rename_i inst _
  have htuned := hrow.tuned inst part note
  have hlevel : inst.vibrato.level.toNat < 2 ^ 16 := inst.vibrato.level.toNat_lt
  unfold triggerBy
  dsimp only
  split
  · exact { htuned with level := hlevel }
  split <;> exact { htuned with level := hlevel }

theorem Bounded.commanded (h : tr.Bounded) (note : Note) : (tr.command note).Bounded := by
  have hinfo := note.info.toNat_lt
  have hslide : (0 : ℤ) ≤ note.info.toNat ∧ (note.info.toNat : ℤ) ≤ 255 := by omega
  have hvolume : -128 ≤ note.info.toInt8.toInt ∧ note.info.toInt8.toInt ≤ 127 := by
    have hhi := note.info.toInt8.toInt_lt
    exact ⟨note.info.toInt8.le_toInt, by omega⟩
  unfold command
  dsimp only
  split
  case h_1 =>
    exact { h with slide := hslide }
  case h_4 =>
    have hlevel : note.info.toNat % 16 * 16 < 2 ^ 16 := by omega
    exact { h with level := hlevel }
  case h_5 =>
    have hown : ∀ n, some note.info.toNat = some n → n < 2 ^ 16 := by
      rintro n ⟨⟩
      omega
    exact { h with ownPortamento := hown }
  case h_6 =>
    have hown : ∀ n, none = some n → n < 2 ^ 16 := by
      rintro n ⟨⟩
    exact { h with ownPortamento := hown }
  case h_7 =>
    exact { h with volumeSlide := hvolume }
  all_goals exact { h with }

/-- A note of a synthetic instrument shapes its waveform from the start. -/
theorem Shaped.played (h : tr.Shaped score n) (part : Part) (note : Note) (t : Float)
    (ch : Channel) : (tr.play score part note t ch).1.Shaped score n := by
  unfold play playBy
  dsimp only
  split
  · exact h
  split
  · rintro _ _ ⟨⟩
  rename_i inst hinst
  obtain ⟨number, -, hnumber⟩ := Option.bind_eq_some_iff.1 hinst
  unfold triggerBy
  dsimp only
  split
  · rintro length shaper ⟨⟩
    exact ⟨inst, _, _, 0, Array.mem_of_getElem? hnumber, Nat.zero_le n, rfl⟩
  split <;> rintro _ _ ⟨⟩

theorem Shaped.commanded (h : tr.Shaped score n) (note : Note) :
    (tr.command note).Shaped score n := by
  unfold Shaped
  rw [(tr.source_command note).1]
  exact h

/-! ### Ticks -/

theorem Bounded.due (h : tr.Bounded) (score : Score) (speed : ℕ) : (tr.due score speed).Bounded := by
  have hreshaped : (tr.counted.reshaped score).Bounded := by
    unfold Track.reshaped
    split <;> exact { h with }
  have hslid : ((tr.counted.reshaped score).slid (tr.isFirstTick speed)).Bounded := by
    unfold Track.slid
    split
    · exact hreshaped
    · exact { hreshaped with }
  unfold Track.due glide
  split
  · exact hslid
  · exact { hslid with }

theorem Bounded.ticked (h : tr.Bounded) (score : Score) (speed : ℕ) (ch : Channel) :
    (tr.tick score speed ch).1.Bounded := by
  by_cases hplays : tr.period = 0
  · rw [tick_of_silent speed ch hplays]
    exact { h with }
  · rw [tick_of_playing speed ch hplays]
    have hdue := h.due score speed
    have hlevel : (tr.due score speed).swing.advance.level < 2 ^ 16 := by
      unfold Swing.advance
      split <;> exact hdue.level
    exact { hdue with level := hlevel }

theorem source_due (score : Score) (speed : ℕ) (tr : Track) :
    (tr.due score speed).source = (tr.counted.reshaped score).source ∧
      (tr.due score speed).epoch = (tr.counted.reshaped score).epoch := by
  unfold due slid glide
  constructor <;> split <;> split <;> rfl

/-- A tick shapes the waveform by one step more. -/
theorem Shaped.due (h : tr.Shaped score n) (speed : ℕ) : (tr.due score speed).Shaped score (n + 1) := by
  intro length shaper hsource
  rw [(source_due score speed tr).1] at hsource
  unfold Track.reshaped at hsource
  split at hsource
  · rename_i length' shaper' hbefore
    obtain ⟨rfl, rfl⟩ := Source.synth.inj hsource
    obtain ⟨inst, wave, seed, m, hinst, hm, hshaper⟩ := h length' shaper' hbefore
    refine ⟨inst, wave, seed, m + 1, hinst, Nat.succ_le_succ hm, ?_⟩
    rw [List.replicate_succ', Shaper.run_concat, ← hshaper]
  · exact h.mono (Nat.le_succ n) length shaper hsource

theorem Shaped.ticked (h : tr.Shaped score n) (speed : ℕ) (ch : Channel) :
    (tr.tick score speed ch).1.Shaped score (n + 1) := by
  by_cases hplays : tr.period = 0
  · rw [tick_of_silent speed ch hplays]
    exact h.mono (Nat.le_succ n)
  · rw [tick_of_playing speed ch hplays]
    exact h.due speed

/-! ### How often the bytes change -/

theorem epoch_trigger_le (score : Score) (tr : Track) (inst : Instrument) (t : Float)
    (ch : Channel) : (tr.trigger score inst t ch).1.epoch ≤ tr.epoch + 1 := by
  unfold trigger triggerBy
  dsimp only
  split
  · exact le_rfl
  split
  · exact Nat.le_succ _
  · dsimp only
    split
    · exact Nat.le_succ _
    · exact le_rfl

theorem epoch_play_le (score : Score) (tr : Track) (part : Part) (note : Note) (t : Float)
    (ch : Channel) : (tr.play score part note t ch).1.epoch ≤ tr.epoch + 1 := by
  have htuned (inst : Instrument) (tr : Track) :
      ((tr.tuned inst part note).dressed inst note).epoch = tr.epoch := by
    unfold tuned headFor dressed
    dsimp only
    split <;> rfl
  unfold play playBy
  dsimp only
  split
  · exact Nat.le_succ _
  split
  · exact Nat.le_succ _
  · rename_i inst _
    refine (epoch_trigger_le score _ inst t ch).trans ?_
    rw [htuned]
    exact le_rfl

theorem epoch_tick_le (score : Score) (speed : ℕ) (tr : Track) (ch : Channel) :
    (tr.tick score speed ch).1.epoch ≤ tr.epoch + 1 := by
  by_cases hplays : tr.period = 0
  · rw [tick_of_silent speed ch hplays]
    exact Nat.le_succ _
  · have hreshaped : (tr.counted.reshaped score).epoch ≤ tr.epoch + 1 := by
      unfold reshaped
      split
      · dsimp only
        split
        · exact le_rfl
        · exact Nat.le_succ _
      · exact Nat.le_succ _
    rw [tick_of_playing speed ch hplays]
    exact (source_due score speed tr).2.trans_le hreshaped

/-! ## The numbers of a tick -/

/-- The period with all modulation but that of the effect on the waveform. -/
def unshaped (score : Score) (tr : Track) : ℤ :=
  tr.period + tr.chordOffset + tr.swing.offset +
    (tr.pitchContour.map (·.offset score.pitchWaves)).getD 0

theorem modulation_eq (score : Score) (tr : Track) :
    tr.modulation score = tr.unshaped score + tr.effectOffset :=
  rfl

/-- The numbers of a tick fit their registers, up to those that move the period: slides and glides 32
bits, the pitch of a chord 16, and the volume, multiplied by its envelope, 32 and after that 8. -/
structure NumbersFit (score : Score) (speed : ℕ) (tr : Track) : Prop where
  slide : Fits 32 (tr.period - tr.slide)
  volumeSlide : Fits 32 (tr.volume + tr.volumeSlide)
  glide : let p := ((tr.counted.reshaped score).slid (tr.isFirstTick speed)).period
    Fits 32 (p + tr.glideSpeed) ∧ Fits 32 (p - tr.glideSpeed)
  pitch : Fits 16 ((tr.due score speed).pitch + (tr.due score speed).chord.current)
  chord : Fits 32 (tr.due score speed).chordOffset
  volume : let contour := ((tr.due score speed).volumeContour.map (·.volume score.volumeWaves)).getD 64
    Fits 32 ((tr.due score speed).shownVolume * contour) ∧
      (tr.due score speed).shownVolume * contour / 64 < 2 ^ 8

/-- A tuned period of a note is up to that of the lowest note, or zero. -/
theorem tune_le (note fine : ℤ) : Period.tune (Period.ofNote note) fine ≤ 13696 := by
  rcases Period.tune_bounds note fine with hzero | ⟨-, hle⟩
  · omega
  · exact hle

/-- A chord moves the period by no more than the whole range of periods. -/
theorem chordOffset_bounds (tr : Track) : -13696 ≤ tr.chordOffset ∧ tr.chordOffset ≤ 13696 := by
  have hnote := tune_le (Period.limit 1 Period.topNote (tr.pitch + tr.chord.current)) tr.fine
  have hbase := tune_le tr.pitch tr.fine
  unfold chordOffset
  dsimp only
  omega

theorem InRange.period_bounds (h : tr.InRange) : 0 ≤ tr.period ∧ tr.period ≤ 13696 := by
  rcases h.period with hzero | ⟨hlo, hhi⟩
  · omega
  · unfold Period.lowest at hlo
    unfold Period.highest at hhi
    omega

/-- **The numbers of a tick fit their registers.** -/
theorem numbersFit (hrange : tr.InRange) (h : tr.Bounded) (speed : ℕ) :
    tr.NumbersFit score speed := by
  have hcounted : tr.counted.InRange := hrange.of_eq rfl rfl rfl
  have hperiod := hrange.period_bounds
  have hvolume := hrange.volume
  refine ⟨?_, ?_, ?_, ?_, ?_, ?_⟩
  · have hslide := h.slide
    rw [Word.fits_32]
    omega
  · have hslide := h.volumeSlide
    rw [Word.fits_32]
    omega
  · have hslid := ((hcounted.reshaped score).slid (tr.isFirstTick speed)).period_bounds
    have hspeed : tr.glideSpeed < 2 ^ 16 := by
      unfold glideSpeed
      cases hown : tr.ownPortamento with
      | none => exact h.portamento
      | some n => exact h.ownPortamento n hown
    dsimp only
    rw [Word.fits_32, Word.fits_32]
    omega
  · have hpitch := (h.due score speed).pitch
    have hstep := (tr.due score speed).chord.current_bounds
    unfold Period.topNote at hpitch
    unfold Fits
    norm_num
    omega
  · have hchord := (tr.due score speed).chordOffset_bounds
    rw [Word.fits_32]
    omega
  · intro contour
    have hshown : (tr.due score speed).shownVolume ≤ 64 := by
      have hlimit : 0 ≤ Period.limit 0 64 (tr.due score speed).volume ∧
          Period.limit 0 64 (tr.due score speed).volume ≤ 64 := Period.limit_bounds (by decide) _
      unfold shownVolume
      omega
    have hcontour : contour ≤ 64 := by
      change ((tr.due score speed).volumeContour.map (·.volume score.volumeWaves)).getD 64 ≤ 64
      cases (tr.due score speed).volumeContour with
      | none => exact le_rfl
      | some c => exact c.volume_le _
    have hproduct : (tr.due score speed).shownVolume * contour ≤ 64 * 64 :=
      Nat.mul_le_mul hshown hcontour
    refine ⟨?_, by omega⟩
    rw [Word.fits_32, ← Nat.cast_mul]
    omega

/-- Whether the effect on the waveform, if there is one, has not led its offset far. -/
def IsTame (tr : Track) : Prop :=
  ∀ length shaper, tr.source = .synth length shaper → ∃ r wave seed tables,
    shaper = (Shaper.start r wave seed).run tables ∧ r.IsTame tables.length

theorem IsTame.effectOffset_bounds (h : tr.IsTame) :
    -2147450880 ≤ tr.effectOffset ∧ tr.effectOffset ≤ 2147450880 := by
  unfold effectOffset
  cases hsource : tr.source with
  | synth length shaper =>
    obtain ⟨r, wave, seed, tables, rfl, htame⟩ := h length shaper hsource
    have htotal := Reshaping.tame_total htame
    rw [← Shaper.offset_run_of_tame htame wave seed] at htotal
    exact htotal
  | _ => exact ⟨by norm_num, by norm_num⟩

theorem IsTame.overflowed (h : tr.IsTame) {length : ℕ} {shaper : Shaper}
    (hsource : tr.source = .synth length shaper) : shaper.overflowed = false := by
  obtain ⟨r, wave, seed, tables, rfl, htame⟩ := h length shaper hsource
  rw [← Bool.not_eq_true, Shaper.overflowed_run_start, Shaper.gathered_start, not_not]
  exact Reshaping.fits_total htame

/-- An instrument leads its offset far only if it drifts, and only after more than 65535 ticks. -/
theorem Shaped.isTame (h : tr.Shaped score n) (hcalm : ¬ (score.Drifts ∧ 65535 < n)) : tr.IsTame := by
  intro length shaper hsource
  obtain ⟨inst, wave, seed, m, hinst, hm, hshaper⟩ := h length shaper hsource
  refine ⟨inst.reshaping, wave, seed, _, hshaper, ?_⟩
  intro hdrift
  have hn : n ≤ 65535 := by
    by_contra hlong
    exact hcalm ⟨⟨inst, hinst, hdrift⟩, by omega⟩
  rw [List.length_replicate]
  exact (inst.reshaping.steps_le m).trans (hm.trans hn)

/-- A contour moves the period by one signed byte. -/
theorem contour_bounds (tr : Track) (tables : Array Wave) :
    -128 ≤ (tr.pitchContour.map (·.offset tables)).getD 0 ∧
      (tr.pitchContour.map (·.offset tables)).getD 0 ≤ 127 := by
  cases tr.pitchContour with
  | none => exact ⟨by norm_num, by norm_num⟩
  | some c => exact c.offset_bounds tables

/-- **The sum of all that moves the period fits 32 bits**, in the order in which it is added up, unless
the effect on the waveform has led too far. -/
theorem fits_modulated (hrange : tr.InRange) (hlevel : tr.swing.level < 2 ^ 16) (score : Score) :
    Fits 32 (tr.period + tr.chordOffset) ∧
      Fits 32 (tr.period + tr.chordOffset + tr.swing.offset) ∧ Fits 32 (tr.unshaped score) ∧
      (tr.IsTame → Fits 32 (tr.modulation score)) := by
  obtain ⟨hchord, hswung, hplain, hall⟩ := Period.fits_sum hrange.period_bounds
    tr.chordOffset_bounds (Swing.offset_bounds hlevel) (tr.contour_bounds score.pitchWaves)
  exact ⟨hchord, hswung, hplain, fun htame => hall _ htame.effectOffset_bounds⟩

/-! ## Checks for overflow -/

/-- No check fails in a tick, unless the effect on the waveform has led too far. -/
theorem IsTame.overflows (htame : tr.IsTame) (hrange : tr.InRange)
    (hlevel : tr.swing.level < 2 ^ 16) (score : Score) : tr.overflows score = false := by
  obtain ⟨-, -, -, hsum⟩ := fits_modulated hrange hlevel score
  have hchecked : Word.fits32 (tr.modulation score) = true := (Word.fits32_iff _).2 (hsum htame)
  unfold Track.overflows
  cases hsource : tr.source with
  | synth length shaper =>
    dsimp only
    rw [htame.overflowed hsource, hchecked]
    rfl
  | _ =>
    dsimp only
    rw [hchecked]
    rfl

/-- A note moves no register, and a command neither. -/
theorem overflowed_row (score : Score) (tr : Track) (part : Part) (note : Note) (t : Float)
    (ch : Channel) :
    ((tr.play score part note t ch).1.command note).overflowed = tr.overflowed := by
  have hcommand (tr : Track) : (tr.command note).overflowed = tr.overflowed := by
    unfold command
    dsimp only
    split <;> rfl
  have htuned (inst : Instrument) (tr : Track) :
      ((tr.tuned inst part note).dressed inst note).overflowed = tr.overflowed := by
    unfold tuned headFor dressed
    dsimp only
    split <;> rfl
  rw [hcommand]
  unfold play playBy
  dsimp only
  split
  · rfl
  split
  · rfl
  unfold triggerBy
  dsimp only
  split
  · exact htuned _ _
  split <;> exact htuned _ _

theorem overflowed_tick (speed : ℕ) (ch : Channel) (h : tr.period ≠ 0) :
    (tr.tick score speed ch).1.overflowed =
      (tr.overflowed || (tr.due score speed).overflows score) := by
  have hdue : (tr.due score speed).overflowed = tr.overflowed := by
    unfold due slid glide reshaped
    dsimp only
    split <;> split <;> split <;> rfl
  rw [tick_of_playing speed ch h, ← hdue]
  rfl

/-- A track after no more than so many ticks: its numbers are in their ranges, it shapes an instrument of
the score if it shapes anything, and a check fails only after a drift of more than 65535 steps. -/
structure InUse (score : Score) (n : ℕ) (tr : Track) : Prop where
  inRange : tr.InRange
  bounded : tr.Bounded
  shaped : tr.Shaped score n
  calm : tr.overflowed = true → score.Drifts ∧ 65535 < n

theorem inUse_idle (score : Score) (index : ℕ) : (idle index).InUse score 0 := by
  refine ⟨inRange_idle index, bounded_idle index, shaped_idle score index, ?_⟩
  rintro ⟨⟩

theorem InUse.row (h : tr.InUse score n) (part : Part) (note : Note) (t : Float) (ch : Channel) :
    ((tr.play score part note t ch).1.command note).InUse score n := by
  refine ⟨(h.inRange.played score part note t ch).1.commanded note,
    (h.bounded.played score part note t ch).commanded note,
    (h.shaped.played part note t ch).commanded note, ?_⟩
  rw [overflowed_row]
  exact h.calm

theorem InUse.ticked (h : tr.InUse score n) (speed : ℕ) (ch : Channel) :
    (tr.tick score speed ch).1.InUse score (n + 1) := by
  refine ⟨h.inRange.ticked score speed ch, h.bounded.ticked score speed ch,
    h.shaped.ticked speed ch, ?_⟩
  have hbefore : tr.overflowed = true → score.Drifts ∧ 65535 < n + 1 :=
    fun hover => (h.calm hover).imp_right fun hlong => by omega
  by_cases hplays : tr.period = 0
  · rw [tick_of_silent speed ch hplays]
    exact hbefore
  · rw [overflowed_tick speed ch hplays, Bool.or_eq_true]
    rintro (hover | hover)
    · exact hbefore hover
    · by_contra hcalm
      have htame := (h.shaped.due speed).isTame hcalm
      rw [htame.overflows (h.inRange.due score speed hplays) (h.bounded.due score speed).level]
        at hover
      cases hover

end Track

namespace Sequencer

variable {s s' s₀ : Sequencer} {score : Score} {index n : ℕ} {setup : Setup}

/-! ## Songs in use -/

/-- A property of tracks that rows and ticks keep, where they may be counted, each as so many. -/
structure Keeps (score : Score) (a b : ℕ) (P : ℕ → Track → Prop) : Prop where
  idle : ∀ i, P 0 (.idle i)
  row : ∀ {n tr} part note t ch, P n tr → P (n + a) ((tr.play score part note t ch).1.command note)
  tick : ∀ {n tr} speed ch, P n tr → P (n + b) (tr.tick score speed ch).1
  mono : ∀ {n tr}, P n tr → P (n + a) tr

/-- A song of a score each of whose tracks has a property after so many rows and ticks. -/
def Every (score : Score) (P : ℕ → Track → Prop) (n : ℕ) (s : Sequencer) : Prop :=
  s.score = score ∧ ∀ i : Fin 4, P n (s.tracks.get i)

variable {P : ℕ → Track → Prop} {a b : ℕ}

theorem Every.moved (h : s.Every score P n) (hkeeps : Keeps score a b P) (looping : Bool) :
    (s.moved looping).Every score P (n + a) := by
  obtain ⟨rfl, htracks⟩ := h
  have hkept : ∀ i : Fin 4, P (n + a) (s.tracks.get i) := fun i => hkeeps.mono (htracks i)
  unfold Sequencer.moved
  split
  · rw [advance_eq]
    split
    · refine ⟨rfl, ?_⟩
      intro i
      rw [(get_playRow _ looping i).1, get_played]
      exact hkeeps.row _ _ _ _ (htracks i)
    · exact ⟨rfl, hkept⟩
  · exact ⟨rfl, hkept⟩

/-- A frame with an interrupt plays a row at most, and ticks once. -/
theorem Every.rendered (h : s.Every score P ((a + b) * s.interrupts)) (hkeeps : Keeps score a b P)
    {looping : Bool} {f : Frame} (hr : s.renderFrame looping = some (f, s')) :
    s'.Every score P ((a + b) * s'.interrupts) := by
  obtain ⟨hscore, htracks, -, -⟩ := eq_of_renderFrame hr
  have hinterrupts := (follows_of_renderFrame hr).interrupts
  have hmoved := h.moved hkeeps looping
  unfold sounded at hscore htracks
  cases hi : s.isInterrupt with
  | true =>
    rw [hi, if_pos rfl] at hscore htracks
    rw [hi, Bool.toNat_true] at hinterrupts
    rw [hinterrupts, Nat.mul_succ, ← Nat.add_assoc]
    refine ⟨hscore.trans hmoved.1, ?_⟩
    intro i
    rw [htracks, (get_tick _ i).1]
    have hsought : (s.moved looping).seek.Every score P ((a + b) * s.interrupts + a) := hmoved
    rw [hsought.1]
    exact hkeeps.tick _ _ (hsought.2 i)
  | false =>
    have hstill : s.moved looping = s := by
      unfold Sequencer.moved
      rw [hi, Bool.false_and, if_neg Bool.false_ne_true]
    rw [hi, if_neg Bool.false_ne_true, hstill] at hscore htracks
    rw [hi, Bool.toNat_false] at hinterrupts
    rw [hinterrupts, Nat.add_zero]
    refine ⟨hscore.trans h.1, ?_⟩
    intro i
    rw [htracks]
    exact h.2 i

/-- **What rows and ticks keep, every track of a song in use has.** -/
theorem every_called (h₀ : start score index setup = .ok s₀) (hkeeps : Keeps score a b P)
    (calls : List Call) :
    (calls.foldl called s₀).Every score P ((a + b) * (calls.foldl called s₀).interrupts) := by
  obtain ⟨-, song, -, rfl⟩ := start_eq_ok h₀
  have hidle {s : Sequencer} (hscore : s.score = score) : s.reset.Every score P 0 := by
    refine ⟨hscore, ?_⟩
    intro i
    rw [(get_reset s i).1]
    exact hkeeps.idle i
  refine called_induction (P := fun s => s.Every score P ((a + b) * s.interrupts)) ?_ ?_ ?_ calls ?_
  · intro looping s f s' hr hs
    exact hs.rendered hkeeps hr
  · intro s limit hs
    exact hs
  · intro s hs
    exact hidle hs.1
  · exact hidle (s := atStart score song setup) rfl

/-- Whether a check has failed in some track. -/
theorem overflowed_iff (s : Sequencer) :
    s.overflowed = true ↔ ∃ i : Fin 4, (s.tracks.get i).overflowed = true := by
  rw [overflowed, List.any_eq_true]
  constructor
  · rintro ⟨tr, hmem, hover⟩
    obtain ⟨i, hi, rfl⟩ := Vector.mem_iff_getElem.1 (Vector.mem_toList_iff.1 hmem)
    exact ⟨⟨i, hi⟩, hover⟩
  · rintro ⟨i, hover⟩
    exact ⟨_, Vector.mem_toList_iff.2 (Vector.getElem_mem i.isLt), hover⟩

theorem keeps_inUse (score : Score) : Keeps score 0 1 (Track.InUse score) := by
  refine ⟨Track.inUse_idle score, ?_, ?_, ?_⟩
  · intro n tr part note t ch h
    exact h.row part note t ch
  · intro n tr speed ch h
    exact h.ticked speed ch
  · intro n tr h
    exact h

theorem keeps_epoch (score : Score) : Keeps score 1 1 fun n tr => tr.epoch ≤ n := by
  refine ⟨fun _ => le_rfl, ?_, ?_, ?_⟩
  · intro n tr part note t ch h
    rw [(Track.source_command _ note).2]
    exact (Track.epoch_play_le score tr part note t ch).trans (Nat.succ_le_succ h)
  · intro n tr speed ch h
    exact (Track.epoch_tick_le score speed tr ch).trans (Nat.succ_le_succ h)
  · intro n tr h
    exact h.trans (Nat.le_succ n)

/-- **Only drifts overflow.** Take any effect with any arguments and let it make any ticks. The numbers of
its steps fit their registers. Its period offset is the sum of all amounts, as far as a 32-bit register
holds it; the sum is told by the ticks. The register holds the sum itself exactly if the sum fits, and
exactly then no check for overflow has failed. The sum fits, unless the effect is a drift that has made
more than 65535 steps.

Then take any song of any score and use it in any way. A check for overflow has failed only if the score
has an instrument that drifts, and there were more than 65535 interrupts. Let a track tick. The effect
on its waveform, if there is one, is that of an instrument, from its start on, and its swing reaches no
further than 4096. All numbers of the tick of a track that has a period fit their registers, up to the
sum that the effect is added to. With the effect it fits too, unless that is such a drift; no check
fails then, and the period that is written is that of the exact sum. -/
theorem only_drifts_overflow (h₀ : start score index setup = .ok s₀) :
    (∀ (r : Reshaping) (wave : Wave) (seed : UInt64) (tables : List (Array Wave)),
      let s := (Shaper.start r wave seed).run tables
      let sum := (Shaper.start r wave seed).gathered tables
      s.NumbersFit ∧ sum = r.total tables.length ∧ s.offset = signed32 sum ∧
        (s.offset = sum ↔ Fits 32 sum) ∧ (s.overflowed = false ↔ Fits 32 sum) ∧
        (r.IsTame tables.length → -2147450880 ≤ sum ∧ sum ≤ 2147450880 ∧ s.offset = sum)) ∧
    ∀ calls : List Call, let q := calls.foldl called s₀
      (q.overflowed = true → score.Drifts ∧ 65535 < q.interrupts) ∧
      ∀ (looping : Bool) (i : Fin 4), let r := q.moved looping
        let tr := r.tracks.get i
        let due := tr.due score r.progress.speed
        due.Shaped score (q.interrupts + 1) ∧ tr.epoch ≤ 2 * q.interrupts + 1 ∧
        due.swing.level < 2 ^ 16 ∧ (-4096 ≤ due.swing.offset ∧ due.swing.offset ≤ 4096) ∧
        (tr.period ≠ 0 → tr.NumbersFit score r.progress.speed ∧
          Fits 32 (due.period + due.chordOffset) ∧
          Fits 32 (due.period + due.chordOffset + due.swing.offset) ∧ Fits 32 (due.unshaped score) ∧
          (due.IsTame → Fits 32 (due.unshaped score + due.effectOffset) ∧
            (r.seek.tick.tracks.get i).overflowed = tr.overflowed ∧
            (r.seek.tick.mixer.channels.get i).period =
              Period.clamp (due.unshaped score + due.effectOffset))) := by
  refine ⟨?_, ?_⟩
  · intro r wave seed tables s sum
    have hpaced : s.Paced r (0 + tables.length) := (Shaper.paced_start r wave seed).run tables
    have hwithin : (Shaper.start r wave seed).Within s :=
      (Shaper.within_start r wave seed).run tables
    have hsum : sum = r.total tables.length := Shaper.gathered_start r wave seed tables
    have hoffset : s.offset = signed32 sum := Shaper.offset_run_start r wave seed tables
    have hexact : s.offset = sum ↔ Fits 32 sum := by
      rw [hoffset]
      exact Word.signed32_eq_iff
    have hchecked : s.overflowed = false ↔ Fits 32 sum := by
      rw [← Bool.not_eq_true, Shaper.overflowed_run_start, not_not]
    refine ⟨hpaced.numbersFit hwithin, hsum, hoffset, hexact, hchecked, ?_⟩
    intro htame
    obtain ⟨hlo, hhi⟩ := Reshaping.tame_total htame
    have hfits := Reshaping.fits_total htame
    rw [← hsum] at hlo hhi hfits
    exact ⟨hlo, hhi, hexact.2 hfits⟩
  · intro calls q
    have hinUse : q.Every score (Track.InUse score) q.interrupts := by
      have hevery := every_called h₀ (keeps_inUse score) calls
      rwa [Nat.zero_add, Nat.one_mul] at hevery
    refine ⟨?_, ?_⟩
    · intro hover
      obtain ⟨i, hi⟩ := q.overflowed_iff.1 hover
      exact (hinUse.2 i).calm hi
    · intro looping i r tr due
      obtain ⟨hscore, htracks⟩ := hinUse.moved (keeps_inUse score) looping
      have htr : tr.InUse score q.interrupts := htracks i
      have hepoch := (every_called h₀ (keeps_epoch score) calls).moved (keeps_epoch score) looping
      have hlevel : due.swing.level < 2 ^ 16 := (htr.bounded.due score _).level
      refine ⟨htr.shaped.due _, hepoch.2 i, hlevel, Swing.offset_bounds hlevel, ?_⟩
      intro hplays
      have hdue : due.InRange := htr.inRange.due score _ hplays
      obtain ⟨hchord, hswung, hplain, hsum⟩ := Track.fits_modulated hdue hlevel score
      refine ⟨Track.numbersFit htr.inRange htr.bounded _, hchord, hswung, hplain, ?_⟩
      intro htame
      obtain ⟨htrack, hchannel⟩ := get_tick r.seek i
      have hseek : r.seek.score = score := hscore
      rw [hseek] at htrack hchannel
      refine ⟨hsum htame, ?_, ?_⟩
      · rw [htrack]
        refine (Track.overflowed_tick r.progress.speed _ hplays).trans ?_
        rw [htame.overflows hdue hlevel score, Bool.or_false]
      · rw [hchannel]
        change (tr.tick score r.progress.speed _).2.period = _
        rw [Track.tick_of_playing _ _ hplays]
        change Period.clamp (signed32 (due.modulation score)) = _
        rw [Word.signed32_eq_iff.2 (hsum htame), Track.modulation_eq]

/-- A waveform that is played ever higher, in steps that are as large as can be, with a vibrato. -/
def tumble : Score :=
  { songs := #[⟨1, 2, 0, 0, 0, 200⟩]
    parts := #[⟨0, 0, 0⟩]
    notes := #[⟨37, 1, 0, 0⟩, ⟨0, 0, 0, 0⟩]
    instruments := #[{ (default : Instrument) with
      synth := 1, length := 8, volume := 64, vibrato := ⟨0, 32, 160⟩
      reshaping := ⟨.drift, 0x8000, 0, 0, 0⟩ }] }

def tumbling : Sequencer :=
  .atStart tumble ⟨1, 2, 0, 0, 0, 200⟩ { rate := 2000 }

/-- The second step of the drift, at the top of the vibrato. -/
theorem tumble_fits :
    start tumble 0 { rate := 2000 } = .ok tumbling ∧
      let q := (Call.frame true :: .reset :: List.replicate 10 (.frame false)).foldl called tumbling
      let r := q.moved true
      let due := (r.tracks.get 0).due tumble r.progress.speed
      q.interrupts = 1 ∧ q.overflowed = false ∧ (r.tracks.get 0).period = 1712 ∧
      due.swing.offset = 10 ∧ due.IsTame ∧ due.effectOffset = -65536 ∧
      Fits 32 (due.unshaped tumble + -65536) ∧ (r.seek.tick.tracks.get 0).overflowed = false ∧
      (r.seek.tick.mixer.channels.get 0).period = 28 := by
  have hstart : start tumble 0 { rate := 2000 } = .ok tumbling := rfl
  obtain ⟨-, hsong⟩ := only_drifts_overflow hstart
  obtain ⟨hchecked, htick⟩ := hsong (Call.frame true :: .reset :: List.replicate 10 (.frame false))
  obtain ⟨-, -, -, -, hnumbers⟩ := htick true 0
  refine ⟨hstart, ?_⟩
  dsimp only
  -- the song is run once for each fact, and is a name to all others
  generalize hq : (Call.frame true :: .reset :: List.replicate 10 (.frame false)).foldl called
    tumbling = q at hchecked hnumbers ⊢
  have hinterrupts : q.interrupts = 1 := by
    rw [← hq]
    decide +kernel
  have hwithin : q.overflowed = false := by
    rw [← Bool.not_eq_true]
    intro hover
    have hlong := (hchecked hover).2
    omega
  generalize hr : q.moved true = r at hnumbers ⊢
  have hbefore : (r.tracks.get 0).overflowed = false := by
    rw [← hr, ← hq]
    decide +kernel
  have hperiod : (r.tracks.get 0).period = 1712 := by
    rw [← hr, ← hq]
    decide +kernel
  generalize hdue : (r.tracks.get 0).due tumble r.progress.speed = due at hnumbers ⊢
  have hswing : due.swing.offset = 10 := by
    rw [← hdue, ← hr, ← hq]
    decide +kernel
  have hsource : due.source = .synth 16 ((Shaper.start ⟨.drift, 0x8000, 0, 0, 0⟩ .silent 1).run
      [#[], #[]]) := by
    rw [← hdue, ← hr, ← hq]
    decide +kernel
  have htame : due.IsTame := by
    intro length shaper hshaper
    rw [hsource] at hshaper
    obtain ⟨-, rfl⟩ := Source.synth.inj hshaper
    exact ⟨_, _, _, _, rfl, fun _ => by decide⟩
  have hplays : (r.tracks.get 0).period ≠ 0 := by
    rw [hperiod]
    decide
  obtain ⟨-, -, -, -, hexact⟩ := hnumbers hplays
  obtain ⟨hfits, hafter, hregister⟩ := hexact htame
  have heffect : due.effectOffset = -65536 := by
    rw [Track.effectOffset, hsource]
    decide +kernel
  have hclamped : Period.clamp (due.unshaped tumble + -65536) = 28 := by
    subst hdue hr hq
    decide +kernel
  rw [heffect] at hfits hregister
  exact ⟨hinterrupts, hwithin, hperiod, hswing, htame, heffect, hfits, hafter.trans hbefore,
    hregister.trans hclamped⟩

/-- A drift that has made one step too many: a check for overflow stops it there. The sum would be
played as the highest pitch, and what the register holds of it is played as the lowest. -/
theorem drift_overflows :
    let s := Shaper.start ⟨.drift, 0x8000, 0, 0, 0⟩ .silent 0
    let tables := List.replicate 65537 #[]
    s.gathered tables = -2147516416 ∧ (s.run tables).offset = 2147450880 ∧
      ¬ Fits 32 (s.gathered tables) ∧ (s.run tables).offset ≠ s.gathered tables ∧
      (s.run (List.replicate 65536 #[])).overflowed = false ∧ (s.run tables).overflowed = true ∧
      Period.clamp (1712 + s.gathered tables) = 28 ∧
      Period.clamp (signed32 (1712 + (s.run tables).offset)) = 13696 := by
  intro s tables
  have hsum : s.gathered tables = -2147516416 := by
    refine (Shaper.gathered_start _ _ _ tables).trans ?_
    rw [List.length_replicate]
    decide +kernel
  have hlast : s.gathered (List.replicate 65536 #[]) = -2147483648 := by
    refine (Shaper.gathered_start _ _ _ _).trans ?_
    rw [List.length_replicate]
    decide +kernel
  have hoffset : (s.run tables).offset = 2147450880 := by
    refine (Shaper.offset_run_start _ _ _ tables).trans ?_
    change signed32 (s.gathered tables) = 2147450880
    rw [hsum]
    decide
  have hunfit : ¬ Fits 32 (-2147516416) := by
    rw [Word.fits_32]
    omega
  have hover : (s.run tables).overflowed = true := by
    refine (Shaper.overflowed_run_start _ _ _ tables).2 ?_
    change ¬ Fits 32 (s.gathered tables)
    rw [hsum]
    exact hunfit
  have hbefore : (s.run (List.replicate 65536 #[])).overflowed = false := by
    rw [← Bool.not_eq_true]
    refine mt (Shaper.overflowed_run_start _ _ _ _).1 (not_not_intro ?_)
    change Fits 32 (s.gathered _)
    rw [hlast, Word.fits_32]
    omega
  clear_value s tables
  rw [hsum, hoffset]
  refine ⟨rfl, rfl, hunfit, by omega, hbefore, hover, ?_, ?_⟩ <;> decide +kernel

end Sequencer

end Chiptune
