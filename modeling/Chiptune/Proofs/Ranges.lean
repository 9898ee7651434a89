import Mathlib
import Chiptune.Proofs.Beats
import Chiptune.Proofs.Restart

/-!
# Nothing leaves its range

Notes, transpositions, slides, glides, envelopes and effects all move periods and volumes, by numbers
that a score may choose freely. Wherever one of them is kept it is limited, so in every song in use,
whatever its score holds, a track has a playable period or none yet and a volume up to 64, and so has
its channel.

* `Period.Playable`: a period that the hardware plays; `playable_tune`: what a note is tuned to.
* `Track.InRange`, `Channel.InRange`: the ranges. `InRange.played`, `InRange.commanded`,
  `InRange.ticked`: **every note, every command and every tick keeps them**.
* `Track.written?`, `tick_of_written`: the numbers of a tick fit their registers.
* `Sequencer.nothing_leaves_its_range`: all of this for every song in use.
-/

namespace Chiptune

/-! ## Periods -/

namespace Period

/-- Whether a period is one that the hardware plays. -/
def Playable (p : ℤ) : Prop :=
  (lowest : ℤ) ≤ p ∧ p ≤ highest

theorem playable_limit (n : ℤ) : Playable (limit lowest highest n) :=
  limit_bounds (by decide) n

theorem playable_clamp (n : ℤ) : Playable (clamp n) := by
  have h := clamp_bounds n
  exact ⟨by omega, by omega⟩

/-- Every note from the first to the highest has a period. -/
theorem playable_ofNote {note : ℤ} (h : 1 ≤ note ∧ note ≤ topNote) : Playable (ofNote note) := by
  have key : ∀ k : Fin 108, lowest ≤ table.getD (k + 1) 0 ∧ table.getD (k + 1) 0 ≤ highest := by
    decide +kernel
  obtain ⟨hfirst, htop⟩ := h
  have hlt : note.toNat - 1 < 108 := by
    unfold topNote at htop
    omega
  have hindex : min note.toNat topNote = note.toNat - 1 + 1 := by omega
  have hbounds : lowest ≤ table.getD (note.toNat - 1 + 1) 0 ∧
      table.getD (note.toNat - 1 + 1) 0 ≤ highest := key ⟨note.toNat - 1, hlt⟩
  rw [ofNote, if_neg (by omega), hindex]
  exact ⟨by omega, by omega⟩

/-- **A note is playable however it is tuned.** -/
theorem playable_tune {note : ℤ} (h : 1 ≤ note ∧ note ≤ topNote) (fine : ℤ) :
    Playable (tune (ofNote note) fine) := by
  unfold tune
  split
  · exact playable_ofNote h
  · exact playable_clamp _

/-- Between two playable periods all are playable. -/
theorem Playable.between {p q n : ℤ} (hp : Playable p) (hq : Playable q) (hlo : min p q ≤ n)
    (hhi : n ≤ max p q) : Playable n := by
  obtain ⟨hp, hp'⟩ := hp
  obtain ⟨hq, hq'⟩ := hq
  exact ⟨by omega, by omega⟩

end Period

open Period (Playable)

/-! ## Tracks -/

namespace Track

variable {score : Score} {tr tr' : Track} {ch : Channel}

/-- A track with a playable period or none yet, that glides to a playable period if it glides, and
whose volume is up to 64. -/
structure InRange (tr : Track) : Prop where
  period : tr.period = 0 ∨ Playable tr.period
  target : ∀ p, tr.target = some p → Playable p
  volume : 0 ≤ tr.volume ∧ tr.volume ≤ 64

theorem inRange_idle (index : ℕ) : (idle index).InRange := by
  refine ⟨Or.inl rfl, ?_, ?_⟩
  · rintro _ ⟨⟩
  · change (0 : ℤ) ≤ 0 ∧ (0 : ℤ) ≤ 64
    omega

/-- The ranges are about three parts of a track. -/
theorem InRange.of_eq (h : tr.InRange) (hperiod : tr'.period = tr.period)
    (htarget : tr'.target = tr.target) (hvolume : tr'.volume = tr.volume) : tr'.InRange := by
  refine ⟨?_, ?_, ?_⟩
  · rw [hperiod]
    exact h.period
  · rw [htarget]
    exact h.target
  · rw [hvolume]
    exact h.volume

/-! ### Rows -/

theorem InRange.headed (h : tr.InRange) {period : ℤ} (hp : Playable period) :
    (tr.headFor period).InRange := by
  unfold headFor
  split
  · refine ⟨h.period, ?_, h.volume⟩
    rintro _ ⟨⟩
    exact hp
  · refine ⟨Or.inr hp, ?_, h.volume⟩
    rintro _ ⟨⟩

/-- Transposed and tuned in any way, a note is playable. -/
theorem InRange.tuned (h : tr.InRange) (inst : Instrument) (part : Part) (note : Note) :
    (tr.tuned inst part note).InRange := by
  have hpitch : 1 ≤ pitchFor part note ∧ pitchFor part note ≤ Period.topNote :=
    Period.limit_bounds (by decide) _
  have hnew : InRange { tr with
      pitch := pitchFor part note, fine := inst.fineTuning.toInt
      portamento := inst.portamento.toNat } := h.of_eq rfl rfl rfl
  exact hnew.headed (Period.playable_tune hpitch _)

theorem InRange.dressed (h : tr.InRange) (inst : Instrument) (note : Note) :
    (tr.dressed inst note).InRange := by
  have hvolume : inst.startVolume ≤ 64 := Nat.min_le_right _ _
  refine ⟨h.period, h.target, ?_⟩
  change (0 : ℤ) ≤ inst.startVolume ∧ (inst.startVolume : ℤ) ≤ 64
  omega

/-- Starting a sound leaves the registers of the channel alone. -/
theorem InRange.triggered (h : tr.InRange) (score : Score) (inst : Instrument) (t : Float)
    (ch : Channel) :
    (tr.trigger score inst t ch).1.InRange ∧
      (tr.trigger score inst t ch).2.registers = ch.registers := by
  unfold trigger triggerBy
  dsimp only
  split
  · exact ⟨h.of_eq rfl rfl rfl, ch.registers_start _ _ _⟩
  · split
    · exact ⟨h.of_eq rfl rfl rfl, rfl⟩
    · exact ⟨h.of_eq rfl rfl rfl, ch.registers_start _ _ _⟩

/-- **A row starts no note out of range.** -/
theorem InRange.played (h : tr.InRange) (score : Score) (part : Part) (note : Note) (t : Float)
    (ch : Channel) :
    (tr.play score part note t ch).1.InRange ∧
      (tr.play score part note t ch).2.registers = ch.registers := by
  have hrow : tr.newRow.InRange := h.of_eq rfl rfl rfl
  unfold play playBy
  dsimp only
  by_cases hnote : note.value = 0
  · rw [if_pos hnote]
    exact ⟨hrow, rfl⟩
  · rw [if_neg hnote]
    cases (tr.newRow.instrumentFor part note).bind (score.instruments[·]?) with
    | none => exact ⟨hrow.of_eq rfl rfl rfl, rfl⟩
    | some inst =>
      have hinst : InRange { tr.newRow with instrument := tr.newRow.instrumentFor part note } :=
        hrow.of_eq rfl rfl rfl
      exact ((hinst.tuned inst part note).dressed inst note).triggered score inst t ch

/-- **No command leads out of the ranges.** -/
theorem InRange.commanded (h : tr.InRange) (note : Note) : (tr.command note).InRange := by
  unfold command
  dsimp only
  cases note.command with
  | clearPortamento =>
    -- what was glided to is reached at once
    refine ⟨?_, ?_, h.volume⟩
    · cases htarget : tr.target with
      | none => exact h.period
      | some p => exact Or.inr (h.target p htarget)
    · rintro _ ⟨⟩
  | setVolume =>
    refine ⟨h.period, h.target, ?_⟩
    dsimp only
    omega
  | _ => exact h.of_eq rfl rfl rfl

/-! ### Ticks -/

theorem InRange.reshaped (h : tr.InRange) (score : Score) : (tr.reshaped score).InRange := by
  unfold Track.reshaped
  split
  · exact h.of_eq rfl rfl rfl
  · exact h

theorem InRange.slid (h : tr.InRange) (first : Bool) : (tr.slid first).InRange := by
  unfold Track.slid
  split
  · exact h
  · exact ⟨Or.inr (Period.playable_limit _), h.target, Period.limit_bounds (by decide) _⟩

/-- A glide stays between the period and its target. -/
theorem InRange.glided (h : tr.InRange) (hplays : Playable tr.period) :
    tr.glide.InRange := by
  unfold Track.glide
  cases htarget : tr.target with
  | none => exact h
  | some p =>
    have hp := h.target p htarget
    obtain ⟨hlo, hhi⟩ := glided_between tr.period p tr.glideSpeed
    refine ⟨Or.inr (hplays.between hp hlo hhi), ?_, h.volume⟩
    intro q hq
    dsimp only at hq
    split at hq
    · cases hq
    · obtain rfl := Option.some.inj hq
      exact hp

/-- The track of a tick when it writes to its channel. -/
def due (score : Score) (speed : ℕ) (tr : Track) : Track :=
  ((tr.counted.reshaped score).slid (tr.isFirstTick speed)).glide

theorem period_reshaped (score : Score) (tr : Track) : (tr.reshaped score).period = tr.period := by
  unfold Track.reshaped
  split <;> rfl

theorem InRange.due (h : tr.InRange) (score : Score) (speed : ℕ) (hplays : tr.period ≠ 0) :
    (tr.due score speed).InRange := by
  have hcounted : tr.counted.InRange := h.of_eq rfl rfl rfl
  have hslid := (hcounted.reshaped score).slid (tr.isFirstTick speed)
  refine hslid.glided ?_
  -- a track that has a period keeps one
  unfold Track.slid
  split
  · rw [period_reshaped]
    exact h.period.resolve_left hplays
  · exact Period.playable_limit _

theorem tick_of_silent (speed : ℕ) (ch : Channel) (h : tr.period = 0) :
    tr.tick score speed ch = (tr.counted, ch) :=
  if_pos h

theorem tick_of_playing (speed : ℕ) (ch : Channel) (h : tr.period ≠ 0) :
    tr.tick score speed ch = ((tr.due score speed).moved score,
      (ch.setPeriod (Period.clamp ((tr.due score speed).modulated score))).setVolume
        ((tr.due score speed).enveloped score)) :=
  if_neg h

/-- **No tick leads out of the ranges.** -/
theorem InRange.ticked (h : tr.InRange) (score : Score) (speed : ℕ) (ch : Channel) :
    (tr.tick score speed ch).1.InRange := by
  by_cases hplays : tr.period = 0
  · rw [tick_of_silent speed ch hplays]
    exact h.of_eq rfl rfl rfl
  · rw [tick_of_playing speed ch hplays]
    exact (h.due score speed hplays).of_eq rfl rfl rfl

/-- The numbers that a tick has for the two registers of the channel, as they are before they are cut
to the width of a register: a period of 16 bits, a volume of 8. Before the first note there are
none. -/
def written? (score : Score) (speed : ℕ) (tr : Track) : Option (ℤ × ℤ) :=
  if tr.period = 0 then none
  else
    let tr := tr.due score speed
    let contour := (tr.volumeContour.map (·.volume score.volumeWaves)).getD 64
    some (Period.limit Period.lowest Period.highest (tr.modulated score),
      Period.limit 0 64 tr.volume * contour / 64)

/-- Before the first note a tick writes nothing. -/
theorem registers_tick_of_written_none {speed : ℕ} (h : tr.written? score speed = none) :
    (tr.tick score speed ch).2.registers = ch.registers := by
  have hsilent : tr.period = 0 := by
    by_contra hplays
    rw [written?, if_neg hplays] at h
    cases h
  rw [tick_of_silent speed ch hsilent]

/-- A volume that passed an envelope is one. -/
theorem enveloped_bounds {volume contour : ℤ} (hvolume : 0 ≤ volume ∧ volume ≤ 64)
    (hcontour : 0 ≤ contour ∧ contour ≤ 64) :
    0 ≤ volume * contour / 64 ∧ volume * contour / 64 ≤ 64 := by
  obtain ⟨hv, hv'⟩ := hvolume
  obtain ⟨hc, hc'⟩ := hcontour
  have hlo : 0 ≤ volume * contour := Int.mul_nonneg hv hc
  have hhi : volume * contour ≤ 64 * 64 := Int.mul_le_mul hv' hc' hc (by omega)
  exact ⟨by omega, by omega⟩

/-- **No number of a tick is too wide for its register**: it is written as it is. -/
theorem tick_of_written {speed : ℕ} {p v : ℤ} (ch : Channel)
    (h : tr.written? score speed = some (p, v)) :
    Playable p ∧ (0 ≤ v ∧ v ≤ 64) ∧
      ((tr.tick score speed ch).2.period : ℤ) = p ∧ ((tr.tick score speed ch).2.volume : ℤ) = v := by
  unfold written? at h
  split at h
  · cases h
  rename_i hplays
  obtain ⟨rfl, rfl⟩ := Prod.mk.inj (Option.some.inj h)
  rw [tick_of_playing speed ch hplays]
  generalize tr.due score speed = due
  have hp : Playable (Period.limit Period.lowest Period.highest (due.modulated score)) :=
    Period.playable_limit _
  have hvolume : 0 ≤ Period.limit 0 64 due.volume ∧ Period.limit 0 64 due.volume ≤ 64 :=
    Period.limit_bounds (by decide) _
  have hcontour : (due.volumeContour.map (·.volume score.volumeWaves)).getD 64 ≤ 64 := by
    cases due.volumeContour with
    | none => exact le_rfl
    | some c => exact c.volume_le _
  have hv := enveloped_bounds hvolume ⟨Int.natCast_nonneg _, Int.ofNat_le.2 hcontour⟩
  refine ⟨hp, hv, ?_, ?_⟩
  · exact Int.toNat_of_nonneg (le_trans (Int.natCast_nonneg _) hp.1)
  · have hshown : (due.enveloped score : ℤ) = Period.limit 0 64 due.volume *
        ((due.volumeContour.map (·.volume score.volumeWaves)).getD 64 : ℕ) / 64 := by
      rw [enveloped, Int.natCast_ediv, Int.natCast_mul, shownVolume,
        Int.toNat_of_nonneg hvolume.1]
      rfl
    have hmin : (((ch.setPeriod (Period.clamp (due.modulated score))).setVolume
        (due.enveloped score)).volume : ℤ) = min (due.enveloped score : ℤ) 64 :=
      Nat.cast_min _ _
    rw [hmin, hshown]
    exact min_eq_left hv.2

end Track

/-! ## Channels -/

namespace Channel

variable {ch ch' : Channel}

/-- A channel with a playable period or none yet, and with a volume up to 64. -/
structure InRange (ch : Channel) : Prop where
  period : ch.period = 0 ∨ Playable ch.period
  volume : ch.volume ≤ 64

theorem inRange_idle : idle.InRange :=
  ⟨Or.inl rfl, Nat.zero_le 64⟩

theorem InRange.of_registers (h : ch.InRange) (hregisters : ch'.registers = ch.registers) :
    ch'.InRange := by
  obtain ⟨hperiod, hvolume⟩ := Prod.mk.inj hregisters
  refine ⟨?_, ?_⟩
  · rw [hperiod]
    exact h.period
  · rw [hvolume]
    exact h.volume

/-- A tick writes registers in range, whatever its track is. -/
theorem InRange.ticked (h : ch.InRange) (score : Score) (speed : ℕ) (tr : Track) :
    (tr.tick score speed ch).2.InRange := by
  cases hwritten : tr.written? score speed with
  | none => exact h.of_registers (Track.registers_tick_of_written_none hwritten)
  | some r =>
    obtain ⟨hp, hv, hperiod, hvolume⟩ := Track.tick_of_written ch hwritten
    refine ⟨Or.inr ?_, ?_⟩
    · rw [hperiod]
      exact hp
    · omega

end Channel

/-! ## Songs -/

namespace Sequencer

variable {s s' : Sequencer} {looping : Bool} {f : Frame}

/-! ### Each track and its channel -/

theorem get_playRow (s : Sequencer) (looping : Bool) (i : Fin 4) :
    (s.playRow looping).tracks.get i = (s.played.get i).1 ∧
      (s.playRow looping).mixer.channels.get i = (s.played.get i).2 := by
  unfold playRow playRowBy
  dsimp only
  rw [channels_foldl_onMixer, Vector.get_map, Vector.get_map]
  exact ⟨rfl, rfl⟩

theorem get_tick (s : Sequencer) (i : Fin 4) :
    s.tick.tracks.get i =
        ((s.tracks.get i).tick s.score s.progress.speed (s.mixer.channels.get i)).1 ∧
      s.tick.mixer.channels.get i =
        ((s.tracks.get i).tick s.score s.progress.speed (s.mixer.channels.get i)).2 := by
  unfold tick
  dsimp only
  rw [Vector.get_map, Vector.get_map, get_zipWith]
  exact ⟨rfl, rfl⟩

/-- Mixing a frame changes neither tracks nor channels, nor the volume of the output. -/
theorem eq_of_renderFrame (hr : s.renderFrame looping = some (f, s')) :
    let q := (s.moved looping).sounded s.isInterrupt
    s'.score = q.score ∧ s'.tracks = q.tracks ∧ s'.mixer.channels = q.mixer.channels ∧
      s'.mixer.master = q.mixer.master := by
  have hmaster (m : Mixer) (outputs : Outputs) : (m.render outputs).2.master = m.master := by
    unfold Mixer.render
    split <;> rfl
  rw [renderFrame_of_unfinished looping (follows_of_renderFrame hr).unfinished] at hr
  obtain ⟨-, rfl⟩ := Prod.mk.inj (Option.some.inj hr)
  exact ⟨rfl, rfl, Mixer.channels_render _ _, hmaster _ _⟩

/-- A reset song is idle. -/
theorem get_reset (s : Sequencer) (i : Fin 4) :
    s.reset.tracks.get i = .idle i ∧ s.reset.mixer.channels.get i = .idle := by
  refine ⟨Vector.get_ofFn _ _, ?_⟩
  simp [reset, Mixer.reset, Vector.get_eq_getElem]

/-! ### Ranges -/

/-- A song all of whose tracks, channels and outputs are in their ranges. -/
structure InRange (s : Sequencer) : Prop where
  track : ∀ i : Fin 4, (s.tracks.get i).InRange
  channel : ∀ i : Fin 4, (s.mixer.channels.get i).InRange
  master : s.mixer.master ≤ 64

theorem master_foldl_onMixer_le (ds : List Directive) {m : Mixer} (h : m.master ≤ 64) :
    (ds.foldl (fun m d => d.onMixer m) m).master ≤ 64 := by
  induction ds generalizing m with
  | nil => exact h
  | cons d ds ih =>
    apply ih
    cases d with
    | master volume => exact Nat.min_le_right _ _
    | _ => exact h

theorem InRange.rowPlayed (h : s.InRange) (looping : Bool) : (s.playRow looping).InRange := by
  have hplayed (i : Fin 4) : (s.played.get i).1.InRange ∧ (s.played.get i).2.InRange := by
    obtain ⟨htrack, hregisters⟩ := (h.track i).played s.score (s.row.get i).1 (s.row.get i).2 s.time
      (s.mixer.channels.get i)
    rw [get_played]
    exact ⟨htrack.commanded _, (h.channel i).of_registers hregisters⟩
  refine ⟨?_, ?_, ?_⟩
  · intro i
    rw [(s.get_playRow looping i).1]
    exact (hplayed i).1
  · intro i
    rw [(s.get_playRow looping i).2]
    exact (hplayed i).2
  · exact master_foldl_onMixer_le s.directives h.master

theorem InRange.moved (h : s.InRange) (looping : Bool) : (s.moved looping).InRange := by
  unfold Sequencer.moved
  split
  · rw [advance_eq]
    split
    · exact rowPlayed (s := { s with progress := s.progress.counted }) ⟨h.track, h.channel, h.master⟩
        looping
    · exact ⟨h.track, h.channel, h.master⟩
  · exact h

theorem InRange.sought (h : s.InRange) : s.seek.InRange := by
  refine ⟨h.track, ?_, h.master⟩
  intro i
  have hregisters : (s.seek.mixer.channels.get i).registers =
      (s.mixer.channels.get i).registers := get_registers s.course_seek i
  exact (h.channel i).of_registers hregisters

theorem InRange.ticked (h : s.InRange) : s.tick.InRange := by
  refine ⟨?_, ?_, h.master⟩
  · intro i
    rw [(s.get_tick i).1]
    exact (h.track i).ticked _ _ _
  · intro i
    rw [(s.get_tick i).2]
    exact (h.channel i).ticked _ _ _

/-- **No frame leads out of the ranges.** -/
theorem InRange.rendered (h : s.InRange) (hr : s.renderFrame looping = some (f, s')) :
    s'.InRange := by
  have hsounded : ((s.moved looping).sounded s.isInterrupt).InRange := by
    unfold sounded
    split
    · exact (h.moved looping).sought.ticked
    · exact (h.moved looping).sought
  obtain ⟨-, htracks, hchannels, hmaster⟩ := eq_of_renderFrame hr
  refine ⟨?_, ?_, ?_⟩
  · rw [htracks]
    exact hsounded.track
  · rw [hchannels]
    exact hsounded.channel
  · rw [hmaster]
    exact hsounded.master

theorem inRange_reset (s : Sequencer) : s.reset.InRange := by
  refine ⟨?_, ?_, le_rfl⟩
  · intro i
    rw [(s.get_reset i).1]
    exact Track.inRange_idle i
  · intro i
    rw [(s.get_reset i).2]
    exact Channel.inRange_idle

/-- **A song in use stays in the ranges.** -/
theorem InRange.called (h : s.InRange) (calls : List Call) : (calls.foldl called s).InRange := by
  refine called_induction ?_ ?_ ?_ calls h
  · intro looping s f s' hr hs
    exact hs.rendered hr
  · intro s limit hs
    exact ⟨hs.track, hs.channel, hs.master⟩
  · intro s _
    exact s.inRange_reset

/-- A song that is sound, and would be so at its start, stays sound. -/
theorem Sound.called (h : s.Sound) (hreset : s.reset.Sound) (calls : List Call) :
    (calls.foldl called s).Sound := by
  have hlimit {q : Sequencer} (hq : q.Sound) (limit : Option ℕ) : (q.setLoopLimit limit).Sound :=
    ⟨hq.rate_ge, hq.rate_le, hq.irq_pos, hq.irq_le, hq.speed_pos, hq.speed_le⟩
  refine (called_induction (P := fun q => q.Sound ∧ q.reset.Sound) ?_ ?_ ?_ calls ⟨h, hreset⟩).1
  · intro looping q f q' hr hq
    have hf := follows_of_renderFrame hr
    refine ⟨hq.1.follows hf, ?_⟩
    rw [hf.reset]
    exact hq.2
  · intro q limit hq
    exact ⟨hlimit hq.1 limit, hlimit hq.2 limit⟩
  · intro q hq
    exact ⟨hq.2, hq.2⟩

theorem toNat_ofInt_of_playable {p : ℤ} (h : Playable p) : ((UInt16.ofInt p).toNat : ℤ) = p := by
  obtain ⟨hlo, hhi⟩ := h
  have hfits : p % 2 ^ 16 = p := Int.emod_eq_of_lt (by omega) (by unfold Period.highest at hhi; omega)
  have hwidth : p.toNat % 2 ^ 16 = p.toNat :=
    Nat.mod_eq_of_lt (by unfold Period.highest at hhi; omega)
  rw [UInt16.ofInt, hfits, UInt16.toNat_ofNat', hwidth]
  omega

theorem toNat_ofInt_of_le {v : ℤ} (h : 0 ≤ v ∧ v ≤ 64) : ((UInt8.ofInt v).toNat : ℤ) = v := by
  have hfits : v % 2 ^ 8 = v := Int.emod_eq_of_lt h.1 (by omega)
  have hwidth : v.toNat % 2 ^ 8 = v.toNat := Nat.mod_eq_of_lt (by omega)
  rw [UInt8.ofInt, hfits, UInt8.toNat_ofNat', hwidth]
  omega

variable {score : Score} {index : ℕ} {setup : Setup} {s₀ : Sequencer}

/-- **Nothing leaves its range.** Take any song of any score, and use it in any way. Its speed is from
1 to 16, so that interrupts can be divided by it, and its master volume up to 64. A track has no
period yet or a playable one, glides to a playable one if it glides, and has a volume up to 64; a
channel has no period yet or a playable one, and a volume up to 64. And the numbers of the next tick,
if it writes any, are those that the registers then hold: they fit 16 and 8 bits. -/
theorem nothing_leaves_its_range (h₀ : start score index setup = .ok s₀) (calls : List Call) :
    let q := calls.foldl called s₀
    (1 ≤ q.progress.speed ∧ q.progress.speed ≤ 16) ∧ q.mixer.master ≤ 64 ∧
    (∀ i : Fin 4, let tr := q.tracks.get i
      (tr.period = 0 ∨ 28 ≤ tr.period ∧ tr.period ≤ 13696) ∧
      (∀ p, tr.target = some p → 28 ≤ p ∧ p ≤ 13696) ∧ 0 ≤ tr.volume ∧ tr.volume ≤ 64) ∧
    (∀ i : Fin 4, let ch := q.mixer.channels.get i
      (ch.period = 0 ∨ 28 ≤ ch.period ∧ ch.period ≤ 13696) ∧ ch.volume ≤ 64) ∧
    ∀ looping (i : Fin 4) p v, let r := q.moved looping
      (r.tracks.get i).written? score r.progress.speed = some (p, v) →
      let ch := r.seek.tick.mixer.channels.get i
      (ch.period = p ∧ ch.volume = v) ∧ (UInt16.ofInt p).toNat = p ∧ (UInt8.ofInt v).toNat = v := by
  obtain ⟨hsteady, song, -, hs₀⟩ := start_eq_ok h₀
  have hnew : s₀.reset = s₀ := by
    rw [hs₀]
    rfl
  intro q
  have hsound : q.Sound := by
    refine hsteady.toSound.called ?_ calls
    rw [hnew]
    exact hsteady.toSound
  have hrange : q.InRange := by
    refine InRange.called ?_ calls
    rw [← hnew]
    exact s₀.inRange_reset
  refine ⟨⟨hsound.speed_pos, hsound.speed_le⟩, hrange.master, ?_, ?_, ?_⟩
  · intro i
    exact ⟨(hrange.track i).period, (hrange.track i).target, (hrange.track i).volume⟩
  · intro i
    have hch := hrange.channel i
    refine ⟨hch.period.imp_right ?_, hch.volume⟩
    rintro ⟨hlo, hhi⟩
    exact ⟨Int.ofNat_le.1 hlo, Int.ofNat_le.1 hhi⟩
  · intro looping i p v r hwritten
    have hscore : r.score = score := by
      have hreset : r.reset.score = s₀.reset.score := by
        rw [reset_moved, reset_foldl_called]
        rfl
      exact hreset.trans (by rw [hs₀]; rfl)
    rw [← hscore] at hwritten
    obtain ⟨hp, hv, hregisters⟩ :=
      Track.tick_of_written (r.seek.mixer.channels.get i) hwritten
    refine ⟨?_, toNat_ofInt_of_playable hp, toNat_ofInt_of_le hv⟩
    rw [(r.seek.get_tick i).2]
    exact hregisters

/-- The highest note, which a row then makes higher by far, in every second tick. -/
def climb : Score :=
  { songs := #[⟨2, 1, 0, 0, 0, 200⟩]
    parts := #[⟨0, 0, 0⟩]
    notes := #[⟨108, 1, 1, 255⟩]
    instruments := #[{ (default : Instrument) with volume := 90, vibrato := ⟨255, 0, 0⟩ }] }

def climbing : Sequencer :=
  .atStart climb ⟨2, 1, 0, 0, 0, 200⟩ { rate := 2000 }

theorem climb_in_range :
    start climb 0 { rate := 2000 } = .ok climbing ∧
      let q := (Call.frame true :: .limit (some 1) :: .reset ::
        List.replicate 10 (.frame false)).foldl called climbing
      let r := q.moved true
      q.progress.speed ≤ 16 ∧ (q.tracks.get 0).slide = 255 ∧
      (28 ≤ (q.tracks.get 0).period ∧ (q.tracks.get 0).volume ≤ 64) ∧
      (r.tracks.get 0).written? climb r.progress.speed = some (28, 64) ∧
      ((r.seek.tick.mixer.channels.get 0).period : ℤ) = 28 ∧ ((UInt16.ofInt 28).toNat : ℤ) = 28 := by
  have hstart : start climb 0 { rate := 2000 } = .ok climbing := rfl
  obtain ⟨⟨-, hspeed⟩, -, htrack, -, htick⟩ := nothing_leaves_its_range hstart
    (.frame true :: .limit (some 1) :: .reset :: List.replicate 10 (.frame false))
  obtain ⟨hperiod, -, -, hvolume⟩ := htrack 0
  obtain ⟨⟨hregister, -⟩, hfits, -⟩ := htick true 0 28 64 (by decide +kernel)
  have hplayable := hperiod.resolve_left (by decide +kernel)
  exact ⟨hstart, hspeed, by decide +kernel, ⟨hplayable.1, hvolume⟩, by decide +kernel, hregister,
    hfits⟩

end Sequencer

end Chiptune
