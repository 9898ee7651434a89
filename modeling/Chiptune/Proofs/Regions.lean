import Mathlib
import Chiptune.Proofs.Finish
import Chiptune.Proofs.Ranges

/-!
# Which bytes of a sample are heard

A note of a sample plays the two parts of the sample once. What comes then depends on the second part:
without one the same bytes go round, one of a single word stops the channel, and a longer one goes
round by itself. The channel and the track work this out between them from a copy, the mark of what
was copied, and the number of the last change; here it is told by the notes and by the ends that the
channel has reached.

* `Playing`: a sample while it is played; `heardIn`: the one that a channel plays in a song in use.
* `Track.Plays`: a track that plays a sample. `Plays.played`, `Plays.ticked`, `Plays.kept`: **it goes
  on with it until the next note, through every end**.
* `Sequencer.sample_regions`: the bytes of every channel that plays a sample.
-/

namespace Chiptune

/-- A sample while a channel plays it. -/
structure Playing where
  /-- The whole sample. -/
  bytes : Array UInt8
  /-- Words before the loop. -/
  length : ℕ
  /-- Words of the loop. -/
  loop : ℕ
  /-- Whether the channel has run past its end since the note. -/
  passed : Bool
  deriving DecidableEq

namespace Playing

variable (p : Playing)

/-- What is played first: both parts, as far as the sample goes; all of it if both are empty. -/
def first : Array UInt8 :=
  if p.length = 0 ∧ p.loop = 0 then p.bytes else p.bytes.extract 0 (2 * (p.length + p.loop))

/-- What goes round: the second part, as far as the sample goes. -/
def again : Array UInt8 :=
  p.bytes.extract (2 * p.length) (2 * (p.length + p.loop))

/-- Whether the second part is played by itself. -/
def isRound : Bool :=
  p.passed && 2 ≤ p.loop

/-- Whether the channel has stopped at the end. -/
def isOver : Bool :=
  p.passed && p.loop = 1

/-- The bytes of the present. -/
def present : Array UInt8 :=
  if p.isRound then p.again else p.first

/-- How they are marked if the bytes of the track have changed so many times. -/
def clip (epoch : ℕ) : Clip :=
  if p.isRound then ⟨epoch, p.length * 2, p.loop * 2⟩
  else ⟨epoch, 0, if p.length * 2 + p.loop * 2 = 0 then p.bytes.size else p.length * 2 + p.loop * 2⟩

/-- The sample after a frame, in which the channel may have run past its end. -/
def passing (pastEnd : Bool) : Playing :=
  { p with passed := p.passed || pastEnd }

theorem of_clip (epoch : ℕ) : (p.clip epoch).of p.bytes = p.present := by
  unfold clip present
  split
  · rw [Clip.of, again, Nat.mul_comm, Nat.mul_comm p.loop, Nat.mul_add]
  · rw [Clip.of, first]
    dsimp only
    rw [Nat.zero_add]
    by_cases hall : p.length = 0 ∧ p.loop = 0
    · rw [if_pos (by omega), if_pos hall, Array.extract_size]
    · rw [if_neg (by omega), if_neg hall, Nat.mul_comm, Nat.mul_comm p.loop, Nat.mul_add]

theorem passing_false : p.passing false = p := by
  rw [passing, Bool.or_false]

variable {p}

/-- Before the end, and without a loop also after it, the first bytes are those of the present. -/
theorem present_eq_first (h : p.passed = false ∨ p.loop = 0) :
    p.present = p.first ∧ p.isOver = false := by
  have hround : p.isRound = false ∧ p.isOver = false := by
    rcases h with hpassed | hloop
    · rw [isRound, isOver, hpassed]
      exact ⟨rfl, rfl⟩
    · rw [isRound, isOver, hloop]
      exact ⟨Bool.and_false _, Bool.and_false _⟩
  rw [present, hround.1]
  exact ⟨rfl, hround.2⟩

theorem present_eq_again (hpassed : p.passed = true) (hloop : 2 ≤ p.loop) :
    p.present = p.again ∧ p.isOver = false := by
  have hone : p.loop ≠ 1 := by omega
  rw [present, isRound, isOver, hpassed, decide_eq_true hloop, decide_eq_false hone]
  exact ⟨rfl, rfl⟩

variable (p)

/-- A loop of one word at most is not played by itself. -/
theorem clip_passing_of_short (h : p.loop < 2) (pastEnd : Bool) (epoch : ℕ) :
    (p.passing pastEnd).clip epoch = p.clip epoch := by
  have hround : p.isRound = false := by
    rw [isRound, decide_eq_false (by omega), Bool.and_false]
  have hround' : (p.passing pastEnd).isRound = false := by
    change ((p.passed || pastEnd) && decide (2 ≤ p.loop)) = false
    rw [decide_eq_false (by omega), Bool.and_false]
  rw [clip, clip, hround, hround']
  rfl

theorem clip_passing_of_long (h : 2 ≤ p.loop) (epoch : ℕ) :
    (p.passing true).clip epoch = ⟨epoch, p.length * 2, p.loop * 2⟩ := by
  have hround : (p.passing true).isRound = true := by
    change ((p.passed || true) && decide (2 ≤ p.loop)) = true
    rw [Bool.or_true, decide_eq_true h]
    rfl
  rw [clip, hround]
  rfl

theorem isOver_passing_iff : (p.passing true).isOver = false ↔ p.loop ≠ 1 := by
  change ((p.passed || true) && decide (p.loop = 1)) = false ↔ _
  rw [Bool.or_true, Bool.true_and, decide_eq_false_iff_not]

end Playing

namespace Channel

variable (ch : Channel) (source : Array UInt8) (clip : Clip) (clock t : Float)

theorem start_spec : (ch.start source clip t).loaded = some clip ∧
    ((ch.start source clip t).active = true ↔ (ch.start source clip t).buffer ≠ #[]) ∧
    (ch.start source clip t).index = 0 := by
  refine ⟨?_, ?_, rfl⟩
  · unfold start load
    split
    · assumption
    · rfl
  · change (!(ch.load source clip).buffer.isEmpty) = true ↔ (ch.load source clip).buffer ≠ #[]
    rw [Bool.not_eq_true', ← Bool.not_eq_true, Array.isEmpty_iff]

theorem seek_spec : (ch.seek clock t).held = ch.held ∧ (ch.seek clock t).active = ch.active ∧
    (ch.seek clock t).restarted = false ∧ ((ch.seek clock t).isPastEnd t = false →
      (ch.seek clock t).index = 0 ∨ (ch.seek clock t).index < (ch.seek clock t).buffer.size) := by
  refine ⟨ch.held_seek clock t, ?_⟩
  by_cases hmoving : ch.isMoving t = true
  · have hpast : (ch.seek clock t).isPastEnd t =
        (ch.isMoving t && decide ((ch.seek clock t).buffer.size ≤ (ch.seek clock t).index)) := by
      rw [seek, if_pos hmoving]
      rfl
    rw [hpast, hmoving, Bool.true_and, decide_eq_false_iff_not, Nat.not_le]
    rw [seek, if_pos hmoving]
    exact ⟨rfl, rfl, Or.inr⟩
  · rw [seek, if_neg hmoving]
    exact ⟨rfl, rfl, fun _ => Or.inl rfl⟩

/-- A channel that has bytes and was not started anew goes round. -/
theorem settle_spec (hactive : ch.active = true) (hrestarted : ch.restarted = false)
    (hbytes : ch.buffer ≠ #[]) :
    (ch.settle clock t).held = ch.held ∧ (ch.settle clock t).active = true ∧
      (ch.settle clock t).index = ch.index % ch.buffer.size := by
  have hgoes : (!ch.active || ch.buffer.isEmpty) = false := by simpa [hactive] using hbytes
  unfold settle
  rw [hrestarted, if_neg Bool.false_ne_true, hgoes, if_neg Bool.false_ne_true]
  exact ⟨rfl, hactive, rfl⟩

variable {ch t} in
/-- Only a channel that plays runs past its end. -/
theorem active_of_isPastEnd (h : ch.isPastEnd t = true) : ch.active = true := by
  rw [isPastEnd, isMoving, Bool.and_eq_true, Bool.and_eq_true, Bool.and_eq_true] at h
  exact h.1.1.1

theorem output_of_not_active (h : ch.active = false) : ch.output = 0.0 := by
  rw [output, h]
  rfl

end Channel

namespace Track

variable {score : Score} {tr tr' : Track} {ch ch' : Channel} {p : Playing}

/-- The sample that a note starts on a track, if it starts one. -/
def sampleFor? (score : Score) (tr : Track) (part : Part) (note : Note) : Option Playing :=
  ((tr.instrumentFor part note).bind (score.instruments[·]?)).bind fun inst =>
    if inst.isSynth then none
    else score.samples[inst.wave.toNat]?.map fun sample =>
      ⟨sample.data, inst.length.toNat, inst.loop.toNat, false⟩

/-- A track whose bytes come from a sample, in two parts of these lengths. -/
def HasSample (score : Score) (tr : Track) (p : Playing) : Prop :=
  ∃ index sample, tr.source = .sample index p.length p.loop ∧
    score.samples[index]? = some sample ∧ sample.data = p.bytes

/-- A track that plays a sample on its channel. -/
structure Plays (score : Score) (tr : Track) (ch : Channel) (p : Playing) : Prop where
  source : tr.HasSample score p
  loaded : ch.loaded = some (p.clip tr.epoch)
  active : ch.active = true ↔ p.isOver = false ∧ ch.buffer ≠ #[]
  inside : ch.active = true → ch.index < ch.buffer.size
  -- only a channel that has bytes runs past its end
  begun : p.passed = true → p.first ≠ #[]

theorem Plays.of_track (h : tr.Plays score ch p) (hsource : tr'.source = tr.source)
    (hepoch : tr'.epoch = tr.epoch) : tr'.Plays score ch p := by
  refine ⟨?_, ?_, h.active, h.inside, h.begun⟩
  · rw [HasSample, hsource]
    exact h.source
  · rw [hepoch]
    exact h.loaded

/-- The channel has the bytes of the present. -/
theorem Plays.buffer (h : tr.Plays score ch p) (hholds : tr.Holds score ch) :
    ch.buffer = p.present := by
  obtain ⟨index, sample, hsource, hsample, hdata⟩ := h.source
  have hepoch : (p.clip tr.epoch).epoch = tr.epoch := by
    unfold Playing.clip
    split <;> rfl
  have hbytes : tr.bytes? score = some p.bytes := by
    simp [bytes?, hsource, hsample, hdata]
  rw [hholds.current _ _ h.loaded hepoch hbytes, p.of_clip]

/-! ### Rows -/

theorem plays_trigger {inst : Instrument} {sample : Sample} (hsynth : inst.isSynth = false)
    (hsample : score.samples[inst.wave.toNat]? = some sample) (t : Float) :
    (tr.trigger score inst t ch).1.Plays score (tr.trigger score inst t ch).2
      ⟨sample.data, inst.length.toNat, inst.loop.toNat, false⟩ := by
  unfold trigger triggerBy
  dsimp only
  rw [hsynth, if_neg Bool.false_ne_true, hsample]
  generalize (if tr.source.isSample inst.wave.toNat then tr.epoch else tr.epoch + 1) = epoch
  obtain ⟨hloaded, hactive, hindex⟩ :=
    ch.start_spec sample.data ⟨epoch, 0, firstLength inst sample.data⟩ t
  refine ⟨⟨_, sample, rfl, hsample, rfl⟩, hloaded, ?_, ?_, ?_⟩
  · exact hactive.trans (iff_and_self.2 fun _ => rfl)
  · intro hstarted
    rw [hindex]
    exact Array.size_pos_iff.2 (hactive.1 hstarted)
  · rintro ⟨⟩

theorem source_command (tr : Track) (note : Note) :
    (tr.command note).source = tr.source ∧ (tr.command note).epoch = tr.epoch := by
  unfold command
  dsimp only
  split <;> exact ⟨rfl, rfl⟩

/-- **A note of a sample starts it.** -/
theorem plays_play {part : Part} {note : Note} (hnote : note.value ≠ 0)
    (hp : tr.sampleFor? score part note = some p) (t : Float) :
    (tr.play score part note t ch).1.Plays score (tr.play score part note t ch).2 p := by
  have hinst : tr.newRow.instrumentFor part note = tr.instrumentFor part note := rfl
  unfold sampleFor? at hp
  unfold play playBy
  dsimp only
  rw [if_neg hnote, hinst]
  cases hfound : (tr.instrumentFor part note).bind (score.instruments[·]?) with
  | none =>
    rw [hfound] at hp
    cases hp
  | some inst =>
    rw [hfound, Option.bind_some] at hp
    split at hp
    · cases hp
    rename_i hsynth
    obtain ⟨sample, hsample, rfl⟩ := Option.map_eq_some_iff.1 hp
    exact plays_trigger (Bool.not_eq_true _ ▸ hsynth) hsample t

/-- A row without a note keeps the sample. -/
theorem Plays.played (h : tr.Plays score ch p) {note : Note} (hnote : note.value = 0) (part : Part)
    (t : Float) : (tr.play score part note t ch).1.Plays score (tr.play score part note t ch).2 p := by
  unfold play playBy
  rw [if_pos hnote]
  exact h.of_track rfl rfl

/-- **A row starts a sample, ends one or keeps it.** -/
theorem plays_row {h : Option Playing} (hplays : ∀ p, h = some p → tr.Plays score ch p) (part : Part)
    (note : Note) (t : Float)
    (hp : (if note.value = 0 then h else tr.sampleFor? score part note) = some p) :
    ((tr.play score part note t ch).1.command note).Plays score (tr.play score part note t ch).2 p := by
  have hrow : (tr.play score part note t ch).1.Plays score (tr.play score part note t ch).2 p := by
    by_cases hnote : note.value = 0
    · rw [if_pos hnote] at hp
      exact (hplays p hp).played hnote part t
    · rw [if_neg hnote] at hp
      exact plays_play hnote hp t
  obtain ⟨hsource, hepoch⟩ := (tr.play score part note t ch).1.source_command note
  exact hrow.of_track hsource hepoch

/-! ### Ticks -/

/-- **A tick keeps the sample.** -/
theorem Plays.ticked (h : tr.Plays score ch p) (speed : ℕ) :
    (tr.tick score speed ch).1.Plays score (tr.tick score speed ch).2 p := by
  by_cases hplays : tr.period = 0
  · rw [tick_of_silent speed ch hplays]
    exact h.of_track rfl rfl
  · obtain ⟨index, sample, hsource, -⟩ := h.source
    have hreshaped : tr.counted.reshaped score = tr.counted := by
      have hcounted : tr.counted.source = .sample index p.length p.loop := hsource
      unfold Track.reshaped
      rw [hcounted]
    have hdue : (tr.due score speed).source = tr.source ∧ (tr.due score speed).epoch = tr.epoch := by
      unfold due
      rw [hreshaped]
      unfold slid glide
      constructor <;> split <;> split <;> rfl
    rw [tick_of_playing speed ch hplays]
    have hmoved : ((tr.due score speed).moved score).Plays score ch p := h.of_track hdue.1 hdue.2
    exact ⟨hmoved.source, hmoved.loaded, hmoved.active, hmoved.inside, hmoved.begun⟩

/-! ### Ends -/

/-- The channel of a track at its place for a time, refilled by the track if it has run past its
end. -/
def kept (score : Score) (clock t : Float) (tr : Track) (ch : Channel) : Channel :=
  if (ch.seek clock t).isPastEnd t then (tr.refill score t (ch.seek clock t)).settle clock t
  else ch.seek clock t

/-- A channel that has run past its end and has bytes goes round if its track leaves it alone. -/
theorem plays_settle (clock t : Float) (hsource : tr.HasSample score p)
    (hloaded : ch.loaded = some (p.clip tr.epoch)) (hover : p.isOver = false)
    (hactive : ch.active = true) (hrestarted : ch.restarted = false) (hbytes : ch.buffer ≠ #[])
    (hbegun : p.passed = true → p.first ≠ #[]) :
    tr.Plays score (ch.settle clock t) p := by
  obtain ⟨hheld, hgoes, hindex⟩ := ch.settle_spec clock t hactive hrestarted hbytes
  obtain ⟨hclip, hbuffer⟩ := Prod.mk.inj hheld
  refine ⟨hsource, hclip.trans hloaded, ?_, ?_, hbegun⟩
  · rw [hgoes, hbuffer]
    exact ⟨fun _ => ⟨hover, hbytes⟩, fun _ => rfl⟩
  · intro _
    rw [hindex, hbuffer]
    exact Nat.mod_lt _ (Array.size_pos_iff.2 hbytes)

theorem refill_of_sample {index length loop : ℕ} {sample : Sample}
    (hsource : tr.source = .sample index length loop) (hsample : score.samples[index]? = some sample)
    (t : Float) (ch : Channel) :
    tr.refill score t ch = if loop = 0 then ch else if loop = 1 then ch.stop
      else reload ch sample.data ⟨tr.epoch, length * 2, loop * 2⟩ t := by
  unfold refill refillBy
  rw [hsource]
  rcases loop with _ | _ | loop
  · rfl
  · rfl
  · simp only [hsample]
    rfl

/-- **At an end a track goes on with its sample**: with the same bytes, with the second part of the
sample, or with silence. -/
theorem Plays.refilled (h : tr.Plays score ch p) (clock t : Float) {c : Channel}
    (hheld : c.held = ch.held) (hactive : c.active = true) (hrestarted : c.restarted = false)
    (hbytes : c.buffer ≠ #[]) (hfirst : p.first ≠ #[]) :
    tr.Plays score ((tr.refill score t c).settle clock t) (p.passing true) := by
  have hplayed : tr.HasSample score (p.passing true) := h.source
  obtain ⟨index, sample, hsource, hsample, -⟩ := h.source
  have hloaded : c.loaded = some (p.clip tr.epoch) := (Prod.mk.inj hheld).1.trans h.loaded
  have hbegun : (p.passing true).passed = true → p.first ≠ #[] := fun _ => hfirst
  rw [refill_of_sample hsource hsample]
  by_cases hnone : p.loop = 0
  · -- the same bytes go round
    rw [if_pos hnone]
    refine plays_settle clock t hplayed ?_ ?_ hactive hrestarted hbytes hbegun
    · rw [p.clip_passing_of_short (by omega)]
      exact hloaded
    · rw [p.isOver_passing_iff]
      omega
  rw [if_neg hnone]
  by_cases hone : p.loop = 1
  · -- the channel stops
    have hstopped : c.stop.settle clock t = c.stop := by
      unfold Channel.settle
      split <;> rfl
    have hover : (p.passing true).isOver ≠ false := by
      rw [ne_eq, p.isOver_passing_iff, not_not]
      exact hone
    rw [if_pos hone, hstopped]
    refine ⟨hplayed, ?_, ?_, ?_, hbegun⟩
    · rw [p.clip_passing_of_short (by omega)]
      exact hloaded
    · exact ⟨fun hon => absurd hon Bool.false_ne_true, fun hon => absurd hon.1 hover⟩
    · exact fun hon => absurd hon Bool.false_ne_true
  · -- the loop goes round, which the channel may hold already
    have hclip : (p.passing true).clip tr.epoch = ⟨tr.epoch, p.length * 2, p.loop * 2⟩ :=
      p.clip_passing_of_long (by omega) _
    have hover : (p.passing true).isOver = false := p.isOver_passing_iff.2 hone
    rw [if_neg hone, ← hclip]
    unfold reload reloadBy
    by_cases hholds : c.loaded = some ((p.passing true).clip tr.epoch)
    · rw [if_pos hholds]
      exact plays_settle clock t hplayed hholds hover hactive hrestarted hbytes hbegun
    · obtain ⟨hstarted, hon, hindex⟩ :=
        c.start_spec sample.data ((p.passing true).clip tr.epoch) t
      have hkeeps : (c.start sample.data ((p.passing true).clip tr.epoch) t).settle clock t =
          c.start sample.data ((p.passing true).clip tr.epoch) t := rfl
      rw [if_neg hholds, hkeeps]
      refine ⟨hplayed, hstarted, ?_, ?_, hbegun⟩
      · rw [hon]
        exact ⟨fun hne => ⟨hover, hne⟩, fun hne => hne.2⟩
      · intro hactive
        rw [hindex]
        exact Array.size_pos_iff.2 (hon.1 hactive)

/-- **A track goes on with its sample wherever its channel is.** -/
theorem Plays.kept (h : tr.Plays score ch p) (hholds : tr.Holds score ch) (clock t : Float) :
    tr.Plays score (tr.kept score clock t ch) (p.passing ((ch.seek clock t).isPastEnd t)) := by
  obtain ⟨hheld, hactive, hrestarted, hinside⟩ := ch.seek_spec clock t
  obtain ⟨hloaded, hbuffer⟩ := Prod.mk.inj hheld
  unfold Track.kept
  generalize ch.seek clock t = c at hheld hactive hrestarted hinside hloaded hbuffer ⊢
  cases hpast : c.isPastEnd t with
  | true =>
    have hon : c.active = true := Channel.active_of_isPastEnd hpast
    obtain ⟨hover, hbytes⟩ := h.active.1 (hactive ▸ hon)
    have hfirst : p.first ≠ #[] := by
      cases hpassed : p.passed with
      | true => exact h.begun hpassed
      | false =>
        rw [← (Playing.present_eq_first (Or.inl hpassed)).1, ← h.buffer hholds]
        exact hbytes
    rw [if_pos rfl]
    exact h.refilled clock t hheld hon hrestarted (hbuffer ▸ hbytes) hfirst
  | false =>
    rw [if_neg Bool.false_ne_true, p.passing_false]
    refine ⟨h.source, hloaded.trans h.loaded, ?_, ?_, h.begun⟩
    · rw [hactive, hbuffer]
      exact h.active
    · intro hon
      obtain ⟨-, hbytes⟩ := h.active.1 (hactive ▸ hon)
      rcases hinside hpast with hzero | hlt
      · rw [hzero]
        exact Array.size_pos_iff.2 (hbuffer ▸ hbytes)
      · exact hlt

/-- Without a loop, and once the loop is played by itself, every end leads back to the first byte. -/
theorem Plays.goes_round (h : tr.Plays score ch p) (clock t : Float)
    (hpast : (ch.seek clock t).isPastEnd t = true) (hround : p.loop = 0 ∨ p.passed = true) :
    (tr.kept score clock t ch).buffer = ch.buffer ∧ (tr.kept score clock t ch).active = true ∧
      (tr.kept score clock t ch).index = (ch.seek clock t).index % ch.buffer.size := by
  obtain ⟨index, sample, hsource, hsample, -⟩ := h.source
  obtain ⟨hheld, hactive, hrestarted, -⟩ := ch.seek_spec clock t
  obtain ⟨hloaded, hbuffer⟩ := Prod.mk.inj hheld
  have hon := Channel.active_of_isPastEnd hpast
  obtain ⟨hover, hbytes⟩ := h.active.1 (hactive ▸ hon)
  unfold Track.kept
  rw [if_pos hpast]
  generalize ch.seek clock t = c at hloaded hbuffer hrestarted hon ⊢
  have hsame : tr.refill score t c = c := by
    rw [refill_of_sample hsource hsample]
    by_cases hnone : p.loop = 0
    · rw [if_pos hnone]
    · have hpassed : p.passed = true := hround.resolve_left hnone
      have hone : p.loop ≠ 1 := by
        -- a channel that has stopped does not run past its end
        rintro hone
        rw [Playing.isOver, hpassed, hone] at hover
        cases hover
      have hclip : p.clip tr.epoch = ⟨tr.epoch, p.length * 2, p.loop * 2⟩ := by
        have hagain : p.passing true = p := by
          rw [Playing.passing, Bool.or_true, ← hpassed]
        rw [← hagain]
        exact p.clip_passing_of_long (by omega) _
      rw [if_neg hnone, if_neg hone, reload, reloadBy, hloaded, h.loaded, hclip, if_pos rfl]
  obtain ⟨hheld', hgoes, hindex⟩ := c.settle_spec clock t hon hrestarted (hbuffer ▸ hbytes)
  rw [hsame]
  refine ⟨?_, hgoes, ?_⟩
  · rw [(Prod.mk.inj hheld').2, hbuffer]
  · rw [hindex, hbuffer]

end Track

/-! ## Songs -/

namespace Sequencer

variable {s : Sequencer} {i : Fin 4} {h : Option Playing}

/-! ### What is heard, told by the notes and the ends -/

/-- The sample that a channel plays after the next row: a note of a sample starts it, any other note
ends the sample before, and without a note nothing changes. -/
def noteSample (i : Fin 4) (h : Option Playing) (s : Sequencer) : Option Playing :=
  if (s.row.get i).2.value = 0 then h
  else (s.tracks.get i).sampleFor? s.score (s.row.get i).1 (s.row.get i).2

/-- The sample that a channel plays once a row has been played, if one is due with the next frame. -/
def rowSample (i : Fin 4) (h : Option Playing) (s : Sequencer) : Option Playing :=
  if s.playsRow then s.noteSample i h else h

/-- Whether a channel runs past its end in the next frame. -/
def passes (looping : Bool) (i : Fin 4) (s : Sequencer) : Bool :=
  let q := s.moved looping
  ((q.mixer.channels.get i).seek q.mixer.clock q.time).isPastEnd q.time

/-- The sample that a channel plays after a call. -/
def heard (i : Fin 4) (h : Option Playing) (s : Sequencer) : Call → Option Playing
  | .frame looping =>
    if s.isFinished then h else (s.rowSample i h).map (·.passing (s.passes looping i))
  | .limit _ => h
  | .reset => none

/-- The sample that a channel plays after some calls. -/
def heardIn (i : Fin 4) : List Call → Option Playing → Sequencer → Option Playing
  | [], h, _ => h
  | c :: calls, h, s => heardIn i calls (s.heard i h c) (s.called c)

/-- A channel and its track play the sample that is heard, if one is. -/
def Tells (i : Fin 4) (h : Option Playing) (s : Sequencer) : Prop :=
  ∀ p, h = some p → (s.tracks.get i).Plays s.score (s.mixer.channels.get i) p

theorem tells_none (s : Sequencer) (i : Fin 4) : s.Tells i none := by
  rintro _ ⟨⟩

theorem Tells.rowPlayed (ht : s.Tells i h) (looping : Bool) :
    (s.playRow looping).Tells i (s.noteSample i h) := by
  intro p hp
  rw [(s.get_playRow looping i).1, (s.get_playRow looping i).2, get_played]
  exact Track.plays_row ht _ _ _ hp

theorem Tells.moved (ht : s.Tells i h) (looping : Bool) :
    (s.moved looping).Tells i (s.rowSample i h) := by
  unfold Sequencer.moved rowSample playsRow
  by_cases hmoves : (s.isInterrupt && s.endFrame.isNone) = true
  · rw [if_pos hmoves, hmoves, Bool.true_and, advance_eq]
    by_cases hdue : s.progress.isDue = true
    · rw [if_pos hdue, if_pos hdue]
      have hcounted : Tells i h { s with progress := s.progress.counted } := ht
      exact hcounted.rowPlayed looping
    · rw [if_neg hdue, if_neg hdue]
      exact ht
  · rw [if_neg hmoves, (Bool.not_eq_true _).mp hmoves, Bool.false_and, if_neg Bool.false_ne_true]
    exact ht

theorem get_seek (s : Sequencer) (i : Fin 4) : s.seek.mixer.channels.get i =
    (s.tracks.get i).kept s.score s.mixer.clock s.time (s.mixer.channels.get i) := by
  unfold seek seekBy
  dsimp only
  rw [get_zipWith]
  rfl

/-- **A frame goes on with what is heard.** -/
theorem Tells.rendered (ht : s.Tells i h) (hholds : s.Holds) {looping : Bool} {f : Frame}
    {s' : Sequencer} (hr : s.renderFrame looping = some (f, s')) :
    s'.Tells i ((s.rowSample i h).map (·.passing (s.passes looping i))) := by
  have hmoved := (hholds.moved faithful_startAnew looping).2
  have hsought : (s.moved looping).seek.Tells i
      ((s.rowSample i h).map (·.passing (s.passes looping i))) := by
    intro p' hp'
    obtain ⟨p, hp, rfl⟩ := Option.map_eq_some_iff.1 hp'
    rw [get_seek]
    exact (ht.moved looping p hp).kept (hmoved i) _ _
  obtain ⟨hscore, htracks, hchannels, -⟩ := eq_of_renderFrame hr
  intro p hp
  rw [hscore, htracks, hchannels]
  unfold sounded
  cases s.isInterrupt with
  | false => exact hsought p hp
  | true =>
    rw [if_pos rfl, (get_tick _ i).1, (get_tick _ i).2]
    exact (hsought p hp).ticked _

theorem holds_reset (s : Sequencer) : s.reset.Holds := by
  intro i
  rw [(s.get_reset i).2]
  exact Track.holds_idle _ _

/-- So does every call. -/
theorem Tells.call (ht : s.Tells i h) (hholds : s.Holds) (c : Call) :
    (s.called c).Tells i (s.heard i h c) ∧ (s.called c).Holds := by
  cases c with
  | limit loops => exact ⟨ht, hholds⟩
  | reset => exact ⟨s.reset.tells_none i, s.holds_reset⟩
  | frame looping =>
    cases hr : s.renderFrame looping with
    | none =>
      have hend := (renderFrame_eq_none_iff looping s).1 hr
      rw [heard, if_pos hend, called, Sequencer.call, hr]
      exact ⟨ht, hholds⟩
    | some r =>
      have hopen := (follows_of_renderFrame hr).unfinished
      rw [heard, hopen, if_neg Bool.false_ne_true, called_frame_of_some hr]
      exact ⟨ht.rendered hholds hr, (hholds.rendered faithful_startAnew looping).2 r.1 r.2 hr⟩

/-- **A song in use plays what is heard.** -/
theorem Tells.calls (ht : s.Tells i h) (hholds : s.Holds) (calls : List Call) :
    (calls.foldl called s).Tells i (heardIn i calls h s) ∧ (calls.foldl called s).Holds := by
  induction calls generalizing s h with
  | nil => exact ⟨ht, hholds⟩
  | cons c calls ih =>
    obtain ⟨ht', hholds'⟩ := ht.call hholds c
    exact ih ht' hholds'

variable {score : Score} {index : ℕ} {setup : Setup} {s₀ : Sequencer}

/-- **Which bytes of a sample are heard.** Take any song of any score, used in any way, and a
channel that plays a sample by what the notes so far say. Until it runs past its end it has the two
parts of the sample, as far as the sample goes, or all of it if both parts are empty. From then on,
until another note: without a second part it has the same bytes and plays; if the second part is a
single word it has stopped and is silent; and if it is longer it has the second part, as far as the
sample goes, and plays if that is anything at all. While it plays, it is at one of its bytes; for
when it runs past its end and has no others to go on with, it goes round. -/
theorem sample_regions (h₀ : start score index setup = .ok s₀) (calls : List Call) (i : Fin 4) :
    let q := calls.foldl called s₀
    let ch := q.mixer.channels.get i
    (∀ p, heardIn i calls none s₀ = some p →
      (p.passed = false → ch.buffer = p.first ∧ (ch.active = true ↔ p.first ≠ #[])) ∧
      (p.passed = true →
        (p.loop = 0 → ch.buffer = p.first ∧ ch.active = true) ∧
        (p.loop = 1 → ch.active = false ∧ ch.output = 0.0) ∧
        (2 ≤ p.loop → ch.buffer = p.again ∧ (ch.active = true ↔ p.again ≠ #[]))) ∧
      (ch.active = true → ch.index < ch.buffer.size)) ∧
    ∀ looping p, q.rowSample i (heardIn i calls none s₀) = some p → q.passes looping i = true →
      p.loop = 0 ∨ p.passed = true →
      let r := q.moved looping
      let before := (r.mixer.channels.get i).seek r.mixer.clock r.time
      let after := r.seek.mixer.channels.get i
      after.buffer = before.buffer ∧ after.active = true ∧
        after.index = before.index % before.buffer.size := by
  obtain ⟨-, song, -, rfl⟩ := start_eq_ok h₀
  intro q ch
  obtain ⟨htells, hholds⟩ :=
    (tells_none (atStart score song setup) i).calls (holds_atStart score song setup) calls
  refine ⟨?_, ?_⟩
  · intro p hp
    have hplays := htells p hp
    have hbuffer : ch.buffer = p.present := hplays.buffer (hholds i)
    refine ⟨?_, ?_, hplays.inside⟩
    · intro hpassed
      obtain ⟨hpresent, hover⟩ := Playing.present_eq_first (Or.inl hpassed)
      rw [← hpresent, ← hbuffer]
      exact ⟨rfl, hplays.active.trans (and_iff_right hover)⟩
    intro hpassed
    refine ⟨?_, ?_, ?_⟩
    · intro hloop
      obtain ⟨hpresent, hover⟩ := Playing.present_eq_first (Or.inr hloop)
      have hbytes : ch.buffer ≠ #[] := by
        rw [hbuffer, hpresent]
        exact hplays.begun hpassed
      exact ⟨hbuffer.trans hpresent, hplays.active.2 ⟨hover, hbytes⟩⟩
    · intro hloop
      have hover : p.isOver = true := by
        rw [Playing.isOver, hpassed, hloop]
        rfl
      have hoff : ch.active = false := by
        rw [← Bool.not_eq_true, hplays.active, hover]
        rintro ⟨⟨⟩, -⟩
      exact ⟨hoff, ch.output_of_not_active hoff⟩
    · intro hloop
      obtain ⟨hpresent, hover⟩ := Playing.present_eq_again hpassed hloop
      rw [← hpresent, ← hbuffer]
      exact ⟨rfl, hplays.active.trans (and_iff_right hover)⟩
  · intro looping p hp hpast hround r before after
    obtain ⟨hbuffer, hactive, hindex⟩ :=
      (htells.moved looping p hp).goes_round r.mixer.clock r.time hpast hround
    have hsame : before.buffer = (r.mixer.channels.get i).buffer :=
      (Prod.mk.inj (Channel.held_seek _ _ _)).2
    rw [show after = _ from r.get_seek i, hsame]
    exact ⟨hbuffer, hactive, hindex⟩

/-- A sample of five bytes that three channels play: without a second part, with one of a single word,
and with one of two words, of which the sample has only three bytes. -/
def choir : Score :=
  { songs := #[⟨2, 1, 0, 0, 0, 200⟩]
    parts := #[⟨0, 0, 0⟩, ⟨1, 0, 0⟩, ⟨2, 0, 0⟩, ⟨3, 0, 0⟩]
    notes := #[⟨30, 1, 0, 0⟩, ⟨30, 2, 0, 0⟩, ⟨30, 3, 0, 0⟩, ⟨0, 0, 0, 0⟩]
    instruments := #[{ (default : Instrument) with length := 2, volume := 64 },
      { (default : Instrument) with length := 1, loop := 1, volume := 64 },
      { (default : Instrument) with length := 1, loop := 2, volume := 64 }]
    samples := #[.bare #[10, 246, 20, 236, 30]] }

def singing : Sequencer :=
  .atStart choir ⟨2, 1, 0, 0, 0, 200⟩ { rate := 2000 }

/-- After one frame all three channels are in their first pass. After twelve each has run past its end, and
the first one is about to do so again. -/
theorem choir_regions :
    start choir 0 { rate := 2000 } = .ok singing ∧
      (let calls := [Call.frame true, .reset, .limit (some 1), .frame false]
        let ch := (calls.foldl called singing).mixer.channels.get 2
        heardIn 2 calls none singing = some ⟨#[10, 246, 20, 236, 30], 1, 2, false⟩ ∧
        ch.buffer = #[10, 246, 20, 236, 30] ∧ ch.active = true ∧ ch.index < ch.buffer.size) ∧
      let calls := List.replicate 12 (Call.frame false)
      let q := calls.foldl called singing
      let ch := q.mixer.channels.get
      (heardIn 0 calls none singing = some ⟨#[10, 246, 20, 236, 30], 2, 0, true⟩ ∧
        heardIn 1 calls none singing = some ⟨#[10, 246, 20, 236, 30], 1, 1, true⟩ ∧
        heardIn 2 calls none singing = some ⟨#[10, 246, 20, 236, 30], 1, 2, true⟩) ∧
      ((ch 0).buffer = #[10, 246, 20, 236] ∧ (ch 0).active = true) ∧
      ((ch 1).active = false ∧ (ch 1).output = 0.0) ∧
      ((ch 2).buffer = #[20, 236, 30] ∧ (ch 2).active = true) ∧
      let r := q.moved false
      let before := (r.mixer.channels.get 0).seek r.mixer.clock r.time
      let after := r.seek.mixer.channels.get 0
      before.index = 4 ∧ before.buffer.size = 4 ∧ after.buffer = before.buffer ∧
        after.active = true ∧ after.index = 0 := by
  have hstart : start choir 0 { rate := 2000 } = .ok singing := rfl
  refine ⟨hstart, ?_, ?_⟩
  · obtain ⟨hregions, -⟩ :=
      sample_regions hstart [.frame true, .reset, .limit (some 1), .frame false] 2
    have hheard : heardIn 2 [.frame true, .reset, .limit (some 1), .frame false] none singing =
        some ⟨#[10, 246, 20, 236, 30], 1, 2, false⟩ := by decide +kernel
    obtain ⟨hbefore, -, hinside⟩ := hregions _ hheard
    obtain ⟨hbuffer, hactive⟩ := hbefore rfl
    have hplays := hactive.2 (by decide)
    exact ⟨hheard, hbuffer, hplays, hinside hplays⟩
  obtain ⟨hfirst, hround⟩ := sample_regions hstart (List.replicate 12 (.frame false)) 0
  obtain ⟨hsecond, -⟩ := sample_regions hstart (List.replicate 12 (.frame false)) 1
  obtain ⟨hthird, -⟩ := sample_regions hstart (List.replicate 12 (.frame false)) 2
  have hheard : heardIn 0 (List.replicate 12 (.frame false)) none singing =
      some ⟨#[10, 246, 20, 236, 30], 2, 0, true⟩ := by decide +kernel
  have hheard' : heardIn 1 (List.replicate 12 (.frame false)) none singing =
      some ⟨#[10, 246, 20, 236, 30], 1, 1, true⟩ := by decide +kernel
  have hheard'' : heardIn 2 (List.replicate 12 (.frame false)) none singing =
      some ⟨#[10, 246, 20, 236, 30], 1, 2, true⟩ := by decide +kernel
  obtain ⟨-, hlater, -⟩ := hfirst _ hheard
  obtain ⟨-, hlater', -⟩ := hsecond _ hheard'
  obtain ⟨-, hlater'', -⟩ := hthird _ hheard''
  obtain ⟨hkept, -, -⟩ := hlater rfl
  obtain ⟨-, hstopped, -⟩ := hlater' rfl
  obtain ⟨-, -, hagain⟩ := hlater'' rfl
  obtain ⟨hloop, hplays⟩ := hagain (by decide)
  dsimp only at hround hkept hstopped hloop hplays ⊢
  generalize hq : (List.replicate 12 (Call.frame false)).foldl called singing = q at *
  have hrow : q.rowSample 0 (heardIn 0 (List.replicate 12 (.frame false)) none singing) =
      some ⟨#[10, 246, 20, 236, 30], 2, 0, true⟩ := by
    rw [hheard, ← hq]
    decide +kernel
  have hpasses : q.passes false 0 = true := by
    rw [← hq]
    decide +kernel
  obtain ⟨hsame, hactive, hindex⟩ := hround false _ hrow hpasses (.inl rfl)
  have hplace : (((q.moved false).mixer.channels.get 0).seek (q.moved false).mixer.clock
      (q.moved false).time).index = 4 := by
    rw [← hq]
    decide +kernel
  have hsize : (((q.moved false).mixer.channels.get 0).seek (q.moved false).mixer.clock
      (q.moved false).time).buffer.size = 4 := by
    rw [← hq]
    decide +kernel
  rw [hplace, hsize] at hindex
  exact ⟨⟨hheard, hheard', hheard''⟩, hkept rfl, hstopped rfl, ⟨hloop, hplays.2 (by decide)⟩,
    hplace, hsize, hsame, hactive, hindex⟩

end Sequencer

end Chiptune
