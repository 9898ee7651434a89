import Mathlib
import Chiptune.Proofs.Frames

/-!
# Copied bytes are never stale

A channel that is started on the stretch it holds does not copy the bytes again. That is safe only if
the bytes behind the stretch are still the same, for which its track counts their changes. So the
song is played here once more with the way of starting a channel left open, and any way does that
copies what the channel does not hold.

* `Sequencer.runBy_start`: with the real way of starting, this is the song as it is played.
* `Track.Holds`: a channel loaded since the last change holds the bytes that are there now;
  `Holds.triggered`, `Holds.ticked`, `Holds.sought`: whatever a track does, this stays so.
* `Sequencer.copies_never_stale`: **nothing shows whether the bytes were copied again.**
-/

namespace Chiptune

/-- The channel playing a stretch of a source from a time on, copied whatever the channel holds. -/
def Channel.startAnew (ch : Channel) (source : Array UInt8) (clip : Clip) (t : Float) : Channel :=
  { ch with
    buffer := clip.of source, loaded := some clip, active := !(clip.of source).isEmpty,
    startTime := t, index := 0, fraction := 0.0, restarted := true }

/-! ## The song, with the way of starting left open -/

namespace Sequencer

def runBy (start : Starter) : List Bool → Sequencer → List Frame × Sequencer
  | [], s => ([], s)
  | looping :: flags, s =>
    match s.renderFrameBy start looping with
    | none => ([], s)
    | some (f, s') => (f :: (runBy start flags s').1, (runBy start flags s').2)

theorem renderFrameBy_start (looping : Bool) (s : Sequencer) :
    s.renderFrameBy Channel.start looping = s.renderFrame looping :=
  rfl

theorem runBy_start (flags : List Bool) (s : Sequencer) :
    runBy Channel.start flags s = run flags s := by
  induction flags generalizing s with
  | nil => rfl
  | cons looping flags ih =>
    rw [runBy, run, renderFrameBy_start]
    cases s.renderFrame looping with
    | none => rfl
    | some r => simp only [ih]

end Sequencer

/-! ## Channels and what they hold -/

namespace Channel

variable {ch : Channel} {source : Array UInt8} {clip : Clip}

/-- A channel that holds a stretch of a source only if it has the present bytes of it. -/
def Ready (ch : Channel) (source : Array UInt8) (clip : Clip) : Prop :=
  ch.loaded = some clip → ch.buffer = clip.of source

/-- The bytes of a channel and where they come from. -/
def held (ch : Channel) : Option Clip × Array UInt8 :=
  (ch.loaded, ch.buffer)

theorem held_start (h : ch.Ready source clip) (t : Float) :
    (ch.start source clip t).held = (some clip, clip.of source) := by
  by_cases hl : ch.loaded = some clip
  · rw [start, load, if_pos hl, held, hl, h hl]
  · rw [start, load, if_neg hl]
    rfl

theorem startAnew_eq (h : ch.Ready source clip) (t : Float) :
    ch.startAnew source clip t = ch.start source clip t := by
  by_cases hl : ch.loaded = some clip
  · rw [startAnew, start, load, if_pos hl, ← h hl, ← hl]
  · rw [startAnew, start, load, if_neg hl]

theorem held_seek (ch : Channel) (clock t : Float) : (ch.seek clock t).held = ch.held := by
  unfold seek
  split <;> rfl

theorem held_settle (ch : Channel) (clock t : Float) : (ch.settle clock t).held = ch.held := by
  unfold settle
  split
  · rfl
  · split <;> rfl

end Channel

/-- A way of starting that does what the real one does, wherever the channel is ready. -/
def Starter.Faithful (start : Starter) : Prop :=
  ∀ ⦃ch source clip⦄ t, Channel.Ready ch source clip →
    start ch source clip t = ch.start source clip t

theorem faithful_startAnew : Starter.Faithful Channel.startAnew :=
  fun _ _ _ t h => Channel.startAnew_eq h t

/-! ## Tracks and their channels -/

namespace Track

variable {start : Starter} {score : Score} {tr tr' : Track} {ch ch' : Channel}

/-- The bytes that a track plays from now, if it has any. -/
def bytes? (score : Score) (tr : Track) : Option (Array UInt8) :=
  match tr.source with
  | .silent => none
  | .sample index _ _ => score.samples[index]?.map Sample.data
  | .synth _ shaper => some shaper.wave.toArray

/-- Those bytes, and how often they have changed. -/
def origin (score : Score) (tr : Track) : Option (Array UInt8) × ℕ :=
  (tr.bytes? score, tr.epoch)

/-- A channel whose bytes are the present ones of its track, if it was loaded since they last
changed. -/
structure Holds (score : Score) (tr : Track) (ch : Channel) : Prop where
  epoch_le : ∀ clip, ch.loaded = some clip → clip.epoch ≤ tr.epoch
  current : ∀ clip bytes, ch.loaded = some clip → clip.epoch = tr.epoch →
    tr.bytes? score = some bytes → ch.buffer = clip.of bytes

theorem holds_idle (score : Score) (tr : Track) : tr.Holds score .idle := by
  refine ⟨fun clip hl => ?_, fun clip bytes hl => ?_⟩ <;> cases hl

theorem Holds.of_eq (h : tr.Holds score ch) (ht : tr'.origin score = tr.origin score)
    (hc : ch'.held = ch.held) : tr'.Holds score ch' := by
  obtain ⟨hbytes, hepoch⟩ := Prod.mk.inj ht
  obtain ⟨hloaded, hbuffer⟩ := Prod.mk.inj hc
  refine ⟨?_, ?_⟩
  · rw [hloaded, hepoch]
    exact h.epoch_le
  · rw [hloaded, hepoch, hbytes, hbuffer]
    exact h.current

/-- A track that falls silent plays from no bytes. -/
theorem Holds.silenced (h : tr.Holds score ch) (ht : tr'.origin score = (none, tr.epoch))
    (hc : ch'.held = ch.held) : tr'.Holds score ch' := by
  obtain ⟨hbytes, hepoch⟩ := Prod.mk.inj ht
  obtain ⟨hloaded, -⟩ := Prod.mk.inj hc
  refine ⟨?_, ?_⟩
  · rw [hloaded, hepoch]
    exact h.epoch_le
  · rw [hbytes]
    rintro _ _ - - ⟨⟩

/-- Bytes that have changed are none that the channel could hold. -/
theorem Holds.changed (h : tr.Holds score ch) (hlt : tr.epoch < tr'.epoch) :
    tr'.Holds score ch := by
  refine ⟨fun clip hl => (h.epoch_le clip hl).trans hlt.le, fun clip bytes hl he => ?_⟩
  have := h.epoch_le clip hl
  omega

/-- **A channel is ready for whatever its track may start it on**, and then holds it. -/
theorem Holds.started (hstart : start.Faithful) (h : tr.Holds score ch) {source : Array UInt8}
    (hb : tr.bytes? score = some source) {clip : Clip} (he : clip.epoch = tr.epoch) (t : Float) :
    start ch source clip t = ch.start source clip t ∧ tr.Holds score (ch.start source clip t) := by
  have hready : ch.Ready source clip := fun hl => h.current clip source hl he hb
  obtain ⟨hloaded, hbuffer⟩ := Prod.mk.inj (Channel.held_start hready t)
  refine ⟨hstart t hready, ?_, ?_⟩
  · rw [hloaded]
    rintro _ ⟨⟩
    exact he.le
  · rw [hloaded, hbuffer, hb]
    rintro _ _ ⟨⟩ - ⟨⟩
    rfl

/-! ### Rows -/

theorem Holds.triggered (hstart : start.Faithful) (h : tr.Holds score ch) (inst : Instrument)
    (t : Float) :
    tr.triggerBy start score inst t ch = tr.trigger score inst t ch ∧
      (tr.trigger score inst t ch).1.Holds score (tr.trigger score inst t ch).2 := by
  unfold trigger triggerBy
  dsimp only
  cases inst.isSynth with
  | true =>
    rw [if_pos rfl, if_pos rfl]
    generalize hshaper : Shaper.start inst.reshaping (score.waves[inst.wave.toNat]?.getD .silent)
      (UInt64.ofNat ((tr.epoch + 1) ^^^ tr.index)) = shaper
    have hwave : score.waves[inst.wave.toNat]?.getD .silent = shaper.wave := by
      rw [← hshaper]
      rfl
    -- every note takes the waveform anew
    have hnew : Holds score
        { tr with epoch := tr.epoch + 1, source := .synth (synthLength inst) shaper } ch :=
      h.changed (Nat.lt_succ_self _)
    rw [hwave]
    exact (hnew.started hstart rfl rfl t).imp_left (congrArg (Prod.mk _))
  | false =>
    rw [if_neg Bool.false_ne_true, if_neg Bool.false_ne_true]
    cases hsample : score.samples[inst.wave.toNat]? with
    | none => exact ⟨rfl, h.silenced rfl rfl⟩
    | some sample =>
      -- the lengths may differ from those of the last note, the bytes cannot
      have hnew : Holds score
          { tr with
            epoch := if tr.source.isSample inst.wave.toNat then tr.epoch else tr.epoch + 1
            source := .sample inst.wave.toNat inst.length.toNat inst.loop.toNat } ch := by
        cases hsame : tr.source.isSample inst.wave.toNat with
        | true =>
          refine h.of_eq ?_ rfl
          cases hsource : tr.source <;> rw [hsource] at hsame
          case sample index length loop =>
            obtain rfl : index = inst.wave.toNat := by simpa [Source.isSample] using hsame
            simp [origin, bytes?, hsource]
          all_goals cases hsame
        | false => exact h.changed (Nat.lt_succ_self _)
      refine (hnew.started hstart ?_ rfl t).imp_left (congrArg (Prod.mk _))
      simp [bytes?, hsample]

theorem origin_headFor (tr : Track) (period : ℤ) :
    (tr.headFor period).origin score = tr.origin score := by
  unfold headFor
  split <;> rfl

theorem origin_command (tr : Track) (note : Note) :
    (tr.command note).origin score = tr.origin score := by
  unfold command
  dsimp only
  split <;> rfl

theorem Holds.played (hstart : start.Faithful) (h : tr.Holds score ch) (part : Part) (note : Note)
    (t : Float) :
    tr.playBy start score part note t ch = tr.play score part note t ch ∧
      (tr.play score part note t ch).1.Holds score (tr.play score part note t ch).2 := by
  unfold play playBy
  dsimp only
  by_cases hnote : note.value = 0
  · rw [if_pos hnote, if_pos hnote]
    exact ⟨rfl, h.of_eq rfl rfl⟩
  · rw [if_neg hnote, if_neg hnote]
    cases (tr.newRow.instrumentFor part note).bind (score.instruments[·]?) with
    | none => exact ⟨rfl, h.silenced rfl rfl⟩
    | some inst =>
      refine Holds.triggered hstart (h.of_eq ?_ rfl) inst t
      exact origin_headFor _ _

/-! ### Ticks -/

/-- A waveform that is reshaped counts as another one. -/
theorem Holds.reshaped (h : tr.Holds score ch) : (tr.reshaped score).Holds score ch := by
  unfold Track.reshaped
  cases hsource : tr.source with
  | silent | sample => exact h
  | synth length shaper =>
    dsimp only
    cases hchanged : shaper.changed score.waves with
    | true => exact h.changed (Nat.lt_succ_self _)
    | false =>
      refine h.of_eq ?_ rfl
      simp [origin, bytes?, hsource, Shaper.wave_advance_of_unchanged hchanged]

theorem origin_slid (tr : Track) (first : Bool) : (tr.slid first).origin score = tr.origin score := by
  unfold slid
  split <;> rfl

theorem origin_glide (tr : Track) : tr.glide.origin score = tr.origin score := by
  unfold glide
  split <;> rfl

theorem Holds.ticked (h : tr.Holds score ch) (speed : ℕ) :
    (tr.tick score speed ch).1.Holds score (tr.tick score speed ch).2 := by
  unfold tick
  dsimp only
  split
  · exact h.of_eq rfl rfl
  · have hcounted : tr.counted.Holds score ch := h.of_eq rfl rfl
    refine hcounted.reshaped.of_eq ?_ rfl
    exact (origin_glide _).trans (origin_slid _ _)

theorem Holds.reloaded (hstart : start.Faithful) (h : tr.Holds score ch) {source : Array UInt8}
    (hb : tr.bytes? score = some source) {clip : Clip} (he : clip.epoch = tr.epoch) (t : Float) :
    reloadBy start ch source clip t = reload ch source clip t ∧
      tr.Holds score (reload ch source clip t) := by
  unfold reload reloadBy
  by_cases hl : ch.loaded = some clip
  · rw [if_pos hl, if_pos hl]
    exact ⟨rfl, h⟩
  · rw [if_neg hl, if_neg hl]
    exact h.started hstart hb he t

theorem Holds.refilled (hstart : start.Faithful) (h : tr.Holds score ch) (t : Float) :
    tr.refillBy start score t ch = tr.refill score t ch ∧ tr.Holds score (tr.refill score t ch) := by
  have hstop : tr.Holds score ch.stop := h.of_eq rfl rfl
  unfold refill refillBy
  cases hsource : tr.source with
  | silent => exact ⟨rfl, hstop⟩
  | sample index length loop =>
    rcases loop with _ | _ | loop
    · exact ⟨rfl, h⟩
    · exact ⟨rfl, hstop⟩
    · simp only
      cases hsample : score.samples[index]? with
      | none => exact ⟨rfl, hstop⟩
      | some sample =>
        have hb : tr.bytes? score = some sample.data := by simp [bytes?, hsource, hsample]
        exact h.reloaded hstart hb rfl t
  | synth length shaper =>
    have hb : tr.bytes? score = some shaper.wave.toArray := by rw [bytes?, hsource]
    exact h.reloaded hstart hb rfl t

/-- Wherever a channel is at a time, at its end it was refilled. -/
theorem Holds.sought (hstart : start.Faithful) (h : tr.Holds score ch) (clock t : Float) :
    let ch' := ch.seek clock t
    (if ch'.isPastEnd t then (tr.refillBy start score t ch').settle clock t else ch') =
        (if ch'.isPastEnd t then (tr.refill score t ch').settle clock t else ch') ∧
      tr.Holds score
        (if ch'.isPastEnd t then (tr.refill score t ch').settle clock t else ch') := by
  intro ch'
  have hseek : tr.Holds score ch' := h.of_eq rfl (Channel.held_seek _ _ _)
  split
  · obtain ⟨heq, hholds⟩ := hseek.refilled hstart t
    exact ⟨by rw [heq], hholds.of_eq rfl (Channel.held_settle _ _ _)⟩
  · exact ⟨rfl, hseek⟩

end Track

/-! ## The song -/

namespace Sequencer

variable {start : Starter} {looping : Bool} {s : Sequencer}

/-- A song all of whose channels have the present bytes of their tracks, as far as they were loaded
since these last changed. -/
def Holds (s : Sequencer) : Prop :=
  ∀ i : Fin 4, (s.tracks.get i).Holds s.score (s.mixer.channels.get i)

theorem get_zipWith {α β γ : Type} (g : α → β → γ) (as : Vector α 4) (bs : Vector β 4) (i : Fin 4) :
    (Vector.zipWith g as bs).get i = g (as.get i) (bs.get i) := by
  simp [Vector.get_eq_getElem]

theorem Holds.played (hstart : start.Faithful) (h : s.Holds) :
    s.playedBy start = s.played ∧
      ∀ i, (s.played.get i).1.Holds s.score (s.played.get i).2 := by
  have hpart (i : Fin 4) := (h i).played hstart (s.row.get i).1 (s.row.get i).2 s.time
  constructor
  · refine congrArg Vector.ofFn (funext fun i => ?_)
    dsimp only
    rw [(hpart i).1]
    rfl
  · intro i
    rw [get_played]
    exact (hpart i).2.of_eq (Track.origin_command _ _) rfl

theorem channels_foldl_onMixer (ds : List Directive) (m : Mixer) :
    (ds.foldl (fun m d => d.onMixer m) m).channels = m.channels := by
  induction ds generalizing m with
  | nil => rfl
  | cons d ds ih => rw [List.foldl_cons, ih, d.channels_onMixer]

theorem Holds.rowPlayed (hstart : start.Faithful) (h : s.Holds) :
    s.playRowBy start looping = s.playRow looping ∧ (s.playRow looping).Holds := by
  obtain ⟨heq, hholds⟩ := h.played hstart
  refine ⟨by rw [playRowBy, heq]; rfl, fun i => ?_⟩
  unfold playRow playRowBy
  dsimp only
  rw [channels_foldl_onMixer, Vector.get_map, Vector.get_map]
  exact hholds i

theorem Holds.moved (hstart : start.Faithful) (h : s.Holds) (looping : Bool) :
    (if s.isInterrupt && s.endFrame.isNone then s.advanceBy start looping else s) =
        s.moved looping ∧ (s.moved looping).Holds := by
  unfold Sequencer.moved
  split
  · unfold advance advanceBy
    dsimp only
    split
    · exact rowPlayed (s := { s with progress := s.progress.counted }) hstart h
    · exact ⟨rfl, h⟩
  · exact ⟨rfl, h⟩

theorem Holds.sought (hstart : start.Faithful) (h : s.Holds) :
    s.seekBy start = s.seek ∧ s.seek.Holds := by
  have hchannel (i : Fin 4) := (h i).sought hstart s.mixer.clock s.time
  constructor
  · unfold seek seekBy
    dsimp only
    congr 2
    apply Vector.ext
    intro i hi
    rw [Vector.getElem_zipWith, Vector.getElem_zipWith]
    exact (hchannel ⟨i, hi⟩).1
  · intro i
    unfold seek seekBy
    dsimp only
    rw [get_zipWith]
    exact (hchannel i).2

theorem Holds.ticked (h : s.Holds) : s.tick.Holds := by
  intro i
  unfold tick
  dsimp only
  rw [Vector.get_map, Vector.get_map, get_zipWith]
  exact (h i).ticked s.progress.speed

/-- **A frame is the same** however its channels are started, and leaves no stale bytes. -/
theorem Holds.rendered (hstart : start.Faithful) (h : s.Holds) (looping : Bool) :
    s.renderFrameBy start looping = s.renderFrame looping ∧
      ∀ f s', s.renderFrame looping = some (f, s') → s'.Holds := by
  obtain ⟨hmoved, hmoved'⟩ := h.moved hstart looping
  obtain ⟨hsought, hsought'⟩ := hmoved'.sought hstart
  have hsounded : ((s.moved looping).sounded s.isInterrupt).Holds := by
    unfold sounded
    split
    · exact hsought'.ticked
    · exact hsought'
  constructor
  · unfold renderFrame renderFrameBy
    dsimp only
    rw [hmoved, hsought]
    rfl
  · intro f s' hr
    rw [renderFrame_of_unfinished looping (follows_of_renderFrame hr).unfinished] at hr
    obtain ⟨-, rfl⟩ := Prod.mk.inj (Option.some.inj hr)
    intro i
    dsimp only
    rw [Mixer.channels_render]
    exact hsounded i

theorem runBy_eq_run (hstart : start.Faithful) (h : s.Holds) (flags : List Bool) :
    runBy start flags s = run flags s ∧ (run flags s).2.Holds := by
  induction flags generalizing s with
  | nil => exact ⟨rfl, h⟩
  | cons looping flags ih =>
    obtain ⟨heq, hholds⟩ := h.rendered hstart looping
    rw [runBy, run, heq]
    cases hr : s.renderFrame looping with
    | none => exact ⟨rfl, h⟩
    | some r =>
      obtain ⟨hrest, hlast⟩ := ih (hholds r.1 r.2 hr)
      dsimp only
      rw [hrest]
      exact ⟨rfl, hlast⟩

theorem holds_atStart (score : Score) (song : Song) (setup : Setup) :
    (atStart score song setup).Holds := by
  intro i
  have hidle : (Mixer.start setup.standard setup.allowFilter).channels.get i = .idle := by
    simp [Mixer.start, Vector.get_eq_getElem]
  rw [atStart, hidle]
  exact Track.holds_idle _ _

variable {score : Score} {index : ℕ} {setup : Setup} {s₀ : Sequencer}

/-- **Copied bytes are never stale.** A song that copies the bytes whenever it starts a channel makes
the same frames as the real one, which keeps the copy of a stretch that the channel holds, and is in
the same state after them. More than that, every faithful way of starting channels plays the same: no
channel is ever started on a stretch that it holds with other bytes than there are now. And after
every run a channel that was loaded since the bytes of its track last changed holds these bytes. -/
theorem copies_never_stale (h₀ : Sequencer.start score index setup = .ok s₀) (limit : Option ℕ)
    (flags : List Bool) :
    let s := s₀.setLoopLimit limit
    let q := (run flags s).2
    runBy Channel.startAnew flags s = run flags s ∧
    (∀ start : Starter, start.Faithful → runBy start flags s = run flags s) ∧
    ∀ (i : Fin 4) clip bytes, (q.mixer.channels.get i).loaded = some clip →
      clip.epoch = (q.tracks.get i).epoch → (q.tracks.get i).bytes? score = some bytes →
      (q.mixer.channels.get i).buffer = clip.of bytes := by
  intro s q
  obtain ⟨-, song, -, rfl⟩ := start_eq_ok h₀
  have hs : s.Holds := holds_atStart score song setup
  obtain ⟨hanew, hq⟩ := runBy_eq_run faithful_startAnew hs flags
  refine ⟨hanew, ?_, ?_⟩
  · intro start hstart
    exact (runBy_eq_run hstart hs flags).1
  · have hscore : q.score = score := by
      change q.reset.score = score
      rw [reset_run]
      rfl
    intro i clip bytes hl he hb
    exact (hq i).current clip bytes hl he (hscore ▸ hb)

/-- A sample that is played twice, so the second note finds its channel loaded. -/
def echo : Score :=
  { songs := #[⟨1, 2, 0, 0, 0, 200⟩]
    parts := #[⟨0, 0, 0⟩, ⟨2, 0, 0⟩, ⟨2, 0, 0⟩, ⟨2, 0, 0⟩]
    notes := #[⟨30, 1, 0, 0⟩, ⟨30, 1, 0, 0⟩, ⟨0, 0, 0, 0⟩, ⟨0, 0, 0, 0⟩]
    instruments := #[{ (default : Instrument) with length := 2, volume := 64 }]
    samples := #[.bare #[10, 246, 20, 236, 30]] }

def echoing : Sequencer :=
  .atStart echo ⟨1, 2, 0, 0, 0, 200⟩ { rate := 2000 }

theorem echo_never_stale :
    Sequencer.start echo 0 { rate := 2000 } = .ok echoing ∧
      let s := echoing.setLoopLimit (some 1)
      let q := (run [true] s).2
      runBy Channel.startAnew (List.replicate 35 true) s = run (List.replicate 35 true) s ∧
      (q.mixer.channels.get 0).loaded = some ⟨1, 0, 4⟩ ∧
      (q.mixer.channels.get 0).buffer = #[10, 246, 20, 236] := by
  have hstart : Sequencer.start echo 0 { rate := 2000 } = .ok echoing := rfl
  obtain ⟨hanew, -, -⟩ := copies_never_stale hstart (some 1) (List.replicate 35 true)
  obtain ⟨-, -, hheld⟩ := copies_never_stale hstart (some 1) [true]
  have hloaded : ((run [true] (echoing.setLoopLimit (some 1))).2.mixer.channels.get 0).loaded =
      some ⟨1, 0, 4⟩ := by decide +kernel
  refine ⟨hstart, hanew, hloaded, ?_⟩
  exact hheld 0 ⟨1, 0, 4⟩ #[10, 246, 20, 236, 30] hloaded (by decide +kernel) (by decide +kernel)

end Sequencer

end Chiptune
