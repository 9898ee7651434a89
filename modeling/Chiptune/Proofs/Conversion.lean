import Mathlib
import Chiptune.Proofs.Isolation
import Chiptune.Proofs.Normal
import Chiptune.Proofs.Writes

/-!
# A saved score sounds the same

Saving keeps everything that play looks at but the parts past the last whole step. Play looks parts
up one by one, so a song that comes to such a step plays the parts there are; what they do is lost in
the saved file. As long as they rest, two streams, over the score and over what was saved of it,
cannot be told apart.

* `Score.PlaysAs`: a score that a song plays as another one.
* `Sequencer.renderFrame_withScore`, `Stream.drain_withScore`, `Stream.after_withScore`: **every frame and every
  request keeps two such streams the same** but for their scores.
* `Score.normal_playsAs`: a saved score is played as it was, if its leftover parts rest.
* `ModuleFile.conversion_keeps_sound`: so a module may be converted.
* `ModuleFile.stub_changes_sound`: a leftover part that does not rest is missed.
-/

namespace Chiptune

/-! ## Rows without effect -/

/-- Whether a row neither starts a note nor carries a command with a meaning. -/
def Note.Rests (n : Note) : Prop :=
  n.value = 0 ∧ n.command ∈ [.none, .spare3, .spare9]

instance (n : Note) : Decidable n.Rests :=
  inferInstanceAs (Decidable (_ ∧ _))

variable {n : Note}

theorem Note.Rests.directive (h : n.Rests) : Directive.ofNote n = .nothing := by
  refine Directive.ofNote_of_not_isGlobal fun hglobal => ?_
  have hcommand := h.2
  unfold Note.IsGlobal at hglobal
  cases hc : n.command <;> simp [hc] at hcommand hglobal

/-- A row that rests begins a new row and does nothing else. -/
theorem Note.Rests.play (h : n.Rests) (score : Score) (tr : Track) (part : Part) (t : Float)
    (ch : Channel) : tr.play score part n t ch = (tr.newRow, ch) := by
  rw [Track.play, Track.playBy, if_pos h.1]

theorem Note.Rests.command (h : n.Rests) (tr : Track) : tr.command n = tr := by
  have hcommand := h.2
  rw [Track.command]
  cases hc : n.command <;> simp [hc] at hcommand ⊢

/-! ## Scores that are played the same -/

/-- A score that a song plays as another one: the sounds are the same, and every row that the song
can come to is the same too, or rests in both. -/
structure Score.PlaysAs (song : Song) (a b : Score) : Prop where
  track : Track.play b = Track.play a ∧ Track.refill b = Track.refill a ∧ Track.tick b = Track.tick a
  rows : ∀ p : Progress, p.OnTrack song → ∀ k : Fin 4,
    b.row p.place.step k p.place.row = a.row p.place.step k p.place.row ∨
      (b.row p.place.step k p.place.row).2.Rests ∧ (a.row p.place.step k p.place.row).2.Rests

namespace Sequencer

variable {b : Score} {looping : Bool} {s s' : Sequencer}

/-- The song at the same point, over another score. -/
def withScore (s : Sequencer) (b : Score) : Sequencer :=
  { s with score := b }

theorem playsAs_of_reset_eq (hr : s'.reset = s.reset) (h : Score.PlaysAs s.song s.score b) :
    Score.PlaysAs s'.song s'.score b := by
  rw [score_eq_of_reset_eq hr, song_eq_of_reset_eq hr]
  exact h

/-- Both scores have the tracks do the same in the next row, and ask the same of the song. -/
theorem row_withScore (h : Score.PlaysAs s.song s.score b) (htrack : s.progress.OnTrack s.song) :
    (s.withScore b).played = s.played ∧ (s.withScore b).directives = s.directives := by
  have hrow (k : Fin 4) : (s.withScore b).row.get k = s.row.get k ∨
      ((s.withScore b).row.get k).2.Rests ∧ (s.row.get k).2.Rests := by
    have := h.rows s.progress htrack k
    rw [row, row, Vector.get_ofFn, Vector.get_ofFn]
    exact this
  constructor
  · have hplay : Track.play (s.withScore b).score = Track.play s.score := h.track.1
    refine ext_get fun k => ?_
    rw [get_played, get_played, hplay]
    rcases hrow k with heq | ⟨hrests, hrests'⟩
    · rw [heq]
      rfl
    · dsimp only
      rw [hrests.play, hrests'.play, hrests.command, hrests'.command]
      rfl
  · have hnote (k : Fin 4) : Directive.ofNote ((s.withScore b).row.get k).2 = .ofNote (s.row.get k).2 := by
      rcases hrow k with heq | ⟨hrests, hrests'⟩
      · rw [heq]
      · rw [hrests.directive, hrests'.directive]
    unfold directives
    apply List.ext_getElem
    · simp
    · intro i hi hi'
      have hlt : i < 4 := by simpa using hi
      simpa [Vector.get_eq_getElem] using hnote ⟨i, hlt⟩

theorem playRow_withScore (h : Score.PlaysAs s.song s.score b) (htrack : s.progress.OnTrack s.song)
    (looping : Bool) : (s.withScore b).playRow looping = (s.playRow looping).withScore b := by
  obtain ⟨hplayed, hdirectives⟩ := row_withScore h htrack
  unfold playRow playRowBy
  simp only [playedBy_start]
  rw [hplayed, hdirectives]
  rfl

theorem moved_withScore (hs : s.Steady) (h : Score.PlaysAs s.song s.score b) (looping : Bool) :
    (s.withScore b).moved looping = (s.moved looping).withScore b := by
  by_cases hmoves : (s.isInterrupt && s.endFrame.isNone) = true
  · have htrack : s.progress.counted.OnTrack s.song := by
      have := hs.onTrack (by simpa using (Bool.and_eq_true_iff.1 hmoves).2)
      exact ⟨this.row, this.step⟩
    have hmoves' : ((s.withScore b).isInterrupt && (s.withScore b).endFrame.isNone) = true := hmoves
    rw [moved, moved, if_pos hmoves, if_pos hmoves', advance_eq, advance_eq]
    by_cases hdue : s.progress.isDue = true
    · have hdue' : (s.withScore b).progress.isDue = true := hdue
      rw [if_pos hdue, if_pos hdue']
      exact playRow_withScore (s := { s with progress := s.progress.counted }) h htrack looping
    · have hdue' : ¬ (s.withScore b).progress.isDue = true := hdue
      rw [if_neg hdue, if_neg hdue']
      rfl
  · have hmoves' : ¬ ((s.withScore b).isInterrupt && (s.withScore b).endFrame.isNone) = true := hmoves
    rw [moved, moved, if_neg hmoves, if_neg hmoves']

theorem sounded_withScore (h : Score.PlaysAs s.song s.score b) (interrupt : Bool) :
    (s.withScore b).sounded interrupt = (s.sounded interrupt).withScore b := by
  have hrefill : Track.refill (s.withScore b).score = Track.refill s.score := h.track.2.1
  have htick : Track.tick (s.withScore b).score = Track.tick s.score := h.track.2.2
  have hseek : (s.withScore b).seek = s.seek.withScore b := by
    unfold seek seekBy
    simp only [Track.refillBy_start, hrefill]
    rfl
  have hticked : (s.seek.withScore b).tick = s.seek.tick.withScore b := by
    unfold tick
    rw [show Track.tick (s.seek.withScore b).score = Track.tick s.seek.score from htick]
    rfl
  unfold sounded
  rw [hseek, hticked]
  cases interrupt <;> rfl

/-- **Both scores give the same frame**, and the song after it is the same but for its score. -/
theorem renderFrame_withScore (hs : s.Steady) (h : Score.PlaysAs s.song s.score b) (looping : Bool) :
    (s.withScore b).renderFrame looping =
      (s.renderFrame looping).map fun (frame, q) => (frame, q.withScore b) := by
  cases hopen : s.isFinished with
  | true =>
    rw [(renderFrame_eq_none_iff looping s).2 hopen]
    exact (renderFrame_eq_none_iff looping (s.withScore b)).2 hopen
  | false =>
    have hsounded := sounded_withScore (playsAs_of_reset_eq (reset_moved looping s) h) s.isInterrupt
    rw [← moved_withScore hs h] at hsounded
    rw [renderFrame_of_unfinished looping hopen,
      renderFrame_of_unfinished looping (s := s.withScore b) hopen]
    rw [show (s.withScore b).isInterrupt = s.isInterrupt from rfl, hsounded]
    rfl

end Sequencer

namespace Stream

open Sequencer (playsAs_of_reset_eq)

variable {b : Score} {looping unsigned : Bool} {s s' s₀ : Stream} {sink : Sink} {w : Written}

/-- The stream at the same point, over another score. -/
def withScore (s : Stream) (b : Score) : Stream :=
  { s with sequencer := s.sequencer.withScore b }

/-- Whether the song of a stream is played over another score as over its own. -/
def PlaysOver (s : Stream) (b : Score) : Prop :=
  Score.PlaysAs s.sequencer.song s.sequencer.score b

theorem renderInto_withScore {q : Sequencer} (hq : q.Steady) (h : Score.PlaysAs q.song q.score b)
    (looping : Bool) (n : ℕ) (out : Array UInt8) :
    renderInto looping n (q.withScore b) out =
      ((renderInto looping n q out).1.withScore b, (renderInto looping n q out).2) := by
  induction n generalizing q out with
  | zero => rfl
  | succ n ih =>
    rw [renderInto, renderInto, Sequencer.renderFrame_withScore hq h]
    cases hr : q.renderFrame looping with
    | none => rfl
    | some r =>
      have hf := Sequencer.follows_of_renderFrame hr
      exact ih (hq.follows hf) (playsAs_of_reset_eq hf.reset h) _

theorem fill_withScore (hs : s.Steady) (h : s.PlaysOver b) (looping : Bool) :
    (s.withScore b).fill looping = (s.fill looping).withScore b := by
  have hrender := renderInto_withScore hs.song h looping
    ((s.capacity - s.pending.size) / s.frameSize) s.pending
  unfold fill
  dsimp only
  rw [show renderInto looping (((s.withScore b).capacity - (s.withScore b).pending.size) /
    (s.withScore b).frameSize) (s.withScore b).sequencer (s.withScore b).pending = _ from hrender]
  rfl

/-- **Reads hand out the same.** -/
theorem read_withScore (hs : s.Steady) (h : s.PlaysOver b) (ms : ℕ) (looping : Bool) :
    (s.withScore b).read ms looping = (s.read ms looping).map fun (data, t) => (data, t.withScore b) := by
  have hend : (s.withScore b).atEnd = s.atEnd := rfl
  have hlow : (s.withScore b).isLow ((s.withScore b).wanted ms) = s.isLow (s.wanted ms) := rfl
  unfold read
  rw [hend]
  by_cases hatEnd : s.atEnd = true
  · rw [if_pos hatEnd, if_pos hatEnd]
    rfl
  rw [if_neg hatEnd, if_neg hatEnd]
  by_cases hlong : longestRead < ms
  · rw [if_pos hlong, if_pos hlong]
    rfl
  rw [if_neg hlong, if_neg hlong]
  by_cases hzero : ms = 0
  · rw [if_pos hzero, if_pos hzero]
    rfl
  rw [if_neg hzero, if_neg hzero]
  dsimp only
  rw [hlow, fill_withScore hs h]
  cases s.isLow (s.wanted ms) <;> rfl

/-- The stream of a write over another score. -/
def Written.withScore (w : Written) (b : Score) : Written :=
  { w with stream := w.stream.withScore b }

theorem playsOver_of_reset_eq (hr : s'.reset = s.reset) (h : s.PlaysOver b) : s'.PlaysOver b :=
  playsAs_of_reset_eq (congrArg Stream.sequencer hr) h

/-- **Writes send the same chunks**, and come to the same end. -/
theorem drain_withScore (hs : s.Steady) (h : s.PlaysOver b) (hw : s.drain unsigned sink = some w) :
    (s.withScore b).drain unsigned sink = some (w.withScore b) := by
  refine drain.partial_correctness unsigned (fun sink s w => s.Steady → s.PlaysOver b →
    (s.withScore b).drain unsigned sink = some (w.withScore b)) ?_ sink s w hw hs h
  -- a round reads once and goes on with a stream that has the same start
  intro drain' ih sink s w hround hs h
  have hend : (s.withScore b).atEnd = s.atEnd := rfl
  rw [drain, hend, read_withScore hs h]
  split at hround
  · rename_i hatEnd
    obtain rfl := Option.some.inj hround
    rw [if_pos hatEnd]
    rfl
  rename_i hatEnd
  rw [if_neg hatEnd]
  split at hround
  · rename_i fault hread
    obtain rfl := Option.some.inj hround
    rw [hread]
    rfl
  · rename_i data t hread
    rw [hread]
    simp only [Except.map]
    obtain ⟨k, hserved, hsteady⟩ := served_answer hs longestRead true
    rw [answer, hread] at hserved hsteady
    split at hround
    · rename_i hfull
      obtain rfl := Option.some.inj hround
      rw [if_pos hfull]
      rfl
    · rename_i hroom
      rw [if_neg hroom]
      obtain ⟨rest, hrest, hw⟩ := Option.bind_eq_some_iff.1 hround
      obtain rfl := Option.some.inj hw
      rw [ih _ _ _ hrest hsteady (playsOver_of_reset_eq hserved.reset_eq h)]
      rfl

/-- **A write is the same over both scores.** -/
theorem write_withScore (hs : Ready s₀ s) (h : s.PlaysOver b) (loops : ℕ) (fromStart unsigned : Bool)
    (sink : Sink) : (s.withScore b).write loops fromStart unsigned sink =
      (s.write loops fromStart unsigned sink).withScore b := by
  unfold write
  by_cases hmany : mostLoops < loops
  · rw [if_pos hmany, if_pos hmany]
    rfl
  rw [if_neg hmany, if_neg hmany]
  dsimp only
  have hrewound : Ready s₀ (if fromStart then s.reset else s) := by
    split
    · exact hs.rewound
    · exact hs
  have hplays : ((if fromStart then s.reset else s).limited (some loops)).PlaysOver b := by
    cases fromStart <;> exact h
  have hfirst : ((if fromStart then (s.withScore b).reset else s.withScore b).limited (some loops)) =
      ((if fromStart then s.reset else s).limited (some loops)).withScore b := by
    cases fromStart <;> rfl
  obtain ⟨w, hw⟩ := Option.isSome_iff_exists.1 (hrewound.drain_isSome loops unsigned sink)
  rw [hfirst, hw, drain_withScore (hrewound.steady.limited _) hplays hw]
  rfl

/-! ## What a stream says -/

/-- What a stream gives for a request, and what it shows afterwards. -/
structure Report where
  chunks : List (Array UInt8)
  fault : Option StreamFault
  loops : ℕ
  atEnd : Bool
  endBytes : Option ℕ

/-- The chunks that a request is answered with, and the fault if it was not carried out. -/
def reply (s : Stream) : Request → List (Array UInt8) × Option StreamFault
  | .read ms looping =>
    match s.read ms looping with
    | .error fault => ([], some fault)
    | .ok (data, _) => ([data], none)
  | .write loops fromStart unsigned sink =>
    let w := s.write loops fromStart unsigned sink
    (w.chunks, w.fault)
  | .reset => ([], none)

/-- What a stream says to some requests, one after the other. -/
def reports : List Request → Stream → List Report
  | [], _ => []
  | r :: requests, s =>
    ⟨(s.reply r).1, (s.reply r).2, (s.after r).loops, (s.after r).atEnd, (s.after r).endBytes⟩ ::
      reports requests (s.after r)

/-- What is heard of a song under some requests, or why it cannot be started. -/
def session (score : Score) (index : ℕ) (setup : Setup) (requests : List Request) :
    Except RangeFault (List Report) :=
  (start score index setup).map (reports requests)

/-- **Every request is answered the same over both scores.** -/
theorem after_withScore (hs : Ready s₀ s) (h : s.PlaysOver b) (r : Request) :
    (s.withScore b).reply r = s.reply r ∧ (s.withScore b).after r = (s.after r).withScore b := by
  cases r with
  | read ms looping =>
    rw [reply, reply, after, after, answer, answer, read_withScore hs.steady h]
    cases s.read ms looping <;> exact ⟨rfl, rfl⟩
  | write loops fromStart unsigned sink =>
    rw [reply, reply, after, after, write_withScore hs h]
    exact ⟨rfl, rfl⟩
  | reset => exact ⟨rfl, rfl⟩

theorem reports_withScore (hs : Ready s₀ s) (h : s.PlaysOver b) (requests : List Request) :
    reports requests (s.withScore b) = reports requests s := by
  induction requests generalizing s with
  | nil => rfl
  | cons r requests ih =>
    obtain ⟨hreply, hafter⟩ := after_withScore hs h r
    have hnext := hs.after r
    rw [reports, reports, hreply, hafter,
      ih hnext (playsOver_of_reset_eq (hnext.reset.trans hs.reset.symm) h)]
    rfl

/-- **A song is heard the same over both scores**, also if it cannot be started. -/
theorem session_eq {a b : Score} {index : ℕ} (hsongs : b.songs = a.songs)
    (h : ∀ song, a.songs[index]? = some song → Score.PlaysAs song a b) (setup : Setup)
    (requests : List Request) : session b index setup requests = session a index setup requests := by
  have hstart : start b index setup = (start a index setup).map (·.withScore b) := by
    unfold start Sequencer.start
    rw [hsongs]
    split
    · rfl
    · split
      · rfl
      · split <;> rfl
  rw [session, hstart, session]
  cases hs : start a index setup with
  | error fault => rfl
  | ok s₀ =>
    obtain ⟨hready, song, hsong, hs₀⟩ := start_eq_ok hs
    have hplays : s₀.PlaysOver b := by
      rw [hs₀]
      exact h song hsong
    exact congrArg Except.ok (reports_withScore hready hplays requests)

end Stream

/-! ## Saved scores -/

namespace Score

variable {score : Score} {song : Song}

/-- Whether the parts past the last whole step rest, as far as a song plays that step. -/
def LeftoverRests (score : Score) (song : Song) : Prop :=
  score.stepCount = song.first.toNat ∨ score.stepCount ≤ song.last.toNat →
    ∀ i ≥ score.stepCount * partsPerStep, ∀ part ∈ score.parts[i]?,
      ∀ row < Progress.stepRows song, ∀ note ∈ score.notes[part.start.toNat + row]?, note.Rests

theorem getElem?_parts_normal (score : Score) (i : ℕ) :
    score.normal.parts[i]? =
      if i < score.stepCount * partsPerStep then score.parts[i]? else none := by
  change (score.parts.take (score.stepCount * partsPerStep))[i]? = _
  rw [Array.take_eq_extract, Array.getElem?_extract]
  have := score.stepCount_mul_le
  simp [Nat.min_eq_left this]

/-- Steps are numbered by words, so no position wraps. -/
theorem part?_of_onTrack {p : Progress} (h : p.OnTrack song) (score : Score) (k : Fin 4) :
    score.part? p.place.step k = score.parts[p.place.step * partsPerStep + k]? := by
  have hstep : p.place.step < 65536 := by
    have := song.first.toNat_lt
    have := song.last.toNat_lt
    rcases h.step with hle | hfirst
    · omega
    · rw [hfirst]
      omega
  exact score.part?_of_small (by omega) k.isLt

/-- **A saved score is played as it was**, if its leftover parts rest. -/
theorem normal_playsAs (h : score.LeftoverRests song) : PlaysAs song score score.normal := by
  refine ⟨⟨rfl, rfl, rfl⟩, fun p htrack k => ?_⟩
  have hblank : Note.blank.Rests := by decide
  set i := p.place.step * partsPerStep + k with hi
  have hpart : score.part? p.place.step k = score.parts[i]? := part?_of_onTrack htrack score k
  have hpart' : score.normal.part? p.place.step k = score.normal.parts[i]? :=
    part?_of_onTrack htrack score.normal k
  rw [getElem?_parts_normal] at hpart'
  by_cases hwhole : i < score.stepCount * partsPerStep
  · left
    rw [row, row, hpart', if_pos hwhole, hpart]
    rfl
  · right
    rw [row, row, hpart', if_neg hwhole, hpart]
    refine ⟨hblank, ?_⟩
    cases hleft : score.parts[i]? with
    | none => exact hblank
    | some part =>
      dsimp only
      cases hnote : score.note? part p.place.row with
      | none => exact hblank
      | some note =>
        -- only the step after the last whole one has parts that are left over
        have hsize := (Array.getElem?_eq_some_iff.1 hleft).1
        have hstep : score.stepCount = p.place.step := by
          have := k.isLt
          unfold stepCount partsPerStep at *
          omega
        have hreached : score.stepCount = song.first.toNat ∨ score.stepCount ≤ song.last.toNat := by
          rcases htrack.step with hle | hfirst
          · exact .inr (hstep ▸ hle)
          · exact .inl (by rw [hstep, hfirst])
        have hrow : p.place.row < Progress.stepRows song := htrack.row
        have hlarge : part.start.toNat + p.place.row < 0x10000000000000000 := by
          have := part.start.toNat_lt
          have := song.rows.toNat_lt
          unfold Progress.stepRows at hrow
          omega
        rw [note?, Word.position_of_lt hlarge] at hnote
        exact h hreached i (Nat.le_of_not_lt hwhole) part hleft p.place.row hrow note hnote

end Score

namespace ModuleFile

variable {file : Bytes} {score : Score}

/-- **Converting a module keeps its sound.** Every module that can be read is converted to a file that
can be read. Whatever is asked of a song in it, under any settings, is answered as before: the same
bytes and faults, and after each request the same loops and the same end. Only the parts past the
last whole step are lost, so if the song plays that step they must rest. -/
theorem conversion_keeps_sound (h : decode file = .ok score) :
    ∃ saved score', encode score = .ok saved ∧ decode saved = .ok score' ∧
      ∀ index, (∀ song, score.songs[index]? = some song → score.LeftoverRests song) →
        ∀ setup requests,
          Stream.session score' index setup requests = Stream.session score index setup requests := by
  obtain ⟨saved, hsaved⟩ : ∃ saved, encode score = .ok saved := ⟨_, encode_eq (fits_of_decode h)⟩
  refine ⟨saved, score.normal, hsaved, decode_of_encode hsaved, fun index hrests setup requests => ?_⟩
  have hsongs : score.normal.songs = score.songs := rfl
  exact Stream.session_eq hsongs (fun song hsong => Score.normal_playsAs (hrests song hsong)) setup
    requests

/-- A song of one row in the step after the last whole one, where one channel has a part. -/
def stub (n : Note) : Score :=
  { encoding := .offsetTable
    author := some ""
    songs := #[⟨1, 1, 1, 1, 0, 200⟩]
    parts := #[⟨0, 0, 0⟩, ⟨0, 0, 0⟩, ⟨0, 0, 0⟩, ⟨0, 0, 0⟩, ⟨1, 0, 0⟩]
    notes := #[.blank, n] }

/-- The module of that song. -/
def stubFile (n : Note) : Bytes :=
  OffsetTable.Image.bytes
    { before := [], freeWord := 0, reserved := 0
      songs := ⟨(stub n).songs, []⟩
      parts := ⟨(stub n).parts, []⟩
      notes := ⟨(stub n).notes, []⟩
      instruments := ⟨#[], []⟩, waves := ⟨#[], []⟩, volumeWaves := ⟨#[], []⟩, pitchWaves := ⟨#[], []⟩
      recordings := [], author := "", after := [] }

/-- A row that names an instrument and has a command without a meaning rests. -/
theorem stub_keeps_sound :
    let n : Note := ⟨0, 1, 0x03, 2⟩
    decode (stubFile n) = .ok (stub n) ∧
      (∀ song, (stub n).songs[0]? = some song → (stub n).LeftoverRests song) ∧
      ∃ saved score', encode (stub n) = .ok saved ∧ decode saved = .ok score' ∧
        score'.parts.size = 4 ∧ ∀ setup requests,
          Stream.session score' 0 setup requests = Stream.session (stub n) 0 setup requests := by
  intro n
  have hdecode : decode (stubFile n) = .ok (stub n) := by decide +kernel
  have hwhole : (stub n).stepCount * Score.partsPerStep = 4 := by decide
  have hrests : ∀ song, (stub n).songs[0]? = some song → (stub n).LeftoverRests song := by
    intro song hsong _ i hi part hpart row hrow note hnote
    obtain rfl : ⟨1, 1, 1, 1, 0, 200⟩ = song := Option.some.inj hsong
    obtain ⟨hlt, rfl⟩ := Array.getElem?_eq_some_iff.1 hpart
    obtain rfl : i = 4 := Nat.le_antisymm (Nat.le_of_lt_succ hlt) (hwhole ▸ hi)
    obtain rfl : row = 0 := Nat.lt_one_iff.1 hrow
    obtain rfl : n = note := Option.some.inj hnote
    decide
  obtain ⟨saved, score', hsaved, hscore', hsame⟩ := conversion_keeps_sound hdecode
  refine ⟨hdecode, hrests, saved, score', hsaved, hscore', ?_, hsame 0 hrests⟩
  obtain rfl := Except.ok.inj ((decode_of_encode hsaved).symm.trans hscore')
  exact Score.size_wholeParts.trans hwhole

/-- A row that sets the speed does not: with it the song goes on for twice as long. -/
theorem stub_changes_sound :
    let n : Note := ⟨0, 0, 0x0F, 2⟩
    let setup : Setup := { rate := 2000, allowFilter := false }
    decode (stubFile n) = .ok (stub n) ∧
      ∃ saved score', encode (stub n) = .ok saved ∧ decode saved = .ok score' ∧
        Stream.session score' 0 setup [.read 1 false] ≠
          Stream.session (stub n) 0 setup [.read 1 false] := by
  intro n setup
  have hdecode : decode (stubFile n) = .ok (stub n) := by decide +kernel
  obtain ⟨saved, hsaved⟩ : ∃ saved, encode (stub n) = .ok saved :=
    ⟨_, encode_eq (fits_of_decode hdecode)⟩
  have hlong : (Stream.session (stub n) 0 setup [.read 1 false]).map (·.map (·.endBytes)) =
      .ok [some 20] := by decide +kernel
  have hshort : (Stream.session (stub n).normal 0 setup [.read 1 false]).map (·.map (·.endBytes)) =
      .ok [some 10] := by decide +kernel
  refine ⟨hdecode, saved, (stub n).normal, hsaved, decode_of_encode hsaved, fun hsame => ?_⟩
  rw [hsame, hlong] at hshort
  cases hshort

end ModuleFile

end Chiptune
