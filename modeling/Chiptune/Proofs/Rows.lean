import Mathlib
import Chiptune.Proofs.Finish

/-!
# Which rows are played

A song plays its first row wherever that lies, and after it only rows of its steps. Until it loops it
goes forward through them, and once its end is known it stands still.

* `Place.Before`: the order of rows.
* `Progress.Leads`, `turn_leads`: where a song can go on from a row.
* `progress_run_of_end`: **after the end nothing moves the song**.
* `rows_of_song`: only rows of the song are played, and in order.
-/

namespace Chiptune

/-- Whether a place comes before another: in an earlier step, or earlier in the same one. -/
def Place.Before (a b : Place) : Prop :=
  a.step < b.step ∨ a.step = b.step ∧ a.row < b.row

namespace Progress

variable {song : Song} {p : Progress} {goal : Option Place} {looping : Bool}

/-- Whether a song that has played the row of one progress can stand as another says before it plays
the next: further on in the same pass, or in the next pass. -/
def Leads (p q : Progress) : Prop :=
  q.loops = p.loops ∧ p.place.Before q.place ∨ q.loops = p.loops + 1

/-- A row of one of the steps up to the last one. -/
def Inside (song : Song) (p : Progress) : Prop :=
  p.place.step ≤ song.last.toNat ∧ p.place.row < stepRows song

/-- Rows are counted in their order. -/
theorem before_of_rank_lt {a b : Place} (hb : b.row < stepRows song)
    (h : rank song a < rank song b) : a.Before b := by
  rcases Nat.lt_trichotomy a.step b.step with hlt | heq | hgt
  · exact Or.inl hlt
  · refine Or.inr ⟨heq, ?_⟩
    unfold rank at h
    rw [heq] at h
    omega
  · have := rank_lt_of_step_lt hb hgt
    omega

/-- **A row that does not end the song leads to a row of it**, further on or in the next pass. -/
theorem turn_leads (h : p.OnTrack song) (hgo : p.ends song looping goal = false) :
    (p.turn song looping goal).Inside song ∧ p.Leads (p.turn song looping goal) := by
  have hrow := p.row_nextPlace_lt song goal
  obtain ⟨hclose, hturn⟩ | ⟨step, hstep, -, hturn⟩ := turn_cases hgo <;> rw [hturn]
  · obtain ⟨hstep, hrank⟩ := rank_nextPlace h hclose
    exact ⟨⟨hstep, hrow⟩, Or.inl ⟨rfl, before_of_rank_lt hrow hrank⟩⟩
  · exact ⟨⟨hstep, hrow⟩, Or.inr rfl⟩

end Progress

namespace Sequencer

open Progress (Inside Leads)

variable {looping : Bool} {s s' : Sequencer} {f : Frame} {p : Progress}

/-- How a song stands at each row that it plays under given loop flags, just before the row. -/
def playedRows : List Bool → Sequencer → List Progress
  | [], _ => []
  | looping :: flags, s =>
    match s.renderFrame looping with
    | none => []
    | some (_, s') => if s.playsRow then s.progress :: playedRows flags s' else playedRows flags s'

theorem playedRows_cons_of_some (hr : s.renderFrame looping = some (f, s')) (flags : List Bool) :
    playedRows (looping :: flags) s =
      if s.playsRow then s.progress :: playedRows flags s' else playedRows flags s' := by
  rw [playedRows, hr]

/-! ## After the end -/

/-- Once the end is known a frame leaves the song where it is. -/
theorem Follows.progress_of_end (hf : Follows looping s f s') (he : s.endFrame ≠ none) :
    s'.progress = s.progress ∧ s'.endFrame = s.endFrame := by
  have hmove := hf.move
  generalize s'.progress = q at hmove ⊢
  generalize s'.endFrame = o at hmove ⊢
  cases hmove with
  | stay => exact ⟨rfl, rfl⟩
  | count _ hnone | turn _ hnone | finish _ hnone => exact absurd hnone he

/-- **After the end nothing moves the song.** -/
theorem progress_run_of_end (he : s.endFrame ≠ none) (flags : List Bool) :
    (run flags s).2.progress = s.progress ∧ (run flags s).2.endFrame = s.endFrame := by
  refine run_induction (P := fun q => q.progress = s.progress ∧ q.endFrame = s.endFrame) ?_ ⟨rfl, rfl⟩
  intro looping q f q' hf hq
  obtain ⟨hp, ho⟩ := hf.progress_of_end (hq.2 ▸ he)
  exact ⟨hp.trans hq.1, ho.trans hq.2⟩

/-- After the end no row is played. -/
theorem playedRows_of_end (he : s.endFrame ≠ none) (flags : List Bool) : playedRows flags s = [] := by
  induction flags generalizing s with
  | nil => rfl
  | cons looping flags ih =>
    cases hr : s.renderFrame looping with
    | none => rw [playedRows, hr]
    | some r =>
      have hrow : s.playsRow = false :=
        Bool.eq_false_iff.2 fun hrow => he (playsRow_iff.1 hrow).2.1
      have hnext := ((follows_of_renderFrame hr).progress_of_end he).2
      rw [playedRows_cons_of_some hr, hrow, if_neg Bool.false_ne_true]
      exact ih (hnext ▸ he)

/-! ## Before the end -/

/-- A song that has played a row and not ended there stands inside, at a row that comes next. -/
theorem inside_of_playsRow (h : s.Steady) (hrow : s.playsRow = true) (hf : Follows looping s f s')
    (hgo : s'.endFrame = none) : s'.progress.Inside s.song ∧ s.progress.Leads s'.progress := by
  obtain ⟨hends, hturn⟩ := hf.turn_of_playsRow hrow hgo
  have htrack := h.onTrack (playsRow_iff.1 hrow).2.1
  rw [hturn]
  exact Progress.turn_leads (p := s.rowProgress) ⟨htrack.row, htrack.step⟩ hends

/-- Between rows a song stands still. -/
theorem place_of_not_playsRow (hrow : s.playsRow = false) (hf : Follows looping s f s') :
    s'.progress.place = s.progress.place ∧ s'.progress.loops = s.progress.loops ∧
      s'.endFrame = s.endFrame := by
  obtain ⟨hprogress, hend⟩ := hf.of_not_playsRow hrow
  rw [hprogress]
  split
  · exact ⟨rfl, rfl, hend⟩
  · exact ⟨rfl, rfl, hend⟩

/-- **The rows after a row** are rows of the song, and each of them comes after the one before it. -/
theorem playedRows_leads (h : s.Steady) (hs : s.endFrame = none → s.progress.Inside s.song ∧
    p.Leads s.progress) (flags : List Bool) :
    (∀ q ∈ playedRows flags s, q.Inside s.song) ∧ (p :: playedRows flags s).IsChain Leads := by
  induction flags generalizing s p with
  | nil => exact ⟨nofun, List.isChain_singleton p⟩
  | cons looping flags ih =>
    cases hr : s.renderFrame looping with
    | none =>
      rw [playedRows, hr]
      exact ⟨nofun, List.isChain_singleton p⟩
    | some r =>
      have hf := follows_of_renderFrame hr
      have hsong := song_eq_of_reset_eq hf.reset
      rw [playedRows_cons_of_some hr]
      cases hrow : s.playsRow with
      | true =>
        -- this row is the next one, and the one that later rows come after
        obtain ⟨hinside, hleads⟩ := hs (playsRow_iff.1 hrow).2.1
        obtain ⟨hall, hchain⟩ := ih (p := s.progress) (h.follows hf)
          (fun hgo => hsong ▸ inside_of_playsRow h hrow hf hgo)
        rw [hsong] at hall
        exact ⟨List.forall_mem_cons.2 ⟨hinside, hall⟩, List.isChain_cons_cons.2 ⟨hleads, hchain⟩⟩
      | false =>
        obtain ⟨hplace, hloops, hend⟩ := place_of_not_playsRow hrow hf
        have hnext := ih (p := p) (h.follows hf) fun hgo => by
          obtain ⟨hinside, hleads⟩ := hs (hend ▸ hgo)
          unfold Inside Leads at *
          rw [hsong, hplace, hloops]
          exact ⟨hinside, hleads⟩
        rw [hsong] at hnext
        exact hnext

/-! ## The rows of a song -/

variable {score : Score} {index : ℕ} {setup : Setup} {s₀ : Sequencer}

/-- The first frame plays a row. -/
theorem playsRow_start (h₀ : start score index setup = .ok s₀) (limit : Option ℕ) :
    (s₀.setLoopLimit limit).playsRow = true := by
  obtain ⟨hsteady, song, -, rfl⟩ := start_eq_ok h₀
  refine playsRow_iff.2 ⟨isInterrupt_of_le (hsteady.setLoopLimit limit).toSound ?_, rfl, ?_⟩
  · exact (congrArg (4 * ·) (Nat.zero_mul _)).trans_le (Nat.zero_le _)
  · exact decide_eq_true (Nat.zero_mod _)

/-- **Only rows of the song are played.** The first row is that of the song's start; all others lie
in the steps up to the last one, in the rows of a step. Each row comes later in the song than the one
before it, unless a loop was counted between them. Once the end is known no row is played, and speed,
place and loops stay as they are, whatever the loop flags. -/
theorem rows_of_song (h₀ : start score index setup = .ok s₀) (limit : Option ℕ)
    (flags : List Bool) :
    let s := s₀.setLoopLimit limit
    let rows := playedRows flags s
    let q := (run flags s).2
    (flags ≠ [] → ∃ p, rows.head? = some p ∧ p.place = ⟨s₀.song.first.toNat, 0⟩) ∧
    (∀ p ∈ rows.tail, p.place.step ≤ s₀.song.last.toNat ∧ p.place.row < max 1 s₀.song.rows.toNat) ∧
    rows.IsChain (fun p p' =>
      p'.loops = p.loops ∧ p.place.Before p'.place ∨ p'.loops = p.loops + 1) ∧
    (q.endFrame ≠ none → ∀ later : List Bool,
      playedRows later q = [] ∧ (run later q).2.progress = q.progress) := by
  intro s rows q
  obtain ⟨hstart, song, -, hs₀⟩ := start_eq_ok h₀
  have hsteady : s.Steady := hstart.setLoopLimit limit
  have hplace : s₀.progress.place = ⟨s₀.song.first.toNat, 0⟩ := by rw [hs₀]; rfl
  have hlast (hend : q.endFrame ≠ none) (later : List Bool) :
      playedRows later q = [] ∧ (run later q).2.progress = q.progress :=
    ⟨playedRows_of_end hend later, (progress_run_of_end hend later).1⟩
  cases flags with
  | nil => exact ⟨fun h => absurd rfl h, nofun, List.isChain_nil, hlast⟩
  | cons looping flags =>
    have hrow : s.playsRow = true := playsRow_start h₀ limit
    cases hr : s.renderFrame looping with
    | none =>
      have hend := (renderFrame_eq_none_iff looping s).1 hr
      simp [isFinished, (playsRow_iff.1 hrow).2.1] at hend
    | some r =>
      have hf := follows_of_renderFrame hr
      have hrows : rows = s.progress :: playedRows flags r.2 := by
        rw [show rows = _ from playedRows_cons_of_some hr flags, hrow, if_pos rfl]
      obtain ⟨hall, hchain⟩ := playedRows_leads (p := s.progress) (hsteady.follows hf)
        (fun hgo => song_eq_of_reset_eq hf.reset ▸ inside_of_playsRow hsteady hrow hf hgo) flags
      rw [song_eq_of_reset_eq hf.reset] at hall
      refine ⟨fun _ => ⟨s.progress, by rw [hrows]; rfl, hplace⟩, ?_, hrows ▸ hchain, hlast⟩
      rw [hrows]
      exact hall

/-- A song that starts past its last step, where the second row leads two rows on. -/
def detour : Score :=
  { songs := #[⟨1, 3, 2, 1, 0, 200⟩]
    parts := Array.replicate 12 ⟨0, 0, 0⟩
    notes := #[⟨0, 0, 0, 0⟩, ⟨0, 0, 0x0D, 1⟩, ⟨0, 0, 0, 0⟩] }

def detouring : Sequencer :=
  .atStart detour ⟨1, 3, 2, 1, 0, 200⟩ { rate := 2000 }

theorem start_detour : start detour 0 { rate := 2000 } = .ok detouring := rfl

example : (playedRows (List.replicate 61 true) (detouring.setLoopLimit (some 2))).map Progress.place =
    [⟨2, 0⟩, ⟨0, 1⟩, ⟨1, 1⟩, ⟨0, 1⟩, ⟨1, 1⟩] := by decide +kernel

theorem detour_rows :
    start detour 0 { rate := 2000 } = .ok detouring ∧
      let rows := playedRows (List.replicate 61 true) (detouring.setLoopLimit (some 2))
      (∃ p, rows.head? = some p ∧ p.place = ⟨2, 0⟩) ∧
      ∀ p ∈ rows.tail, p.place.step ≤ 1 ∧ p.place.row < 3 := by
  obtain ⟨hfirst, hothers, -⟩ := rows_of_song start_detour (some 2) (List.replicate 61 true)
  exact ⟨start_detour, hfirst (by simp), hothers⟩

end Sequencer

end Chiptune
