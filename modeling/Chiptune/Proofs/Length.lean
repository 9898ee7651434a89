import Mathlib
import Chiptune.Proofs.Punctual
import Chiptune.Proofs.Rows

/-!
# How long a song is

A song in which no note leads elsewhere or sets the speed plays its rows in order, one every `speed`
interrupts, and loops from its last row as often as it may. So the number of its rows is known, and
with it the interrupt of the last one; a row later the song is over.

* `Progress.rowsToEnd_turn`: **every row leaves one row fewer to play.**
* `Sequencer.Paced`: what each frame keeps; `Paced.follows`.
* `Stream.exact_length`: **the length of a song that is written whole.**
-/

namespace Chiptune

namespace Progress

variable {song : Song} {p : Progress} {limit : ℕ}

/-- Rows of the steps that a loop plays again. -/
def loopRows (song : Song) : ℕ :=
  (song.last.toNat - song.loopTarget + 1) * stepRows song

/-- Rows up to the end, the next one included, if none of them leads elsewhere and the song loops as
often as it may. -/
def rowsToEnd (song : Song) (limit : ℕ) (p : Progress) : ℕ :=
  (limit - p.loops) * loopRows song + (passRows song - rank song p.place)

/-- Rows from the first one of a step to the end of a pass. -/
theorem passRows_sub_rank {step : ℕ} (h : step ≤ song.last.toNat) :
    passRows song - rank song ⟨step, 0⟩ = (song.last.toNat - step + 1) * stepRows song := by
  have hrank : rank song ⟨step, 0⟩ = step * stepRows song := rfl
  rw [passRows, hrank, ← Nat.sub_mul]
  congr 1
  omega

/-- From its start a song plays one pass, and all of its loops. -/
theorem rowsToEnd_start (h : song.first.toNat ≤ song.last.toNat) (limit : ℕ) :
    (start song).rowsToEnd song limit = stepRows song *
      ((song.last.toNat - song.first.toNat + 1) + limit * (song.last.toNat - song.loopTarget + 1)) := by
  have hplace : (start song).place = ⟨song.first.toNat, 0⟩ := rfl
  have hloops : (start song).loops = 0 := rfl
  rw [rowsToEnd, hplace, passRows_sub_rank h, loopRows, hloops, Nat.sub_zero]
  ring

/-- Without a goal the next place is one row further. -/
theorem rank_nextPlace_none (song : Song) (h : p.place.row < stepRows song) :
    rank song (p.nextPlace song none) = rank song p.place + 1 := by
  unfold nextPlace
  simp only [Option.getD_none, Option.map_none]
  by_cases hrow : p.place.row + 1 < song.rows.toNat
  · rw [if_pos hrow]
    rfl
  · rw [if_neg hrow]
    have hlast : p.place.row + 1 = stepRows song := by
      unfold stepRows at h ⊢
      omega
    change (p.place.step + 1) * stepRows song + 0 = p.place.step * stepRows song + p.place.row + 1
    rw [Nat.add_mul, Nat.one_mul]
    omega

/-- A row closes a pass without a goal only at the end of the last step. -/
theorem rank_of_closesPass (hrow : p.place.row < stepRows song)
    (hstep : p.place.step ≤ song.last.toNat) (hclose : p.closesPass song none = true) :
    rank song p.place + 1 = passRows song ∧ (p.nextPlace song none).row = 0 := by
  have hnext := rank_nextPlace_none song hrow
  have hpast : song.last.toNat < (p.nextPlace song none).step := by
    simpa [closesPass, isPast] using hclose
  unfold nextPlace at hpast hnext ⊢
  simp only [Option.getD_none, Option.map_none] at hpast hnext ⊢
  by_cases hmore : p.place.row + 1 < song.rows.toNat
  · rw [if_pos hmore] at hpast
    exact absurd hstep (Nat.not_le.2 hpast)
  · rw [if_neg hmore] at hpast hnext ⊢
    have hlast : p.place.step = song.last.toNat := Nat.le_antisymm hstep (Nat.lt_succ_iff.1 hpast)
    refine ⟨?_, rfl⟩
    rw [← hnext, rank, hlast]
    rfl

/-- The last row of the last step loops to the first row of the step that the song goes back to. -/
theorem turn_loop (hrow : p.place.row < stepRows song) (hstep : p.place.step ≤ song.last.toNat)
    (hclose : p.closesPass song none = true) (hmay : p.mayLoop true = true) :
    p.turn song true none = { p with place := ⟨song.loopTarget, 0⟩, loops := p.loops + 1 } := by
  obtain ⟨-, hzero⟩ := rank_of_closesPass hrow hstep hclose
  have hpast : isPast song (p.nextPlace song none) = true := by simpa [closesPass] using hclose
  rw [turn, hclose, hmay, hpast]
  simp [hzero]

/-- **Every row leaves one row fewer to play**, unless it ends the song. -/
theorem rowsToEnd_turn (hrow : p.place.row < stepRows song) (hstep : p.place.step ≤ song.last.toNat)
    (hlimit : p.loopLimit = some limit) (hgo : p.ends song true none = false) :
    (p.turn song true none).rowsToEnd song limit + 1 = p.rowsToEnd song limit ∧
      (p.turn song true none).place.step ≤ song.last.toNat := by
  have hhere : rank song p.place < passRows song := rank_lt_passRows hrow hstep
  cases hclose : p.closesPass song none with
  | false =>
    have hturn : p.turn song true none = { p with place := p.nextPlace song none } := by
      rw [turn, hclose, Bool.false_and]
      rfl
    have hnext := rank_nextPlace_none song hrow
    have hinside : (p.nextPlace song none).step ≤ song.last.toNat := by
      simpa [closesPass, isPast] using hclose
    rw [hturn]
    refine ⟨?_, hinside⟩
    simp only [rowsToEnd, hnext]
    omega
  | true =>
    have hmay : p.mayLoop true = true := by simpa [ends, hclose] using hgo
    have hloops := ((mayLoop_iff hlimit).1 hmay).2
    obtain ⟨hlast, -⟩ := rank_of_closesPass hrow hstep hclose
    rw [turn_loop hrow hstep hclose hmay]
    refine ⟨?_, song.loopTarget_le⟩
    -- a loop is used up, and the rows of a loop lie ahead again
    obtain ⟨k, hk⟩ : ∃ k, limit - p.loops = k + 1 := ⟨limit - p.loops - 1, by omega⟩
    have hk' : limit - (p.loops + 1) = k := by omega
    have hahead := passRows_sub_rank song.loopTarget_le
    rw [← loopRows] at hahead
    simp only [rowsToEnd, hk, hk', hahead, Nat.add_mul]
    omega

/-- The row that ends a song is its last one. -/
theorem rowsToEnd_of_ends (hrow : p.place.row < stepRows song)
    (hstep : p.place.step ≤ song.last.toNat) (hlimit : p.loopLimit = some limit)
    (hend : p.ends song true none = true) : p.rowsToEnd song limit = 1 := by
  have hloops := limit_le_of_ends hlimit hend
  obtain ⟨hlast, -⟩ := rank_of_closesPass hrow hstep ((p.ends_iff song true none).1 hend).1
  rw [rowsToEnd, Nat.sub_eq_zero_of_le hloops, Nat.zero_mul]
  omega

end Progress

/-- The least multiple that reaches a number is the one that is less than a unit past it. -/
theorem eq_ceilDiv {a b n : ℕ} (hle : a ≤ n * b) (hlt : n * b < a + b) : n = a ⌈/⌉ b := by
  have hb : 0 < b := by omega
  rw [Nat.ceilDiv_eq_add_pred_div]
  refine (Nat.div_eq_of_lt_le ?_ ?_).symm
  · omega
  · rw [Nat.succ_mul]
    omega

namespace Sequencer

variable {rows limit : ℕ} {s s' : Sequencer} {f : Frame}

/-- A song that plays so many rows in all, one after the other and at one speed. -/
structure Paced (rows limit : ℕ) (s : Sequencer) : Prop extends s.Steady where
  looped : s.Looped limit
  abreast : s.Abreast
  prompt : s.Prompt
  keepsSpeed : s.score.KeepsSpeed
  goesOn : s.score.GoesOn
  speed : s.progress.speed = s.song.speed.toNat
  inside : s.endFrame = none → s.progress.place.step ≤ s.song.last.toNat
  pace : s.endFrame = none → s.interrupts + s.progress.wait +
    s.progress.rowsToEnd s.song limit * s.progress.speed = rows * s.progress.speed
  ends : ∀ e, s.endFrame = some e → e =
    ((rows - 1) * s.progress.speed * s.setup.rate) ⌈/⌉ s.song.interruptRate.toNat + s.rowFrames

/-- A row has as many frames as the song, the settings and the speed say. -/
theorem rowFrames_eq_of_reset_eq (h : s'.reset = s.reset)
    (hspeed : s'.progress.speed = s.progress.speed) : s'.rowFrames = s.rowFrames := by
  rw [rowFrames, rowFrames, hspeed, setup_eq_of_reset_eq h, song_eq_of_reset_eq h]

/-- **The end of such a song** is a row after the interrupt of its last row. -/
theorem Paced.endFrame_of_playsRow (h : s.Paced rows limit) (hexact : s.Punctual)
    (hrow : s.playsRow = true) (hend : s.rowProgress.ends s.song true s.goal? = true) :
    s.frames = ((rows - 1) * s.progress.speed * s.setup.rate) ⌈/⌉ s.song.interruptRate.toNat := by
  obtain ⟨hi, hopen, hdue⟩ := playsRow_iff.1 hrow
  rw [goal?_eq_none h.goesOn] at hend
  have hone : s.progress.rowsToEnd s.song limit = 1 :=
    Progress.rowsToEnd_of_ends (p := s.rowProgress) (h.onTrack hopen).row (h.inside hopen)
      h.looped.limited hend
  have hpace := h.pace hopen
  rw [hone, Progress.wait_of_isDue hdue, Nat.one_mul, Nat.add_zero] at hpace
  have hinterrupts : s.interrupts = (rows - 1) * s.progress.speed := by
    rw [Nat.sub_mul, ← hpace]
    omega
  have hlate : s.frames * s.song.interruptRate.toNat <
    s.interrupts * s.setup.rate + s.song.interruptRate.toNat := h.prompt
  rw [← hinterrupts]
  exact eq_ceilDiv (hexact.1 hi) hlate

/-- Once the end is known it stays, a row after the interrupt of the last row. -/
theorem Paced.endFrame_follows (h : s.Paced rows limit) (hexact : s.Punctual)
    (hf : Follows true s f s') {e : ℕ} (he : s'.endFrame = some e) :
    e = ((rows - 1) * s.progress.speed * s.setup.rate) ⌈/⌉ s.song.interruptRate.toNat +
      s.rowFrames := by
  cases hrow : s.playsRow with
  | false => exact h.ends e ((hf.of_not_playsRow hrow).2 ▸ he)
  | true =>
    have hend := (hf.of_playsRow hrow).2
    rw [he] at hend
    split at hend
    · rename_i hends
      have hlast : { s with progress := s.rowProgress }.rowFrames = s.rowFrames := by
        rw [rowFrames, rowFrames, speed_rowProgress_eq h.keepsSpeed]
      rw [Option.some.inj hend, hlast, h.endFrame_of_playsRow hexact hrow hends]
    · cases hend

/-- A row that does not end such a song leaves one row fewer. -/
theorem Paced.turn_of_playsRow (h : s.Paced rows limit) (hrow : s.playsRow = true)
    (hf : Follows true s f s') (hopen' : s'.endFrame = none) :
    s'.progress.rowsToEnd s.song limit + 1 = s.progress.rowsToEnd s.song limit ∧
      s'.progress.place.step ≤ s.song.last.toNat := by
  have hopen := (playsRow_iff.1 hrow).2.1
  obtain ⟨hgo, hturn⟩ := hf.turn_of_playsRow hrow hopen'
  rw [goal?_eq_none h.goesOn] at hgo hturn
  rw [hturn]
  exact Progress.rowsToEnd_turn (p := s.rowProgress) (h.onTrack hopen).row (h.inside hopen)
    h.looped.limited hgo

/-- As long as the end is open, a row uses up as many interrupts as the speed says. -/
theorem Paced.follows_open (h : s.Paced rows limit) (hf : Follows true s f s')
    (hopen' : s'.endFrame = none) :
    s'.progress.place.step ≤ s.song.last.toNat ∧
      s'.interrupts + s'.progress.wait + s'.progress.rowsToEnd s.song limit * s.progress.speed =
        rows * s.progress.speed := by
  have hopen : s.endFrame = none := by
    by_contra he
    exact he ((hf.progress_of_end he).2 ▸ hopen')
  have hpace := h.pace hopen
  cases hrow : s.playsRow with
  | false =>
    obtain ⟨-, hwaits, -⟩ := waits_follows h.toSteady hopen hrow hf
    obtain ⟨hplace, hloops, -⟩ := place_of_not_playsRow hrow hf
    rw [hwaits, Progress.rowsToEnd, hplace, hloops]
    exact ⟨h.inside hopen, hpace⟩
  | true =>
    have hspeed := hf.speed_eq h.keepsSpeed
    have hwaits := waits_of_playsRow h.toSteady h.abreast hrow hf hopen'
    rw [hspeed, h.abreast.mod_speed hrow, Nat.sub_zero] at hwaits
    obtain ⟨hless, hinside⟩ := h.turn_of_playsRow hrow hf hopen'
    rw [Progress.wait_of_isDue (playsRow_iff.1 hrow).2.2] at hpace
    rw [hwaits, ← hpace, ← hless, Nat.add_mul]
    exact ⟨hinside, by omega⟩

/-- **A frame keeps the pace.** -/
theorem Paced.follows (h : s.Paced rows limit) (hexact : s.Punctual) (hf : Follows true s f s') :
    s'.Paced rows limit := by
  have hspeed := hf.speed_eq h.keepsSpeed
  have hsetup := setup_eq_of_reset_eq hf.reset
  have hsong := song_eq_of_reset_eq hf.reset
  have hscore := score_eq_of_reset_eq hf.reset
  have hnext := h.follows_open hf
  refine
    { toSteady := h.toSteady.follows hf
      looped := h.looped.follows hf
      abreast := h.abreast.follows hf
      prompt := h.prompt.follows h.toSound hexact hf
      keepsSpeed := hscore ▸ h.keepsSpeed
      goesOn := hscore ▸ h.goesOn
      speed := by rw [hspeed, hsong, h.speed]
      inside := fun hopen => hsong ▸ (hnext hopen).1
      pace := fun hopen => by rw [hsong, hspeed]; exact (hnext hopen).2
      ends := fun e he => ?_ }
  rw [hspeed, hsetup, hsong, rowFrames_eq_of_reset_eq hf.reset hspeed]
  exact h.endFrame_follows hexact hf he

/-- **A song that is on time keeps the pace** in all of its frames. -/
theorem Paced.run (h : s.Paced rows limit) (hexact : s.OnTime) (n : ℕ) :
    (run (List.replicate n true) s).2.Paced rows limit := by
  -- being on time is kept along with the pace
  have hboth : let q := (s.run (List.replicate n true)).2
      q.Paced rows limit ∧ q.OnTime := by
    refine run_replicate_induction (P := fun q => q.Paced rows limit ∧ q.OnTime) ?_ ⟨h, hexact⟩ n
    intro s f s' hr ⟨hpaced, htime⟩
    obtain ⟨hnow, hlater⟩ := htime.follows hr
    exact ⟨hpaced.follows hnow (follows_of_renderFrame hr), hlater⟩
  exact hboth.1

end Sequencer

namespace Stream

variable {score : Score} {index : ℕ} {setup : Setup} {s₀ : Stream}

/-- A song starts with all of its rows ahead. -/
theorem paced_start (h₀ : start score index setup = .ok s₀) (hkeeps : score.KeepsSpeed)
    (hgoes : score.GoesOn) (hsteps : s₀.sequencer.song.first ≤ s₀.sequencer.song.last)
    (loops : ℕ) :
    let song := s₀.sequencer.song
    (s₀.sequencer.setLoopLimit (some loops)).Paced (Progress.stepRows song *
      ((song.last.toNat - song.first.toNat + 1) +
        loops * (song.last.toNat - song.loopTarget + 1))) loops := by
  obtain ⟨hsteady, habreast, hprompt⟩ := prompt_start h₀ (some loops)
  obtain ⟨-, song, -, rfl⟩ := start_eq_ok h₀
  have hle : song.first.toNat ≤ song.last.toNat := UInt16.le_iff_toNat_le.1 hsteps
  exact
    { toSteady := hsteady
      looped := ⟨rfl, Nat.zero_le _, fun he => absurd rfl he⟩
      abreast := habreast
      prompt := hprompt
      keepsSpeed := hkeeps
      goesOn := hgoes
      speed := rfl
      inside := fun _ => hle
      pace := fun _ => by
        have hdue : (Progress.start song).isDue = true := decide_eq_true (Nat.zero_mod _)
        change 0 + (Progress.start song).wait +
          (Progress.start song).rowsToEnd song loops * song.speed.toNat = _
        rw [Progress.wait_of_isDue hdue, Progress.rowsToEnd_start hle, Nat.zero_add]
        rfl
      ends := nofun }

/-- **How long a song is.** Let no note lead elsewhere or set the speed, and let the song start no
later than in its last step. Then it plays `rows` rows when it loops as often as it may, and however
the stream was used before, a write from the start comes to its end and gives all of them: the frames
up to the interrupt of the last row, which is the first frame that has reached its time, and one row
more. -/
theorem exact_length (h₀ : start score index setup = .ok s₀) (requests : List Request) {loops : ℕ}
    (hloops : loops ≤ 100)
    (hplain : ∀ note ∈ score.notes, note.command ∉ [.positionJump, .patternBreak, .setSpeed])
    (hsteps : s₀.sequencer.song.first ≤ s₀.sequencer.song.last)
    (hexact : (s₀.sequencer.setLoopLimit (some loops)).OnTime) (unsigned : Bool) :
    let song := s₀.sequencer.song
    let rows := max 1 song.rows.toNat * ((song.last.toNat - song.first.toNat + 1) +
      loops * (song.last.toNat - song.loopTarget + 1))
    let s := requests.foldl after s₀
    ((s.reset.limited (some loops)).drain unsigned .endless).isSome ∧
    ∃ pcm, (s.write loops true unsigned .endless).whole = .ok pcm ∧
      pcm.size = setup.frameSize *
        (((rows - 1) * song.speed.toNat * setup.rate) ⌈/⌉ song.interruptRate.toNat +
          s₀.sequencer.rowFrames) := by
  intro song rows s
  have hused : Ready s₀ s := (start_eq_ok h₀).1.foldl_after requests
  refine ⟨hused.rewound.drain_isSome loops unsigned .endless, ?_⟩
  have hkeeps : score.KeepsSpeed := fun note hnote hc => hplain note hnote (by simp [hc])
  have hgoes : score.GoesOn := fun note hnote hc => hplain note hnote (by
    rcases List.mem_cons.1 hc with h | h
    · simp [h]
    · simp [List.mem_singleton.1 h])
  have hpaced := paced_start h₀ hkeeps hgoes hsteps loops
  obtain ⟨n, pcm, hn, hwhole, hpcm⟩ := exists_whole h₀ requests hloops unsigned
  refine ⟨pcm, hwhole, ?_⟩
  -- at the end the frames are those up to the end
  have hlast := hpaced.run hexact n
  have hreset := Sequencer.reset_run (List.replicate n true)
    (s₀.sequencer.setLoopLimit (some loops))
  have hsong := Sequencer.song_eq_of_reset_eq hreset
  have hsetup := Sequencer.setup_eq_of_reset_eq hreset
  have hend := hlast.ends _ (hn.endFrame_eq hpaced.toSteady)
  rw [Sequencer.rowFrames_eq_of_reset_eq hreset
    (hlast.speed.trans (hsong ▸ hpaced.speed.symm)), hlast.speed, hsong, hsetup] at hend
  obtain ⟨-, song', -, rfl⟩ := start_eq_ok h₀
  have hbytes := congrArg List.length hpcm
  rw [Array.length_toList, length_sent, Sequencer.length_pcm_run, hn.all, Nat.mul_comm] at hbytes
  rw [hbytes, ← Nat.zero_add n]
  exact congrArg (setup.frameSize * ·) hend

/-- A song of two steps that repeats the second, with an interrupt every 13 frames and a third. -/
def refrain : Score :=
  { songs := #[⟨1, 1, 0, 1, 1, 150⟩]
    parts := Array.replicate 8 ⟨0, 0, 0⟩
    notes := #[⟨0, 0, 0x0C, 32⟩] }

/-- With one loop it has three rows: the last begins with frame 27 and lasts 13 frames. -/
theorem length_refrain :
    ∃ s₀, start refrain 0 { rate := 2000 } = .ok s₀ ∧ 1 ≤ 100 ∧
      (∀ note ∈ refrain.notes, note.command ∉ [.positionJump, .patternBreak, .setSpeed]) ∧
      s₀.sequencer.song.first ≤ s₀.sequencer.song.last ∧
      (s₀.sequencer.setLoopLimit (some 1)).OnTime ∧
      ((s₀.reset.limited (some 1)).drain false .endless).isSome ∧
      ∃ pcm, (s₀.write 1 true false .endless).whole = .ok pcm ∧ pcm.size = 40 := by
  obtain ⟨s₀, h₀⟩ : ∃ s₀, start refrain 0 { rate := 2000 } = .ok s₀ := ⟨_, rfl⟩
  have hplain : ∀ note ∈ refrain.notes,
      note.command ∉ [.positionJump, .patternBreak, .setSpeed] := by decide
  have hsteps : s₀.sequencer.song.first ≤ s₀.sequencer.song.last := by
    cases h₀
    decide
  have hexact : (s₀.sequencer.setLoopLimit (some 1)).OnTime := by
    cases h₀
    exact Sequencer.onTime_of_keepsTime (n := 40) (by decide +kernel)
  obtain ⟨hends, pcm, hwhole, hsize⟩ :=
    exact_length h₀ [] (show 1 ≤ 100 by decide) hplain hsteps hexact false
  refine ⟨s₀, h₀, by decide, hplain, hsteps, hexact, hends, pcm, hwhole, hsize.trans ?_⟩
  cases h₀
  decide +kernel

end Stream

end Chiptune
