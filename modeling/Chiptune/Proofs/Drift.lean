import Mathlib
import Chiptune.Proofs.Punctual
import Chiptune.Proofs.Ranges
import Chiptune.Proofs.Rounding

/-!
# Interrupts do not drift

A frame takes at most one interrupt, and both times are counted from the start of the song. Since a
song has at least as many frames in a second as interrupts, that is enough: no interrupt is left out,
and each comes with the first frame that has reached its time, however long the song has been played.

* `InPace`: a song with as many interrupts as its frames ask for.
* `InPace.kept`: **every call keeps pace**.
* `punctual_of_frames_le`: the first `2 ^ 42` frames are timed exactly, which is 254 days of the
  fastest stream.
* `interrupts_keep_pace`: **the interrupts are counted by the frames**.
-/

namespace Chiptune.Sequencer

variable {s s' : Sequencer} {looping : Bool} {f : Frame}

/-- A song with as many interrupts as its frames ask for: the next one is due with the next frame at
the earliest, and the last one was due when it came. -/
structure InPace (s : Sequencer) : Prop where
  prompt : s.Prompt
  due : s.interrupts * s.setup.rate + s.song.interruptRate.toNat ≤
    s.frames * s.song.interruptRate.toNat + s.setup.rate

theorem irq_le_rate (hs : s.Sound) : s.song.interruptRate.toNat ≤ s.setup.rate := by
  have := hs.irq_le
  have := hs.rate_ge
  omega

/-- A song at its start is in pace. -/
theorem inPace_of_zero (hs : s.Sound) (hframes : s.frames = 0) (hinterrupts : s.interrupts = 0) :
    s.InPace := by
  have hpos := hs.irq_pos
  have hle := irq_le_rate hs
  refine ⟨?_, ?_⟩
  · unfold Prompt
    rw [hframes, hinterrupts]
    omega
  · rw [hframes, hinterrupts]
    omega

/-- **A frame keeps pace**: it takes the next interrupt just when that is due. -/
theorem InPace.follows (h : s.InPace) (hs : s.Sound) (hexact : s.Punctual)
    (hf : Follows looping s f s') : s'.InPace := by
  refine ⟨h.prompt.follows hs hexact hf, ?_⟩
  have hdue := h.due
  unfold Punctual at hexact
  rw [hf.frames, hf.interrupts, setup_eq_of_reset_eq hf.reset, song_eq_of_reset_eq hf.reset,
    Nat.add_mul, Nat.add_mul]
  cases hi : s.isInterrupt with
  | true =>
    have := hexact.1 hi
    rw [Bool.toNat_true]
    omega
  | false =>
    rw [Bool.toNat_false]
    omega

/-- A limit of the loops and a reset keep pace in any case, a frame where it is timed exactly. -/
theorem InPace.kept (h : s.InPace) (hs : s.Sound) (hexact : s.isFinished = false → s.Punctual)
    (c : Call) : (s.called c).InPace := by
  cases c with
  | limit loops => exact ⟨h.prompt, h.due⟩
  | reset =>
    have hpos := hs.irq_pos
    have hle := irq_le_rate hs
    refine ⟨?_, ?_⟩
    · change 0 * s.song.interruptRate.toNat < 0 * s.setup.rate + s.song.interruptRate.toNat
      omega
    · change 0 * s.setup.rate + s.song.interruptRate.toNat ≤
        0 * s.song.interruptRate.toNat + s.setup.rate
      omega
  | frame looping =>
    cases hr : s.renderFrame looping with
    | none =>
      rw [called, call, hr]
      exact h
    | some r =>
      have hf := follows_of_renderFrame hr
      rw [called_frame_of_some hr]
      exact h.follows hs (hexact hf.unfinished) hf

/-- There are no more interrupts than frames. -/
theorem InPace.interrupts_le (h : s.InPace) (hs : s.Sound) : s.interrupts ≤ s.frames := by
  have hdue := h.due
  have hpos := hs.irq_pos
  have hle := irq_le_rate hs
  by_contra hlt
  have h1 : (s.frames + 1) * s.setup.rate ≤ s.interrupts * s.setup.rate :=
    Nat.mul_le_mul_right _ (by omega)
  have h2 : s.frames * s.song.interruptRate.toNat ≤ s.frames * s.setup.rate :=
    Nat.mul_le_mul_left _ hle
  rw [Nat.add_mul] at h1
  omega

/-- **The first frames are timed exactly.** So small times are compared in binary64 as the numbers
are. -/
theorem punctual_of_frames_le (h : s.InPace) (hs : s.Sound) (hfew : s.frames ≤ 2 ^ 42) :
    s.Punctual := by
  have hirq := hs.irq_le
  have hsmall : s.frames * s.song.interruptRate.toNat ≤ 2 ^ 50 :=
    calc s.frames * s.song.interruptRate.toNat ≤ 2 ^ 42 * 2 ^ 8 := Nat.mul_le_mul hfew (by omega)
      _ = 2 ^ 50 := by norm_num
  have hle := Binary64.quotient_le_iff hs.irq_pos (irq_le_rate hs) hs.rate_le (h.interrupts_le hs)
    hsmall
  exact decide_eq_true_iff.trans hle

/-- **The interrupts of a song in pace** are those whose time lies before its last frame, or at it. -/
theorem InPace.interrupts_eq (h : s.InPace) (hs : s.Sound) (hpos : 0 < s.frames) :
    s.interrupts = (s.frames - 1) * s.song.interruptRate.toNat / s.setup.rate + 1 := by
  have hprompt := h.prompt
  have hdue := h.due
  have hrate := hs.rate_ge
  unfold Prompt at hprompt
  obtain ⟨n, hn⟩ : ∃ n, s.frames = n + 1 := ⟨s.frames - 1, by omega⟩
  rw [hn, Nat.add_mul] at hprompt hdue
  -- the first frame has taken an interrupt
  obtain ⟨i, hi⟩ : ∃ i, s.interrupts = i + 1 := by
    refine ⟨s.interrupts - 1, ?_⟩
    by_contra hzero
    rw [show s.interrupts = 0 by omega] at hprompt
    omega
  rw [hi, Nat.add_mul] at hprompt hdue
  rw [hn, hi, Nat.add_sub_cancel]
  congr 1
  symm
  rw [Nat.div_eq_iff (by omega)]
  constructor
  · omega
  · omega

/-- Counted in frames, a time is reached by the first frame that has left the one before it behind. -/
theorem eq_ceilDiv_iff {n p k : ℕ} (hp : 0 < p) : k = n ⌈/⌉ p ↔ n ≤ k * p ∧ k * p < n + p := by
  rw [Nat.ceilDiv_eq_add_pred_div, eq_comm, Nat.div_eq_iff hp]
  omega

/-- **The frame of an interrupt** is the first one that has reached its time. -/
theorem InPace.interrupt_iff (h : s.InPace) (hs : s.Sound) (hexact : s.Punctual) (i : ℕ) :
    s.isInterrupt = true ∧ s.interrupts = i ↔
      s.frames = (i * s.setup.rate) ⌈/⌉ s.song.interruptRate.toNat := by
  have hprompt := h.prompt
  have hdue := h.due
  have hirq := hs.irq_pos
  have hle := irq_le_rate hs
  unfold Prompt at hprompt
  unfold Punctual at hexact
  rw [hexact, eq_ceilDiv_iff hirq]
  constructor
  · rintro ⟨htime, rfl⟩
    exact ⟨htime, hprompt⟩
  · rintro ⟨htime, hfirst⟩
    -- an earlier interrupt has come already, and a later one cannot be due
    have hsame : s.interrupts = i := by
      rcases Nat.lt_trichotomy s.interrupts i with hlt | heq | hlt
      · have := Nat.mul_le_mul_right s.setup.rate (Nat.succ_le_of_lt hlt)
        rw [Nat.succ_mul] at this
        omega
      · exact heq
      · have := Nat.mul_le_mul_right s.setup.rate (Nat.succ_le_of_lt hlt)
        rw [Nat.succ_mul] at this
        omega
    exact ⟨hsame ▸ htime, hsame⟩

/-! ## Songs in use -/

variable {score : Score} {index : ℕ} {setup : Setup} {s₀ : Sequencer}

/-- A song in use is in pace, if its frames past the first `2 ^ 42` were timed exactly. -/
theorem InPace.foldl_called (h : s.InPace) (hs : s.Sound) (hreset : s.reset.Sound) (calls : List Call)
    (hexact : ∀ before, before <+: calls → let q := before.foldl called s
      q.isFinished = false → 2 ^ 42 < q.frames → q.Punctual) :
    (calls.foldl called s).InPace := by
  induction calls generalizing s with
  | nil => exact h
  | cons c calls ih =>
    have hnow : s.isFinished = false → s.Punctual := by
      intro hopen
      rcases Nat.lt_or_ge (2 ^ 42) s.frames with hlate | hfew
      · exact hexact [] (List.nil_prefix) hopen hlate
      · exact punctual_of_frames_le h hs hfew
    refine ih (h.kept hs hnow c) (hs.called hreset [c]) (hs.called hreset [c, .reset]) ?_
    intro before hbefore
    exact hexact (c :: before) (List.cons_prefix_cons.2 ⟨rfl, hbefore⟩)

/-- **The interrupts are counted by the frames.** Take any song of any score under any settings, and
use it in any way. After no frame no interrupt has come, and after `n + 1` frames as many as have
their time before frame `n`, or at it. The next frame takes one interrupt at most, and it takes
interrupt `i` just when it is the first frame that has reached the time of `i`; the end of the song
changes nothing in that. Only for frames past the first `2 ^ 42` is it assumed that the times are
compared in binary64 as they are in exact numbers. -/
theorem interrupts_keep_pace (h₀ : start score index setup = .ok s₀) (calls : List Call)
    (hexact : ∀ before, before <+: calls → let q := before.foldl called s₀
      q.isFinished = false → 2 ^ 42 < q.frames → q.Punctual) :
    ∃ song, score.songs[index]? = some song ∧
      let s := calls.foldl called s₀
      let p := song.interruptRate.toNat
      (s.frames = 0 → s.interrupts = 0) ∧
      (∀ n, s.frames = n + 1 → s.interrupts = n * p / setup.rate + 1) ∧
      ∀ looping f s', s.renderFrame looping = some (f, s') →
        s'.interrupts = s.interrupts + s.isInterrupt.toNat ∧ s'.frames = s.frames + 1 ∧
        ∀ i, s.isInterrupt = true ∧ s.interrupts = i ↔ s.frames = (i * setup.rate) ⌈/⌉ p := by
  obtain ⟨hsteady, song, hsong, hs₀⟩ := start_eq_ok h₀
  refine ⟨song, hsong, ?_⟩
  intro s p
  have hnew : s₀.reset = s₀ := by
    rw [hs₀]
    rfl
  have hreset : s.reset = s₀.setLoopLimit (calls.foldl Call.limitFrom s₀.progress.loopLimit) := by
    rw [← hnew]
    exact reset_foldl_called calls s₀
  have hrate : s.setup.rate = setup.rate := by
    change s.reset.setup.rate = setup.rate
    rw [hreset, hs₀]
    rfl
  have hirq : s.song.interruptRate.toNat = p := by
    change s.reset.song.interruptRate.toNat = p
    rw [hreset, hs₀]
    rfl
  have hsound₀ : s₀.reset.Sound := by
    rw [hnew]
    exact hsteady.toSound
  have hs : s.Sound := hsteady.toSound.called hsound₀ calls
  have hpace₀ : s₀.InPace := by
    refine inPace_of_zero hsteady.toSound ?_ ?_ <;> rw [hs₀] <;> rfl
  have h : s.InPace := hpace₀.foldl_called hsteady.toSound hsound₀ calls hexact
  refine ⟨?_, ?_, ?_⟩
  · intro hzero
    have := h.interrupts_le hs
    omega
  · intro n hn
    have heq := h.interrupts_eq hs (by omega)
    rwa [hrate, hirq, hn, Nat.add_sub_cancel] at heq
  · intro looping f s' hr
    have hf := follows_of_renderFrame hr
    have hnow : s.Punctual := by
      rcases Nat.lt_or_ge (2 ^ 42) s.frames with hlate | hfew
      · exact hexact calls (List.prefix_refl calls) hf.unfinished hlate
      · exact punctual_of_frames_le h hs hfew
    refine ⟨hf.interrupts, hf.frames, ?_⟩
    rw [← hrate, ← hirq]
    exact h.interrupt_iff hs hnow

/-- A song has as many frames as there were calls, at most. -/
theorem frames_foldl_called_le (calls : List Call) (s : Sequencer) :
    (calls.foldl called s).frames ≤ s.frames + calls.length := by
  induction calls generalizing s with
  | nil => exact le_rfl
  | cons c calls ih =>
    have hstep : (s.called c).frames ≤ s.frames + 1 := by
      cases c with
      | limit loops => exact Nat.le_succ _
      | reset => exact Nat.zero_le _
      | frame looping =>
        cases hr : s.renderFrame looping with
        | none =>
          rw [called, call, hr]
          exact Nat.le_succ _
        | some r =>
          rw [called_frame_of_some hr]
          exact (frames_renderFrame hr).le
    have := ih (s.called c)
    rw [List.foldl_cons, List.length_cons]
    omega

/-- A song of one row, with an interrupt every thirteen frames and a third. -/
def stride : Score :=
  { songs := #[⟨4, 1, 0, 0, 0, 150⟩] }

def striding : Sequencer :=
  .atStart stride ⟨4, 1, 0, 0, 0, 150⟩ { rate := 2000 }

/-- Interrupt 2 comes with frame 27, also after a reset, and while the end is known. -/
theorem striding_keeps_pace :
    let calls := [Call.frame true, .reset] ++ List.replicate 27 (.frame false)
    let s := calls.foldl called striding
    start stride 0 { rate := 2000 } = .ok striding ∧
      (∀ before, before <+: calls → let q := before.foldl called striding
        q.isFinished = false → 2 ^ 42 < q.frames → q.Punctual) ∧
      s.endFrame = some 53 ∧ s.frames = 27 ∧ s.interrupts = 26 * 150 / 2000 + 1 ∧
      (s.renderFrame false).isSome = true ∧ s.isInterrupt = true ∧
      27 = (2 * 2000) ⌈/⌉ 150 := by
  intro calls s
  have hstart : start stride 0 { rate := 2000 } = .ok striding := rfl
  have hexact : ∀ before, before <+: calls → let q := before.foldl called striding
      q.isFinished = false → 2 ^ 42 < q.frames → q.Punctual := by
    intro before hbefore q _ hlate
    have hlen : before.length ≤ 29 := hbefore.length_le
    have hframes : q.frames ≤ 0 + before.length := frames_foldl_called_le before striding
    omega
  have hframes : s.frames = 27 := by decide +kernel
  obtain ⟨song, hsong, -, hcount, hnext⟩ := interrupts_keep_pace hstart calls hexact
  obtain rfl : ⟨4, 1, 0, 0, 0, 150⟩ = song := Option.some.inj hsong
  have hsome : (s.renderFrame false).isSome = true := by decide +kernel
  obtain ⟨⟨f, s'⟩, hr⟩ := Option.isSome_iff_exists.1 hsome
  obtain ⟨-, -, hframe⟩ := hnext false f s' hr
  have hceil : 27 = (2 * 2000) ⌈/⌉ 150 := by decide
  exact ⟨hstart, hexact, by decide +kernel, hframes, hcount 26 hframes, hsome,
    ((hframe 2).2 (hframes.trans hceil)).1, hceil⟩

end Chiptune.Sequencer
