import Mathlib
import Chiptune.Proofs.LoopCap
import Chiptune.Proofs.Punctual

/-!
# A song read in part and written on

A read says with a flag whether its frames may loop; a write always says that they may, and sets a
limit. With a limit of no loops at all, or without the flag, no row ever loops, so both ways of
making frames are one. Where reads stop and a write goes on, and which frames of the one the other
finds in the buffer, leaves no mark on the bytes.

* `Progress.mayLoop_barred`: a song that may take no loops takes none under either flag.
* `Sequencer.renderFrame_barred`: **such a song makes the frames of a song that is not to loop**.
* `Stream.written_on`: what a write that takes no loops gives, wherever the stream is.
* `Stream.reads_then_rest`: **reads and the rest are the whole song**.
-/

namespace Chiptune

namespace Progress

/-- The progress with no loop allowed. -/
def barred (p : Progress) : Progress :=
  { p with loopLimit := some 0 }

theorem mayLoop_barred (p : Progress) (looping : Bool) :
    p.barred.mayLoop looping = p.mayLoop false := by
  cases looping with
  | false => rfl
  | true => exact decide_eq_false (Nat.not_lt_zero p.loops)

/-- Where no loop is allowed the flag has no part in a turn. -/
theorem turn_barred (song : Song) (looping : Bool) (p : Progress) (goal : Option Place) :
    p.barred.turn song looping goal = (p.turn song false goal).barred := by
  have hnone : p.mayLoop false = false := rfl
  unfold turn
  dsimp only
  rw [mayLoop_barred, hnone, Bool.and_false, Bool.and_false, if_neg Bool.false_ne_true,
    if_neg Bool.false_ne_true]
  rfl

theorem ends_barred (song : Song) (looping : Bool) (p : Progress) (goal : Option Place) :
    p.barred.ends song looping goal = p.ends song false goal := by
  have hclose : p.barred.closesPass song goal = p.closesPass song goal := rfl
  rw [ends, ends, hclose, mayLoop_barred]

end Progress

namespace Sequencer

variable {looping : Bool} {s : Sequencer} {n : ℕ}

/-- The song with no loop allowed. -/
def barred (s : Sequencer) : Sequencer :=
  s.setLoopLimit (some 0)

theorem playRow_barred (looping : Bool) (s : Sequencer) :
    s.barred.playRow looping = (s.playRow false).barred := by
  -- the directives of the row set the speed, and then it turns
  let p : Progress := { s.progress with
    speed := s.directives.foldl (fun n d => Directive.onSpeed d n) s.progress.speed }
  let goal := Directive.lastGoal? s.directives s.progress.place.step
  have hrow : s.barred.playRow looping =
      { s.playRow false with
        progress := p.barred.turn s.song looping goal
        endFrame := if p.barred.ends s.song looping goal then
          some (s.frames + { s with progress := p }.rowFrames) else s.endFrame } := rfl
  rw [hrow, Progress.turn_barred, Progress.ends_barred]
  rfl

/-- An interrupt does the same where no loop is allowed and where none is asked for. -/
theorem moved_barred (looping : Bool) (s : Sequencer) :
    s.barred.moved looping = (s.moved false).barred := by
  have hadvance : s.barred.advance looping = (s.advance false).barred := by
    have hdue : s.barred.progress.isDue = s.progress.isDue := rfl
    rw [advance_eq, advance_eq, hdue]
    by_cases h : s.progress.isDue = true
    · rw [if_pos h, if_pos h]
      exact playRow_barred looping { s with progress := s.progress.counted }
    · rw [if_neg h, if_neg h]
      rfl
  have hmoves : (s.barred.isInterrupt && s.barred.endFrame.isNone) =
      (s.isInterrupt && s.endFrame.isNone) := rfl
  unfold moved
  rw [hmoves]
  by_cases h : (s.isInterrupt && s.endFrame.isNone) = true
  · rw [if_pos h, if_pos h]
    exact hadvance
  · rw [if_neg h, if_neg h]

/-- **Where no loop is allowed a song makes the frame that it makes without looping.** -/
theorem renderFrame_barred (looping : Bool) (s : Sequencer) :
    s.barred.renderFrame looping = (s.renderFrame false).map fun (f, s') => (f, s'.barred) := by
  by_cases hend : s.isFinished = true
  · have hend' : s.barred.isFinished = true := hend
    rw [(renderFrame_eq_none_iff _ _).2 hend, (renderFrame_eq_none_iff _ _).2 hend']
    rfl
  · have hopen : s.isFinished = false := Bool.not_eq_true _ ▸ hend
    have hsounded (q : Sequencer) (i : Bool) : q.barred.sounded i = (q.sounded i).barred := by
      cases i <;> rfl
    have hinterrupt : s.barred.isInterrupt = s.isInterrupt := rfl
    rw [renderFrame_of_unfinished looping (s := s.barred) hopen,
      renderFrame_of_unfinished false hopen, moved_barred, hinterrupt, hsounded]
    rfl

/-- So do all frames, whatever the flags are. -/
theorem run_barred (flags : List Bool) (s : Sequencer) :
    run flags s.barred = ((run (List.replicate flags.length false) s).1,
      (run (List.replicate flags.length false) s).2.barred) := by
  induction flags generalizing s with
  | nil => rfl
  | cons looping flags ih =>
    have hframe := renderFrame_barred looping s
    rw [List.length_cons, List.replicate_succ]
    cases hr : s.renderFrame false with
    | none =>
      rw [hr] at hframe
      rw [run, run, hframe, hr]
      rfl
    | some r =>
      rw [hr] at hframe
      rw [run_cons_of_some hframe, run_cons_of_some hr, ih]

theorem run_replicate_barred (looping : Bool) (n : ℕ) (s : Sequencer) :
    run (List.replicate n looping) s.barred = ((run (List.replicate n false) s).1,
      (run (List.replicate n false) s).2.barred) := by
  have h := run_barred (List.replicate n looping) s
  rwa [List.length_replicate] at h

theorem endsAfter_barred_iff : s.barred.EndsAfter looping n ↔ s.EndsAfter false n := by
  have hrun := run_replicate_barred looping n s
  constructor
  · intro h
    have hall := h.all
    have hended := h.ended
    rw [hrun] at hall hended
    exact ⟨hall, hended⟩
  · intro h
    refine ⟨?_, ?_⟩
    · rw [hrun]
      exact h.all
    · rw [hrun]
      exact h.ended

end Sequencer

namespace Stream

variable {s s₀ : Stream} {score : Score} {index : ℕ} {setup : Setup}

/-- **A write that takes no loops gives the rest of the song**: what is buffered, and the frames up to
the end. -/
theorem written_on (h : s.Steady) {k : ℕ} (hk : s.sequencer.EndsAfter false k) :
    ∃ pcm, (s.write 0 false false .endless).whole = .ok pcm ∧
      pcm.toList =
        s.pending.toList ++ Frame.pcm (s.sequencer.run (List.replicate k false)).1 := by
  have hbarred : (s.limited (some 0)).sequencer.EndsAfter true k :=
    Sequencer.endsAfter_barred_iff.2 hk
  obtain ⟨w, hw, hspec⟩ := drain_spec (h.limited (some 0)) false .endless hbarred
  have hdone := hspec rfl
  have hwrite : s.write 0 false false .endless = { w with stream := w.stream.limited none } :=
    write_of_drain (Nat.zero_le _) false hw
  refine ⟨w.pcm, ?_, ?_⟩
  · rw [hwrite, Written.whole, hdone.fault]
    rfl
  · rw [Written.toList_pcm, hdone.bytes]
    have hrun := Sequencer.run_replicate_barred true k s.sequencer
    exact congrArg (fun r => s.pending.toList ++ Frame.pcm r.1) hrun

/-- **Reads and the rest are the whole song.** Take a new stream, or one that was used in any way
and reset, which is the same, and reads of any lengths that are not to loop; one that is too long,
or comes after the end, hands out nothing. A write that goes on from there with no loop allowed
comes to its end, and so does a write from the start under that limit, whatever its stream was used
for before; and the first gives the rest of what the second gives. For with no loop allowed a song
makes, frame for frame, what it makes when it is not to loop, and stands at the same place. -/
theorem reads_then_rest (h₀ : start score index setup = .ok s₀) (requests requests' : List Request)
    (durations : List ℕ) :
    let s := (requests.foldl after s₀).reset
    let out := (s.reads (durations.map (·, false))).1
    let t := (s.reads (durations.map (·, false))).2
    let u := requests'.foldl after s₀
    s = s₀ ∧
    ((t.limited (some 0)).drain false .endless).isSome ∧
    ((u.reset.limited (some 0)).drain false .endless).isSome ∧
    (∃ rest whole, (t.write 0 false false .endless).whole = .ok rest ∧
      (u.write 0 true false .endless).whole = .ok whole ∧ out ++ rest.toList = whole.toList) ∧
    ∀ (q : Sequencer) (n : ℕ),
      q.barred.run (List.replicate n true) =
        ((q.run (List.replicate n false)).1, (q.run (List.replicate n false)).2.barred) := by
  obtain ⟨hready, song, -, hs₀⟩ := start_eq_ok h₀
  rw [show (requests.foldl after s₀).reset = s₀ from (hready.foldl_after requests).reset]
  intro s out t u
  have hread : Ready s₀ t := hready.reads (durations.map (·, false))
  have hused : Ready s₀ u := hready.foldl_after requests'
  refine ⟨rfl, hread.drain_isSome 0 false .endless, hused.rewound.drain_isSome 0 false .endless, ?_,
    fun q n => Sequencer.run_replicate_barred true n q⟩
  -- the whole song has `n` frames, none of which is made under a loop
  obtain ⟨n, whole, hn, hwhole, hbytes⟩ := exists_whole h₀ requests' (Nat.zero_le 100) false
  have hrun : (s₀.sequencer.setLoopLimit (some 0)).run (List.replicate n true) = _ :=
    Sequencer.run_replicate_barred true n s₀.sequencer
  rw [hrun] at hbytes
  have hn : s₀.sequencer.EndsAfter false n := Sequencer.endsAfter_barred_iff.1 hn
  -- the reads make `j` of them, some of which stay in the buffer
  have hserved := served_frameFlags hready.fresh (durations.map (·, false))
  have hunlooped : ∀ r ∈ durations.map (·, false), r.2 = false := by
    intro r hr
    obtain ⟨ms, -, rfl⟩ := List.mem_map.1 hr
    rfl
  obtain ⟨j, hj⟩ := frameFlags_eq_replicate hunlooped s₀
  rw [hj] at hserved
  have hmade := hserved.made
  rw [List.length_replicate] at hmade
  -- and the write makes the `i` that are left
  obtain ⟨i, rfl, hi⟩ := hn.split hmade
  rw [← hserved.sequencer] at hi
  obtain ⟨rest, hrest, hrestBytes⟩ := written_on hread.steady hi
  refine ⟨rest, whole, hrest, hwhole, ?_⟩
  have hmadeBytes : out ++ t.pending.toList =
      Frame.pcm (s₀.sequencer.run (List.replicate j false)).1 := by
    have h := hserved.bytes
    rwa [show s₀.pending = #[] by rw [hs₀], List.nil_append] at h
  calc out ++ rest.toList
      = out ++ t.pending.toList ++ Frame.pcm (t.sequencer.run (List.replicate i false)).1 := by
        rw [hrestBytes, List.append_assoc]
    _ = Frame.pcm (s₀.sequencer.run (List.replicate j false)).1 ++
          Frame.pcm (t.sequencer.run (List.replicate i false)).1 := by rw [hmadeBytes]
    _ = Frame.pcm (s₀.sequencer.run (List.replicate (j + i) false)).1 := by
        rw [hserved.sequencer, List.replicate_add, Sequencer.run_append, Frame.pcm_append]
    _ = whole.toList := hbytes.symm

/-- Of four reads one hands out nothing and one is refused; the first has made the whole song ahead, and
six of its twenty frames are left for the write. -/
theorem gallop_reads_then_rest :
    start gallop 0 { rate := 2000, allowFilter := false } = .ok galloping ∧
      let out := (galloping.reads [(3, false), (0, false), (5000, false), (4, false)]).1
      let t := (galloping.reads [(3, false), (0, false), (5000, false), (4, false)]).2
      let u := [Request.read 30 true].foldl after galloping
      ((t.limited (some 0)).drain false .endless).isSome ∧
      ((u.reset.limited (some 0)).drain false .endless).isSome ∧
      ∃ rest whole, (t.write 0 false false .endless).whole = .ok rest ∧
        (u.write 0 true false .endless).whole = .ok whole ∧ out ++ rest.toList = whole.toList ∧
        out.length = 14 ∧ rest.size = 6 ∧ whole.size = 20 := by
  obtain ⟨-, hends, hends', ⟨rest, whole, hrest, hwhole, hbytes⟩, -⟩ :=
    reads_then_rest start_gallop [] [.read 30 true] [3, 0, 5000, 4]
  have hready := (start_eq_ok start_gallop).1.reads
    [(3, false), (0, false), (5000, false), (4, false)]
  have hread : (galloping.reads [(3, false), (0, false), (5000, false), (4, false)]).1.length =
      14 := by decide +kernel
  have hleft : (galloping.reads [(3, false), (0, false), (5000, false), (4, false)]).2.pending.size =
      6 := by decide +kernel
  have hover : (galloping.reads [(3, false), (0, false), (5000, false), (4, false)]).2.sequencer.EndsAfter
      false 0 := by
    refine ⟨rfl, ?_⟩
    rw [List.replicate_zero, Sequencer.run]
    decide +kernel
  -- the song is over, so the write gives what is buffered
  obtain ⟨rest', hrest', hbuffered⟩ := written_on hready.steady hover
  obtain rfl := Except.ok.inj (hrest.symm.trans hrest')
  have hsize : rest.size = 6 := by
    rw [← Array.length_toList, hbuffered, List.length_append, Array.length_toList, hleft]
    rfl
  refine ⟨start_gallop, hends, hends', rest, whole, hrest, hwhole, hbytes, hread, hsize, ?_⟩
  rw [← Array.length_toList, ← hbytes, List.length_append, Array.length_toList, hsize]
  exact congrArg (· + 6) hread

end Stream

end Chiptune
